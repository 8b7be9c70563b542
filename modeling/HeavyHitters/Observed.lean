/-!
# Observed structures

Some answers are snapshots: an answer is computed at the first request for it and then kept, and
later requests get the kept answer, also when the structure has moved on.  The kept answer stands
beside the structure, which does not know of it, so asking cannot disturb the structure.

The first insert after the answer was taken raises a warning, once, that the answer is stale.
-/

namespace HeavyHitters

/-- A structure, the answer kept from the first request, and whether the warning was raised. -/
structure Observed (σ α : Type) where
  state : σ
  answer : Option α
  warned : Bool

namespace Observed

variable {σ α : Type}

/-- A structure of which nothing was asked so far. -/
def fresh (state : σ) : Observed σ α := ⟨state, none, false⟩

/-- Whether the next insert raises the warning. -/
def isPending (o : Observed σ α) : Bool := o.answer.isSome && !o.warned

/-- The next state of the structure, after an insert. -/
def advance (o : Observed σ α) (state : σ) : Observed σ α :=
  ⟨state, o.answer, o.warned || o.answer.isSome⟩

/-- Performs an insert, which hands something out besides the next state. -/
def run {φ β : Type} (o : Observed σ α) (insert : σ → Except φ (σ × β)) :
    Except φ (Observed σ α × β) :=
  match o with
  | ⟨state, answer, warned⟩ => do
    let (state, given) ← insert state
    return (⟨state, answer, warned || answer.isSome⟩, given)

/-- The answer to a request: the kept one, else the one computed now, which is kept. -/
def ask {φ : Type} (o : Observed σ α) (compute : σ → Except φ α) : Except φ (α × Observed σ α) :=
  match o.answer with
  | some answer => .ok (answer, o)
  | none => do
    let answer ← compute o.state
    return (answer, { o with answer := some answer })

/-- An insert acts on the structure alone. -/
theorem run_eq {φ β : Type} (o : Observed σ α) (insert : σ → Except φ (σ × β)) :
    o.run insert = (insert o.state).map fun (state, given) => (o.advance state, given) := by
  unfold run
  cases h : insert o.state <;> simp only [h] <;> rfl

/-- A kept answer is given to every request. -/
theorem ask_of_answer {φ : Type} {o : Observed σ α} {answer : α} (h : o.answer = some answer)
    (compute : σ → Except φ α) : o.ask compute = .ok (answer, o) := by
  simp [ask, h]

/-- A request keeps its answer and changes nothing else. -/
theorem eq_of_ask {φ : Type} {o o' : Observed σ α} {compute : σ → Except φ α} {answer : α}
    (h : o.ask compute = .ok (answer, o')) : o' = { o with answer := some answer } := by
  obtain ⟨state, kept, warned⟩ := o
  cases kept with
  | some kept =>
    obtain ⟨rfl, rfl⟩ := Prod.mk.inj (Except.ok.inj h)
    rfl
  | none =>
    unfold ask at h
    dsimp only at h
    cases hc : compute state with
    | error e => rw [hc] at h; cases h
    | ok a =>
      rw [hc] at h
      obtain ⟨rfl, rfl⟩ := Prod.mk.inj (Except.ok.inj h)
      rfl

/-- A request leaves the structure as it is. -/
theorem state_of_ask {φ : Type} {o o' : Observed σ α} {compute : σ → Except φ α} {answer : α}
    (h : o.ask compute = .ok (answer, o')) : o'.state = o.state := by
  rw [eq_of_ask h]

end Observed

end HeavyHitters
