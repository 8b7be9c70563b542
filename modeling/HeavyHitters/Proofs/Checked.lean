import HeavyHitters.Fault
import Mathlib.Data.List.Forall2

/-!
# Runs of checked computations

A run of checked steps has a value exactly if every step has one.  The lemmas here take such runs
apart, so that a proof about a run goes on with the values of its steps.

* `Checked.bind_eq_ok` and `Checked.map_eq_ok` take two steps apart.
* `Checked.mapM_eq_ok` pairs the elements of a list with the values of the steps made on them, and
  `Checked.forall₂_of_mapM` compares two such runs.
* `Checked.inv_foldlM` carries an invariant along a run, `Checked.past_foldlM` one that speaks of
  what was done so far, and `Checked.eq_of_foldlM` a closed form of the state.
* `Checked.foldlM_hom` compares a run with that of the images of its states.
-/

namespace HeavyHitters

/-- A request that is refused has no value, whatever comes after it. -/
theorem refuse_bind_ne_ok {α β : Type} {error : Error} {f : α → Outcome β} {b : β} :
    refuse error >>= f ≠ .ok b := by
  intro h
  cases h

theorem Outcome.ofChecked_eq_ok {α : Type} {x : Checked α} {a : α} :
    Outcome.ofChecked x = .ok a ↔ x = .ok a := by
  cases x <;> simp

theorem Outcome.ofChecked_eq_error {α : Type} {x : Checked α} {fault : Fault} :
    Outcome.ofChecked x = .error (.fault fault) ↔ x = .error fault := by
  cases x <;> simp [Outcome.ofChecked]

namespace Checked

variable {φ α β : Type}

/-- Two steps have a value exactly if the first has one and the second has one after it. -/
theorem bind_eq_ok {x : Except φ α} {f : α → Except φ β} {b : β} :
    x >>= f = .ok b ↔ ∃ a, x = .ok a ∧ f a = .ok b := by
  cases x with
  | error e => simp [bind, Except.bind]
  | ok a => simp [bind, Except.bind]

/-- After a step that has a value the next one decides. -/
theorem bind_of_eq_ok {x : Except φ α} {f : α → Except φ β} {a : α} (h : x = .ok a) :
    x >>= f = f a := by
  rw [h]
  rfl

theorem map_eq_ok {x : Except φ α} {f : α → β} {b : β} :
    f <$> x = .ok b ↔ ∃ a, x = .ok a ∧ f a = b := by
  cases x with
  | error e => simp [Functor.map, Except.map]
  | ok a => simp [Functor.map, Except.map]

theorem map_eq_error {x : Except φ α} {f : α → β} {failure : φ} :
    f <$> x = .error failure ↔ x = .error failure := by
  cases x <;> simp

theorem pure_eq_ok {a b : α} : (pure a : Except φ α) = .ok b ↔ a = b := by
  simp [pure, Except.pure]

/-- A step on every element has a value exactly if the steps have values one by one. -/
theorem mapM_eq_ok {f : α → Except φ β} {as : List α} {bs : List β} :
    as.mapM f = .ok bs ↔ List.Forall₂ (fun a b => f a = .ok b) as bs := by
  induction as generalizing bs with
  | nil =>
    rw [List.mapM_nil, pure_eq_ok]
    constructor
    · rintro rfl
      exact .nil
    · intro h
      cases h
      rfl
  | cons a as ih =>
    rw [List.mapM_cons, bind_eq_ok]
    constructor
    · rintro ⟨b, hb, h⟩
      obtain ⟨rest, hr, h⟩ := bind_eq_ok.mp h
      rw [← pure_eq_ok.mp h]
      exact .cons hb (ih.mp hr)
    · intro h
      cases h with
      | cons hb hr => exact ⟨_, hb, bind_eq_ok.mpr ⟨_, ih.mpr hr, rfl⟩⟩

/-- Steps on elements that are related one by one have values that are related one by one. -/
theorem forall₂_of_mapM {α' β' : Type} {R : α → α' → Prop} {S : β → β' → Prop} {f : α → Except φ β}
    {g : α' → Except φ β'} {as : List α} {as' : List α'} {bs : List β} {bs' : List β'}
    (hS : ∀ a a' b b', R a a' → f a = .ok b → g a' = .ok b' → S b b') (h : List.Forall₂ R as as')
    (hm : as.mapM f = .ok bs) (hm' : as'.mapM g = .ok bs') : List.Forall₂ S bs bs' := by
  have hbs := mapM_eq_ok.mp hm
  have hbs' := mapM_eq_ok.mp hm'
  clear hm hm'
  induction h generalizing bs bs' with
  | nil =>
    cases hbs
    cases hbs'
    exact .nil
  | cons hR _ ih =>
    cases hbs with
    | cons hb hbs =>
      cases hbs' with
      | cons hb' hbs' => exact .cons (hS _ _ _ _ hR hb hb') (ih hbs hbs')

/-- Every value comes from an element. -/
theorem exists_of_mem_mapM {f : α → Except φ β} {as : List α} {bs : List β} {b : β}
    (h : as.mapM f = .ok bs) (hb : b ∈ bs) : ∃ a ∈ as, f a = .ok b := by
  induction mapM_eq_ok.mp h with
  | nil => cases hb
  | @cons a c as bs hc hrest ih =>
    rcases List.mem_cons.mp hb with rfl | hb
    · exact ⟨a, List.mem_cons_self, hc⟩
    · obtain ⟨d, hd, hf⟩ := ih (mapM_eq_ok.mpr hrest) hb
      exact ⟨d, List.mem_cons_of_mem a hd, hf⟩

/-- The value of every element is among the values. -/
theorem mem_mapM {f : α → Except φ β} {as : List α} {bs : List β} {a : α} {b : β}
    (h : as.mapM f = .ok bs) (ha : a ∈ as) (hb : f a = .ok b) : b ∈ bs := by
  induction mapM_eq_ok.mp h with
  | nil => cases ha
  | cons hc hrest ih =>
    rcases List.mem_cons.mp ha with rfl | ha
    · rw [Except.ok.inj (hb.symm.trans hc)]
      exact List.mem_cons_self
    · exact List.mem_cons_of_mem _ (ih (mapM_eq_ok.mpr hrest) ha)

theorem length_mapM {f : α → Except φ β} {as : List α} {bs : List β} (h : as.mapM f = .ok bs) :
    bs.length = as.length := by
  induction mapM_eq_ok.mp h with
  | nil => rfl
  | cons _ hrest ih => rw [List.length_cons, List.length_cons, ih (mapM_eq_ok.mpr hrest)]

theorem exists_mapM {f : α → Except φ β} {as : List α} (h : ∀ a ∈ as, ∃ b, f a = .ok b) :
    ∃ bs, as.mapM f = .ok bs := by
  induction as with
  | nil => exact ⟨[], rfl⟩
  | cons a as ih =>
    obtain ⟨b, hb⟩ := h a List.mem_cons_self
    obtain ⟨bs, hbs⟩ := ih fun c hc => h c (List.mem_cons_of_mem a hc)
    refine ⟨b :: bs, ?_⟩
    rw [List.mapM_cons, hb, hbs]
    rfl

/-- Steps that all have a value of some kind. -/
theorem exists_mapM_of_forall {f : α → Except φ β} {P : β → Prop} {as : List α}
    (h : ∀ a ∈ as, ∃ b, f a = .ok b ∧ P b) :
    ∃ bs, as.mapM f = .ok bs ∧ bs.length = as.length ∧ ∀ b ∈ bs, P b := by
  obtain ⟨bs, hbs⟩ := exists_mapM fun a ha => (h a ha).imp fun _ hb => hb.1
  refine ⟨bs, hbs, length_mapM hbs, fun b hb => ?_⟩
  obtain ⟨a, ha, hf⟩ := exists_of_mem_mapM hbs hb
  obtain ⟨c, hc, hP⟩ := h a ha
  obtain rfl := Except.ok.inj (hf.symm.trans hc)
  exact hP

/-- A step whose value is known on every element. -/
theorem mapM_eq_ok_map {f : α → Except φ β} {g : α → β} {as : List α}
    (h : ∀ a ∈ as, f a = .ok (g a)) : as.mapM f = .ok (as.map g) := by
  induction as with
  | nil => rfl
  | cons a as ih =>
    rw [List.mapM_cons, h a List.mem_cons_self, ih fun b hb => h b (List.mem_cons_of_mem a hb)]
    rfl

/-- A step of which is known on every element when it has a value and which. -/
theorem mapM_eq_ok_map_iff {f : α → Except φ β} {P : α → Prop} {g : α → β} {as : List α}
    (h : ∀ a ∈ as, ∀ b, f a = .ok b ↔ P a ∧ b = g a) {bs : List β} :
    as.mapM f = .ok bs ↔ (∀ a ∈ as, P a) ∧ bs = as.map g := by
  constructor
  · intro hm
    induction mapM_eq_ok.mp hm with
    | nil => simp
    | @cons a b as bs hb hrest ih =>
      obtain ⟨ha, rfl⟩ := (h a List.mem_cons_self b).mp hb
      obtain ⟨has, rfl⟩ := ih (fun c hc => h c (List.mem_cons_of_mem a hc)) (mapM_eq_ok.mpr hrest)
      exact ⟨List.forall_mem_cons.mpr ⟨ha, has⟩, rfl⟩
  · rintro ⟨has, rfl⟩
    exact mapM_eq_ok_map fun a ha => (h a ha _).mpr ⟨has a ha, rfl⟩

/-- Steps of which one fails, and no other in another way. -/
theorem mapM_eq_error {f : α → Except φ β} {fault : φ} {as : List α}
    (h : ∀ a ∈ as, (∃ b, f a = .ok b) ∨ f a = .error fault)
    (hfault : ∃ a ∈ as, f a = .error fault) : as.mapM f = .error fault := by
  induction as with
  | nil =>
    obtain ⟨a, ha, -⟩ := hfault
    cases ha
  | cons a as ih =>
    obtain ⟨hfirst, hrest⟩ := List.forall_mem_cons.mp h
    rw [List.mapM_cons]
    rcases hfirst with ⟨b, hb⟩ | hb
    · have hlater : ∃ c ∈ as, f c = .error fault := by
        obtain ⟨c, hc, hf⟩ := hfault
        rcases List.mem_cons.mp hc with rfl | hc
        · cases hb.symm.trans hf
        · exact ⟨c, hc, hf⟩
      rw [hb, ih hrest hlater]
      rfl
    · rw [hb]
      rfl

/-- What is known of a state and of the good elements that led to it is known
after a run on more of them. -/
theorem past_foldlM {Inv : List α → β → Prop} {Good : α → Prop} {f : β → α → Except φ β}
    (step : ∀ {past : List α} {b b' : β} {a : α}, Inv past b → Good a → f b a = .ok b' →
      Inv (past ++ [a]) b')
    {past as : List α} {b b' : β} (h : Inv past b) (hgood : ∀ a ∈ as, Good a)
    (run : as.foldlM f b = .ok b') : Inv (past ++ as) b' := by
  induction as generalizing past b with
  | nil =>
    cases run
    rwa [List.append_nil]
  | cons a as ih =>
    obtain ⟨ha, hrest⟩ := List.forall_mem_cons.mp hgood
    rw [List.foldlM_cons] at run
    obtain ⟨b₁, hf, run⟩ := bind_eq_ok.mp run
    rw [List.append_cons]
    exact ih (step h ha hf) hrest run

/-- Where every step leads from one value of a closed form to the next, a run
leads to its value at the end. -/
theorem eq_of_foldlM {state : List α → β} {f : β → α → Except φ β}
    (step : ∀ {past : List α} {a : α} {b : β}, f (state past) a = .ok b → b = state (past ++ [a]))
    {as : List α} {b : β} (run : as.foldlM f (state []) = .ok b) : b = state as := by
  refine @past_foldlM _ _ _ (fun past b => b = state past)
    (fun _ => True) f ?_ [] as (state []) b rfl
    (fun _ _ => trivial) run
  rintro past b b' a rfl - hf
  exact step hf

/-- A run of the images is the image of the run, if that is so of every step. -/
theorem foldlM_hom {γ : Type} {image : β → γ} {f : β → α → Except φ β} {g : γ → α → Except φ γ}
    (step : ∀ b a, g (image b) a = image <$> f b a) (as : List α) (b : β) :
    as.foldlM g (image b) = image <$> as.foldlM f b := by
  induction as generalizing b with
  | nil => rfl
  | cons a as ih => simp only [List.foldlM_cons, step, map_bind, bind_map_left, ih]

/-- What every step on a good element keeps is kept by a run on such elements. -/
theorem inv_foldlM {Inv : β → Prop} {Good : α → Prop} {f : β → α → Except φ β}
    (step : ∀ {b b' : β} {a : α}, Inv b → Good a → f b a = .ok b' → Inv b')
    {as : List α} {b b' : β} (h : Inv b) (hgood : ∀ a ∈ as, Good a) (run : as.foldlM f b = .ok b') :
    Inv b' :=
  @past_foldlM _ _ _ (fun _ => Inv) Good f (fun h ha hf => step h ha hf) [] as b b' h hgood run

/-- What every step keeps, on whatever element, is kept by a run. -/
theorem kept_foldlM (Inv : β → Prop) {f : β → α → Except φ β}
    (step : ∀ {b b' : β} {a : α}, Inv b → f b a = .ok b' → Inv b') {as : List α}
    {b b' : β} (h : Inv b) (run : as.foldlM f b = .ok b') : Inv b' :=
  @inv_foldlM _ _ _ Inv (fun _ => True) f (fun h _ hf => step h hf) as b b' h
    (fun _ _ => trivial) run

end Checked

end HeavyHitters
