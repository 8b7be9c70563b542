import HeavyHitters.Proofs.Checked
import HeavyHitters.Proofs.Weight
import HeavyHitters.Tracker.Basic

/-!
# Accounts of a tracker

Whatever a tracker is built of, its account of weight is kept insert by insert: the weight resident
before and the unit inserted stand against the weight resident afterwards and the unit carried out.
For a tracker that conserves weight the two sides are equal; for one that only never loses any, the
second side is not less.

* `Tracker.Accounts` is an invariant together with the account of one insert, for either relation.
* `Tracker.Accounts.insertAll` is the account of a whole run.
* `Tracker.Conserves` and `Tracker.Retains` are the two cases.
-/

namespace HeavyHitters

theorem weightOf_reduceOption_cons {select : Key → Bool} (out : Option Entry)
    (outs : List (Option Entry)) :
    weightOf select (out :: outs).reduceOption
      = weightOf select out.toList + weightOf select outs.reduceOption := by
  cases out with
  | none => rw [List.reduceOption_cons_of_none]; simp
  | some e => rw [List.reduceOption_cons_of_some]; simp

theorem mem_reduceOption {e : Entry} {outs : List (Option Entry)} :
    e ∈ outs.reduceOption ↔ some e ∈ outs :=
  List.reduceOption_mem_iff

namespace Tracker

variable {τ : Type} [Tracker τ]

/--
An invariant of a tracker under which its answers are about its residents, and under which an insert
keeps the account of every set of keys: `R` relates what was there and came in to what is there
afterwards and was carried out.
-/
structure Accounts (R : Int → Int → Prop) (Inv : τ → Prop) : Prop where
  positive : ∀ {t : τ}, Inv t → ∀ e ∈ residents t, 1 ≤ e.count
  query_eq : ∀ {t : τ}, Inv t → ∀ key,
    query t key = Count.narrow .add (weightOf (· == key) (residents t))
  inv_insert : ∀ {t t' : τ} {key : Key} {out : Option Entry}, Inv t →
    insert t key = .ok (t', out) → Inv t'
  out_positive : ∀ {t t' : τ} {key : Key} {out : Option Entry}, Inv t →
    insert t key = .ok (t', out) → ∀ e ∈ out, 1 ≤ e.count
  account : ∀ {t t' : τ} {key : Key} {out : Option Entry}, Inv t →
    insert t key = .ok (t', out) → ∀ select,
      R (weightOf select (residents t) + weightOf select [⟨key, 1⟩])
        (weightOf select (residents t') + weightOf select out.toList)

/-- A tracker that neither loses nor makes weight. -/
abbrev Conserves (Inv : τ → Prop) : Prop := Accounts (· = ·) Inv

/-- A tracker that loses no weight. -/
abbrev Retains (Inv : τ → Prop) : Prop := Accounts (· ≤ ·) Inv

theorem Conserves.retains {Inv : τ → Prop} (h : Conserves Inv) : Retains Inv where
  positive := h.positive
  query_eq := h.query_eq
  inv_insert := h.inv_insert
  out_positive := h.out_positive
  account ht hi select := Int.le_of_eq (h.account ht hi select)

theorem insertAll_cons_eq_ok {t t' : τ} {key : Key} {keys : List Key}
    {outs : List (Option Entry)} :
    insertAll t (key :: keys) = .ok (t', outs) ↔
      ∃ t₁ out outs₁, insert t key = .ok (t₁, out) ∧ insertAll t₁ keys = .ok (t', outs₁) ∧
        outs = out :: outs₁ := by
  rw [insertAll, Checked.bind_eq_ok]
  constructor
  · rintro ⟨⟨t₁, out⟩, hi, h⟩
    obtain ⟨⟨t₂, outs₁⟩, hr, h⟩ := Checked.bind_eq_ok.mp h
    obtain ⟨rfl, rfl⟩ := Prod.mk.inj (Checked.pure_eq_ok.mp h)
    exact ⟨t₁, out, outs₁, hi, hr, rfl⟩
  · rintro ⟨t₁, out, outs₁, hi, hr, rfl⟩
    exact ⟨(t₁, out), hi, Checked.bind_eq_ok.mpr ⟨(t', outs₁), hr, rfl⟩⟩

/-- What every insert keeps is kept by a run. -/
theorem inv_insertAll {Inv : τ → Prop} (step : ∀ {t t' : τ} {key : Key} {out : Option Entry},
      Inv t → insert t key = .ok (t', out) → Inv t')
    {t t' : τ} {keys : List Key} {outs : List (Option Entry)} (ht : Inv t)
    (run : insertAll t keys = .ok (t', outs)) : Inv t' := by
  induction keys generalizing t outs with
  | nil => cases run; exact ht
  | cons key keys ih =>
    obtain ⟨t₁, out, outs₁, hi, hr, -⟩ := insertAll_cons_eq_ok.mp run
    exact ih (step ht hi) hr

/-- What every insert sees to of the unit it carries out holds of all units of a run. -/
theorem forall_outs_insertAll {Inv : τ → Prop} {P : Entry → Prop}
    (step : ∀ {t t' : τ} {key : Key} {out : Option Entry},
      Inv t → insert t key = .ok (t', out) → Inv t' ∧ ∀ e ∈ out, P e)
    {t t' : τ} {keys : List Key} {outs : List (Option Entry)} (ht : Inv t)
    (run : insertAll t keys = .ok (t', outs)) : ∀ e ∈ outs.reduceOption, P e := by
  induction keys generalizing t outs with
  | nil =>
    cases run
    intro e he
    cases he
  | cons key keys ih =>
    obtain ⟨t₁, out, outs₁, hi, hr, rfl⟩ := insertAll_cons_eq_ok.mp run
    obtain ⟨ht₁, hout⟩ := step ht hi
    intro e he
    rcases List.mem_cons.mp (mem_reduceOption.mp he) with he | he
    · exact hout e he.symm
    · exact ih ht₁ hr e (mem_reduceOption.mpr he)

namespace Accounts

variable {R : Int → Int → Prop} {Inv : τ → Prop} {t t' : τ} {keys : List Key}
  {outs : List (Option Entry)}

theorem inv_insertAll (h : Accounts R Inv) (ht : Inv t) (run : insertAll t keys = .ok (t', outs)) :
    Inv t' :=
  Tracker.inv_insertAll h.inv_insert ht run

/-- Every unit carried out has weight. -/
theorem outs_positive (h : Accounts R Inv) (ht : Inv t)
    (run : insertAll t keys = .ok (t', outs)) : ∀ e ∈ outs.reduceOption, 1 ≤ e.count :=
  forall_outs_insertAll (fun ht hi => ⟨h.inv_insert ht hi, h.out_positive ht hi⟩) ht run

/--
**The account of a run.**  What was resident and what was inserted stand against what is resident
and what was carried out.  The relation has to pass along a run and bear the same weight added on
both sides.
-/
theorem account_insertAll (h : Accounts R Inv) (hrefl : ∀ a, R a a)
    (htrans : ∀ {a b c}, R a b → R b c → R a c) (hadd : ∀ {a b} c, R a b → R (a + c) (b + c))
    (ht : Inv t) (run : Tracker.insertAll t keys = .ok (t', outs)) (select : Key → Bool) :
    R (weightOf select (residents t) + keys.countP select)
      (weightOf select (residents t') + weightOf select outs.reduceOption) := by
  induction keys generalizing t outs with
  | nil =>
    cases run
    exact hrefl _
  | cons key keys ih =>
    obtain ⟨t₁, out, outs₁, hi, hr, rfl⟩ := insertAll_cons_eq_ok.mp run
    have hstep := hadd (keys.countP select : Int) (h.account ht hi select)
    have hrest := hadd (weightOf select out.toList) (ih (h.inv_insert ht hi) hr)
    have hkey : (((key :: keys).countP select : Nat) : Int)
        = weightOf select [⟨key, 1⟩] + keys.countP select := by
      rw [List.countP_cons, weightOf_cons, weightOf_nil]
      split <;> simp [Int.add_comm]
    rw [weightOf_reduceOption_cons, hkey]
    have hmid : weightOf select (residents t₁) + weightOf select out.toList + keys.countP select
        = weightOf select (residents t₁) + keys.countP select + weightOf select out.toList := by
      omega
    have := htrans (hmid ▸ hstep) hrest
    rwa [Int.add_assoc, Int.add_assoc (weightOf select (residents t')),
      Int.add_comm (weightOf select outs₁.reduceOption)] at this

end Accounts

/-- A tracker that conserves weight and starts empty holds or has carried out what was inserted. -/
theorem Conserves.run {Inv : τ → Prop} (h : Conserves Inv) {t t' : τ} {keys : List Key}
    {outs : List (Option Entry)} (ht : Inv t) (hempty : residents t = [])
    (run : insertAll t keys = .ok (t', outs)) (select : Key → Bool) :
    weightOf select (residents t') + weightOf select outs.reduceOption = keys.countP select := by
  have := Accounts.account_insertAll h (fun _ => rfl) Eq.trans (fun c => congrArg (· + c)) ht run
    select
  rw [hempty, weightOf_nil, Int.zero_add] at this
  exact this.symm

/-- What such a tracker holds are keys that were inserted, as there is no weight of others. -/
theorem Conserves.key_mem_of_run {Inv : τ → Prop} (h : Conserves Inv) {t t' : τ} {keys : List Key}
    {outs : List (Option Entry)} (ht : Inv t) (hempty : residents t = [])
    (run : insertAll t keys = .ok (t', outs)) : ∀ e ∈ residents t', e.key ∈ keys := by
  intro e he
  by_contra hkey
  have hpositive := h.positive (h.inv_insertAll ht run)
  have hnone : keys.countP (· == e.key) = 0 := List.count_eq_zero.mpr hkey
  have hbalance := h.run ht hempty run (· == e.key)
  have hout : 0 ≤ weightOf (· == e.key) outs.reduceOption :=
    weightOf_nonneg fun unit hu => Int.le_trans (by decide) (h.outs_positive ht run unit hu)
  have hres : e.count ≤ weightOf (· == e.key) (residents t') :=
    le_weightOf_of_mem (fun u hu => Int.le_trans (by decide) (hpositive u hu)) he
      (beq_self_eq_true _)
  have := hpositive e he
  omega

/-- A tracker that loses no weight and starts empty holds or has carried out at least what was
inserted. -/
theorem Retains.run {Inv : τ → Prop} (h : Retains Inv) {t t' : τ} {keys : List Key}
    {outs : List (Option Entry)} (ht : Inv t) (hempty : residents t = [])
    (run : insertAll t keys = .ok (t', outs)) (select : Key → Bool) :
    (keys.countP select : Int)
      ≤ weightOf select (residents t') + weightOf select outs.reduceOption := by
  have := Accounts.account_insertAll h Int.le_refl Int.le_trans
    (fun c => fun hab => Int.add_le_add_right hab c) ht run select
  rwa [hempty, weightOf_nil, Int.zero_add] at this

end Tracker

end HeavyHitters
