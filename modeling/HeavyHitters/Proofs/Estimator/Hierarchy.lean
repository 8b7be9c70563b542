import HeavyHitters.Estimator.Any
import HeavyHitters.Proofs.Estimator.UnivMon
import HeavyHitters.Proofs.Tracker.Conservation
import HeavyHitters.Proofs.Tracker.SpaceSaving.Guarantees
import Mathlib.Algebra.Order.BigOperators.Group.Multiset

/-!
# The levels of a hierarchy

A hierarchy is four trackers that know nothing of each other, and every unit of weight comes to one
of them.  So all there is to a run is which level each unit came to: with the units labelled by
their levels, each tracker is in the state that its own units lead to, under the part of their keys
that the level keeps.  Levels taken in turn are a labelling known beforehand; of levels drawn at
random nothing more is said than that there is one.

* `Hierarchy.unitsOf` takes weighted inserts apart into units, and `Hierarchy.insertAll_eq` says
  that a run is one over the units.
* `Hierarchy.Routed` is the invariant of a run over units.
* `LevelChoice.Fresh` lists the trackers of a level as they are built.
* `Hierarchy.Distributes` puts the parts together, and `Hierarchy.distributes_of_insertAll` says
  that every run of a built hierarchy leads to it.
-/

namespace HeavyHitters

/-! ## Trackers of a level -/

/-- A tracker of a level as it is built in a budget of bytes.  A Space-Saving
table has no use for the seed. -/
inductive LevelChoice.Fresh (memory : Nat) (seed : UInt64) : LevelChoice → AnyTracker → Prop where
  | spaceSaving {t : SpaceSaving} (built : SpaceSaving.ofBudget memory = .ok t) :
      Fresh memory seed .spaceSaving (.spaceSaving t)
  | funnel {t : Funnel} (built : Funnel.ofBudget memory seed = .ok t) :
      Fresh memory seed .funnel (.funnel t)

/-- A tracker that inserts as another one does is fed as that one is. -/
theorem Tracker.feed_map {τ υ : Type} [Tracker τ] [Tracker υ] {wrap : τ → υ}
    (h : ∀ t key, insert (wrap t) key = (fun result => (wrap result.1, result.2)) <$> insert t key)
    (t : τ) (keys : List Key) : feed (wrap t) keys = wrap <$> feed t keys := by
  refine Checked.foldlM_hom (fun t key => ?_) keys t
  rw [h]
  cases insert t key <;> rfl

namespace AnyTracker

theorem feed_spaceSaving (t : SpaceSaving) (keys : List Key) :
    Tracker.feed (spaceSaving t) keys = spaceSaving <$> Tracker.feed t keys :=
  Tracker.feed_map (fun _ _ => rfl) t keys

theorem feed_funnel (t : Funnel) (keys : List Key) :
    Tracker.feed (funnel t) keys = funnel <$> Tracker.feed t keys :=
  Tracker.feed_map (fun _ _ => rfl) t keys

end AnyTracker

namespace LevelChoice

variable {choice : LevelChoice} {memory : Nat} {seed : UInt64}
  {fresh t : AnyTracker} {keys : List Key}

/-- A tracker of a level holds only keys that it was fed. -/
theorem Fresh.key_mem (h : choice.Fresh memory seed fresh) (run : Tracker.feed fresh keys = .ok t) :
    ∀ e ∈ Tracker.residents t, e.key ∈ keys := by
  cases h with
  | @spaceSaving t₀ built =>
    rw [AnyTracker.feed_spaceSaving] at run
    obtain ⟨t, hfed, rfl⟩ := Checked.map_eq_ok.mp run
    have htracks := (SpaceSaving.tracks_of_ofBudget built).feed hfed
    intro e he
    exact htracks.seen e.key e.count
      ((htracks.matched e.key e.count).mp (SpaceSaving.mem_residents.mp he))
  | @funnel t₀ built =>
    rw [AnyTracker.feed_funnel] at run
    obtain ⟨t, hfed, rfl⟩ := Checked.map_eq_ok.mp run
    rw [Tracker.feed_eq] at hfed
    obtain ⟨⟨after, outs⟩, hinserts, rfl⟩ := Checked.map_eq_ok.mp hfed
    obtain ⟨hsound, hempty⟩ := Funnel.fresh_of_ofLayout built
    exact Funnel.conserves.key_mem_of_run hsound hempty hinserts

/-- The weight that a Space-Saving table holds is the number of units that it was fed. -/
theorem Fresh.weight_residents (h : Fresh memory seed .spaceSaving fresh)
    (run : Tracker.feed fresh keys = .ok t) :
    weightOf allKeys (Tracker.residents t) = keys.length := by
  cases h with
  | @spaceSaving t₀ built =>
    rw [AnyTracker.feed_spaceSaving] at run
    obtain ⟨t, hfed, rfl⟩ := Checked.map_eq_ok.mp run
    rw [weightOf_allKeys]
    exact ((SpaceSaving.tracks_of_ofBudget built).feed hfed).total

end LevelChoice

/-- A ranking lists only keys of residents. -/
theorem Tracker.exists_resident_of_topK {τ : Type} [Tracker τ] {t : τ} {ranking : List Entry}
    (h : topK t = .ok ranking) {r : Entry} (hr : r ∈ ranking) :
    ∃ e ∈ residents t, e.key = r.key := by
  obtain ⟨tally, htally, rfl⟩ := mergeRanked_eq_ok_iff.mp h
  exact ((Tally.sums_of_ofRecords htally).mem_iff r.key).mp (Tally.mem_of_mem_ranking hr)

namespace Hierarchy

variable {τ ρ : Type}

/-! ## Inserts as units -/

/-- The units of weighted inserts in order: as many of a key as its weight
says, none if it is negative. -/
def unitsOf (inserts : List Entry) : List Key :=
  inserts.flatMap fun insert => List.replicate insert.count.toNat insert.key

theorem length_unitsOf (inserts : List Entry) :
    ((unitsOf inserts).length : Int) = (inserts.map fun insert => max insert.count 0).sum := by
  induction inserts with
  | nil => rfl
  | cons insert inserts ih =>
    rw [List.map_cons, List.sum_cons, ← ih]
    simp [unitsOf, List.flatMap_cons]

section

variable [Tracker τ] [RandomSource ρ]

theorem insertUnits_eq (key : Key) (units : Nat) (h : Hierarchy τ ρ) :
    insertUnits key units h = (List.replicate units key).foldlM insertUnit h := by
  induction units generalizing h with
  | zero => rfl
  | succ units ih =>
    rw [insertUnits, List.replicate_succ, List.foldlM_cons]
    exact congrArg _ (funext ih)

/-- Units that are inserted in two parts are inserted. -/
theorem insert_bind_insert (h : Hierarchy τ ρ) (key : Key) {a b : Int} (ha : 0 ≤ a) (hb : 0 ≤ b) :
    (h.insert key a >>= fun h => h.insert key b) = h.insert key (a + b) := by
  simp only [insert, insertUnits_eq, Int.toNat_add ha hb, List.replicate_add, List.foldlM_append]

/-- A run is a run over units. -/
theorem insertAll_eq (h : Hierarchy τ ρ) (inserts : List Entry) :
    Estimator.insertAll h inserts = (unitsOf inserts).foldlM insertUnit h := by
  induction inserts generalizing h with
  | nil => rfl
  | cons first inserts ih =>
    rw [Estimator.insertAll_cons, unitsOf, List.flatMap_cons, List.foldlM_append, ← insertUnits_eq]
    exact congrArg _ (funext ih)

/-! ## Levels of units -/

/-- The keys that a level is fed, when the units are labelled with their levels. -/
def share (level : Nat) (mask : Key) (routed : List (Nat × Key)) : List Key :=
  (routed.filter (·.1 == level)).map (·.2 &&& mask)

theorem share_append_singleton (level : Nat) (mask : Key) (routed : List (Nat × Key))
    (unit : Nat × Key) : share level mask (routed ++ [unit])
      = share level mask routed ++ if unit.1 = level then [unit.2 &&& mask] else [] := by
  by_cases hlevel : unit.1 = level <;> simp [share, hlevel]

theorem length_share (level : Nat) (mask : Key) (routed : List (Nat × Key)) :
    (share level mask routed).length = (routed.map (·.1)).count level := by
  rw [share, List.length_map, ← List.countP_eq_length_filter, List.count, List.countP_map]
  rfl

/-- The levels share all units. -/
theorem sum_length_share {routed : List (Nat × Key)} (h : ∀ unit ∈ routed, unit.1 < levelCount)
    (mask : Nat → Key) :
    ∑ level ∈ Finset.range levelCount,
    (share level (mask level) routed).length = routed.length := by
  have hmem : ∀ level ∈ (routed.map (·.1) : Multiset Nat), level ∈ Finset.range levelCount := by
    simpa using fun level key hu => h (level, key) hu
  have hcount := Multiset.sum_count_eq_card hmem
  simpa only [length_share, Multiset.coe_count, Multiset.coe_card, List.length_map] using hcount

/-- The choice of levels before and after some units: levels in turn start
over with every fourth unit. -/
inductive Turns (routed : List (Nat × Key)) : Routing ρ → Routing ρ → Prop where
  | random (source source' : ρ) : Turns routed (.random source) (.random source')
  | roundRobin (hlevels : routed.map (·.1) = (List.range routed.length).map (· % levelCount)) :
      Turns routed (.roundRobin 0) (.roundRobin (routed.length % levelCount))

omit [RandomSource ρ] in
theorem Turns.levels_eq {routed : List (Nat × Key)} {after : Routing ρ}
    (h : Turns routed (.roundRobin 0) after) :
    routed.map (·.1) = (List.range routed.length).map (· % levelCount) := by
  cases h with
  | roundRobin hlevels => exact hlevels

/-- The next unit has a level. -/
theorem Turns.pick {routed : List (Nat × Key)} {before after : Routing ρ}
    (h : Turns routed before after) (key : Key) : (pick levelCount after).1 < levelCount ∧
      Turns (routed ++ [((pick levelCount after).1, key)]) before (pick levelCount after).2 := by
  cases h with
  | random source source' => exact ⟨RandomSource.below_lt (by decide) source', .random _ _⟩
  | roundRobin hlevels =>
    refine ⟨Nat.mod_lt _ (by decide), ?_⟩
    have hnext : (routed.length % levelCount + 1) % levelCount
        = (routed ++ [(routed.length % levelCount, key)]).length % levelCount := by simp
    rw [Hierarchy.pick, hnext]
    refine .roundRobin ?_
    simp [hlevels, List.range_succ]

/-- An insert at a level is an insert into its tracker, and leaves the others as they are. -/
theorem levels_of_insertAt {key : Key} {masks : List Key} {levels levels' : List τ} {level : Nat}
    (h : insertAt key masks levels level = .ok levels') :
    levels'.length = levels.length ∧ ∀ (index : Nat) (t : τ) (mask : Key), levels[index]? = some t →
      masks[index]? = some mask → ∃ t', levels'[index]? = some t' ∧
        if level = index then Prod.fst <$> Tracker.insert t (key &&& mask)
          = .ok t' else t' = t := by
  induction masks generalizing levels levels' level with
  | nil =>
    cases h
    exact ⟨rfl, fun index t mask _ hmask => by simp at hmask⟩
  | cons mask masks ih =>
    cases levels with
    | nil =>
      cases h
      exact ⟨rfl, fun index t mask hlevel => by simp at hlevel⟩
    | cons t levels =>
      cases level with
      | zero =>
        obtain ⟨⟨t', out⟩, hinsert, h⟩ := Checked.bind_eq_ok.mp h
        obtain rfl := Checked.pure_eq_ok.mp h
        refine ⟨rfl, fun index t₀ mask₀ hlevel hmask => ?_⟩
        cases index with
        | zero =>
          obtain rfl := Option.some.inj hlevel
          obtain rfl := Option.some.inj hmask
          exact ⟨t', rfl, Checked.map_eq_ok.mpr ⟨_, hinsert, rfl⟩⟩
        | succ index => exact ⟨t₀, hlevel, rfl⟩
      | succ level =>
        obtain ⟨rest, hrest, h⟩ := Checked.bind_eq_ok.mp h
        obtain rfl := Checked.pure_eq_ok.mp h
        obtain ⟨hlength, hlevels⟩ := ih hrest
        refine ⟨by simp [hlength], fun index t₀ mask₀ hlevel hmask => ?_⟩
        cases index with
        | zero => exact ⟨t₀, hlevel, rfl⟩
        | succ index => simpa using hlevels index t₀ mask₀ hlevel hmask

/-- What a hierarchy is to the one that it was before some units, which are
labelled with their levels. -/
structure Routed (start : Hierarchy τ ρ) (routed : List (Nat × Key))
    (h : Hierarchy τ ρ) : Prop where
  turns : Turns routed start.routing h.routing
  length_eq : h.levels.length = levelCount
  lt_levelCount : ∀ unit ∈ routed, unit.1 < levelCount
  level_run : ∀ (level : Nat) (fresh : τ) (mask : Key), start.levels[level]? = some fresh →
    masks[level]? = some mask →
      ∃ t, h.levels[level]? = some t ∧ Tracker.feed fresh (share level mask routed) = .ok t

theorem insertUnit_eq_ok {h h' : Hierarchy τ ρ} {key : Key} (hi : h.insertUnit key = .ok h') :
    ∃ levels,
    insertAt key masks h.levels (pick h.levels.length h.routing).1 = .ok levels ∧
      h' = ⟨levels, (pick h.levels.length h.routing).2⟩ := by
  obtain ⟨levels, hlevels, hi⟩ := Checked.bind_eq_ok.mp hi
  exact ⟨levels, hlevels, (Checked.pure_eq_ok.mp hi).symm⟩

/-- One more unit comes to one of the levels. -/
theorem Routed.insertUnit {start h h' : Hierarchy τ ρ} {routed : List (Nat × Key)} {key : Key}
    (hr : Routed start routed h) (hi : h.insertUnit key = .ok h') :
    ∃ level, Routed start (routed ++ [(level, key)]) h' := by
  obtain ⟨levels, hlevels, rfl⟩ := insertUnit_eq_ok hi
  rw [hr.length_eq] at hlevels ⊢
  obtain ⟨hlt, hturns⟩ := hr.turns.pick key
  obtain ⟨hlength, hinserts⟩ := levels_of_insertAt hlevels
  refine ⟨(pick levelCount h.routing).1, hturns, hlength.trans hr.length_eq, ?_, ?_⟩
  · intro unit hu
    rcases List.mem_append.mp hu with hu | hu
    · exact hr.lt_levelCount unit hu
    · rw [List.mem_singleton.mp hu]
      exact hlt
  · intro level fresh mask hfresh hmask
    obtain ⟨t, ht, run⟩ := hr.level_run level fresh mask hfresh hmask
    obtain ⟨t', ht', hstep⟩ := hinserts level t mask ht hmask
    refine ⟨t', ht', ?_⟩
    rw [share_append_singleton]
    by_cases hlevel : (pick levelCount h.routing).1 = level
    · rw [if_pos hlevel] at hstep ⊢
      exact List.foldlM_append.trans (Checked.bind_eq_ok.mpr ⟨t, run, by simpa using hstep⟩)
    · rw [if_neg hlevel] at hstep ⊢
      rwa [List.append_nil, hstep]

/-- **Every unit of a run comes to one level**, and each level has got its own units in order. -/
theorem exists_routed {start h : Hierarchy τ ρ} {keys : List Key} (hstart : Routed start [] start)
    (run : keys.foldlM Hierarchy.insertUnit start = .ok h) :
    ∃ routed : List (Nat × Key), routed.map (·.2) = keys ∧ Routed start routed h := by
  refine @Checked.past_foldlM _ _ _ (fun past h => ∃ routed : List (Nat × Key),
    routed.map (·.2) = past ∧ Routed start routed h) (fun _ => True) _ ?_ [] keys start h
      ⟨[], rfl, hstart⟩ (fun _ _ => trivial) run
  rintro past h h' key ⟨routed, rfl, hr⟩ - hi
  obtain ⟨level, hr'⟩ := hr.insertUnit hi
  exact ⟨routed ++ [(level, key)], by simp, hr'⟩

end

/-! ## Built hierarchies -/

variable {choice : LevelChoice} {memory : Nat} {seed : UInt64} {source : Option (UInt64 → ρ)}

/-- A level is built with the first seed of a stream, and leaves the
others to the levels after it. -/
theorem fresh_of_buildLevel {seeds seeds' : SeedStream} {first : AnyTracker}
    (h : choice.buildLevel memory seeds = .ok (first, seeds')) :
    choice.Fresh memory (seeds.seedAt 0) first ∧
      ∀ (level : Nat) (fresh : AnyTracker), choice.Fresh memory (seeds'.seedAt level) fresh →
        choice.Fresh memory (seeds.seedAt (level + 1)) fresh := by
  cases choice with
  | spaceSaving =>
    obtain ⟨t, built, h⟩ := Checked.bind_eq_ok.mp h
    obtain ⟨rfl, rfl⟩ := Prod.mk.inj (Checked.pure_eq_ok.mp h)
    -- this kind takes no seed, so it does not matter which one a level would get
    refine ⟨.spaceSaving built, fun level fresh hfresh => ?_⟩
    obtain ⟨built⟩ := hfresh
    exact .spaceSaving built
  | funnel =>
    obtain ⟨t, built, h⟩ := Checked.bind_eq_ok.mp h
    obtain ⟨rfl, rfl⟩ := Prod.mk.inj (Checked.pure_eq_ok.mp h)
    refine ⟨.funnel built, fun level fresh hfresh => ?_⟩
    rwa [SeedStream.seedAt_succ]

/-- Built levels are built one by one, those that take a seed with seeds from one stream. -/
theorem fresh_of_buildLevels {count : Nat} {seeds rest : SeedStream} {levels : List AnyTracker}
    (h : buildLevels (choice.buildLevel memory) count seeds = .ok (levels, rest)) :
    levels.length = count ∧ ∀ (level : Nat) (fresh : AnyTracker), levels[level]? = some fresh →
      choice.Fresh memory (seeds.seedAt level) fresh := by
  induction count generalizing seeds levels with
  | zero =>
    obtain ⟨rfl, rfl⟩ := Prod.mk.inj (Except.ok.inj h)
    simp
  | succ count ih =>
    obtain ⟨⟨first, seeds'⟩, hfirst, h⟩ := Checked.bind_eq_ok.mp h
    obtain ⟨⟨deeper, rest⟩, hdeeper, h⟩ := Checked.bind_eq_ok.mp h
    obtain ⟨rfl, rfl⟩ := Prod.mk.inj (Checked.pure_eq_ok.mp h)
    obtain ⟨hlength, hlevels⟩ := ih hdeeper
    obtain ⟨hfresh, hshift⟩ := fresh_of_buildLevel hfirst
    refine ⟨by rw [List.length_cons, hlength], fun level fresh hlevel => ?_⟩
    cases level with
    | zero =>
      obtain rfl := Option.some.inj hlevel
      exact hfresh
    | succ level => exact hshift level fresh (hlevels level fresh hlevel)

/-- A built hierarchy has four levels, each with a quarter of the budget, and if there is no source
the first unit comes to the first level. -/
theorem ofBudget_eq_ok {start : Hierarchy AnyTracker ρ}
    (h : ofBudget choice.buildLevel source memory seed = .ok start) :
    (start.levels.length = levelCount ∧ ∀ (level : Nat) (fresh : AnyTracker),
      start.levels[level]? = some fresh →
      choice.Fresh (memory / levelCount) (SeedStream.seedAt ⟨seed⟩ level) fresh) ∧
        match source with
        | some _ => ∃ coins, start.routing = .random coins
        | none => start.routing = .roundRobin 0 := by
  obtain ⟨⟨levels, seeds⟩, hlevels, h⟩ := Checked.bind_eq_ok.mp h
  obtain rfl := Checked.pure_eq_ok.mp h
  refine ⟨fresh_of_buildLevels hlevels, ?_⟩
  cases source with
  | some make => exact ⟨_, rfl⟩
  | none => rfl

theorem routed_of_ofBudget {start : Hierarchy AnyTracker ρ}
    (h : ofBudget choice.buildLevel source memory seed = .ok start) : Routed start [] start := by
  obtain ⟨⟨hlength, -⟩, hrouting⟩ := ofBudget_eq_ok h
  refine ⟨?_, hlength, by simp, fun level fresh mask hfresh _ => ⟨fresh, hfresh, rfl⟩⟩
  cases source with
  | some make =>
    obtain ⟨coins, hcoins⟩ := hrouting
    rw [hcoins]
    exact .random coins coins
  | none =>
    have hrouting : start.routing = .roundRobin 0 := hrouting
    rw [hrouting]
    exact .roundRobin rfl

theorem queryLevel_eq {τ : Type} [Tracker τ] {h : Hierarchy τ ρ} {level : Nat} {t : τ} {mask : Key}
    (ht : h.levels[level]? = some t) (hmask : masks[level]? = some mask) (key : Key) :
    h.queryLevel key level = Tracker.query t (key &&& mask) := by
  simp [queryLevel, Hierarchy.level, Hierarchy.mask, ht, hmask, bind, Except.bind]

theorem levelTopK_eq {τ : Type} [Tracker τ] {h : Hierarchy τ ρ} {level : Nat} {t : τ}
    (ht : h.levels[level]? = some t) : h.levelTopK level = Tracker.topK t := by
  simp [levelTopK, Hierarchy.level, ht, bind, Except.bind]

variable [RandomSource ρ]

/-- What a hierarchy is to the weighted keys that were inserted into a built
one, with their units labelled. -/
structure Distributes (choice : LevelChoice) (source : Option (UInt64 → ρ))
    (memory : Nat) (seed : UInt64) (h : Hierarchy AnyTracker ρ) (inserts : List Entry)
    (routed : List (Nat × Key)) : Prop where
  /-- The units of the inserts are labelled in order, each with a level. -/
  units_eq : routed.map (·.2) = unitsOf inserts
  lt_levelCount : ∀ unit ∈ routed, unit.1 < levelCount
  /-- Without a source, unit number `u` comes to the level `u` modulo the number of levels. -/
  in_turn : source = none → routed.map (·.1) = (List.range routed.length).map (· % levelCount)
  /-- The tracker of a level is what a tracker that is built alike makes of the units of the level,
  and all questions about the level are put to it. -/
  level_run : ∀ (level : Nat) (mask : Key), masks[level]? = some mask → ∃ fresh t,
    choice.Fresh (memory / levelCount) (SeedStream.seedAt ⟨seed⟩ level) fresh ∧
      Tracker.feed fresh (share level mask routed) = .ok t ∧ h.levels[level]? = some t ∧
      (∀ key, h.queryLevel key level = Tracker.query t (key &&& mask)) ∧
      h.levelTopK level = Tracker.topK t
  /-- A level ranks only keys of which its mask keeps all. -/
  masked : ∀ (level : Nat) (mask : Key), masks[level]? = some mask → ∀ ranking,
    h.levelTopK level = .ok ranking →
    ∀ r ∈ ranking, r.key &&& mask = r.key
  /-- Two inserts of a key are one of their joint weight. -/
  insert_add : ∀ (key : Key) (a b : Int), 0 ≤ a → 0 ≤ b →
    (Estimator.insert h key a >>= fun h => Estimator.insert h key b)
      = Estimator.insert h key (a + b)
  /-- Space-Saving tables hold the weight of all inserts, of which negative ones have none. -/
  weight_eq : choice = .spaceSaving →
    (h.levels.map fun t => weightOf allKeys (Tracker.residents t)).sum
    = (inserts.map fun insert => max insert.count 0).sum

/-- **A run distributes the units over the levels.** -/
theorem distributes_of_insertAll {start h : Hierarchy AnyTracker ρ} {inserts : List Entry}
    (built : ofBudget choice.buildLevel source memory seed = .ok start)
    (run : Estimator.insertAll start inserts = .ok h) :
    ∃ routed, Distributes choice source memory seed h inserts routed := by
  obtain ⟨⟨hlength, hfresh⟩, hrouting⟩ := ofBudget_eq_ok built
  rw [insertAll_eq] at run
  obtain ⟨routed, hunits, hr⟩ := exists_routed (routed_of_ofBudget built) run
  have hlevel : ∀ (level : Nat) (mask : Key), masks[level]? = some mask → ∃ fresh t,
      choice.Fresh (memory / levelCount) (SeedStream.seedAt ⟨seed⟩ level) fresh ∧
        Tracker.feed fresh (share level mask routed) = .ok t ∧ h.levels[level]? = some t := by
    intro level mask hmask
    have hlt : level < start.levels.length := hlength ▸ (List.getElem?_eq_some_iff.mp hmask).1
    have hstart := List.getElem?_eq_getElem hlt
    obtain ⟨t, ht, hfed⟩ := hr.level_run level _ mask hstart hmask
    exact ⟨_, t, hfresh level _ hstart, hfed, ht⟩
  refine ⟨routed, hunits, hr.lt_levelCount, ?_, ?_, ?_, ?_, ?_⟩
  · rintro rfl
    have hrouting : start.routing = .roundRobin 0 := hrouting
    exact (hrouting ▸ hr.turns).levels_eq
  · intro level mask hmask
    obtain ⟨fresh, t, hbuilt, hfed, ht⟩ := hlevel level mask hmask
    exact ⟨fresh, t, hbuilt, hfed, ht, queryLevel_eq ht hmask, levelTopK_eq ht⟩
  · intro level mask hmask ranking hranking r hmem
    obtain ⟨fresh, t, hbuilt, hfed, ht⟩ := hlevel level mask hmask
    rw [levelTopK_eq ht] at hranking
    obtain ⟨e, he, hkey⟩ := Tracker.exists_resident_of_topK hranking hmem
    obtain ⟨unit, -, hunit⟩ := List.mem_map.mp (hbuilt.key_mem hfed e he)
    rw [← hkey, ← hunit, UInt32.and_assoc, UInt32.and_self]
  · exact fun key a b ha hb => insert_bind_insert h key ha hb
  · rintro rfl
    have hweights : (h.levels.map fun t => weightOf allKeys (Tracker.residents t))
        = (List.range levelCount).map fun level =>
          ((share level (masks.getD level 0) routed).length : Int) := by
      refine List.ext_getElem (by simp [hr.length_eq]) fun level hlt _ => ?_
      have hlt : level < levelCount := by simpa [hr.length_eq] using hlt
      have hmask : masks[level]? = some (masks.getD level 0) := by
        rw [List.getD_eq_getElem?_getD, List.getElem?_eq_getElem hlt, Option.getD_some]
      obtain ⟨fresh, t, hbuilt, hfed, ht⟩ := hlevel level _ hmask
      rw [List.getElem_map, (List.getElem?_eq_some_iff.mp ht).2, hbuilt.weight_residents hfed]
      simp
    have htotal := sum_length_share hr.lt_levelCount (masks.getD · 0)
    have hcount : routed.length = (unitsOf inserts).length := by rw [← hunits, List.length_map]
    rw [hweights, ← length_unitsOf, ← hcount, ← htotal, Nat.cast_sum]
    rfl

/-- Two counters at each level, which take seven units of two keys in turn.  The keys differ in
their last byte only, so just the last level tells them apart. -/
theorem distributes_of_insertAll_in_turn : ∃ start h : Hierarchy AnyTracker Xoshiro, ∃ routed,
    ofBudget LevelChoice.spaceSaving.buildLevel none 64 1 = .ok start ∧
      Estimator.insertAll start [⟨0x0a000001, 3⟩, ⟨0x0a000002, -1⟩, ⟨0x0a000002, 4⟩] = .ok h ∧
      h.levelTopK 0 = .ok [⟨0x0a000000, 2⟩] ∧ h.levelTopK 3 = .ok [⟨0x0a000002, 1⟩] ∧
      Distributes .spaceSaving none 64 1 h
      [⟨0x0a000001, 3⟩, ⟨0x0a000002, -1⟩, ⟨0x0a000002, 4⟩] routed := by
  have hrun : (do
      let start : Hierarchy AnyTracker Xoshiro ← ofBudget
        LevelChoice.spaceSaving.buildLevel none 64 1
      let h ← Outcome.ofChecked
        (Estimator.insertAll start [⟨0x0a000001, 3⟩, ⟨0x0a000002, -1⟩, ⟨0x0a000002, 4⟩])
      return (h.levelTopK 0, h.levelTopK 3) : Outcome (Checked (List Entry) × Checked (List Entry)))
        = .ok (.ok [⟨0x0a000000, 2⟩], .ok [⟨0x0a000002, 1⟩]) := by decide +kernel
  obtain ⟨start, built, hrun⟩ := Checked.bind_eq_ok.mp hrun
  obtain ⟨h, run, hrun⟩ := Checked.bind_eq_ok.mp hrun
  obtain ⟨hfirst, hlast⟩ := Prod.mk.inj (Checked.pure_eq_ok.mp hrun)
  have run := Outcome.ofChecked_eq_ok.mp run
  obtain ⟨routed, hdistributes⟩ := distributes_of_insertAll built run
  exact ⟨start, h, routed, built, run, hfirst, hlast, hdistributes⟩

end Hierarchy

end HeavyHitters
