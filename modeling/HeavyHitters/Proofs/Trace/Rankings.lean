import HeavyHitters.Proofs.Trace

/-!
# Exact rankings

What structures are scored against is exact: a ranking of a trace lists every flow, every
network or every part of a key under a mask once, with the number of its packets.  Flows are
counted first and their records are then regrouped; they may be taken in any order, as the
ranking is the only list of its kind.

* `ExactRanking` is a list of all groups of the packets by rank, and
  `ExactRanking.unique` says that there is one.
* `Trace.Counts.regroup_cases` finds it by regrouping the records of the flows, in whatever order,
  unless a group has more packets than a count can hold.
* `Trace.Exact` are the rankings of a trace, and `Trace.exact_of_ofKeys` says that they are exact
  for every trace whose packets a count can hold.
-/

namespace HeavyHitters

/-! ## The exact ranking of groups -/

/-- The ranking of the groups of some keys: each group once, with the number of its packets. -/
structure ExactRanking {κ : Type} [LT κ] [BEq κ] (group : Key → κ) (keys : List Key)
    (ranking : List (Record κ)) : Prop where
  /-- No group is listed twice. -/
  nodup : (ranking.map (·.key)).Nodup
  /-- The greater counts are listed first, and equal ones by ascending group. -/
  pairwise : ranking.Pairwise fun r s => s.count < r.count ∨ s.count = r.count ∧ r.key < s.key
  /-- The groups are those of the packets, with as many of them as there are. -/
  mem_iff : ∀ r, r ∈ ranking ↔
    (∃ key ∈ keys, group key = r.key) ∧ r.count = (keys.countP (group · == r.key) : Int)
  positive : ∀ r ∈ ranking, 0 < r.count
  /-- Every packet is counted in one group. -/
  sum_eq : (ranking.map (·.count)).sum = keys.length

namespace ExactRanking

variable {κ : Type} [BEq κ] [LawfulBEq κ] [LT κ] {group : Key → κ} {keys : List Key}
  {ranking other : List (Record κ)}

omit [LawfulBEq κ] in
theorem ne_nil (h : ExactRanking group keys ranking) (hne : keys ≠ []) : ranking ≠ [] := by
  rintro rfl
  have hsum := h.sum_eq
  have := List.length_pos_iff_ne_nil.mpr hne
  rw [List.map_nil, List.sum_nil] at hsum
  omega

/-- Groups that keep their order and stay apart under another name
have the same ranking under it. -/
theorem map {κ' : Type} [BEq κ'] [LawfulBEq κ'] [LT κ'] {rename : κ → κ'}
    (h : ExactRanking group keys ranking)
    (hlt : ∀ key other, group key < group other → rename (group key) < rename (group other))
    (hinj : ∀ key other, rename (group key) = rename (group other) → group key = group other) :
    ExactRanking (fun key => rename (group key)) keys (ranking.map fun r =>
      ⟨rename r.key, r.count⟩) where
  nodup := by
    rw [List.map_map]
    refine List.pairwise_map.mpr ((List.pairwise_map.mp h.nodup).imp_of_mem ?_)
    intro r s hr hs hne heq
    obtain ⟨⟨key, -, hkey⟩, -⟩ := (h.mem_iff r).mp hr
    obtain ⟨⟨other, -, hother⟩, -⟩ := (h.mem_iff s).mp hs
    rw [← hkey, ← hother] at hne
    refine hne (hinj key other ?_)
    rw [hkey, hother]
    exact heq
  pairwise := by
    refine List.pairwise_map.mpr (h.pairwise.imp_of_mem ?_)
    intro r s hr hs hrs
    obtain ⟨⟨key, -, hkey⟩, -⟩ := (h.mem_iff r).mp hr
    obtain ⟨⟨other, -, hother⟩, -⟩ := (h.mem_iff s).mp hs
    refine hrs.imp_right fun hlast => ⟨hlast.1, ?_⟩
    have hnames := hlt key other (by rw [hkey, hother]; exact hlast.2)
    rwa [hkey, hother] at hnames
  mem_iff r := by
    have hcount : ∀ key, keys.countP (fun other => rename (group other) == rename (group key))
        = keys.countP (group · == group key) := by
      intro key
      refine List.countP_congr fun other _ => ?_
      rw [beq_iff_eq, beq_iff_eq]
      exact ⟨hinj other key, congrArg rename⟩
    rw [List.mem_map]
    constructor
    · rintro ⟨s, hs, rfl⟩
      obtain ⟨⟨key, hkey, hgroup⟩, hs⟩ := (h.mem_iff s).mp hs
      refine ⟨⟨key, hkey, congrArg rename hgroup⟩, ?_⟩
      dsimp only
      rw [← hgroup, hcount, hs, hgroup]
    · rintro ⟨⟨key, hkey, hgroup⟩, hr⟩
      refine ⟨⟨group key, r.count⟩, (h.mem_iff _).mpr ⟨⟨key, hkey, rfl⟩, ?_⟩, ?_⟩
      · dsimp only
        rw [hr, ← hgroup, hcount]
      · rw [hgroup]
  positive r hr := by
    obtain ⟨s, hs, rfl⟩ := List.mem_map.mp hr
    exact h.positive s hs
  sum_eq := by
    rw [List.map_map]
    exact h.sum_eq

variable [Ord κ] [Std.TransOrd κ] [LE κ] [Std.LawfulOrderOrd κ] [Std.LawfulOrderLT κ]

omit [LawfulBEq κ] in
/-- **There is one exact ranking.** -/
theorem unique (h : ExactRanking group keys ranking) (h' : ExactRanking group keys other) :
    ranking = other := by
  have hperm : ranking.Perm other :=
    (List.perm_ext_iff_of_nodup h.nodup.of_map h'.nodup.of_map).mpr fun r =>
      (h.mem_iff r).trans (h'.mem_iff r).symm
  exact eq_of_perm_of_ranked hperm (h.pairwise.imp Record.rankCompare_eq_lt_iff.mpr)
    (h'.pairwise.imp Record.rankCompare_eq_lt_iff.mpr)

/-- The ranking of a tally of the packets is exact. -/
theorem of_sums [Std.LawfulEqOrd κ] {t : Tally κ} (h : t.Sums group (packetUnits keys)) :
    ExactRanking group keys t.ranking where
  nodup := t.nodup_ranking
  pairwise := t.pairwise_ranking.imp Record.rankCompare_eq_lt_iff.mp
  mem_iff r := by
    have hcount := (h.count_eq r.key).trans (weightOf_packetUnits _ _)
    rw [Tally.mem_ranking_iff, ← @exists_mem_packetUnits_iff keys (group · = r.key),
      ← h.mem_iff, ← hcount]
    constructor
    · intro hget
      have hmem : r.key ∈ t := by rw [Std.TreeMap.mem_iff_isSome_getElem?, hget, Option.isSome_some]
      exact ⟨hmem, Option.some.inj (hget.symm.trans (Tally.getElem?_eq_some_of_mem hmem))⟩
    · rintro ⟨hmem, hcount⟩
      rw [Tally.getElem?_eq_some_of_mem hmem, hcount]
  positive r hr := by
    rw [← Tally.count_of_mem_ranking hr]
    exact h.count_pos (fun unit hu => (count_of_mem_packetUnits hu).ge)
      (Tally.mem_of_mem_ranking hr)
  sum_eq := by
    rw [h.sum_ranking, weightOf_packetUnits]
    exact congrArg _ (List.countP_eq_length.mpr fun _ _ => rfl)

end ExactRanking

/-! ## Rankings of a trace -/

namespace Trace

namespace Counts

variable {keys : List Key} {t : Trace} {flows : List (Record Key)}

theorem exactRanking_ranking (h : Counts keys t) : ExactRanking id keys t.ranking := .of_sums h.sums

variable {κ : Type} [Ord κ] [Std.TransOrd κ] [Std.LawfulEqOrd κ] [BEq κ] [LawfulBEq κ] [LT κ] [LE κ]
  [Std.LawfulOrderOrd κ] [Std.LawfulOrderLT κ]

/-- The records of the flows, in whatever order, are regrouped to the exact ranking, unless a
group has too many packets. -/
theorem regroup_cases (h : Counts keys t) (hflows : flows.Perm t.counts.records) (group : Key → κ) :
    (∃ ranking, regroup group flows = .ok ranking ∧ ExactRanking group keys ranking ∧
        ∀ value, (keys.countP (group · == value) : Int) ≤ Count.greatest) ∨
      regroup group flows = .error (.overflow .add) ∧
        ∃ value, Count.greatest < (keys.countP (group · == value) : Int) := by
  have hnonneg : ∀ r ∈ flows, 0 ≤ r.count := fun r hr => h.records_nonneg r (hflows.mem_iff.mp hr)
  have hweight : ∀ value, weightOf (group · == value) flows = keys.countP (group · == value) :=
    fun _ => (weightOf_perm hflows).trans (h.weightOf_records _)
  unfold regroup mergeRanked
  rcases Tally.ofRecords_cases group hnonneg with ⟨⟨tally, htally⟩, hfits⟩ | ⟨herror, value, hlt⟩
  · refine .inl ⟨tally.ranking, by rw [htally]; rfl, ?_, fun value => hweight value ▸ hfits value⟩
    -- the sums are over the records, the ranking is about the packets
    refine ExactRanking.of_sums ((Tally.sums_of_ofRecords htally).congr ?_ ?_)
    · exact fun value => (hweight value).trans (weightOf_packetUnits _ _).symm
    · intro value
      rw [@exists_mem_packetUnits_iff keys (group · = value),
        ← @exists_mem_records_iff _ _ h (group · = value)]
      exact exists_congr fun r => and_congr_left' hflows.mem_iff
  · exact .inr ⟨by rw [herror]; rfl, value, hweight value ▸ hlt⟩

/-- The order in which the records of the flows are taken does not matter. -/
theorem regroup_eq (h : Counts keys t) (hflows : flows.Perm t.counts.records) (group : Key → κ) :
    regroup group flows = regroup group t.counts.records := by
  rcases h.regroup_cases hflows group with ⟨ranking, hok, hexact, hfits⟩ | ⟨herror, value, hlt⟩ <;>
    rcases h.regroup_cases (.refl _) group with ⟨other, hok', hexact', hfits'⟩
      | ⟨herror', value', hlt'⟩
  · rw [hok, hok', hexact.unique hexact']
  · exact absurd (hfits value') (Int.not_le.mpr hlt')
  · exact absurd (hfits' value) (Int.not_le.mpr hlt)
  · rw [herror, herror']

/-- Groups that all fit have an exact ranking, which every order of the records leads to. -/
theorem exists_ranking (h : Counts keys t) (group : Key → κ)
    (hfits : ∀ value, (keys.countP (group · == value) : Int) ≤ Count.greatest) :
    ∃ ranking, ExactRanking group keys ranking ∧
      ∀ flows, flows.Perm t.counts.records → regroup group flows = .ok ranking := by
  rcases h.regroup_cases (.refl _) group with ⟨ranking, hok, hexact, -⟩ | ⟨-, value, hlt⟩
  · exact ⟨ranking, hexact, fun flows hflows => (h.regroup_eq hflows group).trans hok⟩
  · exact absurd (hfits value) (Int.not_le.mpr hlt)

/-- The records of the flows, in whatever order, are merged to the ranking of the flows. -/
theorem mergeRanked_eq (h : Counts keys t) (hflows : flows.Perm t.counts.records) :
    mergeRanked flows = .ok t.ranking := by
  obtain ⟨ranking, hexact, hall⟩ := h.exists_ranking id h.fits
  have hregroup := hall flows hflows
  rw [hexact.unique h.exactRanking_ranking] at hregroup
  rwa [regroup, map_record_id] at hregroup

end Counts

/-! ## Masks -/

/-- The mask under which a key is its network. -/
def networkMask : Key := 0xffff0000

/-- The mask under which a key is itself. -/
def fullMask : Key := 0xffffffff

theorem and_fullMask (key : Key) : key &&& fullMask = key := by
  refine UInt32.toNat_inj.mp ?_
  rw [UInt32.toNat_and]
  exact Nat.and_two_pow_sub_one_of_lt_two_pow key.toNat_lt

theorem toNat_and_networkMask (key : Key) :
    (key &&& networkMask).toNat = key.toNat / 65536 * 65536 := by
  have hmask : networkMask.toNat = (65536 - 1) <<< 16 := rfl
  have hshift : key.toNat / 65536 * 65536 = (key.toNat >>> 16) <<< 16 := by
    rw [Nat.shiftLeft_eq, Nat.shiftRight_eq_div_pow]
  rw [UInt32.toNat_and, hmask, hshift]
  refine Nat.eq_of_testBit_eq fun i => ?_
  rw [Nat.testBit_and, Nat.testBit_shiftLeft, Nat.testBit_shiftLeft, Nat.testBit_shiftRight,
    show 65536 - 1 = 2 ^ 16 - 1 from rfl, Nat.testBit_two_pow_sub_one]
  by_cases hlow : 16 ≤ i
  · by_cases hhigh : i < 32
    · simp [hlow, show i - 16 < 16 by omega]
    · have hnone : key.toNat.testBit i = false :=
        Nat.testBit_lt_two_pow
          (Nat.lt_of_lt_of_le key.toNat_lt (Nat.pow_le_pow_right (by decide) (by omega)))
      simp [hlow, hnone]
  · simp [hlow]

theorem toNat_networkOf (key : Key) : (networkOf key).toNat = key.toNat / 65536 := by
  have hlt : key.toNat / 65536 < 65536 := Nat.div_lt_of_lt_mul key.toNat_lt
  have hshift : (key >>> 16).toNat = key.toNat / 65536 := by
    rw [UInt32.toNat_shiftRight, Nat.shiftRight_eq_div_pow]
    rfl
  rw [networkOf, UInt32.toNat_toUInt16, hshift]
  exact Nat.mod_eq_of_lt hlt

theorem networkOf_and_networkMask (key : Key) :
    networkOf (key &&& networkMask) = networkOf key := by
  refine UInt16.toNat_inj.mp ?_
  rw [toNat_networkOf, toNat_networkOf, toNat_and_networkMask, Nat.mul_div_cancel _ (by decide)]

/-- The networks are ranked as the parts of the keys under their mask. -/
theorem exactRanking_networks {keys : List Key} {masked : List (Record Key)}
    (h : ExactRanking (· &&& networkMask) keys masked) :
    ExactRanking networkOf keys (masked.map fun r => ⟨networkOf r.key, r.count⟩) := by
  have hnetwork : networkOf = fun key => networkOf (key &&& networkMask) :=
    funext fun key => (networkOf_and_networkMask key).symm
  have hmap : ExactRanking (fun key => networkOf (key &&& networkMask)) keys
      (masked.map fun r => ⟨networkOf r.key, r.count⟩) := by
    refine h.map ?_ ?_
    · intro key other hlt
      rw [UInt32.lt_iff_toNat_lt, toNat_and_networkMask, toNat_and_networkMask] at hlt
      rw [UInt16.lt_iff_toNat_lt, networkOf_and_networkMask,
        networkOf_and_networkMask, toNat_networkOf, toNat_networkOf]
      omega
    · intro key other heq
      have := congrArg UInt16.toNat heq
      rw [networkOf_and_networkMask, networkOf_and_networkMask, toNat_networkOf,
        toNat_networkOf] at this
      rw [← UInt32.toNat_inj, toNat_and_networkMask, toNat_and_networkMask, this]
  rwa [← hnetwork] at hmap

/-! ## All rankings -/

/-- The rankings of a trace are exact, in whatever order the records of the flows are taken. -/
structure Exact (keys : List Key) (t : Trace) : Prop where
  packets_eq : t.packets = keys.length
  flows : ExactRanking id keys t.ranking
  rank_eq : ∀ flows, flows.Perm t.counts.records → rank flows = t.ranking
  /-- Under every mask nothing overflows. -/
  masked : ∀ mask, ∃ ranking, t.maskedRanking mask = .ok ranking ∧
    ExactRanking (· &&& mask) keys ranking ∧
    ∀ flows, flows.Perm t.counts.records → regroup (· &&& mask) flows = .ok ranking
  networks : ∃ ranking, t.networkRanking = .ok ranking ∧ ExactRanking networkOf keys ranking ∧
    ∀ flows, flows.Perm t.counts.records → regroup networkOf flows = .ok ranking
  /-- The flows are the keys under the mask that keeps all of them. -/
  maskedRanking_fullMask : t.maskedRanking fullMask = .ok t.ranking
  /-- The networks are the keys under the mask of their upper halves, shifted. -/
  networkRanking_eq : t.networkRanking
    = (List.map fun r => ⟨networkOf r.key, r.count⟩) <$> t.maskedRanking networkMask

theorem Counts.exact {keys : List Key} {t : Trace} (h : Counts keys t)
    (hn : (keys.length : Int) ≤ Count.greatest) : Exact keys t := by
  have hfits : ∀ p : Key → Bool, (keys.countP p : Int) ≤ Count.greatest := fun p => by
    have := List.countP_le_length (p := p) (l := keys)
    omega
  have hmasked : ∀ mask, ∃ ranking, t.maskedRanking mask = .ok ranking ∧
      ExactRanking (· &&& mask) keys ranking ∧
        ∀ flows, flows.Perm t.counts.records → regroup (· &&& mask) flows = .ok ranking := by
    intro mask
    obtain ⟨ranking, hexact, hall⟩ := h.exists_ranking (· &&& mask) fun value => hfits _
    exact ⟨ranking, hall _ (.refl _), hexact, hall⟩
  obtain ⟨networks, hnetworks, hall⟩ := h.exists_ranking networkOf fun value => hfits _
  have hpackets : t.packets = keys.length := by rw [← h.keys_eq, Array.length_toList, packets]
  refine ⟨hpackets, h.exactRanking_ranking, fun flows hflows => ?_, hmasked,
    ⟨networks, hall _ (.refl _), hnetworks, hall⟩, ?_, ?_⟩
  · exact rank_eq_of_perm ((hflows.map _).nodup_iff.mpr t.counts.nodup_records) hflows
  · obtain ⟨ranking, hranking, hexact, -⟩ := hmasked fullMask
    have hid : (· &&& fullMask) = (id : Key → Key) := funext and_fullMask
    rw [hid] at hexact
    rw [hranking, hexact.unique h.exactRanking_ranking]
  · obtain ⟨masked, hranking, hexact, -⟩ := hmasked networkMask
    rw [hranking]
    show t.networkRanking = .ok (masked.map _)
    -- both are rankings of the networks, of which there is one
    rw [← hnetworks.unique (exactRanking_networks hexact)]
    exact hall _ (.refl _)

/-- **The rankings of a trace are exact**, and no count overflows on the way, if a count can
hold the number of packets. -/
theorem exact_of_ofKeys {keys : Array Key} (hne : keys ≠ #[])
    (hn : (keys.size : Int) ≤ Count.greatest) : ∃ t, ofKeys keys = .ok t ∧ Exact keys.toList t := by
  have hlist : keys.toList ≠ [] := by simpa using hne
  rcases ofKeys_cases hlist with ⟨⟨t, ht⟩, -⟩ | ⟨-, key, hlt⟩
  · exact ⟨t, ht, (ofKeys_eq_ok ht).2.2.exact hn⟩
  · have := List.count_le_length (a := key) (l := keys.toList)
    rw [Array.length_toList] at this
    omega

/-- Three keys in two networks. -/
theorem exact_of_ofKeys_three_keys : ∃ t,
    (#[0x0a010203, 0x0a01ffff, 0x0b000000] : Array Key) ≠ #[] ∧
      (((#[0x0a010203, 0x0a01ffff, 0x0b000000] : Array Key).size : Nat) : Int) ≤ Count.greatest ∧
      ofKeys #[0x0a010203, 0x0a01ffff, 0x0b000000] = .ok t ∧
      t.networkRanking = .ok [⟨0x0a01, 2⟩, ⟨0x0b00, 1⟩] ∧
      Exact [0x0a010203, 0x0a01ffff, 0x0b000000] t := by
  have hrun : (do (← ofKeys #[0x0a010203, 0x0a01ffff, 0x0b000000]).networkRanking : Outcome _)
      = .ok [⟨0x0a01, 2⟩, ⟨0x0b00, 1⟩] := by decide +kernel
  obtain ⟨t, ht, h⟩ :=
    @exact_of_ofKeys #[0x0a010203, 0x0a01ffff, 0x0b000000] (by decide) (by decide)
  rw [ht] at hrun
  exact ⟨t, by decide, by decide, ht, Outcome.ofChecked_eq_ok.mp hrun, h⟩

end Trace

end HeavyHitters
