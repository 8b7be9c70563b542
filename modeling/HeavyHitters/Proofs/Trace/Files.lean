import HeavyHitters.Proofs.Trace

/-!
# Traces in files

A file is read record by record: the packet's key is the number in the first four bytes of a
record, the least significant byte first, and nothing else of a record is looked at.  A
request is refused for its record size, for an empty file or for a length that does not fit,
in this order, and for nothing else.

* `Trace.toNat_keyFrom` is the key in four bytes as a number.
* `Trace.Reading` says what the outcome for a file is, by its length and the record size, and
  `Trace.Decoded` what the trace has to do with the bytes.
* `Trace.drop_fileBytes` finds the records in a written file.
* `Trace.reading_of_ofFile` is the whole: every file is read as it should be, a written file is read
  as the keys that were written, and what fills the records does not matter.
-/

namespace HeavyHitters

/-! ## Bytes of numbers -/

/-- The number that has these bytes, the least significant one first. -/
def littleEndian : List UInt8 → Nat
  | [] => 0
  | byte :: bytes => byte.toNat + 256 * littleEndian bytes

/-- Bytes that are put side by side are the digits of a number. -/
theorem or_shiftLeft_eq {a b c d : Nat} (ha : a < 256) (hb : b < 256) (hc : c < 256) :
    a ||| b <<< 8 ||| c <<< 16 ||| d <<< 24 = a + 256 * (b + 256 * (c + 256 * d)) := by
  have hlow : a ||| b <<< 8 = a + 256 * b := by
    rw [Nat.or_comm, ← Nat.shiftLeft_add_eq_or_of_lt ha, Nat.shiftLeft_eq]
    omega
  have hmiddle : (a + 256 * b) ||| c <<< 16 = a + 256 * b + 65536 * c := by
    rw [Nat.or_comm, ← Nat.shiftLeft_add_eq_or_of_lt (by omega), Nat.shiftLeft_eq]
    omega
  have hhigh : (a + 256 * b + 65536 * c) ||| d <<< 24 = a + 256 * b + 65536 * c + 16777216 * d := by
    rw [Nat.or_comm, ← Nat.shiftLeft_add_eq_or_of_lt (by omega), Nat.shiftLeft_eq]
    omega
  rw [hlow, hmiddle, hhigh]
  omega

namespace Trace

/-- The bytes of a key are those of its number. -/
theorem littleEndian_keyBytes (key : Key) : littleEndian (keyBytes key) = key.toNat := by
  have hlt := key.toNat_lt
  simp only [keyBytes, littleEndian, UInt32.toNat_toUInt8, UInt32.toNat_shiftRight,
    Nat.shiftRight_eq_div_pow, UInt32.reduceToNat, Nat.reduceMod, Nat.reducePow]
  omega

/-! ## The heads of records -/

/-- The bytes at the start of a record that hold its key. -/
def recordHead (bytes : ByteArray) (recordSize i : Nat) : List UInt8 :=
  (bytes.data.toList.drop (i * recordSize)).take keyWidth

variable {bytes other : ByteArray} {recordSize : Nat}

theorem getElem?_eq_toList (bytes : ByteArray) (p : Nat) : bytes[p]? = bytes.data.toList[p]? := by
  rw [Array.getElem?_toList]
  by_cases h : p < bytes.size
  · rw [getElem?_pos bytes p h, ByteArray.getElem_eq_getElem_data]
    exact (Array.getElem?_eq_getElem h).symm
  · rw [getElem?_neg bytes p h]
    exact (Array.getElem?_eq_none (Nat.le_of_not_lt h)).symm

theorem take_drop_eq {list : List UInt8} {p : Nat} {a b c d : UInt8} (ha : list[p]? = some a)
    (hb : list[p + 1]? = some b) (hc : list[p + 2]? = some c) (hd : list[p + 3]? = some d) :
    (list.drop p).take keyWidth = [a, b, c, d] := by
  refine List.ext_getElem? fun j => ?_
  rw [List.getElem?_take, List.getElem?_drop, keyWidth]
  match j with
  | 0 => simp [ha]
  | 1 => simp [hb]
  | 2 => simp [hc]
  | 3 => simp [hd]
  | j + 4 => simp

theorem toNat_byteAt {p : Nat} {byte : UInt8} (h : bytes[p]? = some byte) :
    (byteAt bytes p).toNat = byte.toNat := by
  rw [byteAt, h, Option.getD_some, UInt8.toNat_toUInt32]

/-- The key in four bytes is their number. -/
theorem toNat_keyFrom {p : Nat} (h : p + keyWidth ≤ bytes.size) :
    (keyFrom bytes p).toNat = littleEndian ((bytes.data.toList.drop p).take keyWidth) := by
  unfold keyWidth at h
  obtain ⟨a, ha⟩ : ∃ a, bytes[p]? = some a := ⟨_, getElem?_pos bytes p (by omega)⟩
  obtain ⟨b, hb⟩ : ∃ b, bytes[p + 1]? = some b := ⟨_, getElem?_pos bytes (p + 1) (by omega)⟩
  obtain ⟨c, hc⟩ : ∃ c, bytes[p + 2]? = some c := ⟨_, getElem?_pos bytes (p + 2) (by omega)⟩
  obtain ⟨d, hd⟩ : ∃ d, bytes[p + 3]? = some d := ⟨_, getElem?_pos bytes (p + 3) (by omega)⟩
  -- no byte is shifted out of the key
  have hshift : ∀ (byte : UInt8) (n : Nat), n ≤ 24 →
      byte.toNat <<< n % 4294967296 = byte.toNat <<< n := by
    intro byte n hn
    refine Nat.mod_eq_of_lt ?_
    have hbyte := byte.toNat_lt
    calc byte.toNat <<< n = byte.toNat * 2 ^ n := Nat.shiftLeft_eq _ _
      _ < 256 * 2 ^ n := Nat.mul_lt_mul_of_pos_right hbyte (Nat.two_pow_pos n)
      _ ≤ 256 * 2 ^ 24 := Nat.mul_le_mul_left _ (Nat.pow_le_pow_right (by decide) hn)
  have hkey : (keyFrom bytes p).toNat
      = a.toNat ||| b.toNat <<< 8 ||| c.toNat <<< 16 ||| d.toNat <<< 24 := by
    rw [← hshift b 8 (by decide), ← hshift c 16 (by decide),
      ← hshift d 24 (by decide), ← toNat_byteAt ha,
      ← toNat_byteAt hb, ← toNat_byteAt hc, ← toNat_byteAt hd]
    simp only [keyFrom, UInt32.toNat_or, UInt32.toNat_shiftLeft]
    rfl
  rw [getElem?_eq_toList] at ha hb hc hd
  rw [hkey, take_drop_eq ha hb hc hd, or_shiftLeft_eq a.toNat_lt b.toNat_lt c.toNat_lt]
  simp only [littleEndian, Nat.mul_zero, Nat.add_zero]

/-- A record of a file that was cut into records has all its bytes. -/
theorem head_le_size (hwidth : keyWidth ≤ recordSize) {i : Nat} (hi : i < bytes.size / recordSize) :
    i * recordSize + keyWidth ≤ bytes.size := by
  have hnext : (i + 1) * recordSize ≤ bytes.size :=
    (Nat.mul_le_mul_right _ hi).trans (Nat.div_mul_le_self _ _)
  rw [Nat.add_mul, Nat.one_mul] at hnext
  omega

/-! ## Reading a file -/

variable {path : String}

/-- The keys of a file, one for each record. -/
def recordKeys (bytes : ByteArray) (recordSize : Nat) : Array Key :=
  (Array.range (bytes.size / recordSize)).map fun i => keyFrom bytes (i * recordSize)

theorem size_recordKeys (bytes : ByteArray) (recordSize : Nat) :
    (recordKeys bytes recordSize).size = bytes.size / recordSize := by
  rw [recordKeys, Array.size_map, Array.size_range]

theorem toList_recordKeys (bytes : ByteArray) (recordSize : Nat) :
    (recordKeys bytes recordSize).toList
    = (List.range (bytes.size / recordSize)).map fun i => keyFrom bytes (i * recordSize) := by
  rw [recordKeys, Array.toList_map, Array.toList_range]

theorem ofFile_of_lt {opened : Except SystemError OpenFile} (h : recordSize < keyWidth) :
    ofFile path opened recordSize = refuse (.config "Dataset"
      s!"record size {recordSize} is smaller than the {keyWidth}-byte key") := by
  unfold ofFile
  rw [if_pos h]
  rfl

theorem ofFile_of_empty (hwidth : keyWidth ≤ recordSize) (h : bytes.size = 0) :
    ofFile path (.ok (.regular bytes)) recordSize = refuse .emptyTrace := by
  unfold ofFile
  rw [if_neg (Nat.not_lt.mpr hwidth)]
  exact if_pos h

theorem ofFile_of_cut (hwidth : keyWidth ≤ recordSize) (hsome : bytes.size ≠ 0)
    (h : bytes.size % recordSize ≠ 0) : ofFile path (.ok (.regular bytes)) recordSize
      = refuse (.truncated path bytes.size recordSize) := by
  unfold ofFile
  rw [if_neg (Nat.not_lt.mpr hwidth)]
  exact (if_neg hsome).trans (if_pos h)

theorem ofFile_of_whole (hwidth : keyWidth ≤ recordSize) (hsome : bytes.size ≠ 0)
    (h : bytes.size % recordSize = 0) :
    ofFile path (.ok (.regular bytes)) recordSize = ofKeys (recordKeys bytes recordSize) := by
  unfold ofFile
  rw [if_neg (Nat.not_lt.mpr hwidth)]
  exact (if_neg hsome).trans (if_neg (not_not_intro h))

/-- A trace has one packet for each record of a file, with the key at the record's start. -/
structure Decoded (bytes : ByteArray) (recordSize : Nat) (t : Trace) : Prop where
  packets_eq : t.packets = bytes.size / recordSize
  /-- All bytes of a key are in the file. -/
  head_le_size : ∀ i < t.packets, i * recordSize + keyWidth ≤ bytes.size
  keyAt_eq : ∀ i < t.packets, ∃ key, t.keyAt i = .ok key ∧
    key.toNat = littleEndian (recordHead bytes recordSize i)
  /-- The flows are those of the packets. -/
  ofKeys_eq : ofKeys t.keys = .ok t

/-- What comes of a file, by its length and the record size. -/
structure Reading (path : String) (bytes : ByteArray) (recordSize : Nat)
    (outcome : Outcome Trace) : Prop where
  narrow : recordSize < keyWidth → outcome = refuse (.config "Dataset"
    s!"record size {recordSize} is smaller than the {keyWidth}-byte key")
  empty : keyWidth ≤ recordSize → bytes.size = 0 → outcome = refuse .emptyTrace
  cut : keyWidth ≤ recordSize → bytes.size ≠ 0 → bytes.size % recordSize ≠ 0 →
    outcome = refuse (.truncated path bytes.size recordSize)
  /-- A whole number of records is a trace, unless a count cannot hold the records of some key. -/
  whole : keyWidth ≤ recordSize → bytes.size ≠ 0 → bytes.size % recordSize = 0 →
    (∃ t, outcome = .ok t ∧ Decoded bytes recordSize t) ∨
      outcome = .error (.fault (.overflow .add)) ∧ ∃ key : Key, Count.greatest
        < ((List.range (bytes.size / recordSize)).countP fun i =>
            littleEndian (recordHead bytes recordSize i) == key.toNat : Nat)

theorem decoded_of_ofKeys {t : Trace} (hwidth : keyWidth ≤ recordSize)
    (h : ofKeys (recordKeys bytes recordSize) = .ok t) : Decoded bytes recordSize t := by
  obtain ⟨-, hkeys, -⟩ := ofKeys_eq_ok h
  have hpackets : t.packets = bytes.size / recordSize := by rw [packets, hkeys, size_recordKeys]
  refine ⟨hpackets, fun i hi => head_le_size hwidth (hpackets ▸ hi),
    fun i hi => ?_, by rw [hkeys, h]⟩
  rw [hpackets] at hi
  refine ⟨keyFrom bytes (i * recordSize), ?_, toNat_keyFrom (head_le_size hwidth hi)⟩
  have hget : t.keys[i]? = some (keyFrom bytes (i * recordSize)) := by
    rw [hkeys, ← Array.getElem?_toList, toList_recordKeys, List.getElem?_map,
      List.getElem?_range hi]
    rfl
  rw [keyAt, hget]

theorem count_recordKeys (hwidth : keyWidth ≤ recordSize) (key : Key) :
    (recordKeys bytes recordSize).toList.count key
      = (List.range (bytes.size / recordSize)).countP fun i =>
      littleEndian (recordHead bytes recordSize i) == key.toNat := by
  rw [toList_recordKeys, List.count, List.countP_map]
  refine List.countP_congr fun i hi => ?_
  rw [recordHead, ← toNat_keyFrom (head_le_size hwidth (List.mem_range.mp hi))]
  simp only [Function.comp_apply, beq_iff_eq, UInt32.toNat_inj]

/-- Every file is read as it should be. -/
theorem reading (path : String) (bytes : ByteArray) (recordSize : Nat) :
    Reading path bytes recordSize (ofFile path (.ok (.regular bytes)) recordSize) where
  narrow := ofFile_of_lt
  empty := ofFile_of_empty
  cut := ofFile_of_cut
  whole hwidth hsome hwhole := by
    rw [ofFile_of_whole hwidth hsome hwhole]
    have hne : (recordKeys bytes recordSize).toList ≠ [] := by
      rw [← List.length_pos_iff_ne_nil, Array.length_toList, size_recordKeys]
      exact Nat.div_pos (Nat.le_of_dvd (by omega) (Nat.dvd_of_mod_eq_zero hwhole))
        (by unfold keyWidth at hwidth; omega)
    rcases ofKeys_cases hne with ⟨⟨t, ht⟩, -⟩ | ⟨herror, key, hlt⟩
    · exact .inl ⟨t, ht, decoded_of_ofKeys hwidth ht⟩
    · rw [count_recordKeys hwidth] at hlt
      exact .inr ⟨herror, key, hlt⟩

/-! ## Files as they are written -/

variable {records : List (Key × List UInt8)}

theorem length_fileBytes (h : ∀ r ∈ records, keyWidth + r.2.length = recordSize) :
    (fileBytes records).length = records.length * recordSize := by
  induction records with
  | nil => rw [List.length_nil, Nat.zero_mul]; rfl
  | cons r records ih =>
    obtain ⟨hr, hrest⟩ := List.forall_mem_cons.mp h
    rw [fileBytes, List.flatMap_cons, List.length_append, ← fileBytes, ih hrest,
      List.length_cons, Nat.add_mul, Nat.one_mul, List.length_append, ← hr]
    simp only [keyBytes, List.length_cons, List.length_nil, keyWidth]
    omega

/-- Leaving records out leaves out as many times the record size. -/
theorem drop_fileBytes (h : ∀ r ∈ records, keyWidth + r.2.length = recordSize) (i : Nat) :
    (fileBytes records).drop (i * recordSize) = fileBytes (records.drop i) := by
  induction i generalizing records with
  | zero => rw [Nat.zero_mul, List.drop_zero, List.drop_zero]
  | succ i ih =>
    cases records with
    | nil => simp [fileBytes]
    | cons r records =>
      obtain ⟨hr, hrest⟩ := List.forall_mem_cons.mp h
      have hlength : (keyBytes r.1 ++ r.2).length = recordSize := by
        rw [List.length_append, ← hr]
        rfl
      rw [fileBytes, List.flatMap_cons, Nat.add_mul, Nat.one_mul, Nat.add_comm,
        ← hlength, ← List.drop_drop, List.drop_left, hlength, ← fileBytes, ih hrest,
        List.drop_succ_cons]

/-- The head of a written record has the bytes of its key. -/
theorem recordHead_fileBytes (h : ∀ r ∈ records, keyWidth + r.2.length = recordSize) {i : Nat}
    {r : Key × List UInt8} (hr : records[i]? = some r) :
    recordHead ⟨(fileBytes records).toArray⟩ recordSize i = keyBytes r.1 := by
  obtain ⟨hi, rfl⟩ := List.getElem?_eq_some_iff.mp hr
  rw [recordHead]
  dsimp only
  rw [drop_fileBytes h, List.drop_eq_getElem_cons hi, fileBytes, List.flatMap_cons]
  simp [keyBytes, keyWidth]

/-- A written file is read as the keys that were written, whatever fills the records. -/
theorem ofFile_fileBytes (hwidth : keyWidth ≤ recordSize)
    (h : ∀ r ∈ records, keyWidth + r.2.length = recordSize) :
    ofFile path (.ok (.regular ⟨(fileBytes records).toArray⟩)) recordSize
      = ofKeys (records.map Prod.fst).toArray := by
  have hpos : 0 < recordSize := by unfold keyWidth at hwidth; omega
  have hsize : (⟨(fileBytes records).toArray⟩ : ByteArray).size = records.length * recordSize := by
    rw [← length_fileBytes h]
    rfl
  rcases Nat.eq_zero_or_pos records.length with hnil | hsome
  · obtain rfl := List.eq_nil_of_length_eq_zero hnil
    rw [ofFile_of_empty hwidth rfl]
    exact (ofKeys_of_empty rfl).symm
  · have hcut : (⟨(fileBytes records).toArray⟩ : ByteArray).size % recordSize = 0 := by
      rw [hsize, Nat.mul_mod_left]
    rw [ofFile_of_whole hwidth (by rw [hsize]; exact (Nat.mul_pos hsome hpos).ne') hcut]
    -- the keys that are read and those that were written agree at every place
    refine congrArg ofKeys (Array.toList_inj.mp ?_)
    refine List.ext_getElem? fun i => ?_
    rw [toList_recordKeys, hsize, Nat.mul_div_cancel _ hpos, List.getElem?_map, List.getElem?_map]
    by_cases hi : i < records.length
    · have hr : records[i]? = some records[i] := List.getElem?_eq_getElem hi
      have hhead : i * recordSize + keyWidth ≤ (⟨(fileBytes records).toArray⟩ : ByteArray).size :=
        head_le_size hwidth (by rwa [hsize, Nat.mul_div_cancel _ hpos])
      rw [List.getElem?_range hi, hr, Option.map_some, Option.map_some,
        Option.some_inj, ← UInt32.toNat_inj,
        toNat_keyFrom hhead, ← recordHead, recordHead_fileBytes h hr, littleEndian_keyBytes]
    · rw [List.getElem?_eq_none (by simpa using hi), List.getElem?_eq_none (by simpa using hi)]
      rfl

/-- What fills the records of a file does not matter. -/
theorem ofFile_congr (hsize : other.size = bytes.size)
    (h : ∀ p, p % recordSize < keyWidth → other[p]? = bytes[p]?) :
    ofFile path (.ok (.regular other)) recordSize
      = ofFile path (.ok (.regular bytes)) recordSize := by
  rcases Nat.lt_or_ge recordSize keyWidth with hnarrow | hwidth
  · rw [ofFile_of_lt hnarrow, ofFile_of_lt hnarrow]
  · have hkeys : ∀ i, keyFrom other (i * recordSize) = keyFrom bytes (i * recordSize) := by
      intro i
      have hbyte : ∀ j < keyWidth,
          byteAt other (i * recordSize + j) = byteAt bytes (i * recordSize + j) := by
        intro j hj
        have hmod : (i * recordSize + j) % recordSize = j := by
          rw [Nat.mul_comm, Nat.mul_add_mod, Nat.mod_eq_of_lt (hj.trans_le hwidth)]
        rw [byteAt, byteAt, h _ (by rwa [hmod])]
      unfold keyFrom
      rw [← Nat.add_zero (i * recordSize)]
      rw [hbyte 0 (by decide), hbyte 1 (by decide), hbyte 2 (by decide), hbyte 3 (by decide)]
    by_cases hsome : bytes.size = 0
    · rw [ofFile_of_empty hwidth hsome, ofFile_of_empty hwidth (hsize.trans hsome)]
    · by_cases hcut : bytes.size % recordSize = 0
      · rw [ofFile_of_whole hwidth hsome hcut,
          ofFile_of_whole hwidth (hsize ▸ hsome) (hsize ▸ hcut), recordKeys, recordKeys, hsize]
        simp only [hkeys]
      · rw [ofFile_of_cut hwidth hsome hcut,
          ofFile_of_cut hwidth (hsize ▸ hsome) (hsize ▸ hcut), hsize]

/-- **Every file is read as it should be**: refused, or decoded record by record; a written file as
the keys that were written; and without regard to what fills the records. -/
theorem reading_of_ofFile (path : String) (recordSize : Nat) :
    (∀ bytes, Reading path bytes recordSize (ofFile path (.ok (.regular bytes)) recordSize)) ∧
      (∀ records : List (Key × List UInt8), keyWidth ≤ recordSize →
        (∀ r ∈ records, keyWidth + r.2.length = recordSize) →
          ofFile path (.ok (.regular ⟨(fileBytes records).toArray⟩)) recordSize
            = ofKeys (records.map Prod.fst).toArray) ∧
      ∀ bytes other : ByteArray, other.size = bytes.size →
        (∀ p, p % recordSize < keyWidth → other[p]? = bytes[p]?) →
          ofFile path (.ok (.regular other)) recordSize
            = ofFile path (.ok (.regular bytes)) recordSize :=
  ⟨fun bytes => reading path bytes recordSize, fun _ hwidth h => ofFile_fileBytes hwidth h,
    fun _ _ hsize h => ofFile_congr hsize h⟩

/-- A file of two records of six bytes, which is read as its two keys. -/
theorem reading_of_ofFile_two_records : ∃ t,
    ofFile "trace" (.ok (.regular ⟨#[1, 2, 3, 4, 0xee, 0xee, 5, 0, 0, 0x80, 0, 9]⟩)) 6 = .ok t ∧
      Decoded ⟨#[1, 2, 3, 4, 0xee, 0xee, 5, 0, 0, 0x80, 0, 9]⟩ 6 t ∧
      t.keys = #[0x04030201, 0x80000005] := by
  have hkeys : (do return (← ofFile "trace"
      (.ok (.regular ⟨#[1, 2, 3, 4, 0xee, 0xee, 5, 0, 0, 0x80, 0, 9]⟩)) 6).keys :
        Outcome (Array Key))
        = .ok #[0x04030201, 0x80000005] := by decide +kernel
  obtain ⟨t, ht, hkeys⟩ := Checked.bind_eq_ok.mp hkeys
  have h := (reading_of_ofFile "trace" 6).1 ⟨#[1, 2, 3, 4, 0xee, 0xee, 5, 0, 0, 0x80, 0, 9]⟩
  rcases h.whole (by decide) (by decide) (by decide) with ⟨t', ht', hdecoded⟩ | ⟨herror, -⟩
  · obtain rfl := Except.ok.inj (ht.symm.trans ht')
    exact ⟨t, ht, hdecoded, Checked.pure_eq_ok.mp hkeys⟩
  · cases herror.symm.trans ht

end Trace

end HeavyHitters
