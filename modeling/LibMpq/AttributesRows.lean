import LibMpq.Attributes

set_option autoImplicit false

namespace LibMpq

open Effect Bits

namespace Attributes

open Wire

def bitAt (bits : Bytes) (i : Nat) : Bool :=
  bits.getD (i / 8) 0 &&& UInt8.ofNat (0x80 >>> (i % 8)) ≠ 0

theorem masks_meet {a b : Nat} (first : a < 8) (second : b < 8) :
    UInt8.ofNat (0x80 >>> a) &&& UInt8.ofNat (0x80 >>> b) = 0 ↔ a ≠ b := by
  have each : ∀ a b : Fin 8,
      UInt8.ofNat (0x80 >>> a.1) &&& UInt8.ofNat (0x80 >>> b.1) = 0 ↔ a.1 ≠ b.1 := by decide
  exact each ⟨a, first⟩ ⟨b, second⟩

theorem or_and_byte (a b mask : UInt8) : (a ||| b) &&& mask = (a &&& mask) ||| (b &&& mask) := by
  apply UInt8.toBitVec_inj.mp
  ext i
  simp [Bool.and_or_distrib_right]

theorem bitAt_zeros (size i : Nat) : bitAt (Bytes.zeros size) i = false := by
  have byte : (Bytes.zeros size).getD (i / 8) 0 = 0 := by
    rw [Bytes.zeros, List.getD_eq_getElem?_getD, List.getElem?_replicate]
    split <;> rfl
  rw [bitAt, byte, UInt8.zero_and]
  rfl

theorem bitAt_setPatchBit {bits : Bytes} {i : Nat} (inside : i / 8 < bits.length) (j : Nat) :
    bitAt (setPatchBit 0 i bits) j = (bitAt bits j || i == j) := by
  unfold bitAt setPatchBit
  rw [Nat.zero_add, List.getD_eq_getElem?_getD, List.getD_eq_getElem?_getD]
  by_cases byte : i / 8 = j / 8
  · rw [← byte, List.getElem?_modify_eq, List.getElem?_eq_getElem inside]
    have same : i = j ↔ i % 8 = j % 8 := by omega
    have meet := masks_meet (Nat.mod_lt i (by omega)) (Nat.mod_lt j (by omega))
    simp only [Option.map_eq_map, Option.map_some, Option.getD_some, or_and_byte, ne_eq,
      UInt8.or_eq_zero_iff]
    rw [Bool.eq_iff_iff, decide_eq_true_iff, Bool.or_eq_true, decide_eq_true_iff, beq_iff_eq, meet,
      same]
    tauto
  · have other : i ≠ j := by
      rintro rfl
      exact byte rfl
    rw [List.getElem?_modify_ne _ _ byte, beq_false_of_ne other, Bool.or_false]

theorem setPatchBit_length (offset i : Nat) (data : Bytes) :
    (setPatchBit offset i data).length = data.length := List.length_modify _ _ _

theorem setPatchBit_append {before : Bytes} {offset : Nat} (place : before.length = offset)
    (i : Nat) (bits : Bytes) :
    setPatchBit offset i (before ++ bits) = before ++ setPatchBit 0 i bits := by
  subst place
  unfold setPatchBit
  induction before with
  | nil => rfl
  | cons b rest ih =>
    rw [List.length_cons, Nat.add_right_comm, List.cons_append, List.modify_succ_cons, ih]
    rfl

def markRow (entries : Nat → FileAttributes) (self bitsOffset : Nat) (data : Bytes) (i : Nat) :
    Op Error Faults Bytes :=
  if (entries i).patchBit then do
    failIf (i = self ∨ data.length - bitsOffset ≤ i / 8) .format
    pure (setPatchBit bitsOffset i data)
  else pure data

theorem markRow_ok {entries : Nat → FileAttributes} {self offset i : Nat} {before bits data : Bytes}
    {plan plan' : Faults} (place : before.length = offset)
    (run : markRow entries self offset (before ++ bits) i plan = .ok data plan') :
    ∃ after, data = before ++ after ∧ after.length = bits.length ∧
      (∀ j, bitAt after j = (bitAt bits j || (i == j && (entries i).patchBit))) ∧
      ((entries i).patchBit = true → i ≠ self) := by
  unfold markRow at run
  cases patched : (entries i).patchBit with
  | false =>
    rw [patched, if_neg (by decide)] at run
    obtain ⟨rfl, _⟩ := pure_ok.mp run
    exact ⟨bits, rfl, rfl, by simp, by simp⟩
  | true =>
    rw [patched, if_pos rfl] at run
    obtain ⟨valid, run⟩ := failIf_bind_ok.mp run
    obtain ⟨rfl, _⟩ := pure_ok.mp run
    rw [List.length_append, place, Nat.add_sub_cancel_left, not_or, Nat.not_le] at valid
    refine ⟨_, setPatchBit_append place i bits, setPatchBit_length _ _ _, fun j => ?_, fun _ => valid.1⟩
    rw [bitAt_setPatchBit valid.2, Bool.and_true]

theorem marked {entries : Nat → FileAttributes} {self offset k : Nat} {before bits data : Bytes}
    {plan plan' : Faults} (place : before.length = offset)
    (run : (List.range k).foldlM (markRow entries self offset) (before ++ bits) plan =
      .ok data plan') :
    ∃ after, data = before ++ after ∧ after.length = bits.length ∧
      (∀ j, bitAt after j = (bitAt bits j || (decide (j < k) && (entries j).patchBit))) ∧
      ∀ j, j < k → (entries j).patchBit = true → j ≠ self := by
  induction k generalizing data plan' with
  | zero =>
    obtain ⟨rfl, _⟩ := pure_ok.mp run
    exact ⟨bits, rfl, rfl, by simp, by simp⟩
  | succ k ih =>
    rw [List.range_succ, List.foldlM_append] at run
    obtain ⟨middle, plan₁, rounds, last⟩ := bind_ok.mp run
    rw [List.foldlM_cons] at last
    obtain ⟨stored, plan₂, last, done⟩ := bind_ok.mp last
    obtain ⟨rfl, _⟩ := pure_ok.mp done
    obtain ⟨held, rfl, heldLength, heldBits, heldOther⟩ := ih rounds
    obtain ⟨after, rfl, length, bit, other⟩ := markRow_ok place last
    refine ⟨after, rfl, length.trans heldLength, fun j => ?_, fun j below patched => ?_⟩
    · rw [bit, heldBits, Bool.or_assoc]
      congr 1
      by_cases same : k = j
      · subst same
        simp
      · have low : j < k + 1 ↔ j < k := by omega
        simp [same, low]
    · obtain rfl | low := Nat.lt_succ_iff_lt_or_eq.mp below |>.symm
      · exact other patched
      · exact heldOther j low patched

structure Serialized (entries : Nat → FileAttributes) (count own : Nat) (flags : UInt32)
    (data bits : Bytes) : Prop where
  inside : own < count
  known : flags &&& ~~~attributesAll = 0
  bytes : data = rowsWith entries count own flags bits
  size : bits.length = bitsSize count flags
  patched : has flags attributePatchBit = true →
    ∀ i, i < count → bitAt bits i = (entries i).patchBit
  unset : bitAt bits own = false

theorem serialize_ok {entries : Nat → FileAttributes} {count self : Nat} {flags : UInt32}
    {data : Bytes} {plan plan' : Faults}
    (run : serialize entries count self flags plan = .ok data plan') :
    (∀ i, i < count → (entries i).patchBit = false) ∧
      Serialized entries count self flags data (Bytes.zeros (bitsSize count flags)) := by
  unfold serialize at run
  obtain ⟨valid, run⟩ := failIf_bind_ok.mp run
  obtain ⟨_, run⟩ := failIf_bind_ok.mp run
  obtain ⟨unpatched, run⟩ := failIf_bind_ok.mp run
  obtain ⟨_, _, _, run⟩ := bind_ok.mp run
  obtain ⟨rfl, _⟩ := pure_ok.mp run
  have clear : ∀ i, i < count → (entries i).patchBit = false := by
    intro i below
    rw [List.any_eq_true, not_exists] at unpatched
    simpa [below] using unpatched i
  rw [not_or, not_or, not_not] at valid
  refine ⟨clear, ?_⟩
  constructor
  case inside => omega
  case known => exact valid.2.2
  case bytes => rfl
  case size => exact Bytes.zeros_length _
  case patched => exact fun _ i below => (bitAt_zeros _ i).trans (clear i below).symm
  case unset => exact bitAt_zeros _ self

theorem serializePatchBits_ok {entries : Nat → FileAttributes} {count self : Nat} {flags : UInt32}
    {data : Bytes} {plan plan' : Faults}
    (run : serializePatchBits entries count self flags plan = .ok data plan') :
    ∃ bits, Serialized entries count self flags data bits := by
  unfold serializePatchBits at run
  obtain ⟨_, run⟩ := failIf_bind_ok.mp run
  obtain ⟨_, _, _, run⟩ := bind_ok.mp run
  obtain ⟨plain, plan₁, first, run⟩ := bind_ok.mp run
  obtain ⟨_, inside, known, rfl, size, _, own⟩ := serialize_ok first
  split at run
  next recorded =>
    have place : (le32.encode attributesVersion ++ le32.encode flags ++
        columns entries count self flags).length = 8 + columnsSize count flags := by
      rw [List.length_append, columns_length]
      rfl
    obtain ⟨after, rfl, length, bit, other⟩ := marked place run
    refine ⟨after, inside, known, rfl, length.trans size, fun _ i below => ?_, ?_⟩
    · rw [bit, bitAt_zeros, decide_eq_true below]
      simp
    · cases patched : (entries self).patchBit with
      | true => exact absurd rfl (other self inside patched)
      | false => rw [bit, bitAt_zeros, patched]; simp
  next absent =>
    obtain ⟨rfl, _⟩ := pure_ok.mp run
    exact ⟨_, inside, known, rfl, size, fun recorded => absurd recorded absent, own⟩

theorem written_patchBits {data : Bytes} {count self i : Nat} {flags : UInt32} (below : i < count)
    (recorded : has flags attributePatchBit = true) :
    i < (written data count self flags).patchBits ↔ i / 8 < (count + 6) / 8 := by
  simp only [written, arrayLayout, recorded, if_true]
  split <;> omega

section parsed

variable {entries : Nat → FileAttributes} {count self : Nat} {flags : UInt32} {data bits : Bytes}
  (arrays : Serialized entries count self flags data bits)
include arrays

theorem Serialized.parse_eq : parse data count self = .ok (written data count self flags) := by
  obtain ⟨inside, known, rfl, size, _, _⟩ := arrays
  exact parse_rowsWith inside known size

theorem Serialized.data_length :
    data.length = 8 + columnsSize count flags + bitsSize count flags := by
  rw [arrays.bytes, rowsWith_length, arrays.size]

variable {i : Nat} (below : i < count)
include below

theorem Serialized.crc32 (recorded : has flags attributeCrc32 = true) :
    (get (written data count self flags) i).crc32 = if i = self then 0 else (entries i).crc32 := by
  have kept : has (flags &&& ~~~attributePatchBit) attributeCrc32 = true := by
    rw [has_clear (by decide), recorded]
  unfold get
  rw [if_neg (show ¬ i ≥ (written data count self flags).entries from Nat.not_le.mpr below),
    arrays.bytes]
  exact (if_pos kept).trans (crc32_at below bits recorded)

theorem Serialized.filetime (recorded : has flags attributeFiletime = true) :
    (get (written data count self flags) i).filetime =
      if i = self then 0 else (entries i).filetime := by
  have kept : has (flags &&& ~~~attributePatchBit) attributeFiletime = true := by
    rw [has_clear (by decide), recorded]
  unfold get
  rw [if_neg (show ¬ i ≥ (written data count self flags).entries from Nat.not_le.mpr below),
    arrays.bytes]
  exact (if_pos kept).trans (filetime_at below bits recorded)

theorem Serialized.md5 (recorded : has flags attributeMd5 = true) :
    (get (written data count self flags) i).md5 = if i = self then .zero else (entries i).md5 := by
  have kept : has (flags &&& ~~~attributePatchBit) attributeMd5 = true := by
    rw [has_clear (by decide), recorded]
  unfold get
  rw [if_neg (show ¬ i ≥ (written data count self flags).entries from Nat.not_le.mpr below),
    arrays.bytes]
  exact (if_pos kept).trans (md5_at below bits recorded)

-- A row beyond the bits that were written has none, and its entry is not patched either.
theorem Serialized.patchBit (recorded : has flags attributePatchBit = true) :
    (get (written data count self flags) i).patchBit =
      if i = self then false else (entries i).patchBit := by
  have place : (le32.encode attributesVersion ++ le32.encode flags ++
      columns entries count self flags).length = 8 + columnsSize count flags := by
    rw [List.length_append, columns_length]
    rfl
  have byte : data.getD (8 + columnsSize count flags + i / 8) 0 = bits.getD (i / 8) 0 := by
    rw [arrays.bytes, rowsWith, List.getD_eq_getElem?_getD, ← place,
      List.getElem?_append_right (Nat.le_add_right _ _), Nat.add_sub_cancel_left,
      List.getD_eq_getElem?_getD]
  have value : (get (written data count self flags) i).patchBit =
      (decide (i < (written data count self flags).patchBits) && bitAt bits i) := by
    unfold get
    rw [if_neg (show ¬ i ≥ (written data count self flags).entries from Nat.not_le.mpr below)]
    simp only [show (written data count self flags).flags = flags from rfl, recorded, true_and,
      show (written data count self flags).bitsOffset = 8 + columnsSize count flags from rfl,
      show (written data count self flags).data = data from rfl, byte]
    rw [Bool.decide_and]
    rfl
  have stored : bitAt bits i = if i = self then false else (entries i).patchBit := by
    split
    next own => rw [own, arrays.unset]
    next other => exact arrays.patched recorded i below
  rw [value, stored]
  by_cases room : i < (written data count self flags).patchBits
  · rw [decide_eq_true room, Bool.true_and]
  · have beyond : bitAt bits i = false := by
      have short : bits.length ≤ i / 8 := by
        rw [arrays.size, bitsSize, if_pos recorded]
        exact Nat.not_lt.mp fun inside => room ((written_patchBits below recorded).mpr inside)
      rw [bitAt, List.getD_eq_getElem?_getD, List.getElem?_eq_none short]
      simp
    rw [← stored, beyond, Bool.and_false]

end parsed

/-- A row shows an entry: every recorded field of it, and no digest of zeros. -/
structure Reported (flags : UInt32) (entry row : FileAttributes) : Prop where
  crc32 : has flags attributeCrc32 = true →
    has row.flags attributeCrc32 = true ∧ row.crc32 = entry.crc32
  filetime : has flags attributeFiletime = true →
    has row.flags attributeFiletime = true ∧ row.filetime = entry.filetime
  md5 : has flags attributeMd5 = true →
    has row.flags attributeMd5 = !entry.md5.1.all (· = 0) ∧ row.md5 = entry.md5
  patchBit : has flags attributePatchBit = true → row.patchBit = entry.patchBit

theorem Serialized.reported {entries : Nat → FileAttributes} {count self : Nat} {flags : UInt32}
    {data bits : Bytes} (arrays : Serialized entries count self flags data bits) {i : Nat}
    (below : i < count) (other : i ≠ self) :
    Reported flags (entries i) (get (written data count self flags) i) := by
  obtain ⟨crc32, filetime, md5, _⟩ :=
    announced (show i < (written data count self flags).entries from below)
  constructor
  case crc32 =>
    intro recorded
    exact ⟨crc32.trans recorded, (arrays.crc32 below recorded).trans (if_neg other)⟩
  case filetime =>
    intro recorded
    exact ⟨filetime.trans recorded, (arrays.filetime below recorded).trans (if_neg other)⟩
  case md5 =>
    intro recorded
    have digest := (arrays.md5 below recorded).trans (if_neg other)
    rw [digest, show has (written data count self flags).flags attributeMd5 = true from recorded] at md5
    exact ⟨md5, digest⟩
  case patchBit =>
    intro recorded
    exact (arrays.patchBit below recorded).trans (if_neg other)

theorem Serialized.own_row {entries : Nat → FileAttributes} {count self : Nat} {flags : UInt32}
    {data bits : Bytes} (arrays : Serialized entries count self flags data bits) :
    (get (written data count self flags) self).crc32 = 0 ∧
      (get (written data count self flags) self).filetime = 0 ∧
      (get (written data count self flags) self).md5 = .zero ∧
      (get (written data count self flags) self).patchBit = false := by
  have inside := arrays.inside
  have unrecorded : ∀ {bit}, bit &&& attributePatchBit = 0 → ¬ has flags bit = true →
      ¬ has (flags &&& ~~~attributePatchBit) bit = true := by
    intro bit apart absent
    rwa [has_clear apart]
  have open_ : ¬ self ≥ (written data count self flags).entries := Nat.not_le.mpr inside
  refine ⟨?_, ?_, ?_, ?_⟩
  · by_cases recorded : has flags attributeCrc32 = true
    · exact (arrays.crc32 inside recorded).trans (if_pos rfl)
    · rw [get, if_neg open_]
      exact if_neg (unrecorded (by decide) recorded)
  · by_cases recorded : has flags attributeFiletime = true
    · exact (arrays.filetime inside recorded).trans (if_pos rfl)
    · rw [get, if_neg open_]
      exact if_neg (unrecorded (by decide) recorded)
  · by_cases recorded : has flags attributeMd5 = true
    · exact (arrays.md5 inside recorded).trans (if_pos rfl)
    · rw [get, if_neg open_]
      exact if_neg (unrecorded (by decide) recorded)
  · by_cases recorded : has flags attributePatchBit = true
    · exact (arrays.patchBit inside recorded).trans (if_pos rfl)
    · rw [get, if_neg open_]
      exact decide_eq_false fun bit => recorded bit.1.1

theorem Serialized.announced_patchBit {entries : Nat → FileAttributes} {count self : Nat}
    {flags : UInt32} {data bits : Bytes} (arrays : Serialized entries count self flags data bits)
    {i : Nat} (below : i < count) :
    has (get (written data count self flags) i).flags attributePatchBit =
      (has flags attributePatchBit && (i == self || decide (i / 8 < (count + 6) / 8))) := by
  have inside := arrays.inside
  obtain ⟨_, _, _, patchBit⟩ := announced (show i < (written data count self flags).entries from below)
  rw [patchBit, show (written data count self flags).flags = flags from rfl]
  cases recorded : has flags attributePatchBit with
  | false => rfl
  | true =>
    rw [Bool.true_and, Bool.true_and, Bool.eq_iff_iff]
    simp only [Bool.or_eq_true, Bool.and_eq_true, decide_eq_true_iff, beq_iff_eq,
      written_patchBits below recorded]
    simp only [written, arrayLayout, recorded, Bool.true_and, bne_iff_ne]
    constructor
    · rintro (inArray | ⟨own, _⟩)
      · exact .inr inArray
      · exact .inl own
    · rintro (own | inArray)
      · by_cases room : i / 8 < (count + 6) / 8
        · exact .inl room
        · exact .inr ⟨own, by omega⟩
      · exact .inl inArray

theorem serialized_rows {entries : Nat → FileAttributes} {count self : Nat} {flags : UInt32}
    {data : Bytes} {plan plan' : Faults}
    (run : serialize entries count self flags plan = .ok data plan' ∨
      serializePatchBits entries count self flags plan = .ok data plan') :
    ∃ view, parse data count self = .ok view ∧ view = written data count self flags ∧
      data.length = view.bitsOffset + bitsSize count flags ∧
      (∀ i, i < count → i ≠ self → Reported flags (entries i) (get view i)) ∧
      (∀ i, i < count → has (get view i).flags attributePatchBit =
        (has flags attributePatchBit && (i == self || decide (i / 8 < (count + 6) / 8)))) ∧
      (get view self).crc32 = 0 ∧ (get view self).filetime = 0 ∧ (get view self).md5 = .zero ∧
      (get view self).patchBit = false := by
  have found : ∃ bits, Serialized entries count self flags data bits := by
    cases run with
    | inl plain => exact ⟨_, (serialize_ok plain).2⟩
    | inr patched => exact serializePatchBits_ok patched
  obtain ⟨bits, arrays⟩ := found
  exact ⟨_, arrays.parse_eq, rfl, arrays.data_length, fun i => arrays.reported,
    fun i => arrays.announced_patchBit, arrays.own_row⟩

-- nine rows, one more than the bit array holds, and the bit of the second is set
theorem serialized_rows_nine :
    let entries := fun i => { FileAttributes.none with crc32 := UInt32.ofNat i, patchBit := i == 1 }
    let data := setPatchBit 44 1 (payload entries 9 0 9)
    ∃ view, parse data 9 0 = .ok view ∧ view = written data 9 0 9 ∧
      (get view 1).patchBit = true ∧ (get view 8).crc32 = 8 := by
  intro entries data
  obtain ⟨view, parsed, layout, _, rows, _⟩ :=
    serialized_rows (.inr (show serializePatchBits entries 9 0 9 Faults.healthy =
      .ok data Faults.healthy from rfl))
  exact ⟨view, parsed, layout, (rows 1 (by decide) (by decide)).patchBit (by decide),
    ((rows 8 (by decide) (by decide)).crc32 (by decide)).2⟩

-- the bits of nine rows but one fill a byte, and the ninth row has none
theorem ninth_row_unannounced : ¬ ∀ (entries : Nat → FileAttributes) (count self : Nat) (flags : UInt32) (data : Bytes)
    (plan plan' : Faults), serialize entries count self flags plan = .ok data plan' →
      ∃ view, parse data count self = .ok view ∧ ∀ i, i < count → i ≠ self →
        has flags attributePatchBit = true → has (get view i).flags attributePatchBit = true := by
  intro always
  let entries : Nat → FileAttributes := fun _ => .none
  obtain ⟨view, parsed, rows⟩ := always entries 9 0 8 (payload entries 9 0 8) Faults.healthy Faults.healthy rfl
  have other : (parse (payload entries 9 0 8) 9 0).toOption.all (fun view =>
      !has (get view 8).flags attributePatchBit) = true := by
    decide +kernel
  rw [parsed] at other
  have announced := rows 8 (by decide) (by decide) (by decide)
  simp [Except.toOption, announced] at other

end Attributes

end LibMpq
