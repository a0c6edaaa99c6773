import LibMpq.Base.Wire
import LibMpq.Checksum

set_option autoImplicit false

namespace LibMpq

open Effect Bits

abbrev attributeCrc32 : UInt32 := 0x01
abbrev attributeFiletime : UInt32 := 0x02
abbrev attributeMd5 : UInt32 := 0x04
abbrev attributePatchBit : UInt32 := 0x08
abbrev attributesAll : UInt32 := 0x0F
abbrev attributesVersion : UInt32 := 100

structure FileAttributes where
  flags : UInt32
  crc32 : UInt32
  filetime : UInt64
  md5 : Digest
  patchBit : Bool

def FileAttributes.none : FileAttributes where
  flags := 0
  crc32 := 0
  filetime := 0
  md5 := .zero
  patchBit := false

namespace Attributes

open Wire

def digestWire : Wire Digest where
  width := 16
  encode d := d.1
  decode b := ⟨(b ++ Bytes.zeros 16).take 16, by simp⟩
  encode_length d := d.2
  decode_encode d rest := by
    apply Subtype.ext
    simp only [List.append_assoc]
    exact List.take_left' d.2

def column {α : Type} (wire : Wire α) (zero : α) (value : FileAttributes → α)
    (entries : Nat → FileAttributes) (count self : Nat) : Bytes :=
  wire.encodeTable (fun i => if i = self then zero else value (entries i)) count

def columns (entries : Nat → FileAttributes) (count self : Nat) (flags : UInt32) : Bytes :=
  (if has flags attributeCrc32 then column le32 0 (·.crc32) entries count self else []) ++
  (if has flags attributeFiletime then column le64 0 (·.filetime) entries count self else []) ++
  (if has flags attributeMd5 then column digestWire .zero (·.md5) entries count self else [])

def columnsSize (count : Nat) (flags : UInt32) : Nat :=
  (if has flags attributeCrc32 then count * 4 else 0) +
  (if has flags attributeFiletime then count * 8 else 0) +
  (if has flags attributeMd5 then count * 16 else 0)

def payload (entries : Nat → FileAttributes) (count self : Nat) (flags : UInt32) : Bytes :=
  le32.encode attributesVersion ++ le32.encode flags ++ columns entries count self flags ++
    Bytes.zeros (if has flags attributePatchBit then (count + 6) / 8 else 0)

-- `libmpq__attributes_serialize`
def serialize (entries : Nat → FileAttributes) (count self : Nat) (flags : UInt32) :
    Op Error Faults Bytes := do
  failIf (count = 0 ∨ count ≤ self ∨ flags &&& ~~~attributesAll ≠ 0) .format
  let length := 8 + columnsSize count flags +
    (if has flags attributePatchBit then (count + 6) / 8 else 0)
  failIf (length > 2 ^ 32 - 1) .size
  failIf ((List.range count).any fun i => (entries i).patchBit) .format
  request .malloc
  pure (payload entries count self flags)

/-- Set the bit of every patched row in the payload's trailing bit array. -/
def setPatchBit (bitsOffset i : Nat) (data : Bytes) : Bytes :=
  data.modify (bitsOffset + i / 8) fun b => b ||| UInt8.ofNat (0x80 >>> (i % 8))

-- `libmpq__attributes_serialize_patch_bits`, the private patch writer's form
def serializePatchBits (entries : Nat → FileAttributes) (count self : Nat) (flags : UInt32) :
    Op Error Faults Bytes := do
  failIf (count = 0) .size
  request .malloc
  let data ← serialize (fun i => { entries i with patchBit := false }) count self flags
  if has flags attributePatchBit then
    let bitsOffset := 8 + columnsSize count flags
    let mark := fun (data : Bytes) (i : Nat) =>
      if (entries i).patchBit then do
        failIf (i = self ∨ data.length - bitsOffset ≤ i / 8) .format
        pure (setPatchBit bitsOffset i data)
      else pure data
    (List.range count).foldlM mark data
  else pure data

structure View where
  data : Bytes
  flags : UInt32
  entries : Nat
  self : Nat
  patchBits : Nat
  patchSelfOmitted : Bool
  crcOffset : Nat
  filetimeOffset : Nat
  md5Offset : Nat
  bitsOffset : Nat

def arrayLayout (count : Nat) (view : View) : View :=
  let crc := if has view.flags attributeCrc32 then count * 4 else 0
  let filetime := if has view.flags attributeFiletime then count * 8 else 0
  { view with
    crcOffset := 8
    filetimeOffset := 8 + crc
    md5Offset := 8 + crc + filetime
    bitsOffset := 8 + columnsSize count view.flags }

-- A failed attempt leaves its offsets behind in the candidate for the next one.
def matchLayout (count entries : Nat) (legacy : Bool) (view : View) : Bool × View :=
  let view := arrayLayout entries view
  let base := view.bitsOffset
  let size := view.data.length
  let bits := (entries + 7) / 8
  let shortBits := (count + 6) / 8
  if base > size then (false, view)
  else
    let view := { view with entries }
    if has view.flags attributePatchBit = false then (base = size, view)
    else if base + bits = size then (true, { view with patchBits := entries })
    else if base + shortBits = size then
      (true, { view with patchBits := shortBits * 8, patchSelfOmitted := true })
    else if legacy = false then (false, view)
    else if base = size then (true, view)
    else if base + count * 4 ≠ size then (false, view)
    else ((view.data.drop base).all (· = 0), view)

-- `libmpq__attributes_parse`
def parse (data : Bytes) (count self : Nat) : Except Error View :=
  if data.length < 8 ∨ count = 0 ∨ count ≤ self ∨ le32.decode data ≠ attributesVersion then
    .error .format
  else
    let flags := le32.decode (data.drop 4)
    if flags &&& ~~~attributesAll ≠ 0 then .error .format
    else
      let start : View :=
        { data, flags, entries := 0, self, patchBits := 0, patchSelfOmitted := false
          crcOffset := 0, filetimeOffset := 0, md5Offset := 0, bitsOffset := 0 }
      let full := matchLayout count count false start
      if full.1 then .ok full.2
      else
        let short := matchLayout count (count - 1) false full.2
        if short.1 then .ok short.2
        else
          let legacy := matchLayout count count true short.2
          if legacy.1 then .ok legacy.2 else .error .format

-- `libmpq__attributes_get`
def get (view : View) (index : Nat) : FileAttributes :=
  if index ≥ view.entries then .none
  else
    let flags := view.flags &&& ~~~attributePatchBit
    let md5 :=
      if has flags attributeMd5 then
        digestWire.decode (view.data.drop (view.md5Offset + index * 16)) else .zero
    let inBits := has view.flags attributePatchBit ∧ index < view.patchBits
    let omitted := has view.flags attributePatchBit ∧ index = view.self ∧ view.patchSelfOmitted
    { flags :=
        (if has flags attributeMd5 && md5.1.all (· = 0) then flags &&& ~~~attributeMd5 else flags) |||
          (if inBits ∨ omitted then attributePatchBit else 0)
      crc32 :=
        if has flags attributeCrc32 then
          le32.decode (view.data.drop (view.crcOffset + index * 4)) else 0
      filetime :=
        if has flags attributeFiletime then
          le64.decode (view.data.drop (view.filetimeOffset + index * 8)) else 0
      md5
      patchBit :=
        inBits ∧ view.data.getD (view.bitsOffset + index / 8) 0 &&&
          UInt8.ofNat (0x80 >>> (index % 8)) ≠ 0 }

theorem columns_length (entries : Nat → FileAttributes) (count self : Nat) (flags : UInt32) :
    (columns entries count self flags).length = columnsSize count flags := by
  have width : ∀ (c : Bool) (b : Bytes) (n : Nat), b.length = n →
      (if c = true then b else []).length = if c = true then n else 0 := by
    intro c b n length
    split
    · exact length
    · rfl
  simp only [columns, columnsSize, List.length_append, column]
  rw [width _ _ _ (Wire.encodeTable_length _ _ _), width _ _ _ (Wire.encodeTable_length _ _ _),
    width _ _ _ (Wire.encodeTable_length _ _ _)]
  rfl

def rowsWith (entries : Nat → FileAttributes) (count self : Nat) (flags : UInt32) (bits : Bytes) :
    Bytes :=
  le32.encode attributesVersion ++ le32.encode flags ++ columns entries count self flags ++ bits

def bitsSize (count : Nat) (flags : UInt32) : Nat :=
  if has flags attributePatchBit then (count + 6) / 8 else 0

theorem rowsWith_length (entries : Nat → FileAttributes) (count self : Nat) (flags : UInt32)
    (bits : Bytes) :
    (rowsWith entries count self flags bits).length = 8 + columnsSize count flags + bits.length := by
  have word : ∀ value, (le32.encode value).length = 4 := fun value => le32.encode_length value
  simp only [rowsWith, List.length_append, columns_length, word]

theorem payload_length (entries : Nat → FileAttributes) (count self : Nat) (flags : UInt32) :
    (payload entries count self flags).length =
      8 + columnsSize count flags + (if has flags attributePatchBit then (count + 6) / 8 else 0) := by
  rw [← Bytes.zeros_length (if has flags attributePatchBit then (count + 6) / 8 else 0)]
  exact rowsWith_length _ _ _ _ _

/-- The view of a written payload. The bit array may have no place for the last row. -/
def written (data : Bytes) (count self : Nat) (flags : UInt32) : View :=
  arrayLayout count
    { data, flags, entries := count, self
      patchBits :=
        if has flags attributePatchBit then
          if (count + 7) / 8 = (count + 6) / 8 then count else (count + 6) / 8 * 8
        else 0
      patchSelfOmitted := has flags attributePatchBit && (count + 7) / 8 != (count + 6) / 8
      crcOffset := 0, filetimeOffset := 0, md5Offset := 0, bitsOffset := 0 }

-- The full layout with the short bit array is tried before every other one of that size.
theorem parse_rowsWith {entries : Nat → FileAttributes} {count self : Nat} {flags : UInt32}
    {bits : Bytes} (inside : self < count) (known : flags &&& ~~~attributesAll = 0)
    (size : bits.length = bitsSize count flags) :
    parse (rowsWith entries count self flags bits) count self =
      .ok (written (rowsWith entries count self flags bits) count self flags) := by
  have length := rowsWith_length entries count self flags bits
  have version : le32.decode (rowsWith entries count self flags bits) = attributesVersion := by
    simp only [rowsWith, List.append_assoc, decode_encode]
  have mask : le32.decode ((rowsWith entries count self flags bits).drop 4) = flags := by
    have skip : (4 : Nat) = (le32.encode attributesVersion).length := rfl
    rw [skip]
    simp only [rowsWith, List.append_assoc, List.drop_left, decode_encode]
  have valid : ¬ ((rowsWith entries count self flags bits).length < 8 ∨ count = 0 ∨ count ≤ self ∨
      le32.decode (rowsWith entries count self flags bits) ≠ attributesVersion) := by
    rw [version]
    simp only [ne_eq, not_true, or_false]
    omega
  unfold parse
  rw [if_neg valid, mask]
  simp only
  rw [if_neg (not_not.mpr known)]
  generalize rowsWith entries count self flags bits = data at length ⊢
  rw [size, bitsSize] at length
  have full : matchLayout count count false
      { data, flags, entries := 0, self, patchBits := 0, patchSelfOmitted := false
        crcOffset := 0, filetimeOffset := 0, md5Offset := 0, bitsOffset := 0 } =
      (true, written data count self flags) := by
    unfold matchLayout written arrayLayout
    simp only
    rw [if_neg (by omega)]
    cases patched : has flags attributePatchBit with
    | false =>
      rw [patched] at length
      simp only [Bool.false_eq_true, if_false] at length
      rw [if_pos rfl, length]
      simp
    | true =>
      rw [patched] at length
      simp only [if_true] at length
      rw [if_neg (by decide)]
      by_cases same : (count + 7) / 8 = (count + 6) / 8
      · rw [if_pos (by omega)]
        simp [same]
      · rw [if_neg (by omega), if_pos length.symm]
        simp [same]
  rw [full]
  rfl

structure Shows (entries : Nat → FileAttributes) (count own : Nat) (flags : UInt32) (view : View) :
    Prop where
  bytes : view.data = payload entries count own flags
  mask : view.flags = flags
  rows : view.entries = count
  crcOffset : view.crcOffset = 8
  md5Offset : view.md5Offset = 8 + (if has flags attributeCrc32 then count * 4 else 0) +
    (if has flags attributeFiletime then count * 8 else 0)

theorem parse_payload {entries : Nat → FileAttributes} {count self : Nat} {flags : UInt32}
    (inside : self < count) (known : flags &&& ~~~attributesAll = 0) :
    ∃ view, parse (payload entries count self flags) count self = .ok view ∧
      Shows entries count self flags view :=
  ⟨_, parse_rowsWith inside known (Bytes.zeros_length _), rfl, rfl, rfl, rfl, rfl⟩

theorem column_decode {α : Type} (wire : Wire α) (zero : α) (value : FileAttributes → α)
    (entries : Nat → FileAttributes) {count i : Nat} (self : Nat) (below : i < count)
    {before : Bytes} {start : Nat} (place : before.length = start) (rest : Bytes) :
    wire.decode ((before ++ (column wire zero value entries count self ++ rest)).drop
      (start + i * wire.width)) = if i = self then zero else value (entries i) := by
  rw [← List.drop_drop, List.drop_left' place]
  exact wire.decodeTable_encodeTable (fun i => if i = self then zero else value (entries i)) below rest

section columns

variable {entries : Nat → FileAttributes} {count self : Nat} {flags : UInt32} {i : Nat}
  (below : i < count) (bits : Bytes)
include below

theorem crc32_at (recorded : has flags attributeCrc32 = true) :
    le32.decode ((rowsWith entries count self flags bits).drop (8 + i * 4)) =
      if i = self then 0 else (entries i).crc32 := by
  have value := column_decode le32 0 (·.crc32) entries self below
    (show (le32.encode attributesVersion ++ le32.encode flags).length = 8 from rfl)
  rw [rowsWith, columns, if_pos recorded]
  simp only [List.append_assoc] at value ⊢
  exact value _

theorem filetime_at (recorded : has flags attributeFiletime = true) :
    le64.decode ((rowsWith entries count self flags bits).drop
      (8 + (if has flags attributeCrc32 then count * 4 else 0) + i * 8)) =
      if i = self then 0 else (entries i).filetime := by
  have place : (le32.encode attributesVersion ++ le32.encode flags ++
      (if has flags attributeCrc32 then column le32 0 (·.crc32) entries count self else [])).length =
      8 + (if has flags attributeCrc32 then count * 4 else 0) := by
    have word : ∀ value, (le32.encode value).length = 4 := fun value => le32.encode_length value
    simp only [List.length_append, word]
    congr 1
    split
    · exact encodeTable_length _ _ _
    · rfl
  have value := column_decode le64 0 (·.filetime) entries self below place
  rw [rowsWith, columns, if_pos recorded]
  simp only [List.append_assoc] at value ⊢
  exact value _

theorem md5_at (recorded : has flags attributeMd5 = true) :
    digestWire.decode ((rowsWith entries count self flags bits).drop
      (8 + (if has flags attributeCrc32 then count * 4 else 0) +
        (if has flags attributeFiletime then count * 8 else 0) + i * 16)) =
      if i = self then .zero else (entries i).md5 := by
  have place : (le32.encode attributesVersion ++ le32.encode flags ++
      (if has flags attributeCrc32 then column le32 0 (·.crc32) entries count self else []) ++
      (if has flags attributeFiletime then column le64 0 (·.filetime) entries count self else [])).length =
      8 + (if has flags attributeCrc32 then count * 4 else 0) +
        (if has flags attributeFiletime then count * 8 else 0) := by
    have word : ∀ value, (le32.encode value).length = 4 := fun value => le32.encode_length value
    simp only [List.length_append, word]
    congr 1
    · congr 1
      split
      · exact encodeTable_length _ _ _
      · rfl
    · split
      · exact encodeTable_length _ _ _
      · rfl
  have value := column_decode digestWire .zero (·.md5) entries self below place
  rw [rowsWith, columns, if_pos recorded]
  simp only [List.append_assoc] at value ⊢
  exact value _

end columns

theorem announced {view : View} {i : Nat} (within : i < view.entries) :
    has (get view i).flags attributeCrc32 = has view.flags attributeCrc32 ∧
      has (get view i).flags attributeFiletime = has view.flags attributeFiletime ∧
      has (get view i).flags attributeMd5 =
        (has view.flags attributeMd5 && !(get view i).md5.1.all (· = 0)) ∧
      has (get view i).flags attributePatchBit =
        (has view.flags attributePatchBit &&
          (decide (i < view.patchBits) || decide (i = view.self) && view.patchSelfOmitted)) := by
  have kept : ∀ {bit}, bit &&& attributePatchBit = 0 →
      has (view.flags &&& ~~~attributePatchBit) bit = has view.flags bit := has_clear
  unfold get
  rw [if_neg (by omega)]
  simp only [or_has]
  generalize (if has (view.flags &&& ~~~attributePatchBit) attributeMd5 = true then
    digestWire.decode (view.data.drop (view.md5Offset + i * 16)) else Digest.zero) = digest
  have bits : ∀ c : Prop, [Decidable c] →
      has (if c then attributePatchBit else 0) attributeCrc32 = false ∧
      has (if c then attributePatchBit else 0) attributeFiletime = false ∧
      has (if c then attributePatchBit else 0) attributeMd5 = false ∧
      has (if c then attributePatchBit else 0) attributePatchBit = decide c := by
    intro c _
    by_cases h : c <;> simp only [h, if_true, if_false, decide_true, decide_false] <;> decide
  obtain ⟨crc, filetime, md5, patch⟩ := bits
    (has view.flags attributePatchBit = true ∧ i < view.patchBits ∨
      has view.flags attributePatchBit = true ∧ i = view.self ∧ view.patchSelfOmitted = true)
  rw [crc, filetime, md5, patch, Bool.or_false, Bool.or_false, Bool.or_false, kept (by decide)]
  have last : ∀ flags' : UInt32, has flags' attributePatchBit = false →
      (has flags' attributePatchBit ||
        decide (has view.flags attributePatchBit = true ∧ i < view.patchBits ∨
          has view.flags attributePatchBit = true ∧ i = view.self ∧ view.patchSelfOmitted = true)) =
      (has view.flags attributePatchBit &&
        (decide (i < view.patchBits) || decide (i = view.self) && view.patchSelfOmitted)) := by
    intro flags' absent
    rw [absent, Bool.false_or, Bool.eq_iff_iff]
    simp only [decide_eq_true_iff, Bool.and_eq_true, Bool.or_eq_true]
    tauto
  split
  next absent =>
    rw [Bool.and_eq_true] at absent
    refine ⟨?_, ?_, ?_, last _ ?_⟩
    · rw [has_clear (by decide), kept (by decide)]
    · rw [has_clear (by decide), kept (by decide)]
    · rw [has_clear_self, absent.1, absent.2]
      rfl
    · rw [has_clear (by decide), has_clear_self]
  next present =>
    refine ⟨kept (by decide), kept (by decide), ?_, last _ (has_clear_self _ _)⟩
    rw [kept (by decide)]
    cases recorded : has view.flags attributeMd5 with
    | false => rfl
    | true =>
      rw [recorded, Bool.true_and] at present
      rw [Bool.true_and, Bool.eq_false_iff.mpr present]
      rfl

section rows

variable {entries : Nat → FileAttributes} {count self : Nat} {flags : UInt32} {view : View}
  (shows : Shows entries count self flags view) {i : Nat} (below : i < count)
include shows below

theorem get_crc32 (recorded : has flags attributeCrc32 = true) :
    (get view i).crc32 = if i = self then 0 else (entries i).crc32 := by
  have kept : has (flags &&& ~~~attributePatchBit) attributeCrc32 = true := by
    rw [has_clear (by decide), recorded]
  unfold get
  rw [if_neg (by rw [shows.rows]; omega)]
  simp only [shows.mask, shows.crcOffset, shows.bytes]
  rw [if_pos kept]
  exact crc32_at below _ recorded

theorem get_md5 (recorded : has flags attributeMd5 = true) :
    (get view i).md5 = if i = self then .zero else (entries i).md5 := by
  have kept : has (flags &&& ~~~attributePatchBit) attributeMd5 = true := by
    rw [has_clear (by decide), recorded]
  unfold get
  rw [if_neg (by rw [shows.rows]; omega)]
  simp only [shows.mask, shows.md5Offset, shows.bytes]
  rw [if_pos kept]
  exact md5_at below _ recorded

theorem get_flags :
    has (get view i).flags attributeCrc32 = has flags attributeCrc32 ∧
      has (get view i).flags attributeMd5 = (has flags attributeMd5 && !(get view i).md5.1.all (· = 0)) := by
  obtain ⟨crc, _, md5, _⟩ := announced (show i < view.entries by rw [shows.rows]; omega)
  rw [shows.mask] at crc md5
  exact ⟨crc, md5⟩

end rows

end Attributes

end LibMpq
