import LibMpq.Base.Segments
import LibMpq.Content
import LibMpq.Writer

set_option autoImplicit false

namespace LibMpq

open Effect Bits

structure Recovers (codecs : Codecs) (method version : UInt32) (packed data : Bytes) : Prop where
  length_le : packed.length ≤ data.length
  ne_nil : data ≠ [] → packed ≠ []
  decodes : data.length < 2 ^ 31 → ∀ (out : Bytes) (outSize : UInt32), outSize.toNat = data.length →
    let result := Compression.decompressBlock codecs true packed out outSize method version
    result.status = Int32.ofNat data.length ∧ result.out.take data.length = data

-- What comes back is stored, whatever the buffer held.
theorem Recovers.determined {codecs : Codecs} {method version : UInt32} {packed data : Bytes}
    (recovers : Recovers codecs method version packed data) (small : data.length < 2 ^ 31) {outSize : UInt32}
    (size : outSize.toNat = data.length) :
    Compression.Determined fun granted out =>
      Compression.decompressBlock codecs granted packed out outSize method version := by
  intro granted out out' ok
  dsimp only at ok ⊢
  obtain ⟨status, bytes⟩ := recovers.decodes small out outSize size
  obtain ⟨status', bytes'⟩ := recovers.decodes small out' outSize size
  rw [Compression.decompressBlock_granted ok] at status bytes
  have count : (Int32.ofNat data.length).toNatClampNeg = data.length :=
    Int32.toNatClampNeg_ofNat_of_lt small
  refine ⟨status'.trans status.symm, ?_, ?_⟩
  · have length := congrArg List.length bytes
    rw [List.length_take] at length
    rw [status, count]
    omega
  · rw [status, count, bytes, bytes']

abbrev storageFlags : UInt32 :=
  Flag.implode ||| Flag.compress ||| Flag.encrypted ||| Flag.single ||| Flag.sectorCrc

structure StoredMember (codecs : Codecs) where
  version : UInt32
  flags : UInt32
  key : UInt32
  sectorSize : Nat
  content : Bytes
  count : Nat
  packed : Nat → Bytes
  sums : Bytes
  known : flags &&& ~~~storageFlags = 0
  positive : 0 < count
  covers : content.length ≤ count * sectorSize
  tight : content ≠ [] → (count - 1) * sectorSize < content.length
  single : has flags Flag.single = true → count = 1
  empty : content = [] → count = 1
  recovers : ∀ i, i < count →
    Recovers codecs (Reading.blockMethod flags) version (packed i) (Bytes.piece sectorSize content i)
  checked : has flags Flag.sectorCrc = true → Writing.sectorTable flags = true ∧
    Recovers codecs Flag.compressMulti version sums
      (Wire.le32.encodeTable (fun i => Checksum.adler32 0 (packed i)) count)
  unchecked : has flags Flag.sectorCrc = false → sums = []

namespace StoredMember

variable {codecs : Codecs} (m : StoredMember codecs)

def entries : Nat := m.count + 1 + (if has m.flags Flag.sectorCrc then 1 else 0)

def tableSize : Nat := if Writing.sectorTable m.flags then m.entries * 4 else 0

def encrypt (data : Bytes) (key : UInt32) : Bytes :=
  if has m.flags Flag.encrypted then Crypto.encryptBlock data key else data

def stored (i : Nat) : Bytes := m.encrypt (m.packed i) (m.key + UInt32.ofNat i)

def offset (i : Nat) : Nat :=
  m.tableSize + (if i ≤ m.count then Segments.start m.stored i
    else Segments.start m.stored m.count + m.sums.length)

def table : Bytes :=
  if Writing.sectorTable m.flags then
    m.encrypt (Wire.le32.encodeTable (fun i => UInt32.ofNat (m.offset i)) m.entries) (m.key - 1)
  else []

def image : Bytes := m.table ++ Segments.join m.stored m.count ++ m.sums

@[simp] theorem encrypt_length (data : Bytes) (key : UInt32) :
    (m.encrypt data key).length = data.length := by
  unfold encrypt
  split <;> simp

@[simp] theorem stored_length (i : Nat) : (m.stored i).length = (m.packed i).length := by
  simp [stored]

@[simp] theorem table_length : m.table.length = m.tableSize := by
  unfold table tableSize
  split
  · simp [Wire.le32]
  · rfl

theorem image_length :
    m.image.length = m.tableSize + Segments.start m.stored m.count + m.sums.length := by
  simp [image, Segments.start, Nat.add_assoc]

theorem image_ne_nil (some : m.content ≠ []) : m.image ≠ [] := by
  have least := m.positive
  have sector : 0 < m.sectorSize := by
    by_contra zero
    have covers := m.covers
    rw [Nat.eq_zero_of_not_pos zero, Nat.mul_zero] at covers
    exact some (List.length_eq_zero_iff.mp (Nat.le_zero.mp covers))
  have first : Bytes.piece m.sectorSize m.content 0 ≠ [] := by
    have more := List.length_pos_iff.mpr some
    rw [← List.length_pos_iff, Bytes.piece_length]
    omega
  have packed := List.length_pos_iff.mpr ((m.recovers 0 least).ne_nil first)
  have mono := Segments.start_mono m.stored (show 1 ≤ m.count from least)
  rw [Segments.start_succ, stored_length] at mono
  rw [← List.length_pos_iff, image_length]
  omega

theorem offset_of_le {i : Nat} (le : i ≤ m.count) :
    m.offset i = m.tableSize + Segments.start m.stored i := by
  rw [offset, if_pos le]

theorem offset_last : m.offset (m.count + 1) = m.image.length := by
  rw [offset, if_neg (by omega), image_length, Nat.add_assoc]

theorem offset_succ {i : Nat} (below : i < m.count) :
    m.offset (i + 1) = m.offset i + (m.packed i).length := by
  rw [m.offset_of_le below, m.offset_of_le below.le, Segments.start_succ, stored_length,
    Nat.add_assoc]

theorem offset_le {i : Nat} (le : i ≤ m.count) : m.offset i ≤ m.image.length := by
  have mono := Segments.start_mono m.stored le
  rw [m.offset_of_le le, image_length]
  omega

end StoredMember

end LibMpq
