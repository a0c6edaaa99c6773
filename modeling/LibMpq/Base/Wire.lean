import LibMpq.Base.Bytes

set_option autoImplicit false

-- A wire format gives every value the same number of bytes, and reads a value back from a
-- buffer that starts with those bytes. Records are pairs of formats; a table is its entries
-- one after the other.

structure Wire (α : Type) where
  width : Nat
  encode : α → Bytes
  decode : Bytes → α
  encode_length : ∀ a, (encode a).length = width
  decode_encode : ∀ a rest, decode (encode a ++ rest) = a

namespace Wire

variable {α β : Type}

attribute [simp] encode_length decode_encode

def le16 : Wire UInt16 where
  width := 2
  encode a := Bytes.ofNat 2 a.toNat
  decode b := UInt16.ofNat (Bytes.toNat (b.take 2))
  encode_length a := Bytes.ofNat_length 2 _
  decode_encode a rest := by
    rw [List.take_left' (Bytes.ofNat_length 2 _), Bytes.toNat_ofNat_of_lt a.toNat_lt]
    simp

def le32 : Wire UInt32 where
  width := 4
  encode a := Bytes.ofNat 4 a.toNat
  decode b := UInt32.ofNat (Bytes.toNat (b.take 4))
  encode_length a := Bytes.ofNat_length 4 _
  decode_encode a rest := by
    rw [List.take_left' (Bytes.ofNat_length 4 _), Bytes.toNat_ofNat_of_lt a.toNat_lt]
    simp

def be32 : Wire UInt32 where
  width := 4
  encode a := (Bytes.ofNat 4 a.toNat).reverse
  decode b := UInt32.ofNat (Bytes.toNat (b.take 4).reverse)
  encode_length a := by rw [List.length_reverse, Bytes.ofNat_length]
  decode_encode a rest := by
    have length : (Bytes.ofNat 4 a.toNat).reverse.length = 4 := by
      rw [List.length_reverse, Bytes.ofNat_length]
    rw [List.take_left' length, List.reverse_reverse, Bytes.toNat_ofNat_of_lt a.toNat_lt]
    simp

def le64 : Wire UInt64 where
  width := 8
  encode a := Bytes.ofNat 8 a.toNat
  decode b := UInt64.ofNat (Bytes.toNat (b.take 8))
  encode_length a := Bytes.ofNat_length 8 _
  decode_encode a rest := by
    rw [List.take_left' (Bytes.ofNat_length 8 _), Bytes.toNat_ofNat_of_lt a.toNat_lt]
    simp

def pair (a : Wire α) (b : Wire β) : Wire (α × β) where
  width := a.width + b.width
  encode v := a.encode v.1 ++ b.encode v.2
  decode bytes := (a.decode bytes, b.decode (bytes.drop a.width))
  encode_length v := by simp
  decode_encode v rest := by
    have skip : (a.encode v.1 ++ (b.encode v.2 ++ rest)).drop a.width = b.encode v.2 ++ rest :=
      List.drop_left' (a.encode_length v.1)
    simp [List.append_assoc, skip]

def map (a : Wire α) (build : α → β) (parts : β → α) (inverse : ∀ v, build (parts v) = v) :
    Wire β where
  width := a.width
  encode v := a.encode (parts v)
  decode bytes := build (a.decode bytes)
  encode_length v := a.encode_length _
  decode_encode v rest := by rw [a.decode_encode, inverse]

def encodeTable (a : Wire α) (entry : Nat → α) (count : Nat) : Bytes :=
  (List.range count).flatMap fun i => a.encode (entry i)

def decodeTable (a : Wire α) (bytes : Bytes) (i : Nat) : α := a.decode (bytes.drop (i * a.width))

@[simp] theorem encodeTable_length (a : Wire α) (entry : Nat → α) (count : Nat) :
    (a.encodeTable entry count).length = count * a.width := by
  induction count with
  | zero => simp [encodeTable]
  | succ count ih =>
    rw [encodeTable] at ih ⊢
    rw [List.range_succ, List.flatMap_append, List.length_append, ih]
    simp [Nat.add_mul]

theorem encodeTable_succ (a : Wire α) (entry : Nat → α) (count : Nat) :
    a.encodeTable entry (count + 1) = a.encodeTable entry count ++ a.encode (entry count) := by
  simp [encodeTable, List.range_succ]

theorem encodeTable_congr (a : Wire α) {first second : Nat → α} {count : Nat}
    (same : ∀ i, i < count → first i = second i) :
    a.encodeTable first count = a.encodeTable second count := by
  induction count with
  | zero => rfl
  | succ count ih =>
    rw [encodeTable_succ, encodeTable_succ, ih fun i below => same i (by omega),
      same count (by omega)]

theorem decodeTable_encodeTable (a : Wire α) (entry : Nat → α) {count i : Nat} (below : i < count)
    (rest : Bytes) : a.decodeTable (a.encodeTable entry count ++ rest) i = entry i := by
  induction count generalizing rest with
  | zero => omega
  | succ count ih =>
    rw [encodeTable_succ, List.append_assoc]
    by_cases last : i = count
    · subst last
      rw [decodeTable, List.drop_left' (a.encodeTable_length entry i), a.decode_encode]
    · exact ih (by omega) _

end Wire
