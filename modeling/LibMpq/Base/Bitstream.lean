import LibMpq.Base.Bytes

set_option autoImplicit false

namespace Bitstream

def bitsOf : Nat → Nat → List Bool
  | 0, _ => []
  | n + 1, v => decide (v % 2 = 1) :: bitsOf n (v / 2)

def value : List Bool → Nat
  | [] => 0
  | b :: rest => b.toNat + 2 * value rest

def ofBytes (data : Bytes) : List Bool := data.flatMap fun b => bitsOf 8 b.toNat

@[simp] theorem bitsOf_length (n v : Nat) : (bitsOf n v).length = n := by
  induction n generalizing v with
  | zero => rfl
  | succ n ih => rw [bitsOf, List.length_cons, ih]

theorem bitsOf_add (m n v : Nat) : bitsOf (m + n) v = bitsOf m v ++ bitsOf n (v / 2 ^ m) := by
  induction m generalizing v with
  | zero => simp [bitsOf]
  | succ m ih =>
    rw [Nat.succ_add, bitsOf, bitsOf, ih, List.cons_append, Nat.div_div_eq_div_mul, pow_succ']

theorem take_bitsOf {m n : Nat} (le : m ≤ n) (v : Nat) : (bitsOf n v).take m = bitsOf m v := by
  rw [← Nat.add_sub_cancel' le, bitsOf_add, List.take_left' (bitsOf_length m v)]

theorem drop_bitsOf {m n : Nat} (le : m ≤ n) (v : Nat) :
    (bitsOf n v).drop m = bitsOf (n - m) (v / 2 ^ m) := by
  conv_lhs => rw [← Nat.add_sub_cancel' le, bitsOf_add, List.drop_left' (bitsOf_length m v)]

@[simp] theorem value_nil : value [] = 0 := rfl

theorem value_lt (bits : List Bool) : value bits < 2 ^ bits.length := by
  induction bits with
  | nil => exact Nat.one_pos
  | cons b rest ih =>
    rw [value, List.length_cons, pow_succ]
    have := b.toNat_lt
    omega

theorem value_bitsOf (n v : Nat) : value (bitsOf n v) = v % 2 ^ n := by
  induction n generalizing v with
  | zero => simp [bitsOf, Nat.mod_one]
  | succ n ih =>
    rw [bitsOf, value, ih, pow_succ', Nat.mod_mul]
    rcases Nat.mod_two_eq_zero_or_one v with even | odd
    · simp [even]
    · simp [odd]

theorem bitsOf_value (bits : List Bool) : bitsOf bits.length (value bits) = bits := by
  induction bits with
  | nil => rfl
  | cons b rest ih =>
    have half : (b.toNat + 2 * value rest) / 2 = value rest := by
      have := b.toNat_lt
      omega
    have low : decide ((b.toNat + 2 * value rest) % 2 = 1) = b := by
      cases b <;> simp
    rw [List.length_cons, value, bitsOf, half, ih, low]

theorem bitsOf_value_of_length {bits : List Bool} {n : Nat} (length : bits.length = n) :
    bitsOf n (value bits) = bits := by
  rw [← length, bitsOf_value]

theorem bitsOf_mod (n v : Nat) : bitsOf n (v % 2 ^ n) = bitsOf n v := by
  rw [← value_bitsOf, bitsOf_value_of_length (bitsOf_length n v)]

theorem value_append (first second : List Bool) :
    value (first ++ second) = value first + 2 ^ first.length * value second := by
  induction first with
  | nil => simp
  | cons b rest ih =>
    rw [List.cons_append, value, value, ih, List.length_cons, pow_succ']
    ring

theorem value_take (bits : List Bool) {n : Nat} (le : n ≤ bits.length) :
    value (bits.take n) = value bits % 2 ^ n := by
  rw [← value_bitsOf, ← take_bitsOf le, bitsOf_value]

theorem value_drop (bits : List Bool) {n : Nat} (le : n ≤ bits.length) :
    value (bits.drop n) = value bits / 2 ^ n := by
  have split := value_append (bits.take n) (bits.drop n)
  rw [List.take_append_drop, List.length_take_of_le le] at split
  have low := value_lt (bits.take n)
  rw [List.length_take_of_le le] at low
  rw [split, Nat.add_mul_div_left _ _ (Nat.two_pow_pos n), Nat.div_eq_of_lt low, Nat.zero_add]

theorem take_eq_bitsOf_iff {bits : List Bool} {n v : Nat} (le : n ≤ bits.length) (small : v < 2 ^ n) :
    bits.take n = bitsOf n v ↔ value bits % 2 ^ n = v := by
  constructor
  case mp =>
    intro same
    rw [← value_take bits le, same, value_bitsOf, Nat.mod_eq_of_lt small]
  case mpr =>
    intro same
    rw [← same, ← value_take bits le, bitsOf_value_of_length (List.length_take_of_le le)]

theorem bitsOf_append_drop {bits : List Bool} {n v : Nat} (le : n ≤ bits.length) (small : v < 2 ^ n)
    (same : value bits % 2 ^ n = v) : bits = bitsOf n v ++ bits.drop n := by
  rw [← (take_eq_bitsOf_iff le small).mpr same, List.take_append_drop]

theorem value_bitsOf_append {n v : Nat} (small : v < 2 ^ n) (rest : List Bool) :
    value (bitsOf n v ++ rest) = v + 2 ^ n * value rest := by
  rw [value_append, value_bitsOf, bitsOf_length, Nat.mod_eq_of_lt small]

theorem value_bitsOf_append_mod {n v : Nat} (small : v < 2 ^ n) (rest : List Bool) :
    value (bitsOf n v ++ rest) % 2 ^ n = v := by
  rw [value_bitsOf_append small, Nat.add_mul_mod_self_left, Nat.mod_eq_of_lt small]

@[simp] theorem ofBytes_nil : ofBytes [] = [] := rfl

theorem ofBytes_cons (b : UInt8) (rest : Bytes) : ofBytes (b :: rest) = bitsOf 8 b.toNat ++ ofBytes rest := rfl

theorem ofBytes_append (first second : Bytes) : ofBytes (first ++ second) = ofBytes first ++ ofBytes second :=
  List.flatMap_append

@[simp] theorem ofBytes_length (data : Bytes) : (ofBytes data).length = 8 * data.length := by
  induction data with
  | nil => rfl
  | cons b rest ih =>
    rw [ofBytes_cons, List.length_append, bitsOf_length, ih, List.length_cons]
    omega

theorem ofBytes_take (count : Nat) (data : Bytes) : ofBytes (data.take count) = (ofBytes data).take (8 * count) := by
  induction count generalizing data with
  | zero => simp
  | succ count ih =>
    cases data with
    | nil => simp
    | cons b rest =>
      have whole : (bitsOf 8 b.toNat).take (8 + 8 * count) = bitsOf 8 b.toNat :=
        List.take_of_length_le (by simp)
      rw [List.take_succ_cons, ofBytes_cons, ofBytes_cons, ih, Nat.mul_succ, Nat.add_comm (8 * count), List.take_append,
        whole, bitsOf_length, Nat.add_sub_cancel_left]

def setBit (i : Nat) (data : Bytes) : Bytes := data.modify (i / 8) (· ||| UInt8.ofNat (1 <<< (i % 8)))

theorem bitsOf_getElem? (n v i : Nat) : (bitsOf n v)[i]? = if i < n then some (v.testBit i) else none := by
  induction n generalizing v i with
  | zero => simp [bitsOf]
  | succ n ih =>
    cases i with
    | zero => simp [bitsOf, Nat.testBit_zero]
    | succ i => simp [bitsOf, ih, Nat.testBit_succ]

theorem bitsOf_setBit {k : Nat} (below : k < 8) (b : UInt8) :
    bitsOf 8 (b ||| UInt8.ofNat (1 <<< k)).toNat = (bitsOf 8 b.toNat).set k true := by
  have small : 2 ^ k < 2 ^ 8 := Nat.pow_lt_pow_right (by decide) below
  apply List.ext_getElem?
  intro i
  rw [UInt8.toNat_or, UInt8.toNat_ofNat', Nat.one_shiftLeft, Nat.mod_eq_of_lt small, List.getElem?_set,
    bitsOf_getElem?, bitsOf_getElem?, bitsOf_length, Nat.testBit_or, Nat.testBit_two_pow]
  by_cases here : k = i
  next => simp [here]
  next => simp [here]

theorem ofBytes_setBit (i : Nat) (data : Bytes) : ofBytes (setBit i data) = (ofBytes data).set i true := by
  induction data generalizing i with
  | nil => simp [setBit]
  | cons b rest ih =>
    by_cases here : i < 8
    · have first : setBit i (b :: rest) = (b ||| UInt8.ofNat (1 <<< (i % 8))) :: rest := by
        rw [setBit, Nat.div_eq_of_lt here]
        rfl
      rw [first, ofBytes_cons, ofBytes_cons, Nat.mod_eq_of_lt here, bitsOf_setBit here,
        List.set_append_left _ _ (by rwa [bitsOf_length])]
    · have later : setBit i (b :: rest) = b :: setBit (i - 8) rest := by
        obtain ⟨j, rfl⟩ : ∃ j, i = j + 8 := ⟨i - 8, by omega⟩
        rw [setBit, setBit, Nat.add_sub_cancel, Nat.add_div_right _ (by decide), Nat.add_mod_right]
        rfl
      rw [later, ofBytes_cons, ofBytes_cons, ih, List.set_append_right _ _ (by rw [bitsOf_length]; omega),
        bitsOf_length]

theorem ofBytes_zeros (count : Nat) : ofBytes (Bytes.zeros count) = List.replicate (8 * count) false := by
  induction count with
  | zero => rfl
  | succ count ih =>
    have step : Bytes.zeros (count + 1) = 0 :: Bytes.zeros count := rfl
    rw [step, ofBytes_cons, ih, Nat.mul_succ, Nat.add_comm, List.replicate_add]
    rfl

/-- A lookup table that tells from the next `width` bits which code they begin with. -/
structure Resolves (width : Nat) (domain : Nat → Prop) (table len code : Nat → Nat) (symbol : Nat → Prop) :
    Prop where
  short : ∀ v, symbol v → len v ≤ width ∧ code v < 2 ^ len v
  sound : ∀ x < 2 ^ width, domain x → symbol (table x) ∧ x % 2 ^ len (table x) = code (table x)
  complete : ∀ v, symbol v → ∀ x < 2 ^ width, x % 2 ^ len v = code v → table x = v

section resolves

variable {width : Nat} {domain : Nat → Prop} {table len code : Nat → Nat} {symbol : Nat → Prop}
  (resolves : Resolves width domain table len code symbol)
include resolves

theorem Resolves.split {bits : List Bool} (long : width ≤ bits.length)
    (inside : domain (value bits % 2 ^ width)) :
    symbol (table (value bits % 2 ^ width)) ∧
      bits = bitsOf (len (table (value bits % 2 ^ width))) (code (table (value bits % 2 ^ width))) ++
        bits.drop (len (table (value bits % 2 ^ width))) := by
  obtain ⟨known, starts⟩ := resolves.sound _ (Nat.mod_lt _ (Nat.two_pow_pos width)) inside
  obtain ⟨le, small⟩ := resolves.short _ known
  refine ⟨known, bitsOf_append_drop (le.trans long) small ?_⟩
  rwa [Nat.mod_mod_of_dvd _ (pow_dvd_pow 2 le)] at starts

theorem Resolves.found {v : Nat} (known : symbol v) (rest : List Bool) :
    table (value (bitsOf (len v) (code v) ++ rest) % 2 ^ width) = v := by
  obtain ⟨le, small⟩ := resolves.short v known
  refine resolves.complete v known _ (Nat.mod_lt _ (Nat.two_pow_pos width)) ?_
  rw [Nat.mod_mod_of_dvd _ (pow_dvd_pow 2 le), value_bitsOf_append_mod small]

end resolves

end Bitstream
