import LibMpq.Base.Wire
import LibMpq.CompressionRoundTrip

set_option autoImplicit false

namespace LibMpq

namespace Sparse

structure Outcome where
  status : Int32
  stored : Bytes
  deriving DecidableEq

-- The leading zeros, counted up to a limit.
def zeroRun : Nat → Bytes → Nat
  | limit + 1, b :: rest => if b = 0 then zeroRun limit rest + 1 else 0
  | _, _ => 0

def startsRun : Bytes → Bool
  | a :: b :: c :: _ => a = 0 ∧ b = 0 ∧ c = 0
  | _ => false

-- One byte is always taken; the next zero run or the limit ends the literals.
def literalRun : Nat → Bytes → Nat
  | limit + 1, _ :: rest => if startsRun rest then 1 else literalRun limit rest + 1
  | _, _ => 0

def compressLoop (outSize : Nat) : Nat → Bytes → Bytes → Outcome
  | 0, _, out => ⟨Error.unpack.code, out⟩
  | fuel + 1, rest, out =>
    if rest = [] then ⟨Int32.ofNat out.length, out⟩
    else
      let count := zeroRun 130 rest
      if count ≥ 3 then
        if out.length = outSize then ⟨Error.unpack.code, out⟩
        else compressLoop outSize fuel (rest.drop count) (out ++ [UInt8.ofNat (count - 3)])
      else
        let count := literalRun 128 rest
        if out.length = outSize ∨ count > outSize - out.length - 1 then ⟨Error.unpack.code, out⟩
        else
          compressLoop outSize fuel (rest.drop count)
            (out ++ (0x80 ||| UInt8.ofNat (count - 1)) :: rest.take count)

-- `libmpq__sparse_compress`; every token takes a byte off the input.
def compress (input : Bytes) (outSize : Nat) : Outcome :=
  if input = [] ∨ input.length > int32Max ∨ outSize < 4 then ⟨Error.unpack.code, []⟩
  else
    compressLoop (min outSize int32Max) (input.length + 1) input
      (Wire.be32.encode (UInt32.ofNat input.length))

def tokenCount (token : UInt8) : Nat :=
  (token &&& 0x7F).toNat + (if token &&& 0x80 ≠ 0 then 1 else 3)

def decompressLoop (length : Nat) : Nat → Bytes → Bytes → Outcome
  | fuel + 1, token :: rest, out =>
    if out.length < length then
      let count := min (tokenCount token) (length - out.length)
      if token &&& 0x80 ≠ 0 then
        if count > rest.length then ⟨Error.unpack.code, out⟩
        else decompressLoop length fuel (rest.drop count) (out ++ rest.take count)
      else decompressLoop length fuel rest (out ++ Bytes.zeros count)
    else ⟨Error.unpack.code, out⟩
  | _, rest, out =>
    if rest ≠ [] ∨ out.length ≠ length then ⟨Error.unpack.code, out⟩
    else ⟨Int32.ofNat out.length, out⟩

-- `libmpq__sparse_decompress`
def decompress (input : Bytes) (outSize : Nat) : Outcome :=
  if input.length < 5 then ⟨Error.unpack.code, []⟩
  else
    let length := (Wire.be32.decode input).toNat
    if length = 0 ∨ length > outSize ∨ length > int32Max then ⟨Error.unpack.code, []⟩
    else decompressLoop length input.length (input.drop 4) []

def tokens : Nat → Bytes → Bytes
  | 0, _ => []
  | fuel + 1, rest =>
    if rest = [] then []
    else
      let zeros := zeroRun 130 rest
      let literals := literalRun 128 rest
      if zeros ≥ 3 then UInt8.ofNat (zeros - 3) :: tokens fuel (rest.drop zeros)
      else
        (0x80 ||| UInt8.ofNat (literals - 1)) :: rest.take literals ++ tokens fuel (rest.drop literals)

def stream (input : Bytes) : Bytes :=
  Wire.be32.encode (UInt32.ofNat input.length) ++ tokens (input.length + 1) input

theorem zeroRun_le (limit : Nat) (rest : Bytes) :
    zeroRun limit rest ≤ limit ∧ zeroRun limit rest ≤ rest.length := by
  induction limit generalizing rest with
  | zero =>
    rw [show zeroRun 0 rest = 0 from by cases rest <;> rfl]
    exact ⟨le_rfl, Nat.zero_le _⟩
  | succ limit ih =>
    cases rest with
    | nil => exact ⟨Nat.zero_le _, le_rfl⟩
    | cons b rest =>
      rw [zeroRun]
      split
      next =>
        obtain ⟨first, second⟩ := ih rest
        rw [List.length_cons]
        omega
      next => exact ⟨Nat.zero_le _, Nat.zero_le _⟩

theorem take_zeroRun (limit : Nat) (rest : Bytes) :
    rest.take (zeroRun limit rest) = Bytes.zeros (zeroRun limit rest) := by
  induction limit generalizing rest with
  | zero =>
    rw [show zeroRun 0 rest = 0 from by cases rest <;> rfl]
    rfl
  | succ limit ih =>
    cases rest with
    | nil => rfl
    | cons b rest =>
      rw [zeroRun]
      split
      next zero =>
        rw [List.take_succ_cons, ih rest, zero]
        rfl
      next => rfl

theorem literalRun_le (limit : Nat) (rest : Bytes) :
    literalRun limit rest ≤ limit ∧ literalRun limit rest ≤ rest.length := by
  induction limit generalizing rest with
  | zero =>
    rw [show literalRun 0 rest = 0 from by cases rest <;> rfl]
    exact ⟨le_rfl, Nat.zero_le _⟩
  | succ limit ih =>
    cases rest with
    | nil => exact ⟨Nat.zero_le _, le_rfl⟩
    | cons b rest =>
      obtain ⟨first, second⟩ := ih rest
      rw [literalRun, List.length_cons]
      split <;> omega

theorem literalRun_pos {limit : Nat} (positive : 0 < limit) {rest : Bytes} (some : rest ≠ []) :
    0 < literalRun limit rest := by
  obtain ⟨fuel, rfl⟩ := Nat.exists_eq_add_of_lt positive
  cases rest with
  | nil => exact absurd rfl some
  | cons b rest =>
    rw [Nat.zero_add, literalRun]
    split <;> omega

theorem literal_token {n : Nat} (small : n < 128) :
    (0x80 ||| UInt8.ofNat n) &&& 0x80 ≠ 0 ∧ ((0x80 ||| UInt8.ofNat n) &&& 0x7F).toNat = n := by
  have every : ∀ n : Fin 128, (0x80 ||| UInt8.ofNat n) &&& 0x80 ≠ 0 ∧
      ((0x80 ||| UInt8.ofNat n) &&& 0x7F).toNat = n := by decide
  exact every ⟨n, small⟩

theorem zero_token {n : Nat} (small : n < 128) :
    ¬ UInt8.ofNat n &&& 0x80 ≠ 0 ∧ (UInt8.ofNat n &&& 0x7F).toNat = n := by
  have every : ∀ n : Fin 128, ¬ UInt8.ofNat n &&& 0x80 ≠ 0 ∧ (UInt8.ofNat n &&& 0x7F).toNat = n := by decide
  exact every ⟨n, small⟩

theorem unpack_neg : Error.unpack.code < 0 := Error.code_neg _

theorem compressLoop_eq {outSize fuel : Nat} {rest out : Bytes} (enough : rest.length < fuel)
    (inside : out.length ≤ outSize) :
    (out.length + (tokens fuel rest).length ≤ outSize →
        compressLoop outSize fuel rest out =
          ⟨Int32.ofNat (out ++ tokens fuel rest).length, out ++ tokens fuel rest⟩) ∧
      (outSize < out.length + (tokens fuel rest).length →
        (compressLoop outSize fuel rest out).status = Error.unpack.code ∧
          (compressLoop outSize fuel rest out).stored.length ≤ outSize) := by
  induction fuel generalizing rest out with
  | zero => omega
  | succ fuel ih =>
    rw [compressLoop, tokens]
    by_cases none : rest = []
    · rw [if_pos none, if_pos none, List.append_nil, List.length_nil]
      exact ⟨fun _ => rfl, fun large => by omega⟩
    · rw [if_neg none, if_neg none]
      simp only
      have some := List.length_pos_iff.mpr none
      split
      next zeros =>
        obtain ⟨-, short⟩ := zeroRun_le 130 rest
        rw [List.length_cons]
        by_cases full : out.length = outSize
        · rw [if_pos full]
          exact ⟨fun fits => by omega, fun _ => ⟨rfl, inside⟩⟩
        · rw [if_neg full]
          have step := @ih (rest.drop (zeroRun 130 rest)) (out ++ [UInt8.ofNat (zeroRun 130 rest - 3)])
            (by rw [List.length_drop]; omega) (by rw [List.length_append, List.length_singleton]; omega)
          rw [List.append_assoc, List.singleton_append, List.length_append, List.length_singleton] at step
          exact ⟨fun fits => step.1 (by omega), fun large => step.2 (by omega)⟩
      next =>
        obtain ⟨-, short⟩ := literalRun_le 128 rest
        have positive := literalRun_pos (show 0 < 128 by decide) none
        have taken : (rest.take (literalRun 128 rest)).length = literalRun 128 rest := by
          rw [List.length_take, Nat.min_eq_left short]
        rw [List.cons_append, List.length_cons, List.length_append, taken]
        by_cases full : out.length = outSize ∨ literalRun 128 rest > outSize - out.length - 1
        · rw [if_pos full]
          exact ⟨fun fits => by omega, fun _ => ⟨rfl, inside⟩⟩
        · rw [if_neg full]
          have step := @ih (rest.drop (literalRun 128 rest))
            (out ++ (0x80 ||| UInt8.ofNat (literalRun 128 rest - 1)) :: rest.take (literalRun 128 rest))
            (by rw [List.length_drop]; omega)
            (by rw [List.length_append, List.length_cons, taken]; omega)
          rw [List.append_assoc, List.cons_append, List.length_append, List.length_cons, taken] at step
          exact ⟨fun fits => step.1 (by omega), fun large => step.2 (by omega)⟩

theorem stream_length (x : Bytes) : (stream x).length = 4 + (tokens (x.length + 1) x).length := by
  rw [stream, List.length_append, Wire.encode_length]
  rfl

section encoder

variable {x : Bytes} {capacity : Nat} (some_ : x ≠ []) (small : x.length ≤ int32Max)
include some_ small

theorem compress_loop (room : 4 ≤ capacity) :
    compress x capacity = compressLoop (min capacity int32Max) (x.length + 1) x
      (Wire.be32.encode (UInt32.ofNat x.length)) := by
  rw [compress, if_neg]
  rintro (none | large | short)
  · exact some_ none
  · exact absurd large (Nat.not_lt.mpr small)
  · omega

theorem compress_fits (room : (stream x).length ≤ min capacity int32Max) :
    compress x capacity = ⟨Int32.ofNat (stream x).length, stream x⟩ := by
  have length := stream_length x
  rw [compress_loop some_ small (by omega)]
  refine (compressLoop_eq (show x.length < x.length + 1 by omega) ?_).1 ?_
  · rw [Wire.encode_length]
    change 4 ≤ _
    omega
  · rw [Wire.encode_length]
    change 4 + _ ≤ _
    omega

theorem compress_refused (full : capacity < 4 ∨ min capacity int32Max < (stream x).length) :
    (compress x capacity).status = Error.unpack.code ∧ (compress x capacity).stored.length ≤ capacity := by
  by_cases room : capacity < 4
  · rw [compress, if_pos (.inr (.inr room))]
    exact ⟨rfl, Nat.zero_le _⟩
  · have full := full.resolve_left room
    have length := stream_length x
    rw [compress_loop some_ small (by omega)]
    have header : (Wire.be32.encode (UInt32.ofNat x.length)).length = 4 := Wire.encode_length _ _
    obtain ⟨status, stored⟩ := (@compressLoop_eq (min capacity int32Max) (x.length + 1) x
      (Wire.be32.encode (UInt32.ofNat x.length)) (by omega)
      (by rw [header]; simp only [int32Max]; omega)).2 (by rw [header]; omega)
    exact ⟨status, stored.trans (Nat.min_le_left _ _)⟩

end encoder

theorem decompressLoop_tokens {length fuel fuel' : Nat} {rest out : Bytes} (enough : rest.length < fuel)
    (enough' : (tokens fuel rest).length < fuel') (whole : out.length + rest.length = length) :
    decompressLoop length fuel' (tokens fuel rest) out = ⟨Int32.ofNat length, out ++ rest⟩ := by
  induction fuel generalizing rest out fuel' with
  | zero => omega
  | succ fuel ih =>
    obtain ⟨fuel', rfl⟩ : ∃ n, fuel' = n + 1 := ⟨fuel' - 1, by omega⟩
    rw [tokens] at enough' ⊢
    by_cases none : rest = []
    · subst none
      rw [if_pos rfl]
      rw [List.length_nil, Nat.add_zero] at whole
      have last : ¬ (([] : Bytes) ≠ [] ∨ out.length ≠ length) := by simp [whole]
      change (if ([] : Bytes) ≠ [] ∨ out.length ≠ length then (⟨Error.unpack.code, out⟩ : Outcome)
        else ⟨Int32.ofNat out.length, out⟩) = _
      rw [if_neg last, whole, List.append_nil]
    · rw [if_neg none] at enough' ⊢
      have some := List.length_pos_iff.mpr none
      simp only at enough' ⊢
      split at enough'
      next zeros =>
        obtain ⟨limit, short⟩ := zeroRun_le 130 rest
        obtain ⟨flag, count⟩ := @zero_token (zeroRun 130 rest - 3) (by omega)
        have exact_ : min (tokenCount (UInt8.ofNat (zeroRun 130 rest - 3))) (length - out.length) =
            zeroRun 130 rest := by
          rw [tokenCount, count, if_neg flag]
          omega
        rw [List.length_cons] at enough'
        rw [if_pos zeros, decompressLoop, if_pos (by omega)]
        simp only
        rw [if_neg flag, exact_, @ih fuel' (rest.drop (zeroRun 130 rest)) (out ++ Bytes.zeros (zeroRun 130 rest))
          (by rw [List.length_drop]; omega) (by omega)
          (by rw [List.length_append, Bytes.zeros_length, List.length_drop]; omega),
          ← take_zeroRun, List.append_assoc, List.take_append_drop]
      next few =>
        obtain ⟨limit, short⟩ := literalRun_le 128 rest
        have positive := literalRun_pos (show 0 < 128 by decide) none
        obtain ⟨flag, count⟩ := @literal_token (literalRun 128 rest - 1) (by omega)
        have taken : (rest.take (literalRun 128 rest)).length = literalRun 128 rest := by
          rw [List.length_take, Nat.min_eq_left short]
        have exact_ : min (tokenCount (0x80 ||| UInt8.ofNat (literalRun 128 rest - 1))) (length - out.length) =
            literalRun 128 rest := by
          rw [tokenCount, count, if_pos flag]
          omega
        rw [List.cons_append, List.length_cons, List.length_append, taken] at enough'
        rw [if_neg few, List.cons_append, decompressLoop, if_pos (by omega)]
        simp only
        rw [if_pos flag, exact_, if_neg (by rw [List.length_append, taken]; omega),
          List.drop_left' taken, List.take_left' taken,
          @ih fuel' (rest.drop (literalRun 128 rest)) (out ++ rest.take (literalRun 128 rest))
            (by rw [List.length_drop]; omega) (by omega)
            (by rw [List.length_append, taken, List.length_drop]; omega),
          List.append_assoc, List.take_append_drop]

theorem decompress_stream {x : Bytes} (some_ : x ≠ []) (small : x.length ≤ int32Max) {outSize : Nat}
    (room : x.length ≤ outSize) : decompress (stream x) outSize = ⟨Int32.ofNat x.length, x⟩ := by
  have positive := List.length_pos_iff.mpr some_
  have length := stream_length x
  have tokened : 0 < (tokens (x.length + 1) x).length := by
    rw [tokens, if_neg some_]
    simp only
    split <;> simp
  have size : (Wire.be32.decode (stream x)).toNat = x.length := by
    rw [stream, Wire.decode_encode]
    exact UInt32.toNat_ofNat_of_lt' (by simp only [int32Max] at small; simp only [UInt32.size]; omega)
  have valid : ¬ (x.length = 0 ∨ x.length > outSize ∨ x.length > int32Max) := by omega
  have body : (stream x).drop 4 = tokens (x.length + 1) x :=
    List.drop_left' (Wire.encode_length Wire.be32 _)
  rw [decompress, if_neg (by omega), size]
  simp only
  rw [if_neg valid, body, decompressLoop_tokens (by omega) (by omega) (Nat.zero_add _)]
  rfl

structure Lawful (x : Bytes) (capacity : Nat) : Prop where
  within : (compress x capacity).stored.length ≤ capacity
  refuses : (compress x capacity).status < 0 →
    capacity < 4 ∨ min capacity int32Max < (stream x).length
  recovers : 0 ≤ (compress x capacity).status →
    (compress x capacity).status.toNatClampNeg = (compress x capacity).stored.length ∧
      ∀ outSize, x.length ≤ outSize →
        decompress (compress x capacity).stored outSize = ⟨Int32.ofNat x.length, x⟩

theorem ofNat_nonneg {n : Nat} (small : n ≤ int32Max) : 0 ≤ Int32.ofNat n := by
  rw [Int32.le_iff_toInt_le, Int32.toInt_ofNat_of_lt (by simp only [int32Max] at small; omega)]
  exact Int.natCast_nonneg n

theorem sparse_lawful (x : Bytes) (some_ : x ≠ []) (small : x.length ≤ int32Max) (capacity : Nat) :
    Lawful x capacity := by
  by_cases full : capacity < 4 ∨ min capacity int32Max < (stream x).length
  · obtain ⟨status, within⟩ := compress_refused some_ small full
    refine ⟨within, fun _ => full, fun ok => ?_⟩
    rw [status] at ok
    exact absurd ok (by decide)
  · have room : (stream x).length ≤ min capacity int32Max := by omega
    have run := compress_fits some_ small room
    have short : (stream x).length ≤ int32Max := room.trans (Nat.min_le_right _ _)
    constructor
    case within =>
      rw [run]
      exact room.trans (Nat.min_le_left _ _)
    case refuses =>
      intro refused
      rw [run] at refused
      exact absurd refused (Int32.not_lt.mpr (ofNat_nonneg short))
    case recovers =>
      intro
      rw [run]
      refine ⟨Int32.toNatClampNeg_ofNat_of_lt (by simp only [int32Max] at short; omega), fun outSize fits => ?_⟩
      exact decompress_stream some_ small fits

theorem sparse_lawful_five_zeros : Lawful [0, 0, 0, 0, 0] 5 :=
  sparse_lawful [0, 0, 0, 0, 0] (by decide) (by decide) 5

theorem literalRun_ones (limit n : Nat) : literalRun limit (List.replicate n 1) = min limit n := by
  induction limit generalizing n with
  | zero => cases n <;> rfl
  | succ limit ih =>
    cases n with
    | zero => rfl
    | succ n =>
      have none : startsRun (List.replicate n 1) = false := by
        match n with
        | 0 | 1 | 2 | n + 3 => rfl
      rw [List.replicate_succ, literalRun, none, ih]
      simp only [Bool.false_eq_true, if_false]
      omega

theorem tokens_ones {n fuel : Nat} (enough : n < fuel) :
    (tokens fuel (List.replicate n 1)).length = n + (n + 127) / 128 := by
  induction fuel generalizing n with
  | zero => omega
  | succ fuel ih =>
    cases n with
    | zero => rfl
    | succ n =>
      rw [tokens, if_neg (by simp)]
      have few : ¬ zeroRun 130 (List.replicate (n + 1) 1) ≥ 3 := by
        rw [List.replicate_succ, zeroRun, if_neg (by decide)]
        decide
      simp only
      rw [if_neg few, literalRun_ones, List.drop_replicate, List.cons_append, List.length_cons,
        List.length_append, ih (by omega), List.length_take, List.length_replicate]
      omega

theorem sparse_refuses_large_stream :
    let x : Bytes := List.replicate (2 ^ 31 - 1) 1
    x ≠ [] ∧ x.length ≤ int32Max ∧ (compress x (2 ^ 32 - 1)).status < 0 ∧ 4 ≤ 2 ^ 32 - 1 ∧
      (stream x).length ≤ 2 ^ 32 - 1 := by
  intro x
  have length : x.length = 2 ^ 31 - 1 := List.length_replicate
  have some_ : x ≠ [] := by
    rw [← List.length_pos_iff, length]
    decide
  have small : x.length ≤ int32Max := length.le
  have size : (stream x).length = 4 + (2 ^ 31 - 1 + (2 ^ 31 - 1 + 127) / 128) := by
    rw [stream_length, length, tokens_ones (Nat.lt_succ_self _)]
  refine ⟨some_, small, ?_, by decide, by rw [size]; decide⟩
  rw [(compress_refused some_ small (.inr (by rw [size]; decide))).1]
  decide

-- The chain has already refused an input of fewer than seven bytes or more than 2 GiB.
def codec : Codec where
  encode data limit :=
    if (compress data limit).status < 0 then .error .unpack else .ok (compress data limit).stored
  decode packed capacity :=
    if fits : (decompress packed capacity).stored.length ≤ capacity then
      ⟨(decompress packed capacity).status, (decompress packed capacity).stored, fits⟩
    else ⟨Error.unpack.code, [], Nat.zero_le _⟩

theorem codec_encode {data packed : Bytes} {limit : Nat} (encoded : codec.encode data limit = .ok packed) :
    data ≠ [] ∧ data.length ≤ int32Max ∧ packed = stream data := by
  simp only [codec] at encoded
  split at encoded
  · cases encoded
  next accepted =>
    cases encoded
    by_cases refused : data = [] ∨ data.length > int32Max ∨ limit < 4
    · rw [compress, if_pos refused] at accepted
      exact absurd unpack_neg accepted
    · simp only [not_or, Nat.not_lt] at refused
      obtain ⟨some_, small, -⟩ := refused
      refine ⟨some_, small, ?_⟩
      by_cases full : limit < 4 ∨ min limit int32Max < (stream data).length
      · rw [(compress_refused some_ small full).1] at accepted
        exact absurd unpack_neg accepted
      · rw [compress_fits some_ small (by omega)]

theorem codec_lossless : codec.Lossless where
  decode_encode encoded _ room := by
    obtain ⟨some_, small, rfl⟩ := codec_encode encoded
    have run := decompress_stream some_ small room
    simp only [codec, run, dif_pos room, and_self]
  encode_ne_nil encoded := by
    obtain ⟨-, -, rfl⟩ := codec_encode encoded
    rw [← List.length_pos_iff, stream_length]
    omega

end Sparse

end LibMpq
