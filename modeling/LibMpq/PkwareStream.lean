import LibMpq.PkwareTables

set_option autoImplicit false

namespace LibMpq

open Bitstream

namespace Pkware

theorem lengthEntry_range {v : Nat} (below : v < 518) :
    lengthEntry v < 16 ∧ lenBase.getD (lengthEntry v) 0 ≤ v ∧
      v - lenBase.getD (lengthEntry v) 0 < 2 ^ clenBits.getD (lengthEntry v) 0 := by
  have all : ∀ v < 518, lengthEntry v < 16 ∧ lenBase.getD (lengthEntry v) 0 ≤ v ∧
      v - lenBase.getD (lengthEntry v) 0 < 2 ^ clenBits.getD (lengthEntry v) 0 := by decide +kernel
  exact all v below

theorem lengthEntry_base {entry x : Nat} (known : entry < 16) (small : x < 2 ^ clenBits.getD entry 0) :
    lengthEntry (lenBase.getD entry 0 + x) = entry ∧ lenBase.getD entry 0 + x < 518 := by
  have all : ∀ entry < 16, ∀ x < 2 ^ clenBits.getD entry 0,
      lengthEntry (lenBase.getD entry 0 + x) = entry ∧ lenBase.getD entry 0 + x < 518 := by decide +kernel
  exact all entry known x small

theorem lenBase_plain {entry : Nat} (known : entry < 16) (plain : clenBits.getD entry 0 = 0) :
    lenBase.getD entry 0 = entry := by
  have all : ∀ entry < 16, clenBits.getD entry 0 = 0 → lenBase.getD entry 0 = entry := by decide
  exact all entry known plain

/-- The literal mode and the dictionary size of the header. -/
structure Format where
  mode : Nat
  dsize : Nat

structure Format.Valid (f : Format) : Prop where
  mode : f.mode = cmpBinary ∨ f.mode = cmpAscii
  dsize : 4 ≤ f.dsize ∧ f.dsize ≤ 6

inductive Token where
  | literal (b : UInt8)
  | copy (length distance : Nat)
  deriving DecidableEq

def literalStream (mode : Nat) (b : UInt8) : List Bool :=
  false :: if mode = cmpBinary then bitsOf 8 b.toNat else bitsOf (literalBits b.toNat) (literalCode b.toNat)

def lengthStream (v : Nat) : List Bool :=
  true :: bitsOf (slenBits.getD (lengthEntry v) 0) (lenCode.getD (lengthEntry v) 0) ++
    bitsOf (clenBits.getD (lengthEntry v) 0) (v - lenBase.getD (lengthEntry v) 0)

def suffixBits (dsize length : Nat) : Nat := if length = 2 then 2 else dsize

def distanceStream (dsize length distance : Nat) : List Bool :=
  let suffix := suffixBits dsize length
  bitsOf (distBits.getD ((distance - 1) / 2 ^ suffix) 0) (distCode.getD ((distance - 1) / 2 ^ suffix) 0) ++
    bitsOf suffix ((distance - 1) % 2 ^ suffix)

def Token.Valid (dsize : Nat) : Token → Prop
  | literal _ => True
  | copy length distance =>
    2 ≤ length ∧ length ≤ 518 ∧ 1 ≤ distance ∧ (distance - 1) / 2 ^ suffixBits dsize length < 64

def Token.bits (f : Format) : Token → List Bool
  | literal b => literalStream f.mode b
  | copy length distance => lengthStream (length - 2) ++ distanceStream f.dsize length distance

def terminator : List Bool := lengthStream 517

def back (e : Bytes) (distance : Nat) : UInt8 :=
  if distance ≤ e.length then e.getD (e.length - distance) 0 else 0

def repeatBack : Nat → Nat → Bytes → Bytes
  | 0, _, e => e
  | count + 1, distance, e => repeatBack count distance (e ++ [back e distance])

def Token.expand (e : Bytes) : Token → Bytes
  | literal b => e ++ [b]
  | copy length distance => repeatBack length distance e

def expansion (tokens : List Token) : Bytes := tokens.foldl Token.expand []

@[simp] theorem repeatBack_length (count distance : Nat) (e : Bytes) :
    (repeatBack count distance e).length = e.length + count := by
  induction count generalizing e with
  | zero => rfl
  | succ count ih =>
    rw [repeatBack, ih, List.length_append, List.length_singleton]
    omega

theorem repeatBack_append (count distance : Nat) (e : Bytes) : ∃ tail, repeatBack count distance e = e ++ tail := by
  induction count generalizing e with
  | zero => exact ⟨[], (List.append_nil e).symm⟩
  | succ count ih =>
    obtain ⟨tail, grown⟩ := ih (e ++ [back e distance])
    exact ⟨back e distance :: tail, by rw [repeatBack, grown, List.append_assoc, List.singleton_append]⟩

theorem expansion_append (tokens : List Token) (token : Token) :
    expansion (tokens ++ [token]) = token.expand (expansion tokens) := by
  rw [expansion, List.foldl_append, List.foldl_cons, List.foldl_nil, expansion]

def Token.size : Token → Nat
  | literal _ => 1
  | copy length _ => length

theorem expand_length (e : Bytes) (token : Token) : (token.expand e).length = e.length + token.size := by
  cases token with
  | literal b => rw [Token.expand, List.length_append, List.length_singleton, Token.size]
  | copy length distance => exact repeatBack_length length distance e

theorem expansion_length (tokens : List Token) : (expansion tokens).length = (tokens.map Token.size).sum := by
  induction tokens using List.reverseRecOn with
  | nil => rfl
  | append_singleton tokens token ih =>
    rw [expansion_append, expand_length, ih, List.map_append, List.sum_append, List.map_singleton, List.sum_singleton]

/-- A well-formed stream: a header the decoder knows, symbols, the terminator, and anything after it. -/
structure Stream (input : Bytes) (f : Format) (tokens : List Token) : Prop where
  format : f.Valid
  header : ∃ rest, input = UInt8.ofNat f.mode :: UInt8.ofNat f.dsize :: rest ∧
    ∃ padding, ofBytes rest = tokens.flatMap (Token.bits f) ++ terminator ++ padding
  tokens : ∀ token ∈ tokens, token.Valid f.dsize

end Pkware

end LibMpq
