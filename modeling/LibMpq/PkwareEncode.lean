import Mathlib.Data.Nat.Bitwise
import LibMpq.PkwareExact

set_option autoImplicit false

namespace LibMpq

open Effect Bitstream

namespace Pkware

def binary : Format := ⟨cmpBinary, 6⟩

structure Writer.Holds (w : Writer) (bits : List Bool) (left : Nat) : Prop where
  position : w.bitPos = bits.length
  written : ofBytes w.out = bits ++ List.replicate left false

section bits

variable {w : Writer} {bits : List Bool} {left : Nat}

theorem Writer.Holds.bit (holds : w.Holds bits (left + 1)) (b : Bool) :
    Writer.Holds { out := if b then setBit w.bitPos w.out else w.out, bitPos := w.bitPos + 1 } (bits ++ [b]) left := by
  constructor
  case position => simp [holds.position]
  case written =>
    have zeros := holds.written
    rw [List.replicate_succ] at zeros
    cases b with
    | false => simp [zeros]
    | true => simp [ofBytes_setBit, zeros, holds.position]

theorem bitsOf_succ_last (n v : Nat) : bitsOf (n + 1) v = bitsOf n v ++ [v.testBit n] := by
  rw [bitsOf_add, bitsOf, bitsOf, Nat.testBit_eq_decide_div_mod_eq]

theorem Writer.Holds.putBits (n : Nat) (holds : w.Holds bits (left + n)) (v : Nat) :
    (putBits w v n).Holds (bits ++ bitsOf n v) left := by
  induction n generalizing left with
  | zero => simpa [Pkware.putBits, bitsOf] using holds
  | succ n ih =>
    have before := @ih (left + 1) (by rwa [Nat.add_right_comm, Nat.add_assoc])
    have step := before.bit (v.testBit n)
    rw [List.append_assoc, ← bitsOf_succ_last] at step
    have last : (v &&& 1 <<< n ≠ 0) = (v.testBit n = true) := by
      rw [Nat.one_shiftLeft, ne_eq, Nat.and_two_pow, Nat.mul_eq_zero]
      cases v.testBit n <;> simp
    unfold Pkware.putBits at step ⊢
    rw [List.range_succ, List.foldl_append, List.foldl_cons, List.foldl_nil]
    simpa only [last] using step

theorem Writer.Holds.literal (holds : w.Holds bits (left + 9)) (b : UInt8) :
    (putLiteral w b).Holds (bits ++ Token.bits binary (.literal b)) left := by
  have control : (Pkware.putBits w 0 1).Holds (bits ++ bitsOf 1 0) (left + 8) := holds.putBits 1 0
  have byte := control.putBits 8 b.toNat
  rwa [List.append_assoc] at byte

theorem putLength_bits {v : Nat} (below : v < 518) :
    bitsOf (slenBits.getD (lengthEntry v) 0 + clenBits.getD (lengthEntry v) 0 + 1)
      ((v - lenBase.getD (lengthEntry v) 0) <<< (slenBits.getD (lengthEntry v) 0 + 1) |||
        (lenCode.getD (lengthEntry v) 0 * 2) ||| 1) = lengthStream v := by
  have all : ∀ v < 518, bitsOf (slenBits.getD (lengthEntry v) 0 + clenBits.getD (lengthEntry v) 0 + 1)
      ((v - lenBase.getD (lengthEntry v) 0) <<< (slenBits.getD (lengthEntry v) 0 + 1) |||
        (lenCode.getD (lengthEntry v) 0 * 2) ||| 1) = lengthStream v := by decide +kernel
  exact all v below

theorem Writer.Holds.length {v : Nat} (below : v < 518) (holds : w.Holds bits (left + (lengthStream v).length)) :
    (putLength w v).Holds (bits ++ lengthStream v) left := by
  have same := putLength_bits below
  have size := congrArg List.length same
  rw [bitsOf_length] at size
  rw [← size] at holds
  rw [← same]
  exact holds.putBits _ _

theorem putMatch_eq (w : Writer) (found : Match) :
    putMatch w found =
      let suffix := suffixBits 6 found.length
      let pre := (found.distance - 1) / 2 ^ suffix
      Pkware.putBits (Pkware.putBits (putLength w (found.length - 2)) (distCode.getD pre 0) (distBits.getD pre 0))
        ((found.distance - 1) % 2 ^ suffix) suffix := by
  simp only [putMatch, suffixBits, Nat.shiftRight_eq_div_pow, Nat.one_shiftLeft, Nat.and_two_pow_sub_one_eq_mod]

theorem Writer.Holds.copy {found : Match} (le : found.length ≤ 518)
    (holds : w.Holds bits (left + (Token.bits binary (.copy found.length found.distance)).length)) :
    (putMatch w found).Holds (bits ++ Token.bits binary (.copy found.length found.distance)) left := by
  rw [putMatch_eq]
  simp only [Token.bits, distanceStream, List.length_append, bitsOf_length, binary, ← List.append_assoc] at holds ⊢
  apply Writer.Holds.putBits
  apply Writer.Holds.putBits
  apply Writer.Holds.length (by omega)
  rw [show ∀ a b c : Nat, left + a + b + c = left + (c + b + a) by omega]
  exact holds

theorem token_bits_le {token : Token} (valid : token.Valid 6) :
    (token.bits binary).length ≤ 9 * token.size := by
  cases token with
  | literal b => simp [Token.bits, literalStream, binary, Token.size]
  | copy length distance =>
    obtain ⟨two, le, -, near⟩ := valid
    have lengths : ∀ v < 517, (lengthStream v).length + 14 ≤ 9 * (v + 2) := by decide +kernel
    have distances : ∀ pos < 64, distBits.getD pos 0 ≤ 8 := by decide
    have suffix : suffixBits 6 length ≤ 6 := by
      unfold suffixBits
      split <;> omega
    have first := lengths (length - 2) (by omega)
    have second := distances _ near
    simp only [Token.bits, distanceStream, binary, List.length_append, bitsOf_length, Token.size]
    omega

end bits

structure Match.Repeats (input : Bytes) (position limit : Nat) (found : Match) : Prop where
  le : found.length ≤ limit
  behind : 1 ≤ found.distance ∧ found.distance ≤ position
  near : found.distance ≤ if found.length = 2 then 256 else dictionarySize
  same : ∀ k < found.length, input.getD (position - found.distance + k) 0 = input.getD (position + k) 0

structure Match.Sound (input : Bytes) (position limit : Nat) (found : Match) : Prop where
  positive : 1 ≤ found.length
  repeats : 2 ≤ found.length → found.Repeats input position limit

structure History.Behind (history : History) (position : Nat) : Prop where
  head : ∀ hash p, history.head hash = some p → p < position
  previous : ∀ slot p, history.previous slot = some p → p < position

theorem repeats_le (input : Bytes) (candidate position limit : Nat) :
    repeats input candidate position limit ≤ limit := by
  induction limit generalizing candidate position with
  | zero => simp [repeats]
  | succ limit ih =>
    have rest := ih (candidate + 1) (position + 1)
    unfold repeats
    split <;> omega

theorem repeats_same (input : Bytes) (candidate position limit : Nat) :
    ∀ k < repeats input candidate position limit, input.getD (candidate + k) 0 = input.getD (position + k) 0 := by
  induction limit generalizing candidate position with
  | zero => simp [repeats]
  | succ limit ih =>
    intro k below
    unfold repeats at below
    split at below
    case isTrue same =>
      cases k with
      | zero => exact same
      | succ k =>
        have rest := ih (candidate + 1) (position + 1) k (by omega)
        simpa only [Nat.add_right_comm _ 1, Nat.add_assoc] using rest
    case isFalse => omega

section search

variable {history : History} {input : Bytes} {position limit : Nat}

theorem candidate_repeats {candidate : Nat} (behind : candidate < position)
    (near : position - candidate ≤ dictionarySize)
    (expressible : repeats input candidate position limit > 2 ∨ position - candidate ≤ 256) :
    Match.Repeats input position limit ⟨repeats input candidate position limit, position - candidate⟩ := by
  constructor
  case le => exact repeats_le input candidate position limit
  case behind => dsimp only; omega
  case near =>
    dsimp only
    split <;> omega
  case same =>
    intro k below
    rw [show position - (position - candidate) = candidate by omega]
    exact repeats_same input candidate position limit k below

theorem search_sound (behind : history.Behind position) (probes : Nat) {candidate : Option Nat} {best : Match}
    (started : ∀ p, candidate = some p → p < position) (sound : best.Sound input position limit) :
    (search history input position limit probes candidate best).Sound input position limit := by
  induction probes generalizing candidate best with
  | zero => simpa [search] using sound
  | succ probes ih =>
    cases candidate with
    | none => simpa [search] using sound
    | some candidate =>
      have next := behind.previous (candidate &&& (dictionarySize - 1))
      simp only [search]
      split
      next => exact sound
      next near =>
        split
        case isTrue longer =>
          have repeated := @candidate_repeats input position limit candidate (started _ rfl) (by omega) longer.2
          have taken : Match.Sound input position limit
              ⟨repeats input candidate position limit, position - candidate⟩ :=
            ⟨by have := sound.positive; dsimp only; omega, fun _ => repeated⟩
          split
          next => exact taken
          next => exact ih next taken
        case isFalse => exact ih next sound

theorem findMatch_sound (behind : history.Behind position) :
    (findMatch history input position).Sound input position (min (input.length - position) matchMax) := by
  have single : Match.Sound input position (min (input.length - position) matchMax) ⟨1, 0⟩ :=
    ⟨Nat.le_refl 1, fun two => absurd two (by decide)⟩
  simp only [findMatch]
  split
  next => exact single
  next => exact search_sound behind searchMax (behind.head _) single

theorem remember_behind (behind : history.Behind position) : (remember input history position).Behind (position + 1) := by
  unfold remember
  split
  next =>
    constructor
    case head =>
      intro hash p found
      simp only [Function.update_apply] at found
      split at found
      next => cases found; omega
      next => have := behind.head hash p found; omega
    case previous =>
      intro slot p found
      simp only [Function.update_apply] at found
      split at found
      next => have := behind.head _ p found; omega
      next => have := behind.previous slot p found; omega
  next =>
    exact ⟨fun hash p found => Nat.lt_succ_of_lt (behind.head hash p found),
      fun slot p found => Nat.lt_succ_of_lt (behind.previous slot p found)⟩

theorem remembered_behind (count : Nat) (behind : history.Behind position) :
    ((List.range' position count).foldl (remember input) history).Behind (position + count) := by
  induction count generalizing history position with
  | zero => exact behind
  | succ count ih =>
    rw [List.range'_succ, List.foldl_cons, Nat.add_comm count 1, ← Nat.add_assoc]
    exact ih (remember_behind behind)

end search

theorem take_succ_getD {input : Bytes} {position : Nat} (inside : position < input.length) :
    input.take (position + 1) = input.take position ++ [input.getD position 0] := by
  rw [List.take_add_one, List.getElem?_eq_getElem inside, List.getD_eq_getElem _ _ inside]
  rfl

theorem repeatBack_take {input : Bytes} {distance : Nat} (positive : 1 ≤ distance) (count : Nat) {position : Nat}
    (behind : distance ≤ position) (inside : position + count ≤ input.length)
    (same : ∀ k < count, input.getD (position - distance + k) 0 = input.getD (position + k) 0) :
    repeatBack count distance (input.take position) = input.take (position + count) := by
  induction count generalizing position with
  | zero => rfl
  | succ count ih =>
    have first : back (input.take position) distance = input.getD position 0 := by
      have found := same 0 (by omega)
      have earlier : (input.take position)[position - distance]? = input[position - distance]? :=
        List.getElem?_take_of_lt (by omega)
      rw [back, List.length_take_of_le (by omega), if_pos behind, List.getD_eq_getElem?_getD, earlier,
        ← List.getD_eq_getElem?_getD]
      simpa using found
    rw [repeatBack, first, ← take_succ_getD (by omega)]
    rw [ih (by omega) (by omega), Nat.add_right_comm, Nat.add_assoc]
    intro k below
    have next := same (k + 1) (by omega)
    rwa [show position + 1 - distance + k = position - distance + (k + 1) by omega, Nat.add_assoc, Nat.add_comm 1 k]

def Match.token (input : Bytes) (position : Nat) (found : Match) : Token :=
  if found.length ≥ 2 then .copy found.length found.distance else .literal (input.getD position 0)

section token

variable {input : Bytes} {position : Nat} {found : Match}

theorem Match.Sound.length_le (sound : found.Sound input position (min (input.length - position) matchMax))
    (inside : position < input.length) : position + found.length ≤ input.length ∧ found.length ≤ matchMax := by
  by_cases two : 2 ≤ found.length
  case pos =>
    have := (sound.repeats two).le
    omega
  case neg => simp only [matchMax]; omega

theorem Match.Sound.valid (sound : found.Sound input position (min (input.length - position) matchMax))
    (inside : position < input.length) : (found.token input position).Valid 6 := by
  unfold Match.token
  split
  case isTrue two =>
    obtain ⟨-, behind, near, -⟩ := sound.repeats two
    have le := (sound.length_le inside).2
    simp only [matchMax, dictionarySize] at le near
    refine ⟨two, by omega, behind.1, ?_⟩
    unfold suffixBits
    split at near
    next short => rw [if_pos short]; omega
    next long => rw [if_neg long]; omega
  case isFalse => trivial

theorem Match.Sound.size (sound : found.Sound input position (min (input.length - position) matchMax)) :
    (found.token input position).size = found.length := by
  have := sound.positive
  unfold Match.token
  split
  case isTrue => rfl
  case isFalse => simp only [Token.size]; omega

theorem Match.Sound.expand (sound : found.Sound input position (min (input.length - position) matchMax))
    (inside : position < input.length) :
    (found.token input position).expand (input.take position) = input.take (position + found.length) := by
  have positive := sound.positive
  have le := sound.length_le inside
  unfold Match.token
  split
  case isTrue two =>
    obtain ⟨-, behind, -, same⟩ := sound.repeats two
    exact repeatBack_take behind.1 found.length behind.2 le.1 same
  case isFalse =>
    rw [show found.length = 1 by omega, take_succ_getD inside, Token.expand]

end token

structure Encoder.Sound (input : Bytes) (e : Encoder) (tokens : List Token) : Prop where
  inside : e.position ≤ input.length
  behind : e.history.Behind e.position
  valid : ∀ token ∈ tokens, token.Valid 6 ∧ token.size ≤ matchMax
  expands : expansion tokens = input.take e.position
  written : ∃ left, e.writer.Holds (tokens.flatMap (Token.bits binary)) left ∧
    (tokens.flatMap (Token.bits binary)).length ≤ 9 * e.position ∧
    (tokens.flatMap (Token.bits binary)).length + left = 8 * (maximumBytes input.length - 2)
  emitted : ∀ m ∈ e.emitted, 2 ≤ m.found.length ∧
    m.found.Repeats input m.position (min (input.length - m.position) matchMax)

theorem Encoder.Sound.step {input : Bytes} {e : Encoder} {tokens : List Token} (sound : e.Sound input tokens)
    (more : e.position < input.length) :
    ∃ token, (encodeStep input e).Sound input (tokens ++ [token]) := by
  have found := @findMatch_sound e.history input e.position sound.behind
  have le := found.length_le more
  have most : matchMax = 516 := rfl
  have size := found.size
  have bits := token_bits_le (found.valid more)
  refine ⟨(findMatch e.history input e.position).token input e.position, le.1,
    remembered_behind _ sound.behind, ?_, ?_, ?_, ?_⟩
  case refine_1 =>
    intro token mem
    rcases List.mem_append.mp mem with before | last
    · exact sound.valid token before
    · rw [List.mem_singleton.mp last]
      exact ⟨found.valid more, by omega⟩
  case refine_2 =>
    rw [expansion_append, sound.expands]
    exact found.expand more
  case refine_3 =>
    obtain ⟨left, holds, short, room⟩ := sound.written
    obtain ⟨left, rfl⟩ : ∃ rest, left = rest +
        (((findMatch e.history input e.position).token input e.position).bits binary).length := by
      refine ⟨left - _, (Nat.sub_add_cancel ?_).symm⟩
      simp only [maximumBytes] at room
      omega
    refine ⟨left, ?_, ?_, ?_⟩
    · rw [List.flatMap_append, List.flatMap_singleton]
      simp only [encodeStep]
      unfold Match.token at holds ⊢
      split
      next two =>
        rw [if_pos two] at holds
        exact holds.copy (by omega)
      next one =>
        rw [if_neg one] at holds
        exact holds.literal _
    · rw [List.flatMap_append, List.flatMap_singleton, List.length_append]
      simp only [encodeStep]
      omega
    · rw [List.flatMap_append, List.flatMap_singleton, List.length_append]
      omega
  case refine_4 =>
    intro m mem
    simp only [encodeStep] at mem
    split at mem
    next two =>
      rcases List.mem_cons.mp mem with rfl | before
      · exact ⟨two, found.repeats two⟩
      · exact sound.emitted m before
    next => exact sound.emitted m mem

theorem encodeLoop_sound {input : Bytes} (fuel : Nat) {e : Encoder} {tokens : List Token}
    (sound : e.Sound input tokens) (enough : input.length ≤ e.position + fuel) :
    ∃ tokens', (encodeLoop input fuel e).Sound input tokens' ∧ (encodeLoop input fuel e).position = input.length := by
  induction fuel generalizing e tokens with
  | zero => exact ⟨tokens, sound, Nat.le_antisymm sound.inside enough⟩
  | succ fuel ih =>
    unfold encodeLoop
    split
    case isTrue more =>
      obtain ⟨token, next⟩ := sound.step more
      have positive := (@findMatch_sound e.history input e.position sound.behind).positive
      exact ih next (by simp only [encodeStep]; omega)
    case isFalse done => exact ⟨tokens, sound, Nat.le_antisymm sound.inside (by omega)⟩

theorem encode_started (input : Bytes) :
    Encoder.Sound input
      { history := ⟨fun _ => none, fun _ => none⟩, position := 0, emitted := []
        writer := { out := Bytes.zeros (maximumBytes input.length - 2), bitPos := 0 } } [] where
  inside := Nat.zero_le _
  behind := ⟨fun _ _ h => absurd h (by simp), fun _ _ h => absurd h (by simp)⟩
  valid := fun _ h => absurd h (by simp)
  expands := rfl
  written := ⟨8 * (maximumBytes input.length - 2), ⟨rfl, ofBytes_zeros _⟩, Nat.zero_le _, Nat.zero_add _⟩
  emitted := fun _ h => absurd h (by simp)

structure Encoded (input : Bytes) (c : Compressed) (tokens : List Token) : Prop where
  stream : Stream c.out binary tokens
  expands : expansion tokens = input
  sizes : ∀ token ∈ tokens, token.size ≤ matchMax
  room : c.bitCount ≤ 8 * (maximumBytes input.length - 2)
  length : c.out.length = 2 + (c.bitCount + 7) / 8
  emitted : ∀ m ∈ c.emitted, 2 ≤ m.found.length ∧
    m.found.Repeats input m.position (min (input.length - m.position) matchMax)

theorem encode_encoded (input : Bytes) : ∃ tokens, Encoded input (encode input) tokens := by
  obtain ⟨tokens, sound, done⟩ := encodeLoop_sound input.length (encode_started input) (Nat.zero_add _).ge
  obtain ⟨left, holds, short, room⟩ := sound.written
  obtain ⟨left, rfl⟩ : ∃ rest, left = rest + 16 := by
    refine ⟨left - 16, (Nat.sub_add_cancel ?_).symm⟩
    rw [done] at short
    simp only [maximumBytes] at room
    omega
  have ended := holds.putBits 16 0xFF01
  have terminated : bitsOf 16 0xFF01 = terminator := by decide
  rw [terminated] at ended
  refine ⟨tokens, ⟨⟨.inl rfl, by decide⟩, ?_, fun token mem => (sound.valid token mem).1⟩, ?_,
    fun token mem => (sound.valid token mem).2, ?_, ?_, sound.emitted⟩
  case refine_3 =>
    simp only [encode]
    rw [ended.position, List.length_append]
    have size : terminator.length = 16 := rfl
    omega
  · rw [encode, ended.position, List.take_append, List.take_of_length_le (by simp), List.cons_append, List.cons_append,
      List.nil_append]
    have fills : 8 * (((tokens.flatMap (Token.bits binary) ++ terminator).length + 7) / 8) ≥
        (tokens.flatMap (Token.bits binary) ++ terminator).length := by omega
    refine ⟨_, rfl, (List.replicate left false).take (8 * (((tokens.flatMap (Token.bits binary) ++ terminator).length +
      7) / 8) - (tokens.flatMap (Token.bits binary) ++ terminator).length), ?_⟩
    rw [List.length_cons, List.length_singleton, Nat.add_sub_cancel_left, ofBytes_take, ended.written,
      List.take_append, List.take_of_length_le fills]
  · rw [sound.expands, done, List.take_length]
  · have bytes := congrArg List.length ended.written
    have size : terminator.length = 16 := rfl
    rw [ofBytes_length, List.length_append, List.length_append, List.length_replicate, size] at bytes
    simp only [encode]
    rw [List.length_take, List.length_append, List.length_cons, List.length_singleton, ended.position,
      List.length_append, size]
    omega

theorem fits_of_sizes {tokens : List Token} (sizes : ∀ token ∈ tokens, token.size ≤ matchMax) (e : Bytes) :
    Fits e tokens := by
  induction tokens generalizing e with
  | nil => trivial
  | cons token rest ih =>
    refine ⟨?_, ih (fun other mem => sizes other (List.mem_cons_of_mem _ mem)) _⟩
    have small := sizes token List.mem_cons_self
    cases token with
    | literal b => trivial
    | copy length distance =>
      simp only [Token.size, matchMax] at small
      simp only [Token.Fits]
      omega

theorem Encoded.decompress {input : Bytes} {c : Compressed} {tokens : List Token} (encoded : Encoded input c tokens)
    {maxOut : Nat} (room : input.length ≤ maxOut) :
    ∃ o, decompress c.out maxOut = some o ∧ o.status = .noError ∧ o.state.out = input ∧
      ∀ access ∈ o.state.log, access.Sound := by
  obtain ⟨rest, headed, scanned⟩ := encoded.stream.headed
  obtain ⟨o, run, done, out, sound⟩ := headed.run maxOut
  rw [scanned] at done out sound
  rw [encoded.expands, List.take_of_length_le room] at out
  exact ⟨o, run, done, out, sound.mpr (fits_of_sizes encoded.sizes [])⟩

theorem compress_ok {input : Bytes} {faults faults' : Faults} {c : Compressed}
    (run : compress input faults = .ok c faults') : c = encode input := by
  simp only [compress, bind_ok, pure_ok] at run
  obtain ⟨_, _, -, _, _, -, _, _, -, same, -⟩ := run
  exact same

theorem implode_explode {input : Bytes} {faults faults' : Faults} {c : Compressed}
    (run : compress input faults = .ok c faults') :
    c.bitCount ≤ 8 * (maximumBytes input.length - 2) ∧ c.out.length = 2 + (c.bitCount + 7) / 8 ∧
      (∀ m ∈ c.emitted, 2 ≤ m.found.length ∧
        m.found.Repeats input m.position (min (input.length - m.position) matchMax)) ∧
      ∃ o, decompress c.out input.length = some o ∧ o.status = .noError ∧ o.state.out = input ∧
        ∀ access ∈ o.state.log, access.Sound := by
  obtain rfl := compress_ok run
  obtain ⟨tokens, encoded⟩ := encode_encoded input
  exact ⟨encoded.room, encoded.length, encoded.emitted, encoded.decompress (Nat.le_refl _)⟩

def Emitted.values (m : Emitted) : Nat × Nat × Nat := (m.position, m.found.length, m.found.distance)

-- `ab` four times, `c` and once more `ab`: a match that overlaps itself and one of length two
def repeated : Bytes := [0x61, 0x62, 0x61, 0x62, 0x61, 0x62, 0x61, 0x62, 0x63, 0x61, 0x62]

theorem implode_explode_repeated : ∃ c faults', compress repeated Faults.healthy = .ok c faults' ∧
    c.emitted.map Emitted.values = [(9, 2, 3), (2, 6, 2)] ∧ c.out.length ≤ maximumBytes repeated.length ∧
    ∃ o, decompress c.out repeated.length = some o ∧ o.status = .noError ∧ o.state.out = repeated := by
  obtain ⟨room, length, -, o, run, done, out, -⟩ := @implode_explode repeated Faults.healthy _ _ rfl
  refine ⟨_, _, rfl, by decide +kernel, ?_, o, run, done, out⟩
  have size : maximumBytes repeated.length = 17 := rfl
  omega

theorem codec_lossless : codec.Lossless where
  decode_encode := by
    intro data packed limit capacity encoded _ room
    simp only [codec] at encoded
    split at encoded
    next => cases encoded
    next =>
      cases encoded
      obtain ⟨tokens, sound⟩ := encode_encoded data
      obtain ⟨o, run, done, out, -⟩ := sound.decompress room
      constructor
      · simp only [codec, (decompressStage_of run).1, done, out, ne_eq, not_true_eq_false, if_false]
      · simp only [codec, (decompressStage_of run).2, out]
  encode_ne_nil := by
    intro data packed limit encoded
    simp only [codec] at encoded
    split at encoded
    next => cases encoded
    next =>
      cases encoded
      obtain ⟨tokens, sound⟩ := encode_encoded data
      obtain ⟨rest, starts, -⟩ := sound.stream.header
      rw [starts]
      exact List.cons_ne_nil _ _

end Pkware

end LibMpq
