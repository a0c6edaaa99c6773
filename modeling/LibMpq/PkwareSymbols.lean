import LibMpq.PkwareDecode

set_option autoImplicit false

namespace LibMpq

open Bitstream

namespace Pkware

theorem cut_some {n : Nat} {bits rest : List Bool} :
    cut n bits = some rest ↔ n + 8 ≤ bits.length ∧ rest = bits.drop n := by
  unfold cut
  split <;> simp [*, eq_comm]

theorem cut_field {n v : Nat} {rest : List Bool} (enough : 8 ≤ rest.length) :
    cut n (bitsOf n v ++ rest) = some rest := by
  refine cut_some.mpr ⟨?_, (List.drop_left' (bitsOf_length n v)).symm⟩
  rw [List.length_append, bitsOf_length]
  omega

theorem field_split {n : Nat} {bits : List Bool} (le : n ≤ bits.length) :
    bits = bitsOf n (value bits % 2 ^ n) ++ bits.drop n :=
  bitsOf_append_drop le (Nat.mod_lt _ (Nat.two_pow_pos n)) rfl

theorem lengthStream_eq (v : Nat) :
    lengthStream v = true :: (bitsOf (slenBits.getD (lengthEntry v) 0) (lenCode.getD (lengthEntry v) 0) ++
      bitsOf (clenBits.getD (lengthEntry v) 0) (v - lenBase.getD (lengthEntry v) 0)) := rfl

theorem takeLength_some {bits rest : List Bool} {code : Nat} (long : 8 ≤ bits.length)
    (taken : takeLength bits = some (code, rest)) :
    ∃ v < 518, code = v + 0x100 ∧ ∃ r, true :: bits = lengthStream v ++ r ∧ (v < 517 → r = rest ∧ 8 ≤ r.length) := by
  obtain ⟨known, starts⟩ := lengths_resolve.split long trivial
  unfold takeLength at taken
  rw [show (0x100 : Nat) = 2 ^ 8 from rfl] at taken
  generalize Table.pos2.get (value bits % 2 ^ 8) = entry at *
  simp only [Option.bind_eq_some_iff] at taken
  obtain ⟨after, first, taken⟩ := taken
  obtain ⟨-, rfl⟩ := cut_some.mp first
  have left := (cut_some.mp first).1
  by_cases plain : clenBits.getD entry 0 = 0
  · rw [if_pos plain] at taken
    obtain ⟨rfl, rfl⟩ := Prod.mk.inj (Option.some.inj taken)
    have base := lenBase_plain known plain
    have same : lengthEntry entry = entry := by
      have here := (lengthEntry_base known (Nat.two_pow_pos (clenBits.getD entry 0))).1
      rwa [base, Nat.add_zero] at here
    refine ⟨entry, by omega, rfl, bits.drop (slenBits.getD entry 0), ?_, fun _ => ⟨rfl, ?_⟩⟩
    · rw [lengthStream_eq, same, plain, bitsOf, List.append_nil, List.cons_append, ← starts]
    · rw [List.length_drop]
      omega
  · rw [if_neg plain] at taken
    have some_ : clenBits.getD entry 0 ≤ (bits.drop (slenBits.getD entry 0)).length := by
      have := clen_le entry known
      rw [List.length_drop]
      omega
    have more := field_split some_
    have small := Nat.mod_lt (value (bits.drop (slenBits.getD entry 0))) (Nat.two_pow_pos (clenBits.getD entry 0))
    generalize value (bits.drop (slenBits.getD entry 0)) % 2 ^ clenBits.getD entry 0 = x at *
    obtain ⟨same, below⟩ := lengthEntry_base known small
    have whole : true :: bits = lengthStream (lenBase.getD entry 0 + x) ++
        (bits.drop (slenBits.getD entry 0)).drop (clenBits.getD entry 0) := by
      rw [lengthStream_eq, same, Nat.add_sub_cancel_left, List.cons_append, List.append_assoc, ← more, ← starts]
    cases second : cut (clenBits.getD entry 0) (bits.drop (slenBits.getD entry 0)) with
    | some after =>
      obtain ⟨enough, rfl⟩ := cut_some.mp second
      rw [second] at taken
      obtain ⟨rfl, rfl⟩ := Prod.mk.inj (Option.some.inj taken)
      refine ⟨_, below, rfl, _, whole, fun _ => ⟨rfl, ?_⟩⟩
      rw [List.length_drop]
      omega
    | none =>
      rw [second] at taken
      simp only at taken
      split at taken
      next ends =>
        obtain ⟨rfl, rfl⟩ := Prod.mk.inj (Option.some.inj taken)
        refine ⟨_, below, rfl, _, whole, fun short => ?_⟩
        have few : 2 ^ clenBits.getD entry 0 ≤ 2 ^ 8 := Nat.pow_le_pow_right (by decide) (clen_le entry known)
        obtain rfl : entry = 15 := by omega
        have base : lenBase.getD 15 0 = 262 := rfl
        omega
      next => cases taken

theorem takeLength_field {v : Nat} (below : v < 518) {bits rest : List Bool}
    (starts : true :: bits = lengthStream v ++ rest) (enough : v = 517 ∨ 8 ≤ rest.length) :
    ∃ r, takeLength bits = some (v + 0x100, r) ∧ (8 ≤ rest.length → r = rest) := by
  obtain ⟨known, base, small⟩ := lengthEntry_range below
  rw [lengthStream_eq, List.cons_append, List.append_assoc] at starts
  obtain rfl := (List.cons.inj starts).2
  have found := lengths_resolve.found known
    (bitsOf (clenBits.getD (lengthEntry v) 0) (v - lenBase.getD (lengthEntry v) 0) ++ rest)
  rw [show (2 : Nat) ^ 8 = 0x100 from rfl] at found
  unfold takeLength
  simp only [found]
  have value_ := value_bitsOf_append_mod small rest
  have sum : lenBase.getD (lengthEntry v) 0 + (v - lenBase.getD (lengthEntry v) 0) = v := Nat.add_sub_cancel' base
  by_cases long : 8 ≤ rest.length
  · refine ⟨rest, ?_, fun _ => rfl⟩
    rw [cut_field (by rw [List.length_append]; omega), Option.bind_some]
    by_cases plain : clenBits.getD (lengthEntry v) 0 = 0
    · rw [if_pos plain]
      rw [plain, pow_zero, Nat.lt_one_iff] at small
      have same := lenBase_plain known plain
      rw [plain, bitsOf, List.nil_append]
      have : lengthEntry v = v := by omega
      rw [this]
    · rw [if_neg plain, value_, cut_field long]
      simp only [sum]
  · obtain rfl : v = 517 := enough.resolve_right long
    have eight : 8 ≤ (bitsOf (clenBits.getD (lengthEntry 517) 0) (517 - lenBase.getD (lengthEntry 517) 0) ++ rest).length := by
      rw [List.length_append, bitsOf_length]
      exact Nat.le_add_right_of_le (by decide)
    rw [cut_field eight, Option.bind_some, if_neg (by decide), value_]
    have none : cut (clenBits.getD (lengthEntry 517) 0)
        (bitsOf (clenBits.getD (lengthEntry 517) 0) (517 - lenBase.getD (lengthEntry 517) 0) ++ rest) = none := by
      unfold cut
      rw [if_neg]
      rw [List.length_append, bitsOf_length]
      omega
    rw [none]
    exact ⟨[], rfl, fun enough => absurd enough long⟩

theorem masked (n v : Nat) : v &&& (2 ^ n - 1) = v % 2 ^ n := Nat.and_two_pow_sub_one_eq_mod v n

theorem Continued.low {shift v : Nat} (continued : Continued shift v) : literalCode v % 2 ^ shift = 0 := by
  have clear := ((literal_codes continued.inside).2.2 continued.long).1
  rcases continued.shifted with ⟨-, -, rfl⟩ | ⟨-, six, rfl⟩ | ⟨eight, rfl⟩
  · exact clear
  · exact (masked 6 _).symm.trans six
  · exact (masked 8 _).symm.trans eight

theorem Continued.asciiBits_eq {shift v : Nat} (continued : Continued shift v) :
    Table.bitsAsc.get v = literalBits v - shift := by
  rw [bitsAsc_get continued.inside, asciiBits, if_neg (Nat.not_le.mpr continued.long)]
  rcases continued.shifted with ⟨escaped, four, rfl⟩ | ⟨escaped, six, rfl⟩ | ⟨eight, rfl⟩
  · rw [if_pos escaped, if_pos four]
  · rw [if_pos escaped, if_neg (not_not.mpr six)]
  · rw [if_neg (not_not.mpr eight)]

theorem Continued.bits_eq {shift v : Nat} (continued : Continued shift v) :
    bitsOf (literalBits v) (literalCode v) =
      bitsOf shift 0 ++ bitsOf (literalBits v - shift) (literalCode v >>> shift) := by
  have le : shift ≤ literalBits v := by
    have long := continued.long
    rcases continued.shift_eq with rfl | rfl | rfl <;> omega
  conv_lhs => rw [← Nat.add_sub_cancel' le, bitsOf_add, ← bitsOf_mod shift, continued.low]
  rw [Nat.shiftRight_eq_div_pow]

theorem takeContinued_some {shift v : Nat} (known : shift = 4 ∨ shift = 6 ∨ shift = 8) {bits rest : List Bool}
    (long : 8 ≤ bits.length) (zero : value bits % 2 ^ shift = 0)
    (escaped : Escaped shift (value bits / 2 ^ shift % 2 ^ (continuation shift).2))
    (taken : takeContinued shift bits = some (v, rest)) :
    v < 0x100 ∧ bits = bitsOf (literalBits v) (literalCode v) ++ rest ∧ 8 ≤ rest.length := by
  have le : shift ≤ bits.length := by omega
  unfold takeContinued at taken
  simp only [Option.bind_eq_some_iff] at taken
  obtain ⟨after, first, last, second, taken⟩ := taken
  obtain ⟨enough, rfl⟩ := cut_some.mp first
  obtain ⟨enough', rfl⟩ := cut_some.mp second
  obtain ⟨same, rfl⟩ := Prod.mk.inj (Option.some.inj taken)
  have width : (continuation shift).2 ≤ (bits.drop shift).length := by
    rw [List.length_drop]
    rcases known with rfl | rfl | rfl <;> simp only [continuation] <;> omega
  obtain ⟨continued, starts⟩ := (continued_resolve known).split width (by rwa [value_drop bits le])
  rw [same] at continued starts enough' ⊢
  rw [continued.asciiBits_eq] at enough' ⊢
  refine ⟨continued.inside, ?_, by rw [List.length_drop]; omega⟩
  rw [continued.bits_eq, List.append_assoc, ← starts, ← zero]
  exact field_split le

theorem takeContinued_field {shift v : Nat} (continued : Continued shift v) {rest : List Bool}
    (enough : 8 ≤ rest.length) :
    takeContinued shift (bitsOf (literalBits v) (literalCode v) ++ rest) = some (v, rest) := by
  have found := (continued_resolve continued.shift_eq).found continued rest
  unfold takeContinued
  rw [continued.bits_eq, List.append_assoc, cut_field (by rw [List.length_append]; omega), Option.bind_some]
  simp only [found, continued.asciiBits_eq, cut_field enough, Option.bind_some]

theorem short_code {v : Nat} (short : Short v) : literalCode v ≠ 0 := by
  have all : ∀ c ∈ asciiCodes, c.1.2 ≤ 8 → c.1.1 ≠ 0 := by decide +kernel
  exact all ((literalCode v, literalBits v), v) (mem_asciiCodes.mpr ⟨short.1, rfl⟩) short.2

theorem Short.asciiBits_eq {v : Nat} (short : Short v) : Table.bitsAsc.get v = literalBits v := by
  rw [bitsAsc_get short.1, asciiBits, if_pos short.2]

theorem takeAscii_some {v : Nat} {bits rest : List Bool} (long : 8 ≤ bits.length)
    (taken : takeAscii bits = some (v, rest)) :
    v < 0x100 ∧ bits = bitsOf (literalBits v) (literalCode v) ++ rest ∧ 8 ≤ rest.length := by
  have below := Nat.mod_lt (value bits) (by decide : 0x100 > 0)
  unfold takeAscii at taken
  by_cases zero : value bits % 0x100 = 0
  · rw [if_pos zero] at taken
    exact takeContinued_some (.inr (.inr rfl)) long zero trivial taken
  rw [if_neg zero] at taken
  by_cases escape : Table.offs2c34.get (value bits % 0x100) = 0xFF
  · have low := escape_low below zero escape
    rw [if_pos escape] at taken
    split at taken
    next six =>
      refine takeContinued_some (.inr (.inl rfl)) long six ?_ taken
      simp only [Escaped, continuation]
      omega
    next six =>
      refine takeContinued_some (.inl rfl) long (by omega) ⟨?_, ?_⟩ taken
      · simp only [continuation]
        omega
      · have back : value bits / 2 ^ 4 % 2 ^ (continuation 4).2 % 0x10 * 0x10 = value bits % 0x100 := by
          simp only [continuation]
          omega
        rw [back, escape]
  · obtain ⟨short, starts⟩ := short_resolve.split long ⟨zero, escape⟩
    rw [show (2 : Nat) ^ 8 = 0x100 from rfl] at short starts
    generalize Table.offs2c34.get (value bits % 0x100) = first at *
    rw [if_neg escape] at taken
    obtain ⟨after, cuts, taken⟩ := Option.bind_eq_some_iff.mp taken
    obtain ⟨enough, rfl⟩ := cut_some.mp cuts
    obtain ⟨rfl, rfl⟩ := Prod.mk.inj (Option.some.inj taken)
    rw [short.asciiBits_eq] at enough ⊢
    exact ⟨short.1, starts, by rw [List.length_drop]; omega⟩

theorem long_code_low {v n : Nat} (inside : v < 0x100) (long : n ≤ literalBits v) (rest : List Bool) :
    value (bitsOf (literalBits v) (literalCode v) ++ rest) % 2 ^ n = literalCode v % 2 ^ n := by
  have split : 2 ^ literalBits v = 2 ^ n * 2 ^ (literalBits v - n) := by
    rw [← pow_add, Nat.add_sub_cancel' long]
  rw [value_bitsOf_append (literal_codes inside).2.1, split, Nat.mul_assoc, Nat.add_mul_mod_self_left]

theorem takeAscii_field {v : Nat} (inside : v < 0x100) {rest : List Bool} (enough : 8 ≤ rest.length) :
    takeAscii (bitsOf (literalBits v) (literalCode v) ++ rest) = some (v, rest) := by
  unfold takeAscii
  by_cases short : literalBits v ≤ 8
  · have known : Short v := ⟨inside, short⟩
    have found := short_resolve.found known rest
    rw [show (2 : Nat) ^ 8 = 0x100 from rfl] at found
    have starts := value_bitsOf_append_mod (literal_codes inside).2.1 rest
    have zero : value (bitsOf (literalBits v) (literalCode v) ++ rest) % 0x100 ≠ 0 := by
      intro zero
      rw [← Nat.mod_mod_of_dvd _ (pow_dvd_pow 2 short), show (2 : Nat) ^ 8 = 0x100 from rfl, zero, Nat.zero_mod]
        at starts
      exact short_code known starts.symm
    have other : v ≠ 0xFF := by
      rintro rfl
      exact absurd short (by decide)
    simp only [found]
    rw [if_neg zero, if_neg other, known.asciiBits_eq, cut_field enough, Option.bind_some]
  · have long : 8 < literalBits v := Nat.not_le.mp short
    have low : value (bitsOf (literalBits v) (literalCode v) ++ rest) % 0x100 = literalCode v &&& 0xFF :=
      (long_code_low inside (Nat.le_of_lt long) rest).trans (masked 8 _).symm
    have six : value (bitsOf (literalBits v) (literalCode v) ++ rest) % 0x40 = literalCode v &&& 0x3F :=
      (long_code_low inside (Nat.le_of_lt (Nat.lt_trans (by decide : 6 < 8) long)) rest).trans (masked 6 _).symm
    by_cases eight : literalCode v &&& 0xFF = 0
    · rw [if_pos (low.trans eight)]
      exact takeContinued_field ⟨inside, long, .inr (.inr ⟨eight, rfl⟩)⟩ enough
    · have escape := escape_found inside long eight
      rw [if_neg (fun zero => eight (low.symm.trans zero))]
      have found : Table.offs2c34.get (value (bitsOf (literalBits v) (literalCode v) ++ rest) % 0x100) = 0xFF :=
        (congrArg _ low).trans escape
      generalize Table.offs2c34.get (value (bitsOf (literalBits v) (literalCode v) ++ rest) % 0x100) = first at found
      rw [if_pos found]
      by_cases clear : literalCode v &&& 0x3F = 0
      · rw [if_pos (six.trans clear)]
        exact takeContinued_field ⟨inside, long, .inr (.inl ⟨eight, clear, rfl⟩)⟩ enough
      · rw [if_neg (fun zero => clear (six.symm.trans zero))]
        exact takeContinued_field ⟨inside, long, .inl ⟨eight, clear, rfl⟩⟩ enough

inductive Symbol (mode : Nat) (bits : List Bool) : Nat → List Bool → Prop
  | literal (b : UInt8) {rest : List Bool} : bits = literalStream mode b ++ rest → 8 ≤ rest.length →
      Symbol mode bits b.toNat rest
  | length {v : Nat} {r rest : List Bool} : v < 518 → bits = lengthStream v ++ r →
      (v < 517 → r = rest ∧ 8 ≤ r.length) → Symbol mode bits (v + 0x100) rest

theorem takeLiteral_some {mode code : Nat} {bits rest : List Bool}
    (taken : takeLiteral mode bits = some (code, rest)) : Symbol mode bits code rest := by
  unfold takeLiteral at taken
  simp only [Option.bind_eq_some_iff] at taken
  obtain ⟨after, first, taken⟩ := taken
  obtain ⟨enough, rfl⟩ := cut_some.mp first
  have starts := @field_split 1 bits (by omega)
  have long : 8 ≤ (bits.drop 1).length := by
    rw [List.length_drop]
    omega
  by_cases control : value bits % 2 = 1
  · rw [if_pos control] at taken
    rw [pow_one, control] at starts
    obtain ⟨v, below, rfl, r, same, more⟩ := takeLength_some long taken
    exact .length below (starts.trans same) more
  · have zero : value bits % 2 = 0 := by omega
    rw [if_neg control] at taken
    rw [pow_one, zero] at starts
    split at taken
    next binary =>
      obtain ⟨after, second, taken⟩ := Option.bind_eq_some_iff.mp taken
      obtain ⟨enough, rfl⟩ := cut_some.mp second
      obtain ⟨rfl, rfl⟩ := Prod.mk.inj (Option.some.inj taken)
      have byte := Nat.mod_lt (value (bits.drop 1)) (by decide : 0x100 > 0)
      have same := field_split long
      have number : (UInt8.ofNat (value (bits.drop 1) % 0x100)).toNat = value (bits.drop 1) % 0x100 := by
        rw [UInt8.toNat_ofNat', Nat.mod_eq_of_lt byte]
      rw [← number]
      refine .literal _ (starts.trans ?_) (by rw [List.length_drop]; omega)
      rw [literalStream, if_pos binary, number, List.cons_append]
      exact congrArg _ same
    next ascii =>
      obtain ⟨inside, same, more⟩ := takeAscii_some long taken
      have number : (UInt8.ofNat code).toNat = code := by
        rw [UInt8.toNat_ofNat', Nat.mod_eq_of_lt inside]
      rw [← number]
      refine .literal _ (starts.trans ?_) more
      rw [literalStream, if_neg ascii, number, List.cons_append]
      exact congrArg _ same

theorem takeLiteral_cons (mode : Nat) (control : Bool) {tail : List Bool} (enough : 8 ≤ tail.length) :
    takeLiteral mode (control :: tail) =
      if control = true then takeLength tail
      else if mode = cmpBinary then (cut 8 tail).bind fun after => some (value tail % 0x100, after)
      else takeAscii tail := by
  have first : cut 1 (control :: tail) = some tail := cut_some.mpr ⟨by rw [List.length_cons]; omega, rfl⟩
  have low : value (control :: tail) % 2 = 1 ↔ control = true := by
    rw [value]
    cases control
    · rw [Bool.toNat_false]
      simp
    · rw [Bool.toNat_true]
      simp
  unfold takeLiteral
  rw [first, Option.bind_some]
  simp only [low]

theorem takeLiteral_literal (mode : Nat) (b : UInt8) {rest : List Bool} (enough : 8 ≤ rest.length) :
    takeLiteral mode (literalStream mode b ++ rest) = some (b.toNat, rest) := by
  unfold literalStream
  rw [List.cons_append, takeLiteral_cons mode false (by rw [List.length_append]; omega), if_neg (by decide)]
  by_cases binary : mode = cmpBinary
  · have byte := value_bitsOf_append_mod b.toNat_lt rest
    rw [if_pos binary, if_pos binary, cut_field enough, Option.bind_some]
    exact congrArg (fun code => some (code, rest)) byte
  · rw [if_neg binary, if_neg binary]
    exact takeAscii_field b.toNat_lt enough

theorem takeLiteral_length (mode : Nat) {v : Nat} (below : v < 518) {rest : List Bool}
    (enough : v = 517 ∨ 8 ≤ rest.length) :
    ∃ r, takeLiteral mode (lengthStream v ++ rest) = some (v + 0x100, r) ∧ (8 ≤ rest.length → r = rest) := by
  obtain ⟨tail, starts⟩ : ∃ tail, lengthStream v ++ rest = true :: tail := ⟨_, rfl⟩
  have long : 8 ≤ tail.length := by
    have length := congrArg List.length starts
    rw [List.length_append, List.length_cons] at length
    rcases enough with rfl | enough
    · have : (lengthStream 517).length = 16 := rfl
      omega
    · rw [lengthStream_eq, List.length_cons] at length
      omega
  rw [starts, takeLiteral_cons mode true long, if_pos rfl]
  exact takeLength_field below starts.symm enough

theorem takeDistance_some {dsize length distance : Nat} {bits rest : List Bool} (long : 8 ≤ bits.length)
    (taken : takeDistance dsize length bits = some (distance, rest)) :
    1 ≤ distance ∧ (distance - 1) / 2 ^ suffixBits dsize length < 64 ∧
      bits = distanceStream dsize length distance ++ rest ∧ 8 ≤ rest.length := by
  obtain ⟨known, starts⟩ := distances_resolve.split long trivial
  unfold takeDistance at taken
  rw [show (0x100 : Nat) = 2 ^ 8 from rfl] at taken
  generalize Table.pos1.get (value bits % 2 ^ 8) = pos at *
  simp only [Option.bind_eq_some_iff] at taken
  obtain ⟨after, first, last, second, taken⟩ := taken
  obtain ⟨enough, rfl⟩ := cut_some.mp first
  obtain ⟨enough', rfl⟩ := cut_some.mp second
  obtain ⟨rfl, rfl⟩ := Prod.mk.inj (Option.some.inj taken)
  unfold distanceStream
  have small := Nat.mod_lt (value (bits.drop (distBits.getD pos 0))) (Nat.two_pow_pos (suffixBits dsize length))
  have same := @field_split (suffixBits dsize length) (bits.drop (distBits.getD pos 0)) (by omega)
  generalize value (bits.drop (distBits.getD pos 0)) % 2 ^ suffixBits dsize length = low at *
  have high : (pos * 2 ^ suffixBits dsize length + low + 1 - 1) / 2 ^ suffixBits dsize length = pos := by
    rw [Nat.add_sub_cancel, Nat.mul_comm, Nat.mul_add_div (Nat.two_pow_pos _), Nat.div_eq_of_lt small, Nat.add_zero]
  have rest : (pos * 2 ^ suffixBits dsize length + low + 1 - 1) % 2 ^ suffixBits dsize length = low := by
    rw [Nat.add_sub_cancel, Nat.mul_comm, Nat.mul_add_mod, Nat.mod_eq_of_lt small]
  simp only [high, rest]
  refine ⟨by omega, known, ?_, by rw [List.length_drop]; omega⟩
  rw [List.append_assoc, ← same]
  exact starts

theorem takeDistance_found {dsize length pos low : Nat} (known : pos < 64)
    (small : low < 2 ^ suffixBits dsize length) {rest : List Bool} (enough : 8 ≤ rest.length) :
    takeDistance dsize length
        (bitsOf (distBits.getD pos 0) (distCode.getD pos 0) ++ (bitsOf (suffixBits dsize length) low ++ rest)) =
      some (pos * 2 ^ suffixBits dsize length + low + 1, rest) := by
  have found := distances_resolve.found known (bitsOf (suffixBits dsize length) low ++ rest)
  rw [show (2 : Nat) ^ 8 = 0x100 from rfl] at found
  unfold takeDistance
  simp only [found]
  rw [cut_field (by rw [List.length_append]; omega), Option.bind_some, cut_field enough, Option.bind_some,
    value_bitsOf_append_mod small]

theorem takeDistance_field {dsize length distance : Nat} (positive : 1 ≤ distance)
    (known : (distance - 1) / 2 ^ suffixBits dsize length < 64) {rest : List Bool} (enough : 8 ≤ rest.length) :
    takeDistance dsize length (distanceStream dsize length distance ++ rest) = some (distance, rest) := by
  have small := Nat.mod_lt (distance - 1) (Nat.two_pow_pos (suffixBits dsize length))
  have found := @takeDistance_found dsize length _ _ known small _ enough
  rw [Nat.mul_comm, Nat.div_add_mod, Nat.sub_add_cancel positive] at found
  rw [distanceStream, List.append_assoc]
  exact found

end Pkware

end LibMpq
