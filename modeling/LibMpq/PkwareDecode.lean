import LibMpq.PkwareStream

set_option autoImplicit false

namespace LibMpq

open Effect Bitstream

namespace Pkware

def cut (n : Nat) (bits : List Bool) : Option (List Bool) :=
  if n + 8 ≤ bits.length then some (bits.drop n) else none

def takeLength (bits : List Bool) : Option (Nat × List Bool) :=
  let entry := Table.pos2.get (value bits % 0x100)
  (cut (slenBits.getD entry 0) bits).bind fun bits =>
    if clenBits.getD entry 0 = 0 then some (entry + 0x100, bits)
    else
      let x := value bits % 2 ^ clenBits.getD entry 0
      match cut (clenBits.getD entry 0) bits with
      | some rest => some (lenBase.getD entry 0 + x + 0x100, rest)
      | none => if entry + x = 0x10E then some (lenBase.getD entry 0 + x + 0x100, []) else none

def takeContinued (shift : Nat) (bits : List Bool) : Option (Nat × List Bool) :=
  (cut shift bits).bind fun bits =>
    let v := (continuation shift).1.get (value bits % 2 ^ (continuation shift).2)
    (cut (Table.bitsAsc.get v) bits).bind fun bits => some (v, bits)

def takeAscii (bits : List Bool) : Option (Nat × List Bool) :=
  let low := value bits % 0x100
  if low = 0 then takeContinued 8 bits
  else if Table.offs2c34.get low = 0xFF then
    if value bits % 0x40 = 0 then takeContinued 6 bits else takeContinued 4 bits
  else (cut (Table.bitsAsc.get (Table.offs2c34.get low)) bits).bind fun bits => some (Table.offs2c34.get low, bits)

def takeLiteral (mode : Nat) (bits : List Bool) : Option (Nat × List Bool) :=
  (cut 1 bits).bind fun rest =>
    if value bits % 2 = 1 then takeLength rest
    else if mode = cmpBinary then (cut 8 rest).bind fun after => some (value rest % 0x100, after)
    else takeAscii rest

def takeDistance (dsize length : Nat) (bits : List Bool) : Option (Nat × List Bool) :=
  let pos := Table.pos1.get (value bits % 0x100)
  (cut (distBits.getD pos 0) bits).bind fun bits =>
    (cut (suffixBits dsize length) bits).bind fun rest =>
      some (pos * 2 ^ suffixBits dsize length + value bits % 2 ^ suffixBits dsize length + 1, rest)

def Cmp.pending (s : Cmp) : Bytes :=
  (List.range' s.inPos (s.inBytes - s.inPos)).map (fun i => s.work (stagingStart + i)) ++
    s.source.drop s.sourcePos

def Cmp.bits (s : Cmp) : List Bool := bitsOf (8 + s.extraBits) s.bitBuf ++ ofBytes s.pending

structure Reading (s : Cmp) : Prop where
  extra : s.extraBits ≤ 7
  small : s.bitBuf < 2 ^ (8 + s.extraBits)
  started : 1 ≤ s.inPos
  inside : s.inPos ≤ s.inBytes
  staging : s.inBytes ≤ stagingSize

def Access.Sound : Access → Prop
  | .table t index => index < t.size
  | staged index => index < stagingSize
  | copy position back length =>
    windowHalf ≤ position ∧ position < windowSize ∧ back ≤ position ∧
      ∀ i < length, position + i < stagingStart
  | literal position => windowHalf ≤ position ∧ position < windowSize
  | moved count => windowHalf + count ≤ stagingStart

structure Passes (s t : Cmp) : Prop where
  cmpType : t.cmpType = s.cmpType
  outPos : t.outPos = s.outPos
  dsizeBits : t.dsizeBits = s.dsizeBits
  dsizeMask : t.dsizeMask = s.dsizeMask
  maxOut : t.maxOut = s.maxOut
  out : t.out = s.out
  work : ∀ j < stagingStart, t.work j = s.work j
  log : ∃ new, t.log = new ++ s.log ∧ ∀ access ∈ new, access.Sound

theorem Passes.refl (s : Cmp) : Passes s s :=
  ⟨rfl, rfl, rfl, rfl, rfl, rfl, fun _ _ => rfl, [], rfl, by simp⟩

theorem Passes.trans {s t u : Cmp} (first : Passes s t) (second : Passes t u) : Passes s u where
  cmpType := second.cmpType.trans first.cmpType
  outPos := second.outPos.trans first.outPos
  dsizeBits := second.dsizeBits.trans first.dsizeBits
  dsizeMask := second.dsizeMask.trans first.dsizeMask
  maxOut := second.maxOut.trans first.maxOut
  out := second.out.trans first.out
  work j below := (second.work j below).trans (first.work j below)
  log := by
    obtain ⟨old, log, sound⟩ := first.log
    obtain ⟨new, log', sound'⟩ := second.log
    refine ⟨new ++ old, by rw [log', log, List.append_assoc], fun access mem => ?_⟩
    rcases List.mem_append.mp mem with later | earlier
    · exact sound' access later
    · exact sound access earlier

theorem bits_length (s : Cmp) : s.bits.length = 8 + s.extraBits + 8 * s.pending.length := by
  rw [Cmp.bits, List.length_append, bitsOf_length, ofBytes_length]

theorem low_bits (s : Cmp) {n : Nat} (le : n ≤ 8) : value s.bits % 2 ^ n = s.bitBuf % 2 ^ n := by
  have split : 2 ^ (8 + s.extraBits) = 2 ^ n * 2 ^ (8 + s.extraBits - n) := by
    rw [← pow_add, Nat.add_sub_cancel' (by omega)]
  rw [Cmp.bits, value_append, value_bitsOf, bitsOf_length, split, Nat.mul_assoc, Nat.add_mul_mod_self_left,
    Nat.mod_mul_right_mod]

theorem masked_bits (s : Cmp) {n : Nat} (le : n ≤ 8) : s.bitBuf &&& (2 ^ n - 1) = value s.bits % 2 ^ n := by
  rw [low_bits s le, Nat.and_two_pow_sub_one_eq_mod]

theorem low_byte (s : Cmp) : s.bitBuf &&& 0xFF = value s.bits % 0x100 := masked_bits s (le_refl 8)

-- What is left after the refill: the staged bytes are the next bytes of the source.
theorem staged_source (source : Bytes) (start pos : Nat) {count : Nat} (work : Nat → UInt8)
    (enough : count ≤ source.length - pos) :
    (List.range' 0 count).map (fun i =>
      if start ≤ start + i ∧ start + i < start + count then source.getD (pos + (start + i - start)) 0
      else work (start + i)) ++ source.drop (pos + count) = source.drop pos := by
  have staged : (List.range' 0 count).map (fun i =>
      if start ≤ start + i ∧ start + i < start + count then source.getD (pos + (start + i - start)) 0
      else work (start + i)) = (source.drop pos).take count := by
    refine List.ext_getElem (by simp; omega) fun i inside _ => ?_
    have below : i < count := by simpa using inside
    rw [List.getElem_map, List.getElem_range', if_pos (by omega), List.getElem_take, List.getElem_drop,
      List.getD_eq_getElem?_getD, List.getElem?_eq_getElem (by omega), Option.getD_some]
    congr 1
    omega
  rw [staged, ← List.drop_drop, List.take_append_drop]

structure Positioned (s : Cmp) : Prop where
  inside : s.inPos ≤ s.inBytes
  staging : s.inBytes ≤ stagingSize

theorem refill_run {s : Cmp} (positioned : Positioned s) :
    (s.pending = [] ∧ ∃ t, refill s = .error .abort t ∧ Passes s t) ∨
      ∃ t, refill s = .ok () t ∧ t.pending = s.pending ∧ t.inPos < t.inBytes ∧ t.inBytes ≤ stagingSize ∧
        t.bitBuf = s.bitBuf ∧ t.extraBits = s.extraBits ∧ Passes s t := by
  unfold refill
  by_cases empty : s.inPos = s.inBytes
  · rw [if_pos empty]
    have pending : s.pending = s.source.drop s.sourcePos := by
      rw [Cmp.pending, empty, Nat.sub_self]
      rfl
    have work : ∀ j < stagingStart, (dataReadInput s).2.work j = s.work j := by
      intro j below
      exact if_neg (by omega)
    by_cases done : (dataReadInput s).1 = 0
    · refine .inl ⟨?_, _, if_pos done, ⟨rfl, rfl, rfl, rfl, rfl, rfl, work, [], rfl, by simp⟩⟩
      rw [pending, List.drop_eq_nil_iff]
      simp only [dataReadInput, stagingSize] at done
      omega
    · refine .inr ⟨_, if_neg done, ?_, Nat.pos_of_ne_zero done, Nat.min_le_left _ _, rfl, rfl,
        ⟨rfl, rfl, rfl, rfl, rfl, rfl, work, [], rfl, by simp⟩⟩
      rw [pending, Cmp.pending]
      exact staged_source s.source stagingStart s.sourcePos s.work (Nat.min_le_right _ _)
  · rw [if_neg empty]
    exact .inr ⟨s, rfl, rfl, Nat.lt_of_le_of_ne positioned.inside empty, positioned.staging, rfl, rfl, .refl s⟩

theorem nextByte_run {s : Cmp} (positioned : Positioned s) :
    (s.pending = [] ∧ ∃ t, nextByte s = .error .abort t ∧ Passes s t) ∨
      ∃ b rest t, s.pending = b :: rest ∧ nextByte s = .ok b.toNat t ∧ t.pending = rest ∧ 1 ≤ t.inPos ∧
        Positioned t ∧ t.bitBuf = s.bitBuf ∧ t.extraBits = s.extraBits ∧ Passes s t := by
  unfold nextByte
  rcases refill_run positioned with ⟨empty, t, run, passes⟩ | ⟨t, run, pending, inside, staging, bitBuf, extra, passes⟩
  · exact .inl ⟨empty, t, bind_of_error run _, passes⟩
  · have cons : t.pending = t.work (stagingStart + t.inPos) ::
        ((List.range' (t.inPos + 1) (t.inBytes - (t.inPos + 1))).map (fun i => t.work (stagingStart + i)) ++
          t.source.drop t.sourcePos) := by
      have count : t.inBytes - t.inPos = t.inBytes - (t.inPos + 1) + 1 := by omega
      rw [Cmp.pending, count, List.range'_succ]
      rfl
    refine .inr ⟨_, _, { t with inPos := t.inPos + 1, log := .staged t.inPos :: t.log }, pending ▸ cons, ?_, rfl,
      by simp, ⟨inside, staging⟩, bitBuf, extra, passes.trans ?_⟩
    · rw [bind_of_ok run]
      rfl
    · refine ⟨rfl, rfl, rfl, rfl, rfl, rfl, fun _ _ => rfl, [.staged t.inPos], rfl, fun access mem => ?_⟩
      rw [List.mem_singleton.mp mem]
      exact inside.trans_le staging

theorem refilled_bits {buf b n extra : Nat} (small : buf < 2 ^ (8 + extra)) (byte : b < 2 ^ 8)
    (beyond : extra < n) (le : n ≤ 8 + extra) :
    (buf >>> extra ||| b <<< 8) >>> (n - extra) < 2 ^ (8 + (extra + 8 - n)) ∧
      bitsOf (8 + (extra + 8 - n)) ((buf >>> extra ||| b <<< 8) >>> (n - extra)) =
        (bitsOf (8 + extra) buf ++ bitsOf 8 b).drop n := by
  have high : buf / 2 ^ extra < 2 ^ 8 := by
    refine Nat.div_lt_of_lt_mul ?_
    rwa [← pow_add, Nat.add_comm]
  have width : 8 + (extra + 8 - n) = 16 - (n - extra) := by omega
  rw [width, ← Nat.add_sub_cancel' (Nat.le_of_lt beyond), ← List.drop_drop,
    List.drop_append_of_le_length (by rw [bitsOf_length]; omega), drop_bitsOf (by omega),
    Nat.add_sub_cancel, Nat.shiftRight_eq_div_pow buf, Nat.add_sub_cancel_left]
  generalize buf / 2 ^ extra = low at high ⊢
  have joined : low ||| b <<< 8 = low + 2 ^ 8 * b := by
    rw [Nat.or_comm, ← Nat.shiftLeft_add_eq_or_of_lt high, Nat.shiftLeft_eq]
    omega
  have both : bitsOf 16 (low + 2 ^ 8 * b) = bitsOf 8 low ++ bitsOf 8 b := by
    have below : (low + 2 ^ 8 * b) % 2 ^ 8 = low := by omega
    have above : (low + 2 ^ 8 * b) / 2 ^ 8 = b := by omega
    rw [bitsOf_add 8 8, above, ← bitsOf_mod 8 (low + _), below]
  rw [joined, Nat.shiftRight_eq_div_pow, ← both, drop_bitsOf (by omega)]
  refine ⟨Nat.div_lt_of_lt_mul ?_, rfl⟩
  rw [← pow_add, Nat.add_sub_cancel' (by omega)]
  omega

theorem skipBit_run {s : Cmp} (reading : Reading s) {n : Nat} (le : n ≤ 8) :
    (n + 8 ≤ s.bits.length ∧ ∃ t, skipBit n s = .ok () t ∧ Reading t ∧ t.bits = s.bits.drop n ∧ Passes s t) ∨
      (s.bits.length < n + 8 ∧ ∃ t, skipBit n s = .error .abort t ∧ Passes s t) := by
  have length := bits_length s
  have pass : ∀ bitBuf extraBits, Passes s { s with bitBuf, extraBits } := fun _ _ =>
    ⟨rfl, rfl, rfl, rfl, rfl, rfl, fun _ _ => rfl, [], rfl, by simp⟩
  by_cases held : n ≤ s.extraBits
  · have run : skipBit n s = .ok () { s with extraBits := s.extraBits - n, bitBuf := s.bitBuf >>> n } := by
      unfold skipBit
      rw [bind_of_ok (get_run s), if_pos held, set_run]
    refine .inl ⟨by omega, _, run, ⟨?_, ?_, reading.started, reading.inside, reading.staging⟩, ?_, pass _ _⟩
    · have := reading.extra
      simp only
      omega
    · rw [Nat.shiftRight_eq_div_pow]
      refine Nat.div_lt_of_lt_mul ?_
      rw [← pow_add, show n + (8 + (s.extraBits - n)) = 8 + s.extraBits by omega]
      exact reading.small
    · rw [Cmp.bits, Cmp.bits, List.drop_append_of_le_length (by rw [bitsOf_length]; omega), drop_bitsOf (by omega),
        Nat.shiftRight_eq_div_pow, show 8 + (s.extraBits - n) = 8 + s.extraBits - n by omega]
      rfl
  · let u : Cmp := { s with bitBuf := s.bitBuf >>> s.extraBits }
    have begin_ : skipBit n s = (nextByte >>= fun byte => modify fun s =>
        { s with
          bitBuf := (s.bitBuf ||| byte <<< 8) >>> (n - s.extraBits)
          extraBits := s.extraBits + 8 - n }) u := by
      unfold skipBit
      rw [bind_of_ok (get_run s), if_neg held, bind_of_ok (set_run u s)]
    rcases nextByte_run (s := u) ⟨reading.inside, reading.staging⟩ with
      ⟨empty, t, run, passes⟩ | ⟨b, rest, t, pending, run, after, started, positioned, bitBuf, extra, passes⟩
    · refine .inr ⟨?_, t, by rw [begin_, bind_of_error run], (pass _ _).trans passes⟩
      have none : s.pending = [] := empty
      rw [none, List.length_nil] at length
      omega
    · have pending : s.pending = b :: rest := pending
      have byte := b.toNat_lt
      have le' : n ≤ 8 + s.extraBits := by omega
      obtain ⟨small, bits⟩ := refilled_bits reading.small byte (Nat.not_le.mp held) le'
      let v : Cmp :=
        { t with
          bitBuf := (t.bitBuf ||| b.toNat <<< 8) >>> (n - t.extraBits)
          extraBits := t.extraBits + 8 - n }
      have ends : skipBit n s = .ok () v := by rw [begin_, bind_of_ok run, modify_run]
      have moved : Passes t v := ⟨rfl, rfl, rfl, rfl, rfl, rfl, fun _ _ => rfl, [], rfl, by simp⟩
      have extra : v.extraBits = s.extraBits + 8 - n := congrArg (· + 8 - n) extra
      have bitBuf : v.bitBuf = (s.bitBuf >>> s.extraBits ||| b.toNat <<< 8) >>> (n - s.extraBits) := by
        simp only [v, bitBuf, ‹t.extraBits = u.extraBits›, u]
      refine .inl ⟨?_, v, ends, ⟨?_, ?_, started, positioned.inside, positioned.staging⟩, ?_,
        ((pass _ _).trans passes).trans moved⟩
      · rw [pending, List.length_cons] at length
        omega
      · omega
      · rw [extra, bitBuf]
        exact small
      · have whole : s.bits = bitsOf (8 + s.extraBits) s.bitBuf ++ bitsOf 8 b.toNat ++ ofBytes rest := by
          rw [Cmp.bits, pending, ofBytes_cons, List.append_assoc]
        have left : v.pending = rest := after
        rw [whole, List.drop_append_of_le_length (by rw [List.length_append, bitsOf_length, bitsOf_length]; omega),
          ← bits, Cmp.bits, extra, bitBuf, left]

def Follows (stays : Nat → Prop) (s : Cmp) (expected : Option (Nat × List Bool))
    (result : EStateM.Result Stop Cmp Nat) : Prop :=
  match expected with
  | none => ∃ t, result = .error .abort t ∧ Passes s t
  | some (code, rest) => ∃ t, result = .ok code t ∧ Passes s t ∧ (stays code → Reading t ∧ t.bits = rest)

section follows

variable {stays : Nat → Prop} {s t : Cmp} (passes : Passes s t) (reading : Reading t)
include passes reading

theorem Follows.pure (code : Nat) : Follows stays s (some (code, t.bits)) ((Pure.pure code : Step Nat) t) :=
  ⟨t, rfl, passes, fun _ => ⟨reading, rfl⟩⟩

theorem Follows.skip {n : Nat} (le : n ≤ 8) {g : List Bool → Option (Nat × List Bool)} {f : Unit → Step Nat}
    (next : ∀ u, Passes s u → Reading u → u.bits = t.bits.drop n → Follows stays s (g u.bits) (f () u)) :
    Follows stays s ((cut n t.bits).bind g) ((skipBit n >>= f) t) := by
  rcases skipBit_run reading le with ⟨enough, u, run, after, bits, moved⟩ | ⟨short, u, run, moved⟩
  · rw [cut, if_pos enough, Option.bind_some, ← bits, bind_of_ok run]
    exact next u (passes.trans moved) after bits
  · rw [cut, if_neg (Nat.not_le.mpr short), Option.bind_none, bind_of_error run]
    exact ⟨u, rfl, passes.trans moved⟩

theorem Follows.look {table : Table} {i : Nat} (inside : i < table.size) {expected : Option (Nat × List Bool)}
    {f : Nat → Step Nat}
    (next : ∀ u, Passes s u → Reading u → u.bits = t.bits → Follows stays s expected (f (table.get i) u)) :
    Follows stays s expected ((Pkware.look table i >>= f) t) := by
  let u : Cmp := { t with log := .table table i :: t.log }
  have run : Pkware.look table i t = .ok (table.get i) u := rfl
  have touched : Passes t u := by
    refine ⟨rfl, rfl, rfl, rfl, rfl, rfl, fun _ _ => rfl, [.table table i], rfl, fun access mem => ?_⟩
    rw [List.mem_singleton.mp mem]
    exact inside
  rw [bind_of_ok run]
  exact next u (passes.trans touched)
    ⟨reading.extra, reading.small, reading.started, reading.inside, reading.staging⟩ rfl

end follows

theorem bitBuf_bind {α : Type} (f : Nat → Step α) (s : Cmp) : (bitBuf >>= f) s = f s.bitBuf s := rfl

theorem get_bind {α : Type} (f : Cmp → Step α) (s : Cmp) : ((get : Step Cmp) >>= f) s = f s s := rfl

theorem bits_long {s : Cmp} : 8 ≤ s.bits.length := by
  rw [bits_length]
  omega

theorem byte_inside {table : Table} (size : table.size = 0x100) (n : Nat) : n % 0x100 < table.size := by
  rw [size]
  exact Nat.mod_lt n (by decide)

theorem slen_le : ∀ entry < 16, slenBits.getD entry 0 ≤ 8 := by decide

theorem clen_le : ∀ entry < 16, clenBits.getD entry 0 ≤ 8 := by decide

theorem dist_le : ∀ pos < 64, distBits.getD pos 0 ≤ 8 := by decide

theorem decodeLength_follows {s t : Cmp} (passes : Passes s t) (reading : Reading t) :
    Follows (· < 0x305) s (takeLength t.bits) (decodeLength t) := by
  have known : Table.pos2.get (value t.bits % 0x100) < 16 := (lengths_resolve.split bits_long trivial).1
  have slen := slen_le _ known
  have clen := clen_le _ known
  unfold decodeLength takeLength
  rw [bitBuf_bind, low_byte]
  refine Follows.look passes reading (byte_inside rfl _) fun u passes reading same => ?_
  generalize Table.pos2.get (value t.bits % 0x100) = entry at *
  refine Follows.look passes reading known fun u passes reading same' => ?_
  rw [← same, ← same']
  refine Follows.skip passes reading slen fun u passes reading _ => ?_
  refine Follows.look passes reading known fun u passes reading same => ?_
  rw [← same]
  by_cases plain : clenBits.getD entry 0 = 0
  · have width : Table.clenBits.get entry = 0 := plain
    rw [width, if_neg (not_not.mpr rfl), if_pos plain]
    exact Follows.pure passes reading _
  · have width : Table.clenBits.get entry = clenBits.getD entry 0 := rfl
    rw [width, if_pos plain, if_neg plain, bitBuf_bind, Nat.one_shiftLeft, masked_bits u clen]
    have small := Nat.mod_lt (value u.bits) (Nat.two_pow_pos (clenBits.getD entry 0))
    have few : 2 ^ clenBits.getD entry 0 ≤ 2 ^ 8 := Nat.pow_le_pow_right (by decide) clen
    generalize value u.bits % 2 ^ clenBits.getD entry 0 = x at small ⊢
    have base : ∀ v, Passes s v → Reading v → Follows (· < 0x305) s
        (some (lenBase.getD entry 0 + x + 0x100, v.bits))
        ((look .lenBase entry >>= fun base => (pure (base + x + 0x100) : Step Nat)) v) := by
      intro v passes reading
      refine Follows.look passes reading known fun w passes reading same => ?_
      rw [← same]
      exact Follows.pure passes reading _
    rcases skipBit_run reading clen with ⟨enough, v, run, after, bits, moved⟩ | ⟨short, v, run, moved⟩
    · have kept : attempt (skipBit (clenBits.getD entry 0)) u = .ok (some ()) v := by
        unfold attempt
        rw [run]
      rw [cut, if_pos enough, ← bits, bind_of_ok kept, bind_of_ok (failIf_false (by simp) _ _)]
      exact base v (passes.trans moved) after
    · have lost : attempt (skipBit (clenBits.getD entry 0)) u = .ok none v := by
        unfold attempt
        rw [run]
      rw [cut, if_neg (Nat.not_le.mpr short), bind_of_ok lost]
      simp only
      by_cases ends : entry + x = 0x10E
      · rw [if_pos ends, bind_of_ok (failIf_false (by simp [ends]) _ _)]
        -- Only the last entry with its greatest extra value adds up to this.
        obtain rfl : entry = 15 := by omega
        obtain rfl : x = 0xFF := by omega
        let w : Cmp := { v with log := .table .lenBase 15 :: v.log }
        have touched : Passes v w := by
          refine ⟨rfl, rfl, rfl, rfl, rfl, rfl, fun _ _ => rfl, [.table .lenBase 15], rfl, fun access mem => ?_⟩
          rw [List.mem_singleton.mp mem]
          exact known
        exact ⟨w, rfl, (passes.trans moved).trans touched, fun stays => absurd stays (by decide)⟩
      · rw [if_neg ends, bind_of_error (failIf_true ⟨rfl, ends⟩ _ _)]
        exact ⟨v, rfl, passes.trans moved⟩

theorem bitsAsc_le {v : Nat} (inside : v < 0x100) : Table.bitsAsc.get v ≤ 8 := by
  obtain ⟨most, -, rest⟩ := literal_codes inside
  rw [bitsAsc_get inside, asciiBits]
  split
  · assumption
  next long =>
  have fewer := (rest (Nat.not_le.mp long)).2
  split
  · split
    next four =>
      rw [show literalCode v &&& 0x3F = literalCode v % 0x40 from Nat.and_two_pow_sub_one_eq_mod _ 6] at four
      have := fewer four
      omega
    next => omega
  · omega

theorem continued_follows {s t : Cmp} (passes : Passes s t) (reading : Reading t) {shift mask : Nat}
    (known : shift = 4 ∨ shift = 6 ∨ shift = 8) (masks : mask = 2 ^ (continuation shift).2 - 1)
    (escaped : Escaped shift (value (t.bits.drop shift) % 2 ^ (continuation shift).2)) (stays : Nat → Prop) :
    Follows stays s (takeContinued shift t.bits)
      ((skipBit shift >>= fun _ => bitBuf >>= fun buf => look (continuation shift).1 (buf &&& mask) >>= fun v =>
        look .bitsAsc v >>= fun width => skipBit width >>= fun _ => pure v) t) := by
  have width : (continuation shift).2 ≤ 8 := by rcases known with rfl | rfl | rfl <;> decide
  have size : (continuation shift).1.size = 2 ^ (continuation shift).2 := by
    rcases known with rfl | rfl | rfl <;> rfl
  unfold takeContinued
  refine Follows.skip passes reading (by omega) fun u passes reading bits => ?_
  rw [bitBuf_bind, masks, masked_bits u width]
  have long : (continuation shift).2 ≤ u.bits.length := width.trans bits_long
  have inside := ((continued_resolve known).split long (by rwa [bits])).1.inside
  refine Follows.look passes reading (by rw [size]; exact Nat.mod_lt _ (Nat.two_pow_pos _))
    fun v passes reading same => ?_
  refine Follows.look passes reading inside fun w passes reading same' => ?_
  rw [← same, ← same']
  refine Follows.skip passes reading ?_ fun x passes reading _ => Follows.pure passes reading _
  rw [same', same]
  exact bitsAsc_le inside

theorem escape_low {x : Nat} (below : x < 0x100) (positive : x ≠ 0) (escape : Table.offs2c34.get x = 0xFF) :
    x % 0x10 = 0 := by
  have all : ∀ x < 0x100, x ≠ 0 → cell .offs2c34 generateTablesAscii x = 0xFF → x % 0x10 = 0 := by decide +kernel
  exact all x below positive (escape_cell below positive ▸ escape)

theorem decodeAscii_follows {s t : Cmp} (passes : Passes s t) (reading : Reading t) (stays : Nat → Prop) :
    Follows stays s (takeAscii t.bits) (decodeAscii t) := by
  have dropped : ∀ shift ≤ 8, value (t.bits.drop shift) = value t.bits / 2 ^ shift := fun shift le =>
    value_drop _ (le.trans bits_long)
  unfold decodeAscii takeAscii
  rw [bitBuf_bind, low_byte]
  by_cases zero : value t.bits % 0x100 = 0
  · rw [if_neg (not_not.mpr zero), if_pos zero]
    simp only [bind_assoc]
    exact continued_follows passes reading (.inr (.inr rfl)) rfl trivial stays
  rw [if_pos zero, if_neg zero]
  simp only [bind_assoc]
  have below := Nat.mod_lt (value t.bits) (by decide : 0x100 > 0)
  have known := fun escape => (short_resolve.split bits_long ⟨zero, escape⟩).1.1
  have low := escape_low below zero
  have cell : Table.offs2c34.get (value t.bits % 0x100) = 0xFF →
      Table.offs2c34.get (value t.bits / 2 ^ 4 % 2 ^ (continuation 4).2 % 0x10 * 0x10) = 0xFF := by
    intro escape
    have back : value t.bits / 2 ^ 4 % 2 ^ (continuation 4).2 % 0x10 * 0x10 = value t.bits % 0x100 := by
      have := low escape
      simp only [continuation]
      omega
    rw [back, escape]
  refine Follows.look passes reading (byte_inside rfl _) ?_
  generalize Table.offs2c34.get (value t.bits % 0x100) = first at *
  intro u passes reading same
  by_cases escape : first = 0xFF
  · have low := low escape
    have masked : u.bitBuf &&& 0x3F = value t.bits % 0x40 := by
      rw [← same]
      exact masked_bits u (by decide : 6 ≤ 8)
    rw [if_pos escape, if_pos escape]
    simp only [bind_assoc]
    rw [bitBuf_bind, masked]
    by_cases six : value t.bits % 0x40 = 0
    · rw [if_pos six, if_neg (not_not.mpr six)]
      simp only [bind_assoc]
      rw [← same]
      refine continued_follows passes reading (.inr (.inl rfl)) rfl ?_ stays
      rw [same, dropped 6 (by decide)]
      simp only [Escaped, continuation]
      omega
    · rw [if_neg six, if_pos six]
      simp only [bind_assoc]
      rw [← same]
      refine continued_follows passes reading (.inl rfl) rfl ?_ stays
      rw [same, dropped 4 (by decide)]
      refine ⟨?_, cell escape⟩
      simp only [continuation]
      omega
  · have inside := known escape
    rw [if_neg escape, if_neg escape, ← same]
    simp only [pure_bind]
    refine Follows.look passes reading inside fun v passes reading same' => ?_
    rw [← same']
    exact Follows.skip passes reading (bitsAsc_le inside) fun w passes reading _ => Follows.pure passes reading _

theorem decodeLiteral_follows {s t : Cmp} (passes : Passes s t) (reading : Reading t) :
    Follows (· < 0x305) s (takeLiteral t.cmpType t.bits) (decodeLiteral t) := by
  have first : t.bitBuf &&& 1 = value t.bits % 2 := masked_bits t (by decide : 1 ≤ 8)
  unfold decodeLiteral takeLiteral
  rw [bitBuf_bind, first]
  by_cases control : value t.bits % 2 = 1
  · rw [if_pos (by omega)]
    refine Follows.skip passes reading (by decide) fun u passes reading _ => ?_
    rw [if_pos control]
    exact decodeLength_follows passes reading
  · rw [if_neg (by omega)]
    have mode : t.cmpType = s.cmpType := passes.cmpType
    refine Follows.skip passes reading (by decide) fun u passes reading _ => ?_
    rw [if_neg control, get_bind, passes.cmpType, mode]
    by_cases binary : s.cmpType = cmpBinary
    · rw [if_pos binary, if_pos binary, bitBuf_bind, low_byte]
      exact Follows.skip passes reading (by decide) fun v passes reading _ => Follows.pure passes reading _
    · rw [if_neg binary, if_neg binary]
      exact decodeAscii_follows passes reading _

theorem suffixed {pos suffix low : Nat} (small : low < 2 ^ suffix) : pos <<< suffix ||| low = pos * 2 ^ suffix + low := by
  rw [← Nat.shiftLeft_add_eq_or_of_lt small, Nat.shiftLeft_eq]

theorem decodeDistance_follows {s t : Cmp} (passes : Passes s t) (reading : Reading t) {length : Nat}
    (dsize : t.dsizeBits ≤ 8) (mask : t.dsizeMask = 2 ^ t.dsizeBits - 1) :
    Follows (fun _ => True) s (takeDistance t.dsizeBits length t.bits) (decodeDistance length t) := by
  have known : Table.pos1.get (value t.bits % 0x100) < 64 := (distances_resolve.split bits_long trivial).1
  have bits := dist_le _ known
  unfold decodeDistance takeDistance
  rw [bitBuf_bind, low_byte]
  refine Follows.look passes reading (byte_inside rfl _) fun u passes' reading same => ?_
  generalize Table.pos1.get (value t.bits % 0x100) = pos at *
  refine Follows.look passes' reading known fun u passes' reading same' => ?_
  rw [← same, ← same']
  refine Follows.skip passes' reading bits fun u passes' reading _ => ?_
  rw [get_bind]
  by_cases two : length = 2
  · have low : u.bitBuf &&& 0x03 = value u.bits % 2 ^ 2 := masked_bits u (by decide : 2 ≤ 8)
    rw [if_pos two, suffixBits, if_pos two, low, suffixed (Nat.mod_lt _ (Nat.two_pow_pos 2))]
    exact Follows.skip passes' reading (by decide) fun v passes reading _ => Follows.pure passes reading _
  · have bits : u.dsizeBits = t.dsizeBits := passes'.dsizeBits.trans passes.dsizeBits.symm
    have low : u.bitBuf &&& u.dsizeMask = value u.bits % 2 ^ t.dsizeBits := by
      rw [passes'.dsizeMask, ← passes.dsizeMask, mask, masked_bits u dsize]
    rw [if_neg two, suffixBits, if_neg two, low, bits, suffixed (Nat.mod_lt _ (Nat.two_pow_pos _))]
    exact Follows.skip passes' reading dsize fun v passes reading _ => Follows.pure passes reading _

end Pkware

end LibMpq
