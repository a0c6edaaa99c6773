import LibMpq.PkwareWindow

set_option autoImplicit false

namespace LibMpq

open Effect Bitstream

namespace Pkware

structure Advanced (f : Format) (e : Bytes) (token : Token) (s t : Cmp) : Prop where
  windowed : Windowed (token.expand e) t
  keeps : Keeps f t
  maxOut : t.maxOut = s.maxOut
  log : ∃ new, t.log = new ++ s.log ∧ ((∀ access ∈ new, access.Sound) ↔ token.Fits e)

theorem Windowed.copy_sound {e : Bytes} {s : Cmp} (windowed : Windowed e s) {length distance : Nat} (le : length ≤ 518) (near : distance ≤ windowHalf) :
    (Access.copy s.outPos distance length).Sound ↔ (Token.copy length distance).Fits e := by
  have upper := windowed.upper
  have room := windowed.room
  have outPos := windowed.outPos
  have back : distance ≤ s.outPos := near.trans upper
  rw [Access.Sound, Token.Fits]
  constructor
  case mp =>
    rintro ⟨-, -, -, inside⟩ ⟨rfl, last⟩
    have := inside 517 (by decide)
    simp only [windowHalf, stagingStart] at *
    omega
  case mpr =>
    refine fun fits => ⟨upper, room, back, fun i below => ?_⟩
    simp only [windowHalf, windowSize, stagingStart] at *
    omega

section round

variable {f : Format} {e : Bytes} {s : Cmp} (windowed : Windowed e s) (keeps : Keeps f s)
include windowed keeps

theorem literal_run (b : UInt8) :
    ∃ t, (expandCode b.toNat >>= fun _ => flush) s = .ok () t ∧ Advanced f e (.literal b) s t ∧ t.bits = s.bits := by
  have room := windowed.room
  let u : Cmp :=
    { s with
      work := Function.update s.work s.outPos b, outPos := s.outPos + 1, log := .literal s.outPos :: s.log }
  have touched : touch (.literal s.outPos) s = .ok () { s with log := .literal s.outPos :: s.log } := rfl
  have run : expandCode b.toNat s = .ok () u := by
    have below : ¬ b.toNat ≥ 0x100 := Nat.not_le.mpr b.toNat_lt
    unfold expandCode
    rw [get_bind, if_neg below, bind_of_ok touched, modify_run, UInt8.ofNat_toNat]
  have work : ∀ j, stagingStart < j → u.work j = s.work j := by
    intro j above
    refine Function.update_of_ne ?_ _ _
    simp only [windowSize, stagingStart] at *
    omega
  obtain ⟨reading, bits⟩ := @reading_of_work s u keeps.reading rfl rfl rfl rfl rfl rfl work
  have holds : Holds (e ++ [b]) u := by
    obtain ⟨halves, length, out⟩ := windowed.position
    have upper := windowed.upper
    refine ⟨Nat.le_succ_of_le upper, ⟨halves, ?_, ?_⟩, windowed.ends.push b⟩
    · have outPos : u.outPos = s.outPos + 1 := rfl
      rw [List.length_append, List.length_singleton, outPos]
      generalize windowHalf = half at *
      omega
    · rw [List.take_append_of_le_length (by omega)]
      exact out
  have position : u.outPos = s.outPos + 1 := rfl
  have most : u.outPos ≤ stagingStart := by
    simp only [windowSize, stagingStart] at *
    omega
  obtain ⟨t, flushed, windowed', keeps', bits', maxOut, new, log, sound⟩ :=
    @flush_run f _ u holds ⟨reading, keeps.mode, keeps.dsizeBits, keeps.dsizeMask⟩ (Nat.le_succ_of_le most)
  refine ⟨t, by rw [bind_of_ok run, flushed], ⟨windowed', keeps', maxOut, new ++ [.literal s.outPos], ?_, ?_⟩,
    bits'.trans bits⟩
  · rw [log, List.append_assoc]
    rfl
  · refine iff_of_true (fun access mem => ?_) trivial
    rcases List.mem_append.mp mem with later | here
    · exact sound most access later
    · rw [List.mem_singleton.mp here]
      exact ⟨windowed.upper, room⟩

theorem copy_run (valid : f.Valid) {length : Nat} (two : 2 ≤ length) (le : length ≤ 518) :
    (takeDistance f.dsize length s.bits = none ∧
      ∃ t, (expandCode (length + 0xFE) >>= fun _ => flush) s = .error .abort t ∧ Passes s t) ∨
    ∃ distance rest t, takeDistance f.dsize length s.bits = some (distance, rest) ∧
      (expandCode (length + 0xFE) >>= fun _ => flush) s = .ok () t ∧
      Advanced f e (.copy length distance) s t ∧ t.bits = rest := by
  have small : s.dsizeBits ≤ 8 := by
    have := valid.dsize.2
    have := keeps.dsizeBits
    omega
  have follows := @decodeDistance_follows s s (.refl s) keeps.reading length small
    (by rw [keeps.dsizeBits, keeps.dsizeMask])
  rw [keeps.dsizeBits] at follows
  have matched : length + 0xFE ≥ 0x100 := by omega
  have begins : expandCode (length + 0xFE) s = (decodeDistance length >>= fun back => touch (.copy s.outPos back length) >>=
      fun _ => modify fun s =>
        { s with
          work := copyBytes length s.outPos (s.outPos - back) s.work
          outPos := s.outPos + length }) s := by
    unfold expandCode
    rw [get_bind, if_pos matched, Nat.add_sub_cancel]
  cases taken : takeDistance f.dsize length s.bits with
  | none =>
    rw [taken] at follows
    obtain ⟨t, run, passes⟩ := follows
    exact .inl ⟨rfl, t, by rw [bind_run, begins, bind_of_error run], passes⟩
  | some found =>
    obtain ⟨distance, rest⟩ := found
    rw [taken] at follows
    obtain ⟨t, run, passes, stays⟩ := follows
    obtain ⟨reading, bits⟩ := stays trivial
    obtain ⟨positive, known, -, -⟩ := takeDistance_some bits_long taken
    have near : distance ≤ windowHalf := by
      have width : suffixBits f.dsize length ≤ 6 := by
        unfold suffixBits
        have := valid.dsize.2
        split <;> omega
      have power : 2 ^ suffixBits f.dsize length ≤ 2 ^ 6 := Nat.pow_le_pow_right (by decide) width
      have most := (Nat.div_lt_iff_lt_mul (Nat.two_pow_pos _)).mp known
      have := Nat.mul_le_mul_left 64 power
      simp only [windowHalf]
      omega
    have windowed' := windowed.passes passes
    have keeps' := passes.keeps reading keeps
    have upper := windowed'.upper
    have room := windowed'.room
    let u : Cmp :=
      { t with
        work := copyBytes length t.outPos (t.outPos - distance) t.work, outPos := t.outPos + length
        log := .copy t.outPos distance length :: t.log }
    have touched : touch (.copy t.outPos distance length) t = .ok () { t with log := .copy t.outPos distance length :: t.log } :=
      rfl
    have copied : expandCode (length + 0xFE) s = .ok () u := by
      rw [begins, bind_of_ok run, ← passes.outPos, bind_of_ok touched, modify_run]
    have position : u.outPos = t.outPos + length := rfl
    have most : u.outPos ≤ stagingStart + 1 := by
      simp only [windowSize, stagingStart] at *
      omega
    have work : ∀ j, stagingStart < j → u.work j = t.work j := by
      intro j above
      exact copyBytes_other _ _ (.inr (by omega))
    obtain ⟨reading', bits'⟩ := @reading_of_work t u reading rfl rfl rfl rfl rfl rfl work
    have holds : Holds (repeatBack length distance e) u := by
      obtain ⟨halves, total, out⟩ := windowed'.position
      refine ⟨upper.trans (Nat.le_add_right _ _), ⟨halves, ?_, ?_⟩,
        windowed'.ends.copy positive length (near.trans upper)⟩
      · rw [repeatBack_length, position]
        generalize windowHalf = half at *
        omega
      · obtain ⟨tail, grown⟩ := repeatBack_append length distance e
        rw [grown, List.take_append_of_le_length (by omega)]
        exact out
    obtain ⟨v, flushed, windowed'', keeps'', bits'', maxOut, new, log, sound⟩ :=
      @flush_run f _ u holds ⟨reading', keeps'.mode, keeps'.dsizeBits, keeps'.dsizeMask⟩ most
    obtain ⟨old, logged, passed⟩ := passes.log
    refine .inr ⟨distance, rest, v, rfl, by rw [bind_of_ok copied, flushed],
      ⟨windowed'', keeps'', maxOut.trans passes.maxOut, new ++ .copy t.outPos distance length :: old, ?_, ?_⟩,
      bits''.trans (bits'.trans bits)⟩
    · rw [log, List.append_assoc, List.cons_append, ← logged]
    · rw [← windowed'.copy_sound le near]
      constructor
      case mp => exact fun all => all _ (by simp)
      case mpr =>
        intro fits access mem
        have inside : u.outPos ≤ stagingStart := by
          have last := fits.2.2.2 (length - 1) (by omega)
          omega
        rcases List.mem_append.mp mem with later | here
        · exact sound inside access later
        · rcases List.mem_cons.mp here with rfl | earlier
          · exact fits
          · exact passed access earlier

end round

def scan (f : Format) : Nat → List Bool → List Token × Bool
  | 0, _ => ([], false)
  | fuel + 1, bits =>
    match takeLiteral f.mode bits with
    | none => ([], false)
    | some (code, rest) =>
      if code < 0x100 then
        let (tokens, ended) := scan f fuel rest
        (.literal (UInt8.ofNat code) :: tokens, ended)
      else if code < 0x305 then
        match takeDistance f.dsize (code - 0xFE) rest with
        | none => ([], false)
        | some (distance, rest) =>
          let (tokens, ended) := scan f fuel rest
          (.copy (code - 0xFE) distance :: tokens, ended)
      else ([], true)

section scan

variable {f : Format} (fuel : Nat) {bits : List Bool}

theorem scan_stuck (taken : takeLiteral f.mode bits = none) : scan f (fuel + 1) bits = ([], false) := by
  rw [scan, taken]

theorem scan_literal {b : UInt8} {rest : List Bool} (taken : takeLiteral f.mode bits = some (b.toNat, rest)) :
    scan f (fuel + 1) bits = (.literal b :: (scan f fuel rest).1, (scan f fuel rest).2) := by
  rw [scan, taken]
  simp only
  rw [if_pos b.toNat_lt, UInt8.ofNat_toNat]

theorem scan_length {v : Nat} (below : v < 517) {rest : List Bool}
    (taken : takeLiteral f.mode bits = some (v + 0x100, rest)) :
    scan f (fuel + 1) bits =
      match takeDistance f.dsize (v + 2) rest with
      | none => ([], false)
      | some (distance, rest) => (.copy (v + 2) distance :: (scan f fuel rest).1, (scan f fuel rest).2) := by
  have length : v + 0x100 - 0xFE = v + 2 := by omega
  rw [scan, taken]
  simp only
  rw [if_neg (by omega), if_pos (by omega), length]

theorem scan_terminator {rest : List Bool} (taken : takeLiteral f.mode bits = some (517 + 0x100, rest)) :
    scan f (fuel + 1) bits = ([], true) := by
  rw [scan, taken]
  rfl

end scan

theorem Symbol.shorter {mode code : Nat} {bits rest : List Bool} (symbol : Symbol mode bits code rest)
    (below : code < 0x305) : rest.length < bits.length := by
  cases symbol with
  | literal b starts _ =>
    rw [starts, literalStream, List.cons_append, List.length_cons, List.length_append]
    omega
  | @length v r rest _ starts more =>
    obtain ⟨rfl, -⟩ := more (by omega)
    rw [starts, lengthStream_eq, List.cons_append, List.length_cons, List.length_append]
    omega

theorem takeDistance_le {dsize length distance : Nat} {bits rest : List Bool}
    (taken : takeDistance dsize length bits = some (distance, rest)) : rest.length ≤ bits.length := by
  unfold takeDistance at taken
  generalize Table.pos1.get (value bits % 0x100) = pos at taken
  simp only [Option.bind_eq_some_iff] at taken
  obtain ⟨after, first, last, second, taken⟩ := taken
  obtain ⟨-, rfl⟩ := cut_some.mp first
  obtain ⟨-, rfl⟩ := cut_some.mp second
  obtain ⟨-, rfl⟩ := Prod.mk.inj (Option.some.inj taken)
  rw [List.length_drop, List.length_drop]
  omega

theorem loop_round (fuel : Nat) (s : Cmp) :
    expandLoop (fuel + 1) s = (decodeLiteral >>= fun code =>
      if code < 0x305 then expandCode code >>= fun _ => flush >>= fun _ => expandLoop fuel else pure ()) s := rfl

structure Expanded (e : Bytes) (s : Cmp) (scanned : List Token × Bool) (result : EStateM.Result Stop Cmp Unit) :
    Prop where
  run : ∃ t, result = (if scanned.2 = true then .ok () t else .error .abort t) ∧
    Windowed (scanned.1.foldl Token.expand e) t ∧ t.maxOut = s.maxOut ∧
    ∃ new, t.log = new ++ s.log ∧ ((∀ access ∈ new, access.Sound) ↔ Fits e scanned.1)

theorem Expanded.stop {e : Bytes} {s t : Cmp} (windowed : Windowed e s) (passes : Passes s t) (ended : Bool) :
    Expanded e s ([], ended) (if ended = true then .ok () t else .error .abort t) := by
  obtain ⟨new, log, sound⟩ := passes.log
  exact ⟨t, rfl, windowed.passes passes, passes.maxOut, new, log, iff_of_true sound trivial⟩

theorem Expanded.token {f : Format} {e : Bytes} {s t u : Cmp} {token : Token} {scanned : List Token × Bool}
    {result : EStateM.Result Stop Cmp Unit} (passes : Passes s t) (advanced : Advanced f e token t u)
    (rest : Expanded (token.expand e) u scanned result) : Expanded e s (token :: scanned.1, scanned.2) result := by
  obtain ⟨v, run, windowed, maxOut, new, log, sound⟩ := rest.run
  obtain ⟨first, log', sound'⟩ := advanced.log
  obtain ⟨old, log'', sound''⟩ := passes.log
  refine ⟨v, run, windowed, maxOut.trans (advanced.maxOut.trans passes.maxOut), new ++ (first ++ old), ?_, ?_⟩
  · rw [log, log', log'', List.append_assoc, List.append_assoc]
  · simp only [Fits, List.forall_mem_append, sound, sound']
    exact ⟨fun all => ⟨all.2.1, all.1⟩, fun all => ⟨all.2, all.1, sound''⟩⟩

theorem expandLoop_expanded {f : Format} (valid : f.Valid) (fuel : Nat) {e : Bytes} {s : Cmp}
    (windowed : Windowed e s) (keeps : Keeps f s) (enough : s.bits.length < fuel) :
    Expanded e s (scan f fuel s.bits) (expandLoop fuel s) := by
  induction fuel generalizing e s with
  | zero => omega
  | succ fuel ih =>
    have follows := decodeLiteral_follows (.refl s) keeps.reading
    rw [keeps.mode] at follows
    cases taken : takeLiteral f.mode s.bits with
    | none =>
      rw [taken] at follows
      obtain ⟨t, run, passes⟩ := follows
      rw [loop_round, bind_of_error run, scan_stuck fuel taken]
      exact Expanded.stop windowed passes false
    | some found =>
      obtain ⟨code, rest⟩ := found
      rw [taken] at follows
      obtain ⟨t, run, passes, stays⟩ := follows
      have symbol := takeLiteral_some taken
      have windowed' := windowed.passes passes
      rw [loop_round, bind_of_ok run]
      by_cases below : code < 0x305
      · obtain ⟨reading, bits⟩ := stays below
        have shorter := symbol.shorter below
        have keeps' := passes.keeps reading keeps
        rw [if_pos below]
        cases symbol with
        | literal b starts _ =>
          obtain ⟨u, run', advanced, bits'⟩ := literal_run windowed' keeps' b
          rw [← bind_assoc, bind_of_ok run', scan_literal fuel taken]
          have same : u.bits = rest := bits'.trans bits
          refine Expanded.token passes advanced ?_
          rw [← same]
          exact ih advanced.windowed advanced.keeps (by rw [same]; omega)
        | @length v r rest most starts more =>
          have rounded : v + 0x100 = v + 2 + 0xFE := by omega
          rw [scan_length fuel (by omega) taken, ← bits, rounded]
          rcases copy_run windowed' keeps' valid (show 2 ≤ v + 2 by omega) (by omega) with
            ⟨none, u, run', passes'⟩ | ⟨distance, after, u, some, run', advanced, bits'⟩
          · rw [← bind_assoc, bind_of_error run', none]
            exact Expanded.stop windowed (passes.trans passes') false
          · rw [← bind_assoc, bind_of_ok run', some]
            simp only
            have fewer := takeDistance_le some
            refine Expanded.token passes advanced ?_
            rw [← bits']
            exact ih advanced.windowed advanced.keeps (by rw [bits']; rw [bits] at fewer; omega)
      · rw [if_neg below]
        cases symbol with
        | literal b => exact absurd (b.toNat_lt.trans (by decide)) below
        | @length v _ _ most =>
          obtain rfl : v = 517 := by omega
          rw [scan_terminator fuel taken]
          exact Expanded.stop windowed passes true

structure Scanned (f : Format) (bits rest : List Bool) (tokens : List Token) : Prop where
  starts : bits = tokens.flatMap (Token.bits f) ++ rest
  valid : ∀ token ∈ tokens, token.Valid f.dsize
  more : tokens = [] ∨ 8 ≤ rest.length

theorem Scanned.cons {f : Format} {bits rest left : List Bool} {tokens : List Token} {token : Token}
    (scanned : Scanned f rest left tokens) (starts : bits = token.bits f ++ rest) (valid : token.Valid f.dsize)
    (enough : 8 ≤ rest.length) : Scanned f bits left (token :: tokens) where
  starts := by rw [starts, scanned.starts, List.flatMap_cons, List.append_assoc]
  valid := List.forall_mem_cons.mpr ⟨valid, scanned.valid⟩
  more := by
    refine .inr (scanned.more.elim (fun empty => ?_) id)
    have same := scanned.starts
    rw [empty, List.flatMap_nil, List.nil_append] at same
    rwa [← same]

theorem scan_tokens (f : Format) (fuel : Nat) (bits : List Bool) :
    ∃ rest, Scanned f bits rest (scan f fuel bits).1 ∧
      ((scan f fuel bits).2 = true → ∃ padding, rest = terminator ++ padding) := by
  induction fuel generalizing bits with
  | zero => exact ⟨bits, ⟨rfl, by simp [scan], .inl rfl⟩, fun ended => absurd ended (by simp [scan])⟩
  | succ fuel ih =>
    have stuck : Scanned f bits bits [] := ⟨rfl, by simp, .inl rfl⟩
    cases taken : takeLiteral f.mode bits with
    | none =>
      rw [scan_stuck fuel taken]
      exact ⟨bits, stuck, fun ended => absurd ended (by simp)⟩
    | some found =>
      obtain ⟨code, rest⟩ := found
      cases takeLiteral_some taken with
      | literal b starts enough =>
        obtain ⟨left, scanned, ended⟩ := ih rest
        rw [scan_literal fuel taken]
        exact ⟨left, scanned.cons starts trivial enough, ended⟩
      | @length v r _ most starts more =>
        by_cases last : v = 517
        · subst last
          rw [scan_terminator fuel taken]
          exact ⟨bits, stuck, fun _ => ⟨r, starts⟩⟩
        · obtain ⟨rfl, enough⟩ := more (by omega)
          rw [scan_length fuel (by omega) taken]
          cases measured : takeDistance f.dsize (v + 2) r with
          | none => exact ⟨bits, stuck, fun ended => absurd ended (by simp)⟩
          | some pair =>
            obtain ⟨distance, after⟩ := pair
            obtain ⟨positive, known, starts', enough'⟩ := takeDistance_some enough measured
            obtain ⟨left, scanned, ended⟩ := ih after
            refine ⟨left, scanned.cons ?_ ⟨by omega, by omega, positive, known⟩ enough', ended⟩
            rw [starts, starts', Token.bits, Nat.add_sub_cancel, List.append_assoc]

theorem scan_token {f : Format} (fuel : Nat) {token : Token} (valid : token.Valid f.dsize) {rest : List Bool}
    (enough : 8 ≤ rest.length) :
    scan f (fuel + 1) (token.bits f ++ rest) = (token :: (scan f fuel rest).1, (scan f fuel rest).2) := by
  cases token with
  | literal b => exact scan_literal fuel (takeLiteral_literal f.mode b enough)
  | copy length distance =>
    obtain ⟨two, most, positive, known⟩ := valid
    have long : 8 ≤ (distanceStream f.dsize length distance ++ rest).length := by
      rw [List.length_append]
      omega
    obtain ⟨r, taken, same⟩ := @takeLiteral_length f.mode (length - 2) (by omega) _ (.inr long)
    rw [same long] at taken
    rw [Token.bits, List.append_assoc, scan_length fuel (by omega) taken, Nat.sub_add_cancel two,
      takeDistance_field positive known enough]

theorem scan_stream {f : Format} (fuel : Nat) {tokens : List Token} (valid : ∀ token ∈ tokens, token.Valid f.dsize)
    {rest : List Bool} (enough : 8 ≤ rest.length) :
    scan f (tokens.length + fuel) (tokens.flatMap (Token.bits f) ++ rest) =
      (tokens ++ (scan f fuel rest).1, (scan f fuel rest).2) := by
  induction tokens with
  | nil => rw [List.length_nil, Nat.zero_add, List.flatMap_nil, List.nil_append, List.nil_append]
  | cons token tokens ih =>
    obtain ⟨first, others⟩ := List.forall_mem_cons.mp valid
    have long : 8 ≤ (tokens.flatMap (Token.bits f) ++ rest).length := by
      rw [List.length_append]
      omega
    rw [List.length_cons, Nat.add_right_comm, List.flatMap_cons, List.append_assoc, scan_token _ first long,
      ih others, List.cons_append]

theorem bits_positive (f : Format) (token : Token) : 1 ≤ (token.bits f).length := by
  cases token with
  | literal b => exact Nat.succ_pos _
  | copy length distance =>
    rw [Token.bits, List.length_append, lengthStream_eq, List.length_cons]
    omega

theorem tokens_le (f : Format) (tokens : List Token) : tokens.length ≤ (tokens.flatMap (Token.bits f)).length := by
  induction tokens with
  | nil => exact Nat.le_refl 0
  | cons token tokens ih =>
    have := bits_positive f token
    rw [List.length_cons, List.flatMap_cons, List.length_append]
    omega

theorem scan_all {f : Format} {fuel : Nat} {tokens : List Token} (valid : ∀ token ∈ tokens, token.Valid f.dsize)
    {bits rest : List Bool} (starts : bits = tokens.flatMap (Token.bits f) ++ rest) (enough : 8 ≤ rest.length)
    (fueled : bits.length < fuel) :
    ∃ left, scan f fuel bits = (tokens ++ (scan f (left + 1) rest).1, (scan f (left + 1) rest).2) := by
  have most := tokens_le f tokens
  rw [starts, List.length_append] at fueled
  refine ⟨fuel - tokens.length - 1, ?_⟩
  have sum : fuel = tokens.length + (fuel - tokens.length - 1 + 1) := by omega
  rw [starts]
  conv_lhs => rw [sum]
  exact scan_stream _ valid enough

theorem scan_end (f : Format) (fuel : Nat) (padding : List Bool) :
    scan f (fuel + 1) (terminator ++ padding) = ([], true) := by
  obtain ⟨r, taken, -⟩ := @takeLiteral_length f.mode 517 (by decide) padding (.inl rfl)
  exact scan_terminator fuel taken

theorem scan_ended {f : Format} {fuel : Nat} {bits : List Bool} (fueled : bits.length < fuel) {tokens : List Token} :
    scan f fuel bits = (tokens, true) ↔
      (∀ token ∈ tokens, token.Valid f.dsize) ∧
        ∃ padding, bits = tokens.flatMap (Token.bits f) ++ terminator ++ padding := by
  constructor
  case mp =>
    intro scanned
    obtain ⟨rest, found, ended⟩ := scan_tokens f fuel bits
    rw [scanned] at found ended
    obtain ⟨padding, rfl⟩ := ended rfl
    exact ⟨found.valid, padding, by rw [List.append_assoc]; exact found.starts⟩
  case mpr =>
    rintro ⟨valid, padding, starts⟩
    rw [List.append_assoc] at starts
    have long : 8 ≤ (terminator ++ padding).length := by
      have : terminator.length = 16 := rfl
      rw [List.length_append]
      omega
    obtain ⟨left, scanned⟩ := scan_all valid starts long fueled
    rw [scanned, scan_end, List.append_nil]

end Pkware

end LibMpq
