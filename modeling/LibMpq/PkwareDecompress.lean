import LibMpq.PkwareExpand

set_option autoImplicit false

namespace LibMpq

open Effect Bitstream

namespace Pkware

structure Headed (input : Bytes) (f : Format) (rest : Bytes) : Prop where
  format : f.Valid
  starts : input = UInt8.ofNat f.mode :: UInt8.ofNat f.dsize :: rest
  enough : 2 ≤ rest.length

-- The state with its staging buffer filled, and after the header.
def filled (input : Bytes) (maxOut : Nat) : Cmp :=
  { (dataReadInput (Cmp.init input maxOut)).2 with inBytes := (dataReadInput (Cmp.init input maxOut)).1 }

def sized (s : Cmp) : Cmp := { s with dsizeMask := 0xFFFF >>> (0x10 - s.dsizeBits) }

theorem decompress_eq (input : Bytes) (maxOut : Nat) :
    decompress input maxOut =
      if (filled input maxOut).inBytes < 4 then some ⟨.badData, filled input maxOut⟩
      else
        let s := readHeader (filled input maxOut)
        if 4 > s.dsizeBits ∨ s.dsizeBits > 6 then some ⟨.invDictsize, s⟩
        else if s.cmpType ≠ cmpBinary ∧ s.cmpType ≠ cmpAscii then some ⟨.invMode, sized s⟩
        else expand (loopFuel input) (buildTables (sized s)) := rfl

theorem filled_inBytes (input : Bytes) (maxOut : Nat) :
    (filled input maxOut).inBytes = min stagingSize input.length := rfl

theorem filled_staged {input : Bytes} {maxOut i : Nat} (small : i < stagingSize) (inside : i < input.length) :
    staged (filled input maxOut) i = (input.getD i 0).toNat := by
  have held : (filled input maxOut).work (stagingStart + i) = input.getD i 0 := by
    have here : stagingStart ≤ stagingStart + i ∧ stagingStart + i < stagingStart + min stagingSize input.length := by
      omega
    have value : (filled input maxOut).work (stagingStart + i) = input.getD (0 + (stagingStart + i - stagingStart)) 0 :=
      if_pos here
    rw [value, Nat.add_sub_cancel_left, Nat.zero_add]
  rw [staged, held]

theorem Format.Valid.bytes {f : Format} (valid : f.Valid) :
    (UInt8.ofNat f.mode).toNat = f.mode ∧ (UInt8.ofNat f.dsize).toNat = f.dsize := by
  have mode : f.mode < 2 ^ 8 := by rcases valid.mode with same | same <;> rw [same] <;> decide
  have dsize : f.dsize < 2 ^ 8 := valid.dsize.2.trans_lt (by decide)
  rw [UInt8.toNat_ofNat', UInt8.toNat_ofNat', Nat.mod_eq_of_lt mode, Nat.mod_eq_of_lt dsize]
  exact ⟨rfl, rfl⟩

def started (input : Bytes) (maxOut : Nat) : Cmp :=
  { buildTables (sized (readHeader (filled input maxOut))) with outPos := windowHalf }

section headed

variable {input rest : Bytes} {f : Format} (headed : Headed input f rest) (maxOut : Nat)
include headed

theorem Headed.length : input.length = rest.length + 2 := by
  rw [headed.starts, List.length_cons, List.length_cons]

theorem Headed.cmpType : (readHeader (filled input maxOut)).cmpType = f.mode := by
  have length := headed.length
  have first : staged (filled input maxOut) 0 = (input.getD 0 0).toNat := filled_staged (by decide) (by omega)
  rw [headed.starts, List.getD_cons_zero, headed.format.bytes.1] at first
  rw [headed.starts]
  exact first

theorem Headed.dsizeBits : (readHeader (filled input maxOut)).dsizeBits = f.dsize := by
  have length := headed.length
  have second : staged (filled input maxOut) 1 = (input.getD 1 0).toNat := filled_staged (by decide) (by omega)
  rw [headed.starts, List.getD_cons_succ, List.getD_cons_zero, headed.format.bytes.2] at second
  rw [headed.starts]
  exact second

theorem Headed.keeps : Keeps f (started input maxOut) := by
  have length := headed.length
  have enough := headed.enough
  have third : staged (filled input maxOut) 2 = (input.getD 2 0).toNat := filled_staged (by decide) (by omega)
  refine ⟨⟨Nat.zero_le 7, ?_, (by decide : 1 ≤ 3), ?_, Nat.min_le_left _ _⟩, headed.cmpType maxOut, headed.dsizeBits maxOut, ?_⟩
  · show staged (filled input maxOut) 2 < 2 ^ 8
    rw [third]
    exact UInt8.toNat_lt _
  · show 3 ≤ min stagingSize input.length
    simp only [stagingSize]
    omega
  · show 0xFFFF >>> (0x10 - (readHeader (filled input maxOut)).dsizeBits) = 2 ^ f.dsize - 1
    rw [headed.dsizeBits]
    have sizes : f.dsize = 4 ∨ f.dsize = 5 ∨ f.dsize = 6 := by
      have := headed.format.dsize
      omega
    rcases sizes with same | same | same <;> rw [same] <;> rfl

theorem Headed.bits : (started input maxOut).bits = ofBytes rest := by
  have length := headed.length
  have enough := headed.enough
  have third : staged (filled input maxOut) 2 = (input.getD 2 0).toNat := filled_staged (by decide) (by omega)
  have pending : (started input maxOut).pending = input.drop 3 := by
    have whole := staged_source input stagingStart 0 (fun _ => 0) (Nat.min_le_right stagingSize (input.length - 0))
    have split : List.range' 0 (min stagingSize (input.length - 0)) =
        [0, 1, 2] ++ List.range' 3 (min stagingSize (input.length - 0) - 3) := by
      have count : min stagingSize (input.length - 0) = 3 + (min stagingSize (input.length - 0) - 3) := by
        simp only [stagingSize]
        omega
      conv_lhs => rw [count, ← List.range'_append]
      rfl
    rw [split, List.map_append, List.append_assoc, List.drop_zero] at whole
    exact congrArg (List.drop 3) whole
  obtain ⟨b, rest', rfl⟩ : ∃ b rest', rest = b :: rest' := by
    cases rest with
    | nil => simp at enough
    | cons b rest' => exact ⟨b, rest', rfl⟩
  have value : (input.getD 2 0).toNat = b.toNat := by rw [headed.starts]; rfl
  have left : input.drop 3 = rest' := by rw [headed.starts]; rfl
  rw [Cmp.bits, pending, left, ofBytes_cons, ← value, ← third]
  rfl

end headed

theorem started_windowed (input : Bytes) (maxOut : Nat) : Windowed [] (started input maxOut) := by
  refine ⟨⟨Nat.le_refl _, ⟨0, ?_, ?_⟩, fun i positive le => ?_⟩, (by decide : windowHalf < windowSize)⟩
  · rw [Nat.zero_mul, Nat.zero_add]
    exact (Nat.sub_self windowHalf).symm
  · rw [List.take_nil, List.take_nil]
    rfl
  · have below : ¬ (stagingStart ≤ windowHalf - i ∧ windowHalf - i < stagingStart + min stagingSize (input.length - 0)) := by
      simp only [windowHalf, stagingStart]
      omega
    rw [back, List.length_nil, if_neg (by omega)]
    exact if_neg below

theorem stores_sound (s : TableStore) (mem : s ∈ generateTablesAscii ++ lengthStores ++ distanceStores) :
    s.index < s.table.size := by
  have ascii : ∀ s ∈ generateTablesAscii, s.index < s.table.size := by decide +kernel
  have lengths : ∀ s ∈ lengthStores, s.index < s.table.size := by decide +kernel
  have distances : ∀ s ∈ distanceStores, s.index < s.table.size := by decide +kernel
  rcases List.mem_append.mp mem with mem | mem
  · rcases List.mem_append.mp mem with mem | mem
    · exact ascii s mem
    · exact lengths s mem
  · exact distances s mem

theorem header_sound : ∀ access ∈ [Access.staged 0, .staged 1, .staged 2], access.Sound := by
  simp [Access.Sound, stagingSize]

theorem started_sound (input : Bytes) (maxOut : Nat) : ∀ access ∈ (started input maxOut).log, access.Sound := by
  intro access mem
  rcases List.mem_append.mp mem with table | header
  · obtain ⟨store, stored, rfl⟩ := List.mem_map.mp table
    refine stores_sound store ?_
    rw [List.append_assoc] at stored ⊢
    rcases List.mem_append.mp stored with ascii | others
    · split at ascii
      next => cases ascii
      next => exact List.mem_append_left _ ascii
    · exact List.mem_append_right _ others
  · refine header_sound access ?_
    rwa [← List.append_nil [Access.staged 0, .staged 1, .staged 2]]

def scanned (f : Format) (input rest : Bytes) : List Token × Bool := scan f (loopFuel input) (ofBytes rest)

theorem expand_run {fuel : Nat} {s t : Cmp} {ended : Bool}
    (run : expandLoop fuel { s with outPos := windowHalf } = if ended = true then .ok () t else .error .abort t) :
    expand fuel s =
      some ⟨if ended = true then .noError else .abort, dataWriteOutput (t.outPos - windowHalf) t⟩ := by
  unfold expand
  rw [run]
  cases ended <;> rfl

theorem Headed.run {input rest : Bytes} {f : Format} (headed : Headed input f rest) (maxOut : Nat) :
    ∃ o, decompress input maxOut = some o ∧
      o.status = (if (scanned f input rest).2 = true then .noError else .abort) ∧
      o.state.out = (expansion (scanned f input rest).1).take maxOut ∧
      ((∀ access ∈ o.state.log, access.Sound) ↔ Fits [] (scanned f input rest).1) := by
  have length := headed.length
  have enough := headed.enough
  have bits := headed.bits maxOut
  have fueled : (started input maxOut).bits.length < loopFuel input := by
    rw [bits, ofBytes_length, loopFuel]
    omega
  have expanded := expandLoop_expanded headed.format (loopFuel input) (started_windowed input maxOut)
    (headed.keeps maxOut) fueled
  rw [bits] at expanded
  obtain ⟨t, run, windowed, room, new, log, sound⟩ := expanded.run
  have whole : decompress input maxOut = expand (loopFuel input) (buildTables (sized (readHeader (filled input maxOut)))) := by
    have inBytes := filled_inBytes input maxOut
    rw [decompress_eq, if_neg (by rw [inBytes]; simp only [stagingSize]; omega)]
    simp only
    rw [headed.dsizeBits, headed.cmpType, if_neg, if_neg]
    · rintro ⟨binary, ascii⟩
      exact headed.format.mode.elim binary ascii
    · have := headed.format.dsize
      omega
  have delivered := windowed.toHolds.delivered
  have logged : (∀ access ∈ t.log, access.Sound) ↔ Fits [] (scanned f input rest).1 := by
    rw [log, List.forall_mem_append, sound]
    exact and_iff_left (started_sound input maxOut)
  have maxOut_ : t.maxOut = maxOut := room
  rw [maxOut_] at delivered
  refine ⟨⟨if (scanned f input rest).2 = true then .noError else .abort, dataWriteOutput (t.outPos - windowHalf) t⟩, ?_,
    rfl, delivered, logged⟩
  rw [whole]
  exact expand_run run

theorem decompress_refused {input : Bytes} (unknown : ∀ f rest, ¬ Headed input f rest) (maxOut : Nat) :
    ∃ o, decompress input maxOut = some o ∧ o.status ≠ .noError ∧ o.state.out = [] ∧
      ∀ access ∈ o.state.log, access.Sound := by
  have inBytes := filled_inBytes input maxOut
  have empty : ∀ access ∈ [Access.staged 0, .staged 1, .staged 2] ++ (filled input maxOut).log, access.Sound := by
    rw [show (filled input maxOut).log = [] from rfl, List.append_nil]
    exact header_sound
  rw [decompress_eq]
  by_cases few : (filled input maxOut).inBytes < 4
  · rw [if_pos few]
    exact ⟨_, rfl, by simp, rfl, by simp [filled, dataReadInput, Cmp.init]⟩
  rw [if_neg few]
  simp only
  by_cases dsize : 4 > (readHeader (filled input maxOut)).dsizeBits ∨ (readHeader (filled input maxOut)).dsizeBits > 6
  · rw [if_pos dsize]
    exact ⟨_, rfl, by simp, rfl, empty⟩
  rw [if_neg dsize]
  by_cases mode : (readHeader (filled input maxOut)).cmpType ≠ cmpBinary ∧
      (readHeader (filled input maxOut)).cmpType ≠ cmpAscii
  · rw [if_pos mode]
    exact ⟨_, rfl, by simp, rfl, empty⟩
  exfalso
  have long : 4 ≤ input.length := by
    rw [inBytes] at few
    omega
  obtain ⟨first, second, rest, rfl⟩ : ∃ first second rest, input = first :: second :: rest := by
    cases input with
    | nil => exact absurd long (by decide)
    | cons first tail =>
      cases tail with
      | nil => exact absurd long (by simp)
      | cons second rest => exact ⟨first, second, rest, rfl⟩
  have first_ : (readHeader (filled (first :: second :: rest) maxOut)).cmpType = first.toNat :=
    filled_staged (by decide) (by omega)
  have second_ : (readHeader (filled (first :: second :: rest) maxOut)).dsizeBits = second.toNat :=
    filled_staged (by decide) (by omega)
  rw [first_] at mode
  rw [second_] at dsize
  have sizes : 4 ≤ second.toNat ∧ second.toNat ≤ 6 := by omega
  have modes : first.toNat = cmpBinary ∨ first.toNat = cmpAscii := by tauto
  refine unknown ⟨first.toNat, second.toNat⟩ rest ⟨⟨modes, sizes⟩, ?_, ?_⟩
  · rw [UInt8.ofNat_toNat, UInt8.ofNat_toNat]
  · rw [List.length_cons, List.length_cons] at long
    omega

theorem Stream.headed {input : Bytes} {f : Format} {tokens : List Token} (stream : Stream input f tokens) :
    ∃ rest, Headed input f rest ∧ scanned f input rest = (tokens, true) := by
  obtain ⟨rest, starts, padding, bits⟩ := stream.header
  have length := congrArg List.length bits
  have ends : terminator.length = 16 := rfl
  rw [ofBytes_length, List.length_append, List.length_append, ends] at length
  have headed : Headed input f rest := ⟨stream.format, starts, by omega⟩
  refine ⟨rest, headed, (scan_ended ?_).mpr ⟨stream.tokens, padding, bits⟩⟩
  rw [ofBytes_length, loopFuel, headed.length]
  omega

theorem Stream.decompress {input : Bytes} {f : Format} {tokens : List Token} (stream : Stream input f tokens)
    (maxOut : Nat) :
    ∃ o, decompress input maxOut = some o ∧ o.status = .noError ∧ o.state.out = (expansion tokens).take maxOut := by
  obtain ⟨rest, headed, ended⟩ := stream.headed
  obtain ⟨o, run, status, out, -⟩ := headed.run maxOut
  rw [ended] at status out
  exact ⟨o, run, status, out⟩

theorem decompress_stream {input : Bytes} {maxOut : Nat} {o : Outcome} (run : decompress input maxOut = some o)
    (done : o.status = .noError) : ∃ f tokens, Stream input f tokens := by
  by_cases known : ∃ f rest, Headed input f rest
  · obtain ⟨f, rest, headed⟩ := known
    obtain ⟨o', run', status, -⟩ := headed.run maxOut
    obtain rfl := Option.some.inj (run.symm.trans run')
    have ended : (scanned f input rest).2 = true := by
      by_contra other
      rw [if_neg other, done] at status
      cases status
    have fueled : (ofBytes rest).length < loopFuel input := by
      rw [ofBytes_length, loopFuel, headed.length]
      omega
    obtain ⟨valid, padding, bits⟩ := (@scan_ended f _ _ fueled (scanned f input rest).1).mp (Prod.ext rfl ended)
    exact ⟨f, _, headed.format, ⟨rest, headed.starts, padding, bits⟩, valid⟩
  · obtain ⟨o', run', status, -⟩ := decompress_refused (fun f rest headed => known ⟨f, rest, headed⟩) maxOut
    obtain rfl := Option.some.inj (run.symm.trans run')
    exact absurd done status

/-- The input has decodable symbols up to a match of the greatest length in the window's last place. -/
def Overruns (input : Bytes) : Prop :=
  ∃ (f : Format) (rest : Bytes) (tokens : List Token) (distance : Nat) (left : List Bool),
    f.Valid ∧ input = UInt8.ofNat f.mode :: UInt8.ofNat f.dsize :: rest ∧
      (∀ token ∈ tokens ++ [Token.copy 518 distance], token.Valid f.dsize) ∧
      ofBytes rest = (tokens ++ [Token.copy 518 distance]).flatMap (Token.bits f) ++ left ∧ 8 ≤ left.length ∧
      (expansion tokens).length % windowHalf = windowHalf - 1

theorem not_fits {e : Bytes} {tokens : List Token} (overrun : ¬ Fits e tokens) :
    ∃ before distance after, tokens = before ++ Token.copy 518 distance :: after ∧
      (before.foldl Token.expand e).length % windowHalf = windowHalf - 1 := by
  induction tokens generalizing e with
  | nil => exact absurd trivial overrun
  | cons token tokens ih =>
    rw [Fits, Classical.not_and_iff_not_or_not] at overrun
    by_cases fits : token.Fits e
    · obtain ⟨before, distance, after, same, last⟩ := ih (overrun.resolve_left (not_not.mpr fits))
      exact ⟨token :: before, distance, after, by rw [same, List.cons_append], last⟩
    · cases token with
      | literal b => exact absurd trivial fits
      | copy length distance =>
        obtain ⟨rfl, last⟩ := not_not.mp fits
        exact ⟨[], distance, tokens, rfl, last⟩

theorem fits_before {e : Bytes} {before after : List Token} {distance : Nat}
    (fits : Fits e (before ++ .copy 518 distance :: after)) :
    (before.foldl Token.expand e).length % windowHalf ≠ windowHalf - 1 := by
  induction before generalizing e with
  | nil => exact fun last => fits.1 ⟨rfl, last⟩
  | cons token before ih => exact ih fits.2

theorem header_unique {f g : Format} {rest rest' : Bytes} (valid : f.Valid) (valid' : g.Valid)
    (same : UInt8.ofNat f.mode :: UInt8.ofNat f.dsize :: rest = UInt8.ofNat g.mode :: UInt8.ofNat g.dsize :: rest') :
    f = g ∧ rest = rest' := by
  obtain ⟨mode, dsize⟩ := valid.bytes
  obtain ⟨mode', dsize'⟩ := valid'.bytes
  obtain ⟨first, tail⟩ := List.cons.inj same
  obtain ⟨second, tail⟩ := List.cons.inj tail
  refine ⟨?_, tail⟩
  have modes := mode.symm.trans ((congrArg UInt8.toNat first).trans mode')
  have dsizes := dsize.symm.trans ((congrArg UInt8.toNat second).trans dsize')
  cases f
  cases g
  exact congrArg₂ Format.mk modes dsizes

theorem Headed.overruns {input rest : Bytes} {f : Format} (headed : Headed input f rest) :
    Overruns input ↔ ¬ Fits [] (scanned f input rest).1 := by
  have fueled : (ofBytes rest).length < loopFuel input := by
    rw [ofBytes_length, loopFuel, headed.length]
    omega
  constructor
  case mp =>
    rintro ⟨g, rest', tokens, distance, left, valid, starts, known, bits, enough, last⟩ fits
    obtain ⟨rfl, rfl⟩ := header_unique valid headed.format (starts.symm.trans headed.starts)
    obtain ⟨fuel, all⟩ := scan_all known bits enough fueled
    rw [scanned, all, List.append_assoc] at fits
    exact fits_before fits last
  case mpr =>
    intro overrun
    obtain ⟨before, distance, after, same, last⟩ := not_fits overrun
    obtain ⟨left, found, -⟩ := scan_tokens f (loopFuel input) (ofBytes rest)
    have starts := found.starts
    have known := found.valid
    rw [← scanned, same] at starts known
    have split : before ++ Token.copy 518 distance :: after = before ++ [.copy 518 distance] ++ after := by simp
    rw [split, List.flatMap_append, List.append_assoc] at starts
    rw [split] at known
    refine ⟨f, rest, before, distance, _, headed.format, headed.starts, fun token mem =>
      known token (List.mem_append_left _ mem), starts, ?_, last⟩
    have more := found.more.resolve_left (by rw [← scanned, same]; simp)
    rw [List.length_append]
    omega

/-- The decoder's bounds in a run: it ends, everything it touches is in bounds, and so is what it delivers. -/
def Bounded (input : Bytes) (maxOut : Nat) : Prop :=
  ∃ o, decompress input maxOut = some o ∧ (∀ access ∈ o.state.log, access.Sound) ∧ o.state.out.length ≤ maxOut

theorem Overruns.headed {input : Bytes} (overruns : Overruns input) : ∃ f rest, Headed input f rest := by
  obtain ⟨f, rest, tokens, distance, left, valid, starts, -, bits, enough, -⟩ := overruns
  refine ⟨f, rest, valid, starts, ?_⟩
  have length := congrArg List.length bits
  have matched : 9 ≤ ((Token.copy 518 distance).bits f).length := by
    have ends : (lengthStream 516).length = 16 := rfl
    rw [Token.bits, List.length_append, ends]
    omega
  rw [ofBytes_length, List.length_append, List.flatMap_append, List.length_append, List.flatMap_singleton] at length
  omega

theorem Overruns.unbounded {input : Bytes} (overruns : Overruns input) (maxOut : Nat) : ¬ Bounded input maxOut := by
  obtain ⟨f, rest, headed⟩ := overruns.headed
  rintro ⟨o, run, sound, -⟩
  obtain ⟨o', run', -, -, fits⟩ := headed.run maxOut
  obtain rfl := Option.some.inj (run.symm.trans run')
  exact headed.overruns.mp overruns (fits.mp sound)

-- The decoder always ends and stays in bounds, and writes into its staging buffer only for a
-- match of 518 bytes in the last place of the window.
theorem decompress_bounded (input : Bytes) (maxOut : Nat) : Bounded input maxOut ↔ ¬ Overruns input := by
  constructor
  case mp => exact fun bounded overruns => overruns.unbounded maxOut bounded
  case mpr =>
    intro fits
    by_cases known : ∃ f rest, Headed input f rest
    · obtain ⟨f, rest, headed⟩ := known
      obtain ⟨o, run, -, out, sound⟩ := headed.run maxOut
      refine ⟨o, run, sound.mpr (not_not.mp (headed.overruns.not.mp fits)), ?_⟩
      rw [out]
      exact List.length_take_le _ _
    · obtain ⟨o, run, -, out, sound⟩ := decompress_refused (fun f rest headed => known ⟨f, rest, headed⟩) maxOut
      exact ⟨o, run, sound, by rw [out]; exact Nat.zero_le _⟩

def lastPlace : List Token := .literal 0 :: List.replicate 7 (.copy 518 1) ++ [.copy 468 1]

-- One more match follows, and the terminator.
def overrunning : Bytes :=
  [0x00, 0x06, 0x00, 0x02, 0xFC, 0x07, 0x02, 0xFC, 0x07, 0x02, 0xFC, 0x07, 0x02, 0xFC, 0x07, 0x02, 0xFC, 0x07, 0x02,
    0xFC, 0x07, 0x02, 0xFC, 0x07, 0x02, 0x98, 0x07, 0x02, 0xFC, 0x07, 0x02, 0xFE, 0x01]

theorem overrunning_bits :
    ofBytes (overrunning.drop 2) = (lastPlace ++ [Token.copy 518 1]).flatMap (Token.bits ⟨cmpBinary, 6⟩) ++
      (terminator ++ List.replicate 7 false) := by
  decide +kernel

theorem lastPlace_length : (expansion lastPlace).length = 4095 := by
  rw [expansion_length]
  decide

theorem overrunning_overruns : Overruns overrunning := by
  have known : ∀ token ∈ lastPlace ++ [Token.copy 518 1], token.Valid 6 := by
    simp [lastPlace, Token.Valid, suffixBits]
  have last : (expansion lastPlace).length % windowHalf = windowHalf - 1 := lastPlace_length ▸ (by decide)
  exact ⟨⟨cmpBinary, 6⟩, overrunning.drop 2, lastPlace, 1, terminator ++ List.replicate 7 false,
    ⟨.inl rfl, by decide⟩, rfl, known, overrunning_bits, by decide, last⟩

theorem overrunning_unbounded : ¬ Bounded overrunning 5000 := overrunning_overruns.unbounded 5000

end Pkware

end LibMpq
