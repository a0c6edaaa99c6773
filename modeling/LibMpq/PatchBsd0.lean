import LibMpq.Base.Delta
import LibMpq.Base.Wire
import LibMpq.Crypto
import LibMpq.PatchRle

set_option autoImplicit false

namespace LibMpq

open Effect

namespace Patch

open Wire

abbrev int64Max : Int := 2 ^ 63 - 1

abbrev int64Min : Int := -2 ^ 63

def bsdiffTag : Bytes := ascii "BSDIFF40".toList

structure Tuple where
  add : UInt32
  copy : UInt32
  rawMove : UInt32

def Tuple.code (tuple : Tuple) : Bytes :=
  le32.encode tuple.add ++ le32.encode tuple.copy ++ le32.encode tuple.rawMove

-- The sign of a seek is its top bit, not a two's complement.
def signedMove (raw : UInt32) : Int :=
  if raw &&& 0x80000000 ≠ 0 then -((raw &&& 0x7FFFFFFF).toNat : Int) else raw.toNat

def Tuple.step (tuple : Tuple) : Delta.Step where
  add := tuple.add.toNat
  copy := tuple.copy.toNat
  move := signedMove tuple.rawMove

def oldByte (base : Bytes) (position : Int) : UInt8 :=
  if 0 ≤ position then base.getD position.toNat 0 else 0

def wordAt {σ : Type} (buffer : Bytes) (offset : Nat) : Op (Stop Error) σ UInt32 := do
  let word ← load buffer offset 4
  pure (le32.decode word)

def longAt {σ : Type} (buffer : Bytes) (offset : Nat) : Op (Stop Error) σ Nat := do
  let long ← load buffer offset 8
  pure (le64.decode long).toNat

structure Cursor where
  control : Nat
  delta : Nat
  extra : Nat
  target : Nat
  source : Int
  output : Bytes

def readOld (base : Bytes) (position : Int) : Op (Stop Error) Faults UInt8 := do
  require (0 ≤ position)
  if position.toNat < base.length then byteAt base position.toNat else pure 0

def addBytes (base deltas : Bytes) (source : Int) (delta target add : Nat) (output : Bytes) :
    Op (Stop Error) Faults Bytes :=
  (List.range add).foldlM (fun output (i : Nat) => do
    let old ← readOld base (source + i)
    let difference ← byteAt deltas (delta + i)
    store output (target + i) [difference + old]) output

def applyRound (base controls deltas extras : Bytes) (c : Cursor) :
    Op (Stop Error) Faults (Cursor ⊕ Cursor) :=
  if c.target < c.output.length then do
    let left ← minus controls.length c.control
    stopIf (left < 12) .format
    let add ← wordAt controls c.control
    let copy ← wordAt controls (c.control + 4)
    let rawMove ← wordAt controls (c.control + 8)
    let move := signedMove rawMove
    let room ← minus c.output.length c.target
    let deltaLeft ← minus deltas.length c.delta
    stopIf (add.toNat > room ∨ add.toNat > deltaLeft ∨ c.source < 0 ∨
      c.source > int64Max - add.toNat) .format
    let output ← addBytes base deltas c.source c.delta c.target add.toNat c.output
    let target := c.target + add.toNat
    let source ← plus64 c.source add.toNat
    let room ← minus output.length target
    let extraLeft ← minus extras.length c.extra
    stopIf (copy.toNat > room ∨ copy.toNat > extraLeft) .format
    let literal ← load extras c.extra copy.toNat
    let output ← store output target literal
    stopIf ((move > 0 ∧ source > int64Max - move) ∨ (move < 0 ∧ source < int64Min - move)) .format
    let source ← plus64 source move
    stopIf (add = 0 ∧ copy = 0) .format
    pure (.inl
      { control := c.control + 12, delta := c.delta + add.toNat, extra := c.extra + copy.toNat
        target := target + copy.toNat, source, output })
  else pure (.inr c)

-- `patch_apply_bsd0`
def applyBsd0 (base data : Bytes) (outputSize : Nat) : Op (Stop Error) Faults Bytes := do
  stopIf (data.length < 32) .format
  let tag ← load data 0 8
  let size ← longAt data 24
  let controlSize ← longAt data 8
  let deltaSize ← longAt data 16
  stopIf (tag ≠ bsdiffTag ∨ size ≠ outputSize) .format
  let body ← minus data.length 32
  stopIf (controlSize > body) .format
  let body ← minus body controlSize
  stopIf (deltaSize > body) .format
  let extraSize ← minus body deltaSize
  let controls ← load data 32 controlSize
  let deltas ← load data (32 + controlSize) deltaSize
  let extras ← load data (32 + controlSize + deltaSize) extraSize
  let c ← rounds (applyRound base controls deltas extras) (controls.length + 1)
    { control := 0, delta := 0, extra := 0, target := 0, source := 0, output := Bytes.zeros outputSize }
  stopIf (¬ (c.target = outputSize ∧ c.control = controls.length ∧ c.delta = deltas.length ∧
    c.extra = extras.length)) .format
  pure c.output

section words

variable {σ : Type} {buffer : Bytes} {offset : Nat}

theorem wordAt_of (inside : offset + 4 ≤ buffer.length) (s : σ) :
    wordAt buffer offset s = .ok (le32.decode (buffer.drop offset)) s := by
  rw [wordAt, bind_of_ok (load_of inside s), pure_run]
  simp [le32, List.take_take]

theorem longAt_of (inside : offset + 8 ≤ buffer.length) (s : σ) :
    longAt buffer offset s = .ok (le64.decode (buffer.drop offset)).toNat s := by
  rw [longAt, bind_of_ok (load_of inside s), pure_run]
  simp [le64, List.take_take]

end words

theorem readOld_of {base : Bytes} {position : Int} (positive : 0 ≤ position) (plan : Faults) :
    readOld base position plan = .ok (oldByte base position) plan := by
  rw [readOld, bind_of_ok (require_of positive _), oldByte, if_pos positive]
  by_cases inside : position.toNat < base.length
  · rw [if_pos inside, byteAt_of inside]
  · rw [if_neg inside, pure_run, List.getD_eq_getElem?_getD, List.getElem?_eq_none (Nat.not_lt.mp inside)]
    rfl

theorem addBytes_run {base deltas output : Bytes} {source : Int} {delta target add : Nat}
    (positive : 0 ≤ source) (held : delta + add ≤ deltas.length) (room : target + add ≤ output.length)
    (plan : Faults) :
    addBytes base deltas source delta target add output plan =
      .ok (splice output target (Delta.mix (oldByte base) source ((deltas.drop delta).take add))) plan := by
  unfold addBytes
  induction add with
  | zero =>
    rw [List.range_zero, List.foldlM_nil, pure_run, List.take_zero]
    simp [splice, Delta.mix]
  | succ add ih =>
    have part : ((deltas.drop delta).take add).length = add := by
      rw [List.length_take, List.length_drop]
      omega
    have next : (deltas.drop delta).take (add + 1) =
        (deltas.drop delta).take add ++ [deltas.getD (delta + add) 0] := by
      rw [take_getD (by rw [List.length_drop]; omega), List.getD_eq_getElem?_getD, List.getElem?_drop,
        ← List.getD_eq_getElem?_getD]
    have mixed : (Delta.mix (oldByte base) source ((deltas.drop delta).take add)).length = add := by
      rw [Delta.mix_length, part]
    refine foldlM_range_succ (ih (by omega) (by omega)) ?_
    rw [bind_of_ok (readOld_of (by omega) _), bind_of_ok (byteAt_of (by omega) _),
      store_of (by rw [splice_length (by omega), List.length_singleton]; omega), next, Delta.mix_append,
      part]
    have joined := @splice_splice _ output (Delta.mix (oldByte base) source ((deltas.drop delta).take add))
      [deltas.getD (delta + add) 0 + oldByte base (source + add)] target
      (by rw [mixed, List.length_singleton]; omega)
    rw [mixed] at joined
    rw [joined]
    simp [Delta.mix]

def tupleAt (controls : Bytes) (offset : Nat) : Tuple where
  add := le32.decode (controls.drop offset)
  copy := le32.decode (controls.drop (offset + 4))
  rawMove := le32.decode (controls.drop (offset + 8))

def Cursor.advance (base deltas extras : Bytes) (c : Cursor) (tuple : Tuple) : Cursor where
  control := c.control + 12
  delta := c.delta + tuple.add.toNat
  extra := c.extra + tuple.copy.toNat
  target := c.target + tuple.add.toNat + tuple.copy.toNat
  source := c.source + tuple.add.toNat + signedMove tuple.rawMove
  output := splice c.output c.target
    (Delta.mix (oldByte base) c.source ((deltas.drop c.delta).take tuple.add.toNat) ++
      (extras.drop c.extra).take tuple.copy.toNat)

structure Permits (deltas extras : Bytes) (c : Cursor) (tuple : Tuple) : Prop where
  room : c.target + tuple.add.toNat + tuple.copy.toNat ≤ c.output.length
  deltas : c.delta + tuple.add.toNat ≤ deltas.length
  extras : c.extra + tuple.copy.toNat ≤ extras.length
  positive : 0 ≤ c.source
  sourceMax : c.source + tuple.add.toNat ≤ int64Max
  seekMin : int64Min ≤ c.source + tuple.add.toNat + signedMove tuple.rawMove
  seekMax : c.source + tuple.add.toNat + signedMove tuple.rawMove ≤ int64Max
  moves : ¬ (tuple.add = 0 ∧ tuple.copy = 0)

theorem plus64_of {a b : Int} (low : int64Min ≤ a + b) (high : a + b ≤ int64Max) (plan : Faults) :
    (plus64 a b : Op (Stop Error) Faults Int) plan = .ok (a + b) plan := by
  have below : a + b < 2 ^ 63 := Int.lt_of_le_sub_one high
  rw [plus64, bind_of_ok (require_of ⟨low, below⟩ _), pure_run]

theorem words_of {controls : Bytes} {offset : Nat} (inside : offset + 12 ≤ controls.length) (plan : Faults) :
    wordAt controls offset plan = .ok (tupleAt controls offset).add plan ∧
      wordAt controls (offset + 4) plan = .ok (tupleAt controls offset).copy plan ∧
      wordAt controls (offset + 8) plan = .ok (tupleAt controls offset).rawMove plan :=
  ⟨wordAt_of (by omega) plan, wordAt_of (by omega) plan, wordAt_of (by omega) plan⟩

section round

variable {base controls deltas extras : Bytes} {c : Cursor}

theorem mixed_length {add : Nat} (held : c.delta + add ≤ deltas.length) :
    (Delta.mix (oldByte base) c.source ((deltas.drop c.delta).take add)).length = add := by
  rw [Delta.mix_length, List.length_take, List.length_drop]
  omega

theorem literal_length {copy : Nat} (held : c.extra + copy ≤ extras.length) :
    ((extras.drop c.extra).take copy).length = copy := by
  rw [List.length_take, List.length_drop]
  omega

theorem applyRound_run (more : c.target < c.output.length) (inside : c.control + 12 ≤ controls.length)
    (permits : Permits deltas extras c (tupleAt controls c.control)) (plan : Faults) :
    applyRound base controls deltas extras c plan =
      .ok (.inl (c.advance base deltas extras (tupleAt controls c.control))) plan := by
  obtain ⟨add, copy, rawMove⟩ := words_of inside plan
  rw [applyRound, if_pos more, bind_of_ok (minus_of (by omega) _),
    bind_of_ok (stopIf_false (by omega) _ _), bind_of_ok add, bind_of_ok copy, bind_of_ok rawMove]
  generalize tupleAt controls c.control = tuple at permits
  obtain ⟨room, held, literals, positive, sourceMax, seekMin, seekMax, moves⟩ := permits
  have mixed := @mixed_length base deltas c _ held
  have literal := literal_length literals
  have stored : c.target + (Delta.mix (oldByte base) c.source
      ((deltas.drop c.delta).take tuple.add.toNat)).length ≤ c.output.length := by omega
  have length := splice_length stored
  have low : int64Min ≤ c.source + tuple.add.toNat := by
    unfold int64Min
    omega
  rw [bind_of_ok (minus_of (by omega) _), bind_of_ok (minus_of (by omega) _),
    bind_of_ok (stopIf_false (by omega) _ _), bind_of_ok (addBytes_run positive held (by omega) _),
    bind_of_ok (plus64_of low sourceMax _), bind_of_ok (minus_of (by omega) _),
    bind_of_ok (minus_of (by omega) _), bind_of_ok (stopIf_false (by omega) _ _),
    bind_of_ok (load_of literals _), bind_of_ok (store_of (by omega) _),
    bind_of_ok (stopIf_false (by omega) _ _), bind_of_ok (plus64_of seekMin seekMax _),
    bind_of_ok (stopIf_false moves _ _), pure_run]
  have joined := @splice_splice _ c.output
    (Delta.mix (oldByte base) c.source ((deltas.drop c.delta).take tuple.add.toNat))
    ((extras.drop c.extra).take tuple.copy.toNat) c.target (by omega)
  rw [mixed] at joined
  rw [joined]
  rfl

structure Bounded (controls deltas extras : Bytes) (c : Cursor) : Prop where
  control : c.control ≤ controls.length
  delta : c.delta ≤ deltas.length
  extra : c.extra ≤ extras.length
  target : c.target ≤ c.output.length
  sourceMin : int64Min ≤ c.source
  sourceMax : c.source ≤ int64Max

-- Every way through the round that does not stop has checked what the tuple asks for.
theorem applyRound_permits (bounded : Bounded controls deltas extras c) :
    Ensures (applyRound base controls deltas extras c) (Sum.elim
      (fun _ => c.target < c.output.length ∧ c.control + 12 ≤ controls.length ∧
        Permits deltas extras c (tupleAt controls c.control))
      fun c' => c' = c ∧ c.output.length ≤ c.target) := by
  obtain ⟨control, delta, extra, target, sourceMin, sourceMax⟩ := bounded
  unfold applyRound
  by_cases more : c.target < c.output.length
  · rw [if_pos more]
    refine (Ensures.minus control).bind fun left remains => ?_
    refine (Ensures.stopIf (left < 12) Error.format).bind fun _ enough => ?_
    have inside : c.control + 12 ≤ controls.length := by omega
    refine (Ensures.of_ok fun plan => (words_of inside plan).1).bind ?_
    rintro _ rfl
    refine (Ensures.of_ok fun plan => (words_of inside plan).2.1).bind ?_
    rintro _ rfl
    refine (Ensures.of_ok fun plan => (words_of inside plan).2.2).bind ?_
    rintro _ rfl
    generalize tupleAt controls c.control = tuple
    refine (Ensures.minus target).bind fun room roomLeft => ?_
    refine (Ensures.minus delta).bind fun deltaLeft differences => ?_
    refine (Ensures.stopIf _ Error.format).bind fun _ checked => ?_
    simp only [not_or, Nat.not_lt, Int.not_lt] at checked
    obtain ⟨addRoom, addHeld, positive, sourceRoom⟩ := checked
    have held : c.delta + tuple.add.toNat ≤ deltas.length := by omega
    have mixed := @mixed_length base deltas c _ held
    have addFits : c.target + tuple.add.toNat ≤ c.output.length := by omega
    have length := splice_length (show c.target + (Delta.mix (oldByte base) c.source
      ((deltas.drop c.delta).take tuple.add.toNat)).length ≤ c.output.length by omega)
    refine (Ensures.of_ok (addBytes_run positive held addFits)).bind ?_
    rintro _ rfl
    have low : int64Min ≤ c.source + tuple.add.toNat := by omega
    have high : c.source + tuple.add.toNat ≤ int64Max := by omega
    refine (Ensures.of_ok (plus64_of low high)).bind ?_
    rintro _ rfl
    refine (Ensures.minus (by omega)).bind fun copyRoom copyLeft => ?_
    refine (Ensures.minus extra).bind fun extraLeft literals => ?_
    refine (Ensures.stopIf _ Error.format).bind fun _ copied => ?_
    simp only [not_or, Nat.not_lt] at copied
    have held' : c.extra + tuple.copy.toNat ≤ extras.length := by omega
    refine (Ensures.load held').bind ?_
    rintro _ rfl
    have literal := literal_length held'
    refine (Ensures.store (by omega)).bind fun _ _ => ?_
    refine (Ensures.stopIf _ Error.format).bind fun _ moved => ?_
    simp only [not_or, not_and, Int.not_lt] at moved
    have seekMin : int64Min ≤ c.source + tuple.add.toNat + signedMove tuple.rawMove := by
      by_cases back : signedMove tuple.rawMove < 0
      · have := moved.2 back
        omega
      · omega
    have seekMax : c.source + tuple.add.toNat + signedMove tuple.rawMove ≤ int64Max := by
      by_cases on : signedMove tuple.rawMove > 0
      · have := moved.1 on
        omega
      · omega
    refine (Ensures.of_ok (plus64_of seekMin seekMax)).bind fun _ _ => ?_
    refine (Ensures.stopIf _ Error.format).bind fun _ moves => Ensures.pure ⟨more, inside, ?_⟩
    exact ⟨by omega, held, held', positive, high, seekMin, seekMax, moves⟩
  · rw [if_neg more]
    exact Ensures.pure ⟨rfl, Nat.not_lt.mp more⟩

end round

def stepsOf (tuples : List Tuple) : List Delta.Step := tuples.map Tuple.step

def controlsOf (tuples : List Tuple) : Bytes := tuples.flatMap Tuple.code

@[simp] theorem stepsOf_append (first second : List Tuple) :
    stepsOf (first ++ second) = stepsOf first ++ stepsOf second := List.map_append

@[simp] theorem controlsOf_append (first second : List Tuple) :
    controlsOf (first ++ second) = controlsOf first ++ controlsOf second := List.flatMap_append

@[simp] theorem Tuple.code_length (tuple : Tuple) : tuple.code.length = 12 := rfl

theorem le32_encode_decode {b : Bytes} (long : 4 ≤ b.length) : le32.encode (le32.decode b) = b.take 4 := by
  have length : (b.take 4).length = 4 := by
    rw [List.length_take]
    omega
  have small : Bytes.toNat (b.take 4) < 2 ^ 32 := by
    have bound := Bytes.toNat_lt (b.take 4)
    rwa [length] at bound
  show Bytes.ofNat 4 (UInt32.ofNat (Bytes.toNat (b.take 4))).toNat = b.take 4
  rw [UInt32.toNat_ofNat_of_lt' small]
  have back := Bytes.ofNat_toNat (b.take 4)
  rwa [length] at back

theorem tupleAt_code {controls : Bytes} {offset : Nat} (inside : offset + 12 ≤ controls.length) :
    (tupleAt controls offset).code = (controls.drop offset).take 12 := by
  have word : ∀ k, k + 4 ≤ 12 → le32.encode (le32.decode (controls.drop (offset + k))) =
      ((controls.drop offset).drop k).take 4 := by
    intro k low
    rw [le32_encode_decode (by rw [List.length_drop]; omega), List.drop_drop]
  rw [Tuple.code, tupleAt]
  simp only
  rw [show controls.drop offset = controls.drop (offset + 0) from rfl, word 0 (by omega),
    word 4 (by omega), word 8 (by omega), Nat.add_zero, List.drop_zero,
    show (12 : Nat) = 4 + 4 + 4 from rfl, List.take_add, List.take_add]

structure Applied (base controls deltas extras : Bytes) (size : Nat) (c : Cursor) (tuples : List Tuple) :
    Prop where
  bounded : Bounded controls deltas extras c
  read : controls.take c.control = controlsOf tuples
  delta : c.delta = Delta.adds (stepsOf tuples)
  extra : c.extra = Delta.copies (stepsOf tuples)
  target : c.target = c.delta + c.extra
  source : c.source = Delta.position (stepsOf tuples) 0
  length : c.output.length = size
  written : c.output.take c.target = Delta.replay (oldByte base) (stepsOf tuples) 0 deltas extras

theorem Applied.snoc {base controls deltas extras : Bytes} {size : Nat} {c : Cursor} {tuples : List Tuple}
    (applied : Applied base controls deltas extras size c tuples)
    (inside : c.control + 12 ≤ controls.length)
    (permits : Permits deltas extras c (tupleAt controls c.control)) :
    Applied base controls deltas extras size
      (c.advance base deltas extras (tupleAt controls c.control))
      (tuples ++ [tupleAt controls c.control]) := by
  have code := tupleAt_code inside
  generalize tupleAt controls c.control = tuple at permits code ⊢
  obtain ⟨bounded, read, delta, extra, target, source, length, written⟩ := applied
  obtain ⟨room, held, literals, positive, sourceMax, seekMin, seekMax, _⟩ := permits
  have mixed := @mixed_length base deltas c _ held
  have literal := literal_length literals
  have fits : c.target + (Delta.mix (oldByte base) c.source ((deltas.drop c.delta).take tuple.add.toNat) ++
      (extras.drop c.extra).take tuple.copy.toNat).length ≤ c.output.length := by
    rw [List.length_append]
    omega
  have kept := splice_length fits
  constructor
  case bounded =>
    refine ⟨inside, held, literals, ?_, seekMin, seekMax⟩
    show c.target + tuple.add.toNat + tuple.copy.toNat ≤ (splice _ _ _).length
    rw [kept]
    exact room
  case read =>
    show controls.take (c.control + 12) = _
    rw [List.take_add, read, ← code, controlsOf_append]
    simp [controlsOf]
  case delta =>
    show c.delta + tuple.add.toNat = _
    rw [stepsOf_append, Delta.adds_append, delta]
    rfl
  case extra =>
    show c.extra + tuple.copy.toNat = _
    rw [stepsOf_append, Delta.copies_append, extra]
    rfl
  case target =>
    show c.target + tuple.add.toNat + tuple.copy.toNat =
      c.delta + tuple.add.toNat + (c.extra + tuple.copy.toNat)
    omega
  case source =>
    rw [stepsOf_append, Delta.position_append, ← source]
    rfl
  case length => exact kept.trans length
  case written =>
    rw [stepsOf_append, Delta.replay_append, ← written, ← source, ← delta, ← extra]
    have total : (Delta.mix (oldByte base) c.source ((deltas.drop c.delta).take tuple.add.toNat) ++
        (extras.drop c.extra).take tuple.copy.toNat).length = tuple.add.toNat + tuple.copy.toNat := by
      rw [List.length_append, mixed, literal]
    have whole := take_splice bounded.target (Nat.le_of_eq total.symm)
    rw [← total, List.take_length, total, ← Nat.add_assoc] at whole
    refine whole.trans ?_
    simp [stepsOf, Delta.replay, Tuple.step]

structure Streams (data : Bytes) (size : Nat) (controls deltas extras : Bytes) : Prop where
  tag : data.take 8 = bsdiffTag
  controlSize : (le64.decode (data.drop 8)).toNat = controls.length
  deltaSize : (le64.decode (data.drop 16)).toNat = deltas.length
  size : (le64.decode (data.drop 24)).toNat = size
  header : 32 ≤ data.length
  body : data.drop 32 = controls ++ deltas ++ extras

def Transforms (base data output : Bytes) : Prop :=
  ∃ tuples deltas extras, Streams data output.length (controlsOf tuples) deltas extras ∧
    Delta.adds (stepsOf tuples) = deltas.length ∧ Delta.copies (stepsOf tuples) = extras.length ∧
    output = Delta.replay (oldByte base) (stepsOf tuples) 0 deltas extras

theorem applyRound_ensures {base controls deltas extras : Bytes} {size : Nat} {c : Cursor}
    (known : ∃ tuples, Applied base controls deltas extras size c tuples) :
    Ensures (applyRound base controls deltas extras c) (Sum.elim
      (fun c' => (∃ tuples, Applied base controls deltas extras size c' tuples) ∧
        controls.length - c'.control < controls.length - c.control)
      fun c' => ∃ tuples, Applied base controls deltas extras size c' tuples) := by
  obtain ⟨tuples, applied⟩ := known
  have permitted := @applyRound_permits base _ _ _ _ applied.bounded
  refine Ensures.of_outcomes (fun s r s' run => ?_) fun s stop s' run => permitted.error run
  have permits := permitted.ok run
  cases r with
  | inl c' =>
    obtain ⟨more, inside, permits⟩ := permits
    rw [applyRound_run more inside permits] at run
    cases run
    refine ⟨⟨_, applied.snoc inside permits⟩, ?_⟩
    show controls.length - (c.control + 12) < controls.length - c.control
    omega
  | inr c' =>
    obtain ⟨rfl, _⟩ := permits
    exact ⟨tuples, applied⟩

theorem applyBsd0_ensures (base data : Bytes) (outputSize : Nat) :
    Ensures (applyBsd0 base data outputSize) fun output =>
      output.length = outputSize ∧ Transforms base data output := by
  unfold applyBsd0
  refine (Ensures.stopIf (data.length < 32) Error.format).bind fun _ long => ?_
  rw [Nat.not_lt] at long
  refine (Ensures.load (by omega)).bind ?_
  rintro _ rfl
  refine (Ensures.of_ok (longAt_of (by omega))).bind ?_
  rintro _ rfl
  refine (Ensures.of_ok (longAt_of (by omega))).bind ?_
  rintro _ rfl
  refine (Ensures.of_ok (longAt_of (by omega))).bind ?_
  rintro _ rfl
  refine (Ensures.stopIf _ Error.format).bind fun _ named => ?_
  rw [not_or, not_not, not_not] at named
  obtain ⟨tag, size⟩ := named
  generalize first : (le64.decode (data.drop 8)).toNat = controlSize
  generalize second : (le64.decode (data.drop 16)).toNat = deltaSize
  refine (Ensures.minus long).bind fun body whole => ?_
  refine (Ensures.stopIf _ Error.format).bind fun _ controlFits => ?_
  refine (Ensures.minus (Nat.not_lt.mp controlFits)).bind fun body' rest => ?_
  refine (Ensures.stopIf _ Error.format).bind fun _ deltaFits => ?_
  refine (Ensures.minus (Nat.not_lt.mp deltaFits)).bind fun extraSize last => ?_
  refine (Ensures.load (by omega)).bind ?_
  rintro controls controlsAt
  refine (Ensures.load (by omega)).bind ?_
  rintro deltas deltasAt
  refine (Ensures.load (by omega)).bind ?_
  rintro extras extrasAt
  have controlLength : controls.length = controlSize := by
    rw [controlsAt, List.length_take, List.length_drop]
    omega
  have deltaLength : deltas.length = deltaSize := by
    rw [deltasAt, List.length_take, List.length_drop]
    omega
  have streams : Streams data outputSize controls deltas extras := by
    refine ⟨by simpa using tag, first.trans controlLength.symm, second.trans deltaLength.symm, size,
      long, ?_⟩
    have total : controlSize + deltaSize + extraSize = (data.drop 32).length := by
      rw [List.length_drop]
      omega
    rw [controlsAt, deltasAt, extrasAt, Nat.add_assoc, ← List.drop_drop, ← List.drop_drop,
      ← List.take_add, ← List.take_add, total, List.take_length]
  refine (Ensures.rounds (fun c => ∃ tuples, Applied base controls deltas extras outputSize c tuples)
    (fun c => controls.length - c.control) (fun c => applyRound_ensures) ?_ (by simp only; omega)).bind ?_
  · refine ⟨[], ⟨⟨Nat.zero_le _, Nat.zero_le _, Nat.zero_le _, Nat.zero_le _,
      show int64Min ≤ 0 by decide, show 0 ≤ int64Max by decide⟩, ?_, rfl, rfl, rfl, rfl,
      Bytes.zeros_length _, rfl⟩⟩
    exact List.take_zero
  · rintro c ⟨tuples, applied⟩
    refine (Ensures.stopIf _ Error.format).bind fun _ complete => Ensures.pure ?_
    rw [not_not] at complete
    obtain ⟨targetAll, controlAll, deltaAll, extraAll⟩ := complete
    have read := applied.read
    rw [controlAll, List.take_length] at read
    have written := applied.written
    rw [targetAll, ← applied.length, List.take_length] at written
    refine ⟨applied.length, tuples, deltas, extras, ?_, ?_, ?_, written⟩
    · rw [applied.length, ← read]
      exact streams
    · rw [← applied.delta, deltaAll]
    · rw [← applied.extra, extraAll]

def Playable : List Tuple → Int → Prop
  | [], _ => True
  | tuple :: rest, source =>
    ¬ (tuple.add = 0 ∧ tuple.copy = 0) ∧ 0 ≤ source ∧ source + tuple.add.toNat ≤ int64Max ∧
      int64Min ≤ source + tuple.add.toNat + signedMove tuple.rawMove ∧
      source + tuple.add.toNat + signedMove tuple.rawMove ≤ int64Max ∧
      Playable rest (source + tuple.add.toNat + signedMove tuple.rawMove)

theorem controlsOf_length (tuples : List Tuple) : (controlsOf tuples).length = 12 * tuples.length := by
  induction tuples with
  | nil => rfl
  | cons tuple rest ih =>
    rw [controlsOf, List.flatMap_cons, List.length_append, ← controlsOf, ih, Tuple.code_length,
      List.length_cons]
    omega

theorem tupleAt_controlsOf (done rest : List Tuple) (tuple : Tuple) :
    tupleAt (controlsOf (done ++ tuple :: rest)) (controlsOf done).length = tuple := by
  have word : ∀ w : UInt32, (le32.encode w).length = 4 := fun w => le32.encode_length w
  have split : controlsOf (done ++ tuple :: rest) = controlsOf done ++ (le32.encode tuple.add ++
      (le32.encode tuple.copy ++ (le32.encode tuple.rawMove ++ controlsOf rest))) := by
    simp [controlsOf, Tuple.code]
  unfold tupleAt
  rw [split, ← List.drop_drop, ← List.drop_drop, List.drop_left, List.drop_left' (word _),
    show (8 : Nat) = 4 + 4 from rfl, ← List.drop_drop, List.drop_left' (word _), List.drop_left' (word _),
    decode_encode, decode_encode, decode_encode]

theorem rounds_apply {base deltas extras : Bytes} {size : Nat} {done rest : List Tuple}
    (differences : Delta.adds (stepsOf (done ++ rest)) = deltas.length)
    (literals : Delta.copies (stepsOf (done ++ rest)) = extras.length)
    (total : deltas.length + extras.length = size) {c : Cursor}
    (applied : Applied base (controlsOf (done ++ rest)) deltas extras size c done)
    (at_ : c.control = (controlsOf done).length) (playable : Playable rest c.source) {fuel : Nat}
    (enough : rest.length < fuel) (plan : Faults) :
    ∃ c', rounds (applyRound base (controlsOf (done ++ rest)) deltas extras) fuel c plan = .ok c' plan ∧
      Applied base (controlsOf (done ++ rest)) deltas extras size c' (done ++ rest) ∧
      c'.control = (controlsOf (done ++ rest)).length := by
  induction rest generalizing done c fuel with
  | nil =>
    obtain ⟨fuel, rfl⟩ := Nat.exists_eq_add_one_of_ne_zero (by omega : fuel ≠ 0)
    rw [List.append_nil] at *
    refine ⟨c, rounds_done ?_, applied, at_⟩
    have finished : ¬ c.target < c.output.length := by
      rw [applied.target, applied.delta, applied.extra, applied.length]
      omega
    rw [applyRound, if_neg finished, pure_run]
  | cons tuple rest ih =>
    obtain ⟨fuel, rfl⟩ := Nat.exists_eq_add_one_of_ne_zero (by omega : fuel ≠ 0)
    obtain ⟨moves, positive, sourceMax, seekMin, seekMax, later⟩ := playable
    have here : tupleAt (controlsOf (done ++ tuple :: rest)) c.control = tuple := by
      rw [at_]
      exact tupleAt_controlsOf done rest tuple
    have inside : c.control + 12 ≤ (controlsOf (done ++ tuple :: rest)).length := by
      rw [at_, controlsOf_length, controlsOf_length, List.length_append, List.length_cons]
      omega
    have cons : stepsOf (tuple :: rest) = tuple.step :: stepsOf rest := rfl
    have addsLeft : c.delta + tuple.add.toNat + Delta.adds (stepsOf rest) = deltas.length := by
      rw [applied.delta, ← differences, stepsOf_append, Delta.adds_append, cons, Delta.adds_cons,
        Nat.add_assoc]
      rfl
    have copiesLeft : c.extra + tuple.copy.toNat + Delta.copies (stepsOf rest) = extras.length := by
      rw [applied.extra, ← literals, stepsOf_append, Delta.copies_append, cons, Delta.copies_cons,
        Nat.add_assoc]
      rfl
    have target := applied.target
    have length := applied.length
    have permits : Permits deltas extras c tuple :=
      ⟨by omega, by omega, by omega, positive, sourceMax, seekMin, seekMax, moves⟩
    have more : c.target < c.output.length := by
      have counted : ¬ (tuple.add.toNat = 0 ∧ tuple.copy.toNat = 0) := fun zero =>
        moves ⟨UInt32.toNat_inj.mp zero.1, UInt32.toNat_inj.mp zero.2⟩
      omega
    have asked : Permits deltas extras c (tupleAt (controlsOf (done ++ tuple :: rest)) c.control) := by
      rw [here]
      exact permits
    have step := @applyRound_run base _ _ _ _ more inside asked plan
    have next := applied.snoc inside asked
    rw [here] at step next
    have split : done ++ tuple :: rest = done ++ [tuple] ++ rest := by simp
    rw [rounds_next step, split]
    rw [split] at differences literals next
    refine ih differences literals next ?_ later (by simpa using Nat.lt_of_succ_lt_succ enough)
    show c.control + 12 = _
    rw [at_, controlsOf_length, controlsOf_length, List.length_append, List.length_singleton]
    omega

theorem applyBsd0_run {base data deltas extras : Bytes} {tuples : List Tuple} {size : Nat}
    (streams : Streams data size (controlsOf tuples) deltas extras)
    (differences : Delta.adds (stepsOf tuples) = deltas.length)
    (literals : Delta.copies (stepsOf tuples) = extras.length)
    (total : deltas.length + extras.length = size) (playable : Playable tuples 0) (plan : Faults) :
    applyBsd0 base data size plan =
      .ok (Delta.replay (oldByte base) (stepsOf tuples) 0 deltas extras) plan := by
  obtain ⟨tag, controlSize, deltaSize, sizeAt, header, body⟩ := streams
  have whole := congrArg List.length body
  rw [List.length_drop, List.length_append, List.length_append] at whole
  have controlsAt : (data.drop 32).take (controlsOf tuples).length = controlsOf tuples := by
    rw [body, List.append_assoc, List.take_left]
  have deltasAt : (data.drop (32 + (controlsOf tuples).length)).take deltas.length = deltas := by
    rw [← List.drop_drop, body, List.append_assoc, List.drop_left, List.take_left]
  have extrasAt : (data.drop (32 + (controlsOf tuples).length + deltas.length)).take extras.length = extras := by
    rw [← List.drop_drop, ← List.drop_drop, body, List.append_assoc, List.drop_left, List.drop_left,
      List.take_length]
  have extraSize : data.length - 32 - (controlsOf tuples).length - deltas.length = extras.length := by omega
  unfold applyBsd0
  rw [bind_of_ok (stopIf_false (by omega) _ _), bind_of_ok (load_of (by omega) _),
    bind_of_ok (longAt_of (by omega) _), bind_of_ok (longAt_of (by omega) _),
    bind_of_ok (longAt_of (by omega) _), controlSize, deltaSize, sizeAt,
    bind_of_ok (stopIf_false (by simpa using tag) _ _), bind_of_ok (minus_of (by omega) _),
    bind_of_ok (stopIf_false (by omega) _ _), bind_of_ok (minus_of (by omega) _),
    bind_of_ok (stopIf_false (by omega) _ _), bind_of_ok (minus_of (by omega) _), extraSize,
    bind_of_ok (load_of (by omega) _), controlsAt, bind_of_ok (load_of (by omega) _), deltasAt,
    bind_of_ok (load_of (by omega) _), extrasAt]
  have begun : Applied base (controlsOf tuples) deltas extras size
      { control := 0, delta := 0, extra := 0, target := 0, source := 0, output := Bytes.zeros size } [] :=
    ⟨⟨Nat.zero_le _, Nat.zero_le _, Nat.zero_le _, Nat.zero_le _, show int64Min ≤ 0 by decide,
      show 0 ≤ int64Max by decide⟩, List.take_zero, rfl, rfl, rfl, rfl, Bytes.zeros_length _, rfl⟩
  have fuel : tuples.length < (controlsOf tuples).length + 1 := by
    rw [controlsOf_length]
    omega
  obtain ⟨c, played, applied, control⟩ :=
    @rounds_apply base deltas extras size [] tuples differences literals total _ begun rfl playable _ fuel plan
  rw [List.nil_append] at played applied control
  have delta := applied.delta.trans differences
  have extra := applied.extra.trans literals
  have target : c.target = size := by rw [applied.target, delta, extra, total]
  have written := applied.written
  rw [target, ← applied.length, List.take_length] at written
  rw [bind_of_ok played, bind_of_ok (stopIf_false (not_not.mpr ⟨target, control, delta, extra⟩) _ _),
    pure_run, written]

end Patch

end LibMpq
