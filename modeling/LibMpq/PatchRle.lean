import LibMpq.Base.Checked
import LibMpq.Base.Bytes
import LibMpq.Types

set_option autoImplicit false

namespace LibMpq

open Effect

namespace Patch

def byteAt {σ : Type} (buffer : Bytes) (offset : Nat) : Op (Stop Error) σ UInt8 := do
  let byte ← load buffer offset 1
  pure (byte.getD 0 0)

theorem minus_of {σ : Type} {a b : Nat} (below : b ≤ a) (s : σ) :
    (minus a b : Op (Stop Error) σ Nat) s = .ok (a - b) s := by
  rw [minus, bind_of_ok (require_of below s), pure_run]

theorem byteAt_of {σ : Type} {buffer : Bytes} {offset : Nat} (inside : offset < buffer.length) (s : σ) :
    byteAt buffer offset s = .ok (buffer.getD offset 0) s := by
  rw [byteAt, bind_of_ok (load_of inside s), pure_run]
  simp [List.getElem?_drop]

inductive Run
  | zeros (count : Nat)
  | literal (bytes : Bytes)

namespace Run

def expand : Run → Bytes
  | zeros count => Bytes.zeros count
  | literal bytes => bytes

def code : Run → Bytes
  | zeros count => [UInt8.ofNat (count - 1)]
  | literal bytes => (UInt8.ofNat (bytes.length - 1) ||| 0x80) :: bytes

def Valid (run : Run) : Prop := 0 < run.expand.length ∧ run.expand.length ≤ 128

end Run

def expandAll (runs : List Run) : Bytes := runs.flatMap Run.expand

def codeAll (runs : List Run) : Bytes := runs.flatMap Run.code

theorem command_zeros {count : Nat} (positive : 0 < count) (small : count ≤ 128) :
    UInt8.ofNat (count - 1) &&& 0x80 = 0 ∧ (UInt8.ofNat (count - 1) &&& 0x7F).toNat + 1 = count := by
  have each : ∀ n : Fin 128, UInt8.ofNat n.1 &&& 0x80 = 0 ∧ (UInt8.ofNat n.1 &&& 0x7F).toNat = n.1 := by
    decide
  obtain ⟨bit, rest⟩ := each ⟨count - 1, by omega⟩
  exact ⟨bit, by rw [rest]; simp only; omega⟩

theorem command_literal {count : Nat} (positive : 0 < count) (small : count ≤ 128) :
    (UInt8.ofNat (count - 1) ||| 0x80) &&& 0x80 ≠ 0 ∧
      ((UInt8.ofNat (count - 1) ||| 0x80) &&& 0x7F).toNat + 1 = count := by
  have each : ∀ n : Fin 128, (UInt8.ofNat n.1 ||| 0x80) &&& 0x80 ≠ 0 ∧
      ((UInt8.ofNat n.1 ||| 0x80) &&& 0x7F).toNat = n.1 := by decide
  obtain ⟨bit, rest⟩ := each ⟨count - 1, by omega⟩
  exact ⟨bit, by rw [rest]; simp only; omega⟩

theorem command_cases (command : UInt8) :
    (command &&& 0x7F).toNat < 128 ∧
      (command &&& 0x80 = 0 → UInt8.ofNat (command &&& 0x7F).toNat = command) ∧
      (command &&& 0x80 ≠ 0 → UInt8.ofNat (command &&& 0x7F).toNat ||| 0x80 = command) := by
  have each : ∀ n : Fin 256, (UInt8.ofNat n.1 &&& 0x7F).toNat < 128 ∧
      (UInt8.ofNat n.1 &&& 0x80 = 0 → UInt8.ofNat (UInt8.ofNat n.1 &&& 0x7F).toNat = UInt8.ofNat n.1) ∧
      (UInt8.ofNat n.1 &&& 0x80 ≠ 0 →
        UInt8.ofNat (UInt8.ofNat n.1 &&& 0x7F).toNat ||| 0x80 = UInt8.ofNat n.1) := by
    decide +kernel
  simpa using each ⟨command.toNat, command.toNat_lt⟩

structure Expand where
  input : Nat
  output : Nat
  decoded : Bytes

def expandRound (encoded : Bytes) (w : Expand) : Op (Stop Error) Faults (Expand ⊕ Expand) :=
  if w.input < encoded.length ∧ w.output < w.decoded.length then do
    let command ← byteAt encoded w.input
    let input := w.input + 1
    let count := (command &&& 0x7F).toNat + 1
    let room ← minus w.decoded.length w.output
    stopIf (count > room) .format
    if command &&& 0x80 ≠ 0 then
      let left ← minus encoded.length input
      stopIf (count > left) .format
      let part ← load encoded input count
      let decoded ← store w.decoded w.output part
      pure (.inl { input := input + count, output := w.output + count, decoded })
    else pure (.inl { w with input, output := w.output + count })
  else pure (.inr w)

-- `patch_expand_rle`
def expandRle (encoded : Bytes) (decodedSize : Nat) : Op (Stop Error) Faults Bytes := do
  stopIf (encoded.length < 4) .format
  let w ← rounds (expandRound encoded) (encoded.length + 1)
    { input := 4, output := 0, decoded := Bytes.zeros decodedSize }
  stopIf (¬ (w.input = encoded.length ∧ w.output = w.decoded.length)) .format
  pure w.decoded

section round

variable {encoded : Bytes} {w : Expand} (left : w.input < encoded.length)
  (room : w.output < w.decoded.length) (plan : Faults)
include left room

theorem expandRound_zeros (bit : encoded.getD w.input 0 &&& 0x80 = 0)
    (fits : w.output + ((encoded.getD w.input 0 &&& 0x7F).toNat + 1) ≤ w.decoded.length) :
    expandRound encoded w plan = .ok (.inl { w with
      input := w.input + 1
      output := w.output + ((encoded.getD w.input 0 &&& 0x7F).toNat + 1) }) plan := by
  rw [expandRound, if_pos ⟨left, room⟩, bind_of_ok (byteAt_of left _),
    bind_of_ok (minus_of (Nat.le_of_lt room) _), bind_of_ok (stopIf_false (by omega) _ _),
    if_neg (not_not.mpr bit), pure_run]

theorem expandRound_literal (bit : encoded.getD w.input 0 &&& 0x80 ≠ 0)
    (fits : w.output + ((encoded.getD w.input 0 &&& 0x7F).toNat + 1) ≤ w.decoded.length)
    (held : w.input + 1 + ((encoded.getD w.input 0 &&& 0x7F).toNat + 1) ≤ encoded.length) :
    expandRound encoded w plan = .ok (.inl {
      input := w.input + 1 + ((encoded.getD w.input 0 &&& 0x7F).toNat + 1)
      output := w.output + ((encoded.getD w.input 0 &&& 0x7F).toNat + 1)
      decoded := splice w.decoded w.output
        ((encoded.drop (w.input + 1)).take ((encoded.getD w.input 0 &&& 0x7F).toNat + 1)) }) plan := by
  have length : ((encoded.drop (w.input + 1)).take
      ((encoded.getD w.input 0 &&& 0x7F).toNat + 1)).length =
      (encoded.getD w.input 0 &&& 0x7F).toNat + 1 := by
    rw [List.length_take, List.length_drop]
    omega
  rw [expandRound, if_pos ⟨left, room⟩, bind_of_ok (byteAt_of left _),
    bind_of_ok (minus_of (Nat.le_of_lt room) _), bind_of_ok (stopIf_false (by omega) _ _),
    if_pos bit, bind_of_ok (minus_of left _), bind_of_ok (stopIf_false (by omega) _ _),
    bind_of_ok (load_of held _), bind_of_ok (store_of (by rw [length]; exact fits) _), pure_run]

theorem expandRound_refused
    (refused : w.decoded.length < w.output + ((encoded.getD w.input 0 &&& 0x7F).toNat + 1) ∨
      encoded.getD w.input 0 &&& 0x80 ≠ 0 ∧
        encoded.length < w.input + 1 + ((encoded.getD w.input 0 &&& 0x7F).toNat + 1)) :
    expandRound encoded w plan = .error (.error .format) plan := by
  rw [expandRound, if_pos ⟨left, room⟩, bind_of_ok (byteAt_of left _),
    bind_of_ok (minus_of (Nat.le_of_lt room) _)]
  by_cases large : w.decoded.length < w.output + ((encoded.getD w.input 0 &&& 0x7F).toNat + 1)
  · rw [bind_of_error (stopIf_true (by omega) _ _)]
  · obtain ⟨bit, short⟩ := refused.resolve_left large
    rw [bind_of_ok (stopIf_false (by omega) _ _), if_pos bit, bind_of_ok (minus_of left _),
      bind_of_error (stopIf_true (by omega) _ _)]

end round

structure Expanded (encoded : Bytes) (decodedSize : Nat) (w : Expand) (runs : List Run) : Prop where
  valid : ∀ run ∈ runs, run.Valid
  inside : w.input ≤ encoded.length
  read : encoded.take w.input = encoded.take 4 ++ codeAll runs
  written : w.decoded = expandAll runs ++ Bytes.zeros (decodedSize - w.output)
  output : w.output = (expandAll runs).length
  room : w.output ≤ decodedSize

theorem Expanded.length {encoded : Bytes} {decodedSize : Nat} {w : Expand} {runs : List Run}
    (expanded : Expanded encoded decodedSize w runs) : w.decoded.length = decodedSize := by
  have := expanded.room
  rw [expanded.written, List.length_append, Bytes.zeros_length, ← expanded.output]
  omega

theorem Expanded.snoc {encoded : Bytes} {decodedSize : Nat} {w w' : Expand} {runs : List Run} {run : Run}
    (expanded : Expanded encoded decodedSize w runs) (valid : run.Valid)
    (inside : w'.input ≤ encoded.length) (read : encoded.take w'.input = encoded.take w.input ++ run.code)
    (output : w'.output = w.output + run.expand.length) (room : w'.output ≤ decodedSize)
    (written : w'.decoded = expandAll runs ++ run.expand ++ Bytes.zeros (decodedSize - w'.output)) :
    Expanded encoded decodedSize w' (runs ++ [run]) where
  valid := by
    intro other found
    obtain earlier | last := List.mem_append.mp found
    · exact expanded.valid other earlier
    · rw [List.mem_singleton.mp last]
      exact valid
  inside := inside
  read := by
    rw [read, expanded.read, codeAll, codeAll, List.flatMap_append, List.flatMap_singleton,
      List.append_assoc]
  written := by
    rw [written, expandAll, expandAll, List.flatMap_append, List.flatMap_singleton]
  output := by
    rw [output, expanded.output, expandAll, expandAll, List.flatMap_append, List.flatMap_singleton,
      List.length_append]
  room := room

theorem take_getD {encoded : Bytes} {i : Nat} (inside : i < encoded.length) :
    encoded.take (i + 1) = encoded.take i ++ [encoded.getD i 0] := by
  rw [List.take_add_one, List.getElem?_eq_getElem inside, List.getD_eq_getElem?_getD,
    List.getElem?_eq_getElem inside]
  rfl

theorem expandRound_ensures {encoded : Bytes} {decodedSize : Nat} {w : Expand}
    (known : ∃ runs, Expanded encoded decodedSize w runs) :
    Ensures (expandRound encoded w) (Sum.elim
      (fun w' => (∃ runs, Expanded encoded decodedSize w' runs) ∧
        encoded.length - w'.input < encoded.length - w.input)
      fun w' => ∃ runs, Expanded encoded decodedSize w' runs) := by
  obtain ⟨runs, expanded⟩ := known
  have length := expanded.length
  have written := expanded.written
  have output := expanded.output
  intro plan
  by_cases going : w.input < encoded.length ∧ w.output < w.decoded.length
  · obtain ⟨left, free⟩ := going
    generalize counted : (encoded.getD w.input 0 &&& 0x7F).toNat = count
    obtain ⟨small, plain, marked⟩ := command_cases (encoded.getD w.input 0)
    rw [counted] at small plain marked
    by_cases refused : w.decoded.length < w.output + (count + 1) ∨
        encoded.getD w.input 0 &&& 0x80 ≠ 0 ∧ encoded.length < w.input + 1 + (count + 1)
    · rw [expandRound_refused left free plan (by rw [counted]; exact refused)]
      trivial
    · rw [not_or, Nat.not_lt] at refused
      by_cases bit : encoded.getD w.input 0 &&& 0x80 = 0
      · rw [expandRound_zeros left free plan bit (by rw [counted]; exact refused.1), counted]
        refine ⟨⟨runs ++ [.zeros (count + 1)], expanded.snoc ?_ left ?_ ?_ ?_ ?_⟩, by simp only; omega⟩
        · exact ⟨by simp [Run.expand], by simp [Run.expand]; omega⟩
        · rw [take_getD left, ← plain bit]
          rfl
        · exact congrArg (w.output + ·) (Bytes.zeros_length _).symm
        · simp only
          omega
        · rw [written, List.append_assoc]
          congr 1
          rw [Run.expand, Bytes.zeros, Bytes.zeros, Bytes.zeros, List.replicate_append_replicate]
          congr 1
          simp only
          omega
      · have held : w.input + 1 + (count + 1) ≤ encoded.length := by
          by_contra short
          exact refused.2 ⟨bit, Nat.not_le.mp short⟩
        rw [expandRound_literal left free plan bit (by rw [counted]; exact refused.1)
          (by rw [counted]; exact held), counted]
        have part : ((encoded.drop (w.input + 1)).take (count + 1)).length = count + 1 := by
          rw [List.length_take, List.length_drop]
          omega
        refine ⟨⟨runs ++ [.literal ((encoded.drop (w.input + 1)).take (count + 1))],
          expanded.snoc ?_ held ?_ ?_ ?_ ?_⟩, by simp only; omega⟩
        · exact ⟨by simp only [Run.expand, part]; omega, by simp only [Run.expand, part]; omega⟩
        · rw [List.take_add, take_getD left, ← marked bit, List.append_assoc, Run.code, part]
          rfl
        · exact congrArg (w.output + ·) part.symm
        · simp only
          omega
        · show splice w.decoded w.output _ =
            expandAll runs ++ _ ++ Bytes.zeros (decodedSize - (w.output + (count + 1)))
          rw [written, output, splice_append, part, Bytes.zeros, Bytes.zeros, List.drop_replicate,
            Nat.sub_sub]
          rfl
  · rw [expandRound, if_neg going, pure_run]
    exact ⟨runs, expanded⟩

def Unwraps (encoded decoded : Bytes) : Prop :=
  ∃ head runs, head.length = 4 ∧ (∀ run ∈ runs, run.Valid) ∧ encoded = head ++ codeAll runs ∧
    decoded = expandAll runs

theorem expandRle_ensures (encoded : Bytes) (decodedSize : Nat) :
    Ensures (expandRle encoded decodedSize) fun decoded =>
      decoded.length = decodedSize ∧ Unwraps encoded decoded := by
  refine (Ensures.stopIf (encoded.length < 4) Error.format).bind fun _ long => ?_
  rw [Nat.not_lt] at long
  refine (Ensures.rounds (fun w => ∃ runs, Expanded encoded decodedSize w runs)
    (fun w => encoded.length - w.input) (fun w => expandRound_ensures) ?_ (by simp only; omega)).bind ?_
  · exact ⟨[], by simp, long, (List.append_nil _).symm, rfl, rfl, Nat.zero_le _⟩
  · rintro w ⟨runs, expanded⟩
    refine (Ensures.stopIf _ Error.format).bind fun _ complete => Ensures.pure ?_
    rw [not_not, expanded.length] at complete
    obtain ⟨valid, _, read, written, output, _⟩ := expanded
    rw [complete.1, List.take_length] at read
    rw [complete.2, Nat.sub_self] at written
    have whole : w.decoded = expandAll runs := written.trans (List.append_nil _)
    refine ⟨by rw [whole, ← output, complete.2], encoded.take 4, runs, ?_, valid, read, whole⟩
    rw [List.length_take]
    omega

theorem expandRound_run {before after written : Bytes} {run : Run} (valid : run.Valid) {free : Nat}
    (plan : Faults) :
    expandRound (before ++ run.code ++ after) { input := before.length, output := written.length
                                                decoded := written ++ Bytes.zeros (run.expand.length + free) }
      plan = .ok (.inl { input := (before ++ run.code).length, output := (written ++ run.expand).length
                         decoded := written ++ run.expand ++ Bytes.zeros free }) plan := by
  obtain ⟨positive, small⟩ := valid
  cases run with
  | zeros count =>
    have count_eq : (Run.zeros count).expand.length = count := Bytes.zeros_length count
    rw [count_eq] at positive small ⊢
    obtain ⟨bit, back⟩ := command_zeros positive small
    have head : (before ++ (Run.zeros count).code ++ after).getD before.length 0 =
        UInt8.ofNat (count - 1) := by
      simp [Run.code, List.getD_eq_getElem?_getD]
    rw [expandRound_zeros (by simp [Run.code]) (by simp; omega) plan (by rw [head]; exact bit)
      (by rw [head, back]; simp), head, back]
    congr 3
    · rw [List.length_append]
      rfl
    · rw [List.length_append, count_eq]
    · rw [List.append_assoc, Run.expand, Bytes.zeros, Bytes.zeros, Bytes.zeros,
        List.replicate_append_replicate]
  | literal bytes =>
    have count_eq : (Run.literal bytes).expand.length = bytes.length := rfl
    rw [count_eq] at positive small ⊢
    obtain ⟨bit, back⟩ := command_literal positive small
    have head : (before ++ (Run.literal bytes).code ++ after).getD before.length 0 =
        UInt8.ofNat (bytes.length - 1) ||| 0x80 := by
      simp [Run.code, List.getD_eq_getElem?_getD]
    have part : ((before ++ (Run.literal bytes).code ++ after).drop (before.length + 1)).take bytes.length =
        bytes := by
      rw [List.append_assoc, List.drop_length_add_append, Run.code, List.cons_append, List.drop_one,
        List.tail_cons, List.take_left]
    rw [expandRound_literal (by simp [Run.code]) (by simp; omega) plan (by rw [head]; exact bit)
      (by rw [head, back]; simp) (by rw [head, back]; simp [Run.code]; omega), head, back, part]
    congr 3
    · simp [Run.code]
      omega
    · rw [List.length_append, count_eq]
    · rw [splice_append, Bytes.zeros, Bytes.zeros, List.drop_replicate, Nat.add_sub_cancel_left]
      rfl

theorem rounds_expand {before written : Bytes} {runs : List Run} (valid : ∀ run ∈ runs, run.Valid)
    {fuel : Nat} (enough : runs.length < fuel) (plan : Faults) :
    rounds (expandRound (before ++ codeAll runs)) fuel
      { input := before.length, output := written.length
        decoded := written ++ Bytes.zeros (expandAll runs).length } plan =
      .ok { input := (before ++ codeAll runs).length, output := (written ++ expandAll runs).length
            decoded := written ++ expandAll runs } plan := by
  induction runs generalizing before written fuel with
  | nil =>
    obtain ⟨fuel, rfl⟩ := Nat.exists_eq_add_one_of_ne_zero (by omega : fuel ≠ 0)
    refine rounds_done ?_
    rw [expandRound, if_neg (by simp [codeAll]), pure_run]
    simp [expandAll, codeAll, Bytes.zeros]
  | cons run rest ih =>
    obtain ⟨fuel, rfl⟩ := Nat.exists_eq_add_one_of_ne_zero (by omega : fuel ≠ 0)
    have step := @expandRound_run before (codeAll rest) written run (valid run List.mem_cons_self)
      (expandAll rest).length plan
    have code : before ++ run.code ++ codeAll rest = before ++ codeAll (run :: rest) := by
      simp [codeAll]
    have expand : (expandAll (run :: rest)).length = run.expand.length + (expandAll rest).length := by
      simp [expandAll]
    rw [code, ← expand] at step
    rw [rounds_next step, ← code]
    rw [ih (fun other found => valid other (List.mem_cons_of_mem _ found))
      (by simpa using Nat.lt_of_succ_lt_succ enough)]
    simp [expandAll]

theorem length_codeAll (runs : List Run) : runs.length ≤ (codeAll runs).length := by
  induction runs with
  | nil => exact Nat.zero_le _
  | cons run rest ih =>
    have positive : 1 ≤ run.code.length := by
      cases run <;> simp [Run.code]
    rw [codeAll, List.flatMap_cons, List.length_append, List.length_cons, ← codeAll]
    omega

theorem expandRle_runs {head : Bytes} {runs : List Run} (start : head.length = 4)
    (valid : ∀ run ∈ runs, run.Valid) (plan : Faults) :
    expandRle (head ++ codeAll runs) (expandAll runs).length plan = .ok (expandAll runs) plan := by
  have enough := length_codeAll runs
  unfold expandRle
  have run := @rounds_expand head [] runs valid ((head ++ codeAll runs).length + 1)
    (by rw [List.length_append]; omega) plan
  rw [start] at run
  rw [bind_of_ok (stopIf_false (by rw [List.length_append]; omega) _ _)]
  refine (bind_of_ok run _).trans ?_
  rw [bind_of_ok (stopIf_false (by simp) _ _), pure_run]
  rfl

def countAlike (zero : Bool) : Nat → Bytes → Nat
  | 0, _ => 0
  | _, [] => 0
  | limit + 1, b :: rest => if (b = 0 : Bool) = zero then countAlike zero limit rest + 1 else 0

structure Encode where
  input : Nat
  used : Nat
  output : Bytes

def encodeRound (raw : Bytes) (w : Encode) : Op (Stop Error) Faults (Encode ⊕ Encode) :=
  if w.input < raw.length then do
    let first ← byteAt raw w.input
    let zero : Bool := first = 0
    let count := countAlike zero 128 (raw.drop w.input)
    let output ← store w.output w.used [UInt8.ofNat (count - 1) ||| (if zero then 0 else 0x80)]
    if zero then pure (.inl { input := w.input + count, used := w.used + 1, output })
    else
      let part ← load raw w.input count
      let output ← store output (w.used + 1) part
      pure (.inl { input := w.input + count, used := w.used + 1 + count, output })
  else pure (.inr w)

-- `patch_bsd0_rle`, into a buffer of the size that `patch_bsd0_pack` requests
def bsd0Rle (raw : Bytes) : Op (Stop Error) Faults Bytes := do
  let output := Bytes.zeros (raw.length * 2 + 4)
  let output ← store output 0 (Bytes.zeros 4)
  let w ← rounds (encodeRound raw) (raw.length + 1) { input := 0, used := 4, output }
  pure (w.output.take w.used)

theorem countAlike_spec (zero : Bool) (limit : Nat) (data : Bytes) :
    countAlike zero limit data ≤ limit ∧ countAlike zero limit data ≤ data.length ∧
      ∀ b ∈ data.take (countAlike zero limit data), (b = 0 : Bool) = zero := by
  induction limit generalizing data with
  | zero => simp [countAlike]
  | succ limit ih =>
    cases data with
    | nil => simp [countAlike]
    | cons b rest =>
      obtain ⟨limited, inside, alike⟩ := ih rest
      rw [countAlike]
      split
      next same =>
        refine ⟨by omega, by rw [List.length_cons]; omega, ?_⟩
        rw [List.take_succ_cons]
        intro c found
        obtain rfl | later := List.mem_cons.mp found
        · exact same
        · exact alike c later
      next => simp

theorem countAlike_positive {b : UInt8} {rest : Bytes} (limit : Nat) :
    0 < countAlike (b = 0) (limit + 1) (b :: rest) := by
  rw [countAlike, if_pos rfl]
  exact Nat.succ_pos _

structure Encoded (raw : Bytes) (w : Encode) (runs : List Run) : Prop where
  valid : ∀ run ∈ runs, run.Valid
  inside : w.input ≤ raw.length
  read : raw.take w.input = expandAll runs
  buffer : w.output.length = raw.length * 2 + 4
  written : w.output.take w.used = Bytes.zeros 4 ++ codeAll runs
  room : w.used ≤ w.input * 2 + 4

theorem Encoded.snoc {raw : Bytes} {w w' : Encode} {runs : List Run} {run : Run}
    (encoded : Encoded raw w runs) (valid : run.Valid) (inside : w'.input ≤ raw.length)
    (read : raw.take w'.input = raw.take w.input ++ run.expand) (buffer : w'.output.length = w.output.length)
    (written : w'.output.take w'.used = w.output.take w.used ++ run.code)
    (room : w'.used ≤ w'.input * 2 + 4) : Encoded raw w' (runs ++ [run]) where
  valid := by
    intro other found
    obtain earlier | last := List.mem_append.mp found
    · exact encoded.valid other earlier
    · rw [List.mem_singleton.mp last]
      exact valid
  inside := inside
  read := by
    rw [read, encoded.read, expandAll, expandAll, List.flatMap_append, List.flatMap_singleton]
  buffer := buffer.trans encoded.buffer
  written := by
    rw [written, encoded.written, codeAll, codeAll, List.flatMap_append, List.flatMap_singleton,
      List.append_assoc]
  room := room

theorem encodeRound_serves {raw : Bytes} {w : Encode} (known : ∃ runs, Encoded raw w runs) :
    Serves (encodeRound raw w) (Sum.elim
      (fun w' => (∃ runs, Encoded raw w' runs) ∧ raw.length - w'.input < raw.length - w.input)
      fun w' => w'.input = raw.length ∧ ∃ runs, Encoded raw w' runs) := by
  obtain ⟨runs, encoded⟩ := known
  have inside := encoded.inside
  have buffer := encoded.buffer
  have room := encoded.room
  unfold encodeRound
  by_cases more : w.input < raw.length
  · rw [if_pos more]
    refine (Serves.of_ok (byteAt_of more) rfl : Serves (byteAt raw w.input) fun b =>
      b = raw.getD w.input 0).bind ?_
    rintro _ rfl
    have front : raw.drop w.input = raw.getD w.input 0 :: raw.drop (w.input + 1) := by
      rw [List.drop_eq_getElem_cons more, List.getD_eq_getElem?_getD, List.getElem?_eq_getElem more]
      rfl
    obtain ⟨small, held, alike⟩ :=
      countAlike_spec (raw.getD w.input 0 = 0) 128 (raw.drop w.input)
    have positive : 0 < countAlike (raw.getD w.input 0 = 0) 128 (raw.drop w.input) := by
      rw [front]
      exact countAlike_positive 127
    simp only
    generalize countAlike (raw.getD w.input 0 = 0) 128 (raw.drop w.input) = count at small held alike positive ⊢
    rw [List.length_drop] at held
    have read : raw.take (w.input + count) = raw.take w.input ++ (raw.drop w.input).take count :=
      List.take_add
    have part : ((raw.drop w.input).take count).length = count := by
      rw [List.length_take, List.length_drop]
      omega
    refine (Serves.store (by rw [List.length_singleton]; omega)).bind fun first stored => ?_
    have length : first.length = w.output.length := by
      rw [stored]
      exact splice_length (by rw [List.length_singleton]; omega)
    have begun : first.take (w.used + 1) = w.output.take w.used ++
        [UInt8.ofNat (count - 1) ||| if decide (raw.getD w.input 0 = 0) then 0 else 0x80] := by
      rw [stored]
      exact take_splice (by omega) (Nat.le_refl 1)
    by_cases zero : raw.getD w.input 0 = 0
    · rw [if_pos (decide_eq_true zero)]
      rw [if_pos (decide_eq_true zero)] at begun
      refine Serves.pure ⟨⟨runs ++ [.zeros count], encoded.snoc ?_ ?_ ?_ length ?_ ?_⟩, ?_⟩
      · exact ⟨by simpa [Run.expand] using positive, by simpa [Run.expand] using small⟩
      · simp only
        omega
      · rw [read]
        congr 1
        rw [Run.expand, Bytes.zeros, List.eq_replicate_iff]
        refine ⟨part, fun b found => ?_⟩
        have same := alike b found
        rwa [decide_eq_true zero, decide_eq_true_iff] at same
      · rw [begun]
        simp [Run.code]
      · simp only
        omega
      · simp only
        omega
    · rw [if_neg (by simpa using zero)]
      rw [if_neg (by simpa using zero)] at begun
      refine (Serves.load (by omega)).bind ?_
      rintro _ rfl
      refine (Serves.store (by rw [part, length]; omega)).bind fun second ended => Serves.pure ?_
      refine ⟨⟨runs ++ [.literal ((raw.drop w.input).take count)], encoded.snoc ?_ ?_ ?_ ?_ ?_ ?_⟩, ?_⟩
      · exact ⟨by simpa only [Run.expand, part] using positive, by simpa only [Run.expand, part] using small⟩
      · simp only
        omega
      · exact read
      · rw [ended, splice_length (by rw [part, length]; omega), length]
      · have whole := @take_splice _ first ((raw.drop w.input).take count) (w.used + 1) count
          (by omega) (by omega)
        have all : ((raw.drop w.input).take count).take count = (raw.drop w.input).take count :=
          List.take_of_length_le (Nat.le_of_eq part)
        rw [all] at whole
        show second.take (w.used + 1 + count) = _
        rw [ended, whole, begun, Run.code, part, List.append_assoc]
        rfl
      · simp only
        omega
      · simp only
        omega
  · rw [if_neg more]
    exact Serves.pure ⟨by omega, runs, encoded⟩

theorem bsd0Rle_serves (raw : Bytes) :
    Serves (bsd0Rle raw) fun encoded => encoded.length ≤ raw.length * 2 + 4 ∧ Unwraps encoded raw := by
  unfold bsd0Rle
  refine (Serves.store (by simp)).bind fun output stored => ?_
  have length : output.length = raw.length * 2 + 4 := by
    rw [stored, splice_length (by simp), Bytes.zeros_length]
  have header : output.take 4 = Bytes.zeros 4 := by
    have whole := @take_splice _ (Bytes.zeros (raw.length * 2 + 4)) (Bytes.zeros 4) 0 4
      (Nat.zero_le _) (Nat.le_refl 4)
    rw [stored]
    exact whole
  refine (Serves.rounds (fun w => ∃ runs, Encoded raw w runs) (fun w => raw.length - w.input)
    (fun w => encodeRound_serves) ?_ (by simp only; omega)).bind ?_
  · exact ⟨[], by simp, Nat.zero_le _, rfl, length, by rw [header]; exact (List.append_nil _).symm,
      Nat.le_refl 4⟩
  · rintro w ⟨done, runs, encoded⟩
    refine Serves.pure ⟨?_, Bytes.zeros 4, runs, Bytes.zeros_length 4, encoded.valid, encoded.written, ?_⟩
    · rw [List.length_take, encoded.buffer]
      exact Nat.min_le_right _ _
    · rw [← encoded.read, done, List.take_length]

theorem expandRle_unwraps {encoded raw : Bytes} (unwraps : Unwraps encoded raw) (plan : Faults) :
    expandRle encoded raw.length plan = .ok raw plan := by
  obtain ⟨head, runs, start, valid, rfl, rfl⟩ := unwraps
  exact expandRle_runs start valid plan

end Patch

end LibMpq
