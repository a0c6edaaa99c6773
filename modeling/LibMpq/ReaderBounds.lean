import LibMpq.FileNumbers
import LibMpq.ReaderTracks

set_option autoImplicit false

namespace LibMpq

open Effect Bits Reading

namespace Reading

theorem buildMap_inside (block : Nat → BlockEntry) (count : Nat) :
    (buildMap block count).files ≤ count ∧ ∀ n, n < count → (buildMap block count).indices n < count := by
  constructor
  · have lengths := congrArg List.length (buildMap_listed block count)
    rw [List.length_map, List.length_range] at lengths
    rw [lengths]
    exact (List.length_filter_le _ _).trans_eq List.length_range
  · have listed : ∀ n, (buildMap block count).indices n = 0 ∨ (buildMap block count).indices n < count := by
      induction count with
      | zero => exact fun n => .inl rfl
      | succ count ih =>
        intro n
        rw [buildMap_succ, mapStep]
        have before := ih n
        split
        next =>
          simp only
          split
          · exact .inr (Nat.lt_succ_self count)
          · omega
        next =>
          simp only
          omega
    intro n below
    have := listed n
    omega

end Reading

namespace Watching

theorem inTables_of_handle {a : ReadArchive} (handle : Handle a) : InTables a := by
  obtain ⟨files, map⟩ := buildMap_inside a.block (slots a)
  refine ⟨?_, fun n inside => ?_⟩
  · rw [handle.files]
    exact files
  · rw [entryIndex, handle.indices]
    exact map n inside

/-- An archive that was opened, after any calls on it and its streams. -/
def Opened (codecs : Codecs) (a : ReadArchive) : Prop :=
  ∃ source archiveOffset plan plan' first calls,
    openSource source archiveOffset plan = .ok first plan' ∧ a = (Session.run codecs ⟨first, []⟩ calls).archive

theorem Opened.inTables {codecs : Codecs} {a : ReadArchive} (opened : Opened codecs a) : InTables a := by
  obtain ⟨source, archiveOffset, plan, plan', first, calls, run, rfl⟩ := opened
  have tables : InTables first := inTables_of_handle (openSource_handle run)
  have sound : Sound .arrays first := ⟨fun _ => tables, fun reads => by cases reads⟩
  exact (sound.same (shape_of_same (Session.run_kept codecs calls ⟨first, []⟩).toSameArchive)).tables rfl

theorem archiveClone_inTables {a a' clone : ReadArchive} (run : Streaming.archiveClone a = .ok clone a') :
    InTables clone := by
  unfold Streaming.archiveClone at run
  rw [bind_of_ok (get_run a)] at run
  obtain ⟨plan, cloned, -⟩ := zoom_ok.mp run
  obtain ⟨b, _, path, cloned⟩ := bind_ok.mp cloned
  obtain ⟨_, _, -, cloned⟩ := bind_ok.mp cloned
  obtain ⟨rfl, -⟩ := pure_ok.mp cloned
  unfold openPath at path
  obtain ⟨_, _, -, path⟩ := bind_ok.mp path
  obtain ⟨_, _, -, path⟩ := bind_ok.mp path
  exact inTables_of_handle (openSource_handle path)

theorem streamOpen_eq (codecs : Codecs) (number : Nat) (a : ReadArchive) :
    streamOpen .arrays codecs number a = plainly (Streaming.streamOpen codecs number) a := by
  unfold streamOpen Streaming.streamOpen
  rw [bind_of_ok (get_run a), plainly, bind_of_ok (get_run a), validateFileNumber]
  by_cases outside : number ≥ a.files
  next => rw [bind_of_error (stopIf_true outside _ a), bind_of_error (failIf_true outside _ a)]
  next =>
    rw [bind_of_ok (stopIf_false outside _ a), bind_of_ok (failIf_false outside _ a), bind_run, plainly, bind_run]
    cases cloned : Streaming.archiveClone a with
    | error e b => rfl
    | ok clone b =>
      have tables := archiveClone_inTables cloned
      have sound : Sound .arrays clone := ⟨fun _ => tables, fun reads => by cases reads⟩
      have watched := (streamAdopt_tracks sound rfl codecs number none { clone with plan := b.plan }
        ⟨rfl, rfl, rfl, rfl, rfl⟩).1
      simp only [onClone, Streaming.onClone, watched, plainly]
      cases Streaming.streamAdopt codecs number none { clone with plan := b.plan } <;> rfl

/-- The calls that take a file number, most of them a block number as well. -/
inductive NumberCall where
  | blockRead (number block : Nat) (buffer : Bytes)
  | blockSizePacked (number block : Nat)
  | blockSizeUnpacked (number block : Nat)
  | blockCompression (number block : Nat)
  | blockVerify (number block : Nat)
  | fileRead (number : Nat) (buffer : Bytes)
  | streamOpen (number : Nat)

abbrev NumberCall.call : NumberCall → ArchiveCall
  | blockRead number block buffer => .blockRead number block buffer
  | blockSizePacked number block => .blockSizePacked number block
  | blockSizeUnpacked number block => .blockSizeUnpacked number block
  | blockCompression number block => .blockCompression number block
  | blockVerify number block => .blockVerify number block
  | fileRead number buffer => .fileRead number buffer
  | streamOpen number => .streamOpen number

-- `libmpq__block_read`
def blockReadData (codecs : Codecs) (number block : Nat) (buffer : Bytes) :
    Op (Stop Error) ReadArchive FileData := do
  let (transferred, window) ← blockRead .arrays codecs number block none buffer
  pure { buffer := window.buffer, transferred }

def NumberCall.run (codecs : Codecs) : (c : NumberCall) → Op (Stop Error) ReadArchive c.call.Reply
  | .blockRead number block buffer => blockReadData codecs number block buffer
  | .blockSizePacked number block => Watching.blockSizePacked .arrays number block
  | .blockSizeUnpacked number block => do Watching.blockSizeUnpacked .arrays (← get) number block
  | .blockCompression number block => Watching.blockCompression .arrays number block
  | .blockVerify number block => verifyBlock .arrays codecs number block
  | .fileRead number buffer => Watching.fileRead .arrays codecs number buffer
  | .streamOpen number => Watching.streamOpen .arrays codecs number

def NumberCall.Outside (a : ReadArchive) : NumberCall → Prop
  | .blockRead number block _ | .blockSizePacked number block | .blockSizeUnpacked number block
  | .blockCompression number block | .blockVerify number block =>
    number ≥ a.files ∨ block ≥ Reading.countFileBlocks a number
  | .fileRead number _ | .streamOpen number => number ≥ a.files

/-- No index leaves its array, and numbers that are too large are answered. -/
structure Bounded (codecs : Codecs) (a : ReadArchive) (c : NumberCall) : Prop where
  inside : ¬ Undefined (c.run codecs a)
  exist : c.Outside a → ∃ a', c.run codecs a = .error (.error .exist) a'

/-- A block is read under a file number that the arrays have a slot for. -/
def NumberCall.Slotted (a : ReadArchive) : NumberCall → Prop
  | .blockRead number _ _ => number < a.header.blockTableCount.toNat
  | _ => True

section bounded

variable {codecs : Codecs} {a : ReadArchive} (tables : InTables a)

include tables

theorem NumberCall.run_eq {c : NumberCall} (slotted : c.Slotted a) :
    c.run codecs a = plainly (c.call.run codecs) a := by
  have sound : Sound .arrays a := ⟨fun _ => tables, fun reads => nomatch reads⟩
  have self := refl_of SameShape a
  cases c with
  | blockRead number block buffer =>
    exact (Tracks.bind (blockRead_tracks sound rfl codecs slotted block none buffer)
      (fun _ => Tracks.pure _) a self).1
  | blockSizePacked number block => exact (blockSizePacked_tracks sound rfl number block a self).1
  | blockSizeUnpacked number block =>
    exact congrFun (blockSizeUnpacked_eq sound number block) a
  | blockCompression number block => exact (blockCompression_tracks sound rfl number block a self).1
  | blockVerify number block => exact (verifyBlock_tracks sound rfl codecs number block a self).1
  | fileRead number buffer => exact (fileRead_tracks sound rfl codecs number buffer a self).1
  | streamOpen number => exact streamOpen_eq codecs number a

omit tables in
theorem NumberCall.run_outside {c : NumberCall} (outside : c.Outside a) :
    c.call.run codecs a = .error .exist a := by
  have packed : ∀ number block, number ≥ a.files ∨ block ≥ Reading.countFileBlocks a number →
      Reading.blockSizePacked number block a = .error .exist a := by
    intro number block outside
    rw [Reading.blockSizePacked, bind_of_ok (get_run a), bind_of_error (failIf_true outside _ a)]
  cases c with
  | blockRead number block buffer =>
    have refused : Reading.blockRead codecs number block none buffer a = .error .exist a := by
      rw [Reading.blockRead, bind_of_ok (get_run a)]
      by_cases within : block ≥ Reading.countFileBlocks a number
      next => rw [bind_of_error (failIf_true within _ a)]
      next =>
        have beyond : number ≥ a.files := outside.resolve_right within
        have unheld : Reading.offsetsAcquire number none a = .error .exist a := by
          rw [Reading.offsetsAcquire, bind_of_ok (get_run a), bind_of_error (failIf_true beyond _ a)]
        rw [bind_of_ok (failIf_false within _ a), bind_of_error unheld]
    exact bind_of_error refused _
  | blockSizePacked number block => exact packed number block outside
  | blockSizeUnpacked number block =>
    have answer : Reading.blockSizeUnpacked a number block = .error .exist := if_pos outside
    change ask (Reading.blockSizeUnpacked · number block) a = _
    rw [ask, bind_of_ok (get_run a), answer]
    rfl
  | blockCompression number block => exact bind_of_error (packed number block outside) _
  | blockVerify number block =>
    have outside : number ≥ a.files ∨ block ≥ Reading.countFileBlocks a number := outside
    change Reading.verifyBlock codecs number block a = _
    rw [Reading.verifyBlock, bind_of_ok (get_run a), bind_of_error (failIf_true outside _ a)]
  | fileRead number buffer =>
    have outside : number ≥ a.files := outside
    have refused : Reading.readMember codecs number buffer a = .error .exist a := by
      rw [Reading.readMember, bind_of_ok (get_run a), bind_of_error (failIf_true outside _ a)]
    exact bind_of_error refused _
  | streamOpen number =>
    have outside : number ≥ a.files := outside
    change Streaming.streamOpen codecs number a = _
    rw [Streaming.streamOpen, bind_of_ok (get_run a), bind_of_error (failIf_true outside _ a)]

theorem bounded_of_slotted {c : NumberCall} (slotted : c.Slotted a) : Bounded codecs a c where
  inside := by
    rw [c.run_eq tables slotted]
    exact plainly_defined _ a
  exist outside := by
    rw [c.run_eq tables slotted, plainly_error (c.run_outside outside)]
    exact ⟨a, rfl⟩

omit tables in
theorem blockRead_undefined {number : Nat} (beyond : ¬ number < a.header.blockTableCount.toNat) (block : Nat)
    (buffer : Bytes) : Undefined ((NumberCall.blockRead number block buffer).run codecs a) := by
  have first : (slot .arrays a number : Op (Stop Error) ReadArchive Unit) a = .error .undefined a :=
    require_not (fun inside => beyond (inside rfl)) a
  have looked : (validateBlockNumber .arrays a number block : Op (Stop Error) ReadArchive Unit) a =
      .error .undefined a := by
    rw [validateBlockNumber, countFileBlocks, entryAt, mapAt]
    exact bind_of_error (bind_of_error (bind_of_error (bind_of_error first _) _) _) _
  have read : Watching.blockRead .arrays codecs number block none buffer a = .error .undefined a := by
    rw [Watching.blockRead, bind_of_ok (get_run a), bind_of_error looked]
  rw [NumberCall.run, blockReadData, bind_of_error read]
  trivial

end bounded

theorem numberCall_bounded_iff (codecs : Codecs) (a : ReadArchive) (opened : Opened codecs a) (c : NumberCall) :
    Bounded codecs a c ↔ c.Slotted a := by
  refine ⟨fun bounded => ?_, bounded_of_slotted opened.inTables⟩
  cases c with
  | blockRead number block buffer =>
    by_contra beyond
    exact bounded.inside (blockRead_undefined beyond block buffer)
  | _ => trivial

-- Two entries, and a block read under the file number two.
theorem blockRead_beyond_gap :
    ∃ a plan, openSource (File.ofBytes gapImage) 0 Faults.healthy = .ok a plan ∧
      ¬ Bounded Compression.zeroRunCodecs a (.blockRead 2 0 []) := by
  have opens : succeeded ((openSource (File.ofBytes gapImage) 0 >>= fun a =>
      failIf (a.header.blockTableCount.toNat ≠ 2) .format) Faults.healthy) = true := by
    decide +kernel
  cases run : openSource (File.ofBytes gapImage) 0 Faults.healthy with
  | error e plan =>
    rw [bind_of_error run] at opens
    cases opens
  | ok a plan =>
    rw [bind_of_ok run] at opens
    have two : a.header.blockTableCount.toNat = 2 := by
      by_contra other
      rw [failIf_true other] at opens
      cases opens
    refine ⟨a, plan, rfl, fun bounded => bounded.inside (blockRead_undefined ?_ 0 [])⟩
    rw [two]
    decide

theorem numberCall_bounded_gap :
    ∃ a plan, openSource (File.ofBytes gapImage) 0 Faults.healthy = .ok a plan ∧
      (Bounded Compression.zeroRunCodecs a (.blockRead 1 0 []) ↔
        (NumberCall.blockRead 1 0 []).Slotted a) := by
  have opens : succeeded (openSource (File.ofBytes gapImage) 0 Faults.healthy) = true := by decide +kernel
  cases run : openSource (File.ofBytes gapImage) 0 Faults.healthy with
  | error e plan =>
    rw [run] at opens
    cases opens
  | ok a plan =>
    exact ⟨a, plan, rfl, numberCall_bounded_iff _ a ⟨_, _, _, _, a, [], run, rfl⟩ _⟩

end Watching

end LibMpq
