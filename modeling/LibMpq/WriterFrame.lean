import LibMpq.Writer

set_option autoImplicit false

namespace LibMpq

open Effect Bits Chunked

namespace Writing

variable {α : Type}

theorem onDisk_ok {x : Op Error Disk α} {a a' : WriteArchive} {r : α} :
    onDisk x a = .ok r a' ↔ ∃ disk, x a.disk = .ok r disk ∧ a' = { a with disk } :=
  zoom_ok

theorem onArchive_ok {x : Op Error WriteArchive α} {s s' : Active} {r : α} :
    onArchive x s = .ok r s' ↔ ∃ archive, x s.archive = .ok r archive ∧ s' = { s with archive } :=
  zoom_ok

theorem streamDisk_ok {x : Op Error Disk α} {s s' : Active} {r : α} :
    streamDisk x s = .ok r s' ↔
      ∃ disk, x s.archive.disk = .ok r disk ∧
        s' = { s with archive := { s.archive with disk } } := by
  simp only [streamDisk, onArchive_ok, onDisk_ok]
  constructor
  · rintro ⟨_, ⟨disk, run, rfl⟩, rfl⟩
    exact ⟨disk, run, rfl⟩
  · rintro ⟨disk, run, rfl⟩
    exact ⟨_, ⟨disk, run, rfl⟩, rfl⟩

structure Follows (s s' : Active) : Prop where
  archive : ∃ disk, s'.archive = { s.archive with disk }
  name : s'.writer.name = s.writer.name
  blockCount : s'.writer.blockCount = s.writer.blockCount
  payloadOffset : s'.writer.payloadOffset = s.writer.payloadOffset
  prefixSize : s'.writer.prefixSize = s.writer.prefixSize
  expected : s'.writer.expected = s.writer.expected
  flags : s'.writer.options.flags = s.writer.options.flags
  first : s'.writer.options.compressionFirst = s.writer.options.compressionFirst
  locale : s'.writer.options.locale = s.writer.options.locale
  platform : s'.writer.options.platform = s.writer.options.platform
  offsets : s'.writer.offsets.isSome = s.writer.offsets.isSome
  checksums : s'.writer.checksums.isSome = s.writer.checksums.isSome
  attributes : s'.writer.attributes.flags = s.writer.attributes.flags
  patchBit : s'.writer.attributes.patchBit = s.writer.attributes.patchBit

instance : Std.Refl Follows := ⟨fun s => by constructor <;> first | rfl | exact ⟨s.archive.disk, rfl⟩⟩

instance : IsTrans Active Follows where
  trans s s' s'' first second := by
    obtain ⟨d, step⟩ := first.archive
    obtain ⟨d', step'⟩ := second.archive
    refine ⟨⟨d', by rw [step', step]⟩, ?_, ?_, ?_, ?_, ?_, ?_, ?_, ?_, ?_, ?_, ?_, ?_, ?_⟩
    · exact second.name.trans first.name
    · exact second.blockCount.trans first.blockCount
    · exact second.payloadOffset.trans first.payloadOffset
    · exact second.prefixSize.trans first.prefixSize
    · exact second.expected.trans first.expected
    · exact second.flags.trans first.flags
    · exact second.first.trans first.first
    · exact second.locale.trans first.locale
    · exact second.platform.trans first.platform
    · exact second.offsets.trans first.offsets
    · exact second.checksums.trans first.checksums
    · exact second.attributes.trans first.attributes
    · exact second.patchBit.trans first.patchBit

theorem follows_disk (s : Active) (disk : Disk) :
    Follows s { s with archive := { s.archive with disk } } := by
  constructor <;> first | rfl | exact ⟨disk, rfl⟩

theorem streamDisk_follows (x : Op Error Disk α) : Keeps Follows (streamDisk x) :=
  Keeps.zoom (S := fun a a' => ∃ disk, a' = { a with disk })
    (Keeps.zoom (Keeps.of_true x) fun a d _ => ⟨d, rfl⟩)
    (by rintro s a ⟨disk, rfl⟩; exact follows_disk s disk)

theorem recordChecksum_follows (packed : Bytes) :
    Keeps Follows (modifyWriter (recordChecksum packed)) := by
  refine Keeps.modify fun s => ?_
  constructor <;> first | rfl | exact ⟨s.archive.disk, rfl⟩ | simp [recordChecksum]

theorem setOffset_follows (i : Writer → Nat) (value : Writer → UInt32) :
    Keeps Follows (modifyWriter fun w => setOffset (i w) (value w) w) := by
  refine Keeps.modify fun s => ?_
  constructor <;> first | rfl | exact ⟨s.archive.disk, rfl⟩ | simp [setOffset]

theorem recordOffset_follows : Keeps Follows recordOffset := by
  refine Keeps.bind Keeps.get fun s => ?_
  split
  · exact Keeps.bind (streamDisk_follows _) fun _ => setOffset_follows _ _
  · exact Keeps.pure ()

theorem flushSector_follows (codecs : Codecs) : Keeps Follows (flushSector codecs) := by
  refine Keeps.bind Keeps.get fun s => ?_
  refine Keeps.bind (Keeps.failIf _ _) fun _ => ?_
  refine Keeps.bind (streamDisk_follows _) fun packed => ?_
  refine Keeps.bind (recordChecksum_follows packed) fun _ => ?_
  refine Keeps.bind (streamDisk_follows _) fun stored => ?_
  refine Keeps.bind recordOffset_follows fun _ => ?_
  refine Keeps.bind (streamDisk_follows _) fun _ => ?_
  refine Keeps.bind (Keeps.modify fun s => ?_) fun _ => ?_
  · constructor <;> first | rfl | exact ⟨s.archive.disk, rfl⟩
  refine Keeps.bind (Keeps.fromExcept _) fun next => ?_
  refine Keeps.modify fun s => ?_
  constructor <;> first | rfl | exact ⟨s.archive.disk, rfl⟩

theorem streamWrite_follows (codecs : Codecs) (data : Bytes) :
    Keeps Follows (streamWrite codecs data) := by
  refine Keeps.bind Keeps.get fun s => ?_
  refine Keeps.bind (Keeps.failIf _ _) fun _ => ?_
  refine Buffer.feed_keeps (fun part s _ => ?_) _ _
  have pushed : Follows s ((sectorBuffer codecs).push part s) := by
    constructor <;> first | rfl | exact ⟨s.archive.disk, rfl⟩
  rw [Buffer.step_run]
  split
  · exact trans_of Follows pushed (flushSector_follows codecs _)
  · exact pushed

theorem writeChecksums_follows (codecs : Codecs) (sums : Nat → UInt32) :
    Keeps Follows (writeChecksums codecs sums) := by
  refine Keeps.bind Keeps.get fun s => ?_
  refine Keeps.bind (streamDisk_follows _) fun _ => ?_
  refine Keeps.bind (streamDisk_follows _) fun encoded => ?_
  refine Keeps.bind (Keeps.failIf _ _) fun _ => ?_
  refine Keeps.bind (streamDisk_follows _) fun _ => ?_
  refine Keeps.modify fun s => ?_
  constructor <;> first | rfl | exact ⟨s.archive.disk, rfl⟩ | simp [setOffset]

theorem writeOffsets_follows (codecs : Codecs) : Keeps Follows (writeOffsets codecs) := by
  refine Keeps.bind Keeps.get fun s => ?_
  refine Keeps.bind (Keeps.failIf _ _) fun _ => ?_
  refine Keeps.bind (setOffset_follows _ _) fun _ => ?_
  refine Keeps.bind ?_ fun _ => ?_
  · cases s.writer.checksums with
    | none => exact Keeps.pure ()
    | some sums => exact writeChecksums_follows codecs sums
  refine Keeps.bind (streamDisk_follows _) fun _ => ?_
  refine Keeps.bind Keeps.get fun s => ?_
  refine Keeps.bind (streamDisk_follows _) fun table => ?_
  exact Keeps.bind (streamDisk_follows _) fun _ => Keeps.pure _

theorem closePayload_follows (codecs : Codecs) : Keeps Follows (closePayload codecs) := by
  refine Keeps.bind Keeps.get fun s => ?_
  refine Keeps.bind (Keeps.failIf _ _) fun _ => ?_
  refine Keeps.bind ?_ fun tableSize => ?_
  · split
    · exact writeOffsets_follows codecs
    · exact Keeps.pure _
  refine Keeps.bind Keeps.get fun s => ?_
  refine Keeps.bind (streamDisk_follows _) fun _ => ?_
  exact Keeps.bind (Keeps.failIf _ _) fun _ => Keeps.pure _

def Prepares (a a' : WriteArchive) : Prop :=
  ∃ disk rows, a' = { a with disk, attributes := rows }

instance : Std.Refl Prepares := ⟨fun a => ⟨a.disk, a.attributes, rfl⟩⟩

instance : IsTrans WriteArchive Prepares where
  trans := by
    rintro a _ _ ⟨disk, rows, rfl⟩ ⟨disk', rows', rfl⟩
    exact ⟨disk', rows', rfl⟩

theorem onDisk_prepares (x : Op Error Disk α) : Keeps Prepares (onDisk x) :=
  Keeps.zoom (Keeps.of_true x) fun a d _ => ⟨d, a.attributes, rfl⟩

theorem reserveAttributes_prepares (name : Bytes) : Keeps Prepares (reserveAttributes name) := by
  refine Keeps.bind Keeps.get fun a => ?_
  split
  · refine Keeps.bind (Keeps.failIf _ _) fun _ => ?_
    refine Keeps.bind (Keeps.failIf _ _) fun _ => ?_
    cases a.attributes with
    | some rows => exact Keeps.pure ()
    | none =>
      refine Keeps.bind (onDisk_prepares _) fun _ => ?_
      exact Keeps.modify fun a => ⟨a.disk, _, rfl⟩
  · exact Keeps.pure ()

-- Preparing a member asks the disk, and apart from that only the rows are touched.
theorem prepareWriter_keeps {R : WriteArchive → WriteArchive → Prop} [Std.Refl R] [IsTrans WriteArchive R]
    {name : Bytes} (disk : ∀ {β : Type} (x : Op Error Disk β), Keeps R (onDisk x))
    (reserves : Keeps R (reserveAttributes name)) (size : Int) (options : FileOptions) (patch : PatchPrefix) :
    Keeps R (prepareWriter name size options patch) := by
  refine Keeps.bind Keeps.get fun a => ?_
  refine Keeps.bind (Keeps.failIf _ _) fun _ => ?_
  refine Keeps.bind (Keeps.failIf _ _) fun _ => ?_
  refine Keeps.bind (Keeps.failIf _ _) fun _ => ?_
  refine Keeps.bind reserves fun _ => ?_
  refine Keeps.bind (disk _) fun _ => ?_
  refine Keeps.bind (Keeps.failIf _ _) fun _ => ?_
  refine Keeps.bind ?_ fun _ => ?_
  · refine Keeps.bind (Keeps.failIf _ _) fun _ => ?_
    exact Keeps.bind (Keeps.failIf _ _) fun _ => Keeps.failIf _ _
  refine Keeps.bind (Keeps.failIf _ _) fun _ => ?_
  refine Keeps.bind (disk _) fun _ => ?_
  refine Keeps.bind (Keeps.failIf _ _) fun _ => ?_
  refine Keeps.bind (disk _) fun position => ?_
  refine Keeps.bind ?_ fun _ => ?_
  · split
    · exact Keeps.pure ()
    · exact disk _
  unfold reserveOffsets
  split
  · refine Keeps.bind (Keeps.failIf _ _) fun _ => ?_
    refine Keeps.bind (disk _) fun _ => ?_
    exact Keeps.bind (disk _) fun _ => Keeps.pure _
  · exact Keeps.pure _

theorem prepareWriter_prepares (name : Bytes) (size : Int) (options : FileOptions)
    (patch : PatchPrefix) : Keeps Prepares (prepareWriter name size options patch) :=
  prepareWriter_keeps onDisk_prepares (reserveAttributes_prepares name) size options patch

theorem prepareWriter_steps {name : Bytes} {size : Int} {options : FileOptions} {patch : PatchPrefix}
    {a a' : WriteArchive} {w : Writer} (run : prepareWriter name size options patch a = .ok w a') :
    0 ≤ size ∧ a.nextBlock < a.capacity ∧ duplicate a name options a.hashCapacity 0 = false ∧
      ¬ (has options.flags Flag.implode = true ∧ has options.flags Flag.compress = true) ∧
      ∃ position b, reserveOffsets (newWriter a name size.toNat (effectiveOptions a size.toNat options)
        patch (position + patch.bytes.length)) b = .ok w a' := by
  unfold prepareWriter at run
  rw [bind_of_ok (get_run a)] at run
  obtain ⟨first, run⟩ := failIf_bind_ok.mp run
  obtain ⟨-, run⟩ := failIf_bind_ok.mp run
  obtain ⟨-, run⟩ := failIf_bind_ok.mp run
  obtain ⟨_, _, -, run⟩ := bind_ok.mp run
  obtain ⟨_, _, -, run⟩ := bind_ok.mp run
  obtain ⟨room, run⟩ := failIf_bind_ok.mp run
  obtain ⟨_, _, checked, run⟩ := bind_ok.mp run
  obtain ⟨exclusive, -⟩ := failIf_bind_ok.mp checked
  obtain ⟨unique, run⟩ := failIf_bind_ok.mp run
  obtain ⟨_, _, -, run⟩ := bind_ok.mp run
  obtain ⟨-, run⟩ := failIf_bind_ok.mp run
  obtain ⟨position, _, -, run⟩ := bind_ok.mp run
  obtain ⟨_, b, -, run⟩ := bind_ok.mp run
  refine ⟨?_, Nat.not_le.mp room, by simpa using unique, exclusive, position, b, run⟩
  exact Int.not_lt.mp fun negative => first (.inl negative)

theorem reserveOffsets_writer {w w' : Writer} {b a' : WriteArchive}
    (run : reserveOffsets w b = .ok w' a') :
    w' = { w with offsets := w'.offsets, checksums := w'.checksums } := by
  unfold reserveOffsets at run
  split at run
  next =>
    obtain ⟨-, run⟩ := failIf_bind_ok.mp run
    obtain ⟨_, _, -, run⟩ := bind_ok.mp run
    obtain ⟨_, _, -, run⟩ := bind_ok.mp run
    rw [(pure_ok.mp run).1]
  next => rw [(pure_ok.mp run).1]

structure Stable (codecs : Codecs) (R : WriteArchive → WriteArchive → Prop) : Prop where
  begin : ∀ name size options, Keeps R (fileBegin name size options)
  write : ∀ data, Keeps R (fileWrite codecs data)
  finish : Keeps R (fileFinish codecs)
  abort : Keeps R fileAbort

theorem copyPages_keeps {codecs : Codecs} {R : WriteArchive → WriteArchive → Prop} [Std.Refl R]
    [IsTrans WriteArchive R] (write : ∀ data, Keeps R (fileWrite codecs data)) (fuel : Nat)
    (source : Disk) : Keeps R (copyPages codecs fuel source) := by
  induction fuel generalizing source with
  | zero => exact Keeps.pure ()
  | succ fuel ih =>
    unfold copyPages
    simp only
    split
    · exact Keeps.failIf _ _
    · refine Keeps.bind (fun a => ?_) fun _ => ?_
      · have kept := write (readPage source).got a
        unfold overrule
        cases run : fileWrite codecs (readPage source).got a with
        | error e a' =>
          rw [run] at kept
          exact kept
        | ok r a' =>
          rw [run] at kept
          simp only
          split <;> exact kept
      · split
        · exact Keeps.pure ()
        · exact ih _

namespace Stable

variable {codecs : Codecs} {R : WriteArchive → WriteArchive → Prop} [IsTrans WriteArchive R]

theorem orAbort (stable : Stable codecs R) {x : Op Error WriteArchive α} (keeps : Keeps R x) :
    Keeps R (orAbort x) := by
  intro a
  have kept := keeps a
  unfold Writing.orAbort
  cases run : x a with
  | ok r a' =>
    rw [run] at kept
    exact kept
  | error e a' =>
    rw [run] at kept
    exact trans_of R kept (stable.abort a')

theorem add (stable : Stable codecs R) (name data : Bytes) (options : FileOptions) :
    Keeps R (fileAdd codecs name data options) := by
  refine Keeps.bind (stable.begin _ _ _) fun _ => ?_
  refine Keeps.bind (stable.orAbort (stable.write data)) fun _ => ?_
  exact stable.finish

theorem addPath [Std.Refl R] (stable : Stable codecs R) (name : Bytes) (source : Disk) (options : FileOptions) :
    Keeps R (fileAddPath codecs name source options) := by
  unfold fileAddPath
  cases openPath source with
  | error e _ => exact Keeps.throw e
  | ok size source =>
    refine Keeps.bind (stable.begin _ _ _) fun _ => ?_
    refine Keeps.bind (stable.orAbort (copyPages_keeps stable.write _ _)) fun _ => ?_
    exact stable.finish

end Stable

end Writing

end LibMpq
