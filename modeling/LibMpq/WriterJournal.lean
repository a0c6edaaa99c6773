import LibMpq.ReaderNames
import LibMpq.WriterChunking

set_option autoImplicit false

namespace LibMpq

open Effect Bits Chunked

namespace Writing

def Calmly (a a' : WriteArchive) : Prop := Disk.Steady a.disk a'.disk

instance : Std.Refl Calmly := ⟨fun a => refl_of Disk.Steady a.disk⟩

instance : IsTrans WriteArchive Calmly where
  trans _ _ _ first second := trans_of Disk.Steady first second

def StreamCalmly (s s' : Active) : Prop := Disk.Steady s.archive.disk s'.archive.disk

instance : Std.Refl StreamCalmly := ⟨fun s => refl_of Disk.Steady s.archive.disk⟩

instance : IsTrans Active StreamCalmly where
  trans _ _ _ first second := trans_of Disk.Steady first second

theorem onDisk_calmly {α : Type} {x : Op Error Disk α} (keeps : Keeps Disk.Steady x) : Keeps Calmly (onDisk x) :=
  Keeps.zoom keeps fun _ _ steady => steady

theorem streamDisk_calmly {α : Type} {x : Op Error Disk α} (keeps : Keeps Disk.Steady x) :
    Keeps StreamCalmly (streamDisk x) := by
  intro s
  have kept := keeps s.archive.disk
  simp only [streamDisk, onArchive, onDisk, Effect.zoom]
  cases run : x s.archive.disk <;> rw [run] at kept <;> exact kept

theorem modifyWriter_calmly (f : Writer → Writer) : Keeps StreamCalmly (modifyWriter f) :=
  Keeps.modify fun s => refl_of Disk.Steady s.archive.disk

theorem flushSector_calmly (codecs : Codecs) : Keeps StreamCalmly (flushSector codecs) := by
  refine Keeps.bind Keeps.get fun s => ?_
  refine Keeps.bind (Keeps.failIf _ _) fun _ => ?_
  refine Keeps.bind (streamDisk_calmly (Disk.steady_onPlan (packSector_steady codecs s))) fun packed => ?_
  refine Keeps.bind (modifyWriter_calmly _) fun _ => ?_
  refine Keeps.bind (streamDisk_calmly (Disk.steady_onPlan (encryptSector_steady _ _))) fun stored => ?_
  refine Keeps.bind ?_ fun _ => ?_
  · refine Keeps.bind Keeps.get fun s => ?_
    split
    · exact Keeps.bind (streamDisk_calmly (Disk.steady_tell _)) fun _ => modifyWriter_calmly _
    · exact Keeps.pure ()
  refine Keeps.bind (streamDisk_calmly (Disk.steady_write _ _)) fun _ => ?_
  refine Keeps.bind (modifyWriter_calmly _) fun _ => ?_
  exact Keeps.bind (Keeps.fromExcept _) fun next => modifyWriter_calmly _

theorem streamWrite_calmly (codecs : Codecs) (data : Bytes) : Keeps StreamCalmly (streamWrite codecs data) := by
  refine Keeps.bind Keeps.get fun s => ?_
  refine Keeps.bind (Keeps.failIf _ _) fun _ => ?_
  refine Buffer.feed_keeps (fun part s _ => ?_) _ _
  have pushed : StreamCalmly s ((sectorBuffer codecs).push part s) := refl_of Disk.Steady _
  rw [Buffer.step_run]
  split
  · exact trans_of StreamCalmly pushed (flushSector_calmly codecs _)
  · exact pushed

theorem writeChecksums_calmly (codecs : Codecs) (sums : Nat → UInt32) :
    Keeps StreamCalmly (writeChecksums codecs sums) := by
  refine Keeps.bind Keeps.get fun s => ?_
  refine Keeps.bind (streamDisk_calmly (Disk.steady_alloc _)) fun _ => ?_
  refine Keeps.bind (streamDisk_calmly (Disk.steady_onPlan (Compression.encodeSector_steady _ _ _ _ _))) fun _ => ?_
  refine Keeps.bind (Keeps.failIf _ _) fun _ => ?_
  refine Keeps.bind (streamDisk_calmly (Disk.steady_write _ _)) fun _ => ?_
  exact modifyWriter_calmly _

theorem writeOffsets_calmly (codecs : Codecs) : Keeps StreamCalmly (writeOffsets codecs) := by
  refine Keeps.bind Keeps.get fun s => ?_
  refine Keeps.bind (Keeps.failIf _ _) fun _ => ?_
  refine Keeps.bind (modifyWriter_calmly _) fun _ => ?_
  refine Keeps.bind ?_ fun _ => ?_
  · cases s.writer.checksums with
    | none => exact Keeps.pure ()
    | some sums => exact writeChecksums_calmly codecs sums
  refine Keeps.bind (streamDisk_calmly (Disk.steady_alloc _)) fun _ => ?_
  refine Keeps.bind Keeps.get fun s => ?_
  refine Keeps.bind (streamDisk_calmly (Disk.steady_onPlan (encryptTable_steady _ _))) fun table => ?_
  exact Keeps.bind (streamDisk_calmly (Disk.steady_writeAt _ _ table)) fun _ => Keeps.pure _

theorem publish_calmly (blockOffset total : Nat) : Keeps StreamCalmly (publish blockOffset total) := by
  have archiveOnly : ∀ f : WriteArchive → WriteArchive, (∀ a, (f a).disk = a.disk) →
      Keeps StreamCalmly (onArchive (modify f)) := by
    intro f same s
    show Disk.Steady s.archive.disk (f s.archive).disk
    rw [same]
    exact refl_of Disk.Steady _
  refine Keeps.bind Keeps.get fun s => ?_
  refine Keeps.bind Keeps.get fun t => ?_
  refine Keeps.bind (archiveOnly _ fun _ => rfl) fun _ => ?_
  refine Keeps.bind Keeps.get fun u => ?_
  dsimp only
  split
  · exact archiveOnly _ fun _ => rfl
  · exact Keeps.throw _

theorem streamFinish_calmly (codecs : Codecs) : Keeps StreamCalmly (streamFinish codecs) := by
  refine Keeps.bind ?_ fun total => ?_
  · refine Keeps.bind Keeps.get fun s => ?_
    refine Keeps.bind (Keeps.failIf _ _) fun _ => ?_
    refine Keeps.bind ?_ fun tableSize => ?_
    · split
      · exact writeOffsets_calmly codecs
      · exact Keeps.pure _
    refine Keeps.bind Keeps.get fun s => ?_
    refine Keeps.bind (streamDisk_calmly (Disk.steady_seek _ _)) fun _ => ?_
    exact Keeps.bind (Keeps.failIf _ _) fun _ => Keeps.pure _
  · refine Keeps.bind Keeps.get fun s => ?_
    dsimp only
    split
    next => exact Keeps.failIf _ _
    next => exact publish_calmly _ _

theorem streamEnd_calmly (codecs : Codecs) : Keeps StreamCalmly (streamEnd codecs) := by
  refine Keeps.bind Keeps.get fun s => ?_
  refine Keeps.bind ?_ fun _ => streamFinish_calmly codecs
  split
  · exact flushSector_calmly codecs
  · exact Keeps.pure ()

theorem withWriter_calmly {α : Type} {x : Op Error Active α} (e : Error) (keeps : Keeps StreamCalmly x) :
    Keeps Calmly (withWriter e x) := by
  intro a
  unfold withWriter
  cases active : a.current with
  | none => exact refl_of Calmly a
  | some w =>
    have kept := keeps ⟨w, a⟩
    simp only
    cases run : x ⟨w, a⟩ <;> rw [run] at kept <;> exact kept

theorem reserveAttributes_calmly (name : Bytes) : Keeps Calmly (reserveAttributes name) := by
  refine Keeps.bind Keeps.get fun a => ?_
  split
  · refine Keeps.bind (Keeps.failIf _ _) fun _ => ?_
    refine Keeps.bind (Keeps.failIf _ _) fun _ => ?_
    split
    · exact Keeps.pure ()
    · refine Keeps.bind (onDisk_calmly (Disk.steady_alloc _)) fun _ => ?_
      exact Keeps.modify fun a => refl_of Disk.Steady a.disk
  · exact Keeps.pure ()

theorem reserveOffsets_calmly (w : Writer) : Keeps Calmly (reserveOffsets w) := by
  unfold reserveOffsets
  split
  · refine Keeps.bind (Keeps.failIf _ _) fun _ => ?_
    refine Keeps.bind (onDisk_calmly (Disk.steady_alloc _)) fun _ => ?_
    exact Keeps.bind (onDisk_calmly (Disk.steady_seek _ _)) fun _ => Keeps.pure _
  · exact Keeps.pure _

theorem prepareWriter_calmly (name : Bytes) (size : Int) (options : FileOptions) (patch : PatchPrefix) :
    Keeps Calmly (prepareWriter name size options patch) := by
  refine Keeps.bind Keeps.get fun a => ?_
  refine Keeps.bind (Keeps.failIf _ _) fun _ => ?_
  refine Keeps.bind (Keeps.failIf _ _) fun _ => ?_
  refine Keeps.bind (Keeps.failIf _ _) fun _ => ?_
  refine Keeps.bind (reserveAttributes_calmly name) fun _ => ?_
  refine Keeps.bind (onDisk_calmly (Disk.steady_alloc _)) fun _ => ?_
  refine Keeps.bind (Keeps.failIf _ _) fun _ => ?_
  refine Keeps.bind ?_ fun _ => ?_
  · refine Keeps.bind (Keeps.failIf _ _) fun _ => ?_
    exact Keeps.bind (Keeps.failIf _ _) fun _ => Keeps.failIf _ _
  refine Keeps.bind (Keeps.failIf _ _) fun _ => ?_
  refine Keeps.bind (onDisk_calmly (Disk.steady_alloc _)) fun _ => ?_
  refine Keeps.bind (Keeps.failIf _ _) fun _ => ?_
  refine Keeps.bind (onDisk_calmly (Disk.steady_tell _)) fun position => ?_
  refine Keeps.bind ?_ fun _ => reserveOffsets_calmly _
  split
  · exact Keeps.pure ()
  · exact onDisk_calmly (Disk.steady_writeAt _ _ _)

theorem stable_calmly (codecs : Codecs) : Stable codecs Calmly where
  begin name size options :=
    Keeps.bind (prepareWriter_calmly name size options .none) fun w =>
      Keeps.modify fun a => refl_of Disk.Steady a.disk
  write data := withWriter_calmly _ (streamWrite_calmly codecs data)
  finish := by
    intro a
    have kept := withWriter_calmly .exist (streamEnd_calmly codecs) a
    unfold fileFinish dropWriter
    cases run : withWriter .exist (streamEnd codecs) a <;> rw [run] at kept <;> exact kept
  abort := Keeps.modify fun a => refl_of Disk.Steady a.disk

structure Leaves (a b : WriteArchive) : Prop where
  archive : ∃ disk rows current, b = { a with disk, attributes := rows, current }
  rows : ∀ old, a.attributes = some old → b.attributes = some old
  disk : Disk.Above a.disk.pos a.disk b.disk
  active : ∀ w, b.current = some w → a.disk.pos ≤ w.payloadOffset

theorem Leaves.same {a b : WriteArchive} (leaves : Leaves a b) :
    b.nextBlock = a.nextBlock ∧ b.names = a.names := by
  obtain ⟨disk, rows, current, rfl⟩ := leaves.archive
  exact ⟨rfl, rfl⟩

theorem Leaves.refl {a : WriteArchive} (idle : a.current = none) : Leaves a a where
  archive := ⟨a.disk, a.attributes, a.current, rfl⟩
  rows _ := id
  disk := refl_of (Disk.Above a.disk.pos) a.disk
  active w active := by
    rw [idle] at active
    cases active

def KeepsRows (a b : WriteArchive) : Prop := ∀ old, a.attributes = some old → b.attributes = some old

instance : Std.Refl KeepsRows := ⟨fun _ _ => id⟩

instance : IsTrans WriteArchive KeepsRows := ⟨fun _ _ _ first second old known => second old (first old known)⟩

theorem onDisk_keepsRows {α : Type} (x : Op Error Disk α) : Keeps KeepsRows (onDisk x) :=
  Keeps.zoom (Keeps.of_true x) fun _ _ _ _ => id

theorem reserveAttributes_keepsRows (name : Bytes) : Keeps KeepsRows (reserveAttributes name) := by
  intro a
  have failed : ∀ (e : Error) (b : WriteArchive), a = b →
      KeepsRows a (final (.error e b : EStateM.Result Error WriteArchive Unit)) := by
    rintro e b rfl
    exact refl_of KeepsRows a
  unfold reserveAttributes
  rw [bind_of_ok (get_run a)]
  split
  · refine @Keeps.bind_elim _ _ _ _ Eq _ (fun r => KeepsRows a (final r)) _ _ _ _ (Keeps.failIf _ _) rfl
      failed fun _ b _ same => ?_
    refine @Keeps.bind_elim _ _ _ _ Eq _ (fun r => KeepsRows a (final r)) _ _ _ _ (Keeps.failIf _ _) same
      failed fun _ b _ same => ?_
    subst same
    cases known : a.attributes with
    | some rows => exact refl_of KeepsRows a
    | none =>
      intro old row
      rw [known] at row
      cases row
  · exact refl_of KeepsRows a

theorem prepareWriter_keepsRows (name : Bytes) (size : Int) (options : FileOptions) (patch : PatchPrefix) :
    Keeps KeepsRows (prepareWriter name size options patch) :=
  prepareWriter_keeps onDisk_keepsRows (reserveAttributes_keepsRows name) size options patch

theorem fileBegin_leaves {a : WriteArchive} (idle : a.current = none) (name : Bytes) (size : Int)
    (options : FileOptions) : Leaves a (final (fileBegin name size options a)) := by
  have prepared := @prepareWriter_prepared a.disk.pos a name size options .none le_rfl (Nat.zero_le _)
  have rows := prepareWriter_keepsRows name size options .none a
  unfold fileBegin fileBeginWith
  cases run : prepareWriter name size options .none a with
  | error e b =>
    rw [run] at prepared rows
    obtain ⟨⟨disk, reserved, archive, above⟩, -⟩ := prepared
    rw [final_error] at archive rows
    rw [bind_of_error run, final_error]
    subst archive
    refine ⟨⟨disk, reserved, a.current, rfl⟩, rows, above, fun w active => ?_⟩
    rw [show _ = none from idle] at active
    cases active
  | ok w b =>
    rw [run] at prepared rows
    obtain ⟨⟨disk, reserved, archive, above⟩, placed⟩ := prepared
    rw [final_ok] at archive rows
    rw [bind_of_ok run]
    refine ⟨⟨disk, reserved, some w, by subst archive; rfl⟩, rows, ?_, ?_⟩
    · subst archive
      exact above
    · intro w' active
      cases active
      exact (Nat.le_add_right _ _).trans (placed w b rfl).start

theorem fileBegin_busy {b : WriteArchive} (busy : b.current.isSome = true) (name : Bytes) (size : Int)
    (options : FileOptions) : fileBegin name size options b = .error .format b := by
  have refused : size < 0 ∨ b.current.isSome = true ∨ (PatchPrefix.none.bytes ≠ [] ∧ (b.patchMode = false ∨
      PatchPrefix.none.resultSize > uint32Max)) := .inr (.inl busy)
  unfold fileBegin fileBeginWith prepareWriter
  rw [bind_run, bind_of_ok (get_run b), bind_of_error (failIf_true refused _ _)]

theorem Leaves.ending {a b : WriteArchive} (leaves : Leaves a b) {w : Writer} (active : b.current = some w)
    {s : Active} (ending : Ending a.disk.pos ⟨w, b⟩ s) {current : Option Writer}
    (next : ∀ w', current = some w' → w' = s.writer) : Leaves a { s.archive with current } := by
  have start := leaves.active w active
  have behind : Behind a.disk.pos ⟨w, b⟩ s := ending.behind start
  unfold Behind at behind
  obtain ⟨disk, archive⟩ := ending.follows.archive
  obtain ⟨disk', rows, current', rfl⟩ := leaves.archive
  refine ⟨⟨s.archive.disk, rows, current, by rw [archive]⟩, ?_, trans_of (Disk.Above a.disk.pos) leaves.disk behind, ?_⟩
  · rw [archive]
    exact leaves.rows
  · intro w' chosen
    rw [next w' chosen, ending.follows.payloadOffset]
    exact start

theorem Leaves.write {codecs : Codecs} {a b : WriteArchive} (leaves : Leaves a b) (data : Bytes) :
    Leaves a (final (fileWrite codecs data b)) := by
  cases active : b.current with
  | none =>
    simp only [fileWrite, withWriter, active]
    exact leaves
  | some w =>
    have ending : Ending a.disk.pos ⟨w, b⟩ (final (streamWrite codecs data ⟨w, b⟩)) :=
      ending_of (streamWrite_follows codecs data) (streamWrite_behind codecs data) _
    have next := leaves.ending active ending fun _ same => (Option.some.inj same).symm
    rw [fileWrite_run active]
    cases run : streamWrite codecs data ⟨w, b⟩ <;> rw [run] at next <;> exact next

theorem Leaves.settle {a b : WriteArchive} (leaves : Leaves a b) : Leaves a { b with current := none } := by
  obtain ⟨disk, rows, current, rfl⟩ := leaves.archive
  refine ⟨⟨disk, rows, none, rfl⟩, leaves.rows, leaves.disk, fun w active => ?_⟩
  cases active

def Finished (limit : Nat) (s : Active) (r : EStateM.Result Error Active Unit) : Prop :=
  Ending limit s (final r) ∨ ∃ t, r = .ok () t ∧ t.archive.nextBlock = s.archive.nextBlock + 1

theorem streamEnd_finished {codecs : Codecs} {s : Active} (sound : Sound s.archive)
    (room : s.archive.nextBlock < s.archive.capacity) (limit : Nat) : Finished limit s (streamEnd codecs s) := by
  have failed : ∀ e t, Ending limit s t → Finished limit s (.error e t) := fun _ _ => .inl
  refine Keeps.bind_elim (R := Ending limit) Keeps.get (refl_of _ _) failed fun _ t got same => ?_
  cases got
  refine Keeps.bind_elim (R := Ending limit) ?_ same failed fun _ t _ same => ?_
  · split
    · exact ending_of (flushSector_follows codecs) (flushSector_behind codecs)
    · exact Keeps.pure ()
  refine Keeps.bind_elim (closePayload_ending codecs) same failed fun total t closed same => ?_
  rw [bind_of_ok (get_run t)]
  split
  next => exact .inl (trans_of (Ending limit) same (Keeps.failIf _ _ t))
  next =>
    obtain ⟨disk, archive⟩ := same.follows.archive
    obtain ⟨pos, -, -, -, done⟩ := publish_run (sound.follows same.follows) (by rw [archive]; exact room)
      (t.writer.payloadOffset - t.writer.prefixSize) total
    refine .inr ⟨_, done, ?_⟩
    rw [archive]
    rfl

theorem Leaves.finish {codecs : Codecs} {a b : WriteArchive} (leaves : Leaves a b) (inv : Inv b) :
    Leaves a (final (fileFinish codecs b)) ∨
      (succeeded (fileFinish codecs b) = true ∧ (final (fileFinish codecs b)).nextBlock = b.nextBlock + 1) := by
  cases active : b.current with
  | none =>
    simp only [fileFinish, dropWriter, withWriter, active]
    exact .inl leaves.settle
  | some w =>
    have working := inv.current w active
    rw [fileFinish_final active, fileFinish_run active]
    rcases @streamEnd_finished codecs _ working.sound working.room a.disk.pos with ending | ⟨t, run, more⟩
    · exact .inl (leaves.ending active ending fun _ same => by cases same)
    · rw [run]
      exact .inr ⟨rfl, more⟩

structure Filled (size count : Nat) (s : Active) : Prop extends Fillable s where
  room : s.writer.data.length < s.archive.sectorSize
  written : s.writer.written = count
  expected : s.writer.expected = size

theorem streamWrite_filled {codecs : Codecs} {data : Bytes} {size count : Nat} {s s' : Active}
    (filled : Filled size count s) (run : streamWrite codecs data s = .ok () s') :
    Filled size (count + data.length) s' := by
  have laws := sectorBuffer_laws codecs
  unfold streamWrite at run
  rw [bind_of_ok (get_run s)] at run
  obtain ⟨-, run⟩ := failIf_bind_ok.mp run
  obtain ⟨valid, room, written, expected⟩ := @Buffer.feed_ok _ _ (sectorBuffer codecs)
    (fun x t => Fillable t ∧ 0 < (sectorBuffer codecs).room t ∧
      t.writer.written = count + x.length ∧ t.writer.expected = size)
    (by
      rintro x part t t' ⟨valid, room, written, expected⟩ fits step
      obtain ⟨valid', room'⟩ := laws.step_ok valid step
      obtain ⟨written', expected'⟩ := step_written step
      refine ⟨valid', room', ?_, expected'.trans expected⟩
      rw [written', written, List.length_append, Nat.add_assoc])
    (fun x t ok => ok.2.1) (data.length + 1) [] data s s'
    ⟨filled.toFillable, Nat.sub_pos_of_lt filled.room, filled.written, filled.expected⟩ (Nat.le_succ _) run
  exact ⟨valid, Nat.lt_of_sub_pos room, written, expected⟩

theorem streamEnd_complete {codecs : Codecs} {s s' : Active} (run : streamEnd codecs s = .ok () s') :
    s.writer.written = s.writer.expected := by
  unfold streamEnd at run
  rw [bind_of_ok (get_run s)] at run
  obtain ⟨_, t, ended, run⟩ := bind_ok.mp run
  obtain ⟨total, u, closed, -⟩ := bind_ok.mp run
  obtain ⟨complete, -, -⟩ := closePayload_complete closed
  split at ended
  · have expected := ((flushSector_follows codecs).ok ended).expected
    cases ended ▸ flushSector_outcome codecs s with
    | done usable data written total => rw [← expected, ← complete, written]
  · obtain ⟨-, rfl⟩ := pure_ok.mp ended
    exact complete

theorem writeChunks_append (codecs : Codecs) (chunks : List Bytes) (data : Bytes) (a : WriteArchive) :
    writeChunks codecs (chunks ++ [data]) a = (do writeChunks codecs chunks; fileWrite codecs data) a := by
  induction chunks generalizing a with
  | nil =>
    change (do fileWrite codecs data; pure ()) a = fileWrite codecs data a
    rw [bind_run]
    cases fileWrite codecs data a <;> rfl
  | cons chunk rest ih =>
    rw [List.cons_append, writeChunks, writeChunks, bind_run, bind_run, bind_run]
    cases fileWrite codecs chunk a with
    | ok _ b => exact ih b
    | error e b => rfl

structure Draft where
  name : Bytes
  options : FileOptions
  parts : List Bytes

def Draft.content (d : Draft) : Bytes := d.parts.flatten

def Drafted (codecs : Codecs) (d : Draft) (a b : WriteArchive) : Prop :=
  ∃ (size : Nat) (c : WriteArchive) (w : Writer), fileBegin d.name size d.options a = .ok () c ∧
    writeChunks codecs d.parts c = .ok () b ∧ b.current = some w ∧ Filled size d.content.length ⟨w, b⟩

theorem fileBegin_drafted {codecs : Codecs} {name : Bytes} {size : Int} {options : FileOptions}
    {a b : WriteArchive} (run : fileBegin name size options a = .ok () b) :
    Drafted codecs ⟨name, options, []⟩ a b := by
  obtain ⟨w, c, prepared, begun⟩ := bind_ok.mp run
  obtain ⟨natural, -⟩ := prepareWriter_steps prepared
  obtain ⟨size, rfl⟩ := Int.eq_ofNat_of_zero_le natural
  cases begun
  have expecting := prepareWriter_expecting prepared
  obtain ⟨offsets, checksums, writer⟩ := (prepareWriter_begun prepared).writer
  refine ⟨size, _, w, run, rfl, rfl, ⟨expecting.toFillable, expecting.room, ?_, ?_⟩⟩
  · rw [writer]
    rfl
  · rw [writer]
    rfl

theorem Drafted.write {codecs : Codecs} {d : Draft} {a b b' : WriteArchive} (drafted : Drafted codecs d a b)
    {data : Bytes} (run : fileWrite codecs data b = .ok () b') :
    Drafted codecs { d with parts := d.parts ++ [data] } a b' := by
  obtain ⟨size, c, w, begun, wrote, active, filled⟩ := drafted
  have wrote' : writeChunks codecs (d.parts ++ [data]) c = .ok () b' := by
    rw [writeChunks_append, bind_of_ok wrote, run]
  rw [fileWrite_run active] at run
  cases streamed : streamWrite codecs data ⟨w, b⟩ with
  | error e s =>
    rw [streamed] at run
    cases run
  | ok _ s =>
    rw [streamed] at run
    cases run
    have filled' := streamWrite_filled filled streamed
    refine ⟨size, c, s.writer, begun, wrote', rfl, ⟨⟨filled'.sector, filled'.digest⟩, filled'.room, ?_, filled'.expected⟩⟩
    rw [Draft.content, List.flatten_append, List.flatten_singleton, List.length_append]
    exact filled'.written

theorem Drafted.finish {codecs : Codecs} {d : Draft} {a b b' : WriteArchive} (drafted : Drafted codecs d a b)
    (run : fileFinish codecs b = .ok () b') : fileAdd codecs d.name d.content d.options a = .ok () b' := by
  obtain ⟨size, c, w, begun, wrote, active, filled⟩ := drafted
  have complete : size = d.content.length := by
    have whole := run
    rw [fileFinish_run active] at whole
    cases ended : streamEnd codecs ⟨w, b⟩ with
    | error e s =>
      rw [ended] at whole
      cases whole
    | ok _ s => rw [← filled.expected, ← filled.written, streamEnd_complete ended]
  rw [complete] at begun
  rw [Draft.content, ← addChunks_eq_fileAdd, addChunks]
  rw [Draft.content] at begun
  rw [bind_of_ok begun, bind_of_ok (orAbort_of_ok wrote), run]

structure Entry where
  name : Bytes
  content : Bytes
  options : FileOptions

def Draft.entry (d : Draft) : Entry := ⟨d.name, d.content, d.options⟩

inductive Pending where
  | idle
  | draft (d : Draft)
  -- A write failed, and its caller cannot know how much of it was taken.
  | spoiled

structure Journal where
  pending : Pending
  entries : List Entry

structure Answer where
  succeeded : Bool
  published : Bool

def answerOf {α : Type} (a : WriteArchive) (r : EStateM.Result Error WriteArchive α) : Answer where
  succeeded := succeeded r
  published := (final r).nextBlock ≠ a.nextBlock

def Journal.record (j : Journal) (answer : Answer) (e : Entry) : Journal where
  pending := .idle
  entries := if answer.published then j.entries ++ [e] else j.entries

def Journal.next (j : Journal) (answer : Answer) : Call → Journal
  | .begin name _ options =>
    if answer.succeeded then { j with pending := .draft ⟨name, options, []⟩ } else j
  | .write data =>
    match j.pending with
    | .draft d =>
      { j with pending := if answer.succeeded then .draft { d with parts := d.parts ++ [data] } else .spoiled }
    | _ => j
  | .finish =>
    match j.pending with
    | .draft d => j.record answer d.entry
    | _ => { j with pending := .idle }
  | .abort => { j with pending := .idle }
  | .add name data options =>
    match j.pending with
    | .idle => j.record answer ⟨name, data, options⟩
    | _ => j

-- Options under which every byte of a member comes back. Without memory `file_key` is zero, so
-- an encrypted member also needs a host that refuses nothing.
structure Lawful (plan : Faults) (options : FileOptions) : Prop where
  known : options.flags &&& ~~~storageFlags = 0
  masks : LosslessMasks options
  calm : has options.flags Flag.encrypted = true → plan = Faults.healthy

def Call.options : Call → Option FileOptions
  | .begin _ _ options => some options
  | .add _ _ options => some options
  | _ => none

def Addition.call : Addition → Call
  | .member call => call
  | .path name source options => .add name (source.file.read 0 source.file.size) options

structure Allowed (plan : Faults) (j : Journal) (addition : Addition) : Prop where
  lawful : ∀ options, addition.call.options = some options → Lawful plan options
  known : addition.call = .finish → j.pending ≠ .spoiled
  served : ∀ name source options, addition = .path name source options → source.Calm

inductive Journaled (codecs : Codecs) (plan : Faults) (start : WriteArchive) : WriteArchive → Journal → Prop
  | start : Journaled codecs plan start start ⟨.idle, []⟩
  | next {a : WriteArchive} {j : Journal} (addition : Addition) : Journaled codecs plan start a j →
      Allowed plan j addition →
      Journaled codecs plan start (final (addition.request.run codecs a))
        (j.next (answerOf a (addition.request.run codecs a)) addition.call)

structure Stored {codecs : Codecs} (e : Entry) (m : StoredMember codecs) : Prop where
  content : m.content = e.content
  flags : ∀ bits, bits &&& Flag.sectorCrc = 0 → has m.flags bits = has e.options.flags bits
  exclusive : ¬ (has m.flags Flag.compress = true ∧ has m.flags Flag.implode = true)

structure Standing {codecs : Codecs} (o : CreateOptions) (a : WriteArchive) (entries : List Entry)
    (members : List (StoredMember codecs)) : Prop where
  sound : Sound a
  idle : a.current = none
  contains : Contains a (firstPayloadOf o) members
  stored : List.Forall₂ Stored entries members
  names : ∀ i e, entries[i]? = some e → a.names i = e.name

section standing

variable {codecs : Codecs} {o : CreateOptions} {a b : WriteArchive} {entries : List Entry}
  {members : List (StoredMember codecs)}

theorem Standing.settle (standing : Standing o a entries members) (leaves : Leaves a b)
    (idle : b.current = none) : Standing o b entries members where
  sound := by
    obtain ⟨disk, rows, current, rfl⟩ := leaves.archive
    exact standing.sound.congr disk rows current
  idle := idle
  contains := by
    obtain ⟨disk, rows, current, rfl⟩ := leaves.archive
    obtain ⟨pos, size, same⟩ := leaves.disk le_rfl
    exact standing.contains.moved rfl leaves.rows ⟨size, same⟩ pos
  stored := standing.stored
  names i e mem := by
    rw [leaves.same.2]
    exact standing.names i e mem

theorem Standing.add (lossless : codecs.Lossless) (standing : Standing o a entries members) {plan : Faults}
    (calm : plan = Faults.healthy → a.disk.Calm) {e : Entry} (lawful : Lawful plan e.options)
    (run : fileAdd codecs e.name e.content e.options a = .ok () b) :
    ∃ members' : List (StoredMember codecs),
      Standing o b (if b.nextBlock ≠ a.nextBlock then entries ++ [e] else entries) members' := by
  obtain ⟨members', grown, idle, -, outcome⟩ := fileAdd_grown lossless standing.sound standing.contains lawful.known
    lawful.masks (fun encrypted => calm (lawful.calm encrypted)) standing.idle run
  have count : entries.length = a.nextBlock := by
    rw [standing.stored.length_eq, standing.contains.count]
  refine ⟨members', grown.sound, idle, grown.contains, ?_, ?_⟩
  · rcases outcome with ⟨m, added, rfl⟩ | ⟨m, skipped, rfl⟩
    · rw [if_pos (by rw [added.nextBlock]; omega)]
      refine List.rel_append standing.stored (.cons ⟨added.content, fun bits other => ?_, ?_⟩ .nil)
      · rw [added.flags, effectiveOptions_has _ _ _ other]
      · obtain ⟨w, c, s, s', prepared, -⟩ := fileAdd_ok run
        obtain ⟨-, -, -, exclusive, -⟩ := prepareWriter_steps prepared
        rw [added.flags, effectiveOptions_has _ _ _ (by decide), effectiveOptions_has _ _ _ (by decide)]
        exact fun both => exclusive ⟨both.2, both.1⟩
    · rw [if_neg (not_not.mpr skipped.nextBlock)]
      exact standing.stored
  · intro i e' mem
    have old : ∀ e', entries[i]? = some e' → b.names i = e'.name := fun e' mem => by
      have below := (List.getElem?_eq_some_iff.mp mem).1
      rw [grown.names i (by rw [standing.contains.count]; omega), standing.names i e' mem]
    rcases outcome with ⟨m, added, -⟩ | ⟨m, skipped, -⟩
    · rw [if_pos (by rw [added.nextBlock]; omega)] at mem
      rcases Nat.lt_or_ge i entries.length with before | after
      · rw [List.getElem?_append_left before] at mem
        exact old e' mem
      · obtain ⟨inside, -⟩ := List.getElem?_eq_some_iff.mp mem
        rw [List.length_append, List.length_singleton] at inside
        obtain rfl : i = entries.length := by omega
        rw [List.getElem?_concat_length, Option.some.injEq] at mem
        rw [added.names, count, storeAt_self, ← mem]
    · rw [if_neg (not_not.mpr skipped.nextBlock)] at mem
      exact old e' mem

end standing

def Pending.Shows (codecs : Codecs) (plan : Faults) (a b : WriteArchive) : Pending → Prop
  | .idle => b.current = none
  | .draft d => Lawful plan d.options ∧ Drafted codecs d a b
  | .spoiled => b.current.isSome = true

structure Recorded (codecs : Codecs) (plan : Faults) (o : CreateOptions) (b : WriteArchive) (j : Journal) :
    Prop where
  built : BuiltWith o b
  calm : plan = Faults.healthy → b.disk.Calm
  stands : ∃ (a : WriteArchive) (members : List (StoredMember codecs)), Standing o a j.entries members ∧
    (plan = Faults.healthy → a.disk.Calm) ∧ Leaves a b ∧ j.pending.Shows codecs plan a b

section calls

variable {codecs : Codecs} {plan : Faults} {o : CreateOptions} {b : WriteArchive} {j : Journal}

theorem BuiltWith.extends (built : BuiltWith o b) {b' : WriteArchive} (extends_ : Extends b b') : BuiltWith o b' := by
  have builds := extends_ built.inv built.indexed
  exact ⟨builds.made o built.made, builds.inv, builds.indexed⟩

theorem Recorded.idle (recorded : Recorded codecs plan o b j) (idle : j.pending = .idle) :
    b.current = none ∧ ∃ members : List (StoredMember codecs), Standing o b j.entries members := by
  obtain ⟨a, members, standing, -, leaves, shows⟩ := recorded.stands
  rw [idle] at shows
  exact ⟨shows, members, standing.settle leaves shows⟩

theorem Recorded.busy (recorded : Recorded codecs plan o b j) (busy : j.pending ≠ .idle) :
    b.current.isSome = true := by
  obtain ⟨a, members, standing, -, leaves, shows⟩ := recorded.stands
  cases pending : j.pending with
  | idle => exact absurd pending busy
  | draft d =>
    rw [pending] at shows
    obtain ⟨-, size, c, w, -, -, active, -⟩ := shows
    rw [active]
    rfl
  | spoiled =>
    rw [pending] at shows
    exact shows

theorem fileBegin_recorded (recorded : Recorded codecs plan o b j) (name : Bytes) (size : Int)
    {options : FileOptions} (lawful : Lawful plan options) :
    Recorded codecs plan o (final (fileBegin name size options b))
      (j.next (answerOf b (fileBegin name size options b)) (.begin name size options)) := by
  have built := recorded.built.extends (fileBegin_extends name size options b)
  have calm : plan = Faults.healthy → (final (fileBegin name size options b)).disk.Calm :=
    fun healthy => (stable_calmly codecs).begin name size options b (recorded.calm healthy)
  by_cases busy : j.pending = .idle
  · obtain ⟨idle, members, standing⟩ := recorded.idle busy
    have leaves := fileBegin_leaves idle name size options
    cases run : fileBegin name size options b with
    | ok _ b' =>
      rw [run] at built calm leaves
      exact ⟨built, calm, b, members, standing, recorded.calm, leaves, lawful, fileBegin_drafted run⟩
    | error e b' =>
      rw [run] at built calm leaves
      have prepares := prepareWriter_prepares name size options .none b
      have unchanged : b'.current = none := by
        unfold fileBegin fileBeginWith at run
        cases prepared : prepareWriter name size options .none b with
        | ok w c =>
          rw [bind_of_ok prepared] at run
          cases run
        | error e c =>
          rw [bind_of_error prepared] at run
          cases run
          rw [prepared] at prepares
          obtain ⟨disk, rows, archive⟩ := prepares
          rw [final_error] at archive
          rw [archive]
          exact idle
      refine ⟨built, calm, b, members, standing, recorded.calm, leaves, ?_⟩
      change j.pending.Shows codecs plan b b'
      rw [busy]
      exact unchanged
  · rw [fileBegin_busy (recorded.busy busy)]
    exact recorded

theorem fileWrite_recorded (recorded : Recorded codecs plan o b j) (data : Bytes) :
    Recorded codecs plan o (final (fileWrite codecs data b))
      (j.next (answerOf b (fileWrite codecs data b)) (.write data)) := by
  have built := recorded.built.extends (fileWrite_extends codecs data b)
  have calm : plan = Faults.healthy → (final (fileWrite codecs data b)).disk.Calm :=
    fun healthy => (stable_calmly codecs).write data b (recorded.calm healthy)
  obtain ⟨a, members, standing, quiet, leaves, shows⟩ := recorded.stands
  have left := @Leaves.write codecs _ _ leaves data
  have same := fileWrite_writesOn codecs data b
  have active : b.current.isSome = true → (final (fileWrite codecs data b)).current.isSome = true := fun active => by
    have named := congrArg Option.isSome same.2
    rwa [Option.isSome_map, Option.isSome_map, active] at named
  obtain ⟨pending, entries⟩ := j
  cases pending with
  | idle =>
    have refused : fileWrite codecs data b = .error .size b := by
      simp only [fileWrite, withWriter, show b.current = none from shows]
    rw [refused]
    exact recorded
  | draft d =>
    obtain ⟨lawful, drafted⟩ := shows
    cases run : fileWrite codecs data b with
    | ok _ b' =>
      rw [run] at built calm left
      exact ⟨built, calm, a, members, standing, quiet, left, lawful, drafted.write run⟩
    | error e b' =>
      have busy := recorded.busy (j := ⟨.draft d, entries⟩) (fun idle => by cases idle)
      rw [run] at built calm left active
      exact ⟨built, calm, a, members, standing, quiet, left, active busy⟩
  | spoiled => exact ⟨built, calm, a, members, standing, quiet, left, active shows⟩

theorem fileAbort_recorded (recorded : Recorded codecs plan o b j) :
    Recorded codecs plan o { b with current := none } { j with pending := .idle } := by
  obtain ⟨a, members, standing, quiet, leaves, -⟩ := recorded.stands
  exact ⟨recorded.built.extends (fileAbort_extends b), recorded.calm, a, members, standing, quiet, leaves.settle, rfl⟩

theorem fileFinish_recorded (lossless : codecs.Lossless) (recorded : Recorded codecs plan o b j)
    (known : j.pending ≠ .spoiled) :
    Recorded codecs plan o (final (fileFinish codecs b))
      (j.next (answerOf b (fileFinish codecs b)) .finish) := by
  have built := recorded.built.extends (fileFinish_extends codecs b)
  have calm : plan = Faults.healthy → (final (fileFinish codecs b)).disk.Calm :=
    fun healthy => (stable_calmly codecs).finish b (recorded.calm healthy)
  obtain ⟨a, members, standing, quiet, leaves, shows⟩ := recorded.stands
  have idle : (final (fileFinish codecs b)).current = none := by
    unfold fileFinish dropWriter
    cases withWriter .exist (streamEnd codecs) b <;> rfl
  obtain ⟨pending, entries⟩ := j
  cases pending with
  | idle =>
    have refused : fileFinish codecs b = .error .exist { b with current := none } := by
      simp only [fileFinish, dropWriter, withWriter, show b.current = none from shows]
    rw [refused]
    exact fileAbort_recorded recorded
  | spoiled => exact absurd rfl known
  | draft d =>
    obtain ⟨lawful, drafted⟩ := shows
    rcases leaves.finish recorded.built.inv with left | ⟨ok, more⟩
    · have none_ : (answerOf b (fileFinish codecs b)).published = false := by
        exact decide_eq_false (not_not.mpr (left.same.1.trans leaves.same.1.symm))
      refine ⟨built, calm, a, members, ?_, quiet, left, idle⟩
      simp only [Journal.next, Journal.record, none_, Bool.false_eq_true, if_false]
      exact standing
    · cases run : fileFinish codecs b with
      | error e b' =>
        rw [run] at ok
        cases ok
      | ok _ b' =>
        rw [run] at built calm idle more
        obtain ⟨members', standing'⟩ := @Standing.add codecs o a b' entries members lossless standing plan quiet
          d.entry lawful (drafted.finish run)
        refine ⟨built, calm, b', members', ?_, calm, Leaves.refl idle, idle⟩
        have count := leaves.same.1
        simpa [Journal.next, Journal.record, answerOf, count] using standing'

theorem fileAdd_recorded (lossless : codecs.Lossless) (recorded : Recorded codecs plan o b j) (name data : Bytes)
    {options : FileOptions} (lawful : Lawful plan options) :
    Recorded codecs plan o (final (fileAdd codecs name data options b))
      (j.next (answerOf b (fileAdd codecs name data options b)) (.add name data options)) := by
  by_cases idle : j.pending = .idle
  · obtain ⟨pending, entries⟩ := j
    obtain rfl : pending = .idle := idle
    -- The call is the three calls it makes, and the last one decides.
    have settled : ∀ (e : Error) (c : WriteArchive), c.nextBlock = b.nextBlock →
        Recorded codecs plan o c ⟨.idle, entries⟩ → fileAdd codecs name data options b = .error e c →
        Recorded codecs plan o (final (fileAdd codecs name data options b))
          (Journal.next ⟨.idle, entries⟩ (answerOf b (fileAdd codecs name data options b)) (.add name data options)) := by
      intro e c same left run
      have none_ : (answerOf b (fileAdd codecs name data options b)).published = false := by
        rw [run]
        exact decide_eq_false (not_not.mpr same)
      simp only [Journal.next, Journal.record, none_, Bool.false_eq_true, if_false]
      rw [run]
      exact left
    have begun := fileBegin_recorded recorded name data.length lawful
    cases first : fileBegin name data.length options b with
    | error e c =>
      rw [first] at begun
      refine settled e c (fileBegin_refused first).1 begun ?_
      unfold fileAdd
      rw [bind_of_error first]
    | ok _ c =>
      rw [first] at begun
      have drafted : Recorded codecs plan o c ⟨.draft ⟨name, options, []⟩, entries⟩ := begun
      have count := (fileBegin_begins first).1
      have wrote := fileWrite_recorded drafted data
      have still := (fileWrite_writesOn codecs data c).1
      cases second : fileWrite codecs data c with
      | error e d =>
        rw [second] at wrote still
        refine settled e { d with current := none } (still.trans count) (fileAbort_recorded wrote) ?_
        unfold fileAdd
        rw [bind_of_ok first, bind_of_error (orAbort_of_error second)]
      | ok _ d =>
        rw [second] at wrote still
        have written : Recorded codecs plan o d ⟨.draft ⟨name, options, [] ++ [data]⟩, entries⟩ := wrote
        have same : d.nextBlock = b.nextBlock := still.trans count
        have run : fileAdd codecs name data options b = fileFinish codecs d := by
          unfold fileAdd
          rw [bind_of_ok first, bind_of_ok (orAbort_of_ok second)]
        have answer : answerOf b (fileFinish codecs d) = answerOf d (fileFinish codecs d) := by
          unfold answerOf
          rw [same]
        have entry : Draft.entry ⟨name, options, [] ++ [data]⟩ = ⟨name, data, options⟩ := by
          simp [Draft.entry, Draft.content]
        have finished := fileFinish_recorded lossless written fun spoiled => by cases spoiled
        rw [run, answer]
        simp only [Journal.next] at finished ⊢
        rwa [entry] at finished
  · have busy : fileAdd codecs name data options b = .error .format b := by
      unfold fileAdd
      rw [bind_of_error (fileBegin_busy (recorded.busy idle) _ _ _)]
    rw [busy]
    cases pending : j.pending with
    | idle => exact absurd pending idle
    | draft d =>
      simp only [Journal.next, pending]
      exact recorded
    | spoiled =>
      simp only [Journal.next, pending]
      exact recorded

end calls

theorem Addition.run_call {codecs : Codecs} {plan : Faults} {j : Journal} {addition : Addition}
    (allowed : Allowed plan j addition) : addition.request.run codecs = addition.call.run codecs := by
  cases addition with
  | member call => rfl
  | path name source options => exact fileAddPath_eq_fileAdd codecs name options (allowed.served name source options rfl)

theorem Recorded.call {codecs : Codecs} (lossless : codecs.Lossless) {plan : Faults} {o : CreateOptions}
    {b : WriteArchive} {j : Journal} (recorded : Recorded codecs plan o b j) (call : Call)
    (lawful : ∀ options, call.options = some options → Lawful plan options)
    (known : call = .finish → j.pending ≠ .spoiled) :
    Recorded codecs plan o (final (call.run codecs b)) (j.next (answerOf b (call.run codecs b)) call) := by
  cases call with
  | begin name size options => exact fileBegin_recorded recorded name size (lawful options rfl)
  | write data => exact fileWrite_recorded recorded data
  | finish => exact fileFinish_recorded lossless recorded (known rfl)
  | abort => exact fileAbort_recorded recorded
  | add name data options => exact fileAdd_recorded lossless recorded name data (lawful options rfl)

theorem archiveCreate_recorded {codecs : Codecs} {o : CreateOptions} {plan : Faults} {start : WriteArchive}
    (created : archiveCreate o plan = .ok start) : Recorded codecs plan o start ⟨.idle, []⟩ := by
  obtain ⟨made, sound, idle, -, -, calm, -, contains⟩ := @archiveCreate_contains codecs _ _ _ created
  exact ⟨archiveCreate_builtWith created, calm, start, [], ⟨sound, idle, contains, .nil, fun i e mem => by cases mem⟩,
    calm, Leaves.refl idle, idle⟩

theorem Journaled.recorded {codecs : Codecs} (lossless : codecs.Lossless) {o : CreateOptions} {plan : Faults}
    {start a : WriteArchive} {j : Journal} (created : archiveCreate o plan = .ok start)
    (run : Journaled codecs plan start a j) : Recorded codecs plan o a j := by
  induction run with
  | start => exact archiveCreate_recorded created
  | next addition _ allowed recorded =>
    rw [Addition.run_call allowed]
    exact recorded.call lossless addition.call allowed.lawful allowed.known

end Writing

end LibMpq
