import LibMpq.WriterContents

set_option autoImplicit false

namespace LibMpq

open Effect Bits Chunked

namespace Writing

def writeChunks (codecs : Codecs) : List Bytes → Op Error WriteArchive Unit
  | [] => pure ()
  | chunk :: rest => do
    fileWrite codecs chunk
    writeChunks codecs rest

-- A caller of the streaming interface: it gives the member up at the first failing write.
def addChunks (codecs : Codecs) (name : Bytes) (options : FileOptions) (chunks : List Bytes) :
    Op Error WriteArchive Unit := do
  fileBegin name chunks.flatten.length options
  orAbort (writeChunks codecs chunks)
  fileFinish codecs

def withCurrent (current : Option Writer) (s : Active) : Active :=
  { s with archive := { s.archive with current } }

theorem streamDisk_commutes {α : Type} (current : Option Writer) (x : Op Error Disk α) :
    Commutes (withCurrent current) (streamDisk x) := by
  intro s
  have disk : (withCurrent current s).archive.disk = s.archive.disk := rfl
  simp only [streamDisk, onArchive, onDisk, Effect.zoom, disk]
  cases x s.archive.disk <;> rfl

theorem modifyWriter_commutes (current : Option Writer) (f : Writer → Writer) :
    Commutes (withCurrent current) (modifyWriter f) := Commutes.modify fun _ => rfl

theorem flushSector_commutes (codecs : Codecs) (current : Option Writer) :
    Commutes (withCurrent current) (flushSector codecs) := by
  refine Commutes.get_bind (fun s => rfl) fun s => ?_
  refine Commutes.bind (Commutes.failIf _ _) fun _ => ?_
  refine Commutes.bind (streamDisk_commutes _ _) fun packed => ?_
  refine Commutes.bind (modifyWriter_commutes _ _) fun _ => ?_
  refine Commutes.bind (streamDisk_commutes _ _) fun stored => ?_
  refine Commutes.bind ?_ fun _ => ?_
  · refine Commutes.get_bind (fun s => rfl) fun s => ?_
    split
    · exact Commutes.bind (streamDisk_commutes _ _) fun _ => modifyWriter_commutes _ _
    · exact Commutes.pure ()
  refine Commutes.bind (streamDisk_commutes _ _) fun _ => ?_
  refine Commutes.bind (modifyWriter_commutes _ _) fun _ => ?_
  refine Commutes.bind (Commutes.fromExcept _) fun next => ?_
  exact modifyWriter_commutes _ _

theorem streamWrite_commutes (codecs : Codecs) (data : Bytes) (current : Option Writer) :
    Commutes (withCurrent current) (streamWrite codecs data) := by
  refine Commutes.get_bind (fun s => rfl) fun s => ?_
  refine Commutes.bind (Commutes.failIf _ _) fun _ => ?_
  exact @Buffer.feed_commutes _ _ (sectorBuffer codecs) (withCurrent current) (fun _ => rfl) (fun _ _ => rfl)
    (flushSector_commutes codecs current) _ _

def SameDigest (s s' : Active) : Prop := s'.writer.md5 = s.writer.md5

instance : Std.Refl SameDigest := ⟨fun _ => rfl⟩

instance : IsTrans Active SameDigest := ⟨fun _ _ _ first second => Eq.trans second first⟩

theorem streamDisk_sameDigest {α : Type} (x : Op Error Disk α) : Keeps SameDigest (streamDisk x) :=
  Keeps.zoom (Keeps.of_true _) fun _ _ _ => rfl

theorem flushSector_sameDigest (codecs : Codecs) : Keeps SameDigest (flushSector codecs) := by
  refine Keeps.bind Keeps.get fun s => ?_
  refine Keeps.bind (Keeps.failIf _ _) fun _ => ?_
  refine Keeps.bind (streamDisk_sameDigest _) fun packed => ?_
  refine Keeps.bind (Keeps.modify fun s => rfl) fun _ => ?_
  refine Keeps.bind (streamDisk_sameDigest _) fun stored => ?_
  refine Keeps.bind ?_ fun _ => ?_
  · refine Keeps.bind Keeps.get fun s => ?_
    split
    · exact Keeps.bind (streamDisk_sameDigest _) fun _ => Keeps.modify fun s => rfl
    · exact Keeps.pure ()
  refine Keeps.bind (streamDisk_sameDigest _) fun _ => ?_
  refine Keeps.bind (Keeps.modify fun s => rfl) fun _ => ?_
  exact Keeps.bind (Keeps.fromExcept _) fun next => Keeps.modify fun s => rfl

structure Fillable (s : Active) : Prop where
  sector : 0 < s.archive.sectorSize
  digest : s.writer.md5.Ready

theorem absorb_append (a b : Bytes) {w : Writer} (ready : w.md5.Ready) :
    absorb (a ++ b) w = absorb b (absorb a w) := by
  have crc : (if has w.attributes.flags attributeCrc32 = true then
      Checksum.crc32 w.attributes.crc32 (a ++ b) else w.attributes.crc32) =
      (absorb b (absorb a w)).attributes.crc32 := by
    simp only [absorb]
    split
    · exact Checksum.crc32_append _ _ _
    · rfl
  have md5 : (if has w.attributes.flags attributeMd5 = true then w.md5.update (a ++ b) else w.md5) =
      (absorb b (absorb a w)).md5 := by
    simp only [absorb]
    split
    · exact Md5.update_append ready _ _
    · rfl
  rw [absorb, crc, md5]
  simp only [absorb, List.append_assoc, List.length_append, Nat.add_assoc]

theorem sectorBuffer_laws (codecs : Codecs) : (sectorBuffer codecs).Laws Fillable where
  room_push := by
    intro data s _ _
    simp only [sectorBuffer, absorb, List.length_append]
    omega
  push_append := by
    intro a b s ok
    simp only [sectorBuffer, absorb_append a b ok.digest]
  valid_push := by
    intro data s ok
    refine ⟨ok.sector, ?_⟩
    simp only [sectorBuffer, absorb]
    split
    · exact Md5.update_ready ok.digest data
    · exact ok.digest
  valid_flush := by
    intro s s' ok run
    obtain ⟨disk, archive⟩ := ((flushSector_follows codecs).ok run).archive
    have digest : s'.writer.md5 = s.writer.md5 := (flushSector_sameDigest codecs).ok run
    have sector : s'.archive.sectorSize = s.archive.sectorSize := by rw [archive]
    have empty : s'.writer.data = [] := by
      have outcome := flushSector_outcome codecs s
      rw [show flushSector codecs s = .ok () s' from run] at outcome
      cases outcome with
      | done _ data _ _ => exact data
    refine ⟨⟨by rw [sector]; exact ok.sector, by rw [digest]; exact ok.digest⟩, ?_⟩
    change 0 < s'.archive.sectorSize - s'.writer.data.length
    rw [sector, empty]
    exact ok.sector

structure Expecting (count : Nat) (s : Active) : Prop extends Fillable s where
  room : s.writer.data.length < s.archive.sectorSize
  left : count ≤ s.writer.expected - s.writer.written

theorem step_written {codecs : Codecs} {part : Bytes} {s s' : Active}
    (run : (sectorBuffer codecs).step part s = .ok () s') :
    s'.writer.written = s.writer.written + part.length ∧ s'.writer.expected = s.writer.expected := by
  rw [Buffer.step_run] at run
  split at run
  next =>
    have outcome := flushSector_outcome codecs ((sectorBuffer codecs).push part s)
    rw [show flushSector codecs _ = .ok () s' from run] at outcome
    have expected := ((flushSector_follows codecs).ok run).expected
    cases outcome with
    | done _ _ written _ => exact ⟨written, expected⟩
  next =>
    cases run
    exact ⟨rfl, rfl⟩

theorem streamWrite_expecting {codecs : Codecs} {data : Bytes} {count : Nat} {s s' : Active}
    (ready : Expecting (data.length + count) s) (run : streamWrite codecs data s = .ok () s') :
    Expecting count s' := by
  have laws := sectorBuffer_laws codecs
  unfold streamWrite at run
  rw [bind_of_ok (get_run s)] at run
  obtain ⟨-, run⟩ := failIf_bind_ok.mp run
  have start : ([] : Bytes).length = 0 := rfl
  obtain ⟨valid, room, written, expected⟩ := @Buffer.feed_ok _ _ (sectorBuffer codecs)
    (fun x t => Fillable t ∧ 0 < (sectorBuffer codecs).room t ∧
      t.writer.written = s.writer.written + x.length ∧ t.writer.expected = s.writer.expected)
    (by
      rintro x part t t' ⟨valid, room, written, expected⟩ fits step
      obtain ⟨valid', room'⟩ := laws.step_ok valid step
      obtain ⟨written', expected'⟩ := step_written step
      refine ⟨valid', room', ?_, expected'.trans expected⟩
      rw [written', written, List.length_append, Nat.add_assoc])
    (fun x t ok => ok.2.1) (data.length + 1) [] data s s'
    ⟨ready.toFillable, Nat.sub_pos_of_lt ready.room, rfl, rfl⟩ (Nat.le_succ _) run
  have left := ready.left
  refine ⟨valid, Nat.lt_of_sub_pos room, ?_⟩
  rw [written, expected, List.nil_append]
  omega

theorem streamWrite_append {codecs : Codecs} {a b : Bytes} {s : Active}
    (ready : Expecting (a ++ b).length s) :
    streamWrite codecs (a ++ b) s = (do streamWrite codecs a; streamWrite codecs b) s := by
  have laws := sectorBuffer_laws codecs
  have room : 0 < (sectorBuffer codecs).room s := Nat.sub_pos_of_lt ready.room
  have left := ready.left
  rw [List.length_append] at left
  have run : ∀ {data : Bytes} {t : Active}, Expecting data.length t →
      streamWrite codecs data t = (sectorBuffer codecs).feedBytes data t := by
    intro data t ready
    have left := ready.left
    unfold streamWrite
    rw [bind_of_ok (get_run t), bind_of_ok (failIf_false (by omega) _ _)]
    exact laws.feed_eq_feedBytes ready.toFillable (Nat.sub_pos_of_lt ready.room) (Nat.le_succ _)
  have front : Expecting a.length s := ⟨ready.toFillable, ready.room, by omega⟩
  rw [run ready, Buffer.feedBytes_append, bind_run, bind_run, run front]
  cases first : (sectorBuffer codecs).feedBytes a s with
  | error e t => rfl
  | ok _ t =>
    refine (run ?_).symm
    have whole : Expecting (a.length + b.length) s := by
      rw [← List.length_append]
      exact ready
    exact streamWrite_expecting whole ((run front).trans first)

def keepWriter (s : Active) : WriteArchive := { s.archive with current := some s.writer }

theorem fileWrite_run {codecs : Codecs} {data : Bytes} {a : WriteArchive} {w : Writer}
    (active : a.current = some w) :
    fileWrite codecs data a = mapState keepWriter (streamWrite codecs data ⟨w, a⟩) := by
  simp only [fileWrite, withWriter, active]
  cases streamWrite codecs data ⟨w, a⟩ <;> rfl

theorem writeChunks_run {codecs : Codecs} {chunks : List Bytes} {a : WriteArchive} {w : Writer}
    (active : a.current = some w) (ready : Expecting chunks.flatten.length ⟨w, a⟩) :
    writeChunks codecs chunks a = fileWrite codecs chunks.flatten a := by
  induction chunks generalizing a w with
  | nil =>
    have none : streamWrite codecs [] ⟨w, a⟩ = .ok () ⟨w, a⟩ := by
      have fits : ¬ (([] : Bytes).length > w.expected - w.written) := Nat.not_lt_zero _
      unfold streamWrite
      rw [bind_of_ok (get_run _), bind_of_ok (failIf_false fits _ _)]
      rfl
    rw [fileWrite_run active, List.flatten_nil, none, writeChunks, mapState, keepWriter, ← active]
    rfl
  | cons chunk rest ih =>
    rw [List.flatten_cons] at ready ⊢
    rw [writeChunks, bind_run, fileWrite_run active, fileWrite_run active, streamWrite_append ready,
      bind_run]
    rw [List.length_append] at ready
    cases first : streamWrite codecs chunk ⟨w, a⟩ with
    | error e s => rfl
    | ok _ s =>
      have later := streamWrite_expecting ready first
      -- The archive's own copy of the writer is one chunk behind in the single call.
      have copied := streamWrite_commutes codecs rest.flatten (some s.writer) s
      have next : Expecting rest.flatten.length ⟨s.writer, keepWriter s⟩ :=
        ⟨⟨later.sector, later.digest⟩, later.room, later.left⟩
      change writeChunks codecs rest (keepWriter s) =
        mapState keepWriter (streamWrite codecs rest.flatten s)
      rw [ih rfl next, fileWrite_run rfl]
      change mapState keepWriter (streamWrite codecs rest.flatten (withCurrent (some s.writer) s)) = _
      rw [copied]
      cases streamWrite codecs rest.flatten s <;> rfl

theorem prepareWriter_expecting {name : Bytes} {size : Nat} {options : FileOptions}
    {a a' : WriteArchive} {w : Writer}
    (run : prepareWriter name size options .none a = .ok w a') :
    Expecting size ⟨w, { a' with current := some w }⟩ := by
  have begun := prepareWriter_begun run
  have sector := Nat.pos_of_ne_zero begun.sector
  obtain ⟨disk, rows, rfl⟩ := begun.ready.archive
  obtain ⟨offsets, checksums, rfl⟩ := begun.writer
  exact ⟨⟨sector, Md5.init_ready⟩, sector, le_rfl⟩

theorem addChunks_eq_fileAdd (codecs : Codecs) (name : Bytes) (options : FileOptions)
    (chunks : List Bytes) (a : WriteArchive) :
    addChunks codecs name options chunks a = fileAdd codecs name chunks.flatten options a := by
  unfold addChunks fileAdd
  rw [bind_run, bind_run]
  cases begun : fileBegin name chunks.flatten.length options a with
  | error e b => rfl
  | ok _ b =>
    obtain ⟨w, c, prepared, begun⟩ := bind_ok.mp begun
    cases begun
    have ready := prepareWriter_expecting prepared
    simp only
    rw [bind_run, bind_run, orAbort, orAbort, writeChunks_run rfl ready]

def pages (file : File) : Nat → Nat → List Bytes
  | 0, _ => []
  | fuel + 1, pos =>
    let page := file.read pos pageSize
    if page = [] then [] else if page.length < pageSize then [page]
    else page :: pages file fuel (pos + pageSize)

theorem pages_flatten {file : File} {fuel pos : Nat} (enough : file.size < pos + fuel * pageSize) :
    (pages file fuel pos).flatten = file.read pos (file.size - pos) := by
  induction fuel generalizing pos with
  | zero =>
    rw [show file.size - pos = 0 by omega]
    rfl
  | succ fuel ih =>
    have length := file.read_length pos pageSize
    have page : pageSize = 4096 := rfl
    have product := Nat.add_mul fuel 1 pageSize
    rw [pages]
    split
    next none =>
      rw [none, List.length_nil] at length
      rw [show file.size - pos = 0 by omega]
      rfl
    next some =>
      split
      next short =>
        rw [List.flatten_singleton, File.read_min, show min pageSize (file.size - pos) = file.size - pos by omega]
      next full =>
        have inside : pos + pageSize ≤ file.size := by omega
        rw [List.flatten_cons, ih (by omega), ← File.read_add _ inside,
          show pageSize + (file.size - (pos + pageSize)) = file.size - pos by omega]

theorem overrule_false {α : Type} (x : Op Error WriteArchive α) : overrule false x = x := by
  funext a
  unfold overrule
  cases x a <;> rfl

theorem copyPages_eq (codecs : Codecs) (file : File) (fuel pos : Nat) :
    copyPages codecs fuel ⟨file, pos, Faults.healthy⟩ = writeChunks codecs (pages file fuel pos) := by
  induction fuel generalizing pos with
  | zero => rfl
  | succ fuel ih =>
    have page : readPage ⟨file, pos, Faults.healthy⟩ =
        { got := file.read pos pageSize, ended := (file.read pos pageSize).length < pageSize
          failed := false
          source := ⟨file, pos + (file.read pos pageSize).length, Faults.healthy⟩ } := rfl
    rw [copyPages, pages, page]
    simp only [overrule_false, decide_eq_true_eq]
    by_cases none : file.read pos pageSize = []
    · simp only [if_pos none]
      rfl
    · simp only [if_neg none]
      by_cases short : (file.read pos pageSize).length < pageSize
      · simp only [if_pos short]
        rfl
      · have full : (file.read pos pageSize).length = pageSize := by
          have length := file.read_length pos pageSize
          omega
        simp only [full, ih]
        rfl

theorem fileAddPath_eq_fileAdd (codecs : Codecs) (name : Bytes) (options : FileOptions) {source : Disk}
    (served : source.Calm) :
    fileAddPath codecs name source options =
      fileAdd codecs name (source.file.read 0 source.file.size) options := by
  have opened : openPath source = .ok source.file.size ⟨source.file, 0, Faults.healthy⟩ := by
    have plan : source.plan = Faults.healthy := served
    unfold openPath
    rw [bind_of_ok (Disk.alloc_calm served _), bind_of_ok (Disk.seekEnd_calm served _),
      bind_of_ok (Disk.tell_calm (show Disk.Calm { source with pos := source.file.size } from served) _),
      bind_of_ok (Disk.seek_calm (show Disk.Calm { source with pos := source.file.size } from served) _ _),
      pure_run, plan]
  have whole := @pages_flatten source.file (source.file.size / pageSize + 2) 0
    (by simp only [pageSize]; omega)
  rw [Nat.sub_zero] at whole
  have size : (pages source.file (source.file.size / pageSize + 2) 0).flatten.length =
      source.file.size := by
    rw [whole, File.read_length]
    omega
  funext a
  have cut := addChunks_eq_fileAdd codecs name options
    (pages source.file (source.file.size / pageSize + 2) 0) a
  rw [addChunks, size, whole, ← copyPages_eq] at cut
  rw [fileAddPath, opened]
  exact cut

theorem chunking_invisible (codecs : Codecs) (name : Bytes) (options : FileOptions) (a : WriteArchive)
    {first second : List Bytes} (same : first.flatten = second.flatten) {source : Disk}
    (served : source.Calm) (content : source.file.read 0 source.file.size = first.flatten) :
    addChunks codecs name options first a = addChunks codecs name options second a ∧
      fileAdd codecs name first.flatten options a = addChunks codecs name options first a ∧
      fileAddPath codecs name source options a = addChunks codecs name options first a := by
  rw [addChunks_eq_fileAdd, addChunks_eq_fileAdd, same, fileAddPath_eq_fileAdd _ _ _ served, content, same]
  exact ⟨rfl, rfl, rfl⟩

theorem chunking_invisible_two_bytes :
    let source : Disk := ⟨File.ofBytes [1, 2], 0, Faults.healthy⟩
    addChunks Compression.zeroRunCodecs [0x61] .default [[1], [], [2]] (newArchive .default source) =
        addChunks Compression.zeroRunCodecs [0x61] .default [[1, 2]] (newArchive .default source) ∧
      fileAdd Compression.zeroRunCodecs [0x61] [1, 2] .default (newArchive .default source) =
        addChunks Compression.zeroRunCodecs [0x61] .default [[1], [], [2]] (newArchive .default source) ∧
      fileAddPath Compression.zeroRunCodecs [0x61] source .default (newArchive .default source) =
        addChunks Compression.zeroRunCodecs [0x61] .default [[1], [], [2]]
          (newArchive .default source) :=
  chunking_invisible _ _ _ _ rfl rfl (by decide)

end Writing

end LibMpq
