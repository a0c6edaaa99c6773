import LibMpq.MemberImage
import LibMpq.WriterPublish

set_option autoImplicit false

namespace LibMpq

open Effect Bits Chunked

namespace Compression

theorem compressionStage_steady (codecs : Codecs) (stage : Stage) (data : Bytes) :
    Keeps Faults.Steady (compressionStage codecs stage data) := by
  refine Keeps.bind (Keeps.failIf _ _) fun _ => Keeps.bind (request_steady _) fun _ => ?_
  refine Keeps.bind ?_ fun _ => Keeps.fromExcept _
  split
  · exact request_steady _
  · exact Keeps.pure ()

theorem tryStage_steady (codecs : Codecs) (requested : UInt32) (packing : Packing) (stage : Stage) :
    Keeps Faults.Steady (tryStage codecs requested packing stage) := by
  unfold tryStage
  split
  · refine Keeps.bind (request_steady _) fun _ => ?_
    refine Keeps.bind (compressionStage_steady codecs stage _).attempt fun next => ?_
    cases next with
    | none => exact Keeps.pure _
    | some data =>
      simp only
      split <;> exact Keeps.pure _
  · exact Keeps.pure _

theorem copyRaw_steady (input : Bytes) : Keeps Faults.Steady (copyRaw input) :=
  Keeps.bind (request_steady _) fun _ => Keeps.pure _

theorem encodeLzma_steady (codecs : Codecs) (input : Bytes) :
    Keeps Faults.Steady (encodeLzma codecs input) := by
  unfold encodeLzma
  split
  · exact copyRaw_steady input
  · refine Keeps.bind (request_steady _) fun _ => ?_
    cases codecs.lzma.properties with
    | none => exact Keeps.throw _
    | some properties =>
      refine Keeps.bind (Keeps.failIf _ _) fun _ => ?_
      simp only
      cases (codecs.lzma.encode input (input.length - lzmaTotalOverhead - 1)).ret with
      | bufError => exact copyRaw_steady input
      | ok => exact Keeps.pure _
      | memError => exact Keeps.throw _
      | streamEnd => exact Keeps.throw _
      | other => exact Keeps.throw _

theorem emit_steady (input : Bytes) (packing : Packing) : Keeps Faults.Steady (emit input packing) := by
  unfold emit
  split
  · exact Keeps.pure _
  · exact Keeps.bind (request_steady _) fun _ => Keeps.pure _

theorem encodeSector_steady (codecs : Codecs) (input : Bytes) (requested version : UInt32)
    (policy : Policy) : Keeps Faults.Steady (encodeSector codecs input requested version policy) := by
  refine Keeps.bind (Keeps.failIf _ _) fun _ => ?_
  split
  · exact encodeLzma_steady codecs input
  · refine Keeps.bind (request_steady _) fun _ => ?_
    refine Keeps.bind (Keeps.foldlM (tryStage_steady codecs requested) _ _) fun packing => ?_
    split
    · exact emit_steady _ _
    · exact Keeps.bind (request_steady _) fun _ => emit_steady _ _

theorem encodeSector_recovers {codecs : Codecs} (lossless : codecs.Lossless) {input : Bytes}
    {requested version : UInt32} {policy : Policy} (noWave : losslessMask requested = true)
    {encoded : Encoded} {plan plan' : Faults}
    (run : encodeSector codecs input requested version policy plan = .ok encoded plan') :
    Recovers codecs Flag.compressMulti version encoded.output input := by
  obtain ⟨origin, emitted⟩ := encodeSector_ok lossless noWave run
  refine ⟨encodeSector_length_le run, fun some => ?_, ?_⟩
  · cases origin with
    | raw => exact some
    | chain => exact List.cons_ne_nil _ _
    | lzma => exact List.cons_ne_nil _ _
  intro small out outSize size
  exact decompressBlock_origin lossless origin emitted small size

theorem recovers_raw (codecs : Codecs) (version : UInt32) (data : Bytes) :
    Recovers codecs Flag.compressNone version data data := by
  refine ⟨le_rfl, id, ?_⟩
  intro small out outSize size
  have dispatch : decompressBlock codecs true data out outSize Flag.compressNone version =
      if data.length < outSize.toNat then ⟨Error.size.code, out⟩ else copyOut data out outSize := rfl
  rw [dispatch, if_neg (by omega), copyOut_whole size]
  simp

theorem recovers_implode_raw (codecs : Codecs) (version : UInt32) (data : Bytes) :
    Recovers codecs Flag.compressPkzip version data data := by
  refine ⟨le_rfl, id, ?_⟩
  intro small out outSize size
  have dispatch : decompressBlock codecs true data out outSize Flag.compressPkzip version =
      requireWhole true outSize (if data.length < outSize.toNat then
        decompressPkzip codecs data out outSize else copyOut data out outSize) := rfl
  rw [dispatch, if_neg (by omega), copyOut_whole size, requireWhole_of_status (by rw [size])]
  simp

theorem recovers_implode {codecs : Codecs} (lossless : codecs.Lossless) (version : UInt32)
    {data packed : Bytes} {limit : Nat}
    (encoded : (codecs.stage .pkzip).encode data limit = .ok packed)
    (shorter : packed.length < data.length) :
    Recovers codecs Flag.compressPkzip version packed data := by
  refine ⟨shorter.le, fun _ => (lossless.stage .pkzip rfl).encode_ne_nil encoded, ?_⟩
  intro small out outSize size
  have dispatch : decompressBlock codecs true packed out outSize Flag.compressPkzip version =
      requireWhole true outSize (if packed.length < outSize.toNat then
        decompressPkzip codecs packed out outSize else copyOut packed out outSize) := rfl
  obtain ⟨status, written⟩ :=
    (lossless.stage .pkzip rfl).decode_encode encoded small size.ge
  have decoded : decompressPkzip codecs packed out outSize =
      ⟨Int32.ofNat data.length, Bytes.overlay data out⟩ := by
    rw [decompressPkzip, status, written]
  rw [dispatch, if_pos (by omega), decoded, requireWhole_of_status (by rw [size])]
  simp

end Compression

namespace Writing

theorem modifyWriter_run (f : Writer → Writer) (s : Active) :
    modifyWriter f s = .ok () { s with writer := f s.writer } := rfl

theorem keyOf_steady (name : Bytes) : Keeps Faults.Steady (keyOf name) := by
  rintro _ rfl
  rfl

theorem packSector_steady (codecs : Codecs) (s : Active) :
    Keeps Faults.Steady (packSector codecs s) := by
  unfold packSector
  simp only
  split
  · exact Keeps.bind (Compression.encodeSector_steady _ _ _ _ _) fun _ => Keeps.pure _
  · split
    · refine Keeps.bind (Keeps.fromExcept _) fun packed => ?_
      split
      · exact Keeps.bind (request_steady _) fun _ => Keeps.pure _
      · exact Keeps.pure _
    · exact Keeps.bind (request_steady _) fun _ => Keeps.pure _

theorem encryptSector_steady (w : Writer) (packed : Bytes) :
    Keeps Faults.Steady (encryptSector w packed) := by
  unfold encryptSector
  split
  · exact Keeps.bind (keyOf_steady _) fun _ => Keeps.pure _
  · exact Keeps.pure _

/-- The masks of a compressed member have no WAVE stage. -/
def LosslessMasks (options : FileOptions) : Prop :=
  has options.flags Flag.compress = true →
    Compression.losslessMask options.compressionFirst = true ∧
      Compression.losslessMask options.compressionNext = true

theorem packSector_recovers {codecs : Codecs} (lossless : codecs.Lossless) {s : Active}
    (masks : LosslessMasks s.writer.options) {packed : Bytes} {plan plan' : Faults}
    (run : packSector codecs s plan = .ok packed plan') :
    Recovers codecs (Reading.blockMethod s.writer.options.flags)
      s.archive.header.version.toUInt32 packed s.writer.data := by
  unfold packSector at run
  unfold Reading.blockMethod
  split at run
  next compressed =>
    obtain ⟨encoded, _, sector, run⟩ := bind_ok.mp run
    obtain ⟨rfl, -⟩ := pure_ok.mp run
    rw [if_pos compressed]
    refine Compression.encodeSector_recovers lossless ?_ sector
    unfold requestedMask
    split
    · exact (masks compressed).1
    · exact (masks compressed).2
  next plain =>
    rw [if_neg plain]
    split at run
    next imploded =>
      rw [if_pos imploded]
      obtain ⟨best, _, encoded, run⟩ := bind_ok.mp run
      obtain ⟨encoded, -⟩ := fromExcept_ok.mp encoded
      split at run
      next =>
        obtain ⟨-, _, -, run⟩ := bind_ok.mp run
        obtain ⟨rfl, -⟩ := pure_ok.mp run
        exact Compression.recovers_implode_raw _ _ _
      next shorter =>
        obtain ⟨rfl, -⟩ := pure_ok.mp run
        exact Compression.recovers_implode lossless _ encoded (Nat.not_le.mp shorter)
    next raw =>
      rw [if_neg raw]
      obtain ⟨-, _, -, run⟩ := bind_ok.mp run
      obtain ⟨rfl, -⟩ := pure_ok.mp run
      exact Compression.recovers_raw _ _ _

theorem encryptSector_ok {w : Writer} {packed stored : Bytes} {plan plan' : Faults}
    (run : encryptSector w packed plan = .ok stored plan')
    (granted : has w.options.flags Flag.encrypted = true → plan = Faults.healthy) :
    stored = if has w.options.flags Flag.encrypted then
      Crypto.encryptBlock packed (fileKey w.name + UInt32.ofNat w.sectorIndex) else packed := by
  unfold encryptSector at run
  split at run
  next encrypted =>
    rw [if_pos encrypted]
    obtain ⟨key, _, derived, run⟩ := bind_ok.mp run
    rw [granted encrypted] at derived
    cases derived
    exact (pure_ok.mp run).1
  next plain =>
    rw [if_neg plain]
    exact (pure_ok.mp run).1

def flushed (packed : Bytes) (position length : Nat) (next : UInt32) (w : Writer) : Writer :=
  let recorded :=
    setOffset w.sectorIndex (UInt32.ofNat (position - w.payloadOffset)) (recordChecksum packed w)
  { recorded with
    packedTotal := w.packedTotal + length
    options := { w.options with compressionNext := next }
    sectorIndex := w.sectorIndex + 1
    data := [] }

theorem recordOffset_ok {s s' : Active} (run : recordOffset s = .ok () s') :
    ∃ disk, s' = ⟨setOffset s.writer.sectorIndex
        (UInt32.ofNat (s.archive.disk.pos - s.writer.payloadOffset)) s.writer,
        { s.archive with disk }⟩ ∧
      disk.file = s.archive.disk.file ∧ disk.pos = s.archive.disk.pos ∧
      (s.archive.disk.Calm → disk.Calm) := by
  unfold recordOffset at run
  rw [bind_of_ok (get_run s)] at run
  split at run
  next =>
    obtain ⟨position, _, told, run⟩ := bind_ok.mp run
    obtain ⟨disk, tell, rfl⟩ := streamDisk_ok.mp told
    have steady := (Disk.steady_tell _).ok tell
    obtain ⟨rfl, rfl⟩ := Disk.tell_ok tell
    cases run
    exact ⟨_, rfl, rfl, rfl, steady⟩
  next absent =>
    obtain ⟨-, same⟩ := pure_ok.mp run
    have unset : ∀ value, setOffset s.writer.sectorIndex value s.writer = s.writer := by
      intro value
      have noTable := Option.not_isSome_iff_eq_none.mp absent
      rw [setOffset, noTable, Option.map_none, ← noTable]
    exact ⟨s.archive.disk, by rw [same, unset], rfl, rfl, id⟩

theorem flushSector_ok {codecs : Codecs} {s s' : Active} (run : flushSector codecs s = .ok () s')
    (calm : has s.writer.options.flags Flag.encrypted = true → s.archive.disk.Calm) :
    ∃ packed stored next disk, (∃ plan plan', packSector codecs s plan = .ok packed plan') ∧
      stored = (if has s.writer.options.flags Flag.encrypted then
        Crypto.encryptBlock packed (fileKey s.writer.name + UInt32.ofNat s.writer.sectorIndex)
        else packed) ∧
      nextMask s.writer = .ok next ∧
      s' = ⟨flushed packed s.archive.disk.pos stored.length next s.writer, { s.archive with disk }⟩ ∧
      disk.file = s.archive.disk.file.write s.archive.disk.pos stored ∧
      disk.pos = s.archive.disk.pos + stored.length ∧ (s.archive.disk.Calm → disk.Calm) := by
  unfold flushSector at run
  rw [bind_of_ok (get_run s)] at run
  obtain ⟨-, run⟩ := failIf_bind_ok.mp run
  obtain ⟨packed, _, pack, run⟩ := bind_ok.mp run
  obtain ⟨_, packOn, rfl⟩ := streamDisk_ok.mp pack
  have steady := (Disk.steady_onPlan (packSector_steady codecs s)).ok packOn
  obtain ⟨plan, packed_, rfl⟩ := Disk.onPlan_ok packOn
  rw [bind_of_ok (modifyWriter_run _ _)] at run
  obtain ⟨stored, _, encrypt, run⟩ := bind_ok.mp run
  obtain ⟨_, encryptOn, rfl⟩ := streamDisk_ok.mp encrypt
  have steady' := (Disk.steady_onPlan (encryptSector_steady s.writer packed)).ok encryptOn
  obtain ⟨plan', encrypted_, rfl⟩ := Disk.onPlan_ok encryptOn
  obtain ⟨_, _, record, run⟩ := bind_ok.mp run
  obtain ⟨disk, rfl, file, pos, calm'⟩ := recordOffset_ok record
  obtain ⟨_, _, write, run⟩ := bind_ok.mp run
  obtain ⟨disk', writeOn, rfl⟩ := streamDisk_ok.mp write
  have steady'' := (Disk.steady_write _ _).ok writeOn
  obtain ⟨file', pos'⟩ := Disk.write_ok writeOn
  rw [bind_of_ok (modifyWriter_run _ _)] at run
  obtain ⟨next, _, mask, run⟩ := bind_ok.mp run
  obtain ⟨usable, rfl⟩ := fromExcept_ok.mp mask
  cases run
  refine ⟨packed, stored, next, disk', ⟨_, _, packed_⟩, ?_, usable, rfl, ?_, ?_, ?_⟩
  · exact encryptSector_ok encrypted_ fun encrypted => steady (calm encrypted)
  · rw [file', file, pos]
  · rw [pos', pos]
  · exact fun calm => steady'' (calm' (steady' (steady calm)))

def tableSizeOf (w : Writer) : Nat := if w.offsets.isSome then tableEntries w * 4 else 0

def storedSector (w : Writer) (packed : Nat → Bytes) (i : Nat) : Bytes :=
  if has w.options.flags Flag.encrypted then
    Crypto.encryptBlock (packed i) (fileKey w.name + UInt32.ofNat i)
  else packed i

structure Progress (codecs : Codecs) (before : File) (s : Active) (x : Bytes)
    (packed : Nat → Bytes) : Prop where
  kept : File.Agrees s.writer.payloadOffset before s.archive.disk.file
  masks : LosslessMasks s.writer.options
  calm : has s.writer.options.flags Flag.encrypted = true → s.archive.disk.Calm
  written : s.writer.written = x.length
  data : s.writer.data = x.drop (s.writer.sectorIndex * s.archive.sectorSize)
  recovers : ∀ i, i < s.writer.sectorIndex →
    Recovers codecs (Reading.blockMethod s.writer.options.flags) s.archive.header.version.toUInt32
      (packed i) (Bytes.piece s.archive.sectorSize x i)
  holds : s.archive.disk.file.Holds (s.writer.payloadOffset + tableSizeOf s.writer)
    (Segments.join (storedSector s.writer packed) s.writer.sectorIndex)
  pos : s.archive.disk.pos = s.writer.payloadOffset + tableSizeOf s.writer +
    Segments.start (storedSector s.writer packed) s.writer.sectorIndex
  total : s.writer.packedTotal =
    Segments.start (storedSector s.writer packed) s.writer.sectorIndex
  offsets : s.writer.offsets.isSome = true → ∀ i, i < s.writer.sectorIndex →
    s.writer.offset i =
      UInt32.ofNat (tableSizeOf s.writer + Segments.start (storedSector s.writer packed) i)
  sums : ∀ sums, s.writer.checksums = some sums → ∀ i, i < s.writer.sectorIndex →
    sums i = Checksum.adler32 0 (packed i)
  crc : has s.writer.attributes.flags attributeCrc32 = true →
    s.writer.attributes.crc32 = Checksum.crc32 0 x
  md5 : has s.writer.attributes.flags attributeMd5 = true → s.writer.md5 = Md5.init.update x

theorem nextMask_lossless {w : Writer} {next : UInt32} (usable : nextMask w = .ok next)
    (lossless : Compression.losslessMask w.options.compressionNext = true) :
    next = w.options.compressionNext := by
  unfold nextMask at usable
  simp only [Compression.losslessMask, Bool.not_eq_true'] at lossless
  rw [if_neg (by simp [lossless])] at usable
  cases usable
  rfl

theorem offset_setOffset_of_ne {w : Writer} {i j : Nat} (other : j ≠ i) (value : UInt32) :
    (setOffset i value w).offset j = w.offset j := by
  unfold setOffset Writer.offset
  cases w.offsets with
  | none => rfl
  | some offsets => exact if_neg other

theorem start_storeAt (w : Writer) (packed : Nat → Bytes) (k : Nat) (sector : Bytes) {i : Nat}
    (below : i ≤ k) :
    Segments.start (storedSector w (storeAt packed k sector)) i =
      Segments.start (storedSector w packed) i := by
  refine Segments.start_congr fun j before => ?_
  have other : storeAt packed k sector j = packed j := if_neg (by omega)
  simp only [storedSector, other]

theorem flushSector_progress {codecs : Codecs} {before : File} (lossless : codecs.Lossless) {s s' : Active}
    {x : Bytes} {packed : Nat → Bytes} (progress : Progress codecs before s x packed)
    (last : x.length ≤ (s.writer.sectorIndex + 1) * s.archive.sectorSize)
    (run : flushSector codecs s = .ok () s') :
    ∃ packed', Progress codecs before s' x packed' ∧
      s'.writer.sectorIndex = s.writer.sectorIndex + 1 := by
  obtain ⟨sector, stored, next, disk, ⟨_, _, pack⟩, encrypted, usable, rfl, file, pos, steady⟩ :=
    flushSector_ok run progress.calm
  have here : storeAt packed s.writer.sectorIndex sector s.writer.sectorIndex = sector := if_pos rfl
  have table : ∀ w, w.offsets.isSome = s.writer.offsets.isSome →
      w.checksums.isSome = s.writer.checksums.isSome → w.blockCount = s.writer.blockCount →
      tableSizeOf w = tableSizeOf s.writer := by
    intro w offsets checksums count
    simp only [tableSizeOf, tableEntries, offsets, checksums, count]
  have size : tableSizeOf (flushed sector s.archive.disk.pos stored.length next s.writer) =
      tableSizeOf s.writer :=
    table _ (by simp [flushed, setOffset, recordChecksum])
      (by simp [flushed, setOffset, recordChecksum]) rfl
  have same : storedSector (flushed sector s.archive.disk.pos stored.length next s.writer)
      (storeAt packed s.writer.sectorIndex sector) =
      storedSector s.writer (storeAt packed s.writer.sectorIndex sector) := rfl
  have storedHere : storedSector s.writer (storeAt packed s.writer.sectorIndex sector)
      s.writer.sectorIndex = stored := by
    rw [storedSector, here, encrypted]
  have begin_ : Segments.start (storedSector s.writer (storeAt packed s.writer.sectorIndex sector))
      s.writer.sectorIndex = Segments.start (storedSector s.writer packed) s.writer.sectorIndex :=
    start_storeAt s.writer packed _ sector le_rfl
  have stop : Segments.start (storedSector s.writer (storeAt packed s.writer.sectorIndex sector))
      (s.writer.sectorIndex + 1) =
      Segments.start (storedSector s.writer packed) s.writer.sectorIndex + stored.length := by
    rw [Segments.start_succ, begin_, storedHere]
  refine ⟨storeAt packed s.writer.sectorIndex sector, ?_, rfl⟩
  constructor
  case kept =>
    change File.Agrees s.writer.payloadOffset before disk.file
    have position := progress.pos
    rw [file]
    exact progress.kept.write (by omega) stored
  case masks =>
    intro compressed
    obtain ⟨first, later⟩ := progress.masks compressed
    refine ⟨first, ?_⟩
    exact (congrArg _ (nextMask_lossless usable later)).trans later
  case calm => exact fun encrypted => steady (progress.calm encrypted)
  case written => exact progress.written
  case data => exact (List.drop_eq_nil_of_le last).symm
  case recovers =>
    intro i below
    rcases Nat.lt_succ_iff_lt_or_eq.mp below with before | rfl
    · have other : storeAt packed s.writer.sectorIndex sector i = packed i := if_neg (by omega)
      rw [other]
      exact progress.recovers i before
    · have whole : Bytes.piece s.archive.sectorSize x s.writer.sectorIndex = s.writer.data := by
        rw [progress.data, Bytes.piece, List.take_of_length_le]
        rw [List.length_drop]
        have := Nat.add_mul s.writer.sectorIndex 1 s.archive.sectorSize
        omega
      rw [here, whole]
      exact packSector_recovers lossless progress.masks pack
  case holds =>
    change disk.file.Holds (s.writer.payloadOffset + tableSizeOf _)
      (Segments.join (storedSector s.writer _) (s.writer.sectorIndex + 1))
    have before : Segments.join (storedSector s.writer (storeAt packed s.writer.sectorIndex sector))
        s.writer.sectorIndex = Segments.join (storedSector s.writer packed) s.writer.sectorIndex := by
      refine Segments.join_congr fun i below => ?_
      have other : storeAt packed s.writer.sectorIndex sector i = packed i := if_neg (by omega)
      simp only [storedSector, other]
    have position := progress.pos
    rw [Segments.start] at position
    rw [size, Segments.join_succ, before, storedHere, File.holds_append, file, ← position]
    exact ⟨progress.holds.write (.inl position.ge), File.holds_write _ _ _⟩
  case pos =>
    change disk.pos = s.writer.payloadOffset + tableSizeOf _ +
      Segments.start (storedSector s.writer _) (s.writer.sectorIndex + 1)
    rw [size, stop, pos, progress.pos, Nat.add_assoc]
  case total =>
    change s.writer.packedTotal + stored.length =
      Segments.start (storedSector s.writer _) (s.writer.sectorIndex + 1)
    rw [stop, progress.total]
  case offsets =>
    intro some i below
    rw [size, same]
    have kept : s.writer.offsets.isSome = true := by
      simpa [flushed, setOffset, recordChecksum] using some
    rcases Nat.lt_succ_iff_lt_or_eq.mp below with before | rfl
    · rw [start_storeAt s.writer packed _ sector before.le, ← progress.offsets kept i before]
      exact offset_setOffset_of_ne (by omega) _
    · refine (@offset_setOffset (recordChecksum sector s.writer) kept _ _).trans ?_
      have position := progress.pos
      rw [begin_]
      congr 1
      omega
  case sums =>
    intro sums recorded i below
    have recorded : (s.writer.checksums.map fun sums =>
        storeAt sums s.writer.sectorIndex (Checksum.adler32 0 sector)) = some sums := recorded
    obtain ⟨old, known, rfl⟩ := Option.map_eq_some_iff.mp recorded
    rcases Nat.lt_succ_iff_lt_or_eq.mp below with before | rfl
    · have other : storeAt packed s.writer.sectorIndex sector i = packed i := if_neg (by omega)
      rw [other, ← progress.sums old known i before]
      exact if_neg (by omega)
    · rw [here]
      exact if_pos rfl
  case crc => exact progress.crc
  case md5 => exact progress.md5

def Feeding (codecs : Codecs) (before : File) (x : Bytes) (s : Active) : Prop :=
  (∃ packed, Progress codecs before s x packed) ∧
    s.writer.sectorIndex * s.archive.sectorSize ≤ x.length ∧
    x.length < (s.writer.sectorIndex + 1) * s.archive.sectorSize

theorem absorb_progress {codecs : Codecs} {before : File} {s : Active} {x part : Bytes} {packed : Nat → Bytes}
    (progress : Progress codecs before s x packed)
    (begun : s.writer.sectorIndex * s.archive.sectorSize ≤ x.length) :
    Progress codecs before { s with writer := absorb part s.writer } (x ++ part) packed where
  kept := progress.kept
  masks := progress.masks
  calm := progress.calm
  written := by
    rw [List.length_append, ← progress.written]
    rfl
  data := by
    refine (congrArg (· ++ part) progress.data).trans ?_
    exact (List.drop_append_of_le_length begun).symm
  recovers := by
    intro i below
    have whole : (i + 1) * s.archive.sectorSize ≤ x.length :=
      (Nat.mul_le_mul_right _ below).trans begun
    rw [Bytes.piece_append whole]
    exact progress.recovers i below
  holds := progress.holds
  pos := progress.pos
  total := progress.total
  offsets := progress.offsets
  sums := progress.sums
  crc := by
    intro recorded
    rw [Checksum.crc32_append, ← progress.crc recorded]
    exact if_pos recorded
  md5 := by
    intro recorded
    rw [Md5.update_append Md5.init_ready, ← progress.md5 recorded]
    exact if_pos recorded

theorem step_feeding {codecs : Codecs} {before : File} (lossless : codecs.Lossless) {x part : Bytes} {s s' : Active}
    (feeding : Feeding codecs before x s) (fits : part.length ≤ (sectorBuffer codecs).room s)
    (run : (sectorBuffer codecs).step part s = .ok () s') : Feeding codecs before (x ++ part) s' := by
  obtain ⟨⟨packed, progress⟩, begun, partial_⟩ := feeding
  have product := Nat.add_mul s.writer.sectorIndex 1 s.archive.sectorSize
  have room : part.length ≤ s.archive.sectorSize - s.writer.data.length := fits
  have length := congrArg List.length progress.data
  rw [List.length_drop] at length
  have taken : Progress codecs before ((sectorBuffer codecs).push part s) (x ++ part) packed :=
    absorb_progress progress begun
  have last : (x ++ part).length ≤ (s.writer.sectorIndex + 1) * s.archive.sectorSize := by
    rw [List.length_append]
    omega
  rw [Buffer.step_run] at run
  have left : (sectorBuffer codecs).room ((sectorBuffer codecs).push part s) =
      s.archive.sectorSize - (s.writer.data ++ part).length := rfl
  rw [left, List.length_append] at run
  split at run
  next full =>
    obtain ⟨packed', progress', index⟩ := flushSector_progress lossless taken last run
    obtain ⟨disk, archive⟩ := ((flushSector_follows codecs).ok run).archive
    have sector : s'.archive.sectorSize = s.archive.sectorSize := by
      rw [archive]
      rfl
    have index : s'.writer.sectorIndex = s.writer.sectorIndex + 1 := index
    have next := Nat.add_mul (s.writer.sectorIndex + 1) 1 s.archive.sectorSize
    rw [List.length_append] at last
    refine ⟨⟨packed', progress'⟩, ?_, ?_⟩ <;> rw [index, sector, List.length_append] <;> omega
  next open_ =>
    cases run
    refine ⟨⟨packed, taken⟩, ?_, ?_⟩
    · exact begun.trans (by simp)
    · change (x ++ part).length < (s.writer.sectorIndex + 1) * s.archive.sectorSize
      rw [List.length_append]
      omega

theorem streamWrite_feeding {codecs : Codecs} {before : File} (lossless : codecs.Lossless) {x data : Bytes}
    {s s' : Active} (feeding : Feeding codecs before x s) (run : streamWrite codecs data s = .ok () s') :
    Feeding codecs before (x ++ data) s' := by
  unfold streamWrite at run
  rw [bind_of_ok (get_run s)] at run
  obtain ⟨-, run⟩ := failIf_bind_ok.mp run
  refine Buffer.feed_ok (fun x part s s' => step_feeding lossless) (fun x s feeding => ?_) feeding
    (Nat.le_succ _) run
  obtain ⟨⟨packed, progress⟩, begun, partial_⟩ := feeding
  have product := Nat.add_mul s.writer.sectorIndex 1 s.archive.sectorSize
  change 0 < s.archive.sectorSize - s.writer.data.length
  rw [progress.data, List.length_drop]
  omega

structure Shaped (w : Writer) : Prop where
  known : w.options.flags &&& ~~~storageFlags = 0
  offsets : w.offsets.isSome = sectorTable w.options.flags
  checksums : w.checksums.isSome = has w.options.flags Flag.sectorCrc
  crc : has w.options.flags Flag.sectorCrc = true → sectorTable w.options.flags = true
  single : has w.options.flags Flag.single = true → w.blockCount = 1
  noPrefix : w.prefixSize = 0

theorem Shaped.follows {s s' : Active} (shaped : Shaped s.writer) (follows : Follows s s') :
    Shaped s'.writer := by
  refine ⟨?_, ?_, ?_, ?_, ?_, ?_⟩
  · rw [follows.flags]
    exact shaped.known
  · rw [follows.flags, follows.offsets]
    exact shaped.offsets
  · rw [follows.flags, follows.checksums]
    exact shaped.checksums
  · rw [follows.flags]
    exact shaped.crc
  · rw [follows.flags, follows.blockCount]
    exact shaped.single
  · rw [follows.prefixSize]
    exact shaped.noPrefix

theorem Shaped.tableEntries {w : Writer} (shaped : Shaped w) :
    tableEntries w = w.blockCount + 1 + (if has w.options.flags Flag.sectorCrc then 1 else 0) := by
  rw [Writing.tableEntries, shaped.checksums]

theorem Shaped.tableSizeOf {w : Writer} (shaped : Shaped w) :
    tableSizeOf w = if sectorTable w.options.flags then Writing.tableEntries w * 4 else 0 := by
  rw [Writing.tableSizeOf, shaped.offsets]

theorem encryptTable_steady (w : Writer) (table : Bytes) :
    Keeps Faults.Steady (encryptTable w table) := by
  unfold encryptTable
  split
  · exact Keeps.bind (keyOf_steady _) fun _ => Keeps.pure _
  · exact Keeps.pure _

theorem encryptTable_ok {w : Writer} {table stored : Bytes} {plan plan' : Faults}
    (run : encryptTable w table plan = .ok stored plan')
    (granted : has w.options.flags Flag.encrypted = true → plan = Faults.healthy) :
    stored = if has w.options.flags Flag.encrypted then
      Crypto.encryptBlock table (fileKey w.name - 1) else table := by
  unfold encryptTable at run
  split at run
  next encrypted =>
    rw [if_pos encrypted]
    obtain ⟨key, _, derived, run⟩ := bind_ok.mp run
    rw [granted encrypted] at derived
    cases derived
    exact (pure_ok.mp run).1
  next plain =>
    rw [if_neg plain]
    exact (pure_ok.mp run).1

def checksummed (sums : Bytes) (w : Writer) : Writer :=
  { setOffset (w.blockCount + 1) (w.offset w.blockCount + UInt32.ofNat sums.length) w with
    packedTotal := w.packedTotal + sums.length }

theorem writeChecksums_ok {codecs : Codecs} {sums : Nat → UInt32} {s s' : Active}
    (run : writeChecksums codecs sums s = .ok () s') :
    ∃ encoded disk, (∃ plan plan', Compression.encodeSector codecs (checksumTable s.writer sums)
        (Stage.mask .zlib) s.archive.header.version.toUInt32 .standard plan = .ok encoded plan') ∧
      s' = ⟨checksummed encoded.output s.writer, { s.archive with disk }⟩ ∧
      disk.file = s.archive.disk.file.write s.archive.disk.pos encoded.output ∧
      (s.archive.disk.Calm → disk.Calm) := by
  unfold writeChecksums at run
  rw [bind_of_ok (get_run s)] at run
  obtain ⟨_, _, granted, run⟩ := bind_ok.mp run
  obtain ⟨_, grant, rfl⟩ := streamDisk_ok.mp granted
  have steady := (Disk.steady_alloc _).ok grant
  have disk := Disk.alloc_ok grant
  subst disk
  obtain ⟨encoded, _, pack, run⟩ := bind_ok.mp run
  obtain ⟨_, packOn, rfl⟩ := streamDisk_ok.mp pack
  have steady' := (Disk.steady_onPlan (Compression.encodeSector_steady _ _ _ _ _)).ok packOn
  obtain ⟨plan, packed_, rfl⟩ := Disk.onPlan_ok packOn
  obtain ⟨-, run⟩ := failIf_bind_ok.mp run
  obtain ⟨_, _, write, run⟩ := bind_ok.mp run
  obtain ⟨disk, writeOn, rfl⟩ := streamDisk_ok.mp write
  have steady'' := (Disk.steady_write _ _).ok writeOn
  obtain ⟨file, -⟩ := Disk.write_ok writeOn
  cases run
  exact ⟨encoded, disk, ⟨_, _, packed_⟩, rfl, file, fun calm => steady'' (steady' (steady calm))⟩

def offsetsClosed (w : Writer) : Writer :=
  setOffset w.blockCount (UInt32.ofNat w.packedTotal + UInt32.ofNat (tableEntries w * 4)) w

def tableClosed (sums : Bytes) (w : Writer) : Writer :=
  if w.checksums.isSome then checksummed sums (offsetsClosed w) else offsetsClosed w

theorem tableClosed_total (sums : Bytes) (w : Writer) :
    (tableClosed sums w).packedTotal =
      w.packedTotal + (if w.checksums.isSome then sums.length else 0) := by
  unfold tableClosed
  split <;> rfl

theorem writeOffsets_ok {codecs : Codecs} {s s' : Active} {size : Nat}
    (run : writeOffsets codecs s = .ok size s')
    (calm : has s.writer.options.flags Flag.encrypted = true → s.archive.disk.Calm) :
    size = tableEntries s.writer * 4 ∧ ∃ (sums : Bytes) (disk : Disk),
      (s.writer.checksums = none ∧ sums = [] ∨
        ∃ table encoded plan plan', s.writer.checksums = some table ∧
          Compression.encodeSector codecs (checksumTable s.writer table) (Stage.mask .zlib)
            s.archive.header.version.toUInt32 .standard plan = .ok encoded plan' ∧
          sums = encoded.output) ∧
      s' = ⟨tableClosed sums s.writer, { s.archive with disk }⟩ ∧
      disk.file = (s.archive.disk.file.write s.archive.disk.pos sums).write s.writer.payloadOffset
        (if has s.writer.options.flags Flag.encrypted then
          Crypto.encryptBlock
            (Wire.le32.encodeTable (tableClosed sums s.writer).offset (tableEntries s.writer))
            (fileKey s.writer.name - 1)
        else Wire.le32.encodeTable (tableClosed sums s.writer).offset (tableEntries s.writer)) := by
  unfold writeOffsets at run
  rw [bind_of_ok (get_run s)] at run
  obtain ⟨-, run⟩ := failIf_bind_ok.mp run
  rw [bind_of_ok (modifyWriter_run _ _)] at run
  obtain ⟨_, t, checked, run⟩ := bind_ok.mp run
  obtain ⟨_, _, granted, run⟩ := bind_ok.mp run
  obtain ⟨_, grant, rfl⟩ := streamDisk_ok.mp granted
  have steady := (Disk.steady_alloc _).ok grant
  have moved := Disk.alloc_ok grant
  subst moved
  rw [bind_of_ok (get_run _)] at run
  obtain ⟨table, _, encrypt, run⟩ := bind_ok.mp run
  obtain ⟨_, encryptOn, rfl⟩ := streamDisk_ok.mp encrypt
  obtain ⟨plan, encrypted_, rfl⟩ := Disk.onPlan_ok encryptOn
  obtain ⟨_, _, write, run⟩ := bind_ok.mp run
  obtain ⟨disk, writeOn, rfl⟩ := streamDisk_ok.mp write
  obtain ⟨file, -⟩ := Disk.writeAt_ok writeOn
  obtain ⟨rfl, rfl⟩ := pure_ok.mp run
  refine ⟨rfl, ?_⟩
  cases known : s.writer.checksums with
  | none =>
    simp only [known] at checked
    cases checked
    have stored := encryptTable_ok encrypted_ fun encrypted => steady (calm encrypted)
    have closed : tableClosed [] s.writer = offsetsClosed s.writer := by
      rw [tableClosed, known]
      rfl
    refine ⟨[], disk, .inl ⟨rfl, rfl⟩, by rw [closed]; rfl, ?_⟩
    rw [closed, file, stored, File.write_nil]
    rfl
  | some sums =>
    simp only [known] at checked
    obtain ⟨encoded, disk', ⟨_, _, packed_⟩, rfl, file', calm'⟩ := writeChecksums_ok checked
    have stored := encryptTable_ok encrypted_ fun encrypted => steady (calm' (calm encrypted))
    have closed : tableClosed encoded.output s.writer =
        checksummed encoded.output (offsetsClosed s.writer) := by
      rw [tableClosed, known]
      rfl
    have entries : tableEntries (checksummed encoded.output (offsetsClosed s.writer)) =
        tableEntries s.writer := by
      simp [tableEntries, checksummed, offsetsClosed, setOffset]
    refine ⟨encoded.output, disk, .inr ⟨sums, encoded, _, _, rfl, packed_, rfl⟩,
      by rw [closed]; rfl, ?_⟩
    rw [closed, file, stored, file', ← entries]
    simp only [offsetsClosed]
    rfl

structure StoredAs (codecs : Codecs) (s : Active) (x : Bytes) (m : StoredMember codecs) : Prop where
  content : m.content = x
  flags : m.flags = s.writer.options.flags
  key : m.key = fileKey s.writer.name
  version : m.version = s.archive.header.version.toUInt32
  sectorSize : m.sectorSize = s.archive.sectorSize

structure Cut (s : Active) (x : Bytes) : Prop where
  index : s.writer.sectorIndex = s.writer.blockCount
  positive : 0 < s.writer.blockCount
  covers : x.length ≤ s.writer.blockCount * s.archive.sectorSize
  tight : x ≠ [] → (s.writer.blockCount - 1) * s.archive.sectorSize < x.length
  empty : x = [] → s.writer.blockCount = 1

theorem exists_storedMember {codecs : Codecs} {before : File} {s : Active} {x : Bytes} {packed : Nat → Bytes}
    (progress : Progress codecs before s x packed) (shaped : Shaped s.writer) (cut : Cut s x) (sums : Bytes)
    (checked : has s.writer.options.flags Flag.sectorCrc = true →
      Recovers codecs Flag.compressMulti s.archive.header.version.toUInt32 sums
        (Wire.le32.encodeTable (fun i => Checksum.adler32 0 (packed i)) s.writer.blockCount))
    (unchecked : has s.writer.options.flags Flag.sectorCrc = false → sums = []) :
    ∃ m : StoredMember codecs, StoredAs codecs s x m ∧ m.count = s.writer.blockCount ∧
      m.sums = sums ∧ m.stored = storedSector s.writer packed :=
  ⟨{  version := s.archive.header.version.toUInt32
      flags := s.writer.options.flags
      key := fileKey s.writer.name
      sectorSize := s.archive.sectorSize
      content := x
      count := s.writer.blockCount
      packed
      sums
      known := shaped.known
      positive := cut.positive
      covers := cut.covers
      tight := cut.tight
      single := shaped.single
      empty := cut.empty
      recovers := fun i below => progress.recovers i (cut.index ▸ below)
      checked := fun crc => ⟨shaped.crc crc, checked crc⟩
      unchecked },
    ⟨rfl, rfl, rfl, rfl, rfl⟩, rfl, rfl, rfl⟩

theorem holds_image {codecs : Codecs} {m : StoredMember codecs} {f : File} {p : Nat} {offsets : Nat → UInt32}
    (sectors : f.Holds (p + m.tableSize) (Segments.join m.stored m.count))
    (recorded : sectorTable m.flags = true → ∀ i, i < m.entries → offsets i = UInt32.ofNat (m.offset i))
    {table : Bytes}
    (encoded : table = if sectorTable m.flags then
      m.encrypt (Wire.le32.encodeTable offsets m.entries) (m.key - 1) else []) :
    ((f.write (p + m.tableSize + Segments.start m.stored m.count) m.sums).write p table).Holds p
      m.image := by
  have same : table = m.table := by
    rw [encoded, StoredMember.table]
    split
    next tabled => rw [Wire.encodeTable_congr _ (recorded tabled)]
    next => rfl
  rw [same, StoredMember.image, List.append_assoc, File.holds_append, File.holds_append,
    StoredMember.table_length]
  refine ⟨File.holds_write _ _ _, ?_, ?_⟩
  · exact (sectors.write (.inl le_rfl)).write (.inr (by rw [StoredMember.table_length]))
  · refine (File.holds_write _ _ _).write (.inr ?_)
    rw [StoredMember.table_length]
    omega

theorem tableClosed_offset {codecs : Codecs} {before : File} {s : Active} {x : Bytes} {packed : Nat → Bytes}
    (progress : Progress codecs before s x packed) (shaped : Shaped s.writer) (cut : Cut s x)
    (tabled : sectorTable s.writer.options.flags = true) {m : StoredMember codecs}
    (flags : m.flags = s.writer.options.flags) (count : m.count = s.writer.blockCount)
    (size : m.tableSize = tableSizeOf s.writer) (sectors : m.stored = storedSector s.writer packed)
    {i : Nat} (below : i < m.entries) :
    (tableClosed m.sums s.writer).offset i = UInt32.ofNat (m.offset i) := by
  have some : s.writer.offsets.isSome = true := shaped.offsets.trans tabled
  have ends : m.tableSize = tableEntries s.writer * 4 := by
    rw [size, shaped.tableSizeOf, tabled]
    rfl
  have total := progress.total
  rw [cut.index, ← sectors, ← count] at total
  -- Without the sums the table ends with the last sector.
  have closed : ∀ j, j ≤ m.count → (offsetsClosed s.writer).offset j = UInt32.ofNat (m.offset j) := by
    intro j le
    rw [m.offset_of_le le]
    by_cases last : j = m.count
    · rw [last, count]
      refine (offset_setOffset some _ _).trans ?_
      rw [← count, ← total, Nat.add_comm, UInt32.ofNat_add, ← ends]
    · refine (offset_setOffset_of_ne (by omega) _).trans ?_
      rw [progress.offsets some j (by rw [cut.index]; omega), size, sectors]
  by_cases inside : i ≤ m.count
  · rw [← closed i inside, tableClosed]
    split
    · have before : i ≠ (offsetsClosed s.writer).blockCount + 1 :=
        show i ≠ s.writer.blockCount + 1 by omega
      exact offset_setOffset_of_ne before _
    · rfl
  · rw [StoredMember.entries, flags] at below
    split at below
    next crc =>
      obtain rfl : i = m.count + 1 := by omega
      have kept : (offsetsClosed s.writer).offsets.isSome = true := by
        simpa [offsetsClosed, setOffset] using some
      rw [tableClosed, if_pos (shaped.checksums.trans crc), count]
      refine (offset_setOffset kept _ _).trans ?_
      have position := closed m.count le_rfl
      have image := m.offset_last
      rw [m.image_length, ← m.offset_of_le le_rfl] at image
      rw [← count, image, UInt32.ofNat_add, ← position, count]
      rfl
    next => omega

theorem closePayload_image {codecs : Codecs} {before : File} (lossless : codecs.Lossless) {s s' : Active} {x : Bytes}
    {packed : Nat → Bytes} {total : Nat} (progress : Progress codecs before s x packed)
    (shaped : Shaped s.writer) (cut : Cut s x) (run : closePayload codecs s = .ok total s') :
    ∃ m : StoredMember codecs, StoredAs codecs s x m ∧ total = m.image.length ∧
      s'.archive.disk.file.Holds s.writer.payloadOffset m.image ∧
      File.Agrees s.writer.payloadOffset before s'.archive.disk.file ∧
      s'.writer.attributes = s.writer.attributes ∧ s'.writer.md5 = s.writer.md5 := by
  unfold closePayload at run
  rw [bind_of_ok (get_run s)] at run
  obtain ⟨-, run⟩ := failIf_bind_ok.mp run
  obtain ⟨size, t, written, run⟩ := bind_ok.mp run
  rw [bind_of_ok (get_run t)] at run
  obtain ⟨_, _, sought, run⟩ := bind_ok.mp run
  obtain ⟨disk, seek, rfl⟩ := streamDisk_ok.mp sought
  obtain ⟨-, run⟩ := failIf_bind_ok.mp run
  obtain ⟨rfl, rfl⟩ := pure_ok.mp run
  have file : disk.file = t.archive.disk.file := by rw [Disk.seek_ok seek]
  change ∃ m : StoredMember codecs, _ ∧ _ ∧ disk.file.Holds _ _ ∧ File.Agrees _ _ disk.file ∧ _
  rw [file]
  have holds := progress.holds
  have total := progress.total
  have pos := progress.pos
  rw [cut.index] at holds total pos
  cases tabled : sectorTable s.writer.options.flags with
  | false =>
    rw [if_neg (by rw [shaped.offsets, tabled]; decide)] at written
    obtain ⟨rfl, rfl⟩ := pure_ok.mp written
    have plain : has t.writer.options.flags Flag.sectorCrc = false := by
      by_contra crc
      rw [shaped.crc (by simpa using crc)] at tabled
      cases tabled
    obtain ⟨m, stored, count, sums, sectors⟩ := exists_storedMember progress shaped cut []
      (by simp [plain]) fun _ => rfl
    have none : m.tableSize = 0 := by
      rw [StoredMember.tableSize, stored.flags, tabled]
      rfl
    have tableSize : tableSizeOf t.writer = 0 := by
      rw [shaped.tableSizeOf, tabled]
      rfl
    rw [tableSize, ← sectors, ← count, ← none] at holds
    have image := @holds_image codecs m t.archive.disk.file t.writer.payloadOffset (fun _ => 0) holds
      (by simp [stored.flags, tabled]) [] (by simp [stored.flags, tabled])
    rw [sums, File.write_nil, File.write_nil] at image
    refine ⟨m, stored, ?_, image, progress.kept, rfl, rfl⟩
    rw [StoredMember.image_length, none, sums, sectors, count, total, List.length_nil]
    omega
  | true =>
    rw [if_pos (by rw [shaped.offsets, tabled])] at written
    obtain ⟨rfl, sums, disk', checked, rfl, file'⟩ := writeOffsets_ok written progress.calm
    have crc : s.writer.checksums.isSome = has s.writer.options.flags Flag.sectorCrc :=
      shaped.checksums
    have tableSize : tableSizeOf s.writer = tableEntries s.writer * 4 := by
      rw [shaped.tableSizeOf, tabled]
      rfl
    obtain ⟨m, stored, count, sums_, sectors⟩ := exists_storedMember progress shaped cut sums
      (by
        intro crc'
        rcases checked with ⟨none, -⟩ | ⟨table, encoded, plan, plan', known, encode, rfl⟩
        · simp [none, crc'] at crc
        · have same : checksumTable s.writer table =
              Wire.le32.encodeTable (fun i => Checksum.adler32 0 (packed i)) s.writer.blockCount :=
            Wire.encodeTable_congr _ fun i below => progress.sums table known i (cut.index ▸ below)
          rw [← same]
          exact Compression.encodeSector_recovers lossless (by decide) encode)
      (by
        intro crc'
        rcases checked with ⟨-, rfl⟩ | ⟨table, encoded, plan, plan', known, -, -⟩
        · rfl
        · simp [known, crc'] at crc)
    have entries : m.entries = tableEntries s.writer := by
      rw [StoredMember.entries, stored.flags, count, shaped.tableEntries]
    have size : m.tableSize = tableEntries s.writer * 4 := by
      rw [StoredMember.tableSize, stored.flags, tabled, if_pos rfl, entries]
    rw [tableSize, ← size, ← sectors, ← count] at holds pos
    rw [← sectors, ← count] at total
    have written := @holds_image codecs m s.archive.disk.file s.writer.payloadOffset
      (tableClosed m.sums s.writer).offset holds
      (fun _ i below => tableClosed_offset progress shaped cut tabled stored.flags count
        (size.trans tableSize.symm) sectors below) _ rfl
    refine ⟨m, stored, ?_, ?_, ?_, ?_, ?_⟩
    · rw [m.image_length, size, ← total, sums_, tableClosed_total]
      rcases checked with ⟨none, rfl⟩ | ⟨table, _, _, _, known, -, -⟩
      · simp only [none, Option.isSome_none, List.length_nil, ite_self]
        omega
      · simp only [known, Option.isSome_some, if_true]
        omega
    · rw [stored.flags, tabled, if_pos rfl, sums_, entries, StoredMember.encrypt, stored.flags,
        stored.key, ← pos] at written
      rw [file']
      exact written
    · rw [file']
      exact (progress.kept.write (by omega) _).write le_rfl _
    · unfold tableClosed
      split <;> rfl
    · unfold tableClosed
      split <;> rfl

end Writing

end LibMpq
