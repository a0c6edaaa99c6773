import LibMpq.WriterContents
import LibMpq.WriterHealthy

set_option autoImplicit false

namespace LibMpq

open Effect Bits Chunked

namespace Compression

theorem tryStage_calm (codecs : Codecs) (requested : UInt32) (packing : Packing) (stage : Stage) :
    ∃ next, tryStage codecs requested packing stage Faults.healthy = .ok next Faults.healthy := by
  have steady := (compressionStage_steady codecs stage packing.data).attempt Faults.healthy rfl
  unfold tryStage
  split
  next =>
    rw [bind_of_ok (request_healthy _), bind_run]
    cases tried : attempt (compressionStage codecs stage packing.data) Faults.healthy with
    | error e plan =>
      unfold attempt at tried
      split at tried <;> cases tried
    | ok next plan =>
      rw [tried] at steady
      obtain rfl : plan = Faults.healthy := steady
      cases next with
      | none => exact ⟨packing, rfl⟩
      | some data =>
        simp only
        split
        · exact ⟨_, rfl⟩
        · exact ⟨_, rfl⟩
  next => exact ⟨packing, rfl⟩

theorem tryStages_calm (codecs : Codecs) (requested : UInt32) (stages : List Stage) (packing : Packing) :
    ∃ next, stages.foldlM (tryStage codecs requested) packing Faults.healthy = .ok next Faults.healthy := by
  induction stages generalizing packing with
  | nil => exact ⟨packing, rfl⟩
  | cons stage rest ih =>
    obtain ⟨next, first⟩ := tryStage_calm codecs requested packing stage
    obtain ⟨last, later⟩ := ih next
    exact ⟨last, by rw [List.foldlM_cons, bind_of_ok first, later]⟩

theorem emit_calm (input : Bytes) (packing : Packing) :
    ∃ encoded, emit input packing Faults.healthy = .ok encoded Faults.healthy := by
  unfold emit
  split
  · exact ⟨_, rfl⟩
  · rw [bind_of_ok (request_healthy _)]
    exact ⟨_, rfl⟩

theorem encodeSector_calm (codecs : Codecs) (input : Bytes) {requested version : UInt32} {policy : Policy}
    (allowed_ : allowed version requested policy = true) (noLzma : requested ≠ lzmaMask) :
    ∃ encoded, encodeSector codecs input requested version policy Faults.healthy =
      .ok encoded Faults.healthy := by
  obtain ⟨packing, chain⟩ := tryStages_calm codecs requested Stage.encodeOrder { data := input, mask := 0 }
  unfold encodeSector
  rw [bind_of_ok (failIf_false (by rw [allowed_]; decide) _ _), if_neg noLzma,
    bind_of_ok (request_healthy _), bind_of_ok chain]
  split
  · exact emit_calm input packing
  · rw [bind_of_ok (request_healthy _)]
    exact emit_calm input _

end Compression

namespace Writing

def Packs (codecs : Codecs) (a : WriteArchive) (options : FileOptions) : Prop :=
  ∀ s : Active, s.writer.options = options → s.archive.header = a.header → s.archive.flags = a.flags →
    ∃ packed, packSector codecs s Faults.healthy = .ok packed Faults.healthy

theorem packs_raw {codecs : Codecs} {a : WriteArchive} {options : FileOptions}
    (noCompress : has options.flags Flag.compress = false)
    (noImplode : has options.flags Flag.implode = false) : Packs codecs a options := by
  rintro s rfl - -
  refine ⟨s.writer.data, ?_⟩
  simp only [packSector, noCompress, noImplode, Bool.false_eq_true, if_false]
  rw [bind_of_ok (request_healthy _), pure_run]

theorem packs_chain {codecs : Codecs} {a : WriteArchive} {options : FileOptions}
    (compressed : has options.flags Flag.compress = true)
    (first : Compression.allowed a.header.version.toUInt32 options.compressionFirst (compressionPolicy a) = true)
    (next : Compression.allowed a.header.version.toUInt32 options.compressionNext (compressionPolicy a) = true)
    (firstChain : options.compressionFirst ≠ lzmaMask) (nextChain : options.compressionNext ≠ lzmaMask) :
    Packs codecs a options := by
  rintro s rfl header flags
  have policy : compressionPolicy s.archive = compressionPolicy a := by
    rw [compressionPolicy, compressionPolicy, flags]
  have mask : Compression.allowed s.archive.header.version.toUInt32 (requestedMask s.writer)
      (compressionPolicy s.archive) = true ∧ requestedMask s.writer ≠ lzmaMask := by
    rw [header, policy]
    unfold requestedMask
    split
    · exact ⟨first, firstChain⟩
    · exact ⟨next, nextChain⟩
  obtain ⟨encoded, run⟩ := Compression.encodeSector_calm codecs s.writer.data mask.1 mask.2
  refine ⟨encoded.output, ?_⟩
  simp only [packSector, compressed, if_true]
  rw [bind_of_ok run, pure_run]

section sectors

variable {codecs : Codecs} {s : Active}

theorem recordOffset_calm (calm : s.archive.disk.Calm) : ∃ s', recordOffset s = .ok () s' := by
  unfold recordOffset
  rw [bind_of_ok (get_run s)]
  split
  · rw [bind_of_ok (streamDisk_run (Disk.tell_calm calm _))]
    exact ⟨_, rfl⟩
  · exact ⟨s, rfl⟩

theorem encryptSector_calm (w : Writer) (packed : Bytes) :
    ∃ stored, encryptSector w packed Faults.healthy = .ok stored Faults.healthy := by
  unfold encryptSector
  split
  · exact ⟨_, rfl⟩
  · exact ⟨packed, rfl⟩

theorem nextMask_plain {w : Writer} (plain : has w.options.compressionNext Compression.waveMasks = false) :
    nextMask w = .ok w.options.compressionNext := by
  rw [nextMask]
  simp only
  rw [if_neg (by rw [plain]; simp)]

theorem flushSector_calm (calm : s.archive.disk.Calm) (below : s.writer.sectorIndex < s.writer.blockCount)
    (packs : ∃ packed, packSector codecs s Faults.healthy = .ok packed Faults.healthy)
    (plain : has s.writer.options.compressionNext Compression.waveMasks = false) :
    ∃ s', flushSector codecs s = .ok () s' := by
  obtain ⟨packed, packs⟩ := packs
  obtain ⟨stored, encrypts⟩ := encryptSector_calm s.writer packed
  have packed_ : streamDisk (Disk.onPlan (packSector codecs s)) s = .ok packed s :=
    streamDisk_run (Disk.onPlan_calm calm packs)
  let t : Active := ⟨recordChecksum packed s.writer, s.archive⟩
  have encrypted_ : streamDisk (Disk.onPlan (encryptSector s.writer packed)) t = .ok stored t :=
    streamDisk_run (Disk.onPlan_calm calm encrypts)
  obtain ⟨u, recorded⟩ := @recordOffset_calm t calm
  have calm' : u.archive.disk.Calm := by
    obtain ⟨disk, rfl, -, -, steady⟩ := recordOffset_ok recorded
    exact steady calm
  unfold flushSector
  rw [bind_of_ok (get_run s), bind_of_ok (failIf_false (Nat.not_le.mpr below) _ _), bind_of_ok packed_,
    bind_of_ok (modifyWriter_run _ _), bind_of_ok encrypted_, bind_of_ok recorded,
    bind_of_ok (streamDisk_run (Disk.write_calm calm' _ _)), bind_of_ok (modifyWriter_run _ _),
    nextMask_plain plain]
  exact ⟨_, rfl⟩

end sectors

structure Sized (count size unit : Nat) : Prop where
  positive : 0 < count
  covers : size ≤ count * unit
  tight : 0 < size → (count - 1) * unit < size
  empty : size = 0 → count = 1

theorem sized_blockCountOf {a : WriteArchive} {size : Nat} {flags : UInt32} (sector : 0 < a.sectorSize)
    (small : size < 2 ^ 32) (unit : has flags Flag.single = true → size ≤ a.sectorSize) :
    Sized (blockCountOf a size flags) size a.sectorSize := by
  unfold blockCountOf
  by_cases single : has flags Flag.single = true
  · rw [if_pos single]
    have := unit single
    exact ⟨Nat.one_pos, by simpa using this, fun some => by simpa using some, fun _ => rfl⟩
  · have count : (size + a.sectorSize - 1) / a.sectorSize ≤ size := by
      rw [Nat.div_le_iff_le_mul_add_pred sector]
      have : size ≤ a.sectorSize * size := Nat.le_mul_of_pos_left size sector
      omega
    rw [if_neg single, Nat.mod_eq_of_lt (by omega)]
    simp only
    by_cases none : size = 0
    · have zero : (size + a.sectorSize - 1) / a.sectorSize = 0 := Nat.div_eq_of_lt (by omega)
      rw [if_pos zero]
      exact ⟨Nat.one_pos, by omega, by omega, fun _ => rfl⟩
    · have some : (size + a.sectorSize - 1) / a.sectorSize ≠ 0 := by
        have := Nat.div_pos (show a.sectorSize ≤ size + a.sectorSize - 1 by omega) sector
        omega
      have lower := Nat.div_mul_le_self (size + a.sectorSize - 1) a.sectorSize
      have upper := Nat.lt_mul_div_succ (size + a.sectorSize - 1) sector
      rw [if_neg some]
      generalize (size + a.sectorSize - 1) / a.sectorSize = k at some lower upper
      have split : k * a.sectorSize = (k - 1) * a.sectorSize + a.sectorSize := by
        rw [← Nat.succ_mul, Nat.succ_eq_add_one, Nat.sub_add_cancel (by omega)]
      rw [Nat.mul_add, Nat.mul_one, Nat.mul_comm] at upper
      exact ⟨by omega, by omega, by omega, by omega⟩

structure UnderWay (codecs : Codecs) (low : Nat) (x : Bytes) (s : Active) : Prop where
  calm : s.archive.disk.Calm
  sector : 0 < s.archive.sectorSize
  written : s.writer.written = x.length
  cut : s.writer.sectorIndex * s.archive.sectorSize + s.writer.data.length = x.length
  sized : Sized s.writer.blockCount s.writer.expected s.archive.sectorSize
  plain : has s.writer.options.compressionNext Compression.waveMasks = false
  packs : Packs codecs s.archive s.writer.options
  total : s.writer.packedTotal + s.writer.data.length ≤ x.length
  pos : s.archive.disk.pos = s.writer.payloadOffset + tableSizeOf s.writer + s.writer.packedTotal
  size : s.archive.disk.file.size ≤ max low s.archive.disk.pos

theorem Follows.tableSizeOf_eq {s s' : Active} (follows : Follows s s') :
    tableSizeOf s'.writer = tableSizeOf s.writer := by
  rw [tableSizeOf, tableSizeOf, tableEntries, tableEntries, follows.offsets, follows.checksums,
    follows.blockCount]

section feeding

variable {codecs : Codecs} {low : Nat} {x : Bytes} {s : Active}

theorem UnderWay.push (way : UnderWay codecs low x s) (part : Bytes) :
    UnderWay codecs low (x ++ part) { s with writer := absorb part s.writer } where
  calm := way.calm
  sector := way.sector
  written := by
    rw [List.length_append, ← way.written]
    rfl
  cut := by
    have cut := way.cut
    change s.writer.sectorIndex * s.archive.sectorSize + (s.writer.data ++ part).length = _
    simp only [List.length_append]
    omega
  sized := way.sized
  plain := way.plain
  packs := way.packs
  total := by
    have total := way.total
    change s.writer.packedTotal + (s.writer.data ++ part).length ≤ _
    simp only [List.length_append]
    omega
  pos := way.pos
  size := way.size

theorem UnderWay.index_lt (way : UnderWay codecs low x s) (within : x.length ≤ s.writer.expected)
    (more : s.writer.data ≠ [] ∨ s.writer.expected = 0) : s.writer.sectorIndex < s.writer.blockCount := by
  have cut := way.cut
  have covers := way.sized.covers
  have least := way.sized.positive
  have sector := way.sector
  by_contra past
  have long := Nat.mul_le_mul_right s.archive.sectorSize (Nat.not_lt.mp past)
  rcases more with some | empty
  · have := List.length_pos_iff.mpr some
    omega
  · rw [way.sized.empty empty] at long
    omega

theorem UnderWay.flush (way : UnderWay codecs low x s) (within : x.length ≤ s.writer.expected)
    (more : s.writer.data ≠ [] ∨ s.writer.expected = 0) :
    ∃ s', flushSector codecs s = .ok () s' ∧ Follows s s' ∧ s'.writer.data = [] ∧
      s'.writer.sectorIndex = s.writer.sectorIndex + 1 ∧
      s'.writer.packedTotal ≤ x.length ∧ s'.writer.written = x.length ∧ s'.archive.disk.Calm ∧
      s'.archive.disk.pos = s.writer.payloadOffset + tableSizeOf s.writer + s'.writer.packedTotal ∧
      s'.archive.disk.file.size ≤ max low s'.archive.disk.pos ∧ s'.writer.options = s.writer.options := by
  obtain ⟨s', run⟩ := flushSector_calm way.calm (way.index_lt within more) (way.packs s rfl rfl rfl)
    way.plain
  have follows := (flushSector_follows codecs).ok run
  obtain ⟨packed, stored, next, disk, ⟨_, _, pack⟩, stores, usable, rfl, file, pos, calm⟩ :=
    flushSector_ok run fun _ => way.calm
  have shorter := packSector_length_le pack
  have same : stored.length = packed.length := by
    rw [stores]
    split
    · rw [Crypto.encryptBlock_length]
    · rfl
  have next : next = s.writer.options.compressionNext := by
    rw [nextMask_plain way.plain] at usable
    cases usable
    rfl
  have total := way.total
  have place := way.pos
  have size := way.size
  have grown : disk.file.size ≤ max s.archive.disk.file.size (s.archive.disk.pos + stored.length) := by
    rw [file]
    exact File.write_size_le _ _ _
  refine ⟨_, run, follows, rfl, rfl, ?_, way.written, calm way.calm, ?_, ?_, ?_⟩
  · change s.writer.packedTotal + stored.length ≤ _
    omega
  · change disk.pos = _ + (s.writer.packedTotal + stored.length)
    omega
  · change disk.file.size ≤ max low disk.pos
    omega
  · rw [next]
    rfl

theorem UnderWay.step (way : UnderWay codecs low x s) {part : Bytes}
    (begun : s.writer.data.length < s.archive.sectorSize)
    (fits : part.length ≤ (sectorBuffer codecs).room s)
    (within : (x ++ part).length ≤ s.writer.expected) :
    ∃ s', (sectorBuffer codecs).step part s = .ok () s' ∧ UnderWay codecs low (x ++ part) s' ∧
      s'.writer.data.length < s'.archive.sectorSize ∧ s'.writer.expected = s.writer.expected := by
  have room : part.length ≤ s.archive.sectorSize - s.writer.data.length := fits
  have left : (sectorBuffer codecs).room ((sectorBuffer codecs).push part s) =
      s.archive.sectorSize - (s.writer.data ++ part).length := rfl
  have pushed := way.push part
  rw [Buffer.step_run, left, List.length_append]
  split
  next full =>
    have length : (s.writer.data ++ part).length = s.archive.sectorSize := by
      rw [List.length_append]
      omega
    have some : s.writer.data ++ part ≠ [] := by
      rw [← List.length_pos_iff, length]
      exact way.sector
    obtain ⟨s', run, follows, data, index, total, written, calm, pos, size, options⟩ := pushed.flush within
      (.inl some)
    obtain ⟨disk, archive⟩ := follows.archive
    have sector : s'.archive.sectorSize = s.archive.sectorSize := by rw [archive]
    refine ⟨s', run, ?_, ?_, follows.expected⟩
    · constructor
      case calm => exact calm
      case sector =>
        rw [sector]
        exact way.sector
      case written => exact written
      case cut =>
        have cut := way.cut
        change _ = s.writer.sectorIndex + 1 at index
        rw [index, sector, data, Nat.add_mul, Nat.one_mul, List.length_nil, List.length_append]
        omega
      case sized =>
        rw [follows.blockCount, follows.expected, sector]
        exact way.sized
      case plain =>
        rw [options]
        exact way.plain
      case packs =>
        rw [options, archive]
        exact way.packs
      case total =>
        rw [data]
        exact total
      case pos => rw [pos, follows.payloadOffset, follows.tableSizeOf_eq]
      case size => exact size
    · rw [sector, data, List.length_nil]
      omega
  next more =>
    refine ⟨_, rfl, pushed, ?_, rfl⟩
    change (s.writer.data ++ part).length < s.archive.sectorSize
    rw [List.length_append]
    omega

theorem streamWrite_calm (way : UnderWay codecs low [] s) {data : Bytes}
    (whole : data.length = s.writer.expected) :
    ∃ s', streamWrite codecs data s = .ok () s' ∧ UnderWay codecs low data s' ∧
      s'.writer.data.length < s'.archive.sectorSize := by
  have none : s.writer.written = 0 := way.written
  have empty : s.writer.data.length = 0 := by
    have cut := way.cut
    rw [List.length_nil] at cut
    omega
  have sector := way.sector
  unfold streamWrite
  rw [bind_of_ok (get_run s), bind_of_ok (failIf_false (by omega) _ _)]
  obtain ⟨s', run, way', begun, -⟩ := @Buffer.feed_runs _ _ (sectorBuffer codecs)
    (fun x t => UnderWay codecs low x t ∧ t.writer.data.length < t.archive.sectorSize ∧
      t.writer.expected = s.writer.expected) s.writer.expected
    (fun x part t ⟨way, begun, same⟩ fits within => by
      obtain ⟨t', run, way', begun', same'⟩ := way.step begun fits (by rwa [same])
      exact ⟨t', run, way', begun', same'.trans same⟩)
    (fun x t ⟨_, begun, _⟩ => Nat.sub_pos_of_lt begun) (data.length + 1) [] data s
    ⟨way, by omega, rfl⟩ (Nat.le_succ _) (by rw [List.nil_append, whole])
  exact ⟨s', run, way', begun⟩

end feeding

section finishing

variable {codecs : Codecs} {low : Nat} {x : Bytes} {s : Active}

structure AllCut (low : Nat) (x : Bytes) (s : Active) : Prop where
  calm : s.archive.disk.Calm
  written : s.writer.written = s.writer.expected
  index : s.writer.sectorIndex = s.writer.blockCount
  total : s.writer.packedTotal ≤ x.length
  pos : s.archive.disk.pos = s.writer.payloadOffset + tableSizeOf s.writer + s.writer.packedTotal
  size : s.archive.disk.file.size ≤ max low s.archive.disk.pos

theorem UnderWay.finish (way : UnderWay codecs low x s) (whole : x.length = s.writer.expected)
    (begun : s.writer.data.length < s.archive.sectorSize) :
    ∃ s', (if s.writer.data ≠ [] ∨ s.writer.expected = 0 then flushSector codecs else pure ()) s =
      .ok () s' ∧ AllCut low x s' ∧ Follows s s' := by
  have cut := way.cut
  have sector := way.sector
  have least := way.sized.positive
  have covers := way.sized.covers
  have split := Nat.add_mul (s.writer.blockCount - 1) 1 s.archive.sectorSize
  rw [Nat.sub_add_cancel least] at split
  split
  next last =>
    obtain ⟨s', run, follows, data, index, total, written, calm, pos, size, options⟩ :=
      way.flush whole.le last
    have below := way.index_lt whole.le last
    refine ⟨s', run, ?_, follows⟩
    constructor
    case calm => exact calm
    case written => rw [written, follows.expected, whole]
    case index =>
      rw [index, follows.blockCount]
      by_contra other
      have long : (s.writer.sectorIndex + 1) * s.archive.sectorSize ≤
          (s.writer.blockCount - 1) * s.archive.sectorSize := Nat.mul_le_mul_right _ (by omega)
      rw [Nat.add_mul] at long
      have tight := way.sized.tight
      have empty := way.sized.empty
      omega
    case total => exact total
    case pos => rw [pos, follows.payloadOffset, follows.tableSizeOf_eq]
    case size => exact size
  next full =>
    obtain ⟨none, some⟩ := not_or.mp full
    have none := congrArg List.length (not_not.mp none)
    rw [List.length_nil] at none
    refine ⟨s, rfl, ?_, refl_of Follows s⟩
    constructor
    case calm => exact way.calm
    case written => rw [way.written, whole]
    case index =>
      have tight := way.sized.tight (Nat.pos_of_ne_zero some)
      rcases Nat.lt_trichotomy s.writer.sectorIndex s.writer.blockCount with less | same | more
      · have long : s.writer.sectorIndex * s.archive.sectorSize ≤
            (s.writer.blockCount - 1) * s.archive.sectorSize := Nat.mul_le_mul_right _ (by omega)
        omega
      · exact same
      · have long : (s.writer.blockCount + 1) * s.archive.sectorSize ≤
            s.writer.sectorIndex * s.archive.sectorSize := Nat.mul_le_mul_right _ more
        rw [Nat.add_mul] at long
        omega
    case total =>
      have total := way.total
      omega
    case pos => exact way.pos
    case size => exact way.size

def storedLimit (w : Writer) : Nat :=
  w.expected + (if w.offsets.isSome then tableEntries w * 4 + w.blockCount * 4 else 0)

theorem checksumTable_length (w : Writer) (sums : Nat → UInt32) :
    (checksumTable w sums).length = w.blockCount * 4 := Wire.encodeTable_length _ _ _

theorem writeChecksums_calm (calm : s.archive.disk.Calm) (sound : Sound s.archive) (sums : Nat → UInt32)
    (fits : (s.writer.offset s.writer.blockCount).toNat + s.writer.blockCount * 4 ≤ uint32Max) :
    ∃ s' size, writeChecksums codecs sums s = .ok () s' ∧ s'.archive.disk.Calm ∧
      size ≤ s.writer.blockCount * 4 ∧ s'.writer.packedTotal = s.writer.packedTotal + size ∧
      s'.archive.disk.pos = s.archive.disk.pos + size ∧
      s'.archive.disk.file.size ≤ max s.archive.disk.file.size (s.archive.disk.pos + size) := by
  have allowed : Compression.allowed s.archive.header.version.toUInt32 (Stage.mask .zlib) .standard = true := by
    rcases sound.version with one | two
    · rw [one]
      decide
    · rw [two]
      decide
  obtain ⟨encoded, pack⟩ := Compression.encodeSector_calm codecs (checksumTable s.writer sums) allowed
    (by decide)
  have shorter := Compression.encodeSector_length_le pack
  rw [checksumTable_length] at shorter
  have alloc : streamDisk (Disk.alloc .malloc) s = .ok () s := streamDisk_alloc calm _
  have packed_ : streamDisk (Disk.onPlan (Compression.encodeSector codecs (checksumTable s.writer sums)
      (Stage.mask .zlib) s.archive.header.version.toUInt32 .standard)) s = .ok encoded s :=
    streamDisk_run (Disk.onPlan_calm calm pack)
  have room : ¬ encoded.output.length > uint32Max - (s.writer.offset s.writer.blockCount).toNat := by omega
  unfold writeChecksums
  rw [bind_of_ok (get_run s), bind_of_ok alloc, bind_of_ok packed_]
  simp only
  rw [bind_of_ok (failIf_false room _ _), bind_of_ok (streamDisk_run (Disk.write_calm calm _ _)),
    modifyWriter_run]
  exact ⟨_, encoded.output.length, rfl, calm, shorter, rfl, rfl, File.write_size_le _ _ _⟩

theorem encryptTable_calm (w : Writer) (table : Bytes) :
    ∃ stored, encryptTable w table Faults.healthy = .ok stored Faults.healthy ∧
      stored.length = table.length := by
  unfold encryptTable
  split
  · exact ⟨_, rfl, Crypto.encryptBlock_length _ _⟩
  · exact ⟨table, rfl, rfl⟩

structure Ended (low : Nat) (s s' : Active) (total : Nat) : Prop where
  calm : s'.archive.disk.Calm
  limited : total ≤ storedLimit s.writer
  size : s'.archive.disk.file.size ≤ max low (s.writer.payloadOffset + total)

theorem writeOffsets_calm (sound : Sound s.archive) (cut : AllCut low x s) (whole : x.length = s.writer.expected)
    (some_ : s.writer.offsets.isSome = true) (fits : storedLimit s.writer ≤ uint32Max) :
    ∃ s', writeOffsets codecs s = .ok (tableEntries s.writer * 4) s' ∧
      Ended low s s' (s'.writer.packedTotal + tableEntries s.writer * 4) := by
  have total := cut.total
  have pos := cut.pos
  have size := cut.size
  have table : tableSizeOf s.writer = tableEntries s.writer * 4 := if_pos some_
  rw [storedLimit, if_pos some_] at fits
  have room : ¬ s.writer.packedTotal > uint32Max - tableEntries s.writer * 4 := by omega
  let t : Active := { s with writer := offsetsClosed s.writer }
  have last : (t.writer.offset t.writer.blockCount).toNat = s.writer.packedTotal + tableEntries s.writer * 4 := by
    change ((setOffset s.writer.blockCount _ s.writer).offset s.writer.blockCount).toNat = _
    rw [offset_setOffset some_]
    simp only [UInt32.toNat_add, UInt32.toNat_ofNat', uint32Max] at fits ⊢
    omega
  have summed : ∃ u sums, s.writer.checksums.elim (pure ()) (writeChecksums codecs) t = .ok () u ∧ u.archive.disk.Calm ∧
      sums ≤ s.writer.blockCount * 4 ∧ u.writer.packedTotal = s.writer.packedTotal + sums ∧
      u.archive.disk.file.size ≤ max s.archive.disk.file.size (s.archive.disk.pos + sums) := by
    cases s.writer.checksums with
    | none => exact ⟨t, 0, rfl, cut.calm, Nat.zero_le _, rfl, Nat.le_max_left _ _⟩
    | some sums =>
      obtain ⟨u, k, run, calm, short, packed, -, grown⟩ := @writeChecksums_calm codecs t cut.calm sound sums
        (by rw [last]; change _ + s.writer.blockCount * 4 ≤ _; omega)
      exact ⟨u, k, run, calm, short, packed, grown⟩
  obtain ⟨u, sums, summed, calm, short, packed, grown⟩ := summed
  obtain ⟨stored, encrypt, length⟩ := encryptTable_calm u.writer
    (Wire.le32.encodeTable u.writer.offset (tableEntries u.writer))
  have follows : Follows s u := by
    refine trans_of Follows ((setOffset_follows (fun w => w.blockCount) fun w =>
      UInt32.ofNat s.writer.packedTotal + UInt32.ofNat (tableEntries s.writer * 4)).ok
        (modifyWriter_run _ s)) ?_
    cases known : s.writer.checksums with
    | none =>
      rw [known] at summed
      cases summed
      exact refl_of Follows _
    | some sums =>
      rw [known] at summed
      exact (writeChecksums_follows codecs sums).ok summed
  have entries : tableEntries u.writer = tableEntries s.writer := by
    rw [tableEntries, tableEntries, follows.blockCount, follows.checksums]
  have tableLength : stored.length = tableEntries s.writer * 4 := by
    rw [length, Wire.encodeTable_length, entries]
    rfl
  have alloc : streamDisk (Disk.alloc .malloc) u = .ok () u := streamDisk_alloc calm _
  have encrypted_ : streamDisk (Disk.onPlan (encryptTable u.writer
      (Wire.le32.encodeTable u.writer.offset (tableEntries u.writer)))) u = .ok stored u :=
    streamDisk_run (Disk.onPlan_calm calm encrypt)
  let v : Active :=
    { u with
      archive :=
        { u.archive with disk := Disk.put stored { u.archive.disk with pos := u.writer.payloadOffset } } }
  have placed : streamDisk (Disk.writeAt .write u.writer.payloadOffset stored) u = .ok () v :=
    streamDisk_run (Disk.writeAt_calm calm Error.write u.writer.payloadOffset stored)
  refine ⟨v, ?_, ?_⟩
  · unfold writeOffsets
    rw [bind_of_ok (get_run s)]
    simp only
    rw [bind_of_ok (failIf_false room _ _), bind_of_ok (modifyWriter_run _ s)]
    cases known : s.writer.checksums
    all_goals
      rw [known] at summed
      refine (bind_of_ok summed _).trans ?_
      rw [bind_of_ok alloc, bind_of_ok (get_run u), bind_of_ok encrypted_, bind_of_ok placed, pure_run]
  · constructor
    case calm => exact calm
    case limited =>
      rw [storedLimit, if_pos some_]
      change u.writer.packedTotal + _ ≤ _
      omega
    case size =>
      change (u.archive.disk.file.write u.writer.payloadOffset stored).size ≤
        max low (s.writer.payloadOffset + (u.writer.packedTotal + tableEntries s.writer * 4))
      have written := File.write_size_le u.archive.disk.file u.writer.payloadOffset stored
      have place := follows.payloadOffset
      omega

theorem closePayload_calm (sound : Sound s.archive) (cut : AllCut low x s)
    (whole : x.length = s.writer.expected) (noPrefix : s.writer.prefixSize = 0)
    (fits : storedLimit s.writer ≤ uint32Max) :
    ∃ s' total, closePayload codecs s = .ok total s' ∧ Ended low s s' total := by
  have done : ¬ (s.writer.written ≠ s.writer.expected ∨ s.writer.sectorIndex ≠ s.writer.blockCount) := by
    rw [cut.written, cut.index]
    simp
  have tables : ∃ t size, (if s.writer.offsets.isSome = true then writeOffsets codecs else pure 0) s =
      .ok size t ∧ Ended low s t (t.writer.packedTotal + size) ∧ Follows s t := by
    split
    next some_ =>
      obtain ⟨t, run, ended⟩ := @writeOffsets_calm codecs _ _ _ sound cut whole some_ fits
      exact ⟨t, _, run, ended, (writeOffsets_follows codecs).ok run⟩
    next none_ =>
      have size := cut.size
      have pos := cut.pos
      have total := cut.total
      rw [tableSizeOf, if_neg none_] at pos
      refine ⟨s, 0, rfl, ⟨cut.calm, ?_, ?_⟩, refl_of Follows s⟩
      · rw [storedLimit]
        omega
      · omega
  obtain ⟨t, size, run, ended, follows⟩ := tables
  have prefixed : ¬ (t.writer.payloadOffset < t.writer.prefixSize ∨
      (t.writer.prefixSize ≠ 0 ∧ t.writer.packedTotal + size > uint32Max - t.writer.prefixSize)) := by
    rw [follows.prefixSize, noPrefix]
    simp
  unfold closePayload
  rw [bind_of_ok (get_run s)]
  simp only
  rw [bind_of_ok (failIf_false done _ _), bind_of_ok run, bind_of_ok (get_run t),
    bind_of_ok (streamDisk_run (Disk.seek_calm ended.calm _ _)), bind_of_ok (failIf_false prefixed _ _)]
  exact ⟨_, _, rfl, ended.calm, ended.limited, ended.size⟩

theorem streamEnd_calm (sound : Sound s.archive) (room : s.archive.nextBlock < s.archive.capacity)
    (way : UnderWay codecs low x s) (whole : x.length = s.writer.expected)
    (begun : s.writer.data.length < s.archive.sectorSize) (noPrefix : s.writer.prefixSize = 0)
    (place : s.writer.payloadOffset ≤ uint32Max) (fits : storedLimit s.writer ≤ uint32Max) :
    ∃ s' total, streamEnd codecs s = .ok () s' ∧ Ended low s s' total ∧
      s'.archive.disk.pos = s.writer.payloadOffset + total := by
  obtain ⟨t, ended, cut, follows⟩ := way.finish whole begun
  have limit : storedLimit t.writer = storedLimit s.writer := by
    rw [storedLimit, storedLimit, tableEntries, tableEntries, follows.expected, follows.offsets,
      follows.checksums, follows.blockCount]
  obtain ⟨u, total, closed, stops⟩ := @closePayload_calm codecs _ _ _ (sound.follows follows) cut
    (by rw [follows.expected, whole]) (follows.prefixSize.trans noPrefix) (by rw [limit]; exact fits)
  have follows' := trans_of Follows follows ((closePayload_follows codecs).ok closed)
  obtain ⟨disk, archive⟩ := follows'.archive
  have limited := stops.limited
  have size := stops.size
  have stop := (closePayload_complete closed).2.2
  rw [follows.payloadOffset] at stop
  rw [limit] at limited
  rw [follows.payloadOffset] at size
  have small : ¬ oversized u.writer total := by
    have expected : s.writer.expected ≤ storedLimit s.writer := Nat.le_add_right _ _
    rw [oversized, follows'.payloadOffset, follows'.expected]
    omega
  obtain ⟨pos, -, -, -, published⟩ := @publish_run u (sound.follows follows') (by rw [archive]; exact room)
    (u.writer.payloadOffset - u.writer.prefixSize) total
  have run : streamEnd codecs s = .ok () { u with
      archive := Writing.published u.writer (u.writer.payloadOffset - u.writer.prefixSize) total pos
        u.archive } := by
    unfold streamEnd
    rw [bind_of_ok (get_run s), bind_of_ok ended]
    unfold streamFinish
    rw [bind_of_ok closed, bind_of_ok (get_run u), if_neg small, published]
  exact ⟨_, total, run, ⟨stops.calm, limited, size⟩, stop⟩

end finishing

def storedBound (a : WriteArchive) (size : Nat) (flags : UInt32) : Nat :=
  size + (if sectorTable flags then
    (blockCountOf a size flags + 1 + (if has flags Flag.sectorCrc then 1 else 0)) * 4 +
      blockCountOf a size flags * 4 else 0)

structure Addable (codecs : Codecs) (a : WriteArchive) (name data : Bytes) (options : FileOptions) : Prop
    extends Acceptable a name options where
  sound : Sound a
  calm : a.disk.Calm
  reserves : ∃ rows, reserveAttributes name a = .ok () { a with attributes := rows }
  packs : Packs codecs a (effectiveOptions a data.length options)
  plain : has (effectiveOptions a data.length options).compressionNext Compression.waveMasks = false
  unit : has options.flags Flag.single = true → data.length ≤ a.sectorSize
  place : a.disk.pos ≤ uint32Max
  fits : storedBound a data.length (effectiveOptions a data.length options).flags ≤ uint32Max

section members

variable {codecs : Codecs} {a : WriteArchive} {name data : Bytes} {options : FileOptions}

theorem reserveOffsets_calm {w : Writer} (calm : a.disk.Calm) (untabled : w.offsets = none)
    (unchecked : w.checksums = none) (place : a.disk.pos = w.payloadOffset)
    (few : sectorTable w.options.flags = true →
      w.blockCount + 1 + (if has w.options.flags Flag.sectorCrc then 1 else 0) ≤ uint32Max / 4) :
    ∃ w' disk, reserveOffsets w a = .ok w' { a with disk } ∧ disk.Calm ∧ disk.file = a.disk.file ∧
      disk.pos = w.payloadOffset + tableSizeOf w' ∧ w'.offsets.isSome = sectorTable w.options.flags ∧
      w'.checksums.isSome = (sectorTable w.options.flags && has w.options.flags Flag.sectorCrc) ∧
      ∃ offsets checksums, w' = { w with offsets, checksums } := by
  unfold reserveOffsets
  by_cases tabled : sectorTable w.options.flags = true
  · have entries := few tabled
    have calm' : a.disk.Calm := calm
    rw [if_pos tabled, tabled, bind_of_ok (failIf_false (Nat.not_lt.mpr entries) _ _), bind_of_ok (onDisk_alloc calm _),
      bind_of_ok (onDisk_run (Disk.seek_calm calm' _ _)), pure_run]
    refine ⟨_, _, rfl, calm, rfl, ?_, rfl, ?_, _, _, rfl⟩
    · change w.payloadOffset + _ = w.payloadOffset + (w.blockCount + 1 + (if (if has w.options.flags
        Flag.sectorCrc = true then some fun _ => 0 else none : Option (Nat → UInt32)).isSome = true then 1
          else 0)) * 4
      cases has w.options.flags Flag.sectorCrc <;> rfl
    · cases has w.options.flags Flag.sectorCrc <;> rfl
  · rw [if_neg tabled, pure_run]
    have none : tableSizeOf w = 0 := by
      rw [tableSizeOf, untabled]
      rfl
    refine ⟨w, a.disk, rfl, calm, rfl, ?_, ?_, ?_, w.offsets, w.checksums, rfl⟩
    · rw [none, place, Nat.add_zero]
    · rw [untabled, Bool.eq_false_iff.mpr tabled]
      rfl
    · rw [unchecked, Bool.eq_false_iff.mpr tabled]
      rfl

theorem Addable.begins (ok : Addable codecs a name data options) :
    ∃ w disk rows, prepareWriter name data.length options .none a =
        .ok w { a with attributes := rows, disk } ∧ w.expected = data.length ∧ w.prefixSize = 0 ∧
      w.payloadOffset = a.disk.pos ∧
      storedLimit w = storedBound a data.length (effectiveOptions a data.length options).flags ∧
      ∀ current, UnderWay codecs a.disk.file.size []
        ⟨w, { a with attributes := rows, disk, current }⟩ := by
  obtain ⟨rows, reserves⟩ := ok.reserves
  have fits := ok.fits
  have small : data.length < 2 ^ 32 := by
    unfold storedBound at fits
    simp only [uint32Max] at fits
    omega
  have sized := @sized_blockCountOf a data.length (effectiveOptions a data.length options).flags
    ok.sound.sectorSize small (by rw [effectiveOptions_has _ _ _ (by decide)]; exact ok.unit)
  have few : sectorTable (effectiveOptions a data.length options).flags = true →
      blockCountOf a data.length (effectiveOptions a data.length options).flags + 1 +
        (if has (effectiveOptions a data.length options).flags Flag.sectorCrc then 1 else 0) ≤
          uint32Max / 4 := by
    intro tabled
    unfold storedBound at fits
    rw [if_pos tabled] at fits
    simp only [uint32Max] at fits ⊢
    omega
  obtain ⟨w, disk, run, calm, file, pos, offsets, checksums, table, sums, rfl⟩ := @reserveOffsets_calm
    { a with attributes := rows }
    (newWriter a name data.length (effectiveOptions a data.length options) .none a.disk.pos) ok.calm rfl rfl
    rfl few
  refine ⟨{ newWriter a name data.length (effectiveOptions a data.length options) .none a.disk.pos with
    offsets := table, checksums := sums }, disk, rows, ?_, rfl, rfl, rfl, ?_, fun current => ?_⟩
  · rw [prepareWriter_calm ok.calm ok.toAcceptable reserves]
    exact run
  · change table.isSome = sectorTable (effectiveOptions a data.length options).flags at offsets
    change sums.isSome = _ at checksums
    rw [storedLimit, storedBound]
    change data.length + (if table.isSome = true then (blockCountOf a data.length
      (effectiveOptions a data.length options).flags + 1 + (if sums.isSome = true then 1 else 0)) * 4 +
        blockCountOf a data.length (effectiveOptions a data.length options).flags * 4 else 0) = _
    rw [offsets, checksums]
    change _ + (if sectorTable (effectiveOptions a data.length options).flags = true then
      (_ + (if (sectorTable (effectiveOptions a data.length options).flags &&
        has (effectiveOptions a data.length options).flags Flag.sectorCrc) = true then 1 else 0)) * 4 + _
        else 0) = _
    cases sectorTable (effectiveOptions a data.length options).flags <;> rfl
  · constructor
    case calm => exact calm
    case sector => exact ok.sound.sectorSize
    case written | total => rfl
    case cut => exact Nat.zero_mul _
    case sized => exact sized
    case plain => exact ok.plain
    case packs => exact ok.packs
    case pos => exact pos
    case size =>
      change disk.file.size ≤ _
      rw [file]
      exact Nat.le_max_left _ _

theorem fileAdd_calm (ok : Addable codecs a name data options) :
    ∃ a' total, fileAdd codecs name data options a = .ok () a' ∧ a'.disk.Calm ∧
      total ≤ storedBound a data.length (effectiveOptions a data.length options).flags ∧
      a'.disk.file.size ≤ max a.disk.file.size (a.disk.pos + total) ∧ a'.disk.pos = a.disk.pos + total := by
  obtain ⟨w, disk, rows, prepared, expected, noPrefix, place, limit, begins⟩ := ok.begins
  obtain ⟨s, wrote, way, begun⟩ := streamWrite_calm (begins (some w)) expected.symm
  have follows := (streamWrite_follows codecs data).ok wrote
  obtain ⟨disk', archive⟩ := follows.archive
  have limit' : storedLimit s.writer = storedLimit w := by
    rw [storedLimit, storedLimit, tableEntries, tableEntries, follows.expected, follows.offsets,
      follows.checksums, follows.blockCount]
  have sound : Sound s.archive := by
    rw [archive]
    exact ok.sound.congr _ _ _
  have way' : UnderWay codecs a.disk.file.size data
      ⟨s.writer, { s.archive with current := some s.writer }⟩ :=
    ⟨way.calm, way.sector, way.written, way.cut, way.sized, way.plain, way.packs, way.total, way.pos, way.size⟩
  have room : s.archive.nextBlock < s.archive.capacity := by
    rw [archive]
    exact ok.room
  obtain ⟨t, total, ended, stops, stop⟩ := @streamEnd_calm codecs _ data
    ⟨s.writer, { s.archive with current := some s.writer }⟩ (sound.congr _ _ _) room way'
    (by rw [follows.expected, expected]) begun (follows.prefixSize.trans noPrefix)
    (by rw [follows.payloadOffset, place]; exact ok.place) (by rw [limit', limit]; exact ok.fits)
  have begins : fileBegin name data.length options a =
      .ok () { a with attributes := rows, disk, current := some w } := by
    rw [fileBegin, fileBeginWith, bind_of_ok prepared]
    rfl
  have writes : orAbort (fileWrite codecs data) { a with attributes := rows, disk, current := some w } =
      .ok () { s.archive with current := some s.writer } := by
    refine orAbort_of_ok ?_
    simp only [fileWrite, withWriter]
    rw [wrote]
  refine ⟨{ t.archive with current := none }, total, ?_, stops.calm, ?_, ?_, ?_⟩
  · unfold fileAdd
    rw [bind_of_ok begins, bind_of_ok writes, fileFinish_run rfl, ended]
  · rw [← limit, ← limit']
    exact stops.limited
  · rw [← place, ← follows.payloadOffset]
    exact stops.size
  · rw [← place, ← follows.payloadOffset]
    exact stop

end members

end Writing

end LibMpq
