import LibMpq.WriterImage

set_option autoImplicit false

namespace LibMpq

open Effect Bits Chunked

namespace Writing

structure Ready (a a' : WriteArchive) : Prop where
  archive : ∃ disk rows, a' = { a with disk, attributes := rows }
  rows : ∀ old, a.attributes = some old → a'.attributes = some old
  file : a'.disk.file = a.disk.file
  calm : a.disk.Calm → a'.disk.Calm

theorem Ready.refl (a : WriteArchive) : Ready a a :=
  ⟨⟨a.disk, a.attributes, rfl⟩, fun _ => id, rfl, id⟩

theorem Ready.trans {a b c : WriteArchive} (first : Ready a b) (second : Ready b c) : Ready a c := by
  obtain ⟨disk, rows, rfl⟩ := first.archive
  obtain ⟨disk', rows', moved⟩ := second.archive
  exact ⟨⟨disk', rows', moved⟩, fun old known => second.rows old (first.rows old known),
    second.file.trans first.file, fun calm => second.calm (first.calm calm)⟩

theorem Ready.onDisk {a b a' : WriteArchive} (ready : Ready a b) {disk : Disk}
    (moved : a' = { b with disk }) (file : disk.file = b.disk.file) (steady : b.disk.Calm → disk.Calm) :
    Ready a a' := by
  obtain ⟨disk', rows, rfl⟩ := ready.archive
  subst moved
  exact ⟨⟨disk, rows, rfl⟩, ready.rows, file.trans ready.file, fun calm => steady (ready.calm calm)⟩

theorem Ready.alloc {a b a' : WriteArchive} (ready : Ready a b) {e : Error}
    (run : Writing.onDisk (Disk.alloc e) b = .ok () a') : Ready a a' ∧ a'.disk.pos = b.disk.pos := by
  obtain ⟨disk, grant, moved⟩ := onDisk_ok.mp run
  have steady := (Disk.steady_alloc e).ok grant
  have granted := Disk.alloc_ok grant
  refine ⟨ready.onDisk moved (by rw [granted]) steady, ?_⟩
  rw [moved, granted]

theorem reserveAttributes_ready {name : Bytes} {a a' : WriteArchive}
    (run : reserveAttributes name a = .ok () a') :
    Ready a a' ∧ a'.disk.pos = a.disk.pos ∧
      (a.attributesFlags ≠ 0 → a'.attributes.isSome = true) := by
  have same := Ready.refl a
  unfold reserveAttributes at run
  rw [bind_of_ok (get_run a)] at run
  split at run
  next =>
    obtain ⟨-, run⟩ := failIf_bind_ok.mp run
    obtain ⟨-, run⟩ := failIf_bind_ok.mp run
    cases known : a.attributes with
    | some rows =>
      rw [known] at run
      cases run
      exact ⟨same, rfl, fun _ => by rw [known]; rfl⟩
    | none =>
      rw [known] at run
      obtain ⟨_, b, grant, run⟩ := bind_ok.mp run
      obtain ⟨ready, pos⟩ := same.alloc grant
      obtain ⟨disk, rows, rfl⟩ := ready.archive
      cases run
      exact ⟨⟨⟨disk, _, rfl⟩, by simp [known], ready.file, ready.calm⟩, pos, fun _ => rfl⟩
  next unused =>
    cases run
    exact ⟨same, rfl, fun some => absurd some unused⟩

structure Begun (a : WriteArchive) (name : Bytes) (size : Nat) (options : FileOptions)
    (w : Writer) (a' : WriteArchive) : Prop where
  ready : Ready a a'
  reserved : a.attributesFlags ≠ 0 → a'.attributes.isSome = true
  room : a.nextBlock < a.capacity
  sector : a.sectorSize ≠ 0
  pos : a'.disk.pos = a.disk.pos + tableSizeOf w
  writer : ∃ offsets checksums, w =
    { newWriter a name size (effectiveOptions a size options) .none a.disk.pos with
      offsets, checksums }
  offsets : w.offsets.isSome = sectorTable w.options.flags
  checksums : w.checksums.isSome =
    (sectorTable w.options.flags && has w.options.flags Flag.sectorCrc)

theorem prepareWriter_begun {name : Bytes} {size : Nat} {options : FileOptions} {a a' : WriteArchive}
    {w : Writer} (run : prepareWriter name size options .none a = .ok w a') :
    Begun a name size options w a' := by
  unfold prepareWriter at run
  rw [bind_of_ok (get_run a)] at run
  obtain ⟨-, run⟩ := failIf_bind_ok.mp run
  obtain ⟨-, run⟩ := failIf_bind_ok.mp run
  obtain ⟨-, run⟩ := failIf_bind_ok.mp run
  obtain ⟨_, b, reserved, run⟩ := bind_ok.mp run
  obtain ⟨prepared, pos, rows⟩ := reserveAttributes_ready reserved
  obtain ⟨_, c, grant, run⟩ := bind_ok.mp run
  obtain ⟨ready, moved⟩ := (Ready.refl b).alloc grant
  have pos := moved.trans pos
  obtain ⟨room, run⟩ := failIf_bind_ok.mp run
  obtain ⟨_, d, checked, run⟩ := bind_ok.mp run
  obtain ⟨-, checked⟩ := failIf_bind_ok.mp checked
  obtain ⟨-, checked⟩ := failIf_bind_ok.mp checked
  obtain ⟨-, unmoved⟩ := failIf_ok.mp checked
  rw [unmoved] at run
  obtain ⟨-, run⟩ := failIf_bind_ok.mp run
  obtain ⟨_, e, grant, run⟩ := bind_ok.mp run
  obtain ⟨ready, moved⟩ := ready.alloc grant
  have pos := moved.trans pos
  obtain ⟨sector, run⟩ := failIf_bind_ok.mp run
  obtain ⟨position, f, told, run⟩ := bind_ok.mp run
  obtain ⟨disk, tell, moved⟩ := onDisk_ok.mp told
  have steady := (Disk.steady_tell _).ok tell
  obtain ⟨here, there⟩ := Disk.tell_ok tell
  have ready := ready.onDisk moved (by rw [there]) steady
  have pos : f.disk.pos = a.disk.pos := by rw [moved, there, ← pos]
  have here : position = a.disk.pos := by rw [here, ← pos, moved, there]
  rw [if_pos (show PatchPrefix.none.bytes = [] from rfl), bind_of_ok (pure_run _ _), here] at run
  have reserved' : ∀ d, Ready b d → a.attributesFlags ≠ 0 → d.attributes.isSome = true := by
    intro d ready used
    obtain ⟨old, known⟩ := Option.isSome_iff_exists.mp (rows used)
    rw [ready.rows old known]
    rfl
  unfold reserveOffsets at run
  split at run
  next tabled =>
    obtain ⟨-, run⟩ := failIf_bind_ok.mp run
    obtain ⟨_, g, grant, run⟩ := bind_ok.mp run
    obtain ⟨ready, moved⟩ := ready.alloc grant
    obtain ⟨_, h, sought, run⟩ := bind_ok.mp run
    obtain ⟨disk, seek, moved⟩ := onDisk_ok.mp sought
    have steady := (Disk.steady_seek _ _).ok seek
    have there := Disk.seek_ok seek
    have ready := ready.onDisk moved (by rw [there]) steady
    obtain ⟨rfl, rfl⟩ := pure_ok.mp run
    refine ⟨prepared.trans ready, reserved' _ ready, Nat.not_le.mp room, sector, ?_, ⟨_, _, rfl⟩, ?_, ?_⟩
    · rw [moved, there]
      have same : ∀ crc : Bool, (if (if crc = true then some fun _ => 0 else none :
          Option (Nat → UInt32)).isSome = true then 1 else 0) = if crc = true then 1 else 0 := by
        rintro (_ | _) <;> rfl
      simp only [tableSizeOf, tableEntries, Option.isSome_some, if_true, same]
      rfl
    · exact tabled.symm
    · rw [show sectorTable _ = true from tabled, Bool.true_and]
      exact Bool.eq_iff_iff.mpr (by simp)
  next plain =>
    obtain ⟨rfl, rfl⟩ := pure_ok.mp run
    refine ⟨prepared.trans ready, reserved' _ ready, Nat.not_le.mp room, sector, pos, ⟨none, none, rfl⟩, ?_, ?_⟩
    · exact (Bool.eq_false_iff.mpr plain).symm
    · rw [show sectorTable _ = false from Bool.eq_false_iff.mpr plain]
      rfl

theorem effectiveOptions_flags (a : WriteArchive) (size : Nat) (options : FileOptions) :
    (effectiveOptions a size options).flags = options.flags ∨
      (effectiveOptions a size options).flags = options.flags &&& ~~~Flag.sectorCrc := by
  unfold effectiveOptions
  simp only
  split
  · exact .inr rfl
  · exact .inl rfl

theorem effectiveOptions_has (a : WriteArchive) (size : Nat) (options : FileOptions) {bits : UInt32}
    (other : bits &&& Flag.sectorCrc = 0) :
    has (effectiveOptions a size options).flags bits = has options.flags bits := by
  rcases effectiveOptions_flags a size options with same | cleared
  · rw [same]
  · rw [cleared, has_clear other]

theorem effectiveOptions_known {a : WriteArchive} {size : Nat} {options : FileOptions}
    (known : options.flags &&& ~~~storageFlags = 0) :
    (effectiveOptions a size options).flags &&& ~~~storageFlags = 0 := by
  rcases effectiveOptions_flags a size options with same | cleared
  · rw [same, known]
  · rw [cleared, clear_clear, known, UInt32.zero_and]

theorem effectiveOptions_crc {a : WriteArchive} {size : Nat} {options : FileOptions}
    (crc : has (effectiveOptions a size options).flags Flag.sectorCrc = true) :
    sectorTable (effectiveOptions a size options).flags = true ∧ size ≠ 0 := by
  have kept : ¬ (size = 0 ∨ has options.flags Flag.single = true ∨
      (has options.flags Flag.compress = false ∧ has options.flags Flag.implode = false)) := by
    intro cleared
    unfold effectiveOptions at crc
    simp only [if_pos cleared] at crc
    rw [has_clear_self] at crc
    cases crc
  rw [sectorTable, effectiveOptions_has a size options (by decide),
    effectiveOptions_has a size options (by decide), effectiveOptions_has a size options (by decide)]
  simp only [not_or, not_and_or, Bool.not_eq_false, Bool.not_eq_true] at kept
  exact ⟨decide_eq_true ⟨kept.2.1, kept.2.2⟩, kept.1⟩

theorem effectiveOptions_masks {a : WriteArchive} {size : Nat} {options : FileOptions}
    (masks : LosslessMasks options) : LosslessMasks (effectiveOptions a size options) := by
  intro compressed
  rw [effectiveOptions_has a size options (by decide)] at compressed
  have first : Compression.losslessMask (effectiveOptions a size options).compressionFirst = true := by
    unfold effectiveOptions
    simp only
    split
    · rw [Compression.losslessMask, has_clear_self]
      rfl
    · decide
  refine ⟨first, ?_⟩
  unfold effectiveOptions at first ⊢
  simp only at first ⊢
  split
  · exact first
  · exact (masks compressed).2

theorem blockCountOf_single {a : WriteArchive} {size : Nat} {flags : UInt32}
    (single : has flags Flag.single = true) : blockCountOf a size flags = 1 := by
  simp [blockCountOf, single]

theorem Begun.shaped {a a' : WriteArchive} {name : Bytes} {size : Nat} {options : FileOptions}
    {w : Writer} (begun : Begun a name size options w a')
    (known : options.flags &&& ~~~storageFlags = 0) : Shaped w := by
  have offsets := begun.offsets
  have checksums := begun.checksums
  obtain ⟨table, sums, rfl⟩ := begun.writer
  have crc : has (effectiveOptions a size options).flags Flag.sectorCrc = true →
      sectorTable (effectiveOptions a size options).flags = true := fun crc =>
    (effectiveOptions_crc crc).1
  refine ⟨effectiveOptions_known known, offsets, checksums.trans ?_, crc,
    fun single => blockCountOf_single single, rfl⟩
  change (sectorTable (effectiveOptions a size options).flags &&
    has (effectiveOptions a size options).flags Flag.sectorCrc) =
      has (effectiveOptions a size options).flags Flag.sectorCrc
  cases checked : has (effectiveOptions a size options).flags Flag.sectorCrc with
  | false => exact Bool.and_false _
  | true => rw [crc checked, Bool.and_self]

theorem Begun.feeding {codecs : Codecs} {a a' : WriteArchive} {name : Bytes} {size : Nat}
    {options : FileOptions} {w : Writer} (begun : Begun a name size options w a')
    (masks : LosslessMasks options)
    (calm : has options.flags Flag.encrypted = true → a.disk.Calm) (sector : 0 < a.sectorSize) :
    Feeding codecs a.disk.file [] ⟨w, { a' with current := some w }⟩ := by
  have pos := begun.pos
  obtain ⟨disk, rows, rfl⟩ := begun.ready.archive
  obtain ⟨offsets, checksums, rfl⟩ := begun.writer
  refine ⟨⟨fun _ => [], ?_⟩, ?_, ?_⟩
  · constructor
    case kept =>
      have file := begun.ready.file
      change File.Agrees _ a.disk.file disk.file
      rw [show disk.file = a.disk.file from file]
      exact File.Agrees.refl _ _
    case masks => exact effectiveOptions_masks masks
    case calm =>
      intro encrypted
      refine begun.ready.calm (calm ?_)
      rwa [← effectiveOptions_has a size options (by decide)]
    case written => rfl
    case data => exact List.drop_nil.symm
    case recovers => exact fun i below => absurd below (Nat.not_lt_zero i)
    case holds => exact File.holds_nil _ _
    case pos => exact pos
    case total => rfl
    case offsets => exact fun _ i below => absurd below (Nat.not_lt_zero i)
    case sums => exact fun _ _ i below => absurd below (Nat.not_lt_zero i)
    case crc =>
      intro _
      simp [newWriter, PatchPrefix.none, Checksum.crc32]
    case md5 => exact fun _ => rfl
  · exact (Nat.zero_mul _).le
  · exact (Nat.one_mul _).symm ▸ sector

structure RowOf (flags : UInt32) (x : Bytes) (crc32 : UInt32) (md5 : Digest) : Prop where
  crc : has flags attributeCrc32 = true → crc32 = Checksum.crc32 0 x
  md5 : has flags attributeMd5 = true → md5 = (Md5.init.update x).finish

theorem cut_of_feeding {codecs : Codecs} {before : File} {s s' : Active} {x : Bytes}
    (lossless : codecs.Lossless) (feeding : Feeding codecs before x s) (sector : 0 < s.archive.sectorSize)
    (run : (if s.writer.data ≠ [] ∨ s.writer.expected = 0 then flushSector codecs else pure ()) s =
      .ok () s')
    (complete : s'.writer.written = s'.writer.expected)
    (index : s'.writer.sectorIndex = s'.writer.blockCount) :
    (∃ packed, Progress codecs before s' x packed) ∧ Cut s' x ∧ Follows s s' := by
  obtain ⟨⟨packed, progress⟩, begun, rest⟩ := feeding
  have length := congrArg List.length progress.data
  rw [List.length_drop] at length
  split at run
  next last =>
    have follows := (flushSector_follows codecs).ok run
    obtain ⟨disk, archive⟩ := follows.archive
    have same : s'.archive.sectorSize = s.archive.sectorSize := by rw [archive]
    obtain ⟨packed', progress', next⟩ := flushSector_progress lossless progress rest.le run
    have whole : x.length = s.writer.expected := by
      rw [← progress'.written, complete, follows.expected]
    have count : s'.writer.blockCount = s.writer.sectorIndex + 1 := index.symm.trans next
    refine ⟨⟨packed', progress'⟩, ⟨index, by omega, ?_, fun some => ?_, fun empty => ?_⟩, follows⟩
    · rw [count, same]
      exact rest.le
    · rw [count, same, Nat.add_sub_cancel]
      have more := List.length_pos_iff.mpr some
      rcases last with data | nothing
      · have := List.length_pos_iff.mpr data
        omega
      · omega
    · rw [empty, List.length_nil] at begun
      have first : s.writer.sectorIndex = 0 :=
        (Nat.mul_eq_zero.mp (Nat.le_zero.mp begun)).resolve_right (by omega)
      omega
  next idle =>
    obtain ⟨-, rfl⟩ := pure_ok.mp run
    have data : s'.writer.data = [] := by
      by_contra some
      exact idle (.inl some)
    have some : x ≠ [] := by
      rintro rfl
      exact idle (.inr (complete.symm.trans progress.written))
    have more := List.length_pos_iff.mpr some
    rw [data, List.length_nil] at length
    have positive : 0 < s'.writer.sectorIndex := by
      by_contra first
      rw [Nat.eq_zero_of_not_pos first, Nat.zero_mul] at length
      omega
    refine ⟨⟨packed, progress⟩, ⟨index, by omega, by rw [← index]; omega, fun _ => ?_,
      fun empty => absurd empty some⟩, refl_of Follows _⟩
    have product := Nat.sub_mul s'.writer.sectorIndex 1 s'.archive.sectorSize
    have least : s'.archive.sectorSize ≤ s'.writer.sectorIndex * s'.archive.sectorSize :=
      Nat.le_mul_of_pos_left _ positive
    rw [← index]
    omega

theorem streamEnd_image {codecs : Codecs} (lossless : codecs.Lossless) {before : File}
    {s s' : Active} {x : Bytes} (feeding : Feeding codecs before x s) (shaped : Shaped s.writer)
    (sector : 0 < s.archive.sectorSize) (run : streamEnd codecs s = .ok () s') :
    s.writer.expected = x.length ∧ ∃ (t : Active) (m : StoredMember codecs), Follows s t ∧
      StoredAs codecs s x m ∧ t.archive.disk.file.Holds s.writer.payloadOffset m.image ∧
      t.archive.disk.pos = s.writer.payloadOffset + m.image.length ∧
      File.Agrees s.writer.payloadOffset before t.archive.disk.file ∧
      RowOf t.writer.attributes.flags x t.writer.attributes.crc32 t.writer.md5.finish ∧
      (if oversized t.writer m.image.length then s' = t
        else publish s.writer.payloadOffset m.image.length t = .ok () s') := by
  unfold streamEnd at run
  rw [bind_of_ok (get_run s)] at run
  obtain ⟨_, f, ended, run⟩ := bind_ok.mp run
  unfold streamFinish at run
  obtain ⟨total, t, closed, run⟩ := bind_ok.mp run
  obtain ⟨complete, index, stop⟩ := closePayload_complete closed
  obtain ⟨⟨packed, progress⟩, cut, follows⟩ :=
    cut_of_feeding lossless feeding sector ended complete index
  obtain ⟨m, stored, rfl, holds, agrees, attributes, md5⟩ :=
    closePayload_image lossless progress (shaped.follows follows) cut closed
  have follows' := trans_of Follows follows ((closePayload_follows codecs).ok closed)
  have offset := follows.payloadOffset
  rw [bind_of_ok (get_run t)] at run
  rw [offset] at holds stop agrees
  refine ⟨?_, t, m, follows', ?_, holds, stop, agrees, ⟨?_, ?_⟩, ?_⟩
  · rw [← follows.expected, ← complete, progress.written]
  · obtain ⟨disk, archive⟩ := follows.archive
    refine ⟨stored.content, stored.flags.trans follows.flags, ?_, ?_, ?_⟩
    · rw [stored.key, follows.name]
    · rw [stored.version, archive]
    · rw [stored.sectorSize, archive]
  · rw [attributes]
    exact progress.crc
  · rw [attributes, md5]
    intro recorded
    rw [progress.md5 recorded]
  · split at run
    next big =>
      rw [if_pos big]
      exact (failIf_ok.mp run).2
    next fits =>
      have noPrefix : t.writer.prefixSize = 0 := follows'.prefixSize.trans shaped.noPrefix
      rw [if_neg fits, ← follows'.payloadOffset]
      rwa [noPrefix, Nat.sub_zero] at run

structure Holding {codecs : Codecs} (a : WriteArchive) (low i : Nat) (m : StoredMember codecs) :
    Prop where
  holds : a.disk.file.Holds (a.block i).offset.toNat m.image
  above : low ≤ (a.block i).offset.toNat
  below : (a.block i).offset.toNat + m.image.length ≤ a.disk.pos
  high : a.blockEx i = 0
  packedSize : (a.block i).packedSize.toNat = m.image.length
  unpackedSize : (a.block i).unpackedSize.toNat = m.content.length
  flags : (a.block i).flags = Flag.exists_ ||| m.flags
  key : m.key = fileKey (a.names i)
  version : m.version = a.header.version.toUInt32
  sectorSize : m.sectorSize = a.sectorSize

structure Contains {codecs : Codecs} (a : WriteArchive) (low : Nat)
    (members : List (StoredMember codecs)) : Prop where
  count : members.length = a.nextBlock
  pos : low ≤ a.disk.pos
  member : ∀ i m, members[i]? = some m → Holding a low i m
  free : ∀ i, a.nextBlock ≤ i → (a.block i).flags = 0
  slots : ∀ pos, taken a pos = true →
    (a.hash pos).hashA = (fileHash (a.names (a.hash pos).blockTableIndex.toNat)).hash2 ∧
      (a.hash pos).hashB = (fileHash (a.names (a.hash pos).blockTableIndex.toNat)).hash3
  reserved : a.attributesFlags ≠ 0 → 0 < a.nextBlock → a.attributes.isSome = true
  rows : ∀ rows, a.attributes = some rows → ∀ i m, members[i]? = some m →
    (a.signature = true → sameIdentity (a.names i) signatureName = false) →
    RowOf a.attributesFlags m.content (rows i).crc32 (rows i).md5

def SameParameters (a a' : WriteArchive) : Prop :=
  ∃ disk hash block blockEx nextBlock names attributes,
    a' = { a with disk, hash, block, blockEx, nextBlock, names, attributes, current := none }

structure Added {codecs : Codecs} (a a' : WriteArchive) (name data : Bytes) (options : FileOptions)
    (m : StoredMember codecs) : Prop where
  content : m.content = data
  flags : m.flags = (effectiveOptions a data.length options).flags
  names : a'.names = storeAt a.names a.nextBlock name
  block : ∃ entry, a'.block = storeAt a.block a.nextBlock entry
  stop : a'.disk.pos = a.disk.pos + m.image.length
  nextBlock : a'.nextBlock = a.nextBlock + 1
  hash : ∃ pos, freeSlot a (fileHash name).hash1 a.hashCapacity 0 = some pos ∧
    a'.hash = storeAt a.hash pos
      { hashA := (fileHash name).hash2, hashB := (fileHash name).hash3, locale := options.locale
        platform := options.platform, blockTableIndex := UInt32.ofNat a.nextBlock }

theorem fileAdd_ok {codecs : Codecs} {name data : Bytes} {options : FileOptions}
    {a a' : WriteArchive} (run : fileAdd codecs name data options a = .ok () a') :
    ∃ w b s s', prepareWriter name data.length options .none a = .ok w b ∧
      streamWrite codecs data ⟨w, { b with current := some w }⟩ = .ok () s ∧
      streamEnd codecs ⟨s.writer, { s.archive with current := some s.writer }⟩ = .ok () s' ∧
      a' = { s'.archive with current := none } := by
  unfold fileAdd at run
  obtain ⟨_, c, begun, run⟩ := bind_ok.mp run
  obtain ⟨w, b, prepared, begun⟩ := bind_ok.mp begun
  cases begun
  obtain ⟨_, d, written, run⟩ := bind_ok.mp run
  cases wrote : streamWrite codecs data ⟨w, { b with current := some w }⟩ with
  | error e s => simp [orAbort, fileWrite, withWriter, wrote] at written
  | ok _ s =>
    simp only [orAbort, fileWrite, withWriter, wrote, EStateM.Result.ok.injEq, true_and] at written
    subst written
    rw [fileFinish_run rfl] at run
    cases ended : streamEnd codecs ⟨s.writer, { s.archive with current := some s.writer }⟩ with
    | error e s' =>
      rw [ended] at run
      cases run
    | ok _ s' =>
      rw [ended] at run
      cases run
      exact ⟨w, b, s, s', prepared, wrote, ended, rfl⟩

theorem Feeding.withCurrent {codecs : Codecs} {before : File} {x : Bytes} {s : Active}
    (feeding : Feeding codecs before x s) (current : Option Writer) :
    Feeding codecs before x ⟨s.writer, { s.archive with current }⟩ := by
  obtain ⟨⟨packed, p⟩, begun, rest⟩ := feeding
  exact ⟨⟨packed, p.kept, p.masks, p.calm, p.written, p.data, p.recovers, p.holds, p.pos, p.total,
    p.offsets, p.sums, p.crc, p.md5⟩, begun, rest⟩

theorem blockFlags_eq {w : Writer} (noPrefix : w.prefixSize = 0) :
    blockFlags w = Flag.exists_ ||| w.options.flags := by
  have plain : w.patchFile = false := by simp [Writer.patchFile, noPrefix]
  have single : Bits.Single Flag.compress := ⟨9, by decide⟩
  rw [blockFlags, plain, if_neg (by decide), UInt32.or_zero]
  split
  next compressed =>
    have absorbed : w.options.flags ||| Flag.compressMulti = w.options.flags :=
      single.or_eq compressed
    rw [UInt32.or_assoc, absorbed]
  next => rw [UInt32.or_zero]

theorem Holding.congr {codecs : Codecs} {a a' : WriteArchive} {low i : Nat} {m : StoredMember codecs}
    (holding : Holding a low i m) (block : a'.block i = a.block i) (blockEx : a'.blockEx i = a.blockEx i)
    (names : a'.names i = a.names i) (header : a'.header = a.header)
    (sectorSize : a'.sectorSize = a.sectorSize)
    (agrees : File.Agrees a.disk.pos a.disk.file a'.disk.file) (pos : a.disk.pos ≤ a'.disk.pos) :
    Holding a' low i m := by
  constructor
  case holds =>
    rw [block]
    exact holding.holds.agrees agrees holding.below
  case above => rw [block]; exact holding.above
  case below => rw [block]; exact holding.below.trans pos
  case high => rw [blockEx]; exact holding.high
  case packedSize => rw [block]; exact holding.packedSize
  case unpackedSize => rw [block]; exact holding.unpackedSize
  case flags => rw [block]; exact holding.flags
  case key => rw [names]; exact holding.key
  case version => rw [header]; exact holding.version
  case sectorSize => rw [sectorSize]; exact holding.sectorSize

theorem Contains.moved {codecs : Codecs} {a a' : WriteArchive} {low : Nat}
    {members : List (StoredMember codecs)} (contains : Contains a low members) {disk : Disk}
    {rows : Option (Nat → FileAttributes)} {current : Option Writer}
    (archive : a' = { a with disk, attributes := rows, current })
    (known : ∀ old, a.attributes = some old → rows = some old)
    (agrees : File.Agrees a.disk.pos a.disk.file disk.file) (pos : a.disk.pos ≤ disk.pos) :
    Contains a' low members := by
  subst archive
  constructor
  case count => exact contains.count
  case pos => exact contains.pos.trans pos
  case member =>
    exact fun i m mem => (contains.member i m mem).congr rfl rfl rfl rfl rfl agrees pos
  case free => exact contains.free
  case slots => exact contains.slots
  case reserved =>
    intro used some
    obtain ⟨old, row⟩ := Option.isSome_iff_exists.mp (contains.reserved used some)
    change rows.isSome = true
    rw [known old row]
    rfl
  case rows =>
    intro row present i m mem signed
    have present : rows = some row := present
    by_cases used : a.attributesFlags = 0
    · change RowOf a.attributesFlags _ _ _
      rw [used]
      exact ⟨fun crc => absurd crc (by decide), fun md5 => absurd md5 (by decide)⟩
    · obtain ⟨inside, -⟩ := List.getElem?_eq_some_iff.mp mem
      rw [contains.count] at inside
      obtain ⟨old, row'⟩ := Option.isSome_iff_exists.mp (contains.reserved used (by omega))
      have same := known old row'
      rw [present, Option.some.injEq] at same
      rw [same]
      exact contains.rows old row' i m mem signed

theorem storeAt_of_ne {α : Type} {table : Nat → α} {i j : Nat} (other : j ≠ i) (value : α) :
    storeAt table i value j = table j := if_neg other

theorem storeAt_self {α : Type} (table : Nat → α) (i : Nat) (value : α) :
    storeAt table i value i = value := if_pos rfl

theorem Contains.published {codecs : Codecs} {a : WriteArchive} {low : Nat}
    {members : List (StoredMember codecs)} (contains : Contains a low members) (sound : Sound a)
    (room : a.nextBlock < a.capacity) {w : Writer} {m : StoredMember codecs} {offset pos : Nat}
    (above : low ≤ offset) (holds : a.disk.file.Holds offset m.image)
    (below : offset + m.image.length ≤ a.disk.pos) (fits : ¬ oversized w m.image.length)
    (place : w.payloadOffset = offset) (expected : w.expected = m.content.length)
    (noPrefix : w.prefixSize = 0) (flags : m.flags = w.options.flags) (key : m.key = fileKey w.name)
    (version : m.version = a.header.version.toUInt32) (sectorSize : m.sectorSize = a.sectorSize)
    (row : RowOf w.attributes.flags m.content w.attributes.crc32 w.md5.finish)
    (rowFlags : w.attributes.flags = a.attributesFlags)
    (reserved : a.attributesFlags ≠ 0 → a.attributes.isSome = true) :
    Contains (Writing.published w offset m.image.length pos a) low (members ++ [m]) := by
  obtain ⟨k, power, capacity⟩ := sound.hashCapacity
  have limit : a.hashCapacity ≤ 2 ^ 31 := capacity ▸ Nat.pow_le_pow_right (by omega) power
  have half := sound.capacity
  have number : (UInt32.ofNat a.nextBlock).toNat = a.nextBlock :=
    UInt32.toNat_ofNat_of_lt' (by simp only [UInt32.size]; omega)
  unfold oversized at fits
  simp only [uint32Max] at fits
  have plain : w.patchFile = false := by simp [Writer.patchFile, noPrefix]
  have newBlock : (Writing.published w offset m.image.length pos a).block a.nextBlock =
      blockEntry w offset m.image.length := storeAt_self _ _ _
  have newOffset : (blockEntry w offset m.image.length).offset.toNat = offset :=
    UInt32.toNat_ofNat_of_lt' (by simp only [UInt32.size]; omega)
  have others : ∀ i, i < members.length → i ≠ a.nextBlock := fun i inside => by
    rw [← contains.count]
    omega
  constructor
  case count =>
    rw [List.length_append, contains.count]
    rfl
  case pos => exact contains.pos
  case member =>
    intro i m' mem
    rcases Nat.lt_trichotomy i members.length with before | here | after
    · rw [List.getElem?_append_left before] at mem
      have other := others i before
      refine (contains.member i m' mem).congr (storeAt_of_ne other _) (storeAt_of_ne other _)
        (storeAt_of_ne other _) rfl rfl (File.Agrees.refl _ _) le_rfl
    · rw [here, List.getElem?_concat_length, Option.some.injEq] at mem
      subst mem
      rw [here, contains.count]
      constructor
      case holds => rw [newBlock, newOffset]; exact holds
      case above => rw [newBlock, newOffset]; exact above
      case below => rw [newBlock, newOffset]; exact below
      case high =>
        refine (storeAt_self _ _ _).trans ?_
        rw [Nat.shiftRight_eq_div_pow, Nat.div_eq_of_lt (by omega)]
        rfl
      case packedSize =>
        rw [newBlock]
        change (UInt32.ofNat (m.image.length + w.prefixSize)).toNat = _
        rw [noPrefix]
        exact UInt32.toNat_ofNat_of_lt' (by simp only [UInt32.size]; omega)
      case unpackedSize =>
        rw [newBlock]
        change (UInt32.ofNat (if w.patchFile = true then w.patchResultSize else w.expected)).toNat = _
        rw [plain, if_neg (by decide), ← expected]
        exact UInt32.toNat_ofNat_of_lt' (by simp only [UInt32.size]; omega)
      case flags =>
        rw [newBlock, flags]
        exact blockFlags_eq noPrefix
      case key =>
        rw [key]
        exact congrArg fileKey (storeAt_self _ _ _).symm
      case version => exact version
      case sectorSize => exact sectorSize
    · rw [List.getElem?_eq_none (by simp only [List.length_append, List.length_singleton]; omega)] at mem
      cases mem
  case free =>
    intro i past
    have past : a.nextBlock + 1 ≤ i := past
    refine (congrArg BlockEntry.flags (storeAt_of_ne (by omega) _)).trans ?_
    exact contains.free i (by omega)
  case slots =>
    intro p used
    by_cases here : p = pos
    · subst here
      have entry : (Writing.published w offset m.image.length p a).hash p = hashEntry w a.nextBlock :=
        storeAt_self _ _ _
      have name : (Writing.published w offset m.image.length p a).names a.nextBlock = w.name :=
        storeAt_self _ _ _
      rw [entry]
      simp only [hashEntry, number, name, and_self]
    · have entry : (Writing.published w offset m.image.length pos a).hash p = a.hash p :=
        storeAt_of_ne here _
      have used : taken a p = true := by
        rw [taken, entry] at used
        exact used
      have index := sound.index p used
      have name : (Writing.published w offset m.image.length pos a).names
          (a.hash p).blockTableIndex.toNat = a.names (a.hash p).blockTableIndex.toNat :=
        storeAt_of_ne (by omega) _
      rw [entry, name]
      exact contains.slots p used
  case reserved =>
    intro used _
    obtain ⟨old, known⟩ := Option.isSome_iff_exists.mp (reserved used)
    change (a.attributes.map _).isSome = true
    rw [known]
    rfl
  case rows =>
    intro rows present i m' mem signed
    obtain ⟨old, known, rfl⟩ := Option.map_eq_some_iff.mp
      (show a.attributes.map (fun rows => storeAt rows a.nextBlock (finalAttributes w)) = some rows
        from present)
    rcases Nat.lt_trichotomy i members.length with before | here | after
    · rw [List.getElem?_append_left before] at mem
      have name : (Writing.published w offset m.image.length pos a).names i = a.names i :=
        storeAt_of_ne (others i before) _
      rw [name] at signed
      rw [storeAt_of_ne (others i before)]
      exact contains.rows old known i m' mem signed
    · rw [here, List.getElem?_concat_length, Option.some.injEq] at mem
      subst mem
      rw [here, contains.count, storeAt_self]
      change RowOf a.attributesFlags _ _ _
      rw [← rowFlags]
      refine ⟨row.crc, fun recorded => ?_⟩
      rw [← row.md5 recorded]
      exact if_pos recorded
    · rw [List.getElem?_eq_none (by simp only [List.length_append, List.length_singleton]; omega)] at mem
      cases mem

structure Skipped {codecs : Codecs} (a a' : WriteArchive) (data : Bytes) (m : StoredMember codecs) :
    Prop where
  content : m.content = data
  holds : a'.disk.file.Holds a.disk.pos m.image
  large : uint32Max < a.disk.pos ∨ uint32Max < m.image.length ∨ uint32Max < data.length
  nextBlock : a'.nextBlock = a.nextBlock
  names : a'.names = a.names
  block : a'.block = a.block
  hash : a'.hash = a.hash

theorem fileAdd_contains {codecs : Codecs} (lossless : codecs.Lossless) {low : Nat}
    {members : List (StoredMember codecs)} {name data : Bytes} {options : FileOptions}
    {a a' : WriteArchive} (sound : Sound a) (contains : Contains a low members)
    (known : options.flags &&& ~~~storageFlags = 0) (masks : LosslessMasks options)
    (calm : has options.flags Flag.encrypted = true → a.disk.Calm)
    (run : fileAdd codecs name data options a = .ok () a') :
    SameParameters a a' ∧ File.Agrees a.disk.pos a.disk.file a'.disk.file ∧
      a.disk.pos ≤ a'.disk.pos ∧ (a.attributes.isSome = true → a'.attributes.isSome = true) ∧
      ((∃ m : StoredMember codecs, Added a a' name data options m ∧ Contains a' low (members ++ [m])) ∨
        ∃ m : StoredMember codecs, Skipped a a' data m ∧ Contains a' low members) := by
  obtain ⟨w, b, s, s', prepared, wrote, ended, rfl⟩ := fileAdd_ok run
  have begun := prepareWriter_begun prepared
  have shaped := begun.shaped known
  have reserved := begun.reserved
  have follows := (streamWrite_follows codecs data).ok wrote
  have feeding := streamWrite_feeding lossless
    (@Begun.feeding codecs _ _ _ _ _ _ begun masks calm sound.sectorSize) wrote
  obtain ⟨offsets, checksums, writer⟩ := begun.writer
  obtain ⟨disk, rows, archive⟩ := begun.ready.archive
  have rowsKept : ∀ old, a.attributes = some old → rows = some old := fun old row => by
    have := begun.ready.rows old row
    rwa [archive] at this
  obtain ⟨disk', archive'⟩ := follows.archive
  have parameters : s.archive = { a with disk := disk', attributes := rows, current := some w } := by
    rw [archive', archive]
  have sector : 0 < s.archive.sectorSize := by
    rw [parameters]
    exact sound.sectorSize
  have shaped' : Shaped s.writer := Shaped.follows (s := ⟨w, { b with current := some w }⟩) shaped follows
  obtain ⟨whole, t, m, follows', stored, holds, stop, agrees, row, last⟩ :=
    streamEnd_image lossless (feeding.withCurrent (some s.writer)) shaped' sector ended
  have place : s.writer.payloadOffset = a.disk.pos := by
    rw [follows.payloadOffset, writer]
    rfl
  obtain ⟨disk'', archive''⟩ := follows'.archive
  have final_ : t.archive =
      { a with disk := t.archive.disk, attributes := rows, current := some s.writer } := by
    rw [archive'', parameters]
  simp only [List.nil_append, place] at whole holds stop agrees row last stored
  have named : t.writer.name = name := by
    rw [follows'.name, follows.name, writer]
    rfl
  have options' : t.writer.options.flags = (effectiveOptions a data.length options).flags := by
    rw [follows'.flags, follows.flags, writer]
    rfl
  have kept : Contains t.archive low members :=
    contains.moved final_ rowsKept agrees (by omega)
  have content := stored.content
  have forward : a.disk.pos ≤ t.archive.disk.pos := by omega
  have rowsLeft : a.attributes.isSome = true → t.archive.attributes.isSome = true := by
    intro some
    obtain ⟨old, row⟩ := Option.isSome_iff_exists.mp some
    rw [final_]
    change rows.isSome = true
    rw [rowsKept old row]
    rfl
  split at last
  next big =>
    rw [last]
    refine ⟨?_, agrees, forward, rowsLeft, .inr ⟨m, ⟨content, holds, ?_, ?_, ?_, ?_, ?_⟩, ?_⟩⟩
    · rw [final_]
      exact ⟨t.archive.disk, a.hash, a.block, a.blockEx, a.nextBlock, a.names, rows, rfl⟩
    · unfold oversized at big
      rwa [follows'.payloadOffset, follows'.expected, whole, place] at big
    · rw [final_]
    · rw [final_]
    · rw [final_]
    · rw [final_]
    · have closed : ({ t.archive with current := none } : WriteArchive) =
          { a with disk := t.archive.disk, attributes := rows, current := none } := by
        rw [final_]
      exact contains.moved closed rowsKept agrees forward
  next fits =>
    have sound' : Sound t.archive := by
      rw [final_]
      exact sound.congr t.archive.disk rows (some s.writer)
    have room : t.archive.nextBlock < t.archive.capacity := by
      rw [final_]
      exact begun.room
    obtain ⟨pos, found, inside, free, done⟩ :=
      publish_run sound' room a.disk.pos m.image.length
    obtain ⟨-, rfl⟩ := EStateM.Result.ok.inj (done.symm.trans last)
    have grown : Contains (published t.writer a.disk.pos m.image.length pos t.archive) low
        (members ++ [m]) := kept.published sound' room
      contains.pos holds stop.ge fits ((follows'.payloadOffset).trans place)
      (by rw [follows'.expected, whole, content]) (follows'.prefixSize.trans shaped'.noPrefix)
      (stored.flags.trans follows'.flags.symm) (by rw [stored.key, follows'.name])
      (by rw [stored.version, archive'']) (by rw [stored.sectorSize, archive''])
      (by rw [content]; exact row)
      (by rw [follows'.attributes, follows.attributes, writer, final_]; rfl)
      (by rw [final_]; exact fun used => by simpa [archive] using reserved used)
    have named : t.writer.name = name := by
      rw [follows'.name, follows.name, writer]
      rfl
    have counted : t.archive.nextBlock = a.nextBlock := by rw [final_]
    have hashed : ∀ fuel slot, freeSlot t.archive (fileHash name).hash1 fuel slot =
        freeSlot a (fileHash name).hash1 fuel slot := by
      intro fuel slot
      rw [final_]
      induction fuel generalizing slot with
      | zero => rfl
      | succ fuel ih =>
        rw [freeSlot, freeSlot, ih]
        rfl
    refine ⟨?_, agrees, forward, fun some => ?_, .inl ⟨m, ⟨content, ?_, ?_, ?_, stop, ?_, pos, ?_, ?_⟩, ?_⟩⟩
    · rw [final_]
      exact ⟨_, _, _, _, _, _, _, rfl⟩
    · change (t.archive.attributes.map _).isSome = true
      rw [Option.isSome_map]
      exact rowsLeft some
    · rw [stored.flags, follows.flags, writer]
      rfl
    · rw [← named, ← counted]
      have same : t.archive.names = a.names := by rw [final_]
      rw [← same]
      rfl
    · have same : t.archive.block = a.block := by rw [final_]
      rw [← counted, ← same]
      exact ⟨_, rfl⟩
    · rw [← counted]
      rfl
    · rw [named, hashed] at found
      rw [← found, final_]
    · have same : t.archive.hash = a.hash := by rw [final_]
      have locale : t.writer.options.locale = options.locale := by
        rw [follows'.locale, follows.locale, writer]
        rfl
      have platform : t.writer.options.platform = options.platform := by
        rw [follows'.platform, follows.platform, writer]
        rfl
      rw [← named, ← counted, ← same, ← locale, ← platform]
      rfl
    · exact grown.moved rfl (fun _ => id) (File.Agrees.refl _ _) le_rfl

end Writing

end LibMpq
