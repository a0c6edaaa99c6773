import LibMpq.Layout

set_option autoImplicit false

namespace LibMpq

open Effect Bits

namespace Reading

theorem sourceReadAt_holds {source : File} {offset : Nat} {data : Bytes}
    (holds : source.Holds offset data) (inside : offset + data.length ≤ source.size) :
    sourceReadAt source offset data.length Faults.healthy = .ok data Faults.healthy := by
  have ranged : ¬ (offset > source.size ∨ data.length > source.size - offset) := by omega
  unfold sourceReadAt fetch
  rw [if_neg ranged]
  by_cases none : data.length = 0
  · rw [if_pos none, List.length_eq_zero_iff.mp none]
  · rw [if_neg none]
    simp only [Faults.healthy, holds.read]
    rfl

theorem sourceReadAt_stored {source : File} {offset : Nat} {data : Bytes}
    (holds : source.Holds offset data) (some : data ≠ []) :
    sourceReadAt source offset data.length Faults.healthy = .ok data Faults.healthy :=
  sourceReadAt_holds holds (holds.1 some)

theorem buildMap_of_prefix {block : Nat → BlockEntry} {n rest : Nat}
    (exist : ∀ i, i < n → has (block i).flags Flag.exists_ = true)
    (free : ∀ i, n ≤ i → i < n + rest → has (block i).flags Flag.exists_ = false) :
    (buildMap block (n + rest)).files = n ∧
      (∀ i, i < n → (buildMap block (n + rest)).indices i = i) ∧
      ∀ i, i < n → (buildMap block (n + rest)).diff i = 0 := by
  have step : ∀ count, buildMap block (count + 1) = mapStep block (buildMap block count) count := by
    intro count
    rw [buildMap, List.range_succ, List.foldl_append]
    rfl
  have existing : ∀ count, count ≤ n → (buildMap block count).files = count ∧
      (∀ i, i < count → (buildMap block count).indices i = i) ∧
      ∀ i, i < count → (buildMap block count).diff i = 0 := by
    intro count le
    induction count with
    | zero => exact ⟨rfl, fun i below => absurd below (Nat.not_lt_zero i),
        fun i below => absurd below (Nat.not_lt_zero i)⟩
    | succ count ih =>
      obtain ⟨files, indices, diff⟩ := ih (by omega)
      rw [step, mapStep, if_pos (exist count (by omega))]
      simp only [files]
      refine ⟨trivial, fun i below => ?_, fun i below => ?_⟩
      · by_cases last : i = count
        · rw [if_pos last, last]
        · rw [if_neg last, indices i (by omega)]
      · by_cases last : i = count
        · rw [if_pos last, Nat.sub_self]
        · rw [if_neg last, diff i (by omega)]
  induction rest with
  | zero => exact existing n le_rfl
  | succ rest ih =>
    obtain ⟨files, indices, diff⟩ := ih fun i past below => free i past (by omega)
    have absent : ¬ has (block (n + rest)).flags Flag.exists_ = true := by
      rw [free (n + rest) (by omega) (by omega)]
      decide
    rw [← Nat.add_assoc, step, mapStep, if_neg absent]
    refine ⟨files, indices, fun i below => ?_⟩
    simp only
    rw [if_neg (by omega), diff i below]

structure Opened (b : WriteArchive) (file : File) (a : ReadArchive) : Prop where
  source : a.source = file
  plan : a.plan = Faults.healthy
  archiveOffset : a.archiveOffset = 0
  blockSize : a.blockSize.toNat = b.sectorSize
  version : a.header.version = b.header.version
  hashCount : a.header.hashTableCount.toNat = b.hashCapacity
  blockCount : a.header.blockTableCount.toNat = b.capacity
  hash : ∀ i, i < b.hashCapacity → a.hash i = b.hash i
  block : ∀ i, i < b.capacity → a.block i = b.block i
  blockEx : ∀ i, i < b.nextBlock → a.blockEx i = 0
  files : a.files = b.nextBlock
  indices : ∀ i, i < b.nextBlock → a.blockTableIndices i = i
  diff : ∀ i, i < b.nextBlock → a.blockTableDiff i = 0
  cache : ∀ i, a.cache i = none
  attributes : a.attributes = none
  attributesError : a.attributesError = none

section closed

variable {o : CreateOptions} {b : WriteArchive} {file : File}

def readHeader (b : WriteArchive) : Header :=
  normalizeHeader (Writing.finalHeader b (Writing.tabled b).size)

theorem readHeader_tables (b : WriteArchive) :
    (readHeader b).version = b.header.version ∧ (readHeader b).blockSize = b.header.blockSize ∧
      (readHeader b).hashTableOffset = b.header.hashTableOffset ∧
      (readHeader b).blockTableOffset = b.header.blockTableOffset ∧
      (readHeader b).hashTableCount = b.header.hashTableCount ∧
      (readHeader b).blockTableCount = b.header.blockTableCount := by
  unfold readHeader normalizeHeader
  split
  · exact ⟨rfl, rfl, rfl, rfl, rfl, rfl⟩
  · split <;> exact ⟨rfl, rfl, rfl, rfl, rfl, rfl⟩

theorem headerAt_closed (stands : Writing.Stands o b file) :
    headerAt file 0 Faults.healthy =
      .ok (Writing.finalHeader b (Writing.tabled b).size) Faults.healthy := by
  have front := (File.holds_append.mp stands.header).1
  have length := Writing.headerWire_length (Writing.finalHeader b (Writing.tabled b).size)
  have some := List.length_pos_iff.mp (length.trans_gt (by decide))
  have inside := front.1 some
  have read := sourceReadAt_stored front some
  rw [length] at read inside
  rw [headerAt, bind_of_ok (failIf_false (by omega) _ _), bind_of_ok read, pure_run]
  have decoded := Tables.headerWire.decode_encode
    (Writing.finalHeader b (Writing.tabled b).size) []
  rw [List.append_nil] at decoded
  rw [decoded]

theorem version_le (made : Writing.CreatedWith o b) : ¬ b.header.version > 1 := by
  obtain ⟨version, -, -⟩ := Writing.validateOptions_ok made.valid
  rw [made.header]
  change ¬ o.version.toUInt16 > 1
  rcases version with one | two
  · rw [one]
    decide
  · rw [two]
    decide

theorem findHeader_closed (made : Writing.CreatedWith o b) (stands : Writing.Stands o b file)
    (search : Bool) (fuel : Nat) :
    findHeader file search (fuel + 1) 0 Faults.healthy = .ok (0, readHeader b) Faults.healthy := by
  have magic : (Writing.finalHeader b (Writing.tabled b).size).magic = headerMagic := rfl
  rw [findHeader, bind_of_ok (headerAt_closed stands)]
  simp only [if_pos magic]
  have version : ¬ (Writing.finalHeader b (Writing.tabled b).size).version > 1 := version_le made
  rw [bind_of_ok (failIf_false version _ _)]
  rfl

def extensionOf (o : CreateOptions) (b : WriteArchive) : HeaderEx :=
  if o.version = versionTwo then Writing.finalHeaderEx b
  else { extendedOffset := 0, hashTableOffsetHigh := 0, blockTableOffsetHigh := 0 }

theorem extensionOf_high (o : CreateOptions) (b : WriteArchive) :
    (extensionOf o b).hashTableOffsetHigh = 0 ∧ (extensionOf o b).blockTableOffsetHigh = 0 := by
  unfold extensionOf
  split <;> exact ⟨rfl, rfl⟩

theorem readHeaderEx_closed (made : Writing.CreatedWith o b) (stands : Writing.Stands o b file) :
    readHeaderEx file 0 (readHeader b) Faults.healthy = .ok (extensionOf o b) Faults.healthy := by
  have header := Writing.headerWire_length (Writing.finalHeader b (Writing.tabled b).size)
  have length := Writing.headerExWire_length (Writing.finalHeaderEx b)
  have some := List.length_pos_iff.mp (length.trans_gt (by decide))
  rw [readHeaderEx, (readHeader_tables b).1, extensionOf]
  by_cases two : o.version = versionTwo
  · have version : b.header.version = 1 := by
      rw [made.header]
      change o.version.toUInt16 = 1
      rw [two]
      rfl
    have back := (File.holds_append.mp stands.header).2
    rw [header, made.version, if_pos two] at back
    have inside := back.1 some
    have read := sourceReadAt_stored back some
    rw [length] at read inside
    rw [if_pos version, if_pos two, bind_of_ok (failIf_false (by omega) _ _), bind_of_ok read, pure_run]
    have decoded := Tables.headerExWire.decode_encode (Writing.finalHeaderEx b) []
    rw [List.append_nil] at decoded
    rw [decoded]
  · have version : b.header.version ≠ 1 := by
      intro wire
      have same := made.version
      rw [wire] at same
      exact two same.symm
    rw [if_neg version, if_neg two, pure_run]

theorem readTable_closed {offset count : Nat} {table : Bytes} {key : UInt32}
    (holds : file.Holds offset (Writing.encryptTableBytes table key)) (length : table.length = count)
    (some : 0 < count) (small : count < 2 ^ 32) :
    readTable file offset count key Faults.healthy = .ok table Faults.healthy := by
  rw [Writing.encryptTableBytes_of_lt (by omega)] at holds
  have encrypted : (Crypto.encryptBlock table key).length = count := by
    rw [Crypto.encryptBlock_length, length]
  have read := sourceReadAt_stored holds (List.length_pos_iff.mp (by omega))
  rw [encrypted] at read
  rw [readTable, bind_of_ok (request_healthy _), bind_of_ok read, pure_run,
    Crypto.decryptBlock_encryptBlock]

theorem counts_closed (made : Writing.CreatedWith o b) (sound : Writing.Sound b)
    (layout : Writing.Layout o) :
    (readHeader b).hashTableCount.toNat = b.hashCapacity ∧
      (readHeader b).blockTableCount.toNat = b.capacity ∧
      b.hashCapacity ≤ 2 ^ 27 ∧ 2 * b.capacity ≤ b.hashCapacity := by
  obtain ⟨-, -, -, -, hash, block⟩ := readHeader_tables b
  have limit := layout.hashCapacity
  have half := sound.capacity
  have capacity := made.capacity
  have hashCapacity := made.hashCapacity
  refine ⟨?_, ?_, by omega, half⟩
  · rw [hash, made.header, hashCapacity]
    exact UInt32.toNat_ofNat_of_lt' (by simp only [UInt32.size]; omega)
  · rw [block, made.header, capacity]
    exact UInt32.toNat_ofNat_of_lt' (by simp only [UInt32.size]; omega)

theorem readBlockEx_closed (made : Writing.CreatedWith o b) (sound : Writing.Sound b)
    (layout : Writing.Layout o) (stands : Writing.Stands o b file) :
    ∃ blockEx, readBlockEx file 0 (readHeader b) (extensionOf o b) Faults.healthy =
        .ok blockEx Faults.healthy ∧
      ∀ i, i < b.capacity → b.blockEx i = 0 → blockEx i = 0 := by
  unfold extensionOf
  by_cases two : o.version = versionTwo
  · have place := Writing.newHeaderEx_extended layout two
    have positive : 0 < Writing.extendedOffsetOf o := by
      have := Writing.capacityOf_pos o
      simp only [Writing.extendedOffsetOf, blockEntryWireSize]
      omega
    have extended : (Writing.finalHeaderEx b).extendedOffset.toNat = Writing.extendedOffsetOf o := by
      rw [← place, Writing.finalHeaderEx, made.headerEx]
    have offset : ((Writing.finalHeaderEx b).extendedOffset + UInt64.ofNat 0).toNat =
        Writing.extendedOffsetOf o := by
      rw [UInt64.toNat_add, extended]
      have := (Writing.finalHeaderEx b).extendedOffset.toNat_lt
      simp only [UInt64.reduceOfNat, UInt64.reduceToNat]
      omega
    obtain ⟨-, count, -, -⟩ := counts_closed made sound layout
    have length := Writing.blockExTableBytes_length b
    have some : Writing.blockExTableBytes b ≠ [] := by
      have := Writing.capacityOf_pos o
      rw [← List.length_pos_iff, length, made.capacity]
      simp only [blockExEntryWireSize]
      omega
    have read := sourceReadAt_stored (stands.blockEx two) some
    rw [length] at read
    refine ⟨Wire.le16.decodeTable (Writing.blockExTableBytes b), ?_, fun i below zero => ?_⟩
    · rw [if_pos two, readBlockEx, if_pos (UInt64.lt_iff_toNat_lt.mpr (by rw [extended]; exact positive)),
        bind_of_ok (request_healthy _), tableBytes, count, offset]
      rw [bind_run, asFormat, read]
      rfl
    · rw [← zero]
      have decoded := Wire.le16.decodeTable_encodeTable b.blockEx below []
      rwa [List.append_nil] at decoded
  · refine ⟨fun _ => 0, ?_, fun _ _ _ => rfl⟩
    rw [if_neg two]
    rfl

theorem blockSize_closed (made : Writing.CreatedWith o b) :
    ¬ (readHeader b).blockSize > 22 ∧
      (512 <<< (readHeader b).blockSize.toUInt32 : UInt32).toNat = b.sectorSize := by
  obtain ⟨-, size, -⟩ := readHeader_tables b
  obtain ⟨k, small, sector, shift⟩ := Writing.sectorSizeOf_power made.valid
  have wire : b.header.blockSize.toNat = k := by
    rw [made.header]
    change (UInt16.ofNat (Writing.sectorShift (Writing.sectorSizeOf o))).toNat = k
    rw [shift]
    exact UInt16.toNat_ofNat_of_lt' (by simp only [UInt16.size]; omega)
  rw [size, made.sectorSize, sector]
  constructor
  · rw [gt_iff_lt, UInt16.lt_iff_toNat_lt, wire]
    simpa using small
  · have bound := Nat.pow_le_pow_right (n := 2) (by omega) small
    rw [UInt32.toNat_shiftLeft, UInt16.toNat_toUInt32, wire, Nat.mod_eq_of_lt (show k < 32 by omega),
      Nat.shiftLeft_eq]
    exact Nat.mod_eq_of_lt (show 512 * 2 ^ k < 2 ^ 32 by omega)

theorem tableFits_of_holds {offset width : Nat} {count : UInt32} {table : Bytes}
    (holds : file.Holds offset table) (length : table.length = count.toNat * width)
    (some : 0 < table.length) (small : count.toNat * width < 2 ^ 32) : tableFits file count width := by
  have inside := holds.1 (List.length_pos_iff.mp some)
  rw [tableFits, tableBytes]
  omega

def storedBlocks (b : WriteArchive) : Nat → BlockEntry :=
  Tables.blockWire.decodeTable (Tables.blockWire.encodeTable b.block b.capacity)

theorem storedBlocks_eq {i : Nat} (below : i < b.capacity) : storedBlocks b i = b.block i := by
  have decoded := Tables.blockWire.decodeTable_encodeTable b.block below []
  rwa [List.append_nil] at decoded

def reopened (o : CreateOptions) (b : WriteArchive) (file : File) (blockEx : Nat → UInt16) :
    ReadArchive where
  source := file
  plan := Faults.healthy
  archiveOffset := 0
  blockSize := 512 <<< (readHeader b).blockSize.toUInt32
  header := readHeader b
  headerEx := extensionOf o b
  hash := Tables.hashWire.decodeTable (Tables.hashWire.encodeTable b.hash b.hashCapacity)
  block := storedBlocks b
  blockEx
  blockTableIndices := (buildMap (storedBlocks b) b.capacity).indices
  blockTableDiff := (buildMap (storedBlocks b) b.capacity).diff
  files := (buildMap (storedBlocks b) b.capacity).files
  cache _ := none
  attributes := none
  attributesError := none

theorem openSource_run (made : Writing.CreatedWith o b) (sound : Writing.Sound b)
    (layout : Writing.Layout o) (stands : Writing.Stands o b file) {archiveOffset : Int}
    (start : archiveOffset = 0 ∨ archiveOffset = -1) :
    ∃ blockEx, openSource file archiveOffset Faults.healthy =
        .ok (reopened o b file blockEx) Faults.healthy ∧
      ∀ i, i < b.capacity → b.blockEx i = 0 → blockEx i = 0 := by
  obtain ⟨hashCount, blockCount, limit, half⟩ := counts_closed made sound layout
  obtain ⟨-, -, hashOffset, blockOffset, -, -⟩ := readHeader_tables b
  obtain ⟨shift, -⟩ := blockSize_closed made
  have positive := Writing.capacityOf_pos o
  rw [← made.capacity] at positive
  have hash := stands.hash
  have block := stands.block
  have hashLength := Writing.hashTableBytes_length b
  have blockLength := Writing.blockTableBytes_length b
  simp only [hashEntryWireSize, blockEntryWireSize] at hashLength blockLength
  have fits : tableFits file (readHeader b).hashTableCount hashEntryWireSize ∧
      tableFits file (readHeader b).blockTableCount blockEntryWireSize := by
    refine ⟨tableFits_of_holds hash ?_ (by omega) ?_, tableFits_of_holds block ?_ (by omega) ?_⟩
    all_goals
      first | rw [hashCount] | rw [blockCount]
      simp only [hashEntryWireSize, blockEntryWireSize]
      omega
  have zero : archiveOffset.toNat = 0 := by omega
  obtain ⟨blockEx, readEx, high⟩ := readBlockEx_closed made sound layout stands
  have hashes := @readTable_closed _ _ (b.hashCapacity * hashEntryWireSize) _ _ hash
    (Wire.encodeTable_length _ _ _) (by simp only [hashEntryWireSize]; omega)
    (by simp only [hashEntryWireSize]; omega)
  have blocks := @readTable_closed _ _ (b.capacity * blockEntryWireSize) _ _ block
    (Wire.encodeTable_length _ _ _) (by simp only [blockEntryWireSize]; omega)
    (by simp only [blockEntryWireSize]; omega)
  have hashPlace : tableOffset (readHeader b).hashTableOffset 0 0 =
      (Writing.hashTableOffsetOf o).toNat := by
    rw [tableOffset, hashOffset, made.header]
    rfl
  have blockPlace : tableOffset (readHeader b).blockTableOffset 0 0 =
      (Writing.blockTableOffsetOf o).toNat := by
    rw [tableOffset, blockOffset, made.header]
    rfl
  refine ⟨blockEx, ?_, high⟩
  unfold openSource
  rw [bind_of_ok (failIf_false (by omega) _ _), bind_of_ok (request_healthy _), zero,
    bind_of_ok (findHeader_closed made stands _ _)]
  simp only
  rw [bind_of_ok (failIf_false shift _ _), bind_of_ok (failIf_false (not_not.mpr fits) _ _),
    bind_of_ok (readHeaderEx_closed made stands), bind_of_ok (request_healthy _),
    (extensionOf_high o b).1, (extensionOf_high o b).2, hashPlace, blockPlace,
    tableBytes, tableBytes, hashCount, blockCount, bind_of_ok hashes, bind_of_ok blocks,
    bind_of_ok readEx, bind_of_ok (get_run _), pure_run]
  rfl

theorem reopened_opened {codecs : Codecs} {low : Nat} {members : List (StoredMember codecs)}
    (made : Writing.CreatedWith o b) (sound : Writing.Sound b) (contains : Writing.Contains b low members)
    (layout : Writing.Layout o) {blockEx : Nat → UInt16}
    (high : ∀ i, i < b.capacity → b.blockEx i = 0 → blockEx i = 0) :
    Opened b file (reopened o b file blockEx) := by
  obtain ⟨hashCount, blockCount, -, -⟩ := counts_closed made sound layout
  have member : ∀ i, i < b.nextBlock → ∃ m, Writing.Holding b low i (m : StoredMember codecs) := by
    intro i below
    obtain ⟨m, mem⟩ : ∃ m, members[i]? = some m :=
      ⟨_, List.getElem?_eq_getElem (contains.count ▸ below)⟩
    exact ⟨m, contains.member i m mem⟩
  have count := sound.nextBlock
  obtain ⟨rest, total⟩ := Nat.exists_eq_add_of_le count
  have exist : ∀ i, i < b.nextBlock → has (storedBlocks b i).flags Flag.exists_ = true := by
    intro i below
    obtain ⟨m, holding⟩ := member i below
    rw [storedBlocks_eq (by omega), holding.flags, or_has]
    rfl
  have free : ∀ i, b.nextBlock ≤ i → i < b.nextBlock + rest →
      has (storedBlocks b i).flags Flag.exists_ = false := by
    intro i past below
    rw [storedBlocks_eq (by omega), contains.free i past]
    rfl
  obtain ⟨files, indices, diff⟩ := buildMap_of_prefix exist free
  rw [← total] at files indices diff
  constructor
  case source | plan | archiveOffset | attributes | attributesError => rfl
  case blockSize => exact (blockSize_closed made).2
  case version => exact (readHeader_tables b).1
  case hashCount => exact hashCount
  case blockCount => exact blockCount
  case hash =>
    intro i below
    have decoded := Tables.hashWire.decodeTable_encodeTable b.hash below []
    rwa [List.append_nil] at decoded
  case block => exact fun i below => storedBlocks_eq below
  case blockEx =>
    intro i below
    obtain ⟨m, holding⟩ := member i below
    exact high i (by omega) holding.high
  case files => exact files
  case indices => exact indices
  case diff => exact diff
  case cache => exact fun _ => rfl

theorem openSource_closed {codecs : Codecs} {low : Nat} {members : List (StoredMember codecs)}
    (made : Writing.CreatedWith o b) (sound : Writing.Sound b) (contains : Writing.Contains b low members)
    (layout : Writing.Layout o) (stands : Writing.Stands o b file) {archiveOffset : Int}
    (start : archiveOffset = 0 ∨ archiveOffset = -1) :
    ∃ a, openSource file archiveOffset Faults.healthy = .ok a Faults.healthy ∧ Opened b file a := by
  obtain ⟨blockEx, run, high⟩ := openSource_run made sound layout stands start
  exact ⟨_, run, reopened_opened made sound contains layout high⟩

end closed

section names

variable {codecs : Codecs} {low : Nat} {members : List (StoredMember codecs)} {b : WriteArchive}
  {file : File} {a : ReadArchive}

theorem numberOf_opened (opened : Opened b file a) (contains : Writing.Contains b low members)
    (sound : Writing.Sound b) {i : Nat} (below : i < b.nextBlock) : numberOf a i = .ok i := by
  have count := sound.nextBlock
  obtain ⟨m, mem⟩ : ∃ m, members[i]? = some m :=
    ⟨_, List.getElem?_eq_getElem (contains.count ▸ below)⟩
  have exists_ : has (a.block i).flags Flag.exists_ = true := by
    rw [opened.block i (by omega), (contains.member i m mem).flags, or_has]
    rfl
  have inTable : ¬ (i ≥ a.header.blockTableCount.toNat ∨ has (a.block i).flags Flag.exists_ = false) := by
    rw [opened.blockCount, exists_]
    simp only [reduceCtorEq, or_false]
    omega
  have numbered : ¬ (i - a.blockTableDiff i ≥ a.files) := by
    rw [opened.diff i below, opened.files]
    omega
  rw [numberOf, if_neg inTable, if_neg numbered, opened.diff i below]
  rfl

theorem probe_ok (opened : Opened b file a) (contains : Writing.Contains b low members)
    (sound : Writing.Sound b) {hash2 hash3 : UInt32} {home fuel i number : Nat}
    (inside : i < b.hashCapacity) (found : probe a hash2 hash3 home fuel i = .ok number) :
    number < b.nextBlock ∧ (fileHash (b.names number)).hash2 = hash2 ∧
      (fileHash (b.names number)).hash3 = hash3 := by
  induction fuel generalizing i with
  | zero => cases found
  | succ fuel ih =>
    have slot := opened.hash i inside
    rw [probe, slot] at found
    split at found
    next => cases found
    next used =>
      split at found
      next identity =>
        have taken : Writing.taken b i = true := by simpa [Writing.taken] using used
        have below := sound.index i taken
        rw [numberOf_opened opened contains sound below] at found
        cases found
        obtain ⟨first, second⟩ := contains.slots i taken
        exact ⟨below, by rw [← first, identity.1], by rw [← second, identity.2]⟩
      next =>
        split at found
        next => cases found
        next => exact ih (by rw [hashTableSize, opened.hashCount]; exact Nat.mod_lt _ (by omega)) found

theorem fileNumber_ok (opened : Opened b file a) (contains : Writing.Contains b low members)
    (sound : Writing.Sound b) {name : Bytes} {number : Nat} (found : fileNumber a name = .ok number) :
    number < b.nextBlock ∧ (fileHash (b.names number)).hash2 = (fileHash name).hash2 ∧
      (fileHash (b.names number)).hash3 = (fileHash name).hash3 := by
  unfold fileNumber fileNumberFromHash at found
  split at found
  next => cases found
  next some =>
    refine probe_ok opened contains sound ?_ found
    rw [hashTableSize, opened.hashCount] at some ⊢
    exact Nat.mod_lt _ (by omega)

theorem fileNumber_home (opened : Opened b file a) (contains : Writing.Contains b low members)
    (sound : Writing.Sound b) {name : Bytes} {number : Nat} (below : number < b.nextBlock)
    (slot : ∀ home, home = (fileHash name).hash1.toNat % b.hashCapacity →
      (b.hash home).hashA = (fileHash name).hash2 ∧ (b.hash home).hashB = (fileHash name).hash3 ∧
        (b.hash home).blockTableIndex.toNat = number) :
    fileNumber a name = .ok number := by
  have count := sound.nextBlock
  have half := sound.capacity
  have size : hashTableSize a = b.hashCapacity := opened.hashCount
  obtain ⟨hashA, hashB, index⟩ := slot _ rfl
  have home := opened.hash _ (Nat.mod_lt (fileHash name).hash1.toNat (show 0 < b.hashCapacity by omega))
  have used : (b.hash ((fileHash name).hash1.toNat % b.hashCapacity)).blockTableIndex ≠ hashFree := by
    intro free
    obtain ⟨k, small, power⟩ := sound.hashCapacity
    have limit := Nat.pow_le_pow_right (n := 2) (by omega) small
    rw [free] at index
    simp only [hashFree, UInt32.reduceToNat] at index
    omega
  obtain ⟨fuel, positive⟩ : ∃ fuel, b.hashCapacity = fuel + 1 := ⟨b.hashCapacity - 1, by omega⟩
  rw [fileNumber, fileNumberFromHash, size, if_neg (by omega)]
  simp only
  rw [show probe a _ _ _ b.hashCapacity = probe a _ _ _ (fuel + 1) from by rw [positive], probe, home]
  rw [if_neg used, if_pos ⟨hashA, hashB⟩, index]
  exact numberOf_opened opened contains sound below

end names

end Reading

end LibMpq
