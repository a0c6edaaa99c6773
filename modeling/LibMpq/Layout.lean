import LibMpq.WriterClose

set_option autoImplicit false

namespace LibMpq

open Effect Bits

namespace Writing

theorem encryptTableBytes_length (raw : Bytes) (key : UInt32) :
    (encryptTableBytes raw key).length = raw.length := by
  simp only [encryptTableBytes, List.length_append, Crypto.encryptBlock_length, List.length_take,
    List.length_drop]
  omega

theorem encryptTableBytes_of_lt {raw : Bytes} (small : raw.length < 2 ^ 32) (key : UInt32) :
    encryptTableBytes raw key = Crypto.encryptBlock raw key := by
  simp only [encryptTableBytes, Nat.mod_eq_of_lt small, List.take_length, List.drop_length,
    List.append_nil]

@[simp] theorem hashTableBytes_length (a : WriteArchive) :
    (hashTableBytes a).length = a.hashCapacity * hashEntryWireSize := by
  rw [hashTableBytes, encryptTableBytes_length, Wire.encodeTable_length]
  rfl

@[simp] theorem blockTableBytes_length (a : WriteArchive) :
    (blockTableBytes a).length = a.capacity * blockEntryWireSize := by
  rw [blockTableBytes, encryptTableBytes_length, Wire.encodeTable_length]
  rfl

@[simp] theorem blockExTableBytes_length (a : WriteArchive) :
    (blockExTableBytes a).length = a.capacity * blockExEntryWireSize := by
  rw [blockExTableBytes, Wire.encodeTable_length]
  rfl

theorem headerWire_length (h : Header) : (Tables.headerWire.encode h).length = headerWireSize :=
  Tables.headerWire.encode_length h

theorem headerExWire_length (h : HeaderEx) :
    (Tables.headerExWire.encode h).length = headerExWireSize := Tables.headerExWire.encode_length h

theorem sectorShift_grow {k shift fuel : Nat} (below : shift ≤ k) (enough : k - shift < fuel) :
    sectorShift.grow (512 * 2 ^ k) fuel shift = k := by
  induction fuel generalizing shift with
  | zero => omega
  | succ fuel ih =>
    rw [sectorShift.grow, Nat.shiftLeft_eq]
    by_cases last : shift = k
    · subst last
      rw [if_neg (Nat.lt_irrefl _)]
    · have smaller : 2 ^ shift < 2 ^ k := Nat.pow_lt_pow_right (by omega) (by omega)
      rw [if_pos (by omega)]
      exact ih (by omega) (by omega)

theorem sectorSizeOf_power {o : CreateOptions} (valid : validateOptions o = true) :
    ∃ k, k ≤ 22 ∧ sectorSizeOf o = 512 * 2 ^ k ∧ sectorShift (sectorSizeOf o) = k := by
  have power : ∃ k, k ≤ 22 ∧ sectorSizeOf o = 512 * 2 ^ k := by
    simp only [validateOptions, decide_eq_true_eq] at valid
    obtain ⟨-, sector, -, -⟩ := valid
    unfold sectorSizeOf
    split
    next => exact ⟨3, by omega, rfl⟩
    next some =>
      have zero : o.sectorSize &&& (o.sectorSize - 1) = 0 := by
        by_contra more
        exact sector ⟨some, .inr more⟩
      have least : 512 ≤ o.sectorSize.toNat := by
        by_contra less
        exact sector ⟨some, .inl (UInt32.lt_iff_toNat_lt.mpr (Nat.not_le.mp less))⟩
      have words := congrArg UInt32.toNat zero
      rw [UInt32.toNat_and, UInt32.toNat_sub_of_le _ _ (UInt32.le_iff_toNat_le.mpr
        (show (1 : UInt32).toNat ≤ _ from by simp only [UInt32.reduceToNat]; omega))] at words
      obtain ⟨n, size⟩ := (Nat.and_sub_one_eq_zero_iff_isPowerOfTwo (by omega)).mp words
      have nine : 9 ≤ n := by
        by_contra less
        have := Nat.pow_lt_pow_right (a := 2) (by omega) (show n < 9 by omega)
        omega
      have top : n < 32 := by
        have bound := o.sectorSize.toNat_lt
        rw [size] at bound
        exact (Nat.pow_lt_pow_iff_right (by omega)).mp bound
      refine ⟨n - 9, by omega, ?_⟩
      rw [size, show (512 : Nat) = 2 ^ 9 from rfl, ← Nat.pow_add]
      congr 1
      omega
  obtain ⟨k, small, size⟩ := power
  refine ⟨k, small, size, ?_⟩
  rw [size]
  exact sectorShift_grow (Nat.zero_le k) (by omega)

theorem CreatedWith.version {o : CreateOptions} {b : WriteArchive} (made : CreatedWith o b) :
    b.header.version.toUInt32 = o.version := by
  obtain ⟨version, -, -⟩ := validateOptions_ok made.valid
  rw [made.header]
  change o.version.toUInt16.toUInt32 = o.version
  rcases version with one | two
  · rw [one]
    rfl
  · rw [two]
    rfl

theorem wireHeader_length {o : CreateOptions} {b : WriteArchive} (made : CreatedWith o b) (size : Nat) :
    (wireHeader b size).length = headerSizeOf o := by
  rw [wireHeader, headerSizeOf, List.length_append, headerWire_length, made.version]
  split
  · rw [headerExWire_length]
  · rfl

structure Layout (o : CreateOptions) : Prop where
  hashCapacity : hashCapacityOf o ≤ 2 ^ 27
  header : headerSizeOf o ≤ (hashTableOffsetOf o).toNat
  hash : (hashTableOffsetOf o).toNat + hashCapacityOf o * hashEntryWireSize =
    (blockTableOffsetOf o).toNat
  tables : extendedOffsetOf o ≤ firstPayloadOf o
  tablesEx : o.version = versionTwo →
    extendedOffsetOf o + capacityOf o * blockExEntryWireSize ≤ firstPayloadOf o
  payload : firstPayloadOf o ≤ uint32Max

theorem hashTableOffsetOf_toNat (o : CreateOptions) :
    (hashTableOffsetOf o).toNat =
      headerSizeOf o + (if o.version = versionOne ∧ o.attributes ≠ 0 then 16 else 0) := by
  refine UInt32.toNat_ofNat_of_lt' ?_
  have header : headerSizeOf o ≤ 44 := by
    unfold headerSizeOf
    split <;> decide
  simp only [UInt32.size]
  split <;> omega

theorem tabled_size_le {b : WriteArchive} (positive : 0 < b.hashCapacity) :
    b.header.hashTableOffset.toNat + b.hashCapacity * hashEntryWireSize ≤ (tabled b).size := by
  have some : hashTableBytes b ≠ [] := by
    rw [← List.length_pos_iff, hashTableBytes_length]
    simp only [hashEntryWireSize]
    omega
  have hash := File.write_size_of_ne_nil b.disk.file b.header.hashTableOffset.toNat some
  rw [hashTableBytes_length] at hash
  have base : (b.disk.file.write b.header.hashTableOffset.toNat (hashTableBytes b)).size ≤
      (withTables b).size := File.size_le_write _ _ _
  have whole : (withTables b).size ≤ (tabled b).size := by
    unfold tabled
    split
    · exact File.size_le_write _ _ _
    · exact le_rfl
  omega

theorem layout_of_hashCapacity {o : CreateOptions} (hashCapacity : hashCapacityOf o ≤ 2 ^ 27)
    (half : 2 * capacityOf o ≤ hashCapacityOf o) : Layout o := by
  have start := hashTableOffsetOf_toNat o
  have header : headerSizeOf o ≤ 44 := by
    unfold headerSizeOf
    split <;> decide
  have gap : (if o.version = versionOne ∧ o.attributes ≠ 0 then 16 else 0) ≤ 16 := by
    split <;> omega
  have count : (UInt32.ofNat (hashCapacityOf o)).toNat = hashCapacityOf o :=
    UInt32.toNat_ofNat_of_lt' (by simp only [UInt32.size]; omega)
  have hash : (hashTableOffsetOf o).toNat + hashCapacityOf o * hashEntryWireSize =
      (blockTableOffsetOf o).toNat := by
    rw [blockTableOffsetOf, UInt32.toNat_add, UInt32.toNat_mul, count]
    simp only [hashEntryWireSize, UInt32.reduceOfNat, UInt32.reduceToNat]
    omega
  have extended : extendedOffsetOf o =
      (hashTableOffsetOf o).toNat + hashCapacityOf o * 16 + capacityOf o * 16 := by
    rw [extendedOffsetOf, ← hash]
  refine ⟨hashCapacity, by omega, hash, ?_, fun two => ?_, ?_⟩
  · unfold firstPayloadOf
    simp only
    split <;> omega
  · rw [firstPayloadOf, if_pos two]
    omega
  · unfold firstPayloadOf
    simp only [blockExEntryWireSize, uint32Max]
    split <;> omega

theorem layout_of_fits {o : CreateOptions} {b : WriteArchive} (made : CreatedWith o b) (sound : Sound b)
    (fits : (tabled b).size ≤ uint32Max) : Layout o := by
  obtain ⟨k, -, power⟩ := sound.hashCapacity
  have half := sound.capacity
  have positive : 0 < b.hashCapacity := power ▸ Nat.two_pow_pos k
  have room := (tabled_size_le positive).trans fits
  simp only [hashEntryWireSize, uint32Max] at room
  have small : k < 28 := by
    by_contra large
    have : 2 ^ 28 ≤ 2 ^ k := Nat.pow_le_pow_right (by omega) (Nat.not_lt.mp large)
    omega
  rw [made.capacity, made.hashCapacity] at half
  refine layout_of_hashCapacity ?_ half
  rw [← made.hashCapacity, power]
  exact Nat.pow_le_pow_right (by omega) (by omega)

structure Stands (o : CreateOptions) (b : WriteArchive) (file : File) : Prop where
  header : file.Holds 0 (wireHeader b (tabled b).size)
  hash : file.Holds (hashTableOffsetOf o).toNat (hashTableBytes b)
  block : file.Holds (blockTableOffsetOf o).toNat (blockTableBytes b)
  blockEx : o.version = versionTwo → file.Holds (extendedOffsetOf o) (blockExTableBytes b)
  member : ∀ {offset : Nat} {image : Bytes}, firstPayloadOf o ≤ offset →
    b.disk.file.Holds offset image → file.Holds offset image
  size : b.disk.file.size ≤ file.size

theorem newHeaderEx_extended {o : CreateOptions} (layout : Layout o) (two : o.version = versionTwo) :
    (newHeaderEx o).extendedOffset.toNat = extendedOffsetOf o := by
  have tables := layout.tables
  have payload := layout.payload
  simp only [uint32Max] at payload
  rw [newHeaderEx, if_pos two]
  exact UInt64.toNat_ofNat_of_lt' (by simp only [UInt64.size]; omega)

theorem tabled_stands {o : CreateOptions} {b : WriteArchive} (made : CreatedWith o b)
    (layout : Layout o) :
    (tabled b).Holds (hashTableOffsetOf o).toNat (hashTableBytes b) ∧
      (tabled b).Holds (blockTableOffsetOf o).toNat (blockTableBytes b) ∧
      (o.version = versionTwo → (tabled b).Holds (extendedOffsetOf o) (blockExTableBytes b)) ∧
      (∀ {offset : Nat} {image : Bytes}, firstPayloadOf o ≤ offset →
        b.disk.file.Holds offset image → (tabled b).Holds offset image) ∧
      b.disk.file.size ≤ (tabled b).size := by
  have hash := layout.hash
  have tables := layout.tables
  have extended : extendedOffsetOf o = (blockTableOffsetOf o).toNat + capacityOf o * blockEntryWireSize :=
    rfl
  have hashLength := hashTableBytes_length b
  have blockLength := blockTableBytes_length b
  rw [made.hashCapacity] at hashLength
  rw [made.capacity] at blockLength
  have file : withTables b = (b.disk.file.write (hashTableOffsetOf o).toNat (hashTableBytes b)).write
      (blockTableOffsetOf o).toNat (blockTableBytes b) := by
    rw [withTables, made.header]
    rfl
  have hashed : (withTables b).Holds (hashTableOffsetOf o).toNat (hashTableBytes b) := by
    rw [file]
    exact (File.holds_write _ _ _).write (.inl (by omega))
  have blocked : (withTables b).Holds (blockTableOffsetOf o).toNat (blockTableBytes b) := by
    rw [file]
    exact File.holds_write _ _ _
  have kept : ∀ {offset : Nat} {image : Bytes}, firstPayloadOf o ≤ offset →
      b.disk.file.Holds offset image → (withTables b).Holds offset image := by
    intro offset image behind holds
    rw [file]
    exact (holds.write (.inr (by omega))).write (.inr (by omega))
  have grown : b.disk.file.size ≤ (withTables b).size :=
    (File.size_le_write _ _ _).trans (File.size_le_write _ _ _)
  unfold tabled
  rw [made.version, made.headerEx]
  split
  next two =>
    have place := newHeaderEx_extended layout two
    have room := layout.tablesEx two
    have exLength := blockExTableBytes_length b
    rw [made.capacity] at exLength
    rw [place]
    exact ⟨hashed.write (.inl (by omega)), blocked.write (.inl (by omega)),
      fun _ => File.holds_write _ _ _, fun behind holds => (kept behind holds).write (.inr (by omega)),
      grown.trans (File.size_le_write _ _ _)⟩
  next one => exact ⟨hashed, blocked, fun two => absurd two one, kept, grown⟩

theorem closedFile_stands {o : CreateOptions} {b : WriteArchive} (made : CreatedWith o b)
    (layout : Layout o) : Stands o b (closedFile b) := by
  obtain ⟨hashed, blocked, extended, kept, grown⟩ := tabled_stands made layout
  have header := layout.header
  have hash := layout.hash
  have tables := layout.tables
  have later : (blockTableOffsetOf o).toNat ≤ extendedOffsetOf o := Nat.le_add_right _ _
  have length := wireHeader_length made (tabled b).size
  constructor
  case header => exact File.holds_write _ _ _
  case hash => exact hashed.write (.inr (by omega))
  case block => exact blocked.write (.inr (by omega))
  case blockEx => exact fun two => (extended two).write (.inr (by omega))
  case member => exact fun behind holds => (kept behind holds).write (.inr (by omega))
  case size => exact grown.trans (File.size_le_write _ _ _)

-- Where the last table ends; the payloads start at the next multiple of 512.
def tablesEndOf (o : CreateOptions) : Nat :=
  if o.version = versionTwo then extendedOffsetOf o + capacityOf o * blockExEntryWireSize else extendedOffsetOf o

theorem extendedOffsetOf_le_tablesEndOf (o : CreateOptions) : extendedOffsetOf o ≤ tablesEndOf o := by
  unfold tablesEndOf
  split
  next => exact Nat.le_add_right _ _
  next => exact Nat.le_refl _

theorem Layout.tablesEnd {o : CreateOptions} (layout : Layout o) : tablesEndOf o ≤ firstPayloadOf o := by
  unfold tablesEndOf
  split
  next two => exact layout.tablesEx two
  next => exact layout.tables

theorem capacityOf_pos (o : CreateOptions) : 0 < capacityOf o := by
  unfold capacityOf
  split
  next => omega
  next some => exact Nat.pos_of_ne_zero fun zero => some (UInt32.toNat_inj.mp zero)

theorem tabled_size {o : CreateOptions} {b : WriteArchive} (made : CreatedWith o b) (layout : Layout o) :
    (tabled b).size = max b.disk.file.size (tablesEndOf o) := by
  have hash := layout.hash
  have hashLength := hashTableBytes_length b
  have blockLength := blockTableBytes_length b
  rw [made.hashCapacity] at hashLength
  rw [made.capacity] at blockLength
  have extended : extendedOffsetOf o = (blockTableOffsetOf o).toNat + capacityOf o * blockEntryWireSize :=
    rfl
  have some_ := capacityOf_pos o
  have blocks : blockTableBytes b ≠ [] := by
    rw [← List.length_pos_iff, blockLength]
    exact Nat.mul_pos some_ (by decide)
  have first := File.write_size_le b.disk.file (hashTableOffsetOf o).toNat (hashTableBytes b)
  have least := File.size_le_write b.disk.file (hashTableOffsetOf o).toNat (hashTableBytes b)
  have second := File.write_size_of_ne_nil (b.disk.file.write (hashTableOffsetOf o).toNat (hashTableBytes b))
    (blockTableOffsetOf o).toNat blocks
  have file : withTables b = (b.disk.file.write (hashTableOffsetOf o).toNat (hashTableBytes b)).write
      (blockTableOffsetOf o).toNat (blockTableBytes b) := by
    rw [withTables, made.header]
    rfl
  rw [← file] at second
  unfold tabled tablesEndOf
  rw [made.version, made.headerEx]
  split
  next two =>
    have exLength := blockExTableBytes_length b
    rw [made.capacity] at exLength
    have more : blockExTableBytes b ≠ [] := by
      rw [← List.length_pos_iff, exLength]
      exact Nat.mul_pos some_ (by decide)
    rw [newHeaderEx_extended layout two, File.write_size_of_ne_nil _ _ more]
    omega
  next => omega

theorem tabled_size_le_max {o : CreateOptions} {b : WriteArchive} (made : CreatedWith o b) (layout : Layout o) :
    (tabled b).size ≤ max b.disk.file.size (firstPayloadOf o) := by
  have tables := layout.tablesEnd
  rw [tabled_size made layout]
  omega

theorem closedFile_size {o : CreateOptions} {b : WriteArchive} (made : CreatedWith o b) (layout : Layout o) :
    (closedFile b).size = max b.disk.file.size (tablesEndOf o) := by
  have header := layout.header
  have hash := layout.hash
  have length := wireHeader_length made (tabled b).size
  have reserved := extendedOffsetOf_le_tablesEndOf o
  have extended : extendedOffsetOf o = (blockTableOffsetOf o).toNat + capacityOf o * blockEntryWireSize :=
    rfl
  have size := tabled_size made layout
  have most := File.write_size_le (tabled b) 0 (wireHeader b (tabled b).size)
  have least := File.size_le_write (tabled b) 0 (wireHeader b (tabled b).size)
  unfold closedFile
  omega

/-- Header, tables and first payload follow each other, and the 32-bit fields say where. -/
structure Arranged (o : CreateOptions) (a : WriteArchive) : Prop where
  header : a.header.headerSize.toNat ≤ a.header.hashTableOffset.toNat
  hash : a.header.hashTableOffset.toNat + a.hashCapacity * hashEntryWireSize ≤
    a.header.blockTableOffset.toNat
  block : a.header.blockTableOffset.toNat + a.capacity * blockEntryWireSize ≤ a.disk.pos
  extended : o.version = versionTwo →
    a.header.blockTableOffset.toNat + a.capacity * blockEntryWireSize ≤
        a.headerEx.extendedOffset.toNat ∧
      a.headerEx.extendedOffset.toNat + a.capacity * blockExEntryWireSize ≤ a.disk.pos
  hashOffset : a.header.hashTableOffset.toNat =
    headerSizeOf o + (if o.version = versionOne ∧ o.attributes ≠ 0 then 16 else 0)
  blockOffset : a.header.blockTableOffset.toNat =
    a.header.hashTableOffset.toNat + a.hashCapacity * hashEntryWireSize
  counts : a.header.hashTableCount.toNat = a.hashCapacity ∧
    a.header.blockTableCount.toNat = a.capacity
  power : ∃ k, a.hashCapacity = 2 ^ k
  half : 2 * a.capacity ≤ a.hashCapacity

theorem nextPowerTwo_grow_le {value fuel result m : Nat} (below : value ≤ 2 ^ m) {k : Nat}
    (power : result = 2 ^ k) (small : k ≤ m) : nextPowerTwo.grow value fuel result ≤ 2 ^ m := by
  have under : result ≤ 2 ^ m := power ▸ Nat.pow_le_pow_right (by omega) small
  induction fuel generalizing result k with
  | zero => exact under
  | succ fuel ih =>
    rw [nextPowerTwo.grow]
    split
    next again =>
      -- A power of two below `value` is below `2 ^ m`, so doubling it does not pass that.
      have next : k + 1 ≤ m := by
        rcases Nat.lt_or_ge k m with less | same
        · exact less
        · have : k = m := Nat.le_antisymm small same
          subst this
          omega
      have doubled : result * 2 = 2 ^ (k + 1) := by rw [power, pow_succ]
      exact ih doubled next (doubled ▸ Nat.pow_le_pow_right (by omega) next)
    next stop => exact under

theorem hashCapacityOf_le {o : CreateOptions} (few : capacityOf o ≤ 2 ^ 26) :
    hashCapacityOf o ≤ 2 ^ 27 :=
  nextPowerTwo_grow_le (show capacityOf o * 2 ≤ 2 ^ 27 by omega) (show 4 = 2 ^ 2 from rfl) (by omega)

theorem capacityOf_le_iff (o : CreateOptions) : capacityOf o ≤ 2 ^ 26 ↔ o.maxFiles ≤ 0x4000000 := by
  rw [UInt32.le_iff_toNat_le, capacityOf]
  split
  next default =>
    rw [default]
    decide
  next given => rfl

theorem blockTableOffsetOf_wraps {o : CreateOptions} {k : Nat} (large : 28 ≤ k)
    (power : hashCapacityOf o = 2 ^ k) : blockTableOffsetOf o = hashTableOffsetOf o := by
  obtain ⟨j, rfl⟩ := Nat.exists_eq_add_of_le large
  rw [blockTableOffsetOf, power, ← UInt32.ofNat_mul, show 2 ^ (28 + j) * hashEntryWireSize = 2 ^ 32 * 2 ^ j by
    rw [pow_add, hashEntryWireSize]; ring]
  rw [UInt32.ofNat_mul]
  simp

theorem create_arranged {o : CreateOptions} {plan : Faults} {a : WriteArchive}
    (created : archiveCreate o plan = .ok a) : Arranged o a ↔ o.maxFiles ≤ 0x4000000 := by
  obtain ⟨valid, disk, reserved, rfl⟩ := archiveCreate_ok created
  obtain ⟨-, pos, -, -⟩ := reserveTables_ok reserved
  have sound := newArchive_sound valid disk
  obtain ⟨k, bound, power⟩ := sound.hashCapacity
  have half : 2 * capacityOf o ≤ hashCapacityOf o := sound.capacity
  change hashCapacityOf o = 2 ^ k at power
  rw [← capacityOf_le_iff]
  constructor
  case mp =>
    intro arranged
    by_contra many
    have large : 28 ≤ k := by
      by_contra small
      have : 2 ^ k ≤ 2 ^ 27 := Nat.pow_le_pow_right (by omega) (by omega)
      omega
    have hash : (hashTableOffsetOf o).toNat + hashCapacityOf o * hashEntryWireSize ≤
        (blockTableOffsetOf o).toNat := arranged.hash
    rw [blockTableOffsetOf_wraps large power, hashEntryWireSize] at hash
    omega
  case mpr =>
    intro few
    have layout := layout_of_hashCapacity (hashCapacityOf_le few) half
    have limit := layout.hashCapacity
    have header : (UInt32.ofNat (headerSizeOf o)).toNat = headerSizeOf o := by
      unfold headerSizeOf
      split <;> rfl
    have counts : (UInt32.ofNat (hashCapacityOf o)).toNat = hashCapacityOf o ∧
        (UInt32.ofNat (capacityOf o)).toNat = capacityOf o :=
      ⟨UInt32.toNat_ofNat_of_lt' (by simp only [UInt32.size]; omega),
        UInt32.toNat_ofNat_of_lt' (by simp only [UInt32.size]; omega)⟩
    have tables : (blockTableOffsetOf o).toNat + capacityOf o * blockEntryWireSize ≤ firstPayloadOf o :=
      layout.tables
    constructor
    case header => exact header.le.trans layout.header
    case hash => exact layout.hash.le
    case block => exact tables.trans pos.ge
    case extended =>
      intro two
      have extended : (newArchive o disk).headerEx.extendedOffset.toNat = extendedOffsetOf o :=
        newHeaderEx_extended layout two
      rw [extended]
      exact ⟨le_rfl, (layout.tablesEx two).trans pos.ge⟩
    case hashOffset => exact hashTableOffsetOf_toNat o
    case blockOffset => exact layout.hash.symm
    case counts => exact counts
    case power => exact ⟨k, power⟩
    case half => exact half

theorem default_create_arranged :
    ∃ a, archiveCreate CreateOptions.default Faults.healthy = .ok a ∧
      (Arranged CreateOptions.default a ↔ (1024 : UInt32) ≤ 0x4000000) :=
  have created := archiveCreate_calm (by decide) (by decide)
  ⟨_, created, create_arranged created⟩

-- One member more than 2^26.
def crowded : CreateOptions := { CreateOptions.default with maxFiles := 0x4000001 }

theorem crowded_not_arranged :
    ∃ a, archiveCreate crowded Faults.healthy = .ok a ∧ validateOptions crowded = true ∧
      ¬ Arranged crowded a := by
  have created := @archiveCreate_calm crowded (by decide) (by decide)
  have wraps : ¬ (hashTableOffsetOf crowded).toNat + hashCapacityOf crowded * hashEntryWireSize ≤
      (blockTableOffsetOf crowded).toNat := by decide
  exact ⟨_, created, by decide, fun arranged => wraps arranged.hash⟩

end Writing

end LibMpq
