import LibMpq.ReaderClosed
import LibMpq.ReaderNames
import LibMpq.WriterServing

set_option autoImplicit false

namespace LibMpq

open Effect Bits

namespace Reading

section reads

variable {codecs : Codecs} {a b : ReadArchive} {number : Nat} {x : Bytes}
  {checksums : Option (Nat → UInt32)}

def Excused (a : ReadArchive) (number : Nat) : Prop :=
  isMember a attributesName number = true ∨ isMember a signatureName number = true

theorem verifyData_excused {load : Op Error ReadArchive Attributes.View} (excused : Excused a number)
    (spares : Spares number a b) {data : Bytes} (length : data.length = memberSize a number) :
    verifyData load number data b = .ok () b := by
  have size : ¬ (entry b number).unpackedSize.toNat ≠ data.length := by
    rw [length, memberSize, spares.own_size]
    exact not_not.mpr rfl
  have excused : isMember b attributesName number = true ∨ isMember b signatureName number = true := by
    rwa [spares.toSameArchive.isMember_eq, spares.toSameArchive.isMember_eq]
  unfold verifyData
  rw [bind_of_ok (get_run b), bind_of_ok (failIf_false size _ _), if_pos excused, pure_run]

def Delivers (codecs : Codecs) (a : ReadArchive) (number : Nat) (x : Bytes) : Prop :=
  ∀ buffer : Bytes, x.length ≤ buffer.length → ∃ data,
    verdict (fileRead codecs number buffer a) = .ok data ∧ data.transferred = x.length ∧
      data.buffer.take x.length = x

theorem Intact.delivers (handle : Handle a) (quiet : a.plan = Faults.healthy)
    (intact : Intact codecs a number x b checksums) (member : number < a.files)
    (size : memberSize a number = x.length) (countable : Countable a number)
    (attests : Excused a number ∨ attested codecs a number x = true) : Delivers codecs a number x := by
  intro buffer room
  rw [← size] at room
  by_cases excused : Excused a number
  · obtain ⟨filled, bytes, -, run⟩ := readMember_loaded handle.blockSize_pos quiet intact.loaded room
    have bytes := bytes countable
    rw [intact.content, size] at bytes
    have spares := trans_of (Spares number) ((offsetsAcquire_spares none).ok intact.loaded.acquired)
      (offsetsRelease_spares b)
    have length : (filled.take x.length).length = memberSize a number := by rw [bytes, size]
    have checked := @verifyData_excused _ _ _ (attributesLoad codecs) excused spares _ length
    rw [if_pos ⟨countable, intact.agrees⟩, size] at run
    refine ⟨⟨filled, x.length⟩, ?_, rfl, bytes⟩
    unfold fileRead fileReadWith
    rw [bind_of_ok run]
    cases lossyUpTo b number (countFileBlocks a number) with
    | true => rfl
    | false =>
      simp only [Bool.false_eq_true, if_false]
      rw [bind_of_ok checked]
      rfl
  · have attested := attests.resolve_left excused
    obtain ⟨notAttributes, notSignature⟩ := not_or.mp excused
    have ordinary : Ordinary a number :=
      ⟨member, Bool.eq_false_iff.mpr notAttributes, Bool.eq_false_iff.mpr notSignature⟩
    obtain ⟨filled, bytes, read⟩ := fileRead_loaded handle quiet ordinary intact.loaded room
    have bytes := bytes countable
    rw [intact.content, size] at bytes
    refine ⟨⟨filled, x.length⟩, ?_, rfl, bytes⟩
    rw [read, intact.content, attested, Bool.or_true, size, if_pos ⟨countable, intact.agrees, rfl⟩]

end reads

theorem fileRead_readMember {codecs : Codecs} {a : ReadArchive} {number : Nat} {buffer : Bytes} {data : FileData}
    (read : verdict (fileRead codecs number buffer a) = .ok data) :
    ∃ s c, readMember codecs number buffer a = .ok s c := by
  cases run : readMember codecs number buffer a with
  | error e c =>
    unfold fileRead fileReadWith at read
    rw [bind_of_error run] at read
    cases read
  | ok s c => exact ⟨s, c, rfl⟩

section closed

variable {codecs : Codecs} {o : CreateOptions} {b : WriteArchive} {file : File} {a : ReadArchive}
  {members : List (StoredMember codecs)} (opened : Opened b file a) (made : Writing.CreatedWith o b)
  (sound : Writing.Sound b) (stands : Writing.Stands o b file)
  (contains : Writing.Contains b (Writing.firstPayloadOf o) members)
include opened made sound stands contains

theorem Opened.placed_member {i : Nat} {m : StoredMember codecs} (mem : members[i]? = some m)
    (exclusive : ¬ (has m.flags Flag.compress = true ∧ has m.flags Flag.implode = true))
    (inside : m.image = [] → (b.block i).offset.toNat ≤ file.size) : Placed a i m := by
  have holding := contains.member i m mem
  have below : i < b.nextBlock := contains.count ▸ (List.getElem?_eq_some_iff.mp mem).1
  have holds := stands.member holding.above holding.holds
  refine opened.placed made sound below (booked_of_holding holding) holds ?_ exclusive
  by_cases empty : m.image = []
  · rw [empty]
    exact inside empty
  · exact holds.1 empty

omit made sound stands contains in
theorem Opened.delivers (handle : Handle a) {i : Nat} {m : StoredMember codecs}
    (placed : Placed a i m) (some_ : m.content ≠ [] ∨ has m.flags Flag.single = true)
    (plain : has m.flags Flag.encrypted = false) (attests : Excused a i ∨ attested codecs a i m.content = true)
    (reportable : Reportable m)
    (countable : has m.flags Flag.single = true ∨ m.content.length + m.sectorSize ≤ 2 ^ 32) :
    Delivers codecs a i m.content := by
  have countable := placed.countable_iff.mpr countable
  obtain ⟨c, checksums, intact⟩ := placed.intact opened.plan countable reportable some_ plain (opened.cache i)
  exact intact.delivers handle opened.plan placed.member placed.size_eq countable attests

omit opened sound stands contains in
theorem Placed.unreadable {i : Nat} {m : StoredMember codecs} (placed : Placed a i m)
    (unit : m.sectorSize = b.sectorSize) (some_ : m.content ≠ [])
    (not : ¬ (Reportable m ∧ (has m.flags Flag.single = true ∨ m.content.length + m.sectorSize ≤ 2 ^ 32))) :
    countFileBlocks a i ≤ 1 ∧ 2 ^ 31 ≤ m.content.length := by
  have positive : 0 < a.blockSize.toNat := by
    rw [placed.sectorSize]
    exact placed.positive
  have sector : m.sectorSize ≤ 2 ^ 31 := by
    rw [unit]
    exact sector_le made
  by_cases countable : Countable a i
  case neg =>
    have wraps := mt placed.countable_iff.mpr countable
    rw [countFileBlocks_overflow positive countable]
    exact ⟨Nat.zero_le 1, by have := not_or.mp wraps; omega⟩
  have whole := placed.countable_iff.mp countable
  -- Sectors end at 2 GiB, so a larger one would be the only sector of the member.
  have large : 2 ^ 31 ≤ m.sectorSize ∧ 2 ^ 31 ≤ m.content.length := by
    have unreported : ¬ Reportable m := fun reportable => not ⟨reportable, whole⟩
    unfold Reportable at unreported
    omega
  have one : m.count = 1 := by
    rcases whole with single | whole
    · exact m.single single
    · have tight := m.tight some_
      have least := m.positive
      by_contra other
      have two : 1 * m.sectorSize ≤ (m.count - 1) * m.sectorSize := Nat.mul_le_mul_right _ (by omega)
      omega
  rw [placed.count_eq countable (.inl some_), one]
  exact ⟨Nat.le_refl 1, large.2⟩

omit opened sound stands contains in
theorem Placed.readable {i : Nat} {m : StoredMember codecs} (placed : Placed a i m)
    (unit : m.sectorSize = b.sectorSize) (some_ : m.content ≠ []) {buffer : Bytes}
    {data : FileData} (read : verdict (fileRead codecs i buffer a) = .ok data) :
    Reportable m ∧ (has m.flags Flag.single = true ∨ m.content.length + m.sectorSize ≤ 2 ^ 32) := by
  by_contra not
  obtain ⟨few, large⟩ := placed.unreadable made unit some_ not
  obtain ⟨t, c, run⟩ := fileRead_readMember read
  have small := readMember_small run
  rw [placed.size_eq] at small
  have most := Nat.mul_le_mul_right (2 ^ 31 - 1) few
  omega

omit made sound stands contains in
theorem attributesLoad_missing {e : Error} (missing : fileNumber a attributesName = .error e) :
    ∃ e', verdict (attributesLoad codecs a) = .error e' := by
  unfold attributesLoad
  rw [bind_of_ok (get_run a), opened.attributes, opened.attributesError]
  simp only
  rw [missing]
  simp only [rememberError]
  split <;> exact ⟨e, rfl⟩

omit opened made sound stands contains in
theorem listfile_not_attributes :
    (fileHash listfileName).hash2 ≠ (fileHash attributesName).hash2 := by
  decide

theorem attested_closed (layout : Writing.Layout o) {count : Nat}
    (extras : ∀ i m, count ≤ i → members[i]? = some m →
      (b.names i = listfileName ∧ m.flags = Flag.single) ∨
        (b.names i = attributesName ∧ m.flags = Flag.compress ∧
          Writing.Describes o b members i m.content))
    (own : ∀ n, fileNumber a attributesName = .ok n → count ≤ n) {j : Nat} {m : StoredMember codecs}
    (mem : members[j]? = some m) (before : j < count)
    (unsigned : b.signature = true → Writing.sameIdentity (b.names j) signatureName = false) :
    attested codecs a j m.content = true := by
  have below : j < b.nextBlock := contains.count ▸ (List.getElem?_eq_some_iff.mp mem).1
  unfold attested
  cases found : fileNumber a attributesName with
  | error e =>
    obtain ⟨e', failed⟩ := @attributesLoad_missing codecs _ _ _ opened _ found
    rw [failed]
  | ok n =>
    obtain ⟨inside, identity, -⟩ := fileNumber_ok opened contains sound found
    obtain ⟨r, row⟩ : ∃ r, members[n]? = some r :=
      ⟨_, List.getElem?_eq_getElem (contains.count ▸ inside)⟩
    rcases extras n r (own n found) row with ⟨name, -⟩ | ⟨name, flags, describes⟩
    · rw [name] at identity
      exact absurd identity listfile_not_attributes
    · have content : r.content ≠ [] := by
        obtain ⟨rows, payload, -⟩ := describes
        rw [payload, ← List.length_pos_iff, Attributes.payload_length]
        omega
      have placed := opened.placed_member made sound stands contains row (by rw [flags]; decide)
        fun empty => absurd empty (r.image_ne_nil content)
      obtain ⟨rows, view, loaded, shows, room, recorded⟩ := load_described opened made sound
        layout placed found flags inside describes
      have earlier : j < n := before.trans_le (own n found)
      rw [loaded, (opened.entry_eq sound below).1]
      exact matchesAttributes_of_row shows (earlier.trans room) earlier.ne
        (recorded j m earlier mem unsigned)

end closed

end Reading

namespace Writing

structure Sole {codecs : Codecs} (o : CreateOptions) (name : Bytes) (b : WriteArchive) (file : File)
    (members : List (StoredMember codecs)) (m : StoredMember codecs) : Prop where
  made : CreatedWith o b
  sound : Sound b
  contains : Contains b (firstPayloadOf o) members
  layout : Layout o
  stands : Stands o b file
  first : members[0]? = some m
  place : (b.block 0).offset.toNat = firstPayloadOf o
  size : file.size = max b.disk.file.size (tablesEndOf o)
  reach : has o.flags createListfile = true ∨ o.attributes ≠ 0 → firstPayloadOf o < b.disk.file.size
  named : b.names 0 = name
  home : ∀ home, home = (fileHash name).hash1.toNat % b.hashCapacity →
    (b.hash home).hashA = (fileHash name).hash2 ∧ (b.hash home).hashB = (fileHash name).hash3 ∧
      (b.hash home).blockTableIndex.toNat = 0
  exclusive : ¬ (has m.flags Flag.compress = true ∧ has m.flags Flag.implode = true)
  unsigned : b.signature = false
  extras : ∀ i m, 1 ≤ i → members[i]? = some m →
    (b.names i = listfileName ∧ m.flags = Flag.single) ∨
      (b.names i = attributesName ∧ m.flags = Flag.compress ∧ Describes o b members i m.content)

section sole

variable {codecs : Codecs} {o : CreateOptions} {plan : Faults} {start a a' : WriteArchive}
  {name x : Bytes} {options : FileOptions}

theorem freeSlot_vacant {a : WriteArchive} (sound : Sound a) (vacant : ∀ pos, taken a pos = false)
    {hash1 : UInt32} {pos : Nat} (found : freeSlot a hash1 a.hashCapacity 0 = some pos) :
    pos = hash1.toNat % a.hashCapacity := by
  obtain ⟨k, small, power⟩ := sound.hashCapacity
  obtain ⟨fuel, positive⟩ : ∃ fuel, a.hashCapacity = fuel + 1 :=
    ⟨a.hashCapacity - 1, by have := Nat.two_pow_pos k; omega⟩
  have free : (a.hash (slotPosition a hash1 0)).blockTableIndex = hashFree := by
    simpa [taken] using vacant (slotPosition a hash1 0)
  have first : freeSlot a hash1 (fuel + 1) 0 = some (slotPosition a hash1 0) := by
    rw [freeSlot, if_pos free]
  rw [positive, first, Option.some.injEq] at found
  rw [← found, slotPosition_eq small power hash1 (by decide), Probing.slot, Nat.add_zero]

theorem not_skipped {m : StoredMember codecs} {b : WriteArchive} (skipped : Skipped start a x m)
    (small : x.length ≤ uint32Max) (begins : start.disk.pos = firstPayloadOf o) (layout : Layout o)
    (grows : a.disk.file.size ≤ (tabled b).size) (fits : (tabled b).size ≤ uint32Max) : False := by
  have payload := layout.payload
  rcases skipped.large with place | image | large
  · omega
  · have some : m.image ≠ [] := by
      rw [← List.length_pos_iff]
      omega
    have inside := skipped.holds.1 some
    omega
  · omega

theorem sole_of_closed (lossless : codecs.Lossless) (created : archiveCreate o plan = .ok start)
    (known : options.flags &&& ~~~storageFlags = 0) (masks : LosslessMasks options)
    (calm : has options.flags Flag.encrypted = true → plan = Faults.healthy)
    (small : x.length ≤ uint32Max) (added : fileAdd codecs name x options start = .ok () a)
    (closed : archiveClose codecs a = .ok () a') :
    ∃ (b : WriteArchive) (members : List (StoredMember codecs)) (m : StoredMember codecs),
      Sole o name b a'.disk.file members m ∧ m.content = x ∧ m.key = fileKey name ∧
        m.flags = (effectiveOptions start x.length options).flags ∧
        (has o.flags createListfile = false → o.attributes = 0 → b.disk.file = a.disk.file) := by
  obtain ⟨made, sound, idle, begins, -, healthy, vacant, contains⟩ := @archiveCreate_contains codecs _ _ _ created
  obtain ⟨members, grown, current, -, outcome⟩ := fileAdd_grown lossless sound contains known masks
    (fun encrypted => healthy (calm encrypted)) idle added
  have made₁ : MadeWith o a :=
    ⟨grown.made o made.toCreatedWith, grown.signed.1.trans made.signature,
      grown.signed.2.trans made.strongSignature⟩
  obtain ⟨b, members', done, file⟩ := archiveClose_ok lossless made₁ grown.sound grown.contains closed
  have made₂ := done.grown.made o made₁.toCreatedWith
  have sound₂ := done.grown.sound
  have layout := layout_of_fits made₂ sound₂ done.fits
  have stands := closedFile_stands made₂ layout
  have grows : a.disk.file.size ≤ (tabled b).size :=
    done.grown.agrees.size.trans (tabled_stands made₂ layout).2.2.2.2
  rcases outcome with ⟨m, new, rfl⟩ | ⟨m, skipped, -⟩
  · obtain ⟨rest, rfl⟩ := done.grown.grows
    have first : ([] ++ [m] ++ rest)[0]? = some m := rfl
    have none : start.nextBlock = 0 := contains.count.symm
    obtain ⟨pos, found, hash⟩ := new.hash
    obtain rfl := freeSlot_vacant sound vacant found
    have name₀ : b.names 0 = name := by
      rw [done.grown.names 0 Nat.one_pos, new.names, none]
      exact storeAt_self _ _ _
    refine ⟨b, [] ++ [m] ++ rest, m, ?_, new.content, ?_, new.flags, done.quiet⟩
    · constructor
      case made => exact made₂
      case sound => exact sound₂
      case contains => exact done.grown.contains
      case layout => exact layout
      case stands => rwa [file]
      case first => exact first
      case place =>
        have holding := grown.contains.member 0 m rfl
        have above := holding.above
        have below := holding.below
        have stop := new.stop
        rw [done.grown.block 0 Nat.one_pos]
        omega
      case size => rw [file, closedFile_size made₂ layout]
      case reach =>
        refine fun internal => done.reach internal ?_
        rw [new.nextBlock]
        exact Nat.succ_pos _
      case named => exact name₀
      case home =>
        intro home here
        have same : b.hashCapacity = start.hashCapacity := by rw [made₂.hashCapacity, made.hashCapacity]
        rw [same] at here
        have used := storeAt_self start.hash home
          { hashA := (fileHash name).hash2, hashB := (fileHash name).hash3, locale := options.locale
            platform := options.platform, blockTableIndex := UInt32.ofNat start.nextBlock }
        nth_rewrite 1 [here] at used
        rw [← hash] at used
        have taken : taken a home = true := by
          rw [Writing.taken, used, none]
          rfl
        rw [done.grown.hash home taken, used, none]
        exact ⟨rfl, rfl, rfl⟩
      case exclusive =>
        obtain ⟨w, c, s, s', prepared, -⟩ := fileAdd_ok added
        obtain ⟨-, -, -, exclusive, -⟩ := prepareWriter_steps prepared
        rw [new.flags, effectiveOptions_has _ _ _ (by decide), effectiveOptions_has _ _ _ (by decide)]
        exact fun both => exclusive ⟨both.2, both.1⟩
      case unsigned => exact done.grown.signed.1.trans made₁.signature
      case extras => exact fun i m' past mem => done.extras i m' past mem
    · rw [(done.grown.contains.member 0 m first).key, name₀]
  · exact absurd (not_skipped skipped small begins layout grows done.fits) not_false

end sole

end Writing

namespace Reading

open Writing (Sole CreatedWith LosslessMasks)

section sole

variable {codecs : Codecs} {o : CreateOptions} {name : Bytes} {b : WriteArchive} {file : File}
  {members : List (StoredMember codecs)} {m : StoredMember codecs} {archiveOffset : Int}

theorem openPath_sole (sole : Sole o name b file members m)
    (start : archiveOffset = 0 ∨ archiveOffset = -1) :
    ∃ a, openPath file archiveOffset Faults.healthy = .ok a Faults.healthy ∧ Opened b file a ∧ Handle a ∧
      fileNumber a name = .ok 0 := by
  obtain ⟨a, run, opened⟩ := openSource_closed sole.made sole.sound sole.contains sole.layout sole.stands
    start
  have some : 0 < b.nextBlock := by
    rw [← sole.contains.count]
    exact (List.getElem?_eq_some_iff.mp sole.first).1
  refine ⟨a, ?_, opened, openSource_handle run,
    fileNumber_home opened sole.contains sole.sound some sole.home⟩
  rw [openPath, bind_of_ok (request_healthy _), bind_of_ok (request_healthy _), run]

variable {a : ReadArchive}

theorem sole_attests (sole : Sole o name b file members m)
    (opened : Opened b file a) : Excused a 0 ∨ attested codecs a 0 m.content = true := by
  by_cases own : isMember a attributesName 0 = true
  · exact .inl (.inl own)
  refine .inr (attested_closed opened sole.made sole.sound sole.stands sole.contains sole.layout
    sole.extras (fun n found => ?_) sole.first Nat.one_pos fun signed => ?_)
  · by_contra below
    obtain rfl : n = 0 := by omega
    refine own ?_
    rw [isMember, found]
    exact decide_eq_true rfl
  · rw [sole.unsigned] at signed
    cases signed

theorem sole_sectorSize (sole : Sole o name b file members m) : m.sectorSize = Writing.sectorSizeOf o :=
  (sole.contains.member 0 m sole.first).sectorSize.trans sole.made.sectorSize

theorem sole_placed (sole : Sole o name b file members m) (opened : Opened b file a) (some_ : m.content ≠ []) :
    Placed a 0 m :=
  opened.placed_member sole.made sole.sound sole.stands sole.contains sole.first
    sole.exclusive fun empty => absurd empty (m.image_ne_nil some_)

/-- Opening the file, looking the name up and reading the member gives exactly these bytes. -/
def ReadsBack (codecs : Codecs) (file : File) (archiveOffset : Int) (name x : Bytes) : Prop :=
  ∃ a n, openPath file archiveOffset Faults.healthy = .ok a Faults.healthy ∧ fileNumber a name = .ok n ∧
    Delivers codecs a n x

/-- The reader adds the sector size to the size of a member in 32 bits, and the size of a
sector in 31. -/
def Readable (o : CreateOptions) (options : FileOptions) (x : Bytes) : Prop :=
  min (Writing.sectorSizeOf o) x.length < 2 ^ 31 ∧
    (has options.flags Flag.single = true ∨ x.length + Writing.sectorSizeOf o ≤ 2 ^ 32)

theorem readsBack_sole (sole : Sole o name b file members m)
    (some_ : m.content ≠ []) (plain : has m.flags Flag.encrypted = false)
    (offset : archiveOffset = 0 ∨ archiveOffset = -1) :
    ReadsBack codecs file archiveOffset name m.content ↔
      Reportable m ∧ (has m.flags Flag.single = true ∨ m.content.length + m.sectorSize ≤ 2 ^ 32) := by
  obtain ⟨r, run, opened, handle, found⟩ := openPath_sole sole offset
  constructor
  · rintro ⟨r', n, run', found', delivers⟩
    rw [run] at run'
    cases run'
    rw [found] at found'
    cases found'
    obtain ⟨data, read, -⟩ := delivers m.content (Nat.le_refl _)
    have unit := (sole.contains.member 0 m sole.first).sectorSize
    exact (sole_placed sole opened some_).readable sole.made unit some_ read
  · rintro ⟨reportable, countable⟩
    exact ⟨r, 0, run, found, opened.delivers handle (sole_placed sole opened some_) (.inl some_) plain
      (sole_attests sole opened) reportable countable⟩

end sole

theorem round_trip {codecs : Codecs} (lossless : codecs.Lossless)
    {o : CreateOptions} {plan : Faults} {start a closed : WriteArchive} {name x : Bytes}
    {options : FileOptions} {archiveOffset : Int}
    (created : Writing.archiveCreate o plan = .ok start) (some_ : x ≠ []) (small : x.length < 2 ^ 32)
    (known : options.flags &&& ~~~storageFlags = 0) (plain : has options.flags Flag.encrypted = false)
    (masks : LosslessMasks options) (added : Writing.fileAdd codecs name x options start = .ok () a)
    (finished : Writing.archiveClose codecs a = .ok () closed)
    (offset : archiveOffset = 0 ∨ archiveOffset = -1) :
    ReadsBack codecs closed.disk.file archiveOffset name x ↔ Readable o options x := by
  obtain ⟨b, members, m, sole, rfl, -, flags, -⟩ := Writing.sole_of_closed lossless created known masks
    (fun encrypted => absurd encrypted (by rw [plain]; decide)) (Nat.le_of_lt_succ small) added finished
  rw [← Writing.effectiveOptions_has start _ options (by decide), ← flags] at plain
  rw [readsBack_sole sole some_ plain offset, Readable, Reportable, sole_sectorSize sole, flags,
    Writing.effectiveOptions_has _ _ _ (by decide)]

end Reading

namespace Writing

section new

variable {codecs : Codecs} {o : CreateOptions} {name x : Bytes} {options : FileOptions}

-- What is left to ask of the options of a first member.
theorem addable_new (valid : validateOptions o = true) (noRows : o.attributes = 0)
    (noMarker : has options.flags Flag.deleteMarker = false)
    (methods : ∀ b, checkOptions (created o) options b = .ok () b)
    (packs : Packs codecs (created o) (effectiveOptions (created o) x.length options))
    (plain : has (effectiveOptions (created o) x.length options).compressionNext Compression.waveMasks = false)
    (multi : has options.flags Flag.single = false)
    (fits : firstPayloadOf o + storedBound (created o) x.length
      (effectiveOptions (created o) x.length options).flags ≤ uint32Max) :
    Addable codecs (created o) name x options := by
  have sound := newArchive_sound valid (reserved o)
  obtain ⟨fuel, positive⟩ : ∃ fuel, hashCapacityOf o = fuel + 1 := by
    obtain ⟨k, -, power⟩ := sound.hashCapacity
    have power : hashCapacityOf o = 2 ^ k := power
    exact ⟨hashCapacityOf o - 1, by have := Nat.two_pow_pos k; omega⟩
  constructor
  case toAcceptable =>
    constructor
    case idle => rfl
    case notSignature => exact fun signed => nomatch signed
    case noMarker => exact noMarker
    case room => exact capacityOf_pos o
    case methods => exact methods
    case unique =>
      change duplicate (created o) name options (hashCapacityOf o) 0 = false
      rw [positive]
      rfl
    case sectorSize => exact sound.sectorSize.ne'
  case sound => exact sound
  case calm => rfl
  case reserves =>
    have none_ : ¬ (created o).attributesFlags ≠ 0 := not_not.mpr noRows
    refine ⟨none, ?_⟩
    rw [reserveAttributes, bind_of_ok (get_run _), if_neg none_]
    rfl
  case packs => exact packs
  case plain => exact plain
  case unit => exact fun single => Bool.noConfusion (multi.symm.trans single)
  case place =>
    change firstPayloadOf o ≤ _
    omega
  case fits => omega

theorem member_runs (lossless : codecs.Lossless) (valid : validateOptions o = true) (layout : Layout o)
    (noList : has o.flags createListfile = false) (noRows : o.attributes = 0)
    (known : options.flags &&& ~~~storageFlags = 0)
    (masks : LosslessMasks options) (addable : Addable codecs (created o) name x options)
    (fits : firstPayloadOf o + storedBound (created o) x.length
      (effectiveOptions (created o) x.length options).flags ≤ uint32Max) :
    ∃ a closed, fileAdd codecs name x options (created o) = .ok () a ∧
      archiveClose codecs a = .ok () closed := by
  obtain ⟨a, total, added, calm, limited, size, -⟩ := fileAdd_calm addable
  have create := @archiveCreate_calm o valid fun _ => layout.payload
  obtain ⟨made, sound, idle, -, -, healthy, -, contains⟩ := @archiveCreate_contains codecs _ _ _ create
  obtain ⟨members, grown, current, -, -⟩ := fileAdd_grown lossless sound contains known masks
    (fun _ => healthy rfl) idle added
  have made' := grown.made o made.toCreatedWith
  have empty : (created o).disk.file.size ≤ firstPayloadOf o := by
    refine (File.write_size_le _ _ _).trans ?_
    rw [Bytes.zeros_length]
    change max 0 _ ≤ _
    omega
  have place : (created o).disk.pos = firstPayloadOf o := rfl
  have small : (tabled a).size ≤ uint32Max := by
    have tabled := tabled_size_le_max made' layout
    omega
  have closes := @archiveClose_plain codecs a calm current (by rw [made'.flags]; exact noList)
    (made'.attributesFlags.trans noRows) (grown.signed.1.trans made.signature)
    (grown.signed.2.trans made.strongSignature) small
  cases run : archiveClose codecs a with
  | ok _ closed => exact ⟨a, closed, added, run⟩
  | error e closed =>
    rw [run] at closes
    cases closes

-- Raw storage, encrypted or not.
def rawOptions (encrypted : Bool) : FileOptions :=
  { FileOptions.default with flags := if encrypted then Flag.encrypted else 0 }

theorem raw_member_runs (lossless : codecs.Lossless) (valid : validateOptions o = true) (layout : Layout o)
    (noList : has o.flags createListfile = false) (noRows : o.attributes = 0)
    (fits : firstPayloadOf o + x.length ≤ uint32Max) (encrypted : Bool) :
    ∃ a closed, fileAdd codecs name x (rawOptions encrypted) (created o) = .ok () a ∧
      archiveClose codecs a = .ok () closed := by
  have kept : ∀ bits, bits &&& Flag.sectorCrc = 0 →
      has (effectiveOptions (created o) x.length (rawOptions encrypted)).flags bits =
        has (rawOptions encrypted).flags bits :=
    fun bits other => effectiveOptions_has _ _ _ other
  have untabled : sectorTable (effectiveOptions (created o) x.length (rawOptions encrypted)).flags = false := by
    rw [sectorTable, kept _ (by decide), kept _ (by decide), kept _ (by decide)]
    cases encrypted <;> rfl
  have bound : storedBound (created o) x.length (effectiveOptions (created o) x.length (rawOptions encrypted)).flags =
      x.length := by
    rw [storedBound, untabled]
    rfl
  have plain : has (effectiveOptions (created o) x.length (rawOptions encrypted)).compressionNext
      Compression.waveMasks = false := by
    change has (effectiveOptions (created o) x.length .default).compressionNext Compression.waveMasks = false
    unfold effectiveOptions
    simp only
    split
    · split <;> decide
    · decide
  have packs : Packs codecs (created o) (effectiveOptions (created o) x.length (rawOptions encrypted)) := by
    refine packs_raw ?_ ?_
    · rw [kept _ (by decide)]
      cases encrypted <;> rfl
    · rw [kept _ (by decide)]
      cases encrypted <;> rfl
  have unmarked : has (rawOptions encrypted).flags Flag.deleteMarker = false := by cases encrypted <;> rfl
  have multi : has (rawOptions encrypted).flags Flag.single = false := by cases encrypted <;> rfl
  have known : (rawOptions encrypted).flags &&& ~~~storageFlags = 0 := by cases encrypted <;> rfl
  have uncompressed : has (rawOptions encrypted).flags Flag.compress = false := by cases encrypted <;> rfl
  exact member_runs lossless valid layout noList noRows known
    (fun compressed => absurd (compressed.symm.trans uncompressed) (by decide))
    (addable_new valid noRows unmarked (fun _ => by cases encrypted <;> rfl) packs plain multi (by rwa [bound]))
    (by rwa [bound])

end new

def roomForOne (sectorSize : UInt32) : CreateOptions where
  version := versionOne
  maxFiles := 1
  sectorSize
  flags := 0
  attributes := 0

theorem roomForOne_payload (sectorSize : UInt32) : firstPayloadOf (roomForOne sectorSize) = 512 := by
  have same : firstPayloadOf (roomForOne sectorSize) = firstPayloadOf (roomForOne 512) := rfl
  rw [same]
  decide

theorem roomForOne_layout (sectorSize : UInt32) : Layout (roomForOne sectorSize) where
  hashCapacity := show 4 ≤ 2 ^ 27 by decide
  header := show 32 ≤ 32 by decide
  hash := rfl
  tables := by
    rw [roomForOne_payload]
    exact show 112 ≤ 512 by decide
  tablesEx := fun two => absurd two (show ¬ versionOne = versionTwo by decide)
  payload := by
    rw [roomForOne_payload]
    decide

end Writing

namespace Reading

-- Sectors of bytes and of zeros, with checksums; only the second one gets shorter.
def sparseOptions : FileOptions where
  flags := Flag.compress ||| Flag.sectorCrc
  compressionFirst := Stage.mask .sparse
  compressionNext := Stage.mask .sparse
  locale := 0
  platform := 0

def twoSectorContent : Bytes := List.replicate 512 7 ++ Bytes.zeros 88

def sealedOptions : FileOptions := { sparseOptions with flags := sparseOptions.flags ||| Flag.encrypted }

theorem sectors_run {x : Bytes} {options : FileOptions} (size : x.length = 0 ∨ x.length = 600)
    (kind : options = sparseOptions ∨ options = sealedOptions) :
    ∃ a closed, Writing.fileAdd Compression.zeroRunCodecs [0x61] x options
        (Writing.created (Writing.roomForOne 512)) = .ok () a ∧
      Writing.archiveClose Compression.zeroRunCodecs a = .ok () closed := by
  have layout := Writing.roomForOne_layout 512
  have masks : Writing.LosslessMasks options := fun _ => by rcases kind with rfl | rfl <;> decide
  have packs : Writing.Packs Compression.zeroRunCodecs (Writing.created (Writing.roomForOne 512))
      (Writing.effectiveOptions (Writing.created (Writing.roomForOne 512)) x.length options) := by
    rcases size with length | length <;> rw [length] <;> rcases kind with rfl | rfl <;>
      exact Writing.packs_chain (by decide) (by decide) (by decide) (by decide) (by decide)
  have fits : Writing.firstPayloadOf (Writing.roomForOne 512) + Writing.storedBound
      (Writing.created (Writing.roomForOne 512)) x.length
      (Writing.effectiveOptions (Writing.created (Writing.roomForOne 512)) x.length
        options).flags ≤ uint32Max := by
    rcases size with length | length <;> rw [length] <;> rcases kind with rfl | rfl <;> decide
  have known : options.flags &&& ~~~storageFlags = 0 := by rcases kind with rfl | rfl <;> decide
  have unmarked : has options.flags Flag.deleteMarker = false := by rcases kind with rfl | rfl <;> decide
  have multi : has options.flags Flag.single = false := by rcases kind with rfl | rfl <;> decide
  have plain : has (Writing.effectiveOptions (Writing.created (Writing.roomForOne 512)) x.length
      options).compressionNext Compression.waveMasks = false := by
    rcases size with length | length <;> rw [length] <;> rcases kind with rfl | rfl <;> decide
  have methods : ∀ b, Writing.checkOptions (Writing.created (Writing.roomForOne 512)) options b = .ok () b :=
    fun _ => by rcases kind with rfl | rfl <;> rfl
  exact @Writing.member_runs Compression.zeroRunCodecs (Writing.roomForOne 512) [0x61] x options
    Compression.zeroRunCodecs_lossless (by decide) layout (by decide) rfl known masks
    (Writing.addable_new (by decide) rfl unmarked methods packs plain multi fits) fits

theorem round_trip_two_sectors :
    ∃ a closed, Writing.fileAdd Compression.zeroRunCodecs [0x61] twoSectorContent sparseOptions
        (Writing.created (Writing.roomForOne 512)) = .ok () a ∧
      Writing.archiveClose Compression.zeroRunCodecs a = .ok () closed ∧
      ReadsBack Compression.zeroRunCodecs closed.disk.file 0 [0x61] twoSectorContent := by
  have created := @Writing.archiveCreate_calm (Writing.roomForOne 512) (by decide)
    fun _ => (Writing.roomForOne_layout 512).payload
  have length : twoSectorContent.length = 600 := by
    rw [twoSectorContent, List.length_append, List.length_replicate, Bytes.zeros_length]
  obtain ⟨a, closed, added, finished⟩ := sectors_run (.inr length) (.inl rfl)
  have condition := round_trip Compression.zeroRunCodecs_lossless created
    (List.ne_nil_of_length_pos (by rw [length]; decide)) (by rw [length]; decide) (by decide) (by decide)
    (fun _ => by decide) added finished (.inl rfl)
  exact ⟨a, closed, added, finished, condition.mpr ⟨by rw [length]; decide, .inr (by rw [length]; decide)⟩⟩

theorem largest_sector_unread :
    ∃ a closed, Writing.archiveCreate (Writing.roomForOne 0x80000000) Faults.healthy =
        .ok (Writing.created (Writing.roomForOne 0x80000000)) ∧
      Writing.fileAdd Compression.zeroRunCodecs [0x61] (Bytes.zeros (2 ^ 31)) .default
        (Writing.created (Writing.roomForOne 0x80000000)) = .ok () a ∧
      Writing.archiveClose Compression.zeroRunCodecs a = .ok () closed ∧
      ¬ ReadsBack Compression.zeroRunCodecs closed.disk.file 0 [0x61] (Bytes.zeros (2 ^ 31)) := by
  have layout := Writing.roomForOne_layout 0x80000000
  have created := @Writing.archiveCreate_calm (Writing.roomForOne 0x80000000) (by decide)
    fun _ => layout.payload
  have length : (Bytes.zeros (2 ^ 31)).length = 2 ^ 31 := Bytes.zeros_length _
  have first : Writing.firstPayloadOf (Writing.roomForOne 0x80000000) = 512 := rfl
  obtain ⟨a, closed, added, finished⟩ := @Writing.raw_member_runs Compression.zeroRunCodecs
    (Writing.roomForOne 0x80000000) [0x61] (Bytes.zeros (2 ^ 31)) Compression.zeroRunCodecs_lossless
    (by decide) layout (by decide) rfl (by rw [length, first]; decide) false
  rw [show Writing.rawOptions false = .default from rfl] at added
  obtain ⟨b, members, m, sole, content, -, flags, -⟩ := Writing.sole_of_closed
    Compression.zeroRunCodecs_lossless created (by decide) (fun compressed => absurd compressed (by decide))
    (fun encrypted => absurd encrypted (by decide)) (by rw [length]; decide) added finished
  have some_ : m.content ≠ [] := by
    rw [content, ← List.length_pos_iff, length]
    decide
  have plain : has m.flags Flag.encrypted = false := by
    rw [flags, Writing.effectiveOptions_has _ _ _ (by decide)]
    rfl
  refine ⟨a, closed, created, added, finished, ?_⟩
  rw [← content, readsBack_sole sole some_ plain (.inl rfl), Reportable,
    content, length, sole_sectorSize sole]
  rintro ⟨small, -⟩
  exact absurd small (by decide)

end Reading

end LibMpq
