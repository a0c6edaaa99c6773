import LibMpq.Reopening

set_option autoImplicit false

-- What the writer accepts and the reader makes of it. Their rules for the number of sectors differ
-- only for a member of no bytes, and nothing is written for an empty single unit.

namespace LibMpq

open Effect Bits

theorem StoredMember.image_nil {codecs : Codecs} (m : StoredMember codecs) (empty : m.content = [])
    (untabled : Writing.sectorTable m.flags = false) : m.image = [] := by
  have least := m.positive
  have none_ : m.packed 0 = [] := by
    have short := (m.recovers 0 least).length_le
    rw [Bytes.piece_length, empty, List.length_nil, Nat.zero_sub, Nat.min_zero] at short
    exact List.length_eq_zero_iff.mp (Nat.le_zero.mp short)
  have start := Segments.start_succ m.stored 0
  rw [Segments.start_zero, m.stored_length, none_] at start
  rw [← List.length_eq_zero_iff, m.image_length, StoredMember.tableSize, untabled, Reading.sums_nil untabled,
    m.empty empty, start]
  rfl

namespace Writing

theorem streamWrite_nil {codecs : Codecs} {s s' : Active} (run : streamWrite codecs [] s = .ok () s') : s' = s := by
  unfold streamWrite at run
  rw [bind_of_ok (get_run s)] at run
  obtain ⟨-, run⟩ := failIf_bind_ok.mp run
  cases run
  rfl

theorem flushed_offsets (packed : Bytes) (position length : Nat) (next : UInt32) (w : Writer) :
    (flushed packed position length next w).offsets.isSome = w.offsets.isSome :=
  Option.isSome_map

theorem publish_disk {s s' : Active} {blockOffset total : Nat} (run : publish blockOffset total s = .ok () s') :
    s'.archive.disk = s.archive.disk := by
  unfold publish at run
  rw [bind_of_ok (get_run s), bind_of_ok (get_run s)] at run
  obtain ⟨_, t, blocked, run⟩ := bind_ok.mp run
  cases blocked
  rw [bind_of_ok (get_run _)] at run
  generalize freeSlot _ _ _ _ = slot at run
  cases slot with
  | some pos =>
    cases run
    rfl
  | none => cases run

-- Nothing is written for an empty single unit.
theorem fileAdd_unwritten {codecs : Codecs} {name : Bytes} {options : FileOptions} {a a' : WriteArchive}
    (single : has options.flags Flag.single = true) (plain : has options.flags Flag.encrypted = false)
    (run : fileAdd codecs name [] options a = .ok () a') : a'.disk.file = a.disk.file := by
  obtain ⟨w, b, s, s', prepared, wrote, ended, rfl⟩ := fileAdd_ok run
  have begun := prepareWriter_begun prepared
  obtain rfl := streamWrite_nil wrote
  obtain ⟨offsets, checksums, writer⟩ := begun.writer
  have flags : w.options.flags = (effectiveOptions a 0 options).flags := by
    rw [writer]
    rfl
  have untabled : sectorTable w.options.flags = false := by
    rw [flags, sectorTable, effectiveOptions_has _ _ _ (by decide), single]
    simp
  have unset : w.offsets.isSome = false := begun.offsets.trans untabled
  have sealed : has w.options.flags Flag.encrypted = false := by
    rw [flags, effectiveOptions_has _ _ _ (by decide), plain]
  have empty : w.data = [] ∧ w.expected = 0 := by
    rw [writer]
    exact ⟨rfl, rfl⟩
  unfold streamEnd at ended
  rw [bind_of_ok (get_run _)] at ended
  simp only at ended
  rw [if_pos (.inr empty.2)] at ended
  obtain ⟨_, t, flush, ended⟩ := bind_ok.mp ended
  obtain ⟨packed, stored, next, disk, ⟨plan, plan', pack⟩, same, -, rfl, file, -⟩ := flushSector_ok flush
    fun encrypted => absurd (encrypted.symm.trans sealed) (by decide)
  have none_ : packed = [] := by
    have short := packSector_length_le pack
    simp only [empty.1, List.length_nil, Nat.le_zero] at short
    exact List.length_eq_zero_iff.mp short
  rw [if_neg (by simp only [sealed]; decide), none_] at same
  subst same
  rw [File.write_nil] at file
  unfold streamFinish at ended
  obtain ⟨total, t, closed, ended⟩ := bind_ok.mp ended
  obtain ⟨disk, closing, archive⟩ := closePayload_untabled (by rw [flushed_offsets]; exact unset) closed
  rw [bind_of_ok (get_run t)] at ended
  have last : s'.archive.disk = t.archive.disk := by
    split at ended
    next => rw [(failIf_ok.mp ended).2]
    next => exact publish_disk ended
  rw [last, archive]
  exact closing.trans (file.trans begun.ready.file)

-- Something else is written behind the place of the first member, or the tables end there.
def Reaches (o : CreateOptions) : Prop :=
  has o.flags createListfile = true ∨ o.attributes ≠ 0 ∨
    firstPayloadOf o ≤ max 4096 (tablesEndOf o)

theorem sole_reaches {codecs : Codecs} {o : CreateOptions} {plan : Faults} {start a b : WriteArchive} {file : File}
    {name : Bytes} {options : FileOptions} {members : List (StoredMember codecs)} {m : StoredMember codecs}
    (sole : Sole o name b file members m) (created : archiveCreate o plan = .ok start)
    (single : has options.flags Flag.single = true) (plain : has options.flags Flag.encrypted = false)
    (added : fileAdd codecs name [] options start = .ok () a)
    (quiet : has o.flags createListfile = false → o.attributes = 0 → b.disk.file = a.disk.file) :
    firstPayloadOf o ≤ file.size ↔ Reaches o := by
  have size := sole.size
  unfold Reaches
  by_cases internal : has o.flags createListfile = true ∨ o.attributes ≠ 0
  · have reach := sole.reach internal
    rw [← or_assoc]
    exact ⟨fun _ => .inl internal, fun _ => by omega⟩
  · obtain ⟨noList, noRows⟩ := not_or.mp internal
    obtain ⟨-, -, -, -, first, -⟩ := @archiveCreate_contains codecs _ _ _ created
    rw [quiet (by simpa using noList) (by simpa using noRows), fileAdd_unwritten single plain added, first] at size
    have zeros : (File.empty.write 0 (Bytes.zeros (min 4096 (firstPayloadOf o)))).size =
        min 4096 (firstPayloadOf o) := by
      by_cases none : Bytes.zeros (min 4096 (firstPayloadOf o)) = []
      · have length := congrArg List.length none
        rw [Bytes.zeros_length] at length
        rw [none, File.write_nil, length]
        rfl
      · rw [File.write_size_of_ne_nil _ _ none, Bytes.zeros_length]
        exact Nat.max_eq_right (Nat.zero_le _) |>.trans (Nat.zero_add _)
    rw [zeros] at size
    rw [size]
    constructor
    · exact fun inside => .inr (.inr (by omega))
    · rintro (list | rows | tables)
      · exact absurd list noList
      · exact absurd rows noRows
      · omega

end Writing

namespace Reading

section empty

variable {codecs : Codecs} {a : ReadArchive} {number : Nat} {m : StoredMember codecs}

theorem countFileBlocks_empty (positive : 0 < a.blockSize.toNat) (size : memberSize a number = 0)
    (multi : has (entry a number).flags Flag.single = false) :
    countFileBlocks a number = 0 := by
  have small := a.blockSize.toNat_lt
  rw [countFileBlocks_multi positive (by rw [multi]; decide) (.inr (by rw [size]; omega)), size, Nat.zero_add]
  exact Nat.div_eq_of_lt (by omega)

-- The writer gives an empty member one sector, and the reader none.
theorem Placed.unlisted (placed : Placed a number m) (quiet : a.plan = Faults.healthy) (empty : m.content = [])
    (tabled : Writing.sectorTable m.flags = true) (plain : has m.flags Flag.encrypted = false)
    (fresh : a.cache number = none) : ∃ e b, offsetsAcquire number none a = .error e b := by
  have positive : 0 < a.blockSize.toNat := by
    rw [placed.sectorSize]
    exact placed.positive
  have serial : serialized (entry a number).flags = true := by rw [placed.flags, m.serialized_eq, tabled]
  have multi : has (entry a number).flags Flag.single = false := by
    rw [serialized, Bool.and_eq_true, Bool.not_eq_true'] at serial
    exact serial.2
  have none_ := countFileBlocks_empty positive (by rw [placed.size_eq, empty]; rfl) multi
  have size : m.entries * 4 = tableSize a number + 4 := by
    rw [tableSize, none_, StoredMember.entries, m.empty empty, placed.has_eq (by decide)]
    split <;> rfl
  have least : 4 ≤ tableSize a number := by
    rw [tableSize]
    omega
  have stored : a.source.read (payloadOffset a (entryIndex a number)) (m.entries * 4) = plainTable m := by
    have whole := placed.holds
    rw [StoredMember.image, List.append_assoc, table_eq tabled, StoredMember.encrypt, plain,
      if_neg Bool.false_ne_true] at whole
    have length : (plainTable m).length = m.entries * 4 := by
      rw [plainTable, Wire.encodeTable_length]
      rfl
    rw [← length]
    exact (File.holds_append.mp whole).1.read
  have first : Crypto.loadLe32 (a.source.read (payloadOffset a (entryIndex a number)) (tableSize a number)) =
      UInt32.ofNat (tableSize a number + 4) := by
    rw [← size, ← plainTable_first tabled, ← stored, size, Crypto.loadLe32, Crypto.loadLe32,
      ← File.read_take _ _ (tableSize a number) 4, List.take_take, Nat.min_eq_left least]
  have small : tableSize a number + 4 < 2 ^ 32 := by
    have fits := placed.entries_le tabled
    omega
  have other : UInt32.ofNat (tableSize a number + 4) ≠ UInt32.ofNat (tableSize a number) := by
    intro same
    have same := congrArg UInt32.toNat same
    have smaller := Nat.lt_of_le_of_lt (Nat.le_add_right _ 4) small
    rw [UInt32.toNat_ofNat_of_lt' small, UInt32.toNat_ofNat_of_lt' smaller] at same
    omega
  have refused : ¬ OffsetsLoad a number := by
    rw [OffsetsLoad, fresh, if_pos serial]
    rintro (cached | ⟨-, -, own⟩)
    · cases cached
    · have unmarked : ¬ (has (entry a number).flags Flag.encrypted = true ∨ looksEncrypted
          (a.source.read (payloadOffset a (entryIndex a number)) (tableSize a number)) (tableSize a number)) := by
        rw [placed.has_eq (by decide), plain, looksEncrypted, first]
        rintro (marked | ⟨-, looks⟩)
        · cases marked
        · exact looks rfl
      rw [emptyTable, if_neg unmarked, Option.any_some, first, decide_eq_true_eq] at own
      exact other own
  rw [← offsetsAcquire_empty quiet placed.member none_] at refused
  cases run : offsetsAcquire number none a with
  | error e b => exact ⟨e, b, rfl⟩
  | ok _ b =>
    rw [run] at refused
    exact absurd rfl refused

-- A raw member of no bytes has no blocks to read, wherever its payload would start.
theorem intact_of_no_block (quiet : a.plan = Faults.healthy) (member : number < a.files)
    (none_ : countFileBlocks a number = 0) (raw : serialized (entry a number).flags = false)
    (small : (entry a number).packedSize = 0) (fresh : a.cache number = none) :
    ∃ b, Intact codecs a number [] b none := by
  have loads : OffsetsLoad a number := by
    refine .inr ?_
    rw [if_neg (by rw [raw]; decide), small]
    exact fun both => absurd both.2 (by decide)
  rw [← offsetsAcquire_empty quiet member none_] at loads
  cases acquired : offsetsAcquire number none a with
  | error e b =>
    rw [acquired] at loads
    cases loads
  | ok _ b =>
    have spare : Spare a number := .of_none fresh
    have spares := (offsetsAcquire_spares none).ok acquired
    obtain ⟨file, held⟩ := offsetsAcquire_held spare acquired
    have still : countFileBlocks b number = 0 := spares.countFileBlocks_eq.trans none_
    have table := @sectorChecksums_none codecs _ _ _ held (spares.steady quiet) (.inr still)
    refine ⟨b, ⟨spare, acquired, fun i below => ?_, table⟩, ?_, ?_⟩
    · rw [still] at below
      exact absurd below (Nat.not_lt_zero i)
    · rw [none_]
      rfl
    · rw [none_]
      rfl

end empty

theorem packedBlock_range {a : ReadArchive} {number block : Nat} {packed : Bytes}
    (stored : packedBlock a number block = some packed) :
    payloadOffset a (entryIndex a number) ≤ a.source.size := by
  unfold packedBlock at stored
  split at stored
  next => cases stored
  next file _ =>
    split at stored
    next valid =>
      obtain ⟨-, -, -, -, -, starts, -⟩ := valid
      exact (Nat.le_add_right _ _).trans starts
    next => cases stored

theorem readMember_inside {codecs : Codecs} {a a' : ReadArchive} {number : Nat} {buffer : Bytes} {s : ReadState}
    (run : readMember codecs number buffer a = .ok s a') (some_ : 0 < countFileBlocks a number) :
    payloadOffset a (entryIndex a number) ≤ a.source.size := by
  obtain ⟨b, c, checksums, t, spares, -, blocks⟩ := readMember_steps run
  obtain ⟨k, more⟩ := Nat.exists_eq_succ_of_ne_zero some_.ne'
  unfold readBlocks at blocks
  rw [more, List.range_succ_eq_map, List.foldlM_cons] at blocks
  obtain ⟨t', d, first, -⟩ := bind_ok.mp blocks
  unfold readBlock at first
  simp only at first
  split at first
  next read =>
    obtain ⟨packed, v, stored, -⟩ := blockReadAcquired_packed read
    have range := packedBlock_range stored
    rwa [spares.own.payloadOffset_eq spares.toSameArchive, spares.source] at range
  next => cases first

end Reading

namespace Streaming

open Reading
open Writing (Reaches)

theorem streamAdopt_unkeyed {codecs : Codecs} {a b : ReadArchive} {number : Nat}
    {checksums : Option (Nat → UInt32)} (quiet : a.plan = Faults.healthy) (member : number < a.files)
    (loaded : Loaded codecs a number b checksums) (none_ : countFileBlocks a number = 0) :
    ∃ s, streamAdopt codecs number none a = .ok s b := by
  have still : countFileBlocks b number = 0 :=
    ((offsetsAcquire_spares none).ok loaded.acquired).countFileBlocks_eq.trans none_
  have tried : attempt (sectorChecksums codecs number) b = .ok (some checksums) b := by
    simp only [attempt, loaded.table]
  have known : keyKnown b number b = .ok () b := by
    rw [keyKnown, if_neg fun both => both.1 still]
    rfl
  unfold streamAdopt
  rw [bind_of_ok (get_run a), bind_of_ok (failIf_false (Nat.not_le.mpr member) _ _),
    bind_of_ok (onPlan_healthy quiet (request_healthy _)), bind_of_ok loaded.acquired]
  refine ⟨adopted b number checksums, ?_⟩
  rw [orRelease_ok, bind_of_ok (get_run b), bind_of_ok known, bind_of_ok tried, bind_of_ok (get_run b),
    Option.join_some]
  rfl

/-- Opening the file, looking the name up, asking for the size, reading the member into any buffer
that has room and opening a stream on it all succeed. -/
def Usable (codecs : Codecs) (file : File) (archiveOffset : Int) (name x : Bytes) : Prop :=
  ∃ a n, openPath file archiveOffset Faults.healthy = .ok a Faults.healthy ∧ fileNumber a name = .ok n ∧
    fileSizeUnpacked a n = .ok x.length ∧
    (∀ buffer : Bytes, x.length ≤ buffer.length → ∃ data, verdict (fileRead codecs n buffer a) = .ok data) ∧
    ∃ s a', streamOpen codecs n a = .ok s a'

section serves

variable {codecs : Codecs} {a c : ReadArchive} {m : StoredMember codecs}

-- What is left of `Usable` for the first member of a handle `a`, with the clone `c` for the stream.
def Serves (codecs : Codecs) (a c : ReadArchive) (x : Bytes) : Prop :=
  (∀ buffer : Bytes, x.length ≤ buffer.length → ∃ data, verdict (fileRead codecs 0 buffer a) = .ok data) ∧
    ∃ s c', streamAdopt codecs 0 none c = .ok s c'

theorem serves_of_delivers {x : Bytes} (delivers : Delivers codecs a 0 x)
    (adopts : ∃ s c', streamAdopt codecs 0 none c = .ok s c') : Serves codecs a c x := by
  refine ⟨fun buffer room => ?_, adopts⟩
  obtain ⟨data, read, -⟩ := delivers buffer room
  exact ⟨data, read⟩

end serves

section sole

open Writing (Sole firstPayloadOf)

variable {codecs : Codecs} {o : CreateOptions} {name : Bytes} {b : WriteArchive} {file : File}
  {members : List (StoredMember codecs)} {m : StoredMember codecs} {archiveOffset : Int}
  (sole : Sole o name b file members m)
include sole

theorem sole_below : 0 < b.nextBlock :=
  sole.contains.count ▸ (List.getElem?_eq_some_iff.mp sole.first).1

theorem sole_entry {a : ReadArchive} (opened : Opened b file a) : entry a 0 = b.block 0 :=
  (opened.entry_eq sole.sound (sole_below sole)).2

theorem sole_flags {a : ReadArchive} (opened : Opened b file a) :
    (entry a 0).flags = Flag.exists_ ||| m.flags := by
  rw [sole_entry sole opened, (sole.contains.member 0 m sole.first).flags]

theorem sole_memberSize {a : ReadArchive} (opened : Opened b file a) : memberSize a 0 = m.content.length := by
  rw [memberSize, sole_entry sole opened, (sole.contains.member 0 m sole.first).unpackedSize]

theorem usable_iff_serves (offset : archiveOffset = 0 ∨ archiveOffset = -1) :
    ∃ a c, Opened b file a ∧ Opened b file c ∧ Handle a ∧
      (Usable codecs file archiveOffset name m.content ↔ Serves codecs a c m.content) := by
  obtain ⟨a, path, opened, handle, found⟩ := openPath_sole sole offset
  obtain ⟨c, cloned, opened', -⟩ := archiveClone_sole sole opened
  have inside : ¬ 0 ≥ a.files := by
    rw [opened.files]
    exact Nat.not_le.mpr (sole_below sole)
  have same : { c with plan := a.plan } = c := by rw [opened.plan, ← opened'.plan]
  have streams : streamOpen codecs 0 a = onClone c (streamAdopt codecs 0 none) a := by
    unfold streamOpen
    rw [bind_of_ok (get_run a), bind_of_ok (failIf_false inside _ _), bind_of_ok cloned]
  refine ⟨a, c, opened, opened', handle, ?_, ?_⟩
  · rintro ⟨r, n, path', found', -, reads, s, a', opens⟩
    rw [path] at path'
    cases path'
    rw [found] at found'
    cases found'
    rw [streams] at opens
    obtain ⟨c', adopted⟩ := onClone_ok opens
    rw [same] at adopted
    exact ⟨reads, s, c', adopted⟩
  · rintro ⟨reads, s, c', adopted⟩
    refine ⟨a, 0, path, found, ?_, reads, s, { a with plan := c'.plan }, ?_⟩
    · have size := sole_memberSize sole opened
      rw [memberSize] at size
      rw [fileSizeUnpacked, if_neg inside, size]
    · rw [streams, onClone, same, adopted]

section handles

variable {a c : ReadArchive} (opened : Opened b file a) (opened' : Opened b file c) (handle : Handle a)
  (plain : has m.flags Flag.encrypted = false)
include opened opened' handle plain

theorem serves_placed (placed : Placed a 0 m) (placed' : Placed c 0 m)
    (some_ : m.content ≠ [] ∨ has m.flags Flag.single = true) (reportable : Reportable m)
    (countable : has m.flags Flag.single = true ∨ m.content.length + m.sectorSize ≤ 2 ^ 32) :
    Serves codecs a c m.content := by
  have keyed : Keyed c 0 m none := fun encrypted => absurd (encrypted.symm.trans plain) (by decide)
  obtain ⟨s, c', adopted, -⟩ := streamAdopt_placed placed' opened'.plan (placed'.countable_iff.mpr countable) some_
    reportable keyed (opened'.cache 0)
  exact serves_of_delivers
    (opened.delivers handle placed some_ plain (sole_attests sole opened) reportable countable) ⟨s, c', adopted⟩

theorem serves_some (some_ : m.content ≠ []) : Serves codecs a c m.content ↔
    Reportable m ∧ (has m.flags Flag.single = true ∨ m.content.length + m.sectorSize ≤ 2 ^ 32) := by
  have placed := sole_placed sole opened some_
  constructor
  · rintro ⟨reads, -⟩
    obtain ⟨data, read⟩ := reads m.content (Nat.le_refl _)
    exact placed.readable sole.made (sole.contains.member 0 m sole.first).sectorSize some_ read
  · rintro ⟨reportable, countable⟩
    exact serves_placed sole opened opened' handle plain placed (sole_placed sole opened' some_) (.inl some_)
      reportable countable

theorem serves_single (empty : m.content = []) (single : has m.flags Flag.single = true) :
    Serves codecs a c m.content ↔ firstPayloadOf o ≤ file.size := by
  constructor
  · rintro ⟨reads, -⟩
    obtain ⟨data, read⟩ := reads m.content (Nat.le_refl _)
    obtain ⟨s, d, run⟩ := fileRead_readMember read
    have one : countFileBlocks a 0 = 1 := by
      rw [countFileBlocks, sole_flags sole opened, m.has_exists (by decide), if_pos single]
    have inside := readMember_inside run (by rw [one]; decide)
    rwa [opened.payloadOffset_eq sole.sound (sole_below sole), sole.place, opened.source] at inside
  · intro inside
    have placed : ∀ {r : ReadArchive}, Opened b file r → Placed r 0 m := fun opened =>
      opened.placed_member sole.made sole.sound sole.stands sole.contains sole.first sole.exclusive
        fun _ => sole.place.trans_le inside
    have small : Reportable m := by
      rw [Reportable, empty, List.length_nil, Nat.min_zero]
      decide
    exact serves_placed sole opened opened' handle plain (placed opened) (placed opened') (.inr single) small
      (.inl single)

theorem serves_multi (empty : m.content = []) (multi : ¬ has m.flags Flag.single = true) :
    Serves codecs a c m.content ↔ Writing.sectorTable m.flags = false := by
  constructor
  · rintro ⟨reads, -⟩
    obtain ⟨data, read⟩ := reads m.content (Nat.le_refl _)
    by_contra tabled
    have tabled : Writing.sectorTable m.flags = true := by simpa using tabled
    have image : m.image ≠ [] := by
      intro none_
      have length := m.image_length
      rw [none_, List.length_nil, StoredMember.tableSize, if_pos tabled, StoredMember.entries] at length
      omega
    have placed := opened.placed_member sole.made sole.sound sole.stands sole.contains sole.first sole.exclusive
      fun none_ => absurd none_ image
    obtain ⟨e, d, refused⟩ := placed.unlisted opened.plan empty tabled plain (opened.cache 0)
    have unread := @fileRead_unopened codecs a 0 d e m.content placed.member (by rw [placed.size_eq]) refused
    rw [Bool.eq_false_iff] at unread
    exact unread ((succeeded_iff _).mpr ⟨data, read⟩)
  · intro untabled
    have whole : ∀ {r : ReadArchive}, Opened b file r → 0 < r.files ∧ countFileBlocks r 0 = 0 ∧
        ∃ d, Intact codecs r 0 [] d none := by
      intro r opened
      have member : 0 < r.files := (sole_below sole).trans_eq opened.files.symm
      have blocks : countFileBlocks r 0 = 0 := by
        refine countFileBlocks_empty ?_ ?_ ?_
        · rw [opened.blockSize]
          exact sole.sound.sectorSize
        · rw [sole_memberSize sole opened, empty, List.length_nil]
        · rw [sole_flags sole opened, m.has_exists (by decide)]
          simpa using multi
      refine ⟨member, blocks, intact_of_no_block opened.plan member blocks ?_ ?_ (opened.cache 0)⟩
      · rw [sole_flags sole opened, m.serialized_eq, untabled]
      · rw [sole_entry sole opened, ← UInt32.toNat_inj, (sole.contains.member 0 m sole.first).packedSize,
          m.image_nil empty untabled]
        rfl
    obtain ⟨member, -, d, intact⟩ := whole opened
    obtain ⟨member', blocks, d', intact'⟩ := whole opened'
    obtain ⟨s, adopted⟩ := streamAdopt_unkeyed opened'.plan member' intact'.loaded blocks
    have attests := sole_attests sole opened
    have none_ := sole_memberSize sole opened
    have fits : Countable a 0 := by
      have most := sector_le sole.made
      refine .inr ?_
      rw [none_, empty, opened.blockSize, List.length_nil]
      omega
    rw [empty] at attests none_ ⊢
    exact serves_of_delivers (intact.delivers handle opened.plan member none_ fits attests) ⟨s, d', adopted⟩

end handles

-- An empty single unit has to lie within the file, any other empty member must have no sector table.
theorem usable_sole (plain : has m.flags Flag.encrypted = false)
    (offset : archiveOffset = 0 ∨ archiveOffset = -1) :
    Usable codecs file archiveOffset name m.content ↔
      Reportable m ∧ (has m.flags Flag.single = true ∨ m.content.length + m.sectorSize ≤ 2 ^ 32) ∧
        (m.content = [] → if has m.flags Flag.single then firstPayloadOf o ≤ file.size
          else Writing.sectorTable m.flags = false) := by
  obtain ⟨a, c, opened, opened', handle, usable⟩ := usable_iff_serves sole offset
  rw [usable]
  by_cases empty : m.content = []
  case neg =>
    rw [serves_some sole opened opened' handle plain empty]
    exact ⟨fun ⟨reportable, countable⟩ => ⟨reportable, countable, fun none_ => absurd none_ empty⟩,
      fun ⟨reportable, countable, _⟩ => ⟨reportable, countable⟩⟩
  case pos =>
    have small : Reportable m ∧ (has m.flags Flag.single = true ∨ m.content.length + m.sectorSize ≤ 2 ^ 32) := by
      have most := sector_le sole.made
      rw [Reportable, empty, (sole.contains.member 0 m sole.first).sectorSize, List.length_nil]
      exact ⟨by omega, .inr (by omega)⟩
    rw [and_iff_right small.1, and_iff_right small.2, forall_prop_of_true empty]
    by_cases single : has m.flags Flag.single = true
    · rw [if_pos single, serves_single sole opened opened' handle plain empty single]
    · rw [if_neg single, serves_multi sole opened opened' handle plain empty single]

end sole

/-- The writer gives an empty member one sector and its table, the reader counts none and finds the
table too long; an empty single unit has no bytes at its place, which may lie behind the file. -/
def EmptyReadable (o : CreateOptions) (options : FileOptions) : Prop :=
  if has options.flags Flag.single then Reaches o
  else has options.flags Flag.compress = false ∧ has options.flags Flag.implode = false

theorem accepted_usable {codecs : Codecs} (lossless : codecs.Lossless)
    {o : CreateOptions} {plan : Faults} {start a closed : WriteArchive} {name x : Bytes}
    {options : FileOptions} {archiveOffset : Int}
    (created : Writing.archiveCreate o plan = .ok start) (known : options.flags &&& ~~~storageFlags = 0)
    (plain : has options.flags Flag.encrypted = false) (masks : Writing.LosslessMasks options)
    (added : Writing.fileAdd codecs name x options start = .ok () a)
    (finished : Writing.archiveClose codecs a = .ok () closed)
    (offset : archiveOffset = 0 ∨ archiveOffset = -1) :
    Usable codecs closed.disk.file archiveOffset name x ↔
      x.length < 2 ^ 32 ∧ Readable o options x ∧ (x = [] → EmptyReadable o options) := by
  by_cases small : x.length < 2 ^ 32
  case neg =>
    refine ⟨?_, fun condition => absurd condition.1 small⟩
    rintro ⟨r, n, -, -, size, -⟩
    unfold fileSizeUnpacked at size
    split at size
    next => cases size
    next =>
      rw [← Except.ok.inj size] at small
      exact absurd (entry r n).unpackedSize.toNat_lt small
  obtain ⟨b, members, m, sole, rfl, -, flags, quiet⟩ := Writing.sole_of_closed lossless created known masks
    (fun encrypted => absurd (encrypted.symm.trans plain) (by decide)) (Nat.le_of_lt_succ small) added finished
  have kept : ∀ bits, bits &&& Flag.sectorCrc = 0 → has m.flags bits = has options.flags bits := by
    intro bits other
    rw [flags, Writing.effectiveOptions_has _ _ _ other]
  have unsealed : has m.flags Flag.encrypted = false := by rw [kept _ (by decide), plain]
  rw [usable_sole sole unsealed offset, Readable, Reportable, sole_sectorSize sole, kept Flag.single (by decide)]
  have last : (m.content = [] →
      if has options.flags Flag.single then Writing.firstPayloadOf o ≤ closed.disk.file.size
      else Writing.sectorTable m.flags = false) ↔ (m.content = [] → EmptyReadable o options) := by
    refine forall_congr' fun empty => ?_
    unfold EmptyReadable
    by_cases single : has options.flags Flag.single = true
    · rw [if_pos single, if_pos single]
      rw [empty] at added
      exact Writing.sole_reaches sole created single plain added quiet
    · rw [if_neg single, if_neg single, Writing.sectorTable, kept _ (by decide), kept _ (by decide),
        kept _ (by decide)]
      simp [single]
  rw [last, and_assoc]
  exact (and_iff_right small).symm


theorem accepted_usable_sectors :
    ∃ a closed, Writing.fileAdd Compression.zeroRunCodecs [0x61] twoSectorContent sparseOptions
        (Writing.created (Writing.roomForOne 512)) = .ok () a ∧
      Writing.archiveClose Compression.zeroRunCodecs a = .ok () closed ∧
      Usable Compression.zeroRunCodecs closed.disk.file 0 [0x61] twoSectorContent := by
  have created := @Writing.archiveCreate_calm (Writing.roomForOne 512) (by decide)
    fun _ => (Writing.roomForOne_layout 512).payload
  have length : twoSectorContent.length = 600 := by
    rw [twoSectorContent, List.length_append, List.length_replicate, Bytes.zeros_length]
  obtain ⟨a, closed, added, finished⟩ := sectors_run (.inr length) (.inl rfl)
  have condition := accepted_usable Compression.zeroRunCodecs_lossless created (by decide) (by decide)
    (fun _ => by decide) added finished (.inl rfl)
  refine ⟨a, closed, added, finished, condition.mpr ⟨by rw [length]; decide, ⟨by rw [length]; decide,
    .inr (by rw [length]; decide)⟩, fun none_ => ?_⟩⟩
  rw [none_] at length
  cases length

theorem empty_member_unusable :
    ∃ a closed, Writing.archiveCreate (Writing.roomForOne 512) Faults.healthy =
        .ok (Writing.created (Writing.roomForOne 512)) ∧
      Writing.fileAdd Compression.zeroRunCodecs [0x61] [] sparseOptions
        (Writing.created (Writing.roomForOne 512)) = .ok () a ∧
      Writing.archiveClose Compression.zeroRunCodecs a = .ok () closed ∧
      ¬ Usable Compression.zeroRunCodecs closed.disk.file 0 [0x61] [] := by
  have created := @Writing.archiveCreate_calm (Writing.roomForOne 512) (by decide)
    fun _ => (Writing.roomForOne_layout 512).payload
  obtain ⟨a, closed, added, finished⟩ := @sectors_run [] sparseOptions (.inl rfl) (.inl rfl)
  obtain ⟨b, members, m, sole, content, -, flags, -⟩ := Writing.sole_of_closed
    Compression.zeroRunCodecs_lossless created (by decide) (fun _ => by decide)
    (fun encrypted => absurd encrypted (by decide)) (by decide) added finished
  have kept : ∀ bits, bits &&& Flag.sectorCrc = 0 → has m.flags bits = has sparseOptions.flags bits := by
    intro bits other
    rw [flags, Writing.effectiveOptions_has _ _ _ other]
  have condition := usable_sole sole ((kept _ (by decide)).trans (by decide)) (.inl (Eq.refl (0 : Int)))
  rw [content] at condition
  refine ⟨a, closed, created, added, finished, fun usable => ?_⟩
  have untabled := (condition.mp usable).2.2 rfl
  rw [kept _ (by decide), if_neg (by decide), Writing.sectorTable, kept _ (by decide), kept _ (by decide),
    kept _ (by decide)] at untabled
  exact absurd untabled (by decide)

end Streaming

end LibMpq
