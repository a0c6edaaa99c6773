import LibMpq.ReaderJournal
import LibMpq.StreamView

set_option autoImplicit false

namespace LibMpq

open Effect Bits Reading

namespace Streaming

structure Undisturbed (codecs : Codecs) (s : Stream) : Prop where
  member : s.number < s.archive.files
  positive : 0 < s.archive.blockSize.toNat
  quiet : s.archive.plan = Faults.healthy
  whole : Reading.Whole codecs s.archive s.number
  countable : Countable s.archive s.number
  blocks : s.blocks = countFileBlocks s.archive s.number
  size : s.size = memberSize s.archive s.number
  agrees : mismatchUpTo s.archive s.number s.checksums s.blocks = false
  cached : Cached codecs s

section blocks

variable {codecs : Codecs} {s s' : Stream}

theorem Undisturbed.move (still : Undisturbed codecs s) (position : Nat) :
    Undisturbed codecs { s with position } :=
  ⟨still.member, still.positive, still.quiet, still.whole, still.countable, still.blocks, still.size, still.agrees,
    still.cached⟩

theorem Undisturbed.blockSize (still : Undisturbed codecs s) (valid : s.blockValid = true)
    (below : s.cachedBlock < s.blocks) : s.blockSize = unpackedBlockSize s.archive s.number s.cachedBlock := by
  obtain ⟨-, data, content, length⟩ := still.whole s.cachedBlock (still.blocks ▸ below)
  obtain ⟨held, room⟩ := still.cached valid
  rw [dataOf, content, Option.some.injEq] at held
  rw [← length, held, List.length_take, Nat.min_eq_left room]

theorem growBuffer_healthy (quiet : s.archive.plan = Faults.healthy) (size : Nat) :
    ∃ buffer : Bytes, growBuffer size s = .ok () { s with buffer } ∧ size ≤ buffer.length := by
  unfold growBuffer
  rw [bind_of_ok (get_run s)]
  split
  next more =>
    have granted : zoom (·.archive.plan) (fun plan s => { s with archive := { s.archive with plan } })
        (request .malloc : Op Error Faults Unit) s = .ok () s := by
      simp only [Effect.zoom, quiet, request_healthy]
      rw [← quiet]
    rw [bind_of_ok granted, modify_run]
    exact ⟨_, rfl, by rw [List.length_append, Bytes.zeros_length]; omega⟩
  next enough => exact ⟨s.buffer, rfl, Nat.not_lt.mp enough⟩

structure Holds (codecs : Codecs) (block : Nat) (s s' : Stream) : Prop where
  still : Undisturbed codecs s'
  same : SameMember s s'
  position : s'.position = s.position
  valid : s'.blockValid = true
  here : s'.cachedBlock = block

theorem loadBlock_healthy (still : Undisturbed codecs s) {block : Nat}
    (below : block < s.blocks) : ∃ s', loadBlock codecs block s = .ok () s' ∧ Holds codecs block s s' := by
  unfold loadBlock
  rw [bind_of_ok (get_run s)]
  split
  next hit => exact ⟨s, rfl, still, refl_of SameMember s, rfl, hit.1, hit.2⟩
  next =>
    have inside : ¬ (s.number ≥ s.archive.files ∨ block ≥ countFileBlocks s.archive s.number) :=
      not_or.mpr ⟨Nat.not_le.mpr still.member, Nat.not_le.mpr (still.blocks ▸ below)⟩
    obtain ⟨buffer, grown, room⟩ := @growBuffer_healthy s still.quiet (unpackedBlockSize s.archive s.number block)
    obtain ⟨stored, data, content, length⟩ := still.whole block (still.blocks ▸ below)
    have agrees : mismatched (s.checksums.map (· block)) (packedAt s.archive s.number block) = false :=
      Bool.eq_false_iff.mpr fun differs => by
        have all := still.agrees
        rw [mismatchUpTo, List.any_eq_false] at all
        exact all block (List.mem_range.mpr below) differs
    obtain ⟨status, filled, run, -⟩ := blockReadAcquired_healthy stored
      (w := ⟨s.archive.plan, buffer, false, false⟩) still.quiet (packedBlock_of_blockData content) content room
      (s.checksums.map (· block))
    have read : readInto codecs block { s with buffer } = .ok status.toNatClampNeg { s with buffer := filled } := by
      unfold readInto
      simp only
      rw [run]
      simp only [Bool.false_or, agrees, Bool.false_eq_true, if_false]
      rw [← still.quiet]
    have cached := readInto_ok (show Stored codecs { s with buffer } block from stored) read
    refine ⟨{ s with
      buffer := filled, cachedBlock := block, blockSize := status.toNatClampNeg, blockValid := true }, ?_, ?_⟩
    · rw [blockSizeUnpacked, if_neg inside, bind_of_ok (fromExcept_ok.mpr ⟨rfl, rfl⟩), bind_of_ok grown,
        bind_of_ok read, modify_run]
    · exact ⟨⟨still.member, still.positive, still.quiet, still.whole, still.countable, still.blocks, still.size,
        still.agrees, fun _ => cached⟩, ⟨⟨s.archive.plan, rfl⟩, rfl, rfl, rfl⟩, rfl, rfl, rfl⟩

end blocks

section reads

variable {codecs : Codecs} {s : Stream}

theorem Undisturbed.blockAt_lt (still : Undisturbed codecs s) (more : s.position < s.size) :
    blockAt s s.position < s.blocks := by
  have cover := memberSize_le_blocks still.positive still.countable
  rw [← still.blocks, ← still.size] at cover
  unfold blockAt
  split
  · omega
  next several =>
    have multi : ¬ has (entry s.archive s.number).flags Flag.single = true := fun single =>
      several (still.blocks.trans (by rw [countFileBlocks, if_pos single]))
    rw [unitOf, if_neg multi] at cover
    exact Nat.div_lt_of_lt_mul (by rw [Nat.mul_comm]; omega)

theorem Undisturbed.reaches (still : Undisturbed codecs s) (more : s.position < s.size) :
    s.position - baseOf s (blockAt s s.position) <
      unpackedBlockSize s.archive s.number (blockAt s s.position) := by
  have below := still.blockAt_lt more
  have cover := memberSize_le_blocks still.positive still.countable
  rw [← still.blocks, ← still.size] at cover
  rw [unpackedBlockSize_eq still.positive (still.blocks ▸ below), ← still.size]
  unfold blockAt baseOf
  split
  next one =>
    rw [one] at cover
    omega
  next several =>
    have multi : ¬ has (entry s.archive s.number).flags Flag.single = true := fun single =>
      several (still.blocks.trans (by rw [countFileBlocks, if_pos single]))
    have unit : unitOf s.archive s.number = s.archive.blockSize.toNat := if_neg multi
    have rounded := Nat.div_add_mod s.position s.archive.blockSize.toNat
    have small := Nat.mod_lt s.position still.positive
    rw [unit, Nat.succ_mul, Nat.mul_comm]
    omega

theorem readLoop_healthy (fuel : Nat) {want : Nat} (enough : want ≤ fuel)
    (still : Undisturbed codecs s) :
    (readLoop codecs fuel want s).error = none ∧
      (readLoop codecs fuel want s).transferred = min want (s.size - s.position) ∧
      Undisturbed codecs (readLoop codecs fuel want s).stream ∧ StoredLoads codecs fuel want s := by
  induction fuel generalizing want s with
  | zero =>
    obtain rfl := Nat.le_zero.mp enough
    exact ⟨rfl, (Nat.zero_min _).symm, still, trivial⟩
  | succ fuel ih =>
    rw [readLoop, StoredLoads, eachLoad]
    by_cases stop : want = 0 ∨ s.position ≥ s.size
    · rw [if_pos stop, if_pos stop]
      refine ⟨rfl, ?_, still, trivial⟩
      change 0 = _
      omega
    rw [if_neg stop, if_neg stop]
    obtain ⟨wanted, more⟩ := not_or.mp stop
    have more := Nat.not_le.mp more
    have below := still.blockAt_lt more
    have reaches := still.reaches more
    obtain ⟨s', run, held⟩ := loadBlock_healthy still below
    rw [run]
    simp only
    have base : baseOf s' (blockAt s s.position) = baseOf s (blockAt s s.position) := held.same.baseOf _
    have length : s'.blockSize = unpackedBlockSize s.archive s.number (blockAt s s.position) := by
      obtain ⟨plan, archive⟩ := held.same.archive
      rw [held.still.blockSize held.valid (by rw [held.here, held.same.blocks]; exact below), held.here,
        held.same.number, archive]
      rfl
    have inside : ¬ s'.position - baseOf s' (blockAt s s.position) ≥ s'.blockSize := by
      rw [held.position, base, length]
      omega
    rw [if_neg inside, if_neg inside]
    generalize place : s'.position - baseOf s' (blockAt s s.position) = offset at inside
    have room := (held.still.cached held.valid).2
    have size := held.same.size
    have position := held.position
    have count : takeCount s' offset want = min (min want (s'.blockSize - offset)) (s'.size - s'.position) := rfl
    obtain ⟨fine, rest, left, loads⟩ := ih (show want - takeCount s' offset want ≤ fuel by omega)
      (held.still.move (s'.position + takeCount s' offset want))
    refine ⟨fine, ?_, left, (still.whole _ (still.blocks ▸ below)).1, loads⟩
    have moved : advance (takeCount s' offset want) s' =
        { s' with position := s'.position + takeCount s' offset want } := rfl
    rw [moved, rest]
    simp only
    omega

def Exact (codecs : Codecs) (x : Bytes) (s : Stream) : Prop :=
  ∀ size : Nat, (streamRead codecs size s).error = none ∧
    (streamRead codecs size s).data = (x.drop s.position).take size

theorem StreamCall.apply_undisturbed (still : Undisturbed codecs s) (call : StreamCall) :
    Undisturbed codecs (call.apply codecs s) := by
  cases call with
  | read size =>
    rw [StreamCall.apply, streamRead]
    split
    · exact still
    · exact (readLoop_healthy size.toNat le_rfl still).2.2.1
  | seek offset origin =>
    obtain ⟨position, same, -⟩ := streamSeek_final offset origin s
    rw [StreamCall.apply, same]
    exact still.move position

structure Entire (codecs : Codecs) (x : Bytes) (s : Stream) : Prop where
  still : Undisturbed codecs s
  viewing : Viewing codecs x s
  length : s.size = x.length

theorem Entire.call {x : Bytes} (entire : Entire codecs x s) (call : StreamCall) :
    Entire codecs x (call.apply codecs s) := by
  have viewing := entire.viewing
  refine ⟨call.apply_undisturbed entire.still, (call.apply_viewing viewing).1, ?_⟩
  rw [← entire.length]
  cases call with
  | read size => exact (streamRead_spec viewing.decodes viewing.position size).same.size
  | seek offset origin =>
    obtain ⟨position, same, -⟩ := streamSeek_final offset origin s
    rw [StreamCall.apply, same]

theorem Entire.calls {x : Bytes} (entire : Entire codecs x s) (calls : List StreamCall) :
    Entire codecs x (runCalls codecs s calls) := by
  induction calls generalizing s with
  | nil => exact entire
  | cons call rest ih => exact ih (entire.call call)

theorem Entire.exact {x : Bytes} (entire : Entire codecs x s) : Exact codecs x s := by
  intro size
  have natural : ¬ (size : Int) < 0 := Int.not_lt.mpr (Int.natCast_nonneg size)
  obtain ⟨decodes, position⟩ := entire.viewing
  obtain ⟨fine, count, -, loads⟩ := readLoop_healthy size le_rfl entire.still
  have spec := (streamRead_spec decodes position size).data entire.still.cached
    (by rw [Int.toNat_natCast]; exact loads)
  rw [streamRead, if_neg natural, Int.toNat_natCast] at spec ⊢
  refine ⟨fine, spec.trans ?_⟩
  rw [count, entire.length, ← List.length_drop, List.take_eq_take_iff]
  omega

end reads

section opening

variable {codecs : Codecs} {a : ReadArchive} {number : Nat} {m : StoredMember codecs}

theorem keyKnown_placed (placed : Placed a number m) (countable : Countable a number)
    (some_ : m.content ≠ [] ∨ has m.flags Flag.single = true) (reportable : Reportable m) {name : Option Bytes}
    (keyed : Keyed a number m name) (cached : a.cache number = some (cacheOf a number m name)) :
    keyKnown a number a = .ok () a := by
  unfold keyKnown
  split
  next both =>
    have knows := @knows_cacheOf codecs a number m placed countable some_ reportable name keyed
    have least := m.positive
    have encrypted : has m.flags Flag.encrypted = true := by
      rw [← placed.has_eq (by decide)]
      exact both.2
    have start := knows.offsets 0 (Nat.zero_le _)
    have stop := knows.offsets 1 least
    have order : ¬ UInt32.ofNat (m.offset 1) < UInt32.ofNat (m.offset 0) := by
      rw [UInt32.lt_iff_toNat_lt, placed.offset_toNat, placed.offset_toNat]
      have := m.offset_mono (Nat.zero_le 1) least
      omega
    rw [cached]
    simp only
    rw [start, stop, bind_of_ok (failIf_false (by rw [knows.count]; omega) _ _),
      bind_of_ok (failIf_false order _ _), failIf_false]
    rw [knows.seed encrypted]
    exact fun both => by cases both.2
  next => rfl

def adopted (a : ReadArchive) (number : Nat) (checksums : Option (Nat → UInt32)) : Stream where
  archive := a
  number
  blocks := countFileBlocks a number
  cachedBlock := 2 ^ 32 - 1
  checksums
  buffer := []
  blockValid := false
  size := memberSize a number
  position := 0
  blockSize := 0

theorem streamAdopt_placed (placed : Placed a number m) (quiet : a.plan = Faults.healthy)
    (countable : Countable a number)
    (some_ : m.content ≠ [] ∨ has m.flags Flag.single = true) (reportable : Reportable m) {name : Option Bytes}
    (keyed : Keyed a number m name) (fresh : a.cache number = none) :
    ∃ s a', streamAdopt codecs number name a = .ok s a' ∧ Entire codecs m.content s := by
  have acquired := offsetsAcquire_placed placed quiet countable some_ keyed fresh
  generalize same : storeCache number (some (cacheOf a number m name)) a = b at acquired
  have placed' : Placed b number m := same ▸ placed.withCache _
  have countable' : Countable b number := by subst same; exact countable
  have quiet' : b.plan = Faults.healthy := by subst same; exact quiet
  have cached : b.cache number = some (cacheOf b number m name) := by
    subst same
    exact if_pos rfl
  have keyed' : Keyed b number m name := by subst same; exact keyed
  have knows := @knows_cacheOf codecs b number m placed' countable' some_ reportable name keyed'
  have held : Held b number (cacheOf b number m name) := ⟨placed'.member, cached, (show (1 : UInt32) ≠ 0 by decide)⟩
  obtain ⟨checksums, table, agrees⟩ := sectorChecksums_placed placed' quiet' countable' some_ knows held
  have tried : attempt (Reading.sectorChecksums codecs number) b = .ok (some checksums) b := by
    simp only [attempt, table]
  have count := placed'.count_eq countable' some_
  have positive : 0 < b.blockSize.toNat := by
    rw [placed'.sectorSize]
    exact placed'.positive
  refine ⟨adopted b number checksums, b, ?_, ?_, ?_, ?_⟩
  · unfold streamAdopt
    rw [bind_of_ok (get_run a), bind_of_ok (failIf_false (Nat.not_le.mpr placed.member) _ _),
      bind_of_ok (onPlan_healthy quiet (request_healthy _)), bind_of_ok acquired, orRelease_ok,
      bind_of_ok (get_run b),
      bind_of_ok (keyKnown_placed placed' countable' some_ reportable keyed' cached), bind_of_ok tried,
      bind_of_ok (get_run b), Option.join_some]
    rfl
  · have unread : ∀ P : Prop, (adopted b number checksums).blockValid = true → P := fun P valid => by cases valid
    exact ⟨placed'.member, positive, quiet', whole_placed placed' countable' some_ reportable knows cached,
      countable', rfl, rfl, agrees, unread _⟩
  · refine ⟨fun block data stored => ?_, Nat.zero_le _⟩
    have below : block < m.count := count ▸ dataOf_lt stored
    have content : blockData codecs b number block = some data := stored
    rw [blockData_placed placed' countable' some_ reportable knows cached below, Option.some.injEq] at content
    have base : baseOf (adopted b number checksums) block = block * m.sectorSize := by
      unfold baseOf
      split
      next one =>
        rw [show m.count = 1 from count.symm.trans one] at below
        rw [Nat.lt_one_iff.mp below, Nat.zero_mul]
      next => rw [← placed'.sectorSize]; rfl
    rw [base, ← content, Bytes.piece]
    rw [List.length_take, List.take_eq_take_iff]
    omega
  · exact placed'.size_eq

end opening

def Streams (codecs : Codecs) (a : ReadArchive) (name x : Bytes) : Prop :=
  ∃ s a', streamOpenName codecs name a = .ok s a' ∧ ∀ calls, Exact codecs x (runCalls codecs s calls)

-- Without a slash the normalized name the writer hashes is the name itself.
theorem fileKey_of_noSlash {name : Bytes} (noSlash : 0x2F ∉ name) :
    Writing.fileKey name = Crypto.hashString name 0x300 := by
  have same : Writing.normalize name = name := by
    refine (List.map_congr_left fun c mem => if_neg fun slash => ?_).trans (List.map_id name)
    exact noSlash (slash ▸ mem)
  rw [Writing.fileKey, same]

theorem unfixed_of_known {flags : UInt32} (known : flags &&& ~~~storageFlags = 0) :
    has flags Flag.fixKey = false := by
  have inside : flags &&& Flag.fixKey = flags &&& ~~~storageFlags &&& Flag.fixKey := by
    rw [UInt32.and_assoc]
    rfl
  rw [has, inside, known, UInt32.zero_and]
  rfl

theorem archiveClone_opened {b : WriteArchive} {file : File} {a c : ReadArchive} (opened : Opened b file a)
    (run : openPath file 0 Faults.healthy = .ok c Faults.healthy) : archiveClone a = .ok c a := by
  unfold archiveClone
  rw [bind_of_ok (get_run a), opened.source, opened.archiveOffset]
  refine onPlan_healthy opened.plan ?_
  rw [bind_of_ok (show openPath file ((0 : Nat) : Int) Faults.healthy = .ok c Faults.healthy from run)]
  rfl

section written

open Writing (Written Entry sameIdentity)

variable {codecs : Codecs} {o : CreateOptions} {entries : List Entry} {b : WriteArchive} {file : File}
  {members : List (StoredMember codecs)} (written : Written o entries b file members) {a : ReadArchive}
  (opened : Opened b file a)
include written opened

theorem archiveClone_written : ∃ c, archiveClone a = .ok c a ∧ Opened b file c ∧ SameIndex b c := by
  obtain ⟨c, run, opened', -, same⟩ := openPath_written written (.inl (Eq.refl (0 : Int)))
  exact ⟨c, archiveClone_opened opened run, opened', same⟩

theorem written_streams {i : Nat} {e : Entry} (mem : entries[i]? = some e)
    (first : ∀ (k : Nat) (e' : Entry), k < i → entries[k]? = some e' → sameIdentity e'.name e.name = false)
    (some_ : e.content ≠ []) (readable : Readable o e.options e.content)
    (keyed : has e.options.flags Flag.encrypted = true → 0x2F ∉ e.name) : Streams codecs a e.name e.content := by
  obtain ⟨c, cloned, opened', same⟩ := archiveClone_written written opened
  obtain ⟨m, held, stored, placed⟩ := written_placed written opened' mem some_
  obtain ⟨reportable, countable⟩ := (written_readable_iff written held stored).mp readable
  rw [← stored.content] at some_ ⊢
  have key : Keyed c i m (some e.name) := by
    intro encrypted
    have noSlash := keyed (by rw [← stored.flags Flag.encrypted (by decide)]; exact encrypted)
    have unfixed : has (entry c i).flags Flag.fixKey = false := by
      rw [placed.has_eq (by decide)]
      exact unfixed_of_known m.known
    rw [Option.map_some, fileSeed, (written.contains.member i m held).key, written.names i e mem,
      fileKey_of_noSlash noSlash]
    simp only [unfixed, Bool.false_eq_true, if_false]
  obtain ⟨s, c', run, entire⟩ := streamAdopt_placed placed opened'.plan (placed.countable_iff.mpr countable)
    (.inl some_) reportable key (opened'.cache i)
  refine ⟨s, { a with plan := c'.plan }, ?_, fun calls => (entire.calls calls).exact⟩
  unfold streamOpenName
  rw [bind_of_ok cloned, bind_of_ok (fromExcept_ok.mpr ⟨written_found written same mem first, rfl⟩), onClone,
    opened.plan, ← opened'.plan, run]

end written

theorem journal_streamed {codecs : Codecs} (lossless : codecs.Lossless)
    {o : CreateOptions} {plan : Faults} {start a closed : WriteArchive} {j : Writing.Journal} {archiveOffset : Int}
    (created : Writing.archiveCreate o plan = .ok start) (run : Writing.Journaled codecs plan start a j)
    (finished : Writing.archiveClose codecs a = .ok () closed)
    (offset : archiveOffset = 0 ∨ archiveOffset = -1) :
    ∃ r, openPath closed.disk.file archiveOffset Faults.healthy = .ok r Faults.healthy ∧
      ∀ (i : Nat) (e : Writing.Entry), j.entries[i]? = some e →
        (∀ (k : Nat) (e' : Writing.Entry), k < i → j.entries[k]? = some e' →
          Writing.sameIdentity e'.name e.name = false) →
        e.content ≠ [] → Readable o e.options e.content →
        (has e.options.flags Flag.encrypted = true → 0x2F ∉ e.name) → Streams codecs r e.name e.content := by
  obtain ⟨b, members, written⟩ := (run.recorded lossless created).close lossless finished
  obtain ⟨r, path, opened, -, -⟩ := openPath_written written offset
  exact ⟨r, path, fun i e mem first some_ readable keyed =>
    written_streams written opened mem first some_ readable keyed⟩

theorem journal_streamed_oneByte :
    ∃ a closed r, Writing.Journaled Compression.zeroRunCodecs Faults.healthy
        (Writing.created (Writing.roomForOne 512)) a ⟨.idle, [Writing.oneByte]⟩ ∧
      Writing.archiveClose Compression.zeroRunCodecs a = .ok () closed ∧
      openPath closed.disk.file 0 Faults.healthy = .ok r Faults.healthy ∧
      Streams Compression.zeroRunCodecs r [0x61] [7] := by
  obtain ⟨a, closed, create, run, finished⟩ := Writing.oneByte_journaled
  obtain ⟨r, path, streams⟩ := journal_streamed Compression.zeroRunCodecs_lossless
    create run finished (.inl rfl)
  exact ⟨a, closed, r, run, finished, path, streams 0 Writing.oneByte rfl
    (fun k e' before => absurd before (Nat.not_lt_zero k)) (by decide) oneByte_readable
    fun encrypted => absurd encrypted (by decide)⟩

end Streaming

end LibMpq
