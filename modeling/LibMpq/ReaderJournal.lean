import LibMpq.Integrity
import LibMpq.RoundTrip
import LibMpq.WriterJournal

set_option autoImplicit false

namespace LibMpq

open Effect Bits

namespace Writing

structure Written {codecs : Codecs} (o : CreateOptions) (entries : List Entry) (b : WriteArchive) (file : File)
    (members : List (StoredMember codecs)) : Prop where
  made : CreatedWith o b
  sound : Sound b
  indexed : Indexed b
  contains : Contains b (firstPayloadOf o) members
  layout : Layout o
  stands : Stands o b file
  stored : ∀ (i : Nat) (e : Entry), entries[i]? = some e → ∃ m, members[i]? = some m ∧ Stored e m
  names : ∀ (i : Nat) (e : Entry), entries[i]? = some e → b.names i = e.name
  unsigned : b.signature = false
  extras : ∀ (i : Nat) (m : StoredMember codecs), entries.length ≤ i → members[i]? = some m →
    (b.names i = listfileName ∧ m.flags = Flag.single) ∨
      (b.names i = attributesName ∧ m.flags = Flag.compress ∧ Describes o b members i m.content)

theorem Recorded.close {codecs : Codecs} (lossless : codecs.Lossless) {plan : Faults} {o : CreateOptions}
    {a closed : WriteArchive} {j : Journal} (recorded : Recorded codecs plan o a j)
    (run : archiveClose codecs a = .ok () closed) :
    ∃ (b : WriteArchive) (members : List (StoredMember codecs)),
      Written o j.entries b closed.disk.file members := by
  obtain ⟨b₁, b₂, b, c, steps, file⟩ := archiveClose_steps run
  obtain ⟨a₀, members, before, -, leaves, -⟩ := recorded.stands
  have standing := before.settle leaves steps.idle
  have made := recorded.built.made
  obtain ⟨members', done⟩ := steps.closed lossless made.toCreatedWith standing.sound standing.contains
  have names := steps.names made recorded.built.inv recorded.built.indexed
  have made' := names.builds.made o made
  have layout := layout_of_fits made'.toCreatedWith done.grown.sound done.fits
  obtain ⟨disk, written, finished⟩ := steps.written
  have unsigned := signatureFinish_unsigned finished made'.signature made'.strongSignature
  have count : j.entries.length = members.length := standing.stored.length_eq
  refine ⟨b, members', ⟨made'.toCreatedWith, done.grown.sound, names.builds.indexed, done.grown.contains, layout,
    ?_, fun i e mem => ?_, fun i e mem => ?_, made'.signature, fun i m past mem => ?_⟩⟩
  · rw [file, unsigned, show ({ b with disk } : WriteArchive).disk.file = closedFile b from written]
    exact closedFile_stands made'.toCreatedWith layout
  · obtain ⟨inside, rfl⟩ := List.getElem?_eq_some_iff.mp mem
    have inside' : i < members.length := count ▸ inside
    obtain ⟨rest, rfl⟩ := done.grown.grows
    refine ⟨members[i], ?_, List.Forall₂.get standing.stored inside inside'⟩
    rw [List.getElem?_append_left inside', List.getElem?_eq_getElem inside']
  · have inside := (List.getElem?_eq_some_iff.mp mem).1
    rw [done.grown.names i (count ▸ inside), standing.names i e mem]
  · exact done.extras i m (count ▸ past) mem

end Writing

namespace Reading

open Writing (Written Entry Stored Journaled sameIdentity)

section written

variable {codecs : Codecs} {o : CreateOptions} {entries : List Entry} {b : WriteArchive} {file : File}
  {members : List (StoredMember codecs)} (written : Written o entries b file members)
include written

theorem openPath_written {archiveOffset : Int} (start : archiveOffset = 0 ∨ archiveOffset = -1) :
    ∃ a, openPath file archiveOffset Faults.healthy = .ok a Faults.healthy ∧ Opened b file a ∧ Handle a ∧
      SameIndex b a := by
  obtain ⟨a, run, opened⟩ := openSource_closed written.made written.sound written.contains written.layout
    written.stands start
  obtain ⟨a', path, same⟩ := openPath_sameIndex written.made written.sound written.indexed written.layout
    written.stands start
  have both : openPath file archiveOffset Faults.healthy = .ok a Faults.healthy := by
    rw [openPath, bind_of_ok (request_healthy _), bind_of_ok (request_healthy _), run]
  rw [both] at path
  cases path
  exact ⟨a, both, opened, openSource_handle run, same⟩

variable {a : ReadArchive} (opened : Opened b file a) (handle : Handle a) (same : SameIndex b a)

omit opened in
include same in
theorem written_found {i : Nat} {e : Entry} (mem : entries[i]? = some e)
    (first : ∀ (k : Nat) (e' : Entry), k < i → entries[k]? = some e' → sameIdentity e'.name e.name = false) :
    fileNumber a e.name = .ok i := by
  have inside := (List.getElem?_eq_some_iff.mp mem).1
  obtain ⟨m, held, -⟩ := written.stored i e mem
  have below : i < b.nextBlock := written.contains.count ▸ (List.getElem?_eq_some_iff.mp held).1
  rw [← written.names i e mem]
  refine same.fileNumber_eq written.sound written.indexed below fun k less => ?_
  have earlier : k < entries.length := less.trans inside
  have other := first k entries[k] less (List.getElem?_eq_getElem earlier)
  rw [written.names i e mem, written.names k _ (List.getElem?_eq_getElem earlier)]
  exact Writing.sameIdentity_false.mp other

include opened in
theorem written_placed {i : Nat} {e : Entry} (mem : entries[i]? = some e) (some_ : e.content ≠ []) :
    ∃ m : StoredMember codecs, members[i]? = some m ∧ Stored e m ∧ Placed a i m := by
  obtain ⟨m, held, stored⟩ := written.stored i e mem
  have some_ : m.content ≠ [] := by rwa [stored.content]
  exact ⟨m, held, stored, opened.placed_member written.made written.sound written.stands written.contains held
    stored.exclusive fun empty => absurd empty (m.image_ne_nil some_)⟩

include opened in
theorem written_attested (own : ∀ e ∈ entries, sameIdentity e.name attributesName = false) {i : Nat} {e : Entry}
    (mem : entries[i]? = some e) {m : StoredMember codecs} (held : members[i]? = some m) :
    attested codecs a i m.content = true := by
  have inside := (List.getElem?_eq_some_iff.mp mem).1
  refine attested_closed opened written.made written.sound written.stands written.contains written.layout
    written.extras (fun n found => ?_) held inside fun signed => ?_
  · obtain ⟨below, identity, identity'⟩ := fileNumber_ok opened written.contains written.sound found
    by_contra early
    have early := Nat.not_le.mp early
    have other := own _ (List.getElem_mem early)
    rw [← written.names n _ (List.getElem?_eq_getElem early)] at other
    rcases Writing.sameIdentity_false.mp other with differs | differs
    · exact differs identity
    · exact differs identity'
  · rw [written.unsigned] at signed
    cases signed

theorem written_readable_iff {i : Nat} {e : Entry} {m : StoredMember codecs} (held : members[i]? = some m)
    (stored : Stored e m) : Readable o e.options e.content ↔
      Reportable m ∧ (has m.flags Flag.single = true ∨ m.content.length + m.sectorSize ≤ 2 ^ 32) := by
  have sector : m.sectorSize = Writing.sectorSizeOf o :=
    (written.contains.member i m held).sectorSize.trans written.made.sectorSize
  rw [Readable, Reportable, sector, stored.content, stored.flags Flag.single (by decide)]

include opened handle in
theorem written_delivers_iff (own : ∀ e ∈ entries, sameIdentity e.name attributesName = false) {i : Nat} {e : Entry}
    (mem : entries[i]? = some e) (some_ : e.content ≠ []) (plain : has e.options.flags Flag.encrypted = false) :
    Delivers codecs a i e.content ↔ Readable o e.options e.content := by
  obtain ⟨m, held, stored, placed⟩ := written_placed written opened mem some_
  have unit := (written.contains.member i m held).sectorSize
  have attests := written_attested written opened own mem held
  rw [written_readable_iff written held stored, ← stored.content]
  rw [← stored.content] at some_
  rw [← stored.flags Flag.encrypted (by decide)] at plain
  constructor
  · intro delivers
    obtain ⟨data, read, -⟩ := delivers m.content (Nat.le_refl _)
    exact placed.readable written.made unit some_ read
  · rintro ⟨reportable, countable⟩
    exact opened.delivers handle placed (.inl some_) plain (.inr attests) reportable countable

omit written in
theorem Intact.verifies {c : ReadArchive} {i : Nat} {x : Bytes} {checksums : Option (Nat → UInt32)}
    (handle : Handle a) (quiet : a.plan = Faults.healthy)
    (intact : Intact codecs a i x c checksums) (ordinary : Ordinary a i) (countable : Countable a i)
    (attests : Reading.attested codecs a i x = true) :
    verdict (verifyFile codecs i (applicable codecs a) a) = .ok 0 := by
  obtain ⟨flags, storage, checks, verified⟩ := verifyFile_loaded handle quiet ordinary intact.loaded
  have clean : mismatchBits codecs c i flags (rowOf codecs a i) checksums (countFileBlocks a i) = 0 := by
    refine (mismatchBits_zero checks checksums (countFileBlocks a i)).mpr ⟨intact.agrees, ?_⟩
    rw [intact.content, ← attested_eq]
    exact attests
  rw [verified, clean, if_pos countable, ite_self]

include opened handle in
theorem written_verifies (own : ∀ e ∈ entries, sameIdentity e.name attributesName = false) {i : Nat} {e : Entry}
    (mem : entries[i]? = some e) (some_ : e.content ≠ []) (plain : has e.options.flags Flag.encrypted = false)
    (readable : Readable o e.options e.content) (unsigned : sameIdentity e.name signatureName = false) :
    verdict (verifyFile codecs i (applicable codecs a) a) = .ok 0 := by
  obtain ⟨m, held, stored, placed⟩ := written_placed written opened mem some_
  have attests := written_attested written opened own mem held
  obtain ⟨reportable, countable⟩ := (written_readable_iff written held stored).mp readable
  rw [← stored.content] at some_
  rw [← stored.flags Flag.encrypted (by decide)] at plain
  have countable := placed.countable_iff.mpr countable
  have other : ∀ name, sameIdentity e.name name = false → isMember a name i = false := by
    intro name differs
    unfold isMember
    cases found : fileNumber a name with
    | error _ => rfl
    | ok n =>
      refine decide_eq_false fun same => ?_
      obtain ⟨-, identity, identity'⟩ := fileNumber_ok opened written.contains written.sound found
      rw [same, written.names i e mem] at identity identity'
      rcases Writing.sameIdentity_false.mp differs with apart | apart
      · exact apart identity
      · exact apart identity'
  obtain ⟨c, checksums, intact⟩ := placed.intact opened.plan countable reportable (.inl some_) plain (opened.cache i)
  exact intact.verifies handle opened.plan
    ⟨placed.member, other _ (own e (List.mem_of_getElem? mem)), other _ unsigned⟩ countable attests

end written

structure Serves (codecs : Codecs) (o : CreateOptions) (entries : List Entry) (a : ReadArchive) : Prop where
  delivers : ∀ (i : Nat) (e : Entry), entries[i]? = some e → e.content ≠ [] →
    has e.options.flags Flag.encrypted = false → (Delivers codecs a i e.content ↔ Readable o e.options e.content)
  found : ∀ (i : Nat) (e : Entry), entries[i]? = some e →
    (∀ (k : Nat) (e' : Entry), k < i → entries[k]? = some e' → sameIdentity e'.name e.name = false) →
    fileNumber a e.name = .ok i

theorem journal_served {codecs : Codecs} (lossless : codecs.Lossless)
    {o : CreateOptions} {plan : Faults} {start a closed : WriteArchive} {j : Writing.Journal} {archiveOffset : Int}
    (created : Writing.archiveCreate o plan = .ok start) (run : Journaled codecs plan start a j)
    (finished : Writing.archiveClose codecs a = .ok () closed)
    (own : ∀ e ∈ j.entries, sameIdentity e.name attributesName = false)
    (offset : archiveOffset = 0 ∨ archiveOffset = -1) :
    ∃ r, openPath closed.disk.file archiveOffset Faults.healthy = .ok r Faults.healthy ∧
      Serves codecs o j.entries r := by
  obtain ⟨b, members, written⟩ := (run.recorded lossless created).close lossless finished
  obtain ⟨r, path, opened, handle, same⟩ := openPath_written written offset
  exact ⟨r, path, fun i e mem some_ plain => written_delivers_iff written opened handle own mem some_ plain,
    fun i e mem first => written_found written same mem first⟩

theorem journal_verified {codecs : Codecs} (lossless : codecs.Lossless)
    {o : CreateOptions} {plan : Faults} {start a closed : WriteArchive} {j : Writing.Journal} {archiveOffset : Int}
    (created : Writing.archiveCreate o plan = .ok start) (run : Journaled codecs plan start a j)
    (finished : Writing.archiveClose codecs a = .ok () closed)
    (own : ∀ e ∈ j.entries, sameIdentity e.name attributesName = false)
    (offset : archiveOffset = 0 ∨ archiveOffset = -1) :
    ∃ r, openPath closed.disk.file archiveOffset Faults.healthy = .ok r Faults.healthy ∧
      ∀ (i : Nat) (e : Entry), j.entries[i]? = some e → e.content ≠ [] →
        has e.options.flags Flag.encrypted = false → Readable o e.options e.content →
        sameIdentity e.name signatureName = false →
        verdict (verifyFile codecs i (applicable codecs r) r) = .ok 0 := by
  obtain ⟨b, members, written⟩ := (run.recorded lossless created).close lossless finished
  obtain ⟨r, path, opened, handle, -⟩ := openPath_written written offset
  exact ⟨r, path, fun i e mem some_ plain readable unsigned =>
    written_verifies written opened handle own mem some_ plain readable unsigned⟩

end Reading

namespace Writing

def oneByte : Entry := ⟨[0x61], [7], .default⟩

theorem Journaled.add {codecs : Codecs} {plan : Faults} {start a a' : WriteArchive} {entries : List Entry}
    (run : Journaled codecs plan start a ⟨.idle, entries⟩) {name data : Bytes} {options : FileOptions}
    (lawful : Lawful plan options) (added : fileAdd codecs name data options a = .ok () a')
    (more : a'.nextBlock ≠ a.nextBlock) :
    Journaled codecs plan start a' ⟨.idle, entries ++ [⟨name, data, options⟩]⟩ := by
  have allowed : Allowed plan ⟨.idle, entries⟩ (.member (.add name data options)) := by
    constructor
    case lawful =>
      intro options' wanted
      cases wanted
      exact lawful
    case known => exact fun finish => by cases finish
    case served => exact fun _ _ _ path => by cases path
  have next := run.next _ allowed
  change Journaled _ _ _ (final (fileAdd codecs name data options a))
    (Journal.record _ (answerOf a (fileAdd codecs name data options a)) _) at next
  have answer : (answerOf a (fileAdd codecs name data options a)).published = true := by
    rw [added]
    exact decide_eq_true more
  rwa [Journal.record, answer, added] at next

theorem oneByte_journaled :
    ∃ a closed, archiveCreate (roomForOne 512) Faults.healthy = .ok (created (roomForOne 512)) ∧
      Journaled Compression.zeroRunCodecs Faults.healthy (created (roomForOne 512)) a ⟨.idle, [oneByte]⟩ ∧
      archiveClose Compression.zeroRunCodecs a = .ok () closed := by
  have layout := roomForOne_layout 512
  have create := @archiveCreate_calm (roomForOne 512) (by decide) fun _ => layout.payload
  obtain ⟨a, closed, added, finished⟩ := @raw_member_runs Compression.zeroRunCodecs
    (roomForOne 512) [0x61] [7] Compression.zeroRunCodecs_lossless (by decide) layout (by decide) rfl (by decide) false
  rw [show rawOptions false = .default from rfl] at added
  obtain ⟨made, sound, idle, begins, -, -, -, contains⟩ := @archiveCreate_contains Compression.zeroRunCodecs _ _ _ create
  obtain ⟨members, grown, -, -, outcome⟩ := fileAdd_grown Compression.zeroRunCodecs_lossless sound contains (by decide)
    (fun compressed => absurd compressed (by decide)) (fun encrypted => absurd encrypted (by decide)) idle added
  have more : a.nextBlock ≠ 0 := by
    rcases outcome with ⟨m, new, -⟩ | ⟨m, skipped, -⟩
    · rw [new.nextBlock]
      exact Nat.succ_ne_zero _
    · have made' : MadeWith (roomForOne 512) a := ⟨grown.made _ made.toCreatedWith,
        grown.signed.1.trans made.signature, grown.signed.2.trans made.strongSignature⟩
      obtain ⟨b, members', done, -⟩ := archiveClose_ok Compression.zeroRunCodecs_lossless made' grown.sound
        grown.contains finished
      have grows := done.grown.agrees.size.trans
        (tabled_stands (done.grown.made _ made'.toCreatedWith) layout).2.2.2.2
      exact absurd (not_skipped skipped (by decide) begins layout grows done.fits) not_false
  have lawful : Lawful Faults.healthy .default :=
    ⟨by decide, fun compressed => absurd compressed (by decide), fun _ => rfl⟩
  exact ⟨a, closed, create, Journaled.start.add lawful added more, finished⟩

end Writing

namespace Reading

open Writing (Journaled sameIdentity)

theorem oneByte_readable : Readable (Writing.roomForOne 512) Writing.oneByte.options Writing.oneByte.content :=
  ⟨by decide, .inr (by decide)⟩

theorem oneByte_own : ∀ e ∈ [Writing.oneByte], sameIdentity e.name attributesName = false := by
  intro e mem
  rw [List.mem_singleton.mp mem]
  decide

theorem journal_served_oneByte :
    ∃ a closed r, Journaled Compression.zeroRunCodecs Faults.healthy (Writing.created (Writing.roomForOne 512)) a
        ⟨.idle, [Writing.oneByte]⟩ ∧
      Writing.archiveClose Compression.zeroRunCodecs a = .ok () closed ∧
      openPath closed.disk.file 0 Faults.healthy = .ok r Faults.healthy ∧ fileNumber r [0x61] = .ok 0 ∧
      Delivers Compression.zeroRunCodecs r 0 [7] := by
  obtain ⟨a, closed, create, run, finished⟩ := Writing.oneByte_journaled
  obtain ⟨r, path, served⟩ := journal_served Compression.zeroRunCodecs_lossless
    create run finished oneByte_own (.inl rfl)
  refine ⟨a, closed, r, run, finished, path, ?_, ?_⟩
  · exact served.found 0 Writing.oneByte rfl fun k e' before => absurd before (Nat.not_lt_zero k)
  · exact (served.delivers 0 Writing.oneByte rfl (by decide) (by decide)).mpr oneByte_readable

theorem journal_verified_oneByte :
    ∃ a closed r, Journaled Compression.zeroRunCodecs Faults.healthy (Writing.created (Writing.roomForOne 512)) a
        ⟨.idle, [Writing.oneByte]⟩ ∧
      Writing.archiveClose Compression.zeroRunCodecs a = .ok () closed ∧
      openPath closed.disk.file 0 Faults.healthy = .ok r Faults.healthy ∧
      verdict (verifyFile Compression.zeroRunCodecs 0 (applicable Compression.zeroRunCodecs r) r) = .ok 0 := by
  obtain ⟨a, closed, create, run, finished⟩ := Writing.oneByte_journaled
  obtain ⟨r, path, verified⟩ := journal_verified Compression.zeroRunCodecs_lossless
    create run finished oneByte_own (.inl rfl)
  exact ⟨a, closed, r, run, finished, path, verified 0 Writing.oneByte rfl (by decide) (by decide) oneByte_readable
    (by decide)⟩

end Reading

end LibMpq
