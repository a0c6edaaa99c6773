import LibMpq.Lookup
import LibMpq.NameHash
import LibMpq.ReaderOpen
import LibMpq.WriterIndex

set_option autoImplicit false

namespace LibMpq

open Effect Bits

namespace Writing

theorem fileAdd_names {codecs : Codecs} {name data : Bytes} {options : FileOptions}
    {a a' : WriteArchive} (sound : Sound a) (run : fileAdd codecs name data options a = .ok () a') :
    ∀ i, a.nextBlock ≤ i → i < a'.nextBlock → a'.names i = name := by
  obtain ⟨w, b, s, s', prepared, wrote, ended, rfl⟩ := fileAdd_ok run
  obtain ⟨⟨disk, rows, rfl⟩, room, -⟩ := prepareWriter_ok prepared
  obtain ⟨offsets, checksums, writer⟩ := (prepareWriter_begun prepared).writer
  have follows := (streamWrite_follows codecs data).ok wrote
  obtain ⟨disk', archive⟩ := follows.archive
  have sound' := (sound.congr disk rows (some w)).follows follows
  have finishes := @streamEnd_finishes codecs ⟨s.writer, { s.archive with current := some s.writer }⟩
    (sound'.congr _ _ _) (by rw [archive]; exact room)
  rw [ended] at finishes
  intro i past below
  rcases finishes with kept | ⟨t, blockOffset, total, pos, kept, -, published⟩
  · obtain ⟨disk'', same⟩ := kept.archive
    rw [final_ok] at same
    rw [same, archive] at below
    exact absurd below (Nat.not_lt.mpr past)
  · obtain ⟨disk'', same⟩ := kept.archive
    rw [final_ok] at published
    rw [published, same, archive] at below ⊢
    have here : i = a.nextBlock := Nat.le_antisymm (Nat.le_of_lt_succ below) past
    rw [here]
    refine (if_pos rfl).trans ?_
    rw [kept.name, follows.name, writer]
    rfl

def Internal (o : CreateOptions) (name : Bytes) : Prop :=
  (has o.flags createListfile = true ∧ name = listfileName) ∨ (o.attributes ≠ 0 ∧ name = attributesName)

structure ClosedNames (o : CreateOptions) (a b : WriteArchive) : Prop where
  builds : Builds a b
  extras : ∀ i, a.nextBlock ≤ i → i < b.nextBlock → Internal o (b.names i)

theorem ClosedNames.trans {o : CreateOptions} {a b c : WriteArchive} (first : ClosedNames o a b)
    (second : ClosedNames o b c) : ClosedNames o a c where
  builds := first.builds.trans second.builds
  extras i past below := by
    by_cases old : i < b.nextBlock
    · rw [second.builds.names i old]
      exact first.extras i past old
    · exact second.extras i (Nat.not_lt.mp old) below

theorem ClosedNames.settled {o : CreateOptions} {a : WriteArchive} (inv : Inv a) (indexed : Indexed a)
    (idle : a.current = none) (disk : Disk) (rows : Option (Nat → FileAttributes)) (internal : Bool) :
    ClosedNames o a { a with disk, attributes := rows, internal } := by
  refine ⟨⟨⟨?_, fun w active => ?_⟩, indexed.congr disk rows a.current internal, fun _ made => ?_,
    le_rfl, fun _ _ => rfl⟩, fun i past below => absurd below (Nat.not_lt.mpr past)⟩
  · have sound := inv.sound
    exact ⟨sound.version, sound.hashCapacity, sound.capacity, sound.sectorSize, sound.nextBlock,
      sound.index, sound.used⟩
  · have none : a.current = some w := active
    rw [idle] at none
    cases none
  · exact ⟨⟨made.valid, made.header, made.headerEx, made.capacity, made.hashCapacity, made.sectorSize,
      made.flags, made.attributesFlags, made.patchMode⟩, made.signature, made.strongSignature⟩

theorem fileAdd_closedNames {codecs : Codecs} {o : CreateOptions} {name data : Bytes}
    {options : FileOptions} {a a' : WriteArchive} (inv : Inv a) (indexed : Indexed a)
    (named : Internal o name) (run : fileAdd codecs name data options a = .ok () a') :
    ClosedNames o a a' ∧ a'.current = none := by
  refine ⟨⟨((stable_extends codecs).add name data options).ok run inv indexed, fun i past below => ?_⟩, ?_⟩
  · rw [fileAdd_names inv.sound run i past below]
    exact named
  · obtain ⟨_, _, _, _, -, -, -, rfl⟩ := fileAdd_ok run
    rfl

theorem addListfile_closedNames {codecs : Codecs} {o : CreateOptions} {a a' : WriteArchive}
    (made : MadeWith o a) (inv : Inv a) (indexed : Indexed a) (idle : a.current = none)
    (run : addListfile codecs a = .ok () a') : ClosedNames o a a' ∧ a'.current = none := by
  unfold addListfile at run
  rw [bind_of_ok (get_run a)] at run
  split at run
  next wanted =>
    obtain ⟨_, b, grant, run⟩ := bind_ok.mp run
    obtain ⟨disk, -, rfl⟩ := onDisk_ok.mp grant
    have settled := @ClosedNames.settled o a inv indexed idle disk a.attributes a.internal
    obtain ⟨added, current⟩ := fileAdd_closedNames settled.builds.inv settled.builds.indexed
      (.inl ⟨made.flags ▸ wanted, rfl⟩) run
    exact ⟨settled.trans added, current⟩
  next =>
    obtain ⟨-, rfl⟩ := pure_ok.mp run
    exact ⟨ClosedNames.settled inv indexed idle a'.disk a'.attributes a'.internal, idle⟩

theorem addAttributes_closedNames {codecs : Codecs} {o : CreateOptions} {a a' : WriteArchive}
    (made : MadeWith o a) (inv : Inv a) (indexed : Indexed a) (idle : a.current = none)
    (run : addAttributes codecs a = .ok () a') : ClosedNames o a a' := by
  unfold addAttributes at run
  rw [bind_of_ok (get_run a)] at run
  split at run
  next wanted =>
    rw [bind_of_ok (modify_run _ _)] at run
    obtain ⟨raw, b, serialized, run⟩ := bind_ok.mp run
    obtain ⟨disk, -, rfl⟩ := onDisk_ok.mp serialized
    have settled := @ClosedNames.settled o a inv indexed idle disk
      (some (markPatches a (a.attributes.getD fun _ => .none))) a.internal
    have added := (fileAdd_closedNames settled.builds.inv settled.builds.indexed
      (.inr ⟨made.attributesFlags ▸ wanted, rfl⟩) run).1
    exact settled.trans added
  next =>
    obtain ⟨-, rfl⟩ := pure_ok.mp run
    exact ClosedNames.settled inv indexed idle a'.disk a'.attributes a'.internal

theorem CloseSteps.names {codecs : Codecs} {o : CreateOptions} {a b₁ b₂ b c : WriteArchive}
    (steps : CloseSteps codecs a b₁ b₂ b c) (made : MadeWith o a) (inv : Inv a) (indexed : Indexed a) :
    ClosedNames o a b := by
  have marked : ClosedNames o a b₁ ∧ b₁.current = none := by
    have reserved := steps.reserved
    have prepares : ∃ disk rows, b₁ = { a with internal := true, disk, attributes := rows } := by
      unfold reserveRows at reserved
      rw [bind_of_ok (get_run _)] at reserved
      split at reserved
      next =>
        obtain ⟨_, d, grant, reserved⟩ := bind_ok.mp reserved
        obtain ⟨disk, -, rfl⟩ := onDisk_ok.mp grant
        cases reserved
        exact ⟨disk, _, rfl⟩
      next =>
        cases reserved
        exact ⟨a.disk, a.attributes, rfl⟩
    obtain ⟨disk, rows, rfl⟩ := prepares
    exact ⟨ClosedNames.settled inv indexed steps.idle disk rows true, steps.idle⟩
  obtain ⟨closed₁, idle₁⟩ := marked
  have made₁ := closed₁.builds.made o made
  obtain ⟨closed₂, idle₂⟩ := addListfile_closedNames made₁ closed₁.builds.inv closed₁.builds.indexed
    idle₁ steps.listed
  have made₂ := closed₂.builds.made o made₁
  have closed₃ := addAttributes_closedNames made₂ closed₂.builds.inv closed₂.builds.indexed idle₂
    steps.described
  exact closed₁.trans (closed₂.trans closed₃)

theorem archiveClose_names {codecs : Codecs} {o : CreateOptions} {a a' : WriteArchive}
    (made : MadeWith o a) (inv : Inv a) (indexed : Indexed a)
    (run : archiveClose codecs a = .ok () a') :
    ∃ b, ClosedNames o a b ∧ (tabled b).size ≤ uint32Max ∧ a'.disk.file = closedFile b := by
  obtain ⟨b₁, b₂, b, c, steps, file⟩ := archiveClose_steps run
  have names := steps.names made inv indexed
  have made' := names.builds.made o made
  obtain ⟨disk, written, finished⟩ := steps.written
  have unsigned := signatureFinish_unsigned finished made'.signature made'.strongSignature
  refine ⟨b, names, steps.fits, ?_⟩
  rw [file, unsigned]
  exact written

/-- The calls that add members, whole or piece by piece. -/
inductive Addition where
  | member (call : Call)
  | path (name : Bytes) (source : Disk) (options : FileOptions)

def Addition.request : Addition → Request
  | .member call => .member call
  | .path name source options => .addPath name source options

def Addition.name (a : WriteArchive) : Addition → Option Bytes
  | .member .finish => a.current.map (·.name)
  | .member (.add name _ _) => some name
  | .member _ => none
  | .path name _ _ => some name

-- The names that the call hands to the library.
def Addition.handed : Addition → List Bytes
  | .member (.begin name _ _) => [name]
  | .member (.add name _ _) => [name]
  | .member _ => []
  | .path name _ _ => [name]

def Addition.Hashable (addition : Addition) : Prop := ∀ name ∈ addition.handed, Crypto.Hashable name

instance (addition : Addition) : Decidable addition.Hashable :=
  inferInstanceAs (Decidable (∀ name ∈ addition.handed, Crypto.Hashable name))

def build (codecs : Codecs) (additions : List Addition) (a : WriteArchive) : WriteArchive :=
  serve codecs (additions.map Addition.request) a

theorem Addition.run_extends (codecs : Codecs) (addition : Addition) :
    Keeps Extends (addition.request.run codecs) := by
  cases addition with
  | member call => exact (stable_extends codecs).call call
  | path name source options => exact (stable_extends codecs).addPath name source options

theorem build_extends (codecs : Codecs) (additions : List Addition) (a : WriteArchive) :
    Extends a (build codecs additions a) := by
  induction additions generalizing a with
  | nil => exact refl_of Extends a
  | cons addition rest ih => exact trans_of Extends (addition.run_extends codecs a) (ih _)

theorem Addition.run_inserts (codecs : Codecs) (addition : Addition) {a : WriteArchive} (inv : Inv a)
    (indexed : Indexed a) :
    Inserts (addition.name a) a (final (addition.request.run codecs a)) := by
  cases addition with
  | member call =>
    cases call with
    | begin name size options =>
      refine .inl ?_
      simp only [request, Request.run, Call.run]
      cases run : fileBegin name size options a with
      | ok _ a' => exact (fileBegin_begins run).1
      | error e a' => exact (fileBegin_refused run).1
    | write data => exact .inl (fileWrite_writesOn codecs data a).1
    | finish => exact fileFinish_inserts inv
    | abort => exact .inl rfl
    | add name data options =>
      exact addWith_inserts (fileWrite_writesOn codecs data) (fileWrite_extends codecs data) inv indexed
  | path name source options =>
    simp only [request, Request.run, fileAddPath]
    cases openPath source with
    | error e _ => exact .inl rfl
    | ok size source =>
      exact addWith_inserts (copyPages_keeps (fileWrite_writesOn codecs) _ _)
        (copyPages_keeps (fileWrite_extends codecs) _ _) inv indexed

-- The name of the active member, if there is one, can be hashed.
def CurrentHashable (a : WriteArchive) : Prop := ∀ w, a.current = some w → Crypto.Hashable w.name

theorem CurrentHashable.idle {a : WriteArchive} (idle : a.current = none) : CurrentHashable a := by
  intro w active
  rw [idle] at active
  cases active

theorem CurrentHashable.congr {a a' : WriteArchive} (kept : CurrentHashable a)
    (same : a'.current.map (·.name) = a.current.map (·.name)) : CurrentHashable a' := by
  intro w active
  rw [active, Option.map_some, eq_comm, Option.map_eq_some_iff] at same
  obtain ⟨w', active', named⟩ := same
  rw [← named]
  exact kept w' active'

theorem fileBegin_hashable {name : Bytes} {size : Int} {options : FileOptions} {a : WriteArchive}
    (kept : CurrentHashable a) (plain : Crypto.Hashable name) :
    CurrentHashable (final (fileBegin name size options a)) := by
  cases run : fileBegin name size options a with
  | ok _ b =>
    intro w active
    rw [final_ok] at active
    have named := (fileBegin_begins run).2
    rw [active] at named
    cases named
    exact plain
  | error e b => exact kept.congr (congrArg _ (fileBegin_refused run).2)

theorem fileFinish_idle (codecs : Codecs) (a : WriteArchive) :
    (final (fileFinish codecs a)).current = none := by
  unfold fileFinish dropWriter
  cases withWriter .exist (streamEnd codecs) a <;> rfl

theorem addWith_hashable {codecs : Codecs} {name : Bytes} {size : Int} {options : FileOptions}
    {fill : Op Error WriteArchive Unit} {a : WriteArchive} (kept : CurrentHashable a)
    (plain : Crypto.Hashable name) :
    CurrentHashable (final (addWith codecs name size options fill a)) := by
  have begun := @fileBegin_hashable name size options a kept plain
  unfold addWith
  cases begin : fileBegin name size options a with
  | error e b =>
    rw [bind_of_error begin]
    rwa [begin] at begun
  | ok _ b =>
    rw [bind_of_ok begin]
    cases filled : fill b with
    | error e c =>
      rw [bind_of_error (orAbort_of_error filled)]
      exact .idle rfl
    | ok _ c =>
      rw [bind_of_ok (orAbort_of_ok filled)]
      exact .idle (fileFinish_idle codecs c)

theorem Addition.run_hashable (codecs : Codecs) {addition : Addition} (plain : addition.Hashable)
    {a : WriteArchive} (kept : CurrentHashable a) :
    CurrentHashable (final (addition.request.run codecs a)) := by
  cases addition with
  | member call =>
    cases call with
    | begin name size options => exact fileBegin_hashable kept (plain name (by simp [handed]))
    | write data => exact kept.congr (fileWrite_writesOn codecs data a).2
    | finish => exact .idle (fileFinish_idle codecs a)
    | abort => exact .idle rfl
    | add name data options => exact addWith_hashable kept (plain name (by simp [handed]))
  | path name source options =>
    simp only [request, Request.run, fileAddPath]
    cases openPath source with
    | error e _ => exact kept
    | ok size source => exact addWith_hashable kept (plain name (by simp [handed]))

theorem build_hashable (codecs : Codecs) {additions : List Addition}
    (plain : ∀ addition ∈ additions, addition.Hashable) {a : WriteArchive} (kept : CurrentHashable a) :
    CurrentHashable (build codecs additions a) := by
  induction additions generalizing a with
  | nil => exact kept
  | cons addition rest ih =>
    have here := Addition.run_hashable codecs (plain addition (by simp)) kept
    exact ih (fun later mem => plain later (by simp [mem])) here

end Writing

namespace Reading

-- `libmpq__file_number` with its reads of the crypt table watched: no result if one is outside.
def watchedNumber (a : ReadArchive) (name : Bytes) : Option (Except Error Nat) := do
  let _ ← Crypto.watchedHash name 0
  let _ ← Crypto.watchedHash name 0x100
  let _ ← Crypto.watchedHash name 0x200
  pure (fileNumber a name)

theorem watchedNumber_hashable (a : ReadArchive) {name : Bytes} (plain : Crypto.Hashable name) :
    watchedNumber a name = some (fileNumber a name) := by
  rw [watchedNumber, (Crypto.hashes_plain plain (by decide)).1, (Crypto.hashes_plain plain (by decide)).1,
    (Crypto.hashes_plain plain (by decide)).1]
  rfl

structure SameIndex (b : WriteArchive) (a : ReadArchive) : Prop where
  decoded : Decoded a
  size : hashTableSize a = b.hashCapacity
  blocks : a.header.blockTableCount.toNat = b.capacity
  hash : ∀ pos, pos < b.hashCapacity → a.hash pos = b.hash pos
  existing : ∀ i, i < b.nextBlock → existing a.block i = true

theorem rank_eq {block : Nat → BlockEntry} {i : Nat} (all : ∀ j, j < i → existing block j = true) :
    rank block i = i := by
  induction i with
  | zero => rfl
  | succ i ih =>
    rw [rank_succ, ih fun j below => all j (by omega), all i (by omega)]
    rfl

section index

variable {b : WriteArchive} {a : ReadArchive}

theorem SameIndex.chain (same : SameIndex b a) (positive : 0 < b.hashCapacity) (name : Bytes) (k : Nat) :
    Probing.slot (hashTableSize a) (homeOf a (fileHash name)) k = Writing.chainSlot b name k ∧
      Writing.chainSlot b name k < b.hashCapacity := by
  refine ⟨?_, Probing.slot_lt positive _ _⟩
  rw [homeOf, same.size, Writing.chainSlot, Probing.slot, Probing.slot, Nat.mod_add_mod]

theorem SameIndex.entryAt (same : SameIndex b a) (positive : 0 < b.hashCapacity) (name : Bytes) (k : Nat) :
    entryAt a (fileHash name) k = b.hash (Writing.chainSlot b name k) := by
  obtain ⟨here, inside⟩ := same.chain positive name k
  rw [Reading.entryAt, here, same.hash _ inside]

theorem SameIndex.reaches (same : SameIndex b a) {name : Bytes} {k : Nat}
    (inside : k < b.hashCapacity)
    (used : ∀ j, j ≤ k → Writing.taken b (Writing.chainSlot b name j) = true) :
    Probing.Reaches (hashTableSize a) (homeOf a (fileHash name)) (neverUsed a) k := by
  have positive : 0 < b.hashCapacity := by omega
  refine ⟨same.size ▸ inside, fun j le => ?_⟩
  obtain ⟨here, bound⟩ := same.chain positive name j
  rw [here, neverUsed, same.hash _ bound]
  simpa [Writing.taken] using used j le

theorem SameIndex.fileNumber_eq (same : SameIndex b a) (sound : Writing.Sound b)
    (indexed : Writing.Indexed b) {i : Nat} (below : i < b.nextBlock)
    (distinct : ∀ j, j < i → (fileHash (b.names j)).hash2 ≠ (fileHash (b.names i)).hash2 ∨
      (fileHash (b.names j)).hash3 ≠ (fileHash (b.names i)).hash3) :
    fileNumber a (b.names i) = .ok i := by
  obtain ⟨k, inside, here, index, before⟩ := indexed.chain i below
  have positive : 0 < b.hashCapacity := by omega
  have used : ∀ j, j ≤ k → Writing.taken b (Writing.chainSlot b (b.names i) j) = true := by
    intro j le
    rcases Nat.lt_or_eq_of_le le with less | rfl
    · exact (before j less).1
    · exact here
  obtain ⟨hashA, hashB⟩ := indexed.slots _ here
  rw [index] at hashA hashB
  have matching : Matching a (fileHash (b.names i)) k := by
    rw [Matching, same.entryAt positive, hashA, hashB]
    exact ⟨same.reaches inside used, rfl, rfl⟩
  have first : ∀ j, j < k → ¬ Matching a (fileHash (b.names i)) j := by
    rintro j less ⟨-, left, right⟩
    rw [same.entryAt positive] at left right
    obtain ⟨taken, older⟩ := before j less
    obtain ⟨hashA, hashB⟩ := indexed.slots _ taken
    rcases distinct _ older with other | other
    · exact other (hashA.symm.trans left)
    · exact other (hashB.symm.trans right)
  have present : Present a (b.hash (Writing.chainSlot b (b.names i) k)).blockTableIndex := by
    have := sound.nextBlock
    rw [Present, index, same.blocks]
    exact ⟨by omega, same.existing i below⟩
  rw [fileNumber, fileNumberFromHash_first same.decoded matching first, same.entryAt positive,
    if_pos present, index, rank_eq fun j less => same.existing j (less.trans below)]

theorem SameIndex.fileNumber_missing (same : SameIndex b a) (sound : Writing.Sound b)
    (indexed : Writing.Indexed b) {name : Bytes}
    (distinct : ∀ i, i < b.nextBlock → (fileHash (b.names i)).hash2 ≠ (fileHash name).hash2 ∨
      (fileHash (b.names i)).hash3 ≠ (fileHash name).hash3) :
    fileNumber a name = .error .exist := by
  refine fileNumberFromHash_none fun k matching => ?_
  obtain ⟨⟨inside, reached⟩, left, right⟩ := matching
  have positive : 0 < b.hashCapacity := by
    have := same.size
    omega
  have used : Writing.taken b (Writing.chainSlot b name k) = true := by
    obtain ⟨here, bound⟩ := same.chain positive name k
    have free := reached k le_rfl
    rw [here, neverUsed, same.hash _ bound] at free
    simpa [Writing.taken] using free
  rw [same.entryAt positive] at left right
  obtain ⟨hashA, hashB⟩ := indexed.slots _ used
  rcases distinct _ (sound.index _ used) with other | other
  · exact other (hashA.symm.trans left)
  · exact other (hashB.symm.trans right)

end index

theorem openPath_sameIndex {o : CreateOptions} {b : WriteArchive} {file : File}
    (made : Writing.CreatedWith o b) (sound : Writing.Sound b) (indexed : Writing.Indexed b)
    (layout : Writing.Layout o) (stands : Writing.Stands o b file) {archiveOffset : Int}
    (start : archiveOffset = 0 ∨ archiveOffset = -1) :
    ∃ a, openPath file archiveOffset Faults.healthy = .ok a Faults.healthy ∧ SameIndex b a := by
  obtain ⟨blockEx, run, -⟩ := openSource_run made sound layout stands start
  obtain ⟨hashCount, blockCount, -, -⟩ := counts_closed made sound layout
  refine ⟨reopened o b file blockEx, ?_, openSource_decoded run, hashCount, blockCount,
    fun pos inside => ?_, fun i below => ?_⟩
  · rw [openPath, bind_of_ok (request_healthy _), bind_of_ok (request_healthy _), run]
  · have decoded := Tables.hashWire.decodeTable_encodeTable b.hash inside []
    rwa [List.append_nil] at decoded
  · have count := sound.nextBlock
    change existing (storedBlocks b) i = true
    rw [existing, storedBlocks_eq (by omega)]
    exact indexed.present i below

end Reading

namespace Writing

structure BuiltWith (o : CreateOptions) (a : WriteArchive) : Prop where
  made : MadeWith o a
  inv : Inv a
  indexed : Indexed a

theorem BuiltWith.build {codecs : Codecs} {o : CreateOptions} {a : WriteArchive} (built : BuiltWith o a)
    (additions : List Addition) : BuiltWith o (build codecs additions a) := by
  have builds := build_extends codecs additions a built.inv built.indexed
  exact ⟨builds.made o built.made, builds.inv, builds.indexed⟩

theorem archiveCreate_builtWith {o : CreateOptions} {plan : Faults} {a : WriteArchive}
    (created : archiveCreate o plan = .ok a) : BuiltWith o a := by
  obtain ⟨valid, disk, -, rfl⟩ := archiveCreate_ok created
  exact ⟨⟨⟨valid, rfl, rfl, rfl, rfl, rfl, rfl, rfl, rfl⟩, rfl, rfl⟩,
    ⟨newArchive_sound valid disk, fun _ active => nomatch active⟩, newArchive_indexed o disk⟩

theorem archiveCreate_idle {o : CreateOptions} {plan : Faults} {a : WriteArchive}
    (created : archiveCreate o plan = .ok a) : a.current = none := by
  obtain ⟨-, disk, -, rfl⟩ := archiveCreate_ok created
  rfl

-- The reader's answers about names, for an archive under construction that was closed.
structure Findable (codecs : Codecs) (o : CreateOptions) (start : WriteArchive)
    (additions : List Addition) (r : ReadArchive) : Prop where
  found : ∀ before addition after name, additions = before ++ addition :: after →
    addition.name (build codecs before start) = some name →
    (build codecs (before ++ [addition]) start).nextBlock = (build codecs before start).nextBlock + 1 →
    (∀ j, j < (build codecs additions start).nextBlock → j ≠ (build codecs before start).nextBlock →
      sameIdentity ((build codecs additions start).names j) name = false) →
    Reading.watchedNumber r name = some (.ok (build codecs before start).nextBlock)
  missing : ∀ name, Crypto.Hashable name →
    (∀ i, i < (build codecs additions start).nextBlock →
      sameIdentity ((build codecs additions start).names i) name = false) →
    (∀ internal, Internal o internal → sameIdentity internal name = false) →
    Reading.watchedNumber r name = some (.error .exist)

theorem build_append (codecs : Codecs) (first second : List Addition) (a : WriteArchive) :
    build codecs (first ++ second) a = build codecs second (build codecs first a) := by
  rw [build, build, build, serve, List.map_append, List.foldl_append]
  rfl

theorem sameIdentity_false {first second : Bytes} :
    sameIdentity first second = false ↔ (fileHash first).hash2 ≠ (fileHash second).hash2 ∨
      (fileHash first).hash3 ≠ (fileHash second).hash3 := by
  rw [sameIdentity, decide_eq_false_iff_not, not_and_or]

-- The name that an addition publishes was handed on by it or by the call that began the member.
theorem addition_name_hashable (codecs : Codecs) {before after : List Addition} {addition : Addition}
    {name : Bytes} (plain : ∀ other ∈ before ++ addition :: after, other.Hashable) {a : WriteArchive}
    (kept : CurrentHashable a) (named : addition.name (build codecs before a) = some name) :
    Crypto.Hashable name := by
  have current := build_hashable codecs (fun other mem => plain other (List.mem_append_left _ mem)) kept
  have own := plain addition (by simp)
  cases addition with
  | path other source options =>
    cases named
    exact own name (by simp [Addition.handed])
  | member call =>
    cases call with
    | begin other size options => cases named
    | write data => cases named
    | abort => cases named
    | add other data options =>
      cases named
      exact own name (by simp [Addition.handed])
    | finish =>
      obtain ⟨w, active, rfl⟩ := Option.map_eq_some_iff.mp named
      exact current w active

theorem findable_of_closed {codecs : Codecs} {o : CreateOptions} {start b : WriteArchive}
    {additions : List Addition} {r : ReadArchive} (built : BuiltWith o start)
    (kept : CurrentHashable start) (plain : ∀ addition ∈ additions, addition.Hashable)
    (closed : ClosedNames o (build codecs additions start) b) (same : Reading.SameIndex b r) :
    Findable codecs o start additions r := by
  have sound := closed.builds.inv.sound
  have indexed := closed.builds.indexed
  constructor
  case found =>
    intro before addition after name split named new distinct
    rw [split] at plain
    rw [Reading.watchedNumber_hashable r (addition_name_hashable codecs plain kept named)]
    apply congrArg some
    generalize index : (build codecs before start).nextBlock = n at new distinct ⊢
    have earlier := @BuiltWith.build codecs _ _ built before
    have inserts := addition.run_inserts codecs earlier.inv earlier.indexed
    have step : final (addition.request.run codecs (build codecs before start)) =
        build codecs (before ++ [addition]) start := by
      rw [build_append]
      rfl
    rw [step, Inserts, new, index, named] at inserts
    have here : (build codecs (before ++ [addition]) start).names n = name := by
      rcases inserts with none | ⟨-, here⟩
      · omega
      · exact Option.some.inj here
    have later := build_extends codecs after (build codecs (before ++ [addition]) start)
    have next := @BuiltWith.build codecs _ _ built (before ++ [addition])
    have rest := later next.inv next.indexed
    rw [← build_append, List.append_assoc, List.singleton_append, ← split] at rest
    have count := rest.nextBlock
    have below : n < (build codecs additions start).nextBlock := by omega
    have stays : b.names n = name := by
      rw [closed.builds.names n below, rest.names n (by omega), here]
    rw [← stays]
    refine same.fileNumber_eq sound indexed (below.trans_le closed.builds.nextBlock) fun j less => ?_
    rw [stays, closed.builds.names j (by omega)]
    exact sameIdentity_false.mp (distinct j (by omega) (by omega))
  case missing =>
    intro name plain distinct internal
    rw [Reading.watchedNumber_hashable r plain]
    apply congrArg some
    refine same.fileNumber_missing sound indexed fun i below => ?_
    by_cases old : i < (build codecs additions start).nextBlock
    · rw [closed.builds.names i old]
      exact sameIdentity_false.mp (distinct i old)
    · exact sameIdentity_false.mp (internal _ (closed.extras i (Nat.not_lt.mp old) below))

-- After any additions and a successful close, every published name is found under the number
-- of its insertion and no other name is; and a member that is already there is never added
-- again. Names with a byte 0xFF, which the code cannot hash, are left out.
theorem names_found {codecs : Codecs} {o : CreateOptions} {plan : Faults} {start : WriteArchive}
    (created : archiveCreate o plan = .ok start) (additions : List Addition)
    (plain : ∀ addition ∈ additions, addition.Hashable) :
    (∀ closed archiveOffset, archiveClose codecs (build codecs additions start) = .ok () closed →
      archiveOffset = 0 ∨ archiveOffset = -1 →
      ∃ r, Reading.openPath closed.disk.file archiveOffset Faults.healthy = .ok r Faults.healthy ∧
        Findable codecs o start additions r) ∧
      ∀ name size options, Crypto.Hashable name → Duplicates (build codecs additions start) name options →
        succeeded (fileBegin name size options (build codecs additions start)) = false ∧
        (Passes (build codecs additions start) name size options →
          ∃ a, fileBegin name size options (build codecs additions start) = .error .exist a) := by
  have built := archiveCreate_builtWith created
  have whole := @BuiltWith.build codecs _ _ built additions
  have idle : CurrentHashable start := .idle (archiveCreate_idle created)
  refine ⟨fun closed archiveOffset run offset => ?_, fun name size options _ duplicates => ?_⟩
  · obtain ⟨b, names, fits, file⟩ := archiveClose_names whole.made whole.inv whole.indexed run
    have made := (names.builds.made o whole.made).toCreatedWith
    have sound := names.builds.inv.sound
    have layout := layout_of_fits made sound fits
    obtain ⟨r, opened, same⟩ := Reading.openPath_sameIndex made sound names.builds.indexed layout
      (closedFile_stands made layout) offset
    rw [file]
    exact ⟨r, opened, findable_of_closed built idle plain names same⟩
  · have there := duplicate_of_published whole.inv.sound whole.indexed duplicates
    refine ⟨?_, fun passes => fileBegin_duplicate passes there⟩
    cases run : fileBegin name size options (build codecs additions start) with
    | error e a => rfl
    | ok _ a =>
      rw [fileBegin_unique run] at there
      cases there

theorem writeTables_serves (a : WriteArchive) (least : Nat) : Disk.Serves least (writeTables a) := by
  refine (Disk.serves_alloc _).bind fun _ => ?_
  refine (Disk.serves_writeAt _ _ _).bind fun _ => ?_
  refine (Disk.serves_alloc _).bind fun _ => ?_
  refine (Disk.serves_writeAt _ _ _).bind fun _ => ?_
  split
  · exact (Disk.serves_alloc _).bind fun _ => Disk.serves_writeAt _ _ _
  · exact Disk.Serves.pure ()

theorem writeHeader_calm (a : WriteArchive) {d : Disk} (calm : d.Calm) (fits : d.file.size ≤ uint32Max) :
    ∃ d', writeHeader a d = .ok d.file.size d' ∧ d'.Calm := by
  have sought : ({ d with pos := d.file.size } : Disk).Calm := calm
  unfold writeHeader
  rw [bind_of_ok (Disk.seekEnd_calm calm _), bind_of_ok (Disk.tell_calm sought _),
    bind_of_ok (failIf_false (Nat.not_lt.mpr fits) _ _), bind_of_ok (Disk.writeAt_calm sought _ _ _)]
  have written : (Disk.put (wireHeader a d.file.size) { d with pos := 0 }).Calm := calm
  rw [bind_of_ok (Disk.sync_calm written _)]
  exact ⟨_, rfl, written⟩

theorem archiveClose_plain {codecs : Codecs} {a : WriteArchive} (calm : a.disk.Calm)
    (idle : a.current = none) (noList : has a.flags createListfile = false)
    (noRows : a.attributesFlags = 0) (weak : a.signature = false) (strong : a.strongSignature = false)
    (fits : (tabled a).size ≤ uint32Max) : succeeded (archiveClose codecs a) = true := by
  generalize marked : ({ a with internal := true } : WriteArchive) = b
  have tables : tabled b = tabled a := by
    subst marked
    rfl
  have calm' : b.disk.Calm := by
    subst marked
    exact calm
  obtain ⟨_, disk, written, calm₁, -⟩ := writeTables_serves b 0 b.disk calm' (Nat.zero_le _)
  have file := writeTables_ok written
  obtain ⟨disk', header, calm₂⟩ := writeHeader_calm b calm₁ (by rw [file, tables]; exact fits)
  have done : finalizeArchive codecs a = .ok () { b with disk := disk' } := by
    unfold finalizeArchive
    rw [bind_of_ok (get_run a), bind_of_ok (failIf_false (by rw [idle]; decide) _ _),
      bind_of_ok (modify_run _ _), marked]
    have rows : reserveRows b = .ok () b := by
      subst marked
      rw [reserveRows, bind_of_ok (get_run _), if_neg fun wanted => wanted.1 noRows, pure_run]
    have list : addListfile codecs b = .ok () b := by
      subst marked
      rw [addListfile, bind_of_ok (get_run _), if_neg (by rw [noList]; decide), pure_run]
    have attributes : addAttributes codecs b = .ok () b := by
      subst marked
      rw [addAttributes, bind_of_ok (get_run _), if_neg (not_not.mpr noRows), pure_run]
    rw [bind_of_ok rows, bind_of_ok list, bind_of_ok attributes, bind_of_ok (get_run b),
      bind_of_ok (onDisk_run written), bind_of_ok (onDisk_run header)]
    subst marked
    simp only [signatureFinish, bind_run, get_run, onDisk, zoom, weakFinish, strongFinish, weak, strong]
    rfl
  rw [archiveClose, bind_of_ok done, onDisk_run (Disk.sync_calm calm₂ _)]
  rfl

def pair : CreateOptions where
  version := versionOne
  maxFiles := 2
  sectorSize := 512
  flags := 0
  attributes := 0

-- A finish without a member, a member that is given up, two members whose names share their home
-- slot, and between them the first one again.
def chaining : List Addition :=
  [.member .finish, .member (.begin [0x6E] 9 .default), .member .abort,
    .member (.add [0x62] [1, 2, 3] .default), .member (.add [0x62] [4] .default),
    .member (.add [0x66] [5, 6, 7, 8, 9] .default)]

def chained : WriteArchive := build Compression.zeroRunCodecs chaining (created pair)

theorem created_pair : archiveCreate pair Faults.healthy = .ok (created pair) :=
  archiveCreate_calm (by decide) (by decide)

theorem chained_built : BuiltWith pair chained := (archiveCreate_builtWith created_pair).build chaining

set_option maxRecDepth 20000 in
theorem chained_state : chained.nextBlock = 2 ∧ chained.disk.file.size = 520 ∧
    chained.current.isNone = true ∧ chained.disk.plan = Faults.healthy :=
  ⟨by decide +kernel, by decide +kernel, by decide +kernel, rfl⟩

theorem chained_fits : (tabled chained).size ≤ uint32Max := by
  have made := chained_built.made
  obtain ⟨-, size, -⟩ := chained_state
  have first := File.write_size_le chained.disk.file chained.header.hashTableOffset.toNat
    (hashTableBytes chained)
  have second := File.write_size_le
    (chained.disk.file.write chained.header.hashTableOffset.toNat (hashTableBytes chained))
    chained.header.blockTableOffset.toNat (blockTableBytes chained)
  rw [hashTableBytes_length, made.hashCapacity, made.header, size] at first
  rw [blockTableBytes_length, made.capacity, made.header] at second
  rw [tabled, made.version, if_neg (by decide), withTables, made.header]
  have numbers : (newHeader pair).hashTableOffset.toNat = 32 ∧ (newHeader pair).blockTableOffset.toNat = 96 ∧
      hashCapacityOf pair = 4 ∧ capacityOf pair = 2 := by decide
  rw [numbers.1, numbers.2.2.1] at first
  rw [numbers.2.1, numbers.2.2.2, numbers.1] at second
  rw [numbers.1, numbers.2.1]
  simp only [hashEntryWireSize, blockEntryWireSize, uint32Max] at *
  omega

theorem names_found_chained :
    archiveCreate pair Faults.healthy = .ok (created pair) ∧
      chainSlot chained [0x62] 0 = chainSlot chained [0x66] 0 ∧
      ∃ closed r, archiveClose Compression.zeroRunCodecs chained = .ok () closed ∧
        Reading.openPath closed.disk.file 0 Faults.healthy = .ok r Faults.healthy ∧
        Reading.watchedNumber r [0x62] = some (.ok 0) ∧ Reading.watchedNumber r [0x66] = some (.ok 1) ∧
        Reading.watchedNumber r [0x6E] = some (.error .exist) := by
  have built := chained_built
  obtain ⟨count, -, idle, calm⟩ := chained_state
  have success : succeeded (archiveClose Compression.zeroRunCodecs chained) = true :=
    archiveClose_plain calm (by simpa using idle) (by rw [built.made.flags]; rfl)
      built.made.attributesFlags built.made.signature built.made.strongSignature chained_fits
  cases run : archiveClose Compression.zeroRunCodecs chained with
  | error e a =>
    rw [run] at success
    cases success
  | ok _ closed =>
    obtain ⟨r, opened, findable⟩ :=
      (names_found created_pair chaining (by decide +kernel)).1 closed 0 run (.inl rfl)
    have first : (build Compression.zeroRunCodecs (chaining.take 3) (created pair)).nextBlock = 0 ∧
        (build Compression.zeroRunCodecs (chaining.take 3 ++ [chaining[3]]) (created pair)).nextBlock = 1 := by
      decide +kernel
    have second : (build Compression.zeroRunCodecs (chaining.take 5) (created pair)).nextBlock = 1 ∧
        (build Compression.zeroRunCodecs (chaining.take 5 ++ [chaining[5]]) (created pair)).nextBlock = 2 := by
      decide +kernel
    have distinct : sameIdentity (chained.names 1) [0x62] = false ∧ sameIdentity (chained.names 0) [0x66] = false ∧
        sameIdentity (chained.names 0) [0x6E] = false ∧ sameIdentity (chained.names 1) [0x6E] = false := by
      decide +kernel
    have whole : build Compression.zeroRunCodecs chaining (created pair) = chained := rfl
    refine ⟨created_pair, by decide +kernel, closed, r, rfl, opened, ?_, ?_, ?_⟩
    · have found := findable.found (chaining.take 3) chaining[3] (chaining.drop 4) [0x62] rfl rfl
        (by rw [first.1, first.2]) fun j below other => ?_
      · rwa [first.1] at found
      · rw [whole] at below ⊢
        have only : j = 1 := by omega
        subst only
        exact distinct.1
    · have found := findable.found (chaining.take 5) chaining[5] (chaining.drop 6) [0x66] rfl rfl
        (by rw [second.1, second.2]) fun j below other => ?_
      · rwa [second.1] at found
      · rw [whole] at below ⊢
        have only : j = 0 := by omega
        subst only
        exact distinct.2.1
    · refine findable.missing [0x6E] (by decide +kernel) (fun i below => ?_) fun internal added => ?_
      · rw [whole] at below ⊢
        have either : i = 0 ∨ i = 1 := by omega
        rcases either with rfl | rfl
        · exact distinct.2.2.1
        · exact distinct.2.2.2
      · rcases added with ⟨list, -⟩ | ⟨rows, -⟩
        · exact absurd list (by decide)
        · exact absurd rfl rows

set_option maxRecDepth 20000 in
-- That the archive is full is noticed before the name is.
theorem full_archive_refuses_duplicate_by_size :
    archiveCreate pair Faults.healthy = .ok (created pair) ∧ Duplicates chained [0x62] .default ∧
      ∃ a, fileAdd Compression.zeroRunCodecs [0x62] [4] .default chained = .error .size a := by
  refine ⟨created_pair, ⟨chainSlot chained [0x62] 0, ?_, ?_, ?_, ?_⟩, chained, ?_⟩
  · decide +kernel
  · decide +kernel
  · decide +kernel
  · decide +kernel
  · rfl

end Writing

end LibMpq
