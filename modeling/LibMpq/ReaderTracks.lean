import LibMpq.ReaderTables
import LibMpq.ReaderWatched

set_option autoImplicit false

namespace LibMpq

open Effect Bits Reading

namespace Watching

structure InTables (a : ReadArchive) : Prop where
  files : a.files ≤ slots a
  map : ∀ n, n < slots a → entryIndex a n < slots a

-- What the watched steps rely on; `file_size` is a signed 64-bit number.
structure Sound (w : Watch) (a : ReadArchive) : Prop where
  tables : w = .arrays → InTables a
  source : w = .reads → a.source.size < 2 ^ 63

structure SameShape (a b : ReadArchive) : Prop where
  source : b.source = a.source
  archiveOffset : b.archiveOffset = a.archiveOffset
  header : b.header = a.header
  indices : b.blockTableIndices = a.blockTableIndices
  files : b.files = a.files

variable {w : Watch}

theorem Sound.same {a b : ReadArchive} (sound : Sound w a) (same : SameShape a b) : Sound w b where
  tables arrays := by
    have tables := sound.tables arrays
    refine ⟨?_, fun n inside => ?_⟩
    · rw [slots, same.files, same.header]
      exact tables.files
    · rw [slots, same.header] at inside ⊢
      rw [entryIndex, same.indices]
      exact tables.map n inside
  source reads := by
    rw [same.source]
    exact sound.source reads

theorem SameShape.trans {a b c : ReadArchive} (first : SameShape a b) (second : SameShape b c) : SameShape a c where
  source := second.source.trans first.source
  archiveOffset := second.archiveOffset.trans first.archiveOffset
  header := second.header.trans first.header
  indices := second.indices.trans first.indices
  files := second.files.trans first.files

instance : Std.Refl SameShape := ⟨fun _ => ⟨rfl, rfl, rfl, rfl, rfl⟩⟩

instance : IsTrans ReadArchive SameShape := ⟨fun _ _ _ => SameShape.trans⟩

theorem shape_of_same {a b : ReadArchive} (same : SameArchive a b) : SameShape a b :=
  ⟨same.source, same.archiveOffset, same.header, same.indices, same.files⟩

theorem shape_remembering : Remembering fun _ => SameShape where
  toFramed := framed_of (fun _ {_} _ => ⟨rfl, rfl, rfl, rfl, rfl⟩) fun spares => shape_of_same spares.toSameArchive
  attributes _ _ := ⟨rfl, rfl, rfl, rfl, rfl⟩
  attributesError _ _ := ⟨rfl, rfl, rfl, rfl, rfl⟩

section steps

variable {σ : Type} {a : ReadArchive} (sound : Sound w a)

theorem slot_eq {i : Nat} (inside : w = .arrays → i < slots a) :
    (slot w a i : Op (Stop Error) σ Unit) = pure () := require_true inside

include sound

theorem member_slot {number : Nat} (member : number < a.files) : w = .arrays → number < slots a :=
  fun arrays => Nat.lt_of_lt_of_le member (sound.tables arrays).files

theorem index_slot {number : Nat} (inside : w = .arrays → number < slots a) :
    w = .arrays → entryIndex a number < slots a := fun arrays => (sound.tables arrays).map number (inside arrays)

omit sound in
theorem mapAt_eq {number : Nat} (inside : w = .arrays → number < slots a) :
    (mapAt w a number : Op (Stop Error) σ Nat) = pure (entryIndex a number) := by
  rw [mapAt, slot_eq inside, pure_bind]

omit sound in
theorem blockAt_eq {index : Nat} (inside : w = .arrays → index < slots a) :
    (blockAt w a index : Op (Stop Error) σ BlockEntry) = pure (a.block index) := by
  rw [blockAt, slot_eq inside, pure_bind]

omit sound in
theorem fileAt_eq {number : Nat} (inside : w = .arrays → number < slots a) :
    (fileAt w a number : Op (Stop Error) σ (Option FileCache)) = pure (a.cache number) := by
  rw [fileAt, slot_eq inside, pure_bind]

theorem entryAt_eq {number : Nat} (inside : w = .arrays → number < slots a) :
    (entryAt w a number : Op (Stop Error) σ BlockEntry) = pure (entry a number) := by
  rw [entryAt, mapAt_eq inside, pure_bind, blockAt_eq (index_slot sound inside)]
  rfl

theorem countFileBlocks_eq {number : Nat} (inside : w = .arrays → number < slots a) :
    (countFileBlocks w a number : Op (Stop Error) σ Nat) = pure (Reading.countFileBlocks a number) := by
  rw [countFileBlocks, entryAt_eq sound inside, pure_bind]

theorem validateBlockNumber_eq {number : Nat} (inside : w = .arrays → number < slots a) (block : Nat) :
    (validateBlockNumber w a number block : Op (Stop Error) σ Unit) =
      stopIf (block ≥ Reading.countFileBlocks a number) .exist := by
  rw [validateBlockNumber, countFileBlocks_eq sound inside, pure_bind]

theorem blockSizeUnpacked_eq (number block : Nat) :
    (blockSizeUnpacked w a number block : Op (Stop Error) σ Nat) =
      plainly (fromExcept (Reading.blockSizeUnpacked a number block)) := by
  funext s
  rw [blockSizeUnpacked, validateFileNumber, Reading.blockSizeUnpacked]
  by_cases member : number ≥ a.files
  next =>
    rw [bind_of_error (stopIf_true member _ s), if_pos (.inl member)]
    rfl
  next =>
    have inside := member_slot sound (Nat.lt_of_not_le member)
    rw [bind_of_ok (stopIf_false member _ s), validateBlockNumber_eq sound inside, entryAt_eq sound inside]
    by_cases outside : block ≥ Reading.countFileBlocks a number
    next =>
      rw [bind_of_error (stopIf_true outside _ s), if_pos (.inr outside)]
      rfl
    next =>
      rw [bind_of_ok (stopIf_false outside _ s), pure_bind, if_neg (not_or.mpr ⟨member, outside⟩)]
      rfl

theorem payloadAt_eq {index relative size : Nat} (inside : w = .arrays → index < slots a)
    (range : w = .reads → payloadRange a index relative size) :
    (payloadAt w a index relative : Op (Stop Error) σ Nat) = pure (payloadOffset a index + relative) := by
  have small : w = .reads → payloadOffset a index + relative < 2 ^ 64 := by
    intro reads
    have := sound.source reads
    have := (range reads).1
    omega
  rw [payloadAt, slot_eq inside, pure_bind, require_true small, pure_bind]

omit sound in
theorem ranged_eq {index relative size room : Nat} (range : w = .reads → payloadRange a index relative size)
    (fits : size ≤ room) :
    (ranged w a.source (payloadOffset a index + relative) size room : Op (Stop Error) σ Unit) = pure () := by
  refine require_true fun reads => ⟨?_, fits⟩
  have := (range reads).1
  have := (range reads).2
  omega

omit sound in
theorem sourceReadAt_eq {index relative size room : Nat} (range : w = .reads → payloadRange a index relative size)
    (fits : size ≤ room) :
    sourceReadAt w a.source (payloadOffset a index + relative) size room =
      plainly (Reading.sourceReadAt a.source (payloadOffset a index + relative) size) := by
  rw [sourceReadAt, ranged_eq range fits, pure_bind]

end steps

section names

variable {σ : Type} {a : ReadArchive}

theorem numberOf_eq (index : Nat) :
    (numberOf w a index : Op (Stop Error) σ Nat) = plainly (fromExcept (Reading.numberOf a index)) := by
  funext s
  rw [numberOf, Reading.numberOf]
  by_cases outside : index ≥ a.header.blockTableCount.toNat
  next =>
    rw [bind_of_error (stopIf_true outside _ s), if_pos (.inl outside)]
    rfl
  next =>
    have inside : w = .arrays → index < slots a := fun _ => Nat.lt_of_not_le outside
    rw [bind_of_ok (stopIf_false outside _ s), blockAt_eq inside, pure_bind]
    by_cases missing : has (a.block index).flags Flag.exists_ = false
    next =>
      rw [bind_of_error (stopIf_true missing _ s), if_pos (.inr missing)]
      rfl
    next =>
      rw [bind_of_ok (stopIf_false missing _ s), slot_eq inside, pure_bind, if_neg (not_or.mpr ⟨outside, missing⟩)]
      by_cases beyond : index - a.blockTableDiff index ≥ a.files
      next =>
        rw [bind_of_error (stopIf_true beyond _ s), if_pos beyond]
        rfl
      next =>
        rw [bind_of_ok (stopIf_false beyond _ s), if_neg beyond]
        rfl

theorem probe_eq (hash2 hash3 : UInt32) (home fuel i : Nat) :
    (probe w a hash2 hash3 home fuel i : Op (Stop Error) σ Nat) =
      plainly (fromExcept (Reading.probe a hash2 hash3 home fuel i)) := by
  induction fuel generalizing i with
  | zero => rfl
  | succ fuel ih =>
    rw [probe, Reading.probe]
    split
    · rfl
    split
    · exact numberOf_eq _
    split
    · rfl
    · exact ih _

theorem fileNumber_eq (name : Bytes) :
    (fileNumber w a name : Op (Stop Error) σ Nat) = plainly (fromExcept (Reading.fileNumber a name)) := by
  rw [fileNumber, Reading.fileNumber, fileNumberFromHash]
  simp only
  split
  · rfl
  · exact probe_eq _ _ _ _ _

theorem outcome_fileNumber (name : Bytes) :
    (outcome (fileNumber w a name) : Op (Stop Error) σ (Except Error Nat)) = pure (Reading.fileNumber a name) := by
  funext s
  rw [outcome, fileNumber_eq, plainly]
  cases Reading.fileNumber a name <;> rfl

theorem isMember_eq (name : Bytes) (number : Nat) :
    (isMember w a name number : Op (Stop Error) σ Bool) = pure (Reading.isMember a name number) := by
  funext s
  rw [isMember, fileNumber_eq, bind_run, recover, plainly, Reading.isMember]
  cases Reading.fileNumber a name with
  | error e => rfl
  | ok n => simp [fromExcept]

end names

theorem plain_tracks {ε σ α : Type} (x : Op ε σ α) : Tracks (fun _ => True) (plainly x) x :=
  Tracks.plain fun _ _ => trivial

theorem windowPlan_tracks {α : Type} (x : Op Error Faults α) :
    Tracks (fun _ => True) (windowPlan (plainly x)) (Reading.windowPlan x) :=
  Tracks.zoom (plain_tracks x) (fun _ _ => trivial) fun _ _ _ _ => trivial

structure Sees (w : Watch) (number : Nat) (inv : ReadArchive → Prop) : Prop where
  sound : ∀ a, inv a → Sound w a
  member : ∀ a, inv a → number < a.files
  plan : ∀ a plan, inv a → inv { a with plan }

theorem Sees.onPlan {number : Nat} {inv : ReadArchive → Prop} (sees : Sees w number inv) {α : Type}
    (x : Op Error Faults α) : Tracks inv (onPlan (plainly x)) (Reading.onPlan x) :=
  Tracks.zoom (plain_tracks x) (fun _ _ => trivial) fun a holds plan _ => sees.plan a plan holds

structure Peeks (number count : Nat) (offsets : Offsets) (a : ReadArchive) : Prop where
  raw : (entry a number).flags &&& (Flag.encrypted ||| Flag.compressed) = Flag.encrypted
  keyless : offsets.seed = none
  packed : 4 ≤ (entry a number).packedSize.toNat
  blocks : 2 ≤ count
  rises : ¬ offsets.table 1 < offsets.table 0
  room : 8 ≤ (offsets.table 1 - offsets.table 0).toNat

section tracks

variable {o : ReadArchive}

theorem onPlan_tracks {α : Type} (x : Op Error Faults α) :
    Tracks (SameShape o) (onPlan (plainly x)) (Reading.onPlan x) :=
  Tracks.zoom (plain_tracks x) (fun _ _ => trivial) fun _ same _ _ => same.trans ⟨rfl, rfl, rfl, rfl, rfl⟩

theorem spares_tracks {α : Type} {x : Op Error ReadArchive α} (n : Nat) (spares : Keeps (Spares n) x) :
    Tracks (SameShape o) (plainly x) x :=
  Tracks.plain fun s same => same.trans (shape_of_same (spares s).toSameArchive)

theorem modify_tracks {f : ReadArchive → ReadArchive} (shape : ∀ a, SameShape a (f a)) :
    Tracks (SameShape o) (modify f : Op (Stop Error) ReadArchive PUnit) (modify f) :=
  fun a same => ⟨rfl, same.trans (shape a)⟩

theorem storeCache_tracks (number : Nat) (file : Option FileCache) :
    Tracks (SameShape o) (modify (storeCache number file) : Op (Stop Error) ReadArchive PUnit)
      (modify (storeCache number file)) := modify_tracks fun _ => ⟨rfl, rfl, rfl, rfl, rfl⟩

variable (sound : Sound w o) {number : Nat} (member : number < o.files)

include sound member

theorem member_inside {a : ReadArchive} (same : SameShape o a) : w = .arrays → number < slots a :=
  member_slot (sound.same same) (same.files ▸ member)

theorem shape_sees : Sees w number (SameShape o) where
  sound _ same := sound.same same
  member _ same := same.files ▸ member
  plan _ _ same := same.trans ⟨rfl, rfl, rfl, rfl, rfl⟩

theorem loadTable_tracks (size count : Nat) (seed : Option UInt32) :
    Tracks (SameShape o) (loadTable w number size count seed) (Reading.loadTable number size count seed) := by
  refine Tracks.get fun a same => ?_
  have inside := member_inside sound member same
  have index := index_slot (sound.same same) inside
  rw [mapAt_eq inside, pure_bind, blockAt_eq index, pure_bind]
  refine Tracks.stopIf fun fits => Tracks.bind (onPlan_tracks _) fun _ => ?_
  have range : w = .reads → payloadRange a (entryIndex a number) 0 size :=
    fun _ => not_not.mp (not_or.mp fits).2
  rw [payloadAt_eq (sound.same same) index range, pure_bind, sourceReadAt_eq range le_rfl, Nat.add_zero]
  refine Tracks.bind (onPlan_tracks _) fun raw => Tracks.bind ?_ fun _ => Tracks.get fun b _ => ?_
  · split
    · exact modify_tracks fun _ => ⟨rfl, rfl, rfl, rfl, rfl⟩
    · exact Tracks.pure _
  refine Tracks.bind ?_ fun loaded => Tracks.stopIf fun _ => Tracks.stopIf fun _ => Tracks.pure _
  split
  · exact spares_tracks 0 (decryptTable_spares a size raw seed)
  · exact Tracks.pure _

omit sound member in
theorem detectSeed_tracks {inv : ReadArchive → Prop} (sees : Sees w number inv) {count : Nat} {offsets : Offsets}
    (range : ∀ a, inv a → w = .reads → Peeks number count offsets a → payloadRange a (entryIndex a number) 0 8) :
    Tracks inv (detectSeed w number count offsets) (Reading.detectSeed number count offsets) := by
  refine Tracks.get fun a holds => ?_
  have sound := sees.sound a holds
  have inside := member_slot sound (sees.member a holds)
  have index := index_slot sound inside
  rw [mapAt_eq inside, pure_bind, entryAt_eq sound inside, pure_bind]
  refine Tracks.ite (fun asked => ?_) fun _ => Tracks.pure _
  refine Tracks.stopIf fun blocks => Tracks.stopIf fun rises => Tracks.stopIf fun room => ?_
  have seen : w = .reads → payloadRange a (entryIndex a number) 0 8 := fun reads =>
    range a holds reads ⟨asked.1, asked.2.1, asked.2.2, Nat.le_of_not_lt blocks, rises, Nat.le_of_not_lt room⟩
  rw [payloadAt_eq sound index seen, pure_bind, sourceReadAt_eq seen le_rfl, Nat.add_zero]
  refine Tracks.bind (sees.onPlan _) fun first => ?_
  cases Crypto.detectFileKey first (entry a number).unpackedSize with
  | none => exact Tracks.throw _
  | some seed => exact Tracks.pure _

omit sound member in
theorem loadOffsets_tracks {inv : ReadArchive → Prop} (sees : Sees w number inv) {name : Option Bytes}
    (loads : ∀ a, inv a → serialized (entry a number).flags = true → ∀ seed,
      Tracks inv (loadTable w number (tableSize a number) (Reading.countFileBlocks a number + 1) seed)
        (Reading.loadTable number (tableSize a number) (Reading.countFileBlocks a number + 1) seed))
    (detects : ∀ a, inv a → ∀ offsets : Offsets,
      (serialized (entry a number).flags = false →
        offsets = ⟨synthesized a number, name.map (fileSeed (entry a number))⟩) →
      Tracks inv (detectSeed w number (Reading.countFileBlocks a number + 1) offsets)
        (Reading.detectSeed number (Reading.countFileBlocks a number + 1) offsets)) :
    Tracks inv (loadOffsets w number name) (Reading.loadOffsets number name) := by
  refine Tracks.get fun a holds => ?_
  have sound := sees.sound a holds
  have inside := member_slot sound (sees.member a holds)
  rw [entryAt_eq sound inside, pure_bind, countFileBlocks_eq sound inside, pure_bind]
  refine Tracks.stopIf fun _ => ?_
  rw [slot_eq inside, pure_bind]
  refine Tracks.bind (sees.onPlan _) fun _ => Tracks.bind (sees.onPlan _) fun _ => ?_
  cases serial : serialized (entry a number).flags with
  | true =>
    refine Tracks.bind (loads a holds serial _) fun offsets => ?_
    refine Tracks.bind (detects a holds offsets fun plain => ?_) fun _ => Tracks.pure _
    rw [serial] at plain
    cases plain
  | false =>
    simp only [Bool.false_eq_true, if_false, pure_bind]
    exact Tracks.bind (detects a holds _ fun _ => rfl) fun _ => Tracks.pure _

omit member in
theorem offsetsAcquire_tracks (arrays : w = .arrays) (number : Nat) (name : Option Bytes) :
    Tracks (SameShape o) (offsetsAcquire w number name) (Reading.offsetsAcquire number name) := by
  refine Tracks.get fun a same => Tracks.stopIf fun below => ?_
  have member : number < o.files := same.files ▸ Nat.lt_of_not_le below
  have inside := member_inside sound member same
  rw [fileAt_eq inside, pure_bind]
  cases a.cache number with
  | some file =>
    simp only
    rw [entryAt_eq (sound.same same) inside, pure_bind]
    exact storeCache_tracks _ _
  | none =>
    have sees := shape_sees sound member
    refine Tracks.bind (loadOffsets_tracks sees (fun b _ _ seed => ?_) fun b _ offsets _ => ?_) fun _ => storeCache_tracks _ _
    · exact loadTable_tracks sound member _ _ seed
    · refine detectSeed_tracks sees fun c _ reads => ?_
      rw [arrays] at reads
      exact nomatch reads

omit member in
theorem offsetsRelease_tracks (number : Nat) :
    Tracks (SameShape o) (offsetsRelease w number) (Reading.offsetsRelease number) := by
  refine Tracks.get fun a same => Tracks.stopIf fun below => ?_
  have inside := member_inside sound (same.files ▸ Nat.lt_of_not_le below) same
  rw [fileAt_eq inside, pure_bind]
  cases a.cache number with
  | none => exact Tracks.throw _
  | some file => exact storeCache_tracks _ _

omit member in
theorem released (number : Nat) {a : ReadArchive} (same : SameShape o a) {α : Type} (k : Op (Stop Error) ReadArchive α) :
    (recover (offsetsRelease w number) >>= fun _ => k) a = k (final (Reading.offsetsRelease number a)) ∧
      SameShape o (final (Reading.offsetsRelease number a)) := by
  obtain ⟨watched, kept⟩ := offsetsRelease_tracks sound number a same
  refine ⟨?_, kept⟩
  rw [bind_run, recover, watched, plainly]
  cases Reading.offsetsRelease number a <;> rfl

omit member in
theorem holding_at (number : Nat) {α : Type} {x : Op (Stop Error) ReadArchive α} {y : Op Error ReadArchive α}
    {a : ReadArchive} (watched : x a = plainly y a) (kept : SameShape o (final (y a))) :
    holding w number x a = plainly (Reading.holding number y) a ∧ SameShape o (final (Reading.holding number y a)) := by
  rw [holding, watched, plainly, plainly, Reading.holding]
  cases run : y a with
  | ok r b =>
    rw [run] at kept
    exact released sound number kept (pure r)
  | error e b =>
    rw [run] at kept
    exact released sound number kept (throw (.error e))

omit member in
theorem holding_tracks (number : Nat) {α : Type} {x : Op (Stop Error) ReadArchive α} {y : Op Error ReadArchive α}
    (tracks : Tracks (SameShape o) x y) : Tracks (SameShape o) (holding w number x) (Reading.holding number y) := by
  intro a same
  obtain ⟨watched, kept⟩ := tracks a same
  exact holding_at sound number watched kept

omit member in
theorem releasing_tracks (number : Nat) {α : Type} {x : Op (Stop Error) ReadArchive α} {y : Op Error ReadArchive α}
    (tracks : Tracks (SameShape o) x y) : Tracks (SameShape o) (releasing w number x) (Reading.releasing number y) := by
  intro a same
  obtain ⟨watched, kept⟩ := tracks a same
  rw [releasing, watched, plainly, plainly, Reading.releasing]
  cases run : y a with
  | ok r b =>
    rw [run] at kept
    exact Tracks.bind (offsetsRelease_tracks sound number) (fun _ => Tracks.pure r) b kept
  | error e b =>
    rw [run] at kept
    exact released sound number kept (throw (.error e))

omit sound member in
theorem readDirect_eq {a : ReadArchive} {index relative size room : Nat}
    (range : w = .reads → payloadRange a index relative size) (fits : size ≤ room) :
    readDirect w a.source (payloadOffset a index + relative) size room =
      plainly (Reading.readDirect a.source (payloadOffset a index + relative) size) := by
  rw [readDirect, ranged_eq range fits, pure_bind]

theorem readPacked_tracks {a : ReadArchive} (same : SameShape o a) {block size room : Nat} {file : FileCache}
    (range : w = .reads → payloadRange a (entryIndex a number) (file.packedOffset block).toNat size)
    (fits : size ≤ room) :
    Tracks (fun _ => True) (readPacked w a number block file size room)
      (Reading.readPacked a number block file size) := by
  have inside := member_inside sound member same
  have index := index_slot (sound.same same) inside
  unfold readPacked
  rw [mapAt_eq inside, pure_bind, slot_eq inside, pure_bind, payloadAt_eq (sound.same same) index range, pure_bind,
    sourceReadAt_eq range fits, entryAt_eq (sound.same same) inside]
  refine Tracks.bind (windowPlan_tracks _) fun packed => ?_
  rw [pure_bind]
  refine Tracks.ite (fun _ => ?_) fun _ => Tracks.pure _
  cases file.seed with
  | none => exact Tracks.throw _
  | some seed => exact Tracks.pure _

omit member in
theorem blockReadAcquired_tracks {a : ReadArchive} (same : SameShape o a) (codecs : Codecs) (number block : Nat)
    (checksum : Option UInt32) :
    Tracks (fun _ => True) (blockReadAcquired w codecs a number block checksum)
      (Reading.blockReadAcquired codecs a number block checksum) := by
  unfold blockReadAcquired Reading.blockReadAcquired
  refine Tracks.stopIf fun below => ?_
  have member : number < o.files := same.files ▸ Nat.lt_of_not_le below
  have inside := member_inside sound member same
  have index := index_slot (sound.same same) inside
  rw [validateBlockNumber_eq (sound.same same) inside]
  refine Tracks.stopIf fun within => ?_
  rw [fileAt_eq inside, pure_bind]
  cases a.cache number with
  | none => exact Tracks.throw _
  | some file =>
    refine Tracks.stopIf fun _ => Tracks.get fun window _ => ?_
    rw [blockSizeUnpacked_eq (sound.same same),
      blockSizeUnpacked_below (Nat.lt_of_not_le below) (Nat.lt_of_not_le within), plainly_value, pure_bind]
    refine Tracks.stopIf fun _ => ?_
    rw [mapAt_eq inside, pure_bind, entryAt_eq (sound.same same) inside, pure_bind]
    refine Tracks.stopIf fun _ => Tracks.stopIf fun ranged => ?_
    have range : w = .reads → payloadRange a (entryIndex a number) (file.packedOffset block).toNat
        (file.packedOffset (block + 1) - file.packedOffset block).toNat := fun _ => not_not.mp ranged
    refine Tracks.bind (Tracks.ite (fun direct => ?_) fun _ => ?_) fun packed => ?_
    · have fits : (file.packedOffset (block + 1) - file.packedOffset block).toNat ≤ window.buffer.length :=
        of_decide_eq_true (Bool.and_eq_true_iff.mp direct).2
      rw [payloadAt_eq (sound.same same) index range, pure_bind, readDirect_eq range fits]
      exact plain_tracks _
    · exact Tracks.bind (windowPlan_tracks _) fun _ => readPacked_tracks sound member same range le_rfl
    · exact Tracks.bind (fun _ _ => ⟨rfl, trivial⟩) fun _ =>
        Tracks.bind (fun _ _ => ⟨rfl, trivial⟩) fun _ => plain_tracks _

omit member in
theorem readAcquired_tracks (codecs : Codecs) (number block : Nat) (checksum : Option UInt32) (buffer : Bytes)
    (mismatch : Bool) :
    Tracks (SameShape o) (readAcquired w codecs number block checksum buffer mismatch)
      (Reading.readAcquired codecs number block checksum buffer mismatch) := by
  intro a same
  have watched := (blockReadAcquired_tracks sound same codecs number block checksum
    { plan := a.plan, buffer, mismatch, lossy := false } trivial).1
  rw [readAcquired, watched, plainly, plainly, Reading.readAcquired]
  cases Reading.blockReadAcquired codecs a number block checksum { plan := a.plan, buffer, mismatch, lossy := false } <;>
    exact ⟨rfl, same.trans ⟨rfl, rfl, rfl, rfl, rfl⟩⟩

omit member in
theorem blockRead_tracks (arrays : w = .arrays) (codecs : Codecs) {number : Nat} (slot : number < slots o) (block : Nat)
    (checksum : Option UInt32) (buffer : Bytes) :
    Tracks (SameShape o) (blockRead w codecs number block checksum buffer)
      (Reading.blockRead codecs number block checksum buffer) := by
  refine Tracks.get fun a same => ?_
  have inside : w = .arrays → number < slots a := fun _ => by
    rw [slots, same.header]
    exact slot
  rw [validateBlockNumber_eq (sound.same same) inside]
  refine Tracks.stopIf fun _ => Tracks.bind (offsetsAcquire_tracks sound arrays number none) fun _ => ?_
  exact holding_tracks sound number (readAcquired_tracks sound codecs number block checksum buffer false)

theorem sectorExtent_tracks (block : Nat) :
    Tracks (SameShape o) (sectorExtent w number block) (Reading.sectorExtent number block) := by
  refine Tracks.get fun a same => ?_
  rw [fileAt_eq (member_inside sound member same), pure_bind]
  cases a.cache number with
  | none => exact Tracks.throw _
  | some file => exact Tracks.stopIf fun _ => Tracks.pure _

theorem storedExtent_tracks (arrays : w = .arrays) (block : Nat) :
    Tracks (SameShape o) (storedExtent w number block) (Reading.storedExtent number block) := by
  refine Tracks.get fun a same => ?_
  rw [entryAt_eq (sound.same same) (member_inside sound member same), pure_bind]
  refine Tracks.ite (fun _ => Tracks.pure _) fun _ => Tracks.ite (fun _ => ?_) fun _ => Tracks.pure _
  exact Tracks.bind (offsetsAcquire_tracks sound arrays number none) fun _ =>
    holding_tracks sound number (sectorExtent_tracks sound member block)

omit member in
theorem validated_tracks {α : Type} {a : ReadArchive} (same : SameShape o a) {number block : Nat}
    {w' : Op (Stop Error) ReadArchive α} {f : Unit → Op Error ReadArchive α}
    (then_ : number < a.files → block < Reading.countFileBlocks a number → Tracks (SameShape o) w' (f ())) :
    Tracks (SameShape o)
      (validateFileNumber a number >>= fun _ => validateBlockNumber w a number block >>= fun _ => w')
      (failIf (number ≥ a.files ∨ block ≥ Reading.countFileBlocks a number) .exist >>= f) := by
  intro s kept
  by_cases below : number ≥ a.files
  next =>
    rw [validateFileNumber, bind_of_error (stopIf_true below _ s), plainly, bind_of_error (failIf_true (.inl below) _ s)]
    exact ⟨rfl, kept⟩
  next =>
    have inside := member_inside sound (same.files ▸ Nat.lt_of_not_le below) same
    rw [validateFileNumber, bind_of_ok (stopIf_false below _ s), validateBlockNumber_eq (sound.same same) inside]
    by_cases within : block ≥ Reading.countFileBlocks a number
    next =>
      rw [bind_of_error (stopIf_true within _ s), plainly, bind_of_error (failIf_true (.inr within) _ s)]
      exact ⟨rfl, kept⟩
    next =>
      rw [bind_of_ok (stopIf_false within _ s), plainly, bind_of_ok (failIf_false (not_or.mpr ⟨below, within⟩) _ s)]
      exact then_ (Nat.lt_of_not_le below) (Nat.lt_of_not_le within) s kept

omit member in
theorem blockSizePacked_tracks (arrays : w = .arrays) (number block : Nat) :
    Tracks (SameShape o) (blockSizePacked w number block) (Reading.blockSizePacked number block) := by
  refine Tracks.get fun a same => validated_tracks sound same fun below _ => ?_
  have member : number < o.files := same.files ▸ below
  refine Tracks.bind (storedExtent_tracks sound member arrays block) fun extent => ?_
  rw [entryAt_eq (sound.same same) (member_inside sound member same), pure_bind]
  exact Tracks.stopIf fun _ => Tracks.stopIf fun _ => Tracks.pure _

omit sound member in
-- `read_packed` itself does not look at the payload range.
theorem methodByte_tracks {inv : ReadArchive → Prop} (sees : Sees w number inv) {block size : Nat} (fits : size ≤ 4)
    (range : ∀ a, inv a → w = .reads → ∀ file, a.cache number = some file →
      payloadRange a (entryIndex a number) (file.packedOffset block).toNat size) :
    Tracks inv (methodByte w number block size) (Reading.methodByte number block size) := by
  refine Tracks.get fun a holds => ?_
  have sound := sees.sound a holds
  have inside := member_slot sound (sees.member a holds)
  have index := index_slot sound inside
  rw [fileAt_eq inside, pure_bind]
  cases cached : a.cache number with
  | none => exact Tracks.throw _
  | some file =>
    have seen : w = .reads → payloadRange a (entryIndex a number) (file.packedOffset block).toNat size :=
      fun reads => range a holds reads file cached
    simp only
    rw [mapAt_eq inside, pure_bind, payloadAt_eq sound index seen, pure_bind, sourceReadAt_eq seen fits]
    refine Tracks.bind (sees.onPlan _) fun packed => ?_
    rw [entryAt_eq sound inside, pure_bind]
    refine Tracks.ite (fun _ => ?_) fun _ => Tracks.pure _
    cases file.seed with
    | none => exact Tracks.throw _
    | some seed => exact Tracks.pure _

omit member in
theorem blockCompression_tracks (arrays : w = .arrays) (number block : Nat) :
    Tracks (SameShape o) (blockCompression w number block) (Reading.blockCompression number block) := by
  refine Tracks.bind (blockSizePacked_tracks sound arrays number block) fun packed => Tracks.get fun a same => ?_
  rw [blockSizeUnpacked_eq (sound.same same)]
  by_cases outside : number < a.files
  next =>
    have member : number < o.files := same.files ▸ outside
    refine Tracks.bind (Tracks.fromExcept _) fun unpacked => ?_
    rw [entryAt_eq (sound.same same) (member_inside sound member same), pure_bind]
    refine Tracks.ite (fun _ => Tracks.pure _) fun _ => Tracks.stopIf fun _ => ?_
    refine Tracks.ite (fun _ => Tracks.pure _) fun _ => ?_
    refine Tracks.bind (offsetsAcquire_tracks sound arrays number none) fun _ => holding_tracks sound number ?_
    refine methodByte_tracks (shape_sees sound member) ((Nat.min_le_right _ _).trans ?_) fun b _ reads => ?_
    · split <;> omega
    · rw [arrays] at reads
      exact nomatch reads
  next =>
    rw [Reading.blockSizeUnpacked, if_pos (.inl (Nat.le_of_not_lt outside))]
    exact fun s kept => ⟨rfl, kept⟩

theorem sectorTableOf_tracks (codecs : Codecs) :
    Tracks (SameShape o) (sectorTableOf w codecs number) (Reading.sectorTableOf codecs number) := by
  refine Tracks.get fun a same => ?_
  have inside := member_inside sound member same
  have index := index_slot (sound.same same) inside
  rw [mapAt_eq inside, pure_bind, entryAt_eq (sound.same same) inside, pure_bind,
    countFileBlocks_eq (sound.same same) inside, pure_bind]
  refine Tracks.ite (fun _ => Tracks.pure _) fun _ => ?_
  rw [fileAt_eq inside, pure_bind]
  cases a.cache number with
  | none => exact Tracks.throw _
  | some file =>
    refine Tracks.stopIf fun _ => Tracks.ite (fun _ => Tracks.pure _) fun _ => ?_
    refine Tracks.stopIf fun _ => Tracks.stopIf fun _ => Tracks.stopIf fun _ => Tracks.stopIf fun ranged => ?_
    have range : w = .reads → payloadRange a (entryIndex a number)
        (file.packedOffset (Reading.countFileBlocks a number)).toNat
        (file.packedOffset (Reading.countFileBlocks a number + 1) -
          file.packedOffset (Reading.countFileBlocks a number)).toNat := fun _ => not_not.mp ranged
    rw [payloadAt_eq (sound.same same) index range, pure_bind]
    refine Tracks.bind (onPlan_tracks _) fun _ => ?_
    rw [sourceReadAt_eq range le_rfl]
    refine Tracks.bind (onPlan_tracks _) fun packed => Tracks.get fun b _ => ?_
    exact Tracks.bind (modify_tracks fun _ => ⟨rfl, rfl, rfl, rfl, rfl⟩) fun _ => Tracks.stopIf fun _ => Tracks.pure _

omit member in
theorem sectorChecksums_tracks (arrays : w = .arrays) (codecs : Codecs) (member : number < o.files) :
    Tracks (SameShape o) (sectorChecksums w codecs number) (Reading.sectorChecksums codecs number) :=
  Tracks.bind (offsetsAcquire_tracks sound arrays number none) fun _ =>
    holding_tracks sound number (sectorTableOf_tracks sound member codecs)

theorem verifyStored_tracks (arrays : w = .arrays) (codecs : Codecs) (block : Nat) :
    Tracks (SameShape o) (verifyStored w codecs number block) (Reading.verifyStored codecs number block) := by
  refine Tracks.bind (sectorChecksums_tracks sound arrays codecs member) fun checksums => ?_
  cases checksums.map (· block) with
  | none => exact Tracks.throw _
  | some stored =>
    refine Tracks.stopIf fun _ => Tracks.get fun a same => ?_
    rw [blockSizeUnpacked_eq (sound.same same)]
    refine Tracks.bind (Tracks.fromExcept _) fun size => Tracks.bind (onPlan_tracks _) fun _ => ?_
    have slot : number < slots o := member_slot sound member arrays
    refine Tracks.bind (blockRead_tracks sound arrays codecs slot block _ _) fun read => ?_
    exact Tracks.stopIf fun _ => Tracks.pure _

omit member in
theorem verifyBlock_tracks (arrays : w = .arrays) (codecs : Codecs) (number block : Nat) :
    Tracks (SameShape o) (verifyBlock w codecs number block) (Reading.verifyBlock codecs number block) := by
  refine Tracks.get fun a same => validated_tracks sound same fun below _ => ?_
  have member : number < o.files := same.files ▸ below
  rw [entryAt_eq (sound.same same) (member_inside sound member same), pure_bind]
  refine Tracks.stopIf fun _ => Tracks.bind (offsetsAcquire_tracks sound arrays number none) fun _ => ?_
  exact releasing_tracks sound number (verifyStored_tracks sound member arrays codecs block)

omit member

theorem readBlock_tracks (codecs : Codecs) (number : Nat) (checksums : Option (Nat → UInt32)) (i : Nat) (r : ReadState) :
    Tracks (SameShape o) (readBlock w codecs number checksums i r) (Reading.readBlock codecs number checksums i r) := by
  intro a same
  have watched := (blockReadAcquired_tracks sound same codecs number i (checksums.map (· i))
    { plan := a.plan, buffer := (r.buffer.drop r.total).take (unpackedBlockSize a number i)
      mismatch := r.mismatch, lossy := r.lossy } trivial).1
  have sized : recover (blockSizeUnpacked w a number i) a =
      (.ok (Reading.blockSizeUnpacked a number i).toOption a : EStateM.Result (Stop Error) ReadArchive (Option Nat)) := by
    rw [blockSizeUnpacked_eq (sound.same same), recover, plainly]
    cases Reading.blockSizeUnpacked a number i <;> rfl
  rw [readBlock, bind_of_ok (get_run a), bind_of_ok sized, readSlice, watched, plainly, plainly, Reading.readBlock]
  cases Reading.blockReadAcquired codecs a number i (checksums.map (· i))
      { plan := a.plan, buffer := (r.buffer.drop r.total).take (unpackedBlockSize a number i)
        mismatch := r.mismatch, lossy := r.lossy } <;>
    exact ⟨rfl, same.trans ⟨rfl, rfl, rfl, rfl, rfl⟩⟩

theorem readMember_tracks (arrays : w = .arrays) (codecs : Codecs) (number : Nat) (buffer : Bytes) :
    Tracks (SameShape o) (readMember w codecs number buffer) (Reading.readMember codecs number buffer) := by
  refine Tracks.get fun a same => Tracks.stopIf fun below => ?_
  have member : number < o.files := same.files ▸ Nat.lt_of_not_le below
  have inside := member_inside sound member same
  rw [entryAt_eq (sound.same same) inside, pure_bind]
  refine Tracks.stopIf fun _ => ?_
  rw [countFileBlocks_eq (sound.same same) inside, pure_bind]
  refine Tracks.bind (offsetsAcquire_tracks sound arrays number none) fun _ => ?_
  refine Tracks.bind (holding_tracks sound number ?_) fun _ => Tracks.stopIf fun _ => Tracks.pure _
  refine Tracks.bind (sectorChecksums_tracks sound arrays codecs member).recover fun checksums => ?_
  refine Tracks.bind (Tracks.foldlM (fun r i => readBlock_tracks sound codecs number _ i r) _ _) fun _ => ?_
  exact Tracks.stopIf fun _ => Tracks.pure _

theorem verifyData_tracks {load : Op (Stop Error) ReadArchive Attributes.View}
    {load' : Op Error ReadArchive Attributes.View} (loads : Tracks (SameShape o) load load') (member : number < o.files)
    (data : Bytes) : Tracks (SameShape o) (verifyData w load number data) (Reading.verifyData load' number data) := by
  refine Tracks.get fun a same => ?_
  have inside := member_inside sound member same
  rw [entryAt_eq (sound.same same) inside, pure_bind]
  refine Tracks.stopIf fun _ => ?_
  rw [isMember_eq, pure_bind, isMember_eq, pure_bind]
  refine Tracks.ite (fun _ => Tracks.pure _) fun _ => Tracks.bind loads.recover fun view => ?_
  cases view with
  | none => exact Tracks.pure _
  | some view =>
    simp only
    rw [mapAt_eq inside, pure_bind, ← plainly_failIf]
    exact spares_tracks 0 (Keeps.failIf _ _)

theorem fileReadWith_tracks (arrays : w = .arrays) {load : Op (Stop Error) ReadArchive Attributes.View}
    {load' : Op Error ReadArchive Attributes.View} (loads : Tracks (SameShape o) load load') (codecs : Codecs)
    (member : number < o.files) (buffer : Bytes) :
    Tracks (SameShape o) (fileReadWith w load codecs number buffer)
      (Reading.fileReadWith load' codecs number buffer) := by
  refine Tracks.bind (readMember_tracks sound arrays codecs number buffer) fun r => ?_
  refine Tracks.bind (Tracks.ite (fun _ => Tracks.pure _) fun _ => ?_) fun _ => Tracks.pure _
  exact verifyData_tracks sound loads member _

theorem parseAttributes_tracks (arrays : w = .arrays) (codecs : Codecs) (member : number < o.files) (size : Nat) :
    Tracks (SameShape o) (parseAttributes w codecs number size) (Reading.parseAttributes codecs number size) := by
  refine Tracks.bind (offsetsAcquire_tracks sound arrays number _) fun _ => ?_
  refine Tracks.bind (holding_tracks sound number (fileReadWith_tracks sound arrays (Tracks.throw _) codecs member _)) ?_
  refine fun data => Tracks.stopIf fun _ => Tracks.get fun a same => ?_
  rw [mapAt_eq (member_inside sound member same), pure_bind]
  exact Tracks.fromExcept _

theorem attributesLoad_tracks (arrays : w = .arrays) (codecs : Codecs) :
    Tracks (SameShape o) (attributesLoad w codecs) (Reading.attributesLoad codecs) := by
  have remembers : ∀ e, Tracks (SameShape o) (plainly (rememberError e)) (rememberError e) := fun e =>
    Tracks.plain fun a same => same.trans (rememberError_framed (d := 0) shape_remembering e a)
  refine Tracks.get fun a same => ?_
  cases a.attributes with
  | some view => exact Tracks.pure _
  | none =>
    cases a.attributesError with
    | some e => exact Tracks.throw _
    | none =>
      simp only
      rw [outcome_fileNumber, pure_bind]
      cases found : Reading.fileNumber a attributesName with
      | error e => exact remembers e
      | ok number =>
        have member : number < o.files := same.files ▸ fileNumber_lt found
        simp only
        rw [entryAt_eq (sound.same same) (member_inside sound member same), pure_bind]
        refine Tracks.ite (fun _ => remembers _) fun _ => Tracks.bind (onPlan_tracks _) fun _ => ?_
        refine Tracks.get fun b same => ?_
        obtain ⟨watched, kept⟩ := parseAttributes_tracks sound arrays codecs member (entry a number).unpackedSize.toNat b same
        rw [watched, plainly]
        cases run : Reading.parseAttributes codecs number (entry a number).unpackedSize.toNat b with
        | ok view c =>
          rw [run] at kept
          exact fun s _ => ⟨rfl, kept.trans ⟨rfl, rfl, rfl, rfl, rfl⟩⟩
        | error e c =>
          rw [run] at kept
          refine fun s _ => ⟨rfl, ?_⟩
          change SameShape o (if e = .format then { c with attributesError := some e } else c)
          split
          · exact kept.trans ⟨rfl, rfl, rfl, rfl, rfl⟩
          · exact kept

theorem fileRead_tracks (arrays : w = .arrays) (codecs : Codecs) (number : Nat) (buffer : Bytes) :
    Tracks (SameShape o) (fileRead w codecs number buffer) (Reading.fileRead codecs number buffer) := by
  by_cases member : number < o.files
  next => exact fileReadWith_tracks sound arrays (attributesLoad_tracks sound arrays codecs) codecs member buffer
  next =>
    intro a same
    have outside : number ≥ a.files := same.files ▸ Nat.le_of_not_lt member
    have watched : readMember w codecs number buffer a = .error (.error .exist) a := by
      rw [readMember, bind_of_ok (get_run a), validateFileNumber, bind_of_error (stopIf_true outside _ a)]
    have plain : Reading.readMember codecs number buffer a = .error .exist a := by
      rw [Reading.readMember, bind_of_ok (get_run a), bind_of_error (failIf_true outside _ a)]
    rw [fileRead, fileReadWith, bind_of_error watched, plainly, Reading.fileRead, Reading.fileReadWith,
      bind_of_error plain]
    exact ⟨rfl, same⟩

theorem keyKnown_tracks (member : number < o.files) {a : ReadArchive} (same : SameShape o a) :
    Tracks (SameShape o) (keyKnown w a number) (Streaming.keyKnown a number) := by
  have inside := member_inside sound member same
  rw [keyKnown, countFileBlocks_eq (sound.same same) inside, pure_bind, entryAt_eq (sound.same same) inside, pure_bind,
    Streaming.keyKnown]
  refine Tracks.ite (fun _ => ?_) fun _ => Tracks.pure _
  rw [fileAt_eq inside, pure_bind]
  cases a.cache number with
  | none => exact Tracks.throw _
  | some file =>
    refine Tracks.stopIf fun _ => Tracks.stopIf fun _ => ?_
    rw [← plainly_failIf]
    exact spares_tracks 0 (Keeps.failIf _ _)

theorem orRelease_tracks (number : Nat) {α : Type} {x : Op (Stop Error) ReadArchive α} {y : Op Error ReadArchive α}
    (tracks : Tracks (SameShape o) x y) :
    Tracks (SameShape o) (orRelease w number x) (Streaming.orRelease number y) := by
  intro a same
  obtain ⟨watched, kept⟩ := tracks a same
  rw [orRelease, watched, plainly, plainly, Streaming.orRelease]
  cases run : y a with
  | ok r b =>
    rw [run] at kept
    exact ⟨rfl, kept⟩
  | error e b =>
    rw [run] at kept
    exact released sound number kept (throw (.error e))

theorem streamAdopt_tracks (arrays : w = .arrays) (codecs : Codecs) (number : Nat) (name : Option Bytes) :
    Tracks (SameShape o) (streamAdopt w codecs number name) (Streaming.streamAdopt codecs number name) := by
  refine Tracks.get fun a same => Tracks.stopIf fun below => ?_
  have member : number < o.files := same.files ▸ Nat.lt_of_not_le below
  refine Tracks.bind (onPlan_tracks _) fun _ => Tracks.bind (offsetsAcquire_tracks sound arrays number name) fun _ => ?_
  refine orRelease_tracks sound number (Tracks.get fun b same => ?_)
  refine Tracks.bind (keyKnown_tracks sound member same) fun _ => ?_
  refine Tracks.bind (sectorChecksums_tracks sound arrays codecs member).recover fun checksums => ?_
  exact Tracks.get fun c _ => Tracks.pure _

end tracks

end Watching

end LibMpq
