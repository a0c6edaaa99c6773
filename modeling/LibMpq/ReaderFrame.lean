import LibMpq.Content
import LibMpq.Lookup

set_option autoImplicit false

namespace LibMpq

open Effect Bits

namespace Reading

structure SameArchive (a b : ReadArchive) : Prop where
  source : b.source = a.source
  archiveOffset : b.archiveOffset = a.archiveOffset
  blockSize : b.blockSize = a.blockSize
  header : b.header = a.header
  headerEx : b.headerEx = a.headerEx
  hash : b.hash = a.hash
  blockEx : b.blockEx = a.blockEx
  indices : b.blockTableIndices = a.blockTableIndices
  diff : b.blockTableDiff = a.blockTableDiff
  files : b.files = a.files
  existing : ∀ j, existing b.block j = existing a.block j

theorem SameArchive.refl (a : ReadArchive) : SameArchive a a :=
  ⟨rfl, rfl, rfl, rfl, rfl, rfl, rfl, rfl, rfl, rfl, fun _ => rfl⟩

theorem SameArchive.trans {a b c : ReadArchive} (first : SameArchive a b) (second : SameArchive b c) :
    SameArchive a c where
  source := second.source.trans first.source
  archiveOffset := second.archiveOffset.trans first.archiveOffset
  blockSize := second.blockSize.trans first.blockSize
  header := second.header.trans first.header
  headerEx := second.headerEx.trans first.headerEx
  hash := second.hash.trans first.hash
  blockEx := second.blockEx.trans first.blockEx
  indices := second.indices.trans first.indices
  diff := second.diff.trans first.diff
  files := second.files.trans first.files
  existing := fun j => (second.existing j).trans (first.existing j)

theorem SameArchive.numberOf_eq {a b : ReadArchive} (same : SameArchive a b) (index : Nat) :
    numberOf b index = numberOf a index := by
  have exist := same.existing index
  simp only [Reading.existing] at exist
  rw [numberOf, exist, same.header, same.diff, same.files, numberOf]

theorem SameArchive.probe_eq {a b : ReadArchive} (same : SameArchive a b) (hash2 hash3 : UInt32)
    (home fuel i : Nat) : probe b hash2 hash3 home fuel i = probe a hash2 hash3 home fuel i := by
  have size : hashTableSize b = hashTableSize a := by rw [hashTableSize, same.header, hashTableSize]
  induction fuel generalizing i with
  | zero => rfl
  | succ fuel ih => simp only [probe, size, same.hash, same.numberOf_eq, ih]

theorem SameArchive.fileNumber_eq {a b : ReadArchive} (same : SameArchive a b) (name : Bytes) :
    fileNumber b name = fileNumber a name := by
  have size : hashTableSize b = hashTableSize a := by rw [hashTableSize, same.header, hashTableSize]
  simp only [fileNumber, fileNumberFromHash, size, same.probe_eq]

theorem SameArchive.isMember_eq {a b : ReadArchive} (same : SameArchive a b) (name : Bytes) (n : Nat) :
    isMember b name n = isMember a name n := by
  rw [isMember, same.fileNumber_eq, isMember]

structure Agree (number : Nat) (a b : ReadArchive) : Prop extends SameArchive a b where
  entry : b.block (a.blockTableIndices number) = a.block (a.blockTableIndices number)
  cache : b.cache number = a.cache number

section agree

variable {number : Nat} {a b : ReadArchive}

def core (number : Nat) (a : ReadArchive) : ReadArchive :=
  { a with
    plan := Faults.healthy
    headerEx := { extendedOffset := 0, hashTableOffsetHigh := 0, blockTableOffsetHigh := 0 }
    hash := fun _ => ⟨0, 0, 0, 0, 0⟩
    block := fun _ => a.block (a.blockTableIndices number)
    cache := fun _ => a.cache number
    attributes := none
    attributesError := none }

theorem Agree.core_eq (agree : Agree number a b) : core number b = core number a := by
  obtain ⟨⟨source, archiveOffset, blockSize, header, -, -, blockEx, indices, diff, files, -⟩, entry, cache⟩ :=
    agree
  rw [core, indices, entry, source, archiveOffset, blockSize, header, blockEx, diff, files, cache, core]

theorem Agree.same (agree : Agree number a b) {α : Type} (f : ReadArchive → α)
    (blind : ∀ a, f a = f (core number a)) : f b = f a := by
  rw [blind b, agree.core_eq, ← blind a]

theorem Agree.entryIndex_eq (agree : Agree number a b) : entryIndex b number = entryIndex a number :=
  agree.same (entryIndex · number) fun _ => rfl

theorem Agree.entry_eq (agree : Agree number a b) : Reading.entry b number = Reading.entry a number :=
  agree.same (Reading.entry · number) fun _ => rfl

theorem Agree.countFileBlocks_eq (agree : Agree number a b) :
    countFileBlocks b number = countFileBlocks a number :=
  agree.same (countFileBlocks · number) fun _ => rfl

theorem Agree.unpackedBlockSize_eq (agree : Agree number a b) (block : Nat) :
    unpackedBlockSize b number block = unpackedBlockSize a number block :=
  agree.same (unpackedBlockSize · number block) fun _ => rfl

theorem Agree.packedBlock_eq (agree : Agree number a b) (block : Nat) :
    packedBlock b number block = packedBlock a number block :=
  agree.same (packedBlock · number block) fun _ => rfl

theorem Agree.blockData_eq (agree : Agree number a b) (codecs : Codecs) (block : Nat) :
    blockData codecs b number block = blockData codecs a number block :=
  agree.same (blockData codecs · number block) fun _ => rfl

theorem Agree.blockReadAcquired_eq (agree : Agree number a b) (codecs : Codecs) (block : Nat)
    (checksum : Option UInt32) :
    blockReadAcquired codecs b number block checksum = blockReadAcquired codecs a number block checksum :=
  agree.same (blockReadAcquired codecs · number block checksum) fun _ => rfl

end agree

structure Twin (number index : Nat) (a b : ReadArchive) : Prop extends Agree number a b where
  plan : b.plan = a.plan
  place : a.blockTableIndices number = index

section twin

variable {number index : Nat}

theorem Twin.get_bind {α : Type} {g : ReadArchive → Op Error ReadArchive α}
    (blind : ∀ a, g a = g (core number a))
    (each : ∀ a, entryIndex a number = index → Mirrors (Twin number index) (g a) (g a)) :
    Mirrors (Twin number index) (get >>= g) (get >>= g) := by
  refine Mirrors.get_bind fun a b twin => ?_
  rw [twin.toAgree.same g blind]
  exact each a twin.place

theorem Twin.withPlan {a b : ReadArchive} (twin : Twin number index a b) (plan : Faults) :
    Twin number index { a with plan } { b with plan } :=
  ⟨⟨⟨twin.source, twin.archiveOffset, twin.blockSize, twin.header, twin.headerEx, twin.hash, twin.blockEx,
    twin.indices, twin.diff, twin.files, twin.existing⟩, twin.entry, twin.cache⟩, rfl, twin.place⟩

theorem onPlan_twin {α : Type} (x : Op Error Faults α) :
    Mirrors (Twin number index) (onPlan x) (onPlan x) :=
  Mirrors.zoom x (fun _ _ twin => twin.plan) fun plan _ _ twin => twin.withPlan plan

theorem setFlags_twin (flags : UInt32) {a b : ReadArchive} (twin : Twin number index a b) (at_ : Nat) :
    Twin number index (setFlags at_ flags a) (setFlags at_ flags b) := by
  refine ⟨⟨⟨twin.source, twin.archiveOffset, twin.blockSize, twin.header, twin.headerEx, twin.hash, twin.blockEx,
    twin.indices, twin.diff, twin.files, fun j => ?_⟩, ?_, twin.cache⟩, twin.plan, twin.place⟩
  · have same := twin.existing j
    simp only [existing] at same
    simp only [existing, setFlags]
    by_cases here : j = at_ <;> simp [here, same]
  · simp only [setFlags, twin.entry]

theorem storeCache_twin (file : Option FileCache) {a b : ReadArchive} (twin : Twin number index a b) :
    Twin number index (storeCache number file a) (storeCache number file b) := by
  refine ⟨⟨⟨twin.source, twin.archiveOffset, twin.blockSize, twin.header, twin.headerEx, twin.hash, twin.blockEx,
    twin.indices, twin.diff, twin.files, twin.existing⟩, twin.entry, ?_⟩, twin.plan, twin.place⟩
  simp only [storeCache, if_true]

theorem decryptTable_twin (a : ReadArchive) (size : Nat) (raw : Bytes) (seed : Option UInt32) :
    Mirrors (Twin number index) (decryptTable a size raw seed) (decryptTable a size raw seed) := by
  unfold decryptTable
  cases seed.orElse fun _ => Crypto.deriveBlockTableSeed raw a.blockSize with
  | none => exact Mirrors.throw _
  | some seed => exact Mirrors.bind (Mirrors.failIf Iff.rfl _) fun _ => Mirrors.pure _

theorem loadTable_twin (size count : Nat) (seed : Option UInt32) :
    Mirrors (Twin number index) (loadTable number size count seed) (loadTable number size count seed) := by
  refine Twin.get_bind (fun _ => rfl) fun a place => ?_
  refine Mirrors.bind (Mirrors.failIf Iff.rfl _) fun _ => Mirrors.bind (onPlan_twin _) fun _ => ?_
  refine Mirrors.bind (onPlan_twin _) fun raw => Mirrors.bind ?_ fun _ => ?_
  · split
    · exact Mirrors.modify fun _ _ twin => setFlags_twin _ twin _
    · exact Mirrors.pure _
  refine Mirrors.get_bind fun s t twin => ?_
  have stored : t.block (entryIndex a number) = s.block (entryIndex a number) := by
    rw [place, ← twin.place]
    exact twin.entry
  simp only [stored]
  refine Mirrors.bind ?_ fun loaded => ?_
  · split
    · exact decryptTable_twin _ _ _ _
    · exact Mirrors.pure _
  refine Mirrors.bind (Mirrors.failIf Iff.rfl _) fun _ => ?_
  exact Mirrors.bind (Mirrors.failIf Iff.rfl _) fun _ => Mirrors.pure _

theorem detectSeed_twin (count : Nat) (offsets : Offsets) :
    Mirrors (Twin number index) (detectSeed number count offsets) (detectSeed number count offsets) := by
  refine Twin.get_bind (fun _ => rfl) fun a _ => ?_
  simp only
  split
  · refine Mirrors.bind (Mirrors.failIf Iff.rfl _) fun _ => ?_
    refine Mirrors.bind (Mirrors.failIf Iff.rfl _) fun _ => ?_
    refine Mirrors.bind (Mirrors.failIf Iff.rfl _) fun _ => ?_
    refine Mirrors.bind (onPlan_twin _) fun first => ?_
    cases Crypto.detectFileKey first (entry a number).unpackedSize with
    | none => exact Mirrors.throw _
    | some seed => exact Mirrors.pure _
  · exact Mirrors.pure _

theorem loadOffsets_twin (name : Option Bytes) :
    Mirrors (Twin number index) (loadOffsets number name) (loadOffsets number name) := by
  refine Twin.get_bind (fun _ => rfl) fun a _ => ?_
  refine Mirrors.bind (Mirrors.failIf Iff.rfl _) fun _ => Mirrors.bind (onPlan_twin _) fun _ => ?_
  refine Mirrors.bind (onPlan_twin _) fun _ => Mirrors.bind ?_ fun offsets => ?_
  · split
    · exact loadTable_twin _ _ _
    · exact Mirrors.pure _
  · exact Mirrors.bind (detectSeed_twin _ _) fun _ => Mirrors.pure _

theorem offsetsAcquire_twin (name : Option Bytes) :
    Mirrors (Twin number index) (offsetsAcquire number name) (offsetsAcquire number name) := by
  refine Twin.get_bind (fun _ => rfl) fun a _ => ?_
  refine Mirrors.bind (Mirrors.failIf Iff.rfl _) fun _ => ?_
  cases a.cache number with
  | none =>
    exact Mirrors.bind (loadOffsets_twin name) fun _ => Mirrors.modify fun _ _ => storeCache_twin _
  | some file => exact Mirrors.modify fun _ _ => storeCache_twin _

theorem offsetsRelease_twin :
    Mirrors (Twin number index) (offsetsRelease number) (offsetsRelease number) := by
  refine Twin.get_bind (fun _ => rfl) fun a _ => ?_
  refine Mirrors.bind (Mirrors.failIf Iff.rfl _) fun _ => ?_
  cases a.cache number with
  | none => exact Mirrors.throw _
  | some file => exact Mirrors.modify fun _ _ => storeCache_twin _

theorem holding_twin {α : Type} {x : Op Error ReadArchive α} (mirrors : Mirrors (Twin number index) x x) :
    Mirrors (Twin number index) (holding number x) (holding number x) := by
  intro a b twin
  have alike := mirrors a b twin
  unfold holding
  generalize x a = p at alike ⊢
  generalize x b = q at alike ⊢
  cases alike with
  | @ok s t r related => exact .ok r (offsetsRelease_twin s t related).final
  | @error s t e related => exact .error e (offsetsRelease_twin s t related).final

theorem sectorTableOf_twin (codecs : Codecs) :
    Mirrors (Twin number index) (sectorTableOf codecs number) (sectorTableOf codecs number) := by
  refine Twin.get_bind (fun _ => rfl) fun a _ => ?_
  simp only
  split
  · exact Mirrors.pure _
  cases a.cache number with
  | none => exact Mirrors.throw _
  | some file =>
    refine Mirrors.bind (Mirrors.failIf Iff.rfl _) fun _ => ?_
    split
    · exact Mirrors.pure _
    refine Mirrors.bind (Mirrors.failIf Iff.rfl _) fun _ => ?_
    refine Mirrors.bind (Mirrors.failIf Iff.rfl _) fun _ => ?_
    refine Mirrors.bind (Mirrors.failIf Iff.rfl _) fun _ => ?_
    refine Mirrors.bind (Mirrors.failIf Iff.rfl _) fun _ => ?_
    refine Mirrors.bind (onPlan_twin _) fun _ => Mirrors.bind (onPlan_twin _) fun packed => ?_
    refine Mirrors.get_bind fun s t twin => ?_
    have asked : decide (t.plan 0 = none) = decide (s.plan 0 = none) := by rw [twin.plan]
    rw [asked]
    refine Mirrors.bind (Mirrors.modify fun s t twin => ?_) fun _ => ?_
    · rw [twin.plan]
      exact twin.withPlan _
    · exact Mirrors.bind (Mirrors.failIf Iff.rfl _) fun _ => Mirrors.pure _

theorem sectorChecksums_twin (codecs : Codecs) :
    Mirrors (Twin number index) (sectorChecksums codecs number) (sectorChecksums codecs number) :=
  Mirrors.bind (offsetsAcquire_twin none) fun _ => holding_twin (sectorTableOf_twin codecs)

theorem readBlock_twin (codecs : Codecs) (checksums : Option (Nat → UInt32)) (i : Nat) (s : ReadState) :
    Mirrors (Twin number index) (readBlock codecs number checksums i s)
      (readBlock codecs number checksums i s) := by
  intro a b twin
  unfold readBlock
  simp only [twin.toAgree.blockReadAcquired_eq, twin.toAgree.unpackedBlockSize_eq, twin.plan]
  cases blockReadAcquired codecs a number i (checksums.map (· i)) _ with
  | ok status w => exact .ok _ (twin.withPlan w.plan)
  | error e w => exact .error e (twin.withPlan w.plan)

theorem readMember_twin (codecs : Codecs) (buffer : Bytes) :
    Mirrors (Twin number index) (readMember codecs number buffer) (readMember codecs number buffer) := by
  refine Twin.get_bind (fun _ => rfl) fun a _ => ?_
  refine Mirrors.bind (Mirrors.failIf Iff.rfl _) fun _ => ?_
  refine Mirrors.bind (Mirrors.failIf Iff.rfl _) fun _ => ?_
  refine Mirrors.bind (offsetsAcquire_twin none) fun _ => Mirrors.bind (holding_twin ?_) fun s => ?_
  · refine Mirrors.bind (sectorChecksums_twin codecs).attempt fun checksums => ?_
    refine Mirrors.bind (Mirrors.foldlM (fun s i => readBlock_twin codecs _ i s) _ _) fun s => ?_
    exact Mirrors.bind (Mirrors.failIf Iff.rfl _) fun _ => Mirrors.pure _
  · exact Mirrors.bind (Mirrors.failIf Iff.rfl _) fun _ => Mirrors.pure _

theorem verifyData_twin (e : Error) (data : Bytes) :
    Mirrors (Twin number index) (verifyData (throw e) number data) (verifyData (throw e) number data) := by
  refine Mirrors.get_bind fun a b twin => ?_
  simp only [twin.toSameArchive.isMember_eq]
  refine Mirrors.bind (Mirrors.failIf (by rw [twin.toAgree.entry_eq]) _) fun _ => ?_
  split
  · exact Mirrors.pure _
  · exact Mirrors.bind (Mirrors.throw e).attempt fun view => by
      cases view with
      | none => exact Mirrors.pure _
      | some view =>
        exact Mirrors.failIf (by rw [twin.toAgree.entryIndex_eq]) _

theorem parseAttributes_twin (codecs : Codecs) (size : Nat) :
    Mirrors (Twin number index) (parseAttributes codecs number size)
      (parseAttributes codecs number size) := by
  refine Mirrors.bind (offsetsAcquire_twin _) fun _ => Mirrors.bind (holding_twin ?_) fun data => ?_
  · refine Mirrors.bind (readMember_twin codecs _) fun s => Mirrors.bind ?_ fun _ => Mirrors.pure _
    split
    · exact Mirrors.pure _
    · exact verifyData_twin _ _
  · refine Mirrors.bind (Mirrors.failIf Iff.rfl _) fun _ => Mirrors.get_bind fun a b twin => ?_
    simp only [twin.header, twin.toAgree.entryIndex_eq]
    exact Mirrors.fromExcept _

end twin

def lock (e : BlockEntry) : BlockEntry := { e with flags := e.flags ||| Flag.encrypted }

@[simp] theorem lock_lock (e : BlockEntry) : lock (lock e) = lock e := by
  simp only [lock, UInt32.or_assoc, UInt32.or_self]

theorem has_lock (e : BlockEntry) {bits : UInt32} (other : has Flag.encrypted bits = false) :
    has (lock e).flags bits = has e.flags bits := by
  rw [lock, or_has, other, Bool.or_false]

def tableSize (a : ReadArchive) (n : Nat) : Nat :=
  4 * (countFileBlocks a n + 1) + (if has (entry a n).flags Flag.sectorCrc then 4 else 0)

structure Suspect (a : ReadArchive) (n : Nat) : Prop where
  member : n < a.files
  serialized : serialized (entry a n).flags = true
  fits : ¬ ((entry a n).packedSize.toNat < tableSize a n ∨ ¬ payloadRange a (entryIndex a n) 0 (tableSize a n))
  first : looksEncrypted (a.source.read (payloadOffset a (entryIndex a n)) (tableSize a n)) (tableSize a n)

def Learns (n : Nat) (a b : ReadArchive) : Prop :=
  b.block (a.blockTableIndices n) = a.block (a.blockTableIndices n) ∨
    (b.block (a.blockTableIndices n) = lock (a.block (a.blockTableIndices n)) ∧ Suspect a n)

section learns

variable {n : Nat} {a b : ReadArchive} (same : SameArchive a b) (learns : Learns n a b)
include same learns

theorem Learns.entry_eq : entry b n = entry a n ∨ entry b n = lock (entry a n) ∧ Suspect a n := by
  rw [entry, entryIndex, same.indices]
  exact learns

theorem Learns.has_eq {bits : UInt32} (other : has Flag.encrypted bits = false) :
    has (entry b n).flags bits = has (entry a n).flags bits := by
  rcases learns.entry_eq same with kept | ⟨locked, -⟩
  · rw [kept]
  · rw [locked, has_lock _ other]

theorem Learns.unpackedSize_eq : (entry b n).unpackedSize = (entry a n).unpackedSize := by
  rcases learns.entry_eq same with kept | ⟨locked, -⟩
  · rw [kept]
  · rw [locked, lock]

theorem Learns.countFileBlocks_eq : countFileBlocks b n = countFileBlocks a n := by
  rw [countFileBlocks, learns.has_eq same (by decide), learns.unpackedSize_eq same, same.blockSize,
    countFileBlocks]

theorem Learns.serialized_eq : serialized (entry b n).flags = serialized (entry a n).flags := by
  rw [serialized, learns.has_eq same (by decide), learns.has_eq same (by decide), serialized]

theorem Learns.tableSize_eq : tableSize b n = tableSize a n := by
  rw [tableSize, learns.countFileBlocks_eq same, learns.has_eq same (by decide), tableSize]

theorem Learns.payloadOffset_eq :
    payloadOffset b (entryIndex b n) = payloadOffset a (entryIndex a n) := by
  have offset : (entry b n).offset = (entry a n).offset := by
    rcases learns.entry_eq same with kept | ⟨locked, -⟩
    · rw [kept]
    · rw [locked, lock]
  rw [entry, entry] at offset
  have index : entryIndex b n = entryIndex a n := by rw [entryIndex, same.indices, entryIndex]
  rw [payloadOffset, offset, same.archiveOffset, same.blockEx, index, payloadOffset]

theorem Learns.packedSize_eq : (entry b n).packedSize = (entry a n).packedSize := by
  rcases learns.entry_eq same with kept | ⟨locked, -⟩
  · rw [kept]
  · rw [locked, lock]

theorem Learns.payloadRange_iff (size : Nat) :
    payloadRange b (entryIndex b n) 0 size ↔ payloadRange a (entryIndex a n) 0 size := by
  rw [payloadRange, learns.payloadOffset_eq same, same.source, payloadRange]

theorem Learns.suspect_iff : Suspect b n ↔ Suspect a n := by
  constructor
  case mp =>
    rintro ⟨member, serial, fits, first⟩
    rw [learns.serialized_eq same] at serial
    rw [learns.payloadRange_iff same, learns.packedSize_eq same, learns.tableSize_eq same] at fits
    rw [same.source, learns.payloadOffset_eq same, learns.tableSize_eq same] at first
    exact ⟨same.files ▸ member, serial, fits, first⟩
  case mpr =>
    rintro ⟨member, serial, fits, first⟩
    refine ⟨same.files.symm ▸ member, by rwa [learns.serialized_eq same], ?_, ?_⟩
    · rwa [learns.payloadRange_iff same, learns.packedSize_eq same, learns.tableSize_eq same]
    · rwa [same.source, learns.payloadOffset_eq same, learns.tableSize_eq same]

theorem Learns.trans {c : ReadArchive} (later : Learns n b c) : Learns n a c := by
  have known := (learns.suspect_iff same).mp
  rw [Learns, same.indices] at later
  rcases later with kept | ⟨locked, suspect⟩
  · rw [Learns, kept]
    exact learns
  · refine .inr ⟨?_, known suspect⟩
    rcases learns with kept' | ⟨locked', -⟩
    · rw [locked, kept']
    · rw [locked, locked', lock_lock]

end learns

structure Spares (n : Nat) (a b : ReadArchive) : Prop extends SameArchive a b where
  own : Learns n a b
  entries : ∀ j, j ≠ a.blockTableIndices n → b.block j = a.block j
  caches : ∀ m, m ≠ n → b.cache m = a.cache m
  attributes : b.attributes = a.attributes
  attributesError : b.attributesError = a.attributesError
  steady : Faults.Steady a.plan b.plan

instance (n : Nat) : Std.Refl (Spares n) :=
  ⟨fun a => ⟨.refl a, .inl rfl, fun _ _ => rfl, fun _ _ => rfl, rfl, rfl, fun healthy => healthy⟩⟩

instance (n : Nat) : IsTrans ReadArchive (Spares n) where
  trans a b c first second :=
    { toSameArchive := first.toSameArchive.trans second.toSameArchive
      own := first.own.trans first.toSameArchive second.own
      entries := fun j other =>
        (second.entries j (by rwa [first.indices])).trans (first.entries j other)
      caches := fun m other => (second.caches m other).trans (first.caches m other)
      attributes := second.attributes.trans first.attributes
      attributesError := second.attributesError.trans first.attributesError
      steady := second.steady ∘ first.steady }

theorem Spares.has_own {n : Nat} {a b : ReadArchive} (spares : Spares n a b) {bits : UInt32}
    (other : has Flag.encrypted bits = false) : has (entry b n).flags bits = has (entry a n).flags bits :=
  spares.own.has_eq spares.toSameArchive other

theorem Spares.own_size {n : Nat} {a b : ReadArchive} (spares : Spares n a b) :
    (entry b n).unpackedSize = (entry a n).unpackedSize :=
  spares.own.unpackedSize_eq spares.toSameArchive

theorem Spares.countFileBlocks_eq {n : Nat} {a b : ReadArchive} (spares : Spares n a b) :
    countFileBlocks b n = countFileBlocks a n :=
  spares.own.countFileBlocks_eq spares.toSameArchive

theorem Spares.unpackedBlockSize_eq {n : Nat} {a b : ReadArchive} (spares : Spares n a b) (block : Nat) :
    unpackedBlockSize b n block = unpackedBlockSize a n block := by
  rw [unpackedBlockSize, spares.has_own (by decide), spares.own_size, spares.blockSize,
    spares.countFileBlocks_eq, unpackedBlockSize]

theorem Spares.agree {n number : Nat} {a b : ReadArchive} (spares : Spares n a b) (other : number ≠ n)
    (apart : a.blockTableIndices number ≠ a.blockTableIndices n) : Agree number a b :=
  ⟨spares.toSameArchive, spares.entries _ apart, spares.caches number other⟩

theorem spares_withPlan {n : Nat} (a : ReadArchive) {plan : Faults} (steady : Faults.Steady a.plan plan) :
    Spares n a { a with plan } :=
  ⟨⟨rfl, rfl, rfl, rfl, rfl, rfl, rfl, rfl, rfl, rfl, fun _ => rfl⟩, .inl rfl, fun _ _ => rfl, fun _ _ => rfl,
    rfl, rfl, steady⟩

theorem fetch_steady (source : File) (offset size : Nat) (plan : Faults) :
    Faults.Steady plan (fetch source offset size plan).2 := by
  rintro rfl
  unfold fetch
  split
  · rfl
  split <;> rfl

theorem sourceReadAt_steady (source : File) (offset size : Nat) :
    Keeps Faults.Steady (sourceReadAt source offset size) := by
  intro plan
  have kept := fetch_steady source offset size plan
  unfold sourceReadAt
  cases result : fetch source offset size plan with
  | mk got rest =>
    obtain ⟨stored, error⟩ := got
    rw [result] at kept
    cases error <;> exact kept

section spares

variable {n : Nat}

theorem onPlan_spares {α : Type} {x : Op Error Faults α} (steady : Keeps Faults.Steady x) :
    Keeps (Spares n) (onPlan x) :=
  Keeps.zoom steady fun a _ kept => spares_withPlan a kept

theorem storeCache_spares (file : Option FileCache) (a : ReadArchive) :
    Spares n a (storeCache n file a) := by
  refine ⟨⟨rfl, rfl, rfl, rfl, rfl, rfl, rfl, rfl, rfl, rfl, fun _ => rfl⟩, .inl rfl, fun _ _ => rfl,
    fun m other => ?_, rfl, rfl, fun healthy => healthy⟩
  simp only [storeCache, other, if_false]

-- The entry is the one the call started from: only its encrypted bit may be new.
theorem Spares.setFlags {a s : ReadArchive} (spares : Spares n a s) (suspect : Suspect a n) :
    Spares n a (setFlags (entryIndex a n) (lock (entry a n)).flags s) := by
  have own : { s.block (entryIndex a n) with flags := (lock (entry a n)).flags } = lock (entry a n) := by
    have kept := spares.own
    rw [Learns, ← entryIndex] at kept
    rcases kept with same | ⟨locked, -⟩
    · rw [same]
      rfl
    · rw [locked]
      rfl
  refine ⟨⟨spares.source, spares.archiveOffset, spares.blockSize, spares.header, spares.headerEx, spares.hash,
    spares.blockEx, spares.indices, spares.diff, spares.files, fun j => ?_⟩, .inr ⟨?_, suspect⟩, fun j other => ?_,
    spares.caches, spares.attributes, spares.attributesError, spares.steady⟩
  · have same := spares.existing j
    simp only [existing] at same ⊢
    by_cases here : j = entryIndex a n
    · simp only [Reading.setFlags, here, if_true, has_lock _ (show has Flag.encrypted Flag.exists_ = false by decide)]
      rfl
    · simp only [Reading.setFlags, here, if_false, same]
  · rw [← entryIndex]
    simp only [Reading.setFlags, if_true]
    exact own
  · have elsewhere : j ≠ entryIndex a n := other
    simp only [Reading.setFlags, elsewhere, if_false]
    exact spares.entries j other

theorem decryptTable_spares (a : ReadArchive) (size : Nat) (raw : Bytes) (seed : Option UInt32) :
    Keeps (Spares n) (decryptTable a size raw seed) := by
  unfold decryptTable
  cases seed.orElse fun _ => Crypto.deriveBlockTableSeed raw a.blockSize with
  | none => exact Keeps.throw _
  | some seed => exact Keeps.bind (Keeps.failIf _ _) fun _ => Keeps.pure _

def SparesAll {α : Type} (n : Nat) (a : ReadArchive) (result : EStateM.Result Error ReadArchive α) : Prop :=
  Spares n a (final result)

theorem loadTable_spares {a : ReadArchive} (member : n < a.files) (serial : serialized (entry a n).flags = true) (count : Nat)
    (seed : Option UInt32) : SparesAll n a (loadTable n (tableSize a n) count seed a) := by
  have failed : ∀ (e : Error) (s : ReadArchive), Spares n a s →
      SparesAll n a (.error e s : EStateM.Result Error ReadArchive Offsets) := fun _ _ spares => spares
  unfold loadTable
  rw [bind_of_ok (get_run a)]
  refine Keeps.bind_elim (Keeps.failIf _ _) (refl_of (Spares n) a) failed fun _ _ checked spares => ?_
  have fits := (failIf_ok.mp checked).1
  refine Keeps.bind_elim (onPlan_spares (request_steady _)) spares failed fun _ _ _ spares => ?_
  refine Keeps.bind_elim (onPlan_spares (sourceReadAt_steady _ _ _)) spares failed
    fun raw t read spares => ?_
  obtain ⟨t', marked, spares⟩ : ∃ t', (if looksEncrypted raw (tableSize a n) then
      modify (setFlags (entryIndex a n) ((a.block (entryIndex a n)).flags ||| Flag.encrypted))
      else pure () : Op Error ReadArchive PUnit) t = .ok ⟨⟩ t' ∧ Spares n a t' := by
    split
    next encrypted =>
      obtain ⟨_, read, -⟩ := zoom_ok.mp read
      rw [sourceReadAt_ok read] at encrypted
      exact ⟨_, rfl, spares.setFlags ⟨member, serial, fits, encrypted⟩⟩
    · exact ⟨t, rfl, spares⟩
  rw [bind_of_ok marked, bind_of_ok (get_run t')]
  refine Keeps.bind_elim (R := Spares n) ?_ spares failed fun loaded _ _ spares => ?_
  · split
    · exact decryptTable_spares _ _ _ _
    · exact Keeps.pure _
  refine Keeps.bind_elim (Keeps.failIf _ _) spares failed fun _ _ _ spares => ?_
  exact Keeps.bind_elim (Keeps.failIf _ _) spares failed fun _ _ _ spares => spares

theorem detectSeed_spares (count : Nat) (offsets : Offsets) :
    Keeps (Spares n) (detectSeed n count offsets) := by
  refine Keeps.bind Keeps.get fun a => ?_
  simp only
  split
  · refine Keeps.bind (Keeps.failIf _ _) fun _ => Keeps.bind (Keeps.failIf _ _) fun _ => ?_
    refine Keeps.bind (Keeps.failIf _ _) fun _ => ?_
    refine Keeps.bind (onPlan_spares (sourceReadAt_steady _ _ _)) fun first => ?_
    cases Crypto.detectFileKey first (entry a n).unpackedSize with
    | none => exact Keeps.throw _
    | some seed => exact Keeps.pure _
  · exact Keeps.pure _

theorem loadOffsets_spares {a : ReadArchive} (member : n < a.files) (name : Option Bytes) :
    SparesAll n a (loadOffsets n name a) := by
  have failed : ∀ (e : Error) (s : ReadArchive), Spares n a s →
      SparesAll n a (.error e s : EStateM.Result Error ReadArchive FileCache) := fun _ _ spares => spares
  unfold loadOffsets
  rw [bind_of_ok (get_run a)]
  refine Keeps.bind_elim (Keeps.failIf _ _) (refl_of (Spares n) a) failed fun _ _ _ spares => ?_
  refine Keeps.bind_elim (onPlan_spares (request_steady _)) spares failed fun _ _ _ spares => ?_
  refine Keeps.bind_elim (onPlan_spares (request_steady _)) spares failed fun _ s _ spares => ?_
  have loads : SparesAll n s ((if serialized (entry a n).flags then loadTable n (tableSize a n)
      (countFileBlocks a n + 1) (name.map (fileSeed (entry a n)))
      else pure { table := synthesized a n, seed := name.map (fileSeed (entry a n)) } :
        Op Error ReadArchive Offsets) s) := by
    split
    next serial =>
      rw [← spares.own.tableSize_eq spares.toSameArchive]
      exact loadTable_spares (spares.files.symm ▸ member)
        (by rwa [spares.own.serialized_eq spares.toSameArchive]) _ _
    · exact refl_of (Spares n) s
  refine bind_elim_at loads spares failed fun offsets _ _ spares => ?_
  exact Keeps.bind_elim (detectSeed_spares _ _) spares failed fun _ _ _ spares => spares

theorem offsetsAcquire_spares (name : Option Bytes) : Keeps (Spares n) (offsetsAcquire n name) := by
  intro a
  unfold offsetsAcquire
  rw [bind_of_ok (get_run a)]
  by_cases outside : n ≥ a.files
  · rw [bind_of_error (failIf_true outside _ _)]
    exact refl_of (Spares n) a
  rw [bind_of_ok (failIf_false outside _ _)]
  cases a.cache n with
  | none =>
    refine bind_elim_at (P := SparesAll n a) (loadOffsets_spares (Nat.not_le.mp outside) name)
      (refl_of (Spares n) a) (fun _ _ spares => spares) fun file s _ spares => ?_
    exact trans_of (Spares n) spares (storeCache_spares (some file) s)
  | some file => exact storeCache_spares _ a

theorem offsetsRelease_spares : Keeps (Spares n) (offsetsRelease n) := by
  refine Keeps.bind Keeps.get fun a => Keeps.bind (Keeps.failIf _ _) fun _ => ?_
  cases a.cache n with
  | none => exact Keeps.throw _
  | some file => exact Keeps.modify fun _ => storeCache_spares _ _

theorem holding_spares {α : Type} {x : Op Error ReadArchive α} (spares : Keeps (Spares n) x) :
    Keeps (Spares n) (holding n x) := by
  intro a
  have kept := spares a
  unfold holding
  cases run : x a with
  | ok r a' =>
    rw [run] at kept
    exact trans_of (Spares n) kept (offsetsRelease_spares a')
  | error e a' =>
    rw [run] at kept
    exact trans_of (Spares n) kept (offsetsRelease_spares a')

theorem sectorTableOf_spares (codecs : Codecs) : Keeps (Spares n) (sectorTableOf codecs n) := by
  refine Keeps.bind Keeps.get fun a => ?_
  simp only
  split
  · exact Keeps.pure _
  cases a.cache n with
  | none => exact Keeps.throw _
  | some file =>
    refine Keeps.bind (Keeps.failIf _ _) fun _ => ?_
    split
    · exact Keeps.pure _
    refine Keeps.bind (Keeps.failIf _ _) fun _ => Keeps.bind (Keeps.failIf _ _) fun _ => ?_
    refine Keeps.bind (Keeps.failIf _ _) fun _ => Keeps.bind (Keeps.failIf _ _) fun _ => ?_
    refine Keeps.bind (onPlan_spares (request_steady _)) fun _ => ?_
    refine Keeps.bind (onPlan_spares (sourceReadAt_steady _ _ _)) fun packed => ?_
    refine Keeps.bind Keeps.get fun t => Keeps.bind (Keeps.modify fun s => ?_) fun _ => ?_
    · refine spares_withPlan s fun healthy => ?_
      rw [healthy]
      rfl
    · exact Keeps.bind (Keeps.failIf _ _) fun _ => Keeps.pure _

theorem sectorChecksums_spares (codecs : Codecs) : Keeps (Spares n) (sectorChecksums codecs n) :=
  Keeps.bind (offsetsAcquire_spares none) fun _ => holding_spares (sectorTableOf_spares codecs)

def SteadyWindow (w w' : Window) : Prop := Faults.Steady w.plan w'.plan

instance : Std.Refl SteadyWindow := ⟨fun _ healthy => healthy⟩

instance : IsTrans Window SteadyWindow := ⟨fun _ _ _ first second => second ∘ first⟩

theorem windowPlan_steady {α : Type} {x : Op Error Faults α} (steady : Keeps Faults.Steady x) :
    Keeps SteadyWindow (windowPlan x) :=
  Keeps.zoom steady fun _ _ kept => kept

theorem readDirect_steady (source : File) (offset size : Nat) :
    Keeps SteadyWindow (readDirect source offset size) := by
  intro w
  have kept := fetch_steady source offset size w.plan
  unfold readDirect
  simp only
  split <;> exact kept

theorem readPacked_steady (a : ReadArchive) (number block : Nat) (file : FileCache) (size : Nat) :
    Keeps SteadyWindow (readPacked a number block file size) := by
  refine Keeps.bind (windowPlan_steady (sourceReadAt_steady _ _ _)) fun packed => ?_
  split
  · cases file.seed with
    | none => exact Keeps.throw _
    | some seed => exact Keeps.pure _
  · exact Keeps.pure _

theorem decodeInto_steady (codecs : Codecs) (packed : Bytes) (size : Nat) (method version : UInt32) :
    Keeps SteadyWindow (decodeInto codecs packed size method version) := by
  intro w
  have kept : Faults.Steady w.plan w.plan.rest := by
    intro healthy
    rw [healthy]
    rfl
  unfold decodeInto
  simp only [bind_run, granted, get_run, set_run]
  by_cases failed : (Compression.decompressBlock codecs (decide (w.plan 0 = none)) packed w.buffer
      (UInt32.ofNat size) method version).status < 0
  · rw [failIf_true failed]
    exact kept
  · rw [failIf_false failed]
    exact kept

theorem unpackBlock_steady (codecs : Codecs) (flags version : UInt32) (packed : Bytes) (size : Nat) :
    Keeps SteadyWindow (unpackBlock codecs flags version packed size) := by
  unfold unpackBlock
  refine Keeps.bind ?_ fun _ => Keeps.bind ?_ fun _ => Keeps.bind (Keeps.failIf _ _) fun _ => ?_
  all_goals
    split
    · exact decodeInto_steady _ _ _ _ _
    · exact Keeps.pure _

theorem noteLossy_steady (flags : UInt32) (packed : Bytes) (size : Nat) :
    Keeps SteadyWindow (modify (noteLossy flags packed size) : Op Error Window PUnit) := by
  refine Keeps.modify fun w healthy => ?_
  unfold noteLossy
  split <;> exact healthy

theorem noteMismatch_steady (checksum : Option UInt32) (packed : Bytes) :
    Keeps SteadyWindow (modify (noteMismatch checksum packed) : Op Error Window PUnit) := by
  refine Keeps.modify fun w healthy => ?_
  unfold noteMismatch
  cases checksum with
  | none => exact healthy
  | some sum =>
    simp only
    split <;> exact healthy

theorem blockReadAcquired_steady (codecs : Codecs) (a : ReadArchive) (number block : Nat)
    (checksum : Option UInt32) :
    Keeps SteadyWindow (blockReadAcquired codecs a number block checksum) := by
  refine Keeps.bind (Keeps.failIf _ _) fun _ => Keeps.bind (Keeps.failIf _ _) fun _ => ?_
  cases a.cache number with
  | none => exact Keeps.throw _
  | some file =>
    refine Keeps.bind (Keeps.failIf _ _) fun _ => Keeps.bind Keeps.get fun _ => ?_
    refine Keeps.bind (Keeps.failIf _ _) fun _ => Keeps.bind (Keeps.failIf _ _) fun _ => ?_
    refine Keeps.bind (Keeps.failIf _ _) fun _ => Keeps.bind ?_ fun packed => ?_
    · split
      · exact readDirect_steady _ _ _
      · exact Keeps.bind (windowPlan_steady (request_steady _)) fun _ => readPacked_steady _ _ _ _ _
    · refine Keeps.bind (noteLossy_steady _ _ _) fun _ => ?_
      exact Keeps.bind (noteMismatch_steady _ _) fun _ => unpackBlock_steady _ _ _ _ _

theorem readBlock_spares (codecs : Codecs) (checksums : Option (Nat → UInt32)) (i : Nat) (s : ReadState) :
    Keeps (Spares n) (readBlock codecs n checksums i s) := by
  intro a
  unfold readBlock
  simp only
  have kept := blockReadAcquired_steady codecs a n i (checksums.map (· i))
    { plan := a.plan, buffer := (s.buffer.drop s.total).take (unpackedBlockSize a n i)
      mismatch := s.mismatch, lossy := s.lossy }
  split
  next run =>
    rw [run] at kept
    exact spares_withPlan a kept
  next run =>
    rw [run] at kept
    exact spares_withPlan a kept

theorem readMember_spares (codecs : Codecs) (buffer : Bytes) :
    Keeps (Spares n) (readMember codecs n buffer) := by
  refine Keeps.bind Keeps.get fun a => Keeps.bind (Keeps.failIf _ _) fun _ => ?_
  refine Keeps.bind (Keeps.failIf _ _) fun _ => Keeps.bind (offsetsAcquire_spares none) fun _ => ?_
  refine Keeps.bind (holding_spares ?_) fun s => Keeps.bind (Keeps.failIf _ _) fun _ => Keeps.pure _
  refine Keeps.bind (sectorChecksums_spares codecs).attempt fun checksums => ?_
  refine Keeps.bind (Keeps.foldlM (fun s i => readBlock_spares codecs _ i s) _ _) fun s => ?_
  exact Keeps.bind (Keeps.failIf _ _) fun _ => Keeps.pure _

theorem parseAttributes_spares (codecs : Codecs) (size : Nat) :
    Keeps (Spares n) (parseAttributes codecs n size) := by
  refine Keeps.bind (offsetsAcquire_spares _) fun _ => Keeps.bind (holding_spares ?_) fun data => ?_
  · refine Keeps.bind (readMember_spares codecs _) fun s => Keeps.bind ?_ fun _ => Keeps.pure _
    split
    · exact Keeps.pure _
    · refine Keeps.bind Keeps.get fun a => Keeps.bind (Keeps.failIf _ _) fun _ => ?_
      split
      · exact Keeps.pure _
      · refine Keeps.bind (Keeps.throw _).attempt fun view => ?_
        cases view with
        | none => exact Keeps.pure _
        | some view => exact Keeps.failIf _ _
  · exact Keeps.bind (Keeps.failIf _ _) fun _ => Keeps.bind Keeps.get fun a => Keeps.fromExcept _

end spares

theorem numberOf_lt {a : ReadArchive} {index n : Nat} (found : numberOf a index = .ok n) : n < a.files := by
  unfold numberOf at found
  split at found
  · cases found
  split at found
  · cases found
  next inside =>
    cases found
    exact Nat.not_le.mp inside

theorem probe_lt {a : ReadArchive} {hash2 hash3 : UInt32} {home fuel i n : Nat}
    (found : probe a hash2 hash3 home fuel i = .ok n) : n < a.files := by
  induction fuel generalizing i with
  | zero => cases found
  | succ fuel ih =>
    simp only [probe] at found
    split at found
    · cases found
    split at found
    · exact numberOf_lt found
    split at found
    · cases found
    · exact ih found

theorem fileNumber_lt {a : ReadArchive} {name : Bytes} {n : Nat} (found : fileNumber a name = .ok n) :
    n < a.files := by
  simp only [fileNumber, fileNumberFromHash] at found
  split at found
  · cases found
  · exact probe_lt found

theorem isMember_false {a : ReadArchive} {name : Bytes} {n number : Nat}
    (found : fileNumber a name = .ok n) (other : isMember a name number = false) : number ≠ n := by
  rintro rfl
  rw [isMember, found] at other
  simp at other

def verdict {α : Type} : EStateM.Result Error ReadArchive α → Except Error α
  | .ok r _ => .ok r
  | .error e _ => .error e

theorem onPlan_healthy {α : Type} {x : Op Error Faults α} {a : ReadArchive} {r : α}
    (quiet : a.plan = Faults.healthy) (run : x Faults.healthy = .ok r Faults.healthy) :
    onPlan x a = .ok r a := by
  cases a
  subst quiet
  simp only [onPlan, zoom, run]

section attributes

variable {number : Nat} {a : ReadArchive} (handle : Handle a) (member : number < a.files)
  (other : isMember a attributesName number = false)
include handle member other

theorem apart_of_other {n : Nat} (found : fileNumber a attributesName = .ok n) :
    a.blockTableIndices number ≠ a.blockTableIndices n := fun same =>
  isMember_false found other (handle.injective member (fileNumber_lt found) same)

def Unmoved {α : Type} (number : Nat) (a : ReadArchive) (result : EStateM.Result Error ReadArchive α) :
    Prop :=
  Agree number a (final result) ∧ Faults.Steady a.plan (final result).plan

omit handle member other in
theorem rememberError_unmoved (e : Error) : Unmoved number a (rememberError e a) := by
  have noted : SameArchive a { a with attributesError := some e } :=
    ⟨rfl, rfl, rfl, rfl, rfl, rfl, rfl, rfl, rfl, rfl, fun _ => rfl⟩
  unfold rememberError
  split
  · exact ⟨⟨noted, rfl, rfl⟩, fun healthy => healthy⟩
  · exact ⟨⟨.refl a, rfl, rfl⟩, fun healthy => healthy⟩

theorem attributesLoad_unmoved (codecs : Codecs) : Unmoved number a (attributesLoad codecs a) := by
  have still : Agree number a a := ⟨.refl a, rfl, rfl⟩
  unfold attributesLoad
  rw [bind_of_ok (get_run a)]
  cases cached : a.attributes with
  | some view => exact ⟨still, fun healthy => healthy⟩
  | none =>
  cases remembered : a.attributesError with
  | some e => exact ⟨still, fun healthy => healthy⟩
  | none =>
  cases found : fileNumber a attributesName with
  | error e => exact rememberError_unmoved e
  | ok n =>
    have spared : ∀ {α : Type} (result : EStateM.Result Error ReadArchive α),
        Spares n a (final result) → Unmoved number a result := fun result spares =>
      ⟨spares.agree (isMember_false found other) (apart_of_other handle member other found), spares.steady⟩
    simp only
    split
    · exact rememberError_unmoved .format
    refine Keeps.bind_elim (onPlan_spares (request_steady _)) (refl_of (Spares n) a)
      (fun e s spares => spared _ spares) fun _ s _ spares => ?_
    rw [bind_of_ok (get_run s)]
    have parsed := trans_of (Spares n) spares (parseAttributes_spares codecs
      (entry a n).unpackedSize.toNat s)
    cases run : parseAttributes codecs n (entry a n).unpackedSize.toNat s with
    | ok view s' =>
      rw [run] at parsed
      obtain ⟨⟨same, entries, cache⟩, steady⟩ := spared _ parsed
      exact ⟨⟨⟨same.source, same.archiveOffset, same.blockSize, same.header, same.headerEx, same.hash, same.blockEx,
        same.indices, same.diff, same.files, same.existing⟩, entries, cache⟩, steady⟩
    | error e s' =>
      rw [run] at parsed
      obtain ⟨⟨same, entries, cache⟩, steady⟩ := spared _ parsed
      change Unmoved number a (.error e (if e = .format then { s' with attributesError := some e } else s') :
        EStateM.Result Error ReadArchive Attributes.View)
      split
      · exact ⟨⟨⟨same.source, same.archiveOffset, same.blockSize, same.header, same.headerEx, same.hash, same.blockEx,
          same.indices, same.diff, same.files, same.existing⟩, entries, cache⟩, steady⟩
      · exact ⟨⟨same, entries, cache⟩, steady⟩

theorem attributesLoad_verdict (codecs : Codecs) (healthy : a.plan = Faults.healthy) {b : ReadArchive}
    (spares : Spares number a b) :
    verdict (attributesLoad codecs b) = verdict (attributesLoad codecs a) := by
  have calm : b.plan = Faults.healthy := spares.steady healthy
  have noted : ∀ (e : Error) (s : ReadArchive), verdict (rememberError e s) = .error e := by
    intro e s
    unfold rememberError
    split <;> rfl
  unfold attributesLoad
  rw [bind_of_ok (get_run a), bind_of_ok (get_run b), spares.attributes, spares.attributesError,
    spares.toSameArchive.fileNumber_eq]
  cases a.attributes with
  | some view => rfl
  | none =>
  cases a.attributesError with
  | some e => rfl
  | none =>
  cases found : fileNumber a attributesName with
  | error e => exact (noted e b).trans (noted e a).symm
  | ok n =>
    have agree : Agree n a b := spares.agree (isMember_false found other).symm
      (apart_of_other handle member other found).symm
    simp only [agree.entry_eq, spares.header]
    split
    · exact (noted .format b).trans (noted .format a).symm
    rw [bind_of_ok (onPlan_healthy calm (request_healthy _)), bind_of_ok (get_run b),
      bind_of_ok (onPlan_healthy healthy (request_healthy _)), bind_of_ok (get_run a)]
    have alike := parseAttributes_twin codecs (entry a n).unpackedSize.toNat a b
      ⟨agree, calm.trans healthy.symm, rfl⟩
    generalize parseAttributes codecs n (entry a n).unpackedSize.toNat a = p at alike ⊢
    generalize parseAttributes codecs n (entry a n).unpackedSize.toNat b = q at alike ⊢
    cases alike <;> rfl

end attributes

end Reading

end LibMpq
