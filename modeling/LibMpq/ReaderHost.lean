import LibMpq.Base.Trailing
import LibMpq.Integrity

set_option autoImplicit false

namespace LibMpq

open Effect Bits

namespace Reading

/-- The handle on a host that refuses nothing. -/
def quietly (a : ReadArchive) : ReadArchive := { a with plan := Faults.healthy }

def Hosted (a b : ReadArchive) : Prop := b = quietly a

section hosted

variable {own : Error → Prop}

theorem fetch_trails (source : File) (offset size : Nat) (plan : Faults) :
    (fetch source offset size Faults.healthy).2 = Faults.healthy ∧
      ((fetch source offset size plan).1 = (fetch source offset size Faults.healthy).1 ∨
        ∃ e, (fetch source offset size plan).1.error = some e ∧ e ≠ .format) := by
  unfold fetch
  split
  · exact ⟨rfl, .inl rfl⟩
  split
  · exact ⟨rfl, .inl rfl⟩
  refine ⟨rfl, ?_⟩
  split
  · exact .inr ⟨.seek, rfl, by decide⟩
  · split
    · exact .inl rfl
    · exact .inr ⟨.read, rfl, by decide⟩

variable (every : ∀ e, e ≠ .format → own e)
include every

theorem sourceReadAt_trails (source : File) (offset size : Nat) :
    Trails own Sound (sourceReadAt source offset size) (sourceReadAt source offset size) := by
  rintro plan _ rfl
  obtain ⟨quiet, outcome⟩ := fetch_trails source offset size plan
  unfold sourceReadAt
  generalize fetch source offset size plan = p at outcome ⊢
  generalize fetch source offset size Faults.healthy = q at quiet outcome ⊢
  obtain ⟨⟨stored, error⟩, rest⟩ := p
  obtain ⟨⟨stored', error'⟩, rest'⟩ := q
  cases outcome with
  | inl same =>
    cases same
    cases error with
    | none => exact .alike (.ok stored quiet)
    | some e => exact .alike (.error e quiet)
  | inr broke =>
    obtain ⟨e, known, mine⟩ := broke
    cases known
    exact .broke (every e mine)

omit every in
theorem Hosted.get_bind {α : Type} {g : ReadArchive → Op Error ReadArchive α}
    (blind : ∀ a, g (quietly a) = g a) (each : ∀ a, Trails own Hosted (g a) (g a)) :
    Trails own Hosted (get >>= g) (get >>= g) := by
  rintro a _ rfl
  rw [bind_of_ok (get_run a), bind_of_ok (get_run (quietly a)), blind]
  exact each a a (quietly a) rfl

omit every in
theorem onPlan_trails {α : Type} {x : Op Error Faults α} (trails : Trails own Sound x x) :
    Trails own Hosted (onPlan x) (onPlan x) := by
  refine trails.zoom (fun a b hosted => ?_) fun plan plan' a b hosted sound => ?_
  · rw [hosted]
    rfl
  · rw [hosted, sound]
    rfl

omit every in
theorem Hosted.modify {f : ReadArchive → ReadArchive} (blind : ∀ a, f (quietly a) = quietly (f a)) :
    Trails own Hosted (modify f : Op Error ReadArchive PUnit) (modify f) := by
  refine (Mirrors.modify fun a b hosted => ?_).trails
  rw [hosted]
  exact blind a

omit every in
theorem decryptTable_trails (a : ReadArchive) (size : Nat) (raw : Bytes) (seed : Option UInt32) :
    Trails own Hosted (decryptTable a size raw seed) (decryptTable a size raw seed) := by
  unfold decryptTable
  cases seed.orElse fun _ => Crypto.deriveBlockTableSeed raw a.blockSize with
  | none => exact Trails.throw _
  | some seed => exact (Trails.failIf _ _).bind fun _ => Trails.pure _

theorem loadTable_trails (number size count : Nat) (seed : Option UInt32) :
    Trails own Hosted (loadTable number size count seed) (loadTable number size count seed) := by
  refine Hosted.get_bind (fun _ => rfl) fun a => (Trails.failIf _ _).bind fun _ => ?_
  refine (onPlan_trails (request_trails (every _ (by decide)))).bind fun _ => ?_
  refine (onPlan_trails (sourceReadAt_trails every _ _ _)).bind fun raw => Trails.bind ?_ fun _ => ?_
  · split
    · exact Hosted.modify fun _ => rfl
    · exact Trails.pure _
  refine Hosted.get_bind (fun _ => rfl) fun b => Trails.bind ?_ fun loaded => ?_
  · split
    · exact decryptTable_trails _ _ _ _
    · exact Trails.pure _
  exact (Trails.failIf _ _).bind fun _ => (Trails.failIf _ _).bind fun _ => Trails.pure _

theorem detectSeed_trails (number count : Nat) (offsets : Offsets) :
    Trails own Hosted (detectSeed number count offsets) (detectSeed number count offsets) := by
  refine Hosted.get_bind (fun _ => rfl) fun a => ?_
  simp only
  split
  · refine (Trails.failIf _ _).bind fun _ => (Trails.failIf _ _).bind fun _ => (Trails.failIf _ _).bind fun _ => ?_
    refine (onPlan_trails (sourceReadAt_trails every _ _ _)).bind fun first => ?_
    cases Crypto.detectFileKey first (entry a number).unpackedSize with
    | none => exact Trails.throw _
    | some seed => exact Trails.pure _
  · exact Trails.pure _

theorem loadOffsets_trails (number : Nat) (name : Option Bytes) :
    Trails own Hosted (loadOffsets number name) (loadOffsets number name) := by
  refine Hosted.get_bind (fun _ => rfl) fun a => (Trails.failIf _ _).bind fun _ => ?_
  refine (onPlan_trails (request_trails (every _ (by decide)))).bind fun _ => ?_
  refine (onPlan_trails (request_trails (every _ (by decide)))).bind fun _ => ?_
  refine Trails.bind ?_ fun offsets => (detectSeed_trails every _ _ _).bind fun _ => Trails.pure _
  split
  · exact loadTable_trails every _ _ _ _
  · exact Trails.pure _

theorem offsetsAcquire_trails (number : Nat) (name : Option Bytes) :
    Trails own Hosted (offsetsAcquire number name) (offsetsAcquire number name) := by
  refine Hosted.get_bind (fun _ => rfl) fun a => (Trails.failIf _ _).bind fun _ => ?_
  cases a.cache number with
  | none =>
    refine (loadOffsets_trails every number name).bind fun file => ?_
    exact Hosted.modify fun _ => rfl
  | some file => exact Hosted.modify fun _ => rfl

omit every in
theorem offsetsRelease_hosted (number : Nat) :
    Mirrors Hosted (offsetsRelease number) (offsetsRelease number) := by
  refine Mirrors.get_bind fun a b hosted => ?_
  subst hosted
  refine Mirrors.bind (Mirrors.failIf Iff.rfl _) fun _ => ?_
  have cached : (quietly a).cache number = a.cache number := rfl
  rw [cached]
  cases a.cache number with
  | none => exact Mirrors.throw _
  | some file =>
    refine Mirrors.modify fun a b hosted => ?_
    rw [hosted]
    rfl

omit every in
theorem holding_follows {α : Type} {x y : Op Error ReadArchive α} {number : Nat} {a b : ReadArchive}
    (follows : Follows own Hosted (x a) (y b)) : Follows own Hosted (holding number x a) (holding number y b) := by
  unfold holding
  generalize x a = p at follows ⊢
  generalize y b = q at follows ⊢
  cases follows with
  | broke mine => exact .broke mine
  | alike alike =>
    cases alike with
    | @ok a' b' r hosted => exact .alike (.ok r (offsetsRelease_hosted number a' b' hosted).final)
    | @error a' b' e hosted => exact .alike (.error e (offsetsRelease_hosted number a' b' hosted).final)

-- Whatever stops the table from being read, nobody remembers it.
omit every in
theorem sectorTableOf_trails (codecs : Codecs) (number : Nat) :
    Trails (fun _ => True) Hosted (sectorTableOf codecs number) (sectorTableOf codecs number) := by
  refine Hosted.get_bind (fun _ => rfl) fun a => ?_
  simp only
  split
  · exact Trails.pure _
  cases a.cache number with
  | none => exact Trails.throw _
  | some file =>
    refine (Trails.failIf _ _).bind fun _ => ?_
    split
    · exact Trails.pure _
    refine (Trails.failIf _ _).bind fun _ => (Trails.failIf _ _).bind fun _ => (Trails.failIf _ _).bind fun _ => (Trails.failIf _ _).bind fun _ => ?_
    refine (onPlan_trails (request_trails trivial)).bind fun _ => ?_
    refine (onPlan_trails (sourceReadAt_trails (fun _ _ => trivial) _ _ _)).bind fun packed => ?_
    rintro b _ rfl
    rw [bind_of_ok (get_run b), bind_of_ok (get_run (quietly b)), bind_of_ok (modify_run _ _),
      bind_of_ok (modify_run _ _)]
    by_cases failed : (Compression.decompressBlock codecs (decide (b.plan 0 = none)) packed
        (Bytes.zeros (countFileBlocks a number * 4)) (UInt32.ofNat (countFileBlocks a number * 4))
        Flag.compressMulti a.header.version.toUInt32).status < 0
    · rw [bind_of_error (failIf_true (.inl failed) _ _)]
      exact .broke trivial
    · rw [← Compression.decompressBlock_granted (Int32.not_lt.mp failed)]
      exact ((Trails.failIf _ _).bind fun _ => Trails.pure _) _ _ rfl

omit every in
theorem sectorChecksums_trails (codecs : Codecs) (number : Nat) :
    Trails (fun _ => True) Hosted (sectorChecksums codecs number) (sectorChecksums codecs number) :=
  (offsetsAcquire_trails (fun _ _ => trivial) number none).bind fun _ a b hosted =>
    holding_follows (sectorTableOf_trails codecs number a b hosted)

end hosted

def HostedWindow (w v : Window) : Prop := v = { w with plan := Faults.healthy }

section window

theorem readDirect_trails (source : File) (offset size : Nat) :
    Trails (· ≠ Error.format) HostedWindow (readDirect source offset size) (readDirect source offset size) := by
  rintro w _ rfl
  obtain ⟨quiet, outcome⟩ := fetch_trails source offset size w.plan
  unfold readDirect
  simp only
  generalize fetch source offset size w.plan = p at outcome ⊢
  generalize fetch source offset size Faults.healthy = q at quiet outcome ⊢
  obtain ⟨⟨stored, error⟩, rest⟩ := p
  obtain ⟨⟨stored', error'⟩, rest'⟩ := q
  cases outcome with
  | inl same =>
    cases same
    cases quiet
    cases error with
    | none => exact .alike (.ok stored rfl)
    | some e => exact .alike (.error e rfl)
  | inr broke =>
    obtain ⟨e, known, mine⟩ := broke
    cases known
    exact .broke mine

theorem windowPlan_trails {α : Type} {x : Op Error Faults α} (trails : Trails (· ≠ Error.format) Sound x x) :
    Trails (· ≠ Error.format) HostedWindow (windowPlan x) (windowPlan x) := by
  refine trails.zoom (fun w v hosted => ?_) fun plan plan' w v hosted sound => ?_
  · rw [hosted]
    rfl
  · rw [hosted, sound]
    rfl

theorem readPacked_trails (a : ReadArchive) (number block : Nat) (file : FileCache) (size : Nat) :
    Trails (· ≠ Error.format) HostedWindow (readPacked a number block file size)
      (readPacked a number block file size) := by
  refine (windowPlan_trails (sourceReadAt_trails (fun _ => id) _ _ _)).bind fun packed => ?_
  split
  · cases file.seed with
    | none => exact Trails.throw _
    | some seed => exact Trails.pure _
  · exact Trails.pure _

theorem decodeInto_trails (codecs : Codecs) (packed : Bytes) (size : Nat) (method version : UInt32) :
    Trails (· ≠ Error.format) HostedWindow (decodeInto codecs packed size method version)
      (decodeInto codecs packed size method version) := by
  rintro w _ rfl
  unfold decodeInto
  simp only [bind_run, granted, get_run, set_run]
  by_cases failed : (Compression.decompressBlock codecs (decide (w.plan 0 = none)) packed w.buffer
      (UInt32.ofNat size) method version).status < 0
  · rw [failIf_true failed]
    exact .broke (by decide)
  · have given := Compression.decompressBlock_granted (Int32.not_lt.mp failed)
    simp only [Faults.healthy_next, decide_true, given, failIf_false failed]
    exact .alike (.ok _ rfl)

theorem unpackBlock_trails (codecs : Codecs) (flags version : UInt32) (packed : Bytes) (size : Nat) :
    Trails (· ≠ Error.format) HostedWindow (unpackBlock codecs flags version packed size)
      (unpackBlock codecs flags version packed size) := by
  unfold unpackBlock
  refine Trails.bind ?_ fun _ => Trails.bind ?_ fun _ => (Trails.failIf _ _).bind fun _ => ?_
  all_goals
    split
    · exact decodeInto_trails _ _ _ _ _
    · exact Trails.pure _

theorem blockReadAcquired_trails (codecs : Codecs) {a : ReadArchive} {number block : Nat} {checksum checksum' : Option UInt32}
    (same : ∀ packed, packedBlock a number block = some packed →
      mismatched checksum packed = mismatched checksum' packed) :
    Trails (· ≠ Error.format) HostedWindow (blockReadAcquired codecs a number block checksum)
      (blockReadAcquired codecs a number block checksum') := by
  rintro w _ rfl
  unfold blockReadAcquired
  refine Follows.failIf_bind rfl fun member => Follows.failIf_bind rfl fun inside => ?_
  cases cached : a.cache number with
  | none => exact .alike (.error _ rfl)
  | some file =>
    simp only
    refine Follows.failIf_bind rfl fun count => ?_
    rw [bind_of_ok (get_run w), bind_of_ok (get_run _)]
    refine Follows.failIf_bind rfl fun room => Follows.failIf_bind rfl fun order => ?_
    refine Follows.failIf_bind rfl fun range => ?_
    have valid : packedRange a number block file := by
      rw [not_or] at order
      exact ⟨Nat.not_le.mp member, Nat.not_le.mp inside, Nat.not_le.mp count,
        UInt32.not_lt.mp order.1, UInt32.not_lt.mp order.2, not_not.mp range⟩
    refine Follows.bind ?_ fun packed w' v' run _ hosted => ?_
    · split
      · exact readDirect_trails _ _ _ w _ rfl
      · have asked : Trails (· ≠ Error.format) Sound (request Error.malloc) (request Error.malloc) :=
          request_trails (by decide)
        exact ((windowPlan_trails asked).bind fun _ => readPacked_trails _ _ _ _ _) w _ rfl
    · have alike := same packed (packedBlock_of_read cached valid run)
      rw [bind_of_ok (modify_run _ _), bind_of_ok (modify_run _ _), bind_of_ok (modify_run _ _),
        bind_of_ok (modify_run _ _), noteLossy_eq, noteLossy_eq, noteMismatch_eq, noteMismatch_eq, alike]
      refine unpackBlock_trails _ _ _ _ _ _ _ ?_
      rw [hosted]
      rfl

end window

def HostedAt (c a b : ReadArchive) : Prop := b = c ∧ quietly a = c

theorem readBlock_trails (codecs : Codecs) {c : ReadArchive} {number : Nat} {checksums checksums' : Option (Nat → UInt32)}
    (same : ∀ i packed, packedBlock c number i = some packed →
      mismatched (checksums.map (· i)) packed = mismatched (checksums'.map (· i)) packed) (s : ReadState) (i : Nat) :
    Trails (· ≠ Error.format) (HostedAt c) (readBlock codecs number checksums i s)
      (readBlock codecs number checksums' i s) := by
  rintro a _ ⟨rfl, quiet⟩
  subst quiet
  have follows := blockReadAcquired_trails codecs (a := a) (same i)
    { plan := a.plan, buffer := (s.buffer.drop s.total).take (unpackedBlockSize a number i)
      mismatch := s.mismatch, lossy := s.lossy } _ rfl
  unfold readBlock
  simp only
  have quiet : blockReadAcquired codecs (quietly a) number i (checksums'.map (· i))
      { plan := (quietly a).plan
        buffer := (s.buffer.drop s.total).take (unpackedBlockSize (quietly a) number i)
        mismatch := s.mismatch, lossy := s.lossy } =
      blockReadAcquired codecs a number i (checksums'.map (· i))
        { plan := Faults.healthy, buffer := (s.buffer.drop s.total).take (unpackedBlockSize a number i)
          mismatch := s.mismatch, lossy := s.lossy } := rfl
  rw [quiet]
  generalize blockReadAcquired codecs a number i (checksums.map (· i)) _ = p at follows ⊢
  generalize blockReadAcquired codecs a number i (checksums'.map (· i)) _ = q at follows ⊢
  cases follows with
  | broke mine => exact .broke mine
  | alike alike =>
    cases alike with
    | ok status hosted =>
      rw [hosted]
      exact .alike (.ok _ ⟨rfl, rfl⟩)
    | error e hosted =>
      rw [hosted]
      exact .alike (.error e ⟨rfl, rfl⟩)

def SectorsMatch (codecs : Codecs) (c : ReadArchive) (number : Nat) : Prop :=
  ∀ table, verdict (sectorChecksums codecs number c) = .ok (some table) →
    ∀ i packed, packedBlock c number i = some packed → mismatched (some (table i)) packed = false

theorem holding_plan {α : Type} {x : Op Error ReadArchive α} (only : Keeps OnlyPlan x) {a : ReadArchive}
    {number : Nat} {file : FileCache} (held : Held a number file) :
    ∃ plan, final ((offsetsAcquire number none >>= fun _ => holding number x) a) = { a with plan } := by
  rw [bind_of_ok (offsetsAcquire_shared held)]
  obtain ⟨plan, kept, -⟩ := only (shared number file a)
  have released := offsetsRelease_shared (a := { a with plan }) ⟨held.member, held.cached, held.counted⟩
  refine ⟨plan, ?_⟩
  unfold holding
  cases run : x (shared number file a) with
  | ok r b =>
    rw [run] at kept
    change b = shared number file { a with plan } at kept
    rw [kept]
    exact congrArg final released
  | error e b =>
    rw [run] at kept
    change b = shared number file { a with plan } at kept
    rw [kept]
    exact congrArg final released

theorem sums_trail {codecs : Codecs} {c : ReadArchive} {number : Nat} {file : FileCache} (held : Held c number file)
    (sealed : SectorsMatch codecs (quietly c) number) :
    ∃ checksums checksums' plan,
      attempt (sectorChecksums codecs number) c = .ok checksums { c with plan } ∧
      attempt (sectorChecksums codecs number) (quietly c) = .ok checksums' (quietly c) ∧
      ∀ i packed, packedBlock (quietly c) number i = some packed →
        mismatched (checksums.join.map (· i)) packed = mismatched (checksums'.join.map (· i)) packed := by
  obtain ⟨plan, here⟩ := holding_plan (sectorTableOf_only codecs number) held
  have there : final (sectorChecksums codecs number (quietly c)) = quietly c :=
    sectorChecksums_still (a := quietly c) ⟨held.member, held.cached, held.counted⟩ rfl
  have follows := sectorChecksums_trails codecs number c (quietly c) rfl
  change final (sectorChecksums codecs number c) = _ at here
  unfold attempt
  unfold SectorsMatch at sealed
  generalize sectorChecksums codecs number c = p at here follows ⊢
  generalize sectorChecksums codecs number (quietly c) = q at there follows sealed ⊢
  cases follows with
  | @broke e s _ _ =>
    change s = _ at here
    subst here
    cases q with
    | error e' t =>
      change t = _ at there
      subst there
      exact ⟨none, none, plan, rfl, rfl, fun _ _ _ => rfl⟩
    | ok found t =>
      change t = _ at there
      subst there
      refine ⟨none, some found, plan, rfl, rfl, fun i packed stored => ?_⟩
      cases found with
      | none => rfl
      | some table => exact (sealed table rfl i packed stored).symm
  | alike alike =>
    cases alike with
    | @ok s t found hosted =>
      change s = _ at here
      change t = _ at there
      subst here there
      exact ⟨some found, some found, plan, rfl, rfl, fun _ _ _ => rfl⟩
    | @error s t e hosted =>
      change s = _ at here
      change t = _ at there
      subst here there
      exact ⟨none, none, plan, rfl, rfl, fun _ _ _ => rfl⟩

theorem readMember_follows {codecs : Codecs} {a : ReadArchive} {number : Nat} {file : FileCache}
    (held : Held a number file) (spare : file.openCount ≠ 0xFFFFFFFF)
    (sealed : SectorsMatch codecs (quietly (shared number file a)) number) (buffer : Bytes) :
    Follows (· ≠ Error.format) Hosted (readMember codecs number buffer a)
      (readMember codecs number buffer (quietly a)) := by
  have held' : Held (shared number file a) number { file with openCount := file.openCount + 1 } :=
    ⟨held.member, by simp only [shared, storeCache, if_true], openCount_succ spare⟩
  obtain ⟨checksums, checksums', plan, here, there, same⟩ := sums_trail held' sealed
  have quiet : offsetsAcquire number none (quietly a) = .ok () (quietly (shared number file a)) :=
    offsetsAcquire_shared (a := quietly a) ⟨held.member, held.cached, held.counted⟩
  unfold readMember
  rw [bind_of_ok (get_run a), bind_of_ok (get_run (quietly a))]
  refine Follows.failIf_bind rfl fun _ => Follows.failIf_bind rfl fun _ => ?_
  rw [bind_of_ok (offsetsAcquire_shared held), bind_of_ok quiet]
  refine Follows.bind (holding_follows ?_) fun s b b' _ _ hosted => ?_
  · rw [bind_of_ok here, bind_of_ok there]
    have read : Trails (· ≠ Error.format) (HostedAt (quietly (shared number file a))) _ _ :=
      (Trails.foldlM (fun s i => readBlock_trails codecs same s i) (List.range (countFileBlocks a number))
        { buffer, total := 0, mismatch := false, lossy := false }).bind fun s =>
          (Trails.failIf (s.total ≠ (entry a number).unpackedSize.toNat) .read).bind fun _ => Trails.pure s
    refine (read { shared number file a with plan } (quietly (shared number file a)) ⟨rfl, rfl⟩).mono ?_
    rintro s t ⟨rfl, quiet⟩
    exact quiet.symm
  · exact ((Trails.failIf _ _).bind fun _ => Trails.pure _) b b' hosted

theorem quietly_same (a : ReadArchive) : SameArchive a (quietly a) :=
  ⟨rfl, rfl, rfl, rfl, rfl, rfl, rfl, rfl, rfl, rfl, fun _ => rfl⟩

theorem verifyData_trails (e : Error) (number : Nat) (data : Bytes) :
    Trails (· ≠ Error.format) Hosted (verifyData (throw e) number data) (verifyData (throw e) number data) := by
  refine Hosted.get_bind (fun a => ?_) fun a => (Trails.failIf _ _).bind fun _ => ?_
  · simp only [(quietly_same a).isMember_eq]
    rfl
  split
  · exact Trails.pure _
  · refine (Mirrors.attempt (Mirrors.throw e)).trails.bind fun view => ?_
    cases view with
    | none => exact Trails.pure _
    | some view => exact Trails.failIf _ _

def SealedMember (codecs : Codecs) (a : ReadArchive) (number : Nat) : Prop :=
  ∀ b c, offsetsAcquire number (some attributesName) a = .ok () b → offsetsAcquire number none b = .ok () c →
    SectorsMatch codecs c number

theorem offsetsAcquire_first {a b : ReadArchive} {number : Nat} {name : Option Bytes} (idle : a.cache number = none)
    (run : offsetsAcquire number name a = .ok () b) : ∃ file, Held b number file ∧ file.openCount = 1 := by
  obtain ⟨file, held⟩ := offsetsAcquire_held (Spare.of_none idle) run
  refine ⟨file, held, ?_⟩
  unfold offsetsAcquire at run
  rw [bind_of_ok (get_run a)] at run
  obtain ⟨-, run⟩ := failIf_bind_ok.mp run
  rw [idle] at run
  obtain ⟨loaded, c, loads, run⟩ := bind_ok.mp run
  cases run
  have cached := held.cached
  simp only [storeCache, if_true, Option.some.injEq] at cached
  rw [← cached]
  exact loadOffsets_openCount loads

theorem parseAttributes_follows {codecs : Codecs} {a : ReadArchive} {number : Nat} (idle : a.cache number = none)
    (sealed : SealedMember codecs (quietly a) number) (size : Nat) :
    Follows (· ≠ Error.format) Hosted (parseAttributes codecs number size a)
      (parseAttributes codecs number size (quietly a)) := by
  unfold parseAttributes
  refine Follows.bind (offsetsAcquire_trails (fun _ => id) number _ a _ rfl) fun _ b b' run run' hosted => ?_
  subst hosted
  obtain ⟨file, held, once⟩ := offsetsAcquire_first idle run
  have again : offsetsAcquire number none (quietly b) = .ok () (quietly (shared number file b)) :=
    offsetsAcquire_shared (a := quietly b) ⟨held.member, held.cached, held.counted⟩
  have matching := sealed _ _ run' again
  refine Follows.bind (holding_follows ?_) fun data c c' _ _ hosted => ?_
  · unfold fileReadWith
    refine (readMember_follows held (by rw [once]; decide) matching _).bind fun s d d' _ _ hosted => ?_
    refine (Trails.bind ?_ fun _ => Trails.pure _) d d' hosted
    split
    · exact Trails.pure _
    · exact verifyData_trails _ _ _
  · refine ((Trails.failIf _ _).bind fun _ => Hosted.get_bind (fun _ => rfl) fun _ => ?_) c c' hosted
    exact (Mirrors.fromExcept _).trails

end Reading

end LibMpq
