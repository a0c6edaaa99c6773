import LibMpq.ReaderCalls
import LibMpq.ReaderHost

set_option autoImplicit false

namespace LibMpq

open Effect Bits

namespace Reading

structure Kept (a b : ReadArchive) : Prop extends SameArchive a b where
  entries : ∀ j, b.block j = a.block j ∨
    ∃ n, a.blockTableIndices n = j ∧ Suspect a n ∧ b.block j = lock (a.block j)

theorem Kept.learns {a b : ReadArchive} (kept : Kept a b) {n : Nat}
    (own : b.block (a.blockTableIndices n) = a.block (a.blockTableIndices n)) {c : ReadArchive}
    (suspect : Suspect b n) (locked : c.block (a.blockTableIndices n) = lock (b.block (a.blockTableIndices n))) :
    Suspect a n ∧ c.block (a.blockTableIndices n) = lock (a.block (a.blockTableIndices n)) := by
  have learns : Learns n a b := .inl own
  exact ⟨(learns.suspect_iff kept.toSameArchive).mp suspect, by rw [locked, own]⟩

instance : Std.Refl Kept := ⟨fun a => ⟨.refl a, fun _ => .inl rfl⟩⟩

instance : IsTrans ReadArchive Kept where
  trans a b c first second := by
    refine ⟨first.toSameArchive.trans second.toSameArchive, fun j => ?_⟩
    rcases second.entries j with same | ⟨n, place, suspect, locked⟩
    · rw [same]
      exact first.entries j
    rw [first.indices] at place
    subst place
    rcases first.entries (a.blockTableIndices n) with same | ⟨m, place, suspect', locked'⟩
    · obtain ⟨known, now⟩ := first.learns same suspect locked
      exact .inr ⟨n, rfl, known, now⟩
    · exact .inr ⟨m, place, suspect', by rw [locked, locked', lock_lock]⟩

theorem Spares.kept {n : Nat} {a b : ReadArchive} (spares : Spares n a b) : Kept a b := by
  refine ⟨spares.toSameArchive, fun j => ?_⟩
  by_cases own : j = a.blockTableIndices n
  · rcases spares.own with same | ⟨locked, suspect⟩
    · exact .inl (own ▸ same)
    · exact .inr ⟨n, own.symm, suspect, own ▸ locked⟩
  · exact .inl (spares.entries j own)

theorem framed_of {R : ReadArchive → ReadArchive → Prop} [IsTrans ReadArchive R]
    (plan : ∀ (a : ReadArchive) {plan : Faults}, Faults.Steady a.plan plan → R a { a with plan })
    (spares : ∀ {n : Nat} {a b : ReadArchive}, Spares n a b → R a b) : Framed fun _ => R := by
  have acquire : ∀ n name, Keeps R (offsetsAcquire n name) := fun n name =>
    (offsetsAcquire_spares name).mono fun _ _ => spares
  have release : ∀ n, Keeps R (offsetsRelease n) := fun n => offsetsRelease_spares.mono fun _ _ => spares
  refine ⟨fun _ _ kept => kept, fun {d} a {after} => plan a, fun {α d x} number name keeps => ?_,
    fun {α d x} number name keeps => ?_⟩
  · refine Keeps.bind (acquire number name) fun _ b => ?_
    have kept := keeps b
    unfold holding
    cases run : x b with
    | ok r c =>
      rw [run] at kept
      exact trans_of R kept (release number c)
    | error e c =>
      rw [run] at kept
      exact trans_of R kept (release number c)
  · refine Keeps.bind (acquire number name) fun _ b => ?_
    have kept := keeps b
    unfold releasing
    cases run : x b with
    | error e c =>
      rw [run] at kept
      exact trans_of R kept (release number c)
    | ok r c =>
      rw [run] at kept
      have back := trans_of R kept (release number c)
      change R b (final ((offsetsRelease number >>= fun _ => pure r) c))
      rw [bind_run]
      cases released : offsetsRelease number c with
      | ok _ d =>
        rw [released] at back
        exact back
      | error e d =>
        rw [released] at back
        exact back

theorem kept_of_same {a b : ReadArchive} (same : SameArchive a b) (block : b.block = a.block) : Kept a b :=
  ⟨same, fun j => .inl (by rw [block])⟩

theorem kept_remembering : Remembering fun _ => Kept where
  toFramed := framed_of (fun _ {_} _ => kept_of_same ⟨rfl, rfl, rfl, rfl, rfl, rfl, rfl, rfl, rfl, rfl, fun _ => rfl⟩ rfl)
    Spares.kept
  attributes _ _ := kept_of_same ⟨rfl, rfl, rfl, rfl, rfl, rfl, rfl, rfl, rfl, rfl, fun _ => rfl⟩ rfl
  attributesError _ _ := kept_of_same ⟨rfl, rfl, rfl, rfl, rfl, rfl, rfl, rfl, rfl, rfl, fun _ => rfl⟩ rfl

theorem steady_remembering : Remembering fun _ => Streaming.SteadyHandle where
  toFramed := framed_of (fun _ {_} steady => steady) Spares.steady
  attributes _ _ healthy := healthy
  attributesError _ _ healthy := healthy

theorem Session.step_kept (codecs : Codecs) (s : Session) (call : Call) :
    Kept s.archive (s.step codecs call).archive := by
  have kept : ∀ result : EStateM.Result Error ReadArchive Stream, Kept s.archive (final result) →
      Kept s.archive (s.opened result).archive := by
    intro result kept
    cases result <;> exact kept
  cases call with
  | archive call => exact call.run_framed codecs kept_remembering s.archive
  | «open» n => exact kept _ (Streaming.streamOpen_framed codecs kept_remembering.toFramed (d := 0) n s.archive)
  | openName name =>
    exact kept _ (Streaming.streamOpenName_framed codecs kept_remembering.toFramed (d := 0) name s.archive)
  | _ => exact refl_of Kept s.archive

theorem Session.run_kept (codecs : Codecs) (calls : List Call) (s : Session) :
    Kept s.archive (s.run codecs calls).archive := by
  induction calls generalizing s with
  | nil => exact refl_of Kept s.archive
  | cons call rest ih => exact trans_of Kept (s.step_kept codecs call) (ih _)

/-- Every member whose offset table looks encrypted has the encrypted bit. -/
def Candid (a : ReadArchive) : Prop := ∀ n, Suspect a n → has (entry a n).flags Flag.encrypted = true

theorem lock_of_encrypted {e : BlockEntry} (encrypted : has e.flags Flag.encrypted = true) : lock e = e := by
  have bit : e.flags ||| Flag.encrypted = e.flags := 
    Single.or_eq ⟨16, rfl⟩ encrypted
  rw [lock, bit]

theorem Kept.block_eq {a b : ReadArchive} (kept : Kept a b) (candid : Candid a) : b.block = a.block := by
  funext j
  rcases kept.entries j with same | ⟨n, rfl, suspect, locked⟩
  · exact same
  · rw [locked]
    exact lock_of_encrypted (candid n suspect)

def SameMemo (a b : ReadArchive) : Prop :=
  b.attributes = a.attributes ∧ b.attributesError = a.attributesError

structure Resting (a : ReadArchive) : Prop where
  candid : Candid a
  quiet : a.plan = Faults.healthy
  idle : a.cache = fun _ => none

def Leaves (d : Nat) (a b : ReadArchive) : Prop :=
  Kept a b ∧ Balanced d a b ∧ Streaming.SteadyHandle a b ∧ SameMemo a b

instance (d : Nat) : Std.Refl (Leaves d) :=
  ⟨fun a => ⟨refl_of Kept a, refl_of (Balanced d) a, fun healthy => healthy, rfl, rfl⟩⟩

instance (d : Nat) : IsTrans ReadArchive (Leaves d) where
  trans _ _ _ := fun ⟨kept, balanced, steady, memo⟩ ⟨kept', balanced', steady', memo'⟩ =>
    ⟨trans_of Kept kept kept', trans_of (Balanced d) balanced balanced', steady' ∘ steady,
      memo'.1.trans memo.1, memo'.2.trans memo.2⟩

instance : IsTrans ReadArchive SameMemo where
  trans _ _ _ := fun first second => ⟨second.1.trans first.1, second.2.trans first.2⟩

theorem memo_framed : Framed fun _ => SameMemo :=
  framed_of (fun _ {_} _ => ⟨rfl, rfl⟩) fun spares => ⟨spares.attributes, spares.attributesError⟩

theorem leaves_framed : Framed Leaves where
  deeper a b := fun ⟨kept, balanced, others⟩ => ⟨kept, balanced_remembering.deeper a b balanced, others⟩
  plan a _ steady :=
    ⟨kept_remembering.plan (d := 0) a steady, balanced_remembering.plan a steady, steady, rfl, rfl⟩
  holding number name keeps a :=
    ⟨kept_remembering.holding (d := 0) number name (keeps.mono fun _ _ leaves => leaves.1) a,
      balanced_remembering.holding number name (keeps.mono fun _ _ leaves => leaves.2.1) a,
      steady_remembering.holding (d := 0) number name (keeps.mono fun _ _ leaves => leaves.2.2.1) a,
      memo_framed.holding (d := 0) number name (keeps.mono fun _ _ leaves => leaves.2.2.2) a⟩
  releasing number name keeps a :=
    ⟨kept_remembering.releasing (d := 0) number name (keeps.mono fun _ _ leaves => leaves.1) a,
      balanced_remembering.releasing number name (keeps.mono fun _ _ leaves => leaves.2.1) a,
      steady_remembering.releasing (d := 0) number name (keeps.mono fun _ _ leaves => leaves.2.2.1) a,
      memo_framed.releasing (d := 0) number name (keeps.mono fun _ _ leaves => leaves.2.2.2) a⟩

theorem Balanced.idle {d : Nat} {a b : ReadArchive} (balanced : Balanced d a b) (shallow : d ≤ 3)
    (idle : a.cache = fun _ => none) : b.cache = fun _ => none := by
  have room : Room (fun _ => 0) d := Room.of_le (fun _ => by decide) shallow
  have counted := balanced.2 _ room (Streaming.counted_idle idle)
  funext n
  have live := (counted.live n).not.mpr (Nat.lt_irrefl 0)
  exact Option.not_isSome_iff_eq_none.mp live

theorem Leaves.same {d : Nat} {a b : ReadArchive} (leaves : Leaves d a b) (shallow : d ≤ 3) (candid : Candid a)
    (idle : a.cache = fun _ => none) : b = { a with plan := b.plan } := by
  obtain ⟨kept, balanced, -, attributes, attributesError⟩ := leaves
  have block := kept.block_eq candid
  have cache : b.cache = a.cache := (balanced.idle shallow idle).trans idle.symm
  obtain ⟨source, archiveOffset, blockSize, header, headerEx, hash, blockEx, indices, diff, files, -⟩ :=
    kept.toSameArchive
  cases a
  cases b
  simp only at *
  subst block cache source archiveOffset blockSize header headerEx hash blockEx indices diff files
    attributes attributesError
  rfl

theorem Leaves.eq {d : Nat} {a b : ReadArchive} (leaves : Leaves d a b) (shallow : d ≤ 3) (resting : Resting a) :
    b = a := by
  have plan : b.plan = a.plan := (leaves.2.2.1 resting.quiet).trans resting.quiet.symm
  rw [leaves.same shallow resting.candid resting.idle, plan]

section twin

variable {number index : Nat}

theorem readAcquired_twin (codecs : Codecs) (block : Nat) (checksum : Option UInt32) (buffer : Bytes)
    (mismatch : Bool) :
    Mirrors (Twin number index) (readAcquired codecs number block checksum buffer mismatch)
      (readAcquired codecs number block checksum buffer mismatch) := by
  intro a b twin
  unfold readAcquired
  rw [twin.toAgree.blockReadAcquired_eq, twin.plan]
  cases blockReadAcquired codecs a number block checksum
    { plan := a.plan, buffer, mismatch, lossy := false } with
  | ok status w => exact .ok _ (twin.withPlan w.plan)
  | error e w => exact .error e (twin.withPlan w.plan)

theorem blockRead_twin (codecs : Codecs) (block : Nat) (checksum : Option UInt32) (buffer : Bytes) :
    Mirrors (Twin number index) (blockRead codecs number block checksum buffer)
      (blockRead codecs number block checksum buffer) := by
  refine Twin.get_bind (fun _ => rfl) fun a _ => Mirrors.bind (Mirrors.failIf Iff.rfl _) fun _ => ?_
  exact Mirrors.bind (offsetsAcquire_twin none) fun _ => holding_twin (readAcquired_twin codecs _ _ _ _)

theorem storedExtent_twin (block : Nat) :
    Mirrors (Twin number index) (storedExtent number block) (storedExtent number block) := by
  refine Twin.get_bind (fun _ => rfl) fun a _ => ?_
  simp only
  split
  · exact Mirrors.pure _
  split
  · refine Mirrors.bind (offsetsAcquire_twin none) fun _ => holding_twin ?_
    refine Twin.get_bind (fun _ => rfl) fun b _ => ?_
    cases b.cache number with
    | none => exact Mirrors.throw _
    | some file => exact Mirrors.bind (Mirrors.failIf Iff.rfl _) fun _ => Mirrors.pure _
  · exact Mirrors.pure _

theorem blockSizePacked_twin (block : Nat) :
    Mirrors (Twin number index) (blockSizePacked number block) (blockSizePacked number block) := by
  refine Twin.get_bind (fun _ => rfl) fun a _ => Mirrors.bind (Mirrors.failIf Iff.rfl _) fun _ => ?_
  refine Mirrors.bind (storedExtent_twin block) fun extent => Mirrors.bind (Mirrors.failIf Iff.rfl _) fun _ => ?_
  exact Mirrors.bind (Mirrors.failIf Iff.rfl _) fun _ => Mirrors.pure _

theorem methodByte_twin (block size : Nat) :
    Mirrors (Twin number index) (methodByte number block size) (methodByte number block size) := by
  refine Twin.get_bind (fun _ => rfl) fun a _ => ?_
  cases a.cache number with
  | none => exact Mirrors.throw _
  | some file =>
    refine Mirrors.bind (onPlan_twin _) fun packed => ?_
    split
    · cases file.seed with
      | none => exact Mirrors.throw _
      | some seed => exact Mirrors.pure _
    · exact Mirrors.pure _

theorem blockCompression_twin (block : Nat) :
    Mirrors (Twin number index) (blockCompression number block) (blockCompression number block) := by
  refine Mirrors.bind (blockSizePacked_twin block) fun packed => Twin.get_bind (fun _ => rfl) fun a _ => ?_
  refine Mirrors.bind (Mirrors.fromExcept _) fun unpacked => ?_
  simp only
  split
  · exact Mirrors.pure _
  refine Mirrors.bind (Mirrors.failIf Iff.rfl _) fun _ => ?_
  split
  · exact Mirrors.pure _
  · exact Mirrors.bind (offsetsAcquire_twin none) fun _ => holding_twin (methodByte_twin block _)

theorem releasing_twin {α : Type} {x : Op Error ReadArchive α} (mirrors : Mirrors (Twin number index) x x) :
    Mirrors (Twin number index) (releasing number x) (releasing number x) := by
  intro a b twin
  have alike := mirrors a b twin
  unfold releasing
  generalize x a = p at alike ⊢
  generalize x b = q at alike ⊢
  cases alike with
  | @ok s t r related => exact Mirrors.bind offsetsRelease_twin (fun _ => Mirrors.pure r) s t related
  | @error s t e related => exact .error e (offsetsRelease_twin s t related).final

theorem verifyBlock_twin (codecs : Codecs) (block : Nat) :
    Mirrors (Twin number index) (verifyBlock codecs number block) (verifyBlock codecs number block) := by
  refine Twin.get_bind (fun _ => rfl) fun a _ => Mirrors.bind (Mirrors.failIf Iff.rfl _) fun _ => ?_
  refine Mirrors.bind (Mirrors.failIf Iff.rfl _) fun _ => ?_
  refine Mirrors.bind (offsetsAcquire_twin none) fun _ => releasing_twin ?_
  refine Mirrors.bind (sectorChecksums_twin codecs) fun checksums => ?_
  cases checksums.map (· block) with
  | none => exact Mirrors.throw _
  | some stored =>
    refine Mirrors.bind (Mirrors.failIf Iff.rfl _) fun _ => Twin.get_bind (fun _ => rfl) fun b _ => ?_
    refine Mirrors.bind (Mirrors.fromExcept _) fun size => Mirrors.bind (onPlan_twin _) fun _ => ?_
    refine Mirrors.bind (blockRead_twin codecs block _ _) fun read => ?_
    exact Mirrors.bind (Mirrors.failIf Iff.rfl _) fun _ => Mirrors.pure _

theorem verifyStep_twin (codecs : Codecs) (flags : UInt32) (checksums : Option (Nat → UInt32))
    (expected : Nat) (s : VerifyState) (i : Nat) :
    Mirrors (Twin number index) (verifyStep codecs number flags checksums expected s i)
      (verifyStep codecs number flags checksums expected s i) := by
  refine Twin.get_bind (fun _ => rfl) fun a _ => Mirrors.bind (Mirrors.fromExcept _) fun size => ?_
  refine Mirrors.bind (Mirrors.failIf Iff.rfl _) fun _ => Mirrors.bind ?_ fun buffer => ?_
  · unfold growVerify
    split
    · exact Mirrors.bind (onPlan_twin _) fun _ => Mirrors.pure _
    · exact Mirrors.pure _
  · refine Mirrors.bind (readAcquired_twin codecs i _ _ _) fun read => ?_
    exact Mirrors.bind (Mirrors.failIf Iff.rfl _) fun _ => Mirrors.pure _

theorem verifyAvailable_twin (codecs : Codecs) (flags : UInt32) (row : FileAttributes) :
    Mirrors (Twin number index) (verifyAvailable codecs number flags row)
      (verifyAvailable codecs number flags row) := by
  refine Twin.get_bind (fun _ => rfl) fun a _ => ?_
  split
  · exact Mirrors.pure _
  refine Mirrors.bind (offsetsAcquire_twin none) fun _ => releasing_twin (Mirrors.bind ?_ fun checksums => ?_)
  · split
    · exact sectorChecksums_twin codecs
    · exact Mirrors.pure _
  split
  · exact Mirrors.pure _
  refine Mirrors.bind (Mirrors.foldlM (fun s i => verifyStep_twin codecs _ _ _ s i) _ _) fun s => ?_
  exact Mirrors.bind (Mirrors.failIf Iff.rfl _) fun _ => Mirrors.pure _

end twin

def withMemo (view : Option Attributes.View) (e : Option Error) (a : ReadArchive) : ReadArchive :=
  { a with attributes := view, attributesError := e }

theorem withMemo_same (view : Option Attributes.View) (e : Option Error) (a : ReadArchive) : SameArchive a (withMemo view e a) :=
  ⟨rfl, rfl, rfl, rfl, rfl, rfl, rfl, rfl, rfl, rfl, fun _ => rfl⟩

section memo

variable {view : Option Attributes.View} {e : Option Error}

theorem onPlan_memo {α : Type} (x : Op Error Faults α) : Commutes (withMemo view e) (onPlan x) :=
  Commutes.zoom x (fun _ => rfl) fun _ _ => rfl

theorem ask_memo {α : Type} {query : ReadArchive → Except Error α}
    (blind : ∀ a, query (withMemo view e a) = query a) : Commutes (withMemo view e) (ask query) :=
  Commutes.get_bind (fun a => by rw [blind]) fun _ => Commutes.fromExcept _

theorem locate_memo : Commutes (withMemo view e) locate := by
  refine Commutes.get_bind (fun _ => rfl) fun a => Commutes.bind (Commutes.fromExcept _) fun index => ?_
  refine Commutes.bind (Commutes.fromExcept _) fun extent => Commutes.bind (Commutes.failIf _ _) fun _ => ?_
  refine Commutes.bind (Commutes.failIf _ _) fun _ => Commutes.bind (Commutes.failIf _ _) fun _ => ?_
  refine Commutes.bind (Commutes.failIf _ _) fun _ => Commutes.bind (Commutes.failIf _ _) fun _ => ?_
  refine Commutes.bind (Commutes.failIf _ _) fun _ => Commutes.bind (onPlan_memo _) fun payload => ?_
  exact Commutes.bind (Commutes.failIf _ _) fun _ => Commutes.pure _

theorem strongLocate_memo : Commutes (withMemo view e) strongLocate := by
  refine Commutes.get_bind (fun _ => rfl) fun a => Commutes.bind (Commutes.fromExcept _) fun extent => ?_
  refine Commutes.bind (Commutes.failIf _ _) fun _ => Commutes.bind (Commutes.failIf _ _) fun _ => ?_
  refine Commutes.bind (onPlan_memo _) fun trailer => ?_
  exact Commutes.bind (Commutes.failIf _ _) fun _ => Commutes.pure _

theorem signatureHashRange_memo (extent : Nat) : Commutes (withMemo view e) (signatureHashRange extent) := by
  refine Commutes.get_bind (fun _ => rfl) fun a => Commutes.bind (Commutes.failIf _ _) fun _ => ?_
  refine Commutes.bind ?_ fun start => Commutes.pure _
  split
  · exact Commutes.bind (onPlan_memo _) fun front => Commutes.pure _
  · exact Commutes.pure _

theorem signatureVerify_memo (filename : Option Bytes) (flags : UInt32) (key : Bytes) :
    Commutes (withMemo view e) (signatureVerify filename flags key) := by
  unfold signatureVerify
  split
  · refine Commutes.bind (Commutes.failIf _ _) fun _ => Commutes.bind strongLocate_memo fun located => ?_
    refine Commutes.bind (signatureHashRange_memo _) fun range => Commutes.get_bind (fun _ => rfl) fun a => ?_
    simp only
    split
    · exact Commutes.pure _
    refine Commutes.bind (Commutes.fromExcept _) fun actual => ?_
    exact Commutes.bind (onPlan_memo _) fun base => Commutes.pure _
  split
  · refine Commutes.bind (Commutes.failIf _ _) fun _ => Commutes.bind locate_memo fun located => ?_
    refine Commutes.bind (signatureHashRange_memo _) fun range => Commutes.get_bind (fun _ => rfl) fun a => ?_
    refine Commutes.bind (Commutes.failIf _ _) fun _ => ?_
    exact Commutes.bind (onPlan_memo _) fun digest => Commutes.pure _
  · exact Commutes.throw _

theorem present_memo {α : Type} {x : Op Error ReadArchive α} (blind : Commutes (withMemo view e) x)
    (bit : UInt32) : Commutes (withMemo view e) (present bit x) := by
  intro a
  unfold present
  rw [blind a]
  cases x a with
  | ok r b => rfl
  | error e' b =>
    simp only [mapState]
    split <;> rfl

theorem signatureDetect_memo : Commutes (withMemo view e) signatureDetect := by
  refine Commutes.bind (present_memo locate_memo _) fun weak => ?_
  exact Commutes.bind (present_memo strongLocate_memo _) fun strong => Commutes.pure _

theorem archiveClone_memo : Commutes (withMemo view e) Streaming.archiveClone :=
  Commutes.get_bind (fun _ => rfl) fun _ => onPlan_memo _

theorem onClone_memo {α : Type} (clone : ReadArchive) (x : Op Error ReadArchive α) :
    Commutes (withMemo view e) (Streaming.onClone clone x) := by
  intro a
  unfold Streaming.onClone
  simp only [withMemo]
  cases x { clone with plan := a.plan } with
  | ok r b => rfl
  | error e' b => rfl

theorem streamOpen_memo (codecs : Codecs) (number : Nat) :
    Commutes (withMemo view e) (Streaming.streamOpen codecs number) := by
  refine Commutes.get_bind (fun _ => rfl) fun a => Commutes.bind (Commutes.failIf _ _) fun _ => ?_
  exact Commutes.bind archiveClone_memo fun clone => onClone_memo clone _

theorem streamOpenName_memo (codecs : Codecs) (name : Bytes) :
    Commutes (withMemo view e) (Streaming.streamOpenName codecs name) := by
  refine Commutes.bind archiveClone_memo fun clone => Commutes.bind (Commutes.fromExcept _) fun number => ?_
  exact onClone_memo clone _

end memo

structure Echo (codecs : Codecs) (a b : ReadArchive) : Prop where
  same : b = { a with attributes := b.attributes, attributesError := b.attributesError }
  view : ∀ v, b.attributes = some v → verdict (attributesLoad codecs a) = .ok v
  error : ∀ e, b.attributesError = some e → verdict (attributesLoad codecs a) = .error e

structure Blank (a : ReadArchive) : Prop where
  noView : a.attributes = none
  noError : a.attributesError = none

structure Fresh (a : ReadArchive) : Prop extends Resting a, Blank a

def Agrees {α : Type} (codecs : Codecs) (a : ReadArchive) (x : Op Error ReadArchive α) : Prop :=
  ∀ b, Echo codecs a b → verdict (x b) = verdict (x a) ∧ Echo codecs a (final (x b))

section agrees

variable {codecs : Codecs} {a : ReadArchive} {α β : Type}

theorem Fresh.echo (fresh : Fresh a) : Echo codecs a a where
  same := rfl
  view v known := by rw [fresh.noView] at known; cases known
  error e known := by rw [fresh.noError] at known; cases known

theorem Echo.resting {b : ReadArchive} (echo : Echo codecs a b) (fresh : Fresh a) : Resting b := by
  rw [echo.same]
  refine ⟨fun n suspect => ?_, fresh.quiet, fresh.idle⟩
  exact fresh.candid n ⟨suspect.member, suspect.serialized, suspect.fits, suspect.first⟩

theorem verdict_ok {p : EStateM.Result Error ReadArchive α} {r : α} {s : ReadArchive} {q : EStateM.Result Error ReadArchive α}
    (same : verdict p = verdict q) (run : p = .ok r s) : ∃ t, q = .ok r t := by
  subst run
  cases q with
  | ok r' t =>
    cases same
    exact ⟨t, rfl⟩
  | error e t => cases same

theorem Agrees.pure (r : α) : Agrees codecs a (pure r : Op Error ReadArchive α) := fun _ echo => ⟨rfl, echo⟩

theorem Agrees.failIf (c : Prop) [Decidable c] (e : Error) : Agrees codecs a (failIf c e) := by
  intro b echo
  by_cases fails : c
  · rw [failIf_true fails, failIf_true fails]
    exact ⟨rfl, echo⟩
  · rw [failIf_false fails, failIf_false fails]
    exact ⟨rfl, echo⟩

theorem Agrees.get_bind {g : ReadArchive → Op Error ReadArchive α}
    (blind : ∀ v e, g { a with attributes := v, attributesError := e } = g a)
    (rest : Agrees codecs a (g a)) : Agrees codecs a (get >>= g) := by
  intro b echo
  rw [bind_of_ok (get_run b), bind_of_ok (get_run a)]
  have seen : g b = g a := by
    rw [echo.same]
    exact blind _ _
  rw [seen]
  exact rest b echo

theorem Agrees.bind (fresh : Fresh a) {x : Op Error ReadArchive α} {f : α → Op Error ReadArchive β}
    (first : Agrees codecs a x) (rest : ∀ r, Agrees codecs a (f r)) : Agrees codecs a (x >>= f) := by
  intro b echo
  obtain ⟨same, after⟩ := first b echo
  obtain ⟨-, after'⟩ := first a fresh.echo
  rw [bind_run, bind_run]
  cases here : x b with
  | ok r c =>
    obtain ⟨d, there⟩ := verdict_ok same here
    rw [here] at after
    rw [there] at after' ⊢
    exact ⟨(rest r c after).1.trans (rest r d after').1.symm, (rest r c after).2⟩
  | error e c =>
    cases there : x a with
    | ok r d =>
      rw [here, there] at same
      cases same
    | error e' d =>
      rw [here, there] at same
      cases same
      rw [here] at after
      exact ⟨rfl, after⟩

theorem Agrees.attempt {x : Op Error ReadArchive α} (agrees : Agrees codecs a x) :
    Agrees codecs a (attempt x) := by
  intro b echo
  obtain ⟨same, after⟩ := agrees b echo
  unfold Effect.attempt
  cases here : x b with
  | ok r c =>
    obtain ⟨d, there⟩ := verdict_ok same here
    rw [here] at after
    rw [there]
    exact ⟨rfl, after⟩
  | error e c =>
    cases there : x a with
    | ok r d =>
      rw [here, there] at same
      cases same
    | error e' d =>
      rw [here] at after
      exact ⟨rfl, after⟩

theorem Echo.twin {b : ReadArchive} (echo : Echo codecs a b) (n : Nat) :
    Twin n (a.blockTableIndices n) a b := by
  rw [echo.same]
  exact ⟨⟨⟨rfl, rfl, rfl, rfl, rfl, rfl, rfl, rfl, rfl, rfl, fun _ => rfl⟩, rfl, rfl⟩, rfl, rfl⟩

theorem agrees_of_leaves (fresh : Fresh a) {d : Nat} (shallow : d ≤ 3) {x : Op Error ReadArchive α}
    (leaves : Keeps (Leaves d) x) (same : ∀ b, Echo codecs a b → verdict (x b) = verdict (x a)) :
    Agrees codecs a x := by
  intro b echo
  rw [(leaves b).eq shallow (echo.resting fresh)]
  exact ⟨same b echo, echo⟩

theorem agrees_of_twin (fresh : Fresh a) {d : Nat} (shallow : d ≤ 3) {x : Op Error ReadArchive α}
    (leaves : Keeps (Leaves d) x) (n : Nat) (mirrors : Mirrors (Twin n (a.blockTableIndices n)) x x) :
    Agrees codecs a x := by
  refine agrees_of_leaves fresh shallow leaves fun b echo => ?_
  have alike := mirrors a b (echo.twin n)
  generalize x a = p at alike ⊢
  generalize x b = q at alike ⊢
  cases alike with
  | ok r _ => rfl
  | error e _ => rfl

theorem agrees_of_memo (fresh : Fresh a) {x : Op Error ReadArchive α} (leaves : Keeps (Leaves 0) x)
    (blind : ∀ view e, Commutes (withMemo view e) x) : Agrees codecs a x := by
  refine agrees_of_leaves fresh (Nat.zero_le 3) leaves fun b echo => ?_
  have same : x b = mapState (withMemo b.attributes b.attributesError) (x a) := by
    rw [← blind b.attributes b.attributesError a]
    exact congrArg x echo.same
  rw [same]
  cases x a with
  | ok r c => rfl
  | error e c => rfl

end agrees

-- Too small or too large for the rows of this block table.
abbrev OddSize (a : ReadArchive) (n : Nat) : Prop :=
  (entry a n).unpackedSize.toNat < 8 ∨ (entry a n).unpackedSize.toNat > 8 + a.header.blockTableCount.toNat * 32

def remembered : EStateM.Result Error ReadArchive Attributes.View → EStateM.Result Error ReadArchive Attributes.View
  | .ok view a => .ok view { a with attributes := some view }
  | .error e a => .error e (if e = .format then { a with attributesError := some e } else a)

section load

variable {codecs : Codecs} {a : ReadArchive}

theorem attributesLoad_view {view : Attributes.View} (known : a.attributes = some view) :
    attributesLoad codecs a = .ok view a := by
  unfold attributesLoad
  rw [bind_of_ok (get_run a), known]
  rfl

theorem attributesLoad_error {e : Error} (noView : a.attributes = none) (known : a.attributesError = some e) :
    attributesLoad codecs a = .error e a := by
  unfold attributesLoad
  rw [bind_of_ok (get_run a), noView, known]
  rfl

variable (blank : Blank a)
include blank

theorem Blank.missing {e : Error} (place : fileNumber a attributesName = .error e) :
    attributesLoad codecs a = rememberError e a := by
  unfold attributesLoad
  rw [bind_of_ok (get_run a), blank.noView, blank.noError, place]

variable {n : Nat} (place : fileNumber a attributesName = .ok n)
include place

theorem Blank.odd (odd : OddSize a n) : attributesLoad codecs a = rememberError .format a := by
  unfold attributesLoad
  rw [bind_of_ok (get_run a), blank.noView, blank.noError, place]
  simp only
  rw [if_pos odd]

variable (even : ¬ OddSize a n)
include even

theorem Blank.refused {e : Error} {c : ReadArchive} (refused : onPlan (request .malloc) a = .error e c) :
    attributesLoad codecs a = .error e c := by
  unfold attributesLoad
  rw [bind_of_ok (get_run a), blank.noView, blank.noError, place]
  simp only
  rw [if_neg even, bind_of_error refused]

theorem Blank.parsed {c : ReadArchive} (granted : onPlan (request .malloc) a = .ok () c) :
    attributesLoad codecs a = remembered (parseAttributes codecs n (memberSize a n) c) := by
  unfold attributesLoad
  rw [bind_of_ok (get_run a), blank.noView, blank.noError, place]
  simp only
  rw [if_neg even, bind_of_ok granted, bind_of_ok (get_run c)]
  change _ = remembered (parseAttributes codecs n (entry a n).unpackedSize.toNat c)
  cases parseAttributes codecs n (entry a n).unpackedSize.toNat c <;> rfl

end load

section attributes

variable {codecs : Codecs} {a : ReadArchive} (fresh : Fresh a)
include fresh

omit fresh in
theorem quietly_of_quiet {b : ReadArchive} (quiet : b.plan = Faults.healthy) : quietly b = b := by
  cases b
  cases quiet
  rfl

theorem Echo.of_view {view : Attributes.View} (loaded : verdict (attributesLoad codecs a) = .ok view) :
    Echo codecs a { a with attributes := some view } where
  same := by rw [fresh.noError]
  view w known := by
    cases known
    exact loaded
  error e known := by
    change a.attributesError = some e at known
    rw [fresh.noError] at known
    cases known

theorem Echo.of_error {e : Error} (failed : verdict (attributesLoad codecs a) = .error e) :
    Echo codecs a { a with attributesError := some e } where
  same := by rw [fresh.noView]
  view w known := by
    change a.attributes = some w at known
    rw [fresh.noView] at known
    cases known
  error e' known := by
    cases known
    exact failed

def Recalls (codecs : Codecs) (a b : ReadArchive) : Prop := Echo codecs a (quietly b)

omit fresh in
theorem Recalls.with_plan {b : ReadArchive} (recalls : Recalls codecs a b) (plan : Faults) :
    Recalls codecs a { b with plan } := recalls

/-- The sectors of the attributes match the checksums stored for them. -/
def Sealed (codecs : Codecs) (a : ReadArchive) : Prop :=
  ∀ n, fileNumber a attributesName = .ok n → SealedMember codecs a n

-- What is so remembered before a call is so remembered after it.
def Carries (codecs : Codecs) (a b c : ReadArchive) : Prop := Recalls codecs a b → Recalls codecs a c

omit fresh in
instance : Std.Refl (Carries codecs a) := ⟨fun _ => id⟩

omit fresh in
instance : IsTrans ReadArchive (Carries codecs a) := ⟨fun _ _ _ first second => second ∘ first⟩

theorem Recalls.candid {b : ReadArchive} (recalls : Recalls codecs a b) : Candid b ∧ b.cache = fun _ => none := by
  obtain ⟨candid, -, idle⟩ := recalls.resting fresh
  exact ⟨fun n suspect => candid n ⟨suspect.member, suspect.serialized, suspect.fits, suspect.first⟩, idle⟩

theorem Leaves.recalls {d : Nat} {b c : ReadArchive} (leaves : Leaves d b c) (shallow : d ≤ 3)
    (recalls : Recalls codecs a b) : Recalls codecs a c := by
  obtain ⟨candid, idle⟩ := recalls.candid fresh
  rw [leaves.same shallow candid idle]
  exact recalls.with_plan c.plan

omit fresh in
theorem rememberError_verdict (e : Error) (b : ReadArchive) : verdict (rememberError e b) = .error e := by
  unfold rememberError
  split <;> rfl

theorem rememberError_recalls {b : ReadArchive} (same : quietly b = a) (e : Error)
    (failed : verdict (attributesLoad codecs a) = .error e) : Recalls codecs a (final (rememberError e b)) := by
  unfold rememberError
  split
  · have stored : quietly { b with attributesError := some e } = { a with attributesError := some e } := by
      rw [← same]
      rfl
    change Echo codecs a (quietly { b with attributesError := some e })
    rw [stored]
    exact Echo.of_error fresh failed
  · change Echo codecs a (quietly b)
    rw [same]
    exact fresh.echo

theorem attributesLoad_recalls (sealed : Sealed codecs a) {b : ReadArchive} (recalls : Recalls codecs a b) :
    Recalls codecs a (final (attributesLoad codecs b)) := by
  cases view : b.attributes with
  | some v =>
    rw [attributesLoad_view view]
    exact recalls
  | none =>
  cases error : b.attributesError with
  | some e =>
    rw [attributesLoad_error view error]
    exact recalls
  | none =>
  have same : quietly b = a := by
    rw [recalls.same]
    change { a with attributes := b.attributes, attributesError := b.attributesError } = a
    rw [view, error, ← fresh.noView, ← fresh.noError]
  subst same
  have blank : Blank b := ⟨view, error⟩
  have blank' : Blank (quietly b) := ⟨view, error⟩
  cases place : fileNumber b attributesName with
  | error e =>
    rw [blank.missing place]
    refine rememberError_recalls fresh rfl e ?_
    rw [blank'.missing ((quietly_same b).fileNumber_eq _ ▸ place)]
    exact rememberError_verdict e _
  | ok n =>
  have place' : fileNumber (quietly b) attributesName = .ok n := (quietly_same b).fileNumber_eq _ ▸ place
  by_cases odd : OddSize b n
  · rw [blank.odd place odd]
    refine rememberError_recalls fresh rfl .format ?_
    rw [blank'.odd place' odd]
    exact rememberError_verdict _ _
  have sound := @Blank.parsed codecs _ blank' _ place' odd _ (onPlan_healthy rfl (request_healthy _))
  obtain ⟨plan, asked, -⟩ := onPlan_only (request_steady Error.malloc) b
  cases granted : onPlan (request Error.malloc) b with
  | error e c =>
    rw [granted] at asked
    change c = _ at asked
    rw [blank.refused place odd granted, asked]
    exact recalls
  | ok u c =>
  rw [granted] at asked
  change c = _ at asked
  subst asked
  rw [blank.parsed place odd granted]
  have follows := @parseAttributes_follows codecs { b with plan } n
    (congrFun (recalls.candid fresh).2 n) (sealed n place') (memberSize b n)
  have leaves := parseAttributes_framed leaves_framed codecs n (memberSize b n) { b with plan }
  change attributesLoad codecs (quietly b) = remembered (parseAttributes codecs n (memberSize b n) (quietly b)) at sound
  change Follows _ _ _ (parseAttributes codecs n (memberSize b n) (quietly b)) at follows
  generalize parseAttributes codecs n (memberSize b n) { b with plan } = p at follows leaves ⊢
  generalize parseAttributes codecs n (memberSize b n) (quietly b) = q at follows sound
  obtain ⟨candid, idle⟩ := recalls.candid fresh
  have back : quietly (final p) = quietly b := by
    rw [leaves.same le_rfl (fun n suspect => candid n ⟨suspect.member, suspect.serialized, suspect.fits, suspect.first⟩) idle]
    rfl
  cases follows with
  | @broke e s _ mine =>
    change quietly s = _ at back
    simp only [remembered, if_neg mine, final_error]
    rw [Recalls, back]
    exact fresh.echo
  | alike alike =>
    cases alike with
    | @ok s t view hosted =>
      have loaded : quietly { s with attributes := some view } = { quietly b with attributes := some view } := by
        rw [← back]
        rfl
      change Echo codecs (quietly b) (quietly { s with attributes := some view })
      rw [loaded]
      exact Echo.of_view fresh (by rw [sound]; rfl)
    | @error s t e hosted =>
      have failed : verdict (attributesLoad codecs (quietly b)) = .error e := by
        rw [sound]
        rfl
      change Echo codecs (quietly b) (quietly (if e = .format then { s with attributesError := some e } else s))
      split
      · have stored : quietly { s with attributesError := some e } = { quietly b with attributesError := some e } := by
          rw [← back]
          rfl
        rw [stored]
        exact Echo.of_error fresh failed
      · change quietly s = _ at back
        rw [back]
        exact fresh.echo

variable (sealed : Sealed codecs a)
include sealed

theorem ArchiveCall.run_recalls (call : ArchiveCall) {b : ReadArchive}
    (recalls : Recalls codecs a b) : Recalls codecs a (final (call.run codecs b)) := by
  have shallow : call.depth ≤ 3 := Call.depth_le (.archive call)
  have load : Keeps (Carries codecs a) (attributesLoad codecs) := fun b => attributesLoad_recalls fresh sealed
  have carries : Keeps (Carries codecs a) (call.run codecs) :=
    call.run_keeps leaves_framed (fun le leaves => leaves.recalls fresh (le.trans shallow)) fun _ => load
  exact carries b recalls

theorem Session.run_recalls (calls : List Call) {s : Session}
    (recalls : Recalls codecs a s.archive) : Recalls codecs a (s.run codecs calls).archive := by
  induction calls generalizing s with
  | nil => exact recalls
  | cons call rest ih =>
    refine ih ?_
    have left : ∀ (result : EStateM.Result Error ReadArchive Stream), Recalls codecs a (final result) →
        Recalls codecs a (s.opened result).archive := by
      intro result recalls
      cases result <;> exact recalls
    cases call with
    | archive call => exact call.run_recalls fresh sealed recalls
    | «open» n => exact left _ (ArchiveCall.run_recalls fresh sealed (.streamOpen n) recalls)
    | openName name => exact left _ (ArchiveCall.run_recalls fresh sealed (.streamOpenName name) recalls)
    | _ => exact recalls

theorem attributesLoad_agrees : Agrees codecs a (attributesLoad codecs) := by
  intro b echo
  have quiet := (echo.resting fresh).quiet
  have steady : (final (attributesLoad codecs b)).plan = Faults.healthy :=
    attributesLoad_framed steady_remembering codecs b quiet
  have after : Recalls codecs a (final (attributesLoad codecs b)) :=
    attributesLoad_recalls fresh sealed (by rw [Recalls, quietly_of_quiet quiet]; exact echo)
  rw [Recalls, quietly_of_quiet steady] at after
  refine ⟨?_, after⟩
  cases view : b.attributes with
  | some v =>
    rw [attributesLoad_view view]
    exact (echo.view v view).symm
  | none =>
  cases error : b.attributesError with
  | some e =>
    rw [attributesLoad_error view error]
    exact (echo.error e error).symm
  | none =>
    have same : b = a := by
      rw [echo.same, view, error, ← fresh.noView, ← fresh.noError]
    rw [same]

theorem fileRead_agrees (n : Nat) (buffer : Bytes) : Agrees codecs a (fileRead codecs n buffer) := by
  refine Agrees.bind fresh ?_ fun s => Agrees.bind fresh ?_ fun _ => Agrees.pure _
  · exact agrees_of_twin fresh (Nat.le_succ 2) (readMember_framed leaves_framed codecs n buffer) n (readMember_twin codecs buffer)
  split
  · exact Agrees.pure _
  refine Agrees.get_bind (fun view e => ?_) (Agrees.bind fresh (Agrees.failIf _ _) fun _ => ?_)
  · have names := fun name => (withMemo_same view e a).isMember_eq name n
    simp only [withMemo] at names
    simp only [names]
    rfl
  split
  · exact Agrees.pure _
  refine Agrees.bind fresh (attributesLoad_agrees fresh sealed).attempt fun view => ?_
  cases view with
  | none => exact Agrees.pure _
  | some view => exact Agrees.failIf _ _

theorem fileAttributes_agrees (n : Nat) : Agrees codecs a (fileAttributes codecs n) := by
  refine Agrees.get_bind (fun _ _ => rfl) (Agrees.bind fresh (Agrees.failIf _ _) fun _ => ?_)
  refine Agrees.bind fresh (attributesLoad_agrees fresh sealed) fun view => ?_
  exact Agrees.get_bind (fun _ _ => rfl) (Agrees.pure _)

theorem verifyFile_agrees (n : Nat) (flags : UInt32) : Agrees codecs a (verifyFile codecs n flags) := by
  refine Agrees.get_bind (fun _ _ => rfl) (Agrees.bind fresh (Agrees.failIf _ _) fun _ => ?_)
  refine Agrees.bind fresh (Agrees.failIf _ _) fun _ => ?_
  split
  · exact Agrees.pure _
  refine Agrees.bind fresh ?_ fun row => Agrees.get_bind (fun _ _ => rfl) ?_
  · split
    · exact fileAttributes_agrees fresh sealed n
    · exact Agrees.pure _
  exact agrees_of_twin fresh (Nat.le_succ 2) (verifyAvailable_framed leaves_framed codecs n _ row) n
    (verifyAvailable_twin codecs _ row)

theorem ArchiveCall.run_agrees (call : ArchiveCall) : Agrees codecs a (call.run codecs) := by
  have member : ∀ {α : Type} {x : Op Error ReadArchive α} {d : Nat} (n : Nat), Keeps (Leaves d) x → d ≤ 3 →
      Mirrors (Twin n (a.blockTableIndices n)) x x → Agrees codecs a x := fun n leaves shallow mirrors =>
    agrees_of_twin fresh shallow leaves n mirrors
  cases call with
  | blockSizePacked n i => exact member n (blockSizePacked_framed leaves_framed n i) (by decide) (blockSizePacked_twin i)
  | blockCompression n i =>
    exact member n (blockCompression_framed leaves_framed n i) (by decide) (blockCompression_twin i)
  | blockRead n i buffer =>
    refine Agrees.bind fresh ?_ fun _ => Agrees.pure _
    exact member n (blockRead_framed leaves_framed codecs n i none buffer) (by decide)
      (blockRead_twin codecs i none buffer)
  | fileRead n buffer => exact fileRead_agrees fresh sealed n buffer
  | archiveAttributes => exact Agrees.bind fresh (attributesLoad_agrees fresh sealed) fun _ => Agrees.pure _
  | fileAttributes n => exact fileAttributes_agrees fresh sealed n
  | fileVerify n flags => exact verifyFile_agrees fresh sealed n flags
  | blockVerify n i =>
    exact member n (verifyBlock_framed leaves_framed codecs n i) (by decide) (verifyBlock_twin codecs i)
  | archiveSignatures => exact agrees_of_memo fresh (leaves_framed.only signatureDetect_only) fun _ _ => signatureDetect_memo
  | archiveVerify filename flags key =>
    exact agrees_of_memo fresh (leaves_framed.only (signatureVerify_only filename flags key)) fun _ _ =>
      signatureVerify_memo filename flags key
  | streamOpen n =>
    exact agrees_of_memo fresh (Streaming.streamOpen_framed codecs leaves_framed n) fun _ _ =>
      streamOpen_memo codecs n
  | streamOpenName name =>
    exact agrees_of_memo fresh (Streaming.streamOpenName_framed codecs leaves_framed name) fun _ _ =>
      streamOpenName_memo codecs name
  | fileNumber name =>
    exact agrees_of_memo fresh (ask_keeps _) fun view e => ask_memo fun a => (withMemo_same view e a).fileNumber_eq name
  | _ => exact agrees_of_memo fresh (ask_keeps _) fun _ _ => ask_memo fun _ => rfl

end attributes

structure SameTables (a b : ReadArchive) : Prop where
  header : b.header = a.header
  headerEx : b.headerEx = a.headerEx
  hash : b.hash = a.hash
  block : b.block = a.block
  blockEx : b.blockEx = a.blockEx
  indices : b.blockTableIndices = a.blockTableIndices
  diff : b.blockTableDiff = a.blockTableDiff
  files : b.files = a.files

theorem Kept.tables {a b : ReadArchive} (kept : Kept a b) (candid : Candid a) : SameTables a b :=
  ⟨kept.header, kept.headerEx, kept.hash, kept.block_eq candid, kept.blockEx, kept.indices, kept.diff, kept.files⟩

theorem SameTables.ofEntry_eq {a b : ReadArchive} (same : SameTables a b) {α : Type}
    (ask : ReadArchive → Nat → α) (tables : ∀ n, ask b n = ask a n) (n : Nat) :
    ofEntry ask b n = ofEntry ask a n := by
  rw [ofEntry, same.files, tables, ofEntry]

theorem SameTables.entry_eq {a b : ReadArchive} (same : SameTables a b) (n : Nat) : entry b n = entry a n := by
  rw [entry, entryIndex, same.block, same.indices, entry, entryIndex]

structure SameSizes (a b : ReadArchive) : Prop where
  packed : archiveSizePacked b = archiveSizePacked a
  unpacked : archiveSizeUnpacked b = archiveSizeUnpacked a
  flags : ∀ n, fileFlags b n = fileFlags a n
  filePacked : ∀ n, fileSizePacked b n = fileSizePacked a n
  fileUnpacked : ∀ n, fileSizeUnpacked b n = fileSizeUnpacked a n

theorem SameTables.sizes {a b : ReadArchive} (same : SameTables a b) : SameSizes a b where
  packed := by simp only [archiveSizePacked, same.files, same.entry_eq]
  unpacked := by simp only [archiveSizeUnpacked, same.files, same.entry_eq]
  flags := same.ofEntry_eq _ fun n => by rw [same.entry_eq]
  filePacked := same.ofEntry_eq _ fun n => by rw [same.entry_eq]
  fileUnpacked n := by rw [fileSizeUnpacked, same.files, same.entry_eq, fileSizeUnpacked]

theorem archiveOpen_fresh {source : File} {archiveOffset : Int} {plan : Faults} {a : ReadArchive}
    (opened : archiveOpen source archiveOffset plan = .ok a) (candid : Candid a) : Fresh (quietly a) := by
  unfold archiveOpen at opened
  cases run : openPath source archiveOffset plan with
  | error e plan =>
    rw [run] at opened
    cases opened
  | ok b plan =>
    rw [run] at opened
    cases opened
    obtain ⟨cache, -, view, error⟩ := Streaming.openPath_idle run
    refine ⟨⟨fun n suspect => ?_, rfl, cache⟩, view, error⟩
    exact candid n ⟨suspect.member, suspect.serialized, suspect.fits, suspect.first⟩

-- Where every member whose offset table looks encrypted says so, no call changes a table;
-- where the sectors of the attributes match as well, what any calls on any host left behind
-- changes no later answer.
theorem reading_keeps_tables (codecs : Codecs) (a : ReadArchive) (candid : Candid a) (streams : List Stream)
    (calls : List Call) :
    let b := (Session.run codecs ⟨a, streams⟩ calls).archive
    SameTables a b ∧ SameSizes a b ∧
      ∀ source archiveOffset plan, archiveOpen source archiveOffset plan = .ok a → Sealed codecs (quietly a) →
        ∀ call : ArchiveCall, verdict (call.run codecs (quietly b)) = verdict (call.run codecs (quietly a)) := by
  have same : SameTables a (Session.run codecs ⟨a, streams⟩ calls).archive :=
    (Session.run_kept codecs calls ⟨a, streams⟩).tables candid
  refine ⟨same, same.sizes, fun source archiveOffset plan opened sealed call => ?_⟩
  have fresh := archiveOpen_fresh opened candid
  have recalls : Recalls codecs (quietly a) (Session.run codecs ⟨a, streams⟩ calls).archive :=
    Session.run_recalls fresh sealed calls fresh.echo
  exact (call.run_agrees fresh sealed _ recalls).1

theorem SealedMember.of_plain {codecs : Codecs} {a : ReadArchive} {n : Nat} (idle : a.cache n = none)
    (quiet : a.plan = Faults.healthy) (plain : ¬ sectorized (entry a n).flags) : SealedMember codecs a n := by
  intro b c first again table found
  have spares := trans_of (Spares n) ((offsetsAcquire_spares _).ok first) ((offsetsAcquire_spares _).ok again)
  obtain ⟨named, heldOnce, once⟩ := offsetsAcquire_first idle first
  have spare : Spare b n := by
    intro file cached
    rw [heldOnce.cached, Option.some.injEq] at cached
    rw [← cached, once]
    decide
  obtain ⟨file, held⟩ := offsetsAcquire_held spare again
  rw [sectorChecksums_none held (spares.steady quiet) (.inl fun flagged => plain (spares.sectorized_iff.mp flagged))] at found
  cases found

/-- Two bytes, and the attributes that say their CRC-32. -/
def attributed : File := File.ofBytes
  (Tables.headerWire.encode
      { magic := headerMagic, headerSize := 32, archiveSize := 98, version := 0, blockSize := 0
        hashTableOffset := 50, blockTableOffset := 66, hashTableCount := 1, blockTableCount := 2 } ++
    [1, 2] ++
    Wire.le32.encode 100 ++ Wire.le32.encode attributeCrc32 ++
    Wire.le32.encode (Checksum.crc32 0 [1, 2]) ++ Wire.le32.encode 0 ++
    Crypto.encryptBlock
      (Tables.hashWire.encode
        { hashA := (fileHash attributesName).hash2, hashB := (fileHash attributesName).hash3, locale := 0
          platform := 0, blockTableIndex := 1 })
      Tables.hashTableKey ++
    Crypto.encryptBlock
      (Tables.blockWire.encode { offset := 32, packedSize := 2, unpackedSize := 2, flags := Flag.exists_ } ++
        Tables.blockWire.encode { offset := 34, packedSize := 16, unpackedSize := 16, flags := Flag.exists_ })
      Tables.blockTableKey)

-- Opening makes twelve requests; the sixteenth is the seek to the bytes of the attributes.
def seekRefused : Faults := fun n => if n = 15 then some 0 else none

def afterRefusal (a : ReadArchive) : ReadArchive :=
  (Session.run Compression.zeroRunCodecs ⟨a, []⟩
    [.archive .archiveAttributes, .archive (.fileRead 0 (Bytes.zeros 2))]).archive

theorem reading_keeps_tables_attributed :
    ∃ a, archiveOpen attributed 0 seekRefused = .ok a ∧
      succeeded (archiveAttributes Compression.zeroRunCodecs a) = false ∧ SameTables a (afterRefusal a) ∧
      verdict (archiveAttributes Compression.zeroRunCodecs (quietly (afterRefusal a))) = .ok attributeCrc32 := by
  have facts : (archiveOpen attributed 0 seekRefused).toOption.any (fun a => decide (a.files = 2 ∧
      (∀ n < 2, serialized (entry a n).flags = false) ∧
        succeeded (archiveAttributes Compression.zeroRunCodecs a) = false ∧
        verdict (archiveAttributes Compression.zeroRunCodecs (quietly a)) = .ok attributeCrc32)) = true := by
    decide +kernel
  cases opened : archiveOpen attributed 0 seekRefused with
  | error e =>
    rw [opened] at facts
    cases facts
  | ok a =>
  rw [opened] at facts
  obtain ⟨files, plain, failed, answer⟩ := of_decide_eq_true facts
  have candid : Candid a := by
    intro n suspect
    have serial := suspect.serialized
    rw [plain n (files ▸ suspect.member)] at serial
    cases serial
  have fresh := archiveOpen_fresh opened candid
  have sealed : Sealed Compression.zeroRunCodecs (quietly a) := by
    intro n found
    have below : n < (quietly a).files := fileNumber_lt found
    change n < a.files at below
    rw [files] at below
    refine SealedMember.of_plain (congrFun fresh.idle n) rfl fun flagged => ?_
    have serial : serialized (entry a n).flags = true := flagged.2
    rw [plain n below] at serial
    cases serial
  obtain ⟨same, -, later⟩ := reading_keeps_tables Compression.zeroRunCodecs a candid []
    [.archive .archiveAttributes, .archive (.fileRead 0 (Bytes.zeros 2))]
  refine ⟨a, rfl, failed, same, ?_⟩
  exact (later attributed 0 seekRefused opened sealed .archiveAttributes).trans answer

/-- A member with an encrypted offset table, stored without the encrypted bit. -/
def veiled : ReadArchive :=
  unnamed (File.ofBytes [142, 149, 41, 8, 19, 137, 159, 41, 1, 2, 3]) 0
    { offset := 0, packedSize := 11, unpackedSize := 3, flags := Flag.exists_ ||| Flag.compress }

theorem veiled_reading_sets_flags :
    let b := (Session.run Compression.zeroRunCodecs ⟨veiled, []⟩ [.archive (.fileRead 0 (Bytes.zeros 3))]).archive
    ¬ SameTables veiled b ∧ ¬ SameSizes veiled b := by
  have before : fileFlags veiled 0 = .ok (Flag.exists_ ||| Flag.compress) := rfl
  have after : fileFlags (Session.run Compression.zeroRunCodecs ⟨veiled, []⟩
      [.archive (.fileRead 0 (Bytes.zeros 3))]).archive 0 =
        .ok (Flag.exists_ ||| Flag.compress ||| Flag.encrypted) := by decide +kernel
  have differ : ¬ SameSizes veiled (Session.run Compression.zeroRunCodecs ⟨veiled, []⟩
      [.archive (.fileRead 0 (Bytes.zeros 3))]).archive := by
    intro same
    have flags := same.flags 0
    rw [before, after] at flags
    exact absurd (Except.ok.inj flags) (by decide)
  exact ⟨fun same => differ same.sizes, differ⟩

end Reading

end LibMpq
