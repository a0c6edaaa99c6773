import LibMpq.Query
import LibMpq.Signature
import LibMpq.StreamView

set_option autoImplicit false

namespace LibMpq

open Effect Bits

namespace Reading

inductive ArchiveCall where
  | archiveSizePacked
  | archiveSizeUnpacked
  | fileSizePacked (number : Nat)
  | fileSizeUnpacked (number : Nat)
  | fileOffset (number : Nat)
  | fileBlocks (number : Nat)
  | fileFlags (number : Nat)
  | fileNumber (name : Bytes)
  | blockSizeUnpacked (number block : Nat)
  | blockSizePacked (number block : Nat)
  | blockCompression (number block : Nat)
  | blockRead (number block : Nat) (buffer : Bytes)
  | fileRead (number : Nat) (buffer : Bytes)
  | archiveAttributes
  | fileAttributes (number : Nat)
  | fileVerify (number : Nat) (flags : UInt32)
  | blockVerify (number block : Nat)
  | archiveSignatures
  | archiveVerify (filename : Option Bytes) (flags : UInt32) (key : Bytes)
  | streamOpen (number : Nat)
  | streamOpenName (name : Bytes)

abbrev ArchiveCall.Reply : ArchiveCall → Type
  | archiveSizePacked | archiveSizeUnpacked | fileSizePacked _ | fileSizeUnpacked _ | fileOffset _
  | fileBlocks _ | fileNumber _ | blockSizeUnpacked _ _ | blockSizePacked _ _ => Nat
  | fileFlags _ | blockCompression _ _ | archiveAttributes | fileVerify _ _ | archiveSignatures
  | archiveVerify _ _ _ => UInt32
  | blockRead _ _ _ | fileRead _ _ => FileData
  | fileAttributes _ => FileAttributes
  | blockVerify _ _ => BlockVerdict
  | streamOpen _ | streamOpenName _ => Stream

-- A query answers from the tables alone.
def ask {α : Type} (query : ReadArchive → Except Error α) : Op Error ReadArchive α := do
  fromExcept (query (← get))

def blockReadData (codecs : Codecs) (number block : Nat) (buffer : Bytes) :
    Op Error ReadArchive FileData := do
  let (transferred, w) ← blockRead codecs number block none buffer
  pure { buffer := w.buffer, transferred }

-- `libmpq__archive_attributes`
def archiveAttributes (codecs : Codecs) : Op Error ReadArchive UInt32 := do
  let view ← attributesLoad codecs
  pure view.flags

def ArchiveCall.run (codecs : Codecs) : (call : ArchiveCall) → Op Error ReadArchive call.Reply
  | .archiveSizePacked => ask fun a => .ok (Reading.archiveSizePacked a)
  | .archiveSizeUnpacked => ask fun a => .ok (Reading.archiveSizeUnpacked a)
  | .fileSizePacked number => ask (Reading.fileSizePacked · number)
  | .fileSizeUnpacked number => ask (Reading.fileSizeUnpacked · number)
  | .fileOffset number => ask (Reading.fileOffset · number)
  | .fileBlocks number => ask (Reading.fileBlocks · number)
  | .fileFlags number => ask (Reading.fileFlags · number)
  | .fileNumber name => ask (Reading.fileNumber · name)
  | .blockSizeUnpacked number block => ask (Reading.blockSizeUnpacked · number block)
  | .blockSizePacked number block => Reading.blockSizePacked number block
  | .blockCompression number block => Reading.blockCompression number block
  | .blockRead number block buffer => blockReadData codecs number block buffer
  | .fileRead number buffer => Reading.fileRead codecs number buffer
  | .archiveAttributes => Reading.archiveAttributes codecs
  | .fileAttributes number => Reading.fileAttributes codecs number
  | .fileVerify number flags => verifyFile codecs number flags
  | .blockVerify number block => verifyBlock codecs number block
  | .archiveSignatures => signatureDetect
  | .archiveVerify filename flags key => signatureVerify filename flags key
  | .streamOpen number => Streaming.streamOpen codecs number
  | .streamOpenName name => Streaming.streamOpenName codecs name

/-- An open archive and the streams that are open on handles of their own. -/
structure Session where
  archive : ReadArchive
  streams : List Stream

inductive Call where
  | archive (call : ArchiveCall)
  | open (number : Nat)
  | openName (name : Bytes)
  | read (stream : Nat) (size : Int)
  | seek (stream : Nat) (offset : Int) (origin : Streaming.Origin)
  | close (stream : Nat)

def Session.opened (s : Session) : EStateM.Result Error ReadArchive Stream → Session
  | .ok stream archive => ⟨archive, s.streams ++ [stream]⟩
  | .error _ archive => ⟨archive, s.streams⟩

def Session.step (codecs : Codecs) (s : Session) : Call → Session
  | .archive call => { s with archive := final (call.run codecs s.archive) }
  | .open number => s.opened (Streaming.streamOpen codecs number s.archive)
  | .openName name => s.opened (Streaming.streamOpenName codecs name s.archive)
  | .read i size =>
    { s with streams := s.streams.modify i fun t => (Streaming.streamRead codecs size t).stream }
  | .seek i offset origin =>
    { s with streams := s.streams.modify i fun t => final (Streaming.streamSeek offset origin t) }
  | .close i => { s with streams := s.streams.eraseIdx i }

def ArchiveCall.depth : ArchiveCall → Nat
  | .blockSizePacked _ _ | .blockCompression _ _ | .blockRead _ _ _ => 1
  | .blockVerify _ _ => 2
  | .fileRead _ _ | .archiveAttributes | .fileAttributes _ | .fileVerify _ _ => 3
  | _ => 0

def Call.depth : Call → Nat
  | .archive call => call.depth
  | _ => 0

def Session.run (codecs : Codecs) (s : Session) (calls : List Call) : Session :=
  calls.foldl (Session.step codecs) s

def users (a : ReadArchive) (n : Nat) : UInt32 :=
  match a.cache n with
  | none => 0
  | some file => file.openCount

/-- Every count is the number of acquisitions not given back, in 32 bits, and only counted tables are
cached. -/
structure Counted (outstanding : Nat → Nat) (a : ReadArchive) : Prop where
  count : ∀ n, users a n = UInt32.ofNat (outstanding n)
  live : ∀ n, (a.cache n).isSome = true ↔ 0 < outstanding n

theorem Counted.congr {outstanding : Nat → Nat} {a b : ReadArchive} (counted : Counted outstanding a)
    (same : b.cache = a.cache) : Counted outstanding b := by
  constructor
  case count =>
    intro n
    rw [← counted.count n, users, same, users]
  case live =>
    intro n
    rw [same]
    exact counted.live n

theorem Counted.store {outstanding : Nat → Nat} {a : ReadArchive} (counted : Counted outstanding a)
    (n : Nat) {file : Option FileCache} {k : Nat}
    (users : (file.elim 0 fun f => f.openCount) = UInt32.ofNat k)
    (live : file.isSome = true ↔ 0 < k) :
    Counted (Function.update outstanding n k) (storeCache n file a) := by
  constructor
  case count =>
    intro m
    by_cases here : m = n
    · subst here
      rw [Function.update_self, ← users]
      simp only [Reading.users, storeCache, if_true]
      cases file <;> rfl
    · have other := counted.count m
      simp only [Reading.users] at other
      simp only [Reading.users, storeCache, here, if_false, ne_eq, not_false_eq_true,
        Function.update_of_ne, other]
  case live =>
    intro m
    by_cases here : m = n
    · subst here
      simp only [storeCache, if_true, Function.update_self, live]
    · simp only [storeCache, here, if_false, ne_eq, not_false_eq_true, Function.update_of_ne,
        counted.live m]

/-- The counts leave room for `d` acquisitions at once: the last of them may wrap a count to zero, but
one after it would be taken for the first. -/
def Room (outstanding : Nat → Nat) (d : Nat) : Prop := ∀ n, outstanding n + d ≤ 2 ^ 32

theorem Room.of_le {outstanding : Nat → Nat} {d e : Nat} (room : Room outstanding e) (le : d ≤ e) :
    Room outstanding d := fun n => (Nat.add_le_add_left le _).trans (room n)

def Balanced (d : Nat) (a b : ReadArchive) : Prop :=
  b.files = a.files ∧ ∀ outstanding, Room outstanding d → Counted outstanding a → Counted outstanding b

instance (d : Nat) : Std.Refl (Balanced d) := ⟨fun _ => ⟨rfl, fun _ _ counted => counted⟩⟩

instance (d : Nat) : IsTrans ReadArchive (Balanced d) where
  trans _ _ _ first second :=
    ⟨second.1.trans first.1, fun o room counted => second.2 o room (first.2 o room counted)⟩

def SameCache (a b : ReadArchive) : Prop := b.files = a.files ∧ b.cache = a.cache

instance : Std.Refl SameCache := ⟨fun _ => ⟨rfl, rfl⟩⟩

instance : IsTrans ReadArchive SameCache where
  trans _ _ _ first second := ⟨second.1.trans first.1, second.2.trans first.2⟩

theorem SameCache.balanced {d : Nat} {a b : ReadArchive} (same : SameCache a b) : Balanced d a b :=
  ⟨same.1, fun _ _ counted => counted.congr same.2⟩

theorem onPlan_sameCache {α : Type} (x : Op Error Faults α) : Keeps SameCache (onPlan x) :=
  Keeps.zoom (Keeps.of_true x) fun _ _ _ => ⟨rfl, rfl⟩

theorem onPlan_balanced {α : Type} {d : Nat} (x : Op Error Faults α) : Keeps (Balanced d) (onPlan x) :=
  (onPlan_sameCache x).mono fun _ _ => SameCache.balanced

theorem decryptTable_sameCache (a : ReadArchive) (size : Nat) (raw : Bytes) (seed : Option UInt32) :
    Keeps SameCache (decryptTable a size raw seed) := by
  unfold decryptTable
  cases seed.orElse fun _ => Crypto.deriveBlockTableSeed raw a.blockSize with
  | none => exact Keeps.throw _
  | some seed => exact Keeps.bind (Keeps.failIf _ _) fun _ => Keeps.pure _

theorem loadTable_sameCache (number size count : Nat) (seed : Option UInt32) :
    Keeps SameCache (loadTable number size count seed) := by
  refine Keeps.bind Keeps.get fun a => Keeps.bind (Keeps.failIf _ _) fun _ => ?_
  refine Keeps.bind (onPlan_sameCache _) fun _ => Keeps.bind (onPlan_sameCache _) fun raw => ?_
  refine Keeps.bind ?_ fun _ => Keeps.bind Keeps.get fun b => Keeps.bind ?_ fun loaded => ?_
  · split
    · exact Keeps.modify fun _ => ⟨rfl, rfl⟩
    · exact Keeps.pure _
  · split
    · exact decryptTable_sameCache _ _ _ _
    · exact Keeps.pure _
  · exact Keeps.bind (Keeps.failIf _ _) fun _ => Keeps.bind (Keeps.failIf _ _) fun _ => Keeps.pure _

theorem detectSeed_sameCache (number count : Nat) (offsets : Offsets) :
    Keeps SameCache (detectSeed number count offsets) := by
  refine Keeps.bind Keeps.get fun a => ?_
  simp only
  split
  · refine Keeps.bind (Keeps.failIf _ _) fun _ => Keeps.bind (Keeps.failIf _ _) fun _ => ?_
    refine Keeps.bind (Keeps.failIf _ _) fun _ => Keeps.bind (onPlan_sameCache _) fun first => ?_
    cases Crypto.detectFileKey first (entry a number).unpackedSize with
    | none => exact Keeps.throw _
    | some seed => exact Keeps.pure _
  · exact Keeps.pure _

theorem loadOffsets_sameCache (number : Nat) (name : Option Bytes) :
    Keeps SameCache (loadOffsets number name) := by
  refine Keeps.bind Keeps.get fun a => Keeps.bind (Keeps.failIf _ _) fun _ => ?_
  refine Keeps.bind (onPlan_sameCache _) fun _ => Keeps.bind (onPlan_sameCache _) fun _ => ?_
  refine Keeps.bind ?_ fun offsets => Keeps.bind (detectSeed_sameCache _ _ _) fun _ => Keeps.pure _
  split
  · exact loadTable_sameCache _ _ _ _
  · exact Keeps.pure _

section brackets

variable {number : Nat} {outstanding : Nat → Nat} {a b : ReadArchive}

def onceMore (outstanding : Nat → Nat) (number : Nat) : Nat → Nat :=
  Function.update outstanding number (outstanding number + 1)

theorem Room.onceMore {d : Nat} (room : Room outstanding (d + 1)) : Room (onceMore outstanding number) d := by
  intro n
  by_cases here : n = number
  · rw [here, Reading.onceMore, Function.update_self]
    exact (Nat.add_right_comm _ _ _).trans_le (room number)
  · rw [Reading.onceMore, Function.update_of_ne here]
    exact room.of_le (Nat.le_succ d) n

theorem offsetsAcquire_counts {name : Option Bytes} (counted : Counted outstanding a)
    (run : offsetsAcquire number name a = .ok () b) :
    number < b.files ∧ b.files = a.files ∧ Counted (onceMore outstanding number) b := by
  unfold offsetsAcquire at run
  rw [bind_of_ok (get_run a)] at run
  obtain ⟨member, run⟩ := failIf_bind_ok.mp run
  have count := counted.count number
  rw [users] at count
  cases cached : a.cache number with
  | some file =>
    rw [cached] at run count
    change file.openCount = _ at count
    simp only [modify_run, EStateM.Result.ok.injEq, true_and] at run
    subst run
    refine ⟨Nat.not_le.mp member, rfl, counted.store number ?_ (by simp)⟩
    change file.openCount + 1 = _
    rw [count, UInt32.ofNat_add]
    rfl
  | none =>
    rw [cached] at run count
    change 0 = _ at count
    obtain ⟨file, c, loads, run⟩ := bind_ok.mp run
    simp only [modify_run, EStateM.Result.ok.injEq, true_and] at run
    subst run
    obtain ⟨files, same⟩ := (loadOffsets_sameCache number name).ok loads
    refine ⟨files.symm ▸ Nat.not_le.mp member, files, (counted.congr same).store number ?_ (by simp)⟩
    rw [Option.elim_some, loadOffsets_openCount loads, UInt32.ofNat_add, ← count]
    rfl

theorem offsetsAcquire_failed {name : Option Bytes} {e : Error}
    (run : offsetsAcquire number name a = .error e b) : SameCache a b := by
  unfold offsetsAcquire at run
  rw [bind_of_ok (get_run a)] at run
  by_cases outside : number ≥ a.files
  · rw [bind_of_error (failIf_true outside _ _)] at run
    cases run
    exact refl_of SameCache a
  rw [bind_of_ok (failIf_false outside _ _)] at run
  cases cached : a.cache number with
  | some file =>
    rw [cached] at run
    cases run
  | none =>
    rw [cached] at run
    simp only [bind_run] at run
    cases loads : loadOffsets number name a with
    | error e' c =>
      rw [loads] at run
      cases run
      exact (loadOffsets_sameCache number name).error loads
    | ok file c =>
      rw [loads] at run
      cases run

theorem offsetsRelease_counts (room : Room outstanding 1) (counted : Counted (onceMore outstanding number) a)
    (member : number < a.files) :
    ∃ c, offsetsRelease number a = .ok () c ∧ c.files = a.files ∧ Counted outstanding c := by
  have live := (counted.live number).mpr (by simp [onceMore])
  have count := counted.count number
  rw [users] at count
  cases cached : a.cache number with
  | none =>
    rw [cached] at live
    cases live
  | some file =>
    rw [cached] at count
    simp only [onceMore, Function.update_self] at count
    let left : Option FileCache :=
      if file.openCount - 1 = 0 then none else some { file with openCount := file.openCount - 1 }
    have run : offsetsRelease number a = .ok () (storeCache number left a) := by
      unfold offsetsRelease
      rw [bind_of_ok (get_run a), bind_of_ok (failIf_false (Nat.not_le.mpr member) _ _), cached]
      rfl
    refine ⟨_, run, rfl, ?_⟩
    have stored := @Counted.store _ a counted number left (outstanding number)
    rw [onceMore, Function.update_idem, Function.update_eq_self] at stored
    have fewer : file.openCount - 1 = UInt32.ofNat (outstanding number) := by
      rw [count, UInt32.ofNat_add]
      exact UInt32.add_sub_cancel _ _
    rcases Nat.eq_zero_or_pos (outstanding number) with none | some
    · have last : left = Option.none := if_pos (by rw [fewer, none]; rfl)
      exact stored (by rw [last, none]; rfl) (by rw [last, none]; simp)
    · have more : left = Option.some { file with openCount := file.openCount - 1 } :=
        if_neg fun zero => by
          have wrapped := congrArg UInt32.toNat (fewer.symm.trans zero)
          rw [UInt32.toNat_ofNat_of_lt' (room number)] at wrapped
          exact some.ne' wrapped
      exact stored (by rw [more]; exact fewer) (by rw [more]; simp [some])

theorem release_counted (room : Room outstanding 1) (counted : Counted (onceMore outstanding number) a) (member : number < a.files) :
    Counted outstanding (final (offsetsRelease number a)) := by
  obtain ⟨c, run, -, counted⟩ := offsetsRelease_counts room counted member
  rw [run]
  exact counted

theorem release_balanced {d : Nat} {name : Option Bytes} {c : ReadArchive}
    (acquired : offsetsAcquire number name a = .ok () b) (balanced : Balanced d b c) :
    Balanced (d + 1) a (final (offsetsRelease number c)) := by
  refine ⟨?_, fun o room counted => ?_⟩
  · exact ((offsetsRelease_spares (n := number) c).files.trans balanced.1).trans
      ((offsetsAcquire_spares name).ok acquired).files
  · obtain ⟨member, -, held⟩ := offsetsAcquire_counts counted acquired
    exact release_counted (room.of_le (by omega)) (balanced.2 _ room.onceMore held) (balanced.1 ▸ member)

theorem holding_balanced {α : Type} {d : Nat} {x : Op Error ReadArchive α} (keeps : Keeps (Balanced d) x)
    (name : Option Bytes) : Keeps (Balanced (d + 1)) (offsetsAcquire number name >>= fun _ => holding number x) := by
  intro a
  rw [bind_run]
  cases acquired : offsetsAcquire number name a with
  | error e b => exact (offsetsAcquire_failed acquired).balanced
  | ok u b =>
    have kept := keeps b
    simp only [holding]
    cases run : x b with
    | ok r c =>
      rw [run] at kept
      exact release_balanced acquired kept
    | error e c =>
      rw [run] at kept
      exact release_balanced acquired kept

theorem releasing_balanced {α : Type} {d : Nat} {x : Op Error ReadArchive α} (keeps : Keeps (Balanced d) x)
    (name : Option Bytes) : Keeps (Balanced (d + 1)) (offsetsAcquire number name >>= fun _ => releasing number x) := by
  intro a
  rw [bind_run]
  cases acquired : offsetsAcquire number name a with
  | error e b => exact (offsetsAcquire_failed acquired).balanced
  | ok u b =>
    have kept := keeps b
    simp only [releasing]
    cases run : x b with
    | ok r c =>
      rw [run] at kept
      have back : Balanced (d + 1) a (final (offsetsRelease number c)) := release_balanced acquired kept
      simp only [bind_run]
      cases released : offsetsRelease number c with
      | ok _ d =>
        rw [released] at back
        exact back
      | error e d =>
        rw [released] at back
        exact back
    | error e c =>
      rw [run] at kept
      exact release_balanced acquired kept

end brackets

structure Framed (R : Nat → ReadArchive → ReadArchive → Prop) : Prop where
  deeper : ∀ {d : Nat} (a b : ReadArchive), R d a b → R (d + 1) a b
  plan : ∀ {d : Nat} (a : ReadArchive) {plan : Faults}, Faults.Steady a.plan plan → R d a { a with plan }
  holding : ∀ {α : Type} {d : Nat} {x : Op Error ReadArchive α} (number : Nat) (name : Option Bytes),
    Keeps (R d) x → Keeps (R (d + 1)) (offsetsAcquire number name >>= fun _ => holding number x)
  releasing : ∀ {α : Type} {d : Nat} {x : Op Error ReadArchive α} (number : Nat) (name : Option Bytes),
    Keeps (R d) x → Keeps (R (d + 1)) (offsetsAcquire number name >>= fun _ => releasing number x)

structure Remembering (R : Nat → ReadArchive → ReadArchive → Prop) : Prop extends Framed R where
  attributes : ∀ {d : Nat} (a : ReadArchive) (view : Attributes.View), R d a { a with attributes := some view }
  attributesError : ∀ {d : Nat} (a : ReadArchive) (e : Error), R d a { a with attributesError := some e }

section reads

variable {R : ReadArchive → ReadArchive → Prop} [Std.Refl R] [IsTrans ReadArchive R] {codecs : Codecs} {number : Nat}
  {load : Op Error ReadArchive Attributes.View}

theorem verifyData_keeps (keeps : Keeps R load) (data : Bytes) : Keeps R (verifyData load number data) := by
  refine Keeps.bind Keeps.get fun a => Keeps.bind (Keeps.failIf _ _) fun _ => ?_
  split
  · exact Keeps.pure _
  · refine Keeps.bind keeps.attempt fun view => ?_
    cases view with
    | none => exact Keeps.pure _
    | some view => exact Keeps.failIf _ _

theorem fileReadWith_keeps (keeps : Keeps R load) {buffer : Bytes} (read : Keeps R (readMember codecs number buffer)) :
    Keeps R (fileReadWith load codecs number buffer) := by
  refine Keeps.bind read fun s => Keeps.bind ?_ fun _ => Keeps.pure _
  split
  · exact Keeps.pure _
  · exact verifyData_keeps keeps _

theorem ask_keeps {α : Type} (query : ReadArchive → Except Error α) : Keeps R (ask query) :=
  Keeps.bind Keeps.get fun _ => Keeps.fromExcept _

end reads

section framed

variable {R : Nat → ReadArchive → ReadArchive → Prop} [∀ d, Std.Refl (R d)] [∀ d, IsTrans ReadArchive (R d)]
  (framed : Framed R)
include framed

omit [∀ d, Std.Refl (R d)] [∀ d, IsTrans ReadArchive (R d)] in
theorem Framed.onPlan {α : Type} {d : Nat} {x : Op Error Faults α} (steady : Keeps Faults.Steady x) :
    Keeps (R d) (onPlan x) :=
  Keeps.zoom steady fun a _ kept => framed.plan a kept

omit [∀ d, Std.Refl (R d)] [∀ d, IsTrans ReadArchive (R d)] in
theorem Framed.only {α : Type} {d : Nat} {x : Op Error ReadArchive α} (only : Keeps OnlyPlan x) : Keeps (R d) x := by
  refine only.mono ?_
  rintro a b ⟨plan, rfl, steady⟩
  exact framed.plan a steady

omit [∀ d, Std.Refl (R d)] in
theorem Framed.holding_bind {α β : Type} {d : Nat} {x : Op Error ReadArchive α} {g : α → Op Error ReadArchive β}
    (number : Nat) (name : Option Bytes) (keeps : Keeps (R d) x) (rest : ∀ r, Keeps (R (d + 1)) (g r)) :
    Keeps (R (d + 1)) (offsetsAcquire number name >>= fun _ => Reading.holding number x >>= g) := by
  rw [← bind_assoc]
  exact Keeps.bind (framed.holding number name keeps) rest

variable (codecs : Codecs) (number : Nat)

omit [∀ d, Std.Refl (R d)] [∀ d, IsTrans ReadArchive (R d)] in
theorem sectorChecksums_framed : Keeps (R 1) (sectorChecksums codecs number) :=
  framed.holding number none (framed.only (sectorTableOf_only codecs number))

omit [∀ d, Std.Refl (R d)] [∀ d, IsTrans ReadArchive (R d)] in
theorem readBlock_framed {d : Nat} (checksums : Option (Nat → UInt32)) (i : Nat) (s : ReadState) :
    Keeps (R d) (readBlock codecs number checksums i s) := by
  intro a
  unfold readBlock
  simp only
  have kept := blockReadAcquired_steady codecs a number i (checksums.map (· i))
    { plan := a.plan, buffer := (s.buffer.drop s.total).take (unpackedBlockSize a number i)
      mismatch := s.mismatch, lossy := s.lossy }
  split
  next run =>
    rw [run] at kept
    exact framed.plan a kept
  next run =>
    rw [run] at kept
    exact framed.plan a kept

theorem readMember_framed (buffer : Bytes) : Keeps (R 2) (readMember codecs number buffer) := by
  refine Keeps.bind Keeps.get fun a => Keeps.bind (Keeps.failIf _ _) fun _ => ?_
  refine Keeps.bind (Keeps.failIf _ _) fun _ => framed.holding_bind number none ?_ fun s => ?_
  · refine Keeps.bind (sectorChecksums_framed framed codecs number).attempt fun checksums => ?_
    refine Keeps.bind (Keeps.foldlM (fun s i => readBlock_framed framed codecs number _ i s) _ _) fun s => ?_
    exact Keeps.bind (Keeps.failIf _ _) fun _ => Keeps.pure _
  · exact Keeps.bind (Keeps.failIf _ _) fun _ => Keeps.pure _

-- The attributes are acquired by name, and acquired again by the read inside.
theorem parseAttributes_framed (size : Nat) : Keeps (R 3) (parseAttributes codecs number size) := by
  have read := readMember_framed framed codecs number (Bytes.zeros size)
  refine framed.holding_bind number _ (fileReadWith_keeps (Keeps.throw _) read) fun data => ?_
  exact Keeps.bind (Keeps.failIf _ _) fun _ => Keeps.bind Keeps.get fun a => Keeps.fromExcept _

omit [∀ d, Std.Refl (R d)] [∀ d, IsTrans ReadArchive (R d)] in
theorem readAcquired_framed {d : Nat} (block : Nat) (checksum : Option UInt32) (buffer : Bytes) (mismatch : Bool) :
    Keeps (R d) (readAcquired codecs number block checksum buffer mismatch) := by
  intro a
  unfold readAcquired
  have kept := blockReadAcquired_steady codecs a number block checksum
    { plan := a.plan, buffer, mismatch, lossy := false }
  split
  next run =>
    rw [run] at kept
    exact framed.plan a kept
  next run =>
    rw [run] at kept
    exact framed.plan a kept

theorem blockRead_framed (block : Nat) (checksum : Option UInt32) (buffer : Bytes) :
    Keeps (R 1) (blockRead codecs number block checksum buffer) := by
  refine Keeps.bind Keeps.get fun a => Keeps.bind (Keeps.failIf _ _) fun _ => ?_
  exact framed.holding number none (readAcquired_framed framed codecs number block checksum buffer false)

theorem verifyBlock_framed (block : Nat) : Keeps (R 2) (verifyBlock codecs number block) := by
  refine Keeps.bind Keeps.get fun a => Keeps.bind (Keeps.failIf _ _) fun _ => ?_
  refine Keeps.bind (Keeps.failIf _ _) fun _ => framed.releasing number none ?_
  refine Keeps.bind (sectorChecksums_framed framed codecs number) fun checksums => ?_
  cases checksums.map (· block) with
  | none => exact Keeps.throw _
  | some stored =>
    refine Keeps.bind (Keeps.failIf _ _) fun _ => Keeps.bind Keeps.get fun b => ?_
    refine Keeps.bind (Keeps.fromExcept _) fun size => Keeps.bind (framed.onPlan (request_steady _)) fun _ => ?_
    refine Keeps.bind (blockRead_framed framed codecs number block _ _) fun read => ?_
    exact Keeps.bind (Keeps.failIf _ _) fun _ => Keeps.pure _

theorem verifyStep_framed {d : Nat} (flags : UInt32) (checksums : Option (Nat → UInt32)) (expected : Nat)
    (s : VerifyState) (i : Nat) :
    Keeps (R d) (verifyStep codecs number flags checksums expected s i) := by
  refine Keeps.bind Keeps.get fun a => Keeps.bind (Keeps.fromExcept _) fun size => ?_
  refine Keeps.bind (Keeps.failIf _ _) fun _ => Keeps.bind ?_ fun buffer => ?_
  · unfold growVerify
    split
    · exact Keeps.bind (framed.onPlan (request_steady _)) fun _ => Keeps.pure _
    · exact Keeps.pure _
  · refine Keeps.bind (readAcquired_framed framed codecs number i _ _ _) fun read => ?_
    exact Keeps.bind (Keeps.failIf _ _) fun _ => Keeps.pure _

theorem verifyAvailable_framed (flags : UInt32) (row : FileAttributes) :
    Keeps (R 2) (verifyAvailable codecs number flags row) := by
  refine Keeps.bind Keeps.get fun a => ?_
  split
  · exact Keeps.pure _
  refine framed.releasing number none ?_
  refine Keeps.bind ?_ fun checksums => ?_
  · split
    · exact sectorChecksums_framed framed codecs number
    · exact Keeps.pure _
  split
  · exact Keeps.pure _
  refine Keeps.bind (Keeps.foldlM (fun s i => verifyStep_framed framed codecs number _ _ _ s i) _ _) fun s => ?_
  exact Keeps.bind (Keeps.failIf _ _) fun _ => Keeps.pure _

theorem storedExtent_framed (block : Nat) : Keeps (R 1) (storedExtent number block) := by
  refine Keeps.bind Keeps.get fun a => ?_
  simp only
  split
  · exact Keeps.pure _
  split
  · refine framed.holding number none (Keeps.bind Keeps.get fun b => ?_)
    cases b.cache number with
    | none => exact Keeps.throw _
    | some file => exact Keeps.bind (Keeps.failIf _ _) fun _ => Keeps.pure _
  · exact Keeps.pure _

theorem blockSizePacked_framed (block : Nat) : Keeps (R 1) (blockSizePacked number block) := by
  refine Keeps.bind Keeps.get fun a => Keeps.bind (Keeps.failIf _ _) fun _ => ?_
  refine Keeps.bind (storedExtent_framed framed number block) fun extent => ?_
  exact Keeps.bind (Keeps.failIf _ _) fun _ => Keeps.bind (Keeps.failIf _ _) fun _ => Keeps.pure _

theorem methodByte_framed {d : Nat} (block size : Nat) : Keeps (R d) (methodByte number block size) := by
  refine Keeps.bind Keeps.get fun a => ?_
  cases a.cache number with
  | none => exact Keeps.throw _
  | some file =>
    refine Keeps.bind (framed.onPlan (sourceReadAt_steady _ _ _)) fun packed => ?_
    split
    · cases file.seed with
      | none => exact Keeps.throw _
      | some seed => exact Keeps.pure _
    · exact Keeps.pure _

theorem blockCompression_framed (block : Nat) : Keeps (R 1) (blockCompression number block) := by
  refine Keeps.bind (blockSizePacked_framed framed number block) fun packed => Keeps.bind Keeps.get fun a => ?_
  refine Keeps.bind (Keeps.fromExcept _) fun unpacked => ?_
  simp only
  split
  · exact Keeps.pure _
  refine Keeps.bind (Keeps.failIf _ _) fun _ => ?_
  split
  · exact Keeps.pure _
  · exact framed.holding number none (methodByte_framed framed number block _)

end framed

section remembering

variable {R : Nat → ReadArchive → ReadArchive → Prop} [∀ d, Std.Refl (R d)] [∀ d, IsTrans ReadArchive (R d)]
  (remembering : Remembering R) (codecs : Codecs) (number : Nat)
include remembering

theorem rememberError_framed {d : Nat} (e : Error) : Keeps (R d) (rememberError e) := by
  refine Keeps.bind ?_ fun _ => Keeps.throw _
  split
  · exact Keeps.modify fun a => remembering.attributesError a e
  · exact Keeps.pure _

theorem attributesLoad_framed : Keeps (R 3) (attributesLoad codecs) := by
  refine Keeps.bind Keeps.get fun a => ?_
  split
  · exact Keeps.pure _
  · exact Keeps.throw _
  cases fileNumber a attributesName with
  | error e => exact rememberError_framed remembering _
  | ok n =>
    simp only
    split
    · exact rememberError_framed remembering _
    refine Keeps.bind (remembering.toFramed.onPlan (request_steady _)) fun _ b => ?_
    have kept := parseAttributes_framed remembering.toFramed codecs n (entry a n).unpackedSize.toNat b
    rw [bind_of_ok (get_run b)]
    cases run : parseAttributes codecs n (entry a n).unpackedSize.toNat b with
    | ok view c =>
      rw [run] at kept
      exact trans_of (R 3) kept (remembering.attributes c view)
    | error e c =>
      rw [run] at kept
      refine trans_of (R 3) kept ?_
      change R 3 c (if e = .format then { c with attributesError := some e } else c)
      split
      · exact remembering.attributesError c e
      · exact refl_of (R 3) c

end remembering

theorem balanced_remembering : Remembering Balanced where
  deeper _ _ balanced :=
    ⟨balanced.1, fun o room counted => balanced.2 o (room.of_le (Nat.le_succ _)) counted⟩
  plan _ _ _ := SameCache.balanced ⟨rfl, rfl⟩
  attributes _ _ := SameCache.balanced ⟨rfl, rfl⟩
  attributesError _ _ := SameCache.balanced ⟨rfl, rfl⟩
  holding _ name keeps := holding_balanced keeps name
  releasing _ name keeps := releasing_balanced keeps name

theorem locate_only : Keeps OnlyPlan locate := by
  refine Keeps.bind Keeps.get fun a => Keeps.bind (Keeps.fromExcept _) fun index => ?_
  refine Keeps.bind (Keeps.fromExcept _) fun extent => Keeps.bind (Keeps.failIf _ _) fun _ => ?_
  refine Keeps.bind (Keeps.failIf _ _) fun _ => Keeps.bind (Keeps.failIf _ _) fun _ => ?_
  refine Keeps.bind (Keeps.failIf _ _) fun _ => Keeps.bind (Keeps.failIf _ _) fun _ => ?_
  refine Keeps.bind (Keeps.failIf _ _) fun _ => ?_
  refine Keeps.bind (onPlan_only (sourceReadAt_steady _ _ _)) fun payload => ?_
  exact Keeps.bind (Keeps.failIf _ _) fun _ => Keeps.pure _

theorem strongLocate_only : Keeps OnlyPlan strongLocate := by
  refine Keeps.bind Keeps.get fun a => Keeps.bind (Keeps.fromExcept _) fun extent => ?_
  refine Keeps.bind (Keeps.failIf _ _) fun _ => Keeps.bind (Keeps.failIf _ _) fun _ => ?_
  refine Keeps.bind (onPlan_only (sourceReadAt_steady _ _ _)) fun trailer => ?_
  exact Keeps.bind (Keeps.failIf _ _) fun _ => Keeps.pure _

theorem signatureHashRange_only (extent : Nat) : Keeps OnlyPlan (signatureHashRange extent) := by
  refine Keeps.bind Keeps.get fun a => Keeps.bind (Keeps.failIf _ _) fun _ => ?_
  refine Keeps.bind ?_ fun start => Keeps.pure _
  split
  · exact Keeps.bind (onPlan_only (sourceReadAt_steady _ _ _)) fun front => Keeps.pure _
  · exact Keeps.pure _

theorem hashSource_steady {κ : Type} (source : File) (start size : Nat) (absorb : Nat → Bytes → κ → κ)
    (fuel pos : Nat) (context : κ) :
    Keeps Faults.Steady (hashSource source start size absorb fuel pos context) := by
  induction fuel generalizing pos context with
  | zero => exact Keeps.pure _
  | succ fuel ih =>
    rw [hashSource]
    split
    · exact Keeps.bind (sourceReadAt_steady _ _ _) fun chunk => ih _ _
    · exact Keeps.pure _

theorem digestSource_steady (source : File) (start size excluded : Nat) :
    Keeps Faults.Steady (digestSource source start size excluded) := by
  refine Keeps.bind (Keeps.failIf _ _) fun _ => ?_
  exact Keeps.bind (hashSource_steady _ _ _ _ _ _ _) fun context => Keeps.pure _

theorem signatureVerify_only (filename : Option Bytes) (flags : UInt32) (key : Bytes) :
    Keeps OnlyPlan (signatureVerify filename flags key) := by
  unfold signatureVerify
  split
  · refine Keeps.bind (Keeps.failIf _ _) fun _ => Keeps.bind strongLocate_only fun located => ?_
    refine Keeps.bind (signatureHashRange_only _) fun range => Keeps.bind Keeps.get fun a => ?_
    simp only
    split
    · exact Keeps.pure _
    refine Keeps.bind (Keeps.fromExcept _) fun actual => ?_
    exact Keeps.bind (onPlan_only (hashSource_steady _ _ _ _ _ _ _)) fun base => Keeps.pure _
  split
  · refine Keeps.bind (Keeps.failIf _ _) fun _ => Keeps.bind locate_only fun located => ?_
    refine Keeps.bind (signatureHashRange_only _) fun range => Keeps.bind Keeps.get fun a => ?_
    refine Keeps.bind (Keeps.failIf _ _) fun _ => ?_
    exact Keeps.bind (onPlan_only (digestSource_steady _ _ _ _)) fun digest => Keeps.pure _
  · exact Keeps.throw _

theorem present_only {α : Type} {x : Op Error ReadArchive α} (only : Keeps OnlyPlan x) (bit : UInt32) :
    Keeps OnlyPlan (present bit x) := by
  intro a
  have kept := only a
  unfold present
  cases run : x a with
  | ok r b =>
    rw [run] at kept
    exact kept
  | error e b =>
    rw [run] at kept
    simp only
    split <;> exact kept

theorem signatureDetect_only : Keeps OnlyPlan signatureDetect := by
  refine Keeps.bind (present_only locate_only _) fun weak => ?_
  exact Keeps.bind (present_only strongLocate_only _) fun strong => Keeps.pure _

theorem headerAt_steady (source : File) (offset : Nat) : Keeps Faults.Steady (headerAt source offset) := by
  refine Keeps.bind (Keeps.failIf _ _) fun _ => ?_
  exact Keeps.bind (sourceReadAt_steady _ _ _) fun raw => Keeps.pure _

theorem findHeader_steady (source : File) (search : Bool) (fuel offset : Nat) :
    Keeps Faults.Steady (findHeader source search fuel offset) := by
  induction fuel generalizing offset with
  | zero => exact Keeps.throw _
  | succ fuel ih =>
    refine Keeps.bind (headerAt_steady source offset) fun header => ?_
    split
    · exact Keeps.bind (Keeps.failIf _ _) fun _ => Keeps.pure _
    · exact Keeps.bind (Keeps.failIf _ _) fun _ => ih _

theorem readHeaderEx_steady (source : File) (offset : Nat) (header : Header) :
    Keeps Faults.Steady (readHeaderEx source offset header) := by
  unfold readHeaderEx
  split
  · refine Keeps.bind (Keeps.failIf _ _) fun _ => ?_
    exact Keeps.bind (sourceReadAt_steady _ _ _) fun raw => Keeps.pure _
  · exact Keeps.pure _

theorem readTable_steady (source : File) (offset bytes : Nat) (key : UInt32) :
    Keeps Faults.Steady (readTable source offset bytes key) := by
  refine Keeps.bind (request_steady _) fun _ => ?_
  exact Keeps.bind (sourceReadAt_steady _ _ _) fun raw => Keeps.pure _

theorem asFormat_steady {α : Type} {x : Op Error Faults α} (steady : Keeps Faults.Steady x) :
    Keeps Faults.Steady (asFormat x) := by
  intro plan
  have kept := steady plan
  unfold asFormat
  split
  next run =>
    rw [run] at kept
    exact kept
  · exact kept

theorem readBlockEx_steady (source : File) (offset : Nat) (header : Header) (headerEx : HeaderEx) :
    Keeps Faults.Steady (readBlockEx source offset header headerEx) := by
  unfold readBlockEx
  split
  · refine Keeps.bind (request_steady _) fun _ => ?_
    exact Keeps.bind (asFormat_steady (sourceReadAt_steady _ _ _)) fun raw => Keeps.pure _
  · exact Keeps.pure _

theorem openPath_steady (source : File) (archiveOffset : Int) :
    Keeps Faults.Steady (openPath source archiveOffset) := by
  refine Keeps.bind (request_steady _) fun _ => Keeps.bind (request_steady _) fun _ => ?_
  refine Keeps.bind (Keeps.failIf _ _) fun _ => Keeps.bind (request_steady _) fun _ => ?_
  refine Keeps.bind (findHeader_steady _ _ _ _) fun found => ?_
  refine Keeps.bind (Keeps.failIf _ _) fun _ => Keeps.bind (Keeps.failIf _ _) fun _ => ?_
  refine Keeps.bind (readHeaderEx_steady _ _ _) fun headerEx => Keeps.bind (request_steady _) fun _ => ?_
  refine Keeps.bind (readTable_steady _ _ _ _) fun hashes => ?_
  refine Keeps.bind (readTable_steady _ _ _ _) fun blocks => ?_
  refine Keeps.bind (readBlockEx_steady _ _ _ _) fun blockEx => ?_
  exact Keeps.bind Keeps.get fun plan => Keeps.pure _

end Reading

namespace Streaming

open Reading

variable (codecs : Codecs)

theorem growBuffer_same (size : Nat) : Keeps SameMember (growBuffer size) := by
  refine Keeps.bind Keeps.get fun s => ?_
  split
  · refine Keeps.bind (Keeps.zoom (Keeps.of_true _) fun t plan _ => ⟨⟨plan, rfl⟩, rfl, rfl, rfl⟩) fun _ => ?_
    exact Keeps.modify fun t => ⟨⟨t.archive.plan, rfl⟩, rfl, rfl, rfl⟩
  · exact Keeps.pure _

theorem loadBlock_same (block : Nat) : Keeps SameMember (loadBlock codecs block) := by
  refine Keeps.bind Keeps.get fun s => ?_
  split
  · exact Keeps.pure _
  refine Keeps.bind (Keeps.fromExcept _) fun size => Keeps.bind (growBuffer_same size) fun _ => ?_
  refine Keeps.bind (fun t => ?_) fun transferred => ?_
  · unfold readInto
    simp only
    split
    · split <;> exact ⟨⟨_, rfl⟩, rfl, rfl, rfl⟩
    · exact ⟨⟨_, rfl⟩, rfl, rfl, rfl⟩
  · exact Keeps.modify fun t => ⟨⟨t.archive.plan, rfl⟩, rfl, rfl, rfl⟩

theorem readLoop_same (fuel want : Nat) (s : Stream) : SameMember s (readLoop codecs fuel want s).stream := by
  induction fuel generalizing want s with
  | zero => exact refl_of SameMember s
  | succ fuel ih =>
    rw [readLoop]
    split
    · exact refl_of SameMember s
    have kept := loadBlock_same codecs (blockAt s s.position) s
    cases run : loadBlock codecs (blockAt s s.position) s with
    | error e t =>
      rw [run] at kept
      exact kept
    | ok u t =>
      rw [run] at kept
      simp only
      split
      · exact kept
      · have moved : ∀ count, SameMember t (advance count t) := fun _ => ⟨⟨t.archive.plan, rfl⟩, rfl, rfl, rfl⟩
        exact trans_of SameMember kept (trans_of SameMember (moved _) (ih _ _))

theorem streamRead_same (size : Int) (s : Stream) : SameMember s (streamRead codecs size s).stream := by
  unfold streamRead
  split
  · exact refl_of SameMember s
  · exact readLoop_same codecs _ _ s

theorem streamSeek_same (offset : Int) (origin : Origin) : Keeps SameMember (streamSeek offset origin) := by
  intro s
  obtain ⟨position, moved, -⟩ := streamSeek_final offset origin s
  rw [moved]
  exact ⟨⟨s.archive.plan, rfl⟩, rfl, rfl, rfl⟩

def SteadyHandle (a b : ReadArchive) : Prop := Faults.Steady a.plan b.plan

instance : Std.Refl SteadyHandle := ⟨fun _ healthy => healthy⟩

instance : IsTrans ReadArchive SteadyHandle := ⟨fun _ _ _ first second => second ∘ first⟩

theorem streamAdopt_steady (number : Nat) (name : Option Bytes) :
    Keeps SteadyHandle (streamAdopt codecs number name) := by
  have spared : ∀ a b, Spares number a b → SteadyHandle a b := fun _ _ spares => spares.steady
  refine Keeps.bind Keeps.get fun a => Keeps.bind (Keeps.failIf _ _) fun _ => ?_
  refine Keeps.bind ((onPlan_spares (request_steady _)).mono spared) fun _ => ?_
  refine Keeps.bind ((offsetsAcquire_spares name).mono spared) fun _ b => ?_
  have inside : Keeps SteadyHandle (do
      let a ← get
      keyKnown a number
      let checksums ← attempt (sectorChecksums codecs number)
      let archive ← get
      pure
        { archive
          number
          blocks := countFileBlocks a number
          cachedBlock := 2 ^ 32 - 1
          checksums := checksums.join
          buffer := []
          blockValid := false
          size := (entry a number).unpackedSize.toNat
          position := 0
          blockSize := 0 } : Op Error ReadArchive Stream) := by
    refine Keeps.bind Keeps.get fun c => Keeps.bind (keyKnown_keeps c number) fun _ => ?_
    refine Keeps.bind ((sectorChecksums_spares codecs).mono spared).attempt fun checksums => ?_
    exact Keeps.bind Keeps.get fun d => Keeps.pure _
  have kept := inside b
  unfold orRelease
  split
  next run =>
    rw [run] at kept
    exact kept
  next run =>
    rw [run] at kept
    exact trans_of SteadyHandle kept ((offsetsRelease_spares.mono spared) _)

theorem streamAdopt_counts {outstanding : Nat → Nat} {a : ReadArchive} (room : Room outstanding 2)
    (counted : Counted outstanding a) (number : Nat) (name : Option Bytes) :
    match streamAdopt codecs number name a with
    | .ok t b => t.archive = b ∧ t.number = number ∧ number < b.files ∧
        Counted (onceMore outstanding number) b
    | .error _ b => Counted outstanding b := by
  unfold streamAdopt
  rw [bind_of_ok (get_run a)]
  by_cases outside : number ≥ a.files
  · rw [bind_of_error (failIf_true outside _ _)]
    exact counted
  rw [bind_of_ok (failIf_false outside _ _), bind_run]
  have asked : Balanced 2 a _ := onPlan_balanced (request .malloc) a
  cases granted : onPlan (request Error.malloc) a with
  | error e b =>
    rw [granted] at asked
    exact asked.2 _ room counted
  | ok u b =>
    rw [granted] at asked
    have counted := asked.2 _ room counted
    simp only [bind_run]
    cases acquired : offsetsAcquire number name b with
    | error e c => exact counted.congr (offsetsAcquire_failed acquired).2
    | ok v c =>
      obtain ⟨member, -, held⟩ := offsetsAcquire_counts counted acquired
      have known : Balanced 1 c _ := keyKnown_keeps c number c
      simp only [orRelease, bind_of_ok (get_run c), bind_run]
      cases key : keyKnown c number c with
      | error e d =>
        rw [key] at known
        exact release_counted (room.of_le (by omega)) (known.2 _ room.onceMore held) (known.1.symm ▸ member)
      | ok w d =>
        rw [key] at known
        have sums := (sectorChecksums_framed balanced_remembering.toFramed codecs number).attempt d
        simp only
        cases table : attempt (sectorChecksums codecs number) d with
        | error e f =>
          rw [table] at sums
          have after := trans_of (Balanced 1) known sums
          exact release_counted (room.of_le (by omega)) (after.2 _ room.onceMore held) (after.1.symm ▸ member)
        | ok checksums f =>
          rw [table] at sums
          have after := trans_of (Balanced 1) known sums
          exact ⟨rfl, rfl, after.1.symm ▸ member, after.2 _ room.onceMore held⟩

section framed

variable {R : Nat → ReadArchive → ReadArchive → Prop} [∀ d, Std.Refl (R d)] [∀ d, IsTrans ReadArchive (R d)]
  (framed : Framed R) {d : Nat}
include framed

theorem archiveClone_framed : Keeps (R d) archiveClone := by
  refine Keeps.bind Keeps.get fun a => framed.onPlan ?_
  refine Keeps.bind (openPath_steady _ _) fun clone => ?_
  exact Keeps.bind (request_steady _) fun _ => Keeps.pure _

omit [∀ d, Std.Refl (R d)] [∀ d, IsTrans ReadArchive (R d)] in
theorem onClone_framed (clone : ReadArchive) (number : Nat) (name : Option Bytes) :
    Keeps (R d) (onClone clone (streamAdopt codecs number name)) := by
  intro a
  have kept := streamAdopt_steady codecs number name { clone with plan := a.plan }
  unfold onClone
  split
  next run =>
    rw [run] at kept
    exact framed.plan a kept
  next run =>
    rw [run] at kept
    exact framed.plan a kept

theorem streamOpen_framed (number : Nat) : Keeps (R d) (streamOpen codecs number) := by
  refine Keeps.bind Keeps.get fun a => Keeps.bind (Keeps.failIf _ _) fun _ => ?_
  exact Keeps.bind (archiveClone_framed framed) fun clone => onClone_framed codecs framed _ _ _

theorem streamOpenName_framed (name : Bytes) : Keeps (R d) (streamOpenName codecs name) := by
  refine Keeps.bind (archiveClone_framed framed) fun clone => Keeps.bind (Keeps.fromExcept _) fun number => ?_
  exact onClone_framed codecs framed _ _ _

end framed

theorem openSource_idle {source : File} {archiveOffset : Int} {plan plan' : Faults} {a : ReadArchive}
    (run : openSource source archiveOffset plan = .ok a plan') :
    (a.cache = fun _ => none) ∧ a.plan = plan' ∧ a.attributes = none ∧ a.attributesError = none := by
  unfold openSource at run
  obtain ⟨-, run⟩ := failIf_bind_ok.mp run
  obtain ⟨_, _, -, run⟩ := bind_ok.mp run
  obtain ⟨_, _, -, run⟩ := bind_ok.mp run
  obtain ⟨-, run⟩ := failIf_bind_ok.mp run
  obtain ⟨-, run⟩ := failIf_bind_ok.mp run
  obtain ⟨_, _, -, run⟩ := bind_ok.mp run
  obtain ⟨_, _, -, run⟩ := bind_ok.mp run
  obtain ⟨_, _, -, run⟩ := bind_ok.mp run
  obtain ⟨_, _, -, run⟩ := bind_ok.mp run
  obtain ⟨_, _, -, run⟩ := bind_ok.mp run
  rw [bind_of_ok (get_run _)] at run
  obtain ⟨rfl, rfl⟩ := pure_ok.mp run
  exact ⟨rfl, rfl, rfl, rfl⟩

theorem openPath_idle {source : File} {archiveOffset : Int} {plan plan' : Faults} {a : ReadArchive}
    (run : openPath source archiveOffset plan = .ok a plan') :
    (a.cache = fun _ => none) ∧ a.plan = plan' ∧ a.attributes = none ∧ a.attributesError = none := by
  unfold openPath at run
  obtain ⟨_, _, -, run⟩ := bind_ok.mp run
  obtain ⟨_, _, -, run⟩ := bind_ok.mp run
  exact openSource_idle run

theorem counted_idle {a : ReadArchive} (idle : a.cache = fun _ => none) : Counted (fun _ => 0) a :=
  ⟨fun n => by rw [users, idle]; rfl, fun n => by simp [idle]⟩

structure Alone (t : Stream) : Prop where
  counted : Counted (onceMore (fun _ => 0) t.number) t.archive
  member : t.number < t.archive.files

theorem onClone_alone {clone a b : ReadArchive} {t : Stream} {number : Nat} {name : Option Bytes}
    (idle : clone.cache = fun _ => none)
    (run : onClone clone (streamAdopt codecs number name) a = .ok t b) : Alone t := by
  have counts := streamAdopt_counts codecs (fun _ => by decide) (counted_idle (a := { clone with plan := a.plan }) idle) number name
  unfold onClone at run
  cases adopted : streamAdopt codecs number name { clone with plan := a.plan } with
  | error e c =>
    rw [adopted] at run
    cases run
  | ok t' c =>
    rw [adopted] at run counts
    cases run
    obtain ⟨rfl, rfl, member, counted⟩ := counts
    exact ⟨counted, member⟩

theorem archiveClone_idle {a b clone : ReadArchive} (run : archiveClone a = .ok clone b) :
    clone.cache = fun _ => none := by
  unfold archiveClone at run
  rw [bind_of_ok (get_run a)] at run
  obtain ⟨_, opened, -⟩ := zoom_ok.mp run
  obtain ⟨clone', _, opened, rest⟩ := bind_ok.mp opened
  obtain ⟨_, _, -, rest⟩ := bind_ok.mp rest
  obtain ⟨rfl, -⟩ := pure_ok.mp rest
  exact (openPath_idle opened).1

theorem streamOpen_alone {number : Nat} {a b : ReadArchive} {t : Stream}
    (run : streamOpen codecs number a = .ok t b) : Alone t := by
  unfold streamOpen at run
  rw [bind_of_ok (get_run a)] at run
  obtain ⟨-, run⟩ := failIf_bind_ok.mp run
  obtain ⟨clone, _, cloned, run⟩ := bind_ok.mp run
  exact onClone_alone codecs (archiveClone_idle cloned) run

theorem streamOpenName_alone {name : Bytes} {a b : ReadArchive} {t : Stream}
    (run : streamOpenName codecs name a = .ok t b) : Alone t := by
  unfold streamOpenName at run
  obtain ⟨clone, _, cloned, run⟩ := bind_ok.mp run
  obtain ⟨number, _, -, run⟩ := bind_ok.mp run
  exact onClone_alone codecs (archiveClone_idle cloned) run

theorem Alone.same {t t' : Stream} (alone : Alone t) (same : SameMember t t') : Alone t' := by
  obtain ⟨⟨plan, archive⟩, number, -, -⟩ := same
  constructor
  case counted =>
    rw [number, archive]
    exact alone.counted.congr rfl
  case member =>
    rw [number, archive]
    exact alone.member

end Streaming

namespace Reading

open Streaming

section calls

variable {codecs : Codecs} {R : ReadArchive → ReadArchive → Prop} [Std.Refl R] [IsTrans ReadArchive R]
  {F : Nat → ReadArchive → ReadArchive → Prop} [∀ d, Std.Refl (F d)] [∀ d, IsTrans ReadArchive (F d)]

theorem fileAttributes_keeps (load : Keeps R (attributesLoad codecs)) (number : Nat) :
    Keeps R (fileAttributes codecs number) := by
  refine Keeps.bind Keeps.get fun a => Keeps.bind (Keeps.failIf _ _) fun _ => ?_
  exact Keeps.bind load fun view => Keeps.bind Keeps.get fun b => Keeps.pure _

theorem verifyFile_keeps (load : Keeps R (attributesLoad codecs)) {number : Nat}
    (verify : ∀ flags row, Keeps R (verifyAvailable codecs number flags row)) (flags : UInt32) :
    Keeps R (verifyFile codecs number flags) := by
  refine Keeps.bind Keeps.get fun a => Keeps.bind (Keeps.failIf _ _) fun _ => ?_
  refine Keeps.bind (Keeps.failIf _ _) fun _ => ?_
  split
  · exact Keeps.pure _
  refine Keeps.bind ?_ fun row => Keeps.bind Keeps.get fun b => verify _ row
  split
  · exact fileAttributes_keeps load number
  · exact Keeps.pure _

theorem ArchiveCall.run_keeps (framed : Framed F) (call : ArchiveCall)
    (within : ∀ {d : Nat} {a b : ReadArchive}, d ≤ call.depth → F d a b → R a b)
    (load : call.depth = 3 → Keeps R (attributesLoad codecs)) : Keeps R (call.run codecs) := by
  have up : ∀ {α : Type} {x : Op Error ReadArchive α} {d : Nat}, d ≤ call.depth → Keeps (F d) x → Keeps R x :=
    fun le keeps => keeps.mono fun _ _ => within le
  cases call with
  | blockSizePacked n i => exact up le_rfl (blockSizePacked_framed framed n i)
  | blockCompression n i => exact up le_rfl (blockCompression_framed framed n i)
  | blockRead n i buffer =>
    exact Keeps.bind (up le_rfl (blockRead_framed framed codecs n i none buffer)) fun _ => Keeps.pure _
  | fileRead n buffer =>
    exact fileReadWith_keeps (load rfl) (up (Nat.le_succ 2) (readMember_framed framed codecs n buffer))
  | archiveAttributes => exact Keeps.bind (load rfl) fun _ => Keeps.pure _
  | fileAttributes n => exact fileAttributes_keeps (load rfl) n
  | fileVerify n flags =>
    exact verifyFile_keeps (load rfl) (fun flags row =>
      up (Nat.le_succ 2) (verifyAvailable_framed framed codecs n flags row)) flags
  | blockVerify n i => exact up le_rfl (verifyBlock_framed framed codecs n i)
  | archiveSignatures => exact up le_rfl (framed.only signatureDetect_only)
  | archiveVerify filename flags key => exact up le_rfl (framed.only (signatureVerify_only filename flags key))
  | streamOpen n => exact up le_rfl (streamOpen_framed codecs framed n)
  | streamOpenName name => exact up le_rfl (streamOpenName_framed codecs framed name)
  | _ => exact ask_keeps _

omit [Std.Refl R] [IsTrans ReadArchive R] in
theorem ArchiveCall.run_framed (codecs : Codecs) (remembering : Remembering F) (call : ArchiveCall) :
    Keeps (F call.depth) (call.run codecs) := by
  have within : ∀ {d e : Nat} {a b : ReadArchive}, d ≤ e → F d a b → F e a b := by
    intro d e a b le kept
    induction le with
    | refl => exact kept
    | step _ ih => exact remembering.deeper a b ih
  refine call.run_keeps remembering.toFramed within fun three => ?_
  rw [three]
  exact attributesLoad_framed remembering codecs

end calls

/-- The counts of a session: what is outstanding on the archive, and one for each open stream. -/
structure Accounted (outstanding : Nat → Nat) (s : Session) : Prop where
  archive : Counted outstanding s.archive
  streams : ∀ t ∈ s.streams, Alone t

theorem Session.opened_accounted {outstanding : Nat → Nat} {s : Session}
    (room : Room outstanding 0) (accounted : Accounted outstanding s)
    {result : EStateM.Result Error ReadArchive Stream} (balanced : Balanced 0 s.archive (final result))
    (alone : ∀ t b, result = .ok t b → Alone t) : Accounted outstanding (s.opened result) := by
  have counted := balanced.2 _ room accounted.archive
  cases result with
  | error e b => exact ⟨counted, accounted.streams⟩
  | ok t b =>
    refine ⟨counted, fun u mem => ?_⟩
    rcases List.mem_append.mp mem with old | new
    · exact accounted.streams u old
    · rw [List.mem_singleton.mp new]
      exact alone t b rfl

theorem mem_modify {α : Type} {P : α → Prop} {f : α → α} {items : List α} (all : ∀ x ∈ items, P x)
    (step : ∀ x, P x → P (f x)) (i : Nat) : ∀ x ∈ items.modify i f, P x := by
  intro x mem
  obtain ⟨j, get⟩ := List.mem_iff_getElem?.mp mem
  rw [List.getElem?_modify] at get
  obtain ⟨y, found, rfl⟩ := Option.map_eq_some_iff.mp get
  have holds := all y (List.mem_iff_getElem?.mpr ⟨j, found⟩)
  split
  · exact step y holds
  · exact holds

theorem Session.step_accounted (codecs : Codecs) {outstanding : Nat → Nat} {s : Session}
    (accounted : Accounted outstanding s) (call : Call) (room : Room outstanding call.depth) :
    Accounted outstanding (s.step codecs call) := by
  cases call with
  | archive call =>
    exact ⟨(call.run_framed codecs balanced_remembering s.archive).2 _ room accounted.archive, accounted.streams⟩
  | «open» n =>
    exact opened_accounted room accounted (streamOpen_framed codecs balanced_remembering.toFramed n s.archive) fun t b run =>
      streamOpen_alone codecs run
  | openName name =>
    exact opened_accounted room accounted (streamOpenName_framed codecs balanced_remembering.toFramed name s.archive) fun t b run =>
      streamOpenName_alone codecs run
  | read i size =>
    exact ⟨accounted.archive, mem_modify accounted.streams (fun t alone => alone.same (streamRead_same codecs size t)) i⟩
  | seek i offset origin =>
    exact ⟨accounted.archive, mem_modify accounted.streams (fun t alone => alone.same (streamSeek_same offset origin t)) i⟩
  | close i => exact ⟨accounted.archive, fun t mem => accounted.streams t (List.mem_of_mem_eraseIdx mem)⟩

theorem Session.run_accounted (codecs : Codecs) {outstanding : Nat → Nat} (calls : List Call) {s : Session}
    (accounted : Accounted outstanding s) (room : ∀ call ∈ calls, Room outstanding call.depth) :
    Accounted outstanding (s.run codecs calls) := by
  induction calls generalizing s with
  | nil => exact accounted
  | cons call rest ih =>
    have next := step_accounted codecs accounted call (room call List.mem_cons_self)
    exact ih next fun later mem => room later (List.mem_cons_of_mem call mem)

theorem streamClose_counts {t : Stream} (alone : Alone t) :
    ∃ b, streamClose t = .ok () b ∧ Counted (fun _ => 0) b := by
  obtain ⟨b, run, -, counted⟩ := offsetsRelease_counts (fun _ => by decide) alone.counted alone.member
  exact ⟨b, run, counted⟩

-- Whatever was called, as long as no count has more acquisitions than 32 bits hold: the
-- archive's counts are what they were, every open stream counts once on its own handle, and a
-- stream adopted on a handle adds one.
theorem counts_balance (codecs : Codecs) {outstanding : Nat → Nat} {s : Session}
    (accounted : Accounted outstanding s) (calls : List Call)
    (room : ∀ call ∈ calls, Room outstanding call.depth) :
    Accounted outstanding (s.run codecs calls) ∧
      (∀ t ∈ (s.run codecs calls).streams, ∃ b, streamClose t = .ok () b ∧ Counted (fun _ => 0) b) ∧
      (Room outstanding 2 → ∀ number name,
        match streamAdopt codecs number name (s.run codecs calls).archive with
        | .ok t b => t.archive = b ∧ Counted (onceMore outstanding number) b
        | .error _ b => Counted outstanding b) := by
  have final := s.run_accounted codecs calls accounted room
  refine ⟨final, fun t mem => streamClose_counts (final.streams t mem), fun two number name => ?_⟩
  have counts := streamAdopt_counts codecs two final.archive number name
  split
  next run =>
    rw [run] at counts
    exact ⟨counts.1, counts.2.2.2⟩
  next run =>
    rw [run] at counts
    exact counts

theorem Call.depth_le (call : Call) : call.depth ≤ 3 := by
  cases call with
  | archive call => cases call <;> simp [Call.depth, ArchiveCall.depth]
  | _ => exact Nat.zero_le _

def held (count : UInt32) : ReadArchive :=
  storeCache 0 (some
    { packedOffset := synthesized (twoSectors Faults.healthy) 0, packedOffsetCount := 3, openCount := count
      seed := none })
    (twoSectors Faults.healthy)

theorem counts_balance_two_sectors :
    let calls := [.archive (.fileRead 0 (Bytes.zeros 1024)), .open 0, .read 0 3, .close 0]
    Accounted (onceMore (fun _ => 0) 0) (Session.run Compression.zeroRunCodecs ⟨held 1, []⟩ calls) := by
  have counted : Counted (onceMore (fun _ => 0) 0) (held 1) :=
    (counted_idle (a := twoSectors Faults.healthy) rfl).store 0 rfl (by decide)
  have room : Room (onceMore (fun _ => 0) 0) 3 := Room.onceMore fun _ => by decide
  exact (counts_balance Compression.zeroRunCodecs ⟨counted, fun _ mem => absurd mem List.not_mem_nil⟩ _
    fun call _ => room.of_le call.depth_le).1

-- The second acquisition of the read is counted as the first, and its release frees the table.
theorem last_count_forgets :
    Counted (Function.update (fun _ => 0) 0 (2 ^ 32 - 1)) (held 0xFFFFFFFF) ∧
      ((Session.run Compression.zeroRunCodecs ⟨held 0xFFFFFFFF, []⟩
        [.archive (.fileRead 0 (Bytes.zeros 1024))]).archive.cache 0).isNone := by
  refine ⟨(counted_idle (a := twoSectors Faults.healthy) rfl).store 0 (by decide) (by decide), ?_⟩
  decide +kernel

end Reading

end LibMpq
