import LibMpq.StreamWhole

set_option autoImplicit false

-- What a closed archive gives back through a second handle: streams opened by name, and what
-- the reader makes of an empty member.

namespace LibMpq

open Effect Bits Reading

namespace Streaming

section few

variable {codecs : Codecs} {s s' : Stream}

theorem readInto_small {block transferred : Nat} (run : readInto codecs block s = .ok transferred s') :
    transferred < 2 ^ 31 := by
  unfold readInto at run
  simp only at run
  split at run
  next status w _ =>
    split at run
    next => cases run
    next =>
      cases run
      exact status.toNatClampNeg_lt
  next => cases run

theorem loadBlock_small {block : Nat} (run : loadBlock codecs block s = .ok () s')
    (counted : s.blocks = countFileBlocks s.archive s.number)
    (small : s.blockValid = true → 0 < s.blocks ∧ s.blockSize < 2 ^ 31) :
    0 < s.blocks ∧ s'.blockSize < 2 ^ 31 := by
  unfold loadBlock at run
  rw [bind_of_ok (get_run s)] at run
  split at run
  next hit =>
    cases run
    exact small hit.1
  next =>
    obtain ⟨size, t, sized, run⟩ := bind_ok.mp run
    obtain ⟨_, u, grown, run⟩ := bind_ok.mp run
    obtain ⟨transferred, v, read, run⟩ := bind_ok.mp run
    cases run
    refine ⟨?_, readInto_small read⟩
    have sized := (fromExcept_ok.mp sized).1
    unfold blockSizeUnpacked at sized
    split at sized
    next => cases sized
    next inside =>
      have below := Nat.not_le.mp (not_or.mp inside).2
      rw [counted]
      exact Nat.zero_lt_of_lt below

-- The only block of a member starts it, so nothing behind its reported size is ever read.
theorem readLoop_few (fuel : Nat) {want : Nat} (few : s.blocks ≤ 1)
    (counted : s.blocks = countFileBlocks s.archive s.number)
    (small : s.blockValid = true → 0 < s.blocks ∧ s.blockSize < 2 ^ 31) :
    s.position + (readLoop codecs fuel want s).data.length ≤ max s.position (2 ^ 31 - 1) := by
  induction fuel generalizing want s with
  | zero => exact Nat.le_max_left _ _
  | succ fuel ih =>
    rw [readLoop]
    split
    next => exact Nat.le_max_left _ _
    next =>
      have outcome := loadBlock_outcome codecs (blockAt s s.position) s
      cases run : loadBlock codecs (blockAt s s.position) s with
      | error e s' => exact Nat.le_max_left _ _
      | ok u s' =>
        obtain ⟨some_, fits⟩ := loadBlock_small run counted small
        rw [run] at outcome
        have same : SameMember s s' ∧ s'.position = s.position := by
          cases outcome with
          | hit => exact ⟨refl_of SameMember s, rfl⟩
          | loaded same position => exact ⟨same, position⟩
        obtain ⟨same, position⟩ := same
        have one : s'.blocks = 1 := by
          rw [same.blocks]
          omega
        have base : baseOf s' (blockAt s s.position) = 0 := if_pos one
        simp only
        rw [base, Nat.sub_zero]
        split
        next => exact Nat.le_max_left _ _
        next inside =>
          have count : takeCount s' s'.position want ≤ s'.blockSize - s'.position := by
            unfold takeCount
            omega
          have counted' : s'.blocks = countFileBlocks s'.archive s'.number := by
            obtain ⟨plan, archive⟩ := same.archive
            rw [same.blocks, counted, same.number, archive]
            rfl
          have rest := @ih (advance (takeCount s' s'.position want) s') (want - takeCount s' s'.position want)
            (Nat.le_of_eq one) counted' fun _ => ⟨Nat.lt_of_lt_of_eq Nat.one_pos one.symm, fits⟩
          have moved : (advance (takeCount s' s'.position want) s').position =
              s'.position + takeCount s' s'.position want := rfl
          rw [moved] at rest
          rw [List.length_append]
          have cut := List.length_take_le (takeCount s' s'.position want) (s'.buffer.drop s'.position)
          omega

theorem readLoop_within (codecs : Codecs) (fuel want : Nat) (s : Stream) :
    s.position + (readLoop codecs fuel want s).data.length ≤ max s.position s.size := by
  induction fuel generalizing want s with
  | zero => exact Nat.le_max_left _ _
  | succ fuel ih =>
    rw [readLoop]
    split
    next => exact Nat.le_max_left _ _
    next more =>
      have outcome := loadBlock_outcome codecs (blockAt s s.position) s
      cases run : loadBlock codecs (blockAt s s.position) s with
      | error e s' => exact Nat.le_max_left _ _
      | ok u s' =>
        rw [run] at outcome
        have same : s'.size = s.size ∧ s'.position = s.position := by
          cases outcome with
          | hit => exact ⟨rfl, rfl⟩
          | loaded same position => exact ⟨same.size, position⟩
        obtain ⟨size, position⟩ := same
        simp only
        generalize s'.position - baseOf s' (blockAt s s.position) = offset
        split
        next => exact Nat.le_max_left _ _
        next =>
          have count : takeCount s' offset want ≤ s'.size - s'.position := Nat.min_le_right _ _
          have rest := ih (want - takeCount s' offset want) (advance (takeCount s' offset want) s')
          have moved : (advance (takeCount s' offset want) s').position =
              s'.position + takeCount s' offset want := rfl
          have kept : (advance (takeCount s' offset want) s').size = s'.size := rfl
          rw [moved, kept] at rest
          rw [List.length_append]
          have cut := List.length_take_le (takeCount s' offset want) (s'.buffer.drop offset)
          omega

theorem streamAdopt_fresh {number : Nat} {name : Option Bytes} {a a' : ReadArchive}
    (run : streamAdopt codecs number name a = .ok s a') :
    s.blocks = countFileBlocks a number ∧ s.size = memberSize a number ∧
      s.blocks = countFileBlocks s.archive s.number := by
  unfold streamAdopt at run
  rw [bind_of_ok (get_run a)] at run
  obtain ⟨-, run⟩ := failIf_bind_ok.mp run
  obtain ⟨_, b, granted, run⟩ := bind_ok.mp run
  obtain ⟨_, c, acquired, run⟩ := bind_ok.mp run
  have run := orRelease_ok.mp run
  rw [bind_of_ok (get_run c)] at run
  obtain ⟨_, d, known, run⟩ := bind_ok.mp run
  obtain ⟨_, e, tried, run⟩ := bind_ok.mp run
  rw [bind_of_ok (get_run e)] at run
  obtain ⟨rfl, -⟩ := pure_ok.mp run
  have first : Spares number a c := trans_of (Spares number) ((onPlan_spares (request_steady _)).ok granted)
    ((offsetsAcquire_spares name).ok acquired)
  have second : Spares number c e := trans_of (Spares number) ((keyKnown_keeps c number).ok known)
    ((sectorChecksums_spares codecs).attempt.ok tried)
  refine ⟨first.countFileBlocks_eq, ?_, second.countFileBlocks_eq.symm⟩
  simp only
  rw [memberSize, first.own_size]

theorem streamRead_bounds {number : Nat} {name : Option Bytes} {a a' : ReadArchive}
    (run : streamAdopt codecs number name a = .ok s a') (size : Int) :
    (streamRead codecs size s).data.length ≤ memberSize a number ∧
      (countFileBlocks a number ≤ 1 → (streamRead codecs size s).data.length < 2 ^ 31) := by
  obtain ⟨blocks, length, counted⟩ := streamAdopt_fresh run
  obtain ⟨invalid, position⟩ := streamAdopt_ok run
  unfold streamRead
  split
  next => exact ⟨Nat.zero_le _, fun _ => Nat.two_pow_pos 31⟩
  next =>
    have within := readLoop_within codecs size.toNat size.toNat s
    refine ⟨by omega, fun few => ?_⟩
    have only := @readLoop_few codecs s size.toNat size.toNat (blocks ▸ few) counted fun valid =>
      absurd (valid.symm.trans invalid) (by decide)
    omega

end few

theorem onClone_ok {α : Type} {clone a a' : ReadArchive} {x : Op Error ReadArchive α} {r : α}
    (run : onClone clone x a = .ok r a') : ∃ b, x { clone with plan := a.plan } = .ok r b := by
  unfold onClone at run
  split at run
  next b done =>
    cases run
    exact ⟨b, done⟩
  next => cases run

theorem streamOpenName_ok {codecs : Codecs} {name : Bytes} {a a' : ReadArchive} {s : Stream}
    (run : streamOpenName codecs name a = .ok s a') :
    ∃ c b number d, archiveClone a = .ok c b ∧ fileNumber c name = .ok number ∧
      streamAdopt codecs number (some name) { c with plan := b.plan } = .ok s d := by
  obtain ⟨c, b, cloned, inner⟩ := bind_ok.mp run
  obtain ⟨number, b', looked, adopts⟩ := bind_ok.mp inner
  obtain ⟨found, same⟩ := fromExcept_ok.mp looked
  obtain ⟨d, adopted⟩ := onClone_ok adopts
  rw [same] at adopted
  exact ⟨c, b, number, d, cloned, found, adopted⟩

/-- Opening the file, opening a stream by name and reading the whole of it gives exactly these bytes. -/
def StreamsBack (codecs : Codecs) (file : File) (archiveOffset : Int) (name x : Bytes) : Prop :=
  ∃ a s a', openPath file archiveOffset Faults.healthy = .ok a Faults.healthy ∧
    streamOpenName codecs name a = .ok s a' ∧
    (streamRead codecs x.length s).error = none ∧ (streamRead codecs x.length s).data = x

theorem StreamsBack.small {codecs : Codecs} {file : File} {archiveOffset : Int} {name x : Bytes}
    (back : StreamsBack codecs file archiveOffset name x) : x.length < 2 ^ 32 := by
  obtain ⟨a, s, a', -, run, -, data⟩ := back
  obtain ⟨c, b, number, d, -, -, adopted⟩ := streamOpenName_ok run
  have bound := (streamRead_bounds adopted x.length).1
  rw [data] at bound
  exact bound.trans_lt (entry _ number).unpackedSize.toNat_lt

section sole

open Writing (Sole)

variable {codecs : Codecs} {o : CreateOptions} {name : Bytes} {b : WriteArchive} {file : File}
  {members : List (StoredMember codecs)} {m : StoredMember codecs} {archiveOffset : Int}

theorem archiveClone_sole (sole : Sole o name b file members m) {a : ReadArchive} (opened : Opened b file a) :
    ∃ c, archiveClone a = .ok c a ∧ Opened b file c ∧ fileNumber c name = .ok 0 := by
  obtain ⟨c, run, opened', -, found⟩ := openPath_sole sole (.inl (Eq.refl (0 : Int)))
  exact ⟨c, archiveClone_opened opened run, opened', found⟩

end sole

end Streaming

end LibMpq
