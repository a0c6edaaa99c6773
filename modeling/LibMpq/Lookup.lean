import LibMpq.Base.Probing
import LibMpq.Reader

set_option autoImplicit false

namespace LibMpq

open Effect Bits Probing

namespace Reading

def existing (block : Nat → BlockEntry) (i : Nat) : Bool := has (block i).flags Flag.exists_

def rank (block : Nat → BlockEntry) (i : Nat) : Nat := ((List.range i).filter (existing block)).length

theorem rank_succ (block : Nat → BlockEntry) (i : Nat) :
    rank block (i + 1) = rank block i + if existing block i then 1 else 0 := by
  rw [rank, List.range_succ, List.filter_append, List.length_append]
  cases here : existing block i <;> simp [rank, here]

theorem rank_le (block : Nat → BlockEntry) (i : Nat) : rank block i ≤ i := by
  have := List.length_filter_le (existing block) (List.range i)
  rwa [List.length_range] at this

theorem rank_mono (block : Nat → BlockEntry) {i j : Nat} (le : i ≤ j) : rank block i ≤ rank block j := by
  induction j with
  | zero => rw [Nat.le_zero.mp le]
  | succ j ih =>
    rcases Nat.lt_or_eq_of_le le with below | rfl
    · rw [rank_succ]
      exact (ih (by omega)).trans (Nat.le_add_right _ _)
    · exact le_rfl

theorem buildMap_succ (block : Nat → BlockEntry) (count : Nat) :
    buildMap block (count + 1) = mapStep block (buildMap block count) count := by
  rw [buildMap, List.range_succ, List.foldl_append]
  rfl

theorem buildMap_rank (block : Nat → BlockEntry) (count : Nat) :
    (buildMap block count).files = rank block count ∧
      ∀ i, i < count → (buildMap block count).diff i = i - rank block i := by
  induction count with
  | zero => exact ⟨rfl, fun i below => absurd below (Nat.not_lt_zero i)⟩
  | succ count ih =>
    obtain ⟨files, diff⟩ := ih
    have later : ∀ i, i < count + 1 →
        (if i = count then count - rank block count else (buildMap block count).diff i) =
          i - rank block i := by
      intro i below
      by_cases last : i = count
      · rw [if_pos last, last]
      · rw [if_neg last, diff i (by omega)]
    rw [buildMap_succ, mapStep, rank_succ, files]
    cases here : existing block count with
    | false =>
      rw [existing] at here
      rw [if_neg (by rw [here]; decide), if_neg (by decide)]
      exact ⟨rfl, later⟩
    | true =>
      rw [existing] at here
      rw [if_pos here, if_pos rfl]
      exact ⟨rfl, later⟩

/-- What opening guarantees about the block table and the file map. -/
structure Decoded (a : ReadArchive) : Prop where
  blocks : tableBytes a.header.blockTableCount blockEntryWireSize ≤ 2 ^ 32 - 1
  files : a.files = (buildMap a.block a.header.blockTableCount.toNat).files
  diff : a.blockTableDiff = (buildMap a.block a.header.blockTableCount.toNat).diff

theorem buildMap_indices (block : Nat → BlockEntry) (count : Nat) :
    ∀ i, i < (buildMap block count).files → rank block ((buildMap block count).indices i) = i := by
  induction count with
  | zero => exact fun i below => absurd below (Nat.not_lt_zero i)
  | succ count ih =>
    obtain ⟨files, -⟩ := buildMap_rank block count
    intro i
    rw [buildMap_succ, mapStep]
    split
    next =>
      intro below
      simp only at below ⊢
      by_cases last : i = (buildMap block count).files
      · rw [if_pos last, last, files]
      · rw [if_neg last]
        exact ih i (by omega)
    next => exact ih i

/-- What opening guarantees about a handle. -/
structure Handle (a : ReadArchive) : Prop extends Decoded a where
  indices : a.blockTableIndices = (buildMap a.block a.header.blockTableCount.toNat).indices
  sectors : ∃ shift : UInt32, shift ≤ 22 ∧ a.blockSize = 512 <<< shift

theorem Handle.injective {a : ReadArchive} (handle : Handle a) {m n : Nat} (first : m < a.files)
    (second : n < a.files) (same : a.blockTableIndices m = a.blockTableIndices n) : m = n := by
  rw [handle.files] at first second
  rw [handle.indices] at same
  have rank := buildMap_indices a.block a.header.blockTableCount.toNat
  rw [← rank m first, ← rank n second, same]

theorem sectorSize_pos {shift unit : UInt32} (small : shift ≤ 22) (size : unit = 512 <<< shift) :
    0 < unit.toNat := by
  have positive : ∀ n, n ≤ 22 → 0 < ((512 : UInt32) <<< UInt32.ofNat n).toNat := by decide
  have := positive shift.toNat (UInt32.le_iff_toNat_le.mp small)
  rwa [UInt32.ofNat_toNat, ← size] at this

theorem Handle.blockSize_pos {a : ReadArchive} (handle : Handle a) : 0 < a.blockSize.toNat := by
  obtain ⟨shift, small, size⟩ := handle.sectors
  exact sectorSize_pos small size

theorem openSource_handle {source : File} {archiveOffset : Int} {plan plan' : Faults} {a : ReadArchive}
    (run : openSource source archiveOffset plan = .ok a plan') : Handle a := by
  unfold openSource at run
  obtain ⟨-, run⟩ := failIf_bind_ok.mp run
  obtain ⟨_, _, -, run⟩ := bind_ok.mp run
  obtain ⟨⟨offset, header⟩, _, -, run⟩ := bind_ok.mp run
  obtain ⟨small, run⟩ := failIf_bind_ok.mp run
  obtain ⟨fits, run⟩ := failIf_bind_ok.mp run
  obtain ⟨headerEx, _, -, run⟩ := bind_ok.mp run
  obtain ⟨_, _, -, run⟩ := bind_ok.mp run
  obtain ⟨hashes, _, -, run⟩ := bind_ok.mp run
  obtain ⟨blocks, _, -, run⟩ := bind_ok.mp run
  obtain ⟨blockEx, _, -, run⟩ := bind_ok.mp run
  rw [bind_of_ok (get_run _)] at run
  obtain ⟨rfl, -⟩ := pure_ok.mp run
  refine ⟨⟨(not_not.mp fits).2.1, rfl, rfl⟩, rfl, header.blockSize.toUInt32, ?_, rfl⟩
  have small : header.blockSize ≤ 22 := UInt16.not_lt.mp small
  rw [UInt32.le_iff_toNat_le, UInt16.toNat_toUInt32]
  exact UInt16.le_iff_toNat_le.mp small

theorem openSource_decoded {source : File} {archiveOffset : Int} {plan plan' : Faults} {a : ReadArchive}
    (run : openSource source archiveOffset plan = .ok a plan') : Decoded a :=
  (openSource_handle run).toDecoded

def Present (a : ReadArchive) (index : UInt32) : Prop :=
  index.toNat < a.header.blockTableCount.toNat ∧ existing a.block index.toNat = true

instance (a : ReadArchive) (index : UInt32) : Decidable (Present a index) :=
  inferInstanceAs (Decidable (_ ∧ _))

theorem numberOf_eq {a : ReadArchive} (decoded : Decoded a) (index : UInt32) :
    numberOf a index.toNat =
      if Present a index then .ok (rank a.block index.toNat) else .error .format := by
  unfold numberOf
  by_cases present : Present a index
  · have inTable : ¬ (index.toNat ≥ a.header.blockTableCount.toNat ∨
        has (a.block index.toNat).flags Flag.exists_ = false) := by
      rintro (past | absent)
      · exact absurd present.1 (Nat.not_lt.mpr past)
      · have here := present.2
        rw [existing, absent] at here
        cases here
    obtain ⟨files, diff⟩ := buildMap_rank a.block a.header.blockTableCount.toNat
    have number : index.toNat - a.blockTableDiff index.toNat = rank a.block index.toNat := by
      have le := rank_le a.block index.toNat
      rw [decoded.diff, diff _ present.1]
      omega
    have below : rank a.block index.toNat < a.files := by
      have mono := rank_mono a.block (Nat.succ_le_of_lt present.1)
      rw [Nat.succ_eq_add_one, rank_succ, if_pos present.2] at mono
      rw [decoded.files, files]
      omega
    rw [if_neg inTable, number, if_neg (Nat.not_le.mpr below), if_pos present]
  · have outside : index.toNat ≥ a.header.blockTableCount.toNat ∨
        has (a.block index.toNat).flags Flag.exists_ = false := by
      by_cases inside : index.toNat < a.header.blockTableCount.toNat
      · refine .inr ?_
        by_contra here
        exact present ⟨inside, by rw [existing]; simpa using here⟩
      · exact .inl (Nat.not_lt.mp inside)
    rw [if_pos outside, if_neg present]

def homeOf (a : ReadArchive) (h : FileHash) : Nat := h.hash1.toNat % hashTableSize a

def entryAt (a : ReadArchive) (h : FileHash) (k : Nat) : HashEntry :=
  a.hash (slot (hashTableSize a) (homeOf a h) k)

def neverUsed (a : ReadArchive) (pos : Nat) : Bool := (a.hash pos).blockTableIndex = hashFree

def sameName (a : ReadArchive) (h : FileHash) (pos : Nat) : Bool :=
  (a.hash pos).hashA = h.hash2 ∧ (a.hash pos).hashB = h.hash3

def Matching (a : ReadArchive) (h : FileHash) (k : Nat) : Prop :=
  Reaches (hashTableSize a) (homeOf a h) (neverUsed a) k ∧ (entryAt a h k).hashA = h.hash2 ∧
    (entryAt a h k).hashB = h.hash3

def Deleted (a : ReadArchive) (h : FileHash) (k : Nat) : Prop :=
  (entryAt a h k).blockTableIndex = hashDeleted

def FirstLive (a : ReadArchive) (h : FileHash) (k : Nat) : Prop :=
  Matching a h k ∧ ¬ Deleted a h k ∧ ∀ j, j < k → Matching a h j → Deleted a h j

theorem probe_eq {a : ReadArchive} (h : FileHash) (fuel k : Nat)
    (bound : k + fuel = hashTableSize a) :
    probe a h.hash2 h.hash3 (homeOf a h) fuel (slot (hashTableSize a) (homeOf a h) k) =
      match find (hashTableSize a) (homeOf a h) (neverUsed a) (sameName a h) fuel k with
      | none => .error .exist
      | some j => numberOf a (entryAt a h j).blockTableIndex.toNat := by
  induction fuel generalizing k with
  | zero => rfl
  | succ fuel ih =>
    have home : homeOf a h < hashTableSize a := Nat.mod_lt _ (by omega)
    rw [probe, find]
    simp only [neverUsed, sameName, decide_eq_true_eq]
    split
    next => rfl
    next =>
      split
      next => rfl
      next =>
        -- The source stops where the chain would start again, which is where the fuel ends.
        by_cases last : k + 1 = hashTableSize a
        · rw [if_pos ((slot_succ_eq_home home (by omega)).mpr last)]
          rw [show fuel = 0 by omega]
          rfl
        · rw [if_neg fun back => last ((slot_succ_eq_home home (by omega)).mp back), ← slot_succ]
          exact ih (k + 1) (by omega)

theorem fileNumberFromHash_eq (a : ReadArchive) (h : FileHash) :
    fileNumberFromHash a h =
      match find (hashTableSize a) (homeOf a h) (neverUsed a) (sameName a h) (hashTableSize a) 0 with
      | none => .error .exist
      | some j => numberOf a (entryAt a h j).blockTableIndex.toNat := by
  unfold fileNumberFromHash
  split
  next none =>
    rw [none]
    rfl
  next some =>
    have start : slot (hashTableSize a) (homeOf a h) 0 = homeOf a h :=
      Nat.mod_eq_of_lt (Nat.mod_lt _ (by omega))
    have run := probe_eq h (hashTableSize a) 0 (Nat.zero_add _)
    rw [start] at run
    exact run

structure LookupLaw (a : ReadArchive) (h : FileHash) : Prop where
  found : ∀ number, fileNumberFromHash a h = .ok number ↔
    ∃ k, FirstLive a h k ∧ Present a (entryAt a h k).blockTableIndex ∧
      number = rank a.block (entryAt a h k).blockTableIndex.toNat
  missing : fileNumberFromHash a h = .error .exist ↔ ¬ ∃ k, FirstLive a h k
  dangling : fileNumberFromHash a h = .error .format ↔
    ∃ k, FirstLive a h k ∧ ¬ Present a (entryAt a h k).blockTableIndex

theorem FirstLive.unique {a : ReadArchive} {h : FileHash} {j k : Nat} (first : FirstLive a h j)
    (second : FirstLive a h k) : j = k := by
  rcases Nat.lt_trichotomy j k with less | same | more
  · exact absurd (second.2.2 j less first.1) first.2.1
  · exact same
  · exact absurd (first.2.2 k more second.1) second.2.1

theorem matching_iff {a : ReadArchive} {h : FileHash} {k : Nat} :
    Matching a h k ↔ Reaches (hashTableSize a) (homeOf a h) (neverUsed a) k ∧
      sameName a h (slot (hashTableSize a) (homeOf a h) k) = true := by
  rw [Matching, sameName, decide_eq_true_eq]
  rfl

theorem fileNumberFromHash_first {a : ReadArchive} (decoded : Decoded a) {h : FileHash} {k : Nat}
    (matching : Matching a h k) (first : ∀ j, j < k → ¬ Matching a h j) :
    fileNumberFromHash a h =
      if Present a (entryAt a h k).blockTableIndex then
        .ok (rank a.block (entryAt a h k).blockTableIndex.toNat)
      else .error .format := by
  obtain ⟨reaches, same⟩ := matching_iff.mp matching
  have found := find_eq_some_iff.mpr ⟨reaches, same, fun j below => by
    by_contra hit
    exact first j below (matching_iff.mpr ⟨reaches.mono below.le, by simpa using hit⟩)⟩
  rw [fileNumberFromHash_eq, found]
  exact numberOf_eq decoded _

theorem fileNumberFromHash_none {a : ReadArchive} {h : FileHash} (none : ∀ k, ¬ Matching a h k) :
    fileNumberFromHash a h = .error .exist := by
  have missing := find_eq_none_iff.mpr fun k reaches => by
    by_contra hit
    exact none k (matching_iff.mpr ⟨reaches, by simpa using hit⟩)
  rw [fileNumberFromHash_eq, missing]

theorem not_present_of_deleted {a : ReadArchive} (decoded : Decoded a) {h : FileHash} {k : Nat}
    (deleted : Deleted a h k) : ¬ Present a (entryAt a h k).blockTableIndex := by
  intro present
  have blocks := decoded.blocks
  have inside := present.1
  rw [show (entryAt a h k).blockTableIndex = hashDeleted from deleted] at inside
  simp only [hashDeleted, UInt32.reduceToNat] at inside
  simp only [tableBytes, blockEntryWireSize] at blocks
  omega

theorem lookupLaw_of_firstLive {a : ReadArchive} {h : FileHash} {k : Nat} (live : FirstLive a h k)
    (run : fileNumberFromHash a h =
      if Present a (entryAt a h k).blockTableIndex then
        .ok (rank a.block (entryAt a h k).blockTableIndex.toNat)
      else .error .format) : LookupLaw a h := by
  have only : ∀ {P : Nat → Prop}, (∃ j, FirstLive a h j ∧ P j) ↔ P k := by
    intro P
    constructor
    · rintro ⟨j, first, holds⟩
      exact first.unique live ▸ holds
    · exact fun holds => ⟨k, live, holds⟩
  by_cases present : Present a (entryAt a h k).blockTableIndex
  · rw [if_pos present] at run
    refine ⟨fun number => ?_, ?_, ?_⟩
    · rw [only, run, Except.ok.injEq]
      exact ⟨fun same => ⟨present, same.symm⟩, fun same => same.2.symm⟩
    · rw [run]
      exact ⟨nofun, fun none => absurd ⟨k, live⟩ none⟩
    · rw [only, run]
      exact ⟨nofun, fun absent => absurd present absent⟩
  · rw [if_neg present] at run
    refine ⟨fun number => ?_, ?_, ?_⟩
    · rw [only, run]
      exact ⟨nofun, fun same => absurd same.1 present⟩
    · rw [run]
      exact ⟨nofun, fun none => absurd ⟨k, live⟩ none⟩
    · rw [only, run]
      exact ⟨fun _ => present, fun _ => rfl⟩

theorem lookupLaw_of_none {a : ReadArchive} {h : FileHash} (none : ∀ k, ¬ Matching a h k) :
    LookupLaw a h := by
  have run := fileNumberFromHash_none none
  have noLive : ¬ ∃ k, FirstLive a h k := fun ⟨k, live⟩ => none k live.1
  refine ⟨fun number => ?_, ?_, ?_⟩
  · rw [run]
    exact ⟨nofun, fun ⟨k, live, _⟩ => absurd ⟨k, live⟩ noLive⟩
  · rw [run]
    exact ⟨fun _ => noLive, fun _ => rfl⟩
  · rw [run]
    exact ⟨nofun, fun ⟨k, live, _⟩ => absurd ⟨k, live⟩ noLive⟩

/-- Every deleted entry of the name stands behind its first live one, or that one is itself
without a block. -/
def Unshadowed (a : ReadArchive) (h : FileHash) : Prop :=
  ∀ k, Matching a h k → Deleted a h k →
    ∃ j, FirstLive a h j ∧ (j < k ∨ ¬ Present a (entryAt a h j).blockTableIndex)

theorem exists_first_matching {a : ReadArchive} {h : FileHash} {k : Nat} (matching : Matching a h k) :
    ∃ j, j ≤ k ∧ Matching a h j ∧ ∀ i, i < j → ¬ Matching a h i := by
  induction k using Nat.strong_induction_on with
  | _ k ih =>
    by_cases earlier : ∃ j, j < k ∧ Matching a h j
    · obtain ⟨j, below, before⟩ := earlier
      obtain ⟨i, le, first⟩ := ih j below before
      exact ⟨i, by omega, first⟩
    · exact ⟨k, le_rfl, matching, fun i below before => earlier ⟨i, below, before⟩⟩

theorem lookup_law_iff {a : ReadArchive} (decoded : Decoded a) (h : FileHash) :
    LookupLaw a h ↔ Unshadowed a h := by
  constructor
  · intro law k matching deleted
    obtain ⟨j, le, first, before⟩ := exists_first_matching matching
    by_cases dead : Deleted a h j
    · have run := fileNumberFromHash_first decoded first before
      rw [if_neg (not_present_of_deleted decoded dead)] at run
      obtain ⟨i, live, absent⟩ := law.dangling.mp run
      exact ⟨i, live, .inr absent⟩
    · have other : j ≠ k := by
        rintro rfl
        exact dead deleted
      exact ⟨j, ⟨first, dead, fun i below matching => absurd matching (before i below)⟩,
        .inl (by omega)⟩
  · intro unshadowed
    by_cases none : ∀ k, ¬ Matching a h k
    · exact lookupLaw_of_none none
    · push Not at none
      obtain ⟨k, matching⟩ := none
      obtain ⟨j, -, first, before⟩ := exists_first_matching matching
      have run := fileNumberFromHash_first decoded first before
      by_cases dead : Deleted a h j
      · obtain ⟨i, live, behind | absent⟩ := unshadowed j first dead
        · exact absurd live.1 (before i behind)
        · rw [if_neg (not_present_of_deleted decoded dead)] at run
          exact lookupLaw_of_firstLive live (by rw [run, if_neg absent])
      · exact lookupLaw_of_firstLive ⟨first, dead, fun i below matching =>
          absurd matching (before i below)⟩ run

/-- An archive whose only hash entry was deleted but still has the hashes of its name. -/
def tombstone : ReadArchive where
  source := File.empty
  plan := Faults.healthy
  archiveOffset := 0
  blockSize := 512
  header :=
    { magic := headerMagic, headerSize := 32, archiveSize := 0, version := 0, blockSize := 0
      hashTableOffset := 32, blockTableOffset := 48, hashTableCount := 1, blockTableCount := 1 }
  headerEx := { extendedOffset := 0, hashTableOffsetHigh := 0, blockTableOffsetHigh := 0 }
  hash _ := { hashA := 7, hashB := 9, locale := 0, platform := 0, blockTableIndex := hashDeleted }
  block _ := { offset := 0, packedSize := 0, unpackedSize := 0, flags := 0 }
  blockEx _ := 0
  blockTableIndices _ := 0
  blockTableDiff := (buildMap (fun _ => ⟨0, 0, 0, 0⟩) 1).diff
  files := 0
  cache _ := none
  attributes := none
  attributesError := none

theorem tombstone_decoded : Decoded tombstone := ⟨by decide, rfl, rfl⟩

theorem lookup_law_iff_other_name :
    Decoded tombstone ∧ (LookupLaw tombstone ⟨0, 8, 9⟩ ↔ Unshadowed tombstone ⟨0, 8, 9⟩) :=
  ⟨tombstone_decoded, lookup_law_iff tombstone_decoded _⟩

theorem lookup_reports_deleted_entry : Decoded tombstone ∧ ¬ LookupLaw tombstone ⟨0, 7, 9⟩ := by
  refine ⟨tombstone_decoded, fun law => ?_⟩
  have run : fileNumberFromHash tombstone ⟨0, 7, 9⟩ = .error .format := rfl
  obtain ⟨k, live, -⟩ := law.dangling.mp run
  exact live.2.1 rfl

end Reading

end LibMpq
