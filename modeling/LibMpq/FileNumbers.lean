import LibMpq.Lookup
import Mathlib.Order.Hom.Basic

set_option autoImplicit false

namespace LibMpq

open Effect Bits

namespace Reading

theorem buildMap_existing (block : Nat → BlockEntry) (count : Nat) :
    ∀ i, i < (buildMap block count).files →
      (buildMap block count).indices i < count ∧ existing block ((buildMap block count).indices i) = true := by
  induction count with
  | zero => exact fun i below => absurd below (Nat.not_lt_zero i)
  | succ count ih =>
    intro i
    rw [buildMap_succ, mapStep]
    split
    next here =>
      intro below
      simp only at below ⊢
      by_cases last : i = (buildMap block count).files
      · rw [if_pos last]
        exact ⟨Nat.lt_succ_self _, here⟩
      · rw [if_neg last]
        obtain ⟨inside, there⟩ := ih i (by omega)
        exact ⟨by omega, there⟩
    next =>
      intro below
      simp only at below ⊢
      obtain ⟨inside, there⟩ := ih i below
      exact ⟨by omega, there⟩

theorem rank_lt {block : Nat → BlockEntry} {i j : Nat} (here : existing block i = true) (less : i < j) :
    rank block i < rank block j := by
  have mono := rank_mono block (Nat.succ_le_of_lt less)
  rw [Nat.succ_eq_add_one, rank_succ, if_pos here] at mono
  omega

theorem rank_injective {block : Nat → BlockEntry} {i j : Nat} (first : existing block i = true)
    (second : existing block j = true) (same : rank block i = rank block j) : i = j := by
  rcases Nat.lt_trichotomy i j with less | here | more
  · have := rank_lt first less
    omega
  · exact here
  · have := rank_lt second more
    omega

theorem buildMap_listed (block : Nat → BlockEntry) (count : Nat) :
    (List.range (buildMap block count).files).map (buildMap block count).indices =
      (List.range count).filter (existing block) := by
  induction count with
  | zero => rfl
  | succ count ih =>
    rw [buildMap_succ, mapStep, List.range_succ, List.filter_append, ← ih]
    cases here : existing block count with
    | false =>
      rw [existing] at here
      rw [if_neg (by rw [here]; decide)]
      simp [existing, here]
    | true =>
      rw [existing] at here
      have before : ∀ n ∈ List.range (buildMap block count).files,
          (if n = (buildMap block count).files then count else (buildMap block count).indices n) =
            (buildMap block count).indices n := by
        intro n mem
        rw [if_neg (List.mem_range.mp mem).ne]
      rw [if_pos here]
      simp only [List.range_succ, List.map_append, List.map_cons, List.map_nil, if_true]
      rw [List.map_congr_left before]
      simp [existing, here]

abbrev Existing (a : ReadArchive) : Type :=
  { i : Fin a.header.blockTableCount.toNat // existing a.block i = true }

namespace Handle

variable {a : ReadArchive} (handle : Handle a)

include handle

theorem listed :
    (List.range a.files).map a.blockTableIndices =
      (List.range a.header.blockTableCount.toNat).filter (existing a.block) := by
  rw [handle.files, handle.indices]
  exact buildMap_listed a.block _

theorem diff_eq {i : Nat} (inside : i < a.header.blockTableCount.toNat) :
    a.blockTableDiff i = i - rank a.block i := by
  rw [handle.diff]
  exact (buildMap_rank a.block _).2 i inside

theorem number_eq {i : Nat} (inside : i < a.header.blockTableCount.toNat) :
    i - a.blockTableDiff i = rank a.block i := by
  have le := rank_le a.block i
  rw [handle.diff_eq inside]
  omega

theorem rank_lt_files {i : Nat} (inside : i < a.header.blockTableCount.toNat)
    (here : existing a.block i = true) : rank a.block i < a.files := by
  rw [handle.files, (buildMap_rank a.block _).1]
  exact rank_lt here inside

theorem index_existing {n : Nat} (below : n < a.files) :
    a.blockTableIndices n < a.header.blockTableCount.toNat ∧
      existing a.block (a.blockTableIndices n) = true := by
  rw [handle.files] at below
  rw [handle.indices]
  exact buildMap_existing a.block _ n below

theorem rank_index {n : Nat} (below : n < a.files) : rank a.block (a.blockTableIndices n) = n := by
  rw [handle.files] at below
  rw [handle.indices]
  exact buildMap_indices a.block _ n below

def numbering : Fin a.files ≃o Existing a where
  toFun n := ⟨⟨a.blockTableIndices n, (handle.index_existing n.isLt).1⟩, (handle.index_existing n.isLt).2⟩
  invFun i := ⟨i.1 - a.blockTableDiff i.1, by
    rw [handle.number_eq i.1.isLt]
    exact handle.rank_lt_files i.1.isLt i.2⟩
  left_inv n := by
    refine Fin.ext ?_
    simp only [handle.number_eq (handle.index_existing n.isLt).1, handle.rank_index n.isLt]
  right_inv i := by
    have below := handle.rank_lt_files i.1.isLt i.2
    have there := (handle.index_existing below).2
    refine Subtype.ext (Fin.ext ?_)
    simp only [handle.number_eq i.1.isLt]
    exact rank_injective there i.2 (handle.rank_index below)
  map_rel_iff' {m n} := by
    simp only [Equiv.coe_fn_mk, Subtype.mk_le_mk, Fin.le_def]
    constructor
    · intro le
      rw [← handle.rank_index m.isLt, ← handle.rank_index n.isLt]
      exact rank_mono a.block le
    · intro le
      by_contra less
      have := rank_lt (handle.index_existing n.isLt).2 (Nat.lt_of_not_le less)
      rw [handle.rank_index m.isLt, handle.rank_index n.isLt] at this
      omega

end Handle

theorem openSource_numbering (source : File) (archiveOffset : Int) (plan plan' : Faults) (a : ReadArchive)
    (run : openSource source archiveOffset plan = .ok a plan') :
    (List.range a.files).map a.blockTableIndices =
        (List.range a.header.blockTableCount.toNat).filter (existing a.block) ∧
      (∀ i, i < a.header.blockTableCount.toNat → a.blockTableDiff i ≤ i) ∧
      ∃ numbering : Fin a.files ≃o Existing a,
        (∀ n, ((numbering n).1 : Nat) = a.blockTableIndices n) ∧
          ∀ i, (numbering.symm i : Nat) = i.1 - a.blockTableDiff i.1 := by
  have handle := openSource_handle run
  refine ⟨handle.listed, ?_, handle.numbering, fun _ => rfl, fun _ => rfl⟩
  intro i inside
  rw [handle.diff_eq inside]
  exact Nat.sub_le _ _

-- Two entries, of which only the second exists.
def gapImage : Bytes :=
  [77, 80, 81, 26, 32, 0, 0, 0, 64, 0, 0, 0, 0, 0, 3, 0, 32, 0, 0, 0, 32, 0, 0, 0, 0, 0, 0, 0, 2, 0, 0, 0,
   139, 103, 72, 61, 129, 211, 8, 202, 179, 182, 53, 248, 169, 233, 50, 104, 192, 6, 145, 50, 188, 251, 84,
   107, 43, 58, 253, 186, 9, 25, 80, 36]

def opensWith (source : File) (files index : Nat) : Bool :=
  match openSource source 0 Faults.healthy with
  | .ok a _ => decide (a.files = files ∧ a.blockTableIndices 0 = index)
  | .error _ _ => false

theorem openSource_numbering_gap :
    ∃ a plan, openSource (File.ofBytes gapImage) 0 Faults.healthy = .ok a plan ∧
      a.files = 1 ∧ a.blockTableIndices 0 = 1 ∧
      ∃ numbering : Fin a.files ≃o Existing a,
        (∀ n, ((numbering n).1 : Nat) = a.blockTableIndices n) ∧
          ∀ i, (numbering.symm i : Nat) = i.1 - a.blockTableDiff i.1 := by
  have opens : opensWith (File.ofBytes gapImage) 1 1 = true := by decide +kernel
  rw [opensWith] at opens
  cases run : openSource (File.ofBytes gapImage) 0 Faults.healthy with
  | error e plan =>
    rw [run] at opens
    cases opens
  | ok a plan =>
    rw [run] at opens
    obtain ⟨files, index⟩ := of_decide_eq_true opens
    exact ⟨a, plan, rfl, files, index, (openSource_numbering _ _ _ _ _ run).2.2⟩

end Reading

end LibMpq
