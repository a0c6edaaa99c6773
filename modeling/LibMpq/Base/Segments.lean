import LibMpq.Base.File

set_option autoImplicit false

namespace Segments

def join (segment : Nat → Bytes) (count : Nat) : Bytes := (List.range count).flatMap segment

/-- Where a segment starts behind the ones before it. -/
def start (segment : Nat → Bytes) (i : Nat) : Nat := (join segment i).length

variable {segment : Nat → Bytes}

@[simp] theorem join_zero (segment : Nat → Bytes) : join segment 0 = [] := rfl

@[simp] theorem start_zero (segment : Nat → Bytes) : start segment 0 = 0 := rfl

theorem join_succ (segment : Nat → Bytes) (i : Nat) :
    join segment (i + 1) = join segment i ++ segment i := by
  simp [join, List.range_succ]

theorem start_succ (segment : Nat → Bytes) (i : Nat) :
    start segment (i + 1) = start segment i + (segment i).length := by
  simp [start, join_succ]

theorem start_mono (segment : Nat → Bytes) {i j : Nat} (le : i ≤ j) :
    start segment i ≤ start segment j := by
  induction j with
  | zero =>
    cases Nat.le_zero.mp le
    exact le_rfl
  | succ j ih =>
    by_cases last : i = j + 1
    · rw [last]
    · rw [start_succ]
      exact (ih (by omega)).trans (Nat.le_add_right _ _)

theorem join_congr {other : Nat → Bytes} {count : Nat} (same : ∀ i, i < count → segment i = other i) :
    join segment count = join other count := by
  induction count with
  | zero => rfl
  | succ count ih =>
    rw [join_succ, join_succ, ih fun i below => same i (by omega), same count (by omega)]

theorem start_congr {other : Nat → Bytes} {i : Nat} (same : ∀ j, j < i → segment j = other j) :
    start segment i = start other i := by
  rw [start, start, join_congr same]

theorem start_of_lengths {other : Nat → Bytes} (same : ∀ i, (segment i).length = (other i).length)
    (i : Nat) : start segment i = start other i := by
  induction i with
  | zero => rfl
  | succ i ih => rw [start_succ, start_succ, ih, same]

theorem holds_of_join {f : File} {pos count i : Nat} (holds : f.Holds pos (join segment count))
    (below : i < count) : f.Holds (pos + start segment i) (segment i) := by
  induction count with
  | zero => omega
  | succ count ih =>
    rw [join_succ, File.holds_append] at holds
    by_cases last : i = count
    · rw [last]
      exact holds.2
    · exact ih holds.1 (by omega)

end Segments
