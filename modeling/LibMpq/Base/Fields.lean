import Mathlib.Algebra.Order.Ring.Nat
import Mathlib.Data.List.TakeWhile
import Mathlib.Tactic.Common

set_option autoImplicit false

namespace Fields

variable {α : Type} {sep : α → Bool}

noncomputable def runs (sep : α → Bool) (data : List α) : List (List α) :=
  (data.splitOnP sep).filter fun run => !run.isEmpty

theorem runs_nil : runs sep [] = [] := rfl

theorem runs_append_cons (first rest : List α) {s : α} (separates : sep s = true) :
    runs sep (first ++ s :: rest) = runs sep first ++ runs sep rest := by
  simp [runs, List.splitOnP_append_cons first rest separates]

theorem runs_sep {s : α} (separates : sep s = true) (rest : List α) :
    runs sep (s :: rest) = runs sep rest :=
  runs_append_cons [] rest separates

theorem runs_whole {first : List α} (clean : ∀ x ∈ first, sep x = false) :
    runs sep first = if first = [] then [] else [first] := by
  cases first with
  | nil => rfl
  | cons x rest => simp [runs, List.splitOnP_eq_singleton clean]

theorem runs_dropWhile (data : List α) : runs sep (data.dropWhile sep) = runs sep data := by
  induction data with
  | nil => rfl
  | cons x rest ih =>
    cases separates : sep x with
    | true => rw [List.dropWhile_cons_of_pos separates, ih, runs_sep separates]
    | false => rw [List.dropWhile_cons_of_neg (by simp [separates])]

/-- The field at the front of a text, which may be empty. -/
def front (sep : α → Bool) (data : List α) : List α := data.takeWhile fun x => !sep x

/-- What follows the front field and the separators behind it. -/
def behind (sep : α → Bool) (data : List α) : List α :=
  (data.dropWhile fun x => !sep x).dropWhile sep

theorem front_clean (data : List α) : ∀ x ∈ front sep data, sep x = false := by
  intro x inside
  simpa using List.mem_takeWhile_imp inside

theorem front_subset {data : List α} {x : α} (inside : x ∈ front sep data) : x ∈ data :=
  (List.takeWhile_sublist _).subset inside

theorem behind_subset {data : List α} {x : α} (inside : x ∈ behind sep data) : x ∈ data :=
  (List.dropWhile_sublist _).subset ((List.dropWhile_sublist _).subset inside)

theorem runs_scan (data : List α) :
    runs sep data = (if front sep data = [] then [] else [front sep data]) ++
      runs sep (behind sep data) := by
  have parts : front sep data ++ data.dropWhile (fun x => !sep x) = data :=
    List.takeWhile_append_dropWhile
  rw [behind, runs_dropWhile, ← runs_whole (front_clean data)]
  cases rest : data.dropWhile (fun x => !sep x) with
  | nil =>
    rw [rest, List.append_nil] at parts
    rw [parts, runs_nil, List.append_nil]
  | cons s rest' =>
    have separates : sep s = true := by
      have head := List.head_dropWhile_not (fun x => !sep x) (show data.dropWhile _ ≠ [] by simp [rest])
      simpa [rest] using head
    rw [rest] at parts
    rw [runs_sep separates, ← runs_append_cons _ _ separates, parts]

theorem scan_length (data : List α) : (front sep data).length + (behind sep data).length ≤ data.length := by
  have parts := congrArg List.length
    (List.takeWhile_append_dropWhile (p := fun x => !sep x) (l := data))
  rw [List.length_append] at parts
  have shorter := (List.dropWhile_sublist (p := sep) (l := data.dropWhile fun x => !sep x)).length_le
  unfold front behind
  omega

theorem behind_length {data : List α} (more : data ≠ []) :
    (behind sep data).length < data.length ∧
      (behind sep data ≠ [] → (front sep data).length + (behind sep data).length < data.length) := by
  have parts := congrArg List.length
    (List.takeWhile_append_dropWhile (p := fun x => !sep x) (l := data))
  rw [List.length_append] at parts
  have positive : 0 < data.length := List.length_pos_iff.mpr more
  unfold front behind
  cases rest : data.dropWhile (fun x => !sep x) with
  | nil => simpa using positive
  | cons s rest' =>
    have separates : sep s = true := by
      have head := List.head_dropWhile_not (fun x => !sep x) (show data.dropWhile _ ≠ [] by simp [rest])
      simpa [rest] using head
    have shorter := (List.dropWhile_sublist (p := sep) (l := rest')).length_le
    rw [rest, List.length_cons] at parts
    rw [List.dropWhile_cons_of_pos separates]
    omega

theorem scan_induction {motive : List α → Prop} (nil : motive [])
    (step : ∀ data, data ≠ [] → motive (behind sep data) → motive data) (data : List α) :
    motive data := by
  by_cases more : data = []
  · rw [more]
    exact nil
  · have shorter := (@behind_length _ sep data more).1
    exact step data more (scan_induction nil step (behind sep data))
termination_by data.length

def scanAll (scan : List α → List α × List α)
    (shrinks : ∀ data, data ≠ [] → (scan data).2.length < data.length) (data : List α) :
    List (List α) :=
  if more : data = [] then []
  else
    have := shrinks data more
    let rest := scanAll scan shrinks (scan data).2
    if (scan data).1 = [] then rest else (scan data).1 :: rest
termination_by data.length

theorem scanAll_runs [DecidableEq α] (shrinks) (data : List α) :
    scanAll (fun data => (front sep data, behind sep data)) shrinks data = runs sep data := by
  induction data using @scan_induction _ sep with
  | nil => rw [scanAll, dif_pos rfl, runs_nil]
  | step data more ih =>
    rw [scanAll, dif_neg more, runs_scan]
    simp only [ih]
    split <;> rfl

theorem mem_runs {data run : List α} (found : run ∈ runs sep data) :
    run ≠ [] ∧ ∀ x ∈ run, sep x = false := by
  induction data using @scan_induction _ sep with
  | nil => exact absurd found List.not_mem_nil
  | step data _ ih =>
    rw [runs_scan, List.mem_append] at found
    obtain here | later := found
    · by_cases empty : front sep data = []
      · rw [if_pos empty] at here
        exact absurd here List.not_mem_nil
      · rw [if_neg empty, List.mem_singleton] at here
        rw [here]
        exact ⟨empty, front_clean data⟩
    · exact ih later

theorem runs_subset {data run : List α} (found : run ∈ runs sep data) {x : α} (inside : x ∈ run) :
    x ∈ data := by
  induction data using @scan_induction _ sep with
  | nil => exact absurd found List.not_mem_nil
  | step data _ ih =>
    rw [runs_scan, List.mem_append] at found
    obtain here | later := found
    · split at here
      next => exact absurd here List.not_mem_nil
      next =>
        rw [List.mem_singleton] at here
        exact front_subset (here ▸ inside)
    · exact behind_subset (ih later)

theorem mem_behind {data : List α} {x : α} (inside : x ∈ data) (kept : sep x = false) :
    x ∈ front sep data ∨ x ∈ behind sep data := by
  have parts : front sep data ++ data.dropWhile (fun x => !sep x) = data :=
    List.takeWhile_append_dropWhile
  rw [← parts, List.mem_append] at inside
  refine inside.imp_right fun later => ?_
  rw [← List.takeWhile_append_dropWhile (p := sep) (l := data.dropWhile fun x => !sep x),
    List.mem_append] at later
  obtain separator | here := later
  · rw [List.mem_takeWhile_imp separator] at kept
    nomatch kept
  · exact here

theorem runs_cover {data : List α} {x : α} (inside : x ∈ data) (kept : sep x = false) :
    ∃ run ∈ runs sep data, x ∈ run := by
  induction data using @scan_induction _ sep with
  | nil => exact absurd inside List.not_mem_nil
  | step data _ ih =>
    rw [runs_scan]
    obtain here | later := mem_behind inside kept
    · refine ⟨front sep data, List.mem_append_left _ ?_, here⟩
      rw [if_neg (List.ne_nil_of_mem here)]
      exact List.mem_singleton_self _
    · obtain ⟨run, found, here⟩ := ih later
      exact ⟨run, List.mem_append_right _ found, here⟩

theorem runs_congr {p q : α → Bool} {data : List α} (same : ∀ x ∈ data, p x = q x) :
    runs p data = runs q data := by
  have split : data.splitOnP p = data.splitOnP q := by
    induction data with
    | nil => rfl
    | cons x rest ih =>
      rw [List.splitOnP_cons_eq_if_modifyHead, List.splitOnP_cons_eq_if_modifyHead,
        same x List.mem_cons_self, ih fun y inside => same y (List.mem_cons_of_mem x inside)]
  rw [runs, split, runs]

theorem runs_room (data : List α) :
    ((runs sep data).map fun run => run.length + 1).sum ≤ data.length + 1 := by
  induction data using @scan_induction _ sep with
  | nil => exact Nat.zero_le _
  | step data more ih =>
    obtain ⟨shorter, room⟩ := @behind_length _ sep data more
    have together := @scan_length _ sep data
    have first : ((if front sep data = [] then [] else [front sep data]).map
        fun run => run.length + 1).sum ≤ (front sep data).length + 1 := by
      split <;> simp
    rw [runs_scan, List.map_append, List.sum_append]
    by_cases last : behind sep data = []
    · rw [last, runs_nil, List.map_nil, List.sum_nil]
      omega
    · have := room last
      omega

end Fields
