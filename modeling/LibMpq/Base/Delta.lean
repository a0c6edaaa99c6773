import Mathlib.Algebra.Order.Ring.Nat
import Mathlib.Tactic.Common

set_option autoImplicit false

namespace Delta

variable {α : Type}

structure Step where
  add : Nat
  copy : Nat
  move : Int

def adds (steps : List Step) : Nat := (steps.map Step.add).sum

def copies (steps : List Step) : Nat := (steps.map Step.copy).sum

/-- Where in the base the steps lead to. -/
def position (steps : List Step) (source : Int) : Int :=
  steps.foldl (fun source step => source + step.add + step.move) source

/-- Differences added to the base from a position on. -/
def mix [Add α] (base : Int → α) (source : Int) (deltas : List α) : List α :=
  deltas.mapIdx fun i difference => difference + base (source + i)

def replay [Add α] (base : Int → α) : List Step → Int → List α → List α → List α
  | [], _, _, _ => []
  | step :: rest, source, deltas, extras =>
    mix base source (deltas.take step.add) ++ extras.take step.copy ++
      replay base rest (source + step.add + step.move) (deltas.drop step.add) (extras.drop step.copy)

@[simp] theorem adds_nil : adds [] = 0 := rfl

@[simp] theorem adds_cons (step : Step) (rest : List Step) : adds (step :: rest) = step.add + adds rest := rfl

@[simp] theorem copies_nil : copies [] = 0 := rfl

@[simp] theorem copies_cons (step : Step) (rest : List Step) :
    copies (step :: rest) = step.copy + copies rest := rfl

@[simp] theorem adds_append (first second : List Step) :
    adds (first ++ second) = adds first + adds second := by
  simp [adds]

@[simp] theorem copies_append (first second : List Step) :
    copies (first ++ second) = copies first + copies second := by
  simp [copies]

theorem position_append (first second : List Step) (source : Int) :
    position (first ++ second) source = position second (position first source) :=
  List.foldl_append

section mix

variable [Add α] {base : Int → α}

@[simp] theorem mix_length (source : Int) (deltas : List α) : (mix base source deltas).length = deltas.length :=
  List.length_mapIdx

theorem mix_append (source : Int) (first second : List α) :
    mix base source (first ++ second) = mix base source first ++ mix base (source + first.length) second := by
  rw [mix, List.mapIdx_append, mix, mix]
  congr 1
  congr 1
  funext i difference
  have place : source + ((i + first.length : Nat) : Int) = source + first.length + i := by omega
  rw [place]

theorem mix_differences {G : Type} [AddGroup G] {base : Int → G} {source : Int} {old new : List G}
    (same : old.length = new.length)
    (held : ∀ i (h : i < old.length), base (source + i) = old[i]) :
    mix base source (List.zipWith (fun a b => a - b) new old) = new := by
  apply List.ext_getElem
  · rw [mix_length, List.length_zipWith, same, Nat.min_self]
  · intro i inside below
    simp only [mix, List.getElem_mapIdx, List.getElem_zipWith]
    rw [held i (same ▸ below), sub_add_cancel]

theorem replay_append (first second : List Step) (source : Int) (deltas extras : List α) :
    replay base (first ++ second) source deltas extras =
      replay base first source deltas extras ++
        replay base second (position first source) (deltas.drop (adds first))
          (extras.drop (copies first)) := by
  induction first generalizing source deltas extras with
  | nil => rfl
  | cons step rest ih =>
    rw [List.cons_append, replay, replay, ih, List.append_assoc (_ ++ _), adds_cons, copies_cons,
      List.drop_drop, List.drop_drop]
    rfl

end mix

end Delta
