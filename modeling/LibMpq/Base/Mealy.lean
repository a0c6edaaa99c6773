import Mathlib.Data.List.Basic

set_option autoImplicit false

-- One output for each input, both depending on a state that the inputs drive.

structure Mealy (σ α β : Type) where
  next : σ → α → σ
  out : σ → α → β

namespace Mealy

variable {σ α β : Type} (m : Mealy σ α β)

def run : σ → List α → List β
  | _, [] => []
  | s, a :: rest => m.out s a :: run (m.next s a) rest

def after : σ → List α → σ
  | s, [] => s
  | s, a :: rest => after (m.next s a) rest

@[simp] theorem run_length (s : σ) (input : List α) : (m.run s input).length = input.length := by
  induction input generalizing s with
  | nil => rfl
  | cons a rest ih => simp [run, ih]

theorem run_append (s : σ) (first second : List α) :
    m.run s (first ++ second) = m.run s first ++ m.run (m.after s first) second := by
  induction first generalizing s with
  | nil => rfl
  | cons a rest ih => simp [run, after, ih]

/-- One machine takes back what the other does, and follows its states. -/
structure Undoes (d : Mealy σ β α) (e : Mealy σ α β) : Prop where
  out : ∀ s a, d.out s (e.out s a) = a
  next : ∀ s a, d.next s (e.out s a) = e.next s a

theorem Undoes.run {d : Mealy σ β α} {e : Mealy σ α β} (undoes : Undoes d e) (s : σ) (input : List α) :
    d.run s (e.run s input) = input := by
  induction input generalizing s with
  | nil => rfl
  | cons a rest ih =>
    have later := ih (e.next s a)
    simp only [Mealy.run, undoes.out, undoes.next, later]

end Mealy
