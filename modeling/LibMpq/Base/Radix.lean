import Mathlib.Algebra.Order.Ring.Int
import Mathlib.Tactic.LinearCombination
import Mathlib.Tactic.Linarith
import Mathlib.Tactic.Ring

set_option autoImplicit false

namespace Radix

variable {α β γ δ : Type}

/-- What the digits of a list stand for. -/
def number (base : ℤ) (digit : α → ℤ) : List α → ℤ
  | [] => 0
  | d :: rest => digit d + base * number base digit rest

theorem number_bounds {base : ℤ} {digit : α → ℤ} (fits : ∀ d, 0 ≤ digit d ∧ digit d < base) (ds : List α) :
    0 ≤ number base digit ds ∧ number base digit ds < base ^ ds.length := by
  induction ds with
  | nil => simp [number]
  | cons d rest ih =>
    obtain ⟨low, high⟩ := fits d
    have scaled : base * number base digit rest ≤ base * (base ^ rest.length - 1) :=
      Int.mul_le_mul_of_nonneg_left (by omega) (by omega)
    rw [number, List.length_cons, pow_succ]
    refine ⟨add_nonneg low (mul_nonneg (by omega) ih.1), ?_⟩
    linarith [mul_comm base (base ^ rest.length)]

theorem number_append (base : ℤ) (digit : α → ℤ) (low high : List α) :
    number base digit (low ++ high) = number base digit low + base ^ low.length * number base digit high := by
  induction low with
  | nil => simp [number]
  | cons d rest ih =>
    rw [List.cons_append, number, ih, number, List.length_cons, pow_succ]
    ring

/-- A loop over two lists of digits: what it stores, and the carry it ends with. -/
def chain (step : α → β → γ → δ × γ) : List α → List β → γ → List δ × γ
  | a :: as, b :: bs, carry =>
    let first := step a b carry
    let rest := chain step as bs first.2
    (first.1 :: rest.1, rest.2)
  | _, _, carry => ([], carry)

variable {step : α → β → γ → δ × γ}

theorem chain_length {as : List α} {bs : List β} (same : bs.length = as.length) (carry : γ) :
    (chain step as bs carry).1.length = as.length := by
  induction as generalizing bs carry with
  | nil => simp [chain]
  | cons a as ih =>
    cases bs with
    | nil => cases same
    | cons b bs => simp [chain, @ih bs (by simpa using same)]

theorem chain_number {base scale : ℤ} {fits : γ → Prop} {digitA : α → ℤ} {digitB : β → ℤ} {digit : δ → ℤ}
    {weight : γ → ℤ}
    (exact : ∀ a b carry, fits carry → fits (step a b carry).2 ∧
      digit (step a b carry).1 + base * weight (step a b carry).2 = digitA a + scale * digitB b + weight carry)
    {as : List α} {bs : List β} (same : bs.length = as.length) {carry : γ} (start : fits carry) :
    fits (chain step as bs carry).2 ∧
      number base digit (chain step as bs carry).1 + base ^ as.length * weight (chain step as bs carry).2 =
        number base digitA as + scale * number base digitB bs + weight carry := by
  induction as generalizing bs carry with
  | nil =>
    obtain rfl := List.eq_nil_of_length_eq_zero same
    simpa [chain, number] using start
  | cons a as ih =>
    cases bs with
    | nil => cases same
    | cons b bs =>
      obtain ⟨next, first⟩ := exact a b carry start
      obtain ⟨last, rest⟩ := @ih bs (by simpa using same) _ next
      refine ⟨last, ?_⟩
      simp only [chain, number, List.length_cons, pow_succ]
      linear_combination first + base * rest

theorem chain_difference {step : α → α → γ → α × γ} {base : Nat} {digit : α → Nat} {weight : γ → Nat} {read : List α → Nat}
    (number : ∀ x, number base (fun d => (digit d : ℤ)) x = read x)
    (exact : ∀ a b borrow, weight borrow ≤ 1 → weight (step a b borrow).2 ≤ 1 ∧
      (digit (step a b borrow).1 : ℤ) + base * -(weight (step a b borrow).2 : ℤ) =
        digit a + -1 * (digit b : ℤ) + -(weight borrow : ℤ))
    {as bs : List α} (same : bs.length = as.length) {start : γ} (none : weight start = 0) :
    weight (chain step as bs start).2 ≤ 1 ∧
      read (chain step as bs start).1 + read bs = read as + base ^ as.length * weight (chain step as bs start).2 := by
  obtain ⟨fits, total⟩ := @chain_number α α γ α step base (-1) (fun borrow => weight borrow ≤ 1) (fun d => (digit d : ℤ))
    (fun d => (digit d : ℤ)) (fun d => (digit d : ℤ)) (fun borrow => -(weight borrow : ℤ)) exact as bs same start (by omega)
  rw [number, number, number, none, Nat.cast_zero] at total
  refine ⟨fits, ?_⟩
  zify
  linarith

structure Holds (read : List α → Nat) (count : Nat) (x : List α) (v : Nat) : Prop where
  length : x.length = count
  value : read x = v

theorem Holds.select {read : List α → Nat} {count u v : Nat} {x y : List α} {pick : α → α → α} {chosen : Prop}
    [Decidable chosen] (picks : ∀ a b, pick a b = if chosen then a else b) (first : Holds read count x u)
    (second : Holds read count y v) : Holds read count (List.zipWith pick x y) (if chosen then u else v) := by
  have same : x.length = y.length := first.length.trans second.length.symm
  obtain rfl : pick = fun a b => if chosen then a else b := funext fun a => funext (picks a)
  by_cases yes : chosen
  · simp only [if_pos yes]
    have taken : List.zipWith (fun a _ => a) x y = x :=
      (List.map_zip_eq_zipWith (f := Prod.fst)).symm.trans (List.map_fst_zip same.le)
    rwa [taken]
  · simp only [if_neg yes]
    have taken : List.zipWith (fun _ b => b) x y = y :=
      (List.map_zip_eq_zipWith (f := Prod.snd)).symm.trans (List.map_snd_zip same.ge)
    rwa [taken]

theorem subtract_once {top n sum reduced carry borrow t : Nat} (total : t = sum + top * carry)
    (difference : reduced + n = sum + top * borrow) (small : borrow ≤ 1) (fits : reduced < top) :
    (if carry ≠ 0 ∨ borrow = 0 then reduced else sum) = if t ≥ n then (t - n) % top else t := by
  by_cases taken : carry ≠ 0 ∨ borrow = 0
  · have le : borrow ≤ carry := by omega
    have scaled := Nat.mul_le_mul_left top le
    have rest : t = n + (reduced + top * (carry - borrow)) := by
      rw [Nat.mul_sub]
      omega
    rw [if_pos taken, rest, if_pos (Nat.le_add_right _ _), Nat.add_sub_cancel_left, Nat.add_mul_mod_self_left,
      Nat.mod_eq_of_lt fits]
  · obtain ⟨rfl, rfl⟩ : carry = 0 ∧ borrow = 1 := by omega
    rw [if_neg taken, if_neg (by omega), total, Nat.mul_zero, Nat.add_zero]

end Radix
