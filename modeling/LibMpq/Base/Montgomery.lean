import Mathlib.Data.Nat.ModEq
import Mathlib.Logic.Function.Iterate
import Mathlib.Tactic.Linarith
import Mathlib.Tactic.Ring

set_option autoImplicit false

namespace Montgomery

def newton {R : Type} [CommRing R] (a x : R) : R := x * (2 - a * x)

theorem newton_error {R : Type} [CommRing R] (a x : R) (k : Nat) :
    1 - a * (newton a)^[k] x = (1 - a * x) ^ 2 ^ k := by
  induction k with
  | zero => simp
  | succ k ih =>
    rw [Function.iterate_succ_apply', newton, pow_succ 2 k, pow_mul, ← ih]
    ring

section reduction

variable {base n inverse : Nat}

def quotient (base inverse t : Nat) : Nat := t % base * inverse % base

def reduce (base n inverse t : Nat) : Nat := (t + quotient base inverse t * n) / base

theorem base_mul_reduce (negated : base ∣ n * inverse + 1) (t : Nat) :
    base * reduce base n inverse t = t + quotient base inverse t * n := by
  refine Nat.mul_div_cancel' ?_
  rw [← Nat.modEq_zero_iff_dvd]
  have low : quotient base inverse t ≡ t * inverse [MOD base] :=
    (Nat.mod_modEq _ _).trans ((Nat.mod_modEq t base).mul_right inverse)
  calc t + quotient base inverse t * n
      ≡ t + t * inverse * n [MOD base] := (low.mul_right n).add_left t
    _ = t * (n * inverse + 1) := by ring
    _ ≡ t * 0 [MOD base] := ((Nat.modEq_zero_iff_dvd.mpr negated)).mul_left t

theorem reduce_lt {t a d : Nat} (positive : 0 < base) (small : t < 2 * n) (reduced : a ≤ n) (digit : d < base) :
    reduce base n inverse (t + a * d) < 2 * n := by
  have first : a * d ≤ n * (base - 1) := Nat.mul_le_mul reduced (by omega)
  have second : quotient base inverse (t + a * d) * n ≤ (base - 1) * n :=
    Nat.mul_le_mul_right n (by have := Nat.mod_lt ((t + a * d) % base * inverse) positive; rw [quotient]; omega)
  obtain ⟨rest, rfl⟩ : ∃ rest, base = rest + 1 := ⟨base - 1, by omega⟩
  refine Nat.div_lt_of_lt_mul ?_
  rw [Nat.add_sub_cancel] at first second
  linarith

/-- The sum after the first digits of `b`. -/
def rounds (base n inverse a b : Nat) : Nat → Nat
  | 0 => 0
  | i + 1 => reduce base n inverse (rounds base n inverse a b i + a * (b / base ^ i % base))

theorem rounds_lt {a : Nat} (positive : 0 < base) (some : 0 < n) (reduced : a ≤ n) (b i : Nat) :
    rounds base n inverse a b i < 2 * n := by
  induction i with
  | zero => rw [rounds]; omega
  | succ i ih => exact reduce_lt positive ih reduced (Nat.mod_lt _ positive)

theorem rounds_modEq (negated : base ∣ n * inverse + 1) (a b i : Nat) :
    base ^ i * rounds base n inverse a b i ≡ a * (b % base ^ i) [MOD n] := by
  induction i with
  | zero => simp [rounds, Nat.mod_one, Nat.ModEq.refl]
  | succ i ih =>
    have multiple : ∀ q, base ^ i * (q * n) ≡ 0 [MOD n] := fun q =>
      Nat.modEq_zero_iff_dvd.mpr ⟨base ^ i * q, by ring⟩
    rw [rounds, pow_succ, mul_assoc, base_mul_reduce negated, mul_add, mul_add, Nat.mod_mul, mul_add]
    have kept := ih.add_right (base ^ i * (a * (b / base ^ i % base)))
    have done := kept.add (multiple (quotient base inverse
      (rounds base n inverse a b i + a * (b / base ^ i % base))))
    rw [add_zero] at done
    rw [mul_left_comm a]
    exact done

def finish (n t : Nat) : Nat := if t ≥ n then t - n else t

theorem finish_lt {t : Nat} (small : t < 2 * n) : finish n t < n := by
  unfold finish
  split <;> omega

theorem finish_modEq (n t : Nat) : finish n t ≡ t [MOD n] := by
  unfold finish
  split
  next enough =>
    have sum : t - n + n = t := by omega
    calc t - n ≡ t - n + n [MOD n] := Nat.ModEq.symm (by simp [Nat.ModEq])
      _ = t := sum
  next => exact Nat.ModEq.refl t

theorem product_modEq {words a b : Nat} (negated : base ∣ n * inverse + 1) (fits : b < base ^ words) :
    base ^ words * finish n (rounds base n inverse a b words) ≡ a * b [MOD n] := by
  have whole := rounds_modEq negated a b words
  rw [Nat.mod_eq_of_lt fits] at whole
  exact ((finish_modEq n _).mul_left _).trans whole

end reduction

end Montgomery
