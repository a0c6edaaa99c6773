import Mathlib.Tactic.Common

set_option autoImplicit false

namespace Bits

def has (flags bits : UInt32) : Bool := flags &&& bits != 0

theorem flags_and_or (flags a b : UInt32) : flags &&& (a ||| b) = (flags &&& a) ||| (flags &&& b) := by
  apply UInt32.toBitVec_inj.mp
  ext i
  simp [Bool.and_or_distrib_left]

theorem or_and_flags (a b flags : UInt32) : (a ||| b) &&& flags = (a &&& flags) ||| (b &&& flags) := by
  rw [UInt32.and_comm, flags_and_or, UInt32.and_comm flags, UInt32.and_comm flags]

theorem has_or (flags a b : UInt32) : has flags (a ||| b) = (has flags a || has flags b) := by
  rw [has, has, has, flags_and_or, Bool.eq_iff_iff]
  simp only [bne_iff_ne, ne_eq, UInt32.or_eq_zero_iff, Bool.or_eq_true]
  exact Decidable.not_and_iff_not_or_not

theorem or_has (a b bits : UInt32) : has (a ||| b) bits = (has a bits || has b bits) := by
  rw [has, has, has, or_and_flags, Bool.eq_iff_iff]
  simp only [bne_iff_ne, ne_eq, UInt32.or_eq_zero_iff, Bool.or_eq_true]
  exact Decidable.not_and_iff_not_or_not

theorem has_clear {flags bits cleared : UInt32} (disjoint : bits &&& cleared = 0) :
    has (flags &&& ~~~cleared) bits = has flags bits := by
  have same : flags &&& ~~~cleared &&& bits = flags &&& bits := by
    apply UInt32.toBitVec_inj.mp
    ext i inside
    have bit : (bits.toBitVec[i] && cleared.toBitVec[i]) = false := by
      have word := congrArg (fun word => word.getLsbD i) (congrArg UInt32.toBitVec disjoint)
      simpa [BitVec.getLsbD_eq_getElem inside] using word
    simp only [UInt32.toBitVec_and, UInt32.toBitVec_not, BitVec.getElem_and, BitVec.getElem_not]
    generalize flags.toBitVec[i] = f, bits.toBitVec[i] = b, cleared.toBitVec[i] = c at bit ⊢
    revert f b c
    decide
  rw [has, has, same]

theorem has_clear_self (flags cleared : UInt32) : has (flags &&& ~~~cleared) cleared = false := by
  have none : flags &&& ~~~cleared &&& cleared = 0 := by
    apply UInt32.toBitVec_inj.mp
    ext i inside
    simp
  rw [has, none]
  rfl

theorem clear_clear (flags a b : UInt32) : flags &&& ~~~a &&& ~~~b = flags &&& ~~~b &&& ~~~a := by
  rw [UInt32.and_assoc, UInt32.and_comm (~~~a), ← UInt32.and_assoc]

theorem has_known {flags known : UInt32} (subset : flags &&& ~~~known = 0) (bits : UInt32) :
    has flags bits = has flags (bits &&& known) := by
  have same : flags &&& bits = flags &&& (bits &&& known) := by
    apply UInt32.toBitVec_inj.mp
    ext i inside
    have bit : (flags.toBitVec[i] && !known.toBitVec[i]) = false := by
      have word := congrArg (fun word => word.getLsbD i) (congrArg UInt32.toBitVec subset)
      simpa [BitVec.getLsbD_eq_getElem inside] using word
    simp only [UInt32.toBitVec_and, BitVec.getElem_and]
    generalize flags.toBitVec[i] = f, bits.toBitVec[i] = b, known.toBitVec[i] = k at bit ⊢
    revert f b k
    decide
  rw [has, has, same]

def Single (bit : UInt32) : Prop := ∃ i, bit.toBitVec = BitVec.twoPow 32 i

theorem Single.and_eq {bit : UInt32} (single : Single bit) {flags : UInt32}
    (set : has flags bit = true) : flags &&& bit = bit := by
  obtain ⟨i, power⟩ := single
  apply UInt32.toBitVec_inj.mp
  have nonzero : (flags &&& bit).toBitVec ≠ 0 := by
    intro zero
    simp [has, UInt32.toBitVec_inj.mp (zero.trans rfl : _ = (0 : UInt32).toBitVec)] at set
  rw [UInt32.toBitVec_and, power, BitVec.and_twoPow] at nonzero ⊢
  split at nonzero
  · rename_i isSet
    rw [if_pos isSet]
  · exact absurd rfl nonzero

theorem Single.or_eq {bit : UInt32} (single : Single bit) {flags : UInt32}
    (set : has flags bit = true) : flags ||| bit = flags := by
  apply UInt32.toBitVec_inj.mp
  have both := congrArg UInt32.toBitVec (single.and_eq set)
  ext i inside
  have inner : (flags.toBitVec[i] && bit.toBitVec[i]) = bit.toBitVec[i] := by
    have word := congrArg (fun word => word.getLsbD i) both
    simpa [BitVec.getLsbD_eq_getElem inside] using word
  rw [UInt32.toBitVec_or, BitVec.getElem_or]
  generalize flags.toBitVec[i] = f, bit.toBitVec[i] = b at inner ⊢
  revert f b
  decide

end Bits
