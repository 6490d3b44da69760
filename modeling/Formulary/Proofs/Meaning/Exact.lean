import Formulary.Exact.Basic
import Formulary.Proofs.Meaning.Power
import Mathlib.Tactic.Linarith
import Mathlib.Tactic.FieldSimp

/-!
Exact powers and roots over the reals.

Whatever `Exact.power` and `Exact.root?` answer is the power or root: the candidate of a root comes
from a rounded double, but only its exact check is used here. What they refuse is not covered.
-/

namespace Formulary.Exact

theorem divide_eq_ok {a b q : Rat} (h : divide a b = .ok q) : b ≠ 0 ∧ q = a / b := by
  unfold divide at h
  split at h
  · cases h
  · rename_i hb
    exact ⟨hb, by cases h; rfl⟩

/-- A power that is computed is the integer power, and a negative one is not of zero. -/
theorem power_eq_ok {q r : Rat} {n : Int} (h : power q n = .ok r) :
    r = q ^ n ∧ (q ≠ 0 ∨ 0 ≤ n) := by
  unfold power at h
  split at h
  · cases h
  · split at h
    · rename_i hn
      obtain ⟨hq, rfl⟩ := divide_eq_ok h
      have hbase : q ≠ 0 := by
        rintro rfl
        exact hq (zero_pow (by omega))
      refine ⟨?_, .inl hbase⟩
      obtain ⟨k, rfl⟩ : ∃ k : ℕ, n = -(k : ℤ) := ⟨n.natAbs, by omega⟩
      simp
    · rename_i hn
      cases h
      obtain ⟨k, rfl⟩ : ∃ k : ℕ, n = (k : ℤ) := ⟨n.natAbs, by omega⟩
      exact ⟨by simp, .inr (by omega)⟩

/-- A degree in the signed 32-bit range is read as it is. -/
theorem bmod_of_fitsInt32 {n : Nat} (hn : fitsInt32 n) : Int.bmod n 4294967296 = n := by
  simp only [fitsInt32, Bool.and_eq_true, decide_eq_true_eq] at hn
  obtain ⟨-, hn⟩ := hn
  have h : (n : Int) % ((4294967296 : Nat) : Int) = n := Int.emod_eq_of_lt (by omega) (by omega)
  rw [Int.bmod_def, h, if_pos (by omega)]

/-- A candidate that passes the check is the root. -/
theorem integerRoot?_pow {v n c : Nat} (hn : fitsInt32 n) (h : integerRoot? v n = some c) :
    c ^ n = v := by
  unfold integerRoot? at h
  rw [bmod_of_fitsInt32 hn] at h
  cases hr : Double.roundToNat? (Float.pow (Double.ofRat v) (1.0 / n.toFloat)) with
  | none => simp only [hr] at h; cases h
  | some candidate =>
    cases hp : power candidate n with
    | error e => simp only [hr, hp] at h; cases h
    | ok p =>
      simp only [hr, hp] at h
      split at h
      · rename_i hv
        cases h
        obtain ⟨rfl, _⟩ := power_eq_ok hp
        rw [zpow_natCast] at hv
        exact_mod_cast hv
      · cases h

/-- The magnitude of the numerator over the denominator is the magnitude. -/
theorem natAbs_num_div_den (q : Rat) : (q.num.natAbs : Rat) / q.den = |q| := by
  rw [Nat.cast_natAbs, Int.cast_abs, ← Nat.abs_cast q.den, ← abs_div, Rat.num_div_den]

theorem eq_of_toInt32? {q : Rat} {n : ℤ} (h : toInt32? q = some n) : q = n := by
  unfold toInt32? at h
  split at h
  · rename_i hint
    simp only [Bool.and_eq_true, decide_eq_true_eq] at hint
    cases h
    exact ((Rat.den_eq_one_iff q).1 hint.1).symm
  · cases h

/-- A root of degree two or more is found just if those of numerator and denominator are; it has the
sign of the number, which is negative for odd degrees only. -/
theorem root?_eq_some {q r : Rat} {n : Nat} (hn : 2 ≤ n) :
    root? q n = some r ↔ (q < 0 → n % 2 = 1) ∧ ∃ a b, integerRoot? q.num.natAbs n = some a ∧
      integerRoot? q.den n = some b ∧ b ≠ 0 ∧ r = if q < 0 then -((a : Rat) / b) else (a : Rat) / b := by
  unfold root?
  rw [if_neg (by omega), if_neg (by omega)]
  have hsign : (decide (q < 0) && decide (n % 2 = 0)) = true ↔ ¬ (q < 0 → n % 2 = 1) := by
    simp
  constructor
  · intro h
    split at h
    · cases h
    rename_i hnot
    refine ⟨not_not.mp (mt hsign.mpr hnot), ?_⟩
    split at h
    · rename_i a b ha hb
      split at h
      · rename_i x hx
        obtain ⟨hb0, rfl⟩ := divide_eq_ok hx
        cases h
        exact ⟨a, b, ha, hb, by exact_mod_cast hb0, rfl⟩
      · cases h
    · cases h
  · rintro ⟨hodd, a, b, ha, hb, hb0, rfl⟩
    have hdivide : divide (a : Rat) b = .ok ((a : Rat) / b) := by
      rw [divide, if_neg (Nat.cast_ne_zero.mpr hb0)]
    rw [if_neg (not_not.mpr hodd ∘ hsign.mp)]
    simp only [ha, hb, hdivide]

/-- A fraction of roots of the numerator and the denominator is a root of the magnitude. -/
theorem div_pow_eq_abs {q : Rat} {a b n : Nat} (ha : a ^ n = q.num.natAbs) (hb : b ^ n = q.den) :
    ((a : Rat) / b) ^ n = |q| := by
  rw [div_pow, ← natAbs_num_div_den, ← ha, ← hb]
  push_cast
  rfl

/-- A root of the magnitude, with the sign of the number, is a root of the number. -/
theorem signed_pow {q x : Rat} {n : Nat} (hodd : q < 0 → n % 2 = 1) (h : x ^ n = |q|) :
    (if q < 0 then -x else x) ^ n = q := by
  by_cases hq : q < 0
  · rw [if_pos hq, Odd.neg_pow (Nat.odd_iff.mpr (hodd hq)), h, abs_of_neg hq, neg_neg]
  · rw [if_neg hq, h, abs_of_nonneg (not_lt.mp hq)]

/-- A root that is found is exact, and has the sign of its radicand. -/
theorem root?_pow {q r : Rat} {n : Nat} (hn : fitsInt32 n) (h : root? q n = some r) :
    r ^ n = q ∧ (0 ≤ q → 0 ≤ r) ∧ (n ≠ 1 → q < 0 → n % 2 = 1) := by
  by_cases hzero : n = 0
  · subst hzero
    simp [root?] at h
  by_cases hone : n = 1
  · subst hone
    obtain rfl : q = r := by simpa [root?] using h
    exact ⟨pow_one q, id, fun h => absurd rfl h⟩
  obtain ⟨hodd, a, b, ha, hb, -, rfl⟩ := (root?_eq_some (by omega)).mp h
  refine ⟨signed_pow hodd (div_pow_eq_abs (integerRoot?_pow hn ha) (integerRoot?_pow hn hb)),
    fun hq => ?_, fun _ => hodd⟩
  rw [if_neg (not_lt.mpr hq)]
  positivity

end Formulary.Exact
