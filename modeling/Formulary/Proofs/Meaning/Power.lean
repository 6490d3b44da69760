import Mathlib.Analysis.SpecialFunctions.Pow.Real

/-!
Real powers as a partial operation.

A power is a real number when the base is positive, when the base is zero and the exponent is not
negative, and when the base is negative and the exponent is an integer. Where both sides of one of
the laws that simplification uses are defined, they agree; the laws below say so in the direction in
which they are used, from the powers as written to the power they are merged into.
-/

namespace Formulary

/-- `x ^ y` is a real number; `0 ^ 0` counts as one. -/
def PowerDefined (x y : ℝ) : Prop :=
  0 < x ∨ (x = 0 ∧ 0 ≤ y) ∨ (x < 0 ∧ ∃ n : ℤ, y = n)

open Classical in
/-- The real power, where there is one. -/
noncomputable def realPower? (x y : ℝ) : Option ℝ :=
  if PowerDefined x y then some (x ^ y) else none

theorem realPower?_eq_some {x y v : ℝ} :
    realPower? x y = some v ↔ PowerDefined x y ∧ x ^ y = v := by
  unfold realPower?
  split <;> simp_all

theorem realPower?_zero (x : ℝ) : realPower? x 0 = some 1 := by
  refine realPower?_eq_some.2 ⟨?_, Real.rpow_zero x⟩
  rcases lt_trichotomy x 0 with h | h | h
  · exact .inr (.inr ⟨h, 0, by simp⟩)
  · exact .inr (.inl ⟨h, le_refl 0⟩)
  · exact .inl h

theorem realPower?_one (x : ℝ) : realPower? x 1 = some x := by
  refine realPower?_eq_some.2 ⟨?_, Real.rpow_one x⟩
  rcases lt_trichotomy x 0 with h | h | h
  · exact .inr (.inr ⟨h, 1, by simp⟩)
  · exact .inr (.inl ⟨h, zero_le_one⟩)
  · exact .inl h

/-- An integer exponent asks only that a negative one has a base other than zero. -/
theorem powerDefined_intCast {x : ℝ} {n : ℤ} : PowerDefined x n ↔ x ≠ 0 ∨ 0 ≤ n := by
  constructor
  · rintro (h | ⟨_, h⟩ | ⟨h, _⟩)
    · exact .inl h.ne'
    · exact .inr (by exact_mod_cast h)
    · exact .inl h.ne
  · intro h
    rcases lt_trichotomy x 0 with hx | hx | hx
    · exact .inr (.inr ⟨hx, n, rfl⟩)
    · exact .inr (.inl ⟨hx, by exact_mod_cast h.resolve_left (fun hne => hne hx)⟩)
    · exact .inl hx

theorem realPower?_intCast {x v : ℝ} {n : ℤ} :
    realPower? x n = some v ↔ (x ≠ 0 ∨ 0 ≤ n) ∧ x ^ n = v := by
  rw [realPower?_eq_some, powerDefined_intCast, Real.rpow_intCast]

/-- Powers of one base are merged by adding the exponents. -/
theorem realPower?_add {x a b u v : ℝ} (ha : realPower? x a = some u)
    (hb : realPower? x b = some v) : realPower? x (a + b) = some (u * v) := by
  obtain ⟨da, rfl⟩ := realPower?_eq_some.1 ha
  obtain ⟨db, rfl⟩ := realPower?_eq_some.1 hb
  rcases da with hx | ⟨hx, ha0⟩ | ⟨hx, m, rfl⟩
  · exact realPower?_eq_some.2 ⟨.inl hx, Real.rpow_add hx a b⟩
  · have hb0 : 0 ≤ b := by
      rcases db with h | ⟨_, h⟩ | ⟨h, _⟩
      · exact absurd hx h.ne'
      · exact h
      · exact absurd hx h.ne
    exact realPower?_eq_some.2 ⟨.inr (.inl ⟨hx, add_nonneg ha0 hb0⟩),
      Real.rpow_add_of_nonneg hx.ge ha0 hb0⟩
  · obtain ⟨n, rfl⟩ : ∃ n : ℤ, b = n := by
      rcases db with h | ⟨h, _⟩ | ⟨_, h⟩
      · exact absurd h hx.not_gt
      · exact absurd h hx.ne
      · exact h
    have hmn : (m : ℝ) + n = ((m + n : ℤ) : ℝ) := by push_cast; rfl
    rw [hmn, realPower?_intCast, Real.rpow_intCast, Real.rpow_intCast]
    exact ⟨.inl hx.ne, zpow_add₀ hx.ne m n⟩

/-- An integer power of a power multiplies the exponents. -/
theorem realPower?_mul_intCast {x a u w : ℝ} {n : ℤ} (ha : realPower? x a = some u)
    (hn : realPower? u n = some w) : realPower? x (a * n) = some w := by
  obtain ⟨da, rfl⟩ := realPower?_eq_some.1 ha
  obtain ⟨dn, rfl⟩ := realPower?_intCast.1 hn
  rcases da with hx | ⟨hx, ha0⟩ | ⟨hx, m, rfl⟩
  · refine realPower?_eq_some.2 ⟨.inl hx, ?_⟩
    rw [Real.rpow_mul hx.le, Real.rpow_intCast]
  · subst hx
    refine realPower?_eq_some.2 ⟨.inr (.inl ⟨rfl, ?_⟩), ?_⟩
    · rcases ha0.eq_or_lt with h | h
      · simp [← h]
      · rw [Real.zero_rpow h.ne'] at dn
        exact mul_nonneg ha0 (by exact_mod_cast dn.resolve_left (fun hne => hne rfl))
    · rw [Real.rpow_mul le_rfl, Real.rpow_intCast]
  · have hmn : (m : ℝ) * n = ((m * n : ℤ) : ℝ) := by push_cast; rfl
    rw [hmn, realPower?_intCast, Real.rpow_intCast]
    exact ⟨.inl hx.ne, zpow_mul x m n⟩

/-- An integer power of a product is defined only if those of the factors are, and is their
product. -/
theorem realPower?_mul_base {x y w : ℝ} {n : ℤ} (h : realPower? (x * y) n = some w) :
    ∃ p q, realPower? x n = some p ∧ realPower? y n = some q ∧ w = p * q := by
  obtain ⟨hd, rfl⟩ := realPower?_intCast.1 h
  refine ⟨x ^ n, y ^ n, realPower?_intCast.2 ⟨?_, rfl⟩, realPower?_intCast.2 ⟨?_, rfl⟩,
    mul_zpow x y n⟩
  · exact hd.imp_left left_ne_zero_of_mul
  · exact hd.imp_left right_ne_zero_of_mul

/-- A positive factor of the base comes out of any power. -/
theorem realPower?_mul_pos {x y s : ℝ} (hs : 0 < s) :
    realPower? (x * s) y = (realPower? x y).map (· * s ^ y) := by
  have hneg : x * s < 0 ↔ x < 0 := by
    rw [← mul_lt_mul_iff_of_pos_right hs (b := x), zero_mul]
  have hd : PowerDefined (x * s) y ↔ PowerDefined x y := by
    simp only [PowerDefined, mul_pos_iff_of_pos_right hs, mul_eq_zero, hs.ne', or_false, hneg]
  unfold realPower?
  by_cases h : PowerDefined x y
  · rw [if_pos h, if_pos (hd.2 h), Option.map_some, Option.some.injEq]
    rcases h with hx | ⟨hx, _⟩ | ⟨_, n, rfl⟩
    · exact Real.mul_rpow hx.le hs.le
    · exact Real.mul_rpow hx.ge hs.le
    · simp only [Real.rpow_intCast, mul_zpow]
  · rw [if_neg h, if_neg (fun h' => h (hd.1 h')), Option.map_none]

/-- A power with a negative exponent is the reciprocal of the power with the opposite one. -/
theorem realPower?_neg {x a v : ℝ} (ha : a < 0) (h : realPower? x a = some v) :
    ∃ u, realPower? x (-a) = some u ∧ u ≠ 0 ∧ v = u⁻¹ := by
  obtain ⟨hd, rfl⟩ := realPower?_eq_some.1 h
  rcases hd with hx | ⟨_, h0⟩ | ⟨hx, n, rfl⟩
  · refine ⟨x ^ (-a), realPower?_eq_some.2 ⟨.inl hx, rfl⟩, (Real.rpow_pos_of_pos hx _).ne', ?_⟩
    rw [Real.rpow_neg hx.le, inv_inv]
  · exact absurd h0 ha.not_ge
  · have hn : -(n : ℝ) = ((-n : ℤ) : ℝ) := by push_cast; rfl
    refine ⟨x ^ (-n), ?_, zpow_ne_zero _ hx.ne, ?_⟩
    · rw [hn, realPower?_intCast]
      exact ⟨.inl hx.ne, rfl⟩
    · rw [Real.rpow_intCast, zpow_neg, inv_inv]

end Formulary
