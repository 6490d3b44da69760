import Formulary.Proofs.PhysicalUnit.Tree
import Mathlib.Data.Int.GCD

/-!
Rational powers of dimensions.

The power with a ratio in lowest terms is the root and then the power: each exponent is divided first
and multiplied afterwards. Nothing cancels between the two parts of the ratio, so this refuses no
exponent that the ratio takes to an integer in range, although the product with the numerator alone
may be out of range. Quotients and remainders of words truncate, those of integers here do not; the
degree of a root is positive, so that they agree, and neither overflows.
-/

namespace Formulary.Dimension

variable {d r w : Dimension} {n den : Nat} {num x : Int}

/-! ## Roots and ratios -/

/-- A root is taken if its power gives the dimension back. -/
theorem root_iff : w.root n = some d ↔
    n ≠ 0 ∧ Exact.fitsInt32 n = true ∧ w.powers = (n : ℤ) • d.powers := by
  unfold root
  split
  · rename_i h
    refine ⟨nofun, ?_⟩
    rintro ⟨hn, hfits, -⟩
    simp [hn, hfits] at h
  rename_i h
  obtain ⟨hn, hfits⟩ : n ≠ 0 ∧ Exact.fitsInt32 n = true := by simpa [not_or] using h
  have hn' : (n : ℤ) ≠ 0 := Int.natCast_ne_zero.mpr hn
  split
  · rename_i hall
    have hdvd : ∀ i : Fin 7, (n : ℤ) ∣ w.powers i := fun i =>
      Int.dvd_of_emod_eq_zero (beq_iff_eq.mp (Vector.all_eq_true.mp hall i.1 i.2))
    have hquotient : ∀ i : Fin 7, (w.exponents.map (· / (n : ℤ))).get i = w.powers i / n := fun i =>
      Vector.getElem_map _ i.2
    rw [Option.some_inj]
    constructor
    · rintro rfl
      refine ⟨hn, hfits, funext fun i => ?_⟩
      show w.powers i = n * (w.exponents.map (· / (n : ℤ))).get i
      rw [hquotient, Int.mul_ediv_cancel' (hdvd i)]
    · rintro ⟨-, -, hpowers⟩
      refine powers_injective (funext fun i => (hquotient i).trans ?_)
      rw [hpowers]
      exact Int.mul_ediv_cancel_left _ hn'
  · rename_i hall
    refine ⟨nofun, ?_⟩
    rintro ⟨-, -, hpowers⟩
    refine absurd (Vector.all_eq_true.mpr fun i hi => ?_) hall
    have hi' : w.exponents[i] = n * d.exponents[i] := congrFun hpowers ⟨i, hi⟩
    rw [hi', beq_iff_eq, Int.mul_emod_right]

theorem powRatio_iff : w.powRatio num den = some r ↔
    den ≠ 0 ∧ Exact.fitsInt32 den = true ∧
      ∃ d : Dimension, w.powers = (den : ℤ) • d.powers ∧ Fits (num • d.powers) ∧
        r.powers = num • d.powers := by
  simp only [powRatio, Option.bind_eq_some_iff, root_iff, pow_iff]
  constructor
  · rintro ⟨d, ⟨hden, hfits, hw⟩, hpow⟩
    exact ⟨hden, hfits, d, hw, hpow⟩
  · rintro ⟨hden, hfits, d, hw, hpow⟩
    exact ⟨d, ⟨hden, hfits, hw⟩, hpow⟩

/-! ## Lowest terms -/

/-- The ratio takes an exponent to an integer just if the exponent is a multiple of the
denominator. -/
theorem dvd_mul_iff (hcop : num.natAbs.Coprime den) : (den : ℤ) ∣ num * x ↔ (den : ℤ) ∣ x := by
  refine ⟨fun h => Int.dvd_of_dvd_mul_right_of_gcd_one h ?_, fun h => h.mul_left num⟩
  rw [Int.gcd, Int.natAbs_natCast]
  exact hcop.symm

/-- The ratio takes the exponent to an integer in range. -/
def RatioFits (num : Int) (den : Nat) (x : Int) : Prop :=
  (den : ℤ) ∣ num * x ∧ Exact.fitsInt32 (num * x / den) = true

instance : Decidable (RatioFits num den x) :=
  inferInstanceAs (Decidable ((den : ℤ) ∣ num * x ∧ Exact.fitsInt32 (num * x / den) = true))

theorem powRatio_iff_of_coprime (hden : den ≠ 0) (hcop : num.natAbs.Coprime den) :
    w.powRatio num den = some r ↔ Exact.fitsInt32 den = true ∧
      ∀ i, RatioFits num den (w.powers i) ∧ r.powers i = num * w.powers i / den := by
  have hden' : (den : ℤ) ≠ 0 := Int.natCast_ne_zero.mpr hden
  rw [powRatio_iff]
  constructor
  · rintro ⟨-, hfits, d, hw, hrange, hr⟩
    refine ⟨hfits, fun i => ?_⟩
    have hi : w.powers i = den * d.powers i := congrFun hw i
    have hproduct : num * w.powers i = den * (num * d.powers i) := by rw [hi, mul_left_comm]
    have hquotient : num * w.powers i / den = num * d.powers i := by
      rw [hproduct, Int.mul_ediv_cancel_left _ hden']
    refine ⟨⟨hproduct ▸ dvd_mul_right _ _, ?_⟩, ?_⟩
    · rw [hquotient]
      exact hrange i
    · rw [hquotient]
      exact congrFun hr i
  · rintro ⟨hfits, hall⟩
    obtain ⟨d, hd⟩ := exists_powers (x := fun i => w.powers i / den)
    have hdvd : ∀ i, (den : ℤ) ∣ w.powers i := fun i => (dvd_mul_iff hcop).mp (hall i).1.1
    have hproduct : ∀ i, num * d.powers i = num * w.powers i / den := fun i => by
      rw [hd, Int.mul_ediv_assoc num (hdvd i)]
    refine ⟨hden, hfits, d, funext fun i => ?_, fun i => ?_, funext fun i => ?_⟩
    · show w.powers i = den * d.powers i
      rw [hd, Int.mul_ediv_cancel' (hdvd i)]
    · show Exact.fitsInt32 (num * d.powers i) = true
      rw [hproduct]
      exact (hall i).1.2
    · show r.powers i = num * d.powers i
      rw [hproduct]
      exact (hall i).2

/-! ## Words -/

/-- The product of two words, unless it leaves their range. -/
def checkedMul? (a b : Int32) : Option Int32 :=
  if Exact.fitsInt32 (a.toInt * b.toInt) then some (a * b) else none

/-- What the ratio makes of one exponent, computed on words. -/
def ratioWord? (num den e : Int32) : Option Int32 :=
  if e % den = 0 then checkedMul? (e / den) num else none

section Words

variable {a b c e : Int32}

theorem checkedMul?_eq_some : checkedMul? a b = some c ↔
    Exact.fitsInt32 (a.toInt * b.toInt) = true ∧ c.toInt = a.toInt * b.toInt := by
  unfold checkedMul?
  split
  · rename_i h
    have hproduct : (a * b).toInt = a.toInt * b.toInt := by
      simp only [Exact.fitsInt32, Bool.and_eq_true, decide_eq_true_eq] at h
      rw [Int32.toInt_mul]
      exact Int.bmod_eq_of_le (by omega) (by omega)
    rw [Option.some_inj, ← Int32.toInt_inj, hproduct, eq_comm]
    simp [h]
  · rename_i h
    simp [h]

/-- Nothing remains just if the exponent is a multiple, whatever its sign. -/
theorem mod_eq_zero_iff : e % b = 0 ↔ b.toInt ∣ e.toInt := by
  rw [← Int32.toInt_inj, Int32.toInt_mod, Int.dvd_iff_tmod_eq_zero]
  rfl

/-- The quotient by a positive word is never out of range. -/
theorem toInt_div_of_pos (hb : 0 < b.toInt) : (e / b).toInt = e.toInt.tdiv b.toInt := by
  refine Int32.toInt_div_of_ne_right e b ?_
  rintro rfl
  exact absurd hb (by decide)

theorem ratioWord?_eq_some (hden : den ≠ 0) (hcop : num.natAbs.Coprime den) (ha : a.toInt = num)
    (hb : b.toInt = den) : ratioWord? a b e = some c ↔
      RatioFits num den e.toInt ∧ c.toInt = num * e.toInt / den := by
  have hpos : 0 < b.toInt := by omega
  unfold ratioWord? RatioFits
  rw [dvd_mul_iff hcop]
  by_cases hdvd : (den : ℤ) ∣ e.toInt
  · have hproduct : (e / b).toInt * a.toInt = num * e.toInt / den := by
      rw [toInt_div_of_pos hpos, ha, hb, Int.tdiv_eq_ediv_of_dvd hdvd, mul_comm,
        Int.mul_ediv_assoc num hdvd]
    rw [if_pos (mod_eq_zero_iff.mpr (hb ▸ hdvd)), checkedMul?_eq_some, hproduct]
    simp [hdvd]
  · rw [if_neg (mt mod_eq_zero_iff.mp (hb ▸ hdvd))]
    simp [hdvd]

theorem toInt_ofInt_of_fits {x : Int} (h : Exact.fitsInt32 x = true) : (Int32.ofInt x).toInt = x := by
  simp only [Exact.fitsInt32, Bool.and_eq_true, decide_eq_true_eq] at h
  exact Int32.toInt_ofInt_of_le (by omega) (by omega)

end Words

/-- A dimension has the power with a ratio in lowest terms exactly if the denominator is in range and
the ratio takes all seven exponents to integers in range; these are the exponents of the power. The
last part says that words give the same, exponent by exponent, and that no quotient of them wraps
around. -/
theorem powRatio_exact (hd : d.InRange) (hnum : Exact.fitsInt32 num = true) (hden : 1 ≤ den)
    (hcop : num.natAbs.Coprime den) :
    ((∃ r, d.powRatio num den = some r) ↔
      Exact.fitsInt32 den = true ∧ ∀ i, RatioFits num den (d.powers i)) ∧
    (∀ r, d.powRatio num den = some r → ∀ i, r.powers i = num * d.powers i / den) ∧
    (Exact.fitsInt32 den = true → ∀ i,
      (Int32.ofInt (d.powers i) / Int32.ofInt den).toInt = (d.powers i).tdiv den ∧
      ∀ c, ratioWord? (.ofInt num) (.ofInt den) (.ofInt (d.powers i)) = some c ↔
        RatioFits num den (d.powers i) ∧ c.toInt = num * d.powers i / den) := by
  have hden' : den ≠ 0 := by omega
  simp only [powRatio_iff_of_coprime hden' hcop]
  refine ⟨⟨?_, ?_⟩, fun r h i => (h.2 i).2, fun hfits i => ?_⟩
  · rintro ⟨r, hfits, h⟩
    exact ⟨hfits, fun i => (h i).1⟩
  · rintro ⟨hfits, h⟩
    obtain ⟨r, hr⟩ := exists_powers (x := fun i => num * d.powers i / den)
    exact ⟨r, hfits, fun i => ⟨h i, congrFun hr i⟩⟩
  · have hx := toInt_ofInt_of_fits (fits_powers_iff.mpr hd i)
    have hn := toInt_ofInt_of_fits hfits
    refine ⟨?_, fun c => ?_⟩
    · rw [toInt_div_of_pos (by omega), hx, hn]
    · rw [ratioWord?_eq_some hden' hcop (toInt_ofInt_of_fits hnum) hn, hx]

/-- The least exponent, halved and negated. Negated first, it would be out of range. -/
theorem powRatio_exact_least :
    InRange ⟨#v[-2147483648, 6, 0, 0, 0, 0, -4]⟩ ∧ Exact.fitsInt32 (-1) = true ∧
      (-1 : Int).natAbs.Coprime 2 ∧
      (∃ r, powRatio ⟨#v[-2147483648, 6, 0, 0, 0, 0, -4]⟩ (-1) 2 = some r ∧
        r.powers 0 = 1073741824 ∧ r.powers 6 = 2) ∧
      ratioWord? (-1) 2 (-2147483648) = some 1073741824 := by
  have hd : InRange ⟨#v[-2147483648, 6, 0, 0, 0, 0, -4]⟩ := by decide +kernel
  have hnum : Exact.fitsInt32 (-1) = true := by decide
  have hcop : (-1 : Int).natAbs.Coprime 2 := by decide
  obtain ⟨hexists, hpowers, hword⟩ := powRatio_exact hd hnum (by decide) hcop
  obtain ⟨r, hr⟩ := hexists.mpr ⟨by decide, by decide +kernel⟩
  exact ⟨hd, hnum, hcop, ⟨r, hr, hpowers r hr 0, hpowers r hr 6⟩,
    ((hword (by decide) 0).2 1073741824).mpr (by decide +kernel)⟩

end Formulary.Dimension
