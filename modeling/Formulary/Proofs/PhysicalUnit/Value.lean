import Formulary.Proofs.PhysicalUnit
import Mathlib.Algebra.BigOperators.Fin
import Mathlib.Algebra.Order.BigOperators.Group.Finset

/-!
What a unit stands for, and when operations have a result.

The value of a unit is its dimension and its scale: neither the symbol nor the name. Operations act
on the values, so units of one value can stand for each other; and a product or quotient fails only
because an exponent leaves its range, which it cannot do while the exponents, whatever their signs,
add up to less.
-/

namespace Formulary

open Formulary.Except

namespace Dimension

variable {a b d : Dimension}

theorem vector_injective : Function.Injective vector := fun a b h => by
  obtain ⟨x⟩ := a
  obtain ⟨y⟩ := b
  congr 1
  ext i hi
  have hi : (x[i] : ℝ) = y[i] := congrFun h ⟨i, hi⟩
  exact_mod_cast hi

/-- All exponents are in range. -/
def InRange (d : Dimension) : Prop := d.exponents.all Exact.fitsInt32 = true

instance : Decidable d.InRange :=
  inferInstanceAs (Decidable (d.exponents.all Exact.fitsInt32 = true))

theorem make?_of_inRange (h : d.InRange) : make? d.exponents = some d := if_pos h

theorem inRange_of_make? {exponents : Vector Int 7} (h : make? exponents = some d) : d.InRange := by
  unfold make? at h
  split at h
  · cases h
    assumption
  · cases h

/-- The magnitudes of the exponents, added up. -/
def extent (d : Dimension) : Nat := ∑ i : Fin 7, (d.exponents.get i).natAbs

theorem extent_dimensionless : dimensionless.extent = 0 := by decide

/-- The largest extent that is surely in range. -/
def extentLimit : Nat := 2147483647

theorem make?_of_extent {exponents : Vector Int 7}
    (h : (⟨exponents⟩ : Dimension).extent ≤ extentLimit) : make? exponents = some ⟨exponents⟩ := by
  refine if_pos (Vector.all_eq_true.mpr fun i hi => ?_)
  have hle : exponents[i].natAbs ≤ (⟨exponents⟩ : Dimension).extent :=
    Finset.single_le_sum (f := fun i : Fin 7 => (exponents.get i).natAbs) (fun _ _ => Nat.zero_le _)
      (Finset.mem_univ (⟨i, hi⟩ : Fin 7))
  have := hle.trans h
  simp only [extentLimit] at this
  simp only [Exact.fitsInt32, Bool.and_eq_true, decide_eq_true_eq]
  omega

/-- A combination of exponents whose magnitudes add up at most. -/
theorem extent_zipWith_le {f : Int → Int → Int} (hf : ∀ x y, (f x y).natAbs ≤ x.natAbs + y.natAbs) :
    (⟨a.exponents.zipWith f b.exponents⟩ : Dimension).extent ≤ a.extent + b.extent := by
  rw [extent, extent, extent, ← Finset.sum_add_distrib]
  refine Finset.sum_le_sum fun i _ => ?_
  have hget : (a.exponents.zipWith f b.exponents).get i = f (a.exponents.get i) (b.exponents.get i) :=
    Vector.getElem_zipWith i.isLt
  rw [hget]
  exact hf _ _

theorem exists_multiply (h : a.extent + b.extent ≤ extentLimit) :
    ∃ d, a.multiply b = some d ∧ d.extent ≤ a.extent + b.extent :=
  have hle := extent_zipWith_le (f := (· + ·)) Int.natAbs_add_le
  ⟨_, make?_of_extent (hle.trans h), hle⟩

theorem exists_divide (h : a.extent + b.extent ≤ extentLimit) :
    ∃ d, a.divide b = some d ∧ d.extent ≤ a.extent + b.extent :=
  have hle := extent_zipWith_le (f := (· - ·)) Int.natAbs_sub_le
  ⟨_, make?_of_extent (hle.trans h), hle⟩

theorem dimensionless_multiply (h : d.InRange) : dimensionless.multiply d = some d := by
  have heq : dimensionless.exponents.zipWith (· + ·) d.exponents = d.exponents := by
    ext i hi
    have hzero : dimensionless.exponents[i] = 0 := by
      revert i
      decide
    simp [hzero]
  rw [multiply, heq, make?_of_inRange h]

end Dimension

namespace PhysicalUnit

variable {u v w u' v' : PhysicalUnit}

/-! ## Values -/

/-- The dimension, written multiplicatively, and the scale. -/
def value (u : PhysicalUnit) : Multiplicative (Fin 7 → ℝ) × ℚ :=
  (.ofAdd u.dimension.vector, u.scale)

theorem value_eq_iff : u.value = v.value ↔ u.dimension = v.dimension ∧ u.scale = v.scale := by
  rw [value, value, Prod.mk.injEq]
  exact and_congr_left' ⟨fun h => Dimension.vector_injective h, fun h => by rw [h]⟩

theorem isEquivalent_iff : u.isEquivalent v = true ↔ u.value = v.value := by
  rw [value_eq_iff, isEquivalent, Bool.and_eq_true, decide_eq_true_iff, decide_eq_true_iff]

theorem value_dimensionless : dimensionless.value = 1 := by
  rw [value]
  exact Prod.ext (congrArg Multiplicative.ofAdd Dimension.vector_dimensionless) rfl

theorem isUnity_iff : u.isUnity = true ↔ u.value = 1 := by
  rw [← value_dimensionless, value_eq_iff, isUnity, Dimension.isDimensionless, Bool.and_eq_true,
    decide_eq_true_iff, decide_eq_true_iff]
  rfl

theorem value_multiply (h : u.multiply v = .ok w) : w.value = u.value * v.value := by
  obtain ⟨hs, hd⟩ := multiply_eq_ok h
  exact Prod.ext (congrArg Multiplicative.ofAdd hd) hs

theorem value_divide (h : u.divide v = .ok w) : w.value = u.value / v.value := by
  obtain ⟨-, hs, hd⟩ := divide_eq_ok h
  exact Prod.ext (congrArg Multiplicative.ofAdd hd) hs

/-! ## Units of one value -/

theorem divide_congr (hu : u'.value = u.value) (hv : v'.value = v.value)
    (h : u.divide v = .ok w) : ∃ w', u'.divide v' = .ok w' ∧ w'.value = w.value := by
  obtain ⟨q, hq, h'⟩ := bind_eq_ok.mp h
  obtain ⟨d, hd, -⟩ := bind_eq_ok.mp h'
  have hd' : u'.dimension.divide v'.dimension = some d := by
    rw [(value_eq_iff.mp hu).1, (value_eq_iff.mp hv).1, inRange_eq_ok hd]
  have hq' : liftNumber (Exact.divide u'.scale v'.scale) = .ok q := by
    rw [(value_eq_iff.mp hu).2, (value_eq_iff.mp hv).2, hq]
  have hok : u'.divide v' = .ok ⟨_, _, d, q⟩ :=
    bind_eq_ok.mpr ⟨q, hq', bind_eq_ok.mpr ⟨d, by rw [hd']; rfl, rfl⟩⟩
  exact ⟨_, hok, by rw [value_divide hok, value_divide h, hu, hv]⟩

theorem pow_congr {n : Int} (hu : u'.value = u.value) (h : u.pow n = .ok w) :
    ∃ w', u'.pow n = .ok w' ∧ w'.value = w.value := by
  obtain ⟨d, hd, h⟩ := bind_eq_ok.mp h
  obtain ⟨q, hq, h⟩ := bind_eq_ok.mp h
  cases h
  obtain ⟨hdimension, hscale⟩ := value_eq_iff.mp hu
  have hd' : u'.dimension.pow n = some d := by rw [hdimension, inRange_eq_ok hd]
  have hok : u'.pow n = .ok ⟨_, _, d, q⟩ := bind_eq_ok.mpr ⟨d, by rw [hd']; rfl,
    bind_eq_ok.mpr ⟨q, by rw [hscale, hq], rfl⟩⟩
  exact ⟨_, hok, rfl⟩

theorem powRatio_congr {num : Int} {den : Nat} (hu : u'.value = u.value)
    (h : u.powRatio num den = .ok w) : ∃ w', u'.powRatio num den = .ok w' ∧ w'.value = w.value := by
  unfold powRatio at h ⊢
  split at h
  · rename_i hden
    rw [if_pos hden]
    exact pow_congr hu h
  · rename_i hden
    rw [if_neg hden, (value_eq_iff.mp hu).1, (value_eq_iff.mp hu).2]
    split at h
    · obtain ⟨q, hq, h⟩ := bind_eq_ok.mp h
      cases h
      exact ⟨_, bind_eq_ok.mpr ⟨q, hq, rfl⟩, rfl⟩
    · cases h

/-- The value of a power depends on the ratio only, however it is written. -/
theorem powRatio_value_unique {num num' : Int} {den den' : Nat} (hu : 0 < u.scale)
    (hratio : (num : ℝ) / den = num' / den') (h : u.powRatio num den = .ok w)
    (h' : u.powRatio num' den' = .ok v) : w.value = v.value := by
  obtain ⟨-, hs, hd⟩ := powRatio_eq_ok hu h
  obtain ⟨-, hs', hd'⟩ := powRatio_eq_ok hu h'
  have hscale : (w.scale : ℝ) = v.scale := by rw [hs, hs', hratio]
  have hdimension : w.dimension.vector = v.dimension.vector := by rw [hd, hd', hratio]
  exact Prod.ext (congrArg Multiplicative.ofAdd hdimension) (by exact_mod_cast hscale)

/-- What has value one keeps it under powers. -/
theorem value_pow_of_one {n : Int} (hu : u.value = 1) (h : u.pow n = .ok w) : w.value = 1 := by
  obtain ⟨hs, hd⟩ := pow_eq_ok h
  obtain ⟨hdim, hscale⟩ := Prod.mk.inj hu
  have hdim : u.dimension.vector = 0 := hdim
  refine Prod.ext ?_ ?_
  · show Multiplicative.ofAdd w.dimension.vector = 1
    rw [hd, hdim, smul_zero]
    rfl
  · show w.scale = 1
    rw [hs, hscale, one_zpow]

/-! ## Ranges -/

/-- Every dimension that is reached is in range. -/
theorem invariant_inRange : Invariant fun u => u.dimension.InRange where
  dimensionless := by decide +kernel
  row := by decide +kernel
  multiply _ _ h := by
    obtain ⟨d, hd, h⟩ := bind_eq_ok.mp h
    cases h
    exact Dimension.inRange_of_make? (inRange_eq_ok hd)
  divide _ _ h := by
    obtain ⟨_, -, h⟩ := bind_eq_ok.mp h
    obtain ⟨d, hd, h⟩ := bind_eq_ok.mp h
    cases h
    exact Dimension.inRange_of_make? (inRange_eq_ok hd)
  powRatio {u w num den} _ h := by
    have hpow : ∀ {n : Int}, u.pow n = .ok w → w.dimension.InRange := fun h => by
      obtain ⟨d, hd, h⟩ := bind_eq_ok.mp h
      obtain ⟨_, -, h⟩ := bind_eq_ok.mp h
      cases h
      exact Dimension.inRange_of_make? (inRange_eq_ok hd)
    unfold powRatio at h
    split at h
    · exact hpow h
    · split at h
      · rename_i d root hd _
        obtain ⟨_, -, h⟩ := bind_eq_ok.mp h
        cases h
        obtain ⟨r, -, hr⟩ := Option.bind_eq_some_iff.mp hd
        exact Dimension.inRange_of_make? hr
      · cases h
  symbol _ hu := hu

theorem exists_multiply (h : u.dimension.extent + v.dimension.extent ≤ Dimension.extentLimit) :
    ∃ w, u.multiply v = .ok w ∧ w.dimension.extent ≤ u.dimension.extent + v.dimension.extent := by
  obtain ⟨d, hd, hle⟩ := Dimension.exists_multiply h
  exact ⟨⟨_, _, d, _⟩, bind_eq_ok.mpr ⟨d, by rw [hd]; rfl, rfl⟩, hle⟩

theorem exists_divide (hv : v.scale ≠ 0)
    (h : u.dimension.extent + v.dimension.extent ≤ Dimension.extentLimit) :
    ∃ w, u.divide v = .ok w ∧ w.dimension.extent ≤ u.dimension.extent + v.dimension.extent := by
  obtain ⟨d, hd, hle⟩ := Dimension.exists_divide h
  have hq : liftNumber (Exact.divide u.scale v.scale) = .ok (u.scale / v.scale) := by
    rw [Exact.divide, if_neg hv]
    rfl
  exact ⟨⟨_, _, d, _⟩, bind_eq_ok.mpr ⟨_, hq, bind_eq_ok.mpr ⟨d, by rw [hd]; rfl, rfl⟩⟩, hle⟩

/-- A product with the unit of pure numbers. -/
theorem dimensionless_multiply (h : u.dimension.InRange) :
    ∃ w, dimensionless.multiply u = .ok w ∧ w.value = u.value := by
  have hok : dimensionless.multiply u = .ok ⟨_, _, u.dimension, _⟩ :=
    bind_eq_ok.mpr ⟨u.dimension, by rw [dimensionless, Dimension.dimensionless_multiply h]; rfl, rfl⟩
  exact ⟨_, hok, by rw [value_multiply hok, value_dimensionless, one_mul]⟩

end PhysicalUnit

end Formulary
