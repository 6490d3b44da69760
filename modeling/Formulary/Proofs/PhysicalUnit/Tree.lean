import Formulary.Proofs.PhysicalUnit.Symbol

/-!
Trees of units, and what they denote.

A tree combines known units by products, quotients and powers. It denotes exponents and a scale, which
are computed without any bound. A tree is admissible if no exponent on the way leaves the signed 32-bit
range and no scale but one is raised to a power beyond the limit of exact expansion: just then the
operations of units have a result for it, and the result has those exponents and that scale.
-/

namespace Formulary

open Formulary.Except

namespace Dimension

variable {a b d : Dimension} {n : Int}

/-- The exponents as a vector of integers. -/
def powers (d : Dimension) : Fin 7 → ℤ := d.exponents.get

/-- All exponents are in the signed 32-bit range. -/
def Fits (x : Fin 7 → ℤ) : Prop := ∀ i, Exact.fitsInt32 (x i) = true

theorem fits_powers_iff : Fits d.powers ↔ d.InRange := by
  rw [InRange, Vector.all_eq_true]
  exact ⟨fun h i hi => h ⟨i, hi⟩, fun h i => h i.1 i.2⟩

theorem exponents_eq_iff {x : Vector Int 7} : d.exponents = x ↔ d.powers = x.get := by
  constructor
  · rintro rfl
    rfl
  · intro h
    ext i hi
    exact congrFun h ⟨i, hi⟩

theorem powers_injective : Function.Injective powers := by
  rintro ⟨x⟩ ⟨y⟩ h
  exact congrArg mk (exponents_eq_iff (d := ⟨x⟩).mpr h)

theorem make?_iff {x : Vector Int 7} : make? x = some d ↔ Fits x.get ∧ d.powers = x.get := by
  constructor
  · intro h
    have hpowers := exponents_eq_iff.mp (make?_eq_some h)
    exact ⟨hpowers ▸ fits_powers_iff.mpr (inRange_of_make? h), hpowers⟩
  · rintro ⟨hfits, hpowers⟩
    have hrange : d.InRange := fits_powers_iff.mp (hpowers ▸ hfits)
    rw [← exponents_eq_iff.mpr hpowers]
    exact make?_of_inRange hrange

theorem multiply_iff :
    a.multiply b = some d ↔ Fits (a.powers + b.powers) ∧ d.powers = a.powers + b.powers := by
  have hsum : (Vector.zipWith (· + ·) a.exponents b.exponents).get = a.powers + b.powers :=
    funext fun i => Vector.getElem_zipWith i.2
  rw [multiply, make?_iff, hsum]

theorem divide_iff :
    a.divide b = some d ↔ Fits (a.powers - b.powers) ∧ d.powers = a.powers - b.powers := by
  have hdifference : (Vector.zipWith (· - ·) a.exponents b.exponents).get = a.powers - b.powers :=
    funext fun i => Vector.getElem_zipWith i.2
  rw [divide, make?_iff, hdifference]

theorem pow_iff : a.pow n = some d ↔ Fits (n • a.powers) ∧ d.powers = n • a.powers := by
  have hmul : (a.exponents.map (· * n)).get = n • a.powers :=
    funext fun i => (Vector.getElem_map _ i.2).trans (Int.mul_comm _ _)
  rw [pow, make?_iff, hmul]

/-- Any exponents in range are those of a dimension. -/
theorem exists_powers {x : Fin 7 → ℤ} : ∃ d : Dimension, d.powers = x :=
  ⟨⟨Vector.ofFn x⟩, funext fun i => Vector.getElem_ofFn i.2⟩

end Dimension

namespace Exact

/-- When a power of a positive number is expanded. -/
theorem exists_power_iff {q : Rat} (hq : 0 < q) {n : Int} :
    (∃ r, power q n = .ok r) ↔ q = 1 ∨ n.natAbs ≤ exponentLimit := by
  have htrivial : isTrivialBase q = decide (q = 1) := by
    have hne : q ≠ 0 := hq.ne'
    have hneg : q ≠ -1 := by
      rintro rfl
      exact absurd hq (by decide)
    simp [isTrivialBase, hne, hneg]
  have hlimit : (decide (exponentLimit < n.natAbs) && !isTrivialBase q) = true ↔
      ¬ (q = 1 ∨ n.natAbs ≤ exponentLimit) := by
    rw [htrivial, Bool.and_eq_true, decide_eq_true_iff, Bool.not_eq_true', decide_eq_false_iff_not, not_or,
      not_le, and_comm]
  unfold power
  by_cases hbig : (decide (exponentLimit < n.natAbs) && !isTrivialBase q) = true
  · rw [if_pos hbig]
    exact ⟨nofun, fun h => absurd h (hlimit.mp hbig)⟩
  · rw [if_neg hbig]
    refine ⟨fun _ => not_not.mp fun h => hbig (hlimit.mpr h), fun _ => ?_⟩
    split
    · exact ⟨_, by rw [reciprocal, divide, if_neg (pow_ne_zero _ hq.ne')]⟩
    · exact ⟨_, rfl⟩

end Exact

namespace PhysicalUnit

variable {u v w : PhysicalUnit} {n : Int}

/-! ## When operations have a result -/

theorem exists_multiply_iff :
    (∃ w, u.multiply v = .ok w) ↔ Dimension.Fits (u.dimension.powers + v.dimension.powers) := by
  constructor
  · rintro ⟨w, h⟩
    obtain ⟨d, hd, -⟩ := bind_eq_ok.mp h
    exact (Dimension.multiply_iff.mp (inRange_eq_ok hd)).1
  · intro h
    obtain ⟨d, hd⟩ := Dimension.exists_powers
    have hok := Dimension.multiply_iff.mpr ⟨h, hd⟩
    exact ⟨_, bind_eq_ok.mpr ⟨d, by rw [hok]; rfl, rfl⟩⟩

theorem exists_divide_iff (hv : v.scale ≠ 0) :
    (∃ w, u.divide v = .ok w) ↔ Dimension.Fits (u.dimension.powers - v.dimension.powers) := by
  constructor
  · rintro ⟨w, h⟩
    obtain ⟨_, -, h⟩ := bind_eq_ok.mp h
    obtain ⟨d, hd, -⟩ := bind_eq_ok.mp h
    exact (Dimension.divide_iff.mp (inRange_eq_ok hd)).1
  · intro h
    obtain ⟨d, hd⟩ := Dimension.exists_powers
    have hok := Dimension.divide_iff.mpr ⟨h, hd⟩
    have hscale : liftNumber (Exact.divide u.scale v.scale) = .ok (u.scale / v.scale) := by
      rw [Exact.divide, if_neg hv]
      rfl
    exact ⟨_, bind_eq_ok.mpr ⟨_, hscale, bind_eq_ok.mpr ⟨d, by rw [hok]; rfl, rfl⟩⟩⟩

theorem exists_pow_iff (hu : 0 < u.scale) : (∃ w, u.pow n = .ok w) ↔
    Dimension.Fits (n • u.dimension.powers) ∧ (u.scale = 1 ∨ n.natAbs ≤ Exact.exponentLimit) := by
  rw [← Exact.exists_power_iff hu]
  constructor
  · rintro ⟨w, h⟩
    obtain ⟨d, hd, h⟩ := bind_eq_ok.mp h
    obtain ⟨q, hq, -⟩ := bind_eq_ok.mp h
    exact ⟨(Dimension.pow_iff.mp (inRange_eq_ok hd)).1, q, liftNumber_eq_ok hq⟩
  · rintro ⟨h, q, hq⟩
    obtain ⟨d, hd⟩ := Dimension.exists_powers
    have hok := Dimension.pow_iff.mpr ⟨h, hd⟩
    exact ⟨_, bind_eq_ok.mpr ⟨d, by rw [hok]; rfl, bind_eq_ok.mpr ⟨q, by rw [hq]; rfl, rfl⟩⟩⟩

/-- The unit has these exponents and this scale. -/
structure Measures (u : PhysicalUnit) (x : Fin 7 → ℤ) (q : ℚ) : Prop where
  powers : u.dimension.powers = x
  scale : u.scale = q

variable {x y : Fin 7 → ℤ} {p q : ℚ}

theorem Measures.multiply (hu : u.Measures x p) (hv : v.Measures y q) (h : u.multiply v = .ok w) :
    w.Measures (x + y) (p * q) := by
  obtain ⟨d, hd, h⟩ := bind_eq_ok.mp h
  cases h
  refine ⟨?_, by rw [hu.scale, hv.scale]⟩
  rw [(Dimension.multiply_iff.mp (inRange_eq_ok hd)).2, hu.powers, hv.powers]

theorem Measures.divide (hu : u.Measures x p) (hv : v.Measures y q) (h : u.divide v = .ok w) :
    w.Measures (x - y) (p / q) := by
  refine ⟨?_, by rw [(divide_eq_ok h).2.1, hu.scale, hv.scale]⟩
  obtain ⟨_, -, h⟩ := bind_eq_ok.mp h
  obtain ⟨d, hd, h⟩ := bind_eq_ok.mp h
  cases h
  rw [(Dimension.divide_iff.mp (inRange_eq_ok hd)).2, hu.powers, hv.powers]

theorem Measures.pow (hu : u.Measures x p) (h : u.pow n = .ok w) : w.Measures (n • x) (p ^ n) := by
  refine ⟨?_, by rw [(pow_eq_ok h).1, hu.scale]⟩
  obtain ⟨d, hd, h⟩ := bind_eq_ok.mp h
  obtain ⟨_, -, h⟩ := bind_eq_ok.mp h
  cases h
  rw [(Dimension.pow_iff.mp (inRange_eq_ok hd)).2, hu.powers]

theorem measures_iff_value (hu : u.Measures x p) : v.Measures x p ↔ v.value = u.value := by
  rw [value_eq_iff]
  constructor
  · intro h
    exact ⟨Dimension.powers_injective (h.powers.trans hu.powers.symm), h.scale.trans hu.scale.symm⟩
  · rintro ⟨hd, hs⟩
    exact ⟨by rw [hd, hu.powers], by rw [hs, hu.scale]⟩

end PhysicalUnit

/-! ## Trees -/

/-- A spelling of a known unit that is one word. -/
structure UnitName where
  spelling : String
  unit : PhysicalUnit
  known : PhysicalUnit.lookup? spelling = some unit
  unspaced : ' ' ∉ spelling.toList

/-- What may stand between the factors of a product. -/
inductive ProductMark where
  | star
  | dot
  | space
deriving DecidableEq, Repr

/-- What may stand before an exponent. -/
inductive PowerMark where
  | caret
  | stars
deriving DecidableEq, Repr

/-- Known units, and the one, combined by products, quotients and powers. The marks are how the tree is
written; the exponents are signed 32-bit integers. -/
inductive UnitTree where
  | one
  | name (n : UnitName)
  | product (mark : ProductMark) (l r : UnitTree)
  | quotient (l r : UnitTree)
  | power (mark : PowerMark) (base : UnitTree) (n : Int) (fits : Exact.fitsInt32 n = true)

namespace UnitTree

open Dimension (Fits)

variable {t l r : UnitTree}

/-- The exponents that the tree denotes, of any size. -/
def exponents : UnitTree → Fin 7 → ℤ
  | one => 0
  | name n => n.unit.dimension.powers
  | product _ l r => l.exponents + r.exponents
  | quotient l r => l.exponents - r.exponents
  | power _ base n _ => n • base.exponents

/-- The scale that the tree denotes. -/
def scale : UnitTree → ℚ
  | one => 1
  | name n => n.unit.scale
  | product _ l r => l.scale * r.scale
  | quotient l r => l.scale / r.scale
  | power _ base n _ => base.scale ^ n

/-- No exponent on the way leaves its range, and no scale but one is raised beyond the limit. -/
def Admissible : UnitTree → Prop
  | one | name _ => True
  | product _ l r => l.Admissible ∧ r.Admissible ∧ Fits (l.exponents + r.exponents)
  | quotient l r => l.Admissible ∧ r.Admissible ∧ Fits (l.exponents - r.exponents)
  | power _ base n _ => base.Admissible ∧ Fits (n • base.exponents) ∧
    (base.scale = 1 ∨ n.natAbs ≤ Exact.exponentLimit)

theorem scale_pos : ∀ t : UnitTree, 0 < t.scale
  | one => by decide
  | name n => PhysicalUnit.invariant_pos.lookup? n.known
  | product _ l r => mul_pos l.scale_pos r.scale_pos
  | quotient l r => div_pos l.scale_pos r.scale_pos
  | power _ base n _ => zpow_pos base.scale_pos n

theorem Admissible.fits : ∀ {t : UnitTree}, t.Admissible → Fits t.exponents
  | one, _ => by
    intro i
    rfl
  | name n, _ => Dimension.fits_powers_iff.mpr (PhysicalUnit.invariant_inRange.lookup? n.known)
  | product .., h => h.2.2
  | quotient .., h => h.2.2
  | power .., h => h.2.1

end UnitTree

/-- The result exists just if the tree is admissible, and then it is what the tree denotes. -/
structure Computes (result : Except UnitError PhysicalUnit) (t : UnitTree) : Prop where
  succeeds : (∃ u, result = .ok u) ↔ t.Admissible
  measures : ∀ u, result = .ok u → u.Measures t.exponents t.scale

namespace Computes

variable {x y : Except UnitError PhysicalUnit} {l r t : UnitTree}

theorem of_ok {u : PhysicalUnit} (ht : t.Admissible) (hu : u.Measures t.exponents t.scale) :
    Computes (.ok u) t where
  succeeds := ⟨fun _ => ht, fun _ => ⟨u, rfl⟩⟩
  measures v hv := by
    cases hv
    exact hu

theorem one : Computes (.ok .dimensionless) .one :=
  of_ok trivial ⟨funext fun i => by fin_cases i <;> rfl, rfl⟩

theorem name (n : UnitName) : Computes (.ok n.unit) (.name n) := of_ok trivial ⟨rfl, rfl⟩

theorem admissible {u : PhysicalUnit} (h : Computes x t) (hx : x = .ok u) : t.Admissible :=
  h.succeeds.mp ⟨u, hx⟩

/-- Two results put together: there is one if both are there and the exponents fit. -/
theorem operation {f : PhysicalUnit → PhysicalUnit → Except UnitError PhysicalUnit}
    (hl : Computes x l) (hr : Computes y r)
    (hadmissible : t.Admissible ↔ l.Admissible ∧ r.Admissible ∧ Dimension.Fits t.exponents)
    (hexists : ∀ u v : PhysicalUnit, u.Measures l.exponents l.scale → v.Measures r.exponents r.scale →
      ((∃ w, f u v = .ok w) ↔ Dimension.Fits t.exponents))
    (hmeasures : ∀ u v w : PhysicalUnit, u.Measures l.exponents l.scale → v.Measures r.exponents r.scale →
      f u v = .ok w → w.Measures t.exponents t.scale) :
    Computes (x >>= fun u => y >>= fun v => f u v) t where
  succeeds := by
    rw [hadmissible]
    constructor
    · rintro ⟨w, h⟩
      obtain ⟨u, hu, h⟩ := bind_eq_ok.mp h
      obtain ⟨v, hv, h⟩ := bind_eq_ok.mp h
      have hfits := (hexists u v (hl.measures u hu) (hr.measures v hv)).mp ⟨w, h⟩
      exact ⟨hl.admissible hu, hr.admissible hv, hfits⟩
    · rintro ⟨hla, hra, hfits⟩
      obtain ⟨u, hu⟩ := hl.succeeds.mpr hla
      obtain ⟨v, hv⟩ := hr.succeeds.mpr hra
      obtain ⟨w, hw⟩ := (hexists u v (hl.measures u hu) (hr.measures v hv)).mpr hfits
      exact ⟨w, bind_eq_ok.mpr ⟨u, hu, bind_eq_ok.mpr ⟨v, hv, hw⟩⟩⟩
  measures w h := by
    obtain ⟨u, hu, h⟩ := bind_eq_ok.mp h
    obtain ⟨v, hv, h⟩ := bind_eq_ok.mp h
    exact hmeasures u v w (hl.measures u hu) (hr.measures v hv) h

theorem multiply (hl : Computes x l) (hr : Computes y r) (mark : ProductMark) :
    Computes (x >>= fun u => y >>= fun v => u.multiply v) (.product mark l r) := by
  refine hl.operation hr Iff.rfl (fun u v hu hv => ?_) fun u v w hu hv h => hu.multiply hv h
  rw [PhysicalUnit.exists_multiply_iff, hu.powers, hv.powers]
  rfl

theorem divide (hl : Computes x l) (hr : Computes y r) :
    Computes (x >>= fun u => y >>= fun v => u.divide v) (.quotient l r) := by
  refine hl.operation hr Iff.rfl (fun u v hu hv => ?_) fun u v w hu hv h => hu.divide hv h
  have hscale : v.scale ≠ 0 := hv.scale ▸ r.scale_pos.ne'
  rw [PhysicalUnit.exists_divide_iff hscale, hu.powers, hv.powers]
  rfl

theorem pow (h : Computes x t) (mark : PowerMark) {n : Int} (hn : Exact.fitsInt32 n = true) :
    Computes (x >>= fun u => u.powRatio n 1) (.power mark t n hn) where
  succeeds := by
    have hscale : ∀ {u : PhysicalUnit}, x = .ok u → u.scale = t.scale := fun hu => (h.measures _ hu).scale
    constructor
    · rintro ⟨w, hw⟩
      obtain ⟨u, hu, hw⟩ := bind_eq_ok.mp hw
      have hpos : 0 < u.scale := hscale hu ▸ t.scale_pos
      have hexists := (PhysicalUnit.exists_pow_iff hpos).mp ⟨w, hw⟩
      rw [(h.measures u hu).powers, hscale hu] at hexists
      exact ⟨h.admissible hu, hexists⟩
    · rintro ⟨hadmissible, hexists⟩
      obtain ⟨u, hu⟩ := h.succeeds.mpr hadmissible
      have hpos : 0 < u.scale := hscale hu ▸ t.scale_pos
      rw [← (h.measures u hu).powers, ← hscale hu] at hexists
      obtain ⟨w, hw⟩ := (PhysicalUnit.exists_pow_iff hpos).mpr hexists
      exact ⟨w, bind_eq_ok.mpr ⟨u, hu, hw⟩⟩
  measures w hw := by
    obtain ⟨u, hu, hw⟩ := bind_eq_ok.mp hw
    exact (h.measures u hu).pow hw

/-- A product with the unit of pure numbers denotes the same. -/
theorem one_multiply (h : Computes x t) :
    Computes (x >>= fun u => PhysicalUnit.dimensionless.multiply u) t where
  succeeds := by
    rw [← h.succeeds]
    constructor
    · rintro ⟨w, hw⟩
      obtain ⟨u, hu, -⟩ := bind_eq_ok.mp hw
      exact ⟨u, hu⟩
    · rintro ⟨u, hu⟩
      have hfits := (h.admissible hu).fits
      rw [← (h.measures u hu).powers] at hfits
      obtain ⟨w, hw, -⟩ := PhysicalUnit.dimensionless_multiply (Dimension.fits_powers_iff.mp hfits)
      exact ⟨w, bind_eq_ok.mpr ⟨u, hu, hw⟩⟩
  measures w hw := by
    obtain ⟨u, hu, hw⟩ := bind_eq_ok.mp hw
    have hproduct := (one.measures _ rfl).multiply (h.measures u hu) hw
    rwa [UnitTree.exponents, UnitTree.scale, zero_add, one_mul] at hproduct

/-- A result that exists together with another one, and has its value. -/
theorem congr (h : Computes x t) (hxy : ∀ u, x = .ok u → ∃ v, y = .ok v ∧ v.value = u.value)
    (hyx : ∀ v, y = .ok v → ∃ u, x = .ok u) : Computes y t where
  succeeds := by
    rw [← h.succeeds]
    constructor
    · rintro ⟨v, hv⟩
      exact hyx v hv
    · rintro ⟨u, hu⟩
      obtain ⟨v, hv, -⟩ := hxy u hu
      exact ⟨v, hv⟩
  measures v hv := by
    obtain ⟨u, hu⟩ := hyx v hv
    obtain ⟨v', hv', hvalue⟩ := hxy u hu
    obtain rfl : v' = v := Except.ok.inj (hv'.symm.trans hv)
    exact (PhysicalUnit.measures_iff_value (h.measures u hu)).mpr hvalue

end Computes

end Formulary
