import Formulary.Proofs.PhysicalUnit.Formula

/-!
Units as an abelian group.

The operations on units are partial: an exponent can leave its range, a root need not exist, and a large
power is not expanded. Where they have results they act on the values as in the group of dimensions and
positive scales. So a chain of multiplications and divisions may be grouped and ordered in any way, as
long as both ways have a result; and a scale is never zero, so that no operation fails by dividing by
it. The factors between units of one dimension compose, and common units cancel from them.
-/

namespace Formulary

open Formulary.Except

namespace PhysicalUnit

variable {u v w : PhysicalUnit} {m n : Int}

/-- The unit is made of texts by operations. -/
def Attainable (u : PhysicalUnit) : Prop := ∃ t : UnitFormula, t.unit = .ok u

theorem Attainable.scale_pos (h : u.Attainable) : 0 < u.scale :=
  h.elim fun _ ht => UnitFormula.unit_invariant invariant_pos ht

theorem Attainable.inRange (h : u.Attainable) : u.dimension.InRange :=
  h.elim fun _ ht => UnitFormula.unit_invariant invariant_inRange ht

/-! ## No division by zero -/

/-- The result is that a zero was divided by. -/
def DividesByZero {α : Type} (r : Except UnitError α) : Prop := r = .error (.number .divisionByZero)

theorem DividesByZero.of_lift {α : Type} {x : Except NumberError α} (h : DividesByZero (liftNumber x)) :
    x = .error .divisionByZero := by
  cases x with
  | ok a => cases h
  | error e =>
    cases h
    rfl

/-- A step that divides by zero is one of the two that it consists of. -/
theorem DividesByZero.of_bind {α β : Type} {x : Except UnitError α} {f : α → Except UnitError β}
    (h : DividesByZero (x >>= f)) : DividesByZero x ∨ ∃ a, x = .ok a ∧ DividesByZero (f a) := by
  cases x with
  | ok a => exact .inr ⟨a, rfl, h⟩
  | error e =>
    cases h
    exact .inl rfl

theorem not_dividesByZero_inRange {applied : String} {o : Option Dimension} :
    ¬ DividesByZero (u.inRange applied o) := by
  cases o <;> exact nofun

theorem not_dividesByZero_multiply : ¬ DividesByZero (u.multiply v) := by
  intro h
  rcases DividesByZero.of_bind h with h | ⟨d, -, h⟩
  · exact not_dividesByZero_inRange h
  · cases h

theorem divide_ne_divisionByZero {a b : Rat} (hb : b ≠ 0) : Exact.divide a b ≠ .error .divisionByZero := by
  rw [Exact.divide, if_neg hb]
  intro h
  cases h

theorem not_dividesByZero_divide (hv : v.scale ≠ 0) : ¬ DividesByZero (u.divide v) := by
  intro h
  rcases DividesByZero.of_bind h with h | ⟨q, -, h⟩
  · exact divide_ne_divisionByZero hv h.of_lift
  · rcases DividesByZero.of_bind h with h | ⟨d, -, h⟩
    · exact not_dividesByZero_inRange h
    · cases h

theorem not_dividesByZero_factorTo (hv : v.scale ≠ 0) : ¬ DividesByZero (u.factorTo v) := by
  intro h
  unfold factorTo at h
  split at h
  · exact divide_ne_divisionByZero hv h.of_lift
  · cases h

theorem power_ne_divisionByZero {q : Rat} (hq : q ≠ 0) : Exact.power q n ≠ .error .divisionByZero := by
  intro h
  unfold Exact.power at h
  split at h
  · cases h
  · split at h
    · exact divide_ne_divisionByZero (pow_ne_zero _ hq) h
    · cases h

theorem not_dividesByZero_pow (hu : u.scale ≠ 0) : ¬ DividesByZero (u.pow n) := by
  intro h
  rcases DividesByZero.of_bind h with h | ⟨d, -, h⟩
  · exact not_dividesByZero_inRange h
  · rcases DividesByZero.of_bind h with h | ⟨q, -, h⟩
    · exact power_ne_divisionByZero hu h.of_lift
    · cases h

theorem not_dividesByZero_powRatio {den : Nat} (hu : u.scale ≠ 0) : ¬ DividesByZero (u.powRatio n den) := by
  intro h
  unfold powRatio at h
  split at h
  · exact not_dividesByZero_pow hu h
  · split at h
    · rename_i d root hd hroot
      obtain ⟨hden, hfits, -⟩ := Dimension.vector_powRatio hd
      have hpow := (Exact.root?_pow hfits hroot).1
      have hne : root ≠ 0 := by
        rintro rfl
        exact hu (hpow.symm.trans (zero_pow hden))
      rcases DividesByZero.of_bind h with h | ⟨q, -, h⟩
      · exact power_ne_divisionByZero hne h.of_lift
      · cases h
    · cases h

/-! ## Chains of multiplications and divisions -/

end PhysicalUnit

/-- Units multiplied and divided in some grouping and order. -/
inductive UnitChain where
  | unit (u : PhysicalUnit)
  | product (l r : UnitChain)
  | quotient (l r : UnitChain)

namespace UnitChain

open PhysicalUnit

variable {c d : UnitChain} {u v : PhysicalUnit}

/-- The result of the chain, if all its operations have one. -/
def run : UnitChain → Except UnitError PhysicalUnit
  | unit u => .ok u
  | product l r => l.run >>= fun u => r.run >>= fun v => u.multiply v
  | quotient l r => l.run >>= fun u => r.run >>= fun v => u.divide v

mutual

/-- The units that the chain multiplies by, from left to right. -/
def numerators : UnitChain → List PhysicalUnit
  | unit u => [u]
  | product l r => l.numerators ++ r.numerators
  | quotient l r => l.numerators ++ r.denominators

/-- The units that the chain divides by, from left to right. -/
def denominators : UnitChain → List PhysicalUnit
  | unit _ => []
  | product l r => l.denominators ++ r.denominators
  | quotient l r => l.denominators ++ r.numerators

end

/-- All units in the chain. -/
def operands (c : UnitChain) : List PhysicalUnit := c.numerators ++ c.denominators

/-- The chains multiply and divide by the same units, apart from what both multiply and divide by. -/
def Regroups (c d : UnitChain) : Prop :=
  (c.numerators ++ d.denominators).Perm (d.numerators ++ c.denominators)

instance (c d : UnitChain) : Decidable (c.Regroups d) :=
  inferInstanceAs (Decidable ((c.numerators ++ d.denominators).Perm (d.numerators ++ c.denominators)))

/-- A chain has the value of what it multiplies by over the value of what it divides by. -/
theorem value_run : ∀ {c : UnitChain} {u : PhysicalUnit}, c.run = .ok u →
    u.value = valueOf c.numerators / valueOf c.denominators
  | unit u, _, h => by
    cases h
    rw [numerators, denominators, valueOf, valueOf, List.map_singleton, List.prod_singleton, List.map_nil,
      List.prod_nil, div_one]
  | product l r, w, h => by
    obtain ⟨u, hu, h⟩ := bind_eq_ok.mp h
    obtain ⟨v, hv, h⟩ := bind_eq_ok.mp h
    rw [value_multiply h, value_run hu, value_run hv, numerators, denominators, valueOf_append, valueOf_append,
      div_mul_div_comm]
  | quotient l r, w, h => by
    obtain ⟨u, hu, h⟩ := bind_eq_ok.mp h
    obtain ⟨v, hv, h⟩ := bind_eq_ok.mp h
    rw [value_divide h, value_run hu, value_run hv, numerators, denominators, valueOf_append, valueOf_append,
      div_div_div_eq]

theorem valueOf_perm {us vs : List PhysicalUnit} (h : us.Perm vs) : valueOf us = valueOf vs :=
  (h.map value).prod_eq

/-- The value of units with positive scales can be cancelled. -/
theorem isUnit_valueOf {us : List PhysicalUnit} (h : ∀ u ∈ us, 0 < u.scale) : IsUnit (valueOf us) := by
  refine List.prod_isUnit fun x hx => ?_
  obtain ⟨u, hu, rfl⟩ := List.mem_map.mp hx
  exact Prod.isUnit_iff.mpr ⟨Group.isUnit _, (h u hu).ne'.isUnit⟩

theorem Regroups.isEquivalent (h : c.Regroups d) (hpos : ∀ x ∈ c.operands ++ d.operands, 0 < x.scale)
    (hc : c.run = .ok u) (hd : d.run = .ok v) : u.isEquivalent v = true := by
  have hcu : IsUnit (valueOf c.denominators) := isUnit_valueOf fun x hx => hpos x (by simp [operands, hx])
  have hdu : IsUnit (valueOf d.denominators) := isUnit_valueOf fun x hx => hpos x (by simp [operands, hx])
  have hmul : valueOf c.numerators * valueOf d.denominators = valueOf d.numerators * valueOf c.denominators := by
    rw [← valueOf_append, ← valueOf_append, valueOf_perm h]
  rw [isEquivalent_iff, value_run hc, value_run hd]
  exact (hcu.div_eq_div_iff hdu).mpr hmul

end UnitChain

namespace PhysicalUnit

variable {u v w : PhysicalUnit} {m n : Int}

/-! ## Inverses and powers -/

theorem value_pow (h : u.pow n = .ok w) : w.value = u.value ^ n := by
  obtain ⟨hs, hd⟩ := pow_eq_ok h
  refine Prod.ext (congrArg Multiplicative.ofAdd ?_) hs
  rw [hd, Int.cast_smul_eq_zsmul]
  rfl

theorem isUnit_value (hu : 0 < u.scale) : IsUnit u.value :=
  Prod.isUnit_iff.mpr ⟨Group.isUnit _, hu.ne'.isUnit⟩

/-- A unit over itself. -/
theorem exists_divide_self (hu : 0 < u.scale) :
    ∃ w, u.divide u = .ok w ∧ w.isEquivalent dimensionless = true := by
  have hzero : u.dimension.exponents.zipWith (· - ·) u.dimension.exponents =
      Dimension.dimensionless.exponents := by
    ext i hi
    have hentry : Dimension.dimensionless.exponents[i] = 0 := by
      revert i
      decide
    simp [hentry]
  have hdimension : u.dimension.divide u.dimension = some Dimension.dimensionless := by
    rw [Dimension.divide, hzero]
    exact Dimension.make?_of_inRange invariant_inRange.dimensionless
  have hscale : liftNumber (Exact.divide u.scale u.scale) = .ok (u.scale / u.scale) := by
    rw [Exact.divide, if_neg hu.ne']
    rfl
  have hok : u.divide u = .ok ⟨_, _, _, _⟩ :=
    bind_eq_ok.mpr ⟨_, hscale, bind_eq_ok.mpr ⟨_, by rw [hdimension]; rfl, rfl⟩⟩
  refine ⟨_, hok, isEquivalent_iff.mpr ?_⟩
  rw [value_divide hok, (isUnit_value hu).div_self, value_dimensionless]

/-! ## Conversion factors -/

theorem factorTo_of_compatible (h : u.isCompatible v = true) (hv : v.scale ≠ 0) :
    u.factorTo v = .ok (u.scale / v.scale) := by
  rw [factorTo, if_pos h, Exact.divide, if_neg hv]
  rfl

theorem isCompatible_iff : u.isCompatible v = true ↔ u.dimension = v.dimension := decide_eq_true_iff

/-- The laws of the units that are made of texts by operations. -/
structure GroupLaws : Prop where
  scale_pos : ∀ u : PhysicalUnit, u.Attainable → 0 < u.scale
  multiply_defined : ∀ u v : PhysicalUnit, u.Attainable → v.Attainable → ¬ DividesByZero (u.multiply v)
  divide_defined : ∀ u v : PhysicalUnit, u.Attainable → v.Attainable → ¬ DividesByZero (u.divide v)
  factor_defined : ∀ u v : PhysicalUnit, u.Attainable → v.Attainable → ¬ DividesByZero (u.factorTo v)
  pow_defined : ∀ (u : PhysicalUnit) (n : Int), u.Attainable → ¬ DividesByZero (u.pow n)
  ratio_defined : ∀ (u : PhysicalUnit) (num : Int) (den : Nat), u.Attainable →
    ¬ DividesByZero (u.powRatio num den)
  regrouped : ∀ (c d : UnitChain) (u v : PhysicalUnit), (∀ x ∈ c.operands ++ d.operands, x.Attainable) →
    c.Regroups d → c.run = .ok u → d.run = .ok v → u.isEquivalent v = true
  one_multiply : ∀ u : PhysicalUnit, u.Attainable →
    ∃ w, dimensionless.multiply u = .ok w ∧ w.isEquivalent u = true
  divide_self : ∀ u : PhysicalUnit, u.Attainable →
    ∃ w, u.divide u = .ok w ∧ w.isEquivalent dimensionless = true
  divide_eq_inverse : ∀ u v inverse q p : PhysicalUnit, u.Attainable → v.Attainable →
    u.divide v = .ok q → v.pow (-1) = .ok inverse → u.multiply inverse = .ok p → q.isEquivalent p = true
  pow_pow : ∀ (u a b p : PhysicalUnit) (m n : Int), u.Attainable →
    u.pow m = .ok a → a.pow n = .ok b → u.pow (m * n) = .ok p → b.isEquivalent p = true
  factor_self : ∀ u : PhysicalUnit, u.Attainable → u.factorTo u = .ok 1
  factor_trans : ∀ u v w : PhysicalUnit, u.Attainable → v.Attainable → w.Attainable →
    u.isCompatible v = true → v.isCompatible w = true →
    ∃ p q, u.factorTo v = .ok p ∧ v.factorTo w = .ok q ∧ u.factorTo w = .ok (p * q)
  factor_cancel : ∀ u v w uw vw : PhysicalUnit, u.Attainable → v.Attainable → w.Attainable →
    u.isCompatible v = true → u.multiply w = .ok uw → v.multiply w = .ok vw →
    ∃ q, u.factorTo v = .ok q ∧ uw.factorTo vw = .ok q

theorem groupLaws : GroupLaws where
  scale_pos _ hu := hu.scale_pos
  multiply_defined _ _ _ _ := not_dividesByZero_multiply
  divide_defined _ _ _ hv := not_dividesByZero_divide hv.scale_pos.ne'
  factor_defined _ _ _ hv := not_dividesByZero_factorTo hv.scale_pos.ne'
  pow_defined _ _ hu := not_dividesByZero_pow hu.scale_pos.ne'
  ratio_defined _ _ _ hu := not_dividesByZero_powRatio hu.scale_pos.ne'
  regrouped _ _ _ _ hmade hregroup := hregroup.isEquivalent fun x hx => (hmade x hx).scale_pos
  one_multiply u hu := by
    obtain ⟨w, hw, hvalue⟩ := dimensionless_multiply hu.inRange
    exact ⟨w, hw, isEquivalent_iff.mpr hvalue⟩
  divide_self _ hu := exists_divide_self hu.scale_pos
  divide_eq_inverse u v inverse q p _ _ hq hinverse hp := by
    rw [isEquivalent_iff, value_divide hq, value_multiply hp, value_pow hinverse, zpow_neg_one,
      div_eq_mul_inv]
  pow_pow u a b p m n _ ha hb hp := by
    rw [isEquivalent_iff, value_pow hb, value_pow ha, value_pow hp, zpow_mul]
  factor_self u hu := by
    rw [factorTo_of_compatible (isCompatible_iff.mpr rfl) hu.scale_pos.ne', div_self hu.scale_pos.ne']
  factor_trans u v w _ hv hw huv hvw := by
    have huw : u.isCompatible w = true :=
      isCompatible_iff.mpr ((isCompatible_iff.mp huv).trans (isCompatible_iff.mp hvw))
    refine ⟨_, _, factorTo_of_compatible huv hv.scale_pos.ne', factorTo_of_compatible hvw hw.scale_pos.ne', ?_⟩
    rw [factorTo_of_compatible huw hw.scale_pos.ne', div_mul_div_cancel₀ hv.scale_pos.ne']
  factor_cancel u v w uw vw _ hv hw huv huw hvw := by
    obtain ⟨hsu, hdu⟩ := multiply_eq_ok huw
    obtain ⟨hsv, hdv⟩ := multiply_eq_ok hvw
    have hdimension : uw.dimension = vw.dimension := by
      refine Dimension.vector_injective ?_
      rw [hdu, hdv, isCompatible_iff.mp huv]
    have hscale : vw.scale ≠ 0 := hsv ▸ mul_ne_zero hv.scale_pos.ne' hw.scale_pos.ne'
    refine ⟨_, factorTo_of_compatible huv hv.scale_pos.ne', ?_⟩
    rw [factorTo_of_compatible (isCompatible_iff.mpr hdimension) hscale, hsu, hsv,
      mul_div_mul_right _ _ hw.scale_pos.ne']

/-- Kilometres per hour times hours per metre, and kilometres per metre: two symbols, one unit. -/
theorem groupLaws_kilometre : ∃ (c d : UnitChain) (u v : PhysicalUnit),
    (∀ x ∈ c.operands ++ d.operands, x.Attainable) ∧ c.Regroups d ∧ c.run = .ok u ∧ d.run = .ok v ∧
    u.symbol = "km/h*h/m" ∧ v.symbol = "km/m" ∧ u.isEquivalent v = true := by
  let km : PhysicalUnit := ⟨"km", "kilometer", .length, 1000⟩
  let h : PhysicalUnit := ⟨"h", "hour", .time, 3600⟩
  let m : PhysicalUnit := ⟨"m", "meter", .length, 1⟩
  let c := UnitChain.product (.quotient (.unit km) (.unit h)) (.quotient (.unit h) (.unit m))
  let d := UnitChain.quotient (.unit km) (.unit m)
  have hread : ∀ x ∈ [km, h, m], (read x.symbol.toList).toOption = some x := by decide +kernel
  have hmade : ∀ x ∈ c.operands ++ d.operands, x.Attainable := fun x hx =>
    ⟨.text x.symbol, toOption_eq_some.mp (hread x (by
      revert x
      decide +kernel))⟩
  have hregroup : c.Regroups d := by decide +kernel
  obtain ⟨u, hu, hsymbol⟩ : ∃ u, c.run = .ok u ∧ u.symbol = "km/h*h/m" :=
    Except.map_eq_ok.mp (toOption_eq_some.mp (by decide +kernel))
  obtain ⟨v, hv, hsymbol'⟩ : ∃ v, d.run = .ok v ∧ v.symbol = "km/m" :=
    Except.map_eq_ok.mp (toOption_eq_some.mp (by decide +kernel))
  exact ⟨c, d, u, v, hmade, hregroup, hu, hv, hsymbol, hsymbol',
    groupLaws.regrouped c d u v hmade hregroup hu hv⟩

end PhysicalUnit

end Formulary
