import Formulary.Proofs.Entry.Canonical
import Formulary.Proofs.Meaning.Canonical

/-!
Quantities and the physical values they stand for.

A physical value is a magnitude in SI base units with the exponents of the base quantities. A term
with a unit denotes the physical value whose magnitude is the value of the term times the scale of
the unit. Each operation on quantities denotes the operation on physical values, provided that both
operands of a sum or difference carry a unit or neither does.
-/

namespace Formulary

/-- A magnitude in SI base units, and the exponents of the base quantities. -/
structure PhysicalValue where
  magnitude : ℝ
  dimension : Fin 7 → ℝ

namespace PhysicalValue

/-- A pure number. -/
def plain (x : ℝ) : PhysicalValue := ⟨x, 0⟩

/-- The sum, in the dimension of the left operand. -/
def add (X Y : PhysicalValue) : PhysicalValue := ⟨X.magnitude + Y.magnitude, X.dimension⟩

/-- The difference, in the dimension of the left operand. -/
def sub (X Y : PhysicalValue) : PhysicalValue := ⟨X.magnitude - Y.magnitude, X.dimension⟩

/-- The product; the exponents are added. -/
def mul (X Y : PhysicalValue) : PhysicalValue :=
  ⟨X.magnitude * Y.magnitude, X.dimension + Y.dimension⟩

open Classical in
/-- The quotient by what is not zero; the exponents are subtracted. -/
noncomputable def div? (X Y : PhysicalValue) : Option PhysicalValue :=
  if Y.magnitude = 0 then none
  else some ⟨X.magnitude / Y.magnitude, X.dimension - Y.dimension⟩

/-- The power; the exponents are multiplied. -/
noncomputable def pow? (X Y : PhysicalValue) : Option PhysicalValue :=
  (realPower? X.magnitude Y.magnitude).map fun v => ⟨v, Y.magnitude • X.dimension⟩

/-- The negated value. -/
def neg (X : PhysicalValue) : PhysicalValue := ⟨-X.magnitude, X.dimension⟩

end PhysicalValue

/-- The factor to SI base units; a pure number has none. -/
noncomputable def unitScale : Option PhysicalUnit → ℝ
  | some u => u.scale
  | none => 1

/-- The exponents of the base quantities; a pure number has none. -/
def unitVector : Option PhysicalUnit → Fin 7 → ℝ
  | some u => u.dimension.vector
  | none => 0

@[simp] theorem unitScale_none : unitScale none = 1 := rfl

@[simp] theorem unitScale_some (u : PhysicalUnit) : unitScale (some u) = u.scale := rfl

@[simp] theorem unitVector_none : unitVector none = 0 := rfl

@[simp] theorem unitVector_some (u : PhysicalUnit) : unitVector (some u) = u.dimension.vector := rfl

namespace Quantity

/-- The physical value of a quantity: its term has a value, which the scale of the unit takes to SI
base units. -/
def Denotes (I : Interpretation) (q : Quantity) (X : PhysicalValue) : Prop :=
  ∃ v, q.term.value? I = some v ∧ v * unitScale q.unit = X.magnitude ∧ unitVector q.unit = X.dimension

/-- The term is canonical and the scale of the unit is positive. -/
structure Regular (q : Quantity) : Prop where
  canonical : q.term.Canonical (fun _ => True) (fun _ => True)
  positive : PositiveUnit q.unit

variable {I : Interpretation} {X Y : PhysicalValue} {l r q : Quantity} {t : Term}

theorem Regular.scale_pos (h : q.Regular) : 0 < unitScale q.unit := by
  cases hu : q.unit with
  | none => exact one_pos
  | some u =>
    have := h.positive u hu
    simpa using this

theorem regular_plain (h : t.Canonical (fun _ => True) (fun _ => True)) : (plain t).Regular :=
  ⟨h, positiveUnit_none⟩

theorem denotes_plain {x : ℝ} : (plain t).Denotes I (.plain x) ↔ t.value? I = some x := by
  constructor
  · rintro ⟨v, hv, hmag, -⟩
    have : v = x := by simpa [plain, PhysicalValue.plain] using hmag
    exact this ▸ hv
  · intro h
    exact ⟨x, h, by simp [plain, PhysicalValue.plain], rfl⟩

/-! ## Rescaling -/

theorem value?_rescale {f : Rat} {v : ℝ} (h : t.value? I = some v) :
    (rescale f t).value? I = some (f * v) := by
  unfold rescale
  split
  · rename_i hf
    rw [hf, h, Rat.cast_one, one_mul]
  · have hvs : Term.values? I [.num f, t] = some [(f : ℝ), v] :=
      Term.values?_cons.mpr ⟨_, [v], rfl, Term.values?_singleton.mpr ⟨v, h, rfl⟩, rfl⟩
    rw [Term.value?_product hvs]
    simp

/-- A dimensionless quantity turned into a plain number has its magnitude as value. -/
theorem toPlain_eq_ok {function : String} (h : q.toPlain function = .ok t) (hq : q.Regular) :
    t.Canonical (fun _ => True) (fun _ => True) ∧
      ∀ I X, q.Denotes I X → t.value? I = some X.magnitude ∧ X.dimension = 0 := by
  unfold toPlain at h
  cases hu : q.unit with
  | none =>
    simp only [hu] at h
    cases h
    refine ⟨hq.canonical, ?_⟩
    rintro I X ⟨v, hv, hmag, hdim⟩
    rw [hu] at hmag hdim
    rw [unitScale_none, mul_one] at hmag
    exact ⟨hmag ▸ hv, hdim.symm⟩
  | some u =>
    simp only [hu] at h
    split at h
    · rename_i hd
      cases h
      refine ⟨rescale_canonical hq.canonical, ?_⟩
      rintro I X ⟨v, hv, hmag, hdim⟩
      rw [hu] at hmag hdim
      rw [unitScale_some] at hmag
      rw [unitVector_some] at hdim
      have hd : u.dimension = .dimensionless := by simpa [Dimension.isDimensionless] using hd
      refine ⟨?_, by rw [← hdim, hd, Dimension.vector_dimensionless]⟩
      rw [value?_rescale hv, ← hmag, mul_comm]
    · cases h

/-! ## Sums and differences -/

/-- Two terms brought to one unit, both quantities carrying a unit or neither. -/
theorem unify_eq_ok {op : UnitOp} {a b : Term} {unit : Option PhysicalUnit}
    (hop : op = .add ∨ op = .sub) (h : unify op l r = .ok (a, b, unit)) (hr : r.Regular)
    (hboth : l.unit.isSome = r.unit.isSome) :
    unit = l.unit ∧ a = l.term ∧ b.Canonical (fun _ => True) (fun _ => True) ∧
      ∀ I Y, r.Denotes I Y → ∃ y, b.value? I = some y ∧ y * unitScale l.unit = Y.magnitude ∧
        unitVector l.unit = Y.dimension := by
  unfold unify at h
  cases hlu : l.unit with
  | none =>
    cases hru : r.unit with
    | some v => simp [hlu, hru] at hboth
    | none =>
      simp only [hlu, hru] at h
      cases h
      exact ⟨rfl, rfl, hr.canonical, fun I Y hY => by simpa [Denotes, hru] using hY⟩
  | some u =>
    cases hru : r.unit with
    | none => simp [hlu, hru] at hboth
    | some v =>
      simp only [hlu, hru] at h
      obtain ⟨w, hw, h⟩ := Except.bind_eq_ok.mp h
      obtain ⟨f, hf, h⟩ := Except.bind_eq_ok.mp h
      obtain ⟨hne, rfl, hdim⟩ := PhysicalUnit.factorTo_eq_ok (lift_eq_ok hf)
      have hw := PhysicalUnit.combine_additive hop (lift_eq_ok hw)
      cases h
      refine ⟨by rw [hw], rfl, rescale_canonical hr.canonical, ?_⟩
      rintro I Y ⟨y, hy, hmag, hvec⟩
      rw [hru] at hmag hvec
      refine ⟨_, value?_rescale hy, ?_, ?_⟩
      · rw [← hmag, unitScale_some, unitScale_some]
        have hne' : (u.scale : ℝ) ≠ 0 := by exact_mod_cast hne
        push_cast
        field_simp
      · rw [← hvec, unitVector_some, unitVector_some, hdim]

theorem add_eq_ok (h : l.add r = .ok q) (hl : l.Regular) (hr : r.Regular)
    (hboth : l.unit.isSome = r.unit.isSome) :
    q.Regular ∧ q.unit = l.unit ∧
      ∀ I X Y, l.Denotes I X → r.Denotes I Y → q.Denotes I (X.add Y) := by
  obtain ⟨⟨a, b, unit⟩, hunify, h⟩ := Except.bind_eq_ok.mp h
  obtain ⟨rfl, rfl, hb, hval⟩ := unify_eq_ok (.inl rfl) hunify hr hboth
  have hcan : ∀ t ∈ [l.term, b], t.Canonical (fun _ => True) (fun _ => True) := by
    simpa using ⟨hl.canonical, hb⟩
  cases h
  refine ⟨⟨Term.Canonical.sum hcan, hl.positive⟩, rfl, ?_⟩
  rintro I X Y ⟨x, hx, hxm, hxd⟩ hY
  obtain ⟨y, hy, hym, hyd⟩ := hval I Y hY
  refine ⟨x + y, ?_, ?_, hxd⟩
  · rw [Term.value?_sum hcan (Term.values?_cons.mpr
      ⟨x, [y], hx, Term.values?_singleton.mpr ⟨y, hy, rfl⟩, rfl⟩)]
    simp
  · rw [add_mul, hxm, hym]
    rfl

theorem sub_eq_ok (h : l.sub r = .ok q) (hl : l.Regular) (hr : r.Regular)
    (hboth : l.unit.isSome = r.unit.isSome) :
    q.Regular ∧ q.unit = l.unit ∧
      ∀ I X Y, l.Denotes I X → r.Denotes I Y → q.Denotes I (X.sub Y) := by
  obtain ⟨⟨a, b, unit⟩, hunify, h⟩ := Except.bind_eq_ok.mp h
  obtain ⟨rfl, rfl, hb, hval⟩ := unify_eq_ok (.inr rfl) hunify hr hboth
  cases h
  refine ⟨⟨hl.canonical.difference hb, hl.positive⟩, rfl, ?_⟩
  rintro I X Y ⟨x, hx, hxm, hxd⟩ hY
  obtain ⟨y, hy, hym, hyd⟩ := hval I Y hY
  refine ⟨x - y, Term.value?_difference hl.canonical hb hx hy, ?_, hxd⟩
  rw [sub_mul, hxm, hym]
  rfl

/-! ## Products and quotients -/

/-- What the unit of a result does to values, and whether there is one. -/
structure UnitIs (unit : Option PhysicalUnit) (scale : ℝ) (vector : Fin 7 → ℝ) (present : Bool) :
    Prop where
  scale_eq : unitScale unit = scale
  vector_eq : unitVector unit = vector
  present_eq : unit.isSome = present

variable {u v unit : Option PhysicalUnit}

theorem productUnit_eq_ok (h : productUnit u v = .ok unit) :
    UnitIs unit (unitScale u * unitScale v) (unitVector u + unitVector v)
      (u.isSome || v.isSome) := by
  cases u with
  | none =>
    cases h
    exact ⟨by simp, by simp, by simp⟩
  | some u =>
    cases v with
    | none =>
      cases h
      exact ⟨by simp, by simp, by simp⟩
    | some v =>
      obtain ⟨w, hw, rfl⟩ := Except.map_eq_ok.mp h
      have hw : u.multiply v = .ok w := lift_eq_ok hw
      obtain ⟨hscale, hvec⟩ := PhysicalUnit.multiply_eq_ok hw
      exact ⟨by simp [hscale], hvec, rfl⟩

theorem quotientUnit_eq_ok (h : quotientUnit u v = .ok unit) :
    UnitIs unit (unitScale u / unitScale v) (unitVector u - unitVector v)
      (u.isSome || v.isSome) := by
  cases v with
  | none =>
    have hunit : unit = u := by cases u <;> cases h <;> rfl
    exact hunit ▸ ⟨by simp, by simp, by simp⟩
  | some v =>
    cases u with
    | none =>
      obtain ⟨w, hw, rfl⟩ := Except.map_eq_ok.mp h
      obtain ⟨-, hscale, hvec⟩ := PhysicalUnit.divide_eq_ok (lift_eq_ok hw)
      have hone : PhysicalUnit.dimensionless.scale = 1 := rfl
      have hzero : PhysicalUnit.dimensionless.dimension.vector = 0 := Dimension.vector_dimensionless
      exact ⟨by simp [hscale, hone], by simp [hvec, hzero], rfl⟩
    | some u =>
      obtain ⟨w, hw, rfl⟩ := Except.map_eq_ok.mp h
      have hw : u.divide v = .ok w := lift_eq_ok hw
      obtain ⟨-, hscale, hvec⟩ := PhysicalUnit.divide_eq_ok hw
      exact ⟨by simp [hscale], hvec, rfl⟩

theorem mul_eq_ok (h : l.mul r = .ok q) (hl : l.Regular) (hr : r.Regular) :
    q.Regular ∧ q.unit.isSome = (l.unit.isSome || r.unit.isSome) ∧
      ∀ I X Y, l.Denotes I X → r.Denotes I Y → q.Denotes I (X.mul Y) := by
  rw [mul_eq] at h
  obtain ⟨unit, hunit, rfl⟩ := Except.map_eq_ok.mp h
  have hspec := productUnit_eq_ok hunit
  have hpos := productUnit_positive hl.positive hr.positive hunit
  have hcan : ∀ t ∈ [l.term, r.term], t.Canonical (fun _ => True) (fun _ => True) := by
    simpa using ⟨hl.canonical, hr.canonical⟩
  refine ⟨⟨Term.Canonical.product hcan, hpos⟩, hspec.present_eq, ?_⟩
  rintro I X Y ⟨x, hx, hxm, hxd⟩ ⟨y, hy, hym, hyd⟩
  refine ⟨x * y, ?_, ?_, ?_⟩
  · rw [Term.value?_product (Term.values?_cons.mpr
      ⟨x, [y], hx, Term.values?_singleton.mpr ⟨y, hy, rfl⟩, rfl⟩)]
    simp
  · rw [hspec.scale_eq, mul_mul_mul_comm, hxm, hym]
    rfl
  · rw [hspec.vector_eq, hxd, hyd]
    rfl

theorem div_eq_ok (h : l.div r = .ok q) (hl : l.Regular) (hr : r.Regular) :
    q.Regular ∧ q.unit.isSome = (l.unit.isSome || r.unit.isSome) ∧
      ∀ I X Y Z, l.Denotes I X → r.Denotes I Y → X.div? Y = some Z → q.Denotes I Z := by
  rw [div_eq] at h
  obtain ⟨unit, hunit, rfl⟩ := Except.map_eq_ok.mp h
  have hspec := quotientUnit_eq_ok hunit
  have hpos := quotientUnit_positive hl.positive hr.positive hunit
  refine ⟨⟨hl.canonical.quotient hr.canonical, hpos⟩, hspec.present_eq, ?_⟩
  rintro I X Y Z ⟨x, hx, hxm, hxd⟩ ⟨y, hy, hym, hyd⟩ hZ
  unfold PhysicalValue.div? at hZ
  split at hZ
  · cases hZ
  · rename_i hne
    cases hZ
    have hy0 : y ≠ 0 := by
      rintro rfl
      rw [zero_mul] at hym
      exact hne hym.symm
    refine ⟨x / y, Term.value?_quotient hx hy hy0, ?_, ?_⟩
    · rw [hspec.scale_eq, div_mul_div_comm, hxm, hym]
    · rw [hspec.vector_eq, hxd, hyd]

/-! ## Powers -/

theorem num_of_value {e : Rat} {x : ℝ} (h : (Term.num e).value? I = some x) : x = e := by
  simpa [Term.value?] using h.symm

theorem unitPower_eq_ok {u w : PhysicalUnit} {exponent : Term} (hu : 0 < u.scale)
    (h : unitPower u exponent = .ok w) :
    ∀ I y, exponent.value? I = some y →
      (w.scale : ℝ) = (u.scale : ℝ) ^ y ∧ w.dimension.vector = y • u.dimension.vector := by
  unfold unitPower at h
  split at h
  · cases h
  · rename_i e he
    split at h
    · obtain ⟨-, hscale, hvec⟩ := PhysicalUnit.powRatio_eq_ok hu (lift_eq_ok h)
      intro I y hy
      have hnum : exponent = .num e := by
        cases exponent with
        | num e' =>
          cases he
          rfl
        | _ => cases he
      rw [hnum] at hy
      have hy : ((e.num : ℝ) / (e.den : ℝ)) = y := by
        rw [num_of_value hy]
        exact_mod_cast Rat.num_div_den e
      rw [← hy]
      exact ⟨hscale, hvec⟩
    · cases h

theorem powerUnit_eq_ok {exponent : Term} (hu : PositiveUnit u)
    (h : powerUnit u exponent = .ok unit) {y : ℝ} (hy : exponent.value? I = some y) :
    unitScale unit = unitScale u ^ y ∧ unitVector unit = y • unitVector u := by
  cases u with
  | none =>
    cases h
    exact ⟨by simp, by simp⟩
  | some u =>
    simp only [powerUnit] at h
    split at h
    · rename_i hunity
      cases h
      simp only [PhysicalUnit.isUnity, Dimension.isDimensionless, Bool.and_eq_true,
        decide_eq_true_eq] at hunity
      refine ⟨?_, ?_⟩
      · rw [unitScale_some, hunity.2, Rat.cast_one, Real.one_rpow]
      · rw [unitVector_some, hunity.1, Dimension.vector_dimensionless, smul_zero]
    · obtain ⟨w, hw, rfl⟩ := Except.map_eq_ok.mp h
      exact unitPower_eq_ok (hu u rfl) hw I y hy

theorem powerUnit_isSome {exponent : Term} (h : powerUnit u exponent = .ok unit) :
    unit.isSome = u.isSome := by
  cases u with
  | none =>
    cases h
    rfl
  | some u =>
    simp only [powerUnit] at h
    split at h
    · cases h
      rfl
    · obtain ⟨w, -, rfl⟩ := Except.map_eq_ok.mp h
      rfl

theorem pow_eq_ok (h : l.pow r = .ok q) (hl : l.Regular) (hr : r.Regular) :
    q.Regular ∧ q.unit.isSome = l.unit.isSome ∧
      ∀ I X Y Z, l.Denotes I X → r.Denotes I Y → X.pow? Y = some Z → q.Denotes I Z := by
  rw [pow_eq] at h
  obtain ⟨exponent, hplain, h⟩ := Except.bind_eq_ok.mp h
  obtain ⟨unit, hunit, rfl⟩ := Except.map_eq_ok.mp h
  obtain ⟨hcan, hval⟩ := toPlain_eq_ok hplain hr
  have hpos := powerUnit_positive hl.positive hunit
  refine ⟨⟨hl.canonical.power hcan, hpos⟩, powerUnit_isSome hunit, ?_⟩
  rintro I X Y Z ⟨x, hx, hxm, hxd⟩ hY hZ
  obtain ⟨hy, -⟩ := hval I Y hY
  obtain ⟨hscale, hvec⟩ := powerUnit_eq_ok hl.positive hunit hy
  obtain ⟨p, hp, rfl⟩ := Option.map_eq_some_iff.mp hZ
  -- the scale comes out of the power because it is positive
  rw [← hxm, realPower?_mul_pos hl.scale_pos] at hp
  obtain ⟨v, hv, rfl⟩ := Option.map_eq_some_iff.mp hp
  refine ⟨v, ?_, by rw [hscale], by rw [hvec, hxd]⟩
  exact (Term.power_refines l.term exponent).value? (Term.value?_pow.mpr ⟨x, _, hx, hy, hv⟩)

theorem sqrt_eq_ok (h : l.sqrt = .ok q) (hl : l.Regular) :
    q.Regular ∧ q.unit.isSome = l.unit.isSome ∧
      ∀ I X Z, l.Denotes I X → X.pow? (.plain ((1 / 2 : Rat) : ℝ)) = some Z → q.Denotes I Z := by
  obtain ⟨hq, hunit, hval⟩ := pow_eq_ok h hl (regular_plain (.num _))
  exact ⟨hq, hunit, fun I X Z hX hZ => hval I X _ Z hX (denotes_plain.mpr rfl) hZ⟩

theorem regular_neg (hl : l.Regular) : l.neg.Regular := ⟨hl.canonical.negated, hl.positive⟩

theorem denotes_neg (h : l.Denotes I X) : l.neg.Denotes I X.neg := by
  obtain ⟨v, hv, hmag, hdim⟩ := h
  refine ⟨-v, Term.value?_negated hv, ?_, hdim⟩
  change -v * unitScale l.unit = -X.magnitude
  rw [neg_mul, hmag]

end Quantity

end Formulary
