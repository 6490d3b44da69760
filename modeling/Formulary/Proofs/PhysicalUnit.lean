import Formulary.PhysicalUnit.Reader
import Formulary.Proofs.Entry.Resolution
import Formulary.Proofs.Meaning.Exact
import Mathlib.Analysis.SpecialFunctions.Pow.Real

/-!
The arithmetic of physical units.

Products, quotients and powers of units multiply, divide and raise the scales and add, subtract and
multiply the exponent vectors. Every unit that the table has or that text denotes has a positive
scale.

## How the laws are stated

An operation fails where an exponent leaves the range of a machine integer. So each law starts from a
result, and says which scale and which exponents it has (`multiply_eq_ok` and its like); that there is a
result is another question, for which the size of the exponents is needed, and is not taken up here.
Exponents are vectors of real numbers, although they are integers: a rational power multiplies them by a
fraction, and that integers come out need not be mentioned.

A rational power is a root and then a power, and a root is determined by its power only among positive
numbers. This is why `powRatio_eq_ok` asks for a positive scale; all units have one (`invariant_pos`).

## Properties of all units

There are two ways to show that all units have a property. `Invariant` is for one that the table has, that
operations keep and that takes no notice of the symbol: then what a text denotes has it, level by level of
the reader (`Invariant.read`). The last condition is there because the reader puts the text in the place of
the symbol. `Closed` is for a property that concerns the symbol as well: that texts denote units with it
has to be shown for the text as a whole then, so it is one of the conditions.
-/

namespace Formulary

namespace Dimension

/-- The exponents as real numbers. -/
def vector (d : Dimension) : Fin 7 → ℝ := fun i => d.exponents[i]

variable {a b d : Dimension}

theorem make?_eq_some {exponents : Vector Int 7} (h : make? exponents = some d) :
    d.exponents = exponents := by
  unfold make? at h
  split at h
  · cases h
    rfl
  · cases h

theorem vector_dimensionless : dimensionless.vector = 0 := by
  funext i
  fin_cases i <;> simp [vector, dimensionless, ofMechanical]

theorem vector_multiply (h : a.multiply b = some d) : d.vector = a.vector + b.vector := by
  funext i
  simp [vector, make?_eq_some h]

theorem vector_divide (h : a.divide b = some d) : d.vector = a.vector - b.vector := by
  funext i
  simp [vector, make?_eq_some h]

theorem vector_pow {n : Int} (h : a.pow n = some d) : d.vector = (n : ℝ) • a.vector := by
  funext i
  simp [vector, make?_eq_some h, mul_comm]

theorem root_eq_some {n : Nat} (h : a.root n = some d) :
    n ≠ 0 ∧ Exact.fitsInt32 n ∧ (n : ℝ) • d.vector = a.vector := by
  unfold root at h
  split at h
  · cases h
  rename_i hn
  simp only [Bool.or_eq_true, decide_eq_true_eq, Bool.not_eq_true', not_or,
    Bool.not_eq_false] at hn
  split at h
  · rename_i hall
    cases h
    refine ⟨hn.1, hn.2, ?_⟩
    funext i
    have hi := Vector.all_eq_true.mp hall i.1 i.2
    simp only [beq_iff_eq] at hi
    have hmul : (n : Int) * (a.exponents[i] / (n : Int)) = a.exponents[i] :=
      Int.mul_ediv_cancel' (Int.dvd_of_emod_eq_zero hi)
    simp only [vector, Pi.smul_apply, smul_eq_mul, Fin.getElem_fin, Vector.getElem_map]
    exact_mod_cast hmul
  · cases h

theorem vector_powRatio {num : Int} {den : Nat} (h : a.powRatio num den = some d) :
    den ≠ 0 ∧ Exact.fitsInt32 den ∧ d.vector = ((num : ℝ) / den) • a.vector := by
  obtain ⟨r, hroot, hpow⟩ := Option.bind_eq_some_iff.mp h
  obtain ⟨hn, hfits, hvec⟩ := root_eq_some hroot
  refine ⟨hn, hfits, ?_⟩
  have hden : (den : ℝ) ≠ 0 := Nat.cast_ne_zero.mpr hn
  rw [vector_pow hpow, ← hvec, smul_smul, div_mul_cancel₀ _ hden]

end Dimension

namespace PhysicalUnit

variable {u v w : PhysicalUnit}

theorem inRange_eq_ok {applied : String} {o : Option Dimension} {d : Dimension}
    (h : u.inRange applied o = .ok d) : o = some d := by
  cases o with
  | some d' =>
    cases h
    rfl
  | none => cases h

theorem liftNumber_eq_ok {α : Type} {x : Except NumberError α} {a : α}
    (h : liftNumber x = .ok a) : x = .ok a := by
  cases x with
  | ok a' =>
    cases h
    rfl
  | error e => cases h

/-! ## Scales and dimensions -/

theorem multiply_eq_ok (h : u.multiply v = .ok w) :
    w.scale = u.scale * v.scale ∧ w.dimension.vector = u.dimension.vector + v.dimension.vector := by
  obtain ⟨d, hd, h⟩ := Except.bind_eq_ok.mp h
  cases h
  exact ⟨rfl, Dimension.vector_multiply (inRange_eq_ok hd)⟩

theorem divide_eq_ok (h : u.divide v = .ok w) :
    v.scale ≠ 0 ∧ w.scale = u.scale / v.scale ∧
      w.dimension.vector = u.dimension.vector - v.dimension.vector := by
  obtain ⟨s, hs, h⟩ := Except.bind_eq_ok.mp h
  obtain ⟨d, hd, h⟩ := Except.bind_eq_ok.mp h
  obtain ⟨hv, rfl⟩ := Exact.divide_eq_ok (liftNumber_eq_ok hs)
  cases h
  exact ⟨hv, rfl, Dimension.vector_divide (inRange_eq_ok hd)⟩

theorem pow_eq_ok {n : Int} (h : u.pow n = .ok w) :
    w.scale = u.scale ^ n ∧ w.dimension.vector = (n : ℝ) • u.dimension.vector := by
  obtain ⟨d, hd, h⟩ := Except.bind_eq_ok.mp h
  obtain ⟨s, hs, h⟩ := Except.bind_eq_ok.mp h
  have hs := (Exact.power_eq_ok (liftNumber_eq_ok hs)).1
  cases h
  exact ⟨hs, Dimension.vector_pow (inRange_eq_ok hd)⟩

theorem factorTo_eq_ok {q : Rat} (h : u.factorTo v = .ok q) :
    v.scale ≠ 0 ∧ q = u.scale / v.scale ∧ u.dimension = v.dimension := by
  unfold factorTo at h
  split at h
  · rename_i hc
    obtain ⟨hv, hq⟩ := Exact.divide_eq_ok (liftNumber_eq_ok h)
    exact ⟨hv, hq, by simpa [isCompatible] using hc⟩
  · cases h

/-- A rational power of a unit with a positive scale raises the scale to that power. -/
theorem powRatio_eq_ok (hu : 0 < u.scale) {num : Int} {den : Nat} (h : u.powRatio num den = .ok w) :
    0 < w.scale ∧ (w.scale : ℝ) = (u.scale : ℝ) ^ ((num : ℝ) / den) ∧
      w.dimension.vector = ((num : ℝ) / den) • u.dimension.vector := by
  unfold powRatio at h
  split at h
  · rename_i hden
    obtain ⟨hs, hd⟩ := pow_eq_ok h
    rw [hden, Nat.cast_one, div_one]
    refine ⟨hs ▸ zpow_pos hu num, ?_, hd⟩
    rw [hs, Real.rpow_intCast]
    push_cast
    rfl
  · split at h
    · rename_i d root hd hroot
      obtain ⟨s, hs, h⟩ := Except.bind_eq_ok.mp h
      have hs := (Exact.power_eq_ok (liftNumber_eq_ok hs)).1
      obtain ⟨hden, hfits, hvec⟩ := Dimension.vector_powRatio hd
      obtain ⟨hpow, hnonneg, -⟩ := Exact.root?_pow hfits hroot
      have hrpos : 0 < root := by
        refine lt_of_le_of_ne (hnonneg hu.le) ?_
        rintro rfl
        rw [zero_pow hden] at hpow
        exact hu.ne hpow
      cases h
      refine ⟨hs ▸ zpow_pos hrpos num, ?_, hvec⟩
      have hroot' : (0 : ℝ) < root := by exact_mod_cast hrpos
      have hscale : (u.scale : ℝ) = (root : ℝ) ^ (den : ℝ) := by
        rw [Real.rpow_natCast]
        exact_mod_cast hpow.symm
      have hden' : (den : ℝ) ≠ 0 := Nat.cast_ne_zero.mpr hden
      rw [hscale, ← Real.rpow_mul hroot'.le, mul_div_cancel₀ _ hden', Real.rpow_intCast, hs]
      push_cast
      rfl
    · cases h

/-- A sum or difference keeps the left unit. -/
theorem combine_additive {op : UnitOp} (hop : op = .add ∨ op = .sub) (h : op.combine u v = .ok w) :
    w = u := by
  have hif : (if u.isCompatible v then .ok u else .error (.incompatible v u)) =
      (Except.ok w : Except UnitError PhysicalUnit) := by
    rcases hop with rfl | rfl
    · exact h
    · exact h
  split at hif
  · cases hif
    rfl
  · cases hif

/-! ## What every unit has in common -/

/-- A property of the known units that operations keep and that does not depend on the symbol. -/
structure Invariant (P : PhysicalUnit → Prop) : Prop where
  dimensionless : P dimensionless
  row : ∀ r ∈ rows, P r.unit
  multiply : ∀ {u v w : PhysicalUnit}, P u → P v → u.multiply v = .ok w → P w
  divide : ∀ {u v w : PhysicalUnit}, P u → P v → u.divide v = .ok w → P w
  powRatio : ∀ {u w : PhysicalUnit} {num : Int} {den : Nat}, P u → u.powRatio num den = .ok w → P w
  symbol : ∀ {u : PhysicalUnit} (s : String), P u → P { u with symbol := s }

namespace Invariant

variable {P : PhysicalUnit → Prop} (hP : Invariant P)

include hP

theorem pow {n : Int} (hu : P u) (h : u.pow n = .ok w) : P w :=
  hP.powRatio hu (show u.powRatio n 1 = .ok w from h)

theorem lookup? {spelling : String} (h : lookup? spelling = some u) : P u := by
  unfold PhysicalUnit.lookup? at h
  obtain ⟨r, hr, rfl⟩ := Option.map_eq_some_iff.mp h
  rcases Option.or_eq_some_iff.mp hr with hr | ⟨-, hr⟩
  · exact hP.row r (List.mem_of_find?_eq_some hr)
  · exact hP.row r (List.mem_of_find?_eq_some hr)

theorem readName {s : List Char} (h : readName s = .ok u) : P u := by
  unfold PhysicalUnit.readName at h
  simp only at h
  split at h
  · cases h
    exact hP.dimensionless
  · split at h
    · rename_i hl
      cases h
      exact hP.lookup? hl
    · cases h

omit hP in
/-- What each step of a fold keeps holds at its end. -/
theorem foldlM {step : PhysicalUnit → List Char → Except UnitError PhysicalUnit}
    (hstep : ∀ acc p w, P acc → step acc p = .ok w → P w) :
    ∀ (parts : List (List Char)) (acc : PhysicalUnit), P acc → parts.foldlM step acc = .ok w → P w
  | [], acc, hacc, h => by
    cases h
    exact hacc
  | p :: parts, acc, hacc, h => by
    rw [List.foldlM_cons] at h
    obtain ⟨acc', hp, h⟩ := Except.bind_eq_ok.mp h
    exact foldlM hstep parts acc' (hstep acc p acc' hacc hp) h

section Groups

variable {group : List Char → Except UnitError PhysicalUnit} {s : List Char}
  (hgroup : ∀ s u, group s = .ok u → P u)

include hgroup

theorem readPower (h : readPower group s = .ok u) : P u := by
  rw [PhysicalUnit.readPower_def] at h
  split at h
  · obtain ⟨v, hv, h⟩ := Except.bind_eq_ok.mp h
    obtain ⟨⟨num, den⟩, -, h⟩ := Except.bind_eq_ok.mp h
    exact hP.powRatio (hgroup _ v hv) h
  · split at h
    · obtain ⟨v, hv, h⟩ := Except.bind_eq_ok.mp h
      exact hP.pow (hP.readName hv) h
    · exact hgroup _ u h

theorem readProduct (h : readProduct group s = .ok u) : P u := by
  rw [PhysicalUnit.readProduct_def] at h
  split at h
  · cases h
    exact hP.dimensionless
  · refine foldlM (fun acc p w hacc hstep => ?_) _ _ hP.dimensionless h
    obtain ⟨v, hv, hstep⟩ := Except.bind_eq_ok.mp hstep
    exact hP.multiply hacc (hP.readPower hgroup hv) hstep

theorem readQuotient (h : readQuotient group s = .ok u) : P u := by
  rw [PhysicalUnit.readQuotient_def] at h
  split at h
  · cases h
  · obtain ⟨top, htop, h⟩ := Except.bind_eq_ok.mp h
    refine foldlM (fun acc p w hacc hstep => ?_) _ _ (hP.readProduct hgroup htop) h
    split at hstep
    · cases hstep
    · obtain ⟨v, hv, hstep⟩ := Except.bind_eq_ok.mp hstep
      exact hP.divide hacc (hP.readProduct hgroup hv) hstep

end Groups

theorem readGroup : ∀ (depth : Nat) (s : List Char) (u : PhysicalUnit),
    readGroup depth s = .ok u → P u
  | 0, s, u, h => hP.readName h
  | depth + 1, s, u, h => by
    rw [PhysicalUnit.readGroup_succ] at h
    split at h
    · exact hP.readQuotient (readGroup depth) h
    · exact hP.readName h

/-- Every unit that a text denotes has the property. -/
theorem read {s : List Char} (h : read s = .ok u) : P u := by
  rw [PhysicalUnit.read_def] at h
  split at h
  · cases h
    exact hP.dimensionless
  · split at h
    · rename_i hl
      cases h
      exact hP.lookup? hl
    · obtain ⟨v, hv, h⟩ := Except.bind_eq_ok.mp h
      cases h
      exact hP.symbol _ (hP.readQuotient (hP.readGroup _) hv)

end Invariant

/-- A property of what texts denote that operations keep. -/
structure Closed (P : PhysicalUnit → Prop) : Prop where
  read : ∀ {s : List Char} {u : PhysicalUnit}, read s = .ok u → P u
  multiply : ∀ {u v w : PhysicalUnit}, P u → P v → u.multiply v = .ok w → P w
  divide : ∀ {u v w : PhysicalUnit}, P u → P v → u.divide v = .ok w → P w
  powRatio : ∀ {u w : PhysicalUnit} {num : Int} {den : Nat}, Exact.fitsInt32 num = true →
    Exact.fitsInt32 den = true → num.natAbs.Coprime den → P u → u.powRatio num den = .ok w → P w

theorem Closed.dimensionless {P : PhysicalUnit → Prop} (hP : Closed P) : P dimensionless :=
  hP.read (s := []) rfl

theorem Invariant.closed {P : PhysicalUnit → Prop} (hP : Invariant P) : Closed P where
  read := hP.read
  multiply := hP.multiply
  divide := hP.divide
  powRatio _ _ _ := hP.powRatio

/-! ## Positive scales -/

theorem rows_pos : ∀ r ∈ rows, 0 < r.unit.scale := by decide +kernel

/-- A scale is positive. -/
theorem invariant_pos : Invariant fun u => 0 < u.scale where
  dimensionless := by decide
  row := rows_pos
  multiply hu hv h := by
    rw [(multiply_eq_ok h).1]
    exact mul_pos hu hv
  divide hu hv h := by
    rw [(divide_eq_ok h).2.1]
    exact div_pos hu hv
  powRatio hu h := (powRatio_eq_ok hu h).1
  symbol _ hu := hu

end PhysicalUnit

end Formulary
