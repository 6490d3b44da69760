import Formulary.Proofs.Exact.Root
import Formulary.Proofs.PhysicalUnit.RationalPower

/-!
Roots of powers of units.

A root of a power of a unit has a unit just if the root of the scale is found, and then it is the unit
again. For three units of the table it is not: the denominators of their scales are no doubles.
-/

namespace Formulary

open Formulary.Except

namespace Dimension

variable {d w : Dimension} {n : Nat}

/-- The root of a power. -/
theorem powRatio_of_powers (hn : n ≠ 0) (hfits : Exact.fitsInt32 n = true) (hd : d.InRange)
    (h : w.powers = (n : ℤ) • d.powers) : w.powRatio 1 n = some d := by
  refine powRatio_iff.mpr ⟨hn, hfits, d, h, ?_, (one_smul ℤ d.powers).symm⟩
  rw [one_smul]
  exact fits_powers_iff.mpr hd

end Dimension

namespace PhysicalUnit

variable {u w x : PhysicalUnit} {n : Nat}

open Exact (PartsReached)

section Power

variable (hpos : 0 < u.scale) (hrange : u.dimension.InRange) (hn : 2 ≤ n)
  (hfits : Exact.fitsInt32 n = true) (hw : w.Measures ((n : ℤ) • u.dimension.powers) (u.scale ^ n))

include hrange hn hfits hw

/-- The root of a power has the dimension, and the root of the scale. -/
theorem powRatio_root (h : w.powRatio 1 n = .ok x) :
    x.dimension = u.dimension ∧ Exact.root? (u.scale ^ n) n = some x.scale := by
  have hdimension := Dimension.powRatio_of_powers (by omega) hfits hrange hw.powers
  unfold powRatio at h
  rw [if_neg (by omega), hdimension, hw.scale] at h
  cases hroot : Exact.root? (u.scale ^ n) n with
  | none =>
    rw [hroot] at h
    cases h
  | some r =>
    simp only [hroot] at h
    obtain ⟨s, hs, h⟩ := bind_eq_ok.mp h
    cases h
    refine ⟨rfl, ?_⟩
    rw [(Exact.power_eq_ok (liftNumber_eq_ok hs)).1, zpow_one]

include hpos

/-- The root of a power has a unit if the root of the scale is found. -/
theorem exists_powRatio_root_iff : (∃ x, w.powRatio 1 n = .ok x) ↔ PartsReached u.scale n := by
  have hword : n < 4294967296 := by
    simp only [Exact.fitsInt32, Bool.and_eq_true, decide_eq_true_eq] at hfits
    omega
  constructor
  · rintro ⟨x, hx⟩
    obtain ⟨-, hroot⟩ := powRatio_root hrange hn hfits hw hx
    by_contra hparts
    rw [Exact.root?_pow_eq_none hn hword hparts] at hroot
    cases hroot
  · intro hparts
    have hroot := hparts.root? hn hword fun _ => hpos.le
    have hdimension := Dimension.powRatio_of_powers (by omega) hfits hrange hw.powers
    have hpower : Exact.power u.scale 1 = .ok u.scale := by
      obtain ⟨r, hr⟩ := (Exact.exists_power_iff hpos (n := 1)).mpr (.inr (by decide))
      rw [hr, (Exact.power_eq_ok hr).1, zpow_one]
    unfold powRatio
    rw [if_neg (by omega), hdimension, hw.scale, hroot]
    simp only
    rw [hpower]
    exact ⟨_, rfl⟩

/-- The root of a power is the unit again. -/
theorem value_powRatio_root (h : w.powRatio 1 n = .ok x) : x.value = u.value := by
  have hword : n < 4294967296 := by
    simp only [Exact.fitsInt32, Bool.and_eq_true, decide_eq_true_eq] at hfits
    omega
  obtain ⟨hdimension, hroot⟩ := powRatio_root hrange hn hfits hw h
  have hparts := (exists_powRatio_root_iff hpos hrange hn hfits hw).mp ⟨x, h⟩
  have hscale := hparts.root? hn hword fun _ => hpos.le
  exact value_eq_iff.mpr ⟨hdimension, Option.some.inj (hroot.symm.trans hscale)⟩

end Power

/-! ## Squares of known units -/

/-- The units of the table whose scales are doubles. -/
theorem rows_isExact : ∀ r ∈ rows,
    (Double.IsExact r.unit.scale.num.natAbs ∧ Double.IsExact r.unit.scale.den) ↔
      r.unit.symbol ∉ ["amu", "eV", "keV"] := by decide +kernel

theorem rows_square : ∀ r ∈ rows, (r.unit.pow 2).isOk = true := by decide +kernel

/-- **How far exact roots of a degree are found.** -/
structure RootsFound (n : Nat) : Prop where
  /-- A root is found just if it is one and its parts are found. -/
  root : ∀ q r : Rat, Exact.root? q n = some r ↔
    r ^ n = q ∧ (Even n → 0 ≤ r) ∧ (n = 1 ∨ PartsReached r n)
  /-- The root of a power is found if doubles come near its parts. -/
  near : ∀ r : Rat, (Even n → 0 ≤ r) → Exact.Near r.num.natAbs n → Exact.Near r.den n →
    Exact.Expanded r.num.natAbs n → Exact.Expanded r.den n → Exact.root? (r ^ n) n = some r
  /-- It is not if one of them is no double, or cannot be checked. -/
  missed : 2 ≤ n → ∀ r : Rat, ¬ (Double.IsExact r.num.natAbs ∧ Double.IsExact r.den ∧
    Exact.Expanded r.num.natAbs n ∧ Exact.Expanded r.den n) → Exact.root? (r ^ n) n = none
  /-- The root of a power of a unit of the table is the unit again, if it has one: it has just if the
  parts of the scale are found. -/
  power : 2 ≤ n → Exact.fitsInt32 n = true → ∀ r ∈ rows, ∀ w, r.unit.pow n = .ok w →
    (∀ x, w.powRatio 1 n = .ok x → x.value = r.unit.value) ∧
      ((∃ x, w.powRatio 1 n = .ok x) ↔ PartsReached r.unit.scale n)
  /-- The units of the table have squares. -/
  square : ∀ r ∈ rows, ∃ w, r.unit.pow 2 = .ok w
  /-- Three units of the table have scales whose parts are not found. -/
  unrooted : ∀ r ∈ rows, r.unit.symbol ∈ ["amu", "eV", "keV"] → ¬ PartsReached r.unit.scale n

theorem not_partsReached {r : Rat} (h : ¬ (Double.IsExact r.num.natAbs ∧ Double.IsExact r.den ∧
    Exact.Expanded r.num.natAbs n ∧ Exact.Expanded r.den n)) : ¬ PartsReached r n := fun hparts =>
  h ⟨hparts.1.isExact, hparts.2.isExact, hparts.1.expanded, hparts.2.expanded⟩

theorem not_partsReached_of_mem {r : Row} (hr : r ∈ rows) (hsymbol : r.unit.symbol ∈ ["amu", "eV", "keV"]) :
    ¬ PartsReached r.unit.scale n :=
  not_partsReached fun h => (rows_isExact r hr).mp ⟨h.1, h.2.1⟩ hsymbol

theorem exists_square {r : Row} (hr : r ∈ rows) : ∃ w, r.unit.pow 2 = .ok w :=
  exists_of_isOk (rows_square r hr)

/-- The root of a power of a unit of the table. -/
theorem root_of_row {r : Row} (hr : r ∈ rows) (hn : 2 ≤ n) (hfits : Exact.fitsInt32 n = true)
    (hw : r.unit.pow n = .ok w) : (∀ x, w.powRatio 1 n = .ok x → x.value = r.unit.value) ∧
      ((∃ x, w.powRatio 1 n = .ok x) ↔ PartsReached r.unit.scale n) := by
  have hpos := invariant_pos.row r hr
  have hrange := invariant_inRange.row r hr
  have hmeasures : w.Measures ((n : ℤ) • r.unit.dimension.powers) (r.unit.scale ^ n) := by
    have h := Measures.pow (u := r.unit) ⟨rfl, rfl⟩ hw
    exact ⟨h.powers, by rw [h.scale, zpow_natCast]⟩
  exact ⟨fun x hx => value_powRatio_root hpos hrange hn hfits hmeasures hx,
    exists_powRatio_root_iff hpos hrange hn hfits hmeasures⟩

theorem rootsFound (n : Nat) (hn : 1 ≤ n) (hword : n < 4294967296) : RootsFound n where
  root _ _ := Exact.root?_eq_some_iff hn hword
  near _ hsign hnum hden hnumCheck hdenCheck :=
    (Exact.root?_eq_some_iff hn hword).mpr
      ⟨rfl, hsign, .inr ⟨hnum.reached hnumCheck, hden.reached hdenCheck⟩⟩
  missed htwo _ h := Exact.root?_pow_eq_none htwo hword (not_partsReached h)
  power htwo hfits _ hr _ hw := root_of_row hr htwo hfits hw
  square _ hr := exists_square hr
  unrooted _ hr hsymbol := not_partsReached_of_mem hr hsymbol

theorem rootsFound_half : Exact.root? ((9007199254740993 / 2) ^ 2) 2 = none :=
  (rootsFound 2 (by decide) (by decide)).missed (by decide) _ (by decide +kernel)

/-- The square of an integer whose root is not found, and a unit of the table whose square has no root. -/
theorem squares_without_root :
    ((9007199254740993 : ℚ) ^ 2 = 81129638414606699710187514626049 ∧
      Exact.root? 81129638414606699710187514626049 2 = none) ∧
    ∃ r ∈ rows, r.unit.symbol = "eV" ∧ ∃ w, r.unit.pow 2 = .ok w ∧ ¬ ∃ x, w.powRatio 1 2 = .ok x := by
  have hsquare : (9007199254740993 : ℚ) ^ 2 = 81129638414606699710187514626049 := by norm_num
  have hlarge : ¬ PartsReached (9007199254740993 : ℚ) 2 := not_partsReached (by decide +kernel)
  refine ⟨⟨hsquare, ?_⟩, ?_⟩
  · rw [← hsquare]
    exact Exact.root?_pow_eq_none (by decide) (by decide) hlarge
  · obtain ⟨r, hr, hsymbol⟩ : ∃ r ∈ rows, r.unit.symbol = "eV" := by decide +kernel
    obtain ⟨w, hw⟩ := exists_square hr
    obtain ⟨-, hroot⟩ := root_of_row hr (n := 2) (by decide) (by decide) hw
    have hunrooted := not_partsReached_of_mem (n := 2) hr (by rw [hsymbol]; decide)
    exact ⟨r, hr, hsymbol, w, hw, hroot.not.mpr hunrooted⟩

end PhysicalUnit

end Formulary
