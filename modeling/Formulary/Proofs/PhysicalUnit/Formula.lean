import Formulary.Proofs.PhysicalUnit.Product

/-!
Units made of texts by operations.

A formula records which texts were read and how the units were combined, so that a property of all
units that can arise is an induction on formulas. The symbol of such a unit need not denote it. It
does if the formula is legible: quotients always are, products if their symbols join, powers if the
base can be raised. The conditions are about the operands' symbols only and can be evaluated.
-/

namespace Formulary

open Formulary.Except

namespace PhysicalUnit

variable {u v w : PhysicalUnit}

/-! ## Blanks around symbols -/

theorem trim_divide (hu : trim u.symbol.toList = u.symbol.toList)
    (hv : trim v.symbol.toList = v.symbol.toList) (h : u.divide v = .ok w) :
    trim w.symbol.toList = w.symbol.toList := by
  cases hvbare : v.isBare with
  | true =>
    rw [symbol_divide h]
    simpa only [quotientSymbol, hvbare, if_true] using hu
  | false =>
    rw [toList_divide hvbare h]
    cases hubare : u.isBare with
    | true =>
      rw [if_pos rfl]
      exact trim_join (by decide) rfl (by decide) (trim_enclosed hv)
    | false =>
      rw [if_neg (by decide)]
      exact trim_join (by decide) hu (symbol_of_not_isBare hubare).1 (trim_enclosed hv)

theorem trim_powerSymbol {exponent : String} (hu : trim u.symbol.toList = u.symbol.toList)
    (he : trim exponent.toList = exponent.toList) :
    trim (u.powerSymbol exponent).toList = (u.powerSymbol exponent).toList := by
  cases hbare : u.isBare with
  | true => rwa [powerSymbol, if_pos hbare]
  | false =>
    rw [toList_powerSymbol hbare]
    exact trim_join (by decide) (trim_enclosed hu) (enclosed_ne_nil hbare) he

/-- No symbol has blanks around it. -/
theorem closed_trimmed : Closed fun u => trim u.symbol.toList = u.symbol.toList where
  read h := (spelled_of_read h).trimmed
  multiply := trim_multiply
  divide := trim_divide
  powRatio {u w num den} _ _ _ hu h := by
    by_cases hden : den = 1
    · subst hden
      rw [symbol_pow h]
      split
      · exact hu
      · exact trim_powerSymbol hu (Exact.trim_int num)
    · rw [symbol_powRatio hden h]
      split
      · rfl
      · refine trim_powerSymbol hu ?_
        simpa using trim_parens ((toString num ++ "/" ++ toString den).toList)

end PhysicalUnit

/-! ## Formulas -/

/-- How a unit is made. Exponents are signed 32-bit integers. -/
inductive UnitFormula where
  | text (written : String)
  | product (l r : UnitFormula)
  | quotient (l r : UnitFormula)
  | power (base : UnitFormula) (n : Int) (fits : Exact.fitsInt32 n = true)
  | ratio (base : UnitFormula) (num : Int) (den : Nat) (fits : Exact.fitsInt32 num = true)

namespace UnitFormula

variable {t : UnitFormula} {u : PhysicalUnit}

/-- The unit, if every text is read and every operation succeeds. -/
def unit : UnitFormula → Except UnitError PhysicalUnit
  | text written => PhysicalUnit.read written.toList
  | product l r => l.unit >>= fun u => r.unit >>= fun v => u.multiply v
  | quotient l r => l.unit >>= fun u => r.unit >>= fun v => u.divide v
  | power base n _ => base.unit >>= fun u => u.pow n
  | ratio base num den _ => base.unit >>= fun u => u.powRatio num den

/-- The operands of every operation let its symbol denote the result. -/
def Legible : UnitFormula → Prop
  | text _ => True
  | product l r => l.Legible ∧ r.Legible ∧ ∀ u ∈ l.unit.toOption, ∀ v ∈ r.unit.toOption, u.Joins v
  | quotient l r => l.Legible ∧ r.Legible
  | power base n _ => base.Legible ∧
    ∀ u ∈ base.unit.toOption, n = 1 ∨ u.isBare = true ∨ u.raisable = true
  | ratio base num den _ => base.Legible ∧ ∀ u ∈ base.unit.toOption, u.Raises num den

instance decidableLegible : (t : UnitFormula) → Decidable t.Legible
  | text _ => inferInstanceAs (Decidable True)
  | product l r =>
    have := decidableLegible l
    have := decidableLegible r
    inferInstanceAs (Decidable (_ ∧ _ ∧ ∀ u ∈ l.unit.toOption, ∀ v ∈ r.unit.toOption, u.Joins v))
  | quotient l r =>
    have := decidableLegible l
    have := decidableLegible r
    inferInstanceAs (Decidable (_ ∧ _))
  | power base n _ =>
    have := decidableLegible base
    inferInstanceAs (Decidable (_ ∧
      ∀ u ∈ base.unit.toOption, n = 1 ∨ u.isBare = true ∨ u.raisable = true))
  | ratio base num den _ =>
    have := decidableLegible base
    inferInstanceAs (Decidable (_ ∧ ∀ u ∈ base.unit.toOption, u.Raises num den))

/-- A property of what texts denote that operations keep holds of every unit that is made. -/
theorem unit_invariant {P : PhysicalUnit → Prop} (hP : PhysicalUnit.Invariant P) :
    ∀ {t : UnitFormula} {u : PhysicalUnit}, t.unit = .ok u → P u := by
  intro t
  induction t with
  | text written => exact fun h => hP.read h
  | product l r ihl ihr =>
    intro w h
    obtain ⟨u, hu, h⟩ := bind_eq_ok.mp h
    obtain ⟨v, hv, h⟩ := bind_eq_ok.mp h
    exact hP.multiply (ihl hu) (ihr hv) h
  | quotient l r ihl ihr =>
    intro w h
    obtain ⟨u, hu, h⟩ := bind_eq_ok.mp h
    obtain ⟨v, hv, h⟩ := bind_eq_ok.mp h
    exact hP.divide (ihl hu) (ihr hv) h
  | power base n _ ih =>
    intro w h
    obtain ⟨u, hu, h⟩ := bind_eq_ok.mp h
    exact hP.pow (ih hu) h
  | ratio base num den _ ih =>
    intro w h
    obtain ⟨u, hu, h⟩ := bind_eq_ok.mp h
    exact hP.powRatio (ih hu) h

/-- Texts and operations reach nothing else. -/
theorem closed : PhysicalUnit.Closed fun u => ∃ t : UnitFormula, t.unit = .ok u where
  read {s u} h := ⟨.text (String.ofList s), by rwa [unit, String.toList_ofList]⟩
  multiply := by
    rintro u v w ⟨l, hl⟩ ⟨r, hr⟩ h
    exact ⟨.product l r, by rw [unit, hl, ok_bind, hr, ok_bind, h]⟩
  divide := by
    rintro u v w ⟨l, hl⟩ ⟨r, hr⟩ h
    exact ⟨.quotient l r, by rw [unit, hl, ok_bind, hr, ok_bind, h]⟩
  powRatio := by
    rintro u w num den hnum - - ⟨base, hbase⟩ h
    exact ⟨.ratio base num den hnum, by rw [unit, hbase, ok_bind, h]⟩

/-- The symbol of a unit with a legible formula denotes it. -/
theorem spelled (h : t.unit = .ok u) (hlegible : t.Legible) : u.Spelled := by
  induction t generalizing u with
  | text written => exact PhysicalUnit.spelled_of_read h
  | product l r ihl ihr =>
    obtain ⟨a, ha, h⟩ := bind_eq_ok.mp h
    obtain ⟨b, hb, h⟩ := bind_eq_ok.mp h
    obtain ⟨hl, hr, hjoins⟩ := hlegible
    exact (ihl ha hl).multiply (ihr hb hr)
      (hjoins a (toOption_eq_some.mpr ha) b (toOption_eq_some.mpr hb)) h
  | quotient l r ihl ihr =>
    obtain ⟨a, ha, h⟩ := bind_eq_ok.mp h
    obtain ⟨b, hb, h⟩ := bind_eq_ok.mp h
    exact (ihl ha hlegible.1).divide (ihr hb hlegible.2) h
  | power base n hn ih =>
    obtain ⟨a, ha, h⟩ := bind_eq_ok.mp h
    exact (ih ha hlegible.1).pow hn (hlegible.2 a (toOption_eq_some.mpr ha)) h
  | ratio base num den hnum ih =>
    obtain ⟨a, ha, h⟩ := bind_eq_ok.mp h
    exact (ih ha hlegible.1).powRatio (unit_invariant PhysicalUnit.invariant_pos ha) hnum
      (hlegible.2 a (toOption_eq_some.mpr ha)) h

end UnitFormula

end Formulary
