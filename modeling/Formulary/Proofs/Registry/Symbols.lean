import Formulary.Proofs.Key.Units
import Formulary.Proofs.Registry.Step

/-!
The units that entries show.

An entry of an expression whose key declares no unit shows the symbol of the unit that was inferred.
Written behind a key, in brackets, the symbol should denote that unit. The symbols of quotients do,
and so do those of powers and products under conditions that `UnitFormula.Legible` collects. They are
there for a reason. A product puts no parentheses around a left operand that divides, so the right
one is read as part of the divisor; for products whose symbols can be joined at all, the condition is
exact. A power takes a base of several factors for one if only blanks, dots or superscripts show
them, and a ratio that is not in lowest terms is read as one that is.
-/

namespace Formulary

open Formulary.Except

/-- What an entry shows as its units if no unit has been declared: the symbol of the inferred unit,
which was made of texts by operations. The symbol is an annotation for it just if it denotes it. -/
structure Entry.ShowsInferred (e : Entry) : Prop where
  shown : e.units = e.unit.bind fun u => if u.symbol = "" then none else some u.symbol
  made : ∀ u, e.unit = some u → ∃ t : UnitFormula, t.unit = .ok u
  denotes : ∀ u text, e.unit = some u → e.units = some text → (u.Annotated text ↔ u.Faithful)

namespace Registry

variable {settings : Settings} {ops : List Operation} {n : String} {e : Entry}

theorem showsInferred (he : (run settings ops).entries.get? n = some e) (hderived : e.isDerived = true)
    (hkey : e.key.unit = none) : e.ShowsInferred := by
  have hbuilt := (run_wellFormed settings ops).built n e he
  have hshown := hbuilt.units_eq hderived hkey
  refine ⟨hshown, hbuilt.closed UnitFormula.closed, fun u text hu htext => ?_⟩
  rw [htext, hu, Option.bind_some] at hshown
  split at hshown
  · cases hshown
  · rename_i hne
    cases hshown
    refine PhysicalUnit.annotated_symbol_iff ?_
    rw [hbuilt.closed PhysicalUnit.closed_trimmed u hu]
    simpa using hne

/-- The symbol of a unit that was made legibly denotes it; that of its product with another one, if
they can be joined, just if nothing is moved below the line. The units that entries show are such
symbols. -/
theorem symbols_faithful {t : UnitFormula} {u : PhysicalUnit} (h : t.unit = .ok u)
    (hlegible : t.Legible) :
    u.Faithful ∧
    (∀ (r : UnitFormula) (v w : PhysicalUnit), r.unit = .ok v → r.Legible → u.isBare = false →
      v.isBare = false → u.Joinable v → u.multiply v = .ok w →
      (w.Faithful ↔ u.divides = false ∨ v.startsPure = true)) ∧
    (∀ (settings : Settings) (ops : List Operation) (n : String) (e : Entry),
      (run settings ops).entries.get? n = some e → e.isDerived = true → e.key.unit = none →
      e.ShowsInferred) := by
  have hspelled := UnitFormula.spelled h hlegible
  refine ⟨hspelled.faithful, fun r v w hr hlegible' hubare hvbare hjoin hmul => ?_,
    fun settings ops n e he hderived hkey => showsInferred he hderived hkey⟩
  exact PhysicalUnit.faithful_product_iff hspelled (UnitFormula.spelled hr hlegible') hubare hvbare
    hjoin hmul

/-- A divisor that is a product, of which one factor is a power. -/
def pressureFormula : UnitFormula :=
  .quotient (.text "kg") (.product (.text "m") (.power (.text "s") 2 (by decide)))

/-- The entry `c` multiplies a unit without a divisor by one with a divisor. -/
def massTimesSpeed : List Operation :=
  [.set "a(t) [m/s]" (.expression "t"), .set "b(t) [kg]" (.expression "t"),
    .set "c" (.expression "b*a")]

theorem symbols_faithful_pressure :
    (∃ u, pressureFormula.unit = .ok u ∧ u.symbol = "kg/(m*s^2)" ∧ u.Faithful) ∧
    (∃ u v w, (UnitFormula.text "kg").unit = .ok u ∧ (UnitFormula.text "m/s").unit = .ok v ∧
      u.multiply v = .ok w ∧ w.symbol = "kg*m/s" ∧ w.Faithful) ∧
    (∃ e u, (run {} massTimesSpeed).entries.get? "c" = some e ∧ e.unit = some u ∧
      e.units = some "kg*m/s" ∧ u.Annotated "kg*m/s") := by
  refine ⟨?_, ?_, ?_⟩
  · have hok : (pressureFormula.unit.map (·.symbol)).toOption = some "kg/(m*s^2)" := by decide +kernel
    obtain ⟨u, hu, hsymbol⟩ := map_eq_ok.mp (toOption_eq_some.mp hok)
    exact ⟨u, hu, hsymbol, (symbols_faithful hu (by decide +kernel)).1⟩
  · have hok : ((UnitFormula.text "kg").unit.bind fun u => (UnitFormula.text "m/s").unit.bind fun v =>
        (u.multiply v).map fun w => decide (u.isBare = false ∧ v.isBare = false ∧ u.Joinable v ∧
          u.divides = false ∧ w.symbol = "kg*m/s")).toOption = some true := by decide +kernel
    obtain ⟨u, hu, hok⟩ := bind_eq_ok.mp (toOption_eq_some.mp hok)
    obtain ⟨v, hv, hok⟩ := bind_eq_ok.mp hok
    obtain ⟨w, hw, hok⟩ := map_eq_ok.mp hok
    obtain ⟨hubare, hvbare, hjoin, hdivides, hsymbol⟩ := of_decide_eq_true hok
    obtain ⟨-, hproduct, -⟩ := symbols_faithful hu trivial
    exact ⟨u, v, w, hu, hv, hw, hsymbol,
      (hproduct _ v w hv trivial hubare hvbare hjoin hw).mpr (.inl hdivides)⟩
  · have hok : ((run {} massTimesSpeed).entries.get? "c").bind (fun e => e.unit.map fun u =>
        decide (e.isDerived = true ∧ e.key.unit = none ∧ e.units = some "kg*m/s" ∧ u.Faithful)) =
          some true := by decide +kernel
    obtain ⟨e, he, hok⟩ := Option.bind_eq_some_iff.mp hok
    obtain ⟨u, hu, hok⟩ := Option.map_eq_some_iff.mp hok
    obtain ⟨hderived, hkey, hunits, hfaithful⟩ := of_decide_eq_true hok
    have hpure : (UnitFormula.text "").unit = .ok .dimensionless := rfl
    obtain ⟨-, -, hentries⟩ := symbols_faithful hpure trivial
    have hshows := hentries {} massTimesSpeed "c" e he hderived hkey
    exact ⟨e, u, he, hu, hunits, (hshows.denotes u _ hu hunits).mpr hfaithful⟩

/-- The entry `c` multiplies a unit with a divisor by another unit. -/
def speedTimesTime : List Operation :=
  [.set "a(t) [m/s]" (.expression "t"), .set "b(t) [s]" (.expression "t"),
    .set "c" (.expression "a*b")]

/-- The symbol of `m/s` times `s` is read as the quotient of `m` and `s*s`; so what the entry shows as
its units is no annotation for its unit. -/
theorem symbol_of_speed_times_time :
    (∃ u, (UnitFormula.product (.text "m/s") (.text "s")).unit = .ok u ∧ u.symbol = "m/s*s" ∧
      ¬ u.Faithful) ∧
    (∃ e u, (run {} speedTimesTime).entries.get? "c" = some e ∧ e.isDerived = true ∧
      e.key.unit = none ∧ e.unit = some u ∧ e.units = some "m/s*s" ∧ ¬ u.Annotated "m/s*s") := by
  constructor
  · have hok : ((UnitFormula.product (.text "m/s") (.text "s")).unit.map fun u =>
        decide (u.symbol = "m/s*s" ∧ ¬ u.Faithful)).toOption = some true := by decide +kernel
    obtain ⟨u, hu, hok⟩ := map_eq_ok.mp (toOption_eq_some.mp hok)
    exact ⟨u, hu, of_decide_eq_true hok⟩
  · have hok : ((run {} speedTimesTime).entries.get? "c").bind (fun e => e.unit.map fun u =>
        decide (e.isDerived = true ∧ e.key.unit = none ∧ e.units = some "m/s*s" ∧ ¬ u.Faithful)) =
          some true := by decide +kernel
    obtain ⟨e, he, hok⟩ := Option.bind_eq_some_iff.mp hok
    obtain ⟨u, hu, hok⟩ := Option.map_eq_some_iff.mp hok
    obtain ⟨hderived, hkey, hunits, hfaithful⟩ := of_decide_eq_true hok
    exact ⟨e, u, he, hderived, hkey, hu, hunits,
      ((showsInferred he hderived hkey).denotes u _ hu hunits).not.mpr hfaithful⟩

end Registry

end Formulary
