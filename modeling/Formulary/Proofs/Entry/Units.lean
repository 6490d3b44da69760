import Formulary.Proofs.Entry.Build
import Formulary.Proofs.Key.Grammar
import Formulary.Proofs.PhysicalUnit

/-!
What holds of the units of all quantities and entries.

The unit that resolution infers is one of those of the entries, or made of them by products,
quotients and powers. The unit of a key was read from a text, and so was that of a function. So the
unit of every entry that was built has every property of what texts denote that operations keep
(`Built.closed`). In particular its scale is positive.

## How the proof goes

The unit of a result depends on the units of the operands, and on nothing else but the exponent of a power.
So it is given by functions of these alone (`productUnit`, `quotientUnit`, `powerUnit`), to which the
operations are shown to be equal once; other results on units start from these equations too.

Each of the functions keeps a property that is `Closed`, then each operator and each call does, and by the
induction of resolution the unit of an expression has it (`keeps_units`). A unit that is missing has every
property: it is no claim that there is one.
-/

namespace Formulary

/-- The unit, if there is one, has the property. -/
def UnitIn (P : PhysicalUnit → Prop) (unit : Option PhysicalUnit) : Prop := ∀ u, unit = some u → P u

theorem unitIn_none {P : PhysicalUnit → Prop} : UnitIn P none := fun _ h => by cases h

theorem unitIn_some {P : PhysicalUnit → Prop} {u : PhysicalUnit} (h : P u) : UnitIn P (some u) :=
  fun _ hu => by cases hu; exact h

/-- The unit, if there is one, has a positive scale. -/
def PositiveUnit (unit : Option PhysicalUnit) : Prop := ∀ u, unit = some u → 0 < u.scale

theorem positiveUnit_none : PositiveUnit none := unitIn_none

namespace Quantity

variable {l r q : Quantity} {u v unit : Option PhysicalUnit} {exponent : Term}

theorem lift_eq_ok {α : Type} {x : Except UnitError α} {a : α} (h : lift x = .ok a) : x = .ok a :=
  Except.mapError_eq_ok.mp h

/-! ## The units of results -/

/-- The unit of a product. -/
def productUnit : Option PhysicalUnit → Option PhysicalUnit → Except Fault (Option PhysicalUnit)
  | some u, some v => (lift (UnitOp.mul.combine u v)).map some
  | u, v => .ok (u.or v)

/-- The unit of a quotient. -/
def quotientUnit : Option PhysicalUnit → Option PhysicalUnit → Except Fault (Option PhysicalUnit)
  | some u, some v => (lift (UnitOp.div.combine u v)).map some
  | none, some v => (lift (PhysicalUnit.dimensionless.divide v)).map some
  | u, none => .ok u

/-- The unit of a power; that of a pure number with scale one stays as it is. -/
def powerUnit (unit : Option PhysicalUnit) (exponent : Term) : Except Fault (Option PhysicalUnit) :=
  match unit with
  | some u => if u.isUnity then .ok (some u) else (unitPower u exponent).map some
  | none => .ok none

theorem mul_eq (l r : Quantity) :
    l.mul r = (productUnit l.unit r.unit).map fun unit => ⟨.product [l.term, r.term], unit⟩ := by
  unfold mul productUnit
  cases l.unit with
  | none => rfl
  | some u =>
    cases r.unit with
    | none => rfl
    | some v =>
      simp only
      cases lift (UnitOp.mul.combine u v) <;> rfl

theorem div_eq (l r : Quantity) :
    l.div r = (quotientUnit l.unit r.unit).map fun unit => ⟨.quotient l.term r.term, unit⟩ := by
  unfold div quotientUnit
  cases r.unit with
  | none => cases l.unit <;> rfl
  | some v =>
    cases l.unit with
    | none =>
      simp only
      cases lift (PhysicalUnit.dimensionless.divide v) <;> rfl
    | some u =>
      simp only
      cases lift (UnitOp.div.combine u v) <;> rfl

theorem pow_eq (l r : Quantity) :
    l.pow r = (do
      let exponent ← toPlain "pow" r
      (powerUnit l.unit exponent).map fun unit => ⟨.power l.term exponent, unit⟩) := by
  unfold pow powerUnit
  cases toPlain "pow" r with
  | error e => rfl
  | ok exponent =>
    rw [Except.ok_bind, Except.ok_bind]
    cases l.unit with
    | none => rfl
    | some u =>
      by_cases hu : u.isUnity = true
      · simp only [hu, ite_true]
        rfl
      · simp only [hu]
        cases unitPower u exponent <;> rfl

/-! ## Properties of the units -/

variable {P : PhysicalUnit → Prop}

theorem productUnit_closed (hP : PhysicalUnit.Closed P) (hu : UnitIn P u) (hv : UnitIn P v)
    (h : productUnit u v = .ok unit) : UnitIn P unit := by
  cases u with
  | none =>
    cases h
    exact hv
  | some u =>
    cases v with
    | none =>
      cases h
      exact hu
    | some v =>
      obtain ⟨w, hw, rfl⟩ := Except.map_eq_ok.mp h
      exact unitIn_some (hP.multiply (hu u rfl) (hv v rfl) (lift_eq_ok hw))

theorem quotientUnit_closed (hP : PhysicalUnit.Closed P) (hu : UnitIn P u) (hv : UnitIn P v)
    (h : quotientUnit u v = .ok unit) : UnitIn P unit := by
  cases v with
  | none =>
    have hunit : unit = u := by cases u <;> cases h <;> rfl
    exact hunit ▸ hu
  | some v =>
    cases u with
    | none =>
      obtain ⟨w, hw, rfl⟩ := Except.map_eq_ok.mp h
      exact unitIn_some (hP.divide hP.dimensionless (hv v rfl) (lift_eq_ok hw))
    | some u =>
      obtain ⟨w, hw, rfl⟩ := Except.map_eq_ok.mp h
      exact unitIn_some (hP.divide (hu u rfl) (hv v rfl) (lift_eq_ok hw))

theorem unitPower_closed (hP : PhysicalUnit.Closed P) {u w : PhysicalUnit} (hu : P u)
    (h : unitPower u exponent = .ok w) : P w := by
  unfold unitPower at h
  split at h
  · cases h
  · rename_i q _
    split at h
    · rename_i hfits
      obtain ⟨hnum, hden⟩ := Bool.and_eq_true_iff.mp hfits
      exact hP.powRatio hnum hden q.reduced hu (lift_eq_ok h)
    · cases h

theorem powerUnit_closed (hP : PhysicalUnit.Closed P) (hu : UnitIn P u)
    (h : powerUnit u exponent = .ok unit) : UnitIn P unit := by
  cases u with
  | none =>
    cases h
    exact hu
  | some u =>
    simp only [powerUnit] at h
    split at h
    · cases h
      exact hu
    · obtain ⟨w, hw, rfl⟩ := Except.map_eq_ok.mp h
      exact unitIn_some (unitPower_closed hP (hu u rfl) hw)

/-- The common unit of two terms is that of one of them. -/
theorem unify_unit {op : UnitOp} {a b : Term} (hop : op = .add ∨ op = .sub)
    (h : unify op l r = .ok (a, b, unit)) : unit = l.unit ∨ unit = r.unit := by
  unfold unify at h
  cases hl : l.unit with
  | none =>
    cases hr : r.unit with
    | none =>
      simp only [hl, hr] at h
      cases h
      exact .inl rfl
    | some v =>
      simp only [hl, hr] at h
      cases h
      exact .inr rfl
  | some u =>
    cases hr : r.unit with
    | none =>
      simp only [hl, hr] at h
      cases h
      exact .inl rfl
    | some v =>
      simp only [hl, hr] at h
      obtain ⟨w, hw, h⟩ := Except.bind_eq_ok.mp h
      obtain ⟨f, -, h⟩ := Except.bind_eq_ok.mp h
      have hw := PhysicalUnit.combine_additive hop (lift_eq_ok hw)
      cases h
      exact .inl (congrArg some hw)

theorem unify_closed {op : UnitOp} {a b : Term} (hop : op = .add ∨ op = .sub)
    (hl : UnitIn P l.unit) (hr : UnitIn P r.unit) (h : unify op l r = .ok (a, b, unit)) :
    UnitIn P unit := by
  rcases unify_unit hop h with rfl | rfl
  · exact hl
  · exact hr

/-! ## Positive scales -/

theorem productUnit_positive (hu : PositiveUnit u) (hv : PositiveUnit v)
    (h : productUnit u v = .ok unit) : PositiveUnit unit :=
  productUnit_closed PhysicalUnit.invariant_pos.closed hu hv h

theorem quotientUnit_positive (hu : PositiveUnit u) (hv : PositiveUnit v)
    (h : quotientUnit u v = .ok unit) : PositiveUnit unit :=
  quotientUnit_closed PhysicalUnit.invariant_pos.closed hu hv h

theorem powerUnit_positive (hu : PositiveUnit u) (h : powerUnit u exponent = .ok unit) :
    PositiveUnit unit :=
  powerUnit_closed PhysicalUnit.invariant_pos.closed hu h

end Quantity

namespace Scope

open Quantity

variable {l r q : Quantity} {s : Scope} {P : PhysicalUnit → Prop}

theorem applyBinary_closed (hP : PhysicalUnit.Closed P) {op : BinaryOp} (hl : UnitIn P l.unit)
    (hr : UnitIn P r.unit) (h : applyBinary op l r = .ok q) : UnitIn P q.unit := by
  cases op with
  | add =>
    obtain ⟨⟨a, b, unit⟩, hunify, h⟩ := Except.bind_eq_ok.mp h
    cases h
    exact unify_closed (.inl rfl) hl hr hunify
  | sub =>
    obtain ⟨⟨a, b, unit⟩, hunify, h⟩ := Except.bind_eq_ok.mp h
    cases h
    exact unify_closed (.inr rfl) hl hr hunify
  | mul =>
    have h : l.mul r = .ok q := h
    rw [mul_eq] at h
    obtain ⟨unit, hunit, rfl⟩ := Except.map_eq_ok.mp h
    exact productUnit_closed hP hl hr hunit
  | div =>
    have h : l.div r = .ok q := h
    rw [div_eq] at h
    obtain ⟨unit, hunit, rfl⟩ := Except.map_eq_ok.mp h
    exact quotientUnit_closed hP hl hr hunit
  | pow =>
    have h : l.pow r = .ok q := h
    rw [pow_eq] at h
    obtain ⟨exponent, -, h⟩ := Except.bind_eq_ok.mp h
    obtain ⟨unit, hunit, rfl⟩ := Except.map_eq_ok.mp h
    exact powerUnit_closed hP hl hunit

/-- A built-in function gives a pure number, the absolute value the unit of its argument. -/
theorem applyBuiltin_unit {f : Builtin} {args : List Quantity} (h : applyBuiltin f args = .ok q) :
    q.unit = none ∨ ∃ p ∈ args, q.unit = p.unit := by
  unfold applyBuiltin at h
  split at h
  · rename_i p
    cases h
    exact .inr ⟨p, List.mem_singleton_self p, rfl⟩
  · obtain ⟨_, -, h⟩ := Except.bind_eq_ok.mp h
    cases h
    exact .inl rfl
  · obtain ⟨_, -, h⟩ := Except.bind_eq_ok.mp h
    cases h
    exact .inl rfl
  · cases h

theorem symbol_closed (hs : ∀ n e, s.entries.get? n = some e → UnitIn P e.unit)
    (name : String) : UnitIn P ((s.role name).quantity name).unit := by
  cases hrole : s.role name with
  | entry e => exact hs name e (role_eq_entry.mp hrole).2
  | parameter | constant c => exact unitIn_none

theorem apply_closed (hP : PhysicalUnit.Closed P) {name : String} {count : Nat}
    {target : CallTarget} {args : List Quantity}
    (hs : ∀ n e, s.entries.get? n = some e → UnitIn P e.unit)
    (ht : s.callTarget name count = .ok target) (hargs : ∀ p ∈ args, UnitIn P p.unit)
    (h : target.apply args = .ok q) : UnitIn P q.unit := by
  cases target with
  | entry e =>
    obtain ⟨-, ⟨-, hget, -⟩, -⟩ := callTarget_eq_ok ht
    cases h
    exact hs name e hget
  | sqrt =>
    match args, hargs, h with
    | [p], hargs, h =>
      have h : applyBinary .pow p (.plain (.num (1 / 2))) = .ok q := h
      exact applyBinary_closed hP (hargs p (List.mem_singleton_self p)) unitIn_none h
    | [], _, h => cases h
    | _ :: _ :: _, _, h => cases h
  | builtin b =>
    rcases applyBuiltin_unit h with hq | ⟨p, hp, hq⟩
    · exact hq ▸ unitIn_none
    · exact hq ▸ hargs p hp

theorem keeps_units (hP : PhysicalUnit.Closed P)
    (hs : ∀ n e, s.entries.get? n = some e → UnitIn P e.unit) :
    s.Keeps fun q => UnitIn P q.unit where
  number _ := unitIn_none
  symbol := symbol_closed hs
  neg _ h := h
  binary _ _ _ _ hl hr h := applyBinary_closed hP hl hr h
  call _ _ _ _ _ ht hargs h := apply_closed hP hs ht hargs h

end Scope

/-! ## Keys and entries -/

/-- The unit of a key that was read is what the text in its brackets denotes. -/
theorem Key.read_units {text units : String} {key : Key} {u : PhysicalUnit} (h : Key.read text = .ok key)
    (hunits : key.units = some units) (hu : key.unit = some u) :
    PhysicalUnit.read units.toList = .ok u := by
  obtain ⟨a, ha, rfl⟩ := Option.map_eq_some_iff.mp hu
  obtain ⟨-, args, part, -, -, hannotation⟩ := Key.spelled_of_read h
  rw [Key.units, ha] at hunits
  rw [ha] at hannotation
  cases hunits
  cases hannotation with
  | some hannotates =>
    rw [hannotates.text, String.toList_ofList]
    exact hannotates.read

/-- The unit of a key that was read was read from a text. -/
theorem Key.unit_of_read {text : String} {key : Key} (h : Key.read text = .ok key) :
    UnitIn (fun u => ∃ t, PhysicalUnit.read t = .ok u) key.unit := fun u hu => by
  obtain ⟨a, ha, rfl⟩ := Option.map_eq_some_iff.mp hu
  exact ⟨_, Key.read_units h (Option.map_eq_some_iff.mpr ⟨a, ha, rfl⟩) hu⟩

namespace Entry

variable {context : BuildContext} {key : Key} {e : Entry} {P : PhysicalUnit → Prop}

/-- The units of all entries have positive scales. -/
def PositiveUnits (entries : NameMap Entry) : Prop :=
  ∀ n g, entries.get? n = some g → PositiveUnit g.unit

/-- The unit of an expression in its key is the declared one, or else the inferred one. -/
theorem applyDeclaredUnit_eq_ok {q : Quantity} {t : Term} {unit : Option PhysicalUnit}
    {units : Option String} (h : applyDeclaredUnit key q = .ok (t, unit, units)) :
    unit = key.unit.or q.unit ∧ (key.unit = none → units =
      q.unit.bind fun u => if u.symbol = "" then none else some u.symbol) := by
  unfold applyDeclaredUnit at h
  cases hk : key.unit with
  | none =>
    cases hu : q.unit with
    | none =>
      simp only [hk, hu] at h
      cases h
      exact ⟨rfl, fun _ => rfl⟩
    | some u =>
      simp only [hk, hu] at h
      cases h
      exact ⟨rfl, fun _ => rfl⟩
  | some d =>
    refine ⟨?_, nofun⟩
    cases hu : q.unit with
    | none =>
      simp only [hk, hu] at h
      cases h
      rfl
    | some u =>
      simp only [hk, hu] at h
      split at h
      · cases h
        rfl
      · cases h

theorem build_closed (hP : PhysicalUnit.Closed P) {source : Source}
    (hentries : ∀ n g, context.entries.get? n = some g → UnitIn P g.unit)
    (hkey : UnitIn P key.unit) (h : build context key source = .ok e) : UnitIn P e.unit := by
  cases source with
  | expression text =>
    have h : derive context key text = .ok e := h
    obtain ⟨x, q, found, term, unit, units, -, -, hrun, hunit, rfl⟩ := derive_iff.mp h
    have hq : UnitIn P q.unit :=
      (Scope.keeps_units hP (s := context.scope key) hentries).resolve x {} found q hrun
    obtain ⟨rfl, -⟩ := applyDeclaredUnit_eq_ok hunit
    intro u hu
    rcases Option.or_eq_some_iff.mp hu with hu | ⟨-, hu⟩
    · exact hkey u hu
    · exact hq u hu
  | function f =>
    have h : wrap context key f = .ok e := h
    obtain ⟨native, hnative, hunit⟩ := (wrapped_of_wrap h).unit_eq
    rw [hunit]
    intro u hu
    rcases Option.or_eq_some_iff.mp hu with hu | ⟨-, hu⟩
    · exact hkey u hu
    · unfold nativeUnit at hnative
      split at hnative
      · cases hnative
        cases hu
      · obtain ⟨v, hv, rfl⟩ := Except.map_eq_ok.mp hnative
        cases hu
        exact hP.read (Quantity.lift_eq_ok hv)

/-- The unit of an entry is read from a text, or made of such units by operations. -/
theorem Built.closed (hP : PhysicalUnit.Closed P) (h : e.Built) : UnitIn P e.unit := by
  induction h with
  | build _ written h ih =>
    obtain ⟨text, hread⟩ := written
    refine build_closed hP ih (fun u hu => ?_) h
    obtain ⟨t, ht⟩ := Key.unit_of_read hread u hu
    exact hP.read ht
  | snapshot _ _ ih => exact ih

/-- An entry of an expression whose key declares no unit shows the symbol of the inferred one. -/
theorem Built.units_eq (h : e.Built) (hderived : e.isDerived = true) (hkey : e.key.unit = none) :
    e.units = e.unit.bind fun u => if u.symbol = "" then none else some u.symbol := by
  induction h with
  | @build context key source e _ _ h =>
    obtain ⟨text, rfl⟩ := exists_text_of_build h hderived
    obtain ⟨x, q, found, term, unit, units, -, -, -, hunit, rfl⟩ := derive_iff.mp h
    have hnone : key.unit = none := hkey
    obtain ⟨hor, hshown⟩ := applyDeclaredUnit_eq_ok hunit
    rw [hnone, Option.none_or] at hor
    exact (hshown hnone).trans (congrArg (Option.bind · _) hor.symm)
  | snapshot _ _ ih => exact ih hderived hkey

theorem Built.positive (h : e.Built) : PositiveUnit e.unit := h.closed PhysicalUnit.invariant_pos.closed

end Entry

end Formulary
