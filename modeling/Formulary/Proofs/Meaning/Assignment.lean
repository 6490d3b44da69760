import Formulary.Proofs.Meaning.Power
import Formulary.Term.Canonical

/-!
Real values of terms under any meaning of their names.

An assignment gives a number to every parameter and a partial function to every built-in function and
every entry, whatever they are called. Under it a term has at most one real value: none where a power,
a function or an entry has none. `Term.Refines t u` says that `u` keeps every value that `t` has; it is
the relation in which simplification stands to the plain sums, products and powers.
-/

namespace Formulary

/-- What names stand for over the reals. -/
structure Assignment where
  parameter : String → ℝ
  function : Builtin → List ℝ → Option ℝ
  entry : String → List ℝ → Option ℝ

/-- The value of a named constant. -/
noncomputable def Constant.real : Constant → ℝ
  | pi => Real.pi
  | e => Real.exp 1

namespace Term

mutual

/-- The real value of a term under an assignment, where it has one. -/
noncomputable def valueIn? (A : Assignment) : Term → Option ℝ
  | .num q => some q
  | .const c => some c.real
  | .var x => some (A.parameter x)
  | .func f args => (valuesIn? A args).bind (A.function f)
  | .apply name args => (valuesIn? A args).bind (A.entry name)
  | .add ts => (valuesIn? A ts).map List.sum
  | .mul c fs => (valuesIn? A fs).map fun vs => c * vs.prod
  | .pow b e => (valueIn? A b).bind fun x => (valueIn? A e).bind fun y => realPower? x y

/-- The real values of several terms, where all of them have one. -/
noncomputable def valuesIn? (A : Assignment) : List Term → Option (List ℝ)
  | [] => some []
  | t :: ts => (valueIn? A t).bind fun v => (valuesIn? A ts).map (v :: ·)

end

/-- Wherever `t` has a value, `u` has the same one. -/
def Refines (t u : Term) : Prop := ∀ A v, t.valueIn? A = some v → u.valueIn? A = some v

theorem Refines.refl (t : Term) : t.Refines t := fun _ _ h => h

section Values

variable {A : Assignment}

theorem valueIn?_add {ts : List Term} {v : ℝ} :
    (Term.add ts).valueIn? A = some v ↔ ∃ vs, valuesIn? A ts = some vs ∧ vs.sum = v := by
  simp only [valueIn?, Option.map_eq_some_iff]

theorem valueIn?_mul {c : Rat} {fs : List Term} {v : ℝ} :
    (Term.mul c fs).valueIn? A = some v ↔ ∃ vs, valuesIn? A fs = some vs ∧ c * vs.prod = v := by
  simp only [valueIn?, Option.map_eq_some_iff]

theorem valueIn?_pow {b e : Term} {v : ℝ} :
    (Term.pow b e).valueIn? A = some v ↔
      ∃ x y, b.valueIn? A = some x ∧ e.valueIn? A = some y ∧ realPower? x y = some v := by
  simp only [valueIn?, Option.bind_eq_some_iff]
  constructor
  · rintro ⟨x, hx, y, hy, h⟩
    exact ⟨x, y, hx, hy, h⟩
  · rintro ⟨x, y, hx, hy, h⟩
    exact ⟨x, hx, y, hy, h⟩

/-- The power of a term by a number. -/
theorem valueIn?_pow_num {b : Term} {e : Rat} {v : ℝ} :
    (Term.pow b (.num e)).valueIn? A = some v ↔
      ∃ x, b.valueIn? A = some x ∧ realPower? x e = some v := by
  rw [valueIn?_pow]
  constructor
  · rintro ⟨x, y, hx, hy, h⟩
    simp only [valueIn?, Option.some.injEq] at hy
    exact ⟨x, hx, hy ▸ h⟩
  · rintro ⟨x, hx, h⟩
    exact ⟨x, e, hx, rfl, h⟩

@[simp] theorem valuesIn?_nil {vs : List ℝ} : valuesIn? A [] = some vs ↔ vs = [] := by
  simp only [valuesIn?, Option.some.injEq, eq_comm]

theorem valuesIn?_cons {t : Term} {ts : List Term} {ws : List ℝ} :
    valuesIn? A (t :: ts) = some ws ↔
      ∃ v vs, t.valueIn? A = some v ∧ valuesIn? A ts = some vs ∧ ws = v :: vs := by
  simp only [valuesIn?, Option.bind_eq_some_iff, Option.map_eq_some_iff]
  constructor
  · rintro ⟨v, hv, vs, hvs, rfl⟩
    exact ⟨v, vs, hv, hvs, rfl⟩
  · rintro ⟨v, vs, hv, hvs, rfl⟩
    exact ⟨v, hv, vs, hvs, rfl⟩

theorem valuesIn?_append : ∀ {ts us : List Term} {ws : List ℝ},
    valuesIn? A (ts ++ us) = some ws ↔
      ∃ vs xs, valuesIn? A ts = some vs ∧ valuesIn? A us = some xs ∧ ws = vs ++ xs
  | [], us, ws => by simp
  | t :: ts, us, ws => by
      rw [List.cons_append, valuesIn?_cons]
      constructor
      · rintro ⟨v, ys, hv, hys, rfl⟩
        obtain ⟨vs, xs, hvs, hxs, rfl⟩ := valuesIn?_append.1 hys
        exact ⟨v :: vs, xs, valuesIn?_cons.2 ⟨v, vs, hv, hvs, rfl⟩, hxs, rfl⟩
      · rintro ⟨ys, xs, hys, hxs, rfl⟩
        obtain ⟨v, vs, hv, hvs, rfl⟩ := valuesIn?_cons.1 hys
        exact ⟨v, vs ++ xs, hv, valuesIn?_append.2 ⟨vs, xs, hvs, hxs, rfl⟩, rfl⟩

theorem valuesIn?_singleton {t : Term} {ws : List ℝ} :
    valuesIn? A [t] = some ws ↔ ∃ v, t.valueIn? A = some v ∧ ws = [v] := by
  rw [valuesIn?_cons]
  constructor
  · rintro ⟨v, vs, hv, hvs, rfl⟩
    rw [valuesIn?_nil.1 hvs]
    exact ⟨v, hv, rfl⟩
  · rintro ⟨v, hv, rfl⟩
    exact ⟨v, [], hv, valuesIn?_nil.2 rfl, rfl⟩

theorem valuesIn?_pair {t u : Term} {v w : ℝ} (hv : t.valueIn? A = some v)
    (hw : u.valueIn? A = some w) : valuesIn? A [t, u] = some [v, w] :=
  valuesIn?_cons.2 ⟨v, [w], hv, valuesIn?_singleton.2 ⟨w, hw, rfl⟩, rfl⟩

/-- A power as it is written in a product, `base ^ exponent` for every factor. -/
theorem valueIn?_asPower {t : Term} {v : ℝ} (h : t.valueIn? A = some v) :
    (Term.pow (asPower t).1 (asPower t).2).valueIn? A = some v := by
  cases t with
  | pow b e => exact h
  | _ => exact valueIn?_pow_num.2 ⟨v, h, by rw [Rat.cast_one]; exact realPower?_one v⟩

end Values

end Term

end Formulary
