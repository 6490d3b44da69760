import Formulary.Expr.Basic
import Formulary.Proofs.Meaning.Assignment
import Mathlib.Analysis.SpecialFunctions.Complex.Arg
import Mathlib.Analysis.SpecialFunctions.Log.Base
import Mathlib.Analysis.SpecialFunctions.Trigonometric.Arctan

/-!
The real meaning of terms and of expressions.

An interpretation gives a number to every parameter and a partial function to every entry; the
built-in functions are what they are called. Under it a term and an expression each have at most one
real value: none where a built-in function, a power, a quotient or an entry has none.
-/

namespace Formulary

/-- What the names stand for over the reals. -/
structure Interpretation where
  parameter : String → ℝ
  entry : String → List ℝ → Option ℝ

open Classical in
/-- The built-in functions on their real domains. -/
noncomputable def Builtin.real? : Builtin → List ℝ → Option ℝ
  | sin, [x] => some (Real.sin x)
  | cos, [x] => some (Real.cos x)
  | tan, [x] => if Real.cos x = 0 then none else some (Real.tan x)
  | asin, [x] => if -1 ≤ x ∧ x ≤ 1 then some (Real.arcsin x) else none
  | acos, [x] => if -1 ≤ x ∧ x ≤ 1 then some (Real.arccos x) else none
  | atan, [x] => some (Real.arctan x)
  | sinh, [x] => some (Real.sinh x)
  | cosh, [x] => some (Real.cosh x)
  | tanh, [x] => some (Real.tanh x)
  | exp, [x] => some (Real.exp x)
  | log, [x] => if 0 < x then some (Real.log x) else none
  | log10, [x] => if 0 < x then some (Real.logb 10 x) else none
  | abs, [x] => some |x|
  | atan2, [y, x] => some (Complex.arg ⟨x, y⟩)
  | _, _ => none

namespace Term

mutual

/-- The real value of a term, where it has one. -/
noncomputable def value? (I : Interpretation) : Term → Option ℝ
  | .num q => some q
  | .const c => some c.real
  | .var x => some (I.parameter x)
  | .func f args => (values? I args).bind f.real?
  | .apply name args => (values? I args).bind (I.entry name)
  | .add ts => (values? I ts).map List.sum
  | .mul c fs => (values? I fs).map fun vs => c * vs.prod
  | .pow b e => (value? I b).bind fun x => (value? I e).bind fun y => realPower? x y

/-- The real values of several terms, where all of them have one. -/
noncomputable def values? (I : Interpretation) : List Term → Option (List ℝ)
  | [] => some []
  | t :: ts => (value? I t).bind fun v => (values? I ts).map (v :: ·)

end

end Term

/-- The interpretation as an assignment. -/
noncomputable def Interpretation.assignment (I : Interpretation) : Assignment :=
  ⟨I.parameter, Builtin.real?, I.entry⟩

namespace Term

variable {I : Interpretation}

mutual

theorem value?_eq (I : Interpretation) : ∀ t : Term, t.value? I = t.valueIn? I.assignment
  | .num _ | .const _ | .var _ => by
      simp only [value?, valueIn?, Interpretation.assignment]
  | .func _ args | .apply _ args => by
      simp only [value?, valueIn?, values?_eq I args, Interpretation.assignment]
  | .add ts => by
      simp only [value?, valueIn?, values?_eq I ts]
  | .mul _ fs => by
      simp only [value?, valueIn?, values?_eq I fs]
  | .pow b e => by
      simp only [value?, valueIn?, value?_eq I b, value?_eq I e]

theorem values?_eq (I : Interpretation) : ∀ ts : List Term, values? I ts = valuesIn? I.assignment ts
  | [] => rfl
  | t :: ts => by
      simp only [values?, valuesIn?, value?_eq I t, values?_eq I ts]

end

theorem Refines.value? {t u : Term} (h : t.Refines u) {v : ℝ} (hv : t.value? I = some v) :
    u.value? I = some v := by
  rw [value?_eq] at hv ⊢
  exact h _ v hv

theorem value?_add {ts : List Term} {v : ℝ} :
    (Term.add ts).value? I = some v ↔ ∃ vs, values? I ts = some vs ∧ vs.sum = v := by
  rw [value?_eq, values?_eq, valueIn?_add]

theorem value?_mul {c : Rat} {fs : List Term} {v : ℝ} :
    (Term.mul c fs).value? I = some v ↔ ∃ vs, values? I fs = some vs ∧ c * vs.prod = v := by
  rw [value?_eq, values?_eq, valueIn?_mul]

theorem value?_pow {b e : Term} {v : ℝ} :
    (Term.pow b e).value? I = some v ↔
      ∃ x y, b.value? I = some x ∧ e.value? I = some y ∧ realPower? x y = some v := by
  rw [value?_eq, value?_eq, value?_eq, valueIn?_pow]

/-- The power of a term by a number. -/
theorem value?_pow_num {b : Term} {e : Rat} {v : ℝ} :
    (Term.pow b (.num e)).value? I = some v ↔ ∃ x, b.value? I = some x ∧ realPower? x e = some v := by
  rw [value?_eq, value?_eq, valueIn?_pow_num]

@[simp] theorem values?_nil {vs : List ℝ} : values? I [] = some vs ↔ vs = [] := by
  rw [values?_eq, valuesIn?_nil]

theorem values?_cons {t : Term} {ts : List Term} {ws : List ℝ} :
    values? I (t :: ts) = some ws ↔
      ∃ v vs, t.value? I = some v ∧ values? I ts = some vs ∧ ws = v :: vs := by
  rw [values?_eq, values?_eq, value?_eq, valuesIn?_cons]

theorem values?_singleton {t : Term} {ws : List ℝ} :
    values? I [t] = some ws ↔ ∃ v, t.value? I = some v ∧ ws = [v] := by
  rw [values?_eq, value?_eq, valuesIn?_singleton]

end Term

namespace Expr

/-- The value of a call of a name. -/
noncomputable def callValue? (I : Interpretation) (name : String) (args : List ℝ) : Option ℝ :=
  if name = "sqrt" then
    match args with
    | [x] => realPower? x (1 / 2)
    | _ => none
  else
    match Builtin.ofName? name with
    | some f => f.real? args
    | none => I.entry name args

mutual

/-- The real value of an expression in ordinary arithmetic: `pi` and `E` are the constants, `sqrt`
is the power one half, a call of any other built-in name is that function, and every other call is
that of an entry. -/
noncomputable def value? (I : Interpretation) : Expr → Option ℝ
  | .number q => some q
  | .symbol x => some (((Constant.ofName? x).map Constant.real).getD (I.parameter x))
  | .binary .add l r => (value? I l).bind fun x => (value? I r).map fun y => x + y
  | .binary .sub l r => (value? I l).bind fun x => (value? I r).map fun y => x - y
  | .binary .mul l r => (value? I l).bind fun x => (value? I r).map fun y => x * y
  | .binary .div l r =>
    (value? I l).bind fun x => (value? I r).bind fun y => if y = 0 then none else some (x / y)
  | .binary .pow l r => (value? I l).bind fun x => (value? I r).bind fun y => realPower? x y
  | .neg e => (value? I e).map fun x => -x
  | .call name args => (values? I args).bind (callValue? I name)

/-- The real values of several expressions, where all of them have one. -/
noncomputable def values? (I : Interpretation) : List Expr → Option (List ℝ)
  | [] => some []
  | e :: es => (value? I e).bind fun v => (values? I es).map (v :: ·)

end

end Expr

end Formulary
