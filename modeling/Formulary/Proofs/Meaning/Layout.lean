import Formulary.Proofs.Meaning.Term
import Formulary.Proofs.Term.Printing
import Mathlib.Algebra.BigOperators.Group.List.Basic
import Mathlib.Data.List.Induction
import Mathlib.Tactic.FieldSimp
import Mathlib.Tactic.Ring

/-!
Values of the expressions that layouts stand for.

A chain of terms is their sum with signs, and a product is a fraction. The sums spliced into a sum
do not show in its value: `value?_sum` adds up the terms of the layout as they are.
-/

namespace Formulary

variable {I : Interpretation}

namespace Expr

variable {a : Expr} {es as bs : List Expr} {x : ℝ} {xs ys vs : List ℝ}

theorem value?_neg : (Expr.neg a).value? I = (a.value? I).map fun x => -x := by
  rw [value?]

theorem values?_cons :
    values? I (a :: es) = some vs ↔
      ∃ x xs, a.value? I = some x ∧ values? I es = some xs ∧ vs = x :: xs := by
  simp only [values?, Option.bind_eq_some_iff, Option.map_eq_some_iff]
  constructor
  · rintro ⟨x, hx, xs, hxs, rfl⟩
    exact ⟨x, xs, hx, hxs, rfl⟩
  · rintro ⟨x, xs, hx, hxs, rfl⟩
    exact ⟨x, hx, xs, hxs, rfl⟩

/-! ## Numbers and products -/

theorem value?_foldl_mul (ha : a.value? I = some x) (h : values? I es = some xs) :
    (es.foldl (.binary .mul) a).value? I = some (x * xs.prod) := by
  induction es generalizing a x xs with
  | nil =>
    obtain rfl : xs = [] := by simpa [values?, eq_comm] using h
    simpa using ha
  | cons e es ih =>
    obtain ⟨y, ys, hy, hys, rfl⟩ := values?_cons.mp h
    have hmul : (Expr.binary .mul a e).value? I = some (x * y) := by simp [value?, ha, hy]
    rw [List.foldl_cons, ih hmul hys, List.prod_cons, mul_assoc]

theorem value?_int (n : Int) :
    (if n < 0 then Expr.neg (.number n.natAbs) else .number n.natAbs).value? I = some (n : ℝ) := by
  have habs : (Expr.number n.natAbs).value? I = some ((|n| : ℤ) : ℝ) := by
    simp [value?]
  split
  · rename_i hn
    rw [value?_neg, habs, abs_of_neg hn]
    simp
  · rename_i hn
    rw [habs, abs_of_nonneg (not_lt.mp hn)]

/-- A number is printed with its value. -/
theorem value?_numberExpr (q : Rat) : (numberExpr q).value? I = some (q : ℝ) := by
  have hnum := value?_int (I := I) q.num
  unfold numberExpr
  dsimp only
  split
  · rename_i hden
    rw [hnum, Rat.cast_def, hden, Nat.cast_one, div_one]
  · have hden : ((q.den : ℚ) : ℝ) ≠ 0 := by simp
    simp only [value?, hnum, Option.bind_some, hden, if_false]
    simp [Rat.cast_def q]

/-- A number in front of a list of operands multiplies their product. -/
theorem values?_coefficient {c : Prop} [Decidable c] {n : Nat} (hc : ¬ c → n = 1)
    (h : values? I es = some xs) :
    ∃ ys, values? I (if c then .number n :: es else es) = some ys ∧ ys.prod = n * xs.prod := by
  split
  · exact ⟨n :: xs, values?_cons.mpr ⟨n, xs, by simp [value?], h, rfl⟩, List.prod_cons⟩
  · rename_i hn
    exact ⟨xs, h, by simp [hc hn]⟩

/-- A product is the fraction of its parts. -/
theorem value?_productExpr {negative : Bool} {top bottom : Nat} (ha : values? I as = some xs)
    (hb : values? I bs = some ys) (hbottom : bottom ≠ 0) (hys : ys.prod ≠ 0) :
    (Layout.productExpr negative top bottom as bs).value? I =
      some ((if negative then -1 else 1) * (top * xs.prod) / (bottom * ys.prod)) := by
  obtain ⟨us, hus, hup⟩ := values?_coefficient (c := (top != 1 || as.isEmpty) = true) (n := top)
    (by simpa using fun h _ => h) ha
  obtain ⟨ws, hws, hwp⟩ := values?_coefficient (c := (bottom != 1) = true) (n := bottom)
    (by simp) hb
  have hwne : ws.prod ≠ 0 := by simp [hwp, hbottom, hys]
  rw [← hup, ← hwp]
  unfold Layout.productExpr
  dsimp only
  have habove : (if top != 1 || as.isEmpty then Expr.number top :: as else as) ≠ [] := by
    split
    · simp
    · rename_i htop
      rintro rfl
      simp at htop
  generalize (if top != 1 || as.isEmpty then Expr.number top :: as else as) = above at hus habove ⊢
  generalize (if bottom != 1 then Expr.number bottom :: bs else bs) = below at hws ⊢
  obtain ⟨a, above, rfl⟩ := List.exists_cons_of_ne_nil habove
  obtain ⟨u, vs, hu, hvs, rfl⟩ := values?_cons.mp hus
  have hfirst : (if negative then Expr.neg a else a).value? I =
      some ((if negative then -1 else 1) * u) := by
    cases negative <;> simp [value?_neg, hu]
  have hnum := value?_foldl_mul hfirst hvs
  cases below with
  | nil =>
    obtain rfl : ws = [] := by simpa [values?, eq_comm] using hws
    simpa [mul_assoc] using hnum
  | cons b below =>
    obtain ⟨w, rs, hw, hrs, rfl⟩ := values?_cons.mp hws
    have hden := value?_foldl_mul hw hrs
    rw [List.prod_cons] at hwne
    simp only [value?, hnum, hden, Option.bind_some, hwne, if_false, List.prod_cons, mul_assoc]

/-! ## Sums -/

/-- The sum of terms with their signs. -/
noncomputable def signedSum? (I : Interpretation) : List (Bool × Expr) → Option ℝ
  | [] => some 0
  | (b, a) :: ps =>
    (a.value? I).bind fun x => (signedSum? I ps).map fun s => (if b then -x else x) + s

theorem signedSum?_append (ps qs : List (Bool × Expr)) :
    signedSum? I (ps ++ qs) =
      (signedSum? I ps).bind fun s => (signedSum? I qs).map fun r => s + r := by
  induction ps with
  | nil => simp [signedSum?]
  | cons p ps ih =>
    obtain ⟨b, a⟩ := p
    rw [List.cons_append, signedSum?, signedSum?, ih]
    cases a.value? I <;> cases signedSum? I ps <;> cases signedSum? I qs <;> simp [add_assoc]

/-- A chain has the value of its terms with their signs. -/
theorem value?_chainSum (a : Expr) (ps : List (Bool × Expr)) :
    (chainSum ((false, a) :: ps)).value? I = signedSum? I ((false, a) :: ps) := by
  induction ps using List.reverseRecOn with
  | nil => cases h : a.value? I <;> simp [chainSum, signedSum?, h]
  | append_singleton ps p ih =>
    obtain ⟨b, c⟩ := p
    have hlast : signedSum? I [(b, c)] = (c.value? I).map fun y => if b then -y else y := by
      cases hc : c.value? I <;> simp [signedSum?, hc]
    rw [← List.cons_append, SumChain.chainSum_snoc (by simp), signedSum?_append, hlast, ← ih]
    cases b <;> cases hs : (chainSum ((false, a) :: ps)).value? I <;> cases hc : c.value? I <;>
      simp [value?, hs, hc, sub_eq_add_neg]

end Expr

namespace Layout

open Formulary.Expr

variable {l : Layout} {ts : List (Bool × Layout)}

theorem value?_summed (h : l.WellFormed) :
    (l.expr false).value? I = signedSum? I (l.summed false) := by
  obtain ⟨k, as, -, -, hl⟩ := summed_eq_cons false l h
  rw [expr_eq_chainSum, hl, value?_chainSum]

/-- The terms spliced into a sum add up as the sum that they come from. -/
theorem signedSum?_addends (h : WellFormedTerms ts) :
    signedSum? I (addends false ts) = signedSum? I (ts.map fun p => (p.1, p.2.expr false)) := by
  induction ts with
  | nil => rfl
  | cons p ts ih =>
    obtain ⟨b, l⟩ := p
    have hterm : signedSum? I [(b, l.expr false)] =
        signedSum? I (if b && !false && l.isSum then [(true, l.expr false)]
          else withSign b (l.summed false)) := by
      cases b with
      | false =>
        rw [Bool.false_and, Bool.false_and, if_neg (by simp), withSign_summed h.1,
          ← value?_summed h.1]
        cases hl : (l.expr false).value? I <;> simp [signedSum?, hl]
      | true => cases l <;> rfl
    rw [addends_cons, signedSum?_append, ← hterm, ih h.2, List.map_cons]
    exact (signedSum?_append [(b, l.expr false)] _).symm

/-- A sum has the value of its terms with their signs. -/
theorem value?_sum (h : (Layout.sum ts).WellFormed) :
    ((Layout.sum ts).expr false).value? I =
      signedSum? I (ts.map fun p => (p.1, p.2.expr false)) := by
  rw [value?_summed h, summed, signedSum?_addends h.2]

end Layout

end Formulary
