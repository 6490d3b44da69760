import Formulary.Proofs.Meaning.Canonical
import Formulary.Proofs.Meaning.Layout
import Formulary.Proofs.Term.Depth
import Formulary.Proofs.Term.Layout

/-!
Printed terms have the value of the term.

The expression that the layout of a canonical term stands for has every value that the term has.
The induction is on the depth: a layout is taken to any depth that the term is not deeper than, and
what a term turns into on the way (its negation, its positive power) is less deep again.
-/

namespace Formulary.Term

variable {I : Interpretation} {P Q : String → Prop} {t f u : Term} {ts us fs : List Term} {v : ℝ}
  {vs : List ℝ} {n : Nat}

/-! ## Terms and factors as they are set -/

theorem values?_perm (h : ts.Perm us) :
    ∀ {vs : List ℝ}, values? I ts = some vs → ∃ ws, values? I us = some ws ∧ vs.Perm ws := by
  induction h with
  | nil => exact fun hvs => ⟨_, hvs, .refl _⟩
  | cons t _ ih =>
    intro vs hvs
    obtain ⟨x, xs, hx, hxs, rfl⟩ := values?_cons.mp hvs
    obtain ⟨ys, hys, hperm⟩ := ih hxs
    exact ⟨x :: ys, values?_cons.mpr ⟨x, ys, hx, hys, rfl⟩, hperm.cons x⟩
  | swap t u ts =>
    intro vs hvs
    obtain ⟨x, xs, hx, hxs, rfl⟩ := values?_cons.mp hvs
    obtain ⟨y, ys, hy, hys, rfl⟩ := values?_cons.mp hxs
    have htail := values?_cons.mpr ⟨x, ys, hx, hys, rfl⟩
    exact ⟨y :: x :: ys, values?_cons.mpr ⟨y, x :: ys, hy, htail, rfl⟩, .swap y x ys⟩
  | trans _ _ ih ih' =>
    intro vs hvs
    obtain ⟨ws, hws, hperm⟩ := ih hvs
    obtain ⟨xs, hxs, hperm'⟩ := ih' hws
    exact ⟨xs, hxs, hperm.trans hperm'⟩

/-- A factor below the bar divides: its value is not zero, and that of the factor is its inverse. -/
theorem value?_denominator (h : denominator? f = some u) (hv : f.value? I = some v) :
    ∃ w, u.value? I = some w ∧ w ≠ 0 ∧ v = w⁻¹ := by
  obtain ⟨b, e, rfl, he, rfl⟩ := denominator?_eq_some.mp h
  obtain ⟨x, hx, hpow⟩ := value?_pow_num.mp hv
  have hneg : (e : ℝ) < 0 := by exact_mod_cast he
  obtain ⟨w, hw, hne, hinv⟩ := realPower?_neg hneg hpow
  refine ⟨w, (power_refines b _).value? (value?_pow_num.mpr ⟨x, hx, ?_⟩), hne, hinv⟩
  rw [Rat.cast_neg]
  exact hw

/-- The factors are the fraction of those above the bar and those below it. -/
theorem values?_fraction (h : values? I fs = some vs) :
    ∃ xs ys, values? I (numerators fs) = some xs ∧ values? I (denominators fs) = some ys ∧
      ys.prod ≠ 0 ∧ vs.prod = xs.prod / ys.prod := by
  have hunsorted : ∃ xs ys, values? I (fs.filter fun f => (denominator? f).isNone) = some xs ∧
      values? I (denominators fs) = some ys ∧ ys.prod ≠ 0 ∧ vs.prod = xs.prod / ys.prod := by
    induction fs generalizing vs with
    | nil =>
      rw [values?_nil.mp h]
      exact ⟨[], [], rfl, rfl, by simp, by simp⟩
    | cons f fs ih =>
      obtain ⟨w, ws, hw, hws, rfl⟩ := values?_cons.mp h
      obtain ⟨xs, ys, hxs, hys, hne, hprod⟩ := ih hws
      cases hd : denominator? f with
      | none =>
        refine ⟨w :: xs, ys, ?_, ?_, hne, ?_⟩
        · rw [List.filter_cons_of_pos (by simp [hd])]
          exact values?_cons.mpr ⟨w, xs, hw, hxs, rfl⟩
        · rw [denominators, List.filterMap_cons_none hd]
          exact hys
        · rw [List.prod_cons, List.prod_cons, hprod, mul_div_assoc]
      | some u =>
        obtain ⟨y, hy, hy0, rfl⟩ := value?_denominator hd hw
        refine ⟨xs, y :: ys, ?_, ?_, by simp [hy0, hne], ?_⟩
        · rw [List.filter_cons_of_neg (by simp [hd])]
          exact hxs
        · rw [denominators, List.filterMap_cons_some hd]
          exact values?_cons.mpr ⟨y, ys, hy, hys, rfl⟩
        · rw [List.prod_cons, List.prod_cons, hprod]
          field_simp
  obtain ⟨xs, ys, hxs, hys, hne, hprod⟩ := hunsorted
  obtain ⟨ws, hws, hperm⟩ := values?_perm (numerators_perm fs).symm hxs
  exact ⟨ws, ys, hws, hys, hne, by rw [hprod, hperm.prod_eq]⟩

/-- A coefficient is the fraction of its parts with its sign. -/
theorem cast_coefficient (c : Rat) :
    (c : ℝ) = (if c < 0 then -1 else 1) * c.num.natAbs / c.den := by
  have habs : (c.num.natAbs : ℝ) = ((|c.num| : ℤ) : ℝ) := by simp
  rw [Rat.cast_def, habs]
  split
  · rename_i hc
    have hnum : c.num < 0 := Rat.num_neg.mpr hc
    rw [abs_of_neg hnum]
    simp
  · rename_i hc
    have hnum : 0 ≤ c.num := Rat.num_nonneg.mpr (not_lt.mp hc)
    rw [abs_of_nonneg hnum, one_mul]

/-! ## Values of laid out terms -/

/-- The layout, taken to the depth, stands for an expression with the value of the term. -/
def LaidOut (I : Interpretation) (n : Nat) (t : Term) : Prop :=
  ∀ v, t.value? I = some v → ((layoutWithin n t).expr false).value? I = some v

/-- The name can be that of a parameter: an identifier that is no constant. -/
def IsParameterName (x : String) : Prop := isIdentifier x.toList = true ∧ Constant.ofName? x = none

/-- The name can be that of an entry: an identifier that is no built-in name. -/
def IsEntryName (x : String) : Prop := isIdentifier x.toList = true ∧ x ∉ Builtin.names

theorem values?_laidOut (h : ∀ t ∈ ts, LaidOut I n t) (hvs : values? I ts = some vs) :
    Expr.values? I (Layout.exprs false (ts.map (layoutWithin n))) = some vs := by
  induction ts generalizing vs with
  | nil =>
    rw [values?_nil.mp hvs]
    rfl
  | cons t ts ih =>
    obtain ⟨x, xs, hx, hxs, rfl⟩ := values?_cons.mp hvs
    have hrest := ih (fun u hu => h u (by simp [hu])) hxs
    exact Expr.values?_cons.mpr ⟨x, xs, h t (by simp) x hx, hrest, rfl⟩

theorem callValue?_builtin (f : Builtin) (vs : List ℝ) :
    Expr.callValue? I f.name vs = f.real? vs := by
  have hname : f.name ≠ "sqrt" := by cases f <;> decide
  have hfound : Builtin.ofName? f.name = some f := by cases f <;> decide
  simp only [Expr.callValue?, hname, if_false, hfound]

theorem callValue?_entry {x : String} (hx : x ∉ Builtin.names) (vs : List ℝ) :
    Expr.callValue? I x vs = I.entry x vs := by
  have hsqrt : x ≠ "sqrt" := by
    rintro rfl
    exact hx (by decide)
  have hfound : Builtin.ofName? x = none := by
    have hln : x ≠ "ln" := by
      rintro rfl
      exact hx (by decide)
    rw [Builtin.ofName?, if_neg hln, List.find?_eq_none]
    intro f _ hf
    refine hx ?_
    rw [← beq_iff_eq.mp hf]
    cases f <;> decide
  simp only [Expr.callValue?, hsqrt, if_false, hfound]

/-- The terms of a sum, the subtracted ones negated, add up to the sum. -/
theorem signedSum?_laidOut (h : ∀ t ∈ ts, LaidOut I n t)
    (hneg : ∀ t ∈ ts, t.isSubtracted = true → LaidOut I n (negated t))
    (hvs : values? I ts = some vs) :
    Expr.signedSum? I ((ts.map fun u =>
        if u.isSubtracted then (true, layoutWithin n (negated u))
        else (false, layoutWithin n u)).map fun p => (p.1, p.2.expr false)) = some vs.sum := by
  induction ts generalizing vs with
  | nil =>
    rw [values?_nil.mp hvs]
    simp [Expr.signedSum?]
  | cons t ts ih =>
    obtain ⟨x, xs, hx, hxs, rfl⟩ := values?_cons.mp hvs
    have hrest := ih (fun u hu => h u (by simp [hu])) (fun u hu => hneg u (by simp [hu])) hxs
    rw [List.map_cons, List.map_cons, Expr.signedSum?, hrest, List.sum_cons]
    split
    · rename_i hsub
      have hvalue := hneg t (by simp) hsub (-x) (value?_negated hx)
      simp [hvalue]
    · have hvalue := h t (by simp) x hx
      simp [hvalue]

theorem laidOut_add (hwf : (layoutWithin (n + 1) (.add ts)).WellFormed)
    (h : ∀ t ∈ ts, LaidOut I n t)
    (hneg : ∀ t ∈ ts, t.isSubtracted = true → LaidOut I n (negated t)) :
    LaidOut I (n + 1) (.add ts) := by
  intro v hv
  obtain ⟨vs, hvs, rfl⟩ := value?_add.mp hv
  have hperm := numbersLast_perm ts
  obtain ⟨ws, hws, hsum⟩ := values?_perm hperm.symm hvs
  have hmem : ∀ u ∈ numbersLast ts, u ∈ ts := fun u hu => hperm.mem_iff.mp hu
  rw [layoutWithin] at hwf ⊢
  generalize numbersLast ts = us at hwf hws hmem ⊢
  cases us with
  | nil =>
    obtain ⟨_, _, _, hempty⟩ := hwf.1
    cases hempty
  | cons first rest =>
    obtain ⟨x, xs, hx, hxs, rfl⟩ := values?_cons.mp hws
    have hfirst := h first (hmem first (by simp)) x hx
    have hrest := signedSum?_laidOut (fun u hu => h u (hmem u (by simp [hu])))
      (fun u hu => hneg u (hmem u (by simp [hu]))) hxs
    rw [Layout.value?_sum hwf, List.map_cons, Expr.signedSum?, hfirst, hrest, hsum.sum_eq,
      List.sum_cons]
    simp

theorem laidOut_mul {c : Rat} (h : ∀ f ∈ numerators fs, LaidOut I n f)
    (h' : ∀ u ∈ denominators fs, LaidOut I n u) : LaidOut I (n + 1) (.mul c fs) := by
  intro v hv
  obtain ⟨vs, hvs, rfl⟩ := value?_mul.mp hv
  obtain ⟨xs, ys, hxs, hys, hne, hprod⟩ := values?_fraction hvs
  rw [layoutWithin, Layout.expr,
    Expr.value?_productExpr (values?_laidOut h hxs) (values?_laidOut h' hys) c.den_ne_zero hne,
    cast_coefficient, hprod]
  simp only [decide_eq_true_eq]
  congr 1
  have hden : (c.den : ℝ) ≠ 0 := by simp
  field_simp

theorem eq_half_of_isHalf {e : Term} (h : e.isHalf = true) : e = .num (1 / 2) := by
  cases e with
  | num q =>
    simp only [isHalf, Bool.and_eq_true, decide_eq_true_eq] at h
    rw [← Rat.num_div_den q, h.1, h.2]
    norm_num
  | _ => cases h

theorem laidOut_pow {b e : Term} (hb : LaidOut I n b) (he : LaidOut I n e)
    (hu : ∀ u, denominator? (.pow b e) = some u → LaidOut I n u) : LaidOut I (n + 1) (.pow b e) := by
  intro v hv
  obtain ⟨x, y, hx, hy, hxy⟩ := value?_pow.mp hv
  have hbase := hb x hx
  rw [layoutWithin]
  split
  · rename_i hhalf
    obtain rfl := eq_half_of_isHalf hhalf
    obtain rfl : ((1 / 2 : Rat) : ℝ) = y := Option.some.inj hy
    have hsqrt : realPower? x (1 / 2) = some v := by
      rw [← hxy]
      norm_num
    simp only [Layout.expr, Expr.value?, Expr.values?, hbase, Option.bind_some, Option.map_some,
      Expr.callValue?, if_true]
    exact hsqrt
  · split
    · rename_i u hd
      obtain ⟨w, hw, hne, rfl⟩ := value?_denominator hd hv
      have hvalue := hu u hd w hw
      simp [Layout.expr, Expr.value?, hvalue, hne]
    · have hexp := he y hy
      simp [Layout.expr, Expr.value?, hbase, hexp, hxy]

/-- The layout of a canonical term stands for an expression with the value of the term. -/
theorem laidOut (hP : ∀ x, P x → IsParameterName x) (hQ : ∀ x, Q x → IsEntryName x) :
    ∀ (n : Nat) (t : Term), Canonical P Q t → t.depth ≤ n → LaidOut I n t
  | 0, t, _, hn => by
    have := one_le_depth t
    omega
  | n + 1, t, h, hn => by
    have ih : ∀ u, LaysOut t u → LaidOut I n u := fun u hu =>
      laidOut hP hQ n u (hu.canonical h) (by have := hu.depth_lt; omega)
    have hwf := wellFormed_layoutWithin (fun x hx => (hP x hx).1) (fun x hx => (hQ x hx).1)
      (n + 1) t h
    cases h with
    | num q =>
      intro v hv
      rw [← hv]
      exact Expr.value?_numberExpr q
    | const c =>
      intro v hv
      cases c <;> exact hv
    | var hx =>
      intro v hv
      rw [← hv]
      simp [layoutWithin, Layout.expr, Expr.value?, (hP _ hx).2, value?]
    | func f hts =>
      intro v hv
      obtain ⟨vs, hvs, hf⟩ := Option.bind_eq_some_iff.mp hv
      have hall := values?_laidOut (fun u hu => ih u (.argument hu)) hvs
      simp [layoutWithin, Layout.expr, Expr.value?, hall, callValue?_builtin, hf]
    | apply hx hts =>
      intro v hv
      obtain ⟨vs, hvs, hf⟩ := Option.bind_eq_some_iff.mp hv
      have hall := values?_laidOut (fun u hu => ih u (.applied hu)) hvs
      simp [layoutWithin, Layout.expr, Expr.value?, hall, callValue?_entry (hQ _ hx).2, hf]
    | add =>
      exact laidOut_add hwf (fun u hu => ih u (.addend hu)) fun u hu hsub =>
        ih _ (.subtracted hu hsub)
    | mul =>
      exact laidOut_mul (fun f hf => ih f (.factor (mem_numerators.mp hf).1)) fun u hu =>
        ih u (.of_mem_denominators hu)
    | pow => exact laidOut_pow (ih _ (.base _ _)) (ih _ (.exponent _ _)) fun u hd => ih u (.inverse hd)

end Formulary.Term
