import Formulary.Proofs.Entry.Canonical
import Formulary.Proofs.Meaning.Printing
import Formulary.Proofs.Registry.Step
import Formulary.Proofs.Term.Grouping

/-!
What the printed expression of a term is read as, and what that denotes.

The text of every canonical term is an expression again. Where no sum is subtracted, it is read as
what the layout of the term stands for, and so has every value of the term: the right-hand side that
is shown for an entry denotes the function that the entry computes. A subtracted sum is printed
without parentheses, so that only its first term is read as subtracted: `a - (b + c)` is shown as
`a - b + c`.
-/

namespace Formulary

namespace Term

variable {t : Term}

/-- The text of the term is read as an expression that has every value of the term. -/
def Faithful (t : Term) : Prop :=
  ∃ x, Expr.read t.text = .ok x ∧ ∀ I v, t.value? I = some v → x.value? I = some v

/-- The text of the term is read, and the term is printed faithfully if no sum is subtracted in its
layout; just then it is read as what the layout stands for. -/
structure Readable (t : Term) : Prop where
  read : Expr.read t.text = .ok (t.layout.expr true)
  same_iff : t.layout.expr true = t.layout.expr false ↔ t.layout.SubtractsNoSum
  faithful : t.layout.SubtractsNoSum → t.Faithful

theorem Canonical.readable (h : Canonical IsParameterName IsEntryName t) : t.Readable := by
  have hwf : t.layout.WellFormed :=
    wellFormed_layoutWithin (fun _ hx => hx.1) (fun _ hx => hx.1) _ t h
  have hread := Layout.read_text hwf
  have hsame := Layout.expr_eq_iff hwf
  refine ⟨hread, hsame, fun hnone => ⟨_, hread, fun I v hv => ?_⟩⟩
  rw [hsame.mpr hnone]
  exact laidOut (fun _ hx => hx) (fun _ hx => hx) _ t h (depth_le_layout t) v hv

end Term

namespace Registry

open Term

variable {n : String} {e : Entry} {t : Term}

/-- An entry shows the text of the term that it runs; with names that can be printed, the text is
read. -/
theorem WellFormed.shows {r : Registry} (hr : r.WellFormed) (he : r.entries.get? n = some e)
    (ht : e.expression = some t) (hvars : ∀ x ∈ t.varsIn, IsParameterName x)
    (happ : ∀ x ∈ t.appliedIn, IsEntryName x) :
    e.rhs = some t.text ∧ e.Runs t ∧ t.Readable := by
  have hruns := (hr.built n e he).runs ht
  exact ⟨by simp [Entry.rhs, ht], hruns, (hruns.canonical.of_names hvars happ).readable⟩

/-- Every term that the canonicalising constructors build is printed as a text that is read again,
as an expression with every value of the term if no sum is subtracted; and so is what an entry of a
run computes, which is what its right-hand side shows. -/
theorem text_faithful (settings : Settings) (ops : List Operation) :
    (∀ t, Simplified IsParameterName IsEntryName t → t.Readable) ∧
      ∀ n e t, (run settings ops).entries.get? n = some e → e.expression = some t →
        (∀ x ∈ t.varsIn, IsParameterName x) → (∀ x ∈ t.appliedIn, IsEntryName x) →
        e.rhs = some t.text ∧ e.Runs t ∧ t.Readable := by
  constructor
  · intro t h
    exact h.canonical.readable
  · intro n e t he ht hvars happ
    exact (run_wellFormed settings ops).shows he ht hvars happ

theorem isParameterName_abc : ∀ x ∈ ["a", "b", "c"], IsParameterName x := by
  intro x hx
  fin_cases hx <;> exact ⟨by decide, by decide⟩

set_option maxRecDepth 20000 in
/-- A difference of parameters is printed faithfully, and so is the call that an entry is set to. -/
theorem text_faithful_difference :
    (difference (.var "a") (.var "b")).Faithful ∧
      ∃ e t, (run {} [.set "f" (.expression "sin(a)")]).entries.get? "f" = some e ∧
        e.rhs = some (text t) ∧ Faithful t := by
  have hlayout : (difference (.var "a") (.var "b")).layout =
      .sum [(false, .name "a"), (true, .name "b")] := by cbv
  have hnone : (difference (.var "a") (.var "b")).layout.SubtractsNoSum := by
    rw [hlayout]
    exact ⟨by simp, trivial, fun _ => rfl, trivial, trivial⟩
  have hterm : Simplified IsParameterName IsEntryName (difference (.var "a") (.var "b")) :=
    .difference (.var (isParameterName_abc "a" (by simp))) (.var (isParameterName_abc "b" (by simp)))
  refine ⟨((text_faithful {} []).1 _ hterm).faithful hnone, ?_⟩
  have hexpr : ((run {} [.set "f" (.expression "sin(a)")]).entries.get? "f").bind
      Entry.expression = some (.func .sin [.var "a"]) := by rfl
  obtain ⟨e, he, ht⟩ := Option.bind_eq_some_iff.mp hexpr
  obtain ⟨hrhs, -, hread⟩ := (text_faithful {} [.set "f" (.expression "sin(a)")]).2 "f" e _ he
    ht (fun x hx => isParameterName_abc x (by simp [varsIn, varsInAll] at hx ⊢; tauto))
    (by simp [appliedIn, appliedInAll])
  exact ⟨e, _, he, hrhs, hread.faithful ⟨trivial, trivial⟩⟩

/-- The term of `a - (b + c)`. -/
def subtractedSum : Term := difference (.var "a") (sum [.var "b", .var "c"])

/-- The text of `a - (b + c)` is `a - b + c`, which has another value where `c` is not zero. -/
theorem subtracted_sum_unfaithful :
    Simplified IsParameterName IsEntryName subtractedSum ∧ subtractedSum.text = "a - b + c" ∧
      ¬ subtractedSum.Faithful := by
  have hterm : Simplified IsParameterName IsEntryName subtractedSum := by
    refine .difference (.var (isParameterName_abc "a" (by simp))) (.sum fun t ht => ?_)
    fin_cases ht
    · exact .var (isParameterName_abc "b" (by simp))
    · exact .var (isParameterName_abc "c" (by simp))
  have hread : subtractedSum.layout.expr true =
      .binary .add (.binary .sub (.symbol "a") (.symbol "b")) (.symbol "c") := by cbv
  have hform : subtractedSum = .add [.var "a", .mul (-1) [.add [.var "b", .var "c"]]] := by cbv
  refine ⟨hterm, by cbv, ?_⟩
  rintro ⟨x, hx, hvalue⟩
  rw [hterm.canonical.readable.read, hread, Except.ok.injEq] at hx
  -- with `a` and `b` zero and `c` one, the term is minus one and its text one
  let I : Interpretation := ⟨fun y => if y = "c" then 1 else 0, fun _ _ => none⟩
  have hterm : subtractedSum.value? I = some (-1) := by
    simp [hform, value?, values?, I]
  have htext : x.value? I = some 1 := by
    rw [← hx]
    simp [Expr.value?, I, Constant.ofName?]
  rw [hvalue I _ hterm, Option.some.injEq] at htext
  norm_num at htext

end Registry

end Formulary
