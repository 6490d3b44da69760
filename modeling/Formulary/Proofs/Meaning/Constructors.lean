import Formulary.Proofs.Meaning.Canonical

/-!
The canonical constructors under every meaning of the names.

Products, powers, negations and quotients have the value of what they are made of wherever that has one,
for all terms, canonical or not. Sums and differences have it exactly if nothing is left out, and that is
so if no summand is a product whose only factor is a product with a coefficient again: of
`3*(2*x)`, written as a product in a product, the sum keeps the coefficient 3 only. A product of the same
factors multiplies both.
-/

namespace Formulary.Term

variable {A : Assignment} {ts : List Term}

/-- Nothing is left out if no summand is a product of a product with another coefficient than one. -/
theorem lostSum_of_single (h : ∀ c d fs, Term.mul c [.mul d fs] ∈ summandsAll ts → d = 1) :
    lostSum A ts = 0 := by
  refine lostSum_eq_zero fun t ht _ => ?_
  match t, ht with
  | .mul c [.mul d fs], ht =>
    rw [splitCoefficient, unscaled, h c d fs ht]
  | .mul _ [.num _], _ | .mul _ [.const _], _ | .mul _ [.var _], _ | .mul _ [.func _ _], _
  | .mul _ [.apply _ _], _ | .mul _ [.add _], _ | .mul _ [.pow _ _], _ => rfl
  | .mul _ [], _ | .mul _ (_ :: _ :: _), _ => rfl
  | .num _, _ | .const _, _ | .var _, _ | .func _ _, _ | .apply _ _, _ | .add _, _ | .pow _ _, _ => rfl

/-- What the canonical constructors do to values under an assignment. -/
structure ConstructorsKeep (A : Assignment) : Prop where
  value_product : ∀ ts vs, valuesIn? A ts = some vs → (product ts).valueIn? A = some vs.prod
  value_power : ∀ b e v, (Term.pow b e).valueIn? A = some v → (power b e).valueIn? A = some v
  value_negated : ∀ t v, valueIn? A t = some v → (negated t).valueIn? A = some (-v)
  value_quotient : ∀ a b x y, valueIn? A a = some x → valueIn? A b = some y → y ≠ 0 →
    (quotient a b).valueIn? A = some (x / y)
  value_sum : ∀ ts vs, valuesIn? A ts = some vs →
    (sum ts).valueIn? A = some (vs.sum - lostSum A ts) ∧
      ((sum ts).valueIn? A = some vs.sum ↔ lostSum A ts = 0)
  value_difference : ∀ a b x y, valueIn? A a = some x → valueIn? A b = some y →
    (difference a b).valueIn? A = some (x - y - lostSum A [a, negated b]) ∧
      ((difference a b).valueIn? A = some (x - y) ↔ lostSum A [a, negated b] = 0)
  nothing_lost : ∀ ts, (∀ c d fs, Term.mul c [.mul d fs] ∈ summandsAll ts → d = 1) →
    lostSum A ts = 0
  canonical_kept : ∀ P Q ts, (∀ t ∈ ts, Canonical P Q t) → lostSum A ts = 0

theorem constructorsKeep (A : Assignment) : ConstructorsKeep A where
  value_product _ _ h := valueIn?_product h
  value_power b e := power_refines b e A
  value_negated _ _ h := valueIn?_negated h
  value_quotient _ _ _ _ hx hy hne := valueIn?_quotient hx hy hne
  value_sum _ _ h := ⟨valueIn?_sum h, by rw [valueIn?_sum h, Option.some.injEq, sub_eq_self]⟩
  value_difference _ _ _ _ hx hy :=
    ⟨valueIn?_difference hx hy, by rw [valueIn?_difference hx hy, Option.some.injEq, sub_eq_self]⟩
  nothing_lost _ h := lostSum_of_single h
  canonical_kept _ _ _ h := lostSum_of_canonical h

/-- Whatever the sine stands for, like terms in it are added up, and a product is squared factor by
factor. -/
theorem constructorsKeep_reinterpreted : ∃ A : Assignment, A.function .sin [3] = some 5 ∧
    (sum [.mul 2 [.func .sin [.var "x"]], .mul 3 [.func .sin [.var "x"]]]).valueIn? A = some 25 ∧
    (power (.mul 2 [.var "x"]) (.num 2)).valueIn? A = some 36 := by
  let A : Assignment := ⟨fun _ => 3, fun _ _ => some 5, fun _ _ => none⟩
  have hkeep := constructorsKeep A
  have hx : (Term.var "x").valueIn? A = some 3 := rfl
  have hsin : ∀ c : Rat, (Term.mul c [.func .sin [.var "x"]]).valueIn? A = some (c * 5) := fun c =>
    valueIn?_mul.2 ⟨[5], rfl, by simp⟩
  refine ⟨A, rfl, ?_, ?_⟩
  · have hvalues := valuesIn?_pair (hsin 2) (hsin 3)
    have hlost := hkeep.nothing_lost [.mul 2 [.func .sin [.var "x"]], .mul 3 [.func .sin [.var "x"]]]
      (by simp [summandsAll, summands])
    rw [((hkeep.value_sum _ _ hvalues).2.2 hlost)]
    norm_num
  · refine hkeep.value_power _ _ _ (valueIn?_pow_num.2 ⟨6, ?_, ?_⟩)
    · exact valueIn?_mul.2 ⟨[3], rfl, by norm_num⟩
    · have hcast : ((2 : Rat) : ℝ) = ((2 : ℤ) : ℝ) := by push_cast; rfl
      rw [hcast, realPower?_intCast]
      norm_num

/-- The sum of `3*(2*x)` alone, a product in a product, is `3*x`. -/
theorem coefficient_lost : ∃ A : Assignment,
    valuesIn? A [.mul 3 [.mul 2 [.var "x"]]] = some [6] ∧
    (sum [.mul 3 [.mul 2 [.var "x"]]]).valueIn? A = some 3 := by
  let A : Assignment := ⟨fun _ => 1, fun _ _ => none, fun _ _ => none⟩
  have hx : valuesIn? A [.var "x"] = some [1] := rfl
  have hinner : (Term.mul 2 [.var "x"]).valueIn? A = some 2 :=
    valueIn?_mul.2 ⟨[1], hx, by norm_num⟩
  have hsum : sum [.mul 3 [.mul 2 [.var "x"]]] = .mul 3 [.var "x"] := by decide +kernel
  refine ⟨A, valuesIn?_singleton.2 ⟨6, valueIn?_mul.2 ⟨[2], ?_, by norm_num⟩, rfl⟩, ?_⟩
  · exact valuesIn?_singleton.2 ⟨2, hinner, rfl⟩
  · rw [hsum]
    exact valueIn?_mul.2 ⟨[1], hx, by norm_num⟩

end Formulary.Term
