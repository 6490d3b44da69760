import Formulary.Proofs.Except
import Formulary.Proofs.Meaning.Exact
import Formulary.Proofs.Meaning.Term
import Formulary.Proofs.Term.Canonical
import Mathlib.Algebra.BigOperators.Group.List.Basic
import Mathlib.Tactic.Ring

/-!
Canonical sums, products and powers keep the value.

Wherever the plain product or power of some terms has a real value, the canonical one has the same
value, under every meaning of the names. It may have a value where the plain one has none: `x - x` is
zero also where `x` is undefined. So equality is one-sided, and `Refines` says it.

## How the proof goes

A constructor keeps an intermediate state, and each state has a value of its own: the powers merged so far
have that of their product (`powersValue?`), a coefficient with factors that of the product
(`joinedValue?`), terms with coefficients that of the weighted sum (`weighedSum?`). There is one lemma for
what a step does to this value, and one for the fold over all steps.

Powers are taken step by step (`powerStep_refines`), with the powers within a step left open, and then for
any number of steps. What is a fact on numbers there, that a power computed from exact roots is the real
power, is proved before (`numberPower?_refines`). Its cases are those of the exponent: for an integer the
base may have any sign, while otherwise it is not negative, and then its root is the one of the reals.

## What a sum leaves out

The sum splits the coefficient off each term, and puts the collected one in front of what is left. If what
is left is a product with a coefficient again, that one is overwritten. `lost` is the difference for one
like term, and `lostSum` that of the whole, so that the value of the canonical sum is known in every case
(`valueIn?_sum`). It is zero for canonical terms (`lostSum_of_canonical`), where what is left never has a
coefficient. A sum of other terms may differ from the plain one by just this much.
-/

namespace Formulary.Term

section Products

variable {A : Assignment}

mutual

/-- A term is its coefficient times its factors. -/
theorem valuesIn?_factors : ∀ {t : Term} {v : ℝ}, t.valueIn? A = some v →
    ∃ vs, valuesIn? A t.factors = some vs ∧ v = t.coefficient * vs.prod
  | .num q, v, h => by
      simp only [valueIn?, Option.some.injEq] at h
      exact ⟨[], rfl, by simp [coefficient, h]⟩
  | .mul c fs, v, h => by
      obtain ⟨ws, hws, rfl⟩ := valueIn?_mul.1 h
      obtain ⟨vs, hvs, hprod⟩ := valuesIn?_factorsAll hws
      refine ⟨vs, hvs, ?_⟩
      rw [hprod, coefficient, Rat.cast_mul, mul_assoc]
  | .const _, v, h | .var _, v, h | .func _ _, v, h | .apply _ _, v, h | .add _, v, h
  | .pow _ _, v, h => ⟨[v], valuesIn?_singleton.2 ⟨v, h, rfl⟩, by simp [coefficient]⟩

theorem valuesIn?_factorsAll : ∀ {ts : List Term} {vs : List ℝ}, valuesIn? A ts = some vs →
    ∃ ws, valuesIn? A (factorsAll ts) = some ws ∧ vs.prod = coefficientAll ts * ws.prod
  | [], vs, h => by
      rw [valuesIn?_nil.1 h]
      exact ⟨[], rfl, by simp [coefficientAll]⟩
  | t :: ts, vs, h => by
      obtain ⟨v, us, hv, hus, rfl⟩ := valuesIn?_cons.1 h
      obtain ⟨ws, hws, rfl⟩ := valuesIn?_factors hv
      obtain ⟨xs, hxs, hprod⟩ := valuesIn?_factorsAll hus
      refine ⟨ws ++ xs, valuesIn?_append.2 ⟨ws, xs, hws, hxs, rfl⟩, ?_⟩
      rw [List.prod_cons, hprod, coefficientAll, Rat.cast_mul, List.prod_append]
      ring

end

/-- The product of several powers, given as base and exponent. -/
noncomputable def powersValue? (A : Assignment) (l : List (Term × Term)) : Option ℝ :=
  (valuesIn? A (l.map fun p => .pow p.1 p.2)).map List.prod

theorem powersValue?_cons {p : Term × Term} {l : List (Term × Term)} {w : ℝ} :
    powersValue? A (p :: l) = some w ↔
      ∃ v s, (Term.pow p.1 p.2).valueIn? A = some v ∧ powersValue? A l = some s ∧ w = v * s := by
  simp only [powersValue?, List.map_cons, Option.map_eq_some_iff, valuesIn?_cons]
  constructor
  · rintro ⟨_, ⟨v, vs, hv, hvs, rfl⟩, rfl⟩
    exact ⟨v, vs.prod, hv, ⟨vs, hvs, rfl⟩, List.prod_cons⟩
  · rintro ⟨v, s, hv, ⟨vs, hvs, rfl⟩, rfl⟩
    exact ⟨v :: vs, ⟨v, vs, hv, hvs, rfl⟩, List.prod_cons⟩

/-- Merging a power multiplies the product by it. -/
theorem powersValue?_mergePower {b e : Term} {v : ℝ} (hv : (Term.pow b e).valueIn? A = some v) :
    ∀ {l : List (Term × Term)} {s : ℝ}, powersValue? A l = some s →
      powersValue? A (mergePower b e l) = some (s * v)
  | [], s, hs => by
      simp only [powersValue?, List.map_nil, valuesIn?, Option.map_some, List.prod_nil,
        Option.some.injEq] at hs
      refine powersValue?_cons.2 ⟨v, 1, hv, rfl, ?_⟩
      rw [← hs, mul_comm]
  | (b', e') :: r, s, hs => by
      obtain ⟨x, s', hx, hs', rfl⟩ := powersValue?_cons.1 hs
      have hskip : powersValue? A ((b', e') :: mergePower b e r) = some (x * s' * v) :=
        powersValue?_cons.2 ⟨x, s' * v, hx, powersValue?_mergePower hv hs', by ring⟩
      unfold mergePower
      split
      · rename_i p q
        split
        · rename_i hb
          subst hb
          obtain ⟨y, hy, hyp⟩ := valueIn?_pow_num.1 hx
          obtain ⟨y', hy', hyq⟩ := valueIn?_pow_num.1 hv
          obtain rfl : y = y' := Option.some.inj (hy.symm.trans hy')
          have hsum : (Term.pow b' (.num (p + q))).valueIn? A = some (x * v) :=
            valueIn?_pow_num.2 ⟨y, hy, by rw [Rat.cast_add]; exact realPower?_add hyp hyq⟩
          exact powersValue?_cons.2 ⟨x * v, s', hsum, hs', by ring⟩
        · exact hskip
      · exact hskip

theorem powersValue?_foldl : ∀ {fs : List Term} {vs : List ℝ} {acc : List (Term × Term)} {s : ℝ},
    valuesIn? A fs = some vs → powersValue? A acc = some s →
    powersValue? A (fs.foldl (fun acc f => let (b, e) := asPower f; mergePower b e acc) acc) =
      some (s * vs.prod)
  | [], vs, acc, s, h, hs => by
      rw [valuesIn?_nil.1 h, List.prod_nil, mul_one]
      exact hs
  | f :: fs, vs, acc, s, h, hs => by
      obtain ⟨v, us, hv, hus, rfl⟩ := valuesIn?_cons.1 h
      have hmerge := powersValue?_mergePower (valueIn?_asPower hv) hs
      rw [List.foldl_cons, List.prod_cons, ← mul_assoc]
      exact powersValue?_foldl hus hmerge

theorem powersValue?_mergedPowers {fs : List Term} {vs : List ℝ} (h : valuesIn? A fs = some vs) :
    powersValue? A (mergedPowers fs) = some vs.prod := by
  have hnil : powersValue? A [] = some 1 := rfl
  rw [← one_mul vs.prod]
  exact powersValue?_foldl h hnil

/-- The value of a product that is being put together. -/
noncomputable def joinedValue? (A : Assignment) (acc : Rat × List Term) : Option ℝ :=
  (Term.mul acc.1 acc.2).valueIn? A

theorem joinedValue?_joinFactor {acc : Rat × List Term} {t : Term} {s v : ℝ}
    (hs : joinedValue? A acc = some s) (hv : t.valueIn? A = some v) :
    joinedValue? A (joinFactor acc t) = some (s * v) := by
  obtain ⟨vs, hvs, rfl⟩ := valueIn?_mul.1 hs
  cases t with
  | num q =>
    simp only [valueIn?, Option.some.injEq] at hv
    refine valueIn?_mul.2 ⟨vs, hvs, ?_⟩
    simp only [joinFactor, Rat.cast_mul, ← hv]
    ring
  | mul c fs =>
    obtain ⟨ws, hws, rfl⟩ := valueIn?_mul.1 hv
    refine valueIn?_mul.2 ⟨vs ++ ws, valuesIn?_append.2 ⟨vs, ws, hvs, hws, rfl⟩, ?_⟩
    simp only [joinFactor, Rat.cast_mul, List.prod_append]
    ring
  | _ =>
    refine valueIn?_mul.2 ⟨vs ++ [v],
      valuesIn?_append.2 ⟨vs, [v], hvs, valuesIn?_singleton.2 ⟨v, hv, rfl⟩, rfl⟩, ?_⟩
    simp only [joinFactor, List.prod_append, List.prod_singleton]
    ring

theorem ofFactors_refines (c : Rat) (fs : List Term) : (Term.mul c fs).Refines (ofFactors c fs) := by
  intro A v hv
  obtain ⟨vs, hvs, rfl⟩ := valueIn?_mul.1 hv
  unfold ofFactors
  split
  · rename_i hc
    simp [valueIn?, hc]
  split
  · rw [valuesIn?_nil.1 hvs]
    simp [valueIn?]
  · split
    · rename_i hc
      obtain ⟨w, hw, rfl⟩ := valuesIn?_singleton.1 hvs
      rw [hw, hc]
      simp
    · exact valueIn?_mul.2 ⟨vs, hvs, rfl⟩
  · exact valueIn?_mul.2 ⟨vs, hvs, rfl⟩

/-- The powers that a product was merged into, joined to what is there already. -/
theorem joinedValue?_foldl {power : Term → Term → Term}
    (hpower : ∀ b e, (Term.pow b e).Refines (power b e)) :
    ∀ {l : List (Term × Term)} {acc : Rat × List Term} {s w : ℝ},
      joinedValue? A acc = some s → powersValue? A l = some w →
      joinedValue? A (l.foldl (fun acc p => joinFactor acc (power p.1 p.2)) acc) = some (s * w)
  | [], acc, s, w, hs, hw => by
      simp only [powersValue?, List.map_nil, valuesIn?, Option.map_some, List.prod_nil,
        Option.some.injEq] at hw
      rw [← hw, mul_one]
      exact hs
  | p :: r, acc, s, w, hs, hw => by
      obtain ⟨v, w', hv, hw', rfl⟩ := powersValue?_cons.1 hw
      have hj := joinedValue?_joinFactor hs (hpower p.1 p.2 A v hv)
      rw [← mul_assoc, List.foldl_cons]
      exact joinedValue?_foldl hpower hj hw'

/-- The canonical product keeps the value if the powers in it are formed so that they do. -/
theorem productWith_refines {power : Term → Term → Term}
    (hpower : ∀ b e, (Term.pow b e).Refines (power b e)) (ts : List Term) :
    (Term.mul 1 ts).Refines (productWith power ts) := by
  intro A v hv
  obtain ⟨vs, hvs, rfl⟩ := valueIn?_mul.1 hv
  obtain ⟨ws, hws, hprod⟩ := valuesIn?_factorsAll hvs
  rw [Rat.cast_one, one_mul, hprod]
  unfold productWith
  dsimp only
  split
  · rename_i hc
    simp [valueIn?, hc]
  · refine ofFactors_refines _ _ A _ (joinedValue?_foldl hpower ?_ (powersValue?_mergedPowers hws))
    exact valueIn?_mul.2 ⟨[], rfl, by simp⟩

end Products

/-! ## Powers -/

theorem eq_zpow_of_power {c q : Rat} {n : ℤ} (h : (Exact.power c n).toOption = some q) :
    q = c ^ n :=
  (Exact.power_eq_ok (Except.toOption_eq_some.mp h)).1

/-- The exact power of two numbers is the power of an exact root. -/
theorem exists_root_of_numberPower? {a e q : Rat} (h : numberPower? a e = some q) :
    ∃ r : Rat, r ^ e.den = a ∧ (0 ≤ a → 0 ≤ r) ∧ q = r ^ e.num := by
  unfold numberPower? at h
  split at h
  · cases h
  split at h
  · cases h
  rename_i hfits
  simp only [Bool.not_eq_true', Bool.and_eq_false_iff, not_or, Bool.not_eq_false] at hfits
  obtain ⟨r, hr, hq⟩ := Option.bind_eq_some_iff.1 h
  obtain ⟨hroot, hsign, -⟩ := Exact.root?_pow hfits.2 hr
  exact ⟨r, hroot, hsign, eq_zpow_of_power hq⟩

/-- A real power is that of an exact root by the denominator of the exponent. -/
theorem realPower?_root {a e r : Rat} {v : ℝ} (hroot : r ^ e.den = a) (hsign : 0 ≤ a → 0 ≤ r)
    (hv : realPower? a e = some v) : v = ((r ^ e.num : Rat) : ℝ) := by
  by_cases hden : e.den = 1
  · -- an integer exponent: the root is the base itself
    have he : (e : ℝ) = ((e.num : ℤ) : ℝ) := by
      rw [Rat.cast_def, hden, Nat.cast_one, div_one]
    rw [hden, pow_one] at hroot
    rw [he, realPower?_intCast] at hv
    rw [← hv.2, hroot, Rat.cast_zpow]
  · -- any other exponent: the base is not negative, and the root is that of the reals
    obtain ⟨hdef, rfl⟩ := realPower?_eq_some.1 hv
    have ha : (0 : ℝ) ≤ a := by
      rcases hdef with h | ⟨h, _⟩ | ⟨_, n, hn⟩
      · exact h.le
      · exact h.ge
      · have : e = (n : Rat) := by exact_mod_cast hn
        exact absurd (by rw [this, Rat.den_intCast]) hden
    have hr0 : (0 : ℝ) ≤ r := by exact_mod_cast hsign (by exact_mod_cast ha)
    have hexp : (e.den : ℝ) * e = e.num := by
      exact_mod_cast Rat.den_mul_eq_num e
    rw [← hroot, Rat.cast_zpow, Rat.cast_pow, ← Real.rpow_natCast, ← Real.rpow_mul hr0, hexp,
      Real.rpow_intCast]

/-- An exact power of numbers is their real power, if there is one. -/
theorem numberPower?_refines {a e q : Rat} (h : numberPower? a e = some q) :
    (Term.pow (.num a) (.num e)).Refines (.num q) := by
  intro A v hv
  obtain ⟨x, hx, hv⟩ := valueIn?_pow_num.1 hv
  simp only [valueIn?, Option.some.injEq] at hx ⊢
  subst hx
  obtain ⟨r, hroot, hsign, rfl⟩ := exists_root_of_numberPower? h
  exact (realPower?_root hroot hsign hv).symm

/-- The power of a coefficient, expanded or not. -/
theorem coefficientPower_refines (c e : Rat) :
    (Term.pow (.num c) (.num e)).Refines (coefficientPower c e) := by
  unfold coefficientPower
  split
  · rename_i q h
    obtain ⟨n, hn, hq⟩ := Option.bind_eq_some_iff.1 h
    intro A v hv
    obtain ⟨x, hx, hv⟩ := valueIn?_pow_num.1 hv
    simp only [valueIn?, Option.some.injEq] at hx ⊢
    rw [← hx, Exact.eq_of_toInt32? hn, Rat.cast_intCast, realPower?_intCast] at hv
    rw [← hv.2, eq_zpow_of_power hq, Rat.cast_zpow]
  · exact .refl _

/-- An integer power of a product is the product of the powers. -/
theorem valuesIn?_spread {power : Term → Term → Term}
    (hpower : ∀ b e, (Term.pow b e).Refines (power b e)) {A : Assignment} {e : Rat} {n : ℤ}
    (he : e = n) : ∀ {fs : List Term} {vs : List ℝ} {w : ℝ}, valuesIn? A fs = some vs →
      realPower? vs.prod n = some w →
      ∃ ws, valuesIn? A (fs.map fun f => power f (.num e)) = some ws ∧ ws.prod = w
  | [], vs, w, hvs, hw => by
      rw [valuesIn?_nil.1 hvs, List.prod_nil, realPower?_intCast, one_zpow] at hw
      exact ⟨[], rfl, hw.2⟩
  | f :: fs, vs, w, hvs, hw => by
      obtain ⟨v, us, hv, hus, rfl⟩ := valuesIn?_cons.1 hvs
      rw [List.prod_cons] at hw
      obtain ⟨p, q, hp, hq, rfl⟩ := realPower?_mul_base hw
      obtain ⟨ws, hws, rfl⟩ := valuesIn?_spread hpower he hus hq
      have hf : (power f (.num e)).valueIn? A = some p :=
        hpower f (.num e) A p (valueIn?_pow_num.2 ⟨v, hv, by rw [he, Rat.cast_intCast]; exact hp⟩)
      exact ⟨p :: ws, valuesIn?_cons.2 ⟨p, ws, hf, hws, rfl⟩, List.prod_cons⟩

/-- One step of a power keeps the value if the powers within it do. -/
theorem powerStep_refines {power : Term → Term → Term}
    (hpower : ∀ b e, (Term.pow b e).Refines (power b e)) {b t : Term} {e : Rat}
    (h : PowerStep power b e t) : (Term.pow b (.num e)).Refines t := by
  intro A v hv
  obtain ⟨x, hx, hpow⟩ := valueIn?_pow_num.1 hv
  cases h with
  | zero =>
    rw [Rat.cast_zero, realPower?_zero] at hpow
    simpa [valueIn?] using hpow
  | one =>
    rw [Rat.cast_one, realPower?_one] at hpow
    rw [hx, hpow]
  | exact hq => exact numberPower?_refines hq A v hv
  | kept => exact hv
  | @nested b i e he =>
    obtain ⟨y, hy, hi⟩ := valueIn?_pow_num.1 hx
    obtain ⟨n, rfl⟩ : ∃ n : ℤ, e = n := ⟨e.num, ((Rat.den_eq_one_iff e).1 he).symm⟩
    refine hpower _ _ A v (valueIn?_pow_num.2 ⟨y, hy, ?_⟩)
    rw [Rat.cast_mul, Rat.cast_intCast]
    rw [Rat.cast_intCast] at hpow
    exact realPower?_mul_intCast hi hpow
  | @spread c e fs he =>
    obtain ⟨n, hn⟩ : ∃ n : ℤ, e = n := ⟨e.num, ((Rat.den_eq_one_iff e).1 he).symm⟩
    obtain ⟨vs, hvs, rfl⟩ := valueIn?_mul.1 hx
    rw [hn, Rat.cast_intCast] at hpow
    obtain ⟨p, q, hp, hq, rfl⟩ := realPower?_mul_base hpow
    obtain ⟨ws, hws, rfl⟩ := valuesIn?_spread hpower hn hvs hq
    have hc : (coefficientPower c e).valueIn? A = some p :=
      coefficientPower_refines c e A p
        (valueIn?_pow_num.2 ⟨c, rfl, by rw [hn, Rat.cast_intCast]; exact hp⟩)
    refine productWith_refines hpower _ A _ (valueIn?_mul.2 ⟨p :: ws, ?_, ?_⟩)
    · exact valuesIn?_cons.2 ⟨p, ws, hc, hws, rfl⟩
    · rw [Rat.cast_one, one_mul, List.prod_cons]

theorem powerWithin_refines : ∀ (n : Nat) (b e : Term), (Term.pow b e).Refines (powerWithin n b e)
  | 0, b, e => .refl _
  | n + 1, b, e => by
      cases e with
      | num q => exact powerStep_refines (powerWithin_refines n) (powerStep _ b q)
      | _ => exact .refl _

/-- The canonical power keeps the value of the plain one. -/
theorem power_refines (b e : Term) : (Term.pow b e).Refines (power b e) :=
  powerWithin_refines b.weight b e

/-- The canonical product keeps the value of the plain one. -/
theorem product_refines (ts : List Term) : (Term.mul 1 ts).Refines (product ts) :=
  productWith_refines power_refines ts

theorem valueIn?_product {A : Assignment} {ts : List Term} {vs : List ℝ}
    (h : valuesIn? A ts = some vs) : (product ts).valueIn? A = some vs.prod :=
  product_refines ts A _ (valueIn?_mul.2 ⟨vs, h, by rw [Rat.cast_one, one_mul]⟩)

theorem valueIn?_negated {A : Assignment} {t : Term} {v : ℝ} (h : t.valueIn? A = some v) :
    t.negated.valueIn? A = some (-v) := by
  have hminus : (Term.num (-1)).valueIn? A = some ((-1 : Rat) : ℝ) := rfl
  rw [negated, valueIn?_product (valuesIn?_pair hminus h)]
  simp

/-- A quotient by a term with another value than zero. -/
theorem valueIn?_quotient {A : Assignment} {a b : Term} {x y : ℝ} (ha : a.valueIn? A = some x)
    (hb : b.valueIn? A = some y) (hy : y ≠ 0) : (quotient a b).valueIn? A = some (x / y) := by
  have hinv : (power b (.num (-1))).valueIn? A = some y⁻¹ := by
    refine power_refines b _ A _ (valueIn?_pow_num.2 ⟨y, hb, ?_⟩)
    have hcast : ((-1 : Rat) : ℝ) = ((-1 : ℤ) : ℝ) := by push_cast; rfl
    rw [hcast, realPower?_intCast]
    exact ⟨.inl hy, zpow_neg_one y⟩
  rw [quotient, valueIn?_product (valuesIn?_pair ha hinv)]
  simp [div_eq_mul_inv]

/-! ## Sums -/

section Sums

variable {A : Assignment}

mutual

/-- A term is the sum of its summands. -/
theorem valuesIn?_summands : ∀ {t : Term} {v : ℝ}, t.valueIn? A = some v →
    ∃ vs, valuesIn? A t.summands = some vs ∧ vs.sum = v
  | .add ts, v, h => by
      obtain ⟨ws, hws, rfl⟩ := valueIn?_add.1 h
      exact valuesIn?_summandsAll hws
  | .num _, v, h | .const _, v, h | .var _, v, h | .func _ _, v, h | .apply _ _, v, h
  | .mul _ _, v, h | .pow _ _, v, h => ⟨[v], valuesIn?_singleton.2 ⟨v, h, rfl⟩, by simp⟩

theorem valuesIn?_summandsAll : ∀ {ts : List Term} {vs : List ℝ}, valuesIn? A ts = some vs →
    ∃ ws, valuesIn? A (summandsAll ts) = some ws ∧ ws.sum = vs.sum
  | [], vs, h => by
      rw [valuesIn?_nil.1 h]
      exact ⟨[], rfl, rfl⟩
  | t :: ts, vs, h => by
      obtain ⟨v, us, hv, hus, rfl⟩ := valuesIn?_cons.1 h
      obtain ⟨ws, hws, rfl⟩ := valuesIn?_summands hv
      obtain ⟨xs, hxs, hsum⟩ := valuesIn?_summandsAll hus
      refine ⟨ws ++ xs, valuesIn?_append.2 ⟨ws, xs, hws, hxs, rfl⟩, ?_⟩
      rw [List.sum_append, hsum, List.sum_cons]

end

/-- The numbers of a list and its other terms together make up its sum. -/
theorem valuesIn?_filter_isNum : ∀ {ts : List Term} {vs : List ℝ}, valuesIn? A ts = some vs →
    ∃ ws, valuesIn? A (ts.filter fun t => !t.isNum) = some ws ∧
      vs.sum = ((ts.filterMap num?).sum : Rat) + ws.sum
  | [], vs, h => by
      rw [valuesIn?_nil.1 h]
      exact ⟨[], rfl, by simp⟩
  | t :: ts, vs, h => by
      obtain ⟨v, us, hv, hus, rfl⟩ := valuesIn?_cons.1 h
      obtain ⟨ws, hws, hsum⟩ := valuesIn?_filter_isNum hus
      cases t with
      | num q =>
        simp only [valueIn?, Option.some.injEq] at hv
        have hnums : (Term.num q :: ts).filterMap num? = q :: ts.filterMap num? := rfl
        refine ⟨ws, hws, ?_⟩
        rw [hnums, List.sum_cons, List.sum_cons, Rat.cast_add, hsum, ← hv, add_assoc]
      | _ =>
        refine ⟨v :: ws, valuesIn?_cons.2 ⟨v, ws, hv, hws, rfl⟩, ?_⟩
        rw [List.filterMap_cons_none rfl, List.sum_cons, List.sum_cons, hsum, add_left_comm]

theorem numberSum_eq_sum (ts : List Term) : numberSum ts = (ts.filterMap num?).sum :=
  List.sum_eq_foldl.symm

/-- The sum of terms with their coefficients. -/
noncomputable def weighedSum? (A : Assignment) : List (Rat × Term) → Option ℝ
  | [] => some 0
  | (c, t) :: r => (t.valueIn? A).bind fun v => (weighedSum? A r).map fun s => c * v + s

theorem weighedSum?_cons {c : Rat} {t : Term} {r : List (Rat × Term)} {w : ℝ} :
    weighedSum? A ((c, t) :: r) = some w ↔
      ∃ v s, t.valueIn? A = some v ∧ weighedSum? A r = some s ∧ w = c * v + s := by
  simp only [weighedSum?, Option.bind_eq_some_iff, Option.map_eq_some_iff]
  constructor
  · rintro ⟨v, hv, s, hs, rfl⟩
    exact ⟨v, s, hv, hs, rfl⟩
  · rintro ⟨v, s, hv, hs, rfl⟩
    exact ⟨v, hv, s, hs, rfl⟩

/-- Collecting a term adds it. -/
theorem weighedSum?_collect {c : Rat} {t : Term} {v : ℝ} (hv : t.valueIn? A = some v) :
    ∀ {l : List (Rat × Term)} {s : ℝ}, weighedSum? A l = some s →
      weighedSum? A (collect c t l) = some (s + c * v)
  | [], s, hs => by
      simp only [weighedSum?, Option.some.injEq] at hs
      exact weighedSum?_cons.2 ⟨v, 0, hv, rfl, by rw [← hs, add_comm]⟩
  | (d, u) :: r, s, hs => by
      obtain ⟨x, s', hx, hs', rfl⟩ := weighedSum?_cons.1 hs
      unfold collect
      split
      · rename_i hu
        subst hu
        obtain rfl : x = v := Option.some.inj (hx.symm.trans hv)
        refine weighedSum?_cons.2 ⟨x, s', hx, hs', ?_⟩
        push_cast
        ring
      · exact weighedSum?_cons.2 ⟨x, _, hx, weighedSum?_collect hv hs', by ring⟩

/-- A term is its coefficient times the rest. -/
theorem valueIn?_splitCoefficient {t : Term} {v : ℝ} (hv : t.valueIn? A = some v) :
    ∃ w, (splitCoefficient t).2.valueIn? A = some w ∧ v = (splitCoefficient t).1 * w := by
  unfold splitCoefficient
  split
  · obtain ⟨vs, hvs, rfl⟩ := valueIn?_mul.1 hv
    obtain ⟨w, hw, rfl⟩ := valuesIn?_singleton.1 hvs
    exact ⟨w, hw, by simp⟩
  · obtain ⟨vs, hvs, rfl⟩ := valueIn?_mul.1 hv
    exact ⟨vs.prod, valueIn?_mul.2 ⟨vs, hvs, by simp⟩, rfl⟩
  · exact ⟨v, hv, by simp⟩

theorem weighedSum?_foldl_collect : ∀ {ts : List Term} {vs : List ℝ} {acc : List (Rat × Term)}
    {s : ℝ}, valuesIn? A ts = some vs → weighedSum? A acc = some s →
    weighedSum? A (ts.foldl (fun acc t => let (c, u) := splitCoefficient t; collect c u acc) acc) =
      some (s + vs.sum)
  | [], vs, acc, s, h, hs => by
      rw [valuesIn?_nil.1 h, List.sum_nil, add_zero]
      exact hs
  | t :: ts, vs, acc, s, h, hs => by
      obtain ⟨v, us, hv, hus, rfl⟩ := valuesIn?_cons.1 h
      obtain ⟨w, hw, rfl⟩ := valueIn?_splitCoefficient hv
      have hcollect := weighedSum?_collect (c := (splitCoefficient t).1) hw hs
      rw [List.foldl_cons, List.sum_cons, ← add_assoc]
      exact weighedSum?_foldl_collect hus hcollect

/-- The term that a new coefficient is put in front of: the coefficient of a product is left out. -/
def unscaled : Term → Term
  | .mul _ fs => .mul 1 fs
  | t => t

theorem IsUnscaled.unscaled_eq {t : Term} (h : t.IsUnscaled) : unscaled t = t := by
  rcases h with h | ⟨fs, rfl⟩
  · cases t with
    | mul => cases h
    | _ => rfl
  · rfl

/-- A new coefficient other than one takes the place of the one that the term has. -/
theorem valueIn?_scaled (c : Rat) {t : Term} {v : ℝ} (hv : t.valueIn? A = some v) :
    ∃ w, (unscaled t).valueIn? A = some w ∧
      (scaled c t).valueIn? A = some (if c = 1 then v else c * w) := by
  have hfactor : ∀ {u : Term} {w : ℝ}, u.valueIn? A = some w →
      (Term.mul c [u]).valueIn? A = some (c * w) := fun hw =>
    valueIn?_mul.2 ⟨[_], valuesIn?_singleton.2 ⟨_, hw, rfl⟩, by rw [List.prod_singleton]⟩
  unfold scaled
  cases t with
  | mul d fs =>
    obtain ⟨vs, hvs, rfl⟩ := valueIn?_mul.1 hv
    refine ⟨vs.prod, valueIn?_mul.2 ⟨vs, hvs, by rw [Rat.cast_one, one_mul]⟩, ?_⟩
    split
    · exact hv
    · exact valueIn?_mul.2 ⟨vs, hvs, rfl⟩
  | _ =>
    refine ⟨v, hv, ?_⟩
    split
    · exact hv
    · exact hfactor hv

/-- What is left out when a new coefficient is put in front of a term. -/
noncomputable def lost (A : Assignment) (p : Rat × Term) : ℝ :=
  if p.1 = 1 then 0
  else p.1 * ((p.2.valueIn? A).getD 0 - ((unscaled p.2).valueIn? A).getD 0)

theorem lost_eq_zero {p : Rat × Term} (h : unscaled p.2 = p.2) : lost A p = 0 := by
  rw [lost, h, sub_self, mul_zero, ite_self]

/-- Terms whose coefficient became zero can be left out. -/
theorem valuesIn?_scaled : ∀ {l : List (Rat × Term)} {s : ℝ}, weighedSum? A l = some s →
    ∃ vs, valuesIn? A ((l.filter fun p => p.1 != 0).map fun p => scaled p.1 p.2) = some vs ∧
      vs.sum = s - (l.map (lost A)).sum
  | [], s, hs => by
      simp only [weighedSum?, Option.some.injEq] at hs
      exact ⟨[], rfl, by simp [← hs]⟩
  | (c, t) :: r, s, hs => by
      obtain ⟨v, s', hv, hs', rfl⟩ := weighedSum?_cons.1 hs
      obtain ⟨vs, hvs, hsum⟩ := valuesIn?_scaled hs'
      obtain ⟨w, hw, hscaled⟩ := valueIn?_scaled c hv
      have hlost : lost A (c, t) = c * v - if c = 1 then v else c * w := by
        rw [lost, hv, hw]
        split <;> simp_all [mul_sub]
      rw [List.map_cons, List.sum_cons, hlost]
      by_cases hc : c = 0
      · subst hc
        refine ⟨vs, hvs, ?_⟩
        rw [hsum]
        simp
      · have hkeep : ((c, t) :: r).filter (fun p => p.1 != 0) =
            (c, t) :: r.filter fun p => p.1 != 0 := List.filter_cons_of_pos (by simpa using hc)
        rw [hkeep, List.map_cons]
        refine ⟨_ :: vs, valuesIn?_cons.2 ⟨_, vs, hscaled, hvs, rfl⟩, ?_⟩
        rw [List.sum_cons, hsum]
        ring

theorem ofSummands_refines (ts : List Term) : (Term.add ts).Refines (ofSummands ts) := by
  intro A v hv
  obtain ⟨vs, hvs, rfl⟩ := valueIn?_add.1 hv
  match ts with
  | [] =>
    rw [valuesIn?_nil.1 hvs]
    simp [ofSummands, valueIn?]
  | [t] =>
    obtain ⟨w, hw, rfl⟩ := valuesIn?_singleton.1 hvs
    simpa [ofSummands] using hw
  | t :: u :: r => exact hv

/-- What the canonical sum leaves out of the plain one. -/
noncomputable def lostSum (A : Assignment) (ts : List Term) : ℝ :=
  ((likeTerms (summandsAll ts)).map (lost A)).sum

/-- The canonical sum is the plain one less what is left out. -/
theorem valueIn?_sum {ts : List Term} {vs : List ℝ} (h : valuesIn? A ts = some vs) :
    (sum ts).valueIn? A = some (vs.sum - lostSum A ts) := by
  obtain ⟨ws, hws, hsum⟩ := valuesIn?_summandsAll h
  obtain ⟨xs, hxs, hnum⟩ := valuesIn?_filter_isNum hws
  have hlike : weighedSum? A (likeTerms (summandsAll ts)) = some xs.sum := by
    have hnil : weighedSum? A [] = some 0 := rfl
    rw [← zero_add xs.sum]
    exact weighedSum?_foldl_collect hxs hnil
  obtain ⟨ys, hys, hysum⟩ := valuesIn?_scaled hlike
  have hconst : ∃ zs, valuesIn? A (if numberSum (summandsAll ts) = 0 then []
      else [.num (numberSum (summandsAll ts))]) = some zs ∧
      zs.sum = (numberSum (summandsAll ts) : ℝ) := by
    split
    · rename_i h0
      exact ⟨[], rfl, by simp [h0]⟩
    · exact ⟨[_], valuesIn?_singleton.2 ⟨_, rfl, rfl⟩, by simp⟩
  obtain ⟨zs, hzs, hzsum⟩ := hconst
  refine ofSummands_refines _ A _ (valueIn?_add.2 ⟨ys ++ zs, ?_, ?_⟩)
  · exact valuesIn?_append.2 ⟨ys, zs, hys, hzs, rfl⟩
  · rw [List.sum_append, hysum, hzsum, numberSum_eq_sum, lostSum, ← hsum, hnum]
    ring

theorem lostSum_eq_zero {ts : List Term}
    (h : ∀ t ∈ summandsAll ts, t.isNum = false → unscaled (splitCoefficient t).2 = (splitCoefficient t).2) :
    lostSum A ts = 0 := by
  refine List.sum_eq_zero fun x hx => ?_
  obtain ⟨p, hp, rfl⟩ := List.mem_map.1 hx
  obtain ⟨t, ht, hnum, hsplit⟩ := mem_likeTerms hp
  exact lost_eq_zero (hsplit ▸ h t ht hnum)

/-- Nothing is left out of the sum of canonical terms. -/
theorem lostSum_of_canonical {P Q : String → Prop} {ts : List Term}
    (hts : ∀ t ∈ ts, Canonical P Q t) : lostSum A ts = 0 :=
  lostSum_eq_zero fun t ht hnum =>
    ((Canonical.summandsAll hts t ht).splitCoefficient hnum).1.unscaled_eq

theorem valueIn?_difference {a b : Term} {x y : ℝ} (hx : a.valueIn? A = some x)
    (hy : b.valueIn? A = some y) :
    (difference a b).valueIn? A = some (x - y - lostSum A [a, b.negated]) := by
  rw [difference, valueIn?_sum (valuesIn?_pair hx (valueIn?_negated hy))]
  simp [sub_eq_add_neg]

end Sums

/-! ## Under an interpretation -/

section Interpretations

variable {I : Interpretation} {a b t : Term} {ts : List Term} {v x y : ℝ} {vs : List ℝ}

theorem value?_product (h : values? I ts = some vs) : (product ts).value? I = some vs.prod := by
  rw [values?_eq] at h
  rw [value?_eq, valueIn?_product h]

theorem value?_negated (h : t.value? I = some v) : t.negated.value? I = some (-v) := by
  rw [value?_eq] at h ⊢
  exact valueIn?_negated h

/-- A quotient by a term with another value than zero. -/
theorem value?_quotient (ha : a.value? I = some x) (hb : b.value? I = some y) (hy : y ≠ 0) :
    (quotient a b).value? I = some (x / y) := by
  rw [value?_eq] at ha hb ⊢
  exact valueIn?_quotient ha hb hy

variable {P Q : String → Prop}

/-- The canonical sum of canonical terms keeps the value of the plain one. -/
theorem value?_sum (hts : ∀ t ∈ ts, Canonical P Q t) (h : values? I ts = some vs) :
    (sum ts).value? I = some vs.sum := by
  rw [values?_eq] at h
  rw [value?_eq, valueIn?_sum h, lostSum_of_canonical hts, sub_zero]

theorem value?_difference (ha : Canonical P Q a) (hb : Canonical P Q b) (hx : a.value? I = some x)
    (hy : b.value? I = some y) : (difference a b).value? I = some (x - y) := by
  have hts : ∀ t ∈ [a, b.negated], Canonical P Q t := by simpa using ⟨ha, hb.negated⟩
  rw [value?_eq] at hx hy ⊢
  rw [valueIn?_difference hx hy, lostSum_of_canonical hts, sub_zero]

end Interpretations

end Formulary.Term
