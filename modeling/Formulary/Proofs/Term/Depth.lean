import Formulary.Proofs.Term.Weight
import Formulary.Term.Layout
import Mathlib.Algebra.Order.Ring.Rat

/-!
The depth of layouts.

Laying a term out goes into its parts, but also into terms that are simplified on the way: the
negation of one that is subtracted, and the power of a factor below the bar with the exponent turned
positive. These are no parts of the term, and they may be larger. `Term.depth` is a bound that falls at
every step all the same, so that `layout_eq` is the recursion of layouts without a bound. None of this takes
the terms to be canonical.

## How the bound is chosen

Simplifying merges powers and distributes them, and so changes exponents, the number of factors and how
they are nested; but it makes no new bases. Hence a product counts its factors by their bases alone
(`baseDepth`, `maxBase`), and looks through products within products to their factors (`partsDepth`). This
is what is shown not to grow: by a product (`productWith_bounds`), by a power that is spread over one
(`spread_bounds`), and by an integer power (`partsDepth_powerWithin_le`).

The exponents that are new are numbers. A power by a number counts for two levels above its base, and for
three if the number is negative, whatever the power turns into when it is simplified
(`depth_powerWithin_le`). So turning a negative exponent positive, as is done below the bar, is a step down
(`depth_denominator_lt`).

## How the recursion follows

`LaysOut` lists what a layout goes into, and the depth falls along it (`LaysOut.depth_lt`). One step of a
layout depends on the layouts of these terms only (`layoutWith_congr`), so more levels than the depth make
no difference. A layout is allowed a small multiple of the size, and the depth is at most that
(`depth_le_layout`): the bound is never used up.
-/

namespace Formulary.Term

mutual

/-- A bound on the steps of laying a term out. -/
def depth : Term → Nat
  | .num _ | .const _ | .var _ => 1
  | .func _ ts | .apply _ ts | .add ts => maxDepth ts + 1
  | .mul _ fs => maxBase fs + 4
  | .pow b (.num e) => depth b + if e < 0 then 3 else 2
  | .pow b e => max (depth b) (depth e) + 1

/-- The largest depth in a list. -/
def maxDepth : List Term → Nat
  | [] => 0
  | t :: ts => max (depth t) (maxDepth ts)

/-- The largest depth of a base in a list of factors, at least one. -/
def maxBase : List Term → Nat
  | [] => 1
  | .pow b (.num _) :: ts => max (depth b) (maxBase ts)
  | t :: ts => max (depth t) (maxBase ts)

end

/-- The depth of the base of a factor. -/
def baseDepth : Term → Nat
  | .pow b (.num _) => b.depth
  | t => t.depth

/-- The largest depth of a base among the factors of a term. -/
def partsDepth (t : Term) : Nat := maxBase t.parts

variable {t u f b e : Term} {ts fs : List Term} {n m : Nat}

theorem one_le_depth (t : Term) : 1 ≤ t.depth := by
  cases t with
  | pow b e =>
    cases e with
    | num e =>
      rw [depth]
      split <;> omega
    | _ => simp [depth]
  | _ => simp [depth]

theorem depth_le_maxDepth (h : t ∈ ts) : t.depth ≤ maxDepth ts := by
  induction ts with
  | nil => cases h
  | cons u ts ih =>
    rw [maxDepth]
    rcases List.mem_cons.mp h with rfl | h
    · omega
    · have := ih h
      omega

theorem maxBase_cons (t : Term) (ts : List Term) :
    maxBase (t :: ts) = max t.baseDepth (maxBase ts) := by
  cases t with
  | pow b e => cases e <;> rfl
  | _ => rfl

theorem maxBase_le_iff : maxBase ts ≤ m ↔ 1 ≤ m ∧ ∀ t ∈ ts, t.baseDepth ≤ m := by
  induction ts with
  | nil => simp [maxBase]
  | cons t ts ih =>
    rw [maxBase_cons, Nat.max_le, ih]
    simp only [List.mem_cons, forall_eq_or_imp]
    constructor
    · rintro ⟨ht, hm, hts⟩
      exact ⟨hm, ht, hts⟩
    · rintro ⟨hm, ht, hts⟩
      exact ⟨ht, hm, hts⟩

theorem one_le_maxBase (ts : List Term) : 1 ≤ maxBase ts := (maxBase_le_iff.mp (Nat.le_refl _)).1

theorem baseDepth_le_maxBase (h : t ∈ ts) : t.baseDepth ≤ maxBase ts :=
  (maxBase_le_iff.mp (Nat.le_refl _)).2 t h

theorem one_le_baseDepth (t : Term) : 1 ≤ t.baseDepth := by
  cases t with
  | pow b e => cases e <;> exact one_le_depth _
  | _ => exact one_le_depth _

theorem baseDepth_le_depth (t : Term) : t.baseDepth ≤ t.depth := by
  cases t with
  | pow b e =>
    cases e with
    | num e =>
      rw [baseDepth, depth]
      omega
    | _ => exact Nat.le_refl _
  | _ => exact Nat.le_refl _

theorem depth_le_baseDepth (t : Term) : t.depth ≤ t.baseDepth + 3 := by
  cases t with
  | pow b e =>
    cases e with
    | num e =>
      rw [baseDepth, depth]
      split <;> omega
    | _ => simp [baseDepth]
  | _ => simp [baseDepth]

theorem maxBase_le_maxDepth (ts : List Term) : maxBase ts ≤ max 1 (maxDepth ts) := by
  induction ts with
  | nil => simp [maxBase]
  | cons t ts ih =>
    have := baseDepth_le_depth t
    rw [maxBase_cons, maxDepth]
    omega

theorem one_le_partsDepth (t : Term) : 1 ≤ t.partsDepth := one_le_maxBase _

theorem partsDepth_of_isFactor (h : t.isFactor) : t.partsDepth = t.baseDepth := by
  rw [partsDepth, parts_of_isFactor h, maxBase_cons]
  exact Nat.max_eq_left (one_le_baseDepth t)

theorem partsDepth_le_baseDepth (t : Term) : t.partsDepth ≤ t.baseDepth := by
  cases t with
  | num q => exact Nat.le_refl 1
  | mul c fs => exact Nat.le_add_right _ 4
  | _ => exact Nat.le_of_eq (partsDepth_of_isFactor rfl)

theorem partsDepth_le_depth (t : Term) : t.partsDepth ≤ t.depth :=
  (partsDepth_le_baseDepth t).trans (baseDepth_le_depth t)

mutual

/-- The factors of products within products have bases no deeper than the outer factors. -/
theorem baseDepth_factors_le : ∀ {t : Term}, f ∈ t.factors → f.baseDepth ≤ t.partsDepth
  | .num _, h => absurd h List.not_mem_nil
  | .mul _ _, h => baseDepth_factorsAll_le h
  | .const _, h | .var _, h | .func _ _, h | .apply _ _, h | .add _, h | .pow _ _, h =>
    by rw [List.mem_singleton.mp h, partsDepth_of_isFactor rfl]

theorem baseDepth_factorsAll_le : ∀ {ts : List Term}, f ∈ factorsAll ts → f.baseDepth ≤ maxBase ts
  | [], h => absurd h List.not_mem_nil
  | t :: ts, h => by
      rw [maxBase_cons]
      rcases List.mem_append.mp h with h | h
      · exact le_max_of_le_left ((baseDepth_factors_le h).trans (partsDepth_le_baseDepth t))
      · exact le_max_of_le_right (baseDepth_factorsAll_le h)

end

/-! ## Products -/

section Bounds

variable {power : Term → Term → Term}

/-- A way to form powers that keeps powers by terms that are no numbers as they are, and whose factors
have bases no deeper than the base. -/
structure ShallowPower (power : Term → Term → Term) : Prop where
  kept : ∀ b e, e.isNum = false → power b e = .pow b e
  shallow : ∀ b q, (power b (.num q)).partsDepth ≤ b.depth

/-- The factors that a product is merged into have bases no deeper than those that it had. -/
theorem maxBase_mergedFactors_le (hp : ShallowPower power) (hm : 1 ≤ m)
    (h : ∀ t ∈ ts, t.partsDepth ≤ m) : maxBase (mergedFactors power ts) ≤ m := by
  refine maxBase_le_iff.mpr ⟨hm, fun g hg => ?_⟩
  obtain ⟨p, hpm, hgp⟩ := List.mem_flatMap.mp hg
  obtain ⟨f, hf, hbase, hexp⟩ := mem_mergedPowers hpm
  obtain ⟨t, ht, hft⟩ := mem_factorsAll.mp hf
  refine Nat.le_trans ?_ ((baseDepth_factors_le hft).trans (h t ht))
  by_cases hnum : p.2.isNum
  · obtain ⟨q, hq⟩ := isNum_iff.mp hnum
    have hfnum : (asPower f).2.isNum := by
      rcases hexp with hexp | ⟨-, hexp⟩
      · exact hexp ▸ hnum
      · exact hexp
    have hdepth : p.1.depth = f.baseDepth := by
      rw [hbase]
      cases f with
      | pow b e =>
        obtain ⟨i, rfl⟩ := isNum_iff.mp hfnum
        rfl
      | _ => rfl
    rw [hq] at hgp
    rw [← hdepth]
    exact Nat.le_trans (baseDepth_le_maxBase hgp) (hp.shallow p.1 q)
  · rw [hp.kept p.1 p.2 (by simpa using hnum)] at hgp
    obtain rfl := List.mem_singleton.mp hgp
    have hexp : p.2 = (asPower f).2 := by
      rcases hexp with hexp | ⟨hexp, -⟩
      · exact hexp
      · exact absurd hexp hnum
    cases f with
    | pow b e => rw [hbase, hexp]; rfl
    | _ => exact absurd (hexp ▸ rfl : p.2.isNum = true) hnum

theorem ofFactors_bounds (c : Rat) (fs : List Term) :
    (ofFactors c fs).partsDepth ≤ maxBase fs ∧ (ofFactors c fs).depth ≤ maxBase fs + 4 := by
  have hone := one_le_maxBase fs
  unfold ofFactors
  split
  · exact ⟨hone, by rw [depth]; omega⟩
  · split
    · exact ⟨hone, by rw [depth]; omega⟩
    · rename_i f
      split
      · have hle : f.baseDepth ≤ maxBase [f] := baseDepth_le_maxBase (by simp)
        have := depth_le_baseDepth f
        exact ⟨(partsDepth_le_baseDepth f).trans hle, by omega⟩
      · exact ⟨Nat.le_refl _, Nat.le_refl _⟩
    · exact ⟨Nat.le_refl _, Nat.le_refl _⟩

/-- The bounds of a product from those of what is multiplied. -/
theorem productWith_bounds (hp : ShallowPower power) (hm : 1 ≤ m) (h : ∀ t ∈ ts, t.partsDepth ≤ m) :
    (productWith power ts).partsDepth ≤ m ∧ (productWith power ts).depth ≤ m + 4 := by
  rcases productWith_eq power ts with h0 | ⟨d, hd⟩
  · rw [h0]
    exact ⟨hm, by rw [depth]; omega⟩
  · have hle := maxBase_mergedFactors_le hp hm h
    have hbounds := ofFactors_bounds d (mergedFactors power ts)
    rw [hd]
    omega

/-! ## Powers -/

theorem coefficientPower_partsDepth (c e : Rat) : (coefficientPower c e).partsDepth = 1 := by
  unfold coefficientPower
  split <;> rfl

/-- The bounds of a power that is spread over a product, from those of the powers of the factors. -/
theorem spreadPowers_bounds {q : Rat} (c : Rat) (hp : ShallowPower power) (hm : 1 ≤ m)
    (h : ∀ f ∈ fs, (power f (.num q)).partsDepth ≤ m) :
    (productWith power (spreadPowers power c q fs)).partsDepth ≤ m ∧
      (productWith power (spreadPowers power c q fs)).depth ≤ m + 4 := by
  refine productWith_bounds hp hm fun t ht => ?_
  rcases List.mem_cons.mp ht with rfl | ht
  · rw [coefficientPower_partsDepth]
    exact hm
  · obtain ⟨f, hf, rfl⟩ := List.mem_map.mp ht
    exact h f hf

/-- The factors of a power have bases no deeper than the base. -/
theorem shallowPower_powerWithin : ∀ n, ShallowPower (powerWithin n)
  | 0 => {
      kept := fun _ _ _ => rfl
      shallow := fun b q => by
        have := one_le_depth b
        change max b.depth 1 ≤ b.depth
        omega }
  | n + 1 => {
      kept := fun b e he => powerWith_of_not_isNum (powerWithin n) b he
      shallow := by
        have ih : ShallowPower (powerWithin n) := shallowPower_powerWithin n
        intro b q
        have hstep := powerStep (powerWithin n) b q
        change (powerWith (powerWithin n) b (.num q)).partsDepth ≤ b.depth
        generalize powerWith (powerWithin n) b (.num q) = u at hstep ⊢
        have hone := one_le_depth b
        cases hstep with
        | zero => exact hone
        | one => exact partsDepth_le_depth b
        | exact => exact hone
        | @nested b i _ he =>
          have := ih.shallow b (i * q)
          rw [depth]
          omega
        | @spread c _ fs he =>
          refine (spreadPowers_bounds c ih hone fun f hf => ?_).1
          have h1 := ih.shallow f q
          have h2 := depth_le_baseDepth f
          have h3 := baseDepth_le_maxBase hf
          rw [depth]
          omega
        | kept =>
          change max b.depth 1 ≤ b.depth
          omega }

/-- A power that is spread over a product has the bounds of the product. -/
theorem spread_bounds {q : Rat} (c : Rat)
    (h : ∀ f ∈ fs, (powerWithin n f (.num q)).partsDepth ≤ f.partsDepth) :
    let u := productWith (powerWithin n) (spreadPowers (powerWithin n) c q fs)
    u.partsDepth ≤ maxBase fs ∧ u.depth ≤ maxBase fs + 4 :=
  spreadPowers_bounds c (shallowPower_powerWithin n) (one_le_maxBase fs) fun f hf =>
    (h f hf).trans ((partsDepth_le_baseDepth f).trans (baseDepth_le_maxBase hf))

/-- An integer power keeps the bound of the factors. -/
theorem partsDepth_powerWithin_le {q : Rat} (hq : q.den = 1) :
    ∀ (n : Nat) (b : Term), b.weight ≤ n → (powerWithin n b (.num q)).partsDepth ≤ b.partsDepth
  | 0, b, hn => absurd (Nat.le_trans (one_le_weight b) hn) (by omega)
  | n + 1, b, hn => by
      have hstep := powerStep (powerWithin n) b q
      change (powerWith (powerWithin n) b (.num q)).partsDepth ≤ b.partsDepth
      generalize powerWith (powerWithin n) b (.num q) = u at hstep ⊢
      cases hstep with
      | zero => exact one_le_partsDepth b
      | one => exact Nat.le_refl _
      | exact => exact one_le_partsDepth _
      | @nested b i _ he =>
        exact Nat.le_trans ((shallowPower_powerWithin n).shallow b (i * q)) (Nat.le_max_left _ _)
      | @spread c _ fs he =>
        refine (spread_bounds c fun f hf => ?_).1
        have hw := weight_factor_lt hf c
        exact partsDepth_powerWithin_le hq n f (by omega)
      | kept h =>
        have hb' := h hq
        change max b.depth 1 ≤ b.partsDepth
        have hone := one_le_partsDepth b
        cases b with
        | num a => exact hone
        | mul c fs => cases hb'
        | pow b e =>
          cases e with
          | num i => cases hb'
          | _ => exact Nat.le_refl _
        | _ => exact Nat.le_refl _

/-- A power by a number is at most three levels deeper than its base, and two if the exponent is not
negative. -/
theorem depth_powerWithin_le : ∀ (n : Nat) (b : Term) (q : Rat), b.weight ≤ n →
    (powerWithin n b (.num q)).depth ≤ b.depth + if q < 0 then 3 else 2
  | 0, b, _, hn => absurd (Nat.le_trans (one_le_weight b) hn) (by omega)
  | n + 1, b, q, hn => by
      have hstep := powerStep (powerWithin n) b q
      change (powerWith (powerWithin n) b (.num q)).depth ≤ _
      generalize powerWith (powerWithin n) b (.num q) = u at hstep ⊢
      have hone := one_le_depth b
      have htwo : 2 ≤ (if q < 0 then 3 else 2) := by split <;> omega
      cases hstep with
      | zero =>
        rw [depth]
        omega
      | one => omega
      | exact =>
        rw [depth]
        omega
      | @nested b i _ he =>
        have hw : b.weight ≤ n := by
          rw [weight] at hn
          omega
        have hle := depth_powerWithin_le n b (i * q) hw
        have hthree : (if i * q < 0 then 3 else 2) ≤ 3 := by split <;> omega
        have hi : 2 ≤ (if i < 0 then 3 else 2) := by split <;> omega
        rw [depth]
        omega
      | @spread c _ fs he =>
        have hle := (spread_bounds c fun f (hf : f ∈ fs) => by
          have hw := weight_factor_lt hf c
          exact partsDepth_powerWithin_le he n f (by omega)).2
        rw [depth]
        exact Nat.le_trans hle (Nat.le_add_right _ _)
      | kept => rw [depth]

end Bounds

theorem depth_power_le (b : Term) (q : Rat) :
    (power b (.num q)).depth ≤ b.depth + if q < 0 then 3 else 2 :=
  depth_powerWithin_le b.weight b q (Nat.le_refl _)

/-! ## Terms and factors as they are set -/

theorem numbersLast_perm (ts : List Term) : (numbersLast ts).Perm ts := by
  have hperm := List.filter_append_perm (fun t => !isNum t) ts
  simpa [numbersLast] using hperm

theorem numerators_perm (fs : List Term) :
    (numerators fs).Perm (fs.filter fun f => (denominator? f).isNone) :=
  List.filter_append_perm isConst _

theorem mem_numerators : f ∈ numerators fs ↔ f ∈ fs ∧ denominator? f = none := by
  rw [(numerators_perm fs).mem_iff, List.mem_filter, Option.isNone_iff_eq_none]

theorem mem_denominators : u ∈ denominators fs ↔ ∃ f ∈ fs, denominator? f = some u :=
  List.mem_filterMap

theorem denominator?_eq_some :
    denominator? f = some u ↔ ∃ b e, f = .pow b (.num e) ∧ e < 0 ∧ u = power b (.num (-e)) := by
  constructor
  · intro h
    unfold denominator? at h
    split at h
    · rename_i b e
      split at h
      · rename_i he
        exact ⟨b, e, rfl, he, (Option.some.inj h).symm⟩
      · cases h
    · cases h
  · rintro ⟨b, e, rfl, he, rfl⟩
    exact if_pos he

/-! ## What a layout goes into -/

theorem depth_factor_lt (h : f ∈ fs) (c : Rat) : f.depth < (mul c fs).depth := by
  have h1 := depth_le_baseDepth f
  have h2 := baseDepth_le_maxBase h
  rw [depth]
  omega

theorem depth_base_lt (b e : Term) : b.depth < (pow b e).depth := by
  cases e with
  | num q =>
    rw [depth]
    split <;> omega
  | _ => exact Nat.lt_succ_of_le (Nat.le_max_left _ _)

theorem depth_exponent_lt (b e : Term) : e.depth < (pow b e).depth := by
  have hone := one_le_depth b
  cases e with
  | num q =>
    rw [depth, depth]
    split <;> omega
  | _ => exact Nat.lt_succ_of_le (Nat.le_max_right _ _)

/-- What a power turns into below the bar is less deep. -/
theorem depth_denominator_lt (h : denominator? f = some u) : u.depth < f.depth := by
  obtain ⟨b, e, rfl, he, rfl⟩ := denominator?_eq_some.mp h
  have hle := depth_power_le b (-e)
  rw [if_neg (by simpa using he.le)] at hle
  rw [depth, if_pos he]
  omega

/-- Negating a subtracted term makes it no deeper. -/
theorem depth_negated_le (h : t.isSubtracted) : (negated t).depth ≤ t.depth := by
  have hp : ShallowPower power :=
    ⟨fun b e he => (shallowPower_powerWithin b.weight).kept b e he,
      fun b q => (shallowPower_powerWithin b.weight).shallow b q⟩
  cases t with
  | num q =>
    -- no factor is left, so the negation is a number
    rcases productWith_eq power [.num (-1), .num q] with h0 | ⟨d, hd⟩
    · rw [negated, product, h0]
      exact Nat.le_refl 1
    · have hnum : ofFactors d (mergedFactors power [.num (-1), .num q]) = .num d := by
        change ofFactors d [] = .num d
        unfold ofFactors
        split
        · rename_i h0
          rw [h0]
        · rfl
      rw [negated, product, hd, hnum]
      exact Nat.le_refl 1
  | mul c fs =>
    have hone := one_le_maxBase fs
    refine (productWith_bounds hp hone fun t ht => ?_).2
    rcases List.mem_cons.mp ht with rfl | ht
    · exact hone
    · rw [List.mem_singleton.mp ht]
      exact Nat.le_refl _
  | _ => cases h

/-- Laying the first term out goes into the second: a part of it, the negation of an addend that is
subtracted, or what a power turns into below the bar. -/
inductive LaysOut : Term → Term → Prop where
  | argument {f : Builtin} {ts : List Term} {u : Term} (h : u ∈ ts) : LaysOut (.func f ts) u
  | applied {x : String} {ts : List Term} {u : Term} (h : u ∈ ts) : LaysOut (.apply x ts) u
  | addend {ts : List Term} {u : Term} (h : u ∈ ts) : LaysOut (.add ts) u
  | subtracted {ts : List Term} {u : Term} (h : u ∈ ts) (hsub : u.isSubtracted = true) :
    LaysOut (.add ts) (negated u)
  | factor {c : Rat} {fs : List Term} {f : Term} (h : f ∈ fs) : LaysOut (.mul c fs) f
  | divisor {c : Rat} {fs : List Term} {f u : Term} (h : f ∈ fs) (hu : denominator? f = some u) :
    LaysOut (.mul c fs) u
  | base (b e : Term) : LaysOut (.pow b e) b
  | exponent (b e : Term) : LaysOut (.pow b e) e
  | inverse {b e u : Term} (hu : denominator? (.pow b e) = some u) : LaysOut (.pow b e) u

theorem LaysOut.depth_lt (h : LaysOut t u) : u.depth < t.depth := by
  cases h with
  | argument h | applied h | addend h => exact Nat.lt_succ_of_le (depth_le_maxDepth h)
  | subtracted h hsub =>
    exact Nat.lt_succ_of_le ((depth_negated_le hsub).trans (depth_le_maxDepth h))
  | factor h => exact depth_factor_lt h _
  | divisor h hu => exact (depth_denominator_lt hu).trans (depth_factor_lt h _)
  | base => exact depth_base_lt _ _
  | exponent => exact depth_exponent_lt _ _
  | inverse hu => exact depth_denominator_lt hu

theorem LaysOut.of_mem_denominators {c : Rat} (h : u ∈ denominators fs) : LaysOut (.mul c fs) u :=
  let ⟨_, hf, hu⟩ := mem_denominators.mp h
  .divisor hf hu

/-! ## The size -/

mutual

theorem depth_le_size : ∀ t : Term, t.depth ≤ 5 * t.size
  | .num _ | .const _ | .var _ => by simp [depth, size]
  | .func _ ts | .apply _ ts | .add ts => by
      have := maxDepth_le_size ts
      simp only [depth, size]
      omega
  | .mul _ fs => by
      have h1 := maxBase_le_maxDepth fs
      have h2 := maxDepth_le_size fs
      simp only [depth, size]
      omega
  | .pow b e => by
      have hb := depth_le_size b
      have he := depth_le_size e
      have hb1 := one_le_depth b
      cases e with
      | num e =>
        simp only [depth, size]
        split <;> omega
      | _ =>
        simp only [depth, size] at he ⊢
        omega

theorem maxDepth_le_size : ∀ ts : List Term, maxDepth ts ≤ 5 * sizeAll ts
  | [] => by simp [maxDepth]
  | t :: ts => by
      have h1 := depth_le_size t
      have h2 := maxDepth_le_size ts
      simp only [maxDepth, sizeAll]
      omega

end

/-! ## The recursion of layouts -/

/-- One step of a layout, given how the terms that it goes into are laid out. -/
def layoutWith (lay : Term → Layout) (t : Term) : Layout :=
  match t with
  | .num q => .number q
  | .const c => .constant c
  | .var x => .name x
  | .func f args => .builtin f (args.map lay)
  | .apply x args => .apply x (args.map lay)
  | .add ts =>
    match numbersLast ts with
    | [] => .sum []
    | first :: rest =>
      .sum ((false, lay first) :: rest.map fun u =>
        if u.isSubtracted then (true, lay (negated u)) else (false, lay u))
  | .mul c fs =>
    .product (c < 0) c.num.natAbs c.den ((numerators fs).map lay) ((denominators fs).map lay)
  | .pow b e =>
    if e.isHalf then .sqrt (lay b)
    else
      match denominator? t with
      | some u => .reciprocal (lay u)
      | none => .power (lay b) (lay e)

theorem layoutWithin_succ (n : Nat) (t : Term) :
    layoutWithin (n + 1) t = layoutWith (layoutWithin n) t := by
  cases t <;> rfl

/-- One step of a layout depends on the layouts of the terms that it goes into alone. -/
theorem layoutWith_congr {lay lay' : Term → Layout} (h : ∀ u, LaysOut t u → lay u = lay' u) :
    layoutWith lay t = layoutWith lay' t := by
  cases t with
  | num q => rfl
  | const c => rfl
  | var x => rfl
  | func f ts =>
    have hts : ts.map lay = ts.map lay' := List.map_congr_left fun u hu => h u (.argument hu)
    simp only [layoutWith, hts]
  | apply x ts =>
    have hts : ts.map lay = ts.map lay' := List.map_congr_left fun u hu => h u (.applied hu)
    simp only [layoutWith, hts]
  | add ts =>
    have hmem : ∀ u ∈ numbersLast ts, u ∈ ts := fun u hu => (numbersLast_perm ts).mem_iff.mp hu
    unfold layoutWith
    dsimp only
    split
    · rfl
    · rename_i first rest hset
      rw [hset] at hmem
      rw [h first (.addend (hmem first List.mem_cons_self))]
      refine congrArg (fun l => Layout.sum (_ :: l)) (List.map_congr_left fun u hu => ?_)
      have hu := hmem u (List.mem_cons_of_mem _ hu)
      split
      · rename_i hsub
        rw [h _ (.subtracted hu hsub)]
      · rw [h u (.addend hu)]
  | mul c fs =>
    have habove : (numerators fs).map lay = (numerators fs).map lay' :=
      List.map_congr_left fun f hf => h f (.factor (mem_numerators.mp hf).1)
    have hbelow : (denominators fs).map lay = (denominators fs).map lay' :=
      List.map_congr_left fun u hu => h u (.of_mem_denominators hu)
    simp only [layoutWith, habove, hbelow]
  | pow b e =>
    unfold layoutWith
    dsimp only
    rw [h b (.base b e), h e (.exponent b e)]
    split
    · rfl
    · split
      · rename_i u hd
        rw [h u (.inverse hd)]
      · rfl

theorem layoutWithin_of_depth_le : ∀ (n : Nat) (t : Term), t.depth ≤ n →
    layoutWithin (n + 1) t = layoutWithin n t
  | 0, t, hn => absurd ((one_le_depth t).trans hn) (by omega)
  | n + 1, t, hn => by
    rw [layoutWithin_succ, layoutWithin_succ n]
    exact layoutWith_congr fun u hu => layoutWithin_of_depth_le n u (by have := hu.depth_lt; omega)

/-- More levels than the depth make no difference. -/
theorem layoutWithin_of_le (h : t.depth ≤ n) : layoutWithin n t = layoutWithin t.depth t := by
  induction h with
  | refl => rfl
  | step h ih => rw [layoutWithin_of_depth_le _ t h, ih]

/-- The layout of a term goes deep enough. -/
theorem depth_le_layout (t : Term) : t.depth ≤ 16 * t.size := by
  have := depth_le_size t
  omega

theorem layoutWithin_eq_layout (h : t.depth ≤ n) : layoutWithin n t = layout t :=
  (layoutWithin_of_le h).trans (layoutWithin_of_le (depth_le_layout t)).symm

/-- A term is laid out from the layouts of less deep terms, without a bound on the levels. -/
theorem layout_eq (t : Term) : layout t = layoutWith layout t := by
  rw [← layoutWithin_eq_layout (Nat.le_succ t.depth), layoutWithin_succ]
  exact layoutWith_congr fun u hu => layoutWithin_eq_layout hu.depth_lt.le

end Formulary.Term
