import Formulary.Term.Canonical

/-!
The form of canonical terms.

`Term.Canonical` is what the canonicalising constructors guarantee: a sum has at least two terms, a
product at least one factor and another coefficient than one if it has no other, and no factor is a
number or itself a product. The names are held to two conditions that the user of the predicate chooses,
one for parameters and one for entries.

## How the proof goes

The constructors look into sums, products and powers only. So that the form is kept is shown once, by
`Formed.sum`, `Formed.product` and `Formed.power`, for any condition on the other terms, the atoms. A
canonical term is one that is formed over canonical atoms (`canonical_iff_formed`), and this is all that is
needed of the names.

What a constructor puts together are pieces of what it is given, so there is first a lemma for each list
that it goes over: where a merged power comes from (`mem_mergedPowers`), where a like term comes from
(`mem_likeTerms`), and which factors a product ends up with (`productWith_eq`). Both lists are made by a
fold; the induction carries the statement for the terms that have been passed.

Powers are the one place where constructors call each other: a power of a product is a product of powers,
and a product merges powers. `PowerStep` says what one step can give, with the powers within it left open,
and `Formed.powerWith` that the form is kept if those within keep it. The induction over steps then holds
for any number of them (`Formed.powerWithin`), so that nothing here depends on what bounds them.

## Why a coefficient is split off as it is

`scaled` puts a coefficient in front of a term and drops the one that a product has. That gives the right
form only if the term has none, which is what `IsUnscaled` says; and `splitCoefficient` leaves such a term,
unless a product is the only factor of another one. Canonical terms have no such factors.
-/

namespace Formulary.Term

/-- The term can stand as a factor: it is neither a number nor a product. -/
def isFactor : Term → Bool
  | .num _ | .mul .. => false
  | _ => true

/-- The form of terms that are built by the canonicalising constructors. -/
inductive Canonical (isParameter isEntry : String → Prop) : Term → Prop
  | num (q : Rat) : Canonical isParameter isEntry (.num q)
  | const (c : Constant) : Canonical isParameter isEntry (.const c)
  | var {x : String} (hx : isParameter x) : Canonical isParameter isEntry (.var x)
  | func (f : Builtin) {args : List Term} (h : ∀ t ∈ args, Canonical isParameter isEntry t) :
    Canonical isParameter isEntry (.func f args)
  | apply {name : String} {args : List Term} (hn : isEntry name)
    (h : ∀ t ∈ args, Canonical isParameter isEntry t) :
    Canonical isParameter isEntry (.apply name args)
  | add {ts : List Term} (hlen : 2 ≤ ts.length) (h : ∀ t ∈ ts, Canonical isParameter isEntry t) :
    Canonical isParameter isEntry (.add ts)
  | mul (c : Rat) {fs : List Term} (hne : fs ≠ []) (hf : ∀ f ∈ fs, f.isFactor)
    (h : ∀ f ∈ fs, Canonical isParameter isEntry f) (hone : c = 1 → fs.length ≠ 1) :
    Canonical isParameter isEntry (.mul c fs)
  | pow {b e : Term} (hb : Canonical isParameter isEntry b)
    (he : Canonical isParameter isEntry e) : Canonical isParameter isEntry (.pow b e)

/-! ## Merging -/

/-- Every merged power comes from a factor with the same base; its exponent is that of the factor,
or both exponents are numbers. -/
theorem mem_mergePower {b e : Term} {p : Term × Term} : ∀ {l : List (Term × Term)},
    p ∈ mergePower b e l →
      p = (b, e) ∨ p ∈ l ∨ (p.1 = b ∧ p.2.isNum ∧ e.isNum)
  | [], h => by
      simp only [mergePower, List.mem_singleton] at h
      exact .inl h
  | (b', e') :: r, h => by
      unfold mergePower at h
      split at h
      · rename_i x y
        split at h
        · rename_i hb
          rcases List.mem_cons.1 h with rfl | h
          · exact .inr (.inr ⟨hb, rfl, rfl⟩)
          · exact .inr (.inl (List.mem_cons_of_mem _ h))
        · rcases List.mem_cons.1 h with rfl | h
          · exact .inr (.inl List.mem_cons_self)
          · exact (mem_mergePower h).imp_right (Or.imp_left (List.mem_cons_of_mem _))
      · rcases List.mem_cons.1 h with rfl | h
        · exact .inr (.inl List.mem_cons_self)
        · exact (mem_mergePower h).imp_right (Or.imp_left (List.mem_cons_of_mem _))

theorem mem_mergedPowers {fs : List Term} {p : Term × Term} (h : p ∈ mergedPowers fs) :
    ∃ f ∈ fs, p.1 = (asPower f).1 ∧
      (p.2 = (asPower f).2 ∨ (p.2.isNum ∧ (asPower f).2.isNum)) := by
  -- the accumulator satisfies the statement for the factors passed so far
  suffices ∀ (fs passed : List Term) (acc : List (Term × Term)),
      (∀ p ∈ acc, ∃ f ∈ passed, p.1 = (asPower f).1 ∧
        (p.2 = (asPower f).2 ∨ (p.2.isNum ∧ (asPower f).2.isNum))) →
      ∀ p ∈ fs.foldl (fun acc f => mergePower (asPower f).1 (asPower f).2 acc) acc,
        ∃ f ∈ passed ++ fs, p.1 = (asPower f).1 ∧
          (p.2 = (asPower f).2 ∨ (p.2.isNum ∧ (asPower f).2.isNum)) by
    exact this fs [] [] (by simp) p h
  intro fs
  induction fs with
  | nil =>
    intro passed acc hacc p hp
    simpa using hacc p hp
  | cons f fs ih =>
    intro passed acc hacc p hp
    rw [← List.singleton_append, ← List.append_assoc]
    refine ih (passed ++ [f]) _ ?_ p hp
    intro q hq
    rcases mem_mergePower hq with rfl | hq | ⟨hb, hnum, hnum'⟩
    · exact ⟨f, by simp, rfl, .inl rfl⟩
    · obtain ⟨g, hg, hrest⟩ := hacc q hq
      exact ⟨g, List.mem_append_left _ hg, hrest⟩
    · exact ⟨f, by simp, hb, .inr ⟨hnum, hnum'⟩⟩

/-- What a term adds to the factors of the product that it comes into. -/
def parts : Term → List Term
  | .num _ => []
  | .mul _ fs => fs
  | t => [t]

theorem parts_of_isFactor {t : Term} (h : t.isFactor) : t.parts = [t] := by
  cases t <;> simp [isFactor] at h <;> rfl

theorem joinFactor_snd (acc : Rat × List Term) (t : Term) :
    (joinFactor acc t).2 = acc.2 ++ t.parts := by
  cases t <;> simp [joinFactor, parts]

theorem foldl_joinFactor_snd (power : Term → Term → Term) (l : List (Term × Term)) :
    ∀ acc : Rat × List Term,
      (l.foldl (fun acc p => joinFactor acc (power p.1 p.2)) acc).2 =
        acc.2 ++ l.flatMap fun p => (power p.1 p.2).parts := by
  induction l with
  | nil => intro acc; simp
  | cons p r ih =>
    intro acc
    rw [List.foldl_cons, ih, joinFactor_snd, List.flatMap_cons, List.append_assoc]

/-- The factors that a product ends up with: those of the powers it is merged into. -/
def mergedFactors (power : Term → Term → Term) (ts : List Term) : List Term :=
  (mergedPowers (factorsAll ts)).flatMap fun p => (power p.1 p.2).parts

theorem productWith_eq (power : Term → Term → Term) (ts : List Term) :
    productWith power ts = .num 0 ∨ ∃ d, productWith power ts = ofFactors d (mergedFactors power ts) := by
  unfold productWith
  dsimp only
  split
  · exact .inl rfl
  · refine .inr ⟨_, congrArg (ofFactors _) ?_⟩
    simpa [mergedFactors] using foldl_joinFactor_snd power (mergedPowers (factorsAll ts)) (_, [])

/-! ## Collecting -/

theorem mem_collect {c : Rat} {t : Term} {p : Rat × Term} : ∀ {l : List (Rat × Term)},
    p ∈ collect c t l → p.2 = t ∨ ∃ q ∈ l, p.2 = q.2
  | [], h => by
      simp only [collect, List.mem_singleton] at h
      exact .inl (by rw [h])
  | (d, u) :: r, h => by
      unfold collect at h
      split at h
      · rename_i hu
        rcases List.mem_cons.1 h with rfl | h
        · exact .inl hu
        · exact .inr ⟨p, List.mem_cons_of_mem _ h, rfl⟩
      · rcases List.mem_cons.1 h with rfl | h
        · exact .inr ⟨_, List.mem_cons_self, rfl⟩
        · refine (mem_collect h).imp_right ?_
          rintro ⟨q, hq, hpq⟩
          exact ⟨q, List.mem_cons_of_mem _ hq, hpq⟩

/-- Every like term is what is left of a term that is no number. -/
theorem mem_likeTerms {ts : List Term} {p : Rat × Term} (h : p ∈ likeTerms ts) :
    ∃ t ∈ ts, t.isNum = false ∧ p.2 = (splitCoefficient t).2 := by
  suffices ∀ (us : List Term) (acc : List (Rat × Term)),
      (∀ u ∈ us, u ∈ ts ∧ u.isNum = false) →
      (∀ q ∈ acc, ∃ t ∈ ts, t.isNum = false ∧ q.2 = (splitCoefficient t).2) →
      ∀ q ∈ us.foldl (fun acc t => collect (splitCoefficient t).1 (splitCoefficient t).2 acc) acc,
        ∃ t ∈ ts, t.isNum = false ∧ q.2 = (splitCoefficient t).2 by
    refine this _ [] ?_ (by simp) p h
    intro u hu
    simpa using List.mem_filter.1 hu
  intro us
  induction us with
  | nil => exact fun acc _ hacc => hacc
  | cons u us ih =>
    intro acc hus hacc
    refine ih _ (fun w hw => hus w (List.mem_cons_of_mem _ hw)) fun q hq => ?_
    rcases mem_collect hq with hq | ⟨q', hq', hqq'⟩
    · exact ⟨u, (hus u List.mem_cons_self).1, (hus u List.mem_cons_self).2, hq⟩
    · obtain ⟨t, ht, hnum, hq'⟩ := hacc q' hq'
      exact ⟨t, ht, hnum, hqq'.trans hq'⟩

/-- The coefficient of the term is split off: it is a factor, or a product with coefficient one. -/
def IsUnscaled (t : Term) : Prop := t.isFactor ∨ ∃ fs, t = .mul 1 fs

/-! ## Powers -/

/-- An integer power goes into the term: it is a product, or a power by a number. -/
def absorbsPowers : Term → Bool
  | .mul .. | .pow _ (.num _) => true
  | _ => false

/-- What one step of a power by a number can be, given how the powers within it are formed. -/
inductive PowerStep (power : Term → Term → Term) : Term → Rat → Term → Prop
  | zero (b : Term) : PowerStep power b 0 (.num 1)
  | one (b : Term) : PowerStep power b 1 b
  | exact {a e q : Rat} (h : numberPower? a e = some q) : PowerStep power (.num a) e (.num q)
  | nested {b : Term} {i e : Rat} (he : e.den = 1) :
    PowerStep power (.pow b (.num i)) e (power b (.num (i * e)))
  | spread {c e : Rat} {fs : List Term} (he : e.den = 1) :
    PowerStep power (.mul c fs) e
      (productWith power (coefficientPower c e :: fs.map fun f => power f (.num e)))
  | kept {b : Term} {e : Rat} (h : e.den = 1 → b.absorbsPowers = false) :
    PowerStep power b e (.pow b (.num e))

theorem powerStep (power : Term → Term → Term) (b : Term) (e : Rat) :
    PowerStep power b e (powerWith power b (.num e)) := by
  unfold powerWith
  dsimp only
  split
  · rename_i h0
    exact h0 ▸ .zero b
  split
  · rename_i h1
    exact h1 ▸ .one b
  split
  · split
    · rename_i hq
      exact .exact hq
    · exact .kept fun _ => rfl
  · split
    · rename_i he
      exact .nested he
    · rename_i he
      exact .kept fun h => absurd h he
  · split
    · rename_i he
      exact .spread he
    · rename_i he
      exact .kept fun h => absurd h he
  · rename_i hpow hmul
    refine .kept fun _ => ?_
    cases b with
    | mul c fs => exact absurd rfl (hmul c fs)
    | pow b i =>
      cases i with
      | num i => exact absurd rfl (hpow b i)
      | _ => rfl
    | _ => rfl

theorem powerWith_of_not_isNum (power : Term → Term → Term) (b : Term) {e : Term}
    (he : e.isNum = false) : powerWith power b e = .pow b e := by
  cases e with
  | num q => cases he
  | _ => rfl

/-! ## Closure -/

/-- The term is neither a number nor a sum, a product or a power. -/
def isAtom : Term → Bool
  | .const _ | .var _ | .func .. | .apply .. => true
  | _ => false

/-- Numbers, and sums, products and powers in their form, over atoms that meet a condition. -/
inductive Formed (A : Term → Prop) : Term → Prop
  | num (q : Rat) : Formed A (.num q)
  | atom {t : Term} (ht : t.isAtom) (h : A t) : Formed A t
  | add {ts : List Term} (hlen : 2 ≤ ts.length) (h : ∀ t ∈ ts, Formed A t) : Formed A (.add ts)
  | mul (c : Rat) {fs : List Term} (hne : fs ≠ []) (hf : ∀ f ∈ fs, f.isFactor)
    (h : ∀ f ∈ fs, Formed A f) (hone : c = 1 → fs.length ≠ 1) : Formed A (.mul c fs)
  | pow {b e : Term} (hb : Formed A b) (he : Formed A e) : Formed A (.pow b e)

section Closure

variable {A : Term → Prop}

theorem Formed.mono {A' : Term → Prop} {t : Term} (h : Formed A t) (hA : ∀ u, A u → A' u) : Formed A' t := by
  induction h with
  | num q => exact .num q
  | atom ht h => exact .atom ht (hA _ h)
  | add hlen _ ih => exact .add hlen ih
  | mul c hne hf _ hone ih => exact .mul c hne hf ih hone
  | pow _ _ ihb ihe => exact .pow ihb ihe

theorem Formed.isFactor_parts {t g : Term} (ht : Formed A t) (hg : g ∈ t.parts) :
    g.isFactor ∧ Formed A g := by
  by_cases hf : t.isFactor
  · rw [parts_of_isFactor hf, List.mem_singleton] at hg
    subst hg
    exact ⟨hf, ht⟩
  · cases t with
    | num q => simp [parts] at hg
    | mul c fs =>
      cases ht with
      | atom ht => cases ht
      | mul _ _ hfs h => exact ⟨hfs g hg, h g hg⟩
    | _ => exact absurd rfl hf

/-- A product of factors in their form is in its form, whatever the coefficient. -/
theorem formed_ofFactors {fs : List Term} (c : Rat)
    (h : ∀ f ∈ fs, f.isFactor ∧ Formed A f) : Formed A (ofFactors c fs) := by
  unfold ofFactors
  split
  · exact .num 0
  · split
    · exact .num c
    · rename_i f
      split
      · exact (h f List.mem_cons_self).2
      · rename_i hc
        exact .mul c (by simp) (fun g hg => (h g hg).1) (fun g hg => (h g hg).2) (absurd · hc)
    · rename_i hne hsingle
      refine .mul c (fun hnil => hne hnil) (fun g hg => (h g hg).1) (fun g hg => (h g hg).2) ?_
      intro _ hlen
      obtain ⟨f, hf⟩ := List.length_eq_one_iff.mp hlen
      exact hsingle f hf

theorem factors_of_isFactor {t : Term} (h : t.isFactor) : t.factors = [t] := by
  cases t with
  | num q => cases h
  | mul c fs => cases h
  | _ => rfl

theorem Formed.of_mem_factors {t f : Term} (h : Formed A t) (ht : t.isFactor)
    (hf : f ∈ t.factors) : f.isFactor ∧ Formed A f := by
  rw [factors_of_isFactor ht, List.mem_singleton] at hf
  subst hf
  exact ⟨ht, h⟩

mutual

theorem Formed.factors : ∀ {t : Term}, Formed A t →
    ∀ f ∈ t.factors, f.isFactor ∧ Formed A f
  | .num _, _, _, hf => absurd hf List.not_mem_nil
  | .mul _ _, .mul _ _ _ h _, f, hf => Formed.factorsAll h f hf
  | .const _, h, _, hf => h.of_mem_factors rfl hf
  | .var _, h, _, hf => h.of_mem_factors rfl hf
  | .func _ _, h, _, hf => h.of_mem_factors rfl hf
  | .apply _ _, h, _, hf => h.of_mem_factors rfl hf
  | .add _, h, _, hf => h.of_mem_factors rfl hf
  | .pow _ _, h, _, hf => h.of_mem_factors rfl hf

theorem Formed.factorsAll : ∀ {ts : List Term}, (∀ t ∈ ts, Formed A t) →
    ∀ f ∈ Term.factorsAll ts, f.isFactor ∧ Formed A f
  | [], _, _, hf => absurd hf List.not_mem_nil
  | t :: ts, h, f, hf => by
      rcases List.mem_append.1 hf with hf | hf
      · exact Formed.factors (h t List.mem_cons_self) f hf
      · exact Formed.factorsAll (fun u hu => h u (List.mem_cons_of_mem _ hu)) f hf

end

theorem Formed.asPower {f : Term} (h : Formed A f) :
    Formed A (asPower f).1 ∧ Formed A (asPower f).2 := by
  cases f with
  | pow b e =>
    cases h with
    | atom ht => cases ht
    | pow hb he => exact ⟨hb, he⟩
  | _ => exact ⟨h, .num 1⟩

theorem formed_of_isNum {t : Term} (h : t.isNum) : Formed A t := by
  cases t with
  | num q => exact .num q
  | _ => cases h

/-- Products are in their form if the powers that they are merged into are. -/
theorem Formed.productWith {power : Term → Term → Term}
    (hpower : ∀ b e, Formed A b → Formed A e → Formed A (power b e))
    {ts : List Term} (h : ∀ t ∈ ts, Formed A t) : Formed A (productWith power ts) := by
  rcases productWith_eq power ts with h0 | ⟨d, hd⟩
  · rw [h0]
    exact .num 0
  · rw [hd]
    refine formed_ofFactors d fun g hg => ?_
    obtain ⟨p, hp, hgp⟩ := List.mem_flatMap.1 hg
    obtain ⟨f, hf, hbase, hexp⟩ := mem_mergedPowers hp
    have hfc := ((Formed.factorsAll h f hf).2).asPower
    have hp2 : Formed A p.2 := by
      rcases hexp with hexp | ⟨hnum, _⟩
      · exact hexp ▸ hfc.2
      · exact formed_of_isNum hnum
    exact (hpower p.1 p.2 (hbase ▸ hfc.1) hp2).isFactor_parts hgp

theorem formed_coefficientPower (c e : Rat) : Formed A (coefficientPower c e) := by
  unfold coefficientPower
  split
  · exact .num _
  · exact .pow (.num c) (.num e)

/-- One step of a power keeps the form if the powers within it do. -/
theorem Formed.powerWith {power : Term → Term → Term}
    (hpower : ∀ b e, Formed A b → Formed A e → Formed A (power b e))
    {b e : Term} (hb : Formed A b) (he : Formed A e) :
    Formed A (powerWith power b e) := by
  by_cases hnum : e.isNum
  · obtain ⟨q, rfl⟩ : ∃ q, e = .num q := by
      cases e with
      | num q => exact ⟨q, rfl⟩
      | _ => cases hnum
    have hstep := powerStep power b q
    generalize Term.powerWith power b (.num q) = t at hstep ⊢
    cases hstep with
    | zero => exact .num 1
    | one => exact hb
    | exact => exact .num _
    | kept => exact .pow hb he
    | nested hq =>
      cases hb with
      | atom ht => cases ht
      | pow hb _ => exact hpower _ _ hb (.num _)
    | spread hq =>
      cases hb with
      | atom ht => cases ht
      | mul _ hne hf h =>
        refine Formed.productWith hpower fun t ht => ?_
        rcases List.mem_cons.1 ht with rfl | ht
        · exact formed_coefficientPower _ q
        · obtain ⟨f, hf, rfl⟩ := List.mem_map.1 ht
          exact hpower _ _ (h f hf) he
  · rw [powerWith_of_not_isNum power b (Bool.not_eq_true _ ▸ hnum)]
    exact .pow hb he

theorem Formed.powerWithin : ∀ (n : Nat) (b e : Term), Formed A b → Formed A e →
    Formed A (powerWithin n b e)
  | 0, _, _, hb, he => .pow hb he
  | n + 1, _, _, hb, he => Formed.powerWith (Formed.powerWithin n) hb he

theorem Formed.power {b e : Term} (hb : Formed A b) (he : Formed A e) :
    Formed A (power b e) := Formed.powerWithin _ b e hb he

theorem Formed.product {ts : List Term} (h : ∀ t ∈ ts, Formed A t) :
    Formed A (product ts) := Formed.productWith (fun _ _ => Formed.power) h

theorem Formed.negated {t : Term} (h : Formed A t) : Formed A t.negated :=
  Formed.product (by simpa using ⟨Formed.num (-1), h⟩)

theorem Formed.quotient {a b : Term} (ha : Formed A a) (hb : Formed A b) :
    Formed A (quotient a b) :=
  Formed.product (by simpa using ⟨ha, hb.power (.num (-1))⟩)

mutual

theorem Formed.summands : ∀ {t : Term}, Formed A t → ∀ u ∈ t.summands, Formed A u
  | .add _, .add _ h, u, hu => Formed.summandsAll h u hu
  | .num _, h, _, hu | .const _, h, _, hu | .var _, h, _, hu | .func _ _, h, _, hu
  | .apply _ _, h, _, hu | .mul _ _, h, _, hu | .pow _ _, h, _, hu => List.mem_singleton.1 hu ▸ h

theorem Formed.summandsAll : ∀ {ts : List Term}, (∀ t ∈ ts, Formed A t) →
    ∀ u ∈ Term.summandsAll ts, Formed A u
  | [], _, _, hu => absurd hu List.not_mem_nil
  | t :: ts, h, u, hu => by
      rcases List.mem_append.1 hu with hu | hu
      · exact Formed.summands (h t List.mem_cons_self) u hu
      · exact Formed.summandsAll (fun w hw => h w (List.mem_cons_of_mem _ hw)) u hu

end

theorem Formed.splitCoefficient {t : Term} (h : Formed A t) (hnum : t.isNum = false) :
    (splitCoefficient t).2.IsUnscaled ∧ Formed A (splitCoefficient t).2 := by
  cases t with
  | num q => cases hnum
  | mul c fs =>
    cases h with
    | atom ht => cases ht
    | mul _ hne hf h =>
    match fs, hne, hf, h with
    | [f], _, hf, h => exact ⟨.inl (hf f List.mem_cons_self), h f List.mem_cons_self⟩
    | _ :: _ :: _, hne, hf, h => exact ⟨.inr ⟨_, rfl⟩, .mul 1 hne hf h (by simp)⟩
  | _ => exact ⟨.inl rfl, h⟩

theorem Formed.scaled {t : Term} (c : Rat) (h : Formed A t) (ht : t.IsUnscaled) :
    Formed A (scaled c t) := by
  unfold Term.scaled
  split
  · exact h
  · rename_i hc
    split
    · cases h with
      | atom ht => cases ht
      | mul _ hne hf h => exact .mul c hne hf h (absurd · hc)
    · rename_i hmul
      have hfactor : t.isFactor := by
        rcases ht with ht | ⟨fs, rfl⟩
        · exact ht
        · exact absurd rfl (hmul 1 fs)
      exact .mul c (by simp) (by simpa using hfactor) (by simpa using h) (absurd · hc)

theorem formed_ofSummands {ts : List Term} (h : ∀ t ∈ ts, Formed A t) :
    Formed A (ofSummands ts) := by
  match ts with
  | [] => exact .num 0
  | [t] => exact h t List.mem_cons_self
  | t :: u :: r => exact .add (by simp) h

theorem Formed.sum {ts : List Term} (h : ∀ t ∈ ts, Formed A t) :
    Formed A (sum ts) := by
  refine formed_ofSummands fun u hu => ?_
  rcases List.mem_append.1 hu with hu | hu
  · obtain ⟨p, hp, rfl⟩ := List.mem_map.1 hu
    obtain ⟨t, ht, hnum, hp2⟩ := mem_likeTerms (List.mem_filter.1 hp).1
    have hsplit := (Formed.summandsAll h t ht).splitCoefficient hnum
    exact Formed.scaled p.1 (hp2 ▸ hsplit.2) (hp2 ▸ hsplit.1)
  · split at hu
    · cases hu
    · exact List.mem_singleton.1 hu ▸ .num _

theorem Formed.difference {a b : Term} (ha : Formed A a) (hb : Formed A b) :
    Formed A (difference a b) :=
  Formed.sum (by simpa using ⟨ha, hb.negated⟩)

end Closure

/-! ## Canonical terms -/

section Canonical

variable {P Q : String → Prop}

/-- A canonical term is formed from canonical atoms. -/
theorem canonical_iff_formed {t : Term} : Canonical P Q t ↔ Formed (Canonical P Q) t := by
  constructor
  · intro h
    induction h with
    | num q => exact .num q
    | const c => exact .atom rfl (.const c)
    | var hx => exact .atom rfl (.var hx)
    | func f h => exact .atom rfl (.func f h)
    | apply hn h => exact .atom rfl (.apply hn h)
    | add hlen _ ih => exact .add hlen ih
    | mul c hne hf _ hone ih => exact .mul c hne hf ih hone
    | pow _ _ ihb ihe => exact .pow ihb ihe
  · intro h
    induction h with
    | num q => exact .num q
    | atom _ h => exact h
    | add hlen _ ih => exact .add hlen ih
    | mul c hne hf _ hone ih => exact .mul c hne hf ih hone
    | pow _ _ ihb ihe => exact .pow ihb ihe

theorem Canonical.formed {t : Term} (h : Canonical P Q t) : Formed (Canonical P Q) t :=
  canonical_iff_formed.mp h

theorem Canonical.formedAll {ts : List Term} (h : ∀ t ∈ ts, Canonical P Q t) :
    ∀ t ∈ ts, Formed (Canonical P Q) t :=
  fun t ht => (h t ht).formed

theorem Formed.canonical {t : Term} (h : Formed (Canonical P Q) t) : Canonical P Q t :=
  canonical_iff_formed.mpr h

theorem Canonical.power {b e : Term} (hb : Canonical P Q b) (he : Canonical P Q e) :
    Canonical P Q (power b e) := (hb.formed.power he.formed).canonical

theorem Canonical.product {ts : List Term} (h : ∀ t ∈ ts, Canonical P Q t) :
    Canonical P Q (product ts) := (Formed.product (formedAll h)).canonical

theorem Canonical.negated {t : Term} (h : Canonical P Q t) : Canonical P Q t.negated :=
  h.formed.negated.canonical

theorem Canonical.quotient {a b : Term} (ha : Canonical P Q a) (hb : Canonical P Q b) :
    Canonical P Q (quotient a b) := (ha.formed.quotient hb.formed).canonical

theorem Canonical.summandsAll {ts : List Term} (h : ∀ t ∈ ts, Canonical P Q t) (u : Term)
    (hu : u ∈ Term.summandsAll ts) : Canonical P Q u :=
  (Formed.summandsAll (formedAll h) u hu).canonical

theorem Canonical.splitCoefficient {t : Term} (h : Canonical P Q t) (hnum : t.isNum = false) :
    (splitCoefficient t).2.IsUnscaled ∧ Canonical P Q (splitCoefficient t).2 :=
  (h.formed.splitCoefficient hnum).imp_right Formed.canonical

theorem Canonical.sum {ts : List Term} (h : ∀ t ∈ ts, Canonical P Q t) :
    Canonical P Q (sum ts) := (Formed.sum (formedAll h)).canonical

theorem Canonical.difference {a b : Term} (ha : Canonical P Q a) (hb : Canonical P Q b) :
    Canonical P Q (difference a b) := (ha.formed.difference hb.formed).canonical

/-- The terms that the canonicalising constructors build. -/
inductive Simplified (isParameter isEntry : String → Prop) : Term → Prop
  | num (q : Rat) : Simplified isParameter isEntry (.num q)
  | const (c : Constant) : Simplified isParameter isEntry (.const c)
  | var {x : String} (hx : isParameter x) : Simplified isParameter isEntry (.var x)
  | func (f : Builtin) {args : List Term} (h : ∀ t ∈ args, Simplified isParameter isEntry t) :
    Simplified isParameter isEntry (.func f args)
  | apply {name : String} {args : List Term} (hn : isEntry name)
    (h : ∀ t ∈ args, Simplified isParameter isEntry t) :
    Simplified isParameter isEntry (.apply name args)
  | sum {ts : List Term} (h : ∀ t ∈ ts, Simplified isParameter isEntry t) :
    Simplified isParameter isEntry (sum ts)
  | product {ts : List Term} (h : ∀ t ∈ ts, Simplified isParameter isEntry t) :
    Simplified isParameter isEntry (product ts)
  | power {b e : Term} (hb : Simplified isParameter isEntry b)
    (he : Simplified isParameter isEntry e) : Simplified isParameter isEntry (power b e)
  | negated {t : Term} (h : Simplified isParameter isEntry t) :
    Simplified isParameter isEntry (negated t)
  | difference {a b : Term} (ha : Simplified isParameter isEntry a)
    (hb : Simplified isParameter isEntry b) : Simplified isParameter isEntry (difference a b)
  | quotient {a b : Term} (ha : Simplified isParameter isEntry a)
    (hb : Simplified isParameter isEntry b) : Simplified isParameter isEntry (quotient a b)

theorem Simplified.canonical {t : Term} (h : Simplified P Q t) : Canonical P Q t := by
  induction h with
  | num q => exact .num q
  | const c => exact .const c
  | var hx => exact .var hx
  | func f _ ih => exact .func f ih
  | apply hn _ ih => exact .apply hn ih
  | sum _ ih => exact .sum ih
  | product _ ih => exact .product ih
  | power _ _ ihb ihe => exact ihb.power ihe
  | negated _ ih => exact ih.negated
  | difference _ _ iha ihb => exact iha.difference ihb
  | quotient _ _ iha ihb => exact iha.quotient ihb

/-! ## Names -/

theorem mem_varsInAll {t : Term} {x : String} {ts : List Term} (ht : t ∈ ts) (hx : x ∈ t.varsIn) :
    x ∈ varsInAll ts := by
  induction ts with
  | nil => cases ht
  | cons u ts ih =>
    rw [varsInAll, List.mem_append]
    rcases List.mem_cons.1 ht with rfl | ht
    · exact .inl hx
    · exact .inr (ih ht)

theorem mem_appliedInAll {t : Term} {x : String} {ts : List Term} (ht : t ∈ ts)
    (hx : x ∈ t.appliedIn) : x ∈ appliedInAll ts := by
  induction ts with
  | nil => cases ht
  | cons u ts ih =>
    rw [appliedInAll, List.mem_append]
    rcases List.mem_cons.1 ht with rfl | ht
    · exact .inl hx
    · exact .inr (ih ht)

/-- The names in a canonical term are held to whatever conditions they meet. -/
theorem Canonical.of_names {P' Q' : String → Prop} {t : Term} (h : Canonical P Q t)
    (hvars : ∀ x ∈ t.varsIn, P' x) (happ : ∀ x ∈ t.appliedIn, Q' x) : Canonical P' Q' t := by
  induction h with
  | num q => exact .num q
  | const c => exact .const c
  | var _ => exact .var (hvars _ (List.mem_singleton_self _))
  | func f _ ih =>
    exact .func f fun t ht => ih t ht (fun x hx => hvars x (mem_varsInAll ht hx))
      fun x hx => happ x (mem_appliedInAll ht hx)
  | apply _ _ ih =>
    exact .apply (happ _ List.mem_cons_self) fun t ht =>
      ih t ht (fun x hx => hvars x (mem_varsInAll ht hx))
        fun x hx => happ x (List.mem_cons_of_mem _ (mem_appliedInAll ht hx))
  | add hlen _ ih =>
    exact .add hlen fun t ht => ih t ht (fun x hx => hvars x (mem_varsInAll ht hx))
      fun x hx => happ x (mem_appliedInAll ht hx)
  | mul c hne hf _ hone ih =>
    refine .mul c hne hf (fun t ht => ?_) hone
    exact ih t ht (fun x hx => hvars x (mem_varsInAll ht hx))
      fun x hx => happ x (mem_appliedInAll ht hx)
  | pow _ _ ihb ihe =>
    exact .pow
      (ihb (fun x hx => hvars x (List.mem_append_left _ hx))
        fun x hx => happ x (List.mem_append_left _ hx))
      (ihe (fun x hx => hvars x (List.mem_append_right _ hx))
        fun x hx => happ x (List.mem_append_right _ hx))

end Canonical

end Formulary.Term
