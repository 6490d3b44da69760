import Formulary.Proofs.Term.Reduced

/-!
Tidy terms.

A reduced term is tidy if also no sum stands in a sum, and no two factors of a product are powers of one
base by numbers. Sums and products are flattened and merged before their parts are unwrapped, so that what
is unwrapped last can stand there: a like term that is a sum, whose coefficients add up to one, and a
power whose exponents add up to an integer, of a base that a power by an integer goes into. Where neither
happens the constructors keep terms tidy.
-/

namespace Formulary.Term

/-- The term is a sum. -/
def isSum : Term → Bool
  | .add _ => true
  | _ => false

/-- Two powers that are not by numbers of one base. -/
def Apart (p q : Term × Term) : Prop := ¬ (p.1 = q.1 ∧ p.2.isNum = true ∧ q.2.isNum = true)

instance (p q : Term × Term) : Decidable (Apart p q) := inferInstanceAs (Decidable (¬ _))

/-- Two factors that do not merge. -/
def Unlike (f g : Term) : Prop := Apart (asPower f) (asPower g)

instance : DecidableRel Unlike := fun f g => inferInstanceAs (Decidable (Apart (asPower f) (asPower g)))

/-- The node is reduced, and what is in a sum or product is not to be collected any further. -/
def Tidy : Term → Prop
  | .add ts => Reduced (.add ts) ∧ ∀ t ∈ ts, t.isSum = false
  | .mul c fs => Reduced (.mul c fs) ∧ fs.Pairwise Unlike
  | t => Reduced t

instance : DecidablePred Tidy
  | .add _ => inferInstanceAs (Decidable (_ ∧ _))
  | .mul _ fs => inferInstanceAs (Decidable (_ ∧ fs.Pairwise Unlike))
  | .num q => inferInstanceAs (Decidable (Reduced (.num q)))
  | .const c => inferInstanceAs (Decidable (Reduced (.const c)))
  | .var x => inferInstanceAs (Decidable (Reduced (.var x)))
  | .func f ts => inferInstanceAs (Decidable (Reduced (.func f ts)))
  | .apply n ts => inferInstanceAs (Decidable (Reduced (.apply n ts)))
  | .pow b e => inferInstanceAs (Decidable (Reduced (.pow b e)))

theorem form_tidy : Form Tidy where
  reduced t h := by
    cases t with
    | add _ | mul _ _ => exact h.1
    | _ => exact h
  num _ := trivial
  atom t ht := by
    cases t with
    | const _ | var _ | func _ _ | apply _ _ => trivial
    | num _ | add _ | mul _ _ | pow _ _ => cases ht
  pow _ _ h := h
  mul _ _ _ h hd := ⟨hd, h.2⟩
  single _ _ h := ⟨h, List.pairwise_singleton _ _⟩

section Tidy

variable {t b e f g : Term} {ts fs : List Term} {c q : Rat} {n : Nat} {power : Term → Term → Term}

/-! ## Sums -/

/-- A like term is a sum with coefficient one, and it does not stand alone. -/
def leavesSum (ts : List Term) : Bool :=
  ((keptTerms ts).any fun p => decide (p.1 = 1) && p.2.isSum) && decide (2 ≤ (gathered ts).length)

theorem isSum_scaled (c : Rat) (t : Term) : (scaled c t).isSum = (decide (c = 1) && t.isSum) := by
  unfold scaled
  by_cases hc : c = 1
  · rw [if_pos hc, decide_eq_true hc, Bool.true_and]
  · rw [if_neg hc, decide_eq_false hc, Bool.false_and]
    cases t <;> rfl

theorem any_isSum_gathered (ts : List Term) :
    (gathered ts).any isSum = (keptTerms ts).any fun p => decide (p.1 = 1) && p.2.isSum := by
  have hlast : (if numberSum (summandsAll ts) = 0 then [] else [Term.num (numberSum (summandsAll ts))]).any
      isSum = false := by
    split <;> rfl
  rw [gathered, List.any_append, hlast, Bool.or_false, List.any_map]
  exact congrArg _ (funext fun p => isSum_scaled p.1 p.2)

/-- The sum of tidy terms is tidy just if no sum is left in it. -/
theorem everywhere_tidy_sum_iff (hts : ∀ t ∈ ts, Everywhere Tidy t) :
    Everywhere Tidy (sum ts) ↔ leavesSum ts = false := by
  rw [leavesSum, ← any_isSum_gathered]
  constructor
  · intro h
    rw [Bool.and_eq_false_iff, decide_eq_false_iff_not]
    by_cases hlen : 2 ≤ (gathered ts).length
    · rw [sum_eq] at h
      refine .inl (List.any_eq_false.mpr ?_)
      generalize gathered ts = us at h hlen ⊢
      match us, hlen with
      | u :: v :: us, _ =>
        have hnode : Tidy (.add (u :: v :: us)) := h.self
        simpa using hnode.2
    · exact .inr hlen
  · intro h
    refine form_tidy.sum hts fun hlen => ⟨form_tidy.reduced_gathered hts hlen, ?_⟩
    rw [decide_eq_true hlen, Bool.and_true, List.any_eq_false] at h
    simpa using h

/-! ## Merging -/

theorem fst_mergePower {p : Term × Term} {l : List (Term × Term)} (hp : p ∈ mergePower b e l)
    (hnum : p.2.isNum = true) : p.1 = b ∧ e.isNum = true ∨ ∃ r ∈ l, p.1 = r.1 ∧ r.2.isNum = true := by
  rcases mem_mergePower hp with rfl | hp | ⟨hb, -, he⟩
  · exact .inl ⟨rfl, hnum⟩
  · exact .inr ⟨p, hp, rfl, hnum⟩
  · exact .inl ⟨hb, he⟩

/-- Merging keeps powers apart. -/
theorem pairwise_mergePower : ∀ {l : List (Term × Term)}, l.Pairwise Apart → (mergePower b e l).Pairwise Apart
  | [], _ => List.pairwise_singleton _ _
  | (b', e') :: r, h => by
    obtain ⟨hhead, htail⟩ := List.pairwise_cons.mp h
    have hkept : ¬ (b' = b ∧ e'.isNum = true ∧ e.isNum = true) →
        ((b', e') :: mergePower b e r).Pairwise Apart := fun hne => by
      refine List.pairwise_cons.mpr ⟨fun p hp => ?_, pairwise_mergePower htail⟩
      rintro ⟨hbase, hnum', hnum⟩
      rcases fst_mergePower hp hnum with ⟨hb, he⟩ | ⟨s, hs, hfst, hsnum⟩
      · exact hne ⟨hbase.trans hb, hnum', he⟩
      · exact hhead s hs ⟨hbase.trans hfst, hnum', hsnum⟩
    unfold mergePower
    split
    · split
      · exact List.pairwise_cons.mpr ⟨fun p hp ⟨hbase, _, hnum⟩ => hhead p hp ⟨hbase, rfl, hnum⟩, htail⟩
      · rename_i hne
        exact hkept fun h => hne h.1
    · rename_i hnot
      refine hkept fun ⟨_, hnum', hnum⟩ => ?_
      obtain ⟨x, rfl⟩ := isNum_iff.mp hnum'
      obtain ⟨y, rfl⟩ := isNum_iff.mp hnum
      exact hnot x y rfl rfl

theorem pairwise_mergedPowers (fs : List Term) : (mergedPowers fs).Pairwise Apart := by
  suffices ∀ (fs : List Term) (acc : List (Term × Term)), acc.Pairwise Apart →
      (fs.foldl (fun acc f => mergePower (asPower f).1 (asPower f).2 acc) acc).Pairwise Apart from
    this fs [] List.Pairwise.nil
  intro fs
  induction fs with
  | nil => exact fun _ h => h
  | cons f fs ih => exact fun acc h => ih _ (pairwise_mergePower h)

theorem mergePower_of_apart : ∀ {l : List (Term × Term)}, (∀ p ∈ l, Apart p (b, e)) →
    mergePower b e l = l ++ [(b, e)]
  | [], _ => rfl
  | (b', e') :: r, h => by
    have htail := mergePower_of_apart fun p hp => h p (List.mem_cons_of_mem _ hp)
    unfold mergePower
    split
    · split
      · rename_i heq
        exact absurd ⟨heq, rfl, rfl⟩ (h _ List.mem_cons_self)
      · rw [htail, List.cons_append]
    · rw [htail, List.cons_append]

/-- Factors that are unlike are not merged. -/
theorem mergedPowers_of_unlike (h : fs.Pairwise Unlike) : mergedPowers fs = fs.map asPower := by
  suffices ∀ (fs : List Term) (acc : List (Term × Term)), fs.Pairwise Unlike →
      (∀ p ∈ acc, ∀ f ∈ fs, Apart p (asPower f)) →
      fs.foldl (fun acc f => mergePower (asPower f).1 (asPower f).2 acc) acc = acc ++ fs.map asPower from
    this fs [] h (by simp)
  intro fs
  induction fs with
  | nil => intro acc _ _; simp
  | cons f fs ih =>
    intro acc h hacc
    obtain ⟨hhead, htail⟩ := List.pairwise_cons.mp h
    have hmerge : mergePower (asPower f).1 (asPower f).2 acc = acc ++ [asPower f] :=
      mergePower_of_apart fun p hp => hacc p hp f List.mem_cons_self
    have happart : ∀ p ∈ acc ++ [asPower f], ∀ g ∈ fs, Apart p (asPower g) := fun p hp g hg => by
      rcases List.mem_append.mp hp with hp | hp
      · exact hacc p hp g (List.mem_cons_of_mem _ hg)
      · rw [List.mem_singleton.mp hp]
        exact hhead g hg
    rw [List.foldl_cons, hmerge, ih _ htail happart]
    simp

/-! ## Products -/

/-- Exponents add up to an integer, and the power by it goes into the base. -/
def mergesWhole (ts : List Term) : Bool :=
  (mergedPowers (factorsAll ts)).any fun p => p.2.isInteger && p.1.absorbsPowers

theorem mergesWhole_eq_false : mergesWhole ts = false ↔
    ∀ p ∈ mergedPowers (factorsAll ts), p.2.isInteger = true → p.1.absorbsPowers = false := by
  simp [mergesWhole, List.any_eq_false]

/-- A power that goes into its base nowhere is a number, the base or itself. -/
inductive Plain (b e : Term) : Term → Prop
  | number (q : Rat) : Plain b e (.num q)
  | base (h : e = .num 1) : Plain b e b
  | kept : Plain b e (.pow b e)

theorem plain_powerWithin (h : e.isInteger = true → b.absorbsPowers = false) :
    Plain b e (powerWithin n b e) := by
  cases n with
  | zero => exact .kept
  | succ n =>
    change Plain b e (powerWith (powerWithin n) b e)
    by_cases hnum : e.isNum = true
    · obtain ⟨q, rfl⟩ := isNum_iff.mp hnum
      have hint : q.den = 1 → b.absorbsPowers = false := fun hq => h (by simp [isInteger, hq])
      have hstep := reducedStep (powerWithin n) b q
      generalize powerWith (powerWithin n) b (.num q) = u at hstep ⊢
      cases hstep with
      | number => exact .number _
      | one => exact .base rfl
      | nested hden => cases hint hden
      | spread hden => cases hint hden
      | kept => exact .kept
    · rw [powerWith_of_not_isNum _ b (by simpa using hnum)]
      exact .kept

/-- The factor that such a power is has the base, if its exponent is a number. -/
theorem Plain.parts {u : Term} (hu : Plain b e u) (h : e.isInteger = true → b.absorbsPowers = false) :
    u.parts = [] ∨ u.parts = [u] ∧ ((asPower u).2.isNum = true → (asPower u).1 = b ∧ e.isNum = true) := by
  cases hu with
  | number q => exact .inl rfl
  | kept => exact .inr ⟨rfl, fun hnum => ⟨rfl, hnum⟩⟩
  | base he =>
    subst he
    have hbase := h rfl
    cases b with
    | num q => exact .inl rfl
    | mul c fs => cases hbase
    | pow b' e' =>
      refine .inr ⟨rfl, fun hnum => ?_⟩
      obtain ⟨i, rfl⟩ := isNum_iff.mp hnum
      cases hbase
    | _ => exact .inr ⟨rfl, fun _ => ⟨rfl, rfl⟩⟩

/-- What is merged stays apart if no power goes into its base. -/
theorem pairwise_mergedFactors (hwhole : mergesWhole ts = false)
    (hpower : ∀ b e, (e.isInteger = true → b.absorbsPowers = false) → Plain b e (power b e)) :
    (mergedFactors power ts).Pairwise Unlike := by
  rw [mergesWhole_eq_false] at hwhole
  have hparts : ∀ p ∈ mergedPowers (factorsAll ts), ∀ g ∈ (power p.1 p.2).parts, g = power p.1 p.2 ∧
      ((asPower g).2.isNum = true → (asPower g).1 = p.1 ∧ p.2.isNum = true) := fun p hp g hg => by
    rcases (hpower p.1 p.2 (hwhole p hp)).parts (hwhole p hp) with hnil | ⟨hself, hbase⟩
    · rw [hnil] at hg
      cases hg
    · rw [hself, List.mem_singleton] at hg
      exact ⟨hg, hg ▸ hbase⟩
  refine List.pairwise_flatMap.mpr ⟨fun p hp => ?_, ?_⟩
  · rcases (hpower p.1 p.2 (hwhole p hp)).parts (hwhole p hp) with hnil | ⟨hself, -⟩
    · rw [hnil]
      exact List.Pairwise.nil
    · rw [hself]
      exact List.pairwise_singleton _ _
  · refine (pairwise_mergedPowers _).imp_of_mem fun hp hq hapart f hf g hg => ?_
    rintro ⟨heq, hfnum, hgnum⟩
    obtain ⟨hfbase, hpnum⟩ := (hparts _ hp f hf).2 hfnum
    obtain ⟨hgbase, hqnum⟩ := (hparts _ hq g hg).2 hgnum
    exact hapart ⟨hfbase.symm.trans (heq.trans hgbase), hpnum, hqnum⟩

/-! ## Powers -/

/-- The factor is no power by a number of a base that integer powers go into. -/
def isFlat (f : Term) : Bool := !((asPower f).2.isNum && (asPower f).1.absorbsPowers)

/-- Integer powers of the term are powers of its factors, and no power goes further into their bases. -/
def spreads : Term → Bool
  | .mul _ fs => fs.all isFlat
  | .pow b (.num _) => spreads b
  | _ => true

theorem isFlat_iff : f.isFlat = true ↔ ((asPower f).2.isNum = true → (asPower f).1.absorbsPowers = false) := by
  unfold isFlat
  cases (asPower f).2.isNum <;> simp

theorem spreads_of_not_absorbsPowers (h : b.absorbsPowers = false) : b.spreads = true := by
  cases b with
  | mul c fs => cases h
  | pow b e =>
    cases e with
    | num i => cases h
    | _ => rfl
  | _ => rfl

theorem spreads_of_isFlat (h : f.isFlat = true) : f.spreads = true := by
  rw [isFlat_iff] at h
  cases f with
  | mul c fs => cases h rfl
  | pow b e =>
    cases e with
    | num i =>
      have hb : b.spreads = true := spreads_of_not_absorbsPowers (h rfl)
      exact hb
    | _ => rfl
  | _ => rfl

/-- Flat factors merge to no power that goes into its base. -/
theorem not_absorbsPowers_of_isFlat (h : ∀ f ∈ factorsAll ts, f.isFlat = true) {p : Term × Term}
    (hp : p ∈ mergedPowers (factorsAll ts)) (hnum : p.2.isNum = true) : p.1.absorbsPowers = false := by
  obtain ⟨f, hf, hbase, hexp⟩ := mem_mergedPowers hp
  have hfnum : (asPower f).2.isNum = true := by
    rcases hexp with hexp | ⟨-, hexp⟩
    · exact hexp ▸ hnum
    · exact hexp
  rw [hbase]
  exact isFlat_iff.mp (h f hf) hfnum

theorem isNum_of_isInteger (h : e.isInteger = true) : e.isNum = true := by
  cases e with
  | num q => rfl
  | _ => cases h

/-- A power that goes into its base nowhere is flat if the base is, and its factors are. -/
theorem Plain.isFlat {u : Term} (hu : Plain b e u) (h : b.absorbsPowers = false) :
    ∀ f ∈ u.factors, f.isFlat = true := by
  intro f hf
  cases hu with
  | number q => cases hf
  | kept =>
    rw [List.mem_singleton.mp hf, isFlat_iff]
    exact fun _ => h
  | base he =>
    cases b with
    | num q => cases hf
    | mul c fs => cases h
    | pow b' e' =>
      rw [List.mem_singleton.mp hf, isFlat_iff]
      intro hnum
      obtain ⟨i, rfl⟩ := isNum_iff.mp hnum
      cases h
    | _ =>
      rw [List.mem_singleton.mp hf]
      rfl

/-- The integer power of a flat factor is flat. -/
theorem isFlat_powerWithin (hf : f.isFlat = true) (hfactor : f.isFactor = true) (hq : q.den = 1)
    (hn : f.weight ≤ n) : ∀ g ∈ (powerWithin n f (.num q)).factors, g.isFlat = true := by
  by_cases habsorbs : f.absorbsPowers = false
  · exact (plain_powerWithin fun _ => habsorbs).isFlat habsorbs
  -- the factor is a power by a number, whose base takes in none
  obtain ⟨b, i, rfl⟩ : ∃ b i, f = .pow b (.num i) := by
    cases f with
    | mul c fs => cases hfactor
    | pow b e =>
      cases e with
      | num i => exact ⟨b, i, rfl⟩
      | _ => exact absurd rfl habsorbs
    | _ => exact absurd rfl habsorbs
  have hb : b.absorbsPowers = false := isFlat_iff.mp hf rfl
  rw [weight] at hn
  obtain ⟨n, rfl⟩ : ∃ m, n = m + 1 := ⟨n - 1, by omega⟩
  intro g hg
  change g ∈ (powerWith (powerWithin n) (.pow b (.num i)) (.num q)).factors at hg
  have hstep := reducedStep (powerWithin n) (.pow b (.num i)) q
  generalize powerWith (powerWithin n) (.pow b (.num i)) (.num q) = u at hstep hg
  cases hstep with
  | number => cases hg
  | one => exact List.mem_singleton.mp hg ▸ hf
  | nested => exact (plain_powerWithin fun _ => hb).isFlat hb g hg
  | kept h =>
    have hkept := h.2.2.1 (by simp [isInteger, hq])
    cases hkept

theorem isFlat_spreadPowers (hfs : ∀ f ∈ fs, f.isFlat = true ∧ f.isFactor = true) (hq : q.den = 1)
    (hn : weightAll fs ≤ n) : ∀ f ∈ factorsAll (spreadPowers (powerWithin n) c q fs), f.isFlat = true := by
  intro g hg
  obtain ⟨u, hu, hgu⟩ := mem_factorsAll.mp hg
  rcases List.mem_cons.mp hu with rfl | hu
  · unfold coefficientPower at hgu
    split at hgu
    · cases hgu
    · rw [List.mem_singleton.mp hgu]
      rfl
  · obtain ⟨f, hf, rfl⟩ := List.mem_map.mp hu
    exact isFlat_powerWithin (hfs f hf).1 (hfs f hf).2 hq ((weight_le_weightAll hf).trans hn) g hgu

/-- No power goes into the bases that the power of a product is merged by. -/
theorem not_absorbsPowers_of_spreads (h : (Term.mul c fs).spreads = true) (hmul : Everywhere Tidy (.mul c fs))
    (hq : q.den = 1) (hn : weightAll fs ≤ n) {p : Term × Term}
    (hp : p ∈ mergedPowers (factorsAll (spreadPowers (powerWithin n) c q fs))) (hint : p.2.isInteger = true) :
    p.1.absorbsPowers = false := by
  have hfs : ∀ f ∈ fs, f.isFlat = true ∧ f.isFactor = true := fun f hf =>
    ⟨List.all_eq_true.mp h f hf, ((form_tidy.of_mul hmul).2 f hf).1⟩
  exact not_absorbsPowers_of_isFlat (isFlat_spreadPowers hfs hq hn) hp (isNum_of_isInteger hint)

theorem spreading_tidy : Spreading Tidy fun b => b.spreads = true where
  nested _ _ h := h
  factor c fs h f hf := spreads_of_isFlat (List.all_eq_true.mp h f hf)
  merged n c q fs h hmul hq hn p hp hint :=
    spreads_of_not_absorbsPowers (not_absorbsPowers_of_spreads h hmul hq hn hp hint)
  node n c q fs h hmul hq hn d hreduced := by
    refine ⟨hreduced, pairwise_mergedFactors (mergesWhole_eq_false.mpr fun p hp hint => ?_)
      fun b e => plain_powerWithin⟩
    exact not_absorbsPowers_of_spreads h hmul hq hn hp hint

theorem everywhere_tidy_power (hb : Everywhere Tidy b) (he : Everywhere Tidy e)
    (hspreads : e.isInteger = true → b.spreads = true) : Everywhere Tidy (Term.power b e) :=
  form_tidy.power spreading_tidy hb he hspreads

theorem everywhere_tidy_product (hts : ∀ t ∈ ts, Everywhere Tidy t) (h : mergesWhole ts = false) :
    Everywhere Tidy (product ts) := by
  refine form_tidy.productWith (fun p hp => ?_) fun d hreduced => ⟨hreduced, ?_⟩
  · obtain ⟨hb, he⟩ := form_tidy.mergedPowers hts hp
    exact everywhere_tidy_power hb he fun hint =>
      spreads_of_not_absorbsPowers (mergesWhole_eq_false.mp h p hp hint)
  · exact pairwise_mergedFactors h fun b e => plain_powerWithin

/-- Factors of a tidy term are unlike. -/
theorem Everywhere.pairwise_parts (h : Everywhere Tidy t) : t.parts.Pairwise Unlike := by
  cases t with
  | num q => exact List.Pairwise.nil
  | mul c fs => exact h.self.2
  | _ => exact List.pairwise_singleton _ _

/-- A product with a number merges nothing. -/
theorem everywhere_tidy_scale (h : Everywhere Tidy t) (c : Rat) : Everywhere Tidy (product [.num c, t]) := by
  refine everywhere_tidy_product (by simpa using ⟨form_tidy.everywhere_num c, h⟩)
    (mergesWhole_eq_false.mpr fun p hp hint => ?_)
  have hparts : factorsAll [.num c, t] = t.parts := by
    rw [factorsAll, factorsAll, factorsAll, List.append_nil,
      factors_eq_parts (h.mono form_tidy.reduced).canonical]
    rfl
  rw [hparts, mergedPowers_of_unlike h.pairwise_parts] at hp
  obtain ⟨f, hf, rfl⟩ := List.mem_map.mp hp
  obtain ⟨hfactor, htidy⟩ := form_tidy.parts h f hf
  cases f with
  | pow b e =>
    have hreduced : Reduced (.pow b e) := htidy.self
    exact hreduced.2.2.1 hint
  | num q => cases hfactor
  | mul c fs => cases hfactor
  | _ => rfl

theorem everywhere_tidy_negated (h : Everywhere Tidy t) : Everywhere Tidy t.negated :=
  everywhere_tidy_scale h (-1)

theorem everywhere_tidy_difference (hb : Everywhere Tidy b) (he : Everywhere Tidy e)
    (h : leavesSum [b, e.negated] = false) : Everywhere Tidy (difference b e) :=
  (everywhere_tidy_sum_iff (by simpa using ⟨hb, everywhere_tidy_negated he⟩)).mpr h

theorem everywhere_tidy_quotient (hb : Everywhere Tidy b) (he : Everywhere Tidy e)
    (hspreads : e.spreads = true) (h : mergesWhole [b, Term.power e (.num (-1))] = false) :
    Everywhere Tidy (quotient b e) :=
  everywhere_tidy_product (by
    simpa using ⟨hb, everywhere_tidy_power he (form_tidy.everywhere_num (-1)) fun _ => hspreads⟩) h

end Tidy

end Formulary.Term
