import Formulary.Proofs.Meaning.Exact
import Formulary.Proofs.Term.Depth
import Mathlib.Data.List.Nodup

/-!
Reduced terms.

A term is reduced at a node if nothing is left to collect or to fold there: a sum has no second number
and no two like terms, a product has no number among its factors, and a power is none that is computed or
distributed. The canonicalising constructors keep every node reduced. What one adds to that, in a `Form`,
is decided where a sum or a product is put together, and there alone.

## How the proof goes

`Everywhere P` holds a condition at all subterms. A constructor makes few new nodes: the sum or the product
itself, the like terms with their coefficients, the merged powers. So for each there is a lemma which asks
for the condition at the new node, and gives it everywhere (`Form.sum`, `Form.productWith`). For `Reduced`
the condition at the new node always holds; for a stronger form it is what has to be decided, and the lemmas
are used again.

Powers go round in a circle, as a power of a product is a product of powers which are merged and so raised
again. `Form.powerWithin` is the induction that follows it, on the number of steps that are left. Each step
needs less room than it has, because a merged power weighs less than the product it came from
(`Light.weight_merged_lt`); with the room used up the power would be left as it is, and need not be reduced.
This is why the bound on the weight is a hypothesis there, while for the plain form it is not needed.

## Why integer powers are set apart

Only an integer power is distributed over a product, or taken into another power. So the base of one must
not be of these kinds (`Reduced`), and what a form asks of bases that integer powers are distributed over is
a condition of its own (`Spreading`). For reduced terms it is empty.
-/

namespace Formulary.Term

/-! ## Subterms -/

mutual

/-- The term and all terms in it, from the outside in. -/
def subterms : Term → List Term
  | .num q => [.num q]
  | .const c => [.const c]
  | .var x => [.var x]
  | .func f ts => .func f ts :: subtermsAll ts
  | .apply name ts => .apply name ts :: subtermsAll ts
  | .add ts => .add ts :: subtermsAll ts
  | .mul c fs => .mul c fs :: subtermsAll fs
  | .pow b e => .pow b e :: (subterms b ++ subterms e)

/-- The subterms of several terms. -/
def subtermsAll : List Term → List Term
  | [] => []
  | t :: ts => subterms t ++ subtermsAll ts

end

/-- The condition holds at every subterm. -/
def Everywhere (P : Term → Prop) (t : Term) : Prop := ∀ s ∈ t.subterms, P s

instance (P : Term → Prop) [DecidablePred P] (t : Term) : Decidable (Everywhere P t) :=
  inferInstanceAs (Decidable (∀ s ∈ t.subterms, P s))

section Everywhere

variable {P : Term → Prop} {t b e : Term} {ts fs : List Term} {c : Rat}

theorem forall_subtermsAll : (∀ s ∈ subtermsAll ts, P s) ↔ ∀ t ∈ ts, Everywhere P t := by
  induction ts with
  | nil => simp [subtermsAll]
  | cons t ts ih =>
    simp only [subtermsAll, List.forall_mem_append, ih, List.forall_mem_cons]
    rfl

theorem everywhere_num {q : Rat} : Everywhere P (.num q) ↔ P (.num q) := List.forall_mem_singleton

theorem everywhere_const {k : Constant} : Everywhere P (.const k) ↔ P (.const k) :=
  List.forall_mem_singleton

theorem everywhere_var {x : String} : Everywhere P (.var x) ↔ P (.var x) := List.forall_mem_singleton

theorem everywhere_func {f : Builtin} :
    Everywhere P (.func f ts) ↔ P (.func f ts) ∧ ∀ t ∈ ts, Everywhere P t := by
  rw [Everywhere, subterms, List.forall_mem_cons, forall_subtermsAll]

theorem everywhere_apply {name : String} :
    Everywhere P (.apply name ts) ↔ P (.apply name ts) ∧ ∀ t ∈ ts, Everywhere P t := by
  rw [Everywhere, subterms, List.forall_mem_cons, forall_subtermsAll]

theorem everywhere_add : Everywhere P (.add ts) ↔ P (.add ts) ∧ ∀ t ∈ ts, Everywhere P t := by
  rw [Everywhere, subterms, List.forall_mem_cons, forall_subtermsAll]

theorem everywhere_mul : Everywhere P (.mul c fs) ↔ P (.mul c fs) ∧ ∀ f ∈ fs, Everywhere P f := by
  rw [Everywhere, subterms, List.forall_mem_cons, forall_subtermsAll]

theorem everywhere_pow :
    Everywhere P (.pow b e) ↔ P (.pow b e) ∧ Everywhere P b ∧ Everywhere P e := by
  rw [Everywhere, subterms, List.forall_mem_cons, List.forall_mem_append]
  rfl

theorem Everywhere.self (h : Everywhere P t) : P t := by
  refine h t ?_
  cases t <;> simp [subterms]

theorem Everywhere.mono {P' : Term → Prop} (h : Everywhere P t) (hP : ∀ s, P s → P' s) :
    Everywhere P' t := fun s hs => hP s (h s hs)

end Everywhere

/-! ## Reduced nodes -/

/-- The term is an integer. -/
def isInteger : Term → Bool
  | .num q => q.den = 1
  | _ => false

/-- The number that the power of two numbers is. -/
def foldedPower? : Term → Term → Option Rat
  | .num a, .num e => numberPower? a e
  | _, _ => none

/-- Nothing is left to collect or to fold where the subterms meet. -/
def Reduced : Term → Prop
  | .add ts => 2 ≤ ts.length ∧ (∀ t ∈ ts.dropLast, t.isNum = false) ∧ .num 0 ∉ ts ∧
      (ts.map fun t => (splitCoefficient t).2).Nodup
  | .mul c fs => c ≠ 0 ∧ fs ≠ [] ∧ (∀ f ∈ fs, f.isFactor = true) ∧ (c = 1 → fs.length ≠ 1)
  | .pow b e => e ≠ .num 0 ∧ e ≠ .num 1 ∧ (e.isInteger = true → b.absorbsPowers = false) ∧
      foldedPower? b e = none
  | _ => True

instance : DecidablePred Reduced
  | .add _ => inferInstanceAs (Decidable (_ ∧ _ ∧ _ ∧ _))
  | .mul _ _ => inferInstanceAs (Decidable (_ ∧ _ ∧ _ ∧ _))
  | .pow _ _ => inferInstanceAs (Decidable (_ ∧ _ ∧ _ ∧ _))
  | .num _ | .const _ | .var _ | .func .. | .apply .. => inferInstanceAs (Decidable True)

/-- A condition on nodes that asks for more at sums and products only, and there not about the
coefficient. -/
structure Form (P : Term → Prop) : Prop where
  reduced : ∀ t, P t → Reduced t
  num : ∀ q, P (.num q)
  atom : ∀ t, t.isAtom = true → P t
  pow : ∀ b e, Reduced (.pow b e) → P (.pow b e)
  mul : ∀ c d fs, P (.mul c fs) → Reduced (.mul d fs) → P (.mul d fs)
  single : ∀ c f, Reduced (.mul c [f]) → P (.mul c [f])

theorem form_reduced : Form Reduced where
  reduced _ h := h
  num _ := trivial
  atom t ht := by
    cases t with
    | const _ | var _ | func _ _ | apply _ _ => trivial
    | num _ | add _ | mul _ _ | pow _ _ => cases ht
  pow _ _ h := h
  mul _ _ _ _ h := h
  single _ _ h := h

section Closure

variable {P : Term → Prop} {power : Term → Term → Term} {t b e : Term} {ts fs : List Term} {c q : Rat}

theorem Form.everywhere_num (hP : Form P) (q : Rat) : Everywhere P (.num q) :=
  Term.everywhere_num.mpr (hP.num q)

theorem Form.of_isNum (hP : Form P) (h : t.isNum = true) : Everywhere P t := by
  cases t with
  | num q => exact hP.everywhere_num q
  | _ => cases h

theorem Form.everywhere_pow (hP : Form P) (h : Reduced (.pow b e)) (hb : Everywhere P b)
    (he : Everywhere P e) : Everywhere P (.pow b e) :=
  Term.everywhere_pow.mpr ⟨hP.pow b e h, hb, he⟩

theorem Form.of_mul (hP : Form P) (h : Everywhere P (.mul c fs)) :
    Reduced (.mul c fs) ∧ ∀ f ∈ fs, f.isFactor = true ∧ Everywhere P f := by
  obtain ⟨hnode, hfs⟩ := everywhere_mul.mp h
  have hreduced := hP.reduced _ hnode
  exact ⟨hreduced, fun f hf => ⟨hreduced.2.2.1 f hf, hfs f hf⟩⟩

/-! ## Sums -/

mutual

theorem Everywhere.summands : ∀ {t : Term}, Everywhere P t → ∀ u ∈ t.summands, Everywhere P u
  | .add _, h, u, hu => Everywhere.summandsAll (everywhere_add.mp h).2 u hu
  | .num _, h, _, hu | .const _, h, _, hu | .var _, h, _, hu | .func _ _, h, _, hu
  | .apply _ _, h, _, hu | .mul _ _, h, _, hu | .pow _ _, h, _, hu => List.mem_singleton.mp hu ▸ h

theorem Everywhere.summandsAll : ∀ {ts : List Term}, (∀ t ∈ ts, Everywhere P t) →
    ∀ u ∈ Term.summandsAll ts, Everywhere P u
  | [], _, _, hu => absurd hu List.not_mem_nil
  | t :: ts, h, u, hu => by
      rcases List.mem_append.mp hu with hu | hu
      · exact Everywhere.summands (h t List.mem_cons_self) u hu
      · exact Everywhere.summandsAll (fun w hw => h w (List.mem_cons_of_mem _ hw)) u hu

end

/-- What is left of a term when its coefficient is split off. -/
theorem Form.splitCoefficient (hP : Form P) (h : Everywhere P t) (hnum : t.isNum = false) :
    let rest := (splitCoefficient t).2
    Everywhere P rest ∧ (rest.isFactor = true ∨ ∃ fs, rest = .mul 1 fs ∧ fs.length ≠ 1) := by
  cases t with
  | num q => cases hnum
  | mul c fs =>
    obtain ⟨hreduced, hfs⟩ := hP.of_mul h
    match fs, hreduced, hfs with
    | [], hreduced, _ => exact absurd rfl hreduced.2.1
    | [f], _, hfs => exact ⟨(hfs f List.mem_cons_self).2, .inl (hfs f List.mem_cons_self).1⟩
    | f :: g :: fs, hreduced, hfs =>
      have hone : Reduced (.mul 1 (f :: g :: fs)) :=
        ⟨one_ne_zero, hreduced.2.1, hreduced.2.2.1, by simp⟩
      refine ⟨everywhere_mul.mpr ⟨hP.mul c 1 _ h.self hone, fun f hf => (hfs f hf).2⟩, .inr ⟨_, rfl, by simp⟩⟩
  | _ => exact ⟨h, .inl rfl⟩

/-- The coefficient is put back, and split off again. -/
theorem Form.scaled (hP : Form P) (hc : c ≠ 0) (h : Everywhere P t)
    (ht : t.isFactor = true ∨ ∃ fs, t = .mul 1 fs ∧ fs.length ≠ 1) :
    Everywhere P (scaled c t) ∧ (scaled c t).isNum = false ∧ Term.splitCoefficient (scaled c t) = (c, t) := by
  unfold Term.scaled
  rcases ht with ht | ⟨fs, rfl, hlen⟩
  · by_cases hone : c = 1
    · rw [if_pos hone, hone]
      refine ⟨h, ?_, ?_⟩ <;> cases t <;> first | rfl | cases ht
    · have hsingle : Reduced (.mul c [t]) := ⟨hc, by simp, by simpa using ht, fun h => absurd h hone⟩
      have hmul : Everywhere P (.mul c [t]) :=
        everywhere_mul.mpr ⟨hP.single c t hsingle, by simpa using h⟩
      rw [if_neg hone]
      cases t with
      | mul d fs => cases ht
      | _ => exact ⟨hmul, rfl, rfl⟩
  · have hsplit : ∀ d, Term.splitCoefficient (.mul d fs) = (d, .mul 1 fs) := fun d => by
      match fs, hlen with
      | [], _ => rfl
      | [f], hlen => exact absurd rfl hlen
      | _ :: _ :: _, _ => rfl
    obtain ⟨hreduced, hfs⟩ := hP.of_mul h
    by_cases hone : c = 1
    · rw [if_pos hone, hone]
      exact ⟨h, rfl, hsplit 1⟩
    · rw [if_neg hone]
      have hc : Reduced (.mul c fs) := ⟨hc, hreduced.2.1, hreduced.2.2.1, fun h => absurd h hone⟩
      exact ⟨everywhere_mul.mpr ⟨hP.mul 1 c fs h.self hc, fun f hf => (hfs f hf).2⟩, rfl, hsplit c⟩

/-- Collecting keeps the terms unlike. -/
theorem nodup_collect : ∀ {l : List (Rat × Term)}, (l.map Prod.snd).Nodup →
    ((collect c t l).map Prod.snd).Nodup
  | [], _ => by simp [collect]
  | (d, u) :: r, h => by
    rw [List.map_cons, List.nodup_cons] at h
    unfold collect
    split
    · exact List.nodup_cons.mpr h
    · rename_i hne
      refine List.nodup_cons.mpr ⟨fun hmem => ?_, nodup_collect h.2⟩
      obtain ⟨p, hp, hpu⟩ := List.mem_map.mp hmem
      rcases mem_collect hp with hp | ⟨q, hq, hpq⟩
      · exact hne (hpu.symm.trans hp)
      · exact h.1 (List.mem_map.mpr ⟨q, hq, hpq.symm.trans hpu⟩)

theorem nodup_likeTerms (ts : List Term) : ((likeTerms ts).map Prod.snd).Nodup := by
  suffices ∀ (us : List Term) (acc : List (Rat × Term)), (acc.map Prod.snd).Nodup →
      ((us.foldl (fun acc t => collect (splitCoefficient t).1 (splitCoefficient t).2 acc) acc).map
        Prod.snd).Nodup from this _ [] List.nodup_nil
  intro us
  induction us with
  | nil => exact fun _ h => h
  | cons u us ih => exact fun acc h => ih _ (nodup_collect h)

/-- The like terms that do not cancel. -/
def keptTerms (ts : List Term) : List (Rat × Term) := (likeTerms (summandsAll ts)).filter fun p => p.1 != 0

/-- The terms of the canonical sum. -/
def gathered (ts : List Term) : List Term :=
  (keptTerms ts).map (fun p => scaled p.1 p.2) ++
    if numberSum (summandsAll ts) = 0 then [] else [.num (numberSum (summandsAll ts))]

theorem sum_eq (ts : List Term) : sum ts = ofSummands (gathered ts) := rfl

/-- A like term that is kept, as it is put back. -/
theorem Form.kept (hP : Form P) (hts : ∀ t ∈ ts, Everywhere P t) {p : Rat × Term} (hp : p ∈ keptTerms ts) :
    p.2.isNum = false ∧ Everywhere P (Term.scaled p.1 p.2) ∧ (Term.scaled p.1 p.2).isNum = false ∧
      Term.splitCoefficient (Term.scaled p.1 p.2) = p := by
  obtain ⟨hp, hne⟩ := List.mem_filter.mp hp
  obtain ⟨t, ht, hnum, hrest⟩ := mem_likeTerms hp
  obtain ⟨hsplit, hshape⟩ := hP.splitCoefficient (Everywhere.summandsAll hts t ht) hnum
  rw [← hrest] at hsplit hshape
  refine ⟨?_, hP.scaled (by simpa using hne) hsplit hshape⟩
  rcases hshape with hfactor | ⟨fs, hfs, -⟩
  · cases hp2 : p.2 with
    | num q =>
      rw [hp2] at hfactor
      cases hfactor
    | _ => rfl
  · rw [hfs]
    rfl

theorem Form.gathered (hP : Form P) (hts : ∀ t ∈ ts, Everywhere P t) :
    ∀ t ∈ gathered ts, Everywhere P t := by
  intro t ht
  rcases List.mem_append.mp ht with ht | ht
  · obtain ⟨p, hp, rfl⟩ := List.mem_map.mp ht
    exact (hP.kept hts hp).2.1
  · split at ht
    · cases ht
    · rw [List.mem_singleton.mp ht]
      exact hP.everywhere_num _

/-- The terms of the canonical sum are unlike, and only the last one is a number. -/
theorem Form.reduced_gathered (hP : Form P) (hts : ∀ t ∈ ts, Everywhere P t)
    (hlen : 2 ≤ (Term.gathered ts).length) : Reduced (.add (Term.gathered ts)) := by
  have hkept : ∀ t ∈ (keptTerms ts).map (fun p => Term.scaled p.1 p.2), t.isNum = false := fun t ht => by
    obtain ⟨p, hp, rfl⟩ := List.mem_map.mp ht
    exact (hP.kept hts hp).2.2.1
  have hrests : ((keptTerms ts).map (fun p => Term.scaled p.1 p.2)).map
      (fun t => (Term.splitCoefficient t).2) = (keptTerms ts).map Prod.snd := by
    rw [List.map_map]
    exact List.map_congr_left fun p hp => congrArg Prod.snd (hP.kept hts hp).2.2.2
  have hnodup : ((keptTerms ts).map Prod.snd).Nodup :=
    (nodup_likeTerms _).sublist (List.filter_sublist.map _)
  refine ⟨hlen, ?_, ?_, ?_⟩
  · unfold Term.gathered
    split
    · rw [List.append_nil]
      exact fun t ht => hkept t (List.mem_of_mem_dropLast ht)
    · rw [List.dropLast_concat]
      exact hkept
  · intro hzero
    rcases List.mem_append.mp hzero with hzero | hzero
    · cases hkept _ hzero
    · split at hzero
      · cases hzero
      · rename_i hne
        exact hne (Term.num.inj (List.mem_singleton.mp hzero)).symm
  · unfold Term.gathered
    rw [List.map_append, hrests]
    split
    · simpa using hnodup
    · refine List.nodup_append.mpr ⟨hnodup, by simp, ?_⟩
      rintro a ha b hb rfl
      obtain ⟨p, hp, rfl⟩ := List.mem_map.mp ha
      have hnum := (hP.kept hts hp).1
      rw [List.map_singleton, List.mem_singleton] at hb
      rw [hb] at hnum
      cases hnum

/-- The canonical sum has the form if its node has. -/
theorem Form.sum (hP : Form P) (hts : ∀ t ∈ ts, Everywhere P t)
    (hnode : 2 ≤ (Term.gathered ts).length → P (.add (Term.gathered ts))) : Everywhere P (sum ts) := by
  have hall := hP.gathered hts
  rw [sum_eq]
  generalize Term.gathered ts = us at hnode hall ⊢
  match us with
  | [] => exact hP.everywhere_num 0
  | [u] => exact hall u List.mem_cons_self
  | u :: v :: us => exact everywhere_add.mpr ⟨hnode (by simp), hall⟩

theorem everywhere_reduced_sum (hts : ∀ t ∈ ts, Everywhere Reduced t) : Everywhere Reduced (Term.sum ts) :=
  form_reduced.sum hts (form_reduced.reduced_gathered hts)

/-! ## Products -/

mutual

theorem Form.factors (hP : Form P) : ∀ {t : Term}, Everywhere P t →
    ∀ f ∈ t.factors, f.isFactor = true ∧ Everywhere P f
  | .num _, _, _, hf => absurd hf List.not_mem_nil
  | .mul _ _, h, f, hf => Form.factorsAll hP (everywhere_mul.mp h).2 f hf
  | .const _, h, _, hf | .var _, h, _, hf | .func _ _, h, _, hf | .apply _ _, h, _, hf
  | .add _, h, _, hf | .pow _ _, h, _, hf => List.mem_singleton.mp hf ▸ ⟨rfl, h⟩

theorem Form.factorsAll (hP : Form P) : ∀ {ts : List Term}, (∀ t ∈ ts, Everywhere P t) →
    ∀ f ∈ Term.factorsAll ts, f.isFactor = true ∧ Everywhere P f
  | [], _, _, hf => absurd hf List.not_mem_nil
  | t :: ts, h, f, hf => by
      rcases List.mem_append.mp hf with hf | hf
      · exact Form.factors hP (h t List.mem_cons_self) f hf
      · exact Form.factorsAll hP (fun u hu => h u (List.mem_cons_of_mem _ hu)) f hf

end

theorem Form.parts (hP : Form P) (h : Everywhere P t) : ∀ g ∈ t.parts, g.isFactor = true ∧ Everywhere P g := by
  intro g hg
  cases t with
  | num q => cases hg
  | mul c fs => exact (hP.of_mul h).2 g hg
  | _ => exact List.mem_singleton.mp hg ▸ ⟨rfl, h⟩

theorem Form.asPower (hP : Form P) (h : Everywhere P t) :
    Everywhere P (asPower t).1 ∧ Everywhere P (asPower t).2 := by
  cases t with
  | pow b e => exact (Term.everywhere_pow.mp h).2
  | _ => exact ⟨h, hP.everywhere_num 1⟩

/-- The powers that factors are merged into have the form. -/
theorem Form.mergedPowers (hP : Form P) (hts : ∀ t ∈ ts, Everywhere P t) {p : Term × Term}
    (hp : p ∈ mergedPowers (Term.factorsAll ts)) : Everywhere P p.1 ∧ Everywhere P p.2 := by
  obtain ⟨f, hf, hbase, hexp⟩ := mem_mergedPowers hp
  obtain ⟨hb, he⟩ := hP.asPower (hP.factorsAll hts f hf).2
  refine ⟨hbase ▸ hb, ?_⟩
  rcases hexp with hexp | ⟨hnum, -⟩
  · exact hexp ▸ he
  · exact hP.of_isNum hnum

/-- A product has the form if the powers that it is merged into have, and its node has. -/
theorem Form.productWith (hP : Form P)
    (hpower : ∀ p ∈ Term.mergedPowers (Term.factorsAll ts), Everywhere P (power p.1 p.2))
    (hnode : ∀ d, Reduced (.mul d (mergedFactors power ts)) → P (.mul d (mergedFactors power ts))) :
    Everywhere P (productWith power ts) := by
  have hall : ∀ g ∈ mergedFactors power ts, g.isFactor = true ∧ Everywhere P g := fun g hg => by
    obtain ⟨p, hp, hgp⟩ := List.mem_flatMap.mp hg
    exact hP.parts (hpower p hp) g hgp
  rcases productWith_eq power ts with h0 | ⟨d, hd⟩
  · rw [h0]
    exact hP.everywhere_num 0
  rw [hd]
  generalize mergedFactors power ts = fs at hnode hall ⊢
  unfold ofFactors
  split
  · exact hP.everywhere_num 0
  rename_i hd0
  split
  · exact hP.everywhere_num d
  · rename_i f
    split
    · exact (hall f List.mem_cons_self).2
    · rename_i hd1
      have hreduced : Reduced (.mul d [f]) :=
        ⟨hd0, by simp, fun g hg => (hall g hg).1, fun h => absurd h hd1⟩
      exact everywhere_mul.mpr ⟨hnode d hreduced, fun g hg => (hall g hg).2⟩
  · rename_i hne hsingle
    have hreduced : Reduced (.mul d fs) := by
      refine ⟨hd0, fun hnil => hne hnil, fun g hg => (hall g hg).1, fun _ hlen => ?_⟩
      obtain ⟨f, hf⟩ := List.length_eq_one_iff.mp hlen
      exact hsingle f hf
    exact everywhere_mul.mpr ⟨hnode d hreduced, fun g hg => (hall g hg).2⟩

/-! ## The form of reduced terms -/

mutual

theorem Everywhere.canonical : ∀ {t : Term}, Everywhere Reduced t →
    Canonical (fun _ => True) (fun _ => True) t
  | .num q, _ => .num q
  | .const c, _ => .const c
  | .var _, _ => .var trivial
  | .func f _, h => .func f (Everywhere.canonicalAll (everywhere_func.mp h).2)
  | .apply _ _, h => .apply trivial (Everywhere.canonicalAll (everywhere_apply.mp h).2)
  | .add _, h => .add h.self.1 (Everywhere.canonicalAll (everywhere_add.mp h).2)
  | .mul c _, h => .mul c h.self.2.1 h.self.2.2.1 (Everywhere.canonicalAll (everywhere_mul.mp h).2) h.self.2.2.2
  | .pow _ _, h => .pow (Everywhere.canonical (everywhere_pow.mp h).2.1)
      (Everywhere.canonical (everywhere_pow.mp h).2.2)

theorem Everywhere.canonicalAll : ∀ {ts : List Term}, (∀ t ∈ ts, Everywhere Reduced t) →
    ∀ t ∈ ts, Canonical (fun _ => True) (fun _ => True) t
  | [], _, _, ht => absurd ht List.not_mem_nil
  | u :: us, h, t, ht => by
      rcases List.mem_cons.mp ht with ht | ht
      · exact ht ▸ Everywhere.canonical (h u List.mem_cons_self)
      · exact Everywhere.canonicalAll (fun w hw => h w (List.mem_cons_of_mem _ hw)) t ht

end

end Closure

/-! ## Powers -/

section Powers

variable {P : Term → Prop} {t b e : Term} {ts fs : List Term}

/-- What one step of a power by a number can be, and what holds of the power if it is kept. -/
inductive ReducedStep (power : Term → Term → Term) : Term → Rat → Term → Prop
  | number (b : Term) (e q : Rat) : ReducedStep power b e (.num q)
  | one (b : Term) : ReducedStep power b 1 b
  | nested {b : Term} {i e : Rat} (he : e.den = 1) :
    ReducedStep power (.pow b (.num i)) e (power b (.num (i * e)))
  | spread {c e : Rat} {fs : List Term} (he : e.den = 1) (h0 : e ≠ 0) (h1 : e ≠ 1) :
    ReducedStep power (.mul c fs) e (productWith power (spreadPowers power c e fs))
  | kept {b : Term} {e : Rat} (h : Reduced (.pow b (.num e))) :
    ReducedStep power b e (.pow b (.num e))

theorem reducedStep (power : Term → Term → Term) (b : Term) (e : Rat) :
    ReducedStep power b e (powerWith power b (.num e)) := by
  by_cases h0 : e = 0
  · have hzero : powerWith power b (.num e) = .num 1 := by
      unfold powerWith
      exact if_pos h0
    exact hzero ▸ .number b e 1
  by_cases h1 : e = 1
  · have hone : powerWith power b (.num e) = b := by
      unfold powerWith
      exact (if_neg h0).trans (if_pos h1)
    rw [hone, h1]
    exact .one b
  cases hfold : foldedPower? b (.num e) with
  | some q =>
    have hnum : powerWith power b (.num e) = .num q := by
      cases b with
      | num a =>
        have hq : numberPower? a e = some q := hfold
        unfold powerWith
        simp only [h0, h1, if_false, hq]
      | _ => cases hfold
    exact hnum ▸ .number b e q
  | none =>
    have hstep := powerStep power b e
    generalize powerWith power b (.num e) = u at hstep ⊢
    cases hstep with
    | zero => exact absurd rfl h0
    | one => exact absurd rfl h1
    | exact h =>
      have hnone : numberPower? _ e = none := hfold
      rw [hnone] at h
      cases h
    | nested he => exact .nested he
    | spread he => exact .spread he h0 h1
    | kept h =>
      refine .kept ⟨fun heq => h0 (Term.num.inj heq), fun heq => h1 (Term.num.inj heq), fun hint => ?_, hfold⟩
      exact h (by simpa [isInteger] using hint)

theorem reduced_pow_of_not_isNum (b : Term) (h : e.isNum = false) : Reduced (.pow b e) := by
  cases e with
  | num q => cases h
  | _ => exact ⟨nofun, nofun, nofun, by cases b <;> rfl⟩

/-- A power of a coefficient that is not expanded is none that can be. -/
theorem Form.coefficientPower (hP : Form P) {e : Rat} (he : e.den = 1) (h0 : e ≠ 0) (h1 : e ≠ 1) (c : Rat) :
    Everywhere P (coefficientPower c e) := by
  unfold Term.coefficientPower
  split
  · exact hP.everywhere_num _
  · rename_i hnone
    have hfold : numberPower? c e = none := by
      unfold numberPower?
      split
      · rfl
      · split
        · rfl
        · rename_i hfits
          have hfits : Exact.fitsInt32 e.num = true := by
            simp only [Bool.not_eq_true', Bool.not_eq_false, Bool.and_eq_true] at hfits
            exact hfits.1
          have hint : Exact.toInt32? e = some e.num := by simp [Exact.toInt32?, he, hfits]
          rw [hint] at hnone
          rw [he]
          exact hnone
    have hreduced : Reduced (.pow (.num c) (.num e)) :=
      ⟨fun heq => h0 (Term.num.inj heq), fun heq => h1 (Term.num.inj heq), fun _ => rfl, hfold⟩
    exact hP.everywhere_pow hreduced (hP.everywhere_num c) (hP.everywhere_num e)

/-- Bases over which integer powers are distributed in the form. -/
structure Spreading (P S : Term → Prop) : Prop where
  nested : ∀ b i, S (.pow b (.num i)) → S b
  factor : ∀ c fs, S (.mul c fs) → ∀ f ∈ fs, S f
  merged : ∀ n c e fs, S (.mul c fs) → Everywhere P (.mul c fs) → e.den = 1 → weightAll fs ≤ n →
    ∀ p ∈ mergedPowers (factorsAll (spreadPowers (powerWithin n) c e fs)), p.2.isInteger = true → S p.1
  node : ∀ n c e fs, S (.mul c fs) → Everywhere P (.mul c fs) → e.den = 1 → weightAll fs ≤ n → ∀ d,
    let gs := mergedFactors (powerWithin n) (spreadPowers (powerWithin n) c e fs)
    Reduced (.mul d gs) → P (.mul d gs)

/-- Powers have the form if integer ones are of such bases and there is enough room for the steps. -/
theorem Form.powerWithin {S : Term → Prop} (hP : Form P) (hS : Spreading P S) :
    ∀ (n : Nat) (b e : Term), b.weight ≤ n → Everywhere P b → Everywhere P e →
      (e.isInteger = true → S b) → Everywhere P (powerWithin n b e)
  | 0, b, _, hn, _, _, _ => absurd ((one_le_weight b).trans hn) (by omega)
  | n + 1, b, e, hn, hb, he, hspread => by
    change Everywhere P (powerWith (Term.powerWithin n) b e)
    by_cases hnum : e.isNum = true
    · obtain ⟨q, rfl⟩ := isNum_iff.mp hnum
      have hint : q.den = 1 → (Term.num q).isInteger = true := fun h => by simp [isInteger, h]
      have hstep := reducedStep (Term.powerWithin n) b q
      generalize powerWith (Term.powerWithin n) b (.num q) = u at hstep ⊢
      cases hstep with
      | number => exact hP.everywhere_num _
      | one => exact hb
      | @nested b i _ hden =>
        obtain ⟨-, hb, -⟩ := Term.everywhere_pow.mp hb
        rw [weight] at hn
        exact hP.powerWithin hS n b _ (by omega) hb (hP.everywhere_num _) fun _ =>
          hS.nested b i (hspread (hint hden))
      | @spread c _ fs hden h0 h1 =>
        have hbase := hspread (hint hden)
        obtain ⟨-, hfs⟩ := hP.of_mul hb
        rw [weight] at hn
        have hts : ∀ t ∈ spreadPowers (Term.powerWithin n) c q fs, Everywhere P t := fun t ht => by
          rcases List.mem_cons.mp ht with rfl | ht
          · exact hP.coefficientPower hden h0 h1 c
          · obtain ⟨f, hf, rfl⟩ := List.mem_map.mp ht
            have hw := weight_le_weightAll hf
            exact hP.powerWithin hS n f _ (by omega) (hfs f hf).2 he fun _ => hS.factor c fs hbase f hf
        refine hP.productWith (fun p hp => ?_) (hS.node n c q fs hbase hb hden (by omega))
        obtain ⟨hp1, hp2⟩ := hP.mergedPowers hts hp
        have hw := (light_powerWithin n).weight_merged_lt hp
        rw [weight] at hw
        exact hP.powerWithin hS n p.1 p.2 (by omega) hp1 hp2 (hS.merged n c q fs hbase hb hden (by omega) p hp)
      | kept h => exact hP.everywhere_pow h hb he
    · have hnum : e.isNum = false := by simpa using hnum
      rw [powerWith_of_not_isNum _ b hnum]
      exact hP.everywhere_pow (reduced_pow_of_not_isNum b hnum) hb he

theorem Form.power {S : Term → Prop} (hP : Form P) (hS : Spreading P S) (hb : Everywhere P b)
    (he : Everywhere P e) (hspread : e.isInteger = true → S b) : Everywhere P (power b e) :=
  hP.powerWithin hS b.weight b e (Nat.le_refl _) hb he hspread

/-! ## Reduced terms -/

theorem spreading_reduced : Spreading Reduced fun _ => True where
  nested _ _ _ := trivial
  factor _ _ _ _ _ := trivial
  merged _ _ _ _ _ _ _ _ _ _ _ := trivial
  node _ _ _ _ _ _ _ _ _ h := h

theorem everywhere_reduced_power (hb : Everywhere Reduced b) (he : Everywhere Reduced e) :
    Everywhere Reduced (Term.power b e) :=
  form_reduced.power spreading_reduced hb he fun _ => trivial

theorem everywhere_reduced_product (hts : ∀ t ∈ ts, Everywhere Reduced t) :
    Everywhere Reduced (product ts) :=
  form_reduced.productWith (fun p hp => by
    obtain ⟨hb, he⟩ := form_reduced.mergedPowers hts hp
    exact everywhere_reduced_power hb he) fun _ h => h

theorem everywhere_reduced_scale (h : Everywhere Reduced t) (c : Rat) :
    Everywhere Reduced (product [.num c, t]) :=
  everywhere_reduced_product (by simpa using ⟨form_reduced.everywhere_num c, h⟩)

theorem everywhere_reduced_negated (h : Everywhere Reduced t) : Everywhere Reduced t.negated :=
  everywhere_reduced_scale h (-1)

theorem everywhere_reduced_difference (hb : Everywhere Reduced b) (he : Everywhere Reduced e) :
    Everywhere Reduced (difference b e) :=
  everywhere_reduced_sum (by simpa using ⟨hb, everywhere_reduced_negated he⟩)

theorem everywhere_reduced_quotient (hb : Everywhere Reduced b) (he : Everywhere Reduced e) :
    Everywhere Reduced (quotient b e) :=
  everywhere_reduced_product
    (by simpa using ⟨hb, everywhere_reduced_power he (form_reduced.everywhere_num (-1))⟩)

end Powers

end Formulary.Term
