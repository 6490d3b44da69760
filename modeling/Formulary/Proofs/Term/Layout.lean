import Formulary.Proofs.Term.Canonical
import Formulary.Proofs.Term.Printing
import Mathlib.Data.List.Perm.Basic

/-!
Layouts of canonical terms.

The layout of a canonical term is well-formed, whatever depth it is taken to. What the form gives is
that a sum has two terms, that a product has more than one factor or a coefficient, and that no
factor is laid out like a product unless it goes below the bar.
-/

namespace Formulary.Term

variable {P Q : String → Prop} {t f u : Term} {ts fs : List Term} {n : Nat}

/-! ## Terms and factors as they are set -/

/-- Without a denominator every factor is above the bar. -/
theorem length_numerators (h : denominators fs = []) : (numerators fs).length = fs.length := by
  have hall : ∀ f ∈ fs, (denominator? f).isNone = true := by
    intro f hf
    rw [Option.isNone_iff_eq_none]
    exact List.filterMap_eq_nil_iff.mp h f hf
  rw [(numerators_perm fs).length_eq, List.filter_eq_self.mpr hall]

theorem Canonical.denominator (hf : Canonical P Q f) (h : denominator? f = some u) :
    Canonical P Q u := by
  obtain ⟨b, e, rfl, -, rfl⟩ := denominator?_eq_some.mp h
  cases hf with
  | pow hb _ => exact hb.power (.num (-e))

/-! ## Well-formed layouts -/

/-- A factor that stays above the bar is not laid out like a product. -/
theorem binding_factor (hf : f.isFactor) (h : denominator? f = none) :
    (layoutWithin n f).binding ≠ .product := by
  cases n with
  | zero => simp [layoutWithin, Layout.binding]
  | succ n =>
    cases f with
    | num q => cases hf
    | mul c fs => cases hf
    | add ts =>
      rw [layoutWithin]
      split <;> simp [Layout.binding]
    | pow b e =>
      rw [layoutWithin, h]
      split <;> simp [Layout.binding]
    | _ => simp [layoutWithin, Layout.binding]

/-- A coefficient with the parts of one is one. -/
theorem eq_one_of_parts {c : Rat} (hsign : ¬ c < 0) (htop : c.num.natAbs = 1) (hbottom : c.den = 1) :
    c = 1 := by
  have hnum : 0 ≤ c.num := Rat.num_nonneg.mpr (Rat.not_lt.mp hsign)
  have hone : c.num = 1 := by omega
  exact Rat.ext hone hbottom

/-- Laying a canonical term out goes into canonical terms. -/
theorem LaysOut.canonical (h : LaysOut t u) (ht : Canonical P Q t) : Canonical P Q u := by
  cases h with
  | argument h => cases ht with | func _ hts => exact hts u h
  | applied h => cases ht with | apply _ hts => exact hts u h
  | addend h => cases ht with | add _ hts => exact hts u h
  | subtracted h => cases ht with | add _ hts => exact (hts _ h).negated
  | factor h => cases ht with | mul _ _ _ hfs _ => exact hfs u h
  | divisor h hu => cases ht with | mul _ _ _ hfs _ => exact (hfs _ h).denominator hu
  | base => cases ht with | pow hb _ => exact hb
  | exponent => cases ht with | pow _ he => exact he
  | inverse hu => exact ht.denominator hu

theorem wellFormedAll_map (h : ∀ u ∈ ts, (layoutWithin n u).WellFormed) :
    Layout.WellFormedAll (ts.map (layoutWithin n)) := by
  refine Layout.wellFormedAll_iff.mpr fun l hl => ?_
  obtain ⟨u, hu, rfl⟩ := List.mem_map.mp hl
  exact h u hu

/-- The terms of a sum are set with their signs, those that subtract as what they take away. -/
theorem wellFormed_layout_add (hlen : 2 ≤ ts.length)
    (ih : ∀ u, LaysOut (.add ts) u → (layoutWithin n u).WellFormed) :
    (layoutWithin (n + 1) (.add ts)).WellFormed := by
  have hperm := numbersLast_perm ts
  obtain ⟨a, b, rest, hset⟩ : ∃ a b rest, numbersLast ts = a :: b :: rest := by
    match hnl : numbersLast ts with
    | a :: b :: rest => exact ⟨a, b, rest, rfl⟩
    | [a] => simp [← hperm.length_eq, hnl] at hlen
    | [] => simp [← hperm.length_eq, hnl] at hlen
  have hmem : ∀ u ∈ a :: b :: rest, u ∈ ts := fun u hu => hperm.mem_iff.mp (hset ▸ hu)
  rw [layoutWithin, hset]
  refine ⟨⟨_, _, _, rfl⟩, Layout.wellFormedTerms_iff.mpr ?_⟩
  intro p hp
  rcases List.mem_cons.mp hp with rfl | hp
  · exact ih a (.addend (hmem a List.mem_cons_self))
  · obtain ⟨u, hu, rfl⟩ := List.mem_map.mp hp
    have hu := hmem u (List.mem_cons_of_mem _ hu)
    split
    · rename_i hsub
      exact ih _ (.subtracted hu hsub)
    · exact ih u (.addend hu)

/-- The factors of a product are set above the bar or below it. -/
theorem wellFormed_layout_mul {c : Rat} (hfactor : ∀ f ∈ fs, f.isFactor)
    (hone : c = 1 → fs.length ≠ 1)
    (ih : ∀ u, LaysOut (.mul c fs) u → (layoutWithin n u).WellFormed) :
    (layoutWithin (n + 1) (.mul c fs)).WellFormed := by
  refine ⟨wellFormedAll_map fun f hmem => ih f (.factor (mem_numerators.mp hmem).1),
    wellFormedAll_map fun u hmem => ih u (.of_mem_denominators hmem), ?_, ?_⟩
  · intro l hl
    obtain ⟨f, hmem, rfl⟩ := List.mem_map.mp hl
    have habove := mem_numerators.mp hmem
    exact binding_factor (hfactor f habove.1) habove.2
  · intro hsign htop hbottom hbelow
    have hc := eq_one_of_parts (by simpa using hsign) htop hbottom
    rw [List.length_map, length_numerators (List.map_eq_nil_iff.mp hbelow)]
    exact hone hc

/-- A power is set as its base, as a quotient or with its exponent. -/
theorem wellFormed_layout_pow {b e : Term}
    (ih : ∀ u, LaysOut (.pow b e) u → (layoutWithin n u).WellFormed) :
    (layoutWithin (n + 1) (.pow b e)).WellFormed := by
  rw [layoutWithin]
  split
  · exact ih b (.base b e)
  · split
    · rename_i u hu
      exact ih u (.inverse hu)
    · exact ⟨ih b (.base b e), ih e (.exponent b e)⟩

/-- The layout of a canonical term is well-formed if its names are identifiers. -/
theorem wellFormed_layoutWithin (hP : ∀ x, P x → isIdentifier x.toList = true)
    (hQ : ∀ x, Q x → isIdentifier x.toList = true) :
    ∀ (n : Nat) (t : Term), Canonical P Q t → (layoutWithin n t).WellFormed
  | 0, _, _ => trivial
  | n + 1, t, h => by
    have ih : ∀ u, LaysOut t u → (layoutWithin n u).WellFormed := fun u hu =>
      wellFormed_layoutWithin hP hQ n u (hu.canonical h)
    cases h with
    | num q => trivial
    | const c => trivial
    | var hx => exact hP _ hx
    | func f _ => exact wellFormedAll_map fun u hu => ih u (.argument hu)
    | apply hn _ => exact ⟨hQ _ hn, wellFormedAll_map fun u hu => ih u (.applied hu)⟩
    | add hlen _ => exact wellFormed_layout_add hlen ih
    | mul _ _ hfactor _ hone => exact wellFormed_layout_mul hfactor hone ih
    | pow _ _ => exact wellFormed_layout_pow ih

end Formulary.Term
