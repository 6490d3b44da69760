import Formulary.Proofs.Term.Canonical
import Mathlib.Data.List.Basic
import Mathlib.Order.Nat

/-!
The weight of bases.

A power goes into a product and into a power, and the powers that a product is merged into go on with
bases that come from there. What falls on the way is the weight of the base: the factors of a power have
bases that weigh no more than the base of the power (`light_power`), however often they were merged and
distributed. So the bases by which the power of a product is merged weigh less than the product
(`Light.weight_merged_lt`), and the number of nested steps that `power` allows for is never used up:
`power_eq` is its recursion without a bound.
-/

namespace Formulary.Term

variable {t u f g b e : Term} {ts fs : List Term} {p : Term × Term} {c d q : Rat} {n m : Nat}

/-- The weight of the base of a factor. -/
def baseWeight (t : Term) : Nat := (asPower t).1.weight

/-- What the power of a product is the product of: the powers of the coefficient and the factors. -/
def spreadPowers (power : Term → Term → Term) (c e : Rat) (fs : List Term) : List Term :=
  coefficientPower c e :: fs.map fun f => power f (.num e)

theorem isNum_iff {e : Term} : e.isNum ↔ ∃ q, e = .num q := by
  cases e <;> simp [isNum]

theorem one_le_weight (t : Term) : 1 ≤ t.weight := by
  cases t <;> simp [weight]

theorem weight_le_weightAll (h : t ∈ ts) : t.weight ≤ weightAll ts := by
  induction ts with
  | nil => cases h
  | cons u ts ih =>
    rw [weightAll]
    rcases List.mem_cons.mp h with rfl | h
    · omega
    · have := ih h
      omega

/-- A factor weighs less than the product. -/
theorem weight_factor_lt (h : f ∈ fs) (c : Rat) : f.weight < (mul c fs).weight := by
  have := weight_le_weightAll h
  rw [weight]
  omega

theorem baseWeight_le_weight (t : Term) : t.baseWeight ≤ t.weight := by
  cases t with
  | pow b e => exact Nat.le_succ _
  | _ => exact Nat.le_refl _

/-! ## Factors of products within products -/

theorem mem_factorsAll : f ∈ factorsAll ts ↔ ∃ t ∈ ts, f ∈ t.factors := by
  induction ts with
  | nil => simp [factorsAll]
  | cons t ts ih => simp [factorsAll, ih]

theorem mem_factors_of_parts (hu : u ∈ t.parts) (hg : g ∈ u.factors) : g ∈ t.factors := by
  cases t with
  | num q => cases hu
  | mul c fs => exact mem_factorsAll.mpr ⟨u, hu, hg⟩
  | _ => exact List.mem_singleton.mp hu ▸ hg

theorem mem_factors_ofFactors (h : g ∈ (ofFactors d fs).factors) : g ∈ factorsAll fs := by
  unfold ofFactors at h
  split at h
  · cases h
  · split at h
    · cases h
    · split at h
      · exact mem_factorsAll.mpr ⟨_, List.mem_singleton_self _, h⟩
      · exact h
    · exact h

/-- The factors of a canonical term are no products, so that none is taken apart. -/
theorem factors_eq_parts {P Q : String → Prop} (h : Canonical P Q t) : t.factors = t.parts := by
  have hall : ∀ {fs : List Term}, (∀ f ∈ fs, f.isFactor) → factorsAll fs = fs := by
    intro fs hfs
    induction fs with
    | nil => rfl
    | cons f fs ih =>
      rw [factorsAll, factors_of_isFactor (hfs f (by simp)), ih fun g hg => hfs g (by simp [hg])]
      rfl
  cases h with
  | num q => rfl
  | mul c hne hf h => exact hall hf
  | _ => rfl

mutual

theorem baseWeight_factors_le : ∀ {t : Term}, f ∈ t.factors → f.baseWeight ≤ t.weight
  | .num _, h => absurd h List.not_mem_nil
  | .mul _ _, h => Nat.le_add_right_of_le (baseWeight_factorsAll_le h)
  | .const _, h | .var _, h | .func _ _, h | .apply _ _, h | .add _, h | .pow _ _, h =>
    List.mem_singleton.mp h ▸ baseWeight_le_weight _

theorem baseWeight_factorsAll_le : ∀ {ts : List Term}, f ∈ factorsAll ts → f.baseWeight ≤ weightAll ts
  | [], h => absurd h List.not_mem_nil
  | t :: ts, h => by
      rw [weightAll]
      rcases List.mem_append.mp h with h | h
      · exact Nat.le_add_right_of_le (baseWeight_factors_le h)
      · exact Nat.le_add_left_of_le (baseWeight_factorsAll_le h)

end

/-- The bases that factors are merged by weigh no more than those of the factors. -/
theorem weight_merged_le (hm : ∀ f ∈ factorsAll ts, f.baseWeight ≤ m)
    (hp : p ∈ mergedPowers (factorsAll ts)) : p.1.weight ≤ m := by
  obtain ⟨f, hf, hbase, -⟩ := mem_mergedPowers hp
  exact hbase ▸ hm f hf

/-! ## Ways to form powers -/

section Ways

variable {power power' : Term → Term → Term}

/-- A way to form powers whose factors have bases that weigh no more than the base. -/
def Light (power : Term → Term → Term) : Prop :=
  ∀ b e, ∀ g ∈ (power b e).factors, g.baseWeight ≤ b.weight

theorem light_pow : Light .pow := fun _ _ _ hg => List.mem_singleton.mp hg ▸ Nat.le_refl _

/-- The factors of a product have bases that weigh no more than those they come from. -/
theorem Light.productWith (h : Light power) (hm : ∀ f ∈ factorsAll ts, f.baseWeight ≤ m) :
    ∀ g ∈ (productWith power ts).factors, g.baseWeight ≤ m := by
  intro g hg
  rcases productWith_eq power ts with h0 | ⟨d, hd⟩
  · rw [h0] at hg
    cases hg
  · rw [hd] at hg
    obtain ⟨u, hu, hgu⟩ := mem_factorsAll.mp (mem_factors_ofFactors hg)
    obtain ⟨p, hp, hup⟩ := List.mem_flatMap.mp hu
    exact (h _ _ g (mem_factors_of_parts hup hgu)).trans (weight_merged_le hm hp)

theorem Light.spreadPowers (h : Light power) (c q : Rat) (fs : List Term) :
    ∀ g ∈ factorsAll (spreadPowers power c q fs), g.baseWeight ≤ weightAll fs + 1 := by
  intro g hg
  obtain ⟨t, ht, hgt⟩ := mem_factorsAll.mp hg
  rcases List.mem_cons.mp ht with rfl | ht
  · have hone : g.baseWeight ≤ 1 := by
      unfold coefficientPower at hgt
      split at hgt
      · cases hgt
      · exact List.mem_singleton.mp hgt ▸ Nat.le_refl _
    omega
  · obtain ⟨f, hf, rfl⟩ := List.mem_map.mp ht
    exact ((h f _ g hgt).trans (weight_le_weightAll hf)).trans (Nat.le_succ _)

/-- The bases by which the power of a product is merged weigh less than the product. -/
theorem Light.weight_merged_lt (h : Light power)
    (hp : p ∈ mergedPowers (factorsAll (Term.spreadPowers power c q fs))) :
    p.1.weight < (mul c fs).weight :=
  Nat.lt_succ_of_le (weight_merged_le (h.spreadPowers c q fs) hp)

/-- One step of a power is light if the powers within it are. -/
theorem Light.powerWith (h : Light power) : Light (powerWith power) := by
  intro b e g hg
  by_cases hnum : e.isNum = true
  · obtain ⟨q, rfl⟩ := isNum_iff.mp hnum
    have hstep := powerStep power b q
    generalize Term.powerWith power b (.num q) = u at hstep hg
    cases hstep with
    | zero => cases hg
    | one => exact baseWeight_factors_le hg
    | exact => cases hg
    | nested => exact (h _ _ g hg).trans (Nat.le_succ _)
    | spread => exact (h.productWith (h.spreadPowers _ q _) g hg).trans (Nat.le_succ _)
    | kept => exact light_pow _ _ g hg
  · rw [powerWith_of_not_isNum power b (by simpa using hnum)] at hg
    exact light_pow _ _ g hg

/-- A product depends on the powers that it is merged into alone. -/
theorem productWith_congr
    (h : ∀ p ∈ mergedPowers (factorsAll ts), power p.1 p.2 = power' p.1 p.2) :
    productWith power ts = productWith power' ts := by
  unfold productWith
  dsimp only
  rw [List.foldl_ext _ _ _ fun acc p hp => by rw [h p hp]]

/-- One step of a power depends on the powers of lighter bases alone. -/
theorem powerWith_congr (hlight : Light power')
    (h : ∀ u x, u.weight < b.weight → power u x = power' u x) :
    powerWith power b e = powerWith power' b e := by
  unfold powerWith
  split
  · rename_i q
    split
    · rfl
    split
    · rfl
    split
    · rfl
    · split
      · exact h _ _ (Nat.lt_succ_self _)
      · rfl
    · rename_i c fs
      split
      · have hfs : fs.map (fun f => power f (.num q)) = fs.map fun f => power' f (.num q) :=
          List.map_congr_left fun f hf => h f _ (weight_factor_lt hf c)
        rw [hfs]
        exact productWith_congr fun p hp => h _ _ (hlight.weight_merged_lt hp)
      · rfl
    · rfl
  · rfl

end Ways

/-! ## The recursion of powers -/

theorem light_powerWithin : ∀ n, Light (powerWithin n)
  | 0 => light_pow
  | n + 1 => (light_powerWithin n).powerWith

theorem light_power : Light power := fun b e => light_powerWithin b.weight b e

theorem powerWithin_succ : ∀ (n : Nat) (b e : Term), b.weight ≤ n →
    powerWithin (n + 1) b e = powerWithin n b e
  | 0, b, _, hn => absurd ((one_le_weight b).trans hn) (by omega)
  | n + 1, b, e, hn => by
    change powerWith (powerWithin (n + 1)) b e = powerWith (powerWithin n) b e
    exact powerWith_congr (light_powerWithin n) fun u x hu => powerWithin_succ n u x (by omega)

/-- More steps than the weight of the base make no difference. -/
theorem powerWithin_of_le (h : b.weight ≤ n) : powerWithin n b e = power b e := by
  induction h with
  | refl => rfl
  | step hn ih => rw [powerWithin_succ _ b e hn, ih]

/-- A power is formed from powers of lighter bases, without a bound on the steps. -/
theorem power_eq (b e : Term) : power b e = powerWith power b e := by
  rw [← powerWithin_of_le (e := e) (Nat.le_succ b.weight)]
  exact powerWith_congr light_power fun u x hu => powerWithin_of_le (Nat.le_of_lt hu)

end Formulary.Term
