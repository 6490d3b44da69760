import Formulary.Proofs.Meaning.Exact
import Mathlib.Algebra.Order.Floor.Semifield
import Mathlib.Algebra.Order.Ring.Abs
import Mathlib.Data.Rat.Lemmas

/-!
Which exact roots are found.

The candidate for the root of a natural number is a double that is rounded, and a double has a
significand below `2^53`. So a root is found just if the candidates for its numerator and denominator
are right, and their powers may be expanded: this is so if the doubles are less than one half off, and
never if the numerator or the denominator is no double.
-/

namespace Formulary

namespace Double

variable {x : Float} {f : Finite} {y : Rat} {c : Nat}

/-- The value of a double that is an integer and not negative, but for the bound on the exponent. -/
def IsExact (c : Nat) : Prop := ∃ m k : Nat, m < 2 ^ 53 ∧ c = m * 2 ^ k

/-- All bits but the first 53 are zero. -/
theorem isExact_iff : IsExact c ↔ c % 2 ^ (c.log2 - 52) = 0 := by
  constructor
  · rintro ⟨m, k, hm, rfl⟩
    have hshort : (m * 2 ^ k).log2 - 52 ≤ k := by
      by_cases hzero : m * 2 ^ k = 0
      · simp [hzero]
      · have hlt : m * 2 ^ k < 2 ^ (53 + k) := by
          rw [pow_add]
          exact Nat.mul_lt_mul_of_pos_right hm (pow_pos two_pos k)
        have hlog := (Nat.log2_lt hzero).mpr hlt
        omega
    exact Nat.mod_eq_zero_of_dvd ((pow_dvd_pow 2 hshort).trans (Nat.dvd_mul_left _ _))
  · intro h
    refine ⟨c / 2 ^ (c.log2 - 52), c.log2 - 52, ?_, (Nat.div_mul_cancel (Nat.dvd_of_mod_eq_zero h)).symm⟩
    rw [Nat.div_lt_iff_lt_mul (pow_pos two_pos _), ← pow_add]
    by_cases hzero : c = 0
    · rw [hzero]
      exact pow_pos two_pos _
    · exact (Nat.log2_lt hzero).mp (by omega)

instance (c : Nat) : Decidable (IsExact c) := decidable_of_iff _ isExact_iff.symm

theorem significand_lt (h : finite? x = some f) : f.significand < 2 ^ 53 := by
  unfold finite? at h
  simp only at h
  split at h
  · cases h
  · cases h
    have hfraction : x.toBits.toNat % twoTo 52 < twoTo 52 := Nat.mod_lt _ (by decide)
    have htwo : twoTo 52 + twoTo 52 = 2 ^ 53 := by decide
    simp only
    split <;> omega

theorem ratio_pos (f : Finite) : 0 < f.ratio.2 := by
  unfold Finite.ratio
  split
  · exact one_pos
  · exact pow_pos two_pos _

theorem divHalfUp_eq {a b : Nat} (hb : 0 < b) : divHalfUp a b = ⌊(a : ℚ) / b + 1 / 2⌋₊ := by
  have hquotient : (a : ℚ) / b + 1 / 2 = ((2 * a + b : Nat) : ℚ) / ((2 * b : Nat) : ℚ) := by
    have hne : (b : ℚ) ≠ 0 := Nat.cast_ne_zero.mpr hb.ne'
    push_cast
    field_simp
  rw [hquotient, Nat.floor_div_eq_div, divHalfUp]

/-- Rounding adds one half and drops what is behind the point. -/
theorem roundToNat?_eq (x : Float) : roundToNat? x = (toRat? x).map fun y => ⌊y + 1 / 2⌋₊ := by
  unfold roundToNat? toRat?
  rw [Option.map_map]
  refine congrArg (Option.map · _) (funext fun f => ?_)
  have hratio : mkRat f.ratio.1 f.ratio.2 = (f.ratio.1 : ℚ) / f.ratio.2 := by
    rw [Rat.mkRat_eq_div, Int.cast_natCast]
  simp only [Function.comp_apply, hratio]
  split
  · have hnonneg : (0 : ℚ) ≤ (f.ratio.1 : ℚ) / f.ratio.2 := by positivity
    exact (Nat.floor_eq_zero.mpr (by linarith)).symm
  · exact divHalfUp_eq (ratio_pos f)

theorem roundToNat?_of_near (hx : toRat? x = some y) (hnear : |y - c| < 1 / 2) : roundToNat? x = some c := by
  rw [abs_lt] at hnear
  have hnonneg : (0 : ℚ) ≤ c := Nat.cast_nonneg c
  have hfloor : ⌊y + 1 / 2⌋₊ = c := (Nat.floor_eq_iff (by linarith)).mpr ⟨by linarith, by linarith⟩
  rw [roundToNat?_eq, hx, Option.map_some, hfloor]

/-- A rounded double is a double. -/
theorem isExact_of_roundToNat? (h : roundToNat? x = some c) : IsExact c := by
  obtain ⟨f, hf, heq⟩ := Option.map_eq_some_iff.mp h
  have hm := significand_lt hf
  simp only at heq
  split at heq
  · exact ⟨0, 0, by decide, heq.symm⟩
  have heq : divHalfUp f.ratio.1 f.ratio.2 = c := heq
  by_cases hexponent : 0 ≤ f.exponent
  · have hratio : f.ratio = (f.significand * 2 ^ f.exponent.toNat, 1) := if_pos hexponent
    simp only [hratio, divHalfUp] at heq
    exact ⟨f.significand, f.exponent.toNat, hm, by omega⟩
  · obtain ⟨k, hk⟩ : ∃ k, (-f.exponent).toNat = k + 1 := ⟨(-f.exponent).toNat - 1, by omega⟩
    have hratio : f.ratio = (f.significand, 2 ^ (k + 1)) := hk ▸ if_neg hexponent
    have htwo : 0 < 2 ^ k := pow_pos two_pos k
    simp only [hratio, divHalfUp, pow_succ] at heq
    refine ⟨c, 0, ?_, by omega⟩
    rw [← heq, Nat.div_lt_iff_lt_mul (by omega)]
    omega

end Double

namespace Exact

variable {c v n : Nat} {q r : Rat}

/-- Where the root of a natural number is looked for. -/
def candidate? (v n : Nat) : Option Nat :=
  Double.roundToNat? (Float.pow (Double.ofRat v) (1.0 / n.toFloat))

/-- The power that a candidate is checked by is expanded. Zero is raised to the degree as a signed 32-bit
integer, which must not be negative. -/
def Expanded (c n : Nat) : Prop := n ≤ exponentLimit ∨ c = 1 ∨ c = 0 ∧ n < 2147483648

instance (c n : Nat) : Decidable (Expanded c n) := inferInstanceAs (Decidable (_ ∨ _ ∨ _ ∧ _))

/-- The number is found as the root of its power. -/
structure Reached (c n : Nat) : Prop where
  candidate : candidate? (c ^ n) n = some c
  expanded : Expanded c n

/-- The double that the root of the power is looked for at is less than one half off. -/
def Near (c n : Nat) : Prop :=
  ∃ y, Double.toRat? (Float.pow (Double.ofRat (c ^ n : Nat)) (1.0 / n.toFloat)) = some y ∧
    |y - c| < 1 / 2

theorem Near.reached (h : Near c n) (hexpanded : Expanded c n) : Reached c n := by
  obtain ⟨y, hy, hnear⟩ := h
  exact ⟨Double.roundToNat?_of_near hy hnear, hexpanded⟩

theorem Reached.isExact (h : Reached c n) : Double.IsExact c := Double.isExact_of_roundToNat? h.candidate

/-! ## Natural numbers -/

theorem isTrivialBase_natCast : isTrivialBase c = true ↔ c = 0 ∨ c = 1 := by
  have hneg : (c : ℚ) ≠ -1 := fun h => by
    have hnonneg : (0 : ℚ) ≤ c := Nat.cast_nonneg c
    rw [h] at hnonneg
    exact absurd hnonneg (by decide)
  simp [isTrivialBase, hneg]

/-- The check that a candidate passes. -/
theorem power_natCast_iff {n : Int} : power c n = .ok v ↔ (c : ℚ) ^ n = v ∧ (c ≠ 0 ∨ 0 ≤ n) ∧
    (n.natAbs ≤ exponentLimit ∨ c = 0 ∨ c = 1) := by
  constructor
  · intro h
    obtain ⟨heq, hdefined⟩ := power_eq_ok h
    refine ⟨heq.symm, by simpa using hdefined, ?_⟩
    by_contra hlimit
    rw [not_or, not_le, ← isTrivialBase_natCast] at hlimit
    rw [power, if_pos (by simp [hlimit])] at h
    cases h
  · rintro ⟨heq, hdefined, hlimit⟩
    have hsmall : ¬ (decide (exponentLimit < n.natAbs) && !isTrivialBase c) = true := by
      rw [Bool.and_eq_true, decide_eq_true_iff, Bool.not_eq_true', not_and, Bool.not_eq_false,
        isTrivialBase_natCast]
      exact fun hbig => hlimit.resolve_left hbig.not_ge
    rw [power, if_neg hsmall]
    split
    · rename_i hneg
      have hc : (c : ℚ) ≠ 0 := by
        rw [Nat.cast_ne_zero]
        exact hdefined.resolve_right (by omega)
      obtain ⟨k, rfl⟩ : ∃ k : ℕ, n = -(k : ℤ) := ⟨n.natAbs, by omega⟩
      rw [reciprocal, divide, if_neg (pow_ne_zero _ hc), ← heq]
      simp
    · obtain ⟨k, rfl⟩ : ∃ k : ℕ, n = (k : ℤ) := ⟨n.natAbs, by omega⟩
      rw [← heq]
      simp

/-- A degree beyond the signed range is read as a negative one. -/
theorem bmod_of_le (hn : 2147483648 ≤ n) (hword : n < 4294967296) :
    Int.bmod n 4294967296 = n - 4294967296 := by
  have h : (n : Int) % ((4294967296 : Nat) : Int) = n := Int.emod_eq_of_lt (by omega) (by omega)
  rw [Int.bmod_def, h, if_neg (by omega)]
  rfl

/-- The reciprocal of a power is a natural number just for one. -/
theorem eq_one_of_zpow_neg {k : Nat} (hc : c ≠ 0) (h : (c : ℚ) ^ (-((k + 1 : ℕ) : ℤ)) = v) :
    c = 1 ∧ v = 1 := by
  have hprod : v * c ^ (k + 1) = 1 := by
    rw [zpow_neg, zpow_natCast] at h
    have hpow : (c : ℚ) ^ (k + 1) ≠ 0 := pow_ne_zero _ (Nat.cast_ne_zero.mpr hc)
    have hprod : (v : ℚ) * (c : ℚ) ^ (k + 1) = 1 := by rw [← h, inv_mul_cancel₀ hpow]
    exact_mod_cast hprod
  have hpow : c ^ (k + 1) = 1 := Nat.eq_one_of_mul_eq_one_left hprod
  exact ⟨(Nat.pow_eq_one.mp hpow).resolve_right (by omega), Nat.eq_one_of_mul_eq_one_right hprod⟩

/-- A candidate passes the check just if its power is the number, and that power is expanded. -/
theorem check_iff (hn : 1 ≤ n) (hword : n < 4294967296) :
    power c (Int.bmod n 4294967296) = .ok v ↔ c ^ n = v ∧ Expanded c n := by
  rw [power_natCast_iff]
  rcases Nat.lt_or_ge n 2147483648 with hlt | hge
  · have hfits : fitsInt32 n = true := by
      simp only [fitsInt32, Bool.and_eq_true, decide_eq_true_eq]
      omega
    rw [bmod_of_fitsInt32 hfits, zpow_natCast, Int.natAbs_natCast, ← Nat.cast_pow, Nat.cast_inj, Expanded]
    refine and_congr_right fun _ => ?_
    omega
  · have hlimit : ¬ n ≤ exponentLimit := by
      rw [exponentLimit]
      omega
    have hone : Expanded c n ↔ c = 1 := by
      rw [Expanded]
      omega
    rw [hone, bmod_of_le hge hword]
    constructor
    · rintro ⟨heq, hdefined, -⟩
      have hc : c ≠ 0 := hdefined.resolve_right (by omega)
      obtain ⟨k, hk⟩ : ∃ k : ℕ, (n : ℤ) - 4294967296 = -((k + 1 : ℕ) : ℤ) :=
        ⟨4294967296 - n - 1, by omega⟩
      obtain ⟨rfl, rfl⟩ := eq_one_of_zpow_neg hc (hk ▸ heq)
      exact ⟨one_pow n, rfl⟩
    · rintro ⟨heq, rfl⟩
      rw [one_pow] at heq
      subst heq
      simp

/-- The root of a natural number is found just if it is the candidate and its power is expanded. -/
theorem integerRoot?_iff (hn : 1 ≤ n) (hword : n < 4294967296) :
    integerRoot? v n = some c ↔ c ^ n = v ∧ Reached c n := by
  have hcheck : integerRoot? v n = some c ↔
      candidate? v n = some c ∧ power c (Int.bmod n 4294967296) = .ok v := by
    unfold integerRoot? candidate?
    obtain ⟨m, hm⟩ : ∃ m, Int.bmod n 4294967296 = m := ⟨_, rfl⟩
    obtain ⟨o, ho⟩ : ∃ o, Double.roundToNat? (Float.pow (Double.ofRat v) (1.0 / n.toFloat)) = o :=
      ⟨_, rfl⟩
    rw [hm]
    simp only [ho]
    constructor
    · intro h
      split at h
      · cases h
      · split at h
        · rename_i p hp
          split at h
          · rename_i hpv
            obtain rfl := Option.some.inj h
            exact ⟨rfl, hpv ▸ hp⟩
          · cases h
        · cases h
    · rintro ⟨rfl, hpower⟩
      simp only [hpower, if_true]
  rw [hcheck, check_iff hn hword]
  constructor
  · rintro ⟨hcandidate, rfl, hexpanded⟩
    exact ⟨rfl, hcandidate, hexpanded⟩
  · rintro ⟨rfl, hreached⟩
    exact ⟨hreached.candidate, rfl, hreached.expanded⟩

/-! ## Rationals -/

/-- Numerator and denominator are found as roots of their powers. -/
def PartsReached (r : Rat) (n : Nat) : Prop := Reached r.num.natAbs n ∧ Reached r.den n

theorem parts_of_coprime {a b : Nat} (hcoprime : a.Coprime b) (hb : b ≠ 0) :
    ((a : ℚ) / b).num = a ∧ ((a : ℚ) / b).den = b := by
  have hpos : (0 : ℤ) < b := by exact_mod_cast Nat.pos_of_ne_zero hb
  have hcoprime : (a : ℤ).natAbs.Coprime (b : ℤ).natAbs := by simpa using hcoprime
  exact ⟨Rat.num_div_eq_of_coprime hpos hcoprime, Int.ofNat.inj (Rat.den_div_eq_of_coprime hpos hcoprime)⟩

/-- Roots of the numerator and the denominator have no common factor either. -/
theorem coprime_of_pow {a b : Nat} (hn : n ≠ 0) (ha : a ^ n = q.num.natAbs) (hb : b ^ n = q.den) :
    a.Coprime b := by
  have hreduced := q.reduced
  rw [← ha, ← hb, Nat.coprime_pow_left_iff (Nat.pos_of_ne_zero hn),
    Nat.coprime_pow_right_iff (Nat.pos_of_ne_zero hn)] at hreduced
  exact hreduced

/-- A root that is found has the parts that are found. -/
theorem partsReached_of_root? (hn : 2 ≤ n) (hword : n < 4294967296) (h : root? q n = some r) :
    r ^ n = q ∧ (Even n → 0 ≤ r) ∧ PartsReached r n := by
  obtain ⟨hodd, a, b, ha, hb, hb0, rfl⟩ := (root?_eq_some hn).mp h
  obtain ⟨hnum, ha⟩ := (integerRoot?_iff (by omega) hword).mp ha
  obtain ⟨hden, hb⟩ := (integerRoot?_iff (by omega) hword).mp hb
  obtain ⟨hxnum, hxden⟩ := parts_of_coprime (coprime_of_pow (by omega) hnum hden) hb0
  refine ⟨signed_pow hodd (div_pow_eq_abs hnum hden), fun heven => ?_, ?_⟩
  · have hq : ¬ q < 0 := fun hq => by
      have hone := hodd hq
      rw [Nat.even_iff] at heven
      omega
    rw [if_neg hq]
    positivity
  · split
    · rw [PartsReached, Rat.num_neg_eq_neg_num, Rat.den_neg_eq_den, hxnum, hxden]
      exact ⟨by simpa using ha, hb⟩
    · rw [PartsReached, hxnum, hxden]
      exact ⟨by simpa using ha, hb⟩

/-- A number whose parts are found is found as the root of its power. -/
theorem PartsReached.root? (h : PartsReached r n) (hn : 2 ≤ n) (hword : n < 4294967296)
    (hsign : Even n → 0 ≤ r) : root? (r ^ n) n = some r := by
  have hnum : integerRoot? (r ^ n).num.natAbs n = some r.num.natAbs := by
    rw [integerRoot?_iff (by omega) hword, Rat.num_pow, Int.natAbs_pow]
    exact ⟨rfl, h.1⟩
  have hden : integerRoot? (r ^ n).den n = some r.den := by
    rw [integerRoot?_iff (by omega) hword, Rat.den_pow]
    exact ⟨rfl, h.2⟩
  refine (root?_eq_some hn).mpr ⟨fun hneg => ?_, _, _, hnum, hden, r.den_nz, ?_⟩
  · by_contra hodd
    have heven : Even n := Nat.even_iff.mpr (by omega)
    exact absurd (pow_nonneg (hsign heven) n) (not_le.mpr hneg)
  · rw [natAbs_num_div_den]
    rcases Nat.even_or_odd n with heven | hodd
    · rw [if_neg (not_lt.mpr (pow_nonneg (hsign heven) n)), abs_of_nonneg (hsign heven)]
    · rcases lt_or_ge r 0 with hneg | hpos
      · rw [if_pos (hodd.pow_neg_iff.mpr hneg), abs_of_neg hneg, neg_neg]
      · rw [if_neg (not_lt.mpr (pow_nonneg hpos n)), abs_of_nonneg hpos]

/-- Which roots are found: those whose numerator and denominator are found, and no others. -/
theorem root?_eq_some_iff (hn : 1 ≤ n) (hword : n < 4294967296) :
    root? q n = some r ↔ r ^ n = q ∧ (Even n → 0 ≤ r) ∧ (n = 1 ∨ PartsReached r n) := by
  rcases Nat.eq_or_lt_of_le hn with rfl | hn
  · simp [root?, eq_comm]
  constructor
  · intro h
    obtain ⟨hpow, hsign, hparts⟩ := partsReached_of_root? hn hword h
    exact ⟨hpow, hsign, .inr hparts⟩
  · rintro ⟨rfl, hsign, hparts⟩
    exact (hparts.resolve_left (by omega)).root? hn hword hsign

/-- Roots of the same number with the same sign have the same parts. -/
theorem root?_pow_eq_none (hn : 2 ≤ n) (hword : n < 4294967296) (h : ¬ PartsReached r n) :
    root? (r ^ n) n = none := by
  cases hroot : root? (r ^ n) n with
  | none => rfl
  | some x =>
    obtain ⟨hpow, -, hparts⟩ := partsReached_of_root? hn hword hroot
    have habs : |x| = |r| := by
      refine (pow_left_inj₀ (abs_nonneg x) (abs_nonneg r) (by omega : n ≠ 0)).mp ?_
      rw [← abs_pow, ← abs_pow, hpow]
    have hnum : x.num.natAbs = r.num.natAbs := by
      have hparts := congrArg (fun y : ℚ => y.num.natAbs) habs
      simpa [Rat.num_abs_eq_abs_num, Int.natAbs_abs] using hparts
    have hden : x.den = r.den := by
      have hparts := congrArg Rat.den habs
      simpa [Rat.den_abs_eq_den] using hparts
    rw [PartsReached, hnum, hden] at hparts
    exact absurd hparts h

end Exact

end Formulary
