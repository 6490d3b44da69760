import Formulary.Exact.Decimal
import Formulary.Proofs.Text.Blank
import Formulary.Proofs.Text.Cut
import Mathlib.Algebra.Order.Field.Rat
import Mathlib.Tactic.NormNum
import Mathlib.Tactic.Tauto

/-!
Literals and decimals, and that decimals are just what is read as one.

`Literal` is the notation of numbers in expressions, with the exact value: it does not mention the
reader. The reader cuts at the first exponent mark, then at the first point; a literal has one of
each at most, so that it is cut into the parts that it is made of. A decimal may have a sign, which
stays with the mantissa when the exponent is cut off; where a literal can start, there is none. In
particular natural numbers are read back from their digits.
-/

namespace Formulary.Exact

variable {s t : List Char} {n : Nat}

/-! ## The notation -/

/-- Digits with at most one point and at least one digit: the number that the digits make, and how
many of them follow the point. -/
inductive Mantissa : List Char → Nat → Nat → Prop where
  | whole {s : List Char} (hne : s ≠ []) (hs : ∀ d ∈ s, d.isDigit = true) :
    Mantissa s (digitsValue s) 0
  | point {s t : List Char} (hne : s ++ t ≠ []) (hs : ∀ d ∈ s ++ t, d.isDigit = true) :
    Mantissa (s ++ '.' :: t) (digitsValue (s ++ t)) t.length

/-- An optional sign and at least one digit, with their value. -/
inductive SignedDigits : List Char → Int → Prop where
  | plain {s : List Char} (hne : s ≠ []) (hs : ∀ d ∈ s, d.isDigit = true) :
    SignedDigits s (digitsValue s)
  | plus {s : List Char} (hne : s ≠ []) (hs : ∀ d ∈ s, d.isDigit = true) :
    SignedDigits ('+' :: s) (digitsValue s)
  | minus {s : List Char} (hne : s ≠ []) (hs : ∀ d ∈ s, d.isDigit = true) :
    SignedDigits ('-' :: s) (-(digitsValue s : Int))

/-- An exponent with its value: nothing, or a mark with a signed number right after it. -/
inductive ExponentPart : List Char → Int → Prop where
  | absent : ExponentPart [] 0
  | marked {c : Char} {s : List Char} {z : Int} (hc : c = 'e' ∨ c = 'E') (hs : SignedDigits s z) :
    ExponentPart (c :: s) z

/-- A mantissa and an exponent: the number of the digits, how many of them follow the point, and the
exponent. -/
inductive Numeral : List Char → Nat → Nat → Int → Prop where
  | mk {s t : List Char} {n places : Nat} {z : Int} (hs : Mantissa s n places)
    (ht : ExponentPart t z) : Numeral (s ++ t) n places z

/-- The range of a signed 64-bit integer. -/
def FitsInt64 (z : Int) : Prop := -9223372036854775808 ≤ z ∧ z ≤ 9223372036854775807

/-- A literal with its exact value. Its net decimal exponent has a magnitude of at most
`exponentLimit`; that the exponent itself is a 64-bit integer shuts out only texts of more than
`2 ^ 62` characters. -/
inductive Literal : List Char → Rat → Prop where
  | mk {s : List Char} {n places : Nat} {z : Int} (h : Numeral s n places z) (hfits : FitsInt64 z)
    (hlimit : (z - places).natAbs ≤ exponentLimit) : Literal s (n * 10 ^ (z - places))

/-- An optional sign and a literal, with the exact value. -/
inductive Decimal : List Char → Rat → Prop where
  | plain {s : List Char} {q : Rat} (h : Literal s q) : Decimal s q
  | plus {s : List Char} {q : Rat} (h : Literal s q) : Decimal ('+' :: s) q
  | minus {s : List Char} {q : Rat} (h : Literal s q) : Decimal ('-' :: s) (-q)

theorem Mantissa.places_le {places : Nat} (h : Mantissa s n places) : places ≤ s.length := by
  cases h with
  | whole => exact Nat.zero_le _
  | point => simp only [List.length_append, List.length_cons]; omega

/-- In a text that is not longer than any memory, the limit on the net exponent is the only one. -/
theorem Numeral.literal {places : Nat} {z : Int} (h : Numeral s n places z)
    (hlimit : (z - places).natAbs ≤ exponentLimit) (hlen : s.length < 2 ^ 62) :
    Literal s (n * 10 ^ (z - places)) := by
  refine .mk h ?_ hlimit
  obtain ⟨hs, -⟩ := h
  have hplaces := hs.places_le
  simp only [List.length_append] at hlen
  simp only [exponentLimit] at hlimit
  constructor <;> omega

/-! ## Digits -/

theorem isDigit_of_mem_toDigits {c : Char} (h : c ∈ Nat.toDigits 10 n) : c.isDigit = true :=
  Nat.isDigit_of_mem_toDigits (by decide) (by decide) h

theorem digitsValue_toDigits (n : Nat) : digitsValue (Nat.toDigits 10 n) = n := by
  rw [digitsValue, ← Nat.ofDigitChars_eq_foldl]
  exact Nat.ofDigitChars_ten_toDigits

theorem cutOnce_digits {c : Char} (hs : ∀ d ∈ s, d.isDigit = true) (hc : c.isDigit = false) :
    cutOnce c s = none := by
  induction s with
  | nil => rfl
  | cons d s ih =>
    have hd : d ≠ c := by
      rintro rfl
      rw [hs d (by simp)] at hc
      cases hc
    simp [cutOnce, hd, ih fun x hx => hs x (by simp [hx])]

theorem readSign_digits (hs : ∀ d ∈ s, d.isDigit = true) : readSign s = (false, s) := by
  unfold readSign
  split
  · cases hs '-' (by simp)
  · cases hs '+' (by simp)
  · rfl

theorem isBlank_of_isDigit {c : Char} (h : c.isDigit = true) : isBlank c = false := by
  rw [Bool.eq_false_iff]
  intro hb
  rw [Char.isDigit_iff_toNat] at h
  simp only [isBlank, Bool.or_eq_true, Bool.and_eq_true, decide_eq_true_eq, beq_iff_eq] at hb
  have h0 : '0'.toNat = 48 := rfl
  have h9 : '9'.toNat = 57 := rfl
  omega

/-! ## The exponent -/

/-- What is a number with a sign, by the sign and the digits that it is cut into. -/
theorem signedDigits_iff {z : Int} {negative : Bool} {digits : List Char}
    (hsign : readSign s = (negative, digits)) :
    SignedDigits s z ↔ digits ≠ [] ∧ (∀ d ∈ digits, d.isDigit = true) ∧
      z = if negative then -(digitsValue digits : Int) else digitsValue digits := by
  constructor
  · intro h
    cases h with
    | plain hne hs =>
      cases (readSign_digits hs).symm.trans hsign
      exact ⟨hne, hs, rfl⟩
    | plus hne hs =>
      cases hsign
      exact ⟨hne, hs, rfl⟩
    | minus hne hs =>
      cases hsign
      exact ⟨hne, hs, rfl⟩
  · rintro ⟨hne, hs, rfl⟩
    unfold readSign at hsign
    split at hsign <;> cases hsign
    · exact .minus hne hs
    · exact .plus hne hs
    · exact .plain hne hs

theorem readInt64?_eq_some {z : Int} :
    readInt64? s = some z ↔ SignedDigits s z ∧ FitsInt64 z := by
  obtain ⟨negative, digits, hsign⟩ : ∃ negative digits, readSign s = (negative, digits) :=
    ⟨_, _, rfl⟩
  have hdigits : (digits.isEmpty || !digits.all Char.isDigit) = true ↔
      ¬ (digits ≠ [] ∧ ∀ d ∈ digits, d.isDigit = true) := by
    rw [Bool.or_eq_true, List.isEmpty_iff, Bool.not_eq_true', ← Bool.not_eq_true, List.all_eq_true,
      not_and_or, not_not]
  rw [signedDigits_iff hsign, readInt64?, FitsInt64]
  simp only [hsign, hdigits, not_not, Option.ite_none_left_eq_some, Option.ite_none_right_eq_some,
    Bool.and_eq_true, decide_eq_true_eq, Option.some.injEq]
  constructor
  · rintro ⟨⟨hne, hall⟩, hrange, rfl⟩
    exact ⟨⟨hne, hall, rfl⟩, hrange⟩
  · rintro ⟨⟨hne, hall, rfl⟩, hrange⟩
    exact ⟨⟨hne, hall⟩, hrange, rfl⟩

theorem cutExponent_mark {c : Char} (hc : c = 'e' ∨ c = 'E') :
    cutExponent (c :: s) = (readInt64? s).map ([], ·) := by
  rw [cutExponent, if_pos (by simpa using hc)]

theorem cutExponent_cons {c : Char} (hc : c ≠ 'e' ∧ c ≠ 'E') :
    cutExponent (c :: s) = (cutExponent s).map fun (m, z) => (c :: m, z) := by
  rw [cutExponent, if_neg (by simp [hc.1, hc.2])]

/-- Characters that are no exponent marks stay with the mantissa. -/
theorem cutExponent_append {m x : List Char} (hm : ∀ c ∈ m, c ≠ 'e' ∧ c ≠ 'E') :
    cutExponent (m ++ x) = (cutExponent x).map fun p => (m ++ p.1, p.2) := by
  induction m with
  | nil => simp
  | cons c m ih =>
    rw [List.cons_append, cutExponent_cons (hm c (by simp)), ih fun d hd => hm d (by simp [hd]),
      Option.map_map]
    rfl

theorem cutExponent_exponentPart {x : List Char} {z : Int} (hx : ExponentPart x z)
    (hfits : FitsInt64 z) : cutExponent x = some ([], z) := by
  cases hx with
  | absent => rfl
  | marked hc hdigits =>
    rw [cutExponent_mark hc, readInt64?_eq_some.mpr ⟨hdigits, hfits⟩, Option.map_some]

/-- The mantissa is what stands before the first exponent mark. -/
theorem cutExponent_eq_some {m : List Char} {z : Int} :
    cutExponent s = some (m, z) ↔
      ∃ x, s = m ++ x ∧ (∀ c ∈ m, c ≠ 'e' ∧ c ≠ 'E') ∧ ExponentPart x z ∧ FitsInt64 z := by
  constructor
  · intro h
    induction s generalizing m with
    | nil =>
      cases h
      exact ⟨[], rfl, by simp, .absent, by decide, by decide⟩
    | cons c s ih =>
      by_cases hc : c = 'e' ∨ c = 'E'
      · rw [cutExponent_mark hc] at h
        obtain ⟨z', hz, heq⟩ := Option.map_eq_some_iff.mp h
        cases heq
        obtain ⟨hdigits, hfits⟩ := readInt64?_eq_some.mp hz
        exact ⟨c :: s, rfl, by simp, .marked hc hdigits, hfits⟩
      · rw [cutExponent_cons (not_or.mp hc)] at h
        obtain ⟨m, hz, rfl⟩ := map_cons_eq_some.mp h
        obtain ⟨x, rfl, hm, hx, hfits⟩ := ih hz
        exact ⟨x, rfl, List.forall_mem_cons.mpr ⟨not_or.mp hc, hm⟩, hx, hfits⟩
  · rintro ⟨x, rfl, hm, hx, hfits⟩
    rw [cutExponent_append hm, cutExponent_exponentPart hx hfits, Option.map_some, List.append_nil]

/-! ## The mantissa -/

theorem Mantissa.ne_nil {places : Nat} (h : Mantissa s n places) : s ≠ [] := by
  cases h with
  | whole hne => exact hne
  | point => simp

/-- A digit or a point. -/
theorem Mantissa.chars {places : Nat} (h : Mantissa s n places) :
    ∀ c ∈ s, c.isDigit = true ∨ c = '.' := by
  cases h with
  | whole _ hs => exact fun c hc => .inl (hs c hc)
  | point _ hs =>
    intro c hc
    simp only [List.mem_append, List.mem_cons] at hc
    rcases hc with hc | rfl | hc
    · exact .inl (hs c (by simp [hc]))
    · exact .inr rfl
    · exact .inl (hs c (by simp [hc]))

theorem Mantissa.exists_digit {places : Nat} (h : Mantissa s n places) :
    ∃ d ∈ s, d.isDigit = true := by
  cases h with
  | whole hne hs =>
    obtain ⟨d, hd⟩ := List.exists_mem_of_ne_nil s hne
    exact ⟨d, hd, hs d hd⟩
  | @point a b hne hs =>
    obtain ⟨d, hd⟩ := List.exists_mem_of_ne_nil _ hne
    refine ⟨d, ?_, hs d hd⟩
    simp only [List.mem_append, List.mem_cons] at hd ⊢
    rcases hd with hd | hd
    · exact .inl hd
    · exact .inr (.inr hd)

theorem not_mark_of_mantissa {c : Char} (h : c.isDigit = true ∨ c = '.') : c ≠ 'e' ∧ c ≠ 'E' := by
  rcases h with h | rfl
  · constructor <;> rintro rfl <;> cases h
  · decide

/-- The digits on both sides of the first point are those of the mantissa. -/
theorem mantissa_iff {places : Nat} :
    Mantissa s n places ↔ ∃ a b, (cutOnce '.' s).getD (s, []) = (a, b) ∧ a ++ b ≠ [] ∧
      (∀ d ∈ a ++ b, d.isDigit = true) ∧ n = digitsValue (a ++ b) ∧ places = b.length := by
  constructor
  · intro h
    cases h with
    | whole hne hs =>
      refine ⟨s, [], ?_, by simpa using hne, by simpa using hs, by simp, rfl⟩
      rw [cutOnce_digits hs (by decide)]
      rfl
    | @point a b hne hs =>
      refine ⟨a, b, ?_, hne, hs, rfl, rfl⟩
      rw [cutOnce_append fun d hd => ?_]
      · rfl
      · rintro rfl
        cases hs '.' (by simp [hd])
  · rintro ⟨a, b, hcut, hne, hs, rfl, rfl⟩
    cases hpoint : cutOnce '.' s with
    | none =>
      rw [hpoint] at hcut
      cases hcut
      simpa using Mantissa.whole (by simpa using hne) (by simpa using hs)
    | some p =>
      rw [hpoint] at hcut
      cases hcut
      obtain ⟨rfl, -⟩ := cutOnce_eq_some hpoint
      exact .point hne hs

/-! ## Reading -/

/-- A sign stays with the mantissa, so it may be taken off before or after the exponent is cut. -/
theorem map_readSign_cutExponent (s : List Char) :
    (cutExponent s).map (fun p => (readSign p.1, p.2)) =
      (cutExponent (readSign s).2).map fun p => (((readSign s).1, p.1), p.2) := by
  unfold readSign
  split
  · rw [cutExponent_cons (by decide), Option.map_map]
    rfl
  · rw [cutExponent_cons (by decide), Option.map_map]
    rfl
  · rename_i hminus hplus
    refine Option.map_congr fun p hp => ?_
    obtain ⟨x, hs, -⟩ := cutExponent_eq_some.mp hp
    congr 1
    split
    · rename_i r hm
      rw [hm] at hs
      exact absurd hs (hminus (r ++ x))
    · rename_i r hm
      rw [hm] at hs
      exact absurd hs (hplus (r ++ x))
    · rfl

/-- A literal is what its cuts make: the digits on both sides of the point, and the exponent. -/
theorem literal_iff {q : Rat} : Literal s q ↔ ∃ m z a b, cutExponent s = some (m, z) ∧
    (cutOnce '.' m).getD (m, []) = (a, b) ∧ a ++ b ≠ [] ∧ (∀ d ∈ a ++ b, d.isDigit = true) ∧
    (z - b.length).natAbs ≤ exponentLimit ∧
    q = digitsValue (a ++ b) * 10 ^ (z - b.length : Int) := by
  constructor
  · rintro ⟨⟨hm, hx⟩, hfits, hlimit⟩
    obtain ⟨a, b, hpoint, hne, hs, rfl, rfl⟩ := mantissa_iff.mp hm
    have hcut := cutExponent_eq_some.mpr
      ⟨_, rfl, fun c hc => not_mark_of_mantissa (hm.chars c hc), hx, hfits⟩
    exact ⟨_, _, a, b, hcut, hpoint, hne, hs, hlimit, rfl⟩
  · rintro ⟨m, z, a, b, hcut, hpoint, hne, hs, hlimit, rfl⟩
    obtain ⟨x, rfl, -, hx, hfits⟩ := cutExponent_eq_some.mp hcut
    exact .mk (.mk (mantissa_iff.mpr ⟨a, b, hpoint, hne, hs, rfl, rfl⟩) hx) hfits hlimit

/-- What a decimal is worth that starts with no sign. -/
theorem scientific_eq (n : Nat) (z : Int) : scientific n z = n * 10 ^ z := by
  rw [scientific]
  split
  · rename_i hz
    obtain ⟨k, rfl⟩ := Int.eq_ofNat_of_zero_le hz
    simp [tenTo]
  · rename_i hz
    obtain ⟨k, rfl⟩ : ∃ k : Nat, z = -(k : Int) := ⟨z.natAbs, by omega⟩
    rw [Rat.mkRat_eq_div]
    simp [tenTo, div_eq_mul_inv]

/-- A literal may start here: a digit or a point. -/
def StartsLiteral (s : List Char) : Prop := ∃ c r, s = c :: r ∧ (c.isDigit || c == '.') = true

theorem StartsLiteral.readSign (h : StartsLiteral s) : readSign s = (false, s) := by
  obtain ⟨c, r, rfl, hc⟩ := h
  unfold Exact.readSign
  split
  · rename_i heq
    obtain ⟨rfl, -⟩ := List.cons.inj heq
    cases hc
  · rename_i heq
    obtain ⟨rfl, -⟩ := List.cons.inj heq
    cases hc
  · rfl

theorem StartsLiteral.append (h : StartsLiteral s) (t : List Char) : StartsLiteral (s ++ t) := by
  obtain ⟨c, r, rfl, hc⟩ := h
  exact ⟨c, r ++ t, rfl, hc⟩

theorem Mantissa.startsLiteral {places : Nat} (h : Mantissa s n places) : StartsLiteral s := by
  have hchars := h.chars
  obtain ⟨c, r, rfl⟩ : ∃ c r, s = c :: r := List.exists_cons_of_ne_nil h.ne_nil
  refine ⟨c, r, rfl, ?_⟩
  rcases hchars c (by simp) with hc | rfl
  · simp [hc]
  · decide

theorem Literal.startsLiteral {q : Rat} (h : Literal s q) : StartsLiteral s := by
  obtain ⟨⟨hm, -⟩, -, -⟩ := h
  exact hm.startsLiteral.append _

/-- What stands behind the sign is a literal. -/
theorem decimal_iff {q : Rat} :
    Decimal s q ↔ Literal (readSign s).2 (if (readSign s).1 then -q else q) := by
  constructor
  · rintro (h | h | h)
    · rw [h.startsLiteral.readSign]
      exact h
    · exact h
    · simpa [readSign] using h
  · intro h
    unfold readSign at h
    split at h
    · rw [← neg_neg q]
      exact .minus h
    · exact .plus h
    · exact .plain h

/-- Just the decimals are read as decimals. -/
theorem readDecimal_eq_ok {q : Rat} : readDecimal s = .ok q ↔ Decimal s q := by
  rw [decimal_iff]
  have hsign := map_readSign_cutExponent s
  generalize readSign s = signed at hsign ⊢
  obtain ⟨negative, unsigned⟩ := signed
  rw [literal_iff, readDecimal]
  cases hcut : cutExponent s with
  | none =>
    rw [hcut] at hsign
    have hnone := Option.map_eq_none_iff.mp hsign.symm
    simp [hnone]
  | some p =>
    obtain ⟨m, z⟩ := p
    rw [hcut] at hsign
    obtain ⟨⟨m', z'⟩, hcut', heq⟩ := Option.map_eq_some_iff.mp hsign.symm
    obtain ⟨hm, hz⟩ : (negative, m') = readSign m ∧ z' = z := by simpa using heq
    subst hz
    obtain ⟨a, b, hpoint⟩ : ∃ a b, (cutOnce '.' m').getD (m', []) = (a, b) := ⟨_, _, rfl⟩
    simp only [← hm, hpoint, Bool.or_eq_true, Bool.not_eq_true', List.isEmpty_iff]
    constructor
    · intro h
      split at h
      · cases h
      rename_i hdigits
      split at h
      · cases h
      rename_i hlimit
      simp only [not_or, Bool.not_eq_false, List.all_eq_true] at hdigits
      refine ⟨m', z', a, b, hcut', hpoint, hdigits.1, hdigits.2, not_lt.mp hlimit, ?_⟩
      rw [← scientific_eq, ← Except.ok.inj h]
      cases negative <;> simp
    · rintro ⟨m'', z'', a', b', hcut'', hpoint', hne, hs, hlimit, hvalue⟩
      obtain ⟨rfl, rfl⟩ : m'' = m' ∧ z'' = z' := by simpa [hcut'] using hcut''.symm
      obtain ⟨rfl, rfl⟩ : a' = a ∧ b' = b := by simpa [hpoint] using hpoint'.symm
      have hall : (a' ++ b').all Char.isDigit = true := List.all_eq_true.mpr hs
      rw [if_neg (by simp [hne, hall]), if_neg (not_lt.mpr hlimit), scientific_eq, ← hvalue]
      cases negative <;> simp

theorem SignedDigits.chars {z : Int} (h : SignedDigits s z) :
    ∀ c ∈ s, c.isDigit = true ∨ c = '+' ∨ c = '-' := by
  intro c hc
  cases h with
  | plain _ hs => exact .inl (hs c hc)
  | plus _ hs =>
    rcases List.mem_cons.mp hc with rfl | hc
    · exact .inr (.inl rfl)
    · exact .inl (hs c hc)
  | minus _ hs =>
    rcases List.mem_cons.mp hc with rfl | hc
    · exact .inr (.inr rfl)
    · exact .inl (hs c hc)

/-- A digit, a point, an exponent mark or a sign. -/
theorem Numeral.chars {places : Nat} {z : Int} (h : Numeral s n places z) :
    ∀ c ∈ s, (c.isDigit = true ∨ c = '.') ∨ c = 'e' ∨ c = 'E' ∨ c = '+' ∨ c = '-' := by
  obtain ⟨hm, hx⟩ := h
  intro c hc
  rcases List.mem_append.mp hc with hc | hc
  · exact .inl (hm.chars c hc)
  cases hx with
  | absent => cases hc
  | marked hmark hs =>
    rcases List.mem_cons.mp hc with rfl | hc
    · tauto
    · rcases hs.chars c hc with hd | hsign
      · exact .inl (.inl hd)
      · exact .inr (.inr (.inr hsign))

theorem Literal.chars {q : Rat} (h : Literal s q) :
    ∀ c ∈ s, (c.isDigit = true ∨ c = '.') ∨ c = 'e' ∨ c = 'E' ∨ c = '+' ∨ c = '-' := by
  obtain ⟨hnumeral, -, -⟩ := h
  exact hnumeral.chars

theorem Decimal.chars {q : Rat} (h : Decimal s q) :
    ∀ c ∈ s, (c.isDigit = true ∨ c = '.') ∨ c = 'e' ∨ c = 'E' ∨ c = '+' ∨ c = '-' := by
  cases h with
  | plain h => exact h.chars
  | plus h => exact List.forall_mem_cons.mpr ⟨by simp, h.chars⟩
  | minus h => exact List.forall_mem_cons.mpr ⟨by simp, h.chars⟩

theorem SignedDigits.ends {z : Int} (h : SignedDigits s z) :
    ∃ init c, s = init ++ [c] ∧ c.isDigit = true := by
  have hdigits : ∀ {s : List Char}, s ≠ [] → (∀ d ∈ s, d.isDigit = true) →
      ∃ init c, s = init ++ [c] ∧ c.isDigit = true := fun {s} hne hs =>
    ⟨s.dropLast, s.getLast hne, (List.dropLast_concat_getLast hne).symm, hs _ (List.getLast_mem hne)⟩
  cases h with
  | plain hne hs => exact hdigits hne hs
  | plus hne hs =>
    obtain ⟨init, c, rfl, hc⟩ := hdigits hne hs
    exact ⟨'+' :: init, c, rfl, hc⟩
  | minus hne hs =>
    obtain ⟨init, c, rfl, hc⟩ := hdigits hne hs
    exact ⟨'-' :: init, c, rfl, hc⟩

/-- A literal ends in a digit or a point. -/
theorem Literal.ends {q : Rat} (h : Literal s q) :
    ∃ init c, s = init ++ [c] ∧ (c.isDigit = true ∨ c = '.') := by
  cases h with
  | mk h =>
  cases h with
  | @mk m x _ _ _ hm hx =>
  cases hx with
  | absent =>
    have hne := hm.ne_nil
    exact ⟨m.dropLast, m.getLast hne, by rw [List.append_nil, List.dropLast_concat_getLast],
      hm.chars _ (List.getLast_mem hne)⟩
  | @marked e t _ _ hs =>
    obtain ⟨init, c, rfl, hc⟩ := hs.ends
    exact ⟨m ++ e :: init, c, by simp, .inl hc⟩

/-- Where a literal may start and no slash divides, just the literals are read as numbers. -/
theorem read_eq_ok {q : Rat} (htrim : trim s = s) (hslash : ∀ c ∈ s, c ≠ '/')
    (hstart : StartsLiteral s) : read s = .ok q ↔ Literal s q := by
  rw [read, htrim, cutOnce_of_not_mem hslash, readDecimal_eq_ok, decimal_iff, hstart.readSign]
  rfl

/-! ## Natural numbers -/

/-- Digits are a literal. -/
theorem literal_of_digits (hne : s ≠ []) (hs : ∀ d ∈ s, d.isDigit = true) :
    Literal s (digitsValue s) := by
  have h := Literal.mk (.mk (.whole hne hs) .absent) ⟨by decide, by decide⟩ (by decide)
  simpa using h

theorem literal_natural (n : Nat) : Literal (toString n).toList n := by
  have htext : (toString n).toList = Nat.toDigits 10 n := Nat.toList_repr
  have hdigits := literal_of_digits Nat.toDigits_ne_nil fun c hc => isDigit_of_mem_toDigits (n := n) hc
  rwa [htext, digitsValue_toDigits] at *

end Formulary.Exact
