import Formulary.Proofs.Except
import Formulary.Proofs.Exact.Decimal

/-!
Integers and fractions are read back, and what is read as a number has no other characters.

Integers are written with their digits and a minus sign, fractions as two integers around a slash.
What the reader of numbers accepts may have a point, an exponent and blanks as well, but never a
parenthesis or a bracket.
-/

namespace Formulary.Exact

variable {s : List Char} {n : Nat}

/-! ## Integers -/

theorem readDecimal_digits (hne : s ≠ []) (hs : ∀ d ∈ s, d.isDigit = true) :
    readDecimal s = .ok (digitsValue s) ∧ readDecimal ('-' :: s) = .ok (-(digitsValue s : Rat)) :=
  have h := literal_of_digits hne hs
  ⟨readDecimal_eq_ok.mpr (.plain h), readDecimal_eq_ok.mpr (.minus h)⟩

/-- The digits of an integer, with a sign if it is negative. -/
theorem toList_toString_int (z : Int) : (toString z).toList =
    if z < 0 then '-' :: Nat.toDigits 10 z.natAbs else Nat.toDigits 10 z.natAbs := by
  cases z with
  | ofNat m =>
    rw [if_neg (by simp)]
    exact Nat.toList_repr
  | negSucc m =>
    rw [if_pos (Int.negSucc_lt_zero m)]
    show ("-" ++ Nat.repr (m + 1)).toList = _
    rw [String.toList_append, Nat.toList_repr]
    rfl

theorem chars_of_int (z : Int) : ∀ c ∈ (toString z).toList, c.isDigit = true ∨ c = '-' := by
  intro c hc
  rw [toList_toString_int] at hc
  split at hc
  · rcases List.mem_cons.mp hc with rfl | hc
    · exact .inr rfl
    · exact .inl (isDigit_of_mem_toDigits hc)
  · exact .inl (isDigit_of_mem_toDigits hc)

/-- An integer is read back from its digits. -/
theorem readDecimal_int (z : Int) : readDecimal (toString z).toList = .ok z := by
  obtain ⟨hplain, hminus⟩ := readDecimal_digits (s := Nat.toDigits 10 z.natAbs) Nat.toDigits_ne_nil
    fun d hd => isDigit_of_mem_toDigits hd
  rw [toList_toString_int, digitsValue_toDigits] at *
  split
  · rename_i hneg
    rw [hminus]
    have hz : z = -(z.natAbs : Int) := by omega
    rw [hz]
    push_cast
    simp
  · rename_i hneg
    rw [hplain]
    have hz : z = (z.natAbs : Int) := by omega
    rw [hz]
    simp

theorem trim_int (z : Int) : trim (toString z).toList = (toString z).toList :=
  trim_of_forall fun c hc => by
    rcases chars_of_int z c hc with hd | rfl
    · exact isBlank_of_isDigit hd
    · decide

/-- So is a fraction in lowest terms. -/
theorem read_fraction {z : Int} {n : Nat} (hn : n ≠ 0) :
    read ((toString z).toList ++ '/' :: (toString n).toList) = .ok (z / n) := by
  have hnat : (toString n).toList = (toString (n : Int)).toList := rfl
  have hslash : ∀ c ∈ (toString z).toList, c ≠ '/' := by
    rintro c hc rfl
    rcases chars_of_int z _ hc with hd | hd <;> cases hd
  have htrim : trim ((toString z).toList ++ '/' :: (toString n).toList) =
      (toString z).toList ++ '/' :: (toString n).toList := by
    refine trim_of_forall fun c hc => ?_
    have hc' : (c.isDigit = true ∨ c = '-') ∨ c = '/' := by
      rcases List.mem_append.mp hc with hc | hc
      · exact .inl (chars_of_int z c hc)
      · rcases List.mem_cons.mp hc with rfl | hc
        · exact .inr rfl
        · exact .inl (chars_of_int n c hc)
    rcases hc' with (hd | rfl) | rfl
    · exact isBlank_of_isDigit hd
    · decide
    · decide
  rw [read, htrim, cutOnce_append hslash]
  simp only
  rw [trim_int, readDecimal_int, hnat, trim_int, readDecimal_int, Except.ok_bind, Except.ok_bind, divide,
    if_neg (by exact_mod_cast hn)]
  push_cast
  rfl

theorem read_int (z : Int) : read (toString z).toList = .ok z := by
  have hslash : ∀ c ∈ (toString z).toList, c ≠ '/' := by
    rintro c hc rfl
    rcases chars_of_int z _ hc with hd | hd <;> cases hd
  rw [read, trim_int, cutOnce_of_not_mem hslash]
  exact readDecimal_int z

/-! ## Characters -/

/-- A character of a decimal. -/
def isNumeric (c : Char) : Bool := c.isDigit || ['.', 'e', 'E', '+', '-'].contains c

theorem chars_of_readDecimal {q : Rat} (h : readDecimal s = .ok q) : ∀ c ∈ s, isNumeric c = true := by
  intro c hc
  rcases (readDecimal_eq_ok.mp h).chars c hc with (hd | rfl) | rfl | rfl | rfl | rfl
  · simp [isNumeric, hd]
  all_goals decide

/-- What is read as a number holds digits, marks of decimals, blanks and slashes. -/
theorem chars_of_read {q : Rat} (h : read s = .ok q) :
    ∀ c ∈ s, isNumeric c = true ∨ isBlank c = true ∨ c = '/' := by
  have htrim : ∀ {t : List Char}, (∀ c ∈ trim t, isNumeric c = true ∨ isBlank c = true ∨ c = '/') →
      ∀ c ∈ t, isNumeric c = true ∨ isBlank c = true ∨ c = '/' := by
    intro t ht c hc
    obtain ⟨w, v, hsplit, hw, hv⟩ := exists_blanks_trim t
    rw [hsplit, List.mem_append, List.mem_append] at hc
    rcases hc with (hc | hc) | hc
    · exact .inr (.inl (List.all_eq_true.mp hw c hc))
    · exact ht c hc
    · exact .inr (.inl (List.all_eq_true.mp hv c hc))
  refine htrim fun c hc => ?_
  rw [read] at h
  split at h
  · rename_i num den hcut
    obtain ⟨hsplit, -⟩ := cutOnce_eq_some hcut
    obtain ⟨a, ha, h⟩ := Except.bind_eq_ok.mp h
    obtain ⟨b, hb, -⟩ := Except.bind_eq_ok.mp h
    rw [hsplit] at hc
    rcases List.mem_append.mp hc with hc | hc
    · exact htrim (fun d hd => .inl (chars_of_readDecimal ha d hd)) c hc
    · rcases List.mem_cons.mp hc with rfl | hc
      · exact .inr (.inr rfl)
      · exact htrim (fun d hd => .inl (chars_of_readDecimal hb d hd)) c hc
  · exact .inl (chars_of_readDecimal h c hc)

end Formulary.Exact
