import Formulary.Json.Record
import Formulary.Proofs.Exact.Fraction
import Formulary.Proofs.Meaning.Exact
import Mathlib.Data.List.Induction
import Mathlib.Data.Nat.Digits.Defs

/-!
Which texts are numbers, and which number each of them is.

A number is written as a decimal or as two decimals around a slash, with the exact value; the notation
does not mention the reader. The reader cuts at the first slash and trims what it cuts, so the blanks
that may stand in a number are those beside the slash and those around the whole. The text of a number
is one of its notations, whatever its size: it is read back, also from a record.
-/

namespace Formulary.Exact

variable {s t : List Char} {q : Rat}

/-- A decimal; or two around a slash, with blanks on either side of it, of which the second is not
zero. -/
inductive NumberText : List Char → Rat → Prop where
  | decimal {s : List Char} {q : Rat} (h : Decimal s q) : NumberText s q
  | quotient {s t w v : List Char} {a b : Rat} (hs : Decimal s a) (ht : Decimal t b)
    (hw : allBlank w = true) (hv : allBlank v = true) (hb : b ≠ 0) :
    NumberText (s ++ w ++ '/' :: (v ++ t)) (a / b)

/-- Digits are worth what they are in the decimal system. -/
theorem digitsValue_eq_ofDigits (s : List Char) :
    digitsValue s = Nat.ofDigits 10 (s.reverse.map fun d => d.toNat - '0'.toNat) := by
  induction s using List.reverseRecOn with
  | nil => rfl
  | append_singleton s d ih =>
    rw [digitsValue, List.foldl_concat, List.reverse_concat, List.map_cons, Nat.ofDigits_cons, ← ih,
      digitsValue, add_comm]

/-! ## Decimals in longer texts -/

theorem Decimal.ne_nil (h : Decimal s q) : s ≠ [] := by
  cases h with
  | plain h =>
    obtain ⟨c, r, rfl, -⟩ := h.startsLiteral
    simp
  | plus h => simp
  | minus h => simp

theorem Decimal.not_blank (h : Decimal s q) : ∀ c ∈ s, isBlank c = false := by
  intro c hc
  rcases h.chars c hc with (hd | rfl) | rfl | rfl | rfl | rfl
  · exact isBlank_of_isDigit hd
  all_goals decide

theorem Decimal.ne_slash (h : Decimal s q) : ∀ c ∈ s, c ≠ '/' := by
  rintro c hc rfl
  exact absurd (h.chars '/' hc) (by decide)

theorem Decimal.not_allBlank (h : Decimal s q) : allBlank s = false := by
  obtain ⟨c, r, rfl⟩ := List.exists_cons_of_ne_nil h.ne_nil
  rw [allBlank_cons, h.not_blank c (by simp), Bool.false_and]

theorem Decimal.trim_eq (h : Decimal s q) : trim s = s := trim_of_forall h.not_blank

/-- Text that is a decimal when it is trimmed is not all blank. -/
theorem Decimal.not_allBlank_of_trim (h : Decimal (trim s) q) : allBlank s = false := by
  rw [Bool.eq_false_iff]
  intro hs
  exact h.ne_nil (trim_eq_nil_iff.mpr hs)

theorem not_slash_of_blank {c : Char} (h : isBlank c = true) : c ≠ '/' := by
  rintro rfl
  revert h
  decide

/-! ## Reading -/

/-- A number of the notation is read as its value. -/
theorem read_of_numberText (h : NumberText (trim s) q) : read s = .ok q := by
  rw [read]
  generalize trim s = u at h ⊢
  cases h with
  | decimal h =>
    rw [cutOnce_of_not_mem h.ne_slash]
    exact readDecimal_eq_ok.mpr h
  | @quotient s t w v a b hs ht hw hv hb =>
    have hslash : ∀ c ∈ s ++ w, c ≠ '/' := by
      intro c hc
      rcases List.mem_append.mp hc with hc | hc
      · exact hs.ne_slash c hc
      · exact not_slash_of_blank (List.all_eq_true.mp hw c hc)
    have htop : trim (s ++ w) = s := by
      simpa [hs.trim_eq] using trim_blanks (w := []) rfl hw hs.not_allBlank
    have hbottom : trim (v ++ t) = t := by
      simpa [ht.trim_eq] using trim_blanks (t := []) hv rfl ht.not_allBlank
    simp only [cutOnce_append hslash, htop, hbottom, readDecimal_eq_ok.mpr hs, readDecimal_eq_ok.mpr ht,
      Except.ok_bind, divide, if_neg hb]

/-- What is read as a number is one of the notation. -/
theorem numberText_of_read (h : read s = .ok q) : NumberText (trim s) q := by
  have hstart := trimStart_trim s
  have hend := trimEnd_trim s
  rw [read] at h
  generalize trim s = u at h hstart hend ⊢
  split at h
  · rename_i num den hcut
    obtain ⟨rfl, -⟩ := cutOnce_eq_some hcut
    obtain ⟨a, ha, h⟩ := Except.bind_eq_ok.mp h
    obtain ⟨b, hb, h⟩ := Except.bind_eq_ok.mp h
    obtain ⟨hne, rfl⟩ := divide_eq_ok h
    have hnum := readDecimal_eq_ok.mp ha
    have hden := readDecimal_eq_ok.mp hb
    -- only the slash is beside the blanks that the parts lose
    obtain ⟨w, hw, hnum'⟩ := exists_blanks_after (trimStart_of_append hstart hnum.not_allBlank_of_trim)
    rw [← List.singleton_append, ← List.append_assoc] at hend
    obtain ⟨v, hv, hden'⟩ := exists_blanks_before (trimEnd_of_append hend hden.not_allBlank_of_trim)
    rw [hnum', hden']
    exact .quotient hnum hden hw hv hne
  · exact .decimal (readDecimal_eq_ok.mp h)

/-- A number is read back from its text. -/
theorem read_text (q : Rat) : read (text q).toList = .ok q := by
  unfold text
  split
  · rename_i hden
    rw [read_int, Rat.coe_int_num_of_den_eq_one hden]
  · have hread := read_fraction (z := q.num) q.den_ne_zero
    rw [Rat.num_div_den] at hread
    rw [String.toList_append, String.toList_append, List.append_assoc]
    exact hread

/-- A number is read back from its text and from its record. Text is read as a number exactly if,
trimmed, it is a number of the notation, and then as its value. The last part says what the digits in
the notation are worth. -/
theorem read_iff_numberText :
    (∀ q : Rat, read (text q).toList = .ok q ∧ (Json.ofRat q).rat? = some q) ∧
      (∀ (s : List Char) (q : Rat), read s = .ok q ↔ NumberText (trim s) q) ∧
      ∀ s, digitsValue s = Nat.ofDigits 10 (s.reverse.map fun d => d.toNat - '0'.toNat) := by
  refine ⟨fun q => ⟨read_text q, ?_⟩, fun s q => ⟨numberText_of_read, read_of_numberText⟩,
    digitsValue_eq_ofDigits⟩
  show (read (text q).toList).toOption = some q
  rw [read_text]
  rfl

example : read " +1.5e2 /-.3".toList = .ok (-500) ∧
    read "1/0".toList = .error .divisionByZero ∧
    read "1e5000".toList = .error (.literalOutOfRange "1e5000") := by
  decide +kernel

end Formulary.Exact
