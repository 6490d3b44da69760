import Formulary.Text.Blank

/-!
Trimming text.

Blanks at the end that is trimmed do not matter, and the rest is left alone as soon as it holds a
character that is not blank.
-/

namespace Formulary

variable {s t w : List Char} {c : Char}

theorem allBlank_append : allBlank (s ++ t) = (allBlank s && allBlank t) := by
  simp [allBlank]

theorem allBlank_cons : allBlank (c :: s) = (isBlank c && allBlank s) := by
  simp [allBlank]

/-! ## The start -/

theorem trimStart_cons (h : isBlank c = false) : trimStart (c :: s) = c :: s := by
  simp [trimStart, h]

theorem trimStart_blanks (hw : allBlank w = true) : trimStart (w ++ s) = trimStart s := by
  rw [trimStart, List.dropWhile_append_of_pos (by simpa [allBlank] using hw), trimStart]

theorem trimStart_append (h : allBlank s = false) : trimStart (s ++ t) = trimStart s ++ t := by
  induction s with
  | nil => simp [allBlank] at h
  | cons c s ih =>
    cases hc : isBlank c with
    | false => rw [List.cons_append, trimStart_cons hc, trimStart_cons hc, List.cons_append]
    | true =>
      have hs : allBlank s = false := by simpa [allBlank_cons, hc] using h
      simpa [trimStart, hc] using ih hs

theorem trimStart_of_forall (h : ∀ c ∈ s, isBlank c = false) : trimStart s = s := by
  cases s with
  | nil => rfl
  | cons c s => exact trimStart_cons (h c (by simp))

theorem trimStart_trimStart (s : List Char) : trimStart (trimStart s) = trimStart s := by
  induction s with
  | nil => rfl
  | cons c s ih =>
    cases hc : isBlank c with
    | false => rw [trimStart_cons hc, trimStart_cons hc]
    | true => simpa [trimStart, hc] using ih

theorem allBlank_trimStart : allBlank (trimStart s) = allBlank s := by
  induction s with
  | nil => rfl
  | cons c s ih =>
    cases hc : isBlank c with
    | false => rw [trimStart_cons hc]
    | true => simpa [trimStart, allBlank_cons, hc] using ih

theorem exists_blanks_trimStart (s : List Char) : ∃ w, allBlank w = true ∧ s = w ++ trimStart s :=
  ⟨s.takeWhile isBlank, List.all_takeWhile, (List.takeWhile_append_dropWhile ..).symm⟩

theorem allBlank_of_trimStart (h : trimStart s = []) : allBlank s = true := by
  rw [← allBlank_trimStart, h]
  rfl

theorem trimStart_of_allBlank (h : allBlank s = true) : trimStart s = [] := by
  have hall := trimStart_blanks (s := []) h
  rwa [List.append_nil] at hall

/-! ## The end -/

theorem trimEnd_of_allBlank (hw : allBlank w = true) : trimEnd w = [] := by
  induction w with
  | nil => rfl
  | cons c w ih =>
    simp only [allBlank_cons, Bool.and_eq_true] at hw
    simp [trimEnd, ih hw.2, hw.1]

theorem trimEnd_ne_nil (h : allBlank s = false) : trimEnd s ≠ [] := by
  induction s with
  | nil => simp [allBlank] at h
  | cons c s ih =>
    rw [trimEnd]
    split
    · rename_i hs
      cases hc : isBlank c with
      | false => simp
      | true => exact absurd hs (ih (by simpa [allBlank_cons, hc] using h))
    · simp

theorem trimEnd_append (h : allBlank t = false) : trimEnd (s ++ t) = s ++ trimEnd t := by
  induction s with
  | nil => rfl
  | cons c s ih =>
    rw [List.cons_append, trimEnd, ih]
    split
    · rename_i hnil
      exact absurd (List.append_eq_nil_iff.mp hnil).2 (trimEnd_ne_nil h)
    · rename_i hst
      rw [← hst, List.cons_append]

theorem trimEnd_blanks (hw : allBlank w = true) : trimEnd (s ++ w) = trimEnd s := by
  induction s with
  | nil => simpa [trimEnd] using trimEnd_of_allBlank hw
  | cons c s ih => rw [List.cons_append, trimEnd, ih, trimEnd]

theorem trimEnd_concat (h : isBlank c = false) : trimEnd (s ++ [c]) = s ++ [c] := by
  rw [trimEnd_append (by simp [allBlank, h])]
  simp [trimEnd, h]

theorem trimEnd_of_forall (h : ∀ c ∈ s, isBlank c = false) : trimEnd s = s := by
  induction s with
  | nil => rfl
  | cons c s ih =>
    rw [trimEnd, ih fun d hd => h d (by simp [hd])]
    cases s with
    | nil => simp [h c (by simp)]
    | cons d s => rfl

theorem exists_blanks_trimEnd (s : List Char) : ∃ v, s = trimEnd s ++ v ∧ allBlank v = true := by
  induction s with
  | nil => exact ⟨[], rfl, rfl⟩
  | cons c s ih =>
    obtain ⟨v, hs, hv⟩ := ih
    rw [trimEnd]
    split
    · rename_i hnil
      rw [hnil, List.nil_append] at hs
      cases hc : isBlank c with
      | true => exact ⟨c :: s, by simp, by simp [allBlank_cons, hc, hs, hv]⟩
      | false => exact ⟨v, by simp [hs], hv⟩
    · rename_i d t ht
      exact ⟨v, by rw [List.cons_append, ← ht, ← hs], hv⟩

theorem trimEnd_trimEnd (s : List Char) : trimEnd (trimEnd s) = trimEnd s := by
  obtain ⟨v, hs, hv⟩ := exists_blanks_trimEnd s
  have h : trimEnd (trimEnd s ++ v) = trimEnd (trimEnd s) := trimEnd_blanks hv
  rw [← hs] at h
  exact h.symm

/-! ## Both ends -/

/-- The blanks that are trimmed. -/
theorem exists_blanks_trim (s : List Char) :
    ∃ w v, s = w ++ trim s ++ v ∧ allBlank w = true ∧ allBlank v = true := by
  obtain ⟨v, hs, hv⟩ := exists_blanks_trimEnd (trimStart s)
  refine ⟨s.takeWhile isBlank, v, ?_, List.all_takeWhile, hv⟩
  rw [trim, List.append_assoc, ← hs, trimStart, List.takeWhile_append_dropWhile]

theorem trim_eq_nil_iff : trim s = [] ↔ allBlank s = true := by
  constructor
  · intro h
    obtain ⟨w, v, hs, hw, hv⟩ := exists_blanks_trim s
    rw [hs, h, List.append_nil, allBlank_append, hw, hv]
    rfl
  · intro h
    rw [trim, trimStart_of_allBlank h]
    rfl

theorem not_blank_of_trimStart {r : List Char} (h : trimStart s = c :: r) : isBlank c = false := by
  have := List.head?_dropWhile_not isBlank s
  rw [trimStart] at h
  simpa [h] using this

/-- Trimmed text starts with a character that is not blank. -/
theorem not_blank_of_trim {r : List Char} (h : trim s = c :: r) : isBlank c = false := by
  rw [trim] at h
  obtain ⟨v, hs, -⟩ := exists_blanks_trimEnd (trimStart s)
  rw [h, List.cons_append] at hs
  exact not_blank_of_trimStart hs

theorem trimStart_trim (s : List Char) : trimStart (trim s) = trim s := by
  cases h : trim s with
  | nil => rfl
  | cons c r => exact trimStart_cons (not_blank_of_trim h)

theorem trimEnd_trim (s : List Char) : trimEnd (trim s) = trim s := trimEnd_trimEnd (trimStart s)

theorem trim_trim (s : List Char) : trim (trim s) = trim s := by
  rw [trim, trimStart_trim, trimEnd_trim]

theorem trim_blanks (hw : allBlank w = true) (ht : allBlank t = true) (hs : allBlank s = false) :
    trim (w ++ s ++ t) = trim s := by
  rw [trim, List.append_assoc, trimStart_blanks hw, trimStart_append hs, trimEnd_blanks ht, trim]

theorem trim_trimStart (s : List Char) : trim (trimStart s) = trim s := by
  rw [trim, trim, trimStart_trimStart]

/-- The first part of text that starts with no blank starts with none. -/
theorem trimStart_of_append (h : trimStart (s ++ t) = s ++ t) (hs : allBlank s = false) :
    trimStart s = s := by
  rw [trimStart_append hs] at h
  exact List.append_cancel_right h

/-- The last part of text that ends with no blank ends with none. -/
theorem trimEnd_of_append (h : trimEnd (s ++ t) = s ++ t) (ht : allBlank t = false) :
    trimEnd t = t := by
  rw [trimEnd_append ht] at h
  exact List.append_cancel_left h

/-- Text that starts with no blank loses only blanks at its end. -/
theorem exists_blanks_after (h : trimStart s = s) : ∃ v, allBlank v = true ∧ s = trim s ++ v := by
  obtain ⟨v, hs, hv⟩ := exists_blanks_trimEnd s
  exact ⟨v, hv, by rw [trim, h, ← hs]⟩

/-- Text that ends with no blank loses only blanks at its start. -/
theorem exists_blanks_before (h : trimEnd s = s) : ∃ w, allBlank w = true ∧ s = w ++ trim s := by
  cases hblank : allBlank s with
  | true =>
    refine ⟨[], rfl, ?_⟩
    rw [List.nil_append, trim_eq_nil_iff.mpr hblank, ← h, trimEnd_of_allBlank hblank]
  | false =>
    obtain ⟨w, hw, hs⟩ := exists_blanks_trimStart s
    have hstart : allBlank (trimStart s) = false := by rw [allBlank_trimStart, hblank]
    have hend := trimEnd_append (s := w) hstart
    rw [← hs, h] at hend
    exact ⟨w, hw, hend⟩

theorem trim_of_forall (h : ∀ c ∈ s, isBlank c = false) : trim s = s := by
  rw [trim, trimStart_of_forall h, trimEnd_of_forall h]

end Formulary
