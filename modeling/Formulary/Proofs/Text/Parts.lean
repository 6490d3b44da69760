import Formulary.Proofs.Expr.Acceptance

/-!
Parts between the separators outside all parentheses.

Balanced text leaves the depth as it was, so the parts of two texts written one after the other are
those of the first and those of the second, with the two that meet run together.
-/

namespace Formulary

variable {s t p q x : List Char} {c : Char} {seps : List Char} {xs ys ps : List (List Char)}

/-! ## Running parts together -/

/-- Two lists of parts, with the last of the first and the first of the second run together. -/
def glue : List (List Char) → List (List Char) → List (List Char)
  | [], ys => ys
  | [x], [] => [x]
  | [x], y :: ys => (x ++ y) :: ys
  | x :: x' :: xs, ys => x :: glue (x' :: xs) ys

theorem glue_cons (hne : xs ≠ []) : glue (p :: xs) ys = p :: glue xs ys := by
  cases xs with
  | nil => exact absurd rfl hne
  | cons x xs => rfl

theorem glue_snoc : glue (xs ++ [p]) (q :: ys) = xs ++ (p ++ q) :: ys := by
  induction xs with
  | nil => rfl
  | cons x xs ih => rw [List.cons_append, glue_cons (by simp), ih, List.cons_append]

theorem glue_nil_cons (hne : xs ≠ []) : glue xs ([] :: ys) = xs ++ ys := by
  obtain ⟨xs, p, rfl⟩ := (List.eq_nil_or_concat xs).resolve_left hne
  rw [List.concat_eq_append, glue_snoc]
  simp

theorem glue_glue (hne : xs ≠ []) : glue (glue [p] xs) ys = glue [p] (glue xs ys) := by
  cases xs with
  | nil => exact absurd rfl hne
  | cons x xs =>
    cases xs with
    | nil => cases ys <;> simp [glue]
    | cons x' xs => rfl

/-! ## Parts of text -/

theorem cutTop_cons {separates : List Char → Char → Bool} {passed : List Char} {depth : Int} :
    cutTop separates passed depth (c :: s) =
      if (decide (depth = 0) && c != '(' && c != ')' && separates passed c) = true then
        ([], (c, (cutTop separates (c :: passed) (depth + depthStep c) s).1) ::
          (cutTop separates (c :: passed) (depth + depthStep c) s).2)
      else (c :: (cutTop separates (c :: passed) (depth + depthStep c) s).1,
        (cutTop separates (c :: passed) (depth + depthStep c) s).2) := rfl

theorem partsTop_eq : partsTop seps s = (cutTop (fun _ c => seps.contains c) [] 0 s).1 ::
    (cutTop (fun _ c => seps.contains c) [] 0 s).2.map Prod.snd := rfl

theorem partsTop_nil : partsTop seps [] = [[]] := rfl

theorem partsTop_ne_nil : partsTop seps s ≠ [] := by simp [partsTop]

theorem partsTop_separator (hopen : c ≠ '(') (hclose : c ≠ ')') (hc : seps.contains c = true) :
    partsTop seps (c :: s) = [] :: partsTop seps s := by
  have hstep : depthStep c = 0 := by simp [depthStep, hopen, hclose]
  have hcut : (decide ((0 : Int) = 0) && c != '(' && c != ')' && seps.contains c) = true := by
    rw [hc]
    simp [hopen, hclose]
  rw [partsTop_eq, partsTop_eq, cutTop_cons, if_pos hcut, hstep, Expr.cutTop_const [c] []]
  rfl

/-- What the scan goes over stays in front of the first part after it. -/
theorem partsTop_of_passes (h : Passes (fun _ c => seps.contains c) 0 [] p) :
    partsTop seps (p ++ s) = glue [p] (partsTop seps s) := by
  rw [partsTop_eq, h s, Expr.cutTop_const (p.reverse ++ []) []]
  rfl

/-- After balanced text the scan is at the same depth. -/
theorem partsTop_append (h : Balanced s) :
    partsTop seps (s ++ t) = glue (partsTop seps s) (partsTop seps t) := by
  induction h with
  | nil =>
    rw [List.nil_append, partsTop_nil]
    cases hparts : partsTop seps t with
    | nil => exact absurd hparts partsTop_ne_nil
    | cons y ys => rfl
  | @char c s hopen hclose _ ih =>
    by_cases hc : seps.contains c = true
    · rw [List.cons_append, partsTop_separator hopen hclose hc, partsTop_separator hopen hclose hc, ih,
        glue_cons partsTop_ne_nil]
    · have hpass : Passes (fun _ c => seps.contains c) 0 [] [c] :=
        .char hopen hclose (fun _ => by simpa using hc) .nil
      have hcons : ∀ r, partsTop seps (c :: r) = glue [[c]] (partsTop seps r) := fun r =>
        partsTop_of_passes hpass
      rw [List.cons_append, hcons, hcons, ih, glue_glue partsTop_ne_nil]
  | @group a b ha _ _ ih =>
    have hgroup : ∀ r, partsTop seps ('(' :: (a ++ ')' :: r)) =
        glue ['(' :: (a ++ [')'])] (partsTop seps r) := fun r => by
      have hpasses : Passes (fun _ c => seps.contains c) 0 [] ('(' :: (a ++ [')'])) := ha.passes_parens
      simpa using partsTop_of_passes (s := r) hpasses
    rw [List.cons_append, List.append_assoc, List.cons_append, hgroup, hgroup, ih,
      glue_glue partsTop_ne_nil]

/-- A separator after balanced text. -/
theorem partsTop_append_separator (h : Balanced s) (hopen : c ≠ '(') (hclose : c ≠ ')')
    (hc : seps.contains c = true) :
    partsTop seps (s ++ c :: t) = partsTop seps s ++ partsTop seps t := by
  rw [partsTop_append h, partsTop_separator hopen hclose hc, glue_nil_cons partsTop_ne_nil]

/-! ## The text of the parts -/

/-- The parts, each after its separator, are the whole text. -/
theorem cutTop_joins (separates : List Char → Char → Bool) : ∀ (s passed : List Char) (depth : Int),
    s = (cutTop separates passed depth s).1 ++ chainText (cutTop separates passed depth s).2 ∧
      ∀ p ∈ (cutTop separates passed depth s).2,
        p.1 ≠ '(' ∧ p.1 ≠ ')' ∧ ∃ before, separates before p.1 = true
  | [], _, _ => ⟨rfl, by simp [cutTop]⟩
  | c :: s, passed, depth => by
    obtain ⟨hjoins, hmore⟩ := cutTop_joins separates s (c :: passed) (depth + depthStep c)
    rw [cutTop_cons]
    by_cases hcut : (decide (depth = 0) && c != '(' && c != ')' && separates passed c) = true
    · rw [if_pos hcut]
      simp only [Bool.and_eq_true, bne_iff_ne, ne_eq] at hcut
      refine ⟨by simpa [chainText] using hjoins, fun p hp => ?_⟩
      rcases List.mem_cons.mp hp with rfl | hp
      · exact ⟨hcut.1.1.2, hcut.1.2, passed, hcut.2⟩
      · exact hmore p hp
    · rw [if_neg hcut]
      exact ⟨by rw [List.cons_append, ← hjoins], hmore⟩

/-- The first part, then each separator with the part after it. -/
theorem exists_joined (seps s : List Char) : ∃ first more, s = first ++ chainText more ∧
    partsTop seps s = first :: more.map Prod.snd ∧
      ∀ p ∈ more, p.1 ≠ '(' ∧ p.1 ≠ ')' ∧ p.1 ∈ seps := by
  obtain ⟨hjoins, hmore⟩ := cutTop_joins (fun _ c => seps.contains c) s [] 0
  refine ⟨_, _, hjoins, rfl, fun p hp => ?_⟩
  obtain ⟨hopen, hclose, -, hsep⟩ := hmore p hp
  exact ⟨hopen, hclose, List.contains_iff_mem.mp hsep⟩

/-- A character of the text is a separator or stands in a part. -/
theorem mem_of_partsTop (seps : List Char) (hc : c ∈ s) : c ∈ seps ∨ ∃ p ∈ partsTop seps s, c ∈ p := by
  obtain ⟨first, more, rfl, hparts, hmore⟩ := exists_joined seps s
  rw [hparts]
  rw [List.mem_append, chainText, List.mem_flatMap] at hc
  rcases hc with hc | ⟨p, hp, hc⟩
  · exact .inr ⟨_, List.mem_cons_self, hc⟩
  · rcases List.mem_cons.mp hc with rfl | hc
    · exact .inl (hmore p hp).2.2
    · exact .inr ⟨p.2, List.mem_cons_of_mem _ (List.mem_map_of_mem hp), hc⟩

/-- Every part stands in the text as it is. -/
theorem infix_of_mem_partsTop (hp : p ∈ partsTop seps s) : p <:+: s := by
  obtain ⟨first, more, rfl, hparts, -⟩ := exists_joined seps s
  rw [hparts] at hp
  rcases List.mem_cons.mp hp with rfl | hp
  · exact (List.prefix_append _ _).isInfix
  · obtain ⟨piece, hpiece, rfl⟩ := List.mem_map.mp hp
    obtain ⟨before, after, rfl⟩ := List.append_of_mem hpiece
    have hpiece : piece.2 <:+: chainText (before ++ piece :: after) :=
      ⟨chainText before ++ [piece.1], chainText after, by simp [chainText]⟩
    exact hpiece.trans (List.suffix_append _ _).isInfix

theorem length_le_of_mem_partsTop (hp : p ∈ partsTop seps s) : p.length ≤ s.length :=
  (infix_of_mem_partsTop hp).length_le

/-- Text whose parts are balanced is balanced. -/
theorem balanced_of_partsTop (h : ∀ p ∈ partsTop seps s, Balanced p) : Balanced s := by
  obtain ⟨first, more, rfl, hparts, hmore⟩ := exists_joined seps s
  rw [hparts] at h
  refine (h _ List.mem_cons_self).append (balanced_chainText fun p hp => ?_)
  exact ⟨(hmore p hp).1, (hmore p hp).2.1, h p.2 (List.mem_cons_of_mem _ (List.mem_map_of_mem hp))⟩

/-- Text that holds none of the separators is one part. -/
theorem partsTop_of_not_mem (h : ∀ c ∈ seps, c ∉ s) : partsTop seps s = [s] := by
  obtain ⟨first, more, hjoins, hparts, hmore⟩ := exists_joined seps s
  cases more with
  | nil => rw [hparts, hjoins, chainText, List.flatMap_nil, List.append_nil, List.map_nil]
  | cons p more =>
    exact absurd (by rw [hjoins]; simp [chainText]) (h p.1 (hmore p List.mem_cons_self).2.2)

/-- Two texts that are one part each, one after the other. -/
theorem partsTop_append_whole (h : Balanced s) (hs : partsTop seps s = [s]) (ht : partsTop seps t = [t]) :
    partsTop seps (s ++ t) = [s ++ t] := by
  rw [partsTop_append h, hs, ht]
  rfl

theorem partsTop_parens (h : Balanced s) : partsTop seps ('(' :: (s ++ [')'])) = ['(' :: (s ++ [')'])] := by
  have hpasses : Passes (fun _ c => seps.contains c) 0 [] ('(' :: (s ++ [')'])) := h.passes_parens
  simpa [partsTop_nil, glue] using partsTop_of_passes (s := []) hpasses

/-- Every part of balanced text is balanced. -/
theorem Balanced.of_mem_partsTop (h : Balanced s) (hp : p ∈ partsTop seps s) : Balanced p := by
  have hcuts : Cuts (fun _ c => seps.contains c) (fun _ => false) s _ _ := h.uncut.cuts_cutTop (by simp) []
  rw [partsTop_eq] at hp
  rcases List.mem_cons.mp hp with rfl | hp
  · exact hcuts.first.balanced
  · obtain ⟨piece, hpiece, rfl⟩ := List.mem_map.mp hp
    exact (hcuts.more piece hpiece).2.balanced

/-- The text starts with its first part. -/
theorem exists_append_of_partsTop (h : partsTop seps s = p :: ps) : ∃ t, s = p ++ t := by
  obtain ⟨first, more, rfl, hparts, -⟩ := exists_joined seps s
  obtain ⟨rfl, -⟩ := List.cons.inj (hparts.symm.trans h)
  exact ⟨_, rfl⟩

theorem eq_of_partsTop (h : partsTop seps s = [p]) : p = s := by
  obtain ⟨first, more, rfl, hparts, -⟩ := exists_joined seps s
  obtain ⟨rfl, hmore⟩ := List.cons.inj (hparts.symm.trans h)
  rw [List.map_eq_nil_iff.mp hmore, chainText, List.flatMap_nil, List.append_nil]

/-- The text ends with its last part. -/
theorem exists_append_of_partsTop_snoc (h : partsTop seps s = xs ++ [p]) : ∃ t, s = t ++ p := by
  obtain ⟨first, more, rfl, hparts, -⟩ := exists_joined seps s
  rw [hparts] at h
  rcases List.eq_nil_or_concat more with rfl | ⟨more, ⟨c, t⟩, rfl⟩
  · have hlast : [] ++ [first] = xs ++ [p] := h
    obtain ⟨-, heq⟩ := List.append_inj' hlast rfl
    obtain rfl : first = p := by simpa using heq
    exact ⟨[], by simp [chainText]⟩
  · rw [List.concat_eq_append, List.map_append, ← List.cons_append] at h
    obtain ⟨-, heq⟩ := List.append_inj' h rfl
    obtain rfl : t = p := by simpa using heq
    exact ⟨first ++ chainText more ++ [c], by simp [chainText]⟩

/-! ## Cutting once -/

theorem cutOnceTop_eq_some {target : Char} : ∀ {s a b : List Char} {depth : Int},
    cutOnceTop target depth s = some (a, b) → s = a ++ target :: b
  | [], _, _, _, h => by cases h
  | c :: s, a, b, depth, h => by
    rw [cutOnceTop] at h
    split at h
    · rename_i hc
      cases h
      simp only [Bool.and_eq_true, beq_iff_eq] at hc
      rw [hc.2, List.nil_append]
    · obtain ⟨a, hs, rfl⟩ := map_cons_eq_some.mp h
      rw [List.cons_append, ← cutOnceTop_eq_some hs]

/-- Below the outermost level nothing is found. -/
theorem Balanced.cutOnceTop_append {target : Char} (h : Balanced s) : ∀ {depth : Int} (r : List Char),
    0 < depth → cutOnceTop target depth (s ++ r) =
      (cutOnceTop target depth r).map fun p => (s ++ p.1, p.2) := by
  induction h with
  | nil => intro depth r _; simp
  | @char c s hopen hclose _ ih =>
    intro depth r hd
    have hstep : depth + depthStep c = depth := by simp [depthStep, hopen, hclose]
    have hout : ¬ (decide (depth = 0) && c == target) = true := by simp [hd.ne']
    rw [List.cons_append, cutOnceTop, if_neg hout, hstep, ih r hd, Option.map_map]
    rfl
  | @group a b _ _ iha ihb =>
    intro depth r hd
    have hopen : ¬ (decide (depth = 0) && '(' == target) = true := by simp [hd.ne']
    have hclose : ¬ (decide (depth + 1 = 0) && ')' == target) = true := by
      simp only [Bool.and_eq_true, decide_eq_true_eq, not_and]
      omega
    have hup : depth + depthStep '(' = depth + 1 := rfl
    have hdown : depth + 1 + depthStep ')' = depth := by simp [depthStep]
    rw [List.cons_append, cutOnceTop, if_neg hopen, hup, List.append_assoc, iha _ (by omega),
      List.cons_append, cutOnceTop, if_neg hclose, hdown, ihb r hd]
    simp [Function.comp_def]

/-- Nothing is found in a group. -/
theorem cutOnceTop_group {target : Char} (h : Balanced s) (htarget : target ≠ '(' ∧ target ≠ ')') :
    cutOnceTop target 0 ('(' :: (s ++ ')' :: t)) =
      (cutOnceTop target 0 t).map fun p => ('(' :: (s ++ ')' :: p.1), p.2) := by
  have hopen : ¬ (decide ((0 : Int) = 0) && '(' == target) = true := by simp [htarget.1.symm]
  have hclose : ¬ (decide ((0 : Int) + 1 = 0) && ')' == target) = true := by simp
  have hup : (0 : Int) + depthStep '(' = 0 + 1 := rfl
  have hdown : (0 : Int) + 1 + depthStep ')' = 0 := rfl
  rw [cutOnceTop, if_neg hopen, hup, h.cutOnceTop_append _ (by decide), cutOnceTop, if_neg hclose, hdown]
  simp [Function.comp_def]

/-- Nothing is found where the character does not occur. -/
theorem Balanced.cutOnceTop_of_not_mem {target : Char} (h : Balanced s) (htarget : target ∉ s)
    (r : List Char) : cutOnceTop target 0 (s ++ r) =
      (cutOnceTop target 0 r).map fun p => (s ++ p.1, p.2) := by
  induction h with
  | nil => simp
  | @char c s hopen hclose _ ih =>
    rw [List.mem_cons, not_or] at htarget
    have hstep : (0 : Int) + depthStep c = 0 := by simp [depthStep, hopen, hclose]
    have hout : ¬ (decide ((0 : Int) = 0) && c == target) = true := by simp [Ne.symm htarget.1]
    rw [List.cons_append, cutOnceTop, if_neg hout, hstep, ih htarget.2, Option.map_map]
    rfl
  | @group a b ha _ _ ihb =>
    simp only [List.mem_cons, List.mem_append, not_or] at htarget
    obtain ⟨hopen, -, hclose, htarget⟩ := htarget
    rw [List.cons_append, List.append_assoc, List.cons_append, cutOnceTop_group ha ⟨hopen, hclose⟩,
      ihb htarget, Option.map_map]
    simp [Function.comp_def]

/-! ## Trimming -/

theorem trimStart_of_trim (h : trim s = s) : trimStart s = s := by
  have hle : (trimStart s).length ≤ s.length := length_trimStart_le s
  have hge : s.length ≤ (trimStart s).length := by
    conv_lhs => rw [← h]
    exact length_trimEnd_le _
  exact (List.dropWhile_suffix isBlank).eq_of_length (le_antisymm hle hge)

theorem trimEnd_of_trim (h : trim s = s) : trimEnd s = s := by
  rw [trim, trimStart_of_trim h] at h
  exact h

theorem trim_append_cons (hc : isBlank c = false) (hs : allBlank s = false) :
    trim (s ++ c :: t) = trimStart s ++ c :: trimEnd t := by
  rw [trim, trimStart_append hs, trimEnd_append (by simp [allBlank, hc])]
  have htail : trimEnd (c :: t) = c :: trimEnd t := by
    rw [trimEnd]
    split
    · rename_i hnil
      simp [hnil, hc]
    · rename_i hcons
      rw [hcons]
  rw [htail]

/-! ## Power signs -/

/-- Nothing but a star makes a power sign of a star before it. -/
theorem caretPowers_append_cons (hc : c ≠ '*') :
    caretPowers (s ++ c :: t) = caretPowers s ++ c :: caretPowers t := by
  fun_induction caretPowers s with
  | case1 r ih => rw [List.cons_append, List.cons_append, caretPowers, ih, List.cons_append]
  | case2 d r hne ih =>
    by_cases hd : d = '*'
    · subst hd
      have hhead : (r ++ c :: t).head? ≠ some '*' := by
        cases r with
        | nil => simpa using hc
        | cons b r =>
          have hb : b ≠ '*' := by
            rintro rfl
            exact hne r rfl rfl
          simpa using hb
      rw [List.cons_append, caretPowers_star hhead, ih, List.cons_append]
    · rw [List.cons_append, caretPowers_cons hd, ih, List.cons_append]
  | case3 => exact caretPowers_cons hc

theorem prefix_of_caretPowers (hcaret : '^' ∉ p) (h : p <+: caretPowers s) : p <+: s := by
  fun_induction caretPowers s generalizing p with
  | case1 r _ =>
    rcases List.prefix_cons_iff.mp h with rfl | ⟨t, rfl, -⟩
    · exact List.nil_prefix
    · simp at hcaret
  | case2 c r _ ih =>
    rcases List.prefix_cons_iff.mp h with rfl | ⟨t, rfl, ht⟩
    · exact List.nil_prefix
    · exact List.prefix_cons_iff.mpr (.inr ⟨t, rfl, ih (by simp_all) ht⟩)
  | case3 => exact h

/-- What stands in the text once carets are put in, and has none itself, stood in it before. -/
theorem infix_of_caretPowers (hcaret : '^' ∉ p) (h : p <:+: caretPowers s) : p <:+: s := by
  fun_induction caretPowers s with
  | case1 r ih =>
    rcases List.infix_cons_iff.mp h with h | h
    · exact (prefix_of_caretPowers (s := '*' :: '*' :: r) hcaret (by rwa [caretPowers])).isInfix
    · exact (ih h).trans ⟨['*', '*'], [], by simp⟩
  | case2 c r hne ih =>
    rcases List.infix_cons_iff.mp h with h | h
    · exact (prefix_of_caretPowers hcaret (by rwa [caretPowers.eq_2 _ _ hne])).isInfix
    · exact List.infix_cons (ih h)
  | case3 => exact h

end Formulary
