import Formulary.Proofs.Expr.Grammar
import Formulary.Proofs.Text.Blank
import Formulary.Proofs.Text.Cut

/-!
Every text of the grammar is read as its tree.

This is the way from the grammar to the reader; that nothing else is read is shown where acceptance is
(`Expr.Acceptance`). The two are not built alike. A derivation says at each place which operator binds
there. The reader has no tokens: at each level it cuts its text at all operators of the level that stand
outside parentheses, and then reads the pieces at the next level.

## How the proof goes

Each level of the reader is followed in turn, from groups and tokens up to sums.

* Only what stands inside parentheses is read by the whole reader again. It is shorter than the text, so
  the reader that a level is given for it (`inner`) may be assumed right below a bound (`ReadsBelow`).
  The assumption is discharged at the very end, by induction on the depth (`readNested_eq`).
* Literals, names, calls and groups are taken case by case of the derivation (`readPrimary_eq`).
* Powers and signs are read in another order than they are derived. A derivation of `-a^-b` takes the
  sign first, then the power, then the sign of its exponent; the reader takes the first sign, then cuts
  at all power signs at once, and strips signs from one piece after the other. So the induction is not
  on what the text is read as, but on what its pieces are read as (`PartsRead`): this is a statement on
  `cutPowers s`, which a sign and a base in front change in a simple way (`cutPowers_sign`,
  `cutPowers_power`). In the end `stripSigns_cutPowers` exchanges the first two steps of the reader.
* Sums and products nest to the left in the grammar, while the reader folds over a list of pieces.
  `chain_of_derives` lists the operands of a derivation, and `readOperands_of_chain` folds them again.
  Both levels share these two; they differ in where they are cut.

That a level cuts just where the grammar has an operator of the level is nothing to be shown here: the
scan passes over what is derived at a tighter level (`Derives.passes`, and `Derives.spans` for the signs,
for which it matters what stands before).

## What the side conditions are for

The reader trims a text whenever it comes to it, and so takes off blanks that a derivation has put
elsewhere, around a base or before a sign. Hence the first section: a derived text is derived with the
same tree when its ends are trimmed.

A blank piece between two operators is a fault of its own, and the reader looks for these before it reads
anything. So with each piece it is carried along that it is not blank (`Derives.not_blank`, and the second
halves of `PartsRead`).

A base must not start with a sign (`StartsUnsigned`). Stripping the signs of the whole would reach into it,
and `-a^b` is the negative of a power, not the power of a negative.
-/

namespace Formulary

open Formulary.Expr

section Derivations

variable {l : Level} {s t : List Char} {e : Expr} {c : Char}

/-! ## Trimming derived texts -/

theorem not_blank_of_literal {q : Rat} (h : Exact.Literal s q) : ∀ c ∈ s, isBlank c = false := by
  intro c hc
  rcases chars_of_literal h c hc with ht | rfl | rfl
  · exact not_blank_of_isTokenChar ht
  · decide
  · decide

theorem not_blank_of_isIdentifier (h : isIdentifier s = true) : ∀ c ∈ s, isBlank c = false :=
  fun c hc => not_blank_of_isTokenChar (isTokenChar_of_isIdentifier h c hc)

/-- Nothing blank is derived. An operand stands before the end of a derived text, and so a character
that is not blank. -/
theorem Derives.not_blank (h : Derives l s e) : allBlank s = false := by
  obtain ⟨d, r, hd, -⟩ := (h.scan operandStart_nil).2
  rw [Bool.eq_false_iff]
  intro hb
  have hnil : (s.reverse ++ []).dropWhile isBlank = [] := by
    rw [dropWhile_blanks hb]
    rfl
  rw [hnil] at hd
  cases hd

theorem allBlank_identifier_append (h : isIdentifier s = true) : allBlank (s ++ t) = false := by
  cases s with
  | nil => cases h
  | cons c s =>
    have hc := not_blank_of_isIdentifier h c (by simp)
    simp [allBlank, hc]

theorem trimStart_identifier_append (h : isIdentifier s = true) :
    Formulary.trimStart (s ++ t) = s ++ t := by
  have hb : allBlank s = false := by simpa using allBlank_identifier_append (t := []) h
  rw [trimStart_append hb, trimStart_of_forall (not_blank_of_isIdentifier h)]

/-- By induction, into whatever the text starts with. A tree that had blanks in front of its own is
derived with no blanks there, by the same rule. -/
theorem Derives.trimStart (h : Derives l s e) : Derives l (trimStart s) e := by
  induction h with
  | literal h =>
    rw [trimStart_of_forall (not_blank_of_literal h)]
    exact .literal h
  | name h =>
    rw [trimStart_of_forall (not_blank_of_isIdentifier h)]
    exact .name h
  | callEmpty hs hw hv =>
    rw [List.append_assoc, trimStart_identifier_append hs, ← List.append_assoc]
    exact .callEmpty hs hw hv
  | call hs hw hne h _ =>
    rw [List.append_assoc, trimStart_identifier_append hs, ← List.append_assoc]
    exact .call hs hw hne h
  | group h _ =>
    rw [trimStart_cons (by decide)]
    exact .group h
  | @padded s w v e hw hv h ih =>
    rw [List.append_assoc, trimStart_blanks hw, trimStart_append h.not_blank]
    exact .padded (w := []) (by rfl) hv ih
  | power hs ht ihs _ =>
    rw [trimStart_append hs.not_blank]
    exact .power ihs ht
  | minus hw h _ =>
    rw [trimStart_blanks hw, trimStart_cons (by decide)]
    exact .minus (w := []) (by rfl) h
  | plus hw h _ =>
    rw [trimStart_blanks hw, trimStart_cons (by decide)]
    exact .plus (w := []) (by rfl) h
  | operation hop hs ht ihs _ =>
    rw [trimStart_append hs.not_blank]
    exact .operation hop ihs ht
  | operand _ ih => exact .operand ih

/-- Trimming reaches what stands last, unless all of it is blank. -/
theorem trimEnd_tail (hb : isBlank c = false) (ht : allBlank t = false) :
    trimEnd (s ++ c :: t) = s ++ c :: trimEnd t := by
  have hct : allBlank (c :: t) = false := by simp [allBlank, hb]
  rw [trimEnd_append hct]
  exact congrArg (s ++ ·) (trimEnd_append (s := [c]) ht)

theorem trimEnd_parens : trimEnd (s ++ '(' :: (t ++ [')'])) = s ++ '(' :: (t ++ [')']) := by
  rw [trimEnd_tail (by decide) (by simp [allBlank, show isBlank ')' = false by decide]),
    trimEnd_concat (by decide)]

theorem not_blank_of_operation? {op : BinaryOp} (h : l.operation? c = some op) :
    isBlank c = false := by
  rcases operation?_eq_some h with ⟨-, ⟨rfl, -⟩ | ⟨rfl, -⟩⟩ | ⟨-, ⟨rfl, -⟩ | ⟨rfl, -⟩⟩ <;> decide

/-- As for the start, into whatever the text ends with. This is the right operand, where at the start it
was the left one. -/
theorem Derives.trimEnd (h : Derives l s e) : Derives l (trimEnd s) e := by
  induction h with
  | literal h =>
    rw [trimEnd_of_forall (not_blank_of_literal h)]
    exact .literal h
  | name h =>
    rw [trimEnd_of_forall (not_blank_of_isIdentifier h)]
    exact .name h
  | callEmpty hs hw hv =>
    rw [trimEnd_parens]
    exact .callEmpty hs hw hv
  | call hs hw hne h _ =>
    rw [trimEnd_parens]
    exact .call hs hw hne h
  | @group s e h _ =>
    have hparens : Formulary.trimEnd ('(' :: (s ++ [')'])) = '(' :: (s ++ [')']) :=
      trimEnd_parens (s := [])
    rw [hparens]
    exact .group h
  | @padded s w v e hw hv h ih =>
    rw [trimEnd_blanks hv, trimEnd_append h.not_blank]
    simpa using Derives.padded (v := []) hw (by rfl) ih
  | power hs ht _ iht =>
    rw [trimEnd_tail (by decide) ht.not_blank]
    exact .power hs iht
  | minus hw h ih =>
    rw [trimEnd_tail (by decide) h.not_blank]
    exact .minus hw ih
  | plus hw h ih =>
    rw [trimEnd_tail (by decide) h.not_blank]
    exact .plus hw ih
  | operation hop hs ht _ iht =>
    rw [trimEnd_tail (not_blank_of_operation? hop) ht.not_blank]
    exact .operation hop hs iht
  | operand _ ih => exact .operand ih

theorem Derives.trim (h : Derives l s e) : Derives l (trim s) e := h.trimStart.trimEnd

end Derivations

namespace Expr

variable {inner : List Char → Except ExprError Expr} {bound : Nat} {l : Level} {s t : List Char}
  {e : Expr} {c : Char}

/-- Derived sums shorter than the bound are read as their trees. -/
def ReadsBelow (inner : List Char → Except ExprError Expr) (bound : Nat) : Prop :=
  ∀ t e, t.length < bound → Derives .sum t e → inner t = .ok e

/-! ## Groups, calls and tokens -/

theorem ne_open_of_isIdentifier (h : isIdentifier s = true) : ∀ d ∈ s, d ≠ '(' :=
  fun d hd => (ne_parens_of_isTokenChar (isTokenChar_of_isIdentifier h d hd)).1

theorem ne_open_of_identifier_blanks (hs : isIdentifier s = true) (ht : allBlank t = true) :
    ∀ d ∈ s ++ t, d ≠ '(' := by
  intro d hd
  rcases List.mem_append.mp hd with hd | hd
  · exact ne_open_of_isIdentifier hs d hd
  · exact (ne_parens_of_isBlank (List.all_eq_true.mp ht d hd)).1

/-- A literal is no call, and the reader of numbers takes it: it is no quotient of two either. -/
theorem readPrimary_literal {q : Rat} (h : Exact.Literal s q) :
    readPrimary inner s = .ok (.number q) := by
  -- its one sign may be that of the exponent; no other mark can be in it
  have hchar : ∀ d, d ∈ marks → d ≠ '+' → d ≠ '-' → ∀ c ∈ s, c ≠ d := by
    rintro d hd hplus hminus c hc rfl
    rcases chars_of_literal h c hc with ht | ht | ht
    · exact not_mem_marks_of_isTokenChar ht hd
    · exact hplus ht
    · exact hminus ht
  have hopen : cutOnce '(' s = none :=
    cutOnce_of_not_mem (hchar '(' (by decide) (by decide) (by decide))
  have hblank := not_blank_of_literal h
  have hvalue : Exact.read s = .ok q :=
    (Exact.read_eq_ok (trim_of_forall hblank) (hchar '/' (by decide) (by decide) (by decide))
      h.startsLiteral).mpr h
  obtain ⟨c, r, rfl, hc⟩ := h.startsLiteral
  simp only [readPrimary, trim_of_forall hblank, hopen, readToken, hc, hvalue]
  rfl

theorem readPrimary_name (h : isIdentifier s = true) :
    readPrimary inner s = .ok (.symbol (String.ofList s)) := by
  have hopen := cutOnce_of_not_mem (ne_open_of_isIdentifier h)
  simp only [readPrimary, trim_of_forall (not_blank_of_isIdentifier h), hopen]
  cases s with
  | nil => cases h
  | cons c r =>
    have hc : isNameStart c = true := by
      simp only [isIdentifier, Bool.and_eq_true] at h
      exact h.1
    simp [readToken, not_numeric_of_isNameStart hc, h]

/-- A name, blanks and a group are a call. -/
theorem readPrimary_call {w : List Char} (hs : isIdentifier s = true) (hw : allBlank w = true)
    (ht : Balanced t) :
    readPrimary inner (s ++ w ++ '(' :: (t ++ [')'])) =
      (readArgs inner t).map (.call (String.ofList s)) := by
  have hb : allBlank s = false := by simpa using allBlank_identifier_append (t := []) hs
  have htrim : trim (s ++ w ++ '(' :: (t ++ [')'])) = s ++ w ++ '(' :: (t ++ [')']) := by
    rw [trim, List.append_assoc, trimStart_append hb,
      trimStart_of_forall (not_blank_of_isIdentifier hs), ← List.append_assoc, trimEnd_parens]
  have hname : trim (s ++ w) = s := by
    rw [trim, trimStart_append hb, trimStart_of_forall (not_blank_of_isIdentifier hs),
      trimEnd_blanks hw, trimEnd_of_forall (not_blank_of_isIdentifier hs)]
  have hclose := cutClose_group ht []
  have hcut := cutOnce_append (t := t ++ [')']) (ne_open_of_identifier_blanks hs hw)
  simp only [readPrimary, htrim, hcut, hclose, hname, hs]
  -- before the parenthesis there is something, so it is not that of a group
  cases hsw : s ++ w with
  | nil =>
    cases s with
    | nil => cases hs
    | cons d s => cases hsw
  | cons d r => rfl

/-- A group is read as what is inside, faults included. -/
theorem readPrimary_group (hs : Balanced s) (e : Except ExprError Expr) (h : inner s = e) :
    readPrimary inner ('(' :: (s ++ [')'])) = e := by
  have htrim : trim ('(' :: (s ++ [')'])) = '(' :: (s ++ [')']) := by
    rw [trim, trimStart_cons (by decide)]
    exact trimEnd_parens (s := [])
  have hclose := cutClose_group hs []
  simp [readPrimary, htrim, cutOnce, hclose, h]

theorem readPrimary_padded {w v : List Char} (hw : allBlank w = true) (hv : allBlank v = true)
    (hs : allBlank s = false) : readPrimary inner (w ++ s ++ v) = readPrimary inner s := by
  unfold readPrimary
  rw [trim_blanks hw hv hs]

/-! ### Arguments -/

theorem length_le_chainText {pieces : List (Char × List Char)} {p : Char × List Char}
    (h : p ∈ pieces) : p.2.length ≤ (chainText pieces).length := by
  induction pieces with
  | nil => cases h
  | cons q pieces ih =>
    rcases List.mem_cons.mp h with rfl | h
    · simp [chainText]
      omega
    · have := ih h
      simp [chainText] at this ⊢
      omega

theorem length_le_commaText {ss : List (List Char)} (h : s ∈ ss) :
    s.length ≤ (commaText ss).length := by
  cases ss with
  | nil => cases h
  | cons t ss =>
    rcases List.mem_cons.mp h with rfl | h
    · simp [commaText]
    · have := length_le_chainText (List.mem_map_of_mem (f := fun t => (',', t)) h)
      simp [commaText] at this ⊢
      omega

/-- Texts that commas do not cut are the parts of the text that joins them. -/
theorem partsTop_commaText {ss : List (List Char)} (hne : ss ≠ [])
    (h : ∀ s ∈ ss, ∀ passed, Passes (fun _ c => [','].contains c) 0 passed s) :
    partsTop [','] (commaText ss) = ss := by
  cases ss with
  | nil => exact absurd rfl hne
  | cons s ss =>
    have hcut : cutTop (fun _ c => [','].contains c) [] 0
        (s ++ chainText (ss.map fun t => (',', t))) = (s, ss.map fun t => (',', t)) := by
      refine cutTop_chain_of_passes (h s (by simp)) fun p hp => ?_
      obtain ⟨t, ht, rfl⟩ := List.mem_map.mp hp
      exact ⟨by simp, h t (by simp [ht])⟩
    rw [partsTop, commaText, hcut]
    simp [Function.comp_def]

/-- Arguments are read one by one, each as its tree. -/
theorem mapM_inner {args : List (List Char × Expr)} (h : ∀ a ∈ args, inner a.1 = .ok a.2) :
    (args.map Prod.fst).mapM inner = .ok (args.map Prod.snd) := by
  induction args with
  | nil => rfl
  | cons a args ih =>
    simp only [List.map_cons, List.mapM_cons, h a (by simp), ih fun b hb => h b (by simp [hb])]
    rfl

/-- Arguments are not mistaken for an empty list of them. -/
theorem allBlank_commaText {ss : List (List Char)} (h : ∃ s ∈ ss, allBlank s = false) :
    allBlank (commaText ss) = false := by
  obtain ⟨s, hs, hb⟩ := h
  cases ss with
  | nil => cases hs
  | cons t ss =>
    cases ss with
    | nil =>
      obtain rfl : s = t := by simpa using hs
      simpa [commaText, chainText] using hb
    | cons u ss => simp [commaText, chainText, allBlank, show isBlank ',' = false by decide]

theorem readArgs_commaText {args : List (List Char × Expr)} (hne : args ≠ [])
    (h : ∀ a ∈ args, Derives .sum a.1 a.2) (hin : ∀ a ∈ args, inner a.1 = .ok a.2) :
    readArgs inner (commaText (args.map Prod.fst)) = .ok (args.map Prod.snd) := by
  have hblank : allBlank (commaText (args.map Prod.fst)) = false := by
    obtain ⟨a, ha⟩ := List.exists_mem_of_ne_nil args hne
    exact allBlank_commaText ⟨a.1, List.mem_map_of_mem ha, (h a ha).not_blank⟩
  have hparts : partsTop [','] (commaText (args.map Prod.fst)) = args.map Prod.fst := by
    refine partsTop_commaText (by simpa using hne) fun s hs passed => ?_
    obtain ⟨a, ha, rfl⟩ := List.mem_map.mp hs
    exact (h a ha).passes fun c hc => by simpa [Level.foreign] using hc
  simp only [readArgs, hblank, hparts, mapM_inner hin]
  rfl

-- The level is a variable, with an equation for it: the induction is over derivations of any level, and
-- the equation rules out all but those of a primary.
theorem readPrimary_eq (hin : ReadsBelow inner bound) (h : Derives l s e) (hl : l = .primary)
    (hlen : s.length ≤ bound) : readPrimary inner s = .ok e := by
  induction h with
  | literal h => exact readPrimary_literal h
  | name h => exact readPrimary_name h
  | callEmpty hs hw hv =>
    rw [readPrimary_call hs hw (balanced_of_allBlank hv), readArgs, if_pos hv]
    rfl
  | @call s w args hs hw hne h _ =>
    have hbalanced : Balanced (commaText (args.map Prod.fst)) :=
      balanced_commaText fun t ht => by
        obtain ⟨a, ha, rfl⟩ := List.mem_map.mp ht
        exact (h a ha).balanced
    have hread : ∀ a ∈ args, inner a.1 = .ok a.2 := fun a ha => by
      have := length_le_commaText (List.mem_map_of_mem (f := Prod.fst) ha)
      refine hin a.1 a.2 ?_ (h a ha)
      simp at hlen
      omega
    rw [readPrimary_call hs hw hbalanced, readArgs_commaText hne h hread]
    rfl
  | @group s e h _ =>
    refine readPrimary_group h.balanced _ (hin s e ?_ h)
    simp at hlen
    omega
  | @padded s w v e hw hv h ih =>
    rw [readPrimary_padded hw hv h.not_blank]
    refine ih rfl ?_
    simp at hlen
    omega
  | power => cases hl
  | minus => cases hl
  | plus => cases hl
  | operation hop =>
    subst hl
    cases hop
  | operand _ ih =>
    subst hl
    exact ih rfl hlen

/-! ## Powers and signs -/

/-- Cuts at the power signs. -/
abbrev cutPowers (s : List Char) : List Char × List (Char × List Char) :=
  cutTop (fun _ c => c == '^') [] 0 s

/-- What stands before does not matter for a separator that is one wherever it stands. -/
theorem cutTop_const {sep : Char → Bool} (passed passed' : List Char) (depth : Int) :
    cutTop (fun _ => sep) passed depth s = cutTop (fun _ => sep) passed' depth s := by
  induction s generalizing passed passed' depth with
  | nil => rfl
  | cons c s ih => rw [cutTop, cutTop, ih (c :: passed) (c :: passed')]

/-- What has no power sign of its own belongs to the first piece. -/
theorem cutPowers_append (hs : Passes (fun _ c => c == '^') 0 [] s) :
    cutPowers (s ++ t) = (s ++ (cutPowers t).1, (cutPowers t).2) := by
  rw [cutPowers, hs t, cutTop_const (s.reverse ++ []) []]

theorem cutPowers_cons (hc : c ≠ '^') (hopen : c ≠ '(') (hclose : c ≠ ')') :
    cutPowers (c :: t) = (c :: (cutPowers t).1, (cutPowers t).2) :=
  cutPowers_append (s := [c]) (.char hopen hclose (fun _ => by simpa using hc) .nil)

theorem cutPowers_mark (t : List Char) :
    cutPowers ('^' :: t) = ([], ('^', (cutPowers t).1) :: (cutPowers t).2) := by
  have hstep : (0 : Int) + depthStep '^' = 0 := by decide
  rw [cutPowers, cutTop, hstep, cutTop_const ['^'] []]
  simp

theorem stripSigns_blanks {w : List Char} (hw : allBlank w = true) :
    stripSigns (w ++ s) = stripSigns s := by
  induction w with
  | nil => rfl
  | cons c w ih =>
    simp only [allBlank_cons, Bool.and_eq_true] at hw
    simp [stripSigns, hw.1, ih hw.2]

/-- Signs may be stripped before or after the powers are cut. -/
theorem stripSigns_cutPowers (s : List Char) :
    stripSigns (cutPowers s).1 = ((stripSigns s).1, (cutPowers (stripSigns s).2).1) ∧
      (cutPowers (stripSigns s).2).2 = (cutPowers s).2 := by
  induction s with
  | nil => exact ⟨rfl, rfl⟩
  | cons c s ih =>
    -- what is stripped is no power sign, so cutting leaves it where it is
    by_cases hskip : (isBlank c || c == '+') = true
    · have hc : c ≠ '^' ∧ c ≠ '(' ∧ c ≠ ')' := by
        refine ⟨?_, ?_, ?_⟩ <;> rintro rfl <;> exact absurd hskip (by decide)
      simp only [cutPowers_cons hc.1 hc.2.1 hc.2.2, stripSigns, hskip, if_true]
      exact ih
    · by_cases hminus : (c == '-') = true
      · have hc : c ≠ '^' ∧ c ≠ '(' ∧ c ≠ ')' := by
          refine ⟨?_, ?_, ?_⟩ <;> rintro rfl <;> exact absurd hminus (by decide)
        simpa [cutPowers_cons hc.1 hc.2.1 hc.2.2, stripSigns, hskip, hminus, ih.1] using ih.2
      -- nothing is stripped from here on, nor from the first piece: it is empty or starts with `c`
      · have hstop : stripSigns (c :: s) = (0, c :: s) := by simp [stripSigns, hskip, hminus]
        refine ⟨?_, by rw [hstop]⟩
        rw [hstop]
        cases hcut : (cutPowers (c :: s)).1 with
        | nil => rfl
        | cons d r =>
          have hd : d = c := by
            simp only [cutPowers, cutTop] at hcut
            split at hcut
            · cases hcut
            · exact (List.cons.inj hcut).1.symm
          subst hd
          simp [stripSigns, hskip, hminus]

/-- Blanks, then a character that is neither a blank nor a sign. -/
def StartsUnsigned (s : List Char) : Prop :=
  ∃ w c r, s = w ++ c :: r ∧ allBlank w = true ∧ isBlank c = false ∧
    (c == '+' || c == '-') = false

theorem StartsUnsigned.append (h : StartsUnsigned s) (t : List Char) : StartsUnsigned (s ++ t) := by
  obtain ⟨w, c, r, rfl, hw, hb, hsign⟩ := h
  exact ⟨w, c, r ++ t, by simp, hw, hb, hsign⟩

theorem StartsUnsigned.blanks {w : List Char} (h : StartsUnsigned s) (hw : allBlank w = true) :
    StartsUnsigned (w ++ s) := by
  obtain ⟨v, c, r, rfl, hv, hb, hsign⟩ := h
  exact ⟨w ++ v, c, r, by simp, by simp [allBlank_append, hw, hv], hb, hsign⟩

theorem startsUnsigned_of_isTokenChar (h : isTokenChar c = true) : StartsUnsigned (c :: s) := by
  refine ⟨[], c, s, rfl, rfl, not_blank_of_isTokenChar h, ?_⟩
  rw [Bool.eq_false_iff]
  intro hc
  simp only [Bool.or_eq_true, beq_iff_eq] at hc
  rcases hc with rfl | rfl <;> exact absurd h (by decide)

theorem startsUnsigned_of_isIdentifier (h : isIdentifier s = true) : StartsUnsigned s := by
  cases s with
  | nil => cases h
  | cons c s => exact startsUnsigned_of_isTokenChar (isTokenChar_of_isIdentifier h c (by simp))

theorem StartsUnsigned.stripSigns (h : StartsUnsigned s) :
    stripSigns s = (0, Formulary.trimStart s) := by
  obtain ⟨w, c, r, rfl, hw, hb, hsign⟩ := h
  simp only [Bool.or_eq_false_iff] at hsign
  rw [stripSigns_blanks hw, trimStart_blanks hw, trimStart_cons hb]
  simp [Expr.stripSigns, hb, hsign.1, hsign.2]

/-- A primary has no sign in front: signs are derived at a looser level, or inside parentheses. -/
theorem startsUnsigned_of_derives (h : Derives l s e) (hl : l = .primary) : StartsUnsigned s := by
  induction h with
  | literal h =>
    obtain ⟨c, r, rfl, hc⟩ := h.startsLiteral
    exact startsUnsigned_of_isTokenChar (isTokenChar_of_mantissa (by simpa using hc))
  | name h => exact startsUnsigned_of_isIdentifier h
  | callEmpty hs => exact ((startsUnsigned_of_isIdentifier hs).append _).append _
  | call hs => exact ((startsUnsigned_of_isIdentifier hs).append _).append _
  | group => exact ⟨[], '(', _, rfl, rfl, by decide, by decide⟩
  | padded hw _ _ ih => exact ((ih rfl).blanks hw).append _
  | power => cases hl
  | minus => cases hl
  | plus => cases hl
  | operation hop =>
    subst hl
    cases hop
  | operand _ ih =>
    subst hl
    exact ih rfl

/-- Blanks in front of the first piece do not matter. They are lost when signs are stripped. -/
theorem readPower_trimStart (more : List (Char × List Char)) :
    readPower inner (Formulary.trimStart s) more = readPower inner s more := by
  have hprimary : readPrimary inner (Formulary.trimStart s) = readPrimary inner s := by
    unfold readPrimary
    rw [trim_trimStart]
  cases more with
  | nil => exact hprimary
  | cons p more => rw [readPower, readPower, allBlank_trimStart, hprimary]

/-- What cutting a text at its powers gives is read as the tree. -/
def ReadsPowers (inner : List Char → Except ExprError Expr) (s : List Char) (e : Expr) : Prop :=
  readPower inner (cutPowers s).1 (cutPowers s).2 = .ok e

/-- What cutting a text at its powers gives is read as the tree once the signs in front have been
stripped. -/
def ReadsSigned (inner : List Char → Except ExprError Expr) (s : List Char) (e : Expr) : Prop :=
  ∃ a, readPower inner (stripSigns (cutPowers s).1).2 (cutPowers s).2 = .ok a ∧
    e = negate (stripSigns (cutPowers s).1).1 a

theorem passes_mark (h : Derives l s e) (hl : l = .primary) :
    Passes (fun _ c => c == '^') 0 [] s :=
  h.passes fun c hc => by
    obtain rfl : c = '^' := by simpa using hc
    simp [hl, Level.foreign]

/-! What cutting at the powers gives for the three ways in which a text is derived here: a primary is the
one piece; a power has its base as the first and the pieces of its exponent after it; and a sign stays with
the first piece. -/

theorem cutPowers_primary (h : Derives .primary s e) : cutPowers s = (s, []) := by
  simpa [cutPowers, cutTop] using cutPowers_append (t := []) (passes_mark h rfl)

theorem cutPowers_power (h : Derives .primary s e) :
    cutPowers (s ++ '^' :: t) = (s, ('^', (cutPowers t).1) :: (cutPowers t).2) := by
  rw [cutPowers_append (passes_mark h rfl), cutPowers_mark, List.append_nil]

theorem cutPowers_sign {w : List Char} (hw : allBlank w = true) (hc : c = '+' ∨ c = '-') :
    cutPowers (w ++ c :: s) = (w ++ c :: (cutPowers s).1, (cutPowers s).2) := by
  have hmark : c ≠ '^' ∧ c ≠ '(' ∧ c ≠ ')' := by rcases hc with rfl | rfl <;> decide
  have hblanks : Passes (fun _ c => c == '^') 0 [] w := passes_of_forall fun d hd => by
    have hb := List.all_eq_true.mp hw d hd
    refine ⟨(ne_parens_of_isBlank hb).1, (ne_parens_of_isBlank hb).2, fun _ => ?_⟩
    have := not_mem_marks_of_isBlank hb
    simp [marks] at this
    simp [this]
  rw [cutPowers_append hblanks, cutPowers_cons hmark.1 hmark.2.1 hmark.2.2]

theorem StartsUnsigned.not_blank (h : StartsUnsigned s) : allBlank s = false := by
  obtain ⟨w, c, r, rfl, -, hb, -⟩ := h
  simp [allBlank, hb]

/-- What the parts of a text at one of the levels up to signs are read as. The second half is what the
levels around it need of the first part: at the tighter levels that it starts without a sign, so that those
in front of it can be stripped; with signs that it is not blank, as an exponent must not be. -/
def PartsRead (inner : List Char → Except ExprError Expr) : Level → List Char → Expr → Prop
  | .primary, s, e | .power, s, e => ReadsPowers inner s e ∧ StartsUnsigned (cutPowers s).1
  | .signed, s, e => ReadsSigned inner s e ∧ allBlank (cutPowers s).1 = false
  | .sum, _, _ | .product, _, _ => True

theorem partsRead_primary (hin : ReadsBelow inner bound) (hlen : s.length ≤ bound)
    (h : Derives .primary s e) : PartsRead inner .primary s e := by
  rw [PartsRead, ReadsPowers, cutPowers_primary h]
  exact ⟨readPrimary_eq hin h rfl hlen, startsUnsigned_of_derives h rfl⟩

/-- Where there are no signs, stripping them takes off blanks only. -/
theorem ReadsPowers.signed (h : ReadsPowers inner s e) (hs : StartsUnsigned (cutPowers s).1) :
    ReadsSigned inner s e := by
  refine ⟨e, ?_, ?_⟩
  · rw [hs.stripSigns, readPower_trimStart]
    exact h
  · rw [hs.stripSigns]
    rfl

/-- A base before what has been read as an exponent: the first piece is the base, and the others are as
they were. -/
theorem readsPowers_power {a b : Expr} (hs : Derives .primary s a)
    (hread : readPrimary inner s = .ok a) (ht : ReadsSigned inner t b)
    (hb : allBlank (cutPowers t).1 = false) :
    ReadsPowers inner (s ++ '^' :: t) (.binary .pow a b) := by
  obtain ⟨b', hb', rfl⟩ := ht
  rw [ReadsPowers, cutPowers_power hs]
  simp only [readPower, hs.not_blank, hb, Bool.and_false, Bool.or_false, Bool.false_eq_true,
    if_false, hread, hb']
  rfl

/-- One more sign in front is one more to strip, and a minus is one more to negate with. -/
theorem readsSigned_sign {w : List Char} (hw : allBlank w = true) (hc : c = '+' ∨ c = '-')
    (h : ReadsSigned inner s e) :
    ReadsSigned inner (w ++ c :: s) (if c = '-' then .neg e else e) := by
  obtain ⟨a, ha, rfl⟩ := h
  have hminus : isBlank '-' = false := by decide
  refine ⟨a, ?_, ?_⟩
  · rw [cutPowers_sign hw hc, stripSigns_blanks hw]
    rcases hc with rfl | rfl <;> simpa [stripSigns, hminus] using ha
  · rw [cutPowers_sign hw hc, stripSigns_blanks hw]
    rcases hc with rfl | rfl <;> simp [stripSigns, hminus, negate]

/-- The parts of a derived text are read as its tree. By induction on the derivation: a primary is its one
part; a power and a sign put something in front of a text whose parts are read by the hypothesis; and an
operand of the next level is at its own level already, but for the step from powers to signs. -/
theorem partsRead (hin : ReadsBelow inner bound) (h : Derives l s e) (hlen : s.length ≤ bound) :
    PartsRead inner l s e := by
  induction h with
  | literal h => exact partsRead_primary hin hlen (.literal h)
  | name h => exact partsRead_primary hin hlen (.name h)
  | callEmpty hs hw hv => exact partsRead_primary hin hlen (.callEmpty hs hw hv)
  | call hs hw hne h _ => exact partsRead_primary hin hlen (.call hs hw hne h)
  | group h _ => exact partsRead_primary hin hlen (.group h)
  | padded hw hv h _ => exact partsRead_primary hin hlen (.padded hw hv h)
  | @power s t a b hs ht _ iht =>
    simp only [List.length_append, List.length_cons] at hlen
    obtain ⟨hread, hb⟩ := iht (by omega)
    refine ⟨readsPowers_power hs (readPrimary_eq hin hs rfl (by omega)) hread hb, ?_⟩
    rw [cutPowers_power hs]
    exact startsUnsigned_of_derives hs rfl
  | @minus s w e hw h ih =>
    simp only [List.length_append, List.length_cons] at hlen
    refine ⟨readsSigned_sign hw (.inr rfl) (ih (by omega)).1, ?_⟩
    rw [cutPowers_sign hw (.inr rfl)]
    simp [allBlank, show isBlank '-' = false by decide]
  | @plus s w e hw h ih =>
    simp only [List.length_append, List.length_cons] at hlen
    refine ⟨readsSigned_sign hw (.inl rfl) (ih (by omega)).1, ?_⟩
    rw [cutPowers_sign hw (.inl rfl)]
    simp [allBlank, show isBlank '+' = false by decide]
  | operation hop => rcases operation?_eq_some hop with ⟨rfl, -⟩ | ⟨rfl, -⟩ <;> trivial
  | @operand l s e _ ih =>
    cases l with
    | sum => trivial
    | product => trivial
    | signed =>
      obtain ⟨hread, hstart⟩ := ih hlen
      exact ⟨hread.signed hstart, hstart.not_blank⟩
    | power => exact ih hlen
    | primary => exact ih hlen

/-- The reader strips signs before it cuts, `PartsRead` cuts before it strips. -/
theorem readSigned_eq (hin : ReadsBelow inner bound) (h : Derives .signed s e)
    (hlen : s.length ≤ bound) : readSigned inner s = .ok e := by
  obtain ⟨⟨a, ha, rfl⟩, -⟩ := partsRead hin h hlen
  obtain ⟨hfirst, hmore⟩ := stripSigns_cutPowers s
  rw [hfirst, ← hmore] at ha
  rw [hfirst]
  simp only [readSigned]
  rw [ha]
  rfl

/-! ## Chains -/

/-- A derivation of a sum or a product is a chain of operands. -/
theorem chain_of_derives (h : Derives l s e) (hl : l = .sum ∨ l = .product) :
    ∃ t a, ∃ pieces : List (Char × List Char × Expr), Derives l.next t a ∧
      (∀ p ∈ pieces, (l.operation? p.1).isSome ∧ Derives l.next p.2.1 p.2.2) ∧
      s = t ++ chainText (pieces.map fun p => (p.1, p.2.1)) ∧
      e = pieces.foldl (fun acc p => .binary ((l.operation? p.1).getD .add) acc p.2.2) a := by
  induction h with
  | @operation l c op s t a b hop hs ht ih _ =>
    -- chains grow at the end: the left operand is one, and the right operand is its next piece
    obtain ⟨t₀, a₀, pieces, hfirst, hpieces, rfl, rfl⟩ := ih hl
    refine ⟨t₀, a₀, pieces ++ [(c, t, b)], hfirst, ?_, ?_, ?_⟩
    · intro p hp
      rcases List.mem_append.mp hp with hp | hp
      · exact hpieces p hp
      · obtain rfl : p = (c, t, b) := by simpa using hp
        exact ⟨by simp [hop], ht⟩
    · simp [chainText]
    · simp [hop]
  | @operand l s e h _ => exact ⟨s, e, [], h, by simp, by simp [chainText], rfl⟩
  | literal => simp at hl
  | name => simp at hl
  | callEmpty => simp at hl
  | call => simp at hl
  | group => simp at hl
  | padded => simp at hl
  | power => simp at hl
  | minus => simp at hl
  | plus => simp at hl

/-- Operands read one after the other give the tree of the chain. -/
theorem foldlM_operands {read : List Char → Except ExprError Expr} (op op' : Char → BinaryOp) :
    ∀ {pieces : List (Char × List Char × Expr)} (a : Expr),
      (∀ p ∈ pieces, op p.1 = op' p.1 ∧ read p.2.1 = .ok p.2.2) →
        (pieces.map fun p => (p.1, p.2.1)).foldlM
          (fun acc (p : Char × List Char) => return .binary (op p.1) acc (← read p.2)) a =
            .ok (pieces.foldl (fun acc p => .binary (op' p.1) acc p.2.2) a)
  | [], a, _ => rfl
  | p :: pieces, a, h => by
      obtain ⟨hop, hp⟩ := h p (by simp)
      have hrest := foldlM_operands op op' (.binary (op p.1) a p.2.2)
        fun q hq => h q (List.mem_cons_of_mem _ hq)
      simp only [List.map_cons, List.foldlM_cons, List.foldl_cons, hp, ← hop]
      exact hrest

/-- No part of a chain is blank. -/
theorem find?_blank_eq_none {pieces : List (Char × List Char × Expr)} {l : Level}
    (h : ∀ p ∈ pieces, Derives l p.2.1 p.2.2) :
    (pieces.map fun p => (p.1, p.2.1)).reverse.find? (fun p => allBlank p.2) = none := by
  rw [List.find?_eq_none]
  intro p hp
  obtain ⟨q, hq, rfl⟩ := List.mem_map.mp (List.mem_reverse.mp hp)
  simp [(h q hq).not_blank]

/-- If the operands of a chain are read, which are no longer than its text, reading them one after the
other gives its tree. -/
theorem readOperands_of_chain {read : List Char → Except ExprError Expr} {op : Char → BinaryOp}
    {a : Expr} {pieces : List (Char × List Char × Expr)}
    (hread : ∀ {t a}, Derives l.next t a → t.length ≤ s.length → read t = .ok a)
    (hop : ∀ {c o}, l.operation? c = some o → op c = o) (ht : Derives l.next t a)
    (hpieces : ∀ p ∈ pieces, (l.operation? p.1).isSome ∧ Derives l.next p.2.1 p.2.2)
    (hs : s = t ++ chainText (pieces.map fun p => (p.1, p.2.1))) :
    (read t >>= (pieces.map fun p => (p.1, p.2.1)).foldlM
      (fun acc (p : Char × List Char) => return .binary (op p.1) acc (← read p.2))) =
        .ok (pieces.foldl (fun acc p => .binary ((l.operation? p.1).getD .add) acc p.2.2) a) := by
  have hfirst : read t = .ok a := hread ht (by simp [hs])
  have hrest : ∀ p ∈ pieces,
      op p.1 = (l.operation? p.1).getD .add ∧ read p.2.1 = .ok p.2.2 := by
    intro p hp
    obtain ⟨o, ho⟩ := Option.isSome_iff_exists.mp (hpieces p hp).1
    have hmem : (p.1, p.2.1) ∈ pieces.map fun p => (p.1, p.2.1) := List.mem_map.mpr ⟨p, hp, rfl⟩
    have hle : p.2.1.length ≤ _ := length_le_chainText hmem
    refine ⟨by rw [hop ho, ho, Option.getD_some], hread (hpieces p hp).2 ?_⟩
    rw [hs, List.length_append]
    omega
  rw [hfirst]
  exact foldlM_operands op (fun c => (l.operation? c).getD .add) a hrest

theorem readProduct_eq (hin : ReadsBelow inner bound) (h : Derives .product s e)
    (hlen : s.length ≤ bound) : readProduct inner s = .ok e := by
  obtain ⟨t, a, pieces, ht, hpieces, hs, he⟩ := chain_of_derives h (.inr rfl)
  -- an operand has no `*` and no `/` outside parentheses, so the text is cut between operands only
  have hforeign : ForeignTo .signed fun c => c == '*' || c == '/' := by
    intro c hc
    simp only [Bool.or_eq_true, beq_iff_eq] at hc
    rcases hc with rfl | rfl <;> decide
  have hcut : cutTop (fun _ c => c == '*' || c == '/') [] 0 s =
      (t, pieces.map fun p => (p.1, p.2.1)) := by
    rw [hs]
    refine cutTop_chain_of_passes (fun _ => ht.passes hforeign) fun q hq => ?_
    obtain ⟨p, hp, rfl⟩ := List.mem_map.mp hq
    refine ⟨?_, fun _ => (hpieces p hp).2.passes hforeign⟩
    obtain ⟨op, hop⟩ := Option.isSome_iff_exists.mp (hpieces p hp).1
    rcases operation?_eq_some hop with ⟨hl, -⟩ | ⟨-, ⟨hc, -⟩ | ⟨hc, -⟩⟩
    · cases hl
    · simp [hc]
    · simp [hc]
  have hblank := find?_blank_eq_none fun p hp => (hpieces p hp).2
  have hop : ∀ {c o}, Level.product.operation? c = some o →
      (fun c => if c == '*' then BinaryOp.mul else .div) c = o := by
    intro c o ho
    rcases operation?_eq_some ho with ⟨hl, -⟩ | ⟨-, ⟨rfl, rfl⟩ | ⟨rfl, rfl⟩⟩
    · cases hl
    · rfl
    · rfl
  have hread : ∀ {t a}, Derives Level.product.next t a → t.length ≤ s.length →
      readSigned inner t = .ok a := fun ht hle => readSigned_eq hin ht (hle.trans hlen)
  simp only [readProduct, hcut, hblank, ht.not_blank, he]
  exact readOperands_of_chain hread hop ht hpieces hs

theorem readSum_eq (hin : ReadsBelow inner bound) (h : Derives .sum s e)
    (hlen : s.length ≤ bound) : readSum inner s = .ok e := by
  obtain ⟨t, a, pieces, ht, hpieces, hs, he⟩ := chain_of_derives h.trim (.inl rfl)
  -- operands have signs, at their start and in exponents; but after a whole operand a sign joins
  have hcut : cutTop isJoiningSign [] 0 (Formulary.trim s) =
      (t, pieces.map fun p => (p.1, p.2.1)) := by
    rw [hs]
    refine cutTop_chain operandStart_nil (ht.spans (by simp [Level.next])) fun q hq => ?_
    obtain ⟨p, hp, rfl⟩ := List.mem_map.mp hq
    refine ⟨?_, (hpieces p hp).2.spans (by simp [Level.next])⟩
    obtain ⟨op, hop⟩ := Option.isSome_iff_exists.mp (hpieces p hp).1
    rcases operation?_eq_some hop with ⟨-, ⟨hc, -⟩ | ⟨hc, -⟩⟩ | ⟨hl, -⟩
    · simp only [hc]
      exact ⟨by decide, by decide, fun _ h => h.joining rfl, fun _ => operandStart_cons (by decide)⟩
    · simp only [hc]
      exact ⟨by decide, by decide, fun _ h => h.joining rfl, fun _ => operandStart_cons (by decide)⟩
    · cases hl
  have hblank := find?_blank_eq_none fun p hp => (hpieces p hp).2
  have hempty : (Formulary.trim s).isEmpty = false := by
    have hb := h.trim.not_blank
    cases htr : Formulary.trim s with
    | nil =>
      rw [htr] at hb
      cases hb
    | cons c r => rfl
  have hop : ∀ {c o}, Level.sum.operation? c = some o →
      (fun c => if c == '+' then BinaryOp.add else .sub) c = o := by
    intro c o ho
    rcases operation?_eq_some ho with ⟨-, ⟨rfl, rfl⟩ | ⟨rfl, rfl⟩⟩ | ⟨hl, -⟩
    · rfl
    · rfl
    · cases hl
  have hread : ∀ {t a}, Derives Level.sum.next t a → t.length ≤ (Formulary.trim s).length →
      readProduct inner t = .ok a := fun ht hle =>
    readProduct_eq hin ht (hle.trans ((length_trim_le s).trans hlen))
  simp only [readSum, hempty, hcut, hblank, he]
  exact readOperands_of_chain hread hop ht hpieces hs

/-! ## Whole expressions -/

/-- By induction on the depth. At depth `n + 1` the reader that is given for inside is the one of depth
`n`, and what is inside is shorter than the text; so the depth has only to exceed the length. -/
theorem readNested_eq : ∀ {depth : Nat} {s : List Char} {e : Expr},
    s.length < depth → Derives .sum s e → readNested depth s = .ok e
  | 0, _, _, hlen, _ => absurd hlen (Nat.not_lt_zero _)
  | depth + 1, s, e, hlen, h => by
      have hin : ReadsBelow (readNested depth) s.length := fun t a ht hta =>
        readNested_eq (by omega) hta
      exact readSum_eq hin h (Nat.le_refl _)

/-- Every text of the grammar is read as its tree. -/
theorem read?_of_derives (h : Derives .sum (caretPowers s) e) : read? s = .ok e := by
  have hparens : closingDepth 0 (caretPowers s) = some 0 := by
    simpa [closingDepth] using closingDepth_append h.balanced 0 []
  simp only [read?, checkParens, hparens]
  exact readNested_eq (Nat.lt_succ_self _) h

theorem read_of_derives {text : String} (h : Derives .sum (caretPowers text.toList) e) :
    read text = .ok e := by
  rw [read, read?_of_derives h]

end Expr

end Formulary
