import Formulary.Proofs.Key.Checked

/-!
The reader of keys accepts its grammar, and its keys are read again as they are written out.

What is left to show is that the count of parentheses and brackets refuses no key of the grammar. The
name, the arguments and the blanks have none of them. The text of a unit may have parentheses, and the
reader of units keeps their depth without looking whether it falls below zero; but what it accepts is
balanced all the same.

How superscripts and decimals are read depends on whether machine integers wrap around or are checked. The
grammar is that of the build where they wrap around. For the other it is said where it stops, and that it
agrees everywhere else. A stop must not come between a key and its text: so whether there is one depends on
the key alone (`Stopped.of_spelled`), and a key that has been read is read again in either build.
-/

namespace Formulary.Key

variable {s : List Char} {k : Key} {args : List String} {a : UnitAnnotation}

/-! ## Balance -/

theorem enclosable_of_name (h : isIdentifier s = true) : Enclosable s :=
  .of_forall fun c hc hmem => by
    have hkey := isKeyNameChar_of_name h c hc
    simp [isKeyNameChar, hmem] at hkey

theorem ListsArguments.enclosable (h : ListsArguments s args) : Enclosable s :=
  .of_forall fun c hc hmem => by
    obtain ⟨hblank, htoken, hcomma⟩ := separate_of_delimiter hmem
    exact h.not_mem hblank htoken hcomma hc

theorem Annotates.enclosable (h : Annotates s a) : Enclosable s :=
  PhysicalUnit.enclosable_of_read ((PhysicalUnit.read_trim s).symm.trans h.read)

/-- The count refuses no key of the grammar. -/
theorem Spelled.balanced (h : Spelled s k) : checkBalanced s = .ok () := by
  obtain ⟨name, names, annotation⟩ := k
  obtain ⟨hname, argsPart, unitsPart, @⟨w₁, w₂, w₃, w₄, h₁, h₂, h₃, h₄⟩, hargs, hannotation⟩ := h
  have hblanks : ∀ {w : List Char}, allBlank w = true → checkBalanced w = .ok () := fun hw =>
    checkBalanced_of_enclosable (.of_allBlank hw)
  have hparens : checkBalanced (delimited '(' ')' argsPart) = .ok () := by
    cases hargs with
    | none => rfl
    | some hlists => exact checkBalanced_of_enclosable hlists.enclosable.parens
  have hbrackets : checkBalanced (delimited '[' ']' unitsPart) = .ok () := by
    cases hannotation with
    | none => rfl
    | some hannotates => exact checkBalanced_brackets hannotates.enclosable
  exact checkBalanced_append (hblanks h₁) (checkBalanced_append
    (checkBalanced_of_enclosable (enclosable_of_name hname)) (checkBalanced_append (hblanks h₂)
      (checkBalanced_append hparens (checkBalanced_append (hblanks h₃)
        (checkBalanced_append hbrackets (hblanks h₄))))))

theorem read_eq_ok_iff_spelled {text : String} : Key.read text = .ok k ↔ Spelled text.toList k := by
  rw [read_eq_ok_iff, read?_eq_ok_iff]
  exact and_iff_right_of_imp Spelled.balanced

/-! ## Keys written out -/

/-- What follows the first character of each separator belongs to the part behind it. -/
theorem intercalate_cons_sep (c : Char) (sep part : List Char) (parts : List (List Char)) :
    List.intercalate (c :: sep) (part :: parts) =
      List.intercalate [c] (part :: parts.map (sep ++ ·)) := by
  induction parts generalizing part with
  | nil => rfl
  | cons next parts ih =>
    have hfront : List.intercalate [c] ((sep ++ next) :: parts.map (sep ++ ·)) =
        sep ++ List.intercalate [c] (next :: parts.map (sep ++ ·)) := by
      cases parts <;> simp [List.intercalate_singleton, List.intercalate_cons_cons]
    rw [List.intercalate_cons_cons, ih, List.map_cons, List.intercalate_cons_cons, hfront]
    simp

theorem padded_of_name {name : String} (h : isIdentifier name.toList = true) {w : List Char}
    (hw : allBlank w = true) : Padded name (w ++ name.toList) :=
  ⟨h, w, [], (List.append_nil _).symm, hw, rfl⟩

theorem ListsArguments.joined (h : ListsArguments s args) :
    ListsArguments (joinWith ", " args).toList args := by
  have hnames := h.isIdentifier
  cases h with
  | none => exact .none rfl
  | @names _ args hne hnodup _ =>
    cases args with
    | nil => exact absurd rfl hne
    | cons name names =>
      obtain ⟨hname, hnames⟩ := List.forall_mem_cons.mp hnames
      rw [toList_joinWith, List.map_cons]
      change ListsArguments (List.intercalate (',' :: [' ']) _) _
      rw [intercalate_cons_sep, List.map_map]
      refine .names hne hnodup (.cons (padded_of_name hname (w := []) rfl) ?_)
      rw [List.forall₂_map_right_iff, List.forall₂_same]
      exact fun p hp => padded_of_name (hnames p hp) (w := [' ']) (by decide)

theorem Annotates.trimmed (h : Annotates s a) : Annotates a.text.toList a := by
  have htext : a.text.toList = trim s := by rw [h.text, String.toList_ofList]
  rw [htext]
  refine ⟨fun c hc => h.not_bracket c ?_, ?_, ?_, ?_⟩
  · obtain ⟨w, v, hs, -, -⟩ := exists_blanks_trim s
    rw [hs]
    simp [hc]
  · rw [Bool.eq_false_iff, ne_eq, ← trim_eq_nil_iff, trim_trim, trim_eq_nil_iff, h.not_blank]
    exact Bool.false_ne_true
  · rw [trim_trim, h.text]
  · rw [trim_trim, h.read]

/-- A key written out has its parts, with no blanks but one before the brackets. -/
theorem laid_text (k : Key) : Laid k.name.toList (k.args.map fun args => (joinWith ", " args).toList)
    (k.annotation.map fun a => a.text.toList) k.text.toList := by
  obtain ⟨name, args, annotation⟩ := k
  cases annotation with
  | none =>
    have h := @Laid.blanks name.toList (args.map fun args => (joinWith ", " args).toList) none
      [] [] [] [] rfl rfl rfl rfl
    cases args <;> simpa [Key.text, Key.units] using h
  | some a =>
    have h := @Laid.blanks name.toList (args.map fun args => (joinWith ", " args).toList)
      (some a.text.toList) [] [] [' '] [] rfl rfl (by decide) rfl
    cases args <;> simpa [Key.text, Key.units] using h

/-- A key of the grammar is one when it is written out, with the same parts. -/
theorem Spelled.written (h : Spelled s k) : Spelled k.text.toList k := by
  have hlaid := laid_text k
  obtain ⟨name, names, annotation⟩ := k
  obtain ⟨hname, argsPart, unitsPart, -, hargs, hannotation⟩ := h
  refine ⟨hname, _, _, hlaid, ?_, ?_⟩
  · cases hargs with
    | none => exact .none
    | some hlists => exact .some hlists.joined
  · cases hannotation with
    | none => exact .none
    | some hannotates => exact .some hannotates.trimmed

/-- Whether the build that checks its integers stops on a key depends on the key alone. -/
theorem Stopped.of_spelled {t : List Char} (h : Stopped t) (ht : Spelled t k) (hs : Spelled s k) :
    Stopped s := by
  have hbalanced := hs.balanced
  obtain ⟨-, name, args, names, inside, hlaid, hname, hlists, hinside, -, hstop⟩ := h
  have hcut := cutParts_of_read hlaid hname hlists (by simpa using hinside)
  obtain ⟨name, keyArgs, annotation⟩ := k
  obtain ⟨hname, argsPart, unitsPart, hlaid, hargs, hannotation⟩ := ht
  have hcut' := cutParts_of_read hlaid hname hargs
    (forall_of_rel hannotation fun _ _ h => h.not_bracket)
  cases hcut.symm.trans hcut'
  -- the brackets of both texts hold the same unit, once it is trimmed
  obtain ⟨ha⟩ := hannotation
  obtain ⟨-, argsPart, unitsPart, hlaid, hargs, hannotation⟩ := hs
  obtain ⟨hb⟩ := hannotation
  rw [String.ofList_injective (ha.text.symm.trans hb.text)] at hstop
  exact ⟨hbalanced, _, _, _, _, hlaid, hname, hargs, hb.not_bracket, hb.not_blank, hstop⟩

/-- The reader accepts the keys of the grammar with their parts, and everything else is malformed. The
count that it makes first refuses no such key, since what is read as a unit is balanced. A key that it
has read is read again, as the same key, from the text that shows it.

All this is said of the build whose integers wrap around. The one that checks them stops on some texts,
and what these are is said exactly: everything but the unit is in order, and the unit has a number that
is too large. On all others it has the same key or the same fault; and where it has read a key, it does
not stop on the text that shows it either. -/
theorem read_iff_spelled (text : String) :
    (∀ k, Key.read text = .ok k ↔ Spelled text.toList k) ∧
      ((∀ k, ¬ Spelled text.toList k) → ∃ reason,
        Key.read text = .error (.ofCause (.malformedKey text reason)) ∧
          (Fault.ofCause (.malformedKey text reason)).code = "MALFORMED_KEY") ∧
      ((∃ k, Spelled text.toList k) → checkBalanced text.toList = .ok ()) ∧
      (∀ u, PhysicalUnit.read text.toList = .ok u → Balanced text.toList) ∧
      (∀ k, Key.read text = .ok k → Key.read k.text = .ok k) ∧
      (Key.readChecked text = none ↔ Stopped text.toList) ∧
      (¬ Stopped text.toList → Key.readChecked text = some (Key.read text)) ∧
      (Stopped text.toList → Excessive text.toList) ∧
      ∀ k, Key.readChecked text = some (.ok k) → Key.readChecked k.text = some (.ok k) := by
  have hwritten : ∀ k, Key.read text = .ok k → Spelled text.toList k ∧ Key.read k.text = .ok k :=
    fun k h => ⟨spelled_of_read h, read_eq_ok_iff_spelled.mpr (spelled_of_read h).written⟩
  refine ⟨fun k => read_eq_ok_iff_spelled, fun hnone => ?_, ?_, ?_, fun k h => (hwritten k h).2,
    readChecked_eq_none_iff, readChecked_of_not_stopped, Stopped.excessive, fun k h => ?_⟩
  · cases h : read? text.toList with
    | ok k => exact absurd (spelled_of_read (read_eq_ok_iff.mpr h)) (hnone k)
    | error e =>
      refine ⟨e.message, ?_, rfl⟩
      rw [Key.read, h, quoting]
  · rintro ⟨k, h⟩
    exact h.balanced
  · exact fun u hu => (PhysicalUnit.enclosable_of_read hu).balanced
  · have hnot : ¬ Stopped text.toList := fun hstop => by
      rw [readChecked_eq_none_iff.mpr hstop] at h
      cases h
    obtain ⟨hspelled, hread⟩ := hwritten k (Option.some.inj ((readChecked_of_not_stopped hnot).symm.trans h))
    rw [readChecked_of_not_stopped fun hstop => hnot (hstop.of_spelled hspelled.written hspelled), hread]

/-- A superscript beyond the signed 32-bit integers makes the one build stop; in the other it wraps
around, here to one. -/
example : Key.readChecked "f [m⁴²⁹⁴⁹⁶⁷²⁹⁷]" = none ∧
    PhysicalUnit.cutSuperscript? "m⁴²⁹⁴⁹⁶⁷²⁹⁷".toList = some (['m'], 1) := by decide +kernel

end Formulary.Key
