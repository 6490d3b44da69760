import Formulary.Proofs.Entry.Units
import Formulary.Proofs.Key
import Formulary.Proofs.PhysicalUnit.Formula

/-!
Keys that are given a unit annotation.

What is read as a unit is balanced, and without brackets. So behind a key that has no annotation,
and in brackets, it is one: the key is read as before, now with the unit that the text denotes.

## How the proof goes

Enclosing is known of the text that the levels of the unit reader see (`PhysicalUnit.enclosable_of_readGroup`),
which has carets where the text had two stars. It is carried back: a caret and a star are neither
parentheses nor brackets, so that putting the stars back changes no depth (`balanced_of_caretPowers`).

For the count at the front of the key reader, depths are added up piece by piece (`finalDepths_append`). Every
piece of such a key has none left over, and the count never falls below zero on the way, which would end it
early.
-/

namespace Formulary

open Formulary.Except

variable {s t r : List Char} {c : Char}

/-! ## Texts of units can be enclosed -/

theorem mem_caretPowers (hc : c ≠ '*') (h : c ∈ s) : c ∈ caretPowers s := by
  fun_induction caretPowers s with
  | case1 r ih => simpa [hc] using Or.inr (ih (by simpa [hc] using h))
  | case2 d r _ ih =>
    rcases List.mem_cons.mp h with rfl | h
    · exact List.mem_cons_self
    · exact List.mem_cons_of_mem _ (ih h)
  | case3 => exact h

/-- Where the text was cut after carets were put in, it can be cut before. -/
theorem exists_of_caretPowers (hstar : c ≠ '*') (hcaret : c ≠ '^') {a b : List Char}
    (h : caretPowers s = a ++ c :: b) :
    ∃ a' b', s = a' ++ c :: b' ∧ caretPowers a' = a ∧ caretPowers b' = b := by
  fun_induction caretPowers s generalizing a with
  | case1 r ih =>
    cases a with
    | nil => exact absurd (List.cons.inj h).1.symm hcaret
    | cons d a =>
      obtain ⟨rfl, hrest⟩ := List.cons.inj h
      obtain ⟨a', b', rfl, rfl, hb⟩ := ih hrest
      exact ⟨'*' :: '*' :: a', b', rfl, rfl, hb⟩
  | case2 d r hne ih =>
    cases a with
    | nil =>
      obtain ⟨rfl, hrest⟩ := List.cons.inj h
      exact ⟨[], r, rfl, rfl, hrest⟩
    | cons e a =>
      obtain ⟨rfl, hrest⟩ := List.cons.inj h
      obtain ⟨a', b', rfl, rfl, hb⟩ := ih hrest
      refine ⟨d :: a', b', rfl, ?_, hb⟩
      by_cases hd : d = '*'
      · subst hd
        refine caretPowers_star fun hhead => ?_
        cases a' with
        | nil => cases hhead
        | cons e a' =>
          obtain rfl : e = '*' := by simpa using hhead
          exact hne _ rfl rfl
      · exact caretPowers_cons hd
  | case3 => simp at h

theorem balanced_of_caretPowers {x : List Char} (hx : Balanced x) :
    ∀ {s : List Char}, caretPowers s = x → Balanced s := by
  induction hx with
  | nil =>
    intro s h
    cases s with
    | nil => exact .nil
    | cons c s => exact absurd h (by unfold caretPowers; split <;> simp_all)
  | @char c x hopen hclose _ ih =>
    intro s h
    unfold caretPowers at h
    split at h
    · obtain ⟨-, h⟩ := List.cons.inj h
      exact .char (by decide) (by decide) (.char (by decide) (by decide) (ih h))
    · obtain ⟨rfl, hrest⟩ := List.cons.inj h
      exact .char hopen hclose (ih hrest)
    · cases h
  | group _ _ iha ihb =>
    intro s h
    obtain ⟨w, s, rfl, hw, h⟩ := exists_of_caretPowers (by decide) (by decide) (a := []) h
    obtain ⟨a, b, rfl, ha, hb⟩ := exists_of_caretPowers (by decide) (by decide) h
    cases w with
    | nil => exact .group (iha ha) (ihb hb)
    | cons d w => exact absurd hw (by unfold caretPowers; split <;> simp_all)

theorem Enclosable.of_caretPowers (h : Enclosable (caretPowers s)) : Enclosable s :=
  ⟨balanced_of_caretPowers h.balanced rfl, fun c hc => by
    by_cases hstar : c = '*'
    · rw [hstar]
      decide
    · exact h.not_bracket c (mem_caretPowers hstar hc)⟩

/-- What is read as a unit can stand between brackets. -/
theorem PhysicalUnit.enclosable_of_read {u : PhysicalUnit} (h : PhysicalUnit.read s = .ok u) :
    Enclosable s := by
  refine .of_trim ?_
  rw [PhysicalUnit.read_def] at h
  split at h
  · rename_i hpure
    simp only [Bool.or_eq_true, decide_eq_true_eq] at hpure
    refine .of_forall fun c hc => ?_
    rcases hpure with hs | hs <;> rw [hs] at hc
    · cases hc
    · obtain rfl := List.mem_singleton.mp hc
      decide
  · split at h
    · rename_i hl
      refine .of_forall fun c hc => not_delimiter_of_mem_spellings (mem_spellings hl) c ?_
      rwa [String.toList_ofList]
    · obtain ⟨v, hv, -⟩ := bind_eq_ok.mp h
      obtain ⟨top, divisors, hspells, -⟩ := spells_of_readQuotient (readGroup_one _) hv
      exact (hspells.enclosable (enclosable_of_readGroup _)).of_caretPowers

theorem PhysicalUnit.read_trim (s : List Char) : PhysicalUnit.read (trim s) = PhysicalUnit.read s := by
  rw [PhysicalUnit.read_def (trim s), PhysicalUnit.read_def s]
  simp only [trim_trim]

/-! ## Appending an annotation to a key -/

namespace Key

variable {paren bracket : Int}

/-- The depths are those of what follows, if what stands first leaves them at zero or above. -/
theorem finalDepths_append : ∀ {s : List Char} {paren bracket p b : Int},
    finalDepths paren bracket s = (p, b) → 0 ≤ p → 0 ≤ b →
      finalDepths paren bracket (s ++ t) = finalDepths p b t
  | [], _, _, _, _, h, _, _ => by
    cases h
    rfl
  | c :: s, paren, bracket, p, b, h, hp, hb => by
    rw [List.cons_append, finalDepths]
    rw [finalDepths] at h
    generalize (if c = '[' then bracket + 1 else if c = ']' then bracket - 1 else bracket) = next at h ⊢
    split at h
    · rename_i hneg
      cases h
      simp only [Bool.or_eq_true, decide_eq_true_eq] at hneg
      omega
    · rename_i hneg
      rw [if_neg hneg]
      exact finalDepths_append h hp hb

theorem finalDepths_balanced (hs : Balanced s) : ∀ paren bracket : Int, 0 ≤ paren → 0 ≤ bracket →
    (∀ c ∈ s, c ≠ '[' ∧ c ≠ ']') → finalDepths paren bracket s = (paren, bracket) := by
  induction hs with
  | nil => exact fun _ _ _ _ _ => rfl
  | @char c s hopen hclose _ ih =>
    intro paren bracket hparen hbracket h
    obtain ⟨hc, hc'⟩ := h c List.mem_cons_self
    have hstep : ¬ (decide (paren < 0) || decide (bracket < 0)) = true := by simp; omega
    unfold finalDepths
    simp only [depthStep, if_neg hopen, if_neg hclose, if_neg hc, if_neg hc', add_zero]
    rw [if_neg hstep]
    exact ih _ _ hparen hbracket fun d hd => h d (List.mem_cons_of_mem _ hd)
  | @group a b _ _ iha ihb =>
    intro paren bracket hparen hbracket h
    have ha := iha (paren + 1) bracket (by omega) hbracket fun c hc => h c (by simp [hc])
    have hb := ihb paren bracket hparen hbracket fun c hc => h c (by simp [hc])
    have hopen : ¬ (decide (paren + 1 < 0) || decide (bracket < 0)) = true := by simp; omega
    have hclose : ¬ (decide (paren < 0) || decide (bracket < 0)) = true := by simp; omega
    have hrest : finalDepths (paren + 1) bracket (')' :: b) = (paren, bracket) := by
      unfold finalDepths
      simp only [depthStep]
      simpa [hclose] using hb
    have hinside := finalDepths_append (t := ')' :: b) ha (by omega) hbracket
    unfold finalDepths
    simp only [depthStep]
    simpa [hopen, hrest] using hinside

theorem checkBalanced_eq_ok : checkBalanced s = .ok () ↔ finalDepths 0 0 s = (0, 0) := by
  unfold checkBalanced
  obtain ⟨p, b⟩ := finalDepths 0 0 s
  by_cases hp : p = 0 <;> by_cases hb : b = 0 <;> simp [hp, hb]

theorem checkBalanced_append (hs : checkBalanced s = .ok ()) (ht : checkBalanced t = .ok ()) :
    checkBalanced (s ++ t) = .ok () := by
  rw [checkBalanced_eq_ok] at hs ht ⊢
  rw [finalDepths_append hs (le_refl _) (le_refl _), ht]

/-- A text that can be enclosed is balanced by itself. -/
theorem checkBalanced_of_enclosable (h : Enclosable s) : checkBalanced s = .ok () :=
  checkBalanced_eq_ok.mpr
    (finalDepths_balanced h.balanced 0 0 (le_refl _) (le_refl _) h.not_bracket)

/-- A text that can be enclosed is balanced in brackets. -/
theorem checkBalanced_brackets (h : Enclosable s) : checkBalanced ('[' :: (s ++ [']'])) = .ok () := by
  rw [checkBalanced_eq_ok]
  have hinside := finalDepths_append (t := [']'])
    (finalDepths_balanced h.balanced 0 1 (by omega) (by omega) h.not_bracket) (by omega) (by omega)
  exact hinside

/-- Behind what is laid out without an annotation there is room for one. -/
theorem Laid.annotate {name : List Char} {args : Option (List Char)} (h : Laid name args none s) :
    Laid name args (some t) (s ++ '[' :: (t ++ [']'])) := by
  obtain @⟨w₁, w₂, w₃, w₄, h₁, h₂, h₃, h₄⟩ := h
  have hblank : allBlank (w₃ ++ w₄) = true := by rw [allBlank_append, h₃, h₄]; rfl
  have hlaid : Laid name args (some t) (w₁ ++ (name ++ (w₂ ++ (delimited '(' ')' args ++
      (w₃ ++ w₄ ++ (delimited '[' ']' (some t) ++ [])))))) := .blanks h₁ h₂ hblank rfl
  simpa using hlaid

/-- A key without an annotation, and behind it the text of a unit in brackets. -/
theorem read_append {text units : String} {k : Key} {u : PhysicalUnit} (h : Key.read text = .ok k)
    (hk : k.unit = none) (hu : PhysicalUnit.read units.toList = .ok u) (hne : trim units.toList ≠ []) :
    Key.read (text ++ "[" ++ units ++ "]") =
      .ok { k with annotation := some ⟨trimString units, u⟩ } := by
  have henclosable := PhysicalUnit.enclosable_of_read hu
  obtain ⟨hbalanced, hname, args, part, hlaid, hargs, hannotation⟩ :=
    read?_eq_ok_iff.mp (read_eq_ok_iff.mp h)
  rw [Option.map_eq_none_iff.mp hk] at hannotation
  cases hannotation
  have hannotates : Annotates units.toList ⟨trimString units, u⟩ :=
    ⟨henclosable.not_bracket, by simpa [trim_eq_nil_iff] using hne, rfl,
      by rw [PhysicalUnit.read_trim, hu]⟩
  have htext : (text ++ "[" ++ units ++ "]").toList =
      text.toList ++ '[' :: (units.toList ++ [']']) := by simp
  rw [read_eq_ok_iff, htext, read?_eq_ok_iff]
  exact ⟨checkBalanced_append hbalanced (checkBalanced_brackets henclosable), hname, args, _,
    hlaid.annotate, hargs, .some hannotates⟩

end Key

/-! ## What a symbol annotates -/

/-- Behind every key without an annotation, and in brackets, the text is one that denotes the unit. -/
def PhysicalUnit.Annotated (u : PhysicalUnit) (text : String) : Prop :=
  ∀ (written : String) (k : Key), Key.read written = .ok k → k.unit = none →
    ∃ v : PhysicalUnit, Key.read (written ++ "[" ++ text ++ "]") =
      .ok { k with annotation := some ⟨trimString text, v⟩ } ∧ v.isEquivalent u = true

/-- The symbol is such a text just if it denotes the unit. -/
theorem PhysicalUnit.annotated_symbol_iff {u : PhysicalUnit} (hne : trim u.symbol.toList ≠ []) :
    u.Annotated u.symbol ↔ u.Faithful := by
  constructor
  · intro h
    obtain ⟨v, hv, hequivalent⟩ := h "f" ⟨"f", none, none⟩ (by decide) rfl
    have hread := Key.read_units hv rfl rfl
    rw [trimString, String.toList_ofList, PhysicalUnit.read_trim] at hread
    exact ⟨v, hread, hequivalent⟩
  · rintro ⟨v, hv, hequivalent⟩ written k hwritten hk
    exact ⟨v, Key.read_append hwritten hk hv hne, hequivalent⟩

end Formulary
