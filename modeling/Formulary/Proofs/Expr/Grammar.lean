import Formulary.Proofs.Exact.Decimal
import Formulary.Proofs.Expr.Scan
import Mathlib.Tactic.Tauto

/-!
The grammar of expressions, and how a scan for operators goes over its texts.

`Derives` is the usual grammar with a level for each strength of binding; blanks may stand around
every token. The reader has no tokens: each level cuts its text at its operators outside all
parentheses. So what a derivation must provide is that its text passes uncut through the levels it
does not belong to, and that a sign joins two operands just where the grammar says so.

## How the proof goes

`Derives.passes` is for operators that are ones wherever they stand, `*`, `/`, `^` and the comma: they do
not occur in texts of a tighter level outside parentheses (`Level.foreign`), and what is inside these is
balanced (`Derives.balanced`), so a scan goes over it.

A sign is different, since it depends on what stands before whether it joins. It does after a whole operand
(`OperandEnd`); it does not where an operand may start (`OperandStart`), nor after the mark of an exponent.
`Derives.scan` proves both halves together, by one induction: started where an operand may start, the scan
passes over the signs in the text, and at the end a whole operand stands before. The start is what the
signs in front of a power need, so as to pass; the end is what a sum needs for the sign that comes next, so
as to be cut there.

## Why an identifier ends an operand

`1e-5` is a number, and `xe-5` is a difference. The reader tells them apart by looking back over the token: the mark is one if all before it is a mantissa. A name starts with
something that no mantissa has (`not_numeric_of_isNameStart`), so a name that ends in `e` is a whole
operand (`operandEnd_of_isIdentifier`), and a sign after it joins.
-/

namespace Formulary

open Formulary.Expr

/-! ## Characters -/

section Characters

variable {c : Char}

/-- Letters by their codes. -/
theorem isAlpha_eq (c : Char) :
    c.isAlpha = (decide (c.val ≥ 'A'.val ∧ c.val ≤ 'Z'.val) ||
      (decide (c.val ≥ 'a'.val) && decide (c.val ≤ 'z'.val))) :=
  rfl

theorem not_blank_of_isTokenChar (h : isTokenChar c = true) : isBlank c = false := by
  rw [Bool.eq_false_iff]
  intro hb
  simp [isTokenChar, Char.isAlphanum, isAlpha_eq, Char.isDigit, UInt32.le_iff_toNat_le] at h
  simp only [isBlank, Bool.or_eq_true, Bool.and_eq_true, decide_eq_true_eq, beq_iff_eq] at hb
  rcases h with (h | rfl) | rfl
  · omega
  · revert hb
    decide
  · revert hb
    decide

/-- The characters that end a token: parentheses, commas and operators. -/
def marks : List Char := ['(', ')', ',', '+', '-', '*', '/', '^']

theorem not_mem_marks_of_isTokenChar (h : isTokenChar c = true) : c ∉ marks := by
  intro hc
  simp only [marks, List.mem_cons, List.not_mem_nil, or_false] at hc
  rcases hc with rfl | rfl | rfl | rfl | rfl | rfl | rfl | rfl <;> revert h <;> decide

theorem not_mem_marks_of_isBlank (h : isBlank c = true) : c ∉ marks := by
  intro hc
  simp only [marks, List.mem_cons, List.not_mem_nil, or_false] at hc
  rcases hc with rfl | rfl | rfl | rfl | rfl | rfl | rfl | rfl <;> revert h <;> decide

theorem mem_marks_of_opener (h : operandOpeners.contains c = true) : c ∈ marks := by
  have h : c ∈ operandOpeners := by simpa using h
  simp only [operandOpeners, List.mem_cons, List.not_mem_nil, or_false] at h
  rcases h with rfl | rfl | rfl | rfl | rfl | rfl | rfl <;> decide

theorem isTokenChar_of_isNameStart (h : isNameStart c = true) : isTokenChar c = true := by
  simp only [isNameStart, isTokenChar, Char.isAlphanum, Bool.or_eq_true] at h ⊢
  rcases h with h | h
  · exact .inl (.inl (.inl h))
  · exact .inr h

theorem isTokenChar_of_isNameRest (h : isNameRest c = true) : isTokenChar c = true := by
  simp only [isNameRest, isTokenChar, Bool.or_eq_true] at h ⊢
  rcases h with h | h
  · exact .inl (.inl h)
  · exact .inr h

theorem isTokenChar_of_isIdentifier {s : List Char} (h : isIdentifier s = true) :
    ∀ c ∈ s, isTokenChar c = true := by
  cases s with
  | nil => simp
  | cons d r =>
    simp only [isIdentifier, Bool.and_eq_true, List.all_eq_true] at h
    intro c hc
    rcases List.mem_cons.mp hc with rfl | hc
    · exact isTokenChar_of_isNameStart h.1
    · exact isTokenChar_of_isNameRest (h.2 c hc)

/-- The first character of a name is no part of a number. -/
theorem not_numeric_of_isNameStart (h : isNameStart c = true) :
    (c.isDigit || c == '.') = false := by
  rw [Bool.eq_false_iff]
  intro hd
  simp [isNameStart, isAlpha_eq, Char.isDigit, UInt32.le_iff_toNat_le] at h hd
  rcases hd with hd | rfl
  · rcases h with h | rfl
    · omega
    · revert hd
      decide
  · revert h
    decide

theorem isTokenChar_of_mantissa (h : c.isDigit = true ∨ c = '.') : isTokenChar c = true := by
  rcases h with h | rfl
  · simp [isTokenChar, Char.isAlphanum, h]
  · decide

/-- A literal is one token but for the sign of its exponent. -/
theorem chars_of_literal {s : List Char} {q : Rat} (h : Exact.Literal s q) :
    ∀ c ∈ s, isTokenChar c = true ∨ c = '+' ∨ c = '-' := by
  intro c hc
  rcases h.chars c hc with hc | rfl | rfl | hc
  · exact .inl (isTokenChar_of_mantissa hc)
  · exact .inl (by decide)
  · exact .inl (by decide)
  · exact .inr hc

end Characters

/-! ## Where operands start and end -/

/-- What may stand before an operand (nearest first): nothing or an operator, then blanks. -/
def OperandStart (passed : List Char) : Prop :=
  ∀ d ∈ (passed.dropWhile isBlank).head?, operandOpeners.contains d = true

/-- An operand stands before (nearest first), so that a sign that follows joins it. -/
def OperandEnd (passed : List Char) : Prop :=
  ∃ d r, passed.dropWhile isBlank = d :: r ∧ operandOpeners.contains d = false ∧
    endsInExponentMark passed = false

section Positions

variable {passed s w : List Char} {c : Char}

theorem operandStart_nil : OperandStart [] := by simp [OperandStart]

theorem operandStart_cons (h : operandOpeners.contains c = true) : OperandStart (c :: passed) := by
  have hb : isBlank c = false := by
    cases hb : isBlank c with
    | false => rfl
    | true => exact absurd (mem_marks_of_opener h) (not_mem_marks_of_isBlank hb)
  simpa [OperandStart, hb] using h

theorem dropWhile_blanks (hw : allBlank w = true) :
    (w.reverse ++ passed).dropWhile isBlank = passed.dropWhile isBlank := by
  rw [List.dropWhile_append_of_pos]
  simpa [allBlank] using hw

theorem OperandStart.blanks (h : OperandStart passed) (hw : allBlank w = true) :
    OperandStart (w.reverse ++ passed) := by
  rw [OperandStart, dropWhile_blanks hw]
  exact h

/-- A sign where an operand may start is not joining. -/
theorem OperandStart.not_joining (h : OperandStart passed) : isJoiningSign passed c = false := by
  rw [OperandStart] at h
  rw [isJoiningSign]
  split
  · simp
  · rename_i d r hd
    have hopen := h d (by simp [hd])
    simp only [hopen]
    simp

theorem endsInExponentMark_cons (h : (c == 'e' || c == 'E') = false) :
    endsInExponentMark (c :: passed) = false := by
  simp [endsInExponentMark, h]

theorem OperandEnd.joining (h : OperandEnd passed) (hc : (c == '+' || c == '-') = true) :
    isJoiningSign passed c = true := by
  obtain ⟨d, r, hd, hopen, hmark⟩ := h
  rw [isJoiningSign, hd]
  simp only [hc, hopen, hmark]
  rfl

theorem OperandEnd.blanks (h : OperandEnd passed) (hw : allBlank w = true) :
    OperandEnd (w.reverse ++ passed) := by
  obtain ⟨d, r, hd, hopen, hmark⟩ := h
  refine ⟨d, r, by rw [dropWhile_blanks hw, hd], hopen, ?_⟩
  cases hw' : w.reverse with
  | nil => exact hmark
  | cons b w' =>
    have hb : isBlank b = true := by
      have : b ∈ w := by
        rw [← List.mem_reverse, hw']
        exact List.mem_cons_self
      exact List.all_eq_true.mp hw b this
    refine endsInExponentMark_cons ?_
    rw [Bool.eq_false_iff]
    intro he
    simp only [Bool.or_eq_true, beq_iff_eq] at he
    rcases he with rfl | rfl <;> revert hb <;> decide

theorem operandEnd_close : OperandEnd (')' :: passed) := by
  have hb : isBlank ')' = false := by decide
  exact ⟨')', passed, by simp [hb], by decide, endsInExponentMark_cons (by decide)⟩

theorem operandEnd_of_isTokenChar (hc : isTokenChar c = true)
    (h : endsInExponentMark (c :: passed) = false) : OperandEnd (c :: passed) := by
  have hb := not_blank_of_isTokenChar hc
  refine ⟨c, passed, by simp [hb], ?_, h⟩
  rw [Bool.eq_false_iff]
  exact fun ho => not_mem_marks_of_isTokenChar hc (mem_marks_of_opener ho)

/-- No token reaches back over the start of an operand. -/
theorem OperandStart.takeWhile (h : OperandStart passed) :
    passed.takeWhile isTokenChar = [] := by
  cases passed with
  | nil => rfl
  | cons d r =>
    have hd : isTokenChar d = false := by
      rw [Bool.eq_false_iff]
      intro ht
      have hopen := h d (by simp [not_blank_of_isTokenChar ht])
      exact not_mem_marks_of_isTokenChar ht (mem_marks_of_opener hopen)
    simp [hd]

/-- A name is no mantissa with an exponent mark. -/
theorem operandEnd_of_isIdentifier (h : isIdentifier s = true) (hp : OperandStart passed) :
    OperandEnd (s.reverse ++ passed) := by
  have htoken := isTokenChar_of_isIdentifier h
  obtain ⟨init, c, rfl⟩ : ∃ init c, s = init ++ [c] := by
    refine ⟨s.dropLast, s.getLast ?_, (List.dropLast_concat_getLast _).symm⟩
    rintro rfl
    simp [isIdentifier] at h
  have hc : isTokenChar c = true := htoken c (by simp)
  rw [List.reverse_append, List.reverse_singleton, List.singleton_append, List.cons_append]
  refine operandEnd_of_isTokenChar hc ?_
  have hmantissa : (init.reverse ++ passed).takeWhile isTokenChar = init.reverse := by
    rw [List.takeWhile_append_of_pos, hp.takeWhile, List.append_nil]
    intro d hd
    exact htoken d (by simp [List.mem_reverse.mp hd])
  simp only [endsInExponentMark, hmantissa]
  cases init with
  | nil => simp
  | cons d init =>
    have hd : isNameStart d = true := by
      simp only [List.cons_append, isIdentifier, Bool.and_eq_true] at h
      exact h.1
    have hnum := not_numeric_of_isNameStart hd
    simp only [List.reverse_cons, List.all_append, List.all_cons, hnum]
    simp

end Positions

/-! ## The grammar -/

/-- How tightly the text of an expression binds, loosest first. -/
inductive Level where
  | sum
  | product
  | signed
  | power
  | primary
deriving DecidableEq, Repr

namespace Level

/-- The level whose texts stand as operands. -/
def next : Level → Level
  | sum => product
  | product => signed
  | signed => power
  | power | primary => primary

/-- The operation that a character stands for in a chain of the level. -/
def operation? : Level → Char → Option BinaryOp
  | sum, '+' => some .add
  | sum, '-' => some .sub
  | product, '*' => some .mul
  | product, '/' => some .div
  | _, _ => none

/-- The characters that do not occur in texts of the level outside all parentheses. -/
def foreign : Level → List Char
  | sum | product => [',']
  | signed | power => [',', '*', '/']
  | primary => [',', '*', '/', '^']

end Level

/-- Texts with a comma between neighbours. -/
def commaText : List (List Char) → List Char
  | [] => []
  | s :: ss => s ++ chainText (ss.map fun t => (',', t))

/-- The text is derived at the level, with the tree. -/
inductive Derives : Level → List Char → Expr → Prop where
  | literal {s : List Char} {q : Rat} (h : Exact.Literal s q) : Derives .primary s (.number q)
  | name {s : List Char} (h : isIdentifier s = true) :
    Derives .primary s (.symbol (String.ofList s))
  | callEmpty {s w v : List Char} (hs : isIdentifier s = true) (hw : allBlank w = true)
    (hv : allBlank v = true) :
    Derives .primary (s ++ w ++ '(' :: (v ++ [')'])) (.call (String.ofList s) [])
  | call {s w : List Char} {args : List (List Char × Expr)} (hs : isIdentifier s = true)
    (hw : allBlank w = true) (hne : args ≠ []) (h : ∀ a ∈ args, Derives .sum a.1 a.2) :
    Derives .primary (s ++ w ++ '(' :: (commaText (args.map Prod.fst) ++ [')']))
      (.call (String.ofList s) (args.map Prod.snd))
  | group {s : List Char} {e : Expr} (h : Derives .sum s e) : Derives .primary ('(' :: (s ++ [')'])) e
  | padded {s w v : List Char} {e : Expr} (hw : allBlank w = true) (hv : allBlank v = true)
    (h : Derives .primary s e) : Derives .primary (w ++ s ++ v) e
  | power {s t : List Char} {a b : Expr} (hs : Derives .primary s a) (ht : Derives .signed t b) :
    Derives .power (s ++ '^' :: t) (.binary .pow a b)
  | minus {s w : List Char} {e : Expr} (hw : allBlank w = true) (h : Derives .signed s e) :
    Derives .signed (w ++ '-' :: s) (.neg e)
  | plus {s w : List Char} {e : Expr} (hw : allBlank w = true) (h : Derives .signed s e) :
    Derives .signed (w ++ '+' :: s) e
  | operation {l : Level} {c : Char} {op : BinaryOp} {s t : List Char} {a b : Expr}
    (hop : l.operation? c = some op) (hs : Derives l s a) (ht : Derives l.next t b) :
    Derives l (s ++ c :: t) (.binary op a b)
  | operand {l : Level} {s : List Char} {e : Expr} (h : Derives l.next s e) : Derives l s e

section Texts

variable {l : Level} {s t : List Char} {e : Expr} {c : Char} {op : BinaryOp}

theorem operation?_eq_some (h : l.operation? c = some op) :
    (l = .sum ∧ (c = '+' ∧ op = .add ∨ c = '-' ∧ op = .sub)) ∨
      (l = .product ∧ (c = '*' ∧ op = .mul ∨ c = '/' ∧ op = .div)) := by
  unfold Level.operation? at h
  split at h <;> simp_all

theorem opener_of_operation? (h : l.operation? c = some op) :
    operandOpeners.contains c = true ∧ c ≠ '(' ∧ c ≠ ')' := by
  rcases operation?_eq_some h with ⟨-, ⟨rfl, -⟩ | ⟨rfl, -⟩⟩ | ⟨-, ⟨rfl, -⟩ | ⟨rfl, -⟩⟩ <;> decide

/-! ### Tokens -/

theorem ne_parens_of_isTokenChar (h : isTokenChar c = true) : c ≠ '(' ∧ c ≠ ')' := by
  constructor <;> rintro rfl <;> exact absurd h (by decide)

theorem ne_parens_of_isBlank (h : isBlank c = true) : c ≠ '(' ∧ c ≠ ')' := by
  constructor <;> rintro rfl <;> exact absurd h (by decide)

theorem balanced_of_isIdentifier (h : isIdentifier s = true) : Balanced s :=
  balanced_of_forall fun c hc => ne_parens_of_isTokenChar (isTokenChar_of_isIdentifier h c hc)

theorem balanced_of_allBlank (h : allBlank s = true) : Balanced s :=
  balanced_of_forall fun c hc => ne_parens_of_isBlank (List.all_eq_true.mp h c hc)

theorem balanced_of_literal {q : Rat} (h : Exact.Literal s q) : Balanced s :=
  balanced_of_forall fun c hc => by
    rcases chars_of_literal h c hc with ht | rfl | rfl
    · exact ne_parens_of_isTokenChar ht
    · decide
    · decide

theorem balanced_chainText {pieces : List (Char × List Char)}
    (h : ∀ p ∈ pieces, p.1 ≠ '(' ∧ p.1 ≠ ')' ∧ Balanced p.2) : Balanced (chainText pieces) := by
  induction pieces with
  | nil => exact .nil
  | cons p pieces ih =>
    obtain ⟨hopen, hclose, hp⟩ := h p (by simp)
    exact .char hopen hclose (hp.append (ih fun q hq => h q (by simp [hq])))

theorem balanced_commaText {ss : List (List Char)} (h : ∀ s ∈ ss, Balanced s) :
    Balanced (commaText ss) := by
  cases ss with
  | nil => exact .nil
  | cons s ss =>
    refine (h s (by simp)).append (balanced_chainText fun p hp => ?_)
    obtain ⟨t, ht, rfl⟩ := List.mem_map.mp hp
    exact ⟨by simp, by simp, h t (by simp [ht])⟩

theorem Derives.balanced (h : Derives l s e) : Balanced s := by
  induction h with
  | literal h => exact balanced_of_literal h
  | name h => exact balanced_of_isIdentifier h
  | callEmpty hs hw hv =>
    exact ((balanced_of_isIdentifier hs).append (balanced_of_allBlank hw)).append
      (balanced_of_allBlank hv).parens
  | @call s w args hs hw hne _ ih =>
    refine ((balanced_of_isIdentifier hs).append (balanced_of_allBlank hw)).append
      (balanced_commaText fun t ht => ?_).parens
    obtain ⟨a, ha, rfl⟩ := List.mem_map.mp ht
    exact ih a ha
  | group _ ih => exact ih.parens
  | padded hw hv _ ih => exact ((balanced_of_allBlank hw).append ih).append (balanced_of_allBlank hv)
  | power _ _ ihs iht => exact ihs.append (.char (by decide) (by decide) iht)
  | minus hw _ ih => exact (balanced_of_allBlank hw).append (.char (by decide) (by decide) ih)
  | plus hw _ ih => exact (balanced_of_allBlank hw).append (.char (by decide) (by decide) ih)
  | operation hop _ _ ihs iht =>
    obtain ⟨-, hopen, hclose⟩ := opener_of_operation? hop
    exact ihs.append (.char hopen hclose iht)
  | operand _ ih => exact ih

theorem balanced_arguments {args : List (List Char × Expr)}
    (h : ∀ a ∈ args, Derives .sum a.1 a.2) : Balanced (commaText (args.map Prod.fst)) := by
  refine balanced_commaText fun t ht => ?_
  obtain ⟨a, ha, rfl⟩ := List.mem_map.mp ht
  exact (h a ha).balanced

/-! ### Separators that do not cut -/

theorem foreign_next (h : c ∈ l.foreign) : c ∈ l.next.foreign := by
  cases l <;> simp [Level.foreign, Level.next] at h ⊢ <;> tauto

theorem foreign_marks (h : c ∈ l.foreign) : c ∈ marks ∧ c ≠ '+' ∧ c ≠ '-' := by
  have hc : c = ',' ∨ c = '*' ∨ c = '/' ∨ c = '^' := by
    cases l <;> simp [Level.foreign] at h <;> tauto
  rcases hc with rfl | rfl | rfl | rfl <;> decide

/-- The separators are foreign to the texts of the level. -/
def ForeignTo (l : Level) (sep : Char → Bool) : Prop := ∀ c, sep c = true → c ∈ l.foreign

section Foreign

variable {sep : Char → Bool} {passed : List Char}

theorem ForeignTo.eq_false (hsep : ForeignTo l sep) (hc : c ∉ l.foreign) : sep c = false :=
  Bool.eq_false_iff.mpr fun hs => hc (hsep c hs)

theorem not_foreign_of_operation? (h : l.operation? c = some op) : c ∉ l.foreign := by
  rcases operation?_eq_some h with ⟨rfl, ⟨rfl, -⟩ | ⟨rfl, -⟩⟩ | ⟨rfl, ⟨rfl, -⟩ | ⟨rfl, -⟩⟩ <;> decide

theorem passes_tokens (hsep : ForeignTo l sep)
    (h : ∀ c ∈ s, isTokenChar c = true ∨ c = '+' ∨ c = '-') :
    Passes (fun _ => sep) 0 passed s := by
  refine passes_of_forall fun c hc => ?_
  have hfree : sep c = false := by
    rw [Bool.eq_false_iff]
    intro hs
    obtain ⟨hmark, hplus, hminus⟩ := foreign_marks (hsep c hs)
    rcases h c hc with ht | ht | ht
    · exact not_mem_marks_of_isTokenChar ht hmark
    · exact hplus ht
    · exact hminus ht
  rcases h c hc with ht | rfl | rfl
  · exact ⟨(ne_parens_of_isTokenChar ht).1, (ne_parens_of_isTokenChar ht).2, fun _ => hfree⟩
  · exact ⟨by decide, by decide, fun _ => hfree⟩
  · exact ⟨by decide, by decide, fun _ => hfree⟩

theorem passes_blanks (hsep : ForeignTo l sep) (h : allBlank s = true) :
    Passes (fun _ => sep) 0 passed s := by
  refine passes_of_forall fun c hc => ?_
  have hb := List.all_eq_true.mp h c hc
  refine ⟨(ne_parens_of_isBlank hb).1, (ne_parens_of_isBlank hb).2, fun _ => ?_⟩
  rw [Bool.eq_false_iff]
  exact fun hs => not_mem_marks_of_isBlank hb (foreign_marks (hsep c hs)).1

theorem passes_identifier (hsep : ForeignTo l sep) (h : isIdentifier s = true) :
    Passes (fun _ => sep) 0 passed s :=
  passes_tokens hsep fun c hc => .inl (isTokenChar_of_isIdentifier h c hc)

/-- A character that does not separate, between two texts. -/
theorem Passes.between (hs : Passes (fun _ => sep) 0 passed s) (hc : sep c = false)
    (hopen : c ≠ '(') (hclose : c ≠ ')')
    (ht : Passes (fun _ => sep) 0 (c :: (s.reverse ++ passed)) t) :
    Passes (fun _ => sep) 0 passed (s ++ c :: t) :=
  hs.append (.char hopen hclose (fun _ => hc) ht)

theorem Derives.passes (h : Derives l s e) :
    ∀ {passed : List Char}, ForeignTo l sep → Passes (fun _ => sep) 0 passed s := by
  induction h with
  | literal h => exact fun hsep => passes_tokens hsep (chars_of_literal h)
  | name h => exact fun hsep => passes_identifier hsep h
  | callEmpty hs hw hv =>
    intro passed hsep
    exact ((passes_identifier hsep hs).append (passes_blanks hsep hw)).append
      (balanced_of_allBlank hv).passes_parens
  | call hs hw hne h _ =>
    intro passed hsep
    exact ((passes_identifier hsep hs).append (passes_blanks hsep hw)).append
      (balanced_arguments h).passes_parens
  | group h _ => exact fun _ => h.balanced.passes_parens
  | padded hw hv _ ih =>
    intro passed hsep
    exact ((passes_blanks hsep hw).append (ih hsep)).append (passes_blanks hsep hv)
  | power _ _ ihs iht =>
    intro passed hsep
    have hc : sep '^' = false := hsep.eq_false (by decide)
    have hprimary : ForeignTo .primary sep := fun c hs => foreign_next (hsep c hs)
    exact (ihs hprimary).between hc (by decide) (by decide) (iht hsep)
  | minus hw _ ih =>
    intro passed hsep
    have hc : sep '-' = false := hsep.eq_false (by decide)
    exact (passes_blanks hsep hw).between hc (by decide) (by decide) (ih hsep)
  | plus hw _ ih =>
    intro passed hsep
    have hc : sep '+' = false := hsep.eq_false (by decide)
    exact (passes_blanks hsep hw).between hc (by decide) (by decide) (ih hsep)
  | @operation _ c _ _ _ _ _ hop _ _ ihs iht =>
    intro passed hsep
    obtain ⟨-, hopen, hclose⟩ := opener_of_operation? hop
    have hc : sep c = false := hsep.eq_false (not_foreign_of_operation? hop)
    exact (ihs hsep).between hc hopen hclose (iht fun c hs => foreign_next (hsep c hs))
  | operand _ ih => exact fun hsep => ih fun c hs => foreign_next (hsep c hs)

end Foreign

/-! ### Signs that do not join -/

theorem not_joining_of_ne {passed : List Char} (hplus : c ≠ '+') (hminus : c ≠ '-') :
    isJoiningSign passed c = false := by
  simp [isJoiningSign, hplus, hminus]

theorem passes_sign_token {passed : List Char} (h : ∀ c ∈ s, isTokenChar c = true) :
    Passes isJoiningSign 0 passed s :=
  passes_of_forall fun c hc => by
    have hmark := not_mem_marks_of_isTokenChar (h c hc)
    have hparens := ne_parens_of_isTokenChar (h c hc)
    refine ⟨hparens.1, hparens.2, fun _ => not_joining_of_ne ?_ ?_⟩ <;> rintro rfl <;>
      exact hmark (by decide)

theorem passes_sign_identifier {passed : List Char} (h : isIdentifier s = true) :
    Passes isJoiningSign 0 passed s :=
  passes_sign_token (isTokenChar_of_isIdentifier h)

theorem passes_sign_blanks {passed : List Char} (h : allBlank s = true) :
    Passes isJoiningSign 0 passed s :=
  passes_of_forall fun c hc => by
    have hb := List.all_eq_true.mp h c hc
    have hmark := not_mem_marks_of_isBlank hb
    have hparens := ne_parens_of_isBlank hb
    refine ⟨hparens.1, hparens.2, fun _ => not_joining_of_ne ?_ ?_⟩ <;> rintro rfl <;>
      exact hmark (by decide)

/-- The sign of an exponent does not join: a mantissa and a mark stand before it. -/
theorem endsInExponentMark_mantissa {n places : Nat} {passed : List Char}
    (h : Exact.Mantissa s n places) (hc : c = 'e' ∨ c = 'E') (hp : OperandStart passed) :
    endsInExponentMark (c :: (s.reverse ++ passed)) = true := by
  have hmantissa : (s.reverse ++ passed).takeWhile isTokenChar = s.reverse := by
    rw [List.takeWhile_append_of_pos, hp.takeWhile, List.append_nil]
    intro d hd
    exact isTokenChar_of_mantissa (h.chars d (List.mem_reverse.mp hd))
  have hall : s.all (fun d => d.isDigit || d == '.') = true := by
    rw [List.all_eq_true]
    intro d hd
    simpa using h.chars d hd
  obtain ⟨d, hd, hdigit⟩ := h.exists_digit
  have hany : s.any Char.isDigit = true := List.any_eq_true.mpr ⟨d, hd, hdigit⟩
  rcases hc with rfl | rfl <;> simp [endsInExponentMark, hmantissa, hall, hany]

/-- A sign after a mantissa and an exponent mark, and the digits after it, are passed over. -/
theorem passes_exponent {n places : Nat} {z : Int} {passed : List Char}
    (h : Exact.Mantissa s n places) (hp : OperandStart passed) (ht : Exact.ExponentPart t z) :
    Passes isJoiningSign 0 (s.reverse ++ passed) t := by
  have hdigits : ∀ {t passed}, (∀ d ∈ t, d.isDigit = true) → Passes isJoiningSign 0 passed t :=
    fun ht => passes_sign_token fun d hd => isTokenChar_of_mantissa (.inl (ht d hd))
  cases ht with
  | absent => exact .nil
  | @marked c t z hc ht =>
    have hmark := endsInExponentMark_mantissa h hc hp
    have hsign : ∀ d, isJoiningSign (c :: (s.reverse ++ passed)) d = false := by
      intro d
      rw [isJoiningSign, hmark]
      split <;> simp
    have hc' : c ≠ '(' ∧ c ≠ ')' ∧ c ≠ '+' ∧ c ≠ '-' := by rcases hc with rfl | rfl <;> decide
    refine .char hc'.1 hc'.2.1 (fun _ => not_joining_of_ne hc'.2.2.1 hc'.2.2.2) ?_
    cases ht with
    | plain _ ht => exact hdigits ht
    | plus _ ht => exact .char (by decide) (by decide) (fun _ => hsign _) (hdigits ht)
    | minus _ ht => exact .char (by decide) (by decide) (fun _ => hsign _) (hdigits ht)

theorem spans_literal {q : Rat} (h : Exact.Literal s q) :
    Spans isJoiningSign OperandStart OperandEnd s := by
  intro passed hp
  constructor
  · cases h with
    | mk h =>
    cases h with
    | @mk m x _ _ _ hm hx =>
    have hmantissa : Passes isJoiningSign 0 passed m :=
      passes_sign_token fun c hc => isTokenChar_of_mantissa (hm.chars c hc)
    exact hmantissa.append (passes_exponent hm hp hx)
  · obtain ⟨init, c, rfl, hc⟩ := h.ends
    rw [List.reverse_append, List.reverse_singleton, List.singleton_append, List.cons_append]
    refine operandEnd_of_isTokenChar (isTokenChar_of_mantissa hc) (endsInExponentMark_cons ?_)
    obtain ⟨he, hE⟩ := Exact.not_mark_of_mantissa hc
    simp [he, hE]

/-- A text with a group at its end is a whole operand. -/
theorem operandEnd_parens {passed : List Char} :
    OperandEnd ((s ++ '(' :: (t ++ [')'])).reverse ++ passed) := by
  simpa using operandEnd_close

/-- A sign where an operand may start does not join. -/
theorem scan_sign {w passed : List Char} (hw : allBlank w = true) (hc : c = '+' ∨ c = '-')
    (hp : OperandStart passed) (h : ∀ {passed : List Char}, OperandStart passed →
      Passes isJoiningSign 0 passed s ∧ OperandEnd (s.reverse ++ passed)) :
    Passes isJoiningSign 0 passed (w ++ c :: s) ∧ OperandEnd ((w ++ c :: s).reverse ++ passed) := by
  have hopener : operandOpeners.contains c = true := by rcases hc with rfl | rfl <;> decide
  obtain ⟨hs, hend⟩ := h (operandStart_cons hopener)
  refine ⟨(passes_sign_blanks hw).append ?_, by simpa using hend⟩
  rcases hc with rfl | rfl
  · exact .char (by decide) (by decide) (fun _ => (hp.blanks hw).not_joining) hs
  · exact .char (by decide) (by decide) (fun _ => (hp.blanks hw).not_joining) hs

/-- Started where an operand may start, the scan for joining signs passes over a text that is no
sum, and a whole operand stands before it at the end. -/
theorem Derives.scan (h : Derives l s e) :
    ∀ {passed : List Char}, OperandStart passed →
      (l ≠ .sum → Passes isJoiningSign 0 passed s) ∧ OperandEnd (s.reverse ++ passed) := by
  induction h with
  | literal h => exact fun hp => ⟨fun _ => (spans_literal h _ hp).1, (spans_literal h _ hp).2⟩
  | name h => exact fun hp => ⟨fun _ => passes_sign_identifier h, operandEnd_of_isIdentifier h hp⟩
  | callEmpty hs hw hv =>
    intro passed hp
    refine ⟨fun _ => ?_, operandEnd_parens⟩
    exact ((passes_sign_identifier hs).append (passes_sign_blanks hw)).append
      (balanced_of_allBlank hv).passes_parens
  | call hs hw hne h _ =>
    intro passed hp
    refine ⟨fun _ => ?_, operandEnd_parens⟩
    exact ((passes_sign_identifier hs).append (passes_sign_blanks hw)).append
      (balanced_arguments h).passes_parens
  | group h _ =>
    intro passed hp
    exact ⟨fun _ => h.balanced.passes_parens, by simpa using operandEnd_close⟩
  | @padded s w v e hw hv _ ih =>
    intro passed hp
    obtain ⟨hpass, hend⟩ := ih (hp.blanks hw)
    refine ⟨fun _ => ?_, ?_⟩
    · exact ((passes_sign_blanks hw).append (hpass (by simp))).append (passes_sign_blanks hv)
    · simpa using hend.blanks hv
  | @power s t a b _ _ ihs iht =>
    intro passed hp
    obtain ⟨hs, -⟩ := ihs hp
    obtain ⟨ht, hend⟩ := iht (operandStart_cons (by decide : operandOpeners.contains '^' = true))
    refine ⟨fun _ => (hs (by simp)).append ?_, by simpa using hend⟩
    exact .char (by decide) (by decide) (fun _ => not_joining_of_ne (by decide) (by decide))
      (ht (by simp))
  | minus hw _ ih =>
    intro passed hp
    have hsigned := scan_sign hw (.inr rfl) hp fun hp => ⟨(ih hp).1 (by simp), (ih hp).2⟩
    exact ⟨fun _ => hsigned.1, hsigned.2⟩
  | plus hw _ ih =>
    intro passed hp
    have hsigned := scan_sign hw (.inl rfl) hp fun hp => ⟨(ih hp).1 (by simp), (ih hp).2⟩
    exact ⟨fun _ => hsigned.1, hsigned.2⟩
  | @operation l c op s t a b hop _ _ ihs iht =>
    intro passed hp
    obtain ⟨hopener, hopen, hclose⟩ := opener_of_operation? hop
    obtain ⟨hs, -⟩ := ihs hp
    obtain ⟨ht, hend⟩ := iht (operandStart_cons hopener)
    refine ⟨fun hl => ?_, by simpa using hend⟩
    rcases operation?_eq_some hop with ⟨rfl, -⟩ | ⟨rfl, hc⟩
    · exact absurd rfl hl
    · have hsign : c ≠ '+' ∧ c ≠ '-' := by rcases hc with ⟨rfl, -⟩ | ⟨rfl, -⟩ <;> decide
      exact (hs hl).append (.char hopen hclose (fun _ => not_joining_of_ne hsign.1 hsign.2)
        (ht (by simp [Level.next])))
  | @operand l s e _ ih =>
    intro passed hp
    obtain ⟨hs, hend⟩ := ih hp
    exact ⟨fun hl => hs (by cases l <;> simp [Level.next] at hl ⊢), hend⟩

theorem Derives.spans (h : Derives l s e) (hl : l ≠ .sum) :
    Spans isJoiningSign OperandStart OperandEnd s :=
  fun _ hp => ⟨(h.scan hp).1 hl, (h.scan hp).2⟩

end Texts

end Formulary
