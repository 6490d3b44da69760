import Formulary.Proofs.PhysicalUnit.Product
import Formulary.Proofs.PhysicalUnit.Tree
import Mathlib.Data.List.TakeWhile

/-!
Texts of unit trees.

The grammar of unit texts has four levels: quotients of products of factors, each a power or a bare
operand, and an operand may be a quotient in parentheses. Quotients and products associate to the left,
so each text of the grammar stands for one tree; and every tree has a text in which each operand that
is no unit and not the one is in parentheses.

## How the proof goes

For each level there is a structure that says what the text has to be like for the levels around it, and
that it is read as its tree at this level (`OperandText`, `FactorText`, `ProductText`, `QuotientText`). A
constructor of the grammar is a lemma from structures to a structure, and the theorem is a recursion over
the grammar that applies them (`quotientText`).

At each level it is shown that the text is split just where it was put together. An operand and a power
are `Whole`: they are cut nowhere. A product is cut at its marks and not at slashes, and a quotient at its
slashes.

## What the side conditions are for

Two stars are read as one caret before anything is cut. So no text may start or end with a star, or one
might meet the mark beside it; and none may start or end with a blank, or it would be trimmed, and what is
read would be another text. `Solid` says both, and it is kept by whatever is put between two solid texts.

The whole text is looked up in the table first. Units whose names have several words are found there, and
a product with blanks between its factors must not be taken for one of them. `Led` keeps hold of the first
word: in the texts of the grammar it is a known unit, the one, or missing, and no name of several words
starts so (`not_led_of_mem_phrases`).
-/

namespace Formulary

open Formulary.Except

/-! ## The grammar -/

mutual

/-- What can be raised to a power: the one, a known unit, or a quotient in parentheses. -/
inductive UnitOperand where
  | one
  | name (n : UnitName)
  | group (q : UnitQuotient)

/-- An operand, or a power of one. -/
inductive UnitFactor where
  | bare (o : UnitOperand)
  | power (mark : PowerMark) (o : UnitOperand) (n : Int) (fits : Exact.fitsInt32 n = true)

/-- Factors with marks between them. -/
inductive UnitProduct where
  | single (f : UnitFactor)
  | times (p : UnitProduct) (mark : ProductMark) (f : UnitFactor)

/-- Products with slashes between them. -/
inductive UnitQuotient where
  | single (p : UnitProduct)
  | slash (q : UnitQuotient) (p : UnitProduct)

end

def ProductMark.char : ProductMark → Char
  | star => '*'
  | dot => '·'
  | space => ' '

def PowerMark.chars : PowerMark → List Char
  | caret => ['^']
  | stars => ['*', '*']

mutual

def UnitOperand.text : UnitOperand → List Char
  | .one => ['1']
  | .name n => n.spelling.toList
  | .group q => '(' :: (q.text ++ [')'])

def UnitFactor.text : UnitFactor → List Char
  | .bare o => o.text
  | .power mark o n _ => o.text ++ (mark.chars ++ (toString n).toList)

def UnitProduct.text : UnitProduct → List Char
  | .single f => f.text
  | .times p mark f => p.text ++ mark.char :: f.text

def UnitQuotient.text : UnitQuotient → List Char
  | .single p => p.text
  | .slash q p => q.text ++ '/' :: p.text

end

mutual

def UnitOperand.tree : UnitOperand → UnitTree
  | .one => .one
  | .name n => .name n
  | .group q => q.tree

def UnitFactor.tree : UnitFactor → UnitTree
  | .bare o => o.tree
  | .power mark o n fits => .power mark o.tree n fits

def UnitProduct.tree : UnitProduct → UnitTree
  | .single f => f.tree
  | .times p mark f => .product mark p.tree f.tree

def UnitQuotient.tree : UnitQuotient → UnitTree
  | .single p => p.tree
  | .slash q p => .quotient q.tree p.tree

end

namespace UnitTree

/-- The tree as an operand, given how it is written: in parentheses if it is compound. -/
def asOperand (t : UnitTree) (written : UnitQuotient) : UnitOperand :=
  match t with
  | one => .one
  | name n => .name n
  | product .. | quotient .. | power .. => .group written

/-- The tree with every compound operand in parentheses. -/
def written : UnitTree → UnitQuotient
  | one => .single (.single (.bare .one))
  | name n => .single (.single (.bare (.name n)))
  | product mark l r =>
    .single (.times (.single (.bare (l.asOperand l.written))) mark (.bare (r.asOperand r.written)))
  | quotient l r =>
    .slash (.single (.single (.bare (l.asOperand l.written))))
      (.single (.bare (r.asOperand r.written)))
  | power mark base n fits =>
    .single (.single (.power mark (base.asOperand base.written) n fits))

def text (t : UnitTree) : List Char := t.written.text

example : text (.product .dot (.power .stars (.quotient .one .one) (-2) rfl) .one) =
    "((1/1)**-2)·1".toList := by decide

theorem tree_asOperand {t : UnitTree} {q : UnitQuotient} (h : q.tree = t) : (t.asOperand q).tree = t := by
  cases t <;> simp only [asOperand, UnitOperand.tree, h]

theorem tree_written : ∀ t : UnitTree, t.written.tree = t
  | one => rfl
  | name _ => rfl
  | product mark l r => by
    simp only [written, UnitQuotient.tree, UnitProduct.tree, UnitFactor.tree, tree_asOperand l.tree_written,
      tree_asOperand r.tree_written]
  | quotient l r => by
    simp only [written, UnitQuotient.tree, UnitProduct.tree, UnitFactor.tree, tree_asOperand l.tree_written,
      tree_asOperand r.tree_written]
  | power mark base n fits => by
    simp only [written, UnitQuotient.tree, UnitProduct.tree, UnitFactor.tree,
      tree_asOperand base.tree_written]

end UnitTree

variable {s t e : List Char} {c : Char}

/-! ## The ends of a text -/

/-- Neither end is a blank or a star. -/
structure Solid (s : List Char) : Prop where
  first : ∃ c r, s = c :: r ∧ isBlank c = false ∧ c ≠ '*'
  last : ∃ r c, s = r ++ [c] ∧ isBlank c = false ∧ c ≠ '*'

namespace Solid

theorem of_forall (hne : s ≠ []) (h : ∀ c ∈ s, isBlank c = false ∧ c ≠ '*') : Solid s where
  first := by
    obtain ⟨c, r, rfl⟩ := List.exists_cons_of_ne_nil hne
    exact ⟨c, r, rfl, h c (by simp)⟩
  last := by
    obtain ⟨r, c, rfl⟩ := (List.eq_nil_or_concat s).resolve_left hne
    rw [List.concat_eq_append] at h ⊢
    exact ⟨r, c, rfl, h c (by simp)⟩

theorem parens (s : List Char) : Solid ('(' :: (s ++ [')'])) :=
  ⟨⟨'(', s ++ [')'], rfl, by decide⟩, ⟨'(' :: s, ')', rfl, by decide⟩⟩

theorem append (hs : Solid s) (ht : Solid t) (m : List Char) : Solid (s ++ (m ++ t)) where
  first := by
    obtain ⟨c, r, rfl, hc⟩ := hs.first
    exact ⟨c, r ++ (m ++ t), rfl, hc⟩
  last := by
    obtain ⟨r, c, rfl, hc⟩ := ht.last
    exact ⟨s ++ (m ++ r), c, by simp, hc⟩

theorem caretPowers (hs : Solid s) : Solid (caretPowers s) where
  first := by
    obtain ⟨c, r, rfl, hc⟩ := hs.first
    exact ⟨c, _, caretPowers_cons hc.2, hc⟩
  last := by
    obtain ⟨r, c, rfl, hc⟩ := hs.last
    exact ⟨_, c, caretPowers_append_cons hc.2, hc⟩

theorem ne_nil (hs : Solid s) : s ≠ [] := by
  obtain ⟨c, r, rfl, -⟩ := hs.first
  exact List.cons_ne_nil c r

theorem head?_ne (hs : Solid s) : s.head? ≠ some '*' := by
  obtain ⟨c, r, rfl, -, hc⟩ := hs.first
  simpa using hc

theorem getLast?_ne (hs : Solid s) : s.getLast? ≠ some '*' := by
  obtain ⟨r, c, rfl, -, hc⟩ := hs.last
  simpa using hc

theorem trim (hs : Solid s) : trim s = s := by
  have hstart : trimStart s = s := by
    obtain ⟨c, r, rfl, hc, -⟩ := hs.first
    exact trimStart_cons hc
  obtain ⟨r, c, rfl, hc, -⟩ := hs.last
  rw [Formulary.trim, hstart, trimEnd_concat hc]

theorem not_blank (hs : Solid s) : allBlank s = false :=
  PhysicalUnit.allBlank_of_trim hs.trim hs.ne_nil

end Solid

namespace PhysicalUnit

variable {u : PhysicalUnit} {tree : UnitTree}

theorem solid_of_plain (hne : s ≠ []) (hs : ∀ c ∈ s, isPlain c = true) : Solid s :=
  .of_forall hne fun c hc => ⟨not_blank_of_isPlain (hs c hc), by
    rintro rfl
    exact not_mem_of_plain hs (by decide) hc⟩

theorem solid_int (n : Int) : Solid (toString n).toList := by
  have hne : (toString n).toList ≠ [] := fun hnil => by
    have hread := Exact.read_int n
    rw [hnil] at hread
    cases hread
  refine .of_forall hne fun c hc => ⟨?_, ?_⟩
  · rcases Exact.chars_of_int n c hc with hdigit | rfl
    · exact not_blank_of_isPlain (isPlain_iff.mpr (.inl (by simp [isNameRest, Char.isAlphanum, hdigit])))
    · decide
  · rintro rfl
    exact not_mem_int (by decide) hc

/-! ## How texts are split -/

/-- The text splits nowhere. -/
structure Whole (s : List Char) : Prop where
  balanced : Balanced s
  undivided : partsTop ['/'] s = [s]
  factor : partsTop ['*', '·', ' '] s = [s]

theorem Whole.of_plain (hs : ∀ c ∈ s, isPlain c = true) : Whole s where
  balanced := balanced_of_plain hs
  undivided := undivided_of_plain hs
  factor := factor_of_plain hs

theorem Whole.parens (hs : Balanced s) : Whole ('(' :: (s ++ [')'])) :=
  ⟨hs.parens, partsTop_parens hs, partsTop_parens hs⟩

theorem Whole.exponent {n : Int} (h : Whole s) (he : Exponent e n 1) (hb : Balanced e) :
    Whole (s ++ '^' :: e) where
  balanced := h.balanced.append (.char (by decide) (by decide) hb)
  undivided := partsTop_append_whole h.balanced h.undivided he.undivided
  factor := partsTop_append_whole h.balanced h.factor he.factor

/-- The word that a text starts with is nothing, the one or a known unit. -/
def Led (s : List Char) : Prop :=
  s.takeWhile isPlain = [] ∨ s.takeWhile isPlain = ['1'] ∨
    (lookup? (String.ofList (s.takeWhile isPlain))).isSome = true

instance (s : List Char) : Decidable (Led s) := inferInstanceAs (Decidable (_ ∨ _ ∨ _))

/-- Spellings of several words start with words of their own. -/
theorem not_led_of_mem_phrases : ∀ n ∈ phrases, ¬ Led n.toList := by decide +kernel

theorem Led.append (h : Led s) (hc : isPlain c = false) : Led (s ++ c :: t) := by
  have hword : (s ++ c :: t).takeWhile isPlain = s.takeWhile isPlain := by
    rw [List.takeWhile_append]
    split
    · rename_i hlength
      rw [List.takeWhile_cons_of_neg (by simp [hc]), List.append_nil,
        (List.takeWhile_prefix _).eq_of_length hlength]
    · rfl
  rwa [Led, hword]

/-- A text whose ends, first word and parentheses are in order. -/
structure Piece (s : List Char) : Prop extends Solid s where
  led : Led s
  balanced : Balanced (caretPowers s)

theorem Piece.join {m : List Char} (hs : Piece s) (ht : Solid t) (hc : isPlain c = false)
    (hbalanced : Balanced (caretPowers (s ++ (c :: m ++ t)))) : Piece (s ++ (c :: m ++ t)) :=
  ⟨hs.toSolid.append ht (c :: m), hs.led.append hc, hbalanced⟩

/-! ## Texts and the trees they denote -/

/-- The text denotes the tree as a group, alone or under an exponent. -/
structure OperandText (s : List Char) (tree : UnitTree) : Prop extends Piece s where
  whole : Whole (caretPowers s)
  cut : ∀ r, cutOnceTop '^' 0 (caretPowers s ++ r) =
    (cutOnceTop '^' 0 r).map fun p => (caretPowers s ++ p.1, p.2)
  alone : readPower readNested (caretPowers s) = readNested (caretPowers s)
  computes : Computes (readNested (caretPowers s)) tree

/-- The text denotes the tree as a factor. -/
structure FactorText (s : List Char) (tree : UnitTree) : Prop extends Piece s where
  whole : Whole (caretPowers s)
  computes : Computes (readPower readNested (caretPowers s)) tree

/-- The text denotes the tree as a product. -/
structure ProductText (s : List Char) (tree : UnitTree) : Prop extends Piece s where
  undivided : partsTop ['/'] (caretPowers s) = [caretPowers s]
  computes : Computes ((factors (caretPowers s)).foldlM (multiplyBy readNested) dimensionless) tree

/-- The text denotes the tree as a quotient. -/
structure QuotientText (s : List Char) (tree : UnitTree) : Prop extends Piece s where
  computes : ∃ p ps, partsTop ['/'] (caretPowers s) = p :: ps ∧ ∀ text,
    Computes (readProduct readNested p >>= fun top => ps.foldlM (divideBy readNested text) top) tree

/-! ### Operands -/

theorem readPower_alone (htrim : trim s = s) (hcut : cutOnceTop '^' 0 s = none)
    (hsuperscript : cutSuperscript? s = none) : readPower readNested s = readNested s := by
  rw [readPower_def]
  simp only [htrim, hcut, hsuperscript]

theorem OperandText.of_plain (hne : s ≠ []) (hs : ∀ c ∈ s, isPlain c = true)
    (hled : s = ['1'] ∨ (lookup? (String.ofList s)).isSome = true)
    (h : Computes (readPower readNested s) tree) : OperandText s tree := by
  have hsolid := solid_of_plain hne hs
  have hwhole := Whole.of_plain hs
  have hcaret : caretPowers s = s := caretPowers_of_not_mem (not_mem_of_plain hs (by decide))
  have hcut := hwhole.balanced.cutOnceTop_of_not_mem (not_mem_of_plain hs (c := '^') (by decide))
  have hsuperscript : cutSuperscript? s = none := by
    obtain ⟨r, c, rfl, -⟩ := hsolid.last
    exact cutSuperscript?_eq_none (not_superscript_of_isPlain (hs c (by simp)))
  have halone := readPower_alone hsolid.trim (by simpa [cutOnceTop] using hcut []) hsuperscript
  refine ⟨⟨hsolid, ?_, ?_⟩, ?_, ?_, ?_, ?_⟩
  · have hword : s.takeWhile isPlain = s := List.takeWhile_eq_self_iff.mpr hs
    rw [Led, hword]
    exact .inr hled
  all_goals rw [hcaret]
  · exact hwhole.balanced
  · exact hwhole
  · exact hcut
  · exact halone
  · rwa [← halone]

theorem OperandText.one : OperandText ['1'] .one :=
  .of_plain (by decide) (List.forall_mem_singleton.mpr rfl) (.inl rfl) Computes.one

theorem phrases_spaced : ∀ n ∈ phrases, ' ' ∈ n.toList := by decide

theorem OperandText.name (n : UnitName) : OperandText n.spelling.toList (.name n) := by
  have hlookup : lookup? (String.ofList n.spelling.toList) = some n.unit := by
    rw [String.ofList_toList, n.known]
  have hplain : ∀ c ∈ n.spelling.toList, isPlain c = true := by
    rcases spellings_isPlain _ (mem_spellings n.known) with hphrase | hplain
    · exact absurd (phrases_spaced _ hphrase) n.unspaced
    · exact List.all_eq_true.mp hplain
  have hword : n.spelling.toList ≠ [] ∧ n.spelling.toList ≠ ['1'] := by
    have hnone : lookup? (String.ofList []) = none ∧ lookup? (String.ofList ['1']) = none := by decide
    constructor <;> intro hs <;> rw [hs] at hlookup
    · exact absurd hlookup (by rw [hnone.1]; exact nofun)
    · exact absurd hlookup (by rw [hnone.2]; exact nofun)
  refine .of_plain hword.1 hplain (.inr (by rw [hlookup]; rfl)) ?_
  rw [readPower_of_lookup? hplain hword.1 hword.2 hlookup]
  exact Computes.name n

theorem caretPowers_parens (s : List Char) :
    caretPowers ('(' :: (s ++ [')'])) = '(' :: (caretPowers s ++ [')']) := by
  rw [caretPowers_cons (by decide), caretPowers_append_cons (by decide)]
  rfl

theorem QuotientText.read (h : QuotientText s tree) :
    Computes (readQuotient readNested (caretPowers s)) tree := by
  obtain ⟨p, ps, hparts, hcomputes⟩ := h.computes
  rw [readQuotient_eq hparts]
  exact hcomputes _

theorem QuotientText.parens (h : QuotientText s tree) : OperandText ('(' :: (s ++ [')'])) tree := by
  have hcut : ∀ r, cutOnceTop '^' 0 ('(' :: (caretPowers s ++ [')']) ++ r) =
      (cutOnceTop '^' 0 r).map fun p => ('(' :: (caretPowers s ++ [')']) ++ p.1, p.2) := fun r => by
    have hcaret : '^' ≠ '(' ∧ '^' ≠ ')' := by decide
    simpa using cutOnceTop_group (t := r) h.balanced hcaret
  refine ⟨⟨.parens s, .inl rfl, ?_⟩, ?_, ?_, ?_, ?_⟩
  all_goals rw [caretPowers_parens]
  · exact h.balanced.parens
  · exact .parens h.balanced
  · exact hcut
  · rw [readPower_parens h.balanced, readNested_parens]
  · rw [readNested_parens]
    exact h.read

/-! ### Factors -/

theorem OperandText.factor (h : OperandText s tree) : FactorText s tree where
  toPiece := h.toPiece
  whole := h.whole
  computes := h.alone ▸ h.computes

/-- A power sign is read as a caret. -/
theorem caretPowers_power (hs : Solid s) (he : '*' ∉ e) (mark : PowerMark) :
    caretPowers (s ++ (mark.chars ++ e)) = caretPowers s ++ '^' :: e := by
  have hsign : caretPowers (mark.chars ++ e) = '^' :: caretPowers e := by
    cases mark with
    | caret => exact caretPowers_cons (by decide)
    | stars => rfl
  rw [caretPowers_append hs.getLast?_ne, hsign, caretPowers_of_not_mem he]

theorem OperandText.power (h : OperandText s tree) (mark : PowerMark) {n : Int}
    (hn : Exact.fitsInt32 n = true) :
    FactorText (s ++ (mark.chars ++ (toString n).toList)) (.power mark tree n hn) := by
  have he := exponent_int hn
  have hsolid := solid_int n
  have hbalanced : Balanced (toString n).toList := balanced_of_forall fun c hc =>
    ⟨by rintro rfl; exact not_mem_int (by decide) hc, by rintro rfl; exact not_mem_int (by decide) hc⟩
  have hcaret := caretPowers_power h.toSolid he.no_star mark
  have hwhole := h.whole.exponent he hbalanced
  have htrim : trim (caretPowers s ++ '^' :: (toString n).toList) =
      caretPowers s ++ '^' :: (toString n).toList := (h.toSolid.caretPowers.append hsolid ['^']).trim
  have hcut : cutOnceTop '^' 0 (caretPowers s ++ '^' :: (toString n).toList) =
      some (caretPowers s, (toString n).toList) := by
    simpa [cutOnceTop] using h.cut ('^' :: (toString n).toList)
  have hpower : readPower readNested (caretPowers s ++ '^' :: (toString n).toList) =
      readNested (caretPowers s) >>= fun u => u.powRatio n 1 := by
    rw [readPower_def]
    simp only [htrim, hcut, he.read]
    rfl
  refine ⟨?_, ?_, ?_⟩
  · have hbalanced : Balanced (caretPowers (s ++ (mark.chars ++ (toString n).toList))) := by
      rw [hcaret]
      exact hwhole.balanced
    cases mark with
    | caret => exact h.join hsolid (c := '^') (by decide) hbalanced
    | stars => exact h.join hsolid (c := '*') (by decide) hbalanced
  · rw [hcaret]
    exact hwhole
  · rw [hcaret, hpower]
    exact h.computes.pow mark hn

/-! ### Products -/

theorem FactorText.factors_eq (h : FactorText s tree) : factors (caretPowers s) = [caretPowers s] := by
  have hsolid := h.toSolid.caretPowers
  rw [factors, hsolid.trim, h.whole.factor]
  simp [hsolid.not_blank]

theorem FactorText.product (h : FactorText s tree) : ProductText s tree where
  toPiece := h.toPiece
  undivided := h.whole.undivided
  computes := by
    have hfold : (factors (caretPowers s)).foldlM (multiplyBy readNested) dimensionless =
        readPower readNested (caretPowers s) >>= fun u => dimensionless.multiply u := by
      rw [h.factors_eq, List.foldlM_cons, multiplyBy]
      simp only [List.foldlM_nil, bind_pure]
    rw [hfold]
    exact h.computes.one_multiply

theorem factors_append (hs : Solid s) (ht : Solid t) (hbalanced : Balanced s) {c : Char}
    (hc : c ∈ ['*', '·', ' ']) : factors (s ++ c :: t) = factors s ++ factors t := by
  have hparens : c ≠ '(' ∧ c ≠ ')' := by
    constructor <;> rintro rfl <;> exact absurd hc (by decide)
  have htrim : trim (s ++ c :: t) = s ++ c :: t := (hs.append ht [c]).trim
  rw [factors, factors, factors, htrim, hs.trim, ht.trim,
    partsTop_append_separator hbalanced hparens.1 hparens.2 (List.contains_iff_mem.mpr hc), List.filter_append]

theorem char_mem (mark : ProductMark) : mark.char ∈ ['*', '·', ' '] := by
  cases mark <;> decide

theorem caretPowers_product (hs : Solid s) (ht : Solid t) (mark : ProductMark) :
    caretPowers (s ++ mark.char :: t) = caretPowers s ++ mark.char :: caretPowers t := by
  rw [caretPowers_append hs.getLast?_ne]
  cases mark with
  | star => rw [ProductMark.char, caretPowers_star ht.head?_ne]
  | dot => rw [ProductMark.char, caretPowers_cons (by decide)]
  | space => rw [ProductMark.char, caretPowers_cons (by decide)]

theorem ProductText.times {l r : UnitTree} (hs : ProductText s l) (ht : FactorText t r)
    (mark : ProductMark) : ProductText (s ++ mark.char :: t) (.product mark l r) := by
  have hcaret := caretPowers_product hs.toSolid ht.toSolid mark
  have hmark : Balanced [mark.char] := by
    cases mark <;> exact .char (by decide) (by decide) .nil
  have hbalanced : Balanced (caretPowers s ++ mark.char :: caretPowers t) :=
    hs.balanced.append (hmark.append ht.balanced)
  refine ⟨hs.join (m := []) ht.toSolid ?_ ?_, ?_, ?_⟩
  · cases mark <;> decide
  · exact hcaret ▸ hbalanced
  · rw [hcaret]
    refine partsTop_append_whole hs.balanced hs.undivided ?_
    refine partsTop_append_whole (s := [mark.char]) hmark (partsTop_of_not_mem ?_) ht.whole.undivided
    exact List.forall_mem_singleton.mpr (by cases mark <;> decide)
  · rw [hcaret, factors_append hs.toSolid.caretPowers ht.toSolid.caretPowers hs.balanced (char_mem mark),
      ht.factors_eq, List.foldlM_append]
    simp only [List.foldlM_cons, List.foldlM_nil, bind_pure, multiplyBy]
    exact hs.computes.multiply ht.computes mark

/-- The one is a product that is not computed. -/
theorem ProductText.read (h : ProductText s tree) :
    Computes (readProduct readNested (caretPowers s)) tree := by
  have htrim := h.toSolid.caretPowers.trim
  by_cases hone : caretPowers s = ['1']
  · rw [hone, readProduct_pure (.inr rfl)]
    obtain ⟨w, hw, hvalue⟩ := dimensionless_multiply invariant_inRange.dimensionless
    have hfold : (factors ['1']).foldlM (multiplyBy readNested) dimensionless = .ok w := by
      rw [factors_one rfl, List.foldlM_cons]
      exact bind_eq_ok.mpr ⟨w, hw, rfl⟩
    have hcomputes := h.computes
    rw [hone, hfold] at hcomputes
    refine hcomputes.congr (fun u hu => ⟨_, rfl, ?_⟩) fun v hv => ⟨w, rfl⟩
    cases hu
    exact hvalue.symm
  · rw [readProduct_eq (by rw [htrim]; exact h.toSolid.caretPowers.ne_nil) (by rwa [htrim])]
    exact h.computes

/-! ### Quotients -/

theorem ProductText.quotient (h : ProductText s tree) : QuotientText s tree where
  toPiece := h.toPiece
  computes := ⟨caretPowers s, [], h.undivided, fun text => by simpa using h.read⟩

theorem QuotientText.slash {l r : UnitTree} (hs : QuotientText s l) (ht : ProductText t r) :
    QuotientText (s ++ '/' :: t) (.quotient l r) := by
  have hcaret : caretPowers (s ++ '/' :: t) = caretPowers s ++ '/' :: caretPowers t :=
    caretPowers_append_cons (by decide)
  obtain ⟨p, ps, hparts, hcomputes⟩ := hs.computes
  have hparts' : partsTop ['/'] (caretPowers s ++ '/' :: caretPowers t) = p :: (ps ++ [caretPowers t]) := by
    rw [partsTop_append_separator hs.balanced (by decide) (by decide) rfl, hparts, ht.undivided,
      List.cons_append]
  refine ⟨hs.join (m := []) ht.toSolid (by decide) ?_, p, ps ++ [caretPowers t], ?_, fun text => ?_⟩
  · exact hcaret ▸ hs.balanced.append (.char (by decide) (by decide) ht.balanced)
  · rw [hcaret, hparts']
  · have hlast : ∀ u, divideBy readNested text u (caretPowers t) =
        readProduct readNested (caretPowers t) >>= fun v => u.divide v := fun u => by
      rw [divideBy, ht.toSolid.caretPowers.not_blank]
      rfl
    simp only [List.foldlM_append, List.foldlM_cons, List.foldlM_nil, bind_pure, hlast]
    rw [← bind_assoc]
    exact (hcomputes text).divide ht.read

/-! ## The grammar is read -/

mutual

theorem operandText : ∀ o : UnitOperand, OperandText o.text o.tree
  | .one => .one
  | .name n => .name n
  | .group q => (quotientText q).parens

theorem factorText : ∀ f : UnitFactor, FactorText f.text f.tree
  | .bare o => (operandText o).factor
  | .power mark o _ fits => (operandText o).power mark fits

theorem productText : ∀ p : UnitProduct, ProductText p.text p.tree
  | .single f => (factorText f).product
  | .times p mark f => (productText p).times (factorText f) mark

theorem quotientText : ∀ q : UnitQuotient, QuotientText q.text q.tree
  | .single p => (productText p).quotient
  | .slash q p => (quotientText q).slash (productText p)

end

/-- A whole text of the grammar denotes its tree. -/
theorem computes_read (q : UnitQuotient) : Computes (read q.text) q.tree := by
  have h := quotientText q
  have hread : Computes (readQuotient (readGroup q.text.length) (caretPowers q.text)) q.tree := by
    rw [readQuotient_congr fun t ht => readGroup_eq (ht.trans (length_caretPowers_le _))]
    exact h.read
  rw [read_def]
  simp only [h.trim]
  split
  · rename_i hpure
    have hone : q.text = ['1'] := by simpa [h.ne_nil] using hpure
    have hcomputes := h.read
    rw [hone] at hcomputes
    exact hcomputes
  cases hl : lookup? (String.ofList q.text) with
  | none =>
    refine hread.congr (fun u hu => ⟨{ u with symbol := String.ofList q.text }, by rw [hu]; rfl, rfl⟩)
      fun v hv => ?_
    obtain ⟨u, hu, -⟩ := bind_eq_ok.mp hv
    exact ⟨u, hu⟩
  | some r =>
    rcases spellings_isPlain _ (mem_spellings hl) with hphrase | hplain
    · exact absurd h.led (by simpa using not_led_of_mem_phrases _ hphrase)
    · rename_i hpure
      rw [String.toList_ofList] at hplain
      obtain ⟨v, hv, hvalue⟩ := exists_readQuotient_of_lookup? (List.all_eq_true.mp hplain) h.ne_nil
        (by simpa [h.ne_nil] using hpure) hl
      have hcomputes := h.read
      rw [hv] at hcomputes
      refine hcomputes.congr (fun u hu => ⟨r, rfl, ?_⟩) fun _ _ => ⟨v, rfl⟩
      cases hu
      exact hvalue.symm

/-- **Units are read as the trees they are written from.** A text of a tree, with every compound operand
in parentheses, denotes the tree; and so does a text without those parentheses, in which slashes bind
loosest and quotients and products associate to the left. -/
theorem read_written : (∀ t : UnitTree, Computes (read t.text) t) ∧
    ∀ q : UnitQuotient, Computes (read q.text) q.tree := by
  refine ⟨fun t => ?_, computes_read⟩
  have h := computes_read t.written
  rwa [t.tree_written] at h

end PhysicalUnit

end Formulary
