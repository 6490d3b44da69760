import Formulary.Key
import Formulary.Proofs.Exact.Fraction
import Formulary.Proofs.PhysicalUnit.Value
import Formulary.Proofs.Text.Parts

/-!
How unit texts are read.

What others need of the reader is three things. Which depth groups are read to does not matter, as soon as
it is the length of the text. The value of a quotient is that of its factors, and there is one as long as
their exponents do not add up to too much. And what is read is balanced, and without brackets.

## How the proof goes

The reader takes the reader of groups as an argument at each level, so each fact is proved with an
assumption on `group` and then, by induction on the depth, without it.

* Depth. A level makes use of its argument on texts that are no longer than its own (`readPower_congr`,
  `readProduct_congr`, `readQuotient_congr`), and what is in parentheses is shorter than these. So two
  depths beyond the length agree (`readGroup_eq`), and `readNested` need not name one.
* Value. `Factored` lists the units of the factors of a product, and `Spells` those of a quotient, first
  part and divisors apart. Reading is then two facts on folds. If a fold has a result, there are such
  units, and its value is the one of their product (`spells_of_readQuotient`). And if there are such units,
  the fold has a result (`Spells.exists_readQuotient`). The units are determined by the text
  (`Spells.unique`), so the two fit together.
* Enclosing. Every character of what is read is in the table of units, in an exponent, or an operator;
  parentheses come in pairs where a group or an exponent is taken out of them. `Enclosable` is kept by all
  that puts the parts together, and each level cuts its text into parts.

## What the side conditions are for

The fold succeeds only if no exponent on the way leaves the range of a machine integer. That the result is
in range does not suffice: an exponent may grow too large and be lessened again by a divisor. `extentOf`
adds up the factors on either side of the bar, each with its magnitude, and so bounds what every step of
the fold can reach.

A divisor must not have the scale zero. All units of the table have positive scales and the operations keep
this (`invariant_pos`), but a reader of groups that is only assumed has to be assumed to keep it as well.

A text of blanks and the text `1` are read as a product without looking at factors, although `1` has one.
The factor is read as a group, so it has to be dimensionless there too; hence `hone`.

The balance of what is read cannot be had from a check: the levels keep the depth of parentheses without
looking whether it falls below zero, so that `)m(` is cut as one piece. But then it is a name, and no name
in the table has a parenthesis.
-/

namespace Formulary

open Formulary.Except

variable {s t : List Char}

/-! ## Text between brackets -/

/-- Balanced text without brackets. -/
structure Enclosable (s : List Char) : Prop where
  balanced : Balanced s
  not_bracket : ∀ c ∈ s, c ≠ '[' ∧ c ≠ ']'

namespace Enclosable

theorem append (hs : Enclosable s) (ht : Enclosable t) : Enclosable (s ++ t) :=
  ⟨hs.balanced.append ht.balanced, fun c hc =>
    (List.mem_append.mp hc).elim (hs.not_bracket c) (ht.not_bracket c)⟩

theorem of_forall (h : ∀ c ∈ s, c ∉ Key.delimiters) : Enclosable s := by
  refine ⟨balanced_of_forall fun c hc => ?_, fun c hc => ?_⟩
  · constructor <;> rintro rfl <;> exact h _ hc (by decide)
  · constructor <;> rintro rfl <;> exact h _ hc (by decide)

theorem parens (h : Enclosable s) : Enclosable ('(' :: (s ++ [')'])) := by
  refine ⟨h.balanced.parens, fun c hc => ?_⟩
  simp only [List.mem_cons, List.mem_append, List.not_mem_nil, or_false] at hc
  rcases hc with rfl | hc | rfl
  · decide
  · exact h.not_bracket c hc
  · decide

theorem of_allBlank (h : allBlank s = true) : Enclosable s :=
  of_forall fun c hc hmem => by
    have hblank := List.all_eq_true.mp h c hc
    simp only [Key.delimiters, List.mem_cons, List.not_mem_nil, or_false] at hmem
    rcases hmem with rfl | rfl | rfl | rfl <;> exact absurd hblank (by decide)

theorem of_trim (h : Enclosable (trim s)) : Enclosable s := by
  obtain ⟨w, v, hsplit, hw, hv⟩ := exists_blanks_trim s
  rw [hsplit]
  exact ((of_allBlank hw).append h).append (of_allBlank hv)

theorem of_partsTop (seps : List Char) (hseps : '[' ∉ seps ∧ ']' ∉ seps)
    (h : ∀ p ∈ partsTop seps s, Enclosable p) : Enclosable s := by
  refine ⟨balanced_of_partsTop fun p hp => (h p hp).balanced, fun c hc => ?_⟩
  rcases mem_of_partsTop seps hc with hc | ⟨p, hp, hc⟩
  · constructor <;> rintro rfl
    · exact hseps.1 hc
    · exact hseps.2 hc
  · exact (h p hp).not_bracket c hc

end Enclosable

/-- Two characters are replaced by one. -/
theorem length_caretPowers_le (s : List Char) : (caretPowers s).length ≤ s.length := by
  fun_induction caretPowers s with
  | case1 r ih => simp only [List.length_cons]; omega
  | case2 c r _ ih => simp only [List.length_cons]; omega
  | case3 => simp

/-- The parentheses are the first and the last character. Whether they are partners is not looked at. -/
theorem insideParens?_eq_some (h : insideParens? s = some t) : s = '(' :: (t ++ [')']) := by
  unfold insideParens? at h
  split at h
  · rename_i r
    split at h
    · rename_i hlast
      cases h
      have hne : r ≠ [] := by
        rintro rfl
        cases hlast
      rw [List.getLast?_eq_some_getLast hne, Option.some.injEq] at hlast
      rw [← hlast, List.dropLast_concat_getLast hne]
    · cases h
  · cases h

theorem insideParens?_parens (t : List Char) : insideParens? ('(' :: (t ++ [')'])) = some t := by
  simp [insideParens?]

namespace PhysicalUnit

variable {u v w : PhysicalUnit}

/-! ## Nesting -/

-- Two readers of groups that agree on texts no longer than this one make no difference at any level.
section Congruence

variable {group group' : List Char → Except UnitError PhysicalUnit}

theorem readPower_congr (h : ∀ t, t.length ≤ s.length → group t = group' t) :
    readPower group s = readPower group' s := by
  have htrim := length_trim_le s
  rw [readPower_def group, readPower_def group']
  cases hcut : cutOnceTop '^' 0 (trim s) with
  | none => rw [h _ htrim]
  | some p =>
    obtain ⟨base, exponent⟩ := p
    have hsplit := congrArg List.length (cutOnceTop_eq_some hcut)
    rw [List.length_append] at hsplit
    simp only [h base (by omega)]

/-- The parts that the fold goes over are all it depends on. -/
theorem foldlM_congr {α : Type} {f g : α → List Char → Except UnitError α} :
    ∀ {parts : List (List Char)} (acc : α), (∀ acc, ∀ p ∈ parts, f acc p = g acc p) →
      parts.foldlM f acc = parts.foldlM g acc
  | [], _, _ => rfl
  | p :: parts, acc, h => by
    rw [List.foldlM_cons, List.foldlM_cons, h acc p List.mem_cons_self]
    exact congrArg _ (funext fun a => foldlM_congr a fun acc q hq => h acc q (List.mem_cons_of_mem _ hq))

theorem readProduct_congr (h : ∀ t, t.length ≤ s.length → group t = group' t) :
    readProduct group s = readProduct group' s := by
  rw [readProduct_def group, readProduct_def group']
  split
  · rfl
  · refine foldlM_congr _ fun acc p hp => ?_
    have hle := (length_le_of_mem_partsTop (List.mem_of_mem_filter hp)).trans (length_trim_le s)
    rw [readPower_congr fun t ht => h t (ht.trans hle)]

theorem readQuotient_congr (h : ∀ t, t.length ≤ s.length → group t = group' t) :
    readQuotient group s = readQuotient group' s := by
  rw [readQuotient_def group, readQuotient_def group']
  cases hparts : partsTop ['/'] s with
  | nil => rfl
  | cons p ps =>
    have hproduct : ∀ q ∈ p :: ps, readProduct group q = readProduct group' q := fun q hq =>
      readProduct_congr fun t ht => h t (ht.trans (length_le_of_mem_partsTop (hparts ▸ hq)))
    simp only [hproduct p List.mem_cons_self]
    refine congrArg _ (funext fun top => foldlM_congr top fun acc q hq => ?_)
    rw [hproduct q (List.mem_cons_of_mem _ hq)]

/-- A name or a quotient in parentheses is read with the reader of groups on shorter texts only. -/
theorem readInside_congr (h : ∀ t, t.length < s.length → group t = group' t) :
    (match insideParens? (trim s) with
      | some inner => readQuotient group inner
      | none => readName s) =
    match insideParens? (trim s) with
      | some inner => readQuotient group' inner
      | none => readName s := by
  cases hinside : insideParens? (trim s) with
  | none => rfl
  | some inner =>
    have hlt := (length_of_insideParens? hinside).trans_le (length_trim_le s)
    exact readQuotient_congr fun t ht => h t (by omega)

end Congruence

/-- Reads a group, however deep it is. -/
def readNested (s : List Char) : Except UnitError PhysicalUnit := readGroup s.length s

/-- A depth beyond the length of the text makes no difference. -/
theorem readGroup_eq : ∀ {n : Nat} {s : List Char}, s.length ≤ n → readGroup n s = readNested s := by
  -- by induction on one of two depths; at depth zero only the empty text has to be read, which is a name
  have hgroup : ∀ (n m : Nat) (s : List Char), s.length ≤ n → s.length ≤ m →
      readGroup n s = readGroup m s := by
    intro n
    induction n with
    | zero =>
      intro m s hn _
      obtain rfl := List.eq_nil_of_length_eq_zero (Nat.le_zero.mp hn)
      cases m <;> rfl
    | succ n ih =>
      intro m s hn hm
      cases m with
      | zero =>
        obtain rfl := List.eq_nil_of_length_eq_zero (Nat.le_zero.mp hm)
        rfl
      | succ m =>
        rw [readGroup_succ, readGroup_succ]
        exact readInside_congr fun t ht => ih m t (by omega) (by omega)
  intro n s h
  exact hgroup n s.length s h (Nat.le_refl _)

/-- The equation that a reader without a bound on the depth would have. -/
theorem readNested_eq (s : List Char) : readNested s =
    match insideParens? (trim s) with
    | some inner => readQuotient readNested inner
    | none => readName s := by
  rw [← readGroup_eq (Nat.le_succ s.length), readGroup_succ]
  exact readInside_congr fun t ht => readGroup_eq ht.le

theorem Invariant.readNested {P : PhysicalUnit → Prop} (hP : Invariant P) (h : readNested s = .ok u) :
    P u := hP.readGroup _ s u h

/-! ## Names and exponents -/

/-- All spellings of known units. -/
def spellings : List String := rows.flatMap fun r => r.unit.symbol :: r.unit.name :: r.aliases

/-- A symbol is looked for first, then a name or an alias; each is a spelling. -/
theorem mem_spellings {spelling : String} (h : lookup? spelling = some u) : spelling ∈ spellings := by
  unfold lookup? at h
  obtain ⟨r, hr, rfl⟩ := Option.map_eq_some_iff.mp h
  rw [spellings, List.mem_flatMap]
  rcases Option.or_eq_some_iff.mp hr with hr | ⟨-, hr⟩
  · have hsymbol := List.find?_some hr
    exact ⟨r, List.mem_of_find?_eq_some hr, by simp_all⟩
  · have hname := List.find?_some hr
    refine ⟨r, List.mem_of_find?_eq_some hr, ?_⟩
    simp only [Bool.or_eq_true, beq_iff_eq, List.contains_iff_mem] at hname
    rcases hname with hname | hname
    · simp [hname]
    · simp [hname]

/-- The spellings of several words. -/
def phrases : List String :=
  ["astronomical unit", "earth radius", "atomic mass unit", "cubic centimeter"]

/-- A character of a name or one of three symbols: it means nothing of its own in a unit text. -/
def isPlain (c : Char) : Bool := isNameRest c || ['μ', 'Ω', '°'].contains c

/-- The operators of unit texts, and what encloses them. -/
def operators : List Char := ['*', '·', '/', '^', '(', ')', '[', ']']

theorem isPlain_iff {c : Char} :
    isPlain c = true ↔ isNameRest c = true ∨ c = 'μ' ∨ c = 'Ω' ∨ c = '°' := by simp [isPlain]

theorem not_blank_of_isPlain {c : Char} (h : isPlain c = true) : isBlank c = false := by
  rcases isPlain_iff.mp h with h | rfl | rfl | rfl
  · exact not_blank_of_isTokenChar (isTokenChar_of_isNameRest h)
  · decide
  · decide
  · decide

theorem not_superscript_of_isPlain {c : Char} (h : isPlain c = true) : isSuperscript c = false := by
  rw [Bool.eq_false_iff]
  intro hs
  simp only [isSuperscript, superscripts, Bool.or_eq_true, beq_iff_eq, List.contains_cons,
    List.contains_nil, Bool.or_false] at hs
  rcases hs with rfl | rfl | rfl | rfl | rfl | rfl | rfl | rfl | rfl | rfl | rfl <;>
    exact absurd h (by decide)

theorem not_mem_operators_of_isPlain {c : Char} (h : isPlain c = true) : c ∉ operators := by
  intro hc
  simp only [operators, List.mem_cons, List.not_mem_nil, or_false] at hc
  rcases hc with rfl | rfl | rfl | rfl | rfl | rfl | rfl | rfl <;> exact absurd h (by decide)

/-- A check of the table: every spelling is a word, or a phrase. -/
theorem spellings_isPlain : ∀ n ∈ spellings, n ∈ phrases ∨ n.toList.all isPlain = true := by
  decide +kernel

/-- A phrase has blanks, but nothing that could set off a part of a key. -/
theorem phrases_chars : ∀ n ∈ phrases, n.toList.all (!Key.delimiters.contains ·) = true := by
  decide +kernel

theorem not_delimiter_of_mem_spellings {n : String} (h : n ∈ spellings) :
    ∀ c ∈ n.toList, c ∉ Key.delimiters := by
  intro c hc hmem
  rcases spellings_isPlain n h with hphrase | hplain
  · have hchars := List.all_eq_true.mp (phrases_chars n hphrase) c hc
    rw [List.contains_iff_mem.mpr hmem] at hchars
    cases hchars
  · refine not_mem_operators_of_isPlain (List.all_eq_true.mp hplain c hc) ?_
    simp only [Key.delimiters, List.mem_cons, List.not_mem_nil, or_false] at hmem
    rcases hmem with rfl | rfl | rfl | rfl <;> decide

/-- A name that is read is in the table, or it is one of the two that mean no unit at all. -/
theorem readName_eq_ok (h : readName s = .ok u) :
    (trim s = ['1'] ∨ trim s = []) ∧ u = dimensionless ∨ lookup? (String.ofList (trim s)) = some u := by
  unfold readName at h
  simp only at h
  split at h
  · rename_i hname
    cases h
    refine .inl ⟨?_, rfl⟩
    simp only [Bool.or_eq_true, decide_eq_true_eq] at hname
    rcases hname with hname | hname
    · exact .inl (by simpa using congrArg String.toList hname)
    · exact .inr (by simpa using congrArg String.toList hname)
  · split at h
    · rename_i hl
      cases h
      exact .inr hl
    · cases h

theorem enclosable_of_readName (h : readName s = .ok u) : Enclosable s := by
  refine .of_trim (.of_forall fun c hc => ?_)
  rcases readName_eq_ok h with ⟨hs | hs, -⟩ | hl
  · rw [hs] at hc
    obtain rfl := List.mem_singleton.mp hc
    decide
  · rw [hs] at hc
    cases hc
  · exact not_delimiter_of_mem_spellings (mem_spellings hl) c (by simpa using hc)

/-- An exponent is a number, in parentheses or not; and a number has none. -/
theorem enclosable_of_readExponent {e : Int × Nat} (h : readExponent s = .ok e) : Enclosable s := by
  unfold readExponent at h
  simp only at h
  cases hread : Exact.read ((insideParens? (trim s)).getD (trim s)) with
  | error _ => simp only [hread] at h; cases h
  | ok q =>
    have hinside : Enclosable ((insideParens? (trim s)).getD (trim s)) := .of_forall fun c hc hmem => by
      simp only [Key.delimiters, List.mem_cons, List.not_mem_nil, or_false] at hmem
      have hchars := Exact.chars_of_read hread c hc
      rcases hmem with rfl | rfl | rfl | rfl <;> exact absurd hchars (by decide)
    refine .of_trim ?_
    cases hparens : insideParens? (trim s) with
    | none => rwa [hparens] at hinside
    | some inner =>
      rw [hparens] at hinside
      rw [insideParens?_eq_some hparens]
      exact hinside.parens

/-- Only characters of the list have a value. -/
theorem isSuperscript_of_digit {c : Char} {n : Nat} (h : superscriptDigit? c = some n) :
    isSuperscript c = true := by
  rw [isSuperscript, Bool.or_eq_true]
  by_contra hc
  rw [not_or] at hc
  refine Option.some_ne_none n (h.symm.trans (List.lookup_eq_none_iff.mpr fun p hp => ?_))
  rw [bne_iff_ne]
  rintro rfl
  exact hc.2 (List.contains_iff_mem.mpr (List.of_mem_zip hp).1)

theorem isSuperscript_of_mapM : ∀ {s : List Char} {digits : List Nat},
    s.mapM superscriptDigit? = some digits → ∀ c ∈ s, isSuperscript c = true
  | [], _, _ => by simp
  | c :: s, digits, h => by
    rw [List.mapM_cons] at h
    obtain ⟨n, hn, h⟩ := Option.bind_eq_some_iff.mp h
    obtain ⟨ns, hns, -⟩ := Option.bind_eq_some_iff.mp h
    intro d hd
    rcases List.mem_cons.mp hd with rfl | hd
    · exact isSuperscript_of_digit hn
    · exact isSuperscript_of_mapM hns d hd

theorem isSuperscript_of_value {n : Int32} (h : superscriptValue? s = some n) :
    ∀ c ∈ s, isSuperscript c = true := by
  unfold superscriptValue? at h
  split at h
  · cases h
  · obtain ⟨digits, hdigits, -⟩ := Option.map_eq_some_iff.mp h
    exact isSuperscript_of_mapM hdigits

/-- A superscript is what the text ends with. -/
theorem cutSuperscript?_eq_some {base : List Char} {n : Int} (h : cutSuperscript? s = some (base, n)) :
    ∃ e, s = base ++ e ∧ e ≠ [] ∧ ∀ c ∈ e, isSuperscript c = true := by
  unfold cutSuperscript? at h
  simp only at h
  split at h
  · cases h
  · obtain ⟨z, hz, heq⟩ := Option.map_eq_some_iff.mp h
    cases heq
    refine ⟨_, (List.takeWhile_append_dropWhile ..).symm, ?_, ?_⟩
    · intro hnil
      rw [hnil] at hz
      simp [superscriptValue?] at hz
    · split at hz
      -- the minus sign is a superscript too
      · rename_i digits hdigits
        obtain ⟨m, hm, -⟩ := Option.map_eq_some_iff.mp hz
        rw [hdigits]
        intro c hc
        rcases List.mem_cons.mp hc with rfl | hc
        · decide
        · exact isSuperscript_of_value hm c hc
      · exact isSuperscript_of_value hz

theorem not_delimiter_of_isSuperscript {c : Char} (h : isSuperscript c = true) : c ∉ Key.delimiters := by
  intro hmem
  simp only [Key.delimiters, List.mem_cons, List.not_mem_nil, or_false] at hmem
  rcases hmem with rfl | rfl | rfl | rfl <;> exact absurd h (by decide)

/-! ## Factors -/

/-- The product of the values. -/
def valueOf (us : List PhysicalUnit) : Multiplicative (Fin 7 → ℝ) × ℚ := (us.map value).prod

/-- The extents, added up. -/
def extentOf (us : List PhysicalUnit) : Nat := (us.map fun u => u.dimension.extent).sum

theorem valueOf_append (us vs : List PhysicalUnit) : valueOf (us ++ vs) = valueOf us * valueOf vs := by
  rw [valueOf, List.map_append, List.prod_append, valueOf, valueOf]

theorem extentOf_append (us vs : List PhysicalUnit) :
    extentOf (us ++ vs) = extentOf us + extentOf vs := by
  rw [extentOf, List.map_append, List.sum_append, extentOf, extentOf]

/-- The factors of a product. -/
def factors (s : List Char) : List (List Char) :=
  (partsTop ['*', '·', ' '] (trim s)).filter fun p => !allBlank p

section Groups

variable (group : List Char → Except UnitError PhysicalUnit)

/-- Multiplies by a factor. -/
def multiplyBy (acc : PhysicalUnit) (p : List Char) : Except UnitError PhysicalUnit := do
  acc.multiply (← readPower group p)

/-- Divides by a divisor of the text. -/
def divideBy (text : String) (acc : PhysicalUnit) (q : List Char) : Except UnitError PhysicalUnit := do
  if allBlank q then throw (.unknown text)
  acc.divide (← readProduct group q)

/-- The units of the factors of a product. -/
def Factored (s : List Char) (us : List PhysicalUnit) : Prop :=
  List.Forall₂ (fun p u => readPower group p = .ok u) (factors s) us

/-- The units of the factors of a quotient: those of its first part, and those of its divisors. -/
def Spells (s : List Char) (top : List PhysicalUnit) (divisors : List (List PhysicalUnit)) : Prop :=
  ∃ p ps, partsTop ['/'] s = p :: ps ∧ Factored group p top ∧
    List.Forall₂ (fun q us => allBlank q = false ∧ Factored group q us) ps divisors

variable {group} {top top' us us' : List PhysicalUnit} {divisors divisors' : List (List PhysicalUnit)}

/-- A factor is read in one way, so the units are determined by the text. -/
theorem Factored.unique (h : Factored group s us) (h' : Factored group s us') : us = us' :=
  List.right_unique_forall₂' (fun _ _ _ hu hv => Except.ok.inj (hu.symm.trans hv)) h h'

theorem Spells.unique (h : Spells group s top divisors) (h' : Spells group s top' divisors') :
    top = top' ∧ divisors = divisors' := by
  obtain ⟨p, ps, hparts, htop, hdivisors⟩ := h
  obtain ⟨q, qs, hparts', htop', hdivisors'⟩ := h'
  obtain ⟨rfl, rfl⟩ := List.cons.inj (hparts.symm.trans hparts')
  exact ⟨htop.unique htop',
    List.right_unique_forall₂' (fun _ _ _ hu hv => hu.2.unique hv.2) hdivisors hdivisors'⟩

theorem readProduct_eq (hblank : trim s ≠ []) (hone : trim s ≠ ['1']) : readProduct group s =
    (factors s).foldlM (multiplyBy group) dimensionless := by
  rw [readProduct_def, if_neg (by simp [hblank, hone])]
  rfl

theorem readProduct_pure (h : trim s = [] ∨ trim s = ['1']) : readProduct group s = .ok dimensionless := by
  rw [readProduct_def]
  exact if_pos (by simpa using h)

theorem factors_blank (h : trim s = []) : factors s = [] := by
  rw [factors, h]
  rfl

theorem factors_one (h : trim s = ['1']) : factors s = [['1']] := by
  rw [factors, h]
  rfl

/-- A fold that has a result has multiplied by all factors, so the values multiply. -/
theorem forall₂_of_foldlM_multiply : ∀ {ps : List (List Char)} {acc w : PhysicalUnit},
    ps.foldlM (multiplyBy group) acc = .ok w →
      ∃ us, List.Forall₂ (fun p u => readPower group p = .ok u) ps us ∧
        w.value = acc.value * valueOf us
  | [], acc, w, h => by
    cases h
    exact ⟨[], .nil, by rw [valueOf, List.map_nil, List.prod_nil, mul_one]⟩
  | p :: ps, acc, w, h => by
    rw [List.foldlM_cons] at h
    obtain ⟨acc', hp, h⟩ := bind_eq_ok.mp h
    obtain ⟨u, hu, hmul⟩ := bind_eq_ok.mp hp
    obtain ⟨us, hus, hw⟩ := forall₂_of_foldlM_multiply h
    refine ⟨u :: us, .cons hu hus, ?_⟩
    rw [hw, value_multiply hmul, mul_assoc, valueOf, valueOf, List.map_cons, List.prod_cons]

/-- With enough room for all factors there is room for the next, and for the others after it. -/
theorem exists_foldlM_multiply {ps : List (List Char)}
    (h : List.Forall₂ (fun p u => readPower group p = .ok u) ps us) :
    ∀ acc : PhysicalUnit, acc.dimension.extent + extentOf us ≤ Dimension.extentLimit →
      ∃ w, ps.foldlM (multiplyBy group) acc = .ok w ∧
        w.dimension.extent ≤ acc.dimension.extent + extentOf us := by
  induction h with
  | nil => exact fun acc _ => ⟨acc, rfl, Nat.le_add_right _ _⟩
  | @cons p u ps us hu _ ih =>
    intro acc hroom
    have hsum : extentOf (u :: us) = u.dimension.extent + extentOf us := by simp [extentOf]
    rw [hsum] at hroom
    obtain ⟨acc', hmul, hle⟩ := exists_multiply (u := acc) (v := u) (by omega)
    obtain ⟨w, hw, hle'⟩ := ih acc' (by omega)
    refine ⟨w, ?_, by omega⟩
    rw [List.foldlM_cons, multiplyBy, hu, ok_bind, hmul, ok_bind, hw]

/-- The factors of a product that is read have its value together. -/
theorem factored_of_readProduct (hone : group ['1'] = .ok dimensionless)
    (h : readProduct group s = .ok u) : ∃ us, Factored group s us ∧ u.value = valueOf us := by
  -- without factors, with the one factor `1`, or as the fold has it
  by_cases hblank : trim s = []
  · rw [readProduct_pure (.inl hblank)] at h
    cases h
    exact ⟨[], by rw [Factored, factors_blank hblank]; exact .nil, value_dimensionless⟩
  by_cases hs : trim s = ['1']
  · rw [readProduct_pure (.inr hs)] at h
    cases h
    refine ⟨[dimensionless], ?_, ?_⟩
    · rw [Factored, factors_one hs]
      exact .cons hone .nil
    · rw [valueOf, List.map_singleton, List.prod_singleton]
  · rw [readProduct_eq hblank hs] at h
    obtain ⟨us, hus, hvalue⟩ := forall₂_of_foldlM_multiply h
    exact ⟨us, hus, by rw [hvalue, value_dimensionless, one_mul]⟩

/-- A product is read if its factors are and leave enough room. -/
theorem Factored.exists_readProduct (hone : group ['1'] = .ok dimensionless) (h : Factored group s us)
    (hroom : extentOf us ≤ Dimension.extentLimit) : ∃ u, readProduct group s = .ok u ∧
      u.value = valueOf us ∧ u.dimension.extent ≤ extentOf us := by
  have hzero : dimensionless.dimension.extent = 0 := Dimension.extent_dimensionless
  have hread : ∃ u, readProduct group s = .ok u ∧ u.dimension.extent ≤ extentOf us := by
    by_cases hpure : trim s = [] ∨ trim s = ['1']
    · exact ⟨_, readProduct_pure hpure, hzero ▸ Nat.zero_le _⟩
    · rw [readProduct_eq (not_or.mp hpure).1 (not_or.mp hpure).2]
      obtain ⟨u, hu, hle⟩ := exists_foldlM_multiply h dimensionless (by omega)
      exact ⟨u, hu, by omega⟩
  obtain ⟨u, hu, hle⟩ := hread
  -- the value is that of the factors which have been read, and these are the given ones
  obtain ⟨us', hus', hvalue⟩ := factored_of_readProduct hone hu
  exact ⟨u, hu, Factored.unique hus' h ▸ hvalue, hle⟩

/-! ## Quotients -/

theorem readQuotient_eq {p : List Char} {ps : List (List Char)} (h : partsTop ['/'] s = p :: ps) :
    readQuotient group s = readProduct group p >>= fun top => ps.foldlM (divideBy group (String.ofList s)) top := by
  rw [readQuotient_def, h]
  rfl

/-- A division that succeeds, without the name that its errors give. -/
theorem divideBy_eq_ok {text : String} {acc : PhysicalUnit} {q : List Char} :
    divideBy group text acc q = .ok w ↔
      allBlank q = false ∧ ∃ u, readProduct group q = .ok u ∧ acc.divide u = .ok w := by
  unfold divideBy
  cases allBlank q with
  | true => simp only [if_true]; exact ⟨nofun, nofun⟩
  | false => simp only [Bool.false_eq_true, if_false, true_and]; exact bind_eq_ok

/-- As for factors. Dividing by one after the other is dividing by their product. -/
theorem forall₂_of_foldlM_divide {text : String} (hone : group ['1'] = .ok dimensionless) :
    ∀ {ps : List (List Char)} {acc w : PhysicalUnit}, ps.foldlM (divideBy group text) acc = .ok w →
      ∃ divisors, List.Forall₂ (fun q us => allBlank q = false ∧ Factored group q us) ps divisors ∧
        w.value = acc.value / valueOf divisors.flatten
  | [], acc, w, h => by
    cases h
    exact ⟨[], .nil, by rw [List.flatten_nil, valueOf, List.map_nil, List.prod_nil, div_one]⟩
  | q :: ps, acc, w, h => by
    rw [List.foldlM_cons] at h
    obtain ⟨acc', hq, h⟩ := bind_eq_ok.mp h
    obtain ⟨hblank, u, hu, hdiv⟩ := divideBy_eq_ok.mp hq
    obtain ⟨us, hus, hvalue⟩ := factored_of_readProduct hone hu
    obtain ⟨divisors, hdivisors, hw⟩ := forall₂_of_foldlM_divide hone h
    refine ⟨us :: divisors, .cons ⟨hblank, hus⟩ hdivisors, ?_⟩
    rw [hw, value_divide hdiv, div_div, hvalue, List.flatten_cons, valueOf_append]

/-- The factors of a quotient that is read determine its value. -/
theorem spells_of_readQuotient (hone : group ['1'] = .ok dimensionless)
    (h : readQuotient group s = .ok u) : ∃ top divisors, Spells group s top divisors ∧
      u.value = valueOf top / valueOf divisors.flatten := by
  cases hparts : partsTop ['/'] s with
  | nil => exact absurd hparts partsTop_ne_nil
  | cons p ps =>
    rw [readQuotient_eq hparts] at h
    obtain ⟨v, hv, h⟩ := bind_eq_ok.mp h
    obtain ⟨top, htop, hvalue⟩ := factored_of_readProduct hone hv
    obtain ⟨divisors, hdivisors, hw⟩ := forall₂_of_foldlM_divide hone h
    exact ⟨top, divisors, ⟨p, ps, hparts, htop, hdivisors⟩, by rw [hw, hvalue]⟩

/-- As for factors. Dividing adds the extent of the divisor, as multiplying does: its exponents are
subtracted, and the bound is on magnitudes. -/
theorem exists_foldlM_divide (text : String) (hone : group ['1'] = .ok dimensionless)
    (hpos : ∀ s u, group s = .ok u → 0 < u.scale) {ps : List (List Char)}
    (h : List.Forall₂ (fun q us => allBlank q = false ∧ Factored group q us) ps divisors) :
    ∀ acc : PhysicalUnit,
      acc.dimension.extent + extentOf divisors.flatten ≤ Dimension.extentLimit →
      ∃ w, ps.foldlM (divideBy group text) acc = .ok w := by
  induction h with
  | nil => exact fun acc _ => ⟨acc, rfl⟩
  | @cons q us ps divisors hq _ ih =>
    intro acc hroom
    rw [List.flatten_cons, extentOf_append] at hroom
    obtain ⟨u, hu, -, hle⟩ := hq.2.exists_readProduct hone (by omega)
    have hscale : u.scale ≠ 0 := (invariant_pos.readProduct hpos hu).ne'
    obtain ⟨acc', hdiv, hle'⟩ := exists_divide (u := acc) hscale (by omega)
    obtain ⟨w, hw⟩ := ih acc' (by omega)
    refine ⟨w, ?_⟩
    rw [List.foldlM_cons]
    exact bind_eq_ok.mpr ⟨acc', divideBy_eq_ok.mpr ⟨hq.1, u, hu, hdiv⟩, hw⟩

/-- A quotient is read if its factors are and leave enough room. -/
theorem Spells.exists_readQuotient (hone : group ['1'] = .ok dimensionless)
    (hpos : ∀ s u, group s = .ok u → 0 < u.scale) (h : Spells group s top divisors)
    (hroom : extentOf top + extentOf divisors.flatten ≤ Dimension.extentLimit) :
    ∃ u, readQuotient group s = .ok u ∧ u.value = valueOf top / valueOf divisors.flatten := by
  obtain ⟨p, ps, hparts, htop, hdivisors⟩ := h
  obtain ⟨v, hv, -, hle⟩ := htop.exists_readProduct hone (by omega)
  obtain ⟨u, hu⟩ := exists_foldlM_divide (String.ofList s) hone hpos hdivisors v (by omega)
  have hread : readQuotient group s = .ok u := by
    rw [readQuotient_eq hparts, hv, ok_bind, hu]
  -- the way back gives the value of the factors found, which are the given ones
  obtain ⟨top', divisors', hspells, hvalue⟩ := spells_of_readQuotient hone hread
  obtain ⟨rfl, rfl⟩ := hspells.unique ⟨p, ps, hparts, htop, hdivisors⟩
  exact ⟨u, hread, hvalue⟩

/-- The text that divisors come from is named in errors only. -/
theorem foldlM_divideBy {text : String} (text' : String) : ∀ {ps : List (List Char)} {acc w : PhysicalUnit},
    ps.foldlM (divideBy group text) acc = .ok w → ps.foldlM (divideBy group text') acc = .ok w
  | [], _, _, h => h
  | q :: ps, acc, w, h => by
    rw [List.foldlM_cons] at h ⊢
    obtain ⟨acc', hq, h⟩ := bind_eq_ok.mp h
    exact bind_eq_ok.mpr ⟨acc', divideBy_eq_ok.mpr (divideBy_eq_ok.mp hq), foldlM_divideBy text' h⟩

/-- One more divisor. -/
theorem readQuotient_append {x : List Char} (hs : Balanced s) (hx : partsTop ['/'] x = [x])
    (hblank : allBlank x = false) (hu : readQuotient group s = .ok u)
    (hv : readProduct group x = .ok v) (h : u.divide v = .ok w) :
    readQuotient group (s ++ '/' :: x) = .ok w := by
  cases hparts : partsTop ['/'] s with
  | nil => exact absurd hparts partsTop_ne_nil
  | cons p ps =>
    have hparts' : partsTop ['/'] (s ++ '/' :: x) = p :: (ps ++ [x]) := by
      rw [partsTop_append_separator hs (by decide) (by decide) rfl, hparts, hx, List.cons_append]
    rw [readQuotient_eq hparts] at hu
    obtain ⟨top, htop, hfold⟩ := bind_eq_ok.mp hu
    rw [readQuotient_eq hparts', htop, ok_bind, List.foldlM_append, foldlM_divideBy _ hfold, ok_bind,
      List.foldlM_cons]
    exact bind_eq_ok.mpr ⟨w, divideBy_eq_ok.mpr ⟨hblank, v, hv, h⟩, rfl⟩

/-! ## What is read can be enclosed

From the parts of a text to the whole. What separates them has no parentheses: an operator, or a caret. -/

section Enclosing

variable (hgroup : ∀ s u, group s = .ok u → Enclosable s)

include hgroup

/-- A base and an exponent with a caret between them; a name and superscripts; or a group. -/
theorem enclosable_of_readPower (h : readPower group s = .ok u) : Enclosable s := by
  refine .of_trim ?_
  rw [readPower_def] at h
  split at h
  · rename_i base exponent hcut
    obtain ⟨v, hv, h⟩ := bind_eq_ok.mp h
    obtain ⟨e, he, -⟩ := bind_eq_ok.mp h
    rw [cutOnceTop_eq_some hcut, ← List.singleton_append]
    refine (hgroup base v hv).append (.append (.of_forall fun c hc => ?_) (enclosable_of_readExponent he))
    rw [List.mem_singleton.mp hc]
    decide
  · split at h
    · rename_i base n hcut
      obtain ⟨v, hv, -⟩ := bind_eq_ok.mp h
      obtain ⟨e, hsplit, -, he⟩ := cutSuperscript?_eq_some hcut
      rw [hsplit]
      exact (enclosable_of_readName hv).append
        (.of_forall fun c hc => not_delimiter_of_isSuperscript (he c hc))
    · exact hgroup _ u h

theorem Factored.enclosable (h : Factored group s us) : Enclosable s := by
  refine .of_trim (.of_partsTop ['*', '·', ' '] (by decide) fun p hp => ?_)
  -- a blank part is no factor, but it can be enclosed all the same
  cases hblank : allBlank p with
  | true => exact .of_allBlank hblank
  | false =>
    obtain ⟨u, -, hu⟩ := exists_of_forall₂ h (List.mem_filter.mpr ⟨hp, by simp [hblank]⟩)
    exact enclosable_of_readPower hgroup hu

theorem Spells.enclosable (h : Spells group s top divisors) : Enclosable s := by
  obtain ⟨p, ps, hparts, htop, hdivisors⟩ := h
  refine .of_partsTop ['/'] (by decide) fun q hq => ?_
  rw [hparts] at hq
  rcases List.mem_cons.mp hq with rfl | hq
  · exact htop.enclosable hgroup
  · obtain ⟨us, -, -, hus⟩ := exists_of_forall₂ hdivisors hq
    exact hus.enclosable hgroup

end Enclosing

end Groups

theorem readGroup_one : ∀ depth : Nat, readGroup depth ['1'] = .ok dimensionless
  | 0 => rfl
  | _ + 1 => rfl

/-- By induction on the depth: what is in parentheses is a quotient whose groups can be enclosed. -/
theorem enclosable_of_readGroup : ∀ (depth : Nat) (s : List Char) (u : PhysicalUnit),
    readGroup depth s = .ok u → Enclosable s
  | 0, s, u, h => enclosable_of_readName h
  | depth + 1, s, u, h => by
    rw [readGroup_succ] at h
    split at h
    · rename_i inner hinside
      obtain ⟨top, divisors, hspells, -⟩ := spells_of_readQuotient (readGroup_one depth) h
      refine .of_trim ?_
      rw [insideParens?_eq_some hinside]
      exact (hspells.enclosable (enclosable_of_readGroup depth)).parens
    · exact enclosable_of_readName h

end PhysicalUnit

end Formulary
