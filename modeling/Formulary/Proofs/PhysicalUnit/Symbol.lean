import Formulary.Proofs.PhysicalUnit.Reading

/-!
Symbols that denote their units.

The symbol of a quotient or power is put together from those of the operands. It is followed through
the reader here: what the symbols of the operands denote decides what the new one does. Quotients
put parentheses where they are needed. Powers look for some of the operators only, so the base must
hold one of those or be a single factor.

How the proof goes. `Faithful` is what is wanted, and `Spelled` is what an operation hands on: it takes the
symbol as a quotient, which is what the symbol is once another is put together from it. A whole text is
looked up among the known units before that, so `Spelled.faithful` has to know that those denote the same
as quotients (`exists_readQuotient_of_lookup?`). Then there is one lemma for each origin of a symbol:
`spelled_of_lookup?`, `spelled_of_read`, `Spelled.divide`, `Spelled.pow` and `Spelled.powRatio`. The last
two share `Base.spelled`, which joins a base and an exponent.

* `Base` and `Exponent` list what the reader must not find in the two: no slash and no product sign
  outside parentheses, and no caret before the one between them. A base in parentheses has all of that
  (`Spelled.base_parens`), and so does a single factor (`Spelled.base_factor`).
* `raisable` leaves out the other bases. A product by `·` or a blank gets no parentheses, so that the
  exponent would be read with its last factor only; and what stands before a caret is read as a group,
  where a superscript is part of a name that nobody knows.
* A fraction is read in lowest terms, but the power was formed from the one that was written. So `Raises`
  asks that the power in lowest terms has a result too; the two then agree (`powRatio_value_unique`).
-/

namespace Formulary

open Formulary.Except

namespace PhysicalUnit

variable {u v w : PhysicalUnit} {s t : List Char}

/-- The symbol is read, as a unit of the same dimension and scale. -/
def Faithful (u : PhysicalUnit) : Prop :=
  ∃ v, read u.symbol.toList = .ok v ∧ v.isEquivalent u = true

theorem faithful_iff :
    u.Faithful ↔ (read u.symbol.toList).toOption.any (·.isEquivalent u) = true := by
  rw [Faithful, Option.any_eq_true]
  exact exists_congr fun v => and_congr_left' toOption_eq_some.symm

instance (u : PhysicalUnit) : Decidable u.Faithful := decidable_of_iff _ faithful_iff.symm

/-- The symbol as the reader of quotients finds it. -/
def spelling (u : PhysicalUnit) : List Char := caretPowers u.symbol.toList

/-- The symbol has no blanks around it, and it is a quotient that denotes the unit; one that says
nothing belongs to the unit of pure numbers. -/
structure Spelled (u : PhysicalUnit) : Prop where
  trimmed : trim u.symbol.toList = u.symbol.toList
  bare : u.isBare = true → u.value = 1
  read : u.isBare = false → ∃ v, readQuotient readNested u.spelling = .ok v ∧ v.value = u.value

/-! ## Whole texts -/

theorem isBare_iff : u.isBare = true ↔ u.symbol.toList = [] ∨ u.symbol.toList = ['1'] := by
  rw [isBare, Bool.or_eq_true, decide_eq_true_iff, decide_eq_true_iff, ← String.toList_inj,
    ← String.toList_inj]
  rfl

theorem symbol_of_not_isBare (h : u.isBare = false) :
    u.symbol.toList ≠ [] ∧ u.symbol.toList ≠ ['1'] := not_or.mp (isBare_iff.not.mp (by simp [h]))

theorem readNested_one : readNested ['1'] = .ok dimensionless := rfl

theorem allBlank_of_trim (htrim : trim s = s) (hne : s ≠ []) : allBlank s = false := by
  cases s with
  | nil => exact absurd rfl hne
  | cons c r => rw [allBlank_cons, not_blank_of_trim htrim, Bool.false_and]

theorem trim_join {c : Char} (hc : isBlank c = false) (hs : trim s = s) (hne : s ≠ [])
    (ht : trim t = t) : trim (s ++ c :: t) = s ++ c :: t := by
  rw [trim_append_cons hc (allBlank_of_trim hs hne), trimStart_of_trim hs, trimEnd_of_trim ht]

/-! ## Single factors -/

/-- A text that ends in no superscript has none. -/
theorem cutSuperscript?_eq_none {c : Char} (hc : isSuperscript c = false) :
    cutSuperscript? (s ++ [c]) = none := by
  cases hcut : cutSuperscript? (s ++ [c]) with
  | none => rfl
  | some p =>
    obtain ⟨base, n⟩ := p
    obtain ⟨e, hsplit, hne, he⟩ := cutSuperscript?_eq_some hcut
    obtain ⟨e, d, rfl⟩ := (List.eq_nil_or_concat e).resolve_left hne
    rw [List.concat_eq_append, ← List.append_assoc] at hsplit
    obtain ⟨-, hlast⟩ := List.append_inj' hsplit rfl
    obtain rfl : c = d := by simpa using hlast
    exact absurd (he c (by simp)) (by simp [hc])

/-- A product of one factor. -/
theorem exists_readProduct (htrim : trim s = s) (hwhole : partsTop ['*', '·', ' '] s = [s])
    (hblank : allBlank s = false) (hone : s ≠ ['1']) (h : readPower readNested s = .ok u) :
    ∃ w, readProduct readNested s = .ok w ∧ w.value = u.value := by
  have hfactors : factors s = [s] := by
    rw [factors, htrim, hwhole]
    simp [hblank]
  have hne : s ≠ [] := by
    rintro rfl
    cases hblank
  have hrange : u.dimension.InRange :=
    invariant_inRange.readPower (fun _ _ => invariant_inRange.readNested) h
  obtain ⟨w, hw, hvalue⟩ := dimensionless_multiply hrange
  refine ⟨w, ?_, hvalue⟩
  rw [readProduct_eq (by rwa [htrim]) (by rwa [htrim]), hfactors, List.foldlM_cons, multiplyBy, h, ok_bind,
    hw]
  rfl

/-- A quotient without divisors. -/
theorem readQuotient_whole (hwhole : partsTop ['/'] s = [s]) :
    readQuotient readNested s = readProduct readNested s := by
  rw [readQuotient_eq hwhole]
  cases readProduct readNested s <;> rfl

/-! ## Known units -/

section Plain

variable (hs : ∀ c ∈ s, isPlain c = true)

include hs

theorem not_mem_of_plain {c : Char} (hc : c ∈ operators) : c ∉ s := fun hmem =>
  not_mem_operators_of_isPlain (hs c hmem) hc

theorem trim_of_plain : trim s = s := trim_of_forall fun c hc => not_blank_of_isPlain (hs c hc)

theorem balanced_of_plain : Balanced s :=
  balanced_of_forall fun c hc =>
    ⟨by rintro rfl; exact not_mem_of_plain hs (by decide) hc,
      by rintro rfl; exact not_mem_of_plain hs (by decide) hc⟩

theorem undivided_of_plain : partsTop ['/'] s = [s] :=
  partsTop_of_not_mem fun c hc => by
    rw [List.mem_singleton.mp hc]
    exact not_mem_of_plain hs (by decide)

theorem factor_of_plain : partsTop ['*', '·', ' '] s = [s] :=
  partsTop_of_not_mem fun c hc => by
    simp only [List.mem_cons, List.not_mem_nil, or_false] at hc
    rcases hc with rfl | rfl | rfl
    · exact not_mem_of_plain hs (by decide)
    · exact not_mem_of_plain hs (by decide)
    · exact fun hmem => absurd (not_blank_of_isPlain (hs _ hmem)) (by decide)

/-- A known spelling without operators is a factor. -/
theorem readPower_of_lookup? (hblank : s ≠ []) (hone : s ≠ ['1'])
    (h : lookup? (String.ofList s) = some u) : readPower readNested s = .ok u := by
  have hcut : cutOnceTop '^' 0 s = none := by
    simpa [cutOnceTop] using (balanced_of_plain hs).cutOnceTop_of_not_mem (not_mem_of_plain hs (by decide)) []
  have hsuperscript : cutSuperscript? s = none := by
    obtain ⟨init, c, rfl⟩ := (List.eq_nil_or_concat s).resolve_left hblank
    rw [List.concat_eq_append] at hs ⊢
    exact cutSuperscript?_eq_none (not_superscript_of_isPlain (hs c (by simp)))
  have hinside : insideParens? s = none := by
    cases hin : insideParens? s with
    | none => rfl
    | some t =>
      exact absurd (by rw [insideParens?_eq_some hin]; simp) (not_mem_of_plain hs (c := '(') (by decide))
  have hempty : ¬ (String.ofList s = "1" ∨ String.ofList s = "") := by
    rw [← String.toList_inj, ← String.toList_inj, String.toList_ofList]
    exact not_or.mpr ⟨hone, hblank⟩
  rw [readPower_def]
  simp only [trim_of_plain hs, hcut, hsuperscript]
  rw [readNested_eq, trim_of_plain hs, hinside]
  unfold readName
  simp only [trim_of_plain hs, h]
  rw [if_neg (by simpa using hempty)]

/-- It denotes the known unit as a quotient too. -/
theorem exists_readQuotient_of_lookup? (hblank : s ≠ []) (hone : s ≠ ['1'])
    (h : lookup? (String.ofList s) = some u) :
    ∃ v, readQuotient readNested (caretPowers s) = .ok v ∧ v.value = u.value := by
  rw [caretPowers_of_not_mem (not_mem_of_plain hs (by decide)),
    readQuotient_whole (undivided_of_plain hs)]
  exact exists_readProduct (trim_of_plain hs) (factor_of_plain hs) (allBlank_of_trim (trim_of_plain hs) hblank) hone
    (readPower_of_lookup? hs hblank hone h)

end Plain

/-- Spellings of several words are read as a whole only. -/
theorem phrases_isOk : ∀ n ∈ phrases, (readQuotient readNested (caretPowers n.toList)).isOk = false := by
  decide +kernel

theorem symbols_plain : ∀ r ∈ rows, r.unit.symbol.toList.all isPlain = true ∧
    r.unit.isBare = false ∧ lookup? r.unit.symbol = some r.unit := by decide +kernel

/-! ## Whole texts -/

/-- A whole text denotes what it does as a quotient. -/
theorem exists_read (htrim : trim s = s) (hblank : s ≠ []) (hone : s ≠ ['1'])
    (h : readQuotient readNested (caretPowers s) = .ok u) : ∃ v, read s = .ok v ∧ v.value = u.value := by
  have hdeep : readQuotient (readGroup s.length) (caretPowers s) = .ok u := by
    rw [← h]
    exact readQuotient_congr fun t ht => readGroup_eq (ht.trans (length_caretPowers_le s))
  rw [read_def]
  simp only [htrim]
  rw [if_neg (by simp [hblank, hone])]
  cases hl : lookup? (String.ofList s) with
  | none =>
    rw [hdeep]
    exact ⟨_, rfl, rfl⟩
  | some r =>
    refine ⟨r, rfl, ?_⟩
    rcases spellings_isPlain _ (mem_spellings hl) with hphrase | hplain
    · have hfails := phrases_isOk _ hphrase
      rw [String.toList_ofList, h] at hfails
      cases hfails
    · rw [String.toList_ofList] at hplain
      obtain ⟨v, hv, hvalue⟩ :=
        exists_readQuotient_of_lookup? (List.all_eq_true.mp hplain) hblank hone hl
      obtain rfl : v = u := Except.ok.inj (hv.symm.trans h)
      exact hvalue.symm

theorem Spelled.faithful (h : u.Spelled) : u.Faithful := by
  by_cases hbare : u.isBare = true
  · refine ⟨dimensionless, ?_, isEquivalent_iff.mpr (value_dimensionless.trans (h.bare hbare).symm)⟩
    rcases isBare_iff.mp hbare with hs | hs <;> rw [hs] <;> rfl
  · obtain ⟨v, hv, hvalue⟩ := h.read (by simpa using hbare)
    obtain ⟨hblank, hone⟩ := not_or.mp (isBare_iff.not.mp hbare)
    obtain ⟨v', hv', hvalue'⟩ := exists_read h.trimmed hblank hone hv
    exact ⟨v', hv', isEquivalent_iff.mpr (hvalue'.trans hvalue)⟩

theorem exists_row {n : String} (h : lookup? n = some u) : ∃ r ∈ rows, r.unit = u := by
  unfold lookup? at h
  obtain ⟨r, hr, rfl⟩ := Option.map_eq_some_iff.mp h
  rcases Option.or_eq_some_iff.mp hr with hr | ⟨-, hr⟩
  · exact ⟨r, List.mem_of_find?_eq_some hr, rfl⟩
  · exact ⟨r, List.mem_of_find?_eq_some hr, rfl⟩

theorem spelled_of_lookup? {n : String} (h : lookup? n = some u) : u.Spelled := by
  obtain ⟨r, hr, rfl⟩ := exists_row h
  obtain ⟨hplain, hbare, hlookup⟩ := symbols_plain r hr
  rw [List.all_eq_true] at hplain
  obtain ⟨hblank, hone⟩ := symbol_of_not_isBare hbare
  have hlookup : lookup? (String.ofList r.unit.symbol.toList) = some r.unit := by
    rwa [String.ofList_toList]
  refine ⟨trim_of_forall fun c hc => ?_, fun hb => absurd hb (by simp [hbare]), fun _ =>
    exists_readQuotient_of_lookup? hplain hblank hone hlookup⟩
  exact not_blank_of_isPlain (hplain c hc)

/-- The symbol of a unit that a text denotes. -/
theorem spelled_of_read (h : read s = .ok u) : u.Spelled := by
  rw [PhysicalUnit.read_def] at h
  split at h
  · cases h
    exact ⟨rfl, fun _ => value_dimensionless, fun hb => by cases hb⟩
  · rename_i hs
    split at h
    · rename_i hl
      cases h
      exact spelled_of_lookup? hl
    · obtain ⟨v, hv, h⟩ := bind_eq_ok.mp h
      cases h
      refine ⟨?_, fun hb => absurd hb ?_, fun _ => ⟨v, ?_, rfl⟩⟩
      · rw [String.toList_ofList, trim_trim]
      · rw [isBare_iff, String.toList_ofList]
        simpa using hs
      · rw [← hv, spelling, String.toList_ofList]
        exact readQuotient_congr fun t ht =>
          (readGroup_eq (ht.trans (length_caretPowers_le _))).symm

/-- Another unit with the same symbol and value. -/
theorem Spelled.congr (h : v.Spelled) (hsymbol : w.symbol = v.symbol) (hvalue : w.value = v.value) :
    w.Spelled := by
  have hbare : w.isBare = v.isBare := by rw [isBare, isBare, hsymbol]
  refine ⟨by rw [hsymbol, h.trimmed], fun hb => ?_, fun hb => ?_⟩
  · rw [hvalue, h.bare (hbare ▸ hb)]
  · rw [spelling, hsymbol, hvalue]
    exact h.read (hbare ▸ hb)

/-- The factors of the symbol. -/
theorem Spelled.exists_spells (h : u.Spelled) (hbare : u.isBare = false) : ∃ top divisors,
    Spells readNested u.spelling top divisors ∧ u.value = valueOf top / valueOf divisors.flatten := by
  obtain ⟨v, hv, hvalue⟩ := h.read hbare
  obtain ⟨top, divisors, hspells, hvalue'⟩ := spells_of_readQuotient readNested_one hv
  exact ⟨top, divisors, hspells, hvalue ▸ hvalue'⟩

theorem Spelled.enclosable (h : u.Spelled) (hbare : u.isBare = false) : Enclosable u.spelling := by
  obtain ⟨top, divisors, hspells, -⟩ := h.exists_spells hbare
  exact hspells.enclosable fun s u hu => enclosable_of_readGroup _ s u hu

theorem ne_one_of_mem {c : Char} (hc : c ∈ s) (hne : c ≠ '1') : s ≠ ['1'] := by
  rintro rfl
  exact hne (List.mem_singleton.mp hc)

/-- A unit whose symbol is a text that denotes it. -/
theorem spelled_of_text (hsymbol : u.symbol.toList = s) (htrim : trim s = s) (hblank : s ≠ [])
    (hone : s ≠ ['1']) (hread : ∃ v, readQuotient readNested (caretPowers s) = .ok v ∧ v.value = u.value) :
    u.Spelled := by
  subst hsymbol
  exact ⟨htrim, fun hb => absurd (isBare_iff.mp hb) (not_or.mpr ⟨hblank, hone⟩), fun _ => hread⟩

/-! ## Groups -/

theorem trim_parens (s : List Char) : trim ('(' :: (s ++ [')'])) = '(' :: (s ++ [')']) := by
  rw [trim, trimStart_cons (by decide), ← List.cons_append, trimEnd_concat (by decide)]

/-- A quotient in parentheses is read as a group. -/
theorem readNested_parens (s : List Char) :
    readNested ('(' :: (s ++ [')'])) = readQuotient readNested s := by
  rw [readNested_eq, trim_parens, insideParens?_parens]

/-- A quotient in parentheses is a factor. -/
theorem readPower_parens (hs : Balanced s) :
    readPower readNested ('(' :: (s ++ [')'])) = readQuotient readNested s := by
  rw [readPower_def]
  simp only [trim_parens]
  rw [cutOnceTop_group hs (by decide), ← List.cons_append, cutSuperscript?_eq_none (by decide)]
  exact readNested_parens s

/-- A group to a power. -/
theorem readPower_caret {base exponent : List Char} {num : Int} {den : Nat}
    (htrim : trim (base ++ '^' :: exponent) = base ++ '^' :: exponent)
    (hcut : cutOnceTop '^' 0 (base ++ '^' :: exponent) = some (base, exponent))
    (hbase : readNested base = .ok u) (hexponent : readExponent exponent = .ok (num, den))
    (h : u.powRatio num den = .ok w) : readPower readNested (base ++ '^' :: exponent) = .ok w := by
  rw [readPower_def]
  simp only [htrim, hcut]
  rw [hbase, ok_bind, hexponent, ok_bind, h]

/-! ## Quotients -/

theorem symbol_divide (h : u.divide v = .ok w) : w.symbol = u.quotientSymbol v := by
  obtain ⟨_, -, h⟩ := bind_eq_ok.mp h
  obtain ⟨_, -, h⟩ := bind_eq_ok.mp h
  cases h
  rfl

/-- The symbol, in parentheses if it holds one of the operators. -/
def enclosed (u : PhysicalUnit) (operators : List Char) : List Char :=
  if u.symbolHas operators then '(' :: (u.symbol.toList ++ [')']) else u.symbol.toList

theorem trim_enclosed {operators : List Char} (h : trim u.symbol.toList = u.symbol.toList) :
    trim (u.enclosed operators) = u.enclosed operators := by
  unfold enclosed
  split
  · exact trim_parens _
  · exact h

theorem enclosed_ne_nil {operators : List Char} (h : u.isBare = false) : u.enclosed operators ≠ [] := by
  unfold enclosed
  split
  · simp
  · exact (symbol_of_not_isBare h).1

theorem toList_divide (hbare : v.isBare = false) (h : u.divide v = .ok w) :
    w.symbol.toList =
      (if u.isBare then "1" else u.symbol).toList ++ '/' :: v.enclosed ['*', '/'] := by
  rw [symbol_divide h, quotientSymbol, hbare, enclosed]
  cases v.symbolHas ['*', '/'] <;> simp

/-- What a quotient starts with: the symbol, or a one. -/
theorem Spelled.exists_top (h : u.Spelled) : ∃ top : String,
    top = (if u.isBare then "1" else u.symbol) ∧ trim top.toList = top.toList ∧ top.toList ≠ [] ∧
      ∃ a, readQuotient readNested (caretPowers top.toList) = .ok a ∧ a.value = u.value := by
  cases hbare : u.isBare with
  | true =>
    exact ⟨"1", rfl, rfl, by decide, dimensionless, rfl, value_dimensionless.trans (h.bare hbare).symm⟩
  | false => exact ⟨u.symbol, rfl, h.trimmed, (symbol_of_not_isBare hbare).1, h.read hbare⟩

/-- What a quotient divides by: the symbol, in parentheses if it holds a product or a quotient. -/
theorem Spelled.exists_divisor (h : v.Spelled) (hbare : v.isBare = false) : ∃ x : List Char,
    x = v.enclosed ['*', '/'] ∧ partsTop ['/'] (caretPowers x) = [caretPowers x] ∧
      allBlank (caretPowers x) = false ∧
      ∃ b, readProduct readNested (caretPowers x) = .ok b ∧ b.value = v.value := by
  obtain ⟨b, hb, hvalue⟩ := h.read hbare
  have hbalanced := (h.enclosable hbare).balanced
  unfold enclosed
  cases hhas : v.symbolHas ['*', '/'] with
  | true =>
    refine ⟨_, rfl, ?_⟩
    have hcaret : caretPowers ('(' :: (v.symbol.toList ++ [')'])) = '(' :: (v.spelling ++ [')']) := by
      rw [caretPowers_cons (by decide), caretPowers_append_cons (by decide)]
      rfl
    have hblank : allBlank ('(' :: (v.spelling ++ [')'])) = false := by
      rw [allBlank_cons]
      rfl
    have hpower : readPower readNested ('(' :: (v.spelling ++ [')'])) = .ok b := by
      rw [readPower_parens hbalanced, hb]
    rw [if_pos rfl, hcaret]
    obtain ⟨b', hb', hvalue'⟩ := exists_readProduct (trim_parens _) (partsTop_parens hbalanced) hblank
      (by simp) hpower
    exact ⟨partsTop_parens hbalanced, hblank, b', hb', hvalue'.trans hvalue⟩
  | false =>
    have hnot : '*' ∉ v.symbol.toList ∧ '/' ∉ v.symbol.toList := by
      rw [symbolHas, List.any_eq_false] at hhas
      exact ⟨fun hc => hhas _ hc (by decide), fun hc => hhas _ hc (by decide)⟩
    have hcaret : caretPowers v.symbol.toList = v.symbol.toList := caretPowers_of_not_mem hnot.1
    have hwhole : partsTop ['/'] v.symbol.toList = [v.symbol.toList] :=
      partsTop_of_not_mem (by simpa using hnot.2)
    refine ⟨_, rfl, ?_⟩
    rw [if_neg (by decide), hcaret]
    rw [spelling, hcaret, readQuotient_whole hwhole] at hb
    exact ⟨hwhole, allBlank_of_trim h.trimmed (symbol_of_not_isBare hbare).1, b, hb, hvalue⟩

/-- The symbol of a quotient denotes it. -/
theorem Spelled.divide (hu : u.Spelled) (hv : v.Spelled) (h : u.divide v = .ok w) : w.Spelled := by
  cases hbare : v.isBare with
  | true =>
    have hsymbol := symbol_divide h
    simp only [quotientSymbol, hbare, if_true] at hsymbol
    exact hu.congr hsymbol (by rw [value_divide h, hv.bare hbare, div_one])
  | false =>
    obtain ⟨top, htop, htrim, hne, a, ha, hvalue⟩ := hu.exists_top
    obtain ⟨x, hx, hwhole, hblank, b, hb, hvalue'⟩ := hv.exists_divisor hbare
    have hsymbol : w.symbol.toList = top.toList ++ '/' :: x := by rw [toList_divide hbare h, htop, hx]
    obtain ⟨w', hw', hvaluew⟩ := divide_congr hvalue hvalue' h
    have hbalanced : Balanced (caretPowers top.toList) := by
      obtain ⟨_, _, hspells, -⟩ := spells_of_readQuotient readNested_one ha
      exact (hspells.enclosable fun s u hu => enclosable_of_readGroup _ s u hu).balanced
    refine spelled_of_text hsymbol (trim_join (by decide) htrim hne (hx ▸ trim_enclosed hv.trimmed))
      (by simp) (ne_one_of_mem (c := '/') (by simp) (by decide)) ⟨w', ?_, hvaluew⟩
    rw [caretPowers_append_cons (by decide)]
    exact readQuotient_append hbalanced hwhole hblank ha hb hw'

/-! ## Powers -/

/-- The symbol can be raised to a power: it holds an operator, for which it is put in parentheses, or
it is one factor without a superscript. -/
def raisable (u : PhysicalUnit) : Bool :=
  u.symbolHas ['*', '/', '^'] || ((partsTop ['*', '·', ' '] u.symbol.toList).length == 1 &&
    (cutSuperscript? u.symbol.toList).isNone)

/-- A text that denotes the unit as a group, and stays one factor with an exponent after it. -/
structure Base (u : PhysicalUnit) (s : List Char) : Prop where
  trimmed : trim s = s
  ne_nil : s ≠ []
  not_blank : allBlank (caretPowers s) = false
  start : trimStart (caretPowers s) = caretPowers s
  balanced : Balanced (caretPowers s)
  undivided : partsTop ['/'] (caretPowers s) = [caretPowers s]
  factor : partsTop ['*', '·', ' '] (caretPowers s) = [caretPowers s]
  cut : ∀ e, cutOnceTop '^' 0 (caretPowers s ++ '^' :: e) = some (caretPowers s, e)
  read : ∃ a, readNested (caretPowers s) = .ok a ∧ a.value = u.value

/-- A text that denotes an exponent, and belongs to one factor. -/
structure Exponent (e : List Char) (num : Int) (den : Nat) : Prop where
  trimmed : trim e = e
  no_star : '*' ∉ e
  undivided : partsTop ['/'] ('^' :: e) = ['^' :: e]
  factor : partsTop ['*', '·', ' '] ('^' :: e) = ['^' :: e]
  read : readExponent e = .ok (num, den)

/-- A symbol in parentheses. -/
theorem Spelled.base_parens (h : u.Spelled) (hbare : u.isBare = false) :
    Base u ('(' :: (u.symbol.toList ++ [')'])) := by
  obtain ⟨a, ha, hvalue⟩ := h.read hbare
  have hbalanced := (h.enclosable hbare).balanced
  have hcaret : caretPowers ('(' :: (u.symbol.toList ++ [')'])) = '(' :: (u.spelling ++ [')']) := by
    rw [caretPowers_cons (by decide), caretPowers_append_cons (by decide)]
    rfl
  refine ⟨trim_parens _, by simp, ?_, ?_, ?_, ?_, ?_, fun e => ?_, a, ?_, hvalue⟩ <;> rw [hcaret]
  · rw [allBlank_cons]
    rfl
  · exact trimStart_cons (by decide)
  · exact hbalanced.parens
  · exact partsTop_parens hbalanced
  · exact partsTop_parens hbalanced
  · have hgroup : '^' ≠ '(' ∧ '^' ≠ ')' := by decide
    simpa [cutOnceTop] using cutOnceTop_group (t := '^' :: e) hbalanced hgroup
  · rw [readNested_parens, ha]

/-- A factor without an exponent is read as a group. -/
theorem readNested_of_readPower (htrim : trim s = s) (hcut : cutOnceTop '^' 0 s = none)
    (hsuperscript : cutSuperscript? s = none) (h : readPower readNested s = .ok u) :
    readNested s = .ok u := by
  rw [readPower_def] at h
  simp only [htrim, hcut, hsuperscript] at h
  exact h

/-- A symbol that is one factor without an exponent. -/
theorem Spelled.base_factor (h : u.Spelled) (hbare : u.isBare = false)
    (hnot : ∀ c ∈ ['*', '/', '^'], c ∉ u.symbol.toList)
    (hfactor : partsTop ['*', '·', ' '] u.symbol.toList = [u.symbol.toList])
    (hsuperscript : cutSuperscript? u.symbol.toList = none) : Base u u.symbol.toList := by
  have hcaret : caretPowers u.symbol.toList = u.symbol.toList :=
    caretPowers_of_not_mem (hnot '*' (by decide))
  have hbalanced := (h.enclosable hbare).balanced
  obtain ⟨top, divisors, ⟨p, ps, hparts, htop, hdivisors⟩, hvalue⟩ := h.exists_spells hbare
  rw [spelling, hcaret] at hbalanced hparts
  have hundivided : partsTop ['/'] u.symbol.toList = [u.symbol.toList] :=
    partsTop_of_not_mem (by simpa using hnot '/' (by decide))
  have hblank := allBlank_of_trim h.trimmed (symbol_of_not_isBare hbare).1
  have hcut : ∀ r, cutOnceTop '^' 0 (u.symbol.toList ++ r) =
      (cutOnceTop '^' 0 r).map fun p => (u.symbol.toList ++ p.1, p.2) :=
    hbalanced.cutOnceTop_of_not_mem (hnot '^' (by decide))
  -- the symbol is its only factor
  obtain ⟨rfl, rfl⟩ := List.cons.inj (hundivided.symm.trans hparts)
  cases hdivisors
  have hfactors : factors u.symbol.toList = [u.symbol.toList] := by
    rw [factors, h.trimmed, hfactor]
    simp [hblank]
  rw [Factored, hfactors] at htop
  obtain ⟨b, bs, hb, hbs, rfl⟩ := List.forall₂_cons_left_iff.mp htop
  cases hbs
  have hnone : cutOnceTop '^' 0 u.symbol.toList = none := by simpa [cutOnceTop] using hcut []
  refine ⟨h.trimmed, (symbol_of_not_isBare hbare).1, ?_, ?_, ?_, ?_, ?_, fun e => ?_, b, ?_, ?_⟩
  · rwa [hcaret]
  · rw [hcaret, trimStart_of_trim h.trimmed]
  · rwa [hcaret]
  · rwa [hcaret]
  · rwa [hcaret]
  · rw [hcaret]
    simpa [cutOnceTop] using hcut ('^' :: e)
  · rw [hcaret, readNested_of_readPower h.trimmed hnone hsuperscript hb]
  · rw [hvalue]
    simp [valueOf]

theorem Spelled.base (h : u.Spelled) (hbare : u.isBare = false) (hraise : u.raisable = true) :
    Base u (u.enclosed ['*', '/', '^']) := by
  unfold enclosed
  cases hhas : u.symbolHas ['*', '/', '^'] with
  | true => exact h.base_parens hbare
  | false =>
    have hnot : ∀ c ∈ ['*', '/', '^'], c ∉ u.symbol.toList := by
      rw [symbolHas, List.any_eq_false] at hhas
      exact fun c hc hmem => hhas c hmem (List.contains_iff_mem.mpr hc)
    obtain ⟨hlength, hsuperscript⟩ : (partsTop ['*', '·', ' '] u.symbol.toList).length = 1 ∧
        cutSuperscript? u.symbol.toList = none := by simpa [raisable, hhas] using hraise
    obtain ⟨p, hp⟩ := List.length_eq_one_iff.mp hlength
    rw [if_neg (by decide)]
    exact h.base_factor hbare hnot (by rw [hp, eq_of_partsTop hp]) hsuperscript

/-- An integer holds no operator. -/
theorem not_mem_int {n : Int} {c : Char} (hc : c ∈ operators ++ [' ']) : c ∉ (toString n).toList := by
  intro hmem
  rcases Exact.chars_of_int n c hmem with hd | rfl
  · simp only [operators, List.mem_append, List.mem_cons, List.not_mem_nil, or_false] at hc
    rcases hc with (rfl | rfl | rfl | rfl | rfl | rfl | rfl | rfl) | rfl <;> cases hd
  · exact absurd hc (by decide)

theorem exponent_int {n : Int} (hn : Exact.fitsInt32 n = true) : Exponent (toString n).toList n 1 := by
  have hwhole : ∀ seps : List Char, seps ⊆ operators ++ [' '] ∧ '^' ∉ seps →
      partsTop seps ('^' :: (toString n).toList) = ['^' :: (toString n).toList] := fun seps hseps =>
    partsTop_of_not_mem fun c hc hmem => by
      rcases List.mem_cons.mp hmem with rfl | hmem
      · exact hseps.2 hc
      · exact not_mem_int (hseps.1 hc) hmem
  have hinside : insideParens? (toString n).toList = none := by
    cases hin : insideParens? (toString n).toList with
    | none => rfl
    | some t => exact absurd (by rw [insideParens?_eq_some hin]; simp) (not_mem_int (n := n) (c := '(')
        (by decide))
  have hone : Exact.fitsInt32 1 = true := by decide
  refine ⟨Exact.trim_int n, not_mem_int (by decide), hwhole _ (by decide), hwhole _ (by decide), ?_⟩
  unfold readExponent
  simp only [Exact.trim_int, hinside, Option.getD_none, Exact.read_int, Rat.num_intCast,
    Rat.den_intCast, hn, Nat.cast_one, hone, Bool.and_self, if_true]

/-- A number in parentheses. -/
theorem exponent_parens {q : Rat} (hbalanced : Balanced s) (hstar : '*' ∉ s) (hread : Exact.read s = .ok q)
    (hnum : Exact.fitsInt32 q.num = true) (hden : Exact.fitsInt32 q.den = true) :
    Exponent ('(' :: (s ++ [')'])) q.num q.den := by
  have hwhole : ∀ seps : List Char, '^' ∉ seps →
      partsTop seps ('^' :: '(' :: (s ++ [')'])) = ['^' :: '(' :: (s ++ [')'])] := fun seps hseps =>
    partsTop_append_whole (s := ['^']) (.char (by decide) (by decide) .nil)
      (partsTop_of_not_mem fun c hc hmem => hseps (List.mem_singleton.mp hmem ▸ hc))
      (partsTop_parens hbalanced)
  refine ⟨trim_parens _, by simp [hstar], hwhole _ (by decide), hwhole _ (by decide), ?_⟩
  unfold readExponent
  simp only [trim_parens, insideParens?_parens, Option.getD_some, hread, hnum, hden, Bool.and_self, if_true]

/-- A fraction in lowest terms is a multiple of no other. -/
theorem exists_lowest (num : Int) {den : Nat} (hne : den ≠ 0) : ∃ k : Nat, 0 < k ∧
    num = k * ((num : Rat) / den).num ∧ den = k * ((num : Rat) / den).den := by
  have hcast : (num : Rat) / den = num / ((den : Int) : Rat) := by push_cast; rfl
  obtain ⟨c, hnum, hden⟩ := Rat.exists_eq_mul_div_num_and_eq_mul_div_den num
    (d := (den : Int)) (by exact_mod_cast hne)
  rw [← hcast] at hnum hden
  have hpos : 0 < c := by
    have hden' : (0 : Int) < ((num : Rat) / den).den := by exact_mod_cast ((num : Rat) / den).den_pos
    have hden'' : (0 : Int) < den := by exact_mod_cast Nat.pos_of_ne_zero hne
    exact (mul_pos_iff_of_pos_right hden').mp (hden ▸ hden'')
  obtain ⟨k, rfl⟩ := Int.eq_ofNat_of_zero_le hpos.le
  exact ⟨k, by exact_mod_cast hpos, hnum, by exact_mod_cast hden⟩

theorem fits_lowest {num : Int} {den : Nat} (hne : den ≠ 0) (hnum : Exact.fitsInt32 num = true)
    (hden : Exact.fitsInt32 den = true) : Exact.fitsInt32 ((num : Rat) / den).num = true ∧
      Exact.fitsInt32 ((num : Rat) / den).den = true := by
  obtain ⟨k, hk, hn, hd⟩ := exists_lowest num hne
  simp only [Exact.fitsInt32, Bool.and_eq_true, decide_eq_true_eq] at hnum hden ⊢
  generalize ((num : Rat) / den).num = a at *
  generalize ((num : Rat) / den).den = b at *
  subst hn hd
  have hk : (1 : Int) ≤ k := by exact_mod_cast hk
  push_cast at hden
  refine ⟨⟨?_, ?_⟩, by omega, ?_⟩ <;> nlinarith

theorem exponent_fraction {num : Int} {den : Nat} (hnum : Exact.fitsInt32 num = true)
    (hden : Exact.fitsInt32 den = true) (hne : den ≠ 0) :
    Exponent ('(' :: ((toString num).toList ++ '/' :: (toString den).toList ++ [')']))
      ((num : Rat) / den).num ((num : Rat) / den).den := by
  have hnat : ∀ {c : Char}, c ∈ operators ++ [' '] → c ∉ (toString den).toList := fun hc =>
    not_mem_int (n := (den : Int)) hc
  have hint : ∀ {t : List Char}, (∀ c ∈ operators ++ [' '], c ∉ t) → Balanced t := fun ht =>
    balanced_of_forall fun c hc =>
      ⟨by rintro rfl; exact ht _ (by decide) hc, by rintro rfl; exact ht _ (by decide) hc⟩
  have hbalanced : Balanced ((toString num).toList ++ '/' :: (toString den).toList) :=
    (hint fun c hc => not_mem_int hc).append (.char (by decide) (by decide) (hint fun c hc => hnat hc))
  have hstar : '*' ∉ (toString num).toList ++ '/' :: (toString den).toList := by
    rw [List.mem_append, List.mem_cons, not_or, not_or]
    exact ⟨not_mem_int (by decide), by decide, hnat (by decide)⟩
  obtain ⟨hfits, hfits'⟩ := fits_lowest hne hnum hden
  exact exponent_parens hbalanced hstar (Exact.read_fraction hne) hfits hfits'

/-- The symbol of a power denotes it, if what stands before the exponent denotes the base. -/
theorem Base.spelled {base exponent : List Char} {num : Int} {den : Nat} (hb : Base u base)
    (he : Exponent exponent num den) (hsymbol : w.symbol.toList = base ++ '^' :: exponent)
    (h : u.powRatio num den = .ok v) (hv : v.value = w.value) : w.Spelled := by
  obtain ⟨a, ha, hvalue⟩ := hb.read
  obtain ⟨w', hw', hvalue'⟩ := powRatio_congr hvalue h
  have hcaret : caretPowers (base ++ '^' :: exponent) = caretPowers base ++ '^' :: exponent := by
    rw [caretPowers_append_cons (by decide), caretPowers_of_not_mem he.no_star]
  have htrim : trim (caretPowers base ++ '^' :: exponent) = caretPowers base ++ '^' :: exponent := by
    rw [trim_append_cons (by decide) hb.not_blank, hb.start, trimEnd_of_trim he.trimmed]
  have hpower := readPower_caret htrim (hb.cut exponent) ha he.read hw'
  have hparts : ∀ {seps : List Char}, partsTop seps (caretPowers base) = [caretPowers base] →
      partsTop seps ('^' :: exponent) = ['^' :: exponent] →
      partsTop seps (caretPowers base ++ '^' :: exponent) = [caretPowers base ++ '^' :: exponent] :=
    fun hbase hexponent => partsTop_append_whole hb.balanced hbase hexponent
  obtain ⟨w'', hw'', hvalue''⟩ := exists_readProduct htrim (hparts hb.factor he.factor)
    (by rw [allBlank_append, hb.not_blank, Bool.false_and]) (ne_one_of_mem (c := '^') (by simp) (by decide))
    hpower
  refine spelled_of_text hsymbol (trim_join (by decide) hb.trimmed hb.ne_nil he.trimmed) (by simp)
    (ne_one_of_mem (c := '^') (by simp) (by decide)) ⟨w'', ?_, hvalue''.trans (hvalue'.trans hv)⟩
  rw [hcaret, readQuotient_whole (hparts hb.undivided he.undivided), hw'']

theorem symbol_pow {n : Int} (h : u.pow n = .ok w) :
    w.symbol = if n = 1 then u.symbol else u.powerSymbol (toString n) := by
  obtain ⟨_, -, h⟩ := bind_eq_ok.mp h
  obtain ⟨_, -, h⟩ := bind_eq_ok.mp h
  cases h
  rfl

theorem symbol_powRatio {num : Int} {den : Nat} (hden : den ≠ 1) (h : u.powRatio num den = .ok w) :
    w.symbol = if u.isBare then ""
      else u.powerSymbol ("(" ++ (toString num ++ "/" ++ toString den) ++ ")") := by
  unfold powRatio at h
  rw [if_neg hden] at h
  split at h
  · obtain ⟨_, -, h⟩ := bind_eq_ok.mp h
    cases h
    rfl
  · cases h

theorem toList_powerSymbol {exponent : String} (hbare : u.isBare = false) :
    (u.powerSymbol exponent).toList = u.enclosed ['*', '/', '^'] ++ '^' :: exponent.toList := by
  unfold powerSymbol enclosed
  rw [hbare, if_neg (by decide)]
  cases u.symbolHas ['*', '/', '^'] <;> simp

/-- The symbol of an integer power denotes it, if the base can be raised. -/
theorem Spelled.pow {n : Int} (hu : u.Spelled) (hn : Exact.fitsInt32 n = true)
    (hraise : n = 1 ∨ u.isBare = true ∨ u.raisable = true) (h : u.pow n = .ok w) : w.Spelled := by
  have hsymbol := symbol_pow h
  by_cases hone : n = 1
  · rw [if_pos hone] at hsymbol
    refine hu.congr hsymbol ?_
    obtain ⟨hs, hd⟩ := pow_eq_ok h
    rw [hone, zpow_one] at hs
    rw [hone, Int.cast_one, one_smul] at hd
    exact Prod.ext (congrArg Multiplicative.ofAdd hd) hs
  rw [if_neg hone] at hsymbol
  cases hbare : u.isBare with
  | true =>
    rw [powerSymbol, if_pos hbare] at hsymbol
    exact hu.congr hsymbol ((value_pow_of_one (hu.bare hbare) h).trans (hu.bare hbare).symm)
  | false =>
    have hraise : u.raisable = true := by simpa [hone, hbare] using hraise
    have hpower : u.powRatio n 1 = .ok w := h
    refine (hu.base hbare hraise).spelled (exponent_int hn) ?_ hpower rfl
    rw [hsymbol, toList_powerSymbol hbare]

/-- The symbol of the power denotes it: the base can be raised, and in lowest terms the power has a
result as well. -/
def Raises (u : PhysicalUnit) (num : Int) (den : Nat) : Prop :=
  u.isBare = true ∨ num = 1 ∧ den = 1 ∨ u.raisable = true ∧
    (u.powRatio ((num : Rat) / den).num ((num : Rat) / den).den).isOk = true

instance (u : PhysicalUnit) (num : Int) (den : Nat) : Decidable (u.Raises num den) :=
  inferInstanceAs (Decidable (_ ∨ _ ∧ _ ∨ _ ∧ _))

/-- A rational power of a unit that says nothing. -/
theorem Spelled.powRatio_bare {num : Int} {den : Nat} (hu : u.Spelled) (hpos : 0 < u.scale)
    (hbare : u.isBare = true) (hsymbol : w.symbol = "") (h : u.powRatio num den = .ok w) :
    w.Spelled := by
  obtain ⟨hdimension, hscale⟩ := Prod.mk.inj (hu.bare hbare)
  have hscale : u.scale = 1 := hscale
  have hdimension : u.dimension.vector = 0 := hdimension
  have hvalue : w.value = 1 := by
    obtain ⟨-, hs, hd⟩ := powRatio_eq_ok hpos h
    rw [hscale, Rat.cast_one, Real.one_rpow] at hs
    rw [hdimension, smul_zero] at hd
    exact Prod.ext (congrArg Multiplicative.ofAdd hd) (by exact_mod_cast hs)
  have hempty : w.isBare = true := isBare_iff.mpr (.inl (by rw [hsymbol]; rfl))
  exact ⟨by rw [hsymbol]; rfl, fun _ => hvalue, fun hb => absurd hempty (by simp [hb])⟩

/-- The symbol of a rational power denotes it, if the base can be raised. -/
theorem Spelled.powRatio {num : Int} {den : Nat} (hu : u.Spelled) (hpos : 0 < u.scale)
    (hnum : Exact.fitsInt32 num = true) (hraise : u.Raises num den)
    (h : u.powRatio num den = .ok w) : w.Spelled := by
  by_cases hone : den = 1
  · subst hone
    exact hu.pow hnum (by
      rcases hraise with hbare | ⟨hn, -⟩ | ⟨hraise, -⟩
      · exact .inr (.inl hbare)
      · exact .inl hn
      · exact .inr (.inr hraise)) h
  have hsymbol := symbol_powRatio hone h
  cases hbare : u.isBare with
  | true =>
    rw [if_pos hbare] at hsymbol
    exact hu.powRatio_bare hpos hbare hsymbol h
  | false =>
    rw [hbare, if_neg (by decide)] at hsymbol
    obtain ⟨hraise, hlowest⟩ : u.raisable = true ∧ _ := by simpa [Raises, hone, hbare] using hraise
    obtain ⟨v, hv⟩ := exists_of_isOk hlowest
    obtain ⟨hne, hden⟩ : den ≠ 0 ∧ Exact.fitsInt32 den = true := by
      unfold PhysicalUnit.powRatio at h
      rw [if_neg hone] at h
      split at h
      · rename_i d root hd _
        obtain ⟨hne, hden, -⟩ := Dimension.vector_powRatio hd
        exact ⟨hne, hden⟩
      · cases h
    have hratio : (((num : Rat) / den).num : ℝ) / ((num : Rat) / den).den = num / den := by
      rw [← Rat.cast_def]
      push_cast
      rfl
    refine (hu.base hbare hraise).spelled (exponent_fraction hnum hden hne) ?_ hv
      (powRatio_value_unique hpos hratio hv h)
    rw [hsymbol, toList_powerSymbol hbare]
    simp

end PhysicalUnit

end Formulary
