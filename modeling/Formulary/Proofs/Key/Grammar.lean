import Formulary.Key
import Formulary.Proofs.Except
import Formulary.Proofs.Expr.Grammar
import Formulary.Proofs.Text.Cut
import Mathlib.Data.List.TakeWhile

/-!
The grammar of keys, and that the reader takes it part by part.

A key is a name; behind it, in parentheses, its arguments if it lists them; and behind these, in
brackets, the text of a unit if it has one; with blanks around each.

## How the proof goes

The reader first cuts the text into these parts and then reads them. For each of its steps it is shown what
it accepts: where it cuts (`cutParts_eq_some_iff`), which lists of arguments it reads
(`readArgumentList_eq_ok_iff`) and which texts of units (`annotates_iff`). The parts together are the key
(`read?_eq_ok_iff`), so nothing else needs to look into the reader again. The one condition of its own that it
keeps is the count of parentheses and brackets, which it makes before all else.

## Why the cuts are where the grammar has them

The reader ends a name at the first blank or delimiter, and a part at the first delimiter of its kind. In a
key of the grammar none of them comes earlier: names and what is between them have no delimiters
(`ListsArguments.not_mem`), and the text of a unit has no brackets by the grammar. It may have parentheses,
and these do not matter, as its part is ended by a bracket.

Blanks are taken off before each part, while the grammar has them around each. The two agree because no part
starts with a blank: what stands behind one is taken off before the next, or at the end.
-/

namespace Formulary

open Formulary.Expr (isTokenChar)

variable {s t inside rest : List Char} {c : Char}

/-! ## Names and blanks -/

theorem not_blank_of_name (h : isIdentifier s = true) : ∀ d ∈ s, isBlank d = false :=
  fun d hd => not_blank_of_isTokenChar (isTokenChar_of_isIdentifier h d hd)

theorem not_mem_of_name (h : isIdentifier s = true) (hc : isTokenChar c = false) : c ∉ s := fun hmem => by
  rw [isTokenChar_of_isIdentifier h c hmem] at hc
  cases hc

theorem not_mem_of_allBlank (hs : allBlank s = true) (hc : isBlank c = false) : c ∉ s := fun hmem => by
  rw [allBlank, List.all_eq_true] at hs
  rw [hs c hmem] at hc
  cases hc

theorem allBlank_of_name (h : isIdentifier s = true) : allBlank s = false := by
  cases s with
  | nil => cases h
  | cons c s => simp [allBlank_cons, not_blank_of_name h c List.mem_cons_self]

namespace Key

/-- A part that may be absent, between its delimiters. -/
def delimited (opening closing : Char) : Option (List Char) → List Char
  | none => []
  | some inside => opening :: (inside ++ [closing])

@[simp] theorem delimited_none (opening closing : Char) : delimited opening closing none = [] := rfl

@[simp] theorem delimited_some (opening closing : Char) (inside : List Char) :
    delimited opening closing (some inside) = opening :: (inside ++ [closing]) := rfl

/-- The parts of a key one after the other, with blanks around each. -/
inductive Laid (name : List Char) (args units : Option (List Char)) : List Char → Prop where
  | blanks {w₁ w₂ w₃ w₄ : List Char} (h₁ : allBlank w₁ = true) (h₂ : allBlank w₂ = true)
    (h₃ : allBlank w₃ = true) (h₄ : allBlank w₄ = true) :
    Laid name args units (w₁ ++ (name ++ (w₂ ++ (delimited '(' ')' args ++
      (w₃ ++ (delimited '[' ']' units ++ w₄))))))

/-- The name with blanks around it. -/
structure Padded (name : String) (s : List Char) : Prop where
  isIdentifier : isIdentifier name.toList = true
  blanks : ∃ w v, s = w ++ name.toList ++ v ∧ allBlank w = true ∧ allBlank v = true

/-- Nothing but blanks, or different names with commas between them. -/
inductive ListsArguments : List Char → List String → Prop where
  | none {s : List Char} (h : allBlank s = true) : ListsArguments s []
  | names {parts : List (List Char)} {args : List String} (hne : args ≠ []) (hnodup : args.Nodup)
    (h : List.Forall₂ Padded args parts) : ListsArguments (List.intercalate [','] parts) args

/-- A text without brackets that, trimmed, is the text of a unit and not empty. -/
structure Annotates (s : List Char) (a : UnitAnnotation) : Prop where
  not_bracket : ∀ c ∈ s, c ≠ '[' ∧ c ≠ ']'
  not_blank : allBlank s = false
  text : a.text = String.ofList (trim s)
  read : PhysicalUnit.read (trim s) = .ok a.unit

/-- The text is that of the key: its name, the list of its arguments if it has one, and its annotation
if it has one. -/
structure Spelled (s : List Char) (k : Key) : Prop where
  isIdentifier : isIdentifier k.name.toList = true
  parts : ∃ args units, Laid k.name.toList args units s ∧ Option.Rel ListsArguments args k.args ∧
    Option.Rel Annotates units k.annotation

/-! ## The parts -/

theorem cutDelimited_absent {opening closing : Char} (h : s.head? ≠ some opening) :
    cutDelimited opening closing s = some (none, s) := by
  cases s with
  | nil => rfl
  | cons d r =>
    have hd : d ≠ opening := by simpa using h
    simp [cutDelimited, hd]

theorem cutDelimited_present {opening closing : Char}
    (hinside : ∀ d ∈ inside, d ≠ opening ∧ d ≠ closing) :
    cutDelimited opening closing (delimited opening closing (some inside) ++ rest) =
      some (some inside, rest) := by
  have htake : ∀ d ∈ inside, (d != opening && d != closing) = true := fun d hd => by
    simp [hinside d hd]
  have hstop : Stops (fun d => d != opening && d != closing) (closing :: rest) := by
    simp [stops_cons]
  simp only [delimited_some, List.cons_append, List.append_assoc, List.nil_append, cutDelimited,
    takeWhile_append_of_stops htake hstop, dropWhile_append_of_stops htake hstop]
  simp

/-- A part is cut out if it is there, whole, and only if it is. -/
theorem cutDelimited_eq_some_iff {opening closing : Char} {part : Option (List Char)} :
    cutDelimited opening closing s = some (part, rest) ↔ s = delimited opening closing part ++ rest ∧
      (∀ inside ∈ part, ∀ d ∈ inside, d ≠ opening ∧ d ≠ closing) ∧
      (part = none → rest.head? ≠ some opening) := by
  constructor
  · intro h
    cases s with
    | nil =>
      cases h
      simp
    | cons d r =>
      simp only [cutDelimited] at h
      have hsplit :=
        List.takeWhile_append_dropWhile (p := fun x => x != opening && x != closing) (l := r)
      split at h
      · rename_i hd
        cases h
        simpa using hd
      · rename_i hd
        have hd : d = opening := by simpa using hd
        split at h
        · rename_i x rest' hdrop
          split at h
          · rename_i hx
            cases h
            rw [hdrop, hx] at hsplit
            refine ⟨by simp [hd, hsplit], ?_, fun hnone => by cases hnone⟩
            intro inside hinside e he
            cases hinside
            simpa using List.mem_takeWhile_imp he
          · cases h
        · cases h
  · rintro ⟨rfl, hinside, hnone⟩
    cases part with
    | none => exact cutDelimited_absent (hnone rfl)
    | some inside => exact cutDelimited_present (hinside inside rfl)

/-- Blanks before a part are no obstacle, and if it is absent, those before the next one are not
either. -/
theorem exists_cutDelimited (rest : List Char) {opening closing : Char} {part : Option (List Char)}
    (hopening : isBlank opening = false) (hw : allBlank t = true)
    (hinside : ∀ inside ∈ part, ∀ d ∈ inside, d ≠ opening ∧ d ≠ closing)
    (hrest : (trimStart rest).head? ≠ some opening) : ∃ r,
      cutDelimited opening closing (trimStart (t ++ (delimited opening closing part ++ rest))) =
        some (part, r) ∧ trimStart r = trimStart rest := by
  rw [trimStart_blanks hw]
  cases part with
  | none =>
    refine ⟨trimStart rest, ?_, trimStart_trimStart rest⟩
    exact cutDelimited_eq_some_iff.mpr ⟨rfl, hinside, fun _ => hrest⟩
  | some inside =>
    refine ⟨rest, cutDelimited_eq_some_iff.mpr ⟨?_, hinside, fun h => by cases h⟩, rfl⟩
    exact trimStart_cons hopening

theorem not_blank_of_isKeyNameChar (h : isKeyNameChar c = true) : isBlank c = false := by
  simp only [isKeyNameChar, Bool.and_eq_true, Bool.not_eq_true'] at h
  exact h.1

theorem stops_blanks (h : allBlank t = true) : Stops isKeyNameChar t := by
  cases t with
  | nil => exact stops_nil
  | cons c t =>
    simp only [allBlank_cons, Bool.and_eq_true] at h
    exact stops_cons.mpr (by simp [isKeyNameChar, h.1])

theorem stops_delimited {opening closing : Char} {part : Option (List Char)}
    (h : isKeyNameChar opening = false) : Stops isKeyNameChar (delimited opening closing part) := by
  cases part with
  | none => exact stops_nil
  | some inside => exact stops_cons.mpr h

theorem laid_of_cutParts {name : List Char} {args units : Option (List Char)}
    (h : cutParts s = some (name, args, units)) : Laid name args units s ∧ name ≠ [] ∧
      (∀ c ∈ name, isKeyNameChar c = true) ∧
      (∀ inside ∈ args, ∀ c ∈ inside, c ≠ '(' ∧ c ≠ ')') ∧
      ∀ inside ∈ units, ∀ c ∈ inside, c ≠ '[' ∧ c ≠ ']' := by
  simp only [cutParts, Option.bind_eq_bind, Option.bind_eq_some_iff] at h
  obtain ⟨_, hname, ⟨args, s₂⟩, hargs, ⟨units, s₃⟩, hunits, _, hblank, heq⟩ := h
  cases heq
  dsimp only at hunits hblank
  obtain ⟨hs₁, hinside, -⟩ := cutDelimited_eq_some_iff.mp hargs
  obtain ⟨hs₂, hinside', -⟩ := cutDelimited_eq_some_iff.mp hunits
  refine ⟨?_, ?_, fun c hc => List.mem_takeWhile_imp hc, hinside, hinside'⟩
  · obtain ⟨w₁, h₁, hw₁⟩ := exists_blanks_trimStart s
    obtain ⟨w₂, h₂, hw₂⟩ := exists_blanks_trimStart ((trimStart s).dropWhile isKeyNameChar)
    obtain ⟨w₃, h₃, hw₃⟩ := exists_blanks_trimStart s₂
    have h₄ : allBlank s₃ = true := allBlank_of_trimStart (by simpa using hblank)
    have hlaid : Laid ((trimStart s).takeWhile isKeyNameChar) args units _ := .blanks h₁ h₂ h₃ h₄
    rwa [← hs₂, ← hw₃, ← hs₁, ← hw₂, List.takeWhile_append_dropWhile, ← hw₁] at hlaid
  · intro hnil
    simp [hnil, guard] at hname

theorem cutParts_of_laid {name : List Char} {args units : Option (List Char)}
    (h : Laid name args units s) (hne : name ≠ []) (hname : ∀ c ∈ name, isKeyNameChar c = true)
    (hargs : ∀ inside ∈ args, ∀ c ∈ inside, c ≠ '(' ∧ c ≠ ')')
    (hunits : ∀ inside ∈ units, ∀ c ∈ inside, c ≠ '[' ∧ c ≠ ']') :
    cutParts s = some (name, args, units) := by
  obtain @⟨w₁, w₂, w₃, w₄, h₁, h₂, h₃, h₄⟩ := h
  have hend : trimStart w₄ = [] := trimStart_of_allBlank h₄
  have hstart : ∀ r, trimStart (w₁ ++ (name ++ r)) = name ++ r := by
    intro r
    rw [trimStart_blanks h₁]
    cases name with
    | nil => exact absurd rfl hne
    | cons c name => exact trimStart_cons (not_blank_of_isKeyNameChar (hname c List.mem_cons_self))
  -- the name ends at a blank, at a delimiter, or with the text
  have hstop : Stops isKeyNameChar (w₂ ++ (delimited '(' ')' args ++
      (w₃ ++ (delimited '[' ']' units ++ w₄)))) :=
    (stops_blanks h₂).append ((stops_delimited (by decide)).append
      ((stops_blanks h₃).append ((stops_delimited (by decide)).append (stops_blanks h₄))))
  obtain ⟨r₂, hcut₂, hr₂⟩ := exists_cutDelimited w₄ (by decide) h₃ hunits (by simp [hend])
  obtain ⟨r₁, hcut₁, hr₁⟩ := exists_cutDelimited (w₃ ++ (delimited '[' ']' units ++ w₄))
    (by decide) h₂ hargs (by
      rw [trimStart_blanks h₃]
      cases units with
      | none => simp [hend]
      | some inside => simp [trimStart_cons (show isBlank '[' = false by decide)])
  have hnonempty : (!name.isEmpty) = true := by simpa using hne
  simp only [cutParts, hstart, takeWhile_append_of_stops hname hstop,
    dropWhile_append_of_stops hname hstop, hcut₁, hr₁, hcut₂, hr₂, hend, hnonempty,
    Option.bind_eq_bind, Option.bind_some]
  rfl

/-- The text is cut into a name and two parts, if it is laid out of them and none of them holds what
would end it. -/
theorem cutParts_eq_some_iff {name : List Char} {args units : Option (List Char)} :
    cutParts s = some (name, args, units) ↔ Laid name args units s ∧ name ≠ [] ∧
      (∀ c ∈ name, isKeyNameChar c = true) ∧
      (∀ inside ∈ args, ∀ c ∈ inside, c ≠ '(' ∧ c ≠ ')') ∧
      ∀ inside ∈ units, ∀ c ∈ inside, c ≠ '[' ∧ c ≠ ']' :=
  ⟨laid_of_cutParts, fun ⟨h, hne, hname, hargs, hunits⟩ =>
    cutParts_of_laid h hne hname hargs hunits⟩

/-! ## Arguments -/

section Arguments

variable {name : String} {parts : List (List Char)} {before args : List String}

namespace Padded

/-- A name is read from a part by trimming it. -/
theorem iff_trim : Padded name s ↔
    Formulary.isIdentifier (trim s) = true ∧ name = String.ofList (trim s) := by
  constructor
  · rintro ⟨hname, w, v, rfl, hw, hv⟩
    have htrim : trim (w ++ name.toList ++ v) = name.toList := by
      rw [trim_blanks hw hv (allBlank_of_name hname), trim_of_forall (not_blank_of_name hname)]
    rw [htrim, String.ofList_toList]
    exact ⟨hname, rfl⟩
  · rintro ⟨hname, rfl⟩
    rw [← String.toList_ofList (l := trim s)] at hname
    obtain ⟨w, v, hs, hw, hv⟩ := exists_blanks_trim s
    exact ⟨hname, w, v, by rwa [String.toList_ofList], hw, hv⟩

/-- What is in a part is in the name, or blank. -/
theorem not_mem (h : Padded name s) (hblank : isBlank c = false) (htoken : isTokenChar c = false) :
    c ∉ s := by
  obtain ⟨hname, w, v, rfl, hw, hv⟩ := h
  simp [not_mem_of_allBlank hw hblank, not_mem_of_allBlank hv hblank, not_mem_of_name hname htoken]

theorem not_allBlank (h : Padded name s) : allBlank s = false := by
  obtain ⟨hname, w, v, rfl, -, -⟩ := h
  simp [allBlank_append, allBlank_of_name hname]

end Padded

theorem not_allBlank_intercalate (h : List.Forall₂ Padded args parts) (hne : args ≠ []) :
    allBlank (List.intercalate [','] parts) = false := by
  cases h with
  | nil => exact absurd rfl hne
  | @cons name part names parts hname _ =>
    have hpart := hname.not_allBlank
    cases parts with
    | nil => rwa [List.intercalate_singleton]
    | cons next parts => rw [List.intercalate_cons_cons, allBlank_append, allBlank_append, hpart]; rfl

/-- The names of one more part and of the others: the first is in the part, the others come after it. -/
theorem forall₂_padded_cons {part : List Char} : (∃ names, args = before ++ names ∧ args.Nodup ∧
      List.Forall₂ Padded names (part :: parts)) ↔ Formulary.isIdentifier (trim part) = true ∧
    ∃ names, args = (before ++ [String.ofList (trim part)]) ++ names ∧ args.Nodup ∧
      List.Forall₂ Padded names parts := by
  constructor
  · rintro ⟨_, rfl, hnodup, hnames⟩
    obtain ⟨name, names, hname, htail, rfl⟩ := List.forall₂_cons_right_iff.mp hnames
    obtain ⟨hpart, rfl⟩ := Padded.iff_trim.mp hname
    exact ⟨hpart, names, by simp, hnodup, htail⟩
  · rintro ⟨hpart, names, rfl, hnodup, hnames⟩
    exact ⟨_ :: names, by simp, hnodup, .cons (Padded.iff_trim.mpr ⟨hpart, rfl⟩) hnames⟩

theorem readArguments_eq_ok_iff (hbefore : before.Nodup) : readArguments before parts = .ok args ↔
    ∃ names, args = before ++ names ∧ args.Nodup ∧ List.Forall₂ Padded names parts := by
  induction parts generalizing before with
  | nil =>
    constructor
    · intro h
      cases h
      exact ⟨[], (List.append_nil _).symm, hbefore, .nil⟩
    · rintro ⟨names, rfl, -, hnames⟩
      rw [List.forall₂_nil_right_iff.mp hnames, List.append_nil]
      rfl
  | cons part parts ih =>
    rw [forall₂_padded_cons]
    simp only [readArguments]
    by_cases hpart : Formulary.isIdentifier (trim part) = true
    · by_cases hmem : String.ofList (trim part) ∈ before
      · have hcontains : before.contains (String.ofList (trim part)) = true := by simpa using hmem
        simp only [hpart, hcontains]
        refine iff_of_false (by simp) ?_
        rintro ⟨-, names, rfl, hnodup, -⟩
        obtain ⟨-, -, hdiffer⟩ := List.nodup_append.mp (List.nodup_append.mp hnodup).1
        exact hdiffer _ hmem _ List.mem_cons_self rfl
      · have hcontains : before.contains (String.ofList (trim part)) = false := by simpa using hmem
        have hnext : (before ++ [String.ofList (trim part)]).Nodup := by
          simpa [List.nodup_append] using ⟨hbefore, fun a ha => fun heq => hmem (heq ▸ ha)⟩
        simp only [hpart, hcontains]
        simpa using ih hnext
    · simp [hpart]

theorem readArgumentList_eq_ok_iff : readArgumentList s = .ok args ↔ ListsArguments s args := by
  unfold readArgumentList
  constructor
  · intro h
    split at h
    · rename_i hblank
      cases h
      exact .none hblank
    · obtain ⟨names, hargs, hnodup, hnames⟩ := (readArguments_eq_ok_iff List.nodup_nil).mp h
      obtain rfl : args = names := hargs
      have hne : args ≠ [] := by
        rintro rfl
        exact cutAll_ne_nil ',' s (List.forall₂_nil_left_iff.mp hnames)
      have hlists := ListsArguments.names hne hnodup hnames
      rwa [intercalate_cutAll] at hlists
  · intro h
    cases h with
    | none hblank => rw [if_pos hblank]
    | @names parts _ hne hnodup hnames =>
      have hparts : parts ≠ [] := by
        rintro rfl
        exact hne (List.forall₂_nil_right_iff.mp hnames)
      have hcomma : ∀ part ∈ parts, ',' ∉ part := by
        intro part hpart
        obtain ⟨name, -, hname⟩ := exists_of_forall₂ hnames.flip hpart
        exact hname.not_mem (by decide) (by decide)
      rw [if_neg (by simp [not_allBlank_intercalate hnames hne]), cutAll_intercalate hcomma hparts]
      exact (readArguments_eq_ok_iff List.nodup_nil).mpr ⟨args, rfl, hnodup, hnames⟩

end Arguments

/-! ## The annotation -/

theorem annotates_iff {a : UnitAnnotation} : Annotates s a ↔
    (∀ c ∈ s, c ≠ '[' ∧ c ≠ ']') ∧ readAnnotation s = .ok a := by
  have hread : readAnnotation s = .ok a ↔
      allBlank s = false ∧ a.text = String.ofList (trim s) ∧ PhysicalUnit.read (trim s) = .ok a.unit := by
    rw [readAnnotation_def]
    cases hblank : allBlank s with
    | true => simp [trim_eq_nil_iff.mpr hblank]
    | false =>
      have hne : (trim s).isEmpty = false := by
        simp [trim_eq_nil_iff, hblank]
      simp only [hne]
      cases hu : PhysicalUnit.read (trim s) with
      | error e => simp
      | ok u =>
        obtain ⟨text, unit⟩ := a
        simp [eq_comm]
  rw [hread]
  exact ⟨fun ⟨h₁, h₂, h₃, h₄⟩ => ⟨h₁, h₂, h₃, h₄⟩, fun ⟨h₁, h₂, h₃, h₄⟩ => ⟨h₁, h₂, h₃, h₄⟩⟩

/-! ## The key -/

theorem readPart_eq_ok_iff {α β ε : Type} {read : α → Except ε β} {R : α → β → Prop} {a : Option α}
    {b : Option β} (h : ∀ x ∈ a, ∀ y, read x = .ok y ↔ R x y) :
    readPart read a = .ok b ↔ Option.Rel R a b := by
  cases a with
  | none =>
    constructor
    · intro hread
      cases hread
      exact .none
    · rintro ⟨⟩
      rfl
  | some x =>
    change (read x).map some = .ok b ↔ _
    rw [Except.map_eq_ok]
    constructor
    · rintro ⟨y, hy, rfl⟩
      exact .some ((h x rfl y).mp hy)
    · rintro ⟨hxy⟩
      exact ⟨_, (h x rfl _).mpr hxy, rfl⟩

/-- What holds of every part that is related to something holds of this one, if it is there. -/
theorem forall_of_rel {α β : Type} {R : α → β → Prop} {P : α → Prop} {a : Option α} {b : Option β}
    (h : Option.Rel R a b) (hR : ∀ x y, R x y → P x) : ∀ x ∈ a, P x := by
  cases h with
  | none => simp
  | some h => simpa using hR _ _ h

/-- A delimiter is neither blank, nor part of a name, nor between names. -/
theorem separate_of_delimiter (h : c ∈ delimiters) :
    isBlank c = false ∧ isTokenChar c = false ∧ c ≠ ',' := by
  have hall : delimiters.all (fun d => !isBlank d && !isTokenChar d && d != ',') = true := by decide
  simpa [and_assoc] using List.all_eq_true.mp hall c h

theorem isKeyNameChar_of_name (h : Formulary.isIdentifier s = true) :
    ∀ c ∈ s, isKeyNameChar c = true := by
  intro c hc
  have hdelimiters : c ∉ delimiters := fun hmem =>
    not_mem_of_name h (separate_of_delimiter hmem).2.1 hc
  simp [isKeyNameChar, not_blank_of_name h c hc, hdelimiters]

/-- Nothing else than what is between arguments and in them is in a list of them. -/
theorem ListsArguments.not_mem {args : List String} (h : ListsArguments s args)
    (hblank : isBlank c = false) (htoken : isTokenChar c = false) (hcomma : c ≠ ',') : c ∉ s := by
  cases h with
  | none hs => exact not_mem_of_allBlank hs hblank
  | names _ _ hnames =>
    intro hmem
    rcases mem_intercalate hmem with heq | ⟨part, hpart, hmem⟩
    · exact hcomma heq
    · obtain ⟨name, -, hname⟩ := exists_of_forall₂ hnames.flip hpart
      exact hname.not_mem hblank htoken hmem

theorem ListsArguments.not_paren {args : List String} (h : ListsArguments s args) :
    ∀ c ∈ s, c ≠ '(' ∧ c ≠ ')' := by
  intro c hc
  constructor
  · rintro rfl
    exact h.not_mem (by decide) (by decide) (by decide) hc
  · rintro rfl
    exact h.not_mem (by decide) (by decide) (by decide) hc

/-- A text that is laid out of a name, a list of arguments and a text without brackets is cut into
these. -/
theorem cutParts_of_read {name : List Char} {args units : Option (List Char)}
    {names : Option (List String)} (hlaid : Laid name args units s)
    (hname : Formulary.isIdentifier name = true) (hargs : Option.Rel ListsArguments args names)
    (hunits : ∀ inside ∈ units, ∀ c ∈ inside, c ≠ '[' ∧ c ≠ ']') :
    cutParts s = some (name, args, units) := by
  have hne : name ≠ [] := by
    rintro rfl
    cases hname
  exact cutParts_of_laid hlaid hne (isKeyNameChar_of_name hname)
    (forall_of_rel hargs fun _ _ h => h.not_paren) hunits

/-- The reader counts, cuts, and reads each part. -/
theorem read?_eq_ok_iff_parts {k : Key} : read? s = .ok k ↔ checkBalanced s = .ok () ∧
    isIdentifier k.name.toList = true ∧ ∃ args units, cutParts s = some (k.name.toList, args, units) ∧
      readPart readArgumentList args = .ok k.args ∧ readPart readAnnotation units = .ok k.annotation := by
  rw [read?_def, Except.bind_eq_ok]
  constructor
  · rintro ⟨_, hbalanced, h⟩
    refine ⟨hbalanced, ?_⟩
    split at h
    · cases h
    · rename_i name args units hcut
      split at h
      · cases h
      · rename_i hname
        obtain ⟨args', hargs, h⟩ := Except.bind_eq_ok.mp h
        obtain ⟨found, hfound, h⟩ := Except.bind_eq_ok.mp h
        cases h
        exact ⟨by simpa using hname, args, units, by simpa using hcut, hargs, hfound⟩
  · rintro ⟨hbalanced, hname, args, units, hcut, hargs, hannotation⟩
    refine ⟨(), hbalanced, ?_⟩
    simp only [hcut, hname, hargs, hannotation, Except.ok_bind]
    rw [String.ofList_toList]
    rfl

/-- Besides the count of parentheses and brackets, the reader accepts just the grammar. -/
theorem read?_eq_ok_iff {k : Key} : read? s = .ok k ↔ checkBalanced s = .ok () ∧ Spelled s k := by
  rw [read?_eq_ok_iff_parts]
  have hlists : ∀ {args : Option (List Char)}, readPart readArgumentList args = .ok k.args ↔
      Option.Rel ListsArguments args k.args :=
    readPart_eq_ok_iff fun x _ y => readArgumentList_eq_ok_iff
  constructor
  · rintro ⟨hbalanced, hname, args, units, hcut, hargs, hannotation⟩
    obtain ⟨hlaid, -, -, -, hunits⟩ := cutParts_eq_some_iff.mp hcut
    refine ⟨hbalanced, hname, args, units, hlaid, hlists.mp hargs, ?_⟩
    refine (readPart_eq_ok_iff fun x hx y => ?_).mp hannotation
    rw [annotates_iff]
    exact (and_iff_right (hunits x hx)).symm
  · rintro ⟨hbalanced, hname, args, units, hlaid, hargs, hannotation⟩
    have hunits := forall_of_rel hannotation fun _ _ h => h.not_bracket
    have hcut := cutParts_of_read hlaid hname hargs hunits
    refine ⟨hbalanced, hname, args, units, hcut, hlists.mpr hargs, ?_⟩
    refine (readPart_eq_ok_iff fun x hx y => ?_).mpr hannotation
    rw [annotates_iff]
    exact (and_iff_right (hunits x hx)).symm

theorem read_eq_ok_iff {text : String} {k : Key} : Key.read text = .ok k ↔ read? text.toList = .ok k := by
  unfold Key.read quoting
  cases read? text.toList <;> simp

/-- What has been read is a key of the grammar. -/
theorem spelled_of_read {text : String} {k : Key} (h : Key.read text = .ok k) :
    Spelled text.toList k :=
  (read?_eq_ok_iff.mp (read_eq_ok_iff.mp h)).2

end Key

end Formulary
