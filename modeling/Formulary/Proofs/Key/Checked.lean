import Formulary.Checked
import Formulary.Proofs.Key.Units

/-!
What becomes of a key in a build that checks its machine integers.

It has the key, or the fault, that the build has whose integers wrap around; or it stops. Where it
stops is said twice: `Stopped` names the texts, and `Excessive` the reason that is to be found in each
of them, a number too large for the integer that it is read into.

## How the proof goes

`Agrees reason c r` is said of a computation and a result: the computation has that result, or it stops
and there is the reason. Binds and folds keep it (`Agrees.bind`, `Agrees.foldlM`). The two builds share
every level of the reader (`PhysicalUnit.Exponents`), so level by level there is one thing left to show:
the part that is read there stands in the text it was cut from, as it is, and so does a number in it.

At the bottom are the two places where an integer can leave its range. For superscripts,
`addSuperscripts_spec` is an induction on the digits; what it carries along is that the sum so far is in
range. For decimals, `excessive_of_leavesInt64` puts together the numeral that the reader has cut.

Only one step changes the text: two stars become a caret before anything is cut. But no number has a
caret in it, so that it stood in the text before (`Excessive.of_caretPowers`).

## Why such a number is not enough for a stop

It has to be read. The parts of a key are read one after the other, and so are the factors of a unit;
the first that is refused ends the reading, and the fault is the one of the other build. So `Stopped`
asks for all that stands before the unit to be in order. A converse for the unit alone would have to
repeat the order in which its factors are read, and `Stopped` refers to the reader there.
-/

namespace Formulary

variable {s t p : List Char}

/-! ## Numbers out of range -/

namespace PhysicalUnit

/-- The number that digits make behind a value. -/
def number (value : Nat) (digits : List Nat) : Nat := digits.foldl (fun value d => value * 10 + d) value

end PhysicalUnit

/-- A number that is too large for the integer it is read into: superscript digits beyond the signed
32-bit integers; or a numeral whose exponent of ten, itself a signed 64-bit integer, is none any more once
it is lessened by the number of digits after the point. -/
inductive Oversized : List Char → Prop where
  | superscript {s : List Char} {digits : List Nat}
    (h : s.mapM PhysicalUnit.superscriptDigit? = some digits)
    (large : 2147483647 < PhysicalUnit.number 0 digits) : Oversized s
  | exponent {s : List Char} {n places : Nat} {z : Int} (h : Exact.Numeral s n places z)
    (fits : Exact.FitsInt64 z) (small : z - places < -9223372036854775808) : Oversized s

/-- Such a number stands in the text. -/
def Excessive (s : List Char) : Prop := ∃ p, p <:+: s ∧ Oversized p

theorem Excessive.mono (h : Excessive s) (hs : s <:+: t) : Excessive t := by
  obtain ⟨p, hp, hover⟩ := h
  exact ⟨p, hp.trans hs, hover⟩

/-- A number has no caret. -/
theorem Oversized.not_caret (h : Oversized s) : '^' ∉ s := by
  intro hcaret
  cases h with
  | superscript hdigits => exact absurd (PhysicalUnit.isSuperscript_of_mapM hdigits _ hcaret) (by decide)
  | exponent h => exact absurd (h.chars _ hcaret) (by decide)

theorem Excessive.of_caretPowers (h : Excessive (caretPowers s)) : Excessive s := by
  obtain ⟨p, hp, hover⟩ := h
  exact ⟨p, infix_of_caretPowers hover.not_caret hp, hover⟩

theorem infix_trim (s : List Char) : trim s <:+: s := by
  obtain ⟨w, v, hs, -, -⟩ := exists_blanks_trim s
  exact ⟨w, v, hs.symm⟩

/-! ## Agreement -/

namespace Checked

variable {ε α β : Type} {reason : Prop}

@[simp] theorem run_liftM (r : Except ε α) : (liftM r : Checked ε α).run = some r := rfl

/-- The computation has the given result; or it stops, and there is the reason. -/
def Agrees (reason : Prop) (c : Checked ε α) (r : Except ε α) : Prop :=
  c.run = none ∧ reason ∨ c.run = some r

theorem agrees_stop (h : reason) (r : Except ε α) : Agrees reason stop r := .inl ⟨rfl, h⟩

theorem agrees_lift (r : Except ε α) : Agrees reason (liftM r) r := .inr rfl

theorem agrees_pure (a : α) : Agrees reason (pure a : Checked ε α) (.ok a) := .inr rfl

theorem Agrees.mono {reason' : Prop} {c : Checked ε α} {r : Except ε α} (h : Agrees reason c r)
    (hreason : reason → reason') : Agrees reason' c r :=
  h.imp_left fun ⟨hstop, h⟩ => ⟨hstop, hreason h⟩

theorem Agrees.bind {c : Checked ε α} {r : Except ε α} {f : α → Checked ε β} {g : α → Except ε β}
    (h : Agrees reason c r) (hf : ∀ a, r = .ok a → Agrees reason (f a) (g a)) :
    Agrees reason (c >>= f) (r >>= g) := by
  unfold Agrees
  rw [ExceptT.run_bind]
  rcases h with ⟨h, hreason⟩ | h
  · rw [h]
    exact .inl ⟨rfl, hreason⟩
  · rw [h]
    cases r with
    | ok a => exact hf a rfl
    | error e => exact .inr rfl

theorem Agrees.foldlM {γ : Type} {f : α → γ → Checked ε α} {g : α → γ → Except ε α} :
    ∀ {xs : List γ} (a : α), (∀ a, ∀ x ∈ xs, Agrees reason (f a x) (g a x)) →
      Agrees reason (xs.foldlM f a) (xs.foldlM g a)
  | [], a, _ => agrees_pure a
  | x :: xs, a, h => by
    rw [List.foldlM_cons, List.foldlM_cons]
    exact (h a x List.mem_cons_self).bind fun b _ =>
      foldlM b fun a y hy => h a y (List.mem_cons_of_mem _ hy)

end Checked

open Checked

/-! ## Decimals -/

namespace Exact

theorem excessive_of_leavesInt64 (h : leavesInt64 s = true) : Excessive s := by
  -- the sign stays with the mantissa: behind it, the mantissa and the exponent make a numeral
  have hsign := map_readSign_cutExponent s
  unfold leavesInt64 at h
  cases hcut : cutExponent s with
  | none =>
    rw [hcut] at h
    cases h
  | some cut =>
    obtain ⟨m, z⟩ := cut
    rw [hcut] at hsign h
    obtain ⟨⟨m', z'⟩, hcut', heq⟩ := Option.map_eq_some_iff.mp hsign.symm
    obtain ⟨hm, rfl⟩ : ((readSign s).1, m') = readSign m ∧ z' = z := by simpa using heq
    simp only [← hm] at h
    obtain ⟨a, b, hpoint⟩ : ∃ a b, (cutOnce '.' m').getD (m', []) = (a, b) := ⟨_, _, rfl⟩
    simp only [hpoint, Bool.and_eq_true, Bool.not_eq_true', List.isEmpty_eq_false_iff,
      List.all_eq_true, decide_eq_true_eq] at h
    obtain ⟨⟨hne, hdigits⟩, hsmall⟩ := h
    obtain ⟨x, hsplit, -, hx, hfits⟩ := cutExponent_eq_some.mp hcut'
    have hmantissa := mantissa_iff.mpr ⟨a, b, hpoint, hne, hdigits, rfl, rfl⟩
    have hover : Oversized (readSign s).2 := by
      rw [hsplit]
      exact .exponent (.mk hmantissa hx) hfits hsmall
    refine ⟨_, ?_, hover⟩
    unfold readSign
    split
    · exact (List.suffix_cons _ _).isInfix
    · exact (List.suffix_cons _ _).isInfix
    · exact List.infix_refl _

theorem readDecimalChecked_agrees (s : List Char) :
    Agrees (Excessive s) (readDecimalChecked s) (readDecimal s) := by
  unfold readDecimalChecked
  cases h : leavesInt64 s with
  | true => exact agrees_stop (excessive_of_leavesInt64 h) _
  | false => exact agrees_lift _

theorem readChecked_agrees (s : List Char) : Agrees (Excessive s) (readChecked s) (Exact.read s) := by
  have htrim : Excessive (trim s) → Excessive s := fun h => h.mono (infix_trim s)
  unfold readChecked Exact.read
  dsimp only
  cases hcut : cutOnce '/' (trim s) with
  | none => exact (readDecimalChecked_agrees _).mono htrim
  | some parts =>
    obtain ⟨num, den⟩ := parts
    obtain ⟨hsplit, -⟩ := cutOnce_eq_some hcut
    have hnum : Excessive (trim num) → Excessive s := fun h => htrim <|
      h.mono ((infix_trim num).trans ⟨[], '/' :: den, by rw [hsplit]; rfl⟩)
    have hden : Excessive (trim den) → Excessive s := fun h => htrim <|
      h.mono ((infix_trim den).trans ⟨num ++ ['/'], [], by rw [hsplit]; simp⟩)
    exact ((readDecimalChecked_agrees _).mono hnum).bind fun a _ =>
      ((readDecimalChecked_agrees _).mono hden).bind fun b _ => agrees_lift _

end Exact

/-! ## Superscripts -/

namespace PhysicalUnit

theorem fitsInt32_natCast {n : Nat} : Exact.fitsInt32 n = true ↔ n ≤ 2147483647 := by
  rw [Exact.fitsInt32, Bool.and_eq_true, decide_eq_true_eq, decide_eq_true_eq]
  omega

/-- Digits that wrap around as they are added up make their number, wrapped around. -/
theorem foldl_wrap (digits : List Nat) : ∀ value : Nat,
    digits.foldl (fun value d => value * 10 + Int32.ofNat d) (Int32.ofNat value) =
      Int32.ofNat (number value digits) := by
  induction digits with
  | nil => exact fun value => rfl
  | cons d digits ih =>
    intro value
    have hstep : Int32.ofNat value * 10 + Int32.ofNat d = Int32.ofNat (value * 10 + d) := by simp
    rw [List.foldl_cons, hstep]
    exact ih _

/-- As long as the sums are in range they make the number of the digits; and where one is not, the
digits up to there make too large a number. -/
theorem addSuperscripts_spec : ∀ (s : List Char) (value : Nat), value ≤ 2147483647 →
    (addSuperscripts value s = none → ∃ p digits, p <+: s ∧ p.mapM superscriptDigit? = some digits ∧
      2147483647 < number value digits) ∧
    ∀ r, addSuperscripts value s = some r → r = (s.mapM superscriptDigit?).map (number value) ∧
      ∀ n ∈ r, n ≤ 2147483647
  | [], value, hvalue => by
    refine ⟨nofun, fun r h => ?_⟩
    cases h
    exact ⟨rfl, by simpa using hvalue⟩
  | c :: s, value, hvalue => by
    rw [addSuperscripts, List.mapM_cons]
    cases hd : superscriptDigit? c with
    | none => exact ⟨nofun, fun r h => by cases h; exact ⟨rfl, nofun⟩⟩
    | some d =>
      dsimp only
      split
      · rename_i hfits
        obtain ⟨hstop, hsum⟩ := addSuperscripts_spec s (value * 10 + d)
          (fitsInt32_natCast.mp hfits)
        refine ⟨fun h => ?_, fun r h => ?_⟩
        · obtain ⟨p, digits, hp, hdigits, hlarge⟩ := hstop h
          exact ⟨c :: p, d :: digits, List.cons_prefix_cons.mpr ⟨rfl, hp⟩,
            by simp [List.mapM_cons, hd, hdigits], hlarge⟩
        · obtain ⟨rfl, hle⟩ := hsum r h
          refine ⟨?_, hle⟩
          cases s.mapM superscriptDigit? <;> rfl
      · rename_i hfits
        rw [fitsInt32_natCast, not_le] at hfits
        exact ⟨fun _ => ⟨[c], [d], ⟨s, rfl⟩, by simp [List.mapM_cons, hd], hfits⟩, nofun⟩

theorem superscriptValue?_eq {r : Option Nat} (h : addSuperscripts 0 s = some r) :
    superscriptValue? s = if s.isEmpty then none else r.map Int32.ofNat := by
  obtain ⟨rfl, -⟩ := (addSuperscripts_spec s 0 (by omega)).2 r h
  unfold superscriptValue?
  rw [Option.map_map]
  exact congrArg _ (Option.map_congr fun digits _ => foldl_wrap digits 0)

/-- Whatever the sign, digits whose sums are in range are worth the same in both builds. -/
theorem superscriptChecked_spec (base digits : List Char) (sign : Int) (signed : Int32 → Int32)
    (hsigned : ∀ n : Nat, n ≤ 2147483647 → (signed (Int32.ofNat n)).toInt = sign * n) :
    superscriptChecked base sign digits = none ∧ Excessive digits ∨
      superscriptChecked base sign digits = some (if base.isEmpty then none
        else ((superscriptValue? digits).map signed).map fun value => (base, value.toInt)) := by
  obtain ⟨hstop, hsum⟩ := addSuperscripts_spec digits 0 (by omega)
  unfold superscriptChecked
  cases h : addSuperscripts 0 digits with
  | none =>
    obtain ⟨p, ns, hp, hns, hlarge⟩ := hstop h
    exact .inl ⟨rfl, p, hp.isInfix, .superscript hns hlarge⟩
  | some r =>
    refine .inr (congrArg some ?_)
    rw [superscriptValue?_eq h]
    cases base.isEmpty with
    | true => rfl
    | false =>
      cases digits.isEmpty with
      | true => rfl
      | false =>
        cases r with
        | none => rfl
        | some n =>
          have hn := hsigned n ((hsum _ h).2 n rfl)
          simp [hn]

theorem cutSuperscriptChecked_spec (s : List Char) :
    cutSuperscriptChecked s = none ∧ Excessive s ∨ cutSuperscriptChecked s = some (cutSuperscript? s) := by
  have hdrop : s.dropWhile (fun c => !isSuperscript c) <:+: s := (List.dropWhile_suffix _).isInfix
  unfold cutSuperscriptChecked cutSuperscript?
  generalize s.dropWhile (fun c => !isSuperscript c) = e at hdrop ⊢
  dsimp only
  by_cases hminus : ∃ digits, e = '⁻' :: digits
  · obtain ⟨digits, rfl⟩ := hminus
    refine (superscriptChecked_spec _ digits (-1) (fun value => -value) fun n hn => ?_).imp_left
      (And.imp_right fun hover : Excessive digits => hover.mono ((List.suffix_cons _ _).isInfix.trans hdrop))
    rw [← Int32.ofInt_eq_ofNat, ← Int32.ofInt_neg, Int32.toInt_ofInt_of_le (by omega) (by omega),
      neg_one_mul]
  · have hplus := superscriptChecked_spec (s.takeWhile fun c => !isSuperscript c) e 1 id
      fun n hn => by rw [id, Int32.toInt_ofNat_of_lt (by omega), one_mul]
    rw [Option.map_id, id] at hplus
    -- with this, no minus sign is taken off
    have hne : ∀ digits, e ≠ '⁻' :: digits := fun digits h => hminus ⟨digits, h⟩
    simp only
    exact hplus.imp_left (And.imp_right fun hover => hover.mono hdrop)

/-! ## Units -/

theorem superscript_agrees (s : List Char) :
    Agrees (Excessive s) (checked.superscript s) (wrapping.superscript s) := by
  have hrun : (checked.superscript s).run = (cutSuperscriptChecked s).map .ok := by
    cases h : cutSuperscriptChecked s <;> simp [checked, h]
  refine (cutSuperscriptChecked_spec s).imp (And.imp_left fun h => ?_) fun h => ?_
  · rw [hrun, h]
    rfl
  · rw [hrun, h]
    rfl

theorem caret_agrees (s : List Char) :
    Agrees (Excessive s) (checked.caret s) (wrapping.caret s) := by
  have hinside : (insideParens? (trim s)).getD (trim s) <:+: s := by
    cases h : insideParens? (trim s) with
    | none => exact infix_trim s
    | some inner => exact .trans ⟨['('], [')'], (insideParens?_eq_some h).symm⟩ (infix_trim s)
  rcases Exact.readChecked_agrees ((insideParens? (trim s)).getD (trim s)) with ⟨h, hover⟩ | h
  · exact .inl ⟨by simp [checked, h], hover.mono hinside⟩
  · exact .inr (by simp [checked, h]; rfl)

section Groups

variable {group : List Char → Checked UnitError PhysicalUnit}
  {group' : List Char → Except UnitError PhysicalUnit}
  (hgroup : ∀ t, Agrees (Excessive t) (group t) (group' t))

include hgroup

theorem readPower_agrees (s : List Char) :
    Agrees (Excessive s) (checked.readPower group s) (readPower group' s) := by
  have htrim : Excessive (trim s) → Excessive s := fun h => h.mono (infix_trim s)
  unfold readPower Exponents.readPower
  dsimp only
  cases hcut : cutOnceTop '^' 0 (trim s) with
  | some parts =>
    obtain ⟨base, exponent⟩ := parts
    have hsplit := cutOnceTop_eq_some hcut
    have hbase : Excessive base → Excessive s := fun h => htrim <|
      h.mono ⟨[], '^' :: exponent, by rw [hsplit]; rfl⟩
    have hexponent : Excessive exponent → Excessive s := fun h => htrim <|
      h.mono ⟨base ++ ['^'], [], by rw [hsplit]; simp⟩
    exact ((hgroup base).mono hbase).bind fun u _ =>
      ((caret_agrees exponent).mono hexponent).bind fun power _ => agrees_lift _
  | none =>
    refine ((superscript_agrees _).mono htrim).bind fun cut _ => ?_
    cases cut with
    | some cut => exact (agrees_lift _).bind fun u _ => agrees_lift _
    | none => exact (hgroup _).mono htrim

theorem readProduct_agrees (s : List Char) :
    Agrees (Excessive s) (checked.readProduct group s) (readProduct group' s) := by
  unfold readProduct Exponents.readProduct
  dsimp only
  split
  · exact agrees_pure _
  · refine Agrees.foldlM _ fun acc p hp => ?_
    have hinfix := (infix_of_mem_partsTop (List.mem_of_mem_filter hp)).trans (infix_trim s)
    exact ((readPower_agrees hgroup p).mono fun h => h.mono hinfix).bind fun u _ => agrees_lift _

theorem readQuotient_agrees (s : List Char) :
    Agrees (Excessive s) (checked.readQuotient group s) (readQuotient group' s) := by
  unfold readQuotient Exponents.readQuotient
  dsimp only
  cases hparts : partsTop ['/'] s with
  | nil => exact agrees_lift _
  | cons first divisors =>
    have hproduct : ∀ p ∈ first :: divisors,
        Agrees (Excessive s) (checked.readProduct group p) (readProduct group' p) := fun p hp =>
      (readProduct_agrees hgroup p).mono fun h => h.mono (infix_of_mem_partsTop (hparts ▸ hp))
    refine (hproduct first List.mem_cons_self).bind fun top _ => Agrees.foldlM _ fun acc p hp => ?_
    split
    · exact agrees_lift _
    · exact (hproduct p (List.mem_cons_of_mem _ hp)).bind fun u _ => agrees_lift _

end Groups

theorem readGroup_agrees : ∀ (depth : Nat) (s : List Char),
    Agrees (Excessive s) (checked.readGroup depth s) (readGroup depth s)
  | 0, s => agrees_lift _
  | depth + 1, s => by
    unfold readGroup Exponents.readGroup
    cases hinside : insideParens? (trim s) with
    | none => exact agrees_lift _
    | some inner =>
      have hinfix : inner <:+: s :=
        .trans ⟨['('], [')'], (insideParens?_eq_some hinside).symm⟩ (infix_trim s)
      exact (readQuotient_agrees (readGroup_agrees depth) inner).mono fun h => h.mono hinfix

/-- Either build reads the same unit from a text, or finds the same fault in it; unless the one that
checks its integers stops, and then the text has a number that is too large. -/
theorem readChecked_agrees (s : List Char) : Agrees (Excessive s) (readChecked s) (read s) := by
  unfold readChecked read Exponents.read
  dsimp only
  split
  · exact agrees_pure _
  · split
    · exact agrees_pure _
    · refine ((readQuotient_agrees (readGroup_agrees _) _).mono fun h => ?_).bind fun u _ => agrees_pure _
      exact h.of_caretPowers.mono (infix_trim s)

end PhysicalUnit

/-! ## Keys -/

namespace Key

/-- A text where the reader stops: all of a key is there, but within the brackets the build stops. -/
structure Stopped (s : List Char) : Prop where
  balanced : checkBalanced s = .ok ()
  parts : ∃ name args names inside, Laid name args (some inside) s ∧ isIdentifier name = true ∧
    Option.Rel ListsArguments args names ∧ (∀ c ∈ inside, c ≠ '[' ∧ c ≠ ']') ∧
    allBlank inside = false ∧ (PhysicalUnit.readChecked (trim inside)).run = none

theorem Laid.infix {name inside : List Char} {args : Option (List Char)}
    (h : Laid name args (some inside) s) : inside <:+: s := by
  obtain @⟨w₁, w₂, w₃, w₄, -, -, -, -⟩ := h
  exact ⟨w₁ ++ (name ++ (w₂ ++ (delimited '(' ')' args ++ (w₃ ++ ['['])))), ']' :: w₄, by simp⟩

/-- The build stops because of a number that is too large. -/
theorem Stopped.excessive (h : Stopped s) : Excessive s := by
  obtain ⟨-, name, args, names, inside, hlaid, -, -, -, -, hstop⟩ := h
  rcases PhysicalUnit.readChecked_agrees (trim inside) with ⟨-, hover⟩ | hread
  · exact hover.mono ((infix_trim inside).trans hlaid.infix)
  · rw [hstop] at hread
    cases hread

/-- The reader of units in a build that checks its integers, within the reader of keys. -/
abbrev unitChecked (s : List Char) : Checked KeyError (Except UnitError PhysicalUnit) :=
  ExceptT.lift (PhysicalUnit.readChecked s).run

theorem readAnnotation_agrees (s : List Char) :
    Agrees (allBlank s = false ∧ (PhysicalUnit.readChecked (trim s)).run = none)
      (readAnnotationWith unitChecked s) ( readAnnotation s) := by
  unfold readAnnotation readAnnotationWith
  dsimp only
  split
  · exact agrees_lift _
  · rename_i hne
    have hblank : allBlank s = false := by
      rw [Bool.eq_false_iff, ne_eq, ← trim_eq_nil_iff, ← List.isEmpty_iff]
      exact hne
    have hunit : Agrees ((PhysicalUnit.readChecked (trim s)).run = none) (unitChecked (trim s))
        (.ok (PhysicalUnit.read (trim s))) := by
      rcases PhysicalUnit.readChecked_agrees (trim s) with ⟨h, -⟩ | h
      · exact .inl ⟨by simp [h], h⟩
      · exact .inr (by simp [h])
    refine (hunit.mono fun h => ⟨hblank, h⟩).bind fun u _ => ?_
    cases u with
    | ok u => exact agrees_pure _
    | error e => exact agrees_lift _

theorem readWith_agrees (s : List Char) : Agrees (Stopped s) (readWith unitChecked s) (read? s) := by
  unfold read? readWith
  refine (agrees_lift _).bind fun _ hbalanced => ?_
  cases hcut : cutParts s with
  | none => exact agrees_lift _
  | some parts =>
    obtain ⟨name, args, units⟩ := parts
    dsimp only
    split
    · exact agrees_lift _
    · rename_i hname
      refine (agrees_lift _).bind fun names hnames => ?_
      refine Agrees.bind (r := readPart readAnnotation units) ?_ fun annotation _ => agrees_pure _
      cases units with
      | none => exact agrees_pure _
      | some inside =>
        obtain ⟨hlaid, -, -, -, hinside⟩ := cutParts_eq_some_iff.mp hcut
        have hlists := (readPart_eq_ok_iff fun x _ y => readArgumentList_eq_ok_iff).mp hnames
        refine ((readAnnotation_agrees inside).mono fun ⟨hblank, hstop⟩ => ?_).bind
          fun a _ => agrees_pure _
        exact ⟨hbalanced, name, args, names, inside, hlaid, by simpa using hname, hlists,
          hinside inside rfl, hblank, hstop⟩

theorem Stopped.run_eq_none (h : Stopped s) : (readWith unitChecked s).run = none := by
  obtain ⟨hbalanced, name, args, names, inside, hlaid, hname, hlists, hinside, hblank, hstop⟩ := h
  have hcut := cutParts_of_read hlaid hname hlists (by simpa using hinside)
  have hnames : readPart readArgumentList args = .ok names :=
    (readPart_eq_ok_iff fun x _ y => readArgumentList_eq_ok_iff).mpr hlists
  have hnonempty : (trim inside).isEmpty = false := by
    rw [List.isEmpty_eq_false_iff, ne_eq, trim_eq_nil_iff, hblank]
    exact Bool.false_ne_true
  have hannotation : (readAnnotationWith unitChecked inside).run = none := by
    simp [readAnnotationWith, hnonempty, hstop]
  have hpart : (readPart (readAnnotationWith unitChecked) (some inside)).run = none := by
    simp [readPart, hannotation]
  simp [readWith, ExceptT.run_bind, hbalanced, hcut, hname, hnames, hpart]

variable {text : String}

/-- The build stops on a key just where its unit does. -/
theorem readChecked_eq_none_iff : readChecked text = none ↔ Stopped text.toList := by
  have hrun : readChecked text = (readWith unitChecked text.toList).run.map (quoting text) := rfl
  rw [hrun, Option.map_eq_none_iff]
  refine ⟨fun h => ?_, Stopped.run_eq_none⟩
  rcases readWith_agrees text.toList with ⟨-, hstop⟩ | hread
  · exact hstop
  · rw [h] at hread
    cases hread

/-- Where it does not stop the build has what wrapping integers give. -/
theorem readChecked_of_not_stopped (h : ¬ Stopped text.toList) :
    readChecked text = some (Key.read text) := by
  rcases readWith_agrees text.toList with ⟨-, hstop⟩ | hread
  · exact absurd hstop h
  · exact congrArg (Option.map (quoting text)) hread

end Key

end Formulary
