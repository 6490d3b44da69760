import Formulary.Proofs.Except
import Formulary.Proofs.Expr.Writing

/-!
What the reader accepts is derived, and so the reader accepts just the grammar.

## How the proof goes

The levels of the reader are followed from the inside out, each with the assumption that what is read
inside parentheses is derived (`DerivesInner`); an induction on the depth takes it away at the end. Where
the reader has cut a text, the pieces are derived at the next level, and joined again as the grammar joins
them: `derives_readPower` to the right, `derives_foldlM` to the left for sums and products alike.

What has to be carried down is what a cut leaves. `Uncut sep` says that a text is balanced and has no
separator outside parentheses; its pieces are uncut for the separator they were cut at and for all those
that the text was uncut for (`Uncut.cuts`). Trimming and stripping signs keep this as well.

## Why this is needed

A text has to be balanced for what is inside its parentheses to be balanced, and there is just one check,
of the whole. So each level has to give balance on to its pieces.

And slashes must not reach a token. The reader of numbers takes `1/2` for a quotient of two decimals, which
is no literal; so a token has to be known to be without one (`derives_readToken`). The product level has cut
at slashes, and powers and signs cut at other marks only, which is why `Uncut` is about two sets of
separators at once: the one that is being cut at, and the one that is kept in mind.

The second part writes an expression with every operand in parentheses. Its text is derived with its tree
(`writes_parenthesized`), and so it is read back, whatever binds tighter.
-/

namespace Formulary

open Formulary.Expr

variable {s t w v : List Char} {c : Char}

/-! ## Balanced text -/

namespace Expr

theorem closingDepth_cons (hopen : c ≠ '(') (hclose : c ≠ ')') (depth : Nat) :
    closingDepth depth (c :: s) = closingDepth depth s := by
  rw [closingDepth.eq_def]
  split
  · simp_all
  · simp_all
  · simp_all
  · simp_all
  · rename_i heq
    obtain ⟨rfl, rfl⟩ := List.cons.inj heq
    rfl

/-- Text that ends at the outermost depth is balanced; text that ends there from further inside
closes what is open first. -/
theorem balanced_of_closingDepth (n : Nat) : ∀ s : List Char, s.length ≤ n →
    (closingDepth 0 s = some 0 → Balanced s) ∧
      ∀ depth, closingDepth (depth + 1) s = some 0 →
        ∃ a b, s = a ++ ')' :: b ∧ Balanced a ∧ closingDepth depth b = some 0 := by
  induction n with
  | zero =>
    intro s hs
    obtain rfl : s = [] := List.eq_nil_of_length_eq_zero (by omega)
    refine ⟨fun _ => .nil, fun depth h => ?_⟩
    simp [closingDepth] at h
  | succ n ih =>
    intro s hs
    cases s with
    | nil =>
      refine ⟨fun _ => .nil, fun depth h => ?_⟩
      simp [closingDepth] at h
    | cons c s =>
      simp only [List.length_cons] at hs
      by_cases hopen : c = '('
      · subst hopen
        -- the group that opens here closes first
        have hgroup : ∀ depth, closingDepth depth ('(' :: s) = some 0 →
            ∃ a b, s = a ++ ')' :: b ∧ Balanced a ∧ closingDepth depth b = some 0 :=
          fun depth h => (ih s (by omega)).2 depth (by rwa [closingDepth] at h)
        refine ⟨fun h => ?_, fun depth h => ?_⟩
        · obtain ⟨a, b, rfl, ha, hb⟩ := hgroup 0 h
          simp only [List.length_append, List.length_cons] at hs
          exact .group ha ((ih b (by omega)).1 hb)
        · obtain ⟨a, b, rfl, ha, hb⟩ := hgroup (depth + 1) h
          simp only [List.length_append, List.length_cons] at hs
          obtain ⟨a', b', rfl, ha', hb'⟩ := (ih b (by omega)).2 depth hb
          exact ⟨'(' :: (a ++ ')' :: a'), b', by simp, .group ha ha', hb'⟩
      · by_cases hclose : c = ')'
        · subst hclose
          refine ⟨fun h => ?_, fun depth h => ?_⟩
          · simp [closingDepth] at h
          · exact ⟨[], s, rfl, .nil, by rwa [closingDepth] at h⟩
        · refine ⟨fun h => ?_, fun depth h => ?_⟩
          · rw [closingDepth_cons hopen hclose] at h
            exact .char hopen hclose ((ih s (by omega)).1 h)
          · rw [closingDepth_cons hopen hclose] at h
            obtain ⟨a, b, rfl, ha, hb⟩ := (ih s (by omega)).2 depth h
            exact ⟨c :: a, b, rfl, .char hopen hclose ha, hb⟩

theorem balanced_iff : Balanced s ↔ closingDepth 0 s = some 0 :=
  ⟨fun h => by simpa [closingDepth] using closingDepth_append h 0 [],
    (balanced_of_closingDepth _ s (Nat.le_refl _)).1⟩

/-- What a cut at the closing parenthesis leaves inside. -/
theorem cutClose_eq_some {depth : Nat} {a b : List Char} (h : cutClose depth s = some (a, b)) :
    s = a ++ ')' :: b ∧ closingDepth depth a = some 0 := by
  fun_induction cutClose depth s generalizing a with
  | case1 => cases h
  | case2 r =>
    cases h
    exact ⟨rfl, rfl⟩
  | case3 depth r ih | case4 depth r ih =>
    obtain ⟨a, hr, rfl⟩ := map_cons_eq_some.mp h
    obtain ⟨rfl, ha⟩ := ih hr
    exact ⟨rfl, by rwa [closingDepth]⟩
  | case5 depth c r hzero hsucc hopen ih =>
    obtain ⟨a, hr, rfl⟩ := map_cons_eq_some.mp h
    obtain ⟨rfl, ha⟩ := ih hr
    have hclose : c ≠ ')' := fun hc => by
      cases depth with
      | zero => exact hzero rfl hc
      | succ depth => exact hsucc depth rfl hc
    exact ⟨rfl, by rwa [closingDepth_cons hopen hclose]⟩

end Expr

/-! ## Text without separators -/

/-- Balanced text with no separator outside all parentheses. -/
inductive Uncut (sep : Char → Bool) : List Char → Prop where
  | nil : Uncut sep []
  | char {c : Char} {s : List Char} (hopen : c ≠ '(') (hclose : c ≠ ')') (hc : sep c = false)
    (h : Uncut sep s) : Uncut sep (c :: s)
  | group {s t : List Char} (hs : Balanced s) (ht : Uncut sep t) : Uncut sep ('(' :: (s ++ ')' :: t))

namespace Uncut

variable {sep k : Char → Bool}

theorem balanced (h : Uncut sep s) : Balanced s := by
  induction h with
  | nil => exact .nil
  | char hopen hclose _ _ ih => exact .char hopen hclose ih
  | group hs _ ih => exact .group hs ih

theorem mono (h : Uncut sep s) (hsep : ∀ c, k c = true → sep c = true) : Uncut k s := by
  induction h with
  | nil => exact .nil
  | char hopen hclose hc _ ih =>
    refine .char hopen hclose ?_ ih
    rw [Bool.eq_false_iff] at hc ⊢
    exact fun h => hc (hsep _ h)
  | group hs _ ih => exact .group hs ih

/-- Without parentheses no separator is left at all. -/
theorem sep_eq_false (h : Uncut sep s) (hs : ∀ c ∈ s, c ≠ '(') : ∀ c ∈ s, sep c = false := by
  induction h with
  | nil => simp
  | char _ _ hc _ ih =>
    intro d hd
    rcases List.mem_cons.mp hd with rfl | hd
    · exact hc
    · exact ih (fun x hx => hs x (by simp [hx])) d hd
  | group => exact absurd rfl (hs '(' (by simp))

theorem of_cons (h : Uncut sep (c :: s)) (hopen : c ≠ '(') : Uncut sep s := by
  cases h with
  | char _ _ _ h => exact h
  | group => exact absurd rfl hopen

/-- Text before a piece without parentheses. -/
theorem of_append_left (h : Uncut sep (s ++ t)) (ht : ∀ c ∈ t, c ≠ ')') : Uncut sep s := by
  generalize hu : s ++ t = u at h
  induction h generalizing s with
  | nil =>
    obtain ⟨rfl, -⟩ := List.append_eq_nil_iff.mp hu
    exact .nil
  | char hopen hclose hc _ ih =>
    cases s with
    | nil => exact .nil
    | cons d s =>
      obtain ⟨rfl, hs⟩ := List.cons.inj hu
      exact .char hopen hclose hc (ih hs)
  | @group a b ha hb ih =>
    cases s with
    | nil => exact .nil
    | cons d s =>
      obtain ⟨rfl, hs⟩ := List.cons.inj hu
      rcases List.append_eq_append_iff.mp hs with ⟨x, rfl, hx⟩ | ⟨x, rfl, hx⟩
      · exact absurd rfl (ht ')' (by rw [hx]; simp))
      · cases x with
        | nil => exact absurd rfl (ht ')' (by simp at hx; simp [← hx]))
        | cons d x =>
          obtain ⟨rfl, rfl⟩ := List.cons.inj hx
          exact .group ha (ih rfl)

theorem of_append_right (h : Uncut sep (s ++ t)) (hs : ∀ c ∈ s, c ≠ '(') : Uncut sep t := by
  induction s with
  | nil => exact h
  | cons c s ih => exact ih (h.of_cons (hs c (by simp))) fun d hd => hs d (by simp [hd])

theorem trim (h : Uncut sep s) : Uncut sep (trim s) := by
  obtain ⟨w, v, hsplit, hw, hv⟩ := exists_blanks_trim s
  rw [hsplit] at h
  refine (h.of_append_left fun c hc => ?_).of_append_right fun c hc => ?_
  · exact (ne_parens_of_isBlank (List.all_eq_true.mp hv c hc)).2
  · exact (ne_parens_of_isBlank (List.all_eq_true.mp hw c hc)).1

end Uncut

theorem Balanced.uncut (h : Balanced s) : Uncut (fun _ => false) s := by
  induction h with
  | nil => exact .nil
  | char hopen hclose _ ih => exact .char hopen hclose rfl ih
  | group hs _ _ ih => exact .group hs ih

/-- What cutting text at its separators leaves: pieces that join to the text, without the separators
that it had none of and without those that separate wherever they stand. -/
structure Cuts (separates : List Char → Char → Bool) (sep : Char → Bool) (s first : List Char)
    (more : List (Char × List Char)) : Prop where
  joins : s = first ++ chainText more
  first : Uncut sep first
  more : ∀ p ∈ more, (∃ passed, separates passed p.1 = true) ∧ Uncut sep p.2

theorem Uncut.cuts_cutTop {separates : List Char → Char → Bool} {sep k : Char → Bool} (h : Uncut sep s)
    (hsep : ∀ c, k c = true → sep c = true ∨ ∀ passed, separates passed c = true) :
    ∀ passed, Cuts separates k s (cutTop separates passed 0 s).1 (cutTop separates passed 0 s).2 := by
  induction h with
  | nil => exact fun passed => ⟨rfl, .nil, by simp [cutTop]⟩
  | @char c s hopen hclose hc _ ih =>
    intro passed
    obtain ⟨hjoins, hfirst, hmore⟩ := ih (c :: passed)
    have hstep : (0 : Int) + depthStep c = 0 := by simp [depthStep, hopen, hclose]
    by_cases hcut : separates passed c = true
    · have heq : cutTop separates passed 0 (c :: s) =
          ([], (c, (cutTop separates (c :: passed) 0 s).1) :: (cutTop separates (c :: passed) 0 s).2) := by
        rw [cutTop, hstep]
        simp [hopen, hclose, hcut]
      rw [heq]
      refine ⟨by simpa [chainText] using hjoins, .nil, fun p hp => ?_⟩
      rcases List.mem_cons.mp hp with rfl | hp
      · exact ⟨⟨passed, hcut⟩, hfirst⟩
      · exact hmore p hp
    · have heq : cutTop separates passed 0 (c :: s) =
          (c :: (cutTop separates (c :: passed) 0 s).1, (cutTop separates (c :: passed) 0 s).2) := by
        rw [cutTop, hstep]
        simp [hcut]
      have hfree : k c = false := by
        rw [Bool.eq_false_iff]
        intro hs
        rcases hsep c hs with hs | hs
        · rw [hc] at hs
          cases hs
        · exact hcut (hs passed)
      rw [heq]
      exact ⟨by rw [List.cons_append, ← hjoins], .char hopen hclose hfree hfirst, hmore⟩
  | @group s t hs _ ih =>
    intro passed
    have hinside : Passes separates (0 + 1) ('(' :: passed) s := hs.passes (by omega)
    obtain ⟨hjoins, hfirst, hmore⟩ := ih (')' :: (s.reverse ++ '(' :: passed))
    rw [cutTop_open, hinside, cutTop_close]
    exact ⟨by simp [← hjoins], .group hs hfirst, hmore⟩

theorem Uncut.cuts {separates : List Char → Char → Bool} {sep k : Char → Bool}
    {passed first : List Char} {more : List (Char × List Char)} (h : Uncut sep s)
    (hsep : ∀ c, k c = true → sep c = true ∨ ∀ passed, separates passed c = true)
    (hcut : cutTop separates passed 0 s = (first, more)) : Cuts separates k s first more := by
  have hcuts := h.cuts_cutTop hsep passed
  rwa [hcut] at hcuts

/-! ## Levels -/

namespace Expr

variable {inner : List Char → Except ExprError Expr} {e : Expr}

/-- What is read inside parentheses is derived. -/
def DerivesInner (inner : List Char → Except ExprError Expr) : Prop :=
  ∀ t e, Balanced t → inner t = .ok e → Derives .sum t e

/-- Slashes separate. -/
abbrev isSlash (c : Char) : Bool := c == '/'

/-- A token without a slash that is read is a literal or a name. -/
theorem derives_readToken (h : readToken s = .ok e) (htrim : trim s = s) (hs : Uncut isSlash s)
    (hopen : ∀ c ∈ s, c ≠ '(') : Derives .primary s e := by
  have hslash : ∀ c ∈ s, c ≠ '/' := fun c hc => by simpa using hs.sep_eq_false hopen c hc
  cases s with
  | nil => cases h
  | cons c r =>
    simp only [readToken] at h
    split at h
    · rename_i hstart
      cases hq : Exact.read (c :: r) with
      | error f => rw [hq] at h; cases h
      | ok q =>
        rw [hq] at h
        cases h
        exact .literal ((Exact.read_eq_ok htrim hslash ⟨c, r, rfl, hstart⟩).mp hq)
    · split at h
      · rename_i hname
        cases h
        exact .name hname
      · cases h

/-- The trees that the parts are read as belong to them one by one. -/
theorem exists_of_mapM_inner : ∀ {parts : List (List Char)} {es : List Expr},
    parts.mapM inner = .ok es → ∃ args : List (List Char × Expr),
      args.map Prod.fst = parts ∧ args.map Prod.snd = es ∧ ∀ a ∈ args, inner a.1 = .ok a.2
  | [], es, h => by
      cases h
      exact ⟨[], rfl, rfl, by simp⟩
  | s :: parts, es, h => by
      rw [List.mapM_cons] at h
      obtain ⟨e, hs, h⟩ := Except.bind_eq_ok.mp h
      obtain ⟨es', hparts, h⟩ := Except.bind_eq_ok.mp h
      cases h
      obtain ⟨args, rfl, rfl, hargs⟩ := exists_of_mapM_inner hparts
      exact ⟨(s, e) :: args, rfl, rfl, List.forall_mem_cons.mpr ⟨hs, hargs⟩⟩

/-- The parts of balanced text with commas between them are the text, and each is balanced. -/
theorem commaText_partsTop (ht : Balanced t) :
    commaText (partsTop [','] t) = t ∧ ∀ part ∈ partsTop [','] t, Balanced part := by
  obtain ⟨first, more, hcut⟩ : ∃ first more,
      cutTop (fun _ c => [','].contains c) [] 0 t = (first, more) := ⟨_, _, rfl⟩
  have hcuts := ht.uncut.cuts (k := fun _ => false) (by simp) hcut
  have hcommas : (more.map Prod.snd).map (fun t => (',', t)) = more := by
    rw [List.map_map]
    refine (List.map_congr_left fun p hp => ?_).trans (List.map_id _)
    obtain ⟨⟨passed, hcomma⟩, -⟩ := hcuts.more p hp
    obtain ⟨d, part⟩ := p
    obtain rfl : d = ',' := by simpa using hcomma
    rfl
  rw [partsTop, hcut]
  refine ⟨by rw [commaText, hcommas, ← hcuts.joins], fun part hpart => ?_⟩
  rcases List.mem_cons.mp hpart with rfl | hpart
  · exact hcuts.first.balanced
  · obtain ⟨p, hp, rfl⟩ := List.mem_map.mp hpart
    exact (hcuts.more p hp).2.balanced

/-- A name and a group whose inside is read as arguments are a call. -/
theorem derives_readArgs {es : List Expr} (hin : DerivesInner inner)
    (hs : isIdentifier (trim s) = true) (ht : Balanced t) (h : readArgs inner t = .ok es) :
    Derives .primary (s ++ '(' :: (t ++ [')'])) (.call (String.ofList (trim s)) es) := by
  obtain ⟨w, v, hsplit, hw, hv⟩ := exists_blanks_trim s
  have hspaced : s ++ '(' :: (t ++ [')']) = w ++ (trim s ++ v ++ '(' :: (t ++ [')'])) ++ [] := by
    conv_lhs => rw [hsplit]
    simp
  rw [hspaced]
  refine .padded hw rfl ?_
  rw [readArgs] at h
  split at h
  · rename_i hblank
    cases h
    exact .callEmpty hs hv hblank
  · obtain ⟨args, hparts, rfl, hargs⟩ := exists_of_mapM_inner h
    obtain ⟨htext, hbalanced⟩ := commaText_partsTop ht
    rw [← hparts] at htext hbalanced
    rw [← htext]
    refine .call hs hv ?_ fun a ha =>
      hin a.1 a.2 (hbalanced a.1 (List.mem_map_of_mem ha)) (hargs a ha)
    rintro rfl
    cases hparts

theorem derives_readPrimary (hin : DerivesInner inner) (h : readPrimary inner s = .ok e)
    (hs : Uncut isSlash s) : Derives .primary s e := by
  obtain ⟨w, v, hsplit, hw, hv⟩ := exists_blanks_trim s
  rw [hsplit]
  refine .padded hw hv ?_
  simp only [readPrimary] at h
  split at h
  · rename_i hopen
    exact derives_readToken h (trim_trim s) hs.trim (cutOnce_eq_none hopen)
  · rename_i before after hopen
    obtain ⟨htext, -⟩ := cutOnce_eq_some hopen
    rw [htext]
    split at h
    · rename_i inside hclose
      obtain ⟨rfl, hinside⟩ := cutClose_eq_some hclose
      exact .group (hin inside e (balanced_iff.mpr hinside) h)
    · split at h
      · cases h
      rename_i hname
      split at h
      · rename_i inside hclose
        obtain ⟨rfl, hinside⟩ := cutClose_eq_some hclose
        cases hargs : readArgs inner inside with
        | error f => rw [hargs] at h; cases h
        | ok es =>
          rw [hargs] at h
          cases h
          exact derives_readArgs hin (by simpa using hname) (balanced_iff.mpr hinside) hargs
      · cases h

/-! ### Powers and signs -/

/-- Signs that are stripped from a text are signs of what it begins. -/
theorem derives_stripSigns (h : Derives .signed ((stripSigns s).2 ++ t) e) :
    Derives .signed (s ++ t) (negate (stripSigns s).1 e) := by
  induction s generalizing e with
  | nil => exact h
  | cons c s ih =>
    rw [stripSigns] at h ⊢
    split at h
    · rename_i hskip
      rw [if_pos hskip]
      rcases (Bool.or_eq_true _ _).mp hskip with hb | hplus
      · simpa using (ih h).pad (w := [c]) (v := []) (by simpa [allBlank] using hb) rfl
      · obtain rfl : c = '+' := by simpa using hplus
        exact .plus (w := []) rfl (ih h)
    · rename_i hskip
      rw [if_neg hskip]
      split at h
      · rename_i hminus
        obtain rfl : c = '-' := by simpa using hminus
        rw [if_pos hminus]
        exact .minus (w := []) rfl (ih h)
      · rename_i hminus
        rw [if_neg hminus]
        exact h

theorem uncut_stripSigns {sep : Char → Bool} (h : Uncut sep s) : Uncut sep (stripSigns s).2 := by
  induction s with
  | nil => exact h
  | cons c s ih =>
    rw [stripSigns]
    split
    · rename_i hskip
      exact ih (h.of_cons (by rintro rfl; revert hskip; decide))
    · split
      · rename_i hminus
        exact ih (h.of_cons (by rintro rfl; revert hminus; decide))
      · exact h

/-- Parts between power signs that are read are a power. -/
theorem derives_readPower (hin : DerivesInner inner) :
    ∀ {more : List (Char × List Char)} {s : List Char} {e : Expr},
      readPower inner s more = .ok e → Uncut isSlash s →
      (∀ p ∈ more, p.1 = '^' ∧ Uncut isSlash p.2) → Derives .power (s ++ chainText more) e
  | [], s, e, h, hs, _ => by
      simpa [chainText] using Derives.operand (l := .power) (derives_readPrimary hin h hs)
  | (c, t) :: more, s, e, h, hs, hmore => by
      obtain ⟨rfl, ht⟩ := hmore (c, t) (by simp)
      rw [readPower] at h
      split at h
      · cases h
      obtain ⟨base, hbase, h⟩ := Except.bind_eq_ok.mp h
      obtain ⟨exponent, hexponent, h⟩ := Except.bind_eq_ok.mp h
      cases h
      have hrest := derives_readPower hin hexponent (uncut_stripSigns ht)
        fun p hp => hmore p (List.mem_cons_of_mem _ hp)
      exact .power (derives_readPrimary hin hbase hs) (derives_stripSigns (.operand hrest))

theorem derives_readSigned (hin : DerivesInner inner) (h : readSigned inner s = .ok e)
    (hs : Uncut isSlash s) : Derives .signed s e := by
  obtain ⟨first, more, hcut⟩ : ∃ first more,
      cutTop (fun _ c => c == '^') [] 0 (stripSigns s).2 = (first, more) := ⟨_, _, rfl⟩
  simp only [readSigned, hcut] at h
  obtain ⟨a, ha, rfl⟩ := Except.map_eq_ok.mp h
  have hcuts := (uncut_stripSigns hs).cuts (k := isSlash) (fun c hc => .inl hc) hcut
  have hpower : Derives .power (stripSigns s).2 a := by
    rw [hcuts.joins]
    refine derives_readPower hin ha hcuts.first fun p hp => ?_
    obtain ⟨⟨_, hmark⟩, hp⟩ := hcuts.more p hp
    exact ⟨by simpa using hmark, hp⟩
  simpa using derives_stripSigns (t := []) (by simpa using Derives.operand (l := .signed) hpower)

/-! ### Chains -/

/-- Operands read from left to right are a chain of the level. -/
theorem derives_foldlM {l : Level} {read : List Char → Except ExprError Expr} {o : Char → BinaryOp} :
    ∀ {more : List (Char × List Char)} {s : List Char} {a e : Expr},
      more.foldlM (fun acc (p : Char × List Char) => return .binary (o p.1) acc (← read p.2)) a =
        .ok e → Derives l s a →
      (∀ p ∈ more, l.operation? p.1 = some (o p.1) ∧
        ∀ b, read p.2 = .ok b → Derives l.next p.2 b) → Derives l (s ++ chainText more) e
  | [], s, a, e, h, hs, _ => by
      cases h
      simpa [chainText] using hs
  | p :: more, s, a, e, h, hs, hmore => by
      obtain ⟨hop, hread⟩ := hmore p (by simp)
      rw [List.foldlM_cons] at h
      obtain ⟨acc, hacc, h⟩ := Except.bind_eq_ok.mp h
      obtain ⟨b, hb, hacc⟩ := Except.bind_eq_ok.mp hacc
      cases hacc
      have hrest := derives_foldlM h (.operation hop hs (hread b hb))
        fun q hq => hmore q (List.mem_cons_of_mem _ hq)
      simpa [chainText] using hrest

theorem derives_readProduct (hin : DerivesInner inner) (h : readProduct inner s = .ok e)
    (hs : Balanced s) : Derives .product s e := by
  obtain ⟨first, more, hcut⟩ : ∃ first more,
      cutTop (fun _ c => c == '*' || c == '/') [] 0 s = (first, more) := ⟨_, _, rfl⟩
  have hcuts := hs.uncut.cuts (k := isSlash) (fun c hc => .inr fun _ => by simp [hc]) hcut
  simp only [readProduct, hcut] at h
  split at h
  · cases h
  obtain ⟨head, hhead, h⟩ := Except.bind_eq_ok.mp h
  rw [hcuts.joins]
  refine derives_foldlM (o := fun c => if c == '*' then .mul else .div) h
    (.operand (l := .product) (derives_readSigned hin hhead hcuts.first)) fun p hp => ?_
  obtain ⟨⟨_, hmark⟩, hpiece⟩ := hcuts.more p hp
  refine ⟨?_, fun b hb => derives_readSigned hin hb hpiece⟩
  rcases (Bool.or_eq_true _ _).mp hmark with hc | hc
  · simp [eq_of_beq hc, Level.operation?]
  · simp [eq_of_beq hc, Level.operation?]

theorem derives_readSum (hin : DerivesInner inner) (h : readSum inner s = .ok e)
    (hs : Balanced s) : Derives .sum s e := by
  obtain ⟨w, v, hsplit, hw, hv⟩ := exists_blanks_trim s
  obtain ⟨first, more, hcut⟩ : ∃ first more,
      cutTop isJoiningSign [] 0 (trim s) = (first, more) := ⟨_, _, rfl⟩
  have hcuts := hs.uncut.trim.cuts (k := fun _ => false) (by simp) hcut
  simp only [readSum, hcut] at h
  split at h
  · cases h
  split at h
  · cases h
  obtain ⟨head, hhead, h⟩ := Except.bind_eq_ok.mp h
  rw [hsplit]
  refine Derives.pad ?_ hw hv
  rw [hcuts.joins]
  refine derives_foldlM (o := fun c => if c == '+' then .add else .sub) h
    (.operand (l := .sum) (derives_readProduct hin hhead hcuts.first.balanced)) fun p hp => ?_
  obtain ⟨⟨_, hmark⟩, hpiece⟩ := hcuts.more p hp
  refine ⟨?_, fun b hb => derives_readProduct hin hb hpiece.balanced⟩
  simp only [isJoiningSign, Bool.and_eq_true, Bool.or_eq_true, beq_iff_eq] at hmark
  rcases hmark.1 with hc | hc
  · simp [hc, Level.operation?]
  · simp [hc, Level.operation?]

/-! ## The grammar -/

theorem derives_readNested : ∀ depth, DerivesInner (readNested depth)
  | 0, _, _, _, h => by cases h
  | depth + 1, _, _, hs, h => derives_readSum (derives_readNested depth) h hs

/-- The reader accepts just the texts of the grammar, each as its tree. -/
theorem read?_eq_ok : read? s = .ok e ↔ Derives .sum (caretPowers s) e := by
  refine ⟨fun h => ?_, read?_of_derives⟩
  obtain ⟨_, hparens, h⟩ := Except.bind_eq_ok.mp h
  refine derives_readNested _ _ _ (balanced_iff.mpr ?_) h
  unfold checkParens at hparens
  split at hparens
  · cases hparens
  · assumption
  · cases hparens

end Expr

/-- A text has at most one tree. -/
theorem Derives.unique {e e' : Expr} (h : Derives .sum s e) (h' : Derives .sum s e') : e = e' :=
  Except.ok.inj ((readNested_eq (Nat.lt_succ_self _) h).symm.trans
    (readNested_eq (Nat.lt_succ_self _) h'))

/-! ## Texts with every operand in parentheses -/

/-- The sign of an operation. -/
def BinaryOp.sign : BinaryOp → String
  | add => "+"
  | sub => "-"
  | mul => "*"
  | div => "/"
  | pow => "**"

namespace Expr

variable (numeral : Rat → String)

mutual

/-- The text with every operand in parentheses; `numeral` writes the numbers. -/
def parenthesized : Expr → String
  | .number q => numeral q
  | .symbol name => name
  | .binary op l r => "(" ++ parenthesized l ++ ")" ++ op.sign ++ ("(" ++ parenthesized r ++ ")")
  | .neg e => "-" ++ ("(" ++ parenthesized e ++ ")")
  | .call name args => name ++ "(" ++ joinWith ", " (parenthesizedAll args) ++ ")"

/-- The texts of a list of expressions. -/
def parenthesizedAll : List Expr → List String
  | [] => []
  | e :: es => parenthesized e :: parenthesizedAll es

end

mutual

/-- The names are identifiers, and literals are written for the numbers. -/
def Spelled : Expr → Prop
  | .number q => Exact.Literal (numeral q).toList q
  | .symbol name => isIdentifier name.toList = true
  | .binary _ l r => Spelled l ∧ Spelled r
  | .neg e => Spelled e
  | .call name args => isIdentifier name.toList = true ∧ SpelledAll args

/-- `Spelled` for each expression of a list. -/
def SpelledAll : List Expr → Prop
  | [] => True
  | e :: es => Spelled e ∧ SpelledAll es

end

variable {numeral}

theorem parenthesizedAll_eq_map (es : List Expr) :
    parenthesizedAll numeral es = es.map (parenthesized numeral) := by
  induction es with
  | nil => rfl
  | cons e es ih => rw [parenthesizedAll, ih, List.map_cons]

mutual

theorem writes_parenthesized : ∀ {e : Expr}, e.Spelled numeral →
    Writes (e.parenthesized numeral) .sum e
  | .number _, h => (Writes.literal h).of_primary
  | .symbol _, h => (Writes.name h).of_primary
  | .binary op l r, h => by
      have hl := (writes_parenthesized h.1).parens
      have hr := (writes_parenthesized h.2).parens
      cases op with
      | add => exact hl.of_primary.add hr.of_primary
      | sub => exact hl.of_primary.sub hr.of_primary
      | mul => exact (hl.of_primary.mul hr.of_primary).operand
      | div => exact (hl.of_primary.div hr.of_primary).operand
      | pow => exact (hl.power hr.of_primary).signed.operand.operand
  | .neg e, h => by
      have he : e.Spelled numeral := h
      exact (writes_parenthesized he).parens.of_primary.minus.operand.operand
  | .call name args, h => by
      rw [parenthesized, parenthesizedAll_eq_map]
      have hargs : ∀ p ∈ args.map fun e => (e.parenthesized numeral, e), Writes p.1 .sum p.2 := by
        intro p hp
        obtain ⟨e, he, rfl⟩ := List.mem_map.mp hp
        exact writes_parenthesizedAll h.2 e he
      have hcall := (Writes.call h.1 hargs).of_primary (l := .sum)
      rw [List.map_map, List.map_map] at hcall
      simpa [Function.comp_def] using hcall

theorem writes_parenthesizedAll : ∀ {es : List Expr}, SpelledAll numeral es →
    ∀ e ∈ es, Writes (e.parenthesized numeral) .sum e
  | [], _ => by simp
  | _ :: _, h => List.forall_mem_cons.mpr ⟨writes_parenthesized h.1, writes_parenthesizedAll h.2⟩

end

/-- What is read is what the grammar derives, each text has at most one tree, every other text is
refused as a fault of parsing, and an expression written with every operand in parentheses is read
back. The last part says which numerals are literals: of those that fit in memory, all whose net
exponent is within the limit. -/
theorem read_iff_derives (text : String) :
    (∀ e, read text = .ok e ↔ Derives .sum (caretPowers text.toList) e) ∧
      (∀ e e', Derives .sum (caretPowers text.toList) e →
        Derives .sum (caretPowers text.toList) e' → e = e') ∧
      ((∀ e, ¬ Derives .sum (caretPowers text.toList) e) →
        ∃ f, read text = .error f ∧ f.code = "PARSE_ERROR") ∧
      (∀ (numeral : Rat → String) (e : Expr), e.Spelled numeral →
        text = e.parenthesized numeral → read text = .ok e) ∧
      ∀ s n places z, Exact.Numeral s n places z → s.length < 2 ^ 62 →
        (z - places).natAbs ≤ Exact.exponentLimit → Exact.Literal s (n * 10 ^ (z - places)) := by
  have hread : ∀ e, read text = .ok e ↔ Derives .sum (caretPowers text.toList) e := by
    intro e
    rw [← read?_eq_ok, read]
    cases read? text.toList <;> simp
  refine ⟨hread, fun e e' h h' => h.unique h', fun hnone => ?_, fun numeral e he htext => ?_,
    fun s n places z h hlen hlimit => h.literal hlimit hlen⟩
  · rw [read]
    cases h : read? text.toList with
    | ok e => exact absurd (read?_eq_ok.mp h) (hnone e)
    | error f => exact ⟨_, rfl, rfl⟩
  · rw [hread, htext]
    exact writes_parenthesized he

theorem read_negated_power :
    read "-((2)**(x))" = .ok (.neg (.binary .pow (.number 2) (.symbol "x"))) ∧
      ∃ f, read "2 x" = .error f ∧ f.code = "PARSE_ERROR" := by
  constructor
  · refine (read_iff_derives _).2.2.2.1 (fun q => toString q.num) _ ⟨?_, ?_⟩ ?_
    · exact Exact.literal_natural 2
    · rfl
    · decide
  · refine (read_iff_derives _).2.2.1 fun e h => ?_
    cases ((read_iff_derives "2 x").1 e).mpr h

end Expr

end Formulary
