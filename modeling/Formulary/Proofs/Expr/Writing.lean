import Formulary.Proofs.Expr.Reading

/-!
Writing texts of the grammar.

`Writes` says that a text, once each `**` in it is read as `^`, is derived at a level with a tree.
Texts that are written so can be put together as the grammar puts texts together: in parentheses, in
calls, in powers and in chains.

## How the proof goes

Replacing the stars has to go piece by piece. It does if no star of one piece meets a star of the next
(`caretPowers_append`), and that is so because a derived text neither begins nor ends with a star: it
begins with a token, a sign or a parenthesis (`Derives.startsWell`), and it does not end in an operator
(`Derives.endsWell`). Both are shown of the text after the replacement, and a star at its end would have
stayed a star or become a caret, either of them an operator.

Then each rule of the grammar is one for `Writes`, with strings in the place of lists of characters.

## Sums without parentheses

A sum that is written after a sign without parentheses is no operand there: its first term takes the sign,
and the others join the sum on the outside. `SumChain` is a text that is derived as a sum of given terms,
each with its sign, and `SumChain.append` says just what such a text becomes. So the tree that is read is
known also where it is not the tree that was written.
-/

namespace Formulary

open Formulary.Expr

variable {l : Level} {s t w v : List Char} {e : Expr} {c : Char}

/-! ## Derived texts -/

/-- Blanks may stand around every derived text. -/
theorem Derives.pad (h : Derives l s e) (hw : allBlank w = true) (hv : allBlank v = true) :
    Derives l (w ++ s ++ v) e := by
  induction h generalizing w v with
  | literal h => exact .padded hw hv (.literal h)
  | name h => exact .padded hw hv (.name h)
  | callEmpty hs hb hi => exact .padded hw hv (.callEmpty hs hb hi)
  | call hs hb hne h _ => exact .padded hw hv (.call hs hb hne h)
  | group h _ => exact .padded hw hv (.group h)
  | padded hb hb' h _ => exact .padded hw hv (.padded hb hb' h)
  | power _ _ ihs iht => simpa using Derives.power (ihs hw (v := []) rfl) (iht (w := []) rfl hv)
  | @minus s b e hb _ ih =>
    have hwb : allBlank (w ++ b) = true := by simp [allBlank_append, hw, hb]
    simpa using Derives.minus hwb (ih (w := []) rfl hv)
  | @plus s b e hb _ ih =>
    have hwb : allBlank (w ++ b) = true := by simp [allBlank_append, hw, hb]
    simpa using Derives.plus hwb (ih (w := []) rfl hv)
  | operation hop _ _ ihs iht =>
    simpa using Derives.operation hop (ihs hw (v := []) rfl) (iht (w := []) rfl hv)
  | operand _ ih => exact .operand (ih hw hv)

/-- The text begins with something else than a star or a power sign. -/
def StartsWell (s : List Char) : Prop := ∃ c r, s = c :: r ∧ c ≠ '*' ∧ c ≠ '^'

theorem StartsWell.append (h : StartsWell s) (t : List Char) : StartsWell (s ++ t) := by
  obtain ⟨c, r, rfl, hc⟩ := h
  exact ⟨c, r ++ t, rfl, hc⟩

theorem startsWell_blanks (hw : allBlank w = true) (h : StartsWell s) : StartsWell (w ++ s) := by
  cases w with
  | nil => exact h
  | cons c w =>
    have hb : isBlank c = true := List.all_eq_true.mp hw c (by simp)
    have hc := not_mem_marks_of_isBlank hb
    exact ⟨c, w ++ s, rfl, fun h => hc (h ▸ by decide), fun h => hc (h ▸ by decide)⟩

theorem startsWell_identifier (h : isIdentifier s = true) : StartsWell s := by
  cases s with
  | nil => cases h
  | cons c s =>
    have hc := not_mem_marks_of_isTokenChar (isTokenChar_of_isIdentifier h c (by simp))
    exact ⟨c, s, rfl, fun h => hc (h ▸ by decide), fun h => hc (h ▸ by decide)⟩

theorem Derives.startsWell (h : Derives l s e) : StartsWell s := by
  induction h with
  | literal h =>
    obtain ⟨c, r, rfl, hc⟩ := h.startsLiteral
    refine ⟨c, r, rfl, ?_, ?_⟩ <;> rintro rfl <;> exact absurd hc (by decide)
  | name h => exact startsWell_identifier h
  | callEmpty hs => exact ((startsWell_identifier hs).append _).append _
  | call hs => exact ((startsWell_identifier hs).append _).append _
  | group => exact ⟨'(', _, rfl, by decide, by decide⟩
  | padded hw _ _ ih => exact (startsWell_blanks hw ih).append _
  | power _ _ ih _ => exact ih.append _
  | minus hw => exact startsWell_blanks hw ⟨'-', _, rfl, by decide, by decide⟩
  | plus hw => exact startsWell_blanks hw ⟨'+', _, rfl, by decide, by decide⟩
  | operation _ _ _ ih _ => exact ih.append _
  | operand _ ih => exact ih

/-- A derived text ends in something else than an operator. -/
theorem Derives.endsWell (h : Derives l (s ++ [c]) e) : operandOpeners.contains c = false := by
  obtain ⟨d, r, hd, hopen, -⟩ := (h.scan operandStart_nil).2
  cases hb : isBlank c with
  | true =>
    rw [Bool.eq_false_iff]
    exact fun ho => not_mem_marks_of_isBlank hb (mem_marks_of_opener ho)
  | false =>
    simp only [List.reverse_append, List.reverse_singleton, List.cons_append, List.nil_append,
      List.append_nil, List.dropWhile_cons, hb, Bool.false_eq_true, if_false] at hd
    rw [(List.cons.inj hd).1]
    exact hopen

/-! ## Power signs -/

theorem caretPowers_cons (h : c ≠ '*') : caretPowers (c :: s) = c :: caretPowers s := by
  rw [caretPowers.eq_def]
  split
  · rename_i heq
    exact absurd (List.cons.inj heq).1 h
  · rename_i heq
    obtain ⟨rfl, rfl⟩ := List.cons.inj heq
    rfl
  · rename_i heq
    cases heq

/-- A lone star stays. -/
theorem caretPowers_star (h : s.head? ≠ some '*') : caretPowers ('*' :: s) = '*' :: caretPowers s := by
  cases s with
  | nil => rfl
  | cons c s =>
    have hc : c ≠ '*' := by simpa using h
    rw [caretPowers.eq_def]
    split
    · rename_i heq
      simp only [List.cons.injEq] at heq
      exact absurd heq.2.1 hc
    · rename_i heq
      obtain ⟨rfl, rfl⟩ := List.cons.inj heq
      rfl
    · rename_i heq
      cases heq

theorem caretPowers_append (hs : s.getLast? ≠ some '*') :
    caretPowers (s ++ t) = caretPowers s ++ caretPowers t := by
  fun_induction caretPowers s with
  | case1 r ih =>
    cases r with
    | nil => simp at hs
    | cons d r =>
      have hr : (d :: r).getLast? ≠ some '*' := by simpa using hs
      simpa [caretPowers] using ih hr
  | case2 c r hne ih =>
    cases r with
    | nil =>
      have hc : c ≠ '*' := by simpa using hs
      simp [caretPowers_cons hc, caretPowers]
    | cons d r =>
      have hr : (d :: r).getLast? ≠ some '*' := by simpa using hs
      by_cases hc : c = '*'
      · subst hc
        have hd : d ≠ '*' := by
          rintro rfl
          exact hne r rfl rfl
        have hhead : (d :: r ++ t).head? ≠ some '*' := by simpa using hd
        rw [List.cons_append, caretPowers_star hhead, ih hr, List.cons_append]
      · rw [List.cons_append, caretPowers_cons hc, ih hr, List.cons_append]
  | case3 => rfl

theorem caretPowers_of_not_mem (h : '*' ∉ s) : caretPowers s = s := by
  induction s with
  | nil => rfl
  | cons c s ih =>
    have hc : c ≠ '*' := by
      rintro rfl
      exact h (by simp)
    rw [caretPowers_cons hc, ih fun hs => h (by simp [hs])]

/-- Text that ends in a star still ends in an operator. -/
theorem caretPowers_concat_star : ∀ s : List Char, ∃ r c,
    caretPowers (s ++ ['*']) = r ++ [c] ∧ operandOpeners.contains c = true := by
  intro s
  fun_induction caretPowers s with
  | case1 r ih =>
    obtain ⟨u, c, hu, hc⟩ := ih
    exact ⟨'^' :: u, c, by simp [caretPowers, hu], hc⟩
  | case2 c r hne ih =>
    obtain ⟨u, d, hu, hd⟩ := ih
    by_cases hc : c = '*'
    · subst hc
      cases r with
      | nil => exact ⟨[], '^', by simp [caretPowers], by decide⟩
      | cons b r =>
        have hb : b ≠ '*' := by
          rintro rfl
          exact hne r rfl rfl
        have hhead : (b :: r ++ ['*']).head? ≠ some '*' := by simpa using hb
        refine ⟨'*' :: u, d, ?_, hd⟩
        rw [List.cons_append, caretPowers_star hhead, hu, List.cons_append]
    · exact ⟨c :: u, d, by rw [List.cons_append, caretPowers_cons hc, hu, List.cons_append], hd⟩
  | case3 => exact ⟨[], '*', rfl, by decide⟩

/-- What starts well after its powers are read starts with no star. -/
theorem head?_ne_star (h : StartsWell (caretPowers s)) : s.head? ≠ some '*' := by
  obtain ⟨c, r, hc, hstar, hcaret⟩ := h
  intro hs
  obtain ⟨t, rfl⟩ : ∃ t, s = '*' :: t := by
    cases s with
    | nil => cases hs
    | cons d t => exact ⟨t, by simpa using hs⟩
  cases t with
  | nil => exact hstar (List.cons.inj hc).1.symm
  | cons d t =>
    by_cases hd : d = '*'
    · subst hd
      exact hcaret (List.cons.inj hc).1.symm
    · rw [caretPowers_star (by simpa using hd)] at hc
      exact hstar (List.cons.inj hc).1.symm

/-! ## Putting texts together -/

/-- The text is derived at the level, with the tree, once its power signs are read. -/
def Writes (text : String) (l : Level) (e : Expr) : Prop := Derives l (caretPowers text.toList) e

namespace Writes

variable {x y : String} {a b : Expr} {op : BinaryOp}

theorem getLast? (h : Writes x l a) : x.toList.getLast? ≠ some '*' := by
  intro hlast
  obtain ⟨s, hs⟩ := List.getLast?_eq_some_iff.mp hlast
  obtain ⟨r, c, hr, hc⟩ := caretPowers_concat_star s
  rw [Writes, hs, hr] at h
  rw [h.endsWell] at hc
  cases hc

theorem head? (h : Writes x l a) : x.toList.head? ≠ some '*' := head?_ne_star h.startsWell

theorem caret_append (h : Writes x l a) (t : List Char) :
    caretPowers (x.toList ++ t) = caretPowers x.toList ++ caretPowers t :=
  caretPowers_append h.getLast?

theorem name (h : isIdentifier x.toList = true) : Writes x .primary (.symbol x) := by
  have hmem : '*' ∉ x.toList := fun hc =>
    not_mem_marks_of_isTokenChar (isTokenChar_of_isIdentifier h _ hc) (by decide)
  have hname := Derives.name h
  rw [String.ofList_toList] at hname
  rw [Writes, caretPowers_of_not_mem hmem]
  exact hname

/-- A literal holds no star. -/
theorem literal {q : Rat} (h : Exact.Literal x.toList q) : Writes x .primary (.number q) := by
  have hmem : '*' ∉ x.toList := by
    intro hc
    rcases chars_of_literal h _ hc with ht | ht | ht <;> exact absurd ht (by decide)
  rw [Writes, caretPowers_of_not_mem hmem]
  exact .literal h

theorem natural (n : Nat) : Writes (toString n) .primary (.number n) :=
  literal (Exact.literal_natural n)

theorem operand (h : Writes x l.next a) : Writes x l a := Derives.operand h

theorem signed (h : Writes x .power a) : Writes x .signed a := h.operand

theorem parens (h : Writes x .sum a) : Writes ("(" ++ x ++ ")") .primary a := by
  have hcaret : caretPowers ("(" ++ x ++ ")").toList = '(' :: (caretPowers x.toList ++ [')']) := by
    simp [caretPowers_cons, h.caret_append, caretPowers]
  rw [Writes, hcaret]
  exact .group h

theorem minus (h : Writes x .signed a) : Writes ("-" ++ x) .signed (.neg a) := by
  have hcaret : caretPowers ("-" ++ x).toList = '-' :: caretPowers x.toList := by
    simp [caretPowers_cons]
  rw [Writes, hcaret]
  exact .minus (w := []) rfl h

theorem power (hx : Writes x .primary a) (hy : Writes y .signed b) :
    Writes (x ++ "**" ++ y) .power (.binary .pow a b) := by
  have hcaret : caretPowers (x ++ "**" ++ y).toList =
      caretPowers x.toList ++ '^' :: caretPowers y.toList := by
    simp [hx.caret_append, caretPowers]
  rw [Writes, hcaret]
  exact .power hx hy

theorem div (hx : Writes x .product a) (hy : Writes y .signed b) :
    Writes (x ++ "/" ++ y) .product (.binary .div a b) := by
  have hslash : caretPowers ('/' :: y.toList) = '/' :: caretPowers y.toList :=
    caretPowers_cons (by decide)
  have hcaret : caretPowers (x ++ "/" ++ y).toList =
      caretPowers x.toList ++ '/' :: caretPowers y.toList := by
    simp [hx.caret_append, hslash]
  rw [Writes, hcaret]
  exact .operation rfl hx hy

theorem mul (hx : Writes x .product a) (hy : Writes y .signed b) :
    Writes (x ++ "*" ++ y) .product (.binary .mul a b) := by
  have hcaret : caretPowers (x ++ "*" ++ y).toList =
      caretPowers x.toList ++ '*' :: caretPowers y.toList := by
    simp [hx.caret_append, caretPowers_star hy.head?]
  rw [Writes, hcaret]
  exact .operation rfl hx hy

theorem add (hx : Writes x .sum a) (hy : Writes y .product b) :
    Writes (x ++ "+" ++ y) .sum (.binary .add a b) := by
  have hsign : caretPowers ('+' :: y.toList) = '+' :: caretPowers y.toList :=
    caretPowers_cons (by decide)
  have hcaret : caretPowers (x ++ "+" ++ y).toList =
      caretPowers x.toList ++ '+' :: caretPowers y.toList := by
    simp [hx.caret_append, hsign]
  rw [Writes, hcaret]
  exact .operation rfl hx hy

theorem sub (hx : Writes x .sum a) (hy : Writes y .product b) :
    Writes (x ++ "-" ++ y) .sum (.binary .sub a b) := by
  have hsign : caretPowers ('-' :: y.toList) = '-' :: caretPowers y.toList :=
    caretPowers_cons (by decide)
  have hcaret : caretPowers (x ++ "-" ++ y).toList =
      caretPowers x.toList ++ '-' :: caretPowers y.toList := by
    simp [hx.caret_append, hsign]
  rw [Writes, hcaret]
  exact .operation rfl hx hy

/-- A primary text stands at every level. -/
theorem of_primary (h : Writes x .primary a) : Writes x l a := by
  have hpower : Writes x .power a := h.operand
  have hproduct : Writes x .product a := hpower.signed.operand
  cases l with
  | sum => exact hproduct.operand
  | product => exact hproduct
  | signed => exact hpower.signed
  | power => exact hpower
  | primary => exact h

/-! ### Products -/

theorem joinWith_cons (sep x y : String) (xs : List String) :
    joinWith sep (x :: y :: xs) = joinWith sep ((x ++ sep ++ y) :: xs) := by
  cases xs with
  | nil => rfl
  | cons z xs => simp [joinWith, String.append_assoc]

/-- Factors joined by stars are a product, grouped to the left. -/
theorem factors {ps : List (String × Expr)} (h : Writes x .product a)
    (hp : ∀ p ∈ ps, Writes p.1 .signed p.2) :
    Writes (joinWith "*" (x :: ps.map Prod.fst)) .product
      ((ps.map Prod.snd).foldl (.binary .mul) a) := by
  induction ps generalizing x a with
  | nil => exact h
  | cons p ps ih =>
    rw [List.map_cons, joinWith_cons, List.map_cons, List.foldl_cons]
    exact ih (h.mul (hp p (by simp))) fun q hq => hp q (by simp [hq])

/-! ### Calls -/

theorem caret_joinWith (p : String × Expr) (ps : List (String × Expr)) (t : List Char)
    (hp : ∀ q ∈ p :: ps, Writes q.1 .sum q.2) :
    caretPowers ((joinWith ", " ((p :: ps).map Prod.fst)).toList ++ t) =
      commaText (caretPowers p.1.toList :: ps.map fun q => ' ' :: caretPowers q.1.toList) ++
        caretPowers t := by
  induction ps generalizing p with
  | nil => simpa [joinWith, commaText, chainText] using (hp p (by simp)).caret_append t
  | cons q ps ih =>
    have hrest := ih q fun r hr => hp r (List.mem_cons_of_mem _ hr)
    have hjoin : joinWith ", " ((p :: q :: ps).map Prod.fst) =
        p.1 ++ ", " ++ joinWith ", " ((q :: ps).map Prod.fst) := rfl
    have hsep : (", ").toList = [',', ' '] := by decide
    have hcomma : ∀ u : List Char, caretPowers (',' :: ' ' :: u) = ',' :: ' ' :: caretPowers u :=
      fun u => by rw [caretPowers_cons (by decide), caretPowers_cons (by decide)]
    rw [hjoin, String.toList_append, String.toList_append, List.append_assoc, List.append_assoc,
      (hp p (by simp)).caret_append, hsep, List.cons_append, List.cons_append, List.nil_append,
      hcomma, hrest]
    simp [commaText, chainText]

/-- A name with arguments. -/
theorem call {f : String} {ps : List (String × Expr)} (hf : isIdentifier f.toList = true)
    (hp : ∀ p ∈ ps, Writes p.1 .sum p.2) :
    Writes (f ++ "(" ++ joinWith ", " (ps.map Prod.fst) ++ ")") .primary
      (.call f (ps.map Prod.snd)) := by
  have hstar : '*' ∉ f.toList := fun hc =>
    not_mem_marks_of_isTokenChar (isTokenChar_of_isIdentifier hf _ hc) (by decide)
  have hlast : f.toList.getLast? ≠ some '*' := fun hc => hstar (List.mem_of_getLast? hc)
  have hcaret : ∀ {u v : List Char}, caretPowers (u ++ [')']) = v ++ [')'] →
      caretPowers (f.toList ++ '(' :: (u ++ [')'])) = f.toList ++ [] ++ '(' :: (v ++ [')']) := by
    intro u v hu
    rw [caretPowers_append hlast, caretPowers_of_not_mem hstar, caretPowers_cons (by decide), hu,
      List.append_nil]
  have htext : (f ++ "(" ++ joinWith ", " (ps.map Prod.fst) ++ ")").toList =
      f.toList ++ '(' :: ((joinWith ", " (ps.map Prod.fst)).toList ++ [')']) := by
    simp
  have hname : String.ofList f.toList = f := String.ofList_toList
  rw [Writes, htext]
  cases ps with
  | nil =>
    rw [hcaret (v := []) rfl, ← hname]
    simpa using Derives.callEmpty (w := []) (v := []) hf rfl rfl
  | cons p ps =>
    rw [hcaret (caret_joinWith p ps [')'] hp)]
    -- every argument but the first has a blank in front
    have hargs : ∀ a ∈ (caretPowers p.1.toList, p.2) ::
        ps.map (fun q => (' ' :: caretPowers q.1.toList, q.2)), Derives .sum a.1 a.2 := by
      intro a ha
      rcases List.mem_cons.mp ha with rfl | ha
      · exact hp p (by simp)
      · obtain ⟨q, hq, rfl⟩ := List.mem_map.mp ha
        have hwrites : Writes q.1 .sum q.2 := hp q (by simp [hq])
        simpa using Derives.pad (w := [' ']) (v := []) hwrites (by decide) rfl
    have hcall := Derives.call (w := []) hf rfl (by simp) hargs
    rw [hname] at hcall
    simpa [Function.comp_def] using hcall

/-! ### Sums -/

end Writes

/-- The sign between two terms. -/
def joiningSign (subtracted : Bool) : Char := if subtracted then '-' else '+'

/-- Terms added and subtracted, from left to right. -/
def chainSum : List (Bool × Expr) → Expr
  | [] => .number 0
  | (_, a) :: rest => rest.foldl (fun acc p => .binary (if p.1 then .sub else .add) acc p.2) a

/-- Terms with another sign in front of the first. -/
def withSign (subtracted : Bool) : List (Bool × Expr) → List (Bool × Expr)
  | [] => []
  | (_, a) :: rest => (subtracted, a) :: rest

/-- The text is derived as a sum of the terms with their signs. -/
inductive SumChain : List Char → List (Bool × Expr) → Prop where
  | single {s : List Char} {a : Expr} (h : Derives .product s a) : SumChain s [(false, a)]
  | snoc {s t : List Char} {as : List (Bool × Expr)} {b : Bool} {a : Expr} (hs : SumChain s as)
    (ht : Derives .product t a) : SumChain (s ++ joiningSign b :: t) (as ++ [(b, a)])

namespace SumChain

variable {as bs : List (Bool × Expr)} {b : Bool}

theorem ne_nil (h : SumChain s as) : as ≠ [] := by
  cases h <;> simp

theorem chainSum_snoc (h : as ≠ []) (p : Bool × Expr) :
    chainSum (as ++ [p]) = .binary (if p.1 then .sub else .add) (chainSum as) p.2 := by
  cases as with
  | nil => exact absurd rfl h
  | cons a as => simp [chainSum]

theorem derives (h : SumChain s as) : Derives .sum s (chainSum as) := by
  induction h with
  | single h => exact .operand h
  | @snoc s t as b a hs ht ih =>
    rw [chainSum_snoc hs.ne_nil]
    refine .operation ?_ ih ht
    cases b <;> rfl

theorem pad (h : SumChain s as) (hw : allBlank w = true) (hv : allBlank v = true) :
    SumChain (w ++ s ++ v) as := by
  induction h generalizing w v with
  | single h => exact .single (h.pad hw hv)
  | snoc hs ht ih => simpa using (ih hw (v := []) rfl).snoc (ht.pad (w := []) rfl hv)

theorem withSign_append (h : as ≠ []) : withSign b (as ++ bs) = withSign b as ++ bs := by
  cases as with
  | nil => exact absurd rfl h
  | cons a as => rfl

/-- A sum without parentheses after a sign: only its first term takes the sign. -/
theorem append (hs : SumChain s as) (ht : SumChain t bs) :
    SumChain (s ++ joiningSign b :: t) (as ++ withSign b bs) := by
  induction ht with
  | single h => exact hs.snoc h
  | snoc ht h ih =>
    rw [withSign_append ht.ne_nil, ← List.append_assoc]
    simpa using ih.snoc h

/-- A sum after a sign with blanks around it. -/
theorem join {x y : String} (hx : SumChain (caretPowers x.toList) as)
    (hy : SumChain (caretPowers y.toList) bs) :
    SumChain (caretPowers (x ++ (if b then " - " else " + ") ++ y).toList) (as ++ withSign b bs) := by
  have hlast : x.toList.getLast? ≠ some '*' := Writes.getLast? (l := .sum) hx.derives
  have hblank : caretPowers (' ' :: y.toList) = ' ' :: caretPowers y.toList :=
    caretPowers_cons (by decide)
  have hsep : (if b then " - " else " + " : String).toList = [' ', joiningSign b, ' '] := by
    cases b <;> decide
  have hsign : joiningSign b ≠ '*' := by
    cases b <;> decide
  have hcaret : caretPowers (x ++ (if b then " - " else " + ") ++ y).toList =
      (caretPowers x.toList ++ [' ']) ++ joiningSign b :: ([' '] ++ caretPowers y.toList) := by
    rw [String.toList_append, String.toList_append, List.append_assoc, hsep, caretPowers_append hlast]
    simp [caretPowers_cons, hsign, hblank]
  have hleft : SumChain (caretPowers x.toList ++ [' ']) as := by
    simpa using hx.pad (w := []) (v := [' ']) rfl (by decide)
  have hright : SumChain ([' '] ++ caretPowers y.toList) bs := by
    simpa using hy.pad (w := [' ']) (v := []) (by decide) rfl
  rw [hcaret]
  exact hleft.append hright

end SumChain

end Formulary
