import Formulary.Proofs.Expr.Writing
import Formulary.Proofs.Term.Depth
import Formulary.Term.Text

/-!
What the text of a layout is read as.

The text of a layout is always an expression. `Layout.expr true` is the one it is read as, and
`Layout.expr false` the one that the layout stands for. They differ in one place: a sum that is
subtracted is printed without parentheses, so that only its first term is read as subtracted.
-/

namespace Formulary

/-! ## Expressions of layouts -/

/-- The expression of a number as it is printed: a sign, the numerator, and the denominator after a
slash. -/
def numberExpr (q : Rat) : Expr :=
  let n : Expr := .number q.num.natAbs
  let top := if q.num < 0 then .neg n else n
  if q.den = 1 then top else .binary .div top (.number q.den)

namespace Layout

/-- The expression of a product: the coefficient first, then the factors above the bar, then the
product of the factors below it as divisor. -/
def productExpr (negative : Bool) (top bottom : Nat) (above below : List Expr) : Expr :=
  let above := if top != 1 || above.isEmpty then .number top :: above else above
  let below := if bottom != 1 then .number bottom :: below else below
  let numerator :=
    match above with
    | [] => .number 1
    | a :: as => as.foldl (.binary .mul) (if negative then .neg a else a)
  match below with
  | [] => numerator
  | b :: bs => .binary .div numerator (bs.foldl (.binary .mul) b)

mutual

/-- The expression that the text of a layout is read as (`loose`), or that it stands for. -/
def expr (loose : Bool) : Layout → Expr
  | .number q => numberExpr q
  | .constant c => .symbol c.name
  | .name x => .symbol x
  | .builtin f args => .call f.name (exprs loose args)
  | .apply x args => .call x (exprs loose args)
  | .sum terms => chainSum (addends loose terms)
  | .product negative top bottom above below =>
    productExpr negative top bottom (exprs loose above) (exprs loose below)
  | .sqrt r => .call "sqrt" [expr loose r]
  | .reciprocal d => .binary .div (.number 1) (expr loose d)
  | .power b e => .binary .pow (expr loose b) (expr loose e)

/-- The expressions of several layouts. -/
def exprs (loose : Bool) : List Layout → List Expr
  | [] => []
  | l :: ls => expr loose l :: exprs loose ls

/-- The terms of a sum with their signs. A sum within it is spliced in, unless it is subtracted and
the sum is what the layout stands for. -/
def addends (loose : Bool) : List (Bool × Layout) → List (Bool × Expr)
  | [] => []
  | (subtracted, .sum ts) :: rest =>
    (if subtracted && !loose then [(true, chainSum (addends loose ts))]
      else withSign subtracted (addends loose ts)) ++ addends loose rest
  | (subtracted, l) :: rest => (subtracted, expr loose l) :: addends loose rest

end

/-- What the layout is as a sum: the terms of a sum, any other layout alone. -/
def summed (loose : Bool) : Layout → List (Bool × Expr)
  | .sum ts => addends loose ts
  | l => [(false, l.expr loose)]

/-- The layout is a sum. -/
def isSum : Layout → Bool
  | .sum _ => true
  | _ => false

theorem expr_eq_chainSum (loose : Bool) (l : Layout) : l.expr loose = chainSum (l.summed loose) := by
  cases l <;> rfl

/-- A term of a sum is spliced in, unless it is a sum that is subtracted and kept. -/
theorem addends_cons (loose b : Bool) (l : Layout) (rest : List (Bool × Layout)) :
    addends loose ((b, l) :: rest) =
      (if b && !loose && l.isSum then [(true, l.expr loose)] else withSign b (l.summed loose)) ++
        addends loose rest := by
  cases l with
  | sum ts => simp [addends, summed, isSum, expr]
  | _ => simp [addends, summed, isSum, withSign]

/-- As it is read, every sum is spliced into the sum that it stands in. -/
theorem addends_loose (b : Bool) (l : Layout) (rest : List (Bool × Layout)) :
    addends true ((b, l) :: rest) = withSign b (l.summed true) ++ addends true rest := by
  simp [addends_cons]

theorem exprs_eq_map (loose : Bool) (ls : List Layout) : exprs loose ls = ls.map (expr loose) := by
  induction ls with
  | nil => rfl
  | cons l ls ih => rw [exprs, ih, List.map_cons]

theorem texts_eq_map (ls : List Layout) : texts ls = ls.map text := by
  induction ls with
  | nil => rfl
  | cons l ls ih => rw [texts, ih, List.map_cons]

theorem enclosedTexts_eq_map (required : Binding) (ls : List Layout) :
    enclosedTexts required ls = ls.map fun l => l.enclose required l.text := by
  induction ls with
  | nil => rfl
  | cons l ls ih => rw [enclosedTexts, ih, List.map_cons]

/-! ## Well-formed layouts -/

mutual

/-- The names are identifiers, a sum has at least two terms and the first is not subtracted, no
factor above a bar is printed like a product, and no product is a single factor. -/
def WellFormed : Layout → Prop
  | .number _ | .constant _ => True
  | .name x => isIdentifier x.toList = true
  | .builtin _ args => WellFormedAll args
  | .apply x args => isIdentifier x.toList = true ∧ WellFormedAll args
  | .sum terms => (∃ l p rest, terms = (false, l) :: p :: rest) ∧ WellFormedTerms terms
  | .product negative top bottom above below =>
    WellFormedAll above ∧ WellFormedAll below ∧ (∀ l ∈ above, l.binding ≠ .product) ∧
      (negative = false → top = 1 → bottom = 1 → below = [] → above.length ≠ 1)
  | .sqrt r => WellFormed r
  | .reciprocal d => WellFormed d
  | .power b e => WellFormed b ∧ WellFormed e

/-- Several layouts are well-formed. -/
def WellFormedAll : List Layout → Prop
  | [] => True
  | l :: ls => WellFormed l ∧ WellFormedAll ls

/-- The terms of a sum are well-formed. -/
def WellFormedTerms : List (Bool × Layout) → Prop
  | [] => True
  | (_, l) :: ts => WellFormed l ∧ WellFormedTerms ts

end

theorem wellFormedAll_iff {ls : List Layout} : WellFormedAll ls ↔ ∀ l ∈ ls, l.WellFormed := by
  induction ls with
  | nil => simp [WellFormedAll]
  | cons l ls ih => simp [WellFormedAll, ih]

theorem wellFormedTerms_iff {ts : List (Bool × Layout)} :
    WellFormedTerms ts ↔ ∀ p ∈ ts, p.2.WellFormed := by
  induction ts with
  | nil => simp [WellFormedTerms]
  | cons p ts ih => simp [WellFormedTerms, ih]

/-- The first term of a sum, however deep in sums it stands, is no sum and not subtracted. -/
theorem summed_eq_cons (loose : Bool) :
    ∀ l : Layout, l.WellFormed →
      ∃ (k : Layout) (as : List (Bool × Expr)),
        k.WellFormed ∧ k.isSum = false ∧ l.summed loose = (false, k.expr loose) :: as
  | .sum [], h => nomatch h.1
  | .sum ((true, _) :: _), h => nomatch h.1
  | .sum ((false, l) :: rest), h => by
    obtain ⟨k, as, hwf, hk, hl⟩ := summed_eq_cons loose l h.2.1
    refine ⟨k, as ++ addends loose rest, hwf, hk, ?_⟩
    rw [summed, addends_cons, hl]
    simp [withSign]
  | .number _, h | .constant _, h | .name _, h | .builtin .., h | .apply .., h
  | .product .., h | .sqrt _, h | .reciprocal _, h | .power .., h => ⟨_, _, h, rfl, rfl⟩

theorem withSign_summed {loose : Bool} {l : Layout} (h : l.WellFormed) :
    withSign false (l.summed loose) = l.summed loose := by
  obtain ⟨k, as, -, -, hl⟩ := summed_eq_cons loose l h
  rw [hl]
  rfl

end Layout

/-! ## Texts by strength of binding -/

/-- The level at which texts of the strength are derived. -/
def Binding.level : Binding → Level
  | sum => .sum
  | product => .product
  | power => .power
  | atom => .primary

namespace Writes

variable {x : String} {a : Expr} {b r : Binding}

/-- A text stands wherever no tighter binding is required. -/
theorem lift (h : Writes x b.level a) (hr : r.rank ≤ b.rank) : Writes x r.level a := by
  have hpower : Writes x .primary a → Writes x .power a := fun h => h.operand
  have hproduct : Writes x .power a → Writes x .product a := fun h => h.signed.operand
  cases b <;> cases r <;> simp [Binding.rank] at hr
  · exact h
  · exact h.operand
  · exact h
  · exact (hproduct h).operand
  · exact hproduct h
  · exact h
  · exact (hproduct (hpower h)).operand
  · exact hproduct (hpower h)
  · exact hpower h
  · exact h

/-- A printed layout in parentheses stands anywhere. -/
theorem group {l : Layout} (h : Writes x l.binding.level a) :
    Writes ("(" ++ x ++ ")") .primary a := parens (lift (r := .sum) h (Nat.zero_le _))

theorem enclose {l : Layout} (h : Writes x l.binding.level a) (required : Binding) :
    Writes (l.enclose required x) required.level a := by
  unfold Layout.enclose
  split
  · refine lift (b := .atom) h.group ?_
    cases required <;> decide
  · rename_i hrank
    exact lift h (by omega)

/-- What is not printed like a product stands as a factor above the bar. -/
theorem factor {l : Layout} (h : Writes x l.binding.level a) (hl : l.binding ≠ .product) :
    Writes (l.enclose .product x) .power a := by
  unfold Layout.enclose
  split
  · exact h.group.operand
  · rename_i hrank
    refine lift (r := .power) h ?_
    cases hb : l.binding with
    | product => exact absurd hb hl
    | _ => simp_all [Binding.rank]

theorem exponent {l : Layout} (h : Writes x l.binding.level a) :
    Writes (l.encloseExponent x) .primary a := by
  cases l with
  | number q =>
    simp only [Layout.encloseExponent]
    split
    · rename_i hq
      have hb : (Layout.number q).binding = .atom := by
        simp only [Bool.and_eq_true, decide_eq_true_eq, Bool.not_eq_true', decide_eq_false_iff_not]
          at hq
        simp [Layout.binding, hq.1, hq.2]
      rw [hb] at h
      exact h
    · exact h.group
  | _ => exact h.enclose .atom

/-! ### Numbers -/

theorem int (n : Int) :
    Writes (toString n) .signed
      (if n < 0 then .neg (.number n.natAbs) else .number n.natAbs) := by
  cases n with
  | ofNat m => exact (natural m).operand.signed
  | negSucc m =>
    have hneg : Int.negSucc m < 0 := Int.negSucc_lt_zero m
    rw [if_pos hneg]
    exact (natural (m + 1)).operand.signed.minus

theorem number (q : Rat) : Writes (Exact.text q) (Layout.number q).binding.level (numberExpr q) := by
  have htop := int q.num
  unfold Exact.text numberExpr
  by_cases hden : q.den = 1
  · simp only [hden, if_true]
    by_cases hneg : q < 0
    · have hb : (Layout.number q).binding = .product := by simp [Layout.binding, hneg]
      rw [hb]
      exact htop.operand
    · have hb : (Layout.number q).binding = .atom := by simp [Layout.binding, hneg, hden]
      have hnum : 0 ≤ q.num := Rat.num_nonneg.mpr (Rat.not_lt.mp hneg)
      obtain ⟨n, hn⟩ := Int.eq_ofNat_of_zero_le hnum
      rw [hb, hn]
      exact natural n
  · have hb : (Layout.number q).binding = .product := by simp [Layout.binding, hden]
    simp only [hden, if_false, hb]
    exact htop.operand.div (natural q.den).operand.signed

/-! ### Products -/

theorem joinWith_prepend (pre sep y : String) (ys : List String) :
    pre ++ joinWith sep (y :: ys) = joinWith sep ((pre ++ y) :: ys) := by
  cases ys with
  | nil => rfl
  | cons z ys => simp [joinWith, String.append_assoc]

theorem numerator {p : String × Expr} {ps : List (String × Expr)} (negative : Bool)
    (h : ∀ q ∈ p :: ps, Writes q.1 .power q.2) :
    Writes ((if negative then "-" else "") ++ joinWith "*" (p.1 :: ps.map Prod.fst)) .product
      ((ps.map Prod.snd).foldl (.binary .mul) (if negative then .neg p.2 else p.2)) := by
  have hrest : ∀ q ∈ ps, Writes q.1 .signed q.2 := fun q hq => (h q (by simp [hq])).signed
  have hfirst : Writes p.1 .signed p.2 := (h p (by simp)).signed
  cases negative with
  | false => simpa using factors hfirst.operand hrest
  | true =>
    simp only [if_true]
    rw [joinWith_prepend]
    exact factors hfirst.minus.operand hrest

/-- Factors, with a number before them under the condition. -/
def withNumber (condition : Bool) (n : Nat) (ps : List (String × Expr)) : List (String × Expr) :=
  if condition then (toString n, .number n) :: ps else ps

section WithNumber

variable {condition : Bool} {n : Nat} {ps : List (String × Expr)}

theorem fst_withNumber : (withNumber condition n ps).map Prod.fst =
    if condition then toString n :: ps.map Prod.fst else ps.map Prod.fst := by
  cases condition <;> rfl

theorem snd_withNumber : (withNumber condition n ps).map Prod.snd =
    if condition then .number n :: ps.map Prod.snd else ps.map Prod.snd := by
  cases condition <;> rfl

theorem of_mem_withNumber (condition : Bool) (n : Nat) (h : ∀ p ∈ ps, Writes p.1 .power p.2) :
    ∀ p ∈ withNumber condition n ps, Writes p.1 .power p.2 := by
  cases condition with
  | false => exact h
  | true => exact List.forall_mem_cons.mpr ⟨(natural n).operand, h⟩

theorem withNumber_ne_nil (n : Nat) (h : ps.isEmpty → condition = true) :
    withNumber condition n ps ≠ [] := by
  cases condition with
  | true => exact List.cons_ne_nil _ _
  | false =>
    rintro rfl
    cases h rfl

end WithNumber

/-- Factors above a bar, and below it none, one or several in parentheses. -/
theorem fraction {top : String} {e : Expr} {bs : List (String × Expr)} (h : Writes top .product e)
    (hbs : ∀ p ∈ bs, Writes p.1 .power p.2) :
    Writes (top ++ match bs.map Prod.fst with
      | [] => ""
      | [b] => "/" ++ b
      | bs => "/(" ++ joinWith "*" bs ++ ")") .product
      (match bs.map Prod.snd with
      | [] => e
      | b :: bs => .binary .div e (bs.foldl (.binary .mul) b)) := by
  match bs, hbs with
  | [], _ => simpa using h
  | [b], hbs => simpa [String.append_assoc] using h.div (hbs b (by simp)).signed
  | b :: c :: bs, hbs =>
    have hrest : ∀ q ∈ c :: bs, Writes q.1 .signed q.2 := fun q hq =>
      (hbs q (List.mem_cons_of_mem _ hq)).signed
    have hgroup := (factors (hbs b (by simp)).signed.operand hrest).operand.parens
    have hdiv := h.div hgroup.operand.signed
    have hopen : ∀ z : String, "/" ++ ("(" ++ z) = "/(" ++ z := fun z => by
      rw [← String.append_assoc]
      rfl
    simpa [hopen, String.append_assoc] using hdiv

theorem product {above below : List (String × Expr)} (negative : Bool) (top bottom : Nat)
    (ha : ∀ p ∈ above, Writes p.1 .power p.2) (hb : ∀ p ∈ below, Writes p.1 .power p.2) :
    Writes
      (Layout.productText negative top bottom (above.map Prod.fst) (below.map Prod.fst)) .product
      (Layout.productExpr negative top bottom (above.map Prod.snd) (below.map Prod.snd)) := by
  have habove := of_mem_withNumber (top != 1 || above.isEmpty) top ha
  have hbelow := of_mem_withNumber (bottom != 1) bottom hb
  have hnil : withNumber (top != 1 || above.isEmpty) top above ≠ [] :=
    withNumber_ne_nil top fun h => by simp [h]
  obtain ⟨p, ps, hps⟩ := List.exists_cons_of_ne_nil hnil
  rw [hps] at habove
  have hfraction := fraction (numerator negative habove) hbelow
  simp only [Layout.productText, Layout.productExpr, List.isEmpty_map, ← fst_withNumber,
    ← snd_withNumber, hps, List.map_cons]
  exact hfraction

end Writes

/-! ## Reading printed layouts -/

namespace Layout

theorem isIdentifier_constant (c : Constant) : isIdentifier c.name.toList = true := by
  cases c <;> decide

theorem isIdentifier_builtin (f : Builtin) : isIdentifier f.name.toList = true := by
  cases f <;> decide

/-- The text of the layout is derived with the expression that it is read as. -/
structure Prints (l : Layout) : Prop where
  writes : Writes l.text l.binding.level (l.expr true)
  chain : SumChain (caretPowers l.text.toList) (l.summed true)

namespace Prints

variable {l : Layout} {ls : List Layout}

theorem of_writes (h : Writes l.text l.binding.level (l.expr true))
    (hsum : l.summed true = [(false, l.expr true)]) (hb : l.binding ≠ .sum) : Prints l where
  writes := h
  chain := by
    rw [hsum]
    refine .single (Writes.lift (r := .product) h ?_)
    cases hl : l.binding with
    | sum => exact absurd hl hb
    | _ => decide

theorem of_chain {ts : List (Bool × Layout)}
    (h : SumChain (caretPowers (sumText true ts).toList) (addends true ts)) : Prints (.sum ts) where
  writes := h.derives
  chain := h

/-- Printed layouts as arguments of a call. -/
theorem call {f : String} (hf : isIdentifier f.toList = true) (h : ∀ l ∈ ls, Prints l) :
    Writes (f ++ "(" ++ joinWith ", " (texts ls) ++ ")") .primary (.call f (exprs true ls)) := by
  have hargs : ∀ p ∈ ls.map fun l => (l.text, l.expr true), Writes p.1 .sum p.2 := by
    intro p hp
    obtain ⟨l, hl, rfl⟩ := List.mem_map.mp hp
    exact Writes.lift (r := .sum) (h l hl).writes (Nat.zero_le _)
  have hcall := Writes.call hf hargs
  rw [List.map_map, List.map_map] at hcall
  rw [texts_eq_map, exprs_eq_map]
  exact hcall

/-- Printed layouts as factors above and below a bar. -/
theorem product {below : List Layout} (negative : Bool) (top bottom : Nat)
    (ha : ∀ l ∈ ls, Prints l) (hb : ∀ l ∈ below, Prints l) (hne : ∀ l ∈ ls, l.binding ≠ .product) :
    Prints (.product negative top bottom ls below) := by
  have habove : ∀ p ∈ ls.map fun l => (l.enclose .product l.text, l.expr true),
      Writes p.1 .power p.2 := by
    intro p hp
    obtain ⟨l, hl, rfl⟩ := List.mem_map.mp hp
    exact (ha l hl).writes.factor (hne l hl)
  have hbelow : ∀ p ∈ below.map fun l => (l.enclose .power l.text, l.expr true),
      Writes p.1 .power p.2 := by
    intro p hp
    obtain ⟨l, hl, rfl⟩ := List.mem_map.mp hp
    exact (hb l hl).writes.enclose .power
  have hprod := Writes.product negative top bottom habove hbelow
  simp only [List.map_map, Function.comp_def] at hprod
  refine of_writes ?_ rfl (by simp [binding])
  rw [text, expr, enclosedTexts_eq_map, enclosedTexts_eq_map, exprs_eq_map, exprs_eq_map]
  exact hprod

end Prints

mutual

/-- Every well-formed layout is printed as an expression. -/
theorem prints : ∀ l : Layout, l.WellFormed → Prints l
  | .number q, _ => by
    refine .of_writes (Writes.number q) rfl ?_
    simp only [binding]
    split <;> simp
  | .constant c, _ => .of_writes (.name (isIdentifier_constant c)) rfl (by simp [binding])
  | .name x, h => .of_writes (.name h) rfl (by simp [binding])
  | .builtin f args, h =>
    .of_writes (Prints.call (isIdentifier_builtin f) (printsAll args h)) rfl (by simp [binding])
  | .apply x args, h => .of_writes (Prints.call h.1 (printsAll args h.2)) rfl (by simp [binding])
  | .sum [], h => nomatch h.1
  | .sum ((true, l) :: rest), h => nomatch h.1
  | .sum ((false, l) :: rest), h => by
    have hrest := printsTerms rest h.2.2 (prints l h.2.1).chain
    refine .of_chain ?_
    rw [addends_loose, withSign_summed h.2.1]
    simpa [sumText] using hrest
  | .product negative top bottom above below, h =>
    .product negative top bottom (printsAll above h.1) (printsAll below h.2.1) h.2.2.1
  | .sqrt r, h => by
    have hr := (prints r h).writes
    have hargs : ∀ p ∈ [(r.text, r.expr true)], Writes p.1 .sum p.2 := by
      simpa [Binding.level] using Writes.lift (r := .sum) hr (Nat.zero_le _)
    have hcall := Writes.call (f := "sqrt") (by decide) hargs
    exact .of_writes hcall rfl (by simp [binding])
  | .reciprocal d, h => by
    have hd := (prints d h).writes.enclose .power
    have hone : Writes "1" .product (.number 1) := (Writes.natural 1).operand.signed.operand
    exact .of_writes (hone.div hd.signed) rfl (by simp [binding])
  | .power b e, h => by
    have hb := (prints b h.1).writes.enclose .atom
    have he := (prints e h.2).writes.exponent
    exact .of_writes (hb.power he.operand.signed) rfl (by simp [binding])

/-- Several well-formed layouts are each printed as an expression. -/
theorem printsAll : ∀ ls : List Layout, WellFormedAll ls → ∀ l ∈ ls, Prints l
  | [], _ => fun _ hl => absurd hl List.not_mem_nil
  | l :: ls, h => List.forall_mem_cons.mpr ⟨prints l h.1, printsAll ls h.2⟩

/-- The terms of a sum are printed after what stands before them. -/
theorem printsTerms : ∀ (ts : List (Bool × Layout)) {x : String} {as : List (Bool × Expr)},
    WellFormedTerms ts → SumChain (caretPowers x.toList) as →
      SumChain (caretPowers (x ++ sumText false ts).toList) (as ++ addends true ts)
  | [], x, as, _, hx => by simpa [sumText, addends] using hx
  | (b, l) :: ts, x, as, h, hx => by
    have hstep := printsTerms ts h.2 (hx.join (b := b) (prints l h.1).chain)
    rw [addends_loose]
    simpa [sumText, String.append_assoc] using hstep

end

/-- The text of a well-formed layout is read, and as no other expression than the loose one. -/
theorem read_text {l : Layout} (h : l.WellFormed) : Expr.read l.text = .ok (l.expr true) := by
  rw [expr_eq_chainSum]
  exact Expr.read_of_derives (prints l h).chain.derives

end Layout

end Formulary
