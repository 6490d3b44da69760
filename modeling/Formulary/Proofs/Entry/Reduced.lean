import Formulary.Proofs.Entry.Canonical
import Formulary.Proofs.Term.Tidy

/-!
What resolution gives is reduced.

Every operation of resolution keeps terms reduced, whatever the operands, and so does the conversion to
the declared unit. They are not tidy for all expressions: what an operation unwraps after its terms have
been merged can be a sum, or a power of a base that stands in the product already, and is not merged once
more. `collects` says of an expression that none of its operations does that, and then the result is tidy.
-/

namespace Formulary

open Term (Everywhere Reduced Tidy Form form_reduced form_tidy leavesSum mergesWhole)

variable {P : Term → Prop}

namespace BinaryOp

variable {op : BinaryOp} {a b : Term}

/-! ## Operations on terms -/

theorem combine_reduced (ha : Everywhere Reduced a) (hb : Everywhere Reduced b) :
    Everywhere Reduced (op.combine a b) := by
  cases op with
  | add => exact Term.everywhere_reduced_sum (by simpa using ⟨ha, hb⟩)
  | sub => exact Term.everywhere_reduced_difference ha hb
  | mul => exact Term.everywhere_reduced_product (by simpa using ⟨ha, hb⟩)
  | div => exact Term.everywhere_reduced_quotient ha hb
  | pow => exact Term.everywhere_reduced_power ha hb

/-- The operation collects all that there is to collect in the two terms. -/
def collects (op : BinaryOp) (a b : Term) : Bool :=
  match op with
  | .add => !leavesSum [a, b]
  | .sub => !leavesSum [a, b.negated]
  | .mul => !mergesWhole [a, b]
  | .div => b.spreads && !mergesWhole [a, .power b (.num (-1))]
  | .pow => !b.isInteger || a.spreads

theorem combine_tidy (ha : Everywhere Tidy a) (hb : Everywhere Tidy b) (h : op.collects a b = true) :
    Everywhere Tidy (op.combine a b) := by
  cases op with
  | add => exact (Term.everywhere_tidy_sum_iff (by simpa using ⟨ha, hb⟩)).mpr (by simpa [collects] using h)
  | sub => exact Term.everywhere_tidy_difference ha hb (by simpa [collects] using h)
  | mul => exact Term.everywhere_tidy_product (by simpa using ⟨ha, hb⟩) (by simpa [collects] using h)
  | div =>
    obtain ⟨hspreads, hmerges⟩ : b.spreads = true ∧ mergesWhole [a, .power b (.num (-1))] = false := by
      simpa [collects] using h
    exact Term.everywhere_tidy_quotient ha hb hspreads hmerges
  | pow =>
    refine Term.everywhere_tidy_power ha hb fun hint => ?_
    simpa [collects, hint] using h

end BinaryOp

namespace Scope

open Quantity

variable {s : Scope} {f g : Findings} {l r q : Quantity}

/-! ## What an expression resolves to -/

mutual

/-- The quantity that an expression resolves to, if it does, whatever has been found before. -/
def quantity (s : Scope) : Expr → Except Fault Quantity
  | .number q => .ok (.plain (.num q))
  | .symbol name => .ok ((s.role name).quantity name)
  | .neg e => (quantity s e).map neg
  | .binary op l r => do
    let a ← quantity s l
    let b ← quantity s r
    applyBinary op a b
  | .call name args => do
    let target ← s.callTarget name args.length
    let quantities ← quantityAll s args
    target.apply quantities

/-- The quantities that several expressions resolve to. -/
def quantityAll (s : Scope) : List Expr → Except Fault (List Quantity)
  | [] => .ok []
  | e :: es => do
    let q ← quantity s e
    let qs ← quantityAll s es
    pure (q :: qs)

end

mutual

theorem resolve_quantity : ∀ {e : Expr} {f g : Findings} {q : Quantity},
    (s.resolve e).run f = .ok (q, g) → s.quantity e = .ok q
  | .number n, f, g, q, h => by
    obtain ⟨rfl, -⟩ := run_resolve_number.mp h
    rfl
  | .symbol name, f, g, q, h => by
    rw [(run_resolveSymbol h).quantity_eq]
    rfl
  | .neg e, f, g, q, h => by
    obtain ⟨a, he, rfl⟩ := run_resolve_neg.mp h
    exact Except.map_eq_ok.mpr ⟨a, resolve_quantity he, rfl⟩
  | .binary op l r, f, g, q, h => by
    obtain ⟨a, f₁, b, hl, hr, hop⟩ := run_resolve_binary.mp h
    exact Except.bind_eq_ok.mpr ⟨a, resolve_quantity hl, Except.bind_eq_ok.mpr ⟨b, resolve_quantity hr, hop⟩⟩
  | .call name args, f, g, q, h => by
    obtain ⟨target, qs, f₁, ht, hargs, h⟩ := run_resolve_call.mp h
    obtain ⟨happly, -⟩ := run_applyTarget h
    exact Except.bind_eq_ok.mpr ⟨target, ht, Except.bind_eq_ok.mpr ⟨qs, resolveAll_quantityAll hargs, happly⟩⟩

theorem resolveAll_quantityAll : ∀ {es : List Expr} {f g : Findings} {qs : List Quantity},
    (s.resolveAll es).run f = .ok (qs, g) → s.quantityAll es = .ok qs
  | [], f, g, qs, h => by
    obtain ⟨rfl, -⟩ := run_resolveAll_nil.mp h
    rfl
  | e :: es, f, g, qs, h => by
    obtain ⟨p, f₁, ps, he, hes, rfl⟩ := run_resolveAll_cons.mp h
    exact Except.bind_eq_ok.mpr ⟨p, resolve_quantity he,
      Except.bind_eq_ok.mpr ⟨ps, resolveAll_quantityAll hes, rfl⟩⟩

end

/-! ## Forms that exact factors keep -/

section Form

theorem everywhere_role (hP : Form P) (name : String) (role : Role) :
    Everywhere P (role.quantity name).term := by
  cases role with
  | parameter => exact Term.everywhere_var.mpr (hP.atom _ rfl)
  | constant c => exact Term.everywhere_const.mpr (hP.atom _ rfl)
  | entry e =>
    refine Term.everywhere_apply.mpr ⟨hP.atom _ rfl, fun t ht => ?_⟩
    obtain ⟨p, -, rfl⟩ := List.mem_map.mp ht
    exact Term.everywhere_var.mpr (hP.atom _ rfl)

variable (hP : Form P) (hscale : ∀ {t : Term}, Everywhere P t → ∀ c, Everywhere P (.product [.num c, t]))

include hscale

theorem everywhere_rescale {t : Term} (h : Everywhere P t) (c : Rat) : Everywhere P (rescale c t) := by
  unfold rescale
  split
  · exact h
  · exact hscale h c

include hP

theorem everywhere_applyBuiltin {b : Builtin} {args : List Quantity} (hargs : ∀ p ∈ args, Everywhere P p.term)
    (h : applyBuiltin b args = .ok q) : Everywhere P q.term := by
  obtain ⟨ts, hterm, -, hts⟩ := applyBuiltin_term h
  refine hterm ▸ Term.everywhere_func.mpr ⟨hP.atom _ rfl, fun t ht => ?_⟩
  obtain ⟨p, hp, c, rfl⟩ := hts t ht
  exact everywhere_rescale hscale (hargs p hp) c

/-- A call keeps the form if the square root does. -/
theorem everywhere_apply {target : CallTarget} {args : List Quantity}
    (hsqrt : ∀ p q : Quantity, Everywhere P p.term → p.sqrt = .ok q → Everywhere P q.term)
    (hargs : ∀ p ∈ args, Everywhere P p.term) (h : target.apply args = .ok q) : Everywhere P q.term := by
  cases target with
  | entry e =>
    cases h
    exact Term.everywhere_apply.mpr ⟨hP.atom _ rfl, by simpa using hargs⟩
  | sqrt =>
    match args, hargs, h with
    | [p], hargs, h => exact hsqrt p q (hargs p (List.mem_singleton_self p)) h
    | [], _, h => cases h
    | _ :: _ :: _, _, h => cases h
  | builtin b => exact everywhere_applyBuiltin hP hscale hargs h

end Form

/-! ## Reduced terms -/

theorem applyBinary_reduced {op : BinaryOp} (hl : Everywhere Reduced l.term) (hr : Everywhere Reduced r.term)
    (h : applyBinary op l r = .ok q) : Everywhere Reduced q.term := by
  obtain ⟨a, b, hoperands, hterm⟩ := BinaryOp.applyBinary_term h
  obtain ⟨rfl, c, rfl⟩ := BinaryOp.operands_terms hoperands
  exact hterm ▸ BinaryOp.combine_reduced hl (everywhere_rescale Term.everywhere_reduced_scale hr c)

/-- Resolution gives reduced terms, whatever is resolved. -/
theorem keeps_reduced (s : Scope) : s.Keeps fun q => Everywhere Reduced q.term where
  number n := form_reduced.everywhere_num n
  symbol name := everywhere_role form_reduced name (s.role name)
  neg _ h := Term.everywhere_reduced_negated h
  binary _ _ _ _ hl hr h := applyBinary_reduced hl hr h
  call _ _ _ _ _ _ hargs h := by
    refine everywhere_apply form_reduced Term.everywhere_reduced_scale (fun p q hp h => ?_) hargs h
    have h : applyBinary .pow p (.plain (.num (1 / 2))) = .ok q := h
    exact applyBinary_reduced hp (form_reduced.everywhere_num _) h

/-! ## Tidy terms -/

mutual

/-- Every operation of the expression collects all that there is to collect. -/
def collects (s : Scope) : Expr → Bool
  | .number _ | .symbol _ => true
  | .neg e => collects s e
  | .binary op l r =>
    let terms := do
      let a ← s.quantity l
      let b ← s.quantity r
      op.operands a b
    collects s l && collects s r && terms.toOption.all fun (a, b) => op.collects a b
  | .call _ args => collectsAll s args

/-- Every operation of the expressions collects all that there is to collect. -/
def collectsAll (s : Scope) : List Expr → Bool
  | [] => true
  | e :: es => collects s e && collectsAll s es

end

theorem sqrt_tidy {p : Quantity} (hp : Everywhere Tidy p.term) (h : p.sqrt = .ok q) :
    Everywhere Tidy q.term := by
  have h : applyBinary .pow p (.plain (.num (1 / 2))) = .ok q := h
  obtain ⟨a, b, hoperands, hterm⟩ := BinaryOp.applyBinary_term h
  cases hoperands
  have hroot : BinaryOp.pow.collects p.term (.num (1 / 2)) = true := by
    simp [BinaryOp.collects, Term.isInteger]
  exact hterm ▸ BinaryOp.combine_tidy hp (form_tidy.everywhere_num _) hroot

mutual

theorem quantity_tidy : ∀ {e : Expr} {q : Quantity}, s.collects e = true → s.quantity e = .ok q →
    Everywhere Tidy q.term
  | .number n, q, _, h => by
    cases h
    exact form_tidy.everywhere_num n
  | .symbol name, q, _, h => by
    cases h
    exact everywhere_role form_tidy name (s.role name)
  | .neg e, q, hc, h => by
    obtain ⟨a, ha, rfl⟩ := Except.map_eq_ok.mp h
    have hc : s.collects e = true := hc
    exact Term.everywhere_tidy_negated (quantity_tidy hc ha)
  | .binary op l r, q, hc, h => by
    obtain ⟨p₁, hl, h⟩ := Except.bind_eq_ok.mp h
    obtain ⟨p₂, hr, h⟩ := Except.bind_eq_ok.mp h
    obtain ⟨a, b, hoperands, hterm⟩ := BinaryOp.applyBinary_term h
    have hterms : (do
        let a ← s.quantity l
        let b ← s.quantity r
        op.operands a b) = .ok (a, b) :=
      Except.bind_eq_ok.mpr ⟨p₁, hl, Except.bind_eq_ok.mpr ⟨p₂, hr, hoperands⟩⟩
    simp only [collects, hterms, Bool.and_eq_true] at hc
    obtain ⟨⟨hcl, hcr⟩, hop⟩ := hc
    obtain ⟨rfl, c, rfl⟩ := BinaryOp.operands_terms hoperands
    have hb := everywhere_rescale Term.everywhere_tidy_scale (quantity_tidy hcr hr) c
    exact hterm ▸ BinaryOp.combine_tidy (quantity_tidy hcl hl) hb hop
  | .call name args, q, hc, h => by
    obtain ⟨target, -, h⟩ := Except.bind_eq_ok.mp h
    obtain ⟨qs, hqs, h⟩ := Except.bind_eq_ok.mp h
    have hc : s.collectsAll args = true := hc
    exact everywhere_apply form_tidy Term.everywhere_tidy_scale (fun _ _ => sqrt_tidy)
      (quantityAll_tidy hc hqs) h

theorem quantityAll_tidy : ∀ {es : List Expr} {qs : List Quantity}, s.collectsAll es = true →
    s.quantityAll es = .ok qs → ∀ q ∈ qs, Everywhere Tidy q.term
  | [], qs, _, h, q, hq => by
    cases h
    cases hq
  | e :: es, qs, hc, h, q, hq => by
    obtain ⟨p, hp, h⟩ := Except.bind_eq_ok.mp h
    obtain ⟨ps, hps, h⟩ := Except.bind_eq_ok.mp h
    cases h
    obtain ⟨hce, hces⟩ := Bool.and_eq_true_iff.mp hc
    rcases List.mem_cons.mp hq with rfl | hq
    · exact quantity_tidy hce hp
    · exact quantityAll_tidy hces hps q hq

end

/-- What resolution gives is reduced, and tidy if every operation collects all that there is. -/
theorem resolve_canonical {e : Expr} (h : (s.resolve e).run f = .ok (q, g)) :
    Everywhere Reduced q.term ∧ (s.collects e = true → Everywhere Tidy q.term) :=
  ⟨s.keeps_reduced.resolve e f g q h, fun hc => quantity_tidy hc (resolve_quantity h)⟩

/-- The scope of a definition of `f` that brings in its parameters, where there are no entries. -/
def openScope : Scope := ⟨"f", none, .empty, true⟩

/-- The term that a text resolves to. -/
def termOf? (s : Scope) (text : String) : Option Term :=
  ((Expr.read text >>= fun e => (s.resolve e).run {}).map fun r => r.1.term).toOption

theorem exists_of_termOf? {text : String} {t : Term} (h : s.termOf? text = some t) :
    ∃ e q g, Expr.read text = .ok e ∧ (s.resolve e).run {} = .ok (q, g) ∧ q.term = t := by
  obtain ⟨⟨q, g⟩, hread, rfl⟩ := Except.map_eq_ok.mp (Except.toOption_eq_some.mp h)
  obtain ⟨e, hread, hrun⟩ := Except.bind_eq_ok.mp hread
  exact ⟨e, q, g, hread, hrun, rfl⟩

/-- Exponents of a sum add up to a fraction, and coefficients of its square to minus one: all is collected. -/
theorem resolve_canonical_roots : ∃ e q g,
    Expr.read "z*sqrt(x + y)/(x + y)^2 - 2*(x + y)^2 + (x + y)^2" = .ok e ∧
    openScope.collects e = true ∧ (openScope.resolve e).run {} = .ok (q, g) ∧
    Everywhere Reduced q.term ∧ Everywhere Tidy q.term := by
  have hread : (Expr.read "z*sqrt(x + y)/(x + y)^2 - 2*(x + y)^2 + (x + y)^2").toOption.all
      openScope.collects = true := by decide +kernel
  have hsome : (openScope.termOf? "z*sqrt(x + y)/(x + y)^2 - 2*(x + y)^2 + (x + y)^2").isSome = true := by
    decide +kernel
  obtain ⟨t, ht⟩ := Option.isSome_iff_exists.mp hsome
  obtain ⟨e, q, g, he, hrun, -⟩ := exists_of_termOf? ht
  obtain ⟨hreduced, htidy⟩ := resolve_canonical hrun
  rw [he] at hread
  exact ⟨e, q, g, he, hread, hrun, hreduced, htidy hread⟩

/-- A sum is left in a sum once its coefficients add up to one, and a power next to its base once the
exponents of the power do. -/
theorem left_uncollected :
    (∃ e q g, Expr.read "z + 2*(x + y) - (x + y)" = .ok e ∧ (openScope.resolve e).run {} = .ok (q, g) ∧
      q.term = .add [.var "z", .add [.var "x", .var "y"]] ∧ ¬ Everywhere Tidy q.term) ∧
    ∃ e q g, Expr.read "sqrt(x^2)*x*sqrt(x^2)" = .ok e ∧ (openScope.resolve e).run {} = .ok (q, g) ∧
      q.term = .mul 1 [.pow (.var "x") (.num 2), .var "x"] ∧ ¬ Everywhere Tidy q.term := by
  constructor
  · have hsum : openScope.termOf? "z + 2*(x + y) - (x + y)" =
        some (.add [.var "z", .add [.var "x", .var "y"]]) := by decide +kernel
    obtain ⟨e, q, g, he, hrun, hterm⟩ := exists_of_termOf? hsum
    exact ⟨e, q, g, he, hrun, hterm, hterm ▸ by decide⟩
  · have hproduct : openScope.termOf? "sqrt(x^2)*x*sqrt(x^2)" =
        some (.mul 1 [.pow (.var "x") (.num 2), .var "x"]) := by decide +kernel
    obtain ⟨e, q, g, he, hrun, hterm⟩ := exists_of_termOf? hproduct
    exact ⟨e, q, g, he, hrun, hterm, hterm ▸ by decide⟩

end Scope

namespace Entry

/-! ## Entries -/

variable {context : BuildContext} {key : Key} {e : Entry} {t : Term}

theorem build_reduced {source : Source} (h : build context key source = .ok e)
    (ht : e.expression = some t) : Everywhere Reduced t := by
  obtain ⟨text, rfl⟩ := exists_text_of_build h (Option.isSome_of_eq_some ht)
  obtain ⟨x, q, found, term, unit, units, -, -, hrun, hunit, rfl⟩ := derive_iff.mp h
  have hq := (Scope.keeps_reduced _).resolve x {} found q hrun
  obtain ⟨c, rfl⟩ := applyDeclaredUnit_term hunit
  cases ht
  exact Scope.everywhere_rescale Term.everywhere_reduced_scale hq c

/-- The expression of every entry is reduced. -/
theorem Built.reduced (h : e.Built) (ht : e.expression = some t) : Everywhere Reduced t := by
  induction h with
  | build _ _ h => exact build_reduced h ht
  | snapshot _ _ ih => exact ih ht

end Entry

end Formulary
