import Formulary.Proofs.Entry.Units
import Formulary.Proofs.Term.Canonical

/-!
Expressions of entries are canonical.

Every operation of resolution builds its term by the canonicalising constructors, and so does the
conversion to the declared unit. What an entry runs is the term that it shows.
-/

namespace Formulary

open Term (Canonical Formed)

variable {P Q : String → Prop} {A : Term → Prop}

namespace Quantity

variable {l r q : Quantity} {t a b : Term}

theorem rescale_formed {f : Rat} (h : Formed A t) : Formed A (rescale f t) := by
  unfold rescale
  split
  · exact h
  · exact .product (by simpa using ⟨.num f, h⟩)

theorem rescale_canonical {f : Rat} (h : Canonical P Q t) : Canonical P Q (rescale f t) :=
  (rescale_formed h.formed).canonical

/-- A plain number is the term rescaled. -/
theorem toPlain_term {name : String} (h : q.toPlain name = .ok t) : ∃ c, t = rescale c q.term := by
  unfold toPlain at h
  split at h
  · cases h
    exact ⟨1, (if_pos rfl).symm⟩
  · split at h
    · cases h
      exact ⟨_, rfl⟩
    · cases h

/-- In one unit the left term is as it was, and the right one is rescaled. -/
theorem unify_terms {op : UnitOp} {unit : Option PhysicalUnit} (h : unify op l r = .ok (a, b, unit)) :
    a = l.term ∧ ∃ c, b = rescale c r.term := by
  unfold unify at h
  split at h
  · cases h
    exact ⟨rfl, 1, (if_pos rfl).symm⟩
  · cases h
    exact ⟨rfl, 1, (if_pos rfl).symm⟩
  · cases h
    exact ⟨rfl, 1, (if_pos rfl).symm⟩
  · obtain ⟨_, -, h⟩ := Except.bind_eq_ok.mp h
    obtain ⟨_, -, h⟩ := Except.bind_eq_ok.mp h
    cases h
    exact ⟨rfl, _, rfl⟩

end Quantity

namespace BinaryOp

open Quantity

variable {op : BinaryOp} {l r q : Quantity} {a b : Term}

/-- The terms that the operation puts together, in one unit if their sum or difference is formed. -/
def operands (op : BinaryOp) (l r : Quantity) : Except Fault (Term × Term) :=
  match op with
  | .add => (unify .add l r).map fun (a, b, _) => (a, b)
  | .sub => (unify .sub l r).map fun (a, b, _) => (a, b)
  | .mul | .div => .ok (l.term, r.term)
  | .pow => (r.toPlain "pow").map fun e => (l.term, e)

/-- The term that the operation makes of two. -/
def combine (op : BinaryOp) (a b : Term) : Term :=
  match op with
  | .add => .sum [a, b]
  | .sub => .difference a b
  | .mul => .product [a, b]
  | .div => .quotient a b
  | .pow => .power a b

theorem operands_terms (h : op.operands l r = .ok (a, b)) : a = l.term ∧ ∃ c, b = rescale c r.term := by
  cases op with
  | add =>
    obtain ⟨_, hunify, h⟩ := Except.map_eq_ok.mp h
    cases h
    exact unify_terms hunify
  | sub =>
    obtain ⟨_, hunify, h⟩ := Except.map_eq_ok.mp h
    cases h
    exact unify_terms hunify
  | mul =>
    cases h
    exact ⟨rfl, 1, (if_pos rfl).symm⟩
  | div =>
    cases h
    exact ⟨rfl, 1, (if_pos rfl).symm⟩
  | pow =>
    obtain ⟨_, hplain, h⟩ := Except.map_eq_ok.mp h
    cases h
    exact ⟨rfl, toPlain_term hplain⟩

/-- The term of the result is what the operation makes of the terms. -/
theorem applyBinary_term (h : Scope.applyBinary op l r = .ok q) :
    ∃ a b, op.operands l r = .ok (a, b) ∧ q.term = op.combine a b := by
  cases op with
  | add =>
    obtain ⟨⟨a, b, unit⟩, hunify, h⟩ := Except.bind_eq_ok.mp h
    cases h
    exact ⟨a, b, Except.map_eq_ok.mpr ⟨_, hunify, rfl⟩, rfl⟩
  | sub =>
    obtain ⟨⟨a, b, unit⟩, hunify, h⟩ := Except.bind_eq_ok.mp h
    cases h
    exact ⟨a, b, Except.map_eq_ok.mpr ⟨_, hunify, rfl⟩, rfl⟩
  | mul =>
    have h : l.mul r = .ok q := h
    rw [mul_eq] at h
    obtain ⟨unit, -, rfl⟩ := Except.map_eq_ok.mp h
    exact ⟨_, _, rfl, rfl⟩
  | div =>
    have h : l.div r = .ok q := h
    rw [div_eq] at h
    obtain ⟨unit, -, rfl⟩ := Except.map_eq_ok.mp h
    exact ⟨_, _, rfl, rfl⟩
  | pow =>
    have h : l.pow r = .ok q := h
    rw [pow_eq] at h
    obtain ⟨e, he, h⟩ := Except.bind_eq_ok.mp h
    obtain ⟨unit, -, rfl⟩ := Except.map_eq_ok.mp h
    exact ⟨_, e, Except.map_eq_ok.mpr ⟨e, he, rfl⟩, rfl⟩

theorem combine_formed (ha : Formed A a) (hb : Formed A b) : Formed A (op.combine a b) := by
  cases op with
  | add => exact .sum (by simpa using ⟨ha, hb⟩)
  | sub => exact ha.difference hb
  | mul => exact .product (by simpa using ⟨ha, hb⟩)
  | div => exact ha.quotient hb
  | pow => exact ha.power hb

end BinaryOp

namespace Scope

open Quantity

variable {s : Scope} {l r q : Quantity}

theorem applyBinary_formed {op : BinaryOp} (hl : Formed A l.term) (hr : Formed A r.term)
    (h : applyBinary op l r = .ok q) : Formed A q.term := by
  obtain ⟨a, b, hoperands, hterm⟩ := BinaryOp.applyBinary_term h
  obtain ⟨rfl, c, rfl⟩ := BinaryOp.operands_terms hoperands
  exact hterm ▸ BinaryOp.combine_formed hl (rescale_formed hr)

/-- A built-in function is applied to as many terms as it is given, each rescaled. -/
theorem applyBuiltin_term {f : Builtin} {args : List Quantity} (h : applyBuiltin f args = .ok q) :
    ∃ ts, q.term = .func f ts ∧ ts.length = args.length ∧
      ∀ t ∈ ts, ∃ p ∈ args, ∃ c, t = rescale c p.term := by
  have hself : ∀ p : Quantity, ∃ c, p.term = rescale c p.term := fun p => ⟨1, (if_pos rfl).symm⟩
  unfold applyBuiltin at h
  split at h
  · cases h
    exact ⟨_, rfl, rfl, by simpa using hself _⟩
  · rename_i y x
    obtain ⟨⟨a, b, unit⟩, hunify, h⟩ := Except.bind_eq_ok.mp h
    obtain ⟨rfl, c, rfl⟩ := unify_terms hunify
    cases h
    refine ⟨_, rfl, rfl, List.forall_mem_cons.mpr ⟨⟨y, by simp, hself y⟩, ?_⟩⟩
    exact List.forall_mem_singleton.mpr ⟨x, by simp, c, rfl⟩
  · rename_i p _
    obtain ⟨t, ht, h⟩ := Except.bind_eq_ok.mp h
    obtain ⟨c, rfl⟩ := toPlain_term ht
    cases h
    exact ⟨_, rfl, rfl, List.forall_mem_singleton.mpr ⟨p, by simp, c, rfl⟩⟩
  · cases h

theorem applyBuiltin_formed {f : Builtin} {args : List Quantity}
    (hfunc : ∀ ts, ts.length = args.length → (∀ t ∈ ts, Formed A t) → A (.func f ts))
    (hargs : ∀ p ∈ args, Formed A p.term) (h : applyBuiltin f args = .ok q) :
    Formed A q.term := by
  obtain ⟨ts, hterm, hlen, hts⟩ := applyBuiltin_term h
  refine hterm ▸ .atom rfl (hfunc ts hlen fun t ht => ?_)
  obtain ⟨p, hp, c, rfl⟩ := hts t ht
  exact rescale_formed (hargs p hp)

/-- What a call gives is formed from what its arguments are, if the applications in it are fit. -/
theorem apply_formed {target : CallTarget} {args : List Quantity}
    (hentry : ∀ e, target = .entry e → (∀ t ∈ args.map Quantity.term, Formed A t) →
      A (.apply e.name (args.map Quantity.term)))
    (hfunc : ∀ f ts, target = .builtin f → ts.length = args.length →
      (∀ t ∈ ts, Formed A t) → A (.func f ts))
    (hargs : ∀ p ∈ args, Formed A p.term) (h : target.apply args = .ok q) : Formed A q.term := by
  have hterms : ∀ t ∈ args.map Quantity.term, Formed A t := fun t ht => by
    obtain ⟨p, hp, rfl⟩ := List.mem_map.mp ht
    exact hargs p hp
  cases target with
  | entry e =>
    cases h
    exact .atom rfl (hentry e rfl hterms)
  | sqrt =>
    match args, hargs, h with
    | [p], hargs, h =>
      have h : applyBinary .pow p (.plain (.num (1 / 2))) = .ok q := h
      exact applyBinary_formed (hargs p (List.mem_singleton_self p)) (.num _) h
    | [], _, h => cases h
    | _ :: _ :: _, _, h => cases h
  | builtin b => exact applyBuiltin_formed (fun ts => hfunc b ts rfl) hargs h

/-- Resolution gives canonical terms, whatever the names. -/
theorem keeps_canonical (s : Scope) :
    s.Keeps fun q => Canonical (fun _ => True) (fun _ => True) q.term where
  number q := .num q
  symbol name := by
    cases s.role name with
    | parameter => exact .var trivial
    | constant c => exact .const c
    | entry e =>
      refine .apply trivial fun t ht => ?_
      obtain ⟨p, -, rfl⟩ := List.mem_map.mp ht
      exact .var trivial
  neg _ h := h.negated
  binary _ _ _ _ hl hr h := (applyBinary_formed hl.formed hr.formed h).canonical
  call _ _ _ _ _ _ hargs h := by
    refine (apply_formed (fun e _ hts => ?_) (fun f ts _ _ hts => ?_)
      (fun p hp => (hargs p hp).formed) h).canonical
    · exact .apply trivial fun t ht => (hts t ht).canonical
    · exact .func f fun t ht => (hts t ht).canonical

end Scope

namespace Entry

variable {context : BuildContext} {key : Key} {e : Entry} {t : Term}

/-- In the declared unit the term is rescaled. -/
theorem applyDeclaredUnit_term {q : Quantity} {unit : Option PhysicalUnit} {units : Option String}
    (h : applyDeclaredUnit key q = .ok (t, unit, units)) : ∃ c, t = Quantity.rescale c q.term := by
  unfold applyDeclaredUnit at h
  split at h
  · split at h
    · cases h
      exact ⟨_, rfl⟩
    · cases h
  all_goals
    cases h
    exact ⟨1, (if_pos rfl).symm⟩

theorem applyDeclaredUnit_formed {q : Quantity} {unit : Option PhysicalUnit}
    {units : Option String} (hq : Formed A q.term)
    (h : applyDeclaredUnit key q = .ok (t, unit, units)) : Formed A t := by
  obtain ⟨c, rfl⟩ := applyDeclaredUnit_term h
  exact Quantity.rescale_formed hq

/-- The expression of an entry is canonical, and it is what the entry runs. -/
structure Runs (e : Entry) (t : Term) : Prop where
  canonical : Canonical (fun _ => True) (fun _ => True) t
  compiled : ∃ definition entries, e.callable = .compiled definition entries ∧
    definition.expression = t

theorem build_runs {source : Source} (h : build context key source = .ok e)
    (ht : e.expression = some t) : e.Runs t := by
  obtain ⟨text, rfl⟩ := exists_text_of_build h (Option.isSome_of_eq_some ht)
  obtain ⟨x, q, found, term, unit, units, -, -, hrun, hunit, rfl⟩ := derive_iff.mp h
  have hq := (Scope.keeps_canonical _).resolve x {} found q hrun
  obtain rfl : term = t := Option.some.inj ht
  exact ⟨(applyDeclaredUnit_formed hq.formed hunit).canonical, _, _, rfl, rfl⟩

theorem Built.runs (h : e.Built) (ht : e.expression = some t) : e.Runs t := by
  induction h with
  | build _ _ h => exact build_runs h ht
  | snapshot _ _ ih => exact ⟨(ih ht).canonical, (ih ht).compiled⟩

end Entry

end Formulary
