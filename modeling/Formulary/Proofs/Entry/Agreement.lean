import Formulary.Proofs.Entry.Build

/-!
What a built entry takes from the entries at hand.

Resolution looks up the names that the text mentions, besides the arguments of the key, and no
others. So building the same source against other entries that agree on these names gives the same
entry again, but for its stamp, its fill value and its snapshot.
-/

namespace Formulary

namespace Scope

variable {s : Scope} {m : NameMap Entry} {f g : Findings} {q : Quantity}

/-- The map has the entries of the scope under those of the names that are not declared. -/
def Agrees (s : Scope) (m : NameMap Entry) (names : List String) : Prop :=
  ∀ n ∈ names, s.isDeclared n = false → m.get? n = s.entries.get? n

theorem Agrees.mono {l l' : List String} (h : s.Agrees m l) (hl : l' ⊆ l) : s.Agrees m l' :=
  fun n hn => h n (hl hn)

/-- The names of an operation are those of its operands. -/
theorem Agrees.binary {op : BinaryOp} {l r : Expr} (h : s.Agrees m (Expr.binary op l r).namesIn) :
    s.Agrees m l.namesIn ∧ s.Agrees m r.namesIn := by
  constructor <;> refine h.mono fun n hn => ?_ <;>
    simp only [Expr.namesIn, Expr.symbolsIn, Expr.callsIn, List.mem_append] at hn ⊢ <;> tauto

/-- The names of a call are the one that is called and those of its arguments. -/
theorem Agrees.call {name : String} {args : List Expr}
    (h : s.Agrees m (Expr.call name args).namesIn) :
    s.Agrees m [name] ∧ s.Agrees m (Expr.namesInAll args) := by
  constructor <;> refine h.mono fun n hn => ?_ <;>
    simp only [Expr.namesIn, Expr.namesInAll, Expr.symbolsIn, Expr.callsIn, List.mem_append,
      List.mem_cons, List.not_mem_nil, or_false] at hn ⊢ <;> tauto

theorem Agrees.cons {x : Expr} {xs : List Expr} (h : s.Agrees m (Expr.namesInAll (x :: xs))) :
    s.Agrees m x.namesIn ∧ s.Agrees m (Expr.namesInAll xs) := by
  constructor <;> refine h.mono fun n hn => ?_ <;>
    simp only [Expr.namesIn, Expr.namesInAll, Expr.symbolsInAll, Expr.callsInAll,
      List.mem_append] at hn ⊢ <;> tauto

theorem resolveSymbol_of_agrees {name : String} (h : s.Agrees m [name])
    (hrun : (s.resolveSymbol name).run f = .ok (q, g)) :
    (({ s with entries := m } : Scope).resolveSymbol name).run f = .ok (q, g) := by
  unfold resolveSymbol at hrun ⊢
  change (if s.isDeclared name = true then _ else _ : Resolution Quantity).run f = _
  by_cases hd : s.isDeclared name = true
  · rw [if_pos hd] at hrun ⊢
    exact hrun
  · have hget := h name (List.mem_singleton_self _) (by simpa using hd)
    rw [if_neg hd] at hrun ⊢
    by_cases ho : name = s.owner
    · rw [if_pos ho] at hrun
      cases hrun
    · rw [if_neg ho] at hrun ⊢
      simp only [hget]
      cases hs : s.entries.get? name with
      | some e =>
        simp only [hs] at hrun
        exact hrun
      | none =>
        simp only [hs] at hrun
        cases hc : Constant.ofName? name with
        | some c =>
          simp only [hc] at hrun
          exact hrun
        | none =>
          simp only [hc] at hrun ⊢
          split at hrun
          · rename_i hopen
            rw [if_pos hopen]
            exact hrun
          · cases hrun

theorem callTarget_of_agrees {name : String} {count : Nat} {target : CallTarget}
    (h : s.Agrees m [name]) (htarget : s.callTarget name count = .ok target) :
    ({ s with entries := m } : Scope).callTarget name count = .ok target := by
  unfold callTarget at htarget ⊢
  by_cases ho : name = s.owner
  · rw [if_pos ho] at htarget
    cases htarget
  · have hlookup : (if ({ s with entries := m } : Scope).isDeclared name then none
        else m.get? name) = if s.isDeclared name then none else s.entries.get? name := by
      change (if s.isDeclared name then none else m.get? name) = _
      by_cases hd : s.isDeclared name = true
      · rw [if_pos hd, if_pos hd]
      · rw [if_neg hd, if_neg hd, h name (List.mem_singleton_self _) (by simpa using hd)]
    rw [if_neg ho] at htarget ⊢
    simp only [hlookup]
    cases htaken : (if s.isDeclared name then none else s.entries.get? name) with
    | some e =>
      simp only [htaken] at htarget
      exact htarget
    | none =>
      simp only [htaken] at htarget
      by_cases hsqrt : name = "sqrt"
      · rw [if_pos hsqrt] at htarget ⊢
        exact htarget
      · rw [if_neg hsqrt] at htarget ⊢
        cases hb : Builtin.ofName? name with
        | some b =>
          simp only [hb] at htarget
          exact htarget
        | none =>
          simp only [hb] at htarget
          cases htarget

mutual

/-- What is resolved against the entries of the scope is resolved in the same way against others that
agree on the names in the expression. -/
theorem resolve_of_agrees : ∀ (x : Expr) {f g : Findings} {q : Quantity},
    s.Agrees m x.namesIn → (s.resolve x).run f = .ok (q, g) →
      (({ s with entries := m } : Scope).resolve x).run f = .ok (q, g)
  | .number _, _, _, _, _, hrun => run_resolve_number.mpr (run_resolve_number.mp hrun)
  | .symbol name, _, _, _, h, hrun => by
    rw [resolve] at hrun ⊢
    exact resolveSymbol_of_agrees h hrun
  | .neg x, _, _, _, h, hrun => by
    obtain ⟨a, hx, ha⟩ := run_resolve_neg.mp hrun
    exact run_resolve_neg.mpr ⟨a, resolve_of_agrees x h hx, ha⟩
  | .binary op l r, _, _, _, h, hrun => by
    obtain ⟨a, f₁, b, hl, hr, hop⟩ := run_resolve_binary.mp hrun
    exact run_resolve_binary.mpr
      ⟨a, f₁, b, resolve_of_agrees l h.binary.1 hl, resolve_of_agrees r h.binary.2 hr, hop⟩
  | .call name args, _, _, _, h, hrun => by
    obtain ⟨target, quantities, f₁, htarget, hargs, happly⟩ := run_resolve_call.mp hrun
    exact run_resolve_call.mpr ⟨target, quantities, f₁, callTarget_of_agrees h.call.1 htarget,
      resolveAll_of_agrees args h.call.2 hargs, happly⟩

theorem resolveAll_of_agrees : ∀ (xs : List Expr) {f g : Findings} {qs : List Quantity},
    s.Agrees m (Expr.namesInAll xs) → (s.resolveAll xs).run f = .ok (qs, g) →
      (({ s with entries := m } : Scope).resolveAll xs).run f = .ok (qs, g)
  | [], _, _, _, _, hrun => run_resolveAll_nil.mpr (run_resolveAll_nil.mp hrun)
  | x :: xs, _, _, _, h, hrun => by
    obtain ⟨a, f₁, as, hx, hxs, hall⟩ := run_resolveAll_cons.mp hrun
    exact run_resolveAll_cons.mpr
      ⟨a, f₁, as, resolve_of_agrees x h.cons.1 hx, resolveAll_of_agrees xs h.cons.2 hxs, hall⟩

end

end Scope

namespace Entry

variable {context : BuildContext} {key : Key} {source : Source} {e e' : Entry}

/-- The entries differ at most in stamp, fill value and snapshot. -/
def SameSnapshot (e e' : Entry) : Prop :=
  e' = { e with stamp := e'.stamp, fill := e'.fill, data := e'.data }

theorem SameSnapshot.refl (e : Entry) : e.SameSnapshot e := rfl

theorem SameSnapshot.trans {e'' : Entry} (h : e.SameSnapshot e') (h' : e'.SameSnapshot e'') :
    e.SameSnapshot e'' := by
  unfold SameSnapshot at *
  rw [h] at h'
  exact h'

theorem SameSnapshot.signature_eq (h : e.SameSnapshot e') : e'.signature = e.signature :=
  (congrArg signature h).trans rfl

theorem SameSnapshot.expression_eq (h : e.SameSnapshot e') : e'.expression = e.expression :=
  (congrArg expression h).trans rfl

theorem SameSnapshot.callable_eq (h : e.SameSnapshot e') : e'.callable = e.callable :=
  (congrArg callable h).trans rfl

theorem SameSnapshot.dependencies_eq (h : e.SameSnapshot e') :
    e'.dependencies = e.dependencies :=
  (congrArg dependencies h).trans rfl

/-- The same text, built against entries that agree on the names that it mentions, gives the same
entry but for stamp, fill value and snapshot. -/
theorem derive_of_agrees (context' : BuildContext) {text : String}
    (h : derive context key text = .ok e)
    (hfree : context'.freeParameters = context.freeParameters)
    (hagree : ∀ n ∈ Source.mentions key (.expression text),
      context'.entries.get? n = context.entries.get? n) :
    ∃ e', derive context' key text = .ok e' ∧ e.SameSnapshot e' := by
  obtain ⟨x, quantity, found, term, unit, units, hres, hread, hrun, hunit, rfl⟩ := derive_iff.mp h
  have hscope : (context.scope key).Agrees context'.entries x.namesIn := fun n hn hdecl =>
    hagree n ((mentions_expression hread n).mpr ⟨hn, hdecl⟩)
  have hsame : context'.scope key = { context.scope key with entries := context'.entries } := by
    rw [BuildContext.scope, hfree]
    rfl
  have hrun' := Scope.resolve_of_agrees x hscope hrun
  rw [← hsame] at hrun'
  exact ⟨_, derive_iff.mpr ⟨x, quantity, found, term, unit, units, hres, hread, hrun', hunit, rfl⟩,
    rfl⟩

/-- The same source, built against entries that agree on the names that it mentions, gives the same
entry but for stamp, fill value and snapshot. -/
theorem build_of_agrees (context' : BuildContext) (h : build context key source = .ok e)
    (hfree : context'.freeParameters = context.freeParameters)
    (hagree : ∀ n ∈ source.mentions key, context'.entries.get? n = context.entries.get? n) :
    ∃ e', build context' key source = .ok e' ∧ e.SameSnapshot e' := by
  cases source with
  | expression text => exact derive_of_agrees context' h hfree hagree
  | function f =>
    obtain ⟨native, factor, hres, hparams, hhidden, hnative, hfactor, rfl⟩ := wrap_iff.mp h
    exact ⟨_, wrap_iff.mpr ⟨native, factor, hres, hparams, hhidden, hnative, hfactor, rfl⟩, rfl⟩

end Entry

end Formulary
