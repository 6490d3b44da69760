import Formulary.Proofs.Entry.Provided
import Formulary.Proofs.Expr.Acceptance
import Formulary.Proofs.Key

/-!
Where the parameters of an entry come from.

A key that lists arguments lists names. The parameters that resolution finds are symbols of the
expression, or parameters of entries that it mentions without arguments; the symbols of an expression
that has been read are names. So the parameters of every entry are names if those of the functions
given from outside are.
-/

namespace Formulary

/-! ## Symbols -/

theorem Expr.forall_symbolsInAll {P : String → Prop} {es : List Expr}
    (h : ∀ e ∈ es, ∀ n ∈ e.symbolsIn, P n) :
    ∀ n ∈ symbolsInAll es, P n := by
  induction es with
  | nil => exact fun n hn => absurd hn List.not_mem_nil
  | cons e es ih =>
    intro n hn
    rcases List.mem_append.mp hn with hn | hn
    · exact h e (by simp) n hn
    · exact ih (fun e he => h e (by simp [he])) n hn

/-- The symbols of an expression that the grammar derives are names. -/
theorem Derives.symbols {l : Level} {s : List Char} {e : Expr} (h : Derives l s e) :
    ∀ n ∈ e.symbolsIn, isIdentifier n.toList = true := by
  induction h with
  | literal | callEmpty => exact fun n hn => absurd hn List.not_mem_nil
  | name h =>
    intro n hn
    rw [List.mem_singleton.mp hn, String.toList_ofList]
    exact h
  | call _ _ _ _ ih =>
    refine Expr.forall_symbolsInAll fun e he => ?_
    obtain ⟨a, ha, rfl⟩ := List.mem_map.mp he
    exact ih a ha
  | group _ ih | padded _ _ _ ih | minus _ _ ih | plus _ _ ih | operand _ ih => exact ih
  | power _ _ iha ihb | operation _ _ _ iha ihb =>
    exact fun n hn => (List.mem_append.mp hn).elim (iha n) (ihb n)

theorem Expr.symbols_of_read {text : String} {e : Expr} (h : Expr.read text = .ok e) :
    ∀ n ∈ e.symbolsIn, isIdentifier n.toList = true := by
  unfold Expr.read at h
  split at h
  · cases h
    exact (read?_eq_ok.mp ‹_›).symbols
  · cases h

/-! ## Resolution -/

namespace Scope

variable {s : Scope} {f g : Findings} {P : String → Prop}

/-- What a symbol brings in has a property that the symbol and the parameters of entries have. -/
theorem ResolvedSymbol.params {name : String} {q : Quantity} (h : s.ResolvedSymbol name f g q)
    (hs : ∀ n e, s.entries.get? n = some e → ∀ p ∈ e.params, P p) (hname : P name)
    (hf : ∀ p ∈ f.params, P p) : ∀ p ∈ g.params, P p := by
  obtain ⟨f₁, hlists, hparams⟩ := h.lists
  intro p hp
  rcases hlists.only p (hparams ▸ hp) with hp | hp
  · exact hf p hp
  · cases hrole : s.role name with
    | parameter =>
      rw [hrole] at hp
      exact List.mem_singleton.mp hp ▸ hname
    | entry e =>
      rw [hrole] at hp
      exact hs name e (role_eq_entry.mp hrole).2 p hp
    | constant c =>
      rw [hrole] at hp
      cases hp

mutual

/-- The parameters that are found have a property that the symbols and the parameters of entries
have. -/
theorem resolve_params (hs : ∀ n e, s.entries.get? n = some e → ∀ p ∈ e.params, P p) :
    ∀ (x : Expr) (f g : Findings) (q : Quantity), (s.resolve x).run f = .ok (q, g) →
      (∀ n ∈ x.symbolsIn, P n) → (∀ p ∈ f.params, P p) → ∀ p ∈ g.params, P p
  | .number _, f, g, q, h, _, hf => by
    obtain ⟨-, rfl⟩ := run_resolve_number.mp h
    exact hf
  | .symbol name, f, g, q, h, hx, hf =>
    (run_resolveSymbol h).params hs (hx name (List.mem_singleton_self _)) hf
  | .neg x, f, g, q, h, hx, hf => by
    obtain ⟨_, he, -⟩ := run_resolve_neg.mp h
    exact resolve_params hs x f g _ he hx hf
  | .binary op l r, f, g, q, h, hx, hf => by
    obtain ⟨a, f₁, b, hl, hr, -⟩ := run_resolve_binary.mp h
    have hf₁ := resolve_params hs l f f₁ a hl (fun n hn => hx n (List.mem_append_left _ hn)) hf
    exact resolve_params hs r f₁ g b hr (fun n hn => hx n (List.mem_append_right _ hn)) hf₁
  | .call name args, f, g, q, h, hx, hf => by
    obtain ⟨target, qs, f₁, -, hargs, h⟩ := run_resolve_call.mp h
    obtain ⟨-, -, hparams⟩ := run_applyTarget h
    rw [hparams]
    exact resolveAll_params hs args f f₁ qs hargs hx hf

theorem resolveAll_params (hs : ∀ n e, s.entries.get? n = some e → ∀ p ∈ e.params, P p) :
    ∀ (xs : List Expr) (f g : Findings) (qs : List Quantity),
      (s.resolveAll xs).run f = .ok (qs, g) → (∀ n ∈ Expr.symbolsInAll xs, P n) →
        (∀ p ∈ f.params, P p) → ∀ p ∈ g.params, P p
  | [], f, g, qs, h, _, hf => by
    obtain ⟨-, rfl⟩ := run_resolveAll_nil.mp h
    exact hf
  | x :: xs, f, g, qs, h, hx, hf => by
    obtain ⟨q, f₁, qs', he, hes, -⟩ := run_resolveAll_cons.mp h
    have hf₁ := resolve_params hs x f f₁ q he (fun n hn => hx n (List.mem_append_left _ hn)) hf
    exact resolveAll_params hs xs f₁ g qs' hes (fun n hn => hx n (List.mem_append_right _ hn)) hf₁

end

end Scope

/-! ## Entries -/

/-- The arguments that a key lists are names. -/
theorem Key.args_of_written {k : Key} {args : List String} (h : k.Written) (hargs : k.args = some args) :
    ∀ p ∈ args, isIdentifier p.toList = true := by
  obtain ⟨text, h⟩ := h
  obtain ⟨-, inside, units, -, hlists, -⟩ := Key.spelled_of_read h
  rw [hargs] at hlists
  cases hlists with
  | some hlists => exact hlists.isIdentifier

/-- The parameters of the function, if it is one, are names. -/
def Source.NamesParameters : Source → Prop
  | .expression _ => True
  | .function f => ∀ p ∈ f.callable.params, isIdentifier p.toList = true

namespace Entry

variable {context : BuildContext} {key : Key} {e : Entry}

/-- The parameters of what is built are names if those of the entries at hand are. -/
theorem params_of_build {source : Source} (h : build context key source = .ok e)
    (hkey : key.Written) (hsource : source.NamesParameters)
    (hentries : ∀ n g, context.entries.get? n = some g → ∀ p ∈ g.params, isIdentifier p.toList = true) :
    ∀ p ∈ e.params, isIdentifier p.toList = true := by
  cases source with
  | expression text =>
    obtain ⟨x, _, found, _, _, _, -, hread, hrun, -, rfl⟩ := derive_iff.mp h
    change ∀ p ∈ key.args.getD found.params, isIdentifier p.toList = true
    cases hargs : key.args with
    | none =>
      exact Scope.resolve_params (s := context.scope key) hentries x _ _ _ hrun
        (Expr.symbols_of_read hread) fun p hp => absurd hp List.not_mem_nil
    | some args => exact Key.args_of_written hkey hargs
  | function f =>
    rw [params, (wrapped_of_wrap h).signature_eq]
    exact hsource

/-- An entry of a function runs that function, with its results rescaled if they are. -/
theorem Built.scaledBy {f : Annotated} (h : e.Built) (hsource : e.source = .function f) :
    ∃ factor, e.callable = f.callable.scaledBy factor := by
  induction h with
  | @build context key source e _ _ h =>
    obtain rfl : source = .function f := (source_of_build h).symm.trans hsource
    obtain ⟨factor, -, hcallable, -⟩ := (wrapped_of_wrap h).scaled
    exact ⟨factor, hcallable⟩
  | snapshot _ _ ih => exact ih hsource

end Entry

end Formulary
