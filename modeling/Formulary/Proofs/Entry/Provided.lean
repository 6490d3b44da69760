import Formulary.Proofs.Entry.Canonical
import Formulary.Proofs.Term.Ready

/-!
What resolution provides for.

Every symbol that has been resolved stands for something, and so does every called name, whatever
becomes of the terms they are in. The term that a resolution gives is formed from applications of
entries that have been recorded, each to a number of arguments that the entry takes, and of
functions to as many arguments as they have; its parameters have been listed. What comes later in
the same resolution only adds to what has been found, so a part keeps what it relies on.
-/

namespace Formulary

open Term (Formed Ready)

theorem Entry.contains_recordIn {e : Entry} {m : NameMap Entry} {n : String} :
    (e.recordIn m).contains n = true ↔ n = e.name ∨ m.contains n = true := by
  unfold recordIn
  split
  · rename_i hc
    exact ⟨.inr, fun h => h.elim (fun hn => hn ▸ hc) id⟩
  · simp [NameMap.contains_insert]

namespace Scope

variable {s : Scope} {f g h : Findings} {t : Term}

/-- What has been found stays so, and if the key lists arguments, only these are new parameters. -/
structure Follows (s : Scope) (f g : Findings) : Prop where
  params : f.params ⊆ g.params
  applied : ∀ n, f.applied.contains n = true → g.applied.contains n = true
  declared : s.declared.isSome = true → ∀ p ∈ g.params, p ∈ f.params ∨ s.isDeclared p = true

theorem Follows.refl (f : Findings) : s.Follows f f :=
  ⟨fun _ hp => hp, fun _ hn => hn, fun _ _ hp => .inl hp⟩

theorem Follows.trans (hfg : s.Follows f g) (hgh : s.Follows g h) : s.Follows f h where
  params _ hp := hgh.params (hfg.params hp)
  applied n hn := hgh.applied n (hfg.applied n hn)
  declared hd p hp := (hgh.declared hd p hp).elim (hfg.declared hd p) .inr

/-- The entry of the name is recorded and can be called with as many arguments. -/
def Takes (s : Scope) (g : Findings) (name : String) (count : Nat) : Prop :=
  g.applied.contains name = true ∧
    ∃ e, s.entries.get? name = some e ∧ checkEntryCall e count = .ok ()

/-- The term is formed from what has been found. -/
def Provides (s : Scope) (g : Findings) : Term → Prop := Formed (Ready (· ∈ g.params) (s.Takes g))

theorem Provides.mono (ht : s.Provides f t) (hfg : s.Follows f g) : s.Provides g t :=
  Formed.mono ht fun _ hu =>
    hu.mono (fun _ hp => hfg.params hp) fun n _ hn => ⟨hfg.applied n hn.1, hn.2⟩

/-- What a symbol can stand for: an argument, an entry, a constant or a free parameter. -/
def Knows (s : Scope) (g : Findings) (name : String) : Prop :=
  s.isDeclared name = true ∨ s.entries.contains name = true ∨
    (Constant.ofName? name).isSome = true ∨ s.isOpen = true ∧ name ∈ g.params

/-- What a called name can stand for: an entry or a built-in function. -/
def KnowsCall (s : Scope) (name : String) : Prop :=
  s.entries.contains name = true ∨ name ∈ Builtin.names

/-- The symbols and the called names have been classified. -/
structure Classified (s : Scope) (symbols calls : List String) (f g : Findings) : Prop where
  follows : s.Follows f g
  symbols : ∀ n ∈ symbols, s.Knows g n
  calls : ∀ n ∈ calls, s.KnowsCall n

theorem Classified.refl (f : Findings) : s.Classified [] [] f f :=
  ⟨.refl f, by simp, by simp⟩

theorem Classified.trans {l l' c c' : List String} (hfg : s.Classified l c f g)
    (hgh : s.Classified l' c' g h) : s.Classified (l ++ l') (c ++ c') f h where
  follows := hfg.follows.trans hgh.follows
  symbols n hn := by
    rcases List.mem_append.mp hn with hn | hn
    · rcases hfg.symbols n hn with hk | hk | hk | ⟨ho, hp⟩
      · exact .inl hk
      · exact .inr (.inl hk)
      · exact .inr (.inr (.inl hk))
      · exact .inr (.inr (.inr ⟨ho, hgh.follows.params hp⟩))
    · exact hgh.symbols n hn
  calls n hn := (List.mem_append.mp hn).elim (hfg.calls n) (hgh.calls n)

theorem checkEntryCall_all (e : Entry) : checkEntryCall e e.params.length = .ok () := by
  simp [checkEntryCall]

/-- An application of a recorded entry is provided for. -/
theorem provides_apply {name : String} {args : List Term} (hn : s.Takes g name args.length)
    (hargs : ∀ t ∈ args, s.Provides g t) : s.Provides g (.apply name args) :=
  .atom rfl (.apply hn fun t ht => (hargs t ht).ready)

theorem ResolvedSymbol.provides {name : String} {q : Quantity} (hn : Entry.WellNamed s.entries)
    (hs : s.ResolvedSymbol name f g q) : s.Classified [name] [] f g ∧ s.Provides g q.term := by
  obtain ⟨f₁, hlists, hparams⟩ := hs.lists
  have hlisted : ∀ p ∈ (s.role name).params name, p ∈ g.params := fun p hp =>
    hparams ▸ hlists.listed p hp
  have hfollows : s.Follows f g := by
    refine ⟨fun p hp => hparams ▸ hlists.kept hp, fun n hn => ?_, fun hd p hp => ?_⟩
    · rw [hs.applied_eq]
      cases s.role name with
      | parameter | constant => exact hn
      | entry e => exact Entry.contains_recordIn.mpr (.inr hn)
    · exact (hlists.only p (hparams ▸ hp)).imp_right fun hp => hs.declared p hp hd
  have happlied := hs.applied_eq
  rw [hs.quantity_eq]
  cases hrole : s.role name with
  | parameter =>
    have hmem : name ∈ g.params := hlisted name (by simp [hrole, Role.params])
    refine ⟨⟨hfollows, fun n hn => ?_, by simp⟩, .atom rfl (.var hmem)⟩
    rw [List.mem_singleton.mp hn]
    exact (hs.parameter hrole).imp_right fun ho => .inr (.inr ⟨ho, hmem⟩)
  | constant c =>
    refine ⟨⟨hfollows, fun n hn => ?_, by simp⟩, .atom rfl (.const c)⟩
    rw [List.mem_singleton.mp hn]
    exact .inr (.inr (.inl (by rw [(role_eq_constant.mp hrole).2.2]; rfl)))
  | entry e =>
    have hget := (role_eq_entry.mp hrole).2
    rw [hrole] at happlied hlisted
    refine ⟨⟨hfollows, fun n hn => ?_, by simp⟩, provides_apply ⟨?_, e, ?_, ?_⟩ fun t ht => ?_⟩
    · rw [List.mem_singleton.mp hn]
      exact .inr (.inl (NameMap.contains_iff_get?.mpr ⟨e, hget⟩))
    · rw [happlied]
      exact Entry.contains_recordIn.mpr (.inl rfl)
    · rw [hn name e hget, hget]
    · rw [List.length_map]
      exact checkEntryCall_all e
    · obtain ⟨p, hp, rfl⟩ := List.mem_map.mp ht
      exact .atom rfl (.var (hlisted p hp))

/-- A call of what has been looked up is provided for if its arguments are. -/
theorem provides_call {name : String} {target : CallTarget} {args : List Quantity} {q : Quantity}
    (hn : Entry.WellNamed s.entries) (ht : s.callTarget name args.length = .ok target)
    (hargs : ∀ p ∈ args, s.Provides f p.term)
    (hrun : (applyTarget target args).run f = .ok (q, g)) :
    s.Classified [] [name] f g ∧ s.Provides g q.term := by
  obtain ⟨hq, happlied, hparams⟩ := run_applyTarget hrun
  obtain ⟨-, hfits, -⟩ := callTarget_eq_ok ht
  have hfollows : s.Follows f g := by
    refine ⟨fun p hp => hparams ▸ hp, fun n hn => ?_, fun _ p hp => .inl (hparams ▸ hp)⟩
    rw [happlied]
    cases target with
    | sqrt | builtin => exact hn
    | entry e => exact Entry.contains_recordIn.mpr (.inr hn)
  refine ⟨⟨hfollows, by simp, fun n hmem => ?_⟩, ?_⟩
  · rw [List.mem_singleton.mp hmem]
    cases target with
    | entry e => exact .inl (NameMap.contains_iff_get?.mpr ⟨e, hfits.2.1⟩)
    | sqrt =>
      rw [hfits.1]
      exact .inr (by decide)
    | builtin b => exact .inr (List.contains_iff_mem.mp (names_contains_of_ofName? hfits.1))
  · refine apply_formed (fun e he hts => ?_) (fun b ts hb hlen hts => ?_)
      (fun p hp => (hargs p hp).mono hfollows) hq
    · subst he
      obtain ⟨-, hget, hcheck⟩ := hfits
      have hrecorded : g.applied.contains e.name = true := by
        rw [happlied]
        exact Entry.contains_recordIn.mpr (.inl rfl)
      refine .apply ⟨hrecorded, e, ?_, ?_⟩ fun t ht => (hts t ht).ready
      · rw [hn name e hget, hget]
      · rwa [List.length_map]
    · subst hb
      exact .func (hlen.trans hfits.2.2) fun t ht => (hts t ht).ready

mutual

/-- A resolution gives a term that it provides for, from symbols and called names that stand for
something. -/
theorem resolve_provides {s : Scope} (hn : Entry.WellNamed s.entries) :
    ∀ (x : Expr) (f g : Findings) (q : Quantity), (s.resolve x).run f = .ok (q, g) →
      s.Classified x.symbolsIn x.callsIn f g ∧ s.Provides g q.term
  | .number n, f, g, q, h => by
    obtain ⟨rfl, rfl⟩ := run_resolve_number.mp h
    exact ⟨.refl _, .num n⟩
  | .symbol name, f, g, q, h => (run_resolveSymbol h).provides hn
  | .neg x, f, g, q, h => by
    obtain ⟨a, hx, rfl⟩ := run_resolve_neg.mp h
    obtain ⟨hres, ha⟩ := resolve_provides hn x f g a hx
    exact ⟨hres, Formed.negated ha⟩
  | .binary op l r, f, g, q, h => by
    obtain ⟨a, f₁, b, hl, hr, hop⟩ := run_resolve_binary.mp h
    obtain ⟨hresl, ha⟩ := resolve_provides hn l f f₁ a hl
    obtain ⟨hresr, hb⟩ := resolve_provides hn r f₁ g b hr
    exact ⟨hresl.trans hresr, applyBinary_formed (ha.mono hresr.follows) hb hop⟩
  | .call name args, f, g, q, h => by
    obtain ⟨target, qs, f₁, ht, hargs, h⟩ := run_resolve_call.mp h
    obtain ⟨hresargs, hlen, hqs⟩ := resolveAll_provides hn args f f₁ qs hargs
    obtain ⟨hrescall, hq⟩ := provides_call hn (hlen ▸ ht) hqs h
    have hres := hresargs.trans hrescall
    refine ⟨⟨hres.follows, by simpa [Expr.symbolsIn] using hres.symbols, fun n hmem => ?_⟩, hq⟩
    refine hres.calls n ?_
    simpa [Expr.callsIn, or_comm] using hmem

theorem resolveAll_provides {s : Scope} (hn : Entry.WellNamed s.entries) :
    ∀ (xs : List Expr) (f g : Findings) (qs : List Quantity),
      (s.resolveAll xs).run f = .ok (qs, g) →
      s.Classified (Expr.symbolsInAll xs) (Expr.callsInAll xs) f g ∧ qs.length = xs.length ∧
        ∀ q ∈ qs, s.Provides g q.term
  | [], f, g, qs, h => by
    obtain ⟨rfl, rfl⟩ := run_resolveAll_nil.mp h
    exact ⟨.refl _, rfl, by simp⟩
  | x :: xs, f, g, qs, h => by
    obtain ⟨q, f₁, qs', hx, hxs, rfl⟩ := run_resolveAll_cons.mp h
    obtain ⟨hres, hq⟩ := resolve_provides hn x f f₁ q hx
    obtain ⟨hresall, hlen, hqs⟩ := resolveAll_provides hn xs f₁ g qs' hxs
    exact ⟨hres.trans hresall, by rw [List.length_cons, List.length_cons, hlen],
      List.forall_mem_cons.mpr ⟨hq.mono hresall.follows, hqs⟩⟩

end

end Scope

end Formulary
