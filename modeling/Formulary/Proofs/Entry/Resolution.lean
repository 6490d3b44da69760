import Formulary.Entry.Resolution
import Formulary.Proofs.Except
import Formulary.Proofs.NameMap
import Mathlib.Tactic.Tauto

/-!
What a successful resolution has done.

A symbol stands for a parameter, an entry or a constant, and a called name for what `callTarget`
says; nothing else adds to the entries that are recorded as applied. An expression mentions the
names in it that its key does not list as arguments. The entries recorded for it are the mentioned
names that are registered, each with its entry.

## How the proof goes

Resolution is a program with a state, the findings, and it may fail. It is taken apart once: for each kind of expression there is an equivalence between a successful run and the
successful runs of its parts (`run_resolve_binary` and its like), and for symbols and calls a statement of
all that the run has done (`ResolvedSymbol`, `callTarget_eq_ok`). What a name stands for is a function of the
scope alone (`role`, `CallTarget.Fits`), so other modules need not look into the program again.

Two inductions over expressions follow, on which the results on entries rest. `Records` is what a run adds
to the entries applied. It composes along the run (`Records.trans`), so an expression records what its names
do, in whatever order. And `Keeps` is the induction principle for properties of the quantity: units, terms
and their forms are shown to be right step by step, without a word on the findings.

## Why names and keys have to agree

An entry is recorded under its own name, and looked up under the name in the expression. That these are the
same is a property of the registry, and an assumption here (`Entry.WellNamed`).
-/

namespace Formulary

/-! ## Names -/

/-- Every entry stands under its own name. -/
def Entry.WellNamed (entries : NameMap Entry) : Prop :=
  ∀ n e, entries.get? n = some e → e.name = n

/-- The entries applied once an application of the entry has been recorded. -/
def Entry.recordIn (e : Entry) (applied : NameMap Entry) : NameMap Entry :=
  if applied.contains e.name then applied else applied.insert e.name e

/-- A name that no entry can have. -/
def isReserved (name : String) : Bool :=
  (Constant.ofName? name).isSome || Builtin.names.contains name

/-- What a symbol stands for. -/
inductive Role where
  | parameter
  | entry (e : Entry)
  | constant (c : Constant)

namespace Role

/-- The quantity of a symbol with the role. -/
def quantity (name : String) : Role → Quantity
  | parameter => .plain (.var name)
  | entry e => ⟨.apply e.name (e.params.map .var), e.unit⟩
  | constant c => .plain (.const c)

/-- The parameters that a symbol with the role brings in. -/
def params (name : String) : Role → List String
  | parameter => [name]
  | entry e => e.params
  | constant _ => []

/-- The entries applied once a symbol with the role has been used. -/
def recordIn (applied : NameMap Entry) : Role → NameMap Entry
  | entry e => e.recordIn applied
  | parameter | constant _ => applied

end Role

namespace CallTarget

/-- The entries applied once the target has been applied. -/
def recordIn (applied : NameMap Entry) : CallTarget → NameMap Entry
  | entry e => e.recordIn applied
  | sqrt | builtin _ => applied

/-- The quantity of a call. -/
def apply (args : List Quantity) : CallTarget → Except Fault Quantity
  | entry e => .ok ⟨.apply e.name (args.map Quantity.term), e.unit⟩
  | sqrt =>
    match args with
    | [q] => q.sqrt
    | args => .error (.ofCause (.argCount "sqrt" 1 args.length))
  | builtin b => Scope.applyBuiltin b args

/-- A name with a number of arguments stands for the target. -/
def Fits (s : Scope) (name : String) (count : Nat) : CallTarget → Prop
  | entry e =>
    s.isDeclared name = false ∧ s.entries.get? name = some e ∧
      Scope.checkEntryCall e count = .ok ()
  | sqrt => name = "sqrt" ∧ count = 1
  | builtin b => Builtin.ofName? name = some b ∧ name ≠ "sqrt" ∧ count = b.arity

end CallTarget

/-! ## Steps of a resolution -/

namespace Scope

variable {s : Scope} {f g h : Findings}

theorem run_bind_eq_ok {α β : Type} {x : Resolution α} {k : α → Resolution β} {b : β} :
    (x >>= k).run f = .ok (b, g) ↔ ∃ a h, x.run f = .ok (a, h) ∧ (k a).run h = .ok (b, g) := by
  rw [StateT.run_bind, Except.bind_eq_ok]
  exact ⟨fun ⟨⟨a, h⟩, hx, hk⟩ => ⟨a, h, hx, hk⟩, fun ⟨a, h, hx, hk⟩ => ⟨⟨a, h⟩, hx, hk⟩⟩

theorem run_pure_eq_ok {α : Type} {a b : α} :
    (pure a : Resolution α).run f = .ok (b, g) ↔ a = b ∧ f = g := by
  rw [StateT.run_pure]
  exact ⟨fun h => by cases h; exact ⟨rfl, rfl⟩, fun ⟨h, h'⟩ => by rw [h, h']; rfl⟩

theorem run_throw_ne_ok {α : Type} {e : Fault} {b : α} :
    (throw e : Resolution α).run f ≠ .ok (b, g) := by
  intro h
  cases h

theorem run_lift_eq_ok {α : Type} {x : Except Fault α} {a : α} :
    (liftM x : Resolution α).run f = .ok (a, g) ↔ x = .ok a ∧ f = g := by
  cases x with
  | error e =>
    constructor
    · intro h
      cases h
    · rintro ⟨h, _⟩
      cases h
  | ok a' =>
    constructor
    · intro h
      cases h
      exact ⟨rfl, rfl⟩
    · rintro ⟨h, h'⟩
      cases h
      rw [h']
      rfl

theorem run_applyEntry {e : Entry} {args : List Term} {q : Quantity}
    (h : (applyEntry e args).run f = .ok (q, g)) :
    q = ⟨.apply e.name args, e.unit⟩ ∧ g.applied = e.recordIn f.applied ∧
      g.params = f.params := by
  cases h
  exact ⟨rfl, rfl, rfl⟩

/-- Parameters have been listed, and nothing else has been found. -/
structure Lists (params : List String) (f g : Findings) : Prop where
  applied : g.applied = f.applied
  kept : f.params ⊆ g.params
  listed : ∀ p ∈ params, p ∈ g.params
  only : ∀ p ∈ g.params, p ∈ f.params ∨ p ∈ params

theorem run_useParam {name : String} {u : Unit} (h : (useParam name).run f = .ok (u, g)) :
    Lists [name] f g := by
  cases h
  by_cases hc : name ∈ f.params
  · have : f.params.contains name = true := by simpa using hc
    simp only [this, ite_true]
    exact ⟨rfl, fun _ h => h, by simpa using hc, fun _ h => .inl h⟩
  · have : f.params.contains name = false := by simpa using hc
    simp only [this, Bool.false_eq_true, ite_false]
    exact ⟨rfl, List.subset_append_left _ _, by simp, fun _ => List.mem_append.mp⟩

/-- A loop that lists one parameter after the other, if each meets a condition. -/
theorem run_forIn_lists {step : String → PUnit → Resolution (ForInStep PUnit)} {P : String → Prop}
    (hstep : ∀ p r f g, (step p PUnit.unit).run f = .ok (r, g) →
      r = .yield PUnit.unit ∧ Lists [p] f g ∧ P p) :
    ∀ (params : List String) (f g : Findings) (u : PUnit),
      (forIn params PUnit.unit step).run f = .ok (u, g) → Lists params f g ∧ ∀ p ∈ params, P p
  | [], f, g, u, h => by
    cases h
    exact ⟨⟨rfl, fun _ h => h, by simp, fun _ h => .inl h⟩, by simp⟩
  | p :: params, f, g, u, h => by
    rw [List.forIn_cons] at h
    obtain ⟨r, f₁, hp, hrest⟩ := run_bind_eq_ok.mp h
    obtain ⟨rfl, hfirst, hP⟩ := hstep p r f f₁ hp
    obtain ⟨hothers, hall⟩ := run_forIn_lists hstep params f₁ g u hrest
    refine ⟨⟨hothers.applied.trans hfirst.applied, fun x hx => hothers.kept (hfirst.kept hx),
      fun x hx => ?_, fun x hx => ?_⟩, List.forall_mem_cons.mpr ⟨hP, hall⟩⟩
    · rcases List.mem_cons.mp hx with rfl | hx
      · exact hothers.kept (hfirst.listed x (by simp))
      · exact hothers.listed x hx
    · rcases hothers.only x hx with hx | hx
      · exact (hfirst.only x hx).imp_right fun hx => by simp [List.mem_singleton.mp hx]
      · exact .inr (List.mem_cons_of_mem _ hx)

/-- A bare entry lists its own parameters, which are declared if the key lists arguments. -/
theorem run_expandEntry {e : Entry} {q : Quantity} (h : (s.expandEntry e).run f = .ok (q, g)) :
    q = ⟨.apply e.name (e.params.map .var), e.unit⟩ ∧ g.applied = e.recordIn f.applied ∧
      (∃ f₁, Lists e.params f f₁ ∧ g.params = f₁.params) ∧
      ∀ p ∈ e.params, s.declared.isSome = true → s.isDeclared p = true := by
  unfold expandEntry at h
  obtain ⟨u, f₁, hloop, happly⟩ := run_bind_eq_ok.mp h
  obtain ⟨hlists, hdeclared⟩ : Lists e.params f f₁ ∧
      ∀ p ∈ e.params, s.declared.isSome = true → s.isDeclared p = true := by
    refine run_forIn_lists ?_ e.params f f₁ u hloop
    intro p r f g hp
    split at hp
    · obtain ⟨_, _, hthrow, _⟩ := run_bind_eq_ok.mp hp
      exact absurd hthrow run_throw_ne_ok
    · rename_i hdeclared
      obtain ⟨_, f₂, huse, hp⟩ := run_bind_eq_ok.mp hp
      cases hp
      exact ⟨rfl, run_useParam huse, by simpa using hdeclared⟩
  obtain ⟨hq, happ, hpar⟩ := run_applyEntry happly
  exact ⟨hq, hlists.applied ▸ happ, ⟨f₁, hlists, hpar⟩, hdeclared⟩

/-! ## What names stand for -/

/-- What a symbol stands for, a name that is nothing else being a parameter. -/
def role (s : Scope) (name : String) : Role :=
  if s.isDeclared name then .parameter
  else
    match s.entries.get? name with
    | some e => .entry e
    | none =>
      match Constant.ofName? name with
      | some c => .constant c
      | none => .parameter

/-- Unknown symbols become parameters. -/
def isOpen (s : Scope) : Bool := s.declared.isNone && s.freeParameters

/-- A symbol that is used is an argument, or it is not the name being defined and is an entry or a
constant, or may become a parameter. -/
structure Usable (s : Scope) (name : String) : Prop where
  foreign : s.isDeclared name = false → name ≠ s.owner
  known : s.isDeclared name = false → s.isOpen = false →
    s.entries.contains name = true ∨ isReserved name = true

/-- A symbol has been resolved by its role. -/
structure ResolvedSymbol (s : Scope) (name : String) (f g : Findings) (q : Quantity) : Prop where
  usable : s.Usable name
  quantity_eq : q = (s.role name).quantity name
  applied_eq : g.applied = (s.role name).recordIn f.applied
  lists : ∃ f₁, Lists ((s.role name).params name) f f₁ ∧ g.params = f₁.params
  declared : ∀ p ∈ (s.role name).params name, s.declared.isSome = true → s.isDeclared p = true
  parameter : s.role name = .parameter → s.isDeclared name = true ∨ s.isOpen = true

theorem role_of_declared {name : String} (hd : s.isDeclared name = true) :
    s.role name = .parameter := by
  simp [role, hd]

theorem role_eq_entry {name : String} {e : Entry} :
    s.role name = .entry e ↔ s.isDeclared name = false ∧ s.entries.get? name = some e := by
  unfold role
  cases s.isDeclared name with
  | true => simp
  | false =>
    cases s.entries.get? name with
    | some e' => simp
    | none => cases Constant.ofName? name <;> simp

theorem role_eq_constant {name : String} {c : Constant} :
    s.role name = .constant c ↔
      s.isDeclared name = false ∧ s.entries.get? name = none ∧ Constant.ofName? name = some c := by
  unfold role
  cases s.isDeclared name with
  | true => simp
  | false =>
    cases s.entries.get? name with
    | some e => simp
    | none => cases Constant.ofName? name <;> simp

theorem ResolvedSymbol.of_entry {name : String} {e : Entry} {q : Quantity} (ho : name ≠ s.owner)
    (hrole : s.role name = .entry e) (h : (s.expandEntry e).run f = .ok (q, g)) :
    s.ResolvedSymbol name f g q := by
  obtain ⟨hq, happ, hlists, hdeclared⟩ := run_expandEntry h
  have hreg : s.entries.contains name = true :=
    NameMap.contains_iff_get?.mpr ⟨e, (role_eq_entry.mp hrole).2⟩
  constructor
  case usable => exact ⟨fun _ => ho, fun _ _ => .inl hreg⟩
  all_goals rw [hrole]
  case quantity_eq => exact hq
  case applied_eq => exact happ
  case lists => exact hlists
  case declared => exact hdeclared
  case parameter => exact fun hp => nomatch hp

theorem ResolvedSymbol.of_constant {name : String} {c : Constant} (ho : name ≠ s.owner)
    (hrole : s.role name = .constant c) : s.ResolvedSymbol name f f (.plain (.const c)) := by
  have hreserved : isReserved name = true := by simp [isReserved, (role_eq_constant.mp hrole).2.2]
  constructor
  case usable => exact ⟨fun _ => ho, fun _ _ => .inr hreserved⟩
  all_goals rw [hrole]
  case quantity_eq => rfl
  case applied_eq => rfl
  case lists => exact ⟨f, ⟨rfl, fun _ h => h, by simp [Role.params], fun _ h => .inl h⟩, rfl⟩
  case declared => exact fun p hp => absurd hp List.not_mem_nil
  case parameter => exact fun hp => nomatch hp

/-- A parameter is an argument, or a foreign name where unknown symbols become parameters. -/
theorem ResolvedSymbol.of_parameter {name : String} {u : Unit}
    (hp : s.isDeclared name = true ∨ name ≠ s.owner ∧ s.isOpen = true)
    (hrole : s.role name = .parameter) (h : (useParam name).run f = .ok (u, g)) :
    s.ResolvedSymbol name f g (.plain (.var name)) := by
  have hlists := run_useParam h
  constructor
  case usable =>
    rcases hp with hd | ⟨ho, hopen⟩
    · exact ⟨by simp [hd], by simp [hd]⟩
    · exact ⟨fun _ => ho, by simp [hopen]⟩
  all_goals rw [hrole]
  case quantity_eq => rfl
  case applied_eq => exact hlists.applied
  case lists => exact ⟨g, hlists, rfl⟩
  case declared =>
    intro p hmem hsome
    rcases hp with hd | ⟨-, hopen⟩
    · exact List.mem_singleton.mp hmem ▸ hd
    · simp [isOpen, Option.isSome_iff_ne_none.mp hsome] at hopen
  case parameter => exact fun _ => hp.imp_right And.right

theorem run_resolveSymbol {name : String} {q : Quantity}
    (h : (s.resolveSymbol name).run f = .ok (q, g)) : s.ResolvedSymbol name f g q := by
  unfold resolveSymbol at h
  by_cases hd : s.isDeclared name = true
  · rw [if_pos hd] at h
    obtain ⟨_, f₁, huse, hp⟩ := run_bind_eq_ok.mp h
    obtain ⟨rfl, rfl⟩ := run_pure_eq_ok.mp hp
    exact .of_parameter (.inl hd) (role_of_declared hd) huse
  · rw [if_neg hd] at h
    by_cases ho : name = s.owner
    · rw [if_pos ho] at h
      obtain ⟨_, _, hthrow, _⟩ := run_bind_eq_ok.mp h
      exact absurd hthrow run_throw_ne_ok
    · rw [if_neg ho] at h
      cases hget : s.entries.get? name with
      | some e =>
        simp only [hget] at h
        exact .of_entry ho (by simp [role, hd, hget]) h
      | none =>
        simp only [hget] at h
        cases hc : Constant.ofName? name with
        | some c =>
          simp only [hc] at h
          obtain ⟨rfl, rfl⟩ := run_pure_eq_ok.mp h
          exact .of_constant ho (by simp [role, hd, hget, hc])
        | none =>
          simp only [hc] at h
          by_cases hopen : (s.declared.isNone && s.freeParameters) = true
          · rw [if_pos hopen] at h
            obtain ⟨_, f₁, huse, hp⟩ := run_bind_eq_ok.mp h
            obtain ⟨rfl, rfl⟩ := run_pure_eq_ok.mp hp
            exact .of_parameter (.inr ⟨ho, hopen⟩) (by simp [role, hd, hget, hc]) huse
          · rw [if_neg hopen] at h
            exact absurd h run_throw_ne_ok

theorem names_contains_of_ofName? {name : String} {b : Builtin}
    (h : Builtin.ofName? name = some b) : Builtin.names.contains name = true := by
  unfold Builtin.ofName? at h
  split at h
  · rename_i hln
    rw [hln]
    decide
  · have hname : b.name = name := by simpa using List.find?_some h
    rw [← hname]
    cases b <;> decide

/-- A name that is not declared stands for the entry that is registered under it. -/
theorem lookup_eq_some {name : String} {e : Entry} :
    (if s.isDeclared name then none else s.entries.get? name) = some e ↔
      s.isDeclared name = false ∧ s.entries.get? name = some e := by
  cases s.isDeclared name <;> simp

/-- A name that is declared, or that is not registered, is no entry. -/
theorem lookup_eq_none {name : String} :
    (if s.isDeclared name then none else s.entries.get? name) = none ↔
      s.isDeclared name = true ∨ s.entries.contains name = false := by
  cases s.isDeclared name <;> simp [NameMap.contains]

theorem callTarget_eq_ok {name : String} {count : Nat} {target : CallTarget}
    (h : s.callTarget name count = .ok target) :
    name ≠ s.owner ∧ CallTarget.Fits s name count target ∧
      ((∀ e, target ≠ .entry e) → isReserved name = true ∧
        (s.isDeclared name = true ∨ s.entries.contains name = false)) := by
  unfold callTarget at h
  by_cases ho : name = s.owner
  · rw [if_pos ho] at h
    cases h
  · rw [if_neg ho] at h
    refine ⟨ho, ?_⟩
    split at h
    · rename_i e hfound
      obtain ⟨hd, hget⟩ := lookup_eq_some.mp hfound
      obtain ⟨_, hcheck, h⟩ := Except.bind_eq_ok.mp h
      cases h
      exact ⟨⟨hd, hget, hcheck⟩, fun hne => absurd rfl (hne e)⟩
    · rename_i hnone
      have hfree := lookup_eq_none.mp hnone
      split at h
      · rename_i hsqrt
        split at h
        · rename_i hcount
          cases h
          exact ⟨⟨hsqrt, hcount⟩, fun _ => ⟨by rw [hsqrt]; decide, hfree⟩⟩
        · cases h
      · rename_i hsqrt
        split at h
        · rename_i b hb
          split at h
          · rename_i hcount
            cases h
            refine ⟨⟨hb, hsqrt, hcount⟩, fun _ => ⟨?_, hfree⟩⟩
            exact Bool.or_eq_true_iff.mpr (Or.inr (names_contains_of_ofName? hb))
          · cases h
        · cases h

theorem run_applyTarget {target : CallTarget} {args : List Quantity} {q : Quantity}
    (h : (applyTarget target args).run f = .ok (q, g)) :
    target.apply args = .ok q ∧ g.applied = target.recordIn f.applied ∧ g.params = f.params := by
  cases target with
  | entry e =>
    obtain ⟨rfl, happ, hparams⟩ := run_applyEntry h
    exact ⟨rfl, happ, hparams⟩
  | sqrt =>
    unfold applyTarget at h
    split at h
    · cases ‹CallTarget.sqrt = CallTarget.entry _›
    · rename_i arg
      obtain ⟨hq, rfl⟩ := run_lift_eq_ok.mp h
      exact ⟨hq, rfl, rfl⟩
    · exact absurd h run_throw_ne_ok
    · cases ‹CallTarget.sqrt = CallTarget.builtin _›
  | builtin b =>
    obtain ⟨hq, rfl⟩ := run_lift_eq_ok.mp h
    exact ⟨hq, rfl, rfl⟩

/-! ## Resolving composed expressions -/

theorem run_resolve_number {n : Rat} {q : Quantity} :
    (s.resolve (.number n)).run f = .ok (q, g) ↔ .plain (.num n) = q ∧ f = g :=
  run_pure_eq_ok

theorem run_resolve_neg {e : Expr} {q : Quantity} :
    (s.resolve (.neg e)).run f = .ok (q, g) ↔
      ∃ a, (s.resolve e).run f = .ok (a, g) ∧ a.neg = q := by
  rw [resolve, run_bind_eq_ok]
  constructor
  · rintro ⟨a, f₁, he, h⟩
    obtain ⟨rfl, rfl⟩ := run_pure_eq_ok.mp h
    exact ⟨a, he, rfl⟩
  · rintro ⟨a, he, rfl⟩
    exact ⟨a, g, he, run_pure_eq_ok.mpr ⟨rfl, rfl⟩⟩

theorem run_resolve_binary {op : BinaryOp} {l r : Expr} {q : Quantity} :
    (s.resolve (.binary op l r)).run f = .ok (q, g) ↔
      ∃ a f₁ b, (s.resolve l).run f = .ok (a, f₁) ∧ (s.resolve r).run f₁ = .ok (b, g) ∧
        applyBinary op a b = .ok q := by
  rw [resolve, run_bind_eq_ok]
  constructor
  · rintro ⟨a, f₁, hl, h⟩
    obtain ⟨b, f₂, hr, h⟩ := run_bind_eq_ok.mp h
    obtain ⟨hop, rfl⟩ := run_lift_eq_ok.mp h
    exact ⟨a, f₁, b, hl, hr, hop⟩
  · rintro ⟨a, f₁, b, hl, hr, hop⟩
    exact ⟨a, f₁, hl, run_bind_eq_ok.mpr ⟨b, g, hr, run_lift_eq_ok.mpr ⟨hop, rfl⟩⟩⟩

theorem run_resolve_call {name : String} {args : List Expr} {q : Quantity} :
    (s.resolve (.call name args)).run f = .ok (q, g) ↔
      ∃ target qs f₁, s.callTarget name args.length = .ok target ∧
        (s.resolveAll args).run f = .ok (qs, f₁) ∧ (applyTarget target qs).run f₁ = .ok (q, g) := by
  rw [resolve, run_bind_eq_ok]
  constructor
  · rintro ⟨target, f₀, hrun, h⟩
    obtain ⟨htarget, rfl⟩ := run_lift_eq_ok.mp hrun
    obtain ⟨qs, f₁, hargs, happly⟩ := run_bind_eq_ok.mp h
    exact ⟨target, qs, f₁, htarget, hargs, happly⟩
  · rintro ⟨target, qs, f₁, htarget, hargs, happly⟩
    exact ⟨target, f, run_lift_eq_ok.mpr ⟨htarget, rfl⟩, run_bind_eq_ok.mpr ⟨qs, f₁, hargs, happly⟩⟩

theorem run_resolveAll_nil {qs : List Quantity} :
    (s.resolveAll []).run f = .ok (qs, g) ↔ [] = qs ∧ f = g :=
  run_pure_eq_ok

theorem run_resolveAll_cons {e : Expr} {es : List Expr} {qs : List Quantity} :
    (s.resolveAll (e :: es)).run f = .ok (qs, g) ↔
      ∃ q f₁ rest, (s.resolve e).run f = .ok (q, f₁) ∧ (s.resolveAll es).run f₁ = .ok (rest, g) ∧
        q :: rest = qs := by
  rw [resolveAll, run_bind_eq_ok]
  constructor
  · rintro ⟨q, f₁, he, h⟩
    obtain ⟨rest, f₂, hes, h⟩ := run_bind_eq_ok.mp h
    obtain ⟨rfl, rfl⟩ := run_pure_eq_ok.mp h
    exact ⟨q, f₁, rest, he, hes, rfl⟩
  · rintro ⟨q, f₁, rest, he, hes, rfl⟩
    exact ⟨q, f₁, he, run_bind_eq_ok.mpr ⟨rest, g, hes, run_pure_eq_ok.mpr ⟨rfl, rfl⟩⟩⟩

/-! ## What is recorded -/

/-- What a resolution adds to the entries applied: the registered ones among the given names, each
with its entry. -/
structure Records (s : Scope) (names : List String) (before after : NameMap Entry) : Prop where
  kept : ∀ d e, before.get? d = some e → after.get? d = some e
  added : ∀ d e, after.get? d = some e →
    before.get? d = some e ∨ (d ∈ names ∧ s.isDeclared d = false ∧ s.entries.get? d = some e)
  found : ∀ d ∈ names, s.isDeclared d = false → s.entries.contains d = true →
    after.contains d = true
  usable : ∀ d ∈ names, s.Usable d

theorem Records.refl (m : NameMap Entry) : s.Records [] m m :=
  ⟨fun _ _ h => h, fun _ _ h => Or.inl h, by simp, by simp⟩

theorem Records.trans {l l' : List String} {a b c : NameMap Entry} (h : s.Records l a b)
    (h' : s.Records l' b c) : s.Records (l ++ l') a c where
  kept d e hd := h'.kept d e (h.kept d e hd)
  added d e hd := by
    rcases h'.added d e hd with hb | ⟨hmem, hdecl, hget⟩
    · rcases h.added d e hb with ha | ⟨hmem, hdecl, hget⟩
      · exact Or.inl ha
      · exact Or.inr ⟨List.mem_append_left _ hmem, hdecl, hget⟩
    · exact Or.inr ⟨List.mem_append_right _ hmem, hdecl, hget⟩
  found d hd hdecl hreg := by
    rcases List.mem_append.mp hd with hd | hd
    · obtain ⟨e, he⟩ := NameMap.contains_iff_get?.mp (h.found d hd hdecl hreg)
      exact NameMap.contains_iff_get?.mpr ⟨e, h'.kept d e he⟩
    · exact h'.found d hd hdecl hreg
  usable d hd := by
    rcases List.mem_append.mp hd with hd | hd
    · exact h.usable d hd
    · exact h'.usable d hd

theorem Records.congr {l l' : List String} {a b : NameMap Entry} (h : s.Records l a b)
    (hl : ∀ d, d ∈ l' ↔ d ∈ l) : s.Records l' a b where
  kept := h.kept
  added d e hd := (h.added d e hd).imp_right fun hr => ⟨(hl d).mpr hr.1, hr.2⟩
  found d hd := h.found d ((hl d).mp hd)
  usable d hd := h.usable d ((hl d).mp hd)

/-- A name that stands for no entry adds nothing. -/
theorem Records.of_not_entry {name : String} {m : NameMap Entry}
    (hfree : s.isDeclared name = true ∨ s.entries.contains name = false) (hu : s.Usable name) :
    s.Records [name] m m where
  kept _ _ h := h
  added _ _ h := Or.inl h
  found d hd hdecl hreg := by
    rw [List.mem_singleton.mp hd] at hdecl hreg
    rcases hfree with h | h
    · rw [h] at hdecl
      cases hdecl
    · rw [h] at hreg
      cases hreg
  usable d hd := List.mem_singleton.mp hd ▸ hu

theorem Records.of_entry {name : String} {e : Entry} {m : NameMap Entry}
    (hdecl : s.isDeclared name = false) (hget : s.entries.get? name = some e) (hname : e.name = name)
    (hu : s.Usable name) : s.Records [name] m (e.recordIn m) := by
  unfold Entry.recordIn
  rw [hname]
  by_cases hc : m.contains name = true
  · rw [if_pos hc]
    refine ⟨fun _ _ h => h, fun _ _ h => Or.inl h, fun d hd _ _ => ?_, fun d hd => ?_⟩
    · exact List.mem_singleton.mp hd ▸ hc
    · exact List.mem_singleton.mp hd ▸ hu
  · rw [if_neg hc]
    refine ⟨fun d e' h => ?_, fun d e' h => ?_, fun d hd _ _ => ?_, fun d hd => ?_⟩
    · have hne : d ≠ name := by
        rintro rfl
        exact hc (NameMap.contains_iff_get?.mpr ⟨e', h⟩)
      rw [NameMap.get?_insert_of_ne _ _ hne]
      exact h
    · rw [NameMap.get?_insert] at h
      split at h
      · rename_i hd
        cases h
        exact Or.inr ⟨by simp [hd], hd ▸ hdecl, hd ▸ hget⟩
      · exact Or.inl h
    · rw [List.mem_singleton.mp hd]
      exact NameMap.contains_iff_get?.mpr ⟨e, NameMap.get?_insert_self _ _ _⟩
    · exact List.mem_singleton.mp hd ▸ hu

theorem Records.of_symbol {name : String} {m : NameMap Entry}
    (hn : Entry.WellNamed s.entries) (hu : s.Usable name) :
    s.Records [name] m ((s.role name).recordIn m) := by
  unfold role
  by_cases hd : s.isDeclared name = true
  · rw [if_pos hd]
    exact .of_not_entry (Or.inl hd) hu
  · rw [if_neg hd]
    cases hget : s.entries.get? name with
    | some e => exact .of_entry (by simpa using hd) hget (hn name e hget) hu
    | none =>
      have hfree : s.entries.contains name = false := by simp [NameMap.contains, hget]
      cases Constant.ofName? name with
      | some c => exact .of_not_entry (Or.inr hfree) hu
      | none => exact .of_not_entry (Or.inr hfree) hu

theorem Records.of_call {name : String} {count : Nat} {target : CallTarget} {m : NameMap Entry}
    (hn : Entry.WellNamed s.entries)
    (h : s.callTarget name count = .ok target) : s.Records [name] m (target.recordIn m) := by
  obtain ⟨hforeign, hfits, hother⟩ := callTarget_eq_ok h
  cases target with
  | entry e =>
    obtain ⟨hdecl, hget, -⟩ := hfits
    have hreg : s.entries.contains name = true := NameMap.contains_iff_get?.mpr ⟨e, hget⟩
    exact .of_entry hdecl hget (hn name e hget) ⟨fun _ => hforeign, fun _ _ => Or.inl hreg⟩
  | sqrt =>
    obtain ⟨hres, hfree⟩ := hother (by simp)
    exact .of_not_entry hfree ⟨fun _ => hforeign, fun _ _ => Or.inr hres⟩
  | builtin b =>
    obtain ⟨hres, hfree⟩ := hother (by simp)
    exact .of_not_entry hfree ⟨fun _ => hforeign, fun _ _ => Or.inr hres⟩

end Scope

/-- All names in an expression, bare or called. -/
def Expr.namesIn (e : Expr) : List String := e.symbolsIn ++ e.callsIn

/-- All names in a list of expressions. -/
def Expr.namesInAll (es : List Expr) : List String := symbolsInAll es ++ callsInAll es

namespace Scope

mutual

theorem resolve_records {s : Scope} (hn : Entry.WellNamed s.entries) :
    ∀ (e : Expr) (f g : Findings) (q : Quantity), (s.resolve e).run f = .ok (q, g) →
      s.Records e.namesIn f.applied g.applied
  | .number _, f, g, q, h => by
    obtain ⟨-, rfl⟩ := run_resolve_number.mp h
    exact .refl _
  | .symbol name, f, g, q, h => by
    have hstep := run_resolveSymbol h
    rw [hstep.applied_eq]
    exact .of_symbol hn hstep.usable
  | .neg e, f, g, q, h => by
    obtain ⟨_, he, -⟩ := run_resolve_neg.mp h
    exact resolve_records hn e f g _ he
  | .binary op l r, f, g, q, h => by
    obtain ⟨a, f₁, b, hl, hr, -⟩ := run_resolve_binary.mp h
    refine ((resolve_records hn l f f₁ a hl).trans (resolve_records hn r f₁ g b hr)).congr ?_
    intro d
    simp only [Expr.namesIn, Expr.symbolsIn, Expr.callsIn, List.mem_append]
    tauto
  | .call name args, f, g, q, h => by
    obtain ⟨target, qs, f₁, ht, hargs, h⟩ := run_resolve_call.mp h
    obtain ⟨-, happ, -⟩ := run_applyTarget h
    rw [happ]
    refine ((resolveAll_records hn args f f₁ qs hargs).trans (.of_call hn ht)).congr ?_
    intro d
    simp only [Expr.namesIn, Expr.namesInAll, Expr.symbolsIn, Expr.callsIn, List.mem_append,
      List.mem_cons, List.not_mem_nil, or_false]
    tauto

theorem resolveAll_records {s : Scope} (hn : Entry.WellNamed s.entries) :
    ∀ (es : List Expr) (f g : Findings) (qs : List Quantity),
      (s.resolveAll es).run f = .ok (qs, g) → s.Records (Expr.namesInAll es) f.applied g.applied
  | [], f, g, qs, h => by
    obtain ⟨-, rfl⟩ := run_resolveAll_nil.mp h
    exact .refl _
  | e :: es, f, g, qs, h => by
    obtain ⟨q, f₁, qs', he, hes, -⟩ := run_resolveAll_cons.mp h
    refine ((resolve_records hn e f f₁ q he).trans (resolveAll_records hn es f₁ g qs' hes)).congr ?_
    intro d
    simp only [Expr.namesIn, Expr.namesInAll, Expr.symbolsInAll, Expr.callsInAll, List.mem_append]
    tauto

end

/-! ## Properties that resolution keeps -/

/-- Every step of a resolution in the scope keeps the property of quantities. -/
structure Keeps (s : Scope) (M : Quantity → Prop) : Prop where
  number : ∀ q : Rat, M (.plain (.num q))
  symbol : ∀ name : String, M ((s.role name).quantity name)
  neg : ∀ q : Quantity, M q → M q.neg
  binary : ∀ (op : BinaryOp) (l r q : Quantity), M l → M r → applyBinary op l r = .ok q → M q
  call : ∀ (name : String) (count : Nat) (target : CallTarget) (args : List Quantity) (q : Quantity),
    s.callTarget name count = .ok target → (∀ p ∈ args, M p) → target.apply args = .ok q → M q

mutual

theorem Keeps.resolve {s : Scope} {M : Quantity → Prop} (hM : s.Keeps M) :
    ∀ (e : Expr) (f g : Findings) (q : Quantity), (s.resolve e).run f = .ok (q, g) → M q
  | .number n, f, g, q, h => by
    obtain ⟨rfl, -⟩ := run_resolve_number.mp h
    exact hM.number n
  | .symbol name, f, g, q, h => by
    rw [(run_resolveSymbol h).quantity_eq]
    exact hM.symbol name
  | .neg e, f, g, q, h => by
    obtain ⟨a, he, rfl⟩ := run_resolve_neg.mp h
    exact hM.neg a (hM.resolve e f g a he)
  | .binary op l r, f, g, q, h => by
    obtain ⟨a, f₁, b, hl, hr, hop⟩ := run_resolve_binary.mp h
    exact hM.binary op a b q (hM.resolve l f f₁ a hl) (hM.resolve r f₁ g b hr) hop
  | .call name args, f, g, q, h => by
    obtain ⟨target, qs, f₁, ht, hargs, h⟩ := run_resolve_call.mp h
    obtain ⟨happly, -⟩ := run_applyTarget h
    exact hM.call name args.length target qs q ht (hM.resolveAll args f f₁ qs hargs) happly

theorem Keeps.resolveAll {s : Scope} {M : Quantity → Prop} (hM : s.Keeps M) :
    ∀ (es : List Expr) (f g : Findings) (qs : List Quantity),
      (s.resolveAll es).run f = .ok (qs, g) → ∀ q ∈ qs, M q
  | [], f, g, qs, h, q, hq => by
    obtain ⟨rfl, -⟩ := run_resolveAll_nil.mp h
    cases hq
  | e :: es, f, g, qs, h, q, hq => by
    obtain ⟨p, f₁, ps, he, hes, rfl⟩ := run_resolveAll_cons.mp h
    rcases List.mem_cons.mp hq with rfl | hq
    · exact hM.resolve e f f₁ _ he
    · exact hM.resolveAll es f₁ g ps hes q hq

end

end Scope

end Formulary
