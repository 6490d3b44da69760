import Formulary.Proofs.Entry.Build

/-!
A bare reference is the explicit call.

A symbol that names an entry is expanded by itself: the parameters of the entry are listed without
being looked up. A call goes another way: it is checked for its number of arguments, and each argument
is resolved like any other expression. Where the parameters of the entry stand for nothing else, and
may be parameters of what is being defined, both ways list the same parameters, offer the same defaults
and record the same application. So an expression can be written either way, also in parts of it, and
the entry is the same.
-/

namespace Formulary

/-! ## Writing bare references out -/

namespace Expr

mutual

/-- The expression with each bare symbol of the name written as a call with the parameters. -/
def callBare (name : String) (params : List String) : Expr → Expr
  | .number q => .number q
  | .symbol n => if n = name then .call name (params.map .symbol) else .symbol n
  | .binary op l r => .binary op (callBare name params l) (callBare name params r)
  | .neg e => .neg (callBare name params e)
  | .call n args => .call n (callBareAll name params args)

/-- The same in several expressions. -/
def callBareAll (name : String) (params : List String) : List Expr → List Expr
  | [] => []
  | e :: es => callBare name params e :: callBareAll name params es

end

theorem length_callBareAll (name : String) (params : List String) (es : List Expr) :
    (callBareAll name params es).length = es.length := by
  induction es with
  | nil => rfl
  | cons e es ih => rw [callBareAll, List.length_cons, List.length_cons, ih]

end Expr

namespace Scope

variable {s : Scope} {e : Entry} {name : String} {params : List String}

/-! ## The two ways -/

/-- The name, as a symbol, is a parameter of what is being defined. -/
structure TakesParameter (s : Scope) (name : String) : Prop where
  unregistered : s.entries.get? name = none
  not_constant : Constant.ofName? name = none
  foreign : name ≠ s.owner
  allowed : s.isDeclared name = true ∨ s.isOpen = true

theorem TakesParameter.resolveSymbol (h : s.TakesParameter name) :
    s.resolveSymbol name = (do useParam name; return .plain (.var name)) := by
  unfold Scope.resolveSymbol
  cases hd : s.isDeclared name with
  | true => simp
  | false =>
    have hopen : (s.declared.isNone && s.freeParameters) = true :=
      h.allowed.resolve_left (by simp [hd])
    simp [h.foreign, h.unregistered, h.not_constant, hopen]

/-- Where the key lists arguments, what may be a parameter is among them. -/
theorem TakesParameter.declared (h : s.TakesParameter name) :
    (s.declared.isSome && !s.isDeclared name) = false := by
  rcases h.allowed with hd | hopen
  · simp [hd]
  · simp only [isOpen, Bool.and_eq_true, Option.isNone_iff_eq_none] at hopen
    simp [hopen.1]

/-- A loop whose steps all go on does one step after the other. -/
theorem forIn_eq_forM (act : String → Resolution PUnit)
    {step : String → PUnit → Resolution (ForInStep PUnit)}
    (h : ∀ p ∈ params, step p ⟨⟩ = (do act p; return .yield ⟨⟩)) :
    forIn params PUnit.unit step = forM params act := by
  induction params with
  | nil => simp
  | cons p params ih =>
    obtain ⟨hp, hparams⟩ := List.forall_mem_cons.mp h
    rw [List.forIn_cons, hp, List.forM_cons, ← ih hparams]
    simp

/-- A bare entry lists its parameters and is applied to them. -/
theorem expandEntry_eq (h : ∀ p ∈ e.params, s.TakesParameter p) :
    s.expandEntry e = (do forM e.params useParam; applyEntry e (e.params.map .var)) := by
  unfold expandEntry
  rw [forIn_eq_forM useParam]
  intro p hp
  simp [(h p hp).declared]

/-- As arguments of a call the parameters are listed just so. -/
theorem resolveAll_symbols (h : ∀ p ∈ params, s.TakesParameter p) :
    s.resolveAll (params.map .symbol) =
      (do forM params useParam; return params.map fun p => .plain (.var p)) := by
  induction params with
  | nil => simp [resolveAll]
  | cons p params ih =>
    obtain ⟨hp, hparams⟩ := List.forall_mem_cons.mp h
    rw [List.map_cons, resolveAll, resolve, hp.resolveSymbol, ih hparams]
    simp

section Registered

variable (hg : s.entries.get? name = some e) (hd : s.isDeclared name = false)
include hg hd

theorem resolveSymbol_entry (howner : name ≠ s.owner) : s.resolveSymbol name = s.expandEntry e := by
  simp [Scope.resolveSymbol, hd, howner, hg]

/-- With as many arguments as the entry has parameters, the call is that of the entry. -/
theorem callTarget_entry (howner : name ≠ s.owner) :
    s.callTarget name e.params.length = .ok (.entry e) := by
  have hcount : checkEntryCall e e.params.length = .ok () := by simp [checkEntryCall]
  simp only [callTarget, if_neg howner, hd, Bool.false_eq_true, if_false, hg, hcount, Except.ok_bind]
  rfl

/-- The call of an entry with its own parameters does what the bare symbol does. -/
theorem resolve_call_params (h : ∀ p ∈ e.params, s.TakesParameter p) :
    s.resolve (.call name (e.params.map .symbol)) = s.resolve (.symbol name) := by
  rw [resolve, resolve, List.length_map]
  by_cases howner : name = s.owner
  · -- neither way gets further than the name
    have hcall : s.callTarget name e.params.length = .error s.selfReference := by
      simp [callTarget, howner]
    have hsymbol : s.resolveSymbol name = throw s.selfReference := by
      simp only [Scope.resolveSymbol, hd, Bool.false_eq_true, if_false, if_pos howner]
      rfl
    rw [hcall, hsymbol]
    rfl
  · rw [callTarget_entry hg hd howner, resolveSymbol_entry hg hd howner, expandEntry_eq h,
      resolveAll_symbols h]
    change (do
      let quantities ← (do
        forM e.params useParam
        return e.params.map fun p => Quantity.plain (.var p))
      applyTarget (.entry e) quantities) = _
    rw [bind_assoc]
    simp only [pure_bind, applyTarget, List.map_map]
    rfl

end Registered

/-! ## Anywhere in an expression -/

mutual

/-- If a symbol is resolved like the call, so is an expression with all of them written as calls. -/
theorem resolve_callBare (h : s.resolve (.call name (params.map .symbol)) = s.resolve (.symbol name)) :
    ∀ x : Expr, s.resolve (x.callBare name params) = s.resolve x
  | .number q => rfl
  | .symbol n => by
    rw [Expr.callBare]
    split
    · rename_i hn
      rw [h, hn]
    · rfl
  | .neg x => by rw [Expr.callBare, resolve, resolve, resolve_callBare h x]
  | .binary op l r => by
    rw [Expr.callBare, resolve, resolve, resolve_callBare h l, resolve_callBare h r]
  | .call n args => by
    rw [Expr.callBare, resolve, resolve, Expr.length_callBareAll, resolveAll_callBare h args]

theorem resolveAll_callBare
    (h : s.resolve (.call name (params.map .symbol)) = s.resolve (.symbol name)) :
    ∀ xs : List Expr, s.resolveAll (Expr.callBareAll name params xs) = s.resolveAll xs
  | [] => rfl
  | x :: xs => by
    rw [Expr.callBareAll, resolveAll, resolveAll, resolve_callBare h x, resolveAll_callBare h xs]

end

end Scope

/-! ## Entries -/

namespace Entry

variable {context : BuildContext} {key : Key} {text text' : String} {x x' : Expr}

/-- Both are the same entry but for the text that it was made from, or both fail with the same code. -/
inductive AgreeButText : Except Fault Entry → Except Fault Entry → Prop where
  | entry (e : Entry) (text : String) : AgreeButText (.ok e) (.ok { e with source := .expression text })
  | fault {f f' : Fault} (h : f.code = f'.code) : AgreeButText (.error f) (.error f')

/-- What is made of a text depends on how its expression is resolved. -/
theorem agreeButText_derive (hx : Expr.read text = .ok x) (hx' : Expr.read text' = .ok x')
    (h : (context.scope key).resolve x' = (context.scope key).resolve x) :
    AgreeButText (derive context key text) (derive context key text') := by
  unfold derive
  cases checkReserved key with
  | error f => exact .fault rfl
  | ok =>
    rw [hx, hx']
    change AgreeButText (((((context.scope key).resolve x).run {}).mapError _) >>= _)
      (((((context.scope key).resolve x').run {}).mapError _) >>= _)
    rw [h]
    cases ((context.scope key).resolve x).run {} with
    | error f => exact .fault rfl
    | ok found =>
      obtain ⟨quantity, found⟩ := found
      change AgreeButText (applyDeclaredUnit key quantity >>= _) (applyDeclaredUnit key quantity >>= _)
      cases applyDeclaredUnit key quantity with
      | error f => exact .fault rfl
      | ok result => exact .entry _ text'

/-- A bare reference is the call with the parameters of the entry, if none of these is registered, a
constant or the name being defined, and all of them may be parameters of it. -/
theorem bare_reference {g : String} {e : Entry} (hg : context.entries.get? g = some e)
    (hundeclared : g ∉ key.args.getD [])
    (hparams : ∀ q ∈ e.params,
      q ∉ context.entries.names ∧ Constant.ofName? q = none ∧ q ≠ key.name)
    (hallowed : (context.freeParameters = true ∧ key.args = none) ∨
      ∃ args, key.args = some args ∧ ∀ q ∈ e.params, q ∈ args) :
    (∀ x, (context.scope key).resolve (x.callBare g e.params) = (context.scope key).resolve x) ∧
      ∀ x text text', Expr.read text = .ok x → Expr.read text' = .ok (x.callBare g e.params) →
        AgreeButText (derive context key text) (derive context key text') := by
  have htakes : ∀ q ∈ e.params, (context.scope key).TakesParameter q := by
    intro q hq
    obtain ⟨hregistered, hconstant, hforeign⟩ := hparams q hq
    have hget : context.entries.get? q = none := by
      cases hget : context.entries.get? q with
      | none => rfl
      | some e' => exact absurd (NameMap.mem_names_of_get? hget) hregistered
    refine ⟨hget, hconstant, hforeign, ?_⟩
    rcases hallowed with ⟨hfree, hnone⟩ | ⟨args, hargs, hall⟩
    · right
      simp [Scope.isOpen, BuildContext.scope, hfree, hnone]
    · left
      simpa [Scope.isDeclared, BuildContext.scope, hargs] using hall q hq
  have hd : (context.scope key).isDeclared g = false := by
    simpa [Scope.isDeclared, BuildContext.scope] using hundeclared
  have hresolve := Scope.resolve_callBare (Scope.resolve_call_params hg hd htakes)
  exact ⟨hresolve, fun x text text' hx hx' => agreeButText_derive hx hx' (hresolve x)⟩

/-- Where only `e` is at hand, under the name `a`. -/
def besides (e : Entry) : BuildContext := ⟨.insert .empty "a" e, true, 0, 1, []⟩

/-- With `a(x) = x` at hand, `a*b` is the same as `a(x)*b`, and has the parameters `x` and `b`. -/
theorem bare_reference_factor : ∃ e, e.params = ["x"] ∧
    (derive (besides e) ⟨"f", none, none⟩ "a*b").toOption.map params = some ["x", "b"] ∧
      AgreeButText (derive (besides e) ⟨"f", none, none⟩ "a*b")
        (derive (besides e) ⟨"f", none, none⟩ "a(x)*b") := by
  have hbuilt : ((derive ⟨.empty, true, 0, 0, []⟩ ⟨"a", none, none⟩ "x").toOption.map fun e =>
      (e.params, (derive (besides e) ⟨"f", none, none⟩ "a*b").toOption.map params)) =
        some (["x"], some ["x", "b"]) := by rfl
  obtain ⟨e, -, he⟩ := Option.map_eq_some_iff.mp hbuilt
  obtain ⟨hparams, hfound⟩ := Prod.mk.inj he
  have hcall : Expr.read "a(x)*b" =
      .ok (Expr.callBare "a" e.params (.binary .mul (.symbol "a") (.symbol "b"))) := by
    rw [hparams]
    rfl
  refine ⟨e, hparams, hfound, ?_⟩
  refine (bare_reference (NameMap.get?_insert_self .empty "a" e) List.not_mem_nil ?_
    (.inl ⟨rfl, rfl⟩)).2 _ _ _ (by rfl) hcall
  have hnames : (besides e).entries.names = ["a"] := rfl
  rw [hparams, hnames]
  decide

end Entry

end Formulary
