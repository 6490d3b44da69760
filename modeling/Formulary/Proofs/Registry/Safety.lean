import Formulary.Proofs.Entry.Provided
import Formulary.Proofs.Registry.Step

/-!
Running what has been compiled never goes wrong.

A callable is sound if its expression can be evaluated from its parameters and from what it holds,
and what it holds is sound, to any depth. Given one array for each parameter, a sound callable gives
a value, or arrays in it do not fit together, or it has come to a retired entry, or a function given
from outside has failed; every such function was given one array for each of its parameters.

Every entry that is registered has a sound callable: those of expressions because resolution only
refers to what it has recorded, those of functions because they run what was given. A function given
to a registry is one from outside, or what an entry runs.
-/

namespace Formulary

open Term (Ready FailsWithin)

/-! ## Binding -/

/-- The callable can be called with as many arguments: it has no fewer parameters, and those left
out have defaults. -/
structure Callable.Takes (c : Callable) (count : Nat) : Prop where
  enough : count ≤ c.params.length
  defaulted : ∀ p ∈ c.params.drop count, c.defaults.contains p = true

namespace Callable

variable {c : Callable} {args : List NdArray} {retired : List Stamp}

/-- Binding as many arguments as a callable takes never fails. -/
theorem Takes.byPosition (h : c.Takes args.length) (callee : String) (f : Fault) :
    Arguments.byPosition callee c.params c.defaults args ≠ .error f := by
  intro hf
  unfold Arguments.byPosition at hf
  rw [if_neg (Nat.not_lt.mpr h.enough)] at hf
  rcases Except.bind_eq_error.mp hf with hf | ⟨_, -, hf⟩
  · obtain ⟨p, hp, hdefault⟩ := Arguments.exists_of_mapM_error hf
    obtain ⟨value, hvalue⟩ := NameMap.contains_iff_get?.mp (h.defaulted p hp)
    rw [Arguments.default, hvalue] at hdefault
    cases hdefault
  · cases hf

/-- An entry that runs the callable can be called with what the callable takes. -/
theorem takes_of_checkEntryCall {e : Entry} {count : Nat} (hparams : e.callable.params = e.params)
    (h : Scope.checkEntryCall e count = .ok ()) : e.callable.Takes count := by
  unfold Scope.checkEntryCall at h
  split at h
  · cases h
  · rename_i hle
    split at h
    · cases h
    · rename_i hfind
      refine ⟨by rw [hparams]; omega, fun p hp => ?_⟩
      rw [hparams] at hp
      simpa [Entry.defaults] using List.find?_eq_none.mp hfind p hp

/-! ## Soundness -/

/-- The expressions of the callable and of all that it holds can be evaluated: their parameters are
bound, and what they apply is held and takes as many arguments. -/
inductive Sound : Callable → Prop
  | host (g : HostFunction) : Sound (.host g)
  | compiled {d : Definition} {entries : List (Handle × Callable)}
    (ready : Ready (· ∈ d.params)
      (fun name count => ∃ p, (compiled d entries).target? name = some p ∧ p.2.Takes count)
      d.expression)
    (held : ∀ p ∈ entries, Sound p.2) : Sound (.compiled d entries)
  | rescaled (factor : Float) {inner : Callable} (h : Sound inner) : Sound (.rescaled factor inner)

/-- What a sound callable can fail from: arrays that do not fit together, a retired entry that it
leads to, and a function given from outside that it leads to, called with one array for each
parameter. -/
inductive Excuses (c : Callable) (retired : List Stamp) : Cause → Prop
  | shapes (detail : String) : Excuses c retired (.shapeMismatch detail)
  | retired {h : Handle} (mem : h ∈ c.handles) (gone : h.stamp ∈ retired) :
    Excuses c retired (.unknownSymbol h.name)
  | host {g : HostFunction} {fill : Float} {bound : List NdArray} {f : Fault} (mem : g ∈ c.hosts)
    (count : bound.length = g.params.length) (failed : g.run fill bound = .error f) :
    Excuses c retired f.cause

theorem Excuses.rescaled {cause : Cause} (factor : Float) (h : c.Excuses retired cause) :
    (rescaled factor c).Excuses retired cause := by
  cases h with
  | shapes detail => exact .shapes detail
  | retired mem gone => exact .retired mem gone
  | host mem count failed => exact .host mem count failed

theorem Excuses.of_held {d : Definition} {entries : List (Handle × Callable)}
    {p : Handle × Callable} (hp : p ∈ entries) {cause : Cause} (h : p.2.Excuses retired cause) :
    (compiled d entries).Excuses retired cause := by
  cases h with
  | shapes detail => exact .shapes detail
  | retired mem gone => exact .retired (mem_handlesAll (.inr mem) hp) gone
  | host mem count failed => exact .host (mem_hostsAll mem hp) count failed

theorem isSome_lookup_zip {x : String} : ∀ {params : List String} {args : List NdArray},
    x ∈ params → args.length = params.length → ((params.zip args).lookup x).isSome = true
  | p :: params, [], _, hlen => by cases hlen
  | p :: params, a :: args, hx, hlen => by
    rw [List.zip_cons_cons, List.lookup_cons]
    by_cases hp : (x == p) = true
    · rw [hp]
      rfl
    · have hne : x ≠ p := by simpa using hp
      rw [Bool.not_eq_true] at hp
      rw [hp]
      exact isSome_lookup_zip ((List.mem_cons.mp hx).resolve_left hne) (Nat.succ.inj hlen)

/-- A sound callable that is given one array for each parameter fails from what it can be excused
for only. -/
theorem Sound.failsWithin (h : c.Sound) : ∀ {fill : Float} {args : List NdArray},
    args.length = c.params.length →
      FailsWithin (c.Excuses retired) (c.run ⟨fill, retired⟩ args) := by
  induction h with
  | host g =>
    intro fill args hlen f hf
    have hlen : args.length = g.params.length := hlen
    rw [run_host, checkCount_of_length hlen, Except.ok_bind] at hf
    exact .host (List.mem_singleton_self g) hlen hf
  | rescaled factor h ih =>
    intro fill args hlen f hf
    rw [run_rescaled, Except.map_eq_error] at hf
    exact (ih hlen f hf).rescaled factor
  | @compiled d entries ready held ih =>
    intro fill args hlen
    have hlen : args.length = d.params.length := hlen
    rw [run_compiled, checkCount_of_length hlen, Except.ok_bind]
    refine Ready.failsWithin .shapes (ready.mono (fun x hx => isSome_lookup_zip hx hlen) ?_)
    rintro name count ⟨p, htarget, htakes⟩
    have hp := mem_of_target? htarget
    refine ⟨_, Option.map_eq_some_iff.mpr ⟨p, htarget, rfl⟩, fun values hcount f hf => ?_⟩
    rcases Handle.call_eq_error hf with ⟨hs, hcause⟩ | hbind | ⟨bound, hbound, hrun⟩
    · exact hcause ▸ .retired (mem_handlesAll (.inl rfl) hp) hs
    · exact absurd hbind (Takes.byPosition (hcount ▸ htakes) _ f)
    · exact (ih p hp (Arguments.length_byPosition hbound) f hrun).of_held hp

end Callable

/-! ## Entries -/

namespace Entry

variable {context : BuildContext} {key : Key} {e : Entry} {text : String}

/-- The entry runs a sound callable with its own parameters. -/
structure Sound (e : Entry) : Prop where
  callable : e.callable.Sound
  params_eq : e.callable.params = e.params

/-- An entry of an expression is safe: each name in the text stands for something, even where the
term that it is in has been simplified away; the canonical expression uses only parameters of the
entry and applies only its dependencies; and given one array for each parameter, what is compiled
fails from what it can be excused for only. -/
structure Safe (entries : NameMap Entry) (freeParameters : Bool) (key : Key) (text : String)
    (e : Entry) : Prop where
  names : ∃ x, Expr.read text = .ok x ∧
    (∀ n ∈ x.symbolsIn, n ∈ key.args.getD [] ∨ n ∈ entries.names ∨ n = "pi" ∨ n = "E" ∨
      key.args = none ∧ freeParameters = true ∧ n ∈ e.params) ∧
    ∀ n ∈ x.callsIn, n ∈ entries.names ∨ n ∈ Builtin.names
  expression : ∃ t, e.expression = some t ∧ (∀ x ∈ t.varsIn, x ∈ e.params) ∧
    ∀ n ∈ t.appliedIn, n ∈ e.dependencies
  runs : ∀ (fill : Float) (retired : List Stamp) (args : List NdArray),
    args.length = e.params.length →
      FailsWithin (e.callable.Excuses retired) (e.callable.run ⟨fill, retired⟩ args)

theorem name_of_constant {n : String} (h : (Constant.ofName? n).isSome = true) :
    n = "pi" ∨ n = "E" := by
  unfold Constant.ofName? at h
  split at h
  · exact .inl ‹_›
  · split at h
    · exact .inr ‹_›
    · cases h

/-- What resolution has provided for an entry of an expression. -/
structure Provided (context : BuildContext) (key : Key) (text : String) (x : Expr)
    (found : Findings) (t : Term) (e : Entry) : Prop where
  read : Expr.read text = .ok x
  resolved : (context.scope key).Classified x.symbolsIn x.callsIn {} found
  recorded : (context.scope key).Records x.namesIn .empty found.applied
  ready : Ready (· ∈ found.params) ((context.scope key).Takes found) t
  params : found.params ⊆ e.params
  expression_eq : e.expression = some t
  dependencies_eq : e.dependencies = found.applied.names
  callable_eq : ∃ d, e.callable = .compiled d (found.applied.toList.map fun p => p.2.held) ∧
    d.expression = t ∧ d.params = e.params

theorem provided_of_derive (hn : WellNamed context.entries)
    (h : derive context key text = .ok e) : ∃ x found t, Provided context key text x found t e := by
  obtain ⟨x, quantity, found, term, unit, units, -, hread, hrun, hunit, rfl⟩ := derive_iff.mp h
  obtain ⟨hresolved, hquantity⟩ :=
    Scope.resolve_provides (s := context.scope key) hn x {} found quantity hrun
  refine ⟨x, found, term, hread, hresolved,
    Scope.resolve_records (s := context.scope key) hn x _ _ _ hrun,
    (applyDeclaredUnit_formed hquantity hunit).ready, fun p hp => ?_, rfl, rfl, _, rfl, rfl, rfl⟩
  change p ∈ key.args.getD found.params
  cases hargs : key.args with
  | none => exact hp
  | some args =>
    have hdeclared := hresolved.follows.declared (by simp [BuildContext.scope, hargs]) p hp
    simpa [Scope.isDeclared, BuildContext.scope, hargs] using hdeclared

section Provided

variable {x : Expr} {found : Findings} {t : Term}

/-- What is derived from sound entries is sound: what has been recorded under a name is held, and
takes as many arguments as it is given. -/
theorem Provided.sound (hn : WellNamed context.entries)
    (hentries : ∀ n g, context.entries.get? n = some g → g.Sound)
    (h : Provided context key text x found t e) : e.Sound := by
  obtain ⟨d, hcallable, hexpression, hparams⟩ := h.callable_eq
  have hregistered : ∀ {n g}, found.applied.get? n = some g → context.entries.get? n = some g :=
    fun {n g} hg => ((get?_applied h.recorded n g).mp hg).2.2
  refine ⟨?_, by rw [hcallable, ← hparams]; rfl⟩
  rw [hcallable]
  refine .compiled ?_ fun p hp => ?_
  · rw [hexpression, hparams]
    refine h.ready.mono (fun _ hp => h.params hp) ?_
    rintro name count ⟨hrecorded, g, hget, hcheck⟩
    obtain ⟨g', hg'⟩ := NameMap.contains_iff_get?.mp hrecorded
    obtain rfl : g' = g := Option.some.inj ((hregistered hg').symm.trans hget)
    refine ⟨g'.held, (find?_applied (s := context.scope key) hn h.recorded name).trans ?_,
      Callable.takes_of_checkEntryCall (hentries name g' hget).params_eq hcheck⟩
    rw [hg', Option.map_some]
  · obtain ⟨⟨n, g⟩, hmem, rfl⟩ := List.mem_map.mp hp
    exact (hentries n g (hregistered (NameMap.mem_toList_iff.mp hmem))).callable

theorem Provided.safe (h : Provided context key text x found t e) (hsound : e.Sound) :
    e.Safe context.entries context.freeParameters key text where
  names := by
    refine ⟨x, h.read, fun n hn => ?_, fun n hn => ?_⟩
    · rcases h.resolved.symbols n hn with hd | hreg | hc | ⟨hopen, hp⟩
      · exact .inl (List.contains_iff_mem.mp hd)
      · exact .inr (.inl (NameMap.contains_iff_mem_names.mp hreg))
      · exact .inr (.inr ((name_of_constant hc).imp_right .inl))
      · have hopen : key.args = none ∧ context.freeParameters = true := by
          simpa [Scope.isOpen, BuildContext.scope] using hopen
        exact .inr (.inr (.inr (.inr ⟨hopen.1, hopen.2, h.params hp⟩)))
    · exact (h.resolved.calls n hn).imp_left NameMap.contains_iff_mem_names.mp
  expression := by
    refine ⟨t, h.expression_eq, fun y hy => h.params (h.ready.vars y hy), fun n hn => ?_⟩
    obtain ⟨count, hrecorded, -⟩ := h.ready.applied n hn
    exact h.dependencies_eq ▸ NameMap.contains_iff_mem_names.mp hrecorded
  runs fill retired args hlen := hsound.callable.failsWithin (hlen.trans (by rw [hsound.params_eq]))

end Provided

theorem sound_scaledBy {c : Callable} (hc : c.Sound) (factor : Option Float) :
    (c.scaledBy factor).Sound := by
  cases factor with
  | none => exact hc
  | some x => exact .rescaled x hc

/-- The entry of a function is sound if the function is. -/
theorem sound_of_wrap {f : Annotated} (hf : f.callable.Sound) (h : wrap context key f = .ok e) :
    e.Sound := by
  have hw := wrapped_of_wrap h
  obtain ⟨factor, -, hcallable, -⟩ := hw.scaled
  refine ⟨?_, by rw [hw.params_eq, params, hw.signature_eq]⟩
  rw [hcallable]
  exact sound_scaledBy hf factor

/-- The entry has come from registrations. A function given to one of them is a function from
outside, or what an entry runs that has come from registrations as well. -/
inductive Registered : Entry → Prop
  | derived {context : BuildContext} {key : Key} {text : String} {e : Entry}
    (named : WellNamed context.entries)
    (entries : ∀ n g, context.entries.get? n = some g → Registered g)
    (h : derive context key text = .ok e) : Registered e
  | foreign {context : BuildContext} {key : Key} {f : Annotated} {e : Entry} {g : HostFunction}
    (given : f.callable = .host g) (h : wrap context key f = .ok e) : Registered e
  | shared {context : BuildContext} {key : Key} {f : Annotated} {e g : Entry} (origin : Registered g)
    (given : f.callable = g.callable) (h : wrap context key f = .ok e) : Registered e
  | snapshot {e : Entry} (h : Registered e) (retired : List Stamp) :
    Registered (e.withSnapshot retired)

theorem Registered.sound (h : e.Registered) : e.Sound := by
  induction h with
  | derived named _ h ih =>
    obtain ⟨x, found, t, hprovided⟩ := provided_of_derive named h
    exact hprovided.sound named ih
  | foreign given h => exact sound_of_wrap (given ▸ .host _) h
  | shared _ given h ih => exact sound_of_wrap (given ▸ ih.callable) h
  | snapshot _ _ ih => exact ⟨ih.callable, ih.params_eq⟩

end Entry

/-- A function given to a registration is one from outside, or what a registered entry runs. -/
def Source.Honest : Source → Prop
  | .expression _ => True
  | .function f =>
    (∃ g, f.callable = .host g) ∨ ∃ e : Entry, e.Registered ∧ f.callable = e.callable

/-- The operation gives an honest source, if it gives one. -/
def Operation.Honest : Operation → Prop
  | .set _ source => source.Honest
  | .delete .. | .refresh _ | .refreshAll | .setFill .. => True

namespace Entry

variable {context : BuildContext} {key : Key} {e : Entry}

/-- Building a registered entry needs an honest source. -/
theorem Registered.honest (h : e.Registered) : e.source.Honest := by
  induction h with
  | derived _ _ h =>
    rw [(derived_of_derive h).source_eq]
    trivial
  | foreign given h =>
    rw [(wrapped_of_wrap h).source_eq]
    exact .inl ⟨_, given⟩
  | shared origin given h =>
    rw [(wrapped_of_wrap h).source_eq]
    exact .inr ⟨_, origin, given⟩
  | snapshot _ _ ih => exact ih

/-- The entry of an honest function is registered, whatever it was built against. -/
theorem registered_of_wrap {f : Annotated} (hf : (Source.function f).Honest)
    (h : wrap context key f = .ok e) : e.Registered := by
  rcases hf with ⟨g, hg⟩ | ⟨g, horigin, hg⟩
  · exact .foreign hg h
  · exact .shared horigin hg h

theorem Built.isDerived {text : String} (h : e.Built) (hsource : e.source = .expression text) :
    e.isDerived = true := by
  induction h with
  | @build context key source e _ _ h =>
    obtain rfl : source = .expression text := (source_of_build h).symm.trans hsource
    exact (derived_of_derive h).isDerived
  | snapshot _ _ ih => exact ih hsource

theorem Built.registered {f : Annotated} (h : e.Built) (hsource : e.source = .function f)
    (hf : (Source.function f).Honest) : e.Registered := by
  induction h with
  | @build context key source e _ _ h =>
    obtain rfl : source = .function f := (source_of_build h).symm.trans hsource
    exact registered_of_wrap hf h
  | snapshot _ retired ih => exact .snapshot (ih hsource) retired

end Entry

namespace Registry

/-- What is made from an honest source against registered entries is registered. -/
theorem Made.registered {r : Registry} {key : Key} {source : Source} {e : Entry}
    (hr : r.WellFormed) (hentries : ∀ n g, r.entries.get? n = some g → g.Registered)
    (hsource : source.Honest) (h : r.Made key source e) : e.Registered := by
  have hbuilt := h.built hr.built h.written
  cases source with
  | function f => exact hbuilt.registered h.source_eq hsource
  | expression text => exact .derived hr.named hentries (h.derived (hbuilt.isDerived h.source_eq))

/-- All entries of a run that is given honest sources only are registered. -/
theorem run_registered (settings : Settings) {ops : List Operation}
    (honest : ∀ op ∈ ops, op.Honest) :
    ∀ n e, (run settings ops).entries.get? n = some e → e.Registered := by
  refine run_preserves_sources (P := fun r => ∀ n e, r.entries.get? n = some e → e.Registered)
    (S := Source.Honest) (fun n e he => by cases he) (fun key source h => honest _ h)
    (fun r hr n e he => (hr n e he).honest) (fun r key source e hr hentries hsource hmade => ?_)
    (fun r hentries => hentries)
    fun r mode e _ hentries n g hg => hentries n g (NameMap.get?_of_get?_erase hg)
  exact forall_put hentries (hmade.registered hr hentries hsource)

/-- What is compiled against the entries of a run is safe. -/
theorem derived_safe {settings : Settings} {ops : List Operation}
    (honest : ∀ op ∈ ops, op.Honest) {freeParameters : Bool} {fill : Float} {stamp : Stamp}
    {retired : List Stamp} {key : Key} {text : String} {e : Entry}
    (h : Entry.derive ⟨(run settings ops).entries, freeParameters, fill, stamp, retired⟩ key text =
      .ok e) : e.Safe (run settings ops).entries freeParameters key text := by
  have hn := (run_wellFormed settings ops).named
  obtain ⟨x, found, t, hprovided⟩ := Entry.provided_of_derive hn h
  exact hprovided.safe (hprovided.sound hn fun n g hg => (run_registered settings honest n g hg).sound)

/-- A function of two parameters, the second with a default; it gives its first argument. -/
def firstOfTwo : HostFunction where
  callee := "function"
  params := ["x", "y"]
  defaults := .ofList [("y", .scalar 0)]
  run _ args := .ok (args.headD (.scalar 0))

/-- The function registered as `f(x, y)`, and `g` that leaves out its second argument. -/
def partialCall : List Operation :=
  [.set "f(x, y)" (.function (.make (.host firstOfTwo) {} [])), .set "g" (.expression "f(u)^2")]

/-- The free parameter `v` stays one although its term has been simplified away. -/
theorem derived_safe_partial_call : ∃ key e,
    Key.read "h" = .ok key ∧
    Entry.derive ⟨(run {} partialCall).entries, true, 0, 2, []⟩ key "g(f(t)) + 0*v" = .ok e ∧
    e.params = ["t", "v"] ∧ e.dependencies = ["f", "g"] ∧
    e.Safe (run {} partialCall).entries true key "g(f(t)) + 0*v" := by
  have honest : ∀ op ∈ partialCall, op.Honest := by
    intro op hop
    simp only [partialCall, List.mem_cons, List.not_mem_nil, or_false] at hop
    rcases hop with rfl | rfl
    · exact .inl ⟨firstOfTwo, rfl⟩
    · trivial
  have hok : ((Key.read "h").bind fun key =>
      (Entry.derive ⟨(run {} partialCall).entries, true, 0, 2, []⟩ key "g(f(t)) + 0*v").map
        fun e => (e.params, e.dependencies)).toOption = some (["t", "v"], ["f", "g"]) := by
    decide +kernel
  obtain ⟨key, hkey, hok⟩ := Except.bind_eq_ok.mp (Except.toOption_eq_some.mp hok)
  obtain ⟨e, he, hshown⟩ := Except.map_eq_ok.mp hok
  obtain ⟨hparams, hdependencies⟩ := Prod.mk.inj hshown
  exact ⟨key, e, hkey, he, hparams, hdependencies, derived_safe honest he⟩

end Registry

end Formulary
