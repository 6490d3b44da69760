import Formulary.Callable.Basic
import Formulary.Proofs.Term.Evaluation

/-!
What running a callable takes from the handles that it holds.

A call through a handle fails if the entry is retired, and otherwise runs the callable of the entry
on what binding gives. So retiring one entry changes nothing for the callables that do not use it,
and leaves no value to those that do. A fault that is not one of binding or of a term comes from a
retired entry that a handle leads to, or from a function given from outside.
-/

namespace Formulary

open Term (FailsWith ownCodes)

/-! ## Binding -/

namespace Arguments

variable {callee : String} {params : List String} {defaults given : NameMap NdArray}
  {args bound : List NdArray} {f : Fault}

theorem length_mapM {α β : Type} {g : α → Except Fault β} :
    ∀ {l : List α} {l' : List β}, l.mapM g = .ok l' → l'.length = l.length
  | [], l', h => by
    cases h
    rfl
  | a :: l, l', h => by
    rw [List.mapM_cons] at h
    obtain ⟨b, -, h⟩ := Except.bind_eq_ok.mp h
    obtain ⟨bs, hbs, h⟩ := Except.bind_eq_ok.mp h
    cases h
    simp [length_mapM hbs]

theorem exists_of_mapM_error {α β : Type} {g : α → Except Fault β} :
    ∀ {l : List α}, l.mapM g = .error f → ∃ a ∈ l, g a = .error f
  | [], h => by cases h
  | a :: l, h => by
    rw [List.mapM_cons] at h
    rcases Except.bind_eq_error.mp h with ha | ⟨b, -, h⟩
    · exact ⟨a, List.mem_cons_self, ha⟩
    · rcases Except.bind_eq_error.mp h with hl | ⟨bs, -, h⟩
      · obtain ⟨a', ha', hg⟩ := exists_of_mapM_error hl
        exact ⟨a', List.mem_cons_of_mem _ ha', hg⟩
      · cases h

/-- Binding by position gives one array for each parameter. -/
theorem length_byPosition (h : byPosition callee params defaults args = .ok bound) :
    bound.length = params.length := by
  unfold byPosition at h
  split at h
  · cases h
  · obtain ⟨rest, hrest, h⟩ := Except.bind_eq_ok.mp h
    cases h
    have := length_mapM hrest
    rw [List.length_drop] at this
    rw [List.length_append]
    omega

/-- Binding by name gives one array for each parameter. -/
theorem length_byName (h : byName callee params defaults given = .ok bound) :
    bound.length = params.length := by
  unfold byName at h
  split at h
  · cases h
  · exact length_mapM h

theorem code_default {param : String} (h : default callee defaults param = .error f) :
    f.code = "ARG_COUNT" := by
  unfold default at h
  split at h
  · cases h
  · cases h
    rfl

/-- Every fault of binding by position is one of the number of arguments. -/
theorem code_byPosition (h : byPosition callee params defaults args = .error f) :
    f.code = "ARG_COUNT" := by
  unfold byPosition at h
  split at h
  · cases h
    rfl
  · rcases Except.bind_eq_error.mp h with hrest | ⟨rest, -, h⟩
    · obtain ⟨p, -, hp⟩ := exists_of_mapM_error hrest
      exact code_default hp
    · cases h

/-- Every fault of binding by name is one of the number of arguments. -/
theorem code_byName (h : byName callee params defaults given = .error f) :
    f.code = "ARG_COUNT" := by
  unfold byName at h
  split at h
  · cases h
    rfl
  · obtain ⟨p, -, hp⟩ := exists_of_mapM_error h
    split at hp
    · cases hp
    · exact code_default hp

end Arguments

/-! ## Calls through handles -/

namespace Handle

variable {h : Handle} {retired : List Stamp} {bound : Except Fault (List NdArray)}
  {run : CallContext → List NdArray → Except Fault NdArray} {v : NdArray} {f : Fault}

/-- The fault of calling a retired entry. -/
def gone (h : Handle) : Fault :=
  (Fault.ofCause (.unknownSymbol h.name)).note ("'" ++ h.name ++ "' was deleted from the registry")

theorem call_of_retired (hs : h.stamp ∈ retired) : h.call retired bound run = .error h.gone := by
  unfold call checkLive
  rw [if_pos (List.contains_iff_mem.mpr hs)]
  rfl

theorem call_of_live (hs : h.stamp ∉ retired) :
    h.call retired bound run =
      (bound >>= run ⟨h.fill, retired⟩).map (·.fillNaN h.fill) := by
  unfold call checkLive
  rw [if_neg (by simpa using hs), Except.ok_bind]
  cases bound with
  | error e => rfl
  | ok args =>
    rw [Except.ok_bind, Except.ok_bind]
    cases run ⟨h.fill, retired⟩ args <;> rfl

/-- Retiring another entry makes no difference if it makes none to what is run. -/
theorem call_congr {s : Stamp} (hs : h.stamp ≠ s)
    (hrun : run ⟨h.fill, s :: retired⟩ = run ⟨h.fill, retired⟩) :
    h.call (s :: retired) bound run = h.call retired bound run := by
  have hlive : h.checkLive (s :: retired) = h.checkLive retired := by
    simp [checkLive, hs]
  rw [call, call, hlive, hrun]

theorem call_eq_ok (hcall : h.call retired bound run = .ok v) :
    h.stamp ∉ retired ∧ ∃ args w, bound = .ok args ∧ run ⟨h.fill, retired⟩ args = .ok w := by
  by_cases hs : h.stamp ∈ retired
  · rw [call_of_retired hs] at hcall
    cases hcall
  · rw [call_of_live hs] at hcall
    obtain ⟨w, hw, -⟩ := Except.map_eq_ok.mp hcall
    obtain ⟨args, hargs, hrun⟩ := Except.bind_eq_ok.mp hw
    exact ⟨hs, args, w, hargs, hrun⟩

/-- A call fails because the entry is retired, in binding or in running. -/
theorem call_eq_error (hcall : h.call retired bound run = .error f) :
    (h.stamp ∈ retired ∧ f.cause = .unknownSymbol h.name) ∨ bound = .error f ∨
      ∃ args, bound = .ok args ∧ run ⟨h.fill, retired⟩ args = .error f := by
  by_cases hs : h.stamp ∈ retired
  · rw [call_of_retired hs] at hcall
    cases hcall
    exact .inl ⟨hs, rfl⟩
  · rw [call_of_live hs, Except.map_eq_error] at hcall
    exact .inr (Except.bind_eq_error.mp hcall)

end Handle

namespace Callable

/-- The entry that a callable applies under a name. -/
def target? : Callable → String → Option (Handle × Callable)
  | .compiled _ entries, name => entries.find? fun p => p.1.name == name
  | .host _, _ | .rescaled _ _, _ => none

/-- A call of what a callable holds under a name. -/
def heldCall? (c : Callable) (retired : List Stamp) (name : String) :
    Option (List NdArray → Except Fault NdArray) :=
  (c.target? name).map fun p args =>
    p.1.call retired (Arguments.byPosition p.1.name p.2.params p.2.defaults args)
      fun context bound => p.2.run context bound

theorem runNamed_eq (retired : List Stamp) (name : String) :
    ∀ entries : List (Handle × Callable), runNamed retired entries name =
      (entries.find? fun p => p.1.name == name).map fun p args =>
        p.1.call retired (Arguments.byPosition p.1.name p.2.params p.2.defaults args)
          fun context bound => p.2.run context bound
  | [] => by simp [runNamed]
  | (h, c) :: rest => by
    rw [runNamed, List.find?_cons]
    by_cases hn : h.name = name
    · simp [hn]
    · have hb : (h.name == name) = false := by simpa using hn
      rw [if_neg hn, hb, runNamed_eq retired name rest]

/-- What holds of functions, of definitions if it holds of what they hold, and of callables with
rescaled results if it holds of these, holds of every callable. -/
@[elab_as_elim, induction_eliminator]
theorem induction {motive : Callable → Prop} (host : ∀ f, motive (.host f))
    (compiled : ∀ d entries, (∀ p ∈ entries, motive p.2) → motive (.compiled d entries))
    (rescaled : ∀ factor inner, motive inner → motive (.rescaled factor inner)) :
    ∀ c, motive c
  | .host f => host f
  | .compiled d entries => compiled d entries fun p _ => induction host compiled rescaled p.2
  | .rescaled factor inner => rescaled factor inner (induction host compiled rescaled inner)
termination_by c => sizeOf c
decreasing_by
  · rename_i hp
    obtain ⟨h, c⟩ := p
    have := List.sizeOf_lt_of_mem hp
    simp only [Prod.mk.sizeOf_spec, Callable.compiled.sizeOf_spec] at this ⊢
    omega
  · simp only [Callable.rescaled.sizeOf_spec]
    omega

end Callable

/-! ## Running -/

/-- What the names of a definition stand for when it runs. -/
def Definition.environment (d : Definition) (entries : List (Handle × Callable))
    (retired : List Stamp) (args : List NdArray) : Term.Environment where
  owner := d.name
  parameter x := (d.params.zip args).lookup x
  entry := (Callable.compiled d entries).heldCall? retired

namespace Callable

variable {retired retired' : List Stamp} {c : Callable} {s : Stamp} {f : Fault}
  {d : Definition} {entries : List (Handle × Callable)} {args : List NdArray}

theorem checkCount_of_length {callee : String} {params : List String}
    (h : args.length = params.length) : checkCount callee params args = .ok () :=
  if_pos h

theorem code_checkCount {callee : String} {params : List String}
    (h : checkCount callee params args = .error f) : f.code = "ARG_COUNT" := by
  unfold checkCount at h
  split at h
  · cases h
  · cases h
    rfl

/-- A definition computes its expression, each name standing for what is held under it. -/
theorem run_compiled (context : CallContext) (d : Definition) (entries : List (Handle × Callable))
    (args : List NdArray) :
    run context (.compiled d entries) args = checkCount d.name d.params args >>= fun _ =>
      d.expression.eval (d.environment entries context.retired args) := by
  have hentry : (fun name => runNamed context.retired entries name) =
      (compiled d entries).heldCall? context.retired :=
    funext fun name => runNamed_eq context.retired name entries
  rw [run, hentry]
  rfl

theorem run_host (context : CallContext) (g : HostFunction) (args : List NdArray) :
    run context (.host g) args =
      checkCount g.callee g.params args >>= fun _ => g.run context.fill args := by
  rw [run]

theorem run_rescaled (context : CallContext) (factor : Float) (inner : Callable)
    (args : List NdArray) :
    run context (.rescaled factor inner) args = (run context inner args).map fun v =>
      v.map (· * factor) := by
  rw [run]
  cases run context inner args <;> rfl

theorem mem_of_target? {name : String} {p : Handle × Callable}
    (h : (compiled d entries).target? name = some p) : p ∈ entries :=
  List.mem_of_find?_eq_some h

/-! ## What handles lead to -/

mutual

/-- All handles that a callable leads to. -/
def handles : Callable → List Handle
  | .host _ => []
  | .compiled _ entries => handlesAll entries
  | .rescaled _ inner => handles inner

/-- The handles of the given entries, and all that these lead to. -/
def handlesAll : List (Handle × Callable) → List Handle
  | [] => []
  | (h, c) :: rest => h :: (handles c ++ handlesAll rest)

end

mutual

/-- All functions given from outside that a callable leads to. -/
def hosts : Callable → List HostFunction
  | .host g => [g]
  | .compiled _ entries => hostsAll entries
  | .rescaled _ inner => hosts inner

/-- All functions that the given entries lead to. -/
def hostsAll : List (Handle × Callable) → List HostFunction
  | [] => []
  | (_, c) :: rest => hosts c ++ hostsAll rest

end

theorem mem_handlesAll {p : Handle × Callable} {h : Handle} (hh : h = p.1 ∨ h ∈ p.2.handles) :
    ∀ {entries : List (Handle × Callable)}, p ∈ entries → h ∈ handlesAll entries
  | q :: rest, hp => by
    rw [handlesAll, List.mem_cons, List.mem_append]
    rcases List.mem_cons.mp hp with rfl | hp
    · exact hh.imp_right .inl
    · exact .inr (.inr (mem_handlesAll hh hp))

theorem mem_hostsAll {p : Handle × Callable} {g : HostFunction} (hg : g ∈ p.2.hosts) :
    ∀ {entries : List (Handle × Callable)}, p ∈ entries → g ∈ hostsAll entries
  | q :: rest, hp => by
    rw [hostsAll, List.mem_append]
    rcases List.mem_cons.mp hp with rfl | hp
    · exact .inl hg
    · exact .inr (mem_hostsAll hg hp)

/-- The fault has the cause of one that a function given from outside has returned. -/
def ReturnedByHost (c : Callable) (f : Fault) : Prop :=
  ∃ g ∈ c.hosts, ∃ fill bound f', g.run fill bound = .error f' ∧ f'.cause = f.cause

/-- A retired entry that the callable leads to is what the fault does not know. -/
def ReturnedByRetired (c : Callable) (retired : List Stamp) (f : Fault) : Prop :=
  ∃ h ∈ c.handles, h.stamp ∈ retired ∧ f.cause = .unknownSymbol h.name

/-- A fault of running is one of terms and binding, or comes from a retired entry or from a function
given from outside. -/
def Accounted (c : Callable) (retired : List Stamp) (f : Fault) : Prop :=
  f.code ∈ ownCodes ∨ c.ReturnedByRetired retired f ∨ c.ReturnedByHost f

theorem accounted_of_argCount (h : f.code = "ARG_COUNT") : c.Accounted retired f :=
  .inl (h ▸ .tail _ (.tail _ (.head _)))

theorem Accounted.of_cause {f' : Fault} (h : c.Accounted retired f') (hf : f'.cause = f.cause) :
    c.Accounted retired f := by
  rcases h with h | ⟨x, hx, hs, hcause⟩ | ⟨g, hg, fill, bound, f'', hrun, hcause⟩
  · have hcode : f.code = f'.code := congrArg Cause.code hf.symm
    exact .inl (hcode ▸ h)
  · exact .inr (.inl ⟨x, hx, hs, hf ▸ hcause⟩)
  · exact .inr (.inr ⟨g, hg, fill, bound, f'', hrun, hcause.trans hf⟩)

theorem Accounted.of_held {p : Handle × Callable} (hp : p ∈ entries)
    (h : p.2.Accounted retired f) : (compiled d entries).Accounted retired f := by
  rcases h with h | ⟨x, hx, hs⟩ | ⟨g, hg, hrun⟩
  · exact .inl h
  · exact .inr (.inl ⟨x, mem_handlesAll (.inr hx) hp, hs⟩)
  · exact .inr (.inr ⟨g, mem_hostsAll hg hp, hrun⟩)

/-- Every fault of running a callable is accounted for. -/
theorem accounted_run (c : Callable) : ∀ {fill : Float} {args : List NdArray} {f : Fault},
    c.run ⟨fill, retired⟩ args = .error f → c.Accounted retired f := by
  induction c with
  | host g =>
    intro fill args f hrun
    rw [run_host] at hrun
    rcases Except.bind_eq_error.mp hrun with hcount | ⟨_, -, hrun⟩
    · exact accounted_of_argCount (code_checkCount hcount)
    · exact .inr (.inr ⟨g, List.mem_singleton_self g, _, _, f, hrun, rfl⟩)
  | compiled d entries ih =>
    intro fill args f hrun
    rw [run_compiled] at hrun
    rcases Except.bind_eq_error.mp hrun with hcount | ⟨_, -, hrun⟩
    · exact accounted_of_argCount (code_checkCount hcount)
    · rcases Term.explained_eval _ d.expression f hrun with
        hown | ⟨name, call, values, f', hcall, hfails, hcause⟩
      · exact .inl hown
      · obtain ⟨p, htarget, rfl⟩ := Option.map_eq_some_iff.mp hcall
        have hp := mem_of_target? htarget
        refine Accounted.of_cause ?_ hcause
        rcases Handle.call_eq_error hfails with ⟨hs, hc⟩ | hbind | ⟨bound, -, hinner⟩
        · exact .inr (.inl ⟨p.1, mem_handlesAll (.inl rfl) hp, hs, hc⟩)
        · exact accounted_of_argCount (Arguments.code_byPosition hbind)
        · exact (ih p hp hinner).of_held hp
  | rescaled factor inner ih =>
    intro fill args f hrun
    rw [run_rescaled] at hrun
    exact ih (Except.map_eq_error.mp hrun)

/-! ## Using an entry -/

/-- The callable uses the entry with the stamp: its expression applies that entry, or a live one
that uses it. -/
inductive Uses (retired : List Stamp) (s : Stamp) : Callable → Prop where
  | applied {d : Definition} {entries : List (Handle × Callable)} {name : String}
      {p : Handle × Callable} (mem : name ∈ d.expression.appliedIn)
      (held : (compiled d entries).target? name = some p) (stamp : p.1.stamp = s) :
      Uses retired s (.compiled d entries)
  | through {d : Definition} {entries : List (Handle × Callable)} {name : String}
      {p : Handle × Callable} (mem : name ∈ d.expression.appliedIn)
      (held : (compiled d entries).target? name = some p) (live : p.1.stamp ∉ retired)
      (inner : Uses retired s p.2) : Uses retired s (.compiled d entries)
  | rescaled {factor : Float} {c : Callable} (inner : Uses retired s c) :
      Uses retired s (.rescaled factor c)

/-- Retiring an entry changes nothing for a callable that does not use it. -/
theorem run_of_not_uses (c : Callable) : ¬ c.Uses retired s → ∀ fill args,
    c.run ⟨fill, s :: retired⟩ args = c.run ⟨fill, retired⟩ args := by
  induction c with
  | host g =>
    intro _ fill args
    rw [run_host, run_host]
  | compiled d entries ih =>
    intro hnot fill args
    rw [run_compiled, run_compiled]
    refine congrArg _ (funext fun _ => ?_)
    refine Term.eval_congr (d.environment entries retired args) d.expression ?_
    intro name hname
    change heldCall? _ _ name = heldCall? _ _ name
    unfold heldCall?
    cases htarget : (compiled d entries).target? name with
    | none => rfl
    | some p =>
      have hne : p.1.stamp ≠ s := fun h => hnot (.applied hname htarget h)
      rw [Option.map_some, Option.map_some, Option.some.injEq]
      funext values
      by_cases hs : p.1.stamp ∈ retired
      · rw [Handle.call_of_retired hs, Handle.call_of_retired (List.mem_cons_of_mem s hs)]
      · have hinner : ¬ p.2.Uses retired s := fun h => hnot (.through hname htarget hs h)
        exact Handle.call_congr hne
          (funext (ih p (mem_of_target? htarget) hinner p.1.fill))
  | rescaled factor inner ih =>
    intro hnot fill args
    rw [run_rescaled, run_rescaled, ih (fun h => hnot (.rescaled h))]

/-- What is held under a name that a definition applies must give a value for the definition to have
one. -/
theorem target?_of_run {fill : Float} {v : NdArray} {name : String} {p : Handle × Callable}
    (hrun : run ⟨fill, retired⟩ (.compiled d entries) args = .ok v)
    (hname : name ∈ d.expression.appliedIn)
    (htarget : (compiled d entries).target? name = some p) :
    p.1.stamp ∉ retired ∧ ∃ bound w, p.2.run ⟨p.1.fill, retired⟩ bound = .ok w := by
  rw [run_compiled] at hrun
  obtain ⟨_, -, heval⟩ := Except.bind_eq_ok.mp hrun
  obtain ⟨call, values, w, hcall, hvalue⟩ := Term.answers_of_eval heval name hname
  obtain ⟨p', htarget', rfl⟩ := Option.map_eq_some_iff.mp hcall
  rw [htarget, Option.some.injEq] at htarget'
  subst htarget'
  obtain ⟨hlive, bound, w', -, hinner⟩ := Handle.call_eq_ok hvalue
  exact ⟨hlive, bound, w', hinner⟩

/-- Where evaluation comes to a retired entry, running a definition fails as a call of an unknown
symbol. -/
theorem run_of_reaches (fill : Float) {name : String} {p : Handle × Callable}
    (htarget : (compiled d entries).target? name = some p) (hs : p.1.stamp ∈ retired)
    (hcount : args.length = d.params.length)
    (hreach : Term.Reaches (d.environment entries retired args) name d.expression) :
    FailsWith "UNKNOWN_SYMBOL" (run ⟨fill, retired⟩ (.compiled d entries) args) := by
  rw [run_compiled, checkCount_of_length hcount, Except.ok_bind]
  refine Term.failsWith_of_reaches ⟨_, Option.map_eq_some_iff.mpr ⟨p, htarget, rfl⟩, ?_⟩ hreach
  intro values
  exact ⟨_, Handle.call_of_retired hs, rfl⟩

/-- A callable that uses an entry gives no value once that is retired. -/
theorem run_of_uses (h : c.Uses retired s) (hs : s ∈ retired') :
    ∀ fill args v, c.run ⟨fill, retired'⟩ args ≠ .ok v := by
  induction h with
  | applied mem held stamp =>
    intro fill args v hrun
    exact (target?_of_run hrun mem held).1 (stamp ▸ hs)
  | through mem held _ _ ih =>
    intro fill args v hrun
    obtain ⟨-, bound, w, hinner⟩ := target?_of_run hrun mem held
    exact ih _ bound w hinner
  | rescaled _ ih =>
    intro fill args v hrun
    rw [run_rescaled] at hrun
    obtain ⟨w, hw, -⟩ := Except.map_eq_ok.mp hrun
    exact ih fill args w hw

end Callable

end Formulary
