import Formulary.Entry.Build
import Formulary.Proofs.Callable
import Formulary.Proofs.Entry.Resolution

/-!
What a built entry keeps of the entries it was built against.

A source mentions the names in its text that its key does not list as arguments. Which of them the
new entry depends on is decided by the entries at hand: exactly those that are registered. For each
of these it holds the handle and the callable that stood under the name. Unless unknown symbols may
become parameters, every mentioned name is registered or reserved.

Entries come from building alone: each was built from a key that was read, against entries that were
built in the same way before it.
-/

namespace Formulary

/-- The names that a source mentions besides the arguments of its key. -/
def Source.mentions (key : Key) : Source → List String
  | .expression text =>
    match Expr.read text with
    | .ok e => e.namesIn.filter fun name => !(key.args.getD []).contains name
    | .error _ => []
  | .function _ => []

/-- What an expression under the key is resolved against. -/
def BuildContext.scope (context : BuildContext) (key : Key) : Scope :=
  ⟨key.name, key.args, context.entries, context.freeParameters⟩

/-- The key was read from a text. -/
def Key.Written (key : Key) : Prop := ∃ text, Key.read text = .ok key

/-- The callable with its results rescaled by the factor, if there is one. -/
def Callable.scaledBy (c : Callable) : Option Float → Callable
  | some x => .rescaled x c
  | none => c

/-- The array rescaled by the factor, if there is one. -/
def NdArray.scaledBy (a : NdArray) : Option Float → NdArray
  | some x => a.map (· * x)
  | none => a

namespace Entry

/-- The entry was built from a key that was read, against entries that were built themselves; its
snapshot may have been taken anew since. -/
inductive Built : Entry → Prop where
  | build {context : BuildContext} {key : Key} {source : Source} {e : Entry}
      (entries : ∀ n g, context.entries.get? n = some g → Built g) (written : key.Written)
      (h : Entry.build context key source = .ok e) : Built e
  | snapshot {e : Entry} (h : Built e) (retired : List Stamp) : Built (e.withSnapshot retired)

/-- The names that the text of an entry mentions besides the arguments of its key. -/
def mentions (e : Entry) : List String := e.source.mentions e.key

/-- The entry as an entry that applies it holds it. -/
def held (e : Entry) : Handle × Callable := (e.handle, e.callable)

/-- The entry was made from the key and the source, with the stamp, against the entries at hand. It
depends on the mentioned names that are registered, and holds what is registered under each. -/
structure Made (entries : NameMap Entry) (freeParameters : Bool) (stamp : Stamp) (key : Key)
    (source : Source) (e : Entry) : Prop where
  name_eq : e.name = key.name
  key_eq : e.key = key
  source_eq : e.source = source
  stamp_eq : e.stamp = stamp
  depends : ∀ d, d ∈ e.dependencies ↔ d ∈ e.mentions ∧ d ∈ entries.names
  holds : ∀ d ∈ e.dependencies, ∀ g, entries.get? d = some g → e.callable.target? d = some g.held
  bare : e.isDerived = true → ∀ d, d ∉ e.dependencies → e.callable.target? d = none
  params_eq : e.callable.params = e.params
  args_eq : ∀ args, key.args = some args → e.params = args
  foreign : e.name ∉ e.mentions
  unreserved : isReserved e.name = false
  known : freeParameters = false → ∀ d ∈ e.mentions, d ∈ entries.names ∨ isReserved d = true
  built : (∀ n g, entries.get? n = some g → Built g) → key.Written → Built e

variable {context : BuildContext} {key : Key} {e : Entry}

theorem unreserved_of_check (h : checkReserved key = .ok ()) : isReserved key.name = false := by
  unfold checkReserved at h
  split at h
  · cases h
  · rename_i hr
    exact Bool.eq_false_iff.mpr hr

/-- With every entry under its own name, the handles are found by name. -/
theorem find?_held (name : String) :
    ∀ l : List (String × Entry), (∀ p ∈ l, p.2.name = p.1) →
      (l.map fun p => p.2.held).find? (fun p => p.1.name == name) =
        (l.lookup name).map Entry.held
  | [], _ => rfl
  | (n, e) :: l, h => by
    have hn : e.held.1.name = n := h (n, e) (by simp)
    have ih := find?_held name l fun p hp => h p (List.mem_cons_of_mem _ hp)
    rw [List.map_cons, List.find?_cons]
    by_cases hc : name = n
    · subst hc
      simp [hn]
    · have hb : (name == n) = false := by simpa using hc
      have hb' : (n == name) = false := by simpa using fun h : n = name => hc h.symm
      simpa [List.lookup_cons, hn, hb, hb'] using ih

theorem mentions_expression {text : String} {x : Expr} (h : Expr.read text = .ok x) (d : String) :
    d ∈ Source.mentions key (.expression text) ↔
      d ∈ x.namesIn ∧ (key.args.getD []).contains d = false := by
  simp only [Source.mentions, h]
  rw [List.mem_filter]
  simp

/-- What the findings record is what is mentioned and registered. -/
theorem get?_applied {s : Scope} {names : List String} {applied : NameMap Entry}
    (h : s.Records names .empty applied) (d : String) (e : Entry) :
    applied.get? d = some e ↔
      d ∈ names ∧ s.isDeclared d = false ∧ s.entries.get? d = some e := by
  constructor
  · intro hd
    rcases h.added d e hd with hn | hn
    · simp at hn
    · exact hn
  · rintro ⟨hmem, hdecl, hget⟩
    obtain ⟨e', he'⟩ := NameMap.contains_iff_get?.mp
      (h.found d hmem hdecl (NameMap.contains_iff_get?.mpr ⟨e, hget⟩))
    rcases h.added d e' he' with hn | ⟨-, -, hn⟩
    · simp at hn
    · rw [hget, Option.some.injEq] at hn
      rw [hn]
      exact he'

theorem mem_names_applied {s : Scope} {names : List String} {applied : NameMap Entry}
    (h : s.Records names .empty applied) (d : String) :
    d ∈ applied.names ↔ (d ∈ names ∧ s.isDeclared d = false) ∧ d ∈ s.entries.names := by
  constructor
  · intro hd
    obtain ⟨g, hg⟩ := NameMap.get?_of_mem_names hd
    obtain ⟨hmem, hdecl, hreg⟩ := (get?_applied h d g).mp hg
    exact ⟨⟨hmem, hdecl⟩, NameMap.mem_names_of_get? hreg⟩
  · rintro ⟨⟨hmem, hdecl⟩, hreg⟩
    obtain ⟨g, hg⟩ := NameMap.get?_of_mem_names hreg
    exact NameMap.mem_names_of_get? ((get?_applied h d g).mpr ⟨hmem, hdecl, hg⟩)

/-- What is held under a name is what has been recorded under it. -/
theorem find?_applied {s : Scope} {names : List String} {applied : NameMap Entry}
    (hn : WellNamed s.entries) (h : s.Records names .empty applied) (name : String) :
    (applied.toList.map fun p => p.2.held).find? (fun p => p.1.name == name) =
      (applied.get? name).map held :=
  find?_held name _ fun p hp =>
    hn p.1 p.2 ((get?_applied h p.1 p.2).mp (NameMap.mem_toList_iff.mp hp)).2.2

/-- An entry is derived exactly if the name is free, and the text is read, resolved and taken to the
declared unit. -/
theorem derive_iff {text : String} :
    derive context key text = .ok e ↔ ∃ x quantity found term unit units,
      checkReserved key = .ok () ∧ Expr.read text = .ok x ∧
      ((context.scope key).resolve x).run {} = .ok (quantity, found) ∧
      applyDeclaredUnit key quantity = .ok (term, unit, units) ∧
      e = withSnapshot {
        stamp := context.stamp
        signature := ⟨key.name, key.args.getD found.params⟩
        expression := some term
        callable := .compiled
          ⟨key.name, term, key.args.getD found.params,
            defaultsOf (key.args.getD found.params) found.defaults⟩
          (found.applied.toList.map fun p => p.2.held)
        about := { units }
        data := none
        fill := context.fill
        unit
        dependencies := found.applied.names
        key
        source := .expression text } context.retired := by
  unfold derive
  constructor
  · intro h
    obtain ⟨_, hres, h⟩ := Except.bind_eq_ok.mp h
    obtain ⟨x, hread, h⟩ := Except.bind_eq_ok.mp h
    obtain ⟨⟨quantity, found⟩, hrun, h⟩ := Except.bind_eq_ok.mp h
    obtain ⟨⟨term, unit, units⟩, hunit, h⟩ := Except.bind_eq_ok.mp h
    cases h
    exact ⟨x, quantity, found, term, unit, units, hres, hread, Except.mapError_eq_ok.mp hrun,
      hunit, rfl⟩
  · rintro ⟨x, quantity, found, term, unit, units, hres, hread, hrun, hunit, rfl⟩
    exact Except.bind_eq_ok.mpr ⟨_, hres, Except.bind_eq_ok.mpr ⟨x, hread,
      Except.bind_eq_ok.mpr ⟨_, Except.mapError_eq_ok.mpr hrun,
        Except.bind_eq_ok.mpr ⟨_, hunit, rfl⟩⟩⟩⟩

/-- What the entry of an expression is made of. -/
structure Derived (context : BuildContext) (text : String) (e : Entry) : Prop where
  source_eq : e.source = .expression text
  isDerived : e.isDerived = true
  compiled : ∃ definition entries, e.callable = .compiled definition entries ∧
    e.expression = some definition.expression
  fill_eq : e.fill = context.fill
  data_eq : e.data = e.atDefaults context.retired

theorem derived_of_derive {text : String} (h : derive context key text = .ok e) :
    Derived context text e := by
  obtain ⟨x, quantity, found, term, unit, units, -, -, -, -, rfl⟩ := derive_iff.mp h
  exact ⟨rfl, rfl, ⟨_, _, rfl, rfl⟩, rfl, rfl⟩

/-- The factor that takes the results of a function to the declared unit, if they are rescaled. -/
def rescaling (key : Key) (f : Annotated) : Except Fault (Option Float) := do
  let native ← nativeUnit f.about
  return (← declaredFactor key.unit native).map Double.ofRat

/-- What the entry of a function is made of. -/
structure Wrapped (context : BuildContext) (key : Key) (f : Annotated) (e : Entry) : Prop where
  unreserved : checkReserved key = .ok ()
  stamp_eq : e.stamp = context.stamp
  signature_eq : e.signature = ⟨key.name, f.callable.params⟩
  expression_eq : e.expression = none
  params_eq : e.callable.params = f.callable.params
  args_eq : ∀ args, key.args = some args → f.callable.params = args
  fill_eq : e.fill = context.fill
  unit_eq : ∃ native, nativeUnit f.about = .ok native ∧ e.unit = key.unit.or native
  dependencies_eq : e.dependencies = []
  key_eq : e.key = key
  source_eq : e.source = .function f
  scaled : ∃ factor, rescaling key f = .ok factor ∧ e.callable = f.callable.scaledBy factor ∧
    e.data = f.data.map fun a => (a.scaledBy factor).fillNaN context.fill

theorem args_of_checkParams {params : List String} (h : checkParams key params = .ok ()) :
    ∀ args, key.args = some args → params = args := by
  intro args hargs
  unfold checkParams at h
  simp only [hargs] at h
  split at h
  · exact (‹args = params›).symm
  · cases h

/-- The entry of a function is what can be made of it, whatever entries are at hand. -/
theorem wrap_iff {f : Annotated} : wrap context key f = .ok e ↔ ∃ native factor,
    checkReserved key = .ok () ∧ checkParams key f.callable.params = .ok () ∧
    checkHidden key f.about.hidden f.callable.params = .ok () ∧ nativeUnit f.about = .ok native ∧
    rescaling key f = .ok factor ∧ e = {
      stamp := context.stamp
      signature := ⟨key.name, f.callable.params⟩
      expression := none
      callable := f.callable.scaledBy factor
      about := { f.about with units := if key.unit.isSome then key.units else f.about.units }
      data := f.data.map fun a => (a.scaledBy factor).fillNaN context.fill
      fill := context.fill
      unit := key.unit.or native
      dependencies := []
      key
      source := .function f } := by
  unfold wrap rescaling
  constructor
  · intro h
    obtain ⟨_, hres, h⟩ := Except.bind_eq_ok.mp h
    obtain ⟨_, hparams, h⟩ := Except.bind_eq_ok.mp h
    obtain ⟨_, hhidden, h⟩ := Except.bind_eq_ok.mp h
    obtain ⟨native, hnative, h⟩ := Except.bind_eq_ok.mp h
    obtain ⟨factor, hfactor, h⟩ := Except.bind_eq_ok.mp h
    cases h
    refine ⟨native, factor.map Double.ofRat, hres, hparams, hhidden, hnative, ?_, ?_⟩
    · rw [hnative, Except.ok_bind, hfactor]
      rfl
    · rw [Option.map_map]
      cases factor <;> rfl
  · rintro ⟨native, factor, hres, hparams, hhidden, hnative, hfactor, rfl⟩
    rw [hnative, Except.ok_bind] at hfactor
    obtain ⟨factor, hdeclared, hfactor⟩ := Except.bind_eq_ok.mp hfactor
    cases hfactor
    refine Except.bind_eq_ok.mpr ⟨_, hres, Except.bind_eq_ok.mpr ⟨_, hparams,
      Except.bind_eq_ok.mpr ⟨_, hhidden, Except.bind_eq_ok.mpr ⟨_, hnative,
        Except.bind_eq_ok.mpr ⟨_, hdeclared, ?_⟩⟩⟩⟩⟩
    cases factor <;> cases f.data <;> rfl

theorem wrapped_of_wrap {f : Annotated} (h : wrap context key f = .ok e) :
    Wrapped context key f e := by
  obtain ⟨native, factor, hres, hparams, -, hnative, hfactor, rfl⟩ := wrap_iff.mp h
  exact {
    unreserved := hres
    stamp_eq := rfl
    signature_eq := rfl
    expression_eq := rfl
    params_eq := by cases factor <;> rfl
    args_eq := args_of_checkParams hparams
    fill_eq := rfl
    unit_eq := ⟨native, hnative, rfl⟩
    dependencies_eq := rfl
    key_eq := rfl
    source_eq := rfl
    scaled := ⟨factor, hfactor, rfl, rfl⟩ }

theorem derive_eq_ok (hn : WellNamed context.entries) {text : String}
    (h : derive context key text = .ok e) :
    Made context.entries context.freeParameters context.stamp key (.expression text) e := by
  have hbuild : build context key (.expression text) = .ok e := h
  obtain ⟨x, quantity, found, term, unit, units, hres, hread, hrun, -, rfl⟩ := derive_iff.mp h
  have hrec : (context.scope key).Records x.namesIn .empty found.applied :=
    Scope.resolve_records (s := context.scope key) hn x {} found quantity hrun
  have hment : ∀ d, d ∈ Source.mentions key (.expression text) ↔
      d ∈ x.namesIn ∧ (key.args.getD []).contains d = false := mentions_expression hread
  have htarget := find?_applied (s := context.scope key) hn hrec
  exact {
    name_eq := rfl
    key_eq := rfl
    source_eq := rfl
    stamp_eq := rfl
    depends := fun d => (mem_names_applied hrec d).trans (and_congr_left' (hment d).symm)
    holds := fun d hdep g hg => by
      obtain ⟨g', hg'⟩ := NameMap.get?_of_mem_names (m := found.applied) hdep
      have hreg : context.entries.get? d = some g' := ((get?_applied hrec d g').mp hg').2.2
      rw [hg, Option.some.injEq] at hreg
      refine (htarget d).trans ?_
      rw [hg', hreg, Option.map_some]
    bare := fun _ d hd => by
      refine (htarget d).trans ?_
      rw [Option.map_eq_none_iff]
      cases hd' : found.applied.get? d with
      | none => rfl
      | some g => exact absurd (NameMap.mem_names_of_get? hd') hd
    params_eq := rfl
    args_eq := fun args hargs => by
      change key.args.getD found.params = args
      rw [hargs, Option.getD_some]
    foreign := fun hmem => by
      obtain ⟨hmem, hdecl⟩ := (hment _).mp hmem
      exact (hrec.usable _ hmem).foreign hdecl rfl
    unreserved := unreserved_of_check hres
    known := fun hfree d hd => by
      obtain ⟨hmem, hdecl⟩ := (hment d).mp hd
      refine ((hrec.usable d hmem).known hdecl ?_).imp_left NameMap.contains_iff_mem_names.mp
      simp [Scope.isOpen, hfree, BuildContext.scope]
    built := fun hentries hkey => .build hentries hkey hbuild }

theorem wrap_eq_ok {f : Annotated} (h : wrap context key f = .ok e) :
    Made context.entries context.freeParameters context.stamp key (.function f) e := by
  have hbuild : build context key (.function f) = .ok e := h
  have hw := wrapped_of_wrap h
  have hname : e.name = key.name := congrArg Signature.name hw.signature_eq
  have hmentions : e.mentions = [] := by rw [mentions, hw.source_eq, Source.mentions]
  have hprimitive : e.isDerived = false := by rw [isDerived, hw.expression_eq, Option.isSome_none]
  exact {
    name_eq := hname
    key_eq := hw.key_eq
    source_eq := hw.source_eq
    stamp_eq := hw.stamp_eq
    depends := fun d => by simp [hw.dependencies_eq, hmentions]
    holds := fun d hd => by simp [hw.dependencies_eq] at hd
    bare := fun hd => by simp [hprimitive] at hd
    params_eq := by rw [hw.params_eq, params, hw.signature_eq]
    args_eq := fun args hargs => by
      rw [params, hw.signature_eq]
      exact hw.args_eq args hargs
    foreign := by simp [hmentions]
    unreserved := by
      rw [hname]
      exact unreserved_of_check hw.unreserved
    known := fun _ d hd => by simp [hmentions] at hd
    built := fun hentries hkey => .build hentries hkey hbuild }

/-- What building an entry gives. -/
theorem build_eq_ok (hn : WellNamed context.entries) {source : Source}
    (h : build context key source = .ok e) :
    Made context.entries context.freeParameters context.stamp key source e := by
  cases source with
  | expression text => exact derive_eq_ok hn h
  | function f => exact wrap_eq_ok h

/-- A built entry has the fill value that it was built with. -/
theorem fill_of_build {source : Source} (h : build context key source = .ok e) :
    e.fill = context.fill := by
  cases source with
  | expression text => exact (derived_of_derive h).fill_eq
  | function f => exact (wrapped_of_wrap h).fill_eq

/-- A built entry keeps the source that it was built from. -/
theorem source_of_build {source : Source} (h : build context key source = .ok e) :
    e.source = source := by
  cases source with
  | expression text => exact (derived_of_derive h).source_eq
  | function f => exact (wrapped_of_wrap h).source_eq

/-- What is built with an expression was derived from a text. -/
theorem exists_text_of_build {source : Source} (h : build context key source = .ok e)
    (hderived : e.isDerived = true) : ∃ text, source = .expression text := by
  cases source with
  | expression text => exact ⟨text, rfl⟩
  | function f =>
    rw [isDerived, (wrapped_of_wrap h).expression_eq] at hderived
    cases hderived

end Entry

end Formulary
