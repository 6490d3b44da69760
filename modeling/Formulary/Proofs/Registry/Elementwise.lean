import Formulary.Callable.Stock
import Formulary.Proofs.Entry.Parameters
import Formulary.Proofs.Registry.Current
import Formulary.Proofs.Registry.Defaults
import Formulary.Proofs.Registry.Safety
import Formulary.Proofs.Term.Elementwise

/-!
Calling an entry on arrays is calling it at each multi-index.

What is called from a definition is pointwise if calling it is elementwise, whatever it runs, or if it
is a live definition in turn, all that it applies is given one argument for each of its parameters, and
is pointwise. A default is not looked at where every parameter is given an argument; bound to an array
it would not go along with taking points. The fill value takes the place of NaN in each element by
itself, at every depth.
-/

namespace Formulary

open Term (Elementwise EntryCall Ready SpreadsCall applicationsIn)

variable {retired : List Stamp} {S : Shape} {args : List NdArray}

namespace Callable

variable {d : Definition} {entries : List (Handle × Callable)} {p : Handle × Callable} {fill : Float}

/-- What calling through a handle does. -/
def throughHandle (retired : List Stamp) (p : Handle × Callable) : EntryCall := fun args =>
  p.1.call retired (Arguments.byPosition p.1.name p.2.params p.2.defaults args)
    fun context bound => p.2.run context bound

/-- What is called is elementwise by itself, or it is a live definition, each application in which
binds every parameter of what it applies, and that is pointwise in turn. -/
inductive Pointwise (retired : List Stamp) : Handle × Callable → Prop
  | primitive {p : Handle × Callable} (h : Elementwise p.2.params.length (throughHandle retired p)) :
    Pointwise retired p
  | derived {h : Handle} {d : Definition} {entries : List (Handle × Callable)}
    (live : h.stamp ∉ retired)
    (explicit : ∀ a ∈ d.expression.applicationsIn, ∀ p,
      (compiled d entries).target? a.1 = some p → p.2.params.length = a.2)
    (applied : ∀ a ∈ d.expression.applicationsIn, ∀ p,
      (compiled d entries).target? a.1 = some p → Pointwise retired p) :
    Pointwise retired (h, .compiled d entries)

/-- With one argument for each parameter, a live entry runs on the arguments and its fill value takes
the place of NaN. -/
theorem throughHandle_of_live (live : p.1.stamp ∉ retired) (hlen : args.length = p.2.params.length) :
    throughHandle retired p args =
      (p.2.run ⟨p.1.fill, retired⟩ args).map (·.map (Double.filled p.1.fill)) := by
  rw [throughHandle, Arguments.byPosition_bound hlen, Handle.call_of_live live, Except.ok_bind]
  simp only [NdArray.fillNaN_eq_map]

/-- Filling goes along with taking points. -/
theorem spreadsCall_throughHandle (live : p.1.stamp ∉ retired)
    (hlen : args.length = p.2.params.length)
    (h : SpreadsCall S (p.2.run ⟨p.1.fill, retired⟩) args) :
    SpreadsCall S (throughHandle retired p) args := by
  obtain ⟨v, hv, hS, hpoint⟩ := h.map (Double.filled p.1.fill)
  refine ⟨v, (throughHandle_of_live live hlen).trans hv, hS, fun ix hix => ?_⟩
  rw [throughHandle_of_live live (by rw [List.length_map, hlen]), ← hpoint ix hix]

theorem lookup_zip_map (g : NdArray → NdArray) (x : String) : ∀ (params : List String)
    (args : List NdArray), (params.zip (args.map g)).lookup x = ((params.zip args).lookup x).map g
  | [], _ => rfl
  | _ :: _, [] => rfl
  | p :: params, a :: args => by
    rw [List.map_cons, List.zip_cons_cons, List.zip_cons_cons, List.lookup_cons, List.lookup_cons]
    cases x == p with
    | true => rfl
    | false => exact lookup_zip_map g x params args

theorem mem_of_lookup_zip {x : String} {a : NdArray} {params : List String}
    (h : (params.zip args).lookup x = some a) : a ∈ args :=
  (List.of_mem_zip (NameMap.mem_of_lookup h)).2

/-- A parameter stands for the array that is bound to it, and at each multi-index for the scalar in
that array. -/
theorem spreads_parameter {x : String} (hx : x ∈ d.params) (hlen : args.length = d.params.length)
    (hargs : ∀ a ∈ args, a.shape.Stretches S) :
    Term.Spreads S (d.environment entries retired args)
      (fun ix => d.environment entries retired (args.map (·.point ix))) (.var x) := by
  obtain ⟨a, ha⟩ := Option.isSome_iff_exists.mp (isSome_lookup_zip hx hlen)
  refine ⟨a, ?_, hargs a (mem_of_lookup_zip ha), fun ix _ => ?_⟩
  · rw [Term.eval]
    simp only [Definition.environment, ha]
  · rw [Term.eval]
    simp only [Definition.environment, lookup_zip_map, ha, Option.map_some]

/-- A definition that applies elementwise entries only, each to one argument for each of its
parameters, is elementwise. -/
theorem spreadsCall_compiled {T : String → Nat → Prop} (ready : Ready (· ∈ d.params) T d.expression)
    (hT : ∀ name count, T name count → ∃ p, (compiled d entries).target? name = some p)
    (happ : ∀ a ∈ d.expression.applicationsIn, ∀ p, (compiled d entries).target? a.1 = some p →
      Elementwise a.2 (throughHandle retired p))
    (hlen : args.length = d.params.length) (hargs : ∀ a ∈ args, a.shape.Stretches S) :
    SpreadsCall S (run ⟨fill, retired⟩ (.compiled d entries)) args := by
  have hspreads : Term.Spreads S (d.environment entries retired args)
      (fun ix => d.environment entries retired (args.map (·.point ix))) d.expression := by
    have hready := ready.strengthen (Q := fun name count => ∀ p,
      (compiled d entries).target? name = some p → Elementwise count (throughHandle retired p)) happ
    refine Ready.spreads (fun _ => rfl)
      (hready.mono (fun x hx => spreads_parameter hx hlen hargs) ?_)
    rintro name count ⟨ht, helementwise⟩
    obtain ⟨p, hp⟩ := hT name count ht
    exact ⟨throughHandle retired p, Option.map_eq_some_iff.mpr ⟨p, hp, rfl⟩, helementwise p hp⟩
  obtain ⟨v, hv, hS, hpoint⟩ := hspreads
  refine ⟨v, ?_, hS, fun ix hix => ?_⟩
  · rw [run_compiled, checkCount_of_length hlen, Except.ok_bind, hv]
  · rw [run_compiled, checkCount_of_length (by rw [List.length_map, hlen]), Except.ok_bind,
      hpoint ix hix]

/-- What is sound and pointwise is elementwise. -/
theorem Pointwise.elementwise (h : Pointwise retired p) :
    p.2.Sound → Elementwise p.2.params.length (throughHandle retired p) := by
  induction h with
  | primitive h => exact fun _ => h
  | @derived h d entries live explicit applied ih =>
    intro hsound
    cases hsound with
    | compiled ready held =>
      refine Term.elementwise_of_spreadsCall fun args S hlen hargs =>
        spreadsCall_throughHandle live hlen
          (spreadsCall_compiled ready (fun _ _ ⟨p, hp, _⟩ => ⟨p, hp⟩) (fun a ha p hp => ?_) hlen hargs)
      exact explicit a ha p hp ▸ ih a ha p hp (held p (mem_of_target? hp))

end Callable

namespace Entry

open Callable (Pointwise throughHandle)

variable {e : Entry} {t : Term}

theorem call_eq_throughHandle (h : e.callable.params = e.params) :
    e.call retired = throughHandle retired e.held := by
  funext args
  change e.handle.call retired (Arguments.byPosition e.name e.params e.defaults args) _ =
    e.handle.call retired (Arguments.byPosition e.name e.callable.params e.defaults args) _
  rw [h]
  rfl

/-- The live entry of an elementwise function is elementwise. -/
theorem elementwise_of_function {f : Annotated} (he : e.Built) (hsource : e.source = .function f)
    (live : e.stamp ∉ retired)
    (hf : Elementwise e.callable.params.length (f.callable.run ⟨e.fill, retired⟩)) :
    Elementwise e.callable.params.length (throughHandle retired e.held) := by
  obtain ⟨factor, hcallable⟩ := he.scaledBy hsource
  refine Term.elementwise_of_spreadsCall fun args S hlen hargs =>
    Callable.spreadsCall_throughHandle live hlen ?_
  have hrun := hf.spreadsCall hlen hargs
  change SpreadsCall S (e.callable.run ⟨e.fill, retired⟩) args
  rw [hcallable]
  cases factor with
  | none => exact hrun
  | some x =>
    obtain ⟨v, hv, hS, hpoint⟩ := hrun.map (· * x)
    refine ⟨v, (Callable.run_rescaled ..).trans hv, hS, fun ix hix => ?_⟩
    exact (Callable.run_rescaled ..).trans (hpoint ix hix)

/-- A registered entry with an expression runs that expression. -/
theorem Registered.compiled (h : e.Registered) (ht : e.expression = some t) :
    ∃ d entries, e.callable = .compiled d entries ∧ d.expression = t := by
  induction h with
  | derived _ _ h =>
    obtain ⟨d, entries, hcallable, hexpression⟩ := (derived_of_derive h).compiled
    exact ⟨d, entries, hcallable, Option.some.inj (hexpression.symm.trans ht)⟩
  | foreign _ h | shared _ _ h =>
    rw [(wrapped_of_wrap h).expression_eq] at ht
    cases ht
  | snapshot _ _ ih => exact ih ht

/-- A live derived entry is elementwise if each application in its expression, and in the expressions
of the entries that it leads to, binds every parameter of what it applies, no entry that it leads to
is retired, and those that are not looked into are elementwise. -/
theorem elementwise_of_applied (he : e.Registered) (ht : e.expression = some t)
    (live : e.stamp ∉ retired)
    (explicit : ∀ a ∈ t.applicationsIn, ∀ p, e.callable.target? a.1 = some p →
      p.2.params.length = a.2)
    (applied : ∀ a ∈ t.applicationsIn, ∀ p, e.callable.target? a.1 = some p → Pointwise retired p) :
    Elementwise e.params.length (e.call retired) := by
  have hsound := he.sound
  obtain ⟨d, entries, hcallable, rfl⟩ := he.compiled ht
  rw [call_eq_throughHandle hsound.params_eq, ← hsound.params_eq]
  refine Pointwise.elementwise (p := e.held) ?_ hsound.callable
  rw [hcallable] at explicit applied
  rw [held, hcallable]
  exact .derived live explicit applied

end Entry

namespace Registry

open Callable (Pointwise throughHandle)

/-- What an entry of a run was made from has been given to the run. -/
theorem run_source (settings : Settings) (ops : List Operation) : ∀ n e,
    (run settings ops).entries.get? n = some e → ∃ key, Operation.set key e.source ∈ ops := by
  refine run_preserves_sources
    (P := fun r => ∀ n e, r.entries.get? n = some e → ∃ key, Operation.set key e.source ∈ ops)
    (S := fun source => ∃ key, Operation.set key source ∈ ops) (fun n e he => by cases he)
    (fun key source h => ⟨key, h⟩) (fun _ h => h) (fun r key source e _ hr hsource hmade => ?_)
    (fun r hr => hr) fun r mode e _ hr n g hg => hr n g (NameMap.get?_of_get?_erase hg)
  exact forall_put hr (hmade.source_eq ▸ hsource)

/-- In a current registry, what an entry applies under a registered name is what is registered. -/
theorem applied_of_current {r : Registry} {n : String} {e g : Entry} {a : String × Nat}
    (hcurrent : r.Current) (he : r.entries.get? n = some e) (ha : a.1 ∈ e.dependencies)
    (hg : r.entries.get? a.1 = some g) (hcount : g.held.2.params.length = a.2)
    (hpointwise : Pointwise retired g.held) :
    ∀ p, e.callable.target? a.1 = some p → p.2.params.length = a.2 ∧ Pointwise retired p := by
  intro p hp
  obtain rfl := Option.some.inj ((hcurrent n e he a.1 ha g hg).symm.trans hp)
  exact ⟨hcount, hpointwise⟩

/-- A function of one argument that makes something of each element by itself. -/
theorem elementwise_each (g : Float → Float) :
    Elementwise 1 fun args => .ok ((args.headD (.scalar 0)).map g) := by
  refine Term.elementwise_of_spreadsCall fun args S hlen hargs => ?_
  obtain ⟨a, rfl⟩ := List.length_eq_one_iff.mp hlen
  have ha := hargs a (by simp)
  exact ⟨a.map g, rfl, ha, fun ix hix => by rw [NdArray.point_map g ha hix]; rfl⟩

/-- NaN in the place of negative elements. -/
def clipped : Annotated :=
  .make (.host (Stock.function ["x"] .empty fun args => .ok (Stock.nanBelowZero args))) {} []

/-- `h` applies `g`, which is given a missing argument by `f` and applies `f` in turn. -/
def nested : List Operation :=
  [.set "f(x)" (.function clipped), .set "g(a, b)" (.expression "f(a) + b"),
    .set "h(u, v)" (.expression "2*g(f(u), v)")]

/-- The registry of `nested`, in which unknown names are faults. -/
def nestedRun : Registry := run { refresh := .eager, freeParameters := false } nested

theorem elementwise_clipped (fill : Float) (retired : List Stamp) :
    Elementwise 1 (clipped.callable.run ⟨fill, retired⟩) := by
  refine Term.elementwise_of_spreadsCall fun args S hlen hargs => ?_
  have hrun : ∀ args : List NdArray, args.length = 1 → clipped.callable.run ⟨fill, retired⟩ args =
      .ok ((args.headD (.scalar 0)).map fun x => if x < 0.0 then 0.0 / 0.0 else x) := by
    intro args hlen
    exact (Callable.run_host ..).trans (by rw [Callable.checkCount_of_length hlen]; rfl)
  obtain ⟨v, hv, hS, hpoint⟩ := (elementwise_each _).spreadsCall hlen hargs
  refine ⟨v, (hrun args hlen).trans hv, hS, fun ix hix => ?_⟩
  exact (hrun _ (by rw [List.length_map, hlen])).trans (hpoint ix hix)

/-- What the expression of an entry applies to how many arguments, what the entry depends on, and how
many parameters it has. -/
def outline (e : Entry) : Option (List (String × Nat)) × List String × Nat :=
  (e.expression.map applicationsIn, e.dependencies, e.params.length)

/-- The general statement applies to `h`. -/
theorem elementwise_nested : ∃ e t, nestedRun.entries.get? "h" = some e ∧ e.expression = some t ∧
    t.applicationsIn = [("g", 2), ("f", 1)] ∧ Elementwise 2 (e.call []) := by
  have honest : ∀ op ∈ nested, op.Honest := by
    intro op hop
    simp only [nested, List.mem_cons, List.not_mem_nil, or_false] at hop
    rcases hop with rfl | rfl | rfl
    · exact .inl ⟨_, rfl⟩
    · trivial
    · trivial
  have hregistered := run_registered { refresh := .eager, freeParameters := false } honest
  have hcurrent : nestedRun.Current := ((current_run _ nested).2.2.1 rfl).2 rfl
  have hwf : nestedRun.WellFormed := run_wellFormed _ nested
  have hf : (nestedRun.entries.get? "f").map outline = some (none, [], 1) := by decide +kernel
  have hg : (nestedRun.entries.get? "g").map outline = some (some [("f", 1)], ["f"], 2) := by
    decide +kernel
  have hh : (nestedRun.entries.get? "h").map outline =
      some (some [("g", 2), ("f", 1)], ["f", "g"], 2) := by decide +kernel
  obtain ⟨f, hf, hfo⟩ := Option.map_eq_some_iff.mp hf
  obtain ⟨g, hg, hgo⟩ := Option.map_eq_some_iff.mp hg
  obtain ⟨h, hh, hho⟩ := Option.map_eq_some_iff.mp hh
  simp only [outline, Prod.mk.injEq, Option.map_eq_some_iff, Option.map_eq_none_iff] at hfo hgo hho
  obtain ⟨hfe, -, hfp⟩ := hfo
  obtain ⟨⟨t, hge, hga⟩, hgd, hgp⟩ := hgo
  obtain ⟨⟨u, hhe, hha⟩, hhd, hhp⟩ := hho
  have hfparams : f.held.2.params.length = 1 := (hwf.regular _ f hf).params_eq ▸ hfp
  have hgparams : g.held.2.params.length = 2 := (hwf.regular _ g hg).params_eq ▸ hgp
  -- the one function that was given
  have hfsource : f.source = .function clipped := by
    have hexpression : ∀ text, f.source ≠ .expression text := fun text hsource => by
      have hderived := (hwf.built _ f hf).isDerived hsource
      rw [Entry.isDerived, hfe] at hderived
      cases hderived
    obtain ⟨key, hkey⟩ := run_source _ nested _ f hf
    simp only [nested, List.mem_cons, Operation.set.injEq, List.not_mem_nil, or_false] at hkey
    rcases hkey with ⟨-, h⟩ | ⟨-, h⟩ | ⟨-, h⟩
    · exact h
    · exact absurd h (hexpression _)
    · exact absurd h (hexpression _)
  have hfpointwise : Pointwise [] f.held := by
    refine .primitive (Entry.elementwise_of_function (hwf.built _ f hf) hfsource List.not_mem_nil ?_)
    exact hfparams ▸ elementwise_clipped _ _
  have hgpointwise : Pointwise [] g.held := by
    have happlied : ∀ a ∈ t.applicationsIn, ∀ p, g.callable.target? a.1 = some p →
        p.2.params.length = a.2 ∧ Pointwise [] p := by
      rw [hga, List.forall_mem_singleton]
      exact applied_of_current hcurrent hg (by simp [hgd]) hf hfparams hfpointwise
    obtain ⟨d, entries, hcallable, rfl⟩ := (hregistered _ g hg).compiled hge
    rw [hcallable] at happlied
    rw [Entry.held, hcallable]
    exact .derived List.not_mem_nil (fun a ha p hp => (happlied a ha p hp).1)
      fun a ha p hp => (happlied a ha p hp).2
  have happlied : ∀ a ∈ u.applicationsIn, ∀ p, h.callable.target? a.1 = some p →
      p.2.params.length = a.2 ∧ Pointwise [] p := by
    rw [hha, List.forall_mem_cons, List.forall_mem_singleton]
    exact ⟨applied_of_current hcurrent hh (by simp [hhd]) hg hgparams hgpointwise,
      applied_of_current hcurrent hh (by simp [hhd]) hf hfparams hfpointwise⟩
  exact ⟨h, u, hh, hhe, hha, hhp ▸ Entry.elementwise_of_applied (hregistered _ h hh) hhe
    List.not_mem_nil (fun a ha p hp => (happlied a ha p hp).1)
    fun a ha p hp => (happlied a ha p hp).2⟩

end Registry

end Formulary
