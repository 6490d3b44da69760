import Formulary.Proofs.Registry.History

/-!
Referential integrity of runs without forced deletes.

An entry is built against registered names only, no operation but a delete removes a name, and a
guarded delete leaves a name that another entry depends on. So every dependency stays registered.
Nothing is retired either, in the registry or behind the handles that its entries hold, and an
evaluation that does not know a symbol passes on a fault of a function given from outside.
-/

namespace Formulary

open Callable (accounted_of_argCount)

/-- A fault of calling a live entry is accounted for by its callable. -/
theorem Entry.accounted_call {e : Entry} {retired : List Stamp} {f : Fault}
    (hlive : e.stamp ∉ retired)
    (h : (∃ args, e.call retired args = .error f) ∨ ∃ given, e.callNamed retired given = .error f) :
    e.callable.Accounted retired f := by
  rcases h with ⟨args, h⟩ | ⟨given, h⟩
  · rcases Handle.call_eq_error h with ⟨hs, -⟩ | hbind | ⟨bound, -, hrun⟩
    · exact absurd hs hlive
    · exact accounted_of_argCount (Arguments.code_byPosition hbind)
    · exact e.callable.accounted_run hrun
  · rcases Handle.call_eq_error h with ⟨hs, -⟩ | hbind | ⟨bound, -, hrun⟩
    · exact absurd hs hlive
    · exact accounted_of_argCount (Arguments.code_byName hbind)
    · exact e.callable.accounted_run hrun

namespace Registry

variable {r r' : Registry} {e : Entry} {op : Operation} {n key : String}

/-- Every dependency is registered, and no entry is retired. -/
structure Intact (r : Registry) : Prop where
  registered : ∀ n e, r.entries.get? n = some e → ∀ d ∈ e.dependencies, d ∈ r.entries.names
  unretired : r.stamps.retired = []

theorem Intact.put {key : Key} {source : Source} (h : r.Intact) (hmade : r.Made key source e) :
    (r.put e).Intact where
  registered := forall_put
    (fun n g hg d hd => mem_names_put_of_mem (h.registered n g hg d hd))
    fun d hd => mem_names_put_of_mem ((hmade.depends d).mp hd).2
  unretired := h.unretired

/-- A name that no other entry depends on can go. -/
theorem Intact.without (h : r.Intact) (hdep : r.references.dependents e.name = []) :
    (r.without e .guarded).Intact where
  registered n g hg d hd := by
    rw [get?_without] at hg
    split at hg
    · cases hg
    · rename_i hne
      have hde : d ≠ e.name := fun hde => not_depends_of_dependents hdep hg hne (hde ▸ hd)
      obtain ⟨x, hx⟩ := NameMap.get?_of_mem_names (h.registered n g hg d hd)
      exact NameMap.mem_names_of_get? (by rw [get?_without, if_neg hde, hx])
  unretired := h.unretired

theorem Step.intact (hr : r.WellFormed) (h : r.Intact) (hop : ∀ key, op ≠ .delete key .force)
    (hstep : Step r op r') : r'.Intact := by
  refine hstep.preserves hr h (fun _ _ _ _ _ h hmade => h.put hmade)
    (fun _ h => ⟨h.registered, h.unretired⟩) ?_
  intro key mode e hdel _ hallowed
  cases mode with
  | guarded => exact h.without (hallowed rfl)
  | force => exact absurd hdel (hop key)

theorem run_intact (settings : Settings) {ops : List Operation}
    (hguarded : ∀ key, Operation.delete key .force ∉ ops) : (run settings ops).Intact := by
  have hlater : Throughout settings [] ops fun _ op => ∀ key, op ≠ .delete key .force := by
    rintro done op hpre - key rfl
    exact hguarded key (hpre.subset (by simp))
  refine hlater.induction ⟨fun n e he => ?_, rfl⟩ fun r op r' hr _ _ h hop hstep =>
    hstep.intact hr h hop
  cases he

/-- In a registry where nothing is retired, an evaluation that does not know a symbol passes on what
a function given from outside has returned. -/
theorem Intact.returnedByHost (h : r.Intact) (he : r.entries.get? n = some e)
    (hkey : r.nameOf? key = some n) {f : Fault} (hcode : f.code = "UNKNOWN_SYMBOL")
    (hfails : (∃ args, r.evaluate key args = .error f) ∨
      ∃ given, r.evaluateNamed key given = .error f) : e.callable.ReturnedByHost f := by
  simp only [evaluate_eq hkey he, evaluateNamed_eq hkey he, h.unretired] at hfails
  rcases e.accounted_call List.not_mem_nil hfails with hown | ⟨x, -, hs, -⟩ | hhost
  · rw [hcode] at hown
    exact absurd hown (by decide)
  · exact absurd hs List.not_mem_nil
  · exact hhost

/-- After every run without forced deletes, the entries depend on registered names, neither they nor
what their handles lead to is retired, and an evaluation that does not know a symbol passes on a
fault that a function given from outside has returned. -/
theorem integrity_run (settings : Settings) (ops : List Operation)
    (hguarded : ∀ key, Operation.delete key .force ∉ ops) :
    ∀ n e, (run settings ops).entries.get? n = some e →
      (∀ d ∈ e.dependencies, d ∈ (run settings ops).entries.names) ∧
      e.isRetired (run settings ops).stamps.retired = false ∧
      (∀ h ∈ e.callable.handles, h.stamp ∉ (run settings ops).stamps.retired) ∧
      ∀ key f, (run settings ops).nameOf? key = some n → f.code = "UNKNOWN_SYMBOL" →
        ((∃ args, (run settings ops).evaluate key args = .error f) ∨
          ∃ given, (run settings ops).evaluateNamed key given = .error f) →
        e.callable.ReturnedByHost f := by
  intro n e he
  have h := run_intact settings hguarded
  refine ⟨h.registered n e he, ?_, ?_, fun key f hkey hcode hfails =>
    h.returnedByHost he hkey hcode hfails⟩
  · rw [Entry.isRetired, h.unretired]
    rfl
  · rw [h.unretired]
    exact fun _ _ => List.not_mem_nil

/-- `a` is replaced after `b` was built on it; while `b` is there, a guarded delete of `a` fails. -/
def replacedDependency : List Operation :=
  [.set "a(x)" (.expression "x"), .set "b(x)" (.expression "a(x)"),
    .set "a(x)" (.expression "x"), .delete "a" .guarded]

set_option maxRecDepth 20000 in
/-- A run without forced deletes to which the general statement applies. -/
theorem integrity_run_replaced :
    ∃ e, (run {} replacedDependency).entries.get? "b" = some e ∧ e.dependencies = ["a"] ∧
      "a" ∈ (run {} replacedDependency).entries.names ∧
      e.isRetired (run {} replacedDependency).stamps.retired = false := by
  have hdeps : ((run {} replacedDependency).entries.get? "b").map Entry.dependencies =
      some ["a"] := by rfl
  obtain ⟨e, he, hdeps⟩ := Option.map_eq_some_iff.mp hdeps
  obtain ⟨hregistered, hlive, -⟩ :=
    integrity_run {} replacedDependency (by simp [replacedDependency]) "b" e he
  exact ⟨e, he, hdeps, hregistered "a" (hdeps ▸ List.mem_singleton_self _), hlive⟩

end Registry

end Formulary
