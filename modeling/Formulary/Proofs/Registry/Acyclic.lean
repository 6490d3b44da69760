import Formulary.Proofs.Registry.Step

/-!
Cycles among the entries of a registry.

A new entry is put in its place only if that leaves no cycle. But the entries that are built again
in the same step come to refer to every registered name that their texts mention, also to one that
was still a parameter when they were last built, and no order is looked for after that. So a run
stays free of cycles exactly if none is closed by what the entries built again mention. Without free
parameters an entry refers to all that it mentions from the start, and no run closes a cycle.
-/

namespace Formulary.Registry

open Relation

variable {r r' : Registry} {e : Entry} {op : Operation} {a b : String}

/-! ## What the entries refer to after a step -/

theorem Replaced.refers_iff {names : List String} (h : Replaced names r r') :
    r'.Refers a b ↔ (a ∈ names ∧ r.Mentions a b) ∨ (a ∉ names ∧ r.Refers a b) := by
  rw [Registry.refers_iff, Registry.refers_iff, h.names_eq]
  by_cases ha : a ∈ names
  · simp only [ha, true_and, not_true_eq_false, false_and, or_false]
    obtain ⟨before, rest, hsplit⟩ := List.append_of_mem ha
    constructor
    · rintro ⟨e', he', hb, hreg⟩
      obtain ⟨e, he⟩ : ∃ e, r.entries.get? a = some e :=
        NameMap.get?_of_mem_names (h.names_eq ▸ NameMap.mem_names_of_get? he')
      obtain ⟨e'', he'', hremade⟩ := h.remade before a rest hsplit e he
      rw [he', Option.some.injEq] at he''
      subst he''
      refine ⟨e, he, ?_, hreg⟩
      rw [← hremade.mentions_eq]
      exact ((hremade.depends b).mp hb).1
    · rintro ⟨e, he, hb, hreg⟩
      obtain ⟨e', he', hremade⟩ := h.remade before a rest hsplit e he
      rw [← hremade.mentions_eq] at hb
      exact ⟨e', he', (hremade.depends b).mpr ⟨hb, hreg⟩, hreg⟩
  · simp only [ha, false_and, not_false_eq_true, true_and, false_or]
    rw [h.kept a ha]

theorem mem_reach_registered {name : String} (h : a ∈ r.references.reach name) :
    a ∈ r.entries.names := by
  have hmem := DependencyGraph.mem_names_of_transGen (DependencyGraph.transGen_of_mem_reach h)
  simpa [references] using hmem

theorem mem_renewed {name : String} {order : List String} (h : r.graph.order? = .ok order) :
    a ∈ r.renewed name order ↔ a ∈ r.references.reach name := by
  unfold renewed
  rw [List.mem_filter, List.contains_iff_mem]
  refine ⟨And.right, fun ha => ⟨?_, ha⟩⟩
  exact ((order?_names h).2 a).mpr (mem_reach_registered ha)

theorem acyclic_of_order? {order : List String} (h : r.graph.order? = .ok order) :
    Acyclic r.Refers :=
  DependencyGraph.acyclic_of_order? DependencyGraph.closed_restrict h

/-! ## The condition -/

/-- What the entries refer to when all that depends on the given name has been built again. -/
def RefersAfterRenewal (r : Registry) (name a b : String) : Prop :=
  (a ∈ r.references.reach name ∧ r.Mentions a b) ∨
    (a ∉ r.references.reach name ∧ r.Refers a b)

/-- The entries that the operation builds again after the check for cycles mention nothing that
closes one. -/
def LeavesNoCycle (r : Registry) : Operation → Prop
  | .delete .. => True
  | .refreshAll => Acyclic r.Mentions
  | op => r.settings.refresh = .eager → ∀ e, r.prepare op = .ok e →
    Acyclic ((r.put e).RefersAfterRenewal e.name)

theorem leavesNoCycle_iff_of_prepare (h : r.prepare op = .ok e) : r.LeavesNoCycle op ↔
    (r.settings.refresh = .eager → Acyclic ((r.put e).RefersAfterRenewal e.name)) := by
  have hall : (r.settings.refresh = .eager → ∀ e, r.prepare op = .ok e →
      Acyclic ((r.put e).RefersAfterRenewal e.name)) ↔
      (r.settings.refresh = .eager → Acyclic ((r.put e).RefersAfterRenewal e.name)) := by
    constructor
    · exact fun hall heager => hall heager e h
    · intro hone heager e' h'
      rw [h, Except.ok.injEq] at h'
      exact h' ▸ hone heager
  cases op with
  | set => exact hall
  | refresh => exact hall
  | setFill => exact hall
  | delete => cases h
  | refreshAll => cases h

/-- A successful operation on a registry without cycles leaves none exactly under the condition. -/
theorem Step.acyclic_iff (hr : r.WellFormed) (hac : Acyclic r.Refers) (h : Step r op r') :
    Acyclic r'.Refers ↔ r.LeavesNoCycle op := by
  cases h with
  | put prepared made stale ordered =>
    rw [leavesNoCycle_iff_of_prepare prepared, stale]
    refine ⟨fun _ h => ?_, fun _ => acyclic_of_order? ordered⟩
    cases h
  | @renew _ e _ _ order _ prepared made eager ordered replaced =>
    rw [leavesNoCycle_iff_of_prepare prepared]
    have hrel : r'.Refers = (r.put e).RefersAfterRenewal e.name := by
      funext a b
      rw [replaced.refers_iff, mem_renewed ordered, RefersAfterRenewal]
    rw [hrel]
    exact ⟨fun h _ => h, fun h => h eager⟩
  | delete =>
    refine iff_of_true (hac.mono fun a b hab => ?_) trivial
    obtain ⟨g, hg, hb, hreg⟩ := Registry.refers_iff.mp hab
    obtain ⟨g', hg'⟩ := NameMap.get?_of_mem_names hreg
    exact Registry.refers_iff.mpr
      ⟨g, NameMap.get?_of_get?_erase hg, hb,
        NameMap.mem_names_of_get? (NameMap.get?_of_get?_erase hg')⟩
  | @all order _ ordered replaced =>
    have hrel : r'.Refers = r.Mentions := by
      funext a b
      rw [replaced.refers_iff]
      refine propext ⟨?_, ?_⟩
      · rintro (⟨-, h⟩ | ⟨-, h⟩)
        · exact h
        · exact mentions_of_refers hr h
      · rintro ⟨e, he, h⟩
        exact Or.inl ⟨((order?_names ordered).2 a).mpr (NameMap.mem_names_of_get? he), e, he, h⟩
    rw [hrel]
    rfl

/-! ## Cycles are refused -/

theorem commit_of_cycle (h : ¬ Acyclic (r.put e).Refers) :
    ∃ names, r.commit e = .error (cycle names) := by
  unfold commit stage
  cases horder : (r.put e).graph.order? with
  | ok order => exact absurd (acyclic_of_order? horder) h
  | error names =>
    simp only [horder]
    exact ⟨_, rfl⟩

theorem perform_of_cycle (hprep : r.prepare op = .ok e) (h : ¬ Acyclic (r.put e).Refers) :
    ∃ f, r.perform op = .error f ∧ f.code = "CYCLIC_DEPENDENCY" := by
  obtain ⟨names, hcommit⟩ := commit_of_cycle h
  cases op with
  | set key source =>
    obtain ⟨k, hk, hbuild⟩ := Except.bind_eq_ok.mp hprep
    have hbuild := Except.mapError_eq_ok.mp hbuild
    refine ⟨(cycle names).forKey key, ?_, rfl⟩
    simp only [perform, set, hk, hbuild, hcommit, Except.ok_bind, Except.error_bind]
    rfl
  | refresh key =>
    obtain ⟨e₀, hget, hrenew⟩ := Except.bind_eq_ok.mp hprep
    refine ⟨cycle names, ?_, rfl⟩
    simp only [perform, refresh, hget, hrenew, hcommit, Except.ok_bind, Except.error_bind]
    rfl
  | setFill key fill =>
    obtain ⟨e₀, hget, hbuild⟩ := Except.bind_eq_ok.mp hprep
    refine ⟨cycle names, ?_, rfl⟩
    simp only [perform, setFill, hget, hbuild, hcommit, Except.ok_bind, Except.error_bind]
    rfl
  | delete => cases hprep
  | refreshAll => cases hprep

/-! ## Runs -/

theorem acyclic_start (settings : Settings) : Acyclic (Registry.Refers { settings }) := by
  intro a h
  obtain ⟨b, hab, -⟩ := TransGen.head'_iff.mp h
  obtain ⟨e, he, -⟩ := Registry.refers_iff.mp hab
  cases he

/-- Without free parameters no operation can close a cycle unnoticed. -/
theorem Step.leavesNoCycle (hr : r.WellFormed) (hfree : r.settings.freeParameters = false)
    (hac : Acyclic r.Refers) (h : Step r op r') : r.LeavesNoCycle op := by
  cases h with
  | put prepared made stale ordered =>
    rw [leavesNoCycle_iff_of_prepare prepared, stale]
    intro h
    cases h
  | renew prepared made eager ordered replaced =>
    rw [leavesNoCycle_iff_of_prepare prepared]
    refine fun _ => (acyclic_of_order? ordered).mono fun a b hab => ?_
    rcases hab with ⟨-, hab⟩ | ⟨-, hab⟩
    · exact (refers_iff_mentions (put_wellFormed hr made) hfree).mpr hab
    · exact hab
  | delete => trivial
  | all => exact hac.mono fun a b hab => (refers_iff_mentions hr hfree).mpr hab

/-- The registries of a run are free of cycles exactly if each of its successful operations builds
again nothing that closes one. Without free parameters they always are. An operation that would put
an entry in a place where it closes a cycle fails and changes nothing. -/
theorem acyclic_run (settings : Settings) (ops : List Operation) :
    ((∀ done, done <+: ops → Acyclic (run settings done).Refers) ↔
      ∀ done op, done ++ [op] <+: ops → (run settings done).Accepts op →
        (run settings done).LeavesNoCycle op) ∧
    (settings.freeParameters = false → Acyclic (run settings ops).Refers) ∧
    ∀ op e, (run settings ops).prepare op = .ok e → ¬ Acyclic ((run settings ops).put e).Refers →
      (∃ f, (run settings ops).perform op = .error f ∧ f.code = "CYCLIC_DEPENDENCY") ∧
        (run settings ops).after op = run settings ops := by
  refine ⟨?_, fun hfree => ?_, fun op e hprep hcycle => ?_⟩
  · exact forall_run_iff (acyclic_start settings) (fun r op r' hwf _ hac h => h.acyclic_iff hwf hac)
      ops
  · refine (run_induction (P := fun r => Acyclic r.Refers) (acyclic_start settings)
      (fun r op r' hwf hs hac h => ?_) ops).1
    exact (h.acyclic_iff hwf hac).mpr (h.leavesNoCycle hwf (hs ▸ hfree) hac)
  · obtain ⟨f, hf, hcode⟩ := perform_of_cycle hprep hcycle
    exact ⟨⟨f, hf, hcode⟩, after_of_error hf⟩

/-- A run without free parameters to which the general statement applies. -/
theorem acyclic_run_closed :
    Acyclic (run { freeParameters := false }
      [.set "f(x)" (.expression "x"), .set "h(x)" (.expression "f(x)")]).Refers :=
  (acyclic_run { freeParameters := false }
    [.set "f(x)" (.expression "x"), .set "h(x)" (.expression "f(x)")]).2.1 rfl

/-- `h` is a parameter of `f` when `f` is set, and an entry when `f` is built again. -/
def parameterThenEntry : List Operation :=
  [.set "f" (.expression "h"), .set "h" (.expression "f(x)")]

set_option maxRecDepth 20000 in
/-- Building all entries again succeeds and leaves two entries that refer to each other. -/
theorem cycle_after_refreshAll :
    (run {} parameterThenEntry).Accepts .refreshAll ∧
      ¬ Acyclic (run {} (parameterThenEntry ++ [.refreshAll])).Refers := by
  have hf : (run {} (parameterThenEntry ++ [.refreshAll])).Refers "f" "h" :=
    ⟨["h"], rfl, by simp⟩
  have hh : (run {} (parameterThenEntry ++ [.refreshAll])).Refers "h" "f" :=
    ⟨["f"], rfl, by simp⟩
  exact ⟨accepts_of_isOk (by rfl), fun h => h "f" ((TransGen.single hf).tail hh)⟩

end Formulary.Registry
