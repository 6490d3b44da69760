import Formulary.Proofs.Dependency
import Formulary.Proofs.Except

/-!
The names that need a name, directly or through others.

They are searched breadth first against the direction of the dependencies. The search comes to an end
on every graph: with each name that it looks at there is one less that can still be looked at. Where
there is no cycle it finds exactly the names that need the given one, and the build order, with the
other names left out, puts each after those that it needs. The given name need not be one of the graph,
but all others are, so both look at the same dependencies.
-/

namespace Formulary.DependencyGraph

open Relation

variable {g : DependencyGraph} {a b name : String} {queue : List String}

theorem mem_dependents : b ∈ g.dependents a ↔ b ≠ a ∧ g.Needs b a := by
  unfold dependents Needs
  constructor
  · intro h
    obtain ⟨⟨c, needs⟩, hp, rfl⟩ := List.mem_map.mp h
    obtain ⟨hp, hc⟩ := List.mem_filter.mp hp
    simp only [Bool.and_eq_true, bne_iff_ne, ne_eq, List.contains_iff_mem] at hc
    exact ⟨hc.1, needs, NameMap.mem_toList_iff.mp hp, hc.2⟩
  · rintro ⟨hne, needs, hn, ha⟩
    refine List.mem_map.mpr ⟨(b, needs), List.mem_filter.mpr ⟨NameMap.mem_toList_iff.mpr hn, ?_⟩, rfl⟩
    simp [hne, ha]

theorem nodup_dependents : (g.dependents a).Nodup :=
  List.Nodup.sublist (List.filter_sublist.map _) g.nodup_names

/-! ## The search -/

/-- The search looks at the first name of the queue. What it goes on with is the queue and all names
found. -/
inductive Looks (g : DependencyGraph) : List String × List String → List String × List String → Prop
  where
  | look (a : String) (queue reached : List String) :
    Looks g (a :: queue, reached)
      (queue ++ (g.dependents a).filter (!reached.contains ·),
        reached ++ (g.dependents a).filter (!reached.contains ·))

/-- The names that can still be looked at: those in the queue, and those that have not been found. -/
def pending (g : DependencyGraph) (state : List String × List String) : Nat :=
  state.1.length + (g.names.filter (!state.2.contains ·)).length

theorem pending_lt {s t : List String × List String} (h : g.Looks s t) :
    g.pending t < g.pending s := by
  obtain ⟨a, queue, reached⟩ := h
  generalize hfound : (g.dependents a).filter (!reached.contains ·) = found
  have hmem : ∀ b, b ∈ found ↔ b ∈ g.dependents a ∧ b ∉ reached := fun b => by
    rw [← hfound, List.mem_filter]
    simp
  -- what is found is neither found before nor left to be found
  have hnodup : (found ++ g.names.filter (!(reached ++ found).contains ·)).Nodup := by
    refine List.nodup_append.mpr ⟨hfound ▸ nodup_dependents.filter _, g.nodup_names.filter _, ?_⟩
    rintro b hb _ hb' rfl
    simp [hb] at hb'
  have hsub : found ++ g.names.filter (!(reached ++ found).contains ·) ⊆
      g.names.filter (!reached.contains ·) := by
    intro b hb
    rw [List.mem_append, hmem] at hb
    rw [List.mem_filter]
    rcases hb with ⟨hb, hno⟩ | hb
    · exact ⟨mem_names_of_needs (mem_dependents.mp hb).2, by simpa using hno⟩
    · obtain ⟨hb, hno⟩ := List.mem_filter.mp hb
      simp only [List.contains_eq_mem, List.mem_append, Bool.not_eq_true', decide_eq_false_iff_not,
        not_or] at hno
      exact ⟨hb, by simpa using hno.1⟩
  have hle := (List.subperm_of_subset hnodup hsub).length_le
  rw [List.length_append] at hle
  simp only [pending, List.length_append, List.length_cons]
  omega

/-- Every search ends, also on a graph with cycles, and from wherever it is started. -/
theorem wellFounded_looks (g : DependencyGraph) : WellFounded fun t s => g.Looks s t :=
  Subrelation.wf pending_lt (measure g.pending).wf

/-- The names reached from `name` when some have been looked at and the queue has not: all that
depend on one looked at are among them, and each depends on `name`. -/
structure Search (g : DependencyGraph) (name : String) (done queue reached : List String) :
    Prop where
  split : done ++ queue = name :: reached
  distinct : reached.Nodup
  closed : ∀ a ∈ done, ∀ b ∈ g.dependents a, b ∈ reached
  sound : ∀ b ∈ reached, TransGen g.Needs b name

theorem Search.length_le {done reached : List String} (h : g.Search name done queue reached) :
    reached.length ≤ g.size := by
  rw [← g.length_names]
  refine (List.subperm_of_subset h.distinct fun b hb => ?_).length_le
  obtain ⟨c, hbc, -⟩ := TransGen.head'_iff.mp (h.sound b hb)
  exact mem_names_of_needs hbc

theorem search_start : g.Search name [] [name] [] where
  split := rfl
  distinct := List.nodup_nil
  closed := by simp
  sound := by simp

/-- Looking at the first name of the queue. -/
theorem Search.look {done reached : List String} (h : g.Search name done (a :: queue) reached) :
    g.Search name (done ++ [a]) (queue ++ (g.dependents a).filter (!reached.contains ·))
      (reached ++ (g.dependents a).filter (!reached.contains ·)) where
  split := by
    rw [← List.append_assoc, List.append_assoc done, List.singleton_append, h.split,
      List.cons_append]
  distinct := by
    refine List.nodup_append.mpr ⟨h.distinct, nodup_dependents.filter _, ?_⟩
    rintro x hx _ hy rfl
    have := (List.mem_filter.mp hy).2
    simp [hx] at this
  closed := by
    intro c hc b hb
    rcases List.mem_append.mp hc with hc | hc
    · exact List.mem_append_left _ (h.closed c hc b hb)
    · rw [List.mem_singleton.mp hc] at hb
      by_cases hr : b ∈ reached
      · exact List.mem_append_left _ hr
      · exact List.mem_append_right _ (List.mem_filter.mpr ⟨hb, by simp [hr]⟩)
  sound := by
    intro b hb
    rcases List.mem_append.mp hb with hb | hb
    · exact h.sound b hb
    · have hba := (mem_dependents.mp (List.mem_filter.mp hb).1).2
      have ha : a ∈ name :: reached := h.split ▸ by simp
      rcases List.mem_cons.mp ha with rfl | ha
      · exact TransGen.single hba
      · exact TransGen.head hba (h.sound a ha)

/-- A search with room for all names is run to its end. -/
theorem reachFrom_spec :
    ∀ (n : Nat) (done queue reached : List String), g.Search name done queue reached →
      done.length + n = g.size + 1 →
      (∃ done', g.Search name done' [] (g.reachFrom n queue reached)) ∧
        ReflTransGen g.Looks (queue, reached) ([], g.reachFrom n queue reached)
  | 0, done, queue, reached, h, hn => by
    have hsplit := congrArg List.length h.split
    simp only [List.length_append, List.length_cons] at hsplit
    have := h.length_le
    have hq : queue = [] := List.length_eq_zero_iff.mp (by omega)
    subst hq
    exact ⟨⟨done, h⟩, .refl⟩
  | n + 1, done, [], reached, h, _ => ⟨⟨done, h⟩, .refl⟩
  | n + 1, done, a :: queue, reached, h, hn => by
    obtain ⟨hend, hrun⟩ := reachFrom_spec n (done ++ [a]) _ _ h.look (by simp; omega)
    exact ⟨hend, .head (.look a queue reached) hrun⟩

theorem exists_search (g : DependencyGraph) (name : String) :
    ∃ done, g.Search name done [] (g.reach name) :=
  (reachFrom_spec (g.size + 1) [] [name] [] search_start (by simp)).1

theorem looks_reach (g : DependencyGraph) (name : String) :
    ReflTransGen g.Looks ([name], []) ([], g.reach name) :=
  (reachFrom_spec (g.size + 1) [] [name] [] search_start (by simp)).2

/-- What depends on the name, or on a name that is reached, is reached. -/
theorem mem_reach_of_needs (hba : g.Needs b a) (hne : b ≠ a) (ha : a = name ∨ a ∈ g.reach name) :
    b ∈ g.reach name := by
  obtain ⟨done, h⟩ := g.exists_search name
  have hdone : a ∈ done := by
    have hsplit := h.split
    rw [List.append_nil] at hsplit
    rw [hsplit]
    exact List.mem_cons.mpr ha
  exact h.closed a hdone b (mem_dependents.mpr ⟨hne, hba⟩)

/-- What is reached depends on the name, directly or through others. -/
theorem transGen_of_mem_reach (h : b ∈ g.reach name) : TransGen g.Needs b name := by
  obtain ⟨done, hs⟩ := g.exists_search name
  exact hs.sound b h

/-! ## Within the graph -/

/-- What needs a name of the graph, needs it within the graph. -/
theorem transGen_restrict (h : TransGen g.Needs a b) (hb : b ∈ g.names) :
    TransGen g.restrict.Needs a b := by
  induction h using TransGen.head_induction_on with
  | single h => exact .single (needs_restrict.mpr ⟨h, hb⟩)
  | head hac hcb ih =>
    obtain ⟨d, hcd, -⟩ := TransGen.head'_iff.mp hcb
    exact .head (needs_restrict.mpr ⟨hac, mem_names_of_needs hcd⟩) ih

theorem mem_names_of_transGen (h : TransGen g.Needs a b) : a ∈ g.names := by
  obtain ⟨c, hac, -⟩ := TransGen.head'_iff.mp h
  exact mem_names_of_needs hac

/-- A cycle stays within the graph. -/
theorem acyclic_restrict : Acyclic g.restrict.Needs ↔ Acyclic g.Needs :=
  ⟨fun h a ha => h a (transGen_restrict ha (mem_names_of_transGen ha)),
    fun h => h.mono fun _ _ hab => (needs_restrict.mp hab).1⟩

/-- Where there is no cycle, just the names that need the given one are reached. -/
theorem mem_reach_iff (hac : Acyclic g.Needs) : a ∈ g.reach name ↔ TransGen g.Needs a name := by
  have hne : ∀ b c, g.Needs b c → b ≠ c := by
    rintro b _ hb rfl
    exact hac b (.single hb)
  refine ⟨transGen_of_mem_reach, fun h => ?_⟩
  induction h using TransGen.head_induction_on with
  | single h => exact mem_reach_of_needs h (hne _ _ h) (.inl rfl)
  | head h _ ih => exact mem_reach_of_needs h (hne _ _ h) (.inr ih)

/-! ## In order -/

theorem dependentsInOrder?_eq_ok {names : List String} : g.dependentsInOrder? name = .ok names ↔
    ∃ order, g.restrict.order? = .ok order ∧ order.filter (g.reach name).contains = names :=
  Except.map_eq_ok

theorem dependentsInOrder?_eq_error {names : List String} :
    g.dependentsInOrder? name = .error names ↔ g.restrict.order? = .error names :=
  Except.map_eq_error

/-- Leaving out names keeps an order. -/
theorem dependenciesFirst_filter {order : List String} (h : g.restrict.order? = .ok order)
    (p : String → Bool) : DependenciesFirst (TransGen g.Needs) (order.filter p) := by
  have hord := (ordered_of_order? closed_restrict h).filter p
  have hfirst := Ordered.dependenciesFirst hord (acyclic_of_order? closed_restrict h)
  have hmem : ∀ b ∈ order.filter p, b ∈ g.names := fun b hb => by
    have hb := (order?_eq_ok h).1.mem_iff.mp (List.mem_filter.mp hb).1
    simpa [restrict] using hb
  intro before a rest hsplit b hb hab
  exact hfirst before a rest hsplit b hb (transGen_restrict hab (hmem b hb))

/-- Without a cycle, the names that need the given one are listed, each once and each after those that
it needs; with a cycle, the names that it blocks are the fault. The search behind it ends on every
graph, from wherever it is started, and started with the name it ends with what is reached. -/
theorem dependentsInOrder_exact (g : DependencyGraph) (name : String) :
    (Acyclic g.restrict.Needs → ∃ names, g.dependentsInOrder? name = .ok names ∧ names.Nodup ∧
      (∀ a, a ∈ names ↔ a ∈ g.names ∧ TransGen g.Needs a name) ∧ name ∉ names ∧
      DependenciesFirst (TransGen g.Needs) names) ∧
    (¬ Acyclic g.restrict.Needs → ∃ names, g.dependentsInOrder? name = .error names ∧
      names.Sublist g.names ∧ ∀ a, a ∈ names ↔ Blocked g.restrict.Needs a) ∧
    (WellFounded fun t s => g.Looks s t) ∧
    ReflTransGen g.Looks ([name], []) ([], g.reach name) := by
  refine ⟨fun hac => ?_, fun hcycle => ?_, wellFounded_looks g, looks_reach g name⟩
  · obtain ⟨order, horder⟩ := (exists_order?_iff closed_restrict).mpr hac
    have hac := acyclic_restrict.mp hac
    have hperm := (order?_eq_ok horder).1
    have hmem : ∀ a, a ∈ order.filter (g.reach name).contains ↔
        a ∈ g.names ∧ TransGen g.Needs a name := fun a => by
      rw [List.mem_filter, hperm.mem_iff, List.contains_iff_mem, mem_reach_iff hac]
      simp [restrict]
    refine ⟨_, dependentsInOrder?_eq_ok.mpr ⟨order, horder, rfl⟩, ?_, hmem, ?_, ?_⟩
    · exact (hperm.nodup_iff.mpr (NameMap.nodup_names _)).filter _
    · exact fun hname => hac name ((hmem name).mp hname).2
    · exact dependenciesFirst_filter horder _
  · cases horder : g.restrict.order? with
    | ok order => exact absurd (acyclic_of_order? closed_restrict horder) hcycle
    | error names =>
      obtain ⟨hsub, hblocked⟩ := order?_eq_error closed_restrict horder
      refine ⟨names, dependentsInOrder?_eq_error.mpr horder, ?_, hblocked⟩
      simpa [restrict] using hsub

/-- A graph whose names need one that is not a name of it. -/
def needy : DependencyGraph := ⟨[("b", ["a", "x"]), ("c", []), ("a", ["x"])], by decide⟩

/-- The search starts outside the graph, and the list comes in an order that is not that of the
graph. -/
theorem dependentsInOrder_exact_needy :
    "x" ∉ needy.names ∧ needy.dependentsInOrder? "x" = .ok ["a", "b"] ∧
      (∀ a, a ∈ ["a", "b"] ↔ a ∈ needy.names ∧ TransGen needy.Needs a "x") ∧
      DependenciesFirst (TransGen needy.Needs) ["a", "b"] := by
  have hac : Acyclic needy.restrict.Needs :=
    (exists_order?_iff closed_restrict).mp ⟨["c", "a", "b"], by rfl⟩
  have hnames : needy.dependentsInOrder? "x" = .ok ["a", "b"] := by rfl
  obtain ⟨names, hok, -, hmem, -, hfirst⟩ := (dependentsInOrder_exact needy "x").1 hac
  obtain rfl : ["a", "b"] = names := by rwa [hnames, Except.ok.injEq] at hok
  exact ⟨by decide +kernel, hnames, hmem, hfirst⟩

end Formulary.DependencyGraph
