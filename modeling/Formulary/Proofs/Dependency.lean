import Formulary.Dependency
import Formulary.Proofs.NameMap
import Mathlib.Data.List.Perm.Subperm
import Mathlib.Order.WellFoundedSet

/-!
The build order.

An order is found exactly if the graph has no cycle. It lists every name once, and none before a
name that it needs; if there is none, the names that are left are just those that lie on a cycle or
need one that does.
-/

namespace Formulary

open Relation

/-- No name needs itself, directly or through others. -/
def Acyclic (needs : String → String → Prop) : Prop := ∀ a, ¬ TransGen needs a a

/-- The name lies on a cycle, or needs, directly or through others, a name that does. -/
def Blocked (needs : String → String → Prop) (a : String) : Prop :=
  ∃ c, ReflTransGen needs a c ∧ TransGen needs c c

/-- No name of the list needs one that stands after it. -/
def Ordered (needs : String → String → Prop) (names : List String) : Prop :=
  names.Pairwise fun earlier later => ¬ needs earlier later

theorem ordered_iff_split {needs : String → String → Prop} {names : List String} :
    Ordered needs names ↔
      ∀ before a rest, names = before ++ a :: rest → ∀ b ∈ rest, ¬ needs a b := by
  unfold Ordered
  induction names with
  | nil => simp
  | cons c names ih =>
    rw [List.pairwise_cons, ih]
    constructor
    · rintro ⟨hc, htail⟩ before a rest hsplit
      rcases before with _ | ⟨c', before⟩
      · obtain ⟨rfl, rfl⟩ := List.cons.inj hsplit
        exact hc
      · exact htail before a rest (List.cons.inj hsplit).2
    · intro hall
      exact ⟨hall [] c names rfl, fun before a rest hsplit =>
        hall (c :: before) a rest (by rw [hsplit, List.cons_append])⟩

/-- Each name of the list stands after the names of the list that it needs. -/
def DependenciesFirst (needs : String → String → Prop) (names : List String) : Prop :=
  ∀ before a rest, names = before ++ a :: rest → ∀ b ∈ names, needs a b → b ∈ before

theorem Ordered.dependenciesFirst {needs : String → String → Prop} {names : List String}
    (h : Ordered needs names) (hirr : ∀ a, ¬ needs a a) : DependenciesFirst needs names := by
  intro before a rest hsplit b hb hab
  rw [hsplit, List.mem_append, List.mem_cons] at hb
  rcases hb with hb | rfl | hb
  · exact hb
  · exact absurd hab (hirr b)
  · exact absurd hab (ordered_iff_split.mp h before a rest hsplit b hb)

theorem Acyclic.mono {r s : String → String → Prop} (h : Acyclic s) (hrs : ∀ a b, r a b → s a b) :
    Acyclic r :=
  fun a ha => h a (TransGen.mono hrs _ _ ha)

theorem acyclic_iff_not_blocked {needs : String → String → Prop} :
    Acyclic needs ↔ ∀ a, ¬ Blocked needs a :=
  ⟨fun h _ ⟨c, _, hc⟩ => h c hc, fun h a ha => h a ⟨a, .refl, ha⟩⟩

/-- Where each of finitely many names needs another of them, all are blocked. -/
theorem blocked_of_finite {needs : String → String → Prop} {names : Set String}
    (hfin : names.Finite) (hneeds : ∀ a ∈ names, ∃ b ∈ names, needs a b) {a : String}
    (ha : a ∈ names) : Blocked needs a := by
  by_contra hfree
  -- below `c` is what `c` needs, if `a` leads to `c`: without a cycle this is a strict order
  have : IsStrictOrder String fun b c => ReflTransGen needs a c ∧ TransGen needs c b :=
    { irrefl := fun c hc => hfree ⟨c, hc⟩
      trans := fun _ _ _ hbc hcd => ⟨hcd.1, hcd.2.trans hbc.2⟩ }
  have hwf := (hfin.subset (Set.sep_subset names fun c => ReflTransGen needs a c)).wellFoundedOn
    (r := fun b c => ReflTransGen needs a c ∧ TransGen needs c b)
  obtain ⟨⟨m, hm, ham⟩, -, hmin⟩ := hwf.has_min Set.univ ⟨⟨a, ha, .refl⟩, trivial⟩
  obtain ⟨b, hb, hmb⟩ := hneeds m hm
  exact hmin ⟨b, hb, ham.tail hmb⟩ trivial ⟨ham, .single hmb⟩

section Order

variable {needs : String → String → Prop} {names : List String} (hord : Ordered needs names)
  (hirr : ∀ a, ¬ needs a a) (hmem : ∀ a b, needs a b → a ∈ names ∧ b ∈ names)

include hord hirr hmem

/-- In an order of all names that need something, a name stands after what it needs, directly or
through others. -/
theorem Ordered.idxOf_lt {a b : String} (h : TransGen needs a b) :
    names.idxOf b < names.idxOf a := by
  have hstep : ∀ a b, needs a b → names.idxOf b < names.idxOf a := by
    intro a b hab
    obtain ⟨ha, hb⟩ := hmem a b hab
    have hia := List.idxOf_lt_length_of_mem ha
    have hib := List.idxOf_lt_length_of_mem hb
    rcases Nat.lt_trichotomy (names.idxOf b) (names.idxOf a) with h | h | h
    · exact h
    · have : b = a := by
        have := List.getElem_idxOf hib
        rw [← this]
        simp only [h]
        exact List.getElem_idxOf hia
      exact absurd (this ▸ hab) (hirr a)
    · have := List.pairwise_iff_getElem.mp hord _ _ hia hib h
      rw [List.getElem_idxOf hia, List.getElem_idxOf hib] at this
      exact absurd hab this
  induction h with
  | single h => exact hstep _ _ h
  | tail _ h ih => exact (hstep _ _ h).trans ih

/-- So it leaves no cycle. -/
theorem acyclic_of_ordered : Acyclic needs :=
  fun _ ha => Nat.lt_irrefl _ (hord.idxOf_lt hirr hmem ha)

theorem Ordered.transGen (hnodup : names.Nodup) : Ordered (TransGen needs) names := by
  refine List.pairwise_iff_getElem.mpr fun i j hi hj hij h => ?_
  have hlt := hord.idxOf_lt hirr hmem h
  rw [hnodup.idxOf_getElem, hnodup.idxOf_getElem] at hlt
  omega

end Order

namespace DependencyGraph

variable {g : DependencyGraph} {a b name : String} {taken queue order : List String}

/-- The first name lists the second among its dependencies. -/
def Needs (g : DependencyGraph) (a b : String) : Prop := ∃ needs, g.get? a = some needs ∧ b ∈ needs

/-- Every dependency is a name of the graph. -/
def Closed (g : DependencyGraph) : Prop := ∀ a b, g.Needs a b → b ∈ g.names

theorem closed_iff : g.Closed ↔ ∀ p ∈ g.toList, ∀ b ∈ p.2, b ∈ g.names := by
  constructor
  · exact fun h p hp b hb => h p.1 b ⟨p.2, NameMap.mem_toList_iff.mp hp, hb⟩
  · rintro h a b ⟨needs, hn, hb⟩
    exact h (a, needs) (NameMap.mem_toList_iff.mpr hn) b hb

instance : Decidable g.Closed := decidable_of_iff _ closed_iff.symm

theorem mem_names_of_needs (h : g.Needs a b) : a ∈ g.names :=
  let ⟨_, h, _⟩ := h
  NameMap.mem_names_of_get? h

theorem needs_restrict : g.restrict.Needs a b ↔ g.Needs a b ∧ b ∈ g.names := by
  unfold Needs restrict
  simp only [NameMap.get?_map, Option.map_eq_some_iff]
  constructor
  · rintro ⟨_, ⟨needs, hn, rfl⟩, hb⟩
    obtain ⟨hb, hc⟩ := List.mem_filter.mp hb
    exact ⟨⟨needs, hn, hb⟩, NameMap.contains_iff_mem_names.mp hc⟩
  · rintro ⟨⟨needs, hn, hb⟩, hc⟩
    exact ⟨_, ⟨needs, hn, rfl⟩, List.mem_filter.mpr ⟨hb, NameMap.contains_iff_mem_names.mpr hc⟩⟩

theorem closed_restrict : g.restrict.Closed := by
  intro a b h
  simpa [restrict] using (needs_restrict.mp h).2

/-! ## Taking names -/

/-- All that a name of the graph needs has been taken. -/
def ReadyAfter (g : DependencyGraph) (taken : List String) (a : String) : Prop :=
  ∃ needs, g.get? a = some needs ∧ ∀ b ∈ needs, b ∈ taken

/-- The rows when the given names have been taken. -/
def rowsAfter (g : DependencyGraph) (taken : List String) : List Waiting :=
  g.toList.map fun (name, needs) => ⟨name, needs, needs.countP (!taken.contains ·)⟩

/-- The names taken and the queue are exactly those that are ready, each once, and the names taken
stand in order. -/
structure Progress (g : DependencyGraph) (queue taken : List String) : Prop where
  distinct : (taken ++ queue).Nodup
  ready : ∀ a, a ∈ taken ++ queue ↔ g.ReadyAfter taken a
  ordered : Ordered g.Needs taken
  irreflexive : ∀ a ∈ taken, ¬ g.Needs a a

theorem ReadyAfter.mem_names (h : g.ReadyAfter taken a) : a ∈ g.names :=
  let ⟨_, h, _⟩ := h
  NameMap.mem_names_of_get? h

theorem ReadyAfter.mem_of_needs (h : g.ReadyAfter taken a) (hab : g.Needs a b) : b ∈ taken := by
  obtain ⟨needs, hn, hall⟩ := h
  obtain ⟨_, hn', hb⟩ := hab
  rw [hn, Option.some.injEq] at hn'
  exact hall b (hn' ▸ hb)

theorem ReadyAfter.mono (h : g.ReadyAfter taken a) (hsub : taken ⊆ order) :
    g.ReadyAfter order a :=
  let ⟨needs, hn, hall⟩ := h
  ⟨needs, hn, fun b hb => hsub (hall b hb)⟩

theorem rowsAfter_nil : g.rowsAfter [] = g.waiting := by
  simp [rowsAfter, waiting]

/-- A name that has not been taken yet is missing as often as it occurs. -/
theorem countP_missing (hname : name ∉ taken) (needs : List String) :
    needs.countP (!taken.contains ·) =
      needs.countP (!(taken ++ [name]).contains ·) + needs.count name := by
  induction needs with
  | nil => rfl
  | cons b needs ih =>
    rw [List.countP_cons, List.countP_cons, List.count_cons, ih]
    by_cases hb : b = name
    · subst hb
      simp [hname]
      omega
    · simp [hb]
      omega

/-- Taking one more name lowers the counts by what they owe to it. -/
theorem map_without_rowsAfter (hname : name ∉ taken) :
    (g.rowsAfter taken).map (Waiting.without name) = g.rowsAfter (taken ++ [name]) := by
  unfold rowsAfter
  rw [List.map_map]
  refine List.map_congr_left fun p _ => ?_
  obtain ⟨a, needs⟩ := p
  simp only [Function.comp_apply, Waiting.without, Waiting.mk.injEq, true_and]
  rw [countP_missing hname]
  omega

/-- A row is that of its name. -/
theorem of_mem_rowsAfter {w : Waiting} (hw : w ∈ g.rowsAfter taken) :
    g.get? w.name = some w.needs ∧ w.missing = w.needs.countP (!taken.contains ·) := by
  obtain ⟨p, hp, rfl⟩ := List.mem_map.mp hw
  exact ⟨NameMap.mem_toList_iff.mp hp, rfl⟩

theorem isReady_rowsAfter {w : Waiting} (hw : w ∈ g.rowsAfter taken) :
    w.isReady = true ↔ g.ReadyAfter taken w.name := by
  obtain ⟨hget, hmissing⟩ := of_mem_rowsAfter hw
  simp only [Waiting.isReady, hmissing, beq_iff_eq, List.countP_eq_zero, Bool.not_eq_true',
    Bool.not_eq_false, List.contains_iff_mem]
  constructor
  · exact fun h => ⟨w.needs, hget, h⟩
  · rintro ⟨needs, hneeds, h⟩
    rw [hget, Option.some.injEq] at hneeds
    exact hneeds ▸ h

theorem map_name_rowsAfter (g : DependencyGraph) (taken : List String) :
    (g.rowsAfter taken).map Waiting.name = g.names := by
  simp [rowsAfter, NameMap.names, List.map_map, Function.comp_def]

/-- The names of the rows that pass a test, if the test says something about the name. -/
theorem mem_filter_rowsAfter {test : Waiting → Bool} {P : String → Prop}
    (htest : ∀ w ∈ g.rowsAfter taken, test w = true ↔ P w.name) (hnames : ∀ a, P a → a ∈ g.names) :
    a ∈ ((g.rowsAfter taken).filter test).map Waiting.name ↔ P a := by
  constructor
  · intro h
    obtain ⟨w, hw, rfl⟩ := List.mem_map.mp h
    obtain ⟨hw, hpass⟩ := List.mem_filter.mp hw
    exact (htest w hw).mp hpass
  · intro h
    have hname := hnames a h
    rw [← map_name_rowsAfter g taken] at hname
    obtain ⟨w, hw, rfl⟩ := List.mem_map.mp hname
    exact List.mem_map_of_mem (List.mem_filter.mpr ⟨hw, (htest w hw).mpr h⟩)

/-- The names that a name frees are those that become ready when it is taken. -/
theorem mem_freed (hname : name ∉ taken) :
    a ∈ ((g.rowsAfter (taken ++ [name])).filter (Waiting.isFreed name)).map Waiting.name ↔
      g.ReadyAfter (taken ++ [name]) a ∧ ¬ g.ReadyAfter taken a := by
  refine mem_filter_rowsAfter (P := fun a => g.ReadyAfter (taken ++ [name]) a ∧
    ¬ g.ReadyAfter taken a) (fun w hw => ?_) fun a h => h.1.mem_names
  have hget := (of_mem_rowsAfter hw).1
  simp only [Waiting.isFreed, Bool.and_eq_true, List.contains_iff_mem, isReady_rowsAfter hw]
  constructor
  · rintro ⟨hmem, hready⟩
    exact ⟨hready, fun hold => hname (hold.mem_of_needs ⟨w.needs, hget, hmem⟩)⟩
  · rintro ⟨hready, hold⟩
    refine ⟨?_, hready⟩
    by_contra hno
    refine hold ⟨w.needs, hget, fun b hb => ?_⟩
    rcases List.mem_append.mp (hready.mem_of_needs ⟨w.needs, hget, hb⟩) with h | h
    · exact h
    · exact absurd (List.mem_singleton.mp h ▸ hb) hno

theorem progress_start :
    g.Progress ((g.waiting.filter Waiting.isReady).map Waiting.name) [] where
  distinct := by
    rw [← rowsAfter_nil]
    refine List.Nodup.sublist (List.filter_sublist.map _) ?_
    rw [map_name_rowsAfter]
    exact g.nodup_names
  ready := by
    intro a
    rw [List.nil_append, ← rowsAfter_nil]
    exact mem_filter_rowsAfter (fun w hw => isReady_rowsAfter hw) fun a h => h.mem_names
  ordered := List.Pairwise.nil
  irreflexive := by simp

theorem Progress.not_mem_taken (h : g.Progress (name :: queue) taken) : name ∉ taken :=
  fun hmem => (List.nodup_append.mp h.distinct).2.2 name hmem name List.mem_cons_self rfl

/-- Taking the first name of the queue. -/
theorem Progress.take (h : g.Progress (name :: queue) taken) :
    g.Progress (queue ++ ((g.rowsAfter (taken ++ [name])).filter (Waiting.isFreed name)).map
      Waiting.name) (taken ++ [name]) := by
  have hnodup : ((taken ++ [name]) ++ queue).Nodup := by simpa using h.distinct
  have hname := h.not_mem_taken
  have hclosed : ∀ c ∈ taken, ∀ b, g.Needs c b → b ∈ taken := fun c hc b hb =>
    ((h.ready c).mp (List.mem_append_left _ hc)).mem_of_needs hb
  have hself : ¬ g.Needs name name := fun hn =>
    hname (((h.ready name).mp (by simp)).mem_of_needs hn)
  refine ⟨?_, ?_, ?_, ?_⟩
  · rw [← List.append_assoc]
    refine List.nodup_append.mpr ⟨hnodup, ?_, ?_⟩
    · refine List.Nodup.sublist (List.filter_sublist.map _) ?_
      rw [map_name_rowsAfter]
      exact g.nodup_names
    · rintro x hx _ hy rfl
      exact ((mem_freed hname).mp hy).2 ((h.ready x).mp (by simpa using hx))
  · intro c
    rw [← List.append_assoc, List.mem_append, mem_freed hname]
    have hold : c ∈ (taken ++ [name]) ++ queue ↔ g.ReadyAfter taken c := by
      rw [← h.ready c]
      simp
    rw [hold]
    constructor
    · rintro (hc | hc)
      · exact hc.mono (List.subset_append_left _ _)
      · exact hc.1
    · intro hc
      by_cases hready : g.ReadyAfter taken c
      · exact Or.inl hready
      · exact Or.inr ⟨hc, hready⟩
  · refine List.pairwise_append.mpr ⟨h.ordered, List.pairwise_singleton _ _, ?_⟩
    intro c hc d hd hcd
    rw [List.mem_singleton.mp hd] at hcd
    exact hname (hclosed c hc name hcd)
  · intro c hc
    rcases List.mem_append.mp hc with hc | hc
    · exact h.irreflexive c hc
    · rw [List.mem_singleton.mp hc]
      exact hself

/-- What taking names from the queue leads to. It stops when the queue is empty or the given number
of names has been taken. -/
theorem take_spec :
    ∀ (n : Nat) (queue taken : List String), g.Progress queue taken →
      ∃ rest order, take n (g.rowsAfter taken) queue taken = (g.rowsAfter order, order) ∧
        g.Progress rest order ∧ (rest = [] ∨ order.length = taken.length + n)
  | 0, queue, taken, h => ⟨queue, taken, rfl, h, Or.inr rfl⟩
  | n + 1, [], taken, h => ⟨[], taken, rfl, h, Or.inl rfl⟩
  | n + 1, name :: queue, taken, h => by
    obtain ⟨rest, order, htake, hprog, hlen⟩ := take_spec n _ (taken ++ [name]) h.take
    refine ⟨rest, order, ?_, hprog, ?_⟩
    · rw [← htake]
      simp only [DependencyGraph.take]
      rw [map_without_rowsAfter h.not_mem_taken]
    · rcases hlen with hlen | hlen
      · exact Or.inl hlen
      · refine Or.inr ?_
        rw [hlen, List.length_append, List.length_singleton]
        omega

/-! ## The order -/

theorem Progress.length_le (h : g.Progress queue taken) :
    taken.length + queue.length ≤ g.size := by
  rw [← List.length_append, ← g.length_names]
  exact (List.subperm_of_subset h.distinct fun a ha => ((h.ready a).mp ha).mem_names).length_le

/-- While a name waits in the queue, not all have been taken. -/
theorem Progress.lt_size (h : g.Progress (name :: queue) taken) : taken.length < g.size := by
  have hle := h.length_le
  rw [List.length_cons] at hle
  omega

/-- When the loop stops, the queue is empty, and the rows say what was taken. -/
theorem exists_finished (g : DependencyGraph) : ∃ order, g.Progress [] order ∧
    g.order? = if order.length < g.size then
      .error (((g.rowsAfter order).filter (!·.isReady)).map Waiting.name) else .ok order := by
  obtain ⟨rest, order, htake, hprog, hstop⟩ := take_spec g.size _ [] g.progress_start
  have hrest : rest = [] := by
    have hlength := hprog.length_le
    rcases hstop with hrest | hstop
    · exact hrest
    · rw [List.length_nil] at hstop
      exact List.length_eq_zero_iff.mp (by omega)
  subst hrest
  rw [rowsAfter_nil] at htake
  refine ⟨order, hprog, ?_⟩
  unfold order?
  simp only [htake]

theorem Progress.mem_names (h : g.Progress queue taken) (ha : a ∈ taken) : a ∈ g.names :=
  ((h.ready a).mp (List.mem_append_left _ ha)).mem_names

/-- What a name needs was taken before it. -/
theorem Progress.mem_of_needs (h : g.Progress queue taken) (ha : a ∈ taken) (hab : g.Needs a b) :
    b ∈ taken :=
  ((h.ready a).mp (List.mem_append_left _ ha)).mem_of_needs hab

/-- An order lists every name once, and none before a name that it needs. -/
theorem order?_eq_ok (h : g.order? = .ok order) :
    order.Perm g.names ∧ Ordered g.Needs order ∧ ∀ a, ¬ g.Needs a a := by
  obtain ⟨found, hprog, heq⟩ := g.exists_finished
  rw [heq] at h
  split at h
  · cases h
  · rename_i hlen
    cases h
    have hnodup : order.Nodup := (List.nodup_append.mp hprog.distinct).1
    have hsub : order ⊆ g.names := fun a ha => hprog.mem_names ha
    have hperm : order.Perm g.names :=
      (List.subperm_of_subset hnodup hsub).perm_of_length_le (by rw [g.length_names]; omega)
    refine ⟨hperm, hprog.ordered, fun a ha => ?_⟩
    exact hprog.irreflexive a (hperm.mem_iff.mpr (mem_names_of_needs ha)) ha

section Found

variable (hg : g.Closed) (h : g.order? = .ok order)

include hg h

theorem mem_of_order? (a b : String) (hab : g.Needs a b) : a ∈ order ∧ b ∈ order :=
  have hperm := (order?_eq_ok h).1
  ⟨hperm.mem_iff.mpr (mem_names_of_needs hab), hperm.mem_iff.mpr (hg a b hab)⟩

theorem acyclic_of_order? : Acyclic g.Needs :=
  acyclic_of_ordered (order?_eq_ok h).2.1 (order?_eq_ok h).2.2 (mem_of_order? hg h)

/-- No name of an order needs a later one, directly or through others. -/
theorem ordered_of_order? : Ordered (TransGen g.Needs) order := by
  obtain ⟨hperm, hord, hirr⟩ := order?_eq_ok h
  exact hord.transGen hirr (mem_of_order? hg h) (hperm.nodup_iff.mpr g.nodup_names)

end Found

/-- A name that was taken leads to no cycle: what it needs was taken as well, in an order. -/
theorem Progress.not_blocked (h : g.Progress queue taken) (ha : a ∈ taken) :
    ¬ Blocked g.Needs a := by
  have hacyclic : Acyclic fun b c => g.Needs b c ∧ b ∈ taken := by
    have hord : Ordered (fun b c => g.Needs b c ∧ b ∈ taken) taken :=
      h.ordered.imp fun hbc hneeds => hbc hneeds.1
    refine acyclic_of_ordered hord ?_ ?_
    · exact fun b hb => h.irreflexive b hb.2 hb.1
    · exact fun b c hbc => ⟨hbc.2, h.mem_of_needs hbc.2 hbc.1⟩
  have hpath : ∀ {b c}, b ∈ taken → TransGen g.Needs b c →
      TransGen (fun b c => g.Needs b c ∧ b ∈ taken) b c ∧ c ∈ taken := by
    intro b c hb hbc
    induction hbc with
    | single hbc => exact ⟨.single ⟨hbc, hb⟩, h.mem_of_needs hb hbc⟩
    | tail _ hcd ih => exact ⟨ih.1.tail ⟨hcd, ih.2⟩, h.mem_of_needs ih.2 hcd⟩
  rintro ⟨c, hac, hcc⟩
  have hc : c ∈ taken := by
    rcases reflTransGen_iff_eq_or_transGen.mp hac with rfl | hac
    · exact ha
    · exact (hpath ha hac).2
  exact hacyclic c (hpath hc hcc).1

/-- When the queue is empty, each name that is left needs another one that is left. -/
theorem Progress.blocked (hg : g.Closed) (h : g.Progress [] order) (ha : a ∈ g.names)
    (hno : a ∉ order) : Blocked g.Needs a := by
  have hfin : { a | a ∈ g.names ∧ a ∉ order }.Finite :=
    g.names.finite_toSet.subset fun a ha => ha.1
  refine blocked_of_finite hfin ?_ ⟨ha, hno⟩
  rintro a ⟨ha, hno⟩
  obtain ⟨needs, hn⟩ := NameMap.get?_of_mem_names ha
  by_contra hall
  have hready : g.ReadyAfter order a := by
    refine ⟨needs, hn, fun b hb => ?_⟩
    by_contra hb'
    exact hall ⟨b, ⟨hg a b ⟨needs, hn, hb⟩, hb'⟩, needs, hn, hb⟩
  exact hno (by simpa using (h.ready a).mpr hready)

theorem mem_names_of_blocked (h : Blocked g.Needs a) : a ∈ g.names := by
  obtain ⟨c, hac, hcc⟩ := h
  obtain ⟨b, hab, -⟩ := TransGen.head'_iff.mp (TransGen.trans_right hac hcc)
  exact mem_names_of_needs hab

/-- Without an order, the names that are left are the blocked ones. -/
theorem order?_eq_error (hg : g.Closed) {names : List String} (h : g.order? = .error names) :
    names.Sublist g.names ∧ ∀ a, a ∈ names ↔ Blocked g.Needs a := by
  obtain ⟨order, hprog, heq⟩ := g.exists_finished
  rw [heq] at h
  split at h
  · cases h
    refine ⟨map_name_rowsAfter g order ▸ List.filter_sublist.map _, fun a => ?_⟩
    refine mem_filter_rowsAfter (fun w hw => ?_) fun a => mem_names_of_blocked
    have hname : w.name ∈ g.names := NameMap.mem_names_of_get? (of_mem_rowsAfter hw).1
    rw [Bool.not_eq_true', ← Bool.not_eq_true, isReady_rowsAfter hw, ← hprog.ready,
      List.append_nil]
    exact ⟨hprog.blocked hg hname, fun h hmem => hprog.not_blocked hmem h⟩
  · cases h

/-- There is an order exactly if there is no cycle. -/
theorem exists_order?_iff (hg : g.Closed) : (∃ order, g.order? = .ok order) ↔ Acyclic g.Needs := by
  constructor
  · rintro ⟨order, h⟩
    exact acyclic_of_order? hg h
  · intro hac
    obtain ⟨order, hprog, heq⟩ := g.exists_finished
    refine ⟨order, heq.trans (if_neg fun hlen => ?_)⟩
    have hall : g.names ⊆ order := fun a ha => by
      by_contra hno
      exact acyclic_iff_not_blocked.mp hac a (hprog.blocked hg ha hno)
    have hle := (List.subperm_of_subset g.nodup_names hall).length_le
    rw [g.length_names] at hle
    omega

end DependencyGraph

end Formulary
