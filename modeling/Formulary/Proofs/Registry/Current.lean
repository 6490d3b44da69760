import Formulary.Proofs.Registry.Acyclic

/-!
What the compiled entries hold of each other.

A registry is current if each compiled entry holds, for every registered name it depends on, what
now stands under that name. Entries that are built again one after the other hold the new entries of
those that came before and the old ones of those that come later, so the outcome is current exactly
if the order in which they are built puts every name after those its text mentions. The order is
taken from what the entries referred to before, which is less than what their texts mention.
-/

namespace Formulary

namespace Callable

/-- The entry that is found by following names from what one entry holds to what the next holds. -/
def follow? (c : Callable) : List String → Option (Handle × Callable)
  | [] => none
  | [d] => c.target? d
  | d :: path => (c.target? d).bind fun p => follow? p.2 path

end Callable

namespace Registry

open Relation

variable {r r' : Registry} {e : Entry} {op : Operation} {names : List String} {a b : String}

/-- An entry holds, for the registered names it depends on, what stands under them. -/
def Holds (r : Registry) (e : Entry) : Prop :=
  ∀ d ∈ e.dependencies, ∀ g, r.entries.get? d = some g → e.callable.target? d = some g.held

/-- Every entry holds what stands under the names it depends on. -/
def Current (r : Registry) : Prop := ∀ n e, r.entries.get? n = some e → r.Holds e

/-! ## Entries built again one after the other -/

/-- An entry that comes later in the list is a new one, and no handle on the old one is it. -/
theorem Replaced.held_ne (h : Replaced names r r') (hr : r.WellFormed) {n : String} {g g' : Entry}
    (hn : n ∈ names) (hg : r.entries.get? n = some g) (hg' : r'.entries.get? n = some g') :
    g.held ≠ g'.held := by
  obtain ⟨before, rest, hsplit⟩ := List.append_of_mem hn
  obtain ⟨g'', hg'', hremade⟩ := h.remade before n rest hsplit g hg
  rw [hg', Option.some.injEq] at hg''
  subst hg''
  intro heq
  have hstamp : g.stamp = g'.stamp := congrArg (fun p => p.1.stamp) heq
  exact absurd (hstamp ▸ (hr.regular n g hg).stamped) (Nat.not_lt.mpr hremade.stamped)

/-- An entry built again depends on what the old one mentioned. -/
theorem Remade.mentions_iff {before : List String} {e' : Entry} (h : Remade before r r' e e')
    (he : r.entries.get? a = some e) : r.Mentions a b ↔ b ∈ e'.dependencies := by
  rw [h.depends, h.mentions_eq]
  constructor
  · rintro ⟨g, hg, hb⟩
    obtain rfl := Option.some.inj (he.symm.trans hg)
    exact hb
  · exact fun hb => ⟨e, he, hb⟩

/-- An entry built again holds what stands under the names it depends on exactly if it mentions
none that comes later. -/
theorem Replaced.holds_iff (h : Replaced names r r') (hr : r.WellFormed) (hnodup : names.Nodup)
    {before rest : List String} (hsplit : names = before ++ a :: rest) (he : r'.entries.get? a = some e) :
    r'.Holds e ↔ ∀ b ∈ rest, ¬ r.Mentions a b := by
  obtain ⟨e₀, he₀⟩ : ∃ e₀, r.entries.get? a = some e₀ :=
    NameMap.get?_of_mem_names (h.names_eq ▸ NameMap.mem_names_of_get? he)
  obtain ⟨e', he', hremade⟩ := h.remade before a rest hsplit e₀ he₀
  rw [he, Option.some.injEq] at he'
  subst he'
  have hdeps : ∀ b, r.Mentions a b ↔ b ∈ e.dependencies := fun b => hremade.mentions_iff he₀
  have hmem : ∀ b, b ∈ names ↔ b ∈ before ∨ b = a ∨ b ∈ rest := by
    intro b
    rw [hsplit, List.mem_append, List.mem_cons]
  have hdisjoint : ∀ b ∈ rest, b ∉ before ∧ b ≠ a := by
    intro b hb
    rw [hsplit, List.nodup_append] at hnodup
    refine ⟨fun hb' => hnodup.2.2 b hb' b (List.mem_cons_of_mem _ hb) rfl, ?_⟩
    rintro rfl
    exact (List.nodup_cons.mp hnodup.2.1).1 hb
  constructor
  · intro hholds b hb hab
    have hb' := (hdeps b).mp hab
    obtain ⟨g, hg⟩ := NameMap.get?_of_mem_names ((hremade.depends b).mp hb').2
    obtain ⟨g', hg'⟩ : ∃ g', r'.entries.get? b = some g' :=
      NameMap.get?_of_mem_names (h.names_eq ▸ NameMap.mem_names_of_get? hg)
    have htarget := hremade.holds b hb'
    rw [hholds b hb' g' hg', if_neg (hdisjoint b hb).1, hg, Option.map_some,
      Option.some.injEq] at htarget
    exact h.held_ne hr ((hmem b).mpr (Or.inr (Or.inr hb))) hg hg' htarget.symm
  · intro hlater d hd g hg
    rw [hremade.holds d hd]
    by_cases hbefore : d ∈ before
    · rw [if_pos hbefore, hg, Option.map_some]
    · have hnot : d ∉ names := by
        rw [hmem]
        rintro (hd' | rfl | hd')
        · exact hbefore hd'
        · exact not_mentions_self hr ((hdeps d).mpr hd)
        · exact hlater d hd' ((hdeps d).mpr hd)
      rw [if_neg hbefore, ← h.kept d hnot, hg, Option.map_some]

/-- All entries built again are current exactly if their order respects what they mention. -/
theorem Replaced.forall_holds_iff (h : Replaced names r r') (hr : r.WellFormed)
    (hnodup : names.Nodup) (hmem : ∀ n ∈ names, n ∈ r.entries.names) :
    (∀ n ∈ names, ∀ e, r'.entries.get? n = some e → r'.Holds e) ↔ Ordered r.Mentions names := by
  rw [ordered_iff_split]
  constructor
  · intro hall before a rest hsplit
    have ha : a ∈ names := by simp [hsplit]
    obtain ⟨e, he⟩ := NameMap.get?_of_mem_names (h.names_eq ▸ hmem a ha)
    exact (h.holds_iff hr hnodup hsplit he).mp (hall a ha e he)
  · intro hord a ha e he
    obtain ⟨before, rest, hsplit⟩ := List.append_of_mem ha
    exact (h.holds_iff hr hnodup hsplit he).mpr (hord before a rest hsplit)

/-- Building all entries again leaves the registry current exactly if the order respects what the
texts mention. -/
theorem current_of_all_iff {order : List String} (hr : r.WellFormed)
    (horder : r.graph.order? = .ok order) (h : Replaced order r r') :
    r'.Current ↔ Ordered r.Mentions order := by
  obtain ⟨hnodup, hmem⟩ := order?_names horder
  rw [← h.forall_holds_iff hr hnodup fun n hn => (hmem n).mp hn]
  refine ⟨fun hall n _ e he => hall n e he, fun hall n e he => hall n ?_ e he⟩
  exact (hmem n).mpr (h.names_eq ▸ NameMap.mem_names_of_get? he)

/-! ## An entry put in its place -/

/-- What depends on a name of the graph, depends on it within the graph. -/
theorem transGen_refers {name : String} (h : TransGen r.references.Needs a name)
    (hname : name ∈ r.entries.names) : TransGen r.Refers a name :=
  DependencyGraph.transGen_restrict h (by simpa [references] using hname)

theorem mem_names_put : e.name ∈ (r.put e).entries.names :=
  NameMap.mem_names_of_get? (by rw [get?_put, if_pos rfl])

/-- An entry put in its place is not built again with what depends on it, nor is anything that it
depends on. -/
theorem not_mem_renewed {key : Key} {source : Source} {order : List String}
    (hmade : r.Made key source e) (horder : (r.put e).graph.order? = .ok order) {n : String}
    (hn : n = e.name ∨ n ∈ e.dependencies) : n ∉ (r.put e).renewed e.name order := by
  rw [mem_renewed horder]
  intro hreach
  have hpath := transGen_refers (DependencyGraph.transGen_of_mem_reach hreach) mem_names_put
  rcases hn with rfl | hn
  · exact acyclic_of_order? horder _ hpath
  · have hstep : (r.put e).Refers e.name n :=
      Registry.refers_iff.mpr ⟨e, by rw [get?_put, if_pos rfl], hn,
        mem_names_put_of_mem ((hmade.depends n).mp hn).2⟩
    exact acyclic_of_order? horder _ (.head hstep hpath)

/-- An entry that is not built again with one that is put in its place depends on nothing that is,
nor, unless it is that one, on that one: it holds what it held. -/
theorem holds_of_not_renewed {key : Key} {source : Source} {order : List String} {n : String}
    {g : Entry} (hr : r.WellFormed) (hcur : r.Current) (hmade : r.Made key source e)
    (horder : (r.put e).graph.order? = .ok order)
    (h : Replaced ((r.put e).renewed e.name order) (r.put e) r')
    (hn : n ∉ (r.put e).renewed e.name order) (hg : (r.put e).entries.get? n = some g) :
    r'.Holds g := by
  have hput := put_wellFormed hr hmade
  have hregular := hput.regular n g hg
  have hself : ∀ d ∈ g.dependencies, d ≠ n := fun d hd hdn =>
    hregular.foreign (hput.named n g hg ▸ hdn ▸ hregular.mentioned d hd)
  have hother : ∀ d, d ∉ (r.put e).renewed e.name order → d ≠ e.name →
      r'.entries.get? d = r.entries.get? d := fun d hd hde => by
    rw [h.kept d hd, get?_put, if_neg hde]
  rw [mem_renewed horder] at hn
  intro d hd x hx
  by_cases hne : n = e.name
  · rw [get?_put, if_pos hne, Option.some.injEq] at hg
    subst hg
    have hd' := not_mem_renewed hmade horder (.inr hd)
    rw [hother d hd' fun hde => hself d hd (hde.trans hne.symm)] at hx
    exact hmade.holds d hd x hx
  · rw [get?_put, if_neg hne] at hg
    have hneeds : (r.put e).references.Needs n d := by
      refine ⟨g.dependencies, ?_, hd⟩
      rw [references, NameMap.get?_map, get?_put, if_neg hne, hg, Option.map_some]
    have hd' : ¬ (d = e.name ∨ d ∈ (r.put e).references.reach e.name) := fun hreach =>
      hn (DependencyGraph.mem_reach_of_needs hneeds (hself d hd).symm hreach)
    rw [not_or, ← mem_renewed horder] at hd'
    rw [hother d hd'.2 hd'.1] at hx
    exact hcur n g hg d hd x hx

/-- With an entry put in its place and all that depends on it built again, a registry that was
current still is exactly if the order of building respects what the texts mention. -/
theorem current_of_renew_iff {key : Key} {source : Source} {order : List String}
    (hr : r.WellFormed) (hcur : r.Current) (hmade : r.Made key source e)
    (horder : (r.put e).graph.order? = .ok order)
    (h : Replaced ((r.put e).renewed e.name order) (r.put e) r') :
    r'.Current ↔ Ordered (r.put e).Mentions ((r.put e).renewed e.name order) := by
  have hput := put_wellFormed hr hmade
  obtain ⟨hnodup, hmem⟩ := order?_names horder
  have hreg : ∀ n ∈ (r.put e).renewed e.name order, n ∈ (r.put e).entries.names :=
    fun n hn => (hmem n).mp (List.mem_filter.mp hn).1
  rw [← h.forall_holds_iff hput (hnodup.filter _) hreg]
  refine ⟨fun hall n _ g hg => hall n g hg, fun hall n g hg => ?_⟩
  by_cases hn : n ∈ (r.put e).renewed e.name order
  · exact hall n hn g hg
  · exact holds_of_not_renewed hr hcur hmade horder h hn (h.kept n hn ▸ hg)

/-! ## Runs -/

/-- The entries that the operation builds again, if it does so, come in an order that respects what
their texts mention. -/
def RenewsInOrder (r : Registry) : Operation → Prop
  | .delete .. => True
  | .refreshAll => ∀ order, r.graph.order? = .ok order → Ordered r.Mentions order
  | op => ∀ e order, r.prepare op = .ok e → (r.put e).graph.order? = .ok order →
    Ordered (r.put e).Mentions ((r.put e).renewed e.name order)

theorem renewsInOrder_iff_of_prepare {order : List String} (hprep : r.prepare op = .ok e)
    (horder : (r.put e).graph.order? = .ok order) : r.RenewsInOrder op ↔
      Ordered (r.put e).Mentions ((r.put e).renewed e.name order) := by
  have hall : (∀ e order, r.prepare op = .ok e → (r.put e).graph.order? = .ok order →
      Ordered (r.put e).Mentions ((r.put e).renewed e.name order)) ↔
      Ordered (r.put e).Mentions ((r.put e).renewed e.name order) := by
    refine ⟨fun hall => hall e order hprep horder, fun hone e' order' hprep' horder' => ?_⟩
    rw [hprep, Except.ok.injEq] at hprep'
    subst hprep'
    rw [horder, Except.ok.injEq] at horder'
    exact horder' ▸ hone
  cases op with
  | set => exact hall
  | refresh => exact hall
  | setFill => exact hall
  | delete => cases hprep
  | refreshAll => cases hprep

theorem renewsInOrder_refreshAll {order : List String} (horder : r.graph.order? = .ok order) :
    r.RenewsInOrder .refreshAll ↔ Ordered r.Mentions order := by
  refine ⟨fun hall => hall order horder, fun hone order' horder' => ?_⟩
  rw [horder, Except.ok.injEq] at horder'
  exact horder' ▸ hone

/-- Building all entries again leaves the registry current exactly if it does so in order. -/
theorem current_of_refreshAll_iff (hr : r.WellFormed) (h : r.refreshAll = .ok r') :
    r'.Current ↔ r.RenewsInOrder .refreshAll := by
  have hstep : Step r .refreshAll r' := perform_step hr h
  cases hstep with
  | put prepared => cases prepared
  | renew prepared => cases prepared
  | all ordered replaced =>
    rw [renewsInOrder_refreshAll ordered]
    exact current_of_all_iff hr ordered replaced

/-- Under the eager policy, a successful operation on a current registry leaves it current exactly
if it builds in order. -/
theorem Step.current_iff (hr : r.WellFormed) (heager : r.settings.refresh = .eager)
    (hcur : r.Current) (h : Step r op r') : r'.Current ↔ r.RenewsInOrder op := by
  cases h with
  | put prepared made stale ordered =>
    rw [heager] at stale
    cases stale
  | renew prepared made eager ordered replaced =>
    rw [renewsInOrder_iff_of_prepare prepared ordered]
    exact current_of_renew_iff hr hcur made ordered replaced
  | delete =>
    refine iff_of_true (fun n g hg d hd x hx => ?_) trivial
    exact hcur n g (NameMap.get?_of_get?_erase hg) d hd x (NameMap.get?_of_get?_erase hx)
  | all ordered replaced =>
    rw [renewsInOrder_refreshAll ordered]
    exact current_of_all_iff hr ordered replaced

/-- Without free parameters the entries refer to all they mention, which an order respects. -/
theorem ordered_mentions {order : List String} (hr : r.WellFormed)
    (hfree : r.settings.freeParameters = false) (horder : r.graph.order? = .ok order) :
    Ordered r.Mentions order :=
  (DependencyGraph.order?_eq_ok horder).2.1.imp fun hab h =>
    hab ((refers_iff_mentions hr hfree).mpr h)

/-- Without free parameters what is built again is built in order. -/
theorem renewsInOrder_of_closed (hr : r.WellFormed) (hfree : r.settings.freeParameters = false)
    (h : Step r op r') : r.RenewsInOrder op := by
  cases h with
  | put prepared made stale ordered =>
    rw [renewsInOrder_iff_of_prepare prepared ordered]
    exact (ordered_mentions (put_wellFormed hr made) hfree ordered).filter _
  | renew prepared made eager ordered replaced =>
    rw [renewsInOrder_iff_of_prepare prepared ordered]
    exact (ordered_mentions (put_wellFormed hr made) hfree ordered).filter _
  | delete => trivial
  | all ordered replaced =>
    rw [renewsInOrder_refreshAll ordered]
    exact ordered_mentions hr hfree ordered

/-! ## Following what entries hold -/

theorem target?_of_refers (hcur : r.Current) (he : r.entries.get? a = some e) (h : r.Refers a b) :
    ∃ g, r.entries.get? b = some g ∧ e.callable.target? b = some g.held := by
  obtain ⟨e', he', hb, hreg⟩ := Registry.refers_iff.mp h
  rw [he, Option.some.injEq] at he'
  subst he'
  obtain ⟨g, hg⟩ := NameMap.get?_of_mem_names hreg
  exact ⟨g, hg, hcur a e he b hb g hg⟩

/-- In a current registry, following the names of a path of dependencies through what the entries
hold leads to what stands under the last of them. -/
theorem follow?_eq_of_current (hcur : r.Current) {last : String} :
    ∀ (path : List String) (n : String) (e : Entry), r.entries.get? n = some e →
      List.IsChain r.Refers (n :: path) → path.getLast? = some last →
      e.callable.follow? path = (r.entries.get? last).map Entry.held
  | [], _, _, _, _, hlast => by simp at hlast
  | [d], n, e, he, hchain, hlast => by
    obtain ⟨g, hg, htarget⟩ := target?_of_refers hcur he (List.isChain_cons_cons.mp hchain).1
    obtain rfl : d = last := by simpa using hlast
    rw [Callable.follow?, htarget, hg, Option.map_some]
  | d :: d' :: path, n, e, he, hchain, hlast => by
    obtain ⟨hfirst, hrest⟩ := List.isChain_cons_cons.mp hchain
    obtain ⟨g, hg, htarget⟩ := target?_of_refers hcur he hfirst
    rw [Callable.follow?, htarget, Option.bind_some]
    · exact follow?_eq_of_current hcur (d' :: path) d g hg hrest (by simpa using hlast)
    · simp

/-- The stamp of what an entry holds under a name. -/
def heldStamp? (r : Registry) (name d : String) : Option Stamp :=
  (r.entries.get? name).bind fun e => (e.callable.target? d).map fun p => p.1.stamp

theorem heldStamp?_of_current (hcur : r.Current) (h : r.Refers a b) :
    r.heldStamp? a b = (r.entries.get? b).map Entry.stamp := by
  obtain ⟨e, he, -⟩ := Registry.refers_iff.mp h
  obtain ⟨g, hg, htarget⟩ := target?_of_refers hcur he h
  rw [heldStamp?, he, Option.bind_some, htarget, hg]
  rfl

/-! ## Evaluating -/

/-- A call of a name that an entry depends on: of what stands under it now or, if nothing does, of
what the entry holds. -/
def presentCall? (r : Registry) (e : Entry) (name : String) :
    Option (List NdArray → Except Fault NdArray) :=
  if name ∈ e.dependencies then
    match r.entries.get? name with
    | some g => some (g.call r.stamps.retired)
    | none => e.callable.heldCall? r.stamps.retired name
  else none

theorem heldCall?_eq_presentCall? (hr : r.WellFormed) (he : r.entries.get? a = some e)
    (hderived : e.isDerived = true) (h : r.Holds e) (name : String) :
    e.callable.heldCall? r.stamps.retired name = r.presentCall? e name := by
  unfold presentCall?
  by_cases hd : name ∈ e.dependencies
  · rw [if_pos hd]
    cases hg : r.entries.get? name with
    | none => rfl
    | some g =>
      unfold Callable.heldCall?
      rw [h name hd g hg, Option.map_some, Option.some.injEq]
      funext args
      change g.handle.call _ (Arguments.byPosition g.name g.callable.params g.defaults args) _ = _
      rw [(hr.regular name g hg).params_eq]
      rfl
  · rw [if_neg hd, Callable.heldCall?, (hr.regular a e he).bare hderived name hd, Option.map_none]

/-- An entry that holds what stands under the names it depends on computes its expression with each
of these names standing for what is registered under it now. -/
theorem run_eq_of_holds (hr : r.WellFormed) (he : r.entries.get? a = some e)
    (hderived : e.isDerived = true) (h : r.Holds e) {definition : Definition}
    {entries : List (Handle × Callable)} (hc : e.callable = .compiled definition entries)
    (fill : Float) (args : List NdArray) :
    e.callable.run ⟨fill, r.stamps.retired⟩ args = (do
      Callable.checkCount definition.name definition.params args
      definition.expression.eval {
        owner := definition.name
        parameter := fun x => (definition.params.zip args).lookup x
        entry := r.presentCall? e }) := by
  have hentry : (fun name => Callable.runNamed r.stamps.retired entries name) =
      r.presentCall? e := by
    funext name
    rw [← heldCall?_eq_presentCall? hr he hderived h name, hc, Callable.runNamed_eq]
    rfl
  rw [hc, Callable.run, hentry]

/-! ## The refresh policies -/

/-- Building all entries again leaves a registry current exactly if it does so in an order that
respects what their texts mention; under the eager policy all registries of a run are current
exactly if each successful operation does. Without free parameters both always hold. In a current
registry every path of dependencies leads, through what the entries hold, to what is registered now,
and a compiled entry computes its expression over what is registered now. -/
theorem current_run (settings : Settings) (ops : List Operation) :
    (∀ r', (run settings ops).refreshAll = .ok r' →
      (r'.Current ↔ (run settings ops).RenewsInOrder .refreshAll)) ∧
    (settings.refresh = .eager →
      ((∀ done, done <+: ops → (run settings done).Current) ↔
        ∀ done op, done ++ [op] <+: ops → (run settings done).Accepts op →
          (run settings done).RenewsInOrder op)) ∧
    (settings.freeParameters = false →
      (∀ r', (run settings ops).refreshAll = .ok r' → r'.Current) ∧
        (settings.refresh = .eager → (run settings ops).Current)) ∧
    ((run settings ops).Current → ∀ n e, (run settings ops).entries.get? n = some e →
      (∀ path last, List.IsChain (run settings ops).Refers (n :: path) →
        path.getLast? = some last →
        e.callable.follow? path = ((run settings ops).entries.get? last).map Entry.held) ∧
      ∀ definition entries, e.isDerived = true → e.callable = .compiled definition entries →
        ∀ fill args, e.callable.run ⟨fill, (run settings ops).stamps.retired⟩ args = (do
          Callable.checkCount definition.name definition.params args
          definition.expression.eval {
            owner := definition.name
            parameter := fun x => (definition.params.zip args).lookup x
            entry := (run settings ops).presentCall? e })) := by
  have hwf := run_wellFormed settings ops
  have hs := run_settings settings ops
  have hstart : Current { settings } := fun n e he => by cases he
  refine ⟨fun r' h => current_of_refreshAll_iff hwf h, fun heager => ?_, fun hfree => ⟨?_, ?_⟩, ?_⟩
  · exact forall_run_iff hstart
      (fun r op r' hwf hs hcur h => h.current_iff hwf (hs ▸ heager) hcur) ops
  · intro r' h
    have hstep : Step (run settings ops) .refreshAll r' := perform_step hwf h
    exact (current_of_refreshAll_iff hwf h).mpr (renewsInOrder_of_closed hwf (hs.symm ▸ hfree) hstep)
  · intro heager
    refine (run_induction (P := Current) hstart (fun r op r' hwf hs hcur h => ?_) ops).1
    exact (h.current_iff hwf (hs ▸ heager) hcur).mpr
      (renewsInOrder_of_closed hwf (hs ▸ hfree) h)
  · intro hcur n e he
    refine ⟨fun path last => follow?_eq_of_current hcur path n e he, ?_⟩
    intro definition entries hderived hc fill args
    exact run_eq_of_holds hwf he hderived (hcur n e he) hc fill args

/-- A run without free parameters to which the general statement applies. -/
theorem current_run_closed :
    (run { refresh := .eager, freeParameters := false }
      [.set "a(x)" (.expression "x"), .set "b(x)" (.expression "a(x)"),
        .set "a(x)" (.expression "x + x")]).Current :=
  ((current_run { refresh := .eager, freeParameters := false }
    [.set "a(x)" (.expression "x"), .set "b(x)" (.expression "a(x)"),
      .set "a(x)" (.expression "x + x")]).2.2.1 rfl).2 rfl

theorem not_current_of_stamps {held present : Stamp} (h : r.Refers a b)
    (hheld : r.heldStamp? a b = some held)
    (hpresent : (r.entries.get? b).map Entry.stamp = some present) (hne : held ≠ present) :
    ¬ r.Current := fun hcur => by
  rw [heldStamp?_of_current hcur h, hpresent, Option.some.injEq] at hheld
  exact hne hheld.symm

/-- `h` is a parameter of `f` when `f` is set; then all entries are built again, `f` before `h`. -/
def refreshedTooEarly : List Operation :=
  [.set "f" (.expression "h"), .set "h(x)" (.expression "x"), .refreshAll]

/-- `q` is a parameter of `p` when `p` is set; then `a` is replaced, and `p` is built again before
`q`. -/
def replacedBehindParameter : List Operation :=
  [.set "a(x)" (.expression "x"), .set "p" (.expression "a(q)"), .set "q(x)" (.expression "a(x)"),
    .set "a(x)" (.expression "x")]

set_option maxRecDepth 20000 in
/-- Building all entries again, and under the eager policy replacing one, can leave entries that hold
what no longer stands under the names they depend on. -/
theorem stale_after_rebuilding :
    ¬ (run {} refreshedTooEarly).Current ∧
      ¬ (run { refresh := .eager } replacedBehindParameter).Current := by
  constructor
  · have hdeps : (run {} refreshedTooEarly).graph.get? "f" = some ["h"] := by rfl
    have hheld : (run {} refreshedTooEarly).heldStamp? "f" "h" = some 1 := by rfl
    have hpresent : ((run {} refreshedTooEarly).entries.get? "h").map Entry.stamp = some 3 := by
      rfl
    exact not_current_of_stamps ⟨_, hdeps, by simp⟩ hheld hpresent (by decide)
  · have hdeps : (run { refresh := .eager } replacedBehindParameter).graph.get? "p" =
        some ["q", "a"] := by rfl
    have hheld : (run { refresh := .eager } replacedBehindParameter).heldStamp? "p" "q" =
        some 2 := by rfl
    have hpresent : ((run { refresh := .eager } replacedBehindParameter).entries.get? "q").map
        Entry.stamp = some 5 := by rfl
    exact not_current_of_stamps ⟨_, hdeps, by simp⟩ hheld hpresent (by decide)

end Registry

end Formulary
