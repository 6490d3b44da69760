import Formulary.Proofs.Registry.Defaults

/-!
Operations as transactions on an ordered map of entries.

An operation that fails changes nothing. Of a function that returns a registry or a fault there would be
nothing to prove here, so each operation is written once more as a program that writes the registry in
place (`InPlace`): a fault leaves what has been written by then. What a program has to be careful about is
then plain to see. It works on a copy, which takes the place of the registry by two writes, of the index
and of the entries (`exchange`), and a third write may follow, which retires an entry. After the first of
these nothing may fail, and one thing could: an entry that has been put in its place is looked up there.
`run_place` shows that it is found; `run_delete` and `run_refreshAll` have nothing left to do once they
have written. So each program comes to what the function gives (`inPlace_eq`).

Setting a key puts one entry in its place: the names keep their order, a new one goes to the end, and
of the other entries those that depend on the name, directly or through others, are built again under
the eager policy, and no other changes. Building again gives a new object with the name, the key, the
source and the fill value of the old one. Deleting takes one entry out and leaves the others as they
are.

So the names of a run stand in the order in which they were last appended: a name that is set again
keeps its place, and one that was removed and is set once more goes to the end.
-/

namespace Formulary.Registry

open Relation

variable {r r' : Registry} {e e' : Entry} {op : Operation} {m n key : String} {source : Source}

/-! ## Operations in place -/

/-- What an operation comes to: its outcome, and the registry, which stays as it was if there is a
fault. -/
def outcome (r : Registry) : Except Fault Registry → Except Fault Unit × Registry
  | .ok r' => (.ok (), r')
  | .error f => (.error f, r)

/-- A program that changes the registry as it goes along: a fault leaves what has been written by
then. -/
abbrev InPlace (α : Type) := ExceptT Fault (StateM Registry) α

namespace InPlace

variable {α β : Type} {key : String} {mode : DeleteMode}

/-- A result that is computed from the registry as it is now. -/
def compute (f : Registry → Except Fault α) : InPlace α := do
  match f (← MonadState.get) with
  | .ok a => pure a
  | .error fault => throw fault

/-- A changed copy of the entries takes their place: first the index that it gives is written, and then
the entries. -/
def exchange (staged : Registry) : InPlace Unit := do
  modify fun r => { r with aliases := index staged.entries }
  modify fun r => { r with entries := staged.entries, stamps := staged.stamps }

/-- The stamp of an entry is retired. -/
def retire (e : Entry) : InPlace Unit :=
  modify fun r => { r with stamps := { r.stamps with retired := e.stamp :: r.stamps.retired } }

/-- Builds an entry and stages it, exchanges the registry for the copy, and looks the entry up there. -/
def place (op : Operation) : InPlace Unit := do
  let e ← compute (·.prepare op)
  let staged ← compute fun r => (r.stage e).mapError op.noted
  exchange staged
  let _ ← compute fun r => (r.withEntry e.name).mapError op.noted

/-- The entry of a name, and a copy without it. -/
def takeOut (r : Registry) (name : String) : Except Fault (Entry × Registry) :=
  match r.entries.get? name with
  | some e => .ok (e, { r with entries := r.entries.erase name })
  | none => .error (.ofCause (.internal ("'" ++ name ++ "' vanished during delete")))

/-- Takes an entry out of a copy, exchanges the registry for it, and retires the entry if this is done by
force. -/
def delete (key : String) (mode : DeleteMode) : InPlace Unit := do
  let e ← compute (·.get key)
  compute fun r =>
    let dependents := r.references.dependents e.name
    if mode = .guarded && !dependents.isEmpty then
      .error (.ofCause (.dependentEntryExists e.name dependents))
    else .ok ()
  let (removed, staged) ← compute (takeOut · e.name)
  exchange staged
  if mode = .force then retire removed

/-- Builds all entries again in a copy and exchanges the registry for it. -/
def refreshAll : InPlace Unit := do
  let order ← compute fun r => r.graph.order?.mapError cycle
  let staged ← compute (replaceAll renew "while refreshing " order)
  exchange staged

/-- The program of an operation. -/
def program : Operation → InPlace Unit
  | .delete key mode => delete key mode
  | .refreshAll => refreshAll
  | op => place op

end InPlace

/-- An operation carried out in place. -/
def inPlace (r : Registry) (op : Operation) : Except Fault Unit × Registry :=
  (InPlace.program op).run.run r

namespace InPlace

variable {α β : Type}

theorem run_bind_ok {p : InPlace α} {g : α → InPlace β} {a : α}
    (h : p.run.run r = (.ok a, r')) : (p >>= g).run.run r = (g a).run.run r' := by
  simp only [ExceptT.run_bind, StateT.run_bind, h]
  rfl

theorem run_bind_error {p : InPlace α} {g : α → InPlace β} {f : Fault}
    (h : p.run.run r = (.error f, r')) : (p >>= g).run.run r = (.error f, r') := by
  simp only [ExceptT.run_bind, StateT.run_bind, h]
  rfl

theorem run_compute {f : Registry → Except Fault α} {result : Except Fault α} (h : f r = result) :
    (compute f).run.run r = (result, r) := by
  subst h
  change (match f r with | .ok a => pure a | .error fault => throw fault : InPlace α).run.run r = _
  cases f r <;> rfl

/-- Once the index and the entries have been written, the registry is the copy with its own index. -/
theorem run_exchange (staged : Registry) (h : staged.settings = r.settings) :
    (exchange staged).run.run r = (.ok (), staged.reindex) := by
  rw [reindex, h]
  rfl

/-- No fault comes after the registry has been exchanged: what has been staged is found there. -/
theorem run_place (hr : r.WellFormed) (op : Operation) :
    (place op).run.run r = r.outcome ((r.place op).map Prod.snd) := by
  unfold place Registry.place
  cases hprep : r.prepare op with
  | error f => exact run_bind_error (run_compute hprep)
  | ok e =>
    rw [run_bind_ok (run_compute hprep), Except.ok_bind]
    cases hstage : r.stage e with
    | error f =>
      have hcommit : r.commit e = .error f := by rw [commit, hstage]; rfl
      rw [hcommit]
      exact run_bind_error (run_compute (by rw [hstage]; rfl))
    | ok staged =>
      have hcommit : r.commit e = .ok staged.reindex := commit_eq_ok.mpr ⟨staged, hstage, rfl⟩
      have hstep := commit_step hr hprep hcommit
      have hentry := withEntry_of_commit hr hprep hcommit
      rw [run_bind_ok (run_compute (by rw [hstage]; rfl)), run_bind_ok (run_exchange staged hstep.settings_eq),
        run_bind_ok (run_compute (by rw [hentry]; rfl)), hcommit, Except.ok_bind, hentry]
      rfl

/-- The entry that has been found is there to be taken out, and only it is retired, after the registry has
been exchanged. -/
theorem run_delete (hr : r.WellFormed) (key : String) (mode : DeleteMode) :
    (delete key mode).run.run r = r.outcome ((r.delete key mode).map Prod.snd) := by
  unfold delete Registry.delete
  cases hget : r.get key with
  | error f => exact run_bind_error (run_compute hget)
  | ok e =>
    obtain ⟨n, hn⟩ := get?_of_get hget
    obtain rfl := hr.named n e hn
    have htake : takeOut r e.name = .ok (e, { r with entries := r.entries.erase e.name }) := by
      rw [takeOut, hn]
    rw [run_bind_ok (run_compute hget), Except.ok_bind]
    dsimp only
    by_cases hrefused : (mode = .guarded && !(r.references.dependents e.name).isEmpty) = true
    · rw [if_pos hrefused]
      exact run_bind_error (run_compute (if_pos hrefused))
    · rw [if_neg hrefused, run_bind_ok (run_compute (if_neg hrefused)), run_bind_ok (run_compute htake)]
      refine (run_bind_ok (run_exchange _ rfl)).trans ?_
      cases mode <;> rfl

/-- All entries are built again in a copy, so a fault on the way leaves the registry as it was. -/
theorem run_refreshAll (hr : r.WellFormed) : refreshAll.run.run r = r.outcome r.refreshAll := by
  unfold refreshAll Registry.refreshAll
  cases horder : r.graph.order?.mapError cycle with
  | error f => exact run_bind_error (run_compute horder)
  | ok order =>
    rw [run_bind_ok (run_compute horder), Except.ok_bind]
    cases hstaged : replaceAll renew "while refreshing " order r with
    | error f => exact run_bind_error (run_compute hstaged)
    | ok staged =>
      obtain ⟨hnodup, hmem⟩ := order?_names (Except.mapError_eq_ok.mp horder)
      have hreplaced :=
        replaceAll_eq_ok rebuilds_renew hr hnodup (fun n hn => (hmem n).mp hn) hstaged
      rw [run_bind_ok (run_compute hstaged), run_exchange staged hreplaced.settings_eq]
      rfl

end InPlace

/-- An operation in place comes to what it comes to on the whole. -/
theorem inPlace_eq (hr : r.WellFormed) (op : Operation) :
    r.inPlace op = r.outcome (r.perform op) := by
  cases op with
  | set key source => exact (InPlace.run_place hr _).trans (by rw [place_set, perform])
  | refresh key => exact (InPlace.run_place hr _).trans (by rw [place_refresh, perform])
  | setFill key fill => exact (InPlace.run_place hr _).trans (by rw [place_setFill, perform])
  | delete key mode => exact InPlace.run_delete hr key mode
  | refreshAll => exact InPlace.run_refreshAll hr

/-! ## What is built again -/

/-- Entries that are built again keep their fill values, if each step keeps it. -/
theorem fill_of_replaceAll {step : Registry → Entry → Except Fault Entry} (hstep : Rebuilds step)
    (hfill : ∀ r e e', step r e = .ok e' → e'.fill = e.fill) {occasion : String} :
    ∀ {names : List String} {r r' : Registry}, r.WellFormed →
      replaceAll step occasion names r = .ok r' → ∀ n e, r.entries.get? n = some e →
        ∃ e', r'.entries.get? n = some e' ∧ e'.fill = e.fill
  | [], r, r', _, h, n, e, he => by
    cases h
    exact ⟨e, he, rfl⟩
  | m :: names, r, r', hr, h, n, e, he => by
    unfold replaceAll at h
    cases hm : r.entries.get? m with
    | none =>
      simp only [hm] at h
      exact fill_of_replaceAll hstep hfill hr h n e he
    | some g =>
      simp only [hm] at h
      obtain ⟨g', hnoted, h⟩ := Except.bind_eq_ok.mp h
      have hbuild := Except.mapError_eq_ok.mp hnoted
      have hmade := hstep r g g' hr (hr.written m g hm) hbuild
      have hname : g'.name = m := hmade.name_eq_of_found hr hm
      have hrest := fill_of_replaceAll hstep hfill (put_wellFormed hr hmade) h
      by_cases hn : n = m
      · subst hn
        obtain rfl := Option.some.inj (hm.symm.trans he)
        obtain ⟨e', he', hfill'⟩ := hrest n g' (by rw [get?_put, if_pos hname.symm])
        exact ⟨e', he', hfill'.trans (hfill r g g' hbuild)⟩
      · exact hrest n e (by rw [get?_put, if_neg (hname ▸ hn), he])

theorem fill_of_rebuild (h : r.rebuild e = .ok e') : e'.fill = e.fill := Entry.fill_of_build h

theorem fill_of_renew (h : r.renew e = .ok e') : e'.fill = e.fill := by
  obtain ⟨e₁, hbuild, h⟩ := Except.bind_eq_ok.mp h
  have hfill := fill_of_rebuild hbuild
  cases h
  split <;> exact hfill

/-- All that depends on an entry, directly or through others, is built again with it, and nothing
else. -/
theorem mem_renewed_iff {order : List String} (horder : (r.put e).graph.order? = .ok order) :
    m ∈ (r.put e).renewed e.name order ↔ TransGen (r.put e).Refers m e.name := by
  have hac := DependencyGraph.acyclic_restrict.mp (acyclic_of_order? horder)
  rw [mem_renewed horder, DependencyGraph.mem_reach_iff hac]
  constructor
  · exact fun h => transGen_refers h mem_names_put
  · exact TransGen.mono (fun _ _ hab => (DependencyGraph.needs_restrict.mp hab).1) _ _

/-! ## What an operation does to each entry -/

/-- An entry has become another object, with a stamp that was not given out, of the same name, key and
source. -/
structure Supplants (r : Registry) (old new : Entry) : Prop where
  old_stamp : old.stamp < r.stamps.next
  new_stamp : r.stamps.next ≤ new.stamp
  name_eq : new.name = old.name
  key_eq : new.key = old.key
  source_eq : new.source = old.source

/-- One entry has been put in its place, and those that depend on it have been built again under the
eager policy. -/
structure Updated (r : Registry) (e : Entry) (r' : Registry) : Prop where
  names_eq : r'.entries.names =
    if e.name ∈ r.entries.names then r.entries.names else r.entries.names ++ [e.name]
  standing : r'.entries.get? e.name = some e
  stamp_eq : e.stamp = r.stamps.next
  retired_eq : r'.stamps.retired = r.stamps.retired
  kept : ∀ m, m ≠ e.name →
    (r.settings.refresh = .eager → ¬ TransGen (r.put e).Refers m e.name) →
      r'.entries.get? m = r.entries.get? m
  renewed : r.settings.refresh = .eager → ∀ m, TransGen (r.put e).Refers m e.name →
    m ≠ e.name ∧ ∃ old new, r.entries.get? m = some old ∧ r'.entries.get? m = some new ∧
      r.Supplants old new ∧ new.fill = old.fill

/-- One entry has been taken out, and is retired if that was by force. -/
structure Removed (r : Registry) (mode : DeleteMode) (e : Entry) (r' : Registry) : Prop where
  found : r.entries.get? e.name = some e
  names_eq : r'.entries.names = r.entries.names.filter (· != e.name)
  gone : r'.entries.get? e.name = none
  kept : ∀ m, m ≠ e.name → r'.entries.get? m = r.entries.get? m
  retired_eq : r'.stamps.retired =
    match mode with
    | .guarded => r.stamps.retired
    | .force => e.stamp :: r.stamps.retired

/-- All entries have been built again in their places. -/
structure Renewed (r r' : Registry) : Prop where
  names_eq : r'.entries.names = r.entries.names
  retired_eq : r'.stamps.retired = r.stamps.retired
  renewed : ∀ m old, r.entries.get? m = some old → ∃ new, r'.entries.get? m = some new ∧
    r.Supplants old new ∧ new.fill = old.fill

theorem Made.supplants (hr : r.WellFormed) (hold : r.entries.get? n = some e)
    (hmade : r.Made e.key e.source e') : r.Supplants e e' where
  old_stamp := (hr.regular n e hold).stamped
  new_stamp := hmade.stamp_eq.ge
  name_eq := hmade.name_eq.trans (hr.regular n e hold).keyed.symm
  key_eq := hmade.key_eq
  source_eq := hmade.source_eq

/-- The entry of a name that has been built again with others. -/
theorem Replaced.supplants {names : List String} (hr : r.WellFormed) (h : Replaced names r r')
    (hfill : ∀ n e, r.entries.get? n = some e → ∃ e', r'.entries.get? n = some e' ∧ e'.fill = e.fill)
    (hn : n ∈ names) (he : r.entries.get? n = some e) :
    ∃ new, r'.entries.get? n = some new ∧ r.Supplants e new ∧ new.fill = e.fill := by
  obtain ⟨before, rest, hsplit⟩ := List.append_of_mem hn
  obtain ⟨new, hnew, hremade⟩ := h.remade before n rest hsplit e he
  obtain ⟨new', hnew', hfill⟩ := hfill n e he
  obtain rfl := Option.some.inj (hnew.symm.trans hnew')
  refine ⟨new, hnew, ⟨(hr.regular n e he).stamped, hremade.stamped, ?_, hremade.key_eq,
    hremade.source_eq⟩, hfill⟩
  rw [h.wellFormed.named n new hnew, hr.named n e he]

theorem updated_of_commit (hr : r.WellFormed) (hprep : r.prepare op = .ok e)
    (hcommit : r.commit e = .ok r') : r.Updated e r' := by
  have hstep := commit_step hr hprep hcommit
  obtain ⟨staged, hstage, hstaged⟩ := commit_eq_ok.mp hcommit
  obtain ⟨order, horder, -, hagain⟩ := stage_eq_ok hstage
  have hstanding := (hstep.placed hr hprep).standing
  cases hstep with
  | put prepared made stale =>
    obtain rfl := Except.ok.inj (prepared.symm.trans hprep)
    refine ⟨NameMap.names_insert _ _ _, hstanding, made.stamp_eq, rfl, fun m hm _ => ?_,
      fun heager => ?_⟩
    · rw [reindex_entries, get?_put, if_neg hm]
    · rw [stale] at heager
      cases heager
  | @renew _ e₁ _ _ _ _ prepared made eager ordered replaced =>
    obtain rfl := Except.ok.inj (prepared.symm.trans hprep)
    obtain rfl := Except.ok.inj (ordered.symm.trans horder)
    have hput := put_wellFormed hr made
    have hfill := fill_of_replaceAll rebuilds_rebuild (fun _ _ _ => fill_of_rebuild) hput
      (hagain eager)
    subst hstaged
    refine ⟨replaced.names_eq.trans (NameMap.names_insert _ _ _), hstanding, made.stamp_eq,
      replaced.retired_eq, fun m hm hnot => ?_, fun _ m hm => ?_⟩
    · have hkept := replaced.kept m fun hmem => hnot eager ((mem_renewed_iff ordered).mp hmem)
      rw [hkept, get?_put, if_neg hm]
    · have hne : m ≠ e₁.name := by
        rintro rfl
        exact acyclic_of_order? ordered _ hm
      obtain ⟨c, hmc, -⟩ := TransGen.head'_iff.mp hm
      obtain ⟨old, hold, -⟩ := refers_iff.mp hmc
      obtain ⟨new, hnew, hsupplants, hfill⟩ :=
        replaced.supplants hput hfill ((mem_renewed_iff ordered).mpr hm) hold
      rw [get?_put, if_neg hne] at hold
      exact ⟨hne, old, new, hold, hnew, { hsupplants with
        old_stamp := (hr.regular m old hold).stamped
        new_stamp := (Nat.le_succ _).trans hsupplants.new_stamp }, hfill⟩
  | delete => cases hprep
  | all => cases hprep

theorem renewed_of_refreshAll (hr : r.WellFormed) (h : r.refreshAll = .ok r') : r.Renewed r' := by
  obtain ⟨order, horder, h⟩ := Except.bind_eq_ok.mp h
  obtain ⟨staged, hall, h⟩ := Except.bind_eq_ok.mp h
  cases h
  have horder := Except.mapError_eq_ok.mp horder
  have hfill := fill_of_replaceAll rebuilds_renew (fun _ _ _ => fill_of_renew) hr hall
  obtain ⟨hnodup, hmem⟩ := order?_names horder
  have hreplaced :=
    (replaceAll_eq_ok rebuilds_renew hr hnodup (fun n hn => (hmem n).mp hn) hall).reindex
  exact ⟨hreplaced.names_eq, hreplaced.retired_eq, fun m old hold =>
    hreplaced.supplants hr hfill ((hmem m).mpr (NameMap.mem_names_of_get? hold)) hold⟩

theorem delete_eq_ok {mode : DeleteMode} (h : r.delete key mode = .ok (e, r')) :
    r.get key = .ok e ∧ r' = r.without e mode := by
  obtain ⟨e₁, hget, h⟩ := Except.bind_eq_ok.mp h
  dsimp only at h
  split at h
  · cases h
  · cases h
    exact ⟨hget, rfl⟩

theorem names_without {mode : DeleteMode} :
    (r.without e mode).entries.names = r.entries.names.filter (· != e.name) := by
  change (r.entries.toList.filter fun p => p.1 != e.name).map Prod.fst =
    (r.entries.toList.map Prod.fst).filter (· != e.name)
  rw [List.filter_map]
  rfl

theorem removed_of_delete {mode : DeleteMode} (hr : r.WellFormed)
    (h : r.delete key mode = .ok (e, r')) : r.Removed mode e r' := by
  obtain ⟨hget, rfl⟩ := delete_eq_ok h
  obtain ⟨n, hn⟩ := get?_of_get hget
  obtain rfl := hr.named n e hn
  refine ⟨hn, names_without, ?_, fun m hm => ?_, rfl⟩
  · rw [get?_without, if_pos rfl]
  · rw [get?_without, if_neg hm]

/-! ## Transactions -/

/-- Each operation, carried out in place, either fails and changes nothing, or does what it is there for:
what is set has the key, the source and the fill value given and is put in its place; an entry that is
refreshed or gets another fill value is supplanted in its place; refreshing all supplants every entry;
and deleting removes one. -/
structure Transactional (r : Registry) : Prop where
  failed : ∀ op f, r.perform op = .error f → r.inPlace op = (.error f, r)
  succeeded : ∀ op r', r.perform op = .ok r' → r.inPlace op = (.ok (), r')
  set : ∀ key source e r', r.set key source = .ok (e, r') → r.Updated e r' ∧
    Key.read key = .ok e.key ∧ e.name = e.key.name ∧ e.source = source ∧ e.fill = r.settings.fill
  setFill : ∀ key fill e r', r.setFill key fill = .ok (e, r') → r.Updated e r' ∧
    ∃ old, r.get key = .ok old ∧ r.Supplants old e ∧ e.fill = fill
  refresh : ∀ key e r', r.refresh key = .ok (e, r') → r.Updated e r' ∧
    ∃ old, r.get key = .ok old ∧ r.Supplants old e ∧ e.fill = old.fill
  refreshAll : ∀ r', r.refreshAll = .ok r' → r.Renewed r'
  delete : ∀ key mode e r', r.delete key mode = .ok (e, r') → r.get key = .ok e ∧ r.Removed mode e r'

theorem transactional (hr : r.WellFormed) : r.Transactional where
  failed op f h := by rw [inPlace_eq hr, h, outcome]
  succeeded op r' h := by rw [inPlace_eq hr, h, outcome]
  set key source e r' h := by
    rw [← place_set] at h
    obtain ⟨hprep, hcommit⟩ := (place_eq_ok hr).mp h
    obtain ⟨k, hk, hbuild⟩ := Except.bind_eq_ok.mp hprep
    have hbuild := Except.mapError_eq_ok.mp hbuild
    have hmade := build_made hr ⟨_, hk⟩ hbuild
    refine ⟨updated_of_commit hr hprep hcommit, ?_, ?_, hmade.source_eq, Entry.fill_of_build hbuild⟩
    · rw [hk, hmade.key_eq]
    · rw [hmade.name_eq, hmade.key_eq]
  setFill key fill e r' h := by
    rw [← place_setFill] at h
    obtain ⟨hprep, hcommit⟩ := (place_eq_ok hr).mp h
    obtain ⟨old, hold, hbuild⟩ := Except.bind_eq_ok.mp hprep
    obtain ⟨n, hn⟩ := get?_of_get hold
    have hmade := build_made hr (hr.written n old hn) hbuild
    exact ⟨updated_of_commit hr hprep hcommit, old, hold, hmade.supplants hr hn,
      Entry.fill_of_build hbuild⟩
  refresh key e r' h := by
    rw [← place_refresh] at h
    obtain ⟨hprep, hcommit⟩ := (place_eq_ok hr).mp h
    obtain ⟨old, hold, hrenew⟩ := Except.bind_eq_ok.mp hprep
    obtain ⟨n, hn⟩ := get?_of_get hold
    have hmade := renew_made hr (hr.written n old hn) hrenew
    exact ⟨updated_of_commit hr hprep hcommit, old, hold, hmade.supplants hr hn, fill_of_renew hrenew⟩
  refreshAll _ h := renewed_of_refreshAll hr h
  delete _ _ _ _ h := ⟨(delete_eq_ok h).1, removed_of_delete hr h⟩

/-! ## The order of the names of a run -/

/-- The operation sets a name that was not there. -/
def Appends (n : String) (r : Registry) (op : Operation) : Prop :=
  ∃ key source e r', op = .set key source ∧ r.set key source = .ok (e, r') ∧ e.name = n ∧
    n ∉ r.entries.names

/-- The operation deletes the entry of a name. -/
def Removes (n : String) (r : Registry) (op : Operation) : Prop :=
  ∃ key mode e r', op = .delete key mode ∧ r.delete key mode = .ok (e, r') ∧ e.name = n

/-- The operation at a position of a run does something to the registry that it meets. -/
def Occurs (settings : Settings) (ops : List Operation) (i : Nat)
    (P : Registry → Operation → Prop) : Prop :=
  ∃ op, ops[i]? = some op ∧ P (run settings (ops.take i)) op

theorem names_of_appends (hr : r.WellFormed) (h : Appends n r op) :
    (r.after op).entries.names = r.entries.names ++ [n] := by
  obtain ⟨key, source, e, r', rfl, hset, rfl, hnew⟩ := h
  have hperf : r.perform (.set key source) = .ok r' := Except.map_eq_ok.mpr ⟨_, hset, rfl⟩
  rw [after_of_ok hperf, ((transactional hr).set key source e r' hset).1.names_eq, if_neg hnew]

theorem names_of_removes (hr : r.WellFormed) (h : Removes n r op) :
    (r.after op).entries.names = r.entries.names.filter (· != n) := by
  obtain ⟨key, mode, e, r', rfl, hdel, rfl⟩ := h
  have hperf : r.perform (.delete key mode) = .ok r' := Except.map_eq_ok.mpr ⟨_, hdel, rfl⟩
  rw [after_of_ok hperf, ((transactional hr).delete key mode e r' hdel).2.names_eq]

/-- Only appending and removing change the names. -/
theorem names_of_neither (hr : r.WellFormed) (happ : ∀ n, ¬ Appends n r op)
    (hrem : ∀ n, ¬ Removes n r op) : (r.after op).entries.names = r.entries.names := by
  have ht := transactional hr
  cases hperf : r.perform op with
  | error f => rw [after_of_error hperf]
  | ok r' =>
    rw [after_of_ok hperf]
    have hsame : ∀ {e}, r.Updated e r' → e.name ∈ r.entries.names →
        r'.entries.names = r.entries.names := fun hup hmem => by rw [hup.names_eq, if_pos hmem]
    have hfound : ∀ {key old e}, r.get key = .ok old → r.Supplants old e →
        e.name ∈ r.entries.names := by
      intro key old e hold hsup
      obtain ⟨n, hn⟩ := get?_of_get hold
      rw [hsup.name_eq, hr.named n old hn]
      exact NameMap.mem_names_of_get? hn
    cases op with
    | set key source =>
      obtain ⟨⟨e, r'⟩, hset, rfl⟩ := Except.map_eq_ok.mp hperf
      refine hsame (ht.set key source e r' hset).1 (by_contra fun hnew => ?_)
      exact happ e.name ⟨key, source, e, r', rfl, hset, rfl, hnew⟩
    | delete key mode =>
      obtain ⟨⟨e, r'⟩, hdel, rfl⟩ := Except.map_eq_ok.mp hperf
      exact absurd ⟨key, mode, e, r', rfl, hdel, rfl⟩ (hrem e.name)
    | refresh key =>
      obtain ⟨⟨e, r'⟩, href, rfl⟩ := Except.map_eq_ok.mp hperf
      obtain ⟨hup, old, hold, hsup, -⟩ := ht.refresh key e r' href
      exact hsame hup (hfound hold hsup)
    | refreshAll => exact (ht.refreshAll r' hperf).names_eq
    | setFill key fill =>
      obtain ⟨⟨e, r'⟩, hset, rfl⟩ := Except.map_eq_ok.mp hperf
      obtain ⟨hup, old, hold, hsup, -⟩ := ht.setFill key fill e r' hset
      exact hsame hup (hfound hold hsup)

theorem not_removes_of_appends (h : Appends n r op) : ¬ Removes m r op := by
  obtain ⟨key, source, e, r', rfl, -⟩ := h
  rintro ⟨_, _, _, _, hop, -⟩
  cases hop

theorem Appends.eq (h : Appends n r op) (h' : Appends m r op) : m = n := by
  obtain ⟨key, source, e, r', rfl, hset, rfl, -⟩ := h
  obtain ⟨_, _, e', _, hop, hset', rfl, -⟩ := h'
  cases hop
  rw [hset] at hset'
  cases hset'
  rfl

theorem Removes.eq (h : Removes n r op) (h' : Removes m r op) : m = n := by
  obtain ⟨key, source, e, r', rfl, hdel, rfl⟩ := h
  obtain ⟨_, _, e', _, hop, hdel', rfl⟩ := h'
  cases hop
  rw [hdel] at hdel'
  cases hdel'
  rfl

section Order

variable {settings : Settings} {ops : List Operation} {i : Nat} {P : Registry → Operation → Prop}

theorem Occurs.lt_length (h : Occurs settings ops i P) : i < ops.length := by
  obtain ⟨_, hop, -⟩ := h
  exact (List.getElem?_eq_some_iff.mp hop).1

theorem occurs_snoc : Occurs settings (ops ++ [op]) i P ↔
    Occurs settings ops i P ∨ i = ops.length ∧ P (run settings ops) op := by
  unfold Occurs
  rcases lt_trichotomy i ops.length with hi | rfl | hi
  · rw [List.getElem?_append_left hi, List.take_append_of_le_length hi.le]
    simp [hi.ne]
  · simp
  · have hnone : (ops ++ [op])[i]? = none := List.getElem?_eq_none (by simp; omega)
    simp [hnone, List.getElem?_eq_none hi.le, hi.ne']

/-- Where the names of a run were last appended: they stand in this order, and those are there that have
been appended and not been removed since. -/
structure Ordered (settings : Settings) (ops : List Operation) (since : String → Nat) : Prop where
  appended : ∀ n ∈ (run settings ops).entries.names, Occurs settings ops (since n) (Appends n) ∧
    ∀ i, Occurs settings ops i (Appends n) → i ≤ since n
  ordered : (run settings ops).entries.names.Pairwise fun a b => since a < since b
  live : ∀ n, n ∈ (run settings ops).entries.names ↔ ∃ i, Occurs settings ops i (Appends n) ∧
    ∀ j, i < j → ¬ Occurs settings ops j (Removes n)

variable {since : String → Nat}

theorem Ordered.nil : Ordered settings [] fun _ => 0 where
  appended _ h := by cases h
  ordered := .nil
  live n := by
    constructor
    · intro h
      cases h
    · rintro ⟨i, hi, -⟩
      exact absurd hi.lt_length (Nat.not_lt_zero i)

/-- A name that has been appended comes after all others. -/
theorem Ordered.append (h : Ordered settings ops since) (hn : Appends n (run settings ops) op) :
    Ordered settings (ops ++ [op]) (Function.update since n ops.length) := by
  have hnames : (run settings (ops ++ [op])).entries.names =
      (run settings ops).entries.names ++ [n] :=
    run_snoc settings ops op ▸ names_of_appends (run_wellFormed settings ops) hn
  have hnew : n ∉ (run settings ops).entries.names := by
    obtain ⟨_, _, _, _, _, _, _, hnew⟩ := hn
    exact hnew
  have hsince : ∀ m ∈ (run settings ops).entries.names,
      Function.update since n ops.length m = since m := fun m hm =>
    Function.update_of_ne (fun heq : m = n => hnew (heq ▸ hm)) _ _
  refine ⟨fun m hm => ?_, ?_, fun m => ?_⟩
  · rw [hnames, List.mem_append, List.mem_singleton] at hm
    rcases hm with hm | rfl
    · rw [hsince m hm]
      obtain ⟨hlast, hmax⟩ := h.appended m hm
      refine ⟨occurs_snoc.mpr (.inl hlast), fun i hi => ?_⟩
      rcases occurs_snoc.mp hi with hi | ⟨-, hi⟩
      · exact hmax i hi
      · exact absurd (hn.eq hi ▸ hm) hnew
    · rw [Function.update_self]
      refine ⟨occurs_snoc.mpr (.inr ⟨rfl, hn⟩), fun i hi => ?_⟩
      rcases occurs_snoc.mp hi with hi | ⟨rfl, -⟩
      · exact hi.lt_length.le
      · exact le_rfl
  · rw [hnames]
    refine List.pairwise_append.mpr ⟨?_, List.pairwise_singleton _ _, fun a ha b hb => ?_⟩
    · refine h.ordered.imp_of_mem fun {a b} ha hb hab => ?_
      rwa [hsince a ha, hsince b hb]
    · rw [List.mem_singleton.mp hb, hsince a ha, Function.update_self]
      exact (h.appended a ha).1.lt_length
  · have hremoves : ∀ j, Occurs settings (ops ++ [op]) j (Removes m) ↔
        Occurs settings ops j (Removes m) := fun j => by
      rw [occurs_snoc, or_iff_left fun hj => not_removes_of_appends hn hj.2]
    rw [hnames, List.mem_append, List.mem_singleton]
    constructor
    · rintro (hm | rfl)
      · obtain ⟨i, hi, hkept⟩ := (h.live m).mp hm
        exact ⟨i, occurs_snoc.mpr (.inl hi), fun j hj => (hremoves j).not.mpr (hkept j hj)⟩
      · refine ⟨ops.length, occurs_snoc.mpr (.inr ⟨rfl, hn⟩), fun j hj hrem => ?_⟩
        exact absurd ((hremoves j).mp hrem).lt_length (Nat.not_lt.mpr hj.le)
    · rintro ⟨i, hi, hkept⟩
      rcases occurs_snoc.mp hi with hi | ⟨-, hi⟩
      · exact .inl ((h.live m).mpr ⟨i, hi, fun j hj => (hremoves j).not.mp (hkept j hj)⟩)
      · exact .inr (hn.eq hi)

/-- What is not removed keeps its place. -/
theorem Ordered.keep (h : Ordered settings ops since)
    (happ : ∀ m, ¬ Appends m (run settings ops) op)
    (hsub : (run settings (ops ++ [op])).entries.names.Sublist (run settings ops).entries.names)
    (hmem : ∀ m, m ∈ (run settings (ops ++ [op])).entries.names ↔
      m ∈ (run settings ops).entries.names ∧ ¬ Removes m (run settings ops) op) :
    Ordered settings (ops ++ [op]) since := by
  have happends : ∀ m i, Occurs settings (ops ++ [op]) i (Appends m) ↔
      Occurs settings ops i (Appends m) := fun m i => by
    rw [occurs_snoc, or_iff_left fun hi => happ m hi.2]
  refine ⟨fun m hm => ?_, h.ordered.sublist hsub, fun m => ?_⟩
  · obtain ⟨hlast, hmax⟩ := h.appended m (hsub.subset hm)
    exact ⟨(happends m _).mpr hlast, fun i hi => hmax i ((happends m i).mp hi)⟩
  · rw [hmem m]
    constructor
    · rintro ⟨hm, hrem⟩
      obtain ⟨i, hi, hkept⟩ := (h.live m).mp hm
      refine ⟨i, (happends m i).mpr hi, fun j hj hocc => ?_⟩
      rcases occurs_snoc.mp hocc with hocc | ⟨-, hocc⟩
      · exact hkept j hj hocc
      · exact hrem hocc
    · rintro ⟨i, hi, hkept⟩
      have hi := (happends m i).mp hi
      refine ⟨(h.live m).mpr ⟨i, hi, fun j hj hocc => ?_⟩, fun hrem => ?_⟩
      · exact hkept j hj (occurs_snoc.mpr (.inl hocc))
      · exact hkept ops.length hi.lt_length (occurs_snoc.mpr (.inr ⟨rfl, hrem⟩))

theorem exists_ordered (settings : Settings) (ops : List Operation) :
    ∃ since, Ordered settings ops since := by
  induction ops using List.reverseRecOn with
  | nil => exact ⟨_, .nil⟩
  | append_singleton ops op ih =>
    obtain ⟨since, h⟩ := ih
    have hwf := run_wellFormed settings ops
    by_cases happ : ∃ n, Appends n (run settings ops) op
    · obtain ⟨n, hn⟩ := happ
      exact ⟨_, h.append hn⟩
    · rw [not_exists] at happ
      by_cases hrem : ∃ n, Removes n (run settings ops) op
      · obtain ⟨n, hn⟩ := hrem
        have hnames := names_of_removes hwf hn
        rw [← run_snoc] at hnames
        refine ⟨since, h.keep happ (hnames ▸ List.filter_sublist) fun m => ?_⟩
        rw [hnames, List.mem_filter, bne_iff_ne]
        exact and_congr_right fun _ => not_congr ⟨fun hm => hm ▸ hn, fun hm => hn.eq hm⟩
      · rw [not_exists] at hrem
        have hnames := names_of_neither hwf happ hrem
        rw [← run_snoc] at hnames
        refine ⟨since, h.keep happ (hnames ▸ List.Sublist.refl _) fun m => ?_⟩
        rw [hnames, and_iff_left (hrem m)]

end Order

/-- Every registry of a run is an ordered map with transactions, and its names stand in the order in
which they were last appended. -/
theorem run_transactional (settings : Settings) (ops : List Operation) :
    (run settings ops).Transactional ∧ ∃ since, Ordered settings ops since :=
  ⟨transactional (run_wellFormed settings ops), exists_ordered settings ops⟩

/-- `a` is removed and set once more, `b` is set again. -/
def reappended : List Operation :=
  [.set "a(x)" (.expression "2*x"), .set "b(x)" (.expression "a(x)"), .set "c" (.expression "1"),
    .delete "a" .force, .set "b(x)" (.expression "x"), .set "a(x)" (.expression "b(x)")]

/-- `b` has kept its place and `a` has gone to the end; setting `b` supplants `a`, which depends on it,
and leaves `c` as it is. -/
theorem run_transactional_reappended : ∃ r e r', r = run { refresh := .eager } reappended ∧
    r.set "b(x)" (.expression "3*x") = .ok (e, r') ∧ r'.entries.names = ["b", "c", "a"] ∧
    r'.entries.get? "c" = r.entries.get? "c" ∧
    (∃ old new, r.entries.get? "a" = some old ∧ r'.entries.get? "a" = some new ∧ r.Supplants old new) ∧
    ∃ since, Ordered { refresh := .eager } reappended since ∧ since "b" < since "c" ∧
      since "c" < since "a" := by
  obtain ⟨r, hrun⟩ : ∃ r, r = run { refresh := .eager } reappended := ⟨_, rfl⟩
  obtain ⟨htransactional, since, hordered⟩ := run_transactional { refresh := .eager } reappended
  have heager : r.settings.refresh = .eager := by rw [hrun, run_settings]
  have hnames : r.entries.names = ["b", "c", "a"] := by rw [hrun]; decide +kernel
  have hc : (r.entries.get? "c").map Entry.dependencies = some [] := by rw [hrun]; decide +kernel
  have ha : (r.entries.get? "a").map Entry.dependencies = some ["b"] := by rw [hrun]; decide +kernel
  have hset : (r.set "b(x)" (.expression "3*x")).isOk = true := by rw [hrun]; decide +kernel
  have hbefore := hordered.ordered
  rw [← hrun] at htransactional hbefore
  obtain ⟨c, hgetc, hc⟩ := Option.map_eq_some_iff.mp hc
  obtain ⟨a, hgeta, ha⟩ := Option.map_eq_some_iff.mp ha
  obtain ⟨⟨e, r'⟩, hset⟩ := Except.exists_of_isOk hset
  obtain ⟨hupdated, hread, hname, -⟩ := htransactional.set _ _ e r' hset
  have hread : (Key.read "b(x)").toOption.map Key.name = some e.key.name := by rw [hread]; rfl
  have hname : e.name = "b" := by
    rw [hname]
    exact Option.some.inj (hread.symm.trans (by decide +kernel))
  have hkept : ¬ TransGen (r.put e).Refers "c" e.name := by
    intro h
    obtain ⟨d, hd, -⟩ := TransGen.head'_iff.mp h
    obtain ⟨g, hg, hd, -⟩ := refers_iff.mp hd
    rw [get?_put, hname, if_neg (by decide), hgetc] at hg
    cases hg
    rw [hc] at hd
    cases hd
  have hreach : TransGen (r.put e).Refers "a" e.name := by
    refine .single (refers_iff.mpr ⟨a, ?_, ?_, mem_names_put⟩)
    · rw [get?_put, hname, if_neg (by decide), hgeta]
    · rw [ha, hname]
      exact List.mem_singleton_self _
  obtain ⟨-, old, new, hold, hnew, hsupplants, -⟩ := hupdated.renewed heager "a" hreach
  refine ⟨r, e, r', hrun, hset, ?_, hupdated.kept "c" (by rw [hname]; decide) fun _ => hkept,
    ⟨old, new, hold, hnew, hsupplants⟩, since, hordered, ?_⟩
  · rw [hupdated.names_eq, hname, if_pos (by rw [hnames]; decide), hnames]
  · simp only [hnames, List.pairwise_cons, List.mem_cons, List.not_mem_nil, or_false] at hbefore
    exact ⟨hbefore.1 "c" (.inl rfl), hbefore.2.1 "a" rfl⟩

end Formulary.Registry
