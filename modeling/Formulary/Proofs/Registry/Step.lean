import Formulary.Proofs.Dependency.Reach
import Formulary.Proofs.Entry.Build
import Formulary.Registry.Basic
import Mathlib.Data.List.Induction

/-!
Runs of operations on a registry.

An operation that fails leaves the registry as it was. A successful one removes an entry, or puts a
new one in its place, or builds a list of entries again one after the other; what it leaves is said
here once, in `Step`, and every invariant of runs is read off from that.

How the proof goes. Building an entry gives one that is `Made` in the registry (`build_made`). Entries are
built again by a loop in which each sees those before it already in place: `Replaced` says what the loop
leaves in terms of the registries before and after it, so that nobody has to follow those in between
(`replaceAll_eq_ok`, by recursion on the names). `perform_step` then has one case for each operation. Two
inductions over runs rest on it: `run_induction` for whatever a step keeps, and `run_preserves_sources` for
what depends on what the entries were made from, where it is enough to look at an entry that is put in its
place, at one that is removed, and at a new index.

The index of signatures is behind while a copy is being changed, and is made anew once, when the copy
is committed. So it is not a part of `WellFormed`, which the registries on the way have as well, but an
invariant of the steps (`Step.indexed`). Whatever looks at the entries, the settings and the stamps
alone does not see the new index, by the lemmas on `reindex`.
-/

namespace Formulary

/-- The operations that change a registry. -/
inductive Operation where
  | set (key : String) (source : Source)
  | delete (key : String) (mode : DeleteMode)
  | refresh (key : String)
  | refreshAll
  | setFill (key : String) (fill : Float)

/-- What a fault of putting an entry in its place is noted with. -/
def Operation.noted : Operation → Fault → Fault
  | .set key _, f => f.forKey key
  | .delete .., f | .refresh _, f | .refreshAll, f | .setFill .., f => f

namespace Registry

/-- The registry that an operation gives. -/
def perform (r : Registry) : Operation → Except Fault Registry
  | .set key source => (r.set key source).map Prod.snd
  | .delete key mode => (r.delete key mode).map Prod.snd
  | .refresh key => (r.refresh key).map Prod.snd
  | .refreshAll => r.refreshAll
  | .setFill key fill => (r.setFill key fill).map Prod.snd

/-- The registry after an operation: unchanged if the operation fails. -/
def after (r : Registry) (op : Operation) : Registry :=
  match r.perform op with
  | .ok r' => r'
  | .error _ => r

/-- The registry after operations, one after the other, on an empty one. -/
def run (settings : Settings) (ops : List Operation) : Registry := ops.foldl after { settings }

/-- The operation succeeds. -/
def Accepts (r : Registry) (op : Operation) : Prop := ∃ r', r.perform op = .ok r'

/-- The entry that an operation builds to be put in its place. -/
def prepare (r : Registry) : Operation → Except Fault Entry
  | .set key source => do
    let k ← Key.read key
    (r.build r.settings.fill k source).mapError (·.forKey key)
  | .refresh key => do r.renew (← r.get key)
  | .setFill key fill => do
    let e ← r.get key
    r.build fill e.key e.source
  | .delete .. | .refreshAll => .error (.ofCause (.internal "no entry is built"))

theorem accepts_of_isOk {r : Registry} {op : Operation} (h : (r.perform op).isOk = true) :
    r.Accepts op :=
  Except.exists_of_isOk h

/-! ## Names and entries -/

/-- An entry depends on another that is registered. -/
def Refers (r : Registry) (a b : String) : Prop := r.graph.Needs a b

/-- The text of an entry mentions the name of another that is registered. -/
def Mentions (r : Registry) (a b : String) : Prop :=
  ∃ e, r.entries.get? a = some e ∧ b ∈ e.mentions ∧ b ∈ r.entries.names

/-- The entry was made in this registry, from a key that was read; an entry of an expression is just
what building it gives. -/
structure Made (r : Registry) (key : Key) (source : Source) (e : Entry) : Prop extends
    Entry.Made r.entries r.settings.freeParameters r.stamps.next key source e where
  written : key.Written
  derived : e.isDerived = true → r.build e.fill key source = .ok e

end Registry

/-- What is true of each entry of a registry: the name is that of the key and not reserved, the
stamp has been given out, a compiled entry holds nothing but its dependencies, and these are
mentioned, all of them if unknown symbols do not become parameters. -/
structure Entry.Regular (freeParameters : Bool) (next : Stamp) (e : Entry) : Prop where
  keyed : e.name = e.key.name
  stamped : e.stamp < next
  mentioned : ∀ d ∈ e.dependencies, d ∈ e.mentions
  bare : e.isDerived = true → ∀ d, d ∉ e.dependencies → e.callable.target? d = none
  params_eq : e.callable.params = e.params
  foreign : e.name ∉ e.mentions
  unreserved : isReserved e.name = false
  complete : freeParameters = false → ∀ d ∈ e.mentions, d ∈ e.dependencies ∨ isReserved d = true

theorem Entry.Made.mentions_eq {entries : NameMap Entry} {free : Bool} {stamp : Stamp} {key : Key}
    {source : Source} {e : Entry} (h : Entry.Made entries free stamp key source e) :
    e.mentions = source.mentions key := by
  rw [Entry.mentions, h.key_eq, h.source_eq]

theorem Entry.Made.regular {entries : NameMap Entry} {free : Bool} {stamp : Stamp} {key : Key}
    {source : Source} {e : Entry} (h : Entry.Made entries free stamp key source e) :
    e.Regular free (stamp + 1) where
  keyed := by rw [h.name_eq, h.key_eq]
  stamped := by rw [h.stamp_eq]; exact Nat.lt_succ_self _
  mentioned d hd := ((h.depends d).mp hd).1
  bare := h.bare
  params_eq := h.params_eq
  foreign := h.foreign
  unreserved := h.unreserved
  complete hfree d hd := (h.known hfree d hd).imp_left fun hreg => (h.depends d).mpr ⟨hd, hreg⟩

theorem Entry.Regular.mono {free : Bool} {m n : Stamp} {e : Entry} (h : e.Regular free m)
    (hmn : m ≤ n) : e.Regular free n :=
  { h with stamped := lt_of_lt_of_le h.stamped hmn }

namespace Registry

variable {r r' : Registry} {e e' : Entry} {a b name : String}

/-- Every entry stands under its own name, is regular, and was built from a key that was read. -/
structure WellFormed (r : Registry) : Prop where
  named : Entry.WellNamed r.entries
  regular : ∀ n e, r.entries.get? n = some e → e.Regular r.settings.freeParameters r.stamps.next
  built : ∀ n e, r.entries.get? n = some e → e.Built
  written : ∀ n e, r.entries.get? n = some e → e.key.Written

/-! ## The index -/

/-- The index is the one that the entries give. -/
def Indexed (r : Registry) : Prop := r.aliases = index r.entries

@[simp] theorem reindex_entries : r.reindex.entries = r.entries := rfl

@[simp] theorem reindex_settings : r.reindex.settings = r.settings := rfl

@[simp] theorem reindex_stamps : r.reindex.stamps = r.stamps := rfl

theorem indexed_reindex : r.reindex.Indexed := rfl

theorem mem_pairs_iff {entries : NameMap Entry} {key n : String} :
    (key, n) ∈ ((entries.toList.map fun (name, e) => (e.signature.lookupKey, name)).filter
        fun (signature, name) => signature != name).reverse ↔
      ∃ e, entries.get? n = some e ∧ e.signature.lookupKey = key ∧ key ≠ n := by
  rw [List.mem_reverse, List.mem_filter, List.mem_map]
  constructor
  · rintro ⟨⟨⟨m, e⟩, he, heq⟩, hne⟩
    cases heq
    exact ⟨e, NameMap.mem_toList_iff.mp he, rfl, by simpa using hne⟩
  · rintro ⟨e, he, rfl, hne⟩
    exact ⟨⟨(n, e), NameMap.mem_toList_iff.mpr he, rfl⟩, by simpa using hne⟩

/-- The index has only names of entries, under their signatures. -/
theorem get?_of_index {entries : NameMap Entry} {key n : String}
    (h : (index entries).get? key = some n) :
    ∃ e, entries.get? n = some e ∧ e.signature.lookupKey = key := by
  rw [index, NameMap.get?_ofList] at h
  obtain ⟨e, he, hkey, -⟩ := mem_pairs_iff.mp (NameMap.mem_of_lookup h)
  exact ⟨e, he, hkey⟩

/-- Every signature that is not the name itself is in the index. -/
theorem exists_get?_index {entries : NameMap Entry} {n : String} {e : Entry}
    (he : entries.get? n = some e) (hne : e.signature.lookupKey ≠ n) :
    ∃ m, (index entries).get? e.signature.lookupKey = some m := by
  rw [index, NameMap.get?_ofList, ← Option.ne_none_iff_exists']
  intro hnone
  have hmem := List.lookup_eq_none_iff.mp hnone _ (mem_pairs_iff.mpr ⟨e, he, rfl, hne⟩)
  exact absurd hmem (by simp)

theorem WellFormed.reindex (hr : r.WellFormed) : r.reindex.WellFormed :=
  ⟨hr.named, hr.regular, hr.built, hr.written⟩

/-! ## What entries refer to -/

theorem refers_iff : r.Refers a b ↔
    ∃ e, r.entries.get? a = some e ∧ b ∈ e.dependencies ∧ b ∈ r.entries.names := by
  unfold Refers graph
  rw [DependencyGraph.needs_restrict]
  unfold DependencyGraph.Needs references
  rw [NameMap.get?_map, NameMap.names_map]
  constructor
  · rintro ⟨⟨needs, hn, hb⟩, hreg⟩
    obtain ⟨e, he, rfl⟩ := Option.map_eq_some_iff.mp hn
    exact ⟨e, he, hb, hreg⟩
  · rintro ⟨e, he, hb, hreg⟩
    exact ⟨⟨_, Option.map_eq_some_iff.mpr ⟨e, he, rfl⟩, hb⟩, hreg⟩

/-- An order lists the registered names, each once. -/
theorem order?_names {order : List String} (h : r.graph.order? = .ok order) :
    order.Nodup ∧ ∀ n, n ∈ order ↔ n ∈ r.entries.names := by
  have hperm := (DependencyGraph.order?_eq_ok h).1
  have hnames : r.graph.names = r.entries.names := by
    simp [graph, references, DependencyGraph.restrict]
  rw [hnames] at hperm
  exact ⟨hperm.nodup_iff.mpr (NameMap.nodup_names _), fun _ => hperm.mem_iff⟩

theorem mentions_of_refers (hr : r.WellFormed) (h : r.Refers a b) : r.Mentions a b := by
  obtain ⟨e, he, hb, hreg⟩ := refers_iff.mp h
  exact ⟨e, he, (hr.regular a e he).mentioned b hb, hreg⟩

theorem not_mentions_self (hr : r.WellFormed) : ¬ r.Mentions a a := by
  rintro ⟨e, he, hb, -⟩
  have := (hr.regular a e he).foreign
  rw [hr.named a e he] at this
  exact this hb

/-- When unknown symbols do not become parameters, what is mentioned is referred to. -/
theorem refers_iff_mentions (hr : r.WellFormed) (hfree : r.settings.freeParameters = false) :
    r.Refers a b ↔ r.Mentions a b := by
  refine ⟨mentions_of_refers hr, ?_⟩
  rintro ⟨e, he, hb, hreg⟩
  rcases (hr.regular a e he).complete hfree b hb with hd | hres
  · exact refers_iff.mpr ⟨e, he, hd, hreg⟩
  · obtain ⟨g, hg⟩ := NameMap.get?_of_mem_names hreg
    have := (hr.regular b g hg).unreserved
    rw [hr.named b g hg, hres] at this
    cases this

/-! ## Building -/

theorem build_made (hr : r.WellFormed) {fill : Float} {key : Key} {source : Source}
    (hkey : key.Written) (h : r.build fill key source = .ok e) : r.Made key source e where
  toMade := Entry.build_eq_ok hr.named h
  written := hkey
  derived _ := by
    rw [Entry.fill_of_build h]
    exact h

theorem rebuild_made (hr : r.WellFormed) (hkey : e.key.Written)
    (h : r.rebuild e = .ok e') : r.Made e.key e.source e' :=
  build_made hr hkey h

theorem renew_made (hr : r.WellFormed) (hkey : e.key.Written) (h : r.renew e = .ok e') :
    r.Made e.key e.source e' := by
  unfold renew at h
  obtain ⟨e₁, hbuild, h⟩ := Except.bind_eq_ok.mp h
  have hmade := rebuild_made hr hkey hbuild
  cases h
  split
  · exact hmade
  · rename_i hprimitive
    exact { hmade with
      built := fun hentries hkey => .snapshot (hmade.built hentries hkey) _
      derived := fun hderived => absurd hderived hprimitive }

/-- What holds of the entries and of a new one holds when that has been put in its place. -/
theorem forall_put {P : String → Entry → Prop} (hr : ∀ n g, r.entries.get? n = some g → P n g)
    (he : P e.name e) : ∀ n g, (r.put e).entries.get? n = some g → P n g := by
  intro n g hg
  change (r.entries.insert e.name e).get? n = some g at hg
  rw [NameMap.get?_insert] at hg
  split at hg
  · rename_i hn
    cases hg
    exact hn ▸ he
  · exact hr n g hg

theorem put_wellFormed (hr : r.WellFormed) {key : Key} {source : Source}
    (h : r.Made key source e) : (r.put e).WellFormed where
  named := forall_put hr.named rfl
  regular := forall_put (fun n g hg => (hr.regular n g hg).mono (Nat.le_succ _)) h.regular
  built := forall_put hr.built (h.built hr.built h.written)
  written := forall_put hr.written (h.key_eq ▸ h.written)

theorem get?_put : (r.put e).entries.get? a =
    if a = e.name then some e else r.entries.get? a :=
  NameMap.get?_insert _ _ _ _

theorem mem_names_put_of_mem (h : a ∈ r.entries.names) :
    a ∈ (r.put e).entries.names := by
  obtain ⟨g, hg⟩ := NameMap.get?_of_mem_names h
  by_cases ha : a = e.name
  · exact NameMap.mem_names_of_get? (by rw [get?_put, if_pos ha])
  · exact NameMap.mem_names_of_get? (by rw [get?_put, if_neg ha, hg])

/-! ## Building entries again -/

/-- An entry that is made again keeps the name under which it stands. -/
theorem Made.name_eq_of_found (hr : r.WellFormed) (he : r.entries.get? name = some e)
    (h : r.Made e.key e.source e') : e'.name = name := by
  rw [h.name_eq, ← (hr.regular name e he).keyed, hr.named name e he]

theorem Made.names_put (hr : r.WellFormed) (he : r.entries.get? name = some e)
    (h : r.Made e.key e.source e') : (r.put e').entries.names = r.entries.names :=
  NameMap.names_insert_of_mem _ (h.name_eq_of_found hr he ▸ NameMap.mem_names_of_get? he)

/-- A step of `replaceAll` builds the entry again from its key and its source. -/
def Rebuilds (step : Registry → Entry → Except Fault Entry) : Prop :=
  ∀ r e e', r.WellFormed → e.key.Written → step r e = .ok e' → r.Made e.key e.source e'

theorem rebuilds_rebuild : Rebuilds rebuild := fun _ _ _ hr hkey h => rebuild_made hr hkey h

theorem rebuilds_renew : Rebuilds renew := fun _ _ _ hr hkey h => renew_made hr hkey h

/-- One registry becomes another: entries are made again, one after the other, and each is put in its
place before the next is made; the index may be made anew at the end. -/
inductive Grows : Registry → Registry → Prop where
  | refl (r : Registry) : Grows r r
  | put {r r' : Registry} {n : String} {e e' : Entry} (found : r.entries.get? n = some e)
      (made : r.Made e.key e.source e') (rest : Grows (r.put e') r') : Grows r r'
  | reindex {r r' : Registry} (rest : Grows r r') : Grows r r'.reindex

/-- What has become of an entry that was built again after those named in `before` and before the
others: it holds the new entries of the former and the old ones of all others. -/
structure Remade (before : List String) (r r' : Registry) (e e' : Entry) : Prop where
  key_eq : e'.key = e.key
  source_eq : e'.source = e.source
  stamped : r.stamps.next ≤ e'.stamp
  depends : ∀ d, d ∈ e'.dependencies ↔ d ∈ e'.mentions ∧ d ∈ r.entries.names
  holds : ∀ d ∈ e'.dependencies, e'.callable.target? d =
    ((if d ∈ before then r' else r).entries.get? d).map Entry.held

theorem Remade.mentions_eq {before : List String} (h : Remade before r r' e e') :
    e'.mentions = e.mentions := by
  rw [Entry.mentions, h.key_eq, h.source_eq, Entry.mentions]

/-- An entry that is made before all others holds the old entries. -/
theorem Made.remade (h : r.Made e.key e.source e') : Remade [] r r' e e' where
  key_eq := h.key_eq
  source_eq := h.source_eq
  stamped := h.stamp_eq.ge
  depends := h.depends
  holds d hd := by
    obtain ⟨g, hg⟩ := NameMap.get?_of_mem_names ((h.depends d).mp hd).2
    rw [h.holds d hd g hg, if_neg List.not_mem_nil, hg, Option.map_some]

/-- An entry that is made again after another has been: that one counts among those before it. -/
theorem Remade.cons {before : List String} {g g' : Entry}
    (hnames : (r.put e').entries.names = r.entries.names)
    (hnew : r'.entries.get? e'.name = some e') (hbefore : e'.name ∉ before)
    (h : Remade before (r.put e') r' g g') : Remade (e'.name :: before) r r' g g' where
  key_eq := h.key_eq
  source_eq := h.source_eq
  stamped := (Nat.le_succ _).trans h.stamped
  depends d := by rw [h.depends d, hnames]
  holds d hd := by
    rw [h.holds d hd]
    by_cases hdn : d = e'.name
    · subst hdn
      rw [if_neg hbefore, if_pos List.mem_cons_self, hnew, get?_put, if_pos rfl]
    · by_cases hd' : d ∈ before
      · rw [if_pos hd', if_pos (List.mem_cons_of_mem _ hd')]
      · have hcons : d ∉ e'.name :: before := by simp [hdn, hd']
        rw [if_neg hd', if_neg hcons, get?_put, if_neg hdn]

/-- The entries of the given names have been built again, one after the other. -/
structure Replaced (names : List String) (r r' : Registry) : Prop where
  grows : Grows r r'
  wellFormed : r'.WellFormed
  settings_eq : r'.settings = r.settings
  retired_eq : r'.stamps.retired = r.stamps.retired
  names_eq : r'.entries.names = r.entries.names
  kept : ∀ n ∉ names, r'.entries.get? n = r.entries.get? n
  remade : ∀ before n rest, names = before ++ n :: rest → ∀ e, r.entries.get? n = some e →
    ∃ e', r'.entries.get? n = some e' ∧ Remade before r r' e e'

theorem Replaced.nil (hr : r.WellFormed) : Replaced [] r r :=
  ⟨.refl r, hr, rfl, rfl, rfl, fun _ _ => rfl, fun before n rest h => by simp at h⟩

/-- The index of signatures matters to none of this. -/
theorem Replaced.reindex {names : List String} (h : Replaced names r r') :
    Replaced names r r'.reindex where
  grows := h.grows.reindex
  wellFormed := h.wellFormed.reindex
  settings_eq := h.settings_eq
  retired_eq := h.retired_eq
  names_eq := h.names_eq
  kept := h.kept
  remade before n rest hsplit e he := by
    obtain ⟨e', he', hremade⟩ := h.remade before n rest hsplit e he
    refine ⟨e', he', { hremade with holds := fun d hd => ?_ }⟩
    rw [hremade.holds d hd]
    split <;> rfl

/-- One more entry is built again before the others. -/
theorem Replaced.cons {n : String} {names : List String} (hr : r.WellFormed)
    (he : r.entries.get? n = some e) (hmade : r.Made e.key e.source e') (hn : n ∉ names)
    (h : Replaced names (r.put e') r') : Replaced (n :: names) r r' := by
  have hnames : (r.put e').entries.names = r.entries.names := hmade.names_put hr he
  obtain rfl : e'.name = n := hmade.name_eq_of_found hr he
  have hput : ∀ d, d ≠ e'.name → (r.put e').entries.get? d = r.entries.get? d := fun d hd => by
    rw [get?_put, if_neg hd]
  have hnew : r'.entries.get? e'.name = some e' := by
    rw [h.kept e'.name hn, get?_put, if_pos rfl]
  refine ⟨.put he hmade h.grows, h.wellFormed, h.settings_eq, h.retired_eq,
    h.names_eq.trans hnames, ?_, ?_⟩
  · intro m hm
    rw [List.mem_cons, not_or] at hm
    rw [h.kept m hm.2, hput m hm.1]
  · intro before m rest hsplit g hg
    rcases before with _ | ⟨m', before⟩
    · obtain ⟨rfl, rfl⟩ := List.cons.inj hsplit
      obtain rfl := Option.some.inj (he.symm.trans hg)
      exact ⟨e', hnew, hmade.remade⟩
    · obtain ⟨rfl, htail⟩ := List.cons.inj hsplit
      have hbefore : e'.name ∉ before := fun hd => hn (htail ▸ List.mem_append_left _ hd)
      have hm : m ≠ e'.name := by
        rintro rfl
        exact hn (htail ▸ by simp)
      obtain ⟨g', hg', hremade⟩ := h.remade before m rest htail g ((hput m hm).trans hg)
      exact ⟨g', hg', hremade.cons hnames hnew hbefore⟩

theorem replaceAll_eq_ok {step : Registry → Entry → Except Fault Entry} (hstep : Rebuilds step)
    {occasion : String} :
    ∀ {names : List String} {r r' : Registry}, r.WellFormed → names.Nodup →
      (∀ n ∈ names, n ∈ r.entries.names) → replaceAll step occasion names r = .ok r' →
      Replaced names r r'
  | [], r, r', hr, _, _, h => by
    cases h
    exact .nil hr
  | n :: names, r, r', hr, hd, hmem, h => by
    obtain ⟨hn, hd⟩ := List.nodup_cons.mp hd
    obtain ⟨e, he⟩ := NameMap.get?_of_mem_names (hmem n (List.mem_cons_self ..))
    unfold replaceAll at h
    simp only [he] at h
    obtain ⟨e', hbuild, h⟩ := Except.bind_eq_ok.mp h
    have hmade := hstep r e e' hr (hr.written n e he) (Except.mapError_eq_ok.mp hbuild)
    refine .cons hr he hmade hn ?_
    refine replaceAll_eq_ok hstep (put_wellFormed hr hmade) hd (fun m hm => ?_) h
    rw [hmade.names_put hr he]
    exact hmem m (List.mem_cons_of_mem _ hm)

/-! ## Operations -/

/-- The names that are built again when an entry is replaced under the eager policy, if they come in
the given order. -/
def renewed (r : Registry) (name : String) (order : List String) : List String :=
  order.filter (r.references.reach name).contains

/-- The registry without an entry, which is retired if it is removed by force, and with the index of
the others. -/
def without (r : Registry) (e : Entry) (mode : DeleteMode) : Registry :=
  reindex { r with
    entries := r.entries.erase e.name
    stamps := { r.stamps with
      retired :=
        match mode with
        | .guarded => r.stamps.retired
        | .force => e.stamp :: r.stamps.retired } }

/-- What a successful operation has done: put an entry in its place, which leaves an order, and
under the eager policy built again all that depends on it; removed an entry; or built all entries
again in an order. Each leaves the index that the entries give. -/
inductive Step (r : Registry) : Operation → Registry → Prop where
  | put {op : Operation} {e : Entry} {key : Key} {source : Source} {order : List String}
      (prepared : r.prepare op = .ok e) (made : r.Made key source e)
      (stale : r.settings.refresh = .stale) (ordered : (r.put e).graph.order? = .ok order) :
      Step r op (r.put e).reindex
  | renew {op : Operation} {e : Entry} {key : Key} {source : Source} {order : List String}
      {r' : Registry} (prepared : r.prepare op = .ok e) (made : r.Made key source e)
      (eager : r.settings.refresh = .eager) (ordered : (r.put e).graph.order? = .ok order)
      (replaced : Replaced ((r.put e).renewed e.name order) (r.put e) r') (indexed : r'.Indexed) :
      Step r op r'
  | delete {key : String} {mode : DeleteMode} {e : Entry} (found : r.get key = .ok e)
      (allowed : mode = .guarded → r.references.dependents e.name = []) :
      Step r (.delete key mode) (r.without e mode)
  | all {order : List String} {r' : Registry} (ordered : r.graph.order? = .ok order)
      (replaced : Replaced order r r') (indexed : r'.Indexed) : Step r .refreshAll r'

theorem get_eq_ok {key : String} :
    r.get key = .ok e ↔ ∃ n, r.nameOf? key = some n ∧ r.entries.get? n = some e := by
  unfold get get?
  rw [← Option.bind_eq_some_iff]
  cases (r.nameOf? key).bind r.entries.get? with
  | none => simp
  | some g => simp

theorem get?_of_get {key : String} (h : r.get key = .ok e) : ∃ n, r.entries.get? n = some e :=
  (get_eq_ok.mp h).imp fun _ hn => hn.2

theorem withEntry_eq_ok {p : Entry × Registry} (h : r.withEntry name = .ok p) : p.2 = r := by
  unfold withEntry at h
  split at h
  · cases h
    rfl
  · cases h

/-- What is staged has the entry in its place, which leaves an order, and under the eager policy all that
depends on it has been built again. -/
theorem stage_eq_ok (h : r.stage e = .ok r') : ∃ order, (r.put e).graph.order? = .ok order ∧
    (r.settings.refresh = .stale → r' = r.put e) ∧
    (r.settings.refresh = .eager → replaceAll rebuild "while refreshing dependent "
      ((r.put e).renewed e.name order) (r.put e) = .ok r') := by
  unfold stage at h
  simp only at h
  split at h
  · cases h
  · rename_i order horder
    refine ⟨order, horder, fun hstale => ?_, fun heager => ?_⟩
    · simp only [hstale] at h
      cases h
      rfl
    · simp only [heager] at h
      obtain ⟨names, hnames, h⟩ := Except.bind_eq_ok.mp h
      have hnames := Except.mapError_eq_ok.mp hnames
      unfold DependencyGraph.dependentsInOrder? at hnames
      change (r.put e).graph.order?.map _ = _ at hnames
      rw [horder] at hnames
      cases hnames
      exact h

/-- What is committed is the staged copy with its own index. -/
theorem commit_eq_ok : r.commit e = .ok r' ↔ ∃ staged, r.stage e = .ok staged ∧ staged.reindex = r' :=
  Except.map_eq_ok

/-- What an operation prepares has been made: under the key and from the source that it sets, or
again under those of the entry that it is on. -/
inductive Prepares (r : Registry) : Operation → Entry → Prop where
  | set {key : String} {k : Key} {source : Source} {e : Entry} (read : Key.read key = .ok k)
      (made : r.Made k source e) : Prepares r (.set key source) e
  | refresh {key n : String} {old e : Entry} (named : r.nameOf? key = some n)
      (found : r.entries.get? n = some old) (made : r.Made old.key old.source e) :
      Prepares r (.refresh key) e
  | setFill {key n : String} {fill : Float} {old e : Entry} (named : r.nameOf? key = some n)
      (found : r.entries.get? n = some old) (made : r.Made old.key old.source e) :
      Prepares r (.setFill key fill) e

theorem prepares_of_prepare (hr : r.WellFormed) {op : Operation} (h : r.prepare op = .ok e) :
    r.Prepares op e := by
  cases op with
  | set key source =>
    obtain ⟨k, hk, hbuild⟩ := Except.bind_eq_ok.mp h
    exact .set hk (build_made hr ⟨_, hk⟩ (Except.mapError_eq_ok.mp hbuild))
  | refresh key =>
    obtain ⟨old, hold, hrenew⟩ := Except.bind_eq_ok.mp h
    obtain ⟨n, hn, hget⟩ := get_eq_ok.mp hold
    exact .refresh hn hget (renew_made hr (hr.written n old hget) hrenew)
  | setFill key fill =>
    obtain ⟨old, hold, hbuild⟩ := Except.bind_eq_ok.mp h
    obtain ⟨n, hn, hget⟩ := get_eq_ok.mp hold
    exact .setFill hn hget (build_made hr (hr.written n old hget) hbuild)
  | delete | refreshAll => cases h

theorem made_of_prepare (hr : r.WellFormed) {op : Operation} (h : r.prepare op = .ok e) :
    ∃ key source, r.Made key source e := by
  cases prepares_of_prepare hr h with
  | set _ made | refresh _ _ made | setFill _ _ made => exact ⟨_, _, made⟩

theorem commit_step (hr : r.WellFormed) {op : Operation} (hprep : r.prepare op = .ok e)
    (h : r.commit e = .ok r') : Step r op r' := by
  obtain ⟨key, source, hmade⟩ := made_of_prepare hr hprep
  obtain ⟨staged, hstage, rfl⟩ := commit_eq_ok.mp h
  obtain ⟨order, horder, hstale, heager⟩ := stage_eq_ok hstage
  cases hpolicy : r.settings.refresh with
  | stale =>
    obtain rfl := hstale hpolicy
    exact .put hprep hmade hpolicy horder
  | eager =>
    obtain ⟨hnodup, hmem⟩ := order?_names horder
    have hreplaced := replaceAll_eq_ok rebuilds_rebuild (put_wellFormed hr hmade) (hnodup.filter _)
      (fun n hn => (hmem n).mp (List.mem_filter.mp hn).1) (heager hpolicy)
    exact .renew hprep hmade hpolicy horder hreplaced.reindex indexed_reindex

/-- The entry that an operation builds, put in its place. -/
def place (r : Registry) (op : Operation) : Except Fault (Entry × Registry) := do
  let e ← r.prepare op
  (r.commit e >>= fun r₁ => r₁.withEntry e.name).mapError op.noted

section Place

variable {key : String} {source : Source} {fill : Float}

theorem place_set : r.place (.set key source) = r.set key source := by
  simp only [place, prepare, set]
  cases Key.read key with
  | error f => rfl
  | ok k =>
    simp only [Except.ok_bind]
    cases r.build r.settings.fill k source <;> rfl

theorem place_refresh : r.place (.refresh key) = r.refresh key := by
  simp only [place, prepare, refresh]
  cases r.get key with
  | error f => rfl
  | ok e =>
    simp only [Except.ok_bind]
    cases r.renew e with
    | error f => rfl
    | ok e₁ => exact Except.mapError_id _

theorem place_setFill : r.place (.setFill key fill) = r.setFill key fill := by
  simp only [place, prepare, setFill]
  cases r.get key with
  | error f => rfl
  | ok e =>
    simp only [Except.ok_bind]
    cases r.build fill e.key e.source with
    | error f => rfl
    | ok e₁ => exact Except.mapError_id _

theorem place_step (hr : r.WellFormed) {op : Operation} (h : (r.place op).map Prod.snd = .ok r') :
    Step r op r' := by
  obtain ⟨⟨e, r₁⟩, hplace, rfl⟩ := Except.map_eq_ok.mp h
  obtain ⟨e₁, hprep, hplace⟩ := Except.bind_eq_ok.mp hplace
  obtain ⟨r₂, hcommit, hentry⟩ := Except.bind_eq_ok.mp (Except.mapError_eq_ok.mp hplace)
  rw [withEntry_eq_ok hentry]
  exact commit_step hr hprep hcommit

end Place

/-- An entry can be removed by force, and guarded if no other depends on it. -/
theorem perform_delete {key : String} {mode : DeleteMode} :
    r.perform (.delete key mode) = .ok r' ↔ ∃ e, r.get key = .ok e ∧
      (mode = .guarded → r.references.dependents e.name = []) ∧ r' = r.without e mode := by
  unfold perform delete
  rw [Except.map_eq_ok]
  constructor
  · rintro ⟨⟨e, r₁⟩, hdel, rfl⟩
    obtain ⟨e₁, hget, hdel⟩ := Except.bind_eq_ok.mp hdel
    by_cases hrefused : (mode = .guarded && !(r.references.dependents e₁.name).isEmpty) = true
    · rw [if_pos hrefused] at hdel
      cases hdel
    · rw [if_neg hrefused] at hdel
      cases hdel
      exact ⟨e, hget, fun hmode => by simpa [hmode] using hrefused, rfl⟩
  · rintro ⟨e, hget, hallowed, rfl⟩
    refine ⟨(e, r.without e mode), Except.bind_eq_ok.mpr ⟨e, hget, ?_⟩, rfl⟩
    have hnot : ¬ (mode = .guarded && !(r.references.dependents e.name).isEmpty) = true := by
      cases mode with
      | guarded => simp [hallowed rfl]
      | force => simp
    rw [if_neg hnot]
    rfl

theorem perform_step (hr : r.WellFormed) {op : Operation} (h : r.perform op = .ok r') :
    Step r op r' := by
  cases op with
  | set key source => exact place_step hr (place_set ▸ h)
  | refresh key => exact place_step hr (place_refresh ▸ h)
  | setFill key fill => exact place_step hr (place_setFill ▸ h)
  | delete key mode =>
    obtain ⟨e, hget, hallowed, rfl⟩ := perform_delete.mp h
    exact .delete hget hallowed
  | refreshAll =>
    change r.refreshAll = .ok r' at h
    unfold refreshAll at h
    obtain ⟨order, horder, h⟩ := Except.bind_eq_ok.mp h
    have horder := Except.mapError_eq_ok.mp horder
    obtain ⟨hnodup, hmem⟩ := order?_names horder
    obtain ⟨staged, hstaged, h⟩ := Except.bind_eq_ok.mp h
    cases h
    have hreplaced := replaceAll_eq_ok rebuilds_renew hr hnodup (fun n hn => (hmem n).mp hn) hstaged
    exact .all horder hreplaced.reindex indexed_reindex

/-! ## Runs -/

theorem Step.wellFormed {op : Operation} (hr : r.WellFormed) (h : Step r op r') :
    r'.WellFormed := by
  cases h with
  | put _ made => exact (put_wellFormed hr made).reindex
  | renew _ _ _ _ replaced => exact replaced.wellFormed
  | all _ replaced => exact replaced.wellFormed
  | delete =>
    exact ⟨fun n g hg => hr.named n g (NameMap.get?_of_get?_erase hg),
      fun n g hg => hr.regular n g (NameMap.get?_of_get?_erase hg),
      fun n g hg => hr.built n g (NameMap.get?_of_get?_erase hg),
      fun n g hg => hr.written n g (NameMap.get?_of_get?_erase hg)⟩

/-- Whatever the index was before, a successful operation leaves the one that the entries give. -/
theorem Step.indexed {op : Operation} (h : Step r op r') : r'.Indexed := by
  cases h with
  | put => exact indexed_reindex
  | renew _ _ _ _ _ indexed => exact indexed
  | delete => exact indexed_reindex
  | all _ _ indexed => exact indexed

/-- What an operation builds comes from the source that it sets, or from that of an entry. -/
theorem source_of_prepare (hr : r.WellFormed) {op : Operation} (h : r.prepare op = .ok e) :
    (∃ key, op = .set key e.source) ∨ ∃ n g, r.entries.get? n = some g ∧ g.source = e.source := by
  cases prepares_of_prepare hr h with
  | @set key _ _ _ _ made => exact .inl ⟨key, by rw [made.source_eq]⟩
  | refresh _ found made | setFill _ found made => exact .inr ⟨_, _, found, made.source_eq.symm⟩

section Preservation

variable {P : Registry → Prop} {S : Source → Prop} {op : Operation}

/-- What is kept when an entry that was made from an admitted source is put in its place is kept when
several are made again, if registered sources are admitted. -/
theorem Grows.preserves_sources
    (sources : ∀ r, P r → ∀ n e, r.entries.get? n = some e → S e.source)
    (put : ∀ r key source e, r.WellFormed → P r → S source → r.Made key source e → P (r.put e))
    (reindex : ∀ r, P r → P r.reindex) (h : Grows r r') : r.WellFormed → P r → P r' := by
  induction h with
  | refl => exact fun _ hP => hP
  | reindex _ ih => exact fun hr hP => reindex _ (ih hr hP)
  | put found made _ ih =>
    exact fun hr hP =>
      ih (put_wellFormed hr made) (put _ _ _ _ hr hP (sources _ hP _ _ found) made)

/-- What is kept when an entry that was made from an admitted source is put in its place, and when
one is removed, is kept by every successful operation that sets admitted sources only. -/
theorem Step.preserves_sources (hr : r.WellFormed) (hP : P r)
    (sources : ∀ r, P r → ∀ n e, r.entries.get? n = some e → S e.source)
    (given : ∀ key source, op = .set key source → S source)
    (put : ∀ r key source e, r.WellFormed → P r → S source → r.Made key source e → P (r.put e))
    (reindex : ∀ r, P r → P r.reindex)
    (remove : ∀ key mode e, op = .delete key mode → r.entries.get? e.name = some e →
      (mode = .guarded → r.references.dependents e.name = []) → P (r.without e mode))
    (h : Step r op r') : P r' := by
  have hput : ∀ {e key source}, r.prepare op = .ok e → r.Made key source e → P (r.put e) := by
    intro e key source prepared made
    refine put _ _ _ _ hr hP ?_ made
    rw [← made.source_eq]
    rcases source_of_prepare hr prepared with ⟨key, hop⟩ | ⟨n, g, hg, hsource⟩
    · exact given key _ hop
    · exact hsource ▸ sources r hP n g hg
  cases h with
  | put prepared made => exact reindex _ (hput prepared made)
  | renew prepared made _ _ replaced =>
    exact replaced.grows.preserves_sources sources put reindex (put_wellFormed hr made)
      (hput prepared made)
  | delete found allowed =>
    obtain ⟨n, -, hn⟩ := get_eq_ok.mp found
    exact remove _ _ _ rfl (hr.named n _ hn ▸ hn) allowed
  | all _ replaced => exact replaced.grows.preserves_sources sources put reindex hr hP

/-- What is kept when an entry that was made is put in its place, and when one is removed, is kept by
every successful operation. -/
theorem Step.preserves (hr : r.WellFormed) (hP : P r)
    (put : ∀ r key source e, r.WellFormed → P r → r.Made key source e → P (r.put e))
    (reindex : ∀ r, P r → P r.reindex)
    (remove : ∀ key mode e, op = .delete key mode → r.entries.get? e.name = some e →
      (mode = .guarded → r.references.dependents e.name = []) → P (r.without e mode))
    (h : Step r op r') : P r' :=
  h.preserves_sources (S := fun _ => True) hr hP (fun _ _ _ _ _ => trivial) (fun _ _ _ => trivial)
    (fun r key source e hr hP _ => put r key source e hr hP) reindex remove

end Preservation

theorem Step.settings_eq {op : Operation} (h : Step r op r') : r'.settings = r.settings := by
  cases h with
  | put => rfl
  | delete => rfl
  | renew _ _ _ _ replaced => exact replaced.settings_eq
  | all _ replaced => exact replaced.settings_eq

/-- What holds at the start and is kept by every successful operation holds after every run. -/
theorem run_induction {settings : Settings} {P : Registry → Prop} (start : P { settings })
    (step : ∀ r op r', r.WellFormed → r.settings = settings → P r → Step r op r' → P r') :
    ∀ ops, P (run settings ops) ∧ (run settings ops).WellFormed ∧
      (run settings ops).settings = settings := by
  intro ops
  induction ops using List.reverseRecOn with
  | nil =>
    have hnone : ∀ n e, (NameMap.empty : NameMap Entry).get? n ≠ some e := by simp
    exact ⟨start, ⟨fun n e h => absurd h (hnone n e), fun n e h => absurd h (hnone n e),
      fun n e h => absurd h (hnone n e), fun n e h => absurd h (hnone n e)⟩, rfl⟩
  | append_singleton ops op ih =>
    obtain ⟨hp, hwf, hs⟩ := ih
    have hafter : run settings (ops ++ [op]) = (run settings ops).after op := by
      simp [run, List.foldl_append]
    rw [hafter]
    unfold after
    cases hperf : (run settings ops).perform op with
    | error f => exact ⟨hp, hwf, hs⟩
    | ok r' =>
      have h := perform_step hwf hperf
      exact ⟨step _ op r' hwf hs hp h, h.wellFormed hwf, h.settings_eq.trans hs⟩

theorem run_wellFormed (settings : Settings) (ops : List Operation) :
    (run settings ops).WellFormed :=
  (run_induction (P := fun _ => True) trivial (fun _ _ _ _ _ _ _ => trivial) ops).2.1

theorem run_settings (settings : Settings) (ops : List Operation) :
    (run settings ops).settings = settings :=
  (run_induction (P := fun _ => True) trivial (fun _ _ _ _ _ _ _ => trivial) ops).2.2

/-- The index of a run is the one that its entries give: the empty one at the start, and after every
operation by `Step.indexed`; an operation that fails changes neither. -/
theorem run_indexed (settings : Settings) (ops : List Operation) : (run settings ops).Indexed :=
  (run_induction (P := Indexed) rfl (fun _ _ _ _ _ _ h => h.indexed) ops).1

theorem run_snoc (settings : Settings) (ops : List Operation) (op : Operation) :
    run settings (ops ++ [op]) = (run settings ops).after op := by
  simp [run, List.foldl_append]

theorem after_of_ok {op : Operation} (h : r.perform op = .ok r') : r.after op = r' := by
  simp [after, h]

theorem after_of_error {op : Operation} {f : Fault} (h : r.perform op = .error f) :
    r.after op = r := by
  simp [after, h]

/-- What holds at the start, and is kept when an entry that was made from an admitted source is put in
its place and when one is removed, holds after a run that is given admitted sources only. -/
theorem run_preserves_sources {settings : Settings} {ops : List Operation} {P : Registry → Prop}
    {S : Source → Prop} (start : P { settings })
    (given : ∀ key source, Operation.set key source ∈ ops → S source)
    (sources : ∀ r, P r → ∀ n e, r.entries.get? n = some e → S e.source)
    (put : ∀ r key source e, r.WellFormed → P r → S source → r.Made key source e → P (r.put e))
    (reindex : ∀ r, P r → P r.reindex)
    (remove : ∀ r mode e, r.WellFormed → P r → P (r.without e mode)) : P (run settings ops) := by
  induction ops using List.reverseRecOn with
  | nil => exact start
  | append_singleton ops op ih =>
    have hwf := run_wellFormed settings ops
    have hold := ih fun key source h => given key source (List.mem_append_left _ h)
    rw [run_snoc]
    cases hperf : (run settings ops).perform op with
    | error f =>
      rw [after_of_error hperf]
      exact hold
    | ok r' =>
      rw [after_of_ok hperf]
      refine (perform_step hwf hperf).preserves_sources hwf hold sources
        (fun key source hop => given key source (by simp [hop])) put reindex
        fun _ mode e _ _ _ => remove _ mode e hwf hold

/-- If a successful operation keeps a property exactly under a condition on it, then all registries
of a run have the property exactly if all its successful operations meet the condition. -/
theorem forall_run_iff {settings : Settings} {P : Registry → Prop}
    {Q : Registry → Operation → Prop} (start : P { settings })
    (step : ∀ r op r', r.WellFormed → r.settings = settings → P r → Step r op r' →
      (P r' ↔ Q r op)) (ops : List Operation) :
    (∀ done, done <+: ops → P (run settings done)) ↔
      ∀ done op, done ++ [op] <+: ops → (run settings done).Accepts op →
        Q (run settings done) op := by
  constructor
  · rintro hall done op hpre ⟨r', hperf⟩
    have hwf := run_wellFormed settings done
    have hP := hall (done ++ [op]) hpre
    rw [run_snoc, after_of_ok hperf] at hP
    have hdone := hall done ((List.prefix_append _ _).trans hpre)
    exact (step _ op r' hwf (run_settings _ _) hdone (perform_step hwf hperf)).mp hP
  · intro hall done
    induction done using List.reverseRecOn with
    | nil => exact fun _ => start
    | append_singleton done op ih =>
      intro hpre
      have hdone := ih ((List.prefix_append _ _).trans hpre)
      have hwf := run_wellFormed settings done
      rw [run_snoc]
      cases hperf : (run settings done).perform op with
      | error f =>
        rw [after_of_error hperf]
        exact hdone
      | ok r' =>
        rw [after_of_ok hperf]
        exact (step _ op r' hwf (run_settings _ _) hdone (perform_step hwf hperf)).mpr
          (hall done op hpre ⟨r', hperf⟩)

end Registry

end Formulary
