import Formulary.Callable.Stock
import Formulary.Proofs.Key
import Formulary.Proofs.NdArray.Fill
import Formulary.Proofs.Registry.Snapshot
import Formulary.Registry.Views

/-!
Evaluating at the defaults.

When an entry whose parameters all have defaults has been set, it can be evaluated by position, by
name and for a figure, and it can be built again; all of these give the same. The snapshot of an
entry of an expression is this result. That of a function was taken when the function was annotated,
with NaN for missing results, and has been rescaled and filled since: it is the result of a call if
the fill value of the entry is NaN. A function that marks missing elements by the fill value it is
given can fail to agree with its snapshot: a call rescales the fill value together with the rest,
and then nothing tells it from a result.
-/

namespace Formulary

open Double (filled nan)

/-! ## The key that was set -/

theorem Signature.name_of_lookupKey {s s' : Signature} (hs : isIdentifier s.name.toList = true)
    (hs' : isIdentifier s'.name.toList = true) (h : s.lookupKey = s'.lookupKey) :
    s.name = s'.name := by
  have hcut : ∀ {s : Signature}, isIdentifier s.name.toList = true →
      (cutOnce '(' s.lookupKey.toList).map Prod.fst = some s.name.toList := by
    intro s hs
    have hsplit : s.lookupKey.toList =
        s.name.toList ++ '(' :: ((joinWith "," s.params).toList ++ [')']) := by
      simp [lookupKey]
    rw [hsplit, cutOnce_append fun d hd => ?_]
    · rfl
    · rintro rfl
      exact not_mem_of_name hs (by decide) hd
  have hnames := (hcut hs).symm.trans ((congrArg (fun k => (cutOnce '(' k.toList).map Prod.fst) h).trans
    (hcut hs'))
  exact String.toList_inj.mp (Option.some.inj hnames)

namespace Registry

variable {r r' : Registry} {e e' : Entry} {op : Operation} {k : Key} {source : Source}
  {n text : String}

theorem isIdentifier_of_get? (hr : r.WellFormed) (he : r.entries.get? n = some e) :
    isIdentifier e.signature.name.toList = true := by
  have hname : e.signature.name = e.key.name := (hr.regular n e he).keyed
  rw [hname]
  exact (hr.written n e he).isIdentifier

/-- A signature is no name, since it has a parenthesis. -/
theorem not_contains_lookupKey (hr : r.WellFormed) (s : Signature) :
    ¬ r.entries.contains s.lookupKey = true := by
  intro hreg
  obtain ⟨g, hg⟩ := NameMap.contains_iff_get?.mp hreg
  have hg' := isIdentifier_of_get? hr hg
  have hgname : g.signature.name = s.lookupKey := hr.named _ g hg
  rw [hgname] at hg'
  refine not_mem_of_name (c := '(') hg' (by decide) ?_
  simp [Signature.lookupKey]

/-- The signature of an entry is that of no other. -/
theorem eq_of_lookupKey (hr : r.WellFormed) {m : String} {g : Entry} (he : r.entries.get? n = some e)
    (hg : r.entries.get? m = some g) (h : g.signature.lookupKey = e.signature.lookupKey) : m = n := by
  have hsame := Signature.name_of_lookupKey (isIdentifier_of_get? hr hg) (isIdentifier_of_get? hr he) h
  exact (hr.named m g hg).symm.trans (hsame.trans (hr.named n e he))

/-- The index has the signature of every entry, and the name of the entry under it: no signature is a
name, so none is left out, and no two entries share one, so none is overwritten. -/
theorem get?_index_lookupKey (hr : r.WellFormed) (he : r.entries.get? n = some e) :
    (index r.entries).get? e.signature.lookupKey = some n := by
  have hne : e.signature.lookupKey ≠ n := fun heq =>
    not_contains_lookupKey hr e.signature (heq ▸ NameMap.contains_iff_get?.mpr ⟨e, he⟩)
  obtain ⟨m, hm⟩ := exists_get?_index he hne
  obtain ⟨g, hg, hkey⟩ := get?_of_index hm
  rw [hm, eq_of_lookupKey hr he hg hkey]

/-- An entry is found under its name and under its signature, which no other entry has. -/
theorem nameOf?_of_plainKey (hr : r.WellFormed) (hindex : r.Indexed) (he : r.entries.get? n = some e)
    (h : plainKey text = n ∨ plainKey text = e.signature.lookupKey) : r.nameOf? text = some n := by
  unfold nameOf?
  rcases h with h | h
  · have hreg : r.entries.contains n = true := NameMap.contains_iff_get?.mpr ⟨e, he⟩
    simp only [h, hreg, ite_true]
  · simp only [h]
    rw [if_neg (not_contains_lookupKey hr _), hindex, get?_index_lookupKey hr he]

/-- An entry is found under a key that was read, if the key lists no arguments or its parameters. -/
theorem nameOf?_of_read (hr : r.WellFormed) (hindex : r.Indexed) (hk : Key.read text = .ok k)
    (he : r.entries.get? k.name = some e) (hargs : ∀ args, k.args = some args → e.params = args) :
    r.nameOf? text = some k.name := by
  have hname : e.signature.name = k.name := hr.named k.name e he
  refine nameOf?_of_plainKey hr hindex he ?_
  rw [Key.plainKey_of_read hk, Key.signatureKey]
  cases hlisted : k.args with
  | none => exact .inl rfl
  | some args =>
    right
    rw [Option.map_some, Option.getD_some, Signature.lookupKey, hname, ← hargs args hlisted, Entry.params]

/-! ## What has been put in its place -/

/-- An entry stands in its place, and nothing that its text mentions has changed. -/
structure Placed (r : Registry) (e : Entry) (r' : Registry) : Prop where
  wellFormed : r'.WellFormed
  indexed : r'.Indexed
  standing : r'.entries.get? e.name = some e
  agrees : ∀ d ∈ e.mentions, r'.entries.get? d = r.entries.get? d
  settings_eq : r'.settings = r.settings
  retired_eq : r'.stamps.retired = r.stamps.retired

theorem Placed.put (hr : r.WellFormed) (hmade : r.Made k source e) :
    r.Placed e (r.put e).reindex where
  wellFormed := (put_wellFormed hr hmade).reindex
  indexed := indexed_reindex
  standing := by rw [reindex_entries, get?_put, if_pos rfl]
  agrees d hd := by
    rw [reindex_entries, get?_put, if_neg]
    rintro rfl
    exact hmade.foreign hd
  settings_eq := rfl
  retired_eq := rfl

/-- What an operation builds stands in its place after it. -/
theorem Step.placed (hr : r.WellFormed) (hprep : r.prepare op = .ok e) (h : Step r op r') :
    r.Placed e r' := by
  cases h with
  | put prepared made =>
    obtain rfl := Except.ok.inj (prepared.symm.trans hprep)
    exact .put hr made
  | @renew _ e₁ key source order _ prepared made _ ordered replaced indexed =>
    obtain rfl := Except.ok.inj (prepared.symm.trans hprep)
    obtain ⟨-, -, hstanding, hagrees, -, -⟩ := Placed.put hr made
    simp only [reindex_entries] at hstanding hagrees
    refine ⟨replaced.wellFormed, indexed, ?_, fun d hd => ?_, replaced.settings_eq,
      replaced.retired_eq⟩
    · rw [replaced.kept _ (not_mem_renewed made ordered (.inl rfl)), hstanding]
    · rw [← hagrees d hd]
      by_cases hreg : d ∈ r.entries.names
      · exact replaced.kept d (not_mem_renewed made ordered (.inr ((made.depends d).mpr ⟨hd, hreg⟩)))
      · -- what is not registered is not built again
        refine replaced.kept d fun hmem => hreg ?_
        have hnames := ((order?_names ordered).2 d).mp (List.mem_filter.mp hmem).1
        obtain ⟨g, hg⟩ := NameMap.get?_of_mem_names hnames
        rw [hagrees d hd] at hg
        exact NameMap.mem_names_of_get? hg
  | delete => cases hprep
  | all => cases hprep

/-- What has been committed is found. -/
theorem withEntry_of_commit (hr : r.WellFormed) (hprep : r.prepare op = .ok e)
    (h : r.commit e = .ok r') : r'.withEntry e.name = .ok (e, r') := by
  rw [withEntry, ((commit_step hr hprep h).placed hr hprep).standing]

/-- Putting an entry in its place succeeds with the entry built if that can be committed. -/
theorem place_eq_ok (hr : r.WellFormed) :
    r.place op = .ok (e, r') ↔ r.prepare op = .ok e ∧ r.commit e = .ok r' := by
  unfold place
  rw [Except.bind_eq_ok]
  constructor
  · rintro ⟨e₁, hprep, h⟩
    obtain ⟨r₁, hcommit, h⟩ := Except.bind_eq_ok.mp (Except.mapError_eq_ok.mp h)
    rw [withEntry_of_commit hr hprep hcommit] at h
    cases h
    exact ⟨hprep, hcommit⟩
  · rintro ⟨hprep, hcommit⟩
    exact ⟨e, hprep, Except.mapError_eq_ok.mpr
      (Except.bind_eq_ok.mpr ⟨r', hcommit, withEntry_of_commit hr hprep hcommit⟩)⟩

/-- Setting a key builds an entry and puts it in its place. -/
theorem set_eq_ok (hr : r.WellFormed) (h : r.set text source = .ok (e, r')) :
    ∃ k, Key.read text = .ok k ∧ r.build r.settings.fill k source = .ok e ∧ r.Made k source e ∧
      r.Placed e r' ∧ Step r (.set text source) r' := by
  rw [← place_set] at h
  obtain ⟨hprep, hcommit⟩ := (place_eq_ok hr).mp h
  have hstep := commit_step hr hprep hcommit
  have hplaced := hstep.placed hr hprep
  obtain ⟨k, hk, hbuild⟩ := Except.bind_eq_ok.mp hprep
  have hbuild := Except.mapError_eq_ok.mp hbuild
  exact ⟨k, hk, hbuild, build_made hr ⟨_, hk⟩ hbuild, hplaced, hstep⟩

end Registry

/-! ## Calls without arguments -/

namespace Arguments

variable {callee : String} {params : List String} {defaults : NameMap NdArray} {bound : List NdArray}

theorem byPosition_nil : byPosition callee params defaults [] = params.mapM (default callee defaults) := by
  unfold byPosition
  rw [List.length_nil, if_neg (Nat.not_lt_zero _)]
  change (params.mapM (default callee defaults) >>= fun rest => .ok ([] ++ rest)) = _
  cases params.mapM (default callee defaults) <;> rfl

theorem byName_empty : byName callee params defaults .empty = byPosition callee params defaults [] := by
  rw [byPosition_nil]
  rfl

/-- Binding gives back what has been bound. -/
theorem byPosition_bound (h : bound.length = params.length) :
    byPosition callee params defaults bound = .ok bound := by
  unfold byPosition
  rw [if_neg (by omega), List.drop_eq_nil_of_le (by omega)]
  change Except.ok (bound ++ []) = _
  rw [List.append_nil]

/-- Where every parameter has a default, all callees are given the same. -/
theorem exists_defaults (h : allDefaulted params defaults = true) :
    ∃ bound, ∀ callee, byPosition callee params defaults [] = .ok bound := by
  have hvalues : ∀ p ∈ params, ∃ value, defaults.get? p = some value := fun p hp =>
    NameMap.contains_iff_get?.mp (List.all_eq_true.mp h p hp)
  simp only [byPosition_nil]
  clear h
  induction params with
  | nil => exact ⟨[], fun _ => rfl⟩
  | cons p params ih =>
    obtain ⟨value, hvalue⟩ := hvalues p (by simp)
    obtain ⟨bound, hbound⟩ := ih fun q hq => hvalues q (List.mem_cons_of_mem _ hq)
    refine ⟨value :: bound, fun callee => ?_⟩
    rw [List.mapM_cons, default, hvalue, hbound callee]
    rfl

end Arguments

namespace Entry

variable {e e' : Entry} {retired : List Stamp} {bound args : List NdArray}

/-- Without overrides, a call by name is a call without arguments. -/
theorem callNamed_empty (e : Entry) (retired : List Stamp) :
    e.callNamed retired .empty = e.call retired [] := by
  rw [callNamed, call, Arguments.byName_empty]

theorem call_of_bound (hbound : ∀ callee, Arguments.byPosition callee e.params e.defaults [] = .ok bound) :
    e.call retired bound = e.call retired [] := by
  rw [call, call, hbound, Arguments.byPosition_bound (Arguments.length_byPosition (hbound e.name))]

/-- Without overrides, a trace has the result of a call without arguments. -/
theorem trace_empty (h : Arguments.allDefaulted e.params e.defaults = true) :
    (e.trace retired .empty).map Trace.result = e.call retired [] := by
  obtain ⟨bound, hbound⟩ := Arguments.exists_defaults h
  unfold trace
  rw [Arguments.byName_empty, hbound, Except.ok_bind, call_of_bound hbound]
  cases e.call retired [] <;> rfl

theorem atDefaults_eq (h : Arguments.allDefaulted e.params e.defaults = true) :
    e.atDefaults retired = (e.call retired []).toOption := if_pos h

/-- Live entries that differ at most in stamp and snapshot answer calls alike. -/
theorem SameSnapshot.call_eq (h : e.SameSnapshot e') (hfill : e'.fill = e.fill)
    (hlive : e.stamp ∉ retired) (hlive' : e'.stamp ∉ retired) : e'.call retired args = e.call retired args := by
  have hname : e'.name = e.name := congrArg Signature.name h.signature_eq
  have hparams : e'.params = e.params := congrArg Signature.params h.signature_eq
  have hdefaults : e'.defaults = e.defaults := congrArg Callable.defaults h.callable_eq
  rw [call, call, Handle.call_of_live (h := e.handle) hlive,
    Handle.call_of_live (h := e'.handle) hlive', handle, handle, hname, hparams, hdefaults, hfill,
    h.callable_eq]

end Entry

/-! ## Functions and the fill value -/

/-- Both outcomes are faults, or the second is the first with the fill value in the place of some
missing elements. -/
inductive Marked (fill : Float) : Except Fault NdArray → Except Fault NdArray → Prop
  | value {a b : NdArray} (h : a.Marks fill b) : Marked fill (.ok a) (.ok b)
  | fault (f g : Fault) : Marked fill (.error f) (.error g)

/-- What the callable gives for another fill value than NaN differs only by that value in the place
of missing elements. -/
def Callable.MarksMissing (c : Callable) (retired : List Stamp) : Prop :=
  ∀ fill args, Marked fill (c.run ⟨nan, retired⟩ args) (c.run ⟨fill, retired⟩ args)

namespace Stock

/-- Interpolation marks what lies outside its grid. -/
theorem marksMissing_interpolator (params : List String) (defaults : NameMap NdArray)
    (grid values : Array Float) (retired : List Stamp) :
    (Callable.host (interpolator params defaults grid values)).MarksMissing retired := fun fill args => by
  rw [Callable.run_host, Callable.run_host]
  cases Callable.checkCount (interpolator params defaults grid values).callee
      (interpolator params defaults grid values).params args with
  | error f => exact .fault f f
  | ok _ =>
    refine .value ⟨rfl, ?_⟩
    rw [NdArray.map, NdArray.map, Array.toList_map, Array.toList_map, List.forall₂_map_left_iff,
      List.forall₂_map_right_iff, List.forall₂_same]
    intro x _
    unfold interpolate
    simp only
    split
    · exact .inl rfl
    · exact .inr ⟨Double.isNaN_nan, rfl⟩

end Stock

namespace NdArray

/-- Rescaling and filling make up for marks just if there are none, or the rescaled fill value is
filled like a missing element. -/
theorem Marks.scaledBy_iff {a b : NdArray} {fill : Float} (h : a.Marks fill b) (factor : Option Float) :
    (a.scaledBy factor).fillNaN fill = (b.scaledBy factor).fillNaN fill ↔
      a = b ∨ filled fill (factor.elim fill (fill * ·)) = fill := by
  cases factor with
  | some x => exact h.map_fillNaN_iff fun y hy => Double.isNaN_mul hy x
  | none =>
    have hmap : ∀ x : NdArray, x.map id = x := fun x => eq_of_toList rfl (by simp [map])
    have := h.map_fillNaN_iff (f := id) fun y hy => hy
    rwa [hmap, hmap] at this

end NdArray

namespace Entry

variable {context : BuildContext} {key : Key} {e : Entry} {f : Annotated} {factor : Option Float}
  {retired : List Stamp}

theorem run_scaledBy (c : Callable) (factor : Option Float) (fill : Float) (args : List NdArray) :
    (c.scaledBy factor).run ⟨fill, retired⟩ args =
      (c.run ⟨fill, retired⟩ args).map fun a => a.scaledBy factor := by
  cases factor with
  | some x => exact Callable.run_rescaled _ _ _ _
  | none =>
    change c.run ⟨fill, retired⟩ args = _
    cases c.run ⟨fill, retired⟩ args <;> rfl

theorem toOption_map {α β : Type} (g : α → β) (x : Except Fault α) :
    (x.map g).toOption = x.toOption.map g := by
  cases x <;> rfl

/-- The snapshot of a function, and its result at the defaults: both rescaled and filled, but the
first was taken with NaN for missing elements. -/
theorem snapshot_of_wrap (h : wrap context key f = .ok e) (hlive : e.stamp ∉ retired)
    (hall : Arguments.allDefaulted e.params e.defaults = true)
    (hdata : f.data = Annotated.snapshot f.callable retired) : ∃ factor, rescaling key f = .ok factor ∧
      e.data = (f.call ⟨nan, retired⟩ []).toOption.map (fun a => (a.scaledBy factor).fillNaN e.fill) ∧
      (e.call retired []).toOption =
        (f.call ⟨e.fill, retired⟩ []).toOption.map fun a => (a.scaledBy factor).fillNaN e.fill := by
  have hw := wrapped_of_wrap h
  obtain ⟨factor, hfactor, hcallable, hsnapshot⟩ := hw.scaled
  have hparams : e.params = f.callable.params := by rw [params, hw.signature_eq]
  have hdefaults : e.defaults = f.callable.defaults := by
    rw [defaults, hcallable]
    cases factor <;> rfl
  rw [hparams, hdefaults] at hall
  obtain ⟨bound, hbound⟩ := Arguments.exists_defaults hall
  have hcall : ∀ fill, f.call ⟨fill, retired⟩ [] = f.callable.run ⟨fill, retired⟩ bound := fun fill => by
    rw [Annotated.call, hbound, Except.ok_bind]
  refine ⟨factor, hfactor, ?_, ?_⟩
  · rw [hsnapshot, hdata, hw.fill_eq, Annotated.snapshot, if_pos hall]
    rfl
  · rw [call, Handle.call_of_live (h := e.handle) hlive, hparams, hdefaults, hbound, Except.ok_bind,
      hcallable, run_scaledBy, toOption_map, toOption_map, Option.map_map, hcall]
    rfl

/-- The snapshot of a function is its result at the defaults if the fill value is NaN. If the function
marks missing elements, it is so just if none is marked, or the rescaled fill value is filled like a
missing element. -/
theorem snapshot_agrees_iff (h : wrap context key f = .ok e) (hlive : e.stamp ∉ retired)
    (hall : Arguments.allDefaulted e.params e.defaults = true)
    (hdata : f.data = Annotated.snapshot f.callable retired) :
    (e.fill.isNaN = true → e.data = (e.call retired []).toOption) ∧
    (f.callable.MarksMissing retired → ∃ factor, rescaling key f = .ok factor ∧
      (e.data = (e.call retired []).toOption ↔
        (f.call ⟨nan, retired⟩ []).toOption = (f.call ⟨e.fill, retired⟩ []).toOption ∨
          filled e.fill (factor.elim e.fill (e.fill * ·)) = e.fill)) := by
  obtain ⟨factor, hfactor, hsnapshot, hresult⟩ := snapshot_of_wrap h hlive hall hdata
  rw [hsnapshot, hresult]
  refine ⟨fun hnan => by rw [Double.eq_nan_of_isNaN hnan], fun hmarks => ⟨factor, hfactor, ?_⟩⟩
  have hmarked : Marked e.fill (f.call ⟨nan, retired⟩ []) (f.call ⟨e.fill, retired⟩ []) := by
    unfold Annotated.call
    cases Arguments.byPosition Annotated.callee f.callable.params f.callable.defaults [] with
    | error f => exact .fault f f
    | ok bound => exact hmarks e.fill bound
  generalize f.call ⟨nan, retired⟩ [] = x at hmarked
  generalize f.call ⟨e.fill, retired⟩ [] = y at hmarked
  cases hmarked with
  | fault => exact iff_of_true rfl (.inl rfl)
  | value hmarked =>
    change some _ = some _ ↔ some _ = some _ ∨ _
    rw [Option.some.injEq, Option.some.injEq]
    exact hmarked.scaledBy_iff factor

end Entry

namespace Registry

variable {r r' : Registry} {e e' : Entry} {op : Operation} {k : Key} {source : Source}
  {n text : String}

/-- Evaluating for a figure without overrides gives the result of a call without arguments. -/
theorem figure_single (hkey : r.nameOf? text = some n) (he : r.entries.get? n = some e)
    (h : Arguments.allDefaulted e.params e.defaults = true) :
    (r.figure (.ofList [(text, .empty)])).map (List.map Trace.result) =
      (e.call r.stamps.retired []).map fun v => [v] := by
  have hlist : (NameMap.ofList [(text, (NameMap.empty : NameMap NdArray))]).toList = [(text, .empty)] := rfl
  unfold figure
  rw [hlist, List.mapM_cons, List.mapM_nil, ← Entry.trace_empty h]
  simp only [get_eq_ok.mpr ⟨n, hkey, he⟩, Except.ok_bind]
  cases e.trace r.stamps.retired .empty <;> rfl

/-! ## Building again -/

theorem derive_data {context : BuildContext} (h : Entry.derive context k text = .ok e) :
    e.data = e.atDefaults context.retired :=
  (Entry.derived_of_derive h).data_eq

/-- An entry that has been put in its place can be built again, and is what it was; its snapshot is
its result at the defaults. -/
theorem Placed.renew {fill : Float} (h : r.Placed e r') (hmade : r.Made k source e)
    (hbuild : r.build fill k source = .ok e) : ∃ e', r'.renew e = .ok e' ∧ e.SameSnapshot e' ∧
      e'.fill = e.fill ∧ e'.stamp = r'.stamps.next ∧ e'.data = e'.atDefaults r'.stamps.retired := by
  have hagree : ∀ d ∈ source.mentions k, r'.entries.get? d = r.entries.get? d := fun d hd =>
    h.agrees d (by rwa [hmade.mentions_eq])
  obtain ⟨e₁, hagain, hsame⟩ := Entry.build_of_agrees
    ⟨r'.entries, r'.settings.freeParameters, e.fill, r'.stamps.next, r'.stamps.retired⟩ hbuild
    (congrArg Settings.freeParameters h.settings_eq) hagree
  have hfill : e₁.fill = e.fill := Entry.fill_of_build hagain
  have hstamp : e₁.stamp = r'.stamps.next := (Entry.build_eq_ok h.wellFormed.named hagain).stamp_eq
  have hrebuild : r'.rebuild e = .ok e₁ := by
    rw [rebuild, hmade.key_eq, hmade.source_eq]
    exact hagain
  rw [Registry.renew, hrebuild, Except.ok_bind]
  by_cases hderived : e₁.isDerived = true
  · refine ⟨e₁, congrArg Except.ok (if_pos hderived), hsame, hfill, hstamp, ?_⟩
    obtain ⟨t, rfl⟩ := Entry.exists_text_of_build hagain hderived
    exact derive_data hagain
  · exact ⟨_, congrArg Except.ok (if_neg hderived), hsame.trans rfl, hfill, hstamp, rfl⟩

/-- Refreshing builds the entry of a key again and puts it in its place. -/
theorem refresh_eq_ok (hr : r.WellFormed) (hkey : r.nameOf? text = some n)
    (he : r.entries.get? n = some e) (hrenew : r.renew e = .ok e') {p : Entry × Registry}
    (h : r.refresh text = .ok p) : p.1 = e' ∧ r.Placed e' p.2 := by
  have hprep : r.prepare (.refresh text) = .ok e' :=
    Except.bind_eq_ok.mpr ⟨e, get_eq_ok.mpr ⟨n, hkey, he⟩, hrenew⟩
  rw [← place_refresh] at h
  obtain ⟨hprep', hcommit⟩ := (place_eq_ok hr).mp h
  obtain rfl := Except.ok.inj (hprep.symm.trans hprep')
  exact ⟨rfl, (commit_step hr hprep hcommit).placed hr hprep⟩

/-- An entry with the dependencies of the one whose place it takes refers to the same entries. -/
theorem put_refers_of_same (he : r.entries.get? e'.name = some e)
    (hdeps : e'.dependencies = e.dependencies) {a b : String} (h : (r.put e').Refers a b) :
    r.Refers a b := by
  obtain ⟨g, hg, hb, hreg⟩ := refers_iff.mp h
  have hnames : (r.put e').entries.names = r.entries.names :=
    NameMap.names_insert_of_mem _ (NameMap.mem_names_of_get? he)
  rw [hnames] at hreg
  rw [get?_put] at hg
  split at hg
  · rename_i ha
    cases hg
    exact refers_iff.mpr ⟨e, ha ▸ he, hdeps ▸ hb, hreg⟩
  · exact refers_iff.mpr ⟨g, hg, hb, hreg⟩

/-- Under the stale policy, an entry that can be built again with the same dependencies can be
refreshed, if the entries can be ordered. -/
theorem refresh_of_stale (hstale : r.settings.refresh = .stale)
    (horder : ∃ order, r.graph.order? = .ok order) (hkey : r.nameOf? text = some e'.name)
    (he : r.entries.get? e'.name = some e) (hrenew : r.renew e = .ok e')
    (hdeps : e'.dependencies = e.dependencies) : ∃ p, r.refresh text = .ok p := by
  have hclosed : ∀ r : Registry, r.graph.Closed := fun _ => DependencyGraph.closed_restrict
  obtain ⟨order, horder⟩ := (DependencyGraph.exists_order?_iff (hclosed (r.put e'))).mpr
    (((DependencyGraph.exists_order?_iff (hclosed _)).mp horder).mono fun _ _ =>
      put_refers_of_same he hdeps)
  have hcommit : r.commit e' = .ok (r.put e').reindex := by
    unfold commit stage
    simp only [horder, hstale]
    rfl
  refine ⟨(e', (r.put e').reindex), ?_⟩
  unfold refresh
  rw [get_eq_ok.mpr ⟨_, hkey, he⟩, Except.ok_bind, hrenew, Except.ok_bind, hcommit, Except.ok_bind,
    withEntry, reindex_entries, get?_put, if_pos rfl]

/-! ## The result at the defaults -/

/-- When an entry whose parameters all have defaults has been set, it is found under its key, and its
result at the defaults is the same by position, by name and in a figure, and is the snapshot that
refreshing it takes; under the stale policy it can be refreshed. It is the snapshot of an entry of an
expression. It is that of a function, if the function was annotated with what the same entries gave,
whenever the fill value is NaN; and if the function marks missing elements, just if none is marked or
the rescaled fill value is filled like a missing element. -/
theorem defaults_agree (settings : Settings) (ops : List Operation) {text : String} {source : Source}
    {e : Entry} {r' : Registry} (h : (run settings ops).set text source = .ok (e, r'))
    (hall : Arguments.allDefaulted e.params e.defaults = true) :
    r'.get text = .ok e ∧
    r'.evaluateNamed text .empty = r'.evaluate text [] ∧
    (r'.figure (.ofList [(text, .empty)])).map (List.map Trace.result) =
      (r'.evaluate text []).map (fun v => [v]) ∧
    (∀ e' r'', r'.refresh text = .ok (e', r'') →
      r''.get text = .ok e' ∧ e'.data = (r'.evaluate text []).toOption) ∧
    (settings.refresh = .stale → ∃ p, r'.refresh text = .ok p) ∧
    (∀ t, source = .expression t → e.data = (r'.evaluate text []).toOption) ∧
    ∀ f, source = .function f → f.data = Annotated.snapshot f.callable r'.stamps.retired →
      (e.fill.isNaN = true → e.data = (r'.evaluate text []).toOption) ∧
      (f.callable.MarksMissing r'.stamps.retired → ∃ factor, Entry.rescaling e.key f = .ok factor ∧
        (e.data = (r'.evaluate text []).toOption ↔
          (f.call ⟨nan, r'.stamps.retired⟩ []).toOption =
              (f.call ⟨e.fill, r'.stamps.retired⟩ []).toOption ∨
            filled e.fill (factor.elim e.fill (e.fill * ·)) = e.fill)) := by
  have hwf := run_wellFormed settings ops
  obtain ⟨k, hk, hbuild, hmade, hplaced, hstep⟩ := set_eq_ok hwf h
  -- the entry is live, and so is what a refresh makes of it
  have hperf : (run settings ops).perform (.set text source) = .ok r' :=
    Except.map_eq_ok.mpr ⟨_, h, rfl⟩
  have hrun : run settings (ops ++ [.set text source]) = r' := by
    rw [run_snoc, after_of_ok hperf]
  obtain ⟨log, hlog⟩ := run_recorded settings (ops ++ [.set text source])
  rw [hrun] at hlog
  have hlive := hlog.live _ e hplaced.standing
  have hfound : ∀ {r : Registry} {g : Entry}, r.WellFormed → r.Indexed →
      r.entries.get? e.name = some g → g.params = e.params → r.nameOf? text = some e.name := by
    intro r g hr hindex hg hparams
    rw [hmade.name_eq] at hg ⊢
    exact nameOf?_of_read hr hindex hk hg fun args hargs => hparams.trans (hmade.args_eq args hargs)
  have hkey := hfound hplaced.wellFormed hplaced.indexed hplaced.standing rfl
  obtain ⟨e', hrenew, hsame, hfill, hstamp, hdata⟩ := hplaced.renew hmade hbuild
  have hlive' : e'.stamp ∉ r'.stamps.retired := fun hs =>
    absurd (hlog.spent _ hs) (by rw [hstamp]; exact Nat.lt_irrefl _)
  have hname : e'.name = e.name := congrArg Signature.name hsame.signature_eq
  have hparams : e'.params = e.params := congrArg Signature.params hsame.signature_eq
  have hall' : Arguments.allDefaulted e'.params e'.defaults = true := by
    rwa [hparams, Entry.defaults, hsame.callable_eq]
  have hevaluate : r'.evaluate text [] = e.call r'.stamps.retired [] :=
    evaluate_eq hkey hplaced.standing []
  rw [hevaluate]
  refine ⟨get_eq_ok.mpr ⟨_, hkey, hplaced.standing⟩, ?_, ?_, fun e'' r'' hrefresh => ?_, fun hstale => ?_,
    fun t ht => ?_, fun f hf hannotated => ?_⟩
  · rw [evaluateNamed_eq hkey hplaced.standing, Entry.callNamed_empty]
  · exact figure_single hkey hplaced.standing hall
  · obtain ⟨rfl, hagain⟩ := refresh_eq_ok hplaced.wellFormed hkey hplaced.standing hrenew hrefresh
    have hstanding := hagain.standing
    rw [hname] at hstanding
    refine ⟨get_eq_ok.mpr ⟨_, hfound hagain.wellFormed hagain.indexed hstanding hparams, hstanding⟩, ?_⟩
    rw [hdata, Entry.atDefaults_eq hall', hsame.call_eq hfill hlive hlive']
  · cases hstep with
    | @put _ e₁ _ _ order prepared _ stale ordered =>
      have hprep : (run settings ops).prepare (.set text source) = .ok e :=
        Except.bind_eq_ok.mpr ⟨k, hk, Except.mapError_eq_ok.mpr hbuild⟩
      obtain rfl := Except.ok.inj (prepared.symm.trans hprep)
      rw [← hname] at hkey
      exact refresh_of_stale stale ⟨order, ordered⟩ hkey (hname ▸ hplaced.standing) hrenew
        hsame.dependencies_eq
    | renew _ _ eager =>
      rw [run_settings, hstale] at eager
      cases eager
  · subst ht
    rw [derive_data hbuild, Entry.atDefaults_eq hall, hplaced.retired_eq]
  · subst hf
    rw [hmade.key_eq]
    exact Entry.snapshot_agrees_iff hbuild hlive hall hannotated

/-- Interpolation on a grid that the default of its argument lies outside of, in metres. -/
def outsideGrid : Annotated :=
  .make (.host (Stock.interpolator ["x"] (.ofList [("x", .scalar 5)]) #[0, 1] #[0, 1]))
    { units := some "m" } []

/-- The fill value -1. -/
def markedNegative : Settings := { fill := -1 }

/-- Without another unit in the key, the snapshot has the fill value, and so has the result. -/
theorem defaults_agree_outside_grid : ∃ e r',
    (run markedNegative []).set "f(x)" (.function outsideGrid) = .ok (e, r') ∧
      e.data = (r'.evaluate "f(x)" []).toOption ∧
      r'.evaluateNamed "f(x)" .empty = r'.evaluate "f(x)" [] ∧ ∃ p, r'.refresh "f(x)" = .ok p := by
  have hset : ((run markedNegative []).set "f(x)" (.function outsideGrid)).toOption.map
      (fun p => (Arguments.allDefaulted p.1.params p.1.defaults, p.1.key.unit.isSome)) =
        some (true, false) := by decide +kernel
  obtain ⟨⟨e, r'⟩, hset, hshown⟩ := Option.map_eq_some_iff.mp hset
  have hset := Except.toOption_eq_some.mp hset
  obtain ⟨hall, hunit⟩ := Prod.mk.inj hshown
  obtain ⟨-, hnamed, -, -, hrefresh, -, hfunction⟩ := defaults_agree markedNegative [] hset hall
  refine ⟨e, r', hset, ?_, hnamed, hrefresh rfl⟩
  obtain ⟨factor, hfactor, hiff⟩ := (hfunction outsideGrid rfl rfl).2
    (Stock.marksMissing_interpolator _ _ _ _ _)
  refine hiff.mpr (.inr ?_)
  obtain ⟨native, -, hfactor⟩ := Except.bind_eq_ok.mp hfactor
  rw [Option.not_isSome_iff_eq_none.mp (Bool.eq_false_iff.mp hunit)] at hfactor
  cases hfactor
  exact Double.filled_self _

/-- In centimetres, the snapshot has the fill value where a call has a hundred times it. -/
theorem rescaled_mark_differs : ∃ e r',
    (run markedNegative []).set "f(x) [cm]" (.function outsideGrid) = .ok (e, r') ∧
      Arguments.allDefaulted e.params e.defaults = true ∧
      e.data.map (fun v => v.data.toList) = some [-1] ∧
      (r'.evaluate "f(x) [cm]" []).toOption.map (fun v => v.data.toList) = some [-100] ∧
      e.data ≠ (r'.evaluate "f(x) [cm]" []).toOption := by
  have hset : ((run markedNegative []).set "f(x) [cm]" (.function outsideGrid)).toOption.map
      (fun p => (Arguments.allDefaulted p.1.params p.1.defaults, p.1.data.map (fun v => v.data.toList),
        (p.2.evaluate "f(x) [cm]" []).toOption.map (fun v => v.data.toList))) =
          some (true, some [-1], some [-100]) := by decide +kernel
  obtain ⟨⟨e, r'⟩, hset, hshown⟩ := Option.map_eq_some_iff.mp hset
  obtain ⟨hall, hshown⟩ := Prod.mk.inj hshown
  obtain ⟨hdata, hresult⟩ := Prod.mk.inj hshown
  refine ⟨e, r', Except.toOption_eq_some.mp hset, hall, hdata, hresult, fun heq => ?_⟩
  rw [← heq] at hresult
  have hdiffer : (some [-1] : Option (List Float)) ≠ some [-100] := by decide +kernel
  exact hdiffer (hdata.symm.trans hresult)

end Registry

end Formulary
