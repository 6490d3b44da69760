import Formulary.Proofs.Entry.Canonical
import Formulary.Proofs.Registry.Current
import Formulary.Proofs.Registry.History

/-!
What a delete does to the entries that remain.

A forced delete retires the entry that is removed. What uses it gives no value any more, until it is
built again; nothing else is touched. Which entry a dependent holds is decided when it is built. If
the name has been set again since, it holds an older entry, which the delete leaves live. And an
entry that no registered one refers to may still be used, through one that was replaced. Where all
handles are current, the names that entries refer to tell what is touched.
-/

namespace Formulary

open Term (FailsWith)

/-- Running the callable on the arguments comes to a call of what it holds under the name. -/
def Callable.Reaches (c : Callable) (retired : List Stamp) (args : List NdArray) (name : String) :
    Prop :=
  ∃ d entries, c = .compiled d entries ∧
    Term.Reaches (d.environment entries retired args) name d.expression

namespace Callable

variable {c : Callable} {retired : List Stamp} {s : Stamp}

/-- What uses an entry holds a handle. -/
theorem Uses.handles_ne_nil (h : c.Uses retired s) : c.handles ≠ [] := by
  induction h with
  | applied _ held _ =>
    exact List.ne_nil_of_mem (mem_handlesAll (.inl rfl) (mem_of_target? held))
  | through _ held _ _ _ =>
    exact List.ne_nil_of_mem (mem_handlesAll (.inl rfl) (mem_of_target? held))
  | rescaled _ ih => exact ih

end Callable

namespace Entry

variable {e : Entry} {retired : List Stamp} {s : Stamp}

/-- Retiring another entry changes nothing for an entry that does not use it. -/
theorem call_of_not_uses (hs : e.stamp ≠ s) (h : ¬ e.callable.Uses retired s) :
    e.call (s :: retired) = e.call retired ∧ e.callNamed (s :: retired) = e.callNamed retired := by
  have hrun : e.callable.run ⟨e.fill, s :: retired⟩ = e.callable.run ⟨e.fill, retired⟩ :=
    funext (e.callable.run_of_not_uses h e.fill)
  have hcall : ∀ bound, e.handle.call (s :: retired) bound (fun context => e.callable.run context) =
      e.handle.call retired bound fun context => e.callable.run context :=
    fun bound => Handle.call_congr hs hrun
  exact ⟨funext fun args => hcall _, funext fun given => hcall _⟩

/-- An entry that uses a retired one gives no value. -/
theorem call_of_uses {retired' : List Stamp} (h : e.callable.Uses retired s) (hs : s ∈ retired') :
    (∀ args v, e.call retired' args ≠ .ok v) ∧ ∀ given v, e.callNamed retired' given ≠ .ok v := by
  constructor
  · intro args v hcall
    obtain ⟨-, bound, w, -, hrun⟩ := Handle.call_eq_ok hcall
    exact Callable.run_of_uses h hs _ bound w hrun
  · intro given v hcall
    obtain ⟨-, bound, w, -, hrun⟩ := Handle.call_eq_ok hcall
    exact Callable.run_of_uses h hs _ bound w hrun

/-- Where running an entry on what was bound comes to a retired one, the call does not know a
symbol. -/
theorem failsWith_of_reaches {bound : Except Fault (List NdArray)} {args : List NdArray}
    {a : String} {p : Handle × Callable} (hbound : bound = .ok args)
    (hcount : args.length = e.callable.params.length) (htarget : e.callable.target? a = some p)
    (hs : p.1.stamp ∈ retired) (hreach : e.callable.Reaches retired args a) :
    FailsWith "UNKNOWN_SYMBOL"
      (e.handle.call retired bound fun context => e.callable.run context) := by
  obtain ⟨d, entries, hc, hreach⟩ := hreach
  by_cases hretired : e.handle.stamp ∈ retired
  · rw [Handle.call_of_retired hretired]
    exact ⟨_, rfl, rfl⟩
  · rw [hc] at htarget hcount
    obtain ⟨f, hf, hcode⟩ := Callable.run_of_reaches e.handle.fill htarget hs hcount hreach
    rw [Handle.call_of_live hretired, hbound, Except.ok_bind, hc, hf]
    exact ⟨f, rfl, hcode⟩

end Entry

namespace Registry

variable {r r' : Registry} {b e g : Entry} {t : Term} {a n key : String} {op : Operation}

theorem get?_of_nameOf? (hindex : r.Indexed) (h : r.nameOf? key = some n) :
    ∃ e, r.entries.get? n = some e := by
  unfold nameOf? at h
  simp only at h
  split at h
  · rename_i hc
    cases h
    exact NameMap.contains_iff_get?.mp hc
  · rw [hindex] at h
    exact (get?_of_index h).imp fun _ he => he.1

/-- What stands under a name, the delete of which is allowed, is removed. -/
theorem run_delete {settings : Settings} {ops : List Operation} (mode : DeleteMode)
    (hget : (run settings ops).get key = .ok e)
    (hallowed : mode = .guarded → (run settings ops).references.dependents e.name = []) :
    (run settings ops).Accepts (.delete key mode) ∧
      run settings (ops ++ [.delete key mode]) = (run settings ops).without e mode := by
  have hperf := perform_delete.mpr ⟨e, hget, hallowed, rfl⟩
  exact ⟨⟨_, hperf⟩, by rw [run_snoc, after_of_ok hperf]⟩

/-! ## Handles that are always current -/

/-- What is held under a name that is no longer registered is retired. -/
def Dangling (r : Registry) : Prop :=
  ∀ n e, r.entries.get? n = some e → ∀ d ∈ e.dependencies, r.entries.get? d = none →
    ∀ p, e.callable.target? d = some p → p.1.stamp ∈ r.stamps.retired

/-- An entry is made with what is registered. -/
theorem Dangling.put {key : Key} {source : Source} (h : r.Dangling) (hmade : r.Made key source e) :
    (r.put e).Dangling := by
  have hgone : ∀ d, (r.put e).entries.get? d = none → r.entries.get? d = none := by
    intro d hd
    rw [get?_put] at hd
    split at hd
    · cases hd
    · exact hd
  refine forall_put (fun n g hg d hd hnone => h n g hg d hd (hgone d hnone)) ?_
  intro d hd hnone
  obtain ⟨x, hx⟩ := NameMap.get?_of_mem_names ((hmade.depends d).mp hd).2
  rw [hgone d hnone] at hx
  cases hx

/-- The name that is removed is not a dependency, or what is held under it is retired. -/
theorem Dangling.without {mode : DeleteMode} (h : r.Dangling) (hcur : r.Current)
    (he : r.entries.get? e.name = some e)
    (hallowed : mode = .guarded → r.references.dependents e.name = []) :
    (r.without e mode).Dangling := by
  intro n g hg d hd hnone p htarget
  rw [get?_without] at hg hnone
  split at hg
  · cases hg
  rename_i hne
  split at hnone
  · rename_i hde
    subst hde
    cases mode with
    | guarded => exact absurd hd (not_depends_of_dependents (hallowed rfl) hg hne)
    | force =>
      rw [hcur n g hg e.name hd e he, Option.some.injEq] at htarget
      subst htarget
      exact List.mem_cons_self
  · have hs := h n g hg d hd hnone p htarget
    cases mode with
    | guarded => exact hs
    | force => exact List.mem_cons_of_mem _ hs

/-- Where handles are current, only a forced delete leaves an entry that holds what is no longer
registered, and retires it. -/
theorem Step.dangling (hr : r.WellFormed) (hcur : r.Current) (h : r.Dangling)
    (hstep : Step r op r') : r'.Dangling :=
  hstep.preserves hr h (fun _ _ _ _ _ h hmade => h.put hmade) (fun _ h => h)
    fun _ _ _ _ he hallowed => h.without hcur he hallowed

/-- Under the eager policy and without free parameters, what entries hold is always registered, or
retired. -/
theorem current_of_closed {settings : Settings} (heager : settings.refresh = .eager)
    (hfree : settings.freeParameters = false) (ops : List Operation) :
    (run settings ops).Current ∧ (run settings ops).Dangling := by
  have hnone : ∀ n e, (NameMap.empty : NameMap Entry).get? n ≠ some e := by simp
  refine (run_induction (P := fun r => r.Current ∧ r.Dangling)
    ⟨fun n e he => absurd he (hnone n e), fun n e he => absurd he (hnone n e)⟩ ?_ ops).1
  rintro r op r' hr hs ⟨hcur, hdangling⟩ hstep
  exact ⟨(hstep.current_iff hr (hs ▸ heager) hcur).mpr
    (renewsInOrder_of_closed hr (hs ▸ hfree) hstep), hstep.dangling hr hcur hdangling⟩

/-! ## Entries that hold what was removed -/

/-- What the entry of a name holds under another is retired. -/
def HoldsRetired (r : Registry) (n a : String) : Prop :=
  ∃ s ∈ r.stamps.retired, r.heldStamp? n a = some s

/-- Calls by the key give no value, and one whose arguments are bound and whose evaluation comes to
the name fails as a call of an unknown symbol. -/
structure Disabled (r : Registry) (key : String) (e : Entry) (a : String) : Prop where
  noValue : ∀ args v, r.evaluate key args ≠ .ok v
  noValueNamed : ∀ given v, r.evaluateNamed key given ≠ .ok v
  unknown : ∀ args bound, Arguments.byPosition e.name e.params e.defaults args = .ok bound →
    e.callable.Reaches r.stamps.retired bound a →
    FailsWith "UNKNOWN_SYMBOL" (r.evaluate key args)
  unknownNamed : ∀ given bound, Arguments.byName e.name e.params e.defaults given = .ok bound →
    e.callable.Reaches r.stamps.retired bound a →
    FailsWith "UNKNOWN_SYMBOL" (r.evaluateNamed key given)

/-- An entry that applies a name and holds a retired entry under it is disabled. -/
theorem disabled_of_retired (hr : r.WellFormed) (hkey : r.nameOf? key = some n)
    (he : r.entries.get? n = some e) (ht : e.expression = some t) (ha : a ∈ t.appliedIn)
    {p : Handle × Callable} (htarget : e.callable.target? a = some p)
    (hs : p.1.stamp ∈ r.stamps.retired) : r.Disabled key e a := by
  obtain ⟨d, entries, hc, rfl⟩ := ((hr.built n e he).runs ht).compiled
  have huses : e.callable.Uses r.stamps.retired p.1.stamp := by
    rw [hc] at htarget ⊢
    exact .applied ha htarget rfl
  obtain ⟨hcall, hcallNamed⟩ := Entry.call_of_uses huses hs
  have hparams := (hr.regular n e he).params_eq
  constructor
  · intro args v
    rw [evaluate_eq hkey he]
    exact hcall args v
  · intro given v
    rw [evaluateNamed_eq hkey he]
    exact hcallNamed given v
  · intro args bound hbound hreach
    rw [evaluate_eq hkey he]
    have hcount := Arguments.length_byPosition hbound
    exact Entry.failsWith_of_reaches hbound (hparams ▸ hcount) htarget hs hreach
  · intro given bound hbound hreach
    rw [evaluateNamed_eq hkey he]
    have hcount := Arguments.length_byName hbound
    exact Entry.failsWith_of_reaches hbound (hparams ▸ hcount) htarget hs hreach

/-- An entry that holds a retired one is disabled for as long as it is not built again. -/
theorem disabled_later {settings : Settings} {first later : List Operation}
    (hb : (run settings first).entries.get? n = some b) (ht : b.expression = some t)
    (ha : a ∈ t.appliedIn) (hholds : (run settings first).HoldsRetired n a)
    (hlater : Throughout settings first later fun r op => ¬ r.Renews op n)
    (hkey : (run settings (first ++ later)).nameOf? key = some n) :
    (run settings (first ++ later)).Disabled key b a := by
  obtain ⟨s, hs, hheld⟩ := hholds
  obtain ⟨p, htarget, rfl⟩ : ∃ p, b.callable.target? a = some p ∧ p.1.stamp = s := by
    rw [heldStamp?, hb, Option.bind_some] at hheld
    exact Option.map_eq_some_iff.mp hheld
  -- the entry stays where it is or is removed, and what it holds stays retired
  have hkept : ((run settings (first ++ later)).entries.get? n = some b ∨
      (run settings (first ++ later)).entries.get? n = none) ∧
      p.1.stamp ∈ (run settings (first ++ later)).stamps.retired := by
    refine hlater.induction (P := fun r => (r.entries.get? n = some b ∨ r.entries.get? n = none) ∧
      p.1.stamp ∈ r.stamps.retired) ⟨.inl hb, hs⟩ ?_
    rintro r op r' hr - - ⟨hn, hs⟩ hop hstep
    refine ⟨?_, hstep.retired_subset hr hs⟩
    rcases hstep.get?_eq hr hop with hsame | hgone
    · exact hsame ▸ hn
    · exact .inr hgone
  obtain ⟨g, hg⟩ := get?_of_nameOf? (run_indexed _ _) hkey
  rcases hkept.1 with hn | hn
  · exact disabled_of_retired (run_wellFormed _ _) hkey hn ht ha htarget hkept.2
  · rw [hg] at hn
    cases hn

/-- Where handles are current, a forced delete retires what the dependents hold. -/
theorem holdsRetired_of_current (hcur : r.Current) (ha : r.entries.get? e.name = some e)
    (hb : (r.without e .force).entries.get? n = some b) (hd : e.name ∈ b.dependencies) :
    (r.without e .force).HoldsRetired n e.name := by
  refine ⟨e.stamp, List.mem_cons_self, ?_⟩
  have hn := NameMap.get?_of_get?_erase hb
  rw [heldStamp?, hb, Option.bind_some, hcur n b hn e.name hd e ha]
  rfl

/-- A forced delete succeeds and disables, until it is built again, each remaining entry that
applies the name and holds a retired entry under it. These are all that depend on the name where
handles are current: always under the eager policy without free parameters. -/
theorem forced_delete_disables (settings : Settings) (ops : List Operation) (key a : String)
    (hkey : (run settings ops).nameOf? key = some a) :
    (run settings ops).Accepts (.delete key .force) ∧
    (∀ n b t, (run settings (ops ++ [.delete key .force])).entries.get? n = some b →
      b.expression = some t → a ∈ t.appliedIn →
      (run settings (ops ++ [.delete key .force])).HoldsRetired n a →
      ∀ later, Throughout settings (ops ++ [.delete key .force]) later
        (fun r op => ¬ r.Renews op n) →
      ∀ key', (run settings (ops ++ [.delete key .force] ++ later)).nameOf? key' = some n →
        (run settings (ops ++ [.delete key .force] ++ later)).Disabled key' b a) ∧
    ((run settings ops).Current ∨ settings.refresh = .eager ∧ settings.freeParameters = false →
      ∀ n b, (run settings (ops ++ [.delete key .force])).entries.get? n = some b →
        a ∈ b.dependencies → (run settings (ops ++ [.delete key .force])).HoldsRetired n a) := by
  have hr := run_wellFormed settings ops
  obtain ⟨e, he⟩ := get?_of_nameOf? (run_indexed _ _) hkey
  obtain rfl := hr.named a e he
  obtain ⟨haccepts, hafter⟩ := run_delete .force (get_eq_ok.mpr ⟨_, hkey, he⟩) nofun
  refine ⟨haccepts, ?_, ?_⟩
  · intro n b t hb ht ha hholds later hlater key' hkey'
    exact disabled_later hb ht ha hholds hlater hkey'
  · intro hwhen n b hb hd
    have hcur : (run settings ops).Current := by
      rcases hwhen with hcur | ⟨heager, hfree⟩
      · exact hcur
      · exact (current_of_closed heager hfree ops).1
    rw [hafter] at hb ⊢
    exact holdsRetired_of_current hcur he hb hd

/-- `b` is built on `a`. -/
def dependentOnSet : List Operation :=
  [.set "a(x)" (.expression "x"), .set "b(x)" (.expression "a(x)")]

set_option maxRecDepth 20000 in
/-- A dependent that a forced delete disables, also when another entry has been set since. -/
theorem forced_delete_disables_dependent :
    ∃ b, (run {} (dependentOnSet ++ [.delete "a" .force])).entries.get? "b" = some b ∧
      (run {} (dependentOnSet ++ [.delete "a" .force] ++
        [.set "c(x)" (.expression "x")])).Disabled "b" b "a" := by
  have hexpr : ((run {} (dependentOnSet ++ [.delete "a" .force])).entries.get? "b").map
      Entry.expression = some (some (.apply "a" [.var "x"])) := by rfl
  have hholds : (run {} (dependentOnSet ++ [.delete "a" .force])).heldStamp? "b" "a" =
      some 0 := by rfl
  obtain ⟨b, hb, ht⟩ := Option.map_eq_some_iff.mp hexpr
  obtain ⟨-, hdisabled, -⟩ := forced_delete_disables {} dependentOnSet "a" "a" (by rfl)
  have hheld : (run {} (dependentOnSet ++ [.delete "a" .force])).HoldsRetired "b" "a" :=
    ⟨0, List.mem_singleton_self _, hholds⟩
  refine ⟨b, hb, hdisabled "b" b _ hb ht (by simp [Term.appliedIn]) hheld _ ?_ "b" (by rfl)⟩
  refine .cons (fun _ => ?_) .nil
  rintro (⟨k, hk, hkb⟩ | ⟨heager, -⟩)
  · have hkc : (Key.read "c(x)").toOption.map Key.name = some "c" := by rfl
    simp [hk, hkb, Except.toOption] at hkc
  · rw [run_settings] at heager
    cases heager

/-- `a` is set again after `b` was built on it. -/
def replacedUnderDependent : List Operation :=
  dependentOnSet ++ [.set "a(x)" (.expression "x")]

set_option maxRecDepth 20000 in
/-- A dependent that was built before the name was set again has a value also after a forced
delete. -/
theorem value_after_forced_delete :
    (run {} replacedUnderDependent).Accepts (.delete "a" .force) ∧
      ((run {} (replacedUnderDependent ++ [.delete "a" .force])).entries.get? "b").map
        (fun b => (b.dependencies, b.expression)) = some (["a"], some (.apply "a" [.var "x"])) ∧
      ∃ v, (run {} (replacedUnderDependent ++ [.delete "a" .force])).evaluate "b"
        [.scalar 3] = .ok v :=
  ⟨accepts_of_isOk (by rfl), by rfl, Except.exists_of_isOk (by rfl)⟩

/-! ## Entries that do not refer to what was removed -/

section Bare

variable (hbare : ∀ n g, r.entries.get? n = some g → g.isDerived = false → g.callable.handles = [])
include hbare

/-- Where entries of functions hold nothing, a compiled entry that holds something is derived, and
depends on what it holds. -/
theorem depends_of_held {g : Entry} {d : Definition} {entries : List (Handle × Callable)}
    {name : String} {p : Handle × Callable} (hr : r.WellFormed) (hg : r.entries.get? n = some g)
    (hc : g.callable = .compiled d entries)
    (htarget : (Callable.compiled d entries).target? name = some p) : name ∈ g.dependencies := by
  have hderived : g.isDerived = true := by
    by_contra hprimitive
    have hnone := hbare n g hg (by simpa using hprimitive)
    rw [hc] at hnone
    exact List.ne_nil_of_mem (Callable.mem_handlesAll (.inl rfl) (Callable.mem_of_target? htarget))
      hnone
  by_contra hd
  rw [← hc, (hr.regular n g hg).bare hderived name hd] at htarget
  cases htarget

/-- Where handles are current, what a definition holds under a name that it applies is registered
there, and is not the entry that no other refers to, or is retired. -/
theorem registered_or_retired_of_held {g : Entry} {d : Definition}
    {entries : List (Handle × Callable)} {name : String} {p : Handle × Callable}
    (hr : r.WellFormed) (hcur : r.Current) (hdangling : r.Dangling)
    (hdep : r.references.dependents e.name = []) (hg : r.entries.get? n = some g)
    (hne : n ≠ e.name) (hc : g.callable = .compiled d entries)
    (htarget : (Callable.compiled d entries).target? name = some p) :
    (∃ x, r.entries.get? name = some x ∧ p = x.held ∧ name ≠ e.name) ∨
      p.1.stamp ∈ r.stamps.retired := by
  have hd : name ∈ g.dependencies := depends_of_held hbare hr hg hc htarget
  rw [← hc] at htarget
  cases hx : r.entries.get? name with
  | none => exact .inr (hdangling n g hg name hd hx p htarget)
  | some x =>
    rw [hcur n g hg name hd x hx, Option.some.injEq] at htarget
    refine .inl ⟨x, rfl, htarget.symm, ?_⟩
    rintro rfl
    exact not_depends_of_dependents hdep hg hne hd

/-- Where entries of functions hold nothing, no entry rescales the results of another callable that
holds something. -/
theorem ne_rescaled_of_handles {g : Entry} {factor : Float} {c : Callable} (hr : r.WellFormed)
    (hg : r.entries.get? n = some g) (hc : c.handles ≠ []) : g.callable ≠ .rescaled factor c := by
  intro heq
  cases hderived : g.isDerived with
  | false =>
    have hnone := hbare n g hg hderived
    rw [heq] at hnone
    exact hc hnone
  | true =>
    obtain ⟨t, ht⟩ := Option.isSome_iff_exists.mp hderived
    obtain ⟨d, entries, hcompiled, -⟩ := ((hr.built n g hg).runs ht).compiled
    rw [heq] at hcompiled
    cases hcompiled

end Bare

/-- Where handles are current and entries of functions hold none, an entry that no other refers to is
used by none. -/
theorem not_uses_of_current {log : Stamp → Option Entry} (hr : r.WellFormed)
    (hlog : Recorded log r) (hcur : r.Current) (hdangling : r.Dangling)
    (hbare : ∀ n g, r.entries.get? n = some g → g.isDerived = false → g.callable.handles = [])
    (he : r.entries.get? e.name = some e) (hdep : r.references.dependents e.name = [])
    (hg : r.entries.get? n = some g) (hne : n ≠ e.name) :
    ¬ g.callable.Uses r.stamps.retired e.stamp := by
  intro huses
  generalize hc : g.callable = c at huses
  induction huses generalizing n g with
  | applied _ held stamp =>
    rcases registered_or_retired_of_held hbare hr hcur hdangling hdep hg hne hc held with
      ⟨x, hx, rfl, hxe⟩ | hs
    · exact hxe (hlog.logged.eq_of_stamp hlog.logged hx he stamp).2
    · exact hlog.live _ e he (stamp ▸ hs)
  | through _ held live _ ih =>
    rcases registered_or_retired_of_held hbare hr hcur hdangling hdep hg hne hc held with
      ⟨x, hx, rfl, hxe⟩ | hs
    · exact ih hx hxe rfl
    · exact live hs
  | rescaled inner => exact ne_rescaled_of_handles hbare hr hg inner.handles_ne_nil hc

/-- The calls of an entry give the same in both registries. -/
def SameCalls (r r' : Registry) (g : Entry) : Prop :=
  g.call r'.stamps.retired = g.call r.stamps.retired ∧
    g.callNamed r'.stamps.retired = g.callNamed r.stamps.retired

/-- No call of an entry gives a value. -/
def NoValue (r : Registry) (g : Entry) : Prop :=
  (∀ args v, g.call r.stamps.retired args ≠ .ok v) ∧
    ∀ given v, g.callNamed r.stamps.retired given ≠ .ok v

/-- An entry that no other refers to can be deleted in either mode. The calls of those that remain
give what they gave before: all of them after a guarded delete, and after a forced one just those
that do not use what was removed; the others give no value. Under the eager policy, without free
parameters and with functions that hold no handles, none uses it. -/
theorem delete_unreferenced (settings : Settings) (ops : List Operation) (key : String)
    (mode : DeleteMode) (removed : Entry) (hget : (run settings ops).get key = .ok removed)
    (hdep : (run settings ops).dependents key = .ok []) :
    (run settings ops).Accepts (.delete key mode) ∧
    ∀ n g, (run settings (ops ++ [.delete key mode])).entries.get? n = some g →
      (mode = .guarded ∨ ¬ g.callable.Uses (run settings ops).stamps.retired removed.stamp →
        SameCalls (run settings ops) (run settings (ops ++ [.delete key mode])) g) ∧
      (mode = .force → g.callable.Uses (run settings ops).stamps.retired removed.stamp →
        NoValue (run settings (ops ++ [.delete key mode])) g) ∧
      (settings.refresh = .eager → settings.freeParameters = false →
        (∀ m x, (run settings ops).entries.get? m = some x → x.isDerived = false →
          x.callable.handles = []) →
        ¬ g.callable.Uses (run settings ops).stamps.retired removed.stamp) := by
  have hr := run_wellFormed settings ops
  obtain ⟨log, hlog⟩ := run_recorded settings ops
  obtain ⟨c, -, hc⟩ := get_eq_ok.mp hget
  obtain rfl := hr.named c removed hc
  have hdep : (run settings ops).references.dependents removed.name = [] := by
    unfold dependents at hdep
    rw [hget, Except.ok_bind] at hdep
    exact Except.ok.inj hdep
  obtain ⟨haccepts, hafter⟩ := run_delete mode hget fun _ => hdep
  refine ⟨haccepts, fun n g hg => ?_⟩
  rw [hafter] at hg ⊢
  rw [get?_without] at hg
  split at hg
  · cases hg
  · rename_i hne
    refine ⟨fun hwhen => ?_, fun hforce huses => ?_, fun heager hfree hbare => ?_⟩
    · cases mode with
      | guarded => exact ⟨rfl, rfl⟩
      | force =>
        refine Entry.call_of_not_uses (fun hs => hne ?_) (hwhen.resolve_left nofun)
        exact (hlog.logged.eq_of_stamp hlog.logged hg hc hs).2
    · subst hforce
      have hs : removed.stamp ∈ removed.stamp :: (run settings ops).stamps.retired :=
        List.mem_cons_self
      exact Entry.call_of_uses huses hs
    · obtain ⟨hcur, hdangling⟩ := current_of_closed heager hfree ops
      exact not_uses_of_current hr hlog hcur hdangling hbare hc hdep hg hne

/-- `d` is built on `c` and set again without it. -/
def releasedDependency : List Operation :=
  [.set "c(x)" (.expression "x"), .set "d(x)" (.expression "c(x)"), .set "d(x)" (.expression "x")]

set_option maxRecDepth 20000 in
/-- A forced delete to which the general statement applies. -/
theorem delete_unreferenced_released :
    ∃ g, (run { refresh := .eager, freeParameters := false }
        (releasedDependency ++ [.delete "c" .force])).entries.get? "d" = some g ∧
      SameCalls (run { refresh := .eager, freeParameters := false } releasedDependency)
        (run { refresh := .eager, freeParameters := false }
          (releasedDependency ++ [.delete "c" .force])) g := by
  have hderived : (run { refresh := .eager, freeParameters := false }
      releasedDependency).entries.toList.all (fun p => p.2.isDerived) = true := by rfl
  have hisSome : ((run { refresh := .eager, freeParameters := false }
      (releasedDependency ++ [.delete "c" .force])).entries.get? "d").isSome = true := by rfl
  obtain ⟨c, hc⟩ : ∃ c, (run { refresh := .eager, freeParameters := false }
      releasedDependency).get "c" = .ok c := Except.exists_of_isOk (by rfl)
  obtain ⟨g, hg⟩ := Option.isSome_iff_exists.mp hisSome
  obtain ⟨-, hrest⟩ := delete_unreferenced { refresh := .eager, freeParameters := false }
    releasedDependency "c" .force c hc (by rfl)
  obtain ⟨hsame, -, hnot⟩ := hrest "d" g hg
  refine ⟨g, hg, hsame (.inr (hnot rfl rfl fun m x hx hprimitive => ?_))⟩
  have := List.all_eq_true.mp hderived (m, x) (NameMap.mem_toList_iff.mpr hx)
  rw [hprimitive] at this
  cases this

/-- `d` is built on `c`, `e` on `d`, and `d` is set again without `c`. -/
def usedThroughReplaced : List Operation :=
  [.set "c(x)" (.expression "x"), .set "d(x)" (.expression "c(x)"),
    .set "e(x)" (.expression "d(x)"), .set "d(x)" (.expression "x")]

set_option maxRecDepth 20000 in
/-- Nothing refers to `c` any more, but `e` has a value before a forced delete of `c` and none after
it. -/
theorem forced_delete_of_unreferenced :
    (run {} usedThroughReplaced).dependents "c" = .ok [] ∧
      (run {} usedThroughReplaced).Accepts (.delete "c" .force) ∧
      (∃ v, (run {} usedThroughReplaced).evaluate "e" [.scalar 3] = .ok v) ∧
      ∀ v, (run {} (usedThroughReplaced ++ [.delete "c" .force])).evaluate "e" [.scalar 3] ≠
        .ok v := by
  refine ⟨by rfl, accepts_of_isOk (by rfl), Except.exists_of_isOk (by rfl), fun v hv => ?_⟩
  have hfails : ((run {} (usedThroughReplaced ++ [.delete "c" .force])).evaluate "e"
      [.scalar 3]).isOk = false := by rfl
  rw [hv] at hfails
  cases hfails

end Registry

end Formulary
