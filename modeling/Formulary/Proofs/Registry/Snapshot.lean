import Formulary.Proofs.Entry.Agreement
import Formulary.Proofs.Entry.Canonical
import Formulary.Proofs.Registry.Current
import Formulary.Proofs.Registry.History

/-!
What entries keep under the stale policy.

A compiled entry holds what stood under the names it depends on when it was built, and under the
stale policy no operation on another entry builds it again. So whatever is set, refreshed or refilled
elsewhere, and as long as nothing is removed by force, it gives what it gave. But a change of its own
fill value builds it again from its text, against what is registered now. That leaves everything as
it was only if the entry is settled: what its text mentions is registered just if it depends on it,
and is what it holds.
-/

namespace Formulary

namespace Entry

variable {e e' : Entry} {retired : List Stamp}

/-- What the entry gives on bound arguments, before its fill value takes the place of NaN. -/
def unfilledOn (e : Entry) (retired : List Stamp) (bound : Except Fault (List NdArray)) :
    Except Fault NdArray := do
  e.handle.checkLive retired
  e.callable.run ⟨e.fill, retired⟩ (← bound)

/-- What a call by position gives before the fill value takes the place of NaN. -/
def unfilled (e : Entry) (retired : List Stamp) (args : List NdArray) : Except Fault NdArray :=
  e.unfilledOn retired (Arguments.byPosition e.name e.params e.defaults args)

/-- What a call by name gives before the fill value takes the place of NaN. -/
def unfilledNamed (e : Entry) (retired : List Stamp) (given : NameMap NdArray) :
    Except Fault NdArray :=
  e.unfilledOn retired (Arguments.byName e.name e.params e.defaults given)

theorem handle_call_eq (e : Entry) (retired : List Stamp) (bound : Except Fault (List NdArray)) :
    (e.handle.call retired bound fun context => e.callable.run context) =
      (e.unfilledOn retired bound).map (·.fillNaN e.fill) := by
  unfold unfilledOn Handle.call
  cases e.handle.checkLive retired with
  | error f => rfl
  | ok _ =>
    cases bound with
    | error f => rfl
    | ok args =>
      change (e.callable.run ⟨e.fill, retired⟩ args >>= fun v => .ok (v.fillNaN e.fill)) =
        (e.callable.run ⟨e.fill, retired⟩ args).map _
      cases e.callable.run ⟨e.fill, retired⟩ args <;> rfl

theorem call_eq (e : Entry) (retired : List Stamp) (args : List NdArray) :
    e.call retired args = (e.unfilled retired args).map (·.fillNaN e.fill) :=
  e.handle_call_eq retired _

theorem callNamed_eq (e : Entry) (retired : List Stamp) (given : NameMap NdArray) :
    e.callNamed retired given = (e.unfilledNamed retired given).map (·.fillNaN e.fill) :=
  e.handle_call_eq retired _

/-- With the same snapshot, live entries of an expression give the same but for the fill value. -/
theorem SameSnapshot.unfilled_eq (h : e.SameSnapshot e') {d : Definition}
    {entries : List (Handle × Callable)} (hc : e.callable = .compiled d entries)
    (hlive : e.stamp ∉ retired) (hlive' : e'.stamp ∉ retired) :
    e'.unfilled retired = e.unfilled retired ∧
      e'.unfilledNamed retired = e.unfilledNamed retired := by
  have hname : e'.name = e.name := congrArg Signature.name h.signature_eq
  have hparams : e'.params = e.params := congrArg Signature.params h.signature_eq
  have hdefaults : e'.defaults = e.defaults := congrArg Callable.defaults h.callable_eq
  have hcheck : ∀ {x : Entry}, x.stamp ∉ retired → x.handle.checkLive retired = .ok () :=
    fun hx => if_neg (by simpa [handle] using hx)
  -- a definition makes no use of the fill value it is run with
  have hsame : e'.unfilledOn retired = e.unfilledOn retired := by
    funext bound
    unfold unfilledOn
    rw [hcheck hlive, hcheck hlive', h.callable_eq, hc]
    rfl
  constructor
  · funext args
    rw [unfilled, unfilled, hsame, hname, hparams, hdefaults]
  · funext given
    rw [unfilledNamed, unfilledNamed, hsame, hname, hparams, hdefaults]

end Entry

namespace Registry

variable {r r' : Registry} {e e' : Entry} {op : Operation} {n key : String}

/-- What the text of an entry mentions is registered just if the entry depends on it, and is what the
entry holds. -/
structure Settled (r : Registry) (e : Entry) : Prop where
  depends : ∀ d ∈ e.mentions, d ∈ r.entries.names → d ∈ e.dependencies
  registered : ∀ d ∈ e.dependencies, d ∈ r.entries.names
  holds : r.Holds e

/-- A settled entry that is built again is what it was. -/
theorem Settled.sameSnapshot {log : Stamp → Option Entry} (hlog : Recorded log r)
    (h : r.Settled e) (he : r.entries.get? n = some e) (hderived : e.isDerived = true) {fill : Float}
    (hbuild : r.build fill e.key e.source = .ok e') : e.SameSnapshot e' := by
  obtain ⟨entries, retired, hlogged, horigin⟩ := hlog.origin n e he hderived
  have hmade := Entry.build_eq_ok (fun n g hg => (hlogged n g hg).2) horigin
  have hagree : ∀ d ∈ e.mentions, r.entries.get? d = entries.get? d := by
    intro d hd
    cases hg : r.entries.get? d with
    | some g =>
      have hdep := h.depends d hd (NameMap.mem_names_of_get? hg)
      obtain ⟨g₀, hg₀⟩ := NameMap.get?_of_mem_names ((hmade.depends d).mp hdep).2
      have hheld := hmade.holds d hdep g₀ hg₀
      rw [h.holds d hdep g hg, Option.some.injEq] at hheld
      have hstamp : g.stamp = g₀.stamp := congrArg (fun p => p.1.stamp) hheld
      rw [hg₀, (hlog.logged.eq_of_stamp hlogged hg hg₀ hstamp).1]
    | none =>
      cases hg₀ : entries.get? d with
      | none => rfl
      | some g₀ =>
        have hdep := (hmade.depends d).mpr ⟨hd, NameMap.mem_names_of_get? hg₀⟩
        obtain ⟨g, hg'⟩ := NameMap.get?_of_mem_names (h.registered d hdep)
        rw [hg] at hg'
        cases hg'
  obtain ⟨e'', he'', hsame⟩ := Entry.build_of_agrees
    ⟨r.entries, r.settings.freeParameters, fill, r.stamps.next, r.stamps.retired⟩ horigin rfl hagree
  exact Except.ok.inj (he''.symm.trans hbuild) ▸ hsame

/-- Changing the fill value of an entry leaves its snapshot exactly if the entry is settled. -/
theorem sameSnapshot_iff_settled {log : Stamp → Option Entry} {fill : Float} (hr : r.WellFormed)
    (hlog : Recorded log r) (hkey : r.nameOf? key = some n) (he : r.entries.get? n = some e)
    (hderived : e.isDerived = true) (hprep : r.prepare (.setFill key fill) = .ok e') :
    e.SameSnapshot e' ↔ r.Settled e := by
  have hbuild : r.build fill e.key e.source = .ok e' := by
    have hprep : (r.get key >>= fun e => r.build fill e.key e.source) = .ok e' := hprep
    rw [get_eq_ok.mpr ⟨n, hkey, he⟩, Except.ok_bind] at hprep
    exact hprep
  refine ⟨fun hsame => ?_, fun h => h.sameSnapshot hlog he hderived hbuild⟩
  have hmade := build_made hr (hr.written n e he) hbuild
  have hmentions : e'.mentions = e.mentions := hmade.mentions_eq
  have hdeps := hmade.depends
  have hholds := hmade.holds
  rw [hmentions, hsame.dependencies_eq] at hdeps
  rw [hsame.dependencies_eq, hsame.callable_eq] at hholds
  exact ⟨fun d hd hreg => (hdeps d).mpr ⟨hd, hreg⟩, fun d hd => ((hdeps d).mp hd).2, hholds⟩

/-- The operation leaves the snapshot of an entry alone: it neither sets nor refreshes nor removes
the entry, refreshes not all entries, removes nothing by force, and changes the fill value of the
entry only where that is settled. -/
def Spares (r : Registry) (n : String) (op : Operation) : Prop :=
  match op with
  | .set .. | .refresh _ => ¬ r.Targets op n
  | .delete _ mode => ¬ r.Targets op n ∧ mode = .guarded
  | .refreshAll => False
  | .setFill .. => r.Targets op n → ∀ e, r.entries.get? n = some e → r.Settled e

/-- What is built in place of the entry that an operation spares is what it was. -/
theorem Spares.sameSnapshot {log : Stamp → Option Entry} (hr : r.WellFormed)
    (hlog : Recorded log r) (h : r.Spares n op) (hprep : r.prepare op = .ok e') (hn : n = e'.name)
    (he : r.entries.get? n = some e) (hderived : e.isDerived = true) : e.SameSnapshot e' := by
  have htarget : r.Targets op n := hn ▸ targets_of_prepare hr hprep
  cases op with
  | set => exact absurd htarget h
  | refresh => exact absurd htarget h
  | setFill key fill =>
    obtain ⟨e₀, hget, hbuild⟩ := Except.bind_eq_ok.mp hprep
    obtain ⟨m, hm, he₀⟩ := get_eq_ok.mp hget
    have hmn : r.nameOf? key = some n := htarget
    rw [hm, Option.some.injEq] at hmn
    subst hmn
    rw [he, Option.some.injEq] at he₀
    subst he₀
    exact (h htarget e he).sameSnapshot hlog he hderived hbuild
  | delete => cases hprep
  | refreshAll => cases hprep

/-- Under the stale policy, a successful operation that spares an entry leaves its snapshot, and
retires nothing. -/
theorem Step.spares {log : Stamp → Option Entry} (hr : r.WellFormed) (hlog : Recorded log r)
    (hstale : r.settings.refresh = .stale) (he : r.entries.get? n = some e)
    (hderived : e.isDerived = true) (hop : r.Spares n op) (hstep : Step r op r') :
    (∃ e', r'.entries.get? n = some e' ∧ e.SameSnapshot e') ∧
      r'.stamps.retired = r.stamps.retired := by
  cases hstep with
  | @put _ g _ _ _ prepared =>
    refine ⟨?_, rfl⟩
    rw [reindex_entries, get?_put]
    by_cases hn : n = g.name
    · exact ⟨g, if_pos hn, hop.sameSnapshot hr hlog prepared hn he hderived⟩
    · exact ⟨e, (if_neg hn).trans he, .refl e⟩
  | renew _ _ eager =>
    rw [hstale] at eager
    cases eager
  | @delete key mode g found =>
    obtain ⟨hnot, rfl⟩ := hop
    refine ⟨⟨e, ?_, .refl e⟩, rfl⟩
    obtain ⟨m, hm, hg⟩ := get_eq_ok.mp found
    have hn : n ≠ g.name := by
      rintro rfl
      exact hnot (hm.trans (congrArg some (hr.named m g hg).symm))
    rw [get?_without, if_neg hn, he]
  | all => exact hop.elim

/-- Under the stale policy an entry of an expression keeps its parameters, its expression and its
dependencies, and its calls give what they gave, but for the fill value that takes the place of NaN,
as long as every successful operation spares it. Changing its own fill value spares it exactly if it
is settled, as it is when it has been put in its place. -/
theorem snapshot_kept (settings : Settings) (hstale : settings.refresh = .stale)
    (first later : List Operation) (n : String) (e : Entry)
    (he : (run settings first).entries.get? n = some e) (hderived : e.isDerived = true)
    (hlater : Throughout settings first later fun r op => r.Spares n op) :
    (∀ key fill g, (run settings first).nameOf? key = some n →
      (run settings first).prepare (.setFill key fill) = .ok g →
      (e.SameSnapshot g ↔ (run settings first).Settled e)) ∧
    ∃ e', (run settings (first ++ later)).entries.get? n = some e' ∧
      e'.params = e.params ∧ e'.expression = e.expression ∧ e'.dependencies = e.dependencies ∧
      ∀ key key', (run settings first).nameOf? key = some n →
        (run settings (first ++ later)).nameOf? key' = some n →
        (∀ args, (run settings first).evaluate key args =
            (e.unfilled (run settings first).stamps.retired args).map (·.fillNaN e.fill) ∧
          (run settings (first ++ later)).evaluate key' args =
            (e.unfilled (run settings first).stamps.retired args).map (·.fillNaN e'.fill)) ∧
        ∀ given, (run settings first).evaluateNamed key given =
            (e.unfilledNamed (run settings first).stamps.retired given).map (·.fillNaN e.fill) ∧
          (run settings (first ++ later)).evaluateNamed key' given =
            (e.unfilledNamed (run settings first).stamps.retired given).map
              (·.fillNaN e'.fill) := by
  obtain ⟨⟨e', he', hsame⟩, hretired⟩ := hlater.induction
    (P := fun r => (∃ e', r.entries.get? n = some e' ∧ e.SameSnapshot e') ∧
      r.stamps.retired = (run settings first).stamps.retired) ⟨⟨e, he, .refl e⟩, rfl⟩ <| by
    rintro r op r' hr hs ⟨log, hlog⟩ ⟨⟨e', he', hsame⟩, hretired⟩ hop hstep
    have hderived' : e'.isDerived = true :=
      (congrArg Option.isSome hsame.expression_eq).trans hderived
    obtain ⟨⟨e'', he'', hsame'⟩, hretired'⟩ :=
      hstep.spares hr hlog (hs ▸ hstale) he' hderived' hop
    exact ⟨⟨e'', he'', hsame.trans hsame'⟩, hretired'.trans hretired⟩
  obtain ⟨log, hlog⟩ := run_recorded settings first
  refine ⟨fun key fill g hkey hprep =>
    sameSnapshot_iff_settled (run_wellFormed _ _) hlog hkey he hderived hprep, ?_⟩
  obtain ⟨log', hlog'⟩ := run_recorded settings (first ++ later)
  obtain ⟨t, ht⟩ := Option.isSome_iff_exists.mp hderived
  obtain ⟨d, entries, hc, -⟩ := (((run_wellFormed settings first).built n e he).runs ht).compiled
  obtain ⟨hcall, hcallNamed⟩ :=
    hsame.unfilled_eq hc (hlog.live n e he) (hretired ▸ hlog'.live n e' he')
  refine ⟨e', he', congrArg Signature.params hsame.signature_eq, hsame.expression_eq,
    hsame.dependencies_eq, fun key key' hkey hkey' => ⟨fun args => ⟨?_, ?_⟩, fun given => ⟨?_, ?_⟩⟩⟩
  · rw [evaluate_eq hkey he, Entry.call_eq]
  · rw [evaluate_eq hkey' he', Entry.call_eq, hretired, hcall]
  · rw [evaluateNamed_eq hkey he, Entry.callNamed_eq]
  · rw [evaluateNamed_eq hkey' he', Entry.callNamed_eq, hretired, hcallNamed]

/-- An entry is settled when it has been put in its place. -/
theorem settled_put {k : Key} {source : Source} (hmade : r.Made k source e) :
    (r.put e).Settled e := by
  have hother : ∀ d ∈ e.mentions, (r.put e).entries.get? d = r.entries.get? d := by
    intro d hd
    rw [get?_put, if_neg]
    rintro rfl
    exact hmade.foreign hd
  have hnames : ∀ d ∈ e.mentions, d ∈ (r.put e).entries.names ↔ d ∈ r.entries.names := by
    intro d hd
    rw [← NameMap.contains_iff_mem_names, ← NameMap.contains_iff_mem_names, NameMap.contains,
      NameMap.contains, hother d hd]
  refine ⟨fun d hd hreg => ?_, fun d hd => ?_, fun d hd g hg => ?_⟩
  · exact (hmade.depends d).mpr ⟨hd, (hnames d hd).mp hreg⟩
  · obtain ⟨hmen, hreg⟩ := (hmade.depends d).mp hd
    exact (hnames d hmen).mpr hreg
  · rw [hother d ((hmade.depends d).mp hd).1] at hg
    exact hmade.holds d hd g hg

theorem Settled.reindex (h : r.Settled e) : r.reindex.Settled e :=
  { h with }

/-- Under the stale policy, what an operation builds is settled after it. -/
theorem Step.settled (hstale : r.settings.refresh = .stale) (hprep : r.prepare op = .ok e)
    (hstep : Step r op r') : r'.entries.get? e.name = some e ∧ r'.Settled e := by
  cases hstep with
  | put prepared made =>
    rw [prepared, Except.ok.injEq] at hprep
    subst hprep
    exact ⟨by rw [reindex_entries, get?_put, if_pos rfl], (settled_put made).reindex⟩
  | renew _ _ eager =>
    rw [hstale] at eager
    cases eager
  | delete => cases hprep
  | all => cases hprep

/-- `a`, on which `b` is built. -/
def settledBefore : List Operation := [.set "a(x)" (.expression "x")]

set_option maxRecDepth 20000 in
/-- `b` is refilled while it is settled, and then `a` is set again. -/
theorem snapshot_kept_refilled :
    ∃ e e', (run {} (settledBefore ++ [.set "b(x)" (.expression "a(x)")])).entries.get? "b" =
        some e ∧
      (run {} (settledBefore ++ [.set "b(x)" (.expression "a(x)")] ++
        [.setFill "b" 0, .set "a(x)" (.expression "2")])).entries.get? "b" = some e' ∧
      e'.expression = e.expression ∧ e'.dependencies = e.dependencies := by
  obtain ⟨e, hprep⟩ : ∃ e, (run {} settledBefore).prepare (.set "b(x)" (.expression "a(x)")) =
      .ok e := Except.exists_of_isOk (by rfl)
  have hname : ((run {} settledBefore).prepare (.set "b(x)" (.expression "a(x)"))).toOption.map
      Entry.name = some "b" := by rfl
  have hderived : ((run {} settledBefore).prepare
      (.set "b(x)" (.expression "a(x)"))).toOption.map Entry.isDerived = some true := by rfl
  rw [hprep] at hname hderived
  obtain ⟨r', hperf⟩ : ∃ r', (run {} settledBefore).perform (.set "b(x)" (.expression "a(x)")) =
      .ok r' := Except.exists_of_isOk (by rfl)
  obtain ⟨he, hsettled⟩ := Step.settled (run_settings {} settledBefore ▸ rfl) hprep
    (perform_step (run_wellFormed _ _) hperf)
  rw [Option.some.inj hname] at he
  rw [← after_of_ok hperf, ← run_snoc] at he hsettled
  obtain ⟨-, e', he', -, hexpr, hdeps, -⟩ := snapshot_kept {} rfl
    (settledBefore ++ [.set "b(x)" (.expression "a(x)")])
    [.setFill "b" 0, .set "a(x)" (.expression "2")] "b" e he (Option.some.inj hderived) <| by
    refine .cons (fun _ _ g hg => ?_) (.cons (fun _ => ?_) .nil)
    · rw [he, Option.some.injEq] at hg
      exact hg ▸ hsettled
    · rintro ⟨k, hk, hkb⟩
      have hka : (Key.read "a(x)").toOption.map Key.name = some "a" := by rfl
      simp [hk, hkb, Except.toOption] at hka
  exact ⟨e, e', he, he', hexpr, hdeps⟩

/-- `a` is set again after `b` was built on it. -/
def replacedBehind : List Operation :=
  settledBefore ++ [.set "b(x)" (.expression "a(x)"), .set "a(x)" (.expression "2")]

theorem shape_fillNaN (fill : Float) (v : NdArray) : (v.fillNaN fill).shape = v.shape := by
  unfold NdArray.fillNaN
  split <;> rfl

set_option maxRecDepth 20000 in
/-- Changing the fill value of `b` makes it call the new `a`, which gives a single number: the outcome
is not what it was with another value in the place of NaN. -/
theorem refill_changes_snapshot :
    (run {} replacedBehind).Accepts (.setFill "b" 0) ∧
      ¬ ∃ (result : Except Fault NdArray) (fill fill' : Float),
        (run {} replacedBehind).evaluate "b" [.vector #[1, 2]] = result.map (·.fillNaN fill) ∧
        (run {} (replacedBehind ++ [.setFill "b" 0])).evaluate "b" [.vector #[1, 2]] =
          result.map (·.fillNaN fill') := by
  refine ⟨accepts_of_isOk (by rfl), ?_⟩
  rintro ⟨result, fill, fill', hbefore, hafter⟩
  have hshape : (((run {} replacedBehind).evaluate "b" [.vector #[1, 2]]).map
      NdArray.shape).toOption = some [2] := by rfl
  have hshape' : (((run {} (replacedBehind ++ [.setFill "b" 0])).evaluate "b"
      [.vector #[1, 2]]).map NdArray.shape).toOption = some [] := by rfl
  rw [hbefore] at hshape
  rw [hafter] at hshape'
  cases result with
  | error f => cases hshape
  | ok v =>
    simp only [Except.map, Except.toOption, shape_fillNaN] at hshape hshape'
    rw [hshape] at hshape'
    cases hshape'

end Registry

end Formulary
