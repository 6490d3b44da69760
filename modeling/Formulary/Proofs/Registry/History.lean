import Formulary.Proofs.Registry.Acyclic

/-!
What the history of a registry tells about its entries.

Every entry that is put in its place has a stamp of its own, so a log can say what each stamp was
given to: no two entries that were ever registered share one. What an entry of an expression was
built against is in the log as well, and no registered entry is retired. An operation changes what
stands under the name that it targets and, where it builds again what depends on that, under those
names; all other names keep what they had.
-/

namespace Formulary

namespace Registry

variable {r r' : Registry} {e g : Entry} {op : Operation} {n m name key : String}

/-! ## Looking up -/

theorem evaluate_eq (hkey : r.nameOf? key = some n) (he : r.entries.get? n = some e)
    (args : List NdArray) : r.evaluate key args = e.call r.stamps.retired args := by
  rw [evaluate, get_eq_ok.mpr ⟨n, hkey, he⟩, Except.ok_bind]

theorem evaluateNamed_eq (hkey : r.nameOf? key = some n) (he : r.entries.get? n = some e)
    (given : NameMap NdArray) :
    r.evaluateNamed key given = e.callNamed r.stamps.retired given := by
  rw [evaluateNamed, get_eq_ok.mpr ⟨n, hkey, he⟩, Except.ok_bind]

theorem not_depends_of_dependents (hd : r.references.dependents name = [])
    (he : r.entries.get? n = some e) (hne : n ≠ name) : name ∉ e.dependencies := by
  intro hmem
  have hneeds : r.references.Needs n name :=
    ⟨e.dependencies, by rw [references, NameMap.get?_map, he, Option.map_some], hmem⟩
  have := DependencyGraph.mem_dependents.mpr ⟨hne, hneeds⟩
  rw [hd] at this
  cases this

theorem get?_without {mode : DeleteMode} :
    (r.without e mode).entries.get? n = if n = e.name then none else r.entries.get? n :=
  NameMap.get?_erase ..

/-! ## The log of stamps -/

/-- The entries are in the log, each under its own name. -/
def Logged (log : Stamp → Option Entry) (entries : NameMap Entry) : Prop :=
  ∀ n g, entries.get? n = some g → log g.stamp = some g ∧ g.name = n

/-- The log says what each stamp that has been given out was given to. -/
structure Recorded (log : Stamp → Option Entry) (r : Registry) : Prop where
  unused : ∀ s, r.stamps.next ≤ s → log s = none
  logged : Logged log r.entries
  spent : ∀ s ∈ r.stamps.retired, s < r.stamps.next
  live : ∀ n e, r.entries.get? n = some e → e.stamp ∉ r.stamps.retired
  /-- An entry of an expression was built against entries of the log. -/
  origin : ∀ n e, r.entries.get? n = some e → e.isDerived = true → ∃ entries retired,
    Logged log entries ∧
      Entry.build ⟨entries, r.settings.freeParameters, e.fill, e.stamp, retired⟩ e.key e.source =
        .ok e

/-- What has been made is added to the log. -/
theorem Recorded.put {log : Stamp → Option Entry} {key : Key} {source : Source}
    (h : Recorded log r) (hmade : r.Made key source e) :
    Recorded (fun s => if s = r.stamps.next then some e else log s) (r.put e) := by
  have hkeep : ∀ entries, Logged log entries →
      Logged (fun s => if s = r.stamps.next then some e else log s) entries := by
    intro entries hlogged n g hg
    obtain ⟨hlog, hname⟩ := hlogged n g hg
    refine ⟨?_, hname⟩
    have hne : g.stamp ≠ r.stamps.next := fun hs => by
      rw [hs, h.unused _ le_rfl] at hlog
      cases hlog
    simp only [if_neg hne, hlog]
  have hold := hkeep r.entries h.logged
  refine ⟨fun s hs => ?_, ?_, fun s hs => ?_, ?_, ?_⟩
  · have hlt : r.stamps.next < s := hs
    simp only [if_neg (Nat.ne_of_gt hlt), h.unused s (Nat.le_of_lt hlt)]
  · exact forall_put hold ⟨if_pos hmade.stamp_eq, rfl⟩
  · exact Nat.lt_succ_of_lt (h.spent s hs)
  · refine forall_put h.live fun hs => ?_
    have := h.spent e.stamp hs
    rw [hmade.stamp_eq] at this
    exact Nat.lt_irrefl _ this
  · refine forall_put (fun n g hg hderived => ?_) fun hderived => ?_
    · obtain ⟨entries, retired, hlogged, hbuild⟩ := h.origin n g hg hderived
      exact ⟨entries, retired, hkeep entries hlogged, hbuild⟩
    · refine ⟨r.entries, r.stamps.retired, hold, ?_⟩
      rw [hmade.stamp_eq, hmade.key_eq, hmade.source_eq]
      exact hmade.derived hderived

/-- No two entries of a log share a stamp. -/
theorem Logged.eq_of_stamp {log : Stamp → Option Entry} {entries entries' : NameMap Entry}
    (h : Logged log entries) (h' : Logged log entries') (he : entries.get? n = some e)
    (hg : entries'.get? m = some g) (hs : e.stamp = g.stamp) : e = g ∧ n = m := by
  obtain ⟨hloge, hnamee⟩ := h n e he
  obtain ⟨hlogg, hnameg⟩ := h' m g hg
  rw [hs, hlogg, Option.some.injEq] at hloge
  exact ⟨hloge.symm, by rw [← hnamee, ← hnameg, hloge]⟩

/-- Removing an entry leaves the log as it is. -/
theorem Recorded.without {log : Stamp → Option Entry} {mode : DeleteMode} (hr : r.WellFormed)
    (h : Recorded log r) (he : r.entries.get? e.name = some e) :
    Recorded log (r.without e mode) := by
  have hold : ∀ n g, (r.without e mode).entries.get? n = some g →
      n ≠ e.name ∧ r.entries.get? n = some g := by
    intro n g hg
    rw [get?_without] at hg
    split at hg
    · cases hg
    · exact ⟨‹_›, hg⟩
  refine ⟨h.unused, fun n g hg => h.logged n g (hold n g hg).2, fun s hs => ?_, fun n g hg => ?_,
    fun n g hg => h.origin n g (hold n g hg).2⟩
  · cases mode with
    | guarded => exact h.spent s hs
    | force =>
      rcases List.mem_cons.mp hs with rfl | hs
      · exact (hr.regular _ e he).stamped
      · exact h.spent s hs
  · obtain ⟨hne, hg₀⟩ := hold n g hg
    cases mode with
    | guarded => exact h.live n g hg₀
    | force =>
      intro hs
      rcases List.mem_cons.mp hs with hs | hs
      · exact hne (h.logged.eq_of_stamp h.logged hg₀ he hs).2
      · exact h.live n g hg₀ hs

theorem Recorded.reindex {log : Stamp → Option Entry} (h : Recorded log r) : Recorded log r.reindex :=
  ⟨h.unused, h.logged, h.spent, h.live, h.origin⟩

/-- There is a log of every run. -/
theorem run_recorded (settings : Settings) (ops : List Operation) :
    ∃ log, Recorded log (run settings ops) := by
  have hnone : ∀ n e, (NameMap.empty : NameMap Entry).get? n ≠ some e := by simp
  refine (run_induction (P := fun r => ∃ log, Recorded log r) ?_ ?_ ops).1
  · exact ⟨fun _ => none, fun _ _ => rfl, fun n e h => absurd h (hnone n e),
      fun s h => absurd h List.not_mem_nil, fun n e h => absurd h (hnone n e),
      fun n e h => absurd h (hnone n e)⟩
  · intro r op r' hr _ hlog hstep
    refine hstep.preserves (P := fun r => ∃ log, Recorded log r) hr hlog ?_ ?_ ?_
    · rintro r key source e - ⟨log, h⟩ hmade
      exact ⟨_, h.put hmade⟩
    · rintro r ⟨log, h⟩
      exact ⟨log, h.reindex⟩
    · rintro key mode e - he -
      obtain ⟨log, h⟩ := hlog
      exact ⟨log, h.without hr he⟩

/-! ## What operations change -/

/-- The operation is one on the entry of the name. -/
def Targets (r : Registry) : Operation → String → Prop
  | .set key _, n => ∃ k, Key.read key = .ok k ∧ k.name = n
  | .delete key _, n | .refresh key, n | .setFill key _, n => r.nameOf? key = some n
  | .refreshAll, _ => False

/-- The operation, if it succeeds, builds the entry of the name: it sets, refreshes or refills it,
refreshes all, or is such an operation on an entry that it depends on, under the eager policy. -/
def Renews (r : Registry) (op : Operation) (n : String) : Prop :=
  match op with
  | .delete .. => False
  | .refreshAll => True
  | op => r.Targets op n ∨ r.settings.refresh = .eager ∧
    ∃ e, r.prepare op = .ok e ∧ n ∈ (r.put e).references.reach e.name

/-- What an operation builds stands under the name that it targets. -/
theorem targets_of_prepare (hr : r.WellFormed) (h : r.prepare op = .ok e) :
    r.Targets op e.name := by
  cases prepares_of_prepare hr h with
  | @set _ k _ _ read made => exact ⟨k, read, made.name_eq.symm⟩
  | refresh named found made | setFill named found made =>
    rw [made.name_eq_of_found hr found]
    exact named

theorem renews_of_prepare (h : r.prepare op = .ok e) (hn : r.Targets op n ∨
    r.settings.refresh = .eager ∧ n ∈ (r.put e).references.reach e.name) : r.Renews op n := by
  have hn : r.Targets op n ∨ r.settings.refresh = .eager ∧
      ∃ e, r.prepare op = .ok e ∧ n ∈ (r.put e).references.reach e.name :=
    hn.imp_right fun hn => ⟨hn.1, e, h, hn.2⟩
  cases op with
  | set => exact hn
  | refresh => exact hn
  | setFill => exact hn
  | delete => cases h
  | refreshAll => cases h

/-- What stands under a name stays there until it is built again or removed. -/
theorem Step.get?_eq (hr : r.WellFormed) (h : Step r op r') (hop : ¬ r.Renews op n) :
    r'.entries.get? n = r.entries.get? n ∨ r'.entries.get? n = none := by
  have hother : ∀ {e}, r.prepare op = .ok e → n ≠ e.name := fun {e} hprep hn =>
    hop (renews_of_prepare hprep (.inl (hn ▸ targets_of_prepare hr hprep)))
  cases h with
  | put prepared =>
    rw [reindex_entries, get?_put, if_neg (hother prepared)]
    exact .inl rfl
  | renew prepared _ eager ordered replaced =>
    have hnot : n ∉ (r.put _).renewed _ _ := fun hn =>
      hop (renews_of_prepare prepared (.inr ⟨eager, (mem_renewed ordered).mp hn⟩))
    rw [replaced.kept n hnot, get?_put, if_neg (hother prepared)]
    exact .inl rfl
  | @delete _ _ e =>
    rw [get?_without]
    split
    · exact .inr rfl
    · exact .inl rfl
  | all => exact absurd trivial hop

/-- What is retired stays so. -/
theorem Step.retired_subset (hr : r.WellFormed) (h : Step r op r') :
    r.stamps.retired ⊆ r'.stamps.retired := by
  refine h.preserves (P := fun r' => r.stamps.retired ⊆ r'.stamps.retired) hr
    (List.Subset.refl _) ?_ (fun _ hsub => hsub) ?_
  · intro _ _ _ _ _ hsub _
    exact hsub
  · intro _ mode e _ _ _
    cases mode with
    | guarded => exact List.Subset.refl _
    | force => exact List.subset_cons_self _ _

/-! ## Runs that go on -/

/-- Each operation that succeeds after some others, and after those before it, meets the
condition. -/
def Throughout (settings : Settings) (first later : List Operation)
    (Q : Registry → Operation → Prop) : Prop :=
  ∀ done op, done ++ [op] <+: later → (run settings (first ++ done)).Accepts op →
    Q (run settings (first ++ done)) op

theorem Throughout.nil {settings : Settings} {first : List Operation}
    {Q : Registry → Operation → Prop} : Throughout settings first [] Q := by
  intro done op hpre
  simp at hpre

theorem Throughout.cons {settings : Settings} {first later : List Operation}
    {Q : Registry → Operation → Prop}
    (hop : (run settings first).Accepts op → Q (run settings first) op)
    (h : Throughout settings (first ++ [op]) later Q) :
    Throughout settings first (op :: later) Q := by
  intro done op' hpre haccepts
  cases done with
  | nil =>
    obtain rfl : op' = op := (List.cons_prefix_cons.mp hpre).1
    rw [List.append_nil] at haccepts ⊢
    exact hop haccepts
  | cons a done =>
    obtain ⟨rfl, hrest⟩ := List.cons_prefix_cons.mp hpre
    rw [List.append_cons] at haccepts ⊢
    exact h done op' hrest haccepts

/-- What holds after some operations and is kept by every successful one that meets a condition
holds as long as all that follow meet it. -/
theorem Throughout.induction {settings : Settings} {first later : List Operation}
    {Q : Registry → Operation → Prop} {P : Registry → Prop}
    (hlater : Throughout settings first later Q) (start : P (run settings first))
    (step : ∀ r op r', r.WellFormed → r.settings = settings → (∃ log, Recorded log r) → P r →
      Q r op → Step r op r' → P r') : P (run settings (first ++ later)) := by
  suffices h : ∀ done, done <+: later → P (run settings (first ++ done)) from
    h later (List.prefix_refl _)
  intro done
  induction done using List.reverseRecOn with
  | nil =>
    rw [List.append_nil]
    exact fun _ => start
  | append_singleton done op ih =>
    intro hpre
    have hdone := ih ((List.prefix_append _ _).trans hpre)
    have hwf := run_wellFormed settings (first ++ done)
    rw [← List.append_assoc, run_snoc]
    cases hperf : (run settings (first ++ done)).perform op with
    | error f =>
      rw [after_of_error hperf]
      exact hdone
    | ok r' =>
      rw [after_of_ok hperf]
      exact step _ op r' hwf (run_settings _ _) (run_recorded _ _) hdone
        (hlater done op hpre ⟨r', hperf⟩) (perform_step hwf hperf)

end Registry

end Formulary
