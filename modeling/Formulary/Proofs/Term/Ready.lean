import Formulary.Proofs.Except
import Formulary.Proofs.Term.Canonical
import Formulary.Proofs.Term.Evaluation

/-!
Terms whose evaluation cannot get stuck.

A term is ready when its parameters and the applications of entries in it are among those that are
provided for, its functions have as many arguments as they take, and no sum or product is empty.
What evaluating a ready term can still run into is arrays whose shapes do not fit together, and the
faults of the entries that it applies.
-/

namespace Formulary.Term

/-- The parameters are provided, the entries are provided for the number of arguments that they are
applied to, functions have as many arguments as they take, and sums and products have operands. -/
inductive Ready (isParameter : String → Prop) (takes : String → Nat → Prop) : Term → Prop
  | num (q : Rat) : Ready isParameter takes (.num q)
  | const (c : Constant) : Ready isParameter takes (.const c)
  | var {x : String} (hx : isParameter x) : Ready isParameter takes (.var x)
  | func {f : Builtin} {args : List Term} (hlen : args.length = f.arity)
    (h : ∀ t ∈ args, Ready isParameter takes t) : Ready isParameter takes (.func f args)
  | apply {name : String} {args : List Term} (hn : takes name args.length)
    (h : ∀ t ∈ args, Ready isParameter takes t) : Ready isParameter takes (.apply name args)
  | add {ts : List Term} (hne : ts ≠ []) (h : ∀ t ∈ ts, Ready isParameter takes t) :
    Ready isParameter takes (.add ts)
  | mul (c : Rat) {fs : List Term} (hne : fs ≠ []) (h : ∀ f ∈ fs, Ready isParameter takes f) :
    Ready isParameter takes (.mul c fs)
  | pow {b e : Term} (hb : Ready isParameter takes b) (he : Ready isParameter takes e) :
    Ready isParameter takes (.pow b e)

section Names

variable {P P' : String → Prop} {T T' : String → Nat → Prop} {t : Term}

theorem Ready.mono (h : Ready P T t) (hP : ∀ x, P x → P' x) (hT : ∀ n k, T n k → T' n k) :
    Ready P' T' t := by
  induction h with
  | num q => exact .num q
  | const c => exact .const c
  | var hx => exact .var (hP _ hx)
  | func hlen _ ih => exact .func hlen ih
  | apply hn _ ih => exact .apply (hT _ _ hn) ih
  | add hne _ ih => exact .add hne ih
  | mul c hne _ ih => exact .mul c hne ih
  | pow _ _ ihb ihe => exact .pow ihb ihe

/-- What is formed from ready atoms is ready. -/
theorem Formed.ready (h : Formed (Ready P T) t) : Ready P T t := by
  induction h with
  | num q => exact .num q
  | atom _ h => exact h
  | add hlen _ ih => exact .add (List.ne_nil_of_length_pos (by omega)) ih
  | mul c hne _ _ _ ih => exact .mul c hne ih
  | pow _ _ ihb ihe => exact .pow ihb ihe

theorem exists_of_mem_varsInAll {x : String} : ∀ {ts : List Term}, x ∈ varsInAll ts →
    ∃ t ∈ ts, x ∈ t.varsIn
  | t :: ts, hx => by
      rcases List.mem_append.mp hx with hx | hx
      · exact ⟨t, by simp, hx⟩
      · obtain ⟨u, hu, hx⟩ := exists_of_mem_varsInAll hx
        exact ⟨u, List.mem_cons_of_mem _ hu, hx⟩

theorem exists_of_mem_appliedInAll {n : String} : ∀ {ts : List Term}, n ∈ appliedInAll ts →
    ∃ t ∈ ts, n ∈ t.appliedIn
  | t :: ts, hn => by
      rcases List.mem_append.mp hn with hn | hn
      · exact ⟨t, by simp, hn⟩
      · obtain ⟨u, hu, hn⟩ := exists_of_mem_appliedInAll hn
        exact ⟨u, List.mem_cons_of_mem _ hu, hn⟩

theorem Ready.vars (h : Ready P T t) : ∀ x ∈ t.varsIn, P x := by
  have hlist : ∀ {ts : List Term}, (∀ t ∈ ts, ∀ x ∈ t.varsIn, P x) → ∀ x ∈ varsInAll ts, P x :=
    fun hts x hx => by
      obtain ⟨t, ht, hx⟩ := exists_of_mem_varsInAll hx
      exact hts t ht x hx
  induction h with
  | num | const => exact fun x hx => absurd hx List.not_mem_nil
  | var hy =>
    intro x hx
    rwa [List.mem_singleton.mp hx]
  | func _ _ ih | apply _ _ ih | add _ _ ih | mul _ _ _ ih => exact hlist ih
  | pow _ _ ihb ihe => exact fun x hx => (List.mem_append.mp hx).elim (ihb x) (ihe x)

theorem Ready.applied (h : Ready P T t) : ∀ n ∈ t.appliedIn, ∃ count, T n count := by
  have hlist : ∀ {ts : List Term}, (∀ t ∈ ts, ∀ n ∈ t.appliedIn, ∃ count, T n count) →
      ∀ n ∈ appliedInAll ts, ∃ count, T n count :=
    fun hts n hn => by
      obtain ⟨t, ht, hn⟩ := exists_of_mem_appliedInAll hn
      exact hts t ht n hn
  induction h with
  | num | const | var => exact fun n hn => absurd hn List.not_mem_nil
  | func _ _ ih | add _ _ ih | mul _ _ _ ih => exact hlist ih
  | apply hm _ ih =>
    intro n hn
    rcases List.mem_cons.mp hn with rfl | hn
    · exact ⟨_, hm⟩
    · exact hlist ih n hn
  | pow _ _ ihb ihe => exact fun n hn => (List.mem_append.mp hn).elim (ihb n) (ihe n)

end Names

/-! ## Evaluation -/

section Faults

variable {B : Cause → Prop} {env : Environment} {t : Term}

/-- Whatever fault the result is, its cause is one of the given ones. -/
def FailsWithin {α : Type} (B : Cause → Prop) (x : Except Fault α) : Prop :=
  ∀ f, x = .error f → B f.cause

theorem FailsWithin.ok {α : Type} (a : α) : FailsWithin B (.ok a : Except Fault α) := nofun

theorem FailsWithin.bind {α β : Type} {x : Except Fault α} {k : α → Except Fault β}
    (hx : FailsWithin B x) (hk : ∀ a, x = .ok a → FailsWithin B (k a)) : FailsWithin B (x >>= k) := by
  intro f hf
  rcases Except.bind_eq_error.mp hf with hf | ⟨a, ha, hf⟩
  · exact hx f hf
  · exact hk a ha f hf

/-- An entry stands under the name, and applied to as many values it fails from the given causes
only. -/
def Environment.Serves (env : Environment) (B : Cause → Prop) (name : String) (count : Nat) : Prop :=
  ∃ call, env.entry name = some call ∧ ∀ values, values.length = count → FailsWithin B (call values)

theorem failsWithin_joinArrays (hB : ∀ detail, B (.shapeMismatch detail))
    (g : Float → Float → Float) (a b : NdArray) : FailsWithin B (joinArrays g a b) := by
  intro f hf
  unfold joinArrays at hf
  cases hzip : NdArray.zipWith g a b with
  | ok c =>
    rw [hzip] at hf
    cases hf
  | error e =>
    rw [hzip] at hf
    cases hf
    cases e <;> exact hB _

theorem failsWithin_applyFunction (hB : ∀ detail, B (.shapeMismatch detail)) {g : Builtin}
    {vs : List NdArray} (hlen : vs.length = g.arity) : FailsWithin B (applyFunction g vs) := by
  unfold applyFunction
  split
  · exact failsWithin_joinArrays hB _ _ _
  · exact .ok _
  · rename_i hone hatan2
    match vs, hlen with
    | [x], _ => exact absurd rfl (hone x)
    | [y, x], hlen =>
      cases g with
      | atan2 => exact absurd rfl (hatan2 y x rfl)
      | _ => cases hlen
    | [], hlen => cases g <;> cases hlen
    | _ :: _ :: _ :: _, hlen => cases g <;> cases hlen

theorem length_evalAll {ts : List Term} {vs : List NdArray} (h : evalAll env ts = .ok vs) :
    vs.length = ts.length :=
  (evalAll_eq_ok_iff.mp h).length_eq.symm

theorem failsWithin_evalAll {ts : List Term} (h : ∀ t ∈ ts, FailsWithin B (eval env t)) :
    FailsWithin B (evalAll env ts) := by
  induction ts with
  | nil => exact .ok _
  | cons t ts ih =>
    rw [evalAll_cons]
    exact (h t (by simp)).bind fun v _ => (ih fun u hu => h u (by simp [hu])).bind fun _ _ => .ok _

theorem failsWithin_evalFold (hB : ∀ detail, B (.shapeMismatch detail)) {g : Float → Float → Float} :
    ∀ {ts : List Term} {acc : Option NdArray}, (ts ≠ [] ∨ acc.isSome) →
      (∀ t ∈ ts, FailsWithin B (eval env t)) → FailsWithin B (evalFold env g acc ts)
  | [], some a, _, _ => by
      rw [evalFold]
      exact .ok a
  | [], none, hne, _ => by simp at hne
  | t :: ts, acc, _, h => by
      rw [evalFold_cons]
      refine (h t (by simp)).bind fun v _ => FailsWithin.bind ?_ fun b _ =>
        failsWithin_evalFold hB (.inr rfl) fun u hu => h u (by simp [hu])
      cases acc with
      | none => exact .ok v
      | some a => exact failsWithin_joinArrays hB _ _ _

/-- A ready term fails only where shapes do not fit together, and where an entry that it applies
does. -/
theorem Ready.failsWithin (hB : ∀ detail, B (.shapeMismatch detail))
    (h : Ready (fun x => (env.parameter x).isSome) (env.Serves B) t) :
    FailsWithin B (eval env t) := by
  induction h with
  | num | const =>
    rw [eval]
    exact .ok _
  | var hx =>
    obtain ⟨a, ha⟩ := Option.isSome_iff_exists.mp hx
    rw [eval, ha]
    exact .ok a
  | func hlen _ ih =>
    rw [eval_func, if_pos hlen]
    exact (failsWithin_evalAll ih).bind fun vs hvs =>
      failsWithin_applyFunction hB ((length_evalAll hvs).trans hlen)
  | apply hn _ ih =>
    obtain ⟨call, hcall, hserves⟩ := hn
    rw [eval, hcall]
    refine (failsWithin_evalAll ih).bind fun vs hvs f hf => ?_
    obtain ⟨f', hresult, rfl⟩ := Except.mapError_eq_error.mp hf
    exact hserves vs (length_evalAll hvs) f' hresult
  | add hne _ ih =>
    rw [eval]
    exact failsWithin_evalFold hB (.inl hne) ih
  | mul c hne _ ih =>
    rw [eval]
    exact failsWithin_evalFold hB (.inl hne) ih
  | pow _ _ ihb ihe =>
    rw [eval]
    exact ihb.bind fun _ _ => ihe.bind fun _ _ => failsWithin_joinArrays hB _ _ _

end Faults

end Formulary.Term
