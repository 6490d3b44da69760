import Formulary.Proofs.Entry.Resolution
import Formulary.Term.Evaluation
import Mathlib.Data.List.Forall2

/-!
What the evaluation of a term takes from the entries that it applies.

Evaluation is strict and runs from left to right. So a term has a value only if every entry that it
applies answers, and what stands under other names does not matter. A fault is either one of the
term's own (`ownCodes`) or that of an entry that is called. An entry that always fails with one code
is either called, and then the term fails with that code, or it makes no difference at all.

## How the proofs go

Each statement is one recursion over terms, lists of arguments and sums that are being folded, since
evaluation recurs through all three. The equations in the first section put evaluation in the form of binds,
so that in each case a lemma on binds is applied to the parts: `FailsWith.bind`, `Explained.bind`,
`same_or_failsWith_bind`.

## Why the last statement is a choice

Whether an entry is called cannot be read off the term. A term may apply an entry and fail before it comes
to it, and then with another code. So `eval_withEntry` says of any replacement that it makes no difference, or
that the term fails with the code. `Reaches` is the second case seen from outside: some replacement makes a
difference, so evaluation has come to the entry.
-/

namespace Formulary.Term

/-- What an entry does with its arguments. -/
abbrev EntryCall := List NdArray → Except Fault NdArray

/-- The environment with another entry under a name. -/
def Environment.withEntry (env : Environment) (name : String) (call : EntryCall) : Environment :=
  { env with entry := fun n => if n = name then some call else env.entry n }

/-- The codes of the faults that a term has of its own. -/
def ownCodes : List String := ["SHAPE_MISMATCH", "INTERNAL", "ARG_COUNT"]

variable {env : Environment} {entry : String → Option EntryCall} {name code : String} {f : Fault}

/-! ## Equations -/

/-- The elementwise result of a built-in function. -/
def applyFunction : Builtin → List NdArray → Except Fault NdArray
  | .atan2, [y, x] => joinArrays Float.atan2 y x
  | f, [x] => .ok (x.map f.toFloat)
  | f, args => .error (.ofCause (.argCount f.name f.arity args.length))

theorem evalAll_cons (env : Environment) (t : Term) (ts : List Term) :
    evalAll env (t :: ts) =
      eval env t >>= fun v => evalAll env ts >>= fun vs => .ok (v :: vs) := rfl

theorem evalAll_cons_eq_ok {t : Term} {ts : List Term} {values : List NdArray} :
    evalAll env (t :: ts) = .ok values ↔
      ∃ v vs, eval env t = .ok v ∧ evalAll env ts = .ok vs ∧ values = v :: vs := by
  rw [evalAll_cons]
  constructor
  · intro h
    obtain ⟨v, hv, h⟩ := Except.bind_eq_ok.mp h
    obtain ⟨vs, hvs, h⟩ := Except.bind_eq_ok.mp h
    cases h
    exact ⟨v, vs, hv, hvs, rfl⟩
  · rintro ⟨v, vs, hv, hvs, rfl⟩
    rw [hv, Except.ok_bind, hvs, Except.ok_bind]

/-- Several terms have the values that each of them has. -/
theorem evalAll_eq_ok_iff {ts : List Term} {values : List NdArray} :
    evalAll env ts = .ok values ↔ List.Forall₂ (fun t v => eval env t = .ok v) ts values := by
  induction ts generalizing values with
  | nil =>
    rw [List.forall₂_nil_left_iff]
    constructor
    · intro h
      cases h
      rfl
    · intro h
      rw [h]
      rfl
  | cons t ts ih =>
    rw [evalAll_cons_eq_ok, List.forall₂_cons_left_iff]
    simp only [ih]

theorem eval_atan2 (args : List Term) :
    eval env (.func .atan2 args) =
      if args.length = 2 then evalAll env args >>= applyFunction .atan2
      else .error (.ofCause (.argCount "atan2" 2 args.length)) := by
  match args with
  | [] => rfl
  | [y] => rfl
  | [y, x] =>
    rw [if_pos (by rfl), evalAll_cons, evalAll_cons]
    change (eval env y >>= fun a => eval env x >>= fun b => joinArrays Float.atan2 a b) = _
    cases eval env y <;> cases eval env x <;> rfl
  | y :: x :: z :: r =>
    rw [if_neg (by simp)]
    rfl

theorem eval_unary {f : Builtin} (hf : f ≠ .atan2) (args : List Term) :
    eval env (.func f args) =
      if args.length = 1 then evalAll env args >>= applyFunction f
      else .error (.ofCause (.argCount f.name 1 args.length)) := by
  match args with
  | [] =>
    cases f with
    | atan2 => exact absurd rfl hf
    | _ => rfl
  | [x] =>
    have heval : eval env (.func f [x]) = eval env x >>= fun v => applyFunction f [v] := by
      cases f with
      | atan2 => exact absurd rfl hf
      | _ => rfl
    rw [if_pos (by rfl), evalAll_cons, heval]
    cases eval env x <;> rfl
  | y :: x :: r =>
    rw [if_neg (by simp)]
    cases f with
    | atan2 => exact absurd rfl hf
    | _ => rfl

/-- A built-in function evaluates all its arguments, if they are as many as it takes. -/
theorem eval_func (f : Builtin) (args : List Term) :
    eval env (.func f args) =
      if args.length = f.arity then evalAll env args >>= applyFunction f
      else .error (.ofCause (.argCount f.name f.arity args.length)) := by
  by_cases hf : f = .atan2
  · subst hf
    exact eval_atan2 args
  · have harity : f.arity = 1 := by
      cases f with
      | atan2 => exact absurd rfl hf
      | _ => rfl
    rw [harity]
    exact eval_unary hf args

theorem evalFold_cons (env : Environment) (g : Float → Float → Float) (acc : Option NdArray)
    (t : Term) (ts : List Term) :
    evalFold env g acc (t :: ts) = eval env t >>= fun v =>
      (match acc with
        | some a => joinArrays g a v
        | none => .ok v) >>= fun b => evalFold env g (some b) ts := by
  cases acc with
  | none => rfl
  | some a => rfl

/-! ## Names that are not applied -/

mutual

/-- What a term does not apply does not matter. -/
theorem eval_congr (env : Environment) : ∀ t : Term, (∀ n ∈ t.appliedIn, entry n = env.entry n) →
    eval { env with entry } t = eval env t
  | .num _, _ | .const _, _ | .var _, _ => by simp only [eval]
  | .func f args, h => by rw [eval_func, eval_func, evalAll_congr env args h]
  | .apply x args, h => by
    have hargs := evalAll_congr env args fun n hn => h n (List.mem_cons_of_mem _ hn)
    simp only [eval, h x List.mem_cons_self, hargs]
  | .add ts, h => by rw [eval, eval, evalFold_congr env _ _ ts h]
  | .mul c fs, h => by rw [eval, eval, evalFold_congr env _ _ fs h]
  | .pow b e, h => by
    have hb := eval_congr env b fun n hn => h n (List.mem_append_left _ hn)
    have he := eval_congr env e fun n hn => h n (List.mem_append_right _ hn)
    rw [eval, eval, hb, he]

theorem evalAll_congr (env : Environment) : ∀ ts : List Term,
    (∀ n ∈ appliedInAll ts, entry n = env.entry n) →
      evalAll { env with entry } ts = evalAll env ts
  | [], _ => rfl
  | t :: ts, h => by
    have ht := eval_congr env t fun n hn => h n (List.mem_append_left _ hn)
    have hts := evalAll_congr env ts fun n hn => h n (List.mem_append_right _ hn)
    rw [evalAll_cons, evalAll_cons, ht, hts]

theorem evalFold_congr (env : Environment) (g : Float → Float → Float) :
    ∀ (acc : Option NdArray) (ts : List Term), (∀ n ∈ appliedInAll ts, entry n = env.entry n) →
      evalFold { env with entry } g acc ts = evalFold env g acc ts
  | acc, [], _ => by cases acc <;> simp only [evalFold]
  | acc, t :: ts, h => by
    have ht := eval_congr env t fun n hn => h n (List.mem_append_left _ hn)
    have hts := fun b => evalFold_congr env g (some b) ts fun n hn =>
      h n (List.mem_append_right _ hn)
    rw [evalFold_cons, evalFold_cons, ht]
    simp only [hts]

end

/-! ## Entries that are applied -/

/-- The entry under the name has given a value. -/
def Environment.Answers (env : Environment) (name : String) : Prop :=
  ∃ call values v, env.entry name = some call ∧ call values = .ok v

mutual

/-- A term has a value only if every entry that it applies answers. -/
theorem answers_of_eval : ∀ {t : Term} {v : NdArray}, eval env t = .ok v →
    ∀ n ∈ t.appliedIn, env.Answers n
  | .num _, _, _, n, hn | .const _, _, _, n, hn | .var _, _, _, n, hn => absurd hn List.not_mem_nil
  | .func f args, v, h, n, hn => by
    rw [eval_func] at h
    split at h
    · obtain ⟨vs, hvs, -⟩ := Except.bind_eq_ok.mp h
      exact answers_of_evalAll hvs n hn
    · cases h
  | .apply x args, v, h, n, hn => by
    rw [eval] at h
    split at h
    · rename_i call hcall
      obtain ⟨vs, hvs, h⟩ := Except.bind_eq_ok.mp h
      rcases List.mem_cons.mp hn with rfl | hn
      · exact ⟨call, vs, v, hcall, Except.mapError_eq_ok.mp h⟩
      · exact answers_of_evalAll hvs n hn
    · cases h
  | .add ts, v, h, n, hn => by
    rw [eval] at h
    exact answers_of_evalFold h n hn
  | .mul c fs, v, h, n, hn => answers_of_evalFold h n hn
  | .pow b e, v, h, n, hn => by
    rw [eval] at h
    obtain ⟨x, hx, h⟩ := Except.bind_eq_ok.mp h
    obtain ⟨y, hy, -⟩ := Except.bind_eq_ok.mp h
    rcases List.mem_append.mp hn with hn | hn
    · exact answers_of_eval hx n hn
    · exact answers_of_eval hy n hn

theorem answers_of_evalAll : ∀ {ts : List Term} {vs : List NdArray}, evalAll env ts = .ok vs →
    ∀ n ∈ appliedInAll ts, env.Answers n
  | [], _, _, n, hn => absurd hn List.not_mem_nil
  | t :: ts, vs, h, n, hn => by
    obtain ⟨v, ws, hv, hws, -⟩ := evalAll_cons_eq_ok.mp h
    rcases List.mem_append.mp hn with hn | hn
    · exact answers_of_eval hv n hn
    · exact answers_of_evalAll hws n hn

theorem answers_of_evalFold {g : Float → Float → Float} :
    ∀ {acc : Option NdArray} {ts : List Term} {v : NdArray}, evalFold env g acc ts = .ok v →
      ∀ n ∈ appliedInAll ts, env.Answers n
  | _, [], _, _, n, hn => absurd hn List.not_mem_nil
  | acc, t :: ts, v, h, n, hn => by
    rw [evalFold_cons] at h
    obtain ⟨x, hx, h⟩ := Except.bind_eq_ok.mp h
    obtain ⟨b, -, h⟩ := Except.bind_eq_ok.mp h
    rcases List.mem_append.mp hn with hn | hn
    · exact answers_of_eval hx n hn
    · exact answers_of_evalFold h n hn

end

/-! ## An entry that always fails -/

/-- The result is a fault with the code. -/
def FailsWith {α : Type} (code : String) (x : Except Fault α) : Prop :=
  ∃ f, x = .error f ∧ f.code = code

theorem FailsWith.bind {α β : Type} {x : Except Fault α} (h : FailsWith code x)
    (k : α → Except Fault β) : FailsWith code (x >>= k) := by
  obtain ⟨f, rfl, hf⟩ := h
  exact ⟨f, rfl, hf⟩

theorem FailsWith.mapError {α : Type} {x : Except Fault α} (h : FailsWith code x) (text : String) :
    FailsWith code (x.mapError (·.note text)) := by
  obtain ⟨f, rfl, hf⟩ := h
  exact ⟨f.note text, rfl, hf⟩

/-- What is done the same way, or fails with the code on the way. -/
theorem same_or_failsWith_bind {α β : Type} {x x' : Except Fault α} {k k' : α → Except Fault β}
    (hx : x' = x ∨ FailsWith code x) (hk : ∀ a, k' a = k a ∨ FailsWith code (k a)) :
    (x' >>= k') = (x >>= k) ∨ FailsWith code (x >>= k) := by
  rcases hx with rfl | hx
  · cases x' with
    | error e => exact .inl rfl
    | ok a => exact hk a
  · exact .inr (hx.bind k)

/-- The entry under the name always fails, and with the code. -/
def Environment.AlwaysFails (env : Environment) (name code : String) : Prop :=
  ∃ call, env.entry name = some call ∧ ∀ values, FailsWith code (call values)

mutual

/-- An entry that always fails with the code makes no difference, or the term fails with it. -/
theorem eval_withEntry (h : env.AlwaysFails name code) (call : EntryCall) : ∀ t : Term,
    eval (env.withEntry name call) t = eval env t ∨ FailsWith code (eval env t)
  | .num _ | .const _ | .var _ => .inl (by simp only [eval, Environment.withEntry])
  | .func f args => by
    rw [eval_func, eval_func]
    split
    · exact same_or_failsWith_bind (evalAll_withEntry h call args) fun _ => .inl rfl
    · exact .inl rfl
  | .apply x args => by
    have hargs := evalAll_withEntry h call args
    rw [eval, eval]
    by_cases hx : x = name
    · subst hx
      obtain ⟨c, hc, hfails⟩ := h
      have hnew : (env.withEntry x call).entry x = some call := if_pos rfl
      rw [hc, hnew]
      exact same_or_failsWith_bind hargs fun vs => .inr ((hfails vs).mapError _)
    · have hsame : (env.withEntry name call).entry x = env.entry x := if_neg hx
      rw [hsame]
      cases env.entry x with
      | none => exact .inl rfl
      | some d => exact same_or_failsWith_bind hargs fun _ => .inl rfl
  | .add ts => by
    rw [eval, eval]
    exact evalFold_withEntry h call _ none ts
  | .mul c fs => by
    rw [eval, eval]
    exact evalFold_withEntry h call _ _ fs
  | .pow b e => by
    rw [eval, eval]
    exact same_or_failsWith_bind (eval_withEntry h call b) fun _ =>
      same_or_failsWith_bind (eval_withEntry h call e) fun _ => .inl rfl

theorem evalAll_withEntry (h : env.AlwaysFails name code) (call : EntryCall) : ∀ ts : List Term,
    evalAll (env.withEntry name call) ts = evalAll env ts ∨ FailsWith code (evalAll env ts)
  | [] => .inl rfl
  | t :: ts => by
    rw [evalAll_cons, evalAll_cons]
    exact same_or_failsWith_bind (eval_withEntry h call t) fun _ =>
      same_or_failsWith_bind (evalAll_withEntry h call ts) fun _ => .inl rfl

theorem evalFold_withEntry (h : env.AlwaysFails name code) (call : EntryCall)
    (g : Float → Float → Float) : ∀ (acc : Option NdArray) (ts : List Term),
    evalFold (env.withEntry name call) g acc ts = evalFold env g acc ts ∨
      FailsWith code (evalFold env g acc ts)
  | none, [] | some _, [] => .inl rfl
  | acc, t :: ts => by
    rw [evalFold_cons, evalFold_cons]
    exact same_or_failsWith_bind (eval_withEntry h call t) fun _ =>
      same_or_failsWith_bind (.inl rfl) fun b => evalFold_withEntry h call g (some b) ts

end

/-- Evaluation comes to the entry under the name: what stands there makes a difference. -/
def Reaches (env : Environment) (name : String) (t : Term) : Prop :=
  ∃ call, eval (env.withEntry name call) t ≠ eval env t

theorem failsWith_of_reaches {t : Term} (h : env.AlwaysFails name code) (ht : Reaches env name t) :
    FailsWith code (eval env t) := by
  obtain ⟨call, hne⟩ := ht
  exact (eval_withEntry h call t).resolve_left hne

/-! ## Where faults come from -/

theorem internal_mem_ownCodes (detail : String) :
    (Fault.ofCause (.internal detail)).code ∈ ownCodes := .tail _ (.head _)

theorem argCount_mem_ownCodes (callee : String) (expected got : Nat) :
    (Fault.ofCause (.argCount callee expected got)).code ∈ ownCodes := .tail _ (.tail _ (.head _))

theorem shape_mem_ownCodes (e : ShapeError) : e.fault.code ∈ ownCodes := by
  cases e <;> exact .head _

/-- The fault has the cause of one that an entry gave. -/
def Environment.Blames (env : Environment) (f : Fault) : Prop :=
  ∃ name call values f', env.entry name = some call ∧ call values = .error f' ∧ f'.cause = f.cause

/-- The faults of the result are the term's own, or come from an entry that is called. -/
def Explained {α : Type} (env : Environment) (x : Except Fault α) : Prop :=
  ∀ f, x = .error f → f.code ∈ ownCodes ∨ env.Blames f

theorem Explained.ok {α : Type} (a : α) : Explained env (.ok a : Except Fault α) := nofun

theorem Explained.own {α : Type} (h : f.code ∈ ownCodes) :
    Explained env (.error f : Except Fault α) := by
  intro f' hf'
  cases hf'
  exact .inl h

theorem Explained.bind {α β : Type} {x : Except Fault α} {k : α → Except Fault β}
    (hx : Explained env x) (hk : ∀ a, Explained env (k a)) : Explained env (x >>= k) := by
  cases x with
  | error e =>
    intro f hf
    cases hf
    exact hx e rfl
  | ok a => exact hk a

theorem explained_joinArrays (g : Float → Float → Float) (a b : NdArray) :
    Explained env (joinArrays g a b) := by
  unfold joinArrays
  cases NdArray.zipWith g a b with
  | ok c => exact .ok c
  | error e => exact .own (shape_mem_ownCodes e)

theorem explained_applyFunction (g : Builtin) (vs : List NdArray) :
    Explained env (applyFunction g vs) := by
  unfold applyFunction
  split
  · exact explained_joinArrays _ _ _
  · exact .ok _
  · exact .own (argCount_mem_ownCodes _ _ _)

mutual

/-- Every fault of a term is its own or that of an entry. -/
theorem explained_eval (env : Environment) : ∀ t : Term, Explained env (eval env t)
  | .num _ | .const _ => by
    rw [eval]
    exact .ok _
  | .var x => by
    rw [eval]
    split
    · exact .ok _
    · exact .own (internal_mem_ownCodes _)
  | .func g args => by
    rw [eval_func]
    split
    · exact (explained_evalAll env args).bind fun vs => explained_applyFunction g vs
    · exact .own (argCount_mem_ownCodes _ _ _)
  | .apply x args => by
    rw [eval]
    split
    · rename_i call hcall
      refine (explained_evalAll env args).bind fun vs f hf => .inr ?_
      obtain ⟨f', hresult, rfl⟩ := Except.mapError_eq_error.mp hf
      exact ⟨x, call, vs, f', hcall, hresult, rfl⟩
    · exact .own (internal_mem_ownCodes _)
  | .add ts => by
    rw [eval]
    exact explained_evalFold env _ none ts
  | .mul c fs => by
    rw [eval]
    exact explained_evalFold env _ _ fs
  | .pow b e => by
    rw [eval]
    exact (explained_eval env b).bind fun _ => (explained_eval env e).bind fun _ =>
      explained_joinArrays _ _ _

theorem explained_evalAll (env : Environment) : ∀ ts : List Term, Explained env (evalAll env ts)
  | [] => .ok _
  | t :: ts => by
    rw [evalAll_cons]
    exact (explained_eval env t).bind fun _ => (explained_evalAll env ts).bind fun _ => .ok _

theorem explained_evalFold (env : Environment) (g : Float → Float → Float) :
    ∀ (acc : Option NdArray) (ts : List Term), Explained env (evalFold env g acc ts)
  | none, [] => .own (internal_mem_ownCodes _)
  | some a, [] => .ok a
  | acc, t :: ts => by
    rw [evalFold_cons]
    refine (explained_eval env t).bind fun v => Explained.bind ?_ fun b =>
      explained_evalFold env g (some b) ts
    cases acc with
    | none => exact .ok v
    | some a => exact explained_joinArrays _ _ _

end

end Formulary.Term
