import Formulary.Proofs.Term.Depth
import Formulary.Term.Latex

/-!
The calls of simplifying and printing.

A product takes powers, a power takes powers and a product, and a layout goes into terms that are
simplified first. `Call.body` is each of these functions as a procedure: it says which calls are made, one
after the other, and how it goes on with what they give. Nothing bounds the calls. `Procedure.Yields` is
what a procedure comes to when its calls are followed to their end, and `Procedure.Makes` which calls it
makes on the way.

The functions that carry a bound solve this recursion, on every term: the body of a call, with each call
that it makes answered by its value, comes to the value of the call (`result_body`). So what a procedure
yields is never anything else.
-/

namespace Formulary.Term

variable {α β : Type}

/-! ## Procedures -/

/-- A call of a function that simplifies, lays out or prints terms, with the type of what it gives. -/
inductive Call : Type → Type
  | product (terms : List Term) : Call Term
  | power (base exponent : Term) : Call Term
  | negated (t : Term) : Call Term
  | difference (a b : Term) : Call Term
  | quotient (a b : Term) : Call Term
  | layout (t : Term) : Call Layout
  | text (t : Term) : Call String
  | latex (t : Term) : Call String

/-- What the function gives. -/
def Call.value : Call α → α
  | .product ts => Term.product ts
  | .power b e => Term.power b e
  | .negated t => Term.negated t
  | .difference a b => Term.difference a b
  | .quotient a b => Term.quotient a b
  | .layout t => Term.layout t
  | .text t => Term.text t
  | .latex t => Term.latex t

/-- A computation that makes calls: it is done, or it goes on with what a call gives. -/
inductive Procedure (α : Type) : Type 1
  | done (a : α)
  | call {β : Type} (c : Call β) (next : β → Procedure α)

namespace Procedure

/-- One computation, and another with what it gives. -/
def andThen : Procedure α → (α → Procedure β) → Procedure β
  | .done a, rest => rest a
  | .call c next, rest => .call c fun b => (next b).andThen rest

instance : Monad Procedure where
  pure := .done
  bind := andThen

theorem andThen_done (p : Procedure α) : p.andThen .done = p := by
  induction p with
  | done a => rfl
  | call c next ih => exact congrArg (Procedure.call c) (funext ih)

theorem andThen_assoc {γ : Type} (p : Procedure α) (l : α → Procedure β) (m : β → Procedure γ) :
    (p.andThen l).andThen m = p.andThen fun a => (l a).andThen m := by
  induction p with
  | done a => rfl
  | call c next ih => exact congrArg (Procedure.call c) (funext ih)

instance : LawfulMonad Procedure :=
  LawfulMonad.mk' Procedure andThen_done (fun _ _ => rfl) andThen_assoc

/-- The call alone. -/
def perform (c : Call α) : Procedure α := .call c .done

/-- What the computation comes to if each call gives its value. -/
def result : Procedure α → α
  | .done a => a
  | .call c next => (next c.value).result

/-- The calls of the computation if each gives its value. -/
def calls : Procedure α → List (Σ β, Call β)
  | .done _ => []
  | .call c next => ⟨_, c⟩ :: (next c.value).calls

@[simp] theorem result_pure (a : α) : (pure a : Procedure α).result = a := rfl

@[simp] theorem calls_pure (a : α) : (pure a : Procedure α).calls = [] := rfl

@[simp] theorem result_perform (c : Call α) : (perform c).result = c.value := rfl

@[simp] theorem calls_perform (c : Call α) : (perform c).calls = [⟨_, c⟩] := rfl

@[simp] theorem result_bind (p : Procedure α) (rest : α → Procedure β) :
    (p >>= rest).result = (rest p.result).result := by
  induction p with
  | done a => rfl
  | call c next ih => exact ih c.value

@[simp] theorem calls_bind (p : Procedure α) (rest : α → Procedure β) :
    (p >>= rest).calls = p.calls ++ (rest p.result).calls := by
  induction p with
  | done a => rfl
  | call c next ih => exact congrArg (_ :: ·) (ih c.value)

@[simp] theorem result_map (f : α → β) (p : Procedure α) : (f <$> p).result = f p.result :=
  result_bind p fun a => .done (f a)

@[simp] theorem calls_map (f : α → β) (p : Procedure α) : (f <$> p).calls = p.calls :=
  (calls_bind p fun a => .done (f a)).trans (List.append_nil _)

@[simp] theorem result_mapM {ι : Type} (f : ι → Procedure α) (l : List ι) :
    (l.mapM f).result = l.map fun i => (f i).result := by
  induction l with
  | nil => rfl
  | cons i l ih => simp [List.mapM_cons, ih]

@[simp] theorem calls_mapM {ι : Type} (f : ι → Procedure α) (l : List ι) :
    (l.mapM f).calls = l.flatMap fun i => (f i).calls := by
  induction l with
  | nil => rfl
  | cons i l ih => simp [List.mapM_cons, ih]

end Procedure

/-! ## The procedures of the functions -/

open Procedure

/-- The product: each of the merged powers is taken, then the factors are put together. -/
def productBody (ts : List Term) : Procedure Term :=
  if coefficientAll ts = 0 then pure (.num 0)
  else do
    let powers ← (mergedPowers (factorsAll ts)).mapM fun p => perform (.power p.1 p.2)
    let (d, fs) := powers.foldl joinFactor (coefficientAll ts, [])
    return ofFactors d fs

/-- The power: a power of a power is one of its base, and a power of a product is a product of powers. -/
def powerBody (base exponent : Term) : Procedure Term :=
  match base, exponent with
  | base, .num e =>
    if e = 0 then pure (.num 1)
    else if e = 1 then pure base
    else
      match base with
      | .num a =>
        match numberPower? a e with
        | some q => pure (.num q)
        | none => pure (.pow (.num a) (.num e))
      | .pow b (.num i) =>
        if e.den = 1 then perform (.power b (.num (i * e))) else pure (.pow base (.num e))
      | .mul c fs =>
        if e.den = 1 then do
          let powers ← fs.mapM fun f => perform (.power f (.num e))
          perform (.product (coefficientPower c e :: powers))
        else pure (.pow base (.num e))
      | base => pure (.pow base (.num e))
  | base, exponent => pure (.pow base exponent)

/-- The power that a factor below the bar is turned into. -/
def denominatorCall? : Term → Option (Call Term)
  | .pow b (.num e) => if e < 0 then some (.power b (.num (-e))) else none
  | _ => none

/-- The factors above the bar, constants first. -/
def aboveBar (fs : List Term) : List Term :=
  let above := fs.filter fun f => (denominatorCall? f).isNone
  above.filter isConst ++ above.filter (!isConst ·)

/-- The layout of a term of a sum that is not the first, with its sign. -/
def addendBody (t : Term) : Procedure (Bool × Layout) :=
  if t.isSubtracted then do
    let n ← perform (.negated t)
    return (true, ← perform (.layout n))
  else return (false, ← perform (.layout t))

/-- The layout: the parts are laid out, and what is to be simplified first is. -/
def layoutBody (t : Term) : Procedure Layout :=
  match t with
  | .num q => return .number q
  | .const c => return .constant c
  | .var x => return .name x
  | .func f args => return .builtin f (← args.mapM fun u => perform (.layout u))
  | .apply x args => return .apply x (← args.mapM fun u => perform (.layout u))
  | .add ts =>
    match numbersLast ts with
    | [] => return .sum []
    | first :: rest => do
      let l ← perform (.layout first)
      let ls ← rest.mapM addendBody
      return .sum ((false, l) :: ls)
  | .mul c fs => do
    let powers ← (fs.filterMap denominatorCall?).mapM perform
    let above ← (aboveBar fs).mapM fun u => perform (.layout u)
    let below ← powers.mapM fun u => perform (.layout u)
    return .product (c < 0) c.num.natAbs c.den above below
  | .pow b e =>
    if e.isHalf then return .sqrt (← perform (.layout b))
    else
      match denominatorCall? t with
      | some c => do
        let u ← perform c
        return .reciprocal (← perform (.layout u))
      | none => do
        let base ← perform (.layout b)
        let exponent ← perform (.layout e)
        return .power base exponent

/-- The procedure of the function that is called. -/
def Call.body : Call α → Procedure α
  | .product ts => productBody ts
  | .power b e => powerBody b e
  | .negated t => perform (.product [.num (-1), t])
  | .difference a b => do
    let n ← perform (.negated b)
    return sum [a, n]
  | .quotient a b => do
    let r ← perform (.power b (.num (-1)))
    perform (.product [a, r])
  | .layout t => layoutBody t
  | .text t => return (← perform (.layout t)).text
  | .latex t => return (← perform (.layout t)).latex

/-- The recursion of simplifying: products take powers, and powers take powers and products. -/
inductive Call.RecursTo : Call Term → Call Term → Prop
  | merged {ts : List Term} {p : Term × Term} (hc : coefficientAll ts ≠ 0)
    (hp : p ∈ mergedPowers (factorsAll ts)) : RecursTo (.product ts) (.power p.1 p.2)
  | nested (b : Term) (i : Rat) {q : Rat} (h0 : q ≠ 0) (h1 : q ≠ 1) (hq : q.den = 1) :
    RecursTo (.power (.pow b (.num i)) (.num q)) (.power b (.num (i * q)))
  | factor (c : Rat) {fs : List Term} {f : Term} {q : Rat} (h0 : q ≠ 0) (h1 : q ≠ 1) (hq : q.den = 1)
    (hf : f ∈ fs) : RecursTo (.power (.mul c fs) (.num q)) (.power f (.num q))
  | spread (c : Rat) (fs : List Term) {q : Rat} (h0 : q ≠ 0) (h1 : q ≠ 1) (hq : q.den = 1) :
    RecursTo (.power (.mul c fs) (.num q)) (.product (spreadPowers Term.power c q fs))
  | negated (t : Term) : RecursTo (.negated t) (.product [.num (-1), t])
  | subtrahend (a b : Term) : RecursTo (.difference a b) (.negated b)
  | divisor (a b : Term) : RecursTo (.quotient a b) (.power b (.num (-1)))
  | quotient (a b : Term) : RecursTo (.quotient a b) (.product [a, Term.power b (.num (-1))])

/-! ## Running procedures -/

/-- The procedure comes to the value, with the body of each call run in its place. -/
inductive Procedure.Yields : {α : Type} → Procedure α → α → Prop
  | done {α : Type} (a : α) : Yields (.done a) a
  | call {α β : Type} {c : Call β} {next : β → Procedure α} {b : β} {a : α} (hc : Yields c.body b)
    (hnext : Yields (next b) a) : Yields (.call c next) a

/-- The procedure makes the call, once those before it have come to their values. -/
inductive Procedure.Makes {α β : Type} (d : Call β) : Procedure α → Prop
  | first (next : β → Procedure α) : Makes d (.call d next)
  | later {γ : Type} {c : Call γ} {next : γ → Procedure α} {b : γ} (hc : c.body.Yields b)
    (h : Makes d (next b)) : Makes d (.call c next)

/-! ## The values -/

theorem result_productBody (ts : List Term) : (productBody ts).result = product ts := by
  unfold productBody product productWith
  dsimp only
  split
  · rfl
  · simp [List.foldl_map, Call.value]

theorem result_powerBody (b e : Term) : (powerBody b e).result = power b e := by
  rw [power_eq]
  cases e with
  | num q =>
    by_cases h0 : q = 0
    · simp [powerBody, powerWith, h0]
    by_cases h1 : q = 1
    · simp [powerBody, powerWith, h1]
    cases b with
    | num a => cases hq : numberPower? a q <;> simp [powerBody, powerWith, h0, h1, hq]
    | pow b i =>
      cases i with
      | num i => by_cases hq : q.den = 1 <;> simp [powerBody, powerWith, h0, h1, hq, Call.value]
      | _ => simp [powerBody, powerWith, h0, h1]
    | mul c fs => by_cases hq : q.den = 1 <;> simp [powerBody, powerWith, h0, h1, hq, Call.value, product]
    | _ => simp [powerBody, powerWith, h0, h1]
  | _ => rfl

theorem denominator?_eq (t : Term) : denominator? t = (denominatorCall? t).map Call.value := by
  cases t with
  | pow b e =>
    cases e with
    | num q => by_cases hq : q < 0 <;> simp [denominator?, denominatorCall?, hq, Call.value]
    | _ => rfl
  | _ => rfl

theorem aboveBar_eq (fs : List Term) : aboveBar fs = numerators fs := by
  simp [aboveBar, numerators, denominator?_eq]

theorem denominators_eq (fs : List Term) :
    denominators fs = (fs.filterMap denominatorCall?).map Call.value := by
  simp [denominators, List.map_filterMap, funext denominator?_eq]

theorem result_layoutBody (t : Term) : (layoutBody t).result = layout t := by
  rw [layout_eq]
  cases t with
  | num q => rfl
  | const c => rfl
  | var x => rfl
  | func f ts => simp [layoutBody, layoutWith, Call.value]
  | apply x ts => simp [layoutBody, layoutWith, Call.value]
  | add ts =>
    have haddend : ∀ u, (addendBody u).result =
        if u.isSubtracted then (true, layout (negated u)) else (false, layout u) := by
      intro u
      unfold addendBody
      split <;> rfl
    cases hset : numbersLast ts <;> simp [layoutBody, layoutWith, hset, haddend, Call.value]
  | mul c fs => simp [layoutBody, layoutWith, aboveBar_eq, denominators_eq, Call.value]
  | pow b e =>
    by_cases hhalf : e.isHalf = true
    · simp [layoutBody, layoutWith, hhalf, Call.value]
    · cases hd : denominatorCall? (.pow b e) <;>
        simp [layoutBody, layoutWith, hhalf, denominator?_eq, hd, Call.value]

/-- The body of a call comes to its value if the calls in it do. -/
theorem result_body (c : Call α) : c.body.result = c.value := by
  cases c with
  | product ts => exact result_productBody ts
  | power b e => exact result_powerBody b e
  | layout t => exact result_layoutBody t
  | _ => rfl

/-- What a procedure yields is what it comes to if each call gives its value. -/
theorem Procedure.Yields.eq_result {p : Procedure α} {a : α} (h : p.Yields a) : a = p.result := by
  induction h with
  | done a => rfl
  | call hc hnext ihc ihnext =>
    rw [result_body] at ihc
    rw [ihnext, ihc]
    rfl

theorem Procedure.Makes.mem_calls {d : Call β} {p : Procedure α} (h : p.Makes d) : ⟨_, d⟩ ∈ p.calls := by
  induction h with
  | first next => exact List.mem_cons_self
  | later hc h ih =>
    have hvalue := hc.eq_result
    rw [result_body] at hvalue
    exact List.mem_cons_of_mem _ (hvalue ▸ ih)

end Formulary.Term
