import Formulary.Proofs.NdArray.Elements
import Formulary.Proofs.Term.Ready
import Mathlib.Data.List.Perm.Basic

/-!
Sums and products in any order.

Whichever way shapes are put in brackets, and in whatever order they stand, broadcasting them two by
two gives their joint shape, or fails because they have none. Joining arrays follows what becomes of
their shapes, and a sum or a product of a term is folded from the left, which is one way to put
brackets. So its shape, and whether its shapes fit together at all, do not depend on the order in which
its operands are kept; its elements may, since the operations on doubles are not associative.
-/

namespace Formulary

open Formulary.Except Formulary.Shape

/-- Operands in brackets, to be joined two by two. -/
inductive Bracketing (α : Type) where
  | operand (a : α)
  | pair (left right : Bracketing α)

namespace Bracketing

variable {α β ε : Type}

/-- The operands, from left to right. -/
def operands : Bracketing α → List α
  | operand a => [a]
  | pair l r => l.operands ++ r.operands

/-- Other operands in the same brackets. -/
def map (k : α → β) : Bracketing α → Bracketing β
  | operand a => operand (k a)
  | pair l r => pair (l.map k) (r.map k)

/-- The operands joined, from the inner brackets to the outer ones. -/
def fold (join : α → α → Except ε α) : Bracketing α → Except ε α
  | operand a => .ok a
  | pair l r => do join (← l.fold join) (← r.fold join)

/-- Further operands behind, each joined to all before it. -/
def fromLeft (b : Bracketing α) (as : List α) : Bracketing α :=
  as.foldl (fun b a => pair b (operand a)) b

theorem operands_ne_nil (b : Bracketing α) : b.operands ≠ [] := by
  induction b with
  | operand a => simp [operands]
  | pair l r ihl ihr => simp [operands, ihl]

@[simp] theorem operands_map (k : α → β) (b : Bracketing α) :
    (b.map k).operands = b.operands.map k := by
  induction b with
  | operand a => rfl
  | pair l r ihl ihr => simp [map, operands, ihl, ihr]

@[simp] theorem operands_fromLeft (b : Bracketing α) (as : List α) :
    (b.fromLeft as).operands = b.operands ++ as := by
  induction as generalizing b with
  | nil => simp [fromLeft]
  | cons a as ih =>
    have hstep : b.fromLeft (a :: as) = (pair b (operand a)).fromLeft as := rfl
    simp [hstep, ih, operands]

theorem fold_fromLeft (join : α → α → Except ε α) (b : Bracketing α) (as : List α) :
    (b.fromLeft as).fold join = b.fold join >>= fun a => as.foldlM join a := by
  induction as generalizing b with
  | nil => exact (bind_pure _).symm
  | cons a as ih =>
    have hstep : b.fromLeft (a :: as) = (pair b (operand a)).fromLeft as := rfl
    rw [hstep, ih, fold]
    cases b.fold join with
    | error e => rfl
    | ok v => rfl

end Bracketing

/-! ## Shapes in brackets -/

namespace Shape

/-- Shapes in any brackets broadcast to their joint shape, if they have one. -/
theorem fold_broadcast_eq_ok_iff (b : Bracketing Shape) (S : Shape) :
    b.fold broadcast = .ok S ↔ IsJoint b.operands S := by
  induction b generalizing S with
  | operand s =>
    constructor
    · intro h
      cases h
      exact isJoint_singleton s
    · intro h
      rw [(isJoint_singleton s).unique h]
      rfl
  | pair l r ihl ihr =>
    rw [Bracketing.fold, Bracketing.operands]
    constructor
    · intro h
      obtain ⟨u, hu, h⟩ := bind_eq_ok.mp h
      obtain ⟨v, hv, h⟩ := bind_eq_ok.mp h
      exact (isJoint_append ((ihl u).mp hu) ((ihr v).mp hv)).mpr (broadcast_eq_ok_iff.mp h)
    · intro h
      obtain ⟨u, hu⟩ := exists_isJoint fun s hs => h.stretches s (List.mem_append_left _ hs)
      obtain ⟨v, hv⟩ := exists_isJoint fun s hs => h.stretches s (List.mem_append_right _ hs)
      rw [(ihl u).mpr hu, ok_bind, (ihr v).mpr hv, ok_bind]
      exact broadcast_eq_ok_iff.mpr ((isJoint_append hu hv).mp h)

/-- Neither the brackets nor the order matter to what shapes broadcast to, or whether they do. -/
theorem fold_broadcast_perm {g h : Bracketing Shape} (hperm : g.operands.Perm h.operands) :
    (g.fold broadcast).toOption = (h.fold broadcast).toOption := by
  refine toOption_eq_of_isJoint (fold_broadcast_eq_ok_iff g) fun S => ?_
  rw [fold_broadcast_eq_ok_iff]
  exact isJoint_congr fun s => hperm.symm.mem_iff

theorem broadcast_assoc (s t u : Shape) :
    (broadcast s t >>= fun v => broadcast v u).toOption =
      (broadcast t u >>= fun v => broadcast s v).toOption := by
  have h := fold_broadcast_perm (g := .pair (.pair (.operand s) (.operand t)) (.operand u))
    (h := .pair (.operand s) (.pair (.operand t) (.operand u))) (.refl _)
  simpa only [Bracketing.fold, ok_bind] using h

end Shape

/-! ## Arrays in brackets -/

namespace Term

variable {env : Environment} {f : Float → Float → Float} {x y : Except ShapeError Shape}
  {a b : Except Fault NdArray} {ts ts' : List Term} {values : List NdArray}

/-- An array of the shape that is found, or a mismatch if none is. -/
inductive FollowsShape : Except ShapeError Shape → Except Fault NdArray → Prop where
  | shape (c : NdArray) : FollowsShape (.ok c.shape) (.ok c)
  | mismatch (e : ShapeError) {fault : Fault} (h : fault.code = "SHAPE_MISMATCH") :
    FollowsShape (.error e) (.error fault)

/-- Both are arrays of one shape, or both are a mismatch of shapes. -/
inductive AgreeInShape : Except Fault NdArray → Except Fault NdArray → Prop where
  | shape {c d : NdArray} (h : c.shape = d.shape) : AgreeInShape (.ok c) (.ok d)
  | mismatch {e e' : Fault} (he : e.code = "SHAPE_MISMATCH") (he' : e'.code = "SHAPE_MISMATCH") :
    AgreeInShape (.error e) (.error e')

theorem FollowsShape.agree (ha : FollowsShape x a) (hb : FollowsShape y b)
    (h : x.toOption = y.toOption) : AgreeInShape a b := by
  cases ha with
  | shape c =>
    cases hb with
    | shape d => exact .shape (Option.some.inj h)
    | mismatch => cases h
  | mismatch e he =>
    cases hb with
    | shape d => cases h
    | mismatch e' he' => exact .mismatch he he'

theorem AgreeInShape.toOption_shape (h : AgreeInShape a b) :
    a.toOption.map (·.shape) = b.toOption.map (·.shape) := by
  cases h with
  | shape h => exact congrArg some h
  | mismatch => rfl

/-- Two arrays are joined just if their shapes broadcast. -/
theorem followsShape_joinArrays (f : Float → Float → Float) (c d : NdArray) :
    FollowsShape (broadcast c.shape d.shape) (joinArrays f c d) := by
  cases h : broadcast c.shape d.shape with
  | ok S =>
    obtain ⟨r, hr, rfl⟩ := NdArray.exists_zipWith_of_broadcast f h
    rw [joinArrays, hr]
    exact .shape r
  | error e =>
    rw [joinArrays, NdArray.zipWith_of_broadcast_error f h]
    refine .mismatch e ?_
    cases e <;> rfl

theorem FollowsShape.join (ha : FollowsShape x a) (hb : FollowsShape y b) :
    FollowsShape (x >>= fun s => y >>= fun t => broadcast s t)
      (a >>= fun c => b >>= fun d => joinArrays f c d) := by
  cases ha with
  | mismatch e he => exact .mismatch e he
  | shape c =>
    cases hb with
    | mismatch e he => exact .mismatch e he
    | shape d => exact followsShape_joinArrays f c d

/-- Arrays in brackets are joined just if their shapes in these brackets broadcast. -/
theorem followsShape_fold (f : Float → Float → Float) (g : Bracketing NdArray) :
    FollowsShape ((g.map (·.shape)).fold broadcast) (g.fold (joinArrays f)) := by
  induction g with
  | operand c => exact .shape c
  | pair l r ihl ihr => exact ihl.join ihr

theorem agreeInShape_fold (f : Float → Float → Float) {g h : Bracketing NdArray}
    (hperm : g.operands.Perm h.operands) :
    AgreeInShape (g.fold (joinArrays f)) (h.fold (joinArrays f)) := by
  refine (followsShape_fold f g).agree (followsShape_fold f h) (fold_broadcast_perm ?_)
  simpa using hperm.map _

/-! ## Sums and products -/

/-- Once something is there, a fold evaluates its operands and joins each to all before it. -/
theorem evalFold_some (h : evalAll env ts = .ok values) (acc : NdArray) :
    evalFold env f (some acc) ts = values.foldlM (joinArrays f) acc := by
  induction ts generalizing values acc with
  | nil =>
    cases h
    rfl
  | cons t ts ih =>
    obtain ⟨v, vs, hv, hvs, rfl⟩ := evalAll_cons_eq_ok.mp h
    rw [evalFold_cons, hv, ok_bind, List.foldlM_cons]
    exact congrArg _ (funext fun a => ih hvs a)

/-- A fold of operands that have values puts them in brackets from the left. -/
theorem exists_evalFold_eq_fold (f : Float → Float → Float) (init : Option NdArray)
    (h : evalAll env ts = .ok values) (hne : init.toList ++ values ≠ []) :
    ∃ g : Bracketing NdArray, g.operands = init.toList ++ values ∧
      evalFold env f init ts = g.fold (joinArrays f) := by
  have hsome : ∀ (acc : NdArray) {ts : List Term} {values : List NdArray},
      evalAll env ts = .ok values → evalFold env f (some acc) ts =
        ((Bracketing.operand acc).fromLeft values).fold (joinArrays f) := by
    intro acc ts values h
    rw [evalFold_some h, Bracketing.fold_fromLeft, Bracketing.fold, ok_bind]
  cases init with
  | some acc =>
    exact ⟨(Bracketing.operand acc).fromLeft values, Bracketing.operands_fromLeft _ _, hsome acc h⟩
  | none =>
    cases ts with
    | nil =>
      cases h
      exact absurd rfl hne
    | cons t ts =>
      obtain ⟨v, vs, hv, hvs, rfl⟩ := evalAll_cons_eq_ok.mp h
      refine ⟨(Bracketing.operand v).fromLeft vs, Bracketing.operands_fromLeft _ _, ?_⟩
      rw [evalFold_cons, hv, ok_bind, ok_bind]
      exact hsome v hvs

/-- A fold that has a value has evaluated every operand. -/
theorem exists_evalAll_of_evalFold {init : Option NdArray} {c : NdArray}
    (h : evalFold env f init ts = .ok c) :
    ∃ values, evalAll env ts = .ok values ∧ init.toList ++ values ≠ [] := by
  induction ts generalizing init with
  | nil =>
    cases init with
    | none => cases h
    | some acc => exact ⟨[], rfl, by simp⟩
  | cons t ts ih =>
    rw [evalFold_cons] at h
    obtain ⟨v, hv, h⟩ := bind_eq_ok.mp h
    obtain ⟨b, -, h⟩ := bind_eq_ok.mp h
    obtain ⟨vs, hvs, -⟩ := ih h
    exact ⟨v :: vs, evalAll_cons_eq_ok.mpr ⟨v, vs, hv, hvs, rfl⟩, by simp⟩

/-- Operands in another order have the same values in that order. -/
theorem exists_evalAll_perm (hperm : ts.Perm ts') (h : evalAll env ts = .ok values) :
    ∃ values', evalAll env ts' = .ok values' ∧ values.Perm values' := by
  obtain ⟨values', hvalues, hp⟩ := List.perm_comp_forall₂ hperm.symm (evalAll_eq_ok_iff.mp h)
  exact ⟨values', evalAll_eq_ok_iff.mpr hvalues, hp.symm⟩

/-- A fold of operands that have values agrees with them in any order and brackets. -/
theorem agreeInShape_evalFold {init : Option NdArray} (h : evalAll env ts = .ok values)
    {g : Bracketing NdArray} (hperm : g.operands.Perm (init.toList ++ values)) :
    AgreeInShape (evalFold env f init ts) (g.fold (joinArrays f)) := by
  have hne : init.toList ++ values ≠ [] := by
    intro hnil
    rw [hnil, List.perm_nil] at hperm
    exact g.operands_ne_nil hperm
  obtain ⟨g', hg', heval⟩ := exists_evalFold_eq_fold f init h hne
  rw [heval]
  exact agreeInShape_fold f (hg' ▸ hperm.symm)

theorem agreeInShape_evalFold_perm {init : Option NdArray} (hperm : ts.Perm ts')
    (h : evalAll env ts = .ok values) (hne : init.toList ++ values ≠ []) :
    AgreeInShape (evalFold env f init ts) (evalFold env f init ts') := by
  obtain ⟨values', h', hvalues⟩ := exists_evalAll_perm hperm h
  have hp := hvalues.append_left init.toList
  have hne' : init.toList ++ values' ≠ [] := fun hnil => hne (List.perm_nil.mp (hnil ▸ hp))
  obtain ⟨g, hg, heval⟩ := exists_evalFold_eq_fold f init h' hne'
  rw [heval]
  exact agreeInShape_evalFold h (hg ▸ hp.symm)

/-- A fold of operands in another order has the same shape, or no value either. -/
theorem shape_evalFold_perm (f : Float → Float → Float) (init : Option NdArray)
    (hperm : ts.Perm ts') : (evalFold env f init ts).toOption.map (·.shape) =
      (evalFold env f init ts').toOption.map (·.shape) := by
  have hsub : ∀ {ts ts' : List Term}, ts.Perm ts' → ∀ S,
      (evalFold env f init ts).toOption.map (·.shape) = some S →
        (evalFold env f init ts').toOption.map (·.shape) = some S := by
    intro ts ts' hperm S hS
    obtain ⟨c, hc, rfl⟩ := Option.map_eq_some_iff.mp hS
    obtain ⟨values, hvalues, hne⟩ := exists_evalAll_of_evalFold (toOption_eq_some.mp hc)
    rw [← (agreeInShape_evalFold_perm hperm hvalues hne).toOption_shape, hc]
    rfl
  exact Option.ext fun S => ⟨hsub hperm S, hsub hperm.symm S⟩

theorem agreeInShape_eval_perm (hperm : ts.Perm ts') (hne : ts ≠ [])
    (h : (evalAll env ts).isOk = true) :
    AgreeInShape (eval env (.add ts)) (eval env (.add ts')) ∧
      ∀ c, AgreeInShape (eval env (.mul c ts)) (eval env (.mul c ts')) := by
  obtain ⟨values, h⟩ := exists_of_isOk h
  have hvalues : values ≠ [] := by
    rintro rfl
    exact hne (List.length_eq_zero_iff.mp (length_evalAll h).symm)
  simp only [eval]
  exact ⟨agreeInShape_evalFold_perm hperm h (by simp [hvalues]),
    fun c => agreeInShape_evalFold_perm hperm h (by simp [hvalues])⟩

/-- Shapes broadcast alike in any order and brackets, with `[]` as unit, and so do the operands of a
sum or a product: each way to join them gives the same shape, or each is a mismatch of shapes. -/
theorem folded_in_any_order :
    (∀ s t : Shape, (broadcast s t).toOption = (broadcast t s).toOption) ∧
      (∀ s t u : Shape, (broadcast s t >>= fun v => broadcast v u).toOption =
        (broadcast t u >>= fun v => broadcast s v).toOption) ∧
      (∀ s : Shape, broadcast [] s = .ok s ∧ broadcast s [] = .ok s) ∧
      (∀ g h : Bracketing Shape, g.operands.Perm h.operands →
        (g.fold broadcast).toOption = (h.fold broadcast).toOption) ∧
      (∀ (f : Float → Float → Float) (g h : Bracketing NdArray), g.operands.Perm h.operands →
        AgreeInShape (g.fold (joinArrays f)) (h.fold (joinArrays f))) ∧
      (∀ (env : Environment) (f : Float → Float → Float) (init : Option NdArray) (ts : List Term)
          (values : List NdArray), evalAll env ts = .ok values →
        ∀ g : Bracketing NdArray, g.operands.Perm (init.toList ++ values) →
          AgreeInShape (evalFold env f init ts) (g.fold (joinArrays f))) ∧
      ∀ (env : Environment) (ts ts' : List Term), ts.Perm ts' →
        (∀ (f : Float → Float → Float) (init : Option NdArray),
          (evalFold env f init ts).toOption.map (·.shape) =
            (evalFold env f init ts').toOption.map (·.shape)) ∧
        (ts ≠ [] → (evalAll env ts).isOk = true →
          AgreeInShape (eval env (.add ts)) (eval env (.add ts')) ∧
            ∀ c, AgreeInShape (eval env (.mul c ts)) (eval env (.mul c ts'))) := by
  refine ⟨broadcast_comm, broadcast_assoc, fun s => ⟨nil_broadcast s, broadcast_nil s⟩,
    fun _ _ => fold_broadcast_perm, fun f _ _ => agreeInShape_fold f,
    fun env f init ts values h g => agreeInShape_evalFold h, ?_⟩
  intro env ts ts' hperm
  exact ⟨fun f init => shape_evalFold_perm f init hperm, agreeInShape_eval_perm hperm⟩

end Term

end Formulary
