import Formulary.Proofs.NdArray.Elements
import Formulary.Proofs.NdArray.Fill
import Formulary.Proofs.Term.Ready

/-!
Evaluating a term on arrays is evaluating it at each multi-index.

What is done with several arrays is elementwise if it succeeds whenever their shapes have a joint
shape, and the result has at each multi-index of that shape what is done with the scalars found there.
The operations on doubles are not looked into, so this says that they meet the right elements: the
arrays that come up on the way have shapes of their own, each of which stretches to the joint shape.
-/

namespace Formulary

namespace NdArray

variable {a b : NdArray} {S U : Shape} {ix : List Nat}

/-- The scalar that is found in an array at a multi-index of a shape that it stretches to. -/
def point (a : NdArray) (ix : List Nat) : NdArray := .scalar ((a.element? ix).getD 0)

theorem point_eq {x : Float} (h : a.element? ix = some x) : a.point ix = .scalar x := by
  rw [point, h, Option.getD_some]

theorem point_scalar (x : Float) (ix : List Nat) : (scalar x).point ix = scalar x := rfl

theorem point_clamp (h : a.shape.Stretches U) (hU : U.Stretches S) (hix : ix ∈ S.indices) :
    a.point (U.clamp ix) = a.point ix := by
  rw [point, element?_clamp h hU hix, point]

theorem scalar_map (g : Float → Float) (x : Float) : (scalar x).map g = scalar (g x) :=
  eq_of_toList rfl (by simp [map, scalar])

theorem scalar_zipWith (g : Float → Float → Float) (x y : Float) :
    zipWith g (scalar x) (scalar y) = .ok (scalar (g x y)) :=
  (dif_pos (rfl : (scalar x).shape = (scalar y).shape)).trans
    (congrArg Except.ok (eq_of_toList rfl (by simp [scalar])))

theorem point_map (g : Float → Float) (h : a.shape.Stretches S) (hix : ix ∈ S.indices) :
    (a.map g).point ix = (a.point ix).map g := by
  obtain ⟨x, hx⟩ := exists_element? h hix
  rw [point_eq hx, scalar_map, point_eq]
  rw [element?_map, hx, Option.map_some]

end NdArray

namespace Term

open NdArray (point)

variable {S : Shape} {env : Environment} {t : Term} {count : Nat} {f : EntryCall}
  {pointwise : List Nat → Environment}

/-- What is done with so many arrays is elementwise: on arrays whose shapes have a joint shape it
gives an array whose shape broadcasts to that, and the element of this array at each multi-index of
the joint shape is what is given for the scalars that are found there. -/
def Elementwise (count : Nat) (f : EntryCall) : Prop :=
  ∀ (args : List NdArray) (S : Shape), args.length = count →
    Shape.joint (args.map (·.shape)) = .ok S →
      ∃ v, f args = .ok v ∧ Shape.broadcast v.shape S = .ok S ∧
        ∀ ix ∈ S.indices, ∃ xs y, List.Forall₂ (fun a x => a.element? ix = some x) args xs ∧
          v.element? ix = some y ∧ f (xs.map .scalar) = .ok (.scalar y)

/-- On these arrays, which stretch to the shape, the result stretches to it and goes along with taking
points. -/
def SpreadsCall (S : Shape) (f : EntryCall) (args : List NdArray) : Prop :=
  ∃ v, f args = .ok v ∧ v.shape.Stretches S ∧
    ∀ ix ∈ S.indices, f (args.map (·.point ix)) = .ok (v.point ix)

/-- The value of the term stretches to the shape, and at each multi-index of the shape the scalar in
it is the value of the term in the environment there. -/
def Spreads (S : Shape) (env : Environment) (pointwise : List Nat → Environment) (t : Term) : Prop :=
  ∃ v, eval env t = .ok v ∧ v.shape.Stretches S ∧
    ∀ ix ∈ S.indices, eval (pointwise ix) t = .ok (v.point ix)

/-! ## Calls -/

theorem exists_forall₂_element? {ix : List Nat} {args : List NdArray}
    (hargs : ∀ a ∈ args, a.shape.Stretches S) (hix : ix ∈ S.indices) :
    ∃ xs, List.Forall₂ (fun a x => a.element? ix = some x) args xs := by
  induction args with
  | nil => exact ⟨[], .nil⟩
  | cons a args ih =>
    obtain ⟨ha, hargs⟩ := List.forall_mem_cons.mp hargs
    obtain ⟨x, hx⟩ := NdArray.exists_element? ha hix
    obtain ⟨xs, hxs⟩ := ih hargs
    exact ⟨x :: xs, .cons hx hxs⟩

theorem map_scalar_of_forall₂ {ix : List Nat} {args : List NdArray} {xs : List Float}
    (h : List.Forall₂ (fun a x => a.element? ix = some x) args xs) :
    xs.map .scalar = args.map (·.point ix) := by
  induction h with
  | nil => rfl
  | cons hx _ ih => rw [List.map_cons, List.map_cons, ih, NdArray.point_eq hx]

/-- An elementwise function may be given arrays whose own joint shape stretches further. -/
theorem Elementwise.spreadsCall (h : Elementwise count f) {args : List NdArray}
    (hlen : args.length = count) (hargs : ∀ a ∈ args, a.shape.Stretches S) : SpreadsCall S f args := by
  obtain ⟨U, hU, hUS⟩ := Shape.exists_joint (List.forall_mem_map.mpr hargs)
  obtain ⟨v, hv, hvU, hpoint⟩ := h args U hlen hU
  have hvU := Shape.broadcast_eq_right_iff.mp hvU
  have hargsU := List.forall_mem_map.mp (Shape.joint_eq_ok hU)
  refine ⟨v, hv, hvU.trans hUS, fun ix hix => ?_⟩
  obtain ⟨xs, y, hxs, hy, hf⟩ := hpoint _ (Shape.clamp_mem_indices hUS hix)
  have hmap : args.map (·.point (U.clamp ix)) = args.map (·.point ix) :=
    List.map_congr_left fun a ha => NdArray.point_clamp (hargsU a ha) hUS hix
  rw [← NdArray.point_clamp hvU hUS hix, NdArray.point_eq hy, ← hf, map_scalar_of_forall₂ hxs, hmap]

theorem elementwise_of_spreadsCall (h : ∀ (args : List NdArray) (S : Shape), args.length = count →
    (∀ a ∈ args, a.shape.Stretches S) → SpreadsCall S f args) : Elementwise count f := by
  intro args S hlen hS
  have hargs := List.forall_mem_map.mp (Shape.joint_eq_ok hS)
  obtain ⟨v, hv, hvS, hpoint⟩ := h args S hlen hargs
  refine ⟨v, hv, Shape.broadcast_eq_right_iff.mpr hvS, fun ix hix => ?_⟩
  obtain ⟨y, hy⟩ := NdArray.exists_element? hvS hix
  obtain ⟨xs, hxs⟩ := exists_forall₂_element? hargs hix
  exact ⟨xs, y, hxs, hy, by rw [map_scalar_of_forall₂ hxs, hpoint ix hix, NdArray.point_eq hy]⟩

/-- Changing each element of the result by itself keeps it elementwise. -/
theorem SpreadsCall.map {args : List NdArray} (h : SpreadsCall S f args) (g : Float → Float) :
    SpreadsCall S (fun args => (f args).map (·.map g)) args := by
  obtain ⟨v, hv, hS, hpoint⟩ := h
  refine ⟨v.map g, by simp only [hv, Except.map], hS, fun ix hix => ?_⟩
  simp only [hpoint ix hix, Except.map, NdArray.point_map g hS hix]

theorem spreads_joinArrays {a b : NdArray} (g : Float → Float → Float) (ha : a.shape.Stretches S)
    (hb : b.shape.Stretches S) : ∃ c, joinArrays g a b = .ok c ∧ c.shape.Stretches S ∧
      ∀ ix ∈ S.indices, joinArrays g (a.point ix) (b.point ix) = .ok (c.point ix) := by
  obtain ⟨c, hc, hcS⟩ := NdArray.exists_zipWith g ha hb
  refine ⟨c, by rw [joinArrays, hc]; rfl, hcS, fun ix hix => ?_⟩
  obtain ⟨x, hx⟩ := NdArray.exists_element? ha hix
  obtain ⟨y, hy⟩ := NdArray.exists_element? hb hix
  rw [NdArray.point_eq hx, NdArray.point_eq hy,
    NdArray.point_eq (NdArray.element?_zipWith hc hcS hix hx hy), joinArrays, NdArray.scalar_zipWith]
  rfl

theorem spreadsCall_applyFunction {g : Builtin} {args : List NdArray} (hlen : args.length = g.arity)
    (hargs : ∀ a ∈ args, a.shape.Stretches S) : SpreadsCall S (applyFunction g) args := by
  have hone : ∀ (h : Float → Float) (a : NdArray), a.shape.Stretches S → ∀ ix ∈ S.indices,
      Except.ok ((a.point ix).map h) = (.ok ((a.map h).point ix) : Except Fault NdArray) :=
    fun h a ha ix hix => by rw [NdArray.point_map h ha hix]
  match args, hlen with
  | [], hlen => cases g <;> cases hlen
  | [x], hlen =>
    have hx := hargs x (by simp)
    cases g with
    | atan2 => cases hlen
    | _ => exact ⟨_, rfl, hx, hone _ x hx⟩
  | [y, x], hlen =>
    cases g with
    | atan2 => exact spreads_joinArrays _ (hargs y (by simp)) (hargs x (by simp))
    | _ => cases hlen
  | _ :: _ :: _ :: _, hlen => cases g <;> cases hlen

/-! ## Terms -/

theorem spreads_evalAll : ∀ {ts : List Term}, (∀ t ∈ ts, Spreads S env pointwise t) →
    ∃ vs, evalAll env ts = .ok vs ∧ (∀ v ∈ vs, v.shape.Stretches S) ∧
      ∀ ix ∈ S.indices, evalAll (pointwise ix) ts = .ok (vs.map (·.point ix))
  | [], _ => ⟨[], rfl, by simp, fun _ _ => rfl⟩
  | t :: ts, h => by
    obtain ⟨⟨v, hv, hvS, hpoint⟩, hts⟩ := List.forall_mem_cons.mp h
    obtain ⟨vs, hvs, hvsS, hpoints⟩ := spreads_evalAll hts
    refine ⟨v :: vs, by rw [evalAll_cons, hv, hvs]; rfl, List.forall_mem_cons.mpr ⟨hvS, hvsS⟩,
      fun ix hix => ?_⟩
    rw [evalAll_cons, hpoint ix hix, hpoints ix hix]
    rfl

/-- Folding goes along with taking points, from what is there already. -/
theorem spreads_evalFold_some (g : Float → Float → Float) : ∀ {ts : List Term} {a : NdArray},
    a.shape.Stretches S → (∀ t ∈ ts, Spreads S env pointwise t) →
      ∃ v, evalFold env g (some a) ts = .ok v ∧ v.shape.Stretches S ∧
        ∀ ix ∈ S.indices, evalFold (pointwise ix) g (some (a.point ix)) ts = .ok (v.point ix)
  | [], a, ha, _ => ⟨a, by simp only [evalFold], ha, fun ix _ => by simp only [evalFold]⟩
  | t :: ts, a, ha, h => by
    obtain ⟨⟨v, hv, hvS, hpoint⟩, hts⟩ := List.forall_mem_cons.mp h
    obtain ⟨b, hb, hbS, hjoin⟩ := spreads_joinArrays g ha hvS
    obtain ⟨w, hw, hwS, hrest⟩ := spreads_evalFold_some g hbS hts
    refine ⟨w, by simp only [evalFold_cons, hv, Except.ok_bind, hb, hw], hwS, fun ix hix => ?_⟩
    simp only [evalFold_cons, hpoint ix hix, Except.ok_bind, hjoin ix hix, hrest ix hix]

theorem spreads_evalFold_none (g : Float → Float → Float) {ts : List Term} (hne : ts ≠ [])
    (h : ∀ t ∈ ts, Spreads S env pointwise t) :
    ∃ v, evalFold env g none ts = .ok v ∧ v.shape.Stretches S ∧
      ∀ ix ∈ S.indices, evalFold (pointwise ix) g none ts = .ok (v.point ix) := by
  obtain ⟨t, ts, rfl⟩ := List.exists_cons_of_ne_nil hne
  obtain ⟨⟨v, hv, hvS, hpoint⟩, hts⟩ := List.forall_mem_cons.mp h
  obtain ⟨w, hw, hwS, hrest⟩ := spreads_evalFold_some g hvS hts
  refine ⟨w, by simp only [evalFold_cons, hv, Except.ok_bind, hw], hwS, fun ix hix => ?_⟩
  simp only [evalFold_cons, hpoint ix hix, Except.ok_bind, hrest ix hix]

/-- A ready term that applies elementwise entries only has at each multi-index the value that it has
with the parameters taken there. -/
theorem Ready.spreads (hentry : ∀ ix, (pointwise ix).entry = env.entry)
    (h : Ready (fun x => Spreads S env pointwise (.var x))
      (fun name count => ∃ call, env.entry name = some call ∧ Elementwise count call) t) :
    Spreads S env pointwise t := by
  induction h with
  | num q =>
    exact ⟨_, by rw [eval], Shape.nil_stretches S, fun ix _ => by rw [eval, NdArray.point_scalar]⟩
  | const c =>
    exact ⟨_, by rw [eval], Shape.nil_stretches S, fun ix _ => by rw [eval, NdArray.point_scalar]⟩
  | var hx => exact hx
  | func hlen _ ih =>
    obtain ⟨vs, hvs, hvsS, hpoints⟩ := spreads_evalAll ih
    obtain ⟨w, hw, hwS, hpoint⟩ :=
      spreadsCall_applyFunction ((length_evalAll hvs).trans hlen) hvsS
    refine ⟨w, by rw [eval_func, if_pos hlen, hvs, Except.ok_bind, hw], hwS, fun ix hix => ?_⟩
    rw [eval_func, if_pos hlen, hpoints ix hix, Except.ok_bind, hpoint ix hix]
  | apply hn _ ih =>
    obtain ⟨call, hcall, helementwise⟩ := hn
    obtain ⟨vs, hvs, hvsS, hpoints⟩ := spreads_evalAll ih
    obtain ⟨w, hw, hwS, hpoint⟩ := helementwise.spreadsCall (length_evalAll hvs) hvsS
    refine ⟨w, ?_, hwS, fun ix hix => ?_⟩
    · simp only [eval, hcall, hvs, Except.ok_bind, hw, Except.mapError]
    · simp only [eval, hentry ix, hcall, hpoints ix hix, Except.ok_bind, hpoint ix hix,
        Except.mapError]
  | add hne _ ih =>
    obtain ⟨v, hv, hvS, hpoint⟩ := spreads_evalFold_none (· + ·) hne ih
    exact ⟨v, by rw [eval, hv], hvS, fun ix hix => by rw [eval, hpoint ix hix]⟩
  | @mul c fs hne _ ih =>
    by_cases hc : c = 1
    · obtain ⟨v, hv, hvS, hpoint⟩ := spreads_evalFold_none (· * ·) hne ih
      exact ⟨v, by rw [eval, if_pos hc, hv], hvS, fun ix hix => by rw [eval, if_pos hc, hpoint ix hix]⟩
    · obtain ⟨v, hv, hvS, hpoint⟩ := spreads_evalFold_some (· * ·)
        (a := .scalar (Double.ofRat c)) (Shape.nil_stretches S) ih
      exact ⟨v, by rw [eval, if_neg hc, hv], hvS, fun ix hix => by
        rw [eval, if_neg hc, ← hpoint ix hix, NdArray.point_scalar]⟩
  | pow _ _ ihb ihe =>
    obtain ⟨v, hv, hvS, hbase⟩ := ihb
    obtain ⟨w, hw, hwS, hexponent⟩ := ihe
    obtain ⟨u, hu, huS, hjoin⟩ := spreads_joinArrays Float.pow hvS hwS
    refine ⟨u, by simp only [eval, hv, hw, Except.ok_bind, hu], huS, fun ix hix => ?_⟩
    simp only [eval, hbase ix hix, hexponent ix hix, Except.ok_bind, hjoin ix hix]

/-! ## Applications in a term -/

mutual

/-- The entries applied in a term, each with the number of arguments that it is applied to. -/
def applicationsIn : Term → List (String × Nat)
  | .num _ | .const _ | .var _ => []
  | .apply name args => (name, args.length) :: applicationsInAll args
  | .func _ args => applicationsInAll args
  | .add ts => applicationsInAll ts
  | .mul _ fs => applicationsInAll fs
  | .pow b e => applicationsIn b ++ applicationsIn e

/-- The entries applied in a list of terms, with the numbers of arguments. -/
def applicationsInAll : List Term → List (String × Nat)
  | [] => []
  | t :: ts => applicationsIn t ++ applicationsInAll ts

end

theorem mem_applicationsInAll {p : String × Nat} (hp : p ∈ t.applicationsIn) :
    ∀ {ts : List Term}, t ∈ ts → p ∈ applicationsInAll ts
  | u :: ts, ht => by
    rw [applicationsInAll, List.mem_append]
    rcases List.mem_cons.mp ht with rfl | ht
    · exact .inl hp
    · exact .inr (mem_applicationsInAll hp ht)

/-- A ready term may be asked for more of what is applied in it. -/
theorem Ready.strengthen {P : String → Prop} {T Q : String → Nat → Prop} (h : Ready P T t) :
    (∀ p ∈ t.applicationsIn, Q p.1 p.2) → Ready P (fun n k => T n k ∧ Q n k) t := by
  have hlist : ∀ {ts : List Term}, (∀ p ∈ applicationsInAll ts, Q p.1 p.2) →
      (∀ t ∈ ts, (∀ p ∈ t.applicationsIn, Q p.1 p.2) → Ready P (fun n k => T n k ∧ Q n k) t) →
        ∀ t ∈ ts, Ready P (fun n k => T n k ∧ Q n k) t :=
    fun hT ih t ht => ih t ht fun p hp => hT p (mem_applicationsInAll hp ht)
  induction h with
  | num q => exact fun _ => .num q
  | const c => exact fun _ => .const c
  | var hx => exact fun _ => .var hx
  | func hlen _ ih => exact fun hT => .func hlen (hlist hT ih)
  | apply hn _ ih =>
    intro hT
    obtain ⟨hhere, hargs⟩ := List.forall_mem_cons.mp hT
    exact .apply ⟨hn, hhere⟩ (hlist hargs ih)
  | add hne _ ih => exact fun hT => .add hne (hlist hT ih)
  | mul c hne _ ih => exact fun hT => .mul c hne (hlist hT ih)
  | pow _ _ ihb ihe =>
    intro hT
    exact .pow (ihb fun p hp => hT p (List.mem_append_left _ hp))
      (ihe fun p hp => hT p (List.mem_append_right _ hp))

end Term

end Formulary
