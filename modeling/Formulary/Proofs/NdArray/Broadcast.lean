import Formulary.NdArray.Shape
import Formulary.Proofs.Except
import Mathlib.Data.List.Forall2

/-!
Broadcasting as an order of shapes.

A shape stretches to another one if each of its axes, aligned at the last, has the same length as the
other's or length 1. This is a partial order with `[]` as its least element. Two shapes broadcast
exactly if both stretch to some shape, and what they broadcast to is the least such shape. So whatever
stretches to one joint shape can be joined in any order, and all that is joined on the way stretches
to it again.
-/

namespace Formulary.Shape

variable {s t u S T : Shape} {rank : Nat}

/-- An axis of the first length is repeated to the second length, or has it. -/
def FitsAxis (m n : Nat) : Prop := m = n ∨ m = 1

/-- Two shapes with as many axes, each of the first fitting that of the second. -/
def Fits (s t : Shape) : Prop := List.Forall₂ FitsAxis s t

/-- The shape fits the last axes of the other. -/
def Stretches (s S : Shape) : Prop := ∃ front back, S = front ++ back ∧ s.Fits back

theorem FitsAxis.trans {k m n : Nat} (h : FitsAxis k m) (h' : FitsAxis m n) : FitsAxis k n := by
  unfold FitsAxis at *
  omega

theorem FitsAxis.antisymm {m n : Nat} (h : FitsAxis m n) (h' : FitsAxis n m) : m = n := by
  unfold FitsAxis at *
  omega

theorem Fits.refl (s : Shape) : s.Fits s := List.forall₂_same.mpr fun _ _ => .inl rfl

theorem Fits.trans (h : s.Fits t) (h' : t.Fits u) : s.Fits u := by
  unfold Fits at *
  induction h generalizing u with
  | nil => exact h'
  | cons hm _ ih =>
    obtain ⟨k, v, hk, hv, rfl⟩ := List.forall₂_cons_left_iff.mp h'
    exact .cons (hm.trans hk) (ih hv)

theorem Fits.antisymm (h : s.Fits t) (h' : t.Fits s) : s = t := by
  unfold Fits at *
  induction h with
  | nil => rfl
  | cons hm _ ih =>
    rw [List.forall₂_cons] at h'
    rw [hm.antisymm h'.1, ih h'.2]

theorem Fits.append {s' t' : Shape} (h : s.Fits t) (h' : s'.Fits t') :
    Fits (s ++ s') (t ++ t') :=
  List.rel_append h h'

/-- What a shape of two parts fits is of two parts. -/
theorem Fits.split (h : Fits (s ++ t) u) : ∃ u₁ u₂, u = u₁ ++ u₂ ∧ s.Fits u₁ ∧ t.Fits u₂ := by
  have hs := List.forall₂_take s.length h
  have ht := List.forall₂_drop s.length h
  rw [List.take_left] at hs
  rw [List.drop_left] at ht
  exact ⟨_, _, (List.take_append_drop ..).symm, hs, ht⟩

/-- Axes of length 1 fit any. -/
theorem fits_replicate_one : ∀ {n : Nat} {t : Shape}, t.length = n → Fits (List.replicate n 1) t
  | 0, [], _ => .nil
  | _ + 1, _ :: _, h => .cons (.inr rfl) (fits_replicate_one (Nat.succ.inj h))

theorem Stretches.length_le (h : s.Stretches S) : s.length ≤ S.length := by
  obtain ⟨front, back, rfl, hfits⟩ := h
  rw [List.length_append, hfits.length_eq]
  omega

theorem Stretches.refl (s : Shape) : s.Stretches s := ⟨[], s, rfl, .refl s⟩

theorem nil_stretches (S : Shape) : Stretches [] S := ⟨S, [], (List.append_nil S).symm, .nil⟩

/-- Between shapes of as many axes, to stretch is to fit. -/
theorem Stretches.fits (h : s.Stretches S) (hlen : s.length = S.length) : s.Fits S := by
  obtain ⟨front, back, rfl, hfits⟩ := h
  have hfront : front = [] := by
    rw [List.length_append, hfits.length_eq] at hlen
    exact List.length_eq_zero_iff.mp (by omega)
  rwa [hfront]

theorem Fits.stretches (h : s.Fits S) : s.Stretches S := ⟨[], S, rfl, h⟩

theorem Stretches.trans (h : s.Stretches t) (h' : t.Stretches u) : s.Stretches u := by
  obtain ⟨front, back, rfl, hfits⟩ := h
  obtain ⟨front', back', rfl, hfits'⟩ := h'
  -- what `back` fits are the last axes of what `t` fits
  obtain ⟨b₁, b₂, rfl, -, hb⟩ := hfits'.split
  exact ⟨front' ++ b₁, b₂, (List.append_assoc ..).symm, hfits.trans hb⟩

theorem Stretches.antisymm (h : s.Stretches t) (h' : t.Stretches s) : s = t := by
  have hlen := Nat.le_antisymm h.length_le h'.length_le
  exact (h.fits hlen).antisymm (h'.fits hlen.symm)

theorem length_pad (h : s.length ≤ rank) : (pad rank s).length = rank := by
  rw [pad, List.length_append, List.length_replicate]
  omega

/-- Axes of length 1 in front make no difference where there is room for them. -/
theorem pad_stretches_iff (hs : s.length ≤ rank) (hS : rank ≤ S.length) :
    (pad rank s).Stretches S ↔ s.Stretches S := by
  unfold pad
  constructor
  · rintro ⟨front, back, rfl, hfits⟩
    obtain ⟨b₁, b₂, rfl, -, hb⟩ := hfits.split
    exact ⟨front ++ b₁, b₂, (List.append_assoc ..).symm, hb⟩
  · rintro ⟨front, back, rfl, hfits⟩
    have hlen := hfits.length_eq
    rw [List.length_append] at hS
    refine ⟨front.take (front.length - (rank - s.length)),
      front.drop (front.length - (rank - s.length)) ++ back, ?_, ?_⟩
    · rw [← List.append_assoc, List.take_append_drop]
    · refine (fits_replicate_one ?_).append hfits
      rw [List.length_drop]
      omega

/-! ## Joining -/

theorem joinAxis?_eq_some {m n k : Nat} (h : joinAxis? m n = some k) : FitsAxis m k ∧ FitsAxis n k := by
  unfold joinAxis? at h
  unfold FitsAxis
  split at h
  · rename_i hmn
    simp only [Bool.or_eq_true, decide_eq_true_eq] at hmn
    cases h
    omega
  · split at h
    · cases h
      omega
    · cases h

/-- Two axes that fit one join to an axis that fits it too. -/
theorem exists_joinAxis? {m n l : Nat} (hm : FitsAxis m l) (hn : FitsAxis n l) :
    ∃ k, joinAxis? m n = some k ∧ FitsAxis k l := by
  unfold joinAxis?
  unfold FitsAxis at *
  split
  · exact ⟨m, rfl, hm⟩
  · rename_i hmn
    simp only [Bool.or_eq_true, decide_eq_true_eq] at hmn
    rw [if_pos (by omega)]
    exact ⟨n, rfl, hn⟩

theorem joinAxes_eq_ok : ∀ {axis : Nat} {s t u : Shape}, s.length = t.length →
    joinAxes axis s t = .ok u → s.Fits u ∧ t.Fits u
  | _, [], [], u, _, h => by
    cases h
    exact ⟨.nil, .nil⟩
  | axis, m :: s, n :: t, u, hlen, h => by
    unfold joinAxes at h
    split at h
    · cases h
    · rename_i k hk
      obtain ⟨v, hv, rfl⟩ := Except.map_eq_ok.mp h
      obtain ⟨hs, ht⟩ := joinAxes_eq_ok (Nat.succ.inj hlen) hv
      obtain ⟨hm, hn⟩ := joinAxis?_eq_some hk
      exact ⟨.cons hm hs, .cons hn ht⟩

theorem exists_joinAxes : ∀ {S : Shape} (axis : Nat) {s t : Shape}, s.Fits S → t.Fits S →
    ∃ u, joinAxes axis s t = .ok u ∧ u.Fits S
  | [], axis, s, t, hs, ht => by
    rw [List.forall₂_nil_right_iff.mp hs, List.forall₂_nil_right_iff.mp ht]
    exact ⟨[], rfl, .nil⟩
  | l :: S, axis, s, t, hs, ht => by
    obtain ⟨m, s', hm, hs', rfl⟩ := List.forall₂_cons_right_iff.mp hs
    obtain ⟨n, t', hn, ht', rfl⟩ := List.forall₂_cons_right_iff.mp ht
    obtain ⟨k, hk, hkl⟩ := exists_joinAxis? hm hn
    obtain ⟨u, hu, huS⟩ := exists_joinAxes (axis + 1) hs' ht'
    refine ⟨k :: u, ?_, .cons hkl huS⟩
    rw [joinAxes, hk]
    exact Except.map_eq_ok.mpr ⟨u, hu, rfl⟩

/-- Shapes that broadcast stretch to what they broadcast to, which has as many axes as the longer
one. -/
theorem broadcast_eq_ok (h : broadcast s t = .ok u) :
    s.Stretches u ∧ t.Stretches u ∧ u.length = max s.length t.length := by
  unfold broadcast at h
  dsimp only at h
  have hs : (pad (max s.length t.length) s).length = max s.length t.length :=
    length_pad (Nat.le_max_left _ _)
  have ht : (pad (max s.length t.length) t).length = max s.length t.length :=
    length_pad (Nat.le_max_right _ _)
  split at h
  · rename_i v hv
    cases h
    obtain ⟨hsu, htu⟩ := joinAxes_eq_ok (hs.trans ht.symm) hv
    have hlen : u.length = max s.length t.length := by rw [← hsu.length_eq, hs]
    have hlen' := Nat.le_of_eq hlen.symm
    exact ⟨(pad_stretches_iff (Nat.le_max_left _ _) hlen').mp hsu.stretches,
      (pad_stretches_iff (Nat.le_max_right _ _) hlen').mp htu.stretches, hlen⟩
  · cases h

/-- Shapes that do not broadcast have two aligned axes that do not join. -/
theorem broadcast_eq_error {e : ShapeError} (h : broadcast s t = .error e) :
    ∃ axis m n, e = .mismatch s t axis m n := by
  unfold broadcast at h
  dsimp only at h
  split at h
  · cases h
  · cases h
    exact ⟨_, _, _, rfl⟩

/-- Shapes that stretch to a shape broadcast, to one that stretches to it. -/
theorem exists_broadcast (hs : s.Stretches S) (ht : t.Stretches S) :
    ∃ u, broadcast s t = .ok u ∧ u.Stretches S := by
  have hrank : max s.length t.length ≤ S.length := Nat.max_le.mpr ⟨hs.length_le, ht.length_le⟩
  -- the last axes of `S`, as many as the longer shape has
  obtain ⟨front, back, rfl, hback⟩ :
      ∃ front back, S = front ++ back ∧ back.length = max s.length t.length :=
    ⟨S.take (S.length - max s.length t.length), S.drop (S.length - max s.length t.length),
      (List.take_append_drop ..).symm, by rw [List.length_drop]; omega⟩
  have hfits : ∀ {v : Shape}, v.length ≤ max s.length t.length → v.Stretches (front ++ back) →
      (pad (max s.length t.length) v).Fits back := by
    intro v hv hstretches
    have hpad := length_pad hv
    obtain ⟨front', back', heq, hfits⟩ := (pad_stretches_iff hv hrank).mpr hstretches
    have hback' : back'.length = back.length := by rw [← hfits.length_eq, hpad, hback]
    rwa [(List.append_inj' heq hback'.symm).2]
  obtain ⟨u, hu, huback⟩ := exists_joinAxes 0 (hfits (Nat.le_max_left _ _) hs)
    (hfits (Nat.le_max_right _ _) ht)
  refine ⟨u, ?_, front, back, rfl, huback⟩
  unfold broadcast
  simp only [hu]

/-- A shape broadcasts to another just if it stretches to it. -/
theorem broadcast_eq_right_iff : broadcast s S = .ok S ↔ s.Stretches S := by
  refine ⟨fun h => (broadcast_eq_ok h).1, fun h => ?_⟩
  obtain ⟨u, hu, huS⟩ := exists_broadcast h (.refl S)
  rw [hu, huS.antisymm (broadcast_eq_ok hu).2.1]

/-- The shape of several shapes broadcast together, from the left. -/
def joint (shapes : List Shape) : Except ShapeError Shape := shapes.foldlM broadcast []

theorem foldlM_broadcast_eq_ok : ∀ {shapes : List Shape} {acc S : Shape},
    shapes.foldlM broadcast acc = .ok S → acc.Stretches S ∧ ∀ s ∈ shapes, s.Stretches S
  | [], acc, S, h => by
    cases h
    exact ⟨.refl acc, by simp⟩
  | s :: shapes, acc, S, h => by
    rw [List.foldlM_cons] at h
    obtain ⟨u, hu, h⟩ := Except.bind_eq_ok.mp h
    obtain ⟨hacc, hs, -⟩ := broadcast_eq_ok hu
    obtain ⟨hu, hall⟩ := foldlM_broadcast_eq_ok h
    exact ⟨hacc.trans hu, List.forall_mem_cons.mpr ⟨hs.trans hu, hall⟩⟩

theorem exists_foldlM_broadcast : ∀ {shapes : List Shape} {acc : Shape}, acc.Stretches T →
    (∀ s ∈ shapes, s.Stretches T) → ∃ S, shapes.foldlM broadcast acc = .ok S ∧ S.Stretches T
  | [], acc, hacc, _ => ⟨acc, rfl, hacc⟩
  | s :: shapes, acc, hacc, hall => by
    obtain ⟨hs, hall⟩ := List.forall_mem_cons.mp hall
    obtain ⟨u, hu, huT⟩ := exists_broadcast hacc hs
    obtain ⟨S, hS, hST⟩ := exists_foldlM_broadcast huT hall
    exact ⟨S, by rw [List.foldlM_cons, hu, Except.ok_bind, hS], hST⟩

/-- Each of several shapes stretches to their joint shape. -/
theorem joint_eq_ok {shapes : List Shape} (h : joint shapes = .ok S) : ∀ s ∈ shapes, s.Stretches S :=
  (foldlM_broadcast_eq_ok h).2

/-- Shapes that stretch to a shape have a joint shape, which stretches to it. -/
theorem exists_joint {shapes : List Shape} (h : ∀ s ∈ shapes, s.Stretches T) :
    ∃ S, joint shapes = .ok S ∧ S.Stretches T :=
  exists_foldlM_broadcast (nil_stretches T) h

/-! ## The order of joining -/

/-- The least shape that all of these stretch to. -/
structure IsJoint (shapes : List Shape) (S : Shape) : Prop where
  stretches : ∀ s ∈ shapes, s.Stretches S
  least : ∀ T, (∀ s ∈ shapes, s.Stretches T) → S.Stretches T

section Joint

variable {l l' : List Shape}

theorem IsJoint.unique (h : IsJoint l S) (h' : IsJoint l T) : S = T :=
  (h.least T h'.stretches).antisymm (h'.least S h.stretches)

/-- How often and in what order the shapes are listed does not matter. -/
theorem isJoint_congr (h : ∀ s, s ∈ l ↔ s ∈ l') : IsJoint l S ↔ IsJoint l' S := by
  have hbound : ∀ T : Shape, (∀ s ∈ l, s.Stretches T) ↔ ∀ s ∈ l', s.Stretches T := fun T =>
    forall_congr' fun s => by rw [h]
  constructor
  · exact fun hS => ⟨(hbound S).mp hS.stretches, fun T hT => hS.least T ((hbound T).mpr hT)⟩
  · exact fun hS => ⟨(hbound S).mpr hS.stretches, fun T hT => hS.least T ((hbound T).mp hT)⟩

theorem isJoint_singleton (s : Shape) : IsJoint [s] s :=
  ⟨by simpa using Stretches.refl s, fun T hT => hT s List.mem_cons_self⟩

/-- Shapes that stretch to some shape have a least one. -/
theorem exists_isJoint (h : ∀ s ∈ l, s.Stretches T) : ∃ S, IsJoint l S := by
  obtain ⟨S, hS, -⟩ := exists_joint h
  refine ⟨S, joint_eq_ok hS, fun U hU => ?_⟩
  obtain ⟨S', hS', hS'U⟩ := exists_joint hU
  obtain rfl : S = S' := Except.ok.inj (hS.symm.trans hS')
  exact hS'U

/-- Two shapes broadcast to the least shape that both stretch to. -/
theorem broadcast_eq_ok_iff : broadcast s t = .ok u ↔ IsJoint [s, t] u := by
  have hjoint : ∀ {v : Shape}, broadcast s t = .ok v → IsJoint [s, t] v := by
    intro v hv
    obtain ⟨hs, ht, -⟩ := broadcast_eq_ok hv
    refine ⟨by simp [hs, ht], fun T hT => ?_⟩
    obtain ⟨w, hw, hwT⟩ := exists_broadcast (hT s (by simp)) (hT t (by simp))
    obtain rfl : v = w := Except.ok.inj (hv.symm.trans hw)
    exact hwT
  refine ⟨hjoint, fun h => ?_⟩
  obtain ⟨v, hv, -⟩ := exists_broadcast (h.stretches s (by simp)) (h.stretches t (by simp))
  rw [hv, (hjoint hv).unique h]

/-- The joint shape of all is that of the joint shapes of two parts. -/
theorem isJoint_append {v : Shape} (h : IsJoint l u) (h' : IsJoint l' v) :
    IsJoint (l ++ l') S ↔ IsJoint [u, v] S := by
  have hbound : ∀ T : Shape, (∀ s ∈ l ++ l', s.Stretches T) ↔ ∀ s ∈ [u, v], s.Stretches T := by
    intro T
    rw [List.forall_mem_append, List.forall_mem_cons, List.forall_mem_singleton]
    constructor
    · exact fun hT => ⟨h.least T hT.1, h'.least T hT.2⟩
    · exact fun hT => ⟨fun s hs => (h.stretches s hs).trans hT.1,
        fun s hs => (h'.stretches s hs).trans hT.2⟩
  constructor
  · exact fun hS => ⟨(hbound S).mp hS.stretches, fun T hT => hS.least T ((hbound T).mpr hT)⟩
  · exact fun hS => ⟨(hbound S).mpr hS.stretches, fun T hT => hS.least T ((hbound T).mp hT)⟩

/-- Two partial results that are the joint shape of the same shapes are equal, or both absent. -/
theorem toOption_eq_of_isJoint {ε ε' : Type} {x : Except ε Shape} {y : Except ε' Shape}
    (hx : ∀ S, x = .ok S ↔ IsJoint l S) (hy : ∀ S, y = .ok S ↔ IsJoint l S) :
    x.toOption = y.toOption := by
  refine Option.ext fun S => ?_
  rw [Except.toOption_eq_some, Except.toOption_eq_some, hx, hy]

theorem broadcast_comm (s t : Shape) : (broadcast s t).toOption = (broadcast t s).toOption := by
  refine toOption_eq_of_isJoint (fun S => broadcast_eq_ok_iff) fun S => ?_
  rw [broadcast_eq_ok_iff]
  exact isJoint_congr fun x => by simp [or_comm]

theorem nil_broadcast (s : Shape) : broadcast [] s = .ok s :=
  broadcast_eq_right_iff.mpr (nil_stretches s)

theorem broadcast_nil (s : Shape) : broadcast s [] = .ok s := by
  have h := broadcast_comm s []
  rw [nil_broadcast] at h
  exact Except.toOption_eq_some.mp h

end Joint

end Formulary.Shape
