import Formulary.NdArray.Basic
import Formulary.Proofs.NdArray.Plan

/-!
The elements of an array over the multi-indices of a shape that it stretches to.

The element at such a multi-index is that at the clamped one. Joining two arrays elementwise succeeds
whenever both stretch to a shape, and at each multi-index of that shape the result has what the
function makes of the two elements there. For arrays of different shapes this is what the running
positions of a broadcast plan come to: the position of the element in row-major order.
-/

namespace Formulary

namespace NdArray

open Shape (distance)

variable {a b c : NdArray} {S : Shape} {ix : List Nat} {f : Float → Float → Float}

/-- The element of an array at a multi-index of a shape that it stretches to. -/
def element? (a : NdArray) (ix : List Nat) : Option Float := a.get? (a.shape.clamp ix)

theorem element?_eq {k : Nat} (h : a.shape.offset? (a.shape.clamp ix) = some k) :
    a.element? ix = a.data[k]? := by
  rw [element?, get?, h, Option.bind_some]

/-- There is an element at each multi-index. -/
theorem exists_element? (h : a.shape.Stretches S) (hix : ix ∈ S.indices) :
    ∃ x, a.element? ix = some x := by
  obtain ⟨k, hk, hlt, -⟩ := Shape.exists_offset? (Shape.clamp_mem_indices h hix)
  exact ⟨_, (element?_eq hk).trans (Array.getElem?_eq_getElem (a.size_data.symm ▸ hlt))⟩

/-- Clamping to a shape in between does not change the element. -/
theorem element?_clamp {U : Shape} (h : a.shape.Stretches U) (hU : U.Stretches S)
    (hix : ix ∈ S.indices) : a.element? (U.clamp ix) = a.element? ix := by
  rw [element?, Shape.clamp_clamp h hU hix, element?]

theorem element?_map (g : Float → Float) (a : NdArray) (ix : List Nat) :
    (a.map g).element? ix = (a.element? ix).map g := by
  have hk : ∀ k, (a.map g).data[k]? = a.data[k]?.map g := fun k => Array.getElem?_map
  change (a.shape.offset? (a.shape.clamp ix)).bind (fun k => (a.map g).data[k]?) =
    ((a.shape.offset? (a.shape.clamp ix)).bind fun k => a.data[k]?).map g
  simp only [hk, Option.map_bind, Function.comp_def]

theorem zipWith_eq_ok (h : zipWith f a b = .ok c) : Shape.broadcast a.shape b.shape = .ok c.shape := by
  unfold zipWith at h
  split at h
  · rename_i heq
    cases h
    change Shape.broadcast a.shape b.shape = .ok a.shape
    rw [heq]
    exact Shape.broadcast_eq_right_iff.mpr (.refl _)
  · split at h
    · cases h
    · rename_i p hp
      cases h
      exact (BroadcastPlan.make_eq_ok hp).1

/-- Arrays that stretch to a shape can be joined, and the result stretches to it. -/
theorem exists_zipWith (f : Float → Float → Float) (ha : a.shape.Stretches S)
    (hb : b.shape.Stretches S) : ∃ c, zipWith f a b = .ok c ∧ c.shape.Stretches S := by
  obtain ⟨U, hU, hUS⟩ := Shape.exists_broadcast ha hb
  have hok : ∃ c, zipWith f a b = .ok c := by
    unfold zipWith
    split
    · exact ⟨_, rfl⟩
    · rw [BroadcastPlan.make, hU]
      exact ⟨_, rfl⟩
  obtain ⟨c, hc⟩ := hok
  rw [zipWith_eq_ok hc, Except.ok.injEq] at hU
  exact ⟨c, hc, hU ▸ hUS⟩

/-- Where two arrays of one shape are joined, the data are joined. -/
theorem zipWith_of_shape_eq (h : a.shape = b.shape) (hc : zipWith f a b = .ok c) :
    c.shape = a.shape ∧ c.data = Array.zipWith f a.data b.data := by
  rw [zipWith, dif_pos h] at hc
  cases hc
  exact ⟨rfl, rfl⟩

/-- Where the shapes differ, the data meet as the plan says. -/
theorem zipWith_of_shape_ne (h : a.shape ≠ b.shape) (hc : zipWith f a b = .ok c) :
    c.data.toList = c.shape.indices.map fun ix =>
      f (a.data.getD (distance ix (Shape.pad c.shape.length a.shape).advances) 0)
        (b.data.getD (distance ix (Shape.pad c.shape.length b.shape).advances) 0) := by
  rw [zipWith, dif_neg h] at hc
  split at hc
  · cases hc
  · rename_i p hp
    cases hc
    exact (congrArg (List.map _) (BroadcastPlan.make_eq_ok hp).2).trans List.map_map

/-- An array that stretches to a shape has at a multi-index of it the datum at the distance that the
advances of its shape lead to. -/
theorem getD_of_element? {x : Float} (h : a.shape.Stretches S) (hix : ix ∈ S.indices)
    (hx : a.element? ix = some x) :
    a.data.getD (distance ix (Shape.pad S.length a.shape).advances) 0 = x := by
  have hle := h.length_le
  have hfits := ((Shape.pad_stretches_iff hle (Nat.le_refl _)).mpr h).fits (Shape.length_pad hle)
  rw [element?_eq (Shape.offset?_clamp_pad hle hfits (Shape.mem_indices.mp hix))] at hx
  rw [Array.getD_eq_getD_getElem?, hx, Option.getD_some]

/-- Joining pairs the elements of two arrays at each multi-index. -/
theorem element?_zipWith {x y : Float} (h : zipWith f a b = .ok c) (hc : c.shape.Stretches S)
    (hix : ix ∈ S.indices) (hx : a.element? ix = some x) (hy : b.element? ix = some y) :
    c.element? ix = some (f x y) := by
  obtain ⟨ha, hb, -⟩ := Shape.broadcast_eq_ok (zipWith_eq_ok h)
  have hjx := Shape.clamp_mem_indices hc hix
  obtain ⟨k, hk, -, hget⟩ := Shape.exists_offset? hjx
  rw [element?_eq hk]
  by_cases hshape : a.shape = b.shape
  · obtain ⟨hcshape, hdata⟩ := zipWith_of_shape_eq hshape h
    rw [hcshape] at hk
    rw [element?_eq hk] at hx
    rw [element?_eq (hshape ▸ hk)] at hy
    rw [hdata, Array.getElem?_zipWith, hx, hy]
  · -- the elements at the multi-index of the joint shape
    rw [← element?_clamp ha hc hix] at hx
    rw [← element?_clamp hb hc hix] at hy
    rw [← Array.getElem?_toList, zipWith_of_shape_ne hshape h, List.getElem?_map, hget, Option.map_some,
      getD_of_element? ha hjx hx, getD_of_element? hb hjx hy]

/-! ## Exact broadcasting -/

theorem element?_self (h : Shape.Within ix a.shape) : a.element? ix = a.get? ix := by
  rw [element?, Shape.clamp_self h]

/-- Arrays whose shapes broadcast are joined to an array of the joint shape. -/
theorem exists_zipWith_of_broadcast (f : Float → Float → Float)
    (h : Shape.broadcast a.shape b.shape = .ok S) : ∃ c, zipWith f a b = .ok c ∧ c.shape = S := by
  obtain ⟨ha, hb, -⟩ := Shape.broadcast_eq_ok h
  obtain ⟨c, hc, -⟩ := exists_zipWith f ha hb
  have hshape := zipWith_eq_ok hc
  rw [h, Except.ok.injEq] at hshape
  exact ⟨c, hc, hshape.symm⟩

/-- Arrays whose shapes do not broadcast are not joined. -/
theorem zipWith_of_broadcast_error {e : ShapeError} (f : Float → Float → Float)
    (h : Shape.broadcast a.shape b.shape = .error e) : zipWith f a b = .error e := by
  have hshape : a.shape ≠ b.shape := fun heq => by
    rw [heq, Shape.broadcast_eq_right_iff.mpr (.refl _)] at h
    cases h
  rw [zipWith, dif_neg hshape, BroadcastPlan.make, h]
  rfl

/-- The element of the result at a multi-index is what the function makes of the two elements there. -/
theorem get?_zipWith (h : zipWith f a b = .ok c) (hix : Shape.Within ix c.shape) :
    ∃ x y, a.element? ix = some x ∧ b.element? ix = some y ∧ c.get? ix = some (f x y) := by
  obtain ⟨ha, hb, -⟩ := Shape.broadcast_eq_ok (zipWith_eq_ok h)
  have hmem := Shape.mem_indices.mpr hix
  obtain ⟨x, hx⟩ := exists_element? ha hmem
  obtain ⟨y, hy⟩ := exists_element? hb hmem
  refine ⟨x, y, hx, hy, ?_⟩
  rw [← element?_self hix]
  exact element?_zipWith h (.refl _) hmem hx hy

/-- Also where the two shapes are equal, the data of the result are those that the pairs of the plan
make. -/
theorem data_zipWith_of_plan {p : BroadcastPlan} (h : zipWith f a b = .ok c)
    (hp : BroadcastPlan.make a.shape b.shape = .ok p) {k i j : Nat} (hpair : p.pairs[k]? = some (i, j)) :
    ∃ x y, a.data[i]? = some x ∧ b.data[j]? = some y ∧ c.data[k]? = some (f x y) := by
  have hshape : p.shape = c.shape := Except.ok.inj
    ((BroadcastPlan.make_eq_ok hp).1.symm.trans (zipWith_eq_ok h))
  have hmeets := BroadcastPlan.meets_of_make hp
  obtain ⟨hlt, -⟩ := List.getElem?_eq_some_iff.mp hpair
  obtain ⟨ix, hix⟩ := BroadcastPlan.exists_offset?_eq (hmeets.length ▸ hlt)
  have hwithin := Shape.mem_indices.mp (Shape.mem_indices_of_offset? hix)
  obtain ⟨k', i', j', hk', hpair', hi, hj⟩ := hmeets.pair ix hwithin
  obtain rfl : k = k' := Option.some.inj (hix.symm.trans hk')
  rw [hpair, Option.some.injEq, Prod.mk.injEq] at hpair'
  obtain ⟨rfl, rfl⟩ := hpair'
  rw [hshape] at hix hwithin
  obtain ⟨x, y, hx, hy, hc⟩ := get?_zipWith h hwithin
  refine ⟨x, y, (element?_eq hi).symm.trans hx, (element?_eq hj).symm.trans hy, ?_⟩
  rwa [get?, hix, Option.bind_some] at hc

/-- Joining two arrays is exact broadcasting. If their shapes do not broadcast, the mismatch is the
failure. Otherwise the result has the joint shape and as many data as its size; at each multi-index of
it stands what the function makes of the two elements there, each array read at the last places of the
multi-index and at the first element of its axes of length 1. The pairs that the cursor of the plan
gives are one for each element, in row-major order and within both arrays, and the data are what these
pairs make, whether the shapes are equal or not. -/
theorem zipWith_exact (f : Float → Float → Float) (a b : NdArray) :
    (∀ e, Shape.broadcast a.shape b.shape = .error e →
      zipWith f a b = .error e ∧ ∃ axis m n, e = .mismatch a.shape b.shape axis m n) ∧
    ∀ S, Shape.broadcast a.shape b.shape = .ok S →
      ∃ c p, zipWith f a b = .ok c ∧ c.shape = S ∧ c.data.size = S.size ∧
        (∀ ix, Shape.Within ix S → ∃ x y, a.get? (a.shape.clamp ix) = some x ∧
          b.get? (b.shape.clamp ix) = some y ∧ c.get? ix = some (f x y)) ∧
        BroadcastPlan.make a.shape b.shape = .ok p ∧ p.shape = S ∧ p.Meets a.shape b.shape ∧
        ∀ k i j : Nat, p.pairs[k]? = some (i, j) →
          ∃ x y, a.data[i]? = some x ∧ b.data[j]? = some y ∧ c.data[k]? = some (f x y) := by
  refine ⟨fun e he => ⟨zipWith_of_broadcast_error f he, Shape.broadcast_eq_error he⟩, fun S hS => ?_⟩
  obtain ⟨c, hc, hshape⟩ := exists_zipWith_of_broadcast f hS
  obtain ⟨p, hp, hpS⟩ := BroadcastPlan.exists_make hS
  refine ⟨c, p, hc, hshape, hshape ▸ c.size_data, fun ix hix => ?_, hp, hpS,
    BroadcastPlan.meets_of_make hp, fun k i j hpair => data_zipWith_of_plan hc hp hpair⟩
  exact get?_zipWith hc (hshape ▸ hix)

end NdArray

end Formulary
