import Formulary.Proofs.NdArray.Broadcast

/-!
Multi-indices and flat positions.

A multi-index of a shape that another one stretches to is clamped to that one: its last places count,
and on an axis of length 1 the first element is taken. The multi-indices of a shape have the positions
from zero on, in row-major order. The advances of a shape lead from the places of a multi-index of a
joint shape to the position of the clamped one.
-/

namespace Formulary

namespace Shape

variable {s t S U : Shape} {ix : List Nat} {k : Nat}

/-- The places of a multi-index that lies in the shape. -/
def Within (ix : List Nat) (s : Shape) : Prop := List.Forall₂ (· < ·) ix s

/-- The multi-index with the first element taken on each axis of length 1. -/
def clampAxes (s : Shape) (ix : List Nat) : List Nat :=
  List.zipWith (fun n i => if n = 1 then 0 else i) s ix

/-- The multi-index of a shape that this one stretches to, taken to this one. -/
def clamp (s : Shape) (ix : List Nat) : List Nat := s.clampAxes (ix.drop (ix.length - s.length))

theorem mem_indices : ∀ {s : Shape} {ix : List Nat}, ix ∈ s.indices ↔ Within ix s
  | [], ix => by simp [indices, Within]
  | n :: s, ix => by
    simp only [indices, List.mem_flatMap, List.mem_range, List.mem_map, Within,
      List.forall₂_cons_right_iff]
    constructor
    · rintro ⟨i, hi, ix, hix, rfl⟩
      exact ⟨i, ix, hi, mem_indices.mp hix, rfl⟩
    · rintro ⟨i, ix, hi, hix, rfl⟩
      exact ⟨i, hi, ix, mem_indices.mpr hix, rfl⟩

/-! ## Clamping -/

theorem clamp_append {i j : List Nat} (h : j.length = s.length) : s.clamp (i ++ j) = s.clampAxes j := by
  unfold clamp
  rw [List.length_append, h, Nat.add_sub_cancel, List.drop_left]

theorem clampAxes_append {i j : List Nat} (h : i.length = s.length) :
    clampAxes (s ++ t) (i ++ j) = s.clampAxes i ++ t.clampAxes j :=
  List.zipWith_append h.symm

theorem length_clampAxes (h : ix.length = s.length) : (s.clampAxes ix).length = s.length := by
  rw [clampAxes, List.length_zipWith, h, Nat.min_self]

theorem Within.split {ix : List Nat} (h : Within ix (s ++ t)) :
    ∃ i j, ix = i ++ j ∧ Within i s ∧ Within j t :=
  ⟨_, _, (List.take_append_drop s.length ix).symm, List.forall₂_take_append ix s t h,
    List.forall₂_drop_append ix s t h⟩

theorem within_clampAxes : ∀ {s t : Shape} {ix : List Nat}, s.Fits t → Within ix t →
    Within (s.clampAxes ix) s
  | [], _, ix, _, _ => .nil
  | m :: s, _, ix, hfits, hix => by
    obtain ⟨n, t, hm, hs, rfl⟩ := List.forall₂_cons_left_iff.mp hfits
    obtain ⟨i, j, hi, hj, rfl⟩ := List.forall₂_cons_right_iff.mp hix
    refine .cons ?_ (within_clampAxes hs hj)
    change (if m = 1 then 0 else i) < m
    unfold FitsAxis at hm
    split <;> omega

theorem clampAxes_self (h : Within ix s) : s.clampAxes ix = ix := by
  unfold Within at h
  induction h with
  | nil => rfl
  | @cons i n ix s hi _ ih =>
    have hplace : (if n = 1 then 0 else i) = i := by
      split <;> omega
    exact List.cons_eq_cons.mpr ⟨hplace, ih⟩

/-- A multi-index of the shape itself stays as it is. -/
theorem clamp_self (h : Within ix s) : s.clamp ix = ix := by
  rw [clamp, h.length_eq, Nat.sub_self, List.drop_zero, clampAxes_self h]

/-- Clamping a multi-index gives one of the shape. -/
theorem clamp_mem_indices (h : s.Stretches S) (hix : ix ∈ S.indices) : s.clamp ix ∈ s.indices := by
  obtain ⟨front, back, rfl, hfits⟩ := h
  obtain ⟨i, j, rfl, -, hj⟩ := (mem_indices.mp hix).split
  rw [clamp_append (hj.length_eq.trans hfits.length_eq.symm), mem_indices]
  exact within_clampAxes hfits hj

theorem clampAxes_clampAxes : ∀ {s t : Shape} (ix : List Nat), s.Fits t →
    s.clampAxes (t.clampAxes ix) = s.clampAxes ix
  | [], _, _, _ => rfl
  | m :: s, _, ix, hfits => by
    obtain ⟨n, t, hm, hs, rfl⟩ := List.forall₂_cons_left_iff.mp hfits
    cases ix with
    | nil => rfl
    | cons i ix =>
      refine List.cons_eq_cons.mpr ⟨?_, clampAxes_clampAxes ix hs⟩
      unfold FitsAxis at hm
      dsimp only
      split
      · rfl
      · rw [if_neg (by omega)]

/-- Clamping by way of a shape in between makes no difference. -/
theorem clamp_clamp (hs : s.Stretches U) (hU : U.Stretches S) (hix : ix ∈ S.indices) :
    s.clamp (U.clamp ix) = s.clamp ix := by
  obtain ⟨front, back, rfl, hback⟩ := hs
  obtain ⟨front', back', rfl, hfits⟩ := hU
  obtain ⟨i, j, rfl, -, hj⟩ := (mem_indices.mp hix).split
  have hlen : j.length = (front ++ back).length := hj.length_eq.trans hfits.length_eq.symm
  obtain ⟨b₁, b₂, rfl, hb₁, hb₂⟩ := hfits.split
  obtain ⟨j₁, j₂, rfl, hj₁, hj₂⟩ := hj.split
  have hlen₁ : j₁.length = front.length := hj₁.length_eq.trans hb₁.length_eq.symm
  have hlen₂ : j₂.length = back.length := hj₂.length_eq.trans hb₂.length_eq.symm
  rw [clamp_append hlen, clampAxes_append hlen₁, ← List.append_assoc,
    clamp_append (hlen₂.trans hback.length_eq.symm),
    clamp_append ((length_clampAxes hlen₂).trans hback.length_eq.symm), clampAxes_clampAxes j₂ hback]

/-! ## Positions -/

theorem getElem?_flatMap_range {α : Type} {f : Nat → List α} {size i j : Nat}
    (hf : ∀ i, (f i).length = size) (hj : j < size) :
    ∀ {n : Nat}, i < n → ((List.range n).flatMap f)[i * size + j]? = (f i)[j]?
  | n + 1, hi => by
    have hlen : ((List.range n).flatMap f).length = n * size := by
      simp [List.length_flatMap, hf]
    rw [List.range_succ, List.flatMap_append, List.flatMap_singleton]
    rcases Nat.lt_succ_iff_lt_or_eq.mp hi with hi | rfl
    · have hlt : i * size + j < n * size := by
        have := Nat.mul_le_mul_right size (Nat.succ_le_of_lt hi)
        rw [Nat.succ_mul] at this
        omega
      rw [List.getElem?_append_left (hlen ▸ hlt), getElem?_flatMap_range hf hj hi]
    · rw [List.getElem?_append_right (by omega), hlen, Nat.add_sub_cancel_left]

/-- A multi-index has a position, which is its place among the multi-indices of the shape. -/
theorem exists_offset? : ∀ {s : Shape} {ix : List Nat}, ix ∈ s.indices →
    ∃ k, s.offset? ix = some k ∧ k < s.size ∧ s.indices[k]? = some ix
  | [], ix, h => by
    obtain rfl := List.mem_singleton.mp h
    exact ⟨0, rfl, Nat.one_pos, rfl⟩
  | n :: s, ix, h => by
    obtain ⟨i, hrange, hmap⟩ := List.mem_flatMap.mp h
    obtain ⟨jx, hjx, rfl⟩ := List.mem_map.mp hmap
    have hi := List.mem_range.mp hrange
    obtain ⟨k, hk, hlt, hget⟩ := exists_offset? hjx
    refine ⟨i * size s + k, by simp [offset?, hi, hk], ?_, ?_⟩
    · have := Nat.mul_le_mul_right (size s) (Nat.succ_le_of_lt hi)
      rw [Nat.succ_mul] at this
      rw [size]
      omega
    · rw [indices, getElem?_flatMap_range (fun i => by rw [List.length_map, length_indices]) hlt hi,
        List.getElem?_map, hget, Option.map_some]

/-- How far the places of a multi-index move by the given advances. -/
def distance (ix advances : List Nat) : Nat := (List.zipWith (· * ·) ix advances).foldr (· + ·) 0

theorem foldr_max_one_of_within : ∀ {s t : Shape} {ix : List Nat}, s.Fits t → Within ix t →
    (s.map (max 1)).foldr (· * ·) 1 = s.size
  | [], _, _, _, _ => rfl
  | m :: s, _, _, hfits, hix => by
    obtain ⟨n, t, hm, hs, rfl⟩ := List.forall₂_cons_left_iff.mp hfits
    obtain ⟨i, j, hi, hj, rfl⟩ := List.forall₂_cons_right_iff.mp hix
    have hpos : max 1 m = m := by
      unfold FitsAxis at hm
      omega
    rw [List.map_cons, List.foldr_cons, foldr_max_one_of_within hs hj, hpos, size]

/-- Where no axis is empty, the advances lead to the position of the clamped multi-index. -/
theorem offset?_clampAxes : ∀ {s t : Shape} {ix : List Nat}, s.Fits t → Within ix t →
    s.offset? (s.clampAxes ix) = some (distance ix s.advances)
  | [], _, ix, _, _ => by
    cases ix <;> rfl
  | m :: s, _, _, hfits, hix => by
    obtain ⟨n, t, hm, hs, rfl⟩ := List.forall₂_cons_left_iff.mp hfits
    obtain ⟨i, j, hi, hj, rfl⟩ := List.forall₂_cons_right_iff.mp hix
    have hrest := offset?_clampAxes hs hj
    have hlt : (if m = 1 then 0 else i) < m := by
      unfold FitsAxis at hm
      split <;> omega
    have hstep : (if m = 1 then 0 else i) * size s =
        i * if m ≤ 1 then 0 else (s.map (max 1)).foldr (· * ·) 1 := by
      rw [foldr_max_one_of_within hs hj]
      by_cases h1 : m = 1
      · simp [h1]
      · rw [if_neg h1, if_neg (by omega)]
    rw [clampAxes, List.zipWith_cons_cons, offset?, if_pos hlt]
    change (offset? s (clampAxes s j)).map _ = _
    rw [hrest, Option.map_some, hstep]
    rfl

/-- Axes of length 1 in front do not change positions. -/
theorem offset?_replicate_one (s : Shape) (j : List Nat) : ∀ {k : Nat} {i : List Nat}, i.length = k →
    offset? (List.replicate k 1 ++ s) (clampAxes (List.replicate k 1 ++ s) (i ++ j)) =
      s.offset? (s.clampAxes j)
  | 0, [], _ => rfl
  | k + 1, _ :: i, h => by
    rw [← offset?_replicate_one s j (Nat.succ.inj h)]
    simp [List.replicate_succ, clampAxes, offset?]

/-- The advances of a shape with axes of length 1 in front lead to the position in the shape. -/
theorem offset?_clamp_pad {rank : Nat} (hs : s.length ≤ rank) (hfits : (pad rank s).Fits t)
    (hix : Within ix t) : s.offset? (s.clamp ix) = some (distance ix (pad rank s).advances) := by
  have hlen : ix.length = rank := by rw [hix.length_eq, ← hfits.length_eq, length_pad hs]
  rw [← offset?_clampAxes hfits hix, clamp, hlen, pad]
  conv_rhs => rw [← List.take_append_drop (rank - s.length) ix]
  rw [offset?_replicate_one]
  rw [List.length_take, hlen]
  omega

end Shape

end Formulary
