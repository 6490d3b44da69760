import Formulary.NdArray.Basic
import Mathlib.Data.List.Forall2

/-!
The fill value in the place of NaN.

There is one double that is not a number, and its products are not numbers. So filling puts the fill
value in the place of every missing element, whether the elements are multiplied before or not. An
array that has the fill value itself in such places looks the same once both are filled; but
multiplied first, only if a multiple of the fill value is filled like a missing element.
-/

namespace Formulary

namespace Double

/-- The double that is not a number. -/
def nan : Float := 0.0 / 0.0

theorem isNaN_nan : nan.isNaN = true := by decide +kernel

open Float.Model.UnpackedFloat in
/-- All that is not a number has the same bits. -/
theorem bits_of_isNaN {m : Float.Model} (h : m.isNaN = true) :
    m.toBits.toBitVec = packedNaN .binary64 := by
  unfold Float.Model.isNaN Float.Model.unpack unpack at h
  dsimp only at h
  by_cases hexponent : @unpackExponent .binary64 m.toBits.toBitVec = -1#_
  · by_cases hmantissa : @unpackMantissa .binary64 m.toBits.toBitVec = 0#_
    · rw [if_pos hexponent, if_pos hmantissa] at h
      cases h
    · exact m.valid.eq_packedNaN hexponent hmantissa
  · -- without the largest exponent it is zero or a number
    rw [if_neg hexponent] at h
    by_cases hzero : @unpackExponent .binary64 m.toBits.toBitVec = 0#_
    · rw [if_pos hzero] at h
      by_cases hmantissa : @unpackMantissa .binary64 m.toBits.toBitVec = 0#_
      · rw [dif_pos hmantissa] at h
        cases h
      · rw [dif_neg hmantissa] at h
        cases h
    · rw [if_neg hzero] at h
      cases h

theorem eq_nan_of_isNaN {x : Float} (h : x.isNaN = true) : x = nan := by
  have hbits := (bits_of_isNaN h).trans (bits_of_isNaN isNaN_nan).symm
  obtain ⟨⟨a, ha⟩⟩ := x
  generalize nan = y at hbits
  obtain ⟨⟨b, hb⟩⟩ := y
  obtain rfl : a = b := UInt64.toBitVec_inj.mp hbits
  rfl

theorem isNaN_mul {x : Float} (h : x.isNaN = true) (c : Float) : (x * c).isNaN = true := by
  have hx : x.toModel.unpack = .notANumber := by
    have h : x.toModel.unpack.isNaN = true := h
    cases hu : x.toModel.unpack <;> rw [hu] at h <;> first | rfl | cases h
  have hmul : x * c = .ofModel (.pack (.mul .binary64 x.toModel.unpack c.toModel.unpack)) := rfl
  have hnan : ∀ u, Float.Model.UnpackedFloat.mul .binary64 .notANumber u = .notANumber := fun u => by
    cases u <;> rfl
  rw [hmul, hx, hnan]
  decide +kernel

/-- The fill value in the place of what is not a number. -/
def filled (fill x : Float) : Float := if x.isNaN then fill else x

theorem filled_self (fill : Float) : filled fill fill = fill := ite_self _

end Double

namespace NdArray

open Double (filled)

variable {a b : NdArray} {fill c : Float}

theorem eq_of_toList (hshape : a.shape = b.shape) (hdata : a.data.toList = b.data.toList) :
    a = b := by
  obtain ⟨shape, data, hsize⟩ := a
  obtain ⟨shape', data', hsize'⟩ := b
  obtain rfl : shape = shape' := hshape
  obtain rfl : data = data' := Array.toList_inj.mp hdata
  rfl

/-- Filling does the same to every element, also if the fill value is not a number. -/
theorem fillNaN_eq_map (fill : Float) (a : NdArray) : a.fillNaN fill = a.map (filled fill) := by
  unfold fillNaN
  split
  · rename_i hnan
    refine eq_of_toList rfl ?_
    rw [map, Array.toList_map]
    refine (List.map_id _).symm.trans (List.map_congr_left fun x _ => ?_)
    unfold filled
    split
    · rename_i hx
      rw [id, Double.eq_nan_of_isNaN hx, Double.eq_nan_of_isNaN hnan]
    · rfl
  · rfl

/-- One result is the other with the fill value in the place of some of its missing elements. -/
structure Marks (fill : Float) (a b : NdArray) : Prop where
  shape_eq : a.shape = b.shape
  elements : List.Forall₂ (fun x y => y = x ∨ x.isNaN = true ∧ y = fill) a.data.toList b.data.toList

theorem map_eq_map_iff {f : Float → Float} (h : a.shape = b.shape) :
    a.map f = b.map f ↔ a.data.toList.map f = b.data.toList.map f := by
  constructor
  · intro hmap
    simpa [map] using congrArg (fun x => x.data.toList) hmap
  · intro hdata
    exact eq_of_toList h (by simpa [map] using hdata)

/-- Where the fill value marks missing elements, filling makes up for it after a change of the
elements that keeps the missing ones just if the changed fill value is filled like a missing one, or
there is nothing marked. -/
theorem Marks.map_fillNaN_iff (h : Marks fill a b) {f : Float → Float}
    (hf : ∀ x : Float, x.isNaN = true → (f x).isNaN = true) :
    (a.map f).fillNaN fill = (b.map f).fillNaN fill ↔ a = b ∨ filled fill (f fill) = fill := by
  have hmap : ∀ x : NdArray, (x.map f).fillNaN fill = x.map fun y => filled fill (f y) := fun x => by
    rw [fillNaN_eq_map]
    exact eq_of_toList rfl (by simp [map])
  rw [hmap, hmap, map_eq_map_iff h.shape_eq]
  have hlists : ∀ {l l' : List Float},
      List.Forall₂ (fun x y => y = x ∨ x.isNaN = true ∧ y = fill) l l' →
      (l.map (fun y => filled fill (f y)) = l'.map (fun y => filled fill (f y)) ↔
        l = l' ∨ filled fill (f fill) = fill) := by
    intro l l' hl
    induction hl with
    | nil => simp
    | @cons x y l l' hxy _ ih =>
      rw [List.map_cons, List.map_cons, List.cons.injEq, List.cons.injEq, ih]
      rcases hxy with rfl | ⟨hx, rfl⟩
      · simp
      · have hmissing : filled y (f x) = y := if_pos (hf x hx)
        rw [hmissing]
        constructor
        · exact fun h => .inr h.1.symm
        · rintro (⟨rfl, rfl⟩ | h)
          · exact ⟨hmissing.symm, .inl rfl⟩
          · exact ⟨h.symm, .inr h⟩
  rw [hlists h.elements]
  refine or_congr_left ⟨eq_of_toList h.shape_eq, fun heq => by rw [heq]⟩

end NdArray

end Formulary
