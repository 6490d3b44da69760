/-!
Shapes of arrays, and how two shapes broadcast.

A shape lists the lengths of the axes; a scalar has no axis. Two shapes are aligned at their last
axes, the shorter one filled up with axes of length 1 in front. Two aligned axes join when their
lengths are equal or one of them is 1.
-/

namespace Formulary

/-- The lengths of the axes. -/
abbrev Shape := List Nat

/-- Why an array cannot be built, or two shapes do not broadcast. -/
inductive ShapeError where
  /-- The data do not fill the shape. -/
  | dataLength (length : Nat) (shape : Shape) (expected : Nat)
  /-- Two aligned axes have lengths that differ and are not 1. -/
  | mismatch (left right : Shape) (axis a b : Nat)
deriving DecidableEq, Repr

namespace Shape

/-- The number of elements. -/
def size : Shape → Nat
  | [] => 1
  | n :: s => n * size s

/-- The list of natural numbers `[2, 3]` as text. -/
def text (s : Shape) : String :=
  "[" ++ ", ".intercalate (s.map toString) ++ "]"

/-- The shape with axes of length 1 put in front, up to `rank` axes. -/
def pad (rank : Nat) (s : Shape) : Shape := List.replicate (rank - s.length) 1 ++ s

/-- The joint length of two aligned axes. -/
def joinAxis? (m n : Nat) : Option Nat :=
  if m = n || n = 1 then some m else if m = 1 then some n else none

/-- Joins two aligned shapes axis by axis. The first pair that does not join is the failure: its
position and the two lengths. -/
def joinAxes (axis : Nat) : Shape → Shape → Except (Nat × Nat × Nat) Shape
  | m :: s, n :: t =>
    match joinAxis? m n with
    | none => .error (axis, m, n)
    | some k => (joinAxes (axis + 1) s t).map (k :: ·)
  | _, _ => .ok []

/-- The shape of two shapes broadcast together. -/
def broadcast (a b : Shape) : Except ShapeError Shape :=
  let rank := max a.length b.length
  match joinAxes 0 (pad rank a) (pad rank b) with
  | .ok s => .ok s
  | .error (axis, m, n) => .error (.mismatch a b axis m n)

/-- The multi-indices of a shape, in row-major order. -/
def indices : Shape → List (List Nat)
  | [] => [[]]
  | n :: s => (List.range n).flatMap fun i => (indices s).map (i :: ·)

/-- There are as many multi-indices as elements. -/
theorem length_indices (s : Shape) : s.indices.length = s.size := by
  induction s with
  | nil => rfl
  | cons n s ih => simp [indices, size, List.length_flatMap, ih, List.map_const']

/-- The row-major position of a multi-index, if it lies in the shape. -/
def offset? : Shape → List Nat → Option Nat
  | [], [] => some 0
  | n :: s, i :: ix => if i < n then (offset? s ix).map (i * size s + ·) else none
  | _, _ => none

/-- For each axis, how far apart neighbours along it lie. An empty axis counts as one of length
1. -/
def strides : Shape → List Nat
  | [] => []
  | _ :: s => (s.map (max 1)).foldr (· * ·) 1 :: strides s

/-- How far to move in the flat data for a step along each axis: not at all on an axis of length
1, which is repeated. -/
def advances (s : Shape) : List Nat :=
  s.zipWith (fun n stride => if n ≤ 1 then 0 else stride) (strides s)

end Shape

/-- What went wrong, in words. -/
def ShapeError.message : ShapeError → String
  | .dataLength length shape expected =>
    "array data length " ++ toString length ++ " doesn't match shape " ++ shape.text ++
      " (" ++ toString expected ++ " elements)"
  | .mismatch left right axis a b =>
    "shapes " ++ left.text ++ " and " ++ right.text ++ " are not broadcastable (dimension " ++
      toString axis ++ ": " ++ toString a ++ " vs " ++ toString b ++ ")"

end Formulary
