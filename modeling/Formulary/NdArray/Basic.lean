import Formulary.NdArray.Plan

/-!
Arrays of doubles of any rank, in row-major order.

The data of an array always fill its shape. Elementwise operations on two arrays broadcast:
`zipWith` pairs the elements as the plan of the two shapes says.
-/

namespace Formulary

/-- A shape and the elements in row-major order. -/
structure NdArray where
  shape : Shape
  data : Array Float
  /-- The elements fill the shape. -/
  size_data : data.size = shape.size

namespace NdArray

/-- The array of the given data and shape; the data must fill it. -/
def make (data : Array Float) (shape : Shape) : Except ShapeError NdArray :=
  if h : data.size = shape.size then .ok ⟨shape, data, h⟩
  else .error (.dataLength data.size shape shape.size)

/-- A single number. -/
def scalar (x : Float) : NdArray := ⟨[], #[x], rfl⟩

/-- The array of rank 1 with the given elements. -/
def vector (data : Array Float) : NdArray := ⟨[data.size], data, by simp [Shape.size]⟩

/-- The array with the given value at every multi-index. -/
def ofIndex (shape : Shape) (f : List Nat → Float) : NdArray :=
  ⟨shape, (shape.indices.map f).toArray, by simp [shape.length_indices]⟩

/-- The array with one value everywhere. -/
def full (shape : Shape) (x : Float) : NdArray :=
  ⟨shape, Array.replicate shape.size x, by simp⟩

/-- `n` evenly spaced numbers, the first and last as given; one number is the first. -/
def linspace (start stop : Float) (n : Nat) : NdArray :=
  let step := (stop - start) / Float.ofNat (n - 1)
  vector ((List.range n).map fun i => if n = 1 then start else start + step * Float.ofNat i).toArray

/-- The number of axes. -/
def rank (a : NdArray) : Nat := a.shape.length

/-- The element at a multi-index of the shape. -/
def get? (a : NdArray) (ix : List Nat) : Option Float := (a.shape.offset? ix).bind (a.data[·]?)

/-- The same elements in another shape. -/
def reshape (a : NdArray) (shape : Shape) : Except ShapeError NdArray := make a.data shape

/-- Applies a function to each element. -/
def map (f : Float → Float) (a : NdArray) : NdArray :=
  ⟨a.shape, a.data.map f, by simp [a.size_data]⟩

/-- Applies a function to the elements that meet when the two shapes are broadcast. -/
def zipWith (f : Float → Float → Float) (a b : NdArray) : Except ShapeError NdArray :=
  if h : a.shape = b.shape then
    .ok ⟨a.shape, Array.zipWith f a.data b.data, by simp [a.size_data, b.size_data, h]⟩
  else
    match BroadcastPlan.make a.shape b.shape with
    | .error e => .error e
    | .ok p =>
      let meet := fun (i, j) => f (a.data.getD i 0) (b.data.getD j 0)
      .ok ⟨p.shape, (p.pairs.map meet).toArray, by simp [p.length_pairs]⟩

/-- Puts `fill` in the place of each NaN. -/
def fillNaN (fill : Float) (a : NdArray) : NdArray :=
  if fill.isNaN then a else a.map fun x => if x.isNaN then fill else x

end NdArray

end Formulary
