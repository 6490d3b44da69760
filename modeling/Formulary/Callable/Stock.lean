import Formulary.Callable.Basic

/-!
Stock functions to register: affine combinations, products, outer sums, and piecewise linear
interpolation on a grid.
-/

namespace Formulary.Stock

/-- The function called in faults by the general name, from its result. -/
def function (params : List String) (defaults : NameMap NdArray)
    (result : List NdArray → Except Fault NdArray) : HostFunction :=
  ⟨"function", params, defaults, fun _ args => result args⟩

/-- The constant plus each argument times its coefficient. -/
def affine (constant : Float) (coefficients : List Float) (args : List NdArray) :
    Except Fault NdArray :=
  (args.zip coefficients).foldlM
    (fun acc (a, c) => Term.joinArrays (· + ·) acc (a.map (c * ·)))
    (.scalar constant)

/-- The product of the arguments. -/
def product (args : List NdArray) : Except Fault NdArray :=
  args.foldlM (fun acc a => Term.joinArrays (· * ·) acc a) (.scalar 1.0)

/-- The sums of one element of each argument, an axis for each argument. -/
def outerSum (args : List NdArray) : NdArray :=
  .ofIndex (args.map fun a => a.data.size) fun ix =>
    (args.zip ix).foldl (fun acc (a, i) => acc + a.data.getD i 0.0) 0.0

/-- The first argument, with NaN in the place of elements below zero. -/
def nanBelowZero (args : List NdArray) : NdArray :=
  (args.headD (.scalar 0.0)).map fun x => if x < 0.0 then 0.0 / 0.0 else x

/-- The fault of a function that always fails. -/
def failure : Fault := .ofCause (.domainError "primitive failed")

/-- The value at `x` of the line through the grid points around it; `fill` outside the grid. -/
def interpolate (grid values : Array Float) (fill x : Float) : Float :=
  let last := grid.size - 1
  if grid.getD 0 0.0 ≤ x && x ≤ grid.getD last 0.0 then
    let below := (grid.toList.takeWhile (· ≤ x)).length
    let i := min (max below 1) last
    let x0 := grid.getD (i - 1) 0.0
    let x1 := grid.getD i 0.0
    let t := (x - x0) / (x1 - x0)
    values.getD (i - 1) 0.0 * (1.0 - t) + values.getD i 0.0 * t
  else fill

/-- Interpolation of the first argument, elementwise. -/
def interpolator (params : List String) (defaults : NameMap NdArray) (grid values : Array Float) :
    HostFunction where
  callee := "interpolator"
  params := params
  defaults := defaults
  run := fun fill args => .ok ((args.headD (.scalar 0.0)).map (interpolate grid values fill))

end Formulary.Stock
