import Formulary.NdArray.Shape

/-!
Plans of two shapes that broadcast: which elements of two flat row-major arrays meet.

The pairs of a plan are given one after the other by a cursor. It keeps its place on each axis of the
joint shape and the two flat positions there, and no position is ever computed from the places: the
last axis moves on, and an axis that is used up is wound back while the axis before it moves on.
-/

namespace Formulary

/-- Which elements of two arrays meet: the joint shape, and for each of its axes the length and the
two advances. -/
structure BroadcastPlan where
  shape : Shape
  advanceLeft : List Nat
  advanceRight : List Nat
deriving DecidableEq, Repr

namespace BroadcastPlan

/-- The plan of two shapes that broadcast. -/
def make (a b : Shape) : Except ShapeError BroadcastPlan := do
  let shape ← Shape.broadcast a b
  let rank := shape.length
  pure ⟨shape, (Shape.pad rank a).advances, (Shape.pad rank b).advances⟩

/-- The place on each axis, and the flat positions there. -/
structure Spot where
  places : List Nat
  left : Nat
  right : Nat
deriving DecidableEq, Repr

/-- The spot after this one, on axes of the given lengths and advances. The last axis moves on; if it
is used up, it is wound back to its start and the axis before it moves on. With the spot: whether all
axes were used up. -/
def Spot.next : Shape → List Nat → List Nat → Spot → Bool × Spot
  | [], _, _, spot => (true, spot)
  | n :: s, da, db, ⟨places, left, right⟩ =>
    let place := places.headD 0
    match Spot.next s da.tail db.tail ⟨places.tail, left, right⟩ with
    | (false, spot) => (false, { spot with places := place :: spot.places })
    | (true, ⟨places, left, right⟩) =>
      if place + 1 < n then
        (false, ⟨(place + 1) :: places, left + da.headD 0, right + db.headD 0⟩)
      else
        (true, ⟨0 :: places, left - da.headD 0 * (n - 1), right - db.headD 0 * (n - 1)⟩)

/-- How many pairs have been given, and the spot of the next one. -/
structure Cursor where
  given : Nat
  spot : Spot
deriving DecidableEq, Repr

/-- The cursor before the first pair. -/
def start (p : BroadcastPlan) : Cursor := ⟨0, List.replicate p.shape.length 0, 0, 0⟩

/-- The next pair of flat positions, and the cursor after it. -/
def next? (p : BroadcastPlan) (c : Cursor) : Option ((Nat × Nat) × Cursor) :=
  if p.shape.size ≤ c.given then none
  else
    -- behind the last pair the cursor stays where it is
    let spot := if c.given + 1 = p.shape.size then c.spot
      else (c.spot.next p.shape p.advanceLeft p.advanceRight).2
    some ((c.spot.left, c.spot.right), ⟨c.given + 1, spot⟩)

theorem given_of_next? {p : BroadcastPlan} {c c' : Cursor} {pair : Nat × Nat}
    (h : p.next? c = some (pair, c')) : c.given < p.shape.size ∧ c'.given = c.given + 1 := by
  unfold next? at h
  split at h
  · cases h
  · rename_i hlt
    cases h
    exact ⟨Nat.lt_of_not_le hlt, rfl⟩

/-- The pairs that the cursor still gives. -/
def pairsFrom (p : BroadcastPlan) (c : Cursor) : List (Nat × Nat) :=
  match h : p.next? c with
  | none => []
  | some (pair, c') =>
    have := given_of_next? h
    pair :: p.pairsFrom c'
termination_by p.shape.size - c.given

/-- The pairs of flat positions that meet, in the order of the joint shape. -/
def pairs (p : BroadcastPlan) : List (Nat × Nat) := p.pairsFrom p.start

theorem length_pairsFrom (p : BroadcastPlan) (c : Cursor) :
    (p.pairsFrom c).length = p.shape.size - c.given := by
  fun_induction pairsFrom p c with
  | case1 c h =>
    unfold next? at h
    split at h
    · exact (Nat.sub_eq_zero_of_le ‹_›).symm
    · cases h
  | case2 c pair c' h hgiven ih =>
    rw [List.length_cons, ih]
    omega

/-- A plan yields one pair for each element of its shape. -/
theorem length_pairs (p : BroadcastPlan) : p.pairs.length = p.shape.size :=
  p.length_pairsFrom p.start

end BroadcastPlan

end Formulary
