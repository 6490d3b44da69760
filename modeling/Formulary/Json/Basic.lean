import Formulary.Double.Basic

/-!
JSON values.

Integers of 64 bits stay integers; every other number is a double. An object keeps its members in
the order read; of members with one name the last counts.
-/

namespace Formulary

/-- A JSON value. -/
inductive Json where
  | null
  | bool (b : Bool)
  | int (n : Int)
  | float (x : Float)
  | str (s : String)
  | arr (items : List Json)
  | obj (members : List (String × Json))

namespace Json

instance : Inhabited Json := ⟨.null⟩

/-- The value of a member of an object. -/
def member? (j : Json) (name : String) : Option Json :=
  match j with
  | .obj members => (members.reverse.find? fun p => p.1 == name).map Prod.snd
  | _ => none

/-- Members without the ones that a later one of the same name replaces. -/
def lastMembers : List (String × Json) → List (String × Json)
  | [] => []
  | (n, v) :: r => if r.any fun p => p.1 == n then lastMembers r else (n, v) :: lastMembers r

mutual

/-- The value with the members of each object sorted by name, each name once. -/
def canonical : Json → Json
  | .arr items => .arr (canonicalItems items)
  | .obj members => .obj ((lastMembers (canonicalMembers members)).mergeSort fun a b => a.1 ≤ b.1)
  | j => j

/-- The items, each with its members sorted. -/
def canonicalItems : List Json → List Json
  | [] => []
  | j :: r => canonical j :: canonicalItems r

/-- The members, each with the members of its value sorted. -/
def canonicalMembers : List (String × Json) → List (String × Json)
  | [] => []
  | (n, j) :: r => (n, canonical j) :: canonicalMembers r

end

/-! ## Values of one kind -/

/-- The value of an optional one, or null. -/
def ofOption {α : Type} (f : α → Json) : Option α → Json
  | some a => f a
  | none => .null

/-- The list of the values of several. -/
def ofList {α : Type} (f : α → Json) (l : List α) : Json := .arr (l.map f)

/-- A natural number. -/
def ofNat (n : Nat) : Json := .int n

/-- The text, if the value is one. -/
def text? : Json → Option String
  | .str s => some s
  | _ => none

/-- The truth value, if the value is one. -/
def bool? : Json → Option Bool
  | .bool b => some b
  | _ => none

/-- The integer, if the value is one. -/
def int? : Json → Option Int
  | .int n => some n
  | _ => none

/-- The natural number, if the value is one. -/
def nat? : Json → Option Nat
  | .int (.ofNat n) => some n
  | _ => none

/-- The number, if the value is one, an integer as the nearest double. -/
def float? : Json → Option Float
  | .int n => some (Double.ofRat n)
  | .float x => some x
  | _ => none

/-- The items, if the value is a list. -/
def items? : Json → Option (List Json)
  | .arr items => some items
  | _ => none

/-- The values of the items of a list. -/
def list? {α : Type} (read : Json → Option α) (j : Json) : Option (List α) := do
  (← j.items?).mapM read

end Json

end Formulary
