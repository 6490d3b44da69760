import Formulary.Term.Layout
import Formulary.Text.Cut

/-!
The text of a term, as an expression is written: `4*pi*(x**2 + y**2)**(3/2)/3`.

Each layout has a binding strength. A part that binds looser than its place requires is put in
parentheses.
-/

namespace Formulary

/-- How tightly a layout binds when it is printed. -/
inductive Binding where
  | sum
  | product
  | power
  | atom
deriving DecidableEq, Repr

namespace Binding

/-- The order of binding, loosest first. -/
def rank : Binding → Nat
  | sum => 0
  | product => 1
  | power => 2
  | atom => 3

end Binding

namespace Layout

/-- The binding strength in text. A number with a sign or a slash binds like a product, and so does
a reciprocal; a square root is a call. -/
def binding : Layout → Binding
  | .sum _ => .sum
  | .product .. => .product
  | .number q => if q < 0 || q.den != 1 then .product else .atom
  | .reciprocal _ => .product
  | .power .. => .power
  | .sqrt _ | .constant _ | .name _ | .builtin .. | .apply .. => .atom

/-- The text in parentheses, if it binds looser than required. -/
def enclose (l : Layout) (required : Binding) (text : String) : String :=
  if l.binding.rank < required.rank then "(" ++ text ++ ")" else text

/-- An exponent: a natural number plain, any other number in parentheses, another term in
parentheses unless it is an atom. -/
def encloseExponent (l : Layout) (text : String) : String :=
  match l with
  | .number q => if q.den = 1 && !(q < 0) then text else "(" ++ text ++ ")"
  | l => l.enclose .atom text

/-- A product from the texts of its factors: the coefficient in front, a bar of one `/`. -/
def productText (negative : Bool) (top bottom : Nat) (above below : List String) : String :=
  let above := if top != 1 || above.isEmpty then toString top :: above else above
  let below := if bottom != 1 then toString bottom :: below else below
  (if negative then "-" else "") ++ joinWith "*" above ++
    match below with
    | [] => ""
    | [b] => "/" ++ b
    | bs => "/(" ++ joinWith "*" bs ++ ")"

mutual

/-- The text of a layout. -/
def text : Layout → String
  | .number q => Exact.text q
  | .constant c => c.name
  | .name x => x
  | .builtin f args => f.name ++ "(" ++ joinWith ", " (texts args) ++ ")"
  | .apply x args => x ++ "(" ++ joinWith ", " (texts args) ++ ")"
  | .sum terms => sumText true terms
  | .product negative top bottom above below =>
    productText negative top bottom (enclosedTexts .product above) (enclosedTexts .power below)
  | .sqrt r => "sqrt(" ++ text r ++ ")"
  | .reciprocal d => "1/" ++ d.enclose .power (text d)
  | .power b e => b.enclose .atom (text b) ++ "**" ++ e.encloseExponent (text e)

/-- The texts of several layouts. -/
def texts : List Layout → List String
  | [] => []
  | l :: ls => text l :: texts ls

/-- The texts of several layouts, enclosed where they bind looser than required. -/
def enclosedTexts (required : Binding) : List Layout → List String
  | [] => []
  | l :: ls => l.enclose required (text l) :: enclosedTexts required ls

/-- Terms with their signs between them. -/
def sumText (first : Bool) : List (Bool × Layout) → String
  | [] => ""
  | (subtracted, l) :: rest =>
    (if first then "" else if subtracted then " - " else " + ") ++ text l ++ sumText false rest

end

end Layout

/-- The text of a term. -/
def Term.text (t : Term) : String := t.layout.text

end Formulary
