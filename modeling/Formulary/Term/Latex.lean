import Formulary.Term.Text

/-!
The LaTeX of names and terms.

Greek letters become commands, and what follows an underscore a subscript. Calls are set as
`f{\left(x,y \right)}`, quotients as fractions. Factors below a bar need no parentheses beyond those
of a product; a call under a power is enclosed.
-/

namespace Formulary

namespace Latex

/-- The names that are Greek letters. -/
def greekLetters : List String := [
  "alpha", "beta", "gamma", "delta", "epsilon", "varepsilon", "zeta", "eta", "theta",
  "vartheta", "iota", "kappa", "lambda", "mu", "nu", "xi", "pi", "varpi", "rho", "varrho",
  "sigma", "varsigma", "tau", "upsilon", "phi", "varphi", "chi", "psi", "omega",
  "Gamma", "Delta", "Theta", "Lambda", "Xi", "Pi", "Sigma", "Upsilon", "Phi", "Psi", "Omega"]

/-- Text in braces. -/
def braces (s : String) : String := "\x7b" ++ s ++ "\x7d"

/-- A command applied to an argument. -/
def command (name arg : String) : String := "\\" ++ name ++ braces arg

/-- A fraction. -/
def fraction (above below : String) : String := "\\frac" ++ braces above ++ braces below

/-- Arguments of a call, between growing parentheses. -/
def arguments (args : List String) : String :=
  braces ("\\left(" ++ joinWith "," args ++ " \\right)")

/-- A letter or word: a command if it is Greek. -/
def letter (s : String) : String := if greekLetters.contains s then "\\" ++ s else s

/-- The head and the subscript of a name, cut at the first underscore, when neither is empty. -/
def cutSubscript? (s : List Char) : Option (List Char × List Char) :=
  (cutOnce '_' s).filter fun (head, sub) => !head.isEmpty && !sub.isEmpty

/-- A name: its head, and the rest as a subscript. -/
def nameChars (s : List Char) : String :=
  match _h : cutSubscript? s with
  | some (head, sub) => letter (String.ofList head) ++ "_" ++ braces (nameChars sub)
  | none => letter (String.ofList s)
termination_by s.length
decreasing_by
  simp only [cutSubscript?, Option.filter_eq_some_iff] at _h
  exact length_of_cutOnce _h.1

/-- The LaTeX of a name. -/
def name (s : String) : String := nameChars s.toList

/-- The name of a function in call position: a word that is not Greek is an operator name. -/
def functionName (s : String) : String :=
  let base := s.toList.takeWhile (· != '_')
  if 1 < base.length && !greekLetters.contains (String.ofList base) then
    command "operatorname" (name s)
  else name s

/-- A call. -/
def call (function : String) (args : List String) : String :=
  functionName function ++ arguments args

/-- A number: an integer plain, else a fraction with its sign in front. -/
def number (q : Rat) : String :=
  if q.den = 1 then Exact.text q
  else (if q < 0 then "- " else "") ++ fraction (toString q.num.natAbs) (toString q.den)

/-- A built-in function of arguments. -/
def builtin (f : Builtin) (args : List String) : String :=
  match f with
  | .exp => "e^" ++ braces (joinWith "," args)
  | .abs => "\\left|" ++ joinWith "," args ++ "\\right|"
  | .log10 => "\\log_" ++ braces "10" ++ arguments args
  | .atan2 => command "operatorname" ("atan_" ++ braces "2") ++ arguments args
  | .asin | .acos | .atan => command "operatorname" f.name ++ arguments args
  | _ => "\\" ++ f.name ++ arguments args

/-- The binding strength in LaTeX. -/
def binding : Layout → Binding
  | .sum _ => .sum
  | .product .. => .product
  | .number q => if q < 0 || q.den != 1 then .product else .atom
  | .sqrt _ | .reciprocal _ | .power .. | .builtin .. | .apply .. => .power
  | .constant _ | .name _ => .atom

/-- The LaTeX in parentheses, if it binds looser than required. -/
def enclose (l : Layout) (required : Binding) (text : String) : String :=
  if (binding l).rank < required.rank then "\\left(" ++ text ++ "\\right)" else text

/-- An exponent: a fraction without sign handling for a rational, else the term. -/
def exponent (l : Layout) (text : String) : String :=
  match l with
  | .number q => if q.den = 1 then text else fraction (toString q.num) (toString q.den)
  | _ => text

/-- A product from the LaTeX of its factors: a fraction if anything stands below the bar. -/
def product (negative : Bool) (top bottom : Nat) (above below : List String) : String :=
  let above := if top != 1 || above.isEmpty then toString top :: above else above
  let below := if bottom != 1 then toString bottom :: below else below
  (if negative then "- " else "") ++
    if below.isEmpty then joinWith " " above
    else fraction (joinWith " " above) (joinWith " " below)

/-- The LaTeX of a constant. -/
def constant : Constant → String
  | .pi => "\\pi"
  | .e => "e"

end Latex

namespace Layout

mutual

/-- The LaTeX of a layout. -/
def latex : Layout → String
  | .number q => Latex.number q
  | .constant c => Latex.constant c
  | .name x => Latex.name x
  | .builtin f args => Latex.builtin f (latexAll args)
  | .apply x args => Latex.call x (latexAll args)
  | .sum terms => latexSum true terms
  | .product negative top bottom above below =>
    Latex.product negative top bottom (latexFactors above) (latexFactors below)
  | .sqrt r => Latex.command "sqrt" (latex r)
  | .reciprocal d => Latex.fraction "1" (latex d)
  | .power b e =>
    Latex.enclose b .atom (latex b) ++ "^" ++ Latex.braces (Latex.exponent e (latex e))

/-- The LaTeX of several layouts. -/
def latexAll : List Layout → List String
  | [] => []
  | l :: ls => latex l :: latexAll ls

/-- The LaTeX of factors, enclosed where they bind looser than a product. -/
def latexFactors : List Layout → List String
  | [] => []
  | l :: ls => Latex.enclose l .product (latex l) :: latexFactors ls

/-- Terms with their signs between them. -/
def latexSum (first : Bool) : List (Bool × Layout) → String
  | [] => ""
  | (subtracted, l) :: rest =>
    (if first then "" else if subtracted then " - " else " + ") ++ latex l ++ latexSum false rest

end

end Layout

/-- The LaTeX of a term. -/
def Term.latex (t : Term) : String := t.layout.latex

end Formulary
