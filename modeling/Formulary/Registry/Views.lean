import Formulary.Registry.Basic
import Formulary.Term.Latex

/-!
What a registry shows of itself: equations in LaTeX, a table of its entries, a summary of one entry,
and evaluated traces to plot.

Signatures leave out hidden arguments. The equation of an entry that is not derived has the equation
that its function states on the right, or else a placeholder.
-/

namespace Formulary

/-- A row of the table of entries. -/
structure DetailRow where
  /-- The bare name. -/
  lhs : String
  /-- The canonical expression of a derived entry. -/
  rhs : Option String
  /-- The signature without hidden arguments. -/
  symbol : String
  units : Option String
deriving DecidableEq, Repr

namespace DetailRow

/-- The row in a table of bars. -/
def text (row : DetailRow) : String :=
  "| " ++ row.lhs ++ " | " ++ row.rhs.getD "" ++ " | " ++ row.symbol ++ " | " ++
    row.units.getD "" ++ " |\n"

/-- A table of bars with a heading. -/
def table (rows : List DetailRow) : String :=
  "| lhs | rhs | symbol | units |\n" ++ "|-----|-----|--------|-------|\n" ++
    joinWith "" (rows.map text)

end DetailRow

/-- An entry evaluated for a plot. -/
structure Trace where
  name : String
  signature : String
  units : Option String
  /-- The equation of the entry. -/
  title : String
  /-- The arguments used, given or default. -/
  args : NameMap NdArray
  result : NdArray

namespace Entry

/-- The signature without hidden arguments. -/
def visibleSignature (e : Entry) : String := e.signature.visibleText e.about.hidden

/-- The kind of the entry. -/
def kind (e : Entry) : String := if e.isDerived then "derived" else "primitive"

/-- The arguments that are not hidden, in LaTeX. -/
def latexArgs (e : Entry) : List String := (e.signature.visibleParams e.about.hidden).map Latex.name

/-- The left-hand side of the equation. -/
def latexLhs (e : Entry) : String :=
  (if e.params.isEmpty then Latex.name e.name else Latex.call e.name e.latexArgs) ++
    match e.units with
    | some u => " [" ++ u ++ "]"
    | none => ""

/-- The right-hand side of the equation. -/
def latexRhs (e : Entry) : String :=
  match e.expression with
  | some t => t.latex
  | none => e.about.equation.getD (Latex.call "lambda" e.latexArgs)

/-- The equation of the entry. -/
def latex (e : Entry) : String :=
  "\\begin\x7bequation\x7d" ++ e.latexLhs ++ " = " ++ e.latexRhs ++ "\\end\x7bequation\x7d"

/-- The row of the entry. -/
def detail (e : Entry) : DetailRow := ⟨e.name, e.rhs, e.visibleSignature, e.units⟩

/-- The entry evaluated for arguments by name. -/
def trace (e : Entry) (retired : List Stamp) (given : NameMap NdArray) : Except Fault Trace := do
  let bound ← Arguments.byName e.name e.params e.defaults given
  let result ← e.call retired bound
  pure {
    name := e.name
    signature := e.visibleSignature
    units := e.units
    title := e.latex
    args := .ofList (e.params.zip bound)
    result }

end Entry

namespace Registry

/-- The entries, in order. -/
def entryList (r : Registry) : List Entry := r.entries.toList.map Prod.snd

/-- The equations of the entries. -/
def latex (r : Registry) : List String := r.entryList.map Entry.latex

/-- The equations of the entries, one a line. -/
def text (r : Registry) : String := joinWith "\n" r.latex

/-- The table of entries. -/
def detail (r : Registry) : List DetailRow := r.entryList.map Entry.detail

/-- The entries asked for, each evaluated for the arguments given with it. -/
def figure (r : Registry) (requests : NameMap (NameMap NdArray)) : Except Fault (List Trace) :=
  requests.toList.mapM fun (key, given) => do
    (← r.get key).trace r.stamps.retired given

/-- The registry as shown to a programmer. -/
def shown (r : Registry) : String :=
  Quoted.set (r.entries.toList.map fun (name, e) =>
    Quoted.string name ++ ": " ++ Quoted.string e.signature.text)

end Registry

end Formulary
