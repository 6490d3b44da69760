import Formulary.Callable.Annotated
import Formulary.Expr.Basic
import Formulary.Json.Fields
import Formulary.PhysicalUnit.Basic
import Formulary.Settings

/-!
The JSON records of domain values: exact numbers, arrays, metadata, units, expressions, faults and
settings.

Exact numbers are strings. Optional texts that are absent, and empty lists of hidden arguments or of
notes, are left out when written. The record of an array is what was written: whether the data fill
the shape is checked only when an array is made of it. A constructor is an object with its name as
the only member.
-/

namespace Formulary.Json

/-! ## Numbers and arrays -/

/-- An exact number. -/
def ofRat (q : Rat) : Json := .str (Exact.text q)

/-- Reads an exact number. -/
def rat? (j : Json) : Option Rat := do (Exact.read (← j.text?).toList).toOption

/-- The record of an array: a shape, and data that may not fill it. -/
structure ArrayRecord where
  shape : List Nat
  data : List Float

namespace ArrayRecord

/-- The record of an array. -/
def ofArray (a : NdArray) : ArrayRecord := ⟨a.shape, a.data.toList⟩

/-- The array of a record. -/
def toArray (r : ArrayRecord) : Except ShapeError NdArray :=
  NdArray.make r.data.toArray r.shape

/-- Writes a record. -/
def toJson (r : ArrayRecord) : Json :=
  .obj [("data", ofList .float r.data), ("shape", ofList ofNat r.shape)]

/-- Reads a record. -/
def read? (j : Json) : Option ArrayRecord := do
  let f ← Fields.of? ["shape", "data"] j
  pure ⟨← f.required? "shape" (list? nat?), ← f.required? "data" (list? float?)⟩

end ArrayRecord

/-! ## Metadata and units -/

/-- The members of optional texts: those that are there. -/
def presentTexts (fields : List (String × Option String)) : List (String × Json) :=
  fields.filterMap fun (name, value) => value.map fun s => (name, .str s)

/-- The member of a list of texts, unless it is empty. -/
def nonemptyTexts (name : String) (items : List String) : List (String × Json) :=
  if items.isEmpty then [] else [(name, ofList .str items)]

/-- Writes metadata. -/
def ofMetadata (m : Metadata) : Json :=
  .obj (presentTexts [("citation", m.citation), ("equation", m.equation)] ++
    nonemptyTexts "hidden_args" m.hidden ++ presentTexts [("units", m.units)])

/-- Reads metadata. -/
def metadata? (j : Json) : Option Metadata := do
  let f ← Fields.of? ["units", "citation", "equation", "hidden_args"] j
  pure {
    units := ← f.optional? "units" text?
    citation := ← f.optional? "citation" text?
    equation := ← f.optional? "equation" text?
    hidden := sortedNames (← f.defaulted? "hidden_args" [] (list? text?)) }

/-- An exponent of a dimension. -/
def exponent? (j : Json) : Option Int := j.int?.filter Exact.fitsInt32

/-- Writes a dimension. -/
def ofDimension (d : Dimension) : Json := .obj [("exponents", ofList .int d.exponents.toList)]

/-- Reads a dimension. -/
def dimension? (j : Json) : Option Dimension := do
  let f ← Fields.of? ["exponents"] j
  match ← f.required? "exponents" (list? exponent?) with
  | [a, b, c, d, e, g, h] => some ⟨#v[a, b, c, d, e, g, h]⟩
  | _ => none

/-- Writes a unit. -/
def ofUnit (u : PhysicalUnit) : Json :=
  .obj [("dimension", ofDimension u.dimension), ("name", .str u.name), ("scale", ofRat u.scale),
    ("symbol", .str u.symbol)]

/-- Reads a unit. -/
def unit? (j : Json) : Option PhysicalUnit := do
  let f ← Fields.of? ["symbol", "name", "dimension", "scale"] j
  pure {
    symbol := ← f.required? "symbol" text?
    name := ← f.required? "name" text?
    dimension := ← f.required? "dimension" dimension?
    scale := ← f.required? "scale" rat? }

/-! ## Expressions -/

/-- The constructor without arguments of the given name: the name alone, or its only member is
null. -/
def constructor? : Json → Option String
  | .str s => some s
  | .obj [(s, .null)] => some s
  | _ => none

/-- The name of an operation. -/
def operationName : BinaryOp → String
  | .add => "Add"
  | .sub => "Sub"
  | .mul => "Mul"
  | .div => "Div"
  | .pow => "Pow"

/-- Reads an operation. -/
def operation? (j : Json) : Option BinaryOp := do
  let name ← j.constructor?
  [BinaryOp.add, .sub, .mul, .div, .pow].find? fun op => operationName op = name

mutual

/-- Writes an expression. -/
def ofExpr : Expr → Json
  | .number q => .obj [("Number", ofRat q)]
  | .symbol name => .obj [("Symbol", .str name)]
  | .binary op l r => .obj [("BinaryOp", .arr [ofExpr l, .str (operationName op), ofExpr r])]
  | .neg e => .obj [("UnaryOp", .arr [.str "Neg", ofExpr e])]
  | .call name args => .obj [("Call", .arr [.str name, .arr (ofExprs args)])]

/-- Writes several expressions. -/
def ofExprs : List Expr → List Json
  | [] => []
  | e :: es => ofExpr e :: ofExprs es

end

mutual

/-- Reads an expression. -/
def expr? : Json → Option Expr
  | .obj [("Number", j)] => j.rat?.map .number
  | .obj [("Symbol", .str name)] => some (.symbol name)
  | .obj [("BinaryOp", .arr [l, op, r])] => do
    let l ← expr? l
    let op ← operation? op
    pure (.binary op l (← expr? r))
  | .obj [("UnaryOp", .arr [op, e])] => do
    guard (op.constructor? = some "Neg")
    pure (.neg (← expr? e))
  | .obj [("Call", .arr [.str name, .arr args])] => do pure (.call name (← exprs? args))
  | _ => none

/-- Reads several expressions. -/
def exprs? : List Json → Option (List Expr)
  | [] => some []
  | j :: r => do
    let e ← expr? j
    pure (e :: (← exprs? r))

end

/-! ## Faults and settings -/

/-- The members of a place. -/
def ofPlace (p : Place) : Json :=
  .obj (presentTexts [("expression", p.expression), ("key", p.key)] ++
    nonemptyTexts "notes" p.notes)

/-- Reads a place. -/
def place? (j : Json) : Option Place := do
  let f ← Fields.of? ["key", "expression", "notes"] j
  pure {
    key := ← f.optional? "key" text?
    expression := ← f.optional? "expression" text?
    notes := ← f.defaulted? "notes" [] (list? text?) }

/-- Writes a fault. -/
def ofFault (f : Fault) : Json :=
  .obj ([("code", .str f.code)] ++ (f.place.map fun p => ("context", ofPlace p)).toList ++
    [("message", .str f.message)] ++ presentTexts [("suggestion", f.suggestion?)])

/-- Reads a fault: its cause is stated outright. -/
def fault? (j : Json) : Option Fault := do
  let f ← Fields.of? ["code", "message", "suggestion", "context"] j
  let code ← f.required? "code" text?
  let message ← f.required? "message" text?
  pure {
    cause := .stated code message
    advice := ← f.optional? "suggestion" text?
    place := ← f.optional? "context" place? }

/-- Reads a policy. -/
def refreshPolicy? (j : Json) : Option RefreshPolicy :=
  match j.constructor? with
  | some "stale" => some .stale
  | some "eager" => some .eager
  | _ => none

/-- Reads settings; each has a default. -/
def settings? (j : Json) : Option Settings := do
  let f ← Fields.of? ["fill_value", "refresh", "free_parameters"] j
  let usual : Settings := {}
  pure {
    fill := ← f.defaulted? "fill_value" usual.fill float?
    refresh := ← f.defaulted? "refresh" usual.refresh refreshPolicy?
    freeParameters := ← f.defaulted? "free_parameters" usual.freeParameters bool? }

end Formulary.Json
