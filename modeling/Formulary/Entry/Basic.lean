import Formulary.Callable.Annotated
import Formulary.Key
import Formulary.Term.Text

/-!
Entries: the records of a registry.

An entry is primitive, backed by a function, or derived, defined by an expression over other
entries. It keeps what it was registered from (the key and the source), what that was turned into
(symbol, expression, callable, unit, dependencies), and a snapshot of its result at the defaults.
-/

namespace Formulary

/-- A name and its parameters. -/
structure Signature where
  name : String
  params : List String
deriving DecidableEq, Repr

namespace Signature

/-- `rho(x, y)`. -/
def text (s : Signature) : String := s.name ++ "(" ++ joinWith ", " s.params ++ ")"

/-- `rho(x,y)`, the other key of the entry. -/
def lookupKey (s : Signature) : String := s.name ++ "(" ++ joinWith "," s.params ++ ")"

/-- The parameters that are not hidden. -/
def visibleParams (s : Signature) (hidden : List String) : List String :=
  s.params.filter fun p => !hidden.contains p

/-- `rho(x, y)` without the hidden parameters. -/
def visibleText (s : Signature) (hidden : List String) : String :=
  s.name ++ "(" ++ joinWith ", " (s.visibleParams hidden) ++ ")"

end Signature

/-- What a name is bound to. -/
inductive Source where
  | expression (text : String)
  | function (f : Annotated)

/-- The record of a registered function. -/
structure Entry where
  /-- The identity of the entry. -/
  stamp : Stamp
  signature : Signature
  /-- The canonical expression of a derived entry. -/
  expression : Option Term
  callable : Callable
  about : Metadata
  /-- The result at the defaults, when the entry was made or last refreshed. -/
  data : Option NdArray
  /-- What takes the place of NaN in results. -/
  fill : Float
  unit : Option PhysicalUnit
  /-- The names of the entries referred to. -/
  dependencies : List String
  key : Key
  source : Source

namespace Entry

/-- The bare name. -/
def name (e : Entry) : String := e.signature.name

/-- The parameters. -/
def params (e : Entry) : List String := e.signature.params

/-- The defaults of parameters. -/
def defaults (e : Entry) : NameMap NdArray := e.callable.defaults

/-- The entry as others refer to it. -/
def handle (e : Entry) : Handle := ⟨e.name, e.stamp, e.fill⟩

/-- The entry is defined by an expression. -/
def isDerived (e : Entry) : Bool := e.expression.isSome

/-- The canonical expression as text. -/
def rhs (e : Entry) : Option String := e.expression.map Term.text

/-- The units as displayed. -/
def units (e : Entry) : Option String := e.about.units

/-- The entry was removed by a forced delete. -/
def isRetired (e : Entry) (retired : List Stamp) : Bool := retired.contains e.stamp

/-- A call with arguments by position. -/
def call (e : Entry) (retired : List Stamp) (args : List NdArray) : Except Fault NdArray :=
  e.handle.call retired (Arguments.byPosition e.name e.params e.defaults args)
    fun context bound => e.callable.run context bound

/-- A call with arguments by name. -/
def callNamed (e : Entry) (retired : List Stamp) (given : NameMap NdArray) :
    Except Fault NdArray :=
  e.handle.call retired (Arguments.byName e.name e.params e.defaults given)
    fun context bound => e.callable.run context bound

/-- The result at the defaults, if every parameter has one and the call succeeds. -/
def atDefaults (e : Entry) (retired : List Stamp) : Option NdArray :=
  if Arguments.allDefaulted e.params e.defaults then (e.call retired []).toOption else none

/-- The entry with its snapshot taken anew. -/
def withSnapshot (e : Entry) (retired : List Stamp) : Entry :=
  { e with data := e.atDefaults retired }

/-- The entry as shown to a programmer. -/
def shown (e : Entry) (retired : List Stamp) : String :=
  Quoted.record "Entry" [
    ("symbol", Quoted.string e.signature.text),
    ("kind", if e.isDerived then "Derived" else "Primitive"),
    ("rhs", Quoted.option (e.rhs.map Quoted.string)),
    ("units", Quoted.option (e.units.map Quoted.string)),
    ("dependencies", Quoted.list (e.dependencies.map Quoted.string)),
    ("data", Annotated.shownShape e.data),
    ("retired", if e.isRetired retired then "true" else "false")]

end Entry

end Formulary
