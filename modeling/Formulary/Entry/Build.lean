import Formulary.Entry.Resolution
import Formulary.Expr.Reader
import Formulary.Settings

/-!
Building entries from a key and a source.

An expression is read and resolved; its result is converted to the unit that the key declares, if
both have one. A function keeps its parameters, which a key that lists arguments must repeat; its
results are rescaled from its own unit to the declared one.
-/

namespace Formulary

/-- What building an entry needs besides key and source. -/
structure BuildContext where
  entries : NameMap Entry
  freeParameters : Bool
  /-- The fill value of the new entry. -/
  fill : Float
  /-- The identity of the new entry. -/
  stamp : Stamp
  retired : List Stamp

namespace Entry

/-- A name that is a constant or a built-in function cannot be defined. -/
def checkReserved (key : Key) : Except Fault Unit :=
  if (Constant.ofName? key.name).isSome || Builtin.names.contains key.name then
    .error (.ofCause (.malformedKey key.text ("'" ++ key.name ++ "' is a built-in name")))
  else .ok ()

/-- The expression in the declared unit, the unit and its displayed text. Without a declared unit
the inferred one is displayed, unless its symbol is empty. -/
def applyDeclaredUnit (key : Key) (q : Quantity) :
    Except Fault (Term × Option PhysicalUnit × Option String) :=
  match key.unit, q.unit with
  | some declared, some inferred =>
    match inferred.factorTo declared with
    | .ok factor => .ok (Quantity.rescale factor q.term, some declared, key.units)
    | .error e =>
      .error (e.fault.note
        ("expression has units " ++ inferred.shownSymbol ++ ", key declares " ++ declared.symbol))
  | some declared, none => .ok (q.term, some declared, key.units)
  | none, some inferred =>
    .ok (q.term, some inferred, if inferred.symbol = "" then none else some inferred.symbol)
  | none, none => .ok (q.term, none, none)

/-- The defaults that belong to the given parameters, in their order. -/
def defaultsOf (params : List String) (found : NameMap NdArray) : NameMap NdArray :=
  .ofList (params.filterMap fun p => (found.get? p).map (p, ·))

/-- The entry of an expression. -/
def derive (context : BuildContext) (key : Key) (text : String) : Except Fault Entry := do
  checkReserved key
  let e ← Expr.read text
  let scope : Scope := ⟨key.name, key.args, context.entries, context.freeParameters⟩
  let (quantity, found) ← ((scope.resolve e).run {}).mapError (·.inExpression text)
  let params := key.args.getD found.params
  let (term, unit, units) ← applyDeclaredUnit key quantity
  let definition : Definition := ⟨key.name, term, params, defaultsOf params found.defaults⟩
  let entry : Entry := {
    stamp := context.stamp
    signature := ⟨key.name, params⟩
    expression := some term
    callable := .compiled definition (found.applied.toList.map fun (_, d) => (d.handle, d.callable))
    about := { units }
    data := none
    fill := context.fill
    unit
    dependencies := found.applied.names
    key
    source := .expression text }
  pure (entry.withSnapshot context.retired)

/-- A key that lists arguments repeats the parameters of the function. -/
def checkParams (key : Key) (params : List String) : Except Fault Unit :=
  match key.args with
  | none => .ok ()
  | some args =>
    if args = params then .ok ()
    else
      .error (.ofCause (.malformedKey key.text
        ("arguments (" ++ joinWith ", " args ++ ") do not match the function's parameters (" ++
          joinWith ", " params ++ ")")))

/-- Hidden arguments are parameters of the function. -/
def checkHidden (key : Key) (hidden params : List String) : Except Fault Unit :=
  match hidden.find? fun h => !params.contains h with
  | none => .ok ()
  | some h =>
    .error (.ofCause (.malformedKey key.text ("hidden argument '" ++ h ++ "' is not a parameter")))

/-- The unit that a function states for its results. -/
def nativeUnit (about : Metadata) : Except Fault (Option PhysicalUnit) :=
  match about.units with
  | none => .ok none
  | some text => (Quantity.lift (PhysicalUnit.read text.toList)).map some

/-- The factor from the function's own unit to the declared one, when both are known and it is not
one. -/
def declaredFactor (declared native : Option PhysicalUnit) : Except Fault (Option Rat) :=
  match declared, native with
  | some d, some n => (Quantity.lift (n.factorTo d)).map fun q => if q = 1 then none else some q
  | _, _ => .ok none

/-- The entry of a function. -/
def wrap (context : BuildContext) (key : Key) (f : Annotated) : Except Fault Entry := do
  checkReserved key
  let params := f.callable.params
  checkParams key params
  checkHidden key f.about.hidden params
  let native ← nativeUnit f.about
  let factor := (← declaredFactor key.unit native).map Double.ofRat
  let callable :=
    match factor with
    | some x => .rescaled x f.callable
    | none => f.callable
  let data := f.data.map fun a =>
    match factor with
    | some x => a.map (· * x)
    | none => a
  pure {
    stamp := context.stamp
    signature := ⟨key.name, params⟩
    expression := none
    callable
    about := { f.about with units := if key.unit.isSome then key.units else f.about.units }
    data := data.map (·.fillNaN context.fill)
    fill := context.fill
    unit := key.unit.or native
    dependencies := []
    key
    source := .function f }

/-- The entry of a key and a source. -/
def build (context : BuildContext) (key : Key) : Source → Except Fault Entry
  | .expression text => derive context key text
  | .function f => wrap context key f

end Entry

end Formulary
