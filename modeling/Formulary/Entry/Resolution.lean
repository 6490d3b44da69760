import Formulary.Entry.Basic
import Formulary.Entry.Quantity
import Formulary.Expr.Basic
import Formulary.Similar

/-!
Resolving an expression against the entries of a registry.

Each symbol is classified, in this order: an argument that the key lists, the name being defined (a
fault), an entry, a constant, a free parameter. A bare entry stands for a call with its own
parameters. Each called name is an entry, the square root or a built-in function. On the way the
parameters are listed in the order of first use, the entries applied are recorded, and the default
of a parameter is the first one found among the entries it is handed to.
-/

namespace Formulary

/-- What an expression is resolved against. -/
structure Scope where
  /-- The name being defined. -/
  owner : String
  /-- The arguments that the key lists, if it does. -/
  declared : Option (List String)
  entries : NameMap Entry
  freeParameters : Bool

/-- What has been found so far. -/
structure Findings where
  /-- The parameters, in the order of first use. -/
  params : List String := []
  /-- The entries applied, in the order of first use. -/
  applied : NameMap Entry := .empty
  /-- The defaults of parameters. -/
  defaults : NameMap NdArray := .empty

/-- What a called name stands for. -/
inductive CallTarget where
  | entry (e : Entry)
  | sqrt
  | builtin (f : Builtin)

/-- A step of resolution: it adds to the findings, or fails. -/
abbrev Resolution := StateT Findings (Except Fault)

namespace Scope

/-- The key lists the name among its arguments. -/
def isDeclared (s : Scope) (name : String) : Bool := (s.declared.getD []).contains name

/-- The fault of a definition that refers to itself. -/
def selfReference (s : Scope) : Fault :=
  (Fault.ofCause (.cyclicDependency [s.owner, s.owner])).note
    ("'" ++ s.owner ++ "' refers to itself")

/-- The names that an unknown one is compared with. -/
def candidates (s : Scope) (inCall : Bool) : List String :=
  s.entries.names ++ if inCall then Builtin.names else ["pi", "E"] ++ s.declared.getD []

/-- The fault of a name that stands for nothing. -/
def unknown (s : Scope) (name : String) (inCall : Bool) : Fault :=
  let fault := Fault.ofCause (.unknownSymbol name)
  let fault :=
    match Similar.suggestion? name (Similar.find name (s.candidates inCall)) with
    | some text => fault.advise text
    | none => fault
  if inCall then fault
  else if s.declared.isSome then
    fault.note ("'" ++ name ++ "' is not among the declared arguments")
  else if !s.freeParameters then fault.note "free parameters are disabled"
  else fault

/-- Lists a parameter, if it is not listed yet. -/
def useParam (name : String) : Resolution Unit :=
  modify fun f => if f.params.contains name then f else { f with params := f.params ++ [name] }

/-- The first default of a parameter counts. -/
def offerDefault (e : Entry) (defaults : NameMap NdArray) : Term × String → NameMap NdArray
  | (.var x, param) =>
    match e.defaults.get? param with
    | some value => if defaults.contains x then defaults else defaults.insert x value
    | none => defaults
  | _ => defaults

/-- Records an application of an entry; the quantity has the unit of the entry. -/
def applyEntry (e : Entry) (args : List Term) : Resolution Quantity := do
  modify fun f => { f with
    defaults := (args.zip e.params).foldl (offerDefault e) f.defaults
    applied := if f.applied.contains e.name then f.applied else f.applied.insert e.name e }
  pure ⟨.apply e.name args, e.unit⟩

/-- A bare entry is a call with its own parameters, which a key that lists arguments must list. -/
def expandEntry (s : Scope) (e : Entry) : Resolution Quantity := do
  for p in e.params do
    if s.declared.isSome && !s.isDeclared p then
      throw ((Fault.ofCause (.unknownSymbol p)).note
        ("'" ++ e.signature.text ++ "' takes parameter '" ++ p ++
          "', which is not an argument of '" ++ s.owner ++ "'"))
    useParam p
  applyEntry e (e.params.map .var)

/-- A bare symbol. -/
def resolveSymbol (s : Scope) (name : String) : Resolution Quantity := do
  if s.isDeclared name then
    useParam name
    return .plain (.var name)
  if name = s.owner then throw s.selfReference
  match s.entries.get? name with
  | some e => s.expandEntry e
  | none =>
    match Constant.ofName? name with
    | some c => return .plain (.const c)
    | none =>
      if s.declared.isNone && s.freeParameters then
        useParam name
        return .plain (.var name)
      throw (s.unknown name false)

/-- An entry can be called with the given number of arguments: not more than it has parameters, and
those left out have defaults. -/
def checkEntryCall (e : Entry) (count : Nat) : Except Fault Unit :=
  if e.params.length < count then .error (.ofCause (.argCount e.name e.params.length count))
  else
    match (e.params.drop count).find? fun p => !e.defaults.contains p with
    | some p => .error (.ofCause (.missingArg e.name p))
    | none => .ok ()

/-- What a called name stands for, with the given number of arguments. -/
def callTarget (s : Scope) (name : String) (count : Nat) : Except Fault CallTarget :=
  if name = s.owner then .error s.selfReference
  else
    match if s.isDeclared name then none else s.entries.get? name with
    | some e => do
      checkEntryCall e count
      pure (.entry e)
    | none =>
      if name = "sqrt" then
        if count = 1 then .ok .sqrt else .error (.ofCause (.argCount "sqrt" 1 count))
      else
        match Builtin.ofName? name with
        | some f =>
          if count = f.arity then .ok (.builtin f)
          else .error (.ofCause (.argCount f.name f.arity count))
        | none => .error (s.unknown name true)

/-- A built-in function of quantities. The absolute value keeps the unit; the two arguments of
`atan2` share one; all others take plain numbers. -/
def applyBuiltin (f : Builtin) (args : List Quantity) : Except Fault Quantity :=
  match f, args with
  | .abs, [q] => .ok ⟨.func .abs [q.term], q.unit⟩
  | .atan2, [y, x] => do
    let (y, x, _) ← Quantity.unify .sub y x
    pure (.plain (.func .atan2 [y, x]))
  | f, [q] => do
    let t ← q.toPlain f.name
    pure (.plain (.func f [t]))
  | f, args => .error (.ofCause (.argCount f.name f.arity args.length))

/-- A call of what a name stands for. -/
def applyTarget (target : CallTarget) (args : List Quantity) : Resolution Quantity :=
  match target, args with
  | .entry e, args => applyEntry e (args.map Quantity.term)
  | .sqrt, [q] => liftM q.sqrt
  | .sqrt, args => throw (.ofCause (.argCount "sqrt" 1 args.length))
  | .builtin f, args => liftM (applyBuiltin f args)

/-- An operation on two quantities. -/
def applyBinary (op : BinaryOp) (l r : Quantity) : Except Fault Quantity :=
  match op with
  | .add => l.add r
  | .sub => l.sub r
  | .mul => l.mul r
  | .div => l.div r
  | .pow => l.pow r

mutual

/-- Resolves an expression. -/
def resolve (s : Scope) : Expr → Resolution Quantity
  | .number q => pure (.plain (.num q))
  | .symbol name => s.resolveSymbol name
  | .neg e => do return (← resolve s e).neg
  | .binary op l r => do
    let a ← resolve s l
    let b ← resolve s r
    liftM (applyBinary op a b)
  | .call name args => do
    let target ← liftM (s.callTarget name args.length)
    let quantities ← resolveAll s args
    applyTarget target quantities

/-- Resolves several expressions, from left to right. -/
def resolveAll (s : Scope) : List Expr → Resolution (List Quantity)
  | [] => pure []
  | e :: es => do return (← resolve s e) :: (← resolveAll s es)

end

end Scope

end Formulary
