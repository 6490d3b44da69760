import Formulary.Callable.Arguments
import Formulary.Term.Evaluation

/-!
Callables: what an entry runs.

A callable is a function given from outside, a definition compiled against the entries it applies,
or a callable whose results are rescaled. A definition holds the entries themselves, each with the
handle under which it was registered: replacing an entry in a registry does not change what was
compiled before. The one thing that later steps can do to a handle is to retire it; the stamps of
retired entries are part of the context of a call.
-/

namespace Formulary

/-- The identity of a registered entry. -/
abbrev Stamp := Nat

/-- What a call needs besides its arguments: the value for missing results, and the stamps of the
retired entries. -/
structure CallContext where
  fill : Float
  retired : List Stamp

/-- A numeric function given from outside. It is taken to depend on nothing but its arguments and the
fill value: that it holds no entry of a registry and keeps no state between calls is an assumption on
what is given, which cannot be looked into. Results on deletion, on defaults and on calls with arrays
rest on it: a function that held an entry could fail once this is retired, and one that kept a count
could answer the same call differently. -/
structure HostFunction where
  /-- How the function is called when it is given the wrong number of arguments. -/
  callee : String
  params : List String
  defaults : NameMap NdArray
  /-- The result for one array per parameter, given the value for missing results. -/
  run : Float → List NdArray → Except Fault NdArray

/-- A compiled expression with its parameters. -/
structure Definition where
  name : String
  expression : Term
  params : List String
  defaults : NameMap NdArray

/-- An entry as a definition refers to it. -/
structure Handle where
  name : String
  stamp : Stamp
  fill : Float

/-- What an entry runs. -/
inductive Callable where
  | host (f : HostFunction)
  /-- A definition and the entries it applies. -/
  | compiled (definition : Definition) (entries : List (Handle × Callable))
  /-- Results multiplied by a factor. -/
  | rescaled (factor : Float) (inner : Callable)

namespace Handle

/-- A retired entry takes no calls. -/
def checkLive (h : Handle) (retired : List Stamp) : Except Fault Unit :=
  if retired.contains h.stamp then
    .error ((Fault.ofCause (.unknownSymbol h.name)).note
      ("'" ++ h.name ++ "' was deleted from the registry"))
  else .ok ()

/-- A call through a handle: the entry must be live, the arguments are bound, and the fill value of
the entry takes the place of NaN in the result. -/
def call (h : Handle) (retired : List Stamp) (bound : Except Fault (List NdArray))
    (run : CallContext → List NdArray → Except Fault NdArray) : Except Fault NdArray := do
  h.checkLive retired
  let result ← run ⟨h.fill, retired⟩ (← bound)
  pure (result.fillNaN h.fill)

end Handle

namespace Callable

/-- The parameters. -/
def params : Callable → List String
  | .host f => f.params
  | .compiled d _ => d.params
  | .rescaled _ c => params c

/-- The defaults of parameters. -/
def defaults : Callable → NameMap NdArray
  | .host f => f.defaults
  | .compiled d _ => d.defaults
  | .rescaled _ c => defaults c

/-- There is one argument per parameter. -/
def checkCount (callee : String) (params : List String) (args : List NdArray) : Except Fault Unit :=
  if args.length = params.length then .ok ()
  else .error (.ofCause (.argCount callee params.length args.length))

mutual

/-- The result for one array per parameter. -/
def run (context : CallContext) : Callable → List NdArray → Except Fault NdArray
  | .host f, args => do
    checkCount f.callee f.params args
    f.run context.fill args
  | .compiled d entries, args => do
    checkCount d.name d.params args
    d.expression.eval {
      owner := d.name
      parameter := fun x => (d.params.zip args).lookup x
      entry := fun name => runNamed context.retired entries name }
  | .rescaled factor inner, args => do
    let result ← run context inner args
    pure (result.map (· * factor))

/-- A call of the entry with the given name, if it is among the given ones. -/
def runNamed (retired : List Stamp) :
    List (Handle × Callable) → String → Option (List NdArray → Except Fault NdArray)
  | [], _ => none
  | (h, c) :: rest, name =>
    if h.name = name then
      some fun args =>
        h.call retired (Arguments.byPosition h.name c.params c.defaults args)
          (fun context bound => run context c bound)
    else runNamed retired rest name

end

end Callable

end Formulary
