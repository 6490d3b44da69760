import Formulary.Fault
import Formulary.NameMap
import Formulary.NdArray.Basic

/-!
Binding arguments to parameters: by position or by name, with defaults for those left out.
-/

namespace Formulary.Arguments

/-- The default of a parameter, which must have one. -/
def default (callee : String) (defaults : NameMap NdArray) (param : String) :
    Except Fault NdArray :=
  match defaults.get? param with
  | some value => .ok value
  | none => .error (.ofCause (.missingArg callee param))

/-- Arguments by position; trailing ones may be left out if they have defaults. -/
def byPosition (callee : String) (params : List String) (defaults : NameMap NdArray)
    (args : List NdArray) : Except Fault (List NdArray) :=
  if params.length < args.length then
    .error (.ofCause (.argCount callee params.length args.length))
  else return args ++ (← (params.drop args.length).mapM (default callee defaults))

/-- Arguments by name; the others have defaults. No name may be unknown. -/
def byName (callee : String) (params : List String) (defaults : NameMap NdArray)
    (given : NameMap NdArray) : Except Fault (List NdArray) :=
  match given.names.find? fun n => !params.contains n with
  | some extra => .error (.ofCause (.unexpectedArg callee extra params))
  | none =>
    params.mapM fun p =>
      match given.get? p with
      | some value => .ok value
      | none => default callee defaults p

/-- Every parameter has a default. -/
def allDefaulted (params : List String) (defaults : NameMap NdArray) : Bool :=
  params.all defaults.contains

end Formulary.Arguments
