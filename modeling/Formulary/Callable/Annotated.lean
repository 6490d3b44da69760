import Formulary.Callable.Basic
import Formulary.Text.Quoted

/-!
Callables with metadata: a unit, a citation, a displayed equation, arguments that are not shown, and
the result at the defaults if every parameter has one.
-/

namespace Formulary

/-- What is known about a function besides what it computes. -/
structure Metadata where
  /-- The unit annotation as written. -/
  units : Option String := none
  citation : Option String := none
  /-- The right-hand side shown in LaTeX. -/
  equation : Option String := none
  /-- The arguments left out of displayed signatures, sorted. -/
  hidden : List String := []
deriving DecidableEq, Repr, Inhabited

/-- Names sorted, each once. -/
def sortedNames (names : List String) : List String := names.eraseDups.mergeSort fun a b => a ≤ b

/-- The metadata as shown to a programmer. -/
def Metadata.shown (m : Metadata) : String :=
  Quoted.record "Meta" [
    ("units", Quoted.option (m.units.map Quoted.string)),
    ("citation", Quoted.option (m.citation.map Quoted.string)),
    ("equation", Quoted.option (m.equation.map Quoted.string)),
    ("hidden_args", Quoted.set (m.hidden.map Quoted.string))]

/-- A callable with metadata and its result at the defaults. -/
structure Annotated where
  callable : Callable
  about : Metadata
  data : Option NdArray

namespace Annotated

/-- How an annotated function is called in faults. -/
def callee : String := "function"

/-- The result of a callable at its defaults, if every parameter has one and the call succeeds. -/
def snapshot (callable : Callable) (retired : List Stamp) : Option NdArray :=
  if Arguments.allDefaulted callable.params callable.defaults then
    let result := do
      let bound ← Arguments.byPosition callee callable.params callable.defaults []
      callable.run ⟨0.0 / 0.0, retired⟩ bound
    result.toOption
  else none

/-- Annotates a callable; its result at the defaults is computed here, once. -/
def make (callable : Callable) (about : Metadata) (retired : List Stamp) : Annotated :=
  ⟨callable, about, snapshot callable retired⟩

/-- A call with arguments by position. -/
def call (f : Annotated) (context : CallContext) (args : List NdArray) : Except Fault NdArray := do
  f.callable.run context (← Arguments.byPosition callee f.callable.params f.callable.defaults args)

/-- A call with arguments by name. -/
def callNamed (f : Annotated) (context : CallContext) (given : NameMap NdArray) :
    Except Fault NdArray := do
  f.callable.run context (← Arguments.byName callee f.callable.params f.callable.defaults given)

/-- The shape of data that may be absent, as shown to a programmer. -/
def shownShape (data : Option NdArray) : String := Quoted.option (data.map fun a => a.shape.text)

/-- The function as shown to a programmer. -/
def shown (f : Annotated) : String :=
  Quoted.record "Kamodofied" [
    ("params", Quoted.list (f.callable.params.map Quoted.string)),
    ("meta", f.about.shown),
    ("data", shownShape f.data)]

end Annotated

end Formulary
