import Formulary.Double.Decimal

/-!
Settings of a registry: the fill value of new entries, what happens to dependents when an entry is
replaced, and whether unknown symbols may become parameters.

Settings are read from variables. A value that cannot be read leaves the default in place.
-/

namespace Formulary

/-- What happens to the dependents of an entry that is replaced. -/
inductive RefreshPolicy where
  /-- They keep what they were compiled against until they are refreshed. -/
  | stale
  /-- They are compiled again in the same step. -/
  | eager
deriving DecidableEq, Repr

/-- A text without blanks at its ends, the ASCII capitals made small. -/
def plainWord (s : String) : String := String.ofList ((trim s.toList).map Char.toLower)

/-- The policy of a word. -/
def RefreshPolicy.ofText? (s : String) : Option RefreshPolicy :=
  match plainWord s with
  | "stale" => some .stale
  | "eager" => some .eager
  | _ => none

/-- The name of a policy. -/
def RefreshPolicy.name : RefreshPolicy → String
  | .stale => "Stale"
  | .eager => "Eager"

/-- The settings of a registry. -/
structure Settings where
  /-- What is shown in the place of NaN in the results of new entries; NaN leaves it. -/
  fill : Float := 0.0 / 0.0
  refresh : RefreshPolicy := .stale
  /-- Unknown symbols become parameters when a key lists no arguments. -/
  freeParameters : Bool := true

namespace Settings

instance : Inhabited Settings := ⟨{}⟩

/-- A switch: `1`, `true`, `yes` or `0`, `false`, `no`. -/
def readSwitch? (s : String) : Option Bool :=
  let word := plainWord s
  if ["1", "true", "yes"].contains word then some true
  else if ["0", "false", "no"].contains word then some false
  else none

/-- The settings that three optional texts give. -/
def ofTexts (fill refresh freeParameters : Option String) : Settings where
  fill := (fill.bind fun s => Double.ofText? (trim s.toList)).getD (0.0 / 0.0)
  refresh := (refresh.bind RefreshPolicy.ofText?).getD .stale
  freeParameters := (freeParameters.bind readSwitch?).getD true

/-- The variable that sets the fill value. -/
def fillVariable : String := "KAMODO_FILL_VALUE"

/-- The variable that sets the refresh policy. -/
def refreshVariable : String := "KAMODO_REFRESH"

/-- The variable that allows free parameters. -/
def freeParametersVariable : String := "KAMODO_FREE_PARAMETERS"

/-- The settings of an environment of variables. -/
def ofVariables (lookup : String → Option String) : Settings :=
  ofTexts (lookup fillVariable) (lookup refreshVariable) (lookup freeParametersVariable)

end Settings

end Formulary
