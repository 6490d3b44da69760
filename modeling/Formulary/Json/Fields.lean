import Formulary.Json.Reader

/-!
Records in JSON: an object gives the fields by name, a list in their order.

In an object members that are no fields are ignored, and an optional field may be left out. A list
may only end early before fields that have a default. A record read from text may give no field
twice, and what it ignores need only have the form of a value.
-/

namespace Formulary.Json

/-- The fields of a record. -/
structure Fields where
  members : List (String × Json)
  /-- The record was given as a list. -/
  positional : Bool

namespace Fields

/-- The fields of a record that has the given ones. -/
def of? (names : List String) : Json → Option Fields
  | .obj members => some ⟨members, false⟩
  | .arr items => if items.length ≤ names.length then some ⟨names.zip items, true⟩ else none
  | _ => none

/-- The fields of a record that is one form of a value among others: only an object gives them,
since a list is a form of its own. -/
def ofObject? : Json → Option Fields
  | .obj members => some ⟨members, false⟩
  | _ => none

/-- The fields among the members of an object, at least one member, up to the closing brace, and the
rest of the text. -/
def readMembers (rounding : Rounding) (names : List String) :
    Nat → List Char → Option (List (String × Json) × List Char)
  | 0, _ => none
  | steps + 1, s =>
    match skipBlanks s with
    | '"' :: r => do
      let (name, rest) ← readString r
      match skipBlanks rest with
      | ':' :: r =>
        let (found, rest) ←
          if names.contains name then
            (readValue rounding (stepLimit r) (depthLimit - 1) r).map fun (j, rest) =>
              ([(name, j)], rest)
          else (skipValue (stepLimit r) r).map ([], ·)
        match skipBlanks rest with
        | ',' :: r =>
          let (more, rest) ← readMembers rounding names steps r
          pure (found ++ more, rest)
        | '\x7d' :: r => pure (found, r)
        | _ => none
      | _ => none
    | _ => none

/-- The members of an object that are fields, and the rest of the text after it. -/
def readObject (rounding : Rounding) (names : List String) (s : List Char) :
    Option (List (String × Json) × List Char) :=
  match skipBlanks s with
  | '\x7d' :: rest => some ([], rest)
  | s => readMembers rounding names (stepLimit s) s

/-- Reads a record that has the given fields. -/
def read? (rounding : Rounding) (names : List String) (s : List Char) : Option Fields :=
  match skipBlanks s with
  | '\x7b' :: r => do
    let (members, rest) ← readObject rounding names r
    guard ((skipBlanks rest).isEmpty && names.all fun n => (members.map Prod.fst).count n ≤ 1)
    pure ⟨members, false⟩
  | s => do of? names (← Json.read? rounding s)

/-- The value of a field. -/
def get? (f : Fields) (name : String) : Option Json := (Json.obj f.members).member? name

/-- A field that must be there. -/
def required? {α : Type} (f : Fields) (name : String) (read : Json → Option α) : Option α :=
  (f.get? name).bind read

/-- A field that may be null and, in an object, left out. -/
def optional? {α : Type} (f : Fields) (name : String) (read : Json → Option α) :
    Option (Option α) :=
  match f.get? name with
  | some .null => some none
  | some j => (read j).map some
  | none => if f.positional then none else some none

/-- A field with a default. -/
def defaulted? {α : Type} (f : Fields) (name : String) (default : α) (read : Json → Option α) :
    Option α :=
  match f.get? name with
  | some j => read j
  | none => some default

/-- A field with a default that stands also for null. -/
def nullable? {α : Type} (f : Fields) (name : String) (read : Json → Option α) :
    Option (Option α) :=
  f.defaulted? name none fun j =>
    match j with
    | .null => some none
    | j => (read j).map some

end Fields

end Formulary.Json
