import Formulary.Text.Cut
import Formulary.Text.Invisible

/-!
Values as they are shown to a programmer: strings in quotes, lists in brackets, records in braces.

In a quoted string the quote and the backslash are preceded by a backslash, the usual controls have
their letters, and a character that shows nothing is given by its code point.
-/

namespace Formulary.Quoted

/-- A character inside a quoted string. -/
def char (c : Char) : String :=
  if c = '"' then "\\\""
  else if c = '\\' then "\\\\"
  else if c = '\t' then "\\t"
  else if c = '\n' then "\\n"
  else if c = '\r' then "\\r"
  else if c = '\x00' then "\\0"
  else if isInvisible c then
    "\\u\x7b" ++ String.ofList (Nat.toDigits 16 c.toNat) ++ "\x7d"
  else String.singleton c

/-- A string in quotes. -/
def string (s : String) : String := "\"" ++ joinWith "" (s.toList.map char) ++ "\""

/-- Items in brackets. -/
def list (items : List String) : String := "[" ++ joinWith ", " items ++ "]"

/-- Items in braces. -/
def set (items : List String) : String := "\x7b" ++ joinWith ", " items ++ "\x7d"

/-- A value that may be absent. -/
def option : Option String → String
  | some s => "Some(" ++ s ++ ")"
  | none => "None"

/-- A record: its name, and its fields in braces. -/
def record (name : String) (fields : List (String × String)) : String :=
  name ++ " \x7b " ++ joinWith ", " (fields.map fun (n, v) => n ++ ": " ++ v) ++ " \x7d"

end Formulary.Quoted
