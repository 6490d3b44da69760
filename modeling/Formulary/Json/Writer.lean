import Formulary.Double.Decimal
import Formulary.Json.Basic
import Formulary.Text.Cut

/-!
Writing JSON text, without blanks.

A double is written with the fewest digits that read back, always with a point or an exponent;
what is not finite is null. In strings, quotes, backslashes and control characters are escaped.
-/

namespace Formulary.Json

/-- A hexadecimal digit. -/
def hexChar (n : Nat) : Char := (Nat.digitChar n)

/-- A character inside a string. -/
def escape (c : Char) : List Char :=
  if c = '"' then ['\\', '"']
  else if c = '\\' then ['\\', '\\']
  else if c = '\n' then ['\\', 'n']
  else if c = '\r' then ['\\', 'r']
  else if c = '\t' then ['\\', 't']
  else if c = '\x08' then ['\\', 'b']
  else if c = '\x0c' then ['\\', 'f']
  else if c.toNat < 0x20 then
    ['\\', 'u', '0', '0', hexChar (c.toNat / 16), hexChar (c.toNat % 16)]
  else [c]

/-- A string in quotes. -/
def quoted (s : String) : String := "\"" ++ String.ofList (s.toList.flatMap escape) ++ "\""

/-- Zeros. -/
def zeros (n : Nat) : String := String.ofList (List.replicate n '0')

/-- Digits and a power of ten as a number: positional while the point falls at most five places
before the first digit and sixteen after it, else with an exponent. -/
def decimalText (digits : Nat) (scale : Int) : String :=
  let ds := (toString digits).toList
  let point := ds.length + scale
  if 0 ≤ scale && point ≤ 16 then toString digits ++ zeros scale.toNat ++ ".0"
  else if 0 < point && point ≤ 16 then
    String.ofList (ds.take point.toNat) ++ "." ++ String.ofList (ds.drop point.toNat)
  else if -5 < point && point ≤ 0 then "0." ++ zeros (-point).toNat ++ toString digits
  else
    let mantissa :=
      match ds with
      | d :: e :: r => String.ofList (d :: '.' :: e :: r)
      | ds => String.ofList ds
    mantissa ++ "e" ++ toString (point - 1)

/-- A double as a number, or null. -/
def floatText (x : Float) : String :=
  match Double.finite? x with
  | none => "null"
  | some f =>
    let sign := if f.negative then "-" else ""
    if f.significand = 0 then sign ++ "0.0"
    else let (digits, scale) := Double.shortest f; sign ++ decimalText digits scale

mutual

/-- The text of a value. -/
def write : Json → String
  | .null => "null"
  | .bool b => if b then "true" else "false"
  | .int n => toString n
  | .float x => floatText x
  | .str s => quoted s
  | .arr items => "[" ++ joinWith "," (writeItems items) ++ "]"
  | .obj members => "\x7b" ++ joinWith "," (writeMembers members) ++ "\x7d"

/-- The texts of several values. -/
def writeItems : List Json → List String
  | [] => []
  | j :: r => write j :: writeItems r

/-- The texts of several members. -/
def writeMembers : List (String × Json) → List String
  | [] => []
  | (n, j) :: r => (quoted n ++ ":" ++ write j) :: writeMembers r

end

end Formulary.Json
