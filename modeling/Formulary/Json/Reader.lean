import Formulary.Json.Number

/-!
Reading JSON text.

The grammar is that of the standard: no comments, no trailing commas, no leading zeros, control
characters escaped, surrogates in pairs. Values nest to a limited depth. How numbers become doubles
is for the caller to say.
-/

namespace Formulary.Json

/-- White space between tokens. -/
def isJsonBlank (c : Char) : Bool := c == ' ' || c == '\t' || c == '\n' || c == '\r'

/-- The text from its next token on. -/
def skipBlanks (s : List Char) : List Char := s.dropWhile isJsonBlank

/-- The value of a hexadecimal digit. -/
def hexDigit? (c : Char) : Option Nat :=
  if c.isDigit then some (c.toNat - '0'.toNat)
  else if 'a' ≤ c && c ≤ 'f' then some (c.toNat - 'a'.toNat + 10)
  else if 'A' ≤ c && c ≤ 'F' then some (c.toNat - 'A'.toNat + 10)
  else none

/-- The value of four hexadecimal digits. -/
def hexUnit? (a b c d : Char) : Option Nat := do
  pure (((← hexDigit? a) * 16 + (← hexDigit? b)) * 256 + (← hexDigit? c) * 16 + (← hexDigit? d))

/-- The character of an escape of one letter. -/
def escaped? : Char → Option Char
  | '"' => some '"'
  | '\\' => some '\\'
  | '/' => some '/'
  | 'b' => some '\x08'
  | 'f' => some '\x0c'
  | 'n' => some '\n'
  | 'r' => some '\r'
  | 't' => some '\t'
  | _ => none

/-- The code units up to the closing quote, and the rest. -/
def readUnits : List Char → Option (List Nat × List Char)
  | [] => none
  | '"' :: r => some ([], r)
  | '\\' :: 'u' :: a :: b :: c :: d :: r => do
    let unit ← hexUnit? a b c d
    let (units, rest) ← readUnits r
    pure (unit :: units, rest)
  | '\\' :: c :: r => do
    let d ← escaped? c
    let (units, rest) ← readUnits r
    pure (d.toNat :: units, rest)
  | c :: r => do
    guard (0x20 ≤ c.toNat && c != '\\')
    let (units, rest) ← readUnits r
    pure (c.toNat :: units, rest)

/-- The characters of code units; a surrogate must be one of a pair. -/
def joinUnits : List Nat → Option (List Char)
  | [] => some []
  | high :: low :: r =>
    if 0xD800 ≤ high && high < 0xDC00 then
      if 0xDC00 ≤ low && low < 0xE000 then
        (joinUnits r).map (Char.ofNat (0x10000 + (high - 0xD800) * 0x400 + (low - 0xDC00)) :: ·)
      else none
    else if 0xDC00 ≤ high && high < 0xE000 then none
    else (joinUnits (low :: r)).map (Char.ofNat high :: ·)
  | [unit] => if 0xD800 ≤ unit && unit < 0xE000 then none else some [Char.ofNat unit]

/-- A string after its opening quote, and the rest. -/
def readString (s : List Char) : Option (String × List Char) := do
  let (units, rest) ← readUnits s
  let chars ← joinUnits units
  pure (String.ofList chars, rest)

/-- The value of a word. -/
def wordValue? : String → Option Json
  | "null" => some .null
  | "true" => some (.bool true)
  | "false" => some (.bool false)
  | _ => none

/-- A word at the start of the text, and the rest. -/
def readWord (s : List Char) : Option (Json × List Char) :=
  (wordValue? (String.ofList (s.takeWhile Char.isAlpha))).map (·, s.dropWhile Char.isAlpha)

/-- How deep values may nest. -/
def depthLimit : Nat := 127

mutual

/-- A value, and the rest. `depth` is how many levels may still open; the first argument bounds the
number of steps. -/
def readValue (rounding : Rounding) : Nat → Nat → List Char → Option (Json × List Char)
  | 0, _, _ => none
  | fuel + 1, depth, s =>
    match skipBlanks s with
    | [] => none
    | '"' :: r => (readString r).map fun (t, rest) => (.str t, rest)
    | '[' :: r =>
      if depth = 0 then none
      else
        match skipBlanks r with
        | ']' :: rest => some (.arr [], rest)
        | r => (readItems rounding fuel (depth - 1) r).map fun (items, rest) => (.arr items, rest)
    | '\x7b' :: r =>
      if depth = 0 then none
      else
        match skipBlanks r with
        | '\x7d' :: rest => some (.obj [], rest)
        | r =>
          (readMembers rounding fuel (depth - 1) r).map fun (members, rest) => (.obj members, rest)
    | c :: r => if c.isAlpha then readWord (c :: r) else readNumber rounding (c :: r)

/-- The items of an array, at least one, up to the closing bracket, and the rest. -/
def readItems (rounding : Rounding) : Nat → Nat → List Char → Option (List Json × List Char)
  | 0, _, _ => none
  | fuel + 1, depth, s => do
    let (item, rest) ← readValue rounding fuel depth s
    match skipBlanks rest with
    | ',' :: r =>
      let (items, rest) ← readItems rounding fuel depth r
      pure (item :: items, rest)
    | ']' :: r => pure ([item], r)
    | _ => none

/-- The members of an object, at least one, up to the closing brace, and the rest. -/
def readMembers (rounding : Rounding) :
    Nat → Nat → List Char → Option (List (String × Json) × List Char)
  | 0, _, _ => none
  | fuel + 1, depth, s =>
    match skipBlanks s with
    | '"' :: r => do
      let (name, rest) ← readString r
      match skipBlanks rest with
      | ':' :: r =>
        let (value, rest) ← readValue rounding fuel depth r
        match skipBlanks rest with
        | ',' :: r =>
          let (members, rest) ← readMembers rounding fuel depth r
          pure ((name, value) :: members, rest)
        | '\x7d' :: r => pure ([(name, value)], r)
        | _ => none
      | _ => none
    | _ => none

end

mutual

/-- The text after a value that is passed over. Its form is that of a value, but its numbers may be
out of range, its surrogates unpaired, and it may nest to any depth. -/
def skipValue : Nat → List Char → Option (List Char)
  | 0, _ => none
  | fuel + 1, s =>
    match skipBlanks s with
    | [] => none
    | '"' :: r => (readUnits r).map Prod.snd
    | '[' :: r =>
      match skipBlanks r with
      | ']' :: rest => some rest
      | r => skipItems fuel r
    | '\x7b' :: r =>
      match skipBlanks r with
      | '\x7d' :: rest => some rest
      | r => skipMembers fuel r
    | c :: r =>
      if c.isAlpha then (readWord (c :: r)).map Prod.snd
      else (cutNumeral (c :: r)).map Prod.snd

/-- The text after the items of an array that is passed over. -/
def skipItems : Nat → List Char → Option (List Char)
  | 0, _ => none
  | fuel + 1, s => do
    match skipBlanks (← skipValue fuel s) with
    | ',' :: r => skipItems fuel r
    | ']' :: r => some r
    | _ => none

/-- The text after the members of an object that is passed over. -/
def skipMembers : Nat → List Char → Option (List Char)
  | 0, _ => none
  | fuel + 1, s =>
    match skipBlanks s with
    | '"' :: r => do
      match skipBlanks (← readUnits r).2 with
      | ':' :: r =>
        match skipBlanks (← skipValue fuel r) with
        | ',' :: r => skipMembers fuel r
        | '\x7d' :: r => some r
        | _ => none
      | _ => none
    | _ => none

end

/-- How many steps reading a text may take: each takes a character, or opens a value. -/
def stepLimit (s : List Char) : Nat := 2 * s.length + 2

/-- Reads a JSON text. -/
def read? (rounding : Rounding) (s : List Char) : Option Json :=
  match readValue rounding (stepLimit s) depthLimit s with
  | some (j, rest) => if (skipBlanks rest).isEmpty then some j else none
  | none => none

end Formulary.Json
