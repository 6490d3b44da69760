import Formulary.PhysicalUnit.Reader
import Formulary.Text.Identifier

/-!
Registration keys: `name`, `name [unit]`, `name(a, b)`, `name(a, b) [unit]`.

Blanks may stand around each part. The arguments are distinct names; an empty list of arguments
differs from none. The unit annotation is kept as written and read.
-/

namespace Formulary

/-- Why a text is not a key. -/
inductive KeyError where
  | unbalancedParens
  | unbalancedBrackets
  | notAKey
  | badName (text : String)
  | badArgument (text : String)
  | duplicateArgument (name : String)
  | emptyUnit
  | badUnit (error : UnitError)
deriving DecidableEq, Repr

/-- What went wrong, in words. -/
def KeyError.message : KeyError → String
  | .unbalancedParens => "unbalanced parentheses"
  | .unbalancedBrackets => "unbalanced brackets"
  | .notAKey => "expected name, name(args) and an optional [unit]"
  | .badName s => "'" ++ s ++ "' is not a valid name"
  | .badArgument s => "'" ++ s ++ "' is not a valid argument name"
  | .duplicateArgument s => "duplicate argument '" ++ s ++ "'"
  | .emptyUnit => "empty unit annotation"
  | .badUnit e => e.message

/-- A unit annotation: the text, and the unit it denotes. -/
structure UnitAnnotation where
  text : String
  unit : PhysicalUnit
deriving DecidableEq, Repr

/-- A name, its arguments if the key lists them, and its unit annotation if there is one. -/
structure Key where
  name : String
  args : Option (List String)
  annotation : Option UnitAnnotation
deriving DecidableEq, Repr

namespace Key

/-- The unit annotation as written. -/
def units (k : Key) : Option String := k.annotation.map UnitAnnotation.text

/-- The unit of the annotation. -/
def unit (k : Key) : Option PhysicalUnit := k.annotation.map UnitAnnotation.unit

/-- The name with its arguments, without blanks: `name(a,b)`. -/
def signatureKey (k : Key) : Option String :=
  k.args.map fun args => k.name ++ "(" ++ joinWith "," args ++ ")"

/-- The key written out: `name(a, b) [unit]`. -/
def text (k : Key) : String :=
  k.name ++
    (match k.args with
    | some args => "(" ++ joinWith ", " args ++ ")"
    | none => "") ++
    match k.units with
    | some u => " [" ++ u ++ "]"
    | none => ""

/-- The depths of parentheses and of brackets at the end of the text, or where one of them first
falls below zero. -/
def finalDepths (paren bracket : Int) : List Char → Int × Int
  | [] => (paren, bracket)
  | c :: r =>
    let paren := paren + depthStep c
    let bracket := if c = '[' then bracket + 1 else if c = ']' then bracket - 1 else bracket
    if paren < 0 || bracket < 0 then (paren, bracket) else finalDepths paren bracket r

/-- Parentheses and brackets are balanced; parentheses are reported first. -/
def checkBalanced (s : List Char) : Except KeyError Unit :=
  let (paren, bracket) := finalDepths 0 0 s
  if paren != 0 then .error .unbalancedParens
  else if bracket != 0 then .error .unbalancedBrackets
  else .ok ()

/-- A part between two delimiters that neither occurs in, at the start of the text: the part if it
is there, and the rest after it. `none` if the part is opened and not closed. -/
def cutDelimited (opening closing : Char) (s : List Char) :
    Option (Option (List Char) × List Char) :=
  match s with
  | [] => some (none, [])
  | c :: r =>
    if c != opening then some (none, c :: r)
    else
      let inside := r.takeWhile fun d => d != opening && d != closing
      match r.dropWhile fun d => d != opening && d != closing with
      | d :: rest => if d = closing then some (some inside, rest) else none
      | [] => none

/-- The characters that set off the parts of a key. -/
def delimiters : List Char := ['(', ')', '[', ']']

/-- A character of the first part of a key. -/
def isKeyNameChar (c : Char) : Bool := !isBlank c && !delimiters.contains c

/-- The three parts of a key, unread: name, text in parentheses, text in brackets. -/
def cutParts (s : List Char) : Option (List Char × Option (List Char) × Option (List Char)) := do
  let s := trimStart s
  let name := s.takeWhile isKeyNameChar
  guard !name.isEmpty
  let (args, rest) ← cutDelimited '(' ')' (trimStart (s.dropWhile isKeyNameChar))
  let (units, rest) ← cutDelimited '[' ']' (trimStart rest)
  guard (trimStart rest).isEmpty
  pure (name, args, units)

/-- Reads names one after the other; each differs from those before it. -/
def readArguments (before : List String) : List (List Char) → Except KeyError (List String)
  | [] => .ok before
  | part :: parts =>
    let part := trim part
    let name := String.ofList part
    if !isIdentifier part then .error (.badArgument name)
    else if before.contains name then .error (.duplicateArgument name)
    else readArguments (before ++ [name]) parts

/-- The arguments between the parentheses of a key; blank text has none. -/
def readArgumentList (s : List Char) : Except KeyError (List String) :=
  if allBlank s then .ok [] else readArguments [] (cutAll ',' s)

/-- Applies a reader to a part that may be absent. -/
def readPart {m : Type → Type} [Monad m] {α β : Type} (read : α → m β) : Option α → m (Option β)
  | none => pure none
  | some a => some <$> read a

section AnyUnits

variable {m : Type → Type} [Monad m] [MonadLiftT (Except KeyError) m]
  (unit : List Char → m (Except UnitError PhysicalUnit))

/-- The unit annotation between the brackets of a key, with a given reader of units. -/
def readAnnotationWith (s : List Char) : m UnitAnnotation := do
  let s := trim s
  if s.isEmpty then liftM (Except.error KeyError.emptyUnit : Except KeyError UnitAnnotation)
  else
    match ← unit s with
    | .ok u => pure ⟨String.ofList s, u⟩
    | .error e => liftM (Except.error (.badUnit e) : Except KeyError UnitAnnotation)

/-- Reads a key with a given reader of units. -/
def readWith (s : List Char) : m Key := do
  liftM (checkBalanced s)
  match cutParts s with
  | none => liftM (Except.error .notAKey : Except KeyError Key)
  | some (name, args, units) =>
    if !isIdentifier name then
      liftM (Except.error (.badName (String.ofList name)) : Except KeyError Key)
    else
      let args ← liftM (readPart readArgumentList args)
      let annotation ← readPart (readAnnotationWith unit) units
      pure ⟨String.ofList name, args, annotation⟩

end AnyUnits

/-- The unit annotation between the brackets of a key. -/
def readAnnotation (s : List Char) : Except KeyError UnitAnnotation :=
  readAnnotationWith (fun s => .ok (PhysicalUnit.read s)) s

theorem readAnnotation_def (s : List Char) : readAnnotation s =
    if (trim s).isEmpty then .error .emptyUnit
    else
      match PhysicalUnit.read (trim s) with
      | .ok u => .ok ⟨String.ofList (trim s), u⟩
      | .error e => .error (.badUnit e) := rfl

/-- Reads a key. -/
def read? (s : List Char) : Except KeyError Key := readWith (fun s => .ok (PhysicalUnit.read s)) s

theorem read?_def (s : List Char) : read? s =
    (checkBalanced s >>= fun _ =>
      match cutParts s with
      | none => .error .notAKey
      | some (name, args, units) =>
        if !isIdentifier name then .error (.badName (String.ofList name))
        else do
          let args ← readPart readArgumentList args
          let annotation ← readPart readAnnotation units
          pure ⟨String.ofList name, args, annotation⟩) := rfl

/-- What comes of a text as a key; a fault quotes the text. -/
def quoting (text : String) : Except KeyError Key → Except Fault Key
  | .ok k => .ok k
  | .error e => .error (.ofCause (.malformedKey text e.message))

/-- Reads a key; a fault quotes the text. -/
def read (text : String) : Except Fault Key := quoting text (read? text.toList)

end Key

end Formulary
