import Formulary.Key

/-!
Reading keys in a build that checks its machine integers.

While a unit is read, a machine integer can leave its range in two places. The digits of a superscript
exponent are added up in a signed 32-bit integer. And the exponent of ten that a decimal states, a signed
64-bit integer, is lessened by the number of digits after its point; decimals occur as exponents behind a
caret. `Key.read` is the reader of a build whose integers wrap around there. A build that checks them
stops, which is no refusal of the text: the caller gets neither a key nor a fault.

In all else the two builds are one reader. That matters for when a build stops: what stands to the right
of a factor that has been refused is not read at all, nor is a unit in a key whose arguments are no names.
-/

namespace Formulary

/-- A computation that can fail, in a build that checks its integers: `none` where it stops. -/
abbrev Checked (ε : Type) : Type → Type := ExceptT ε Option

/-- The computation stops. -/
def Checked.stop {ε α : Type} : Checked ε α := ExceptT.mk none

namespace Exact

/-- The number of digits after the point of a decimal takes its exponent of ten below the signed 64-bit
integers. The digits are looked at before. -/
def leavesInt64 (s : List Char) : Bool :=
  match cutExponent s with
  | none => false
  | some (mantissa, exponent) =>
    let (_, unsigned) := readSign mantissa
    let (whole, fraction) := (cutOnce '.' unsigned).getD (unsigned, [])
    let digits := whole ++ fraction
    !digits.isEmpty && digits.all Char.isDigit &&
      exponent - fraction.length < -9223372036854775808

/-- The exact value of a decimal. -/
def readDecimalChecked (s : List Char) : Checked NumberError Rat :=
  if leavesInt64 s then Checked.stop else liftM (readDecimal s)

/-- Reads a decimal, or a quotient of two. -/
def readChecked (s : List Char) : Checked NumberError Rat :=
  let s := trim s
  match cutOnce '/' s with
  | some (num, den) => do
    let a ← readDecimalChecked (trim num)
    let b ← readDecimalChecked (trim den)
    liftM (divide a b)
  | none => readDecimalChecked s

end Exact

namespace PhysicalUnit

/-- Adds superscript digits to a value: `none` where the sum leaves the signed 32-bit integers, and
`some none` at a character that is no digit. -/
def addSuperscripts (value : Nat) : List Char → Option (Option Nat)
  | [] => some (some value)
  | c :: r =>
    match superscriptDigit? c with
    | none => some none
    | some d =>
      if Exact.fitsInt32 (value * 10 + d : Nat) then addSuperscripts (value * 10 + d) r else none

/-- A base and the exponent that digits make. The digits are added up before it is looked whether there
are any, and whether there is a base. -/
def superscriptChecked (base : List Char) (sign : Int) (digits : List Char) :
    Option (Option (List Char × Int)) :=
  (addSuperscripts 0 digits).map fun value? =>
    if base.isEmpty || digits.isEmpty then none
    else value?.map fun (value : Nat) => (base, sign * value)

/-- A base and the superscript exponent after it; the minus sign may stand first only. -/
def cutSuperscriptChecked (s : List Char) : Option (Option (List Char × Int)) :=
  let base := s.takeWhile fun c => !isSuperscript c
  match s.dropWhile fun c => !isSuperscript c with
  | '⁻' :: digits => superscriptChecked base (-1) digits
  | digits => superscriptChecked base 1 digits

/-- The exponents of a build that checks its integers. -/
def checked : Exponents (Checked UnitError) where
  superscript s := ExceptT.lift (cutSuperscriptChecked s)
  caret s := do
    let _ ← ExceptT.lift (Exact.readChecked ((insideParens? (trim s)).getD (trim s))).run
    liftM (readExponent s)

/-- Reads a unit annotation. -/
def readChecked (s : List Char) : Checked UnitError PhysicalUnit := checked.read s

end PhysicalUnit

namespace Key

/-- Reads a key: `none` if the build stops. -/
def readChecked (text : String) : Option (Except Fault Key) :=
  (readWith (fun s => ExceptT.lift (PhysicalUnit.readChecked s).run) text.toList).run.map
    (quoting text)

end Key

end Formulary
