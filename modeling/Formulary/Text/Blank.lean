/-!
White space, and text with the white space at its ends removed.

A character is *blank* when it has the Unicode property `White_Space`. `trim` drops the blanks at
both ends and keeps those inside.
-/

namespace Formulary

/-- A character with the property `White_Space`. -/
def isBlank (c : Char) : Bool :=
  let n := c.toNat
  (0x9 ≤ n && n ≤ 0xD) || n == 0x20 || n == 0x85 || n == 0xA0 || n == 0x1680 ||
    (0x2000 ≤ n && n ≤ 0x200A) || n == 0x2028 || n == 0x2029 || n == 0x202F ||
    n == 0x205F || n == 0x3000

/-- The text from its first character that is not blank. -/
def trimStart (s : List Char) : List Char := s.dropWhile isBlank

/-- The text up to its last character that is not blank. -/
def trimEnd : List Char → List Char
  | [] => []
  | c :: r =>
    match trimEnd r with
    | [] => if isBlank c then [] else [c]
    | d :: t => c :: d :: t

/-- The text without the blanks at its two ends. -/
def trim (s : List Char) : List Char := trimEnd (trimStart s)

/-- Nothing but blanks. -/
def allBlank (s : List Char) : Bool := s.all isBlank

/-- `trim` on strings. -/
def trimString (s : String) : String := String.ofList (trim s.toList)

theorem length_trimStart_le (s : List Char) : (trimStart s).length ≤ s.length := by
  induction s with
  | nil => simp [trimStart]
  | cons c r ih =>
    unfold trimStart at ih ⊢
    by_cases h : isBlank c <;> simp [List.dropWhile, h]
    omega

theorem length_trimEnd_le (s : List Char) : (trimEnd s).length ≤ s.length := by
  fun_induction trimEnd s with
  | case1 => simp
  | case2 => simp
  | case3 => simp
  | case4 c r d t ht ih => simp [ht] at ih ⊢; omega

theorem length_trim_le (s : List Char) : (trim s).length ≤ s.length :=
  Nat.le_trans (length_trimEnd_le _) (length_trimStart_le s)

end Formulary
