/-!
Cutting text: at the first occurrence of a character, and at every separator that stands outside
all parentheses.

`cutTop` walks the text once. It knows the characters already passed (nearest first), because
whether a character separates can depend on what stands before it, and the depth of parentheses,
which falls below zero in text that closes what it never opened: no separator is seen there.
-/

namespace Formulary

/-- The parts before and after the first `c`, when there is one. -/
def cutOnce (c : Char) : List Char → Option (List Char × List Char)
  | [] => none
  | d :: r =>
    if d = c then some ([], r)
    else (cutOnce c r).map fun (a, b) => (d :: a, b)

/-- The parts between the occurrences of `c`; one part more than there are occurrences. -/
def cutAll (c : Char) : List Char → List (List Char)
  | [] => [[]]
  | d :: r =>
    match cutAll c r with
    | [] => [[]]
    | p :: ps => if d = c then [] :: p :: ps else (d :: p) :: ps

/-- The change of parenthesis depth that a character makes. -/
def depthStep (c : Char) : Int :=
  if c = '(' then 1 else if c = ')' then -1 else 0

/-- Cuts at the characters that `separates` accepts (given the text before them, reversed) at
depth zero: the first part, and each separator with the part after it. -/
def cutTop (separates : List Char → Char → Bool) (passed : List Char) (depth : Int) :
    List Char → List Char × List (Char × List Char)
  | [] => ([], [])
  | c :: r =>
    let (part, more) := cutTop separates (c :: passed) (depth + depthStep c) r
    if depth = 0 && c != '(' && c != ')' && separates passed c then ([], (c, part) :: more)
    else (c :: part, more)

/-- The parts that the characters in `seps` leave at depth zero. -/
def partsTop (seps : List Char) (s : List Char) : List (List Char) :=
  let (part, more) := cutTop (fun _ c => seps.contains c) [] 0 s
  part :: more.map Prod.snd

/-- The parts before and after the first `target` at depth zero. -/
def cutOnceTop (target : Char) (depth : Int) : List Char → Option (List Char × List Char)
  | [] => none
  | c :: r =>
    if depth = 0 && c == target then some ([], r)
    else (cutOnceTop target (depth + depthStep c) r).map fun (a, b) => (c :: a, b)

/-- What stands between an opening parenthesis at the start and a closing one at the end. -/
def insideParens? : List Char → Option (List Char)
  | '(' :: r => if r.getLast? = some ')' then some r.dropLast else none
  | _ => none

/-- The text with each `**` read as `^`. -/
def caretPowers : List Char → List Char
  | '*' :: '*' :: r => '^' :: caretPowers r
  | c :: r => c :: caretPowers r
  | [] => []

/-- Texts joined with a separator between neighbours. -/
def joinWith (sep : String) : List String → String
  | [] => ""
  | [s] => s
  | s :: t :: r => s ++ sep ++ joinWith sep (t :: r)

/-- What follows the first `c` is shorter than the whole. -/
theorem length_of_cutOnce {c : Char} {s a b : List Char} (h : cutOnce c s = some (a, b)) :
    b.length < s.length := by
  induction s generalizing a with
  | nil => simp [cutOnce] at h
  | cons d r ih =>
    unfold cutOnce at h
    split at h
    · simp only [Option.some.injEq, Prod.mk.injEq] at h
      rw [← h.2, List.length_cons]
      exact Nat.lt_succ_self _
    · obtain ⟨⟨x, y⟩, hx, hy⟩ := Option.map_eq_some_iff.1 h
      simp only [Prod.mk.injEq] at hy
      have shorter : b.length < r.length := ih (a := x) (by rw [hx, hy.2])
      rw [List.length_cons]
      exact Nat.lt_succ_of_lt shorter

/-- What stands inside the parentheses is shorter than the whole. -/
theorem length_of_insideParens? {s t : List Char} (h : insideParens? s = some t) :
    t.length < s.length := by
  unfold insideParens? at h
  split at h
  · rename_i r
    split at h
    · simp only [Option.some.injEq] at h
      subst h
      rw [List.length_dropLast, List.length_cons]
      omega
    · simp at h
  · simp at h

end Formulary
