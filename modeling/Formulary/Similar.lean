import Formulary.Text.Cut
import Formulary.Text.Lowercase

/-!
Names that resemble an unknown one, for suggestions.

The score counts, without regard to case: 100 if the candidate starts with the query, else 50 if it
contains it, else 30 if the query contains the candidate; two for each character they share; and up
to five for lengths that differ little. Candidates with a score of at least six are listed, best
first, those of one score by name.
-/

namespace Formulary.Similar

/-- One text stands somewhere in the other. -/
def isInside (part : List Char) : List Char → Bool
  | [] => part.isEmpty
  | c :: r => part.isPrefixOf (c :: r) || isInside part r

/-- The length of a text in UTF-8. -/
def byteLength (s : List Char) : Nat := (s.map Char.utf8Size).foldl (· + ·) 0

/-- How well a candidate matches a query, both in lower case. -/
def score (query candidate : List Char) : Nat :=
  let overlap :=
    if query.isPrefixOf candidate then 100
    else if isInside query candidate then 50
    else if isInside candidate query then 30
    else 0
  let shared := (query.eraseDups.filter candidate.contains).length
  let points := overlap + 2 * shared
  let (long, short) :=
    (max (byteLength query) (byteLength candidate), min (byteLength query) (byteLength candidate))
  let gap := long - short
  if gap < 5 && 0 < points then points + (5 - gap) else points

/-- The candidates that resemble the query, best first. -/
def find (query : String) (candidates : List String) : List String :=
  let lowered := lowerCase query.toList
  let scored := (candidates.filter (· != query)).map fun c =>
    (c, score lowered (lowerCase c.toList))
  let kept := scored.filter fun p => 6 ≤ p.2
  let inOrder (a b : String × Nat) : Bool := b.2 < a.2 || (a.2 == b.2 && a.1 ≤ b.1)
  (kept.mergeSort inOrder).map Prod.fst

/-- The suggestion for a query with the given resembling names: the only one, or the first three. -/
def suggestion? (query : String) : List String → Option String
  | [] => none
  | [one] => some ("Did you mean '" ++ one ++ "'?")
  | many =>
    some ("'" ++ query ++ "' is not registered. Similar: " ++ joinWith ", " (many.take 3))

end Formulary.Similar
