import Formulary.NameMap

/-!
Dependencies between names: the order in which they can be built, and what is built on a name.

A graph gives for each name the names it depends on. Names are ordered by taking, again and again,
one whose dependencies have all been taken; a count per name says how many are missing. Names that
become ready wait in a queue, those that become ready together in the order of the graph. What is
still missing something when the queue is empty lies on a cycle or depends on one.
-/

namespace Formulary

/-- For each name, the names it depends on. -/
abbrev DependencyGraph := NameMap (List String)

/-- A name, what it depends on, and how many of those have not been taken yet. -/
structure Waiting where
  name : String
  needs : List String
  missing : Nat
deriving DecidableEq, Repr

namespace Waiting

/-- All dependencies have been taken. -/
def isReady (w : Waiting) : Bool := w.missing == 0

/-- The row after a name has been taken, which may occur several times among the dependencies. -/
def without (taken : String) (w : Waiting) : Waiting :=
  { w with missing := w.missing - w.needs.count taken }

/-- The name that was taken is one of the dependencies, and the last. -/
def isFreed (taken : String) (w : Waiting) : Bool := w.needs.contains taken && w.isReady

end Waiting

namespace DependencyGraph

/-- The graph without dependencies that are not names of it. -/
def restrict (g : DependencyGraph) : DependencyGraph := g.map fun needs => needs.filter g.contains

/-- Nothing has been taken. -/
def waiting (g : DependencyGraph) : List Waiting :=
  g.toList.map fun (name, needs) => ⟨name, needs, needs.length⟩

/-- Takes names from the queue, at most the given number: the rows at the end, and the names in the
order in which they were taken, after those taken before. -/
def take : Nat → List Waiting → List String → List String → List Waiting × List String
  | 0, rows, _, taken => (rows, taken)
  | _ + 1, rows, [], taken => (rows, taken)
  | n + 1, rows, name :: queue, taken =>
    let rows := rows.map (Waiting.without name)
    let freed := (rows.filter (Waiting.isFreed name)).map Waiting.name
    take n rows (queue ++ freed) (taken ++ [name])

/-- The names, each after its dependencies; or, if there is a cycle, the names that lie on one or
depend on one, in the order of the graph. -/
def order? (g : DependencyGraph) : Except (List String) (List String) :=
  let ready := (g.waiting.filter Waiting.isReady).map Waiting.name
  let (rows, taken) := take g.size g.waiting ready []
  if taken.length < g.size then .error ((rows.filter (!·.isReady)).map Waiting.name)
  else .ok taken

/-- The other names that depend on a name directly. -/
def dependents (g : DependencyGraph) (name : String) : List String :=
  (g.toList.filter fun (other, needs) => other != name && needs.contains name).map Prod.fst

/-- The names found from those in the queue, looking at no more than the given number. -/
def reachFrom (g : DependencyGraph) : Nat → List String → List String → List String
  | 0, _, reached => reached
  | _ + 1, [], reached => reached
  | n + 1, name :: queue, reached =>
    let found := (g.dependents name).filter fun d => !reached.contains d
    reachFrom g n (queue ++ found) (reached ++ found)

/-- The names that depend on a name, directly or through others. The name itself need not be one of
the graph, so one more name than it has may be looked at. -/
def reach (g : DependencyGraph) (name : String) : List String := reachFrom g (g.size + 1) [name] []

/-- The names that depend on a name, each after its dependencies; or what `order?` gives for a graph
with a cycle. -/
def dependentsInOrder? (g : DependencyGraph) (name : String) : Except (List String) (List String) :=
  g.restrict.order?.map fun order => order.filter (g.reach name).contains

end DependencyGraph

end Formulary
