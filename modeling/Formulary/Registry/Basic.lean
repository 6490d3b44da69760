import Formulary.Dependency
import Formulary.Entry.Build

/-!
The registry: names bound to entries.

An entry is found by its bare name or by its signature. Names are looked up among the entries, and
signatures in an index of their own: a second map, from signatures to names, that is not kept up entry
by entry but made anew from all entries whenever a changed copy of them takes their place.

Every operation either gives a new registry or fails and leaves the old one as it was: replacing an
entry is prepared on a copy, which is given back only after its graph of dependencies has been ordered
and, under the eager policy, everything built on the entry has been built again.

Each entry that is built gets a stamp that none had before. A forced delete retires the stamp of the
entry, and with it every handle that others hold on that entry.
-/

namespace Formulary

/-- The stamps given out: those below `next`; and those of entries removed by force. -/
structure Stamps where
  next : Stamp := 0
  retired : List Stamp := []
deriving DecidableEq, Repr, Inhabited

/-- Whether an entry that others refer to may be removed. -/
inductive DeleteMode where
  /-- Refuse while others refer to it. -/
  | guarded
  /-- Remove and retire it; those that refer to it fail until they are built again. -/
  | force
deriving DecidableEq, Repr

/-- Entries by name, in the order in which the names were first set, and the index of signatures. -/
structure Registry where
  entries : NameMap Entry := .empty
  /-- The names of the entries by their signatures. -/
  aliases : NameMap String := .empty
  settings : Settings := {}
  stamps : Stamps := {}

namespace Registry

instance : Inhabited Registry := ⟨{}⟩

/-! ## Looking up -/

/-- A key without blanks and without what stands after the first `[`. -/
def plainKey (key : String) : String :=
  String.ofList ((key.toList.takeWhile (· != '[')).filter (!isBlank ·))

/-- The name that a key stands for: a bare name, or the one that the index has for a signature. -/
def nameOf? (r : Registry) (key : String) : Option String :=
  let key := plainKey key
  if r.entries.contains key then some key else r.aliases.get? key

/-- The fault of a key that stands for no entry. -/
def unknown (r : Registry) (key : String) : Fault :=
  let key := plainKey key
  let fault := Fault.ofCause (.unknownSymbol key)
  match Similar.suggestion? key (Similar.find key r.entries.names) with
  | some text => fault.advise text
  | none => fault

/-- The entry that a key stands for. -/
def get? (r : Registry) (key : String) : Option Entry := (r.nameOf? key).bind r.entries.get?

/-- The entry that a key stands for, which must have one. -/
def get (r : Registry) (key : String) : Except Fault Entry :=
  match r.get? key with
  | some e => .ok e
  | none => .error (r.unknown key)

/-- A key stands for an entry. -/
def contains (r : Registry) (key : String) : Bool := (r.nameOf? key).isSome

/-- The number of entries. -/
def size (r : Registry) : Nat := r.entries.size

/-- All keys: the bare names, each followed by the signature if the entry has parameters. -/
def keys (r : Registry) : List String :=
  r.entries.toList.flatMap fun (name, e) =>
    if e.params.isEmpty then [name] else [name, e.signature.lookupKey]

/-- What the entries refer to. -/
def references (r : Registry) : DependencyGraph := r.entries.map Entry.dependencies

/-- What the entries refer to among themselves. -/
def graph (r : Registry) : DependencyGraph := r.references.restrict

/-- The names of the other entries that refer to an entry. -/
def dependents (r : Registry) (key : String) : Except Fault (List String) := do
  return r.references.dependents (← r.get key).name

/-! ## Evaluating -/

/-- The result of the entry of a key for arguments by position. -/
def evaluate (r : Registry) (key : String) (args : List NdArray) : Except Fault NdArray := do
  (← r.get key).call r.stamps.retired args

/-- The result of the entry of a key for arguments by name. -/
def evaluateNamed (r : Registry) (key : String) (given : NameMap NdArray) :
    Except Fault NdArray := do
  (← r.get key).callNamed r.stamps.retired given

/-! ## Building -/

/-- Builds an entry against the entries at hand. -/
def build (r : Registry) (fill : Float) (key : Key) (source : Source) : Except Fault Entry :=
  Entry.build ⟨r.entries, r.settings.freeParameters, fill, r.stamps.next, r.stamps.retired⟩ key
    source

/-- Builds an entry again from what it was registered from. -/
def rebuild (r : Registry) (e : Entry) : Except Fault Entry := r.build e.fill e.key e.source

/-- Builds an entry again and takes its snapshot anew. -/
def renew (r : Registry) (e : Entry) : Except Fault Entry := do
  let e ← r.rebuild e
  pure (if e.isDerived then e else e.withSnapshot r.stamps.retired)

/-- The names of entries by their signatures, but for a signature that is the name itself. -/
def index (entries : NameMap Entry) : NameMap String :=
  .ofList ((entries.toList.map fun (name, e) => (e.signature.lookupKey, name)).filter
    fun (signature, name) => signature != name)

/-- The registry with the index made from its entries, as it is once a copy has been committed. -/
def reindex (r : Registry) : Registry := { r with aliases := index r.entries }

/-- Puts an entry under its name and uses up its stamp. The index is left as it was: this is done on a
copy, in which nothing is looked up by a key. -/
def put (r : Registry) (e : Entry) : Registry :=
  { r with
    entries := r.entries.insert e.name e
    stamps := { r.stamps with next := r.stamps.next + 1 } }

/-- Replaces the entries of the given names, one after the other, by what a step makes of each
against the entries at hand; a fault is noted with the name. -/
def replaceAll (step : Registry → Entry → Except Fault Entry) (occasion : String) :
    List String → Registry → Except Fault Registry
  | [], r => .ok r
  | name :: names, r =>
    match r.entries.get? name with
    | none => replaceAll step occasion names r
    | some e => do
      let e ← (step r e).mapError (·.note (occasion ++ name))
      replaceAll step occasion names (r.put e)

/-- The fault of names that cannot be ordered. -/
def cycle (names : List String) : Fault := .ofCause (.cyclicDependency names)

/-- A copy with an entry put in its place, if that leaves no cycle; under the eager policy, with all that
depends on it built again. -/
def stage (r : Registry) (e : Entry) : Except Fault Registry := do
  let staged := r.put e
  match staged.graph.order? with
  | .error names => throw (cycle (names.mergeSort (· ≤ ·)))
  | .ok _ =>
    match r.settings.refresh with
    | .stale => pure staged
    | .eager =>
      let order ← (staged.references.dependentsInOrder? e.name).mapError cycle
      replaceAll rebuild "while refreshing dependent " order staged

/-- Puts an entry in its place: the copy in which it stands takes the place of the registry. -/
def commit (r : Registry) (e : Entry) : Except Fault Registry := (r.stage e).map reindex

/-- The entry of a name, together with the registry that holds it. -/
def withEntry (r : Registry) (name : String) : Except Fault (Entry × Registry) :=
  match r.entries.get? name with
  | some e => .ok (e, r)
  | none => .error (.ofCause (.internal ("'" ++ name ++ "' missing after commit")))

/-! ## Changing -/

/-- Sets a key: registers a source under its name, or replaces what is there. -/
def set (r : Registry) (key : String) (source : Source) : Except Fault (Entry × Registry) := do
  let k ← Key.read key
  let result := do
    let e ← r.build r.settings.fill k source
    (← r.commit e).withEntry e.name
  result.mapError (·.forKey key)

/-- Removes the entry of a key. -/
def delete (r : Registry) (key : String) (mode : DeleteMode) : Except Fault (Entry × Registry) := do
  let e ← r.get key
  let dependents := r.references.dependents e.name
  if mode = .guarded && !dependents.isEmpty then
    throw (.ofCause (.dependentEntryExists e.name dependents))
  let retired :=
    match mode with
    | .guarded => r.stamps.retired
    | .force => e.stamp :: r.stamps.retired
  let staged := { r with
    entries := r.entries.erase e.name
    stamps := { r.stamps with retired } }
  pure (e, staged.reindex)

/-- Changes the fill value of an entry, which is built again. -/
def setFill (r : Registry) (key : String) (fill : Float) : Except Fault (Entry × Registry) := do
  let e ← r.get key
  let e ← r.build fill e.key e.source
  (← r.commit e).withEntry e.name

/-- Builds an entry again against the present entries and takes its snapshot anew. -/
def refresh (r : Registry) (key : String) : Except Fault (Entry × Registry) := do
  let e ← r.renew (← r.get key)
  (← r.commit e).withEntry e.name

/-- Builds all entries again, dependencies first. -/
def refreshAll (r : Registry) : Except Fault Registry := do
  let order ← r.graph.order?.mapError cycle
  let staged ← replaceAll renew "while refreshing " order r
  return staged.reindex

/-- A registry with the given pairs set one after the other. Stamps continue from the given ones, so
that entries kept from elsewhere stay apart. -/
def ofList (stamps : Stamps) (pairs : List (String × Source)) : Except Fault Registry :=
  pairs.foldlM (fun r (key, source) => return (← r.set key source).2) { stamps }

end Registry

end Formulary
