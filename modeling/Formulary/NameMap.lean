/-!
Insertion-ordered maps from names.

A map is a list of pairs with distinct names. Putting a value under a name that is present keeps
the name's position; a new name goes to the end. Lookup, names and removal are those of the list.
-/

namespace Formulary

/-- Pairs with distinct names, in insertion order. -/
structure NameMap (α : Type) where
  toList : List (String × α)
  /-- No name occurs twice. -/
  nodup : (toList.map Prod.fst).Nodup

namespace NameMap

variable {α : Type}

/-- The map without entries. -/
def empty : NameMap α := ⟨[], List.nodup_nil⟩

instance : Inhabited (NameMap α) := ⟨empty⟩

/-- The names, in insertion order. -/
def names (m : NameMap α) : List String := m.toList.map Prod.fst

/-- The number of entries. -/
def size (m : NameMap α) : Nat := m.toList.length

/-- The value under a name. -/
def get? (m : NameMap α) (name : String) : Option α := m.toList.lookup name

/-- A name is present. -/
def contains (m : NameMap α) (name : String) : Bool := (m.get? name).isSome

/-- A list of pairs with the value under `name` replaced, or the pair added at the end. -/
def putList (name : String) (value : α) : List (String × α) → List (String × α)
  | [] => [(name, value)]
  | (n, v) :: r => if n = name then (n, value) :: r else (n, v) :: putList name value r

theorem map_fst_putList (name : String) (value : α) (l : List (String × α)) :
    (putList name value l).map Prod.fst =
      if name ∈ l.map Prod.fst then l.map Prod.fst else l.map Prod.fst ++ [name] := by
  induction l with
  | nil => simp [putList]
  | cons p r ih =>
    obtain ⟨n, v⟩ := p
    by_cases h : n = name
    · simp [putList, h]
    · have h' : name ≠ n := fun e => h e.symm
      simp only [putList, h, ite_false, List.map_cons, ih, List.mem_cons, h', false_or]
      split <;> rfl

theorem nodup_putList (name : String) (value : α) {l : List (String × α)}
    (h : (l.map Prod.fst).Nodup) : ((putList name value l).map Prod.fst).Nodup := by
  rw [map_fst_putList]
  split
  · exact h
  · rename_i hn
    refine List.nodup_append.2 ⟨h, by simp, ?_⟩
    intro a ha b hb hab
    simp only [List.mem_singleton] at hb
    exact hn (hb ▸ hab ▸ ha)

/-- Puts a value under a name: in the place of the present one, or at the end. -/
def insert (m : NameMap α) (name : String) (value : α) : NameMap α :=
  ⟨putList name value m.toList, nodup_putList name value m.nodup⟩

/-- The map without a name; the others keep their order. -/
def erase (m : NameMap α) (name : String) : NameMap α :=
  ⟨m.toList.filter fun p => p.1 != name,
    List.Nodup.sublist (List.Sublist.map _ List.filter_sublist) m.nodup⟩

/-- The map with a function applied to each value. -/
def map {β : Type} (f : α → β) (m : NameMap α) : NameMap β :=
  ⟨m.toList.map fun (n, v) => (n, f v), by
    rw [List.map_map]
    exact m.nodup⟩

/-- The pairs put one after the other. -/
def ofList (l : List (String × α)) : NameMap α :=
  l.foldl (fun m (n, v) => m.insert n v) empty

/-- The names of a map after `insert`: unchanged for a present name, else with the name added. -/
theorem names_insert (m : NameMap α) (name : String) (value : α) :
    (m.insert name value).names = if name ∈ m.names then m.names else m.names ++ [name] :=
  map_fst_putList name value m.toList

end NameMap

end Formulary
