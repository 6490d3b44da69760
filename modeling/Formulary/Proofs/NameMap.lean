import Formulary.NameMap
import Mathlib.Data.List.Induction

/-!
Looking up in insertion-ordered maps.

The pairs of a map are what its lookup finds, each operation changes the lookup of one name, and a
name has a value exactly if it is one of the names.
-/

namespace Formulary.NameMap

variable {α β : Type}

/-! ## Lists of pairs -/

theorem mem_of_lookup {name : String} {value : α} :
    ∀ {l : List (String × α)}, l.lookup name = some value → (name, value) ∈ l
  | [], h => by simp at h
  | (n, v) :: l, h => by
    by_cases hn : name = n
    · subst hn
      simp only [List.lookup_cons, beq_self_eq_true, Option.some.injEq] at h
      simp [h]
    · have hb : (name == n) = false := by simpa using hn
      simp only [List.lookup_cons, hb] at h
      exact List.mem_cons_of_mem _ (mem_of_lookup h)

/-- With distinct names, a pair of the list is what its name is looked up to. -/
theorem lookup_of_mem {name : String} {value : α} :
    ∀ {l : List (String × α)}, (l.map Prod.fst).Nodup → (name, value) ∈ l →
      l.lookup name = some value
  | [], _, h => by simp at h
  | (n, v) :: l, hd, h => by
    rw [List.map_cons, List.nodup_cons] at hd
    rcases List.mem_cons.mp h with h | h
    · cases h
      simp
    · have hmem : name ∈ l.map Prod.fst := List.mem_map.mpr ⟨_, h, rfl⟩
      have hne : name ≠ n := fun e => hd.1 (e ▸ hmem)
      have hb : (name == n) = false := by simpa using hne
      simpa [List.lookup_cons, hb] using lookup_of_mem hd.2 h

theorem lookup_putList (name : String) (value : α) (other : String) :
    ∀ l : List (String × α),
      (putList name value l).lookup other = if other = name then some value else l.lookup other
  | [] => by
    by_cases h : other = name
    · simp [putList, h]
    · have hb : (other == name) = false := by simpa using h
      simp [putList, List.lookup_cons, hb, h]
  | (n, v) :: l => by
    have ih := lookup_putList name value other l
    by_cases hn : n = name
    · subst hn
      by_cases h : other = n
      · simp [putList, h]
      · have hb : (other == n) = false := by simpa using h
        simp [putList, List.lookup_cons, hb, h]
    · by_cases h : other = n
      · subst h
        simp [putList, hn]
      · have hb : (other == n) = false := by simpa using h
        simpa [putList, hn, List.lookup_cons, hb] using ih

theorem lookup_filter_ne (name other : String) :
    ∀ l : List (String × α),
      (l.filter fun p => p.1 != name).lookup other =
        if other = name then none else l.lookup other
  | [] => by simp
  | (n, v) :: l => by
    have ih := lookup_filter_ne name other l
    by_cases hn : n = name
    · subst hn
      by_cases h : other = n
      · simpa [h] using ih
      · have hb : (other == n) = false := by simpa using h
        simpa [List.lookup_cons, hb, h] using ih
    · by_cases h : other = n
      · subst h
        simp [hn]
      · have hb : (other == n) = false := by simpa using h
        simpa [hn, List.lookup_cons, hb] using ih

theorem lookup_map (f : α → β) (name : String) :
    ∀ l : List (String × α),
      (l.map fun p => (p.1, f p.2)).lookup name = (l.lookup name).map f
  | [] => rfl
  | (n, v) :: l => by
    by_cases h : name = n
    · subst h
      simp
    · have hb : (name == n) = false := by simpa using h
      simpa [List.lookup_cons, hb] using lookup_map f name l

/-! ## Maps -/

@[simp]
theorem get?_empty (name : String) : (empty : NameMap α).get? name = none := rfl

@[simp]
theorem names_empty : (empty : NameMap α).names = [] := rfl

theorem get?_insert (m : NameMap α) (name : String) (value : α) (other : String) :
    (m.insert name value).get? other = if other = name then some value else m.get? other :=
  lookup_putList name value other m.toList

@[simp]
theorem get?_insert_self (m : NameMap α) (name : String) (value : α) :
    (m.insert name value).get? name = some value := by
  simp [get?_insert]

theorem get?_insert_of_ne (m : NameMap α) {name other : String} (value : α) (h : other ≠ name) :
    (m.insert name value).get? other = m.get? other := by
  simp [get?_insert, h]

theorem get?_erase (m : NameMap α) (name other : String) :
    (m.erase name).get? other = if other = name then none else m.get? other :=
  lookup_filter_ne name other m.toList

theorem get?_of_get?_erase {m : NameMap α} {name other : String} {value : α}
    (h : (m.erase name).get? other = some value) : m.get? other = some value := by
  rw [get?_erase] at h
  split at h
  · cases h
  · exact h

theorem get?_map (m : NameMap α) (f : α → β) (name : String) :
    (m.map f).get? name = (m.get? name).map f :=
  lookup_map f name m.toList

@[simp]
theorem names_map (m : NameMap α) (f : α → β) : (m.map f).names = m.names := by
  simp [names, map, List.map_map, Function.comp_def]

theorem nodup_names (m : NameMap α) : m.names.Nodup := m.nodup

theorem contains_iff_get? {m : NameMap α} {name : String} :
    m.contains name = true ↔ ∃ value, m.get? name = some value :=
  Option.isSome_iff_exists

/-- A name has a value exactly if it is one of the names. -/
theorem contains_iff_mem_names {m : NameMap α} {name : String} :
    m.contains name = true ↔ name ∈ m.names := by
  rw [contains_iff_get?]
  constructor
  · rintro ⟨value, h⟩
    exact List.mem_map.mpr ⟨_, mem_of_lookup h, rfl⟩
  · intro h
    obtain ⟨⟨n, value⟩, hmem, rfl⟩ := List.mem_map.mp h
    exact ⟨value, lookup_of_mem m.nodup hmem⟩

theorem mem_names_of_get? {m : NameMap α} {name : String} {value : α}
    (h : m.get? name = some value) : name ∈ m.names :=
  contains_iff_mem_names.mp (contains_iff_get?.mpr ⟨value, h⟩)

theorem get?_of_mem_names {m : NameMap α} {name : String} (h : name ∈ m.names) :
    ∃ value, m.get? name = some value :=
  contains_iff_get?.mp (contains_iff_mem_names.mpr h)

/-- The pairs of a map are what its lookup finds. -/
theorem mem_toList_iff {m : NameMap α} {name : String} {value : α} :
    (name, value) ∈ m.toList ↔ m.get? name = some value :=
  ⟨lookup_of_mem m.nodup, mem_of_lookup⟩

theorem contains_insert (m : NameMap α) (name : String) (value : α) (other : String) :
    (m.insert name value).contains other = (other == name || m.contains other) := by
  unfold contains
  rw [get?_insert]
  by_cases h : other = name <;> simp [h]

theorem length_names (m : NameMap α) : m.names.length = m.size := by
  simp [names, size]

theorem names_insert_of_mem {m : NameMap α} {name : String} (value : α) (h : name ∈ m.names) :
    (m.insert name value).names = m.names := by
  rw [names_insert, if_pos h]

/-- Of the pairs put under a name, the last is found. -/
theorem get?_ofList (l : List (String × α)) (name : String) :
    (ofList l).get? name = l.reverse.lookup name := by
  induction l using List.reverseRecOn with
  | nil => rfl
  | append_singleton l p ih =>
    have hlast : ofList (l ++ [p]) = (ofList l).insert p.1 p.2 := by
      rw [ofList, List.foldl_append]
      rfl
    rw [hlast, get?_insert, ih, List.reverse_append, List.reverse_singleton, List.singleton_append,
      List.lookup_cons]
    by_cases h : name = p.1
    · simp [h]
    · have hb : (name == p.1) = false := by simpa using h
      rw [if_neg h, hb]

end Formulary.NameMap
