import Formulary.Text.Cut
import Mathlib.Data.List.Forall2

/-!
Cutting text, and joining it.

`cutOnce` finds the first occurrence of a character; what stands before it does not hold the
character. `cutAll` cuts at each occurrence, and joining the parts again gives the text. What is taken
while a test holds ends where a text begins that stops it.
-/

namespace Formulary

variable {s t : List Char} {c : Char}

/-- A cut further on has the character that it passed in front. -/
theorem map_cons_eq_some {β : Type} {x : Option (List Char × β)} {a : List Char} {b : β} :
    (x.map fun (a, b) => (c :: a, b)) = some (a, b) ↔ ∃ a', x = some (a', b) ∧ a = c :: a' := by
  constructor
  · intro h
    obtain ⟨⟨a', b'⟩, hx, heq⟩ := Option.map_eq_some_iff.mp h
    cases heq
    exact ⟨a', hx, rfl⟩
  · rintro ⟨a', rfl, rfl⟩
    rfl

/-! ## At the first occurrence -/

theorem cutOnce_of_not_mem (h : ∀ d ∈ s, d ≠ c) : cutOnce c s = none := by
  induction s with
  | nil => rfl
  | cons d s ih => simp [cutOnce, h d (by simp), ih fun x hx => h x (by simp [hx])]

theorem cutOnce_append (h : ∀ d ∈ s, d ≠ c) : cutOnce c (s ++ c :: t) = some (s, t) := by
  induction s with
  | nil => simp [cutOnce]
  | cons d s ih => simp [cutOnce, h d (by simp), ih fun x hx => h x (by simp [hx])]

theorem cutOnce_eq_some {a b : List Char} (h : cutOnce c s = some (a, b)) :
    s = a ++ c :: b ∧ ∀ d ∈ a, d ≠ c := by
  induction s generalizing a with
  | nil => cases h
  | cons d s ih =>
    rw [cutOnce] at h
    split at h
    · rename_i hd
      cases h
      exact ⟨by rw [hd]; rfl, by simp⟩
    · rename_i hd
      obtain ⟨a, hs, rfl⟩ := map_cons_eq_some.mp h
      obtain ⟨rfl, ha⟩ := ih hs
      refine ⟨rfl, fun x hx => ?_⟩
      rcases List.mem_cons.mp hx with rfl | hx
      · exact hd
      · exact ha x hx

theorem cutOnce_eq_none (h : cutOnce c s = none) : ∀ d ∈ s, d ≠ c := by
  induction s with
  | nil => simp
  | cons d s ih =>
    rw [cutOnce] at h
    split at h
    · cases h
    · rename_i hd
      intro x hx
      rcases List.mem_cons.mp hx with rfl | hx
      · exact hd
      · exact ih (Option.map_eq_none_iff.mp h) x hx

/-! ## At each occurrence -/

/-- The library cuts in the same way. -/
theorem cutAll_eq_splitOn (c : Char) (s : List Char) : cutAll c s = s.splitOn c := by
  induction s with
  | nil => rfl
  | cons d s ih =>
    rw [cutAll, List.splitOn_eq_splitOnP, List.splitOnP_cons_eq_if_modifyHead,
      ← List.splitOn_eq_splitOnP, ← ih]
    cases hcut : cutAll c s with
    | nil => exact absurd (ih.symm.trans hcut) (List.splitOn_ne_nil c s)
    | cons p ps => simp

theorem cutAll_ne_nil (c : Char) (s : List Char) : cutAll c s ≠ [] := by
  rw [cutAll_eq_splitOn]
  exact List.splitOn_ne_nil c s

/-- The parts between commas, joined with commas, are the text. -/
theorem intercalate_cutAll (c : Char) (s : List Char) : List.intercalate [c] (cutAll c s) = s := by
  rw [cutAll_eq_splitOn]
  exact List.intercalate_splitOn c

/-- Parts without commas, joined with commas, are cut apart again. -/
theorem cutAll_intercalate {parts : List (List Char)} (h : ∀ part ∈ parts, c ∉ part)
    (hne : parts ≠ []) : cutAll c (List.intercalate [c] parts) = parts := by
  rw [cutAll_eq_splitOn]
  exact List.splitOn_intercalate c h hne

/-! ## Parts with separators between -/

theorem exists_of_forall₂ {α β : Type} {R : α → β → Prop} {xs : List α} {ys : List β}
    (h : List.Forall₂ R xs ys) {x : α} (hx : x ∈ xs) : ∃ y ∈ ys, R x y := by
  induction h with
  | nil => cases hx
  | @cons a b as bs hab _ ih =>
    rcases List.mem_cons.mp hx with rfl | hx
    · exact ⟨b, List.mem_cons_self, hab⟩
    · obtain ⟨y, hy, hxy⟩ := ih hx
      exact ⟨y, List.mem_cons_of_mem _ hy, hxy⟩

theorem mem_intercalate {d : Char} : ∀ {parts : List (List Char)},
    d ∈ List.intercalate [c] parts → d = c ∨ ∃ part ∈ parts, d ∈ part
  | [], hd => by simp at hd
  | [part], hd => .inr ⟨part, by simp, by simpa [List.intercalate_singleton] using hd⟩
  | part :: next :: parts, hd => by
    rw [List.intercalate_cons_cons, List.mem_append, List.mem_append] at hd
    rcases hd with (hd | hd) | hd
    · exact .inr ⟨part, by simp, hd⟩
    · exact .inl (List.mem_singleton.mp hd)
    · exact (mem_intercalate hd).imp_right fun ⟨q, hq, hd⟩ => ⟨q, List.mem_cons_of_mem _ hq, hd⟩

theorem filter_intercalate_sep (p : Char → Bool) (sep : List Char) : ∀ parts : List (List Char),
    (List.intercalate sep parts).filter p =
      List.intercalate (sep.filter p) (parts.map (List.filter p))
  | [] => rfl
  | [part] => by simp [List.intercalate_singleton]
  | part :: next :: parts => by
    have ih := filter_intercalate_sep p sep (next :: parts)
    rw [List.map_cons] at ih
    rw [List.intercalate_cons_cons, List.map_cons, List.map_cons, List.intercalate_cons_cons,
      List.filter_append, List.filter_append, ih]

theorem filter_intercalate {p : Char → Bool} (hp : p c = true) (parts : List (List Char)) :
    (List.intercalate [c] parts).filter p = List.intercalate [c] (parts.map (List.filter p)) := by
  rw [filter_intercalate_sep, List.filter_cons_of_pos hp, List.filter_nil]

theorem toList_joinWith (sep : String) : ∀ names : List String,
    (joinWith sep names).toList = List.intercalate sep.toList (names.map String.toList)
  | [] => rfl
  | [name] => by simp [joinWith, List.intercalate_singleton]
  | name :: next :: names => by
    rw [joinWith, String.toList_append, String.toList_append, toList_joinWith sep (next :: names),
      List.map_cons, List.map_cons, List.map_cons, List.intercalate_cons_cons]

/-! ## Where a test stops -/

/-- The text does not begin with a character that passes the test. -/
def Stops (p : Char → Bool) (t : List Char) : Prop := ∀ d ∈ t.head?, p d = false

section Stops

variable {p : Char → Bool}

theorem stops_nil : Stops p [] := by simp [Stops]

theorem stops_cons : Stops p (c :: t) ↔ p c = false := by simp [Stops]

theorem Stops.append (hs : Stops p s) (ht : Stops p t) : Stops p (s ++ t) := by
  cases s with
  | nil => exact ht
  | cons d s => exact stops_cons.mpr (stops_cons.mp hs)

theorem takeWhile_append_of_stops (hs : ∀ d ∈ s, p d = true) (ht : Stops p t) :
    (s ++ t).takeWhile p = s := by
  rw [List.takeWhile_append_of_pos hs]
  cases t with
  | nil => simp
  | cons d t => simp [stops_cons.mp ht]

theorem dropWhile_append_of_stops (hs : ∀ d ∈ s, p d = true) (ht : Stops p t) :
    (s ++ t).dropWhile p = t := by
  rw [List.dropWhile_append_of_pos hs]
  cases t with
  | nil => rfl
  | cons d t => simp [stops_cons.mp ht]

end Stops

end Formulary
