import Formulary.Proofs.Entry.Build
import Formulary.Proofs.Key.Grammar
import Formulary.Registry.Basic

/-!
What a key that has been read looks like.

Without its blanks and without what follows the first bracket, such a key is the name alone, or the
name followed by its arguments in parentheses. So an entry is found under the key that it was set
with.
-/

namespace Formulary

variable {s t : List Char} {c : Char}

/-! ## Without blanks and annotation -/

/-- The text up to the first bracket, without blanks. -/
def squeeze (s : List Char) : List Char := (s.takeWhile (· != '[')).filter (!isBlank ·)

theorem squeeze_append (hs : '[' ∉ s) : squeeze (s ++ t) = s.filter (!isBlank ·) ++ squeeze t := by
  unfold squeeze
  rw [List.takeWhile_append_of_pos, List.filter_append]
  exact fun d hd => by
    simp only [bne_iff_ne, ne_eq]
    rintro rfl
    exact hs hd

theorem squeeze_bracket : squeeze ('[' :: s) = [] := rfl

theorem filter_of_allBlank (hs : allBlank s = true) : s.filter (!isBlank ·) = [] := by
  simpa [allBlank] using hs

theorem squeeze_of_allBlank (hs : allBlank s = true) : squeeze s = [] := by
  have h := squeeze_append (t := []) (not_mem_of_allBlank hs (c := '[') (by decide))
  rwa [List.append_nil, filter_of_allBlank hs] at h

/-- Blanks do not show. -/
theorem squeeze_blanks (hs : allBlank s = true) : squeeze (s ++ t) = squeeze t := by
  rw [squeeze_append (not_mem_of_allBlank hs (by decide)), filter_of_allBlank hs, List.nil_append]

/-- A name has no blanks. -/
theorem filter_of_name (h : isIdentifier s = true) : s.filter (!isBlank ·) = s :=
  List.filter_eq_self.mpr fun d hd => by simp [not_blank_of_name h d hd]

namespace Key

variable {name : String} {args : List String}

theorem Padded.filter (h : Padded name s) : s.filter (!isBlank ·) = name.toList := by
  obtain ⟨hname, w, v, rfl, hw, hv⟩ := h
  simp [filter_of_allBlank hw, filter_of_allBlank hv, filter_of_name hname]

/-- The arguments of a key are what stands between its parentheses, but for blanks. -/
theorem ListsArguments.filter (h : ListsArguments s args) :
    s.filter (!isBlank ·) = (joinWith "," args).toList := by
  cases h with
  | none hs => exact filter_of_allBlank hs
  | @names parts _ hne hnodup hnames =>
    have hparts : parts.map (List.filter (!isBlank ·)) = args.map String.toList := by
      clear hne hnodup
      induction hnames with
      | nil => rfl
      | cons hname _ ih => rw [List.map_cons, List.map_cons, ih, hname.filter]
    rw [filter_intercalate (by decide), toList_joinWith, hparts]
    rfl

/-- The arguments of a key are names. -/
theorem ListsArguments.isIdentifier (h : ListsArguments s args) :
    ∀ p ∈ args, isIdentifier p.toList = true := by
  cases h with
  | none => simp
  | names hne hnodup hnames =>
    clear hne hnodup
    induction hnames with
    | nil => simp
    | cons hname _ ih => exact List.forall_mem_cons.mpr ⟨hname.isIdentifier, ih⟩

/-- Without blanks and annotation, a key is its name, followed by its arguments if it lists them. -/
theorem Spelled.squeeze {k : Key} (h : Spelled s k) :
    squeeze s = (k.signatureKey.getD k.name).toList := by
  obtain ⟨name, names, annotation⟩ := k
  obtain ⟨hname, args, units, @⟨w₁, w₂, w₃, w₄, h₁, h₂, h₃, h₄⟩, hargs, -⟩ := h
  -- nothing is left of the annotation
  have hrest : Formulary.squeeze (w₃ ++ (delimited '[' ']' units ++ w₄)) = [] := by
    rw [squeeze_blanks h₃]
    cases units with
    | none => exact squeeze_of_allBlank h₄
    | some inside => exact squeeze_bracket
  rw [squeeze_blanks h₁, squeeze_append (not_mem_of_name hname (by decide)), filter_of_name hname,
    squeeze_blanks h₂]
  cases hargs with
  | none => simp [hrest, signatureKey]
  | @some inside names hlists =>
    have hbracket : '[' ∉ inside := hlists.not_mem (by decide) (by decide) (by decide)
    have hopen : isBlank '(' = false := by decide
    have hclose : isBlank ')' = false := by decide
    rw [delimited_some, squeeze_append (by simpa using hbracket), hrest]
    simp [signatureKey, hlists.filter, hopen, hclose]

/-- A key can be looked up as it was written. -/
theorem plainKey_of_read {text : String} {k : Key} (h : Key.read text = .ok k) :
    Registry.plainKey text = k.signatureKey.getD k.name := by
  rw [Registry.plainKey]
  exact (congrArg String.ofList (spelled_of_read h).squeeze).trans String.ofList_toList

theorem Written.isIdentifier {k : Key} (h : k.Written) : isIdentifier k.name.toList = true := by
  obtain ⟨text, h⟩ := h
  exact (spelled_of_read h).isIdentifier

end Key

end Formulary
