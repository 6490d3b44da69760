import Formulary.Expr.Reader

/-!
Scanning text with parentheses.

The reader of expressions cuts text at characters outside all parentheses. `Passes` says that such a
scan goes over a piece of text without cutting it; pieces that pass one after the other pass
together, and a balanced piece passes at any depth below the outermost. `cutTop_chain` is what all
levels of the reader come down to: pieces with separators between them are cut at just these.
-/

namespace Formulary

/-! ## Balanced text -/

/-- Every parenthesis in the text has its partner. -/
inductive Balanced : List Char → Prop where
  | nil : Balanced []
  | char {c : Char} {s : List Char} (hopen : c ≠ '(') (hclose : c ≠ ')') (h : Balanced s) :
    Balanced (c :: s)
  | group {s t : List Char} (hs : Balanced s) (ht : Balanced t) : Balanced ('(' :: (s ++ ')' :: t))

variable {s t : List Char}

theorem Balanced.append (hs : Balanced s) (ht : Balanced t) : Balanced (s ++ t) := by
  induction hs with
  | nil => simpa using ht
  | char hopen hclose _ ih => exact .char hopen hclose ih
  | group hs _ _ ih => simpa using Balanced.group hs ih

theorem balanced_of_forall : ∀ {s : List Char}, (∀ c ∈ s, c ≠ '(' ∧ c ≠ ')') → Balanced s
  | [], _ => .nil
  | c :: s, h => by
      have hc := h c (by simp)
      exact .char hc.1 hc.2 (balanced_of_forall fun d hd => h d (by simp [hd]))

theorem Balanced.parens (h : Balanced s) : Balanced ('(' :: (s ++ [')'])) := .group h .nil

namespace Expr

/-- Balanced text does not change the depth. -/
theorem closingDepth_append (h : Balanced s) :
    ∀ (depth : Nat) (r : List Char), closingDepth depth (s ++ r) = closingDepth depth r := by
  induction h with
  | nil => intro depth r; rfl
  | @char c s hopen hclose _ ih =>
    intro depth r
    rw [List.cons_append, closingDepth.eq_def]
    split
    · simp_all
    · simp_all
    · simp_all
    · simp_all
    · rename_i heq
      obtain ⟨rfl, rfl⟩ := List.cons.inj heq
      exact ih _ r
  | group _ _ ihs iht =>
    intro depth r
    simp only [List.cons_append, List.append_assoc, closingDepth, ihs, iht]

/-- What closes a group comes after all of a balanced text. -/
theorem cutClose_append (h : Balanced s) :
    ∀ (depth : Nat) (r : List Char),
      cutClose depth (s ++ r) = (cutClose depth r).map fun (a, b) => (s ++ a, b) := by
  induction h with
  | nil => intro depth r; simp
  | @char c s hopen hclose _ ih =>
    intro depth r
    rw [List.cons_append, cutClose.eq_def]
    split
    · simp_all
    · simp_all
    · simp_all
    · simp_all
    · rename_i heq
      obtain ⟨rfl, rfl⟩ := List.cons.inj heq
      rw [ih, Option.map_map]
      rfl
  | group _ _ ihs iht =>
    intro depth r
    simp only [List.cons_append, List.append_assoc, cutClose, ihs, iht, Option.map_map,
      Function.comp_def]

/-- The group that starts here ends at the parenthesis after the balanced text. -/
theorem cutClose_group (h : Balanced s) (r : List Char) :
    cutClose 0 (s ++ ')' :: r) = some (s, r) := by
  rw [cutClose_append h]
  simp [cutClose]

end Expr

/-! ## Passing over text -/

section Passing

variable {separates : List Char → Char → Bool}

/-- The scan at the given depth goes over the text without cutting it, and ends at the same depth. -/
def Passes (separates : List Char → Char → Bool) (depth : Int) (passed s : List Char) : Prop :=
  ∀ r, cutTop separates passed depth (s ++ r) =
    (s ++ (cutTop separates (s.reverse ++ passed) depth r).1,
      (cutTop separates (s.reverse ++ passed) depth r).2)

theorem Passes.nil {depth : Int} {passed : List Char} : Passes separates depth passed [] := by
  intro r
  simp

theorem Passes.append {depth : Int} {passed : List Char} (hs : Passes separates depth passed s)
    (ht : Passes separates depth (s.reverse ++ passed) t) :
    Passes separates depth passed (s ++ t) := by
  intro r
  rw [List.append_assoc, hs, ht]
  simp

theorem cutTop_open (depth : Int) (passed r : List Char) :
    cutTop separates passed depth ('(' :: r) =
      ('(' :: (cutTop separates ('(' :: passed) (depth + 1) r).1,
        (cutTop separates ('(' :: passed) (depth + 1) r).2) := by
  simp [cutTop, depthStep]

theorem cutTop_close (depth : Int) (passed r : List Char) :
    cutTop separates passed (depth + 1) (')' :: r) =
      (')' :: (cutTop separates (')' :: passed) depth r).1,
        (cutTop separates (')' :: passed) depth r).2) := by
  have hstep : depth + 1 + -1 = depth := by omega
  simp [cutTop, depthStep, hstep]

/-- A character that is no parenthesis and no separator here. -/
theorem Passes.char {depth : Int} {passed : List Char} {c : Char} (hopen : c ≠ '(')
    (hclose : c ≠ ')') (h : depth = 0 → separates passed c = false)
    (hs : Passes separates depth (c :: passed) s) : Passes separates depth passed (c :: s) := by
  intro r
  have hcut : (decide (depth = 0) && c != '(' && c != ')' && separates passed c) = false := by
    by_cases hd : depth = 0
    · simp [h hd]
    · simp [hd]
  have hstep : depth + depthStep c = depth := by simp [depthStep, hopen, hclose]
  rw [List.cons_append, cutTop, hstep, hs r, hcut]
  simp

theorem passes_of_forall {depth : Int} :
    ∀ {s : List Char} {passed : List Char},
      (∀ c ∈ s, c ≠ '(' ∧ c ≠ ')' ∧ ∀ before, separates before c = false) →
        Passes separates depth passed s
  | [], _, _ => .nil
  | c :: s, passed, h => by
      obtain ⟨hopen, hclose, hc⟩ := h c (by simp)
      exact .char hopen hclose (fun _ => hc passed)
        (passes_of_forall fun d hd => h d (by simp [hd]))

/-- Below the outermost level nothing is cut. -/
theorem Balanced.passes (h : Balanced s) :
    ∀ {depth : Int} {passed : List Char}, 0 < depth → Passes separates depth passed s := by
  induction h with
  | nil => exact fun _ => .nil
  | char hopen hclose _ ih =>
    intro depth passed hd
    exact .char hopen hclose (fun h0 => by omega) (ih hd)
  | @group s t _ _ ihs iht =>
    intro depth passed hd r
    have hs : Passes separates (depth + 1) ('(' :: passed) s := ihs (by omega)
    have ht : Passes separates depth (')' :: (s.reverse ++ '(' :: passed)) t := iht hd
    rw [List.cons_append, List.append_assoc, List.cons_append, cutTop_open, hs, cutTop_close, ht]
    simp

/-- A group passes at the outermost level. -/
theorem Balanced.passes_parens (h : Balanced s) {passed : List Char} :
    Passes separates 0 passed ('(' :: (s ++ [')'])) := by
  intro r
  have hs : Passes separates (0 + 1) ('(' :: passed) s := h.passes (by omega)
  rw [List.cons_append, List.append_assoc, List.cons_append, cutTop_open, hs, cutTop_close]
  simp

/-! ## Chains -/

/-- Started where `start` holds, the scan passes over the text and ends where `finish` holds. -/
def Spans (separates : List Char → Char → Bool) (start finish : List Char → Prop)
    (s : List Char) : Prop :=
  ∀ passed, start passed → Passes separates 0 passed s ∧ finish (s.reverse ++ passed)

/-- Pieces with separators in front. -/
def chainText (pieces : List (Char × List Char)) : List Char :=
  pieces.flatMap fun p => p.1 :: p.2

/-- The separator is no parenthesis, separates where a piece ends, and a piece may start after it. -/
structure Joins (separates : List Char → Char → Bool) (start finish : List Char → Prop)
    (c : Char) : Prop where
  not_open : c ≠ '('
  not_close : c ≠ ')'
  separates : ∀ passed, finish passed → separates passed c = true
  start : ∀ passed, start (c :: passed)

/-- A chain is cut into its pieces. -/
theorem cutTop_chain {start finish : List Char → Prop} :
    ∀ {pieces : List (Char × List Char)} {s passed : List Char},
      start passed → Spans separates start finish s →
      (∀ p ∈ pieces, Joins separates start finish p.1 ∧ Spans separates start finish p.2) →
        cutTop separates passed 0 (s ++ chainText pieces) = (s, pieces)
  | [], s, passed, hstart, hs, _ => by
      rw [(hs passed hstart).1]
      simp [chainText, cutTop]
  | (c, t) :: pieces, s, passed, hstart, hs, hp => by
      obtain ⟨hc, ht⟩ := hp (c, t) (by simp)
      have hrest := cutTop_chain (hc.start (s.reverse ++ passed)) ht
        fun p hp' => hp p (List.mem_cons_of_mem _ hp')
      have hstep : depthStep c = 0 := by simp [depthStep, hc.not_open, hc.not_close]
      have hcut := hc.separates _ (hs passed hstart).2
      rw [(hs passed hstart).1, chainText, List.flatMap_cons, List.cons_append, cutTop]
      rw [chainText] at hrest
      simp [hstep, hrest, hcut, hc.not_open, hc.not_close]

/-- A chain whose separators do not depend on what stands before them. -/
theorem cutTop_chain_of_passes {sep : Char → Bool} {pieces : List (Char × List Char)}
    {passed : List Char} (hs : ∀ passed, Passes (fun _ => sep) 0 passed s)
    (hp : ∀ p ∈ pieces, (p.1 ≠ '(' ∧ p.1 ≠ ')' ∧ sep p.1 = true) ∧
      ∀ passed, Passes (fun _ => sep) 0 passed p.2) :
    cutTop (fun _ => sep) passed 0 (s ++ chainText pieces) = (s, pieces) := by
  have hspans : ∀ {t}, (∀ passed, Passes (fun _ => sep) 0 passed t) →
      Spans (fun _ => sep) (fun _ => True) (fun _ => True) t :=
    fun ht passed _ => ⟨ht passed, trivial⟩
  refine cutTop_chain trivial (hspans hs) fun p hp' => ?_
  obtain ⟨⟨hopen, hclose, hsep⟩, ht⟩ := hp p hp'
  exact ⟨⟨hopen, hclose, fun _ _ => hsep, fun _ => trivial⟩, hspans ht⟩

end Passing

end Formulary
