import Formulary.Proofs.Term.Printing
import Mathlib.Data.List.Induction

/-!
When the text of a layout is read as the expression that the layout stands for.

It is exactly when no sum is subtracted in it. As read, no right operand of a sum or difference is
itself one (`Expr.GroupsLeft`), since a sum printed in its place has no parentheses. What the layout
stands for has such an operand wherever a sum is subtracted.
-/

namespace Formulary

namespace Expr

/-- The expression is a sum or a difference. -/
def isSum : Expr → Bool
  | .binary .add .. | .binary .sub .. => true
  | _ => false

mutual

/-- No right operand of a sum or difference is itself one. -/
def GroupsLeft : Expr → Prop
  | .number _ | .symbol _ => True
  | .binary op l r =>
    GroupsLeft l ∧ GroupsLeft r ∧ (op = .add ∨ op = .sub → r.isSum = false)
  | .neg e => GroupsLeft e
  | .call _ args => GroupsLeftAll args

/-- Several expressions group to the left. -/
def GroupsLeftAll : List Expr → Prop
  | [] => True
  | e :: es => GroupsLeft e ∧ GroupsLeftAll es

end

variable {a : Expr} {as bs es : List Expr}

theorem groupsLeftAll_iff : GroupsLeftAll es ↔ ∀ e ∈ es, e.GroupsLeft := by
  induction es with
  | nil => simp [GroupsLeftAll]
  | cons e es ih => simp [GroupsLeftAll, ih]

theorem groupsLeft_foldl_mul :
    (es.foldl (.binary .mul) a).GroupsLeft ↔ a.GroupsLeft ∧ ∀ e ∈ es, e.GroupsLeft := by
  induction es generalizing a with
  | nil => simp
  | cons e es ih => simp [ih, GroupsLeft, and_assoc]

theorem isSum_foldl_mul (h : a.isSum = false) : (es.foldl (.binary .mul) a).isSum = false := by
  induction es generalizing a with
  | nil => exact h
  | cons e es ih => exact ih rfl

theorem numberExpr_groupsLeft (q : Rat) : (numberExpr q).GroupsLeft ∧ (numberExpr q).isSum = false := by
  unfold numberExpr
  dsimp only
  split <;> split <;> simp [GroupsLeft, isSum]

/-- A number in front of a list of operands. -/
theorem forall_mem_coefficient (c : Prop) [Decidable c] (n : Nat) (es : List Expr) :
    (∀ e ∈ (if c then .number n :: es else es), e.GroupsLeft) ↔ ∀ e ∈ es, e.GroupsLeft := by
  split <;> simp [GroupsLeft]

/-- A product is no sum, unless it is a sum alone. -/
theorem productExpr_isSum {negative : Bool} {top bottom : Nat}
    (h : negative = false → top = 1 → bottom = 1 → bs = [] → as.length ≠ 1) :
    (Layout.productExpr negative top bottom as bs).isSum = false := by
  unfold Layout.productExpr
  dsimp only
  split
  · rename_i hbelow
    obtain ⟨rfl, rfl⟩ : bottom = 1 ∧ bs = [] := by
      split at hbelow
      · cases hbelow
      · exact ⟨by simp_all, hbelow⟩
    split
    · rfl
    · rename_i a r habove
      cases negative with
      | true => exact isSum_foldl_mul rfl
      | false =>
        cases r with
        | cons e r => exact isSum_foldl_mul (a := .binary .mul a e) rfl
        | nil =>
          split at habove
          · rw [← (List.cons.inj habove).1]
            rfl
          · rename_i htop
            have htop : top = 1 := by simp_all
            exact absurd (habove ▸ rfl) (h rfl htop rfl rfl)
  · rfl

theorem productExpr_groupsLeft (negative : Bool) (top bottom : Nat) :
    (Layout.productExpr negative top bottom as bs).GroupsLeft ↔
      (∀ e ∈ as, e.GroupsLeft) ∧ ∀ e ∈ bs, e.GroupsLeft := by
  rw [← forall_mem_coefficient (top != 1 || as.isEmpty) top as,
    ← forall_mem_coefficient (bottom != 1) bottom bs]
  unfold Layout.productExpr
  dsimp only
  generalize (if top != 1 || as.isEmpty then _ else as) = above
  generalize (if bottom != 1 then _ else bs) = below
  cases above <;> cases below <;> cases negative <;> simp [GroupsLeft, groupsLeft_foldl_mul]

/-! ### Sums -/

variable {ps : List (Bool × Expr)} {p : Bool × Expr} {b : Bool}

theorem isSum_chainSum (h : ps ≠ []) : (chainSum (p :: ps)).isSum = true := by
  obtain ⟨init, q, rfl⟩ : ∃ init q, ps = init ++ [q] :=
    ⟨ps.dropLast, ps.getLast h, (List.dropLast_concat_getLast h).symm⟩
  rw [← List.cons_append, SumChain.chainSum_snoc (by simp)]
  cases q.1 <;> rfl

theorem groupsLeft_chainSum :
    (chainSum (p :: ps)).GroupsLeft ↔
      p.2.GroupsLeft ∧ ∀ q ∈ ps, q.2.GroupsLeft ∧ q.2.isSum = false := by
  induction ps using List.reverseRecOn with
  | nil => simp [chainSum]
  | append_singleton ps q ih =>
    rw [← List.cons_append, SumChain.chainSum_snoc (by simp)]
    have hop : (if q.1 then BinaryOp.sub else .add) = .add ∨
        (if q.1 then BinaryOp.sub else .add) = .sub := by
      cases q.1 <;> simp
    rw [GroupsLeft, ih, List.forall_mem_append, List.forall_mem_singleton, and_assoc]
    simp only [hop, true_imp_iff]

theorem forall_mem_withSign {P : Expr → Prop} :
    (∀ q ∈ withSign b ps, P q.2) ↔ ∀ q ∈ ps, P q.2 := by
  cases ps <;> simp [withSign]

end Expr

namespace Layout

mutual

/-- No term that is a sum is subtracted, at any depth. -/
def SubtractsNoSum : Layout → Prop
  | .number _ | .constant _ | .name _ => True
  | .builtin _ args | .apply _ args => SubtractsNoSumAll args
  | .sum ts => SubtractsNoSumTerms ts
  | .product _ _ _ above below => SubtractsNoSumAll above ∧ SubtractsNoSumAll below
  | .sqrt r => SubtractsNoSum r
  | .reciprocal d => SubtractsNoSum d
  | .power b e => SubtractsNoSum b ∧ SubtractsNoSum e

/-- No sum is subtracted in several layouts. -/
def SubtractsNoSumAll : List Layout → Prop
  | [] => True
  | l :: ls => SubtractsNoSum l ∧ SubtractsNoSumAll ls

/-- No sum is subtracted among the terms of a sum, nor within them. -/
def SubtractsNoSumTerms : List (Bool × Layout) → Prop
  | [] => True
  | (subtracted, l) :: ts =>
    (subtracted = true → l.isSum = false) ∧ SubtractsNoSum l ∧ SubtractsNoSumTerms ts

end

variable {loose : Bool} {l : Layout}

theorem isSum_expr (h : l.WellFormed) (hl : l.isSum = false) : (l.expr loose).isSum = false := by
  cases l with
  | sum ts => cases hl
  | number q => exact (Expr.numberExpr_groupsLeft q).2
  | product negative top bottom above below =>
    refine Expr.productExpr_isSum fun hn ht hb hbelow => ?_
    rw [exprs_eq_map, List.map_eq_nil_iff] at hbelow
    rw [exprs_eq_map, List.length_map]
    exact h.2.2.2 hn ht hb hbelow
  | _ => rfl

/-- The terms group to the left, and none of them is a sum. -/
def Flat (ps : List (Bool × Expr)) : Prop := ∀ p ∈ ps, p.2.GroupsLeft ∧ p.2.isSum = false

theorem groupsLeft_expr_iff (h : l.WellFormed) :
    (l.expr loose).GroupsLeft ↔ Flat (l.summed loose) := by
  obtain ⟨k, as, hwf, hk, hl⟩ := summed_eq_cons loose l h
  have hfirst : (k.expr loose).isSum = false := isSum_expr hwf hk
  rw [expr_eq_chainSum, hl, Expr.groupsLeft_chainSum, Flat, List.forall_mem_cons]
  simp only [hfirst, and_true]

theorem addends_ne_nil {p : Bool × Layout} {ts : List (Bool × Layout)}
    (h : WellFormedTerms (p :: ts)) : addends loose (p :: ts) ≠ [] := by
  obtain ⟨k, as, -, -, hl⟩ := summed_eq_cons loose p.2 h.1
  rw [addends_cons, hl]
  split <;> simp [withSign]

/-- A sum stands for a sum. -/
theorem isSum_expr_sum {ts : List (Bool × Layout)} (h : (Layout.sum ts).WellFormed) :
    ((Layout.sum ts).expr loose).isSum = true := by
  obtain ⟨⟨l, p, rest, rfl⟩, hl, hrest⟩ := h
  obtain ⟨k, as, -, -, hk⟩ := summed_eq_cons loose l hl
  have hne : addends loose (p :: rest) ≠ [] := addends_ne_nil hrest
  rw [expr, addends_cons, hk]
  simp only [Bool.false_and, Bool.false_eq_true, if_false, withSign, List.cons_append]
  exact Expr.isSum_chainSum (by simp [hne])

mutual

/-- The expression of a layout groups to the left as it is read; as it stands, if no sum is
subtracted. -/
theorem groupsLeft_expr : ∀ l : Layout, l.WellFormed →
    ((l.expr loose).GroupsLeft ↔ (loose = false → l.SubtractsNoSum))
  | .number q, _ => by simp [expr, Expr.numberExpr_groupsLeft, SubtractsNoSum]
  | .constant _, _ | .name _, _ => by simp [expr, Expr.GroupsLeft, SubtractsNoSum]
  | .builtin f args, h => by
    rw [expr, Expr.GroupsLeft, Expr.groupsLeftAll_iff]
    exact groupsLeft_exprs args h
  | .apply x args, h => by
    rw [expr, Expr.GroupsLeft, Expr.groupsLeftAll_iff]
    exact groupsLeft_exprs args h.2
  | .sum ts, h => (groupsLeft_expr_iff h).trans (flat_addends ts h.2)
  | .product negative top bottom above below, h => by
    rw [expr, Expr.productExpr_groupsLeft, groupsLeft_exprs above h.1,
      groupsLeft_exprs below h.2.1, SubtractsNoSum, imp_and]
  | .sqrt r, h => by
    have hr := groupsLeft_expr r h
    simp [expr, Expr.GroupsLeft, Expr.GroupsLeftAll, SubtractsNoSum, hr]
  | .reciprocal d, h => by
    have hd := groupsLeft_expr d h
    simp [expr, Expr.GroupsLeft, SubtractsNoSum, hd]
  | .power b e, h => by
    have hb := groupsLeft_expr b h.1
    have he := groupsLeft_expr e h.2
    simp [expr, Expr.GroupsLeft, SubtractsNoSum, hb, he, imp_and]

theorem groupsLeft_exprs : ∀ ls : List Layout, WellFormedAll ls →
    ((∀ e ∈ exprs loose ls, e.GroupsLeft) ↔ (loose = false → SubtractsNoSumAll ls))
  | [], _ => by simp [exprs, SubtractsNoSumAll]
  | l :: ls, h => by
    rw [exprs, List.forall_mem_cons, groupsLeft_expr l h.1, groupsLeft_exprs ls h.2,
      SubtractsNoSumAll, imp_and]

theorem flat_addends : ∀ ts : List (Bool × Layout), WellFormedTerms ts →
    (Flat (addends loose ts) ↔ (loose = false → SubtractsNoSumTerms ts))
  | [], _ => by simp [addends, Flat, SubtractsNoSumTerms]
  | (b, l) :: ts, h => by
    have hl := groupsLeft_expr l h.1
    have hts := flat_addends ts h.2
    rw [addends_cons, Flat, List.forall_mem_append, SubtractsNoSumTerms, imp_and, imp_and]
    refine and_congr ?_ hts |>.trans (and_assoc ..)
    cases hkept : b && !loose && l.isSum with
    | true =>
      -- a subtracted sum that is kept is a right operand
      obtain ⟨⟨rfl, hloose⟩, hsum⟩ : (b = true ∧ loose = false) ∧ l.isSum = true := by
        simpa using hkept
      have hright : (l.expr loose).isSum = true := by
        cases l with
        | sum us => exact isSum_expr_sum h.1
        | _ => cases hsum
      rw [hloose] at hright ⊢
      simp [hright, hsum]
    | false =>
      have hspliced : loose = false → b = true → l.isSum = false := by
        rintro rfl rfl
        simpa using hkept
      simp only [Bool.false_eq_true, if_false]
      rw [Expr.forall_mem_withSign (P := fun e => e.GroupsLeft ∧ e.isSum = false)]
      constructor
      · exact fun hflat => ⟨hspliced, hl.mp ((groupsLeft_expr_iff h.1).mpr hflat)⟩
      · exact fun hboth => (groupsLeft_expr_iff h.1).mp (hl.mpr hboth.2)

end

mutual

/-- Where no sum is subtracted, a layout is read as what it stands for. -/
theorem expr_eq : ∀ l : Layout, l.SubtractsNoSum → l.expr true = l.expr false
  | .number _, _ | .constant _, _ | .name _, _ => rfl
  | .builtin f args, h => by rw [expr, expr, exprs_eq args h]
  | .apply x args, h => by rw [expr, expr, exprs_eq args h]
  | .sum ts, h => by rw [expr, expr, addends_eq ts h]
  | .product negative top bottom above below, h => by
    rw [expr, expr, exprs_eq above h.1, exprs_eq below h.2]
  | .sqrt r, h => by rw [expr, expr, expr_eq r h]
  | .reciprocal d, h => by rw [expr, expr, expr_eq d h]
  | .power b e, h => by rw [expr, expr, expr_eq b h.1, expr_eq e h.2]

theorem exprs_eq : ∀ ls : List Layout, SubtractsNoSumAll ls → exprs true ls = exprs false ls
  | [], _ => rfl
  | l :: ls, h => by rw [exprs, exprs, expr_eq l h.1, exprs_eq ls h.2]

theorem addends_eq : ∀ ts : List (Bool × Layout), SubtractsNoSumTerms ts →
    addends true ts = addends false ts
  | [], _ => rfl
  | (b, .sum us) :: ts, h => by
    have hadded : b = false := by
      cases b with
      | false => rfl
      | true => exact absurd (h.1 rfl) (by simp [isSum])
    have hus : SubtractsNoSumTerms us := h.2.1
    simp [addends, hadded, addends_eq us hus, addends_eq ts h.2.2]
  | (b, .number _) :: ts, h | (b, .constant _) :: ts, h | (b, .name _) :: ts, h
  | (b, .builtin ..) :: ts, h | (b, .apply ..) :: ts, h | (b, .product ..) :: ts, h
  | (b, .sqrt _) :: ts, h | (b, .reciprocal _) :: ts, h | (b, .power ..) :: ts, h => by
    rw [addends, addends, expr_eq _ h.2.1, addends_eq ts h.2.2] <;> simp

end

/-- A layout is read as what it stands for exactly if no sum is subtracted in it. -/
theorem expr_eq_iff (h : l.WellFormed) : l.expr true = l.expr false ↔ l.SubtractsNoSum := by
  constructor
  · intro heq
    have hread : (l.expr true).GroupsLeft := (groupsLeft_expr l h).mpr nofun
    rw [heq] at hread
    exact (groupsLeft_expr l h).mp hread rfl
  · exact expr_eq l

end Layout

end Formulary
