import Formulary.Proofs.PhysicalUnit.Symbol
import Mathlib.Tactic.FieldSimp
import Mathlib.Tactic.Linarith

/-!
Symbols of products.

A product writes its operands one after the other, with a star between them, and never puts
parentheses. So a divisor in the left symbol stands before what the right one starts with, up to its
first divisor, and divides by that too. The symbol denotes the product just if there is no such
divisor, or what it divides by is the unit of pure numbers.
-/

namespace Formulary

open Formulary.Except

namespace PhysicalUnit

variable {u v w : PhysicalUnit} {s t : List Char}

/-! ## The parts of a product -/

theorem symbol_multiply (h : u.multiply v = .ok w) : w.symbol = u.productSymbol v := by
  obtain ⟨_, -, h⟩ := bind_eq_ok.mp h
  cases h
  rfl

theorem toList_multiply (hu : u.isBare = false) (hv : v.isBare = false) (h : u.multiply v = .ok w) :
    w.symbol.toList = u.symbol.toList ++ '*' :: v.symbol.toList := by
  rw [symbol_multiply h, productSymbol, hu, hv]
  simp

/-- The extent of a factor, nothing if it is not read. -/
def factorExtent (p : List Char) : Nat :=
  match readPower readNested p with
  | .ok u => u.dimension.extent
  | .error _ => 0

/-- The exponents of all factors of the symbol, added up. -/
def spread (u : PhysicalUnit) : Nat :=
  (((partsTop ['/'] u.spelling).flatMap factors).map factorExtent).sum

theorem sum_factorExtent {ps : List (List Char)} {us : List PhysicalUnit}
    (h : List.Forall₂ (fun p u => readPower readNested p = .ok u) ps us) :
    (ps.map factorExtent).sum = extentOf us := by
  induction h with
  | nil => rfl
  | @cons p u ps us hu _ ih =>
    rw [List.map_cons, List.sum_cons, ih, factorExtent, hu]
    simp [extentOf]

theorem spread_eq {top : List PhysicalUnit} {divisors : List (List PhysicalUnit)}
    (h : Spells readNested u.spelling top divisors) :
    u.spread = extentOf top + extentOf divisors.flatten := by
  obtain ⟨p, ps, hparts, htop, hdivisors⟩ := h
  have hrest : ∀ {ps : List (List Char)} {divisors : List (List PhysicalUnit)},
      List.Forall₂ (fun q us => allBlank q = false ∧ Factored readNested q us) ps divisors →
      ((ps.flatMap factors).map factorExtent).sum = extentOf divisors.flatten := by
    intro ps divisors h
    induction h with
    | nil => rfl
    | @cons q us ps divisors hq _ ih =>
      rw [List.flatMap_cons, List.map_append, List.sum_append, ih, sum_factorExtent hq.2,
        List.flatten_cons, extentOf_append]
  rw [spread, hparts, List.flatMap_cons, List.map_append, List.sum_append, sum_factorExtent htop,
    hrest hdivisors]

/-- The symbol has a divisor outside all parentheses. -/
def divides (u : PhysicalUnit) : Bool := (partsTop ['/'] u.spelling).length != 1

/-- What the symbol starts with, up to its first divisor, denotes the unit of pure numbers. -/
def startsPure (u : PhysicalUnit) : Bool :=
  ((partsTop ['/'] u.spelling).head?.map fun p =>
    (readProduct readNested p).toOption.any isUnity).getD false

/-- No run of stars arises where the symbols meet, and the exponents of all factors leave room. -/
structure Joinable (u v : PhysicalUnit) : Prop where
  left : u.symbol.toList.getLast? ≠ some '*'
  right : v.symbol.toList.head? ≠ some '*'
  room : u.spread + v.spread ≤ Dimension.extentLimit

theorem trim_multiply (hu : trim u.symbol.toList = u.symbol.toList)
    (hv : trim v.symbol.toList = v.symbol.toList) (h : u.multiply v = .ok w) :
    trim w.symbol.toList = w.symbol.toList := by
  cases hubare : u.isBare with
  | true => rwa [symbol_multiply h, productSymbol, if_pos hubare]
  | false =>
    cases hvbare : v.isBare with
    | true => rwa [symbol_multiply h, productSymbol, hubare, if_neg (by decide), if_pos hvbare]
    | false =>
      rw [toList_multiply hubare hvbare h]
      exact trim_join (by decide) hu (symbol_of_not_isBare hubare).1 hv

/-- The factors on both sides of a star. -/
theorem factors_join {a b : List Char} (hbalanced : Balanced a) (ha : allBlank a = false)
    (hend : trimEnd a = a) (hstart : trimStart b = b) :
    factors (a ++ '*' :: b) = factors a ++ factors b := by
  have htrim : trim a = trimStart a := by
    have hsplit : a.takeWhile isBlank ++ trimStart a = a := List.takeWhile_append_dropWhile ..
    have happend : trimEnd (a.takeWhile isBlank ++ trimStart a) = _ :=
      trimEnd_append (by rwa [allBlank_trimStart])
    rw [hsplit, hend] at happend
    exact List.append_cancel_left (happend.symm.trans hsplit.symm)
  rw [factors, trim_append_cons (by decide) ha, ← htrim,
    partsTop_append_separator hbalanced.uncut.trim.balanced (by decide) (by decide) rfl,
    List.filter_append, factors, factors, trim, trim, hstart]

theorem exists_snoc_of_forall₂ {α β : Type} {R : α → β → Prop} {y : β} :
    ∀ {ys : List β} {xs : List α}, List.Forall₂ R xs (ys ++ [y]) →
      ∃ xs' x, xs = xs' ++ [x] ∧ List.Forall₂ R xs' ys ∧ R x y
  | [], xs, h => by
    obtain ⟨x, rest, hx, hrest, rfl⟩ := List.forall₂_cons_right_iff.mp h
    cases hrest
    exact ⟨[], x, rfl, .nil, hx⟩
  | z :: ys, xs, h => by
    obtain ⟨x, rest, hx, hrest, rfl⟩ := List.forall₂_cons_right_iff.mp h
    obtain ⟨xs', x', rfl, hxs, hx'⟩ := exists_snoc_of_forall₂ hrest
    exact ⟨x :: xs', x', rfl, .cons hx hxs, hx'⟩

/-- The first part of a text starts as the text does. -/
theorem trimStart_of_append (h : trimStart (s ++ t) = s ++ t) : trimStart s = s := by
  cases s with
  | nil => rfl
  | cons c s => exact trimStart_cons (not_blank_of_trimStart h)

theorem trimEnd_of_append (h : trimEnd (s ++ t) = s ++ t) (ht : allBlank t = false) : trimEnd t = t := by
  rw [trimEnd_append ht] at h
  exact List.append_cancel_left h

section Joining

variable {a b : List Char} {top top' last : List PhysicalUnit} {divisors divisors' : List (List PhysicalUnit)}

theorem partsTop_join {p : List Char} {ps : List (List Char)} (ha : Balanced a)
    (hb : partsTop ['/'] b = p :: ps) :
    partsTop ['/'] (a ++ '*' :: b) = glue (partsTop ['/'] a) (('*' :: p) :: ps) := by
  have hstar : Balanced ['*'] := .char (by decide) (by decide) .nil
  have hparts : partsTop ['/'] (['*'] ++ b) = ('*' :: p) :: ps := by
    rw [partsTop_append hstar, hb]
    rfl
  rw [partsTop_append ha]
  exact congrArg _ hparts

variable (ha : Balanced a) (hend : trimEnd a = a) (hstart : trimStart b = b)

include ha hend hstart

/-- A product with a symbol that has no divisor: the other one goes on from its factors. -/
theorem Spells.join (hblank : allBlank a = false) (hu : Spells readNested a top []) (hv : Spells readNested b top' divisors') :
    Spells readNested (a ++ '*' :: b) (top ++ top') divisors' := by
  obtain ⟨p, ps, hparts, htop, hdivisors⟩ := hu
  obtain ⟨q, qs, hparts', htop', hdivisors'⟩ := hv
  cases hdivisors
  obtain rfl := eq_of_partsTop hparts
  obtain ⟨t, ht⟩ := exists_append_of_partsTop hparts'
  have hq : trimStart q = q := trimStart_of_append (ht ▸ hstart)
  refine ⟨p ++ '*' :: q, qs, ?_, ?_, hdivisors'⟩
  · rw [partsTop_join ha hparts', hparts]
    rfl
  · rw [Factored, factors_join ha hblank hend hq]
    exact List.rel_append htop htop'

/-- A product with a symbol that has divisors: what the other one starts with joins the last of
them. -/
theorem Spells.join_divisor (hu : Spells readNested a top (divisors ++ [last]))
    (hv : Spells readNested b top' divisors') :
    Spells readNested (a ++ '*' :: b) top (divisors ++ (last ++ top') :: divisors') := by
  obtain ⟨p, ps, hparts, htop, hdivisors⟩ := hu
  obtain ⟨q, qs, hparts', htop', hdivisors'⟩ := hv
  obtain ⟨ps, y, rfl, hdivisors, hyblank, hy⟩ := exists_snoc_of_forall₂ hdivisors
  obtain ⟨t, ht⟩ := exists_append_of_partsTop hparts'
  have hq : trimStart q = q := trimStart_of_append (ht ▸ hstart)
  rw [← List.cons_append] at hparts
  obtain ⟨t', ht'⟩ := exists_append_of_partsTop_snoc hparts
  have hyend : trimEnd y = y := trimEnd_of_append (ht' ▸ hend) hyblank
  have hybalanced : Balanced y := 
    have hmem : y ∈ partsTop ['/'] a := by rw [hparts]; simp
    ha.of_mem_partsTop hmem
  refine ⟨p, ps ++ (y ++ '*' :: q) :: qs, ?_, htop, ?_⟩
  · rw [partsTop_join ha hparts', hparts, glue_snoc, List.cons_append]
  · refine List.rel_append hdivisors (.cons ⟨by rw [allBlank_append, hyblank, Bool.false_and], ?_⟩
      hdivisors')
    rw [Factored, factors_join hybalanced hyblank hyend hq]
    exact List.rel_append hy htop'

end Joining

/-! ## Values -/

theorem valueOf_pos {us : List PhysicalUnit} (h : ∀ u ∈ us, 0 < u.scale) : 0 < (valueOf us).2 := by
  induction us with
  | nil => exact one_pos
  | cons u us ih =>
    have heq : (valueOf (u :: us)).2 = u.scale * (valueOf us).2 := by
      rw [valueOf, List.map_cons, List.prod_cons]
      rfl
    rw [heq]
    exact mul_pos (h u List.mem_cons_self) (ih fun v hv => h v (List.mem_cons_of_mem _ hv))

theorem Factored.scale_pos {us : List PhysicalUnit} (h : Factored readNested s us) :
    ∀ u ∈ us, 0 < u.scale := fun _ hu => by
  obtain ⟨p, -, hp⟩ := exists_of_forall₂ h.flip hu
  exact invariant_pos.readPower (fun _ _ => invariant_pos.readNested) hp

theorem Spells.scale_pos {top : List PhysicalUnit} {divisors : List (List PhysicalUnit)}
    (h : Spells readNested s top divisors) :
    (∀ u ∈ top, 0 < u.scale) ∧ ∀ u ∈ divisors.flatten, 0 < u.scale := by
  obtain ⟨p, ps, -, htop, hdivisors⟩ := h
  refine ⟨htop.scale_pos, fun u hu => ?_⟩
  obtain ⟨us, hus, hu⟩ := List.mem_flatten.mp hu
  obtain ⟨q, -, -, hq⟩ := exists_of_forall₂ hdivisors.flip hus
  exact hq.scale_pos u hu

/-- What is moved below the line changes the value unless it is one. -/
theorem div_mul_displaced_iff {a b c d : Multiplicative (Fin 7 → ℝ) × ℚ} (ha : 0 < a.2) (hb : 0 < b.2)
    (hc : 0 < c.2) (hd : 0 < d.2) : a / (b * c * d) = a / b * (c / d) ↔ c = 1 := by
  constructor
  · intro h
    obtain ⟨hdimension, hscale⟩ := Prod.ext_iff.mp h
    refine Prod.ext ?_ ?_
    · funext i
      have hi := congrFun (congrArg Multiplicative.toAdd hdimension) i
      have hi : a.1.toAdd i - (b.1.toAdd i + c.1.toAdd i + d.1.toAdd i) =
          a.1.toAdd i - b.1.toAdd i + (c.1.toAdd i - d.1.toAdd i) := hi
      have hzero : c.1.toAdd i = 0 := by linarith
      exact hzero
    · have hscale : a.2 / (b.2 * c.2 * d.2) = a.2 / b.2 * (c.2 / d.2) := hscale
      field_simp at hscale
      have hsquare : c.2 * c.2 = 1 := by linarith
      have hone : c.2 = 1 := by nlinarith
      exact hone
  · rintro rfl
    rw [mul_one, div_mul_div_comm, mul_one]

/-! ## The symbol of a product -/

theorem trimStart_caretPowers (h : trimStart s = s) : trimStart (caretPowers s) = caretPowers s := by
  unfold caretPowers
  split
  · exact trimStart_cons (by decide)
  · exact trimStart_cons (not_blank_of_trimStart h)
  · rfl

theorem trimEnd_caretPowers (h : trimEnd s = s) (hstar : s.getLast? ≠ some '*') :
    trimEnd (caretPowers s) = caretPowers s := by
  rcases List.eq_nil_or_concat s with rfl | ⟨init, c, rfl⟩
  · rfl
  rw [List.concat_eq_append] at h hstar ⊢
  have hc : c ≠ '*' := by simpa using hstar
  have hblank : isBlank c = false := by
    rw [Bool.eq_false_iff]
    intro hblank
    rw [trimEnd_blanks (by simp [allBlank, hblank])] at h
    have hle := length_trimEnd_le init
    rw [h, List.length_append, List.length_singleton] at hle
    omega
  rw [caretPowers_append_cons hc]
  exact trimEnd_concat hblank

theorem caretPowers_ne_nil (h : s ≠ []) : caretPowers s ≠ [] := by
  unfold caretPowers
  split
  · exact List.cons_ne_nil _ _
  · exact List.cons_ne_nil _ _
  · exact absurd rfl h

theorem divides_iff {top : List PhysicalUnit} {divisors : List (List PhysicalUnit)}
    (h : Spells readNested u.spelling top divisors) : u.divides = false ↔ divisors = [] := by
  obtain ⟨p, ps, hparts, -, hdivisors⟩ := h
  rw [divides, hparts]
  cases hdivisors <;> simp

theorem startsPure_iff {top : List PhysicalUnit} {divisors : List (List PhysicalUnit)}
    (h : Spells readNested u.spelling top divisors) (hroom : extentOf top ≤ Dimension.extentLimit) :
    u.startsPure = true ↔ valueOf top = 1 := by
  obtain ⟨p, ps, hparts, htop, -⟩ := h
  obtain ⟨x, hx, hvalue, -⟩ := htop.exists_readProduct readNested_one hroom
  rw [startsPure, hparts, List.head?_cons, Option.map_some, Option.getD_some, hx, ← hvalue, ← isUnity_iff]
  simp [Except.toOption]

theorem Spelled.trimStart_spelling (h : u.Spelled) : trimStart u.spelling = u.spelling :=
  trimStart_caretPowers (trimStart_of_trim h.trimmed)

theorem Spelled.trimEnd_spelling (h : u.Spelled) (hstar : u.symbol.toList.getLast? ≠ some '*') :
    trimEnd u.spelling = u.spelling :=
  trimEnd_caretPowers (trimEnd_of_trim h.trimmed) hstar

theorem spelling_multiply (hubare : u.isBare = false) (hvbare : v.isBare = false)
    (hjoin : Joinable u v) (h : u.multiply v = .ok w) :
    w.spelling = u.spelling ++ '*' :: v.spelling := by
  rw [spelling, toList_multiply hubare hvbare h, caretPowers_append hjoin.left]
  exact congrArg _ (caretPowers_star hjoin.right)

/-- The symbol of a product is read. What it denotes is the product just if the left symbol has no
divisor, or what the right one starts with is the unit of pure numbers. -/
theorem Spelled.exists_product (hu : u.Spelled) (hv : v.Spelled) (hubare : u.isBare = false)
    (hvbare : v.isBare = false) (hjoin : Joinable u v) (h : u.multiply v = .ok w) :
    ∃ x, readQuotient readNested w.spelling = .ok x ∧
      (x.value = w.value ↔ u.divides = false ∨ v.startsPure = true) := by
  obtain ⟨top, divisors, hspells, huvalue⟩ := hu.exists_spells hubare
  obtain ⟨top', divisors', hspells', hvvalue⟩ := hv.exists_spells hvbare
  have hpos : ∀ s u, readNested s = .ok u → 0 < u.scale := fun _ _ => invariant_pos.readNested
  have hbalanced := (hu.enclosable hubare).balanced
  have hend := hu.trimEnd_spelling hjoin.left
  have hstart := hv.trimStart_spelling
  have hroom := hjoin.room
  rw [spread_eq hspells, spread_eq hspells'] at hroom
  have hone := startsPure_iff hspells' (by omega)
  rw [spelling_multiply hubare hvbare hjoin h, value_multiply h, huvalue, hvvalue]
  rcases List.eq_nil_or_concat divisors with rfl | ⟨divisors, last, rfl⟩
  · have hblank : allBlank u.spelling = false := allBlank_of_trim
      (by rw [trim, hu.trimStart_spelling, hend]) (caretPowers_ne_nil (symbol_of_not_isBare hubare).1)
    obtain ⟨x, hx, hvalue⟩ := (hspells.join hbalanced hend hstart hblank hspells').exists_readQuotient
      readNested_one hpos (by rw [extentOf_append]; omega)
    refine ⟨x, hx, iff_of_true ?_ (.inl ((divides_iff hspells).mpr rfl))⟩
    rw [hvalue, valueOf_append]
    simp [valueOf, mul_div_assoc]
  · rw [List.concat_eq_append] at hspells hroom
    have hflatten : (divisors ++ (last ++ top') :: divisors').flatten =
        (divisors ++ [last]).flatten ++ top' ++ divisors'.flatten := by simp
    obtain ⟨x, hx, hvalue⟩ := (hspells.join_divisor hbalanced hend hstart hspells').exists_readQuotient
      readNested_one hpos (by rw [hflatten, extentOf_append, extentOf_append]; omega)
    refine ⟨x, hx, ?_⟩
    rw [or_iff_right (by rw [divides_iff hspells]; simp), hone, hvalue, hflatten, valueOf_append,
      valueOf_append, List.concat_eq_append]
    exact div_mul_displaced_iff (valueOf_pos hspells.scale_pos.1) (valueOf_pos hspells.scale_pos.2)
      (valueOf_pos hspells'.scale_pos.1) (valueOf_pos hspells'.scale_pos.2)

theorem ne_one_of_product (hubare : u.isBare = false) (hvbare : v.isBare = false)
    (h : u.multiply v = .ok w) : w.symbol.toList ≠ [] ∧ w.symbol.toList ≠ ['1'] := by
  rw [toList_multiply hubare hvbare h]
  exact ⟨by simp, ne_one_of_mem (c := '*') (by simp) (by decide)⟩

/-- The symbol of a product denotes it just if the left operand does not divide, or what the right
one starts with is the unit of pure numbers. -/
theorem faithful_product_iff (hu : u.Spelled) (hv : v.Spelled) (hubare : u.isBare = false)
    (hvbare : v.isBare = false) (hjoin : Joinable u v) (h : u.multiply v = .ok w) :
    w.Faithful ↔ u.divides = false ∨ v.startsPure = true := by
  obtain ⟨x, hx, hiff⟩ := hu.exists_product hv hubare hvbare hjoin h
  obtain ⟨hne, hone⟩ := ne_one_of_product hubare hvbare h
  obtain ⟨y, hy, hvalue⟩ := exists_read (trim_multiply hu.trimmed hv.trimmed h) hne hone hx
  rw [← hiff, ← hvalue, ← isEquivalent_iff]
  constructor
  · rintro ⟨y', hy', hequivalent⟩
    obtain rfl : y' = y := Except.ok.inj (hy'.symm.trans hy)
    exact hequivalent
  · exact fun hequivalent => ⟨y, hy, hequivalent⟩

/-- The symbol of the product denotes it: one of the symbols says nothing, or they can be joined and
no divisor of the left one moves what the right one starts with. -/
def Joins (u v : PhysicalUnit) : Prop :=
  u.isBare = true ∨ v.isBare = true ∨ Joinable u v ∧ (u.divides = false ∨ v.startsPure = true)

instance (u v : PhysicalUnit) : Decidable (Joinable u v) :=
  decidable_of_iff (u.symbol.toList.getLast? ≠ some '*' ∧ v.symbol.toList.head? ≠ some '*' ∧
    u.spread + v.spread ≤ Dimension.extentLimit)
    ⟨fun h => ⟨h.1, h.2.1, h.2.2⟩, fun h => ⟨h.left, h.right, h.room⟩⟩

instance (u v : PhysicalUnit) : Decidable (u.Joins v) :=
  inferInstanceAs (Decidable (_ ∨ _ ∨ _ ∧ (_ ∨ _)))

/-- The symbol of a product denotes it, if the symbols join. -/
theorem Spelled.multiply (hu : u.Spelled) (hv : v.Spelled) (hjoins : u.Joins v)
    (h : u.multiply v = .ok w) : w.Spelled := by
  have hsymbol := symbol_multiply h
  cases hubare : u.isBare with
  | true =>
    rw [productSymbol, if_pos hubare] at hsymbol
    exact hv.congr hsymbol (by rw [value_multiply h, hu.bare hubare, one_mul])
  | false =>
    cases hvbare : v.isBare with
    | true =>
      rw [productSymbol, hubare, if_neg (by decide), if_pos hvbare] at hsymbol
      exact hu.congr hsymbol (by rw [value_multiply h, hv.bare hvbare, mul_one])
    | false =>
      obtain ⟨hjoin, hkept⟩ : Joinable u v ∧ _ := by simpa [Joins, hubare, hvbare] using hjoins
      obtain ⟨x, hx, hiff⟩ := hu.exists_product hv hubare hvbare hjoin h
      obtain ⟨hne, hone⟩ := ne_one_of_product hubare hvbare h
      exact spelled_of_text rfl (trim_multiply hu.trimmed hv.trimmed h) hne hone ⟨x, hx, hiff.mpr hkept⟩

end PhysicalUnit

end Formulary
