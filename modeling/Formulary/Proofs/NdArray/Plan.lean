import Formulary.NdArray.Plan
import Formulary.Proofs.NdArray.Position

/-!
The pairs of a broadcast plan.

The cursor of a plan stands at a multi-index of the joint shape: it has given as many pairs as the
multi-index has before it in row-major order, and its two flat positions are those that the advances
of the axes lead to. The first spot is of this kind, and so is the one after each that is. Winding an
axis back takes off exactly what its places have added, so no subtraction is ever cut off at zero.
Hence the pairs are the two positions at every multi-index, in order.
-/

namespace Formulary

variable {s : Shape} {ix da db : List Nat} {i j k : Nat}

namespace Shape

theorem distance_cons (k : Nat) (ix advances : List Nat) :
    distance (k :: ix) advances = k * advances.headD 0 + distance ix advances.tail := by
  cases advances <;> simp [distance]

theorem distance_zeros (n : Nat) (advances : List Nat) : distance (List.replicate n 0) advances = 0 := by
  induction n generalizing advances with
  | zero => rfl
  | succ n ih => rw [List.replicate_succ, distance_cons, ih, Nat.zero_mul]

/-- A multi-index that has a position is one of a place and a multi-index of the other axes. -/
theorem offset?_cons_eq_some {n : Nat} (h : offset? (n :: s) ix = some k) :
    ∃ m jx r, ix = m :: jx ∧ m < n ∧ s.offset? jx = some r ∧ k = m * s.size + r := by
  cases ix with
  | nil => cases h
  | cons m jx =>
    rw [offset?] at h
    split at h
    · rename_i hm
      obtain ⟨r, hr, heq⟩ := Option.map_eq_some_iff.mp h
      exact ⟨m, jx, r, rfl, hm, hr, heq.symm⟩
    · cases h

theorem offset?_cons {m n r : Nat} (hm : m < n) (h : s.offset? ix = some r) :
    offset? (n :: s) (m :: ix) = some (m * s.size + r) := by
  rw [offset?, if_pos hm, h, Option.map_some]

/-- What has a position is a multi-index. -/
theorem mem_indices_of_offset? (h : s.offset? ix = some k) : ix ∈ s.indices := by
  induction s generalizing ix k with
  | nil =>
    cases ix with
    | nil => exact List.mem_singleton_self _
    | cons m jx => cases h
  | cons n s ih =>
    obtain ⟨m, jx, r, rfl, hm, hr, -⟩ := offset?_cons_eq_some h
    rw [mem_indices]
    exact .cons hm (mem_indices.mp (ih hr))

/-- The position of a multi-index is its place among the multi-indices. -/
theorem indices_of_offset? (h : s.offset? ix = some k) : k < s.size ∧ s.indices[k]? = some ix := by
  obtain ⟨k', hk', hlt, hget⟩ := exists_offset? (mem_indices_of_offset? h)
  obtain rfl : k = k' := Option.some.inj (h.symm.trans hk')
  exact ⟨hlt, hget⟩

theorem offset?_zeros (h : 0 < s.size) : s.offset? (List.replicate s.length 0) = some 0 := by
  induction s with
  | nil => rfl
  | cons n s ih =>
    have hn : 0 < n := Nat.pos_of_mul_pos_right h
    have hs : 0 < size s := Nat.pos_of_mul_pos_left h
    rw [List.length_cons, List.replicate_succ, offset?_cons hn (ih hs), Nat.zero_mul]

end Shape

namespace BroadcastPlan

open Shape (distance)

section Axes

variable {n m i' j' : Nat} {jx : List Nat}

/-- While the axes behind are not used up, an axis stays where it is. -/
theorem Spot.next_of_moved (h : Spot.next s da.tail db.tail ⟨ix, i, j⟩ = (false, ⟨jx, i', j'⟩)) :
    Spot.next (n :: s) da db ⟨m :: ix, i, j⟩ = (false, ⟨m :: jx, i', j'⟩) := by
  simp [Spot.next, h]

theorem Spot.next_of_lt (h : Spot.next s da.tail db.tail ⟨ix, i, j⟩ = (true, ⟨jx, i', j'⟩))
    (hm : m + 1 < n) : Spot.next (n :: s) da db ⟨m :: ix, i, j⟩ =
      (false, ⟨(m + 1) :: jx, i' + da.headD 0, j' + db.headD 0⟩) := by
  simp [Spot.next, h, hm]

theorem Spot.next_of_last (h : Spot.next s da.tail db.tail ⟨ix, i, j⟩ = (true, ⟨jx, i', j'⟩))
    (hm : m + 1 = n) : Spot.next (n :: s) da db ⟨m :: ix, i, j⟩ =
      (true, ⟨0 :: jx, i' - da.headD 0 * m, j' - db.headD 0 * m⟩) := by
  simp [Spot.next, h, ← hm]

/-- From the spot of a multi-index the next one is that of the multi-index after it; from the last
multi-index all axes are wound back. The positions from which the places of these axes are counted
can be any. -/
theorem Spot.next_eq (da db : List Nat) (i j : Nat) (h : s.offset? ix = some k) :
    (k + 1 = s.size ∧ Spot.next s da db ⟨ix, i + distance ix da, j + distance ix db⟩ =
      (true, ⟨List.replicate s.length 0, i, j⟩)) ∨
    ∃ jx, s.offset? jx = some (k + 1) ∧
      Spot.next s da db ⟨ix, i + distance ix da, j + distance ix db⟩ =
        (false, ⟨jx, i + distance jx da, j + distance jx db⟩) := by
  induction s generalizing ix k da db i j with
  | nil =>
    cases ix with
    | nil =>
      cases h
      exact .inl ⟨rfl, rfl⟩
    | cons m jx => cases h
  | cons n s ih =>
    obtain ⟨m, ix, r, rfl, hm, hr, rfl⟩ := Shape.offset?_cons_eq_some h
    -- the places of the axes behind are counted from where this one has led to
    have hstart : ∀ (i : Nat) (d jx : List Nat), i + distance (m :: jx) d =
        i + m * d.headD 0 + distance jx d.tail := fun i d jx => by
      rw [Shape.distance_cons, Nat.add_assoc]
    simp only [hstart]
    rcases ih da.tail db.tail (i + m * da.headD 0) (j + m * db.headD 0) hr with
      ⟨hlast, hnext⟩ | ⟨jx, hjx, hnext⟩
    · have hzeros := Shape.offset?_zeros (Nat.zero_lt_of_lt (Shape.indices_of_offset? hr).1)
      by_cases hplace : m + 1 < n
      · refine .inr ⟨(m + 1) :: List.replicate s.length 0, ?_, ?_⟩
        · rw [Shape.offset?_cons hplace hzeros, Nat.add_zero, Nat.add_assoc, hlast, Nat.succ_mul]
        · rw [Spot.next_of_lt hnext hplace]
          simp only [Shape.distance_cons, Shape.distance_zeros, Nat.succ_mul, Nat.add_zero,
            Nat.add_assoc]
      · have hused : m + 1 = n := by omega
        refine .inl ⟨?_, ?_⟩
        · rw [Nat.add_assoc, hlast, ← Nat.succ_mul, Nat.succ_eq_add_one, hused]
          rfl
        · rw [Spot.next_of_last hnext hused, Nat.mul_comm (da.headD 0), Nat.mul_comm (db.headD 0),
            Nat.add_sub_cancel, Nat.add_sub_cancel]
          rfl
    · refine .inr ⟨m :: jx, Shape.offset?_cons hm hjx, ?_⟩
      rw [Spot.next_of_moved hnext]
      simp only [hstart]

end Axes

variable {p : BroadcastPlan} {c c' : Cursor} {pair : Nat × Nat}

/-- The two flat positions that the advances of a plan lead to. -/
def positions (p : BroadcastPlan) (ix : List Nat) : Nat × Nat :=
  (distance ix p.advanceLeft, distance ix p.advanceRight)

/-- The cursor is about to give the pair of a multi-index, and has given those of all before it. -/
structure StandsAt (p : BroadcastPlan) (c : Cursor) (ix : List Nat) : Prop where
  given : p.shape.offset? ix = some c.given
  spot : c.spot = ⟨ix, (p.positions ix).1, (p.positions ix).2⟩

theorem standsAt_start (h : 0 < p.shape.size) :
    p.StandsAt p.start (List.replicate p.shape.length 0) := by
  constructor
  · exact Shape.offset?_zeros h
  · simp only [positions, Shape.distance_zeros]
    rfl

/-- A cursor that stands at a multi-index gives its pair, and then it stands at the next one or has
given all pairs. -/
theorem StandsAt.next? (h : p.StandsAt c ix) : ∃ c', p.next? c = some (p.positions ix, c') ∧
    c'.given = c.given + 1 ∧ (c'.given = p.shape.size ∨ ∃ jx, p.StandsAt c' jx) := by
  have hlt := (Shape.indices_of_offset? h.given).1
  unfold BroadcastPlan.next?
  rw [if_neg (Nat.not_le_of_lt hlt)]
  simp only [h.spot]
  by_cases hlast : c.given + 1 = p.shape.size
  · exact ⟨_, rfl, rfl, .inl hlast⟩
  · refine ⟨_, rfl, rfl, .inr ?_⟩
    have hnext := Spot.next_eq p.advanceLeft p.advanceRight 0 0 h.given
    simp only [Nat.zero_add] at hnext
    rcases hnext with ⟨heq, -⟩ | ⟨jx, hjx, hnext⟩
    · exact absurd heq hlast
    · refine ⟨jx, hjx, ?_⟩
      rw [if_neg hlast]
      exact congrArg Prod.snd hnext

/-- From a multi-index on, the cursor gives the pair of each. -/
theorem StandsAt.pairsFrom_eq (h : p.StandsAt c ix) :
    p.pairsFrom c = (p.shape.indices.drop c.given).map p.positions := by
  fun_induction p.pairsFrom c generalizing ix with
  | case1 c hnone =>
    obtain ⟨c', hnext, -⟩ := h.next?
    rw [hnone] at hnext
    cases hnext
  | case2 c pair c' hsome _ ih =>
    obtain ⟨c₁, hnext, hgiven, hstands⟩ := h.next?
    rw [hsome] at hnext
    cases hnext
    obtain ⟨hlt, hget⟩ := Shape.indices_of_offset? h.given
    have hdrop : p.shape.indices.drop c.given = ix :: p.shape.indices.drop c'.given := by
      obtain ⟨hlen, hget⟩ := List.getElem?_eq_some_iff.mp hget
      rw [List.drop_eq_getElem_cons hlen, hget, hgiven]
    rw [hdrop, List.map_cons]
    refine congrArg _ ?_
    rcases hstands with hall | ⟨jx, hjx⟩
    · -- all pairs have been given
      have hlength := p.length_pairsFrom c'
      rw [hall, Nat.sub_self] at hlength
      rw [List.eq_nil_of_length_eq_zero hlength, hall, ← Shape.length_indices, List.drop_length,
        List.map_nil]
    · exact ih hjx

/-- The pairs of a plan are the positions at every multi-index of its shape, in order. -/
theorem pairs_eq (p : BroadcastPlan) : p.pairs = p.shape.indices.map p.positions := by
  rcases Nat.eq_zero_or_pos p.shape.size with hempty | hpos
  · have hlength := p.length_pairs
    have hindices := Shape.length_indices p.shape
    rw [hempty] at hlength hindices
    rw [List.eq_nil_of_length_eq_zero hlength, List.eq_nil_of_length_eq_zero hindices, List.map_nil]
  · exact (standsAt_start hpos).pairsFrom_eq

/-- Every position below the size is that of a multi-index. -/
theorem exists_offset?_eq (h : k < s.size) : ∃ ix, s.offset? ix = some k := by
  induction k with
  | zero => exact ⟨_, Shape.offset?_zeros h⟩
  | succ k ih =>
    obtain ⟨ix, hix⟩ := ih (Nat.lt_of_succ_lt h)
    rcases Spot.next_eq [] [] 0 0 hix with ⟨hlast, -⟩ | ⟨jx, hjx, -⟩
    · exact absurd hlast (Nat.ne_of_lt h)
    · exact ⟨jx, hjx⟩

/-- The plan of two shapes has their joint shape; its positions are those that the advances of the
shapes, filled up in front, lead to. -/
theorem make_eq_ok {a b : Shape} (h : make a b = .ok p) :
    Shape.broadcast a b = .ok p.shape ∧
      p.pairs = p.shape.indices.map fun ix => (distance ix (Shape.pad p.shape.length a).advances,
        distance ix (Shape.pad p.shape.length b).advances) := by
  obtain ⟨S, hS, h⟩ := Except.bind_eq_ok.mp h
  cases h
  exact ⟨hS, pairs_eq _⟩

theorem exists_make {a b S : Shape} (h : Shape.broadcast a b = .ok S) :
    ∃ p, make a b = .ok p ∧ p.shape = S := by
  rw [make, h]
  exact ⟨_, rfl, rfl⟩

/-- The plan pairs the flat elements of two shapes that meet: at the position of each multi-index of
the joint shape stand the positions of the multi-index clamped to the one shape and to the other. -/
structure Meets (p : BroadcastPlan) (a b : Shape) : Prop where
  length : p.pairs.length = p.shape.size
  pair : ∀ ix, Shape.Within ix p.shape → ∃ k i j, p.shape.offset? ix = some k ∧
    p.pairs[k]? = some (i, j) ∧ a.offset? (a.clamp ix) = some i ∧ b.offset? (b.clamp ix) = some j
  within : ∀ pair ∈ p.pairs, pair.1 < a.size ∧ pair.2 < b.size

theorem meets_of_make {a b : Shape} (h : make a b = .ok p) : p.Meets a b := by
  obtain ⟨hshape, hpairs⟩ := make_eq_ok h
  obtain ⟨ha, hb, -⟩ := Shape.broadcast_eq_ok hshape
  have hclamp : ∀ {c : Shape}, c.Stretches p.shape → ∀ ix, Shape.Within ix p.shape →
      c.offset? (c.clamp ix) = some (distance ix (Shape.pad p.shape.length c).advances) := by
    intro c hc ix hix
    have hle := hc.length_le
    have hfits := ((Shape.pad_stretches_iff hle (Nat.le_refl _)).mpr hc).fits (Shape.length_pad hle)
    exact Shape.offset?_clamp_pad hle hfits hix
  have hpair : ∀ ix, Shape.Within ix p.shape → ∃ k i j, p.shape.offset? ix = some k ∧
      p.pairs[k]? = some (i, j) ∧ a.offset? (a.clamp ix) = some i ∧
      b.offset? (b.clamp ix) = some j := by
    intro ix hix
    obtain ⟨k, hk, -, hget⟩ := Shape.exists_offset? (Shape.mem_indices.mpr hix)
    refine ⟨k, _, _, hk, ?_, hclamp ha ix hix, hclamp hb ix hix⟩
    rw [hpairs, List.getElem?_map, hget, Option.map_some]
  refine ⟨p.length_pairs, hpair, fun pair hmem => ?_⟩
  obtain ⟨k, hlt, hget⟩ := List.getElem_of_mem hmem
  obtain ⟨ix, hix⟩ := exists_offset?_eq (p.length_pairs ▸ hlt)
  obtain ⟨k', i, j, hk', hget', hi, hj⟩ :=
    hpair ix (Shape.mem_indices.mp (Shape.mem_indices_of_offset? hix))
  obtain rfl : k = k' := Option.some.inj (hix.symm.trans hk')
  rw [List.getElem?_eq_getElem hlt, hget, Option.some.injEq] at hget'
  rw [hget']
  exact ⟨(Shape.indices_of_offset? hi).1, (Shape.indices_of_offset? hj).1⟩

end BroadcastPlan

end Formulary
