import Formulary.Proofs.Term.Call
import Mathlib.Data.Prod.Lex

/-!
Simplifying and printing come to an end.

A product takes the powers that it is merged into, and a power of a product takes the powers of the
factors and then their product, so that the arguments are built anew at every call, and exponents that are
merged can sum up to an integer that goes into the base once more. What falls is `Call.rank`: for powers
the weight of the base, for products the heaviest base among all factors, and for layouts the depth. It
falls with every call that is made, on any term, canonical or not; so every call comes to its value, and
to nothing else (`calls_terminate`).
-/

namespace Formulary.Term

variable {α β : Type} {t b e : Term} {ts fs : List Term} {m : Nat}

/-! ## The rank of a call -/

/-- The weight of the heaviest base among the factors of a product of the terms. -/
def heaviestBase (ts : List Term) : Nat := ((factorsAll ts).map baseWeight).foldr max 0

theorem heaviestBase_le_iff : heaviestBase ts ≤ m ↔ ∀ f ∈ factorsAll ts, f.baseWeight ≤ m := by
  unfold heaviestBase
  induction factorsAll ts with
  | nil => simp
  | cons f fs ih => simp [ih]

/-- What falls with every call: the kind of the call first. Printing lays out, which simplifies. -/
def Call.rank : Call α → ℕ ×ₗ ℕ
  | .power b _ => toLex (0, 2 * b.weight)
  | .product ts => toLex (0, 2 * heaviestBase ts + 1)
  | .negated _ | .quotient _ _ => toLex (1, 0)
  | .difference _ _ => toLex (2, 0)
  | .layout t => toLex (2, t.depth)
  | .text _ | .latex _ => toLex (3, 0)

/-- The powers that a product is merged into are of bases among its factors. -/
theorem rank_merged_lt {p : Term × Term} (hp : p ∈ mergedPowers (factorsAll ts)) :
    (Call.power p.1 p.2).rank < (Call.product ts).rank := by
  have hle := weight_merged_le (heaviestBase_le_iff.mp (Nat.le_refl _)) hp
  have hlt : 2 * p.1.weight < 2 * heaviestBase ts + 1 := by omega
  exact Prod.Lex.toLex_lt_toLex.mpr (.inr ⟨rfl, hlt⟩)

/-- The base of a power within a power is lighter. -/
theorem rank_nested_lt (b x y z : Term) : (Call.power b x).rank < (Call.power (.pow b y) z).rank := by
  have hlt : 2 * b.weight < 2 * (pow b y).weight := by
    rw [weight]
    omega
  exact Prod.Lex.toLex_lt_toLex.mpr (.inr ⟨rfl, hlt⟩)

/-- The factors of a product are lighter. -/
theorem rank_factor_lt {f : Term} (hf : f ∈ fs) (c : Rat) (x y : Term) :
    (Call.power f x).rank < (Call.power (.mul c fs) y).rank := by
  have hlt : 2 * f.weight < 2 * (mul c fs).weight :=
    Nat.mul_lt_mul_of_pos_left (weight_factor_lt hf c) Nat.two_pos
  exact Prod.Lex.toLex_lt_toLex.mpr (.inr ⟨rfl, hlt⟩)

/-- The powers of the factors of a product have bases that are lighter than the product. -/
theorem rank_spread_lt (c q : Rat) (fs : List Term) (x : Term) :
    (Call.product (spreadPowers power c q fs)).rank < (Call.power (.mul c fs) x).rank := by
  have hle := heaviestBase_le_iff.mpr (light_power.spreadPowers c q fs)
  have hlt : 2 * heaviestBase (spreadPowers power c q fs) + 1 < 2 * (mul c fs).weight := by
    rw [weight]
    omega
  exact Prod.Lex.toLex_lt_toLex.mpr (.inr ⟨rfl, hlt⟩)

/-- What is laid out is less deep. -/
theorem rank_layout_lt {u : Term} (h : u.depth < t.depth) :
    (Call.layout u).rank < (Call.layout t).rank :=
  Prod.Lex.toLex_lt_toLex.mpr (.inr ⟨rfl, h⟩)

theorem rank_power_lt (b e t : Term) : (Call.power b e).rank < (Call.layout t).rank :=
  Prod.Lex.toLex_lt_toLex.mpr (.inl Nat.two_pos)

theorem rank_negated_lt (u t : Term) : (Call.negated u).rank < (Call.layout t).rank :=
  Prod.Lex.toLex_lt_toLex.mpr (.inl Nat.one_lt_two)

/-! ## Which calls are made -/

theorem mem_calls_productBody {d : Σ β, Call β} (h : d ∈ (productBody ts).calls) :
    ∃ p ∈ mergedPowers (factorsAll ts), d = ⟨_, .power p.1 p.2⟩ := by
  unfold productBody at h
  split at h
  · cases h
  · simpa using h

/-- A power calls for the power of its base's base, or for the powers of factors and their product. -/
theorem mem_calls_powerBody {d : Σ β, Call β} (h : d ∈ (powerBody b e).calls) :
    (∃ u i q, b = .pow u (.num i) ∧ d = ⟨_, .power u (.num (i * q))⟩) ∨
      ∃ c fs q, b = .mul c fs ∧ ((∃ f ∈ fs, d = ⟨_, .power f (.num q)⟩) ∨
        d = ⟨_, .product (spreadPowers power c q fs)⟩) := by
  unfold powerBody at h
  split at h
  · rename_i q
    split at h
    · cases h
    split at h
    · cases h
    split at h
    · split at h <;> cases h
    · rename_i u i
      split at h
      · exact .inl ⟨u, i, q, rfl, by simpa using h⟩
      · cases h
    · rename_i c fs
      split at h
      · exact .inr ⟨c, fs, q, rfl, by simpa [spreadPowers, Call.value] using h⟩
      · cases h
    · cases h
  · cases h

theorem denominatorCall?_eq_power {f : Term} {c : Call Term} (h : denominatorCall? f = some c) :
    ∃ b e, c = .power b e := by
  unfold denominatorCall? at h
  split at h
  · split at h
    · cases h
      exact ⟨_, _, rfl⟩
    · cases h
  · cases h

/-- The call is for the layout of a term that laying another out goes into, or it is one that
simplifies first: a negation or a power. -/
def LayoutCall (t : Term) (d : Σ β, Call β) : Prop :=
  (∃ u, LaysOut t u ∧ d = ⟨_, .layout u⟩) ∨ (∃ u, d = ⟨_, .negated u⟩) ∨ ∃ b e, d = ⟨_, .power b e⟩

theorem layoutCall_of_mem_addendBody {u : Term} {d : Σ β, Call β} (hu : u ∈ ts)
    (h : d ∈ (addendBody u).calls) : LayoutCall (.add ts) d := by
  unfold addendBody at h
  split at h
  · rename_i hsub
    have h : d = ⟨_, .negated u⟩ ∨ d = ⟨_, .layout (negated u)⟩ := by simpa [Call.value] using h
    rcases h with rfl | rfl
    · exact .inr (.inl ⟨u, rfl⟩)
    · exact .inl ⟨_, .subtracted hu hsub, rfl⟩
  · obtain rfl : d = ⟨_, .layout u⟩ := by simpa using h
    exact .inl ⟨u, .addend hu, rfl⟩

theorem layoutCall_of_mem_calls {d : Σ β, Call β} (h : d ∈ (layoutBody t).calls) :
    LayoutCall t d := by
  cases t with
  | num q => cases h
  | const c => cases h
  | var x => cases h
  | func f ts =>
    have h : ∃ u ∈ ts, d = ⟨_, .layout u⟩ := by simpa [layoutBody] using h
    obtain ⟨u, hu, rfl⟩ := h
    exact .inl ⟨u, .argument hu, rfl⟩
  | apply x ts =>
    have h : ∃ u ∈ ts, d = ⟨_, .layout u⟩ := by simpa [layoutBody] using h
    obtain ⟨u, hu, rfl⟩ := h
    exact .inl ⟨u, .applied hu, rfl⟩
  | add ts =>
    have hmem : ∀ u ∈ numbersLast ts, u ∈ ts := fun u hu => (numbersLast_perm ts).mem_iff.mp hu
    cases hset : numbersLast ts with
    | nil => simp [layoutBody, hset] at h
    | cons first rest =>
      rw [hset] at hmem
      have h : d = ⟨_, .layout first⟩ ∨ ∃ u ∈ rest, d ∈ (addendBody u).calls := by
        simpa [layoutBody, hset] using h
      rcases h with rfl | ⟨u, hu, h⟩
      · exact .inl ⟨first, .addend (hmem first List.mem_cons_self), rfl⟩
      · exact layoutCall_of_mem_addendBody (hmem u (List.mem_cons_of_mem _ hu)) h
  | mul c fs =>
    have h : (∃ a, (∃ f ∈ fs, denominatorCall? f = some a) ∧ d = ⟨_, a⟩) ∨
        (∃ u ∈ numerators fs, d = ⟨_, .layout u⟩) ∨ ∃ u ∈ denominators fs, d = ⟨_, .layout u⟩ := by
      simpa [layoutBody, aboveBar_eq, denominators_eq] using h
    rcases h with ⟨a, ⟨f, -, ha⟩, rfl⟩ | ⟨u, hu, rfl⟩ | ⟨u, hu, rfl⟩
    · obtain ⟨b, e, rfl⟩ := denominatorCall?_eq_power ha
      exact .inr (.inr ⟨b, e, rfl⟩)
    · exact .inl ⟨u, .factor (mem_numerators.mp hu).1, rfl⟩
    · exact .inl ⟨u, .of_mem_denominators hu, rfl⟩
  | pow b e =>
    by_cases hhalf : e.isHalf = true
    · obtain rfl : d = ⟨_, .layout b⟩ := by simpa [layoutBody, hhalf] using h
      exact .inl ⟨b, .base b e, rfl⟩
    cases hd : denominatorCall? (pow b e) with
    | some a =>
      have h : d = ⟨_, a⟩ ∨ d = ⟨_, .layout a.value⟩ := by simpa [layoutBody, hhalf, hd] using h
      rcases h with rfl | rfl
      · obtain ⟨b', e', rfl⟩ := denominatorCall?_eq_power hd
        exact .inr (.inr ⟨b', e', rfl⟩)
      · exact .inl ⟨_, .inverse (by rw [denominator?_eq, hd]; rfl), rfl⟩
    | none =>
      have h : d = ⟨_, .layout b⟩ ∨ d = ⟨_, .layout e⟩ := by simpa [layoutBody, hhalf, hd] using h
      rcases h with rfl | rfl
      · exact .inl ⟨b, .base b e, rfl⟩
      · exact .inl ⟨e, .exponent b e, rfl⟩

/-- Laying a term out calls for layouts of less deep terms, and for what is simplified first. -/
theorem rank_lt_of_mem_layoutBody {d : Σ β, Call β} (h : d ∈ (layoutBody t).calls) :
    d.2.rank < (Call.layout t).rank := by
  rcases layoutCall_of_mem_calls h with ⟨u, hu, rfl⟩ | ⟨u, rfl⟩ | ⟨b, e, rfl⟩
  · exact rank_layout_lt hu.depth_lt
  · exact rank_negated_lt u t
  · exact rank_power_lt b e t

/-- The rank falls with every call. -/
theorem rank_lt_of_mem_calls {c : Call α} {d : Σ β, Call β} (h : d ∈ c.body.calls) :
    d.2.rank < c.rank := by
  cases c with
  | product ts =>
    obtain ⟨p, hp, rfl⟩ := mem_calls_productBody h
    exact rank_merged_lt hp
  | power b e =>
    rcases mem_calls_powerBody h with ⟨u, i, q, rfl, rfl⟩ | ⟨c, fs, q, rfl, ⟨f, hf, rfl⟩ | rfl⟩
    · exact rank_nested_lt u _ _ e
    · exact rank_factor_lt hf c _ e
    · exact rank_spread_lt c q fs e
  | negated t =>
    obtain rfl := List.mem_singleton.mp h
    exact Prod.Lex.toLex_lt_toLex.mpr (.inl Nat.zero_lt_one)
  | difference t u =>
    obtain rfl := List.mem_singleton.mp h
    exact Prod.Lex.toLex_lt_toLex.mpr (.inl Nat.one_lt_two)
  | quotient t u =>
    have h : d = ⟨_, .power u (.num (-1))⟩ ∨ d = ⟨_, .product [t, power u (.num (-1))]⟩ := by
      simpa [Call.body, Call.value] using h
    rcases h with rfl | rfl <;> exact Prod.Lex.toLex_lt_toLex.mpr (.inl Nat.zero_lt_one)
  | layout t => exact rank_lt_of_mem_layoutBody h
  | text t =>
    obtain rfl := List.mem_singleton.mp h
    exact Prod.Lex.toLex_lt_toLex.mpr (.inl (Nat.lt_succ_self 2))
  | latex t =>
    obtain rfl := List.mem_singleton.mp h
    exact Prod.Lex.toLex_lt_toLex.mpr (.inl (Nat.lt_succ_self 2))

/-! ## The end of every call -/

/-- A procedure comes to its result if each call in it comes to its value. -/
theorem yields_result : ∀ {p : Procedure α}, (∀ d ∈ p.calls, d.2.body.Yields d.2.value) →
    p.Yields p.result
  | .done a, _ => .done a
  | .call c next, h => by
    refine .call (h ⟨_, c⟩ List.mem_cons_self) (yields_result fun d hd => ?_)
    exact h d (List.mem_cons_of_mem _ hd)

/-- Every call comes to its value. -/
theorem yields_value {γ : Type} (c : Call γ) : c.body.Yields c.value := by
  rw [← result_body c]
  exact yields_result fun d hd => yields_value d.2
termination_by c.rank
decreasing_by exact rank_lt_of_mem_calls hd

/-- The calls that a procedure makes are those that it makes if each call gives its value. -/
theorem makes_iff {d : Call β} {p : Procedure α} : p.Makes d ↔ ⟨_, d⟩ ∈ p.calls := by
  refine ⟨fun h => h.mem_calls, fun h => ?_⟩
  induction p with
  | done a => cases h
  | call c next ih =>
    rcases List.mem_cons.mp h with h | h
    · cases h
      exact .first next
    · exact .later (yields_value c) (ih c.value h)

theorem Call.RecursTo.makes {c d : Call Term} (h : c.RecursTo d) : c.body.Makes d := by
  rw [makes_iff]
  cases h with
  | merged hc hp => simpa [Call.body, productBody, hc] using hp
  | nested b i h0 h1 hq => simp [Call.body, powerBody, h0, h1, hq]
  | factor c h0 h1 hq hf => simpa [Call.body, powerBody, h0, h1, hq] using hf
  | spread c fs h0 h1 hq => simp [Call.body, powerBody, h0, h1, hq, spreadPowers, Call.value]
  | _ => simp [Call.body, Call.value]

/-- Simplifying makes the calls of its recursion. The rank of a call is above that of every call that it
makes, so that calls do not nest without end; and a call comes to its value and to nothing else. This
holds of products, powers, negations, differences and quotients of any terms, and of the layout, the text
and the LaTeX of any term. -/
theorem calls_terminate :
    (∀ c d : Call Term, c.RecursTo d → c.body.Makes d) ∧
      (∀ (α β : Type) (c : Call α) (d : Call β), c.body.Makes d → d.rank < c.rank) ∧
      (WellFounded fun d c : Σ α, Call α => c.2.body.Makes d.2) ∧
      ∀ (α : Type) (c : Call α) (a : α), c.body.Yields a ↔ a = c.value := by
  have hrank : ∀ (α β : Type) (c : Call α) (d : Call β), c.body.Makes d → d.rank < c.rank :=
    fun α β c d h => rank_lt_of_mem_calls (makes_iff.mp h)
  refine ⟨fun c d h => h.makes, hrank, ?_, fun α c a => ⟨fun h => ?_, fun h => ?_⟩⟩
  · exact Subrelation.wf (fun {d c} h => hrank _ _ c.2 d.2 h)
      (InvImage.wf (fun c : Σ α, Call α => c.2.rank) wellFounded_lt)
  · rw [h.eq_result, result_body]
  · exact h ▸ yields_value c

/-- A product that is not canonical, and a root of it. -/
def rawProduct : Term := .mul 3 [.mul 1 [.var "x"], .num 2]

/-- A power of two roots of a product calls for the product of their powers, in which the exponents sum up
to an integer again, so that the power of what they are roots of is distributed in its turn. -/
theorem calls_terminate_remerged :
    let root : Term := .pow rawProduct (.num (1 / 2))
    let outer : Call Term := .power (.mul 2 [root, root]) (.num (-1))
    let middle : Call Term := .product (spreadPowers power 2 (-1) [root, root])
    let inner : Call Term := .power rawProduct (.num (-1))
    outer.body.Makes middle ∧ middle.body.Makes inner ∧ inner.rank < middle.rank ∧
      middle.rank < outer.rank ∧ outer.body.Yields (.mul (1 / 12) [.pow (.var "x") (.num (-1))]) := by
  intro root outer middle inner
  have hmiddle : outer.body.Makes middle :=
    calls_terminate.1 _ _ (.spread 2 [root, root] (by decide) (by decide) rfl)
  have hcoefficient : coefficientAll (spreadPowers power 2 (-1) [root, root]) = 1 / 2 := by decide +kernel
  have hmerged : mergedPowers (factorsAll (spreadPowers power 2 (-1) [root, root])) =
      [(rawProduct, .num (-1))] := by decide +kernel
  have hinner : middle.body.Makes inner :=
    calls_terminate.1 _ _ (.merged (by simp [hcoefficient]) (hmerged ▸ List.mem_singleton_self _))
  refine ⟨hmiddle, hinner, calls_terminate.2.1 _ _ _ _ hinner, calls_terminate.2.1 _ _ _ _ hmiddle, ?_⟩
  exact (calls_terminate.2.2.2 _ outer _).mpr (by decide +kernel)

end Formulary.Term
