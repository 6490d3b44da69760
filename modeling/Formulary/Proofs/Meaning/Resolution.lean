import Formulary.Proofs.Entry.Build
import Formulary.Proofs.Meaning.Quantity

/-!
The physical meaning of source expressions, and that resolution keeps it.

`Scope.physicalValue?` reads an expression as physical values: an entry applied to numbers gives its
value in its own unit taken to SI base units, parameters, literals and constants are pure numbers.
Exponents are added, subtracted and multiplied on the way. An expression is homogeneous if the
operands of each sum and difference, and the two arguments of `atan2`, all carry a unit or none
does, and no argument of an entry carries one. What a homogeneous expression resolves to denotes its
physical value, whatever units were converted and terms merged on the way.
-/

namespace Formulary

namespace PhysicalValue

/-- An operation on physical values. -/
noncomputable def binary? : BinaryOp → PhysicalValue → PhysicalValue → Option PhysicalValue
  | .add, X, Y => some (X.add Y)
  | .sub, X, Y => some (X.sub Y)
  | .mul, X, Y => some (X.mul Y)
  | .div, X, Y => X.div? Y
  | .pow, X, Y => X.pow? Y

/-- A built-in function of physical values: the absolute value keeps the exponents, every other
function takes and gives pure numbers. -/
noncomputable def builtin? : Builtin → List PhysicalValue → Option PhysicalValue
  | .abs, [X] => some ⟨|X.magnitude|, X.dimension⟩
  | f, args => (f.real? (args.map magnitude)).map plain

/-- An entry applied to numbers: its value in its unit, taken to SI base units. -/
noncomputable def ofEntry? (I : Interpretation) (e : Entry) (args : List ℝ) :
    Option PhysicalValue :=
  (I.entry e.name args).map fun v => ⟨v * unitScale e.unit, unitVector e.unit⟩

end PhysicalValue

namespace Scope

/-! ## Reading expressions as physical values -/

/-- What a called name stands for, whatever it is called with. -/
def target? (s : Scope) (name : String) : Option CallTarget :=
  match if s.isDeclared name then none else s.entries.get? name with
  | some e => some (.entry e)
  | none => if name = "sqrt" then some .sqrt else (Builtin.ofName? name).map .builtin

/-- The physical value of a symbol. -/
noncomputable def symbolValue? (s : Scope) (I : Interpretation) (name : String) :
    Option PhysicalValue :=
  match s.role name with
  | .parameter => some (.plain (I.parameter name))
  | .entry e => PhysicalValue.ofEntry? I e (e.params.map I.parameter)
  | .constant c => some (.plain c.real)

/-- The physical value of a call. -/
noncomputable def callValue? (I : Interpretation) (args : List PhysicalValue) :
    CallTarget → Option PhysicalValue
  | .entry e => PhysicalValue.ofEntry? I e (args.map PhysicalValue.magnitude)
  | .sqrt =>
    match args with
    | [X] => X.pow? (.plain ((1 / 2 : Rat) : ℝ))
    | _ => none
  | .builtin f => PhysicalValue.builtin? f args

mutual

/-- The physical value of an expression, where it has one. -/
noncomputable def physicalValue? (s : Scope) (I : Interpretation) : Expr → Option PhysicalValue
  | .number q => some (.plain q)
  | .symbol name => s.symbolValue? I name
  | .binary op l r =>
    (physicalValue? s I l).bind fun X =>
      (physicalValue? s I r).bind fun Y => PhysicalValue.binary? op X Y
  | .neg e => (physicalValue? s I e).map PhysicalValue.neg
  | .call name args =>
    (physicalValues? s I args).bind fun Xs => (s.target? name).bind (callValue? I Xs)

/-- The physical values of several expressions, where all of them have one. -/
noncomputable def physicalValues? (s : Scope) (I : Interpretation) :
    List Expr → Option (List PhysicalValue)
  | [] => some []
  | e :: es => (physicalValue? s I e).bind fun X => (physicalValues? s I es).map (X :: ·)

end

/-! ## Carrying a unit -/

/-- A symbol carries a unit: it is an entry that has one. -/
def symbolCarries (s : Scope) (name : String) : Bool :=
  match s.role name with
  | .entry e => e.unit.isSome
  | .parameter | .constant _ => false

/-- The result of an operation carries a unit, given whether its operands do. -/
def binaryCarries : BinaryOp → Bool → Bool → Bool
  | .pow, l, _ => l
  | .add, l, r | .sub, l, r | .mul, l, r | .div, l, r => l || r

/-- A call carries a unit, given which of its arguments do. -/
def callCarries (args : List Bool) : CallTarget → Bool
  | .entry e => e.unit.isSome
  | .sqrt | .builtin .abs => args.any id
  | .builtin _ => false

mutual

/-- An expression carries a unit. -/
def carriesUnit (s : Scope) : Expr → Bool
  | .number _ => false
  | .symbol name => s.symbolCarries name
  | .binary op l r => binaryCarries op (carriesUnit s l) (carriesUnit s r)
  | .neg e => carriesUnit s e
  | .call name args => ((s.target? name).map (callCarries (carryUnits s args))).getD false

/-- Which of several expressions carry a unit. -/
def carryUnits (s : Scope) : List Expr → List Bool
  | [] => []
  | e :: es => carriesUnit s e :: carryUnits s es

end

/-- The arguments of a call, given which of them carry a unit: none of an entry does, and those of
`atan2` all do or none. -/
def CallHomogeneous (args : List Bool) : CallTarget → Prop
  | .entry _ => ∀ b ∈ args, b = false
  | .builtin .atan2 => ∀ b ∈ args, ∀ c ∈ args, b = c
  | .sqrt | .builtin _ => True

mutual

/-- The operands of every sum and difference and the arguments of every `atan2` all carry a unit or
none does, and no argument of an entry carries one. -/
def Homogeneous (s : Scope) : Expr → Prop
  | .number _ | .symbol _ => True
  | .binary op l r =>
    Homogeneous s l ∧ Homogeneous s r ∧
      (op = .add ∨ op = .sub → s.carriesUnit l = s.carriesUnit r)
  | .neg e => Homogeneous s e
  | .call name args =>
    HomogeneousAll s args ∧ ∀ target, s.target? name = some target →
      CallHomogeneous (s.carryUnits args) target

/-- Several expressions are homogeneous. -/
def HomogeneousAll (s : Scope) : List Expr → Prop
  | [] => True
  | e :: es => Homogeneous s e ∧ HomogeneousAll s es

end

/-! ## What is resolved denotes the physical value -/

open Quantity

variable {s : Scope} {I : Interpretation} {q : Quantity}

/-- The quantity has the form of one that was resolved, carries a unit exactly if `carries` says so,
and denotes the physical value where there is one. -/
structure Resolved (carries : Bool) (value? : Interpretation → Option PhysicalValue)
    (q : Quantity) : Prop where
  regular : q.Regular
  carries_eq : q.unit.isSome = carries
  denotes : ∀ I X, value? I = some X → q.Denotes I X

theorem target?_of_callTarget {name : String} {count : Nat} {target : CallTarget}
    (h : s.callTarget name count = .ok target) : s.target? name = some target := by
  obtain ⟨-, hfits, hother⟩ := callTarget_eq_ok h
  unfold target?
  cases target with
  | entry e =>
    obtain ⟨hd, hget, -⟩ := hfits
    simp [hd, hget]
  | sqrt =>
    rw [lookup_eq_none.mpr (hother (by simp)).2]
    exact if_pos hfits.1
  | builtin b =>
    rw [lookup_eq_none.mpr (hother (by simp)).2]
    change (if name = "sqrt" then _ else _) = _
    rw [if_neg hfits.2.1, hfits.1, Option.map_some]

/-- An application of an entry to terms that are pure numbers. -/
theorem resolved_entry {e : Entry} {args : List Term} {xs? : Interpretation → Option (List ℝ)}
    (hunit : PositiveUnit e.unit) (hcan : ∀ t ∈ args, t.Canonical (fun _ => True) (fun _ => True))
    (hval : ∀ I xs, xs? I = some xs → Term.values? I args = some xs) :
    Resolved e.unit.isSome (fun I => (xs? I).bind (PhysicalValue.ofEntry? I e))
      ⟨.apply e.name args, e.unit⟩ where
  regular := ⟨.apply trivial hcan, hunit⟩
  carries_eq := rfl
  denotes I X h := by
    obtain ⟨xs, hxs, h⟩ := Option.bind_eq_some_iff.mp h
    obtain ⟨v, hv, rfl⟩ := Option.map_eq_some_iff.mp h
    refine ⟨v, ?_, rfl, rfl⟩
    rw [Term.value?, hval I xs hxs, Option.bind_some, hv]

theorem values?_map_var (params : List String) :
    Term.values? I (params.map .var) = some (params.map I.parameter) := by
  induction params with
  | nil => rfl
  | cons p params ih => exact Term.values?_cons.mpr ⟨_, _, rfl, ih, rfl⟩

theorem resolved_plain {t : Term} {x? : Interpretation → Option ℝ}
    (hcan : t.Canonical (fun _ => True) (fun _ => True))
    (hval : ∀ I x, x? I = some x → t.value? I = some x) :
    Resolved false (fun I => (x? I).map .plain) (.plain t) where
  regular := regular_plain hcan
  carries_eq := rfl
  denotes I X h := by
    obtain ⟨x, hx, rfl⟩ := Option.map_eq_some_iff.mp h
    exact denotes_plain.mpr (hval I x hx)

theorem resolved_symbol {name : String} (hs : Entry.PositiveUnits s.entries) :
    Resolved (s.symbolCarries name) (fun I => s.symbolValue? I name)
      ((s.role name).quantity name) := by
  unfold symbolCarries symbolValue?
  cases hrole : s.role name with
  | parameter => exact resolved_plain (.var trivial) fun I x h => h
  | constant c => exact resolved_plain (.const c) fun I x h => h
  | entry e =>
    have hget : s.entries.get? name = some e := (role_eq_entry.mp hrole).2
    have hcan : ∀ t ∈ e.params.map Term.var, t.Canonical (fun _ => True) (fun _ => True) := by
      intro t ht
      obtain ⟨p, -, rfl⟩ := List.mem_map.mp ht
      exact .var trivial
    have hval : ∀ (I : Interpretation) xs, some (e.params.map I.parameter) = some xs →
        Term.values? I (e.params.map .var) = some xs := by
      intro I xs h
      exact (values?_map_var e.params).trans h
    exact resolved_entry (hs name e hget) hcan hval

/-! ### Operations -/

theorem resolved_binary {op : BinaryOp} {l r q : Quantity} {cl cr : Bool}
    {vl vr : Interpretation → Option PhysicalValue} (hl : Resolved cl vl l) (hr : Resolved cr vr r)
    (hboth : op = .add ∨ op = .sub → cl = cr) (h : applyBinary op l r = .ok q) :
    Resolved (binaryCarries op cl cr)
      (fun I => (vl I).bind fun X => (vr I).bind fun Y => PhysicalValue.binary? op X Y) q := by
  have hvalues : (∀ I X Y Z, l.Denotes I X → r.Denotes I Y → PhysicalValue.binary? op X Y = some Z →
      q.Denotes I Z) → ∀ I Z, ((vl I).bind fun X => (vr I).bind fun Y =>
        PhysicalValue.binary? op X Y) = some Z → q.Denotes I Z := by
    intro hop I Z hZ
    obtain ⟨X, hX, hZ⟩ := Option.bind_eq_some_iff.mp hZ
    obtain ⟨Y, hY, hZ⟩ := Option.bind_eq_some_iff.mp hZ
    exact hop I X Y Z (hl.denotes I X hX) (hr.denotes I Y hY) hZ
  have hsome : op = .add ∨ op = .sub → l.unit.isSome = r.unit.isSome := fun hop => by
    rw [hl.carries_eq, hr.carries_eq, hboth hop]
  cases op with
  | add =>
    obtain ⟨hq, hunit, hval⟩ := add_eq_ok h hl.regular hr.regular (hsome (.inl rfl))
    refine ⟨hq, ?_, hvalues fun I X Y Z hX hY hZ => ?_⟩
    · rw [hunit, hl.carries_eq, binaryCarries, hboth (.inl rfl), Bool.or_self]
    · cases hZ
      exact hval I X Y hX hY
  | sub =>
    obtain ⟨hq, hunit, hval⟩ := sub_eq_ok h hl.regular hr.regular (hsome (.inr rfl))
    refine ⟨hq, ?_, hvalues fun I X Y Z hX hY hZ => ?_⟩
    · rw [hunit, hl.carries_eq, binaryCarries, hboth (.inr rfl), Bool.or_self]
    · cases hZ
      exact hval I X Y hX hY
  | mul =>
    obtain ⟨hq, hunit, hval⟩ := mul_eq_ok h hl.regular hr.regular
    refine ⟨hq, ?_, hvalues fun I X Y Z hX hY hZ => ?_⟩
    · rw [hunit, hl.carries_eq, hr.carries_eq, binaryCarries]
    · cases hZ
      exact hval I X Y hX hY
  | div =>
    obtain ⟨hq, hunit, hval⟩ := div_eq_ok h hl.regular hr.regular
    refine ⟨hq, ?_, hvalues hval⟩
    rw [hunit, hl.carries_eq, hr.carries_eq, binaryCarries]
  | pow =>
    obtain ⟨hq, hunit, hval⟩ := pow_eq_ok h hl.regular hr.regular
    refine ⟨hq, ?_, hvalues hval⟩
    rw [hunit, hl.carries_eq, binaryCarries]

theorem resolved_neg {c : Bool} {v : Interpretation → Option PhysicalValue} (h : Resolved c v q) :
    Resolved c (fun I => (v I).map PhysicalValue.neg) q.neg where
  regular := regular_neg h.regular
  carries_eq := h.carries_eq
  denotes I X hX := by
    obtain ⟨Y, hY, rfl⟩ := Option.map_eq_some_iff.mp hX
    exact denotes_neg (h.denotes I Y hY)

/-! ### Calls -/

/-- Several quantities, each with the form and the physical value that `Resolved` asks for. -/
structure ResolvedAll (carries : List Bool)
    (values? : Interpretation → Option (List PhysicalValue)) (qs : List Quantity) : Prop where
  regular : ∀ q ∈ qs, q.Regular
  carries_eq : qs.map (fun q => q.unit.isSome) = carries
  denotes : ∀ I Xs, values? I = some Xs → List.Forall₂ (Denotes I) qs Xs

theorem resolvedAll_nil : ResolvedAll [] (fun _ => some []) [] where
  regular := by simp
  carries_eq := rfl
  denotes I Xs h := by
    cases h
    exact .nil

theorem resolvedAll_cons {c : Bool} {cs : List Bool} {qs : List Quantity}
    {v : Interpretation → Option PhysicalValue} {vs : Interpretation → Option (List PhysicalValue)}
    (h : Resolved c v q) (hs : ResolvedAll cs vs qs) :
    ResolvedAll (c :: cs) (fun I => (v I).bind fun X => (vs I).map (X :: ·)) (q :: qs) where
  regular p hp := by
    rcases List.mem_cons.mp hp with rfl | hp
    · exact h.regular
    · exact hs.regular p hp
  carries_eq := by rw [List.map_cons, h.carries_eq, hs.carries_eq]
  denotes I Xs hXs := by
    obtain ⟨X, hX, hXs⟩ := Option.bind_eq_some_iff.mp hXs
    obtain ⟨Ys, hYs, rfl⟩ := Option.map_eq_some_iff.mp hXs
    exact .cons (h.denotes I X hX) (hs.denotes I Ys hYs)

/-- The terms of quantities without units have the magnitudes as values. -/
theorem values?_of_denotes {qs : List Quantity} {Xs : List PhysicalValue}
    (h : List.Forall₂ (Denotes I) qs Xs) (hplain : ∀ q ∈ qs, q.unit = none) :
    Term.values? I (qs.map Quantity.term) = some (Xs.map PhysicalValue.magnitude) := by
  induction h with
  | nil => rfl
  | @cons q X qs Xs hq _ ih =>
    obtain ⟨v, hv, hmag, -⟩ := hq
    rw [hplain q List.mem_cons_self, unitScale_none, mul_one] at hmag
    have hrest := ih fun p hp => hplain p (List.mem_cons_of_mem _ hp)
    exact Term.values?_cons.mpr ⟨v, _, hv, hrest, by rw [hmag, List.map_cons]⟩

theorem denotes_abs {X : PhysicalValue} (hq : q.Regular) (h : q.Denotes I X) :
    (⟨.func .abs [q.term], q.unit⟩ : Quantity).Denotes I ⟨|X.magnitude|, X.dimension⟩ := by
  obtain ⟨v, hv, hmag, hdim⟩ := h
  refine ⟨|v|, ?_, ?_, hdim⟩
  · rw [Term.value?, Term.values?_singleton.mpr ⟨v, hv, rfl⟩, Option.bind_some]
    rfl
  · have hpos : 0 < unitScale q.unit := hq.scale_pos
    change |v| * unitScale q.unit = |X.magnitude|
    rw [← hmag, abs_mul, abs_of_pos hpos]

/-- The angle of a point does not change when both coordinates are scaled by a positive factor. -/
theorem arg_mul_scale (x y : ℝ) {s : ℝ} (hs : 0 < s) :
    Complex.arg ⟨x * s, y * s⟩ = Complex.arg ⟨x, y⟩ := by
  have hz : (⟨x * s, y * s⟩ : ℂ) = (s : ℂ) * ⟨x, y⟩ := by
    apply Complex.ext
    · simp [mul_comm]
    · simp [mul_comm]
  rw [hz, Complex.arg_real_mul _ hs]

theorem resolved_atan2 {y x q : Quantity} (hy : y.Regular) (hx : x.Regular)
    (hboth : y.unit.isSome = x.unit.isSome) (h : applyBuiltin .atan2 [y, x] = .ok q) :
    q.Regular ∧ q.unit = none ∧ ∀ I Y X Z, y.Denotes I Y → x.Denotes I X →
      PhysicalValue.builtin? .atan2 [Y, X] = some Z → q.Denotes I Z := by
  obtain ⟨⟨a, b, unit⟩, hunify, h⟩ := Except.bind_eq_ok.mp h
  obtain ⟨rfl, rfl, hb, hval⟩ := unify_eq_ok (.inr rfl) hunify hx hboth
  cases h
  refine ⟨regular_plain (.func _ (by simpa using ⟨hy.canonical, hb⟩)), rfl, ?_⟩
  rintro I Y X Z ⟨v, hv, hmag, -⟩ hX hZ
  obtain ⟨w, hw, hwmag, -⟩ := hval I X hX
  have harg : Complex.arg ⟨X.magnitude, Y.magnitude⟩ = Complex.arg ⟨w, v⟩ := by
    rw [← hmag, ← hwmag, arg_mul_scale w v hy.scale_pos]
  have hZ : some (PhysicalValue.plain (Complex.arg ⟨X.magnitude, Y.magnitude⟩)) = some Z := hZ
  cases hZ
  refine denotes_plain.mpr ?_
  rw [Term.value?, Term.values?_cons.mpr ⟨v, [w], hv, Term.values?_singleton.mpr ⟨w, hw, rfl⟩, rfl⟩,
    Option.bind_some, harg]
  rfl

theorem applyBuiltin_singleton {f : Builtin} {p : Quantity} (hf : f ≠ .abs)
    (h : applyBuiltin f [p] = .ok q) :
    ∃ t, p.toPlain f.name = .ok t ∧ q = .plain (.func f [t]) := by
  have hmain : (p.toPlain f.name >>= fun t => .ok (.plain (.func f [t]))) = .ok q := by
    cases f with
    | abs => exact absurd rfl hf
    | _ => exact h
  obtain ⟨t, ht, hq⟩ := Except.bind_eq_ok.mp hmain
  cases hq
  exact ⟨t, ht, rfl⟩

/-- A function of one pure number. -/
theorem resolved_function {f : Builtin} {p q : Quantity} (hp : p.Regular) (hf : f ≠ .abs)
    (h : applyBuiltin f [p] = .ok q) :
    q.Regular ∧ q.unit = none ∧ ∀ I X Z, p.Denotes I X →
      PhysicalValue.builtin? f [X] = some Z → q.Denotes I Z := by
  obtain ⟨t, ht, rfl⟩ := applyBuiltin_singleton hf h
  obtain ⟨hcan, hval⟩ := toPlain_eq_ok ht hp
  refine ⟨regular_plain (.func _ (by simpa using hcan)), rfl, ?_⟩
  intro I X Z hX hZ
  have hZ : (f.real? [X.magnitude]).map PhysicalValue.plain = some Z := by
    cases f with
    | abs => exact absurd rfl hf
    | _ => exact hZ
  obtain ⟨z, hz, rfl⟩ := Option.map_eq_some_iff.mp hZ
  refine denotes_plain.mpr ?_
  rw [Term.value?, Term.values?_singleton.mpr ⟨_, (hval I X hX).1, rfl⟩, Option.bind_some, hz]

theorem callCarries_builtin {f : Builtin} (hf : f ≠ .abs) (cs : List Bool) :
    callCarries cs (.builtin f) = false := by
  cases f with
  | abs => exact absurd rfl hf
  | _ => rfl

/-- What a call with one argument denotes, from what it denotes at each value of the argument. -/
theorem ResolvedAll.denotes_one {p : Quantity} {cs : List Bool}
    {vs : Interpretation → Option (List PhysicalValue)}
    {value? : Interpretation → List PhysicalValue → Option PhysicalValue}
    (hp : ResolvedAll cs vs [p])
    (h : ∀ I X Z, p.Denotes I X → value? I [X] = some Z → q.Denotes I Z) :
    ∀ I Z, ((vs I).bind fun Xs => value? I Xs) = some Z → q.Denotes I Z := by
  intro I Z hZ
  obtain ⟨Xs, hXs, hZ⟩ := Option.bind_eq_some_iff.mp hZ
  cases hp.denotes I Xs hXs with
  | cons hX hnil =>
    cases hnil
    exact h I _ Z hX hZ

theorem resolved_builtin_one {f : Builtin} {p : Quantity} {cs : List Bool}
    {vs : Interpretation → Option (List PhysicalValue)} (hqs : ResolvedAll cs vs [p])
    (h : applyBuiltin f [p] = .ok q) :
    Resolved (callCarries cs (.builtin f))
      (fun I => (vs I).bind fun Xs => PhysicalValue.builtin? f Xs) q := by
  have hp := hqs.regular p List.mem_cons_self
  by_cases hf : f = .abs
  · subst hf
    cases h
    refine ⟨⟨.func _ (by simpa using hp.canonical), hp.positive⟩, ?_,
      hqs.denotes_one fun I X Z hX hZ => ?_⟩
    · rw [← hqs.carries_eq]
      simp [callCarries]
    · cases hZ
      exact denotes_abs hp hX
  · obtain ⟨hq, hunit, hval⟩ := resolved_function hp hf h
    exact ⟨hq, by rw [hunit, callCarries_builtin hf]; rfl, hqs.denotes_one hval⟩

theorem resolved_builtin_two {f : Builtin} {y x : Quantity} {cs : List Bool}
    {vs : Interpretation → Option (List PhysicalValue)} (hqs : ResolvedAll cs vs [y, x])
    (hom : CallHomogeneous cs (.builtin f)) (h : applyBuiltin f [y, x] = .ok q) :
    Resolved (callCarries cs (.builtin f))
      (fun I => (vs I).bind fun Xs => PhysicalValue.builtin? f Xs) q := by
  have hf : f = .atan2 := by
    cases f <;> first | rfl | cases h
  subst hf
  have hboth : y.unit.isSome = x.unit.isSome := by
    refine hom _ ?_ _ ?_
    · rw [← hqs.carries_eq]
      simp
    · rw [← hqs.carries_eq]
      simp
  obtain ⟨hq, hunit, hval⟩ :=
    resolved_atan2 (hqs.regular y (by simp)) (hqs.regular x (by simp)) hboth h
  refine ⟨hq, by rw [hunit]; rfl, fun I Z hZ => ?_⟩
  obtain ⟨Xs, hXs, hZ⟩ := Option.bind_eq_some_iff.mp hZ
  cases hqs.denotes I Xs hXs with
  | cons hY hrest =>
    cases hrest with
    | cons hX hnil =>
      cases hnil
      exact hval I _ _ Z hY hX hZ

theorem resolved_builtin {f : Builtin} {qs : List Quantity} {cs : List Bool}
    {vs : Interpretation → Option (List PhysicalValue)} (hqs : ResolvedAll cs vs qs)
    (hom : CallHomogeneous cs (.builtin f)) (h : applyBuiltin f qs = .ok q) :
    Resolved (callCarries cs (.builtin f))
      (fun I => (vs I).bind fun Xs => PhysicalValue.builtin? f Xs) q := by
  match qs, hqs, h with
  | [], _, h => cases f <;> cases h
  | [p], hqs, h => exact resolved_builtin_one hqs h
  | [y, x], hqs, h => exact resolved_builtin_two hqs hom h
  | _ :: _ :: _ :: _, _, h => cases f <;> cases h

theorem resolved_call {target : CallTarget} {qs : List Quantity} {cs : List Bool}
    {vs : Interpretation → Option (List PhysicalValue)} (hqs : ResolvedAll cs vs qs)
    (hunit : ∀ e, target = .entry e → PositiveUnit e.unit) (hom : CallHomogeneous cs target)
    (h : target.apply qs = .ok q) :
    Resolved (callCarries cs target) (fun I => (vs I).bind fun Xs => callValue? I Xs target) q := by
  cases target with
  | entry e =>
    cases h
    have hplain : ∀ p ∈ qs, p.unit = none := by
      intro p hp
      have := hom _ (hqs.carries_eq ▸ List.mem_map_of_mem hp)
      simpa using this
    have hcan : ∀ t ∈ qs.map Quantity.term, t.Canonical (fun _ => True) (fun _ => True) := by
      intro t ht
      obtain ⟨p, hp, rfl⟩ := List.mem_map.mp ht
      exact (hqs.regular p hp).canonical
    have hval : ∀ I xs, (vs I).map (List.map PhysicalValue.magnitude) = some xs →
        Term.values? I (qs.map Quantity.term) = some xs := by
      intro I xs hxs
      obtain ⟨Xs, hXs, rfl⟩ := Option.map_eq_some_iff.mp hxs
      exact values?_of_denotes (hqs.denotes I Xs hXs) hplain
    have hres := resolved_entry (hunit e rfl) hcan hval
    simp only [Option.bind_map] at hres
    exact hres
  | sqrt =>
    match qs, hqs, h with
    | [p], hqs, h =>
      obtain ⟨hq, hsome, hval⟩ := sqrt_eq_ok h (hqs.regular p (by simp))
      refine ⟨hq, ?_, hqs.denotes_one hval⟩
      rw [hsome, ← hqs.carries_eq]
      simp [callCarries]
    | [], _, h => cases h
    | _ :: _ :: _, _, h => cases h
  | builtin f => exact resolved_builtin hqs hom h

/-! ### Expressions -/

theorem positiveUnit_of_target {name : String} {count : Nat} {target : CallTarget} {e : Entry}
    (hs : Entry.PositiveUnits s.entries) (h : s.callTarget name count = .ok target)
    (he : target = .entry e) : PositiveUnit e.unit := by
  subst he
  obtain ⟨-, ⟨-, hget, -⟩, -⟩ := callTarget_eq_ok h
  exact hs name e hget

mutual

/-- What a homogeneous expression resolves to denotes its physical value. -/
theorem resolve_resolved {s : Scope} (hs : Entry.PositiveUnits s.entries) :
    ∀ (e : Expr) (f g : Findings) (q : Quantity), s.Homogeneous e →
      (s.resolve e).run f = .ok (q, g) → Resolved (s.carriesUnit e) (s.physicalValue? · e) q
  | .number x, f, g, q, _, h => by
    obtain ⟨rfl, -⟩ := run_resolve_number.mp h
    have hval : ∀ (I : Interpretation) y, some (x : ℝ) = some y →
        (Term.num x).value? I = some y := fun I y hy => hy
    exact resolved_plain (.num x) hval
  | .symbol name, f, g, q, _, h => by
    obtain ⟨-, rfl, -⟩ := run_resolveSymbol h
    exact resolved_symbol hs
  | .neg e, f, g, q, hom, h => by
    obtain ⟨p, he, rfl⟩ := run_resolve_neg.mp h
    exact resolved_neg (resolve_resolved hs e f g p hom he)
  | .binary op l r, f, g, q, hom, h => by
    obtain ⟨homl, homr, hboth⟩ := hom
    obtain ⟨a, f₁, b, hl, hr, hop⟩ := run_resolve_binary.mp h
    have ha := resolve_resolved hs l f f₁ a homl hl
    have hb := resolve_resolved hs r f₁ g b homr hr
    exact resolved_binary ha hb hboth hop
  | .call name args, f, g, q, hom, h => by
    obtain ⟨homs, htarget⟩ := hom
    obtain ⟨target, qs, f₁, ht, hargs, h⟩ := run_resolve_call.mp h
    obtain ⟨happly, -⟩ := run_applyTarget h
    have htarget? := target?_of_callTarget ht
    have hqs := resolveAll_resolved hs args f f₁ qs homs hargs
    have hres :=
      resolved_call hqs (fun e => positiveUnit_of_target hs ht) (htarget target htarget?) happly
    have hcarries : s.carriesUnit (.call name args) = callCarries (s.carryUnits args) target := by
      rw [carriesUnit, htarget?]
      rfl
    have hvalue : ∀ I, s.physicalValue? I (.call name args) =
        (s.physicalValues? I args).bind fun Xs => callValue? I Xs target := by
      intro I
      rw [physicalValue?, htarget?]
      rfl
    simp only [hcarries, hvalue]
    exact hres

theorem resolveAll_resolved {s : Scope} (hs : Entry.PositiveUnits s.entries) :
    ∀ (es : List Expr) (f g : Findings) (qs : List Quantity), s.HomogeneousAll es →
      (s.resolveAll es).run f = .ok (qs, g) →
        ResolvedAll (s.carryUnits es) (s.physicalValues? · es) qs
  | [], f, g, qs, _, h => by
    obtain ⟨rfl, -⟩ := run_resolveAll_nil.mp h
    exact resolvedAll_nil
  | e :: es, f, g, qs, hom, h => by
    obtain ⟨home, homs⟩ := hom
    obtain ⟨q, f₁, ps, he, hes, rfl⟩ := run_resolveAll_cons.mp h
    exact resolvedAll_cons (resolve_resolved hs e f f₁ q home he)
      (resolveAll_resolved hs es f₁ g ps homs hes)

end

end Scope

end Formulary
