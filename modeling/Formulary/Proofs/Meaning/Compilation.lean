import Formulary.Proofs.Meaning.Resolution
import Formulary.Proofs.Registry.Step

/-!
Unit inference and conversion are sound.

A compiled entry is a term and a unit. The term times the scale of the unit is the physical value of
the source expression, and the unit has its exponents: the factor to the declared unit changes
nothing in SI base units. So an entry that it depends on may be declared again in a compatible unit:
as long as the physical values of that entry stay the same, those of the compiled one do.

How the proof goes. What resolution yields denotes the physical value of the expression
(`Scope.resolve_resolved`), and the factor to the declared unit keeps what is denoted
(`applyDeclaredUnit_denotes`): together that is `Compiled.denotes`, for one scope. For two scopes, the
physical value of the expression is the same in both (`physicalValue?_restates`), by induction on the
expression; only symbols and calls look at the scope, and what they stand for corresponds
(`role_restates`, `target?_restates`). So each scope is compiled by itself, and the two are compared
through the source and not through their terms, which differ by the factors.

* `Commensurable` asks for what the program does not check: it takes a number plus a length, a call of
  an entry with a length, and a declared unit for an expression that has none. It speaks of the source in
  the first scope, and `Commensurable.restates` takes it to the second.
* `Entry.Restates` is about values in SI base units, so that it says nothing on how the entry was declared
  again. `Entry.Redeclared` names the units and the factor between them, and is a case of it
  (`Redeclared.restates`).
* The entries have units of positive scale, because they were built (`Entry.Built.positive`). Powers need
  it: a magnitude is a number times the scale, and its power splits in two only for a positive one.
-/

namespace Formulary

/-! ## The declared unit -/

namespace Entry

variable {context context' : BuildContext} {key : Key} {x : Expr} {e e' : Entry}

open Quantity

/-- Taking a quantity to the declared unit keeps its physical value. -/
theorem applyDeclaredUnit_denotes {q : Quantity} {t : Term} {unit : Option PhysicalUnit}
    {units : Option String} (hboth : key.unit.isSome = true → q.unit.isSome = true)
    (h : applyDeclaredUnit key q = .ok (t, unit, units)) {I : Interpretation} {X : PhysicalValue}
    (hX : q.Denotes I X) : (⟨t, unit⟩ : Quantity).Denotes I X := by
  obtain ⟨v, hv, hmag, hdim⟩ := hX
  unfold applyDeclaredUnit at h
  cases hu : q.unit with
  | none =>
    cases hk : key.unit with
    | none =>
      simp only [hk, hu] at h
      cases h
      exact ⟨v, hv, hu ▸ hmag, hu ▸ hdim⟩
    | some d => simp [hk, hu] at hboth
  | some u =>
    cases hk : key.unit with
    | none =>
      simp only [hk, hu] at h
      cases h
      exact ⟨v, hv, hu ▸ hmag, hu ▸ hdim⟩
    | some d =>
      simp only [hk, hu] at h
      split at h
      · rename_i f hf
        obtain ⟨hne, rfl, hvec⟩ := PhysicalUnit.factorTo_eq_ok hf
        cases h
        rw [hu, unitScale_some] at hmag
        rw [hu, unitVector_some] at hdim
        have hne' : (d.scale : ℝ) ≠ 0 := by exact_mod_cast hne
        refine ⟨_, value?_rescale hv, ?_, ?_⟩
        · rw [← hmag, unitScale_some]
          push_cast
          field_simp
        · rw [← hdim, unitVector_some, hvec]
      · cases h

/-! ## Compiled entries -/

/-- The entry was compiled from a text that reads as the expression, under a key that was read,
against entries that were built. -/
structure Compiled (context : BuildContext) (key : Key) (x : Expr) (e : Entry) : Prop where
  entries : ∀ n g, context.entries.get? n = some g → g.Built
  written : key.Written
  built : ∃ text, Expr.read text = .ok x ∧ build context key (.expression text) = .ok e

/-- The expression is homogeneous, and carries a unit if the key declares one. -/
structure Commensurable (context : BuildContext) (key : Key) (x : Expr) : Prop where
  homogeneous : (context.scope key).Homogeneous x
  carries : key.unit.isSome = true → (context.scope key).carriesUnit x = true

/-- Resolution and the conversion that follows it. -/
theorem Compiled.resolved (h : Compiled context key x e) : ∃ q f t units,
    ((context.scope key).resolve x).run {} = .ok (q, f) ∧
      applyDeclaredUnit key q = .ok (t, e.unit, units) ∧ e.expression = some t := by
  obtain ⟨text, hread, hbuild⟩ := h.built
  have hderive : derive context key text = .ok e := hbuild
  obtain ⟨x', q, f, t, unit, units, -, hread', hrun, hunit, rfl⟩ := derive_iff.mp hderive
  rw [Except.ok.inj (hread'.symm.trans hread)] at hrun
  exact ⟨q, f, t, units, hrun, hunit, rfl⟩

/-- The compiled term in its unit denotes the physical value of the source. -/
theorem Compiled.denotes (h : Compiled context key x e) (hx : Commensurable context key x) :
    ∃ t, e.expression = some t ∧ ∀ I X, (context.scope key).physicalValue? I x = some X →
      (⟨t, e.unit⟩ : Quantity).Denotes I X := by
  obtain ⟨q, f, t, units, hrun, hunit, ht⟩ := h.resolved
  have hscaled : PositiveUnits (context.scope key).entries := fun n g hg =>
    (h.entries n g hg).positive
  have hres := Scope.resolve_resolved hscaled x {} f q hx.homogeneous hrun
  have hboth : key.unit.isSome = true → q.unit.isSome = true := fun hkey => by
    rw [hres.carries_eq]
    exact hx.carries hkey
  exact ⟨t, ht, fun I X hX => applyDeclaredUnit_denotes hboth hunit (hres.denotes I X hX)⟩

end Entry

/-! ## Entries declared again -/

/-- The value of an entry at numbers, taken to SI base units. -/
noncomputable def Interpretation.physical (I : Interpretation) (e : Entry) (args : List ℝ) :
    Option ℝ :=
  (I.entry e.name args).map (· * unitScale e.unit)

/-- The two entries have the same parameters, compatible units, and under the two interpretations
the same values in SI base units. -/
structure Entry.Restates (I I' : Interpretation) (e e' : Entry) : Prop where
  params_eq : e'.params = e.params
  vector_eq : unitVector e'.unit = unitVector e.unit
  present_eq : e'.unit.isSome = e.unit.isSome
  physical_eq : ∀ args, I'.physical e' args = I.physical e args

/-- An entry that is declared again in a compatible unit, with its values times the factor between
the units, restates the old one. -/
theorem Entry.restates_of_factor {I I' : Interpretation} {e e' : Entry} {u u' : PhysicalUnit}
    {f : Rat} (hname : e'.name = e.name) (hparams : e'.params = e.params) (hu : e.unit = some u)
    (hu' : e'.unit = some u') (hf : u.factorTo u' = .ok f)
    (hvalues : ∀ args, I'.entry e.name args = (I.entry e.name args).map ((f : ℝ) * ·)) :
    Restates I I' e e' where
  params_eq := hparams
  vector_eq := by rw [hu, hu', unitVector_some, unitVector_some, (PhysicalUnit.factorTo_eq_ok hf).2.2]
  present_eq := by rw [hu, hu']; rfl
  physical_eq args := by
    obtain ⟨hne, rfl, -⟩ := PhysicalUnit.factorTo_eq_ok hf
    have hne' : (u'.scale : ℝ) ≠ 0 := by exact_mod_cast hne
    have hscale : ∀ v : ℝ, ((u.scale / u'.scale : Rat) : ℝ) * v * u'.scale = v * u.scale := by
      intro v
      push_cast
      field_simp
    rw [Interpretation.physical, Interpretation.physical, hname, hvalues, Option.map_map, hu, hu']
    simp only [Function.comp_def, unitScale_some, hscale]

/-- The entry is declared again, with its name and its parameters: in a compatible unit, and its values
are times the factor between the units; or without a unit if it had none, and its values are the same. -/
inductive Entry.Redeclared (I I' : Interpretation) (e e' : Entry) : Prop
  | converted {u u' : PhysicalUnit} {f : Rat} (hname : e'.name = e.name) (hparams : e'.params = e.params)
    (hu : e.unit = some u) (hu' : e'.unit = some u') (hf : u.factorTo u' = .ok f)
    (hvalues : ∀ args, I'.entry e.name args = (I.entry e.name args).map ((f : ℝ) * ·))
  | plain (hname : e'.name = e.name) (hparams : e'.params = e.params) (hu : e.unit = none)
    (hu' : e'.unit = none) (hvalues : ∀ args, I'.entry e.name args = I.entry e.name args)

theorem Entry.Redeclared.restates {I I' : Interpretation} {e e' : Entry} (h : Redeclared I I' e e') :
    Restates I I' e e' := by
  cases h with
  | converted hname hparams hu hu' hf hvalues =>
    exact restates_of_factor hname hparams hu hu' hf hvalues
  | plain hname hparams hu hu' hvalues =>
    refine ⟨hparams, by rw [hu, hu'], by rw [hu, hu'], fun args => ?_⟩
    rw [Interpretation.physical, Interpretation.physical, hname, hvalues, hu, hu']

namespace Scope

/-- The entries of the second scope restate those of the first. -/
structure Restates (I I' : Interpretation) (s s' : Scope) : Prop where
  declared_eq : s'.declared = s.declared
  parameter_eq : I'.parameter = I.parameter
  entries : ∀ name, Option.Rel (Entry.Restates I I') (s.entries.get? name) (s'.entries.get? name)

/-- The entries of the second scope are those of the first, declared again. -/
structure Redeclared (I I' : Interpretation) (s s' : Scope) : Prop where
  declared_eq : s'.declared = s.declared
  parameter_eq : I'.parameter = I.parameter
  entries : ∀ name, Option.Rel (Entry.Redeclared I I') (s.entries.get? name) (s'.entries.get? name)

variable {I I' : Interpretation} {s s' : Scope}

theorem Redeclared.restates (h : Redeclared I I' s s') : Restates I I' s s' :=
  ⟨h.declared_eq, h.parameter_eq, fun name =>
    (h.entries name).rec (fun h => .some h.restates) .none⟩

theorem ofEntry?_restates {e e' : Entry} (h : Entry.Restates I I' e e') (args : List ℝ) :
    PhysicalValue.ofEntry? I' e' args = PhysicalValue.ofEntry? I e args := by
  have hphysical : ∀ (J : Interpretation) (g : Entry), PhysicalValue.ofEntry? J g args =
      (J.physical g args).map fun v => ⟨v, unitVector g.unit⟩ := by
    intro J g
    rw [PhysicalValue.ofEntry?, Interpretation.physical, Option.map_map]
    rfl
  rw [hphysical, hphysical, h.physical_eq, h.vector_eq]

/-- What a symbol stands for in the two scopes. -/
inductive SameRole (I I' : Interpretation) : Role → Role → Prop where
  | parameter : SameRole I I' .parameter .parameter
  | entry {e e' : Entry} (h : Entry.Restates I I' e e') : SameRole I I' (.entry e) (.entry e')
  | constant (c : Constant) : SameRole I I' (.constant c) (.constant c)

/-- What a called name stands for in the two scopes. -/
inductive SameTarget (I I' : Interpretation) : CallTarget → CallTarget → Prop where
  | entry {e e' : Entry} (h : Entry.Restates I I' e e') : SameTarget I I' (.entry e) (.entry e')
  | sqrt : SameTarget I I' .sqrt .sqrt
  | builtin (f : Builtin) : SameTarget I I' (.builtin f) (.builtin f)

theorem isDeclared_restates (h : Restates I I' s s') (name : String) :
    s'.isDeclared name = s.isDeclared name := by
  rw [isDeclared, h.declared_eq, isDeclared]

/-- The entry that a name stands for unless it is declared. -/
theorem lookup_restates (h : Restates I I' s s') (name : String) :
    Option.Rel (Entry.Restates I I') (if s.isDeclared name then none else s.entries.get? name)
      (if s'.isDeclared name then none else s'.entries.get? name) := by
  rw [isDeclared_restates h]
  split
  · exact .none
  · exact h.entries name

theorem role_restates (h : Restates I I' s s') (name : String) :
    SameRole I I' (s.role name) (s'.role name) := by
  have hrel := h.entries name
  unfold role
  rw [isDeclared_restates h]
  split
  · exact .parameter
  · generalize s.entries.get? name = g at hrel
    generalize s'.entries.get? name = g' at hrel
    cases hrel with
    | some hrel => exact .entry hrel
    | none =>
      cases Constant.ofName? name with
      | some c => exact .constant c
      | none => exact .parameter

theorem target?_restates (h : Restates I I' s s') (name : String) :
    Option.Rel (SameTarget I I') (s.target? name) (s'.target? name) := by
  have hrel := lookup_restates h name
  unfold target?
  generalize (if s.isDeclared name then none else s.entries.get? name) = g at hrel
  generalize (if s'.isDeclared name then none else s'.entries.get? name) = g' at hrel
  cases hrel with
  | some hrel => exact .some (.entry hrel)
  | none =>
    change Option.Rel _ (if name = "sqrt" then _ else _) (if name = "sqrt" then _ else _)
    split
    · exact .some .sqrt
    · cases Builtin.ofName? name with
      | none => exact .none
      | some f => exact .some (.builtin f)

theorem symbolValue?_restates (h : Restates I I' s s') (name : String) :
    s'.symbolValue? I' name = s.symbolValue? I name := by
  have hrole := role_restates h name
  unfold symbolValue?
  rw [h.parameter_eq]
  generalize s.role name = r at hrole
  generalize s'.role name = r' at hrole
  cases hrole with
  | parameter => rfl
  | entry hrel =>
    change PhysicalValue.ofEntry? I' _ _ = PhysicalValue.ofEntry? I _ _
    rw [ofEntry?_restates hrel, hrel.params_eq]
  | constant c => rfl

theorem callValue?_restates {target target' : CallTarget} (h : SameTarget I I' target target')
    (args : List PhysicalValue) : callValue? I' args target' = callValue? I args target := by
  cases h with
  | entry h => exact ofEntry?_restates h _
  | sqrt => rfl
  | builtin f => rfl

mutual

/-- Restating entries changes no physical value. -/
theorem physicalValue?_restates (h : Restates I I' s s') :
    ∀ e : Expr, s'.physicalValue? I' e = s.physicalValue? I e
  | .number _ => rfl
  | .symbol name => symbolValue?_restates h name
  | .neg e => by rw [physicalValue?, physicalValue?_restates h e, physicalValue?]
  | .binary op l r => by
    rw [physicalValue?, physicalValue?_restates h l, physicalValue?_restates h r, physicalValue?]
  | .call name args => by
    have htarget := target?_restates h name
    rw [physicalValue?, physicalValues?_restates h args, physicalValue?]
    generalize s.target? name = t at htarget
    generalize s'.target? name = t' at htarget
    cases htarget with
    | none => rfl
    | some htarget =>
      congr 1
      funext Xs
      exact callValue?_restates htarget Xs

theorem physicalValues?_restates (h : Restates I I' s s') :
    ∀ es : List Expr, s'.physicalValues? I' es = s.physicalValues? I es
  | [] => rfl
  | e :: es => by
    rw [physicalValues?, physicalValue?_restates h e, physicalValues?_restates h es,
      physicalValues?]

end

theorem symbolCarries_restates (h : Restates I I' s s') (name : String) :
    s'.symbolCarries name = s.symbolCarries name := by
  have hrole := role_restates h name
  unfold symbolCarries
  generalize s.role name = r at hrole
  generalize s'.role name = r' at hrole
  cases hrole with
  | parameter => rfl
  | entry hrel => exact hrel.present_eq
  | constant c => rfl

mutual

/-- Restating entries changes neither which expressions carry a unit … -/
theorem carriesUnit_restates (h : Restates I I' s s') :
    ∀ e : Expr, s'.carriesUnit e = s.carriesUnit e
  | .number _ => rfl
  | .symbol name => symbolCarries_restates h name
  | .neg e => by rw [carriesUnit, carriesUnit_restates h e, carriesUnit]
  | .binary op l r => by
    rw [carriesUnit, carriesUnit_restates h l, carriesUnit_restates h r, carriesUnit]
  | .call name args => by
    have htarget := target?_restates h name
    rw [carriesUnit, carryUnits_restates h args, carriesUnit]
    generalize s.target? name = t at htarget
    generalize s'.target? name = t' at htarget
    cases htarget with
    | none => rfl
    | some htarget =>
      cases htarget with
      | entry h => exact h.present_eq
      | sqrt => rfl
      | builtin f => rfl

theorem carryUnits_restates (h : Restates I I' s s') :
    ∀ es : List Expr, s'.carryUnits es = s.carryUnits es
  | [] => rfl
  | e :: es => by
    rw [carryUnits, carriesUnit_restates h e, carryUnits_restates h es, carryUnits]

end

theorem callHomogeneous_restates {target target' : CallTarget}
    (h : SameTarget I I' target target') (args : List Bool) :
    CallHomogeneous args target' ↔ CallHomogeneous args target := by
  cases h with
  | entry h => rfl
  | sqrt => rfl
  | builtin f => rfl

mutual

/-- … nor which are homogeneous. -/
theorem homogeneous_restates (h : Restates I I' s s') :
    ∀ e : Expr, s.Homogeneous e → s'.Homogeneous e
  | .number _, _ => trivial
  | .symbol _, _ => trivial
  | .neg e, hom => homogeneous_restates h e hom
  | .binary op l r, hom => by
    obtain ⟨hl, hr, hboth⟩ := hom
    refine ⟨homogeneous_restates h l hl, homogeneous_restates h r hr, fun hop => ?_⟩
    rw [carriesUnit_restates h l, carriesUnit_restates h r]
    exact hboth hop
  | .call name args, hom => by
    obtain ⟨hall, hcall⟩ := hom
    refine ⟨homogeneousAll_restates h args hall, fun target' ht' => ?_⟩
    have htarget := target?_restates h name
    rw [ht'] at htarget
    rw [carryUnits_restates h args]
    cases ht : s.target? name with
    | none =>
      rw [ht] at htarget
      cases htarget
    | some target =>
      rw [ht] at htarget
      cases htarget with
      | some htarget =>
        exact (callHomogeneous_restates htarget _).mpr (hcall target ht)

theorem homogeneousAll_restates (h : Restates I I' s s') :
    ∀ es : List Expr, s.HomogeneousAll es → s'.HomogeneousAll es
  | [], _ => trivial
  | e :: es, ⟨he, hes⟩ => ⟨homogeneous_restates h e he, homogeneousAll_restates h es hes⟩

end

end Scope

namespace Entry

variable {context context' : BuildContext} {key : Key} {x : Expr} {e e' : Entry}

theorem Commensurable.restates {I I' : Interpretation}
    (h : Scope.Restates I I' (context.scope key) (context'.scope key))
    (hx : Commensurable context key x) : Commensurable context' key x where
  homogeneous := Scope.homogeneous_restates h x hx.homogeneous
  carries hkey := (Scope.carriesUnit_restates h x).trans (hx.carries hkey)

/-- Compiling is sound for units. The compiled term times the scale of the unit is the physical
value of the source, wherever that has one, and the unit has its exponents. Compiled against entries
that were declared again in compatible units, with their values converted, the source gives an entry with
the same physical value; and so it does against any that have the same physical values. -/
theorem compiled_sound (h : Compiled context key x e) (hx : Commensurable context key x) :
    ∃ t, e.expression = some t ∧
      (∀ I X, (context.scope key).physicalValue? I x = some X →
        ∃ v, t.value? I = some v ∧ v * unitScale e.unit = X.magnitude ∧
          unitVector e.unit = X.dimension) ∧
      ∀ context' e', Compiled context' key x e' →
        ∃ t', e'.expression = some t' ∧
          ∀ I I', Scope.Restates I I' (context.scope key) (context'.scope key) ∨
              Scope.Redeclared I I' (context.scope key) (context'.scope key) →
            ∀ X, (context.scope key).physicalValue? I x = some X →
              ∃ v v', t.value? I = some v ∧ t'.value? I' = some v' ∧
                v * unitScale e.unit = v' * unitScale e'.unit ∧
                unitVector e.unit = unitVector e'.unit := by
  obtain ⟨t, ht, hvalue⟩ := h.denotes hx
  refine ⟨t, ht, hvalue, fun context' e' h' => ?_⟩
  obtain ⟨_, _, t', _, _, _, ht'⟩ := h'.resolved
  refine ⟨t', ht', fun I I' hagain X hX => ?_⟩
  have hre : Scope.Restates I I' (context.scope key) (context'.scope key) :=
    hagain.elim id Scope.Redeclared.restates
  obtain ⟨t'', ht'', hvalue'⟩ := h'.denotes (hx.restates hre)
  rw [ht', Option.some.injEq] at ht''
  obtain ⟨v, hv, hmag, hdim⟩ := hvalue I X hX
  obtain ⟨v', hv', hmag', hdim'⟩ := hvalue' I' X ((Scope.physicalValue?_restates hre x).trans hX)
  exact ⟨v, v', hv, ht'' ▸ hv', hmag.trans hmag'.symm, hdim.trans hdim'.symm⟩

end Entry

namespace Registry

/-- What a registry builds entries against. -/
def context (r : Registry) : BuildContext :=
  ⟨r.entries, r.settings.freeParameters, r.settings.fill, r.stamps.next, r.stamps.retired⟩

/-- What a registry builds from a text after any run is a compiled entry. -/
theorem compiled_run (settings : Settings) (ops : List Operation) {key : Key} {text : String}
    {x : Expr} {e : Entry} (hkey : key.Written) (hread : Expr.read text = .ok x)
    (h : (run settings ops).build (run settings ops).settings.fill key (.expression text) = .ok e) :
    Entry.Compiled (run settings ops).context key x e :=
  ⟨(run_wellFormed settings ops).built, hkey, text, hread, h⟩

/-- The registry that holds `a(x) = x` in kilometres. -/
def inKilometres : Registry := run {} [.set "a(x)[km]" (.expression "x")]

/-- The registry that holds `a(x) = x` in metres. -/
def inMetres : Registry := run {} [.set "a(x)[m]" (.expression "x")]

/-- The registry holds nothing but `a`, with the parameter `x`, in the given unit. -/
structure HoldsLength (r : Registry) (g : Entry) (u : PhysicalUnit) : Prop where
  entries : r.entries.toList = [("a", g)]
  name : g.name = "a"
  params : g.params = ["x"]
  unit : g.unit = some u

theorem HoldsLength.get? {r : Registry} {g : Entry} {u : PhysicalUnit} (h : r.HoldsLength g u) (name : String) :
    r.entries.get? name = if name = "a" then some g else none := by
  rw [NameMap.get?, h.entries, List.lookup_cons]
  by_cases hname : name = "a"
  · simp [hname]
  · simp [hname, beq_eq_false_iff_ne.mpr hname]

/-- Both hold `a`, and its units are related by a factor of a thousand. -/
theorem exists_lengths : ∃ g g' u u', inKilometres.HoldsLength g u ∧ inMetres.HoldsLength g' u' ∧
    u.scale = 1000 ∧ u.factorTo u' = .ok 1000 := by
  have hentry : ∀ (r : Registry) (scale : Rat), (r.entries.toList.map fun p =>
      (p.1, p.2.name, p.2.params, p.2.unit.map PhysicalUnit.scale)) =
        [("a", "a", ["x"], some scale)] →
      ∃ g u, r.HoldsLength g u ∧ u.scale = scale := by
    intro r scale h
    obtain ⟨⟨n, g⟩, hlist, hp⟩ := List.map_eq_singleton_iff.mp h
    simp only [Prod.mk.injEq] at hp
    obtain ⟨rfl, hname, hparams, hunit⟩ := hp
    obtain ⟨u, hu, hscale⟩ := Option.map_eq_some_iff.mp hunit
    exact ⟨g, u, ⟨hlist, hname, hparams, hu⟩, hscale⟩
  obtain ⟨g, u, hg, hscale⟩ := hentry inKilometres 1000 (by decide +kernel)
  obtain ⟨g', u', hg', hscale'⟩ := hentry inMetres 1 (by decide +kernel)
  have hcompatible : ((inKilometres.entries.toList.zip inMetres.entries.toList).map fun p =>
      p.1.2.unit.bind fun u => p.2.2.unit.map fun u' => u.isCompatible u') = [some true] := by
    decide +kernel
  rw [hg.entries, hg'.entries] at hcompatible
  have hsame : u.isCompatible u' = true := by simpa [hg.unit, hg'.unit] using hcompatible
  refine ⟨g, g', u, u', hg, hg', hscale, ?_⟩
  rw [PhysicalUnit.factorTo, if_pos hsame, hscale, hscale']
  simp [PhysicalUnit.liftNumber, Exact.divide]

set_option maxRecDepth 20000 in
/-- `f(x) = a` in metres: the compiled term is a thousand times the value of `a`. If `a` is declared
again in metres, with values that are a thousand times as large, it is the same in metres. -/
theorem compiled_sound_metres : ∃ key e t e' t',
    Entry.Compiled inKilometres.context key (.symbol "a") e ∧ e.expression = some t ∧
      Entry.Compiled inMetres.context key (.symbol "a") e' ∧ e'.expression = some t' ∧
      unitScale e.unit = 1 ∧
      (∀ I a, I.entry "a" [I.parameter "x"] = some a →
        ∃ v, t.value? I = some v ∧ v * unitScale e.unit = a * 1000) ∧
      ∀ I I' a, I'.parameter = I.parameter →
        (∀ args, I'.entry "a" args = (I.entry "a" args).map (1000 * ·)) →
        I.entry "a" [I.parameter "x"] = some a →
        ∃ v v', t.value? I = some v ∧ t'.value? I' = some v' ∧
          v * unitScale e.unit = v' * unitScale e'.unit := by
  have hok : ((Key.read "f(x)[m]").bind fun key =>
      (Entry.build inKilometres.context key (.expression "a")).bind fun e =>
        (Entry.build inMetres.context key (.expression "a")).map (e, ·)).isOk = true := by rfl
  obtain ⟨⟨e, e'⟩, hbind⟩ := Except.exists_of_isOk hok
  obtain ⟨key, hkey, hbind⟩ := Except.bind_eq_ok.mp hbind
  obtain ⟨_, hbuild, hmap⟩ := Except.bind_eq_ok.mp hbind
  obtain ⟨_, hbuild', heq⟩ := Except.map_eq_ok.mp hmap
  cases heq
  have hcomp : Entry.Compiled inKilometres.context key (.symbol "a") e :=
    compiled_run {} _ ⟨_, hkey⟩ (by rfl) hbuild
  have hcomp' : Entry.Compiled inMetres.context key (.symbol "a") e' :=
    compiled_run {} _ ⟨_, hkey⟩ (by rfl) hbuild'
  have hargs : (Key.read "f(x)[m]").map Key.args = .ok (some ["x"]) := by rfl
  have hscale : ((Key.read "f(x)[m]").bind fun key =>
      (Entry.build inKilometres.context key (.expression "a")).map
        fun e => e.unit.map PhysicalUnit.scale) = .ok (some 1) := by rfl
  simp only [hkey, Except.map, Except.ok.injEq] at hargs
  simp only [hkey, Except.bind, hbuild, Except.map, Except.ok.injEq] at hscale
  obtain ⟨u, hu, huscale⟩ := Option.map_eq_some_iff.mp hscale
  obtain ⟨g, g', w, w', hg, hg', hwscale, hfactor⟩ := exists_lengths
  have hrole : (inKilometres.context.scope key).role "a" = .entry g := by
    have hget : inKilometres.context.entries.get? "a" = some g := hg.get? "a"
    simp [Scope.role, Scope.isDeclared, BuildContext.scope, hargs, hget]
  have hcomm : Entry.Commensurable inKilometres.context key (.symbol "a") :=
    ⟨trivial, fun _ => by simp [Scope.carriesUnit, Scope.symbolCarries, hrole, hg.unit]⟩
  obtain ⟨t, ht, hvalue, hagain⟩ := Entry.compiled_sound hcomp hcomm
  obtain ⟨t', ht', hsame⟩ := hagain inMetres.context e' hcomp'
  have hphysical : ∀ I a, I.entry "a" [I.parameter "x"] = some a →
      (inKilometres.context.scope key).physicalValue? I (.symbol "a") =
        some ⟨a * 1000, w.dimension.vector⟩ := by
    intro I a ha
    rw [Scope.physicalValue?, Scope.symbolValue?, hrole]
    simp [PhysicalValue.ofEntry?, hg.name, hg.params, ha, hg.unit, hwscale]
  refine ⟨key, e, t, e', t', hcomp, ht, hcomp', ht', by simp [hu, huscale], fun I a ha => ?_,
    fun I I' a hparameter hvalues ha => ?_⟩
  · obtain ⟨v, hv, hmag, -⟩ := hvalue I _ (hphysical I a ha)
    exact ⟨v, hv, hmag⟩
  · have hre : Scope.Redeclared I I' (inKilometres.context.scope key) (inMetres.context.scope key) := by
      refine ⟨rfl, hparameter, fun name => ?_⟩
      change Option.Rel _ (inKilometres.entries.get? name) (inMetres.entries.get? name)
      rw [hg.get?, hg'.get?]
      split
      · refine .some (.converted (hg'.name.trans hg.name.symm) (hg'.params.trans hg.params.symm)
          hg.unit hg'.unit hfactor fun args => ?_)
        rw [hg.name, hvalues]
        norm_num
      · exact .none
    obtain ⟨v, v', hv, hv', hmag, -⟩ := hsame I I' (.inr hre) _ (hphysical I a ha)
    exact ⟨v, v', hv, hv', hmag⟩

end Registry

end Formulary
