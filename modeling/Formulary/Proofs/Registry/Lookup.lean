import Formulary.Proofs.Entry.Parameters
import Formulary.Proofs.Registry.Defaults
import Formulary.Proofs.Registry.Safety
import Mathlib.Data.List.TakeWhile

/-!
Which keys find which entries.

An entry is found under its name, under its signature, and under its displayed signature with blanks
put in and an annotation after it, and no key finds two entries: a name has no parenthesis, a signature
has one, and what stands before it is the name. Nothing else is found. In particular a signature is that
of the entry that is there now, so those of entries that have been replaced or removed find nothing.

## How the proof goes

Names are looked up among the entries and signatures in the index, so two maps have to stay in step. The
entries change one by one; the index does not. It is made anew from the entries whenever a changed copy
is committed, so every successful operation leaves the index of its own entries whatever it had before
(`Step.indexed`), and so does every run (`run_indexed`).

From then on the index can be read as what `index` makes of the entries. Making it could go wrong in two
ways: a pair is left out because the signature is the name, or is overwritten by a later pair with the
same signature. Neither happens if the entries are well formed (`get?_index_lookupKey`), so the index has
for each entry the one pair that it should have, and nothing else (`get?_index_iff`).

## Why the parameters have to be names

A function given from outside may call a parameter what no text spells. Its signature is in the index all
the same, but a key with blanks or a bracket in it is not looked up as it stands, so the entry would not be
found under what `keys` lists for it. Nothing else needs this condition.
-/

namespace Formulary

open Formulary.Expr (isTokenChar)

/-! ## Signatures without blanks -/

/-- The key is the text with blanks put in or left out, and perhaps an annotation after it. -/
def SpelledAs (text key : String) : Prop :=
  ∃ shown rest, key.toList = shown ++ rest ∧
    shown.filter (!isBlank ·) = text.toList.filter (!isBlank ·) ∧ ∀ c ∈ rest.head?, c = '['

/-- The name and the parameters can be read. -/
structure Signature.Named (s : Signature) : Prop where
  name : isIdentifier s.name.toList = true
  params : ∀ p ∈ s.params, isIdentifier p.toList = true

namespace Signature

variable {s : Signature} {c : Char}

theorem mem_lookupKey (hs : s.Named) (hc : c ∈ s.lookupKey.toList) :
    isTokenChar c = true ∨ c = '(' ∨ c = ',' ∨ c = ')' := by
  simp only [lookupKey, String.toList_append, toList_joinWith, List.mem_append] at hc
  rcases hc with ((hc | hc) | hc) | hc
  · exact .inl (isTokenChar_of_isIdentifier hs.name c hc)
  · exact .inr (.inl (by simpa using hc))
  · rcases mem_intercalate hc with rfl | ⟨part, hpart, hc⟩
    · exact .inr (.inr (.inl rfl))
    · obtain ⟨p, hp, rfl⟩ := List.mem_map.mp hpart
      exact .inl (isTokenChar_of_isIdentifier (hs.params p hp) c hc)
  · exact .inr (.inr (.inr (by simpa using hc)))

/-- A signature has neither blanks nor brackets. -/
theorem plain_of_mem_lookupKey (hs : s.Named) (hc : c ∈ s.lookupKey.toList) :
    isBlank c = false ∧ c ≠ '[' := by
  rcases mem_lookupKey hs hc with hc | rfl | rfl | rfl
  · refine ⟨not_blank_of_isTokenChar hc, ?_⟩
    rintro rfl
    exact absurd hc (by decide)
  all_goals exact ⟨by decide, by decide⟩

/-- The displayed signature is the signature but for blanks. -/
theorem filter_text (hs : s.Named) : s.text.toList.filter (!isBlank ·) = s.lookupKey.toList := by
  have hname : ∀ n : String, isIdentifier n.toList = true → n.toList.filter (!isBlank ·) = n.toList :=
    fun n hn => List.filter_eq_self.mpr fun d hd => by simp [not_blank_of_name hn d hd]
  have hparams : (s.params.map String.toList).map (List.filter (!isBlank ·)) =
      s.params.map String.toList := by
    rw [List.map_map]
    exact List.map_congr_left fun p hp => hname p (hs.params p hp)
  have hsep : ", ".toList.filter (!isBlank ·) = ",".toList := by decide
  have hparens : "(".toList.filter (!isBlank ·) = "(".toList ∧
      ")".toList.filter (!isBlank ·) = ")".toList := by decide
  simp only [text, lookupKey, String.toList_append, toList_joinWith, List.filter_append,
    filter_intercalate_sep, hsep, hparams, hname s.name hs.name, hparens]

end Signature

namespace Registry

variable {r : Registry} {e : Entry} {n text key : String}

/-- A key that spells a displayed signature is the signature once it is made plain. -/
theorem plainKey_of_spelledAs {s : Signature} (hs : s.Named) (h : SpelledAs s.text key) :
    plainKey key = s.lookupKey := by
  obtain ⟨shown, rest, hkey, hshown, hrest⟩ := h
  rw [Signature.filter_text hs] at hshown
  have hbracket : '[' ∉ shown := fun hmem =>
    (Signature.plain_of_mem_lookupKey hs (hshown ▸ List.mem_filter.mpr ⟨hmem, by decide⟩)).2 rfl
  have hnothing : squeeze rest = [] := by
    cases rest with
    | nil => rfl
    | cons c rest =>
      obtain rfl := hrest c rfl
      exact squeeze_bracket
  refine String.toList_inj.mp ?_
  rw [plainKey, String.toList_ofList, hkey]
  exact (squeeze_append hbracket).trans (by rw [hshown, hnothing, List.append_nil])

theorem plainKey_lookupKey {s : Signature} (hs : s.Named) : plainKey s.lookupKey = s.lookupKey :=
  plainKey_of_spelledAs hs ⟨s.lookupKey.toList, [], by simp, by
    rw [Signature.filter_text hs]
    exact List.filter_eq_self.mpr fun c hc => by simp [(Signature.plain_of_mem_lookupKey hs hc).1],
    by simp⟩

theorem plainKey_name (hn : isIdentifier n.toList = true) : plainKey n = n := by
  refine String.toList_inj.mp ?_
  rw [plainKey, String.toList_ofList]
  have h := squeeze_append (t := []) (not_mem_of_name hn (c := '[') (by decide))
  rw [List.append_nil] at h
  refine h.trans ?_
  rw [squeeze, List.takeWhile_nil, List.filter_nil, List.append_nil]
  exact List.filter_eq_self.mpr fun d hd => by simp [not_blank_of_name hn d hd]

/-! ## The index of signatures -/

/-- The index has the signature of each entry under which stands its name, and nothing else. -/
theorem get?_index_iff (hr : r.WellFormed) : (index r.entries).get? key = some n ↔
    ∃ e, (n, e) ∈ r.entries.toList ∧ e.signature.lookupKey = key := by
  constructor
  · intro h
    obtain ⟨e, he, hkey⟩ := get?_of_index h
    exact ⟨e, NameMap.mem_toList_iff.mpr he, hkey⟩
  · rintro ⟨e, he, rfl⟩
    exact get?_index_lookupKey hr (NameMap.mem_toList_iff.mp he)

/-- What the index has is no name. -/
theorem not_contains_of_index (hr : r.WellFormed) (h : (index r.entries).contains key = true) :
    r.entries.contains key = false := by
  obtain ⟨n, hn⟩ := NameMap.contains_iff_get?.mp h
  obtain ⟨e, -, rfl⟩ := (get?_index_iff hr).mp hn
  exact Bool.eq_false_iff.mpr (not_contains_lookupKey hr e.signature)

/-! ## Coherence -/

/-- The keys that find the entry. -/
structure Finds (r : Registry) (e : Entry) : Prop where
  name : r.get e.name = .ok e
  signature : r.get e.signature.lookupKey = .ok e
  shown : ∀ key, SpelledAs e.signature.text key → r.get key = .ok e

/-- Entries stand under their own names; each is found under its name and its signature, however that
is spelled, and nothing else is found; the keys are these, in order, each once; and a signature that is
not that of the entry of its name finds nothing. The index that is carried along is the one that the
entries give: it has their signatures and no others, and names and signatures never collide. -/
structure Coherent (r : Registry) : Prop where
  named : ∀ n e, (n, e) ∈ r.entries.toList → e.name = n
  finds : ∀ n e, (n, e) ∈ r.entries.toList → r.Finds e
  keys_eq : r.keys = (r.entries.toList.map Prod.snd).flatMap fun e =>
    e.name :: if e.params = [] then [] else [e.signature.lookupKey]
  nodup_keys : r.keys.Nodup
  resolves : ∀ key, (∃ e, r.get key = .ok e) ↔ plainKey key ∈ r.entries.names ∨
    ∃ n e, (n, e) ∈ r.entries.toList ∧ e.signature.lookupKey = plainKey key
  gone : ∀ s : Signature, s.Named →
    (∀ e, r.entries.get? s.name = some e → e.signature.lookupKey ≠ s.lookupKey) →
      ∀ e, r.get s.lookupKey ≠ .ok e
  indexed : r.aliases = index r.entries
  aliased : ∀ key n, r.aliases.get? key = some n ↔
    ∃ e, (n, e) ∈ r.entries.toList ∧ e.signature.lookupKey = key
  apart : ∀ key, r.aliases.contains key = true → r.entries.contains key = false

theorem get_of_plainKey (hr : r.WellFormed) (hindex : r.Indexed) (he : r.entries.get? n = some e)
    (h : plainKey key = n ∨ plainKey key = e.signature.lookupKey) : r.get key = .ok e :=
  get_eq_ok.mpr ⟨n, nameOf?_of_plainKey hr hindex he h, he⟩

theorem nameOf?_eq_some (hindex : r.Indexed) (h : r.nameOf? key = some n) : plainKey key = n ∨
    ∃ e, (n, e) ∈ r.entries.toList ∧ e.signature.lookupKey = plainKey key := by
  unfold nameOf? at h
  dsimp only at h
  split at h
  · exact .inl (Option.some.inj h)
  · rw [hindex] at h
    obtain ⟨e, he, hkey⟩ := get?_of_index h
    exact .inr ⟨e, NameMap.mem_toList_iff.mpr he, hkey⟩

/-- A key finds an entry just if it is, made plain, a name or a signature. -/
theorem get_ok_iff (hr : r.WellFormed) (hindex : r.Indexed) (key : String) : (∃ e, r.get key = .ok e) ↔
    plainKey key ∈ r.entries.names ∨
      ∃ n e, (n, e) ∈ r.entries.toList ∧ e.signature.lookupKey = plainKey key := by
  constructor
  · rintro ⟨e, he⟩
    obtain ⟨n, hn, he⟩ := get_eq_ok.mp he
    rcases nameOf?_eq_some hindex hn with rfl | ⟨g, hg, hkey⟩
    · exact .inl (NameMap.mem_names_of_get? he)
    · exact .inr ⟨n, g, hg, hkey⟩
  · rintro (hname | ⟨n, e, he, hkey⟩)
    · obtain ⟨e, he⟩ := NameMap.get?_of_mem_names hname
      exact ⟨e, get_of_plainKey hr hindex he (.inl rfl)⟩
    · exact ⟨e, get_of_plainKey hr hindex (NameMap.mem_toList_iff.mp he) (.inr hkey.symm)⟩

theorem keys_eq_entries (hr : r.WellFormed) :
    r.keys = (r.entries.toList.map Prod.snd).flatMap fun e =>
      e.name :: if e.params = [] then [] else [e.signature.lookupKey] := by
  rw [keys, List.flatMap_map]
  refine List.flatMap_congr fun p hp => ?_
  obtain ⟨n, e⟩ := p
  dsimp only
  rw [hr.named n e (NameMap.mem_toList_iff.mp hp)]
  cases hparams : e.params <;> simp

/-- What stands before the parenthesis in a key of an entry is the name of the entry. -/
theorem takeWhile_of_mem_keys (hn : isIdentifier e.name.toList = true)
    (hkey : key ∈ e.name :: if e.params = [] then [] else [e.signature.lookupKey]) :
    key.toList.takeWhile (· != '(') = e.name.toList := by
  have hall : ∀ c ∈ e.name.toList, (c != '(') = true := fun c hc => by
    rw [bne_iff_ne]
    rintro rfl
    exact not_mem_of_name hn (by decide) hc
  rcases List.mem_cons.mp hkey with rfl | hkey
  · exact List.takeWhile_eq_self_iff.2 hall
  · split at hkey
    · cases hkey
    · rw [List.mem_singleton.mp hkey, Signature.lookupKey]
      simp only [String.toList_append, List.append_assoc]
      exact (List.takeWhile_append_of_pos hall).trans (by simp)

theorem nodup_keys (hr : r.WellFormed) : r.keys.Nodup := by
  rw [keys_eq_entries hr, List.flatMap_map, List.nodup_flatMap]
  have hident : ∀ p ∈ r.entries.toList, isIdentifier p.2.name.toList = true := fun p hp =>
    isIdentifier_of_get? hr (NameMap.mem_toList_iff.mp hp)
  constructor
  · rintro ⟨n, e⟩ hp
    dsimp only
    split
    · simp
    · refine List.nodup_cons.mpr ⟨fun hmem => ?_, List.nodup_singleton _⟩
      refine not_mem_of_name (c := '(') (hident _ hp) (by decide) ?_
      rw [List.mem_singleton.mp hmem]
      simp [Signature.lookupKey]
  · have hnames : r.entries.toList.Pairwise fun p q => p.1 ≠ q.1 :=
      List.pairwise_map.mp r.entries.nodup
    refine hnames.imp_of_mem fun {p q} hp hq hne key hkey hkey' => hne ?_
    have hsame := (takeWhile_of_mem_keys (hident p hp) hkey).symm.trans
      (takeWhile_of_mem_keys (hident q hq) hkey')
    rw [← hr.named p.1 p.2 (NameMap.mem_toList_iff.mp hp),
      ← hr.named q.1 q.2 (NameMap.mem_toList_iff.mp hq)]
    exact String.toList_inj.mp hsame

/-- A registry with the index of its entries, in which all parameters are names, is coherent. -/
theorem coherent_of_named (hr : r.WellFormed) (hindex : r.Indexed)
    (hparams : ∀ n e, r.entries.get? n = some e → ∀ p ∈ e.params, isIdentifier p.toList = true) :
    r.Coherent where
  named n e he := hr.named n e (NameMap.mem_toList_iff.mp he)
  finds n e he := by
    have he := NameMap.mem_toList_iff.mp he
    have hnamed : e.signature.Named := ⟨isIdentifier_of_get? hr he, hparams n e he⟩
    refine ⟨?_, get_of_plainKey hr hindex he (.inr (plainKey_lookupKey hnamed)), fun key hkey =>
      get_of_plainKey hr hindex he (.inr (plainKey_of_spelledAs hnamed hkey))⟩
    exact get_of_plainKey hr hindex he (.inl ((plainKey_name hnamed.name).trans (hr.named n e he)))
  keys_eq := keys_eq_entries hr
  nodup_keys := nodup_keys hr
  resolves := get_ok_iff hr hindex
  gone s hs hother e he := by
    rcases (get_ok_iff hr hindex _).mp ⟨e, he⟩ with hname | ⟨n, g, hg, hkey⟩
    · rw [plainKey_lookupKey hs] at hname
      exact not_contains_lookupKey hr s (NameMap.contains_iff_mem_names.mpr hname)
    · have hg := NameMap.mem_toList_iff.mp hg
      rw [plainKey_lookupKey hs] at hkey
      have hname := Signature.name_of_lookupKey (isIdentifier_of_get? hr hg) hs.name hkey
      refine hother g ?_ hkey
      rw [← hname, show g.signature.name = n from hr.named n g hg]
      exact hg
  indexed := hindex
  aliased key n := hindex ▸ get?_index_iff hr
  apart key h := not_contains_of_index hr (hindex ▸ h)

/-! ## Runs -/

end Registry

/-- The parameters of the function that the operation gives, if it gives one, are names. -/
def Operation.NamesParameters : Operation → Prop
  | .set _ source => source.NamesParameters
  | .delete .. | .refresh _ | .refreshAll | .setFill .. => True

namespace Registry

variable {r : Registry} {e : Entry}

/-- What is made of a source with names for parameters has names for parameters. -/
theorem Made.namesParameters {key : Key} {source : Source}
    (hentries : ∀ n g, r.entries.get? n = some g → ∀ p ∈ g.params, isIdentifier p.toList = true)
    (hsource : source.NamesParameters) (hr : r.WellFormed) (h : r.Made key source e) :
    ∀ p ∈ e.params, isIdentifier p.toList = true := by
  have hbuilt := h.built hr.built h.written
  cases source with
  | expression text =>
    exact Entry.params_of_build (h.derived (hbuilt.isDerived h.source_eq)) h.written trivial hentries
  | function f =>
    obtain ⟨factor, hcallable⟩ := hbuilt.scaledBy h.source_eq
    rw [← h.params_eq, hcallable]
    cases factor <;> exact hsource

/-- Every registry of a run that is given functions with names for parameters is coherent, and what
has been set is found under the key that it was set with. -/
theorem run_coherent (settings : Settings) {ops : List Operation}
    (named : ∀ op ∈ ops, op.NamesParameters) : (run settings ops).Coherent ∧
      ∀ key source e r', (run settings ops).set key source = .ok (e, r') → r'.get key = .ok e := by
  have hwf := run_wellFormed settings ops
  have hnamed : ∀ n e, (run settings ops).entries.get? n = some e →
      (∀ p ∈ e.params, isIdentifier p.toList = true) ∧ e.source.NamesParameters := by
    refine run_preserves_sources (P := fun r => ∀ n e, r.entries.get? n = some e →
        (∀ p ∈ e.params, isIdentifier p.toList = true) ∧ e.source.NamesParameters)
      (S := Source.NamesParameters) (fun n e he => by cases he) (fun key source h => named _ h)
      (fun r hr n e he => (hr n e he).2) (fun r key source e hr hentries hsource hmade => ?_)
      (fun r hr => hr) fun r mode e _ hr n g hg => hr n g (NameMap.get?_of_get?_erase hg)
    exact forall_put hentries
      ⟨hmade.namesParameters (fun n g hg => (hentries n g hg).1) hsource hr, hmade.source_eq ▸ hsource⟩
  refine ⟨coherent_of_named hwf (run_indexed settings ops) fun n e he => (hnamed n e he).1,
    fun key source e r' hset => ?_⟩
  obtain ⟨k, hk, -, hmade, hplaced, -⟩ := set_eq_ok hwf hset
  have hstanding := hplaced.standing
  rw [hmade.name_eq] at hstanding
  exact get_eq_ok.mpr ⟨k.name,
    nameOf?_of_read hplaced.wellFormed hplaced.indexed hk hstanding hmade.args_eq, hstanding⟩

/-- `g` is set again with another list of arguments. -/
def resigned : List Operation :=
  [.set "f(x, y)" (.function (.make (.host firstOfTwo) {} [])),
    .set "g(a, b)" (.expression "f(a, b)"), .set "g(c)" (.expression "f(c, 2*c)")]

/-- The new signature of `g` is found with blanks and an annotation, the old one is not found; the index
has the new one and not the old one. -/
theorem run_coherent_resigned : ∃ e, (run {} resigned).entries.get? "g" = some e ∧
    e.params = ["c"] ∧ (run {} resigned).get "g ( c) [m/s]" = .ok e ∧
    (∀ e', (run {} resigned).get "g(a,b)" ≠ .ok e') ∧
    (∀ key, (run {} resigned).aliases.get? key = some "g" ↔ key = "g(c)") ∧
    ∀ e' r', (run {} resigned).set " h [m]" (.expression "g(t)") = .ok (e', r') →
      r'.get " h [m]" = .ok e' := by
  have named : ∀ op ∈ resigned, op.NamesParameters := by
    intro op hop
    simp only [resigned, List.mem_cons, List.not_mem_nil, or_false] at hop
    rcases hop with rfl | rfl | rfl
    · change ∀ p ∈ ["x", "y"], isIdentifier p.toList = true
      decide
    · trivial
    · trivial
  obtain ⟨hcoherent, hset⟩ := run_coherent {} named
  have hsignature : ((run {} resigned).entries.get? "g").map Entry.signature = some ⟨"g", ["c"]⟩ := by
    decide +kernel
  obtain ⟨e, he, hsignature⟩ := Option.map_eq_some_iff.mp hsignature
  refine ⟨e, he, congrArg Signature.params hsignature, ?_, ?_, fun key => ?_, hset _ _⟩
  · refine (hcoherent.finds "g" e (NameMap.mem_toList_iff.mpr he)).shown _ ?_
    rw [hsignature]
    exact ⟨"g ( c) ".toList, "[m/s]".toList, by decide, by decide,
      fun c hc => (Option.some.inj hc).symm⟩
  · refine hcoherent.gone ⟨"g", ["a", "b"]⟩ ⟨by decide, by decide⟩ fun g hg => ?_
    obtain rfl := Option.some.inj (he.symm.trans hg)
    rw [hsignature]
    decide
  · have hkey : e.signature.lookupKey = "g(c)" := by
      rw [hsignature]
      decide
    rw [hcoherent.aliased, ← hkey]
    constructor
    · rintro ⟨g, hg, rfl⟩
      rw [Option.some.inj (he.symm.trans (NameMap.mem_toList_iff.mp hg))]
    · rintro rfl
      exact ⟨e, NameMap.mem_toList_iff.mpr he, rfl⟩

end Registry

end Formulary
