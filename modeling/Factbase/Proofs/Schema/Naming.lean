import Factbase.Ingest.FactFile
import Factbase.Ingest.Staging
import Factbase.Proofs.Schema.Registered
import Factbase.Proofs.Text

/-!
# Names of predicates

The text of a predicate is its name, a dot and its version. It is read
back as that predicate when the name is not empty, whatever dots and
digits stand in the name, and registration gives no empty names.
-/

namespace Factbase

namespace Predicate

/-- The text of a predicate names it. -/
theorem read?_render {p : Predicate} (hname : p.name ≠ "") : read? p.render = some p := by
  rw [read?, render, splitVersion_version hname]

/-- Predicates with names differ in their texts. -/
theorem render_inj {p q : Predicate} (hp : p.name ≠ "") (hq : q.name ≠ "")
    (h : p.render = q.render) : p = q := by
  have hread := read?_render hp
  rw [h, read?_render hq] at hread
  exact (Option.some.inj hread).symm

end Predicate

/-! ## Names in schemas -/

namespace Schema

variable {s : Schema}

/-- No predicate of a schema has the empty name. -/
def NamesAll (s : Schema) : Prop := ∀ p, s.Defines p → p.name ≠ ""

theorem predicateNamed_name_ne (d : SchemaDecl) (short : String) :
    (d.predicateNamed short).name ≠ "" := by
  intro h
  have hlist := congrArg String.toList h
  simp [SchemaDecl.predicateNamed] at hlist

theorem define_predicate {own : SortedSet Predicate} {scope : Scope} {p : Predicate} {key : TypeExpr}
    {value : Option TypeExpr} {derivation : Option (Pattern × Query)} {d : Definition}
    (h : s.define own scope p key value derivation = .ok d) : d.predicate = p := by
  unfold define at h
  obtain ⟨k, -, h⟩ := Outcome.bind_ok_iff.mp h
  cases value <;> cases derivation <;> obtain ⟨v, -, h⟩ := Outcome.bind_ok_iff.mp h <;>
    dsimp only at h
  case none.none | some.none =>
    cases h
    rfl
  case none.some | some.some =>
    split at h
    · cases h
    · cases h
      rfl

/-- The definitions that a declaration gives are of predicates that it names. -/
theorem defineAll_named {own : SortedSet Predicate} {scope : Scope} {d : SchemaDecl}
    {items : List SchemaItem} {ds : List Definition} (h : s.defineAll own scope d items = .ok ds) :
    ∀ new ∈ ds, ∃ short, new.predicate = d.predicateNamed short := by
  induction items generalizing ds with
  | nil =>
      cases h
      simp
  | cons item items ih =>
      cases item with
      | «alias» name e => exact ih h
      | predicate name key value derivation =>
          rw [defineAll] at h
          obtain ⟨new, hnew, h⟩ := Outcome.bind_ok_iff.mp h
          have hnamed := define_predicate (Outcome.mapError_ok_iff.mp hnew)
          obtain ⟨rest, hrest, rfl⟩ : ∃ rest, s.defineAll own scope d items = .ok rest ∧
              new :: rest = ds := by
            split at h
            · dsimp only at h
              split at h
              · cases h
              · obtain ⟨rest, hrest, hout⟩ := Outcome.bind_ok_iff.mp h
                exact ⟨rest, hrest, by cases hout; rfl⟩
            · obtain ⟨rest, hrest, hout⟩ := Outcome.bind_ok_iff.mp h
              exact ⟨rest, hrest, by cases hout; rfl⟩
          exact List.forall_mem_cons.mpr ⟨⟨name, hnamed⟩, ih hrest⟩

theorem register_named {s' : Schema} {d : SchemaDecl} (hs : s.NamesAll)
    (h : s.register d = .ok s') : s'.NamesAll := by
  unfold register at h
  split at h
  · split at h
    · cases h
      exact hs
    · cases h
  · obtain ⟨base, -, h⟩ := Outcome.bind_ok_iff.mp h
    obtain ⟨scope, -, h⟩ := Outcome.bind_ok_iff.mp h
    obtain ⟨own, -, h⟩ := Outcome.bind_ok_iff.mp h
    obtain ⟨⟨scope', aliases⟩, -, h⟩ := Outcome.bind_ok_iff.mp h
    obtain ⟨definitions, hdefinitions, hout⟩ := Outcome.bind_ok_iff.mp h
    cases hout
    rintro p ⟨new, hnew⟩
    rw [get?] at hnew
    dsimp only at hnew
    rw [SortedMap.get?_insertMany] at hnew
    rcases Option.or_eq_some_iff.mp hnew with hfind | ⟨-, hget⟩
    · obtain ⟨e, he, -⟩ := Option.map_eq_some_iff.mp hfind
      obtain ⟨new, hmem, rfl⟩ :=
        List.mem_map.mp (List.mem_reverse.mp (List.mem_of_find?_eq_some he))
      obtain rfl : new.predicate = p := by simpa using List.find?_some he
      obtain ⟨short, hshort⟩ := defineAll_named hdefinitions new hmem
      rw [hshort]
      exact predicateNamed_name_ne d short
    · exact hs p ⟨new, hget⟩

/-- Registered schemas name all their predicates. -/
theorem Registered.namesAll (h : Registered s) : s.NamesAll := by
  induction h with
  | builtin =>
      rintro p ⟨d, hd⟩
      have hmem : (p, d) ∈ Schema.builtin.predicates.entries := SortedMap.get?_eq_some_iff.mp hd
      have hp : p = ⟨"sys.Blob", 1⟩ := by
        simp only [Schema.builtin, SortedMap.ofList, SortedMap.insertMany, List.foldl,
          SortedMap.insert, SortedMap.insertEntry, SortedMap.entries_empty, List.mem_singleton,
          Prod.mk.injEq] at hmem
        exact hmem.1
      rw [hp]
      decide
  | register _ hregister ih => exact register_named ih hregister

/-- A name that has a definition has a latest version. -/
theorem latest?_isSome {p : Predicate} (h : s.Defines p) : (s.latest? p.name).isSome := by
  have hmem : p ∈ s.versions p.name :=
    List.mem_filter.mpr ⟨SortedMap.mem_keys_iff.mpr h, by simp⟩
  have hlast : (s.versions p.name).getLast?.isSome := by
    rw [List.getLast?_isSome]
    exact List.ne_nil_of_mem hmem
  unfold latest?
  cases s.umbrella?.bind fun info => info.exports.values.find? (·.name = p.name) with
  | some q => rfl
  | none => exact hlast

theorem resolve_version {p : Predicate} {d : Definition} (h : s.get? p = some d) :
    s.resolve p.name (some p.version) = .ok d := by
  simp only [resolve]
  rw [h]

end Schema

/-- In a fact file the text of a predicate stands for its definition. -/
theorem FactFile.definitionOf_render {s : Schema} {p : Predicate} {d : Definition}
    (hnames : s.NamesAll) (h : s.get? p = some d) (hstored : d.isDerived = false) :
    definitionOf s p.render = .ok d := by
  have hdefined : s.Defines p := ⟨d, h⟩
  unfold definitionOf
  rw [Predicate.read?_render (hnames p hdefined)]
  simp only [Schema.latest?_isSome hdefined, if_true, Schema.resolve_version h, Except.mapError]
  simp [hstored, bind, Except.bind, pure, Except.pure]

end Factbase
