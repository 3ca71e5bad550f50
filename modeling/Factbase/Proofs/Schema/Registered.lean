import Factbase.Proofs.Outcome
import Factbase.Proofs.Schema.Conformance
import Factbase.Proofs.SortedMap
import Factbase.Schema.Registration

/-!
# Registered schemas

A schema that grows from the builtin one by registrations is closed under
everything that it names (`Schema.Coherent`): types refer to predicates
that it defines, and so do the names that schemas export and derivations
use; fields have names of their own; and a declared default is a value of
its field.

The core is that the type of an expression is sane when the scope is
(`resolveTy_sane`). It is relative to what is `known` while a declaration
is resolved: the predicates of the schema, and those that the declaration
is about to define.
-/

namespace Factbase

/-- What registration ensures of a type, by itself. -/
structure Ty.Sane (known : Predicate → Prop) (ty : Ty) : Prop where
  defaults : ty.DefaultsFit
  names : ty.DistinctNames
  known : ∀ p, ty = .predicate p → known p

theorem Ty.Sane.mono {known known' : Predicate → Prop} (h : ∀ p, known p → known' p) {ty : Ty}
    (hty : ty.Sane known) : ty.Sane known' :=
  ⟨hty.defaults, hty.names, fun p hp => h p (hty.known p hp)⟩

/-- The names of a scope stand for what is known. -/
structure Scope.Sane (known : Predicate → Prop) (scope : Scope) : Prop where
  aliases : ∀ name ty, scope.aliases.get? name = some ty → ty.Every (Ty.Sane known)
  predicates : ∀ short p, scope.predicates.get? short = some p → known p

namespace Schema

/-- A predicate has a definition. -/
def Defines (s : Schema) (p : Predicate) : Prop := ∃ d, s.get? p = some d

/-- A schema names only what it defines. -/
structure Coherent (s : Schema) : Prop where
  named : ∀ p d, s.get? p = some d → d.predicate = p
  types : ∀ p d, s.get? p = some d → d.key.Every (Ty.Sane s.Defines) ∧ d.value.Every (Ty.Sane s.Defines)
  /-- Facts of a derived predicate have keys only. -/
  derived : ∀ p d b, s.get? p = some d → d.derivation = some b → d.value = .unit
  scopes : ∀ p d b, s.get? p = some d → d.derivation = some b →
    ∀ short q, b.scope.get? short = some q → s.Defines q
  exports : ∀ id info, s.schemas.get? id = some info →
    ∀ short p, info.exports.get? short = some p → s.Defines p
  aliases : ∀ id info, s.schemas.get? id = some info →
    ∀ name ty, info.aliases.get? name = some ty → ty.Every (Ty.Sane s.Defines)

/-- The schemas that registrations lead to. -/
inductive Registered : Schema → Prop
  | builtin : Registered builtin
  | register {s s' : Schema} {d : SchemaDecl} : Registered s → s.register d = .ok s' → Registered s'

/-! ## Types of expressions -/

/-- What is known while a declaration is resolved. -/
def Known (s : Schema) (own : SortedSet Predicate) (p : Predicate) : Prop :=
  own.contains p = true ∨ s.Defines p


variable {s : Schema} {own : SortedSet Predicate} {scope : Scope}

theorem defines_of_mem_versions {name : String} {p : Predicate} (h : p ∈ s.versions name) :
    s.Defines p := by
  obtain ⟨hkey, -⟩ := List.mem_filter.mp h
  exact SortedMap.mem_keys_iff.mp hkey

theorem umbrella?_registered {info : SchemaInfo} (h : s.umbrella? = some info) :
    ∃ id, s.schemas.get? id = some info := by
  obtain ⟨⟨id, info'⟩, hlast, rfl⟩ := Option.map_eq_some_iff.mp h
  have hmem := List.mem_of_getLast? hlast
  exact ⟨id, SortedMap.get?_eq_some_iff.mpr (List.mem_filter.mp hmem).1⟩

/-- The latest version of a name has a definition. -/
theorem latest?_defined (hs : s.Coherent) {name : String} {p : Predicate}
    (h : s.latest? name = some p) : s.Defines p := by
  unfold latest? at h
  rcases Outcome.orElse_some h with hum | hlast
  · obtain ⟨info, hinfo, hfind⟩ := Option.bind_eq_some_iff.mp hum
    obtain ⟨id, hid⟩ := umbrella?_registered hinfo
    obtain ⟨short, hshort⟩ := SortedMap.mem_values_iff.mp (List.mem_of_find?_eq_some hfind)
    exact hs.exports id info hid short p hshort
  · exact defines_of_mem_versions (List.mem_of_getLast? hlast)

theorem every_predicate {known : Predicate → Prop} {p : Predicate} (h : known p) :
    (Ty.predicate p).Every (Ty.Sane known) :=
  ⟨trivial, trivial, fun q hq => by cases hq; exact h⟩

/-- The type that a name stands for is sane. -/
theorem resolveName_sane (hs : s.Coherent) (hscope : scope.Sane (s.Known own)) {text : String}
    {ty : Ty} (h : s.resolveName own scope text = .ok ty) : ty.Every (Ty.Sane (s.Known own)) := by
  unfold resolveName at h
  split at h
  · dsimp only at h
    split at h
    · rename_i hknown
      cases h
      refine every_predicate ?_
      rcases Bool.or_eq_true_iff.mp hknown with hown | hthere
      · exact .inl hown
      · exact .inr (SortedMap.contains_iff.mp hthere)
    · cases h
  · rename_i name hsplit
    split at h
    · rename_i ty' hty
      cases h
      exact hscope.aliases name _ hty
    · dsimp only at h
      split at h
      · rename_i p hfound
        cases h
        refine every_predicate ?_
        rcases Outcome.orElse_some hfound with hshort | hrest
        · exact hscope.predicates name p hshort
        · rcases Outcome.orElse_some hrest with hfull | hlatest
          · obtain ⟨short, hget⟩ := SortedMap.mem_values_iff.mp (List.mem_of_find?_eq_some hfull)
            exact hscope.predicates short p hget
          · exact .inr (latest?_defined hs hlatest)
      · cases h

/-- The value of a literal is a value of its field, and refers to no facts. -/
theorem valueAt_fits {field : String} {ty : Ty} {l : Literal} {v : Value}
    (h : l.valueAt field ty = .ok v) : ty.Conforms v ∧ v.references = [] := by
  cases l <;> cases ty <;> simp only [Literal.valueAt] at h <;> try cases h
  all_goals first
    | exact ⟨rfl, rfl⟩
    | split at h
      · cases h
        exact ⟨rfl, rfl⟩
      · cases h

/-- What is needed of fields for a record or a sum of them to be sane; `seen` are names
that they may not have. -/
structure FieldsSane (known : Predicate → Prop) (seen : List String) (fields : List Field) :
    Prop where
  types : ∀ f ∈ fields, f.ty.Every (Ty.Sane known)
  defaults : ∀ f ∈ fields, ∀ v, f.declared = some v → f.ty.Conforms v ∧ v.references = []
  names : (fields.map (·.name)).Nodup
  unseen : ∀ f ∈ fields, f.name ∉ seen

namespace FieldsSane

variable {known : Predicate → Prop} {seen : List String} {fields : List Field}

theorem nil : FieldsSane known seen [] := ⟨by simp, by simp, List.nodup_nil, by simp⟩

theorem cons {name : String} {ty : Ty} {declared : Option Value}
    (h : FieldsSane known (name :: seen) fields) (hname : name ∉ seen)
    (hty : ty.Every (Ty.Sane known))
    (hdeclared : ∀ v, declared = some v → ty.Conforms v ∧ v.references = []) :
    FieldsSane known seen (⟨name, ty, declared⟩ :: fields) where
  types := List.forall_mem_cons.mpr ⟨hty, h.types⟩
  defaults := List.forall_mem_cons.mpr ⟨hdeclared, h.defaults⟩
  names := by
    rw [List.map_cons, List.nodup_cons]
    refine ⟨fun hin => ?_, h.names⟩
    obtain ⟨f, hf, hfname⟩ := List.mem_map.mp hin
    exact h.unseen f hf (by rw [hfname]; exact List.mem_cons_self ..)
  unseen := List.forall_mem_cons.mpr
    ⟨hname, fun f hf hin => h.unseen f hf (List.mem_cons_of_mem _ hin)⟩

theorem record (h : FieldsSane known seen fields) : (Ty.record fields).Every (Ty.Sane known) :=
  ⟨⟨h.defaults, h.names, fun _ hp => by cases hp⟩, Ty.everyField_iff.mpr h.types⟩

theorem sum (h : FieldsSane known seen fields) : (Ty.sum fields).Every (Ty.Sane known) :=
  ⟨⟨h.defaults, h.names, fun _ hp => by cases hp⟩, Ty.everyField_iff.mpr h.types⟩

end FieldsSane

theorem every_unit {known : Predicate → Prop} : Ty.unit.Every (Ty.Sane known) :=
  (FieldsSane.nil : FieldsSane known [] []).record

theorem enumAlts_sane {known : Predicate → Prop} {names seen : List String} {alts : List Field}
    (h : enumAlts seen names = .ok alts) : FieldsSane known seen alts := by
  induction names generalizing seen alts with
  | nil =>
      cases h
      exact .nil
  | cons name names ih =>
      rw [enumAlts] at h
      split at h
      · cases h
      · rename_i hseen
        obtain ⟨rest, hrest, hout⟩ := Outcome.bind_ok_iff.mp h
        cases hout
        exact (ih hrest).cons (by simpa using hseen) every_unit fun _ hv => by cases hv

mutual
/-- The type of an expression is sane. -/
theorem resolveTy_sane (hs : s.Coherent) (hscope : scope.Sane (s.Known own)) :
    (e : TypeExpr) → {ty : Ty} → s.resolveTy own scope e = .ok ty →
      ty.Every (Ty.Sane (s.Known own))
  | .byte, _, h | .nat, _, h | .bool, _, h | .string, _, h => by
      cases h
      exact ⟨trivial, trivial, fun _ hp => by cases hp⟩
  | .array elem, _, h => by
      rw [resolveTy] at h
      obtain ⟨ty, hty, hout⟩ := Outcome.bind_ok_iff.mp h
      cases hout
      exact ⟨⟨trivial, trivial, fun _ hp => by cases hp⟩, resolveTy_sane hs hscope elem hty⟩
  | .record fields, _, h => by
      rw [resolveTy] at h
      obtain ⟨fs, hfs, hout⟩ := Outcome.bind_ok_iff.mp h
      cases hout
      exact (resolveFields_sane hs hscope fields hfs).record
  | .sum alts, _, h => by
      rw [resolveTy] at h
      obtain ⟨fs, hfs, hout⟩ := Outcome.bind_ok_iff.mp h
      cases hout
      exact (resolveFields_sane hs hscope alts hfs).sum
  | .maybe inner, _, h => by
      rw [resolveTy] at h
      obtain ⟨ty, hty, hout⟩ := Outcome.bind_ok_iff.mp h
      cases hout
      have hjust : FieldsSane (s.Known own) ["nothing"] [.plain "just" ty] :=
        FieldsSane.nil.cons (by simp) (resolveTy_sane hs hscope inner hty) (by simp)
      have hboth : FieldsSane (s.Known own) [] [.plain "nothing" .unit, .plain "just" ty] :=
        hjust.cons (by simp) every_unit (by simp)
      exact hboth.sum
  | .enum names, _, h => by
      rw [resolveTy] at h
      obtain ⟨fs, hfs, hout⟩ := Outcome.bind_ok_iff.mp h
      cases hout
      exact (enumAlts_sane hfs).sum
  | .named name, _, h => by
      rw [resolveTy] at h
      exact resolveName_sane hs hscope h

theorem resolveFields_sane (hs : s.Coherent) (hscope : scope.Sane (s.Known own)) {seen : List String} :
    (es : List FieldExpr) → {fields : List Field} → s.resolveFields own scope seen es = .ok fields →
      FieldsSane (s.Known own) seen fields
  | [], _, h => by
      cases h
      exact .nil
  | ⟨name, e, literal⟩ :: es, _, h => by
      rw [resolveFields] at h
      split at h
      · cases h
      · rename_i hseen
        have hname : name ∉ seen := by simpa using hseen
        obtain ⟨ty, hty, h⟩ := Outcome.bind_ok_iff.mp h
        cases literal with
        | none =>
            obtain ⟨declared, hdeclared, h⟩ := Outcome.bind_ok_iff.mp h
            cases hdeclared
            obtain ⟨rest, hrest, hout⟩ := Outcome.bind_ok_iff.mp h
            cases hout
            exact (resolveFields_sane hs hscope es hrest).cons hname
              (resolveTy_sane hs hscope e hty) (by simp)
        | some l =>
            obtain ⟨declared, hdeclared, h⟩ := Outcome.bind_ok_iff.mp h
            obtain ⟨w, hw, rfl⟩ := Outcome.map_ok_iff.mp hdeclared
            obtain ⟨rest, hrest, hout⟩ := Outcome.bind_ok_iff.mp h
            cases hout
            refine (resolveFields_sane hs hscope es hrest).cons hname
              (resolveTy_sane hs hscope e hty) fun v hv => ?_
            cases hv
            exact valueAt_fits hw
end

/-! ## Scopes -/

theorem dependency_registered {id : SchemaId} {info : SchemaInfo} (h : s.dependency id = .ok info) :
    s.schemas.get? id = some info := by
  unfold dependency at h
  split at h
  · cases h
    assumption
  · cases h

theorem inherited_sane (hs : s.Coherent) {ids : List SchemaId} (h : s.inherited ids = .ok scope) :
    scope.Sane s.Defines := by
  refine Outcome.foldlM_ok (fun id _ c c' hc hstep => ?_) ⟨by simp, by simp⟩ h
  obtain ⟨info, hinfo, hout⟩ := Outcome.bind_ok_iff.mp hstep
  cases hout
  have hid := dependency_registered hinfo
  refine ⟨fun name ty => ?_, fun short p => ?_⟩
  · exact SortedMap.forall_insertMany (P := fun _ (ty : Ty) => ty.Every (Ty.Sane s.Defines))
      hc.aliases fun e he => hs.aliases id info hid e.1 e.2 (SortedMap.get?_eq_some_iff.mpr he)
  · exact SortedMap.forall_insertMany (P := fun _ p => s.Defines p)
      hc.predicates fun e he => hs.exports id info hid e.1 e.2 (SortedMap.get?_eq_some_iff.mpr he)

theorem forall_foldl_insertNew {α : Type} {P : String → α → Prop} {m : SortedMap String α}
    {l : List (String × α)} (hm : ∀ k v, m.get? k = some v → P k v) (hl : ∀ e ∈ l, P e.1 e.2) :
    ∀ k v, (l.foldl (fun m e => m.insertNew e.1 e.2) m).get? k = some v → P k v := by
  induction l generalizing m with
  | nil => exact hm
  | cons e l ih =>
      obtain ⟨he, hl⟩ := List.forall_mem_cons.mp hl
      exact ih (fun k v => SortedMap.forall_insertNew hm he) hl

theorem importing_sane (hs : s.Coherent) {ids : List SchemaId} {base : Scope}
    (hbase : base.Sane s.Defines) (h : s.importing ids base = .ok scope) :
    scope.Sane s.Defines := by
  refine Outcome.foldlM_ok (fun id _ c c' hc hstep => ?_) hbase h
  obtain ⟨info, hinfo, hout⟩ := Outcome.bind_ok_iff.mp hstep
  cases hout
  have hid := dependency_registered hinfo
  refine ⟨forall_foldl_insertNew hc.aliases fun e he => ?_,
    forall_foldl_insertNew hc.predicates fun e he => ?_⟩
  · exact hs.aliases id info hid e.1 e.2 (SortedMap.get?_eq_some_iff.mpr he)
  · exact hs.exports id info hid e.1 e.2 (SortedMap.get?_eq_some_iff.mpr he)

/-- The own predicates of a declaration are the ones that its short names stand for. -/
theorem contains_ownPredicates {d : SchemaDecl} (h : d.ownPredicates = .ok own) {p : Predicate} :
    own.contains p = true ↔ ∃ short ∈ d.shortNames, p = d.predicateNamed short := by
  have hgen : ∀ (shorts : List String) (start own : SortedSet Predicate),
      (shorts.foldlM (fun (own : SortedSet Predicate) short =>
        let p := d.predicateNamed short
        if own.contains p then .error (.duplicatePredicate p) else .ok (own.add p)) start :
          Except Error (SortedSet Predicate)) = .ok own →
      (own.contains p = true ↔
        start.contains p = true ∨ ∃ short ∈ shorts, p = d.predicateNamed short) := by
    intro shorts
    induction shorts with
    | nil =>
        intro start own h
        obtain rfl : start = own := by simpa [pure, Except.pure] using h
        simp
    | cons short shorts ih =>
        intro start own h
        rw [List.foldlM_cons] at h
        obtain ⟨own', hown', h⟩ := Outcome.bind_ok_iff.mp h
        dsimp only at hown'
        split at hown'
        · cases hown'
        · cases hown'
          rw [ih _ _ h, SortedSet.add, SortedMap.contains, SortedMap.get?_insert]
          by_cases hp : p = d.predicateNamed short
          · simp [hp]
          · simp [hp, SortedMap.contains]
  simpa [SortedMap.contains] using hgen d.shortNames ∅ own h

theorem addOwn_known {d : SchemaDecl} {m : SortedMap String Predicate} {known : Predicate → Prop}
    (hm : ∀ short p, m.get? short = some p → known p)
    (hown : ∀ short ∈ d.shortNames, known (d.predicateNamed short)) :
    ∀ short p, (d.addOwn m).get? short = some p → known p := by
  unfold SchemaDecl.addOwn
  generalize d.shortNames = shorts at hown
  induction shorts generalizing m with
  | nil => exact hm
  | cons short shorts ih =>
      obtain ⟨hshort, hshorts⟩ := List.forall_mem_cons.mp hown
      refine ih (fun k p hk => ?_) hshorts
      rw [SortedMap.get?_insert] at hk
      split at hk
      · cases hk
        exact hshort
      · exact hm k p hk

theorem resolveAliases_sane (hs : s.Coherent) {items : List SchemaItem} {exported : SortedMap String Ty}
    (hscope : scope.Sane (s.Known own))
    (hexported : ∀ name ty, exported.get? name = some ty → ty.Every (Ty.Sane (s.Known own)))
    {scope' : Scope} {aliases : SortedMap String Ty}
    (h : s.resolveAliases own items scope exported = .ok (scope', aliases)) :
    scope'.Sane (s.Known own) ∧
      ∀ name ty, aliases.get? name = some ty → ty.Every (Ty.Sane (s.Known own)) := by
  induction items generalizing scope exported with
  | nil =>
      cases h
      exact ⟨hscope, hexported⟩
  | cons item items ih =>
      cases item with
      | predicate => exact ih hscope hexported h
      | «alias» name e =>
          rw [resolveAliases] at h
          obtain ⟨ty, hty, h⟩ := Outcome.bind_ok_iff.mp h
          have hsane := resolveTy_sane hs hscope e hty
          -- the new name is bound to a sane type, and all others to what they were
          have hinsert : ∀ m : SortedMap String Ty,
              (∀ n t, m.get? n = some t → t.Every (Ty.Sane (s.Known own))) →
              ∀ n t, (m.insert name ty).get? n = some t → t.Every (Ty.Sane (s.Known own)) := by
            intro m hm n t hn
            rw [SortedMap.get?_insert] at hn
            split at hn
            · cases hn
              exact hsane
            · exact hm n t hn
          have hscope' : Scope.Sane (s.Known own)
              { scope with aliases := scope.aliases.insert name ty } :=
            ⟨hinsert _ hscope.aliases, hscope.predicates⟩
          exact ih hscope' (hinsert _ hexported) h

/-! ## Definitions -/

/-- What registration ensures of a definition. -/
structure DefinitionSane (known : Predicate → Prop) (d : Definition) : Prop where
  types : d.key.Every (Ty.Sane known) ∧ d.value.Every (Ty.Sane known)
  derived : ∀ b, d.derivation = some b → d.value = .unit
  scope : ∀ b, d.derivation = some b → ∀ short q, b.scope.get? short = some q → known q

theorem define_sane (hs : s.Coherent) (hscope : scope.Sane (s.Known own)) {p : Predicate}
    {key : TypeExpr} {value : Option TypeExpr} {derivation : Option (Pattern × Query)}
    {d : Definition} (h : s.define own scope p key value derivation = .ok d) :
    d.predicate = p ∧ DefinitionSane (s.Known own) d := by
  unfold define at h
  obtain ⟨k, hk, h⟩ := Outcome.bind_ok_iff.mp h
  have hkey := resolveTy_sane hs hscope key hk
  cases derivation with
  | none =>
      obtain ⟨v, hvalue, rfl⟩ : ∃ v : Ty, v.Every (Ty.Sane (s.Known own)) ∧ ⟨p, k, v, none⟩ = d := by
        cases value with
        | none =>
            obtain ⟨v, hv, h⟩ := Outcome.bind_ok_iff.mp h
            cases hv
            exact ⟨.unit, every_unit, by cases h; rfl⟩
        | some e =>
            obtain ⟨v, hv, h⟩ := Outcome.bind_ok_iff.mp h
            exact ⟨v, resolveTy_sane hs hscope e hv, by cases h; rfl⟩
      exact ⟨rfl, ⟨hkey, hvalue⟩, by simp, by simp⟩
  | some body =>
      obtain ⟨head, body⟩ := body
      obtain rfl : (⟨p, k, .unit, some ⟨head, body, scope.predicates⟩⟩ : Definition) = d := by
        cases value with
        | none =>
            obtain ⟨v, hv, h⟩ := Outcome.bind_ok_iff.mp h
            cases hv
            cases h
            rfl
        | some e =>
            obtain ⟨v, hv, h⟩ := Outcome.bind_ok_iff.mp h
            dsimp only at h
            split at h
            · cases h
            · rename_i hunit
              obtain rfl := Ty.isUnit_iff.mp (by simpa using hunit)
              cases h
              rfl
      refine ⟨rfl, ⟨hkey, every_unit⟩, fun _ _ => rfl, ?_⟩
      rintro b hb
      cases hb
      exact hscope.predicates

/-- The definitions of the items of a declaration. -/
theorem defineAll_sane (hs : s.Coherent) (hscope : scope.Sane (s.Known own)) {d : SchemaDecl}
    {items : List SchemaItem} {ds : List Definition}
    (h : s.defineAll own scope d items = .ok ds) :
    (∀ new ∈ ds, DefinitionSane (s.Known own) new ∧
      ∀ old, s.get? new.predicate = some old → old = new) ∧
    ∀ name key value derivation, .predicate name key value derivation ∈ items →
      ∃ new ∈ ds, new.predicate = d.predicateNamed name := by
  induction items generalizing ds with
  | nil =>
      cases h
      exact ⟨by simp, by simp⟩
  | cons item items ih =>
      cases item with
      | «alias» name e =>
          obtain ⟨hall, hdefined⟩ := ih h
          refine ⟨hall, fun name key value derivation hin => ?_⟩
          exact hdefined name key value derivation (by simpa using hin)
      | predicate name key value derivation =>
          rw [defineAll] at h
          obtain ⟨new, hnew, h⟩ := Outcome.bind_ok_iff.mp h
          obtain ⟨hname, hsane⟩ := define_sane hs hscope (Outcome.mapError_ok_iff.mp hnew)
          obtain ⟨hold, rest, hrest, rfl⟩ : (∀ old, s.get? new.predicate = some old → old = new) ∧
              ∃ rest, s.defineAll own scope d items = .ok rest ∧ new :: rest = ds := by
            cases hget : s.get? new.predicate with
            | none =>
                simp only [hget] at h
                obtain ⟨rest, hrest, hout⟩ := Outcome.bind_ok_iff.mp h
                exact ⟨by simp, rest, hrest, by cases hout; rfl⟩
            | some old =>
                simp only [hget] at h
                split at h
                · cases h
                · rename_i heq
                  obtain ⟨rest, hrest, hout⟩ := Outcome.bind_ok_iff.mp h
                  refine ⟨fun old' ho => ?_, rest, hrest, by cases hout; rfl⟩
                  cases ho
                  exact not_not.mp heq
          obtain ⟨hall, hdefined⟩ := ih hrest
          refine ⟨List.forall_mem_cons.mpr ⟨⟨hsane, hold⟩, hall⟩, fun n k v b hin => ?_⟩
          rcases List.mem_cons.mp hin with heq | hin
          · cases heq
            exact ⟨new, List.mem_cons_self .., hname⟩
          · obtain ⟨new', hmem, hpred⟩ := hdefined n k v b hin
            exact ⟨new', List.mem_cons_of_mem _ hmem, hpred⟩

/-! ## Registration -/

/-- What registering a declaration does to a schema, when it is not there already. -/
structure Extends (s : Schema) (d : SchemaDecl) (s' : Schema) (own : SortedSet Predicate)
    (definitions : List Definition) (info : SchemaInfo) : Prop where
  predicates : s'.predicates =
    s.predicates.insertMany (definitions.map fun new => (new.predicate, new))
  schemas : s'.schemas = s.schemas.insert d.id info
  owned : ∀ p, own.contains p = true → ∃ new ∈ definitions, new.predicate = p
  sane : ∀ new ∈ definitions, DefinitionSane (s.Known own) new ∧
    ∀ old, s.get? new.predicate = some old → old = new
  exports : ∀ short p, info.exports.get? short = some p → s.Known own p
  aliases : ∀ name ty, info.aliases.get? name = some ty → ty.Every (Ty.Sane (s.Known own))

/-- Registration leaves a schema as it is or extends it. -/
theorem register_cases (hs : s.Coherent) {d : SchemaDecl} {s' : Schema}
    (h : s.register d = .ok s') :
    s' = s ∨ ∃ own definitions info, s.Extends d s' own definitions info := by
  unfold register at h
  split at h
  · split at h
    · cases h
      exact .inl rfl
    · cases h
  · obtain ⟨base, hbase, h⟩ := Outcome.bind_ok_iff.mp h
    obtain ⟨scope, hscope, h⟩ := Outcome.bind_ok_iff.mp h
    obtain ⟨own, hown, h⟩ := Outcome.bind_ok_iff.mp h
    obtain ⟨⟨scope', aliases⟩, haliases, h⟩ := Outcome.bind_ok_iff.mp h
    obtain ⟨definitions, hdefinitions, hout⟩ := Outcome.bind_ok_iff.mp h
    cases hout
    have hmem {p : Predicate} := contains_ownPredicates hown (p := p)
    have hknown : ∀ p, s.Defines p → s.Known own p := fun p hp => .inr hp
    have hshort : ∀ short ∈ d.shortNames, s.Known own (d.predicateNamed short) :=
      fun short hin => .inl (hmem.mpr ⟨short, hin, rfl⟩)
    have hbaseSane := inherited_sane hs hbase
    have hscopeSane := importing_sane hs hbaseSane hscope
    have hbaseAliases : ∀ name ty, base.aliases.get? name = some ty →
        ty.Every (Ty.Sane (s.Known own)) := fun name ty hget =>
      (hbaseSane.aliases name ty hget).mono fun ty => Ty.Sane.mono hknown
    have hfull : Scope.Sane (s.Known own)
        { scope with predicates := d.addOwn scope.predicates } :=
      ⟨fun name ty hget => (hscopeSane.aliases name ty hget).mono fun ty => Ty.Sane.mono hknown,
        addOwn_known (fun short p hget => hknown p (hscopeSane.predicates short p hget)) hshort⟩
    obtain ⟨hscope', haliases'⟩ :=
      resolveAliases_sane hs hfull hbaseAliases (Outcome.mapError_ok_iff.mp haliases)
    obtain ⟨hsane, hdefined⟩ := defineAll_sane hs hscope' hdefinitions
    refine .inr ⟨own, definitions, _, rfl, rfl, fun p hp => ?_, hsane,
      addOwn_known (fun short p hget => hknown p (hbaseSane.predicates short p hget)) hshort,
      haliases'⟩
    obtain ⟨short, hin, rfl⟩ := hmem.mp hp
    obtain ⟨item, hitem, hname⟩ := List.mem_filterMap.mp hin
    cases item with
    | «alias» => cases hname
    | predicate name key value derivation =>
        cases hname
        exact hdefined _ key value derivation hitem

namespace Extends

variable {d : SchemaDecl} {s' : Schema} {definitions : List Definition} {info : SchemaInfo}

/-- Definitions that are there stay. -/
theorem get?_of_get? (h : s.Extends d s' own definitions info) {p : Predicate} {old : Definition}
    (hold : s.get? p = some old) : s'.get? p = some old := by
  rw [get?, h.predicates, SortedMap.get?_insertMany]
  cases hfind : (definitions.map fun new => (new.predicate, new)).reverse.find? (·.1 = p) with
  | none => exact hold
  | some e =>
      obtain ⟨new, hnew, rfl⟩ :=
        List.mem_map.mp (List.mem_reverse.mp (List.mem_of_find?_eq_some hfind))
      obtain rfl : new.predicate = p := by simpa using List.find?_some hfind
      rw [(h.sane new hnew).2 old hold]
      rfl

/-- A definition is a new one or was there. -/
theorem get?_cases (h : s.Extends d s' own definitions info) {p : Predicate} {new : Definition}
    (hnew : s'.get? p = some new) :
    s.get? p = some new ∨ (new ∈ definitions ∧ new.predicate = p) := by
  rw [get?, h.predicates, SortedMap.get?_insertMany] at hnew
  rcases Option.or_eq_some_iff.mp hnew with hfind | ⟨-, hget⟩
  · obtain ⟨e, he, rfl⟩ := Option.map_eq_some_iff.mp hfind
    have hp : e.1 = p := by simpa using List.find?_some he
    obtain ⟨new, hmem, rfl⟩ :=
      List.mem_map.mp (List.mem_reverse.mp (List.mem_of_find?_eq_some he))
    exact .inr ⟨hmem, hp⟩
  · exact .inl hget

/-- Everything that was known has a definition now. -/
theorem defines_of_known (h : s.Extends d s' own definitions info) {p : Predicate}
    (hp : s.Known own p) : s'.Defines p := by
  rcases hp with hown | ⟨old, hold⟩
  · obtain ⟨new, hnew, rfl⟩ := h.owned p hown
    obtain ⟨e, he⟩ : ∃ e, (definitions.map fun new => (new.predicate, new)).reverse.find?
        (·.1 = new.predicate) = some e := by
      rw [← Option.isSome_iff_exists, List.find?_isSome]
      refine ⟨(new.predicate, new), List.mem_reverse.mpr (List.mem_map.mpr ⟨new, hnew, rfl⟩), ?_⟩
      exact decide_eq_true rfl
    refine ⟨e.2, ?_⟩
    rw [get?, h.predicates, SortedMap.get?_insertMany, he]
    rfl
  · exact ⟨old, h.get?_of_get? hold⟩

theorem schema_cases (h : s.Extends d s' own definitions info) {id : SchemaId} {i : SchemaInfo}
    (hi : s'.schemas.get? id = some i) : i = info ∨ s.schemas.get? id = some i := by
  rw [h.schemas, SortedMap.get?_insert] at hi
  split at hi
  · cases hi
    exact .inl rfl
  · exact .inr hi

/-- An extension of a coherent schema is coherent. -/
theorem coherent (h : s.Extends d s' own definitions info) (hs : s.Coherent) : s'.Coherent := by
  have hdefines : ∀ p, s.Defines p → s'.Defines p := fun p hp => h.defines_of_known (.inr hp)
  have hmono {ty : Ty} (hty : ty.Every (Ty.Sane (s.Known own))) : ty.Every (Ty.Sane s'.Defines) :=
    hty.mono fun _ => Ty.Sane.mono fun _ => h.defines_of_known
  have hmono' {ty : Ty} (hty : ty.Every (Ty.Sane s.Defines)) : ty.Every (Ty.Sane s'.Defines) :=
    hty.mono fun _ => Ty.Sane.mono hdefines
  refine ⟨fun p new hp => ?_, fun p new hp => ?_, fun p new b hp => ?_, fun p new b hp => ?_,
    fun id i hid => ?_, fun id i hid => ?_⟩
  · rcases h.get?_cases hp with hold | ⟨-, hname⟩
    · exact hs.named p new hold
    · exact hname
  · rcases h.get?_cases hp with hold | ⟨hmem, -⟩
    · exact ⟨hmono' (hs.types p new hold).1, hmono' (hs.types p new hold).2⟩
    · have hsane := (h.sane new hmem).1.types
      exact ⟨hmono hsane.1, hmono hsane.2⟩
  · rcases h.get?_cases hp with hold | ⟨hmem, -⟩
    · exact hs.derived p new b hold
    · exact (h.sane new hmem).1.derived b
  · rcases h.get?_cases hp with hold | ⟨hmem, -⟩
    · exact fun hb short q hq => hdefines q (hs.scopes p new b hold hb short q hq)
    · exact fun hb short q hq => h.defines_of_known ((h.sane new hmem).1.scope b hb short q hq)
  · rcases h.schema_cases hid with rfl | hold
    · exact fun short p hget => h.defines_of_known (h.exports short p hget)
    · exact fun short p hget => hdefines p (hs.exports id i hold short p hget)
  · rcases h.schema_cases hid with rfl | hold
    · exact fun name ty hget => hmono (h.aliases name ty hget)
    · exact fun name ty hget => hmono' (hs.aliases id i hold name ty hget)

end Extends

theorem builtin_coherent : builtin.Coherent := by
  have hpredicate : ∀ p d, builtin.get? p = some d →
      p = ⟨"sys.Blob", 1⟩ ∧ d = ⟨⟨"sys.Blob", 1⟩, .string, .unit, none⟩ := fun p d hp => by
    have hmem : (p, d) ∈ builtin.predicates.entries := SortedMap.get?_eq_some_iff.mp hp
    simpa [builtin, SortedMap.ofList, SortedMap.insertMany, SortedMap.insert,
      SortedMap.insertEntry] using hmem
  have hschema : ∀ id info, builtin.schemas.get? id = some info →
      info = ⟨builtinDecl, .ofList [("Blob", ⟨"sys.Blob", 1⟩)], ∅⟩ := fun id info hid => by
    have hmem : (id, info) ∈ builtin.schemas.entries := SortedMap.get?_eq_some_iff.mp hid
    simp only [builtin, SortedMap.ofList, SortedMap.insertMany, List.foldl, SortedMap.insert,
      SortedMap.insertEntry, SortedMap.entries_empty, List.mem_singleton, Prod.mk.injEq] at hmem
    exact hmem.2
  have hunit {known : Predicate → Prop} : Ty.unit.Every (Ty.Sane known) := every_unit
  have hstring {known : Predicate → Prop} : Ty.string.Every (Ty.Sane known) :=
    ⟨trivial, trivial, fun _ hp => by cases hp⟩
  refine ⟨fun p d hp => ?_, fun p d hp => ?_, fun p d b hp hb => ?_, fun p d b hp hb => ?_,
    fun id info hid short p hget => ?_, fun id info hid name ty hget => ?_⟩
  · obtain ⟨rfl, rfl⟩ := hpredicate p d hp
    rfl
  · obtain ⟨rfl, rfl⟩ := hpredicate p d hp
    exact ⟨hstring, hunit⟩
  · obtain ⟨rfl, rfl⟩ := hpredicate p d hp
    rfl
  · obtain ⟨rfl, rfl⟩ := hpredicate p d hp
    cases hb
  · obtain rfl := hschema id info hid
    have hmem := SortedMap.get?_eq_some_iff.mp hget
    obtain ⟨-, rfl⟩ : short = "Blob" ∧ p = ⟨"sys.Blob", 1⟩ := by
      simpa [SortedMap.ofList, SortedMap.insertMany, SortedMap.insert,
        SortedMap.insertEntry] using hmem
    exact ⟨_, rfl⟩
  · obtain rfl := hschema id info hid
    cases hget

/-- Registered schemas name only what they define. -/
theorem Registered.coherent {s : Schema} (h : Registered s) : s.Coherent := by
  induction h with
  | builtin => exact builtin_coherent
  | register _ hregister ih =>
      rcases register_cases ih hregister with rfl | ⟨own, definitions, info, hext⟩
      · exact ih
      · exact hext.coherent ih

theorem Registered.registerAll {s s' : Schema} {ds : List SchemaDecl} (h : Registered s)
    (hall : s.registerAll ds = .ok s') : Registered s' :=
  Outcome.foldlM_ok (fun _ _ _ _ hc hstep => hc.register hstep) h hall

theorem Registered.register_getD {s : Schema} (h : Registered s) (d : SchemaDecl) :
    Registered ((s.register d).toOption.getD .builtin) := by
  cases hd : s.register d with
  | error e => exact .builtin
  | ok s' => exact h.register hd

theorem registered_ofText_getD (text : String) : Registered ((ofText text).toOption.getD .builtin) := by
  cases h : ofText text with
  | error e => exact .builtin
  | ok s =>
      obtain ⟨ds, -, hall⟩ := Outcome.bind_ok_iff.mp h
      exact Registered.builtin.registerAll hall

/-! ## Definitions that are found -/

/-- All types of the definitions of a schema are narrow. -/
def Narrow (s : Schema) : Prop :=
  ∀ d ∈ s.predicates.values, d.key.Every Ty.Narrow ∧ d.value.Every Ty.Narrow

/-- Values are read soundly at the types of registered schemas that are narrow. -/
theorem readable {s : Schema} (hs : s.Coherent) (hnarrow : s.Narrow)
    {p : Predicate} {d : Definition} (hd : s.get? p = some d) :
    d.key.Every Ty.Readable ∧ d.value.Every Ty.Readable := by
  have hand {ty : Ty} (hsane : ty.Every (Ty.Sane s.Defines)) (hty : ty.Every Ty.Narrow) :
      ty.Every Ty.Readable :=
    (hsane.and hty).mono fun _ h => ⟨h.1.defaults, h.2⟩
  have hmem : d ∈ s.predicates.values := SortedMap.mem_values_iff.mpr ⟨p, hd⟩
  exact ⟨hand (hs.types p d hd).1 (hnarrow d hmem).1, hand (hs.types p d hd).2 (hnarrow d hmem).2⟩

/-- A name resolves to a definition of the schema. -/
theorem resolve_defines {name : String} {version : Option UInt32} {d : Definition}
    (h : s.resolve name version = .ok d) : ∃ p, s.get? p = some d := by
  unfold Schema.resolve at h
  split at h
  · split at h
    · cases h
      exact ⟨_, ‹_›⟩
    · cases h
  · split at h
    · rename_i e heq
      cases h
      obtain ⟨p, -, hp⟩ := Option.bind_eq_some_iff.mp heq
      exact ⟨p, hp⟩
    · cases h

theorem resolveShort_defines {short : String} {d : Definition}
    (h : s.resolveShort short = .ok d) : ∃ p, s.get? p = some d := by
  unfold resolveShort at h
  split at h
  · exact resolve_defines h
  · cases h
  · cases h

end Schema

end Factbase
