import Factbase.Proofs.Query.Expansion
import Factbase.Proofs.Query.Limits
import Factbase.Proofs.Query.Typing
import Factbase.Proofs.Schema.Images

/-!
# Marked places stay as they are

A sub-pattern with `..` marks a place in a fact: the route to it goes
through the fields, alternatives and items that the pattern names, and
through the keys of the facts that it refers to (`Pattern.Marks`). Typing
writes down names for the place, and rendering compares them with the names
of the places it comes to. Both are the names that the types on the route
give it (`Schema.names?`): typing by `Fits.records`, rendering by
`WritesFact.routed`. So a reference at a marked place is found among the
marks, and is not expanded.
-/

namespace Factbase

/-! ## The names on a route -/

/-- The names on a route that starts at a type. Items have none, nor has the key of a fact. -/
def Schema.names? (s : Schema) : Ty → List Turn → Option (List String)
  | _, [] => some []
  | .array elem, .item _ :: route => s.names? elem route
  | .record fields, .field i :: route =>
    fields[i]?.bind fun f => (s.names? f.ty route).map (f.name :: ·)
  | .sum alts, .alternative i :: route =>
    alts[i]?.bind fun alt => (s.names? alt.ty route).map (alt.name :: ·)
  | .predicate p, .key :: route => (s.get? p).bind fun d => s.names? d.key route
  | .predicate p, .value :: route =>
    (s.get? p).bind fun d => (s.names? d.value route).map (valueRoot :: ·)
  | _, _ :: _ => none

section Names

variable {s : Schema} {route : List Turn} {names : List String}

theorem Schema.names?_field {fields : List Field} {i : Nat} {f : Field} (hf : fields[i]? = some f)
    (h : s.names? f.ty route = some names) :
    s.names? (.record fields) (.field i :: route) = some (f.name :: names) := by
  rw [names?, hf, Option.bind_some, h, Option.map_some]

theorem Schema.names?_alternative {alts : List Field} {i : Nat} {alt : Field}
    (halt : alts[i]? = some alt) (h : s.names? alt.ty route = some names) :
    s.names? (.sum alts) (.alternative i :: route) = some (alt.name :: names) := by
  rw [names?, halt, Option.bind_some, h, Option.map_some]

theorem Schema.names?_key {p : Predicate} {d : Definition} (hd : s.get? p = some d)
    (h : s.names? d.key route = some names) :
    s.names? (.predicate p) (.key :: route) = some names := by
  rw [names?, hd, Option.bind_some, h]

theorem Schema.names?_value {p : Predicate} {d : Definition} (hd : s.get? p = some d)
    (h : s.names? d.value route = some names) :
    s.names? (.predicate p) (.value :: route) = some (valueRoot :: names) := by
  rw [names?, hd, Option.bind_some, h, Option.map_some]

end Names

/-! ## What rendering finds -/

/-- The visits at a place of a type are at the places, and have the names, to which routes
from there lead. -/
def Routed (s : Schema) (a : Spot) (ty : Ty) (vs : List Visit) : Prop :=
  ∀ v ∈ vs, ∃ route names, v.place.route = a.route ++ route ∧ s.names? ty route = some names ∧
    v.place.path = a.path ++ names

namespace Routed

variable {s : Schema} {a : Spot} {ty ty' : Ty} {vs ws : List Visit}

theorem nil : Routed s a ty [] := fun _ hv => absurd hv List.not_mem_nil

theorem append (h : Routed s a ty vs) (h' : Routed s a ty ws) : Routed s a ty (vs ++ ws) :=
  fun v hv => (List.mem_append.mp hv).elim (h v) (h' v)

/-- Visits after a turn. -/
theorem of_turn {t : Turn} {names : List String} (h : Routed s (a.turn t names) ty' vs)
    (hturn : ∀ route names', s.names? ty' route = some names' →
      s.names? ty (t :: route) = some (names ++ names')) : Routed s a ty vs := by
  intro v hv
  obtain ⟨route, names', hroute, hnames, hpath⟩ := h v hv
  refine ⟨t :: route, names ++ names', ?_, hturn route names' hnames, ?_⟩
  · rw [hroute, Spot.route_turn, List.append_assoc]
    rfl
  · rw [hpath, Spot.path_turn, List.append_assoc]

end Routed

namespace Rendering

variable {r : Rendering}

/-- The predicate of a fact that is read is the one that was asked for. -/
def ReadsOf (r : Rendering) : Prop := ∀ id p f, r.read id p = .ok (some f) → f.predicate = p

mutual
theorem Writes.routed (hr : r.ReadsOf) {a : Spot} {ty : Ty} {v : Value} {j : Json}
    {vs : List Visit} : r.Writes a ty v j vs → Routed r.schema a ty vs
  | .byte .. => .nil
  | .nat .. => .nil
  | .bool .. => .nil
  | .string .. => .nil
  | .left a p id => by
      intro v hv
      obtain rfl := List.mem_singleton.mp hv
      exact ⟨[], [], (List.append_nil _).symm, rfl, (List.append_nil _).symm⟩
  | .placed (p := p) id hread h => by
      intro v hv
      rcases List.mem_cons.mp hv with rfl | hv
      · exact ⟨[], [], (List.append_nil _).symm, rfl, (List.append_nil _).symm⟩
      · have hin := h.routed hr v hv
        rw [hr id p _ hread] at hin
        exact hin
  | .array h => h.routed hr
  | .record hlen h => h.routed hr fun j f hf => by rwa [Nat.zero_add]
  | .alt halt h => (h.routed hr).of_turn fun _ _ hnames => Schema.names?_alternative halt hnames

theorem WritesItems.routed (hr : r.ReadsOf) {a : Spot} {i : Nat} {elem : Ty} {items : List Value}
    {js : List Json} {vs : List Visit} :
    r.WritesItems a i elem items js vs → Routed r.schema a (.array elem) vs
  | .nil .. => .nil
  | .cons h hs => ((h.routed hr).of_turn fun _ _ hnames => hnames).append (hs.routed hr)

theorem WritesFields.routed (hr : r.ReadsOf) {a : Spot} {i : Nat} {fields all : List Field}
    {values : List Value} {ms : List (String × Json)} {vs : List Visit} :
    r.WritesFields a i fields values ms vs → (∀ j f, fields[j]? = some f → all[i + j]? = some f) →
      Routed r.schema a (.record all) vs
  | .nil .., _ => .nil
  | .cons h hs, hall =>
      ((h.routed hr).of_turn fun _ _ hnames => Schema.names?_field (hall 0 _ rfl) hnames).append
        (hs.routed hr fun j g hg => by
          rw [Nat.add_assoc, Nat.add_comm 1]
          exact hall (j + 1) g hg)

theorem WritesFact.routed (hr : r.ReadsOf) {a : Spot} {f : Fact} {j : Json} {vs : List Visit} :
    r.WritesFact a f j vs → Routed r.schema a (.predicate f.predicate) vs
  | .key hd _ h =>
      (h.routed hr).of_turn fun _ _ hnames => Schema.names?_key hd hnames
  | .keyValue hd _ h hv =>
      ((h.routed hr).of_turn fun _ _ hnames => Schema.names?_key hd hnames).append
        ((hv.routed hr).of_turn fun _ _ hnames => Schema.names?_value hd hnames)
end

end Rendering

/-! ## What patterns mark -/

/-- The places that sub-patterns with `..` stand for, when the pattern is for values of a
type. A pattern for a reference is one for the key of the fact, unless it is marked itself. -/
inductive Pattern.Marks (s : Schema) : Ty → Pattern → List Turn → Prop
  | here (ty : Ty) (p : Pattern) : Marks s ty (.noExpand p) []
  | inner {ty : Ty} {p : Pattern} {route : List Turn} (h : Marks s ty p route) :
      Marks s ty (.noExpand p) route
  | item {elem : Ty} {items : List Pattern} {i : Nat} {p : Pattern} {route : List Turn}
      (hp : items[i]? = some p) (h : Marks s elem p route) :
      Marks s (.array elem) (.array items) (.item i :: route)
  | field {fields : List Field} {given : List (String × Pattern)} {name : String} {p : Pattern}
      {i : Nat} {f : Field} {route : List Turn} (hp : (name, p) ∈ given)
      (hf : Field.locate? name fields = some (i, f)) (h : Marks s f.ty p route) :
      Marks s (.record fields) (.fields given) (.field i :: route)
  | position {fields : List Field} {items : List Pattern} {i : Nat} {p : Pattern} {f : Field}
      {route : List Turn} (hp : items[i]? = some p) (hf : fields[i]? = some f)
      (h : Marks s f.ty p route) : Marks s (.record fields) (.tuple items) (.field i :: route)
  | alternative {alts : List Field} {name : String} {p : Pattern} {i : Nat} {alt : Field}
      {route : List Turn} (halt : Field.locate? name alts = some (i, alt))
      (h : Marks s alt.ty p route) :
      Marks s (.sum alts) (.fields [(name, p)]) (.alternative i :: route)
  | referred {q : Predicate} {d : Definition} {p : Pattern} {route : List Turn}
      (hd : s.get? q = some d) (hp : ∀ inner, p ≠ .noExpand inner) (h : Marks s d.key p route) :
      Marks s (.predicate q) p (.key :: route)

/-- The names of the marked places, after those of the place where the pattern stands. -/
def Pattern.Records (s : Schema) (path : List String) (ty : Ty) (p : Pattern) (q : List String) :
    Prop :=
  ∃ route names, p.Marks s ty route ∧ s.names? ty route = some names ∧ q = path ++ names

namespace Pattern

variable {s : Schema} {ty : Ty} {p : Pattern} {route : List Turn}

/-- A marked place has names. -/
theorem Marks.names (h : p.Marks s ty route) : ∃ names, s.names? ty route = some names := by
  induction h with
  | here => exact ⟨[], rfl⟩
  | inner _ ih => exact ih
  | item _ _ ih => exact ih
  | field _ hf _ ih =>
      obtain ⟨names, hnames⟩ := ih
      exact ⟨_, Schema.names?_field (Field.locate?_some hf) hnames⟩
  | position _ hf _ ih =>
      obtain ⟨names, hnames⟩ := ih
      exact ⟨_, Schema.names?_field hf hnames⟩
  | alternative halt _ ih =>
      obtain ⟨names, hnames⟩ := ih
      exact ⟨_, Schema.names?_alternative (Field.locate?_some halt) hnames⟩
  | referred hd _ _ ih =>
      obtain ⟨names, hnames⟩ := ih
      exact ⟨_, Schema.names?_key hd hnames⟩

/-- A pattern without parts marks nothing. -/
def IsLeaf : Pattern → Prop
  | .array _ | .fields _ | .tuple _ | .noExpand _ => False
  | _ => True

theorem not_marks_of_leaf (hp : p.IsLeaf) : ¬ p.Marks s ty route := by
  intro h
  induction h with
  | here | inner | item | field | position | alternative => exact hp
  | referred _ _ _ ih => exact ih hp

theorem not_records_of_leaf {path q : List String} (hp : p.IsLeaf) : ¬ p.Records s path ty q := by
  rintro ⟨route, names, h, -⟩
  exact not_marks_of_leaf hp h

/-! What a pattern with parts records comes from its parts. -/

namespace Records

variable {path q : List String}

theorem of_array {items : List Pattern} {elem : Ty}
    (h : (Pattern.array items).Records s path (.array elem) q) :
    ∃ p ∈ items, p.Records s path elem q := by
  obtain ⟨route, names, hmarks, hnames, rfl⟩ := h
  cases hmarks with
  | item hp hmarks => exact ⟨_, List.mem_of_getElem? hp, _, names, hmarks, hnames, rfl⟩

theorem of_fields {given : List (String × Pattern)} {fields : List Field}
    (h : (Pattern.fields given).Records s path (.record fields) q) :
    ∃ name p i f, (name, p) ∈ given ∧ Field.locate? name fields = some (i, f) ∧
      p.Records s (path ++ [name]) f.ty q := by
  obtain ⟨route, names, hmarks, hnames, rfl⟩ := h
  cases hmarks with
  | field hp hf hmarks =>
      obtain ⟨names', hnames'⟩ := hmarks.names
      rw [Schema.names?_field (Field.locate?_some hf) hnames'] at hnames
      obtain rfl := Option.some.inj hnames
      refine ⟨_, _, _, _, hp, hf, _, names', hmarks, hnames', ?_⟩
      rw [Field.name_of_locate? hf, List.append_assoc]
      rfl

theorem of_alternative {name : String} {p : Pattern} {alts : List Field} {i : Nat} {alt : Field}
    (halt : Field.locate? name alts = some (i, alt))
    (h : (Pattern.fields [(name, p)]).Records s path (.sum alts) q) :
    p.Records s (path ++ [name]) alt.ty q := by
  obtain ⟨route, names, hmarks, hnames, rfl⟩ := h
  cases hmarks with
  | alternative halt' hmarks =>
      cases halt.symm.trans halt'
      obtain ⟨names', hnames'⟩ := hmarks.names
      rw [Schema.names?_alternative (Field.locate?_some halt) hnames'] at hnames
      obtain rfl := Option.some.inj hnames
      refine ⟨_, names', hmarks, hnames', ?_⟩
      rw [Field.name_of_locate? halt, List.append_assoc]
      rfl

theorem of_tuple {items : List Pattern} {fields : List Field}
    (h : (Pattern.tuple items).Records s path (.record fields) q) :
    ∃ (i : Nat) (p : Pattern) (f : Field), items[i]? = some p ∧ fields[i]? = some f ∧
      p.Records s (path ++ [f.name]) f.ty q := by
  obtain ⟨route, names, hmarks, hnames, rfl⟩ := h
  cases hmarks with
  | position hp hf hmarks =>
      obtain ⟨names', hnames'⟩ := hmarks.names
      rw [Schema.names?_field hf hnames'] at hnames
      obtain rfl := Option.some.inj hnames
      refine ⟨_, _, _, hp, hf, _, names', hmarks, hnames', ?_⟩
      rw [List.append_assoc]
      rfl

end Records

end Pattern

/-! ## What typing records -/

/-- Marks are kept, and some are there afterwards. -/
structure Typing.Records (P : List String → Prop) (t t' : Typing) : Prop where
  kept : ∀ q, t.noExpand.contains q = true → t'.noExpand.contains q = true
  new : ∀ q, P q → t'.noExpand.contains q = true

namespace Typing.Records

variable {P Q : List String → Prop} {t t' t'' : Typing}

/-- Nothing is marked. -/
theorem same (h : t'.noExpand = t.noExpand) (hP : ∀ q, ¬ P q) : Records P t t' :=
  ⟨fun _ hq => h ▸ hq, fun q hq => absurd hq (hP q)⟩

theorem trans (h : Records P t t') (h' : Records Q t' t'') : Records (fun q => P q ∨ Q q) t t'' where
  kept q hq := h'.kept q (h.kept q hq)
  new _ hq := hq.elim (fun hp => h'.kept _ (h.new _ hp)) (h'.new _)

theorem imp (h : Records P t t') (hPQ : ∀ q, Q q → P q) : Records Q t t' :=
  ⟨h.kept, fun q hq => h.new q (hPQ q hq)⟩

end Typing.Records

namespace TypingContext

open Check Typing

variable {c : TypingContext} {t t' : Typing}

theorem mark_contains (t : Typing) (path q : List String) :
    (t.noExpand.add path).contains q = true ↔ q = path ∨ t.noExpand.contains q = true := by
  rw [SortedSet.add, SortedMap.contains, SortedMap.get?_insert]
  split
  · simp [*]
  · simp [*, SortedMap.contains]

/-- The places that a pattern marks at a reference, it marks at the type at which following the
reference ends. -/
theorem Follows.records {ty ty' : Ty} {ps : List Predicate} (h : c.Follows ty t ps ty' t') :
    t'.noExpand = t.noExpand ∧
      ∀ path p q, (∀ inner, p ≠ .noExpand inner) →
        Pattern.Records c.schema path ty p q → Pattern.Records c.schema path ty' p q := by
  induction h with
  | here => exact ⟨rfl, fun _ _ _ _ hrecords => hrecords⟩
  | step hd henter _ ih =>
      obtain ⟨hsame, hkey⟩ := ih
      refine ⟨hsame, fun path p x hp hrecords => hkey path p x hp ?_⟩
      obtain ⟨route, names, hmarks, hnames, rfl⟩ := hrecords
      cases hmarks with
      | here | inner => exact absurd rfl (hp _)
      | referred hd' _ hmarks =>
          cases hd.symm.trans hd'
          rw [Schema.names?, hd, Option.bind_some] at hnames
          exact ⟨_, names, hmarks, hnames, rfl⟩

theorem FitsValue.not_noExpand {path : List String} {ty : Ty} {p : Pattern} {m : Match}
    (h : c.FitsValue path ty p t m t') (inner : Pattern) : p ≠ .noExpand inner := by
  cases h with
  | lit h => cases h <;> exact nofun
  | _ => exact nofun

theorem literal_isLeaf {p : Pattern} {ty : Ty} {value : Value} (h : p.Literal ty value) : p.IsLeaf := by
  cases h <;> exact trivial

/-- A pattern without parts records nothing. -/
theorem leaf_records {path : List String} {ty : Ty} {p : Pattern} (hp : p.IsLeaf)
    (h : t'.noExpand = t.noExpand) : Records (p.Records c.schema path ty) t t' :=
  .same h fun _ => Pattern.not_records_of_leaf hp

/-- A marked pattern records its path, and what the pattern in it records. -/
theorem noExpand_records {path : List String} {ty : Ty} {p : Pattern}
    (h : Records (p.Records c.schema path ty) { t with noExpand := t.noExpand.add path } t') :
    Records (Pattern.Records c.schema path ty (.noExpand p)) t t' := by
  refine ⟨fun q hq => h.kept q ((mark_contains t path q).mpr (.inr hq)), ?_⟩
  rintro q ⟨route, names, hmarks, hnames, rfl⟩
  cases hmarks with
  | here =>
      obtain rfl := Option.some.inj hnames
      rw [List.append_nil]
      exact h.kept _ ((mark_contains t path path).mpr (.inl rfl))
  | inner hmarks => exact h.new _ ⟨route, names, hmarks, hnames, rfl⟩
  | referred _ hp _ => exact absurd rfl (hp p)

mutual
/-- Typing a pattern records the places that it marks. -/
theorem Fits.records {path : List String} {ty : Ty} {p : Pattern} {t t' : Typing} {m : Match} :
    c.Fits path ty p t m t' → Records (p.Records c.schema path ty) t t'
  | .wild | .same .. | .bind _ => leaf_records trivial rfl
  | .noExpand h => noExpand_records h.records
  | .value hfollow h => by
      obtain ⟨hsame, hlead⟩ := hfollow.records
      exact ⟨fun q hq => h.records.kept q (hsame ▸ hq),
        fun q hq => h.records.new q (hlead path p q h.not_noExpand hq)⟩

theorem FitsValue.records {path : List String} {ty : Ty} {p : Pattern} {t t' : Typing} {m : Match} :
    c.FitsValue path ty p t m t' → Records (p.Records c.schema path ty) t t'
  | .lit h => leaf_records (literal_isLeaf h) rfl
  | .stringStart => leaf_records trivial rfl
  | .array h => h.records.imp fun _ => Pattern.Records.of_array
  | .record h => h.records.imp fun _ => Pattern.Records.of_fields
  | .alt halt _ h => h.records.imp fun _ => Pattern.Records.of_alternative halt
  | .tuple h => h.records.imp fun _ hrecords => by
      obtain ⟨i, hi⟩ := Pattern.Records.of_tuple hrecords
      exact ⟨i, by rwa [Nat.zero_add]⟩

theorem FitsItems.records {path : List String} {elem : Ty} {ps : List Pattern} {t t' : Typing}
    {ms : List Match} : c.FitsItems path elem ps t ms t' →
      Records (fun q => ∃ p ∈ ps, p.Records c.schema path elem q) t t'
  | .nil => .same rfl fun q => by simp
  | .cons h hs => (h.records.trans hs.records).imp fun q hq => by
      obtain ⟨p', hp', hrecords⟩ := hq
      rcases List.mem_cons.mp hp' with rfl | hp'
      · exact .inl hrecords
      · exact .inr ⟨p', hp', hrecords⟩

theorem FitsFields.records {path : List String} {fields : List Field}
    {given : List (String × Pattern)} {t t' : Typing} {ms : List (Nat × Match)} :
    c.FitsFields path fields given t ms t' →
      Records (fun q => ∃ name p i f, (name, p) ∈ given ∧ Field.locate? name fields = some (i, f) ∧
        p.Records c.schema (path ++ [name]) f.ty q) t t'
  | .nil => .same rfl fun q => by simp
  | .cons hf h hs => (h.records.trans hs.records).imp fun q hq => by
      obtain ⟨name', p, j, g, hin, hg, hrecords⟩ := hq
      rcases List.mem_cons.mp hin with heq | hin
      · cases heq
        cases hf.symm.trans hg
        exact .inl hrecords
      · exact .inr ⟨name', p, j, g, hin, hg, hrecords⟩

theorem FitsInOrder.records {path : List String} {fields : List Field} {i : Nat} {ps : List Pattern}
    {t t' : Typing} {ms : List (Nat × Match)} : c.FitsInOrder path fields i ps t ms t' →
      Records (fun q => ∃ (j : Nat) (p : Pattern) (f : Field), ps[j]? = some p ∧
        fields[i + j]? = some f ∧ p.Records c.schema (path ++ [f.name]) f.ty q) t t'
  | .nil => .same rfl fun q => by simp
  | .cons hf h hs => (h.records.trans hs.records).imp fun q hq => by
      obtain ⟨j, p', f', hp', hf', hrecords⟩ := hq
      cases j with
      | zero =>
          obtain rfl := Option.some.inj hp'
          cases hf.symm.trans hf'
          exact .inl hrecords
      | succ j => exact .inr ⟨j, p', f', hp', by rwa [Nat.add_assoc, Nat.add_comm 1], hrecords⟩
end

/-! ## Queries -/

/-- A pattern that is left out records nothing. -/
theorem Fits.records_option {path : List String} {ty : Ty} {p : Option Pattern} {m : Match}
    (h : c.Fits path ty (p.getD .wild) t m t') :
    Records (fun q => ∃ p' ∈ p, p'.Records c.schema path ty q) t t' := by
  refine h.records.imp ?_
  rintro q ⟨p', rfl, hrecords⟩
  exact hrecords

/-- The names of what the patterns for key and value mark. -/
def FactRecords (s : Schema) (d : Definition) (key value : Option Pattern) (q : List String) : Prop :=
  (∃ p ∈ key, p.Records s [] d.key q) ∨ ∃ p ∈ value, p.Records s [valueRoot] d.value q

/-- A source that gives facts has the definition that its name stands for. -/
theorem Draws.records (hs : c.schema.Coherent) {name : String} {version : Option UInt32}
    {key value : Option Pattern} {p : Predicate} {derived : Bool} {k v : Match} {o : Outcome}
    (h : c.Draws (.predicate name version key value) t (.facts p derived k v) o t') :
    ∃ d, c.schema.get? p = some d ∧ o = .fact p ∧ Records (FactRecords c.schema d key value) t t' := by
  cases h with
  | facts hresolve henter hkey hvalue =>
      have hrecords := hkey.records_option.trans hvalue.records_option
      exact ⟨_, resolve_defines hs hresolve, rfl, hrecords.kept, hrecords.new⟩

/-- Marks are kept when the pattern of a statement is typed. -/
theorem Meets.kept {p : Pattern} {o : Outcome} {m : Match} (h : c.Meets p o t m t')
    (q : List String) (hq : t.noExpand.contains q = true) : t'.noExpand.contains q = true := by
  cases h with
  | anyFact => exact hq
  | fact h => exact h.records.kept q hq
  | value h => exact h.records.kept q hq

/-- The last of the stages comes from the last statement, and what it yields is what they
yield. -/
theorem stages_last {more : Bool} {first o : Outcome} {ss : List Statement} {st : Statement}
    {stages : List Stage} (hlast : ss.getLast? = some st)
    (h : c.stages more first ss t = .ok ((stages, o), t')) :
    ∃ stage t₁ t₂, stages.getLast? = some stage ∧
      c.supply st.source t₁ = .ok ((stage.supply, o), t₂) ∧
      c.binding st.bind o t₂ = .ok (stage.bind, t') := by
  induction ss generalizing first stages t with
  | nil => cases hlast
  | cons s ss ih =>
      obtain ⟨supply, o₁, t₁, bind, t₂, rest, hsupply, hbind, hstages, rfl⟩ := stages_cons h
      cases ss with
      | nil =>
          obtain rfl := Option.some.inj hlast
          obtain ⟨hpair, rfl⟩ := Outcome.stateT_pure_ok_iff.mp hstages
          cases hpair
          exact ⟨⟨supply, bind⟩, _, t₁, rfl, hsupply, hbind⟩
      | cons s' ss =>
          obtain ⟨stage, u₁, u₂, hstage, hfound, hmatch⟩ := ih hlast hstages
          refine ⟨stage, u₁, u₂, ?_, hfound, hmatch⟩
          rw [List.getLast?_cons, hstage]
          rfl

end TypingContext

/-- A typed query records what the patterns of its last source mark. -/
theorem Query.typed_records {s : Schema} (hs : s.Coherent) {query : Query} {plan : Plan}
    (h : query.typed s = .ok plan) {bind : Option Pattern} {name : String} {version : Option UInt32}
    {key value : Option Pattern}
    (hlast : query.statements.getLast? = some ⟨bind, .predicate name version key value⟩)
    {p : Predicate} {derived : Bool} {k v m : Match}
    (hstage : plan.main.stages.getLast? = some ⟨.facts p derived k v, m⟩) :
    plan.main.outcome = .fact p ∧ ∃ d, s.get? p = some d ∧
      ∀ q, TypingContext.FactRecords s d key value q → plan.main.noExpand.contains q = true := by
  obtain ⟨⟨main, derived'⟩, hbody, hplan⟩ := Outcome.bind_ok_iff.mp h
  obtain rfl := Except.ok.inj hplan
  obtain ⟨stages, o, t, hstages, rfl, -⟩ := TypingContext.body_none_iff.mp hbody
  obtain ⟨stage, u₁, u₂, hfound, hsupply, hbind⟩ := TypingContext.stages_last hlast hstages
  cases hfound.symm.trans hstage
  obtain ⟨d, hd, rfl, hrecords⟩ := (TypingContext.supply_draws hsupply).records hs
  exact ⟨rfl, d, hd, fun q hq => (TypingContext.binding_meets hbind).kept q (hrecords.new q hq)⟩

namespace Rendering

variable {r : Rendering}

/-- A reference at a marked path stays as it is. -/
theorem Judged.left_of_marked {s : Followed} {vs : List Visit} (h : r.Judged s vs) {v : Visit}
    (hv : v ∈ vs) (hmarked : r.noExpand.contains v.place.path = true) : v.IsLeft := by
  obtain ⟨before, after, rfl⟩ := List.append_of_mem hv
  exact h.decided.left_iff.mpr (.inl (not_passes_iff.mpr (.inl hmarked)))

end Rendering

namespace CompiledQuery

variable {σ : Type} [FactStore σ] {q : CompiledQuery}

/-- The result of a query that yields facts of a predicate is the rendering of such a fact. -/
theorem binding_fact {p : Predicate} (hout : q.plan.main.outcome = .fact p) {r : Reading σ}
    {overlay : Overlay} {policy : ExpandPolicy} {v : Value} {b : Binding}
    (h : q.binding r overlay policy v = .ok b) :
    ∃ f : Fact, f.predicate = p ∧ b.id = some f.id ∧ b.predicate = some p ∧
      Rendering.fact ⟨r.read overlay, q.schema, policy, q.plan.main.noExpand⟩ f = .ok b.json := by
  obtain ⟨found, hfound, hrest⟩ := Outcome.bind_ok_iff.mp h
  cases found with
  | none =>
      rw [hout] at hrest
      cases hrest
  | some f =>
      obtain ⟨json, hjson, hb⟩ := Outcome.bind_ok_iff.mp hrest
      obtain rfl := Except.ok.inj hb
      have hp : f.predicate = p := by
        unfold factOf at hfound
        rw [hout] at hfound
        cases v with
        | fact id =>
            obtain ⟨found, hread, hsome⟩ := Outcome.bind_ok_iff.mp hfound
            cases found with
            | none => cases hsome
            | some g =>
                obtain rfl := Option.some.inj (Except.ok.inj hsome)
                exact (Reading.read_found hread).1
        | _ => cases hfound
      exact ⟨f, hp, rfl, congrArg some hp, hjson⟩

/-- A place that `..` marks in the key or the value of what a query yields has one path, at
which typing marks it and rendering comes to it. So under every policy, and whatever is in the
store, a reference that stands there in a result is written as `\x7b"id": N\x7d`. -/
theorem marked_left (hschema : q.schema.Registered) {query : Query}
    (hplan : query.typed q.schema = .ok q.plan) {bind : Option Pattern} {name : String}
    {version : Option UInt32} {key value : Option Pattern}
    (hlast : query.statements.getLast? = some ⟨bind, .predicate name version key value⟩)
    {p : Predicate} {derived : Bool} {k v m : Match}
    (hstage : q.plan.main.stages.getLast? = some ⟨.facts p derived k v, m⟩) {d : Definition}
    (hd : q.schema.get? p = some d) {route : List Turn}
    (hmarked : (∃ pat ∈ key, ∃ rest, pat.Marks q.schema d.key rest ∧ route = .key :: rest) ∨
      ∃ pat ∈ value, ∃ rest, pat.Marks q.schema d.value rest ∧ route = .value :: rest) :
    ∃ path, q.plan.main.noExpand.contains path = true ∧
      ∀ (store : σ) (stored : Schema) (o : QueryOptions) (results : QueryResults),
        q.execute store stored o = .ok results → ∃ overlay, ∀ b ∈ results.bindings, ∃ f vs,
          b.id = some f.id ∧ Rendering.WritesFact
            ⟨(⟨store, stored, q.schema, q.mode⟩ : Reading σ).read overlay, q.schema, o.expand,
              q.plan.main.noExpand⟩ (.inside .root f.id) f b.json vs ∧
          ∀ w ∈ vs, w.place.route = route → w.place.path = path ∧ w.json = w.id.toJson := by
  obtain ⟨hout, d', hd', hrecords⟩ := Query.typed_records hschema.coherent hplan hlast hstage
  cases hd.symm.trans hd'
  -- the names on the route are recorded
  obtain ⟨path, hpath, hnames⟩ : ∃ path, q.plan.main.noExpand.contains path = true ∧
      q.schema.names? (.predicate p) route = some path := by
    rcases hmarked with ⟨pat, hpat, rest, hmarks, rfl⟩ | ⟨pat, hpat, rest, hmarks, rfl⟩
    · obtain ⟨names, hnames⟩ := hmarks.names
      exact ⟨names, hrecords names (.inl ⟨pat, hpat, rest, names, hmarks, hnames, rfl⟩),
        Schema.names?_key hd hnames⟩
    · obtain ⟨names, hnames⟩ := hmarks.names
      exact ⟨valueRoot :: names,
        hrecords _ (.inr ⟨pat, hpat, rest, names, hmarks, hnames, rfl⟩),
        Schema.names?_value hd hnames⟩
  refine ⟨path, hpath, fun store stored o results hresults => ?_⟩
  obtain ⟨_, -, hrun⟩ := Outcome.bind_ok_iff.mp hresults
  obtain ⟨⟨sink, e⟩, -, hrest⟩ := Outcome.bind_ok_iff.mp hrun
  obtain ⟨bindings, hbindings, hresult⟩ := Outcome.bind_ok_iff.mp hrest
  obtain rfl := Except.ok.inj hresult
  refine ⟨e.overlay, fun b hb => ?_⟩
  obtain ⟨i, hi⟩ := List.mem_iff_getElem?.mp hb
  obtain ⟨x, -, hx⟩ := forall₂_getElem? (Outcome.mapM_ok_iff.mp hbindings).flip hi
  obtain ⟨f, rfl, hid, -, hjson⟩ := binding_fact hout hx
  obtain ⟨vs, hwrites, hjudged⟩ := Rendering.fact_judged hjson
  refine ⟨f, vs, hid, hwrites, fun w hw hroute => ?_⟩
  -- and so are those that rendering has there
  obtain ⟨route', names, hroute', hnames', hpath'⟩ :=
    hwrites.routed (fun _ _ _ hread => (Reading.read_found hread).1) w hw
  obtain rfl : route = route' := hroute.symm.trans hroute'
  obtain rfl : path = names := Option.some.inj (hnames.symm.trans hnames')
  have hplace : w.place.path = path := hpath'
  exact ⟨hplace, hjudged.left_of_marked hw (hplace ▸ hpath)⟩

end CompiledQuery

/-! ## A family whose children are not shown -/

/-- `family.Parent \x7b child = _.. \x7d` -/
def unshownQuery : Query :=
  ⟨[⟨none, .predicate "family.Parent" none (some (.fields [("child", .noExpand .wild)])) none⟩]⟩

def unshownPlan : Plan := (unshownQuery.typed familySchema).toOption.getD default

def unshownCompiled : CompiledQuery := ⟨familySchema, .stored, unshownPlan, unshownPlan.compile⟩

/-- The child is not written in place, but the parent is. -/
def unshownJson : String :=
  "\x7b\"id\":1026,\"key\":\x7b\"child\":\x7b\"id\":1024\x7d," ++
    "\"parent\":\x7b\"id\":1025,\"key\":\"Bob\"\x7d\x7d\x7d"

/-- Facts of a predicate are drawn. -/
def Supply.draws (p : Predicate) : Supply → Bool
  | .facts q _ _ _ => q = p
  | _ => false

theorem Supply.draws_iff {p : Predicate} {s : Supply} :
    s.draws p = true ↔ ∃ derived k v, s = .facts p derived k v := by
  cases s <;> simp [draws, eq_comm]

theorem unshown_evaluated :
    (unshownQuery.typed familySchema).toOption.isSome ∧
      unshownPlan.main.stages.getLast?.any (·.supply.draws ⟨"family.Parent", 1⟩) ∧
      (familySchema.get? ⟨"family.Parent", 1⟩).any (fun d => d.key = .record
        [.plain "child" (.predicate ⟨"family.Person", 1⟩),
          .plain "parent" (.predicate ⟨"family.Person", 1⟩)]) ∧
      (unshownCompiled.execute familyStore familySchema default).toOption.any
        (fun results => results.bindings.map (·.json.compact) = [unshownJson]) := by
  decide +kernel

theorem CompiledQuery.marked_left_child : ∃ path results overlay,
    unshownCompiled.execute familyStore familySchema default = .ok results ∧
      results.bindings.map (·.json.compact) = [unshownJson] ∧
      ∀ b ∈ results.bindings, ∃ f vs, b.id = some f.id ∧ Rendering.WritesFact
        ⟨(⟨familyStore, familySchema, familySchema, .stored⟩ : Reading MemoryStore).read overlay,
          familySchema, .on, unshownPlan.main.noExpand⟩ (.inside .root f.id) f b.json vs ∧
        ∀ w ∈ vs, w.place.route = [.key, .field 0] → w.place.path = path ∧ w.json = w.id.toJson := by
  obtain ⟨htyped, hstage, hkey, hrun⟩ := unshown_evaluated
  obtain ⟨⟨supply, m⟩, hstage, hdraws⟩ := (Option.any_eq_true ..).mp hstage
  obtain ⟨derived, k, v, rfl⟩ := Supply.draws_iff.mp hdraws
  obtain ⟨d, hd, hkey⟩ := (Option.any_eq_true ..).mp hkey
  replace hkey := of_decide_eq_true hkey
  obtain ⟨results, hresults, htext⟩ := (Option.any_eq_true ..).mp hrun
  have hresults := Outcome.mem_toOption_iff.mp hresults
  have hmarks : (Pattern.fields [("child", .noExpand .wild)]).Marks familySchema d.key [.field 0] := by
    rw [hkey]
    exact .field (List.mem_singleton_self _) rfl (.here _ _)
  obtain ⟨path, -, hleft⟩ := marked_left (σ := MemoryStore) (q := unshownCompiled)
    familySchema_registered (Outcome.eq_ok_getD htyped default) rfl hstage hd
    (.inl ⟨_, rfl, _, hmarks, rfl⟩)
  obtain ⟨overlay, hbindings⟩ := hleft familyStore familySchema default results hresults
  exact ⟨path, results, overlay, hresults, of_decide_eq_true htext, hbindings⟩

end Factbase
