import Factbase.Proofs.Schema.Registry
import Mathlib.Data.List.Induction

/-!
# What an umbrella schema shows

A schema exports its own predicates under their short names, and under the
other short names what the last of the schemas it inherits exports there
(`Schema.Shows`). The latest version of a name is the one that the highest
umbrella schema shows, but a short name shows one predicate only: where
predicates of two names share it, the umbrella shows one of them, and the
other name falls back to its highest version (`Schema.umbrella_decides_latest`).

That exports are made this way when a schema is registered is an invariant
of registration (`Registered.layered`), since what a schema inherits stays
as it is.
-/

namespace Factbase

namespace SortedMap

variable {κ α : Type} [Ord κ] [Std.TransOrd κ] [Std.LawfulEqOrd κ]

/-- Of two maps that are put together, the second one counts. -/
theorem get?_insertMany_entries [DecidableEq κ] (m n : SortedMap κ α) (k : κ) :
    (m.insertMany n.entries).get? k = (n.get? k).or (m.get? k) := by
  rw [get?_insertMany]
  congr 1
  ext v
  rw [Option.map_eq_some_iff, get?_eq_some_iff]
  constructor
  · rintro ⟨e, hfind, rfl⟩
    obtain rfl : e.1 = k := by simpa using List.find?_some hfind
    exact List.mem_reverse.mp (List.mem_of_find?_eq_some hfind)
  · intro hmem
    obtain ⟨e, he⟩ : ∃ e, n.entries.reverse.find? (·.1 = k) = some e := by
      rw [← Option.isSome_iff_exists, List.find?_isSome]
      exact ⟨(k, v), List.mem_reverse.mpr hmem, decide_eq_true rfl⟩
    have hk : e.1 = k := by simpa using List.find?_some he
    have hin : e ∈ n.entries := List.mem_reverse.mp (List.mem_of_find?_eq_some he)
    have hboth : n.get? k = some e.2 := get?_eq_some_iff.mpr (hk ▸ hin)
    refine ⟨e, he, ?_⟩
    exact Option.some.inj (hboth.symm.trans (get?_eq_some_iff.mpr hmem))

end SortedMap

/-- The last element of an ascending list comes after every other. -/
theorem eq_or_lt_of_getLast? {α : Type} {lt : α → α → Prop} {l : List α} (h : l.Pairwise lt)
    {last : α} (hlast : l.getLast? = some last) {a : α} (ha : a ∈ l) : a = last ∨ lt a last := by
  obtain ⟨before, rfl⟩ := List.getLast?_eq_some_iff.mp hlast
  obtain ⟨-, -, hbefore⟩ := List.pairwise_append.mp h
  rcases List.mem_append.mp ha with hin | hin
  · exact .inr (hbefore a hin last (List.mem_singleton.mpr rfl))
  · exact .inl (List.mem_singleton.mp hin)

/-- Of two things with one name, the one that comes later has the higher version. -/
theorem version_lt_of_compare {α : Type} (name : α → String) (version : α → UInt32) {a b : α}
    (hname : name a = name b)
    (h : (compareOn name a b).then (compareOn version a b) = .lt) : version a < version b := by
  have heq : compareOn name a b = .eq := by
    rw [compareOn, hname]
    exact Std.ReflCmp.compare_self
  rw [heq, Ordering.then] at h
  exact Std.compare_eq_lt.mp h

namespace Schema

variable {s s' : Schema} {d : SchemaDecl} {info : SchemaInfo} {short n : String} {p q : Predicate}

/-! ## What a declaration inherits -/

/-- What a schema exports under a short name. -/
def exported? (s : Schema) (short : String) (id : SchemaId) : Option Predicate :=
  (s.schemas.get? id).bind (·.exports.get? short)

/-- A schema that a declaration inherits directly exports a predicate under a short name. -/
def Passes (s : Schema) (d : SchemaDecl) (short : String) (p : Predicate) : Prop :=
  ∃ id ∈ d.inherits, s.exported? short id = some p

theorem inherited_concat {ids : List SchemaId} {id : SchemaId} {scope : Scope}
    (h : s.inherited (ids ++ [id]) = .ok scope) :
    ∃ base info, s.inherited ids = .ok base ∧ s.schemas.get? id = some info ∧
      scope.predicates = base.predicates.insertMany info.exports.entries := by
  rw [inherited, List.foldlM_append] at h
  obtain ⟨base, hbase, h⟩ := Outcome.bind_ok_iff.mp h
  rw [List.foldlM_cons] at h
  obtain ⟨scope', hstep, h⟩ := Outcome.bind_ok_iff.mp h
  cases h
  obtain ⟨info, hinfo, hout⟩ := Outcome.bind_ok_iff.mp hstep
  cases hout
  exact ⟨base, info, hbase, dependency_registered hinfo, rfl⟩

/-- Of the schemas that export a short name, the last one counts. -/
theorem get?_inherited {ids : List SchemaId} {base : Scope} (h : s.inherited ids = .ok base)
    (short : String) :
    base.predicates.get? short = ids.reverse.findSome? (s.exported? short) := by
  induction ids using List.reverseRecOn generalizing base with
  | nil =>
      cases h
      rfl
  | append_singleton ids id ih =>
      obtain ⟨before, info, hbefore, hinfo, hscope⟩ := inherited_concat h
      have hexported : s.exported? short id = info.exports.get? short := by
        rw [exported?, hinfo, Option.bind_some]
      rw [hscope, SortedMap.get?_insertMany_entries, List.reverse_append, List.reverse_singleton,
        List.singleton_append, List.findSome?_cons, hexported, ih hbefore]
      cases info.exports.get? short <;> rfl

/-- What is inherited stays as it is when more is registered. -/
theorem inherited_preserved (hs : s.Preserves s') {ids : List SchemaId} {base : Scope}
    (h : s.inherited ids = .ok base) : s'.inherited ids = .ok base := by
  unfold inherited at h ⊢
  generalize (⟨∅, ∅⟩ : Scope) = start at h ⊢
  induction ids generalizing start with
  | nil => exact h
  | cons id ids ih =>
      rw [List.foldlM_cons] at h ⊢
      obtain ⟨next, hstep, hrest⟩ := Outcome.bind_ok_iff.mp h
      obtain ⟨info, hinfo, hnext⟩ := Outcome.bind_ok_iff.mp hstep
      have hinfo' : s'.dependency id = .ok info := by
        rw [dependency, hs.schemas id info (dependency_registered hinfo)]
      refine Outcome.bind_ok_iff.mpr ⟨next, ?_, ih next hrest⟩
      exact Outcome.bind_ok_iff.mpr ⟨info, hinfo', hnext⟩

/-! ## What a schema exports -/

/-- A declaration's own predicates go on top. -/
theorem get?_addOwn (d : SchemaDecl) (m : SortedMap String Predicate) (short : String) :
    (d.addOwn m).get? short =
      if short ∈ d.shortNames then some (d.predicateNamed short) else m.get? short := by
  unfold SchemaDecl.addOwn
  generalize d.shortNames = shorts
  induction shorts generalizing m with
  | nil => rfl
  | cons other shorts ih =>
      rw [List.foldl_cons, ih, SortedMap.get?_insert]
      by_cases hin : short ∈ shorts
      · simp [hin]
      · by_cases hsame : short = other
        · subst hsame
          simp [hin]
        · simp [hin, hsame]

/-- A schema exports what it declares on top of what it inherits. -/
def Layered (s : Schema) : Prop :=
  ∀ id info, s.schemas.get? id = some info → ∃ base, s.inherited info.decl.inherits = .ok base ∧
    info.exports = info.decl.addOwn base.predicates

theorem builtin_layered : builtin.Layered := by
  intro id info hid
  have hmem : (id, info) ∈ builtin.schemas.entries := SortedMap.get?_eq_some_iff.mp hid
  obtain ⟨-, rfl⟩ : id = builtinDecl.id ∧
      info = ⟨builtinDecl, .ofList [("Blob", ⟨"sys.Blob", 1⟩)], ∅⟩ := by
    simpa only [builtin, SortedMap.ofList, SortedMap.insertMany, List.foldl, SortedMap.insert,
      SortedMap.insertEntry, SortedMap.entries_empty, List.mem_singleton, Prod.mk.injEq] using hmem
  exact ⟨⟨∅, ∅⟩, rfl, rfl⟩

/-- Registration adds a schema with what it inherits then, and what it inherits stays. -/
theorem Layered.register (hs : s.Coherent) (hlayered : s.Layered) (h : s.register d = .ok s') :
    s'.Layered := by
  intro id info hid
  have hpreserved {ids : List SchemaId} {base : Scope} (hbase : s.inherited ids = .ok base) :
      s'.inherited ids = .ok base := inherited_preserved (preserves_register hs h) hbase
  rcases schemas_of_register h with rfl | ⟨-, base, aliases, hbase, hschemas⟩
  · exact hlayered id info hid
  · rw [hschemas, SortedMap.get?_insert] at hid
    split at hid
    · cases hid
      exact ⟨base, hpreserved hbase, rfl⟩
    · obtain ⟨base, hbase, hexports⟩ := hlayered id info hid
      exact ⟨base, hpreserved hbase, hexports⟩

theorem Registered.layered (h : Registered s) : s.Layered := by
  induction h with
  | builtin => exact builtin_layered
  | register hs hregister ih => exact ih.register hs.coherent hregister

/-- What a short name stands for in what a declaration exports: its own predicate, and otherwise
that of the last schema it inherits which exports one. -/
inductive Shows (s : Schema) (d : SchemaDecl) (short : String) : Predicate → Prop
  | own : short ∈ d.shortNames → Shows s d short (d.predicateNamed short)
  | inherited {before after : List SchemaId} {id : SchemaId} {p : Predicate} :
      short ∉ d.shortNames → d.inherits = before ++ id :: after →
      s.exported? short id = some p → (∀ later ∈ after, s.exported? short later = none) →
      Shows s d short p

/-- What is exported is what is shown. -/
theorem Layered.get?_exports (hs : s.Layered) {id : SchemaId} (hid : s.schemas.get? id = some info) :
    info.exports.get? short = some p ↔ s.Shows info.decl short p := by
  obtain ⟨base, hbase, hexports⟩ := hs id info hid
  rw [hexports, get?_addOwn, get?_inherited hbase]
  constructor
  · intro h
    split at h
    · rename_i hown
      cases h
      exact .own hown
    · rename_i hown
      obtain ⟨later, id', before, hids, hexported, hlater⟩ := List.findSome?_eq_some_iff.mp h
      have hinherits : info.decl.inherits = before.reverse ++ id' :: later.reverse := by
        rw [← List.reverse_reverse info.decl.inherits, hids]
        simp
      exact .inherited hown hinherits hexported fun i hi => hlater i (List.mem_reverse.mp hi)
  · intro h
    cases h with
    | own hown => rw [if_pos hown]
    | @inherited before after _ _ hown hinherits hexported hlater =>
        rw [if_neg hown, hinherits]
        refine List.findSome?_eq_some_iff.mpr ⟨after.reverse, _, before.reverse, by simp, hexported, ?_⟩
        exact fun i hi => hlater i (List.mem_reverse.mp hi)

/-- A predicate that is shown was passed on or is one of the declaration's own. -/
theorem Shows.cases (h : s.Shows d short p) :
    s.Passes d short p ∨ short ∈ d.shortNames ∧ p = d.predicateNamed short := by
  cases h with
  | own hown => exact .inr ⟨hown, rfl⟩
  | inherited _ hinherits hexported _ => exact .inl ⟨_, by simp [hinherits], hexported⟩

/-- A short name that is passed on stands for something. -/
theorem Passes.shown (h : s.Passes info.decl short p) (hs : s.Layered) {id : SchemaId}
    (hid : s.schemas.get? id = some info) : ∃ q, s.Shows info.decl short q := by
  by_cases hown : short ∈ info.decl.shortNames
  · exact ⟨_, .own hown⟩
  · obtain ⟨base, hbase, hexports⟩ := hs id info hid
    obtain ⟨dep, hdep, hexported⟩ := h
    have hsome : (info.decl.inherits.reverse.findSome? (s.exported? short)).isSome := by
      rw [List.findSome?_isSome_iff]
      exact ⟨dep, List.mem_reverse.mpr hdep, by rw [hexported]; rfl⟩
    obtain ⟨q, hq⟩ := Option.isSome_iff_exists.mp hsome
    refine ⟨q, (hs.get?_exports hid).mp ?_⟩
    rw [hexports, get?_addOwn, if_neg hown, get?_inherited hbase, hq]

/-! ## Latest versions -/

/-- The umbrella schema that counts is the one of the highest version. -/
theorem umbrella?_of_highest {m : UInt32} (hall : s.schemas.get? ⟨umbrellaName, m⟩ = some info)
    (hhighest : ∀ m', s.schemas.contains ⟨umbrellaName, m'⟩ = true → m' ≤ m) :
    s.umbrella? = some info := by
  have hmem : (⟨umbrellaName, m⟩, info) ∈ s.schemas.entries.filter (·.1.name = umbrellaName) :=
    List.mem_filter.mpr ⟨SortedMap.get?_eq_some_iff.mp hall, decide_eq_true rfl⟩
  obtain ⟨last, hlast⟩ : ∃ last, (s.schemas.entries.filter (·.1.name = umbrellaName)).getLast? =
      some last := ⟨_, List.getLast?_eq_some_getLast (List.ne_nil_of_mem hmem)⟩
  rw [umbrella?, hlast]
  rcases eq_or_lt_of_getLast? (s.schemas.ascending.filter _) hlast hmem with rfl | hlt
  · rfl
  · obtain ⟨hentry, hname⟩ := List.mem_filter.mp (List.mem_of_getLast? hlast)
    have hname : last.1.name = umbrellaName := by simpa using hname
    have hversion : m < last.1.version :=
      version_lt_of_compare SchemaId.name SchemaId.version (a := ⟨umbrellaName, m⟩) hname.symm hlt
    have hcontains : s.schemas.contains ⟨umbrellaName, last.1.version⟩ = true :=
      SortedMap.contains_iff.mpr ⟨last.2, SortedMap.get?_eq_some_iff.mpr (hname ▸ hentry)⟩
    exact absurd hversion (UInt32.not_lt.mpr (hhighest _ hcontains))

/-- A predicate is the highest version of its name. -/
structure Highest (s : Schema) (n : String) (p : Predicate) : Prop where
  name : p.name = n
  defined : s.Defines p
  highest : ∀ q, s.Defines q → q.name = n → q.version ≤ p.version

theorem mem_versions_iff : p ∈ s.versions n ↔ s.Defines p ∧ p.name = n := by
  rw [versions, List.mem_filter, SortedMap.mem_keys_iff, decide_eq_true_iff]
  rfl

theorem highest_of_getLast? (h : (s.versions n).getLast? = some p) : s.Highest n p := by
  obtain ⟨hdefined, hname⟩ := mem_versions_iff.mp (List.mem_of_getLast? h)
  refine ⟨hname, hdefined, fun q hq hqname => ?_⟩
  have hascending : (s.versions n).Pairwise fun a b => compare a b = .lt :=
    (SortedMap.keys_pairwise s.predicates).filter _
  rcases eq_or_lt_of_getLast? hascending h (mem_versions_iff.mpr ⟨hq, hqname⟩) with rfl | hlt
  · exact UInt32.le_refl _
  · exact UInt32.le_of_lt
      (version_lt_of_compare Predicate.name Predicate.version (hqname.trans hname.symm) hlt)

/-- The latest version of a name that an umbrella shows is one that it shows. -/
theorem latest?_of_shown (hs : s.Layered) (hum : s.umbrella? = some info)
    (hshown : ∃ short p, s.Shows info.decl short p ∧ p.name = n) :
    ∃ short p, s.latest? n = some p ∧ p.name = n ∧ s.Shows info.decl short p := by
  obtain ⟨id, hid⟩ := umbrella?_registered hum
  obtain ⟨short, p, hshows, hname⟩ := hshown
  have hvalue : p ∈ info.exports.values :=
    SortedMap.mem_values_iff.mpr ⟨short, (hs.get?_exports hid).mpr hshows⟩
  obtain ⟨q, hq⟩ : ∃ q, info.exports.values.find? (·.name = n) = some q := by
    rw [← Option.isSome_iff_exists, List.find?_isSome]
    exact ⟨p, hvalue, decide_eq_true hname⟩
  obtain ⟨short', hget⟩ := SortedMap.mem_values_iff.mp (List.mem_of_find?_eq_some hq)
  refine ⟨short', q, ?_, by simpa using List.find?_some hq, (hs.get?_exports hid).mp hget⟩
  rw [latest?, hum, Option.bind_some, hq]
  rfl

/-- Without a version that the umbrella shows, it is the highest one. -/
theorem latest?_of_not_shown (hs : s.Layered) (hum : s.umbrella? = some info)
    (hshown : ¬ ∃ short p, s.Shows info.decl short p ∧ p.name = n) :
    s.latest? n = (s.versions n).getLast? := by
  obtain ⟨id, hid⟩ := umbrella?_registered hum
  have hnone : info.exports.values.find? (·.name = n) = none := by
    rw [List.find?_eq_none]
    intro p hp hname
    obtain ⟨short, hget⟩ := SortedMap.mem_values_iff.mp hp
    exact hshown ⟨short, p, (hs.get?_exports hid).mp hget, by simpa using hname⟩
  rw [latest?, hum, Option.bind_some, hnone]
  rfl

/-- The highest umbrella schema decides the latest version of a name that it is passed, as long as
some short name stands for the name there: it is a version that the umbrella was passed, or its
own. A name is lost only when each short name that it was passed under stands for a predicate of
another name, and then its highest version is the latest. -/
theorem umbrella_decides_latest (hs : Registered s) {m : UInt32}
    (hall : s.schemas.get? ⟨umbrellaName, m⟩ = some info)
    (hhighest : ∀ m', s.schemas.contains ⟨umbrellaName, m'⟩ = true → m' ≤ m)
    (hpassed : ∃ short p, s.Passes info.decl short p ∧ p.name = n) :
    ((∃ short p, s.Shows info.decl short p ∧ p.name = n) →
      ∃ short p, s.latest? n = some p ∧ p.name = n ∧
        (s.Passes info.decl short p ∨ short ∈ info.decl.shortNames ∧ p = info.decl.predicateNamed short)) ∧
    ((¬ ∃ short p, s.Shows info.decl short p ∧ p.name = n) →
      (∀ short p, s.Passes info.decl short p → p.name = n →
        ∃ q, s.Shows info.decl short q ∧ q.name ≠ n) ∧
      ∃ p, s.latest? n = some p ∧ s.Highest n p) := by
  have hum := umbrella?_of_highest hall hhighest
  refine ⟨fun hshown => ?_, fun hshown => ⟨fun short p hpass hname => ?_, ?_⟩⟩
  · obtain ⟨short, p, hlatest, hname, hshows⟩ := latest?_of_shown hs.layered hum hshown
    exact ⟨short, p, hlatest, hname, hshows.cases⟩
  · obtain ⟨q, hq⟩ := hpass.shown hs.layered hall
    exact ⟨q, hq, fun heq => hshown ⟨short, q, hq, heq⟩⟩
  · obtain ⟨short, p, ⟨id, -, hexported⟩, hname⟩ := hpassed
    obtain ⟨base, hbase, hget⟩ := Option.bind_eq_some_iff.mp hexported
    have hdefined : s.Defines p := hs.coherent.exports id base hbase short p hget
    have hin : p ∈ s.versions n := mem_versions_iff.mpr ⟨hdefined, hname⟩
    have hlast := List.getLast?_eq_some_getLast (List.ne_nil_of_mem hin)
    exact ⟨_, (latest?_of_not_shown hs.layered hum hshown).trans hlast, highest_of_getLast? hlast⟩

/-- An umbrella over two schemas that share a short name. -/
def sharedSchema : Schema :=
  (ofText "schema a.1 \x7b predicate P : string \x7d
    schema a.2 : a.1 \x7b predicate P : nat \x7d
    schema b.1 \x7b predicate P : string \x7d
    schema b.2 : b.1 \x7b predicate P : nat \x7d
    schema all.1 : a.1, b.1 \x7b \x7d").toOption.getD .builtin

theorem sharedSchema_registered : sharedSchema.Registered := registered_ofText_getD _

def sharedUmbrella : SchemaInfo :=
  ⟨⟨"all", 1, [⟨"a", 1⟩, ⟨"b", 1⟩], [], []⟩, .ofList [("P", ⟨"b.P", 1⟩)], ∅⟩

theorem sharedSchema_evaluated :
    sharedSchema.schemas.get? ⟨umbrellaName, 1⟩ = some sharedUmbrella ∧
      (∀ id ∈ sharedSchema.schemas.keys, id.name = umbrellaName → id.version ≤ 1) ∧
      sharedSchema.exported? "P" ⟨"a", 1⟩ = some ⟨"a.P", 1⟩ ∧
      sharedSchema.exported? "P" ⟨"b", 1⟩ = some ⟨"b.P", 1⟩ ∧
      sharedSchema.latest? "a.P" = some ⟨"a.P", 2⟩ ∧
      ∀ id ∈ sharedUmbrella.decl.inherits, ∀ i ∈ sharedSchema.schemas.get? id,
        ⟨"a.P", 2⟩ ∉ i.exports.values := by decide +kernel

theorem sharedUmbrella_highest : ∀ m, sharedSchema.schemas.contains ⟨umbrellaName, m⟩ = true → m ≤ 1 :=
  fun _ hm => sharedSchema_evaluated.2.1 _
    (SortedMap.mem_keys_iff.mpr (SortedMap.contains_iff.mp hm)) rfl

/-- The schema inherited last takes the short name: its name keeps the version that was passed on,
and the other name is lost. -/
theorem umbrella_decides_latest_shared :
    (∃ short p, sharedSchema.latest? "b.P" = some p ∧ p.name = "b.P" ∧
      (sharedSchema.Passes sharedUmbrella.decl short p ∨
        short ∈ sharedUmbrella.decl.shortNames ∧ p = sharedUmbrella.decl.predicateNamed short)) ∧
    ∃ p, sharedSchema.latest? "a.P" = some p ∧ sharedSchema.Highest "a.P" p := by
  obtain ⟨hall, -, ha, hb, -, -⟩ := sharedSchema_evaluated
  have hhighest := sharedUmbrella_highest
  have ha : sharedSchema.Passes sharedUmbrella.decl "P" ⟨"a.P", 1⟩ := ⟨⟨"a", 1⟩, by decide, ha⟩
  have hb : sharedSchema.Passes sharedUmbrella.decl "P" ⟨"b.P", 1⟩ := ⟨⟨"b", 1⟩, by decide, hb⟩
  have hshows : sharedSchema.Shows sharedUmbrella.decl "P" ⟨"b.P", 1⟩ :=
    (sharedSchema_registered.layered.get?_exports hall).mp (by decide +kernel)
  have hlost : ¬ ∃ short p, sharedSchema.Shows sharedUmbrella.decl short p ∧ p.name = "a.P" := by
    rintro ⟨short, p, hp, hname⟩
    have hexport := (sharedSchema_registered.layered.get?_exports hall).mpr hp
    have hvalues : ∀ q ∈ sharedUmbrella.exports.values, q.name ≠ "a.P" := by decide +kernel
    exact hvalues p (SortedMap.mem_values_iff.mpr ⟨short, hexport⟩) hname
  refine ⟨?_, ?_⟩
  · exact (umbrella_decides_latest sharedSchema_registered hall hhighest ⟨"P", _, hb, rfl⟩).1
      ⟨"P", _, hshows, rfl⟩
  · exact ((umbrella_decides_latest sharedSchema_registered hall hhighest ⟨"P", _, ha, rfl⟩).2 hlost).2

/-- The latest version of a name may be one that the highest umbrella schema was not passed, although
it was passed another one. -/
theorem umbrella_forgets_shared_name :
    sharedSchema.Registered ∧
      sharedSchema.schemas.get? ⟨umbrellaName, 1⟩ = some sharedUmbrella ∧
      (∀ m, sharedSchema.schemas.contains ⟨umbrellaName, m⟩ = true → m ≤ 1) ∧
      sharedSchema.Passes sharedUmbrella.decl "P" ⟨"a.P", 1⟩ ∧
      sharedSchema.latest? "a.P" = some ⟨"a.P", 2⟩ ∧
      ∀ short, ¬ sharedSchema.Passes sharedUmbrella.decl short ⟨"a.P", 2⟩ := by
  obtain ⟨hall, -, ha, -, hlatest, hvalues⟩ := sharedSchema_evaluated
  refine ⟨sharedSchema_registered, hall, sharedUmbrella_highest, ⟨⟨"a", 1⟩, by decide, ha⟩,
    hlatest, ?_⟩
  rintro short ⟨id, hid, hexported⟩
  obtain ⟨info, hinfo, hget⟩ := Option.bind_eq_some_iff.mp hexported
  exact hvalues id hid info hinfo (SortedMap.mem_values_iff.mpr ⟨short, hget⟩)

end Schema

end Factbase
