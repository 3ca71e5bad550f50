import Factbase.Proofs.Query.Continuing
import Factbase.Proofs.Query.Printing
import Factbase.Schema.Declaration

/-!
# Entries of schemas

An entry of a schema is an import or an item. It is read as far as its
parser knows it: an import, an alias and a stored predicate end by
themselves, and the query of a derived predicate goes on as long as
statements come (`SchemaEntry.parseOpening`). So what a semicolon behind
an entry does depends on its kind (`SchemaEntry.admits`): it is taken and
changes nothing (`SchemaEntry.terminated_semicolon`), or it is taken for
one between two statements, and then no entry can be read from where the
query ends (`SchemaEntry.terminated_stuck`).
-/

namespace Factbase

open Parse Cursor

/-! ## Types -/

namespace TypeExpr

variable {inner : Parse TypeExpr} {separator : Token} {follow : Token → Prop}

theorem solid_parseDefault : Solid parseDefault := by
  refine Solid.take (fun c r h => by cases h) fun t => ?_
  cases t with
  | nat n => exact .pure _
  | string s => exact .pure _
  | name name =>
      dsimp only
      split
      · exact .pure _
      · split
        · exact .pure _
        · exact (Solid.fail _).loose
  | _ => exact (Solid.fail _).loose

theorem advances_parseField (hinner : Solid inner) : Advances (parseField inner) := by
  refine Solid.expectName.advances.bind fun name => (Solid.expect (by decide)).steady.bind fun _ =>
    hinner.steady.bind fun ty => (steady_eat (by decide)).bind fun b => ?_
  cases b with
  | true => exact solid_parseDefault.steady.bind fun default => (Loose.pure _).steady
  | false => exact (Loose.pure _).steady

theorem firm_parseField (hinner : Solid inner) : Firm (· ≠ .equals) (parseField inner) := by
  refine (Solid.expectName.firm _).bind fun name => ((Solid.expect (by decide)).firm _).bind fun _ =>
    (hinner.firm _).bind fun ty => .eat (by decide) (fun _ => id) ?_ ((Loose.pure _).firm _)
  exact (solid_parseDefault.firm _).bind fun default => (Loose.pure _).firm _

/-- The field after a separator, if there is one. -/
def parseAfter (inner : Parse TypeExpr) : Parse (Option FieldExpr) := do
  if (← Parse.peek) = .rightBrace then return none
  return some (← parseField inner)

theorem parseMoreFields_eq_turns (n : Nat) :
    parseMoreFields inner separator n = turns (separated separator (parseAfter inner)) n := by
  induction n with
  | zero => rfl
  | succ n ih =>
      funext c
      rw [parseMoreFields, turns, ih]
      generalize turns (separated separator (parseAfter inner)) n = more
      rw [separated, parseAfter, bind_assoc, eat_bind, eat_bind]
      split
      · simp only [if_true]
        rw [peek_bind, bind_assoc, peek_bind]
        split <;> simp only [bind_assoc, pure_bind]
      · rfl

theorem parseAfter_brace {c : Cursor} (h : c.peek = .rightBrace) :
    parseAfter inner c = .ok (none, c) := by
  rw [parseAfter, peek_bind, if_pos h]
  rfl

theorem parseAfter_field {c : Cursor} (h : c.peek ≠ .rightBrace) :
    parseAfter inner c = (do return some (← parseField inner)) c := by
  rw [parseAfter, peek_bind, if_neg h]

theorem firm_parseAfter (hinner : Solid inner) : Firm (· = .rightBrace) (parseAfter inner) :=
  .unless (fun _ => parseAfter_brace) (fun _ => parseAfter_field) (fun _ => id)
    (((firm_parseField hinner).mono fun _ h => ne_of_eq_of_ne h (by decide)).bind fun _ =>
      (Loose.pure _).firm _)
    ((advances_parseField hinner).bind fun _ => (Loose.pure _).steady)

theorem firmLoop_parseMoreFields (hinner : Solid inner) (hend : separator ≠ .endOfInput)
    (hbrace : separator ≠ .rightBrace) :
    FirmLoop (· = .rightBrace) (parseMoreFields inner separator) :=
  funext parseMoreFields_eq_turns ▸
    firmLoop_separated hend (fun _ h => ne_of_eq_of_ne h hbrace.symm) (firm_parseAfter hinner)

theorem parseMoreNames_eq_turns (n : Nat) :
    parseMoreNames n = turns (separated .bar (some <$> Parse.expectName)) n := by
  induction n with
  | zero => rfl
  | succ n ih =>
      funext c
      rw [parseMoreNames, turns, ih]
      generalize turns (separated .bar (some <$> Parse.expectName)) n = more
      rw [separated, bind_assoc, eat_bind, eat_bind]
      split
      · simp only [if_true, map_eq_pure_bind, bind_assoc, pure_bind]
      · rfl

theorem firm_name : Firm follow (some <$> Parse.expectName) :=
  (Solid.expectName.firm _).bind fun _ => (Loose.pure _).firm _

theorem firmLoop_parseMoreNames : FirmLoop (· = .rightBrace) parseMoreNames :=
  funext parseMoreNames_eq_turns ▸
    firmLoop_separated (by decide) (fun _ h => ne_of_eq_of_ne h (by decide)) firm_name

theorem solid_parsePrimary (hinner : Solid inner) : Solid (parsePrimary inner) := by
  refine Solid.take (fun c r h => by cases h) fun t => ?_
  split
  · exact (hinner.bind fun elem =>
      ((Solid.expect (t := .rightBracket) (by decide)).bind fun _ => .pure _).loose).loose
  · refine Solid.loose (Solid.eat (by decide) ?_ ?_)
    · exact .pure _
    · refine Solid.after (advances_parseField hinner).steady fun first =>
        Solid.after steady_peek fun t => ?_
      refine (firmLoop_parseMoreFields hinner ?_ ?_).steady.solid_bind fun rest =>
        (Solid.expect (by decide)).bind fun _ => .pure _
      all_goals split <;> decide
  · exact .pure _
  · exact .pure _
  · exact .pure _
  · exact .pure _
  · exact (hinner.bind fun inner => .pure _).loose
  · refine ((Solid.expect (t := .leftBrace) (by decide)).bind fun _ =>
      (Solid.expectName.bind fun first => ?_).loose).loose
    exact (firmLoop_parseMoreNames.steady.solid_bind fun rest =>
      (Solid.expect (by decide)).bind fun _ => .pure _).loose
  · exact .pure _
  · exact (Solid.fail _).loose

theorem solid_parseWithin (depth : Nat) : Solid (parseWithin depth) := by
  induction depth with
  | zero => exact Solid.fail _
  | succ depth ih => exact solid_parsePrimary ih

theorem solid_parse : Solid TypeExpr.parse := solid_parseWithin maxNesting

end TypeExpr

/-! ## Entries -/

theorem SchemaId.solid_parse : Solid SchemaId.parse := by
  refine Solid.expectName.bind fun text => ?_
  split
  · exact .pure _
  · exact (Solid.fail _).loose

/-- What stands between the braces of a schema. -/
inductive SchemaEntry where
  | imported (id : SchemaId)
  | item (item : SchemaItem)
deriving DecidableEq

namespace SchemaEntry

/-- An import or an item. -/
def parse : Parse SchemaEntry := do
  if ← Parse.eat (.name "import") then return .imported (← SchemaId.parse)
  return .item (← SchemaItem.parse)

/-- A predicate whose facts are derived from others. -/
def isDerived : SchemaEntry → Bool
  | .item (.predicate _ _ _ (some _)) => true
  | _ => false

/-- An entry in front of imports and items. -/
def onto : SchemaEntry → List SchemaId × List SchemaItem → List SchemaId × List SchemaItem
  | .imported id, (imports, items) => (id :: imports, items)
  | .item i, (imports, items) => (imports, i :: items)

/-- An entry is one of these imports and items. -/
def In : SchemaEntry → List SchemaId × List SchemaItem → Prop
  | .imported id, r => id ∈ r.1
  | .item i, r => i ∈ r.2

theorem not_in_nil {e : SchemaEntry} (h : e.In ([], [])) : False := by
  cases e <;> cases h

theorem in_onto {e e' : SchemaEntry} {r : List SchemaId × List SchemaItem} :
    e'.In (e.onto r) ↔ e = e' ∨ e'.In r := by
  cases e <;> cases e' <;> simp [In, onto, eq_comm]

/-- The name and the types of a predicate. -/
def parseTyped : Parse (String × TypeExpr × Option TypeExpr) := do
  let name ← Parse.expectName
  if name.toList.contains '.' then Parse.fail (.qualifiedPredicate name)
  Parse.expect .colon
  let key ← TypeExpr.parse
  let value ← if ← Parse.eat .arrow then some <$> TypeExpr.parse else pure none
  return (name, key, value)

theorem parsePredicate_eq : SchemaItem.parsePredicate = do
    let (name, key, value) ← parseTyped
    if SchemaItem.endsBefore (← Parse.peek) then return .predicate name key value none
    let head ← Pattern.parse
    Parse.expectKeyword "where"
    return .predicate name key value (some (head, ← Query.parse)) := by
  rw [SchemaItem.parsePredicate, parseTyped, bind_assoc]
  refine bind_congr fun name => ?_
  split
  · rfl
  · simp only [bind_assoc]
    refine bind_congr fun _ => bind_congr fun key => bind_congr fun b => ?_
    cases b <;> simp only [if_true, Bool.false_eq_true, if_false, bind_assoc, pure_bind]

/-- An entry, up to the query of a derived predicate. -/
def parseOpening : Parse (SchemaEntry ⊕ (Query → SchemaEntry)) := do
  if ← Parse.eat (.name "import") then return .inl (.imported (← SchemaId.parse))
  if ← Parse.eat (.name "type") then return .inl (.item (← SchemaItem.parseAlias))
  if ← Parse.eat (.name "predicate") then
    let (name, key, value) ← parseTyped
    if SchemaItem.endsBefore (← Parse.peek) then return .inl (.item (.predicate name key value none))
    let head ← Pattern.parse
    Parse.expectKeyword "where"
    return .inr fun q => .item (.predicate name key value (some (head, q)))
  Parse.failHere .expectedItem

theorem parse_eq : parse = do
    match ← parseOpening with
    | .inl e => return e
    | .inr f => return f (← Query.parse) := by
  rw [parse, parseOpening, SchemaItem.parse, parsePredicate_eq]
  simp only [bind_assoc]
  refine bind_congr fun b => ?_
  cases b with
  | true => simp only [if_true, bind_assoc, pure_bind]
  | false =>
      simp only [Bool.false_eq_true, if_false, bind_assoc]
      refine bind_congr fun b => ?_
      cases b with
      | true => simp only [if_true, bind_assoc, pure_bind]
      | false =>
          simp only [Bool.false_eq_true, if_false, bind_assoc]
          refine bind_congr fun b => ?_
          cases b with
          | true =>
              simp only [if_true, bind_assoc]
              refine bind_congr fun typed => bind_congr fun t => ?_
              split <;> simp only [bind_assoc, pure_bind]
          | false => rfl

theorem firm_parseTyped : Firm (· ≠ .arrow) parseTyped := by
  refine (Solid.expectName.firm _).bind fun name => ?_
  have hmore : Firm (· ≠ .arrow) (do
      Parse.expect .colon
      let key ← TypeExpr.parse
      let value ← if ← Parse.eat .arrow then some <$> TypeExpr.parse else pure none
      return (name, key, value)) :=
    ((Solid.expect (by decide)).firm _).bind fun _ => (TypeExpr.solid_parse.firm _).bind fun key =>
      .eat (by decide) (fun _ => id)
        (((TypeExpr.solid_parse.bind fun ty => .pure _).bind fun value => .pure _).firm _)
        ((Loose.pure _).firm _)
  split
  · exact ((Solid.fail _).firm _).bind fun _ => hmore
  · exact hmore

theorem SchemaItem.solid_parseAlias : Solid SchemaItem.parseAlias :=
  Solid.expectName.bind fun name => ((Solid.expect (by decide)).bind fun _ =>
    (TypeExpr.solid_parse.bind fun ty => .pure _).loose).loose

theorem steady_parseHead (f : Pattern → Query → SchemaEntry) : Steady (do
    let head ← Pattern.parse
    Parse.expectKeyword "where"
    return .inr (f head) : Parse (SchemaEntry ⊕ (Query → SchemaEntry))) :=
  Pattern.firm_parse.steady.bind fun _ => (Solid.expectKeyword _).steady.bind fun _ =>
    (Loose.pure _).steady

theorem advances_parseOpening : Advances parseOpening := by
  refine Advances.eat (by simp) ?_ (Advances.eat (by simp) ?_ (Advances.eat (by simp) ?_ ?_))
  · exact SchemaId.solid_parse.steady.bind fun id => (Loose.pure _).steady
  · exact SchemaItem.solid_parseAlias.steady.bind fun item => (Loose.pure _).steady
  · refine firm_parseTyped.steady.bind fun typed => steady_peek.bind fun t => ?_
    split
    · exact (Loose.pure _).steady
    · exact steady_parseHead _
  · exact fun _ _ _ _ hread => by cases hread

theorem advances_parse : Advances parse := by
  rw [parse_eq]
  refine advances_parseOpening.bind fun opening => ?_
  cases opening with
  | inl e => exact (Loose.pure _).steady
  | inr f => exact Query.steady_parse.bind fun q => (Loose.pure _).steady

/-! ### What may follow an entry -/

/-- A semicolon may follow an entry, unless its query comes yet. -/
def Follows : SchemaEntry ⊕ (Query → SchemaEntry) → Token → Prop
  | .inl _, t => t = .semicolon
  | .inr _, _ => False

theorem Follows.eq_semicolon : ∀ {opening t}, Follows opening t → t = .semicolon
  | .inl _, _, h => h
  | .inr _, _, h => h.elim

theorem before_parseOpening : Before Follows parseOpening := by
  have hname (kw : String) (y : SchemaEntry ⊕ (Query → SchemaEntry)) (u : Token)
      (h : Follows y u) : u ≠ .name kw := by
    rw [h.eq_semicolon]
    simp
  refine Before.eat (by simp) (hname _) ?_ (Before.eat (by simp) (hname _) ?_
    (Before.eat (by simp) (hname _) ?_ ?_))
  · exact (SchemaId.solid_parse.bind fun id => .pure _).loose.before
  · exact (SchemaItem.solid_parseAlias.bind fun item => .pure _).loose.before
  · intro c opening c' hends hread
    obtain ⟨⟨name, key, value⟩, c₁, htyped, hread⟩ := bind_ok_iff.mp hread
    obtain ⟨ts, hts, hreads⟩ := firm_parseTyped c _ c₁ hends htyped
    dsimp only at hread
    rw [peek_bind] at hread
    split at hread
    · cases hread
      refine ⟨ts, hts, fun d d' hpasses hnext => ?_⟩
      obtain hnext : d'.peek = .semicolon := hnext
      refine bind_ok_iff.mpr ⟨_, d', hreads d d' hpasses (.inr (by rw [hnext]; simp)), ?_⟩
      dsimp only
      rw [peek_bind, hnext]
      rfl
    · obtain ⟨us, hus, -⟩ := steady_parseHead (fun head q => .item (.predicate name key value
        (some (head, q)))) c₁ opening c' (hends.of_passes hts) hread
      obtain ⟨head, c₂, -, hread⟩ := bind_ok_iff.mp hread
      obtain ⟨⟨⟩, c₃, -, hout⟩ := bind_ok_iff.mp hread
      cases hout
      exact ⟨ts ++ us, hts.trans hus, fun _ _ _ hnext => hnext.elim⟩
  · exact (Solid.failHere _).loose.before

/-! ### How an entry starts -/

variable {c c' : Cursor} {opening : SchemaEntry ⊕ (Query → SchemaEntry)}

theorem parseAlias_ok {item : SchemaItem} (hread : SchemaItem.parseAlias c = .ok (item, c')) :
    ∃ name ty, item = .alias name ty ∧ c.peek = .name name ∧ c.advance.peek = .equals := by
  obtain ⟨name, c₁, hname, hread⟩ := bind_ok_iff.mp hread
  obtain ⟨hpeek, rfl⟩ := expectName_ok_iff.mp hname
  obtain ⟨⟨⟩, c₂, hequals, hread⟩ := bind_ok_iff.mp hread
  obtain ⟨ty, c₃, -, hout⟩ := bind_ok_iff.mp hread
  cases hout
  exact ⟨name, ty, rfl, hpeek, (expect_ok_iff.mp hequals).1⟩

theorem parseTyped_ok {typed : String × TypeExpr × Option TypeExpr}
    (hread : parseTyped c = .ok (typed, c')) :
    ∃ name, c.peek = .name name ∧ c.advance.peek = .colon := by
  obtain ⟨name, c₁, hname, hread⟩ := bind_ok_iff.mp hread
  obtain ⟨hpeek, rfl⟩ := expectName_ok_iff.mp hname
  split at hread
  · obtain ⟨_, _, hfail, -⟩ := bind_ok_iff.mp hread
    cases hfail
  · obtain ⟨⟨⟩, c₂, hcolon, -⟩ := bind_ok_iff.mp hread
    exact ⟨name, hpeek, (expect_ok_iff.mp hcolon).1⟩

theorem parseId_ok {id : SchemaId} (hread : SchemaId.parse c = .ok (id, c')) :
    ∃ name, c.peek = .name name ∧ '.' ∈ name.toList := by
  obtain ⟨name, c₁, hname, hread⟩ := bind_ok_iff.mp hread
  refine ⟨name, (expectName_ok_iff.mp hname).1, ?_⟩
  obtain ⟨⟨base, version⟩, hsplit⟩ : ∃ parts, splitVersion name = parts := ⟨_, rfl⟩
  rw [hsplit] at hread
  cases version with
  | none => cases hread
  | some v =>
      obtain ⟨-, digits, htext, -⟩ := eq_of_splitVersion hsplit
      rw [htext]
      simp

/-- What an entry starts with, and whether a query comes yet. -/
theorem parseOpening_cases (hread : parseOpening c = .ok (opening, c')) :
    (∃ id, c.peek = .name "import" ∧ SchemaId.parse c.advance = .ok (id, c') ∧
      opening = .inl (.imported id)) ∨
    (∃ item, c.peek = .name "type" ∧ SchemaItem.parseAlias c.advance = .ok (item, c') ∧
      opening = .inl (.item item)) ∨
    ∃ name key value c₁, c.peek = .name "predicate" ∧
      parseTyped c.advance = .ok ((name, key, value), c₁) ∧
      (opening = .inl (.item (.predicate name key value none)) ∨
        ∃ head, opening = .inr fun q => .item (.predicate name key value (some (head, q)))) := by
  rw [parseOpening, eat_bind] at hread
  split at hread
  · rename_i hpeek
    obtain ⟨id, c₁, hid, hout⟩ := bind_ok_iff.mp hread
    cases hout
    exact .inl ⟨id, hpeek, hid, rfl⟩
  rw [if_neg Bool.false_ne_true, eat_bind] at hread
  split at hread
  · rename_i hpeek
    obtain ⟨item, c₁, hitem, hout⟩ := bind_ok_iff.mp hread
    cases hout
    exact .inr (.inl ⟨item, hpeek, hitem, rfl⟩)
  rw [if_neg Bool.false_ne_true, eat_bind] at hread
  split at hread
  · rename_i hpeek
    obtain ⟨⟨name, key, value⟩, c₁, htyped, hread⟩ := bind_ok_iff.mp hread
    refine .inr (.inr ⟨name, key, value, c₁, hpeek, htyped, ?_⟩)
    dsimp only at hread
    rw [peek_bind] at hread
    split at hread
    · cases hread
      exact .inl rfl
    · obtain ⟨head, c₂, -, hread⟩ := bind_ok_iff.mp hread
      obtain ⟨⟨⟩, c₃, -, hout⟩ := bind_ok_iff.mp hread
      cases hout
      exact .inr ⟨head, rfl⟩
  · cases hread

theorem isDerived_of_parseOpening (hread : parseOpening c = .ok (opening, c')) :
    match opening with
    | .inl e => e.isDerived = false
    | .inr f => ∀ q, (f q).isDerived = true := by
  obtain ⟨id, -, -, rfl⟩ | ⟨item, -, hitem, rfl⟩ | ⟨name, key, value, c₁, -, -, rfl | ⟨head, rfl⟩⟩ :=
    parseOpening_cases hread
  · rfl
  · obtain ⟨name, ty, rfl, -⟩ := parseAlias_ok hitem
    rfl
  · rfl
  · exact fun q => rfl

/-- An entry starts with a keyword and a name; a name that a query could go on with, or an entry
start with, has its type next. -/
theorem parseOpening_head (hread : parseOpening c = .ok (opening, c')) :
    ∃ kw ∈ Query.itemKeywords, ∃ n, c.peek = .name kw ∧ c.advance.peek = .name n ∧
      (Pattern.startsWith (.name n) = true ∨ n ∈ Query.itemKeywords →
        c.advance.advance.peek = .colon ∨ c.advance.advance.peek = .equals) := by
  obtain ⟨id, hpeek, hid, -⟩ | ⟨item, hpeek, hitem, -⟩ |
    ⟨name, key, value, c₁, hpeek, htyped, -⟩ := parseOpening_cases hread
  · obtain ⟨n, hn, hdot⟩ := parseId_ok hid
    refine ⟨_, by decide, n, hpeek, hn, fun hnot => ?_⟩
    have hplain : ∀ kw ∈ "true" :: "false" :: Query.itemKeywords, '.' ∉ kw.toList := by decide
    rw [Pattern.startsWith_name, Bool.or_eq_true, Bool.or_eq_true, decide_eq_true_eq,
      decide_eq_true_eq] at hnot
    obtain ((rfl | rfl) | hvar) | hkw := hnot
    · exact absurd hdot (hplain _ (by simp))
    · exact absurd hdot (hplain _ (by simp))
    · exact absurd hdot (Source.dot_not_mem hvar)
    · exact absurd hdot (hplain n (by simp [hkw]))
  · obtain ⟨n, ty, -, hn, hequals⟩ := parseAlias_ok hitem
    exact ⟨_, by decide, n, hpeek, hn, fun _ => .inr hequals⟩
  · obtain ⟨n, hn, hcolon⟩ := parseTyped_ok htyped
    exact ⟨_, by decide, n, hpeek, hn, fun _ => .inl hcolon⟩

theorem parse_head {e : SchemaEntry} (hread : parse c = .ok (e, c')) :
    ∃ kw ∈ Query.itemKeywords, ∃ n, c.peek = .name kw ∧ c.advance.peek = .name n ∧
      (Pattern.startsWith (.name n) = true ∨ n ∈ Query.itemKeywords →
        c.advance.advance.peek = .colon ∨ c.advance.advance.peek = .equals) := by
  rw [parse_eq] at hread
  obtain ⟨opening, c₁, hopening, -⟩ := bind_ok_iff.mp hread
  exact parseOpening_head hopening

/-- At the name of an entry, and behind it, no entry starts. -/
theorem not_parse_of_name {n : String}
    (hpeek : c.peek = .name n ∧
      (n ∈ Query.itemKeywords → c.advance.peek = .colon ∨ c.advance.peek = .equals) ∨
      c.peek = .colon ∨ c.peek = .equals)
    (r : SchemaEntry × Cursor) : parse c ≠ .ok r := by
  intro hread
  obtain ⟨kw, hkw, m, hkeyword, hname, -⟩ := parse_head hread
  obtain ⟨hpeek, hnext⟩ | hpeek | hpeek := hpeek
  · obtain rfl := Token.name.inj (hpeek.symm.trans hkeyword)
    rcases hnext hkw with h | h <;> cases h.symm.trans hname
  · cases hpeek.symm.trans hkeyword
  · cases hpeek.symm.trans hkeyword

/-- An entry, and a semicolon behind it. -/
def parseTerminated : Parse SchemaEntry := do
  let e ← parse
  discard (Parse.eat .semicolon)
  return e

theorem advances_parseTerminated : Advances parseTerminated :=
  advances_parse.bind fun e => ((steady_eat (by decide)).bind fun b => (Loose.pure _).steady).bind
    fun _ => (Loose.pure _).steady

theorem parseTerminated_ok_iff {e : SchemaEntry} : parseTerminated c = .ok (e, c') ↔
    ∃ c₁, parse c = .ok (e, c₁) ∧ c' = if c₁.peek = .semicolon then c₁.advance else c₁ := by
  rw [parseTerminated, bind_ok_iff]
  constructor
  · rintro ⟨e, c₁, he, hout⟩
    rw [discard_eat_bind] at hout
    cases hout
    exact ⟨c₁, he, rfl⟩
  · rintro ⟨c₁, he, rfl⟩
    refine ⟨e, c₁, he, ?_⟩
    rw [discard_eat_bind]
    rfl

/-- Whether a semicolon can stand behind an entry with these tokens, in front of the next token. -/
def admits (e : SchemaEntry) (ts : List Token) (next : Token) : Bool :=
  !e.isDerived || (next = .rightBrace && ts.getLast? ≠ some .bar)

variable {e : SchemaEntry} {ts : List Token} {d : Cursor}

/-- An entry in front of a semicolon: it is read up to there, or the parser of its query is left
with what follows. -/
theorem parse_before_semicolon (hends : c.Ends) (hread : parse c = .ok (e, c'))
    (hpasses : c.Passes ts c') (hd : d.tokens = ts ++ .semicolon :: c'.tokens) :
    ∃ d', d'.Ends ∧ d'.peek = .semicolon ∧ d'.advance.tokens = c'.tokens ∧
      ((e.isDerived = false ∧ parse d = .ok (e, d')) ∨
        ∃ (f : Query → SchemaEntry) (q : Query) (us : List Token) (d₁ : Cursor), e = f q ∧
          e.isDerived = true ∧ q.Spelled us ∧ us.getLast? = ts.getLast? ∧ d₁.Passes us d' ∧
          ∀ r, parse d = .ok r ↔ ∃ q' d'', Query.parse d₁ = .ok (q', d'') ∧ r = (f q', d'')) := by
  obtain ⟨d', hd', htokens⟩ := exists_passes hd (List.cons_ne_nil _ _)
  have hends' : d'.Ends := ends_of_tokens [.semicolon] (hends.of_passes hpasses) htokens
  have hsemi := peek_of_tokens htokens
  refine ⟨d', hends', hsemi, advance_of_tokens htokens (List.cons_ne_nil _ _), ?_⟩
  rw [parse_eq] at hread
  obtain ⟨opening, c₁, hopening, hread⟩ := bind_ok_iff.mp hread
  have hkind := isDerived_of_parseOpening hopening
  cases opening with
  | inl e =>
      cases hread
      obtain ⟨ts', hts', hreads⟩ := before_parseOpening c _ _ hends hopening
      obtain rfl := passes_unique hts' hpasses
      rw [parse_eq]
      exact .inl ⟨hkind, bind_ok_iff.mpr ⟨_, d', hreads d d' hd' hsemi, rfl⟩⟩
  | inr f =>
      obtain ⟨q, c₂, hq, hout⟩ := bind_ok_iff.mp hread
      cases hout
      obtain ⟨front, hfront, hreads⟩ := advances_parseOpening.steady c _ c₁ hends hopening
      obtain ⟨us, hspelled, hus⟩ := Query.parse_sound c₁ q c' (hends.of_passes hfront) hq
      obtain rfl := passes_unique hpasses (hfront.trans hus)
      obtain ⟨d₁, hd₁, hus'⟩ := hd'.split
      -- the query starts with the same token, so what stands before it is read again
      have hfirst : d₁.peek = c₁.peek := by
        rw [hus.peek, hus'.peek]
        cases us with
        | nil => exact absurd rfl hspelled.ne_nil
        | cons u us => rfl
      have hopening' := hreads d d₁ hd₁ hfirst
      refine .inr ⟨f, q, us, d₁, rfl, hkind q, hspelled,
        (List.getLast?_append_of_ne_nil _ hspelled.ne_nil).symm, hus', fun r => ?_⟩
      rw [parse_eq]
      constructor
      · intro hr
        obtain ⟨e, d''⟩ := r
        obtain ⟨opening', d₂, ho, hr⟩ := bind_ok_iff.mp hr
        cases hopening'.symm.trans ho
        obtain ⟨q', d₃, hq', hout⟩ := bind_ok_iff.mp hr
        cases hout
        exact ⟨q', _, hq', rfl⟩
      · rintro ⟨q', d₂, hq', rfl⟩
        exact bind_ok_iff.mpr ⟨_, d₁, hopening', bind_ok_iff.mpr ⟨q', d₂, hq', rfl⟩⟩

/-- A semicolon behind an entry that admits one is taken, and nothing changes. -/
theorem terminated_semicolon (hends : c.Ends) (hread : parse c = .ok (e, c'))
    (hpasses : c.Passes ts c') (hlast : ts.getLast? ≠ some .semicolon)
    (hd : d.tokens = ts ++ .semicolon :: c'.tokens) (hadmits : e.admits ts c'.peek = true) :
    ∃ d', parseTerminated d = .ok (e, d') ∧ d'.tokens = c'.tokens := by
  obtain ⟨d', hends', hsemi, hbehind,
    ⟨-, hd'⟩ | ⟨f, q, us, d₁, rfl, hderived, hspelled, hus, hd', hparse⟩⟩ :=
    parse_before_semicolon hends hread hpasses hd
  · refine ⟨d'.advance, parseTerminated_ok_iff.mpr ⟨d', hd', ?_⟩, hbehind⟩
    rw [if_pos hsemi]
  · rw [admits, hderived, Bool.not_true, Bool.false_or, Bool.and_eq_true, decide_eq_true_eq,
      decide_eq_true_eq] at hadmits
    obtain ⟨hbrace, hbar⟩ := hadmits
    have hbrace' := (peek_congr hbehind).trans hbrace
    have hq := hspelled.semicolon_brace (Query.closed_of_getLast? (hus ▸ hlast) (hus ▸ hbar)) hd'
      hends' hsemi hbrace'
    refine ⟨d'.advance, parseTerminated_ok_iff.mpr ⟨_, (hparse _).mpr ⟨q, _, hq, rfl⟩, ?_⟩, hbehind⟩
    rw [if_neg (by rw [hbrace']; decide)]

/-- A semicolon behind one that does not is taken for a part of the query: the query is refused, or
it ends where no entry starts. -/
theorem terminated_stuck (hends : c.Ends) (hread : parse c = .ok (e, c'))
    (hpasses : c.Passes ts c') (hlast : ts.getLast? ≠ some .semicolon)
    (hnext : c'.peek = .rightBrace ∨ ∃ r, parse c' = .ok r)
    (hd : d.tokens = ts ++ .semicolon :: c'.tokens) (hadmits : e.admits ts c'.peek = false)
    {e' : SchemaEntry} {d'' : Cursor} (hread' : parseTerminated d = .ok (e', d'')) :
    d''.peek ≠ .rightBrace ∧ ∀ r, parse d'' ≠ .ok r := by
  obtain ⟨x, hx, hout⟩ := parseTerminated_ok_iff.mp hread'
  obtain ⟨d', hends', hsemi, hbehind,
    ⟨hplain, -⟩ | ⟨f, q, us, d₁, rfl, hderived, hspelled, hus, hd', hparse⟩⟩ :=
    parse_before_semicolon hends hread hpasses hd
  · rw [admits, hplain] at hadmits
    cases hadmits
  · rw [admits, hderived, Bool.not_true, Bool.false_or, Bool.and_eq_false_iff,
      decide_eq_false_iff_not, decide_eq_false_iff_not] at hadmits
    obtain ⟨q', x', hq', hx'⟩ := (hparse _).mp hx
    cases hx'
    have hbar : ts.getLast? ≠ some .bar := fun hbar =>
      hspelled.stuck (fun hclosed => by cases hclosed .bar (hus.trans hbar)) hd' hends' hsemi _ hq'
    obtain ⟨⟨e₂, c₂⟩, hnext⟩ := hnext.resolve_left (hadmits.resolve_right fun h => h hbar)
    obtain ⟨kw, hkw, n, hkeyword, hname, hafter⟩ := parse_head hnext
    have h₁ := hbehind
    have h₂ := advance_tokens_congr h₁
    have h₃ := advance_tokens_congr h₂
    have hplace : x.peek = .name n ∧
        (n ∈ Query.itemKeywords → x.advance.peek = .colon ∨ x.advance.peek = .equals) ∨
        x.peek = .colon ∨ x.peek = .equals := by
      obtain rfl | ⟨-, hx⟩ := hspelled.semicolon_keyword
        (Query.closed_of_getLast? (hus ▸ hlast) (hus ▸ hbar)) hd' hends' hsemi hkw
        ((peek_congr h₁).trans hkeyword) ((peek_congr h₂).trans hname)
        (fun ht => by rw [peek_congr h₃]; exact hafter (.inl ht)) hq'
      · exact .inl ⟨(peek_congr h₂).trans hname, fun hn => by
          rw [peek_congr h₃]
          exact hafter (.inr hn)⟩
      · exact .inr hx
    have hstop : x.peek ≠ .semicolon ∧ x.peek ≠ .rightBrace := by
      obtain ⟨h, -⟩ | h | h := hplace <;> rw [h] <;> simp
    rw [if_neg hstop.1] at hout
    exact hout ▸ ⟨hstop.2, not_parse_of_name hplace⟩

end SchemaEntry

end Factbase
