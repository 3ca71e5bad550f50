import Factbase.Proofs.Query.Complaints
import Factbase.Proofs.Schema.Semicolons

/-!
# What schemas are refused for

The parsers of types, entries and declarations complain about the first
token that they cannot take, as those of queries do. A type takes its first
token before it looks at it. Since a name and a colon call for a type, the
limit of nesting can be reached where nothing but a type could follow; then
what stands before the complaint cannot be gone on with, but only because
it is nested too deep.
-/

namespace Factbase

open Parse Cursor

/-! ## Types -/

namespace TypeExpr

variable {depth : Nat} {inner : Parse TypeExpr} {separator : Token} {follow : Token → Prop}

theorem opens_parseWithin (depth : Nat) :
    Opens True (· = .name "nat") (fun _ => True) (parseWithin depth) := by
  cases depth with
  | zero => exact ⟨[.name "nat"], by simp, .inr ⟨trivial, by simp, fun _ _ _ => ⟨_, rfl⟩⟩, rfl⟩
  | succ depth =>
      exact (Opens.pure TypeExpr.nat).behind (by simp) fun d hd => by
        rw [parseWithin, parsePrimary, take_bind, hd]
        rfl

theorem mends_parseDefault : Mends True follow parseDefault := by
  refine Blames.mends (.take fun t => ?_)
    ((Opens.pure (Literal.nat 0)).behind (by simp) fun d (hd : d.peek = .nat 0) => ?_)
  · cases t with
    | nat n => exact .inr ⟨by simp, (silent_pure _).complains⟩
    | string s => exact .inr ⟨by simp, (silent_pure _).complains⟩
    | name name =>
        dsimp only
        split
        · exact .inr ⟨by simp, (silent_pure _).complains⟩
        split
        · exact .inr ⟨by simp, (silent_pure _).complains⟩
        · exact .inl ⟨_, rfl, rfl, rfl⟩
    | _ => exact .inl ⟨_, rfl, rfl, rfl⟩
  · rw [parseDefault, take_bind, hd]

/-- The default of a field, where one comes. -/
def parseEquals (name : String) (ty : TypeExpr) : Parse FieldExpr := do
  if ← Parse.eat .equals then return ⟨name, ty, some (← parseDefault)⟩
  return ⟨name, ty, none⟩

/-- The type of a field, and its default. -/
def parseFieldType (inner : Parse TypeExpr) (name : String) : Parse FieldExpr :=
  inner >>= parseEquals name

theorem blames_parseEquals (name : String) (ty : TypeExpr) : Blames True follow (parseEquals name ty) :=
  .eat (by decide) (mends_parseDefault.map _) (silent_pure _).complains

theorem opens_parseEquals (name : String) (ty : TypeExpr) :
    Opens True (fun _ => True) (· ≠ .equals) (parseEquals name ty) :=
  Opens.mono (.eat_false (.pure _) fun _ => id) (fun _ _ => trivial) fun _ => id

theorem opens_parseFieldType (hopens : Opens True (· = .name "nat") (fun _ => True) inner)
    (name : String) : Opens True (· = .name "nat") (· ≠ .equals) (parseFieldType inner name) :=
  hopens.bind fun ty => opens_parseEquals name ty

theorem mends_parseField (hinner : Solid inner) (hmends : Mends True (fun _ => True) inner)
    (hopens : Opens True (· = .name "nat") (fun _ => True) inner) :
    Mends True (· ≠ .equals) (parseField inner) := by
  have htype (name : String) : Blames True (· ≠ .equals) (parseFieldType inner name) :=
    hmends.blames.bind (hinner.firm _) (blames_parseEquals name) (opens_parseEquals name)
  exact .name (fun name => .expect (by decide) (htype name) (opens_parseFieldType hopens name)) ""
    (.expect_bind (by decide) (opens_parseFieldType hopens ""))

theorem mends_parseAfter (hmends : Mends True (· ≠ .equals) (parseField inner)) :
    Mends True (· = .rightBrace) (parseAfter inner) :=
  .unless (fun _ => parseAfter_brace) (fun _ => parseAfter_field) (fun _ => id)
    ((hmends.blames.mono fun _ h => ne_of_eq_of_ne h (by decide)).map _)

theorem mendsLoop_parseMoreFields (hinner : Solid inner)
    (hmends : Mends True (· ≠ .equals) (parseField inner)) (hend : separator ≠ .endOfInput)
    (hbrace : separator ≠ .rightBrace) :
    MendsLoop True (· = .rightBrace) (parseMoreFields inner separator) :=
  funext parseMoreFields_eq_turns ▸ mendsLoop_separated hend (fun _ h => ne_of_eq_of_ne h hbrace.symm)
    (firm_parseAfter hinner) (mends_parseAfter hmends)

theorem mends_name : Mends True follow (some <$> Parse.expectName) :=
  (Blames.name fun _ => (silent_pure _).complains).mends (.name "" (.pure (some "")))

theorem mendsLoop_parseMoreNames : MendsLoop True (· = .rightBrace) parseMoreNames :=
  funext parseMoreNames_eq_turns ▸
    mendsLoop_separated (by decide) (fun _ h => ne_of_eq_of_ne h (by decide)) firm_name mends_name

section Closed

variable {α β : Type} {go : Nat → Parse α}

/-- The closing brace behind a loop. -/
def parseClosed (go : Nat → Parse α) (g : α → β) : Parse β := do
  let xs ← Parse.remaining >>= go
  Parse.expect .rightBrace
  return g xs

theorem opens_brace (x : β) : Opens True (· = .rightBrace) follow (do
    Parse.expect .rightBrace
    return x) :=
  (Opens.expect (by decide)).map fun _ => x

theorem mends_parseClosed (hfirm : FirmLoop (· = .rightBrace) go)
    (hmends : MendsLoop True (· = .rightBrace) go) (g : α → β) :
    Mends True follow (parseClosed go g) :=
  hmends.mends.bind hfirm.firm (fun xs => (Blames.expect (by decide)).map fun _ => g xs)
    fun xs => opens_brace (g xs)

theorem opens_parseClosed (hnil : ReachesLoop True go [] (· = .rightBrace)) (g : α → β) :
    Opens True (· = .rightBrace) follow (parseClosed go g) := by
  have hgo : Opens True (· = .rightBrace) (· = .rightBrace) (Parse.remaining >>= go) :=
    ⟨[], by simp, hnil.reaches, fun _ => id⟩
  exact hgo.bind fun xs => opens_brace (g xs)

end Closed

/-! ### All types -/

/-- The fields of a record or of a sum. -/
def parseFields (inner : Parse TypeExpr) : Parse TypeExpr := do
  let first ← parseField inner
  let isSum := (← Parse.peek) = .bar
  parseClosed (parseMoreFields inner (if isSum then .bar else .comma)) fun rest =>
    if isSum then .sum (first :: rest) else .record (first :: rest)

/-- The names of an enumeration. -/
def parseNames : Parse TypeExpr := do
  Parse.expect .leftBrace
  let first ← Parse.expectName
  parseClosed parseMoreNames fun rest => .enum (first :: rest)

theorem opens_moreFields (hbrace : separator ≠ .rightBrace) :
    ReachesLoop True (parseMoreFields inner separator) [] (· = .rightBrace) :=
  funext parseMoreFields_eq_turns ▸ reachesLoop_nil fun _ h => separated_other (h ▸ hbrace.symm)

theorem opens_moreNames : ReachesLoop True parseMoreNames [] (· = .rightBrace) :=
  funext parseMoreNames_eq_turns ▸ reachesLoop_nil fun _ h => separated_other (h ▸ by decide)

theorem blames_parseFields (hinner : Solid inner)
    (hmends : Mends True (· ≠ .equals) (parseField inner)) :
    Blames True follow (parseFields inner) := by
  refine hmends.blames.bind (firm_parseField hinner) (fun first => .peek fun t => ?_) fun first => ?_
  · refine blames_iff_at.mp (mends_parseClosed (firmLoop_parseMoreFields hinner ?_ ?_)
      (mendsLoop_parseMoreFields hinner hmends ?_ ?_) _).blames t
    all_goals split <;> decide
  · have hopens : Opens True (· = .rightBrace) follow (parseClosed (parseMoreFields inner .comma)
        fun rest => TypeExpr.record (first :: rest)) := opens_parseClosed (opens_moreFields (by decide)) _
    refine Opens.mono (hopens.congr fun d hd => ?_) (fun _ h => ne_of_eq_of_ne h (by decide)) fun _ => id
    rw [peek_bind, hd]
    rfl

theorem mends_parseNames : Mends True follow parseNames := by
  have hclosed (first : String) : Mends True follow
      (parseClosed parseMoreNames fun rest => TypeExpr.enum (first :: rest)) :=
    mends_parseClosed firmLoop_parseMoreNames mendsLoop_parseMoreNames _
  have hopens (first : String) : Opens True (· = .rightBrace) follow
      (parseClosed parseMoreNames fun rest => TypeExpr.enum (first :: rest)) :=
    opens_parseClosed opens_moreNames _
  exact .expect (by decide) (Blames.name hclosed) (.name "" (hopens ""))

theorem blames_parsePrimary (hinner : Solid inner) (hmends : Mends True (fun _ => True) inner)
    (hopens : Opens True (· = .name "nat") (fun _ => True) inner) :
    Blames True (fun _ => True) (parsePrimary inner) := by
  have hfields : Blames True (fun _ => True) (parseFields inner) :=
    blames_parseFields hinner (mends_parseField hinner hmends hopens)
  have hnames : Mends True (fun _ => True) parseNames := mends_parseNames
  simp only [parseFields, parseNames, parseClosed, bind_assoc] at hfields hnames
  refine .take fun t => ?_
  split
  · refine .inr ⟨by decide, hmends.bind (hinner.firm fun _ => True) (fun elem =>
      (Blames.expect (by decide)).map fun _ => elem.array) fun elem => ?_⟩
    have hclose : Opens True (· = .rightBracket) (fun _ => True) (do
        Parse.expect .rightBracket
        return elem.array) := (Opens.expect (by decide)).map fun _ => elem.array
    exact hclose.mono (fun _ _ => trivial) fun _ => id
  · exact .inr ⟨by decide, .eat (by decide) (silent_pure _).complains (.pure _) hfields⟩
  · exact .inr ⟨by simp, (silent_pure _).complains⟩
  · exact .inr ⟨by simp, (silent_pure _).complains⟩
  · exact .inr ⟨by simp, (silent_pure _).complains⟩
  · exact .inr ⟨by simp, (silent_pure _).complains⟩
  · exact .inr ⟨by simp, hmends.map _⟩
  · exact .inr ⟨by simp, hnames⟩
  · exact .inr ⟨by simp, (silent_pure _).complains⟩
  · exact .inl ⟨_, rfl, rfl, rfl⟩

theorem mends_parseWithin (depth : Nat) : Mends True (fun _ => True) (parseWithin depth) := by
  induction depth with
  | zero => exact (silent_fail rfl).complains
  | succ depth ih =>
      exact Blames.mends (blames_parsePrimary (solid_parseWithin depth) ih (opens_parseWithin depth))
        (opens_parseWithin (depth + 1))

theorem mends_parse : Mends True follow TypeExpr.parse :=
  (mends_parseWithin maxNesting).mono fun _ _ => trivial

theorem opens_parse : Opens True (· = .name "nat") follow TypeExpr.parse :=
  (opens_parseWithin maxNesting).mono (fun _ => id) fun _ _ => trivial

end TypeExpr

/-! ## Entries -/

variable {follow : Token → Prop}

theorem SchemaId.opens_parse : Opens True (· = .name "a.1") follow SchemaId.parse :=
  .name "a.1" ((Opens.pure (SchemaId.mk "a" 1)).congr fun d (_ : follow d.peek) => rfl)

theorem SchemaId.mends_parse : Mends True follow SchemaId.parse := by
  refine Blames.mends (Blames.name fun text => ?_) opens_parse
  split
  · exact (silent_pure _).complains
  · exact (silent_fail rfl).complains

namespace SchemaEntry

/-- The value type of a predicate, where one comes. -/
def parseValue (name : String) (key : TypeExpr) : Parse (String × TypeExpr × Option TypeExpr) := do
  let value ← if ← Parse.eat .arrow then some <$> TypeExpr.parse else pure none
  return (name, key, value)

theorem mends_parseTyped : Mends True (· ≠ .arrow) parseTyped := by
  have hvalue (name : String) (key : TypeExpr) : Blames True (· ≠ .arrow) (parseValue name key) :=
    .eat (by decide) ((TypeExpr.mends_parse.map some).map _) (silent_pure _).complains
  have hopens (name : String) (key : TypeExpr) :
      Opens True (fun _ => True) (· ≠ .arrow) (parseValue name key) :=
    Opens.mono (.eat_false (.pure _) fun _ => id) (fun _ _ => trivial) fun _ => id
  have hkey (name : String) : Blames True (· ≠ .arrow) (TypeExpr.parse >>= parseValue name) :=
    TypeExpr.mends_parse.blames.bind (TypeExpr.solid_parse.firm _) (hvalue name) (hopens name)
  have hopens (name : String) :
      Opens True (· = .name "nat") (· ≠ .arrow) (TypeExpr.parse >>= parseValue name) :=
    TypeExpr.opens_parse.bind (hopens name)
  refine .name (fun name => ?_) "" (Opens.congr (.expect_bind (by decide) (hopens "")) fun _ _ => rfl)
  split
  · exact Silent.complains fun c e herror => by cases herror; rfl
  · exact .expect (by decide) (hkey name) (hopens name)

/-- How a derived predicate is derived. -/
def parseDerivation (name : String) (key : TypeExpr) (value : Option TypeExpr) : Parse SchemaItem := do
  let head ← Pattern.parse
  Parse.expectKeyword "where"
  return .predicate name key value (some (head, ← Query.parse))

/-- What comes after the types of a predicate. -/
def parseBody (typed : String × TypeExpr × Option TypeExpr) : Parse SchemaItem := do
  if SchemaItem.endsBefore (← Parse.peek) then return .predicate typed.1 typed.2.1 typed.2.2 none
  parseDerivation typed.1 typed.2.1 typed.2.2

variable {typed : String × TypeExpr × Option TypeExpr} {c : Cursor}

theorem parseBody_ends (h : SchemaItem.endsBefore c.peek = true) :
    parseBody typed c = .ok (.predicate typed.1 typed.2.1 typed.2.2 none, c) := by
  rw [parseBody, peek_bind, if_pos h]
  rfl

theorem parseBody_derivation (h : ¬ SchemaItem.endsBefore c.peek = true) :
    parseBody typed c = parseDerivation typed.1 typed.2.1 typed.2.2 c := by
  rw [parseBody, peek_bind, if_neg h]

theorem parsePredicate_eq_body : SchemaItem.parsePredicate = parseTyped >>= parseBody :=
  parsePredicate_eq

theorem brace_ends {t : Token} (h : t = .rightBrace) : SchemaItem.endsBefore t = true := h ▸ rfl

theorem brace_closes {t : Token} (h : t = .rightBrace) : Query.Closes t := .inr h

variable {name : String} {key : TypeExpr} {value : Option TypeExpr}

theorem firm_parseDerivation : Firm (· = .rightBrace) (parseDerivation name key value) :=
  (Pattern.firm_parse.mono fun _ h => ne_of_eq_of_ne h (by decide)).bind fun _ =>
    ((Solid.expectKeyword _).firm _).bind fun _ => (Query.firm_parse.mono fun _ => brace_closes).bind
      fun _ => (Loose.pure _).firm _

theorem advances_parseDerivation : Advances (parseDerivation name key value) :=
  (Pattern.advances_parseWithin maxNesting).bind fun _ => (Solid.expectKeyword _).steady.bind fun _ =>
    Query.steady_parse.bind fun _ => (Loose.pure _).steady

theorem blames_parseDerivation : Blames True (· = .rightBrace) (parseDerivation name key value) := by
  have hbody (head : Pattern) : Blames True (· = .rightBrace) (do
      return SchemaItem.predicate name key value (some (head, ← Query.parse))) :=
    (Query.mends_parse.blames.lift.mono fun _ => brace_closes).map _
  have hopens (head : Pattern) : Opens True (fun _ => True) (· = .rightBrace) (do
      return SchemaItem.predicate name key value (some (head, ← Query.parse))) :=
    (Query.opens_parse.lift.mono (fun _ _ => trivial) fun _ => brace_closes).map _
  refine Pattern.mends_parse.blames.lift.bind Pattern.firm_parse (fun head => ?_) fun head => ?_
  · exact (Blames.expectKeyword "where").bind ((Solid.expectKeyword _).firm _) (fun _ => hbody head)
      fun _ => hopens head
  · exact ((Opens.expectKeyword "where").bind fun _ => hopens head).mono (fun _ h => h ▸ by simp)
      fun _ => id

theorem firm_parsePredicate : Firm (· = .rightBrace) SchemaItem.parsePredicate :=
  parsePredicate_eq_body ▸ (firm_parseTyped.mono fun _ h => ne_of_eq_of_ne h (by decide)).bind fun _ =>
    .unless (fun _ => parseBody_ends) (fun _ => parseBody_derivation) (fun _ => brace_ends)
      firm_parseDerivation advances_parseDerivation

theorem mends_parsePredicate : Mends True (· = .rightBrace) SchemaItem.parsePredicate :=
  parsePredicate_eq_body ▸ mends_parseTyped.bind firm_parseTyped
    (fun _ => (Mends.unless (fun _ => parseBody_ends) (fun _ => parseBody_derivation)
      (fun _ => brace_ends) blames_parseDerivation).blames)
    fun _ => (Opens.unless (fun _ => parseBody_ends) fun _ => brace_ends).mono
      (fun _ h => ne_of_eq_of_ne h (by decide)) fun _ => id

theorem mends_parseAlias : Mends True follow SchemaItem.parseAlias := by
  have hopens (name : String) : Opens True (· = .name "nat") follow (do
      return SchemaItem.alias name (← TypeExpr.parse)) := TypeExpr.opens_parse.map _
  exact .name (fun name => .expect (by decide) (TypeExpr.mends_parse.blames.map _) (hopens name)) ""
    (.expect_bind (by decide) (hopens ""))

theorem firm_parse : Firm (· = .rightBrace) SchemaEntry.parse := by
  have hother (keyword : String) (u : Token) : u = .rightBrace → u ≠ .name keyword :=
    fun h => ne_of_eq_of_ne h (by simp)
  refine .eat (by simp) (hother _) ?_ (Firm.bind (.eat (by simp) (hother _) ?_
    (.eat (by simp) (hother _) ?_ ?_)) fun _ => (Loose.pure _).firm _)
  · exact (SchemaId.solid_parse.firm _).bind fun _ => (Loose.pure _).firm _
  · exact SchemaItem.solid_parseAlias.firm _
  · exact firm_parsePredicate
  · exact (Solid.failHere _).firm _

theorem blames_parse : Blames True (· = .rightBrace) SchemaEntry.parse :=
  .eat (by simp) (SchemaId.mends_parse.map _) (Complains.map (Blames.eat (by simp) mends_parseAlias
    (.eat (by simp) mends_parsePredicate (.failHere (fun _ => rfl) fun _ => rfl))) _)

/-- The semicolon behind an entry. -/
def parseEnd (e : SchemaEntry) : Parse SchemaEntry := do
  discard (Parse.eat .semicolon)
  return e

theorem parseEnd_brace {e : SchemaEntry} (h : c.peek = .rightBrace) : parseEnd e c = .ok (e, c) := by
  rw [parseEnd, discard_eat_bind, h]
  rfl

theorem firm_parseEnd (e : SchemaEntry) : Firm (· = .rightBrace) (parseEnd e) :=
  Firm.bind (Firm.eat (f := fun _ => pure ()) (by decide) (fun _ h => ne_of_eq_of_ne h (by decide))
    ((Loose.pure ()).firm _) ((Loose.pure ()).firm _)) fun _ => (Loose.pure e).firm _

theorem firm_parseTerminated : Firm (· = .rightBrace) parseTerminated := firm_parse.bind firm_parseEnd

theorem blames_parseTerminated : Blames True (· = .rightBrace) parseTerminated :=
  blames_parse.bind firm_parse (fun e => Silent.complains fun c _ herror => by
      rw [discard_eat_bind] at herror
      cases herror)
    fun e => (Opens.pure e).congr fun _ h => parseEnd_brace h

theorem parseTerminated_end (h : c.peek = .endOfInput) :
    parseTerminated c = .error ⟨c.here.position, .expectedItem .endOfInput⟩ := by
  have hother (keyword : String) : c.peek ≠ .name keyword := h ▸ by simp
  have hitem : SchemaItem.parse c = .error ⟨c.here.position, .expectedItem .endOfInput⟩ := by
    rw [SchemaItem.parse, eat_bind, if_neg (hother _), if_neg Bool.false_ne_true, eat_bind,
      if_neg (hother _), if_neg Bool.false_ne_true, Parse.failHere, h]
  refine Outcome.stateT_bind_error_iff.mpr (.inl ?_)
  rw [parse, eat_bind, if_neg (hother _), if_neg Bool.false_ne_true]
  exact Outcome.stateT_bind_error_iff.mpr (.inl hitem)

end SchemaEntry

/-! ## Declarations -/

namespace SchemaDecl

variable {c : Cursor} {ts us : List Token} {follow' : Token → Prop}

theorem reachesLoop_brace : ReachesLoop True parseItems [.rightBrace] follow := by
  refine .inl ⟨([], []), fun m hm d d' hd _ => ?_⟩
  obtain ⟨hpeek, rfl⟩ := hd.one
  cases m with
  | zero => cases hm
  | succ m =>
      rw [parseItems_succ, eat_bind, if_pos hpeek]
      rfl

/-- An entry in front of others. -/
theorem reachesLoop_entry {e : SchemaEntry} (he : Reads SchemaEntry.parseTerminated ts follow' e)
    (hne : ts ≠ []) (hother : ∀ d d' : Cursor, d.Passes ts d' → d.peek ≠ .rightBrace)
    (h : ReachesLoop True parseItems us follow) (hnext : Starts follow' follow us) :
    ReachesLoop True parseItems (ts ++ us) follow := by
  have hpos := List.length_pos_of_ne_nil hne
  refine h.imp (fun ⟨r, hr⟩ => ⟨e.onto r, fun m hm d d' hd hclose => ?_⟩) fun ⟨hdeep, hr⟩ =>
    ⟨hdeep, fun m hm => ⟨by simp [hne], fun d d' hd => ?_⟩⟩
  all_goals
    obtain ⟨d₁, hdts, -⟩ := hd.split
    rw [List.length_append] at hm
    obtain ⟨m, rfl⟩ := Nat.exists_eq_add_of_lt (show 0 < m by omega)
    rw [Nat.zero_add, parseItems_entry (hother d d₁ hdts)]
  · have hmore : Reads (do let r ← parseItems m; return e.onto r) us follow (e.onto r) :=
      fun d d' hd hnext => bind_ok_iff.mpr ⟨r, d', hr m (by omega) d d' hd hnext, rfl⟩
    exact he.bind hmore (fun _ => hnext.head) d d' hd hclose
  · exact (he.bind_tooDeep ((hr m (by omega)).bind _) hnext).2 d d' hd

/-- An entry that is nested too deep. -/
theorem tooDeep_entry (h : TooDeep SchemaEntry.parseTerminated ts)
    (hother : ∀ d d' : Cursor, d.Passes ts d' → d.peek ≠ .rightBrace) (m : Nat) (hm : ts.length ≤ m) :
    TooDeep (parseItems m) ts := by
  have hpos := List.length_pos_of_ne_nil h.1
  refine ⟨h.1, fun d d' hd => ?_⟩
  cases m with
  | zero => omega
  | succ m =>
      rw [parseItems_entry (hother d d' hd)]
      exact (h.bind _).2 d d' hd

/-- A complaint of the entry that comes first. -/
theorem complains_firstEntry {e : SourceError} {t : Token} (hends : c.Ends)
    (hother : c.peek ≠ .rightBrace) (herror : SchemaEntry.parseTerminated c = .error e)
    (ht : e.fault.token? = some t) : LoopComplains True follow parseItems c e.fault t := by
  obtain ⟨ts, c', hpasses, hpeek, hrefuses, hmends⟩ :=
    SchemaEntry.blames_parseTerminated c e t hends herror ht
  refine ⟨ts, c', hpasses, hpeek, fun m d d' hm hdends hd halike => ?_, ?_⟩
  · have hentry := hrefuses d d' hdends hd halike
    cases m with
    | zero =>
        have hend := peek_eq_of_length hdends hm
        have hsame := Except.error.inj (hentry.symm.trans (SchemaEntry.parseTerminated_end hend))
        rw [hsame, parseItems, Parse.failHere, hend]
    | succ m =>
        have hsame : d.peek = c.peek := by rw [hd.peek, halike.peek, ← hpasses.peek]
        rw [parseItems_entry (hsame ▸ hother)]
        exact Outcome.stateT_bind_error_iff.mpr (.inl hentry)
  · by_cases hne : ts = []
    · rw [hne]
      exact ⟨[.rightBrace], by simp, reachesLoop_brace⟩
    obtain ⟨us, hin, hus⟩ := hmends hne
    have hfirst (d d' : Cursor) (hd : d.Passes (ts ++ us) d') : d.peek ≠ .rightBrace := by
      obtain ⟨d₁, hdts, -⟩ := hd.split
      exact peek_of_passes hpasses hne hdts.tokens_eq ▸ hother
    obtain ⟨x, hx⟩ | ⟨-, hdeep⟩ := hus
    · refine ⟨us ++ [Token.rightBrace], by simp [hin], List.append_assoc .. ▸ ?_⟩
      exact reachesLoop_entry hx (by simp [hne]) hfirst reachesLoop_brace rfl
    · exact ⟨us, hin, .inr ⟨trivial, tooDeep_entry hdeep hfirst⟩⟩

theorem mendsLoop_parseItems : MendsLoop True follow parseItems := by
  intro n
  induction n with
  | zero =>
      intro c e t hends hn herror ht
      have hend := peek_eq_of_length hends hn
      refine complains_firstEntry hends (hend ▸ by decide) ?_ ht
      rw [parseItems, Parse.failHere, hend] at herror
      rw [SchemaEntry.parseTerminated_end hend, ← Except.error.inj herror]
  | succ n ih =>
      intro c e t hends hn herror ht
      by_cases hbrace : c.peek = .rightBrace
      · rw [parseItems_succ, eat_bind, if_pos hbrace] at herror
        cases herror
      rw [parseItems_entry hbrace] at herror
      obtain herror | ⟨entry, c₁, hentry, herror⟩ := Outcome.stateT_bind_error_iff.mp herror
      · exact complains_firstEntry hends hbrace herror ht
      obtain herror | ⟨r, c₂, -, herror⟩ := Outcome.stateT_bind_error_iff.mp herror
      · obtain ⟨ts, hts, hreads⟩ := SchemaEntry.firm_parseTerminated c entry c₁ hends hentry
        obtain ⟨ts', hne, hts', -⟩ := SchemaEntry.advances_parseTerminated c entry c₁ hends hentry
        obtain rfl := passes_unique hts hts'
        have hlength := hts.length
        have hpos := List.length_pos_of_ne_nil hne
        have hfirst (d d' : Cursor) (hd : d.Passes ts d') : d.peek ≠ .rightBrace :=
          peek_of_passes hts hne hd.tokens_eq ▸ hbrace
        refine (ih c₁ e t (hends.of_passes hts) (by omega) herror ht).cons hts hne
          (fun m d d₁ e hd hpeek hrest => ?_) ⟨[.rightBrace], by simp, ?_⟩ fun us hus => ?_
        · rw [parseItems_entry (hfirst d d₁ hd)]
          exact Outcome.stateT_bind_error_iff.mpr (.inr ⟨entry, d₁, hreads d d₁ hd (.inl hpeek),
            Outcome.stateT_bind_error_iff.mpr (.inl hrest)⟩)
        · exact reachesLoop_entry hreads hne hfirst reachesLoop_brace (.inr rfl)
        · exact reachesLoop_entry hreads hne hfirst hus (.inl rfl)
      · cases herror

theorem mendsLoop_parseInherits : MendsLoop True (· ≠ .comma) parseInherits := by
  have hnext : Mends True (· ≠ .comma) (some <$> SchemaId.parse) := SchemaId.mends_parse.map some
  rw [funext parseInherits_eq_turns]
  exact .after (SchemaId.solid_parse.firm _) SchemaId.mends_parse
    (mendsLoop_separated (by decide) (fun _ h => h)
      ((SchemaId.solid_parse.bind fun id => .pure _).firm _) hnext)
    (reads_turns_nil fun _ => separated_other)

/-- The brace behind the schemas that a schema inherits from. -/
def parseOpen (id : SchemaId) (inherits : List SchemaId) : Parse (SchemaId × List SchemaId) := do
  Parse.expect .leftBrace
  return (id, inherits)

theorem mends_parseOpen (id : SchemaId) (inherits : List SchemaId) :
    Mends True follow (parseOpen id inherits) :=
  .expect (by decide) (silent_pure _).complains (.pure _)

theorem opens_parseOpen (id : SchemaId) (inherits : List SchemaId) :
    Opens True (· = .leftBrace) follow (parseOpen id inherits) := .expect_bind (by decide) (.pure _)

/-- What comes after the name of a schema. -/
def parseInherited (id : SchemaId) : Parse (SchemaId × List SchemaId) := do
  if ← Parse.eat .colon then
    let inherits ← Parse.remaining >>= parseInherits
    parseOpen id inherits
  else parseOpen id []

theorem blames_parseInherited (id : SchemaId) : Blames True follow (parseInherited id) :=
  .eat (by decide) (mendsLoop_parseInherits.mends.bind firmLoop_parseInherits.firm
    (fun inherits => (mends_parseOpen id inherits).blames) fun inherits =>
      (opens_parseOpen id inherits).mono (fun _ h => h ▸ by decide) fun _ h => h)
    (mends_parseOpen id []).blames

theorem opens_parseInherited (id : SchemaId) :
    Opens True (· = .leftBrace) follow (parseInherited id) :=
  .eat_false (opens_parseOpen id []) fun _ h => h ▸ by decide

theorem parseHead_eq : parseHead = (do
    Parse.expectKeyword "schema"
    SchemaId.parse >>= parseInherited) := by
  refine bind_congr fun _ => bind_congr fun id => bind_congr fun b => ?_
  cases b with
  | true => rw [if_pos rfl, if_pos rfl, bind_assoc]; rfl
  | false => rfl

theorem mends_parseHead : Mends True follow parseHead := by
  have hid : Blames True follow (SchemaId.parse >>= parseInherited) :=
    SchemaId.mends_parse.blames.bind (SchemaId.solid_parse.firm (· = .leftBrace))
      blames_parseInherited opens_parseInherited
  have hopens : Opens True (fun _ => True) follow (SchemaId.parse >>= parseInherited) :=
    (SchemaId.opens_parse.bind opens_parseInherited).mono (fun _ _ => trivial) fun _ h => h
  have hblames : Blames True follow parseHead :=
    parseHead_eq ▸ (Blames.expectKeyword "schema").bind ((Solid.expectKeyword _).firm _)
      (fun _ => hid) fun _ => hopens
  have hschema : Opens True (· = .name "schema") follow parseHead :=
    parseHead_eq ▸ (Opens.expectKeyword "schema").bind fun _ => hopens
  exact hblames.mends hschema

/-- The imports and the items of a declaration. -/
def parseBraced (head : SchemaId × List SchemaId) : Parse SchemaDecl := do
  let r ← Parse.remaining >>= parseItems
  return ⟨head.1.name, head.1.version, head.2, r.1, r.2⟩

theorem parse_eq_braced : SchemaDecl.parse = parseHead >>= parseBraced := by
  rw [parse_eq]
  refine bind_congr fun head => ?_
  rw [parseBraced, bind_assoc]

theorem mends_parse : Mends True follow SchemaDecl.parse := by
  have hopens : Opens True (· = .rightBrace) follow (Parse.remaining >>= parseItems) :=
    ⟨[.rightBrace], by simp, reachesLoop_brace.reaches, rfl⟩
  exact parse_eq_braced ▸ mends_parseHead.bind (solid_parseHead.firm (· = .rightBrace))
    (fun head => mendsLoop_parseItems.mends.blames.map _) fun head => hopens.map _

theorem mends_parseNext : Mends True (· = .endOfInput) parseNext :=
  .unless (fun _ => parseNext_end) (fun _ => parseNext_decl) (fun _ h => h) (mends_parse.blames.map _)

theorem mendsLoop_parseAll : MendsLoop True (· = .endOfInput) parseAll :=
  funext parseAll_eq_turns ▸ mendsLoop_turns firm_parseNext mends_parseNext.blames
    (fun _ => parseNext_end) (fun _ _ _ => parseNext_moves) fun _ => parseNext_end

/-- All declarations of a text. -/
theorem mends_parseAll : Mends True (· = .endOfInput) (Parse.remaining >>= parseAll) :=
  mendsLoop_parseAll.mends

end SchemaDecl

end Factbase
