import Factbase.Proofs.Query.Continuing
import Factbase.Proofs.Source.Complaints

/-!
# What queries are refused for

The parsers of patterns, sources, statements and queries complain about the
first token that they cannot take. Behind an opening brace they look at two
tokens: whether fields come or patterns.
-/

namespace Factbase

open Parse Cursor

/-! ## Patterns -/

namespace Pattern

variable {depth : Nat} {c : Cursor}

theorem loose_parsePrimary (depth : Nat) : Loose (parsePrimary (parseWithin depth)) := by
  intro c p c' hends hread
  obtain ⟨ts, hp, hpasses⟩ := parsePrimary_sound (parseWithin_sound depth) c p c' hends hread
  exact ⟨ts, hpasses, fun d d' hd _ => parsePrimary_complete (parseWithin_complete depth) hp hd⟩

theorem opens_parseWithin (depth : Nat) :
    Opens False (· = .wild) (· ≠ .dots) (parseWithin (depth + 1)) := by
  have hwild : Opens False (· = .wild) (· ≠ .dots) (parsePrimary (parseWithin depth)) :=
    (Opens.pure Pattern.wild).behind (by decide) fun d hd => by
      rw [parsePrimary, peek_bind, hd]
      rfl
  exact hwild.bind fun p => .eat_false (.pure p) fun _ => id

/-! ### Fields -/

theorem firm_field (depth : Nat) : Firm (· ≠ .dots) (parsePrimary.field (parseWithin depth)) :=
  (Solid.expectName.firm _).bind fun _ => ((Solid.expect (by decide)).firm _).bind fun _ =>
    (firm_parseWithin depth).bind fun _ => (Loose.pure _).firm _

theorem advances_field (depth : Nat) : Advances (parsePrimary.field (parseWithin depth)) :=
  Solid.expectName.advances.bind fun _ => (Solid.expect (by decide)).steady.bind fun _ =>
    (firm_parseWithin depth).steady.bind fun _ => (Loose.pure _).steady

theorem mends_field (hmends : Mends False (· ≠ .dots) (parseWithin (depth + 1))) :
    Mends False (· ≠ .dots) (parsePrimary.field (parseWithin (depth + 1))) := by
  have hvalue (name : String) : Opens False (· = .wild) (· ≠ .dots) (do
      return (name, ← parseWithin (depth + 1))) := (opens_parseWithin depth).map _
  exact .name (fun name => .expect (by decide) (hmends.blames.map _) (hvalue name)) ""
    (.expect_bind (by decide) (hvalue ""))

/-! ### Behind an opening brace -/

/-- Fields come, not patterns. -/
def Named (c : Cursor) : Prop := (∃ name, c.peek = .name name) ∧ c.peekSecond = .equals

theorem parsePrimary_fields {read : Parse Pattern} (hpeek : c.peek = .leftBrace)
    (h : Named c.advance) : parsePrimary read c = (do
      return .fields (← itemsUntil .rightBrace (parsePrimary.field read)) : Parse Pattern) c.advance := by
  obtain ⟨⟨name, hname⟩, hequals⟩ := h
  rw [parsePrimary, peek_bind, hpeek]
  simp only [discard_take_bind, eat_bind]
  rw [if_neg (by rw [hname]; exact Token.noConfusion), if_neg Bool.false_ne_true, peek_bind,
    peekSecond_bind, hname, hequals]

theorem parsePrimary_tuple {read : Parse Pattern} (hpeek : c.peek = .leftBrace)
    (hother : c.advance.peek ≠ .rightBrace) (h : ¬ Named c.advance) : parsePrimary read c = (do
      return .tuple (← itemsUntil .rightBrace read) : Parse Pattern) c.advance := by
  rw [parsePrimary, peek_bind, hpeek]
  simp only [discard_take_bind, eat_bind]
  rw [if_neg hother, if_neg Bool.false_ne_true, peek_bind, peekSecond_bind]
  cases hname : c.advance.peek with
  | name name =>
      cases hequals : c.advance.peekSecond with
      | equals => exact absurd ⟨⟨name, hname⟩, hequals⟩ h
      | _ => rfl
  | _ => rfl

theorem sound_fields (depth : Nat) :
    Sound (do return .fields (← itemsUntil .rightBrace (parsePrimary.field (parseWithin depth))))
      fun p ts => Atom (Spelled depth) p (.leftBrace :: ts) := by
  intro c p c' hends hread
  obtain ⟨fs, c₁, hfs, hout⟩ := bind_ok_iff.mp hread
  cases hout
  obtain ⟨-, ⟨ts, hts, rfl⟩, hpasses⟩ :=
    itemsUntil_sound (field_sound (parseWithin_sound depth)) (by decide) _ _ _ hends hfs
  exact ⟨_, .fields hts, hpasses⟩

theorem sound_tuple (depth : Nat) :
    Sound (do return .tuple (← itemsUntil .rightBrace (parseWithin depth)))
      fun p ts => Atom (Spelled depth) p (.leftBrace :: ts) := by
  intro c p c' hends hread
  obtain ⟨ps, c₁, hps, hout⟩ := bind_ok_iff.mp hread
  cases hout
  obtain ⟨-, ⟨ts, hts, rfl⟩, hpasses⟩ :=
    itemsUntil_sound (parseWithin_sound depth) (by decide) _ _ _ hends hps
  exact ⟨_, .tuple hts, hpasses⟩

/-- Where the same tokens stand behind the brace, the same comes there. -/
theorem named_iff {ts : List Token} {c' d d' : Cursor} (hc : c.Passes (.leftBrace :: ts) c')
    (hd : d.Passes (.leftBrace :: ts) d') (halike : Alike (.leftBrace :: ts) c' d') :
    d.advance.peek = c.advance.peek ∧ (Named d.advance ↔ Named c.advance) := by
  obtain ⟨-, -, hc⟩ := passes_cons_iff.mp hc
  obtain ⟨-, -, hd⟩ := passes_cons_iff.mp hd
  have hpeek : d.advance.peek = c.advance.peek := by rw [hd.peek, hc.peek, halike.peek]
  refine ⟨hpeek, and_congr (by rw [hpeek]) ?_⟩
  cases ts with
  | nil =>
      obtain rfl := passes_nil_iff.mp hc
      obtain rfl := passes_nil_iff.mp hd
      exact halike.second rfl
  | cons t ts => rw [hd.peekSecond, hc.peekSecond, halike.peek]

theorem blames_behind_brace {q : Parse Pattern} {e : SourceError} {t : Token}
    (hq : Mends False (fun _ => True) q)
    (hsound : Sound q fun p ts => Atom (Spelled depth) p (.leftBrace :: ts)) (hends : c.Ends)
    (hpeek : c.peek = .leftBrace) (hc : parsePrimary (parseWithin depth) c = .error e)
    (ht : e.fault.token? = some t)
    (hbranch : ∀ d : Cursor, d.peek = .leftBrace → d.advance.peek = c.advance.peek →
      (Named d.advance ↔ Named c.advance) → parsePrimary (parseWithin depth) d = q d.advance) :
    ∃ ts c', c.Passes ts c' ∧ c'.peek = t ∧ Refuses (parsePrimary (parseWithin depth)) ts c' e.fault ∧
      ∃ us, .endOfInput ∉ us ∧
        Reaches False (parsePrimary (parseWithin depth)) (ts ++ us) fun _ => True := by
  have hopen := hends.pass hpeek (by decide)
  rw [hbranch c hpeek rfl .rfl] at hc
  obtain ⟨ts, c', hpasses, hc', hrefuses, hmends⟩ := hq _ e t (hends.of_passes hopen) hc ht
  obtain ⟨us, hin, hus⟩ := hmends trivial
  have hpasses := hopen.trans hpasses
  refine ⟨.leftBrace :: ts, c', hpasses, hc', fun d d' hdends hd halike => ?_, us, hin, .inl ?_⟩
  · obtain ⟨hadvance, hnamed⟩ := named_iff hpasses hd halike
    obtain ⟨hdpeek, -, hrest⟩ := passes_cons_iff.mp hd
    have halike : Alike ([Token.leftBrace] ++ ts) c' d' := halike
    rw [hbranch d hdpeek hadvance hnamed]
    exact hrefuses _ d' (hdends.of_passes (hdends.pass hdpeek (by decide))) hrest halike.of_append
  · obtain ⟨p, hp⟩ := hus.reads
    have hatom := hsound.spells hp ⟨t, trivial⟩
    exact ⟨p, fun d d' hd _ => parsePrimary_complete (parseWithin_complete depth) hatom hd⟩

/-! ### All patterns -/

theorem mends_items (hmends : Mends False (· ≠ .dots) (parseWithin depth)) {close : Token}
    (hend : close ≠ .endOfInput) (hdots : close ≠ .dots) (hcomma : close ≠ .comma) :
    Mends False (fun _ => True) (itemsUntil close (parseWithin depth)) :=
  (mendsLoop_itemsUntil (firm_parseWithin depth) (advances_parseWithin depth) hmends hend hdots
    (by decide) hcomma).mends

theorem mends_fields (hmends : Mends False (· ≠ .dots) (parseWithin (depth + 1))) :
    Mends False (fun _ => True) (itemsUntil .rightBrace (parsePrimary.field (parseWithin (depth + 1)))) :=
  (mendsLoop_itemsUntil (firm_field _) (advances_field _) (mends_field hmends) (by decide) (by decide)
    (by decide) (by decide)).mends

/-- Where no pattern can be read any more, a field ends there. -/
theorem field_tooDeep (hends : c.Ends) (h : Named c) :
    ∃ pos, parsePrimary.field (parseWithin 0) c = .error ⟨pos, .tooDeep⟩ := by
  obtain ⟨⟨name, hname⟩, hequals⟩ := h
  have hone := hends.pass hname (by simp)
  obtain ⟨-, hrest, -⟩ := passes_cons_iff.mp hone
  have hnext : c.advance.peek = .equals := by
    obtain ⟨here, rest⟩ := c
    cases rest with
    | nil => exact absurd rfl hrest
    | cons next rest => exact hequals
  exact ⟨_, Outcome.stateT_bind_error_iff.mpr (.inr ⟨name, _, expectName_ok_iff.mpr ⟨hname, rfl⟩,
    Outcome.stateT_bind_error_iff.mpr (.inr ⟨(), _, expect_ok_iff.mpr ⟨hnext, rfl⟩, rfl⟩)⟩)⟩

theorem blamesAt_leftBrace (hmends : Mends False (· ≠ .dots) (parseWithin depth)) :
    BlamesAt False (fun _ => True) .leftBrace (parsePrimary (parseWithin depth)) := by
  intro c e t hends hpeek herror ht
  have hclosed {d : Cursor} (hd : d.peek = .leftBrace) (hbrace : d.advance.peek = .rightBrace) :
      parsePrimary (parseWithin depth) d = .ok (.fields [], d.advance.advance) := by
    rw [parsePrimary, peek_bind, hd]
    simp only [discard_take_bind, eat_bind]
    rw [if_pos hbrace]
    rfl
  have hother : c.advance.peek ≠ .rightBrace := fun hbrace => by
    rw [hclosed hpeek hbrace] at herror
    cases herror
  by_cases hnamed : Named c.advance
  · cases depth with
    | zero =>
        rw [parsePrimary_fields hpeek hnamed] at herror
        obtain ⟨pos, hpos⟩ := field_tooDeep (hends.of_passes (hends.pass hpeek (by decide))) hnamed
        have hitems : itemsUntil .rightBrace (parsePrimary.field (parseWithin 0)) c.advance =
            .error ⟨pos, .tooDeep⟩ := itemsUntil_go_error hpos _
        cases herror.symm.trans (Outcome.stateT_bind_error_iff.mpr (.inl hitems))
        cases ht
    | succ depth =>
        obtain ⟨ts, c', hpasses, hc', hrefuses, hmended⟩ :=
          blames_behind_brace ((mends_fields hmends).map .fields) (sound_fields _) hends hpeek herror ht
            fun d hd _ hiff => parsePrimary_fields hd (hiff.mpr hnamed)
        exact ⟨ts, c', hpasses, hc', hrefuses, fun _ => hmended⟩
  · have hitems := mends_items hmends (show Token.rightBrace ≠ .endOfInput by decide) (by decide)
      (by decide)
    obtain ⟨ts, c', hpasses, hc', hrefuses, hmended⟩ :=
      blames_behind_brace (hitems.map .tuple) (sound_tuple _) hends hpeek herror ht fun d hd hsame hiff =>
          parsePrimary_tuple hd (hsame ▸ hother) fun h => hnamed (hiff.mp h)
    exact ⟨ts, c', hpasses, hc', hrefuses, fun _ => hmended⟩

theorem blames_parsePrimary (hmends : Mends False (· ≠ .dots) (parseWithin depth)) :
    Blames False (fun _ => True) (parsePrimary (parseWithin depth)) := by
  have hok {t : Token} {p : Pattern} (hone : ∀ d : Cursor, d.peek = t →
      parsePrimary (parseWithin depth) d = .ok (p, d.advance)) :
      BlamesAt False (fun _ => True) t (parsePrimary (parseWithin depth)) :=
    .ok fun d hd => ⟨_, hone d hd⟩
  have hclose : Mends False (fun _ => True) (do
      let p ← parseWithin depth
      Parse.expect .rightParen
      return p) :=
    hmends.bind (firm_parseWithin depth) (fun p => (Blames.expect (by decide)).map fun _ => p)
      fun p => ((Opens.expect (by decide)).map fun _ => p).mono (fun _ h => h ▸ by decide) fun _ => id
  have hitems : Mends False (fun _ => True) (do
      if ← Parse.eat .rightBracket then return .array []
      return .array (← itemsUntil .rightBracket (parseWithin depth)) : Parse Pattern) := by
    refine Mends.eat (by decide) ?_ (.pure _) ?_
    · exact (silent_pure _).complains
    · exact (mends_items hmends (by decide) (by decide) (by decide)).blames.map _
  refine blames_iff_at.mpr fun t => ?_
  cases t with
  | leftParen => exact hclose.behind (by decide) fun d hd => by rw [parsePrimary, peek_bind, hd]; rfl
  | leftBracket => exact hitems.behind (by decide) fun d hd => by rw [parsePrimary, peek_bind, hd]; rfl
  | leftBrace => exact blamesAt_leftBrace hmends
  | wild => exact hok fun d hd => by rw [parsePrimary, peek_bind, hd]; rfl
  | nat n => exact hok fun d hd => by rw [parsePrimary, peek_bind, hd]; rfl
  | string s => exact hok fun d hd => by rw [parsePrimary, peek_bind, hd]; rfl
  | name n =>
      by_cases hbool : (n = "true" || n = "false") = true
      · exact hok fun d hd => by
          rw [parsePrimary, peek_bind, hd]
          dsimp only
          rw [if_pos hbool]
          rfl
      by_cases hvar : isVariable n = true
      · exact hok fun d hd => by
          rw [parsePrimary, peek_bind, hd]
          dsimp only
          rw [if_neg hbool, if_pos hvar]
          rfl
      · refine .here .expectedPattern rfl fun d hd => ?_
        rw [parsePrimary, peek_bind, hd]
        dsimp only
        rw [if_neg hbool, if_neg hvar]
        rfl
  | _ =>
      refine .here .expectedPattern rfl fun d hd => ?_
      rw [parsePrimary, peek_bind, hd]
      rfl

/-- The mark behind a pattern, where one comes. -/
def parseMark (p : Pattern) : Parse Pattern := do
  if ← Parse.eat .dots then return p.marked
  return p

theorem mends_parseWithin (depth : Nat) : Mends False (· ≠ .dots) (parseWithin depth) := by
  induction depth with
  | zero => exact (silent_fail rfl).complains
  | succ depth ih =>
      have hmark (p : Pattern) : Blames False (· ≠ .dots) (parseMark p) :=
        .eat (by decide) (silent_pure _).complains (silent_pure _).complains
      have hopens (p : Pattern) : Opens False (fun _ => True) (· ≠ .dots) (parseMark p) :=
        Opens.mono (.eat_false (.pure p) fun _ => id) (fun _ _ => trivial) fun _ => id
      have hblames : Blames False (· ≠ .dots) (parseWithin (depth + 1)) :=
        (blames_parsePrimary ih).bind ((loose_parsePrimary depth).firm _) hmark hopens
      exact hblames.mends (opens_parseWithin depth)

theorem mends_parse : Mends False (· ≠ .dots) Pattern.parse := mends_parseWithin maxNesting

theorem opens_parse : Opens False (· = .wild) (· ≠ .dots) Pattern.parse := opens_parseWithin _

end Pattern

/-! ## Sources -/

namespace Source

theorem ne_dots {t : Token} (h : closes t = true) : t ≠ .dots := fun heq => by
  rw [heq] at h
  cases h

theorem ne_arrow {t : Token} (h : closes t = true) : t ≠ .arrow := fun heq => by
  rw [heq] at h
  cases h

theorem mends_pattern {α : Type} (g : Pattern → α) :
    Mends False (closes · = true) (do return g (← Pattern.parse)) :=
  (Pattern.mends_parse.mono fun _ => ne_dots).map g

theorem opens_pattern {α : Type} (g : Pattern → α) :
    Opens False (· = .wild) (closes · = true) (do return g (← Pattern.parse)) :=
  (Pattern.opens_parse.mono (fun _ => id) fun _ => ne_dots).map g

section Clause

variable {α : Type} (f : Pattern → Option Pattern → α)

/-- The value pattern of a predicate, where one comes. -/
def parseArrow (key : Pattern) : Parse α := do
  if ← Parse.eat .arrow then return f key (some (← Pattern.parse))
  return f key none

/-- The patterns of a predicate, where they come. -/
def parseClause (bare : α) : Parse α := do
  if Pattern.startsWith (← Parse.peek) then Pattern.parse >>= parseArrow f else return bare

theorem blames_parseArrow (key : Pattern) : Blames False (closes · = true) (parseArrow f key) :=
  .eat (by decide) (mends_pattern _) (silent_pure _).complains

theorem opens_parseArrow (key : Pattern) :
    Opens False (· ≠ .dots) (closes · = true) (parseArrow f key) :=
  Opens.mono (.eat_false (.pure _) fun _ => ne_arrow) (fun _ => ne_dots) fun _ => id

theorem mends_parseClause (bare : α) : Mends False (closes · = true) (parseClause f bare) := by
  have hkey : Blames False (closes · = true) (Pattern.parse >>= parseArrow f) :=
    Pattern.mends_parse.blames.bind Pattern.firm_parse (blames_parseArrow f) (opens_parseArrow f)
  have hblames : Blames False (closes · = true) (parseClause f bare) := by
    refine .peek fun t => ?_
    split
    · exact blames_iff_at.mp hkey t
    · exact blames_iff_at.mp (silent_pure _).complains t
  refine hblames.mends ((Opens.pure bare).congr fun d hd => ?_)
  rw [parseClause, peek_bind, startsWith_eq_false hd]
  rfl

end Clause

theorem mends_factId : Mends False (closes · = true) (do
    match ← Parse.take with
    | .nat id => return .factId id
    | other => Parse.fail (.expectedFactId other) : Parse Source) := by
  refine Blames.mends (.take fun t => ?_)
    ((Opens.pure (Source.factId 0)).behind (by simp) fun d (hd : d.peek = .nat 0) => ?_)
  · cases t with
    | nat id => exact .inr ⟨by simp, (silent_pure _).complains⟩
    | _ => exact .inl ⟨_, rfl, rfl, rfl⟩
  · rw [take_bind, hd]

theorem mends_parse : Mends False (closes · = true) Source.parse := by
  refine Blames.mends (.peek fun t => ?_) ((opens_pattern .expr).congr fun d hd => ?_)
  · cases t with
    | dollar => exact mends_factId.behind (by decide) fun d hd => rfl
    | name name =>
        dsimp only
        cases primName? name with
        | some function => exact (mends_pattern _).behind (by simp) fun d hd => rfl
        | none =>
            dsimp only
            split
            · exact (mends_parseClause _ _).behind (by simp) fun d hd => rfl
            · exact blames_iff_at.mp (mends_pattern _).blames _
    | _ => exact blames_iff_at.mp (mends_pattern _).blames _
  · rw [Source.parse, peek_bind, hd]

theorem opens_parse : Opens False (· = .wild) (closes · = true) Source.parse :=
  (opens_pattern .expr).congr fun d hd => by rw [Source.parse, peek_bind, hd]

end Source

/-! ## Statements -/

namespace Statement

theorem ne_equals {t : Token} (h : closes t = true) : t ≠ .equals := fun heq => by
  rw [heq] at h
  cases h

/-- What comes after the first source of a statement. -/
def parseRest (first : Source) : Parse Statement := do
  if ← Parse.eat .equals then
    match first.asPattern? with
    | none => Parse.fail .notAPattern
    | some p => return ⟨some p, ← Source.parse⟩
  return ⟨none, first.standalone⟩

theorem parse_eq : Statement.parse = Source.parse >>= parseRest := rfl

theorem blames_parseRest (first : Source) : Blames False (closes · = true) (parseRest first) := by
  refine .eat (by decide) ?_ (silent_pure _).complains
  rw [if_pos rfl]
  cases first.asPattern? with
  | none => exact (silent_fail rfl).complains
  | some p => exact (Complains.mono Source.mends_parse fun _ => closes_source).map _

theorem opens_parseRest (first : Source) :
    Opens False (Source.closes · = true) (closes · = true) (parseRest first) :=
  Opens.mono (.eat_false (.pure _) fun _ => ne_equals) (fun _ => closes_source) fun _ => id

theorem opens_parse : Opens False (· = .wild) (closes · = true) Statement.parse :=
  Source.opens_parse.bind opens_parseRest

theorem mends_parse : Mends False (closes · = true) Statement.parse :=
  Complains.bind Source.mends_parse Source.firm_parse blames_parseRest opens_parseRest

end Statement

/-! ## Queries -/

namespace Query

theorem mends_parseAfter : Mends False Closes parseAfter :=
  .unless (fun _ => parseAfter_closes) (fun _ => parseAfter_statement) (fun _ => id)
    (((Mends.blames Statement.mends_parse).mono fun _ => Closes.statement).map _)

theorem blames_parseNext : Blames False Closes parseNext := by
  refine blames_iff_at.mpr fun t => ?_
  by_cases hsep : separates t = true
  · refine Mends.behind mends_parseAfter (fun he => by rw [he] at hsep; cases hsep) fun d hd => ?_
    rw [parseNext, parseSeparator_bind, hd, if_pos hsep]
    rfl
  · refine .ok fun d hd => ⟨(none, d), ?_⟩
    rw [parseNext, parseSeparator_bind, hd, if_neg hsep]
    rfl

theorem mendsLoop_more : MendsLoop False Closes parse.more :=
  funext more_eq_turns ▸ mendsLoop_turns firm_parseNext blames_parseNext
    (fun _ h => parseNext_closes (.inl h)) (fun _ _ _ => parseNext_moves) fun _ => parseNext_closes

theorem opens_more : Opens False (Statement.closes · = true) Closes (Parse.remaining >>= parse.more) :=
  ⟨[], by simp, (funext more_eq_turns ▸ reachesLoop_nil fun _ => parseNext_closes :
    ReachesLoop False parse.more [] Closes).reaches, fun _ => Closes.statement⟩

theorem opens_parseRest (first : Statement) :
    Opens False (Statement.closes · = true) Closes (parseRest first) := opens_more.map _

theorem mends_parse : Mends False Closes Query.parse :=
  parse_eq ▸ Complains.bind Statement.mends_parse Statement.firm_parse
    (fun _ => mendsLoop_more.mends.blames.map _) opens_parseRest

theorem opens_parse : Opens False (· = .wild) Closes Query.parse :=
  parse_eq ▸ Statement.opens_parse.bind opens_parseRest

/-! ### Texts -/

/-- A query up to the end of input. -/
def parseWhole : Parse Query := do
  let q ← Query.parse
  match ← Parse.peek with
  | .endOfInput => return q
  | found => Parse.fail (.unexpected found)

theorem mends_parseWhole : Mends False (· = .endOfInput) parseWhole := by
  refine Complains.bind mends_parse firm_parse (fun q => .peek fun t => ?_) fun q =>
    ((Opens.pure q).congr fun d (hd : d.peek = .endOfInput) => ?_).mono (fun _ => .inl) fun _ => id
  · cases t with
    | endOfInput => exact blames_iff_at.mp (silent_pure _).complains _
    | _ => exact .here .unexpected rfl fun d hd => rfl
  · rw [peek_bind, hd]

end Query

end Factbase
