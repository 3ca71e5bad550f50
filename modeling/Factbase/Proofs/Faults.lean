import Factbase.Proofs.Schema.Complaints

/-!
# Where a text is wrong

A query or a schema is refused at the first token that cannot be taken, and
the message names it. The position is the token's, but for three messages:
a fact id, a type and a default literal are looked at when they were taken
already, so the position is that of the token after it.
-/

namespace Factbase

open Parse Cursor

namespace SourceFault

/-- A message ends with the token that it complains about. -/
theorem message_of_token? {fault : SourceFault} {t : Token} (h : fault.token? = some t) :
    (∃ text, fault.message = text ++ "found " ++ t.render) ∨
      fault.message = "unexpected " ++ t.render := by
  have hfound {whole : String} (text : String) (hwhole : whole = text ++ "found ") :
      ∃ text, whole ++ t.render = text ++ "found " ++ t.render := ⟨text, congrArg (· ++ t.render) hwhole⟩
  cases fault with
  | expected token found =>
      cases h
      have hcomma : ", found " = ", " ++ "found " := by simp
      refine .inl (hfound ("expected " ++ token.render ++ ", ") ?_)
      rw [hcomma]
      simp only [String.append_assoc]
  | expectedKeyword keyword found =>
      cases h
      have hcomma : "`, found " = "`, " ++ "found " := by simp
      refine .inl (hfound ("expected `" ++ keyword ++ "`, ") ?_)
      rw [hcomma]
      simp only [String.append_assoc]
  | expectedName found =>
      cases h
      exact .inl (hfound "expected a name, " (by simp))
  | expectedPattern found =>
      cases h
      exact .inl (hfound "expected a pattern, " (by simp))
  | expectedFactId found =>
      cases h
      exact .inl (hfound "expected a fact id after `$`, " (by simp))
  | expectedItem found =>
      cases h
      exact .inl (hfound "expected `import`, `type`, `predicate` or `\x7d`, " (by simp))
  | expectedType found =>
      cases h
      exact .inl (hfound "expected a type, " (by simp))
  | expectedDefault found =>
      cases h
      exact .inl (hfound "expected a default literal, " (by simp))
  | unexpected found =>
      cases h
      exact .inr rfl
  | _ => cases h

end SourceFault

namespace Parse

variable {α : Type} {p : Parse α} {c c' : Cursor} {ts : List Token} {deep : Prop} {e : SourceError}
  {t : Token}

/-- The tokens of a text, without the end of input, that a parser reads. -/
def Accepts (p : Parse α) (ts : List Token) : Prop :=
  .endOfInput ∉ ts ∧ ∃ c r, c.tokens = ts ++ [.endOfInput] ∧ p c = .ok r

/-- The same where a parser refuses them because they are nested too deep. -/
def Overnests (p : Parse α) (ts : List Token) : Prop :=
  .endOfInput ∉ ts ∧ ∃ c pos, c.tokens = ts ++ [.endOfInput] ∧ p c = .error ⟨pos, .tooDeep⟩

/-- An error that complains about a token points at one of the tokens of the text, or one further if
it is late. What stands before the token can be gone on with in some way that is viable, and nothing
is accepted that goes on with the token. (Behind an opening brace the token after it counts as well:
fields begin with a name and an equals sign, so it is one here and there, or neither.) -/
def PointsAt (accepted viable : List Token → Prop) (tokens : List Located) (e : SourceError)
    (t : Token) : Prop :=
  ∃ before here after, tokens = before ++ here :: after ∧ here.token = t ∧
    e.position = (if e.fault.isLate then after.head?.getD here else here).position ∧
    (∃ more, viable (before.map Located.token ++ more)) ∧
    ∀ ts more, ts ++ [.endOfInput] = before.map Located.token ++ t :: more →
      ((before.map Located.token).getLast? = some .leftBrace →
        (more.head? = some .equals ↔ after.head?.map Located.token = some .equals)) →
      ¬ accepted ts

theorem PointsAt.mono {accepted viable viable' : List Token → Prop} {tokens : List Located}
    (h : PointsAt accepted viable tokens e t) (hviable : ∀ ts, viable ts → viable' ts) :
    PointsAt accepted viable' tokens e t := by
  obtain ⟨before, here, after, htokens, hhere, hposition, ⟨more, hmore⟩, hnone⟩ := h
  exact ⟨before, here, after, htokens, hhere, hposition, ⟨more, hviable _ hmore⟩, hnone⟩

theorem exists_located (h : c.Passes ts c') : ∃ before, before.map Located.token = ts ∧
    c.here :: c.rest = before ++ c'.here :: c'.rest := by
  induction h with
  | refl c => exact ⟨[], rfl, rfl⟩
  | @step here next rest ts c h ih =>
      obtain ⟨before, rfl, hrest⟩ := ih
      exact ⟨here :: before, rfl, congrArg (here :: ·) hrest⟩

theorem here_advance (c : Cursor) : c.advance.here = c.rest.head?.getD c.here := by
  obtain ⟨here, rest⟩ := c
  cases rest <;> rfl

theorem peekSecond_eq_equals_iff (hends : c.Ends) :
    c.peekSecond = .equals ↔ c.rest.head?.map Located.token = some .equals := by
  obtain ⟨here, rest⟩ := c
  cases rest with
  | cons next rest => simp [Cursor.peekSecond]
  | nil =>
      have hend : here.token = .endOfInput := peek_eq_of_length hends (Nat.le_refl 0)
      simp [Cursor.peekSecond, hend]

theorem Reaches.goes_on (h : Reaches deep p ts (· = .endOfInput)) (hin : .endOfInput ∉ ts) :
    Accepts p ts ∨ deep ∧ Overnests p ts := by
  obtain ⟨c, hc⟩ := exists_tokens ts
  obtain ⟨c', hpasses, hc'⟩ := exists_passes hc (by simp)
  refine h.imp (fun ⟨x, hx⟩ => ⟨hin, c, _, hc, hx c c' hpasses (peek_of_tokens hc')⟩)
    fun ⟨hdeep, _, h⟩ => ⟨hdeep, hin, ?_⟩
  obtain ⟨pos, hpos⟩ := h c c' hpasses
  exact ⟨c, pos, hc, hpos⟩

/-- A parser that would always go on points at the tokens that it complains about. -/
theorem Mends.pointsAt (h : Mends deep (· = .endOfInput) p) {init : List Token}
    (hc : c.tokens = init ++ [.endOfInput]) (hin : .endOfInput ∉ init) (herror : p c = .error e)
    (ht : e.fault.token? = some t) :
    PointsAt (Accepts p) (fun ts => Accepts p ts ∨ deep ∧ Overnests p ts) (c.here :: c.rest) e t := by
  have hends : c.Ends := ⟨init, hc⟩
  obtain ⟨ts, c', hpasses, hpeek, hrefuses, hmends⟩ := h c e t hends herror ht
  obtain ⟨us, hin', hus⟩ := hmends trivial
  obtain ⟨before, rfl, hlocated⟩ := exists_located hpasses
  have hplace := congrArg SourceError.position
    (Except.error.inj (herror.symm.trans (hrefuses c c' hends hpasses (.refl _ c'))))
  have hinit : before.map Located.token ++ c'.tokens.dropLast = init := by
    have hdrop := congrArg List.dropLast (hpasses.tokens_eq.symm.trans hc)
    have hne : c'.tokens ≠ [] := List.cons_ne_nil _ _
    rwa [List.dropLast_concat, List.dropLast_append_of_ne_nil hne] at hdrop
  have hbefore : .endOfInput ∉ before.map Located.token := fun hmem =>
    hin (hinit ▸ List.mem_append_left _ hmem)
  refine ⟨before, c'.here, c'.rest, hlocated, hpeek, ?_, ⟨us, hus.goes_on ?_⟩, ?_⟩
  · rw [hplace, SourceFault.place, ← here_advance]
    split <;> rfl
  · rw [List.mem_append, not_or]
    exact ⟨hbefore, hin'⟩
  · rintro ts more hts hmore ⟨-, d, r, hd, hread⟩
    have hdends : d.Ends := ⟨ts, hd⟩
    obtain ⟨d', hdpasses, hd'⟩ := exists_passes (hd.trans hts) (List.cons_ne_nil _ _)
    have hrest : d'.rest.map Located.token = more := (List.cons.inj hd').2
    have halike : Alike (before.map Located.token) c' d' := by
      refine ⟨(peek_of_tokens hd').trans hpeek.symm, fun hlast => ?_⟩
      rw [peekSecond_eq_equals_iff (hdends.of_passes hdpasses),
        peekSecond_eq_equals_iff (hends.of_passes hpasses), ← hmore hlast, ← hrest, List.head?_map]
    cases hread.symm.trans (hrefuses d d' hdends hdpasses halike)

end Parse

open Parse Cursor

variable {text : String} {c : Cursor} {tokens : List Located} {e : SourceError} {t : Token}

/-- A text that is cut into tokens has a cursor in front of them. -/
theorem exists_cursor (h : Token.readAll text = .ok tokens) :
    ∃ c init, Cursor.ofText text = .ok c ∧ c.here :: c.rest = tokens ∧
      c.tokens = init ++ [.endOfInput] ∧ .endOfInput ∉ init := by
  have hlexemes : lexemes text.toList = some (tokens.map Located.token) := by
    rw [lexemes, ← Token.readAll, h]
    rfl
  obtain ⟨init, hinit, hlegal⟩ := legal_of_lexemes hlexemes
  cases tokens with
  | nil => cases init <;> cases hinit
  | cons here rest =>
      refine ⟨⟨here, rest⟩, init, ?_, rfl, hinit, hlegal _⟩
      rw [Cursor.ofText, h]
      rfl

namespace Query

theorem parseWhole_ok_iff {q : Query} {c' : Cursor} :
    parseWhole c = .ok (q, c') ↔ Query.parse c = .ok (q, c') ∧ c'.peek = .endOfInput := by
  rw [parseWhole, bind_ok_iff]
  constructor
  · rintro ⟨q', c₁, hq, hread⟩
    rw [peek_bind] at hread
    cases hpeek : c₁.peek with
    | endOfInput =>
        rw [hpeek] at hread
        cases hread
        exact ⟨hq, hpeek⟩
    | _ =>
        rw [hpeek] at hread
        cases hread
  · rintro ⟨hq, hend⟩
    refine ⟨q, c', hq, ?_⟩
    rw [peek_bind, hend]
    rfl

/-- The tokens that are accepted as a query are those that spell one. -/
theorem accepts_iff {ts : List Token} :
    Accepts parseWhole ts ↔ .endOfInput ∉ ts ∧ ∃ q : Query, q.Spelled ts := by
  refine and_congr_right fun hin => ⟨?_, ?_⟩
  · rintro ⟨c, ⟨q, c'⟩, hc, hread⟩
    obtain ⟨hq, hend⟩ := parseWhole_ok_iff.mp hread
    obtain ⟨us, hus, hpasses⟩ := parse_sound c q c' ⟨ts, hc⟩ hq
    obtain rfl : ts = us := by
      rw [hpasses.tokens_eq, Cursor.tokens, ← Cursor.peek, hend] at hc
      exact ((List.append_cons_inj_of_notMem hin List.not_mem_nil).mp hc.symm).1
    exact ⟨q, hus⟩
  · rintro ⟨q, hq⟩
    obtain ⟨c, hc⟩ := exists_tokens ts
    obtain ⟨c', hpasses, hc'⟩ := exists_passes hc (by simp)
    have hend : c'.peek = .endOfInput := peek_of_tokens hc'
    exact ⟨c, (q, c'), hc, parseWhole_ok_iff.mpr ⟨parse_complete hq hpasses hend, hend⟩⟩

theorem parseWhole_of_read (hc : Cursor.ofText text = .ok c) (h : Query.read text = .error e)
    (ht : e.fault.token? = some t) : parseWhole c = .error e := by
  rw [Query.read] at h
  split at h
  · cases h
    cases ht
  obtain h | ⟨c₁, hc₁, h⟩ := Outcome.bind_error_iff.mp h
  · cases hc.symm.trans h
  cases hc.symm.trans hc₁
  obtain h | ⟨⟨q, c'⟩, hq, h⟩ := Outcome.bind_error_iff.mp h
  · exact Outcome.stateT_bind_error_iff.mpr (.inl h)
  · refine Outcome.stateT_bind_error_iff.mpr (.inr ⟨q, c', hq, ?_⟩)
    rw [peek_bind]
    dsimp only at h
    cases hpeek : c'.peek with
    | endOfInput =>
        rw [hpeek] at h
        cases h
    | _ =>
        rw [hpeek] at h
        cases h
        rfl

end Query

/-- The declarations of a schema up to the end of input. -/
def SchemaDecl.parseWhole : Parse (List SchemaDecl) := Parse.remaining >>= parseAll

theorem SchemaDecl.parseWhole_of_readAll (hc : Cursor.ofText text = .ok c)
    (h : SchemaDecl.readAll text = .error e) : SchemaDecl.parseWhole c = .error e := by
  obtain h | ⟨c₁, hc₁, h⟩ := Outcome.bind_error_iff.mp h
  · cases hc.symm.trans h
  cases hc.symm.trans hc₁
  obtain h | ⟨r, -, h⟩ := Outcome.bind_error_iff.mp h
  · exact h
  · cases h

namespace SourceError

/-- Where a query or a schema that is cut into tokens is refused with a message that names a token,
it is the first token that could not be accepted, and the error points at it; but three messages
point at the token after it. What stands before the token can be gone on with: to a query, or to
declarations, unless those would be nested too deep. -/
theorem points_at_token (htokens : Token.readAll text = .ok tokens) (ht : e.fault.token? = some t) :
    ((∃ before, e.fault.message = before ++ "found " ++ t.render) ∨
      e.fault.message = "unexpected " ++ t.render) ∧
    (Query.read text = .error e →
      PointsAt (Accepts Query.parseWhole) (Accepts Query.parseWhole) tokens e t) ∧
    (SchemaDecl.readAll text = .error e →
      PointsAt (Accepts SchemaDecl.parseWhole)
        (fun ts => Accepts SchemaDecl.parseWhole ts ∨ Overnests SchemaDecl.parseWhole ts) tokens e
        t) := by
  obtain ⟨c, init, hc, rfl, hinit, hin⟩ := exists_cursor htokens
  refine ⟨SourceFault.message_of_token? ht, fun hquery => ?_, fun hschema => ?_⟩
  · have herror := Query.parseWhole_of_read hc hquery ht
    have hpoints := Query.mends_parseWhole.pointsAt hinit hin herror ht
    exact hpoints.mono fun ts h => h.resolve_right fun h => h.1
  · have herror := SchemaDecl.parseWhole_of_readAll hc hschema
    have hpoints := SchemaDecl.mends_parseAll.pointsAt hinit hin herror ht
    exact hpoints.mono fun ts => Or.imp_right And.right

/-- A second number stands where a comma must, and a semicolon where a type must; that one is
reported at the brace behind it. -/
theorem points_at_token_misplaced :
    (∃ tokens e, Token.readAll "x.P {1 2}" = .ok tokens ∧
      Query.read "x.P {1 2}" = .error e ∧ e.position = ⟨1, 8⟩ ∧
      PointsAt (Accepts Query.parseWhole) (Accepts Query.parseWhole) tokens e (.nat 2)) ∧
    ∃ tokens e, Token.readAll "schema a.1 { predicate P : ; }" = .ok tokens ∧
      SchemaDecl.readAll "schema a.1 { predicate P : ; }" = .error e ∧ e.position = ⟨1, 30⟩ ∧
      PointsAt (Accepts SchemaDecl.parseWhole)
        (fun ts => Accepts SchemaDecl.parseWhole ts ∨ Overnests SchemaDecl.parseWhole ts) tokens e
        .semicolon := by
  constructor
  · have htokens : Token.readAll "x.P {1 2}" = .ok [⟨.name "x.P", ⟨1, 1⟩⟩, ⟨.leftBrace, ⟨1, 5⟩⟩,
        ⟨.nat 1, ⟨1, 6⟩⟩, ⟨.nat 2, ⟨1, 8⟩⟩, ⟨.rightBrace, ⟨1, 9⟩⟩, ⟨.endOfInput, ⟨1, 10⟩⟩] := by
      decide +kernel
    have hread : Query.read "x.P {1 2}" = .error ⟨⟨1, 8⟩, .expected .comma (.nat 2)⟩ := by
      decide +kernel
    exact ⟨_, _, htokens, hread, rfl, (points_at_token htokens rfl).2.1 hread⟩
  · have htokens : Token.readAll "schema a.1 { predicate P : ; }" = .ok [⟨.name "schema", ⟨1, 1⟩⟩,
        ⟨.name "a.1", ⟨1, 8⟩⟩, ⟨.leftBrace, ⟨1, 12⟩⟩, ⟨.name "predicate", ⟨1, 14⟩⟩,
        ⟨.name "P", ⟨1, 24⟩⟩, ⟨.colon, ⟨1, 26⟩⟩, ⟨.semicolon, ⟨1, 28⟩⟩, ⟨.rightBrace, ⟨1, 30⟩⟩,
        ⟨.endOfInput, ⟨1, 31⟩⟩] := by
      decide +kernel
    have hread : SchemaDecl.readAll "schema a.1 { predicate P : ; }" =
        .error ⟨⟨1, 30⟩, .expectedType .semicolon⟩ := by
      decide +kernel
    exact ⟨_, _, htokens, hread, rfl, (points_at_token htokens rfl).2.2 hread⟩

/-- What is not a fact id is taken before it is looked at: the error is reported at the end of
input, and names the token in front of it. -/
theorem exists_past_token :
    ¬ ∀ (text : String) (tokens : List Located) (e : SourceError) (t : Token),
      Token.readAll text = .ok tokens → Query.read text = .error e →
      (∃ before, e.fault.message = before ++ "found " ++ t.render) →
      ∃ here ∈ tokens, here.position = e.position ∧ here.token.render = t.render := by
  intro h
  have htokens : Token.readAll "$x" =
      .ok [⟨.dollar, ⟨1, 1⟩⟩, ⟨.name "x", ⟨1, 2⟩⟩, ⟨.endOfInput, ⟨1, 3⟩⟩] := by
    decide +kernel
  have hread : Query.read "$x" = .error ⟨⟨1, 3⟩, .expectedFactId (.name "x")⟩ := by decide +kernel
  have hmessage : (SourceFault.expectedFactId (.name "x")).message =
      "expected a fact id after `$`, " ++ "found " ++ (Token.name "x").render := by decide +kernel
  have hhere := h "$x" _ _ (.name "x") htokens hread ⟨_, hmessage⟩
  revert hhere
  decide +kernel

end SourceError

end Factbase
