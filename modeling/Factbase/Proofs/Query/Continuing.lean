import Factbase.Proofs.Query.Grammar
import Factbase.Proofs.Source.Lookahead

/-!
# What comes after a query

The parser of queries stops at a token that neither separates statements
nor goes on with one. What it has read up to there it reads again in front
of the same token, and of the end of input and a closing brace
(`Query.firm_parse`). In front of a semicolon it goes on: the query gets the
statements that come after it as well (`Query.Spelled.continues`).
-/

namespace Factbase

open Parse Cursor

/-! ## What is read again -/

namespace Pattern

theorem firm_parseWithin (depth : Nat) : Firm (· ≠ .dots) (parseWithin depth) := by
  cases depth with
  | zero => exact fun _ _ _ _ h => by cases h
  | succ depth =>
      intro c p c' hends hread
      obtain ⟨ts, hpasses, hp, hdots⟩ :=
        leads_of_parseWithin_succ (parseWithin_sound depth) hends hread
      exact ⟨ts, hpasses, fun d d' hd hnext => parseWithin_complete _ d p d' ts hp hd fun hpeek =>
        hnext.elim (fun hnext => (hdots (hnext ▸ hpeek)).getLast?) (absurd hpeek)⟩

theorem advances_parseWithin (depth : Nat) : Advances (parseWithin depth) := by
  intro c p c' hends hread
  obtain ⟨ts, hpasses, hreads⟩ := firm_parseWithin depth c p c' hends hread
  obtain ⟨us, hp, hpasses'⟩ := parseWithin_sound depth c p c' hends hread
  obtain rfl := passes_unique hpasses hpasses'
  exact ⟨ts, hp.ne_nil, hpasses, hreads.mono fun _ => .inl⟩

theorem firm_parse : Firm (· ≠ .dots) Pattern.parse := firm_parseWithin maxNesting

end Pattern

theorem Source.steady_parse : Steady Source.parse := by
  have hexpr : Steady (do return .expr (← Pattern.parse) : Parse Source) :=
    Pattern.firm_parse.steady.bind fun p => (Loose.pure _).steady
  refine Steady.peek fun t => ?_
  cases t with
  | dollar =>
      refine SteadyAt.take (by decide) (Solid.take (fun c r h => by cases h) fun t => ?_).steady
      cases t with
      | nat id => exact .pure _
      | _ => exact (Solid.fail _).loose
  | name name =>
      dsimp only
      cases Source.primName? name with
      | some function =>
          exact SteadyAt.take (by simp) (Pattern.firm_parse.steady.bind fun p => (Loose.pure _).steady)
      | none =>
          dsimp only
          split
          · refine SteadyAt.take (by simp) (steady_peek.bind fun t => ?_)
            split
            · refine Pattern.firm_parse.steady.bind fun p => (steady_eat (by decide)).bind fun b => ?_
              cases b with
              | true => exact Pattern.firm_parse.steady.bind fun value => (Loose.pure _).steady
              | false => exact (Loose.pure _).steady
            · exact (Loose.pure _).steady
          · exact hexpr.at _
  | _ => exact hexpr.at _

theorem Source.firm_parse : Firm (Source.closes · = true) Source.parse :=
  Source.steady_parse.firm fun c s c' hends hread => by
    obtain ⟨ts, hs, hpasses⟩ := Source.parse_sound c s c' hends hread
    exact ⟨ts, hpasses, fun d d' hd hclose => Source.parse_complete hs hd hclose⟩

theorem Statement.steady_parse : Steady Statement.parse := by
  refine Source.steady_parse.bind fun first => (steady_eat (by decide)).bind fun b => ?_
  cases b with
  | false => exact (Loose.pure _).steady
  | true =>
      dsimp only
      rw [if_pos rfl]
      cases first.asPattern? with
      | none => exact (Solid.fail _).steady
      | some p => exact Source.steady_parse.bind fun s => (Loose.pure _).steady

theorem Statement.firm_parse : Firm (Statement.closes · = true) Statement.parse :=
  Statement.steady_parse.firm fun c s c' hends hread => by
    obtain ⟨ts, hs, hpasses⟩ := Statement.parse_sound c s c' hends hread
    exact ⟨ts, hpasses, fun d d' hd hclose => Statement.parse_complete hs hd hclose⟩

namespace Query

/-- The statement after a separator, if there is one. -/
def parseAfter : Parse (Option Statement) := do
  match ← Parse.peek with
  | .endOfInput | .rightBrace => return none
  | _ => return some (← Statement.parse)

/-- A separator and the statement after it. -/
def parseNext : Parse (Option Statement) := do
  if ← Statement.parseSeparator then parseAfter else return none

theorem more_eq_turns (n : Nat) : parse.more n = turns parseNext n := by
  induction n with
  | zero => rfl
  | succ n ih =>
      funext c
      rw [parse.more, turns, ih]
      generalize turns parseNext n = more
      rw [parseNext, bind_assoc, parseSeparator_bind, parseSeparator_bind]
      cases separates c.peek with
      | false => rfl
      | true =>
          simp only [if_true]
          rw [peek_bind, parseAfter, bind_assoc, peek_bind]
          cases c.advance.peek <;> first | rfl | simp only [bind_assoc, pure_bind]

/-- What comes after a query. -/
def Closes (t : Token) : Prop := t = .endOfInput ∨ t = .rightBrace

theorem Closes.statement {t : Token} (h : Closes t) : Statement.closes t = true := by
  obtain rfl | rfl := h <;> rfl

theorem Closes.separates {t : Token} (h : Closes t) : separates t = false := by
  obtain rfl | rfl := h <;> rfl

theorem parseAfter_closes {c : Cursor} (h : Closes c.peek) : parseAfter c = .ok (none, c) := by
  rw [parseAfter, peek_bind]
  obtain h | h := h
  · rw [h]
    rfl
  · rw [h]
    rfl

theorem parseAfter_statement {c : Cursor} (h : ¬ Closes c.peek) :
    parseAfter c = (do return some (← Statement.parse)) c := by
  rw [parseAfter, peek_bind]
  cases hpeek : c.peek with
  | endOfInput => exact absurd (.inl hpeek) h
  | rightBrace => exact absurd (.inr hpeek) h
  | _ => rfl

theorem parseNext_closes {c : Cursor} (h : Closes c.peek) : parseNext c = .ok (none, c) := by
  rw [parseNext, parseSeparator_bind, h.separates]
  rfl

theorem advances_statement : Advances (do return some (← Statement.parse)) := by
  refine Advances.bind (fun c s c' hends hread => ?_) fun s => (Loose.pure _).steady
  obtain ⟨ts, hs, hpasses⟩ := Statement.parse_sound c s c' hends hread
  obtain ⟨us, hus, hreads⟩ := Statement.steady_parse c s c' hends hread
  obtain rfl := passes_unique hpasses hus
  obtain ⟨t, us, rfl, -⟩ := hs.head
  exact ⟨_, List.cons_ne_nil _ _, hpasses, hreads⟩

theorem firm_parseAfter : Firm Closes parseAfter :=
  .unless (fun _ => parseAfter_closes) (fun _ => parseAfter_statement) (fun _ => id)
    ((Statement.firm_parse.mono fun _ => Closes.statement).bind fun _ => (Loose.pure _).firm _)
    advances_statement

theorem firm_parseNext : Firm Closes parseNext := by
  intro c r c' hends hread
  rw [parseNext, parseSeparator_bind] at hread
  split at hread
  · rename_i hsep
    have hone := hends.advance fun he => by
      rw [he] at hsep
      cases hsep
    obtain ⟨ts, hts, hreads⟩ := firm_parseAfter _ r c' (hends.of_passes hone) hread
    refine ⟨c.peek :: ts, hone.trans hts, fun d d' hd hnext => ?_⟩
    obtain ⟨hpeek, -, hd⟩ := passes_cons_iff.mp hd
    rw [parseNext, parseSeparator_bind, hpeek, if_pos hsep]
    exact hreads _ d' hd hnext
  · rename_i hsep
    cases hread
    refine ⟨[], .refl c, fun d d' hd hnext => ?_⟩
    obtain rfl := passes_nil_iff.mp hd
    obtain hnext | hnext := hnext
    · rw [parseNext, parseSeparator_bind, hnext, if_neg hsep]
      rfl
    · exact parseNext_closes hnext

theorem parseNext_moves {c c' : Cursor} {s : Statement} (hends : c.Ends)
    (hread : parseNext c = .ok (some s, c')) : c'.rest.length < c.rest.length := by
  rw [parseNext, parseSeparator_bind] at hread
  split at hread
  · rename_i hsep
    have hone := hends.advance fun he => by
      rw [he] at hsep
      cases hsep
    obtain ⟨ts, hpasses, -⟩ := firm_parseAfter _ _ c' (hends.of_passes hone) hread
    have := (hone.trans hpasses).length
    simp only [List.length_append, List.length_singleton] at this
    omega
  · cases hread

theorem firmLoop_more : FirmLoop Closes parse.more :=
  funext more_eq_turns ▸ firmLoop_turns firm_parseNext (fun _ h => parseNext_closes (.inl h))
    (fun _ _ _ => parseNext_moves) fun _ => parseNext_closes

/-- What comes after the first statement of a query. -/
def parseRest (first : Statement) : Parse Query := do
  let more ← Parse.remaining >>= parse.more
  return ⟨first :: more⟩

theorem parse_eq : Query.parse = Statement.parse >>= parseRest := rfl

theorem firm_parse : Firm Closes Query.parse :=
  parse_eq ▸ (Statement.firm_parse.mono fun _ => Closes.statement).bind fun _ =>
    firmLoop_more.firm.bind fun _ => (Loose.pure _).firm _

theorem steady_parse : Steady Query.parse := firm_parse.steady

/-! ## Going on behind the last statement -/

/-- Tokens whose last one does not separate statements. -/
def Closed (ts : List Token) : Prop := ∀ t ∈ ts.getLast?, separates t = false

variable {q : Query} {ss : List Statement} {s : Statement} {c c' d d' : Cursor} {t : Token}
  {ts us : List Token} {m : Nat}

theorem Closed.cons (ht : separates t = false) (hts : Closed ts) : Closed (t :: ts) := by
  cases ts with
  | nil => rintro _ ⟨⟩; exact ht
  | cons u us => exact hts

theorem Closed.append (hts : Closed ts) (hus : Closed us) : Closed (ts ++ us) := by
  cases us with
  | nil => rwa [List.append_nil]
  | cons u us =>
      intro t ht
      rw [List.getLast?_append_of_ne_nil _ (List.cons_ne_nil u us)] at ht
      exact hus t ht

theorem Closed.concat (ts : List Token) (ht : separates t = false) : Closed (ts ++ [t]) := by
  intro u hu
  rw [List.getLast?_concat, Option.mem_some_iff] at hu
  exact hu ▸ ht

theorem Closed.of_append (h : Closed (ts ++ us)) : Closed us := fun t ht =>
  h t (by rw [List.getLast?_append, ht]; rfl)

theorem closed_of_getLast? (hsemi : ts.getLast? ≠ some .semicolon) (hbar : ts.getLast? ≠ some .bar) :
    Closed ts := fun t ht => by
  cases t with
  | semicolon => exact absurd ht hsemi
  | bar => exact absurd ht hbar
  | _ => rfl

theorem closed_pattern {depth : Nat} {p : Pattern} (h : p.Spelled depth ts) : Closed ts := by
  have hatom {inner : Pattern → List Token → Prop} {p : Pattern} {ts : List Token}
      (h : Pattern.Atom inner p ts) : Closed ts := by
    cases h with
    | paren h => exact Closed.concat (.leftParen :: _) rfl
    | array h => exact Closed.concat (.leftBracket :: _) rfl
    | fields h => exact Closed.concat (.leftBrace :: _) rfl
    | tuple h => exact Closed.concat (.leftBrace :: _) rfl
    | noItems => exact Closed.concat [.leftBracket] rfl
    | noFields => exact Closed.concat [.leftBrace] rfl
    | _ => exact Closed.concat [] rfl
  cases depth with
  | zero => exact h.elim
  | succ depth =>
      cases h with
      | bare h => exact hatom h
      | dots h => exact .concat _ rfl

theorem closed_source {s : Source} (h : s.Spelled ts) : Closed ts := by
  cases h with
  | factId id => exact Closed.concat [.dollar] rfl
  | prim hname h => exact (closed_pattern h).cons rfl
  | predicate hname hversion h =>
      refine Closed.cons rfl ?_
      cases h with
      | bare => rintro _ ⟨⟩
      | keyed h => exact closed_pattern h
      | valued hkey hvalue => exact (closed_pattern hkey).append ((closed_pattern hvalue).cons rfl)
  | expr h hname => exact closed_pattern h

theorem closed_statement (h : s.Spelled ts) : Closed ts := by
  cases h with
  | alone h => exact closed_source h
  | bound hfirst hp hs => exact (closed_source hfirst).append ((closed_source hs).cons rfl)

/-- A turn of the loop, where a separator and a statement are next. -/
theorem more_step (ht : separates t = true) (hs : s.Spelled ts) (hpasses : c.Passes (t :: ts) c')
    (hclose : Statement.closes c'.peek = true) (n : Nat) :
    parse.more (n + 1) c = (do return s :: (← parse.more n)) c' := by
  obtain ⟨hpeek, -, hpasses⟩ := passes_cons_iff.mp hpasses
  have hread := Statement.parse_complete hs hpasses hclose
  have hstatement : (do return (← Statement.parse) :: (← parse.more n) : Parse _) c.advance =
      (do return s :: (← parse.more n)) c' := by
    show (Statement.parse c.advance >>= _) = _
    rw [hread]
    rfl
  obtain ⟨t, us, rfl, hstart⟩ := hs.head
  rw [parse.more, parseSeparator_bind, hpeek, if_pos ht, if_pos rfl, peek_bind, hpasses.peek]
  cases t with
  | endOfInput => cases hstart
  | rightBrace => cases hstart
  | _ => exact hstatement

/-- The loop goes on with what comes after the statements that it has read. -/
theorem Rest.continues (h : Rest ss us) (hlast : Closed us) (hpasses : d.Passes us d')
    (hclose : Statement.closes d'.peek = true) (hm : us.length ≤ m) :
    ∃ k, m ≤ us.length + k ∧ ∀ r e, parse.more m d = .ok (r, e) ↔
      ∃ more, parse.more k d' = .ok (more, e) ∧ r = ss ++ more := by
  induction h generalizing d m with
  | none =>
      obtain rfl := passes_nil_iff.mp hpasses
      exact ⟨m, by simp, by simp⟩
  | last ht => cases ht.symm.trans (hlast _ rfl)
  | @more t s ss ts us ht hs h ih =>
      have hpasses : d.Passes ((t :: ts) ++ us) d' := hpasses
      obtain ⟨d₁, hts, hrest⟩ := hpasses.split
      cases m with
      | zero => cases hm
      | succ m =>
          simp only [List.length_cons, List.length_append] at hm ⊢
          have hlast : Closed ((t :: ts) ++ us) := hlast
          obtain ⟨k, hk, hmore⟩ := ih hlast.of_append hrest (m := m) (by omega)
          refine ⟨k, by omega, fun r e => ?_⟩
          rw [more_step ht hs hts (h.closes hrest hclose), bind_ok_iff]
          constructor
          · rintro ⟨rs, e, hrs, hout⟩
            cases hout
            obtain ⟨more, hmore, rfl⟩ := (hmore _ _).mp hrs
            exact ⟨more, hmore, rfl⟩
          · rintro ⟨more, hread, rfl⟩
            exact ⟨_, e, (hmore _ _).mpr ⟨more, hread, rfl⟩, rfl⟩

/-- No statement starts with what comes after one. -/
theorem not_parse_of_closes (hends : c.Ends) (hclose : Statement.closes c.peek = true)
    (r : Statement × Cursor) : Statement.parse c ≠ .ok r := by
  intro hread
  obtain ⟨ts, hs, hpasses⟩ := Statement.parse_sound c r.1 r.2 hends hread
  obtain ⟨t, us, rfl, hstart⟩ := hs.head
  rw [hpasses.peek, List.head?_cons, Option.getD_some, hstart] at hclose
  cases hclose

/-- Where a separator stands behind the last statement already, no other can stand. -/
theorem Rest.stuck (h : Rest ss us) (hlast : ¬ Closed us) (hpasses : d.Passes us d')
    (hends : d'.Ends) (hsemi : d'.peek = .semicolon) (hm : us.length ≤ m)
    (r : List Statement × Cursor) :
    parse.more m d ≠ .ok r := by
  induction h generalizing d m r with
  | none => exact absurd (fun _ h => by cases h) hlast
  | @last t ht =>
      obtain ⟨hpeek, rfl⟩ := hpasses.one
      cases m with
      | zero => cases hm
      | succ m =>
          rw [parse.more, parseSeparator_bind, hpeek, if_pos ht, if_pos rfl, peek_bind, hsemi]
          intro hread
          obtain ⟨s, c, hs, -⟩ := bind_ok_iff.mp hread
          exact not_parse_of_closes hends (by rw [hsemi]; rfl) _ hs
  | @more t s ss ts us ht hs h ih =>
      have hpasses : d.Passes ((t :: ts) ++ us) d' := hpasses
      obtain ⟨d₁, hts, hrest⟩ := hpasses.split
      have hopen : ¬ Closed us := fun hus => by
        obtain ⟨u, ts, rfl, -⟩ := hs.head
        have hts := closed_statement hs
        have hclosed : Closed (t :: u :: ts) := hts
        exact hlast (hclosed.append hus)
      cases m with
      | zero => cases hm
      | succ m =>
          simp only [List.length_cons, List.length_append] at hm
          rw [more_step ht hs hts (h.closes hrest (by rw [hsemi]; rfl))]
          intro hread
          obtain ⟨rs, e, hrs, -⟩ := bind_ok_iff.mp hread
          exact ih hopen hrest (by omega) _ hrs

theorem Spelled.ne_nil (h : q.Spelled us) : us ≠ [] := by
  cases h with
  | mk hs hss =>
      obtain ⟨t, ts, rfl, -⟩ := hs.head
      simp

theorem Spelled.continues (h : q.Spelled us) (hlast : Closed us) (hpasses : d.Passes us d')
    (hclose : Statement.closes d'.peek = true) :
    ∃ k, d'.rest.length ≤ k ∧ ∀ r e, Query.parse d = .ok (r, e) ↔
      ∃ more, parse.more k d' = .ok (more, e) ∧ r = ⟨q.statements ++ more⟩ := by
  cases h with
  | @mk s ss ts us hs hss =>
      obtain ⟨d₁, hts, hrest⟩ := hpasses.split
      have hlength := hrest.length
      obtain ⟨k, hk, hmore⟩ :=
        hss.continues hlast.of_append hrest hclose (m := d₁.rest.length) (by omega)
      refine ⟨k, by omega, fun r e => ?_⟩
      have hread := Statement.parse_complete hs hts (hss.closes hrest hclose)
      rw [Query.parse, bind_ok_iff]
      constructor
      · rintro ⟨s', c, hs', hr⟩
        cases hread.symm.trans hs'
        rw [remaining_bind] at hr
        obtain ⟨rs, e, hrs, hout⟩ := bind_ok_iff.mp hr
        cases hout
        obtain ⟨more, hmore, rfl⟩ := (hmore _ _).mp hrs
        exact ⟨more, hmore, rfl⟩
      · rintro ⟨more, hread', rfl⟩
        refine ⟨s, d₁, hread, ?_⟩
        rw [remaining_bind]
        exact bind_ok_iff.mpr ⟨_, e, (hmore _ _).mpr ⟨more, hread', rfl⟩, rfl⟩

theorem Spelled.stuck (h : q.Spelled us) (hlast : ¬ Closed us) (hpasses : d.Passes us d')
    (hends : d'.Ends) (hsemi : d'.peek = .semicolon) (r : Query × Cursor) :
    Query.parse d ≠ .ok r := by
  cases h with
  | @mk s ss ts us hs hss =>
      obtain ⟨d₁, hts, hrest⟩ := hpasses.split
      have hlength := hrest.length
      have hopen : ¬ Closed us := fun hus => hlast ((closed_statement hs).append hus)
      have hread := Statement.parse_complete hs hts (hss.closes hrest (by rw [hsemi]; rfl))
      intro hr
      obtain ⟨s', c, hs', hr⟩ := bind_ok_iff.mp hr
      cases hread.symm.trans hs'
      rw [remaining_bind] at hr
      obtain ⟨rs, e, hrs, -⟩ := bind_ok_iff.mp hr
      exact hss.stuck hopen hrest hends hsemi (by omega) _ hrs

/-- In front of a closing brace a semicolon is taken, and it changes nothing. -/
theorem Spelled.semicolon_brace (h : q.Spelled us) (hlast : Closed us) (hpasses : d.Passes us d')
    (hends : d'.Ends) (hsemi : d'.peek = .semicolon) (hbrace : d'.advance.peek = .rightBrace) :
    Query.parse d = .ok (q, d'.advance) := by
  obtain ⟨k, hk, hparse⟩ := h.continues hlast hpasses (by rw [hsemi]; rfl)
  refine (hparse _ _).mpr ⟨[], ?_, by simp⟩
  have := (hends.pass hsemi (by decide)).length
  cases k with
  | zero =>
      rw [List.length_singleton] at this
      omega
  | succ k =>
      have hseparates : separates .semicolon = true := rfl
      rw [parse.more, parseSeparator_bind, hsemi, if_pos hseparates, if_pos rfl, peek_bind, hbrace]
      rfl

/-! ### In front of the next item of a schema -/

/-- The words that items of a schema start with: names of predicates, where a source is read. -/
def itemKeywords : List String := ["import", "type", "predicate"]

theorem of_mem_itemKeywords : ∀ kw ∈ itemKeywords, Source.primName? kw = none ∧
    Pattern.startsWith (.name kw) = false ∧ splitVersion kw = (kw, none) := by
  decide

/-- A source that starts with a keyword is a predicate. -/
theorem source_of_itemKeyword {kw : String} (hkw : kw ∈ itemKeywords) {s : Source}
    (hs : s.Spelled (.name kw :: ts)) :
    ∃ key value, s = .predicate kw none key value ∧ Source.Clause key value ts := by
  obtain ⟨hprim, hstart, hversion⟩ := of_mem_itemKeywords kw hkw
  cases hs with
  | prim hname h => cases hname.symm.trans hprim
  | predicate hname hver hclause =>
      cases hver.symm.trans hversion
      exact ⟨_, _, rfl, hclause⟩
  | expr h hname =>
      obtain ⟨t, us, heq, ht⟩ := h.startsWith
      cases heq
      cases ht.symm.trans hstart

theorem statement_of_itemKeyword {kw : String} (hkw : kw ∈ itemKeywords)
    (hs : s.Spelled (.name kw :: ts)) : ∃ key value, Source.Clause key value ts := by
  obtain ⟨-, hstart, -⟩ := of_mem_itemKeywords kw hkw
  generalize hus : Token.name kw :: ts = us at hs
  cases hs with
  | alone h =>
      obtain ⟨key, value, -, h⟩ := source_of_itemKeyword hkw (hus ▸ h)
      exact ⟨key, value, h⟩
  | @bound first s p ts us hfirst hp hs =>
      -- such a source is no pattern, so no statement binds it
      obtain ⟨t, ts, rfl, -⟩ := hfirst.head
      obtain ⟨rfl, rfl⟩ := List.cons.inj hus
      obtain ⟨key, value, rfl, -⟩ := source_of_itemKeyword hkw hfirst
      rw [Pattern.startsWith_name, Bool.or_eq_false_iff] at hstart
      cases key <;> cases value <;> simp [Source.asPattern?, hstart.2] at hp

theorem parse_itemKeyword {kw n : String} (hkw : kw ∈ itemKeywords) (hends : c.Ends)
    (hpeek : c.peek = .name kw) (hname : c.advance.peek = .name n)
    (hnext : Pattern.startsWith (.name n) = true →
      c.advance.advance.peek = .colon ∨ c.advance.advance.peek = .equals)
    (hread : Statement.parse c = .ok (s, c')) :
    c' = c.advance ∨ c' = c.advance.advance ∧ Pattern.startsWith (.name n) = true := by
  obtain ⟨ts, hs, hpasses⟩ := Statement.parse_sound c s c' hends hread
  obtain ⟨t, ts, rfl, -⟩ := hs.head
  obtain ⟨rfl, -, hpasses⟩ := passes_cons_iff.mp hpasses
  rw [hpeek] at hs
  obtain ⟨key, value, hclause⟩ := statement_of_itemKeyword hkw hs
  -- a key pattern is the name, since neither a mark nor an arrow comes next
  have hnext (ht : Pattern.startsWith (.name n) = true) :
      c.advance.advance.peek ≠ .dots ∧ c.advance.advance.peek ≠ .arrow := by
    rcases hnext ht with h | h <;> rw [h] <;> decide
  have hkey {key : Pattern} {us : List Token} {c' : Cursor} (h : key.Spelled maxNesting us)
      (hpasses : c.advance.Passes us c') :
      Pattern.startsWith (.name n) = true ∧ c' = c.advance.advance := by
    obtain ⟨t, us, rfl, ht⟩ := h.startsWith
    obtain rfl : t = .name n := (hname.symm.trans hpasses.peek).symm
    obtain rfl | rfl := h.eq_name
    · exact ⟨ht, hpasses.one.2⟩
    · obtain ⟨-, -, hrest⟩ := passes_cons_iff.mp hpasses
      exact absurd hrest.one.1 (hnext ht).1
  cases hclause with
  | bare => exact .inl (passes_nil_iff.mp hpasses)
  | keyed h =>
      obtain ⟨ht, rfl⟩ := hkey h hpasses
      exact .inr ⟨rfl, ht⟩
  | valued h hvalue =>
      obtain ⟨c₁, hts, hrest⟩ := hpasses.split
      obtain ⟨ht, rfl⟩ := hkey h hts
      exact absurd (passes_cons_iff.mp hrest).1 (hnext ht).2

theorem more_of_not_separates (h : separates c.peek = false) (n : Nat) :
    parse.more n c = .ok ([], c) := by
  cases n with
  | zero => rfl
  | succ n =>
      rw [parse.more, parseSeparator_bind, h]
      rfl

/-- In front of an item a semicolon is taken, and the keyword of the item as a statement; at the
latest what stands behind the name of the item is left. -/
theorem Spelled.semicolon_keyword {kw n : String} {r : Query} (h : q.Spelled us)
    (hlast : Closed us) (hpasses : d.Passes us d') (hends : d'.Ends) (hsemi : d'.peek = .semicolon)
    (hkw : kw ∈ itemKeywords) (hpeek : d'.advance.peek = .name kw)
    (hname : d'.advance.advance.peek = .name n)
    (hnext : Pattern.startsWith (.name n) = true →
      d'.advance.advance.advance.peek = .colon ∨ d'.advance.advance.advance.peek = .equals)
    (hread : Query.parse d = .ok (r, c)) :
    c = d'.advance.advance ∨
      c = d'.advance.advance.advance ∧ (c.peek = .colon ∨ c.peek = .equals) := by
  obtain ⟨k, hk, hparse⟩ := h.continues hlast hpasses (by rw [hsemi]; rfl)
  obtain ⟨more, hmore, -⟩ := (hparse _ _).mp hread
  have hone := hends.pass hsemi (by decide)
  have hlength := hone.length
  rw [List.length_singleton] at hlength
  cases k with
  | zero => omega
  | succ k =>
      have hseparates : separates .semicolon = true := rfl
      rw [parse.more, parseSeparator_bind, hsemi, if_pos hseparates, if_pos rfl, peek_bind,
        hpeek] at hmore
      obtain ⟨s, c₁, hs, hmore⟩ := bind_ok_iff.mp hmore
      obtain ⟨ss, c₂, hss, hout⟩ := bind_ok_iff.mp hmore
      cases hout
      obtain rfl | ⟨rfl, hstart⟩ :=
        parse_itemKeyword hkw (hends.of_passes hone) hpeek hname hnext hs
      · rw [more_of_not_separates (by rw [hname]; rfl)] at hss
        cases hss
        exact .inl rfl
      · have hsep : separates d'.advance.advance.advance.peek = false := by
          rcases hnext hstart with h | h <;> rw [h] <;> rfl
        rw [more_of_not_separates hsep] at hss
        cases hss
        exact .inr ⟨rfl, hnext hstart⟩

end Query

end Factbase
