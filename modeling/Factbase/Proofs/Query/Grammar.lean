import Factbase.Proofs.Query.Patterns

/-!
# The grammar of queries

Which token lists spell a source, a statement and a query, and that the
parsers read exactly those, up to a token that can come next
(`Source.closes`, `Statement.closes`). So a text is read as a query if its
tokens spell it (`Query.read_ok_iff`).
-/

namespace Factbase

open Parse Cursor

namespace Source

/-! ## Sources -/

/-- What can stand after the name of a predicate: a key pattern, and a value pattern after it. -/
inductive Clause : Option Pattern → Option Pattern → List Token → Prop where
  | bare : Clause none none []
  | keyed {key : Pattern} {ts : List Token} (h : key.Spelled maxNesting ts) :
      Clause (some key) none ts
  | valued {key value : Pattern} {ts us : List Token} (hkey : key.Spelled maxNesting ts)
      (hvalue : value.Spelled maxNesting us) : Clause (some key) (some value) (ts ++ .arrow :: us)

/-- The tokens that spell a source. An expression that starts with a variable is none: the name
of the variable stands for a predicate there. -/
inductive Spelled : Source → List Token → Prop where
  | factId (id : UInt64) : Spelled (.factId id) [.dollar, .nat id]
  | prim {name function : String} {arg : Pattern} {ts : List Token}
      (hname : primName? name = some function) (h : arg.Spelled maxNesting ts) :
      Spelled (.prim function arg) (.name name :: ts)
  | predicate {name base : String} {version : Option UInt32} {key value : Option Pattern}
      {ts : List Token} (hname : primName? name = none ∧ isPredicateName name = true)
      (hversion : splitVersion name = (base, version)) (h : Clause key value ts) :
      Spelled (.predicate base version key value) (.name name :: ts)
  | expr {p : Pattern} {ts : List Token} (h : p.Spelled maxNesting ts)
      (hname : ∀ name, ts.head? = some (.name name) → isVariable name = false) :
      Spelled (.expr p) ts

variable {s : Source} {c c' : Cursor} {ts : List Token}

theorem isVariable_eq_false {name : String} (h : isPredicateName name = false) :
    isVariable name = false := by
  by_contra hvar
  rw [Bool.not_eq_false] at hvar
  have htrue : name ≠ "true" := by
    rintro rfl
    exact absurd hvar (by decide)
  have hfalse : name ≠ "false" := by
    rintro rfl
    exact absurd hvar (by decide)
  simp [isPredicateName, hvar, htrue, hfalse] at h

theorem expr_sound (hends : c.Ends) (hname : ∀ name, c.peek = .name name → isVariable name = false)
    (h : (do return .expr (← Pattern.parse) : Parse Source) c = .ok (s, c')) :
    ∃ ts, Spelled s ts ∧ c.Passes ts c' := by
  obtain ⟨p, c₁, hp, hout⟩ := bind_ok_iff.mp h
  cases hout
  obtain ⟨ts, hts, hpasses⟩ := Pattern.parseWithin_sound maxNesting c p c' hends hp
  refine ⟨ts, .expr hts fun name hhead => hname name ?_, hpasses⟩
  rw [hpasses.peek, hhead]
  rfl

theorem parse_sound : Sound parse Spelled := by
  intro c s c' hends h
  have hpattern := Pattern.parseWithin_sound maxNesting
  rw [parse, peek_bind] at h
  cases hpeek : c.peek with
  | dollar =>
      rw [hpeek] at h
      have hdollar := hends.pass hpeek (by decide)
      simp only [discard_take_bind, take_bind] at h
      cases hid : c.advance.peek with
      | nat id =>
          rw [hid] at h
          cases h
          exact ⟨_, .factId id, hdollar.trans ((hends.of_passes hdollar).pass hid (by simp))⟩
      | _ =>
          rw [hid] at h
          cases h
  | name name =>
      rw [hpeek] at h
      have hone := hends.pass hpeek (by simp)
      have hends₁ := hends.of_passes hone
      dsimp only at h
      cases hprim : primName? name with
      | some function =>
          rw [hprim] at h
          dsimp only at h
          rw [discard_take_bind] at h
          obtain ⟨arg, c₁, harg, hout⟩ := bind_ok_iff.mp h
          cases hout
          obtain ⟨ts, hts, hpasses⟩ := hpattern _ _ _ hends₁ harg
          exact ⟨_, .prim hprim hts, hone.trans hpasses⟩
      | none =>
          rw [hprim] at h
          dsimp only at h
          by_cases hname : isPredicateName name = true
          · rw [if_pos hname, discard_take_bind] at h
            have hpredicate {key value : Option Pattern} {ts : List Token}
                (hclause : Clause key value ts) (hpasses : c.advance.Passes ts c') :
                ∃ ts, Spelled (.predicate (splitVersion name).1 (splitVersion name).2 key value) ts ∧
                  c.Passes ts c' :=
              ⟨_, .predicate ⟨hprim, hname⟩ rfl hclause, hone.trans hpasses⟩
            rw [peek_bind] at h
            split at h
            · obtain ⟨key, c₁, hkey, h⟩ := bind_ok_iff.mp h
              obtain ⟨ts, hts, hpasses⟩ := hpattern _ _ _ hends₁ hkey
              rw [eat_bind] at h
              split at h
              · rename_i harrow
                obtain ⟨value, c₂, hvalue, hout⟩ := bind_ok_iff.mp h
                cases hout
                have hends₂ := hends₁.of_passes hpasses
                have harrow := hends₂.pass harrow (by decide)
                obtain ⟨us, hus, hrest⟩ := hpattern _ _ _ (hends₂.of_passes harrow) hvalue
                exact hpredicate (.valued hts hus) (hpasses.trans (harrow.trans hrest))
              · cases h
                exact hpredicate (.keyed hts) hpasses
            · cases h
              exact hpredicate .bare (.refl _)
          · rw [if_neg hname] at h
            refine expr_sound hends (fun other hother => ?_) h
            obtain rfl : other = name := Token.name.inj (hother.symm.trans hpeek)
            exact isVariable_eq_false (Bool.not_eq_true _ ▸ hname)
  | _ =>
      rw [hpeek] at h
      exact expr_sound hends (fun name hname => by rw [hpeek] at hname; cases hname) h

/-- What comes after a source. -/
def closes : Token → Bool
  | .equals | .semicolon | .bar | .rightBrace | .endOfInput => true
  | _ => false

theorem startsWith_eq_false {t : Token} (h : closes t = true) : Pattern.startsWith t = false := by
  cases t <;> first | rfl | cases h

theorem Spelled.head (h : Spelled s ts) : ∃ t us, ts = t :: us ∧ closes t = false := by
  cases h with
  | factId id => exact ⟨_, _, rfl, rfl⟩
  | prim hname h => exact ⟨_, _, rfl, rfl⟩
  | predicate hname hversion h => exact ⟨_, _, rfl, rfl⟩
  | expr h hname =>
      obtain ⟨t, us, rfl, hstart⟩ := h.startsWith
      refine ⟨t, us, rfl, ?_⟩
      by_contra hclose
      rw [Bool.not_eq_false] at hclose
      rw [startsWith_eq_false hclose] at hstart
      cases hstart

/-- A name that starts an expression is a truth value. -/
theorem not_isPredicateName (h : Pattern.startsWith (.name name) = true)
    (hvar : isVariable name = false) : primName? name = none ∧ isPredicateName name = false := by
  rw [Pattern.startsWith_name, hvar, Bool.or_false, Bool.or_eq_true, decide_eq_true_eq,
    decide_eq_true_eq] at h
  obtain rfl | rfl := h <;> exact ⟨by decide, by decide⟩

theorem parse_complete (h : Spelled s ts) (hpasses : c.Passes ts c')
    (hclose : closes c'.peek = true) : parse c = .ok (s, c') := by
  have hpattern := Pattern.parseWithin_complete maxNesting
  have hdots {ts : List Token} : c'.peek = .dots → ts.getLast? = some .dots := fun h => by
    rw [h] at hclose
    cases hclose
  rw [parse, peek_bind]
  cases h with
  | factId id =>
      obtain ⟨hpeek, -, hend⟩ := passes_cons_iff.mp hpasses
      obtain ⟨hid, rfl⟩ := hend.one
      rw [hpeek]
      simp only [discard_take_bind, take_bind]
      rw [hid]
      rfl
  | prim hname harg =>
      obtain ⟨hpeek, -, hpasses⟩ := passes_cons_iff.mp hpasses
      rw [hpeek]
      dsimp only
      rw [hname]
      dsimp only
      rw [discard_take_bind]
      exact bind_ok_iff.mpr ⟨_, c', hpattern _ _ _ _ harg hpasses hdots, rfl⟩
  | predicate hname hversion hclause =>
      obtain ⟨hpeek, -, hpasses⟩ := passes_cons_iff.mp hpasses
      rw [hpeek]
      dsimp only
      rw [hname.1]
      dsimp only
      rw [if_pos hname.2, hversion, discard_take_bind, peek_bind]
      cases hclause with
      | bare =>
          obtain rfl := passes_nil_iff.mp hpasses
          rw [startsWith_eq_false hclose, if_neg Bool.false_ne_true]
          rfl
      | keyed hkey =>
          have harrow : c'.peek ≠ .arrow := fun h => by
            rw [h] at hclose
            cases hclose
          rw [if_pos (hkey.startsWith_peek hpasses)]
          refine bind_ok_iff.mpr ⟨_, c', hpattern _ _ _ _ hkey hpasses hdots, ?_⟩
          rw [eat_bind, if_neg harrow]
          rfl
      | valued hkey hvalue =>
          obtain ⟨c₁, hts, hpasses⟩ := hpasses.split
          obtain ⟨harrow, -, hpasses⟩ := passes_cons_iff.mp hpasses
          have hread := hpattern _ _ _ _ hkey hts fun h => by
            rw [harrow] at h
            cases h
          rw [if_pos (hkey.startsWith_peek hts)]
          refine bind_ok_iff.mpr ⟨_, c₁, hread, ?_⟩
          rw [eat_bind, if_pos harrow]
          exact bind_ok_iff.mpr ⟨_, c', hpattern _ _ _ _ hvalue hpasses hdots, rfl⟩
  | expr hp hname =>
      have hexpr : (do return .expr (← Pattern.parse) : Parse Source) c = .ok (_, c') :=
        bind_ok_iff.mpr ⟨_, c', hpattern _ _ _ _ hp hpasses hdots, rfl⟩
      obtain ⟨t, us, rfl, hstart⟩ := hp.startsWith
      rw [hpasses.peek]
      cases t with
      | name name =>
          obtain ⟨hprim, hpredicate⟩ := not_isPredicateName hstart (hname name rfl)
          dsimp only [List.head?_cons, Option.getD_some]
          rw [hprim]
          dsimp only
          rw [if_neg (by rw [hpredicate]; exact Bool.false_ne_true)]
          exact hexpr
      | dollar => cases hstart
      | _ => exact hexpr

end Source

/-! ## Statements -/

namespace Statement

/-- The tokens that spell a statement. -/
inductive Spelled : Statement → List Token → Prop where
  | alone {s : Source} {ts : List Token} (h : s.Spelled ts) : Spelled ⟨none, s.standalone⟩ ts
  | bound {first s : Source} {p : Pattern} {ts us : List Token} (hfirst : first.Spelled ts)
      (hp : first.asPattern? = some p) (hs : s.Spelled us) :
      Spelled ⟨some p, s⟩ (ts ++ .equals :: us)

variable {s : Statement} {c c' : Cursor} {ts : List Token}

theorem parse_sound : Sound parse Spelled := by
  intro c s c' hends h
  obtain ⟨first, c₁, hfirst, h⟩ := bind_ok_iff.mp h
  obtain ⟨ts, hts, hpasses⟩ := Source.parse_sound c first c₁ hends hfirst
  have hends₁ := hends.of_passes hpasses
  rw [eat_bind] at h
  split at h
  · rename_i hequals
    have hequals := hends₁.pass hequals (by decide)
    rw [if_pos rfl] at h
    cases hp : first.asPattern? with
    | none =>
        rw [hp] at h
        cases h
    | some p =>
        rw [hp] at h
        obtain ⟨s, c₂, hs, hout⟩ := bind_ok_iff.mp h
        cases hout
        obtain ⟨us, hus, hrest⟩ := Source.parse_sound _ s c' (hends₁.of_passes hequals) hs
        exact ⟨_, .bound hts hp hus, hpasses.trans (hequals.trans hrest)⟩
  · cases h
    exact ⟨ts, .alone hts, hpasses⟩

/-- What comes after a statement. -/
def closes : Token → Bool
  | .semicolon | .bar | .rightBrace | .endOfInput => true
  | _ => false

theorem closes_source {t : Token} (h : closes t = true) : Source.closes t = true := by
  cases t <;> first | rfl | cases h

theorem Spelled.head (h : Spelled s ts) : ∃ t us, ts = t :: us ∧ closes t = false := by
  have hsource {s : Source} {ts : List Token} (h : s.Spelled ts) :
      ∃ t us, ts = t :: us ∧ closes t = false := by
    obtain ⟨t, us, rfl, ht⟩ := h.head
    refine ⟨t, us, rfl, ?_⟩
    by_contra hclose
    rw [Bool.not_eq_false] at hclose
    rw [closes_source hclose] at ht
    cases ht
  cases h with
  | alone h => exact hsource h
  | bound hfirst hp hs =>
      obtain ⟨t, us, rfl, ht⟩ := hsource hfirst
      exact ⟨t, _, rfl, ht⟩

theorem parse_complete (h : Spelled s ts) (hpasses : c.Passes ts c')
    (hclose : closes c'.peek = true) : parse c = .ok (s, c') := by
  have hclose' := closes_source hclose
  cases h with
  | alone h =>
      refine bind_ok_iff.mpr ⟨_, c', Source.parse_complete h hpasses hclose', ?_⟩
      rw [eat_bind, if_neg fun h => by rw [h] at hclose; cases hclose]
      rfl
  | bound hfirst hp hs =>
      obtain ⟨c₁, hts, hpasses⟩ := hpasses.split
      obtain ⟨hequals, -, hpasses⟩ := passes_cons_iff.mp hpasses
      have hread := Source.parse_complete hfirst hts (by rw [hequals]; rfl)
      refine bind_ok_iff.mpr ⟨_, c₁, hread, ?_⟩
      rw [eat_bind, if_pos hequals, if_pos rfl, hp]
      exact bind_ok_iff.mpr ⟨_, c', Source.parse_complete hs hpasses hclose', rfl⟩

end Statement

/-! ## Queries -/

namespace Query

/-- What stands between statements. -/
def separates : Token → Bool
  | .semicolon | .bar => true
  | _ => false

/-- The tokens that spell the statements after the first one. -/
inductive Rest : List Statement → List Token → Prop where
  | none : Rest [] []
  | last {t : Token} (ht : separates t = true) : Rest [] [t]
  | more {t : Token} {s : Statement} {ss : List Statement} {ts us : List Token}
      (ht : separates t = true) (hs : s.Spelled ts) (h : Rest ss us) : Rest (s :: ss) (t :: (ts ++ us))

/-- The tokens that spell a query. -/
inductive Spelled : Query → List Token → Prop where
  | mk {s : Statement} {ss : List Statement} {ts us : List Token} (hs : s.Spelled ts)
      (hss : Rest ss us) : Spelled ⟨s :: ss⟩ (ts ++ us)

variable {q : Query} {ss : List Statement} {c c' : Cursor} {ts us : List Token} {n : Nat}

theorem parseSeparator_bind {α : Type} {f : Bool → Parse α} :
    (Statement.parseSeparator >>= f) c =
      if separates c.peek then f true c.advance else f false c := by
  show (Statement.parseSeparator c >>= fun r => f r.1 r.2) = _
  rw [Statement.parseSeparator, eat_bind]
  cases hpeek : c.peek with
  | semicolon => rfl
  | bar => simp [hpeek, Parse.eat, separates, bind, Except.bind]
  | _ => simp [hpeek, Parse.eat, separates, bind, Except.bind]

theorem more_sound (hends : c.Ends) (h : parse.more n c = .ok (ss, c')) :
    ∃ ts, Rest ss ts ∧ c.Passes ts c' := by
  induction n generalizing c ss with
  | zero =>
      cases h
      exact ⟨[], .none, .refl _⟩
  | succ n ih =>
      rw [parse.more, parseSeparator_bind] at h
      split at h
      · rename_i ht
        have hone := hends.advance fun he => by
          rw [he] at ht
          cases ht
        have hends := hends.of_passes hone
        have hstatement : (do return (← Statement.parse) :: (← parse.more n) : Parse _) c.advance =
            .ok (ss, c') → ∃ ts, Rest ss ts ∧ c.Passes ts c' := by
          intro h
          obtain ⟨s, c₁, hs, h⟩ := bind_ok_iff.mp h
          obtain ⟨ss, c₂, hss, hout⟩ := bind_ok_iff.mp h
          cases hout
          obtain ⟨ts, hts, hpasses⟩ := Statement.parse_sound _ s c₁ hends hs
          obtain ⟨us, hus, hrest⟩ := ih (hends.of_passes hpasses) hss
          exact ⟨_, .more ht hts hus, hone.trans (hpasses.trans hrest)⟩
        rw [if_pos rfl, peek_bind] at h
        cases hpeek : c.advance.peek with
        | endOfInput =>
            rw [hpeek] at h
            cases h
            exact ⟨_, .last ht, hone⟩
        | rightBrace =>
            rw [hpeek] at h
            cases h
            exact ⟨_, .last ht, hone⟩
        | _ =>
            rw [hpeek] at h
            exact hstatement h
      · cases h
        exact ⟨[], .none, .refl _⟩

theorem parse_sound : Sound parse Spelled := by
  intro c q c' hends h
  obtain ⟨s, c₁, hs, h⟩ := bind_ok_iff.mp h
  obtain ⟨ts, hts, hpasses⟩ := Statement.parse_sound c s c₁ hends hs
  rw [remaining_bind] at h
  obtain ⟨ss, c₂, hss, hout⟩ := bind_ok_iff.mp h
  cases hout
  obtain ⟨us, hus, hrest⟩ := more_sound (hends.of_passes hpasses) hss
  exact ⟨_, .mk hts hus, hpasses.trans hrest⟩

theorem Rest.closes (h : Rest ss us) (hpasses : c.Passes us c')
    (hclose : Statement.closes c'.peek = true) : Statement.closes c.peek = true := by
  have hseparator {t : Token} (ht : separates t = true) : Statement.closes t = true := by
    revert ht
    cases t <;> first | exact fun _ => rfl | exact id
  cases h with
  | none =>
      obtain rfl := passes_nil_iff.mp hpasses
      exact hclose
  | last ht =>
      rw [hpasses.peek]
      exact hseparator ht
  | more ht hs h =>
      rw [hpasses.peek]
      exact hseparator ht

/-- The loop has turns enough: each takes a token at least. -/
theorem more_complete (h : Rest ss us) (hpasses : c.Passes us c') (hend : c'.peek = .endOfInput)
    (hn : us.length ≤ n) : parse.more n c = .ok (ss, c') := by
  induction h generalizing c n with
  | none =>
      obtain rfl := passes_nil_iff.mp hpasses
      cases n with
      | zero => rfl
      | succ n =>
          rw [parse.more, parseSeparator_bind, hend]
          rfl
  | last ht =>
      obtain ⟨hpeek, rfl⟩ := hpasses.one
      cases n with
      | zero => cases hn
      | succ n =>
          rw [parse.more, parseSeparator_bind, hpeek, if_pos ht, if_pos rfl, peek_bind, hend]
          rfl
  | more ht hs h ih =>
      obtain ⟨hpeek, -, hpasses⟩ := passes_cons_iff.mp hpasses
      obtain ⟨c₁, hts, hrest⟩ := hpasses.split
      cases n with
      | zero => cases hn
      | succ n =>
          have hclose := h.closes hrest (by rw [hend]; rfl)
          have hread := Statement.parse_complete hs hts hclose
          have hmore := ih hrest (n := n) (by
            simp only [List.length_cons, List.length_append] at hn
            omega)
          have hstatement :
              (do return (← Statement.parse) :: (← parse.more n) : Parse _) c.advance = .ok (_, c') :=
            bind_ok_iff.mpr ⟨_, c₁, hread, bind_ok_iff.mpr ⟨_, c', hmore, rfl⟩⟩
          obtain ⟨t, us, rfl, hstart⟩ := hs.head
          rw [parse.more, parseSeparator_bind, hpeek, if_pos ht, if_pos rfl, peek_bind, hts.peek]
          cases t with
          | endOfInput => cases hstart
          | rightBrace => cases hstart
          | _ => exact hstatement

theorem parse_complete (h : q.Spelled ts) (hpasses : c.Passes ts c')
    (hend : c'.peek = .endOfInput) : parse c = .ok (q, c') := by
  cases h with
  | mk hs hss =>
      obtain ⟨c₁, hts, hrest⟩ := hpasses.split
      have hclose := hss.closes hrest (by rw [hend]; rfl)
      have hlength := hrest.length
      refine bind_ok_iff.mpr ⟨_, c₁, Statement.parse_complete hs hts hclose, ?_⟩
      rw [remaining_bind]
      exact bind_ok_iff.mpr ⟨_, c', more_complete hss hrest hend (by omega), rfl⟩

/-! ### Texts -/

theorem read_ok_iff_parse {text : String} :
    Query.read text = .ok q ↔ text.utf8ByteSize ≤ maxQueryBytes ∧
      ∃ c, Cursor.ofText text = .ok c ∧ ∃ c', parse c = .ok (q, c') ∧ c'.peek = .endOfInput := by
  rw [Query.read]
  by_cases hsize : text.utf8ByteSize > maxQueryBytes
  · rw [if_pos hsize]
    exact ⟨fun h => (by cases h), fun ⟨h, _⟩ => absurd h (by omega)⟩
  · rw [if_neg hsize]
    constructor
    · intro h
      obtain ⟨c, hc, h⟩ := Outcome.bind_ok_iff.mp h
      obtain ⟨⟨q', c'⟩, hparse, h⟩ := Outcome.bind_ok_iff.mp h
      dsimp only at h
      cases hend : c'.peek with
      | endOfInput =>
          rw [hend] at h
          cases h
          exact ⟨by omega, c, hc, c', hparse, hend⟩
      | _ =>
          rw [hend] at h
          cases h
    · rintro ⟨-, c, hc, c', hparse, hend⟩
      refine Outcome.bind_ok_iff.mpr ⟨c, hc, Outcome.bind_ok_iff.mpr ⟨(q, c'), hparse, ?_⟩⟩
      dsimp only
      rw [hend]
      rfl

/-- A text is read as a query if its tokens spell it. -/
theorem read_ok_iff {text : String} :
    Query.read text = .ok q ↔ text.utf8ByteSize ≤ maxQueryBytes ∧
      ∃ ts, lexemes text.toList = some (ts ++ [.endOfInput]) ∧ q.Spelled ts := by
  rw [read_ok_iff_parse]
  refine and_congr_right fun _ => ⟨?_, ?_⟩
  · rintro ⟨c, hc, c', hparse, hend⟩
    have hlexemes := tokens_ofText_iff.mp ⟨c, hc, rfl⟩
    obtain ⟨init, hinit, hlegal⟩ := legal_of_lexemes hlexemes
    obtain ⟨ts, hts, hpasses⟩ := parse_sound c q c' ⟨init, hinit⟩ hparse
    obtain rfl : init = ts := by
      rw [hpasses.tokens_eq, Cursor.tokens, ← Cursor.peek, hend] at hinit
      -- the end of input is none of the tokens before the last one
      have hnone : Token.endOfInput ∉ init := hlegal _
      exact ((List.append_cons_inj_of_notMem hnone List.not_mem_nil).mp hinit.symm).1
    exact ⟨init, hlexemes.trans (congrArg some hinit), hts⟩
  · rintro ⟨ts, hlexemes, hts⟩
    obtain ⟨c, hc, htokens⟩ := tokens_ofText_iff.mpr hlexemes
    obtain ⟨c', hpasses, hc'⟩ := exists_passes htokens (by simp)
    have hend : c'.peek = .endOfInput := (List.cons.inj hc').1
    exact ⟨c, hc, c', parse_complete hts hpasses hend, hend⟩

end Query

end Factbase
