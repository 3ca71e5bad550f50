import Factbase.Proofs.Schema.Entries
import Factbase.Proofs.Source.Cutting

/-!
# Semicolons between the entries of a schema

A text is taken with a semicolon more, right behind an entry that has
none. What comes before is read again, since the same tokens follow
there, and what comes after, since the same tokens are left; so the
entry decides (`Rereads`). It is found among those that the parsers read
one after the other (`Lists`, `Declares`), and each import and each item
of the result is one of them (`SchemaDecl.exists_entryEnds`).

A semicolon is optional behind entries of all kinds but one: behind a
derived predicate it is refused, unless the closing brace comes next
(`SchemaDecl.readAll_semicolon`).
-/

namespace Factbase

open Parse Cursor

/-! ## Declarations -/

namespace SchemaDecl

variable {c c' d : Cursor}

theorem parseItems_succ (n : Nat) : parseItems (n + 1) = do
    if ← Parse.eat .rightBrace then return ([], [])
    let e ← SchemaEntry.parseTerminated
    let r ← parseItems n
    return e.onto r := by
  rw [parseItems, SchemaEntry.parseTerminated, SchemaEntry.parse]
  refine bind_congr fun b => ?_
  cases b with
  | true => rfl
  | false =>
      simp only [Bool.false_eq_true, if_false, bind_assoc]
      refine bind_congr fun b => ?_
      cases b with
      | true => simp only [if_true, bind_assoc, pure_bind]; rfl
      | false => simp only [Bool.false_eq_true, if_false, bind_assoc, pure_bind]; rfl

theorem solidLoop_parseItems : SolidLoop parseItems := by
  intro n
  induction n with
  | zero => exact fun _ _ _ _ _ hread => by cases hread
  | succ n ih =>
      intro c r c' hends hn hread
      rw [parseItems_succ, eat_bind] at hread
      split at hread
      · rename_i hbrace
        cases hread
        refine ⟨[.rightBrace], by simp, hends.pass hbrace (by decide), fun m hm d d' hpasses _ => ?_⟩
        obtain ⟨hpeek, rfl⟩ := hpasses.one
        cases m with
        | zero => cases hm
        | succ m =>
            rw [parseItems_succ, eat_bind, if_pos hpeek]
            rfl
      · rename_i hbrace
        obtain ⟨e, c₁, he, hread⟩ := bind_ok_iff.mp hread
        obtain ⟨rest, c₂, hrest, hout⟩ := bind_ok_iff.mp hread
        cases hout
        obtain ⟨ts, hne, hts, hreads⟩ := SchemaEntry.advances_parseTerminated c e c₁ hends he
        have hlength := hts.length
        have hpos := List.length_pos_of_ne_nil hne
        obtain ⟨us, hneus, hus, hmore⟩ := ih c₁ rest c' (hends.of_passes hts) (by omega) hrest
        refine ⟨ts ++ us, by simp [hne], hts.trans hus, fun m hm d d' hpasses hnext => ?_⟩
        rw [List.length_append] at hm
        cases m with
        | zero => omega
        | succ m =>
            obtain ⟨d₁, hd₁, hd'⟩ := hpasses.split
            have hsame : d.peek = c.peek := peek_of_passes hts hne hd₁.tokens_eq
            have hnext₁ : d₁.peek = c₁.peek := peek_of_passes hus hneus hd'.tokens_eq
            rw [parseItems_succ, eat_bind, if_neg (hsame ▸ hbrace)]
            exact bind_ok_iff.mpr ⟨e, d₁, hreads d d₁ hd₁ hnext₁,
              bind_ok_iff.mpr ⟨rest, d', hmore m (by omega) d₁ d' hd' hnext, rfl⟩⟩

theorem steadyLoop_parseItems : SteadyLoop parseItems := solidLoop_parseItems.steady

theorem parseInherits_eq_turns (n : Nat) : parseInherits n =
    after SchemaId.parse (turns (separated .comma (some <$> SchemaId.parse))) List.cons n := by
  induction n with
  | zero => rfl
  | succ n ih =>
      rw [parseInherits, ih, after, after, turns]
      generalize turns (separated .comma (some <$> SchemaId.parse)) n = more
      refine bind_congr fun first => ?_
      simp only [separated, bind_assoc]
      refine bind_congr fun b => ?_
      cases b with
      | true => simp only [if_true, map_eq_pure_bind, bind_assoc, pure_bind]
      | false => rfl

theorem firmLoop_parseInherits : FirmLoop (· ≠ .comma) parseInherits := by
  rw [funext parseInherits_eq_turns]
  exact .after (SchemaId.solid_parse.firm _) (firmLoop_separated (by decide) (fun _ h => h)
    ((SchemaId.solid_parse.bind fun id => .pure _).firm _))

/-- A declaration, up to the brace in front of its entries. -/
def parseHead : Parse (SchemaId × List SchemaId) := do
  Parse.expectKeyword "schema"
  let id ← SchemaId.parse
  let inherits ←
    if ← Parse.eat .colon then do parseInherits (← Parse.remaining) else pure []
  Parse.expect .leftBrace
  return (id, inherits)

theorem parse_eq : SchemaDecl.parse = do
    let head ← parseHead
    let r ← parseItems (← Parse.remaining)
    return ⟨head.1.name, head.1.version, head.2, r.1, r.2⟩ := by
  rw [SchemaDecl.parse, parseHead]
  simp only [bind_assoc]
  refine bind_congr fun _ => bind_congr fun id => bind_congr fun b => ?_
  cases b with
  | true => simp only [if_true, bind_assoc, pure_bind]
  | false => simp only [Bool.false_eq_true, if_false, bind_assoc, pure_bind]

theorem solid_parseHead : Solid parseHead := by
  have hend (id : SchemaId) (inherits : List SchemaId) : Solid (do
      Parse.expect .leftBrace
      return (id, inherits)) := (Solid.expect (by decide)).bind fun _ => .pure _
  refine (Solid.expectKeyword _).bind fun _ => (SchemaId.solid_parse.bind fun id =>
    (Solid.after (steady_eat (by decide)) fun b => ?_).loose).loose
  cases b with
  | true => exact firmLoop_parseInherits.steady.solid_bind fun inherits => hend id inherits
  | false => exact hend id []

theorem solid_parse : Solid SchemaDecl.parse := by
  rw [parse_eq]
  refine solid_parseHead.bind fun head => ?_
  have hitems : Solid (do
      let r ← Parse.remaining >>= parseItems
      return SchemaDecl.mk head.1.name head.1.version head.2 r.1 r.2) :=
    solidLoop_parseItems.solid.bind fun _ => .pure _
  exact bind_assoc Parse.remaining parseItems _ ▸ hitems.loose

theorem advances_parse : Advances SchemaDecl.parse := solid_parse.advances

/-- A declaration, if there is one. -/
def parseNext : Parse (Option SchemaDecl) := do
  if (← Parse.peek) = .endOfInput then return none
  return some (← SchemaDecl.parse)

theorem parseAll_eq_turns (n : Nat) : parseAll n = turns parseNext n := by
  induction n with
  | zero => rfl
  | succ n ih =>
      rw [parseAll, turns, ih]
      generalize turns parseNext n = more
      rw [parseNext, bind_assoc]
      refine bind_congr fun t => ?_
      split <;> simp only [bind_assoc, pure_bind]

theorem parseNext_end (h : c.peek = .endOfInput) : parseNext c = .ok (none, c) := by
  rw [parseNext, peek_bind, if_pos h]
  rfl

theorem parseNext_decl (h : c.peek ≠ .endOfInput) :
    parseNext c = (do return some (← SchemaDecl.parse)) c := by
  rw [parseNext, peek_bind, if_neg h]

theorem firm_parseNext : Firm (· = .endOfInput) parseNext :=
  .unless (fun _ => parseNext_end) (fun _ => parseNext_decl) (fun _ h => h)
    ((solid_parse.firm _).bind fun _ => (Loose.pure _).firm _)
    (advances_parse.bind fun _ => (Loose.pure _).steady)

theorem parseNext_moves {c' : Cursor} {decl : SchemaDecl} (hends : c.Ends)
    (hread : parseNext c = .ok (some decl, c')) : c'.rest.length < c.rest.length := by
  rw [parseNext, peek_bind] at hread
  split at hread
  · cases hread
  · obtain ⟨d, c₁, hd, hout⟩ := bind_ok_iff.mp hread
    cases hout
    exact advances_parse.length_lt hends hd

theorem firmLoop_parseAll : FirmLoop (· = .endOfInput) parseAll :=
  funext parseAll_eq_turns ▸ firmLoop_turns firm_parseNext (fun _ => parseNext_end)
    (fun _ _ _ => parseNext_moves) fun _ => parseNext_end

theorem steadyLoop_parseAll : SteadyLoop parseAll := firmLoop_parseAll.steady

/-! ## Entries of a text -/

/-- Among the entries that are read from a cursor on, up to a closing brace, there is one with these
tokens and the cursor behind it. -/
inductive Lists : Cursor → SchemaEntry → List Token → Cursor → Prop where
  | first {c c' : Cursor} {e : SchemaEntry} {ts : List Token}
      (hread : SchemaEntry.parse c = .ok (e, c')) (hpasses : c.Passes ts c') : Lists c e ts c'
  | later {c c₁ c' : Cursor} {e e' : SchemaEntry} {ts : List Token}
      (hread : SchemaEntry.parseTerminated c = .ok (e', c₁)) (h : Lists c₁ e ts c') :
      Lists c e ts c'

/-- Among the declarations that are read from a cursor on there is one with the entry. -/
inductive Declares : Cursor → SchemaEntry → List Token → Cursor → Prop where
  | first {c c₁ c' : Cursor} {head : SchemaId × List SchemaId} {e : SchemaEntry} {ts : List Token}
      (hread : parseHead c = .ok (head, c₁)) (h : Lists c₁ e ts c') : Declares c e ts c'
  | later {c c₁ c' : Cursor} {decl : SchemaDecl} {e : SchemaEntry} {ts : List Token}
      (hread : SchemaDecl.parse c = .ok (decl, c₁)) (h : Declares c₁ e ts c') : Declares c e ts c'

variable {e : SchemaEntry} {ts us : List Token} {c'' : Cursor}

theorem Lists.passes (h : Lists c e ts c') (hends : c.Ends) :
    ∃ front, c.Passes (front ++ ts) c' ∧ ts ≠ [] := by
  induction h with
  | first hread hpasses =>
      obtain ⟨us, hne, hus, -⟩ := SchemaEntry.advances_parse _ _ _ hends hread
      obtain rfl := passes_unique hus hpasses
      exact ⟨[], hpasses, hne⟩
  | later hread h ih =>
      obtain ⟨us, -, hus, -⟩ := SchemaEntry.advances_parseTerminated _ _ _ hends hread
      obtain ⟨front, hfront, hne⟩ := ih (hends.of_passes hus)
      exact ⟨us ++ front, List.append_assoc .. ▸ hus.trans hfront, hne⟩

/-! ## A semicolon more -/

/-- Where a semicolon more stands than up to `c''`, a parser reads the same if it is admitted, and
nothing if not. -/
structure Rereads {α : Type} (admitted : Bool) (p : Parse α) (x : α) (c'' d : Cursor) : Prop where
  same : admitted = true → ∃ d', p d = .ok (x, d') ∧ d'.tokens = c''.tokens
  refused : admitted = false → ∀ r, p d ≠ .ok r

namespace Rereads

variable {α β : Type} {admitted : Bool} {p : Parse α} {f : α → Parse β} {x : α} {y : β}
  {c₁ d₁ : Cursor}

theorem congr {q : Parse α} (hpq : p d = q d) (h : Rereads admitted q x c'' d) :
    Rereads admitted p x c'' d where
  same hadmitted := hpq ▸ h.same hadmitted
  refused hadmitted r := hpq ▸ h.refused hadmitted r

/-- The semicolon stands behind what is read first. -/
theorem after (hp : p d = .ok (x, d₁)) (h : Rereads admitted (f x) y c'' d₁) :
    Rereads admitted (p >>= f) y c'' d where
  same hadmitted := by
    obtain ⟨d', hd', htokens⟩ := h.same hadmitted
    exact ⟨d', bind_ok_iff.mpr ⟨x, d₁, hp, hd'⟩, htokens⟩
  refused hadmitted r hr := by
    obtain ⟨x', d₂, hx', hr⟩ := bind_ok_iff.mp hr
    cases hp.symm.trans hx'
    exact h.refused hadmitted _ hr

/-- The semicolon stands in what is read first. -/
theorem before (h : Rereads admitted p x c₁ d)
    (hf : ∀ d₁, p d = .ok (x, d₁) → d₁.tokens = c₁.tokens →
      ∃ d', f x d₁ = .ok (y, d') ∧ d'.tokens = c''.tokens) :
    Rereads admitted (p >>= f) y c'' d where
  same hadmitted := by
    obtain ⟨d₁, hd₁, htokens₁⟩ := h.same hadmitted
    obtain ⟨d', hd', htokens⟩ := hf d₁ hd₁ htokens₁
    exact ⟨d', bind_ok_iff.mpr ⟨x, d₁, hd₁, hd'⟩, htokens⟩
  refused hadmitted r hr := by
    obtain ⟨x', d₂, hx', -⟩ := bind_ok_iff.mp hr
    exact h.refused hadmitted _ hx'

theorem map (h : Rereads admitted p x c'' d) (g : α → β) :
    Rereads admitted (do return g (← p)) (g x) c'' d :=
  h.before fun d₁ _ htokens => ⟨d₁, rfl, htokens⟩

end Rereads

theorem ends_semicolon (hends : c.Ends) (hpasses : c.Passes us c')
    (hd : d.tokens = us ++ .semicolon :: c'.tokens) : d.Ends :=
  ends_of_tokens (us ++ [Token.semicolon]) (hends.of_passes hpasses) (by rw [hd]; simp)

theorem exists_turn {m : Nat} (hd : d.tokens = us ++ .semicolon :: c'.tokens)
    (hm : d.rest.length ≤ m) : ∃ k, m = k + 1 := by
  have hlength := congrArg List.length hd
  simp only [tokens, List.length_cons, List.length_append, List.length_map] at hlength
  exact ⟨m - 1, by omega⟩

/-! ### In a schema -/

theorem parseItems_head {n : Nat} {r : (List SchemaId × List SchemaItem) × Cursor}
    (hread : parseItems n c = .ok r) : c.peek = .rightBrace ∨ ∃ r, SchemaEntry.parse c = .ok r := by
  cases n with
  | zero => cases hread
  | succ n =>
      rw [parseItems_succ, eat_bind] at hread
      split at hread
      · exact .inl ‹_›
      · obtain ⟨e, c₁, he, -⟩ := bind_ok_iff.mp hread
        obtain ⟨c₂, he, -⟩ := SchemaEntry.parseTerminated_ok_iff.mp he
        exact .inr ⟨_, he⟩

/-- Where no brace stands the loop reads an entry. -/
theorem parseItems_entry (hbrace : c.peek ≠ .rightBrace) (n : Nat) : parseItems (n + 1) c =
    (do
      let e ← SchemaEntry.parseTerminated
      let r ← parseItems n
      return e.onto r : Parse (List SchemaId × List SchemaItem)) c := by
  rw [parseItems_succ, eat_bind, if_neg hbrace]
  rfl

theorem peek_ne_rightBrace {r : SchemaEntry × Cursor} (h : SchemaEntry.parse c = .ok r) :
    c.peek ≠ .rightBrace := by
  obtain ⟨kw, -, -, hkeyword, -⟩ := SchemaEntry.parse_head h
  rw [hkeyword]
  simp

/-- The loop at an entry: its turns are enough for what is left behind the entry. -/
theorem parseItems_cons {n : Nat} {r : List SchemaId × List SchemaItem} (hends : c.Ends)
    (h : SchemaEntry.parseTerminated c = .ok (e, c')) (hn : c.rest.length ≤ n)
    (hread : parseItems n c = .ok (r, c'')) :
    ∃ k rest, c'.rest.length ≤ k ∧ parseItems k c' = .ok (rest, c'') ∧ r = e.onto rest := by
  have hshorter := SchemaEntry.advances_parseTerminated.length_lt hends h
  obtain ⟨c₁, he, -⟩ := SchemaEntry.parseTerminated_ok_iff.mp h
  cases n with
  | zero => omega
  | succ n =>
      rw [parseItems_entry (peek_ne_rightBrace he)] at hread
      obtain ⟨e', c₂, he', hread⟩ := bind_ok_iff.mp hread
      cases h.symm.trans he'
      obtain ⟨rest, c₃, hrest, hout⟩ := bind_ok_iff.mp hread
      cases hout
      exact ⟨n, rest, by omega, hrest, rfl⟩

theorem rereads_parseItems {n m : Nat} {r : List SchemaId × List SchemaItem}
    (h : Lists c e ts c') (hends : c.Ends) (hread : parseItems n c = .ok (r, c''))
    (hn : c.rest.length ≤ n) (hpasses : c.Passes us c') (hlast : ts.getLast? ≠ some .semicolon)
    (hnext : c'.peek ≠ .semicolon) (hd : d.tokens = us ++ .semicolon :: c'.tokens)
    (hm : d.rest.length ≤ m) :
    Rereads (e.admits ts c'.peek) (parseItems m) r c'' d := by
  induction h generalizing n m r us d with
  | @first c c' e ts hentry hts =>
      have hendsd := ends_semicolon hends hpasses hd
      obtain ⟨m, rfl⟩ := exists_turn hd hm
      obtain rfl := passes_unique hpasses hts
      obtain ⟨-, -, hne⟩ := (Lists.first hentry hts).passes hends
      have hterminated : SchemaEntry.parseTerminated c = .ok (e, c') :=
        SchemaEntry.parseTerminated_ok_iff.mpr ⟨c', hentry, by rw [if_neg hnext]⟩
      obtain ⟨k, rest, hk, hrest, rfl⟩ := parseItems_cons hends hterminated hn hread
      have hbrace : d.peek ≠ .rightBrace := by
        rw [peek_of_passes hts hne hd]
        exact peek_ne_rightBrace hentry
      refine Rereads.congr (parseItems_entry hbrace m) ⟨fun hadmits => ?_, fun hadmits r hr => ?_⟩
      · obtain ⟨d₁, hd₁, htokens⟩ := SchemaEntry.terminated_semicolon hends hentry hts hlast hd hadmits
        have hless := SchemaEntry.advances_parseTerminated.length_lt hendsd hd₁
        obtain ⟨d', hd', htokens'⟩ := steadyLoop_parseItems.congr (hends.of_passes hts) hk hrest
          htokens (m := m) (by omega)
        exact ⟨d', bind_ok_iff.mpr ⟨e, d₁, hd₁, bind_ok_iff.mpr ⟨rest, d', hd', rfl⟩⟩, htokens'⟩
      · obtain ⟨e', d₁, hd₁, hr⟩ := bind_ok_iff.mp hr
        obtain ⟨rest', d₂, hrest', -⟩ := bind_ok_iff.mp hr
        obtain ⟨hbrace, hstuck⟩ := SchemaEntry.terminated_stuck hends hentry hts hlast
          (parseItems_head hrest) hd hadmits hd₁
        obtain h | ⟨r, h⟩ := parseItems_head hrest'
        · exact hbrace h
        · exact hstuck r h
  | @later c c₁ c' e e' ts hentry h ih =>
      have hendsd := ends_semicolon hends hpasses hd
      obtain ⟨m, rfl⟩ := exists_turn hd hm
      obtain ⟨us₁, hne₁, hus₁, -⟩ := SchemaEntry.advances_parseTerminated c e' c₁ hends hentry
      have hends₁ := hends.of_passes hus₁
      obtain ⟨front, hrest, hne⟩ := h.passes hends₁
      obtain rfl := passes_unique hpasses (hus₁.trans hrest)
      obtain ⟨k, rest, hk, hread', rfl⟩ := parseItems_cons hends hentry hn hread
      rw [List.append_assoc] at hd
      obtain ⟨d₁, hd₁, htokens⟩ := SchemaEntry.advances_parseTerminated.steady.again hends hentry
        hus₁ hd (head?_of_passes hrest (by simp [hne]) _)
      have hless := SchemaEntry.advances_parseTerminated.length_lt hendsd hd₁
      have hbrace : d.peek ≠ .rightBrace := by
        obtain ⟨c₂, he', -⟩ := SchemaEntry.parseTerminated_ok_iff.mp hentry
        rw [peek_of_passes hus₁ hne₁ hd]
        exact peek_ne_rightBrace he'
      have hmore := ih hends₁ hread' hk hrest hlast hnext htokens (m := m) (by omega)
      exact Rereads.congr (parseItems_entry hbrace m) (.after hd₁ (hmore.map e'.onto))

/-- The entries of a declaration are read behind its brace. -/
theorem rereads_parse {head : SchemaId × List SchemaId} {decl : SchemaDecl} {c₁ : Cursor}
    (hhead : parseHead c = .ok (head, c₁)) (h : Lists c₁ e ts c') (hends : c.Ends)
    (hread : SchemaDecl.parse c = .ok (decl, c'')) (hpasses : c.Passes us c')
    (hlast : ts.getLast? ≠ some .semicolon) (hnext : c'.peek ≠ .semicolon)
    (hd : d.tokens = us ++ .semicolon :: c'.tokens) :
    Rereads (e.admits ts c'.peek) SchemaDecl.parse decl c'' d := by
  obtain ⟨us₁, -, hus₁, -⟩ := solid_parseHead c head c₁ hends hhead
  have hends₁ := hends.of_passes hus₁
  obtain ⟨front, hrest, hne⟩ := h.passes hends₁
  obtain rfl := passes_unique hpasses (hus₁.trans hrest)
  rw [List.append_assoc] at hd
  obtain ⟨d₁, hd₁, htokens⟩ := solid_parseHead.steady.again hends hhead hus₁ hd
    (head?_of_passes hrest (by simp [hne]) _)
  rw [parse_eq] at hread ⊢
  obtain ⟨head', c₂, hhead', hread⟩ := bind_ok_iff.mp hread
  cases hhead.symm.trans hhead'
  rw [remaining_bind] at hread
  obtain ⟨r, c₃, hitems, hout⟩ := bind_ok_iff.mp hread
  cases hout
  have hitems' := rereads_parseItems h hends₁ hitems (Nat.le_refl _) hrest hlast hnext htokens
    (Nat.le_refl _)
  exact .after hd₁ (.congr remaining_bind
    (hitems'.map fun r => (⟨head.1.name, head.1.version, head.2, r.1, r.2⟩ : SchemaDecl)))

/-! ### In a text -/

theorem peek_of_parseHead {r : (SchemaId × List SchemaId) × Cursor}
    (hread : parseHead c = .ok r) : c.peek = .name "schema" := by
  obtain ⟨⟨⟩, c₁, hkeyword, -⟩ := bind_ok_iff.mp hread
  rw [Parse.expectKeyword, eat_bind] at hkeyword
  split at hkeyword
  · assumption
  · cases hkeyword

/-- Where the keyword of one stands the loop reads a declaration. -/
theorem parseAll_schema (hpeek : c.peek = .name "schema") (n : Nat) : parseAll (n + 1) c =
    (do
      let decl ← SchemaDecl.parse
      return decl :: (← parseAll n) : Parse (List SchemaDecl)) c := by
  rw [parseAll, peek_bind, if_neg (by rw [hpeek]; simp)]

/-- The loop at a declaration: its turns are enough for what is left behind it. -/
theorem parseAll_cons {n : Nat} {decls : List SchemaDecl} (hends : c.Ends)
    (hpeek : c.peek = .name "schema") (hn : c.rest.length ≤ n)
    (hread : parseAll n c = .ok (decls, c'')) :
    ∃ k decl rest c', SchemaDecl.parse c = .ok (decl, c') ∧ c'.rest.length ≤ k ∧
      parseAll k c' = .ok (rest, c'') ∧ decls = decl :: rest := by
  cases n with
  | zero =>
      have := (hends.pass hpeek (by simp)).length
      rw [List.length_singleton] at this
      omega
  | succ n =>
      rw [parseAll_schema hpeek] at hread
      obtain ⟨decl, c₁, hdecl, hread⟩ := bind_ok_iff.mp hread
      obtain ⟨rest, c₂, hrest, hout⟩ := bind_ok_iff.mp hread
      cases hout
      have hshorter := advances_parse.length_lt hends hdecl
      exact ⟨n, decl, rest, c₁, hdecl, by omega, hrest, rfl⟩

theorem Declares.passes (h : Declares c e ts c') (hends : c.Ends) :
    c.peek = .name "schema" ∧ ∃ front, c.Passes (front ++ ts) c' ∧ ts ≠ [] := by
  induction h with
  | first hread h =>
      obtain ⟨us, -, hus, -⟩ := solid_parseHead _ _ _ hends hread
      obtain ⟨front, hfront, hne⟩ := h.passes (hends.of_passes hus)
      exact ⟨peek_of_parseHead hread, us ++ front, List.append_assoc .. ▸ hus.trans hfront, hne⟩
  | later hread h ih =>
      obtain ⟨us, -, hus, -⟩ := advances_parse _ _ _ hends hread
      obtain ⟨-, front, hfront, hne⟩ := ih (hends.of_passes hus)
      rw [parse_eq] at hread
      obtain ⟨head, c₁, hhead, -⟩ := bind_ok_iff.mp hread
      exact ⟨peek_of_parseHead hhead, us ++ front, List.append_assoc .. ▸ hus.trans hfront, hne⟩

theorem rereads_parseAll {n m : Nat} {decls : List SchemaDecl} (h : Declares c e ts c')
    (hends : c.Ends) (hread : parseAll n c = .ok (decls, c'')) (hn : c.rest.length ≤ n)
    (hpasses : c.Passes us c') (hlast : ts.getLast? ≠ some .semicolon)
    (hnext : c'.peek ≠ .semicolon) (hd : d.tokens = us ++ .semicolon :: c'.tokens)
    (hm : d.rest.length ≤ m) : Rereads (e.admits ts c'.peek) (parseAll m) decls c'' d := by
  induction h generalizing n m decls us d with
  | @first c c₁ c' head e ts hhead h =>
      obtain ⟨hpeek, front, hfront, hne⟩ := (Declares.first hhead h).passes hends
      obtain rfl := passes_unique hpasses hfront
      have hendsd := ends_semicolon hends hpasses hd
      have hpeekd := (peek_of_passes hpasses (by simp [hne]) hd).trans hpeek
      obtain ⟨m, rfl⟩ := exists_turn hd hm
      obtain ⟨k, decl, rest, c₂, hdecl, hk, hrest, rfl⟩ := parseAll_cons hends hpeek hn hread
      obtain ⟨us₂, -, hus₂, -⟩ := advances_parse c decl c₂ hends hdecl
      refine Rereads.congr (parseAll_schema hpeekd m)
        ((rereads_parse hhead h hends hdecl hpasses hlast hnext hd).before fun d₁ hd₁ htokens => ?_)
      have hless := advances_parse.length_lt hendsd hd₁
      obtain ⟨d', hd', htokens'⟩ := steadyLoop_parseAll.congr (hends.of_passes hus₂) hk hrest htokens
        (m := m) (by omega)
      exact ⟨d', bind_ok_iff.mpr ⟨rest, d', hd', rfl⟩, htokens'⟩
  | @later c c₁ c' decl e ts hdecl h ih =>
      obtain ⟨hpeek, -⟩ := (Declares.later hdecl h).passes hends
      obtain ⟨us₁, hne₁, hus₁, -⟩ := advances_parse c decl c₁ hends hdecl
      have hends₁ := hends.of_passes hus₁
      obtain ⟨-, front, hfront, hne⟩ := h.passes hends₁
      obtain rfl := passes_unique hpasses (hus₁.trans hfront)
      have hendsd := ends_semicolon hends hpasses hd
      obtain ⟨m, rfl⟩ := exists_turn hd hm
      rw [List.append_assoc] at hd
      have hpeekd := (peek_of_passes hus₁ hne₁ hd).trans hpeek
      obtain ⟨d₁, hd₁, htokens⟩ := advances_parse.steady.again hends hdecl hus₁ hd
        (head?_of_passes hfront (by simp [hne]) _)
      have hless := advances_parse.length_lt hendsd hd₁
      obtain ⟨k, decl', rest, c₂, hdecl', hk, hrest, rfl⟩ := parseAll_cons hends hpeek hn hread
      cases hdecl.symm.trans hdecl'
      have hmore := ih hends₁ hrest hk hfront hlast hnext htokens (m := m) (by omega)
      exact Rereads.congr (parseAll_schema hpeekd m) (.after hd₁ (hmore.map (decl :: ·)))

/-! ## Texts -/

theorem readAll_ok_iff {text : String} {decls : List SchemaDecl} : readAll text = .ok decls ↔
    ∃ c, Cursor.ofText text = .ok c ∧ ∃ c', parseAll c.rest.length c = .ok (decls, c') := by
  rw [readAll, Outcome.bind_ok_iff]
  refine exists_congr fun c => and_congr_right fun _ => ?_
  rw [Outcome.bind_ok_iff]
  constructor
  · rintro ⟨⟨ds, c'⟩, hread, hout⟩
    cases hout
    exact ⟨c', hread⟩
  · rintro ⟨c', hread⟩
    exact ⟨(decls, c'), hread, rfl⟩

/-- In a text an entry with the tokens `ts` ends behind `before`; `after` is the text from there on,
and `next` the next token in it. -/
def EntryEnds (before after : String) (e : SchemaEntry) (ts : List Token) (next : Token) : Prop :=
  ∃ start c us, Cursor.ofText (before ++ after) = .ok start ∧ Declares start e ts c ∧
    start.Passes us c ∧ Cuts (before ++ after).toList us after.toList ∧ c.peek = next

theorem exists_lists {n : Nat} {r : List SchemaId × List SchemaItem} (hends : c.Ends)
    (hread : parseItems n c = .ok (r, c'')) (he : e.In r) : ∃ ts c', Lists c e ts c' := by
  induction n generalizing c r with
  | zero => cases hread
  | succ n ih =>
      rw [parseItems_succ, eat_bind] at hread
      split at hread
      · cases hread
        exact (SchemaEntry.not_in_nil he).elim
      · obtain ⟨e', c₁, he', hread⟩ := bind_ok_iff.mp hread
        obtain ⟨rest, c₂, hrest, hout⟩ := bind_ok_iff.mp hread
        cases hout
        obtain rfl | he := SchemaEntry.in_onto.mp he
        · obtain ⟨c₃, hentry, -⟩ := SchemaEntry.parseTerminated_ok_iff.mp he'
          obtain ⟨ts, -, hts, -⟩ := SchemaEntry.advances_parse c _ c₃ hends hentry
          exact ⟨ts, c₃, .first hentry hts⟩
        · obtain ⟨us, -, hus, -⟩ := SchemaEntry.advances_parseTerminated c e' c₁ hends he'
          obtain ⟨ts, c', h⟩ := ih (hends.of_passes hus) hrest he
          exact ⟨ts, c', .later he' h⟩

theorem exists_declares {n : Nat} {decls : List SchemaDecl} {decl : SchemaDecl} (hends : c.Ends)
    (hread : parseAll n c = .ok (decls, c'')) (hdecl : decl ∈ decls)
    (he : e.In (decl.imports, decl.items)) : ∃ ts c', Declares c e ts c' := by
  induction n generalizing c decls with
  | zero =>
      cases hread
      cases hdecl
  | succ n ih =>
      rw [parseAll, peek_bind] at hread
      split at hread
      · cases hread
        cases hdecl
      · obtain ⟨decl', c₁, hdecl', hread⟩ := bind_ok_iff.mp hread
        obtain ⟨rest, c₂, hrest, hout⟩ := bind_ok_iff.mp hread
        cases hout
        obtain rfl | hdecl := List.mem_cons.mp hdecl
        · rw [parse_eq] at hdecl'
          obtain ⟨head, c₃, hhead, hdecl'⟩ := bind_ok_iff.mp hdecl'
          rw [remaining_bind] at hdecl'
          obtain ⟨r, c₄, hr, hout⟩ := bind_ok_iff.mp hdecl'
          cases hout
          obtain ⟨us, -, hus, -⟩ := solid_parseHead c head c₃ hends hhead
          obtain ⟨ts, c', h⟩ := exists_lists (hends.of_passes hus) hr he
          exact ⟨ts, c', .first hhead h⟩
        · obtain ⟨us, -, hus, -⟩ := advances_parse c decl' c₁ hends hdecl'
          obtain ⟨ts, c', h⟩ := ih (hends.of_passes hus) hrest hdecl
          exact ⟨ts, c', .later hdecl' h⟩

/-- Each import and each item that is read from a text ends somewhere in it. -/
theorem exists_entryEnds {text : String} {decls : List SchemaDecl} {decl : SchemaDecl}
    (hread : readAll text = .ok decls) (hdecl : decl ∈ decls)
    (he : e.In (decl.imports, decl.items)) :
    ∃ before after ts next, text = before ++ after ∧ EntryEnds before after e ts next := by
  obtain ⟨start, hstart, c', hparse⟩ := readAll_ok_iff.mp hread
  have hlexemes := tokens_ofText_iff.mp ⟨start, hstart, rfl⟩
  obtain ⟨init, hinit, -⟩ := legal_of_lexemes hlexemes
  have hends : start.Ends := ⟨init, hinit⟩
  obtain ⟨ts, c, hdeclares⟩ := exists_declares hends hparse hdecl he
  obtain ⟨-, front, hfront, hne⟩ := hdeclares.passes hends
  obtain ⟨rest, hcuts⟩ : ∃ rest, Cuts text.toList (front ++ ts) rest := by
    rw [hfront.tokens_eq] at hlexemes
    cases hus : front ++ ts with
    | nil => exact absurd (List.append_eq_nil_iff.mp hus).2 hne
    | cons u us => exact Cuts.exists_of_lexemes (hus ▸ hlexemes) (List.cons_ne_nil _ _)
  obtain ⟨before, hbefore, -⟩ := hcuts.exists_before (by simp [hne])
  have htext : text = String.ofList before ++ String.ofList rest := by
    rw [← String.ofList_append, ← hbefore, String.ofList_toList]
  refine ⟨String.ofList before, String.ofList rest, ts, c.peek, htext, start, c, front ++ ts, ?_⟩
  rw [← htext, String.toList_ofList]
  exact ⟨hstart, hdeclares, hfront, hcuts, rfl⟩

/-- A semicolon right behind an entry that has none is optional, if the entry is no derived predicate
or a closing brace comes next and no bar stands before it; then it changes nothing. In all other
cases it is refused: it is taken for one between the statements of the query. -/
theorem readAll_semicolon {before after : String} {decls : List SchemaDecl} {next : Token}
    (hread : readAll (before ++ after) = .ok decls) (hentry : EntryEnds before after e ts next)
    (hlast : ts.getLast? ≠ some .semicolon) (hnext : next ≠ .semicolon) :
    (e.admits ts next = true → readAll (before ++ ";" ++ after) = .ok decls) ∧
      (e.admits ts next = false → ∃ err, readAll (before ++ ";" ++ after) = .error err) := by
  obtain ⟨start, c, us, hstart, hdeclares, hpasses, hcuts, rfl⟩ := hentry
  have hlexemes := tokens_ofText_iff.mp ⟨start, hstart, rfl⟩
  obtain ⟨init, hinit, -⟩ := legal_of_lexemes hlexemes
  have hends : start.Ends := ⟨init, hinit⟩
  obtain ⟨-, front, hfront, hne⟩ := hdeclares.passes hends
  have hus : us ≠ [] := by
    rw [passes_unique hpasses hfront]
    simp [hne]
  -- the semicolon stands between the tokens of `before` and those of `after`
  have hafter : lexemes after.toList = some c.tokens := by
    rw [hcuts.lexemes_eq, Option.map_eq_some_iff] at hlexemes
    obtain ⟨vs, hvs, htokens⟩ := hlexemes
    rw [hpasses.tokens_eq] at htokens
    rw [hvs, List.append_cancel_left htokens]
  have hinserted : lexemes (before ++ ";" ++ after).toList = some (us ++ .semicolon :: c.tokens) := by
    rw [String.toList_append] at hcuts
    have := hcuts.lexemes_semicolon hus
    rw [hafter] at this
    simpa using this
  obtain ⟨d, hd, htokens⟩ := tokens_ofText_iff.mpr hinserted
  obtain ⟨start', hstart', c', hparse⟩ := readAll_ok_iff.mp hread
  cases hstart.symm.trans hstart'
  obtain ⟨hadmitted, hrefused⟩ := rereads_parseAll hdeclares hends hparse (Nat.le_refl _) hpasses
    hlast hnext htokens (Nat.le_refl _)
  constructor
  · intro hadmits
    obtain ⟨d', hd', -⟩ := hadmitted hadmits
    exact readAll_ok_iff.mpr ⟨d, hd, d', hd'⟩
  · intro hadmits
    cases hout : readAll (before ++ ";" ++ after) with
    | error err => exact ⟨err, rfl⟩
    | ok decls' =>
        obtain ⟨d', hd', d'', hparse'⟩ := readAll_ok_iff.mp hout
        cases hd.symm.trans hd'
        exact absurd hparse' (hrefused hadmits _)

/-- A derived predicate and a stored one behind it. -/
def twoPredicates : String :=
  "schema a.1 \x7b predicate D : string X where a.S X predicate E : string \x7d"

/-- Where the reader of it starts. -/
def twoPredicatesStart : Cursor := (Cursor.ofText twoPredicates).toOption.getD default

/-- The first of them. -/
def derivedEntry : SchemaEntry := .item (.predicate "D" .string none (some (.var "X",
  ⟨[⟨none, .predicate "a.S" none (some (.var "X")) none⟩]⟩)))

/-- Its tokens. -/
def derivedTokens : List Token := [.name "predicate", .name "D", .colon, .name "string", .name "X",
  .name "where", .name "a.S", .name "X"]

/-- The tokens of the other one. -/
def storedTokens : List Token := [.name "predicate", .name "E", .colon, .name "string"]

/-- What is declared there. -/
def twoPredicatesDecls : List SchemaDecl := [⟨"a", 1, [], [], [.predicate "D" .string none
  (some (.var "X", ⟨[⟨none, .predicate "a.S" none (some (.var "X")) none⟩]⟩)),
  .predicate "E" .string none none]⟩]

/-- How the text is cut, and what is read from it. -/
theorem read_twoPredicates :
    (Cursor.ofText twoPredicates = .ok twoPredicatesStart ∧
      twoPredicatesStart.tokens = [Token.name "schema", .name "a.1", .leftBrace] ++ derivedTokens ++
        storedTokens ++ [Token.rightBrace, .endOfInput]) ∧
    parseHead twoPredicatesStart = .ok ((⟨"a", 1⟩, []), skip 3 twoPredicatesStart) ∧
    SchemaEntry.parse (skip 3 twoPredicatesStart) = .ok (derivedEntry, skip 11 twoPredicatesStart) ∧
    SchemaEntry.parse (skip 11 twoPredicatesStart) =
      .ok (.item (.predicate "E" .string none none), skip 15 twoPredicatesStart) ∧
    cut? 80 11 twoPredicates.toList = some ([Token.name "schema", .name "a.1", .leftBrace] ++
      derivedTokens, " predicate E : string \x7d".toList) ∧
    cut? 80 15 twoPredicates.toList = some ([Token.name "schema", .name "a.1", .leftBrace] ++
      derivedTokens ++ storedTokens, " \x7d".toList) ∧
    readAll twoPredicates = .ok twoPredicatesDecls := by
  decide +kernel

/-- The text, cut behind the first of them and behind the other one. -/
theorem append_twoPredicates :
    "schema a.1 \x7b predicate D : string X where a.S X" ++ " predicate E : string \x7d" =
      twoPredicates ∧
    "schema a.1 \x7b predicate D : string X where a.S X predicate E : string" ++ " \x7d" =
      twoPredicates := by
  simp [twoPredicates]

theorem entryEnds_derived :
    EntryEnds "schema a.1 \x7b predicate D : string X where a.S X" " predicate E : string \x7d"
      derivedEntry derivedTokens (.name "predicate") := by
  obtain ⟨⟨hstart, htokens⟩, hhead, hentry, -, hcut, -⟩ := read_twoPredicates
  rw [List.append_assoc] at htokens
  obtain ⟨hfront, hbehind⟩ := passes_skip _ _ htokens (by simp)
  rw [List.append_assoc] at htokens
  obtain ⟨-, hentries⟩ := passes_skip _ _ htokens (by simp)
  rw [EntryEnds, append_twoPredicates.1]
  exact ⟨twoPredicatesStart, _, _, hstart, .first hhead (.first hentry
    (passes_skip _ _ hentries (by simp)).1), hfront, (cuts_of_cut? hcut).1,
    peek_of_tokens hbehind⟩

theorem entryEnds_stored :
    EntryEnds "schema a.1 \x7b predicate D : string X where a.S X predicate E : string" " \x7d"
      (.item (.predicate "E" .string none none)) storedTokens .rightBrace := by
  obtain ⟨⟨hstart, htokens⟩, hhead, hentry, hnext, -, hcut, -⟩ := read_twoPredicates
  obtain ⟨hfront, hend⟩ := passes_skip _ _ htokens (by simp)
  rw [List.append_assoc] at htokens
  obtain ⟨-, hbehind⟩ := passes_skip _ _ htokens (by simp)
  have hpeek : (skip 11 twoPredicatesStart).peek = .name "predicate" := peek_of_tokens hbehind
  have hterminated : SchemaEntry.parseTerminated (skip 3 twoPredicatesStart) =
      .ok (derivedEntry, skip 11 twoPredicatesStart) :=
    SchemaEntry.parseTerminated_ok_iff.mpr ⟨_, hentry, by rw [if_neg (by rw [hpeek]; simp)]⟩
  rw [EntryEnds, append_twoPredicates.2]
  exact ⟨twoPredicatesStart, _, _, hstart, .first hhead (.later hterminated (.first hnext
    (passes_skip _ _ hbehind (by simp)).1)), hfront, (cuts_of_cut? hcut).1,
    peek_of_tokens hend⟩

theorem readAll_derived : readAll ("schema a.1 \x7b predicate D : string X where a.S X" ++
    " predicate E : string \x7d") = .ok twoPredicatesDecls := by
  obtain ⟨-, -, -, -, -, -, hread⟩ := read_twoPredicates
  rwa [append_twoPredicates.1]

/-- Behind the derived predicate a semicolon is refused, behind the stored one it changes nothing. -/
theorem readAll_semicolon_twoPredicates :
    (∃ err, readAll ("schema a.1 \x7b predicate D : string X where a.S X" ++ ";" ++
      " predicate E : string \x7d") = .error err) ∧
    readAll ("schema a.1 \x7b predicate D : string X where a.S X predicate E : string" ++ ";" ++
      " \x7d") = .ok twoPredicatesDecls := by
  have hstored := readAll_derived
  rw [append_twoPredicates.1, ← append_twoPredicates.2] at hstored
  constructor
  · exact (readAll_semicolon readAll_derived entryEnds_derived (by decide) (by decide)).2 (by decide)
  · exact (readAll_semicolon hstored entryEnds_stored (by decide) (by decide)).1 (by decide)

/-- A semicolon between two entries is not always optional. -/
theorem exists_semicolon_refused :
    ¬ ∀ (before after : String) (decls : List SchemaDecl) (e : SchemaEntry) (ts : List Token)
        (next : Token), readAll (before ++ after) = .ok decls →
      EntryEnds before after e ts next → ts.getLast? ≠ some .semicolon → next ≠ .semicolon →
      readAll (before ++ ";" ++ after) = .ok decls := by
  intro h
  have hread := h _ _ _ _ _ _ readAll_derived entryEnds_derived (by decide) (by decide)
  revert hread
  decide +kernel

end SchemaDecl

end Factbase
