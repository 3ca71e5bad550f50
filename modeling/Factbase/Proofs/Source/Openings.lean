import Factbase.Proofs.Source.Lookahead

/-!
# How parsers can go on

Tokens that a parser reads in front of whatever may follow (`Reaches`), and
parsers that read some tokens at least (`Opens`). Both are put together as
parsers are. Where tokens call for others, but those would be nested too
deep, no parser can go on; that is let pass where it counts as going on.
-/

namespace Factbase

namespace Parse

open Cursor

variable {α β : Type} {p : Parse α} {f : α → Parse β} {go : Nat → Parse α} {x : α} {y : β}
  {ts us : List Token} {t : Token} {deep : Prop} {first first' follow follow' stop : Token → Prop}
  {c c' : Cursor}

/-- The first of these tokens, or else what follows them, is of some kind. -/
def Starts (first follow : Token → Prop) : List Token → Prop
  | [] => ∀ t, follow t → first t
  | t :: _ => first t

/-- Tokens that are nested too deep for a parser. -/
def TooDeep (p : Parse α) (ts : List Token) : Prop :=
  ts ≠ [] ∧ ∀ c c', c.Passes ts c' → ∃ pos, p c = .error ⟨pos, .tooDeep⟩

/-- Tokens that a parser reads in front of any that may follow. It may also be that they are nested
too deep for it, where that counts. -/
def Reaches (deep : Prop) (p : Parse α) (ts : List Token) (follow : Token → Prop) : Prop :=
  (∃ x, Reads p ts follow x) ∨ deep ∧ TooDeep p ts

/-- A parser can go on somehow, with a token of some kind in front. -/
def Opens (deep : Prop) (first follow : Token → Prop) (p : Parse α) : Prop :=
  ∃ ts, .endOfInput ∉ ts ∧ Reaches deep p ts follow ∧ Starts first follow ts

theorem Reaches.lift (h : Reaches False p ts follow) : Reaches deep p ts follow :=
  .inl (h.resolve_right fun h => h.1)

theorem Starts.mono (h : Starts first follow ts) (hfirst : ∀ t, first t → first' t) :
    Starts first' follow ts := by
  cases ts with
  | nil => exact fun t ht => hfirst t (h t ht)
  | cons t ts => exact hfirst t h

theorem Starts.head (h : Starts first follow ts) (ht : follow t) : first (ts.head?.getD t) := by
  cases ts with
  | nil => exact h t ht
  | cons u ts => exact h

theorem Reaches.reads (h : Reaches False p ts follow) : ∃ x, Reads p ts follow x :=
  h.resolve_right fun h => h.1

theorem Reaches.mono (h : Reaches deep p ts follow) (hfollow : ∀ t, follow' t → follow t) :
    Reaches deep p ts follow' :=
  h.imp_left fun ⟨x, hx⟩ => ⟨x, hx.mono hfollow⟩

theorem TooDeep.bind (hp : TooDeep p ts) (f : α → Parse β) : TooDeep (p >>= f) ts := by
  refine ⟨hp.1, fun c c' hpasses => ?_⟩
  obtain ⟨pos, hpos⟩ := hp.2 c c' hpasses
  exact ⟨pos, Outcome.stateT_bind_error_iff.mpr (.inl hpos)⟩

theorem Reads.bind_tooDeep (hp : Reads p ts follow x) (hf : TooDeep (f x) us)
    (hnext : Starts follow follow' us) : TooDeep (p >>= f) (ts ++ us) := by
  refine ⟨by simp [hf.1], fun c c' hpasses => ?_⟩
  obtain ⟨c₁, hts, hus⟩ := hpasses.split
  obtain ⟨pos, hpos⟩ := hf.2 c₁ c' hus
  have hfollow : follow c₁.peek := by
    rw [hus.peek]
    cases us with
    | nil => exact absurd rfl hf.1
    | cons u us => exact hnext
  exact ⟨pos, Outcome.stateT_bind_error_iff.mpr (.inr ⟨x, c₁, hp c c₁ hts hfollow, hpos⟩)⟩

/-- Reading goes on with a second parser. -/
theorem Reads.bind_reaches (hp : Reads p ts follow x) (hf : Reaches deep (f x) us follow')
    (hnext : Starts follow follow' us) : Reaches deep (p >>= f) (ts ++ us) follow' :=
  hf.imp (fun ⟨y, hy⟩ => ⟨y, hp.bind hy fun _ => hnext.head⟩) fun ⟨hdeep, hf⟩ =>
    ⟨hdeep, hp.bind_tooDeep hf hnext⟩

theorem Reaches.bind (hp : Reaches deep p ts follow) (hf : ∀ x, Opens deep follow follow' (f x)) :
    ∃ us, .endOfInput ∉ us ∧ Reaches deep (p >>= f) (ts ++ us) follow' ∧
      (ts = [] → Starts follow follow' us) := by
  obtain ⟨x, hx⟩ | ⟨hdeep, hp⟩ := hp
  · obtain ⟨us, hin, hus, hstart⟩ := hf x
    exact ⟨us, hin, hx.bind_reaches hus hstart, fun _ => hstart⟩
  · exact ⟨[], by simp, .inr ⟨hdeep, by rw [List.append_nil]; exact hp.bind f⟩,
      fun hnil => absurd hnil hp.1⟩

theorem Opens.bind (hp : Opens deep first follow p) (hf : ∀ x, Opens deep follow follow' (f x)) :
    Opens deep first follow' (p >>= f) := by
  obtain ⟨ts, hin, hts, hstart⟩ := hp
  obtain ⟨us, hin', hus, hstart'⟩ := hts.bind hf
  refine ⟨ts ++ us, by simp [hin, hin'], hus, ?_⟩
  cases ts with
  | nil => exact (hstart' rfl).mono hstart
  | cons t ts => exact hstart

theorem Opens.pure (x : α) : Opens deep follow follow (Pure.pure x : Parse α) :=
  ⟨[], by simp, .inl ⟨x, .pure x⟩, fun _ => id⟩

theorem Opens.map (hp : Opens deep first follow p) (g : α → β) :
    Opens deep first follow (do return g (← p)) :=
  hp.bind fun x => .pure (g x)

theorem Opens.lift (h : Opens False first follow p) : Opens deep first follow p :=
  h.imp fun _ => And.imp_right (And.imp_left Reaches.lift)

theorem Opens.mono (h : Opens deep first follow p) (hfirst : ∀ t, first t → first' t)
    (hfollow : ∀ t, follow' t → follow t) : Opens deep first' follow' p := by
  obtain ⟨ts, hin, hts, hstart⟩ := h
  refine ⟨ts, hin, hts.mono hfollow, ?_⟩
  cases ts with
  | nil => exact fun t ht => hfirst t (hstart t (hfollow t ht))
  | cons t ts => exact hfirst t hstart

/-- The first token is taken, and something is read behind it. -/
theorem Reaches.behind {q : Parse α} (h : Reaches deep q ts follow)
    (hp : ∀ d : Cursor, d.peek = t → p d = q d.advance) : Reaches deep p (t :: ts) follow := by
  have hsame {d d' : Cursor} (hd : d.Passes (t :: ts) d') :
      p d = q d.advance ∧ d.advance.Passes ts d' := by
    obtain ⟨hpeek, -, hd⟩ := passes_cons_iff.mp hd
    exact ⟨hp d hpeek, hd⟩
  refine h.imp (fun ⟨x, hx⟩ => ⟨x, fun d d' hd hnext => ?_⟩) fun ⟨hdeep, h⟩ =>
    ⟨hdeep, List.cons_ne_nil _ _, fun d d' hd => ?_⟩
  · obtain ⟨heq, hd⟩ := hsame hd
    exact heq.trans (hx _ d' hd hnext)
  · obtain ⟨heq, hd⟩ := hsame hd
    rw [heq]
    exact h.2 _ d' hd

theorem Opens.behind {q : Parse α} (h : Opens deep first follow q) (ht : t ≠ .endOfInput)
    (hp : ∀ d : Cursor, d.peek = t → p d = q d.advance) : Opens deep (· = t) follow p := by
  obtain ⟨ts, hin, hts, -⟩ := h
  exact ⟨t :: ts, List.not_mem_cons_of_ne_of_not_mem ht.symm hin, hts.behind hp, rfl⟩

/-- What a parser does where the token comes first is all that counts. -/
theorem Reaches.congr {q : Parse α} (h : Reaches deep q (t :: ts) follow)
    (hp : ∀ d : Cursor, d.peek = t → p d = q d) : Reaches deep p (t :: ts) follow := by
  have hsame {d d' : Cursor} (hd : d.Passes (t :: ts) d') : p d = q d :=
    hp d (passes_cons_iff.mp hd).1
  refine h.imp (fun ⟨x, hx⟩ => ⟨x, fun d d' hd hnext => ?_⟩) fun ⟨hdeep, hne, h⟩ =>
    ⟨hdeep, hne, fun d d' hd => ?_⟩
  · exact (hsame hd).trans (hx d d' hd hnext)
  · rw [hsame hd]
    exact h d d' hd

theorem Opens.congr {q : Parse α} (h : Opens deep first follow q)
    (hp : ∀ d : Cursor, first d.peek → p d = q d) : Opens deep first follow p := by
  obtain ⟨ts, hin, hts, hstart⟩ := h
  refine ⟨ts, hin, ?_, hstart⟩
  cases ts with
  | cons t ts => exact hts.congr fun d hd => hp d (hd ▸ hstart)
  | nil =>
      obtain ⟨x, hx⟩ := hts.resolve_right fun h => h.2.1 rfl
      refine .inl ⟨x, fun d d' hd hnext => ?_⟩
      obtain rfl := passes_nil_iff.mp hd
      exact (hp d' (hstart _ hnext)).trans (hx d' d' hd hnext)

/-- The given token comes first. -/
theorem Opens.eat_true {f : Bool → Parse β} (ht : t ≠ .endOfInput)
    (h : Opens deep first' follow (f true)) : Opens deep (· = t) follow (Parse.eat t >>= f) :=
  h.behind ht fun d hd => by rw [eat_bind, if_pos hd]

theorem Reaches.eat_false {f : Bool → Parse β} (h : Reaches deep (f false) ts follow)
    (hother : Starts (· ≠ t) follow ts) : Reaches deep (Parse.eat t >>= f) ts follow := by
  refine h.imp (fun ⟨y, hy⟩ => ⟨y, hy.eat_false fun u => hother.head⟩) fun ⟨hdeep, hne, h⟩ =>
    ⟨hdeep, hne, fun c c' hpasses => ?_⟩
  have hpeek : c.peek ≠ t := by
    rw [hpasses.peek]
    cases ts with
    | nil => exact absurd rfl hne
    | cons u us => exact hother
  rw [eat_bind, if_neg hpeek]
  exact h c c' hpasses

/-- Another token comes first. -/
theorem Opens.eat_false {f : Bool → Parse β} (h : Opens deep first follow (f false))
    (hother : ∀ u, first u → u ≠ t) : Opens deep first follow (Parse.eat t >>= f) := by
  obtain ⟨ts, hin, hts, hstart⟩ := h
  exact ⟨ts, hin, hts.eat_false (hstart.mono hother), hstart⟩

theorem expectName_bind {f : String → Parse β} {name : String} (h : c.peek = .name name) :
    (Parse.expectName >>= f) c = f name c.advance := by
  show (Parse.expectName c >>= fun r => f r.1 r.2) = _
  rw [expectName_ok_iff.mpr ⟨h, rfl⟩]
  rfl

theorem Opens.name {f : String → Parse β} (name : String) (h : Opens deep first follow (f name)) :
    Opens deep (· = .name name) follow (Parse.expectName >>= f) :=
  h.behind (by simp) fun _ hd => expectName_bind hd

theorem Opens.expect (ht : t ≠ .endOfInput) : Opens deep (· = t) follow (Parse.expect t) :=
  .eat_true ht (.pure ())

theorem Opens.expect_bind {q : Parse β} (ht : t ≠ .endOfInput) (h : Opens deep first follow q) :
    Opens deep (· = t) follow (do Parse.expect t; q) :=
  (Opens.expect ht).bind fun _ => h.mono (fun _ _ => trivial) fun _ => id

theorem Opens.expectKeyword (keyword : String) :
    Opens deep (· = .name keyword) follow (Parse.expectKeyword keyword) :=
  .eat_true (by simp) (.pure ())

theorem Opens.unless (hstop : ∀ c : Cursor, stop c.peek → p c = .ok (x, c))
    (hfollow : ∀ t, follow t → stop t) : Opens deep follow follow p :=
  (Opens.pure x).congr fun c hc => hstop c (hfollow _ hc)

/-! ## Loops -/

/-- The same for a loop with as many turns as there are tokens. -/
def ReachesLoop (deep : Prop) (go : Nat → Parse α) (ts : List Token) (follow : Token → Prop) :
    Prop :=
  (∃ x, ∀ m, ts.length ≤ m → Reads (go m) ts follow x) ∨
    deep ∧ ∀ m, ts.length ≤ m → TooDeep (go m) ts

theorem ReachesLoop.reaches (h : ReachesLoop deep go ts follow) :
    Reaches deep (Parse.remaining >>= go) ts follow := by
  have hturns {d d' : Cursor} (hd : d.Passes ts d') : ts.length ≤ d.rest.length :=
    hd.length ▸ Nat.le_add_right ..
  refine h.imp (fun ⟨x, hx⟩ => ⟨x, fun d d' hd hnext => ?_⟩) fun ⟨hdeep, h⟩ =>
    ⟨hdeep, (h _ (Nat.le_refl _)).1, fun d d' hd => ?_⟩
  · exact hx _ (hturns hd) d d' hd hnext
  · exact (h _ (hturns hd)).2 d d' hd

section Turns

variable {turn : Parse (Option α)}

theorem reads_turns_nil (hstop : ∀ c : Cursor, follow c.peek → turn c = .ok (none, c)) (m : Nat) :
    Reads (turns turn m) [] follow [] := by
  intro d d' hd hnext
  obtain rfl := passes_nil_iff.mp hd
  cases m with
  | zero => rfl
  | succ m => exact bind_ok_iff.mpr ⟨none, d', hstop d' hnext, rfl⟩

theorem reachesLoop_nil (hstop : ∀ c : Cursor, follow c.peek → turn c = .ok (none, c)) :
    ReachesLoop deep (turns turn) [] follow :=
  .inl ⟨[], fun m _ => reads_turns_nil hstop m⟩

/-- A turn in front of others. -/
theorem ReachesLoop.cons {x : α} (hturn : Reads turn ts follow' (some x)) (hne : ts ≠ [])
    (h : ReachesLoop deep (turns turn) us follow) (hnext : Starts follow' follow us) :
    ReachesLoop deep (turns turn) (ts ++ us) follow := by
  have hpos := List.length_pos_of_ne_nil hne
  refine h.imp (fun ⟨xs, hxs⟩ => ⟨x :: xs, fun m hm => ?_⟩) fun ⟨hdeep, h⟩ => ⟨hdeep, fun m hm => ?_⟩
  all_goals
    rw [List.length_append] at hm
    obtain ⟨m, rfl⟩ := Nat.exists_eq_add_of_lt (show 0 < m by omega)
    rw [Nat.zero_add]
  · have hmore : Reads (do return x :: (← turns turn m)) us follow (x :: xs) :=
      fun d d' hd hnext => bind_ok_iff.mpr ⟨xs, d', hxs m (by omega) d d' hd hnext, rfl⟩
    exact hturn.bind hmore fun t => hnext.head
  · exact hturn.bind_tooDeep ((h m (by omega)).bind _) hnext

/-- The last turn. -/
theorem Reaches.lastTurn (hturn : Reaches deep turn ts follow) (hne : ts ≠ [])
    (hstop : ∀ c : Cursor, follow c.peek → turn c = .ok (none, c)) :
    ReachesLoop deep (turns turn) ts follow := by
  have hpos := List.length_pos_of_ne_nil hne
  obtain ⟨r, hr⟩ | ⟨hdeep, hturn⟩ := hturn
  · cases r with
    | none =>
        refine .inl ⟨[], fun m hm d d' hd hnext => ?_⟩
        cases m with
        | zero => omega
        | succ m => exact bind_ok_iff.mpr ⟨none, d', hr d d' hd hnext, rfl⟩
    | some x =>
        rw [← List.append_nil ts]
        exact .cons hr hne (reachesLoop_nil hstop) fun _ ht => ht
  · refine .inr ⟨hdeep, fun m hm => ?_⟩
    cases m with
    | zero => omega
    | succ m => exact hturn.bind _

end Turns

/-! ## Lists in brackets -/

section Items

variable {item : Parse α} {close : Token}

theorem reads_itemsUntil_last (hitem : Reads item ts follow x) (hclose : follow close) (n : Nat) :
    Reads (itemsUntil.go close item n) (ts ++ [close]) follow' [x] := by
  intro c c' hpasses _
  obtain ⟨c₁, hts, hend⟩ := hpasses.split
  obtain ⟨hpeek, rfl⟩ := hend.one
  have hread := hitem c c₁ hts (hpeek ▸ hclose)
  cases n with
  | zero =>
      exact bind_ok_iff.mpr ⟨x, c₁, hread, bind_ok_iff.mpr ⟨(), _, expect_ok_iff.mpr ⟨hpeek, rfl⟩, rfl⟩⟩
  | succ n =>
      refine bind_ok_iff.mpr ⟨x, c₁, hread, ?_⟩
      rw [eat_bind, if_pos hpeek]
      rfl

theorem reads_itemsUntil_more {n : Nat} {xs : List α} (hitem : Reads item ts follow x)
    (hcomma : follow .comma) (hne : close ≠ .comma)
    (hxs : Reads (itemsUntil.go close item n) us follow' xs) :
    Reads (itemsUntil.go close item (n + 1)) (ts ++ .comma :: us) follow' (x :: xs) := by
  intro c c' hpasses hnext
  obtain ⟨c₁, hts, hrest⟩ := hpasses.split
  obtain ⟨hpeek, -, hrest⟩ := passes_cons_iff.mp hrest
  refine bind_ok_iff.mpr ⟨x, c₁, hitem c c₁ hts (hpeek ▸ hcomma), ?_⟩
  rw [eat_bind, if_neg fun h => hne (h.symm.trans hpeek)]
  exact bind_ok_iff.mpr ⟨(), _, expect_ok_iff.mpr ⟨hpeek, rfl⟩,
    bind_ok_iff.mpr ⟨xs, c', hxs _ c' hrest hnext, rfl⟩⟩

end Items

/-! ## What is read is spelled -/

theorem exists_tokens (ts : List Token) : ∃ c : Cursor, c.tokens = ts ++ [.endOfInput] := by
  obtain ⟨t, us, h⟩ := List.exists_cons_of_ne_nil (l := ts ++ [Token.endOfInput]) (by simp)
  refine ⟨⟨⟨t, .start⟩, us.map fun u => ⟨u, .start⟩⟩, ?_⟩
  rw [h, Cursor.tokens, List.map_map]
  exact congrArg (t :: ·) (List.map_id' us)

/-- Tokens that a sound parser reads in front of some token spell the result. -/
theorem Sound.spells {R : α → List Token → Prop} (hp : Sound p R) (h : Reads p ts follow x)
    (hnext : ∃ t, follow t) : R x ts := by
  obtain ⟨t, ht⟩ := hnext
  obtain ⟨c, hc⟩ := exists_tokens (ts ++ [t])
  have hends : c.Ends := ⟨_, hc⟩
  rw [List.append_assoc, List.singleton_append] at hc
  obtain ⟨c', hpasses, hc'⟩ := exists_passes hc (by simp)
  obtain ⟨us, hR, hpasses'⟩ := hp c x c' hends (h c c' hpasses (peek_of_tokens hc' ▸ ht))
  exact passes_unique hpasses hpasses' ▸ hR

end Parse

end Factbase
