import Factbase.Proofs.Source.Openings

/-!
# Tokens that parsers complain about

A fault may name a token that was found where it cannot stand
(`SourceFault.token?`). A parser complains about the first token that it
could not take (`Complains`): what stands before it can be gone on with,
and wherever the same tokens stand in front of it, the parser stops there.
This is put together as parsers are. What is read before a complaint has to
be read again in front of the token that could stand in place of the one
complained about, so it must not depend on more than what may follow it
(`Firm`).

Most faults are reported at the token that they name. The exceptions are
the faults of parsers that take the token before they look at it
(`SourceFault.isLate`): those are reported at the next one.
-/

namespace Factbase

namespace SourceFault

/-- The token that a fault complains about. -/
def token? : SourceFault → Option Token
  | .expected _ found | .expectedKeyword _ found | .expectedName found | .expectedPattern found
  | .expectedFactId found | .expectedItem found | .expectedType found | .expectedDefault found
  | .unexpected found => some found
  | _ => none

/-- Faults that are reported when the token was taken already. -/
def isLate : SourceFault → Bool
  | .expectedFactId _ | .expectedType _ | .expectedDefault _ => true
  | _ => false

/-- Where a fault is reported that complains about the token at a cursor. -/
def place (fault : SourceFault) (c : Cursor) : Position :=
  (if fault.isLate then c.advance else c).here.position

end SourceFault

namespace Parse

open Cursor

variable {α β : Type} {p : Parse α} {f : α → Parse β} {go : Nat → Parse α} {x : α} {y : β}
  {ts us : List Token} {t : Token} {fault : SourceFault} {deep : Prop}
  {must : List Token → Prop} {first first' follow follow' : Token → Prop} {c c' : Cursor}

/-! ## Complaints -/

/-- Two cursors at the same token. Behind an opening brace the token after it counts as well: it is
an equals sign at both or at neither. -/
structure Alike (ts : List Token) (c c' : Cursor) : Prop where
  peek : c'.peek = c.peek
  second : ts.getLast? = some .leftBrace → (c'.peekSecond = .equals ↔ c.peekSecond = .equals)

theorem Alike.refl (ts : List Token) (c : Cursor) : Alike ts c c := ⟨rfl, fun _ => .rfl⟩

theorem Alike.of_append (h : Alike (ts ++ us) c c') : Alike us c c' where
  peek := h.peek
  second hlast := h.second (by rw [List.getLast?_append, hlast]; rfl)

/-- Wherever these tokens stand in front of the one at a cursor, the parser stops there. -/
def Refuses (p : Parse α) (ts : List Token) (c : Cursor) (fault : SourceFault) : Prop :=
  ∀ d d', d.Ends → d.Passes ts d' → Alike ts c d' → p d = .error ⟨fault.place d', fault⟩

/-- A parser that reports no fault but those that complain about no token. -/
def Silent (p : Parse α) : Prop := ∀ c e, p c = .error e → e.fault.token? = none

/-- A parser that stops at a token that it complains about. It would go on with other tokens there,
where it has to. -/
def Complains (must : List Token → Prop) (deep : Prop) (follow : Token → Prop) (p : Parse α) : Prop :=
  ∀ c e t, c.Ends → p c = .error e → e.fault.token? = some t →
    ∃ ts c', c.Passes ts c' ∧ c'.peek = t ∧ Refuses p ts c' e.fault ∧
      (must ts → ∃ us, .endOfInput ∉ us ∧ Reaches deep p (ts ++ us) follow)

/-- A parser that would go on with other tokens where it has taken some. -/
abbrev Blames (deep : Prop) (follow : Token → Prop) (p : Parse α) : Prop :=
  Complains (· ≠ []) deep follow p

/-- A parser that would always go on with other tokens. -/
abbrev Mends (deep : Prop) (follow : Token → Prop) (p : Parse α) : Prop :=
  Complains (fun _ => True) deep follow p

theorem Refuses.bind (h : Refuses p ts c fault) (f : α → Parse β) : Refuses (p >>= f) ts c fault :=
  fun d d' hends hpasses halike =>
    Outcome.stateT_bind_error_iff.mpr (.inl (h d d' hends hpasses halike))

theorem Reads.bind_refuses (hp : Reads p ts follow x) (hf : Refuses (f x) us c fault)
    (hnext : follow (us.head?.getD c.peek)) : Refuses (p >>= f) (ts ++ us) c fault := by
  intro d d' hends hpasses halike
  obtain ⟨d₁, hts, hus⟩ := hpasses.split
  have hread := hp d d₁ hts (by rwa [hus.peek, halike.peek])
  exact Outcome.stateT_bind_error_iff.mpr
    (.inr ⟨x, d₁, hread, hf d₁ d' (hends.of_passes hts) hus halike.of_append⟩)

theorem Silent.complains (h : Silent p) : Complains must deep follow p := by
  intro c e t _ herror ht
  rw [h c e herror] at ht
  cases ht

theorem silent_pure (x : α) : Silent (Pure.pure x : Parse α) := fun _ _ h => nomatch h

theorem silent_fail (h : fault.token? = none) : Silent (Parse.fail fault : Parse α) :=
  fun _ _ herror => by
    cases herror
    exact h

theorem Complains.bind (hcomplains : Complains must deep follow p) (hp : Firm follow p)
    (hf : ∀ x, Blames deep follow' (f x)) (hopens : ∀ x, Opens deep follow follow' (f x)) :
    Complains must deep follow' (p >>= f) := by
  intro c e t hends herror ht
  obtain herror | ⟨x, c₁, hx, herror⟩ := Outcome.stateT_bind_error_iff.mp herror
  · obtain ⟨ts, c', hpasses, hpeek, hrefuses, hmends⟩ := hcomplains c e t hends herror ht
    refine ⟨ts, c', hpasses, hpeek, hrefuses.bind f, fun hmust => ?_⟩
    obtain ⟨us, hin, hus⟩ := hmends hmust
    obtain ⟨vs, hin', hvs, -⟩ := hus.bind hopens
    exact ⟨us ++ vs, by simp [hin, hin'], List.append_assoc .. ▸ hvs⟩
  · obtain ⟨ts, hts, hreads⟩ := hp c x c₁ hends hx
    obtain ⟨us, c', hus, hpeek, hrefuses, hmends⟩ := hf x c₁ e t (hends.of_passes hts) herror ht
    have hnext : us.head?.getD c'.peek = c₁.peek := hus.peek.symm
    refine ⟨ts ++ us, c', hts.trans hus, hpeek, hreads.bind_refuses hrefuses (.inl hnext), fun _ => ?_⟩
    cases us with
    | nil =>
        obtain ⟨vs, hin, hvs, hstart⟩ := hopens x
        refine ⟨vs, hin, ?_⟩
        rw [List.append_nil]
        exact hreads.bind_reaches hvs (hstart.mono fun _ => .inr)
    | cons u us =>
        obtain ⟨vs, hin, hvs⟩ := hmends (List.cons_ne_nil _ _)
        refine ⟨vs, hin, ?_⟩
        rw [List.append_assoc]
        exact hreads.bind_reaches hvs (.inl hnext)

theorem Complains.mono (h : Complains must deep follow p) (hfollow : ∀ t, follow' t → follow t) :
    Complains must deep follow' p := by
  intro c e t hends herror ht
  obtain ⟨ts, c', hpasses, hpeek, hrefuses, hmends⟩ := h c e t hends herror ht
  exact ⟨ts, c', hpasses, hpeek, hrefuses, fun hmust =>
    (hmends hmust).imp fun _ => And.imp_right fun hus => hus.mono hfollow⟩

theorem Complains.lift (h : Complains must False follow p) : Complains must deep follow p := by
  intro c e t hends herror ht
  obtain ⟨ts, c', hpasses, hpeek, hrefuses, hmends⟩ := h c e t hends herror ht
  exact ⟨ts, c', hpasses, hpeek, hrefuses, fun hmust =>
    (hmends hmust).imp fun _ => And.imp_right Reaches.lift⟩

theorem Complains.map (h : Complains must deep follow p) (g : α → β) :
    Complains must deep follow (do return g (← p)) := by
  intro c e t hends herror ht
  obtain herror | ⟨x, c₁, -, herror⟩ := Outcome.stateT_bind_error_iff.mp herror
  · obtain ⟨ts, c', hpasses, hpeek, hrefuses, hmends⟩ := h c e t hends herror ht
    refine ⟨ts, c', hpasses, hpeek, hrefuses.bind _, fun hmust => ?_⟩
    obtain ⟨us, hin, hus⟩ := hmends hmust
    obtain ⟨vs, hin', hvs, -⟩ := hus.bind fun x => .pure (g x)
    exact ⟨us ++ vs, by simp [hin, hin'], List.append_assoc .. ▸ hvs⟩
  · cases herror

theorem Blames.mends (h : Blames deep follow p) (hopens : Opens deep first follow p) :
    Mends deep follow p := by
  intro c e t hends herror ht
  obtain ⟨ts, c', hpasses, hpeek, hrefuses, hmends⟩ := h c e t hends herror ht
  refine ⟨ts, c', hpasses, hpeek, hrefuses, fun _ => ?_⟩
  cases ts with
  | nil =>
      obtain ⟨us, hin, hus, -⟩ := hopens
      exact ⟨us, hin, hus⟩
  | cons u us => exact hmends (List.cons_ne_nil _ _)

theorem Mends.blames (h : Mends deep follow p) : Blames deep follow p := by
  intro c e t hends herror ht
  obtain ⟨ts, c', hpasses, hpeek, hrefuses, hmends⟩ := h c e t hends herror ht
  exact ⟨ts, c', hpasses, hpeek, hrefuses, fun _ => hmends trivial⟩

/-! ### The first token -/

/-- The same where a token comes first. -/
def BlamesAt (deep : Prop) (follow : Token → Prop) (t : Token) (p : Parse α) : Prop :=
  ∀ c e u, c.Ends → c.peek = t → p c = .error e → e.fault.token? = some u →
    ∃ ts c', c.Passes ts c' ∧ c'.peek = u ∧ Refuses p ts c' e.fault ∧
      (ts ≠ [] → ∃ us, .endOfInput ∉ us ∧ Reaches deep p (ts ++ us) follow)

theorem blames_iff_at : Blames deep follow p ↔ ∀ t, BlamesAt deep follow t p :=
  ⟨fun h _ c e u hends _ => h c e u hends, fun h c e u hends => h c.peek c e u hends rfl⟩

theorem BlamesAt.congr {q : Parse α} (hq : BlamesAt deep follow t q)
    (hp : ∀ d : Cursor, d.peek = t → p d = q d) : BlamesAt deep follow t p := by
  intro c e u hends hpeek herror hu
  obtain ⟨ts, c', hpasses, hc', hrefuses, hmends⟩ := hq c e u hends hpeek (hp c hpeek ▸ herror) hu
  refine ⟨ts, c', hpasses, hc', fun d d' hdends hd halike => ?_, fun hne => ?_⟩
  · have hd' : d.peek = t := by rw [hd.peek, halike.peek, ← hpasses.peek, hpeek]
    rw [hp d hd']
    exact hrefuses d d' hdends hd halike
  · obtain ⟨us, hin, hus⟩ := hmends hne
    refine ⟨us, hin, ?_⟩
    cases ts with
    | nil => exact absurd rfl hne
    | cons v ts =>
        obtain rfl : v = t := (passes_cons_iff.mp hpasses).1.symm.trans hpeek
        exact hus.congr hp

theorem BlamesAt.ok (h : ∀ d : Cursor, d.peek = t → ∃ r, p d = .ok r) : BlamesAt deep follow t p := by
  intro c e u _ hpeek herror
  obtain ⟨r, hr⟩ := h c hpeek
  cases hr.symm.trans herror

/-- A complaint about the first token. -/
theorem BlamesAt.here (fault : Token → SourceFault) (hfault : (fault t).token? = some t)
    (hp : ∀ d : Cursor, d.peek = t → p d = .error ⟨(fault t).place d, fault t⟩) :
    BlamesAt deep follow t p := by
  intro c e u _ hpeek herror hu
  rw [hp c hpeek] at herror
  cases herror
  refine ⟨[], c, .refl c, hpeek.trans (Option.some.inj (hfault.symm.trans hu)),
    fun d d' _ hpasses halike => ?_, fun hne => absurd rfl hne⟩
  obtain rfl := passes_nil_iff.mp hpasses
  exact hp d' (halike.peek.trans hpeek)

/-- The first token is taken, and something is read behind it. -/
theorem Mends.behind {q : Parse α} (hq : Mends deep follow q) (ht : t ≠ .endOfInput)
    (hp : ∀ d : Cursor, d.peek = t → p d = q d.advance) : BlamesAt deep follow t p := by
  intro c e u hends hpeek herror hu
  have hpass := hends.pass hpeek ht
  rw [hp c hpeek] at herror
  obtain ⟨ts, c', hpasses, hc', hrefuses, hmends⟩ := hq _ e u (hends.of_passes hpass) herror hu
  obtain ⟨us, hin, hus⟩ := hmends trivial
  refine ⟨t :: ts, c', hpass.trans hpasses, hc', fun d d' hdends hd halike => ?_,
    fun _ => ⟨us, hin, ?_⟩⟩
  · obtain ⟨hdpeek, -, hd⟩ := passes_cons_iff.mp hd
    have halike : Alike ([t] ++ ts) c' d' := halike
    rw [hp d hdpeek]
    exact hrefuses _ d' (hdends.of_passes (hdends.pass hdpeek ht)) hd halike.of_append
  · exact hus.behind hp

theorem Blames.peek {f : Token → Parse β} (hf : ∀ t, BlamesAt deep follow t (f t)) :
    Blames deep follow (Parse.peek >>= f) :=
  blames_iff_at.mpr fun t => (hf t).congr fun d hd => by rw [peek_bind, hd]

theorem Blames.eat {f : Bool → Parse β} (ht : t ≠ .endOfInput) (htrue : Mends deep follow (f true))
    (hfalse : Blames deep follow (f false)) : Blames deep follow (Parse.eat t >>= f) := by
  refine blames_iff_at.mpr fun u => ?_
  by_cases hu : u = t
  · exact htrue.behind (hu ▸ ht) fun d hd => by rw [eat_bind, if_pos (hd.trans hu)]
  · exact (blames_iff_at.mp hfalse u).congr fun d hd => by rw [eat_bind, if_neg (hd ▸ hu)]

theorem Mends.eat {f : Bool → Parse β} (ht : t ≠ .endOfInput) (htrue : Mends deep follow (f true))
    (hopens : Opens deep first follow (f true)) (hfalse : Blames deep follow (f false)) :
    Mends deep follow (Parse.eat t >>= f) :=
  (Blames.eat ht htrue hfalse).mends (.eat_true ht hopens)

theorem Blames.name {f : String → Parse β} (hf : ∀ n, Mends deep follow (f n)) :
    Blames deep follow (Parse.expectName >>= f) := by
  refine blames_iff_at.mpr fun t => ?_
  cases t with
  | name n => exact (hf n).behind (by simp) fun d hd => expectName_bind hd
  | _ =>
      refine BlamesAt.here .expectedName rfl fun d hd => Outcome.stateT_bind_error_iff.mpr (.inl ?_)
      rw [Parse.expectName, peek_bind, hd]
      rfl

theorem Mends.name {f : String → Parse β} (hf : ∀ n, Mends deep follow (f n)) (name : String)
    (hopens : Opens deep first follow (f name)) : Mends deep follow (Parse.expectName >>= f) :=
  (Blames.name hf).mends (.name name hopens)

theorem Blames.take {f : Token → Parse β}
    (hf : ∀ t, (∃ fault, f t = Parse.fail fault ∧ fault.isLate = true ∧ fault.token? = some t) ∨
      t ≠ .endOfInput ∧ Mends deep follow (f t)) : Blames deep follow (Parse.take >>= f) := by
  refine blames_iff_at.mpr fun t => ?_
  obtain ⟨fault, hfail, hlate, hfault⟩ | ⟨ht, hmends⟩ := hf t
  · refine BlamesAt.here (fun _ => fault) hfault fun d hd => ?_
    rw [take_bind, hd, hfail, SourceFault.place, if_pos hlate]
    rfl
  · exact hmends.behind ht fun d hd => by rw [take_bind, hd]

theorem Blames.failHere {fault : Token → SourceFault} (hfault : ∀ t, (fault t).token? = some t)
    (hplace : ∀ t, (fault t).isLate = false) : Blames deep follow (Parse.failHere fault : Parse α) := by
  refine blames_iff_at.mpr fun t => BlamesAt.here fault (hfault t) fun d hd => ?_
  rw [Parse.failHere, hd, SourceFault.place, hplace]
  rfl

theorem Blames.expect (ht : t ≠ .endOfInput) : Blames deep follow (Parse.expect t) :=
  .eat ht (silent_pure ()).complains (.failHere (fun _ => rfl) fun _ => rfl)

theorem Blames.expectKeyword (keyword : String) : Blames deep follow (Parse.expectKeyword keyword) :=
  .eat (by simp) (silent_pure ()).complains (.failHere (fun _ => rfl) fun _ => rfl)

/-- A token that must come, and something behind it. -/
theorem Mends.expect {q : Parse β} (ht : t ≠ .endOfInput) (hq : Blames deep follow q)
    (hopens : Opens deep first follow q) : Mends deep follow (do Parse.expect t; q) := by
  have hblames : Blames deep follow (do Parse.expect t; q) :=
    (Blames.expect ht).bind ((Solid.expect ht).firm fun _ => True) (fun _ => hq) fun _ =>
      hopens.mono (fun _ _ => trivial) fun _ => id
  exact hblames.mends (.expect_bind ht hopens)

/-- A parser that stops in front of what may follow would always go on. -/
theorem Mends.unless {stop : Token → Prop} {q : Parse α}
    (hstop : ∀ c : Cursor, stop c.peek → p c = .ok (x, c))
    (hother : ∀ c : Cursor, ¬ stop c.peek → p c = q c) (hfollow : ∀ t, follow t → stop t)
    (hq : Blames deep follow q) : Mends deep follow p := by
  have hblames : Blames deep follow p := blames_iff_at.mpr fun t => by
    by_cases ht : stop t
    · exact .ok fun d hd => ⟨_, hstop d (hd ▸ ht)⟩
    · exact (blames_iff_at.mp hq t).congr fun d hd => hother d (hd ▸ ht)
  exact hblames.mends (.unless hstop hfollow)

/-! ### Loops -/

/-- Wherever these tokens stand in front of the one at a cursor, a loop with enough turns stops there. -/
def RefusesLoop (go : Nat → Parse α) (ts : List Token) (c : Cursor) (fault : SourceFault) : Prop :=
  ∀ m d d', d.rest.length ≤ m → d.Ends → d.Passes ts d' → Alike ts c d' →
    go m d = .error ⟨fault.place d', fault⟩

/-- In front of a token a loop stops with a fault, wherever the same tokens stand in front of it.
Behind them it would go on with other tokens. -/
def LoopComplains (deep : Prop) (follow : Token → Prop) (go : Nat → Parse α) (c : Cursor)
    (fault : SourceFault) (t : Token) : Prop :=
  ∃ ts c', c.Passes ts c' ∧ c'.peek = t ∧ RefusesLoop go ts c' fault ∧
    ∃ us, .endOfInput ∉ us ∧ ReachesLoop deep go (ts ++ us) follow

/-- A loop that stops at a token that it complains about, and would go on with other tokens. -/
def MendsLoop (deep : Prop) (follow : Token → Prop) (go : Nat → Parse α) : Prop :=
  ∀ n c e t, c.Ends → c.rest.length ≤ n → go n c = .error e → e.fault.token? = some t →
    LoopComplains deep follow go c e.fault t

theorem MendsLoop.mends (h : MendsLoop deep follow go) :
    Mends deep follow (Parse.remaining >>= go) := by
  intro c e t hends herror ht
  obtain ⟨ts, c', hpasses, hpeek, hrefuses, us, hin, hus⟩ := h _ c e t hends (Nat.le_refl _) herror ht
  exact ⟨ts, c', hpasses, hpeek, fun d d' hdends hd halike =>
    hrefuses _ d d' (Nat.le_refl _) hdends hd halike, fun _ => ⟨us, hin, hus.reaches⟩⟩

/-- Where no tokens are left the input ends. -/
theorem peek_eq_of_length (hends : c.Ends) (h : c.rest.length ≤ 0) : c.peek = .endOfInput := by
  by_contra hne
  have := (hends.advance hne).length
  simp only [List.length_singleton] at this
  omega

/-- A turn in front of others takes its tokens, and hands on what they are refused for. -/
theorem RefusesLoop.cons (h : RefusesLoop go us c' fault) (hne : ts ≠ []) (hus : c.Passes us c')
    (hgo : ∀ m d d₁ e, d.Passes ts d₁ → d₁.peek = c.peek → go m d₁ = .error e →
      go (m + 1) d = .error e) : RefusesLoop go (ts ++ us) c' fault := by
  intro m d d' hm hends hd halike
  obtain ⟨d₁, hts, hdus⟩ := hd.split
  have hlength := hts.length
  have hpos := List.length_pos_of_ne_nil hne
  cases m with
  | zero => omega
  | succ m =>
      exact hgo m d d₁ _ hts (by rw [hdus.peek, halike.peek, hus.peek])
        (h m d₁ d' (by omega) (hends.of_passes hts) hdus halike.of_append)

theorem LoopComplains.cons {c₁ : Cursor} (h : LoopComplains deep follow go c₁ fault t)
    (hts : c.Passes ts c₁) (hne : ts ≠ [])
    (hgo : ∀ m d d₁ e, d.Passes ts d₁ → d₁.peek = c₁.peek → go m d₁ = .error e →
      go (m + 1) d = .error e)
    (hlast : ∃ us, .endOfInput ∉ us ∧ ReachesLoop deep go (ts ++ us) follow)
    (hmore : ∀ us, ReachesLoop deep go (c₁.peek :: us) follow →
      ReachesLoop deep go (ts ++ c₁.peek :: us) follow) :
    LoopComplains deep follow go c fault t := by
  obtain ⟨us, c', hus, hpeek, hrefuses, vs, hin, hvs⟩ := h
  refine ⟨ts ++ us, c', hts.trans hus, hpeek, hrefuses.cons hne hus hgo, ?_⟩
  cases us with
  | nil =>
      rw [List.append_nil]
      exact hlast
  | cons u us =>
      obtain rfl : c₁.peek = u := (passes_cons_iff.mp hus).1
      exact ⟨vs, hin, List.append_assoc .. ▸ hmore _ hvs⟩

section Turns

variable {turn : Parse (Option α)}

/-- A complaint of the first turn. -/
theorem Blames.firstTurn {e : SourceError} (hblames : Blames deep follow turn)
    (hend : ∀ c : Cursor, c.peek = .endOfInput → turn c = .ok (none, c))
    (hstop : ∀ c : Cursor, follow c.peek → turn c = .ok (none, c)) (hends : c.Ends)
    (herror : turn c = .error e) (ht : e.fault.token? = some t) :
    LoopComplains deep follow (turns turn) c e.fault t := by
  obtain ⟨ts, c', hpasses, hpeek, hrefuses, hmends⟩ := hblames c e t hends herror ht
  refine ⟨ts, c', hpasses, hpeek, fun m d d' hm hdends hd halike => ?_, ?_⟩
  · have hd := hrefuses d d' hdends hd halike
    cases m with
    | zero => cases hd.symm.trans (hend d (peek_eq_of_length hdends hm))
    | succ m => exact Outcome.stateT_bind_error_iff.mpr (.inl hd)
  · by_cases hne : ts = []
    · exact ⟨[], by simp, by rw [hne]; exact reachesLoop_nil hstop⟩
    · obtain ⟨us, hin, hus⟩ := hmends hne
      exact ⟨us, hin, hus.lastTurn (by simp [hne]) hstop⟩

theorem mendsLoop_turns (hturn : Firm follow turn) (hblames : Blames deep follow turn)
    (hend : ∀ c : Cursor, c.peek = .endOfInput → turn c = .ok (none, c))
    (hmoves : ∀ c x c', c.Ends → turn c = .ok (some x, c') → c'.rest.length < c.rest.length)
    (hstop : ∀ c : Cursor, follow c.peek → turn c = .ok (none, c)) :
    MendsLoop deep follow (turns turn) := by
  intro n
  induction n with
  | zero => exact fun c e t _ _ herror => by cases herror
  | succ n ih =>
      intro c e t hends hn herror ht
      obtain herror | ⟨r, c₁, hr, herror⟩ := Outcome.stateT_bind_error_iff.mp herror
      · exact hblames.firstTurn hend hstop hends herror ht
      cases r with
      | none => cases herror
      | some x =>
          obtain herror | ⟨xs, c₂, -, herror⟩ := Outcome.stateT_bind_error_iff.mp herror
          · obtain ⟨ts, hts, hreads⟩ := hturn c (some x) c₁ hends hr
            have hless := hmoves c x c₁ hends hr
            have hlength := hts.length
            have hne : ts ≠ [] := fun hnil => by
              rw [hnil, List.length_nil] at hlength
              omega
            refine (ih c₁ e t (hends.of_passes hts) (by omega) herror ht).cons hts hne
              (fun m d d₁ e hd hpeek hrest => ?_) ⟨[], by simp, ?_⟩ fun us hus => ?_
            · exact Outcome.stateT_bind_error_iff.mpr (.inr ⟨some x, d₁, hreads d d₁ hd (.inl hpeek),
                Outcome.stateT_bind_error_iff.mpr (.inl hrest)⟩)
            · exact .cons hreads hne (reachesLoop_nil hstop) fun _ => .inr
            · exact .cons hreads hne hus (.inl rfl)
          · cases herror

theorem mendsLoop_separated (ht : t ≠ .endOfInput) (hother : ∀ u, follow u → u ≠ t)
    (hfirm : Firm follow turn) (hmends : Mends deep follow turn) :
    MendsLoop deep follow (turns (separated t turn)) :=
  mendsLoop_turns (.eat ht hother hfirm ((Loose.pure _).firm _)) (.eat ht hmends (silent_pure _).complains)
    (fun _ hend => separated_other (hend ▸ ht.symm)) (fun _ _ _ => separated_moves ht hfirm.steady)
    fun _ h => separated_other (hother _ h)

end Turns

section After

variable {γ : Type} {go : Nat → Parse β} {g : α → β → γ}

theorem Reads.after (hx : Reads p ts follow' x) (hnil : ∀ m, Reads (go m) [] follow y)
    (hfollow : ∀ t, follow t → follow' t) (m : Nat) : Reads (after p go g m) ts follow (g x y) := by
  rw [← List.append_nil ts]
  exact hx.bind ((hnil m).bind (Reads.pure _) fun _ => id) hfollow

/-- A complaint of the parser in front. -/
theorem Mends.inFront {e : SourceError} (hmends : Mends deep follow p)
    (hnil : ∀ m, Reads (go m) [] follow y) (hends : c.Ends) (herror : p c = .error e)
    (ht : e.fault.token? = some t) : LoopComplains deep follow (after p go g) c e.fault t := by
  obtain ⟨ts, c', hpasses, hpeek, hrefuses, hus⟩ := hmends c e t hends herror ht
  obtain ⟨us, hin, hus⟩ := hus trivial
  refine ⟨ts, c', hpasses, hpeek, fun m d d' _ hdends hd halike =>
    Outcome.stateT_bind_error_iff.mpr (.inl (hrefuses d d' hdends hd halike)), us, hin, ?_⟩
  exact hus.imp (fun ⟨x, hx⟩ => ⟨g x y, fun m _ => hx.after hnil (fun _ => id) m⟩) fun ⟨hdeep, hus⟩ =>
    ⟨hdeep, fun m _ => hus.bind _⟩

/-- What a loop reaches behind another parser. -/
theorem ReachesLoop.after (hx : Reads p ts follow' x) (h : ReachesLoop deep go us follow)
    (hnext : Starts follow' follow us) : ReachesLoop deep (after p go g) (ts ++ us) follow := by
  refine h.imp (fun ⟨z, hz⟩ => ⟨g x z, fun m hm => ?_⟩) fun ⟨hdeep, hz⟩ => ⟨hdeep, fun m hm => ?_⟩
  all_goals rw [List.length_append] at hm
  · have hmore : Reads (do let z ← go m; return g x z) us follow (g x z) :=
      fun d d' hd hnext => bind_ok_iff.mpr ⟨z, d', hz m (by omega) d d' hd hnext, rfl⟩
    exact hx.bind hmore fun _ => hnext.head
  · exact hx.bind_tooDeep ((hz m (by omega)).bind _) hnext

theorem MendsLoop.after (hp : Firm follow p) (hmends : Mends deep follow p)
    (hgo : MendsLoop deep follow go) (hnil : ∀ m, Reads (go m) [] follow y) :
    MendsLoop deep follow (after p go g) := by
  intro n c e t hends hn herror ht
  obtain herror | ⟨x, c₁, hx, herror⟩ := Outcome.stateT_bind_error_iff.mp herror
  · exact hmends.inFront hnil hends herror ht
  obtain herror | ⟨z, c₂, -, herror⟩ := Outcome.stateT_bind_error_iff.mp herror
  · obtain ⟨ts, hts, hreads⟩ := hp c x c₁ hends hx
    have hlength := hts.length
    obtain ⟨us, c', hus, hpeek, hrefuses, vs, hin, hvs⟩ :=
      hgo n c₁ e t (hends.of_passes hts) (by omega) herror ht
    refine ⟨ts ++ us, c', hts.trans hus, hpeek, fun m d d' hm hdends hd halike => ?_, ?_⟩
    · obtain ⟨d₁, hdts, hdus⟩ := hd.split
      have hdlength := hdts.length
      have hread := hreads d d₁ hdts (.inl (by rw [hdus.peek, halike.peek, hus.peek]))
      have hrest := hrefuses m d₁ d' (by omega) (hdends.of_passes hdts) hdus halike.of_append
      exact Outcome.stateT_bind_error_iff.mpr (.inr ⟨x, d₁, hread,
        Outcome.stateT_bind_error_iff.mpr (.inl hrest)⟩)
    · cases us with
      | nil =>
          refine ⟨[], by simp, .inl ⟨g x y, fun m _ => ?_⟩⟩
          rw [List.append_nil, List.append_nil]
          exact hreads.after hnil (fun _ => .inr) m
      | cons u us =>
          refine ⟨vs, hin, ?_⟩
          rw [List.append_assoc]
          exact .after hreads hvs (.inl hus.peek.symm)
  · cases herror

end After

/-! ### Lists in brackets -/

section Items

variable {item : Parse α} {close : Token} {e : SourceError}

theorem itemsUntil_go_error (h : item c = .error e) (n : Nat) :
    itemsUntil.go close item n c = .error e := by
  cases n <;> exact Outcome.stateT_bind_error_iff.mpr (.inl h)

theorem expect_error_iff :
    Parse.expect t c = .error e ↔ c.peek ≠ t ∧ e = ⟨c.here.position, .expected t c.peek⟩ := by
  rw [Parse.expect, eat_bind]
  by_cases hpeek : c.peek = t
  · rw [if_pos hpeek, if_pos rfl]
    exact ⟨fun h => (by cases h), fun h => absurd hpeek h.1⟩
  · rw [if_neg hpeek, if_neg Bool.false_ne_true]
    exact ⟨fun h => (by cases h; exact ⟨hpeek, rfl⟩), fun h => by rw [h.2]; rfl⟩

/-- A complaint of the item that comes first. -/
theorem Mends.firstItem (hmends : Mends False follow item) (hclose : close ≠ .endOfInput)
    (hend : follow close) (hends : c.Ends) (herror : item c = .error e) (ht : e.fault.token? = some t) :
    LoopComplains False follow' (itemsUntil.go close item) c e.fault t := by
  obtain ⟨ts, c', hpasses, hpeek, hrefuses, hus⟩ := hmends c e t hends herror ht
  obtain ⟨us, hin, hus⟩ := hus trivial
  obtain ⟨x, hx⟩ := hus.reads
  refine ⟨ts, c', hpasses, hpeek, fun m d d' _ hdends hd halike =>
    itemsUntil_go_error (hrefuses d d' hdends hd halike) m, us ++ [close],
    by simp [hin, hclose.symm], .inl ⟨[x], fun m _ => ?_⟩⟩
  rw [← List.append_assoc]
  exact reads_itemsUntil_last hx hend m

/-- Neither a comma nor the closing bracket comes behind an item. -/
theorem Reads.noComma {c₁ : Cursor} (hts : c.Passes ts c₁) (hne : ts ≠ [])
    (hreads : Reads item ts (fun t => t = c₁.peek ∨ follow t) x) (hclose : close ≠ .endOfInput)
    (hend : follow close) (hother : c₁.peek ≠ close) (hcomma : c₁.peek ≠ .comma) :
    LoopComplains False follow' (itemsUntil.go close item) c (.expected .comma c₁.peek) c₁.peek := by
  have hpos := List.length_pos_of_ne_nil hne
  have hlast := hreads.mono fun _ => .inr
  refine ⟨ts, c₁, hts, rfl, fun m d d' hm hdends hd halike => ?_, [close], by simp [hclose.symm],
    .inl ⟨[x], fun m _ => reads_itemsUntil_last hlast hend m⟩⟩
  have hlength := hd.length
  cases m with
  | zero => omega
  | succ m =>
      refine Outcome.stateT_bind_error_iff.mpr (.inr ⟨x, d', hreads d d' hd (.inl halike.peek), ?_⟩)
      rw [eat_bind, if_neg (halike.peek ▸ hother)]
      refine Outcome.stateT_bind_error_iff.mpr (.inl (expect_error_iff.mpr ⟨halike.peek ▸ hcomma, ?_⟩))
      rw [halike.peek]
      rfl

/-- A complaint behind an item and a comma. -/
theorem LoopComplains.moreItems {c₁ : Cursor} {ts : List Token}
    (h : LoopComplains False follow' (itemsUntil.go close item) c₁.advance fault t)
    (hts : c.Passes ts c₁) (hends : c₁.Ends) (hpeek : c₁.peek = .comma)
    (hreads : Reads item ts follow x) (hcomma : follow .comma) (hne : close ≠ .comma) :
    LoopComplains False follow' (itemsUntil.go close item) c fault t := by
  obtain ⟨us, c', hus, hc', hrefuses, vs, hin, hvs⟩ := h
  obtain ⟨xs, hxs⟩ := hvs.resolve_right fun h => h.1
  have hone := hends.pass hpeek (by decide)
  refine ⟨ts ++ [Token.comma] ++ us, c', (hts.trans hone).trans hus, hc',
    hrefuses.cons (by simp) hus fun m d d₁ e hd _ hrest => ?_, vs, hin, .inl ⟨x :: xs, fun m hm => ?_⟩⟩
  · obtain ⟨d₀, hdts, hdcomma⟩ := hd.split
    obtain ⟨hdpeek, rfl⟩ := hdcomma.one
    refine Outcome.stateT_bind_error_iff.mpr (.inr ⟨x, d₀, hreads d d₀ hdts (hdpeek ▸ hcomma), ?_⟩)
    rw [eat_bind, if_neg (hdpeek ▸ hne.symm)]
    exact Outcome.stateT_bind_error_iff.mpr (.inr
      ⟨(), _, expect_ok_iff.mpr ⟨hdpeek, rfl⟩, Outcome.stateT_bind_error_iff.mpr (.inl hrest)⟩)
  · rw [List.append_assoc, List.append_assoc, List.singleton_append] at hm ⊢
    rw [List.length_append, List.length_cons] at hm
    cases m with
    | zero => omega
    | succ m => exact reads_itemsUntil_more hreads hcomma hne (hxs m (by omega))

theorem mendsLoop_itemsUntil (hfirm : Firm follow item) (hmoves : Advances item)
    (hmends : Mends False follow item) (hclose : close ≠ .endOfInput) (hend : follow close)
    (hcomma : follow .comma) (hne : close ≠ .comma) :
    MendsLoop False follow' (itemsUntil.go close item) := by
  intro n
  induction n with
  | zero =>
      intro c e t hends hn herror ht
      obtain herror | ⟨x, c₁, hx, -⟩ := Outcome.stateT_bind_error_iff.mp herror
      · exact hmends.firstItem hclose hend hends herror ht
      · have := hmoves.length_lt hends hx
        omega
  | succ n ih =>
      intro c e t hends hn herror ht
      obtain herror | ⟨x, c₁, hx, herror⟩ := Outcome.stateT_bind_error_iff.mp herror
      · exact hmends.firstItem hclose hend hends herror ht
      obtain ⟨ts, hts, hreads⟩ := hfirm c x c₁ hends hx
      have hless := hmoves.length_lt hends hx
      have hlength := hts.length
      have hends₁ := hends.of_passes hts
      rw [eat_bind] at herror
      split at herror
      · cases herror
      rename_i hother
      obtain herror | ⟨⟨⟩, c₂, hexpect, herror⟩ := Outcome.stateT_bind_error_iff.mp herror
      · obtain ⟨hpeek, rfl⟩ := expect_error_iff.mp herror
        cases ht
        refine hreads.noComma hts (fun hnil => ?_) hclose hend hother hpeek
        rw [hnil, List.length_nil] at hlength
        omega
      obtain ⟨hpeek, rfl⟩ := expect_ok_iff.mp hexpect
      obtain herror | ⟨xs, c₂, -, herror⟩ := Outcome.stateT_bind_error_iff.mp herror
      · have hone := hends₁.pass hpeek (by decide)
        have hlength₁ := hone.length
        rw [List.length_singleton] at hlength₁
        exact (ih _ e t (hends₁.of_passes hone) (by omega) herror ht).moreItems hts hends₁ hpeek
          (hreads.mono fun _ => .inr) hcomma hne
      · cases herror

end Items

end Parse

end Factbase
