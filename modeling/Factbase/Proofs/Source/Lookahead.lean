import Factbase.Proofs.Source.Parsing

/-!
# How far parsers look

A parser sees all of the text, but what it reads depends on less. It is
`Steady` if it reads the same tokens again wherever they stand in front of
the same next token, `Solid` if it reads them again whatever comes next,
and `Firm` if it does in front of the same token and of any that may
follow. All are put together as parsers are: a solid parser takes a token
at least, so what stands before it is followed by the same token each time
(`Solid.after`).

A loop has a number of turns to begin with, which the rest of the text
gives it; it is steady, solid or firm if the tokens that it takes are turns
enough (`SteadyLoop`, `SolidLoop`, `FirmLoop`).
-/

namespace Factbase

namespace Parse

open Cursor

variable {α β : Type} {p : Parse α} {f : α → Parse β} {go : Nat → Parse α} {x : α} {y : β}
  {ts us : List Token} {t : Token} {follow follow' : Token → Prop}

/-- Wherever these tokens stand in front of one that may follow, the parser reads them and stops. -/
def Reads (p : Parse α) (ts : List Token) (follow : Token → Prop) (x : α) : Prop :=
  ∀ c c', c.Passes ts c' → follow c'.peek → p c = .ok (x, c')

/-- What a parser reads depends on the tokens that it passes over and on the next one. -/
def Steady (p : Parse α) : Prop :=
  ∀ c x c', c.Ends → p c = .ok (x, c') → ∃ ts, c.Passes ts c' ∧ Reads p ts (· = c'.peek) x

/-- What a parser reads it reads again in front of any token that may follow the result. -/
def Before (follow : α → Token → Prop) (p : Parse α) : Prop :=
  ∀ c x c', c.Ends → p c = .ok (x, c') → ∃ ts, c.Passes ts c' ∧ Reads p ts (follow x) x

/-- What a parser reads depends on the tokens that it passes over. -/
def Loose (p : Parse α) : Prop := Before (fun _ _ => True) p

/-- What a parser reads depends on the tokens that it passes over, one at least. -/
def Solid (p : Parse α) : Prop :=
  ∀ c x c', c.Ends → p c = .ok (x, c') →
    ∃ ts, ts ≠ [] ∧ c.Passes ts c' ∧ Reads p ts (fun _ => True) x

/-- What a parser reads depends on the tokens that it passes over, one at least, and on the next
one. -/
def Advances (p : Parse α) : Prop :=
  ∀ c x c', c.Ends → p c = .ok (x, c') →
    ∃ ts, ts ≠ [] ∧ c.Passes ts c' ∧ Reads p ts (· = c'.peek) x

/-- What a loop reads depends on the tokens that it passes over, which are turns enough, and on the
next one. -/
def SteadyLoop (go : Nat → Parse α) : Prop :=
  ∀ n c x c', c.Ends → c.rest.length ≤ n → go n c = .ok (x, c') →
    ∃ ts, c.Passes ts c' ∧ ∀ m, ts.length ≤ m → Reads (go m) ts (· = c'.peek) x

/-- What a parser reads it reads again in front of the same token and of any that may follow. -/
def Firm (follow : Token → Prop) (p : Parse α) : Prop :=
  ∀ c x c', c.Ends → p c = .ok (x, c') →
    ∃ ts, c.Passes ts c' ∧ Reads p ts (fun t => t = c'.peek ∨ follow t) x

/-- What a loop reads it reads again in front of the same token and of any that may follow, with
as many turns as there are tokens. -/
def FirmLoop (follow : Token → Prop) (go : Nat → Parse α) : Prop :=
  ∀ n c x c', c.Ends → c.rest.length ≤ n → go n c = .ok (x, c') →
    ∃ ts, c.Passes ts c' ∧ ∀ m, ts.length ≤ m → Reads (go m) ts (fun t => t = c'.peek ∨ follow t) x

/-- What a loop reads depends on the tokens that it passes over, one at least, which are turns
enough. -/
def SolidLoop (go : Nat → Parse α) : Prop :=
  ∀ n c x c', c.Ends → c.rest.length ≤ n → go n c = .ok (x, c') →
    ∃ ts, ts ≠ [] ∧ c.Passes ts c' ∧ ∀ m, ts.length ≤ m → Reads (go m) ts (fun _ => True) x

/-- A parser that is steady wherever the token stands. -/
def SteadyAt (t : Token) (p : Parse α) : Prop :=
  ∀ c x c', c.Ends → c.peek = t → p c = .ok (x, c') →
    ∃ ts, c.Passes ts c' ∧ Reads p ts (· = c'.peek) x

/-! ## Reading again -/

theorem Reads.mono (h : Reads p ts follow x) (hfollow : ∀ t, follow' t → follow t) :
    Reads p ts follow' x :=
  fun c c' hpasses hnext => h c c' hpasses (hfollow _ hnext)

theorem Reads.bind (hp : Reads p ts follow x) (hf : Reads (f x) us follow' y)
    (hfollow : ∀ t, follow' t → follow (us.head?.getD t)) :
    Reads (p >>= f) (ts ++ us) follow' y := by
  intro c c' hpasses hnext
  obtain ⟨c₁, hts, hus⟩ := hpasses.split
  exact bind_ok_iff.mpr ⟨x, c₁, hp c c₁ hts (hus.peek ▸ hfollow _ hnext), hf c₁ c' hus hnext⟩

/-- If what comes next is the same, so is the token in front of which the first parser stops. -/
theorem Reads.bind_steady {c c' : Cursor} (hp : Reads p ts (· = c.peek) x) (hpasses : c.Passes us c')
    (hf : Reads (f x) us (· = c'.peek) y) : Reads (p >>= f) (ts ++ us) (· = c'.peek) y :=
  hp.bind hf fun t ht => by rw [ht, hpasses.peek]

theorem Reads.pure (x : α) : Reads (Pure.pure x : Parse α) [] follow x := by
  intro c c' hpasses _
  obtain rfl := passes_nil_iff.mp hpasses
  rfl

/-! ## Parsers that look at the next token only -/

theorem Loose.steady (h : Loose p) : Steady p := by
  intro c x c' hends hread
  obtain ⟨ts, hpasses, hreads⟩ := h c x c' hends hread
  exact ⟨ts, hpasses, hreads.mono fun _ _ => trivial⟩

theorem Solid.loose (h : Solid p) : Loose p := by
  intro c x c' hends hread
  obtain ⟨ts, -, hpasses, hreads⟩ := h c x c' hends hread
  exact ⟨ts, hpasses, hreads⟩

theorem Solid.steady (h : Solid p) : Steady p := h.loose.steady

theorem Loose.pure (x : α) : Loose (Pure.pure x : Parse α) := by
  intro c y c' _ hread
  cases hread
  exact ⟨[], .refl c, .pure x⟩

theorem Solid.fail (fault : SourceFault) : Solid (Parse.fail fault : Parse α) :=
  fun _ _ _ _ hread => by cases hread

theorem Solid.failHere (fault : Token → SourceFault) : Solid (Parse.failHere fault : Parse α) :=
  fun _ _ _ _ hread => by cases hread

theorem Loose.before {follow : α → Token → Prop} (h : Loose p) : Before follow p := by
  intro c x c' hends hread
  obtain ⟨ts, hpasses, hreads⟩ := h c x c' hends hread
  exact ⟨ts, hpasses, hreads.mono fun _ _ => trivial⟩

theorem Steady.bind (hp : Steady p) (hf : ∀ x, Steady (f x)) : Steady (p >>= f) := by
  intro c y c' hends hread
  obtain ⟨x, c₁, hx, hy⟩ := bind_ok_iff.mp hread
  obtain ⟨ts, hts, hx⟩ := hp c x c₁ hends hx
  obtain ⟨us, hus, hy⟩ := hf x c₁ y c' (hends.of_passes hts) hy
  exact ⟨ts ++ us, hts.trans hus, hx.bind_steady hus hy⟩

theorem Solid.bind (hp : Solid p) (hf : ∀ x, Loose (f x)) : Solid (p >>= f) := by
  intro c y c' hends hread
  obtain ⟨x, c₁, hx, hy⟩ := bind_ok_iff.mp hread
  obtain ⟨ts, hne, hts, hx⟩ := hp c x c₁ hends hx
  obtain ⟨us, hus, hy⟩ := hf x c₁ y c' (hends.of_passes hts) hy
  exact ⟨ts ++ us, by simp [hne], hts.trans hus, hx.bind hy fun _ _ => trivial⟩

/-- A solid parser shields the one before it from what comes next. -/
theorem Solid.after (hp : Steady p) (hf : ∀ x, Solid (f x)) : Solid (p >>= f) := by
  intro c y c' hends hread
  obtain ⟨x, c₁, hx, hy⟩ := bind_ok_iff.mp hread
  obtain ⟨ts, hts, hx⟩ := hp c x c₁ hends hx
  obtain ⟨us, hne, hus, hy⟩ := hf x c₁ y c' (hends.of_passes hts) hy
  refine ⟨ts ++ us, by simp [hne], hts.trans hus, hx.bind hy fun t _ => ?_⟩
  rw [hus.peek]
  cases us with
  | nil => exact absurd rfl hne
  | cons u us => rfl

theorem Advances.steady (h : Advances p) : Steady p := by
  intro c x c' hends hread
  obtain ⟨ts, -, hpasses, hreads⟩ := h c x c' hends hread
  exact ⟨ts, hpasses, hreads⟩

theorem Solid.advances (h : Solid p) : Advances p := by
  intro c x c' hends hread
  obtain ⟨ts, hne, hpasses, hreads⟩ := h c x c' hends hread
  exact ⟨ts, hne, hpasses, hreads.mono fun _ _ => trivial⟩

theorem Advances.length_lt {c c' : Cursor} (h : Advances p) (hends : c.Ends)
    (hread : p c = .ok (x, c')) : c'.rest.length < c.rest.length := by
  obtain ⟨ts, hne, hpasses, -⟩ := h c x c' hends hread
  have := hpasses.length
  have := List.length_pos_of_ne_nil hne
  omega

theorem Advances.bind (hp : Advances p) (hf : ∀ x, Steady (f x)) : Advances (p >>= f) := by
  intro c y c' hends hread
  obtain ⟨x, c₁, hx, hy⟩ := bind_ok_iff.mp hread
  obtain ⟨ts, hne, hts, hx⟩ := hp c x c₁ hends hx
  obtain ⟨us, hus, hy⟩ := hf x c₁ y c' (hends.of_passes hts) hy
  exact ⟨ts ++ us, by simp [hne], hts.trans hus, hx.bind_steady hus hy⟩

/-! ## Parsers that may stop in front of other tokens -/

theorem Firm.steady (h : Firm follow p) : Steady p := by
  intro c x c' hends hread
  obtain ⟨ts, hpasses, hreads⟩ := h c x c' hends hread
  exact ⟨ts, hpasses, hreads.mono fun _ => .inl⟩

theorem Firm.mono (h : Firm follow p) (hfollow : ∀ t, follow' t → follow t) : Firm follow' p := by
  intro c x c' hends hread
  obtain ⟨ts, hpasses, hreads⟩ := h c x c' hends hread
  exact ⟨ts, hpasses, hreads.mono fun t => Or.imp_right (hfollow t)⟩

theorem Loose.firm (h : Loose p) (follow : Token → Prop) : Firm follow p := by
  intro c x c' hends hread
  obtain ⟨ts, hpasses, hreads⟩ := h c x c' hends hread
  exact ⟨ts, hpasses, hreads.mono fun _ _ => trivial⟩

theorem Solid.firm (h : Solid p) (follow : Token → Prop) : Firm follow p := h.loose.firm follow

theorem Firm.bind (hp : Firm follow p) (hf : ∀ x, Firm follow (f x)) : Firm follow (p >>= f) := by
  intro c y c' hends hread
  obtain ⟨x, c₁, hx, hy⟩ := bind_ok_iff.mp hread
  obtain ⟨ts, hts, hx⟩ := hp c x c₁ hends hx
  obtain ⟨us, hus, hy⟩ := hf x c₁ y c' (hends.of_passes hts) hy
  refine ⟨ts ++ us, hts.trans hus, hx.bind hy fun t ht => ?_⟩
  rw [hus.peek]
  cases us with
  | nil =>
      obtain rfl := passes_nil_iff.mp hus
      exact ht
  | cons u us => exact .inl rfl

/-! ## Looking at a token and taking it -/

theorem steady_peek : Steady Parse.peek := by
  intro c t c' _ hread
  cases hread
  refine ⟨[], .refl c, fun d d' hpasses hnext => ?_⟩
  obtain rfl := passes_nil_iff.mp hpasses
  exact congrArg (fun t => Except.ok (t, d')) hnext

theorem Steady.at (h : Steady p) (t : Token) : SteadyAt t p :=
  fun c x c' hends _ hread => h c x c' hends hread

theorem Steady.peek {f : Token → Parse β} (hf : ∀ t, SteadyAt t (f t)) :
    Steady (Parse.peek >>= f) := by
  intro c y c' hends hread
  obtain ⟨ts, hts, hy⟩ := hf c.peek c y c' hends rfl hread
  refine ⟨ts, hts, fun d d' hpasses hnext => ?_⟩
  rw [peek_bind, hpasses.peek, hnext, ← hts.peek]
  exact hy d d' hpasses hnext

/-- The token that was looked at is taken. -/
theorem SteadyAt.take {q : Parse β} (ht : t ≠ .endOfInput) (hq : Steady q) :
    SteadyAt t (do discard Parse.take; q) := by
  intro c y c' hends hpeek hread
  have hpass := hends.pass hpeek ht
  obtain ⟨us, hus, hy⟩ := hq _ y c' (hends.of_passes hpass) hread
  refine ⟨t :: us, hpass.trans hus, fun d d' hpasses hnext => ?_⟩
  obtain ⟨-, -, hpasses⟩ := passes_cons_iff.mp hpasses
  exact hy _ d' hpasses hnext

theorem Solid.take {f : Token → Parse β} (hend : ∀ c r, f .endOfInput c ≠ .ok r)
    (hf : ∀ t, Loose (f t)) : Solid (Parse.take >>= f) := by
  intro c y c' hends hread
  rw [take_bind] at hread
  have hpass := hends.advance fun he => hend _ _ (he ▸ hread)
  obtain ⟨us, hus, hy⟩ := hf c.peek _ y c' (hends.of_passes hpass) hread
  refine ⟨c.peek :: us, List.cons_ne_nil _ _, hpass.trans hus, fun d d' hpasses hnext => ?_⟩
  obtain ⟨hpeek, -, hpasses⟩ := passes_cons_iff.mp hpasses
  rw [take_bind, hpeek]
  exact hy _ d' hpasses hnext

theorem discard_eat_bind {q : Parse β} (c : Cursor) :
    (do discard (Parse.eat t); q) c = q (if c.peek = t then c.advance else c) := by
  show ((do discard (Parse.eat t) : Parse Unit) c >>= fun r => q r.2) = _
  show ((Parse.eat t c >>= fun r => Except.ok ((), r.2)) >>= fun r => q r.2) = _
  rw [Parse.eat]
  split <;> rfl

theorem steady_eat (ht : t ≠ .endOfInput) : Steady (Parse.eat t) := by
  intro c b c' hends hread
  rw [Parse.eat] at hread
  split at hread
  · rename_i hpeek
    cases hread
    refine ⟨[t], hends.pass hpeek ht, fun d d' hpasses _ => ?_⟩
    obtain ⟨hpeek, rfl⟩ := hpasses.one
    rw [Parse.eat, if_pos hpeek]
  · rename_i hpeek
    cases hread
    refine ⟨[], .refl c, fun d d' hpasses hnext => ?_⟩
    obtain rfl := passes_nil_iff.mp hpasses
    rw [Parse.eat, if_neg (hnext ▸ hpeek)]

theorem Reads.eat_true {f : Bool → Parse β} (h : Reads (f true) ts follow y) :
    Reads (Parse.eat t >>= f) (t :: ts) follow y := by
  intro c c' hpasses hnext
  obtain ⟨hpeek, -, hpasses⟩ := passes_cons_iff.mp hpasses
  rw [eat_bind, if_pos hpeek]
  exact h _ c' hpasses hnext

theorem Reads.eat_false {f : Bool → Parse β} (h : Reads (f false) ts follow y)
    (hother : ∀ u, follow u → ts.head?.getD u ≠ t) :
    Reads (Parse.eat t >>= f) ts follow y := by
  intro c c' hpasses hnext
  have hpeek : c.peek ≠ t := hpasses.peek ▸ hother _ hnext
  rw [eat_bind, if_neg hpeek]
  exact h c c' hpasses hnext

theorem Advances.eat {f : Bool → Parse β} (ht : t ≠ .endOfInput) (htrue : Steady (f true))
    (hfalse : Advances (f false)) : Advances (Parse.eat t >>= f) := by
  intro c y c' hends hread
  rw [eat_bind] at hread
  split at hread
  · rename_i hpeek
    have hpass := hends.pass hpeek ht
    obtain ⟨us, hus, hy⟩ := htrue _ y c' (hends.of_passes hpass) hread
    exact ⟨t :: us, List.cons_ne_nil _ _, hpass.trans hus, hy.eat_true⟩
  · rename_i hpeek
    obtain ⟨us, hne, hus, hy⟩ := hfalse c y c' hends hread
    refine ⟨us, hne, hus, hy.eat_false fun u hu => ?_⟩
    rwa [hu, ← hus.peek]

theorem Firm.eat {f : Bool → Parse β} (ht : t ≠ .endOfInput) (hother : ∀ u, follow u → u ≠ t)
    (htrue : Firm follow (f true)) (hfalse : Firm follow (f false)) :
    Firm follow (Parse.eat t >>= f) := by
  intro c y c' hends hread
  rw [eat_bind] at hread
  split at hread
  · rename_i hpeek
    have hpass := hends.pass hpeek ht
    obtain ⟨us, hus, hy⟩ := htrue _ y c' (hends.of_passes hpass) hread
    exact ⟨t :: us, hpass.trans hus, hy.eat_true⟩
  · rename_i hpeek
    obtain ⟨us, hus, hy⟩ := hfalse c y c' hends hread
    refine ⟨us, hus, hy.eat_false fun u hu => ?_⟩
    rw [hus.peek] at hpeek
    cases us with
    | nil => exact hu.elim (fun hu => hu ▸ hpeek) (hother u)
    | cons v us => exact hpeek

/-- A token that is not there, and may not follow either. -/
theorem Before.eat {f : Bool → Parse β} {follow : β → Token → Prop} (ht : t ≠ .endOfInput)
    (hfollow : ∀ y u, follow y u → u ≠ t) (htrue : Before follow (f true))
    (hfalse : Before follow (f false)) : Before follow (Parse.eat t >>= f) := by
  intro c y c' hends hread
  rw [eat_bind] at hread
  split at hread
  · rename_i hpeek
    have hpass := hends.pass hpeek ht
    obtain ⟨us, hus, hy⟩ := htrue _ y c' (hends.of_passes hpass) hread
    exact ⟨t :: us, hpass.trans hus, hy.eat_true⟩
  · rename_i hpeek
    obtain ⟨us, hus, hy⟩ := hfalse c y c' hends hread
    refine ⟨us, hus, hy.eat_false fun u hu => ?_⟩
    rw [hus.peek] at hpeek
    cases us with
    | nil => exact hfollow y u hu
    | cons v us => exact hpeek

/-- A token that may come first, and is all that is read then. -/
theorem Solid.eat {f : Bool → Parse β} (ht : t ≠ .endOfInput) (htrue : Loose (f true))
    (hfalse : Solid (f false)) : Solid (Parse.eat t >>= f) := by
  intro c y c' hends hread
  rw [eat_bind] at hread
  split at hread
  · rename_i hpeek
    have hpass := hends.pass hpeek ht
    obtain ⟨us, hus, hy⟩ := htrue _ y c' (hends.of_passes hpass) hread
    exact ⟨t :: us, List.cons_ne_nil _ _, hpass.trans hus, hy.eat_true⟩
  · rename_i hpeek
    obtain ⟨us, hne, hus, hy⟩ := hfalse c y c' hends hread
    refine ⟨us, hne, hus, hy.eat_false fun u _ => ?_⟩
    rw [hus.peek] at hpeek
    cases us with
    | nil => exact absurd rfl hne
    | cons v us => exact hpeek

theorem Solid.expect (ht : t ≠ .endOfInput) : Solid (Parse.expect t) :=
  .eat ht (.pure ()) (.failHere _)

theorem Solid.expectKeyword (keyword : String) : Solid (Parse.expectKeyword keyword) :=
  .eat (by simp) (.pure ()) (.failHere _)

theorem Solid.expectName : Solid Parse.expectName := by
  intro c name c' hends hread
  obtain ⟨hpeek, rfl⟩ := expectName_ok_iff.mp hread
  refine ⟨[.name name], List.cons_ne_nil _ _, hends.pass hpeek (by simp), fun d d' hpasses _ => ?_⟩
  exact expectName_ok_iff.mpr hpasses.one

/-! ## Loops -/

theorem FirmLoop.firm (h : FirmLoop follow go) : Firm follow (Parse.remaining >>= go) := by
  intro c x c' hends hread
  rw [remaining_bind] at hread
  obtain ⟨ts, hpasses, hreads⟩ := h _ c x c' hends (Nat.le_refl _) hread
  refine ⟨ts, hpasses, fun d d' hd hnext => ?_⟩
  rw [remaining_bind]
  exact hreads _ (hd.length ▸ Nat.le_add_right ..) d d' hd hnext

theorem SteadyLoop.steady (h : SteadyLoop go) : Steady (Parse.remaining >>= go) := by
  intro c x c' hends hread
  rw [remaining_bind] at hread
  obtain ⟨ts, hpasses, hreads⟩ := h _ c x c' hends (Nat.le_refl _) hread
  refine ⟨ts, hpasses, fun d d' hd hnext => ?_⟩
  rw [remaining_bind]
  exact hreads _ (hd.length ▸ Nat.le_add_right ..) d d' hd hnext

theorem SteadyLoop.solid_bind (h : SteadyLoop go) (hf : ∀ x, Solid (f x)) :
    Solid (Parse.remaining >>= fun n => go n >>= f) :=
  bind_assoc Parse.remaining go f ▸ Solid.after h.steady hf

theorem FirmLoop.steady (h : FirmLoop follow go) : SteadyLoop go := by
  intro n c x c' hends hn hread
  obtain ⟨ts, hpasses, hreads⟩ := h n c x c' hends hn hread
  exact ⟨ts, hpasses, fun m hm => (hreads m hm).mono fun _ => .inl⟩

theorem SolidLoop.solid (h : SolidLoop go) : Solid (Parse.remaining >>= go) := by
  intro c x c' hends hread
  rw [remaining_bind] at hread
  obtain ⟨ts, hne, hpasses, hreads⟩ := h _ c x c' hends (Nat.le_refl _) hread
  refine ⟨ts, hne, hpasses, fun d d' hd hnext => ?_⟩
  rw [remaining_bind]
  exact hreads _ (hd.length ▸ Nat.le_add_right ..) d d' hd hnext

theorem SolidLoop.steady (h : SolidLoop go) : SteadyLoop go := by
  intro n c x c' hends hn hread
  obtain ⟨ts, -, hpasses, hreads⟩ := h n c x c' hends hn hread
  exact ⟨ts, hpasses, fun m hm => (hreads m hm).mono fun _ _ => trivial⟩

/-- A loop behind another parser. -/
def after {γ : Type} (p : Parse α) (go : Nat → Parse β) (g : α → β → γ) (n : Nat) : Parse γ := do
  let x ← p
  let y ← go n
  return g x y

theorem FirmLoop.after {γ : Type} {go : Nat → Parse β} {g : α → β → γ} (hp : Firm follow p)
    (hgo : FirmLoop follow go) : FirmLoop follow (after p go g) := by
  intro n c z c' hends hn hread
  obtain ⟨x, c₁, hx, hread⟩ := bind_ok_iff.mp hread
  obtain ⟨y, c₂, hy, hout⟩ := bind_ok_iff.mp hread
  cases hout
  obtain ⟨ts, hts, hx⟩ := hp c x c₁ hends hx
  have hlength := hts.length
  obtain ⟨us, hus, hy⟩ := hgo n c₁ y c' (hends.of_passes hts) (by omega) hy
  refine ⟨ts ++ us, hts.trans hus, fun m hm => ?_⟩
  rw [List.length_append] at hm
  have hmore : Reads (do let y ← go m; return g x y) us (fun t => t = c'.peek ∨ follow t) (g x y) :=
    fun d d' hd hnext => bind_ok_iff.mpr ⟨y, d', hy m (by omega) d d' hd hnext, rfl⟩
  refine hx.bind hmore fun t ht => ?_
  rw [hus.peek]
  cases us with
  | nil =>
      obtain rfl := passes_nil_iff.mp hus
      exact ht
  | cons u us => exact .inl rfl

/-! ## Other places -/

variable {c c' d : Cursor}

theorem passes_unique (h : c.Passes ts c') (h' : c.Passes us c') : ts = us :=
  List.append_cancel_right (h.tokens_eq.symm.trans h'.tokens_eq)

theorem Steady.firm (h : Steady p) (hbefore : Before (fun _ => follow) p) : Firm follow p := by
  intro c x c' hends hread
  obtain ⟨ts, hpasses, hsame⟩ := h c x c' hends hread
  obtain ⟨us, hpasses', hother⟩ := hbefore c x c' hends hread
  obtain rfl := passes_unique hpasses hpasses'
  exact ⟨ts, hpasses, fun d d' hd hnext => hnext.elim (hsame d d' hd) (hother d d' hd)⟩

theorem ends_of_tokens (ts : List Token) (h : c.Ends) (hd : d.tokens = ts ++ c.tokens) :
    d.Ends := by
  obtain ⟨init, hinit⟩ := h
  exact ⟨ts ++ init, by rw [hd, hinit, List.append_assoc]⟩

theorem head?_of_passes (h : c.Passes ts c') (hne : ts ≠ []) (us : List Token) :
    (ts ++ us).head? = some c.peek := by
  rw [h.peek]
  cases ts with
  | nil => exact absurd rfl hne
  | cons t ts => rfl

theorem peek_of_passes (h : c.Passes ts c') (hne : ts ≠ []) (hd : d.tokens = ts ++ us) :
    d.peek = c.peek := by
  have hhead := head?_of_passes h hne us
  rw [← hd] at hhead
  exact Option.some.inj hhead

theorem peek_of_tokens (h : d.tokens = t :: ts) : d.peek = t := (List.cons.inj h).1

theorem advance_of_tokens (h : d.tokens = t :: ts) (hne : ts ≠ []) : d.advance.tokens = ts := by
  obtain ⟨here, rest⟩ := d
  cases rest with
  | nil => exact absurd (List.cons.inj h).2.symm hne
  | cons next rest => exact (List.cons.inj h).2

/-- Cursors with the same tokens have the same tokens behind the first one. -/
theorem advance_tokens_congr (h : c.tokens = d.tokens) : c.advance.tokens = d.advance.tokens := by
  obtain ⟨here, rest⟩ := c
  obtain ⟨here', rest'⟩ := d
  obtain ⟨hhere, hrest⟩ := List.cons.inj h
  cases rest with
  | nil => cases rest' with
    | nil => exact h
    | cons => cases hrest
  | cons next rest => cases rest' with
    | nil => cases hrest
    | cons next' rest' => exact hrest

theorem peek_congr (h : c.tokens = d.tokens) : c.peek = d.peek := (List.cons.inj h).1

/-- A parser that stops in front of some tokens is as firm as what it reads in front of others. -/
theorem Firm.unless {stop : Token → Prop} {q : Parse α}
    (hstop : ∀ c : Cursor, stop c.peek → p c = .ok (x, c))
    (hother : ∀ c : Cursor, ¬ stop c.peek → p c = q c) (hfollow : ∀ t, follow t → stop t)
    (hq : Firm follow q) (hmoves : Advances q) : Firm follow p := by
  intro c y c' hends hread
  by_cases hclose : stop c.peek
  · cases (hstop c hclose).symm.trans hread
    refine ⟨[], .refl c, fun d d' hd hnext => ?_⟩
    obtain rfl := passes_nil_iff.mp hd
    exact hstop d' (hnext.elim (fun h => h ▸ hclose) (hfollow _))
  · rw [hother c hclose] at hread
    obtain ⟨ts, hts, hreads⟩ := hq c y c' hends hread
    obtain ⟨us, hne, hus, -⟩ := hmoves c y c' hends hread
    obtain rfl := passes_unique hts hus
    refine ⟨ts, hts, fun d d' hd hnext => ?_⟩
    rw [hother d (peek_of_passes hts hne hd.tokens_eq ▸ hclose)]
    exact hreads d d' hd hnext

/-- The cursor so many tokens further on. -/
def skip : Nat → Cursor → Cursor
  | 0, c => c
  | n + 1, c => skip n c.advance

theorem passes_skip (ts us : List Token) (h : c.tokens = ts ++ us) (hne : us ≠ []) :
    c.Passes ts (skip ts.length c) ∧ (skip ts.length c).tokens = us := by
  induction ts generalizing c with
  | nil => exact ⟨.refl c, h⟩
  | cons t ts ih =>
      have hrest : ts ++ us ≠ [] := by simp [hne]
      obtain ⟨hpasses, htokens⟩ := ih (advance_of_tokens h hrest)
      refine ⟨passes_cons_iff.mpr ⟨peek_of_tokens h, ?_, hpasses⟩, htokens⟩
      rintro hnil
      rw [tokens, hnil] at h
      exact hrest (List.cons.inj h).2.symm

/-- Where the same tokens stand in front of the same token, a steady parser reads the same. -/
theorem Steady.again (h : Steady p) (hends : c.Ends) (hread : p c = .ok (x, c'))
    (hpasses : c.Passes ts c') (hd : d.tokens = ts ++ us) (hnext : us.head? = some c'.peek) :
    ∃ d', p d = .ok (x, d') ∧ d'.tokens = us := by
  obtain ⟨ts', hts', hreads⟩ := h c x c' hends hread
  obtain rfl := passes_unique hts' hpasses
  obtain ⟨d', hd', rfl⟩ := exists_passes hd (by rintro rfl; cases hnext)
  exact ⟨d', hreads d d' hd' (Option.some.inj hnext), rfl⟩

/-- A loop with turns enough reads the same where the same tokens stand up to the end. -/
theorem SteadyLoop.congr {n m : Nat} (h : SteadyLoop go) (hends : c.Ends) (hn : c.rest.length ≤ n)
    (hread : go n c = .ok (x, c')) (hd : d.tokens = c.tokens) (hm : d.rest.length ≤ m) :
    ∃ d', go m d = .ok (x, d') ∧ d'.tokens = c'.tokens := by
  obtain ⟨ts, hpasses, hreads⟩ := h n c x c' hends hn hread
  obtain ⟨d', hd', htokens⟩ := exists_passes (hd.trans hpasses.tokens_eq) (List.cons_ne_nil _ _)
  refine ⟨d', hreads m ?_ d d' hd' (peek_congr htokens), htokens⟩
  have := hd'.length
  omega

/-- One result after the other, up to the first turn that gives none. -/
def turns (turn : Parse (Option α)) : Nat → Parse (List α)
  | 0 => return []
  | n + 1 => do
    match ← turn with
    | none => return []
    | some x => return x :: (← turns turn n)

/-- A firm turn that takes a token, and none at the end of input and where the loop may stop, makes
a firm loop. -/
theorem firmLoop_turns {turn : Parse (Option α)} (hturn : Firm follow turn)
    (hend : ∀ c : Cursor, c.peek = .endOfInput → turn c = .ok (none, c))
    (hmoves : ∀ c x c', c.Ends → turn c = .ok (some x, c') → c'.rest.length < c.rest.length)
    (hstop : ∀ c : Cursor, follow c.peek → turn c = .ok (none, c)) : FirmLoop follow (turns turn) := by
  intro n
  induction n with
  | zero =>
      intro c xs c' hends hn hread
      cases hread
      have hpeek : c.peek = .endOfInput := by
        by_contra hne
        have := (hends.advance hne).length
        simp only [List.length_singleton] at this
        omega
      refine ⟨[], .refl c, fun m _ d d' hpasses hnext => ?_⟩
      obtain rfl := passes_nil_iff.mp hpasses
      have hnone : turn d' = .ok (none, d') :=
        hnext.elim (fun hnext => hend d' (hnext.trans hpeek)) (hstop d')
      cases m with
      | zero => rfl
      | succ m => exact bind_ok_iff.mpr ⟨none, d', hnone, rfl⟩
  | succ n ih =>
      intro c xs c' hends hn hread
      obtain ⟨r, c₁, hr, hread⟩ := bind_ok_iff.mp hread
      obtain ⟨ts, hts, hreads⟩ := hturn c r c₁ hends hr
      cases r with
      | none =>
          cases hread
          refine ⟨ts, hts, fun m hm d d' hpasses hnext => ?_⟩
          cases m with
          | zero =>
              obtain rfl := List.eq_nil_of_length_eq_zero (Nat.le_zero.mp hm)
              obtain rfl := passes_nil_iff.mp hpasses
              rfl
          | succ m => exact bind_ok_iff.mpr ⟨none, d', hreads d d' hpasses hnext, rfl⟩
      | some x =>
          obtain ⟨xs, c₂, hxs, hout⟩ := bind_ok_iff.mp hread
          cases hout
          have hless := hmoves c x c₁ hends hr
          have hlength := hts.length
          obtain ⟨us, hus, hrest⟩ := ih c₁ xs c' (hends.of_passes hts) (by omega) hxs
          refine ⟨ts ++ us, hts.trans hus, fun m hm => ?_⟩
          rw [List.length_append] at hm
          cases m with
          | zero => omega
          | succ m =>
              have hmore : Reads (do return x :: (← turns turn m)) us
                  (fun t => t = c'.peek ∨ follow t) (x :: xs) :=
                fun d d' hd hnext => bind_ok_iff.mpr ⟨xs, d', hrest m (by omega) d d' hd hnext, rfl⟩
              refine hreads.bind hmore fun t ht => ?_
              rw [hus.peek]
              cases us with
              | nil =>
                  obtain rfl := passes_nil_iff.mp hus
                  exact ht
              | cons u us => exact .inl rfl

/-- A turn that a separator starts. -/
def separated (separator : Token) (after : Parse (Option α)) : Parse (Option α) := do
  if ← Parse.eat separator then after else return none

theorem separated_other {after : Parse (Option α)} (h : c.peek ≠ t) :
    separated t after c = .ok (none, c) := by
  rw [separated, eat_bind, if_neg h]
  rfl

theorem separated_moves {after : Parse (Option α)} (ht : t ≠ .endOfInput) (hafter : Steady after)
    {x : α} (hends : c.Ends) (hread : separated t after c = .ok (some x, c')) :
    c'.rest.length < c.rest.length := by
  rw [separated, eat_bind] at hread
  split at hread
  · rename_i hpeek
    have hone := hends.pass hpeek ht
    obtain ⟨ts, hpasses, -⟩ := hafter _ _ c' (hends.of_passes hone) hread
    have := (hone.trans hpasses).length
    simp only [List.length_append, List.length_singleton] at this
    omega
  · cases hread

theorem firmLoop_separated {after : Parse (Option α)} (ht : t ≠ .endOfInput)
    (hother : ∀ u, follow u → u ≠ t) (hafter : Firm follow after) :
    FirmLoop follow (turns (separated t after)) :=
  firmLoop_turns (.eat ht hother hafter ((Loose.pure _).firm _))
    (fun _ hend => separated_other (hend ▸ ht.symm)) (fun _ _ _ => separated_moves ht hafter.steady)
    fun _ h => separated_other (hother _ h)

end Parse

end Factbase
