import Factbase.Proofs.Source.Lexing
import Factbase.Source.Cursor

/-!
# What parsers read

A parser passes over the tokens between two cursors (`Cursor.Passes`). What
it makes of them is a relation between results and token lists: it is
`Sound` for the relation if all that it reads is in it, and `Complete` if
it reads all that is.

No parser passes over the end of input, which is where a cursor ends; and
since a mark `..` may follow a pattern, one is read as far as its marks go.
-/

namespace Factbase

namespace Cursor

/-! ## Tokens between cursors -/

/-- The tokens from a cursor on. -/
def tokens (c : Cursor) : List Token := c.here.token :: c.rest.map Located.token

/-- The tokens that lie between two cursors of a sequence. -/
inductive Passes : Cursor → List Token → Cursor → Prop where
  | refl (c : Cursor) : Passes c [] c
  | step {here next : Located} {rest : List Located} {ts : List Token} {c : Cursor} :
      Passes ⟨next, rest⟩ ts c → Passes ⟨here, next :: rest⟩ (here.token :: ts) c

/-- The end of input is the last token. -/
def Ends (c : Cursor) : Prop := ∃ init, c.tokens = init ++ [.endOfInput]

variable {c c' c'' : Cursor} {t : Token} {ts us : List Token}

theorem Passes.trans (h : c.Passes ts c') (h' : c'.Passes us c'') : c.Passes (ts ++ us) c'' := by
  induction h with
  | refl => exact h'
  | step _ ih => exact (ih h').step

theorem Passes.split (h : c.Passes (ts ++ us) c'') : ∃ c', c.Passes ts c' ∧ c'.Passes us c'' := by
  induction ts generalizing c with
  | nil => exact ⟨c, .refl c, h⟩
  | cons t ts ih =>
      cases h with
      | step h =>
          obtain ⟨c', hts, hus⟩ := ih h
          exact ⟨c', hts.step, hus⟩

theorem passes_cons_iff :
    c.Passes (t :: ts) c' ↔ c.peek = t ∧ c.rest ≠ [] ∧ c.advance.Passes ts c' := by
  constructor
  · intro h
    cases h with
    | step h => exact ⟨rfl, by simp, h⟩
  · rintro ⟨rfl, hrest, h⟩
    obtain ⟨here, rest⟩ := c
    cases rest with
    | nil => exact absurd rfl hrest
    | cons next rest => exact h.step

theorem passes_nil_iff : c.Passes [] c' ↔ c' = c :=
  ⟨fun h => by cases h; rfl, fun h => h ▸ .refl c⟩

theorem Passes.one (h : c.Passes [t] c') : c.peek = t ∧ c' = c.advance := by
  obtain ⟨hpeek, -, h⟩ := passes_cons_iff.mp h
  exact ⟨hpeek, passes_nil_iff.mp h⟩

theorem Passes.tokens_eq (h : c.Passes ts c') : c.tokens = ts ++ c'.tokens := by
  induction h with
  | refl => rfl
  | step _ ih => exact congrArg _ ih

theorem Passes.length (h : c.Passes ts c') : c.rest.length = ts.length + c'.rest.length := by
  have := congrArg List.length h.tokens_eq
  simp only [tokens, List.length_cons, List.length_append, List.length_map] at this
  omega

/-- The token after the first one that is passed over. -/
theorem Passes.peekSecond (h : c.Passes (t :: ts) c') :
    c.peekSecond = ts.head?.getD c'.peek := by
  obtain ⟨rfl, hrest, h⟩ := passes_cons_iff.mp h
  obtain ⟨here, rest⟩ := c
  cases rest with
  | nil => exact absurd rfl hrest
  | cons next rest => cases h <;> rfl

theorem Passes.peek (h : c.Passes ts c') : c.peek = ts.head?.getD c'.peek := by
  cases h <;> rfl

theorem Ends.of_passes (h : c.Ends) (hpasses : c.Passes ts c') : c'.Ends := by
  obtain ⟨init, hinit⟩ := h
  rw [hpasses.tokens_eq] at hinit
  obtain ⟨here, rest⟩ := c'
  have hlast : (ts ++ tokens ⟨here, rest⟩).getLast? = some .endOfInput := by
    rw [hinit, List.getLast?_append]
    rfl
  have hne : tokens ⟨here, rest⟩ ≠ [] := by simp [tokens]
  rw [List.getLast?_append_of_ne_nil _ hne] at hlast
  exact ⟨_, (List.dropLast_append_getLast? _ hlast).symm⟩

/-- A cursor that is not at the end of input can move on. -/
theorem Ends.advance (h : c.Ends) (hne : c.peek ≠ .endOfInput) : c.Passes [c.peek] c.advance := by
  refine passes_cons_iff.mpr ⟨rfl, fun hrest => hne ?_, .refl _⟩
  obtain ⟨init, hinit⟩ := h
  obtain ⟨here, rest⟩ := c
  obtain rfl : rest = [] := hrest
  cases init with
  | nil => exact (List.cons.inj hinit).1
  | cons t init => cases init <;> cases (List.cons.inj hinit).2

theorem Ends.pass (h : c.Ends) (ht : c.peek = t) (hne : t ≠ .endOfInput) :
    c.Passes [t] c.advance :=
  ht ▸ h.advance (ht ▸ hne)

theorem exists_passes (h : c.tokens = ts ++ us) (hus : us ≠ []) :
    ∃ c', c.Passes ts c' ∧ c'.tokens = us := by
  induction ts generalizing c with
  | nil => exact ⟨c, .refl c, h⟩
  | cons t ts ih =>
      obtain ⟨here, rest⟩ := c
      obtain ⟨rfl, hrest⟩ := List.cons.inj h
      cases rest with
      | nil => exact absurd (List.append_eq_nil_iff.mp hrest.symm).2 hus
      | cons next rest =>
          obtain ⟨c', hpasses, hc'⟩ := ih (c := ⟨next, rest⟩) hrest
          exact ⟨c', hpasses.step, hc'⟩

/-- The cursor of a text stands before the tokens that it is cut into. -/
theorem tokens_ofText_iff {text : String} :
    (∃ c, ofText text = .ok c ∧ c.tokens = ts) ↔ lexemes text.toList = some ts := by
  rw [lexemes, ofText, Token.readAll]
  cases hread : Token.readFrom .start text.toList with
  | error e => simp [Except.toOption, bind, Except.bind]
  | ok located =>
      cases located with
      | nil =>
          have hlexemes : lexemes text.toList = some [] := by
            rw [lexemes, hread]
            rfl
          obtain ⟨init, hinit, -⟩ := legal_of_lexemes hlexemes
          exact absurd hinit (by simp)
      | cons here rest =>
          simp [Except.toOption, bind, Except.bind, pure, Except.pure, tokens]

end Cursor

/-! ## Parsers -/

namespace Parse

open Cursor

variable {α β : Type} {p : Parse α} {c c' : Cursor} {t : Token}

theorem bind_ok_iff {f : α → Parse β} {b : β} :
    (p >>= f) c = .ok (b, c') ↔ ∃ a c₁, p c = .ok (a, c₁) ∧ f a c₁ = .ok (b, c') :=
  Outcome.stateT_bind_ok_iff

theorem peek_bind {f : Token → Parse β} : (Parse.peek >>= f) c = f c.peek c := rfl

theorem peekSecond_bind {f : Token → Parse β} : (Parse.peekSecond >>= f) c = f c.peekSecond c := rfl

theorem remaining_bind {f : Nat → Parse β} : (remaining >>= f) c = f c.rest.length c := rfl

theorem take_bind {f : Token → Parse β} : (take >>= f) c = f c.peek c.advance := rfl

theorem discard_take_bind {f : Parse β} : (do discard take; f) c = f c.advance := rfl

theorem eat_bind {f : Bool → Parse β} :
    (eat t >>= f) c = if c.peek = t then f true c.advance else f false c := by
  show (eat t c >>= fun r => f r.1 r.2) = _
  rw [eat]
  split <;> rfl

theorem expect_ok_iff : expect t c = .ok ((), c') ↔ c.peek = t ∧ c' = c.advance := by
  rw [expect, eat_bind]
  by_cases hpeek : c.peek = t
  · rw [if_pos hpeek, if_pos rfl, Outcome.stateT_pure_ok_iff]
    exact ⟨fun h => ⟨hpeek, h.2.symm⟩, fun h => ⟨rfl, h.2.symm⟩⟩
  · rw [if_neg hpeek, if_neg Bool.false_ne_true]
    exact ⟨fun h => (by cases h), fun h => absurd h.1 hpeek⟩

theorem expectName_ok_iff {name : String} :
    expectName c = .ok (name, c') ↔ c.peek = .name name ∧ c' = c.advance := by
  rw [expectName, peek_bind]
  cases hpeek : c.peek with
  | name text =>
      show Except.ok (text, c.advance) = _ ↔ _
      simp [eq_comm]
  | _ => simp [fail]

/-- All that a parser reads is in a relation. -/
def Sound (p : Parse α) (R : α → List Token → Prop) : Prop :=
  ∀ c x c', c.Ends → p c = .ok (x, c') → ∃ ts, R x ts ∧ c.Passes ts c'

/-- A parser reads all that is in a relation, where no mark follows that could belong to it. -/
def Complete (p : Parse α) (R : α → List Token → Prop) : Prop :=
  ∀ c x c' ts, R x ts → c.Passes ts c' → (c'.peek = .dots → ts.getLast? = some .dots) →
    p c = .ok (x, c')

/-! ## Lists -/

/-- Items separated by commas. -/
inductive Listed (R : α → List Token → Prop) : List α → List Token → Prop where
  | one {x : α} {ts : List Token} : R x ts → Listed R [x] ts
  | more {x : α} {xs : List α} {ts us : List Token} :
      R x ts → Listed R xs us → Listed R (x :: xs) (ts ++ .comma :: us)

variable {R : α → List Token → Prop} {item : Parse α} {close : Token} {f : α → List Token}
  {xs : List α} {ts : List Token}

theorem Listed.mono {S : α → List Token → Prop} (h : ∀ x ts, R x ts → S x ts)
    (hlisted : Listed R xs ts) : Listed S xs ts := by
  induction hlisted with
  | one hx => exact .one (h _ _ hx)
  | more hx _ ih => exact .more (h _ _ hx) ih

/-- A list starts with an item, and a comma comes next if there are more. -/
theorem Listed.first (h : Listed R xs ts) :
    ∃ x us rest, R x us ∧ ts = us ++ rest ∧ (rest = [] ∨ rest.head? = some .comma) := by
  cases h with
  | one hx => exact ⟨_, _, [], hx, (List.append_nil _).symm, .inl rfl⟩
  | more hx _ => exact ⟨_, _, _, hx, rfl, .inr rfl⟩

theorem Listed.length_le (h : Listed R xs ts) (hne : ∀ x ts, R x ts → ts ≠ []) :
    xs.length ≤ ts.length := by
  induction h with
  | one hx => exact List.length_pos_of_ne_nil (hne _ _ hx)
  | more hx _ ih =>
      simp only [List.length_append, List.length_cons]
      omega

theorem Listed.intercalate_cons (h : Listed R xs ts) (us : List Token) :
    [.comma].intercalate (us :: xs.map f) = us ++ .comma :: [.comma].intercalate (xs.map f) := by
  have hcons (y : α) (ys : List α) : [.comma].intercalate (us :: (y :: ys).map f) =
      us ++ .comma :: [.comma].intercalate ((y :: ys).map f) := by
    rw [List.map_cons, List.intercalate_cons_cons, List.append_assoc]
    rfl
  cases h with
  | one => exact hcons _ _
  | more => exact hcons _ _

/-- A list is spelled by what spells its items. -/
theorem Listed.intercalate (h : Listed R xs ts) (hitem : ∀ x ∈ xs, ∀ us, R x us → R x (f x)) :
    Listed R xs ([.comma].intercalate (xs.map f)) := by
  induction h with
  | one hx =>
      rw [List.map_singleton, List.intercalate_singleton]
      exact .one (hitem _ (List.mem_singleton_self _) _ hx)
  | more hx hxs ih =>
      rw [List.map_cons, hxs.intercalate_cons]
      exact .more (hitem _ (List.mem_cons_self ..) _ hx)
        (ih fun x hmem => hitem x (List.mem_cons_of_mem _ hmem))

/-- The items of a list are spelled by some of its tokens. -/
theorem Listed.exists_of_mem {x : α} (h : Listed R xs ts) (hx : x ∈ xs) :
    ∃ us, us ⊆ ts ∧ R x us := by
  induction h with
  | one hR =>
      obtain rfl := List.mem_singleton.mp hx
      exact ⟨_, List.Subset.refl _, hR⟩
  | more hR _ ih =>
      rcases List.mem_cons.mp hx with rfl | hx
      · exact ⟨_, List.subset_append_left .., hR⟩
      · obtain ⟨us, hus, hx⟩ := ih hx
        exact ⟨us, fun t ht => List.mem_append_right _ (List.mem_cons_of_mem _ (hus ht)), hx⟩

theorem itemsUntil_go_sound (hitem : Sound item R) (hclose : close ≠ .endOfInput) {n : Nat}
    (hends : c.Ends) (h : itemsUntil.go close item n c = .ok (xs, c')) :
    ∃ ts, Listed R xs ts ∧ c.Passes (ts ++ [close]) c' := by
  induction n generalizing c xs with
  | zero =>
      obtain ⟨x, c₁, hx, h⟩ := bind_ok_iff.mp h
      obtain ⟨⟨⟩, c₂, hexpect, hout⟩ := bind_ok_iff.mp h
      obtain ⟨ts, hR, hpasses⟩ := hitem c x c₁ hends hx
      obtain ⟨hpeek, rfl⟩ := expect_ok_iff.mp hexpect
      cases hout
      exact ⟨ts, .one hR, hpasses.trans ((hends.of_passes hpasses).pass hpeek hclose)⟩
  | succ n ih =>
      obtain ⟨x, c₁, hx, h⟩ := bind_ok_iff.mp h
      obtain ⟨ts, hR, hpasses⟩ := hitem c x c₁ hends hx
      have hends₁ := hends.of_passes hpasses
      rw [eat_bind] at h
      split at h
      · rename_i hpeek
        cases h
        exact ⟨ts, .one hR, hpasses.trans (hends₁.pass hpeek hclose)⟩
      · obtain ⟨⟨⟩, c₂, hexpect, h⟩ := bind_ok_iff.mp h
        obtain ⟨hpeek, rfl⟩ := expect_ok_iff.mp hexpect
        obtain ⟨xs', c₃, hxs, hout⟩ := bind_ok_iff.mp h
        cases hout
        have hcomma := hends₁.pass hpeek (by decide)
        obtain ⟨us, hlisted, hrest⟩ := ih (hends₁.of_passes hcomma) hxs
        refine ⟨ts ++ .comma :: us, .more hR hlisted, ?_⟩
        rw [List.append_assoc]
        exact hpasses.trans (hcomma.trans hrest)

theorem itemsUntil_sound (hitem : Sound item R) (hclose : close ≠ .endOfInput) :
    Sound (itemsUntil close item) fun xs ts => ∃ us, Listed R xs us ∧ ts = us ++ [close] := by
  intro c xs c' hends h
  rw [itemsUntil, remaining_bind] at h
  obtain ⟨us, hlisted, hpasses⟩ := itemsUntil_go_sound hitem hclose hends h
  exact ⟨us ++ [close], ⟨us, hlisted, rfl⟩, hpasses⟩

/-- The loop has turns enough: each takes a token at least. -/
theorem itemsUntil_go_complete (hitem : Complete item R) (hcomma : close ≠ .comma)
    (hdots : close ≠ .dots) (h : Listed R xs ts) (hpasses : c.Passes (ts ++ [close]) c') {n : Nat}
    (hn : xs.length ≤ n + 1) : itemsUntil.go close item n c = .ok (xs, c') := by
  induction h generalizing c n with
  | @one x ts hx =>
      obtain ⟨c₁, hts, hend⟩ := hpasses.split
      obtain ⟨hpeek, rfl⟩ := hend.one
      have hread := hitem c x c₁ ts hx hts fun h => absurd (hpeek.symm.trans h) hdots
      cases n with
      | zero =>
          exact bind_ok_iff.mpr ⟨x, c₁, hread, bind_ok_iff.mpr
            ⟨(), _, expect_ok_iff.mpr ⟨hpeek, rfl⟩, rfl⟩⟩
      | succ n =>
          refine bind_ok_iff.mpr ⟨x, c₁, hread, ?_⟩
          rw [eat_bind, if_pos hpeek]
          rfl
  | @more x xs ts us hx hxs ih =>
      rw [List.append_assoc] at hpasses
      obtain ⟨c₁, hts, hrest⟩ := hpasses.split
      obtain ⟨hpeek, -, hrest⟩ := passes_cons_iff.mp hrest
      have hread := hitem c x c₁ ts hx hts fun h => by
        rw [hpeek] at h
        cases h
      cases n with
      | zero =>
          obtain rfl : xs = [] := by simpa using hn
          cases hxs
      | succ n =>
          refine bind_ok_iff.mpr ⟨x, c₁, hread, ?_⟩
          rw [eat_bind, if_neg fun h => hcomma (h.symm.trans hpeek)]
          refine bind_ok_iff.mpr ⟨(), _, expect_ok_iff.mpr ⟨hpeek, rfl⟩, ?_⟩
          have hxs := ih hrest (n := n) (by simpa using hn)
          exact bind_ok_iff.mpr ⟨xs, c', hxs, rfl⟩

theorem itemsUntil_complete (hitem : Complete item R) (hne : ∀ x ts, R x ts → ts ≠ [])
    (hcomma : close ≠ .comma) (hdots : close ≠ .dots) (h : Listed R xs ts)
    (hpasses : c.Passes (ts ++ [close]) c') : itemsUntil close item c = .ok (xs, c') := by
  have hlength := h.length_le hne
  have hrest := hpasses.length
  rw [List.length_append, List.length_singleton] at hrest
  rw [itemsUntil, remaining_bind]
  exact itemsUntil_go_complete hitem hcomma hdots h hpasses (by omega)

end Parse

end Factbase
