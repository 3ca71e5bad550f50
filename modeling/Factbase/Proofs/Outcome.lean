import Mathlib.Data.List.Forall2

/-!
# Outcomes

What it means for a computation that can fail, with or without a state, to
succeed: every step of it succeeds. These laws take such computations
apart; nothing here is about facts.
-/

namespace Factbase

variable {ε ε' σ α β : Type}

/-! ## Results -/

namespace Outcome

theorem bind_ok_iff {x : Except ε α} {f : α → Except ε β} {b : β} :
    (x >>= f) = .ok b ↔ ∃ a, x = .ok a ∧ f a = .ok b := by
  cases x with
  | error e => simp [bind, Except.bind]
  | ok a => simp [bind, Except.bind]

theorem bind_error_iff {x : Except ε α} {f : α → Except ε β} {e : ε} :
    (x >>= f) = .error e ↔ x = .error e ∨ ∃ a, x = .ok a ∧ f a = .error e := by
  cases x with
  | error e => simp [bind, Except.bind]
  | ok a => simp [bind, Except.bind]

theorem map_ok_iff {x : Except ε α} {f : α → β} {b : β} :
    f <$> x = .ok b ↔ ∃ a, x = .ok a ∧ f a = b := by
  cases x with
  | error e => simp [Functor.map, Except.map]
  | ok a => simp [Functor.map, Except.map]

theorem mapError_ok_iff {x : Except ε α} {g : ε → ε'} {a : α} :
    x.mapError g = .ok a ↔ x = .ok a := by
  cases x <;> simp [Except.mapError]

theorem mem_toOption_iff {x : Except ε α} {a : α} : a ∈ x.toOption ↔ x = .ok a := by
  cases x with
  | error e => simp [Except.toOption]
  | ok b => simp [Except.toOption]

theorem eq_ok_getD {x : Except ε α} (h : x.toOption.isSome = true) (a : α) :
    x = .ok (x.toOption.getD a) := by
  cases x with
  | error e => cases h
  | ok b => rfl

theorem toOption_bind (x : Except ε α) (f : α → Except ε β) :
    (x >>= f).toOption = x.toOption.bind fun a => (f a).toOption := by
  cases x <;> rfl

/-- What holds at the start of a fold and is kept by its steps holds at the end. -/
theorem foldlM_ok {P : β → Prop} {f : β → α → Except ε β} {l : List α} {b b' : β}
    (hstep : ∀ a ∈ l, ∀ c c', P c → f c a = .ok c' → P c') (hb : P b)
    (h : l.foldlM f b = .ok b') : P b' := by
  induction l generalizing b with
  | nil =>
      obtain rfl : b = b' := by simpa [pure, Except.pure] using h
      exact hb
  | cons a l ih =>
      rw [List.foldlM_cons] at h
      obtain ⟨c, hc, h⟩ := bind_ok_iff.mp h
      exact ih (fun a' ha' => hstep a' (List.mem_cons_of_mem _ ha'))
        (hstep a (List.mem_cons_self ..) b c hb hc) h

theorem mapM_ok_iff {f : α → Except ε β} {l : List α} {l' : List β} :
    l.mapM f = .ok l' ↔ List.Forall₂ (fun a b => f a = .ok b) l l' := by
  induction l generalizing l' with
  | nil =>
      cases l' <;> simp [pure, Except.pure]
  | cons a l ih =>
      simp only [List.mapM_cons, bind_ok_iff, List.forall₂_cons_left_iff, ih]
      constructor
      · rintro ⟨b, hb, bs, hbs, hout⟩
        obtain rfl : b :: bs = l' := by simpa [pure, Except.pure] using hout
        exact ⟨b, bs, hb, hbs, rfl⟩
      · rintro ⟨b, bs, hb, hbs, rfl⟩
        exact ⟨b, hb, bs, hbs, rfl⟩

theorem ok_of_mapM {f : α → Except ε β} {l : List α} {l' : List β} (h : l.mapM f = .ok l') {a : α}
    (ha : a ∈ l) : ∃ b, f a = .ok b := by
  have hall := mapM_ok_iff.mp h
  induction hall with
  | nil => cases ha
  | cons hhead htail ih =>
      rcases List.mem_cons.mp ha with rfl | ha
      · exact ⟨_, hhead⟩
      · exact ih (mapM_ok_iff.mpr htail) ha

theorem mapM_error {f : α → Except ε β} {l : List α} {e : ε} (h : l.mapM f = .error e) :
    ∃ a ∈ l, f a = .error e := by
  induction l with
  | nil => cases h
  | cons a l ih =>
      rw [List.mapM_cons] at h
      cases ha : f a with
      | error e' =>
          rw [ha] at h
          cases h
          exact ⟨a, List.mem_cons_self .., ha⟩
      | ok b =>
          rw [ha] at h
          cases hl : l.mapM f with
          | error e' =>
              rw [hl] at h
              cases h
              obtain ⟨a', ha', hfails⟩ := ih hl
              exact ⟨a', List.mem_cons_of_mem _ ha', hfails⟩
          | ok bs =>
              rw [hl] at h
              cases h

theorem orElse_some {x y : Option α} {a : α} (h : (x <|> y) = some a) : x = some a ∨ y = some a := by
  cases x with
  | none => exact .inr (by simpa using h)
  | some b => exact .inl (by simpa using h)

/-! ## Results with a state -/

theorem stateT_bind_ok_iff {x : StateT σ (Except ε) α} {f : α → StateT σ (Except ε) β} {s s' : σ}
    {b : β} : (x >>= f) s = .ok (b, s') ↔ ∃ a t, x s = .ok (a, t) ∧ f a t = .ok (b, s') := by
  simp only [bind, StateT.bind]
  cases x s with
  | error e => simp [Except.bind]
  | ok r =>
      obtain ⟨a, t⟩ := r
      simp [Except.bind]

theorem stateT_bind_error_iff {x : StateT σ (Except ε) α} {f : α → StateT σ (Except ε) β} {s : σ}
    {e : ε} : (x >>= f) s = .error e ↔ x s = .error e ∨ ∃ a t, x s = .ok (a, t) ∧ f a t = .error e := by
  refine (bind_error_iff (x := x s) (f := fun r => f r.1 r.2)).trans (or_congr_right ?_)
  exact ⟨fun ⟨r, hx, hf⟩ => ⟨r.1, r.2, hx, hf⟩, fun ⟨a, t, hx, hf⟩ => ⟨(a, t), hx, hf⟩⟩

theorem stateT_map_ok_iff {x : StateT σ (Except ε) α} {f : α → β} {s s' : σ} {b : β} :
    (f <$> x) s = .ok (b, s') ↔ ∃ a, x s = .ok (a, s') ∧ f a = b := by
  simp only [Functor.map, StateT.map, bind, pure, Except.pure]
  cases x s with
  | error e => simp [Except.bind]
  | ok r =>
      obtain ⟨a, t⟩ := r
      simp only [Except.bind, Except.ok.injEq, Prod.mk.injEq]
      exact ⟨fun ⟨hb, hs⟩ => ⟨a, ⟨rfl, hs⟩, hb⟩, fun ⟨a', ⟨ha, hs⟩, hb⟩ => ⟨ha ▸ hb, hs⟩⟩

theorem stateT_pure_ok_iff {a b : α} {s s' : σ} :
    (pure a : StateT σ (Except ε) α) s = .ok (b, s') ↔ a = b ∧ s = s' := by
  show (Except.ok (a, s) : Except ε (α × σ)) = .ok (b, s') ↔ a = b ∧ s = s'
  simp

theorem stateT_throw_ok_iff {e : ε} {b : α} {s s' : σ} :
    (throw e : StateT σ (Except ε) α) s = .ok (b, s') ↔ False := by
  simp [throw, throwThe, MonadExceptOf.throw, StateT.lift, bind, Except.bind]

theorem stateT_get_ok_iff {a s s' : σ} :
    (get : StateT σ (Except ε) σ) s = .ok (a, s') ↔ a = s ∧ s' = s := by
  simp only [get, getThe, MonadStateOf.get, StateT.get, pure, Except.pure, Except.ok.injEq,
    Prod.mk.injEq]
  exact ⟨fun ⟨h, h'⟩ => ⟨h.symm, h'.symm⟩, fun ⟨h, h'⟩ => ⟨h.symm, h'.symm⟩⟩

theorem stateT_set_ok_iff {t s s' : σ} {u : PUnit} :
    (set t : StateT σ (Except ε) PUnit) s = .ok (u, s') ↔ s' = t := by
  show (Except.ok (PUnit.unit, t) : Except ε (PUnit × σ)) = .ok (u, s') ↔ s' = t
  simp only [Except.ok.injEq, Prod.mk.injEq, true_and]
  exact ⟨Eq.symm, Eq.symm⟩

theorem stateT_lift_ok_iff {x : Except ε α} {a : α} {s s' : σ} :
    (liftM x : StateT σ (Except ε) α) s = .ok (a, s') ↔ x = .ok a ∧ s' = s := by
  cases x with
  | error e =>
      constructor
      · intro h
        cases h
      · rintro ⟨h, -⟩
        cases h
  | ok b =>
      show (Except.ok (b, s) : Except ε (α × σ)) = .ok (a, s') ↔ _
      simp only [Except.ok.injEq, Prod.mk.injEq, eq_comm]

/-! ## What a state keeps -/

/-- A computation that succeeds keeps what holds of its state. -/
def Preserves (I : σ → Prop) (x : StateT σ (Except ε) α) : Prop :=
  ∀ s a s', I s → x s = .ok (a, s') → I s'

namespace Preserves

variable {I : σ → Prop}

theorem pure {a : α} : Preserves I (pure a : StateT σ (Except ε) α) := by
  intro s b s' hs h
  obtain ⟨-, rfl⟩ := stateT_pure_ok_iff.mp h
  exact hs

theorem bind {x : StateT σ (Except ε) α} {f : α → StateT σ (Except ε) β} (hx : Preserves I x)
    (hf : ∀ a, Preserves I (f a)) : Preserves I (x >>= f) := by
  intro s b s' hs h
  obtain ⟨a, t, ha, hb⟩ := stateT_bind_ok_iff.mp h
  exact hf a t b s' (hx s a t hs ha) hb

theorem mapM {f : α → StateT σ (Except ε) β} (hf : ∀ a, Preserves I (f a)) (l : List α) :
    Preserves I (l.mapM f) := by
  induction l with
  | nil => exact pure
  | cons a l ih =>
      rw [List.mapM_cons]
      exact (hf a).bind fun b => ih.bind fun bs => pure

end Preserves

end Outcome

end Factbase
