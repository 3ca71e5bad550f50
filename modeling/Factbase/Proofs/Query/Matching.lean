import Factbase.Proofs.Query.Steps
import Factbase.Proofs.Query.Typed

/-!
# Code of matches and expressions

The code of a match, run from a frame that holds an environment, leads to
a frame that holds the environment after the match, or gives up where the
value does not match (`steps_code`). It uses fresh registers only: what
variables with values hold, and what registers in use hold, stays as it
is (`Frame.Keeps`).

Values are of the types that the match has, which is why the code need
not look at the number of a record's fields.
-/

namespace Factbase

variable {σ : Type} [FactStore σ] {r : Reading σ} {w : World} {c : PlanContext} {M : Nat → Prop}

/-! ## What the machine and the meaning have in common -/

/-- The first `k` variables have values of their types, and the others have none. -/
structure Env.Typed (c : PlanContext) (k : Nat) (env : Env) : Prop where
  bound : ∀ v, v < k → ∃ x y, c.vars[v]? = some x ∧ env v = some y ∧ x.ty.Conforms y
  free : ∀ v, k ≤ v → env v = none

/-- A fact has a key and a value of the types that a schema gives its predicate. -/
def Schema.Fits (s : Schema) (f : Fact) : Prop :=
  ∃ d, s.get? f.predicate = some d ∧ d.key.Conforms f.key ∧ d.value.Conforms f.value

/-- Facts are read as facts of a schema. -/
def Look.Sound (s : Schema) (look : Look) : Prop :=
  ∀ id p f, (look id p).run = .ok (some f) → f.id = id ∧ f.predicate = p ∧ s.Fits f

namespace Frame

/-- The registers of variables hold their values, and nothing where they have none. `M` says
which variables count. -/
def Holds (c : PlanContext) (M : Nat → Prop) (f : Frame) (env : Env) : Prop :=
  ∀ v < c.vars.length, M v → f.regs v = (env v).getD .unit

/-- A register that code must not change: that of a variable with a value, or one above the
variables that is in use. -/
def InUse (c : PlanContext) (k next : Nat) (reg : Nat) : Prop :=
  reg < k ∨ c.vars.length ≤ reg ∧ reg < next

/-- Registers in use stay as they are. -/
def Keeps (c : PlanContext) (k next : Nat) (f f' : Frame) : Prop :=
  ∀ reg, InUse c k next reg → f'.regs reg = f.regs reg ∧ f'.facts reg = f.facts reg

variable {f f' f'' : Frame} {k k' next next' : Nat}

theorem InUse.mono {reg : Nat} (h : InUse c k next reg) (hk : k ≤ k') (hnext : next ≤ next') :
    InUse c k' next' reg := by
  unfold InUse at *
  omega

theorem Keeps.refl (f : Frame) : Keeps c k next f f := fun _ _ => ⟨rfl, rfl⟩

theorem Keeps.trans (h : Keeps c k next f f') (h' : Keeps c k' next' f' f'') (hk : k ≤ k')
    (hnext : next ≤ next') : Keeps c k next f f'' := by
  intro reg hreg
  obtain ⟨hregs, hfacts⟩ := h reg hreg
  obtain ⟨hregs', hfacts'⟩ := h' reg (hreg.mono hk hnext)
  exact ⟨hregs'.trans hregs, hfacts'.trans hfacts⟩

end Frame

/-- What code leads to: a frame that holds the environment that is meant, which gives
values to the first `k'` variables, with the registers in use before unchanged. -/
structure Frame.Reaches (c : PlanContext) (M : Nat → Prop) (k k' next : Nat) (f f' : Frame)
    (env' : Env) : Prop where
  holds : f'.Holds c M env'
  typed : env'.Typed c k'
  keeps : f.Keeps c k next f'

theorem Env.Typed.le {env : Env} {k : Nat} (h : env.Typed c k) : k ≤ c.vars.length := by
  cases k with
  | zero => exact Nat.zero_le _
  | succ k =>
      obtain ⟨x, -, hx, -⟩ := h.bound k (Nat.lt_succ_self k)
      exact (List.getElem?_eq_some_iff.mp hx).1

/-- The next variable is bound to a value of its type. -/
theorem Env.Typed.bind {env : Env} {k : Nat} (h : env.Typed c k) {x : Variable} {v : Value}
    (hx : c.vars[k]? = some x) (hv : x.ty.Conforms v) : (env.bind k v).Typed c (k + 1) := by
  constructor
  · intro i hi
    by_cases hik : i = k
    · exact ⟨x, v, hik ▸ hx, if_pos hik, hv⟩
    · obtain ⟨x', y, hx', hy, hfit⟩ := h.bound i (by omega)
      exact ⟨x', y, hx', (if_neg hik).trans hy, hfit⟩
  · intro i hi
    exact (if_neg (by omega)).trans (h.free i (by omega))

namespace Frame

variable {f f' : Frame} {env env' : Env} {k k' next next' dst : Nat}

/-- A frame with a change above the registers in use. -/
theorem Holds.congr (h : f.Holds c M env) (hregs : ∀ reg, reg ≠ dst → f'.regs reg = f.regs reg)
    (hdst : c.vars.length ≤ dst) : f'.Holds c M env := by
  intro v hv hM
  rw [hregs v (by omega)]
  exact h v hv hM

theorem Keeps.of_fresh (hregs : ∀ reg, reg ≠ dst → f'.regs reg = f.regs reg)
    (hfacts : ∀ reg, reg ≠ dst → f'.facts reg = f.facts reg) (hk : k ≤ c.vars.length)
    (hdst : c.vars.length ≤ dst) (hnext : next ≤ dst) : f.Keeps c k next f' := by
  intro reg hreg
  have hne : reg ≠ dst := by
    unfold InUse at hreg
    omega
  exact ⟨hregs reg hne, hfacts reg hne⟩

theorem put_reaches (h : f.Holds c M env) (hty : env.Typed c k) (hdst : c.vars.length ≤ dst)
    (hnext : next ≤ dst) (v : Value) : f.Reaches c M k k next (f.put dst v) env where
  holds := h.congr (fun _ hne => if_neg hne) hdst
  typed := hty
  keeps := .of_fresh (fun _ hne => if_neg hne) (fun _ _ => rfl) hty.le hdst hnext

theorem load_reaches (h : f.Holds c M env) (hty : env.Typed c k) (hdst : c.vars.length ≤ dst)
    (hnext : next ≤ dst) (fact : Fact) : f.Reaches c M k k next (f.load dst fact) env where
  holds := h.congr (fun _ hne => if_neg hne) hdst
  typed := hty
  keeps := .of_fresh (fun _ hne => if_neg hne) (fun _ hne => if_neg hne) hty.le hdst hnext

/-- A variable takes the value of a register. -/
theorem move_reaches (h : f.Holds c M env) (hty : env.Typed c k) {src : Nat} {x : Variable}
    (hx : c.vars[k]? = some x) (hfit : x.ty.Conforms (f.regs src)) :
    f.Reaches c M k (k + 1) next (f.move src k) (env.bind k (f.regs src)) where
  holds := by
    intro v hv hM
    by_cases hvk : v = k
    · show (if v = k then f.regs src else f.regs v) = _
      rw [if_pos hvk, Env.bind, if_pos hvk]
      rfl
    · show (if v = k then f.regs src else f.regs v) = _
      rw [if_neg hvk, Env.bind, if_neg hvk]
      exact h v hv hM
  typed := hty.bind hx hfit
  keeps := by
    have hk : k < c.vars.length := (List.getElem?_eq_some_iff.mp hx).1
    intro reg hreg
    have hne : reg ≠ k := by
      unfold InUse at hreg
      omega
    exact ⟨if_neg hne, if_neg hne⟩

theorem Reaches.refl (h : f.Holds c M env) (hty : env.Typed c k) : f.Reaches c M k k next f env :=
  ⟨h, hty, .refl f⟩

theorem Reaches.trans {f'' : Frame} {env'' : Env} {k'' : Nat} (h : f.Reaches c M k k' next f' env')
    (h' : f'.Reaches c M k' k'' next' f'' env'') (hk : k ≤ k') (hnext : next ≤ next') :
    f.Reaches c M k k'' next f'' env'' :=
  ⟨h'.holds, h'.typed, h.keeps.trans h'.keeps hk hnext⟩

end Frame

/-! ## Matches -/

namespace Match

mutual
/-- Matches never take values away. -/
theorem Typed.le : (m : Match) → {ty : Ty} → {k k' : Nat} → m.Typed c ty k k' → k ≤ k'
  | .wild, _, _, _, h => Nat.le_of_eq h.symm
  | .bind _, _, _, _, ⟨_, h, _⟩ => by omega
  | .same _, _, _, _, ⟨h, _⟩ => Nat.le_of_eq h.symm
  | .lit _, _, _, _, ⟨h, _⟩ => Nat.le_of_eq h.symm
  | .stringStart _, _, _, _, ⟨h, _⟩ => Nat.le_of_eq h.symm
  | .array items, _, _, _, ⟨_, _, h⟩ => TypedAll.le items h
  | .record _ fields, _, _, _, ⟨_, _, _, h⟩ => TypedFields.le fields h
  | .alt _ payload, _, _, _, ⟨_, _, _, _, h⟩ => Typed.le payload h
  | .deref _ key, _, _, _, ⟨_, _, _, _, h⟩ => Typed.le key h

theorem TypedAll.le : (ms : List Match) → {elem : Ty} → {k k' : Nat} → TypedAll c ms elem k k' →
    k ≤ k'
  | [], _, _, _, h => Nat.le_of_eq h.symm
  | m :: ms, _, _, _, ⟨_, h, hs⟩ => Nat.le_trans (Typed.le m h) (TypedAll.le ms hs)

theorem TypedFields.le : (ms : List (Nat × Match)) → {all : List Field} → {k k' : Nat} →
    TypedFields c ms all k k' → k ≤ k'
  | [], _, _, _, h => Nat.le_of_eq h.symm
  | (_, m) :: ms, _, _, _, ⟨_, _, _, h, hs⟩ => Nat.le_trans (Typed.le m h) (TypedFields.le ms hs)
end

theorem isWild_iff {m : Match} : m.isWild = true ↔ m = .wild := by
  cases m <;> simp [isWild]

/-! ### The code of a match -/

section Code

variable (src next : Nat)

theorem code_array (items : List Match) :
    code src (.array items) next =
      (.arrayLen src items.length :: (codeItems src 0 items next).1, (codeItems src 0 items next).2) :=
  rfl

theorem code_alt (index : UInt32) (payload : Match) :
    code src (.alt index payload) next =
      (.alt src index next :: (payload.code next (next + 1)).1, (payload.code next (next + 1)).2) :=
  rfl

theorem codeKey_deref (p : Predicate) (key : Match) :
    code src (.deref p key) next =
      (.deref src p next :: (key.codeKey next (next + 1)).1, (key.codeKey next (next + 1)).2) := by
  rw [code, codeKey]
  split <;> rfl

theorem codeItems_wild (i : Nat) (ms : List Match) :
    codeItems src i (.wild :: ms) next = codeItems src (i + 1) ms next := rfl

theorem codeItems_cons (i : Nat) {m : Match} (hm : m.isWild = false) (ms : List Match) :
    codeItems src i (m :: ms) next =
      let (code, after) := m.code next (next + 1)
      (.elem src i next :: code ++ (codeItems src (i + 1) ms after).1,
        (codeItems src (i + 1) ms after).2) := by
  rw [codeItems, hm]
  rfl

theorem codeFields_wild (i : Nat) (ms : List (Nat × Match)) :
    codeFields src ((i, .wild) :: ms) next = codeFields src ms next := rfl

theorem codeFields_cons (i : Nat) {m : Match} (hm : m.isWild = false) (ms : List (Nat × Match)) :
    codeFields src ((i, m) :: ms) next =
      let (code, after) := m.code next (next + 1)
      (.field src i next :: code ++ (codeFields src ms after).1, (codeFields src ms after).2) := by
  rw [codeFields, hm]
  rfl

end Code

mutual
/-- Code takes fresh registers, one after another. -/
theorem le_code : (m : Match) → (src next : Nat) → next ≤ (m.code src next).2
  | .wild, _, _ | .bind _, _, _ | .same _, _, _ | .lit _, _, _ | .stringStart _, _, _ => by
      exact Nat.le_of_eq (by rw [code])
  | .array items, src, next => by
      rw [code_array]
      exact le_codeItems items src 0 next
  | .record _ fields, src, next => by
      rw [code]
      exact le_codeFields fields src next
  | .alt _ payload, src, next => by
      rw [code_alt]
      exact Nat.le_trans (Nat.le_succ next) (le_code payload next (next + 1))
  | .deref _ key, src, next => by
      have hkey := le_code key (next + 1) (next + 1 + 1)
      rw [codeKey_deref, codeKey]
      split <;> dsimp only <;> omega

theorem le_codeItems : (ms : List Match) → (src i next : Nat) → next ≤ (codeItems src i ms next).2
  | [], _, _, _ => by
      exact Nat.le_of_eq (by rw [codeItems])
  | m :: ms, src, i, next => by
      have hm := le_code m next (next + 1)
      cases hwild : m.isWild with
      | true =>
          rw [isWild_iff.mp hwild, codeItems_wild]
          exact le_codeItems ms src (i + 1) next
      | false =>
          rw [codeItems_cons src next i hwild]
          have hms := le_codeItems ms src (i + 1) (m.code next (next + 1)).2
          dsimp only
          omega

theorem le_codeFields : (ms : List (Nat × Match)) → (src next : Nat) →
    next ≤ (codeFields src ms next).2
  | [], _, _ => by
      exact Nat.le_of_eq (by rw [codeFields])
  | (i, m) :: ms, src, next => by
      have hm := le_code m next (next + 1)
      cases hwild : m.isWild with
      | true =>
          rw [isWild_iff.mp hwild, codeFields_wild]
          exact le_codeFields ms src next
      | false =>
          rw [codeFields_cons src next i hwild]
          have hms := le_codeFields ms src (m.code next (next + 1)).2
          dsimp only
          omega
end

mutual
/-- Matches are tested by straight code. -/
theorem isStraight_code : (m : Match) → (src next : Nat) →
    ∀ i ∈ (m.code src next).1, i.isStraight = true
  | .wild, _, _ | .same _, _, _ | .lit _, _, _ | .stringStart _, _, _ => by
      simp [code, Instr.isStraight]
  | .bind v, src, _ => by
      rw [code]
      split <;> simp [Instr.isStraight]
  | .array items, src, next => by
      rw [code_array]
      exact List.forall_mem_cons.mpr ⟨rfl, isStraight_codeItems items src 0 next⟩
  | .record _ fields, src, next => by
      rw [code]
      exact isStraight_codeFields fields src next
  | .alt _ payload, src, next => by
      rw [code_alt]
      exact List.forall_mem_cons.mpr ⟨rfl, isStraight_code payload next (next + 1)⟩
  | .deref _ key, src, next => by
      have hkey := isStraight_code key (next + 1) (next + 2)
      rw [codeKey_deref, codeKey]
      refine List.forall_mem_cons.mpr ⟨rfl, ?_⟩
      split
      · exact fun _ hi => nomatch hi
      · exact List.forall_mem_cons.mpr ⟨rfl, hkey⟩

theorem isStraight_codeItems : (ms : List Match) → (src i next : Nat) →
    ∀ j ∈ (codeItems src i ms next).1, j.isStraight = true
  | [], _, _, _ => by simp [codeItems]
  | m :: ms, src, i, next => by
      cases hwild : m.isWild with
      | true =>
          rw [isWild_iff.mp hwild, codeItems_wild]
          exact isStraight_codeItems ms src (i + 1) next
      | false =>
          rw [codeItems_cons src next i hwild]
          exact List.forall_mem_cons.mpr ⟨rfl, List.forall_mem_append.mpr
            ⟨isStraight_code m next (next + 1), isStraight_codeItems ms src (i + 1) _⟩⟩

theorem isStraight_codeFields : (ms : List (Nat × Match)) → (src next : Nat) →
    ∀ j ∈ (codeFields src ms next).1, j.isStraight = true
  | [], _, _ => by simp [codeFields]
  | (i, m) :: ms, src, next => by
      cases hwild : m.isWild with
      | true =>
          rw [isWild_iff.mp hwild, codeFields_wild]
          exact isStraight_codeFields ms src next
      | false =>
          rw [codeFields_cons src next i hwild]
          exact List.forall_mem_cons.mpr ⟨rfl, List.forall_mem_append.mpr
            ⟨isStraight_code m next (next + 1), isStraight_codeFields ms src _⟩⟩
end

theorem isStraight_codeKey (fact : Nat) (key : Match) (next : Nat) :
    ∀ i ∈ (key.codeKey fact next).1, i.isStraight = true := by
  unfold codeKey
  split
  · exact fun _ hi => nomatch hi
  · exact List.forall_mem_cons.mpr ⟨rfl, isStraight_code key next (next + 1)⟩

theorem isStraight_codeValue (fact : Nat) (value : Match) (next : Nat) :
    ∀ i ∈ (value.codeValue fact next).1, i.isStraight = true := by
  unfold codeValue
  split
  · exact fun _ hi => nomatch hi
  · exact List.forall_mem_cons.mpr ⟨rfl, isStraight_code value next (next + 1)⟩

theorem le_codeKey (fact : Nat) (key : Match) (next : Nat) : next ≤ (key.codeKey fact next).2 := by
  have hkey := le_code key next (next + 1)
  unfold codeKey
  split
  · exact Nat.le_refl next
  · exact Nat.le_trans (Nat.le_succ next) hkey

theorem le_codeValue (fact : Nat) (value : Match) (next : Nat) :
    next ≤ (value.codeValue fact next).2 := by
  have hvalue := le_code value next (next + 1)
  unfold codeValue
  split
  · exact Nat.le_refl next
  · exact Nat.le_trans (Nat.le_succ next) hvalue

/-! ### Running the code of a match -/

/-- The code of a match leads from a frame that holds an environment to one that holds the
environment after the match. -/
def Follows (r : Reading σ) (w : World) (c : PlanContext) (M : Nat → Prop) (m : Match) : Prop :=
  ∀ ⦃ty : Ty⦄ ⦃src next k k' : Nat⦄ ⦃f : Frame⦄ ⦃env : Env⦄ ⦃x : Value⦄,
    m.Typed c ty k k' → (∀ v ∈ m.mentions, M v) → ty.Conforms x → f.regs src = x →
    Frame.InUse c k next src →
    c.vars.length ≤ next → f.Holds c M env → env.Typed c k →
    Shows w (f.Reaches c M k k' next) (steps r (m.code src next).1 f)
      (m.against (r.read w.overlay) x env)

section Run

variable {src next k k' : Nat} {f : Frame} {env : Env} {x : Value}

/-- The code of a wildcard, or of nothing else to match. -/
theorem shows_nothing (hf : f.Holds c M env) (henv : env.Typed c k) :
    Shows w (f.Reaches c M k k next) (steps r [] f) (pure env) :=
  .done (.refl hf henv)

/-- A test, and the code after it. -/
theorem shows_guard {α : Type} {P : Frame → α → Prop} {s : Attempt α} {i : Instr} {code : List Instr}
    {holds meant : Prop} [Decidable holds] [Decidable meant]
    (hi : i.step r f = if holds then pure f else failure) (hiff : holds ↔ meant)
    (hrest : meant → Shows w P (steps r code f) s) :
    Shows w P (steps r (i :: code) f) (do guard meant; s) := by
  rw [steps, hi]
  by_cases hmeant : meant
  · rw [if_pos (hiff.mpr hmeant), Attempt.guard_pos hmeant, pure_bind, pure_bind]
    exact hrest hmeant
  · rw [if_neg fun h => hmeant (hiff.mp h), Attempt.guard_neg hmeant]
    exact .givesUp

/-- A test at the end of code. -/
theorem shows_test {i : Instr} {holds meant : Prop} [Decidable holds] [Decidable meant]
    (hf : f.Holds c M env) (henv : env.Typed c k)
    (hi : i.step r f = if holds then pure f else failure) (hiff : holds ↔ meant) :
    Shows w (f.Reaches c M k k next) (steps r [i] f) (do guard meant; return env) :=
  shows_guard hi hiff fun _ => shows_nothing hf henv

/-- An instruction that goes on from a changed frame. -/
theorem steps_cons_pure {i : Instr} {f' : Frame} (hi : i.step r f = pure f') (code : List Instr) :
    steps r (i :: code) f = steps r code f' := by
  rw [steps, hi, pure_bind]

/-- A match, and what goes on from the frame that it leads to. -/
theorem shows_then {j next' : Nat} {m : Step Frame} {s : Attempt Env} {g : Frame → Step Frame}
    {t : Env → Attempt Env} (h : Shows w (f.Reaches c M k j next) m s) (hk : k ≤ j)
    (hnext : next ≤ next')
    (hrest : ∀ f' env', f.Reaches c M k j next f' env' →
      Shows w (f'.Reaches c M j k' next') (g f') (t env')) :
    Shows w (f.Reaches c M k k' next) (m >>= g) (s >>= t) :=
  h.andThen fun f' env' hreach =>
    (hrest f' env' hreach).imp fun _ _ hreach' => hreach.trans hreach' hk hnext

/-- A part of a value is put into a fresh register and matched there. -/
theorem shows_part {m : Match} (hm : Follows r w c M m) {ty : Ty} {i : Instr}
    (hi : i.step r f = pure (f.put next x)) (htyped : m.Typed c ty k k')
    (hM : ∀ v ∈ m.mentions, M v) (hx : ty.Conforms x) (hnext : c.vars.length ≤ next)
    (hf : f.Holds c M env) (henv : env.Typed c k) :
    Shows w (f.Reaches c M k k' next) (steps r (i :: (m.code next (next + 1)).1) f)
      (m.against (r.read w.overlay) x env) := by
  rw [steps_cons_pure hi]
  have hput := Frame.put_reaches hf henv hnext (Nat.le_refl next) x
  have hrun := hm htyped hM hx (if_pos rfl : (f.put next x).regs next = x)
    (.inr ⟨hnext, Nat.lt_succ_self next⟩) (Nat.le_succ_of_le hnext) hput.holds hput.typed
  exact hrun.imp fun f' env' h => hput.trans h (Nat.le_refl k) (Nat.le_succ next)

/-- The key of a fact that is loaded is matched. -/
theorem shows_codeKey {key : Match} (hkey : Follows r w c M key) {ty : Ty} {fact : Fact}
    (hloaded : f.facts src = some fact) (htyped : key.Typed c ty k k')
    (hM : ∀ v ∈ key.mentions, M v) (hx : ty.Conforms fact.key) (hnext : c.vars.length ≤ next)
    (hf : f.Holds c M env) (henv : env.Typed c k) :
    Shows w (f.Reaches c M k k' next) (steps r (key.codeKey src next).1 f)
      (key.against (r.read w.overlay) fact.key env) := by
  unfold codeKey
  cases hwild : key.isWild with
  | true =>
      obtain rfl := isWild_iff.mp hwild
      obtain rfl := htyped
      rw [against]
      exact shows_nothing hf henv
  | false =>
      refine shows_part hkey ?_ htyped hM hx hnext hf henv
      rw [Instr.step, Frame.loaded, hloaded]
      rfl

/-- The value of a fact that is loaded is matched. -/
theorem shows_codeValue {value : Match} (hvalue : Follows r w c M value) {ty : Ty} {fact : Fact}
    (hloaded : f.facts src = some fact) (htyped : value.Typed c ty k k')
    (hM : ∀ v ∈ value.mentions, M v) (hx : ty.Conforms fact.value) (hnext : c.vars.length ≤ next)
    (hf : f.Holds c M env) (henv : env.Typed c k) :
    Shows w (f.Reaches c M k k' next) (steps r (value.codeValue src next).1 f)
      (value.against (r.read w.overlay) fact.value env) := by
  unfold codeValue
  cases hwild : value.isWild with
  | true =>
      obtain rfl := isWild_iff.mp hwild
      obtain rfl := htyped
      rw [against]
      exact shows_nothing hf henv
  | false =>
      refine shows_part hvalue ?_ htyped hM hx hnext hf henv
      rw [Instr.step, Frame.loaded, hloaded]
      rfl

/-- Following a reference loads the fact that is read there. -/
theorem shows_deref (p : Predicate) {dst : Nat} {id : FactId} (hsrc : f.regs src = .fact id) :
    Shows w (fun f' fact => f' = f.load dst fact ∧ r.read w.overlay id p = .ok (some fact))
      ((Instr.deref src p dst).step r f) (r.read w.overlay id p) := by
  have hload := (Shows.fetch (w := w) (r.read · id p) fun _ => p).andThen
    (f := fun fact => pure (f.load dst fact)) (g := pure) fun fact fact' hread =>
      Shows.done (P := fun f' fact => f' = f.load dst fact ∧ r.read w.overlay id p = .ok (some fact))
        ⟨congrArg (f.load dst) hread.1, hread.2⟩
  rw [bind_pure] at hload
  rw [Instr.step, hsrc]
  exact hload

mutual
/-- The code of a match leads to a frame that holds the environment after the match. How facts are
read matters only where references are followed. -/
theorem steps_code_of_touches : (m : Match) →
    (∀ p ∈ m.touches, Look.Sound c.schema (r.read w.overlay)) → Follows r w c M m
  | .wild, _ => by
      intro ty src next k k' f env x hm hM hx hsrc huse hnext hf henv
      obtain rfl := hm
      rw [code, against]
      exact shows_nothing hf henv
  | .bind v, _ => by
      intro ty src next k k' f env x hm hM hx hsrc huse hnext hf henv
      obtain ⟨rfl, rfl, y, hy, rfl⟩ := hm
      have hne : v ≠ src := by
        have := (List.getElem?_eq_some_iff.mp hy).1
        unfold Frame.InUse at huse
        omega
      subst hsrc
      rw [code, against, if_neg hne, steps_cons_pure rfl]
      exact .done (Frame.move_reaches hf henv hy hx)
  | .same v, _ => by
      intro ty src next k k' f env x hm hM hx hsrc huse hnext hf henv
      obtain ⟨rfl, hv, -⟩ := hm
      obtain ⟨z, y, hz, hy, -⟩ := henv.bound v hv
      have hreg : f.regs v = y := by
        rw [hf v (List.getElem?_eq_some_iff.mp hz).1 (hM v (List.mem_singleton_self v)), hy]
        rfl
      rw [code, against]
      refine shows_test hf henv rfl ?_
      rw [hreg, hsrc, hy, Option.some.injEq]
      exact eq_comm
  | .lit value, _ => by
      intro ty src next k k' f env x hm hM hx hsrc huse hnext hf henv
      obtain ⟨rfl, -⟩ := hm
      rw [code, against]
      exact shows_test hf henv rfl (by rw [hsrc])
  | .stringStart start, _ => by
      intro ty src next k k' f env x hm hM hx hsrc huse hnext hf henv
      obtain ⟨rfl, rfl⟩ := hm
      obtain ⟨str, rfl⟩ := Ty.conforms_string_iff.mp hx
      rw [code, against]
      refine shows_test hf henv ?_ Iff.rfl
      rw [Instr.step, hsrc]
  | .array items, hlook => by
      intro ty src next k k' f env x hm hM hx hsrc huse hnext hf henv
      obtain ⟨elem, rfl, hitems⟩ := hm
      obtain ⟨xs, rfl, hxs⟩ := Ty.conforms_array_iff.mp hx
      rw [code_array, against]
      have htest : (Instr.arrayLen src items.length).step r f =
          if xs.length = items.length then pure f else failure := by rw [Instr.step, hsrc]
      refine shows_guard htest Iff.rfl fun hlen => ?_
      exact steps_codeItems items hlook hitems hM hxs hsrc rfl hlen.symm huse hnext hf henv
  | .record arity fields, hlook => by
      intro ty src next k k' f env x hm hM hx hsrc huse hnext hf henv
      obtain ⟨all, rfl, rfl, hfields⟩ := hm
      obtain ⟨xs, rfl, hxs⟩ := Ty.conforms_record_iff.mp hx
      rw [code, against, Attempt.guard_pos hxs.length_eq.symm, pure_bind]
      exact steps_codeFields fields hlook hfields hM hxs hsrc huse hnext hf henv
  | .alt index payload, hlook => by
      intro ty src next k k' f env x hm hM hx hsrc huse hnext hf henv
      obtain ⟨alts, a, rfl, ha, hpayload⟩ := hm
      obtain ⟨i, y, rfl, a', ha', hy⟩ := Ty.conforms_sum_iff.mp hx
      rw [code_alt, against]
      by_cases hi : i = index
      · subst hi
        obtain rfl : a = a' := Option.some.inj (ha.symm.trans ha')
        rw [Attempt.guard_pos rfl, pure_bind]
        refine shows_part (steps_code_of_touches payload hlook) ?_ hpayload hM hy hnext hf henv
        rw [Instr.step, hsrc]
        exact if_pos rfl
      · rw [Attempt.guard_neg hi, steps, Instr.step, hsrc]
        dsimp only
        rw [if_neg hi]
        exact .givesUp
  | .deref p key, hlook => by
      intro ty src next k k' f env x hm hM hx hsrc huse hnext hf henv
      obtain ⟨rfl, d, hd, -, hkey⟩ := hm
      obtain ⟨id, rfl⟩ := Ty.conforms_predicate_iff.mp hx
      obtain ⟨hsound, hlookKey⟩ := List.forall_mem_cons.mp hlook
      rw [codeKey_deref, against, steps]
      refine .andThen (shows_deref p hsrc) ?_
      rintro _ fact ⟨rfl, hread⟩
      obtain ⟨-, rfl, d', hd', hfit, -⟩ := hsound id p fact hread
      obtain rfl : d = d' := Option.some.inj (hd.symm.trans hd')
      have hload := Frame.load_reaches hf henv hnext (Nat.le_refl next) fact
      have hloaded : (f.load next fact).facts next = some fact := if_pos rfl
      have hrun := shows_codeKey (steps_code_of_touches key hlookKey) hloaded hkey hM hfit
        (Nat.le_succ_of_le hnext) hload.holds hload.typed
      exact hrun.imp fun f' env' h => hload.trans h (Nat.le_refl k) (Nat.le_succ next)

theorem steps_codeItems : (ms : List Match) →
    (∀ p ∈ touchesAll ms, Look.Sound c.schema (r.read w.overlay)) → {elem : Ty} →
    {src i next k k' : Nat} → {f : Frame} → {env : Env} → {xs all : List Value} →
    TypedAll c ms elem k k' → (∀ v ∈ mentionsAll ms, M v) → (∀ x ∈ xs, elem.Conforms x) →
    f.regs src = .array all → all.drop i = xs → ms.length = xs.length →
    Frame.InUse c k next src → c.vars.length ≤ next → f.Holds c M env → env.Typed c k →
    Shows w (f.Reaches c M k k' next) (steps r (codeItems src i ms next).1 f)
      (againstAll (r.read w.overlay) ms xs env)
  | [], _, _, _, _, _, _, _, _, _, _, _, hms, _, _, _, _, _, _, _, hf, henv => by
      obtain rfl := hms
      rw [codeItems, againstAll]
      · exact shows_nothing hf henv
      · simp
  | m :: ms, hlook, elem, src, i, next, k, k', f, env, x :: xs, all, ⟨j, hm, hms⟩, hM, hxs, hsrc,
      hdrop, hlen, huse, hnext, hf, henv => by
      obtain ⟨hx, hrest⟩ := List.forall_mem_cons.mp hxs
      obtain ⟨hMm, hMs⟩ := List.forall_mem_append.mp hM
      obtain ⟨hlookm, hlooks⟩ := List.forall_mem_append.mp hlook
      have hitem : all[i]? = some x := by
        have := congrArg (·[0]?) hdrop
        simpa using this
      have hdrop' : all.drop (i + 1) = xs := by
        rw [← List.drop_drop, hdrop]
        rfl
      have hlen' : ms.length = xs.length := by simpa using hlen
      rw [againstAll]
      cases hwild : m.isWild with
      | true =>
          obtain rfl := isWild_iff.mp hwild
          obtain rfl := hm
          rw [codeItems_wild, against, pure_bind]
          exact steps_codeItems ms hlooks hms hMs hrest hsrc hdrop' hlen' huse hnext hf henv
      | false =>
          rw [codeItems_cons src next i hwild]
          dsimp only
          rw [steps_append]
          have hle := Nat.le_trans (Nat.le_succ next) (le_code m next (next + 1))
          have helem : (Instr.elem src i next).step r f = pure (f.put next x) := by
            rw [Instr.step, hsrc]
            dsimp only
            rw [hitem]
          refine shows_then (shows_part (steps_code_of_touches m hlookm) helem hm hMm hx hnext hf henv)
            (Typed.le m hm) hle fun f' env' h => ?_
          have hsrc' : f'.regs src = .array all := by rw [(h.keeps src huse).1, hsrc]
          exact steps_codeItems ms hlooks hms hMs hrest hsrc' hdrop' hlen'
            (huse.mono (Typed.le m hm) hle) (Nat.le_trans hnext hle) h.holds h.typed

theorem steps_codeFields : (ms : List (Nat × Match)) →
    (∀ p ∈ touchesFields ms, Look.Sound c.schema (r.read w.overlay)) → {all : List Field} →
    {src next k k' : Nat} → {f : Frame} → {env : Env} → {xs : List Value} →
    TypedFields c ms all k k' → (∀ v ∈ mentionsFields ms, M v) → Ty.ConformAll all xs →
    f.regs src = .record xs → Frame.InUse c k next src → c.vars.length ≤ next →
    f.Holds c M env → env.Typed c k →
    Shows w (f.Reaches c M k k' next) (steps r (codeFields src ms next).1 f)
      (againstFields (r.read w.overlay) ms xs env)
  | [], _, _, _, _, _, _, _, _, _, hms, _, _, _, _, _, hf, henv => by
      obtain rfl := hms
      rw [codeFields, againstFields]
      exact shows_nothing hf henv
  | (i, m) :: ms, hlook, all, src, next, k, k', f, env, xs, ⟨field, j, hfield, hm, hms⟩, hM, hxs,
      hsrc, huse, hnext, hf, henv => by
      obtain ⟨x, hitem, hx⟩ := forall₂_getElem? hxs hfield
      obtain ⟨hMm, hMs⟩ := List.forall_mem_append.mp hM
      obtain ⟨hlookm, hlooks⟩ := List.forall_mem_append.mp hlook
      rw [againstFields, hitem]
      dsimp only
      cases hwild : m.isWild with
      | true =>
          obtain rfl := isWild_iff.mp hwild
          obtain rfl := hm
          rw [codeFields_wild, against, pure_bind]
          exact steps_codeFields ms hlooks hms hMs hxs hsrc huse hnext hf henv
      | false =>
          rw [codeFields_cons src next i hwild]
          dsimp only
          rw [steps_append]
          have hle := Nat.le_trans (Nat.le_succ next) (le_code m next (next + 1))
          have hpart : (Instr.field src i next).step r f = pure (f.put next x) := by
            rw [Instr.step, hsrc]
            dsimp only
            rw [hitem]
          refine shows_then (shows_part (steps_code_of_touches m hlookm) hpart hm hMm hx hnext hf henv)
            (Typed.le m hm) hle fun f' env' h => ?_
          have hsrc' : f'.regs src = .record xs := by rw [(h.keeps src huse).1, hsrc]
          exact steps_codeFields ms hlooks hms hMs hxs hsrc' (huse.mono (Typed.le m hm) hle)
            (Nat.le_trans hnext hle) h.holds h.typed
end

theorem steps_code (hlook : Look.Sound c.schema (r.read w.overlay)) (m : Match) :
    Follows r w c M m :=
  m.steps_code_of_touches fun _ _ => hlook

end Run

end Match

end Factbase
