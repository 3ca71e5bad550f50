import Factbase.Proofs.Query.Draws
import Factbase.Proofs.Query.Expressions
import Factbase.Proofs.Query.Liveness

/-!
# Registers are set once

On its way through a block, the code of a typed body sets a register at
most once. It looks only at registers that it has set by then, or that
hold a variable which counts, and takes apart only facts that it has
loaded itself (`SetsOnce`). So the number of registers that is written
down with a code is enough for it (`Body.Typed.registers_suffice`).

There is one exception. A derived fact has no value, and a variable that
is bound to it is not set at all: its register still holds what it held
in the beginning (`Stage.unset`).
-/

namespace Factbase

/-! ## Registers of instructions -/

namespace Instr

/-- The registers whose contents an instruction looks at. -/
def reads : Instr → List Nat
  | .seek _ (.reg reg) _ => [reg]
  | .deref src _ _ | .field src _ _ | .alt src _ _ | .arrayLen src _ | .elem src _ _ => [src]
  | .eqConst src _ | .startsWith src _ | .move src _ | .makeAlt _ src _ | .prim _ src _ => [src]
  | .emit src => [src]
  | .eqReg a b => [a, b]
  | .makeArray regs _ | .makeRecord regs _ | .barrier regs => regs
  | .scan _ _ | .seek _ (.const _) _ | .load _ _ | .derive _ _ | .const _ _ => []
  | .key _ _ | .value _ _ => []

/-- The register whose fact an instruction takes apart. -/
def opens? : Instr → Option Nat
  | .key src _ | .value src _ => some src
  | _ => none

/-- The register that an instruction loads a fact in. -/
def loads? : Instr → Option Nat
  | .scan _ dst | .seek _ _ dst | .load _ dst | .derive _ dst | .deref _ _ dst => some dst
  | _ => none

/-- The register that an instruction sets. -/
def sets? : Instr → Option Nat
  | .scan _ dst | .seek _ _ dst | .load _ dst | .derive _ dst | .deref _ _ dst => some dst
  | .key _ dst | .value _ dst | .field _ _ dst | .alt _ _ dst | .elem _ _ dst => some dst
  | .move _ dst | .const _ dst | .makeArray _ dst | .makeRecord _ dst | .makeAlt _ _ dst => some dst
  | .prim _ _ dst => some dst
  | .arrayLen _ _ | .eqConst _ _ | .startsWith _ _ | .eqReg _ _ | .barrier _ | .emit _ => none

/-- All registers that an instruction names. -/
def registers (i : Instr) : List Nat := i.reads ++ i.opens?.toList ++ i.sets?.toList

theorem sets?_of_loads? {i : Instr} {reg : Nat} (h : i.loads? = some reg) : i.sets? = some reg := by
  cases i <;> first | exact h | cases h

end Instr

/-! ## What registers hold -/

/-- Which registers are known to hold something at a point of a block, and which of them a fact
that is loaded. -/
structure Holding where
  held : Nat → Prop
  loaded : Nat → Prop
  held_of_loaded : ∀ reg, loaded reg → held reg

/-- What registers hold after an instruction. -/
def Holding.after (H : Holding) (i : Instr) : Holding where
  held reg := H.held reg ∨ i.sets? = some reg
  loaded reg := H.loaded reg ∨ i.loads? = some reg
  held_of_loaded reg h := h.imp (H.held_of_loaded reg) Instr.sets?_of_loads?

/-- An instruction within a block that looks only at what registers hold, and sets one that holds
nothing yet. -/
structure Instr.Within (H : Holding) (i : Instr) : Prop where
  goesOn : i.isEnd = false
  reads : ∀ reg ∈ i.reads, H.held reg
  opens : ∀ reg, i.opens? = some reg → H.loaded reg
  sets : ∀ reg, i.sets? = some reg → ¬ H.held reg

/-- Code of which every instruction is such, from what registers hold at its start to what they
hold at its end. -/
inductive SetsOnce : Holding → List Instr → Holding → Prop
  | nil (H : Holding) : SetsOnce H [] H
  | cons {H H' : Holding} {i : Instr} {code : List Instr} :
    i.Within H → SetsOnce (H.after i) code H' → SetsOnce H (i :: code) H'

namespace SetsOnce

variable {H H₁ H' : Holding} {code rest : List Instr} {reg : Nat}

theorem append (h : SetsOnce H code H₁) (hrest : SetsOnce H₁ rest H') :
    SetsOnce H (code ++ rest) H' := by
  induction h with
  | nil => exact hrest
  | cons hi _ ih => exact .cons hi (ih hrest)

theorem held (h : SetsOnce H code H') (hreg : H.held reg) : H'.held reg := by
  induction h with
  | nil => exact hreg
  | cons _ _ ih => exact ih (.inl hreg)

theorem loaded (h : SetsOnce H code H') (hreg : H.loaded reg) : H'.loaded reg := by
  induction h with
  | nil => exact hreg
  | cons _ _ ih => exact ih (.inl hreg)

/-- All registers that code names hold something at its end. -/
theorem held_of_named (h : SetsOnce H code H') :
    ∀ i ∈ code, ∀ reg ∈ i.registers, H'.held reg := by
  induction h with
  | nil => exact List.forall_mem_nil _
  | @cons H H' i code hi hcode ih =>
      refine List.forall_mem_cons.mpr ⟨fun reg hreg => hcode.held ?_, ih⟩
      rw [Instr.registers, List.mem_append, List.mem_append, Option.mem_toList, Option.mem_toList]
        at hreg
      obtain (hread | hopen) | hset := hreg
      · exact .inl (hi.reads reg hread)
      · exact .inl (H.held_of_loaded reg (hi.opens reg hopen))
      · exact .inr hset

theorem held_of_sets (h : SetsOnce H code H') {i : Instr} (hi : i ∈ code) (hsets : i.sets? = some reg) :
    H'.held reg :=
  h.held_of_named i hi reg (List.mem_append_right _ (Option.mem_toList.mpr hsets))

end SetsOnce

/-! ## Holding variables -/

/-- Registers hold what code needs that is typed over the first `k` variables and takes its
registers from `next` on: the variables that count, according to `M`, and besides them only
registers in use. `U` says which variables are bound without being set. -/
structure Holding.Fits (c : PlanContext) (M U : Nat → Prop) (k next : Nat) (H : Holding) : Prop where
  le : k ≤ c.vars.length
  room : c.vars.length ≤ next
  vars : ∀ v < k, M v → H.held v
  unset : ∀ v, U v → H.held v ∧ v < c.vars.length
  inUse : ∀ reg, H.held reg → Frame.InUse c k next reg ∨ U reg

/-- Code that leads to registers that hold what later code needs. -/
def Holding.Leads (c : PlanContext) (M U : Nat → Prop) (H : Holding) (code : List Instr)
    (k next : Nat) : Prop :=
  ∃ H', SetsOnce H code H' ∧ H'.Fits c M U k next

section Code

variable {c : PlanContext} {M U : Nat → Prop} {H : Holding} {k j k' next next' src : Nat} {i : Instr}
variable {code rest : List Instr}

namespace Holding

/-- A register that is not in use holds nothing. -/
theorem Fits.fresh (h : H.Fits c M U k next) : ¬ H.held next := by
  intro hheld
  have hle := h.le
  have hroom := h.room
  rcases h.inUse next hheld with huse | hunset
  · unfold Frame.InUse at huse
    omega
  · exact absurd (h.unset next hunset).2 (Nat.not_lt_of_le hroom)

/-- The next variable has no value yet. -/
theorem Fits.unbound (h : H.Fits c M U k next) (hk : k < c.vars.length) (hU : ¬ U k) : ¬ H.held k := by
  intro hheld
  rcases h.inUse k hheld with huse | hunset
  · unfold Frame.InUse at huse
    omega
  · exact hU hunset

/-- After an instruction that sets the next free register. -/
theorem Fits.take (h : H.Fits c M U k next) (hi : i.sets? = some next) :
    (H.after i).Fits c M U k (next + 1) where
  le := h.le
  room := Nat.le_succ_of_le h.room
  vars v hv hM := .inl (h.vars v hv hM)
  unset v hv := ⟨.inl (h.unset v hv).1, (h.unset v hv).2⟩
  inUse reg hreg := by
    rcases hreg with hheld | hset
    · exact (h.inUse reg hheld).imp_left (·.mono (Nat.le_refl k) (Nat.le_succ next))
    · obtain rfl := Option.some.inj (hi.symm.trans hset)
      exact .inl (.inr ⟨h.room, Nat.lt_succ_self _⟩)

/-- After an instruction that binds the next variable. -/
theorem Fits.bind (h : H.Fits c M U k next) (hi : i.sets? = some k) (hk : k < c.vars.length) :
    (H.after i).Fits c M U (k + 1) next where
  le := hk
  room := h.room
  vars v hv hM := by
    rcases Nat.lt_or_eq_of_le (Nat.le_of_lt_succ hv) with hlt | rfl
    · exact .inl (h.vars v hlt hM)
    · exact .inr hi
  unset v hv := ⟨.inl (h.unset v hv).1, (h.unset v hv).2⟩
  inUse reg hreg := by
    rcases hreg with hheld | hset
    · exact (h.inUse reg hheld).imp_left (·.mono (Nat.le_succ k) (Nat.le_refl next))
    · obtain rfl := Option.some.inj (hi.symm.trans hset)
      exact .inl (.inl (Nat.lt_succ_self _))

/-- After an instruction that sets nothing. -/
theorem Fits.test (h : H.Fits c M U k next) (hi : i.sets? = none) :
    (H.after i).Fits c M U k next where
  le := h.le
  room := h.room
  vars v hv hM := .inl (h.vars v hv hM)
  unset v hv := ⟨.inl (h.unset v hv).1, (h.unset v hv).2⟩
  inUse reg hreg := h.inUse reg (hreg.resolve_right fun hset => nomatch hi.symm.trans hset)

/-- Variables that are bound without being set. -/
theorem Fits.skip (h : H.Fits c M U k next) (hk : k ≤ k') (hk' : k' ≤ c.vars.length)
    (hU : ∀ v, k ≤ v → v < k' → U v) : H.Fits c M U k' next where
  le := hk'
  room := h.room
  vars v hv hM := by
    by_cases hvk : v < k
    · exact h.vars v hvk hM
    · exact (h.unset v (hU v (Nat.le_of_not_lt hvk) hv)).1
  unset := h.unset
  inUse reg hreg := (h.inUse reg hreg).imp_left (·.mono hk (Nat.le_refl next))

theorem Leads.nil (h : H.Fits c M U k next) : H.Leads c M U [] k next := ⟨H, .nil H, h⟩

theorem Leads.cons (hi : i.Within H) (h : (H.after i).Leads c M U code k next) :
    H.Leads c M U (i :: code) k next := by
  obtain ⟨H', hcode, hfits⟩ := h
  exact ⟨H', .cons hi hcode, hfits⟩

theorem Leads.append (h : H.Leads c M U code j next)
    (hrest : ∀ H', SetsOnce H code H' → H'.Fits c M U j next → H'.Leads c M U rest k' next') :
    H.Leads c M U (code ++ rest) k' next' := by
  obtain ⟨H₁, hcode, hfits⟩ := h
  obtain ⟨H', hrest, hfits'⟩ := hrest H₁ hcode hfits
  exact ⟨H', hcode.append hrest, hfits'⟩

/-- A test of what a register holds. -/
theorem Leads.test (hi : i.isEnd = false) (hsets : i.sets? = none) (hopens : i.opens? = none)
    (hreads : ∀ reg ∈ i.reads, H.held reg) (h : (H.after i).Leads c M U code k next) :
    H.Leads c M U (i :: code) k next :=
  .cons ⟨hi, hreads, fun _ hreg => (nomatch hopens.symm.trans hreg),
    fun _ hreg => (nomatch hsets.symm.trans hreg)⟩ h

/-- The next free register is set from what registers hold. -/
theorem Leads.take (hfits : H.Fits c M U k next) (hi : i.isEnd = false) (hsets : i.sets? = some next)
    (hreads : ∀ reg ∈ i.reads, H.held reg) (hopens : ∀ reg, i.opens? = some reg → H.loaded reg)
    (h : (H.after i).Leads c M U code j next') :
    H.Leads c M U (i :: code) j next' := by
  refine .cons ⟨hi, hreads, hopens, fun reg hreg => ?_⟩ h
  obtain rfl := Option.some.inj (hsets.symm.trans hreg)
  exact hfits.fresh

end Holding

open Holding

/-! ## Matches -/

namespace Match

/-- The code of a match leads from registers that hold the variables before it to registers that
hold those after it. -/
def Sets (c : PlanContext) (M U : Nat → Prop) (m : Match) : Prop :=
  ∀ ⦃ty : Ty⦄ ⦃src next k k' : Nat⦄ ⦃H : Holding⦄, m.Typed c ty k k' → (∀ v ∈ m.mentions, M v) →
    (∀ v, k ≤ v → v < k' → ¬ U v) → H.held src → H.Fits c M U k next →
    H.Leads c M U (m.code src next).1 k' (m.code src next).2

/-- A part of what a register holds is put into the next free one, and matched there. -/
theorem sets_part {m : Match} (hm : m.Sets c M U) {ty : Ty} (hi : i.isEnd = false)
    (hsets : i.sets? = some next) (hreads : ∀ reg ∈ i.reads, H.held reg)
    (hopens : ∀ reg, i.opens? = some reg → H.loaded reg) (htyped : m.Typed c ty k k')
    (hM : ∀ v ∈ m.mentions, M v) (hU : ∀ v, k ≤ v → v < k' → ¬ U v) (hH : H.Fits c M U k next) :
    H.Leads c M U (i :: (m.code next (next + 1)).1) k' (m.code next (next + 1)).2 :=
  .take hH hi hsets hreads hopens (hm htyped hM hU (.inr hsets) (hH.take hsets))

theorem sets_codeKey {key : Match} (hkey : key.Sets c M U) {ty : Ty} {fact : Nat}
    (htyped : key.Typed c ty k k') (hM : ∀ v ∈ key.mentions, M v)
    (hU : ∀ v, k ≤ v → v < k' → ¬ U v) (hfact : H.loaded fact) (hH : H.Fits c M U k next) :
    H.Leads c M U (key.codeKey fact next).1 k' (key.codeKey fact next).2 := by
  unfold codeKey
  cases hwild : key.isWild with
  | true =>
      obtain rfl := isWild_iff.mp hwild
      obtain rfl := htyped
      exact .nil hH
  | false =>
      refine sets_part hkey rfl rfl (List.forall_mem_nil _) (fun reg hreg => ?_) htyped hM hU hH
      exact Option.some.inj hreg ▸ hfact

theorem sets_codeValue {value : Match} (hvalue : value.Sets c M U) {ty : Ty} {fact : Nat}
    (htyped : value.Typed c ty k k') (hM : ∀ v ∈ value.mentions, M v)
    (hU : ∀ v, k ≤ v → v < k' → ¬ U v) (hfact : H.loaded fact) (hH : H.Fits c M U k next) :
    H.Leads c M U (value.codeValue fact next).1 k' (value.codeValue fact next).2 := by
  unfold codeValue
  cases hwild : value.isWild with
  | true =>
      obtain rfl := isWild_iff.mp hwild
      obtain rfl := htyped
      exact .nil hH
  | false =>
      refine sets_part hvalue rfl rfl (List.forall_mem_nil _) (fun reg hreg => ?_) htyped hM hU hH
      exact Option.some.inj hreg ▸ hfact

mutual
/-- The code of a match sets each register once. -/
theorem sets_code : (m : Match) → m.Sets c M U
  | .wild => by
      intro ty src next k k' H hm _ _ _ hH
      obtain rfl := hm
      rw [code]
      exact .nil hH
  | .bind v => by
      intro ty src next k k' H hm _ hU hsrc hH
      obtain ⟨rfl, rfl, x, hx, -⟩ := hm
      have hv : v < c.vars.length := (List.getElem?_eq_some_iff.mp hx).1
      have hfree := hH.unbound hv (hU v (Nat.le_refl v) (Nat.lt_succ_self v))
      have hne : v ≠ src := fun heq => hfree (heq ▸ hsrc)
      rw [code, if_neg hne]
      refine .cons ⟨rfl, List.forall_mem_singleton.mpr hsrc, fun _ h => (nomatch h), ?_⟩
        (.nil (hH.bind rfl hv))
      intro reg hreg
      exact Option.some.inj hreg ▸ hfree
  | .same v => by
      intro ty src next k k' H hm hM _ hsrc hH
      obtain ⟨rfl, hv, -⟩ := hm
      rw [code]
      refine .test rfl rfl rfl ?_ (.nil (hH.test rfl))
      exact List.forall_mem_cons.mpr
        ⟨hsrc, List.forall_mem_singleton.mpr (hH.vars v hv (hM v (List.mem_singleton_self v)))⟩
  | .lit value => by
      intro ty src next k k' H hm _ _ hsrc hH
      obtain ⟨rfl, -⟩ := hm
      rw [code]
      exact .test rfl rfl rfl (List.forall_mem_singleton.mpr hsrc) (.nil (hH.test rfl))
  | .stringStart start => by
      intro ty src next k k' H hm _ _ hsrc hH
      obtain ⟨rfl, -⟩ := hm
      rw [code]
      exact .test rfl rfl rfl (List.forall_mem_singleton.mpr hsrc) (.nil (hH.test rfl))
  | .array items => by
      intro ty src next k k' H hm hM hU hsrc hH
      obtain ⟨elem, -, hitems⟩ := hm
      rw [code_array]
      exact .test rfl rfl rfl (List.forall_mem_singleton.mpr hsrc)
        (sets_codeItems items hitems hM hU (.inl hsrc) (hH.test rfl))
  | .record arity fields => by
      intro ty src next k k' H hm hM hU hsrc hH
      obtain ⟨all, -, -, hfields⟩ := hm
      rw [code]
      exact sets_codeFields fields hfields hM hU hsrc hH
  | .alt index payload => by
      intro ty src next k k' H hm hM hU hsrc hH
      obtain ⟨alts, a, -, -, hpayload⟩ := hm
      rw [code_alt]
      exact sets_part (sets_code payload) rfl rfl (List.forall_mem_singleton.mpr hsrc)
        (fun _ h => nomatch h) hpayload hM hU hH
  | .deref p key => by
      intro ty src next k k' H hm hM hU hsrc hH
      obtain ⟨-, d, -, -, hkey⟩ := hm
      rw [codeKey_deref]
      exact .take hH rfl rfl (List.forall_mem_singleton.mpr hsrc) (fun _ h => nomatch h)
        (sets_codeKey (sets_code key) hkey hM hU (.inr rfl) (hH.take rfl))

theorem sets_codeItems : (ms : List Match) → {elem : Ty} → {src i next k k' : Nat} → {H : Holding} →
    TypedAll c ms elem k k' → (∀ v ∈ mentionsAll ms, M v) → (∀ v, k ≤ v → v < k' → ¬ U v) →
    H.held src → H.Fits c M U k next →
    H.Leads c M U (codeItems src i ms next).1 k' (codeItems src i ms next).2
  | [], _, _, _, _, _, _, _, hms, _, _, _, hH => by
      obtain rfl := hms
      rw [codeItems]
      exact .nil hH
  | m :: ms, elem, src, i, next, k, k', H, ⟨j, hm, hms⟩, hM, hU, hsrc, hH => by
      obtain ⟨hMm, hMs⟩ := List.forall_mem_append.mp hM
      cases hwild : m.isWild with
      | true =>
          obtain rfl := isWild_iff.mp hwild
          obtain rfl := hm
          rw [codeItems_wild]
          exact sets_codeItems ms hms hMs hU hsrc hH
      | false =>
          rw [codeItems_cons src next i hwild]
          have hfirst := sets_part (sets_code m) (i := .elem src i next) rfl rfl
            (List.forall_mem_singleton.mpr hsrc) (fun _ h => nomatch h) hm hMm
            (fun v hv hvj => hU v hv (Nat.lt_of_lt_of_le hvj (TypedAll.le ms hms))) hH
          refine hfirst.append fun H' hcode hfits => ?_
          exact sets_codeItems ms hms hMs (fun v hv => hU v (Nat.le_trans (Typed.le m hm) hv))
            (hcode.held hsrc) hfits

theorem sets_codeFields : (ms : List (Nat × Match)) → {all : List Field} → {src next k k' : Nat} →
    {H : Holding} → TypedFields c ms all k k' → (∀ v ∈ mentionsFields ms, M v) →
    (∀ v, k ≤ v → v < k' → ¬ U v) → H.held src → H.Fits c M U k next →
    H.Leads c M U (codeFields src ms next).1 k' (codeFields src ms next).2
  | [], _, _, _, _, _, _, hms, _, _, _, hH => by
      obtain rfl := hms
      rw [codeFields]
      exact .nil hH
  | (i, m) :: ms, all, src, next, k, k', H, ⟨_, j, _, hm, hms⟩, hM, hU, hsrc, hH => by
      obtain ⟨hMm, hMs⟩ := List.forall_mem_append.mp hM
      cases hwild : m.isWild with
      | true =>
          obtain rfl := isWild_iff.mp hwild
          obtain rfl := hm
          rw [codeFields_wild]
          exact sets_codeFields ms hms hMs hU hsrc hH
      | false =>
          rw [codeFields_cons src next i hwild]
          have hfirst := sets_part (sets_code m) (i := .field src i next) rfl rfl
            (List.forall_mem_singleton.mpr hsrc) (fun _ h => nomatch h) hm hMm
            (fun v hv hvj => hU v hv (Nat.lt_of_lt_of_le hvj (TypedFields.le ms hms))) hH
          refine hfirst.append fun H' hcode hfits => ?_
          exact sets_codeFields ms hms hMs (fun v hv => hU v (Nat.le_trans (Typed.le m hm) hv))
            (hcode.held hsrc) hfits
end

end Match

/-! ## Expressions -/

namespace Expr

/-- A construction sets the register after the code of its parts. -/
theorem sets_construct {H' : Holding} (hcode : SetsOnce H code H') (hH : H'.Fits c M U k next)
    (hi : i.isEnd = false) (hsets : i.sets? = some next) (hreads : ∀ reg ∈ i.reads, H'.held reg)
    (hopens : i.opens? = none) :
    ∃ H'', SetsOnce H (code ++ [i]) H'' ∧ H''.Fits c M U k (next + 1) ∧ H''.held next := by
  have hwithin : i.Within H' := by
    refine ⟨hi, hreads, fun _ hreg => (nomatch hopens.symm.trans hreg), fun reg hreg => ?_⟩
    obtain rfl := Option.some.inj (hsets.symm.trans hreg)
    exact hH.fresh
  exact ⟨H'.after i, hcode.append (.cons hwithin (.nil _)), hH.take hsets, .inr hsets⟩

mutual
/-- The code of an expression sets each register once, the one with its value among them. -/
theorem sets_code : (e : Expr) → {ty : Ty} → {next : Nat} → {H : Holding} → e.Typed c ty k →
    (∀ v ∈ e.mentions, M v) → H.Fits c M U k next →
    ∃ H', SetsOnce H (e.code next).1 H' ∧ H'.Fits c M U k (e.code next).2.2 ∧
      H'.held (e.code next).2.1
  | .lit value, _, next, H, _, _, hH =>
      sets_construct (.nil H) hH rfl rfl (List.forall_mem_nil _) rfl
  | .var v, _, next, H, ⟨hv, _⟩, hM, hH =>
      ⟨H, .nil H, hH, hH.vars v hv (hM v (List.mem_singleton_self v))⟩
  | .array items, _, next, H, ⟨_, _, hitems⟩, hM, hH => by
      obtain ⟨H', hcode, hfits, hregs⟩ := sets_codeAll items hitems.each hM hH
      exact sets_construct hcode hfits rfl rfl hregs rfl
  | .record fields, _, next, H, ⟨_, _, hfields⟩, hM, hH => by
      obtain ⟨H', hcode, hfits, hregs⟩ := sets_codeAll fields hfields.each hM hH
      exact sets_construct hcode hfits rfl rfl hregs rfl
  | .alt index payload, _, next, H, ⟨_, _, _, _, hpayload⟩, hM, hH => by
      obtain ⟨H', hcode, hfits, hreg⟩ := sets_code payload hpayload hM hH
      exact sets_construct hcode hfits rfl rfl
        (List.forall_mem_singleton.mpr hreg) rfl

theorem sets_codeAll : (es : List Expr) → {next : Nat} → {H : Holding} →
    (∀ e ∈ es, ∃ ty : Ty, e.Typed c ty k) → (∀ v ∈ mentionsAll es, M v) →
    H.Fits c M U k next →
    ∃ H', SetsOnce H (codeAll es next).1 H' ∧ H'.Fits c M U k (codeAll es next).2.2 ∧
      ∀ reg ∈ (codeAll es next).2.1, H'.held reg
  | [], _, H, _, _, hH => ⟨H, .nil H, hH, List.forall_mem_nil _⟩
  | e :: es, next, H, hes, hM, hH => by
      obtain ⟨⟨ty, he⟩, hrest⟩ := List.forall_mem_cons.mp hes
      obtain ⟨hMe, hMes⟩ := List.forall_mem_append.mp hM
      obtain ⟨H₁, hcode, hfits, hreg⟩ := sets_code e he hMe hH
      obtain ⟨H₂, hcode', hfits', hregs⟩ := sets_codeAll es hrest hMes hfits
      exact ⟨H₂, hcode.append hcode', hfits', List.forall_mem_cons.mpr ⟨hcode'.held hreg, hregs⟩⟩
end

end Expr

/-! ## Stages -/

theorem Outcome.Matched.sets_code {o : Outcome} {m : Match} (hm : o.Matched c m k k')
    (hM : ∀ v ∈ m.mentions, M v) (hU : ∀ v, k ≤ v → v < k' → ¬ U v) (hsrc : H.held src)
    (hH : H.Fits c M U k next) : H.Leads c M U (m.code src next).1 k' (m.code src next).2 := by
  cases o with
  | fact p => exact Match.sets_code m hm hM hU hsrc hH
  | anyFact =>
      obtain ⟨rfl, rfl⟩ := hm
      rw [Match.code]
      exact .nil hH
  | value ty => exact Match.sets_code m hm hM hU hsrc hH

namespace Stage

/-- The variables that a stage binds to the values of derived facts. -/
def unset (s : Stage) : List Nat :=
  match s.supply with
  | .facts _ true _ value => value.binds
  | _ => []

variable {s : Stage} {o : Outcome}

/-- They are bound where candidates are drawn. -/
theorem lt_of_mem_unset (hs : s.supply.Typed c o k j) {v : Nat} (hv : v ∈ s.unset) : v < j := by
  unfold unset at hv
  split at hv
  · rename_i heq
    rw [heq] at hs
    obtain ⟨-, d, i, -, -, -, -, hvalue⟩ := hs
    exact ((Match.mem_binds_iff _ hvalue v).mp hv).2
  · cases hv

theorem unset_subset_binds : s.unset ⊆ s.binds := by
  intro v hv
  unfold unset at hv
  unfold binds
  split at hv
  · rename_i heq
    rw [heq]
    exact List.mem_append_left _ (List.mem_append_right _ hv)
  · cases hv

/-- Code leads to registers that hold what later code needs, and its own result. -/
def Results (c : PlanContext) (M U : Nat → Prop) (H : Holding) (code : List Instr × Nat × Nat)
    (k : Nat) : Prop :=
  ∃ H', SetsOnce H code.1 H' ∧ H'.Fits c M U k code.2.2 ∧ H'.held code.2.1

/-- The facts that a source loads are tested. -/
theorem results_of_source (source : Instr) (hH : H.Fits c M U k next) (hi : source.isEnd = false)
    (hsets : source.sets? = some next) (hopens : source.opens? = none)
    (hreads : ∀ reg ∈ source.reads, H.held reg) (h : (H.after source).Leads c M U code j next') :
    Results c M U H (source :: code, next, next') j := by
  obtain ⟨H', hcode, hfits⟩ := Leads.take hH hi hsets hreads
    (fun _ hreg => (nomatch hopens.symm.trans hreg)) h
  exact ⟨H', hcode, hfits, hcode.held_of_sets (List.mem_cons_self ..) hsets⟩

/-- The code that draws candidates sets each register once. -/
theorem sets_draw (hs : s.supply.Typed c o k j) (hj : j ≤ c.vars.length) (hM : ∀ v ∈ s.mentions, M v)
    (hU : ∀ v, k ≤ v → v < j → (U v ↔ v ∈ s.unset)) (hH : H.Fits c M U k next) :
    Results c M U H (s.supply.code next) j := by
  obtain ⟨supply, m⟩ := s
  cases supply with
  | facts p derived key value =>
      obtain ⟨-, d, i, -, -, -, hkey, hvalue⟩ := hs
      obtain ⟨hMfact, -⟩ := List.forall_mem_append.mp hM
      obtain ⟨hMk, hMv⟩ := List.forall_mem_append.mp hMfact
      cases derived with
      | true =>
          have hset : ∀ v, k ≤ v → v < i → ¬ U v := fun v hv hvi hunset => by
            have hmem := (hU v hv (Nat.lt_of_lt_of_le hvi hvalue.le)).mp hunset
            exact absurd ((Match.mem_binds_iff value hvalue v).mp hmem).1 (Nat.not_le_of_lt hvi)
          have hloaded : (H.after (.derive p next)).loaded next := .inr rfl
          have htest := Match.sets_codeKey (Match.sets_code key) hkey hMk hset hloaded (hH.take rfl)
          obtain ⟨H', hcode, hfits, hout⟩ := results_of_source (.derive p next) hH rfl rfl rfl
            (List.forall_mem_nil _) htest
          refine ⟨H', hcode, hfits.skip hvalue.le hj fun v hv hvj => ?_, hout⟩
          exact (hU v (Nat.le_trans hkey.le hv) hvj).mpr
            ((Match.mem_binds_iff value hvalue v).mpr ⟨hv, hvj⟩)
      | false =>
          have hset : ∀ v, k ≤ v → v < j → ¬ U v := fun v hv hvj hunset =>
            absurd ((hU v hv hvj).mp hunset) List.not_mem_nil
          rw [Supply.code]
          split
          · rename_i e hexpr
            obtain ⟨rfl, htyped, hMe⟩ := Match.expr?_typed key hkey hMk hexpr
            split
            · exact results_of_source (.seek p (.const _) next) hH rfl rfl rfl (List.forall_mem_nil _)
                (Match.sets_codeValue (Match.sets_code value) hvalue hMv hset (.inr rfl) (hH.take rfl))
            · obtain ⟨H₁, hcode, hfits, hreg⟩ := Expr.sets_code e htyped hMe hH
              have hloaded :
                  (H₁.after (.seek p (.reg (e.code next).2.1) (e.code next).2.2)).loaded
                    (e.code next).2.2 := .inr rfl
              have htest := Match.sets_codeValue (Match.sets_code value) hvalue hMv hset hloaded
                (hfits.take rfl)
              obtain ⟨H', hcode', hfits', hout⟩ := results_of_source (.seek p (.reg _) _) hfits rfl rfl
                rfl (List.forall_mem_singleton.mpr hreg) htest
              exact ⟨H', hcode.append hcode', hfits', hout⟩
          · refine results_of_source (.scan p next) hH rfl rfl rfl (List.forall_mem_nil _) ?_
            have hloaded : (H.after (.scan p next)).loaded next := .inr rfl
            have htest := Match.sets_codeKey (Match.sets_code key) hkey hMk
              (fun v hv hvi => hset v hv (Nat.lt_of_lt_of_le hvi hvalue.le)) hloaded (hH.take rfl)
            exact htest.append fun H' hcode hfits => Match.sets_codeValue (Match.sets_code value) hvalue
              hMv (fun v hv => hset v (Nat.le_trans hkey.le hv)) (hcode.loaded hloaded) hfits
  | factId id =>
      obtain ⟨-, rfl⟩ := hs
      exact results_of_source (.load ⟨id⟩ next) hH rfl rfl rfl (List.forall_mem_nil _)
        (.nil (hH.take rfl))
  | prim function arg =>
      obtain ⟨-, rfl, ty, -, harg⟩ := hs
      obtain ⟨hMe, -⟩ := List.forall_mem_append.mp hM
      obtain ⟨H', hcode, hfits, hreg⟩ := Expr.sets_code arg harg hMe hH
      exact Expr.sets_construct hcode hfits rfl rfl (List.forall_mem_singleton.mpr hreg) rfl
  | expr e =>
      obtain ⟨rfl, ty, -, he⟩ := hs
      obtain ⟨hMe, -⟩ := List.forall_mem_append.mp hM
      exact Expr.sets_code e he hMe hH

/-- The code of a stage sets each register once. -/
theorem sets_code (hs : s.Typed c o k k') (hk' : k' ≤ c.vars.length) (hM : ∀ v ∈ s.mentions, M v)
    (hU : ∀ v, k ≤ v → v < k' → (U v ↔ v ∈ s.unset)) (hH : H.Fits c M U k next) :
    Results c M U H (s.code next) k' := by
  obtain ⟨j, hsupply, hbind⟩ := hs
  have hle := hbind.le
  have hMbind : ∀ v ∈ s.bind.mentions, M v := by
    intro v hv
    refine hM v ?_
    unfold mentions
    split
    · exact List.mem_append_right _ hv
    · exact List.mem_append_right _ hv
    · exact List.mem_append_right _ hv
    · exact hv
  obtain ⟨H₁, hdraw, hfits, hout⟩ := sets_draw hsupply (Nat.le_trans hle hk') hM
    (fun v hv hvj => hU v hv (Nat.lt_of_lt_of_le hvj hle)) hH
  have hset : ∀ v, j ≤ v → v < k' → ¬ U v := fun v hv hvk hunset => by
    have hkv : k ≤ v := Nat.le_trans hsupply.le hv
    exact absurd (lt_of_mem_unset hsupply ((hU v hkv hvk).mp hunset)) (Nat.not_lt_of_le hv)
  obtain ⟨H', htest, hfits'⟩ := hbind.sets_code hMbind hset hout hfits
  exact ⟨H', hdraw.append htest, hfits', htest.held hout⟩

/-- Stages bind the variables between those that have values before them and after them. -/
theorem TypedAll.bounds {first : Outcome} {ss : List Stage} (hss : TypedAll c first ss o k k')
    (hs : s ∈ ss) {v : Nat} (hv : v ∈ s.binds) : k ≤ v ∧ v < k' := by
  induction ss generalizing first k with
  | nil => cases hs
  | cons s' ss ih =>
      obtain ⟨o', j, hs', hrest⟩ := hss
      rcases List.mem_cons.mp hs with rfl | hs
      · obtain ⟨hkv, hvj⟩ := (hs'.mem_binds_iff v).mp hv
        exact ⟨hkv, Nat.lt_of_lt_of_le hvj hrest.le⟩
      · obtain ⟨hjv, hvk⟩ := ih hrest hs
        exact ⟨Nat.le_trans hs'.le hjv, hvk⟩

end Stage

end Code

/-! ## Blocks -/

/-- What registers hold at the start of a block: what was handed over and counts, and what no code
ever sets. -/
def Holding.start (U : Nat → Prop) (live : List Nat) : Holding where
  held reg := reg ∈ live ∨ U reg
  loaded _ := False
  held_of_loaded _ h := h.elim

/-- Blocks each of which sets registers once, of the first `n`, and hands over what the next one
starts with. -/
inductive BlocksOnce (U : Nat → Prop) (n : Nat) : List Nat → List (List Instr) → Prop
  | nil (live : List Nat) : BlocksOnce U n live []
  | last {live : List Nat} {code : List Instr} {out : Nat} {H : Holding} :
    SetsOnce (.start U live) code H → (∀ reg, H.held reg → reg < n) → H.held out →
    BlocksOnce U n live [code ++ [.emit out]]
  | cons {live keep : List Nat} {code : List Instr} {H : Holding} {blocks : List (List Instr)} :
    SetsOnce (.start U live) code H → (∀ reg, H.held reg → reg < n) → (∀ v ∈ keep, H.held v) →
    blocks ≠ [] → BlocksOnce U n keep blocks →
    BlocksOnce U n live ((code ++ [.barrier keep]) :: blocks)

namespace BlocksOnce

variable {U : Nat → Prop} {n n' : Nat} {live : List Nat} {blocks : List (List Instr)}

theorem mono (h : BlocksOnce U n live blocks) (hn : n ≤ n') : BlocksOnce U n' live blocks := by
  induction h with
  | nil live => exact .nil live
  | last hcode hlt hout =>
      exact .last hcode (fun reg hreg => Nat.lt_of_lt_of_le (hlt reg hreg) hn) hout
  | cons hcode hlt hkeep hne _ ih =>
      exact .cons hcode (fun reg hreg => Nat.lt_of_lt_of_le (hlt reg hreg) hn) hkeep hne ih

/-- A block names only registers that it may. -/
theorem registers_lt (h : BlocksOnce U n live blocks) :
    ∀ block ∈ blocks, ∀ i ∈ block, ∀ reg ∈ i.registers, reg < n := by
  have hblock {H H' : Holding} {code : List Instr} {last : Instr} (hcode : SetsOnce H code H')
      (hlt : ∀ reg, H'.held reg → reg < n) (hlast : ∀ reg ∈ last.registers, H'.held reg) :
      ∀ i ∈ code ++ [last], ∀ reg ∈ i.registers, reg < n :=
    List.forall_mem_append.mpr ⟨fun i hi reg hreg => hlt reg (hcode.held_of_named i hi reg hreg),
      List.forall_mem_singleton.mpr fun reg hreg => hlt reg (hlast reg hreg)⟩
  induction h with
  | nil => exact List.forall_mem_nil _
  | last hcode hlt hout =>
      exact List.forall_mem_singleton.mpr (hblock hcode hlt (List.forall_mem_singleton.mpr hout))
  | cons hcode hlt hkeep _ _ ih =>
      refine List.forall_mem_cons.mpr ⟨hblock hcode hlt fun reg hreg => hkeep reg ?_, ih⟩
      simpa [Instr.registers, Instr.reads, Instr.opens?, Instr.sets?] using hreg

end BlocksOnce

section Bodies

variable {c : PlanContext} {U : Nat → Prop} {k k' : Nat} {first o : Outcome}

/-- What a block starts with is what its stage needs. -/
theorem Holding.start_fits {before after : List Stage} (hbound : Bound k before)
    (hk : k ≤ c.vars.length) (hU : ∀ v, U v → v < c.vars.length) :
    (Holding.start U (liveBetween c.vars.length before after)).Fits c
      (Needed c.vars.length k before after) U k c.vars.length where
  le := hk
  room := Nat.le_refl _
  vars v hv hneeded := .inl (hneeded.resolve_left (Nat.not_le_of_lt hv))
  unset v hv := ⟨.inr hv, hU v hv⟩
  inUse reg hreg := by
    rcases hreg with hlive | hunset
    · exact .inl (.inl ((hbound reg).mpr (mem_liveBetween.mp hlive).2.1))
    · exact .inr hunset

/-- The blocks of typed stages set each register once. -/
theorem blocksOnce_blocksOf {before ss : List Stage} (hss : Stage.TypedAll c first ss o k k')
    (hbound : Bound k before) (hk' : k' ≤ c.vars.length) (hU : ∀ v, U v → v < c.vars.length)
    (hunset : ∀ v, k ≤ v → v < k' → (U v ↔ ∃ s ∈ ss, v ∈ s.unset)) :
    BlocksOnce U (blocksOf c.vars.length before ss).2 (liveBetween c.vars.length before ss)
      (blocksOf c.vars.length before ss).1 := by
  induction ss generalizing first k before with
  | nil => exact .nil _
  | cons s rest ih =>
      have hn : k ≤ c.vars.length := Nat.le_trans hss.le hk'
      obtain ⟨o', j, hs, hrest⟩ := hss
      have hj : j ≤ c.vars.length := Nat.le_trans hrest.le hk'
      have hmentions : ∀ v ∈ s.mentions, Needed c.vars.length k before (s :: rest) v := fun v hv =>
        needed_of_mentioned hbound hn (List.mem_cons_self ..) hv
      -- no other stage binds the variables of the first one
      have hfirst : ∀ v, k ≤ v → v < j → (U v ↔ v ∈ s.unset) := by
        intro v hv hvj
        rw [hunset v hv (Nat.lt_of_lt_of_le hvj hrest.le), List.exists_mem_cons_iff, or_iff_left]
        rintro ⟨s', hs', hmem⟩
        exact absurd (hrest.bounds hs' (Stage.unset_subset_binds hmem)).1 (Nat.not_le_of_lt hvj)
      have hothers : ∀ v, j ≤ v → v < k' → (U v ↔ ∃ s ∈ rest, v ∈ s.unset) := by
        intro v hv hvk
        rw [hunset v (Nat.le_trans hs.le hv) hvk, List.exists_mem_cons_iff, or_iff_right]
        intro hmem
        exact absurd ((hs.mem_binds_iff v).mp (Stage.unset_subset_binds hmem)).2 (Nat.not_lt_of_le hv)
      obtain ⟨H, hcode, hfits, hout⟩ := Stage.sets_code hs hj hmentions hfirst
        (Holding.start_fits hbound hn hU)
      have hlt : ∀ reg, H.held reg → reg < (s.code c.vars.length).2.2 := by
        intro reg hreg
        have hroom := hfits.room
        rcases hfits.inUse reg hreg with huse | hunset
        · unfold Frame.InUse at huse
          omega
        · exact Nat.lt_of_lt_of_le (hU reg hunset) hroom
      cases rest with
      | nil => exact .last hcode hlt hout
      | cons s' rest =>
          have hregisters : (blocksOf c.vars.length before (s :: s' :: rest)).2 =
              max (s.code c.vars.length).2.2
                (blocksOf c.vars.length (before ++ [s]) (s' :: rest)).2 := by
            rw [blocksOf]
            exact List.cons_ne_nil _ _
          rw [blocksOf_cons, hregisters]
          have hblocks := (ih hrest (hbound.snoc hs) hothers).mono
            (Nat.le_max_right (s.code c.vars.length).2.2 _)
          refine .cons hcode (fun reg hreg => Nat.lt_of_lt_of_le (hlt reg hreg) (Nat.le_max_left _ _))
            (fun v hv => ?_) blocksOf_ne_nil hblocks
          exact hfits.vars v ((hbound.snoc hs v).mpr (mem_liveBetween.mp hv).2.1)
            (Needed.before hs (.inr hv))

end Bodies

namespace Body

variable {b : Body} {s : Schema} {bodied : Predicate → Prop}

/-- The variables of a body that no code sets. -/
def Unset (b : Body) (v : Nat) : Prop := ∃ s ∈ b.stages, v ∈ s.unset

/-- The code of a typed body sets each register once in a block. -/
theorem Typed.blocksOnce (h : b.Typed s bodied) :
    BlocksOnce b.Unset b.compile.registers [] b.compile.blocks := by
  have hblocks := blocksOnce_blocksOf (U := b.Unset) h .nil (Nat.le_refl _)
    (fun v ⟨s, hs, hv⟩ => (h.bounds hs (Stage.unset_subset_binds hv)).2) fun v _ _ => Iff.rfl
  rwa [liveBetween_nil] at hblocks

/-- The registers that a code has are enough: its instructions name no other ones. -/
theorem Typed.registers_suffice (h : b.Typed s bodied) :
    ∀ block ∈ b.compile.blocks, ∀ i ∈ block, ∀ reg ∈ i.registers, reg < b.compile.registers :=
  h.blocksOnce.registers_lt

end Body

end Factbase
