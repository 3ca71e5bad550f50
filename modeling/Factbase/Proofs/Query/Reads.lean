import Factbase.Proofs.Query.Expressions
import Factbase.Proofs.Query.KeySearch
import Factbase.Proofs.Store.Ownership

/-!
# What code reads

Code refers to a predicate where it scans or seeks its facts and where it
follows a reference to one. In the code of a typed plan these are
predicates that the schema defines, and facts are sought by their key only
of those that are stored (`Body.refers_compile`). They are all among the
predicates that the code says it touches, before it is run.
-/

namespace Factbase

/-- An instruction that reads the facts of no predicate but those that a schema defines, and
seeks no derived facts. -/
def Instr.Refers (s : Schema) : Instr → Prop
  | .scan p _ | .deref _ p _ => s.Defines p
  | .seek p _ _ => ∃ d, s.get? p = some d ∧ d.isDerived = false
  | _ => True

variable {s : Schema}

/-! ## Matches and expressions -/

namespace Match

mutual
/-- A typed match touches what is defined. -/
theorem Typed.defines {c : PlanContext} :
    (m : Match) → {ty : Ty} → {k k' : Nat} → m.Typed c ty k k' → ∀ p ∈ m.touches, c.schema.Defines p
  | .wild, _, _, _, _ | .bind _, _, _, _, _ | .same _, _, _, _, _ | .lit _, _, _, _, _
  | .stringStart _, _, _, _, _ => by simp [touches]
  | .array items, _, _, _, ⟨_, _, hitems⟩ => by
      rw [touches]
      exact TypedAll.defines items hitems
  | .record _ fields, _, _, _, ⟨_, _, _, hfields⟩ => by
      rw [touches]
      exact TypedFields.defines fields hfields
  | .alt _ payload, _, _, _, ⟨_, _, _, _, hpayload⟩ => by
      rw [touches]
      exact Typed.defines payload hpayload
  | .deref _ key, _, _, _, ⟨_, d, hd, _, hkey⟩ => by
      rw [touches]
      exact List.forall_mem_cons.mpr ⟨⟨d, hd⟩, Typed.defines key hkey⟩

theorem TypedAll.defines {c : PlanContext} :
    (ms : List Match) → {elem : Ty} → {k k' : Nat} → TypedAll c ms elem k k' →
      ∀ p ∈ touchesAll ms, c.schema.Defines p
  | [], _, _, _, _ => by simp [touchesAll]
  | m :: ms, _, _, _, ⟨_, hm, hms⟩ => by
      rw [touchesAll]
      exact List.forall_mem_append.mpr ⟨Typed.defines m hm, TypedAll.defines ms hms⟩

theorem TypedFields.defines {c : PlanContext} :
    (ms : List (Nat × Match)) → {all : List Field} → {k k' : Nat} → TypedFields c ms all k k' →
      ∀ p ∈ touchesFields ms, c.schema.Defines p
  | [], _, _, _, _ => by simp [touchesFields]
  | (_, m) :: ms, _, _, _, ⟨_, _, _, hm, hms⟩ => by
      rw [touchesFields]
      exact List.forall_mem_append.mpr ⟨Typed.defines m hm, TypedFields.defines ms hms⟩
end

mutual
/-- The code of a match follows references to what the match touches. -/
theorem refers_code : (m : Match) → (∀ p ∈ m.touches, s.Defines p) → (src next : Nat) →
    ∀ i ∈ (m.code src next).1, i.Refers s
  | .wild, _, _, _ | .same _, _, _, _ | .lit _, _, _, _ | .stringStart _, _, _, _ => by
      simp [code, Instr.Refers]
  | .bind v, _, src, _ => by
      rw [code]
      split <;> simp [Instr.Refers]
  | .array items, h, src, next => by
      rw [touches] at h
      rw [code_array]
      exact List.forall_mem_cons.mpr ⟨trivial, refers_codeItems items h src 0 next⟩
  | .record _ fields, h, src, next => by
      rw [touches] at h
      rw [code]
      exact refers_codeFields fields h src next
  | .alt _ payload, h, src, next => by
      rw [touches] at h
      rw [code_alt]
      exact List.forall_mem_cons.mpr ⟨trivial, refers_code payload h next (next + 1)⟩
  | .deref _ key, h, src, next => by
      rw [touches] at h
      obtain ⟨hp, hkey⟩ := List.forall_mem_cons.mp h
      have hcode := refers_code key hkey (next + 1) (next + 2)
      rw [codeKey_deref, codeKey]
      refine List.forall_mem_cons.mpr ⟨hp, ?_⟩
      split
      · exact fun _ hi => nomatch hi
      · exact List.forall_mem_cons.mpr ⟨trivial, hcode⟩

theorem refers_codeItems : (ms : List Match) → (∀ p ∈ touchesAll ms, s.Defines p) →
    (src i next : Nat) → ∀ j ∈ (codeItems src i ms next).1, j.Refers s
  | [], _, _, _, _ => by simp [codeItems]
  | m :: ms, h, src, i, next => by
      rw [touchesAll] at h
      obtain ⟨hm, hms⟩ := List.forall_mem_append.mp h
      cases hwild : m.isWild with
      | true =>
          rw [isWild_iff.mp hwild, codeItems_wild]
          exact refers_codeItems ms hms src (i + 1) next
      | false =>
          rw [codeItems_cons src next i hwild]
          exact List.forall_mem_cons.mpr ⟨trivial, List.forall_mem_append.mpr
            ⟨refers_code m hm next (next + 1), refers_codeItems ms hms src (i + 1) _⟩⟩

theorem refers_codeFields : (ms : List (Nat × Match)) → (∀ p ∈ touchesFields ms, s.Defines p) →
    (src next : Nat) → ∀ j ∈ (codeFields src ms next).1, j.Refers s
  | [], _, _, _ => by simp [codeFields]
  | (i, m) :: ms, h, src, next => by
      rw [touchesFields] at h
      obtain ⟨hm, hms⟩ := List.forall_mem_append.mp h
      cases hwild : m.isWild with
      | true =>
          rw [isWild_iff.mp hwild, codeFields_wild]
          exact refers_codeFields ms hms src next
      | false =>
          rw [codeFields_cons src next i hwild]
          exact List.forall_mem_cons.mpr ⟨trivial, List.forall_mem_append.mpr
            ⟨refers_code m hm next (next + 1), refers_codeFields ms hms src _⟩⟩
end

theorem refers_codeKey {key : Match} (h : ∀ p ∈ key.touches, s.Defines p) (fact next : Nat) :
    ∀ i ∈ (key.codeKey fact next).1, i.Refers s := by
  unfold codeKey
  split
  · exact fun _ hi => nomatch hi
  · exact List.forall_mem_cons.mpr ⟨trivial, refers_code key h next (next + 1)⟩

theorem refers_codeValue {value : Match} (h : ∀ p ∈ value.touches, s.Defines p) (fact next : Nat) :
    ∀ i ∈ (value.codeValue fact next).1, i.Refers s := by
  unfold codeValue
  split
  · exact fun _ hi => nomatch hi
  · exact List.forall_mem_cons.mpr ⟨trivial, refers_code value h next (next + 1)⟩

end Match

namespace Expr

mutual
/-- The code of an expression reads no facts. -/
theorem refers_code : (e : Expr) → (next : Nat) → ∀ i ∈ (e.code next).1, i.Refers s
  | .lit _, _ => by simp [code, Instr.Refers]
  | .var _, _ => by simp [code]
  | .array items, next => by
      rw [code]
      exact List.forall_mem_append.mpr ⟨refers_codeAll items next, by simp [Instr.Refers]⟩
  | .record fields, next => by
      rw [code]
      exact List.forall_mem_append.mpr ⟨refers_codeAll fields next, by simp [Instr.Refers]⟩
  | .alt _ payload, next => by
      rw [code]
      exact List.forall_mem_append.mpr ⟨refers_code payload next, by simp [Instr.Refers]⟩

theorem refers_codeAll : (es : List Expr) → (next : Nat) → ∀ i ∈ (codeAll es next).1, i.Refers s
  | [], _ => by simp [codeAll]
  | e :: es, next => by
      rw [codeAll]
      exact List.forall_mem_append.mpr ⟨refers_code e next, refers_codeAll es _⟩
end

end Expr

/-! ## Stages and bodies -/

variable {bodied : Predicate → Prop} {vars : List Variable} {o : Outcome} {k k' : Nat}

theorem Supply.refers_code {supply : Supply} (h : supply.Typed ⟨s, bodied, vars⟩ o k k') (next : Nat) :
    ∀ i ∈ (supply.code next).1, i.Refers s := by
  cases supply with
  | facts p derived key value =>
      obtain ⟨-, d, j, hd, -, hderived, hkey, hvalue⟩ := h
      have hkey := hkey.defines
      have hvalue := hvalue.defines
      cases derived with
      | true => exact List.forall_mem_cons.mpr ⟨trivial, Match.refers_codeKey hkey _ _⟩
      | false =>
          have hseek (operand : Operand) (dst : Nat) : (Instr.seek p operand dst).Refers s :=
            ⟨d, hd, hderived.symm⟩
          rw [Supply.code]
          split
          · split
            · exact List.forall_mem_cons.mpr ⟨hseek _ _, Match.refers_codeValue hvalue _ _⟩
            · exact List.forall_mem_append.mpr ⟨Expr.refers_code _ _,
                List.forall_mem_cons.mpr ⟨hseek _ _, Match.refers_codeValue hvalue _ _⟩⟩
          · exact List.forall_mem_cons.mpr ⟨⟨d, hd⟩, List.forall_mem_append.mpr
              ⟨Match.refers_codeKey hkey _ _, Match.refers_codeValue hvalue _ _⟩⟩
  | factId id => exact List.forall_mem_singleton.mpr trivial
  | prim f arg =>
      exact List.forall_mem_append.mpr ⟨Expr.refers_code _ _, List.forall_mem_singleton.mpr trivial⟩
  | expr e => exact Expr.refers_code _ _

/-- The pattern of a stage touches what is defined. -/
theorem Outcome.Matched.defines {c : PlanContext} {m : Match} (h : o.Matched c m k k') :
    ∀ p ∈ m.touches, c.schema.Defines p := by
  cases o with
  | fact p => exact Match.Typed.defines m h
  | anyFact =>
      obtain ⟨rfl, -⟩ := h
      exact fun _ hp => nomatch hp
  | value ty => exact Match.Typed.defines m h

theorem Stage.refers_code {stage : Stage} (h : stage.Typed ⟨s, bodied, vars⟩ o k k') (next : Nat) :
    ∀ i ∈ (stage.code next).1, i.Refers s := by
  obtain ⟨j, hsupply, hbind⟩ := h
  exact List.forall_mem_append.mpr ⟨Supply.refers_code hsupply next,
    Match.refers_code stage.bind hbind.defines _ _⟩

/-- A typed stage touches what is defined. -/
theorem Stage.Typed.defines {stage : Stage} (h : stage.Typed ⟨s, bodied, vars⟩ o k k') :
    ∀ p ∈ stage.touches, s.Defines p := by
  obtain ⟨j, hsupply, hbind⟩ := h
  have hbind := hbind.defines
  unfold Stage.touches
  split
  · rename_i p key value heq
    rw [heq] at hsupply
    obtain ⟨-, d, i, hd, -, -, hkey, -⟩ := hsupply
    exact List.forall_mem_append.mpr ⟨hkey.defines, hbind⟩
  · rename_i p key value heq
    rw [heq] at hsupply
    obtain ⟨-, d, i, hd, -, -, hkey, hvalue⟩ := hsupply
    exact List.forall_mem_cons.mpr ⟨⟨d, hd⟩, List.forall_mem_append.mpr
      ⟨List.forall_mem_append.mpr ⟨hkey.defines, hvalue.defines⟩, hbind⟩⟩
  all_goals exact hbind

theorem refers_blocksOf (n : Nat) (before : List Stage) {first : Outcome} {ss : List Stage}
    (h : Stage.TypedAll ⟨s, bodied, vars⟩ first ss o k k') :
    ∀ block ∈ (blocksOf n before ss).1, ∀ i ∈ block, i.Refers s := by
  induction ss generalizing before first k with
  | nil => exact fun _ h => nomatch h
  | cons stage ss ih =>
      obtain ⟨o', j, hstage, hrest⟩ := h
      have hfirst (last : Instr) (hlast : last.Refers s) :
          ∀ i ∈ (stage.code n).1 ++ [last], i.Refers s :=
        List.forall_mem_append.mpr ⟨Stage.refers_code hstage n, List.forall_mem_singleton.mpr hlast⟩
      cases ss with
      | nil => exact List.forall_mem_singleton.mpr (hfirst (.emit _) trivial)
      | cons stage' ss =>
          exact List.forall_mem_cons.mpr ⟨hfirst (.barrier _) trivial, ih (before ++ [stage]) hrest⟩

namespace Body.Typed

variable {b : Body}

/-- The code of a typed body reads what the schema defines. -/
theorem refers_compile (h : b.Typed s bodied) : ∀ block ∈ b.compile.blocks, ∀ i ∈ block, i.Refers s :=
  refers_blocksOf b.vars.length [] h

/-- What the code says it touches is defined. -/
theorem touches_compile (h : b.Typed s bodied) : ∀ p ∈ b.compile.touches.toList, s.Defines p := by
  intro p hp
  obtain ⟨stage, hmem, hp⟩ := List.mem_flatMap.mp (SortedSet.mem_ofList.mp hp)
  obtain ⟨before, after, hstages⟩ := List.append_of_mem hmem
  unfold Body.Typed at h
  rw [hstages] at h
  obtain ⟨o, i, j, -, hstage⟩ := h.stage .nil
  exact hstage.defines p hp

end Body.Typed

/-! ## Plans -/

theorem Bodies.Built.derived {bodies : Bodies} (h : Bodies.Built s bodies) {p : Predicate} {b : Body}
    (hb : SortedMap.get? bodies p = some b) : ∃ d, s.get? p = some d ∧ d.isDerived = true := by
  induction h with
  | empty => cases hb
  | @insert bodies q d b' _ hd hderived _ _ _ _ ih =>
      by_cases hq : p = q
      · exact hq ▸ ⟨d, hd, hderived⟩
      · rw [SortedMap.get?_insert_of_ne hq] at hb
        exact ih hb

/-- A program that reads what a schema defines, and computes only predicates that are derived. -/
structure Program.Refers (s : Schema) (p : Program) : Prop where
  main : ∀ block ∈ p.main.blocks, ∀ i ∈ block, i.Refers s
  derived : ∀ q code, p.derived.get? q = some code →
    (∃ d, s.get? q = some d ∧ d.isDerived = true) ∧ ∀ block ∈ code.blocks, ∀ i ∈ block, i.Refers s

namespace Plan.Typed

variable {plan : Plan}

theorem derived_code (h : plan.Typed s) {p : Predicate} {code : Code}
    (hcode : plan.compile.derived.get? p = some code) :
    ∃ b bodied, plan.derived.get? p = some b ∧ b.Typed s bodied ∧ b.compile = code := by
  rw [Plan.compile, SortedMap.get?_map] at hcode
  obtain ⟨b, hb, rfl⟩ := Option.map_eq_some_iff.mp hcode
  obtain ⟨bodied, htyped⟩ := h.derived.typed hb
  exact ⟨b, bodied, hb, htyped, rfl⟩

/-- The program of a typed plan reads what the schema defines. -/
theorem refers_compile (h : plan.Typed s) : plan.compile.Refers s where
  main := h.main.refers_compile
  derived p code hcode := by
    obtain ⟨b, bodied, hb, htyped, rfl⟩ := h.derived_code hcode
    exact ⟨h.derived.derived hb, htyped.refers_compile⟩

/-- Whatever the program says that it may read is defined. -/
theorem touches_compile (h : plan.Typed s) : ∀ p ∈ (SortedSet.ofList (plan.compile.main.touches.toList ++
    plan.compile.derived.values.flatMap (·.touches.toList))).toList, s.Defines p := by
  intro p hp
  rcases List.mem_append.mp (SortedSet.mem_ofList.mp hp) with hp | hp
  · exact h.main.touches_compile p hp
  · obtain ⟨code, hcode, hp⟩ := List.mem_flatMap.mp hp
    obtain ⟨q, hq⟩ := SortedMap.mem_values_iff.mp hcode
    obtain ⟨b, bodied, -, htyped, rfl⟩ := h.derived_code hq
    exact htyped.touches_compile p hp

end Plan.Typed

end Factbase
