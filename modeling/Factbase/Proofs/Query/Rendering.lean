import Factbase.Proofs.Schema.Writing
import Factbase.Query.Rendering

/-!
# What the rendering of a result depends on

Two renderings that read facts differently write a result alike, if they
read alike whatever is referred to on the way (`Rendering.Alike`). What
that is may be known by the facts that are referred to, or by the
predicates at which they are.
-/

namespace Factbase.Rendering

variable {good : Predicate → FactId → Prop} {x x' : Rendering}

/-- All references in a fact, at the types that a schema has for it, are good ones. -/
def Within (good : Predicate → FactId → Prop) (s : Schema) (f : Fact) : Prop :=
  ∀ d, s.get? f.predicate = some d → (∀ e ∈ d.key.positions f.key, good e.1 e.2) ∧
    ∀ e ∈ d.value.positions f.value, good e.1 e.2

/-- Two renderings that read alike what good references refer to, where there are again only
good ones. -/
structure Alike (good : Predicate → FactId → Prop) (x x' : Rendering) : Prop where
  schema : x'.schema = x.schema
  policy : x'.policy = x.policy
  noExpand : x'.noExpand = x.noExpand
  read : ∀ p id, good p id → x'.read id p = x.read id p
  found : ∀ p id f, good p id → x.read id p = .ok (some f) → Within good x.schema f

namespace Alike

variable {write write' : WriteReference Followed}

/-- A fact with good references is written alike. -/
theorem factJson (h : Alike good x x') (hwrite : ∀ p id, good p id → write' id p = write id p)
    {f : Fact} (hf : Within good x.schema f) (path : List String) :
    x'.factJson write' path f = x.factJson write path f := by
  unfold Rendering.factJson Fact.value?
  rw [h.schema]
  cases hd : x.schema.get? f.predicate with
  | none => rfl
  | some d =>
      obtain ⟨hkey, hvalue⟩ := hf d hd
      have hkey : d.key.encodeJson write' path f.key = d.key.encodeJson write path f.key :=
        Ty.encodeJson_congr f.key d.key path fun e he => hwrite e.1 e.2 (hkey e he)
      have hvalue (path : List String) :
          d.value.encodeJson write' path f.value = d.value.encodeJson write path f.value :=
        Ty.encodeJson_congr f.value d.value path fun e he => hwrite e.1 e.2 (hvalue e he)
      dsimp only
      rw [hkey]
      split
      · rfl
      · rename_i v heq
        split at heq
        · cases heq
        · cases heq
          rw [hvalue]

/-- A good reference is written alike. -/
theorem writeReference (h : Alike good x x') (depth : Nat) (ancestors : List FactId) {p : Predicate}
    {id : FactId} (hgood : good p id) :
    x'.writeReference depth ancestors id p = x.writeReference depth ancestors id p := by
  -- A fact that may be written in place has good references again, one level deeper.
  induction depth generalizing ancestors p id with
  | zero => rfl
  | succ depth ih =>
      funext path
      rw [Rendering.writeReference, Rendering.writeReference, h.noExpand, h.policy, h.read p id hgood]
      refine ite_congr rfl (fun _ => rfl) fun _ => bind_congr fun seen => ?_
      refine ite_congr rfl (fun _ => rfl) fun _ => bind_congr fun _ => ?_
      cases hx : x.read id p with
      | error e =>
          have hfails (k : Option Fact → StateT Followed (Except Error) Json) :
              (liftM (Except.error e : Except Error (Option Fact)) >>= k) = throw e := rfl
          rw [hfails, hfails]
      | ok found =>
          have hreads (k : Option Fact → StateT Followed (Except Error) Json) :
              (liftM (Except.ok found : Except Error (Option Fact)) >>= k) = k found := rfl
          rw [hreads, hreads]
          cases found with
          | none => dsimp only
          | some f =>
              exact h.factJson (fun _ _ hgood => ih (id :: ancestors) hgood)
                (h.found p id f hgood hx) path

theorem fact (h : Alike good x x') {f : Fact} (hf : Within good x.schema f) : x'.fact f = x.fact f := by
  rw [Rendering.fact, Rendering.fact,
    h.factJson (fun _ _ hgood => h.writeReference (maxExpansion - 1) [f.id] hgood) hf]

theorem value (h : Alike good x x') {ty : Ty} {v : Value} (hv : ∀ e ∈ ty.positions v, good e.1 e.2) :
    x'.value ty v = x.value ty v := by
  rw [Rendering.value, Rendering.value, Ty.encodeJson_congr v ty [] fun e he =>
    h.writeReference maxExpansion [] (hv e he)]

end Alike

end Factbase.Rendering
