import Factbase.Proofs.Query.Grammar
import Factbase.Proofs.Query.Tokens

/-!
# Printing queries

When reading the text of a query gives the query back
(`Query.reads_back_iff`). What is written is what was read
without the parentheses, with a version and a fact id in one form each. So
a query does not come back where parentheses mattered: around an expression
that starts with a variable, which reads as a predicate without them, and
around a pattern with a mark, after which no second mark is read. Nor does
one with a string that has a character of which the lexer does not know the
escape, or one that is longer as it is written than a query may be.
-/

namespace Factbase

open Parse Cursor

/-! ## Names with a version -/

namespace Source

theorem eq_of_primName? {name function : String} (h : primName? name = some function) :
    name = "prim." ++ function := by
  unfold primName? at h
  split at h
  · rename_i rest hname
    cases h
    rw [← String.toList_inj, hname]
    simp
  · cases h

/-- No primitive is named unless `prim` comes before the first point. -/
theorem primName?_eq_none_iff {name : String} :
    primName? name = none ↔ (splitFirst '.' name.toList).map Prod.fst ≠ some "prim".toList := by
  unfold primName?
  split
  · rename_i rest hname
    rw [hname]
    simp [splitFirst]
  · rename_i hname
    refine iff_of_true rfl fun h => ?_
    obtain ⟨⟨front, rest⟩, hsplit, hfront⟩ := Option.map_eq_some_iff.mp h
    obtain rfl : front = "prim".toList := hfront
    exact hname rest (eq_of_splitFirst hsplit)

theorem dot_not_mem {name : String} (h : isVariable name = true) : '.' ∉ name.toList := by
  unfold isVariable at h
  split at h
  · cases h
  · rename_i c rest hname
    rw [hname]
    simpa using (Bool.and_eq_true_iff.mp h).2

/-- A variable could name a predicate. -/
theorem naming_of_isVariable {name : String} (h : isVariable name = true) :
    primName? name = none ∧ isPredicateName name = true := by
  constructor
  · cases hprim : primName? name with
    | none => rfl
    | some function =>
        refine absurd ?_ (dot_not_mem h)
        rw [eq_of_primName? hprim]
        simp
  · by_contra hname
    rw [Bool.not_eq_true] at hname
    rw [isVariable_eq_false hname] at h
    cases h

theorem isPredicateName_of_dot {name : String} (h : '.' ∈ name.toList) :
    isPredicateName name = true := by
  have htrue : name ≠ "true" := by
    rintro rfl
    exact absurd h (by decide)
  have hfalse : name ≠ "false" := by
    rintro rfl
    exact absurd h (by decide)
  simp [isPredicateName, htrue, hfalse, h]

variable {name base : String} {version : Option UInt32}

theorem toList_versioned (base : String) (v : UInt32) :
    (versioned base (some v)).toList = base.toList ++ '.' :: Nat.toDigits 10 v.toNat := by
  simp [versioned]

theorem splitVersion_versioned (h : splitVersion name = (base, version)) :
    splitVersion (versioned base version) = (base, version) := by
  have hsplit := eq_of_splitVersion h
  cases version with
  | none =>
      obtain rfl : base = name := hsplit
      exact h
  | some v => exact splitVersion_version hsplit.1 v

/-- The name as it is written is one if the name that was read is. -/
theorem legalName_versioned (h : splitVersion name = (base, version)) (hlegal : LegalName name) :
    LegalName (versioned base version) := by
  have hsplit := eq_of_splitVersion h
  cases version with
  | none =>
      obtain rfl : base = name := hsplit
      exact hlegal
  | some v =>
      obtain ⟨hbase, digits, hname, -⟩ := hsplit
      have hdigits : ∀ c ∈ Nat.toDigits 10 v.toNat, isNameChar c = true :=
        fun c => isNameChar_of_mem_toDigits
      have hhead : (Nat.toDigits 10 v.toNat).head?.any isNameChar = true := by
        cases hlist : Nat.toDigits 10 v.toNat with
        | nil => exact absurd hlist Nat.toDigits_ne_nil
        | cons c cs => exact hdigits c (hlist ▸ List.mem_cons_self ..)
      refine ⟨?_, ?_, ?_⟩
      · rw [toList_versioned]
        exact nameChars_replace (hname ▸ hlegal.chars) (nameChars_of_forall hdigits) hhead
      · have hstart := hlegal.start
        rw [hname] at hstart
        rw [toList_versioned]
        cases hlist : base.toList with
        | nil => exact absurd (String.toList_eq_nil_iff.mp hlist) hbase
        | cons c cs =>
            rw [hlist] at hstart
            exact hstart
      · intro hwild
        have hdot : '.' ∈ (versioned base (some v)).toList := by
          rw [toList_versioned]
          simp
        rw [hwild] at hdot
        exact absurd hdot (by decide)

/-- The name as it is written stands for a predicate if the name that was read does. -/
theorem naming_versioned (h : splitVersion name = (base, version))
    (hname : primName? name = none ∧ isPredicateName name = true) :
    primName? (versioned base version) = none ∧
      isPredicateName (versioned base version) = true := by
  have hsplit := eq_of_splitVersion h
  cases version with
  | none =>
      obtain rfl : base = name := hsplit
      exact hname
  | some v =>
      obtain ⟨hbase, digits, hlist, -⟩ := hsplit
      refine ⟨?_, isPredicateName_of_dot (by rw [toList_versioned]; simp)⟩
      have hprim := primName?_eq_none_iff.mp hname.1
      rw [hlist] at hprim
      rw [primName?_eq_none_iff, toList_versioned, splitFirst_fst]
      exact hprim

end Source

/-! ## Parentheses -/

/-- Whether a token is written where it was read: parentheses are not. -/
def Token.written : Token → Bool
  | .leftParen | .rightParen => false
  | _ => true

variable {α : Type} {R : α → List Token → Prop} {f : α → List Token} {xs : List α}
  {ts : List Token}

theorem Parse.Listed.intercalate_eq (h : Listed R xs ts)
    (hitem : ∀ x us, R x us → f x = us.filter Token.written) :
    [.comma].intercalate (xs.map f) = ts.filter Token.written := by
  induction h with
  | one hx => exact List.intercalate_singleton.trans (hitem _ _ hx)
  | more hx hxs ih =>
      rw [List.map_cons, hxs.intercalate_cons, ih, hitem _ _ hx, List.filter_append]
      rfl

/-- Tokens that can stand in a text, none of them a parenthesis. -/
def Writable (ts : List Token) : Prop := ∀ t ∈ ts, t.Legal ∧ t.written = true

namespace Pattern

variable {inner : Pattern → List Token → Prop} {p : Pattern}

theorem Atom.tokens_eq (h : Atom inner p ts)
    (hinner : ∀ p us, inner p us → p.tokens = us.filter Token.written) :
    p.tokens = ts.filter Token.written := by
  cases h with
  | paren hp =>
      rw [hinner _ _ hp, List.filter_cons_of_neg Bool.false_ne_true, List.filter_append]
      exact (List.append_nil _).symm
  | array hps =>
      rw [tokens, tokensAll_eq, hps.intercalate_eq hinner, List.filter_cons_of_pos rfl,
        List.filter_append]
      rfl
  | fields hfs =>
      have hbinding (f : String × Pattern) (ts : List Token) (h : Binding inner f ts) :
          .name f.1 :: .equals :: f.2.tokens = ts.filter Token.written := by
        obtain ⟨us, rfl, hp⟩ := h
        rw [hinner _ _ hp]
        rfl
      rw [tokens, tokensFields_eq, hfs.intercalate_eq hbinding, List.filter_cons_of_pos rfl,
        List.filter_append]
      rfl
  | tuple hps =>
      rw [tokens, tokensAll_eq, hps.intercalate_eq hinner, List.filter_cons_of_pos rfl,
        List.filter_append]
      rfl
  | _ => rfl

/-- A pattern is written with the tokens it was read from, but for the parentheses. -/
theorem Spelled.tokens_eq {depth : Nat} (h : Spelled depth p ts) :
    p.tokens = ts.filter Token.written := by
  induction depth generalizing p ts with
  | zero => exact h.elim
  | succ depth ih =>
      cases h with
      | bare h => exact h.tokens_eq fun _ _ => ih
      | @dots p ts h =>
          -- a string and its mark are written as the string and the mark
          have hatom := h.tokens_eq fun _ _ => ih
          have hmarked : p.marked.tokens = p.tokens ++ [Token.dots] := by cases p <;> rfl
          rw [hmarked, hatom, List.filter_append]
          rfl

theorem Spelled.writable {depth : Nat} (h : Spelled depth p ts) (hlegal : ∀ t ∈ ts, t.Legal) :
    Writable p.tokens := by
  rw [h.tokens_eq]
  intro t ht
  obtain ⟨ht, hwritten⟩ := List.mem_filter.mp ht
  exact ⟨hlegal t ht, hwritten⟩

/-! ### Marks -/

/-- Whether a mark after a pattern is read as one that keeps it from being expanded. After a string
it makes the start of a string, and after another mark it is not read. -/
def takesMark : Pattern → Bool
  | .string _ | .stringStart _ | .noExpand _ => false
  | _ => true

mutual
/-- Whether no pattern in it has two marks. -/
def marksOnce : Pattern → Bool
  | .array items | .tuple items => marksOnceAll items
  | .fields fs => marksOnceFields fs
  | .noExpand inner => inner.takesMark && inner.marksOnce
  | .wild | .var _ | .nat _ | .string _ | .stringStart _ | .bool _ => true

def marksOnceAll : List Pattern → Bool
  | [] => true
  | p :: ps => p.marksOnce && marksOnceAll ps

def marksOnceFields : List (String × Pattern) → Bool
  | [] => true
  | (_, p) :: fs => p.marksOnce && marksOnceFields fs
end

theorem marksOnceAll_iff {ps : List Pattern} :
    marksOnceAll ps = true ↔ ∀ p ∈ ps, p.marksOnce = true := by
  induction ps with
  | nil => simp [marksOnceAll]
  | cons p ps ih => rw [marksOnceAll, Bool.and_eq_true, ih, List.forall_mem_cons]

theorem marksOnceFields_iff {fs : List (String × Pattern)} :
    marksOnceFields fs = true ↔ ∀ f ∈ fs, f.2.marksOnce = true := by
  induction fs with
  | nil => simp [marksOnceFields]
  | cons f fs ih => rw [marksOnceFields, Bool.and_eq_true, ih, List.forall_mem_cons]

theorem marked_of_takesMark (h : p.takesMark = true) : p.marked = .noExpand p := by
  cases p <;> first | rfl | cases h

theorem Atom.marksOnce (h : Atom inner p ts) (hparen : .leftParen ∉ ts)
    (hinner : ∀ p us, inner p us → .leftParen ∉ us → p.marksOnce = true) :
    p.marksOnce = true ∧ (p.takesMark = true ∨ ∃ s, p = .string s) := by
  have hinside {t : Token} {us vs : List Token} (hus : us ⊆ vs) (hvs : vs ++ [t] ⊆ ts) :
      .leftParen ∉ us := fun h => hparen (hvs (List.mem_append_left _ (hus h)))
  cases h with
  | paren => exact absurd (List.mem_cons_self ..) hparen
  | array hps =>
      refine ⟨marksOnceAll_iff.mpr fun q hq => ?_, .inl rfl⟩
      obtain ⟨us, hus, hq⟩ := hps.exists_of_mem hq
      exact hinner q us hq (hinside hus (List.subset_cons_self ..))
  | fields hfs =>
      refine ⟨marksOnceFields_iff.mpr fun f hf => ?_, .inl rfl⟩
      obtain ⟨_, hus, us, rfl, hf⟩ := hfs.exists_of_mem hf
      refine hinner f.2 us hf (hinside (fun t ht => hus ?_) (List.subset_cons_self ..))
      exact List.mem_cons_of_mem _ (List.mem_cons_of_mem _ ht)
  | tuple hps =>
      refine ⟨marksOnceAll_iff.mpr fun q hq => ?_, .inl rfl⟩
      obtain ⟨us, hus, hq⟩ := hps.exists_of_mem hq
      exact hinner q us hq (hinside hus (List.subset_cons_self ..))
  | string s => exact ⟨rfl, .inr ⟨s, rfl⟩⟩
  | _ => exact ⟨rfl, .inl rfl⟩

/-- Two marks are read with parentheses only. -/
theorem Spelled.marksOnce {depth : Nat} (h : Spelled depth p ts) (hparen : .leftParen ∉ ts) :
    p.marksOnce = true := by
  induction depth generalizing p ts with
  | zero => exact h.elim
  | succ depth ih =>
      cases h with
      | bare h => exact (h.marksOnce hparen fun _ _ => ih).1
      | @dots p ts h =>
          have hparen : .leftParen ∉ ts := fun h => hparen (List.mem_append_left _ h)
          obtain ⟨hmarks, hmark | ⟨s, rfl⟩⟩ := h.marksOnce hparen fun _ _ => ih
          · rw [marked_of_takesMark hmark, Pattern.marksOnce, hmark, hmarks]
            rfl
          · rfl

theorem Marked.atom {atom : Pattern → List Token → Prop} (h : Marked atom p ts)
    (hmark : p.takesMark = true) : atom p ts := by
  cases h with
  | bare h => exact h
  | @dots p ts h => cases p <;> cases hmark

theorem Atom.written {depth : Nat} (h : Atom (Spelled depth) p ts) (hmarks : p.marksOnce = true)
    (hinner : ∀ p us, Spelled depth p us → p.marksOnce = true → Spelled depth p p.tokens) :
    Spelled (depth + 1) p p.tokens := by
  cases h with
  | paren hp => exact (hinner _ _ hp hmarks).succ
  | array hps =>
      rw [tokens, tokensAll_eq]
      exact .bare (.array (hps.intercalate fun q hq us h =>
        hinner q us h (marksOnceAll_iff.mp hmarks q hq)))
  | fields hfs =>
      rw [tokens, tokensFields_eq]
      refine .bare (.fields (hfs.intercalate fun f hf _ h => ?_))
      obtain ⟨us, -, h⟩ := h
      exact ⟨_, rfl, hinner f.2 us h (marksOnceFields_iff.mp hmarks f hf)⟩
  | tuple hps =>
      rw [tokens, tokensAll_eq]
      exact .bare (.tuple (hps.intercalate fun q hq us h =>
        hinner q us h (marksOnceAll_iff.mp hmarks q hq)))
  | wild => exact .bare .wild
  | nat n => exact .bare (.nat n)
  | string s => exact .bare (.string s)
  | bool b => exact .bare (.bool b)
  | var hvar => exact .bare (.var hvar)
  | noItems => exact .bare .noItems
  | noFields => exact .bare .noFields

/-- A pattern that was read is spelled by the tokens it is written with, unless there are two
marks somewhere. -/
theorem Spelled.written {depth : Nat} (h : Spelled depth p ts) (hmarks : p.marksOnce = true) :
    Spelled depth p p.tokens := by
  induction depth generalizing p ts with
  | zero => exact h.elim
  | succ depth ih =>
      have hwritten {p : Pattern} {ts : List Token} (h : Atom (Spelled depth) p ts)
          (hmarks : p.marksOnce = true) : Spelled (depth + 1) p p.tokens :=
        h.written hmarks fun _ _ => ih
      cases h with
      | bare h => exact hwritten h hmarks
      | @dots p ts h =>
          cases hmark : p.takesMark with
          | true =>
              rw [marked_of_takesMark hmark, Pattern.marksOnce, hmark] at hmarks
              have hdots := Marked.dots ((hwritten h hmarks).atom hmark)
              rw [marked_of_takesMark hmark] at hdots ⊢
              exact hdots
          | false =>
              cases p with
              | string s => exact .dots (Atom.string s)
              | stringStart s => cases hmarks
              | noExpand p => cases hmarks
              | _ => cases hmark

/-! ### Variables -/

/-- The variable that a pattern is, with a mark or without. -/
def varName? : Pattern → Option String
  | .var name | .noExpand (.var name) => some name
  | _ => none

theorem Spelled.isVariable {depth : Nat} {name : String} (h : Spelled depth p ts)
    (hp : p.varName? = some name) : isVariable name = true := by
  induction depth generalizing p ts with
  | zero => exact h.elim
  | succ depth ih =>
      have hatom {p : Pattern} {ts : List Token} (h : Atom (Spelled depth) p ts)
          (hp : p.varName? = some name) : Factbase.isVariable name = true := by
        cases h with
        | var hvar =>
            cases hp
            exact hvar
        | paren h => exact ih h hp
        | _ => cases hp
      cases h with
      | bare h => exact hatom h hp
      | @dots p ts h =>
          cases p with
          | var other => exact hatom h hp
          | _ => cases hp

theorem head_tokens_of_varName? {name : String} (h : p.varName? = some name) :
    p.tokens.head? = some (.name name) := by
  unfold varName? at h
  split at h <;> cases h <;> rfl

/-- What is no variable is not written as what starts with one. -/
theorem not_isVariable_of_head {name : String} (hp : p.varName? = none)
    (hmarks : p.marksOnce = true) (h : p.tokens.head? = some (.name name)) :
    Factbase.isVariable name = false := by
  have hbool {b : Bool}
      (h : some (Token.name (if b then "true" else "false")) = some (.name name)) :
      Factbase.isVariable name = false := by
    cases b <;> cases h <;> decide
  cases p with
  | var => cases hp
  | bool b => exact hbool h
  | noExpand p =>
      cases p with
      | var => cases hp
      | bool b => exact hbool h
      | string s => cases hmarks
      | stringStart s => cases hmarks
      | noExpand p => cases hmarks
      | _ => cases h
  | _ => cases h

/-- Without parentheses the first token is written first. -/
theorem Spelled.head_tokens {depth : Nat} (h : Spelled depth p ts) (hparen : .leftParen ∉ ts) :
    p.tokens.head? = ts.head? := by
  have htokens := h.tokens_eq
  obtain ⟨t, us, rfl, ht⟩ := h.startsWith
  have hwritten : t.written = true := by
    cases t <;> first | rfl | exact absurd (List.mem_cons_self ..) hparen | cases ht
  rw [htokens, List.filter_cons_of_pos hwritten]
  rfl

end Pattern

/-! ## Sources -/

namespace Source

variable {s : Source} {version : Option UInt32} {key value : Option Pattern}

/-- Whether a source means the same without parentheses. -/
def plain : Source → Bool
  | .predicate _ _ key value => key.all Pattern.marksOnce && value.all Pattern.marksOnce
  | .prim _ arg => arg.marksOnce
  | .factId _ => true
  | .expr p => p.marksOnce && p.varName?.isNone

theorem Clause.writable (h : Clause key value ts) (hlegal : ∀ t ∈ ts, t.Legal) :
    Writable (clauseTokens key value) := by
  cases h with
  | bare => exact fun t ht => absurd ht List.not_mem_nil
  | keyed h => exact h.writable hlegal
  | valued hkey hvalue =>
      rw [List.forall_mem_append, List.forall_mem_cons] at hlegal
      rw [Writable, clauseTokens, List.forall_mem_append, List.forall_mem_cons]
      exact ⟨hkey.writable hlegal.1, ⟨trivial, rfl⟩, hvalue.writable hlegal.2.2⟩

theorem Spelled.writable (h : Spelled s ts) (hlegal : ∀ t ∈ ts, t.Legal) : Writable s.tokens := by
  cases h with
  | factId id =>
      rw [Writable, tokens, List.forall_mem_cons, List.forall_mem_singleton]
      exact ⟨⟨trivial, rfl⟩, trivial, rfl⟩
  | prim hname h =>
      rw [List.forall_mem_cons] at hlegal
      rw [Writable, tokens, List.forall_mem_cons, ← eq_of_primName? hname]
      exact ⟨⟨hlegal.1, rfl⟩, h.writable hlegal.2⟩
  | predicate hname hversion h =>
      rw [List.forall_mem_cons] at hlegal
      rw [Writable, tokens, List.forall_mem_cons]
      exact ⟨⟨legalName_versioned hversion hlegal.1, rfl⟩, h.writable hlegal.2⟩
  | expr h hname => exact h.writable hlegal

theorem Spelled.plain (h : Spelled s ts) (hparen : .leftParen ∉ ts) : s.plain = true := by
  cases h with
  | factId id => rfl
  | prim hname h => exact h.marksOnce fun h => hparen (List.mem_cons_of_mem _ h)
  | @predicate _ _ _ _ _ ts hname hversion h =>
      have hparen : .leftParen ∉ ts := fun h => hparen (List.mem_cons_of_mem _ h)
      cases h with
      | bare => rfl
      | keyed h => simp [Source.plain, h.marksOnce hparen]
      | valued hkey hvalue =>
          have hkey := hkey.marksOnce fun h => hparen (List.mem_append_left _ h)
          have hvalue := hvalue.marksOnce fun h =>
            hparen (List.mem_append_right _ (List.mem_cons_of_mem _ h))
          simp [Source.plain, hkey, hvalue]
  | @expr p ts h hname =>
      have hvar : p.varName? = none := by
        cases hp : p.varName? with
        | none => rfl
        | some name =>
            have hhead := Pattern.head_tokens_of_varName? hp
            rw [h.head_tokens hparen] at hhead
            exact absurd (h.isVariable hp) (Bool.not_eq_true _ ▸ hname name hhead)
      simp [Source.plain, h.marksOnce hparen, hvar]

/-- A source that was read is spelled by the tokens it is written with, if it means the same
without parentheses. -/
theorem Spelled.written (h : Spelled s ts) (hplain : s.plain = true) : Spelled s s.tokens := by
  cases h with
  | factId id => exact .factId id
  | prim hname h =>
      rw [tokens, ← eq_of_primName? hname]
      exact .prim hname (h.written hplain)
  | predicate hname hversion h =>
      rw [Source.plain, Bool.and_eq_true] at hplain
      refine .predicate (naming_versioned hversion hname) (splitVersion_versioned hversion) ?_
      cases h with
      | bare => exact .bare
      | keyed h => exact .keyed (h.written hplain.1)
      | valued hkey hvalue => exact .valued (hkey.written hplain.1) (hvalue.written hplain.2)
  | expr h hname =>
      rw [Source.plain, Bool.and_eq_true, Option.isNone_iff_eq_none] at hplain
      exact .expr (h.written hplain.1) fun name hhead =>
        Pattern.not_isVariable_of_head hplain.2 hplain.1 hhead

/-- What stands alone is what was read or a fact id. -/
theorem standalone_of {P : Source → Prop} (hs : P s) (hid : ∀ id, P (.factId id)) :
    P s.standalone := by
  unfold standalone
  split
  · exact hid _
  · exact hid _
  · exact hs

theorem standalone_standalone (s : Source) : s.standalone.standalone = s.standalone := by
  fun_cases standalone s with
  | case1 id => rfl
  | case2 id => rfl
  | case3 s hnat htuple =>
      rw [standalone]
      · exact hnat
      · exact htuple

theorem asPattern?_cases {p : Pattern} (h : s.asPattern? = some p) :
    s = .expr p ∨
      ∃ name, isVariable name = true ∧ s = .predicate name none none none ∧ p = .var name := by
  unfold asPattern? at h
  split at h
  · cases h
    exact .inl rfl
  · split at h
    · cases h
      exact .inr ⟨_, ‹_›, rfl, rfl⟩
    · cases h
  · cases h

end Source

/-! ## Statements -/

/-- Whether a pattern that stands before `=` means the same without parentheses. -/
def Pattern.bindable : Pattern → Bool
  | .var _ => true
  | p => p.varName?.isNone

/-- A pattern that stood before `=` is spelled there by the tokens it is written with. -/
theorem Source.Spelled.bound {first : Source} {p : Pattern} (h : first.Spelled ts)
    (hp : first.asPattern? = some p) (hmarks : p.marksOnce = true) (hbindable : p.bindable = true) :
    ∃ first : Source, first.Spelled p.tokens ∧ first.asPattern? = some p := by
  have hvariable {name : String} (hname : isVariable name = true) :
      ∃ first : Source, first.Spelled [.name name] ∧ first.asPattern? = some (.var name) :=
    ⟨.predicate name none none none,
      .predicate (naming_of_isVariable hname) (splitVersion_eq_self (dot_not_mem hname)) .bare,
      if_pos hname⟩
  obtain rfl | ⟨name, hname, rfl, rfl⟩ := asPattern?_cases hp
  · cases h with
    | expr h =>
        cases hvar : p.varName? with
        | none => exact ⟨.expr p, .expr (h.written hmarks) fun name hhead =>
            Pattern.not_isVariable_of_head hvar hmarks hhead, rfl⟩
        | some name =>
            cases p with
            | var other => exact hvariable (h.isVariable rfl)
            | _ => simp [Pattern.bindable, hvar] at hbindable
  · exact hvariable hname

namespace Statement

/-- Whether a statement means the same without parentheses. -/
def plain (s : Statement) : Bool :=
  s.bind.all (fun p => p.marksOnce && p.bindable) && s.source.plain

variable {s : Statement}

theorem Spelled.writable (h : Spelled s ts) (hlegal : ∀ t ∈ ts, t.Legal) : Writable s.tokens := by
  cases h with
  | @alone s ts h =>
      refine Source.standalone_of (P := fun s => Writable s.tokens) (h.writable hlegal) fun id => ?_
      exact (Source.Spelled.factId id).writable (by simp [Token.Legal])
  | bound hfirst hp hs =>
      rw [List.forall_mem_append, List.forall_mem_cons] at hlegal
      rw [Writable, tokens, List.forall_mem_append, List.forall_mem_cons]
      refine ⟨?_, ⟨trivial, rfl⟩, hs.writable hlegal.2.2⟩
      obtain rfl | ⟨name, hname, rfl, rfl⟩ := Source.asPattern?_cases hp
      · exact hfirst.writable hlegal.1
      · exact hfirst.writable hlegal.1

theorem Spelled.plain (h : Spelled s ts) (hparen : .leftParen ∉ ts) : s.plain = true := by
  cases h with
  | @alone s ts h =>
      exact Source.standalone_of (P := fun s => s.plain = true) (h.plain hparen) fun _ => rfl
  | @bound first s p ts us hfirst hp hs =>
      have hsource := hs.plain fun h => hparen (List.mem_append_right _ (List.mem_cons_of_mem _ h))
      have hfirst := hfirst.plain fun h => hparen (List.mem_append_left _ h)
      obtain rfl | ⟨name, hname, rfl, rfl⟩ := Source.asPattern?_cases hp
      · rw [Source.plain, Bool.and_eq_true] at hfirst
        have hbindable : p.bindable = true := by
          unfold Pattern.bindable
          split
          · rfl
          · exact hfirst.2
        simp [Statement.plain, hfirst.1, hbindable, hsource]
      · simp [Statement.plain, Pattern.marksOnce, Pattern.bindable, hsource]

/-- A statement that was read is spelled by the tokens it is written with, if it means the same
without parentheses. -/
theorem Spelled.written (h : Spelled s ts) (hplain : s.plain = true) : Spelled s s.tokens := by
  cases h with
  | @alone s ts h =>
      have hwritten : s.standalone.Spelled s.standalone.tokens :=
        Source.standalone_of (P := fun s => s.plain = true → s.Spelled s.tokens) h.written
          (fun id _ => .factId id) hplain
      have halone := Spelled.alone hwritten
      rwa [Source.standalone_standalone] at halone
  | @bound first s p ts us hfirst hp hs =>
      rw [Statement.plain, Bool.and_eq_true, Option.all_some, Bool.and_eq_true] at hplain
      obtain ⟨⟨hmarks, hbindable⟩, hplain⟩ := hplain
      obtain ⟨first, hfirst, hp⟩ := hfirst.bound hp hmarks hbindable
      exact .bound hfirst hp (hs.written hplain)

end Statement

/-! ## Queries -/

namespace Query

/-- Whether a query is read back from what is written: it means the same without parentheses, and
the lexer knows the escapes in its strings. -/
def legible (q : Query) : Bool := q.statements.all Statement.plain && q.tokens.all Token.legible

variable {q : Query} {ss : List Statement}

theorem Rest.exists_of_mem {s : Statement} (h : Rest ss ts) (hs : s ∈ ss) :
    ∃ us, us ⊆ ts ∧ s.Spelled us := by
  induction h with
  | none => cases hs
  | last => cases hs
  | @more _ _ _ ts us ht hR h ih =>
      rcases List.mem_cons.mp hs with rfl | hs
      · exact ⟨ts, fun t ht => List.mem_cons_of_mem _ (List.mem_append_left _ ht), hR⟩
      · obtain ⟨vs, hvs, hs⟩ := ih hs
        exact ⟨vs, fun t ht => List.mem_cons_of_mem _ (List.mem_append_right _ (hvs ht)), hs⟩

/-- The statements of a query are spelled by some of its tokens. -/
theorem Spelled.exists_of_mem {s : Statement} (h : q.Spelled ts) (hs : s ∈ q.statements) :
    ∃ us, us ⊆ ts ∧ s.Spelled us := by
  cases h with
  | @mk _ _ ts us hfirst hrest =>
      rcases List.mem_cons.mp hs with rfl | hs
      · exact ⟨ts, List.subset_append_left .., hfirst⟩
      · obtain ⟨vs, hvs, hs⟩ := hrest.exists_of_mem hs
        exact ⟨vs, fun t ht => List.mem_append_right _ (hvs ht), hs⟩

theorem Spelled.writable (h : q.Spelled ts) (hlegal : ∀ t ∈ ts, t.Legal) : Writable q.tokens := by
  intro t ht
  rcases of_mem_intercalate ht with ht | ⟨us, hus, ht⟩
  · obtain rfl := List.mem_singleton.mp ht
    exact ⟨trivial, rfl⟩
  · obtain ⟨s, hs, rfl⟩ := List.mem_map.mp hus
    obtain ⟨vs, hvs, hs⟩ := h.exists_of_mem hs
    exact hs.writable (fun t ht => hlegal t (hvs ht)) t ht

theorem Spelled.plain (h : q.Spelled ts) (hparen : .leftParen ∉ ts) :
    q.statements.all Statement.plain = true := by
  refine List.all_eq_true.mpr fun s hs => ?_
  obtain ⟨us, hus, hs⟩ := h.exists_of_mem hs
  exact hs.plain fun h => hparen (hus h)

theorem Rest.written (h : Rest ss ts) (hplain : ∀ s ∈ ss, s.plain = true) :
    Rest ss ((ss.map Statement.tokens).flatMap ([.semicolon] ++ ·)) := by
  induction h with
  | none => exact .none
  | last => exact .none
  | more ht hs h ih =>
      rw [List.forall_mem_cons] at hplain
      exact .more rfl (hs.written hplain.1) (ih hplain.2)

/-- A query that was read is spelled by the tokens it is written with, if it means the same
without parentheses. -/
theorem Spelled.written (h : q.Spelled ts) (hplain : q.statements.all Statement.plain = true) :
    q.Spelled q.tokens := by
  cases h with
  | mk hs hss =>
      rw [List.all_cons, Bool.and_eq_true, List.all_eq_true] at hplain
      rw [tokens, List.map_cons, intercalate_cons]
      exact .mk (hs.written hplain.1) (hss.written hplain.2)

/-- A query that was read from a text comes back from its own text if and only if the text is no
longer than a query may be, nothing in it needs parentheses, and its strings are legible. -/
theorem reads_back_iff {text : String} (h : Query.read text = .ok q) :
    Query.read q.render = .ok q ↔
      q.render.utf8ByteSize ≤ maxQueryBytes ∧ q.legible = true := by
  obtain ⟨-, ts, hlexemes, hts⟩ := read_ok_iff.mp h
  have hlegal : ∀ t ∈ ts, t.Legal := by
    obtain ⟨init, hinit, hlegal⟩ := legal_of_lexemes hlexemes
    obtain rfl := (List.append_inj' hinit rfl).1
    exact hlegal
  have hwritable := hts.writable hlegal
  have hwritten : lexemes q.render.toList =
      if q.tokens.all Token.legible then some (q.tokens ++ [Token.endOfInput]) else none := by
    have hprints := q.prints (fun t ht => (hwritable t ht).1) [] rfl
    rwa [List.append_nil, lexemes_nil, foldr_onto] at hprints
  rw [read_ok_iff, legible, Bool.and_eq_true]
  refine and_congr_right fun _ => ⟨?_, ?_⟩
  · rintro ⟨us, hus, hspelled⟩
    rw [hwritten] at hus
    split at hus
    · rename_i hlegible
      obtain rfl : q.tokens = us := (List.append_inj' (Option.some.inj hus) rfl).1
      refine ⟨hspelled.plain fun hparen => ?_, hlegible⟩
      cases (hwritable _ hparen).2
    · cases hus
  · rintro ⟨hplain, hlegible⟩
    exact ⟨q.tokens, by rw [hwritten, if_pos hlegible], hts.written hplain⟩

/-- A query whose text writes a version, parentheses and a fact id in another form. -/
def nodeLabels : Query :=
  ⟨[⟨some (.var "X"), .predicate "glean.test.Node" (some 7)
      (some (.fields [("label", .stringStart "a\n")])) none⟩,
    ⟨none, .prim "length" (.array [.var "X", .wild])⟩, ⟨none, .factId 5⟩]⟩

theorem reads_back_nodeLabels :
    Query.read "X = glean.test.Node.07 \x7blabel=(\"a\\n\"..)\x7d | prim.length [X, (_)]; \x7b5\x7d" =
        .ok nodeLabels ∧ Query.read nodeLabels.render = .ok nodeLabels := by
  have hread : Query.read
      "X = glean.test.Node.07 \x7blabel=(\"a\\n\"..)\x7d | prim.length [X, (_)]; \x7b5\x7d" =
        .ok nodeLabels := by decide +kernel
  exact ⟨hread, (reads_back_iff hread).mpr ⟨by decide +kernel, by decide +kernel⟩⟩

/-- A variable between parentheses is an expression, and a predicate when it is written. -/
theorem exists_not_read_back :
    ¬ ∀ (text : String) (q : Query), Query.read text = .ok q → Query.read q.render = .ok q := by
  intro h
  have hread : Query.read "X = (Y)" = .ok ⟨[⟨some (.var "X"), .expr (.var "Y")⟩]⟩ := by
    decide +kernel
  have hback := h _ _ hread
  revert hback
  decide +kernel

end Query

end Factbase
