import Factbase.Proofs.Source.Lexing
import Factbase.Query.Basic

/-!
# The tokens of queries

The tokens that a query is written with, and that its text is cut into these
again (`Query.prints`) if its names are such as a text can have. That lists
and parts have blanks between them makes no difference to the tokens.
-/

namespace Factbase

/-! ## Patterns -/

namespace Pattern

mutual
/-- The tokens that a pattern is written with. -/
def tokens : Pattern → List Token
  | .wild => [.wild]
  | .var name => [.name name]
  | .nat n => [.nat n]
  | .string s => [.string s]
  | .stringStart s => [.string s, .dots]
  | .bool b => [.name (if b then "true" else "false")]
  | .array items => .leftBracket :: ([.comma].intercalate (tokensAll items) ++ [.rightBracket])
  | .fields fs => .leftBrace :: ([.comma].intercalate (tokensFields fs) ++ [.rightBrace])
  | .tuple items => .leftBrace :: ([.comma].intercalate (tokensAll items) ++ [.rightBrace])
  | .noExpand inner => inner.tokens ++ [.dots]

def tokensAll : List Pattern → List (List Token)
  | [] => []
  | p :: ps => p.tokens :: tokensAll ps

def tokensFields : List (String × Pattern) → List (List Token)
  | [] => []
  | (name, p) :: fs => (.name name :: .equals :: p.tokens) :: tokensFields fs
end

theorem tokensAll_eq (ps : List Pattern) : tokensAll ps = ps.map tokens := by
  induction ps with
  | nil => rfl
  | cons p ps ih => rw [tokensAll, ih, List.map_cons]

theorem tokensFields_eq (fs : List (String × Pattern)) :
    tokensFields fs = fs.map fun f => .name f.1 :: .equals :: f.2.tokens := by
  induction fs with
  | nil => rfl
  | cons f fs ih => rw [tokensFields, ih, List.map_cons]

theorem commas {texts : List (List Char)} {tss : List (List Token)}
    (h : List.Forall₂ Prints texts tss) :
    Prints (", ".toList.intercalate texts) ([.comma].intercalate tss) :=
  Prints.intercalate (c := ',') (t := .comma) rfl trivial rfl (by decide) (by decide) h

theorem braces {text : List Char} {ts : List Token} (h : Prints text ts) :
    Prints ("\x7b ".toList ++ text ++ " \x7d".toList) (.leftBrace :: (ts ++ [.rightBrace])) := by
  have hclose : Prints [' ', '\x7d'] [.rightBrace] := .blank (.token (t := .rightBrace) trivial)
  exact Prints.cons (t := .leftBrace) trivial rfl (h.before (by decide) (by decide) hclose).blank

mutual
/-- The text of a pattern is cut into the tokens that it is written with. -/
theorem prints : (p : Pattern) → (∀ t ∈ p.tokens, t.Legal) → Prints p.render.toList p.tokens
  | .wild, _ => Prints.token (t := .wild) trivial
  | .var _, h => Prints.name (h _ (List.mem_singleton_self _))
  | .nat n, _ => Prints.token (t := .nat n) trivial
  | .string s, _ => Prints.token (t := .string s) trivial
  | .stringStart s, _ => by
      rw [render, String.toList_append]
      exact (Prints.token (t := .string s) trivial).dots
  | .bool b, h =>
      Prints.name (n := if b then "true" else "false") (h _ (List.mem_singleton_self _))
  | .array items, h => by
      have hitems := commas (printsAll items fun ts hts t ht =>
        h t (List.mem_cons_of_mem _ (List.mem_append_left _ (mem_intercalate hts ht))))
      rw [render, String.toList_append, String.toList_append, String.toList_intercalate,
        List.append_assoc]
      exact Prints.cons (t := .leftBracket) trivial rfl
        (hitems.before (by decide) (by decide) (.token (t := .rightBracket) trivial))
  | .fields fs, h => by
      have hfields := commas (printsFields fs fun ts hts t ht =>
        h t (List.mem_cons_of_mem _ (List.mem_append_left _ (mem_intercalate hts ht))))
      rw [render, String.toList_append, String.toList_append, String.toList_intercalate]
      exact braces hfields
  | .tuple items, h => by
      have hitems := commas (printsAll items fun ts hts t ht =>
        h t (List.mem_cons_of_mem _ (List.mem_append_left _ (mem_intercalate hts ht))))
      rw [render, String.toList_append, String.toList_append, String.toList_intercalate]
      exact braces hitems
  | .noExpand inner, h => by
      rw [render, String.toList_append]
      exact (prints inner fun t ht => h t (List.mem_append_left _ ht)).dots

theorem printsAll : (ps : List Pattern) → (∀ ts ∈ tokensAll ps, ∀ t ∈ ts, t.Legal) →
    List.Forall₂ Prints ((renderAll ps).map String.toList) (tokensAll ps)
  | [], _ => .nil
  | p :: ps, h => .cons (prints p (h _ (List.mem_cons_self ..)))
      (printsAll ps fun ts hts => h ts (List.mem_cons_of_mem _ hts))

theorem printsFields : (fs : List (String × Pattern)) →
    (∀ ts ∈ tokensFields fs, ∀ t ∈ ts, t.Legal) →
    List.Forall₂ Prints ((renderFields fs).map String.toList) (tokensFields fs)
  | [], _ => .nil
  | (name, p) :: fs, h => by
      rw [tokensFields, List.forall_mem_cons, List.forall_mem_cons, List.forall_mem_cons] at h
      obtain ⟨⟨hname, -, hp⟩, hfs⟩ := h
      have hname : Prints name.toList [.name name] := Prints.name hname
      have hp := prints p hp
      rw [renderFields, List.map_cons, tokensFields]
      refine .cons ?_ (printsFields fs hfs)
      rw [String.toList_append, String.toList_append, List.append_assoc]
      exact hname.before (by decide) (by decide)
        (Prints.cons (t := .equals) trivial rfl hp.blank).blank
end

end Pattern

/-! ## Sources -/

namespace Source

/-- The name of a predicate as it is written. -/
def versioned (name : String) : Option UInt32 → String
  | some v => name ++ "." ++ toString v.toNat
  | none => name

/-- The text of the patterns after the name of a predicate. -/
def clauseText : Option Pattern → Option Pattern → String
  | some key, some value => " " ++ key.render ++ " -> " ++ value.render
  | some key, none => " " ++ key.render
  | none, some value => " _ -> " ++ value.render
  | none, none => ""

/-- The tokens that the patterns after the name of a predicate are written with. -/
def clauseTokens : Option Pattern → Option Pattern → List Token
  | some key, some value => key.tokens ++ .arrow :: value.tokens
  | some key, none => key.tokens
  | none, some value => .wild :: .arrow :: value.tokens
  | none, none => []

/-- The tokens that a source is written with. -/
def tokens : Source → List Token
  | .predicate name version key value => .name (versioned name version) :: clauseTokens key value
  | .prim name arg => .name ("prim." ++ name) :: arg.tokens
  | .factId id => [.dollar, .nat id]
  | .expr p => p.tokens

theorem render_predicate (name : String) (version : Option UInt32) (key value : Option Pattern) :
    (Source.predicate name version key value).render =
      versioned name version ++ clauseText key value := by
  cases key <;> cases value <;> cases version <;>
    simp [render, versioned, clauseText, String.append_assoc]

theorem prints_keyed {name : String} {p : Pattern} (hname : (Token.name name).Legal)
    (hp : ∀ t ∈ p.tokens, t.Legal) :
    Prints (name ++ (" " ++ p.render)).toList (.name name :: p.tokens) := by
  simp only [String.toList_append]
  exact (Prints.name hname).before (by decide) (by decide) (p.prints hp).blank

theorem prints_valued {name : String} {p v : Pattern} (hname : (Token.name name).Legal)
    (hp : ∀ t ∈ p.tokens, t.Legal) (hv : ∀ t ∈ v.tokens, t.Legal) :
    Prints (name ++ (" " ++ p.render ++ " -> " ++ v.render)).toList
      (.name name :: (p.tokens ++ .arrow :: v.tokens)) := by
  have harrow : Prints (" -> ".toList ++ v.render.toList) (.arrow :: v.tokens) :=
    (Prints.cons (t := .arrow) trivial rfl (v.prints hv).blank).blank
  have hkey := (p.prints hp).before (by decide) (by decide) harrow
  simp only [String.toList_append, List.append_assoc]
  exact (Prints.name hname).before (by decide) (by decide) hkey.blank

/-- The text of a source is cut into the tokens that it is written with. -/
theorem prints (s : Source) (h : ∀ t ∈ s.tokens, t.Legal) : Prints s.render.toList s.tokens := by
  cases s with
  | factId id =>
      rw [render, String.toList_append]
      exact Prints.cons (t := .dollar) trivial rfl (.token (t := .nat id) trivial)
  | expr p => exact p.prints h
  | prim name arg =>
      rw [tokens, List.forall_mem_cons] at h
      rw [render, String.append_assoc]
      exact prints_keyed h.1 h.2
  | predicate name version key value =>
      rw [tokens, List.forall_mem_cons] at h
      rw [render_predicate]
      cases key with
      | none =>
          cases value with
          | none =>
              rw [clauseText, String.append_empty]
              exact Prints.name h.1
          | some v =>
              -- no key is written as a wildcard
              rw [clauseTokens, List.forall_mem_cons, List.forall_mem_cons] at h
              exact prints_valued (p := .wild) h.1 (by simpa [Pattern.tokens] using h.2.1) h.2.2.2
      | some p =>
          cases value with
          | none => exact prints_keyed h.1 h.2
          | some v =>
              rw [clauseTokens, List.forall_mem_append, List.forall_mem_cons] at h
              exact prints_valued h.1 h.2.1 h.2.2.2

end Source

/-! ## Statements -/

namespace Statement

/-- The tokens that a statement is written with. -/
def tokens (s : Statement) : List Token :=
  match s.bind with
  | some p => p.tokens ++ .equals :: s.source.tokens
  | none => s.source.tokens

/-- The text of a statement is cut into the tokens that it is written with. -/
theorem prints (s : Statement) (h : ∀ t ∈ s.tokens, t.Legal) : Prints s.render.toList s.tokens := by
  obtain ⟨bind, source⟩ := s
  cases bind with
  | none => exact source.prints h
  | some p =>
      rw [tokens, List.forall_mem_append, List.forall_mem_cons] at h
      have hequals : Prints (" = ".toList ++ source.render.toList) (.equals :: source.tokens) :=
        (Prints.cons (t := .equals) trivial rfl (source.prints h.2.2).blank).blank
      simp only [render, String.toList_append, List.append_assoc]
      exact (p.prints h.1).before (by decide) (by decide) hequals

end Statement

/-! ## Queries -/

namespace Query

/-- The tokens that a query is written with. -/
def tokens (q : Query) : List Token := [.semicolon].intercalate (q.statements.map Statement.tokens)

/-- The text of a query is cut into the tokens that it is written with. -/
theorem prints (q : Query) (h : ∀ t ∈ q.tokens, t.Legal) : Prints q.render.toList q.tokens := by
  have hstatements : List.Forall₂ Prints ((q.statements.map Statement.render).map String.toList)
      (q.statements.map Statement.tokens) := by
    rw [List.map_map, List.forall₂_map_left_iff, List.forall₂_map_right_iff, List.forall₂_same]
    exact fun s hs => s.prints fun t ht => h t (mem_intercalate (List.mem_map_of_mem hs) ht)
  rw [render, String.toList_intercalate]
  exact Prints.intercalate (c := ';') (t := .semicolon) rfl trivial rfl (by decide) (by decide)
    hstatements

end Query

end Factbase
