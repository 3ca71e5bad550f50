import Factbase.Proofs.Outcome
import Factbase.Proofs.Text
import Factbase.Source.Lexer

/-!
# The tokens of a text

Where a text stands matters to messages only: `lexemes` is what it is cut
into, if it can be. A token is cut off the front of a text again after it
was written there, if it is one that a text can have (`Token.Legal`), what
follows does not carry it on (`Stops`), and the escapes in it are those
that are read (`Token.legible`).

A text that is put together from the texts of tokens is cut into these
tokens (`Prints`).
-/

namespace Factbase

/-! ## Places -/

theorem readString_place (start start' here here' : Position) (cs : List Char) :
    (readString start here cs).toOption = (readString start' here' cs).toOption := by
  fun_induction readString start here cs generalizing here' with
  | case1 here => rw [readString]; rfl
  | case2 here rest => rw [readString]
  | case3 here => rw [readString]; rfl
  | case4 here e rest hnone =>
      rw [readString, hnone]
      rfl
  | case5 here e rest c hsome ih =>
      rw [readString, hsome]
      simp only [Outcome.toOption_bind, ih (here'.right 2)]
  | case6 here rest => rw [readString]; rfl
  | case7 here c rest hquote hend hescape hline ih =>
      rw [readString]
      · simp only [Outcome.toOption_bind, ih (here'.right 1)]
      all_goals assumption

theorem Lexeme.read_place (here here' : Position) (cs : List Char) :
    (Lexeme.read here cs).toOption = (Lexeme.read here' cs).toOption := by
  unfold Lexeme.read
  split
  · rfl
  · rfl
  · rfl
  · rename_i rest
    simp only [Outcome.toOption_bind, readString_place here here' _ (here'.right 1) rest]
  · split
    · rfl
    · split
      · dsimp only
        split <;> rfl
      · split <;> rfl

/-- The tokens of a text, the end of input last, if it can be cut into tokens. -/
def lexemes (cs : List Char) : Option (List Token) :=
  (Token.readFrom .start cs).toOption.map fun ts => ts.map Located.token

theorem map_readFrom (here : Position) (cs : List Char) :
    ((Token.readFrom here cs).toOption.map fun ts => ts.map Located.token) = lexemes cs := by
  suffices h : ∀ here', ((Token.readFrom here cs).toOption.map fun ts => ts.map Located.token) =
      (Token.readFrom here' cs).toOption.map fun ts => ts.map Located.token from h .start
  induction here, cs using Token.readFrom.induct with
  | case1 here => intro here'; simp [Token.readFrom, Except.toOption]
  | case2 here rest ih =>
      intro here'
      rw [Token.readFrom, Token.readFrom, if_pos rfl, if_pos rfl]
      exact ih _
  | case3 here c rest hline hblank ih =>
      intro here'
      rw [Token.readFrom, Token.readFrom, if_neg hline, if_neg hline, if_pos hblank, if_pos hblank]
      exact ih _
  | case4 here c rest hline hblank hcomment ih =>
      intro here'
      rw [Token.readFrom, Token.readFrom, if_neg hline, if_neg hline, if_neg hblank, if_neg hblank,
        if_pos hcomment, if_pos hcomment]
      exact ih _
  | case5 here c rest hline hblank hcomment ih =>
      intro here'
      rw [Token.readFrom, Token.readFrom, if_neg hline, if_neg hline, if_neg hblank, if_neg hblank,
        if_neg hcomment, if_neg hcomment]
      simp only [Outcome.toOption_bind, Lexeme.read_place here here' (c :: rest)]
      cases (Lexeme.read here' (c :: rest)).toOption with
      | none => rfl
      | some read =>
          have hrest := ih read.2 (here'.right read.2)
          revert hrest
          dsimp only [Option.bind_some]
          cases (Token.readFrom (here.right read.2) (rest.drop (read.2 - 1))).toOption <;>
            cases (Token.readFrom (here'.right read.2) (rest.drop (read.2 - 1))).toOption <;>
            simp [pure, Except.pure, Except.toOption]

theorem lexemes_nil : lexemes [] = some [.endOfInput] := by
  simp [lexemes, Token.readFrom, Except.toOption]

theorem lexemes_blank {c : Char} (h : isBlank c = true) (cs : List Char) :
    lexemes (c :: cs) = lexemes cs := by
  rw [lexemes, Token.readFrom]
  split
  · exact map_readFrom _ cs
  · exact map_readFrom _ cs

theorem lexemes_comment {c : Char} {cs : List Char} (hblank : isBlank c = false)
    (hcomment : startsComment (c :: cs) = true) :
    lexemes (c :: cs) = lexemes (cs.dropWhile (· ≠ '\n')) := by
  have hline : c ≠ '\n' := by
    rintro rfl
    cases hblank
  rw [lexemes, Token.readFrom, if_neg hline, hblank, if_neg Bool.false_ne_true, if_pos hcomment]
  exact map_readFrom _ _

theorem lexemes_cons {c : Char} {cs : List Char} (hblank : isBlank c = false)
    (hcomment : startsComment (c :: cs) = false) :
    lexemes (c :: cs) = (Lexeme.read .start (c :: cs)).toOption.bind fun read =>
      (lexemes (cs.drop (read.2 - 1))).map (read.1 :: ·) := by
  have hline : c ≠ '\n' := by
    rintro rfl
    cases hblank
  rw [lexemes, Token.readFrom, if_neg hline, hblank, hcomment]
  simp only [Bool.false_eq_true, if_false, Outcome.toOption_bind]
  cases (Lexeme.read .start (c :: cs)).toOption with
  | none => rfl
  | some read =>
      dsimp only [Option.bind_some]
      rw [← map_readFrom (Position.start.right read.2)]
      cases (Token.readFrom (Position.start.right read.2) (cs.drop (read.2 - 1))).toOption <;>
        simp [pure, Except.pure, Except.toOption]

/-! ## Names -/

/-- A text on which no name goes on, and no number. -/
def Stops (cs : List Char) : Prop := nameChars cs = []

theorem stops_cons {c : Char} (hname : isNameChar c = false) (hdot : c ≠ '.') (cs : List Char) :
    Stops (c :: cs) := by
  cases cs <;> simp [Stops, nameChars, hname, hdot]

theorem stops_dots (cs : List Char) : Stops ('.' :: '.' :: cs) := by
  have hdot : isNameChar '.' = false := by decide
  simp [Stops, nameChars, hdot]

theorem not_isNameChar_of_stops {c : Char} {cs : List Char} (h : Stops (c :: cs)) :
    isNameChar c = false := by
  by_contra hname
  rw [Bool.not_eq_false] at hname
  cases cs <;> simp [Stops, nameChars, hname] at h

/-- A name goes up to where it stops. -/
theorem nameChars_append {name rest : List Char} (hname : nameChars name = name)
    (hrest : Stops rest) : nameChars (name ++ rest) = name := by
  induction name using nameChars.induct with
  | case1 => exact hrest
  | case2 c hc =>
      cases rest with
      | nil => exact hname
      | cons d rest =>
          have hnil : nameChars (d :: rest) = [] := hrest
          rw [List.singleton_append, nameChars, hc, Bool.true_or, if_pos rfl, hnil]
  | case3 c hc =>
      rw [nameChars, if_neg hc] at hname
      cases hname
  | case4 c d name hc ih =>
      rw [nameChars, if_pos hc, List.cons.injEq] at hname
      have hrest := ih hname.2
      rw [List.cons_append] at hrest
      rw [List.cons_append, List.cons_append, nameChars, if_pos hc, hrest]
  | case5 c d name hc =>
      rw [nameChars, if_neg hc] at hname
      cases hname

/-- What is cut off as a name is a name. -/
theorem nameChars_nameChars (cs : List Char) : nameChars (nameChars cs) = nameChars cs := by
  induction cs using nameChars.induct with
  | case1 => rfl
  | case2 c hc => simp [nameChars, hc]
  | case3 c hc => simp [nameChars, hc]
  | case4 c d rest hc ih =>
      rw [nameChars, if_pos hc]
      cases hnext : nameChars (d :: rest) with
      | nil =>
          -- then a name character does not follow, so the point would not have gone on
          have hd : isNameChar d = false := not_isNameChar_of_stops hnext
          rw [hd, Bool.and_false, Bool.or_false] at hc
          simp [nameChars, hc]
      | cons e name =>
          have he : e = d := by
            cases rest with
            | nil =>
                by_cases hd : isNameChar d <;> simp [nameChars, hd] at hnext
                exact hnext.1.symm
            | cons f rest =>
                rw [nameChars] at hnext
                split at hnext
                · cases hnext
                  rfl
                · cases hnext
          rw [hnext] at ih
          subst he
          rw [nameChars, if_pos hc, ih]
  | case5 c d rest hc => simp [nameChars, hc]

theorem nameChars_of_forall {cs : List Char} (h : ∀ c ∈ cs, isNameChar c = true) :
    nameChars cs = cs := by
  induction cs using nameChars.induct with
  | case1 => rfl
  | case2 c hc => simp [nameChars, hc]
  | case3 c hc => exact absurd (h c (List.mem_cons_self ..)) hc
  | case4 c d rest hc ih =>
      rw [nameChars, if_pos hc, ih fun e he => h e (List.mem_cons_of_mem _ he)]
  | case5 c d rest hc =>
      rw [h c (List.mem_cons_self ..)] at hc
      exact absurd rfl hc

/-- What stands after a point in a name can be changed. -/
theorem nameChars_replace {before after after' : List Char}
    (h : nameChars (before ++ '.' :: after) = before ++ '.' :: after)
    (hafter : nameChars after' = after') (hhead : after'.head?.any isNameChar = true) :
    nameChars (before ++ '.' :: after') = before ++ '.' :: after' := by
  induction before with
  | nil =>
      cases after' with
      | nil => cases hhead
      | cons d after' =>
          have hd : isNameChar d = true := hhead
          rw [List.nil_append, nameChars, hd, hafter]
          rfl
  | cons c before ih =>
      cases before with
      | nil =>
          rw [List.singleton_append, nameChars] at h ⊢
          split at h
          · rename_i hc
            rw [if_pos hc]
            exact congrArg (c :: ·) (ih (List.cons.inj h).2)
          · cases h
      | cons d before =>
          rw [List.cons_append, List.cons_append, nameChars] at h ⊢
          split at h
          · rename_i hc
            rw [if_pos hc]
            exact congrArg (c :: ·) (ih (List.cons.inj h).2)
          · cases h

theorem isNameChar_of_mem_toDigits {n : Nat} {c : Char} (h : c ∈ Nat.toDigits 10 n) :
    isNameChar c = true := by
  have hdigit := Nat.isDigit_of_mem_toDigits (by omega) (by omega) h
  simp [isNameChar, Char.isAlphanum, hdigit]

/-- A text that can be a name. -/
structure LegalName (name : String) : Prop where
  chars : nameChars name.toList = name.toList
  start : name.toList.head?.any isNameStart = true
  wild : name ≠ "_"

/-- A token that can stand in a text. -/
def Token.Legal : Token → Prop
  | .name text => LegalName text
  | .endOfInput => False
  | _ => True

theorem isAlpha_iff {c : Char} :
    c.isAlpha = true ↔ (65 ≤ c.toNat ∧ c.toNat ≤ 90) ∨ (97 ≤ c.toNat ∧ c.toNat ≤ 122) := by
  show (decide (65 ≤ c.val ∧ c.val ≤ 90) || decide (97 ≤ c.val) && decide (c.val ≤ 122)) = true ↔ _
  simp only [Bool.or_eq_true, Bool.and_eq_true, decide_eq_true_eq, UInt32.le_iff_toNat_le]
  rfl

theorem isDigit_iff {c : Char} : c.isDigit = true ↔ 48 ≤ c.toNat ∧ c.toNat ≤ 57 := by
  show (decide (48 ≤ c.val) && decide (c.val ≤ 57)) = true ↔ _
  simp only [Bool.and_eq_true, decide_eq_true_eq, UInt32.le_iff_toNat_le]
  rfl

theorem isNameChar_of_isNameStart {c : Char} (h : isNameStart c = true) : isNameChar c = true := by
  simp only [isNameStart, isNameChar, Char.isAlphanum, Bool.or_eq_true] at *
  tauto

theorem not_isDigit_of_isNameStart {c : Char} (h : isNameStart c = true) : c.isDigit = false := by
  by_contra hdigit
  rw [Bool.not_eq_false, isDigit_iff] at hdigit
  rw [isNameStart, Bool.or_eq_true, isAlpha_iff, decide_eq_true_eq] at h
  rcases h with h | rfl
  · omega
  · exact absurd hdigit (by decide)

theorem punctuation?_eq_none {c : Char} (h : isNameChar c = true) : punctuation? c = none := by
  unfold punctuation?
  split <;> first | rfl | exact absurd h (by decide)

theorem startsComment_eq_false {c : Char} (h : isNameChar c = true) (cs : List Char) :
    startsComment (c :: cs) = false := by
  unfold startsComment
  split
  · rename_i heq
    cases heq
    exact absurd h (by decide)
  · rename_i heq
    cases heq
    exact absurd h (by decide)
  · rfl

theorem isBlank_eq_false {c : Char} (h : isNameChar c = true) : isBlank c = false := by
  have hrange : 48 ≤ c.toNat ∧ c.toNat ≤ 122 := by
    rw [isNameChar, Bool.or_eq_true, Char.isAlphanum, Bool.or_eq_true, isAlpha_iff, isDigit_iff,
      decide_eq_true_eq] at h
    rcases h with h | rfl
    · omega
    · decide
  simp only [isBlank, inRanges, whiteSpace, List.any_cons, List.any_nil, Bool.or_false,
    Bool.or_eq_false_iff, Bool.and_eq_false_iff, decide_eq_false_iff_not]
  omega

/-! ## Strings -/

/-- A character of a string that is read back from how it is written there: the lexer knows
fewer escapes than are written. -/
def isLegible (c : Char) : Bool :=
  c = '"' || c = '\\' || c = '\n' || c = '\r' || c = '\t' ||
    (c ≠ '\x00' && isPrintable c && !extendsGrapheme c)

theorem readString_escape {e c : Char} (h : stringEscape? e = some c) (start here : Position)
    (cs : List Char) : (readString start here ('\\' :: e :: cs)).toOption =
      (readString start here cs).toOption.map fun read => (c :: read.1, read.2 + 2) := by
  rw [readString, h]
  simp only [Outcome.toOption_bind, readString_place start start _ here cs]
  cases (readString start here cs).toOption <;> rfl

theorem readString_plain {c : Char} (hquote : c ≠ '"') (hslash : c ≠ '\\') (hline : c ≠ '\n')
    (start here : Position) (cs : List Char) : (readString start here (c :: cs)).toOption =
      (readString start here cs).toOption.map fun read => (c :: read.1, read.2 + 1) := by
  rw [readString]
  · simp only [Outcome.toOption_bind, readString_place start start _ here cs]
    cases (readString start here cs).toOption <;> rfl
  all_goals simp_all

theorem readString_escapeChar {c : Char} (h : isLegible c = true) (start here : Position)
    (cs : List Char) : (readString start here ((escapeChar '"' c).toList ++ cs)).toOption =
      (readString start here cs).toOption.map fun read =>
        (c :: read.1, read.2 + (escapeChar '"' c).toList.length) := by
  by_cases hquote : c = '"'
  · subst c
    exact readString_escape rfl ..
  by_cases hslash : c = '\\'
  · subst c
    exact readString_escape rfl ..
  by_cases hline : c = '\n'
  · subst c
    exact readString_escape rfl ..
  by_cases hreturn : c = '\r'
  · subst c
    exact readString_escape rfl ..
  by_cases htab : c = '\t'
  · subst c
    exact readString_escape rfl ..
  have hplain : c ≠ '\x00' ∧ (isPrintable c && !extendsGrapheme c) = true := by
    simpa [isLegible, hquote, hslash, hline, hreturn, htab, and_assoc] using h
  have hself : escapeChar '"' c = String.singleton c := by
    rw [escapeChar, if_neg hquote, if_neg hslash, if_neg hline, if_neg hreturn, if_neg htab,
      if_neg hplain.1, if_pos hplain.2]
  rw [hself, String.toList_singleton]
  exact readString_plain hquote hslash hline ..

theorem readString_illegible {c : Char} (h : isLegible c = false) (start here : Position)
    (cs : List Char) :
    (readString start here ((escapeChar '"' c).toList ++ cs)).toOption = none := by
  simp only [isLegible, Bool.or_eq_false_iff, decide_eq_false_iff_not] at h
  obtain ⟨⟨⟨⟨⟨hquote, hslash⟩, hline⟩, hreturn⟩, htab⟩, hplain⟩ := h
  by_cases hnull : c = '\x00'
  · subst c
    rfl
  · have hplain : ¬ (isPrintable c && !extendsGrapheme c) = true := by
      simpa [hnull] using hplain
    have hcode : (escapeChar '"' c).toList =
        '\\' :: 'u' :: ("\x7b" ++ hexText c.toNat ++ "\x7d").toList := by
      rw [escapeChar, if_neg hquote, if_neg hslash, if_neg hline, if_neg hreturn, if_neg htab,
        if_neg hnull, if_neg hplain]
      simp
    rw [hcode]
    rfl

/-- The characters of a string as they are written between its quotes. -/
def escaped (cs : List Char) : List Char := cs.flatMap fun c => (escapeChar '"' c).toList

theorem quoted_eq (s : String) : (quoted s).toList = '"' :: (escaped s.toList ++ ['"']) := by
  simp [quoted, escaped, List.flatMap_map]

theorem readString_escaped (start here : Position) (cs rest : List Char) :
    (readString start here (escaped cs ++ '"' :: rest)).toOption =
      if cs.all isLegible then some (cs, (escaped cs).length + 1) else none := by
  induction cs with
  | nil =>
      rw [escaped, List.flatMap_nil, List.nil_append, readString]
      rfl
  | cons c cs ih =>
      have hcons : escaped (c :: cs) = (escapeChar '"' c).toList ++ escaped cs := rfl
      rw [hcons, List.append_assoc, List.all_cons]
      cases hc : isLegible c with
      | false => rw [readString_illegible hc, Bool.false_and, if_neg Bool.false_ne_true]
      | true =>
          rw [readString_escapeChar hc, ih, Bool.true_and]
          split
          · rw [Option.map_some, List.length_append]
            congr 2
            omega
          · rfl

/-! ## Tokens -/

/-- A token that is read back from its text, if it can stand in one. -/
def Token.legible : Token → Bool
  | .string s => s.toList.all isLegible
  | _ => true

/-- A token in front of what others are cut into. -/
def Token.onto (t : Token) (rest : Option (List Token)) : Option (List Token) :=
  if t.legible then rest.map (t :: ·) else none

/-- Names and numbers are cut off by the last rule. -/
theorem Lexeme.read_word {c : Char} (h : isNameChar c = true) (here : Position) (cs : List Char) :
    Lexeme.read here (c :: cs) =
      if c.isDigit then
        match readDigits? (2 ^ 64) ((c :: cs).takeWhile Char.isDigit) with
        | some n => .ok (.nat (UInt64.ofNat n), ((c :: cs).takeWhile Char.isDigit).length)
        | none => .error ⟨here, .numberTooLarge (String.ofList ((c :: cs).takeWhile Char.isDigit))⟩
      else if isNameStart c then
        .ok (if nameChars (c :: cs) = ['_'] then .wild else .name (String.ofList (nameChars (c :: cs))),
          (nameChars (c :: cs)).length)
      else .error ⟨here, .unexpectedCharacter c⟩ := by
  have hmark : c ≠ '-' ∧ c ≠ '.' ∧ c ≠ '"' := by
    refine ⟨?_, ?_, ?_⟩ <;> rintro rfl <;> exact absurd h (by decide)
  rw [Lexeme.read, punctuation?_eq_none h]
  all_goals first
    | rfl
    | simp [hmark]

theorem lexemes_name {name : String} (h : LegalName name) {rest : List Char} (hrest : Stops rest) :
    lexemes (name.toList ++ rest) = (lexemes rest).map (.name name :: ·) := by
  have hread := nameChars_append h.chars hrest
  have hstart := h.start
  have hback := String.ofList_toList (s := name)
  have hwild : name.toList ≠ ['_'] := fun he => h.wild (by rw [← hback, he])
  cases hname : name.toList with
  | nil =>
      rw [hname] at hstart
      cases hstart
  | cons c cs =>
      rw [hname] at hread hstart hback hwild
      have hstart : isNameStart c = true := hstart
      have hchar := isNameChar_of_isNameStart hstart
      rw [List.cons_append] at hread ⊢
      rw [lexemes_cons (isBlank_eq_false hchar) (startsComment_eq_false hchar _),
        Lexeme.read_word hchar, not_isDigit_of_isNameStart hstart, if_neg Bool.false_ne_true, hstart,
        if_pos rfl, hread, if_neg hwild, hback]
      simp [Except.toOption]

theorem lexemes_wild {rest : List Char} (hrest : Stops rest) :
    lexemes ('_' :: rest) = (lexemes rest).map (.wild :: ·) := by
  have hname : nameChars ['_'] = ['_'] := rfl
  have hread : nameChars ('_' :: rest) = ['_'] := nameChars_append hname hrest
  have hchar : isNameChar '_' = true := by decide
  rw [lexemes_cons (isBlank_eq_false hchar) (startsComment_eq_false hchar _), Lexeme.read_word hchar,
    hread]
  simp [Except.toOption, isNameStart]

theorem takeWhile_digits {n : Nat} {rest : List Char} (hrest : Stops rest) :
    (Nat.toDigits 10 n ++ rest).takeWhile Char.isDigit = Nat.toDigits 10 n := by
  have hdigits : ∀ c ∈ Nat.toDigits 10 n, c.isDigit = true := fun c hc =>
    Nat.isDigit_of_mem_toDigits (by omega) (by omega) hc
  rw [List.takeWhile_append_of_pos hdigits]
  cases rest with
  | nil => simp
  | cons c rest =>
      have hdigit : c.isDigit = false := by
        have := not_isNameChar_of_stops hrest
        simp only [isNameChar, Char.isAlphanum, Bool.or_eq_false_iff] at this
        exact this.1.2
      rw [List.takeWhile_cons, hdigit, if_neg Bool.false_ne_true, List.append_nil]

theorem lexemes_nat (n : UInt64) {rest : List Char} (hrest : Stops rest) :
    lexemes ((toString n.toNat).toList ++ rest) = (lexemes rest).map (.nat n :: ·) := by
  have hdigits := @takeWhile_digits n.toNat rest hrest
  have hread : readDigits? (2 ^ 64) (Nat.toDigits 10 n.toNat) = some n.toNat :=
    readDigits?_toDigits n.toNat_lt
  have htext : (toString n.toNat).toList = Nat.toDigits 10 n.toNat := by simp
  rw [htext]
  cases hlist : Nat.toDigits 10 n.toNat with
  | nil => exact absurd hlist Nat.toDigits_ne_nil
  | cons c cs =>
      have hmem : c ∈ Nat.toDigits 10 n.toNat := by
        rw [hlist]
        exact List.mem_cons_self ..
      have hdigit : c.isDigit = true := Nat.isDigit_of_mem_toDigits (by omega) (by omega) hmem
      have hchar := isNameChar_of_mem_toDigits hmem
      rw [hlist, List.cons_append] at hdigits
      rw [hlist] at hread
      rw [List.cons_append, lexemes_cons (isBlank_eq_false hchar) (startsComment_eq_false hchar _),
        Lexeme.read_word hchar, hdigit, if_pos rfl, hdigits, hread]
      simp [Except.toOption]

theorem lexemes_string (s : String) (rest : List Char) :
    lexemes ((quoted s).toList ++ rest) = Token.onto (.string s) (lexemes rest) := by
  have hread := readString_escaped .start (Position.start.right 1) s.toList rest
  have hlegible : s.toList.all isLegible = (Token.string s).legible := rfl
  rw [hlegible] at hread
  rw [quoted_eq, List.cons_append, List.append_assoc, List.singleton_append,
    lexemes_cons (by decide) (by rfl), Lexeme.read, Token.onto]
  simp only [Outcome.toOption_bind, hread]
  split
  · simp [Except.toOption, pure, Except.pure]
  · rfl

/-- A token that names and numbers stand next to without being carried on. -/
def Token.closed : Token → Bool
  | .name _ | .nat _ | .wild => false
  | _ => true

/-- A token is cut off again in front of a text that does not carry it on. -/
theorem lexemes_render {t : Token} (h : t.Legal) {rest : List Char}
    (hrest : t.closed = false → Stops rest) :
    lexemes (t.render.toList ++ rest) = t.onto (lexemes rest) := by
  cases t with
  | name text => exact (lexemes_name h (hrest rfl)).trans (if_pos rfl).symm
  | nat n => exact (lexemes_nat n (hrest rfl)).trans (if_pos rfl).symm
  | wild => exact (lexemes_wild (hrest rfl)).trans (if_pos rfl).symm
  | string s => exact lexemes_string s rest
  | endOfInput => exact h.elim
  | _ => exact (lexemes_cons (by decide) (by rfl)).trans (by rfl)

/-! ## Tokens that are read -/

theorem Lexeme.legal_of_read {here : Position} {c : Char} {cs : List Char} {t : Token} {n : Nat}
    (h : Lexeme.read here (c :: cs) = .ok (t, n)) : t.Legal := by
  unfold Lexeme.read at h
  split at h
  · rename_i heq
    cases heq
  · cases h
    trivial
  · cases h
    trivial
  · obtain ⟨⟨text, taken⟩, -, hout⟩ := Outcome.bind_ok_iff.mp h
    cases hout
    trivial
  · rename_i heq
    cases heq
    split at h
    · rename_i token htoken
      cases h
      unfold punctuation? at htoken
      split at htoken <;> cases htoken <;> trivial
    · split at h
      · dsimp only at h
        split at h
        · cases h
          trivial
        · cases h
      · split at h
        · rename_i hstart
          cases h
          split
          · trivial
          · rename_i hwild
            have hchar := isNameChar_of_isNameStart hstart
            refine ⟨?_, ?_, fun he => hwild ?_⟩
            · rw [String.toList_ofList]
              exact nameChars_nameChars _
            · rw [String.toList_ofList]
              cases cs <;> simp [nameChars, hchar, hstart]
            · rw [← String.toList_ofList (l := nameChars (c :: cs)), he]
              rfl
        · cases h

/-- The tokens of a text end with the end of input, and it stands there only. -/
theorem legal_of_lexemes {cs : List Char} {ts : List Token} (h : lexemes cs = some ts) :
    ∃ init, ts = init ++ [.endOfInput] ∧ ∀ t ∈ init, t.Legal := by
  induction Position.start, cs using Token.readFrom.induct generalizing ts with
  | case1 here =>
      rw [lexemes_nil] at h
      cases h
      exact ⟨[], rfl, by simp⟩
  | case2 here rest ih =>
      rw [lexemes_blank (by decide)] at h
      exact ih h
  | case3 here c rest hline hblank ih =>
      rw [lexemes_blank hblank] at h
      exact ih h
  | case4 here c rest hline hblank hcomment ih =>
      rw [lexemes_comment (by simpa using hblank) hcomment] at h
      exact ih h
  | case5 here c rest hline hblank hcomment ih =>
      rw [lexemes_cons (by simpa using hblank) (by simpa using hcomment)] at h
      obtain ⟨⟨t, n⟩, hread, h⟩ := Option.bind_eq_some_iff.mp h
      obtain ⟨us, hus, rfl⟩ := Option.map_eq_some_iff.mp h
      obtain ⟨init, rfl, hinit⟩ := ih n hus
      exact ⟨t :: init, rfl, List.forall_mem_cons.mpr
        ⟨Lexeme.legal_of_read (Outcome.mem_toOption_iff.mp hread), hinit⟩⟩

/-! ## Texts of tokens -/

theorem foldr_onto (ts us : List Token) :
    ts.foldr Token.onto (some us) = if ts.all Token.legible then some (ts ++ us) else none := by
  induction ts with
  | nil => rfl
  | cons t ts ih =>
      rw [List.foldr_cons, ih, List.all_cons, Token.onto]
      cases ht : t.legible <;> cases hts : ts.all Token.legible <;> simp

/-- A text is cut into tokens, in front of whatever does not carry it on. -/
def Prints (text : List Char) (ts : List Token) : Prop :=
  ∀ rest, Stops rest → lexemes (text ++ rest) = ts.foldr Token.onto (lexemes rest)

namespace Prints

variable {a b : List Char} {ts us : List Token}

theorem nil : Prints [] [] := fun _ _ => rfl

theorem token {t : Token} (h : t.Legal) : Prints t.render.toList [t] :=
  fun _ hrest => lexemes_render h fun _ => hrest

theorem name {n : String} (h : (Token.name n).Legal) : Prints n.toList [.name n] :=
  token (t := .name n) h

theorem append (ha : Prints a ts) (hb : Prints b us)
    (hstops : ∀ rest, Stops rest → Stops (b ++ rest)) : Prints (a ++ b) (ts ++ us) :=
  fun rest hrest => by
    rw [List.append_assoc, ha _ (hstops rest hrest), hb rest hrest, List.foldr_append]

theorem before {c : Char} (ha : Prints a ts) (hname : isNameChar c = false) (hdot : c ≠ '.')
    (hb : Prints (c :: b) us) : Prints (a ++ c :: b) (ts ++ us) :=
  ha.append hb fun rest _ => stops_cons hname hdot (b ++ rest)

theorem dots (ha : Prints a ts) : Prints (a ++ ['.', '.']) (ts ++ [.dots]) :=
  ha.append (token (t := .dots) trivial) fun rest _ => stops_dots rest

theorem blank (hb : Prints b us) : Prints (' ' :: b) us := fun rest hrest => by
  rw [List.cons_append, lexemes_blank (by decide), hb rest hrest]

theorem cons {t : Token} (hlegal : t.Legal) (hclosed : t.closed = true) (hb : Prints b us) :
    Prints (t.render.toList ++ b) (t :: us) := fun rest hrest => by
  have hopen : t.closed = false → Stops (b ++ rest) := fun h => by
    rw [hclosed] at h
    cases h
  rw [List.append_assoc, lexemes_render hlegal hopen, hb rest hrest, List.foldr_cons]

/-- Texts with a separator and a blank between them. -/
theorem intercalate {c : Char} {t : Token} (hrender : t.render.toList = [c]) (hlegal : t.Legal)
    (hclosed : t.closed = true) (hname : isNameChar c = false) (hdot : c ≠ '.')
    {texts : List (List Char)} {tss : List (List Token)} (h : List.Forall₂ Prints texts tss) :
    Prints ([c, ' '].intercalate texts) ([t].intercalate tss) := by
  induction h with
  | nil => exact nil
  | @cons a ts texts tss ha h ih =>
      cases h with
      | nil =>
          rw [List.intercalate_singleton, List.intercalate_singleton]
          exact ha
      | cons hb h =>
          have hrest := cons hlegal hclosed ih.blank
          rw [hrender] at hrest
          rw [List.intercalate_cons_cons, List.intercalate_cons_cons, List.append_assoc,
            List.append_assoc]
          exact ha.before hname hdot hrest

end Prints

end Factbase
