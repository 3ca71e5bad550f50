import Factbase.Proofs.Source.Cutting

/-!
# A text is tiled by its tokens

A text that can be cut into tokens is gap, lexeme, gap, lexeme, and so on
up to a last gap. `Tiles` says this without mentioning how the cutting is
done: what a gap is (`Gap`), how a token is spelled (`Token.SpelledBy`),
that its spelling does not go on behind it (`Token.EndsBefore`), and at
which line and column it stands (`Position.behind`), which is counted in
the text in front of it.

The tokens of a text are those that tile it, in both directions
(`Token.readAll_tiles`): what is cut off tiles the text, and whatever tiles
a text is cut off it.
-/

namespace Factbase

variable {c : Char} {cs word gap rest before : List Char} {t : Token} {ts : List Located}
  {here : Position}

/-! ## What tiles are -/

/-- A comment goes on up to the end of its line. -/
inductive IsComment : List Char → Prop
  | hash {body : List Char} (hline : '\n' ∉ body) : IsComment ('#' :: body)
  | slashes {body : List Char} (hline : '\n' ∉ body) : IsComment ('/' :: '/' :: body)

/-- What may stand between two tokens: white space, and comments with the ends of their
lines. -/
inductive Gap : List Char → Prop
  | nil : Gap []
  | blank {c : Char} {cs : List Char} (hblank : isBlank c = true) (h : Gap cs) : Gap (c :: cs)
  | comment {word cs : List Char} (hcomment : IsComment word) (h : Gap cs) : Gap (word ++ '\n' :: cs)

/-- A name starts with a letter or an underscore. It goes on with name characters, and over a
point only if one of them follows it. -/
structure IsName (word : List Char) : Prop where
  start : ∃ c ∈ word.head?, isNameStart c = true
  inner : ∀ before c after, word = before ++ c :: after →
    isNameChar c = true ∨ c = '.' ∧ ∃ d ∈ after.head?, isNameChar d = true

/-- The spellings of a token. The end of input has none. -/
def Token.SpelledBy (word : List Char) : Token → Prop
  | .name text => word = text.toList ∧ IsName word ∧ word ≠ ['_']
  | .nat n => word ≠ [] ∧ (∀ c ∈ word, c.isDigit = true) ∧ Nat.ofDigitChars 10 word 0 = n.toNat
  | .string text => ∃ body, word = '"' :: body ++ ['"'] ∧ Unescapes body text.toList
  | .endOfInput => False
  | t => word = t.render.toList

/-- The text behind a token does not carry it on: a name does not go on with a name character,
nor over a point in front of one, and a number does not go on with a digit. -/
def Token.EndsBefore (rest : List Char) : Token → Prop
  | .name _ | .wild => (∀ c ∈ rest.head?, isNameChar c = false) ∧
      ∀ c cs, rest = '.' :: c :: cs → isNameChar c = false
  | .nat _ => ∀ c ∈ rest.head?, c.isDigit = false
  | _ => True

/-- The place right behind a text: one line more than there are ends of lines in it, and one
column more than there are characters since the last of them. -/
def Position.behind (cs : List Char) : Position :=
  ⟨1 + cs.count '\n', 1 + (cs.reverse.takeWhile (· ≠ '\n')).length⟩

/-- The tokens that tile a text which stands behind another one: a gap in front of each, and at
last a gap that may end in a comment without the end of its line. -/
inductive Tiles : List Char → List Char → List Located → Prop
  | finish {before gap tail : List Char} (hgap : Gap gap) (htail : tail = [] ∨ IsComment tail) :
      Tiles before (gap ++ tail) [⟨.endOfInput, .behind (before ++ gap)⟩]
  | token {before gap word rest : List Char} {t : Token} {ts : List Located} (hgap : Gap gap)
      (hword : t.SpelledBy word) (hends : t.EndsBefore rest)
      (h : Tiles (before ++ gap ++ word) rest ts) :
      Tiles before (gap ++ word ++ rest) (⟨t, .behind (before ++ gap)⟩ :: ts)

/-! ## Places -/

namespace Position

theorem behind_newline (cs : List Char) : behind (cs ++ ['\n']) = (behind cs).down := by
  simp [behind, down, Nat.add_assoc]

theorem behind_word (before : List Char) (h : '\n' ∉ word) :
    behind (before ++ word) = (behind before).right word.length := by
  have hall : ∀ c ∈ word.reverse, decide (c ≠ '\n') = true := fun c hc => by
    simpa using fun heq : c = '\n' => h (heq ▸ List.mem_reverse.mp hc)
  simp only [behind, right, List.count_append, List.count_eq_zero_of_not_mem h,
    List.reverse_append, List.takeWhile_append_of_pos hall, List.length_append, List.length_reverse]
  congr 1
  omega

/-- Behind the end of a line it does not matter what stood on that line. -/
theorem behind_line (before : List Char) (h : '\n' ∉ word) :
    behind (before ++ word ++ ['\n']) = (behind before).down := by
  rw [behind_newline, behind_word before h]
  rfl

end Position

/-! ## Gaps -/

namespace IsComment

theorem not_newline (h : IsComment word) : '\n' ∉ word := by
  cases h <;> simpa

theorem starts (h : IsComment word) (rest : List Char) : startsComment (word ++ rest) = true := by
  cases h <;> rfl

/-- What starts as a comment is one up to the end of the line. -/
theorem of_startsComment (h : startsComment cs = true) : IsComment (cs.takeWhile (· ≠ '\n')) := by
  have hline (cs : List Char) : '\n' ∉ cs.takeWhile (· ≠ '\n') := fun hmem => by
    simpa using List.all_eq_true.mp List.all_takeWhile _ hmem
  unfold startsComment at h
  split at h
  · exact .hash (hline _)
  · exact .slashes (hline _)
  · cases h

/-- A comment is passed over, and the place does not move. -/
theorem readFrom (h : IsComment word) (here : Position) (rest : List Char) :
    Token.readFrom here (word ++ rest) = Token.readFrom here (rest.dropWhile (· ≠ '\n')) := by
  have hstarts := h.starts rest
  have hline := h.not_newline
  have hblank : ∃ c cs, word = c :: cs ∧ c ≠ '\n' ∧ isBlank c = false := by
    cases h <;> exact ⟨_, _, rfl, by decide, by decide⟩
  obtain ⟨c, cs, rfl, hc, hblank⟩ := hblank
  have hall : ∀ d ∈ cs, decide (d ≠ '\n') = true := fun d hd => by
    simpa using fun heq : d = '\n' => hline (List.mem_cons_of_mem c (heq ▸ hd))
  rw [List.cons_append] at hstarts ⊢
  rw [Token.readFrom, if_neg hc, hblank, if_neg Bool.false_ne_true, if_pos hstarts,
    List.dropWhile_append_of_pos hall]

/-- A comment and the end of its line lead to the next line. -/
theorem readFrom_line (h : IsComment word) (here : Position) (rest : List Char) :
    Token.readFrom here (word ++ '\n' :: rest) = Token.readFrom here.down rest := by
  rw [h.readFrom here, List.dropWhile_cons_of_neg (by simp), Token.readFrom, if_pos rfl]

end IsComment

namespace Gap

theorem append (h : Gap gap) (hrest : Gap rest) : Gap (gap ++ rest) := by
  induction h with
  | nil => exact hrest
  | blank hblank _ ih => exact .blank hblank ih
  | comment hcomment _ ih =>
      rw [List.append_assoc]
      exact .comment hcomment ih

/-- A gap is passed over, and what comes next is read at the place behind it. -/
theorem readFrom (h : Gap gap) (before rest : List Char) :
    Token.readFrom (.behind before) (gap ++ rest) = Token.readFrom (.behind (before ++ gap)) rest := by
  induction h generalizing before with
  | nil => rw [List.append_nil, List.nil_append]
  | @blank c cs hblank _ ih =>
      have hnext := ih (before ++ [c])
      rw [List.append_assoc, List.singleton_append] at hnext
      rw [List.cons_append, Token.readFrom, ← hnext]
      by_cases hline : c = '\n'
      · rw [if_pos hline, hline, Position.behind_newline]
      · rw [if_neg hline, if_pos hblank,
          Position.behind_word before (by simpa using Ne.symm hline), List.length_singleton]
  | @comment word cs hcomment _ ih =>
      have hnext := ih (before ++ word ++ ['\n'])
      rw [Position.behind_line before hcomment.not_newline] at hnext
      rw [List.append_assoc, List.cons_append, hcomment.readFrom_line, hnext]
      simp

end Gap

/-! ## Spellings -/

theorem nameChars_eq_self_iff : nameChars cs = cs ↔ ∀ before c after, cs = before ++ c :: after →
    isNameChar c = true ∨ c = '.' ∧ ∃ d ∈ after.head?, isNameChar d = true := by
  induction cs using nameChars.induct with
  | case1 => simp [nameChars]
  | case2 c hc =>
      refine iff_of_true (by simp [nameChars, hc]) fun before d after heq => .inl ?_
      have hd : d ∈ [c] := heq ▸ List.mem_append_right before (List.mem_cons_self ..)
      rwa [List.mem_singleton.mp hd]
  | case3 c hc =>
      refine iff_of_false (by simp [nameChars, hc]) fun h => ?_
      simpa [hc] using h [] c [] rfl
  | case4 c d rest hc ih =>
      rw [nameChars, if_pos hc, List.cons.injEq, and_iff_right rfl, ih]
      constructor
      · intro h before e after heq
        cases before with
        | nil =>
            obtain ⟨rfl, rfl⟩ := List.cons.inj heq
            simpa using hc
        | cons b before => exact h before e after (List.cons.inj heq).2
      · intro h before e after heq
        exact h (c :: before) e after (congrArg (c :: ·) heq)
  | case5 c d rest hc =>
      refine iff_of_false (by simp [nameChars, hc]) fun h => hc ?_
      simpa using h [] c (d :: rest) rfl

theorem stops_iff : Stops rest ↔ (∀ c ∈ rest.head?, isNameChar c = false) ∧
    ∀ c cs, rest = '.' :: c :: cs → isNameChar c = false := by
  match rest with
  | [] => simp [Stops, nameChars]
  | [c] => simp [Stops, nameChars]
  | c :: d :: rest =>
      simp only [Stops, nameChars]
      grind

namespace Token

theorem stopsAt_iff : t.StopsAt rest ↔ t.EndsBefore rest := by
  cases t with
  | name _ => exact stops_iff
  | wild => exact stops_iff
  | nat _ =>
      cases rest with
      | nil => simp [StopsAt, EndsBefore]
      | cons c rest => simp [StopsAt, EndsBefore, List.takeWhile_cons]
  | _ => exact Iff.rfl

namespace SpelledBy

/-- A spelling has a first character, which is no white space. -/
theorem exists_cons (h : t.SpelledBy word) : ∃ c cs, word = c :: cs ∧ isBlank c = false := by
  cases t with
  | name text =>
      obtain ⟨-, ⟨⟨c, hc, hstart⟩, -⟩, -⟩ := h
      obtain ⟨cs, rfl⟩ := List.head?_eq_some_iff.mp hc
      exact ⟨c, cs, rfl, isBlank_eq_false (isNameChar_of_isNameStart hstart)⟩
  | nat n =>
      obtain ⟨hne, hdigits, -⟩ := h
      obtain ⟨c, cs, rfl⟩ := List.exists_cons_of_ne_nil hne
      have hdigit := hdigits c (List.mem_cons_self ..)
      exact ⟨c, cs, rfl, isBlank_eq_false (by simp [isNameChar, Char.isAlphanum, hdigit])⟩
  | string text =>
      obtain ⟨body, rfl, -⟩ := h
      exact ⟨_, _, rfl, by decide⟩
  | endOfInput => exact h.elim
  | _ => exact ⟨_, _, h, by decide⟩

end SpelledBy

end Token

/-- No line ends within a string. -/
theorem Unescapes.not_newline {body text : List Char} (h : Unescapes body text) : '\n' ∉ body := by
  induction h with
  | nil => simp
  | @escape e c body text he _ ih =>
      have hline : e ≠ '\n' := by
        rintro rfl
        cases he
      simp [ih, Ne.symm hline]
  | plain _ _ hline _ ih => simp [ih, Ne.symm hline]

/-- No line ends within a token. -/
theorem Token.SpelledBy.not_newline (h : t.SpelledBy word) : '\n' ∉ word := by
  cases t with
  | name text =>
      obtain ⟨-, ⟨-, hinner⟩, -⟩ := h
      intro hmem
      obtain ⟨before, after, heq⟩ := List.append_of_mem hmem
      rcases hinner before '\n' after heq with hchar | ⟨hdot, -⟩
      · exact absurd hchar (by decide)
      · exact absurd hdot (by decide)
  | nat n => exact fun hmem => absurd (h.2.1 _ hmem) (by decide)
  | string text =>
      obtain ⟨body, rfl, hbody⟩ := h
      simp [hbody.not_newline]
  | endOfInput => exact h.elim
  | _ =>
      have hword : word = _ := h
      rw [hword]
      decide

/-! ## One token -/

theorem isName_iff (hword : word = c :: cs) :
    IsName word ↔ isNameStart c = true ∧ nameChars word = word := by
  subst hword
  constructor
  · rintro ⟨⟨d, hd, hstart⟩, hinner⟩
    obtain rfl : c = d := by simpa using hd
    exact ⟨hstart, nameChars_eq_self_iff.mpr hinner⟩
  · rintro ⟨hstart, hname⟩
    exact ⟨⟨c, rfl, hstart⟩, nameChars_eq_self_iff.mp hname⟩

/-- A spelling that is not carried on is read as what it is the spelling of. -/
theorem Lexeme.read_spelled (hword : t.SpelledBy word) (hends : t.EndsBefore rest)
    (here : Position) : Lexeme.read here (word ++ rest) = .ok (t, word.length) := by
  obtain ⟨c, cs, hcons, -⟩ := hword.exists_cons
  cases t with
  | name text =>
      obtain ⟨htext, hname, hwild⟩ := hword
      obtain ⟨hstart, hchars⟩ := (isName_iff hcons).mp hname
      have hread := nameChars_append hchars (Token.stopsAt_iff.mpr hends : Stops rest)
      rw [hcons, List.cons_append] at hread ⊢
      rw [Lexeme.read_word (isNameChar_of_isNameStart hstart), not_isDigit_of_isNameStart hstart,
        if_neg Bool.false_ne_true, if_pos hstart, hread, ← hcons, if_neg hwild, htext,
        String.ofList_toList]
  | wild =>
      have hword : word = ['_'] := hword
      have hread : nameChars (['_'] ++ rest) = ['_'] :=
        nameChars_append rfl (Token.stopsAt_iff.mpr hends : Stops rest)
      rw [List.singleton_append] at hread
      rw [hword, List.singleton_append, Lexeme.read_word (by decide), hread]
      rfl
  | nat n =>
      obtain ⟨hne, hdigits, hvalue⟩ := hword
      have hstops : rest.takeWhile Char.isDigit = [] :=
        (Token.stopsAt_iff (t := .nat n)).mpr hends
      have htake : (word ++ rest).takeWhile Char.isDigit = word := by
        rw [List.takeWhile_append_of_pos hdigits, hstops, List.append_nil]
      have hread : readDigits? (2 ^ 64) word = some n.toNat := by
        have hempty : word.isEmpty = false := by simpa using hne
        have hlt : n.toNat < 2 ^ 64 := n.toNat_lt
        rw [Nat.ofDigitChars_eq_foldl] at hvalue
        rw [readDigits?, show digitsValue word = n.toNat from hvalue, hempty,
          List.all_eq_true.mpr hdigits]
        simp [hlt]
      have hdigit : c.isDigit = true := hdigits c (hcons ▸ List.mem_cons_self ..)
      rw [hcons, List.cons_append] at htake ⊢
      rw [Lexeme.read_word (by simp [isNameChar, Char.isAlphanum, hdigit]), if_pos hdigit, htake,
        ← hcons, hread]
      simp
  | string text =>
      obtain ⟨body, rfl, hbody⟩ := hword
      rw [List.cons_append, List.cons_append, List.append_assoc, Lexeme.read]
      refine Outcome.bind_ok_iff.mpr ⟨_, hbody.read _ _ rest, ?_⟩
      simp [pure, Except.pure]
  | endOfInput => exact hword.elim
  | _ =>
      have hword : word = _ := hword
      rw [hword]
      rfl

/-- What is read up to its end as a token is a spelling of it. -/
theorem Lexeme.spelledBy_of_read (h : Lexeme.read here (c :: cs) = .ok (t, (c :: cs).length)) :
    t.SpelledBy (c :: cs) := by
  have hread := h
  unfold Lexeme.read at h
  split at h
  · rename_i heq
    cases heq
  · rename_i rest heq
    obtain ⟨rfl, hlen⟩ := Prod.mk.inj (Except.ok.inj h)
    rw [heq] at hlen ⊢
    obtain rfl : rest = [] := List.length_eq_zero_iff.mp (by simpa using hlen.symm)
    rfl
  · rename_i rest heq
    obtain ⟨rfl, hlen⟩ := Prod.mk.inj (Except.ok.inj h)
    rw [heq] at hlen ⊢
    obtain rfl : rest = [] := List.length_eq_zero_iff.mp (by simpa using hlen.symm)
    rfl
  · rename_i rest heq
    obtain ⟨⟨text, taken⟩, hstring, hout⟩ := Outcome.bind_ok_iff.mp h
    obtain ⟨rfl, hlen⟩ := Prod.mk.inj (Except.ok.inj hout)
    obtain ⟨body, behind, rfl, hbody, rfl⟩ := unescapes_of_read hstring
    rw [heq] at hlen ⊢
    obtain rfl : behind = [] := by simpa using hlen
    exact ⟨body, rfl, by rwa [String.toList_ofList]⟩
  · rename_i c' cs' _ _ _ heq
    obtain ⟨rfl, rfl⟩ := List.cons.inj heq
    split at h
    · rename_i token htoken
      obtain ⟨rfl, hlen⟩ := Prod.mk.inj (Except.ok.inj h)
      obtain rfl : cs = [] := List.length_eq_zero_iff.mp (by simpa using hlen.symm)
      unfold punctuation? at htoken
      split at htoken <;> cases htoken <;> rfl
    · split at h
      · rename_i hdigit
        dsimp only at h
        split at h
        · rename_i n hn
          obtain ⟨rfl, hlen⟩ := Prod.mk.inj (Except.ok.inj h)
          have hall : (c :: cs).takeWhile Char.isDigit = c :: cs :=
            (List.takeWhile_prefix Char.isDigit).eq_of_length hlen
          rw [hall] at hn
          unfold readDigits? at hn
          split at hn
          · rename_i hgood
            cases hn
            simp only [Bool.and_eq_true, decide_eq_true_eq, List.all_eq_true] at hgood
            refine ⟨List.cons_ne_nil _ _, hgood.1.2, ?_⟩
            rw [Nat.ofDigitChars_eq_foldl]
            exact (UInt64.toNat_ofNat_of_lt' hgood.2).symm
          · cases hn
        · cases h
      · split at h
        · rename_i hstart
          obtain ⟨ht, hlen⟩ := Prod.mk.inj (Except.ok.inj h)
          obtain ⟨behind, hbehind, -⟩ := exists_nameChars (c :: cs)
          have hnil : behind = [] := by
            have := congrArg List.length hbehind
            rw [List.length_append, hlen] at this
            exact List.length_eq_zero_iff.mp (by omega)
          rw [hnil, List.append_nil] at hbehind
          rw [← hbehind] at ht
          split at ht
          · rename_i hwild
            rw [← ht, hwild]
            rfl
          · rename_i hwild
            rw [← ht]
            exact ⟨(String.toList_ofList ..).symm, (isName_iff rfl).mpr ⟨hstart, hbehind.symm⟩, hwild⟩
        · cases h

/-- A token that is read is spelled by the characters that are taken, and ends there. -/
theorem Lexeme.spelled_of_read {n : Nat} (h : Lexeme.read here (c :: cs) = .ok (t, n)) :
    ∃ word rest, c :: cs = word ++ rest ∧ t.SpelledBy word ∧ t.EndsBefore rest ∧ word.length = n := by
  obtain ⟨word, rest, ⟨htext, hfronts, hstops, hagain⟩, hlen⟩ := Lexeme.splits_of_read h
  refine ⟨word, rest, htext, ?_, Token.stopsAt_iff.mp hstops, hlen⟩
  cases word with
  | nil => exact hfronts.elim
  | cons d word =>
      have hself := hagain [] (by cases t <;> first | rfl | trivial)
      rw [List.append_nil] at hself
      exact Lexeme.spelledBy_of_read hself

/-! ## All tokens -/

/-- A token is read, and then those of the text behind it. -/
theorem Token.SpelledBy.readFrom (hword : t.SpelledBy word) (hends : t.EndsBefore rest)
    (before : List Char) :
    Token.readFrom (.behind before) (word ++ rest) =
      (⟨t, .behind before⟩ :: ·) <$> Token.readFrom (.behind (before ++ word)) rest := by
  have hread := Lexeme.read_spelled hword hends (.behind before)
  rw [Position.behind_word before hword.not_newline]
  obtain ⟨c, cs, rfl, hblank⟩ := hword.exists_cons
  have hline : c ≠ '\n' := by
    rintro rfl
    cases hblank
  rw [List.cons_append] at hread ⊢
  rw [Token.readFrom, if_neg hline, hblank, if_neg Bool.false_ne_true,
    Cuts.startsComment_read hread, if_neg Bool.false_ne_true, hread]
  have hdrop : (cs ++ rest).drop ((c :: cs).length - 1) = rest := List.drop_left
  show (readFrom _ ((cs ++ rest).drop ((c :: cs).length - 1)) >>= fun tokens =>
    pure (⟨t, .behind before⟩ :: tokens)) = _
  rw [hdrop, map_eq_pure_bind]

namespace Tiles

theorem skip (hgap : Gap gap) (h : Tiles (before ++ gap) cs ts) : Tiles before (gap ++ cs) ts := by
  cases h with
  | finish hgap' htail =>
      rw [← List.append_assoc, List.append_assoc before]
      exact .finish (hgap.append hgap') htail
  | token hgap' hword hends h =>
      rw [List.append_assoc before] at h
      rw [← List.append_assoc, ← List.append_assoc, List.append_assoc before]
      exact .token (hgap.append hgap') hword hends h

/-- What tiles a text is read off it. -/
theorem readFrom (h : Tiles before cs ts) : Token.readFrom (.behind before) cs = .ok ts := by
  induction h with
  | @finish before gap tail hgap htail =>
      rw [hgap.readFrom]
      rcases htail with rfl | hcomment
      · rw [Token.readFrom]
      · have hend := hcomment.readFrom (.behind (before ++ gap)) []
        rw [List.append_nil] at hend
        rw [hend, List.dropWhile_nil, Token.readFrom]
  | token hgap hword hends _ ih =>
      rw [List.append_assoc, hgap.readFrom, hword.readFrom hends, ih]
      rfl

/-- What is read off a text tiles it. The recursion is on the length of the text, since a
comment is passed over at once. -/
theorem of_readFrom (before cs : List Char) (h : Token.readFrom (.behind before) cs = .ok ts) :
    Tiles before cs ts := by
  induction hn : cs.length using Nat.strongRecOn generalizing before cs ts with
  | ind n ih =>
    subst hn
    cases cs with
    | nil =>
        rw [Token.readFrom] at h
        cases h
        have hfinish : Tiles before ([] ++ []) _ := .finish .nil (.inl rfl)
        simpa using hfinish
    | cons c cs =>
        by_cases hblank : isBlank c = true
        · have hgap : Gap [c] := .blank hblank .nil
          have hskip := hgap.readFrom before cs
          rw [List.singleton_append, h] at hskip
          exact .skip hgap (ih cs.length (by simp) (before ++ [c]) cs hskip.symm rfl)
        by_cases hcomment : startsComment (c :: cs) = true
        · have hword := IsComment.of_startsComment hcomment
          have hsplit := List.takeWhile_append_dropWhile (p := (· ≠ '\n')) (l := c :: cs)
          have hhead := List.head?_dropWhile_not (· ≠ '\n') (c :: cs)
          generalize (c :: cs).takeWhile (· ≠ '\n') = word at hword hsplit
          generalize (c :: cs).dropWhile (· ≠ '\n') = tail at hsplit hhead
          cases tail with
          | nil =>
              have hend := hword.readFrom (.behind before) []
              rw [hsplit, h, List.dropWhile_nil, Token.readFrom] at hend
              cases hend
              rw [← hsplit, List.append_nil]
              have hfinish : Tiles before ([] ++ word) _ := .finish .nil (.inr hword)
              simpa using hfinish
          | cons d rest =>
              obtain rfl : d = '\n' := by simpa using hhead
              have hgap : Gap (word ++ ['\n']) := .comment hword .nil
              have hskip := hgap.readFrom before rest
              rw [List.append_assoc, List.singleton_append, hsplit, h] at hskip
              have hrest := Tiles.skip hgap (ih rest.length ?_ _ rest hskip.symm rfl)
              · rwa [List.append_assoc, List.singleton_append, hsplit] at hrest
              · rw [← hsplit, List.length_append, List.length_cons]
                omega
        · have hread := h
          have hline : c ≠ '\n' := by
            rintro rfl
            exact hblank (by decide)
          rw [Token.readFrom, if_neg hline, if_neg hblank, if_neg hcomment] at hread
          obtain ⟨⟨t, n⟩, hread, -⟩ := Outcome.bind_ok_iff.mp hread
          obtain ⟨word, rest, heq, hword, hends, -⟩ := Lexeme.spelled_of_read hread
          rw [heq, hword.readFrom hends] at h
          obtain ⟨ts, hts, rfl⟩ := Outcome.map_ok_iff.mp h
          have hlt : rest.length < (c :: cs).length := by
            obtain ⟨d, ds, rfl, -⟩ := hword.exists_cons
            rw [heq, List.length_append, List.length_cons]
            omega
          have hrest := ih rest.length hlt (before ++ word) rest hts rfl
          rw [heq]
          have hrest : Tiles (before ++ [] ++ word) rest ts := by simpa using hrest
          simpa using hrest.token .nil hword hends

end Tiles

/-- The tokens of a text are those that tile it. -/
theorem Token.readAll_tiles (text : String) (ts : List Located) :
    Token.readAll text = .ok ts ↔ Tiles [] text.toList ts :=
  ⟨fun h => .of_readFrom [] text.toList h, fun h => h.readFrom⟩

end Factbase
