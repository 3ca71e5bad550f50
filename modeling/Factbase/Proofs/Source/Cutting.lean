import Factbase.Proofs.Source.Lexing

/-!
# Cutting tokens off the front of a text

`Cuts cs ts rest` says that the tokens `ts` are cut off the front of `cs`
one after the other, and that `rest` stands right behind the last of them.
The tokens are read with all of the text in view, so none of them is a
part of a longer one (`Token.StopsAt`). A token sees so little of what
comes after it that the text behind the last one can be changed
(`Cuts.exists_before`), and a semicolon can stand between two tokens
whatever they are (`Cuts.lexemes_semicolon`).
-/

namespace Factbase

variable {c : Char} {cs rest rest' before after : List Char} {t : Token} {ts : List Token} {n : Nat}
  {here : Position}

/-! ## Where a token ends -/

/-- The text behind a token does not carry it on. -/
def Token.StopsAt : Token → List Char → Prop
  | .name _, rest | .wild, rest => Stops rest
  | .nat _, rest => rest.takeWhile Char.isDigit = []
  | _, _ => True

theorem Token.stopsAt_cons (t : Token) (hname : isNameChar c = false) (hdot : c ≠ '.')
    (cs : List Char) : t.StopsAt (c :: cs) := by
  have hdigit : c.isDigit = false := by
    simp only [isNameChar, Char.isAlphanum, Bool.or_eq_false_iff] at hname
    exact hname.1.2
  cases t with
  | name _ => exact stops_cons hname hdot cs
  | wild => exact stops_cons hname hdot cs
  | nat _ =>
      show List.takeWhile _ (c :: cs) = []
      rw [List.takeWhile_cons, hdigit, if_neg Bool.false_ne_true]
  | _ => trivial

/-- A text that starts as a token, white space or a comment does: a point stands there only in
front of another one. -/
def Fronts : List Char → Prop
  | '.' :: '.' :: _ => True
  | c :: _ => c ≠ '.'
  | [] => False

theorem fronts_cons (h : c ≠ '.') (cs : List Char) : Fronts (c :: cs) := by
  unfold Fronts
  split
  · trivial
  · rename_i heq
    cases heq
    exact h
  · rename_i heq
    cases heq

theorem Fronts.append (h : Fronts before) (cs : List Char) : Fronts (before ++ cs) := by
  unfold Fronts at h
  split at h
  · trivial
  · exact fronts_cons h _
  · exact h.elim

theorem fronts_name (h : isNameChar c = true) (cs : List Char) : Fronts (c :: cs) :=
  fronts_cons (by rintro rfl; exact absurd h (by decide)) cs

/-- Whether a token stops is seen in the front of what comes next. -/
theorem Token.StopsAt.replace (hbefore : Fronts before) (h : t.StopsAt (before ++ rest)) :
    t.StopsAt (before ++ rest') := by
  unfold Fronts at hbefore
  split at hbefore
  · cases t with
    | name _ => exact stops_dots _
    | wild => exact stops_dots _
    | nat _ => rfl
    | _ => trivial
  · rename_i c cs _
    cases t with
    | name _ => exact stops_cons (not_isNameChar_of_stops h) hbefore _
    | wild => exact stops_cons (not_isNameChar_of_stops h) hbefore _
    | nat _ =>
        have h : List.takeWhile _ (c :: (cs ++ rest)) = [] := h
        show List.takeWhile _ (c :: (cs ++ rest')) = []
        rw [List.takeWhile_cons] at h ⊢
        split at h
        · cases h
        · rename_i hdigit
          rw [if_neg hdigit]
    | _ => trivial
  · exact hbefore.elim

/-! ## One token -/

theorem exists_nameChars (cs : List Char) : ∃ rest, cs = nameChars cs ++ rest ∧ Stops rest := by
  induction cs using nameChars.induct with
  | case1 => exact ⟨[], rfl, rfl⟩
  | case2 c hc => exact ⟨[], by simp [nameChars, hc], rfl⟩
  | case3 c hc => exact ⟨[c], by simp [nameChars, hc], by simp [Stops, nameChars, hc]⟩
  | case4 c d rest hc ih =>
      obtain ⟨rest', hrest, hstops⟩ := ih
      exact ⟨rest', by rw [nameChars, if_pos hc, List.cons_append, ← hrest], hstops⟩
  | case5 c d rest hc =>
      have hnil : nameChars (c :: d :: rest) = [] := by rw [nameChars, if_neg hc]
      exact ⟨c :: d :: rest, by rw [hnil]; rfl, hnil⟩

/-- What stands between the quotes of a string, and the text that it is the spelling of. -/
inductive Unescapes : List Char → List Char → Prop
  | nil : Unescapes [] []
  | escape {e c : Char} {body text : List Char} (he : stringEscape? e = some c)
      (h : Unescapes body text) : Unescapes ('\\' :: e :: body) (c :: text)
  | plain {c : Char} {body text : List Char} (hquote : c ≠ '"') (hslash : c ≠ '\\')
      (hline : c ≠ '\n') (h : Unescapes body text) : Unescapes (c :: body) (c :: text)

/-- A string is read up to its closing quote, whatever stands behind it. -/
theorem Unescapes.read {body text : List Char} (h : Unescapes body text) (start here : Position)
    (rest : List Char) :
    readString start here (body ++ '"' :: rest) = .ok (text, body.length + 1) := by
  induction h generalizing here with
  | nil => rw [List.nil_append, readString]; rfl
  | escape he _ ih =>
      rw [List.cons_append, List.cons_append, readString, he]
      exact Outcome.bind_ok_iff.mpr ⟨_, ih (here.right 2), rfl⟩
  | plain hquote hslash hline _ ih =>
      rw [List.cons_append, readString]
      · exact Outcome.bind_ok_iff.mpr ⟨_, ih (here.right 1), rfl⟩
      · exact hquote
      · exact fun hc => absurd hc hslash
      · exact fun _ _ hc => absurd hc hslash
      · exact hline

theorem unescapes_of_read {start here : Position} {text : List Char}
    (h : readString start here cs = .ok (text, n)) :
    ∃ body rest, cs = body ++ '"' :: rest ∧ Unescapes body text ∧ n = body.length + 1 := by
  fun_induction readString start here cs generalizing text n with
  | case1 here => cases h
  | case2 here rest =>
      cases h
      exact ⟨[], rest, rfl, .nil, rfl⟩
  | case3 here => cases h
  | case4 here e rest hnone => cases h
  | case5 here e rest c hsome ih =>
      obtain ⟨⟨text, taken⟩, hread, hout⟩ := Outcome.bind_ok_iff.mp h
      cases hout
      obtain ⟨body, rest, rfl, hbody, rfl⟩ := ih hread
      exact ⟨'\\' :: e :: body, rest, rfl, .escape hsome hbody, rfl⟩
  | case6 here rest => cases h
  | case7 here c rest hquote hend hescape hline ih =>
      obtain ⟨⟨text, taken⟩, hread, hout⟩ := Outcome.bind_ok_iff.mp h
      cases hout
      obtain ⟨body, rest, rfl, hbody, rfl⟩ := ih hread
      refine ⟨c :: body, rest, rfl, .plain hquote ?_ hline hbody, rfl⟩
      rintro rfl
      cases hword : body ++ '"' :: rest with
      | nil => exact hend rfl hword
      | cons e more => exact hescape e more rfl hword

/-- How a token is cut off: its characters, where it stops, and that it is read again in front of
any text that does not carry it on. -/
structure Lexeme.Splits (here : Position) (cs : List Char) (t : Token) (word rest : List Char) :
    Prop where
  text : cs = word ++ rest
  fronts : Fronts word
  stops : t.StopsAt rest
  again : ∀ rest', t.StopsAt rest' → Lexeme.read here (word ++ rest') = .ok (t, word.length)

/-- A number is read up to the first character that is no digit. -/
theorem Lexeme.splits_nat (hdigit : c.isDigit = true)
    (h : Lexeme.read here (c :: cs) = .ok (t, n)) :
    ∃ word rest, Lexeme.Splits here (c :: cs) t word rest ∧ word.length = n := by
  have hchar : isNameChar c = true := by simp [isNameChar, Char.isAlphanum, hdigit]
  have hword : (c :: cs).takeWhile Char.isDigit = c :: cs.takeWhile Char.isDigit := by
    rw [List.takeWhile_cons, if_pos hdigit]
  have hagain {rest' : List Char} (hrest' : rest'.takeWhile Char.isDigit = []) :
      (c :: (cs.takeWhile Char.isDigit ++ rest')).takeWhile Char.isDigit =
        c :: cs.takeWhile Char.isDigit := by
    rw [List.takeWhile_cons, if_pos hdigit, List.takeWhile_append_of_pos, hrest', List.append_nil]
    exact List.all_eq_true.mp List.all_takeWhile
  have hstops : (cs.dropWhile Char.isDigit).takeWhile Char.isDigit = [] := by
    have hhead := List.head?_dropWhile_not Char.isDigit cs
    cases hdrop : cs.dropWhile Char.isDigit with
    | nil => rfl
    | cons d rest =>
        rw [hdrop] at hhead
        rw [List.takeWhile_cons, hhead, if_neg Bool.false_ne_true]
  rw [Lexeme.read_word hchar, if_pos hdigit, hword] at h
  cases hread : readDigits? (2 ^ 64) (c :: cs.takeWhile Char.isDigit) with
  | none =>
      rw [hread] at h
      cases h
  | some m =>
      rw [hread] at h
      cases h
      refine ⟨c :: cs.takeWhile Char.isDigit, cs.dropWhile Char.isDigit,
        ⟨?_, fronts_name hchar _, hstops, fun rest' hrest' => ?_⟩, rfl⟩
      · rw [List.cons_append, List.takeWhile_append_dropWhile]
      · rw [List.cons_append, Lexeme.read_word hchar, if_pos hdigit, hagain hrest', hread]

/-- A name is read up to where it stops. -/
theorem Lexeme.splits_name (hstart : isNameStart c = true)
    (h : Lexeme.read here (c :: cs) = .ok (t, n)) :
    ∃ word rest, Lexeme.Splits here (c :: cs) t word rest ∧ word.length = n := by
  have hchar := isNameChar_of_isNameStart hstart
  have hdigit := not_isDigit_of_isNameStart hstart
  obtain ⟨rest, hrest, hstops⟩ := exists_nameChars (c :: cs)
  obtain ⟨word, hword⟩ : ∃ word, nameChars (c :: cs) = c :: word := by
    cases cs <;> simp [nameChars, hchar]
  have hname : nameChars (c :: word) = c :: word := hword ▸ nameChars_nameChars (c :: cs)
  rw [Lexeme.read_word hchar, hdigit, if_neg Bool.false_ne_true, if_pos hstart, hword] at h
  cases h
  have hend {rest : List Char} :
      Token.StopsAt (if c :: word = ['_'] then .wild else .name (String.ofList (c :: word))) rest ↔
        Stops rest := by
    split <;> rfl
  refine ⟨c :: word, rest, ⟨hword ▸ hrest, fronts_name hchar _, hend.mpr hstops,
    fun rest' hrest' => ?_⟩, rfl⟩
  have hagain : nameChars (c :: (word ++ rest')) = c :: word :=
    nameChars_append hname (hend.mp hrest')
  rw [List.cons_append, Lexeme.read_word hchar, hdigit, if_neg Bool.false_ne_true, if_pos hstart,
    hagain]

theorem Lexeme.splits_of_read (h : Lexeme.read here (c :: cs) = .ok (t, n)) :
    ∃ word rest, Lexeme.Splits here (c :: cs) t word rest ∧ word.length = n := by
  have hread := h
  unfold Lexeme.read at h
  split at h
  · rename_i heq
    cases heq
  · rename_i cs heq
    cases h
    exact ⟨['-', '>'], cs, ⟨heq, by simp [Fronts], trivial, fun _ _ => rfl⟩, rfl⟩
  · rename_i cs heq
    cases h
    exact ⟨['.', '.'], cs, ⟨heq, trivial, trivial, fun _ _ => rfl⟩, rfl⟩
  · rename_i cs heq
    obtain ⟨⟨text, taken⟩, hstring, hout⟩ := Outcome.bind_ok_iff.mp h
    cases hout
    obtain ⟨body, rest, rfl, hbody, rfl⟩ := unescapes_of_read hstring
    refine ⟨'"' :: (body ++ ['"']), rest, ⟨by simp [heq], by simp [Fronts], trivial,
      fun rest' _ => ?_⟩, by simp⟩
    rw [List.cons_append, List.append_assoc, Lexeme.read]
    exact Outcome.bind_ok_iff.mpr ⟨_, hbody.read _ _ rest', by simp [pure, Except.pure]⟩
  · rename_i c' cs' hquote hdots harrow heq
    cases heq
    split at h
    · rename_i token htoken
      cases h
      refine ⟨[c], cs, ⟨rfl, ?_, ?_, ?_⟩, rfl⟩ <;> unfold punctuation? at htoken <;>
        split at htoken <;> cases htoken <;> first | trivial | exact fun _ _ => rfl | simp [Fronts]
    · split at h
      · rename_i hdigit
        exact Lexeme.splits_nat hdigit hread
      · split at h
        · rename_i hstart
          exact Lexeme.splits_name hstart hread
        · cases h

/-! ## Many tokens -/

/-- The tokens that are cut off the front of a text, up to the end of the last one, and the text
behind it. -/
inductive Cuts : List Char → List Token → List Char → Prop where
  | done (rest : List Char) : Cuts rest [] rest
  | blank {c : Char} {cs rest : List Char} {t : Token} {ts : List Token} (hblank : isBlank c = true)
      (h : Cuts cs (t :: ts) rest) : Cuts (c :: cs) (t :: ts) rest
  | comment {c : Char} {cs rest : List Char} {t : Token} {ts : List Token}
      (hblank : isBlank c = false) (hcomment : startsComment (c :: cs) = true)
      (h : Cuts (cs.dropWhile (· ≠ '\n')) (t :: ts) rest) : Cuts (c :: cs) (t :: ts) rest
  | token {c : Char} {cs rest : List Char} {t : Token} {ts : List Token} {n : Nat}
      (hblank : isBlank c = false) (hcomment : startsComment (c :: cs) = false)
      (hread : Lexeme.read .start (c :: cs) = .ok (t, n)) (h : Cuts (cs.drop (n - 1)) ts rest) :
      Cuts (c :: cs) (t :: ts) rest

namespace Cuts

theorem lexemes_eq (h : Cuts cs ts rest) : lexemes cs = (lexemes rest).map (ts ++ ·) := by
  induction h with
  | done rest => simp
  | blank hblank _ ih => rw [lexemes_blank hblank, ih]
  | comment hblank hcomment _ ih => rw [lexemes_comment hblank hcomment, ih]
  | token hblank hcomment hread _ ih =>
      rw [lexemes_cons hblank hcomment, hread]
      simp [Except.toOption, ih, Function.comp_def]

/-- What a comment starts with is no token. -/
theorem startsComment_read (h : Lexeme.read here (c :: cs) = .ok (t, n)) (cs' : List Char) :
    startsComment (c :: cs') = false := by
  unfold startsComment
  split
  · rename_i heq
    cases heq
    cases h
  · rename_i heq
    cases heq
    cases h
  · rfl

/-- A comment goes on up to the end of its line, whatever comes after that. -/
theorem comment_replace (hcomment : startsComment (c :: cs) = true) (hne : before ≠ [])
    (hdrop : cs.dropWhile (· ≠ '\n') = before ++ rest) (rest' : List Char) :
    startsComment (c :: (cs.takeWhile (· ≠ '\n') ++ (before ++ rest'))) = true ∧
      (cs.takeWhile (· ≠ '\n') ++ (before ++ rest')).dropWhile (· ≠ '\n') = before ++ rest' := by
  constructor
  · unfold startsComment at hcomment
    split at hcomment
    · rename_i heq
      cases heq
      rfl
    · rename_i heq
      cases heq
      rfl
    · cases hcomment
  · rw [List.dropWhile_append_of_pos (List.all_eq_true.mp List.all_takeWhile)]
    have hhead := List.head?_dropWhile_not (· ≠ '\n') cs
    cases before with
    | nil => exact absurd rfl hne
    | cons d before =>
        rw [hdrop] at hhead
        rw [List.cons_append, List.dropWhile_cons, if_neg]
        simpa using hhead

/-- The text behind the last token can be changed, if the last token still stops there. -/
theorem exists_before (h : Cuts cs ts rest) (hne : ts ≠ []) :
    ∃ before, cs = before ++ rest ∧ Fronts before ∧
      ∀ rest', (∀ t ∈ ts.getLast?, t.StopsAt rest → t.StopsAt rest') →
        Cuts (before ++ rest') ts rest' := by
  induction h with
  | done rest => exact absurd rfl hne
  | @blank c cs rest t ts hblank _ ih =>
      obtain ⟨before, rfl, -, hagain⟩ := ih (List.cons_ne_nil _ _)
      refine ⟨c :: before, rfl, fronts_cons ?_ _, fun rest' hlast => .blank hblank (hagain rest' hlast)⟩
      rintro rfl
      cases hblank
  | @comment c cs rest t ts hblank hcomment _ ih =>
      obtain ⟨before, hbefore, hfronts, hagain⟩ := ih (List.cons_ne_nil _ _)
      have hnil : before ≠ [] := by
        rintro rfl
        exact hfronts
      refine ⟨c :: (cs.takeWhile (· ≠ '\n') ++ before), ?_, fronts_cons ?_ _, fun rest' hlast => ?_⟩
      · rw [List.cons_append, List.append_assoc, ← hbefore, List.takeWhile_append_dropWhile]
      · rintro rfl
        cases hcomment
      · obtain ⟨hstarts, hdrop⟩ := comment_replace hcomment hnil hbefore rest'
        rw [List.cons_append, List.append_assoc]
        exact .comment hblank hstarts (by rw [hdrop]; exact hagain rest' hlast)
  | @token c cs rest t ts n hblank hcomment hread h ih =>
      obtain ⟨word, behind, ⟨htext, hfronts, hstops, hagain⟩, rfl⟩ := Lexeme.splits_of_read hread
      cases word with
      | nil => exact hfronts.elim
      | cons d word =>
          obtain ⟨rfl, rfl⟩ := List.cons.inj htext
          have hdrop (behind : List Char) :
              (word ++ behind).drop ((c :: word).length - 1) = behind := List.drop_left
          simp only [List.append_eq, hdrop] at h ih
          have htoken {rest' : List Char} (behind' : List Char) (hstops' : t.StopsAt behind')
              (h' : Cuts behind' ts rest') : Cuts (c :: (word ++ behind')) (t :: ts) rest' :=
            .token hblank (startsComment_read hread _) (hagain behind' hstops')
              ((hdrop behind').symm ▸ h')
          cases ts with
          | nil =>
              cases h
              exact ⟨c :: word, rfl, hfronts, fun rest' hlast =>
                htoken rest' (hlast t rfl hstops) (.done rest')⟩
          | cons u us =>
              obtain ⟨before, rfl, hfront, hreplace⟩ := ih (List.cons_ne_nil _ _)
              refine ⟨c :: (word ++ before), by simp, hfronts.append before, fun rest' hlast => ?_⟩
              rw [List.cons_append, List.append_assoc]
              exact htoken _ (hstops.replace hfront) (hreplace rest' hlast)

/-- A semicolon fits behind any token. -/
theorem lexemes_semicolon (h : Cuts (before ++ after) ts after) (hne : ts ≠ []) :
    lexemes (before ++ ';' :: after) = (lexemes after).map (ts ++ .semicolon :: ·) := by
  obtain ⟨before', hbefore, -, hagain⟩ := h.exists_before hne
  obtain rfl := List.append_cancel_right hbefore
  have hstops (t : Token) : t.StopsAt (';' :: after) := t.stopsAt_cons (by decide) (by decide) after
  rw [(hagain (';' :: after) fun t _ _ => hstops t).lexemes_eq,
    lexemes_cons (by decide) (by rfl)]
  simp [Lexeme.read, punctuation?, Except.toOption, Function.comp_def]

/-- The tokens at the front of a text are cut off it. -/
theorem exists_of_lexemes {us vs : List Token} (h : lexemes cs = some (t :: us ++ vs))
    (hvs : vs ≠ []) : ∃ rest, Cuts cs (t :: us) rest := by
  induction Position.start, cs using Token.readFrom.induct generalizing t us with
  | case1 here =>
      rw [lexemes_nil, Option.some.injEq] at h
      exact absurd (List.append_eq_nil_iff.mp (List.cons.inj h).2.symm).2 hvs
  | case2 here rest ih =>
      rw [lexemes_blank (by decide)] at h
      obtain ⟨rest, hcuts⟩ := ih h
      exact ⟨rest, .blank (by decide) hcuts⟩
  | case3 here c rest hline hblank ih =>
      rw [lexemes_blank hblank] at h
      obtain ⟨rest, hcuts⟩ := ih h
      exact ⟨rest, .blank hblank hcuts⟩
  | case4 here c rest hline hblank hcomment ih =>
      have hblank : isBlank c = false := by simpa using hblank
      rw [lexemes_comment hblank hcomment] at h
      obtain ⟨rest, hcuts⟩ := ih h
      exact ⟨rest, .comment hblank hcomment hcuts⟩
  | case5 here c rest hline hblank hcomment ih =>
      have hblank : isBlank c = false := by simpa using hblank
      have hcomment : startsComment (c :: rest) = false := by simpa using hcomment
      rw [lexemes_cons hblank hcomment] at h
      obtain ⟨⟨u, n⟩, hread, h⟩ := Option.bind_eq_some_iff.mp h
      obtain ⟨ts, hts, htokens⟩ := Option.map_eq_some_iff.mp h
      obtain ⟨rfl, rfl⟩ := List.cons.inj htokens
      have hread := Outcome.mem_toOption_iff.mp hread
      cases us with
      | nil => exact ⟨_, .token hblank hcomment hread (.done _)⟩
      | cons u us =>
          obtain ⟨rest, hcuts⟩ := ih n hts
          exact ⟨rest, .token hblank hcomment hread hcuts⟩

end Cuts

/-! ### Cutting by computation -/

/-- As many tokens off the front of a text, in so many steps at most, and the text behind them. -/
def cut? : Nat → Nat → List Char → Option (List Token × List Char)
  | _, 0, cs => some ([], cs)
  | steps + 1, n + 1, c :: cs =>
    if isBlank c then cut? steps (n + 1) cs
    else if startsComment (c :: cs) then cut? steps (n + 1) (cs.dropWhile (· ≠ '\n'))
    else do
      let (t, taken) ← (Lexeme.read .start (c :: cs)).toOption
      let (ts, rest) ← cut? steps n (cs.drop (taken - 1))
      return (t :: ts, rest)
  | _, _, _ => none

theorem cuts_of_cut? {steps : Nat} (h : cut? steps n cs = some (ts, rest)) :
    Cuts cs ts rest ∧ ts.length = n := by
  fun_induction cut? steps n cs generalizing ts with
  | case1 steps cs =>
      cases h
      exact ⟨.done _, rfl⟩
  | case2 steps n c cs hblank ih =>
      obtain ⟨hcuts, hlength⟩ := ih h
      cases ts with
      | nil => cases hlength
      | cons t ts => exact ⟨.blank hblank hcuts, hlength⟩
  | case3 steps n c cs hblank hcomment ih =>
      obtain ⟨hcuts, hlength⟩ := ih h
      cases ts with
      | nil => cases hlength
      | cons t ts => exact ⟨.comment (by simpa using hblank) hcomment hcuts, hlength⟩
  | case4 steps n c cs hblank hcomment ih =>
      obtain ⟨⟨t, taken⟩, hread, h⟩ := Option.bind_eq_some_iff.mp h
      obtain ⟨⟨ts, rest⟩, hcut, hout⟩ := Option.bind_eq_some_iff.mp h
      cases hout
      obtain ⟨hcuts, hlength⟩ := ih taken hcut
      exact ⟨.token (by simpa using hblank) (by simpa using hcomment)
        (Outcome.mem_toOption_iff.mp hread) hcuts, congrArg (· + 1) hlength⟩
  | case5 => cases h

end Factbase
