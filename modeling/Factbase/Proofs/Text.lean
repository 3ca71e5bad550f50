import Factbase.Text.Numeral
import Mathlib.Data.List.Basic

/-!
# Numerals and names with a version

A number is read back from its decimal digits, and a name with a version
is taken apart at its last dot.
-/

namespace Factbase

/-! ## Numerals -/

theorem digitsValue_toDigits (n : Nat) : digitsValue (Nat.toDigits 10 n) = n := by
  have h := Nat.ofDigitChars_ten_toDigits (n := n)
  rwa [Nat.ofDigitChars_eq_foldl] at h

/-- Different numbers have different numerals. -/
theorem decimal_inj {m n : Nat} (h : toString m = toString n) : m = n := by
  have hvalue : digitsValue (toString m).toList = digitsValue (toString n).toList := by rw [h]
  simpa [digitsValue_toDigits] using hvalue

/-- A number below the bound is read back from its digits. -/
theorem readDigits?_toDigits {bound n : Nat} (h : n < bound) :
    readDigits? bound (Nat.toDigits 10 n) = some n := by
  have hdigits : ∀ c ∈ Nat.toDigits 10 n, c.isDigit = true := fun c hc =>
    Nat.isDigit_of_mem_toDigits (by omega) (by omega) hc
  have hempty : (Nat.toDigits 10 n).isEmpty = false := by
    simp [Nat.toDigits_ne_nil]
  rw [readDigits?, digitsValue_toDigits, hempty]
  simp [h, List.all_eq_true.mpr hdigits]

theorem readNumeral?_toDigits {bound n : Nat} (h : n < bound) :
    readNumeral? bound (Nat.toDigits 10 n) = some n := by
  unfold readNumeral?
  split
  · rename_i digits heq
    -- a plus sign is no digit
    have hplus : '+' ∈ Nat.toDigits 10 n := by
      rw [heq]
      exact List.mem_cons_self ..
    cases Nat.isDigit_of_mem_toDigits (by omega) (by omega) hplus
  · exact readDigits?_toDigits h

theorem readUInt32?_toDigits (v : UInt32) : readUInt32? (Nat.toDigits 10 v.toNat) = some v := by
  rw [readUInt32?, readNumeral?_toDigits v.toNat_lt]
  simp

/-! ## Names with a version -/

theorem splitFirst_append {sep : Char} {before after : List Char} (h : sep ∉ before) :
    splitFirst sep (before ++ sep :: after) = some (before, after) := by
  induction before with
  | nil => simp [splitFirst]
  | cons c before ih =>
      have hc : c ≠ sep := fun he => h (by rw [he]; exact List.mem_cons_self ..)
      have hrest : sep ∉ before := fun hin => h (List.mem_cons_of_mem _ hin)
      simp [splitFirst, hc, ih hrest]

theorem splitLast_append {sep : Char} {before after : List Char} (h : sep ∉ after) :
    splitLast sep (before ++ sep :: after) = some (before, after) := by
  have hreverse : (before ++ sep :: after).reverse = after.reverse ++ sep :: before.reverse := by
    simp
  rw [splitLast, hreverse, splitFirst_append (by simpa using h)]
  simp

theorem eq_of_splitFirst {sep : Char} {cs before after : List Char}
    (h : splitFirst sep cs = some (before, after)) : cs = before ++ sep :: after := by
  induction cs generalizing before with
  | nil => cases h
  | cons c cs ih =>
      rw [splitFirst] at h
      split at h
      · rename_i hc
        cases h
        rw [hc]
        rfl
      · obtain ⟨⟨front, back⟩, hsplit, hparts⟩ := Option.map_eq_some_iff.mp h
        cases hparts
        exact congrArg (c :: ·) (ih hsplit)

/-- What comes after a separator does not matter to what comes before the first one. -/
theorem splitFirst_fst (sep : Char) (before after after' : List Char) :
    (splitFirst sep (before ++ sep :: after)).map Prod.fst =
      (splitFirst sep (before ++ sep :: after')).map Prod.fst := by
  induction before with
  | nil => simp [splitFirst]
  | cons c before ih =>
      rw [List.cons_append, List.cons_append, splitFirst, splitFirst]
      split
      · rfl
      · rw [Option.map_map, Option.map_map]
        have hcons := congrArg (Option.map (c :: ·)) ih
        rwa [Option.map_map, Option.map_map] at hcons

theorem eq_of_splitLast {sep : Char} {cs before after : List Char}
    (h : splitLast sep cs = some (before, after)) : cs = before ++ sep :: after := by
  obtain ⟨⟨front, back⟩, hsplit, hparts⟩ := Option.map_eq_some_iff.mp h
  cases hparts
  have hreverse := congrArg List.reverse (eq_of_splitFirst hsplit)
  simpa using hreverse

/-- What a name is taken apart into: a name and the numeral of a version, or itself. -/
theorem eq_of_splitVersion {text name : String} {version : Option UInt32}
    (h : splitVersion text = (name, version)) :
    match version with
    | some v => name ≠ "" ∧ ∃ digits, text.toList = name.toList ++ '.' :: digits ∧
        readUInt32? digits = some v
    | none => name = text := by
  unfold splitVersion at h
  split at h
  · rename_i c front digits hsplit
    split at h
    · rename_i v hv
      cases h
      refine ⟨by simp, digits, ?_, hv⟩
      rw [String.toList_ofList]
      exact eq_of_splitLast hsplit
    · cases h
      rfl
  · cases h
    rfl

/-- A name with a version is taken apart again. -/
theorem splitVersion_version {name : String} (hname : name ≠ "") (v : UInt32) :
    splitVersion (name ++ "." ++ toString v.toNat) = (name, some v) := by
  have hdot : '.' ∉ Nat.toDigits 10 v.toNat := by
    intro hin
    have hdigit := Nat.isDigit_of_mem_toDigits (by omega) (by omega) hin
    cases hdigit
  have htext : (name ++ "." ++ toString v.toNat).toList =
      name.toList ++ '.' :: Nat.toDigits 10 v.toNat := by
    simp
  rw [splitVersion, htext, splitLast_append hdot]
  cases hlist : name.toList with
  | nil => exact absurd (String.toList_eq_nil_iff.mp hlist) hname
  | cons c rest =>
      have hback : String.ofList (c :: rest) = name := by rw [← hlist, String.ofList_toList]
      simp [readUInt32?_toDigits, hback]

/-- A name without a point has no version. -/
theorem splitVersion_eq_self {text : String} (h : '.' ∉ text.toList) :
    splitVersion text = (text, none) := by
  unfold splitVersion
  split
  · rename_i c front digits hsplit
    refine absurd ?_ h
    rw [eq_of_splitLast hsplit]
    simp
  · rfl

/-! ## Separated texts -/

variable {α : Type} {sep xs : List α} {xss : List (List α)} {x : α}

theorem intercalate_cons (xs : List α) (xss : List (List α)) :
    sep.intercalate (xs :: xss) = xs ++ xss.flatMap (sep ++ ·) := by
  induction xss generalizing xs with
  | nil => rw [List.intercalate_singleton, List.flatMap_nil, List.append_nil]
  | cons ys yss ih =>
      rw [List.intercalate_cons_cons, ih, List.flatMap_cons, List.append_assoc, List.append_assoc]

theorem mem_intercalate (hxs : xs ∈ xss) (hx : x ∈ xs) : x ∈ sep.intercalate xss := by
  induction xss with
  | nil => cases hxs
  | cons ys yss ih =>
      cases yss with
      | nil =>
          obtain rfl := List.mem_singleton.mp hxs
          rwa [List.intercalate_singleton]
      | cons zs zss =>
          rw [List.intercalate_cons_cons, List.append_assoc]
          rcases List.mem_cons.mp hxs with rfl | hxs
          · exact List.mem_append_left _ hx
          · exact List.mem_append_right _ (List.mem_append_right _ (ih hxs))

theorem of_mem_intercalate (h : x ∈ sep.intercalate xss) : x ∈ sep ∨ ∃ xs ∈ xss, x ∈ xs := by
  induction xss with
  | nil => cases h
  | cons ys yss ih =>
      cases yss with
      | nil =>
          rw [List.intercalate_singleton] at h
          exact .inr ⟨ys, List.mem_cons_self .., h⟩
      | cons zs zss =>
          rw [List.intercalate_cons_cons, List.append_assoc, List.mem_append, List.mem_append] at h
          rcases h with h | h | h
          · exact .inr ⟨ys, List.mem_cons_self .., h⟩
          · exact .inl h
          · exact (ih h).imp_right fun ⟨xs, hxs, hx⟩ => ⟨xs, List.mem_cons_of_mem _ hxs, hx⟩

end Factbase
