import Factbase.Binary
import Factbase.Proofs.SortedMap
import Mathlib.Algebra.Group.Nat.Defs

/-!
# Decoding gives back what was encoded

A decoder is followed along an encoding that it takes off the front of
some bytes (`ReadsBack`). Decoders are put together from smaller ones, so
there is one law for each way of doing that, and `RoundTrip` collects
what they come to for a type: everything is read back from its encoding,
and the bytes that follow are left.

The length of a list is written in 64 bits, so this is said of encodings
that are shorter than `2 ^ 64` bytes. Every part of an encoding is shorter
than the whole.
-/

namespace Factbase.Binary

variable {α β : Type}

/-! ## Decoders -/

/-- A decoder takes `bs` off the front of any bytes and gives `a`. -/
def ReadsBack (read : Decoder α) (a : α) (bs : Bytes) : Prop :=
  bs.length < 2 ^ 64 → ∀ rest, read (bs ++ rest) = some (a, rest)

namespace ReadsBack

variable {read : Decoder α} {a : α} {bs bs' : Bytes}

theorem pure : ReadsBack (pure a) a [] := fun _ _ => rfl

theorem bind {next : α → Decoder β} {b : β} (h : ReadsBack read a bs)
    (h' : ReadsBack (next a) b bs') : ReadsBack (read >>= next) b (bs ++ bs') := by
  intro hlen rest
  rw [List.length_append] at hlen
  show (read (bs ++ bs' ++ rest)).bind (fun r => next r.1 r.2) = _
  rw [List.append_assoc, h (by omega)]
  exact h' (by omega) rest

theorem map (f : α → β) (h : ReadsBack read a bs) : ReadsBack (f <$> read) (f a) bs := by
  intro hlen rest
  show (read (bs ++ rest)).bind (fun r => some (f r.1, r.2)) = _
  rw [h hlen]
  rfl

/-- The last part of a record is read, and the record is put together. -/
theorem last {f : α → β} (h : ReadsBack read a bs) :
    ReadsBack (read >>= fun a => Pure.pure (f a)) (f a) bs :=
  h.map f

/-- The bytes of two parts may come together. -/
theorem assoc {bs'' : Bytes} (h : ReadsBack read a (bs ++ (bs' ++ bs''))) :
    ReadsBack read a (bs ++ bs' ++ bs'') := by
  rwa [List.append_assoc]

/-- A nested decoder may go as deep as there are bytes. -/
theorem nested {read : Nat → Decoder α} (h : ∀ depth, bs.length ≤ depth → ReadsBack (read depth) a bs) :
    ReadsBack (readNested read) a bs := by
  intro hlen rest
  refine h _ ?_ hlen rest
  rw [List.length_append]
  omega

end ReadsBack

/-! ## Numbers -/

theorem readVarint_varint {top : Nat} (htop : top < 128) (groups n : Nat)
    (h : n < 128 ^ groups * (top + 1)) (rest : Bytes) :
    readVarint top (groups + 1) (varint n ++ rest) = some (n, rest) := by
  induction groups generalizing n with
  | zero =>
      have hn : n < 128 := by omega
      have hbyte : (UInt8.ofNat n).toNat = n := by simp [Nat.mod_eq_of_lt (by omega : n < 256)]
      rw [varint, if_pos hn, List.cons_append, List.nil_append, readVarint, hbyte]
      simp only [Nat.mod_eq_of_lt hn, hn, if_true]
      rw [if_neg (by simp; omega)]
  | succ groups ih =>
      by_cases hn : n < 128
      · have hbyte : (UInt8.ofNat n).toNat = n := by simp [Nat.mod_eq_of_lt (by omega : n < 256)]
        rw [varint, if_pos hn, List.cons_append, List.nil_append, readVarint, hbyte]
        simp [Nat.mod_eq_of_lt hn, hn]
      · have hbyte : (UInt8.ofNat (n % 128 + 128)).toNat = n % 128 + 128 := by
          simp [Nat.mod_eq_of_lt (by omega : n % 128 + 128 < 256)]
        have hdiv : n / 128 < 128 ^ groups * (top + 1) := by
          refine Nat.div_lt_of_lt_mul ?_
          rwa [← Nat.mul_assoc, ← Nat.pow_succ']
        rw [varint, if_neg hn, List.cons_append, readVarint, hbyte, ih _ hdiv]
        simp only [Option.map_some]
        rw [if_neg (by omega)]
        congr 2
        omega

theorem readsBack_varint32 {n : Nat} (h : n < 2 ^ 32) : ReadsBack readVarint32 n (varint n) :=
  fun _ => readVarint_varint (by decide) 4 n (by omega)

theorem readsBack_varint64 {n : Nat} (h : n < 2 ^ 64) : ReadsBack readVarint64 n (varint n) :=
  fun _ => readVarint_varint (by decide) 9 n (by omega)

/-- A choice is read by its number, which is one byte, and then by what it holds. -/
theorem ReadsBack.choice {next : Nat → Decoder α} {a : α} {n : Nat} {bs : Bytes} (hn : n < 128)
    (h : ReadsBack (next n) a bs) : ReadsBack (readVarint32 >>= next) a (UInt8.ofNat n :: bs) := by
  have htag := readsBack_varint32 (by omega : n < 2 ^ 32)
  rw [varint, if_pos hn] at htag
  exact htag.bind h

theorem length_varint_pos (n : Nat) : 0 < (varint n).length := by
  rw [varint]
  split <;> simp

theorem length_varint_le (groups n : Nat) (h : n < 128 ^ (groups + 1)) :
    (varint n).length ≤ groups + 1 := by
  induction groups generalizing n with
  | zero =>
      rw [varint, if_pos (by omega)]
      simp
  | succ groups ih =>
      rw [varint]
      split
      · simp
      · have hdiv := ih (n / 128) (Nat.div_lt_of_lt_mul (by rwa [← Nat.pow_succ']))
        rw [List.length_cons]
        omega

/-! ## Types that are read back -/

/-- Everything of a type is read back from its encoding. -/
class RoundTrip (α : Type) [Binary α] : Prop where
  length_pos (a : α) : 0 < (encode a).length
  readsBack (a : α) : ReadsBack decode a (encode a)

export RoundTrip (length_pos readsBack)

/-- The bytes tell what is encoded at their front, and where it ends. -/
theorem encode_append_inj [Binary α] [RoundTrip α] {a a' : α} {rest rest' : Bytes}
    (hlen : (encode a ++ rest).length < 2 ^ 64) (h : encode a ++ rest = encode a' ++ rest') :
    a = a' ∧ rest = rest' := by
  have hlen' : (encode a' ++ rest').length < 2 ^ 64 := h ▸ hlen
  rw [List.length_append] at hlen hlen'
  have ha := readsBack a (by omega) rest
  rw [h, readsBack a' (by omega) rest'] at ha
  obtain ⟨rfl, rfl⟩ := Prod.mk.inj (Option.some.inj ha)
  exact ⟨rfl, rfl⟩

instance : RoundTrip UInt8 where
  length_pos _ := Nat.one_pos
  readsBack _ _ _ := rfl

instance : RoundTrip Bool where
  length_pos _ := Nat.one_pos
  readsBack b _ _ := by cases b <;> rfl

instance : RoundTrip UInt32 where
  length_pos n := length_varint_pos n.toNat
  readsBack n := by
    have hread := (readsBack_varint32 n.toNat_lt).map UInt32.ofNat
    rwa [UInt32.ofNat_toNat] at hread

instance : RoundTrip UInt64 where
  length_pos n := length_varint_pos n.toNat
  readsBack n := by
    have hread := (readsBack_varint64 n.toNat_lt).map UInt64.ofNat
    rwa [UInt64.ofNat_toNat] at hread

theorem text?_textBytes (s : String) : text? (textBytes s) = some s := by
  have hbytes : (⟨(textBytes s).toArray⟩ : ByteArray) = s.toByteArray := by
    simp [textBytes, String.toUTF8]
  rw [text?, hbytes, String.fromUTF8?, dif_pos s.isValidUTF8]
  rfl

instance : RoundTrip String where
  length_pos s := by
    have hpos := length_varint_pos (textBytes s).length
    simp only [encode, List.length_append]
    omega
  readsBack s hlen := by
    simp only [encode, List.length_append] at hlen
    have htext : ReadsBack (readBytes (textBytes s).length >>= fun bs => (text? bs : Option String))
        s (textBytes s) := by
      intro _ rest
      show (readBytes (textBytes s).length (textBytes s ++ rest)).bind
        (fun r => (text? r.1).bind fun t => some (t, r.2)) = _
      rw [readBytes, if_pos (by simp)]
      simp [text?_textBytes]
    exact (readsBack_varint64 (by omega)).bind htext (by simpa using hlen)

/-! ## Lists, pairs, options and maps -/

/-- A list is read by its length and then by its items. -/
theorem readsBack_list {read : Decoder α} {as : List α} {bs : Bytes} (hlen : as.length ≤ bs.length)
    (h : ReadsBack (readMany read as.length) as bs) :
    ReadsBack (readList read) as (varint as.length ++ bs) := by
  intro hbound
  have hsmall := hbound
  rw [List.length_append] at hsmall
  exact (readsBack_varint64 (by omega)).bind h hbound

section Combined

variable [Binary α] [Binary β] [RoundTrip α] [RoundTrip β]

theorem length_le_flatMap (as : List α) : as.length ≤ (as.flatMap encode).length := by
  induction as with
  | nil => exact Nat.le_refl _
  | cons a as ih =>
      have hpos := length_pos a
      simp only [List.flatMap_cons, List.length_append, List.length_cons]
      omega

/-- Items that are read back one by one are read back together. -/
theorem readsBack_many (as : List α) :
    ReadsBack (readMany decode as.length) as (as.flatMap encode) := by
  induction as with
  | nil => exact .pure
  | cons a as ih => exact (readsBack a).bind ih.last

instance : RoundTrip (List α) where
  length_pos as := by
    have hpos := length_varint_pos as.length
    simp only [encode, List.length_append]
    omega
  readsBack as := readsBack_list (length_le_flatMap as) (readsBack_many as)

instance : RoundTrip (α × β) where
  length_pos p := by
    have hpos := length_pos p.1
    simp only [encode, List.length_append]
    omega
  readsBack p := (readsBack p.1).bind (readsBack p.2).last

instance : RoundTrip (Option α) where
  length_pos
    | none => Nat.one_pos
    | some a => by simp [encode]
  readsBack
    | none => fun _ _ => rfl
    | some a => fun hlen => (readsBack a).map some (Nat.lt_of_succ_lt hlen)

end Combined

/-- The entries of a map give the map. -/
theorem ofList_entries {κ : Type} [Ord κ] [Std.TransOrd κ] [Std.LawfulEqOrd κ] [DecidableEq κ]
    (m : SortedMap κ α) : SortedMap.ofList m.entries = m := by
  refine SortedMap.ext_get? fun k => ?_
  rw [SortedMap.ofList, SortedMap.get?_insertMany, SortedMap.get?_empty, Option.or_none]
  cases hget : m.get? k with
  | none =>
      rw [Option.map_eq_none_iff, List.find?_eq_none]
      rintro ⟨k', v⟩ hmem hk
      obtain rfl : k' = k := by simpa using hk
      rw [SortedMap.get?_eq_some_iff.mpr (List.mem_reverse.mp hmem)] at hget
      cases hget
  | some v =>
      obtain ⟨⟨k', v'⟩, hfind⟩ : ∃ e, m.entries.reverse.find? (·.1 = k) = some e := by
        rw [← Option.isSome_iff_exists, List.find?_isSome]
        exact ⟨(k, v), List.mem_reverse.mpr (SortedMap.get?_eq_some_iff.mp hget), by simp⟩
      obtain rfl : k' = k := by simpa using List.find?_some hfind
      have hmem := List.mem_reverse.mp (List.mem_of_find?_eq_some hfind)
      rw [SortedMap.get?_eq_some_iff.mpr hmem] at hget
      rw [hfind, ← hget]
      rfl

instance {κ : Type} [Ord κ] [Std.TransOrd κ] [Std.LawfulEqOrd κ] [DecidableEq κ] [Binary κ]
    [Binary β] [RoundTrip κ] [RoundTrip β] : RoundTrip (SortedMap κ β) where
  length_pos m := length_pos m.entries
  readsBack m := by
    have hread := (readsBack m.entries).map (SortedMap.ofList (α := β))
    rwa [ofList_entries] at hread

/-! ## Values and facts -/

instance : RoundTrip FactId where
  length_pos id := length_pos id.number
  readsBack id := (readsBack id.number).map FactId.mk

instance : RoundTrip Predicate where
  length_pos p := length_pos (p.name, p.version)
  readsBack p := (readsBack p.name).bind (readsBack p.version).last

theorem length_encodeValue_pos (v : Value) : 0 < (encodeValue v).length := by
  cases v <;> simp [encodeValue]

theorem length_le_encodeValues (vs : List Value) : vs.length ≤ (encodeValues vs).length := by
  induction vs with
  | nil => exact Nat.le_refl _
  | cons v vs ih =>
      have hpos := length_encodeValue_pos v
      simp only [encodeValues, List.length_append, List.length_cons]
      omega

mutual
/-- The depth goes down by one where the encoding gets shorter by the byte of the shape. -/
theorem readsBack_value : (v : Value) → (depth : Nat) → (encodeValue v).length ≤ depth →
    ReadsBack (readValue depth) v (encodeValue v)
  | v, 0, hdepth => absurd (length_encodeValue_pos v) (by omega)
  | .byte n, depth + 1, _ => .choice (by decide) (readsBack n).last
  | .nat n, depth + 1, _ => .choice (by decide) (readsBack n).last
  | .bool b, depth + 1, _ => .choice (by decide) (readsBack b).last
  | .string s, depth + 1, _ => .choice (by decide) (readsBack s).last
  | .array vs, depth + 1, hdepth => by
      simp only [encodeValue, List.length_cons, List.length_append] at hdepth
      have hvs := readsBack_values vs depth (by omega)
      exact .choice (by decide) (readsBack_list (length_le_encodeValues vs) hvs).last
  | .record vs, depth + 1, hdepth => by
      simp only [encodeValue, List.length_cons, List.length_append] at hdepth
      have hvs := readsBack_values vs depth (by omega)
      exact .choice (by decide) (readsBack_list (length_le_encodeValues vs) hvs).last
  | .alt index payload, depth + 1, hdepth => by
      simp only [encodeValue, List.length_cons, List.length_append] at hdepth
      have hpayload := readsBack_value payload depth (by omega)
      exact .choice (by decide) ((readsBack index).bind hpayload.last)
  | .fact id, depth + 1, _ => .choice (by decide) (readsBack id).last

theorem readsBack_values : (vs : List Value) → (depth : Nat) → (encodeValues vs).length ≤ depth →
    ReadsBack (readMany (readValue depth) vs.length) vs (encodeValues vs)
  | [], _, _ => .pure
  | v :: vs, depth, hdepth => by
      simp only [encodeValues, List.length_append] at hdepth
      have hv := readsBack_value v depth (by omega)
      have hvs := readsBack_values vs depth (by omega)
      exact hv.bind hvs.last
end

instance : RoundTrip Value where
  length_pos := length_encodeValue_pos
  readsBack v := .nested (readsBack_value v)

instance : RoundTrip Fact where
  length_pos f := by
    have hpos := length_pos f.id
    simp only [encode, List.length_append] at hpos ⊢
    omega
  readsBack f := .assoc <| .assoc <| (readsBack f.id).bind <| (readsBack f.predicate).bind <|
    (readsBack f.key).bind (readsBack f.value).last

end Factbase.Binary
