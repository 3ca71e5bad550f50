import Factbase.Blake3

/-!
# Encodings are unambiguous

Two encodings that are followed by anything at all and give the same
bytes are encodings of the same thing (`Unambiguous`), so no encoding is
the beginning of another one. The digests of facts are therefore digests
of their content: where the hash does not collide, facts with the same
digest are the same.
-/

namespace Factbase

namespace Binary

/-- No encoding is the encoding of anything else, nor the beginning of one. -/
def Unambiguous (α : Type) [Binary α] : Prop :=
  ∀ (a b : α) (r r' : Bytes), encode a ++ r = encode b ++ r' → a = b ∧ r = r'

theorem Unambiguous.injective {α : Type} [Binary α] (h : Unambiguous α) {a b : α}
    (heq : encode a = encode b) : a = b :=
  (h a b [] [] (by rw [heq])).1

/-! ## Numbers -/

theorem varint_unambiguous (n m : Nat) (r r' : Bytes) (h : varint n ++ r = varint m ++ r') :
    n = m ∧ r = r' := by
  fun_induction varint n generalizing m with
  | case1 n hn =>
      rw [varint] at h
      split at h
      · rename_i hm
        simp only [List.cons_append, List.nil_append, List.cons.injEq] at h
        have := congrArg UInt8.toNat h.1
        simp only [UInt8.toNat_ofNat'] at this
        exact ⟨by omega, h.2⟩
      · simp only [List.cons_append, List.nil_append, List.cons.injEq] at h
        have := congrArg UInt8.toNat h.1
        simp only [UInt8.toNat_ofNat'] at this
        omega
  | case2 n hn ih =>
      rw [varint.eq_def m] at h
      split at h
      · simp only [List.cons_append, List.nil_append, List.cons.injEq] at h
        have := congrArg UInt8.toNat h.1
        simp only [UInt8.toNat_ofNat'] at this
        omega
      · simp only [List.cons_append, List.cons.injEq] at h
        have := congrArg UInt8.toNat h.1
        simp only [UInt8.toNat_ofNat'] at this
        obtain ⟨hdiv, hr⟩ := ih _ h.2
        exact ⟨by omega, hr⟩

theorem unambiguous_UInt8 : Unambiguous UInt8 := by
  intro a b r r' h
  have h : a :: r = b :: r' := h
  exact List.cons.injEq .. |>.mp h

theorem unambiguous_UInt32 : Unambiguous UInt32 := by
  intro a b r r' h
  obtain ⟨hn, hr⟩ := varint_unambiguous a.toNat b.toNat r r' h
  exact ⟨UInt32.toNat_inj.mp hn, hr⟩

theorem unambiguous_UInt64 : Unambiguous UInt64 := by
  intro a b r r' h
  obtain ⟨hn, hr⟩ := varint_unambiguous a.toNat b.toNat r r' h
  exact ⟨UInt64.toNat_inj.mp hn, hr⟩

theorem unambiguous_Bool : Unambiguous Bool := by
  intro a b r r' h
  cases a <;> cases b <;> simp_all [encode]

/-! ## Texts, pairs and facts -/

theorem textBytes_injective {s t : String} (h : textBytes s = textBytes t) : s = t := by
  refine String.toByteArray_inj.mp ?_
  have harray : s.toUTF8.data = t.toUTF8.data := Array.toList_inj.mp h
  exact ByteArray.ext harray

theorem unambiguous_String : Unambiguous String := by
  intro a b r r' h
  simp only [encode, List.append_assoc] at h
  obtain ⟨hlen, h⟩ := varint_unambiguous _ _ _ _ h
  obtain ⟨hbytes, hr⟩ := List.append_inj h hlen
  exact ⟨textBytes_injective hbytes, hr⟩

theorem Unambiguous.prod {α β : Type} [Binary α] [Binary β] (ha : Unambiguous α)
    (hb : Unambiguous β) : Unambiguous (α × β) := by
  rintro ⟨a, b⟩ ⟨a', b'⟩ r r' h
  simp only [encode, List.append_assoc] at h
  obtain ⟨rfl, hrest⟩ := ha _ _ _ _ h
  obtain ⟨rfl, hr⟩ := hb _ _ _ _ hrest
  exact ⟨rfl, hr⟩

theorem unambiguous_FactId : Unambiguous FactId := by
  rintro ⟨a⟩ ⟨b⟩ r r' h
  obtain ⟨rfl, hr⟩ := unambiguous_UInt64 a b r r' h
  exact ⟨rfl, hr⟩

theorem unambiguous_Predicate : Unambiguous Predicate := by
  rintro ⟨n, v⟩ ⟨n', v'⟩ r r' h
  obtain ⟨heq, hr⟩ := (unambiguous_String.prod unambiguous_UInt32) (n, v) (n', v') r r' h
  cases heq
  exact ⟨rfl, hr⟩

/-! ## Values -/

mutual
/-- The first byte tells the shape of a value; the rest is by the shape. -/
theorem encodeValue_unambiguous : (a b : Value) → (r r' : Bytes) →
    encodeValue a ++ r = encodeValue b ++ r' → a = b ∧ r = r'
  | .byte n, b, r, r', h => by
      cases b with
      | byte m =>
          simp only [encodeValue, List.cons_append, List.cons.injEq, true_and] at h
          obtain ⟨rfl, hr⟩ := unambiguous_UInt8 _ _ _ _ h
          exact ⟨rfl, hr⟩
      | _ => simp [encodeValue] at h
  | .nat n, b, r, r', h => by
      cases b with
      | nat m =>
          simp only [encodeValue, List.cons_append, List.cons.injEq, true_and] at h
          obtain ⟨rfl, hr⟩ := unambiguous_UInt64 _ _ _ _ h
          exact ⟨rfl, hr⟩
      | _ => simp [encodeValue] at h
  | .bool x, b, r, r', h => by
      cases b with
      | bool y =>
          simp only [encodeValue, List.cons_append, List.cons.injEq, true_and] at h
          obtain ⟨rfl, hr⟩ := unambiguous_Bool _ _ _ _ h
          exact ⟨rfl, hr⟩
      | _ => simp [encodeValue] at h
  | .string s, b, r, r', h => by
      cases b with
      | string t =>
          simp only [encodeValue, List.cons_append, List.cons.injEq, true_and] at h
          obtain ⟨rfl, hr⟩ := unambiguous_String _ _ _ _ h
          exact ⟨rfl, hr⟩
      | _ => simp [encodeValue] at h
  | .array vs, b, r, r', h => by
      cases b with
      | array ws =>
          simp only [encodeValue, List.cons_append, List.cons.injEq, true_and] at h
          rw [List.append_assoc, List.append_assoc] at h
          obtain ⟨hlen, hitems⟩ := varint_unambiguous _ _ _ _ h
          obtain ⟨rfl, hr⟩ := encodeValues_unambiguous vs ws r r' hlen hitems
          exact ⟨rfl, hr⟩
      | _ => simp [encodeValue] at h
  | .record vs, b, r, r', h => by
      cases b with
      | record ws =>
          simp only [encodeValue, List.cons_append, List.cons.injEq, true_and] at h
          rw [List.append_assoc, List.append_assoc] at h
          obtain ⟨hlen, hitems⟩ := varint_unambiguous _ _ _ _ h
          obtain ⟨rfl, hr⟩ := encodeValues_unambiguous vs ws r r' hlen hitems
          exact ⟨rfl, hr⟩
      | _ => simp [encodeValue] at h
  | .alt i v, b, r, r', h => by
      cases b with
      | alt j w =>
          simp only [encodeValue, List.cons_append, List.cons.injEq, true_and] at h
          rw [List.append_assoc, List.append_assoc] at h
          obtain ⟨rfl, hpayload⟩ := unambiguous_UInt32 _ _ _ _ h
          obtain ⟨rfl, hr⟩ := encodeValue_unambiguous v w r r' hpayload
          exact ⟨rfl, hr⟩
      | _ => simp [encodeValue] at h
  | .fact id, b, r, r', h => by
      cases b with
      | fact id' =>
          simp only [encodeValue, List.cons_append, List.cons.injEq, true_and] at h
          obtain ⟨rfl, hr⟩ := unambiguous_FactId _ _ _ _ h
          exact ⟨rfl, hr⟩
      | _ => simp [encodeValue] at h

/-- Lists of values are told apart once their lengths agree. -/
theorem encodeValues_unambiguous : (as bs : List Value) → (r r' : Bytes) →
    as.length = bs.length → encodeValues as ++ r = encodeValues bs ++ r' → as = bs ∧ r = r'
  | [], [], _, _, _, h => ⟨rfl, h⟩
  | a :: as, b :: bs, r, r', hlen, h => by
      rw [encodeValues, encodeValues, List.append_assoc, List.append_assoc] at h
      obtain ⟨rfl, hrest⟩ := encodeValue_unambiguous a b _ _ h
      obtain ⟨rfl, hr⟩ := encodeValues_unambiguous as bs r r' (by simpa using hlen) hrest
      exact ⟨rfl, hr⟩
end

theorem unambiguous_Value : Unambiguous Value := encodeValue_unambiguous

end Binary

/-! ## Digests -/

/-- What a fact says: its predicate, key and value. -/
abbrev Content := Predicate × Value × Value

namespace Fact

def content (f : Fact) : Content := (f.predicate, f.key, f.value)

/-- The digest of what a fact says. -/
def digest (f : Fact) : Digest := contentDigest f.predicate f.key f.value

theorem digest_of_content {f : Fact} {p : Predicate} {k v : Value} (h : f.content = (p, k, v)) :
    f.digest = contentDigest p k v := by
  cases h
  rfl

end Fact

open Binary

theorem unambiguous_content : Unambiguous Content :=
  unambiguous_Predicate.prod (unambiguous_Value.prod unambiguous_Value)

theorem unambiguous_keyContent : Unambiguous (Predicate × Value) :=
  unambiguous_Predicate.prod unambiguous_Value

/-- The hash tells apart the encodings of the things that `S` holds of. -/
def CollisionFree {α : Type} [Binary α] (S : α → Prop) : Prop :=
  ∀ a b, S a → S b → Blake3.hash (encode a) = Blake3.hash (encode b) → encode a = encode b

/-- Where the hash does not collide, contents with the same digest are the same. -/
theorem CollisionFree.eq_of_hash {α : Type} [Binary α] (hu : Unambiguous α) {S : α → Prop}
    (h : CollisionFree S) {a b : α} (ha : S a) (hb : S b)
    (heq : Blake3.hash (encode a) = Blake3.hash (encode b)) : a = b :=
  hu.injective (h a b ha hb heq)

end Factbase
