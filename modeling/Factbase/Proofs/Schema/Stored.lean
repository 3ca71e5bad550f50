import Factbase.Proofs.Decoding
import Factbase.Schema.Codec

/-!
# Stored snapshots are read back

A snapshot holds patterns, type expressions and types, which are nested;
each of them is read back by induction on it, with a depth that need be
no larger than its encoding. All else is records and choices of these, so
`Schema.ofBytes_toBytes` follows: a snapshot is what its stored form says,
as long as that is not too large to be read at all. Two snapshots with one
stored form would both be read from it, so there are none
(`Schema.stored_exactly`).
-/

namespace Factbase

namespace Binary

/-! ## Queries -/

theorem length_encodePattern_pos (p : Pattern) : 0 < (encodePattern p).length := by
  cases p <;> simp [encodePattern]

theorem length_le_encodePatterns (ps : List Pattern) : ps.length ≤ (encodePatterns ps).length := by
  induction ps with
  | nil => exact Nat.le_refl _
  | cons p ps ih =>
      have hpos := length_encodePattern_pos p
      simp only [encodePatterns, List.length_append, List.length_cons]
      omega

theorem length_le_encodeNamedPatterns (ps : List (String × Pattern)) :
    ps.length ≤ (encodeNamedPatterns ps).length := by
  induction ps with
  | nil => exact Nat.le_refl _
  | cons p ps ih =>
      have hpos := length_encodePattern_pos p.2
      simp only [encodeNamedPatterns, List.length_append, List.length_cons]
      omega

mutual
theorem readsBack_pattern : (p : Pattern) → (depth : Nat) → (encodePattern p).length ≤ depth →
    ReadsBack (readPattern depth) p (encodePattern p)
  | p, 0, hdepth => absurd (length_encodePattern_pos p) (by omega)
  | .wild, depth + 1, _ => .choice (by decide) .pure
  | .var name, depth + 1, _ => .choice (by decide) (readsBack name).last
  | .nat n, depth + 1, _ => .choice (by decide) (readsBack n).last
  | .string s, depth + 1, _ => .choice (by decide) (readsBack s).last
  | .stringStart s, depth + 1, _ => .choice (by decide) (readsBack s).last
  | .bool b, depth + 1, _ => .choice (by decide) (readsBack b).last
  | .array ps, depth + 1, hdepth => by
      simp only [encodePattern, List.length_cons, List.length_append] at hdepth
      have hps := readsBack_patterns ps depth (by omega)
      exact .choice (by decide) (readsBack_list (length_le_encodePatterns ps) hps).last
  | .fields ps, depth + 1, hdepth => by
      simp only [encodePattern, List.length_cons, List.length_append] at hdepth
      have hps := readsBack_namedPatterns ps depth (by omega)
      exact .choice (by decide) (readsBack_list (length_le_encodeNamedPatterns ps) hps).last
  | .tuple ps, depth + 1, hdepth => by
      simp only [encodePattern, List.length_cons, List.length_append] at hdepth
      have hps := readsBack_patterns ps depth (by omega)
      exact .choice (by decide) (readsBack_list (length_le_encodePatterns ps) hps).last
  | .noExpand inner, depth + 1, hdepth => by
      simp only [encodePattern, List.length_cons] at hdepth
      exact .choice (by decide) (readsBack_pattern inner depth (by omega)).last

theorem readsBack_patterns : (ps : List Pattern) → (depth : Nat) →
    (encodePatterns ps).length ≤ depth →
    ReadsBack (readMany (readPattern depth) ps.length) ps (encodePatterns ps)
  | [], _, _ => .pure
  | p :: ps, depth, hdepth => by
      simp only [encodePatterns, List.length_append] at hdepth
      have hp := readsBack_pattern p depth (by omega)
      exact hp.bind (readsBack_patterns ps depth (by omega)).last

theorem readsBack_namedPatterns : (ps : List (String × Pattern)) → (depth : Nat) →
    (encodeNamedPatterns ps).length ≤ depth →
    ReadsBack (readMany (do return (← decode, ← readPattern depth)) ps.length) ps
      (encodeNamedPatterns ps)
  | [], _, _ => .pure
  | (name, p) :: ps, depth, hdepth => by
      simp only [encodeNamedPatterns, List.length_append] at hdepth
      have hp := readsBack_pattern p depth (by omega)
      exact ((readsBack name).bind hp.last).bind (readsBack_namedPatterns ps depth (by omega)).last
end

instance : RoundTrip Pattern where
  length_pos := length_encodePattern_pos
  readsBack p := .nested (readsBack_pattern p)

instance : RoundTrip Source where
  length_pos s := by cases s <;> simp [encode]
  readsBack
    | .predicate name version pattern value =>
        .choice (n := 0) (by decide) <| .assoc <| .assoc <| (readsBack name).bind <|
          (readsBack version).bind <| (readsBack pattern).bind (readsBack value).last
    | .prim name arg => .choice (n := 1) (by decide) <| (readsBack name).bind (readsBack arg).last
    | .factId id => .choice (n := 2) (by decide) (readsBack id).last
    | .expr pattern => .choice (n := 3) (by decide) (readsBack pattern).last

instance : RoundTrip Statement where
  length_pos s := length_pos (s.bind, s.source)
  readsBack s := (readsBack s.bind).bind (readsBack s.source).last

instance : RoundTrip Query where
  length_pos q := length_pos q.statements
  readsBack q := (readsBack q.statements).map Query.mk

/-! ## Declarations -/

instance : RoundTrip SchemaId where
  length_pos s := length_pos (s.name, s.version)
  readsBack s := (readsBack s.name).bind (readsBack s.version).last

instance : RoundTrip Literal where
  length_pos l := by cases l <;> simp [encode]
  readsBack
    | .nat n => .choice (n := 0) (by decide) (readsBack n).last
    | .string s => .choice (n := 1) (by decide) (readsBack s).last
    | .bool b => .choice (n := 2) (by decide) (readsBack b).last

theorem length_encodeTypeExpr_pos (t : TypeExpr) : 0 < (encodeTypeExpr t).length := by
  cases t <;> simp [encodeTypeExpr]

theorem length_le_encodeFieldExprs (fields : List FieldExpr) :
    fields.length ≤ (encodeFieldExprs fields).length := by
  induction fields with
  | nil => exact Nat.le_refl _
  | cons f fields ih =>
      obtain ⟨name, ty, default⟩ := f
      have hpos := length_encodeTypeExpr_pos ty
      simp only [encodeFieldExprs, List.length_append, List.length_cons]
      omega

mutual
theorem readsBack_typeExpr : (t : TypeExpr) → (depth : Nat) → (encodeTypeExpr t).length ≤ depth →
    ReadsBack (readTypeExpr depth) t (encodeTypeExpr t)
  | t, 0, hdepth => absurd (length_encodeTypeExpr_pos t) (by omega)
  | .byte, depth + 1, _ => .choice (by decide) .pure
  | .nat, depth + 1, _ => .choice (by decide) .pure
  | .bool, depth + 1, _ => .choice (by decide) .pure
  | .string, depth + 1, _ => .choice (by decide) .pure
  | .array elem, depth + 1, hdepth => by
      simp only [encodeTypeExpr, List.length_cons] at hdepth
      exact .choice (by decide) (readsBack_typeExpr elem depth (by omega)).last
  | .record fields, depth + 1, hdepth => by
      simp only [encodeTypeExpr, List.length_cons, List.length_append] at hdepth
      have hfields := readsBack_fieldExprs fields depth (by omega)
      exact .choice (by decide) (readsBack_list (length_le_encodeFieldExprs fields) hfields).last
  | .sum alts, depth + 1, hdepth => by
      simp only [encodeTypeExpr, List.length_cons, List.length_append] at hdepth
      have halts := readsBack_fieldExprs alts depth (by omega)
      exact .choice (by decide) (readsBack_list (length_le_encodeFieldExprs alts) halts).last
  | .maybe inner, depth + 1, hdepth => by
      simp only [encodeTypeExpr, List.length_cons] at hdepth
      exact .choice (by decide) (readsBack_typeExpr inner depth (by omega)).last
  | .enum names, depth + 1, _ => .choice (by decide) (readsBack names).last
  | .named name, depth + 1, _ => .choice (by decide) (readsBack name).last

theorem readsBack_fieldExprs : (fields : List FieldExpr) → (depth : Nat) →
    (encodeFieldExprs fields).length ≤ depth →
    ReadsBack (readMany (do return ⟨← decode, ← readTypeExpr depth, ← decode⟩) fields.length) fields
      (encodeFieldExprs fields)
  | [], _, _ => .pure
  | ⟨name, ty, default⟩ :: fields, depth, hdepth => by
      simp only [encodeFieldExprs, List.length_append] at hdepth
      have hty := readsBack_typeExpr ty depth (by omega)
      have hfield : ReadsBack (do return ⟨← decode, ← readTypeExpr depth, ← decode⟩)
          (⟨name, ty, default⟩ : FieldExpr) _ := (readsBack name).bind (hty.bind (readsBack default).last)
      exact hfield.assoc.bind (readsBack_fieldExprs fields depth (by omega)).last
end

instance : RoundTrip TypeExpr where
  length_pos := length_encodeTypeExpr_pos
  readsBack t := .nested (readsBack_typeExpr t)

instance : RoundTrip SchemaItem where
  length_pos i := by cases i <;> simp [encode]
  readsBack
    | .alias name ty => .choice (n := 0) (by decide) <| (readsBack name).bind (readsBack ty).last
    | .predicate name key value derivation =>
        .choice (n := 1) (by decide) <| .assoc <| .assoc <| (readsBack name).bind <|
          (readsBack key).bind <| (readsBack value).bind (readsBack derivation).last

instance : RoundTrip SchemaDecl where
  length_pos d := by
    have hpos := length_pos d.name
    simp only [encode, List.length_append] at hpos ⊢
    omega
  readsBack d := .assoc <| .assoc <| .assoc <| (readsBack d.name).bind <|
    (readsBack d.version).bind <| (readsBack d.inherits).bind <| (readsBack d.imports).bind
      (readsBack d.items).last

/-! ## Snapshots -/

theorem length_encodeTy_pos (ty : Ty) : 0 < (encodeTy ty).length := by
  cases ty <;> simp [encodeTy]

theorem length_le_encodeFields (fields : List Field) :
    fields.length ≤ (encodeFields fields).length := by
  induction fields with
  | nil => exact Nat.le_refl _
  | cons f fields ih =>
      obtain ⟨name, ty, declared⟩ := f
      have hpos := length_encodeTy_pos ty
      simp only [encodeFields, List.length_append, List.length_cons]
      omega

mutual
theorem readsBack_ty : (ty : Ty) → (depth : Nat) → (encodeTy ty).length ≤ depth →
    ReadsBack (readTy depth) ty (encodeTy ty)
  | ty, 0, hdepth => absurd (length_encodeTy_pos ty) (by omega)
  | .byte, depth + 1, _ => .choice (by decide) .pure
  | .nat, depth + 1, _ => .choice (by decide) .pure
  | .bool, depth + 1, _ => .choice (by decide) .pure
  | .string, depth + 1, _ => .choice (by decide) .pure
  | .array elem, depth + 1, hdepth => by
      simp only [encodeTy, List.length_cons] at hdepth
      exact .choice (by decide) (readsBack_ty elem depth (by omega)).last
  | .record fields, depth + 1, hdepth => by
      simp only [encodeTy, List.length_cons, List.length_append] at hdepth
      have hfields := readsBack_fields fields depth (by omega)
      exact .choice (by decide) (readsBack_list (length_le_encodeFields fields) hfields).last
  | .sum alts, depth + 1, hdepth => by
      simp only [encodeTy, List.length_cons, List.length_append] at hdepth
      have halts := readsBack_fields alts depth (by omega)
      exact .choice (by decide) (readsBack_list (length_le_encodeFields alts) halts).last
  | .predicate p, depth + 1, _ => .choice (by decide) (readsBack p).last

theorem readsBack_fields : (fields : List Field) → (depth : Nat) →
    (encodeFields fields).length ≤ depth →
    ReadsBack (readMany (do return ⟨← decode, ← readTy depth, ← decode⟩) fields.length) fields
      (encodeFields fields)
  | [], _, _ => .pure
  | ⟨name, ty, declared⟩ :: fields, depth, hdepth => by
      simp only [encodeFields, List.length_append] at hdepth
      have hty := readsBack_ty ty depth (by omega)
      have hfield : ReadsBack (do return ⟨← decode, ← readTy depth, ← decode⟩)
          (⟨name, ty, declared⟩ : Field) _ := (readsBack name).bind (hty.bind (readsBack declared).last)
      exact hfield.assoc.bind (readsBack_fields fields depth (by omega)).last
end

instance : RoundTrip Ty where
  length_pos := length_encodeTy_pos
  readsBack ty := .nested (readsBack_ty ty)

instance : RoundTrip Derivation where
  length_pos d := by
    have hpos := length_pos d.key
    simp only [encode, List.length_append] at hpos ⊢
    omega
  readsBack d := .assoc <| (readsBack d.key).bind <| (readsBack d.body).bind (readsBack d.scope).last

theorem readsBack_derivation : (d : Option Derivation) → ReadsBack readDerivation d (encode d)
  | none => .choice (n := 0) (by decide) .pure
  | some d => .choice (n := 1) (by decide) (readsBack d).last

instance : RoundTrip Definition where
  length_pos d := by
    have hpos := length_pos d.predicate
    simp only [encode, List.length_append] at hpos ⊢
    omega
  readsBack d := .assoc <| .assoc <| (readsBack d.predicate).bind <| (readsBack d.key).bind <|
    (readsBack d.value).bind (readsBack_derivation d.derivation).last

instance : RoundTrip SchemaInfo where
  length_pos s := by
    have hpos := length_pos s.decl
    simp only [encode, List.length_append] at hpos ⊢
    omega
  readsBack s := .assoc <| (readsBack s.decl).bind <| (readsBack s.exports).bind
    (readsBack s.aliases).last

instance : RoundTrip Schema where
  length_pos s := length_pos (s.predicates, s.schemas)
  readsBack s := (readsBack s.predicates).bind (readsBack s.schemas).last

end Binary

namespace Schema

/-- The stored form of a snapshot can be read. -/
def Storable (s : Schema) : Prop := (encode s).length ≤ maxEncoded

instance (s : Schema) : Decidable s.Storable := inferInstanceAs (Decidable (_ ≤ _))

/-- The stored form of a snapshot gives the snapshot; what follows it does not matter. -/
theorem ofBytes_toBytes_append {s : Schema} {rest : Bytes}
    (h : (encode s ++ rest).length ≤ maxEncoded) : ofBytes (s.toBytes ++ rest) = .ok s := by
  have hbytes : s.toBytes ++ rest = formatMark ++ formatVersion :: (encode s ++ rest) := by
    simp [toBytes]
  have hlen : (encode s).length < 2 ^ 64 := by
    rw [List.length_append] at h
    unfold maxEncoded at h
    omega
  have hread : decode (encode s ++ rest) = some (s, rest) := Binary.readsBack s hlen rest
  have htake : (formatMark ++ formatVersion :: (encode s ++ rest)).take 4 = formatMark := rfl
  have hdrop : (formatMark ++ formatVersion :: (encode s ++ rest)).drop 4 =
      formatVersion :: (encode s ++ rest) := rfl
  rw [hbytes, ofBytes, hdrop]
  simp only [htake, ne_eq, not_true_eq_false, if_false]
  rw [if_neg (by omega), hread]

theorem ofBytes_toBytes {s : Schema} (h : s.Storable) : ofBytes s.toBytes = .ok s := by
  have hlen : (encode s ++ []).length ≤ maxEncoded := by rwa [List.append_nil]
  have happend := ofBytes_toBytes_append hlen
  rwa [List.append_nil] at happend

/-- Bytes that can be read begin with the stored form of one snapshot at most. -/
theorem toBytes_append_inj {s s' : Schema} {rest rest' : Bytes}
    (h : (encode s ++ rest).length ≤ maxEncoded) (heq : s.toBytes ++ rest = s'.toBytes ++ rest') :
    s = s' ∧ rest = rest' := by
  have hcodes : encode s ++ rest = encode s' ++ rest' := by simpa [toBytes] using heq
  refine Binary.encode_append_inj ?_ hcodes
  unfold maxEncoded at h
  omega

/-- The stored form of a snapshot says that snapshot and where it ends: it is read
back whatever follows, and no other stored form starts the same bytes. -/
theorem stored_exactly {s : Schema} {rest : Bytes} (h : (encode s ++ rest).length ≤ maxEncoded) :
    ofBytes (s.toBytes ++ rest) = .ok s ∧ ∀ (s' : Schema) (rest' : Bytes),
      s.toBytes ++ rest = s'.toBytes ++ rest' → s = s' ∧ rest = rest' :=
  ⟨ofBytes_toBytes_append h, fun _ _ => toBytes_append_inj h⟩

/-- A snapshot with a default, an alternative and a derivation. -/
def shelfSchema : Schema where
  predicates := .ofList [
    (⟨"shelf.Book", 2⟩, ⟨⟨"shelf.Book", 2⟩,
      .record [⟨"title", .string, some (.string "?")⟩, .plain "prior" (.predicate ⟨"shelf.Book", 1⟩)],
      .sum [.plain "lent" .unit, .plain "copies" .nat], none⟩),
    (⟨"shelf.Lent", 2⟩, ⟨⟨"shelf.Lent", 2⟩, .array (.predicate ⟨"shelf.Book", 2⟩), .unit,
      some ⟨.array [.var "B"], ⟨[⟨none, .predicate "Book" none (some (.var "B")) none⟩]⟩,
        .ofList [("Book", ⟨"shelf.Book", 2⟩)]⟩⟩)]
  schemas := .ofList [(⟨"shelf", 2⟩, ⟨⟨"shelf", 2, [⟨"shelf", 1⟩], [], []⟩,
    .ofList [("Book", ⟨"shelf.Book", 2⟩)], .ofList [("Titles", .array .string)]⟩)]

theorem stored_exactly_shelf :
    (encode shelfSchema ++ [0, 255]).length ≤ maxEncoded ∧
      ofBytes (shelfSchema.toBytes ++ [0, 255]) = .ok shelfSchema :=
  have hroom : (encode shelfSchema ++ [0, 255]).length ≤ maxEncoded := by decide +kernel
  ⟨hroom, (stored_exactly hroom).1⟩

end Schema

end Factbase
