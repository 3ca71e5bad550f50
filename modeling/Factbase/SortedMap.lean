/-!
# Sorted maps

Finite maps kept as the list of their entries in strictly ascending key
order. The order is part of the type, so a map has exactly one
representation: two maps with the same entries are equal, and walking
`entries` is walking the map in key order. Insertion is a single pass
that replaces on a collision.

`SortedSet` is the map whose entries carry nothing.
-/

namespace Factbase

/-- A finite map whose entries stand in strictly ascending key order. -/
structure SortedMap (κ : Type) (α : Type) [Ord κ] where
  entries : List (κ × α)
  ascending : entries.Pairwise fun a b => compare a.1 b.1 = .lt

namespace SortedMap

variable {κ α β : Type} [Ord κ]

/-- The map with no entry. -/
def empty : SortedMap κ α := ⟨[], .nil⟩

instance : Inhabited (SortedMap κ α) := ⟨empty⟩

instance : EmptyCollection (SortedMap κ α) := ⟨empty⟩

@[simp] theorem entries_empty : (∅ : SortedMap κ α).entries = [] := rfl

@[ext] theorem ext {m n : SortedMap κ α} (h : m.entries = n.entries) : m = n := by
  cases m; cases n; cases h; rfl

instance [DecidableEq κ] [DecidableEq α] : DecidableEq (SortedMap κ α) := fun m n =>
  decidable_of_iff (m.entries = n.entries) ⟨ext, fun h => h ▸ rfl⟩

/-! ## Insertion -/

/-- Put `(k, v)` into an ascending entry list, replacing an entry of the same key. -/
def insertEntry (k : κ) (v : α) : List (κ × α) → List (κ × α)
  | [] => [(k, v)]
  | (k', v') :: rest =>
    match compare k k' with
    | .lt => (k, v) :: (k', v') :: rest
    | .eq => (k, v) :: rest
    | .gt => (k', v') :: insertEntry k v rest

theorem mem_insertEntry {k : κ} {v : α} {e : κ × α} {l : List (κ × α)}
    (h : e ∈ insertEntry k v l) : e = (k, v) ∨ e ∈ l := by
  induction l with
  | nil => simpa [insertEntry] using h
  | cons hd tl ih =>
    rw [insertEntry] at h
    split at h <;> simp only [List.mem_cons] at h ⊢ <;> grind

section Insertion

variable [Std.TransOrd κ]

/-- Insertion keeps the key order strict. -/
theorem insertEntry_ascending {k : κ} {v : α} {l : List (κ × α)}
    (h : l.Pairwise fun a b => compare a.1 b.1 = .lt) :
    (insertEntry k v l).Pairwise fun a b => compare a.1 b.1 = .lt := by
  induction l with
  | nil => exact List.pairwise_singleton _ _
  | cons hd tl ih =>
    obtain ⟨k', v'⟩ := hd
    obtain ⟨hhd, htl⟩ := List.pairwise_cons.mp h
    rw [insertEntry]
    split
    · rename_i hlt
      refine List.pairwise_cons.mpr ⟨fun b hb => ?_, h⟩
      rcases List.mem_cons.mp hb with rfl | hb
      · exact hlt
      · exact Std.TransCmp.lt_trans hlt (hhd b hb)
    · rename_i heq
      refine List.pairwise_cons.mpr ⟨fun b hb => ?_, htl⟩
      exact (Std.TransCmp.congr_left heq).trans (hhd b hb)
    · rename_i hgt
      refine List.pairwise_cons.mpr ⟨fun b hb => ?_, ih htl⟩
      rcases mem_insertEntry hb with rfl | hb
      · exact Std.OrientedCmp.lt_of_gt hgt
      · exact hhd b hb

/-- The map with `k` bound to `v`, whatever it was bound to before. -/
def insert (m : SortedMap κ α) (k : κ) (v : α) : SortedMap κ α :=
  ⟨insertEntry k v m.entries, insertEntry_ascending m.ascending⟩

/-- The map with one more entry for each pair in turn, later pairs winning. -/
def insertMany (m : SortedMap κ α) (l : List (κ × α)) : SortedMap κ α :=
  l.foldl (fun m e => m.insert e.1 e.2) m

/-- The map of a list of pairs, later pairs winning. -/
def ofList (l : List (κ × α)) : SortedMap κ α := insertMany ∅ l

end Insertion

/-! ## Looking up -/

/-- The value bound to `k`. -/
def get? (m : SortedMap κ α) (k : κ) : Option α :=
  (m.entries.find? fun e => compare k e.1 == .eq).map (·.2)

/-- Whether `k` is bound. -/
def contains (m : SortedMap κ α) (k : κ) : Bool := (m.get? k).isSome

/-- The keys in ascending order. -/
def keys (m : SortedMap κ α) : List κ := m.entries.map (·.1)

/-- The values in key order. -/
def values (m : SortedMap κ α) : List α := m.entries.map (·.2)

/-- The number of entries. -/
def size (m : SortedMap κ α) : Nat := m.entries.length

def isEmpty (m : SortedMap κ α) : Bool := m.entries.isEmpty

/-! ## Derived operations -/

/-- The map with every value replaced by its image. -/
def map (f : κ → α → β) (m : SortedMap κ α) : SortedMap κ β where
  entries := m.entries.map fun e => (e.1, f e.1 e.2)
  ascending := List.pairwise_map.mpr m.ascending

/-- The entries that satisfy `p`. -/
def filter (p : κ → α → Bool) (m : SortedMap κ α) : SortedMap κ α where
  entries := m.entries.filter fun e => p e.1 e.2
  ascending := m.ascending.filter _

variable [Std.TransOrd κ]

/-- `insert`, except that a key already bound keeps its value. -/
def insertNew (m : SortedMap κ α) (k : κ) (v : α) : SortedMap κ α :=
  if m.contains k then m else m.insert k v

/-- Rebind `k` to the image of its current value, `d` when it has none. -/
def update (m : SortedMap κ α) (k : κ) (d : α) (f : α → α) : SortedMap κ α :=
  m.insert k (f ((m.get? k).getD d))

end SortedMap

/-- A finite set, as the map that binds its members to nothing. -/
abbrev SortedSet (κ : Type) [Ord κ] := SortedMap κ Unit

namespace SortedSet

variable {κ : Type} [Ord κ]

/-- The members in ascending order. -/
def toList (s : SortedSet κ) : List κ := s.keys

variable [Std.TransOrd κ]

/-- The set with one more member. -/
def add (s : SortedSet κ) (k : κ) : SortedSet κ := s.insert k ()

/-- The set of the members of a list. -/
def ofList (l : List κ) : SortedSet κ := l.foldl add ∅

end SortedSet

end Factbase
