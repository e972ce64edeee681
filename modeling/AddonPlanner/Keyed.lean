/-!
# Keyed sets

A finite set whose members are told apart by a text, their key. The members are kept in the order of their keys, so two sets
with the same members are the same value. Inserting never replaces a member; `put` does.
-/

namespace AddonPlanner

/-- A set of values with distinct keys, listed in the order of the keys. -/
@[ext] structure Keyed {α : Type} (key : α → String) where
  /-- The members in the order of their keys. -/
  toList : List α
  /-- Keys increase from each member to the next. -/
  ordered : toList.Pairwise (fun a b => key a < key b)

namespace Keyed

variable {α : Type} {key : α → String}

/-- The list with a value at the place of its key, unless a member holds that key already. -/
def place (key : α → String) (x : α) : List α → List α
  | [] => [x]
  | y :: rest =>
    if key x < key y then x :: y :: rest
    else if key x = key y then y :: rest
    else y :: place key x rest

theorem mem_of_mem_place {x z : α} {l : List α} (h : z ∈ place key x l) : z = x ∨ z ∈ l := by
  induction l with
  | nil => simpa [place] using h
  | cons y rest ih =>
    rw [place] at h
    split at h
    · simpa using h
    · split at h
      · exact Or.inr h
      · rcases List.mem_cons.mp h with rfl | h
        · simp
        · rcases ih h with rfl | h
          · simp
          · simp [h]

theorem pairwise_place {x : α} {l : List α} (h : l.Pairwise (fun a b => key a < key b)) :
    (place key x l).Pairwise (fun a b => key a < key b) := by
  induction l with
  | nil => simp [place]
  | cons y rest ih =>
    obtain ⟨hy, hrest⟩ := List.pairwise_cons.mp h
    rw [place]
    split
    · next hlt =>
      refine List.pairwise_cons.mpr ⟨fun z hz => ?_, h⟩
      rcases List.mem_cons.mp hz with rfl | hz
      · exact hlt
      · exact String.lt_trans hlt (hy z hz)
    · next hlt =>
      split
      · exact h
      · next hne =>
        refine List.pairwise_cons.mpr ⟨fun z hz => ?_, ih hrest⟩
        rcases mem_of_mem_place hz with rfl | hz
        · rcases String.le_total (key y) (key z) with hle | hle
          · exact Decidable.byContradiction fun hn => hne (String.le_antisymm (String.not_lt.mp hn) hle)
          · exact absurd (String.le_antisymm hle (String.not_lt.mp hlt)) hne
        · exact hy z hz

/-- The set without members. -/
def empty : Keyed key := ⟨[], .nil⟩

instance : EmptyCollection (Keyed key) := ⟨empty⟩

instance : Inhabited (Keyed key) := ⟨empty⟩

/-- The set with a value added; a member with the same key is kept instead. -/
def insert (s : Keyed key) (x : α) : Keyed key :=
  ⟨place key x s.toList, pairwise_place s.ordered⟩

/-- The member of a key. -/
def get? (s : Keyed key) (k : String) : Option α :=
  s.toList.find? fun x => key x == k

/-- Whether some member has a key. -/
def contains (s : Keyed key) (k : String) : Bool :=
  s.toList.any fun x => key x == k

/-- The set with a value added, unless a member has its key. -/
def insert? (s : Keyed key) (x : α) : Option (Keyed key) :=
  if s.contains (key x) then none else some (s.insert x)

/-- The members that satisfy a condition. -/
def filter (s : Keyed key) (p : α → Bool) : Keyed key :=
  ⟨s.toList.filter p, s.ordered.filter p⟩

/-- The set without the member of a key. -/
def erase (s : Keyed key) (k : String) : Keyed key :=
  s.filter fun x => key x != k

/-- The member of a key, and the set without it. -/
def take (s : Keyed key) (k : String) : Option α × Keyed key :=
  (s.get? k, s.erase k)

/-- The set with a value in the place of any member with the same key. -/
def put (s : Keyed key) (x : α) : Keyed key :=
  (s.erase (key x)).insert x

theorem any_place (x : α) (l : List α) (k : String) :
    (place key x l).any (fun y => key y == k) = (key x == k || l.any fun y => key y == k) := by
  induction l with
  | nil => simp [place]
  | cons y rest ih =>
    rw [place]
    split
    · simp
    · split
      · next heq => simp [heq]
      · simp only [List.any_cons, ih]
        cases key y == k <;> simp

theorem contains_insert (s : Keyed key) (x : α) (k : String) : (s.insert x).contains k = (key x == k || s.contains k) :=
  any_place x s.toList k

theorem mem_of_get? {s : Keyed key} {k : String} {x : α} (h : s.get? k = some x) : x ∈ s.toList :=
  List.mem_of_find?_eq_some h

theorem key_of_get? {s : Keyed key} {k : String} {x : α} (h : s.get? k = some x) : key x = k := by
  simpa using List.find?_some h

/-- The set with the values of a list inserted one after the other, so the first of each key stays. -/
def insertAll (s : Keyed key) (l : List α) : Keyed key :=
  l.foldl insert s

/-- The set of the first value of each key in a list. -/
def ofList (l : List α) : Keyed key :=
  empty.insertAll l

/-- Both sets together; where they share a key the member of the first stays. -/
def union (s t : Keyed key) : Keyed key :=
  s.insertAll t.toList

/-- The members whose key no member of the other set has. -/
def diff (s t : Keyed key) : Keyed key :=
  s.filter fun x => !t.contains (key x)

/-- The keys of the members, in order. -/
def keys (s : Keyed key) : List String :=
  s.toList.map key

/-- The number of members. -/
def size (s : Keyed key) : Nat :=
  s.toList.length

/-- Whether the set has no members. -/
def isEmpty (s : Keyed key) : Bool :=
  s.toList.isEmpty

instance : Membership α (Keyed key) := ⟨fun s x => x ∈ s.toList⟩

/-- Sets are equal when they list equal members. -/
instance [BEq α] : BEq (Keyed key) := ⟨fun s t => s.toList == t.toList⟩

end Keyed

end AddonPlanner
