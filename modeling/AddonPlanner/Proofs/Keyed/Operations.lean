import AddonPlanner.Package
import AddonPlanner.Proofs.Keyed
import AddonPlanner.Proofs.Text.Bytes
import Mathlib.Logic.Function.Basic

/-!
# Sequences of operations on sets

Whatever is done to sets of packages, they hold what plain maps from identifiers to packages would (`operations_follow_maps`): an
identifier that is present keeps its package, and a set lists its packages in the order of the bytes of their identifiers.
-/

namespace AddonPlanner.PackageSet

/-! ## Operations on sets -/

/-- What is done to sets, which are told apart by numbers. -/
inductive Operation
  /-- A list is made the set. -/
  | ofList (name : Nat) (l : List Package)
  /-- A package is inserted. -/
  | insert (name : Nat) (p : Package)
  /-- The package of an identifier is taken away. -/
  | remove (name : Nat) (id : String)
  /-- The packages that do not satisfy a condition are taken away. -/
  | retain (name : Nat) (keep : Package → Bool)
  /-- The packages of a list are inserted. -/
  | extend (name : Nat) (l : List Package)
  /-- The packages of another set are inserted. -/
  | extendFrom (name other : Nat)
  /-- What one set has and another does not becomes a set. -/
  | difference (result name other : Nat)
  /-- A set is made a list. -/
  | toList (name : Nat)

/-- What an operation answers. -/
inductive Answer
  /-- Nothing. -/
  | done
  /-- Whether the package that was inserted is new. -/
  | inserted (new : Bool)
  /-- The package that was taken away. -/
  | removed (p? : Option Package)
  /-- The packages of the set, in order. -/
  | listed (l : List Package)

/-- An operation on the sets: the sets after it, and its answer. -/
def step (sets : Nat → PackageSet) : Operation → (Nat → PackageSet) × Answer
  | .ofList name l => (Function.update sets name (.ofList l), .done)
  | .insert name p =>
    let inserted? := (sets name).insert? p
    (Function.update sets name (inserted?.getD (sets name)), .inserted inserted?.isSome)
  | .remove name id =>
    let (p?, s) := (sets name).take id
    (Function.update sets name s, .removed p?)
  | .retain name keep => (Function.update sets name ((sets name).filter keep), .done)
  | .extend name l => (Function.update sets name ((sets name).insertAll l), .done)
  | .extendFrom name other => (Function.update sets name ((sets name).union (sets other)), .done)
  | .difference result name other => (Function.update sets result ((sets name).diff (sets other)), .done)
  | .toList name => (sets, .listed (sets name).toList)

/-- The sets after a sequence of operations. -/
def run (sets : Nat → PackageSet) (ops : List Operation) : Nat → PackageSet :=
  ops.foldl (fun sets op => (step sets op).1) sets

/-! ## Operations on maps -/

/-- The package of each identifier, where there is one. -/
abbrev Contents := String → Option Package

namespace Contents

/-- The first package of each identifier in a list. -/
def ofList (l : List Package) : Contents :=
  fun id => l.find? fun p => p.id == id

/-- Both maps together; where they share an identifier the first decides. -/
def union (m n : Contents) : Contents :=
  fun id => (m id).or (n id)

/-- The map without the identifiers of another one. -/
def diff (m n : Contents) : Contents :=
  fun id => if (n id).isSome then none else m id

/-- The map with a package added, unless it has the identifier already. -/
def insert (m : Contents) (p : Package) : Contents :=
  if (m p.id).isSome then m else Function.update m p.id (some p)

/-- The maps after an operation. -/
def step (maps : Nat → Contents) : Operation → Nat → Contents
  | .ofList name l => Function.update maps name (ofList l)
  | .insert name p => Function.update maps name ((maps name).insert p)
  | .remove name id => Function.update maps name (Function.update (maps name) id none)
  | .retain name keep => Function.update maps name fun id => (maps name id).filter keep
  | .extend name l => Function.update maps name ((maps name).union (ofList l))
  | .extendFrom name other => Function.update maps name ((maps name).union (maps other))
  | .difference result name other => Function.update maps result ((maps name).diff (maps other))
  | .toList _ => maps

/-- The maps after a sequence of operations. -/
def run (maps : Nat → Contents) (ops : List Operation) : Nat → Contents :=
  ops.foldl step maps

/-- A list holds the packages of a map, in the order of the bytes of their identifiers. -/
structure Lists (m : Contents) (l : List Package) : Prop where
  /-- The bytes of the identifiers increase from each package to the next. -/
  increasing : l.Pairwise (fun p q => utf8Bytes p.id < utf8Bytes q.id)
  /-- The packages of the list are those of the map. -/
  mem_iff : ∀ p, p ∈ l ↔ m p.id = some p

/-- An answer is the one that the maps before the operation call for. -/
def Answers (maps : Nat → Contents) : Operation → Answer → Prop
  | .insert name p, answer => answer = .inserted (maps name p.id).isNone
  | .remove name id, answer => answer = .removed (maps name id)
  | .toList name, answer => ∃ l, answer = .listed l ∧ (maps name).Lists l
  | _, answer => answer = .done

end Contents

/-! ## Sets and maps -/

/-- A set holds the packages of a map. -/
structure Holds (s : PackageSet) (m : Contents) : Prop where
  /-- A look-up finds what the map has. -/
  get?_eq : ∀ id, s.get? id = m id
  /-- An identifier is in the set exactly when a package with it is found. -/
  contains_iff : ∀ id, s.contains id ↔ ∃ p, s.get? id = some p ∧ p.id = id
  /-- The set lists the map. -/
  lists : m.Lists s.toList

theorem lists_toList (s : PackageSet) : Contents.Lists s.get? s.toList where
  increasing := s.ordered.imp utf8Bytes_lt_iff.mpr
  mem_iff _ := Keyed.mem_iff_get?

theorem holds_get? (s : PackageSet) : Holds s s.get? where
  get?_eq _ := rfl
  contains_iff id := by
    rw [Keyed.contains_eq, Option.isSome_iff_exists]
    exact exists_congr fun p => (and_iff_left_of_imp Keyed.key_of_get?).symm
  lists := lists_toList s

/-- What each of the sets has. -/
def contents (sets : Nat → PackageSet) : Nat → Contents :=
  fun name => (sets name).get?

theorem contents_update (sets : Nat → PackageSet) (name : Nat) (s : PackageSet) :
    contents (Function.update sets name s) = Function.update (contents sets) name s.get? :=
  funext fun other => Function.apply_update (fun _ => Keyed.get?) sets name s other

theorem get?_insert_eq (s : PackageSet) (p : Package) : (s.insert p).get? = Contents.insert s.get? p := by
  rw [Contents.insert, ← Keyed.contains_eq]
  split
  · next hheld => rw [Keyed.insert_of_contains hheld]
  · next hnew =>
    funext id
    rw [Keyed.get?_insert, Function.update_apply]
    by_cases hid : p.id = id
    · subst hid
      rw [Keyed.get?_eq_none_iff.mpr (Bool.eq_false_iff.mpr hnew), if_pos rfl, Option.none_or]
    · rw [if_neg hid, if_neg (Ne.symm hid), Option.or_none]

/-- One operation does to the sets what it does to the maps. -/
theorem contents_step (sets : Nat → PackageSet) (op : Operation) :
    contents (step sets op).1 = Contents.step (contents sets) op := by
  cases op with
  | ofList name l =>
    rw [step, contents_update, funext (Keyed.get?_ofList l)]
    rfl
  | insert name p =>
    rw [step, contents_update, Keyed.getD_insert?, get?_insert_eq]
    rfl
  | remove name id =>
    have hget : ((sets name).erase id).get? = Function.update (sets name).get? id none := by
      funext other
      rw [Keyed.get?_erase, Function.update_apply]
    rw [step, Keyed.take, contents_update, hget]
    rfl
  | retain name keep =>
    rw [step, contents_update, funext (Keyed.get?_filter (sets name) keep)]
    rfl
  | extend name l =>
    rw [step, contents_update, funext (Keyed.get?_insertAll (sets name) l)]
    rfl
  | extendFrom name other =>
    rw [step, contents_update, funext (Keyed.get?_union (sets name) (sets other))]
    rfl
  | difference result name other =>
    rw [step, contents_update, funext (Keyed.get?_diff (sets name) (sets other))]
    rfl
  | toList name => rfl

/-- One operation answers what the maps call for. -/
theorem answers_step (sets : Nat → PackageSet) (op : Operation) :
    Contents.Answers (contents sets) op (step sets op).2 := by
  cases op with
  | insert name p => exact congrArg Answer.inserted (Keyed.isSome_insert? (sets name) p)
  | remove name id => rfl
  | toList name => exact ⟨(sets name).toList, rfl, lists_toList (sets name)⟩
  | _ => rfl

/-- A sequence of operations does to the sets what it does to the maps. -/
theorem contents_run (sets : Nat → PackageSet) (ops : List Operation) :
    contents (run sets ops) = Contents.run (contents sets) ops := by
  induction ops generalizing sets with
  | nil => rfl
  | cons op rest ih =>
    rw [run, List.foldl_cons, ← run, ih, contents_step]
    rfl

/-- After any sequence of operations on sets that were made of lists, each set holds what the maps have that the same operations
make of the first packages of each identifier in those lists, and a further operation answers what these maps call for. -/
theorem operations_follow_maps (start : Nat → List Package) (ops : List Operation) :
    let sets := run (fun name => .ofList (start name)) ops
    let maps := Contents.run (fun name => Contents.ofList (start name)) ops
    (∀ name, Holds (sets name) (maps name)) ∧ ∀ op, Contents.Answers maps op (step sets op).2 := by
  intro sets maps
  have hstart : contents (fun name => .ofList (start name)) = fun name => Contents.ofList (start name) :=
    funext fun name => funext (Keyed.get?_ofList (start name))
  have hmaps : contents sets = maps := by
    rw [contents_run, hstart]
  rw [← hmaps]
  exact ⟨fun name => holds_get? (sets name), answers_step sets⟩

end AddonPlanner.PackageSet
