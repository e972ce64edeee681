import AddonPlanner.Error

/-!
# Bounds

Inclusive ranges of an ordered type: which values they contain, and their intersection.
-/

namespace AddonPlanner

/-- A range of versions; the limits belong to it. -/
inductive Bounds (α : Type)
  /-- Every version. -/
  | any
  /-- The versions equal to the one given. -/
  | exactly (version : α)
  /-- The least version and all after it. -/
  | atLeast (least : α)
  /-- The greatest version and all before it. -/
  | atMost (greatest : α)
  /-- The versions from the least to the greatest. -/
  | between (least greatest : α)
  deriving BEq, Repr

namespace Bounds

variable {α : Type}

instance : Inhabited (Bounds α) := ⟨any⟩

/-- The range that an exact version or limits describe; an exact version excludes limits, and nothing at all describes
every version. -/
def ofLimits (version? least? greatest? : Option α) : Except Fault (Bounds α) :=
  match version?, least?, greatest? with
  | none, none, none => .ok any
  | none, none, some greatest => .ok (atMost greatest)
  | none, some least, none => .ok (atLeast least)
  | none, some least, some greatest => .ok (between least greatest)
  | some version, none, none => .ok (exactly version)
  | _, _, _ => .error .mixedLimits

variable [Ord α]

/-- Whether a version lies in the range. -/
def contains (bounds : Bounds α) (version : α) : Bool :=
  match bounds with
  | any => true
  | exactly wanted => (compare version wanted).isEq
  | atLeast least => (compare version least).isGE
  | atMost greatest => (compare version greatest).isLE
  | between least greatest => (compare least version).isLE && (compare version greatest).isLE

/-- The greater of two versions; of two equal ones the second. -/
def later (a b : α) : α :=
  if (compare a b).isGT then a else b

/-- The smaller of two versions; of two equal ones the first. -/
def earlier (a b : α) : α :=
  if (compare a b).isGT then b else a

/-- The range between two limits: one version when they are equal, nothing when they are in the wrong order. -/
def span (least greatest : α) : Option (Bounds α) :=
  match compare least greatest with
  | .lt => some (between least greatest)
  | .eq => some (exactly least)
  | .gt => none

/-- The intersection of two ranges, or nothing when they have no version in common. -/
def join (a b : Bounds α) : Option (Bounds α) :=
  match a, b with
  | any, b => some b
  | a, any => some a
  | exactly v, b => if b.contains v then some (exactly v) else none
  | a, exactly w => if a.contains w then some (exactly w) else none
  | atLeast v, atLeast w => some (atLeast (later v w))
  | atMost v, atMost w => some (atMost (earlier v w))
  | atLeast v, atMost w => span v w
  | atMost w, atLeast v => span v w
  | atLeast v, between w x => span (later v w) x
  | between w x, atLeast v => span (later v w) x
  | atMost v, between w x => span w (earlier v x)
  | between w x, atMost v => span w (earlier v x)
  | between v w, between x y => span (later v x) (earlier w y)

/-- The ranges that arise when ranges are intersected one after the other, up to the first empty one. -/
def joins (start : Bounds α) : List (Bounds α) → List (Option (Bounds α))
  | [] => []
  | next :: rest =>
    match start.join next with
    | some joined => some joined :: joins joined rest
    | none => [none]

end Bounds

end AddonPlanner
