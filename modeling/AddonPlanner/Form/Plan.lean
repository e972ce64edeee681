import AddonPlanner.Form.Package
import AddonPlanner.Plan
import AddonPlanner.Removal

/-!
# The written form of plans and removals

Both are records that need all their fields.
-/

namespace AddonPlanner

open Json (Document)
open Form

namespace Goal

/-- The name of a goal. -/
def name : Goal → String
  | install => "Install"
  | update => "Update"

/-- The written form of a goal. -/
def toForm (g : Goal) : Document :=
  .text g.name

/-- Reads a goal. -/
def ofForm : Document → Except FormError Goal :=
  readChoice ([install, update].map fun g => ⟨g.name, .inl g⟩)

end Goal

namespace Plan

/-- The written form of a plan. -/
def toForm (p : Plan) : Document :=
  .record [("kind", p.goal.toForm), ("selected", p.selected.toForm), ("old_versions", p.replaced.toForm),
    ("uninstalls", p.removals.toForm), ("new_versions", p.updates.toForm), ("installs", p.installs.toForm),
    ("newer_runtime_required", .bool p.needsNewerHost)]

/-- The fields of a plan read so far. -/
structure Draft where
  /-- The goal, once it is read. -/
  goal? : Option Goal := none
  /-- The selection, once it is read. -/
  selected? : Option PackageSet := none
  /-- The replaced packages, once they are read. -/
  replaced? : Option PackageSet := none
  /-- The removed packages, once they are read. -/
  removals? : Option PackageSet := none
  /-- The updates, once they are read. -/
  updates? : Option PackageSet := none
  /-- The installed packages, once they are read. -/
  installs? : Option PackageSet := none
  /-- Whether a newer host is needed, once it is read. -/
  needsNewerHost? : Option Bool := none

/-- The fields of a plan. -/
def fields : List (RecordField Draft) :=
  [⟨"kind", fun s d => do return { s with goal? := some (← Goal.ofForm d) }⟩,
    ⟨"selected", fun s d => do return { s with selected? := some (← PackageSet.ofForm d) }⟩,
    ⟨"old_versions", fun s d => do return { s with replaced? := some (← PackageSet.ofForm d) }⟩,
    ⟨"uninstalls", fun s d => do return { s with removals? := some (← PackageSet.ofForm d) }⟩,
    ⟨"new_versions", fun s d => do return { s with updates? := some (← PackageSet.ofForm d) }⟩,
    ⟨"installs", fun s d => do return { s with installs? := some (← PackageSet.ofForm d) }⟩,
    ⟨"newer_runtime_required", fun s d => do return { s with needsNewerHost? := some (← readBool d) }⟩]

/-- Reads a plan. -/
def ofForm : Document → Except FormError Plan :=
  readRecord fields {} fun s => do
    return {
      goal := ← needed "kind" s.goal?
      selected := ← needed "selected" s.selected?
      replaced := ← needed "old_versions" s.replaced?
      removals := ← needed "uninstalls" s.removals?
      updates := ← needed "new_versions" s.updates?
      installs := ← needed "installs" s.installs?
      needsNewerHost := ← needed "newer_runtime_required" s.needsNewerHost? }

end Plan

namespace Removal

/-- The written form of a removal. -/
def toForm (r : Removal) : Document :=
  .record [("selected", r.selected.toForm), ("uninstallations", r.removals.toForm)]

/-- The fields of a removal read so far. -/
structure Draft where
  /-- The selection, once it is read. -/
  selected? : Option PackageSet := none
  /-- The removed packages, once they are read. -/
  removals? : Option PackageSet := none

/-- The fields of a removal. -/
def fields : List (RecordField Draft) :=
  [⟨"selected", fun s d => do return { s with selected? := some (← PackageSet.ofForm d) }⟩,
    ⟨"uninstallations", fun s d => do return { s with removals? := some (← PackageSet.ofForm d) }⟩]

/-- Reads a removal. -/
def ofForm : Document → Except FormError Removal :=
  readRecord fields {} fun s => do
    return ⟨← needed "selected" s.selected?, ← needed "uninstallations" s.removals?⟩

end Removal

end AddonPlanner
