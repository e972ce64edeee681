import AddonPlanner.Planner

/-!
# Removals

What uninstalling a selection of packages entails: the installed packages that would break without it are removed too, unless
they were broken all along or their removal has already failed.
-/

namespace AddonPlanner

/-- What uninstalling a selection entails. -/
structure Removal where
  /-- The packages that were asked for. -/
  selected : PackageSet
  /-- Every package to remove, the selected ones included. -/
  removals : PackageSet

/-- The packages removed only because they depend on something that is removed. -/
def Removal.forced (r : Removal) : PackageSet :=
  r.removals.diff r.selected

/-- The packages of a queue that a resolution does not depend on. -/
def Resolution.others (r : Resolution) (queue : List Package) : List Package :=
  queue.filter fun p => !r.dependencies.contains p.id

namespace Planner

/-- Collects the packages of a queue that cannot stay among the remaining ones. A package that nothing is wrong with vouches
for everything it depends on, so that leaves the queue with it. -/
def cascade (pl : Planner) (remaining : PackageSet) (doomed : PackageSet) (queue : List Package) : PackageSet :=
  match queue with
  | [] => doomed
  | p :: rest =>
    let r := p.resolution remaining pl.host
    if !r.hasIssue then pl.cascade remaining doomed (r.others rest)
    else if pl.catalog.statusOf p != .removalFailed then pl.cascade remaining (doomed.insert p) rest
    else pl.cascade remaining doomed rest
termination_by queue.length
decreasing_by
  · exact Nat.lt_succ_of_le (List.length_filter_le _ _)
  · exact Nat.lt_succ_self _
  · exact Nat.lt_succ_self _

/-- The packages that would break, or are broken already, once the selection is gone. -/
def doomed (pl : Planner) (selected : PackageSet) : PackageSet :=
  let remaining := pl.catalog.installed.diff selected
  pl.cascade remaining ∅ remaining.toList

/-- What it takes to uninstall a selection. -/
def removal (pl : Planner) (selected : PackageSet) : Removal :=
  let doomed := pl.doomed selected
  { selected, removals := selected.union (doomed.filter (!pl.isTolerated doomed ·)) }

end Planner

end AddonPlanner
