import AddonPlanner.Request
import AddonPlanner.Review

/-!
# Sessions

The host's side of planning: a planner with the last plan and the last removal that were made, and what becomes of the catalog when
the host carries them out. To make a plan changes nothing. The host takes away what the plan removes or replaces, and then puts in
place what comes in, wherever its identifier is free. An installed version of a package that is to be installed is not among what is
replaced, so it stays.
-/

namespace AddonPlanner

/-- The package at another status. -/
def Package.withStatus (p : Package) (status : Status) : Package :=
  { p with status }

/-- The installed packages once a host has made the changes. What comes in does not take the place of a package that is neither
removed nor replaced. -/
def Changes.carriedOut (c : Changes) (installed : PackageSet) : PackageSet :=
  (((installed.diff c.removals).diff c.replaced).union c.updates).union c.installs

namespace Catalog

/-- The catalog with other packages installed; every status is worked out anew from the roles. -/
def withInstalled (c : Catalog) (installed : PackageSet) : Except Error Catalog :=
  let forget := List.map fun p : Package => p.withStatus .unknown
  ofListing ⟨forget installed.toList, forget c.available.toList⟩

/-- The catalog after a plan has been carried out. -/
def carryOut (c : Catalog) (plan : Plan) : Except Error Catalog :=
  c.withInstalled (plan.carriedOut c.installed)

/-- The catalog after a removal has been carried out. -/
def carryOutRemoval (c : Catalog) (removal : Removal) : Except Error Catalog :=
  c.withInstalled (c.installed.diff removal.removals)

end Catalog

/-- A planner with the last plan and the last removal that were made. -/
structure Session extends Planner where
  /-- The last plan. -/
  lastPlan? : Option Plan := none
  /-- The last removal. -/
  lastRemoval? : Option Removal := none

namespace Session

/-- The last plan, where there is one. -/
def lastPlan (s : Session) : Except Error Plan :=
  match s.lastPlan? with
  | some plan => .ok plan
  | none => .error .nothingPlanned

/-- The last removal, where there is one. -/
def lastRemoval (s : Session) : Except Error Removal :=
  match s.lastRemoval? with
  | some removal => .ok removal
  | none => .error .nothingPlanned

/-- The session after its last plan has been carried out. -/
def carryOut (s : Session) : Except Error Session := do
  return { s with catalog := ← s.catalog.carryOut (← s.lastPlan) }

/-- The session after its last removal has been carried out. -/
def carryOutRemoval (s : Session) : Except Error Session := do
  return { s with catalog := ← s.catalog.carryOutRemoval (← s.lastRemoval) }

end Session

end AddonPlanner
