import AddonPlanner.Plan
import AddonPlanner.Removal

/-!
# Requests

Plans and removals for selections that are checked against the catalog first. The first package of a selection that does not
pass is the error.
-/

namespace AddonPlanner

namespace Planner

/-- Refuses a selection with a package that the catalog does not know. -/
def checkKnown (pl : Planner) (selected : PackageSet) : Except Error Unit :=
  match selected.toList.find? fun p => (pl.catalog.get? p.id).isNone with
  | some p => .error (.unknownPackage p.id)
  | none => .ok ()

/-- Refuses a selection with a package that has no installed version. -/
def checkInstalled (pl : Planner) (selected : PackageSet) : Except Error Unit :=
  match selected.toList.find? fun p => !pl.catalog.isInstalled p.id with
  | some p => .error (.notInstalled p.id)
  | none => .ok ()

/-- The plan for installing known packages. -/
def planInstall (pl : Planner) (selected : PackageSet) : Except Error Plan := do
  pl.checkKnown selected
  return pl.plan .install selected

/-- The plan for updating installed packages. -/
def planUpdate (pl : Planner) (selected : PackageSet) : Except Error Plan := do
  pl.checkKnown selected
  pl.checkInstalled selected
  return pl.plan .update selected

/-- The removal of installed packages. -/
def planRemoval (pl : Planner) (selected : PackageSet) : Except Error Removal := do
  pl.checkInstalled selected
  return pl.removal selected

end Planner

end AddonPlanner
