import AddonPlanner.Planner

/-!
# Plans

What installing or updating a selection of packages entails. The requirements of the selected packages are walked first: what
they need and lack is installed, and what they need at another version is updated. Installed packages that would break are
then rescued by an update of their own where one will do, and those that stay broken are removed, unless they were broken all
along.
-/

namespace AddonPlanner

/-- What the selected packages are meant for. -/
inductive Goal
  /-- They are to be installed. -/
  | install
  /-- They are to replace their installed versions. -/
  | update
  deriving DecidableEq, Repr

/-- The packages that a plan affects. -/
structure Changes where
  /-- The installed packages that give way to another version. -/
  replaced : PackageSet := ∅
  /-- The installed packages that cannot stay. -/
  removals : PackageSet := ∅
  /-- The packages that take the place of an installed version. -/
  updates : PackageSet := ∅
  /-- The packages that have no installed version. -/
  installs : PackageSet := ∅

/-- What installing or updating a selection entails. -/
structure Plan extends Changes where
  /-- What the selection is meant for. -/
  goal : Goal
  /-- The packages that were asked for. -/
  selected : PackageSet
  /-- Whether a package that ends up installed needs a newer host. -/
  needsNewerHost : Bool

namespace Planner

/-- Provides for one package that a walked package depends on. A package that can be fetched is installed when it is absent,
and takes the place of an installed version that the walk does not accept. -/
def provide (pl : Planner) (selected : PackageSet) (walked : Resolution) (c : Changes) (p : Package) : Changes :=
  if selected.contains p.id || pl.catalog.statusOf p != .available then c
  else
    match pl.catalog.installed.get? p.id with
    | none => { c with installs := c.installs.insert p }
    | some present =>
      if (walked.boundsFor? p.id).all (·.contains present.version) then c
      else { c with replaced := c.replaced.insert present, updates := c.updates.insert p }

/-- Provides for everything that a package depends on. The dependencies are resolved against what is available, through all
stages, so that what is added here needs no walk of its own. -/
def walk (pl : Planner) (selected : PackageSet) (c : Changes) (p : Package) : Changes :=
  let walked := p.resolution pl.catalog.available pl.host
  walked.dependencies.toList.foldl (pl.provide selected walked) c

/-- The changes before any walk: an update replaces the installed versions of the selected packages. -/
def seed (pl : Planner) (goal : Goal) (selected : PackageSet) : Changes :=
  match goal with
  | .install => {}
  | .update => { replaced := .ofList (selected.toList.filterMap fun p => pl.catalog.installed.get? p.id) }

/-- The installed packages that changes leave at their version. -/
def staying (pl : Planner) (selected : PackageSet) (c : Changes) : PackageSet :=
  pl.catalog.installed.filter fun p => !selected.contains p.id && !c.updates.contains p.id

/-- The installed packages that break when everything selected, installed and updated so far is in place. -/
def breaking (pl : Planner) (selected : PackageSet) (c : Changes) : PackageSet :=
  let staying := pl.staying selected c
  staying.filter (pl.isBroken (((staying.union selected).union c.installs).union c.updates))

/-- The available package that can take the place of an installed one: another version of it, nothing of which is broken
among the available packages. -/
def rescuer? (pl : Planner) (p : Package) : Option Package :=
  match pl.catalog.available.get? p.id with
  | some q => if q.version == p.version || pl.isBroken pl.catalog.available q then none else some q
  | none => none

/-- Keeps a breaking package by an update of its own, when there is one, and provides for that update. -/
def rescue (pl : Planner) (selected : PackageSet) (c : Changes) (p : Package) : Changes :=
  match pl.rescuer? p with
  | none => c
  | some q =>
    pl.walk selected { c with
      removals := c.removals.erase p.id, replaced := c.replaced.insert p, updates := c.updates.insert q } q

/-- Drops the removals that the other changes make needless, and those of packages that were broken all along. -/
def settle (pl : Planner) (c : Changes) : Changes :=
  { c with removals := c.removals.filter fun p =>
      !c.installs.contains p.id && !c.updates.contains p.id && !pl.isTolerated c.removals p }

/-- Adds the selected packages to the changes, in the role that the goal gives them. -/
def withSelected (goal : Goal) (selected : PackageSet) (c : Changes) : Changes :=
  match goal with
  | .install => { c with installs := c.installs.union selected }
  | .update => { c with updates := c.updates.union selected }

/-- The changes that walks and rescues lead to when they are done in the order of two lists. -/
def changes (pl : Planner) (goal : Goal) (selected : PackageSet) (walks : List Package)
    (rescues : PackageSet → List Package) : Changes :=
  let walked := walks.foldl (pl.walk selected) (pl.seed goal selected)
  let breaking := pl.breaking selected walked
  let rescued := (rescues breaking).foldl (pl.rescue selected) { walked with removals := breaking }
  withSelected goal selected (pl.settle rescued)

/-- What it takes to install or update a selection. -/
def plan (pl : Planner) (goal : Goal) (selected : PackageSet) : Plan :=
  let c := pl.changes goal selected selected.toList Keyed.toList
  let affected := selected.toList ++ c.installs.toList ++ c.updates.toList
  { c with goal, selected, needsNewerHost := affected.any (!·.runsOn pl.host) }

end Planner

end AddonPlanner
