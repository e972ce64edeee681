import AddonPlanner.Catalog
import AddonPlanner.Resolution.Search

/-!
# Planners

A planner answers what a change to the packages of a host entails. It knows the catalog and the version of the host.
-/

namespace AddonPlanner

/-- The setting in which changes are planned. -/
structure Planner where
  /-- The packages that the host knows of. -/
  catalog : Catalog
  /-- The version of the host. -/
  host : HostVersion

namespace Planner

/-- Whether some requirement of a package, or of a package it depends on, is not met by a pool. -/
def isBroken (pl : Planner) (pool : PackageSet) (p : Package) : Bool :=
  (p.resolution pool pl.host).hasIssue

/-- Whether a package that a change would remove is left alone: it was broken before the change and requires nothing that
the change would remove. -/
def isTolerated (pl : Planner) (doomed : PackageSet) (p : Package) : Bool :=
  pl.isBroken pl.catalog.installed p && !p.requiresAny doomed

end Planner

end AddonPlanner
