import AddonPlanner.Package

/-!
# Resolutions

What a package needs to run, resolved against a pool of packages: everything it depends on directly or through others, the
bounds that the requirements place on each identifier, the requirements that are not met, and the packages that need a newer
host. The pool is whatever the caller wants to test against: the installed packages, the available ones, or those expected
after a change.
-/

namespace AddonPlanner

/-- A requirement that the pool does not meet. -/
inductive Issue
  /-- No package has the required identifier. -/
  | missing (requiredBy dependency : String)
  /-- The package with the required identifier has a version outside the bounds placed on it. -/
  | incompatible (requiredBy dependency : String) (found : Version)

/-- The identifier that was required. -/
def Issue.dependency : Issue → String
  | missing _ dependency => dependency
  | incompatible _ dependency _ => dependency

/-- The wording of an issue. -/
def Issue.message : Issue → String
  | missing requiredBy dependency => s!"`{requiredBy}` requires `{dependency}` which is missing"
  | incompatible requiredBy dependency found =>
    s!"`{requiredBy}` requires `{dependency}` but version {found} is incompatible"

/-- The bounds in force for each identifier that has any. -/
abbrev BoundsTable := Keyed (Prod.fst : String × Bounds Version → String)

/-- What a package needs, resolved against a pool. -/
structure Resolution where
  /-- The identifier of the package in question. -/
  package : String
  /-- The packages of the pool that it depends on, directly or through others. -/
  dependencies : PackageSet := ∅
  /-- The intersection of the bounds placed on each identifier. -/
  bounds : BoundsTable := ∅
  /-- The requirements that are not met, in the order they were visited. -/
  issues : List Issue := []
  /-- The packages that need a newer host, with the least version they need, in the order they were met. -/
  hostIssues : List (String × HostVersion) := []

namespace Resolution

/-- Whether some requirement is not met. -/
def hasIssue (r : Resolution) : Bool :=
  !r.issues.isEmpty

/-- Whether some package needs a newer host. -/
def needsNewerHost (r : Resolution) : Bool :=
  !r.hostIssues.isEmpty

/-- The bounds in force for an identifier. -/
def boundsFor? (r : Resolution) (id : String) : Option (Bounds Version) :=
  (r.bounds.get? id).map Prod.snd

end Resolution

end AddonPlanner
