import AddonPlanner.Bounds
import AddonPlanner.HostVersion
import AddonPlanner.Keyed
import AddonPlanner.Version.Order

/-!
# Packages

What a package declares: its identifier and version, the packages it depends on, and the least host version it runs on.
-/

namespace AddonPlanner

/-- What a package requires of another: its identifier and the versions that will do. -/
structure Requirement where
  /-- The identifier of the required package. -/
  id : String
  /-- The versions that meet the requirement. -/
  bounds : Bounds Version
  deriving BEq

/-- Where a package is in its life on a host. -/
inductive Status
  /-- Nothing has been said. -/
  | unknown
  /-- It can be fetched. -/
  | available
  /-- It is being fetched. -/
  | downloading
  /-- It is in place. -/
  | installed
  /-- Its removal was tried and failed, so parts of it are still there. -/
  | removalFailed
  /-- Its removal failed in a way that leaves it usable. -/
  | softRemovalFailed
  /-- It is not in place. -/
  | notInstalled
  deriving DecidableEq, Repr

/-- A package at one version. -/
structure Package where
  /-- Names the package across its versions. -/
  id : String
  /-- The version of the package. -/
  version : Version
  /-- The least host version it runs on; without one it runs everywhere. -/
  minHost? : Option HostVersion
  /-- What it requires, as declared. -/
  requirements : List Requirement
  /-- Its status as far as it is known. -/
  status : Status
  deriving BEq

namespace Requirement

/-- Whether a package has the required identifier and one of the versions that will do. -/
def isMetBy (r : Requirement) (p : Package) : Bool :=
  p.id == r.id && r.bounds.contains p.version

/-- The written form of a requirement. -/
def display (r : Requirement) : String :=
  match r.bounds with
  | .any => r.id
  | .exactly version => r.id ++ " " ++ version.display
  | .atLeast least => r.id ++ " >= " ++ least.display
  | .atMost greatest => r.id ++ " <= " ++ greatest.display
  | .between least greatest => r.id ++ " " ++ least.display ++ "..=" ++ greatest.display

end Requirement

/-- A set of packages told apart by their identifiers alone: it never holds two versions of one package. -/
abbrev PackageSet := Keyed Package.id

namespace Package

/-- The written form of a package at its version. -/
def display (p : Package) : String :=
  p.id ++ "-" ++ p.version.display

/-- Whether the other package, at its version, meets a requirement of this one. -/
def requires (p other : Package) : Bool :=
  p.requirements.any (·.isMetBy other)

/-- Whether the package requires a member of the set, at whatever version. -/
def requiresAny (p : Package) (s : PackageSet) : Bool :=
  p.requirements.any fun r => s.contains r.id

/-- Whether the package runs on a host of the given version. -/
def runsOn (p : Package) (host : HostVersion) : Bool :=
  match p.minHost? with
  | some least => (compare least host).isLE
  | none => true

/-! ## Filters -/

/-- The packages of a list that need a newer host than the one given, in order. -/
def needingNewerHost (host : HostVersion) (l : List Package) : List Package :=
  l.filter (!·.runsOn host)

/-- The packages of a list that require a member of the set, in order. -/
def requiringAny (targets : PackageSet) (l : List Package) : List Package :=
  l.filter (·.requiresAny targets)

end Package

end AddonPlanner
