import AddonPlanner.Package

/-!
# Catalogs

The packages a host knows of, by role: those that are installed and those that can be fetched. A listing gives them as plain
lists, so that a repeated identifier can be read and then refused; a catalog holds at most one package of each identifier in
each role.
-/

namespace AddonPlanner

/-- The packages of each role, listed in any order and possibly with repeats. -/
structure Listing where
  /-- What is on the host. -/
  installed : List Package
  /-- What can be fetched. -/
  available : List Package

/-- The packages a host knows of. -/
structure Catalog where
  /-- What is on the host. -/
  installed : PackageSet
  /-- What can be fetched. -/
  available : PackageSet

namespace Package

/-- The package with a status in the place of an unknown one. -/
def orStatus (p : Package) (status : Status) : Package :=
  if p.status = .unknown then { p with status } else p

/-- Whether both are the same package at equal versions. -/
def sameRelease (p q : Package) : Bool :=
  p.id == q.id && p.version == q.version

end Package

/-- The listing with every unknown status replaced by the one that its role implies: what is listed as installed is
installed, and so is an available package whose release is listed as installed; other available packages are available. -/
def Listing.withRoles (l : Listing) : Listing where
  installed := l.installed.map (·.orStatus .installed)
  available := l.available.map fun p =>
    p.orStatus (if l.installed.any (·.sameRelease p) then .installed else .available)

/-- The set of the packages in a list that names no package twice; the first package that repeats an identifier is the
error. -/
def PackageSet.ofDistinct (l : List Package) : Except Error PackageSet :=
  l.foldlM (fun s p => match s.insert? p with
    | some s => .ok s
    | none => .error (.duplicatePackage p.id)) ∅

namespace Catalog

/-- The catalog of two lists as they stand; a repeat among the installed packages is reported first. -/
def ofLists (installed available : List Package) : Except Error Catalog := do
  return ⟨← PackageSet.ofDistinct installed, ← PackageSet.ofDistinct available⟩

/-- The catalog of a listing, with statuses by role. -/
def ofListing (l : Listing) : Except Error Catalog :=
  ofLists l.withRoles.installed l.withRoles.available

/-- The packages of the catalog, each role in the order of identifiers. -/
def toListing (c : Catalog) : Listing :=
  ⟨c.installed.toList, c.available.toList⟩

/-- The package of an identifier, the installed one before the available one. -/
def get? (c : Catalog) (id : String) : Option Package :=
  c.installed.get? id <|> c.available.get? id

/-- Whether some version of a package is installed. -/
def isInstalled (c : Catalog) (id : String) : Bool :=
  c.installed.contains id

/-- The status that the catalog holds for the release of a package, as installed before as available; a release that the
catalog does not have keeps its own status. -/
def statusOf (c : Catalog) (p : Package) : Status :=
  match ((c.installed.get? p.id).toList ++ (c.available.get? p.id).toList).find? (·.version == p.version) with
  | some entry => entry.status
  | none => p.status

end Catalog

end AddonPlanner
