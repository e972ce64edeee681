import AddonPlanner.Catalog

/-!
# Dependents

The installed packages that depend, directly or through others, on packages about to change. A dependent must accept the new
version of what it depends on; one that does not will break, which is the business of plans and removals.
-/

namespace AddonPlanner

/-- The candidates that depend on a package at its version. -/
def Package.dependentsIn (p : Package) (candidates : List Package) : List Package :=
  candidates.filter (·.requires p)

/-- The candidates that do not depend on a package at its version. -/
def Package.othersIn (p : Package) (candidates : List Package) : List Package :=
  candidates.filter (!·.requires p)

theorem Package.length_dependentsIn_add (p : Package) (candidates : List Package) :
    (p.dependentsIn candidates).length + (p.othersIn candidates).length = candidates.length := by
  induction candidates with
  | nil => rfl
  | cons q rest ih =>
    unfold dependentsIn othersIn at *
    cases h : q.requires p <;> (simp [h]; omega)

/-- Spreads from pending packages to the candidates that depend on them, then to the candidates that depend on those; lists
the candidates reached. Each is reached once, so the search ends. -/
def spread (candidates pending : List Package) : List Package :=
  match pending with
  | [] => []
  | p :: rest =>
    p.dependentsIn candidates ++ spread (p.othersIn candidates) (p.dependentsIn candidates ++ rest)
termination_by candidates.length + pending.length
decreasing_by
  have := p.length_dependentsIn_add candidates
  simp only [List.length_append, List.length_cons]
  omega

/-- The installed packages that depend on a member of the updated set. Those to be ignored and the installed versions of the
updated packages are neither reported nor passed through. -/
def Catalog.dependents (c : Catalog) (updated ignored : PackageSet) : PackageSet :=
  .ofList (spread ((c.installed.diff ignored).diff updated).toList updated.toList)

end AddonPlanner
