import AddonPlanner.Resolution

/-!
# The search for a resolution

The search keeps a stack of packages whose requirements are still to be visited. A requirement on the package in question is
met by that package, whatever the pool holds. The search ends because a package goes onto the stack only when it joins the
dependencies, and no identifier joins them twice.
-/

namespace AddonPlanner

/-- A resolution under way. -/
structure Search extends Resolution where
  /-- The packages whose requirements are still to be visited; the last one found comes first. -/
  pending : List Package

namespace Search

/-- Takes note of a package that does not run on the host. -/
def checkHost (s : Search) (p : Package) (host : HostVersion) : Search :=
  match p.minHost? with
  | some least => if p.runsOn host then s else { s with hostIssues := s.hostIssues ++ [(p.id, least)] }
  | none => s

/-- The bounds on an identifier once a requirement is added to them; nothing when the two exclude each other. -/
def narrowed? (s : Search) (r : Requirement) : Option (Bounds Version) :=
  match s.boundsFor? r.id with
  | some held => held.join r.bounds
  | none => some r.bounds

/-- The state with the bounds on an identifier replaced. -/
def setBounds (s : Search) (id : String) (bounds : Bounds Version) : Search :=
  { s with bounds := s.bounds.put (id, bounds) }

/-- The state with an issue added. -/
def report (s : Search) (issue : Issue) : Search :=
  { s with issues := s.issues ++ [issue] }

/-- The state with a package added to the dependencies and to the packages still to be visited. -/
def discover (s : Search) (p : Package) (host : HostVersion) : Search :=
  let s := { s with dependencies := s.dependencies.insert p }.checkHost p host
  { s with pending := p :: s.pending }

end Search

/-- The package that an identifier stands for while a package is resolved: the package itself, or a member of the pool. -/
def Package.resolve? (root : Package) (pool : PackageSet) (id : String) : Option Package :=
  if id = root.id then some root else pool.get? id

namespace Search

/-- Visits one requirement of a package. What it resolves to must lie within the bounds collected so far; bounds that exclude
each other leave the collected ones in force. -/
def visit (root : Package) (pool : PackageSet) (host : HostVersion) (parent : Package) (s : Search)
    (r : Requirement) : Search :=
  match root.resolve? pool r.id with
  | none => s.report (.missing parent.id r.id)
  | some found =>
    match s.narrowed? r with
    | none => s.report (.incompatible parent.id r.id found.version)
    | some bounds =>
      let s := s.setBounds r.id bounds
      if !bounds.contains found.version then s.report (.incompatible parent.id r.id found.version)
      else if found.id = root.id ∨ s.dependencies.contains found.id then s
      else s.discover found host

/-- Visits all requirements of a package, in the order they are declared. -/
def expand (root : Package) (pool : PackageSet) (host : HostVersion) (s : Search) (parent : Package) : Search :=
  parent.requirements.foldl (visit root pool host parent) s

/-- The number of members of the pool that have not joined the dependencies. -/
def unresolved (pool : PackageSet) (s : Search) : Nat :=
  pool.toList.countP fun p => !s.dependencies.contains p.id

/-- The work left: what may still be found and what is still to be visited. -/
def work (pool : PackageSet) (s : Search) : Nat :=
  s.unresolved pool + s.pending.length

@[simp] theorem dependencies_setBounds (s : Search) (id : String) (b : Bounds Version) :
    (s.setBounds id b).dependencies = s.dependencies := rfl

@[simp] theorem dependencies_checkHost (s : Search) (p : Package) (host : HostVersion) :
    (s.checkHost p host).dependencies = s.dependencies := by
  unfold checkHost
  split
  · split <;> rfl
  · rfl

@[simp] theorem pending_checkHost (s : Search) (p : Package) (host : HostVersion) :
    (s.checkHost p host).pending = s.pending := by
  unfold checkHost
  split
  · split <;> rfl
  · rfl

@[simp] theorem dependencies_discover (s : Search) (p : Package) (host : HostVersion) :
    (s.discover p host).dependencies = s.dependencies.insert p := by
  simp [discover]

@[simp] theorem pending_discover (s : Search) (p : Package) (host : HostVersion) :
    (s.discover p host).pending = p :: s.pending := by
  simp [discover]

/-- A member of the pool that joins the dependencies is no longer unresolved. -/
theorem unresolved_discover_lt {pool : PackageSet} {s : Search} {p : Package} (host : HostVersion)
    (hmem : p ∈ pool.toList) (hnew : ¬ s.dependencies.contains p.id) :
    (s.discover p host).unresolved pool < s.unresolved pool := by
  unfold unresolved
  simp only [dependencies_discover, Keyed.contains_insert, Bool.not_or, List.countP_eq_length_filter]
  -- what is unresolved now are the packages unresolved before, without the one that joins
  rw [← List.filter_filter, List.length_filter_lt_length_iff_exists]
  exact ⟨p, List.mem_filter.mpr ⟨hmem, by simpa using hnew⟩, by simp⟩

/-- Visiting a requirement adds no work: what goes onto the stack is no longer unresolved. -/
theorem work_visit_le (root : Package) (pool : PackageSet) (host : HostVersion) (parent : Package) (s : Search)
    (r : Requirement) : (visit root pool host parent s r).work pool ≤ s.work pool := by
  unfold visit
  split
  · exact Nat.le_refl _
  · next found hfound =>
    split
    · exact Nat.le_refl _
    · next bounds _ =>
      simp only
      split
      · exact Nat.le_refl _
      · split
        · exact Nat.le_refl _
        · next hnew =>
          simp only [not_or, dependencies_setBounds] at hnew
          have hmem : found ∈ pool.toList := by
            unfold Package.resolve? at hfound
            split at hfound
            · exact absurd (congrArg Package.id (Option.some.inj hfound)).symm hnew.1
            · exact Keyed.mem_of_get? hfound
          have hlt := unresolved_discover_lt (s := s.setBounds r.id bounds) host hmem hnew.2
          have heq : (s.setBounds r.id bounds).unresolved pool = s.unresolved pool := rfl
          have hlen : ((s.setBounds r.id bounds).discover found host).pending.length = s.pending.length + 1 := by
            rw [pending_discover]
            rfl
          unfold work
          omega

theorem work_expand_le (root : Package) (pool : PackageSet) (host : HostVersion) (s : Search) (parent : Package) :
    (s.expand root pool host parent).work pool ≤ s.work pool := by
  unfold expand
  generalize parent.requirements = l
  induction l generalizing s with
  | nil => exact Nat.le_refl _
  | cons r rest ih => exact Nat.le_trans (ih _) (work_visit_le root pool host parent s r)

/-- Visits the requirements of the packages on the stack until it is empty. -/
def run (root : Package) (pool : PackageSet) (host : HostVersion) (s : Search) : Search :=
  match _ : s.pending with
  | [] => s
  | parent :: rest => run root pool host ({ s with pending := rest }.expand root pool host parent)
termination_by s.work pool
decreasing_by
  rename_i h
  have := work_expand_le root pool host { s with pending := rest } parent
  have hlt : Search.work pool { s with pending := rest } < s.work pool := by
    simp [work, unresolved, h]
  omega

theorem run_of_pending_nil {s : Search} (root : Package) (pool : PackageSet) (host : HostVersion) (h : s.pending = []) :
    s.run root pool host = s := by
  rw [run]
  split
  · rfl
  · next heq => simp [h] at heq

theorem run_of_pending_cons {s : Search} {parent : Package} {rest : List Package} (root : Package) (pool : PackageSet)
    (host : HostVersion) (h : s.pending = parent :: rest) :
    s.run root pool host = ({ s with pending := rest }.expand root pool host parent).run root pool host := by
  rw [run]
  split
  · next heq => simp [h] at heq
  · next heq =>
    obtain ⟨rfl, rfl⟩ := List.cons.inj (h.symm.trans heq)
    rfl

/-- The state before anything has been visited: only the package itself is pending. -/
def start (root : Package) (host : HostVersion) : Search :=
  Search.checkHost { package := root.id, pending := [root] } root host

end Search

/-- Resolves a package against a pool for a host. -/
def Package.resolution (root : Package) (pool : PackageSet) (host : HostVersion) : Resolution :=
  (Search.run root pool host (.start root host)).toResolution

end AddonPlanner
