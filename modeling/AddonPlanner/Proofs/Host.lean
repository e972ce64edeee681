import AddonPlanner.Proofs.Plan.WellFormed
import AddonPlanner.Proofs.Removal

/-!
# What the version of the host decides

The version of the host is at hand in every resolution, but a search only takes notes of it: on two hosts the same search differs
in these notes alone, step by step (`Search.SameButHost`). So plans and removals make the same changes on every host, and only the
question whether a newer host is needed has different answers (`plan_onHost`). A later host never needs to be newer where an
earlier one need not, since host versions are ordered (`runsOn_of_isLE`).
-/

namespace AddonPlanner

open Std

/-! ## The order of host versions -/

/-- What runs on a host runs on every later one; a number that is not given counts as zero in either version. -/
theorem Package.runsOn_of_isLE {p : Package} {host later : HostVersion} (h : (compare host later).isLE)
    (hruns : p.runsOn host) : p.runsOn later := by
  unfold runsOn at hruns ⊢
  cases hleast : p.minHost? with
  | none => rfl
  | some least =>
    rw [hleast] at hruns
    have hle : (compare least.weight host.weight).isLE := hruns
    exact TransOrd.isLE_trans (α := List UInt32) hle h

/-! ## Searches on two hosts -/

namespace Search

variable {root parent : Package} {pool : PackageSet} {host later : HostVersion} {s t : Search}

/-- The second search differs from the first at most in what it notes of the host. -/
def SameButHost (s t : Search) : Prop :=
  ∃ notes, t = { s with hostIssues := notes }

theorem SameButHost.trans {u : Search} (h : s.SameButHost t) (h' : t.SameButHost u) : s.SameButHost u := by
  obtain ⟨notes, rfl⟩ := h
  obtain ⟨notes', rfl⟩ := h'
  exact ⟨notes', rfl⟩

theorem SameButHost.symm (h : s.SameButHost t) : t.SameButHost s := by
  obtain ⟨notes, rfl⟩ := h
  exact ⟨s.hostIssues, rfl⟩

theorem sameButHost_checkHost (s : Search) (p : Package) (host : HostVersion) : s.SameButHost (s.checkHost p host) :=
  checkHost_eq s p host

theorem SameButHost.checkHost (h : s.SameButHost t) (p : Package) (host later : HostVersion) :
    (s.checkHost p host).SameButHost (t.checkHost p later) :=
  ((sameButHost_checkHost s p host).symm.trans h).trans (sameButHost_checkHost t p later)

theorem SameButHost.report (h : s.SameButHost t) (issue : Issue) : (s.report issue).SameButHost (t.report issue) := by
  obtain ⟨notes, rfl⟩ := h
  exact ⟨notes, rfl⟩

theorem SameButHost.setBounds (h : s.SameButHost t) (id : String) (b : Bounds Version) :
    (s.setBounds id b).SameButHost (t.setBounds id b) := by
  obtain ⟨notes, rfl⟩ := h
  exact ⟨notes, rfl⟩

theorem SameButHost.discover (h : s.SameButHost t) (p : Package) (host later : HostVersion) :
    (s.discover p host).SameButHost (t.discover p later) := by
  obtain ⟨notes, rfl⟩ := h
  have hadded : SameButHost { s with dependencies := s.dependencies.insert p }
      { s with dependencies := s.dependencies.insert p, hostIssues := notes } := ⟨notes, rfl⟩
  obtain ⟨notes', hnoted⟩ := hadded.checkHost p host later
  exact ⟨notes', by simp only [Search.discover, hnoted]⟩

/-- What a visit reads of the state does not depend on the host, so both searches take the same branch. -/
theorem SameButHost.visit (h : s.SameButHost t) (host later : HostVersion) (r : Requirement) :
    (visit root pool host parent s r).SameButHost (visit root pool later parent t r) := by
  have hread : t.narrowed? r = s.narrowed? r ∧ t.dependencies = s.dependencies := by
    obtain ⟨notes, rfl⟩ := h
    exact ⟨rfl, rfl⟩
  unfold Search.visit
  rw [hread.1]
  cases root.resolve? pool r.id with
  | none => exact h.report _
  | some found =>
    cases s.narrowed? r with
    | none => exact h.report _
    | some b =>
      dsimp only
      rw [dependencies_setBounds, dependencies_setBounds, hread.2]
      have hset := h.setBounds r.id b
      split
      · exact hset.report _
      · split
        · exact hset
        · exact hset.discover found host later

theorem SameButHost.expand (h : s.SameButHost t) (host later : HostVersion) (parent : Package) :
    (s.expand root pool host parent).SameButHost (t.expand root pool later parent) :=
  List.foldl_rel h fun r _ _ _ h => h.visit host later r

/-- Searches that are the same but for the host stay so to their end. -/
theorem SameButHost.run (h : s.SameButHost t) (root : Package) (pool : PackageSet) (host later : HostVersion) :
    (s.run root pool host).SameButHost (t.run root pool later) := by
  fun_induction Search.run root pool host s generalizing t with
  | case1 s hp =>
    obtain ⟨notes, rfl⟩ := h
    rw [run_of_pending_nil (s := { s with hostIssues := notes }) root pool later hp]
    exact ⟨notes, rfl⟩
  | case2 s parent rest hp ih =>
    obtain ⟨notes, rfl⟩ := h
    rw [run_of_pending_cons (s := { s with hostIssues := notes }) root pool later hp]
    exact ih (SameButHost.expand ⟨notes, rfl⟩ host later parent)

end Search

/-- Resolutions for two hosts have the same dependencies, bounds and issues. -/
theorem Package.exists_resolution_eq (root : Package) (pool : PackageSet) (host later : HostVersion) :
    ∃ notes, root.resolution pool later = { root.resolution pool host with hostIssues := notes } := by
  have hstart : (Search.start root host).SameButHost (Search.start root later) :=
    Search.SameButHost.checkHost ⟨[], rfl⟩ root host later
  obtain ⟨notes, hrun⟩ := hstart.run root pool host later
  exact ⟨notes, congrArg Search.toResolution hrun⟩

/-! ## Planners on two hosts -/

namespace Planner

variable {pl : Planner} {later : HostVersion}

/-- The planner for a host of another version. -/
def onHost (pl : Planner) (host : HostVersion) : Planner :=
  { pl with host }

@[simp] theorem catalog_onHost : (pl.onHost later).catalog = pl.catalog := rfl

theorem isBroken_onHost : (pl.onHost later).isBroken = pl.isBroken := by
  funext pool p
  obtain ⟨notes, hnotes⟩ := p.exists_resolution_eq pool pl.host later
  show (p.resolution pool later).hasIssue = (p.resolution pool pl.host).hasIssue
  rw [hnotes]
  rfl

theorem isTolerated_onHost : (pl.onHost later).isTolerated = pl.isTolerated := by
  funext doomed p
  rw [isTolerated, isTolerated, isBroken_onHost, catalog_onHost]

/-- A walk reads the dependencies and bounds of a resolution, which do not depend on the host. -/
theorem walk_onHost : (pl.onHost later).walk = pl.walk := by
  funext selected c p
  obtain ⟨notes, hnotes⟩ := p.exists_resolution_eq pl.catalog.available pl.host later
  show (p.resolution pl.catalog.available later).dependencies.toList.foldl
    (pl.provide selected (p.resolution pl.catalog.available later)) c = pl.walk selected c p
  rw [hnotes]
  rfl

theorem rescuer?_onHost : (pl.onHost later).rescuer? = pl.rescuer? := by
  funext p
  rw [rescuer?, rescuer?, isBroken_onHost, catalog_onHost]

theorem rescue_onHost : (pl.onHost later).rescue = pl.rescue := by
  funext selected c p
  rw [rescue, rescue, rescuer?_onHost, walk_onHost]

theorem breaking_onHost : (pl.onHost later).breaking = pl.breaking := by
  funext selected c
  rw [breaking, breaking, isBroken_onHost]
  rfl

theorem settle_onHost : (pl.onHost later).settle = pl.settle := by
  funext c
  rw [settle, settle, isTolerated_onHost]

/-- Walks, rescues and the last look at the removals come to the same on every host. -/
theorem changes_onHost : (pl.onHost later).changes = pl.changes := by
  funext goal selected walks rescues
  rw [changes, changes, walk_onHost, breaking_onHost, rescue_onHost, settle_onHost]
  rfl

theorem toChanges_plan_onHost (goal : Goal) (selected : PackageSet) :
    ((pl.onHost later).plan goal selected).toChanges = (pl.plan goal selected).toChanges := by
  show (pl.onHost later).changes goal selected selected.toList Keyed.toList = pl.changes goal selected selected.toList Keyed.toList
  rw [changes_onHost]

theorem removal_onHost (selected : PackageSet) : (pl.onHost later).removal selected = pl.removal selected := by
  have hdoomed : (pl.onHost later).doomed selected = pl.doomed selected := by
    refine Keyed.eq_of_forall_mem_iff fun x => ?_
    rw [mem_doomed_iff, mem_doomed_iff, isBroken_onHost, catalog_onHost]
  rw [removal, removal, hdoomed, isTolerated_onHost]

/-- What needs a newer host on a later host needs one on the earlier host too. -/
theorem needsNewerHost_of_onHost {goal : Goal} {selected : PackageSet} (h : (compare pl.host later).isLE)
    (hneeds : ((pl.onHost later).plan goal selected).needsNewerHost) : (pl.plan goal selected).needsNewerHost := by
  obtain ⟨x, hx, hruns⟩ := needsNewerHost_plan_iff.mp hneeds
  rw [toChanges_plan_onHost] at hx
  refine needsNewerHost_plan_iff.mpr ⟨x, hx, Bool.eq_false_iff.mpr fun hearlier => ?_⟩
  have hlater : x.runsOn later := Package.runsOn_of_isLE h hearlier
  exact absurd hlater (Bool.eq_false_iff.mp hruns)

/-- The version of the host does not decide which packages change: for any two hosts a plan makes the same changes, and a removal
takes the same packages. Of two hosts the later one needs to be newer only if the earlier one does. -/
theorem plan_onHost (pl : Planner) (later : HostVersion) (goal : Goal) (selected : PackageSet) :
    ((pl.onHost later).plan goal selected).toChanges = (pl.plan goal selected).toChanges ∧
      ((pl.onHost later).plan goal selected).selected = (pl.plan goal selected).selected ∧
      (pl.onHost later).removal selected = pl.removal selected ∧
      ((compare pl.host later).isLE →
        ((pl.onHost later).plan goal selected).needsNewerHost → (pl.plan goal selected).needsNewerHost) :=
  ⟨toChanges_plan_onHost goal selected, rfl, removal_onHost selected, needsNewerHost_of_onHost⟩

/-- The visualizer that is to be installed. -/
def visualizer : Package := ⟨"visualizer", .one, none, [⟨"codec", .atLeast .two⟩], .available⟩

/-- A host at version `8.0`, on which a visualizer needs the next codec, which needs host `17.0` and breaks the jukebox. -/
def lounge : Planner where
  catalog :=
    { installed := .ofList [⟨"codec", .one, none, [], .installed⟩,
        ⟨"jukebox", .one, none, [⟨"codec", .atMost .one⟩], .installed⟩]
      available := .ofList [⟨"codec", .two, some { HostVersion.eleven with major := 17 }, [], .available⟩, visualizer] }
  host := { HostVersion.eleven with major := 8 }

/-- The jukebox goes for the next codec on any host; `8.0` and `11.0` have to be newer for that codec, and `17.0.2` need not be. -/
theorem visualizer_on_three_hosts :
    (compare lounge.host .eleven).isLE ∧
      ((lounge.onHost .eleven).plan .install (.ofList [visualizer])).toChanges =
        (lounge.plan .install (.ofList [visualizer])).toChanges ∧
      ((lounge.onHost .eleven).plan .install (.ofList [visualizer])).selected =
        (lounge.plan .install (.ofList [visualizer])).selected ∧
      (lounge.onHost .eleven).removal (.ofList [visualizer]) = lounge.removal (.ofList [visualizer]) ∧
      ((lounge.onHost .eleven).plan .install (.ofList [visualizer])).needsNewerHost ∧
      (lounge.plan .install (.ofList [visualizer])).needsNewerHost ∧
      (lounge.plan .install (.ofList [visualizer])).removals.keys = ["jukebox"] ∧
      ((lounge.onHost ⟨17, some 0, some 2, fun _ => rfl⟩).plan .install (.ofList [visualizer])).needsNewerHost = false := by
  obtain ⟨hchanges, hselected, hremoval, hneeds⟩ := plan_onHost lounge .eleven .install (.ofList [visualizer])
  have hlater : (compare lounge.host .eleven).isLE := by decide
  have hneeded : ((lounge.onHost .eleven).plan .install (.ofList [visualizer])).needsNewerHost := by decide +kernel
  exact ⟨hlater, hchanges, hselected, hremoval, hneeded, hneeds hlater hneeded, by decide +kernel, by decide +kernel⟩

end Planner

end AddonPlanner
