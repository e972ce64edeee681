import AddonPlanner.Proofs.Dependents.Graph
import AddonPlanner.Proofs.Review
import AddonPlanner.Request

/-!
# The roles of a review

A review shows what was asked for, what is installed, updated and removed besides, and which installed packages depend on an
update. No package stands in two of these roles, with one exception: the installed version of a package that is to be installed
gives way to it, and still it counts as a dependent when it requires an update or another dependent
(`review_names_each_once_iff`). An update has no such exception, since there the selected packages are themselves updates.
-/

namespace AddonPlanner

/-- The host version `17.0`. -/
def HostVersion.seventeen : HostVersion := { eleven with major := 17 }

namespace Review

/-- The packages of a review, role by role. -/
def roles (r : Review) : List PackageSet :=
  [r.selected, r.installs, r.updates, r.removals, r.dependents]

/-- The reviewed packages that need a newer host, by the roles in which they are counted. -/
def needingHost (r : Review) : List PackageSet :=
  [r.selectedNeedingHost, r.updates.filter (!·.runsOn r.host), r.installs.filter (!·.runsOn r.host),
    r.dependents.filter (!·.runsOn r.host)]

/-- The identifiers that a review counts as needing a newer host, each as often as it is counted. -/
def countedIds (r : Review) : List String :=
  r.needingHost.flatMap Keyed.keys

theorem hostIssueCount_eq_length (r : Review) : r.hostIssueCount = r.countedIds.length := by
  simp [hostIssueCount, countedIds, needingHost, Keyed.keys, Keyed.size, Keyed.filter, List.countP_eq_length_filter]

end Review

namespace Planner

variable {pl : Planner} {goal : Goal} {selected : PackageSet}

/-! ## What a review takes from a plan -/

theorem contains_brought_of_installs_review {k : String} (h : (pl.review (pl.plan goal selected)).installs.contains k) :
    (pl.plan goal selected).brought.contains k := by
  rw [contains_brought_plan_eq_review, h, Bool.or_true, Bool.true_or]

theorem contains_brought_of_updates_review {k : String} (h : (pl.review (pl.plan goal selected)).updates.contains k) :
    (pl.plan goal selected).brought.contains k := by
  rw [contains_brought_plan_eq_review, h, Bool.or_true]

/-- A dependent is installed, stays, and is not updated. -/
theorem of_mem_dependents_review {x : Package} (hx : x ∈ (pl.review (pl.plan goal selected)).dependents) :
    x ∈ pl.catalog.installed ∧ (pl.plan goal selected).removals.contains x.id = false ∧
      (pl.plan goal selected).updates.contains x.id = false := by
  obtain ⟨hcandidate, -⟩ := Catalog.mem_dependents_iff_requires.mp hx
  obtain ⟨hx, hupdate⟩ := Keyed.mem_diff.mp hcandidate
  obtain ⟨hinstalled, hremoval⟩ := Keyed.mem_diff.mp hx
  exact ⟨hinstalled, hremoval, hupdate⟩

/-! ## Roles that are always apart -/

theorem installs_review_disjoint_dependents :
    (pl.review (pl.plan goal selected)).installs.Disjoint (pl.review (pl.plan goal selected)).dependents := by
  refine (Keyed.disjoint_iff.mpr fun x hx => ?_).symm
  obtain ⟨hinstalled, -, -⟩ := of_mem_dependents_review hx
  refine Keyed.contains_eq_false_iff.mpr fun y hy hid => ?_
  rw [installs_review_plan] at hy
  have habsent := (mem_installs_rescued hy).2.2
  rw [hid, Catalog.isInstalled, Keyed.contains_of_mem hinstalled] at habsent
  cases habsent

theorem updates_review_disjoint_dependents :
    (pl.review (pl.plan goal selected)).updates.Disjoint (pl.review (pl.plan goal selected)).dependents := by
  refine (Keyed.disjoint_iff.mpr fun x hx => ?_).symm
  obtain ⟨-, -, hupdate⟩ := of_mem_dependents_review hx
  cases goal with
  | install => exact hupdate
  | update =>
    show ((pl.plan .update selected).updates.diff selected).contains x.id = false
    rw [Keyed.contains_diff, hupdate, Bool.false_and]

theorem removals_plan_disjoint_dependents :
    (pl.plan goal selected).removals.Disjoint (pl.review (pl.plan goal selected)).dependents := by
  refine (Keyed.disjoint_iff.mpr fun x hx => ?_).symm
  exact (of_mem_dependents_review hx).2.1

/-- What a review shows of what comes in and of what goes is apart, whatever depends on it. -/
theorem pairwise_changes_review :
    [selected, (pl.review (pl.plan goal selected)).installs, (pl.review (pl.plan goal selected)).updates,
      (pl.plan goal selected).removals].Pairwise Keyed.Disjoint := by
  have hsi : selected.Disjoint (pl.review (pl.plan goal selected)).installs := by
    rw [installs_review_plan]
    exact disjoint_installs_selected.symm
  have hsu : selected.Disjoint (pl.review (pl.plan goal selected)).updates := by
    rw [updates_review_plan]
    exact disjoint_updates_selected.symm
  have hiu : (pl.review (pl.plan goal selected)).installs.Disjoint (pl.review (pl.plan goal selected)).updates := by
    rw [installs_review_plan, updates_review_plan]
    exact (Keyed.disjoint_iff.mpr fun _ hx => extends_plan.contains_installs hx).symm
  have hsr : selected.Disjoint (pl.plan goal selected).removals :=
    (Keyed.disjoint_iff.mpr fun _ hx => (of_mem_breaking (mem_removals_plan.mp hx).1).2).symm
  have hir : (pl.review (pl.plan goal selected)).installs.Disjoint (pl.plan goal selected).removals :=
    fun k hk => disjoint_brought_removals k (contains_brought_of_installs_review hk)
  have hur : (pl.review (pl.plan goal selected)).updates.Disjoint (pl.plan goal selected).removals :=
    fun k hk => disjoint_brought_removals k (contains_brought_of_updates_review hk)
  simp only [List.pairwise_cons, List.forall_mem_cons, List.not_mem_nil, false_implies, implies_true, List.Pairwise.nil, and_true]
  exact ⟨⟨hsi, hsu, hsr⟩, ⟨hiu, hir⟩, hur⟩

/-- The dependents are apart from all that changes, but for the selected packages. -/
theorem changes_review_disjoint_dependents :
    ∀ s ∈ [(pl.review (pl.plan goal selected)).installs, (pl.review (pl.plan goal selected)).updates,
      (pl.plan goal selected).removals], s.Disjoint (pl.review (pl.plan goal selected)).dependents := by
  simp only [List.forall_mem_cons, List.not_mem_nil, false_implies, implies_true, and_true]
  exact ⟨installs_review_disjoint_dependents, updates_review_disjoint_dependents, removals_plan_disjoint_dependents⟩

/-! ## Selected packages and dependents -/

/-- What a review of a plan shows can only meet among the selected packages and the dependents. -/
theorem pairwise_roles_review_iff :
    (pl.review (pl.plan goal selected)).roles.Pairwise Keyed.Disjoint ↔
      selected.Disjoint (pl.review (pl.plan goal selected)).dependents := by
  have happend : (pl.review (pl.plan goal selected)).roles =
      [selected, (pl.review (pl.plan goal selected)).installs, (pl.review (pl.plan goal selected)).updates,
        (pl.plan goal selected).removals] ++ [(pl.review (pl.plan goal selected)).dependents] := rfl
  rw [happend, List.pairwise_append]
  constructor
  · rintro ⟨-, -, hmeet⟩
    exact hmeet selected List.mem_cons_self _ (List.mem_singleton.mpr rfl)
  · intro hsel
    refine ⟨pairwise_changes_review, List.pairwise_singleton _ _, fun s hs t ht => ?_⟩
    obtain rfl := List.mem_singleton.mp ht
    rcases List.mem_cons.mp hs with rfl | hs
    · exact hsel
    · exact changes_review_disjoint_dependents s hs

/-- When the goal is to install, an installed version of a selected package is a dependent as soon as it requires an update or a
dependent. -/
theorem mem_dependents_review_install_iff {x : Package} (hx : x ∈ pl.catalog.installed) (hsel : selected.contains x.id) :
    x ∈ (pl.review (pl.plan .install selected)).dependents ↔
      ∃ q, (q ∈ (pl.plan .install selected).updates ∨ q ∈ (pl.review (pl.plan .install selected)).dependents) ∧
        x.requires q := by
  have hremoval : (pl.plan .install selected).removals.contains x.id = false := by
    refine Bool.eq_false_iff.mpr fun hc => ?_
    obtain ⟨y, hy, hid⟩ := Keyed.exists_mem_of_contains hc
    have hfree := (of_mem_breaking (mem_removals_plan.mp hy).1).2
    rw [hid, hsel] at hfree
    cases hfree
  have hupdate : (pl.plan .install selected).updates.contains x.id = false :=
    disjoint_updates_selected.symm x.id hsel
  have hcandidate : x ∈ pl.catalog.candidates (pl.plan .install selected).updates (pl.plan .install selected).removals :=
    Keyed.mem_diff.mpr ⟨Keyed.mem_diff.mpr ⟨hx, hremoval⟩, hupdate⟩
  exact Catalog.mem_dependents_iff_requires.trans (and_iff_right hcandidate)

/-- The selected packages are apart from the dependents when they are to be updated, and else when no installed version of theirs
requires an update or a dependent. -/
theorem selected_disjoint_dependents_iff :
    selected.Disjoint (pl.review (pl.plan goal selected)).dependents ↔
      (goal = .install → ∀ x ∈ pl.catalog.installed, selected.contains x.id →
        ∀ q, q ∈ (pl.plan goal selected).updates ∨ q ∈ (pl.review (pl.plan goal selected)).dependents →
          x.requires q = false) := by
  cases goal with
  | update =>
    refine iff_of_true (fun k hk => Keyed.contains_eq_false_iff.mpr fun y hy hid => ?_) (fun h => by cases h)
    obtain ⟨-, -, hupdate⟩ := of_mem_dependents_review hy
    change ((pl.rescued .update selected).updates.union selected).contains y.id = false at hupdate
    rw [Keyed.contains_union, hid, hk, Bool.or_true] at hupdate
    cases hupdate
  | install =>
    constructor
    · intro h _ x hx hsel q hq
      refine Bool.eq_false_iff.mpr fun hreq => ?_
      have hdependent := (mem_dependents_review_install_iff hx hsel).mpr ⟨q, hq, hreq⟩
      have hapart := h x.id hsel
      rw [Keyed.contains_of_mem hdependent] at hapart
      cases hapart
    · intro h
      refine (Keyed.disjoint_iff.mpr fun x hx => Bool.eq_false_iff.mpr fun hsel => ?_).symm
      have hinstalled := (of_mem_dependents_review hx).1
      obtain ⟨q, hq, hreq⟩ := (mem_dependents_review_install_iff hinstalled hsel).mp hx
      rw [h rfl x hinstalled hsel q hq] at hreq
      cases hreq

/-! ## What is counted -/

/-- No identifier is counted twice unless a selected package and its installed version both need a newer host. -/
theorem nodup_countedIds_review_iff :
    (pl.review (pl.plan goal selected)).countedIds.Nodup ↔
      ∀ x ∈ selected, ∀ y ∈ (pl.review (pl.plan goal selected)).dependents, y.id = x.id →
        x.runsOn pl.host ∨ y.runsOn pl.host := by
  have hpairwise := @pairwise_changes_review pl goal selected
  have hdependents := @changes_review_disjoint_dependents pl goal selected
  simp only [List.pairwise_cons, List.forall_mem_cons, List.not_mem_nil, false_implies, implies_true, List.Pairwise.nil,
    and_true] at hpairwise hdependents
  obtain ⟨⟨hsi, hsu, -⟩, ⟨hiu, -⟩, -⟩ := hpairwise
  obtain ⟨hid, hud, -⟩ := hdependents
  rw [Review.countedIds, Keyed.nodup_flatMap_keys_iff]
  simp only [Review.needingHost, List.pairwise_cons, List.forall_mem_cons, List.not_mem_nil, false_implies, implies_true,
    List.Pairwise.nil, and_true]
  constructor
  · rintro ⟨⟨-, -, hsd⟩, -⟩ x hx y hy hxy
    refine Classical.byContradiction fun hneither => ?_
    obtain ⟨hxruns, hyruns⟩ := not_or.mp hneither
    have hx' : x ∈ (pl.review (pl.plan goal selected)).selectedNeedingHost :=
      Keyed.mem_filter.mpr ⟨hx, by simpa using hxruns⟩
    have hy' : y ∈ (pl.review (pl.plan goal selected)).dependents.filter (!·.runsOn pl.host) :=
      Keyed.mem_filter.mpr ⟨hy, by simpa using hyruns⟩
    exact Keyed.contains_eq_false_iff.mp (Keyed.disjoint_iff.mp hsd x hx') y hy' hxy
  · intro h
    refine ⟨⟨hsu.filter _ _, hsi.filter _ _, ?_⟩, ⟨hiu.symm.filter _ _, hud.filter _ _⟩, hid.filter _ _⟩
    refine Keyed.disjoint_iff.mpr fun x hx => Keyed.contains_eq_false_iff.mpr fun y hy hxy => ?_
    obtain ⟨hx, hxruns⟩ := Keyed.mem_filter.mp hx
    obtain ⟨hy, hyruns⟩ := Keyed.mem_filter.mp hy
    rcases h x hx y hy hxy with hruns | hruns
    · simp [hruns] at hxruns
    · change (!y.runsOn pl.host) = true at hyruns
      rw [hruns] at hyruns
      cases hyruns

/-! ## Reviews of accepted requests -/

/-- A request that is accepted gets the plan for its goal. -/
theorem exists_goal_of_accepted {plan : Plan} (h : pl.planInstall selected = .ok plan ∨ pl.planUpdate selected = .ok plan) :
    ∃ goal, plan = pl.plan goal selected := by
  rcases h with h | h
  · simp only [planInstall, bind, Except.bind, pure, Except.pure] at h
    split at h
    · cases h
    · exact ⟨.install, (Except.ok.inj h).symm⟩
  · simp only [planUpdate, bind, Except.bind, pure, Except.pure] at h
    split at h
    · cases h
    · split at h
      · cases h
      · exact ⟨.update, (Except.ok.inj h).symm⟩

/-- What the review of an accepted request shows as selected, installed, updated and removed is always apart, and the dependents
are apart from all of it but the selected packages. They are apart from these too unless the request is to install, and an
installed version of a selected package requires an update or a dependent. The host issues are the identifiers that are counted,
and none is counted twice unless a selected package and its installed version among the dependents both need a newer host.
Whatever exact search of the graph is used finds these dependents. -/
theorem review_names_each_once_iff (pl : Planner) (selected : PackageSet) (plan : Plan)
    (h : pl.planInstall selected = .ok plan ∨ pl.planUpdate selected = .ok plan) :
    [(pl.review plan).selected, (pl.review plan).installs, (pl.review plan).updates,
        (pl.review plan).removals].Pairwise Keyed.Disjoint ∧
      (∀ s ∈ [(pl.review plan).installs, (pl.review plan).updates, (pl.review plan).removals],
        s.Disjoint (pl.review plan).dependents) ∧
      ((pl.review plan).roles.Pairwise Keyed.Disjoint ↔
        (plan.goal = .install → ∀ x ∈ pl.catalog.installed, selected.contains x.id →
          ∀ q, q ∈ plan.updates ∨ q ∈ (pl.review plan).dependents → x.requires q = false)) ∧
      (pl.review plan).hostIssueCount = (pl.review plan).countedIds.length ∧
      ((pl.review plan).countedIds.Nodup ↔
        ∀ x ∈ selected, ∀ y ∈ (pl.review plan).dependents, y.id = x.id → x.runsOn pl.host ∨ y.runsOn pl.host) ∧
      (∀ search : DependentsGraph.Traversal, search.Exact (pl.catalog.dependentsGraph plan.updates plan.removals) →
        pl.catalog.dependentsVia search plan.updates plan.removals = (pl.review plan).dependents) := by
  obtain ⟨goal, rfl⟩ := exists_goal_of_accepted h
  exact ⟨pairwise_changes_review, changes_review_disjoint_dependents,
    pairwise_roles_review_iff.trans selected_disjoint_dependents_iff, Review.hostIssueCount_eq_length _,
    nodup_countedIds_review_iff, fun _ hsearch => Catalog.dependentsVia_eq_dependents hsearch⟩

/-- The next version of an editor, which needs the next version of a library and a newer host. -/
def editor : Package := ⟨"editor", .two, some .seventeen, [⟨"library", .atLeast .two⟩], .available⟩

/-- A host with the first versions of the editor, which needs the library, of the library, and of a viewer that needs it too. -/
def desk : Planner where
  catalog :=
    { installed := .ofList [⟨"editor", .one, some .seventeen, [⟨"library", .any⟩], .installed⟩,
        ⟨"library", .one, none, [], .installed⟩, ⟨"viewer", .one, none, [⟨"library", .any⟩], .installed⟩]
      available := .ofList [editor, ⟨"library", .two, none, [], .available⟩] }
  host := .eleven

/-- The editor is known, and its installed version requires the library, which its next version updates: so the editor is asked for
and counts as a dependent, and is counted twice among those that need a newer host. -/
theorem editor_named_twice :
    desk.planInstall (.ofList [editor]) = .ok (desk.plan .install (.ofList [editor])) ∧
      (desk.review (desk.plan .install (.ofList [editor]))).selected.keys = ["editor"] ∧
      (desk.review (desk.plan .install (.ofList [editor]))).dependents.keys = ["editor", "viewer"] ∧
      ¬(desk.review (desk.plan .install (.ofList [editor]))).roles.Pairwise Keyed.Disjoint ∧
      (desk.review (desk.plan .install (.ofList [editor]))).countedIds = ["editor", "editor"] ∧
      (desk.review (desk.plan .install (.ofList [editor]))).hostIssueCount = 2 := by
  have hselected : (desk.review (desk.plan .install (.ofList [editor]))).selected.keys = ["editor"] := by decide +kernel
  have hdependents : (desk.review (desk.plan .install (.ofList [editor]))).dependents.keys = ["editor", "viewer"] := by
    decide +kernel
  refine ⟨rfl, hselected, hdependents, fun hpairwise => ?_, by decide +kernel, by decide +kernel⟩
  have hapart := pairwise_roles_review_iff.mp hpairwise "editor" (Keyed.mem_keys_iff.mp (by decide +kernel))
  have hdependent := Keyed.mem_keys_iff.mp (hdependents ▸ List.mem_cons_self : "editor" ∈ _)
  rw [hdependent] at hapart
  cases hapart

/-- The update of the editor names it once. -/
theorem editor_named_once :
    desk.planUpdate (.ofList [editor]) = .ok (desk.plan .update (.ofList [editor])) ∧
      (desk.review (desk.plan .update (.ofList [editor]))).roles.Pairwise Keyed.Disjoint ∧
      (desk.review (desk.plan .update (.ofList [editor]))).dependents.keys = ["viewer"] ∧
      (desk.review (desk.plan .update (.ofList [editor]))).countedIds = ["editor"] := by
  have haccepted : desk.planUpdate (.ofList [editor]) = .ok (desk.plan .update (.ofList [editor])) := rfl
  obtain ⟨-, -, hroles, -⟩ := review_names_each_once_iff desk (.ofList [editor]) _ (.inr haccepted)
  have hgoal : (desk.plan .update (.ofList [editor])).goal ≠ .install := by decide
  exact ⟨haccepted, hroles.mpr fun h => absurd h hgoal, by decide +kernel, by decide +kernel⟩

end Planner

end AddonPlanner
