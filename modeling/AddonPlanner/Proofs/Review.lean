import AddonPlanner.Proofs.Plan.WellFormed
import AddonPlanner.Review

/-!
# What a review shows of a plan

A review takes the selection from the installs or from the updates, as the goal says; what it shows then is what the walks and
rescues brought in (`installs_review_plan`, `updates_review_plan`). So a review leaves out nothing that comes in, and a plan that
need not be confirmed does nothing but what was asked for, though a review shows neither what is replaced nor what the other
packages need of the host (`review_covers_plan`).
-/

namespace AddonPlanner

/-- A plan that does nothing but what was asked for. -/
structure Plan.OnlySelected (p : Plan) : Prop where
  /-- All that comes in was asked for. -/
  brought : p.brought = p.selected
  /-- Nothing is removed. -/
  removals : p.removals = ∅
  /-- Only what was asked for takes the place of an installed version. -/
  replaced : ∀ k, p.replaced.contains k → p.selected.contains k
  /-- Nothing that comes in needs a newer host. -/
  needsNewerHost : p.needsNewerHost = false

theorem Review.needsConfirmation_eq_false_iff {r : Review} :
    r.needsConfirmation = false ↔
      r.removals = ∅ ∧ r.updates = ∅ ∧ r.installs = ∅ ∧ r.dependents = ∅ ∧ r.selectedNeedingHost = ∅ := by
  have hempty (s : PackageSet) : s.isEmpty = true ↔ s = ∅ := ⟨Keyed.eq_empty_of_isEmpty, fun h => h ▸ rfl⟩
  simp only [needsConfirmation, Bool.not_eq_false', Bool.and_eq_true, hempty, and_assoc]

namespace Planner

variable {pl : Planner} {goal : Goal} {selected : PackageSet}

/-- A review shows the installs of the walks and rescues. -/
theorem installs_review_plan : (pl.review (pl.plan goal selected)).installs = (pl.rescued goal selected).installs := by
  cases goal with
  | install => exact disjoint_installs_selected.union_diff
  | update => rfl

/-- A review shows the updates of the walks and rescues. -/
theorem updates_review_plan : (pl.review (pl.plan goal selected)).updates = (pl.rescued goal selected).updates := by
  cases goal with
  | install => rfl
  | update => exact disjoint_updates_selected.union_diff

/-- What comes in is the selection and what a review shows. -/
theorem contains_brought_plan_eq_review (k : String) :
    (pl.plan goal selected).brought.contains k = (selected.contains k ||
      (pl.review (pl.plan goal selected)).installs.contains k || (pl.review (pl.plan goal selected)).updates.contains k) := by
  rw [contains_brought_plan, Changes.contains_brought, installs_review_plan, updates_review_plan, Bool.or_assoc]

/-- A plan that need not be confirmed does nothing but what was asked for. -/
theorem onlySelected_of_needsConfirmation_eq_false (h : (pl.review (pl.plan goal selected)).needsConfirmation = false) :
    (pl.plan goal selected).OnlySelected := by
  obtain ⟨hremovals, hupdates, hinstalls, -, hhost⟩ := Review.needsConfirmation_eq_false_iff.mp h
  rw [updates_review_plan] at hupdates
  rw [installs_review_plan] at hinstalls
  have hbrought : (pl.plan goal selected).brought = selected := by
    refine Keyed.eq_of_forall_mem_iff fun x => mem_brought_plan.trans (or_iff_left ?_)
    rw [Changes.brought, hinstalls, hupdates]
    exact List.not_mem_nil
  constructor
  case brought => exact hbrought
  case removals => exact hremovals
  case replaced =>
    intro k hk
    rw [contains_replaced_plan, Bool.and_eq_true] at hk
    have hc : (pl.plan goal selected).brought.contains k := by
      rw [Changes.contains_brought, hk.1, Bool.or_true]
    rwa [hbrought] at hc
  case needsNewerHost =>
    refine Bool.eq_false_iff.mpr fun hneeds => ?_
    obtain ⟨x, hx, hruns⟩ := needsNewerHost_plan_iff.mp hneeds
    rw [hbrought] at hx
    have hshown : x ∈ (pl.review (pl.plan goal selected)).selectedNeedingHost :=
      Keyed.mem_filter.mpr ⟨hx, by rw [hruns]; rfl⟩
    rw [hhost] at hshown
    exact absurd hshown List.not_mem_nil

/-- A review covers its plan: what is installed or updated is the selection, the installs of the review and the updates of the
review, and each package stands in one of these only. A plan that need not be confirmed does nothing but what was asked for. -/
theorem review_covers_plan (pl : Planner) (goal : Goal) (selected : PackageSet) :
    (∀ k, ((pl.plan goal selected).installs.contains k || (pl.plan goal selected).updates.contains k) =
        (selected.contains k || (pl.review (pl.plan goal selected)).installs.contains k ||
          (pl.review (pl.plan goal selected)).updates.contains k)) ∧
      selected.Disjoint (pl.review (pl.plan goal selected)).installs ∧
      selected.Disjoint (pl.review (pl.plan goal selected)).updates ∧
      (pl.review (pl.plan goal selected)).installs.Disjoint (pl.review (pl.plan goal selected)).updates ∧
      ((pl.review (pl.plan goal selected)).needsConfirmation = false → (pl.plan goal selected).OnlySelected) := by
  refine ⟨fun k => ?_, ?_, ?_, ?_, onlySelected_of_needsConfirmation_eq_false⟩
  · rw [← Changes.contains_brought, contains_brought_plan_eq_review]
  · rw [installs_review_plan]
    exact disjoint_installs_selected.symm
  · rw [updates_review_plan]
    exact disjoint_updates_selected.symm
  · rw [installs_review_plan, updates_review_plan]
    refine (Keyed.disjoint_iff.mpr fun x hx => ?_).symm
    exact extends_plan.contains_installs hx

/-- The next version of a reader, which needs a dictionary. -/
def reader : Package := ⟨"reader", .two, some .eleven, [⟨"dictionary", .any⟩], .available⟩

/-- A host with the first version of the reader, with its dictionary and with a notebook. -/
def study : Planner where
  catalog :=
    { installed := .ofList [⟨"dictionary", .one, none, [], .installed⟩,
        ⟨"notebook", .one, none, [⟨"dictionary", .any⟩], .installed⟩, ⟨"reader", .one, none, [], .installed⟩]
      available := .ofList [⟨"dictionary", .two, none, [], .available⟩, reader] }
  host := .eleven

/-- The reader is updated without asking, and nothing else changes. -/
theorem reader_updated_unasked :
    (study.review (study.plan .update (.ofList [reader]))).needsConfirmation = false ∧
      (study.plan .update (.ofList [reader])).OnlySelected ∧
      (study.plan .update (.ofList [reader])).replaced.keys = ["reader"] := by
  have hunasked : (study.review (study.plan .update (.ofList [reader]))).needsConfirmation = false := by decide +kernel
  obtain ⟨-, -, -, -, honly⟩ := review_covers_plan study .update (.ofList [reader])
  exact ⟨hunasked, honly hunasked, by decide +kernel⟩

end Planner

end AddonPlanner
