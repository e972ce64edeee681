import AddonPlanner.Proofs.Plan.Breakage

/-!
# A plan for nothing

When nothing is asked for, nothing is walked, but what is broken already is still looked for: it is rescued where an update will
do, and is removed when it requires another broken package. A plan for nothing is empty exactly when neither happens
(`plan_nothing_iff`); `nothing_asked_updates_viewer` shows one that is not.
-/

namespace AddonPlanner.Planner

variable {pl : Planner} {goal : Goal} {selected : PackageSet}

theorem walked_nothing : pl.walked goal ∅ = {} := by
  cases goal <;> rfl

/-- Before anything comes in, what would break is what is broken. -/
theorem breaking_nothing : pl.breaking ∅ {} = pl.broken := by
  have hstaying : pl.staying ∅ {} = pl.catalog.installed :=
    Keyed.eq_of_forall_mem_iff fun _ => mem_staying.trans (and_iff_left ⟨rfl, rfl⟩)
  show (pl.staying ∅ {}).filter (pl.isBroken (pl.staying ∅ {})) = pl.broken
  rw [hstaying]
  rfl

/-- Rescues without a rescuer change nothing. -/
theorem foldl_rescue_of_eq_none {l : List Package} (h : ∀ p ∈ l, pl.rescuer? p = none) (c : Changes) :
    l.foldl (pl.rescue selected) c = c := by
  induction l with
  | nil => rfl
  | cons p rest ih =>
    rw [List.foldl_cons, rescue_of_eq_none c (h p List.mem_cons_self)]
    exact ih fun q hq => h q (List.mem_cons_of_mem _ hq)

/-- Where nothing that is broken can be rescued, a plan for nothing comes to the removals of what is broken. -/
theorem rescued_nothing (h : ∀ p ∈ pl.broken, pl.rescuer? p = none) : pl.rescued goal ∅ = { removals := pl.broken } := by
  rw [rescued, walked_nothing, breaking_nothing]
  exact foldl_rescue_of_eq_none h _

theorem withSelected_nothing (c : Changes) : withSelected goal ∅ c = c := by
  cases goal <;> rfl

theorem toChanges_plan_nothing : (pl.plan goal ∅).toChanges = pl.settle (pl.rescued goal ∅) :=
  withSelected_nothing _

/-- If a plan for nothing updates nothing, then nothing that is broken can be rescued. -/
theorem rescuer?_eq_none_of_updates_eq_empty (h : (pl.plan goal ∅).updates = ∅) : ∀ p ∈ pl.broken, pl.rescuer? p = none := by
  intro p hp
  cases hq : pl.rescuer? p with
  | none => rfl
  | some q =>
    have hbreaking : p ∈ pl.breaking ∅ (pl.walked goal ∅) := by rwa [walked_nothing, breaking_nothing]
    have hupdated : (pl.plan goal ∅).updates.contains p.id := by
      rw [toChanges_plan_nothing]
      exact contains_updates_rescued hbreaking hq
    rw [h] at hupdated
    cases hupdated

/-- Where nothing can be rescued, a plan for nothing removes what is broken and requires something broken, and that is all. -/
theorem toChanges_plan_nothing_of_eq_none (h : ∀ p ∈ pl.broken, pl.rescuer? p = none) :
    (pl.plan goal ∅).toChanges = { removals := pl.broken.filter (·.requiresAny pl.broken) } := by
  have hsettled : (pl.settle { removals := pl.broken }).removals = pl.broken.filter (·.requiresAny pl.broken) := by
    refine Keyed.eq_of_forall_mem_iff fun x => ?_
    rw [settle, Keyed.mem_filter, Keyed.mem_filter]
    refine and_congr_right fun hx => ?_
    -- all that would be removed was broken before, so it is tolerated unless it requires something that would be removed
    rw [isTolerated, (mem_broken.mp hx).2, Bool.true_and, Bool.not_not]
    exact Iff.rfl
  rw [toChanges_plan_nothing, rescued_nothing h, ← hsettled]
  rfl

theorem needsNewerHost_plan_nothing (h : (pl.plan goal ∅).toChanges = {}) : (pl.plan goal ∅).needsNewerHost = false := by
  show ((∅ : PackageSet).toList ++ (pl.plan goal ∅).toChanges.installs.toList ++
    (pl.plan goal ∅).toChanges.updates.toList).any (!·.runsOn pl.host) = false
  rw [h]
  rfl

/-- A plan for nothing is empty, and needs no newer host, exactly when no broken package has a rescuer or requires a broken
package. -/
theorem plan_nothing_iff (pl : Planner) (goal : Goal) :
    ((pl.plan goal ∅).toChanges = {} ∧ (pl.plan goal ∅).needsNewerHost = false) ↔
      ∀ p ∈ pl.broken, pl.rescuer? p = none ∧ p.requiresAny pl.broken = false := by
  constructor
  · rintro ⟨hempty, -⟩ p hp
    have hnone := rescuer?_eq_none_of_updates_eq_empty (congrArg Changes.updates hempty)
    rw [toChanges_plan_nothing_of_eq_none hnone] at hempty
    have hremovals : pl.broken.filter (·.requiresAny pl.broken) = ∅ := congrArg Changes.removals hempty
    refine ⟨hnone p hp, Bool.eq_false_iff.mpr fun hreq => ?_⟩
    have hmem : p ∈ pl.broken.filter (·.requiresAny pl.broken) := Keyed.mem_filter.mpr ⟨hp, hreq⟩
    rw [hremovals] at hmem
    cases hmem
  · intro h
    have hremovals : pl.broken.filter (·.requiresAny pl.broken) = ∅ := by
      refine Keyed.eq_empty_of_forall_not_mem fun x hx => ?_
      obtain ⟨hx, hreq⟩ := Keyed.mem_filter.mp hx
      rw [(h x hx).2] at hreq
      cases hreq
    have hempty : (pl.plan goal ∅).toChanges = {} := by
      rw [toChanges_plan_nothing_of_eq_none fun p hp => (h p hp).1, hremovals]
    exact ⟨hempty, needsNewerHost_plan_nothing hempty⟩

/-- A host whose viewer lacks its codec, and whose catalog has a version of the viewer that can do without. -/
def gallery : Planner where
  catalog :=
    { installed := .ofList [⟨"viewer", .one, none, [⟨"codec", .any⟩], .installed⟩]
      available := .ofList [⟨"viewer", .two, none, [], .available⟩] }
  host := .eleven

/-- Nothing is asked for, whether to install it or to update it, and yet the viewer is updated: it was broken before. -/
theorem nothing_asked_updates_viewer :
    ((gallery.plan .install ∅).updates.keys = ["viewer"] ∧ (gallery.plan .install ∅).replaced.keys = ["viewer"]) ∧
      (gallery.plan .update ∅).updates.keys = ["viewer"] ∧ (gallery.plan .update ∅).replaced.keys = ["viewer"] := by
  decide +kernel

end AddonPlanner.Planner
