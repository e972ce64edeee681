import AddonPlanner.Proofs.Plan.Order
import AddonPlanner.Proofs.Plan.WellFormed

/-!
# Installing and updating the same selection

The goal is asked for at both ends of a plan: at the start an update replaces the installed versions of the selection, and in the
end the selection joins the installs or the updates. The walks, the rescues and the last look at the removals do not read what is
replaced, so in between both plans make the same edits (`sameButReplaced_rescued`), and they differ in nothing but the two ends
(`plan_update_eq_plan_install`).
-/

namespace AddonPlanner

namespace Changes

/-- Changes that differ at most in what they replace. -/
structure SameButReplaced (c d : Changes) : Prop where
  removals : d.removals = c.removals
  updates : d.updates = c.updates
  installs : d.installs = c.installs

variable {c d : Changes}

theorem SameButReplaced.edit (h : c.SameButReplaced d) (e : Edit) : (c.edit e).SameButReplaced (d.edit e) := by
  cases e with
  | install p => exact ⟨h.removals, h.updates, congrArg (·.insert p) h.installs⟩
  | exchange present p => exact ⟨h.removals, congrArg (·.insert p) h.updates, h.installs⟩
  | spare id => exact ⟨congrArg (·.erase id) h.removals, h.updates, h.installs⟩

/-- Steps that come to edits of their own keep changes the same but for what is replaced. -/
theorem SameButReplaced.foldl {f : Changes → Package → Changes} {edits : Package → List Edit}
    (hf : ∀ c p, f c p = (edits p).foldl Changes.edit c) (h : c.SameButReplaced d) (l : List Package) :
    (l.foldl f c).SameButReplaced (l.foldl f d) := by
  rw [foldl_eq_foldl_edit hf, foldl_eq_foldl_edit hf]
  exact List.foldl_rel h fun e _ _ _ h => h.edit e

theorem SameButReplaced.brought (h : c.SameButReplaced d) : d.brought = c.brought := by
  rw [Changes.brought, Changes.brought, h.installs, h.updates]

end Changes

namespace Planner

variable {pl : Planner} {goal : Goal} {selected : PackageSet} {c d : Changes}

/-! ## The middle of a plan -/

theorem sameButReplaced_walked : (pl.walked .install selected).SameButReplaced (pl.walked .update selected) := by
  have hseed : (pl.seed .install selected).SameButReplaced (pl.seed .update selected) := ⟨rfl, rfl, rfl⟩
  exact hseed.foldl walk_eq_foldl selected.toList

theorem breaking_eq_of_sameButReplaced (pl : Planner) (selected : PackageSet) (h : c.SameButReplaced d) :
    pl.breaking selected d = pl.breaking selected c := by
  rw [breaking, breaking, staying, staying, h.updates, h.installs]

/-- Up to the end of the rescues an update does what an installation does, but for what it replaces. -/
theorem sameButReplaced_rescued : (pl.rescued .install selected).SameButReplaced (pl.rescued .update selected) := by
  have hwalked := @sameButReplaced_walked pl selected
  have hbreaking := breaking_eq_of_sameButReplaced pl selected hwalked
  have hstart : Changes.SameButReplaced
      { pl.walked .install selected with removals := pl.breaking selected (pl.walked .install selected) }
      { pl.walked .update selected with removals := pl.breaking selected (pl.walked .update selected) } :=
    ⟨hbreaking, hwalked.updates, hwalked.installs⟩
  rw [rescued, rescued]
  rw [hbreaking] at hstart ⊢
  exact hstart.foldl rescue_eq_foldl _

theorem settle_of_sameButReplaced (pl : Planner) (h : c.SameButReplaced d) :
    (pl.settle c).SameButReplaced (pl.settle d) := by
  refine ⟨?_, h.updates, h.installs⟩
  rw [settle, settle, h.removals, h.updates, h.installs]

/-! ## What is replaced -/

/-- A plan replaces the installed packages that it has updates for. -/
theorem mem_replaced_plan_iff {x : Package} :
    x ∈ (pl.plan goal selected).replaced ↔
      x ∈ pl.catalog.installed ∧ (pl.plan goal selected).updates.contains x.id := by
  have hinstalled : ∀ y ∈ (pl.plan goal selected).replaced, y ∈ pl.catalog.installed := by
    intro y hy
    rw [replaced_plan] at hy
    exact paired_rescued.mem_installed y hy
  constructor
  · intro hx
    have hc := Keyed.contains_of_mem hx
    rw [contains_replaced_plan, Bool.and_eq_true] at hc
    exact ⟨hinstalled x hx, hc.1⟩
  · rintro ⟨hx, hupdate⟩
    have hc : (pl.plan goal selected).replaced.contains x.id := by
      rw [contains_replaced_plan, hupdate, Catalog.isInstalled, Keyed.contains_of_mem hx]
      rfl
    obtain ⟨y, hy, hid⟩ := Keyed.exists_mem_of_contains hc
    rwa [← Keyed.eq_of_key_eq (hinstalled y hy) hx hid]

/-- An update replaces what an installation replaces, and the installed versions of the selection. -/
theorem replaced_plan_update :
    (pl.plan .update selected).replaced =
      (pl.plan .install selected).replaced.union (pl.catalog.installed.filter (selected.contains ·.id)) := by
  have hupdates (k : String) : (pl.plan .update selected).updates.contains k =
      ((pl.plan .install selected).updates.contains k || selected.contains k) := by
    show ((pl.rescued .update selected).updates.union selected).contains k = _
    rw [Keyed.contains_union, sameButReplaced_rescued.updates]
    rfl
  have hdisjoint : ∀ x ∈ pl.catalog.installed.filter (selected.contains ·.id),
      (pl.plan .install selected).replaced.contains x.id = false := by
    intro x hx
    obtain ⟨-, hsel⟩ := Keyed.mem_filter.mp hx
    refine Keyed.contains_eq_false_iff.mpr fun y hy hid => ?_
    obtain ⟨-, hupdate⟩ := mem_replaced_plan_iff.mp hy
    have hfree := disjoint_updates_selected y.id hupdate
    rw [hid, hsel] at hfree
    cases hfree
  refine Keyed.eq_of_forall_mem_iff fun x => ?_
  rw [Keyed.mem_union_of_disjoint hdisjoint, mem_replaced_plan_iff, mem_replaced_plan_iff, Keyed.mem_filter, hupdates,
    Bool.or_eq_true, and_or_left]

/-! ## Both plans -/

theorem needsNewerHost_plan_update : (pl.plan .update selected).needsNewerHost = (pl.plan .install selected).needsNewerHost := by
  have hbrought (x : Package) : x ∈ (pl.plan .update selected).brought ↔ x ∈ (pl.plan .install selected).brought := by
    rw [mem_brought_plan, mem_brought_plan, sameButReplaced_rescued.brought]
  rw [Bool.eq_iff_iff, needsNewerHost_plan_iff, needsNewerHost_plan_iff]
  exact exists_congr fun x => and_congr_left' (hbrought x)

/-- An update of a selection and an installation of it have the same removals and agree on whether they need a newer host. The
selection stands beside the installs of the one and among those of the other, with the updates it is the other way round, and the
update replaces the installed versions of the selection besides. -/
theorem plan_update_eq_plan_install (pl : Planner) (selected : PackageSet) :
    (pl.plan .update selected).removals = (pl.plan .install selected).removals ∧
      (pl.plan .update selected).needsNewerHost = (pl.plan .install selected).needsNewerHost ∧
      (pl.plan .update selected).installs.Disjoint selected ∧
      (pl.plan .install selected).updates.Disjoint selected ∧
      (pl.plan .install selected).installs = (pl.plan .update selected).installs.union selected ∧
      (pl.plan .update selected).updates = (pl.plan .install selected).updates.union selected ∧
      (pl.plan .update selected).replaced =
        (pl.plan .install selected).replaced.union (pl.catalog.installed.filter (selected.contains ·.id)) := by
  have hsettled := settle_of_sameButReplaced pl (@sameButReplaced_rescued pl selected)
  refine ⟨hsettled.removals, needsNewerHost_plan_update, disjoint_installs_selected, disjoint_updates_selected, ?_, ?_,
    replaced_plan_update⟩
  · exact congrArg (·.union selected) hsettled.installs.symm
  · exact congrArg (·.union selected) hsettled.updates

end Planner

end AddonPlanner
