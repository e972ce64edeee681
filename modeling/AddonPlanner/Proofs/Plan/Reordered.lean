import AddonPlanner.Proofs.Plan.Breakage
import AddonPlanner.Proofs.Plan.Entries
import AddonPlanner.Proofs.Plan.Goal
import AddonPlanner.Proofs.Removal.Cascade
import AddonPlanner.Proofs.Resolution.Reordered

/-!
# Plans and the order of requirements

Two planners that differ in the order of requirements alone come to the same plan when the packages asked for are consistent
(`plan_reordered`): what they walk, find broken, rescue and remove corresponds package by package. The rescuers need no such
condition, because a rescuer is sound. Without it the order may decide what is installed (`order_decides_driver`).
-/

namespace AddonPlanner

/-- The status of a release is looked up by its version, and nothing else is read of the entries but their statuses. -/
theorem Catalog.statusOf_eq (c : Catalog) (p : Package) : c.statusOf p =
    (((((c.installed.get? p.id).toList ++ (c.available.get? p.id).toList).map fun q => (q.version, q.status)).find?
      (·.1 == p.version)).map Prod.snd).getD p.status := by
  rw [statusOf, List.find?_map]
  generalize (c.installed.get? p.id).toList ++ (c.available.get? p.id).toList = l
  show _ = (((l.find? (·.version == p.version)).map fun q => (q.version, q.status)).map Prod.snd).getD p.status
  cases l.find? (·.version == p.version) with
  | none => rfl
  | some entry => rfl

namespace Planner

/-- Planners for the same host that differ in the order of requirements alone. -/
structure Reordered (pl pl' : Planner) : Prop where
  installed : pl.catalog.installed.Reordered pl'.catalog.installed
  available : pl.catalog.available.Reordered pl'.catalog.available
  host : pl.host = pl'.host

variable {pl pl' : Planner} {goal : Goal} {selected selected' : PackageSet}

theorem Reordered.symm (h : pl.Reordered pl') : pl'.Reordered pl :=
  ⟨h.installed.symm, h.available.symm, h.host.symm⟩

/-! ## Questions to a planner -/

theorem Reordered.statusOf_eq (h : pl.Reordered pl') {p p' : Package} (hp : p.Reordered p') :
    pl.catalog.statusOf p = pl'.catalog.statusOf p' := by
  have hentry {s t : PackageSet} (hst : s.Reordered t) :
      (s.get? p.id).toList.map (fun q => (q.version, q.status)) = (t.get? p'.id).toList.map fun q => (q.version, q.status) := by
    rw [← hp.id]
    cases hs : s.get? p.id with
    | none => rw [hst.get?_eq_none hs]
    | some x =>
      obtain ⟨y, hy, hxy⟩ := hst.exists_get? hs
      simp [hy, hxy.version, hxy.status]
  rw [Catalog.statusOf_eq, Catalog.statusOf_eq, List.map_append, List.map_append, hentry h.installed, hentry h.available,
    hp.version, hp.status]

/-- Whether a package is broken in a pool does not depend on the order of requirements. -/
theorem isBroken_eq_of_reordered {pool pool' : PackageSet} (hpool : pool.Reordered pool') {p p' : Package} (hp : p.Reordered p') :
    pl.isBroken pool p = pl'.isBroken pool' p' := by
  rw [Bool.eq_iff_iff, isBroken_iff, isBroken_iff]
  exact not_congr ⟨Package.Sound.of_reordered hp hpool, Package.Sound.of_reordered hp.symm hpool.symm⟩

theorem Reordered.exists_rescuer? (h : pl.Reordered pl') {p p' q : Package} (hp : p.Reordered p')
    (hq : pl.rescuer? p = some q) : ∃ q', pl'.rescuer? p' = some q' ∧ q.Reordered q' := by
  unfold rescuer? at hq
  cases hfound : pl.catalog.available.get? p.id with
  | none => simp [hfound] at hq
  | some x =>
    obtain ⟨x', hx', hxx'⟩ := h.available.exists_get? hfound
    simp only [hfound] at hq
    split at hq
    · cases hq
    · next hno =>
      obtain rfl := Option.some.inj hq
      rw [hxx'.version, hp.version, isBroken_eq_of_reordered h.available hxx'] at hno
      refine ⟨x', ?_, hxx'⟩
      rw [rescuer?, ← hp.id, hx']
      exact if_neg hno

theorem Reordered.rescuer?_eq_none (h : pl.Reordered pl') {p p' : Package} (hp : p.Reordered p') (hnone : pl.rescuer? p = none) :
    pl'.rescuer? p' = none := by
  cases hq : pl'.rescuer? p' with
  | none => rfl
  | some q' =>
    obtain ⟨q, hq, -⟩ := h.symm.exists_rescuer? hp.symm hq
    rw [hnone] at hq
    cases hq

/-! ## Walks -/

/-- What is asked of two planners when they and the selections differ in the order of requirements alone and the packages asked
for are consistent. -/
structure SameRequest (pl pl' : Planner) (selected selected' : PackageSet) : Prop where
  planner : pl.Reordered pl'
  selection : selected.Reordered selected'
  consistent : ∀ w ∈ selected, w.Consistent pl.catalog.available

theorem SameRequest.symm (h : SameRequest pl pl' selected selected') : SameRequest pl' pl selected' selected := by
  refine ⟨h.planner.symm, h.selection.symm, fun w' hw' => ?_⟩
  obtain ⟨w, hw, hww'⟩ := h.selection.2 w' hw'
  exact (h.consistent w hw).of_reordered hww'.symm h.planner.available

variable (h : SameRequest pl pl' selected selected')

include h

/-- A walk of a consistent package installs the same in any order of the requirements. -/
theorem SameRequest.exists_install {w w' : Package} (hw : w.Reordered w') (hc : w.Consistent pl.catalog.available) {x : Package}
    (he : .install x ∈ pl.walkEdits selected w) : ∃ x', .install x' ∈ pl'.walkEdits selected' w' ∧ x.Reordered x' := by
  obtain ⟨hx, hsel, hst, hinst⟩ := install_mem_walkEdits.mp he
  obtain ⟨x', hx', hxx'⟩ := hc.exists_dependency hw h.planner.available hx
  rw [h.planner.host] at hx'
  refine ⟨x', install_mem_walkEdits.mpr ⟨hx', ?_, ?_, ?_⟩, hxx'⟩
  · rw [← hxx'.id, ← h.selection.contains_eq, hsel]
  · rw [← h.planner.statusOf_eq hxx', hst]
  · rw [← hxx'.id, h.planner.installed.get?_eq_none hinst]

/-- A walk of a consistent package exchanges the same in any order of the requirements. -/
theorem SameRequest.exists_exchange {w w' : Package} (hw : w.Reordered w') (hc : w.Consistent pl.catalog.available)
    {present x : Package} (he : .exchange present x ∈ pl.walkEdits selected w) :
    ∃ x', (∃ present', .exchange present' x' ∈ pl'.walkEdits selected' w') ∧ x.Reordered x' := by
  obtain ⟨hx, hsel, hst, hinst, b, hb, hout⟩ := exchange_mem_walkEdits.mp he
  obtain ⟨x', hx', hxx'⟩ := hc.exists_dependency hw h.planner.available hx
  obtain ⟨present', hinst', hpp'⟩ := h.planner.installed.exists_get? hinst
  obtain ⟨b', hb', hsame⟩ := hc.exists_boundsFor?_reordered hw h.planner.available hx hx' hxx'.id hb
  rw [h.planner.host] at hx' hb'
  refine ⟨x', ⟨present', exchange_mem_walkEdits.mpr ⟨hx', ?_, ?_, ?_, b', hb', ?_⟩⟩, hxx'⟩
  · rw [← hxx'.id, ← h.selection.contains_eq, hsel]
  · rw [← h.planner.statusOf_eq hxx', hst]
  · rw [← hxx'.id, hinst']
  · rw [hsame, ← hpp'.version, hout]

theorem SameRequest.exists_installs_walked {x : Package} (hx : x ∈ (pl.walked goal selected).installs) :
    ∃ x' ∈ (pl'.walked goal selected').installs, x.Reordered x' := by
  obtain ⟨w, hw, he⟩ := mem_installs_walked_iff.mp hx
  obtain ⟨w', hw', hww'⟩ := h.selection.1 w hw
  obtain ⟨x', he', hxx'⟩ := h.exists_install hww' (h.consistent w hw) he
  exact ⟨x', mem_installs_walked_iff.mpr ⟨w', hw', he'⟩, hxx'⟩

theorem SameRequest.exists_updates_walked {x : Package} (hx : x ∈ (pl.walked goal selected).updates) :
    ∃ x' ∈ (pl'.walked goal selected').updates, x.Reordered x' := by
  obtain ⟨w, hw, present, he⟩ := mem_updates_walked_iff.mp hx
  obtain ⟨w', hw', hww'⟩ := h.selection.1 w hw
  obtain ⟨x', he', hxx'⟩ := h.exists_exchange hww' (h.consistent w hw) he
  exact ⟨x', mem_updates_walked_iff.mpr ⟨w', hw', he'⟩, hxx'⟩

theorem SameRequest.updates_walked : (pl.walked goal selected).updates.Reordered (pl'.walked goal selected').updates :=
  ⟨fun _ hx => h.exists_updates_walked hx, fun _ hx => h.symm.exists_updates_walked hx⟩

/-! ## What breaks -/

theorem SameRequest.exists_staying {x : Package} (hx : x ∈ pl.staying selected (pl.walked goal selected)) :
    ∃ x' ∈ pl'.staying selected' (pl'.walked goal selected'), x.Reordered x' := by
  obtain ⟨hinst, hsel, hupdates⟩ := mem_staying.mp hx
  obtain ⟨x', hx', hxx'⟩ := h.planner.installed.1 x hinst
  refine ⟨x', mem_staying.mpr ⟨hx', ?_, ?_⟩, hxx'⟩
  · rw [← hxx'.id, ← h.selection.contains_eq, hsel]
  · rw [← hxx'.id, ← h.updates_walked.contains_eq, hupdates]

theorem SameRequest.exists_expected {x : Package} (hx : x ∈ pl.expected goal selected) :
    ∃ x' ∈ pl'.expected goal selected', x.Reordered x' := by
  rcases mem_expected.mp hx with hx | hx | hx
  · obtain ⟨x', hx', hxx'⟩ := h.exists_staying hx
    exact ⟨x', mem_expected.mpr (Or.inl hx'), hxx'⟩
  · obtain ⟨x', hx', hxx'⟩ := h.selection.1 x hx
    exact ⟨x', mem_expected.mpr (Or.inr (Or.inl hx')), hxx'⟩
  · rcases (extends_walked goal).mem_brought.mp hx with hx | hx
    · obtain ⟨x', hx', hxx'⟩ := h.exists_installs_walked hx
      exact ⟨x', mem_expected.mpr (Or.inr (Or.inr ((extends_walked goal).mem_brought.mpr (Or.inl hx')))), hxx'⟩
    · obtain ⟨x', hx', hxx'⟩ := h.exists_updates_walked hx
      exact ⟨x', mem_expected.mpr (Or.inr (Or.inr ((extends_walked goal).mem_brought.mpr (Or.inr hx')))), hxx'⟩

theorem SameRequest.exists_breaking {p : Package} (hp : p ∈ pl.breaking selected (pl.walked goal selected)) :
    ∃ p' ∈ pl'.breaking selected' (pl'.walked goal selected'), p.Reordered p' := by
  obtain ⟨hstaying, hbroken⟩ := mem_breaking_iff.mp hp
  obtain ⟨p', hp', hpp'⟩ := h.exists_staying hstaying
  have hexpected : (pl.expected goal selected).Reordered (pl'.expected goal selected') :=
    ⟨fun _ hx => h.exists_expected hx, fun _ hx => h.symm.exists_expected hx⟩
  refine ⟨p', mem_breaking_iff.mpr ⟨hp', ?_⟩, hpp'⟩
  rw [← isBroken_eq_of_reordered hexpected hpp', hbroken]

/-! ## What comes in and what goes -/

/-- The walked packages correspond, and all of them are consistent. -/
theorem SameRequest.exists_walks {w : Package} (hw : pl.Walks goal selected w) :
    w.Consistent pl.catalog.available ∧ ∃ w', pl'.Walks goal selected' w' ∧ w.Reordered w' := by
  rcases hw with hw | ⟨p, hp, hq⟩
  · obtain ⟨w', hw', hww'⟩ := h.selection.1 w hw
    exact ⟨h.consistent w hw, w', Or.inl hw', hww'⟩
  · obtain ⟨p', hp', hpp'⟩ := h.exists_breaking hp
    obtain ⟨w', hq', hww'⟩ := h.planner.exists_rescuer? hpp' hq
    exact ⟨(rescuer?_eq_some hq).2.2.consistent, w', Or.inr ⟨p', hp', hq'⟩, hww'⟩

theorem SameRequest.exists_installs_rescued {x : Package} (hx : x ∈ (pl.rescued goal selected).installs) :
    ∃ x' ∈ (pl'.rescued goal selected').installs, x.Reordered x' := by
  obtain ⟨w, hw, he⟩ := mem_installs_rescued_iff.mp hx
  obtain ⟨hc, w', hw', hww'⟩ := h.exists_walks hw
  obtain ⟨x', he', hxx'⟩ := h.exists_install hww' hc he
  exact ⟨x', mem_installs_rescued_iff.mpr ⟨w', hw', he'⟩, hxx'⟩

theorem SameRequest.exists_updates_rescued {x : Package} (hx : x ∈ (pl.rescued goal selected).updates) :
    ∃ x' ∈ (pl'.rescued goal selected').updates, x.Reordered x' := by
  rcases mem_updates_rescued_iff.mp hx with ⟨p, hp, hq⟩ | ⟨w, hw, present, he⟩
  · obtain ⟨p', hp', hpp'⟩ := h.exists_breaking hp
    obtain ⟨x', hq', hxx'⟩ := h.planner.exists_rescuer? hpp' hq
    exact ⟨x', mem_updates_rescued_iff.mpr (Or.inl ⟨p', hp', hq'⟩), hxx'⟩
  · obtain ⟨hc, w', hw', hww'⟩ := h.exists_walks hw
    obtain ⟨x', he', hxx'⟩ := h.exists_exchange hww' hc he
    exact ⟨x', mem_updates_rescued_iff.mpr (Or.inr ⟨w', hw', he'⟩), hxx'⟩

theorem SameRequest.exists_removals_rescued {x : Package} (hx : x ∈ (pl.rescued goal selected).removals) :
    ∃ x' ∈ (pl'.rescued goal selected').removals, x.Reordered x' := by
  obtain ⟨hbreak, hnone⟩ := mem_removals_rescued.mp hx
  obtain ⟨x', hx', hxx'⟩ := h.exists_breaking hbreak
  exact ⟨x', mem_removals_rescued.mpr ⟨hx', h.planner.rescuer?_eq_none hxx' hnone⟩, hxx'⟩

theorem SameRequest.contains_brought_rescued (k : String) :
    (pl.rescued goal selected).brought.contains k = (pl'.rescued goal selected').brought.contains k := by
  have hinstalls : (pl.rescued goal selected).installs.Reordered (pl'.rescued goal selected').installs :=
    ⟨fun _ hx => h.exists_installs_rescued hx, fun _ hx => h.symm.exists_installs_rescued hx⟩
  have hupdates : (pl.rescued goal selected).updates.Reordered (pl'.rescued goal selected').updates :=
    ⟨fun _ hx => h.exists_updates_rescued hx, fun _ hx => h.symm.exists_updates_rescued hx⟩
  rw [Changes.contains_brought, Changes.contains_brought, hinstalls.contains_eq, hupdates.contains_eq]

/-- Toleration asks for what the package requires by name, in whatever order. -/
theorem SameRequest.isTolerated_eq {x x' : Package} (hx : x.Reordered x') :
    pl.isTolerated (pl.rescued goal selected).removals x = pl'.isTolerated (pl'.rescued goal selected').removals x' := by
  have hremovals : (pl.rescued goal selected).removals.Reordered (pl'.rescued goal selected').removals :=
    ⟨fun _ hx => h.exists_removals_rescued hx, fun _ hx => h.symm.exists_removals_rescued hx⟩
  have hrequires : x.requiresAny (pl.rescued goal selected).removals = x'.requiresAny (pl'.rescued goal selected').removals := by
    unfold Package.requiresAny
    rw [hx.requirements.any_eq]
    simp only [hremovals.contains_eq]
  rw [isTolerated, isTolerated, isBroken_eq_of_reordered h.planner.installed hx, hrequires]

/-! ## In the plan -/

theorem SameRequest.exists_installs_plan {x : Package} (hx : x ∈ (pl.plan goal selected).installs) :
    ∃ x' ∈ (pl'.plan goal selected').installs, x.Reordered x' := by
  rcases mem_installs_plan_iff.mp hx with ⟨hgoal, hx⟩ | hx
  · obtain ⟨x', hx', hxx'⟩ := h.selection.1 x hx
    exact ⟨x', mem_installs_plan_iff.mpr (Or.inl ⟨hgoal, hx'⟩), hxx'⟩
  · obtain ⟨x', hx', hxx'⟩ := h.exists_installs_rescued hx
    exact ⟨x', mem_installs_plan_iff.mpr (Or.inr hx'), hxx'⟩

theorem SameRequest.exists_updates_plan {x : Package} (hx : x ∈ (pl.plan goal selected).updates) :
    ∃ x' ∈ (pl'.plan goal selected').updates, x.Reordered x' := by
  rcases mem_updates_plan_iff.mp hx with ⟨hgoal, hx⟩ | hx
  · obtain ⟨x', hx', hxx'⟩ := h.selection.1 x hx
    exact ⟨x', mem_updates_plan_iff.mpr (Or.inl ⟨hgoal, hx'⟩), hxx'⟩
  · obtain ⟨x', hx', hxx'⟩ := h.exists_updates_rescued hx
    exact ⟨x', mem_updates_plan_iff.mpr (Or.inr hx'), hxx'⟩

theorem SameRequest.updates_plan : (pl.plan goal selected).updates.Reordered (pl'.plan goal selected').updates :=
  ⟨fun _ hx => h.exists_updates_plan hx, fun _ hx => h.symm.exists_updates_plan hx⟩

theorem SameRequest.exists_replaced_plan {x : Package} (hx : x ∈ (pl.plan goal selected).replaced) :
    ∃ x' ∈ (pl'.plan goal selected').replaced, x.Reordered x' := by
  obtain ⟨hinst, hupdate⟩ := mem_replaced_plan_iff.mp hx
  obtain ⟨x', hx', hxx'⟩ := h.planner.installed.1 x hinst
  refine ⟨x', mem_replaced_plan_iff.mpr ⟨hx', ?_⟩, hxx'⟩
  rw [← hxx'.id, ← h.updates_plan.contains_eq, hupdate]

theorem SameRequest.exists_removals_plan {x : Package} (hx : x ∈ (pl.plan goal selected).removals) :
    ∃ x' ∈ (pl'.plan goal selected').removals, x.Reordered x' := by
  obtain ⟨hbreak, hnone, hbrought, htolerated⟩ := mem_removals_plan.mp hx
  obtain ⟨x', hx', hxx'⟩ := h.exists_breaking hbreak
  refine ⟨x', mem_removals_plan.mpr ⟨hx', h.planner.rescuer?_eq_none hxx' hnone, ?_, ?_⟩, hxx'⟩
  · rw [← hxx'.id, ← h.contains_brought_rescued, hbrought]
  · rw [← h.isTolerated_eq hxx', htolerated]

omit h

/-- The order in which packages declare their requirements does not change a plan when the packages asked for are consistent:
the same packages at the same versions are replaced, updated, installed and removed. -/
theorem plan_reordered (pl pl' : Planner) (goal : Goal) (selected selected' : PackageSet) (hpl : pl.Reordered pl')
    (hselected : selected.Reordered selected') (hconsistent : ∀ w ∈ selected, w.Consistent pl.catalog.available) :
    (pl.plan goal selected).replaced.Reordered (pl'.plan goal selected').replaced ∧
      (pl.plan goal selected).updates.Reordered (pl'.plan goal selected').updates ∧
      (pl.plan goal selected).installs.Reordered (pl'.plan goal selected').installs ∧
      (pl.plan goal selected).removals.Reordered (pl'.plan goal selected').removals := by
  have h : SameRequest pl pl' selected selected' := ⟨hpl, hselected, hconsistent⟩
  -- one direction suffices for each set, because the requests may be exchanged
  refine ⟨?_, h.updates_plan, ?_, ?_⟩
  · constructor
    · intro x hx
      exact h.exists_replaced_plan hx
    · intro x hx
      exact h.symm.exists_replaced_plan hx
  · constructor
    · intro x hx
      exact h.exists_installs_plan hx
    · intro x hx
      exact h.symm.exists_installs_plan hx
  · constructor
    · intro x hx
      exact h.exists_removals_plan hx
    · intro x hx
      exact h.symm.exists_removals_plan hx

/-- A tablet, which declares the ink before the pen. -/
def inkFirst : Package := ⟨"tablet", .one, none, [⟨"ink", .any⟩, ⟨"pen", .any⟩], .available⟩

/-- The same tablet, which declares the pen before the ink. -/
def penFirst : Package := ⟨"tablet", .one, none, [⟨"pen", .any⟩, ⟨"ink", .any⟩], .available⟩

/-- A brush, which declares the driver after the pen. -/
def driverLast : Package := ⟨"brush", .one, none, [⟨"pen", .any⟩, ⟨"driver", .any⟩], .available⟩

/-- The same brush, which declares the driver before the pen. -/
def driverFirst : Package := ⟨"brush", .one, none, [⟨"driver", .any⟩, ⟨"pen", .any⟩], .available⟩

/-- A host with nothing on it, where the pen takes any driver and the ink asks for one that does not exist yet. -/
def easel (p : Package) : Planner where
  catalog :=
    { installed := ∅
      available := (Keyed.ofList [⟨"driver", .one, none, [], .available⟩,
        ⟨"ink", .one, none, [⟨"driver", .atLeast .two⟩], .available⟩,
        ⟨"pen", .one, none, [⟨"driver", .any⟩], .available⟩] : PackageSet).insert p }
  host := .eleven

theorem reordered_easel {p q : Package} (hpq : p.Reordered q) :
    (easel p).Reordered (easel q) ∧ PackageSet.Reordered (.ofList [p]) (.ofList [q]) :=
  ⟨⟨.refl _, (PackageSet.Reordered.refl _).insert hpq, rfl⟩, (PackageSet.Reordered.refl ∅).insert hpq⟩

/-- The driver is installed when the tablet declares the ink before the pen, because the pen is expanded first then, and it is
not installed when the tablet declares the pen before the ink. -/
theorem order_decides_driver :
    ((easel inkFirst).Reordered (easel penFirst) ∧ PackageSet.Reordered (.ofList [inkFirst]) (.ofList [penFirst])) ∧
    ((easel inkFirst).plan .install (.ofList [inkFirst])).installs.keys = ["driver", "ink", "pen", "tablet"] ∧
    ((easel penFirst).plan .install (.ofList [penFirst])).installs.keys = ["ink", "pen", "tablet"] := by
  have hswap : inkFirst.Reordered penFirst := ⟨rfl, rfl, rfl, rfl, .swap _ _ _⟩
  exact ⟨reordered_easel hswap, by decide +kernel⟩

/-- The brush is consistent, and it has the driver and the pen installed in either order. -/
theorem brush_installs_in_either_order :
    ((easel driverLast).Reordered (easel driverFirst) ∧ PackageSet.Reordered (.ofList [driverLast]) (.ofList [driverFirst])) ∧
    (∀ w ∈ (Keyed.ofList [driverLast] : PackageSet), w.Consistent (easel driverLast).catalog.available) ∧
    ((easel driverLast).plan .install (.ofList [driverLast])).installs.keys = ["brush", "driver", "pen"] ∧
    PackageSet.Reordered ((easel driverLast).plan .install (.ofList [driverLast])).installs
      ((easel driverFirst).plan .install (.ofList [driverFirst])).installs := by
  have hswap : driverLast.Reordered driverFirst := ⟨rfl, rfl, rfl, rfl, .swap _ _ _⟩
  obtain ⟨hplanner, hselected⟩ := reordered_easel hswap
  have hconsistent : ∀ w ∈ (Keyed.ofList [driverLast] : PackageSet), w.Consistent (easel driverLast).catalog.available := by
    intro w hw
    obtain rfl := List.mem_singleton.mp (Keyed.mem_of_mem_ofList hw)
    have hfine : (easel driverLast).isBroken (easel driverLast).catalog.available driverLast = false := by decide +kernel
    exact (isBroken_eq_false_iff.mp hfine).consistent
  obtain ⟨-, -, hinstalls, -⟩ := plan_reordered _ _ .install _ _ hplanner hselected hconsistent
  exact ⟨⟨hplanner, hselected⟩, hconsistent, by decide +kernel, hinstalls⟩

end Planner

end AddonPlanner
