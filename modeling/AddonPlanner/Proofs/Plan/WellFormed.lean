import AddonPlanner.Proofs.Plan.Breakage

/-!
# Well-formed plans

The sets of a plan fit together (`wellFormed_plan`): no package is in two of the roles, and what a plan replaces are just the
installed versions of what it updates. Replaced packages and updates are added side by side, once in a walk and once in a
rescue; that the two sets keep step is an invariant of both (`Changes.Paired`).
-/

namespace AddonPlanner

namespace Changes

/-- Changes that fit a catalog and what was asked for. -/
structure WellFormed (catalog : Catalog) (selected : PackageSet) (c : Changes) : Prop where
  /-- A package is installed or updated, but not both. -/
  installs_updates : c.installs.Disjoint c.updates
  /-- Nothing that is installed is removed. -/
  installs_removals : c.installs.Disjoint c.removals
  /-- Nothing that is updated is removed. -/
  updates_removals : c.updates.Disjoint c.removals
  /-- Nothing that was asked for is removed. -/
  removals_selected : c.removals.Disjoint selected
  /-- A removed package is the installed one. -/
  removals_installed : ∀ x ∈ c.removals, catalog.installed.get? x.id = some x
  /-- A replaced package is the installed one. -/
  replaced_installed : ∀ x ∈ c.replaced, catalog.installed.get? x.id = some x
  /-- The installed versions of the updates are replaced, and nothing else is. -/
  contains_replaced : ∀ k, c.replaced.contains k = (c.updates.contains k && catalog.isInstalled k)
  /-- What is installed without being asked for is the available package, and the host has no version of it. -/
  installs_available : ∀ x ∈ c.installs, x ∉ selected →
    catalog.available.get? x.id = some x ∧ catalog.isInstalled x.id = false
  /-- What is updated without being asked for is the available package, and the host has a version of it. -/
  updates_available : ∀ x ∈ c.updates, x ∉ selected →
    catalog.available.get? x.id = some x ∧ catalog.isInstalled x.id = true

/-- Replaced packages and updates keep step: what is replaced is installed, and an identifier is replaced when it was from the
start or has an update. -/
structure Paired (pl : Planner) (start : PackageSet) (c : Changes) : Prop where
  mem_installed : ∀ x ∈ c.replaced, x ∈ pl.catalog.installed
  contains_replaced : ∀ k, c.replaced.contains k = (start.contains k || c.updates.contains k)

variable {pl : Planner} {start : PackageSet} {c d : Changes}

/-- Replacing an installed package by an update of it keeps the two sets in step. -/
theorem Paired.exchange (h : c.Paired pl start) {present p : Package} (hpresent : present ∈ pl.catalog.installed)
    (hid : p.id = present.id) (hreplaced : d.replaced = c.replaced.insert present) (hupdates : d.updates = c.updates.insert p) :
    d.Paired pl start := by
  constructor
  · intro x hx
    rw [hreplaced] at hx
    rcases Keyed.mem_of_mem_insert hx with rfl | hx
    · exact hpresent
    · exact h.mem_installed x hx
  · intro k
    rw [hreplaced, hupdates, Keyed.contains_insert, Keyed.contains_insert, h.contains_replaced, hid, Bool.or_left_comm]

/-- A sequence of steps that keep the two sets in step does so too. -/
theorem Paired.foldl {f : Changes → Package → Changes} {l : List Package}
    (hf : ∀ (c : Changes), ∀ p ∈ l, c.Paired pl start → (f c p).Paired pl start) (h : c.Paired pl start) :
    (l.foldl f c).Paired pl start := by
  induction l generalizing c with
  | nil => exact h
  | cons p rest ih =>
    have hrest : ∀ (c : Changes), ∀ q ∈ rest, c.Paired pl start → (f c q).Paired pl start :=
      fun c q hq => hf c q (List.mem_cons_of_mem _ hq)
    exact ih hrest (hf c p List.mem_cons_self h)

end Changes

namespace Planner

variable {pl : Planner} {goal : Goal} {selected start : PackageSet} {c : Changes}

/-! ## Replaced packages and updates -/

/-- Providing for a package adds an update and what it replaces together, or neither. -/
theorem paired_provide (walked : Resolution) (p : Package) (h : c.Paired pl start) :
    (pl.provide selected walked c p).Paired pl start := by
  unfold provide
  split
  · exact h
  · split
    · exact ⟨h.mem_installed, h.contains_replaced⟩
    · next present hpresent =>
      split
      · exact h
      · exact h.exchange (Keyed.mem_of_get? hpresent) (Keyed.key_of_get? hpresent).symm rfl rfl

theorem paired_walk (w : Package) (h : c.Paired pl start) : (pl.walk selected c w).Paired pl start :=
  Changes.Paired.foldl (fun _ p _ hc => paired_provide _ p hc) h

theorem paired_rescue {p : Package} (hp : p ∈ pl.catalog.installed) (h : c.Paired pl start) :
    (pl.rescue selected c p).Paired pl start := by
  cases hq : pl.rescuer? p with
  | none =>
    rw [rescue_of_eq_none c hq]
    exact h
  | some q =>
    rw [rescue_of_eq_some c hq]
    exact paired_walk q (h.exchange hp (rescuer?_eq_some hq).2.1 rfl rfl)

/-- An update replaces from the start the installed versions of what was asked for. -/
theorem contains_replaced_seed_update (k : String) :
    (pl.seed .update selected).replaced.contains k = (selected.contains k && pl.catalog.installed.contains k) := by
  show Keyed.contains (.ofList _) k = _
  rw [Keyed.contains_ofList, Bool.eq_iff_iff, List.any_eq_true, Bool.and_eq_true]
  constructor
  · rintro ⟨x, hx, hid⟩
    obtain ⟨p, hp, hget⟩ := List.mem_filterMap.mp hx
    have hpx : x.id = p.id := Keyed.key_of_get? hget
    obtain rfl : x.id = k := by simpa using hid
    exact ⟨hpx ▸ Keyed.contains_of_mem hp, Keyed.contains_of_mem (Keyed.mem_of_get? hget)⟩
  · rintro ⟨hsel, hinst⟩
    obtain ⟨p, hp, rfl⟩ := Keyed.exists_mem_of_contains hsel
    obtain ⟨x, hx, hid⟩ := Keyed.exists_mem_of_contains hinst
    exact ⟨x, List.mem_filterMap.mpr ⟨p, hp, Keyed.get?_eq_some_iff.mpr ⟨hx, hid⟩⟩, by simpa using hid⟩

theorem paired_seed : (pl.seed goal selected).Paired pl (pl.seed goal selected).replaced := by
  cases goal with
  | install => exact ⟨fun x hx => absurd hx List.not_mem_nil, fun _ => rfl⟩
  | update =>
    refine ⟨fun x hx => ?_, fun _ => (Bool.or_false _).symm⟩
    obtain ⟨p, -, hget⟩ := List.mem_filterMap.mp (Keyed.mem_of_mem_ofList hx)
    exact Keyed.mem_of_get? hget

/-- After the walks and rescues, what is replaced is what was replaced from the start and what has an update. -/
theorem paired_rescued : (pl.rescued goal selected).Paired pl (pl.seed goal selected).replaced := by
  have hwalked : (pl.walked goal selected).Paired pl (pl.seed goal selected).replaced :=
    Changes.Paired.foldl (fun _ w _ hc => paired_walk w hc) paired_seed
  refine Changes.Paired.foldl (fun _ p hp hc => ?_) ⟨hwalked.mem_installed, hwalked.contains_replaced⟩
  exact paired_rescue (of_mem_breaking hp).1 hc

/-! ## What comes in unasked -/

/-- What is drawn in without being asked for is available. -/
theorem mem_available_of_draws {x : Package} (hx : pl.Draws goal selected x) (hsel : selected.contains x.id = false) :
    x ∈ pl.catalog.available := by
  obtain ⟨w, hw, rfl | hneeds⟩ := hx
  · rcases hw with hw | ⟨p, -, hq⟩
    · rw [Keyed.contains_of_mem hw] at hsel
      cases hsel
    · exact (rescuer?_eq_some hq).1
  · exact Package.mem_of_mem_dependencies hneeds

theorem mem_installs_rescued {x : Package} (hx : x ∈ (pl.rescued goal selected).installs) :
    pl.catalog.available.get? x.id = some x ∧ selected.contains x.id = false ∧ pl.catalog.isInstalled x.id = false := by
  obtain ⟨hdraws, hsel, habsent⟩ := (extends_plan.of_mem_installs x hx).resolve_left List.not_mem_nil
  exact ⟨Keyed.mem_iff_get?.mp (mem_available_of_draws hdraws hsel), hsel, habsent⟩

theorem mem_updates_rescued {x : Package} (hx : x ∈ (pl.rescued goal selected).updates) :
    pl.catalog.available.get? x.id = some x ∧ selected.contains x.id = false ∧ pl.catalog.isInstalled x.id = true := by
  obtain ⟨hdraws, hsel, hpresent⟩ := (extends_plan.of_mem_updates x hx).resolve_left List.not_mem_nil
  exact ⟨Keyed.mem_iff_get?.mp (mem_available_of_draws hdraws hsel), hsel, hpresent⟩

theorem disjoint_installs_selected : (pl.rescued goal selected).installs.Disjoint selected :=
  Keyed.disjoint_iff.mpr fun _ hx => (mem_installs_rescued hx).2.1

theorem disjoint_updates_selected : (pl.rescued goal selected).updates.Disjoint selected :=
  Keyed.disjoint_iff.mpr fun _ hx => (mem_updates_rescued hx).2.1

/-! ## Plans -/

/-- What was asked for joins the installs or the updates, as the goal says. -/
theorem mem_installs_plan {x : Package} (hx : x ∈ (pl.plan goal selected).installs) :
    (goal = .install ∧ x ∈ selected) ∨ x ∈ (pl.rescued goal selected).installs := by
  cases goal with
  | install =>
    rcases Keyed.mem_union.mp hx with hx | ⟨hx, -⟩
    · exact Or.inr hx
    · exact Or.inl ⟨rfl, hx⟩
  | update => exact Or.inr hx

theorem mem_updates_plan {x : Package} (hx : x ∈ (pl.plan goal selected).updates) :
    (goal = .update ∧ x ∈ selected) ∨ x ∈ (pl.rescued goal selected).updates := by
  cases goal with
  | install => exact Or.inr hx
  | update =>
    rcases Keyed.mem_union.mp hx with hx | ⟨hx, -⟩
    · exact Or.inr hx
    · exact Or.inl ⟨rfl, hx⟩

/-- Nothing is installed and updated at once. -/
theorem disjoint_installs_updates : (pl.plan goal selected).installs.Disjoint (pl.plan goal selected).updates := by
  refine Keyed.disjoint_iff.mpr fun x hx => Keyed.contains_eq_false_iff.mpr fun y hy hid => ?_
  -- the goal puts what was asked for into one of the sets; the rest is told apart by what is installed
  rcases mem_installs_plan hx with ⟨hgoal, hx⟩ | hx
  · rcases mem_updates_plan hy with ⟨hgoal', -⟩ | hy
    · rw [hgoal] at hgoal'
      cases hgoal'
    · have hsel := (mem_updates_rescued hy).2.1
      rw [hid, Keyed.contains_of_mem hx] at hsel
      cases hsel
  · obtain ⟨-, hsel, habsent⟩ := mem_installs_rescued hx
    rcases mem_updates_plan hy with ⟨-, hy⟩ | hy
    · rw [← hid, Keyed.contains_of_mem hy] at hsel
      cases hsel
    · rw [← hid, (mem_updates_rescued hy).2.2] at habsent
      cases habsent

theorem mem_brought_plan_iff {x : Package} :
    x ∈ (pl.plan goal selected).brought ↔ x ∈ (pl.plan goal selected).installs ∨ x ∈ (pl.plan goal selected).updates :=
  Keyed.mem_union_of_disjoint (Keyed.disjoint_iff.mp disjoint_installs_updates.symm)

/-- A plan needs a newer host exactly when a package that it brings in does; what was asked for comes in with the rest. -/
theorem needsNewerHost_plan_iff :
    (pl.plan goal selected).needsNewerHost ↔ ∃ x ∈ (pl.plan goal selected).brought, x.runsOn pl.host = false := by
  show (selected.toList ++ (pl.plan goal selected).installs.toList ++ (pl.plan goal selected).updates.toList).any
    (!·.runsOn pl.host) = true ↔ _
  rw [List.any_eq_true]
  constructor
  · rintro ⟨x, hx, hruns⟩
    refine ⟨x, ?_, by simpa using hruns⟩
    rcases List.mem_append.mp hx with hx | hupdate
    · rcases List.mem_append.mp hx with hsel | hinstall
      · exact mem_brought_plan.mpr (Or.inl hsel)
      · exact mem_brought_plan_iff.mpr (Or.inl hinstall)
    · exact mem_brought_plan_iff.mpr (Or.inr hupdate)
  · rintro ⟨x, hx, hruns⟩
    refine ⟨x, ?_, by simpa using hruns⟩
    rcases mem_brought_plan_iff.mp hx with hinstall | hupdate
    · exact List.mem_append_left _ (List.mem_append_right _ hinstall)
    · exact List.mem_append_right _ hupdate

/-- Nothing that a plan removes comes in. -/
theorem disjoint_brought_removals : (pl.plan goal selected).brought.Disjoint (pl.plan goal selected).removals := by
  refine (Keyed.disjoint_iff.mpr fun x hx => ?_).symm
  obtain ⟨hbreak, -, hrescued, -⟩ := mem_removals_plan.mp hx
  rw [contains_brought_plan, (of_mem_breaking hbreak).2, hrescued, Bool.or_false]

theorem replaced_plan : (pl.plan goal selected).replaced = (pl.rescued goal selected).replaced := by
  cases goal <;> rfl

/-- A plan replaces the installed versions of its updates, those that were asked for included. -/
theorem contains_replaced_plan (k : String) :
    (pl.plan goal selected).replaced.contains k =
      ((pl.plan goal selected).updates.contains k && pl.catalog.isInstalled k) := by
  have hpresent : (pl.rescued goal selected).updates.contains k → pl.catalog.isInstalled k = true := by
    intro hk
    obtain ⟨x, hx, rfl⟩ := Keyed.exists_mem_of_contains hk
    exact (mem_updates_rescued hx).2.2
  rw [replaced_plan, paired_rescued.contains_replaced]
  cases goal with
  | install =>
    show (pl.rescued .install selected).updates.contains k =
      ((pl.rescued .install selected).updates.contains k && pl.catalog.isInstalled k)
    rw [Bool.eq_iff_iff, Bool.and_eq_true]
    exact ⟨fun hk => ⟨hk, hpresent hk⟩, And.left⟩
  | update =>
    show _ = (((pl.rescued .update selected).updates.union selected).contains k && pl.catalog.isInstalled k)
    rw [contains_replaced_seed_update, Keyed.contains_union, Bool.and_or_distrib_right, Bool.or_comm]
    -- both sides have the selected identifiers that are installed; the other updates are all installed
    cases hk : (pl.rescued .update selected).updates.contains k with
    | false => rfl
    | true => rw [hpresent hk]; rfl

/-- Every plan is well-formed, whatever the catalog and whatever was asked for. -/
theorem wellFormed_plan (pl : Planner) (goal : Goal) (selected : PackageSet) :
    (pl.plan goal selected).WellFormed pl.catalog selected := by
  have hbreaking : ∀ x ∈ (pl.plan goal selected).removals, x ∈ pl.catalog.installed ∧ selected.contains x.id = false := by
    intro x hx
    exact of_mem_breaking (mem_removals_plan.mp hx).1
  constructor
  case installs_updates => exact disjoint_installs_updates
  case installs_removals =>
    intro k hk
    exact disjoint_brought_removals k (by rw [Changes.contains_brought, hk, Bool.true_or])
  case updates_removals =>
    intro k hk
    exact disjoint_brought_removals k (by rw [Changes.contains_brought, hk, Bool.or_true])
  case removals_selected => exact Keyed.disjoint_iff.mpr fun x hx => (hbreaking x hx).2
  case removals_installed => exact fun x hx => Keyed.mem_iff_get?.mp (hbreaking x hx).1
  case replaced_installed =>
    intro x hx
    rw [replaced_plan] at hx
    exact Keyed.mem_iff_get?.mp (paired_rescued.mem_installed x hx)
  case contains_replaced => exact contains_replaced_plan
  case installs_available =>
    intro x hx hsel
    obtain ⟨havailable, -, habsent⟩ := mem_installs_rescued ((mem_installs_plan hx).resolve_left fun h => hsel h.2)
    exact ⟨havailable, habsent⟩
  case updates_available =>
    intro x hx hsel
    obtain ⟨havailable, -, hpresent⟩ := mem_updates_rescued ((mem_updates_plan hx).resolve_left fun h => hsel h.2)
    exact ⟨havailable, hpresent⟩

end Planner

end AddonPlanner
