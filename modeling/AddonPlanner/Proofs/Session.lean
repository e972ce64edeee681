import AddonPlanner.Proofs.Catalog.Listing
import AddonPlanner.Proofs.Plan.WellFormed
import AddonPlanner.Session

/-!
# Carrying out plans and removals

A session can carry out every plan and every removal it has made (`Session.carryOut_eq_ok_iff`). The packages of the catalog then
have the statuses that their new roles imply, and to carry out the same once more changes nothing (`Session.carryOut_again`). What
is installed is the outcome of the plan, but for the selected packages that are to be installed although the host has a version of
them: the outcome has the selected version, and the host keeps its own (`Planner.get?_carriedOut_plan`). So an update is carried out
to its outcome (`Planner.carriedOut_plan_update`), and what is broken in the one is broken in the other
(`Planner.isBroken_carryOut_update`).
-/

namespace AddonPlanner

/-! ## Statuses -/

namespace Package

@[simp] theorem id_withStatus (p : Package) (status : Status) : (p.withStatus status).id = p.id := rfl

@[simp] theorem version_withStatus (p : Package) (status : Status) : (p.withStatus status).version = p.version := rfl

/-- A status that has been forgotten becomes the one that the role implies. -/
theorem orStatus_withStatus_unknown (p : Package) (status : Status) :
    (p.withStatus .unknown).orStatus status = p.withStatus status :=
  if_pos rfl

variable {root : Package} {pool pool' : PackageSet} {status : Status}

/-- Identifiers resolve to the same packages at whatever status. -/
theorem resolve?_withStatus (hpool : ∀ k, pool'.get? k = (pool.get? k).map (·.withStatus status)) (id : String) :
    (root.withStatus status).resolve? pool' id = (root.resolve? pool id).map (·.withStatus status) := by
  unfold resolve?
  rw [id_withStatus, hpool]
  split <;> rfl

/-- What a package reaches does not depend on statuses. -/
theorem reaches_withStatus_iff (hpool : ∀ k, pool'.get? k = (pool.get? k).map (·.withStatus status)) {x' : Package} :
    (root.withStatus status).Reaches pool' x' ↔ ∃ x, root.Reaches pool x ∧ x' = x.withStatus status := by
  constructor
  · intro h
    induction h with
    | self => exact ⟨root, .self, rfl⟩
    | step _ hr hres ih =>
      obtain ⟨x, hx, rfl⟩ := ih
      rw [resolve?_withStatus hpool, Option.map_eq_some_iff] at hres
      obtain ⟨y, hy, rfl⟩ := hres
      exact ⟨y, hx.step hr hy, rfl⟩
  · rintro ⟨x, hx, rfl⟩
    induction hx with
    | self => exact .self
    | step _ hr hres ih => exact ih.step hr (by rw [resolve?_withStatus hpool, hres]; rfl)

/-- Whether a package is sound does not depend on statuses. -/
theorem sound_withStatus_iff (hpool : ∀ k, pool'.get? k = (pool.get? k).map (·.withStatus status)) :
    (root.withStatus status).Sound pool' ↔ root.Sound pool := by
  constructor
  · intro hs x hx r hr
    obtain ⟨y', hy', hmet⟩ := hs _ ((reaches_withStatus_iff hpool).mpr ⟨x, hx, rfl⟩) r hr
    rw [resolve?_withStatus hpool, Option.map_eq_some_iff] at hy'
    obtain ⟨y, hy, rfl⟩ := hy'
    exact ⟨y, hy, hmet⟩
  · intro hs x' hx' r hr
    obtain ⟨x, hx, rfl⟩ := (reaches_withStatus_iff hpool).mp hx'
    obtain ⟨y, hy, hmet⟩ := hs x hx r hr
    exact ⟨y.withStatus status, by rw [resolve?_withStatus hpool, hy]; rfl, hmet⟩

end Package

/-! ## Other packages installed -/

namespace Catalog

variable {c : Catalog} {installed installed' : PackageSet}

/-- The status that the role of an available package implies. -/
def roleOf (installed : PackageSet) (p : Package) : Status :=
  if (installed.get? p.id).any (·.version == p.version) then .installed else .available

/-- The catalog with other packages installed, each package at the status that its role implies. -/
def renewed (c : Catalog) (installed : PackageSet) : Catalog where
  installed := .ofList (installed.toList.map (·.withStatus .installed))
  available := .ofList (c.available.toList.map fun p => p.withStatus (roleOf installed p))

theorem get?_installed_renewed (k : String) :
    (c.renewed installed).installed.get? k = (installed.get? k).map (·.withStatus .installed) :=
  @Keyed.get?_ofList_map Package Package.id (·.withStatus .installed) (fun _ => rfl) installed k

theorem get?_available_renewed (k : String) :
    (c.renewed installed).available.get? k = (c.available.get? k).map fun p => p.withStatus (roleOf installed p) :=
  @Keyed.get?_ofList_map Package Package.id (fun p => p.withStatus (roleOf installed p)) (fun _ => rfl) c.available k

/-- A release is listed as installed when the installed package of its identifier has its version. -/
theorem any_sameRelease (p : Package) :
    installed.toList.any (·.sameRelease p) = (installed.get? p.id).any (·.version == p.version) := by
  rw [Bool.eq_iff_iff, List.any_eq_true, Option.any_eq_true]
  simp only [Package.sameRelease, Bool.and_eq_true, beq_iff_eq, Keyed.get?_eq_some_iff, and_assoc]
  rfl

/-- Where all statuses have been forgotten, the roles decide them. -/
theorem map_orStatus_forgotten (l : List Package) (f : Package → Status) (hf : ∀ p, f (p.withStatus .unknown) = f p) :
    (l.map (·.withStatus .unknown)).map (fun p => p.orStatus (f p)) = l.map fun p => p.withStatus (f p) := by
  rw [List.map_map]
  refine List.map_congr_left fun p _ => ?_
  rw [Function.comp_apply, hf, Package.orStatus_withStatus_unknown]

theorem withRoles_forgotten (installed available : PackageSet) :
    Listing.withRoles ⟨installed.toList.map (·.withStatus .unknown), available.toList.map (·.withStatus .unknown)⟩ =
      ⟨installed.toList.map (·.withStatus .installed), available.toList.map fun p => p.withStatus (roleOf installed p)⟩ := by
  have hrole : ∀ p, (if (installed.toList.map (·.withStatus .unknown)).any (·.sameRelease p) then Status.installed
      else .available) = roleOf installed p := by
    intro p
    rw [List.any_map, roleOf, ← any_sameRelease]
    rfl
  rw [Listing.withRoles, map_orStatus_forgotten _ (fun _ => .installed) fun _ => rfl]
  simp only [hrole]
  rw [map_orStatus_forgotten _ (roleOf installed) fun _ => rfl]

/-- Any packages can be installed in the place of others: a set never names a package twice. -/
theorem withInstalled_eq_ok (c : Catalog) (installed : PackageSet) : c.withInstalled installed = .ok (c.renewed installed) := by
  have hids (s : PackageSet) (f : Package → Status) : ((s.toList.map fun p => p.withStatus (f p)).map Package.id).Nodup := by
    rw [List.map_map]
    exact Keyed.nodup_keys s
  simp only [withInstalled, ofListing, withRoles_forgotten]
  exact ofLists_eq_ok_iff.mpr ⟨⟨hids installed _, rfl⟩, hids c.available _, rfl⟩

/-- The statuses of what is installed make no difference to the catalog. -/
theorem renewed_congr
    (h : ∀ k, (installed.get? k).map (·.withStatus .installed) = (installed'.get? k).map (·.withStatus .installed)) :
    c.renewed installed = c.renewed installed' := by
  have hinstalled : (c.renewed installed).installed = (c.renewed installed').installed := by
    refine Keyed.eq_of_forall_get?_eq fun k => ?_
    rw [get?_installed_renewed, get?_installed_renewed, h]
  have hroles : roleOf installed = roleOf installed' := by
    funext p
    have hversion := congrArg (Option.any (·.version == p.version)) (h p.id)
    simp only [Option.any_map, Package.version_withStatus] at hversion
    rw [roleOf, roleOf, hversion]
  show Catalog.mk (c.renewed installed).installed _ = Catalog.mk (c.renewed installed').installed _
  rw [hinstalled, hroles]

/-- Statuses that have been renewed are renewed once more as if they had never been. -/
theorem renewed_renewed : (c.renewed installed).renewed installed' = c.renewed installed' := by
  have havailable : ((c.renewed installed).renewed installed').available = (c.renewed installed').available := by
    refine Keyed.eq_of_forall_get?_eq fun k => ?_
    rw [get?_available_renewed, get?_available_renewed, get?_available_renewed, Option.map_map]
    rfl
  exact congrArg (Catalog.mk (c.renewed installed').installed) havailable

/-- A plan can be carried out in every catalog. -/
theorem carryOut_eq_ok (c : Catalog) (plan : Plan) : c.carryOut plan = .ok (c.renewed (plan.carriedOut c.installed)) :=
  c.withInstalled_eq_ok _

/-- A removal can be carried out in every catalog. -/
theorem carryOutRemoval_eq_ok (c : Catalog) (removal : Removal) :
    c.carryOutRemoval removal = .ok (c.renewed (c.installed.diff removal.removals)) :=
  c.withInstalled_eq_ok _

end Catalog

/-! ## The same once more -/

/-- Once changes have been made, what is removed or replaced is gone, unless something comes in for it. -/
theorem Changes.get?_carriedOut (c : Changes) (installed : PackageSet) (k : String) :
    (c.carriedOut installed).get? k =
      ((if c.removals.contains k || c.replaced.contains k then none else installed.get? k).or (c.updates.get? k)).or
        (c.installs.get? k) := by
  rw [carriedOut, Keyed.get?_union, Keyed.get?_union, Keyed.get?_diff, Keyed.get?_diff, ← Keyed.contains_eq,
    ← Keyed.contains_eq]
  cases c.removals.contains k <;> cases c.replaced.contains k <;> rfl

namespace Catalog

variable {c c' : Catalog} {plan : Plan} {removal : Removal}

/-- A plan that has been carried out changes nothing when it is carried out again. -/
theorem carryOut_again (h : c.carryOut plan = .ok c') : c'.carryOut plan = .ok c' := by
  rw [carryOut_eq_ok] at h ⊢
  obtain rfl := Except.ok.inj h
  rw [renewed_renewed, renewed_congr fun k => ?_]
  rw [Changes.get?_carriedOut, get?_installed_renewed, Changes.get?_carriedOut]
  cases plan.removals.contains k || plan.replaced.contains k with
  | true => rfl
  | false => cases c.installed.get? k <;> cases plan.updates.get? k <;> cases plan.installs.get? k <;> rfl

/-- A removal that has been carried out changes nothing when it is carried out again. -/
theorem carryOutRemoval_again (h : c.carryOutRemoval removal = .ok c') : c'.carryOutRemoval removal = .ok c' := by
  rw [carryOutRemoval_eq_ok] at h ⊢
  obtain rfl := Except.ok.inj h
  rw [renewed_renewed, renewed_congr fun k => ?_]
  rw [Keyed.get?_diff, get?_installed_renewed, Keyed.get?_diff]
  cases (removal.removals.get? k).isSome with
  | true => rfl
  | false => cases c.installed.get? k <;> rfl

end Catalog

namespace Planner

variable {pl : Planner} {goal : Goal} {selected installed : PackageSet}

/-! ## Outcomes -/

/-- Once a plan has been carried out, the installed versions of its updates are gone with what it removes. -/
theorem get?_carriedOut_plan_eq (k : String) :
    ((pl.plan goal selected).carriedOut pl.catalog.installed).get? k =
      ((if (pl.plan goal selected).removals.contains k || (pl.plan goal selected).updates.contains k then none
        else pl.catalog.installed.get? k).or ((pl.plan goal selected).updates.get? k)).or
          ((pl.plan goal selected).installs.get? k) := by
  rw [Changes.get?_carriedOut, contains_replaced_plan, Catalog.isInstalled, Keyed.contains_eq pl.catalog.installed]
  cases pl.catalog.installed.get? k with
  | none => rw [ite_self, ite_self]
  | some x => rw [Option.isSome_some, Bool.and_true]

/-- A selected package that is to be installed leaves an installed version of it in place. -/
theorem get?_carriedOut_plan_of_selected {k : String} (hsel : selected.contains k) :
    ((pl.plan .install selected).carriedOut pl.catalog.installed).get? k =
      (pl.catalog.installed.get? k).or (selected.get? k) := by
  have hupdates : (pl.plan .install selected).updates.contains k = false := disjoint_updates_selected.symm k hsel
  have hremovals : (pl.plan .install selected).removals.contains k = false :=
    disjoint_brought_removals k (by rw [contains_brought_plan, hsel, Bool.true_or])
  have hinstalls : (pl.plan .install selected).installs.get? k = selected.get? k := by
    obtain ⟨x, hx⟩ := Option.isSome_iff_exists.mp ((Keyed.contains_eq selected k).symm.trans hsel)
    have hbrought := @get?_brought_plan pl .install selected k
    rwa [Changes.get?_brought, Keyed.get?_eq_none_iff.mpr hupdates, Option.or_none, hx, Option.some_or, ← hx] at hbrought
  rw [get?_carriedOut_plan_eq, hremovals, hupdates, hinstalls, Keyed.get?_eq_none_iff.mpr hupdates, Option.or_none]
  rfl

/-- What is installed anew has no installed version, unless it was asked for. -/
theorem get?_installed_of_installs_plan {k : String} (hinstalls : (pl.plan goal selected).installs.contains k)
    (hk : ¬ (goal = .install ∧ selected.contains k)) : pl.catalog.installed.get? k = none := by
  obtain ⟨x, hx, rfl⟩ := Keyed.exists_mem_of_contains hinstalls
  rcases mem_installs_plan hx with ⟨hgoal, hsel⟩ | hx
  · exact absurd ⟨hgoal, Keyed.contains_of_mem hsel⟩ hk
  · exact Keyed.get?_eq_none_iff.mpr (mem_installs_rescued hx).2.2

/-- For every other identifier a plan is carried out to its outcome. -/
theorem get?_carriedOut_plan_of_not_selected {k : String} (hk : ¬ (goal = .install ∧ selected.contains k)) :
    ((pl.plan goal selected).carriedOut pl.catalog.installed).get? k =
      ((pl.plan goal selected).outcome pl.catalog.installed).get? k := by
  rw [get?_carriedOut_plan_eq, Changes.get?_outcome, Changes.get?_brought, Changes.contains_brought]
  cases hupdates : (pl.plan goal selected).updates.contains k with
  | true =>
    have hinstalls : (pl.plan goal selected).installs.get? k = none :=
      Keyed.get?_eq_none_iff.mpr (disjoint_installs_updates.symm k hupdates)
    simp only [hinstalls, Bool.or_true, Bool.true_or, if_true, Option.none_or, Option.or_none]
  | false =>
    rw [Keyed.get?_eq_none_iff.mpr hupdates, Bool.or_false, Bool.or_false, Option.or_none, Option.or_none]
    cases hinstalls : (pl.plan goal selected).installs.contains k with
    | true =>
      rw [get?_installed_of_installs_plan hinstalls hk, ite_self, ite_self, Option.none_or, Option.or_none]
    | false =>
      rw [Keyed.get?_eq_none_iff.mpr hinstalls, Bool.false_or, Option.none_or, Option.or_none]

/-- What is installed once a plan has been carried out is its outcome, but for the selected packages that are to be installed: where
the host has a version of one, that version stays. -/
theorem get?_carriedOut_plan (pl : Planner) (goal : Goal) (selected : PackageSet) (k : String) :
    ((pl.plan goal selected).carriedOut pl.catalog.installed).get? k =
      if goal = .install ∧ selected.contains k then (pl.catalog.installed.get? k).or (selected.get? k)
      else ((pl.plan goal selected).outcome pl.catalog.installed).get? k := by
  split
  · next hk =>
    obtain ⟨rfl, hsel⟩ := hk
    exact get?_carriedOut_plan_of_selected hsel
  · next hk => exact get?_carriedOut_plan_of_not_selected hk

/-- A plan for an update is carried out to its outcome. -/
theorem carriedOut_plan_update (pl : Planner) (selected : PackageSet) :
    (pl.plan .update selected).carriedOut pl.catalog.installed = (pl.plan .update selected).outcome pl.catalog.installed :=
  Keyed.eq_of_forall_get?_eq fun _ => get?_carriedOut_plan_of_not_selected fun h => nomatch h.1

/-- A plan to install is carried out to its outcome exactly when the host has no package of a selected identifier but the selected
one itself. -/
theorem carriedOut_plan_install_iff (pl : Planner) (selected : PackageSet) :
    (pl.plan .install selected).carriedOut pl.catalog.installed = (pl.plan .install selected).outcome pl.catalog.installed ↔
      ∀ s ∈ selected, ∀ p ∈ pl.catalog.installed, p.id = s.id → p = s := by
  have houtcome {s : Package} (hs : s ∈ selected) :
      ((pl.plan .install selected).outcome pl.catalog.installed).get? s.id = some s := by
    rw [Changes.get?_outcome, get?_brought_plan, Keyed.mem_iff_get?.mp hs, Option.some_or, Option.some_or]
  constructor
  · intro h s hs p hp hid
    have hget := @get?_carriedOut_plan_of_selected pl selected s.id (Keyed.contains_of_mem hs)
    rw [h, houtcome hs, ← hid, Keyed.mem_iff_get?.mp hp, Option.some_or] at hget
    exact (Option.some.inj hget).symm
  · intro h
    refine Keyed.eq_of_forall_get?_eq fun k => ?_
    by_cases hsel : selected.contains k
    · obtain ⟨s, hs, rfl⟩ := Keyed.exists_mem_of_contains hsel
      rw [get?_carriedOut_plan_of_selected hsel, houtcome hs, Keyed.mem_iff_get?.mp hs]
      cases hg : pl.catalog.installed.get? s.id with
      | none => rfl
      | some p => rw [h s hs p (Keyed.mem_of_get? hg) (Keyed.key_of_get? hg), Option.some_or]
    · exact get?_carriedOut_plan_of_not_selected fun hk => hsel hk.2

/-! ## What breaks -/

/-- A package is broken among some packages exactly when it is broken in the catalog in which these are installed. -/
theorem isBroken_renewed (c : Catalog) (p : Package) :
    pl.isBroken (c.renewed installed).installed (p.withStatus .installed) = pl.isBroken installed p := by
  rw [Bool.eq_iff_iff, isBroken_iff, isBroken_iff]
  exact not_congr (Package.sound_withStatus_iff fun _ => Catalog.get?_installed_renewed _)

/-- What is broken in the outcome of an update is what is broken in the catalog once the update has been carried out. -/
theorem isBroken_carryOut_update {c' : Catalog} (h : pl.catalog.carryOut (pl.plan .update selected) = .ok c') (p : Package) :
    pl.isBroken c'.installed (p.withStatus .installed) =
      pl.isBroken ((pl.plan .update selected).outcome pl.catalog.installed) p := by
  rw [Catalog.carryOut_eq_ok] at h
  obtain rfl := Except.ok.inj h
  rw [isBroken_renewed, carriedOut_plan_update]

/-- What is broken without the packages of a removal is what is broken in the catalog once the removal has been carried out. -/
theorem isBroken_carryOutRemoval {c' : Catalog} (h : pl.catalog.carryOutRemoval (pl.removal selected) = .ok c') (p : Package) :
    pl.isBroken c'.installed (p.withStatus .installed) =
      pl.isBroken (pl.catalog.installed.diff (pl.removal selected).removals) p := by
  rw [Catalog.carryOutRemoval_eq_ok] at h
  obtain rfl := Except.ok.inj h
  exact isBroken_renewed pl.catalog p

end Planner

/-! ## Sessions -/

namespace Session

variable {s s' : Session}

/-- A session that has made a plan can carry it out, and nothing but its catalog changes. -/
theorem carryOut_eq_ok_iff : s.carryOut = .ok s' ↔
    ∃ plan, s.lastPlan? = some plan ∧ s' = { s with catalog := s.catalog.renewed (plan.carriedOut s.catalog.installed) } := by
  rcases Option.eq_none_or_eq_some s.lastPlan? with hnone | ⟨plan, hplan⟩
  · simp only [carryOut, lastPlan, hnone]
    exact ⟨nofun, nofun⟩
  · simp only [carryOut, lastPlan, hplan, Catalog.carryOut_eq_ok, Option.some.injEq, exists_eq_left']
    exact ⟨fun h => (Except.ok.inj h).symm, fun h => congrArg Except.ok h.symm⟩

/-- A session that has made a removal can carry it out, and nothing but its catalog changes. -/
theorem carryOutRemoval_eq_ok_iff : s.carryOutRemoval = .ok s' ↔
    ∃ removal, s.lastRemoval? = some removal ∧
      s' = { s with catalog := s.catalog.renewed (s.catalog.installed.diff removal.removals) } := by
  rcases Option.eq_none_or_eq_some s.lastRemoval? with hnone | ⟨removal, hremoval⟩
  · simp only [carryOutRemoval, lastRemoval, hnone]
    exact ⟨nofun, nofun⟩
  · simp only [carryOutRemoval, lastRemoval, hremoval, Catalog.carryOutRemoval_eq_ok, Option.some.injEq, exists_eq_left']
    exact ⟨fun h => (Except.ok.inj h).symm, fun h => congrArg Except.ok h.symm⟩

/-- A session that has carried out its last plan stays as it is when it does so again. -/
theorem carryOut_again (h : s.carryOut = .ok s') : s'.carryOut = .ok s' := by
  obtain ⟨plan, hplan, rfl⟩ := carryOut_eq_ok_iff.mp h
  refine carryOut_eq_ok_iff.mpr ⟨plan, hplan, ?_⟩
  have hagain := Catalog.carryOut_again (Catalog.carryOut_eq_ok s.catalog plan)
  rw [Catalog.carryOut_eq_ok] at hagain
  rw [Except.ok.inj hagain]

/-- A session that has carried out its last removal stays as it is when it does so again. -/
theorem carryOutRemoval_again (h : s.carryOutRemoval = .ok s') : s'.carryOutRemoval = .ok s' := by
  obtain ⟨removal, hremoval, rfl⟩ := carryOutRemoval_eq_ok_iff.mp h
  refine carryOutRemoval_eq_ok_iff.mpr ⟨removal, hremoval, ?_⟩
  have hagain := Catalog.carryOutRemoval_again (Catalog.carryOutRemoval_eq_ok s.catalog removal)
  rw [Catalog.carryOutRemoval_eq_ok] at hagain
  rw [Except.ok.inj hagain]

end Session

end AddonPlanner
