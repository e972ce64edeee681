import AddonPlanner.Proofs.Catalog
import AddonPlanner.Proofs.Plan.Outcome

/-!
# What a plan breaks, and what it removes

A package that stays and was in order is in order among those expected after the walks. It is so in the end exactly when the
packages that come in late suit it (`isBroken_outcome_iff_of_untouched`): a rescue replaces packages without a look at what still
requires the replaced version (`rescue_breaks_bystander`). A removed package is broken among the expected ones, but a rescue may
have mended it (`isBroken_sparing_iff_of_removed`, `needless_removal`).
-/

namespace AddonPlanner.Planner

variable {pl : Planner} {goal : Goal} {selected : PackageSet}

/-! ## Removals -/

/-- A plan removes what would break and has no rescuer, unless it comes in all the same or was broken all along. -/
theorem mem_removals_plan {x : Package} :
    x ∈ (pl.plan goal selected).removals ↔
      x ∈ pl.breaking selected (pl.walked goal selected) ∧ pl.rescuer? x = none ∧
        (pl.rescued goal selected).brought.contains x.id = false ∧
        pl.isTolerated (pl.rescued goal selected).removals x = false := by
  have hfilter : (pl.plan goal selected).removals = (pl.rescued goal selected).removals.filter fun p =>
      !(pl.rescued goal selected).installs.contains p.id && !(pl.rescued goal selected).updates.contains p.id &&
        !pl.isTolerated (pl.rescued goal selected).removals p := by
    cases goal <;> rfl
  rw [hfilter, Keyed.mem_filter, mem_removals_rescued, Changes.contains_brought, and_assoc, Bool.and_eq_true,
    Bool.and_eq_true, Bool.not_eq_true', Bool.not_eq_true', Bool.not_eq_true', Bool.or_eq_false_iff]

/-- A removed package stays at its version up to the removal. -/
theorem mem_kept_of_removed {u : Package} (hu : u ∈ (pl.plan goal selected).removals) :
    u ∈ pl.kept goal selected := by
  obtain ⟨hbreak, -, hb, -⟩ := mem_removals_plan.mp hu
  obtain ⟨hinst, hsel⟩ := of_mem_breaking hbreak
  refine (mem_kept_of_untouched hinst ?_).2
  rw [contains_brought_plan, hsel, hb, Bool.or_false]

/-- A package that is sound among the expected ones is not removed. -/
theorem contains_removals_of_sound {x : Package} (hx : x ∈ pl.expected goal selected)
    (hs : x.Sound (pl.expected goal selected)) : (pl.plan goal selected).removals.contains x.id = false := by
  refine Keyed.contains_eq_false_iff.mpr fun y hy hid => ?_
  obtain ⟨hstaying, hb⟩ := Keyed.mem_filter.mp (mem_removals_plan.mp hy).1
  rw [Keyed.eq_of_key_eq (mem_expected.mpr (Or.inl hstaying)) hx hid] at hb
  exact isBroken_iff.mp hb hs

/-- What stays and was in order is sound among the expected packages, for otherwise it would be removed. -/
theorem sound_expected_of_untouched {p : Package} (hp : p ∈ pl.catalog.installed)
    (hb : (pl.plan goal selected).brought.contains p.id = false)
    (hr : (pl.plan goal selected).removals.contains p.id = false)
    (hfine : pl.isBroken pl.catalog.installed p = false) : p.Sound (pl.expected goal selected) := by
  refine Classical.byContradiction fun hbroken => ?_
  have hbreak : p ∈ pl.breaking selected (pl.walked goal selected) :=
    Keyed.mem_filter.mpr ⟨(mem_kept_of_untouched hp hb).1, isBroken_iff.mpr hbroken⟩
  rw [contains_brought_plan, Bool.or_eq_false_iff] at hb
  have hnone : pl.rescuer? p = none := by
    cases hq : pl.rescuer? p with
    | none => rfl
    | some q =>
      have hc := contains_updates_rescued hbreak hq
      rw [Changes.contains_brought, hc, Bool.or_true] at hb
      cases hb.2
  have hremoved : p ∈ (pl.plan goal selected).removals :=
    mem_removals_plan.mpr ⟨hbreak, hnone, hb.2, by rw [isTolerated, hfine, Bool.false_and]⟩
  exact Keyed.contains_eq_false_iff.mp hr p hremoved rfl

/-! ## Packages that stay -/

theorem mem_outcome_of_late {removals : PackageSet} {y : Package} (hy : y ∈ pl.late goal selected) :
    y ∈ Changes.outcome { (pl.plan goal selected).toChanges with removals } pl.catalog.installed :=
  mem_outcome_iff.mpr (Or.inl hy)

theorem not_mem_kept_of_late {y : Package} (hy : y ∈ pl.late goal selected) : y ∉ pl.kept goal selected := by
  intro hk
  exact Keyed.contains_eq_false_iff.mp (Keyed.mem_diff.mp hk).2 y hy rfl

/-- Whatever is reached through kept packages is reached among the expected ones. -/
theorem reaches_expected {p x : Package} (hp : p ∈ pl.kept goal selected) (hx : p.Reaches (pl.kept goal selected) x) :
    p.Reaches (pl.expected goal selected) x :=
  hx.of_kept fun _ hy => (Keyed.mem_diff.mp (hy.mem hp)).1

/-- A package that a plan leaves alone and that was in order before is in order afterwards exactly when each requirement that it
leads to through untouched packages, and that is on a package that comes in late, is met by that package, and this one is in
order too. -/
theorem isBroken_outcome_iff_of_untouched (pl : Planner) (goal : Goal) (selected : PackageSet) (p : Package)
    (hp : p ∈ pl.catalog.installed) (hb : (pl.plan goal selected).brought.contains p.id = false)
    (hr : (pl.plan goal selected).removals.contains p.id = false)
    (hfine : pl.isBroken pl.catalog.installed p = false) :
    pl.isBroken ((pl.plan goal selected).outcome pl.catalog.installed) p = false ↔
      ∀ x, p.Reaches (pl.kept goal selected) x → ∀ r ∈ x.requirements, ∀ y ∈ pl.late goal selected, y.id = r.id →
        r.isMetBy y ∧ pl.isBroken ((pl.plan goal selected).outcome pl.catalog.installed) y = false := by
  have hkept := (mem_kept_of_untouched hp hb).2
  have hexpected := (Keyed.mem_diff.mp hkept).1
  have hsound := sound_expected_of_untouched hp hb hr hfine
  -- nothing that the package leads to through kept packages is removed
  have hreached : ∀ x, p.Reaches (pl.kept goal selected) x →
      x ∈ (pl.plan goal selected).outcome pl.catalog.installed := by
    intro x hx
    have hx' := reaches_expected hkept hx
    exact mem_outcome_iff.mpr (Or.inr ⟨hx.mem hkept,
      Or.inr (contains_removals_of_sound (hx'.mem hexpected) (hsound.of_reaches hexpected hx'))⟩)
  rw [isBroken_eq_false_iff, Package.sound_iff_of_kept hkept hreached]
  constructor
  · intro h x hx r hreq y hy hid
    obtain ⟨z, hz, hmet, hs⟩ := h x hx r hreq
    obtain rfl := Keyed.eq_of_key_eq (mem_outcome_of_late hy) hz (hid.trans (Package.isMetBy_iff.mp hmet).1.symm)
    exact ⟨hmet, isBroken_eq_false_iff.mpr (hs (not_mem_kept_of_late hy))⟩
  · intro h x hx r hreq
    cases hc : (pl.late goal selected).contains r.id with
    | true =>
      obtain ⟨y, hy, hid⟩ := Keyed.exists_mem_of_contains hc
      obtain ⟨hmet, hs⟩ := h x hx r hreq y hy hid
      exact ⟨y, mem_outcome_of_late hy, hmet, fun _ => isBroken_eq_false_iff.mp hs⟩
    | false =>
      have hx' := reaches_expected hkept hx
      obtain ⟨y, hy, hmet, -⟩ := (hsound.of_reaches hexpected hx').exists_mem (hx'.mem hexpected) hreq
      have hid := (Package.isMetBy_iff.mp hmet).1
      have hyk : y ∈ pl.kept goal selected := Keyed.mem_diff.mpr ⟨hy, by rw [hid]; exact hc⟩
      have hreach : p.Reaches (pl.kept goal selected) y := by
        refine hx.step hreq ?_
        rw [Package.resolve?_eq_get? hkept, ← hid]
        exact Keyed.mem_iff_get?.mp hyk
      exact ⟨y, hreached y hreach, hmet, fun hne => absurd hyk hne⟩

/-- A player that still requires the first version of a codec. -/
def player : Package := ⟨"player", .one, none, [⟨"codec", .atMost .one⟩], .installed⟩

/-- The shader that is to be updated. -/
def shader : Package := ⟨"shader", .two, none, [], .available⟩

/-- A host on which an update of the shader is followed by one of the renderer, and that one by one of the codec. -/
def studio : Planner where
  catalog :=
    { installed := .ofList [⟨"codec", .one, none, [], .installed⟩, player,
        ⟨"renderer", .one, none, [⟨"shader", .atMost .one⟩], .installed⟩,
        ⟨"shader", .one, none, [], .installed⟩]
      available := .ofList [⟨"codec", .two, none, [], .available⟩,
        ⟨"renderer", .two, none, [⟨"codec", .atLeast .two⟩], .available⟩, shader] }
  host := .eleven

/-- The rescue of the renderer updates the codec, and the player, which was in order and is not removed, is left without the
version it requires. -/
theorem rescue_breaks_bystander :
    player ∈ studio.catalog.installed ∧ studio.isBroken studio.catalog.installed player = false ∧
      (studio.plan .update (.ofList [shader])).brought.contains player.id = false ∧
      (studio.plan .update (.ofList [shader])).removals.contains player.id = false ∧
      studio.isBroken ((studio.plan .update (.ofList [shader])).outcome studio.catalog.installed) player = true :=
  ⟨Keyed.mem_ofList rfl, by decide +kernel, by decide +kernel, by decide +kernel, by decide +kernel⟩

/-- The player is in order after the update exactly when the codec that comes in late suits it. -/
theorem isBroken_player_iff :
    studio.isBroken ((studio.plan .update (.ofList [shader])).outcome studio.catalog.installed) player = false ↔
      ∀ x, player.Reaches (studio.kept .update (.ofList [shader])) x → ∀ r ∈ x.requirements,
        ∀ y ∈ studio.late .update (.ofList [shader]), y.id = r.id → r.isMetBy y ∧
          studio.isBroken ((studio.plan .update (.ofList [shader])).outcome studio.catalog.installed) y = false :=
  isBroken_outcome_iff_of_untouched studio .update (.ofList [shader]) player (Keyed.mem_ofList rfl)
    (by decide +kernel) (by decide +kernel) (by decide +kernel)

/-! ## Packages that are removed -/

/-- A plan removes installed packages as they are. -/
theorem mem_removals_of_contains {p : Package} (hp : p ∈ pl.catalog.installed)
    (hc : (pl.plan goal selected).removals.contains p.id) : p ∈ (pl.plan goal selected).removals := by
  obtain ⟨u, hu, hid⟩ := Keyed.exists_mem_of_contains hc
  rwa [← Keyed.eq_of_key_eq (of_mem_breaking (mem_removals_plan.mp hu).1).1 hp hid]

/-- Without removals, what is in place is kept or comes in late. -/
theorem mem_outcome_sparing_iff {x : Package} :
    x ∈ (pl.plan goal selected).sparing.outcome pl.catalog.installed ↔
      x ∈ pl.late goal selected ∨ x ∈ pl.kept goal selected := by
  refine mem_outcome_iff.trans (or_congr_right (and_iff_left (Or.inr ?_)))
  rfl

/-- A removed package is broken among the expected ones, and no update of its own rescues it. If nothing were removed it would
be in order exactly when each requirement that it leads to through untouched packages is met by one of them or by a package that
comes in late and is in order then. -/
theorem isBroken_sparing_iff_of_removed (pl : Planner) (goal : Goal) (selected : PackageSet) (u : Package)
    (hu : u ∈ (pl.plan goal selected).removals) :
    pl.isBroken (pl.expected goal selected) u = true ∧ pl.rescuer? u = none ∧
      (pl.isBroken ((pl.plan goal selected).sparing.outcome pl.catalog.installed) u = false ↔
        ∀ x, u.Reaches (pl.kept goal selected) x → ∀ r ∈ x.requirements,
          (∃ y ∈ pl.kept goal selected, r.isMetBy y) ∨
          ∃ y ∈ pl.late goal selected, r.isMetBy y ∧
            pl.isBroken ((pl.plan goal selected).sparing.outcome pl.catalog.installed) y = false) := by
  obtain ⟨hbreak, hnone, -⟩ := mem_removals_plan.mp hu
  refine ⟨(Keyed.mem_filter.mp hbreak).2, hnone, ?_⟩
  have hkept := mem_kept_of_removed hu
  have hreached : ∀ x, u.Reaches (pl.kept goal selected) x →
      x ∈ (pl.plan goal selected).sparing.outcome pl.catalog.installed :=
    fun x hx => mem_outcome_sparing_iff.mpr (Or.inr (hx.mem hkept))
  rw [isBroken_eq_false_iff, Package.sound_iff_of_kept hkept hreached]
  constructor
  · intro h x hx r hr
    obtain ⟨y, hy, hmet, hs⟩ := h x hx r hr
    rcases mem_outcome_sparing_iff.mp hy with hlate | hk
    · exact Or.inr ⟨y, hlate, hmet, isBroken_eq_false_iff.mpr (hs (not_mem_kept_of_late hlate))⟩
    · exact Or.inl ⟨y, hk, hmet⟩
  · intro h x hx r hr
    rcases h x hx r hr with ⟨y, hy, hmet⟩ | ⟨y, hy, hmet, hs⟩
    · exact ⟨y, mem_outcome_sparing_iff.mpr (Or.inr hy), hmet, fun hne => absurd hy hne⟩
    · exact ⟨y, mem_outcome_sparing_iff.mpr (Or.inl hy), hmet, fun _ => isBroken_eq_false_iff.mp hs⟩

/-- A pack that needs a mod at whatever version. -/
def pack : Package := ⟨"pack", .one, none, [⟨"mod", .any⟩], .installed⟩

/-- The base that is to be updated. -/
def base : Package := ⟨"base", .two, none, [], .available⟩

/-- A host on which an update of the base breaks the mod, which an update of its own rescues. -/
def workshop : Planner where
  catalog :=
    { installed := .ofList [⟨"base", .one, none, [], .installed⟩,
        ⟨"mod", .one, none, [⟨"base", .atMost .one⟩], .installed⟩, pack]
      available := .ofList [base, ⟨"mod", .two, none, [], .available⟩] }
  host := .eleven

theorem pack_mem_installed : pack ∈ workshop.catalog.installed :=
  Keyed.mem_ofList rfl

/-- All was in order, the pack is removed, and yet it would be in order if it stayed. -/
theorem needless_removal :
    (workshop.catalog.installed.toList.all fun p => !workshop.isBroken workshop.catalog.installed p) ∧
      pack ∈ (workshop.plan .update (.ofList [base])).removals ∧
      workshop.isBroken ((workshop.plan .update (.ofList [base])).sparing.outcome workshop.catalog.installed) pack = false :=
  ⟨by decide +kernel, mem_removals_of_contains pack_mem_installed (by decide +kernel), by decide +kernel⟩

/-- The pack is removed because the mod it requires is broken among the expected packages. -/
theorem isBroken_pack_iff :
    workshop.isBroken (workshop.expected .update (.ofList [base])) pack = true ∧ workshop.rescuer? pack = none ∧
      (workshop.isBroken ((workshop.plan .update (.ofList [base])).sparing.outcome workshop.catalog.installed) pack = false ↔
        ∀ x, pack.Reaches (workshop.kept .update (.ofList [base])) x → ∀ r ∈ x.requirements,
          (∃ y ∈ workshop.kept .update (.ofList [base]), r.isMetBy y) ∨
          ∃ y ∈ workshop.late .update (.ofList [base]), r.isMetBy y ∧
            workshop.isBroken ((workshop.plan .update (.ofList [base])).sparing.outcome workshop.catalog.installed) y = false) :=
  isBroken_sparing_iff_of_removed workshop .update (.ofList [base]) pack
    (mem_removals_of_contains pack_mem_installed (by decide +kernel))

end AddonPlanner.Planner
