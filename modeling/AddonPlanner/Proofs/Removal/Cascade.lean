import AddonPlanner.Proofs.Removal

/-!
# What a removal takes with it

A package that was in order goes with a selection exactly when it depends on a member of the selection, directly or through
others (`mem_removals_iff_exists_dependency`). What has been removed together can be removed again, and nothing more goes
(`removal_idempotent`): whatever breaks among the packages that are left was doomed the first time and tolerated then.
-/

namespace AddonPlanner

namespace Planner

variable {pl : Planner} {selected : PackageSet}

theorem isTolerated_iff {doomed : PackageSet} {p : Package} :
    pl.isTolerated doomed p = true ↔ pl.isBroken pl.catalog.installed p ∧ p.requiresAny doomed = false := by
  rw [isTolerated, Bool.and_eq_true, Bool.not_eq_true']

/-- A removal takes what was asked for, and the doomed packages that are not tolerated. -/
theorem mem_removals_iff {x : Package} :
    x ∈ (pl.removal selected).removals ↔
      x ∈ selected ∨ (x ∈ pl.doomed selected ∧ pl.isTolerated (pl.doomed selected) x = false) := by
  have hdisjoint : ∀ y ∈ (pl.doomed selected).filter (!pl.isTolerated (pl.doomed selected) ·),
      selected.contains y.id = false := by
    intro y hy
    exact (Keyed.mem_diff.mp (mem_doomed_iff.mp (Keyed.mem_filter.mp hy).1).1).2
  rw [removal, Keyed.mem_union_of_disjoint hdisjoint, Keyed.mem_filter, Bool.not_eq_true']

/-! ## Packages that were in order -/

/-- A package that was in order and could be removed goes, without being asked for, when it is no longer sound among the
remaining ones. -/
theorem mem_removals_iff_not_sound {p : Package} (hp : p ∈ pl.catalog.installed) (hsel : selected.contains p.id = false)
    (hstatus : p.status ≠ .removalFailed) (hfine : pl.isBroken pl.catalog.installed p = false) :
    p ∈ (pl.removal selected).removals ↔ ¬ p.Sound (pl.catalog.installed.diff selected) := by
  have htolerated : pl.isTolerated (pl.doomed selected) p = false := by
    rw [isTolerated, hfine, Bool.false_and]
  rw [mem_removals_iff, mem_doomed_iff, isBroken_iff]
  constructor
  · rintro (hmem | ⟨⟨-, hbroken, -⟩, -⟩)
    · rw [Keyed.contains_of_mem hmem] at hsel
      cases hsel
    · exact hbroken
  · intro hbroken
    have hstatusOf : pl.catalog.statusOf p ≠ .removalFailed := by rwa [Catalog.statusOf_installed hp]
    exact Or.inr ⟨⟨Keyed.mem_diff.mpr ⟨hp, hsel⟩, hbroken, hstatusOf⟩, htolerated⟩

/-- The exact cascade: an installed package that was not asked for, whose removal has not failed before and whose requirements
are met goes with a selection exactly when one of its dependencies, direct or not, was asked for. -/
theorem mem_removals_iff_exists_dependency (pl : Planner) (selected : PackageSet) (p : Package)
    (hp : p ∈ pl.catalog.installed) (hsel : selected.contains p.id = false) (hstatus : p.status ≠ .removalFailed)
    (hfine : pl.isBroken pl.catalog.installed p = false) :
    p ∈ (pl.removal selected).removals ↔
      ∃ d ∈ (p.resolution pl.catalog.installed pl.host).dependencies, selected.contains d.id := by
  have hsound : p.Sound pl.catalog.installed := isBroken_eq_false_iff.mp hfine
  rw [mem_removals_iff_not_sound hp hsel hstatus hfine, hsound.diff_iff hp hsel]
  constructor
  · intro hlost
    obtain ⟨d, hd⟩ := Classical.not_forall.mp hlost
    obtain ⟨hreach, hc⟩ := Classical.not_imp.mp hd
    rw [Bool.not_eq_false] at hc
    -- the package itself was not asked for, so what it reaches and was asked for is a dependency
    have hne : d.id ≠ p.id := by
      intro hid
      rw [hid, hsel] at hc
      cases hc
    exact ⟨d, hsound.mem_dependencies_iff.mpr ⟨hreach, hne⟩, hc⟩
  · rintro ⟨d, hd, hc⟩ hnone
    have hreach := (hsound.mem_dependencies_iff.mp hd).1
    rw [hnone d hreach] at hc
    cases hc

/-- The application, which needs the game only through the engine. -/
def application : Package := ⟨"application", .one, none, [⟨"library", .any⟩, ⟨"engine", .any⟩], .installed⟩

/-- The application goes with the game, though it requires only the engine, which requires the game; the library, which the
application requires too, stays. -/
theorem game_takes_application_and_spares_library :
    application.requires game = false ∧ application ∈ (arcade.removal (.ofList [game])).removals ∧
      library ∉ (arcade.removal (.ofList [game])).removals := by
  refine ⟨by decide +kernel, ?_, fun hremoved => ?_⟩
  · refine (mem_removals_iff_exists_dependency arcade (.ofList [game]) application (Keyed.mem_ofList rfl)
      (by decide +kernel) (by decide) (by decide +kernel)).mpr ?_
    have hgame : (application.resolution arcade.catalog.installed arcade.host).dependencies.contains "game" := by
      decide +kernel
    obtain ⟨d, hd, hid⟩ := Keyed.exists_mem_of_contains hgame
    exact ⟨d, hd, by rw [hid]; decide +kernel⟩
  · have hnone : (library.resolution arcade.catalog.installed arcade.host).dependencies.isEmpty := by decide +kernel
    obtain ⟨d, hd, -⟩ := (mem_removals_iff_exists_dependency arcade (.ofList [game]) library (Keyed.mem_ofList rfl)
      (by decide +kernel) (by decide) (by decide +kernel)).mp hremoved
    exact List.ne_nil_of_mem hd (List.isEmpty_iff.mp hnone)

/-! ## Removing again -/

/-- A package that is tolerated while much is to go is tolerated while less is. -/
theorem isTolerated_of_subset {doomed fewer : PackageSet} (hsub : ∀ x ∈ fewer, x ∈ doomed) {p : Package}
    (h : pl.isTolerated doomed p = true) : pl.isTolerated fewer p = true := by
  obtain ⟨hbroken, hfree⟩ := isTolerated_iff.mp h
  refine isTolerated_iff.mpr ⟨hbroken, ?_⟩
  rw [Package.requiresAny, List.any_eq_false] at hfree ⊢
  intro r hr hc
  obtain ⟨x, hx, hid⟩ := Keyed.exists_mem_of_contains hc
  have := Keyed.contains_of_mem (hsub x hx)
  rw [hid] at this
  exact hfree r hr this

/-- What is sound among the remaining packages depends on nothing that goes, so it stays sound. -/
theorem sound_after_removal {p : Package} (hp : p ∈ pl.catalog.installed.diff selected)
    (hs : p.Sound (pl.catalog.installed.diff selected)) :
    p.Sound (pl.catalog.installed.diff (pl.removal selected).removals) := by
  refine hs.of_reached_mem hp fun x hx => ?_
  have hnot : x ∉ pl.doomed selected := by
    intro hd
    exact isBroken_iff.mp (mem_doomed_iff.mp hd).2.1 (hs.of_reaches hp hx)
  exact mem_after_removal (hx.mem hp) hnot

/-- A package that would break or is broken once the removal is done was doomed before, and was tolerated. -/
theorem tolerated_of_mem_doomed_again {x : Package} (hx : x ∈ pl.doomed (pl.removal selected).removals) :
    x ∈ pl.doomed selected ∧ pl.isTolerated (pl.doomed selected) x = true := by
  obtain ⟨hleft, hbroken, hstatus⟩ := mem_doomed_iff.mp hx
  obtain ⟨hinst, hstays⟩ := Keyed.mem_diff.mp hleft
  have hremaining : x ∈ pl.catalog.installed.diff selected := by
    rw [contains_removals, Bool.or_eq_false_iff] at hstays
    exact Keyed.mem_diff.mpr ⟨hinst, hstays.1⟩
  have hdoomed : x ∈ pl.doomed selected := by
    refine Classical.byContradiction fun hnot => ?_
    have hsound : x.Sound (pl.catalog.installed.diff selected) := by
      refine Classical.byContradiction fun hb => hnot ?_
      exact mem_doomed_iff.mpr ⟨hremaining, isBroken_iff.mpr hb, hstatus⟩
    exact isBroken_iff.mp hbroken (sound_after_removal hremaining hsound)
  refine ⟨hdoomed, ?_⟩
  rw [← Bool.not_eq_false]
  intro hremoved
  have hmem : x ∈ (pl.removal selected).removals := mem_removals_iff.mpr (Or.inr ⟨hdoomed, hremoved⟩)
  rw [Keyed.contains_of_mem hmem] at hstays
  cases hstays

/-- Removing what a removal takes takes nothing more, whatever was broken before and whatever could not be removed. -/
theorem removal_idempotent (pl : Planner) (selected : PackageSet) :
    (pl.removal (pl.removal selected).removals).removals = (pl.removal selected).removals ∧
      (pl.removal (pl.removal selected).removals).forced = ∅ := by
  have hnothing : ((pl.doomed (pl.removal selected).removals).filter
      (!pl.isTolerated (pl.doomed (pl.removal selected).removals) ·)) = ∅ := by
    refine Keyed.eq_empty_of_forall_not_mem fun x hx => ?_
    obtain ⟨hdoomed, hnot⟩ := Keyed.mem_filter.mp hx
    have htolerated : pl.isTolerated (pl.doomed (pl.removal selected).removals) x = true :=
      isTolerated_of_subset (fun y hy => (tolerated_of_mem_doomed_again hy).1) (tolerated_of_mem_doomed_again hdoomed).2
    rw [htolerated] at hnot
    cases hnot
  have hremovals : (pl.removal (pl.removal selected).removals).removals = (pl.removal selected).removals := by
    -- the second removal adds the doomed packages that are not tolerated to what the first one took
    show (pl.removal selected).removals.union _ = _
    rw [hnothing]
    rfl
  refine ⟨hremovals, ?_⟩
  rw [Removal.forced, hremovals]
  exact Keyed.diff_self _

end Planner

end AddonPlanner
