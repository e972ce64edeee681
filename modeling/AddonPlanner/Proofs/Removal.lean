import AddonPlanner.Proofs.Catalog
import AddonPlanner.Proofs.Resolution.Search
import AddonPlanner.Removal

/-!
# What a removal leaves behind

The work queue of a removal misses nothing: the doomed packages are the remaining ones that are broken among themselves and
whose removal has not failed before (`mem_doomed_iff`). What stays therefore depends on nothing that goes, so a package that
was in order before is in order afterwards (`removal_breaks_nothing`).
-/

namespace AddonPlanner

namespace Planner

variable {pl : Planner} {selected : PackageSet}

/-! ## The doomed packages -/

/-- A package without an issue vouches for what it depends on: none of that is broken. -/
theorem mem_others_of_isBroken {remaining : PackageSet} {p x : Package} {queue : List Package} (hp : p ∈ remaining)
    (hs : p.Sound remaining) (hx : x ∈ queue) (hmem : x ∈ remaining) (hb : pl.isBroken remaining x) :
    x ∈ (p.resolution remaining pl.host).others queue := by
  refine List.mem_filter.mpr ⟨hx, ?_⟩
  cases hc : (p.resolution remaining pl.host).dependencies.contains x.id with
  | false => rfl
  | true =>
    obtain ⟨z, hz, hzid⟩ := Keyed.exists_mem_of_contains hc
    have hreach := (hs.mem_dependencies_iff.mp hz).1
    obtain rfl := Keyed.eq_of_key_eq (hreach.mem hp) hmem hzid
    exact absurd (hs.of_reaches hp hreach) (isBroken_iff.mp hb)

/-- The queue adds its broken packages, but for those whose removal has failed. -/
theorem mem_cascade_iff {remaining doomed : PackageSet} {queue : List Package} (hdoomed : ∀ x ∈ doomed, x ∈ remaining)
    (hqueue : ∀ x ∈ queue, x ∈ remaining) (x : Package) :
    x ∈ pl.cascade remaining doomed queue ↔
      x ∈ doomed ∨ (x ∈ queue ∧ pl.isBroken remaining x ∧ pl.catalog.statusOf x ≠ .removalFailed) := by
  fun_induction cascade pl remaining doomed queue with
  | case1 doomed => simp
  | case2 doomed p rest r hclean ih =>
    have hp := hqueue p List.mem_cons_self
    have hs : p.Sound remaining := Package.hasIssue_eq_false_iff.mp (by simpa using hclean)
    rw [ih hdoomed fun y hy => hqueue y (List.mem_cons_of_mem _ (List.mem_filter.mp hy).1)]
    constructor
    · rintro (hx | ⟨hx, hb, hst⟩)
      · exact Or.inl hx
      · exact Or.inr ⟨List.mem_cons_of_mem _ (List.mem_filter.mp hx).1, hb, hst⟩
    · rintro (hx | ⟨hx, hb, hst⟩)
      · exact Or.inl hx
      · have hmem := hqueue x hx
        rcases List.mem_cons.mp hx with rfl | hx
        · exact absurd hs (isBroken_iff.mp hb)
        · exact Or.inr ⟨mem_others_of_isBroken hp hs hx hmem hb, hb, hst⟩
  | case3 doomed p rest r hissue hst ih =>
    have hp := hqueue p List.mem_cons_self
    have hb : pl.isBroken remaining p := by
      show r.hasIssue = true
      simpa using hissue
    have hinsert := @Keyed.mem_insert _ _ doomed remaining hdoomed p x hp
    rw [ih ?_ fun y hy => hqueue y (List.mem_cons_of_mem _ hy), hinsert, List.mem_cons]
    · constructor
      · rintro ((rfl | hx) | ⟨hx, h⟩)
        · exact Or.inr ⟨Or.inl rfl, hb, by simpa using hst⟩
        · exact Or.inl hx
        · exact Or.inr ⟨Or.inr hx, h⟩
      · rintro (hx | ⟨rfl | hx, h⟩)
        · exact Or.inl (Or.inr hx)
        · exact Or.inl (Or.inl rfl)
        · exact Or.inr ⟨hx, h⟩
    · intro y hy
      rcases Keyed.mem_of_mem_insert hy with rfl | hy
      · exact hp
      · exact hdoomed y hy
  | case4 doomed p rest r hissue hst ih =>
    rw [ih hdoomed fun y hy => hqueue y (List.mem_cons_of_mem _ hy), List.mem_cons]
    constructor
    · rintro (hx | ⟨hx, h⟩)
      · exact Or.inl hx
      · exact Or.inr ⟨Or.inr hx, h⟩
    · rintro (hx | ⟨rfl | hx, h⟩)
      · exact Or.inl hx
      · exact absurd h.2 (by simpa using hst)
      · exact Or.inr ⟨hx, h⟩

/-- The doomed packages are those that are broken among the remaining ones, but for those whose removal has failed. -/
theorem mem_doomed_iff {x : Package} :
    x ∈ pl.doomed selected ↔ x ∈ pl.catalog.installed.diff selected ∧
      pl.isBroken (pl.catalog.installed.diff selected) x ∧ pl.catalog.statusOf x ≠ .removalFailed := by
  rw [doomed, mem_cascade_iff (fun y hy => absurd hy List.not_mem_nil) fun y hy => hy]
  exact ⟨fun h => h.resolve_left List.not_mem_nil, Or.inr⟩

/-- Leaving packages out of the queue loses nothing: what is doomed is what a look at each remaining package finds, namely that it
has an issue among the remaining ones and that its removal has not failed before. -/
theorem doomed_eq_filter (pl : Planner) (selected : PackageSet) :
    pl.doomed selected = (pl.catalog.installed.diff selected).filter fun p =>
      (p.resolution (pl.catalog.installed.diff selected) pl.host).hasIssue && pl.catalog.statusOf p != .removalFailed := by
  refine Keyed.eq_of_forall_mem_iff fun x => ?_
  rw [mem_doomed_iff, Keyed.mem_filter, Bool.and_eq_true, bne_iff_ne]
  rfl

/-! ## What stays -/

theorem contains_removals (k : String) :
    (pl.removal selected).removals.contains k = (selected.contains k ||
      ((pl.doomed selected).filter (!pl.isTolerated (pl.doomed selected) ·)).contains k) :=
  Keyed.contains_union _ _ k

/-- Only selected and doomed packages are removed. -/
theorem mem_after_removal {x : Package} (hx : x ∈ pl.catalog.installed.diff selected) (hd : x ∉ pl.doomed selected) :
    x ∈ pl.catalog.installed.diff (pl.removal selected).removals := by
  obtain ⟨hinst, hsel⟩ := Keyed.mem_diff.mp hx
  refine Keyed.mem_diff.mpr ⟨hinst, ?_⟩
  rw [contains_removals, hsel, Bool.false_or]
  refine Keyed.contains_eq_false_iff.mpr fun y hy hid => hd ?_
  have hy := (Keyed.mem_filter.mp hy).1
  rwa [Keyed.eq_of_key_eq (mem_doomed_iff.mp hy).1 hx hid] at hy

/-- A package that stays, was in order before and could be removed is in order among the remaining ones. -/
theorem sound_remaining {p : Package} (hp : p ∈ pl.catalog.installed)
    (hstays : (pl.removal selected).removals.contains p.id = false) (hstatus : p.status ≠ .removalFailed)
    (hfine : pl.isBroken pl.catalog.installed p = false) : p.Sound (pl.catalog.installed.diff selected) := by
  rw [contains_removals, Bool.or_eq_false_iff] at hstays
  obtain ⟨hsel, hkept⟩ := hstays
  refine Classical.byContradiction fun hb => ?_
  have hdoomed : p ∈ pl.doomed selected :=
    mem_doomed_iff.mpr ⟨Keyed.mem_diff.mpr ⟨hp, hsel⟩, isBroken_iff.mpr hb, by rwa [Catalog.statusOf_installed hp]⟩
  have hremoved : p ∈ (pl.doomed selected).filter (!pl.isTolerated (pl.doomed selected) ·) :=
    Keyed.mem_filter.mpr ⟨hdoomed, by rw [isTolerated, hfine]; rfl⟩
  exact Keyed.contains_eq_false_iff.mp hkept p hremoved rfl

/-- Removing a selection breaks nothing that stays: an installed package that is not removed, whose removal has not failed
before and whose requirements were met among all installed packages has them met among those that stay. -/
theorem removal_breaks_nothing (pl : Planner) (selected : PackageSet) (p : Package) (hp : p ∈ pl.catalog.installed)
    (hstays : (pl.removal selected).removals.contains p.id = false) (hstatus : p.status ≠ .removalFailed)
    (hfine : pl.isBroken pl.catalog.installed p = false) :
    pl.isBroken (pl.catalog.installed.diff (pl.removal selected).removals) p = false := by
  have hsound := sound_remaining hp hstays hstatus hfine
  have hmem : p ∈ pl.catalog.installed.diff selected := by
    rw [contains_removals, Bool.or_eq_false_iff] at hstays
    exact Keyed.mem_diff.mpr ⟨hp, hstays.1⟩
  -- what the package reaches among the remaining ones is sound there, so it is not doomed
  have hreached : ∀ x, p.Reaches (pl.catalog.installed.diff selected) x →
      x ∈ pl.catalog.installed.diff (pl.removal selected).removals := by
    intro x hx
    refine mem_after_removal (hx.mem hmem) fun hd => ?_
    exact isBroken_iff.mp (mem_doomed_iff.mp hd).2.1 (hsound.of_reaches hmem hx)
  rw [isBroken_eq_false_iff, Package.sound_iff_of_kept hmem hreached]
  intro x hx r hr
  obtain ⟨y, hy, hmet⟩ := hsound x hx r hr
  have hreach := hx.step hr hy
  exact ⟨y, hreached y hreach, hmet, fun hne => absurd (hreach.mem hmem) hne⟩

/-- A game that is installed with an engine that needs the game in turn. -/
def game : Package := ⟨"game", .one, none, [⟨"engine", .atLeast .one⟩], .installed⟩

/-- The library that an application needs. -/
def library : Package := ⟨"library", .one, none, [], .installed⟩

/-- A host with the application and its library, and with the game and its engine. -/
def arcade : Planner where
  catalog :=
    { installed := .ofList [⟨"application", .one, none, [⟨"library", .any⟩, ⟨"engine", .any⟩], .installed⟩,
        ⟨"engine", .one, none, [⟨"game", .any⟩], .installed⟩, game, library]
      available := ∅ }
  host := .eleven

/-- The application goes with the library; the game and its engine stay and work. -/
theorem removal_of_library_spares_game :
    (arcade.removal (.ofList [library])).removals.keys = ["application", "library"] ∧
      arcade.isBroken (arcade.catalog.installed.diff (arcade.removal (.ofList [library])).removals) game = false :=
  ⟨by decide +kernel, removal_breaks_nothing arcade (.ofList [library]) game (Keyed.mem_ofList rfl)
    (by decide +kernel) (by decide) (by decide +kernel)⟩

end Planner

end AddonPlanner
