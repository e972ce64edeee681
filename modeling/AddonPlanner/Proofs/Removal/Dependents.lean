import AddonPlanner.Proofs.Dependents.Graph
import AddonPlanner.Proofs.Removal.Cascade

/-!
# A removal and the search for dependents

When nothing is wrong with the installed packages, a removal forces out just the dependents of what was asked for, but for those
whose removal has failed before (`forced_eq_dependents`). The removal asks of each remaining package whether it is still sound;
the search starts from what was asked for and follows the requirements backwards. Both meet in the requirement that is met: a
member of a sound pool stays sound exactly when nothing that is lost leads to it (`sound_diff_iff_not_led`).
-/

namespace AddonPlanner

namespace Package

variable {pool lost : PackageSet} {p t x : Package}

/-- Nothing that an absent package leads to is sound. -/
theorem LeadsTo.not_sound (ht : pool.contains t.id = false) (h : t.LeadsTo pool.toList x) : ¬ x.Sound pool := by
  induction h with
  | direct hx hreq =>
    intro hs
    obtain ⟨r, hr, hmet⟩ := requires_iff.mp hreq
    obtain ⟨y, hy, hmet', -⟩ := hs.exists_mem hx hr
    have hid : y.id = t.id := (isMetBy_iff.mp hmet').1.trans (isMetBy_iff.mp hmet).1.symm
    exact Keyed.contains_eq_false_iff.mp ht y hy hid
  | through hled hx hreq ih =>
    intro hs
    obtain ⟨r, hr, hmet⟩ := requires_iff.mp hreq
    obtain ⟨y, hy, hmet', hsound⟩ := hs.exists_mem hx hr
    have hid := (isMetBy_iff.mp hmet').1.trans (isMetBy_iff.mp hmet).1.symm
    rw [Keyed.eq_of_key_eq hy hled.mem hid] at hsound
    exact ih hsound

/-- A package that is reached requires, at its version, whatever its requirements resolve to, when the root is sound. -/
theorem Sound.requires_of_resolve? (hs : p.Sound pool) (hx : p.Reaches pool x) {r : Requirement} (hr : r ∈ x.requirements)
    {y : Package} (hres : p.resolve? pool r.id = some y) : x.requires y := by
  obtain ⟨z, hz, hmet⟩ := hs x hx r hr
  rw [hres] at hz
  rw [← Option.some.inj hz] at hmet
  exact requires_iff.mpr ⟨r, hr, hmet⟩

/-- A member of a sound pool stays sound exactly when nothing that is lost leads to it. -/
theorem sound_diff_iff_not_led (hpool : ∀ q ∈ pool, q.Sound pool) (hlost : ∀ t ∈ lost, t ∈ pool) (hp : p ∈ pool.diff lost) :
    p.Sound (pool.diff lost) ↔ ∀ t ∈ lost, ¬ t.LeadsTo (pool.diff lost).toList p := by
  obtain ⟨hmem, hkept⟩ := Keyed.mem_diff.mp hp
  constructor
  · intro hs t ht hled
    refine hled.not_sound ?_ hs
    rw [Keyed.contains_diff, Keyed.contains_of_mem ht, Bool.not_true, Bool.and_false]
  · intro hnot
    have hsound := hpool p hmem
    -- along what the package reaches, nothing is lost and nothing lost leads there
    have hreached : ∀ x, p.Reaches pool x →
        lost.contains x.id = false ∧ ∀ t ∈ lost, ¬ t.LeadsTo (pool.diff lost).toList x := by
      intro x hx
      induction hx with
      | self => exact ⟨hkept, hnot⟩
      | @step x y r hx hr hres ih =>
        obtain ⟨hxkept, hxnot⟩ := ih
        have hxmem : x ∈ pool.diff lost := Keyed.mem_diff.mpr ⟨hx.mem hmem, hxkept⟩
        have hreq : x.requires y := hsound.requires_of_resolve? hx hr hres
        constructor
        · refine Keyed.contains_eq_false_iff.mpr fun t ht hid => hxnot t ht ?_
          rw [Keyed.eq_of_key_eq (hlost t ht) ((hx.step hr hres).mem hmem) hid]
          exact .direct hxmem hreq
        · intro t ht hled
          exact hxnot t ht (.through hled hxmem hreq)
    exact (hsound.diff_iff hmem hkept).mpr fun x hx => (hreached x hx).1

end Package

namespace Planner

variable {pl : Planner} {selected : PackageSet}

/-- What is forced out was not asked for. -/
theorem mem_forced_iff {x : Package} :
    x ∈ (pl.removal selected).forced ↔ x ∈ pl.doomed selected ∧ pl.isTolerated (pl.doomed selected) x = false := by
  rw [Removal.forced, Keyed.mem_diff, mem_removals_iff]
  constructor
  · rintro ⟨hx | hx, hsel⟩
    · exact absurd (Keyed.contains_of_mem hx) (Bool.eq_false_iff.mp hsel)
    · exact hx
  · intro hx
    exact ⟨Or.inr hx, (Keyed.mem_diff.mp (mem_doomed_iff.mp hx.1).1).2⟩

/-- When nothing was wrong, all that is doomed is forced out. -/
theorem forced_eq_doomed (hfine : ∀ p ∈ pl.catalog.installed, pl.isBroken pl.catalog.installed p = false) :
    (pl.removal selected).forced = pl.doomed selected := by
  refine Keyed.eq_of_forall_mem_iff fun x => mem_forced_iff.trans (and_iff_left_of_imp fun hx => ?_)
  have hinst := (Keyed.mem_diff.mp (mem_doomed_iff.mp hx).1).1
  rw [isTolerated, hfine x hinst, Bool.false_and]

/-- When nothing was wrong with the installed packages and some of them are asked for, those that they lead to are forced out, but
for the ones whose removal has failed before. -/
theorem mem_forced_iff_led (hfine : ∀ p ∈ pl.catalog.installed, pl.isBroken pl.catalog.installed p = false)
    (hselected : ∀ s ∈ selected, s ∈ pl.catalog.installed) {x : Package} :
    x ∈ (pl.removal selected).forced ↔
      (∃ t ∈ selected, t.LeadsTo (pl.catalog.installed.diff selected).toList x) ∧ x.status ≠ .removalFailed := by
  have hpool : ∀ p ∈ pl.catalog.installed, p.Sound pl.catalog.installed :=
    fun p hp => isBroken_eq_false_iff.mp (hfine p hp)
  rw [forced_eq_doomed hfine, mem_doomed_iff, isBroken_iff]
  constructor
  · rintro ⟨hx, hbroken, hstatus⟩
    rw [Catalog.statusOf_installed (Keyed.mem_diff.mp hx).1] at hstatus
    rw [Package.sound_diff_iff_not_led hpool hselected hx] at hbroken
    obtain ⟨t, ht⟩ := Classical.not_forall.mp hbroken
    obtain ⟨ht, hled⟩ := Classical.not_imp.mp ht
    exact ⟨⟨t, ht, Classical.not_not.mp hled⟩, hstatus⟩
  · rintro ⟨⟨t, ht, hled⟩, hstatus⟩
    have hx : x ∈ pl.catalog.installed.diff selected := hled.mem
    rw [Package.sound_diff_iff_not_led hpool hselected hx, Catalog.statusOf_installed (Keyed.mem_diff.mp hx).1]
    exact ⟨hx, fun hnone => hnone t ht hled, hstatus⟩

/-- When nothing is wrong with the installed packages and some of them are to be removed, the packages that are forced out are
the dependents of what was asked for, but for those whose removal has failed before; and these dependents are what every search
of the graph finds that visits exactly the nodes it reaches and has not visited yet. -/
theorem forced_eq_dependents (pl : Planner) (selected : PackageSet) (search : DependentsGraph.Traversal)
    (hfine : ∀ p ∈ pl.catalog.installed, pl.isBroken pl.catalog.installed p = false)
    (hselected : ∀ s ∈ selected, s ∈ pl.catalog.installed)
    (hsearch : search.Exact (pl.catalog.dependentsGraph selected ∅)) :
    (pl.removal selected).forced = (pl.catalog.dependents selected ∅).filter (·.status != .removalFailed) ∧
      pl.catalog.dependents selected ∅ = pl.catalog.dependentsVia search selected ∅ := by
  refine ⟨Keyed.eq_of_forall_mem_iff fun x => ?_, (Catalog.dependentsVia_eq_dependents hsearch).symm⟩
  rw [mem_forced_iff_led hfine hselected, Keyed.mem_filter, Catalog.mem_dependents_iff, Catalog.candidates, Keyed.diff_empty,
    bne_iff_ne]

/-- The font that is to be removed. -/
def font : Package := ⟨"font", .one, none, [], .installed⟩

/-- A host on which a toolkit needs the font and has failed to be removed before; a canvas needs the toolkit, and a brush and the
canvas need each other. -/
def atelier : Planner where
  catalog :=
    { installed := .ofList [⟨"brush", .one, none, [⟨"canvas", .any⟩], .installed⟩,
        ⟨"canvas", .one, none, [⟨"toolkit", .atLeast .one⟩, ⟨"brush", .any⟩], .installed⟩,
        ⟨"clock", .one, none, [], .installed⟩, font,
        ⟨"toolkit", .one, none, [⟨"font", .atMost .one⟩], .removalFailed⟩]
      available := ∅ }
  host := .eleven

/-- The brush and the canvas are forced out with the font, the toolkit between them and the font stays, and the clock is no
dependent. -/
theorem font_forces_canvas_and_brush :
    (∀ p ∈ atelier.catalog.installed, atelier.isBroken atelier.catalog.installed p = false) ∧
      (∀ s ∈ (.ofList [font] : PackageSet), s ∈ atelier.catalog.installed) ∧
      DependentsGraph.Traversal.Exact (fun g visited i => g.depthFirst visited [i])
        (atelier.catalog.dependentsGraph (.ofList [font]) ∅) ∧
      ((atelier.removal (.ofList [font])).forced =
          (atelier.catalog.dependents (.ofList [font]) ∅).filter (·.status != .removalFailed) ∧
        atelier.catalog.dependents (.ofList [font]) ∅ =
          atelier.catalog.dependentsVia (fun g visited i => g.depthFirst visited [i]) (.ofList [font]) ∅) ∧
      (atelier.catalog.dependents (.ofList [font]) ∅).keys = ["brush", "canvas", "toolkit"] ∧
      (atelier.removal (.ofList [font])).forced.keys = ["brush", "canvas"] := by
  have hfine : ∀ p ∈ atelier.catalog.installed, atelier.isBroken atelier.catalog.installed p = false := by
    decide +kernel
  have hselected : ∀ s ∈ (.ofList [font] : PackageSet), s ∈ atelier.catalog.installed := by
    intro s hs
    obtain rfl := List.mem_singleton.mp hs
    exact Keyed.mem_ofList rfl
  have hsearch := DependentsGraph.exact_depthFirst (atelier.catalog.dependentsGraph (.ofList [font]) ∅)
  exact ⟨hfine, hselected, hsearch, forced_eq_dependents atelier (.ofList [font]) _ hfine hselected hsearch,
    by decide +kernel, by decide +kernel⟩

end Planner

end AddonPlanner
