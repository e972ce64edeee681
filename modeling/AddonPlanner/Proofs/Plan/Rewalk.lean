import AddonPlanner.Proofs.Plan.Entries
import AddonPlanner.Proofs.Resolution.Inheritance

/-!
# Walking what a walk has added

A walk provides for all that a package needs, through all stages. When one of these dependencies is walked in turn, it needs nothing
besides, except that requirements may lead back to the package itself, and it accepts every installed version that the package
accepts. So every edit of the second walk has been made already (`made_of_mem_walkEdits`), and the walk changes nothing
(`walk_covers_dependencies`).
-/

namespace AddonPlanner

namespace Changes

/-- An edit that has been made already changes nothing. -/
theorem edit_of_made {c : Changes} {e : Edit} (h : e.Made c) : c.edit e = c := by
  cases e with
  | install p => rw [edit, Keyed.insert_of_contains h]
  | exchange present p => rw [edit, Keyed.insert_of_contains h.1, Keyed.insert_of_contains h.2]
  | spare id => rw [edit, Keyed.erase_of_contains_eq_false h]

theorem foldl_edit_of_made {c : Changes} {l : List Edit} (h : ∀ e ∈ l, e.Made c) : l.foldl edit c = c := by
  induction l with
  | nil => rfl
  | cons e rest ih =>
    obtain ⟨he, hrest⟩ := List.forall_mem_cons.mp h
    rw [List.foldl_cons, edit_of_made he, ih hrest]

end Changes

namespace Planner

variable {pl : Planner} {selected : PackageSet} {p d : Package}

/-- What a dependency of a sound available package needs, the package needs, unless it is the package. -/
theorem eq_or_mem_needs (hp : p ∈ pl.catalog.available) (hs : p.Sound pl.catalog.available) (hd : d ∈ pl.needs p) {x : Package}
    (hx : x ∈ pl.needs d) : x = p ∨ x ∈ pl.needs p := by
  have hdp : d ∈ p.expanded pl.catalog.available pl.host := Package.mem_expanded.mpr (Or.inr hd)
  exact Package.mem_expanded.mp (hs.mem_expanded_of_mem_expanded hp hdp (Package.mem_expanded.mpr (Or.inr hx)))

/-- The walk of a dependency provides for another dependency as the walk of the package does. -/
theorem mem_walkEdits_of_mem_provision (hp : p ∈ pl.catalog.available) (hs : p.Sound pl.catalog.available) (hd : d ∈ pl.needs p)
    {x : Package} (hx : x ∈ pl.needs p) {e : Edit}
    (he : e ∈ pl.provision selected (d.resolution pl.catalog.available pl.host) x) : e ∈ pl.walkEdits selected p := by
  have hdp : d ∈ p.expanded pl.catalog.available pl.host := Package.mem_expanded.mpr (Or.inr hd)
  obtain ⟨hsel, hst, ⟨hinst, rfl⟩ | ⟨present, hinst, ⟨b, hb, hout⟩, rfl⟩⟩ := mem_provision_iff.mp he
  · exact install_mem_walkEdits.mpr ⟨hx, hsel, hst, hinst⟩
  · obtain ⟨b', hb', hsub⟩ := hs.exists_boundsFor?_of_mem_expanded hp hdp hb
    have hout' : b'.contains present.version = false := by
      refine Bool.eq_false_iff.mpr fun hin => ?_
      rw [hsub _ hin] at hout
      cases hout
    exact exchange_mem_walkEdits.mpr ⟨hx, hsel, hst, hinst, b', hb', hout'⟩

/-- A package has its place: it was asked for, or it has taken the place of its installed version. -/
def HasPlace (pl : Planner) (selected : PackageSet) (c : Changes) (p : Package) : Prop :=
  selected.contains p.id ∨
    ∃ present, pl.catalog.installed.get? p.id = some present ∧ c.replaced.contains present.id ∧ c.updates.contains p.id

/-- Nothing is left to do for a package that has its place. -/
theorem HasPlace.made_of_mem_provision {c : Changes} {walked : Resolution} (hc : pl.HasPlace selected c p) {e : Edit}
    (he : e ∈ pl.provision selected walked p) : e.Made c := by
  obtain ⟨hsel, -, hcases⟩ := mem_provision_iff.mp he
  obtain ⟨present, hpresent, hmade⟩ := hc.resolve_left (by simp [hsel])
  rcases hcases with ⟨hinst, -⟩ | ⟨present', hinst, -, rfl⟩
  · rw [hpresent] at hinst
    cases hinst
  · rw [hpresent] at hinst
    obtain rfl := Option.some.inj hinst
    exact hmade

/-- The walk of a package that has its place makes every edit of the walks of its dependencies. -/
theorem made_of_mem_walkEdits (hp : p ∈ pl.catalog.available) (hs : p.Sound pl.catalog.available) {c : Changes}
    (hc : pl.HasPlace selected c p) (hd : d ∈ pl.needs p) {e : Edit} (he : e ∈ pl.walkEdits selected d) :
    e.Made (pl.walk selected c p) := by
  rw [walk_eq_foldl]
  obtain ⟨x, hx, he⟩ := List.mem_flatMap.mp he
  rcases eq_or_mem_needs hp hs hd hx with rfl | hxp
  · exact Changes.made_foldl_edit_of_made (hc.made_of_mem_provision he)
  · exact Changes.made_foldl_edit (mem_walkEdits_of_mem_provision hp hs hd hxp he)

/-- When an available package without issues among the available ones has been walked, and it was asked for or has taken the place
of its installed version, walks of its dependencies change nothing, in whatever order and however often they are made. -/
theorem walk_covers_dependencies (pl : Planner) (selected : PackageSet) (c : Changes) (p : Package)
    (hp : p ∈ pl.catalog.available) (hclear : (p.resolution pl.catalog.available pl.host).hasIssue = false)
    (hc : pl.HasPlace selected c p) (ds : List Package)
    (hds : ∀ d ∈ ds, d ∈ (p.resolution pl.catalog.available pl.host).dependencies) :
    ds.foldl (pl.walk selected) (pl.walk selected c p) = pl.walk selected c p := by
  have hs : p.Sound pl.catalog.available := Package.hasIssue_eq_false_iff.mp hclear
  rw [Changes.foldl_eq_foldl_edit walk_eq_foldl]
  refine Changes.foldl_edit_of_made fun e he => ?_
  obtain ⟨d, hd, he⟩ := List.mem_flatMap.mp he
  exact made_of_mem_walkEdits hp hs hc (hds d hd) he

/-- The installed version of a suite. -/
def oldSuite : Package := ⟨"suite", .one, none, [], .installed⟩

/-- The next version of the suite, which needs a reverb and the next codec. -/
def suite : Package := ⟨"suite", .two, none, [⟨"reverb", .any⟩, ⟨"codec", .atLeast .two⟩], .available⟩

/-- A host where any codec will do for the reverb, which needs the next version of the suite in turn. -/
def rehearsal : Planner where
  catalog :=
    { installed := .ofList [⟨"codec", .one, none, [], .installed⟩, oldSuite]
      available := .ofList [⟨"codec", .two, none, [], .available⟩,
        ⟨"reverb", .one, none, [⟨"codec", .any⟩, ⟨"suite", .atLeast .two⟩], .available⟩, suite] }
  host := .eleven

/-- The changes when the suite has taken the place of its installed version and has not been walked. -/
def suiteUpdate : Changes where
  replaced := .ofList [oldSuite]
  updates := .ofList [suite]

/-- After the suite, walks of the reverb and of the codec change nothing, though the reverb leads back to the suite and would accept
the installed codec, which the walk of the suite has exchanged. -/
theorem walk_suite_covers_reverb :
    (suite.resolution rehearsal.catalog.available rehearsal.host).dependencies.keys = ["codec", "reverb"] ∧
      (suite.resolution rehearsal.catalog.available rehearsal.host).dependencies.toList.reverse.foldl (rehearsal.walk ∅)
        (rehearsal.walk ∅ suiteUpdate suite) = rehearsal.walk ∅ suiteUpdate suite ∧
      (rehearsal.walk ∅ suiteUpdate suite).installs.keys = ["reverb"] ∧
      (rehearsal.walk ∅ suiteUpdate suite).updates.keys = ["codec", "suite"] := by
  have hp : suite ∈ rehearsal.catalog.available := Keyed.mem_ofList rfl
  have hclear : (suite.resolution rehearsal.catalog.available rehearsal.host).hasIssue = false := by decide +kernel
  have hplace : rehearsal.HasPlace ∅ suiteUpdate suite :=
    Or.inr ⟨oldSuite, rfl, by decide +kernel, by decide +kernel⟩
  exact ⟨by decide +kernel,
    walk_covers_dependencies rehearsal ∅ suiteUpdate suite hp hclear hplace _ fun d hd => List.mem_reverse.mp hd,
    by decide +kernel, by decide +kernel⟩

end Planner

end AddonPlanner
