import AddonPlanner.Proofs.Removal.Tolerance

/-!
# Removing a larger selection

What is doomed with a selection is doomed with a larger one too, or is selected there (`mem_doomed_of_larger`). What is taken
need not be taken any more: a package that was broken before is taken for a doomed package that it requires, and when this one is
selected it is no longer doomed (`larger_selection_spares_monitor`). Nothing else is spared
(`contains_removals_larger_eq_false_iff`); in particular a package that was in order stays among those that are taken.
-/

namespace AddonPlanner.Planner

variable {pl : Planner} {selected larger : PackageSet} {x : Package}

/-- A larger selection leaves fewer packages. -/
theorem mem_diff_of_larger (hsub : ∀ s ∈ selected, larger.contains s.id) (hx : x ∈ pl.catalog.installed.diff larger) :
    x ∈ pl.catalog.installed.diff selected := by
  obtain ⟨hinst, hfree⟩ := Keyed.mem_diff.mp hx
  refine Keyed.mem_diff.mpr ⟨hinst, Keyed.contains_eq_false_iff.mpr fun s hs hid => ?_⟩
  have hc := hsub s hs
  rw [hid, hfree] at hc
  cases hc

/-- What is doomed and is not selected stays doomed, for with fewer packages left it is broken all the more. -/
theorem mem_doomed_of_larger (hsub : ∀ s ∈ selected, larger.contains s.id) (hx : x ∈ pl.doomed selected)
    (hfree : larger.contains x.id = false) : x ∈ pl.doomed larger := by
  obtain ⟨hleft, hbroken, hstatus⟩ := mem_doomed_iff.mp hx
  have hfewer : x ∈ pl.catalog.installed.diff larger := Keyed.mem_diff.mpr ⟨(Keyed.mem_diff.mp hleft).1, hfree⟩
  refine mem_doomed_iff.mpr ⟨hfewer, isBroken_iff.mpr fun hs => ?_, hstatus⟩
  have hsound : x.Sound (pl.catalog.installed.diff selected) :=
    hs.of_reached_mem hfewer fun y hy => mem_diff_of_larger hsub (hy.mem hfewer)
  exact isBroken_iff.mp hbroken hsound

/-- A package that goes with a selection and stays with a larger one is tolerated there: it was broken before, it requires nothing
that is doomed with the larger selection, and what it requires that was doomed before is selected now. -/
theorem tolerated_of_spared (hsub : ∀ s ∈ selected, larger.contains s.id) (hx : x ∈ (pl.removal selected).removals)
    (hspared : (pl.removal larger).removals.contains x.id = false) :
    x ∈ pl.doomed selected ∧ pl.isTolerated (pl.doomed larger) x = true ∧
      ∃ q ∈ pl.doomed selected, larger.contains q.id ∧ ∃ r ∈ x.requirements, r.id = q.id := by
  have hfree : larger.contains x.id = false := by
    rw [contains_removals, Bool.or_eq_false_iff] at hspared
    exact hspared.1
  obtain ⟨hdoomed, htaken⟩ : x ∈ pl.doomed selected ∧ pl.isTolerated (pl.doomed selected) x = false := by
    refine (mem_removals_iff.mp hx).resolve_left fun hsel => ?_
    rw [hsub x hsel] at hfree
    cases hfree
  have htolerated : pl.isTolerated (pl.doomed larger) x = true := by
    rw [← Bool.not_eq_false]
    intro htaken'
    have hmem : x ∈ (pl.removal larger).removals :=
      mem_removals_iff.mpr (Or.inr ⟨mem_doomed_of_larger hsub hdoomed hfree, htaken'⟩)
    rw [Keyed.contains_of_mem hmem] at hspared
    cases hspared
  refine ⟨hdoomed, htolerated, ?_⟩
  obtain ⟨hbroken, hnone⟩ := isTolerated_iff.mp htolerated
  -- it was not tolerated before, so it requires a doomed package, and this one is doomed no longer
  have hreq : x.requiresAny (pl.doomed selected) := by
    rw [isTolerated, hbroken, Bool.true_and, Bool.not_eq_false'] at htaken
    exact htaken
  obtain ⟨r, hr, hc⟩ := Package.requiresAny_iff.mp hreq
  obtain ⟨q, hq, hid⟩ := Keyed.exists_mem_of_contains hc
  refine ⟨q, hq, ?_, r, hr, hid.symm⟩
  rw [← Bool.not_eq_false]
  intro hqfree
  have hq' := Keyed.contains_of_mem (mem_doomed_of_larger hsub hq hqfree)
  rw [hid] at hq'
  exact absurd (Package.requiresAny_iff.mpr ⟨r, hr, hq'⟩) (Bool.eq_false_iff.mp hnone)

/-- What goes with a selection stays with a larger one exactly when it is an installed package that is not selected, was broken
before, requires a package that was doomed and is now selected, and requires none that is doomed with the larger selection. -/
theorem contains_removals_larger_eq_false_iff (pl : Planner) (selected larger : PackageSet)
    (hsub : ∀ s ∈ selected, larger.contains s.id) (k : String) (hk : (pl.removal selected).removals.contains k) :
    (pl.removal larger).removals.contains k = false ↔
      ∃ p ∈ pl.catalog.installed, p.id = k ∧ larger.contains p.id = false ∧ pl.isBroken pl.catalog.installed p ∧
        p.requiresAny (pl.doomed larger) = false ∧
        ∃ q ∈ pl.doomed selected, larger.contains q.id ∧ ∃ r ∈ p.requirements, r.id = q.id := by
  constructor
  · intro hspared
    obtain ⟨p, hp, rfl⟩ := Keyed.exists_mem_of_contains hk
    obtain ⟨hdoomed, htolerated, hrequired⟩ := tolerated_of_spared hsub hp hspared
    obtain ⟨hbroken, hnone⟩ := isTolerated_iff.mp htolerated
    rw [contains_removals, Bool.or_eq_false_iff] at hspared
    exact ⟨p, (Keyed.mem_diff.mp (mem_doomed_iff.mp hdoomed).1).1, rfl, hspared.1, hbroken, hnone, hrequired⟩
  · rintro ⟨p, hp, rfl, hfree, hbroken, hnone, -⟩
    refine Keyed.contains_eq_false_iff.mpr fun y hy hid => ?_
    rcases mem_removals_iff.mp hy with hsel | ⟨hdoomed, htaken⟩
    · rw [← hid, Keyed.contains_of_mem hsel] at hfree
      cases hfree
    · obtain rfl := Keyed.eq_of_key_eq (Keyed.mem_diff.mp (mem_doomed_iff.mp hdoomed).1).1 hp hid
      rw [isTolerated_iff.mpr ⟨hbroken, hnone⟩] at htaken
      cases htaken

/-- A server that is to be removed. -/
def server : Package := ⟨"server", .one, none, [], .installed⟩

/-- The gateway, which needs the server. -/
def gateway : Package := ⟨"gateway", .one, none, [⟨"server", .any⟩], .installed⟩

/-- A host on which a monitor needs the gateway and lacks a probe. -/
def backbone : Planner where
  catalog :=
    { installed := .ofList [gateway, ⟨"monitor", .one, none, [⟨"gateway", .any⟩, ⟨"probe", .any⟩], .installed⟩, server]
      available := ∅ }
  host := .eleven

/-- The monitor goes with the server, because the gateway does; it stays when the gateway is to be removed as well. -/
theorem larger_selection_spares_monitor :
    (∀ s ∈ (.ofList [server] : PackageSet), (.ofList [gateway, server] : PackageSet).contains s.id) ∧
      (backbone.removal (.ofList [server])).removals.keys = ["gateway", "monitor", "server"] ∧
      (backbone.removal (.ofList [gateway, server])).removals.keys = ["gateway", "server"] := by
  decide +kernel

/-- The monitor is spared because it was broken before, requires the gateway, and requires nothing that is doomed then. -/
theorem monitor_spared_for_gateway :
    (∀ s ∈ (.ofList [server] : PackageSet), (.ofList [gateway, server] : PackageSet).contains s.id) ∧
      (backbone.removal (.ofList [server])).removals.contains "monitor" ∧
      ∃ p ∈ backbone.catalog.installed, p.id = "monitor" ∧ (.ofList [gateway, server] : PackageSet).contains p.id = false ∧
        backbone.isBroken backbone.catalog.installed p ∧
        p.requiresAny (backbone.doomed (.ofList [gateway, server])) = false ∧
        ∃ q ∈ backbone.doomed (.ofList [server]), (.ofList [gateway, server] : PackageSet).contains q.id ∧
          ∃ r ∈ p.requirements, r.id = q.id := by
  have hsub : ∀ s ∈ (.ofList [server] : PackageSet), (.ofList [gateway, server] : PackageSet).contains s.id := by
    decide +kernel
  have hgoes : (backbone.removal (.ofList [server])).removals.contains "monitor" := by decide +kernel
  exact ⟨hsub, hgoes, (contains_removals_larger_eq_false_iff backbone (.ofList [server]) (.ofList [gateway, server]) hsub
    "monitor" hgoes).mp (by decide +kernel)⟩

end AddonPlanner.Planner
