import AddonPlanner.Proofs.Plan.Entries

/-!
# What a plan fetches

A walk brings in only what can be fetched. A rescue does not ask whether the rescuer can be, so what a plan brings in besides what
was asked for can be fetched just when every rescuer can (`unselected_available_iff`).
-/

namespace AddonPlanner.Planner

variable {pl : Planner} {goal : Goal} {selected : PackageSet}

/-- What a plan installs unasked can be fetched. -/
theorem statusOf_of_mem_installs_rescued {x : Package} (hx : x ∈ (pl.rescued goal selected).installs) :
    pl.catalog.statusOf x = .available := by
  obtain ⟨w, -, he⟩ := mem_installs_rescued_iff.mp hx
  obtain ⟨-, -, hst, -⟩ := install_mem_walkEdits.mp he
  exact hst

/-- What a plan updates unasked is a rescuer or can be fetched. -/
theorem rescuer_or_statusOf_of_mem_updates_rescued {x : Package} (hx : x ∈ (pl.rescued goal selected).updates) :
    (∃ p ∈ pl.breaking selected (pl.walked goal selected), pl.rescuer? p = some x) ∨ pl.catalog.statusOf x = .available := by
  refine (mem_updates_rescued_iff.mp hx).imp_right ?_
  rintro ⟨w, -, present, he⟩
  obtain ⟨-, -, hst, -⟩ := exchange_mem_walkEdits.mp he
  exact hst

/-- What a plan installs without being asked can be fetched. What it updates without being asked can be fetched exactly when
each rescuer of a package that breaks can. -/
theorem unselected_available_iff (pl : Planner) (goal : Goal) (selected : PackageSet) :
    (∀ x ∈ (pl.plan goal selected).installs, x ∉ selected → pl.catalog.statusOf x = .available) ∧
    ((∀ x ∈ (pl.plan goal selected).updates, x ∉ selected → pl.catalog.statusOf x = .available) ↔
      ∀ p ∈ pl.breaking selected (pl.walked goal selected), ∀ q, pl.rescuer? p = some q →
        pl.catalog.statusOf q = .available) := by
  refine ⟨fun x hx hsel => ?_, fun hupdates p hp q hq => ?_, fun hrescuers x hx hsel => ?_⟩
  · exact statusOf_of_mem_installs_rescued ((mem_installs_plan hx).resolve_left fun h => hsel h.2)
  · have hupdate := mem_updates_of_rescuer hp hq
    refine hupdates q (mem_updates_plan_iff.mpr (Or.inr hupdate)) fun hsel => ?_
    have hfree := (mem_updates_rescued hupdate).2.1
    rw [Keyed.contains_of_mem hsel] at hfree
    cases hfree
  · have hx := (mem_updates_plan hx).resolve_left fun h => hsel h.2
    rcases rescuer_or_statusOf_of_mem_updates_rescued hx with ⟨p, hp, hq⟩ | hst
    · exact hrescuers p hp x hq
    · exact hst

/-- The kernel that is asked for. -/
def kernel : Package := ⟨"kernel", .two, none, [], .available⟩

/-- A host where an update of the kernel breaks the module, and the module's next version is just being fetched. -/
def platform : Planner where
  catalog :=
    { installed := .ofList [⟨"kernel", .one, none, [], .installed⟩,
        ⟨"module", .one, none, [⟨"kernel", .atMost .one⟩], .installed⟩]
      available := .ofList [kernel, ⟨"module", .two, none, [⟨"kernel", .atLeast .two⟩], .downloading⟩] }
  host := .eleven

/-- The module is to be updated to a version that cannot be fetched. -/
theorem module_updated_while_downloading :
    (platform.plan .update (.ofList [kernel])).updates.keys = ["kernel", "module"] ∧
      (Keyed.ofList [kernel] : PackageSet).contains "module" = false ∧
      ((platform.plan .update (.ofList [kernel])).updates.get? "module").map platform.catalog.statusOf = some .downloading := by
  decide +kernel

end AddonPlanner.Planner
