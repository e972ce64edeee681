import AddonPlanner.Proofs.Resolution.Report

/-!
# What dependencies inherit

A dependency of a sound member of the pool is resolved against the same pool with another package in question, and requirements are
visited in another order. All of them are requirements that the first package leads to as well: what the dependency expands, the
first package expands (`Sound.mem_expanded_of_mem_expanded`), and the bounds that the dependency has in force are no narrower
(`Sound.exists_boundsFor?_of_mem_expanded`). So when a member of the pool has no issue, its dependencies need not be looked at again
(`resolution_inherited_by_dependencies`).
-/

namespace AddonPlanner.Package

variable {root d : Package} {pool : PackageSet} {host : HostVersion}

/-- A sound package expands what it reaches. -/
theorem Sound.mem_expanded_iff (hs : root.Sound pool) {x : Package} : x ∈ root.expanded pool host ↔ root.Reaches pool x := by
  constructor
  · exact reaches_of_mem_expanded
  · intro hx
    refine mem_expanded.mpr ?_
    by_cases hid : x.id = root.id
    · exact Or.inl (hx.eq_of_id_eq hid)
    · exact Or.inr (hs.mem_dependencies_iff.mpr ⟨hx, hid⟩)

/-- What is expanded for a dependency of a sound member of the pool is expanded for that member. -/
theorem Sound.mem_expanded_of_mem_expanded (h : root ∈ pool) (hs : root.Sound pool) (hd : d ∈ root.expanded pool host) {x : Package}
    (hx : x ∈ d.expanded pool host) : x ∈ root.expanded pool host :=
  hs.mem_expanded_iff.mpr ((reaches_of_mem_expanded hd).trans h (reaches_of_mem_expanded hx))

/-- Where a dependency of a sound member of the pool has bounds in force, that member has bounds too, and they are no wider. -/
theorem Sound.exists_boundsFor?_of_mem_expanded (h : root ∈ pool) (hs : root.Sound pool) (hd : d ∈ root.expanded pool host)
    {id : String} {b : Bounds Version} (hb : (d.resolution pool host).boundsFor? id = some b) :
    ∃ b', (root.resolution pool host).boundsFor? id = some b' ∧ ∀ v, b'.contains v → b.contains v := by
  have hdsound : d.Sound pool := hs.of_reaches h (reaches_of_mem_expanded hd)
  obtain ⟨-, x, hx, r, hr, rfl⟩ := isSome_boundsFor?_iff.mp (Option.isSome_of_eq_some hb)
  have hxroot : x ∈ root.expanded pool host := hs.mem_expanded_of_mem_expanded h hd hx
  obtain ⟨b', hb', -⟩ := @Sound.exists_boundsFor? root pool host hs x (reaches_of_mem_expanded hxroot) r hr
  refine ⟨b', hb', fun v hv => (hdsound.contains_boundsFor?_iff hb v).mpr fun y hy q hq hid => ?_⟩
  have hyroot : y ∈ root.expanded pool host := hs.mem_expanded_of_mem_expanded h hd hy
  exact (hs.contains_boundsFor?_iff hb' v).mp hv y hyroot q hq hid

/-- A package without an issue has dependencies without an issue. When the resolution of a pool's own member has none, that of each
dependency against the same pool has none either. It brings in nothing but the member and what the member depends on, and where it
has bounds in force, the member has bounds as well, which contain no further version. -/
theorem resolution_inherited_by_dependencies (root : Package) (pool : PackageSet) (host : HostVersion)
    (hown : pool.get? root.id = some root) (hclear : (root.resolution pool host).hasIssue = false) :
    ∀ d ∈ (root.resolution pool host).dependencies,
      (d.resolution pool host).hasIssue = false ∧
      (∀ x ∈ (d.resolution pool host).dependencies, x = root ∨ x ∈ (root.resolution pool host).dependencies) ∧
      ∀ id b, (d.resolution pool host).boundsFor? id = some b →
        ∃ b', (root.resolution pool host).boundsFor? id = some b' ∧ ∀ v, b'.contains v → b.contains v := by
  intro d hd
  have hmem : root ∈ pool := Keyed.mem_iff_get?.mpr hown
  have hs : root.Sound pool := hasIssue_eq_false_iff.mp hclear
  have hd : d ∈ root.expanded pool host := mem_expanded.mpr (Or.inr hd)
  refine ⟨hasIssue_eq_false_iff.mpr (hs.of_reaches hmem (reaches_of_mem_expanded hd)), ?_, ?_⟩
  · intro x hx
    exact mem_expanded.mp (hs.mem_expanded_of_mem_expanded hmem hd (mem_expanded.mpr (Or.inr hx)))
  · intro id b hb
    exact hs.exists_boundsFor?_of_mem_expanded hmem hd hb

/-- A printer that needs a spooler and the first version of some paper. -/
def printer : Package := ⟨"printer", .one, none, [⟨"spooler", .any⟩, ⟨"paper", .atMost .one⟩], .installed⟩

/-- The spooler, which accepts newer paper too and needs a driver that needs the spooler in turn. -/
def spooler : Package := ⟨"spooler", .one, none, [⟨"paper", .atLeast .one⟩, ⟨"driver", .any⟩], .installed⟩

/-- What is installed: these two, the driver and the paper. -/
def copyshop : PackageSet :=
  .ofList [printer, spooler, ⟨"driver", .one, none, [⟨"spooler", .any⟩], .installed⟩, ⟨"paper", .one, none, [], .installed⟩]

/-- The spooler has no issue because the printer has none. On its own it would accept newer paper than the printer leaves it. -/
theorem spooler_inherits_from_printer :
    copyshop.get? printer.id = some printer ∧ (printer.resolution copyshop .eleven).hasIssue = false ∧
      spooler ∈ (printer.resolution copyshop .eleven).dependencies ∧
      (spooler.resolution copyshop .eleven).hasIssue = false ∧
      (∀ x ∈ (spooler.resolution copyshop .eleven).dependencies,
        x = printer ∨ x ∈ (printer.resolution copyshop .eleven).dependencies) ∧
      (∀ id b, (spooler.resolution copyshop .eleven).boundsFor? id = some b →
        ∃ b', (printer.resolution copyshop .eleven).boundsFor? id = some b' ∧ ∀ v, b'.contains v → b.contains v) ∧
      ((spooler.resolution copyshop .eleven).boundsFor? "paper").map (·.contains .two) = some true ∧
      ((printer.resolution copyshop .eleven).boundsFor? "paper").map (·.contains .two) = some false := by
  have hown : copyshop.get? printer.id = some printer := rfl
  have hclear : (printer.resolution copyshop .eleven).hasIssue = false := by decide +kernel
  have hreached : printer.Reaches copyshop spooler := Reaches.self.step List.mem_cons_self rfl
  have hspooler : spooler ∈ (printer.resolution copyshop .eleven).dependencies :=
    (hasIssue_eq_false_iff.mp hclear).mem_dependencies_iff.mpr ⟨hreached, by decide⟩
  obtain ⟨hspoolerClear, hdependencies, hbounds⟩ :=
    resolution_inherited_by_dependencies printer copyshop .eleven hown hclear spooler hspooler
  exact ⟨hown, hclear, hspooler, hspoolerClear, hdependencies, hbounds, by decide +kernel, by decide +kernel⟩

/-- Only the pool's own entry passes it on. The next version of a printer has no issue, since the stapler that it needs leads back to
that version; the stapler, resolved on its own, finds the installed version and has one. -/
example :
    let next : Package := ⟨"printer", .two, none, [⟨"stapler", .any⟩], .available⟩
    let installed : PackageSet :=
      .ofList [{ next with version := .one }, ⟨"stapler", .one, none, [⟨"printer", .atLeast .two⟩], .installed⟩]
    (next.resolution installed .eleven).hasIssue = false ∧
      (next.resolution installed .eleven).dependencies.toList.map (fun d => (d.id, (d.resolution installed .eleven).hasIssue)) =
        [("stapler", true)] := by
  decide +kernel

end AddonPlanner.Package
