import AddonPlanner.Proofs.Resolution.Report

/-!
# What a resolution reads of the pool

A search asks the pool only for what the requirements of the package and of its dependencies name. Two pools that answer these
questions alike therefore lead to the same resolution, issues and their order included (`resolution_congr`).

More packages in the pool can only answer what had no answer before. So they change nothing exactly when none of them was reported
as missing (`resolution_eq_iff_of_subset`).
-/

namespace AddonPlanner

variable {root : Package} {pool other : PackageSet} {host : HostVersion}

namespace Search

/-- A visit asks the pool for what its requirement names and for nothing else. -/
theorem visit_congr {parent : Package} {r : Requirement} (s : Search)
    (h : root.resolve? other r.id = root.resolve? pool r.id) :
    visit root other host parent s r = visit root pool host parent s r := by
  unfold visit
  rw [h]

theorem expand_congr {parent : Package} (s : Search)
    (h : ∀ r ∈ parent.requirements, root.resolve? other r.id = root.resolve? pool r.id) :
    s.expand root other host parent = s.expand root pool host parent :=
  List.foldl_rel (r := Eq) rfl fun r hr s _ heq => heq ▸ visit_congr s (h r hr)

theorem mem_dependencies_run {s : Search} {x : Package} (hx : x ∈ s.dependencies) :
    x ∈ (s.run root pool host).dependencies := by
  refine (run_induction (P := fun t => x ∈ t.dependencies) (fun s parent rest _ hs => ?_) hx).1
  exact expand_induction (P := fun t => x ∈ t.dependencies) (fun _ _ _ => mem_dependencies_visit) hs

/-- Searches through two pools stay in step as long as the pools agree on whatever is named by the package or by what has been found
in the end. -/
theorem run_congr {s : Search} (hs : s.Accounted root pool host)
    (h : ∀ x, (x = root ∨ x ∈ (s.run root pool host).dependencies) → ∀ r ∈ x.requirements,
      root.resolve? other r.id = root.resolve? pool r.id) :
    s.run root other host = s.run root pool host := by
  fun_induction run root pool host s with
  | case1 s hp => exact run_of_pending_nil root other host hp
  | case2 s parent rest hp ih =>
    have hparent : parent = root ∨ parent ∈ s.dependencies := hs.of_mem_pending (by rw [hp]; exact List.mem_cons_self)
    have hfound : parent ∈ s.dependencies → parent ∈ (s.run root pool host).dependencies := mem_dependencies_run
    rw [run_of_pending_cons root pool host hp] at hfound
    rw [run_of_pending_cons root other host hp, expand_congr _ (h parent (hparent.imp_right hfound))]
    exact ih (hs.expand hp) h

end Search

namespace Package

/-- Pools that give the same answers to what the package and its dependencies name lead to the same resolution. -/
theorem resolution_congr
    (h : ∀ x ∈ root.expanded pool host, ∀ r ∈ x.requirements, root.resolve? other r.id = root.resolve? pool r.id) :
    root.resolution other host = root.resolution pool host := by
  have hrun := @Search.run_congr root pool other host _ Search.accounted_start fun x hx => h x (mem_expanded.mpr hx)
  exact congrArg Search.toResolution hrun

/-- A resolution reads only the part of the pool that it reaches. When each member of a pool is the member of its identifier in
another one, both lead to the same resolution, its issues and host issues in the same order, exactly when the other one has nothing
that was reported as missing. -/
theorem resolution_eq_iff_of_subset (root : Package) (pool other : PackageSet) (host : HostVersion)
    (hsub : ∀ x ∈ pool, other.get? x.id = some x) :
    root.resolution other host = root.resolution pool host ↔
      ∀ requirer id, .missing requirer id ∈ (root.resolution pool host).issues → other.contains id = false := by
  constructor
  · intro heq requirer id hmissing
    rw [← heq] at hmissing
    obtain ⟨-, -, -, -, -, -, hnone⟩ := missing_mem_issues_iff.mp hmissing
    exact (resolve?_eq_none_iff.mp hnone).2
  · intro habsent
    refine resolution_congr fun x hx r hr => ?_
    cases hres : root.resolve? pool r.id with
    | some y => exact resolve?_of_subset (fun z hz => Keyed.mem_iff_get?.mpr (hsub z hz)) hres
    | none =>
      have hmissing : .missing x.id r.id ∈ (root.resolution pool host).issues :=
        missing_mem_issues_iff.mpr ⟨x, hx, rfl, r, hr, rfl, hres⟩
      exact resolve?_eq_none_iff.mpr ⟨(resolve?_eq_none_iff.mp hres).1, habsent _ _ hmissing⟩

/-- A sequencer that needs a sampler, a sound font that is not too new, and a driver. -/
def sequencer : Package :=
  ⟨"sequencer", .one, none, [⟨"sampler", .any⟩, ⟨"font", .atMost .one⟩, ⟨"driver", .any⟩], .available⟩

/-- A newer sound font, and a sampler for newer hosts that needs the sequencer in turn; there is no driver. -/
def stand : PackageSet :=
  .ofList [⟨"font", .two, none, [], .installed⟩,
    ⟨"sampler", .one, some { HostVersion.eleven with major := 17 }, [⟨"sequencer", .any⟩, ⟨"font", .any⟩], .installed⟩]

/-- A metronome, which needs the driver too. -/
def metronome : Package := ⟨"metronome", .one, none, [⟨"driver", .any⟩], .installed⟩

/-- The driver. -/
def driver : Package := ⟨"driver", .one, none, [], .installed⟩

theorem get?_stand_insert {p x : Package} (hx : x ∈ stand) : (stand.insert p).get? x.id = some x :=
  Keyed.mem_iff_get?.mp (Keyed.mem_insert_of_mem hx)

/-- With issues of all kinds, a metronome on the stand makes no difference to the sequencer, and a driver does. -/
theorem sequencer_ignores_metronome :
    (∀ x ∈ stand, (stand.insert metronome).get? x.id = some x) ∧
      sequencer.resolution (stand.insert metronome) .eleven = sequencer.resolution stand .eleven ∧
      (sequencer.resolution stand .eleven).issues.map Issue.message =
        ["`sequencer` requires `font` but version 2 is incompatible", "`sequencer` requires `driver` which is missing",
          "`sampler` requires `font` but version 2 is incompatible"] ∧
      (sequencer.resolution stand .eleven).needsNewerHost ∧
      (∀ x ∈ stand, (stand.insert driver).get? x.id = some x) ∧
      sequencer.resolution (stand.insert driver) .eleven ≠ sequencer.resolution stand .eleven := by
  have hmissing : ((sequencer.resolution stand .eleven).issues.filter Issue.isMissing).map Issue.dependency = ["driver"] := by
    decide +kernel
  have hmetronome := resolution_eq_iff_of_subset sequencer stand (stand.insert metronome) .eleven fun _ => get?_stand_insert
  have hdriver := resolution_eq_iff_of_subset sequencer stand (stand.insert driver) .eleven fun _ => get?_stand_insert
  refine ⟨fun _ => get?_stand_insert, hmetronome.mpr fun requirer id hissue => ?_, by decide +kernel, by decide +kernel,
    fun _ => get?_stand_insert, fun heq => ?_⟩
  · have hid : id ∈ ((sequencer.resolution stand .eleven).issues.filter Issue.isMissing).map Issue.dependency :=
      List.mem_map.mpr ⟨_, List.mem_filter.mpr ⟨hissue, rfl⟩, rfl⟩
    rw [hmissing, List.mem_singleton] at hid
    rw [hid]
    decide +kernel
  · have hreported : .missing "sequencer" "driver" ∈ (sequencer.resolution stand .eleven).issues :=
      missing_mem_issues_iff.mpr ⟨sequencer, mem_expanded.mpr (Or.inl rfl), rfl, ⟨"driver", .any⟩, by simp [sequencer], rfl,
        resolve?_eq_none_iff.mpr ⟨by decide, by decide +kernel⟩⟩
    exact absurd (hdriver.mp heq _ _ hreported) (by decide +kernel)

end Package

end AddonPlanner
