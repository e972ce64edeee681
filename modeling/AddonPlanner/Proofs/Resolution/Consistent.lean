import AddonPlanner.Proofs.Resolution.Trace

/-!
# Resolutions that do not depend on the order of visits

A search goes on from what it finds, and it finds a package when the bounds in force contain its version at that moment. What a
package finds can be said without them: the package itself, and whatever meets a requirement of something found (`Finds`). A
package is consistent when its found packages agree on whether what an identifier resolves to will do (`Consistent`); a sound
package is (`Sound.consistent`). The dependencies of a consistent package are what it finds (`Consistent.mem_dependencies_iff`),
and the bounds in force for one of them contain what all requirements on it contain (`Consistent.exists_boundsFor?`).
-/

namespace AddonPlanner

variable {root : Package} {pool : PackageSet} {host : HostVersion}

namespace Package

/-- What requirements lead to as long as they are met. -/
inductive Finds (root : Package) (pool : PackageSet) : Package → Prop
  /-- The package itself is found. -/
  | self : root.Finds pool root
  /-- What meets a requirement of something found is found. -/
  | step {x y : Package} {r : Requirement} :
    root.Finds pool x → r ∈ x.requirements → root.resolve? pool r.id = some y → r.isMetBy y → root.Finds pool y

/-- Requirements of found packages agree on whether what an identifier resolves to will do. -/
def Consistent (root : Package) (pool : PackageSet) : Prop :=
  ∀ x, root.Finds pool x → ∀ x', root.Finds pool x' → ∀ r ∈ x.requirements, ∀ r' ∈ x'.requirements, r'.id = r.id →
    ∀ y, root.resolve? pool r.id = some y → r.isMetBy y → r'.isMetBy y

theorem Finds.reaches {x : Package} (hx : root.Finds pool x) : root.Reaches pool x := by
  induction hx with
  | self => exact .self
  | step _ hr hres _ ih => exact ih.step hr hres

/-- A package is sound when each requirement of what it finds is met. -/
theorem sound_iff_of_finds : root.Sound pool ↔
    ∀ x, root.Finds pool x → ∀ r ∈ x.requirements, ∃ y, root.resolve? pool r.id = some y ∧ r.isMetBy y := by
  constructor
  · intro hs x hx r hr
    exact hs x hx.reaches r hr
  · intro h x hx
    have hfinds : root.Finds pool x := by
      induction hx with
      | self => exact .self
      | @step x y r _ hr hres ih =>
        obtain ⟨z, hz, hmet⟩ := h x ih r hr
        rw [hres] at hz
        rw [← Option.some.inj hz] at hmet
        exact ih.step hr hres hmet
    exact h x hfinds

/-- A sound package is consistent, since all its requirements are met. -/
theorem Sound.consistent (hs : root.Sound pool) : root.Consistent pool := by
  intro x _ x' hx' r _ r' hr' hid y hres _
  obtain ⟨z, hz, hmet⟩ := hs x' hx'.reaches r' hr'
  rw [hid, hres] at hz
  rwa [← Option.some.inj hz] at hmet

end Package

/-- A search brings in only what the package finds. -/
theorem Search.Traced.finds {seen : List (Package × Requirement)} {s : Search} (h : Traced root pool host seen s) :
    ∀ x ∈ s.dependencies, root.Finds pool x := by
  induction h with
  | start =>
    obtain ⟨l, hl⟩ := start_eq root host
    rw [hl]
    exact fun x hx => absurd hx List.not_mem_nil
  | pop rest h ih => exact ih
  | @visit seen s parent r h hp hr ih =>
    refine visit_induction (P := fun t => ∀ x ∈ t.dependencies, root.Finds pool x) fun t ht => ?_
    cases ht with
    | missing | excluded | outside | known => exact ih
    | @new found b hres hb hv hne hnew =>
      intro x hx
      rw [dependencies_discover] at hx
      rcases Keyed.mem_of_mem_insert hx with rfl | hx
      · have hparent : root.Finds pool parent := by
          rcases hp with rfl | hp
          · exact .self
          · exact ih parent hp
        exact hparent.step hr hres (Package.isMetBy_iff.mpr ⟨Package.resolve?_id hres, (contains_of_narrowed? hb hv).1⟩)
      · exact ih x hx

namespace Package

/-- The dependencies of a package are among what it finds. -/
theorem finds_of_mem_dependencies {x : Package} (hx : x = root ∨ x ∈ (root.resolution pool host).dependencies) :
    root.Finds pool x := by
  rcases hx with rfl | hx
  · exact .self
  · obtain ⟨seen, htraced, -⟩ := Search.exists_seen root pool host
    exact htraced.finds x hx

/-- Bounds contain the version of what their identifier resolves to when some requirement that is found does, for then every
requirement on it does. -/
theorem Consistent.contains_of_isMetBy (h : root.Consistent pool) {x y : Package} (hx : root.Finds pool x) {r : Requirement}
    (hr : r ∈ x.requirements) (hres : root.resolve? pool r.id = some y) (hmet : r.isMetBy y) {b : Bounds Version}
    (hb : (root.resolution pool host).boundsFor? r.id = some b) : b.contains y.version := by
  refine (contains_boundsFor?_or hb y.version).resolve_right ?_
  rintro ⟨x', hx', r', hr', hid', hout, -⟩
  have hmet' := h x hx x' (finds_of_mem_dependencies hx') r hr r' hr' hid' y hres hmet
  rw [(isMetBy_iff.mp hmet').2] at hout
  cases hout

/-- What a consistent package finds is the package itself or a dependency. -/
theorem Consistent.eq_or_mem_dependencies (h : root.Consistent pool) {x : Package} (hx : root.Finds pool x) :
    x = root ∨ x ∈ (root.resolution pool host).dependencies := by
  induction hx with
  | self => exact Or.inl rfl
  | @step x y r hx hr hres hmet ih =>
    obtain ⟨b, hb, -⟩ := exists_boundsFor?_of_mem ih hr (by rw [hres, Option.isSome_some])
    have hv : b.contains y.version := h.contains_of_isMetBy hx hr hres hmet hb
    have hid := resolve?_id hres
    rw [← hid] at hres hb
    exact mem_dependencies_of_boundsFor? hres hb hv

/-- The dependencies of a consistent package are what it finds besides itself. -/
theorem Consistent.mem_dependencies_iff (h : root.Consistent pool) {x : Package} :
    x ∈ (root.resolution pool host).dependencies ↔ root.Finds pool x ∧ x.id ≠ root.id := by
  constructor
  · intro hx
    exact ⟨finds_of_mem_dependencies (Or.inr hx), (Search.reached_run.dependencies x hx).2⟩
  · rintro ⟨hx, hne⟩
    rcases h.eq_or_mem_dependencies hx with rfl | hx
    · exact absurd rfl hne
    · exact hx

/-- For each dependency of a consistent package there are bounds in force, and they contain the versions that every requirement
on it contains. -/
theorem Consistent.exists_boundsFor? (h : root.Consistent pool) {y : Package}
    (hy : y ∈ (root.resolution pool host).dependencies) :
    ∃ b, (root.resolution pool host).boundsFor? y.id = some b ∧
      ∀ v, b.contains v ↔ ∀ x, root.Finds pool x → ∀ r ∈ x.requirements, r.id = y.id → r.bounds.contains v := by
  obtain ⟨hfound, hne⟩ := h.mem_dependencies_iff.mp hy
  cases hfound with
  | self => exact absurd rfl hne
  | @step x _ r hx hr hres hmet =>
    have hid := resolve?_id hres
    have hsome : (root.resolve? pool r.id).isSome := by rw [hres, Option.isSome_some]
    have hmem : ∀ z, root.Finds pool z → z = root ∨ z ∈ (root.resolution pool host).dependencies :=
      fun _ hz => h.eq_or_mem_dependencies hz
    obtain ⟨b, hb, -⟩ := exists_boundsFor?_of_mem (hmem x hx) hr hsome
    have hin : b.contains y.version := h.contains_of_isMetBy hx hr hres hmet hb
    refine ⟨b, by rw [hid, hb], fun v => ?_⟩
    constructor
    · intro hv x' hx' r' hr' hid'
      rw [hid] at hid'
      have hmet' := h x hx x' hx' r hr r' hr' hid' y hres hmet
      obtain ⟨b', hb', hspec⟩ := exists_boundsFor?_of_mem (hmem x' hx') hr' (by rw [hid', hsome])
      rw [hid', hb] at hb'
      obtain rfl := Option.some.inj hb'
      rcases hspec with hsub | hapart
      · exact hsub v hv
      · -- both contain the version of the dependency
        exact absurd ⟨hin, (isMetBy_iff.mp hmet').2⟩ (hapart y.version)
    · intro hall
      refine (contains_boundsFor?_or hb v).resolve_right ?_
      rintro ⟨x', hx', r', hr', hid', hout, -⟩
      rw [hall x' (finds_of_mem_dependencies hx') r' hr' (hid'.trans hid.symm)] at hout
      cases hout

end Package

end AddonPlanner
