import AddonPlanner.Proofs.Keyed
import AddonPlanner.Resolution.Search

/-!
# What a package reaches, and when that is sound

The closure of a package in a pool holds the package and everything that a requirement of a member resolves to. A package is
sound in a pool when each requirement of the closure is met there. Soundness passes on to what is reached (`Sound.of_reaches`),
and it can be told piece by piece when the pool is made of packages that were there before and packages that came in
(`sound_iff_of_kept`). It outlasts the loss of just those packages that are not reached (`Sound.diff_iff`).
-/

namespace AddonPlanner.Package

/-- What a package needs from a pool: the package itself, and what the requirements of anything needed resolve to. -/
inductive Reaches (root : Package) (pool : PackageSet) : Package → Prop
  /-- The package itself is needed. -/
  | self : root.Reaches pool root
  /-- What a requirement of a needed package resolves to is needed. -/
  | step {x y : Package} {r : Requirement} :
    root.Reaches pool x → r ∈ x.requirements → root.resolve? pool r.id = some y → root.Reaches pool y

/-- Each requirement of everything that a package needs is met by what it resolves to. -/
def Sound (root : Package) (pool : PackageSet) : Prop :=
  ∀ x, root.Reaches pool x → ∀ r ∈ x.requirements, ∃ y, root.resolve? pool r.id = some y ∧ r.isMetBy y

theorem isMetBy_iff {r : Requirement} {p : Package} : r.isMetBy p ↔ p.id = r.id ∧ r.bounds.contains p.version := by
  rw [Requirement.isMetBy, Bool.and_eq_true, beq_iff_eq]

theorem resolve?_id {root y : Package} {pool : PackageSet} {id : String} (h : root.resolve? pool id = some y) :
    y.id = id := by
  unfold resolve? at h
  split at h
  · next heq => rw [← Option.some.inj h, heq]
  · exact Keyed.key_of_get? h

/-- Only the identifier of the package itself resolves to the package. -/
theorem resolve?_eq_some_iff {root y : Package} {pool : PackageSet} {id : String} :
    root.resolve? pool id = some y ↔ (id = root.id ∧ y = root) ∨ (id ≠ root.id ∧ y.id = id ∧ y ∈ pool) := by
  unfold resolve?
  split
  · next h => simp [h, eq_comm]
  · next h => simp [h, Keyed.get?_eq_some_iff, and_comm]

theorem resolve?_eq_none_iff {root : Package} {pool : PackageSet} {id : String} :
    root.resolve? pool id = none ↔ id ≠ root.id ∧ pool.contains id = false := by
  unfold resolve?
  by_cases hid : id = root.id
  · simp [hid]
  · simp [hid, Keyed.get?_eq_none_iff]

/-! ## Members of the pool -/

variable {root : Package} {pool kept : PackageSet}

/-- For a member of the pool, identifiers resolve to members. -/
theorem resolve?_eq_get? (h : root ∈ pool) (id : String) : root.resolve? pool id = pool.get? id := by
  unfold resolve?
  split
  · next heq => rw [heq, Keyed.mem_iff_get?.mp h]
  · rfl

theorem Reaches.mem (h : root ∈ pool) {x : Package} (hx : root.Reaches pool x) : x ∈ pool := by
  cases hx with
  | self => exact h
  | step _ _ hy =>
    rw [resolve?_eq_get? h] at hy
    exact Keyed.mem_of_get? hy

theorem Reaches.trans (h : root ∈ pool) {x y : Package} (hx : root.Reaches pool x) (hy : x.Reaches pool y) :
    root.Reaches pool y := by
  induction hy with
  | self => exact hx
  | step _ hr hres ih =>
    rw [resolve?_eq_get? (hx.mem h), ← resolve?_eq_get? h] at hres
    exact ih.step hr hres

/-- What a sound member of the pool reaches is sound. -/
theorem Sound.of_reaches (h : root ∈ pool) (hs : root.Sound pool) {x : Package} (hx : root.Reaches pool x) : x.Sound pool := by
  intro z hz r hr
  rw [resolve?_eq_get? (hx.mem h), ← resolve?_eq_get? h]
  exact hs z (hx.trans h hz) r hr

/-- A sound member of the pool finds members that meet its requirements, and they are sound. -/
theorem Sound.exists_mem (h : root ∈ pool) (hs : root.Sound pool) {r : Requirement} (hr : r ∈ root.requirements) :
    ∃ y ∈ pool, r.isMetBy y ∧ y.Sound pool := by
  obtain ⟨y, hy, hmet⟩ := hs root .self r hr
  have hreach : root.Reaches pool y := Reaches.self.step hr hy
  exact ⟨y, hreach.mem h, hmet, hs.of_reaches h hreach⟩

/-! ## Identifiers in the closure -/

/-- What is reached besides the package itself is a member of the pool. -/
theorem Reaches.mem_of_id_ne {x : Package} (hx : root.Reaches pool x) (hne : x.id ≠ root.id) : x ∈ pool := by
  cases hx with
  | self => exact absurd rfl hne
  | step _ _ hres =>
    rcases resolve?_eq_some_iff.mp hres with ⟨-, rfl⟩ | ⟨-, -, hmem⟩
    · exact absurd rfl hne
    · exact hmem

/-- Only the package itself is reached under its own identifier. -/
theorem Reaches.eq_of_id_eq {x : Package} (hx : root.Reaches pool x) (hid : x.id = root.id) : x = root := by
  cases hx with
  | self => rfl
  | step _ _ hres =>
    rcases resolve?_eq_some_iff.mp hres with ⟨-, heq⟩ | ⟨hne, hres, -⟩
    · exact heq
    · exact absurd (hres.symm.trans hid) hne

/-! ## Packages that were there before -/

/-- Whatever is reached through kept packages is reached in a pool that holds those of them that are reached. -/
theorem Reaches.of_kept (hkept : ∀ x, root.Reaches kept x → x ∈ pool) {x : Package} (hx : root.Reaches kept x) :
    root.Reaches pool x := by
  induction hx with
  | self => exact .self
  | step hx hr hy ih =>
    have hmem := hkept _ (hx.step hr hy)
    refine ih.step hr ?_
    rw [resolve?_eq_get? (hkept root .self), ← resolve?_id hy]
    exact Keyed.mem_iff_get?.mp hmem

/-- A package is sound when each requirement that is reached through kept packages is met, and what meets it without being
kept is sound itself. -/
theorem sound_iff_of_kept (hroot : root ∈ kept) (hkept : ∀ x, root.Reaches kept x → x ∈ pool) :
    root.Sound pool ↔ ∀ x, root.Reaches kept x → ∀ r ∈ x.requirements,
      ∃ y ∈ pool, r.isMetBy y ∧ (y ∉ kept → y.Sound pool) := by
  have hpool := hkept root .self
  constructor
  · intro hs x hx r hr
    have hx := hx.of_kept hkept
    obtain ⟨y, hy, hmet, hsound⟩ := (hs.of_reaches hpool hx).exists_mem (hx.mem hpool) hr
    exact ⟨y, hy, hmet, fun _ => hsound⟩
  · intro hs
    -- what is reached in the pool is reached through kept packages alone, or from a sound package that is not kept
    have hsplit : ∀ z, root.Reaches pool z → root.Reaches kept z ∨ z.Sound pool := by
      intro z hz
      induction hz with
      | self => exact Or.inl .self
      | @step x z r hx hr hres ih =>
        rcases ih with hx' | hx'
        · obtain ⟨y, hy, hmet, hsound⟩ := hs x hx' r hr
          have hyz : y = z := by
            rw [resolve?_eq_get? hpool] at hres
            exact Keyed.eq_of_key_eq hy (Keyed.mem_of_get? hres)
              ((isMetBy_iff.mp hmet).1.trans (Keyed.key_of_get? hres).symm)
          subst hyz
          by_cases hk : y ∈ kept
          · refine Or.inl (hx'.step hr ?_)
            rw [resolve?_eq_get? hroot, ← (isMetBy_iff.mp hmet).1]
            exact Keyed.mem_iff_get?.mp hk
          · exact Or.inr (hsound hk)
        · refine Or.inr (hx'.of_reaches (hx.mem hpool) (Reaches.self.step hr ?_))
          rw [resolve?_eq_get? (hx.mem hpool), ← resolve?_eq_get? hpool]
          exact hres
    intro z hz r hr
    rw [resolve?_eq_get? hpool]
    have hmet : ∃ y ∈ pool, r.isMetBy y := by
      rcases hsplit z hz with hz' | hz'
      · obtain ⟨y, hy, hmet, -⟩ := hs z hz' r hr
        exact ⟨y, hy, hmet⟩
      · obtain ⟨y, hy, hmet, -⟩ := hz'.exists_mem (hz.mem hpool) hr
        exact ⟨y, hy, hmet⟩
    obtain ⟨y, hy, hmet⟩ := hmet
    exact ⟨y, Keyed.get?_eq_some_iff.mpr ⟨hy, (isMetBy_iff.mp hmet).1⟩, hmet⟩

/-! ## Larger and smaller pools -/

theorem resolve?_of_subset {larger : PackageSet} (hsub : ∀ x ∈ pool, x ∈ larger) {id : String} {y : Package}
    (h : root.resolve? pool id = some y) : root.resolve? larger id = some y := by
  rcases resolve?_eq_some_iff.mp h with hself | ⟨hne, hid, hmem⟩
  · exact resolve?_eq_some_iff.mpr (Or.inl hself)
  · exact resolve?_eq_some_iff.mpr (Or.inr ⟨hne, hid, hsub y hmem⟩)

/-- A package that is sound in a pool reaches nothing more in a larger one. -/
theorem Sound.reaches_of_subset {larger : PackageSet} (hs : root.Sound pool) (hsub : ∀ x ∈ pool, x ∈ larger) {x : Package}
    (hx : root.Reaches larger x) : root.Reaches pool x := by
  induction hx with
  | self => exact .self
  | @step x y r _ hr hres ih =>
    obtain ⟨z, hz, -⟩ := hs x ih r hr
    have hzy : some z = some y := (resolve?_of_subset hsub hz).symm.trans hres
    rw [Option.some.inj hzy] at hz
    exact ih.step hr hz

/-- A sound member of a pool is sound in every pool that holds what it reaches. -/
theorem Sound.of_reached_mem {other : PackageSet} (h : root ∈ pool) (hs : root.Sound pool)
    (hreached : ∀ x, root.Reaches pool x → x ∈ other) : root.Sound other := by
  rw [sound_iff_of_kept h hreached]
  intro x hx r hr
  obtain ⟨y, hy, hmet⟩ := hs x hx r hr
  have hreach := hx.step hr hy
  exact ⟨y, hreached y hreach, hmet, fun hne => absurd (hreach.mem h) hne⟩

/-- A sound member of a pool survives the loss of others exactly when it reaches none of them. -/
theorem Sound.diff_iff {lost : PackageSet} (h : root ∈ pool) (hs : root.Sound pool) (hroot : lost.contains root.id = false) :
    root.Sound (pool.diff lost) ↔ ∀ x, root.Reaches pool x → lost.contains x.id = false := by
  constructor
  · intro hleft x hx
    have hx : root.Reaches (pool.diff lost) x := hleft.reaches_of_subset (fun y hy => (Keyed.mem_diff.mp hy).1) hx
    exact (Keyed.mem_diff.mp (hx.mem (Keyed.mem_diff.mpr ⟨h, hroot⟩))).2
  · intro hlost
    exact hs.of_reached_mem h fun x hx => Keyed.mem_diff.mpr ⟨hx.mem h, hlost x hx⟩

end AddonPlanner.Package
