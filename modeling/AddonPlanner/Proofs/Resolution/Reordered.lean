import AddonPlanner.Proofs.Resolution.Consistent

/-!
# Requirements declared in another order

Packages that differ in the order of their requirements alone (`Package.Reordered`), and sets of such packages. What a package
finds in a pool, whether it is sound there and whether it is consistent do not depend on that order. So neither do the
dependencies of a consistent package (`Consistent.exists_dependency`) nor what the bounds in force for them contain
(`Consistent.exists_boundsFor?_reordered`).
-/

namespace AddonPlanner

/-- The same package, its requirements declared in another order. -/
structure Package.Reordered (p q : Package) : Prop where
  id : p.id = q.id
  version : p.version = q.version
  minHost? : p.minHost? = q.minHost?
  status : p.status = q.status
  requirements : p.requirements.Perm q.requirements

/-- Sets of the same packages, their requirements declared in other orders. -/
def PackageSet.Reordered (s t : PackageSet) : Prop :=
  (∀ x ∈ s, ∃ y ∈ t, x.Reordered y) ∧ ∀ y ∈ t, ∃ x ∈ s, y.Reordered x

theorem Package.Reordered.refl (p : Package) : p.Reordered p :=
  ⟨rfl, rfl, rfl, rfl, .refl _⟩

theorem Package.Reordered.symm {p q : Package} (h : p.Reordered q) : q.Reordered p :=
  ⟨h.id.symm, h.version.symm, h.minHost?.symm, h.status.symm, h.requirements.symm⟩

theorem Package.Reordered.isMetBy {p q : Package} (h : p.Reordered q) (r : Requirement) : r.isMetBy p = r.isMetBy q := by
  rw [Requirement.isMetBy, Requirement.isMetBy, h.id, h.version]

namespace PackageSet

variable {s t : PackageSet}

theorem Reordered.refl (s : PackageSet) : s.Reordered s :=
  ⟨fun x hx => ⟨x, hx, .refl x⟩, fun x hx => ⟨x, hx, .refl x⟩⟩

theorem Reordered.symm (h : s.Reordered t) : t.Reordered s :=
  ⟨h.2, h.1⟩

theorem Reordered.exists_get? (h : s.Reordered t) {k : String} {x : Package} (hx : s.get? k = some x) :
    ∃ y, t.get? k = some y ∧ x.Reordered y := by
  obtain ⟨hmem, rfl⟩ := Keyed.get?_eq_some_iff.mp hx
  obtain ⟨y, hy, hxy⟩ := h.1 x hmem
  exact ⟨y, Keyed.get?_eq_some_iff.mpr ⟨hy, hxy.id.symm⟩, hxy⟩

theorem Reordered.contains_eq (h : s.Reordered t) (k : String) : s.contains k = t.contains k := by
  rw [Keyed.contains_eq, Keyed.contains_eq, Bool.eq_iff_iff, Option.isSome_iff_exists, Option.isSome_iff_exists]
  constructor
  · rintro ⟨x, hx⟩
    obtain ⟨y, hy, -⟩ := h.exists_get? hx
    exact ⟨y, hy⟩
  · rintro ⟨y, hy⟩
    obtain ⟨x, hx, -⟩ := h.symm.exists_get? hy
    exact ⟨x, hx⟩

theorem Reordered.get?_eq_none (h : s.Reordered t) {k : String} (hk : s.get? k = none) : t.get? k = none := by
  rw [Keyed.get?_eq_none_iff] at hk ⊢
  rw [← h.contains_eq, hk]

theorem Reordered.exists_mem_insert (h : s.Reordered t) {p q x : Package} (hpq : p.Reordered q) (hx : x ∈ s.insert p) :
    ∃ y ∈ t.insert q, x.Reordered y := by
  have hold : x ∈ s → ∃ y ∈ t.insert q, x.Reordered y := by
    intro hx
    obtain ⟨y, hy, hxy⟩ := h.1 x hx
    exact ⟨y, Keyed.mem_insert_of_mem hy, hxy⟩
  cases hc : s.contains p.id with
  | false =>
    rcases Keyed.mem_of_mem_insert hx with rfl | hx
    · refine ⟨q, (Keyed.mem_insert_of_new ?_).mpr (Or.inl rfl), hpq⟩
      rw [← hpq.id, ← h.contains_eq, hc]
    · exact hold hx
  | true =>
    -- the member that is there already stays, so the insertion changes nothing
    obtain ⟨z, hz⟩ := Option.isSome_iff_exists.mp ((Keyed.contains_eq s p.id).symm.trans hc)
    rw [Keyed.mem_iff_get?, Keyed.get?_insert] at hx
    by_cases hid : p.id = x.id
    · rw [← hid, hz, Option.some_or] at hx
      exact hold (Option.some.inj hx ▸ Keyed.mem_of_get? hz)
    · rw [if_neg hid, Option.or_none] at hx
      exact hold (Keyed.mem_of_get? hx)

theorem Reordered.insert (h : s.Reordered t) {p q : Package} (hpq : p.Reordered q) :
    PackageSet.Reordered (s.insert p) (t.insert q) :=
  ⟨fun _ hx => h.exists_mem_insert hpq hx, fun _ hx => h.symm.exists_mem_insert hpq.symm hx⟩

end PackageSet

namespace Package

variable {root root' : Package} {pool pool' : PackageSet} {host : HostVersion}

/-! ## What is found -/

theorem Reordered.exists_resolve? (hroot : root.Reordered root') (hpool : pool.Reordered pool') {id : String} {x : Package}
    (hx : root.resolve? pool id = some x) : ∃ x', root'.resolve? pool' id = some x' ∧ x.Reordered x' := by
  unfold resolve? at hx ⊢
  rw [← hroot.id]
  split at hx
  · next hid =>
    obtain rfl := Option.some.inj hx
    exact ⟨root', if_pos hid, hroot⟩
  · next hid =>
    rw [if_neg hid]
    exact hpool.exists_get? hx

/-- Whatever is found is found in any order of the requirements. -/
theorem Finds.exists_reordered (hroot : root.Reordered root') (hpool : pool.Reordered pool') {x : Package}
    (hx : root.Finds pool x) : ∃ x', root'.Finds pool' x' ∧ x.Reordered x' := by
  induction hx with
  | self => exact ⟨root', .self, hroot⟩
  | @step x y r _ hr hres hmet ih =>
    obtain ⟨x', hx', hxx'⟩ := ih
    obtain ⟨y', hy', hyy'⟩ := hroot.exists_resolve? hpool hres
    rw [hyy'.isMetBy] at hmet
    exact ⟨y', hx'.step (hxx'.requirements.mem_iff.mp hr) hy' hmet, hyy'⟩

/-- Each requirement of something found is declared by something found in any other order. -/
theorem Reordered.exists_finds_of_mem (hroot : root.Reordered root') (hpool : pool.Reordered pool') {x : Package}
    (hx : root.Finds pool x) {r : Requirement} (hr : r ∈ x.requirements) : ∃ x', root'.Finds pool' x' ∧ r ∈ x'.requirements := by
  obtain ⟨x', hx', hxx'⟩ := hx.exists_reordered hroot hpool
  exact ⟨x', hx', hxx'.requirements.mem_iff.mp hr⟩

theorem Sound.of_reordered (hroot : root.Reordered root') (hpool : pool.Reordered pool') (hs : root.Sound pool) :
    root'.Sound pool' := by
  rw [sound_iff_of_finds] at hs ⊢
  intro x' hx' r hr
  obtain ⟨x, hx, hr⟩ := hroot.symm.exists_finds_of_mem hpool.symm hx' hr
  obtain ⟨y, hy, hmet⟩ := hs x hx r hr
  obtain ⟨y', hy', hyy'⟩ := hroot.exists_resolve? hpool hy
  rw [hyy'.isMetBy] at hmet
  exact ⟨y', hy', hmet⟩

theorem Consistent.of_reordered (hroot : root.Reordered root') (hpool : pool.Reordered pool') (h : root.Consistent pool) :
    root'.Consistent pool' := by
  intro x₁' hx₁' x₂' hx₂' r₁ hr₁ r₂ hr₂ hid y' hres' hmet
  obtain ⟨x₁, hx₁, hr₁⟩ := hroot.symm.exists_finds_of_mem hpool.symm hx₁' hr₁
  obtain ⟨x₂, hx₂, hr₂⟩ := hroot.symm.exists_finds_of_mem hpool.symm hx₂' hr₂
  obtain ⟨y, hres, hyy'⟩ := hroot.symm.exists_resolve? hpool.symm hres'
  rw [hyy'.isMetBy] at hmet ⊢
  exact h x₁ hx₁ x₂ hx₂ r₁ hr₁ r₂ hr₂ hid y hres hmet

/-! ## What a resolution says -/

/-- A consistent package has the same dependencies in any order of the requirements. -/
theorem Consistent.exists_dependency (h : root.Consistent pool) (hroot : root.Reordered root') (hpool : pool.Reordered pool')
    {x : Package} (hx : x ∈ (root.resolution pool host).dependencies) :
    ∃ x' ∈ (root'.resolution pool' host).dependencies, x.Reordered x' := by
  obtain ⟨hfound, hne⟩ := h.mem_dependencies_iff.mp hx
  obtain ⟨x', hx', hxx'⟩ := hfound.exists_reordered hroot hpool
  refine ⟨x', (h.of_reordered hroot hpool).mem_dependencies_iff.mpr ⟨hx', ?_⟩, hxx'⟩
  rwa [← hxx'.id, ← hroot.id]

/-- The bounds in force for a dependency of a consistent package contain the same versions in any order of the requirements. -/
theorem Consistent.exists_boundsFor?_reordered (h : root.Consistent pool) (hroot : root.Reordered root')
    (hpool : pool.Reordered pool') {x x' : Package} (hx : x ∈ (root.resolution pool host).dependencies)
    (hx' : x' ∈ (root'.resolution pool' host).dependencies) (hid : x.id = x'.id) {b : Bounds Version}
    (hb : (root.resolution pool host).boundsFor? x.id = some b) :
    ∃ b', (root'.resolution pool' host).boundsFor? x'.id = some b' ∧ ∀ v, b'.contains v = b.contains v := by
  obtain ⟨b₀, hb₀, hspec⟩ := h.exists_boundsFor? hx
  obtain rfl := Option.some.inj (hb₀.symm.trans hb)
  obtain ⟨b', hb', hspec'⟩ := (h.of_reordered hroot hpool).exists_boundsFor? hx'
  refine ⟨b', hb', fun v => ?_⟩
  rw [Bool.eq_iff_iff, hspec, hspec', hid]
  constructor
  · intro hall y hy r hr
    obtain ⟨y', hy', hr⟩ := hroot.exists_finds_of_mem hpool hy hr
    exact hall y' hy' r hr
  · intro hall y' hy' r hr
    obtain ⟨y, hy, hr⟩ := hroot.symm.exists_finds_of_mem hpool.symm hy' hr
    exact hall y hy r hr

end Package

end AddonPlanner
