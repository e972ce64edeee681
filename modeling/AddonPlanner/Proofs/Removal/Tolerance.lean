import AddonPlanner.Proofs.Removal.Dependents

/-!
# What a removal takes that was broken all along

A package that was broken before is tolerated unless it requires something doomed. The doomed packages hold all that is broken
among the remaining ones, though, whatever was asked for: a package that was broken before is taken as soon as it requires
another one that was (`broken_client_is_taken`). So everything that is forced out rests on what was asked for exactly when the
packages that were broken before and require one another do (`forced_restsOn_iff`).
-/

namespace AddonPlanner

namespace Package

variable {pool targets : PackageSet} {p x : Package}

/-- Whether the declared requirements lead from a package, through members of a pool, to a target; the versions that they ask for
do not count. -/
def RestsOn (p : Package) (pool targets : PackageSet) : Prop :=
  ∃ x, p.Reaches pool x ∧ x.requiresAny targets

theorem requiresAny_iff : p.requiresAny targets ↔ ∃ r ∈ p.requirements, targets.contains r.id :=
  List.any_eq_true

theorem RestsOn.of_reaches (hp : p ∈ pool) (hx : p.Reaches pool x) (h : x.RestsOn pool targets) : p.RestsOn pool targets := by
  obtain ⟨y, hy, hreq⟩ := h
  exact ⟨y, hx.trans hp hy, hreq⟩

/-- Nothing rests on nothing. -/
theorem not_restsOn_empty : ¬ p.RestsOn pool ∅ := by
  rintro ⟨x, -, hreq⟩
  obtain ⟨r, -, hc⟩ := requiresAny_iff.mp hreq
  cases hc

/-- A package that does not rest on the targets reaches none of them. -/
theorem mem_diff_of_not_restsOn (hp : p ∈ pool.diff targets) (hnot : ¬ p.RestsOn pool targets) (hx : p.Reaches pool x) :
    x ∈ pool.diff targets := by
  have hpool := (Keyed.mem_diff.mp hp).1
  cases hx with
  | self => exact hp
  | @step y _ r hy hr hres =>
    refine Keyed.mem_diff.mpr ⟨(hy.step hr hres).mem hpool, ?_⟩
    rw [resolve?_id hres, Bool.eq_false_iff]
    exact fun hc => hnot ⟨y, hy, requiresAny_iff.mpr ⟨r, hr, hc⟩⟩

/-- The loss of the targets makes no difference to a package that does not rest on them. -/
theorem sound_diff_iff_of_not_restsOn (hp : p ∈ pool.diff targets) (hnot : ¬ p.RestsOn pool targets) :
    p.Sound (pool.diff targets) ↔ p.Sound pool := by
  constructor
  · intro hs
    exact hs.of_reached_mem hp fun x hx => (Keyed.mem_diff.mp (hx.mem hp)).1
  · intro hs
    exact hs.of_reached_mem (Keyed.mem_diff.mp hp).1 fun x hx => mem_diff_of_not_restsOn hp hnot hx

end Package

namespace Planner

variable {pl : Planner} {selected : PackageSet} {p : Package}

/-- The installed packages that are broken as they stand and whose removal has not failed. -/
def removableBroken (pl : Planner) : PackageSet :=
  pl.broken.filter (·.status != .removalFailed)

theorem mem_removableBroken :
    p ∈ pl.removableBroken ↔
      p ∈ pl.catalog.installed ∧ pl.isBroken pl.catalog.installed p ∧ p.status ≠ .removalFailed := by
  rw [removableBroken, Keyed.mem_filter, mem_broken, and_assoc, bne_iff_ne]

/-- What does not rest on the selection is doomed when it was broken before. -/
theorem mem_doomed_iff_of_not_restsOn (hp : p ∈ pl.catalog.installed.diff selected)
    (hnot : ¬ p.RestsOn pl.catalog.installed selected) : p ∈ pl.doomed selected ↔ p ∈ pl.removableBroken := by
  have hinst := (Keyed.mem_diff.mp hp).1
  rw [mem_doomed_iff, mem_removableBroken, Catalog.statusOf_installed hinst, isBroken_iff, isBroken_iff,
    Package.sound_diff_iff_of_not_restsOn hp hnot]
  exact ⟨fun h => ⟨hinst, h.2⟩, fun h => ⟨hp, h.2⟩⟩

/-- What does not rest on the selection requires a doomed package when it requires one that was broken before. -/
theorem requiresAny_doomed_iff_of_not_restsOn (hp : p ∈ pl.catalog.installed.diff selected)
    (hnot : ¬ p.RestsOn pl.catalog.installed selected) :
    p.requiresAny (pl.doomed selected) ↔ p.requiresAny pl.removableBroken := by
  have hpool := (Keyed.mem_diff.mp hp).1
  -- a required package does not rest on the selection either
  have hrequired : ∀ r ∈ p.requirements, ∀ q ∈ pl.catalog.installed, q.id = r.id →
      (q ∈ pl.doomed selected ↔ q ∈ pl.removableBroken) := by
    intro r hr q hq hid
    have hreach : p.Reaches pl.catalog.installed q := by
      refine Package.Reaches.self.step hr ?_
      rw [Package.resolve?_eq_get? hpool]
      exact Keyed.get?_eq_some_iff.mpr ⟨hq, hid⟩
    exact mem_doomed_iff_of_not_restsOn (Package.mem_diff_of_not_restsOn hp hnot hreach)
      fun hrests => hnot (hrests.of_reaches hpool hreach)
  rw [Package.requiresAny_iff, Package.requiresAny_iff]
  constructor
  · rintro ⟨r, hr, hc⟩
    obtain ⟨q, hq, hid⟩ := Keyed.exists_mem_of_contains hc
    have hinst := (Keyed.mem_diff.mp (mem_doomed_iff.mp hq).1).1
    have hq := (hrequired r hr q hinst hid).mp hq
    exact ⟨r, hr, hid ▸ Keyed.contains_of_mem hq⟩
  · rintro ⟨r, hr, hc⟩
    obtain ⟨q, hq, hid⟩ := Keyed.exists_mem_of_contains hc
    have hq := (hrequired r hr q (mem_removableBroken.mp hq).1 hid).mpr hq
    exact ⟨r, hr, hid ▸ Keyed.contains_of_mem hq⟩

/-- A package that does not rest on the selection is forced out exactly when it was broken before and requires a package that
was. -/
theorem mem_forced_iff_of_not_restsOn (hp : p ∈ pl.catalog.installed.diff selected)
    (hnot : ¬ p.RestsOn pl.catalog.installed selected) :
    p ∈ (pl.removal selected).forced ↔ p ∈ pl.removableBroken ∧ p.requiresAny pl.removableBroken := by
  rw [mem_forced_iff, mem_doomed_iff_of_not_restsOn hp hnot]
  refine and_congr_right fun hbroken => ?_
  rw [isTolerated, (mem_removableBroken.mp hbroken).2.1, Bool.true_and, Bool.not_eq_false',
    requiresAny_doomed_iff_of_not_restsOn hp hnot]

/-- What is forced out is installed and was not asked for. -/
theorem mem_diff_of_mem_forced (hp : p ∈ (pl.removal selected).forced) : p ∈ pl.catalog.installed.diff selected :=
  (mem_doomed_iff.mp (mem_forced_iff.mp hp).1).1

/-- All that is forced out rests on the selection exactly when what was broken before and requires something that was does. -/
theorem forall_forced_restsOn_iff :
    (∀ p ∈ (pl.removal selected).forced, p.RestsOn pl.catalog.installed selected) ↔
      ∀ p ∈ pl.removableBroken, selected.contains p.id = false → p.requiresAny pl.removableBroken →
        p.RestsOn pl.catalog.installed selected := by
  constructor
  · intro h p hp hsel hreq
    refine Classical.byContradiction fun hnot => hnot (h p ?_)
    have hleft : p ∈ pl.catalog.installed.diff selected := Keyed.mem_diff.mpr ⟨(mem_removableBroken.mp hp).1, hsel⟩
    exact (mem_forced_iff_of_not_restsOn hleft hnot).mpr ⟨hp, hreq⟩
  · intro h p hp
    have hleft := mem_diff_of_mem_forced hp
    refine Classical.byContradiction fun hnot => hnot ?_
    obtain ⟨hbroken, hreq⟩ := (mem_forced_iff_of_not_restsOn hleft hnot).mp hp
    exact h p hbroken (Keyed.mem_diff.mp hleft).2 hreq

/-- When nothing is asked for, nothing goes exactly when nothing that was broken before requires anything that was. -/
theorem removals_nothing_iff :
    (pl.removal ∅).removals = ∅ ↔ ∀ p ∈ pl.removableBroken, p.requiresAny pl.removableBroken = false := by
  have hforced : (pl.removal ∅).removals = (pl.removal ∅).forced := (Keyed.diff_empty _).symm
  rw [hforced]
  -- nothing rests on nothing, so both sides of the equivalence say that there is no such package
  have hrests : (∀ p ∈ (pl.removal ∅).forced, p.RestsOn pl.catalog.installed ∅) ↔ _ := forall_forced_restsOn_iff
  constructor
  · intro hnone p hp
    refine Bool.eq_false_iff.mpr fun hreq => Package.not_restsOn_empty (hrests.mp (fun q hq => ?_) p hp rfl hreq)
    rw [hnone] at hq
    cases hq
  · intro h
    refine Keyed.eq_empty_of_forall_not_mem fun p hp => Package.not_restsOn_empty (hrests.mpr (fun q hq _ hreq => ?_) p hp)
    rw [h q hq] at hreq
    cases hreq

/-- All that is forced out rests on what was asked for exactly when each package that was broken before, was not asked for and
requires a package that was broken before does. In particular nothing goes when nothing is asked for exactly when no package that
was broken before requires another one, or itself. -/
theorem forced_restsOn_iff (pl : Planner) :
    (∀ selected, (∀ p ∈ (pl.removal selected).forced, p.RestsOn pl.catalog.installed selected) ↔
      ∀ p ∈ pl.removableBroken, selected.contains p.id = false → p.requiresAny pl.removableBroken →
        p.RestsOn pl.catalog.installed selected) ∧
    ((pl.removal ∅).removals = ∅ ↔ ∀ p ∈ pl.removableBroken, p.requiresAny pl.removableBroken = false) :=
  ⟨fun _ => forall_forced_restsOn_iff, removals_nothing_iff⟩

/-- A client that needs a driver. -/
def client : Package := ⟨"client", .one, none, [⟨"driver", .any⟩], .installed⟩

/-- A host on which the driver of the client lacks its firmware. -/
def terminal : Planner where
  catalog :=
    { installed := .ofList [client, ⟨"driver", .one, none, [⟨"firmware", .any⟩], .installed⟩]
      available := ∅ }
  host := .eleven

/-- Nothing is asked for, and yet the client is taken: it was broken before, as the driver it requires was. -/
theorem broken_client_is_taken :
    (terminal.removal ∅).removals.keys = ["client"] ∧
      client ∈ (terminal.removal ∅).forced ∧ ¬ client.RestsOn terminal.catalog.installed ∅ := by
  have hinst : client ∈ terminal.catalog.installed := Keyed.mem_ofList rfl
  have hleft : client ∈ terminal.catalog.installed.diff ∅ := by rwa [Keyed.diff_empty]
  have hbroken : client ∈ terminal.removableBroken :=
    mem_removableBroken.mpr ⟨hinst, by decide +kernel, by decide⟩
  refine ⟨by decide +kernel, ?_, Package.not_restsOn_empty⟩
  exact (mem_forced_iff_of_not_restsOn hleft Package.not_restsOn_empty).mpr ⟨hbroken, by decide +kernel⟩

end Planner

end AddonPlanner
