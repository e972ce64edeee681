import AddonPlanner.Proofs.Plan.Phases

/-!
# What a plan leaves in place

The breaking packages are found among those expected after the walks, but the rescues change what is in place once more. What a
plan leaves in place is therefore made of expected packages that no rescue touches and of packages that come in late
(`mem_outcome_iff`).
-/

namespace AddonPlanner

/-! ## Outcomes -/

/-- What is in place once changes are made to the installed packages: all that comes in, and the installed packages that neither
give way to it nor are removed. -/
def Changes.outcome (c : Changes) (installed : PackageSet) : PackageSet :=
  c.brought.union (installed.filter fun p => !c.brought.contains p.id && !c.removals.contains p.id)

/-- The changes without their removals. -/
def Changes.sparing (c : Changes) : Changes :=
  { c with removals := ∅ }

theorem Changes.mem_outcome {c : Changes} {installed : PackageSet} {x : Package} :
    x ∈ c.outcome installed ↔
      x ∈ c.brought ∨ (x ∈ installed ∧ c.brought.contains x.id = false ∧ c.removals.contains x.id = false) := by
  rw [outcome, Keyed.mem_union, Keyed.mem_filter, Bool.and_eq_true, Bool.not_eq_true', Bool.not_eq_true']
  exact or_congr_right (and_iff_left_of_imp fun h => h.2.1)

theorem Changes.get?_outcome (c : Changes) (installed : PackageSet) (k : String) :
    (c.outcome installed).get? k =
      (c.brought.get? k).or (if c.brought.contains k || c.removals.contains k then none else installed.get? k) := by
  rw [outcome, Keyed.get?_union, Keyed.get?_filter]
  cases hg : installed.get? k with
  | none => rw [Option.filter_none, ite_self]
  | some x =>
    rw [Option.filter_some, Keyed.key_of_get? hg]
    cases c.brought.contains k <;> cases c.removals.contains k <;> rfl

namespace Planner

variable {pl : Planner} {goal : Goal} {selected : PackageSet}

/-- The packages expected in place after the walks, while nothing is removed. -/
def expected (pl : Planner) (goal : Goal) (selected : PackageSet) : PackageSet :=
  let walked := pl.walked goal selected
  (((pl.staying selected walked).union selected).union walked.installs).union walked.updates

/-- The packages that come in with the rescues. -/
def late (pl : Planner) (goal : Goal) (selected : PackageSet) : PackageSet :=
  (pl.rescued goal selected).brought.diff (pl.walked goal selected).brought

/-- The expected packages that the rescues leave at their version. -/
def kept (pl : Planner) (goal : Goal) (selected : PackageSet) : PackageSet :=
  (pl.expected goal selected).diff (pl.late goal selected)

/-! ## What a plan brings in -/

theorem extends_plan : ({} : Changes).Extends pl selected (pl.Draws goal selected) (pl.rescued goal selected) :=
  (extends_walked goal).trans (extends_rescued goal)

theorem mem_rescued_of_mem {x : Package} (hx : x ∈ (pl.walked goal selected).brought) : x ∈ (pl.rescued goal selected).brought :=
  extends_plan.mem_brought.mpr
    (((extends_walked goal).mem_brought.mp hx).imp ((extends_rescued goal).installs x) ((extends_rescued goal).updates x))

/-- What was asked for does not come in by itself. -/
theorem contains_rescued_of_mem {x : Package} (hx : x ∈ selected) :
    (pl.rescued goal selected).brought.contains x.id = false := by
  refine Keyed.contains_eq_false_iff.mpr fun y hy hid => ?_
  exact Keyed.contains_eq_false_iff.mp (extends_plan.of_mem_brought hy).2 x hx hid.symm

/-- What was asked for comes in beside the rest, whatever the goal, when none of the rest has its identifiers. -/
theorem get?_brought_withSelected {c : Changes} (h : ∀ x ∈ selected, c.brought.contains x.id = false) (k : String) :
    (withSelected goal selected c).brought.get? k = (selected.get? k).or (c.brought.get? k) := by
  have hk : selected.get? k = none ∨ c.installs.get? k = none ∧ c.updates.get? k = none := by
    cases hg : selected.get? k with
    | none => exact Or.inl rfl
    | some x =>
      have hx := h x (Keyed.mem_of_get? hg)
      rw [Keyed.key_of_get? hg, Changes.contains_brought, Bool.or_eq_false_iff] at hx
      exact Or.inr ⟨Keyed.get?_eq_none_iff.mpr hx.1, Keyed.get?_eq_none_iff.mpr hx.2⟩
  rw [Changes.get?_brought, Changes.get?_brought]
  cases goal with
  | install =>
    simp only [withSelected, Keyed.get?_union]
    rcases hk with hk | ⟨hi, hu⟩
    · rw [hk, Option.or_none, Option.none_or]
    · rw [hi, hu, Option.none_or, Option.none_or]
  | update =>
    simp only [withSelected, Keyed.get?_union]
    rcases hk with hk | ⟨hi, hu⟩
    · rw [hk, Option.or_none, Option.none_or]
    · simp only [hi, hu, Option.none_or, Option.or_none]

/-- A plan brings in what was asked for, and what comes in with the walks and rescues. -/
theorem get?_brought_plan (k : String) :
    (pl.plan goal selected).brought.get? k = (selected.get? k).or ((pl.rescued goal selected).brought.get? k) :=
  @get?_brought_withSelected goal selected (pl.settle (pl.rescued goal selected)) (fun _ hx => contains_rescued_of_mem hx) k

theorem mem_brought_plan {x : Package} :
    x ∈ (pl.plan goal selected).brought ↔ x ∈ selected ∨ x ∈ (pl.rescued goal selected).brought := by
  rw [Keyed.mem_iff_get?, get?_brought_plan, ← Keyed.get?_union, ← Keyed.mem_iff_get?, Keyed.mem_union]
  refine or_congr_right (and_iff_left_of_imp fun hx => ?_)
  exact (extends_plan.of_mem_brought hx).2

theorem contains_brought_plan (k : String) :
    (pl.plan goal selected).brought.contains k = (selected.contains k || (pl.rescued goal selected).brought.contains k) := by
  rw [Keyed.contains_eq, get?_brought_plan, Option.isSome_or, ← Keyed.contains_eq, ← Keyed.contains_eq]

/-! ## What is expected -/

theorem mem_expected {x : Package} :
    x ∈ pl.expected goal selected ↔
      x ∈ pl.staying selected (pl.walked goal selected) ∨ x ∈ selected ∨ x ∈ (pl.walked goal selected).brought := by
  have h := @extends_walked pl selected goal
  have hselected : ∀ y ∈ selected, (pl.staying selected (pl.walked goal selected)).contains y.id = false := by
    intro y hy
    simp [contains_staying, Keyed.contains_of_mem hy]
  have hinstalls : ∀ y ∈ (pl.walked goal selected).installs,
      ((pl.staying selected (pl.walked goal selected)).union selected).contains y.id = false := by
    intro y hy
    obtain ⟨-, hsel, habsent⟩ := (h.of_mem_installs y hy).resolve_left List.not_mem_nil
    simp [Keyed.contains_union, contains_staying, hsel, habsent]
  have hupdates : ∀ y ∈ (pl.walked goal selected).updates, (((pl.staying selected (pl.walked goal selected)).union
      selected).union (pl.walked goal selected).installs).contains y.id = false := by
    intro y hy
    obtain ⟨-, hsel, -⟩ := (h.of_mem_updates y hy).resolve_left List.not_mem_nil
    simp [Keyed.contains_union, contains_staying, hsel, h.contains_installs hy, Keyed.contains_of_mem hy]
  rw [expected, Keyed.mem_union_of_disjoint hupdates, Keyed.mem_union_of_disjoint hinstalls,
    Keyed.mem_union_of_disjoint hselected, h.mem_brought, or_assoc, or_assoc]

/-- What breaks is what stays and is broken among the expected packages. -/
theorem mem_breaking_iff {p : Package} :
    p ∈ pl.breaking selected (pl.walked goal selected) ↔
      p ∈ pl.staying selected (pl.walked goal selected) ∧ pl.isBroken (pl.expected goal selected) p :=
  Keyed.mem_filter

theorem contains_late (k : String) :
    (pl.late goal selected).contains k =
      ((pl.rescued goal selected).brought.contains k && !(pl.walked goal selected).brought.contains k) :=
  Keyed.contains_diff _ _ k

/-- An installed package that nothing comes in for is expected, and the rescues leave it at its version. -/
theorem mem_kept_of_untouched {x : Package} (hx : x ∈ pl.catalog.installed)
    (hb : (pl.plan goal selected).brought.contains x.id = false) :
    x ∈ pl.staying selected (pl.walked goal selected) ∧ x ∈ pl.kept goal selected := by
  rw [contains_brought_plan, Bool.or_eq_false_iff] at hb
  obtain ⟨hsel, hrescued⟩ := hb
  have hstaying : x ∈ pl.staying selected (pl.walked goal selected) := by
    refine mem_staying.mpr ⟨hx, hsel, ?_⟩
    rw [Bool.eq_false_iff]
    intro hc
    have := (extends_rescued goal).contains_updates hc
    rw [Changes.contains_brought, this, Bool.or_true] at hrescued
    cases hrescued
  refine ⟨hstaying, Keyed.mem_diff.mpr ⟨mem_expected.mpr (Or.inl hstaying), ?_⟩⟩
  rw [contains_late, hrescued, Bool.false_and]

/-- A package that the walks leave alone comes in with the rescues or not at all. -/
theorem brought_plan_of_staying {x : Package} (hx : x ∈ pl.staying selected (pl.walked goal selected))
    (hlate : (pl.late goal selected).contains x.id = false) : (pl.plan goal selected).brought.contains x.id = false := by
  obtain ⟨hinst, hsel, hupdates⟩ := mem_staying.mp hx
  rw [contains_brought_plan, hsel, Bool.false_or]
  rw [contains_late, Bool.and_eq_false_iff, Bool.not_eq_false'] at hlate
  refine hlate.resolve_right fun hc => ?_
  rw [Changes.contains_brought, hupdates, Bool.or_false] at hc
  obtain ⟨y, hy, hid⟩ := Keyed.exists_mem_of_contains hc
  obtain ⟨-, -, habsent⟩ := ((extends_walked goal).of_mem_installs y hy).resolve_left List.not_mem_nil
  exact Keyed.contains_eq_false_iff.mp habsent x hinst hid.symm

/-- What a plan brings in comes in late, or is expected and left alone by the rescues. -/
theorem late_or_kept_of_brought {x : Package} (hx : x ∈ (pl.plan goal selected).brought) :
    x ∈ pl.late goal selected ∨ x ∈ pl.kept goal selected := by
  rcases mem_brought_plan.mp hx with hx | hx
  · refine Or.inr (Keyed.mem_diff.mpr ⟨mem_expected.mpr (Or.inr (Or.inl hx)), ?_⟩)
    rw [contains_late, contains_rescued_of_mem hx, Bool.false_and]
  · cases hc : (pl.walked goal selected).brought.contains x.id with
    | false => exact Or.inl (Keyed.mem_diff.mpr ⟨hx, hc⟩)
    | true =>
      obtain ⟨y, hy, hid⟩ := Keyed.exists_mem_of_contains hc
      rw [Keyed.eq_of_key_eq (mem_rescued_of_mem hy) hx hid] at hy
      refine Or.inr (Keyed.mem_diff.mpr ⟨mem_expected.mpr (Or.inr (Or.inr hy)), ?_⟩)
      rw [contains_late, hc, Bool.not_true, Bool.and_false]

/-- What a plan leaves in place, whatever it removes: the packages that come in late, and the expected ones that the rescues
leave at their version and that come in or are not removed. -/
theorem mem_outcome_iff {removals : PackageSet} {x : Package} :
    x ∈ Changes.outcome { (pl.plan goal selected).toChanges with removals } pl.catalog.installed ↔
      x ∈ pl.late goal selected ∨ (x ∈ pl.kept goal selected ∧
        ((pl.plan goal selected).brought.contains x.id ∨ removals.contains x.id = false)) := by
  rw [Changes.mem_outcome]
  constructor
  · rintro (hx | ⟨hx, hb, hr⟩)
    · exact (late_or_kept_of_brought hx).imp_right fun hk => ⟨hk, Or.inl (Keyed.contains_of_mem hx)⟩
    · exact Or.inr ⟨(mem_kept_of_untouched hx hb).2, Or.inr hr⟩
  · rintro (hx | ⟨hx, h⟩)
    · exact Or.inl (mem_brought_plan.mpr (Or.inr (Keyed.mem_diff.mp hx).1))
    · obtain ⟨hexp, hlate⟩ := Keyed.mem_diff.mp hx
      rcases mem_expected.mp hexp with hx | hx | hx
      · have hb := brought_plan_of_staying hx hlate
        refine Or.inr ⟨(mem_staying.mp hx).1, hb, h.resolve_left fun hc => ?_⟩
        rw [hb] at hc
        cases hc
      · exact Or.inl (mem_brought_plan.mpr (Or.inl hx))
      · exact Or.inl (mem_brought_plan.mpr (Or.inr (mem_rescued_of_mem hx)))

end Planner

end AddonPlanner
