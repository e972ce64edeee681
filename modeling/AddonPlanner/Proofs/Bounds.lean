import AddonPlanner.Bounds

/-!
# Intersecting bounds

A version lies in the intersection of two ranges exactly when it lies in both, whatever the total order of the versions
(`any_contains_join`).
-/

namespace AddonPlanner.Bounds

open Std

variable {α : Type} [Ord α] [TransOrd α]

omit [TransOrd α] in
theorem contains_atMost (greatest v : α) : (atMost greatest).contains v = (compare v greatest).isLE := rfl

omit [TransOrd α] in
theorem contains_between (least greatest v : α) :
    (between least greatest).contains v = ((compare least v).isLE && (compare v greatest).isLE) := rfl

/-- Equal versions lie in the same ranges. -/
theorem contains_congr {v w : α} (h : compare v w = .eq) (b : Bounds α) : b.contains v = b.contains w := by
  cases b with
  | any => rfl
  | exactly wanted => simp only [contains, TransCmp.congr_left h]
  | atLeast least => simp only [contains, TransCmp.congr_left h]
  | atMost greatest => simp only [contains, TransCmp.congr_left h]
  | between least greatest => simp only [contains, TransCmp.congr_left h, TransCmp.congr_right h]

/-! ## Limits -/

theorem isLE_of_isGT {v w : α} (h : (compare v w).isGT) : (compare w v).isLE := by
  rw [OrientedCmp.isGT_eq_isLT] at h
  cases hc : compare w v with
  | lt | eq => rfl
  | gt => rw [hc] at h; exact absurd h (by decide)

omit [TransOrd α] in
theorem isLE_of_not_isGT {v w : α} (h : ¬ (compare v w).isGT) : (compare v w).isLE := by
  cases hc : compare v w with
  | lt | eq => rfl
  | gt => rw [hc] at h; exact absurd rfl h

/-- What is not before the later of two versions is before neither. -/
theorem isLE_later (a b v : α) : (compare (later a b) v).isLE = ((compare a v).isLE && (compare b v).isLE) := by
  rw [Bool.eq_iff_iff, Bool.and_eq_true]
  unfold later
  split
  · next h => exact ⟨fun ha => ⟨ha, TransCmp.isLE_trans (isLE_of_isGT h) ha⟩, And.left⟩
  · next h => exact ⟨fun hb => ⟨TransCmp.isLE_trans (isLE_of_not_isGT h) hb, hb⟩, And.right⟩

/-- What is not after the earlier of two versions is after neither. -/
theorem isLE_earlier (a b v : α) : (compare v (earlier a b)).isLE = ((compare v a).isLE && (compare v b).isLE) := by
  rw [Bool.eq_iff_iff, Bool.and_eq_true]
  unfold earlier
  split
  · next h => exact ⟨fun hb => ⟨TransCmp.isLE_trans hb (isLE_of_isGT h), hb⟩, And.right⟩
  · next h => exact ⟨fun ha => ⟨ha, TransCmp.isLE_trans ha (isLE_of_not_isGT h)⟩, And.left⟩

/-- Between two limits lies what is not before the first and not after the second. -/
theorem any_contains_span (least greatest v : α) :
    (span least greatest).any (·.contains v) = ((compare least v).isLE && (compare v greatest).isLE) := by
  rw [Bool.eq_iff_iff, Bool.and_eq_true]
  unfold span
  split
  · next h => simp only [Option.any_some, contains, Bool.and_eq_true]
  · next h =>
    simp only [Option.any_some, contains, Ordering.isEq_iff_eq_eq]
    constructor
    · intro hv
      exact ⟨by rw [OrientedCmp.eq_symm hv]; rfl, by rw [← TransCmp.congr_right h, hv]; rfl⟩
    · rintro ⟨hl, hg⟩
      rw [← TransCmp.congr_right h] at hg
      exact OrientedCmp.isLE_antisymm hg hl
  · next h =>
    simp only [Option.any_none, Bool.false_eq_true, false_iff]
    rintro ⟨hl, hg⟩
    have hle := TransCmp.isLE_trans hl hg
    rw [h] at hle
    exact absurd hle (by decide)

/-! ## Intersections -/

theorem contains_atLeast (least v : α) : (atLeast least).contains v = (compare least v).isLE :=
  OrientedCmp.isGE_eq_isLE

/-- An exact version is in its intersection with a range, or there is none. -/
theorem any_contains_exactly (b : Bounds α) (wanted v : α) :
    (if b.contains wanted then some (exactly wanted) else none).any (·.contains v) =
      ((exactly wanted).contains v && b.contains v) := by
  cases h : compare v wanted with
  | eq =>
    rw [contains_congr h b]
    cases hw : b.contains wanted <;> simp [contains, h]
  | lt | gt =>
    cases hw : b.contains wanted <;> simp [contains, h]

omit [TransOrd α] in
theorem exactly_join (b : Bounds α) (wanted : α) :
    (exactly wanted).join b = if b.contains wanted then some (exactly wanted) else none := by
  cases b <;> rfl

/-- A version lies in the intersection of two ranges exactly when it lies in both; no version lies in two ranges that have no
intersection. -/
theorem any_contains_join (a b : Bounds α) (v : α) : (a.join b).any (·.contains v) = (a.contains v && b.contains v) := by
  cases a with
  | any => cases b <;> rfl
  | exactly wanted => rw [exactly_join, any_contains_exactly]
  | atLeast least =>
    cases b with
    | any => exact (Bool.and_true _).symm
    | exactly wanted => rw [Bool.and_comm, ← any_contains_exactly]; rfl
    | atLeast least' => simp only [join, Option.any_some, contains_atLeast, isLE_later]
    | atMost greatest => simp only [join, any_contains_span, contains_atLeast, contains_atMost]
    | between least' greatest =>
      simp only [join, any_contains_span, contains_atLeast, contains_between, isLE_later, Bool.and_assoc]
  | atMost greatest =>
    cases b with
    | any => exact (Bool.and_true _).symm
    | exactly wanted => rw [Bool.and_comm, ← any_contains_exactly]; rfl
    | atLeast least => simp only [join, any_contains_span, contains_atLeast, contains_atMost, Bool.and_comm]
    | atMost greatest' => simp only [join, Option.any_some, contains_atMost, isLE_earlier]
    | between least greatest' =>
      simp only [join, any_contains_span, contains_atMost, contains_between, isLE_earlier, Bool.and_left_comm]
  | between least greatest =>
    cases b with
    | any => exact (Bool.and_true _).symm
    | exactly wanted => rw [Bool.and_comm, ← any_contains_exactly]; rfl
    | atLeast least' =>
      simp only [join, any_contains_span, contains_atLeast, contains_between, isLE_later]
      ac_rfl
    | atMost greatest' =>
      simp only [join, any_contains_span, contains_atMost, contains_between, isLE_earlier]
      ac_rfl
    | between least' greatest' =>
      simp only [join, any_contains_span, contains_between, isLE_later, isLE_earlier]
      ac_rfl

/-- The intersection of two ranges that share a version holds just the versions they share. -/
theorem exists_join {a b : Bounds α} {v : α} (ha : a.contains v) (hb : b.contains v) :
    ∃ c, a.join b = some c ∧ c.contains v := by
  have h := any_contains_join a b v
  rw [ha, hb] at h
  exact Option.any_eq_true _ _ |>.mp h

/-- Where there is an intersection, it contains just the versions that both ranges contain. -/
theorem contains_join_iff {a b c : Bounds α} (h : a.join b = some c) (v : α) :
    c.contains v ↔ a.contains v ∧ b.contains v := by
  have hc := any_contains_join a b v
  rw [h, Option.any_some] at hc
  rw [hc, Bool.and_eq_true]

/-- Ranges without an intersection share no version. -/
theorem not_contains_of_join_eq_none {a b : Bounds α} (h : a.join b = none) (v : α) : ¬ (a.contains v ∧ b.contains v) := by
  intro hv
  obtain ⟨c, hc, -⟩ := exists_join hv.1 hv.2
  rw [h] at hc
  cases hc

end AddonPlanner.Bounds
