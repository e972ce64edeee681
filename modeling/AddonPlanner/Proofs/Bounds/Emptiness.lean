import AddonPlanner.Proofs.Bounds
import AddonPlanner.Proofs.Version.Tokens

/-!
# When an intersection is empty

A range whose limits are in order contains some version, and nothing else can make it empty (`exists_contains_iff_isOrdered`).
Intersecting two such ranges keeps the limits in order, so there is an intersection exactly when some version lies in both
(`join_is_intersection`). Limits in the wrong order are not refused: such a range contains nothing, and yet it is the
intersection of itself with `any`.
-/

namespace AddonPlanner.Bounds

open Std

variable {α : Type} [Ord α]

/-- Whether the limits of a range that has both are in order. -/
def isOrdered : Bounds α → Bool
  | between least greatest => (compare least greatest).isLE
  | _ => true

/-- The range between two limits has them in order, or there is none. -/
theorem isOrdered_of_span {least greatest : α} {c : Bounds α} (h : span least greatest = some c) : c.isOrdered := by
  unfold span at h
  split at h
  · next hlt =>
    obtain rfl := Option.some.inj h
    simp [isOrdered, hlt]
  · obtain rfl := Option.some.inj h
    rfl
  · cases h

theorem isOrdered_of_exactly {p : Prop} [Decidable p] {wanted : α} {c : Bounds α}
    (h : (if p then some (exactly wanted) else none) = some c) : c.isOrdered := by
  split at h
  · obtain rfl := Option.some.inj h
    rfl
  · cases h

/-- Only `any` lets limits in the wrong order through: every other intersection compares the limits anew. -/
theorem isOrdered_of_join {a b c : Bounds α} (ha : a.isOrdered) (hb : b.isOrdered) (h : a.join b = some c) : c.isOrdered := by
  cases a with
  | any => exact Option.some.inj h ▸ hb
  | exactly v =>
    rw [exactly_join] at h
    exact isOrdered_of_exactly h
  | atLeast v =>
    cases b with
    | any => exact Option.some.inj h ▸ ha
    | exactly w => exact isOrdered_of_exactly h
    | atLeast w => exact Option.some.inj h ▸ rfl
    | atMost w => exact isOrdered_of_span h
    | between w x => exact isOrdered_of_span h
  | atMost v =>
    cases b with
    | any => exact Option.some.inj h ▸ ha
    | exactly w => exact isOrdered_of_exactly h
    | atLeast w => exact isOrdered_of_span h
    | atMost w => exact Option.some.inj h ▸ rfl
    | between w x => exact isOrdered_of_span h
  | between v w =>
    cases b with
    | any => exact Option.some.inj h ▸ ha
    | exactly x => exact isOrdered_of_exactly h
    | atLeast x => exact isOrdered_of_span h
    | atMost x => exact isOrdered_of_span h
    | between x y => exact isOrdered_of_span h

variable [TransOrd α]

/-- A range contains some version exactly when its limits are in order. -/
theorem exists_contains_iff_isOrdered [Nonempty α] (b : Bounds α) : (∃ v, b.contains v) ↔ b.isOrdered := by
  cases b with
  | any => simp [contains, isOrdered]
  | exactly v => exact iff_of_true ⟨v, by simp [contains]⟩ rfl
  | atLeast v => exact iff_of_true ⟨v, by simp [contains]⟩ rfl
  | atMost v => exact iff_of_true ⟨v, by simp [contains]⟩ rfl
  | between least greatest =>
    constructor
    · rintro ⟨v, hv⟩
      rw [contains_between, Bool.and_eq_true] at hv
      exact TransCmp.isLE_trans hv.1 hv.2
    · intro h
      refine ⟨least, ?_⟩
      rw [contains_between, Bool.and_eq_true]
      exact ⟨by simp, h⟩

/-- The join of two ranges is their intersection: it contains the versions that both contain, and where there is none, there is
no such version. While no limits are in the wrong order, it is missing only then. -/
theorem join_is_intersection [Nonempty α] (a b : Bounds α) :
    (∀ c, a.join b = some c → ∀ v, c.contains v ↔ a.contains v ∧ b.contains v) ∧
      (a.join b = none → ∀ v, ¬ (a.contains v ∧ b.contains v)) ∧
      (a.isOrdered → b.isOrdered → (a.join b = none ↔ ∀ v, ¬ (a.contains v ∧ b.contains v))) := by
  refine ⟨fun c h => contains_join_iff h, not_contains_of_join_eq_none, fun ha hb => ⟨not_contains_of_join_eq_none, ?_⟩⟩
  intro hnone
  cases h : a.join b with
  | none => rfl
  | some c =>
    obtain ⟨v, hv⟩ := (exists_contains_iff_isOrdered c).mpr (isOrdered_of_join ha hb h)
    exact absurd ((contains_join_iff h v).mp hv) (hnone v)

/-- The versions up to `1.02`. -/
def early : Bounds Version := .atMost .padded

/-- The versions from `1.2`, which is the same as `1.02`, to the next epoch. -/
def midway : Bounds Version := .between .plain .raised

/-- The versions from `1.2b.0`. -/
def late : Bounds Version := .atLeast .lettered

/-- Ranges that touch share a version, however their limits are spelled; past it there is no intersection and nothing to share. -/
theorem early_meets_midway_only :
    early.isOrdered ∧ midway.isOrdered ∧ (∃ v, early.contains v ∧ midway.contains v) ∧
      early.join late = none ∧ ∀ v, ¬ (early.contains v ∧ late.contains v) := by
  have : Nonempty Version := ⟨.plain⟩
  obtain ⟨-, -, hexact⟩ := join_is_intersection early midway
  obtain ⟨-, hapart, -⟩ := join_is_intersection early late
  have hmidway : midway.isOrdered := by decide +kernel
  have hsome : (early.join midway).isSome := by decide +kernel
  have hlate : early.join late = none := Option.isNone_iff_eq_none.mp (by decide +kernel)
  refine ⟨rfl, hmidway, Classical.not_forall_not.mp fun hnone => ?_, hlate, hapart hlate⟩
  rw [(hexact rfl hmidway).mpr hnone] at hsome
  cases hsome

end AddonPlanner.Bounds
