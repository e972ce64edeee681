import AddonPlanner.Proofs.Bounds
import AddonPlanner.Proofs.Version.Tokens

/-!
# Combining bounds in any order

Ranges other than `any` are combined limit by limit: the intersection has the later of the lower limits and the earlier of the
upper ones, and it is empty when these do not fit (`join_beq_meet`). So the order of the ranges makes no difference to their
intersection (`foldl_joinWith_beq_of_perm`), up to the equality of versions: where two limits are equal, the order decides which of
the two spellings stays.
-/

namespace AddonPlanner.Bounds

open Std

variable {α : Type}

/-! ## Limits -/

/-- The least version of a range, where it has one. -/
def least? : Bounds α → Option α
  | any | atMost _ => none
  | exactly v | atLeast v | between v _ => some v

/-- The greatest version of a range, where it has one. -/
def greatest? : Bounds α → Option α
  | any | atLeast _ => none
  | exactly v | atMost v | between _ v => some v

/-- Only `any` has no limits. -/
theorem eq_any_iff {b : Bounds α} : b = any ↔ b.least?.isSome = false ∧ b.greatest?.isSome = false := by
  cases b <;> simp [least?, greatest?]

theorem any_join [Ord α] (b : Bounds α) : any.join b = some b := rfl

theorem join_any [Ord α] (b : Bounds α) : b.join any = some b := by
  cases b <;> rfl

variable [Ord α]

/-- Whether a version is not before a lower limit. -/
def isAbove (least? : Option α) (v : α) : Bool :=
  least?.all fun least => (compare least v).isLE

/-- Whether a version is not after an upper limit. -/
def isBelow (greatest? : Option α) (v : α) : Bool :=
  greatest?.all fun greatest => (compare v greatest).isLE

/-- The range between two limits, each of which may be absent. -/
def within : Option α → Option α → Option (Bounds α)
  | none, none => some any
  | some least, none => some (atLeast least)
  | none, some greatest => some (atMost greatest)
  | some least, some greatest => span least greatest

variable [TransOrd α]

theorem isAbove_merge (l l' : Option α) (v : α) : isAbove (l.merge later l') v = (isAbove l v && isAbove l' v) := by
  cases l <;> cases l' <;> simp [isAbove, isLE_later]

theorem isBelow_merge (g g' : Option α) (v : α) : isBelow (g.merge earlier g') v = (isBelow g v && isBelow g' v) := by
  cases g <;> cases g' <;> simp [isBelow, isLE_earlier]

/-- A version lies in a range when it lies between the limits. -/
theorem contains_eq (b : Bounds α) (v : α) : b.contains v = (isAbove b.least? v && isBelow b.greatest? v) := by
  cases b with
  | any => rfl
  | exactly wanted =>
    have hle : (compare wanted v).isLE = (compare v wanted).isGE := OrientedCmp.isGE_eq_isLE.symm
    simp only [contains, isAbove, isBelow, least?, greatest?, Option.all_some, hle]
    cases compare v wanted <;> rfl
  | atLeast least => simp [contains_atLeast, isAbove, isBelow, least?, greatest?]
  | atMost greatest => simp [contains_atMost, isAbove, isBelow, least?, greatest?]
  | between least greatest => simp [contains_between, isAbove, isBelow, least?, greatest?]

variable [BEq α] [LawfulBEqOrd α]

/-- Lower limits are equal when the same versions are not before them. -/
theorem beq_iff_isAbove {l l' : Option α} :
    (l == l') = true ↔ l.isSome = l'.isSome ∧ ∀ v, isAbove l v = isAbove l' v := by
  cases l with
  | none => cases l' <;> simp [isAbove]
  | some x =>
    cases l' with
    | none => simp
    | some y =>
      simp only [Option.some_beq_some, ← LawfulBEqOrd.compare_eq_iff_beq, Option.isSome_some, true_and, isAbove,
        Option.all_some]
      constructor
      · intro h v
        rw [TransCmp.congr_left h]
      · intro h
        refine OrientedCmp.isLE_antisymm ?_ ?_
        · rw [h y, ReflOrd.compare_self]; rfl
        · rw [← h x, ReflOrd.compare_self]; rfl

/-- Upper limits are equal when the same versions are not after them. -/
theorem beq_iff_isBelow {g g' : Option α} :
    (g == g') = true ↔ g.isSome = g'.isSome ∧ ∀ v, isBelow g v = isBelow g' v := by
  cases g with
  | none => cases g' <;> simp [isBelow]
  | some x =>
    cases g' with
    | none => simp
    | some y =>
      simp only [Option.some_beq_some, ← LawfulBEqOrd.compare_eq_iff_beq, Option.isSome_some, true_and, isBelow,
        Option.all_some]
      constructor
      · intro h v
        rw [TransCmp.congr_right h]
      · intro h
        refine OrientedCmp.isLE_antisymm ?_ ?_
        · rw [← h x, ReflOrd.compare_self]; rfl
        · rw [h y, ReflOrd.compare_self]; rfl

theorem merge_later_comm (l l' : Option α) : (l.merge later l' == l'.merge later l) = true := by
  refine beq_iff_isAbove.mpr ⟨?_, fun v => ?_⟩
  · rw [Option.isSome_merge, Option.isSome_merge, Bool.or_comm]
  · rw [isAbove_merge, isAbove_merge, Bool.and_comm]

theorem merge_later_assoc (l m n : Option α) :
    ((l.merge later m).merge later n == l.merge later (m.merge later n)) = true := by
  refine beq_iff_isAbove.mpr ⟨?_, fun v => ?_⟩
  · simp only [Option.isSome_merge, Bool.or_assoc]
  · simp only [isAbove_merge, Bool.and_assoc]

theorem merge_later_congr {l l' m m' : Option α} (hl : (l == l') = true) (hm : (m == m') = true) :
    (l.merge later m == l'.merge later m') = true := by
  obtain ⟨hl, hl'⟩ := beq_iff_isAbove.mp hl
  obtain ⟨hm, hm'⟩ := beq_iff_isAbove.mp hm
  refine beq_iff_isAbove.mpr ⟨?_, fun v => ?_⟩
  · rw [Option.isSome_merge, Option.isSome_merge, hl, hm]
  · rw [isAbove_merge, isAbove_merge, hl', hm']

theorem merge_earlier_comm (g g' : Option α) : (g.merge earlier g' == g'.merge earlier g) = true := by
  refine beq_iff_isBelow.mpr ⟨?_, fun v => ?_⟩
  · rw [Option.isSome_merge, Option.isSome_merge, Bool.or_comm]
  · rw [isBelow_merge, isBelow_merge, Bool.and_comm]

theorem merge_earlier_assoc (g h i : Option α) :
    ((g.merge earlier h).merge earlier i == g.merge earlier (h.merge earlier i)) = true := by
  refine beq_iff_isBelow.mpr ⟨?_, fun v => ?_⟩
  · simp only [Option.isSome_merge, Bool.or_assoc]
  · simp only [isBelow_merge, Bool.and_assoc]

theorem merge_earlier_congr {g g' h h' : Option α} (hg : (g == g') = true) (hh : (h == h') = true) :
    (g.merge earlier h == g'.merge earlier h') = true := by
  obtain ⟨hg, hg'⟩ := beq_iff_isBelow.mp hg
  obtain ⟨hh, hh'⟩ := beq_iff_isBelow.mp hh
  refine beq_iff_isBelow.mpr ⟨?_, fun v => ?_⟩
  · rw [Option.isSome_merge, Option.isSome_merge, hg, hh]
  · rw [isBelow_merge, isBelow_merge, hg', hh']

/-! ## Equal ranges -/

/-- Ranges are equal when both or neither is an exact version and their limits are equal. -/
theorem beq_iff {b c : Bounds α} :
    (b == c) = true ↔ (b matches exactly _) = (c matches exactly _) ∧ (b.least? == c.least?) = true ∧
      (b.greatest? == c.greatest?) = true := by
  change instBEqBounds.beq b c = true ↔ _
  cases b <;> cases c <;> simp [least?, greatest?, instBEqBounds.beq]

instance : EquivBEq (Bounds α) where
  rfl := beq_iff.mpr ⟨rfl, BEq.rfl, BEq.rfl⟩
  symm h := by
    obtain ⟨hkind, hl, hg⟩ := beq_iff.mp h
    exact beq_iff.mpr ⟨hkind.symm, BEq.symm hl, BEq.symm hg⟩
  trans h h' := by
    obtain ⟨hkind, hl, hg⟩ := beq_iff.mp h
    obtain ⟨hkind', hl', hg'⟩ := beq_iff.mp h'
    exact beq_iff.mpr ⟨hkind.trans hkind', BEq.trans hl hl', BEq.trans hg hg'⟩

instance : EquivBEq (Option (Bounds α)) where
  rfl {o} := by
    cases o with
    | none => rfl
    | some b => exact BEq.refl b
  symm {o p} h := by
    cases o <;> cases p <;> simp at h ⊢
    exact BEq.symm h
  trans {o p q} h h' := by
    cases o <;> cases p <;> cases q <;> simp at h h' ⊢
    exact BEq.trans h h'

/-! ## Limits that fit -/

/-- Whether a lower limit is not after an upper one. -/
def fits (l g : Option α) : Bool :=
  l.all (isBelow g)

omit [TransOrd α] [BEq α] [LawfulBEqOrd α] in
theorem isSome_within (l g : Option α) : (within l g).isSome = fits l g := by
  cases l <;> cases g <;> try rfl
  simp only [within, span, fits, Option.all_some, isBelow]
  split <;> simp_all

omit [BEq α] [LawfulBEqOrd α] in
theorem fits_merge_left (l l' g : Option α) : fits (l.merge later l') g = (fits l g && fits l' g) := by
  cases l <;> cases l' <;> cases g <;> simp [fits, isBelow, isLE_later]

omit [BEq α] [LawfulBEqOrd α] in
theorem fits_merge_right (l g g' : Option α) : fits l (g.merge earlier g') = (fits l g && fits l g') := by
  cases l <;> simp [fits, isBelow_merge]

omit [BEq α] [LawfulBEqOrd α] in
theorem contains_eq_fits (b : Bounds α) (v : α) : b.contains v = (fits b.least? (some v) && fits (some v) b.greatest?) := by
  rw [contains_eq]
  rfl

/-- Equal limits leave equal ranges. -/
theorem within_congr {l l' g g' : Option α} (hl : (l == l') = true) (hg : (g == g') = true) :
    (within l g == within l' g') = true := by
  cases l <;> cases l' <;> cases g <;> cases g' <;> try first | exact hl | exact hg | contradiction
  next x x' y y' =>
    have hx : compare x x' = .eq := LawfulBEqOrd.compare_eq_iff_beq.mpr hl
    have hy : compare y y' = .eq := LawfulBEqOrd.compare_eq_iff_beq.mpr hg
    have hxy : compare x y = compare x' y' := (TransCmp.congr_left hx).trans (TransCmp.congr_right hy)
    simp only [within, span, hxy]
    split
    · exact Bool.and_eq_true_iff.mpr ⟨hl, hg⟩
    · exact hl
    · rfl

/-- The range between two limits has these limits, up to the spelling of a single version. -/
theorem of_within_eq_some {l g : Option α} {b : Bounds α} (h : within l g = some b) :
    (b.least? == l) = true ∧ (b.greatest? == g) = true := by
  cases l with
  | none => cases g <;> (cases h; exact ⟨BEq.rfl, BEq.rfl⟩)
  | some x =>
    cases g with
    | none => cases h; exact ⟨BEq.rfl, BEq.rfl⟩
    | some y =>
      simp only [within, span] at h
      split at h
      · cases h; exact ⟨BEq.rfl, BEq.rfl⟩
      · next hxy => cases h; exact ⟨BEq.rfl, LawfulBEqOrd.compare_eq_iff_beq.mp hxy⟩
      · cases h

/-! ## Intersections, limit by limit -/

/-- The range between the later of two lower limits and the earlier of two upper ones. -/
def meet (b c : Bounds α) : Option (Bounds α) :=
  within (b.least?.merge later c.least?) (b.greatest?.merge earlier c.greatest?)

omit [BEq α] [LawfulBEqOrd α] in
theorem isSome_meet (b c : Bounds α) :
    (meet b c).isSome = ((fits b.least? b.greatest? && fits c.least? b.greatest?) &&
      (fits b.least? c.greatest? && fits c.least? c.greatest?)) := by
  rw [meet, isSome_within, fits_merge_right, fits_merge_left, fits_merge_left]

theorem meet_comm (b c : Bounds α) : (meet b c == meet c b) = true :=
  within_congr (merge_later_comm _ _) (merge_earlier_comm _ _)

theorem merge_later_beq_of_fits {l : Option α} {v : α} (h : fits l (some v)) :
    ((some v).merge later l == some v) = true := by
  refine beq_iff_isAbove.mpr ⟨by simp, fun w => ?_⟩
  rw [isAbove_merge, Bool.and_eq_left_iff_imp]
  intro hv
  cases l with
  | none => rfl
  | some x => exact TransCmp.isLE_trans h hv

theorem merge_earlier_beq_of_fits {g : Option α} {v : α} (h : fits (some v) g) :
    ((some v).merge earlier g == some v) = true := by
  refine beq_iff_isBelow.mpr ⟨by simp, fun w => ?_⟩
  rw [isBelow_merge, Bool.and_eq_left_iff_imp]
  intro hv
  cases g with
  | none => rfl
  | some x => exact TransCmp.isLE_trans hv h

theorem exactly_join_beq_meet (b : Bounds α) (v : α) : ((exactly v).join b == meet (exactly v) b) = true := by
  have hspan : within (some v) (some v) = some (exactly v) := by
    simp only [within, span, ReflOrd.compare_self]
  rw [exactly_join, contains_eq_fits]
  split
  · next h =>
    obtain ⟨hl, hg⟩ := Bool.and_eq_true_iff.mp h
    rw [← hspan]
    exact BEq.symm (within_congr (merge_later_beq_of_fits hl) (merge_earlier_beq_of_fits hg))
  · next h =>
    have hnone : meet (exactly v) b = none := by
      rw [← Option.not_isSome_iff_eq_none, isSome_meet]
      simp_all [least?, greatest?]
    rw [hnone]
    rfl

/-- Ranges that have limits are intersected limit by limit. -/
theorem join_beq_meet {b c : Bounds α} (hb : b ≠ any) (hc : c ≠ any) : (b.join c == meet b c) = true := by
  cases b with
  | any => exact absurd rfl hb
  | exactly v => exact exactly_join_beq_meet c v
  | atLeast v =>
    cases c with
    | any => exact absurd rfl hc
    | exactly w => exact BEq.trans (exactly_join_beq_meet (atLeast v) w) (meet_comm _ _)
    | atLeast _ | atMost _ | between _ _ => exact BEq.rfl
  | atMost v =>
    cases c with
    | any => exact absurd rfl hc
    | exactly w => exact BEq.trans (exactly_join_beq_meet (atMost v) w) (meet_comm _ _)
    | atLeast _ | atMost _ | between _ _ => exact BEq.rfl
  | between v w =>
    cases c with
    | any => exact absurd rfl hc
    | exactly x => exact BEq.trans (exactly_join_beq_meet (between v w) x) (meet_comm _ _)
    | atLeast x => exact meet_comm (atLeast x) (between v w)
    | atMost x => exact meet_comm (atMost x) (between v w)
    | between _ _ => exact BEq.rfl

/-- An intersection of ranges that have limits has the later of the lower limits and the earlier of the upper ones. -/
theorem limits_of_join_eq_some {b c d : Bounds α} (hb : b ≠ any) (hc : c ≠ any) (h : b.join c = some d) :
    d ≠ any ∧ (d.least? == b.least?.merge later c.least?) = true ∧
      (d.greatest? == b.greatest?.merge earlier c.greatest?) = true := by
  have hmeet := join_beq_meet hb hc
  rw [h] at hmeet
  cases hw : meet b c with
  | none => rw [hw] at hmeet; cases hmeet
  | some e =>
    rw [hw] at hmeet
    obtain ⟨hkind, hl, hg⟩ := beq_iff.mp hmeet
    obtain ⟨hl', hg'⟩ := of_within_eq_some hw
    have hleast := BEq.trans hl hl'
    have hgreatest := BEq.trans hg hg'
    refine ⟨fun hd => hb (eq_any_iff.mpr ?_), hleast, hgreatest⟩
    obtain ⟨hdl, hdg⟩ := eq_any_iff.mp hd
    rw [(beq_iff_isAbove.mp hleast).1, Option.isSome_merge, Bool.or_eq_false_iff] at hdl
    rw [(beq_iff_isBelow.mp hgreatest).1, Option.isSome_merge, Bool.or_eq_false_iff] at hdg
    exact ⟨hdl.1, hdg.1⟩

/-! ## The order makes no difference -/

theorem join_beq_join_comm (b c : Bounds α) : (b.join c == c.join b) = true := by
  by_cases hb : b = any
  · rw [hb, any_join, join_any]
    exact BEq.rfl
  · by_cases hc : c = any
    · rw [hc, any_join, join_any]
      exact BEq.rfl
    · exact BEq.trans (join_beq_meet hb hc) (BEq.trans (meet_comm b c) (BEq.symm (join_beq_meet hc hb)))

/-- Equal ranges have equal intersections with a range. -/
theorem join_congr {b c : Bounds α} (h : (b == c) = true) (d : Bounds α) : (b.join d == c.join d) = true := by
  obtain ⟨-, hl, hg⟩ := beq_iff.mp h
  have hany : b = any ↔ c = any := by
    rw [eq_any_iff, eq_any_iff, (beq_iff_isAbove.mp hl).1, (beq_iff_isBelow.mp hg).1]
  by_cases hb : b = any
  · rw [hb, hany.mp hb]
    exact BEq.rfl
  · by_cases hd : d = any
    · rw [hd, join_any, join_any]
      exact h
    · have hmeet : (meet b d == meet c d) = true :=
        within_congr (merge_later_congr hl BEq.rfl) (merge_earlier_congr hg BEq.rfl)
      have hc : c ≠ any := fun hc => hb (hany.mpr hc)
      exact BEq.trans (join_beq_meet hb hd) (BEq.trans hmeet (BEq.symm (join_beq_meet hc hd)))

/-- The intersection of three ranges that have limits, limit by limit. -/
theorem join_bind_beq_within {b c d : Bounds α} (hb : b ≠ any) (hc : c ≠ any) (hd : d ≠ any) :
    ((b.join c).bind (·.join d) ==
      within ((b.least?.merge later c.least?).merge later d.least?)
        ((b.greatest?.merge earlier c.greatest?).merge earlier d.greatest?)) = true := by
  cases h : b.join c with
  | none =>
    -- limits that do not fit still do not fit when a third range narrows them
    have hmeet : (meet b c).isSome = false := by
      have hbeq := join_beq_meet hb hc
      rw [h] at hbeq
      cases hw : meet b c with
      | none => rfl
      | some e => rw [hw] at hbeq; cases hbeq
    have hnone : within ((b.least?.merge later c.least?).merge later d.least?)
        ((b.greatest?.merge earlier c.greatest?).merge earlier d.greatest?) = none := by
      rw [← Option.not_isSome_iff_eq_none, isSome_within, fits_merge_right, fits_merge_left, ← isSome_within, ← meet, hmeet]
      simp
    rw [hnone]
    rfl
  | some e =>
    obtain ⟨he, hl, hg⟩ := limits_of_join_eq_some hb hc h
    exact BEq.trans (join_beq_meet he hd) (within_congr (merge_later_congr hl BEq.rfl) (merge_earlier_congr hg BEq.rfl))

/-- The intersection of a range, where there is one, with another; what is empty stays so. -/
def joinWith (o : Option (Bounds α)) (b : Bounds α) : Option (Bounds α) :=
  o.bind (·.join b)

/-- It makes no difference on which side a range is put to what there is. -/
theorem bind_join_beq_joinWith (o : Option (Bounds α)) (b : Bounds α) : (o.bind (b.join ·) == joinWith o b) = true := by
  cases o with
  | none => rfl
  | some c => exact join_beq_join_comm b c

theorem joinWith_congr {o p : Option (Bounds α)} (h : (o == p) = true) (b : Bounds α) :
    (joinWith o b == joinWith p b) = true := by
  cases o with
  | none =>
    cases p with
    | none => rfl
    | some d => cases h
  | some c =>
    cases p with
    | none => cases h
    | some d => exact join_congr h b

theorem joinWith_join_beq_of_ne_any {b c d : Bounds α} (hb : b ≠ any) (hc : c ≠ any) (hd : d ≠ any) :
    (joinWith (b.join c) d == (c.join d).bind (b.join ·)) = true := by
  have hturn : (within ((c.least?.merge later d.least?).merge later b.least?)
        ((c.greatest?.merge earlier d.greatest?).merge earlier b.greatest?) ==
      within ((b.least?.merge later c.least?).merge later d.least?)
        ((b.greatest?.merge earlier c.greatest?).merge earlier d.greatest?)) = true :=
    within_congr (BEq.trans (merge_later_comm _ _) (BEq.symm (merge_later_assoc _ _ _)))
      (BEq.trans (merge_earlier_comm _ _) (BEq.symm (merge_earlier_assoc _ _ _)))
  refine BEq.trans (join_bind_beq_within hb hc hd) (BEq.symm ?_)
  exact BEq.trans (bind_join_beq_joinWith _ b) (BEq.trans (join_bind_beq_within hc hd hb) hturn)

/-- Three ranges have one intersection, whichever two are intersected first. -/
theorem joinWith_join_beq (b c d : Bounds α) : (joinWith (b.join c) d == (c.join d).bind (b.join ·)) = true := by
  by_cases hb : b = any
  · simp [joinWith, hb, any_join]
  · by_cases hc : c = any
    · simp [joinWith, hc, any_join, join_any]
    · by_cases hd : d = any
      · simp [joinWith, hd, join_any]
      · exact joinWith_join_beq_of_ne_any hb hc hd

/-- Two ranges are put to what there is in either order. -/
theorem joinWith_comm (o : Option (Bounds α)) (b c : Bounds α) :
    (joinWith (joinWith o b) c == joinWith (joinWith o c) b) = true := by
  cases o with
  | none => rfl
  | some a =>
    have hswap : ((b.join c).bind (a.join ·) == (c.join b).bind (a.join ·)) = true :=
      BEq.trans (bind_join_beq_joinWith _ a) (BEq.trans (joinWith_congr (join_beq_join_comm b c) a)
        (BEq.symm (bind_join_beq_joinWith _ a)))
    exact BEq.trans (joinWith_join_beq a b c) (BEq.trans hswap (BEq.symm (joinWith_join_beq a c b)))

/-! ## Lists of ranges -/

/-- The intersection of the ranges of a list, taken one after the other. -/
def joinAll (l : List (Bounds α)) : Option (Bounds α) :=
  l.foldl joinWith (some any)

omit [TransOrd α] [BEq α] [LawfulBEqOrd α] in
theorem foldl_joinWith_none (l : List (Bounds α)) : l.foldl joinWith none = none := by
  induction l with
  | nil => rfl
  | cons b rest ih => exact ih

omit [TransOrd α] [BEq α] [LawfulBEqOrd α] in
/-- The intersection of a list is the last of those that arise on the way. -/
theorem getLastD_joins (start : Bounds α) (l : List (Bounds α)) :
    (start.joins l).getLastD (some start) = l.foldl joinWith (some start) := by
  induction l generalizing start with
  | nil => rfl
  | cons b rest ih =>
    rw [joins, List.foldl_cons]
    show _ = rest.foldl joinWith (start.join b)
    cases start.join b with
    | none => exact (foldl_joinWith_none rest).symm
    | some c =>
      rw [List.getLastD_cons]
      exact ih c

omit [BEq α] [LawfulBEqOrd α] in
/-- A version lies in the intersection of a list when it lies in every range. -/
theorem any_contains_foldl (l : List (Bounds α)) (o : Option (Bounds α)) (v : α) :
    (l.foldl joinWith o).any (·.contains v) = (o.any (·.contains v) && l.all (·.contains v)) := by
  induction l generalizing o with
  | nil => simp
  | cons b rest ih =>
    rw [List.foldl_cons, ih, List.all_cons, ← Bool.and_assoc]
    congr 1
    cases o with
    | none => rfl
    | some c => exact any_contains_join c b v

theorem foldl_joinWith_congr (l : List (Bounds α)) {o p : Option (Bounds α)} (h : (o == p) = true) :
    (l.foldl joinWith o == l.foldl joinWith p) = true := by
  induction l generalizing o p with
  | nil => exact h
  | cons b rest ih => exact ih (joinWith_congr h b)

/-- Lists of the same ranges in different orders have equal intersections. -/
theorem foldl_joinWith_beq_of_perm {l l' : List (Bounds α)} (h : l.Perm l') (o : Option (Bounds α)) :
    (l.foldl joinWith o == l'.foldl joinWith o) = true := by
  induction h generalizing o with
  | nil => exact BEq.rfl
  | cons b _ ih => exact ih (joinWith o b)
  | swap b c rest => exact foldl_joinWith_congr rest (joinWith_comm o c b)
  | trans _ _ ih ih' => exact BEq.trans (ih o) (ih' o)

/-- Intersecting ranges does not depend on their order: it is commutative and associative up to equal versions, `any` changes
nothing, and all the ranges of a list have one intersection, in whatever order they are taken. That holds the versions which lie
in every range of the list. -/
theorem intersection_in_any_order :
    (∀ b c : Bounds α, (b.join c == c.join b) = true) ∧
      (∀ b c d : Bounds α, ((b.join c).bind (·.join d) == (c.join d).bind (b.join ·)) = true) ∧
      (∀ b : Bounds α, any.join b = some b ∧ b.join any = some b) ∧
      (∀ l l' : List (Bounds α), l.Perm l' → (joinAll l == joinAll l') = true) ∧
      (∀ (l : List (Bounds α)) (v : α), (joinAll l).any (·.contains v) = l.all (·.contains v)) := by
  refine ⟨join_beq_join_comm, joinWith_join_beq, fun b => ⟨any_join b, join_any b⟩, ?_, ?_⟩
  · intro l l' h
    exact foldl_joinWith_beq_of_perm h (some any)
  · intro l v
    exact any_contains_foldl l (some any) v

/-- Lower limits that are the same version in two spellings, below a later one. -/
def spelledPadded : List (Bounds Version) :=
  [.atMost .raised, .atLeast .padded, .atLeast .plain]

/-- The same ranges with the lower limits exchanged. -/
def spelledPlain : List (Bounds Version) :=
  [.atMost .raised, .atLeast .plain, .atLeast .padded]

/-- The order of the ranges decides which spelling stays; the intersections are equal. -/
theorem joinAll_spelled :
    spelledPadded.Perm spelledPlain ∧ (joinAll spelledPadded == joinAll spelledPlain) = true ∧
      ((joinAll spelledPadded).bind least?).map Version.text = some "1.02" ∧
      ((joinAll spelledPlain).bind least?).map Version.text = some "1.2" := by
  obtain ⟨-, -, -, hperm, -⟩ := @intersection_in_any_order Version _ _ _ _
  have hswap : spelledPadded.Perm spelledPlain := .cons _ (.swap _ _ [])
  exact ⟨hswap, hperm _ _ hswap, by decide +kernel, by decide +kernel⟩

end AddonPlanner.Bounds
