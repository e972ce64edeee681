import AddonPlanner.Keyed

/-!
# Looking up keys

What each operation on a keyed set does to the member of a key (`get?`). A set is known by its look-ups: a value is a member
exactly when it is the member of its key (`mem_iff_get?`), and sets that answer every look-up alike are the same
(`eq_of_forall_get?_eq`).
-/

namespace AddonPlanner.Keyed

variable {α : Type} {key : α → String}

/-! ## Members and look-ups -/

theorem mem_toList {s : Keyed key} {x : α} : x ∈ s.toList ↔ x ∈ s := Iff.rfl

/-- Of each key there is at most one member. -/
theorem eq_of_key_eq {s : Keyed key} {x y : α} (hx : x ∈ s) (hy : y ∈ s) (h : key x = key y) : x = y := by
  obtain ⟨l, hord⟩ := s
  change x ∈ l at hx
  change y ∈ l at hy
  induction l with
  | nil => simp at hx
  | cons z rest ih =>
    obtain ⟨hz, hrest⟩ := List.pairwise_cons.mp hord
    rcases List.mem_cons.mp hx with rfl | hx'
    · rcases List.mem_cons.mp hy with rfl | hy'
      · rfl
      · exact absurd (h ▸ hz y hy') (String.lt_irrefl _)
    · rcases List.mem_cons.mp hy with rfl | hy'
      · exact absurd (h ▸ hz x hx') (String.lt_irrefl _)
      · exact ih hrest hx' hy'

theorem get?_eq_some_iff {s : Keyed key} {k : String} {x : α} : s.get? k = some x ↔ x ∈ s ∧ key x = k := by
  constructor
  · intro h
    exact ⟨mem_of_get? h, key_of_get? h⟩
  · rintro ⟨hx, rfl⟩
    cases hg : s.get? (key x) with
    | none => exact absurd (List.find?_eq_none.mp hg x hx) (by simp)
    | some y => rw [eq_of_key_eq (mem_of_get? hg) hx (key_of_get? hg)]

theorem mem_iff_get? {s : Keyed key} {x : α} : x ∈ s ↔ s.get? (key x) = some x := by
  simp [get?_eq_some_iff]

theorem contains_eq (s : Keyed key) (k : String) : s.contains k = (s.get? k).isSome := by
  rw [contains, get?, Bool.eq_iff_iff, List.any_eq_true, List.find?_isSome]

theorem get?_eq_none_iff {s : Keyed key} {k : String} : s.get? k = none ↔ s.contains k = false := by
  rw [contains_eq, Option.isSome_eq_false_iff, Option.isNone_iff_eq_none]

theorem contains_of_mem {s : Keyed key} {x : α} (h : x ∈ s) : s.contains (key x) := by
  rw [contains_eq, mem_iff_get?.mp h]
  rfl

theorem exists_mem_of_contains {s : Keyed key} {k : String} (h : s.contains k) : ∃ x ∈ s, key x = k := by
  rw [contains_eq, Option.isSome_iff_exists] at h
  obtain ⟨x, hx⟩ := h
  exact ⟨x, get?_eq_some_iff.mp hx⟩

/-- A key is absent when no member has it. -/
theorem contains_eq_false_iff {s : Keyed key} {k : String} : s.contains k = false ↔ ∀ x ∈ s, key x ≠ k := by
  constructor
  · rintro h x hx rfl
    rw [contains_of_mem hx] at h
    cases h
  · intro h
    refine Bool.eq_false_iff.mpr fun hc => ?_
    obtain ⟨x, hx, hk⟩ := exists_mem_of_contains hc
    exact h x hx hk

theorem eq_empty_of_forall_not_mem {s : Keyed key} (h : ∀ x, x ∉ s) : s = ∅ :=
  Keyed.ext (List.eq_nil_iff_forall_not_mem.mpr h)

theorem nodup_keys (s : Keyed key) : s.keys.Nodup := by
  refine List.pairwise_map.mpr (s.ordered.imp fun hlt heq => ?_)
  rw [heq] at hlt
  exact String.lt_irrefl _ hlt

theorem nodup_toList (s : Keyed key) : s.toList.Nodup :=
  List.Pairwise.of_map key (fun _ _ hne heq => hne (congrArg key heq)) (nodup_keys s)

/-- Sets with the same members are the same. -/
theorem eq_of_forall_mem_iff {s t : Keyed key} (h : ∀ x, x ∈ s ↔ x ∈ t) : s = t := by
  have hperm : s.toList.Perm t.toList := (List.perm_ext_iff_of_nodup (nodup_toList s) (nodup_toList t)).mpr h
  refine Keyed.ext (hperm.eq_of_pairwise (fun x y _ _ hxy hyx => ?_) s.ordered t.ordered)
  exact absurd (String.lt_trans hxy hyx) (String.lt_irrefl _)

/-- Sets that answer every look-up alike are the same. -/
theorem eq_of_forall_get?_eq {s t : Keyed key} (h : ∀ k, s.get? k = t.get? k) : s = t :=
  eq_of_forall_mem_iff fun x => by rw [mem_iff_get?, mem_iff_get?, h]

/-! ## Operations -/

theorem find?_place {x : α} {l : List α} (h : l.Pairwise (fun a b => key a < key b)) (k : String) :
    (place key x l).find? (fun y => key y == k) =
      (l.find? fun y => key y == k).or (if key x = k then some x else none) := by
  induction l with
  | nil => by_cases hk : key x = k <;> simp [place, hk]
  | cons y rest ih =>
    obtain ⟨hy, hrest⟩ := List.pairwise_cons.mp h
    rw [place]
    split
    · next hlt =>
      by_cases hk : key x = k
      · have hnone : (y :: rest).find? (fun y => key y == k) = none := by
          rw [List.find?_eq_none]
          intro z hz
          have hxz : key x < key z := by
            rcases List.mem_cons.mp hz with rfl | hz
            · exact hlt
            · exact String.lt_trans hlt (hy z hz)
          have : key z ≠ k := fun hzk => String.lt_irrefl _ (hzk.trans hk.symm ▸ hxz)
          simpa using this
        rw [hnone, List.find?_cons_of_pos (by simpa using hk), if_pos hk]
        rfl
      · rw [List.find?_cons_of_neg (by simpa using hk), if_neg hk, Option.or_none]
    · split
      · next heq =>
        by_cases hk : key x = k
        · rw [List.find?_cons_of_pos (by simpa [← heq] using hk), Option.some_or]
        · rw [if_neg hk, Option.or_none]
      · by_cases hk : key y = k
        · rw [List.find?_cons_of_pos (by simpa using hk), List.find?_cons_of_pos (by simpa using hk), Option.some_or]
        · rw [List.find?_cons_of_neg (by simpa using hk), List.find?_cons_of_neg (by simpa using hk), ih hrest]

/-- A value that is inserted is found, unless its key has a member already. -/
theorem get?_insert (s : Keyed key) (x : α) (k : String) :
    (s.insert x).get? k = (s.get? k).or (if key x = k then some x else none) :=
  find?_place s.ordered k

/-- A value whose key has a member changes nothing. -/
theorem insert_of_contains {s : Keyed key} {x : α} (h : s.contains (key x)) : s.insert x = s := by
  refine eq_of_forall_get?_eq fun k => ?_
  rw [get?_insert]
  by_cases hk : key x = k
  · rw [contains_eq, hk] at h
    obtain ⟨y, hy⟩ := Option.isSome_iff_exists.mp h
    rw [hy, Option.some_or]
  · rw [if_neg hk, Option.or_none]

/-- A value whose key has a member is refused. -/
theorem isSome_insert? (s : Keyed key) (x : α) : (s.insert? x).isSome = (s.get? (key x)).isNone := by
  rw [insert?, contains_eq]
  cases s.get? (key x) <;> rfl

/-- Whether a value is refused or added, what comes of it is the set with the value inserted. -/
theorem getD_insert? (s : Keyed key) (x : α) : (s.insert? x).getD s = s.insert x := by
  rw [insert?]
  split
  · next h => rw [Option.getD_none, insert_of_contains h]
  · rfl

theorem mem_insert_of_mem {s : Keyed key} {x y : α} (h : y ∈ s) : y ∈ s.insert x := by
  rw [mem_iff_get?] at h ⊢
  rw [get?_insert, h, Option.some_or]

theorem mem_of_mem_insert {s : Keyed key} {x y : α} (h : y ∈ s.insert x) : y = x ∨ y ∈ s :=
  mem_of_mem_place h

/-- Among the members of another set no two values share a key, so inserting one of them adds it. -/
theorem mem_insert {s t : Keyed key} (hs : ∀ y ∈ s, y ∈ t) {x y : α} (hx : x ∈ t) : y ∈ s.insert x ↔ y = x ∨ y ∈ s := by
  refine ⟨mem_of_mem_insert, ?_⟩
  rintro (rfl | hy)
  · rw [mem_iff_get?, get?_insert, if_pos rfl]
    cases hg : s.get? (key y) with
    | none => rfl
    | some z => rw [eq_of_key_eq (hs z (mem_of_get? hg)) hx (key_of_get? hg), Option.some_or]
  · exact mem_insert_of_mem hy

/-- A value with a new key is added. -/
theorem mem_insert_of_new {s : Keyed key} {x y : α} (h : s.contains (key x) = false) : y ∈ s.insert x ↔ y = x ∨ y ∈ s := by
  refine ⟨mem_of_mem_insert, ?_⟩
  rintro (rfl | hy)
  · rw [mem_iff_get?, get?_insert, get?_eq_none_iff.mpr h, if_pos rfl, Option.none_or]
  · exact mem_insert_of_mem hy

theorem perm_insert_of_new {s : Keyed key} {x : α} (h : s.contains (key x) = false) :
    (s.insert x).toList.Perm (x :: s.toList) := by
  have hx : x ∉ s.toList := fun hx => contains_eq_false_iff.mp h x hx rfl
  refine (List.perm_ext_iff_of_nodup (nodup_toList _) (List.nodup_cons.mpr ⟨hx, nodup_toList s⟩)).mpr fun y => ?_
  rw [List.mem_cons]
  exact mem_insert_of_new h

theorem get?_insertAll (s : Keyed key) (l : List α) (k : String) :
    (s.insertAll l).get? k = (s.get? k).or (l.find? fun x => key x == k) := by
  induction l generalizing s with
  | nil => exact (Option.or_none).symm
  | cons x rest ih =>
    show (insertAll (s.insert x) rest).get? k = _
    rw [ih, get?_insert, Option.or_assoc]
    by_cases hk : key x = k <;> simp [hk]

theorem get?_ofList (l : List α) (k : String) : (ofList l : Keyed key).get? k = l.find? fun x => key x == k := by
  rw [ofList, get?_insertAll]
  rfl

/-- The members of a set, changed in all but their keys, are found where they were. -/
theorem get?_ofList_map (f : α → α) (hf : ∀ x, key (f x) = key x) (s : Keyed key) (k : String) :
    (ofList (s.toList.map f) : Keyed key).get? k = (s.get? k).map f := by
  rw [get?_ofList, List.find?_map, get?]
  simp only [Function.comp_def, hf]

theorem mem_ofList {l : List α} {x : α} (h : l.find? (fun y => key y == key x) = some x) : x ∈ (ofList l : Keyed key) := by
  rw [mem_iff_get?, get?_ofList, h]

theorem mem_of_mem_ofList {l : List α} {x : α} (h : x ∈ (ofList l : Keyed key)) : x ∈ l := by
  rw [mem_iff_get?, get?_ofList] at h
  exact List.mem_of_find?_eq_some h

/-- A list of members of a set loses none of them when it is made a set. -/
theorem mem_ofList_iff {t : Keyed key} {l : List α} (hl : ∀ x ∈ l, x ∈ t) {x : α} : x ∈ (ofList l : Keyed key) ↔ x ∈ l := by
  refine ⟨mem_of_mem_ofList, fun hx => mem_ofList ?_⟩
  cases hf : l.find? fun y => key y == key x with
  | none => exact absurd (List.find?_eq_none.mp hf x hx) (by simp)
  | some y =>
    have hid : key y = key x := by simpa using List.find?_some hf
    rw [eq_of_key_eq (hl y (List.mem_of_find?_eq_some hf)) (hl x hx) hid]

/-- The members of a set, put together again, are the set. -/
theorem ofList_toList (s : Keyed key) : ofList s.toList = s :=
  eq_of_forall_mem_iff fun _ => mem_ofList_iff fun _ => id

theorem contains_ofList (l : List α) (k : String) : (ofList l : Keyed key).contains k = l.any fun x => key x == k := by
  rw [contains_eq, get?_ofList, Bool.eq_iff_iff, List.find?_isSome, List.any_eq_true]

/-- Where two sets share a key, the first decides. -/
theorem get?_union (s t : Keyed key) (k : String) : (s.union t).get? k = (s.get? k).or (t.get? k) :=
  get?_insertAll s t.toList k

/-- The members of both sets together: those of the first, and those of the second whose keys the first does not have. -/
theorem mem_union {s t : Keyed key} {x : α} : x ∈ s.union t ↔ x ∈ s ∨ (x ∈ t ∧ s.contains (key x) = false) := by
  rw [mem_iff_get?, get?_union, mem_iff_get?, mem_iff_get?, ← get?_eq_none_iff]
  cases hs : s.get? (key x) with
  | none => simp
  | some y => simp

theorem mem_union_of_disjoint {s t : Keyed key} (h : ∀ x ∈ t, s.contains (key x) = false) {x : α} :
    x ∈ s.union t ↔ x ∈ s ∨ x ∈ t := by
  rw [mem_union]
  exact or_congr_right (and_iff_left_of_imp (h x))

theorem mem_filter {s : Keyed key} {p : α → Bool} {x : α} : x ∈ s.filter p ↔ x ∈ s ∧ p x :=
  List.mem_filter

theorem contains_union (s t : Keyed key) (k : String) : (s.union t).contains k = (s.contains k || t.contains k) := by
  rw [contains_eq, contains_eq, contains_eq, get?_union, Option.isSome_or]

theorem mem_diff {s t : Keyed key} {x : α} : x ∈ s.diff t ↔ x ∈ s ∧ t.contains (key x) = false := by
  rw [diff, mem_filter, Bool.not_eq_true']

theorem diff_self (s : Keyed key) : s.diff s = ∅ := by
  refine eq_empty_of_forall_not_mem fun x hx => ?_
  obtain ⟨hmem, hnot⟩ := mem_diff.mp hx
  rw [contains_of_mem hmem] at hnot
  cases hnot

theorem diff_empty (s : Keyed key) : s.diff ∅ = s :=
  eq_of_forall_mem_iff fun _ => mem_diff.trans (and_iff_left rfl)

theorem get?_filter (s : Keyed key) (p : α → Bool) (k : String) : (s.filter p).get? k = (s.get? k).filter p := by
  ext x
  rw [get?_eq_some_iff, Option.filter_eq_some_iff, get?_eq_some_iff, and_right_comm, ← mem_toList, filter, List.mem_filter]
  rfl

theorem get?_erase (s : Keyed key) (k k' : String) : (s.erase k).get? k' = if k' = k then none else s.get? k' := by
  rw [erase, get?_filter]
  cases hg : s.get? k' with
  | none => simp
  | some x =>
    obtain rfl := key_of_get? hg
    by_cases hk : key x = k <;> simp [hk]

/-- Taking a key away that no member has changes nothing. -/
theorem erase_of_contains_eq_false {s : Keyed key} {k : String} (h : s.contains k = false) : s.erase k = s := by
  refine eq_of_forall_get?_eq fun k' => ?_
  rw [get?_erase]
  split
  · next hk => rw [hk, get?_eq_none_iff.mpr h]
  · rfl

/-- A condition on the keys decides which keys a filter keeps. -/
theorem contains_filter (s : Keyed key) (f : String → Bool) (k : String) :
    (s.filter fun x => f (key x)).contains k = (s.contains k && f k) := by
  rw [contains_eq, get?_filter, contains_eq]
  cases hg : s.get? k with
  | none => rfl
  | some x =>
    rw [Option.filter_some, key_of_get? hg]
    cases f k <;> rfl

theorem get?_diff (s t : Keyed key) (k : String) : (s.diff t).get? k = if (t.get? k).isSome then none else s.get? k := by
  rw [diff, get?_filter, ← contains_eq]
  cases hg : s.get? k with
  | none => simp
  | some x =>
    rw [Option.filter_some, key_of_get? hg]
    cases t.contains k <;> rfl

theorem contains_diff (s t : Keyed key) (k : String) : (s.diff t).contains k = (s.contains k && !t.contains k) :=
  contains_filter s (fun k => !t.contains k) k

/-- A value that is put in place is found; the other keys are as they were. -/
theorem get?_put (s : Keyed key) (x : α) (k : String) : (s.put x).get? k = if key x = k then some x else s.get? k := by
  rw [put, get?_insert, get?_erase]
  by_cases hk : key x = k
  · simp [hk]
  · simp [hk, Ne.symm hk]

/-! ## Operations that commute -/

/-- Values commute when they are inserted, unless they are different values of one key. -/
theorem insert_comm (s : Keyed key) {x y : α} (h : key x = key y → x = y) :
    (s.insert x).insert y = (s.insert y).insert x := by
  refine eq_of_forall_get?_eq fun k => ?_
  simp only [get?_insert, Option.or_assoc]
  by_cases hx : key x = k <;> by_cases hy : key y = k
  · rw [h (hx.trans hy.symm)]
  · simp [hx, hy]
  · simp [hx, hy]
  · simp [hx, hy]

theorem erase_comm (s : Keyed key) (k k' : String) : (s.erase k).erase k' = (s.erase k').erase k := by
  refine eq_of_forall_get?_eq fun i => ?_
  simp only [get?_erase]
  by_cases hk : i = k <;> by_cases hk' : i = k' <;> simp [hk, hk']

/-! ## Disjoint sets -/

/-- Two sets that have no key in common. -/
def Disjoint (s t : Keyed key) : Prop :=
  ∀ k, s.contains k → t.contains k = false

theorem disjoint_iff {s t : Keyed key} : s.Disjoint t ↔ ∀ x ∈ s, t.contains (key x) = false := by
  constructor
  · intro h x hx
    exact h (key x) (contains_of_mem hx)
  · intro h k hk
    obtain ⟨x, hx, rfl⟩ := exists_mem_of_contains hk
    exact h x hx

theorem Disjoint.symm {s t : Keyed key} (h : s.Disjoint t) : t.Disjoint s := by
  intro k ht
  rw [Bool.eq_false_iff]
  intro hs
  rw [h k hs] at ht
  cases ht

/-- A set is what is left of its union with a disjoint one when that is taken away. -/
theorem Disjoint.union_diff {s t : Keyed key} (h : s.Disjoint t) : (s.union t).diff t = s := by
  refine eq_of_forall_mem_iff fun x => ?_
  rw [mem_diff, mem_union]
  constructor
  · rintro ⟨hx | ⟨hx, -⟩, hnot⟩
    · exact hx
    · rw [contains_of_mem hx] at hnot
      cases hnot
  · intro hx
    exact ⟨Or.inl hx, disjoint_iff.mp h x hx⟩

theorem Disjoint.filter {s t : Keyed key} (h : s.Disjoint t) (p q : α → Bool) : (s.filter p).Disjoint (t.filter q) := by
  refine disjoint_iff.mpr fun x hx => contains_eq_false_iff.mpr fun y hy => ?_
  exact contains_eq_false_iff.mp (disjoint_iff.mp h x (mem_filter.mp hx).1) y (mem_filter.mp hy).1

theorem mem_keys_iff {s : Keyed key} {k : String} : k ∈ s.keys ↔ s.contains k := by
  simp [keys, contains]

/-- The keys of several sets are all different when no two of the sets share a key. -/
theorem nodup_flatMap_keys_iff {l : List (Keyed key)} : (l.flatMap keys).Nodup ↔ l.Pairwise Disjoint := by
  induction l with
  | nil => simp
  | cons s rest ih =>
    rw [List.flatMap_cons, List.nodup_append, List.pairwise_cons, ih]
    constructor
    · rintro ⟨-, hrest, hne⟩
      refine ⟨fun t ht k hk => Bool.eq_false_iff.mpr fun hkt => ?_, hrest⟩
      exact hne k (mem_keys_iff.mpr hk) k (List.mem_flatMap.mpr ⟨t, ht, mem_keys_iff.mpr hkt⟩) rfl
    · rintro ⟨hs, hrest⟩
      refine ⟨nodup_keys s, hrest, ?_⟩
      rintro k hk _ hk' rfl
      obtain ⟨t, ht, hkt⟩ := List.mem_flatMap.mp hk'
      rw [mem_keys_iff, hs t ht k (mem_keys_iff.mp hk)] at hkt
      cases hkt

theorem eq_empty_of_isEmpty {s : Keyed key} (h : s.isEmpty) : s = ∅ :=
  Keyed.ext (List.isEmpty_iff.mp h)

end AddonPlanner.Keyed
