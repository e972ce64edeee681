import AddonPlanner.Proofs.Plan.Order
import AddonPlanner.Proofs.Plan.WellFormed

/-!
# What comes in, and why

The edits of a walk are told by what the walked package needs (`install_mem_walkEdits`, `exchange_mem_walkEdits`). Edits only add
to the installs and the updates, so what stands there in the end are their entries: after the walks those of the packages that
were asked for, and after the rescues those of all walked packages together with the rescuers (`mem_installs_rescued_iff`,
`mem_updates_rescued_iff`).
-/

namespace AddonPlanner

/-! ## Entries of edits -/

namespace Changes

theorem mem_installs_edit {c : Changes} {e : Edit} {x : Package} (hx : x ∈ (c.edit e).installs) :
    x ∈ c.installs ∨ e = .install x := by
  cases e with
  | install p =>
    rcases Keyed.mem_of_mem_insert hx with rfl | hx
    · exact Or.inr rfl
    · exact Or.inl hx
  | exchange present p => exact Or.inl hx
  | spare id => exact Or.inl hx

theorem mem_updates_edit {c : Changes} {e : Edit} {x : Package} (hx : x ∈ (c.edit e).updates) :
    x ∈ c.updates ∨ ∃ present, e = .exchange present x := by
  cases e with
  | install p => exact Or.inl hx
  | exchange present p =>
    rcases Keyed.mem_of_mem_insert hx with rfl | hx
    · exact Or.inr ⟨present, rfl⟩
    · exact Or.inl hx
  | spare id => exact Or.inl hx

/-- What holds after edits held before, or one of them brought it about. -/
theorem foldl_edit_or {P : Changes → Prop} {Q : Edit → Prop} (hedit : ∀ c e, P (edit c e) → P c ∨ Q e) {l : List Edit}
    {c : Changes} (h : P (l.foldl edit c)) : P c ∨ ∃ e ∈ l, Q e := by
  induction l generalizing c with
  | nil => exact Or.inl h
  | cons e rest ih =>
    rcases ih h with h | ⟨e', he', hQ⟩
    · refine (hedit c e h).imp_right ?_
      intro hQ
      exact ⟨e, List.mem_cons_self, hQ⟩
    · exact Or.inr ⟨e', List.mem_cons_of_mem _ he', hQ⟩

theorem mem_installs_foldl_edit {l : List Edit} {c : Changes} {x : Package} (hx : x ∈ (l.foldl edit c).installs) :
    x ∈ c.installs ∨ .install x ∈ l := by
  rcases foldl_edit_or (P := fun d => x ∈ d.installs) (fun _ _ => mem_installs_edit) hx with hx | ⟨e, he, rfl⟩
  · exact Or.inl hx
  · exact Or.inr he

theorem mem_updates_foldl_edit {l : List Edit} {c : Changes} {x : Package} (hx : x ∈ (l.foldl edit c).updates) :
    x ∈ c.updates ∨ ∃ present, .exchange present x ∈ l := by
  rcases foldl_edit_or (P := fun d => x ∈ d.updates) (fun _ _ => mem_updates_edit) hx with hx | ⟨e, he, present, rfl⟩
  · exact Or.inl hx
  · exact Or.inr ⟨present, he⟩

end Changes

/-! ## Edits that are made -/

/-- An edit has been made in changes when there is an entry for all that it puts in place or replaces, and none for what it
spares. -/
def Edit.Made (c : Changes) : Edit → Prop
  | install p => c.installs.contains p.id
  | exchange present p => c.replaced.contains present.id ∧ c.updates.contains p.id
  | spare id => c.removals.contains id = false

namespace Changes

theorem made_edit (c : Changes) (e : Edit) : e.Made (c.edit e) := by
  cases e with
  | install p =>
    show (c.installs.insert p).contains p.id
    rw [Keyed.contains_insert, beq_self_eq_true, Bool.true_or]
  | exchange present p =>
    constructor
    · show (c.replaced.insert present).contains present.id
      rw [Keyed.contains_insert, beq_self_eq_true, Bool.true_or]
    · show (c.updates.insert p).contains p.id
      rw [Keyed.contains_insert, beq_self_eq_true, Bool.true_or]
  | spare id =>
    show (c.removals.erase id).contains id = false
    rw [← Keyed.get?_eq_none_iff, Keyed.get?_erase, if_pos rfl]

end Changes

/-- No edit takes another one back. -/
theorem Edit.Made.edit {c : Changes} {e : Edit} (h : e.Made c) (e' : Edit) : e.Made (c.edit e') := by
  have hinsert : ∀ (s : PackageSet) (x : Package) (k : String), s.contains k → (s.insert x).contains k := by
    intro s x k hk
    rw [Keyed.contains_insert, hk, Bool.or_true]
  cases e' with
  | install q =>
    cases e with
    | install p => exact hinsert _ _ _ h
    | exchange present p => exact h
    | spare id => exact h
  | exchange present' q =>
    cases e with
    | install p => exact h
    | exchange present p => exact ⟨hinsert _ _ _ h.1, hinsert _ _ _ h.2⟩
    | spare id => exact h
  | spare k =>
    cases e with
    | install p => exact h
    | exchange present p => exact h
    | spare id =>
      show (c.removals.erase k).contains id = false
      rw [← Keyed.get?_eq_none_iff, Keyed.get?_erase]
      split
      · rfl
      · exact Keyed.get?_eq_none_iff.mpr h

namespace Changes

theorem made_foldl_edit_of_made {l : List Edit} {c : Changes} {e : Edit} (h : e.Made c) : e.Made (l.foldl edit c) :=
  List.foldlRecOn (motive := e.Made) l edit h fun _ hd e' _ => hd.edit e'

/-- The edits of a list have been made in the end. -/
theorem made_foldl_edit {l : List Edit} {c : Changes} {e : Edit} (he : e ∈ l) : e.Made (l.foldl edit c) := by
  obtain ⟨earlier, later, rfl⟩ := List.append_of_mem he
  rw [List.foldl_append, List.foldl_cons]
  exact made_foldl_edit_of_made (made_edit _ e)

end Changes

namespace Planner

variable {pl : Planner} {goal : Goal} {selected : PackageSet}

/-! ## Edits of a walk -/

theorem mem_provision_iff {walked : Resolution} {p : Package} {e : Edit} :
    e ∈ pl.provision selected walked p ↔
      selected.contains p.id = false ∧ pl.catalog.statusOf p = .available ∧
        ((pl.catalog.installed.get? p.id = none ∧ e = .install p) ∨
          ∃ present, pl.catalog.installed.get? p.id = some present ∧
            (∃ b, walked.boundsFor? p.id = some b ∧ b.contains present.version = false) ∧ e = .exchange present p) := by
  unfold provision
  split
  · next h =>
    simp only [Bool.or_eq_true, bne_iff_ne] at h
    refine iff_of_false List.not_mem_nil fun ⟨hsel, hst, _⟩ => ?_
    rw [hsel, hst] at h
    simp at h
  · next h =>
    simp only [Bool.or_eq_true, bne_iff_ne, not_or, Bool.not_eq_true, Decidable.not_not] at h
    obtain ⟨hsel, hst⟩ := h
    cases hinst : pl.catalog.installed.get? p.id with
    | none => simp [hsel, hst]
    | some present =>
      cases hb : walked.boundsFor? p.id with
      | none => simp
      | some b => cases hv : b.contains present.version <;> simp [hsel, hst, hv]

/-- A walk installs what the package needs, when it was not asked for, can be fetched and is absent. -/
theorem install_mem_walkEdits {w x : Package} :
    .install x ∈ pl.walkEdits selected w ↔
      x ∈ pl.needs w ∧ selected.contains x.id = false ∧ pl.catalog.statusOf x = .available ∧
        pl.catalog.installed.get? x.id = none := by
  unfold walkEdits
  rw [List.mem_flatMap]
  constructor
  · rintro ⟨d, hd, he⟩
    obtain ⟨hsel, hst, ⟨hinst, heq⟩ | ⟨present, -, -, heq⟩⟩ := mem_provision_iff.mp he
    · obtain rfl := Edit.install.inj heq
      exact ⟨hd, hsel, hst, hinst⟩
    · cases heq
  · rintro ⟨hx, hsel, hst, hinst⟩
    exact ⟨x, hx, mem_provision_iff.mpr ⟨hsel, hst, Or.inl ⟨hinst, rfl⟩⟩⟩

/-- A walk exchanges what the package needs, when it was not asked for, can be fetched and is installed at a version that the
bounds in force exclude. -/
theorem exchange_mem_walkEdits {w present x : Package} :
    .exchange present x ∈ pl.walkEdits selected w ↔
      x ∈ pl.needs w ∧ selected.contains x.id = false ∧ pl.catalog.statusOf x = .available ∧
        pl.catalog.installed.get? x.id = some present ∧
        ∃ b, (w.resolution pl.catalog.available pl.host).boundsFor? x.id = some b ∧ b.contains present.version = false := by
  unfold walkEdits
  rw [List.mem_flatMap]
  constructor
  · rintro ⟨d, hd, he⟩
    obtain ⟨hsel, hst, ⟨-, heq⟩ | ⟨present', hinst, hb, heq⟩⟩ := mem_provision_iff.mp he
    · cases heq
    · obtain ⟨rfl, rfl⟩ := Edit.exchange.inj heq
      exact ⟨hd, hsel, hst, hinst, hb⟩
  · rintro ⟨hx, hsel, hst, hinst, hb⟩
    exact ⟨x, hx, mem_provision_iff.mpr ⟨hsel, hst, Or.inr ⟨present, hinst, hb, rfl⟩⟩⟩

/-! ## From edits to changes -/

/-- A dependency that was not asked for, can be fetched and has no accepted installed version comes in once it is seen to. -/
theorem Supplied.mem_brought {c : Changes} (h : ({} : Changes).Extends pl selected (pl.Draws goal selected) c) {w x : Package}
    (hs : pl.Supplied selected (w.resolution pl.catalog.available pl.host) c x) (hx : x ∈ pl.needs w)
    (hsel : selected.contains x.id = false) (hst : pl.catalog.statusOf x = .available)
    (hout : ∀ present ∈ pl.catalog.installed, present.id = x.id →
      ((w.resolution pl.catalog.available pl.host).boundsFor? x.id).all (·.contains present.version) = false) :
    x ∈ c.brought := by
  rcases hs with hc | hne | hbrought | ⟨present, hpresent, hid, hin⟩
  · rw [hsel] at hc
    cases hc
  · exact absurd hst hne
  · obtain ⟨y, hy, hid⟩ := Keyed.exists_mem_of_contains hbrought
    obtain ⟨hdraws, hysel⟩ := h.of_mem_brought hy
    rwa [← Keyed.eq_of_key_eq (mem_available_of_draws hdraws hysel) (Package.mem_of_mem_dependencies hx) hid]
  · rw [hout present hpresent hid] at hin
    cases hin

theorem mem_installs_of_supplied {c : Changes} (h : ({} : Changes).Extends pl selected (pl.Draws goal selected) c)
    {w x : Package} (he : .install x ∈ pl.walkEdits selected w)
    (hs : ∀ d ∈ pl.needs w, pl.Supplied selected (w.resolution pl.catalog.available pl.host) c d) : x ∈ c.installs := by
  obtain ⟨hx, hsel, hst, hinst⟩ := install_mem_walkEdits.mp he
  have habsent := Keyed.get?_eq_none_iff.mp hinst
  have hbrought := (hs x hx).mem_brought h hx hsel hst fun present hpresent hid =>
    absurd hid (Keyed.contains_eq_false_iff.mp habsent present hpresent)
  refine (h.mem_brought.mp hbrought).resolve_right fun hupdate => ?_
  obtain ⟨-, -, hpresent⟩ := (h.of_mem_updates x hupdate).resolve_left List.not_mem_nil
  rw [habsent] at hpresent
  cases hpresent

theorem mem_updates_of_supplied {c : Changes} (h : ({} : Changes).Extends pl selected (pl.Draws goal selected) c)
    {w present x : Package} (he : .exchange present x ∈ pl.walkEdits selected w)
    (hs : ∀ d ∈ pl.needs w, pl.Supplied selected (w.resolution pl.catalog.available pl.host) c d) : x ∈ c.updates := by
  obtain ⟨hx, hsel, hst, hinst, b, hb, hout⟩ := exchange_mem_walkEdits.mp he
  obtain ⟨hpresent, hid⟩ := Keyed.get?_eq_some_iff.mp hinst
  have hbrought := (hs x hx).mem_brought h hx hsel hst fun present' hpresent' hid' => by
    rw [Keyed.eq_of_key_eq hpresent' hpresent (hid'.trans hid.symm), hb, Option.all_some, hout]
  refine (h.mem_brought.mp hbrought).resolve_left fun hinstall => ?_
  obtain ⟨-, -, habsent⟩ := (h.of_mem_installs x hinstall).resolve_left List.not_mem_nil
  exact Keyed.contains_eq_false_iff.mp habsent present hpresent hid

/-! ## After the walks and after the rescues -/

theorem mem_installs_walked_iff {x : Package} :
    x ∈ (pl.walked goal selected).installs ↔ ∃ w ∈ selected, .install x ∈ pl.walkEdits selected w := by
  constructor
  · intro hx
    rw [walked, Changes.foldl_eq_foldl_edit walk_eq_foldl] at hx
    have hseed : x ∉ (pl.seed goal selected).installs := by
      cases goal <;> exact List.not_mem_nil
    exact List.mem_flatMap.mp ((Changes.mem_installs_foldl_edit hx).resolve_left hseed)
  · rintro ⟨w, hw, he⟩
    exact mem_installs_of_supplied (extends_walked goal) he fun d hd => supplied_walked hw hd

theorem mem_updates_walked_iff {x : Package} :
    x ∈ (pl.walked goal selected).updates ↔ ∃ w ∈ selected, ∃ present, .exchange present x ∈ pl.walkEdits selected w := by
  constructor
  · intro hx
    rw [walked, Changes.foldl_eq_foldl_edit walk_eq_foldl] at hx
    have hseed : x ∉ (pl.seed goal selected).updates := by
      cases goal <;> exact List.not_mem_nil
    obtain ⟨present, he⟩ := (Changes.mem_updates_foldl_edit hx).resolve_left hseed
    obtain ⟨w, hw, he⟩ := List.mem_flatMap.mp he
    exact ⟨w, hw, present, he⟩
  · rintro ⟨w, hw, present, he⟩
    exact mem_updates_of_supplied (extends_walked goal) he fun d hd => supplied_walked hw hd

/-- The edits of a rescue are the exchange for the rescuer and those of its walk; besides, the removal is called off. -/
theorem mem_rescueEdits {p : Package} {e : Edit} :
    e ∈ pl.rescueEdits selected p ↔
      ∃ q, pl.rescuer? p = some q ∧ (e = .spare p.id ∨ e = .exchange p q ∨ e ∈ pl.walkEdits selected q) := by
  unfold rescueEdits
  cases pl.rescuer? p with
  | none => simp
  | some q => simp

/-- A rescuer comes in as an update. -/
theorem mem_updates_of_rescuer {p q : Package} (hp : p ∈ pl.breaking selected (pl.walked goal selected))
    (hq : pl.rescuer? p = some q) : q ∈ (pl.rescued goal selected).updates := by
  obtain ⟨hqmem, hqid, -⟩ := rescuer?_eq_some hq
  obtain ⟨u, hu, huid⟩ := Keyed.exists_mem_of_contains (contains_updates_rescued hp hq)
  have humem := Keyed.mem_of_get? (mem_updates_rescued hu).1
  rwa [← Keyed.eq_of_key_eq humem hqmem (huid.trans hqid.symm)]

/-- What is installed unasked in the end is what some walk installs. -/
theorem mem_installs_rescued_iff {x : Package} :
    x ∈ (pl.rescued goal selected).installs ↔ ∃ w, pl.Walks goal selected w ∧ .install x ∈ pl.walkEdits selected w := by
  constructor
  · intro hx
    rw [rescued, Changes.foldl_eq_foldl_edit rescue_eq_foldl] at hx
    rcases Changes.mem_installs_foldl_edit hx with hx | he
    · obtain ⟨w, hw, he⟩ := mem_installs_walked_iff.mp hx
      exact ⟨w, Or.inl hw, he⟩
    · obtain ⟨p, hp, he⟩ := List.mem_flatMap.mp he
      obtain ⟨q, hq, heq | heq | he⟩ := mem_rescueEdits.mp he
      · cases heq
      · cases heq
      · exact ⟨q, Or.inr ⟨p, hp, hq⟩, he⟩
  · rintro ⟨w, hw, he⟩
    exact mem_installs_of_supplied extends_plan he fun d hd => supplied_rescued hw hd

/-- What is updated unasked in the end is a rescuer or what some walk exchanges. -/
theorem mem_updates_rescued_iff {x : Package} :
    x ∈ (pl.rescued goal selected).updates ↔
      (∃ p ∈ pl.breaking selected (pl.walked goal selected), pl.rescuer? p = some x) ∨
        ∃ w, pl.Walks goal selected w ∧ ∃ present, .exchange present x ∈ pl.walkEdits selected w := by
  constructor
  · intro hx
    rw [rescued, Changes.foldl_eq_foldl_edit rescue_eq_foldl] at hx
    rcases Changes.mem_updates_foldl_edit hx with hx | ⟨present, he⟩
    · obtain ⟨w, hw, he⟩ := mem_updates_walked_iff.mp hx
      exact Or.inr ⟨w, Or.inl hw, he⟩
    · obtain ⟨p, hp, he⟩ := List.mem_flatMap.mp he
      obtain ⟨q, hq, heq | heq | he⟩ := mem_rescueEdits.mp he
      · cases heq
      · obtain ⟨-, rfl⟩ := Edit.exchange.inj heq
        exact Or.inl ⟨p, hp, hq⟩
      · exact Or.inr ⟨q, Or.inr ⟨p, hp, hq⟩, present, he⟩
  · rintro (⟨p, hp, hq⟩ | ⟨w, hw, present, he⟩)
    · exact mem_updates_of_rescuer hp hq
    · exact mem_updates_of_supplied extends_plan he fun d hd => supplied_rescued hw hd

/-! ## In the plan -/

theorem mem_installs_plan_iff {x : Package} :
    x ∈ (pl.plan goal selected).installs ↔ (goal = .install ∧ x ∈ selected) ∨ x ∈ (pl.rescued goal selected).installs := by
  refine ⟨mem_installs_plan, ?_⟩
  rintro (⟨rfl, hx⟩ | hx)
  · exact Keyed.mem_union.mpr (Or.inr ⟨hx, disjoint_installs_selected.symm x.id (Keyed.contains_of_mem hx)⟩)
  · cases goal with
    | install => exact Keyed.mem_union.mpr (Or.inl hx)
    | update => exact hx

theorem mem_updates_plan_iff {x : Package} :
    x ∈ (pl.plan goal selected).updates ↔ (goal = .update ∧ x ∈ selected) ∨ x ∈ (pl.rescued goal selected).updates := by
  refine ⟨mem_updates_plan, ?_⟩
  rintro (⟨rfl, hx⟩ | hx)
  · exact Keyed.mem_union.mpr (Or.inr ⟨hx, disjoint_updates_selected.symm x.id (Keyed.contains_of_mem hx)⟩)
  · cases goal with
    | install => exact hx
    | update => exact Keyed.mem_union.mpr (Or.inl hx)

end Planner

end AddonPlanner
