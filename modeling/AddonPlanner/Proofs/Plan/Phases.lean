import AddonPlanner.Plan
import AddonPlanner.Proofs.Resolution.Search

/-!
# The phases of a plan

A plan is made in two phases: what was asked for is walked, and then what would break is rescued, which walks the rescuers too.
Neither phase takes back what an earlier step brought in (`extends_walked`, `extends_rescued`), and in the end each dependency
of a walked package is seen to (`supplied_rescued`). What would break and has a rescuer is updated (`contains_updates_rescued`);
the rest is what is still to be removed (`mem_removals_rescued`).
-/

namespace AddonPlanner

/-! ## Changes that extend others -/

namespace Changes

/-- The packages that changes bring in. -/
def brought (c : Changes) : PackageSet :=
  c.installs.union c.updates

theorem contains_brought (c : Changes) (k : String) : c.brought.contains k = (c.installs.contains k || c.updates.contains k) :=
  Keyed.contains_union _ _ k

theorem get?_brought (c : Changes) (k : String) : c.brought.get? k = (c.installs.get? k).or (c.updates.get? k) :=
  Keyed.get?_union _ _ k

/-- Changes extend others when they bring in all that the others do, and besides that only packages of a kind that were not
asked for: as installs if the host lacks them, as updates if it has a version of them. -/
structure Extends (pl : Planner) (selected : PackageSet) (P : Package → Prop) (c d : Changes) : Prop where
  installs : ∀ x ∈ c.installs, x ∈ d.installs
  updates : ∀ x ∈ c.updates, x ∈ d.updates
  of_mem_installs : ∀ x ∈ d.installs,
    x ∈ c.installs ∨ (P x ∧ selected.contains x.id = false ∧ pl.catalog.installed.contains x.id = false)
  of_mem_updates : ∀ x ∈ d.updates,
    x ∈ c.updates ∨ (P x ∧ selected.contains x.id = false ∧ pl.catalog.installed.contains x.id)

variable {pl : Planner} {selected : PackageSet} {P Q : Package → Prop} {c d e : Changes}

theorem Extends.refl (c : Changes) : c.Extends pl selected P c :=
  ⟨fun _ => id, fun _ => id, fun _ => Or.inl, fun _ => Or.inl⟩

theorem Extends.trans (h : c.Extends pl selected P d) (h' : d.Extends pl selected P e) : c.Extends pl selected P e := by
  refine ⟨fun x hx => h'.installs x (h.installs x hx), fun x hx => h'.updates x (h.updates x hx), fun x hx => ?_, fun x hx => ?_⟩
  · rcases h'.of_mem_installs x hx with hx | hx
    · exact h.of_mem_installs x hx
    · exact Or.inr hx
  · rcases h'.of_mem_updates x hx with hx | hx
    · exact h.of_mem_updates x hx
    · exact Or.inr hx

theorem Extends.mono (hPQ : ∀ x, P x → Q x) (h : c.Extends pl selected P d) : c.Extends pl selected Q d :=
  ⟨h.installs, h.updates, fun x hx => (h.of_mem_installs x hx).imp_right (And.imp_left (hPQ x)),
    fun x hx => (h.of_mem_updates x hx).imp_right (And.imp_left (hPQ x))⟩

theorem Extends.contains_updates (h : c.Extends pl selected P d) {k : String} (hk : c.updates.contains k) :
    d.updates.contains k := by
  obtain ⟨x, hx, rfl⟩ := Keyed.exists_mem_of_contains hk
  exact Keyed.contains_of_mem (h.updates x hx)

theorem Extends.contains_brought (h : c.Extends pl selected P d) {k : String} (hk : c.brought.contains k) :
    d.brought.contains k := by
  rw [Changes.contains_brought, Bool.or_eq_true] at hk ⊢
  refine hk.imp (fun hk => ?_) h.contains_updates
  obtain ⟨x, hx, rfl⟩ := Keyed.exists_mem_of_contains hk
  exact Keyed.contains_of_mem (h.installs x hx)

/-- A sequence of steps that extend the changes extends them. -/
theorem Extends.foldl {f : Changes → Package → Changes} {l : List Package}
    (hf : ∀ c : Changes, ∀ p ∈ l, c.Extends pl selected P (f c p)) (c : Changes) : c.Extends pl selected P (l.foldl f c) := by
  induction l generalizing c with
  | nil => exact .refl c
  | cons p rest ih =>
    exact (hf c p List.mem_cons_self).trans (ih (fun c q hq => hf c q (List.mem_cons_of_mem _ hq)) (f c p))

/-- What the step for a member of a list establishes holds after the whole list, when extensions keep it. -/
theorem Extends.established {f : Changes → Package → Changes} {l : List Package} {E : Changes → Package → Prop}
    (hf : ∀ c : Changes, ∀ p ∈ l, c.Extends pl selected P (f c p)) (hE : ∀ c : Changes, ∀ p ∈ l, E (f c p) p)
    (hkeep : ∀ (c d : Changes) p, c.Extends pl selected P d → E c p → E d p) (c : Changes) : ∀ p ∈ l, E (l.foldl f c) p := by
  induction l generalizing c with
  | nil => exact fun p hp => absurd hp List.not_mem_nil
  | cons q rest ih =>
    have hrest : ∀ c : Changes, ∀ p ∈ rest, c.Extends pl selected P (f c p) := fun c p hp => hf c p (List.mem_cons_of_mem _ hp)
    intro p hp
    rcases List.mem_cons.mp hp with rfl | hp
    · exact hkeep _ _ p (Extends.foldl hrest (f c p)) (hE c p List.mem_cons_self)
    · exact ih hrest (fun c p hp => hE c p (List.mem_cons_of_mem _ hp)) (f c q) p hp

/-- Packages that are added to no changes at all come in as installs or as updates, never as both. -/
theorem Extends.contains_installs (h : ({} : Changes).Extends pl selected P c) {x : Package} (hx : x ∈ c.updates) :
    c.installs.contains x.id = false := by
  obtain ⟨-, -, hpresent⟩ := (h.of_mem_updates x hx).resolve_left List.not_mem_nil
  refine Keyed.contains_eq_false_iff.mpr fun y hy hid => ?_
  obtain ⟨-, -, habsent⟩ := (h.of_mem_installs y hy).resolve_left List.not_mem_nil
  rw [hid, hpresent] at habsent
  cases habsent

theorem Extends.mem_brought (h : ({} : Changes).Extends pl selected P c) {x : Package} :
    x ∈ c.brought ↔ x ∈ c.installs ∨ x ∈ c.updates :=
  Keyed.mem_union_of_disjoint fun _ hy => h.contains_installs hy

/-- Nothing that is added to no changes at all was asked for. -/
theorem Extends.of_mem_brought (h : ({} : Changes).Extends pl selected P c) {x : Package} (hx : x ∈ c.brought) :
    P x ∧ selected.contains x.id = false := by
  rcases h.mem_brought.mp hx with hx | hx
  · obtain ⟨hP, hsel, -⟩ := (h.of_mem_installs x hx).resolve_left List.not_mem_nil
    exact ⟨hP, hsel⟩
  · obtain ⟨hP, hsel, -⟩ := (h.of_mem_updates x hx).resolve_left List.not_mem_nil
    exact ⟨hP, hsel⟩

end Changes

namespace Planner

variable {pl : Planner} {selected : PackageSet}

/-! ## Walks -/

/-- What a package depends on among the available ones; a walk of the package provides for it. -/
def needs (pl : Planner) (w : Package) : PackageSet :=
  (w.resolution pl.catalog.available pl.host).dependencies

/-- A dependency that a walk is seen to: it was asked for, cannot be fetched, comes in, or has an installed version that the walk
accepts. -/
def Supplied (pl : Planner) (selected : PackageSet) (walked : Resolution) (c : Changes) (d : Package) : Prop :=
  selected.contains d.id ∨ pl.catalog.statusOf d ≠ .available ∨ c.brought.contains d.id ∨
    ∃ present ∈ pl.catalog.installed, present.id = d.id ∧ (walked.boundsFor? d.id).all (·.contains present.version)

theorem Supplied.of_extends {walked : Resolution} {c c' : Changes} {d : Package} {P : Package → Prop}
    (h : pl.Supplied selected walked c d) (hc : c.Extends pl selected P c') : pl.Supplied selected walked c' d :=
  h.imp_right (Or.imp_right (Or.imp_left hc.contains_brought))

/-- Providing for a package brings in that package or nothing, leaves the removals alone, and sees to the package. -/
theorem provide_spec (walked : Resolution) (c : Changes) (p : Package) :
    c.Extends pl selected (· = p) (pl.provide selected walked c p) ∧
      (pl.provide selected walked c p).removals = c.removals ∧
      pl.Supplied selected walked (pl.provide selected walked c p) p := by
  unfold provide
  split
  · next h =>
    refine ⟨.refl c, rfl, ?_⟩
    rcases Bool.or_eq_true_iff.mp h with h | h
    · exact Or.inl h
    · exact Or.inr (Or.inl (by simpa using h))
  · next h =>
    have hsel : selected.contains p.id = false := by simp only [Bool.or_eq_true, not_or] at h; simpa using h.1
    split
    · next hnone =>
      refine ⟨⟨fun x hx => Keyed.mem_insert_of_mem hx, fun _ => id, fun x hx => ?_, fun _ => Or.inl⟩, rfl, ?_⟩
      · rcases Keyed.mem_of_mem_insert hx with rfl | hx
        · exact Or.inr ⟨rfl, hsel, Keyed.get?_eq_none_iff.mp hnone⟩
        · exact Or.inl hx
      · refine Or.inr (Or.inr (Or.inl ?_))
        rw [Changes.contains_brought, Keyed.contains_insert, beq_self_eq_true, Bool.true_or, Bool.true_or]
    · next present hpresent =>
      split
      · next hb =>
        exact ⟨.refl c, rfl, Or.inr (Or.inr (Or.inr ⟨present, Keyed.mem_of_get? hpresent, Keyed.key_of_get? hpresent, hb⟩))⟩
      · refine ⟨⟨fun _ => id, fun x hx => Keyed.mem_insert_of_mem hx, fun _ => Or.inl, fun x hx => ?_⟩, rfl, ?_⟩
        · rcases Keyed.mem_of_mem_insert hx with rfl | hx
          · refine Or.inr ⟨rfl, hsel, ?_⟩
            rw [Keyed.contains_eq, hpresent, Option.isSome_some]
          · exact Or.inl hx
        · refine Or.inr (Or.inr (Or.inl ?_))
          rw [Changes.contains_brought, Keyed.contains_insert, beq_self_eq_true, Bool.true_or, Bool.or_true]

theorem extends_provide_of_mem {l : List Package} (walked : Resolution) (c : Changes) (p : Package) (hp : p ∈ l) :
    c.Extends pl selected (· ∈ l) (pl.provide selected walked c p) :=
  (provide_spec walked c p).1.mono fun _ hx => by rwa [hx]

/-- A walk brings in nothing but what the package needs. -/
theorem extends_walk (c : Changes) (w : Package) : c.Extends pl selected (· ∈ pl.needs w) (pl.walk selected c w) :=
  Changes.Extends.foldl (extends_provide_of_mem _) c

/-- A walk sees to everything that the package needs. -/
theorem supplied_walk (c : Changes) (w : Package) :
    ∀ d ∈ pl.needs w, pl.Supplied selected (w.resolution pl.catalog.available pl.host) (pl.walk selected c w) d :=
  Changes.Extends.established (E := fun c d => pl.Supplied selected (w.resolution pl.catalog.available pl.host) c d)
    (extends_provide_of_mem _) (fun c d _ => (provide_spec _ c d).2.2) (fun _ _ _ hc h => h.of_extends hc) c

/-- A walk leaves the removals alone. -/
theorem removals_walk (c : Changes) (w : Package) : (pl.walk selected c w).removals = c.removals := by
  unfold walk
  refine List.foldlRecOn (motive := fun d : Changes => d.removals = c.removals) _ _ rfl fun d hd p _ => ?_
  rw [(provide_spec _ d p).2.1, hd]

/-! ## Rescues -/

/-- A rescuer is an available version of the package, and it is sound among the available packages. -/
theorem rescuer?_eq_some {p q : Package} (h : pl.rescuer? p = some q) :
    q ∈ pl.catalog.available ∧ q.id = p.id ∧ q.Sound pl.catalog.available := by
  unfold rescuer? at h
  split at h
  · next found hfound =>
    split at h
    · cases h
    · next hc =>
      obtain rfl := Option.some.inj h
      simp only [Bool.or_eq_true, not_or, Bool.not_eq_true] at hc
      exact ⟨Keyed.mem_of_get? hfound, Keyed.key_of_get? hfound, isBroken_eq_false_iff.mp hc.2⟩
  · cases h

theorem rescue_of_eq_none (c : Changes) {p : Package} (h : pl.rescuer? p = none) : pl.rescue selected c p = c := by
  rw [rescue, h]

theorem rescue_of_eq_some (c : Changes) {p q : Package} (h : pl.rescuer? p = some q) :
    pl.rescue selected c p = pl.walk selected { c with
      removals := c.removals.erase p.id, replaced := c.replaced.insert p, updates := c.updates.insert q } q := by
  rw [rescue, h]

/-- Rescuing an installed package brings in nothing but the rescuer and what the rescuer needs. -/
theorem extends_rescue (c : Changes) {p : Package} (hp : p ∈ pl.catalog.installed) (hsel : selected.contains p.id = false) :
    c.Extends pl selected (fun x => ∃ q, pl.rescuer? p = some q ∧ (x = q ∨ x ∈ pl.needs q)) (pl.rescue selected c p) := by
  cases hq : pl.rescuer? p with
  | none =>
    rw [rescue_of_eq_none c hq]
    exact .refl c
  | some q =>
    have hid := (rescuer?_eq_some hq).2.1
    have hupdate : c.Extends pl selected (fun x => ∃ q', some q = some q' ∧ (x = q' ∨ x ∈ pl.needs q')) { c with
        removals := c.removals.erase p.id, replaced := c.replaced.insert p, updates := c.updates.insert q } := by
      refine ⟨fun _ => id, fun x hx => Keyed.mem_insert_of_mem hx, fun _ => Or.inl, fun x hx => ?_⟩
      rcases Keyed.mem_of_mem_insert hx with rfl | hx
      · exact Or.inr ⟨⟨x, rfl, Or.inl rfl⟩, by rw [hid]; exact hsel, by rw [hid]; exact Keyed.contains_of_mem hp⟩
      · exact Or.inl hx
    rw [rescue_of_eq_some c hq]
    exact hupdate.trans ((extends_walk _ q).mono fun x hx => ⟨q, rfl, Or.inr hx⟩)

/-- A rescue sees to everything that the rescuer needs, and has an update of the package that is rescued. -/
theorem supplied_rescue (c : Changes) {p q : Package} (hq : pl.rescuer? p = some q) :
    (∀ d ∈ pl.needs q, pl.Supplied selected (q.resolution pl.catalog.available pl.host) (pl.rescue selected c p) d) ∧
      (pl.rescue selected c p).updates.contains p.id := by
  rw [rescue_of_eq_some c hq]
  refine ⟨supplied_walk _ q, (extends_walk _ q).contains_updates ?_⟩
  rw [Keyed.contains_insert, (rescuer?_eq_some hq).2.1, beq_self_eq_true, Bool.true_or]

/-- A rescue takes the package from the removals if there is a rescuer. -/
theorem mem_removals_rescue (c : Changes) (p x : Package) :
    x ∈ (pl.rescue selected c p).removals ↔ x ∈ c.removals ∧ (pl.rescuer? p = none ∨ x.id ≠ p.id) := by
  cases hq : pl.rescuer? p with
  | none => simp [rescue_of_eq_none c hq]
  | some q =>
    rw [rescue_of_eq_some c hq, removals_walk, Keyed.erase, Keyed.mem_filter]
    simp

/-! ## Phases -/

/-- The changes when all that was asked for has been walked. -/
def walked (pl : Planner) (goal : Goal) (selected : PackageSet) : Changes :=
  selected.toList.foldl (pl.walk selected) (pl.seed goal selected)

/-- The changes when all that can be rescued has been rescued. -/
def rescued (pl : Planner) (goal : Goal) (selected : PackageSet) : Changes :=
  let walked := pl.walked goal selected
  (pl.breaking selected walked).toList.foldl (pl.rescue selected) { walked with removals := pl.breaking selected walked }

/-- The packages that are walked: those asked for, and the rescuers. -/
def Walks (pl : Planner) (goal : Goal) (selected : PackageSet) (w : Package) : Prop :=
  w ∈ selected ∨ ∃ p ∈ pl.breaking selected (pl.walked goal selected), pl.rescuer? p = some w

/-- The packages that walks touch: the walked ones and what they need. -/
def Draws (pl : Planner) (goal : Goal) (selected : PackageSet) (x : Package) : Prop :=
  ∃ w, pl.Walks goal selected w ∧ (x = w ∨ x ∈ pl.needs w)

variable {goal : Goal}

theorem mem_staying {c : Changes} {x : Package} :
    x ∈ pl.staying selected c ↔
      x ∈ pl.catalog.installed ∧ selected.contains x.id = false ∧ c.updates.contains x.id = false := by
  rw [staying, Keyed.mem_filter, Bool.and_eq_true, Bool.not_eq_true', Bool.not_eq_true']

theorem contains_staying (c : Changes) (k : String) :
    (pl.staying selected c).contains k =
      (pl.catalog.installed.contains k && (!selected.contains k && !c.updates.contains k)) :=
  Keyed.contains_filter _ (fun k => !selected.contains k && !c.updates.contains k) k

theorem of_mem_breaking {c : Changes} {x : Package} (h : x ∈ pl.breaking selected c) :
    x ∈ pl.catalog.installed ∧ selected.contains x.id = false := by
  obtain ⟨hx, hsel, -⟩ := mem_staying.mp (Keyed.mem_filter.mp h).1
  exact ⟨hx, hsel⟩

theorem extends_walk_of_mem (goal : Goal) (c : Changes) (w : Package) (hw : w ∈ selected.toList) :
    c.Extends pl selected (pl.Draws goal selected) (pl.walk selected c w) :=
  (extends_walk c w).mono fun _ hx => ⟨w, Or.inl hw, Or.inr hx⟩

theorem extends_rescue_of_mem (c : Changes) (p : Package) (hp : p ∈ (pl.breaking selected (pl.walked goal selected)).toList) :
    c.Extends pl selected (pl.Draws goal selected) (pl.rescue selected c p) := by
  obtain ⟨hinst, hsel⟩ := of_mem_breaking hp
  refine (extends_rescue c hinst hsel).mono fun x => ?_
  rintro ⟨q, hq, hx⟩
  exact ⟨q, Or.inr ⟨p, hp, hq⟩, hx⟩

/-- The walks start from nothing that comes in. -/
theorem extends_walked (goal : Goal) : ({} : Changes).Extends pl selected (pl.Draws goal selected) (pl.walked goal selected) := by
  refine Changes.Extends.trans ?_ (Changes.Extends.foldl (extends_walk_of_mem goal) (pl.seed goal selected))
  cases goal <;> exact ⟨fun _ => id, fun _ => id, fun _ => Or.inl, fun _ => Or.inl⟩

/-- The rescues take back nothing that the walks brought in. -/
theorem extends_rescued (goal : Goal) :
    (pl.walked goal selected).Extends pl selected (pl.Draws goal selected) (pl.rescued goal selected) := by
  refine Changes.Extends.trans ?_ (Changes.Extends.foldl extends_rescue_of_mem _)
  exact ⟨fun _ => id, fun _ => id, fun _ => Or.inl, fun _ => Or.inl⟩

/-- After the walks everything that a package asked for needs is seen to. -/
theorem supplied_walked {w : Package} (hw : w ∈ selected) {d : Package} (hd : d ∈ pl.needs w) :
    pl.Supplied selected (w.resolution pl.catalog.available pl.host) (pl.walked goal selected) d :=
  Changes.Extends.established
    (E := fun c w => ∀ d ∈ pl.needs w, pl.Supplied selected (w.resolution pl.catalog.available pl.host) c d)
    (extends_walk_of_mem goal) (fun c w _ => supplied_walk c w)
    (fun _ _ _ hc h d hd => (h d hd).of_extends hc) (pl.seed goal selected) w hw d hd

/-- In the end everything that a walked package needs is seen to. -/
theorem supplied_rescued {w : Package} (hw : pl.Walks goal selected w) {d : Package} (hd : d ∈ pl.needs w) :
    pl.Supplied selected (w.resolution pl.catalog.available pl.host) (pl.rescued goal selected) d := by
  rcases hw with hw | ⟨p, hp, hq⟩
  · exact (supplied_walked hw hd).of_extends (extends_rescued goal)
  · exact Changes.Extends.established
      (E := fun c p => ∀ q, pl.rescuer? p = some q → ∀ d ∈ pl.needs q,
        pl.Supplied selected (q.resolution pl.catalog.available pl.host) c d)
      extends_rescue_of_mem (fun c p _ q hq => (supplied_rescue c hq).1)
      (fun _ _ _ hc h q hq d hd => (h q hq d hd).of_extends hc) _ p hp w hq d hd

/-- Whatever would break and has a rescuer has an update in the end. -/
theorem contains_updates_rescued {p q : Package} (hp : p ∈ pl.breaking selected (pl.walked goal selected))
    (hq : pl.rescuer? p = some q) : (pl.rescued goal selected).updates.contains p.id :=
  Changes.Extends.established (E := fun c p => ∀ q, pl.rescuer? p = some q → c.updates.contains p.id)
    extends_rescue_of_mem (fun c _ _ _ hq => (supplied_rescue c hq).2)
    (fun _ _ _ hc h q hq => hc.contains_updates (h q hq)) _ p hp q hq

theorem mem_removals_foldl_rescue (l : List Package) (c : Changes) (x : Package) :
    x ∈ (l.foldl (pl.rescue selected) c).removals ↔ x ∈ c.removals ∧ ∀ p ∈ l, pl.rescuer? p = none ∨ x.id ≠ p.id := by
  induction l generalizing c with
  | nil => simp
  | cons p rest ih =>
    rw [List.foldl_cons, ih, mem_removals_rescue, List.forall_mem_cons, and_assoc]

/-- What is still to be removed after the rescues is what would break and has no rescuer. -/
theorem mem_removals_rescued {x : Package} :
    x ∈ (pl.rescued goal selected).removals ↔
      x ∈ pl.breaking selected (pl.walked goal selected) ∧ pl.rescuer? x = none := by
  rw [rescued, mem_removals_foldl_rescue]
  refine and_congr_right fun hx => ⟨fun h => (h x hx).resolve_right (fun hne => hne rfl), fun h p hp => ?_⟩
  by_cases hid : x.id = p.id
  · rw [← Keyed.eq_of_key_eq hx hp hid]
    exact Or.inl h
  · exact Or.inr hid

end Planner

end AddonPlanner
