import AddonPlanner.Proofs.Catalog
import AddonPlanner.Proofs.Plan.Phases

/-!
# The order of the work

Walks and rescues come to edits of the changes, and which edits these are does not depend on the changes made so far
(`walk_eq_foldl`, `rescue_eq_foldl`). An insertion keeps what is there, but edits insert packages of the catalog, which has one
installed and one available package of an id, so whichever comes first inserts the same, and any two edits commute
(`Changes.edit_comm`). Hence the work may be done in any order (`planIn_eq_plan`).
-/

namespace AddonPlanner

/-! ## Edits -/

/-- An entry that a walk or a rescue makes in the changes. -/
inductive Edit
  /-- A package comes in that the host lacks. -/
  | install (p : Package)
  /-- A package takes the place of an installed version. -/
  | exchange (present p : Package)
  /-- The package of an id need not be removed. -/
  | spare (id : String)

/-- An edit fits a catalog when all it puts in place or replaces is from the catalog. -/
def Edit.Fits (catalog : Catalog) : Edit → Prop
  | install p => p ∈ catalog.available
  | exchange present p => present ∈ catalog.installed ∧ p ∈ catalog.available
  | spare _ => True

namespace Changes

/-- The changes with an edit made. -/
def edit (c : Changes) : Edit → Changes
  | .install p => { c with installs := c.installs.insert p }
  | .exchange present p => { c with replaced := c.replaced.insert present, updates := c.updates.insert p }
  | .spare id => { c with removals := c.removals.erase id }

variable {catalog : Catalog}

theorem edit_comm {e e' : Edit} (he : e.Fits catalog) (he' : e'.Fits catalog) (c : Changes) :
    (c.edit e).edit e' = (c.edit e').edit e := by
  cases e with
  | install p =>
    cases e' with
    | install q =>
      have hinstalls := c.installs.insert_comm (Keyed.eq_of_key_eq he he')
      simp only [edit, hinstalls]
    | exchange _ _ => rfl
    | spare _ => rfl
  | exchange present p =>
    cases e' with
    | install _ => rfl
    | exchange present' q =>
      have hreplaced := c.replaced.insert_comm (Keyed.eq_of_key_eq he.1 he'.1)
      have hupdates := c.updates.insert_comm (Keyed.eq_of_key_eq he.2 he'.2)
      simp only [edit, hreplaced, hupdates]
    | spare _ => rfl
  | spare k =>
    cases e' with
    | install _ => rfl
    | exchange _ _ => rfl
    | spare k' => simp only [edit, c.removals.erase_comm k k']

/-- Steps that come to edits of their own come to all of these together. -/
theorem foldl_eq_foldl_edit {f : Changes → Package → Changes} {edits : Package → List Edit}
    (hf : ∀ c p, f c p = (edits p).foldl edit c) (l : List Package) (c : Changes) :
    l.foldl f c = (l.flatMap edits).foldl edit c := by
  have hsteps : f = fun c p => (edits p).foldl edit c := funext fun c => funext fun p => hf c p
  rw [List.foldl_flatMap, hsteps]

/-- Steps that come to fitting edits may be taken in any order. -/
theorem foldl_eq_of_perm {f : Changes → Package → Changes} {edits : Package → List Edit} {l l' : List Package}
    (hf : ∀ c p, f c p = (edits p).foldl edit c) (hfits : ∀ p ∈ l, ∀ e ∈ edits p, e.Fits catalog) (h : l.Perm l')
    (c : Changes) : l.foldl f c = l'.foldl f c := by
  have hfit : ∀ e ∈ l.flatMap edits, e.Fits catalog := by
    intro e he
    obtain ⟨p, hp, he⟩ := List.mem_flatMap.mp he
    exact hfits p hp e he
  rw [foldl_eq_foldl_edit hf, foldl_eq_foldl_edit hf]
  exact (h.flatMap_right edits).foldl_eq' (fun e he e' he' c => edit_comm (hfit e he) (hfit e' he') c) c

end Changes

namespace Planner

variable {pl : Planner} {goal : Goal} {selected : PackageSet}

/-! ## The edits that the work comes to -/

/-- The edits by which a walk provides for a package. -/
def provision (pl : Planner) (selected : PackageSet) (walked : Resolution) (p : Package) : List Edit :=
  if selected.contains p.id || pl.catalog.statusOf p != .available then []
  else
    match pl.catalog.installed.get? p.id with
    | none => [.install p]
    | some present => if (walked.boundsFor? p.id).all (·.contains present.version) then [] else [.exchange present p]

/-- The edits of a walk. -/
def walkEdits (pl : Planner) (selected : PackageSet) (p : Package) : List Edit :=
  (pl.needs p).toList.flatMap (pl.provision selected (p.resolution pl.catalog.available pl.host))

/-- The edits of a rescue. -/
def rescueEdits (pl : Planner) (selected : PackageSet) (p : Package) : List Edit :=
  match pl.rescuer? p with
  | none => []
  | some q => .spare p.id :: .exchange p q :: pl.walkEdits selected q

theorem provide_eq_foldl (walked : Resolution) (c : Changes) (p : Package) :
    pl.provide selected walked c p = (pl.provision selected walked p).foldl Changes.edit c := by
  unfold provide provision
  split
  · rfl
  · cases pl.catalog.installed.get? p.id with
    | none => rfl
    | some present =>
      dsimp only
      split <;> rfl

theorem walk_eq_foldl (c : Changes) (p : Package) :
    pl.walk selected c p = (pl.walkEdits selected p).foldl Changes.edit c :=
  Changes.foldl_eq_foldl_edit (provide_eq_foldl _) (pl.needs p).toList c

theorem rescue_eq_foldl (c : Changes) (p : Package) :
    pl.rescue selected c p = (pl.rescueEdits selected p).foldl Changes.edit c := by
  unfold rescue rescueEdits
  cases pl.rescuer? p with
  | none => rfl
  | some q => exact walk_eq_foldl _ q

theorem fits_provision {walked : Resolution} {p : Package} (hp : p ∈ pl.catalog.available) :
    ∀ e ∈ pl.provision selected walked p, e.Fits pl.catalog := by
  unfold provision
  split
  · exact fun e he => absurd he List.not_mem_nil
  · cases hinst : pl.catalog.installed.get? p.id with
    | none => exact List.forall_mem_singleton.mpr hp
    | some present =>
      dsimp only
      split
      · exact fun e he => absurd he List.not_mem_nil
      · exact List.forall_mem_singleton.mpr ⟨Keyed.mem_of_get? hinst, hp⟩

theorem fits_walkEdits (p : Package) : ∀ e ∈ pl.walkEdits selected p, e.Fits pl.catalog := by
  intro e he
  obtain ⟨d, hd, he⟩ := List.mem_flatMap.mp he
  exact fits_provision (Package.mem_of_mem_dependencies hd) e he

theorem fits_rescueEdits {p : Package} (hp : p ∈ pl.catalog.installed) :
    ∀ e ∈ pl.rescueEdits selected p, e.Fits pl.catalog := by
  unfold rescueEdits
  cases hq : pl.rescuer? p with
  | none => exact fun e he => absurd he List.not_mem_nil
  | some q =>
    refine List.forall_mem_cons.mpr ⟨trivial, List.forall_mem_cons.mpr ⟨?_, fits_walkEdits q⟩⟩
    exact ⟨hp, (rescuer?_eq_some hq).1⟩

/-! ## Plans in any order -/

/-- The plan when the selected packages are walked in the order of a list, and the breaking ones rescued in some order too. -/
def planIn (pl : Planner) (goal : Goal) (selected : PackageSet) (walks : List Package)
    (rescues : PackageSet → List Package) : Plan :=
  let c := pl.changes goal selected walks rescues
  let affected := selected.toList ++ c.installs.toList ++ c.updates.toList
  { c with goal, selected, needsNewerHost := affected.any (!·.runsOn pl.host) }

theorem plan_eq_planIn : pl.plan goal selected = pl.planIn goal selected selected.toList Keyed.toList := rfl

/-- The walks come to the same changes in any order. -/
theorem foldl_walk_eq_of_perm {l l' : List Package} (h : l.Perm l') (c : Changes) :
    l.foldl (pl.walk selected) c = l'.foldl (pl.walk selected) c :=
  Changes.foldl_eq_of_perm walk_eq_foldl (fun p _ => fits_walkEdits p) h c

/-- The rescues of installed packages come to the same changes in any order. -/
theorem foldl_rescue_eq_of_perm {l l' : List Package} (hl : ∀ p ∈ l, p ∈ pl.catalog.installed) (h : l.Perm l')
    (c : Changes) : l.foldl (pl.rescue selected) c = l'.foldl (pl.rescue selected) c :=
  Changes.foldl_eq_of_perm rescue_eq_foldl (fun p hp => fits_rescueEdits (hl p hp)) h c

/-- A plan does not depend on the order in which the selected packages are walked and the breaking ones rescued. -/
theorem planIn_eq_plan (pl : Planner) (goal : Goal) (selected : PackageSet) (walks : List Package)
    (rescues : PackageSet → List Package) (hwalks : walks.Perm selected.toList)
    (hrescues : ∀ breaking, (rescues breaking).Perm breaking.toList) :
    pl.planIn goal selected walks rescues = pl.plan goal selected := by
  have hchanges : pl.changes goal selected walks rescues = pl.changes goal selected selected.toList Keyed.toList := by
    unfold changes
    rw [foldl_walk_eq_of_perm hwalks]
    dsimp only
    rw [foldl_rescue_eq_of_perm (fun p hp => ?_) (hrescues _)]
    exact (of_mem_breaking ((hrescues _).mem_iff.mp hp)).1
  rw [plan_eq_planIn, planIn, planIn, hchanges]

/-- The captions and the overlay that are to be updated, both of which need glyphs. -/
def cues : PackageSet :=
  .ofList [⟨"caption", .two, none, [⟨"glyphs", .any⟩], .available⟩, ⟨"overlay", .two, none, [⟨"glyphs", .any⟩], .available⟩]

/-- A host on which an update of the overlay breaks a filter and a frame, and the rescue of either needs the next codec. -/
def theatre : Planner where
  catalog :=
    { installed := .ofList [⟨"caption", .one, none, [], .installed⟩, ⟨"codec", .one, none, [], .installed⟩,
        ⟨"filter", .one, none, [⟨"overlay", .atMost .one⟩], .installed⟩,
        ⟨"frame", .one, none, [⟨"overlay", .atMost .one⟩], .installed⟩, ⟨"overlay", .one, none, [], .installed⟩]
      available := cues.union (.ofList [⟨"codec", .two, none, [], .available⟩,
        ⟨"filter", .two, none, [⟨"codec", .atLeast .two⟩], .available⟩,
        ⟨"frame", .two, none, [⟨"codec", .atLeast .two⟩], .available⟩, ⟨"glyphs", .one, none, [], .available⟩]) }
  host := .eleven

/-- The overlay is walked before the captions and the frame rescued before the filter, with the same plan. -/
theorem theatre_plan_in_reverse :
    cues.toList.reverse.Perm cues.toList ∧ (∀ breaking : PackageSet, breaking.toList.reverse.Perm breaking.toList) ∧
      theatre.planIn .update cues cues.toList.reverse (fun breaking => breaking.toList.reverse) = theatre.plan .update cues ∧
      (theatre.breaking cues (theatre.walked .update cues)).keys = ["filter", "frame"] ∧
      (theatre.plan .update cues).installs.keys = ["glyphs"] ∧
      (theatre.plan .update cues).updates.keys = ["caption", "codec", "filter", "frame", "overlay"] :=
  ⟨List.reverse_perm _, fun _ => List.reverse_perm _,
    planIn_eq_plan theatre .update cues cues.toList.reverse (fun breaking => breaking.toList.reverse) (List.reverse_perm _)
      fun _ => List.reverse_perm _,
    by decide +kernel⟩

end Planner

end AddonPlanner
