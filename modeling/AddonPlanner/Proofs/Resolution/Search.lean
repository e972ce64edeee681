import AddonPlanner.Proofs.Bounds
import AddonPlanner.Proofs.Resolution.Closure
import AddonPlanner.Proofs.Version.Tokens
import AddonPlanner.Planner

/-!
# The search decides soundness

A resolution reports no issue exactly when the package is sound in the pool (`hasIssue_eq_false_iff`). Its dependencies are
then what the package reaches besides itself (`Sound.mem_dependencies_iff`), and the bounds in force for an identifier are no
wider than any requirement on it (`Sound.exists_boundsFor?`).

The search visits one requirement at a time. `Visited` says what a visit can do to the state; the invariants are kept by each
visit and so by the whole search.
-/

namespace AddonPlanner

open Package

variable {root : Package} {pool : PackageSet} {host : HostVersion}

namespace Search

/-! ## What the steps change -/

@[simp] theorem issues_report (s : Search) (issue : Issue) : (s.report issue).issues = s.issues ++ [issue] := rfl

@[simp] theorem issues_setBounds (s : Search) (id : String) (b : Bounds Version) : (s.setBounds id b).issues = s.issues := rfl

@[simp] theorem boundsFor?_setBounds (s : Search) (id id' : String) (b : Bounds Version) :
    (s.setBounds id b).boundsFor? id' = if id = id' then some b else s.boundsFor? id' := by
  show ((s.bounds.put (id, b)).get? id').map Prod.snd = _
  rw [Keyed.get?_put]
  by_cases h : id = id' <;> simp [h, Resolution.boundsFor?]

/-- Taking note of a package that needs a newer host changes nothing else. -/
theorem checkHost_eq (s : Search) (p : Package) (host : HostVersion) :
    ∃ l, s.checkHost p host = { s with hostIssues := l } := by
  unfold checkHost
  split
  · split
    · exact ⟨s.hostIssues, rfl⟩
    · exact ⟨_, rfl⟩
  · exact ⟨s.hostIssues, rfl⟩

/-- At the start nothing has been found yet, and there is nothing but the note taken of the package. -/
theorem start_eq (root : Package) (host : HostVersion) :
    ∃ l, start root host = { package := root.id, hostIssues := l, pending := [root] } :=
  checkHost_eq { package := root.id, pending := [root] } root host

@[simp] theorem issues_discover (s : Search) (p : Package) (host : HostVersion) : (s.discover p host).issues = s.issues := by
  obtain ⟨l, hl⟩ := checkHost_eq { s with dependencies := s.dependencies.insert p } p host
  simp only [discover, hl]

@[simp] theorem boundsFor?_discover (s : Search) (p : Package) (host : HostVersion) (id : String) :
    (s.discover p host).boundsFor? id = s.boundsFor? id := by
  obtain ⟨l, hl⟩ := checkHost_eq { s with dependencies := s.dependencies.insert p } p host
  simp only [discover, hl]
  rfl

/-- What visiting a requirement of a package can do to the state of the search. -/
inductive Visited (root : Package) (pool : PackageSet) (host : HostVersion) (parent : Package) (s : Search)
    (r : Requirement) : Search → Prop
  /-- Nothing has the required identifier. -/
  | missing (hres : root.resolve? pool r.id = none) : Visited root pool host parent s r (s.report (.missing parent.id r.id))
  /-- The requirement excludes the bounds collected so far. -/
  | excluded {found : Package} (hres : root.resolve? pool r.id = some found) (hb : s.narrowed? r = none) :
    Visited root pool host parent s r (s.report (.incompatible parent.id r.id found.version))
  /-- The version that was found lies outside the narrowed bounds. -/
  | outside {found : Package} {b : Bounds Version} (hres : root.resolve? pool r.id = some found)
    (hb : s.narrowed? r = some b) (hv : b.contains found.version = false) :
    Visited root pool host parent s r ((s.setBounds r.id b).report (.incompatible parent.id r.id found.version))
  /-- The package that was found is known already. -/
  | known {found : Package} {b : Bounds Version} (hres : root.resolve? pool r.id = some found)
    (hb : s.narrowed? r = some b) (hv : b.contains found.version) (hk : found.id = root.id ∨ s.dependencies.contains found.id) :
    Visited root pool host parent s r (s.setBounds r.id b)
  /-- The package that was found is new. -/
  | new {found : Package} {b : Bounds Version} (hres : root.resolve? pool r.id = some found)
    (hb : s.narrowed? r = some b) (hv : b.contains found.version) (hne : found.id ≠ root.id)
    (hnew : s.dependencies.contains found.id = false) :
    Visited root pool host parent s r ((s.setBounds r.id b).discover found host)

theorem visited (root : Package) (pool : PackageSet) (host : HostVersion) (parent : Package) (s : Search) (r : Requirement) :
    Visited root pool host parent s r (visit root pool host parent s r) := by
  unfold visit
  cases hres : root.resolve? pool r.id with
  | none => exact .missing hres
  | some found =>
    cases hb : s.narrowed? r with
    | none => exact .excluded hres hb
    | some b =>
      dsimp only
      cases hv : b.contains found.version with
      | false => exact .outside hres hb hv
      | true =>
        by_cases hk : found.id = root.id ∨ (s.setBounds r.id b).dependencies.contains found.id
        · rw [if_neg (by simp), if_pos hk]
          exact .known hres hb hv hk
        · rw [if_neg (by simp), if_neg hk]
          obtain ⟨hne, hnew⟩ := not_or.mp hk
          exact .new hres hb hv hne (by simpa using hnew)

/-- What holds of whatever a visit can lead to holds of what it leads to. -/
theorem visit_induction {parent : Package} {s : Search} {r : Requirement} {P : Search → Prop}
    (h : ∀ t, Visited root pool host parent s r t → P t) : P (visit root pool host parent s r) :=
  h _ (visited root pool host parent s r)

/-- Narrowed bounds hold only what the requirement accepts and what the bounds held before. -/
theorem contains_of_narrowed? {s : Search} {r : Requirement} {b : Bounds Version} (hb : s.narrowed? r = some b) {v : Version}
    (hv : b.contains v) : r.bounds.contains v ∧ ∀ held, s.boundsFor? r.id = some held → held.contains v := by
  unfold narrowed? at hb
  split at hb
  · next held hheld =>
    obtain ⟨h1, h2⟩ := (Bounds.contains_join_iff hb v).mp hv
    refine ⟨h2, fun held' h' => ?_⟩
    rw [hheld] at h'
    rwa [← Option.some.inj h']
  · next hnone =>
    rw [Option.some.inj hb]
    exact ⟨hv, fun held h' => by rw [hnone] at h'; cases h'⟩

/-- An invariant of single visits is an invariant of the expansion of a package. -/
theorem expand_induction {P : Search → Prop} {parent : Package}
    (hvisit : ∀ s, ∀ r ∈ parent.requirements, P s → P (visit root pool host parent s r)) {s : Search} (hs : P s) :
    P (s.expand root pool host parent) := by
  unfold expand
  generalize parent.requirements = l at hvisit
  induction l generalizing s with
  | nil => exact hs
  | cons r rest ih =>
    exact ih (hvisit s r List.mem_cons_self hs) fun s r hr => hvisit s r (List.mem_cons_of_mem _ hr)

/-- An invariant of expansions is an invariant of the search, which ends with nothing pending. -/
theorem run_induction {P : Search → Prop}
    (hexpand : ∀ (s : Search) parent rest, s.pending = parent :: rest → P s →
      P ({ s with pending := rest }.expand root pool host parent)) {s : Search} (hs : P s) :
    P (s.run root pool host) ∧ (s.run root pool host).pending = [] := by
  fun_induction run root pool host s with
  | case1 s h => exact ⟨hs, h⟩
  | case2 s parent rest h ih => exact ih (hexpand s parent rest h hs)

/-! ## Everything that is found is reached -/

/-- What is pending or among the dependencies is reached, and the package itself is no dependency. -/
structure Reached (root : Package) (pool : PackageSet) (s : Search) : Prop where
  pending : ∀ x ∈ s.pending, root.Reaches pool x
  dependencies : ∀ x ∈ s.dependencies, root.Reaches pool x ∧ x.id ≠ root.id

theorem Reached.visit {s : Search} {parent : Package} (h : s.Reached root pool) (hparent : root.Reaches pool parent)
    {r : Requirement} (hr : r ∈ parent.requirements) : (visit root pool host parent s r).Reached root pool := by
  refine visit_induction fun t ht => ?_
  cases ht with
  | missing hres => exact ⟨h.pending, h.dependencies⟩
  | excluded hres hb => exact ⟨h.pending, h.dependencies⟩
  | outside hres hb hv => exact ⟨h.pending, h.dependencies⟩
  | known hres hb hv hk => exact ⟨h.pending, h.dependencies⟩
  | new hres hb hv hne hnew =>
    have hfound := hparent.step hr hres
    constructor
    · intro x hx
      rw [pending_discover, List.mem_cons] at hx
      rcases hx with rfl | hx
      · exact hfound
      · exact h.pending x hx
    · intro x hx
      rw [dependencies_discover] at hx
      rcases Keyed.mem_of_mem_insert hx with rfl | hx
      · exact ⟨hfound, hne⟩
      · exact h.dependencies x hx

theorem Reached.pop {s : Search} {parent : Package} {rest : List Package} (h : s.Reached root pool)
    (hp : s.pending = parent :: rest) : root.Reaches pool parent ∧ Reached root pool { s with pending := rest } := by
  have hpending := h.pending
  rw [hp] at hpending
  exact ⟨hpending parent List.mem_cons_self, fun x hx => hpending x (List.mem_cons_of_mem _ hx), h.dependencies⟩

theorem reached_start : (start root host).Reached root pool := by
  obtain ⟨l, hl⟩ := start_eq root host
  rw [hl]
  constructor
  · intro x hx
    rw [List.mem_singleton.mp hx]
    exact .self
  · intro x hx
    exact absurd hx List.not_mem_nil

theorem reached_run : ((start root host).run root pool host).Reached root pool := by
  refine (run_induction (fun s parent rest hp hs => ?_) reached_start).1
  obtain ⟨hparent, hs⟩ := hs.pop hp
  exact expand_induction (fun s r hr hs => hs.visit hparent hr) hs

/-! ## A sound package has no issue -/

/-- No issue has been reported, and each identifier with bounds resolves to a version inside them. -/
structure Clean (root : Package) (pool : PackageSet) (s : Search) : Prop where
  issues : s.issues = []
  bounds : ∀ id b, s.boundsFor? id = some b → ∃ y, root.resolve? pool id = some y ∧ b.contains y.version

/-- While an identifier resolves inside its bounds and inside a requirement, the bounds can be narrowed by the requirement. -/
theorem Clean.narrowed? {s : Search} (h : s.Clean root pool) {r : Requirement} {y : Package}
    (hres : root.resolve? pool r.id = some y) (hmet : r.isMetBy y) :
    ∃ b, s.narrowed? r = some b ∧ b.contains y.version := by
  have hr := (isMetBy_iff.mp hmet).2
  unfold Search.narrowed?
  cases hheld : s.boundsFor? r.id with
  | none => exact ⟨r.bounds, rfl, hr⟩
  | some held =>
    obtain ⟨z, hz, hv⟩ := h.bounds r.id held hheld
    rw [hres] at hz
    rw [← Option.some.inj hz] at hv
    exact Bounds.exists_join hv hr

theorem Clean.setBounds {s : Search} (h : s.Clean root pool) {id : String} {b : Bounds Version} {y : Package}
    (hres : root.resolve? pool id = some y) (hv : b.contains y.version) : (s.setBounds id b).Clean root pool := by
  constructor
  · exact h.issues
  · intro id' b' hb'
    rw [boundsFor?_setBounds] at hb'
    split at hb'
    · next heq =>
      rw [← heq, ← Option.some.inj hb']
      exact ⟨y, hres, hv⟩
    · exact h.bounds id' b' hb'

theorem Clean.visit {s : Search} {parent : Package} (h : s.Clean root pool) {r : Requirement}
    (hmet : ∃ y, root.resolve? pool r.id = some y ∧ r.isMetBy y) : (visit root pool host parent s r).Clean root pool := by
  obtain ⟨y, hy, hmet⟩ := hmet
  obtain ⟨b', hb', hv'⟩ := h.narrowed? hy hmet
  refine visit_induction fun t ht => ?_
  cases ht with
  | missing hres => rw [hres] at hy; cases hy
  | excluded hres hb => rw [hb] at hb'; cases hb'
  | outside hres hb hv =>
    rw [hb] at hb'
    rw [hres] at hy
    rw [Option.some.inj hb', Option.some.inj hy, hv'] at hv
    cases hv
  | known hres hb hv hk => exact h.setBounds hres hv
  | new hres hb hv hne hnew =>
    have hset := h.setBounds hres hv
    exact ⟨by simpa using hset.issues, fun id b => by simpa only [boundsFor?_discover] using hset.bounds id b⟩

theorem clean_start : (start root host).Clean root pool := by
  obtain ⟨l, hl⟩ := start_eq root host
  rw [hl]
  exact ⟨rfl, fun id b hb => by cases hb⟩

theorem clean_run (h : root.Sound pool) : ((start root host).run root pool host).Clean root pool := by
  refine (run_induction (P := fun s => s.Reached root pool ∧ s.Clean root pool) ?_ ⟨reached_start, clean_start⟩).1.2
  intro s parent rest hp hs
  obtain ⟨hparent, hreached⟩ := hs.1.pop hp
  refine expand_induction (P := fun s => s.Reached root pool ∧ s.Clean root pool) (fun s r hr hs => ?_)
    ⟨hreached, hs.2.issues, hs.2.bounds⟩
  exact ⟨hs.1.visit hparent hr, hs.2.visit (h parent hparent r hr)⟩

/-! ## Without an issue everything is answered -/

/-- A requirement is answered: it resolves to the package itself or to a dependency, at a version inside the bounds in force,
and these are no wider than the requirement. -/
def Answers (root : Package) (pool : PackageSet) (s : Search) (r : Requirement) : Prop :=
  ∃ y b, root.resolve? pool r.id = some y ∧ (y.id = root.id ∨ s.dependencies.contains y.id) ∧ s.boundsFor? r.id = some b ∧
    b.contains y.version ∧ ∀ v, b.contains v → r.bounds.contains v

/-- What later states keep of an earlier one: its issues, what was pending, and, while there is no issue, its answers. New
dependencies are pending. -/
structure Grows (root : Package) (pool : PackageSet) (s t : Search) : Prop where
  issues : t.issues = [] → s.issues = []
  pending : ∀ x ∈ s.pending, x ∈ t.pending
  dependencies : ∀ x ∈ t.dependencies, x ∈ s.dependencies ∨ x ∈ t.pending
  answers : t.issues = [] → ∀ r, s.Answers root pool r → t.Answers root pool r

theorem Grows.refl (s : Search) : Grows root pool s s :=
  ⟨id, fun _ => id, fun _ => Or.inl, fun _ _ => id⟩

theorem Grows.trans {s t u : Search} (h : Grows root pool s t) (h' : Grows root pool t u) : Grows root pool s u := by
  refine ⟨fun hi => h.issues (h'.issues hi), fun x hx => h'.pending x (h.pending x hx), fun x hx => ?_, fun hi r hr => ?_⟩
  · rcases h'.dependencies x hx with hx | hx
    · rcases h.dependencies x hx with hx | hx
      · exact Or.inl hx
      · exact Or.inr (h'.pending x hx)
    · exact Or.inr hx
  · exact h'.answers hi r (h.answers (h'.issues hi) r hr)

/-- An answer stays one when bounds are narrowed to a range that still holds what the identifier resolves to. -/
theorem Answers.setBounds {s : Search} {r r' : Requirement} (h : s.Answers root pool r') {b : Bounds Version} {y : Package}
    (hres : root.resolve? pool r.id = some y) (hb : s.narrowed? r = some b) (hv : b.contains y.version) :
    (s.setBounds r.id b).Answers root pool r' := by
  obtain ⟨z, c, hz, hmem, hc, hvz, hsub⟩ := h
  by_cases hid : r.id = r'.id
  · refine ⟨z, b, hz, hmem, by rw [boundsFor?_setBounds, if_pos hid], ?_, fun v hbv => ?_⟩
    · rw [← hid, hres] at hz
      rwa [← Option.some.inj hz]
    · exact hsub v ((contains_of_narrowed? hb hbv).2 c (hid ▸ hc))
  · exact ⟨z, c, hz, hmem, by rw [boundsFor?_setBounds, if_neg hid, hc], hvz, hsub⟩

theorem Answers.discover {s : Search} {r : Requirement} (h : s.Answers root pool r) (p : Package) (host : HostVersion) :
    (s.discover p host).Answers root pool r := by
  obtain ⟨z, c, hz, hmem, hc, hvz, hsub⟩ := h
  refine ⟨z, c, hz, hmem.imp_right fun h => ?_, by rw [boundsFor?_discover, hc], hvz, hsub⟩
  rw [dependencies_discover, Keyed.contains_insert, h, Bool.or_true]

theorem grows_visit (parent : Package) (s : Search) (r : Requirement) :
    Grows root pool s (visit root pool host parent s r) := by
  refine visit_induction fun t ht => ?_
  cases ht with
  | missing hres => exact ⟨by simp, fun _ => id, fun _ => Or.inl, by simp⟩
  | excluded hres hb => exact ⟨by simp, fun _ => id, fun _ => Or.inl, by simp⟩
  | outside hres hb hv => exact ⟨by simp, fun _ => id, fun _ => Or.inl, by simp⟩
  | known hres hb hv hk => exact ⟨id, fun _ => id, fun _ => Or.inl, fun _ _ hr => hr.setBounds hres hb hv⟩
  | @new found b hres hb hv hne hnew =>
    refine ⟨by simp, ?_, ?_, fun _ _ hr => (hr.setBounds hres hb hv).discover found host⟩
    · intro x hx
      rw [pending_discover]
      exact List.mem_cons_of_mem _ hx
    · intro x hx
      rw [dependencies_discover] at hx
      rw [pending_discover, List.mem_cons]
      rcases Keyed.mem_of_mem_insert hx with rfl | hx
      · exact Or.inr (Or.inl rfl)
      · exact Or.inl hx

/-- A visit that reports no issue answers its requirement. -/
theorem answers_visit {parent : Package} {s : Search} {r : Requirement}
    (h : (visit root pool host parent s r).issues = []) : (visit root pool host parent s r).Answers root pool r := by
  revert h
  refine visit_induction (P := fun t => t.issues = [] → t.Answers root pool r) fun t ht h => ?_
  cases ht with
  | missing hres => simp at h
  | excluded hres hb => simp at h
  | outside hres hb hv => simp at h
  | @known found b hres hb hv hk => exact ⟨found, b, hres, hk, by simp, hv, fun v hbv => (contains_of_narrowed? hb hbv).1⟩
  | @new found b hres hb hv hne hnew =>
    refine ⟨found, b, hres, Or.inr ?_, by simp, hv, fun v hbv => (contains_of_narrowed? hb hbv).1⟩
    rw [dependencies_discover, Keyed.contains_insert, beq_self_eq_true, Bool.true_or]

/-- Expanding a package without an issue answers all its requirements. -/
theorem grows_expand (parent : Package) (s : Search) :
    Grows root pool s (s.expand root pool host parent) ∧
      ((s.expand root pool host parent).issues = [] →
        ∀ r ∈ parent.requirements, (s.expand root pool host parent).Answers root pool r) := by
  unfold expand
  generalize parent.requirements = l
  induction l generalizing s with
  | nil => exact ⟨.refl s, fun _ r hr => absurd hr List.not_mem_nil⟩
  | cons r rest ih =>
    obtain ⟨hgrows, hanswers⟩ := ih (visit root pool host parent s r)
    refine ⟨(grows_visit parent s r).trans hgrows, fun hi r' hr' => ?_⟩
    rcases List.mem_cons.mp hr' with rfl | hr'
    · exact hgrows.answers hi r' (answers_visit (hgrows.issues hi))
    · exact hanswers hi r' hr'

/-- While there is no issue, the package and its dependencies are pending or have all their requirements answered. -/
def Covered (root : Package) (pool : PackageSet) (s : Search) : Prop :=
  s.issues = [] → ∀ x, (x = root ∨ x ∈ s.dependencies) → x ∈ s.pending ∨ ∀ r ∈ x.requirements, s.Answers root pool r

theorem Covered.expand {s : Search} {parent : Package} {rest : List Package} (h : s.Covered root pool)
    (hp : s.pending = parent :: rest) :
    Covered root pool ({ s with pending := rest }.expand root pool host parent) := by
  intro hi x hx
  obtain ⟨hgrows, hanswers⟩ := @grows_expand root pool host parent { s with pending := rest }
  have hx' : (x = root ∨ x ∈ s.dependencies) ∨ x ∈ (Search.expand root pool host { s with pending := rest } parent).pending := by
    rcases hx with hx | hx
    · exact Or.inl (Or.inl hx)
    · exact (hgrows.dependencies x hx).imp_left Or.inr
  rcases hx' with hx' | hx'
  · rcases h (hgrows.issues hi) x hx' with hpending | hanswered
    · rw [hp] at hpending
      rcases List.mem_cons.mp hpending with rfl | hrest
      · exact Or.inr (hanswers hi)
      · exact Or.inl (hgrows.pending x hrest)
    · exact Or.inr fun r hr => hgrows.answers hi r (hanswered r hr)
  · exact Or.inl hx'

theorem covered_start : (start root host).Covered root pool := by
  intro _ x hx
  obtain ⟨l, hl⟩ := start_eq root host
  rw [hl] at hx ⊢
  rcases hx with rfl | hx
  · exact Or.inl List.mem_cons_self
  · exact absurd hx List.not_mem_nil

/-- A search that ends without an issue has answered every requirement of the package and of its dependencies. -/
theorem answers_run {x : Package} (hi : ((start root host).run root pool host).issues = [])
    (hx : x = root ∨ x ∈ ((start root host).run root pool host).dependencies) {r : Requirement} (hr : r ∈ x.requirements) :
    ((start root host).run root pool host).Answers root pool r := by
  obtain ⟨hcovered, hpending⟩ :=
    @run_induction root pool host (Covered root pool) (fun s parent rest hp hs => hs.expand hp) _ covered_start
  rcases hcovered hi x hx with hx | hx
  · rw [hpending] at hx
    exact absurd hx List.not_mem_nil
  · exact hx r hr

end Search

namespace Package

theorem hasIssue_eq_false_iff_issues {r : Resolution} : r.hasIssue = false ↔ r.issues = [] := by
  rw [Resolution.hasIssue, Bool.not_eq_false', List.isEmpty_iff]

/-- Dependencies are members of the pool, also when there are issues. -/
theorem mem_of_mem_dependencies {x : Package} (hx : x ∈ (root.resolution pool host).dependencies) : x ∈ pool := by
  obtain ⟨hreach, hne⟩ := Search.reached_run.dependencies x hx
  exact hreach.mem_of_id_ne hne

/-- Without an issue, whatever is reached is the package itself or a dependency. -/
theorem Reaches.eq_or_mem_dependencies {x : Package} (hx : root.Reaches pool x)
    (hi : (root.resolution pool host).hasIssue = false) : x = root ∨ x ∈ (root.resolution pool host).dependencies := by
  have hi := hasIssue_eq_false_iff_issues.mp hi
  induction hx with
  | self => exact Or.inl rfl
  | @step x y r _ hr hres ih =>
    obtain ⟨z, b, hz, hmem, -⟩ := Search.answers_run hi ih hr
    rw [hres] at hz
    obtain rfl := Option.some.inj hz
    rcases resolve?_eq_some_iff.mp hres with ⟨-, rfl⟩ | ⟨hne, hid, hy⟩
    · exact Or.inl rfl
    · right
      rcases hmem with hmem | hmem
      · exact absurd (hid.symm.trans hmem) hne
      · obtain ⟨w, hw, hwid⟩ := Keyed.exists_mem_of_contains hmem
        rwa [Keyed.eq_of_key_eq hy (mem_of_mem_dependencies hw) hwid.symm]

/-- A resolution reports no issue exactly when the package is sound in the pool. -/
theorem hasIssue_eq_false_iff : (root.resolution pool host).hasIssue = false ↔ root.Sound pool := by
  constructor
  · intro hi x hx r hr
    obtain ⟨y, b, hy, -, -, hv, hsub⟩ :=
      Search.answers_run (hasIssue_eq_false_iff_issues.mp hi) (hx.eq_or_mem_dependencies hi) hr
    exact ⟨y, hy, isMetBy_iff.mpr ⟨resolve?_id hy, hsub _ hv⟩⟩
  · intro hs
    exact hasIssue_eq_false_iff_issues.mpr (Search.clean_run hs).issues

/-- The dependencies of a sound package are what it reaches besides itself. -/
theorem Sound.mem_dependencies_iff (hs : root.Sound pool) {x : Package} :
    x ∈ (root.resolution pool host).dependencies ↔ root.Reaches pool x ∧ x.id ≠ root.id := by
  constructor
  · exact fun hx => Search.reached_run.dependencies x hx
  · rintro ⟨hx, hne⟩
    rcases hx.eq_or_mem_dependencies (hasIssue_eq_false_iff.mpr hs) with rfl | hx
    · exact absurd rfl hne
    · exact hx

/-- For each requirement that a sound package reaches there are bounds in force, and they are no wider than the requirement. -/
theorem Sound.exists_boundsFor? (hs : root.Sound pool) {x : Package} (hx : root.Reaches pool x) {r : Requirement}
    (hr : r ∈ x.requirements) :
    ∃ b, (root.resolution pool host).boundsFor? r.id = some b ∧ ∀ v, b.contains v → r.bounds.contains v := by
  have hi : (root.resolution pool host).hasIssue = false := hasIssue_eq_false_iff.mpr hs
  obtain ⟨-, b, -, -, hb, -, hsub⟩ :=
    Search.answers_run (hasIssue_eq_false_iff_issues.mp hi) (hx.eq_or_mem_dependencies hi) hr
  exact ⟨b, hb, hsub⟩

end Package

theorem Planner.isBroken_eq_false_iff {pl : Planner} {p : Package} : pl.isBroken pool p = false ↔ p.Sound pool :=
  Package.hasIssue_eq_false_iff

theorem Planner.isBroken_iff {pl : Planner} {p : Package} : pl.isBroken pool p = true ↔ ¬ p.Sound pool := by
  rw [← @isBroken_eq_false_iff pool pl p, Bool.not_eq_false]

/-- The installed packages that are broken as they stand. -/
def Planner.broken (pl : Planner) : PackageSet :=
  pl.catalog.installed.filter (pl.isBroken pl.catalog.installed)

theorem Planner.mem_broken {pl : Planner} {p : Package} :
    p ∈ pl.broken ↔ p ∈ pl.catalog.installed ∧ pl.isBroken pl.catalog.installed p :=
  Keyed.mem_filter

end AddonPlanner
