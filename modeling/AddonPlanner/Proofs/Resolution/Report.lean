import AddonPlanner.Proofs.Catalog
import AddonPlanner.Proofs.Resolution.Trace

/-!
# What a resolution reports

A resolution visits each requirement of the package and of its dependencies, whether or not all of them are met. What it reports
can be told from these requirements alone.

Without an issue the bounds in force are what the requirements on an identifier have in common (`bounds_combine_requirements`).
With issues, the requirements of which nothing is known at all are reported once each, a requirement that refuses what it resolves
to is always reported, and nothing is reported as incompatible unless some requirement refuses it (`issues_account_for_visits`),
which need not be the one that is named.
-/

namespace AddonPlanner

open Package

variable {root : Package} {pool : PackageSet} {host : HostVersion}

/-! ## The bounds in force -/

/-- There are collected bounds for an identifier as soon as a requirement on it has been visited. -/
theorem Search.isSome_collected_iff {id : String} {seen : List (Package × Requirement)} :
    (collected id seen).isSome ↔ ∃ visit ∈ seen, visit.2.id = id := by
  induction seen with
  | nil => simp [collected]
  | cons visit earlier ih =>
    rw [collected]
    by_cases hid : visit.2.id = id
    · simp [hid]
    · simp [hid, ih]

namespace Package

/-- What a resolution has visited are the requirements of what it expands. -/
theorem exists_seen_expanded (root : Package) (pool : PackageSet) (host : HostVersion) :
    ∃ seen, Search.Traced root pool host seen ((Search.start root host).run root pool host) ∧
      ∀ x r, (x, r) ∈ seen ↔ x ∈ root.expanded pool host ∧ r ∈ x.requirements := by
  obtain ⟨seen, htraced, hseen⟩ := Search.exists_seen root pool host
  refine ⟨seen, htraced, fun x r => ?_⟩
  rw [hseen, mem_expanded]

/-- There are bounds in force for the identifiers that resolve and that a visited requirement names. -/
theorem isSome_boundsFor?_iff {id : String} : ((root.resolution pool host).boundsFor? id).isSome ↔
    (root.resolve? pool id).isSome ∧ ∃ x ∈ root.expanded pool host, ∃ r ∈ x.requirements, r.id = id := by
  obtain ⟨seen, htraced, hseen⟩ := exists_seen_expanded root pool host
  have heq : (root.resolution pool host).boundsFor? id = _ := htraced.boundsFor?_eq id
  have hnamed : (∃ visit ∈ seen, visit.2.id = id) ↔ ∃ x ∈ root.expanded pool host, ∃ r ∈ x.requirements, r.id = id := by
    constructor
    · rintro ⟨⟨x, r⟩, hmem, hid⟩
      obtain ⟨hx, hr⟩ := (hseen x r).mp hmem
      exact ⟨x, hx, r, hr, hid⟩
    · rintro ⟨x, hx, r, hr, hid⟩
      exact ⟨(x, r), (hseen x r).mpr ⟨hx, hr⟩, hid⟩
  rw [heq, ← hnamed, ← Search.isSome_collected_iff]
  by_cases hres : (root.resolve? pool id).isSome
  · simp [hres]
  · simp [hres]

/-- Whatever is expanded is reached. -/
theorem reaches_of_mem_expanded {x : Package} (hx : x ∈ root.expanded pool host) : root.Reaches pool x := by
  rcases mem_expanded.mp hx with rfl | hx
  · exact .self
  · exact (Search.reached_run.dependencies x hx).1

/-- The bounds that a sound package has in force contain what all requirements on the identifier contain. -/
theorem Sound.contains_boundsFor?_iff (hs : root.Sound pool) {id : String} {b : Bounds Version}
    (hb : (root.resolution pool host).boundsFor? id = some b) (v : Version) :
    b.contains v ↔ ∀ x ∈ root.expanded pool host, ∀ r ∈ x.requirements, r.id = id → r.bounds.contains v := by
  constructor
  · intro hv x hx r hr hid
    subst hid
    obtain ⟨b', hb', hsub⟩ := @Sound.exists_boundsFor? root pool host hs x (reaches_of_mem_expanded hx) r hr
    rw [hb] at hb'
    rw [← Option.some.inj hb'] at hsub
    exact hsub v hv
  · intro hall
    refine (contains_boundsFor?_or hb v).resolve_right ?_
    rintro ⟨x, hx, r, hr, hid, hout, -⟩
    rw [hall x (mem_expanded.mpr hx) r hr hid] at hout
    cases hout

/-- When nothing is wrong, the bounds in force combine the requirements of the package and of its dependencies: there are bounds
for an identifier exactly when one of these requirements names it, and they contain a version exactly when every requirement on the
identifier does. -/
theorem bounds_combine_requirements (root : Package) (pool : PackageSet) (host : HostVersion)
    (hclear : (root.resolution pool host).hasIssue = false) (id : String) :
    (((root.resolution pool host).boundsFor? id).isSome ↔
      ∃ x ∈ root.expanded pool host, ∃ r ∈ x.requirements, r.id = id) ∧
    ∀ b, (root.resolution pool host).boundsFor? id = some b →
      ∀ v, b.contains v ↔ ∀ x ∈ root.expanded pool host, ∀ r ∈ x.requirements, r.id = id → r.bounds.contains v := by
  have hs : root.Sound pool := hasIssue_eq_false_iff.mp hclear
  constructor
  · rw [isSome_boundsFor?_iff]
    refine and_iff_right_of_imp ?_
    rintro ⟨x, hx, r, hr, rfl⟩
    obtain ⟨y, hy, -⟩ := hs x (reaches_of_mem_expanded hx) r hr
    rw [hy, Option.isSome_some]
  · intro b hb v
    exact hs.contains_boundsFor?_iff hb v

/-- The next version of a synthesizer, which needs a filter and a wave table that is not too new. -/
def synthesizer : Package :=
  ⟨"synthesizer", .two, none, [⟨"filter", .any⟩, ⟨"wave", .between .one .raised⟩], .available⟩

/-- What is installed: the first version of the synthesizer, a filter that needs the next one and a newer wave table, and that
wave table, which needs the filter. -/
def soundstage : PackageSet :=
  .ofList [⟨"synthesizer", .one, none, [], .installed⟩,
    ⟨"filter", .one, none, [⟨"wave", .atLeast .two⟩, ⟨"synthesizer", .atLeast .two⟩], .installed⟩,
    ⟨"wave", .two, none, [⟨"filter", .any⟩], .installed⟩]

/-- The requirement of the filter on the wave table, which is visited when the wave table has been expanded already, has its part in
the bounds; and there are bounds for the synthesizer itself, which the filter requires. -/
theorem synthesizer_bounds_wave :
    (synthesizer.resolution soundstage .eleven).hasIssue = false ∧
    (∀ id, (((synthesizer.resolution soundstage .eleven).boundsFor? id).isSome ↔
        ∃ x ∈ synthesizer.expanded soundstage .eleven, ∃ r ∈ x.requirements, r.id = id) ∧
      ∀ b, (synthesizer.resolution soundstage .eleven).boundsFor? id = some b →
        ∀ v, b.contains v ↔
          ∀ x ∈ synthesizer.expanded soundstage .eleven, ∀ r ∈ x.requirements, r.id = id → r.bounds.contains v) ∧
    ((synthesizer.resolution soundstage .eleven).boundsFor? "wave").map (fun b => (b.contains .one, b.contains .two)) =
      some (false, true) ∧
    ((synthesizer.resolution soundstage .eleven).boundsFor? "synthesizer").isSome := by
  have hclear : (synthesizer.resolution soundstage .eleven).hasIssue = false := by decide +kernel
  exact ⟨hclear, bounds_combine_requirements synthesizer soundstage .eleven hclear, by decide +kernel, by decide +kernel⟩

end Package

/-! ## The issues -/

/-- Whether nothing at all is known of what is required. -/
def Issue.isMissing : Issue → Bool
  | missing .. => true
  | incompatible .. => false

/-- Whether a requirement names neither the package in question nor a member of the pool. -/
def Package.lacks (root : Package) (pool : PackageSet) (r : Requirement) : Bool :=
  r.id != root.id && !pool.contains r.id

theorem Package.lacks_iff {r : Requirement} : root.lacks pool r ↔ root.resolve? pool r.id = none := by
  rw [resolve?_eq_none_iff, lacks, Bool.and_eq_true, bne_iff_ne, Bool.not_eq_true']

namespace Search

/-- A visit reports its requirement as missing when nothing has the required identifier, and nothing else as missing. -/
theorem filter_isMissing_visit (parent : Package) (s : Search) (r : Requirement) :
    (visit root pool host parent s r).issues.filter Issue.isMissing = s.issues.filter Issue.isMissing ++
      if root.lacks pool r then [.missing parent.id r.id] else [] := by
  have hlacks : ∀ y, root.resolve? pool r.id = some y → root.lacks pool r = false := by
    intro y hy
    rw [← Bool.not_eq_true, lacks_iff, hy]
    simp
  refine visit_induction (P := fun t => t.issues.filter Issue.isMissing = s.issues.filter Issue.isMissing ++
    if root.lacks pool r then [.missing parent.id r.id] else []) fun t ht => ?_
  cases ht with
  | missing hres => simp [lacks_iff.mpr hres, Issue.isMissing]
  | excluded hres hb => simp [hlacks _ hres, Issue.isMissing]
  | outside hres hb hv => simp [hlacks _ hres, Issue.isMissing]
  | known hres hb hv hk => simp [hlacks _ hres]
  | new hres hb hv hne hnew => simp [hlacks _ hres]

/-- Issues stay. -/
theorem mem_issues_visit {parent : Package} {s : Search} {r : Requirement} {issue : Issue} (h : issue ∈ s.issues) :
    issue ∈ (visit root pool host parent s r).issues := by
  refine visit_induction (P := fun t => issue ∈ t.issues) fun t ht => ?_
  cases ht with
  | missing | excluded | outside => simp [h]
  | known => simpa using h
  | new => simpa using h

/-- A requirement that refuses what it resolves to is reported, since narrowed bounds contain no more than it does. -/
theorem incompatible_mem_issues_visit {parent y : Package} {s : Search} {r : Requirement}
    (hy : root.resolve? pool r.id = some y) (hout : r.bounds.contains y.version = false) :
    .incompatible parent.id r.id y.version ∈ (visit root pool host parent s r).issues := by
  refine visit_induction (P := fun t => .incompatible parent.id r.id y.version ∈ t.issues) fun t ht => ?_
  have hwithin : ∀ found b, root.resolve? pool r.id = some found → s.narrowed? r = some b →
      b.contains found.version → False := by
    intro found b hres hb hv
    rw [hy] at hres
    obtain rfl := Option.some.inj hres
    rw [(contains_of_narrowed? hb hv).1] at hout
    cases hout
  cases ht with
  | missing hres =>
    rw [hres] at hy
    cases hy
  | excluded hres hb =>
    rw [hy] at hres
    simp [Option.some.inj hres]
  | outside hres hb hv =>
    rw [hy] at hres
    simp [Option.some.inj hres]
  | known hres hb hv hk => exact (hwithin _ _ hres hb hv).elim
  | new hres hb hv hne hnew => exact (hwithin _ _ hres hb hv).elim

/-- When narrowed bounds leave out a version, or nothing is left of them, the requirement or the bounds held before refuse it. -/
theorem refused_of_narrowed? {s : Search} {r : Requirement} {v : Version}
    (h : (s.narrowed? r).any (·.contains v) = false) :
    r.bounds.contains v = false ∨ ∃ held, s.boundsFor? r.id = some held ∧ held.contains v = false := by
  unfold narrowed? at h
  cases hheld : s.boundsFor? r.id with
  | none =>
    rw [hheld] at h
    exact Or.inl h
  | some held =>
    simp only [hheld, Bounds.any_contains_join, Bool.and_eq_false_iff] at h
    rcases h with h | h
    · exact Or.inr ⟨held, rfl, h⟩
    · exact Or.inl h

/-- What a visit reports as incompatible is the version that its requirement resolves to, and either the requirement or the bounds
held before refuse it. -/
theorem of_incompatible_mem_issues_visit {parent : Package} {s : Search} {r : Requirement} {requirer id : String} {v : Version}
    (h : .incompatible requirer id v ∈ (visit root pool host parent s r).issues) :
    .incompatible requirer id v ∈ s.issues ∨ requirer = parent.id ∧ id = r.id ∧
      ∃ y, root.resolve? pool r.id = some y ∧ v = y.version ∧
        (r.bounds.contains v = false ∨ ∃ held, s.boundsFor? r.id = some held ∧ held.contains v = false) := by
  revert h
  refine visit_induction (P := fun t => .incompatible requirer id v ∈ t.issues → _) fun t ht h => ?_
  cases ht with
  | missing hres => exact Or.inl (by simpa using h)
  | @excluded found hres hb =>
    simp only [issues_report, List.mem_append, List.mem_singleton, Issue.incompatible.injEq] at h
    refine h.imp_right ?_
    rintro ⟨rfl, rfl, rfl⟩
    exact ⟨rfl, rfl, found, hres, rfl, refused_of_narrowed? (by simp [hb])⟩
  | @outside found b hres hb hv =>
    simp only [issues_report, issues_setBounds, List.mem_append, List.mem_singleton, Issue.incompatible.injEq] at h
    refine h.imp_right ?_
    rintro ⟨rfl, rfl, rfl⟩
    exact ⟨rfl, rfl, found, hres, rfl, refused_of_narrowed? (by simp [hb, hv])⟩
  | known hres hb hv hk => exact Or.inl h
  | new hres hb hv hne hnew => exact Or.inl (by simpa using h)

/-! ## The issues of a whole search -/

/-- The requirements that were reported as missing are those visited of which nothing is known, each as often as it was visited. -/
theorem Traced.filter_isMissing {seen : List (Package × Requirement)} {s : Search} (h : Traced root pool host seen s) :
    s.issues.filter Issue.isMissing =
      ((seen.filter fun visit => root.lacks pool visit.2).map fun visit => .missing visit.1.id visit.2.id).reverse := by
  induction h with
  | start =>
    obtain ⟨l, hl⟩ := start_eq root host
    rw [hl]
    rfl
  | pop rest h ih => exact ih
  | @visit seen s parent r h hp hr ih =>
    rw [filter_isMissing_visit, ih, List.filter_cons]
    by_cases hlacks : root.lacks pool r
    · simp [hlacks]
    · simp [hlacks]

/-- A visited requirement that refuses what it resolves to has been reported. -/
theorem Traced.incompatible_mem_issues {seen : List (Package × Requirement)} {s : Search} (h : Traced root pool host seen s)
    {x y : Package} {r : Requirement} (hr : (x, r) ∈ seen) (hy : root.resolve? pool r.id = some y)
    (hout : r.bounds.contains y.version = false) : .incompatible x.id r.id y.version ∈ s.issues := by
  induction h with
  | start => exact absurd hr List.not_mem_nil
  | pop rest h ih => exact ih hr
  | @visit seen s parent r' h hp hr' ih =>
    rcases List.mem_cons.mp hr with heq | hr
    · obtain ⟨rfl, rfl⟩ := Prod.mk.inj heq
      exact incompatible_mem_issues_visit hy hout
    · exact mem_issues_visit (ih hr)

/-- What has been reported as incompatible is what the identifier resolves to. A requirement on it has been visited in the package
that is named, and one that refuses that version, in the same package or in another. -/
theorem Traced.of_incompatible_mem_issues {seen : List (Package × Requirement)} {s : Search} (h : Traced root pool host seen s)
    {requirer id : String} {v : Version} (hi : .incompatible requirer id v ∈ s.issues) :
    (∃ y, root.resolve? pool id = some y ∧ v = y.version) ∧
      (∃ visit ∈ seen, visit.1.id = requirer ∧ visit.2.id = id) ∧
      ∃ visit ∈ seen, visit.2.id = id ∧ visit.2.bounds.contains v = false := by
  induction h with
  | start =>
    obtain ⟨l, hl⟩ := start_eq root host
    rw [hl] at hi
    exact absurd hi List.not_mem_nil
  | pop rest h ih => exact ih hi
  | @visit seen s parent r h hp hr ih =>
    rcases of_incompatible_mem_issues_visit hi with hi | ⟨rfl, rfl, y, hy, rfl, hrefused⟩
    · obtain ⟨hres, ⟨named, hnamed, hnames⟩, refusing, hmem, hrefuses⟩ := ih hi
      exact ⟨hres, ⟨named, List.mem_cons_of_mem _ hnamed, hnames⟩, refusing, List.mem_cons_of_mem _ hmem, hrefuses⟩
    · refine ⟨⟨y, hy, rfl⟩, ⟨(parent, r), List.mem_cons_self, rfl, rfl⟩, ?_⟩
      rcases hrefused with hout | ⟨held, hheld, hout⟩
      · exact ⟨(parent, r), List.mem_cons_self, rfl, hout⟩
      · -- the bounds held before contain the version unless an earlier visit refuses it
        rw [h.boundsFor?_eq, hy] at hheld
        rcases contains_collected_or hheld y.version with hin | ⟨visit, hvisit, hid, hrefuses, -⟩
        · rw [hin] at hout
          cases hout
        · exact ⟨visit, List.mem_cons_of_mem _ hvisit, hid, hrefuses⟩

end Search

namespace Package

/-- The requirements of a package of which nothing is known, as they are reported. -/
def missingIssues (root : Package) (pool : PackageSet) (p : Package) : List Issue :=
  (p.requirements.filter (root.lacks pool)).map fun r => .missing p.id r.id

theorem missingIssues_eq (p : Package) : root.missingIssues pool p =
    ((Search.declared p).filter fun visit => root.lacks pool visit.2).map fun visit => .missing visit.1.id visit.2.id := by
  simp [missingIssues, Search.declared, List.filter_map, Function.comp_def]

/-- The requirements that are reported as missing are, in some order, the requirements of the package and of its dependencies of
which nothing is known. -/
theorem filter_isMissing_perm : ((root.resolution pool host).issues.filter Issue.isMissing).Perm
    ((root.expanded pool host).flatMap (root.missingIssues pool)) := by
  obtain ⟨seen, htraced, hseen⟩ := Search.exists_traced_run root pool host
  have hissues : (root.resolution pool host).issues.filter Issue.isMissing = _ := htraced.filter_isMissing
  have hdeclared : (root.expanded pool host).flatMap (root.missingIssues pool) =
      (((root.expanded pool host).flatMap Search.declared).filter fun visit => root.lacks pool visit.2).map
        fun visit => .missing visit.1.id visit.2.id := by
    rw [List.filter_flatMap, List.map_flatMap]
    exact congrArg ((root.expanded pool host).flatMap ·) (funext missingIssues_eq)
  rw [hissues, hdeclared]
  exact (List.reverse_perm _).trans ((hseen.filter _).map _)

/-- What is reported as missing are the requirements of the package and of its dependencies of which nothing is known. -/
theorem missing_mem_issues_iff {requirer id : String} : .missing requirer id ∈ (root.resolution pool host).issues ↔
    ∃ x ∈ root.expanded pool host, x.id = requirer ∧ ∃ r ∈ x.requirements, r.id = id ∧ root.resolve? pool id = none := by
  have hmissing : .missing requirer id ∈ (root.resolution pool host).issues ↔
      .missing requirer id ∈ (root.resolution pool host).issues.filter Issue.isMissing := by
    rw [List.mem_filter]
    exact (and_iff_left rfl).symm
  rw [hmissing, filter_isMissing_perm.mem_iff, List.mem_flatMap]
  refine exists_congr fun x => and_congr_right fun _ => ?_
  constructor
  · intro h
    obtain ⟨r, hr, heq⟩ := List.mem_map.mp h
    obtain ⟨hr, hlacks⟩ := List.mem_filter.mp hr
    obtain ⟨rfl, rfl⟩ := Issue.missing.inj heq
    exact ⟨rfl, r, hr, rfl, lacks_iff.mp hlacks⟩
  · rintro ⟨rfl, r, hr, rfl, hnone⟩
    exact List.mem_map.mpr ⟨r, List.mem_filter.mpr ⟨hr, lacks_iff.mpr hnone⟩, rfl⟩

/-- The issues account for the requirements of the package and of its dependencies, whatever has gone wrong. Those that name
nothing known are reported as missing, each as often as it is declared. One that refuses what it resolves to is reported as
incompatible; and whatever is reported as incompatible is the version that the identifier resolves to, required by the package that
is named and refused by some requirement. -/
theorem issues_account_for_visits (root : Package) (pool : PackageSet) (host : HostVersion) :
    ((root.resolution pool host).issues.filter Issue.isMissing).Perm
        ((root.expanded pool host).flatMap fun x =>
          (x.requirements.filter fun r => r.id != root.id && !pool.contains r.id).map fun r => .missing x.id r.id) ∧
      (∀ x ∈ root.expanded pool host, ∀ r ∈ x.requirements, ∀ y, root.resolve? pool r.id = some y →
        r.bounds.contains y.version = false → .incompatible x.id r.id y.version ∈ (root.resolution pool host).issues) ∧
      ∀ requirer id v, .incompatible requirer id v ∈ (root.resolution pool host).issues →
        (∃ y, root.resolve? pool id = some y ∧ v = y.version) ∧
        (∃ x ∈ root.expanded pool host, x.id = requirer ∧ ∃ r ∈ x.requirements, r.id = id) ∧
        ∃ x ∈ root.expanded pool host, ∃ r ∈ x.requirements, r.id = id ∧ r.bounds.contains v = false := by
  obtain ⟨seen, htraced, hseen⟩ := exists_seen_expanded root pool host
  refine ⟨filter_isMissing_perm, ?_, ?_⟩
  · intro x hx r hr y hy hout
    exact htraced.incompatible_mem_issues ((hseen x r).mpr ⟨hx, hr⟩) hy hout
  · intro requirer id v hi
    obtain ⟨hres, ⟨⟨x, r⟩, hmem, hnames⟩, ⟨x', r'⟩, hmem', hrefuses⟩ := htraced.of_incompatible_mem_issues hi
    obtain ⟨hx, hr⟩ := (hseen x r).mp hmem
    obtain ⟨hx', hr'⟩ := (hseen x' r').mp hmem'
    exact ⟨hres, ⟨x, hx, hnames.1, r, hr, hnames.2⟩, x', hx', r', hr', hrefuses⟩

/-- A browser that needs an old engine, a renderer and a font. -/
def browser : Package :=
  ⟨"browser", .one, none, [⟨"engine", .atMost .one⟩, ⟨"renderer", .any⟩, ⟨"font", .any⟩], .available⟩

/-- A newer engine, and a renderer that needs it and the font. -/
def workbench : PackageSet :=
  .ofList [⟨"engine", .two, none, [], .installed⟩,
    ⟨"renderer", .one, none, [⟨"engine", .atLeast .two⟩, ⟨"font", .any⟩], .installed⟩]

/-- The browser alone refuses the engine that there is. The renderer, which accepts it, is named as well, because nothing is left of
the bounds; and the font is missing twice. -/
example : (browser.resolution workbench .eleven).issues.map Issue.message =
    ["`browser` requires `engine` but version 2 is incompatible", "`browser` requires `font` which is missing",
      "`renderer` requires `engine` but version 2 is incompatible", "`renderer` requires `font` which is missing"] := by
  decide +kernel

end Package

end AddonPlanner
