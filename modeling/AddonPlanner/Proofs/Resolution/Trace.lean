import AddonPlanner.Proofs.Resolution.Search

/-!
# The course of a search

A search comes about by visiting requirements one after the other (`Traced`). In the end it has visited each requirement of the
package and of its dependencies once, with or without issues (`exists_traced_run`), so that what a resolution says can be read off
the list of its visits.

The bounds in force for an identifier are made of the requirements on it, one after the other; a requirement that would leave
nothing of them is passed over (`Traced.boundsFor?_eq`). What they contain in the end can be said without the order of the visits
(`contains_boundsFor?_iff`).
-/

namespace AddonPlanner

open Package

variable {root : Package} {pool : PackageSet} {host : HostVersion}

namespace Search

/-- The requirements of a package, each with the package that declares it. -/
def declared (p : Package) : List (Package × Requirement) :=
  p.requirements.map (Prod.mk p)

theorem mem_declared {p x : Package} {r : Requirement} : (x, r) ∈ declared p ↔ x = p ∧ r ∈ p.requirements := by
  unfold declared
  constructor
  · intro h
    obtain ⟨r', hr', heq⟩ := List.mem_map.mp h
    obtain ⟨rfl, rfl⟩ := Prod.mk.inj heq
    exact ⟨rfl, hr'⟩
  · rintro ⟨rfl, hr⟩
    exact List.mem_map_of_mem hr

/-- The state comes about by visiting the requirements of a list, the latest first. Only what has been found is expanded. -/
inductive Traced (root : Package) (pool : PackageSet) (host : HostVersion) : List (Package × Requirement) → Search → Prop
  /-- Nothing has been visited. -/
  | start : Traced root pool host [] (start root host)
  /-- A requirement of the package or of a dependency is visited. -/
  | visit {seen : List (Package × Requirement)} {s : Search} {parent : Package} {r : Requirement} :
    Traced root pool host seen s → (parent = root ∨ parent ∈ s.dependencies) → r ∈ parent.requirements →
      Traced root pool host ((parent, r) :: seen) (visit root pool host parent s r)
  /-- The stack changes, which is no visit. -/
  | pop {seen : List (Package × Requirement)} {s : Search} (rest : List Package) :
    Traced root pool host seen s → Traced root pool host seen { s with pending := rest }

/-! ## Every requirement is visited once -/

theorem mem_dependencies_visit {parent x : Package} {s : Search} {r : Requirement} (hx : x ∈ s.dependencies) :
    x ∈ (visit root pool host parent s r).dependencies := by
  refine visit_induction (P := fun t => x ∈ t.dependencies) fun t ht => ?_
  cases ht with
  | missing | excluded | outside | known => exact hx
  | new =>
    rw [dependencies_discover]
    exact Keyed.mem_insert_of_mem hx

theorem Traced.expand {seen : List (Package × Requirement)} {s : Search} {parent : Package} (h : Traced root pool host seen s)
    (hp : parent = root ∨ parent ∈ s.dependencies) :
    Traced root pool host ((declared parent).reverse ++ seen) (s.expand root pool host parent) := by
  have hvisits : ∀ l : List Requirement, (∀ r ∈ l, r ∈ parent.requirements) →
      Traced root pool host ((l.map (Prod.mk parent)).reverse ++ seen) (l.foldl (Search.visit root pool host parent) s) := by
    intro l hl
    induction l generalizing s seen with
    | nil => exact h
    | cons r rest ih =>
      obtain ⟨hr, hrest⟩ := List.forall_mem_cons.mp hl
      have hnext := ih (h.visit hp hr) (hp.imp_right mem_dependencies_visit) hrest
      simpa using hnext
  exact hvisits parent.requirements fun _ => id

/-- The package and its dependencies are those that have been expanded and those that are pending, each of them once. -/
def Parted (root : Package) (done : List Package) (s : Search) : Prop :=
  (root :: s.dependencies.toList).Perm (done ++ s.pending)

theorem Parted.visit {done : List Package} {s : Search} (h : Parted root done s) (parent : Package) (r : Requirement) :
    Parted root done (visit root pool host parent s r) := by
  refine visit_induction fun t ht => ?_
  cases ht with
  | missing | excluded | outside | known => exact h
  | @new found b hres hb hv hne hnew =>
    unfold Parted at h ⊢
    rw [dependencies_discover, pending_discover]
    calc root :: (s.dependencies.insert found).toList
      _ |>.Perm (root :: found :: s.dependencies.toList) := (Keyed.perm_insert_of_new hnew).cons root
      _ |>.Perm (found :: root :: s.dependencies.toList) := .swap found root _
      _ |>.Perm (found :: (done ++ s.pending)) := h.cons found
      _ |>.Perm (done ++ found :: s.pending) := List.perm_middle.symm

theorem parted_start : Parted root [] (start root host) := by
  obtain ⟨l, hl⟩ := start_eq root host
  rw [Parted, hl]
  exact .refl _

/-- Once its requirements have been visited, the package on top of the stack has been expanded. -/
theorem Parted.expand {done : List Package} {s : Search} {parent : Package} {rest : List Package} (h : Parted root done s)
    (hp : s.pending = parent :: rest) :
    Parted root (parent :: done) ({ s with pending := rest }.expand root pool host parent) := by
  have hpop : Parted root (parent :: done) { s with pending := rest } := by
    unfold Parted at h ⊢
    rw [hp] at h
    exact h.trans List.perm_middle
  exact expand_induction (fun s r _ hs => hs.visit parent r) hpop

/-- What has been visited are the requirements of what has been expanded, and the rest is pending. -/
def Accounted (root : Package) (pool : PackageSet) (host : HostVersion) (s : Search) : Prop :=
  ∃ seen done, Traced root pool host seen s ∧ seen.Perm (done.flatMap declared) ∧ Parted root done s

theorem accounted_start : (start root host).Accounted root pool host :=
  ⟨[], [], .start, .nil, parted_start⟩

/-- What is pending has been found. -/
theorem Accounted.of_mem_pending {s : Search} (h : s.Accounted root pool host) {x : Package} (hx : x ∈ s.pending) :
    x = root ∨ x ∈ s.dependencies := by
  obtain ⟨seen, done, -, -, hdone⟩ := h
  exact List.mem_cons.mp (hdone.mem_iff.mpr (List.mem_append_right done hx))

/-- Expanding the package on top of the stack visits its requirements and counts it as expanded. -/
theorem Accounted.expand {s : Search} {parent : Package} {rest : List Package} (h : s.Accounted root pool host)
    (hp : s.pending = parent :: rest) :
    Accounted root pool host ({ s with pending := rest }.expand root pool host parent) := by
  have hparent : parent = root ∨ parent ∈ s.dependencies := h.of_mem_pending (by rw [hp]; exact List.mem_cons_self)
  obtain ⟨seen, done, htraced, hseen, hdone⟩ := h
  refine ⟨(declared parent).reverse ++ seen, parent :: done, (htraced.pop rest).expand hparent, ?_, hdone.expand hp⟩
  rw [List.flatMap_cons]
  exact (List.reverse_perm _).append hseen

/-- A search visits each requirement of the package and of its dependencies once. -/
theorem exists_traced_run (root : Package) (pool : PackageSet) (host : HostVersion) :
    ∃ seen, Traced root pool host seen ((start root host).run root pool host) ∧
      seen.Perm ((root :: (root.resolution pool host).dependencies.toList).flatMap declared) := by
  obtain ⟨⟨seen, done, htraced, hseen, hdone⟩, hpending⟩ :=
    @run_induction root pool host (Accounted root pool host) (fun s parent rest hp hs => hs.expand hp) _ accounted_start
  unfold Parted at hdone
  rw [hpending, List.append_nil] at hdone
  exact ⟨seen, htraced, hseen.trans (hdone.symm.flatMap_right declared)⟩

/-! ## The bounds on an identifier -/

/-- The bounds in force once a requirement has been visited; one that excludes what is held is passed over. -/
def narrow (held? : Option (Bounds Version)) (b : Bounds Version) : Bounds Version :=
  match held? with
  | none => b
  | some held => (held.join b).getD held

/-- The bounds that the visits of a list, the latest first, leave in force for an identifier. -/
def collected (id : String) : List (Package × Requirement) → Option (Bounds Version)
  | [] => none
  | (_, r) :: earlier => if r.id = id then some (narrow (collected id earlier) r.bounds) else collected id earlier

/-- A requirement is put to the bounds that are held, or it excludes them and they stay. -/
theorem narrow_cases (held? : Option (Bounds Version)) (b : Bounds Version) :
    (∀ v, (narrow held? b).contains v ↔ b.contains v ∧ ∀ held, held? = some held → held.contains v) ∨
      ∃ held, held? = some held ∧ narrow held? b = held ∧ ∀ v, ¬ (held.contains v ∧ b.contains v) := by
  cases held? with
  | none => simp [narrow]
  | some held =>
    cases hj : held.join b with
    | none => exact Or.inr ⟨held, rfl, by simp [narrow, hj], Bounds.not_contains_of_join_eq_none hj⟩
    | some c =>
      left
      intro v
      simp only [narrow, hj, Option.getD_some, Bounds.contains_join_iff hj v, Option.some.injEq, forall_eq']
      exact and_comm

theorem contains_of_narrow {held : Bounds Version} {b : Bounds Version} {v : Version}
    (hv : (narrow (some held) b).contains v) : held.contains v := by
  rcases narrow_cases (some held) b with h | ⟨held', hheld, hstay, -⟩
  · exact ((h v).mp hv).2 held rfl
  · rwa [Option.some.inj hheld, ← hstay]

theorem boundsFor?_visit {parent : Package} {s : Search} {r : Requirement} (hres : (root.resolve? pool r.id).isSome)
    (id : String) : (visit root pool host parent s r).boundsFor? id =
      if r.id = id then some (narrow (s.boundsFor? r.id) r.bounds) else s.boundsFor? id := by
  have hset : ∀ b, s.narrowed? r = some b → narrow (s.boundsFor? r.id) r.bounds = b := by
    intro b hb
    unfold narrowed? at hb
    cases hheld : s.boundsFor? r.id with
    | none => simpa [hheld, narrow] using hb
    | some held => simp_all [narrow]
  refine visit_induction (P := fun t => t.boundsFor? id =
    if r.id = id then some (narrow (s.boundsFor? r.id) r.bounds) else s.boundsFor? id) fun t ht => ?_
  cases ht with
  | missing hnone => simp [hnone] at hres
  | excluded _ hb =>
    show s.boundsFor? id = _
    unfold narrowed? at hb
    cases hheld : s.boundsFor? r.id with
    | none => simp [hheld] at hb
    | some held =>
      split
      · next heq => simp_all [narrow]
      · rfl
  | outside _ hb hv =>
    show (s.setBounds r.id _).boundsFor? id = _
    rw [boundsFor?_setBounds, hset _ hb]
  | known _ hb hv hk => rw [boundsFor?_setBounds, hset _ hb]
  | new _ hb hv hne hnew => rw [boundsFor?_discover, boundsFor?_setBounds, hset _ hb]

/-- The bounds in force for an identifier that resolves are those collected on the way; for any other there are none. -/
theorem Traced.boundsFor?_eq {seen : List (Package × Requirement)} {s : Search} (h : Traced root pool host seen s) (id : String) :
    s.boundsFor? id = if (root.resolve? pool id).isSome then collected id seen else none := by
  induction h with
  | start =>
    obtain ⟨l, hl⟩ := start_eq root host
    rw [hl]
    exact (ite_self none).symm
  | pop rest h ih => exact ih
  | @visit seen s parent r h hp hr ih =>
    cases hres : root.resolve? pool r.id with
    | none =>
      have hvisit : (Search.visit root pool host parent s r).boundsFor? id = s.boundsFor? id := by
        simp only [Search.visit, hres]
        rfl
      by_cases hid : r.id = id
      · subst hid
        simp [hvisit, ih, hres]
      · simp [hvisit, ih, collected, hid]
    | some y =>
      rw [boundsFor?_visit (by simp [hres]), collected]
      by_cases hid : r.id = id
      · subst hid
        simp [ih, hres]
      · simp [ih, hid]

/-- A visited requirement either has had its part in the bounds or shares no version with them. -/
theorem exists_collected {seen : List (Package × Requirement)} {parent : Package} {r : Requirement} (h : (parent, r) ∈ seen) :
    ∃ b, collected r.id seen = some b ∧
      ((∀ v, b.contains v → r.bounds.contains v) ∨ ∀ v, ¬ (b.contains v ∧ r.bounds.contains v)) := by
  induction seen with
  | nil => exact absurd h List.not_mem_nil
  | cons visit earlier ih =>
    rcases List.mem_cons.mp h with rfl | h
    · refine ⟨narrow (collected r.id earlier) r.bounds, by simp [collected], ?_⟩
      rcases narrow_cases (collected r.id earlier) r.bounds with hboth | ⟨held, -, hstay, hapart⟩
      · exact Or.inl fun v hv => ((hboth v).mp hv).1
      · exact Or.inr (hstay ▸ hapart)
    · obtain ⟨held, hheld, hspec⟩ := ih h
      by_cases hid : visit.2.id = r.id
      · -- a later visit leaves fewer versions at most, which keeps either side of the disjunction
        refine ⟨narrow (some held) visit.2.bounds, by simp [collected, hid, hheld], ?_⟩
        refine hspec.imp (fun hin v hv => hin v (contains_of_narrow hv)) fun hapart v hv => ?_
        exact hapart v ⟨contains_of_narrow hv.1, hv.2⟩
      · exact ⟨held, by simp [collected, hid, hheld], hspec⟩

/-- The bounds contain a version unless a requirement that has had its part in them excludes it. -/
theorem contains_collected_or {seen : List (Package × Requirement)} {id : String} {b : Bounds Version}
    (h : collected id seen = some b) (v : Version) :
    b.contains v ∨ ∃ visit ∈ seen, visit.2.id = id ∧ visit.2.bounds.contains v = false ∧
      ∀ w, b.contains w → visit.2.bounds.contains w := by
  induction seen generalizing b with
  | nil => cases h
  | cons visit earlier ih =>
    rw [collected] at h
    split at h
    · next hid =>
      obtain rfl := Option.some.inj h
      cases hheld : collected id earlier with
      | none =>
        cases hv : visit.2.bounds.contains v with
        | false => exact Or.inr ⟨visit, List.mem_cons_self, hid, hv, fun _ h => h⟩
        | true => exact Or.inl hv
      | some held =>
        rcases ih hheld with hin | ⟨other, hmem, hother, hout, hsub⟩
        · rcases narrow_cases (some held) visit.2.bounds with hboth | ⟨held', heq, hstay, -⟩
          · cases hv : visit.2.bounds.contains v with
            | false => exact Or.inr ⟨visit, List.mem_cons_self, hid, hv, fun w hw => ((hboth w).mp hw).1⟩
            | true => exact Or.inl ((hboth v).mpr ⟨hv, fun _ h' => Option.some.inj h' ▸ hin⟩)
          · obtain rfl := Option.some.inj heq
            left
            rw [hstay]
            exact hin
        · exact Or.inr ⟨other, List.mem_cons_of_mem _ hmem, hother, hout, fun w hw => hsub w (contains_of_narrow hw)⟩
    · rcases ih h with hin | ⟨other, hmem, hother⟩
      · exact Or.inl hin
      · exact Or.inr ⟨other, List.mem_cons_of_mem _ hmem, hother⟩

/-- The visits of a search are the requirements of the package and of its dependencies. -/
theorem exists_seen (root : Package) (pool : PackageSet) (host : HostVersion) :
    ∃ seen, Traced root pool host seen ((start root host).run root pool host) ∧
      ∀ x r, (x, r) ∈ seen ↔ (x = root ∨ x ∈ (root.resolution pool host).dependencies) ∧ r ∈ x.requirements := by
  obtain ⟨seen, htraced, hseen⟩ := exists_traced_run root pool host
  refine ⟨seen, htraced, fun x r => ?_⟩
  rw [hseen.mem_iff, List.mem_flatMap]
  constructor
  · rintro ⟨p, hp, hr⟩
    obtain ⟨rfl, hr⟩ := mem_declared.mp hr
    exact ⟨List.mem_cons.mp hp, hr⟩
  · rintro ⟨hx, hr⟩
    exact ⟨x, List.mem_cons.mpr hx, mem_declared.mpr ⟨rfl, hr⟩⟩

/-- Bounds that contain the version of what their identifier resolves to have led to it. -/
theorem Traced.contains_of_boundsFor? {seen : List (Package × Requirement)} {s : Search} (h : Traced root pool host seen s)
    {y : Package} {b : Bounds Version} (hres : root.resolve? pool y.id = some y) (hb : s.boundsFor? y.id = some b)
    (hv : b.contains y.version) : y.id = root.id ∨ s.dependencies.contains y.id := by
  induction h generalizing b with
  | start =>
    obtain ⟨l, hl⟩ := start_eq root host
    rw [hl] at hb
    cases hb
  | pop rest h ih => exact ih hb hv
  | @visit seen s parent r h hp hr ih =>
    revert hb
    refine visit_induction (P := fun t => t.boundsFor? y.id = some b → y.id = root.id ∨ t.dependencies.contains y.id)
      fun t ht hb => ?_
    cases ht with
    | missing | excluded => exact ih hb hv
    | @outside found c hfound _ hout =>
      change (s.setBounds r.id c).boundsFor? y.id = some b at hb
      rw [boundsFor?_setBounds] at hb
      split at hb
      · next hid =>
        rw [hid, hres] at hfound
        rw [← Option.some.inj hfound, Option.some.inj hb, hv] at hout
        cases hout
      · exact ih hb hv
    | @known found c hfound _ _ hk =>
      rw [boundsFor?_setBounds] at hb
      split at hb
      · next hid =>
        rw [hid, hres] at hfound
        rwa [← Option.some.inj hfound] at hk
      · exact ih hb hv
    | @new found c hfound _ _ _ _ =>
      rw [boundsFor?_discover, boundsFor?_setBounds] at hb
      rw [dependencies_discover, Keyed.contains_insert]
      split at hb
      · next hid =>
        rw [hid, hres] at hfound
        rw [Option.some.inj hfound, beq_self_eq_true, Bool.true_or]
        exact Or.inr rfl
      · refine (ih hb hv).imp_right fun hk => ?_
        rw [dependencies_setBounds, hk, Bool.or_true]

end Search

namespace Package

/-- The packages whose requirements a resolution visits: the package itself and its dependencies. -/
def expanded (root : Package) (pool : PackageSet) (host : HostVersion) : List Package :=
  root :: (root.resolution pool host).dependencies.toList

theorem mem_expanded {x : Package} :
    x ∈ root.expanded pool host ↔ x = root ∨ x ∈ (root.resolution pool host).dependencies :=
  List.mem_cons

/-- The package and its dependencies have different identifiers. -/
theorem nodup_map_id_expanded : ((root.expanded pool host).map Package.id).Nodup := by
  refine List.nodup_cons.mpr ⟨?_, Keyed.nodup_keys _⟩
  intro hmem
  obtain ⟨x, hx, hid⟩ := List.mem_map.mp hmem
  exact (Search.reached_run.dependencies x hx).2 hid

/-- Only identifiers that resolve have bounds. -/
theorem isSome_resolve?_of_boundsFor? {id : String} {b : Bounds Version}
    (hb : (root.resolution pool host).boundsFor? id = some b) : (root.resolve? pool id).isSome := by
  obtain ⟨seen, htraced, -⟩ := Search.exists_seen root pool host
  have heq : (root.resolution pool host).boundsFor? id = _ := htraced.boundsFor?_eq id
  rw [hb] at heq
  split at heq
  · assumption
  · cases heq

/-- For each requirement of the package and of its dependencies there are bounds in force, if it resolves. Either they are no
wider than the requirement, or they share no version with it. -/
theorem exists_boundsFor?_of_mem {x : Package} (hx : x = root ∨ x ∈ (root.resolution pool host).dependencies) {r : Requirement}
    (hr : r ∈ x.requirements) (hres : (root.resolve? pool r.id).isSome) :
    ∃ b, (root.resolution pool host).boundsFor? r.id = some b ∧
      ((∀ v, b.contains v → r.bounds.contains v) ∨ ∀ v, ¬ (b.contains v ∧ r.bounds.contains v)) := by
  obtain ⟨seen, htraced, hseen⟩ := Search.exists_seen root pool host
  obtain ⟨b, hb, hspec⟩ := Search.exists_collected ((hseen x r).mpr ⟨hx, hr⟩)
  refine ⟨b, ?_, hspec⟩
  have heq : (root.resolution pool host).boundsFor? r.id = _ := htraced.boundsFor?_eq r.id
  rw [heq, if_pos hres, hb]

/-- The bounds in force contain a version unless a requirement that they are no wider than excludes it. -/
theorem contains_boundsFor?_or {id : String} {b : Bounds Version} (hb : (root.resolution pool host).boundsFor? id = some b)
    (v : Version) :
    b.contains v ∨ ∃ x, (x = root ∨ x ∈ (root.resolution pool host).dependencies) ∧ ∃ r ∈ x.requirements, r.id = id ∧
      r.bounds.contains v = false ∧ ∀ w, b.contains w → r.bounds.contains w := by
  obtain ⟨seen, htraced, hseen⟩ := Search.exists_seen root pool host
  have heq : (root.resolution pool host).boundsFor? id = _ := htraced.boundsFor?_eq id
  rw [hb, if_pos (isSome_resolve?_of_boundsFor? hb)] at heq
  refine (Search.contains_collected_or heq.symm v).imp_right ?_
  rintro ⟨⟨x, r⟩, hmem, hr⟩
  obtain ⟨hx, hmem⟩ := (hseen x r).mp hmem
  exact ⟨x, hx, r, hmem, hr⟩

/-- What an identifier resolves to is the package or a dependency when the bounds in force contain its version. -/
theorem mem_dependencies_of_boundsFor? {y : Package} {b : Bounds Version} (hres : root.resolve? pool y.id = some y)
    (hb : (root.resolution pool host).boundsFor? y.id = some b) (hv : b.contains y.version) :
    y = root ∨ y ∈ (root.resolution pool host).dependencies := by
  obtain ⟨seen, htraced, -⟩ := Search.exists_seen root pool host
  rcases resolve?_eq_some_iff.mp hres with ⟨-, rfl⟩ | ⟨hne, -, hy⟩
  · exact Or.inl rfl
  · obtain ⟨x, hx, hid⟩ := Keyed.exists_mem_of_contains ((htraced.contains_of_boundsFor? hres hb hv).resolve_left hne)
    right
    rw [← Keyed.eq_of_key_eq (mem_of_mem_dependencies hx) hy hid]
    exact hx

/-- The bounds on an identifier contain a version exactly when they contain some version and none that they share with a
requirement on the identifier which excludes that version. -/
theorem contains_boundsFor?_iff {id : String} {b : Bounds Version} (hb : (root.resolution pool host).boundsFor? id = some b)
    (v : Version) :
    b.contains v ↔ (∃ w, b.contains w) ∧
      ∀ x, (x = root ∨ x ∈ (root.resolution pool host).dependencies) → ∀ r ∈ x.requirements, r.id = id →
        r.bounds.contains v = false → ∀ w, ¬ (b.contains w ∧ r.bounds.contains w) := by
  constructor
  · intro hv
    refine ⟨⟨v, hv⟩, fun x hx r hr hid hout => ?_⟩
    subst hid
    obtain ⟨b', hb', hspec⟩ := exists_boundsFor?_of_mem hx hr (isSome_resolve?_of_boundsFor? hb)
    obtain rfl := Option.some.inj (hb'.symm.trans hb)
    refine hspec.resolve_left fun hin => ?_
    rw [hin v hv] at hout
    cases hout
  · rintro ⟨⟨w, hw⟩, hapart⟩
    refine (contains_boundsFor?_or hb v).resolve_right ?_
    rintro ⟨x, hx, r, hr, hid, hout, hsub⟩
    exact hapart x hx r hr hid hout w ⟨hw, hsub w hw⟩

end Package

end AddonPlanner
