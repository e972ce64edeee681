import AddonPlanner.Proofs.Catalog

/-!
# The catalog of a listing

A listing may name a package twice in one role; then it has no catalog, and the first package that repeats an identifier is the
error. Otherwise its catalog holds every package that was listed, changed in nothing but an unknown status
(`Catalog.ofListing_refuses_repeats`). The roles are filled in before repeats are looked for, which makes no difference, because no
identifier changes.
-/

namespace AddonPlanner

/-! ## Repeats -/

/-- An identifier is the first in a list to repeat an earlier one. -/
def FirstRepeat (ids : List String) (id : String) : Prop :=
  ∃ front rest, ids = front ++ id :: rest ∧ front.Nodup ∧ id ∈ front

theorem FirstRepeat.not_nodup {ids : List String} {id : String} (h : FirstRepeat ids id) : ¬ ids.Nodup := by
  obtain ⟨front, rest, rfl, -, hid⟩ := h
  intro hnodup
  exact (List.nodup_append.mp hnodup).2.2 id hid id List.mem_cons_self rfl

/-- The identifiers behind some different ones are different from them and from each other, or there is a first one that is not. -/
theorem nodup_or_firstRepeat {front : List String} (hfront : front.Nodup) (rest : List String) :
    (front ++ rest).Nodup ∨ ∃ id, FirstRepeat (front ++ rest) id := by
  induction rest generalizing front with
  | nil => exact Or.inl (by rwa [List.append_nil])
  | cons id rest ih =>
    by_cases hid : id ∈ front
    · exact Or.inr ⟨id, front, rest, rfl, hfront, hid⟩
    · have hnodup : (front ++ [id]).Nodup := by
        rw [List.nodup_append]
        refine ⟨hfront, List.pairwise_singleton _ id, ?_⟩
        rintro k hk _ hk' rfl
        exact hid (List.mem_singleton.mp hk' ▸ hk)
      rw [List.append_cons]
      exact ih hnodup

theorem exists_firstRepeat_iff {ids : List String} : (∃ id, FirstRepeat ids id) ↔ ¬ ids.Nodup :=
  ⟨fun ⟨_, h⟩ => h.not_nodup, fun h => (nodup_or_firstRepeat List.nodup_nil ids).resolve_left h⟩

namespace PackageSet

/-- A list is refused at the first package that repeats an identifier. -/
theorem ofDistinct_of_firstRepeat {l : List Package} {id : String} (h : FirstRepeat (l.map Package.id) id) :
    ofDistinct l = .error (.duplicatePackage id) := by
  obtain ⟨ids, others, hids, hnodup, hid⟩ := h
  obtain ⟨front, tail, rfl, rfl, htail⟩ := List.map_eq_append_iff.mp hids
  obtain ⟨p, rest, rfl, rfl, rfl⟩ := List.map_eq_cons_iff.mp htail
  have hheld : (Keyed.ofList front : PackageSet).contains p.id := by
    rw [Keyed.contains_ofList, List.any_eq_true]
    obtain ⟨q, hq, hqid⟩ := List.mem_map.mp hid
    exact ⟨q, hq, beq_iff_eq.mpr hqid⟩
  have hfront := ofDistinct_of_nodup hnodup
  unfold ofDistinct at hfront ⊢
  rw [List.foldlM_append, hfront]
  simp only [bind, Except.bind, List.foldlM_cons, Keyed.insert?, hheld, if_true]

theorem ofDistinct_eq_ok_iff {l : List Package} {s : PackageSet} :
    ofDistinct l = .ok s ↔ (l.map Package.id).Nodup ∧ s = .ofList l := by
  constructor
  · intro h
    have hnodup : (l.map Package.id).Nodup := by
      refine Classical.byContradiction fun hrepeat => ?_
      obtain ⟨id, hid⟩ := exists_firstRepeat_iff.mpr hrepeat
      rw [ofDistinct_of_firstRepeat hid] at h
      cases h
    rw [ofDistinct_of_nodup hnodup] at h
    exact ⟨hnodup, (Except.ok.inj h).symm⟩
  · rintro ⟨hnodup, rfl⟩
    exact ofDistinct_of_nodup hnodup

theorem ofDistinct_eq_error_iff {l : List Package} {e : Error} :
    ofDistinct l = .error e ↔ ∃ id, FirstRepeat (l.map Package.id) id ∧ e = .duplicatePackage id := by
  constructor
  · intro h
    have hrepeat : ¬ (l.map Package.id).Nodup := by
      intro hnodup
      rw [ofDistinct_of_nodup hnodup] at h
      cases h
    obtain ⟨id, hid⟩ := exists_firstRepeat_iff.mpr hrepeat
    rw [ofDistinct_of_firstRepeat hid] at h
    exact ⟨id, hid, (Except.error.inj h).symm⟩
  · rintro ⟨id, hid, rfl⟩
    exact ofDistinct_of_firstRepeat hid

end PackageSet

/-! ## Two lists -/

namespace Catalog

theorem ofLists_eq_ok_iff {installed available : List Package} {c : Catalog} :
    ofLists installed available = .ok c ↔
      ((installed.map Package.id).Nodup ∧ c.installed = .ofList installed) ∧
        (available.map Package.id).Nodup ∧ c.available = .ofList available := by
  rw [← PackageSet.ofDistinct_eq_ok_iff, ← PackageSet.ofDistinct_eq_ok_iff]
  obtain ⟨i, a⟩ := c
  unfold ofLists
  cases PackageSet.ofDistinct installed with
  | error e => exact ⟨nofun, nofun⟩
  | ok s =>
    cases PackageSet.ofDistinct available with
    | error e => exact ⟨nofun, nofun⟩
    | ok t =>
      show Except.ok (⟨s, t⟩ : Catalog) = _ ↔ _
      simp

/-- A repeat among the installed packages is reported before one among the available packages. -/
theorem ofLists_eq_error_iff {installed available : List Package} {e : Error} :
    ofLists installed available = .error e ↔
      (∃ id, FirstRepeat (installed.map Package.id) id ∧ e = .duplicatePackage id) ∨
        (installed.map Package.id).Nodup ∧ ∃ id, FirstRepeat (available.map Package.id) id ∧ e = .duplicatePackage id := by
  rw [← PackageSet.ofDistinct_eq_error_iff, ← PackageSet.ofDistinct_eq_error_iff]
  unfold ofLists
  cases hinstalled : PackageSet.ofDistinct installed with
  | error e' =>
    obtain ⟨id, hid, -⟩ := PackageSet.ofDistinct_eq_error_iff.mp hinstalled
    show Except.error e' = Except.error e ↔ _
    simp [hid.not_nodup]
  | ok s =>
    obtain ⟨hnodup, -⟩ := PackageSet.ofDistinct_eq_ok_iff.mp hinstalled
    cases PackageSet.ofDistinct available with
    | error e' =>
      show Except.error e' = Except.error e ↔ _
      simp [hnodup]
    | ok t =>
      show Except.ok _ = Except.error e ↔ _
      simp

/-! ## Listings -/

variable {l : Listing}

theorem orStatus_eq (p : Package) (status : Status) :
    p.orStatus status = { p with status := if p.status = .unknown then status else p.status } := by
  unfold Package.orStatus
  split <;> rfl

theorem map_id_map_orStatus (packages : List Package) (f : Package → Status) :
    (packages.map fun p => p.orStatus (f p)).map Package.id = packages.map Package.id := by
  rw [List.map_map]
  refine List.map_congr_left fun p _ => ?_
  rw [Function.comp_apply, orStatus_eq]

/-- Filling in the roles changes no identifier. -/
theorem ids_withRoles (l : Listing) :
    l.withRoles.installed.map Package.id = l.installed.map Package.id ∧
      l.withRoles.available.map Package.id = l.available.map Package.id :=
  ⟨map_id_map_orStatus l.installed _, map_id_map_orStatus l.available _⟩

theorem mem_installed_withRoles_iff {x : Package} :
    x ∈ l.withRoles.installed ↔
      ∃ p ∈ l.installed, x = { p with status := if p.status = .unknown then .installed else p.status } := by
  rw [Listing.withRoles, List.mem_map]
  refine exists_congr fun p => and_congr_right fun _ => ?_
  rw [orStatus_eq, eq_comm]

theorem mem_available_withRoles_iff {x : Package} :
    x ∈ l.withRoles.available ↔
      ∃ p ∈ l.available, x = { p with
        status := if p.status = .unknown then
            if ∃ k ∈ l.installed, k.id = p.id ∧ (k.version == p.version) = true then .installed else .available
          else p.status } := by
  have hlisted (p : Package) : l.installed.any (·.sameRelease p) = true ↔
      ∃ k ∈ l.installed, k.id = p.id ∧ (k.version == p.version) = true := by
    simp only [List.any_eq_true, Package.sameRelease, Bool.and_eq_true, beq_iff_eq]
  rw [Listing.withRoles, List.mem_map]
  refine exists_congr fun p => and_congr_right fun _ => ?_
  rw [orStatus_eq, eq_comm]
  simp only [hlisted]

/-- A listing has a catalog exactly when it names no package twice in one role. The catalog then holds what was listed, with its
status where one was given. A package that was listed as installed without a status is installed, and an available one is installed
when an equal version of it was listed as installed, and available otherwise, so no status is unknown. A listing without a catalog
is refused for the first package that repeats an identifier, among the installed ones or, where these do not repeat any, among the
available ones. -/
theorem ofListing_refuses_repeats (l : Listing) :
    ((∃ c, ofListing l = .ok c) ↔ (l.installed.map Package.id).Nodup ∧ (l.available.map Package.id).Nodup) ∧
    (∀ c, ofListing l = .ok c →
      (∀ x, x ∈ c.installed ↔
        ∃ p ∈ l.installed, x = { p with status := if p.status = .unknown then .installed else p.status }) ∧
      (∀ x, x ∈ c.available ↔
        ∃ p ∈ l.available, x = { p with
          status := if p.status = .unknown then
              if ∃ k ∈ l.installed, k.id = p.id ∧ (k.version == p.version) = true then .installed else .available
            else p.status }) ∧
      ∀ x, x ∈ c.installed ∨ x ∈ c.available → x.status ≠ .unknown) ∧
    ∀ e, ofListing l = .error e ↔
      (∃ id, FirstRepeat (l.installed.map Package.id) id ∧ e = .duplicatePackage id) ∨
        (l.installed.map Package.id).Nodup ∧
          ∃ id, FirstRepeat (l.available.map Package.id) id ∧ e = .duplicatePackage id := by
  obtain ⟨hinstalled, havailable⟩ := ids_withRoles l
  refine ⟨?_, fun c hc => ⟨fun x => ?_, fun x => ?_, fun x => status_ne_unknown_of_ofListing hc⟩, fun e => ?_⟩
  · simp only [ofListing, ofLists_eq_ok_iff, hinstalled, havailable]
    constructor
    · rintro ⟨c, ⟨hi, -⟩, ha, -⟩
      exact ⟨hi, ha⟩
    · rintro ⟨hi, ha⟩
      exact ⟨⟨_, _⟩, ⟨hi, rfl⟩, ha, rfl⟩
  · rw [(mem_of_ofListing hc x).1, mem_installed_withRoles_iff]
  · rw [(mem_of_ofListing hc x).2, mem_available_withRoles_iff]
  · rw [ofListing, ofLists_eq_error_iff, hinstalled, havailable]

/-- The first version of a codec, as a listing of what is installed names it. -/
def codec : Package :=
  ⟨"codec", .one, none, [], .unknown⟩

/-- The same version in another spelling, as a listing of what is available names it. -/
def respelledCodec : Package :=
  ⟨"codec", ⟨0, "01", by decide⟩, none, [], .unknown⟩

/-- A listing with the codec in both roles, and a mixer that is being fetched. -/
def shelf : Listing :=
  ⟨[codec], [⟨"mixer", .two, none, [⟨"codec", .any⟩], .downloading⟩, respelledCodec]⟩

/-- The codec counts as installed in both roles, since its versions are equal, and the mixer keeps the status it was given. -/
theorem respelled_codec_is_installed :
    ∃ c, ofListing shelf = .ok c ∧ { codec with status := .installed } ∈ c.installed ∧
      { respelledCodec with status := .installed } ∈ c.available ∧
      ⟨"mixer", .two, none, [⟨"codec", .any⟩], .downloading⟩ ∈ c.available := by
  obtain ⟨hexists, hentries, -⟩ := ofListing_refuses_repeats shelf
  obtain ⟨c, hc⟩ := hexists.mpr (by decide)
  obtain ⟨hinstalled, havailable, -⟩ := hentries c hc
  have hlisted : ∃ k ∈ shelf.installed, k.id = respelledCodec.id ∧ (k.version == respelledCodec.version) = true :=
    ⟨codec, List.mem_cons_self, rfl, by decide +kernel⟩
  refine ⟨c, hc, (hinstalled _).mpr ⟨codec, List.mem_cons_self, rfl⟩,
    (havailable _).mpr ⟨respelledCodec, List.mem_cons_of_mem _ List.mem_cons_self, ?_⟩,
    (havailable _).mpr ⟨_, List.mem_cons_self, rfl⟩⟩
  rw [if_pos (show respelledCodec.status = .unknown from rfl), if_pos hlisted]

end Catalog

end AddonPlanner
