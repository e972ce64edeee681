import AddonPlanner.Catalog
import AddonPlanner.Proofs.Bounds
import AddonPlanner.Proofs.Keyed
import AddonPlanner.Proofs.Version.Tokens

/-!
# The statuses of a catalog

A catalog made of a listing holds just the packages that were listed, and no status in it is unknown, so it is the catalog of its
own listing (`ofListing_toListing`). When no status was given, the role decides: what is available counts as available unless its
release is installed already (`exists_of_statusOf_ne_available`).
-/

namespace AddonPlanner

/-- The version `1`. -/
def Version.one : Version := ⟨0, "1", by decide⟩

/-- The version `2`. -/
def Version.two : Version := ⟨0, "2", by decide⟩

/-- The host version `11.0`. -/
def HostVersion.eleven : HostVersion := ⟨11, some 0, none, fun _ => rfl⟩

/-- Equal versions meet the same requirements. -/
theorem Bounds.contains_of_beq {v w : Version} (h : (v == w) = true) {b : Bounds Version} (hw : b.contains w) :
    b.contains v := by
  rwa [Bounds.contains_congr (Ordering.isEq_iff_eq_eq.mp h)]

/-! ## Listings -/

/-- The set of a list that names no package twice has just the members of the list. -/
theorem PackageSet.mem_ofDistinct {l : List Package} {s : PackageSet} (h : ofDistinct l = .ok s) {x : Package} :
    x ∈ s ↔ x ∈ l := by
  unfold ofDistinct at h
  refine Iff.trans ?_ (or_iff_right List.not_mem_nil : (x ∈ (∅ : PackageSet) ∨ x ∈ l) ↔ x ∈ l)
  generalize (∅ : PackageSet) = s₀ at h ⊢
  induction l generalizing s₀ with
  | nil =>
    obtain rfl : s₀ = s := Except.ok.inj h
    simp
  | cons p rest ih =>
    rw [List.foldlM_cons] at h
    cases hc : s₀.contains p.id with
    | true =>
      simp only [Keyed.insert?, hc, if_true] at h
      cases h
    | false =>
      simp only [Keyed.insert?, hc, Bool.false_eq_true, if_false] at h
      rw [ih (s₀.insert p) h, Keyed.mem_insert_of_new hc, List.mem_cons, or_comm (a := x = p), or_assoc]

/-- A list that names no package twice has a set. -/
theorem PackageSet.ofDistinct_of_nodup {l : List Package} (h : (l.map Package.id).Nodup) : ofDistinct l = .ok (.ofList l) := by
  unfold ofDistinct Keyed.ofList
  have hnew : ∀ p ∈ l, (∅ : PackageSet).contains p.id = false := fun _ _ => rfl
  show List.foldlM _ ∅ l = Except.ok (Keyed.insertAll ∅ l)
  generalize (∅ : PackageSet) = s at hnew ⊢
  induction l generalizing s with
  | nil => rfl
  | cons p rest ih =>
    rw [List.map_cons, List.nodup_cons] at h
    rw [List.foldlM_cons, Keyed.insert?, hnew p List.mem_cons_self]
    refine ih h.2 (s.insert p) fun q hq => ?_
    rw [Keyed.contains_insert, hnew q (List.mem_cons_of_mem _ hq), Bool.or_false, beq_eq_false_iff_ne]
    exact fun hid => h.1 (hid ▸ List.mem_map_of_mem hq)

namespace Catalog

variable {l : Listing} {c : Catalog}

/-- A catalog made of a listing has the listed packages, at the statuses of their roles. -/
theorem mem_of_ofListing (h : ofListing l = .ok c) (x : Package) :
    (x ∈ c.installed ↔ x ∈ l.withRoles.installed) ∧ (x ∈ c.available ↔ x ∈ l.withRoles.available) := by
  unfold ofListing ofLists at h
  cases hi : PackageSet.ofDistinct l.withRoles.installed with
  | error e => rw [hi] at h; cases h
  | ok installed =>
    cases ha : PackageSet.ofDistinct l.withRoles.available with
    | error e => rw [hi, ha] at h; cases h
    | ok available =>
      rw [hi, ha] at h
      obtain rfl : (⟨installed, available⟩ : Catalog) = c := Except.ok.inj h
      exact ⟨PackageSet.mem_ofDistinct hi, PackageSet.mem_ofDistinct ha⟩

/-! ## Statuses -/

theorem status_orStatus_ne_unknown {p : Package} {status : Status} (h : status ≠ .unknown) :
    (p.orStatus status).status ≠ .unknown := by
  unfold Package.orStatus
  split
  · exact h
  · next hp => exact hp

/-- In a catalog made of a listing no status is unknown. -/
theorem status_ne_unknown_of_ofListing (h : ofListing l = .ok c) {x : Package} (hx : x ∈ c.installed ∨ x ∈ c.available) :
    x.status ≠ .unknown := by
  rcases hx with hx | hx
  · obtain ⟨p, -, rfl⟩ := List.mem_map.mp ((mem_of_ofListing h x).1.mp hx)
    exact status_orStatus_ne_unknown (by decide)
  · obtain ⟨p, -, rfl⟩ := List.mem_map.mp ((mem_of_ofListing h x).2.mp hx)
    refine status_orStatus_ne_unknown ?_
    split <;> decide

/-- Where every status is known the roles change nothing. -/
theorem map_orStatus_eq_self {packages : List Package} (hp : ∀ p ∈ packages, p.status ≠ .unknown) (f : Package → Status) :
    packages.map (fun p => p.orStatus (f p)) = packages := by
  have hself : ∀ p ∈ packages, p.orStatus (f p) = p := fun p hmem => if_neg (hp p hmem)
  rw [List.map_congr_left hself, List.map_id']

/-- A catalog in which no status is unknown is the catalog of its own listing. -/
theorem ofListing_toListing (h : ∀ p, p ∈ c.installed ∨ p ∈ c.available → p.status ≠ .unknown) :
    ofListing c.toListing = .ok c := by
  have hinstalled : c.toListing.withRoles.installed = c.installed.toList :=
    map_orStatus_eq_self (fun p hp => h p (Or.inl hp)) _
  have havailable : c.toListing.withRoles.available = c.available.toList :=
    map_orStatus_eq_self (fun p hp => h p (Or.inr hp)) _
  rw [ofListing, ofLists, hinstalled, havailable, PackageSet.ofDistinct_of_nodup (Keyed.nodup_keys c.installed),
    PackageSet.ofDistinct_of_nodup (Keyed.nodup_keys c.available), Keyed.ofList_toList, Keyed.ofList_toList]
  rfl

/-- The catalog holds an installed package at the status it has itself. -/
theorem statusOf_installed {p : Package} (hp : p ∈ c.installed) : c.statusOf p = p.status := by
  rw [statusOf, Keyed.mem_iff_get?.mp hp, Option.toList_some, List.cons_append,
    List.find?_cons_of_pos (p := fun q : Package => q.version == p.version) (BEq.refl p.version)]

/-- An available package whose version is not installed is held at the status it has itself. -/
theorem statusOf_available {p : Package} (hp : p ∈ c.available)
    (hnew : ∀ k ∈ c.installed, k.id = p.id → (k.version == p.version) = false) : c.statusOf p = p.status := by
  have havailable : (c.available.get? p.id).toList.find? (·.version == p.version) = some p := by
    rw [Keyed.mem_iff_get?.mp hp]
    exact List.find?_cons_of_pos (BEq.refl p.version)
  have hinstalled : (c.installed.get? p.id).toList.find? (·.version == p.version) = none := by
    cases hg : c.installed.get? p.id with
    | none => rfl
    | some k =>
      have hk := hnew k (Keyed.mem_of_get? hg) (Keyed.key_of_get? hg)
      exact List.find?_eq_none.mpr fun y hy => by simpa [List.mem_singleton.mp hy] using hk
  rw [statusOf, List.find?_append, hinstalled, havailable]
  rfl

/-- When no status was listed, an available package counts as available unless its release is installed. -/
theorem exists_of_statusOf_ne_available (h : ofListing l = .ok c)
    (hl : ∀ p ∈ l.installed ++ l.available, p.status = .unknown) {d : Package} (hd : d ∈ c.available)
    (hst : c.statusOf d ≠ .available) : ∃ k ∈ c.installed, k.id = d.id ∧ (k.version == d.version) = true := by
  refine Classical.byContradiction fun hnone => ?_
  have hnew : ∀ k ∈ c.installed, k.id = d.id → (k.version == d.version) = false := by
    intro k hk hid
    exact Bool.eq_false_iff.mpr fun hv => hnone ⟨k, hk, hid, hv⟩
  rw [statusOf_available hd hnew] at hst
  obtain ⟨p, hp, rfl⟩ := List.mem_map.mp ((mem_of_ofListing h d).2.mp hd)
  have hp' := hl p (List.mem_append_right _ hp)
  simp only [Package.orStatus, hp', if_true] at hst hnew
  split at hst
  · next hany =>
    obtain ⟨k, hk, hsame⟩ := List.any_eq_true.mp hany
    have hk' := hl k (List.mem_append_left _ hk)
    simp only [Package.sameRelease, Bool.and_eq_true, beq_iff_eq] at hsame
    have hmem : k.orStatus .installed ∈ c.installed := (mem_of_ofListing h _).1.mpr (List.mem_map_of_mem hk)
    have := hnew _ hmem (by simp [Package.orStatus, hk', hsame.1])
    simp [Package.orStatus, hk', hsame.2] at this
  · exact hst rfl

end Catalog

end AddonPlanner
