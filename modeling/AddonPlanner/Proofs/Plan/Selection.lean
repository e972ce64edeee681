import AddonPlanner.Proofs.Catalog
import AddonPlanner.Proofs.Plan.Outcome

/-!
# What was asked for, once a plan is carried out

When the packages that were asked for can be fetched and are sound among the available ones, each requirement of whatever comes
in is met by something that comes in too, or by an installed package that the walk accepts (`exists_met`). What was asked for is
therefore in order exactly when these installed packages stay and are in order (`isBroken_outcome_iff_of_selected`); a rescue can
break them (`rescue_breaks_selected`).
-/

namespace AddonPlanner.Planner

variable {pl : Planner} {goal : Goal} {selected : PackageSet}

/-! ## What comes in is available -/

/-- Walked packages are available, and sound among the available ones, when those asked for are. -/
theorem sound_of_walks (hsel : ∀ s ∈ selected, s ∈ pl.catalog.available ∧ pl.isBroken pl.catalog.available s = false)
    {w : Package} (hw : pl.Walks goal selected w) : w ∈ pl.catalog.available ∧ w.Sound pl.catalog.available := by
  rcases hw with hw | ⟨p, -, hq⟩
  · obtain ⟨hmem, hs⟩ := hsel w hw
    exact ⟨hmem, isBroken_eq_false_iff.mp hs⟩
  · obtain ⟨hmem, -, hs⟩ := rescuer?_eq_some hq
    exact ⟨hmem, hs⟩

/-- Whatever comes in is reached by a walked package among the available ones. -/
theorem exists_walks_of_brought
    (hsel : ∀ s ∈ selected, s ∈ pl.catalog.available ∧ pl.isBroken pl.catalog.available s = false)
    {x : Package} (hx : x ∈ (pl.plan goal selected).brought) :
    ∃ w, pl.Walks goal selected w ∧ w.Reaches pl.catalog.available x := by
  rcases mem_brought_plan.mp hx with hx | hx
  · exact ⟨x, Or.inl hx, .self⟩
  · obtain ⟨w, hw, rfl | hneeds⟩ := (extends_plan.of_mem_brought hx).1
    · exact ⟨x, hw, .self⟩
    · exact ⟨w, hw, ((sound_of_walks hsel hw).2.mem_dependencies_iff.mp hneeds).1⟩

/-- An available package comes in when some version of it does. -/
theorem mem_brought_of_contains
    (hsel : ∀ s ∈ selected, s ∈ pl.catalog.available ∧ pl.isBroken pl.catalog.available s = false)
    {d : Package} (hd : d ∈ pl.catalog.available) (hc : (pl.plan goal selected).brought.contains d.id) :
    d ∈ (pl.plan goal selected).brought := by
  obtain ⟨y, hy, hid⟩ := Keyed.exists_mem_of_contains hc
  obtain ⟨w, hw, hreach⟩ := exists_walks_of_brought hsel hy
  rwa [← Keyed.eq_of_key_eq (hreach.mem (sound_of_walks hsel hw).1) hd hid]

/-- Walked packages come in. -/
theorem contains_brought_of_walks {w : Package} (hw : pl.Walks goal selected w) :
    (pl.plan goal selected).brought.contains w.id := by
  rw [contains_brought_plan, Bool.or_eq_true]
  rcases hw with hw | ⟨p, hp, hq⟩
  · exact Or.inl (Keyed.contains_of_mem hw)
  · right
    rw [(rescuer?_eq_some hq).2.1, Changes.contains_brought, contains_updates_rescued hp hq, Bool.or_true]

/-! ## What meets the requirements of what comes in -/

variable {l : Listing}

/-- An installed package that a walk accepts in the place of an available one meets the requirements that the available one
meets. -/
theorem exists_installed_of_supplied (hl : ∀ p ∈ l.installed ++ l.available, p.status = .unknown)
    (hc : Catalog.ofListing l = .ok pl.catalog) {w x d : Package} (hw : w.Sound pl.catalog.available)
    (hx : w.Reaches pl.catalog.available x) {r : Requirement} (hr : r ∈ x.requirements) (hd : d ∈ pl.catalog.available)
    (hmet : r.isMetBy d)
    (hsupplied : pl.Supplied selected (w.resolution pl.catalog.available pl.host) (pl.rescued goal selected) d)
    (hb : (pl.plan goal selected).brought.contains d.id = false) : ∃ k ∈ pl.catalog.installed, r.isMetBy k := by
  obtain ⟨hid, hv⟩ := Package.isMetBy_iff.mp hmet
  rw [contains_brought_plan, Bool.or_eq_false_iff] at hb
  rcases hsupplied with h | h | h | ⟨k, hk, hkid, hall⟩
  · rw [hb.1] at h
    cases h
  · obtain ⟨k, hk, hkid, hkv⟩ := Catalog.exists_of_statusOf_ne_available hc hl hd h
    exact ⟨k, hk, Package.isMetBy_iff.mpr ⟨hkid.trans hid, Bounds.contains_of_beq hkv hv⟩⟩
  · rw [hb.2] at h
    cases h
  · obtain ⟨b, hbounds, hsub⟩ := hw.exists_boundsFor? hx hr
    rw [hid, hbounds, Option.all_some] at hall
    exact ⟨k, hk, Package.isMetBy_iff.mpr ⟨hkid.trans hid, hsub k.version hall⟩⟩

/-- Each requirement of whatever comes in is met by something that comes in, or by an installed package that does not give way. -/
theorem exists_met (hl : ∀ p ∈ l.installed ++ l.available, p.status = .unknown)
    (hc : Catalog.ofListing l = .ok pl.catalog)
    (hsel : ∀ s ∈ selected, s ∈ pl.catalog.available ∧ pl.isBroken pl.catalog.available s = false)
    {x : Package} (hx : x ∈ (pl.plan goal selected).brought) {r : Requirement} (hr : r ∈ x.requirements) :
    (∃ y ∈ (pl.plan goal selected).brought, r.isMetBy y) ∨
      ∃ k ∈ pl.catalog.installed, r.isMetBy k ∧ (pl.plan goal selected).brought.contains k.id = false := by
  obtain ⟨w, hw, hreach⟩ := exists_walks_of_brought hsel hx
  obtain ⟨havailable, hsound⟩ := sound_of_walks hsel hw
  obtain ⟨d, hd, hmet⟩ := hsound x hreach r hr
  have hdreach : w.Reaches pl.catalog.available d := hreach.step hr hd
  have hdmem := hdreach.mem havailable
  cases hb : (pl.plan goal selected).brought.contains d.id with
  | true => exact Or.inl ⟨d, mem_brought_of_contains hsel hdmem hb, hmet⟩
  | false =>
    have hne : d.id ≠ w.id := by
      intro h
      rw [h, contains_brought_of_walks hw] at hb
      cases hb
    have hneeds : d ∈ pl.needs w := hsound.mem_dependencies_iff.mpr ⟨hdreach, hne⟩
    obtain ⟨k, hk, hkmet⟩ :=
      exists_installed_of_supplied hl hc hsound hreach hr hdmem hmet (supplied_rescued hw hneeds) hb
    refine Or.inr ⟨k, hk, hkmet, ?_⟩
    rw [(Package.isMetBy_iff.mp hkmet).1, ← (Package.isMetBy_iff.mp hmet).1, hb]

/-- When no statuses were listed and what was asked for is sound among the available packages, each package that was asked for is
in order in the end exactly when each installed package that does not give way, and that it leads to a requirement on through
what comes in, is not removed and is in order. -/
theorem isBroken_outcome_iff_of_selected (pl : Planner) (goal : Goal) (selected : PackageSet) (l : Listing)
    (hl : ∀ p ∈ l.installed ++ l.available, p.status = .unknown) (hc : Catalog.ofListing l = .ok pl.catalog)
    (hsel : ∀ s ∈ selected, s ∈ pl.catalog.available ∧ pl.isBroken pl.catalog.available s = false)
    (s : Package) (hs : s ∈ selected) :
    pl.isBroken ((pl.plan goal selected).outcome pl.catalog.installed) s = false ↔
      ∀ x, s.Reaches (pl.plan goal selected).brought x → ∀ r ∈ x.requirements, ∀ k ∈ pl.catalog.installed, k.id = r.id →
        (pl.plan goal selected).brought.contains k.id = false →
          (pl.plan goal selected).removals.contains k.id = false ∧
            pl.isBroken ((pl.plan goal selected).outcome pl.catalog.installed) k = false := by
  have hbrought : s ∈ (pl.plan goal selected).brought := mem_brought_plan.mpr (Or.inl hs)
  have hreached : ∀ x, s.Reaches (pl.plan goal selected).brought x →
      x ∈ (pl.plan goal selected).outcome pl.catalog.installed :=
    fun x hx => Changes.mem_outcome.mpr (Or.inl (hx.mem hbrought))
  rw [isBroken_eq_false_iff, Package.sound_iff_of_kept hbrought hreached]
  constructor
  · intro h x hx r hr k hk hid hb
    obtain ⟨y, hy, hmet, hsound⟩ := h x hx r hr
    have hyid : y.id = k.id := (Package.isMetBy_iff.mp hmet).1.trans hid.symm
    have hnot : y ∉ (pl.plan goal selected).brought := fun hy => Keyed.contains_eq_false_iff.mp hb y hy hyid
    rcases Changes.mem_outcome.mp hy with hy | ⟨hinst, -, hremoved⟩
    · exact absurd hy hnot
    · obtain rfl := Keyed.eq_of_key_eq hinst hk hyid
      exact ⟨hremoved, isBroken_eq_false_iff.mpr (hsound hnot)⟩
  · intro h x hx r hr
    rcases exists_met hl hc hsel (hx.mem hbrought) hr with ⟨y, hy, hmet⟩ | ⟨k, hk, hmet, hb⟩
    · exact ⟨y, Changes.mem_outcome.mpr (Or.inl hy), hmet, fun hne => absurd hy hne⟩
    · obtain ⟨hremoved, hfine⟩ := h x hx r hr k hk (Package.isMetBy_iff.mp hmet).1 hb
      exact ⟨k, Changes.mem_outcome.mpr (Or.inr ⟨hk, hb, hremoved⟩), hmet, fun _ => isBroken_eq_false_iff.mp hfine⟩

/-- An overlay whose next version needs a player, at whatever version. -/
def overlay : Package := ⟨"overlay", .two, none, [⟨"player", .any⟩], .available⟩

/-- What is listed for a host on which the player requires the first version of a codec, and the next version of a filter, which
the next version of the overlay makes necessary, the second. -/
def cinemaListing : Listing where
  installed := [⟨"codec", .one, none, [], .unknown⟩,
    ⟨"filter", .one, none, [⟨"overlay", .atMost .one⟩], .unknown⟩,
    ⟨"overlay", .one, none, [], .unknown⟩,
    ⟨"player", .one, none, [⟨"codec", .atMost .one⟩], .unknown⟩]
  available := [⟨"codec", .two, none, [], .unknown⟩,
    ⟨"filter", .two, none, [⟨"codec", .atLeast .two⟩], .unknown⟩,
    { overlay with status := .unknown },
    ⟨"player", .two, none, [], .unknown⟩]

/-- The host of the listing. -/
def cinema : Planner where
  catalog :=
    { installed := .ofList [⟨"codec", .one, none, [], .installed⟩,
        ⟨"filter", .one, none, [⟨"overlay", .atMost .one⟩], .installed⟩,
        ⟨"overlay", .one, none, [], .installed⟩,
        ⟨"player", .one, none, [⟨"codec", .atMost .one⟩], .installed⟩]
      available := .ofList [⟨"codec", .two, none, [], .available⟩,
        ⟨"filter", .two, none, [⟨"codec", .atLeast .two⟩], .available⟩, overlay,
        ⟨"player", .two, none, [], .available⟩] }
  host := .eleven

theorem ofListing_cinemaListing : Catalog.ofListing cinemaListing = .ok cinema.catalog := by
  have hversions : (Version.one == Version.two) = false := by decide +kernel
  rw [Catalog.ofListing, Catalog.ofLists, PackageSet.ofDistinct_of_nodup (by decide), PackageSet.ofDistinct_of_nodup (by decide)]
  simp only [Listing.withRoles, Package.orStatus, cinemaListing, overlay, List.map_cons, reduceIte, List.map_nil,
    Package.sameRelease, List.any_cons, List.any_nil, Bool.or_false, Bool.or_eq_true, Bool.and_eq_true, beq_iff_eq, hversions,
    Bool.false_eq_true, and_false, String.reduceEq, and_self, or_self, cinema]
  rfl

theorem overlay_available : ∀ s ∈ (.ofList [overlay] : PackageSet),
    s ∈ cinema.catalog.available ∧ cinema.isBroken cinema.catalog.available s = false := by
  intro s hs
  obtain rfl := List.mem_singleton.mp hs
  exact ⟨Keyed.mem_ofList rfl, by decide +kernel⟩

/-- The update of the overlay keeps the player, which meets its requirement; the rescue of the filter then updates the codec, and
the player the overlay needs is broken. -/
theorem rescue_breaks_selected :
    Catalog.ofListing cinemaListing = .ok cinema.catalog ∧
      (∀ p ∈ cinemaListing.installed ++ cinemaListing.available, p.status = .unknown) ∧
      (cinema.catalog.installed.toList.all fun p => !cinema.isBroken cinema.catalog.installed p) ∧
      (∀ s ∈ (.ofList [overlay] : PackageSet),
        s ∈ cinema.catalog.available ∧ cinema.isBroken cinema.catalog.available s = false) ∧
      cinema.isBroken ((cinema.plan .update (.ofList [overlay])).outcome cinema.catalog.installed) overlay = true :=
  ⟨ofListing_cinemaListing, by decide, by decide +kernel, overlay_available, by decide +kernel⟩

/-- The overlay is in order after the update exactly when the player that it finds installed is. -/
theorem isBroken_overlay_iff :
    cinema.isBroken ((cinema.plan .update (.ofList [overlay])).outcome cinema.catalog.installed) overlay = false ↔
      ∀ x, overlay.Reaches (cinema.plan .update (.ofList [overlay])).brought x → ∀ r ∈ x.requirements,
        ∀ k ∈ cinema.catalog.installed, k.id = r.id →
          (cinema.plan .update (.ofList [overlay])).brought.contains k.id = false →
            (cinema.plan .update (.ofList [overlay])).removals.contains k.id = false ∧
              cinema.isBroken ((cinema.plan .update (.ofList [overlay])).outcome cinema.catalog.installed) k = false :=
  isBroken_outcome_iff_of_selected cinema .update (.ofList [overlay]) cinemaListing (by decide) ofListing_cinemaListing
    overlay_available overlay List.mem_cons_self

end AddonPlanner.Planner
