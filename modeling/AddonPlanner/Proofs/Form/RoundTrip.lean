import AddonPlanner.Form.Plan
import AddonPlanner.Proofs.Catalog
import AddonPlanner.Proofs.Form.Record
import AddonPlanner.Proofs.HostVersion

/-!
# The written forms lose nothing

A version is stable when its written form is read as that version. Sets of packages, listings, plans and removals in which every
version is stable are read again from the text of their forms, value by value (`written_forms_lose_nothing`), and so is a catalog:
its packages have no unknown status, so the roles under which they are listed change nothing (`Catalog.ofListing_toListing`).
-/

namespace AddonPlanner

open Form

/-! ## Stable versions -/

/-- A version whose written form is read as that version. -/
def Version.Stable (v : Version) : Prop :=
  read v.display = .ok v

/-- The versions that a range is given with. -/
def Bounds.limits {α : Type} : Bounds α → List α
  | any => []
  | exactly version => [version]
  | atLeast least => [least]
  | atMost greatest => [greatest]
  | between least greatest => [least, greatest]

/-- A package all of whose versions are stable, its own and those that its requirements name. -/
structure Package.Stable (p : Package) : Prop where
  /-- The version of the package is stable. -/
  version : p.version.Stable
  /-- The limits of its requirements are stable. -/
  limits : ∀ r ∈ p.requirements, ∀ v ∈ r.bounds.limits, v.Stable

/-- A set of stable packages. -/
def PackageSet.Stable (s : PackageSet) : Prop :=
  ∀ p ∈ s, p.Stable

theorem PackageSet.stable_ofList {l : List Package} (h : ∀ p ∈ l, p.Stable) : PackageSet.Stable (.ofList l) :=
  fun p hp => h p (Keyed.mem_of_mem_ofList hp)

/-- A listing of stable packages. -/
def Listing.Stable (l : Listing) : Prop :=
  ∀ p ∈ l.installed ++ l.available, p.Stable

/-- A catalog of stable packages. -/
structure Catalog.Stable (c : Catalog) : Prop where
  installed : PackageSet.Stable c.installed
  available : PackageSet.Stable c.available

/-- A plan with nothing but stable packages. -/
structure Plan.Stable (p : Plan) : Prop where
  selected : PackageSet.Stable p.selected
  replaced : PackageSet.Stable p.replaced
  removals : PackageSet.Stable p.removals
  updates : PackageSet.Stable p.updates
  installs : PackageSet.Stable p.installs

/-- A removal with nothing but stable packages. -/
structure Removal.Stable (r : Removal) : Prop where
  selected : PackageSet.Stable r.selected
  removals : PackageSet.Stable r.removals

/-! ## Versions and bounds -/

theorem Version.Stable.faithful {v : Version} (h : v.Stable) : Faithful Version.toForm Version.ofForm v :=
  faithful_written h

theorem HostVersion.faithful (v : HostVersion) : Faithful HostVersion.toForm HostVersion.ofForm v :=
  faithful_written v.read_display

/-- A range is faithful when its limits are. -/
theorem Bounds.faithful {α : Type} {write : α → Json.Document} {read : Json.Document → Except FormError α} {b : Bounds α}
    (h : ∀ v ∈ b.limits, Faithful write read v) : Faithful (toForm write) (ofForm read) b := by
  have hnames : ((variants read).map (·.name)).Nodup := by
    show ["Any", "Explicit", "MinOnly", "MaxOnly", "MinMax"].Nodup
    decide
  cases b with
  | any => exact ⟨.text _, rfl⟩
  | exactly v =>
    have hv := h v List.mem_cons_self
    exact faithful_variant hnames (.tail _ (.head _)) rfl hv.complete (by rw [hv.read_write]; rfl)
  | atLeast v =>
    have hv := h v List.mem_cons_self
    exact faithful_variant hnames (.tail _ (.tail _ (.head _))) rfl hv.complete (by rw [hv.read_write]; rfl)
  | atMost v =>
    have hv := h v List.mem_cons_self
    exact faithful_variant hnames (.tail _ (.tail _ (.tail _ (.head _)))) rfl hv.complete (by rw [hv.read_write]; rfl)
  | between v w =>
    obtain ⟨hv, hrest⟩ := List.forall_mem_cons.mp h
    have hw := hrest w List.mem_cons_self
    refine faithful_variant hnames (.tail _ (.tail _ (.tail _ (.tail _ (.head _))))) rfl (.list ?_) ?_
    · simp [hv.complete, hw.complete]
    · simp only [Json.Document.list, readPair, hv.read_write, hw.read_write]
      rfl

theorem Requirement.faithful {r : Requirement} (h : ∀ v ∈ r.bounds.limits, v.Stable) :
    Faithful Requirement.toForm Requirement.ofForm r := by
  have hbounds : Faithful (Bounds.toForm Version.toForm) (Bounds.ofForm Version.ofForm) r.bounds :=
    Bounds.faithful fun v hv => (h v hv).faithful
  refine faithful_record (s := ⟨some r.id, r.bounds⟩) [.text r.id, r.bounds.toForm Version.toForm] rfl (by decide) ?_ ?_ rfl
  · simp [hbounds.complete, Json.Document.Complete.text]
  · simp only [fields, readItems, readText, Json.Document.text, hbounds.read_write]
    rfl

/-! ## Packages -/

theorem Status.faithful (s : Status) : Faithful Status.toForm Status.ofForm s :=
  faithful_choice (by decide) (by cases s <;> decide)

theorem Package.Stable.faithful {p : Package} (h : p.Stable) : Faithful Package.toForm Package.ofForm p := by
  have hversion := h.version.faithful
  have hhost : Faithful (writeOptional HostVersion.toForm) (readOptional HostVersion.ofForm) p.minHost? :=
    faithful_optional fun v _ => ⟨v.faithful, by simp [HostVersion.toForm, Json.Document.text]⟩
  have hrequirements := faithful_list fun r hr => Requirement.faithful (h.limits r hr)
  have hstatus := p.status.faithful
  refine faithful_record (s := ⟨some p.id, some p.version, p.minHost?, p.requirements, p.status⟩)
    [.text p.id, p.version.toForm, writeOptional HostVersion.toForm p.minHost?,
      .list (p.requirements.map Requirement.toForm), p.status.toForm] rfl (by decide) ?_ ?_ rfl
  · simp [Json.Document.Complete.text, hversion.complete, hhost.complete, hrequirements.complete, hstatus.complete]
  · simp only [fields, readItems, readText, Json.Document.text, hversion.read_write, hhost.read_write, hrequirements.read_write,
      hstatus.read_write]
    rfl

theorem PackageSet.Stable.faithful {s : PackageSet} (h : PackageSet.Stable s) :
    Faithful PackageSet.toForm PackageSet.ofForm s := by
  have hlist := faithful_list fun p hp => Package.Stable.faithful (h p hp)
  refine ⟨hlist.complete, ?_⟩
  show (do return .ofList (← readList Package.ofForm (.list (s.toList.map Package.toForm)))) = Except.ok s
  rw [hlist.read_write]
  show Except.ok (Keyed.ofList s.toList) = _
  rw [Keyed.ofList_toList]

theorem Listing.Stable.faithful {l : Listing} (h : l.Stable) : Faithful Listing.toForm Listing.ofForm l := by
  have hinstalled := faithful_list fun p hp => (h p (List.mem_append_left _ hp)).faithful
  have havailable := faithful_list fun p hp => (h p (List.mem_append_right _ hp)).faithful
  refine faithful_record (s := l)
    [.list (l.installed.map Package.toForm), .list (l.available.map Package.toForm)] rfl (by decide) ?_ ?_ rfl
  · simp [hinstalled.complete, havailable.complete]
  · simp only [fields, readItems, hinstalled.read_write, havailable.read_write]
    rfl

/-! ## Plans and removals -/

theorem Goal.faithful (g : Goal) : Faithful Goal.toForm Goal.ofForm g :=
  faithful_choice (by decide) (by cases g <;> decide)

theorem Plan.Stable.faithful {p : Plan} (h : p.Stable) : Faithful Plan.toForm Plan.ofForm p := by
  have hgoal := p.goal.faithful
  have hselected := h.selected.faithful
  have hreplaced := h.replaced.faithful
  have hremovals := h.removals.faithful
  have hupdates := h.updates.faithful
  have hinstalls := h.installs.faithful
  refine faithful_record
    (s := ⟨some p.goal, some p.selected, some p.replaced, some p.removals, some p.updates, some p.installs,
      some p.needsNewerHost⟩)
    [p.goal.toForm, p.selected.toForm, p.replaced.toForm, p.removals.toForm, p.updates.toForm, p.installs.toForm,
      .bool p.needsNewerHost] rfl (by decide) ?_ ?_ rfl
  · simp [hgoal.complete, hselected.complete, hreplaced.complete, hremovals.complete, hupdates.complete, hinstalls.complete,
      Json.Document.Complete.bool]
  · simp only [fields, readItems, readBool, hgoal.read_write, hselected.read_write, hreplaced.read_write, hremovals.read_write,
      hupdates.read_write, hinstalls.read_write]
    rfl

theorem Removal.Stable.faithful {r : Removal} (h : r.Stable) : Faithful Removal.toForm Removal.ofForm r := by
  have hselected := h.selected.faithful
  have hremovals := h.removals.faithful
  refine faithful_record (s := ⟨some r.selected, some r.removals⟩) [r.selected.toForm, r.removals.toForm] rfl (by decide)
    ?_ ?_ rfl
  · simp [hselected.complete, hremovals.complete]
  · simp only [fields, readItems, hselected.read_write, hremovals.read_write]
    rfl

/-! ## Catalogs -/

theorem Catalog.Stable.toListing {c : Catalog} (h : c.Stable) : c.toListing.Stable := by
  intro p hp
  rcases List.mem_append.mp hp with hp | hp
  · exact h.installed p hp
  · exact h.available p hp

/-- The text of a catalog that was made of a listing describes that catalog. -/
theorem Catalog.ofText_toText {l : Listing} {c : Catalog} (hc : ofListing l = .ok c) (h : c.Stable) :
    ofText c.toText = .ok c := by
  have hread : Form.ofSymbols Listing.ofForm (symbolsOfText c.toText) = .ok c.toListing := h.toListing.faithful.ofText_print
  rw [ofText, ofSymbols, hread]
  exact ofListing_toListing fun p hp => status_ne_unknown_of_ofListing hc hp

/-- The written forms lose nothing. Sets of packages, plans, removals and listings whose packages are stable are what is read from
the text of their forms, and a catalog that was made of a listing is what is read from its text when its packages are stable. -/
theorem written_forms_lose_nothing :
    (∀ s : PackageSet, PackageSet.Stable s → Form.ofText PackageSet.ofForm s.toForm.print = .ok s) ∧
      (∀ p : Plan, p.Stable → Form.ofText Plan.ofForm p.toForm.print = .ok p) ∧
      (∀ r : Removal, r.Stable → Form.ofText Removal.ofForm r.toForm.print = .ok r) ∧
      (∀ l : Listing, l.Stable → Form.ofText Listing.ofForm l.toForm.print = .ok l) ∧
      (∀ (l : Listing) (c : Catalog), Catalog.ofListing l = .ok c → c.Stable → Catalog.ofText c.toText = .ok c) := by
  refine ⟨fun s hs => ?_, fun p hp => ?_, fun r hr => ?_, fun l hl => ?_, fun l c hc hstable => ?_⟩
  · exact hs.faithful.ofText_print
  · exact hp.faithful.ofText_print
  · exact hr.faithful.ofText_print
  · exact hl.faithful.ofText_print
  · exact Catalog.ofText_toText hc hstable

/-- A lexicon whose version has an epoch. -/
def lexicon : Package := ⟨"lexicon", .raised, none, [], .installed⟩

/-- A translator for newer hosts that takes the lexicon from its first version to that with an epoch, and a grammar at any. -/
def translator : Package :=
  ⟨"translator", .two, some .eleven, [⟨"lexicon", .between .one .raised⟩, ⟨"grammar", .any⟩], .available⟩

/-- What is listed for a host with the lexicon, on which the translator can be fetched; the statuses are left to the roles. -/
def bureauListing : Listing where
  installed := [{ lexicon with status := .unknown }]
  available := [{ translator with status := .unknown }]

/-- The catalog of the listing. -/
def bureau : Catalog where
  installed := .ofList [lexicon]
  available := .ofList [translator]

theorem stable_lexicon : lexicon.Stable :=
  ⟨rfl, fun _ hr => absurd hr List.not_mem_nil⟩

theorem stable_translator : translator.Stable := by
  have hone : Version.one.Stable := rfl
  have hraised : Version.raised.Stable := rfl
  refine ⟨rfl, ?_⟩
  simp [translator, Bounds.limits, hone, hraised]

theorem stable_bureau : bureau.Stable where
  installed := PackageSet.stable_ofList (by simp [stable_lexicon])
  available := PackageSet.stable_ofList (by simp [stable_translator])

/-- A plan that installs the translator and takes the lexicon away. -/
def exchange : Plan where
  goal := .install
  selected := .ofList [translator]
  removals := .ofList [lexicon]
  installs := .ofList [translator]
  needsNewerHost := false

theorem stable_exchange : exchange.Stable where
  selected := PackageSet.stable_ofList (by simp [stable_translator])
  replaced := fun _ hp => absurd hp List.not_mem_nil
  removals := PackageSet.stable_ofList (by simp [stable_lexicon])
  updates := fun _ hp => absurd hp List.not_mem_nil
  installs := PackageSet.stable_ofList (by simp [stable_translator])

/-- The removal of the lexicon. -/
def clearance : Removal where
  selected := .ofList [lexicon]
  removals := .ofList [lexicon]

theorem stable_clearance : clearance.Stable where
  selected := PackageSet.stable_ofList (by simp [stable_lexicon])
  removals := PackageSet.stable_ofList (by simp [stable_lexicon])

/-- The catalog, its listing, a set of its packages, a plan and a removal are what is read from their texts. -/
theorem bureau_survives_its_text :
    bureau.Stable ∧ exchange.Stable ∧ clearance.Stable ∧ bureau.toListing.Stable ∧
      Form.ofText PackageSet.ofForm (PackageSet.toForm bureau.available).print = .ok bureau.available ∧
      Form.ofText Plan.ofForm exchange.toForm.print = .ok exchange ∧
      Form.ofText Removal.ofForm clearance.toForm.print = .ok clearance ∧
      Form.ofText Listing.ofForm bureau.toListing.toForm.print = .ok bureau.toListing ∧
      Catalog.ofListing bureauListing = .ok bureau ∧ Catalog.ofText bureau.toText = .ok bureau := by
  obtain ⟨hset, hplan, hremoval, hlisting, hcatalog⟩ := written_forms_lose_nothing
  exact ⟨stable_bureau, stable_exchange, stable_clearance, stable_bureau.toListing, hset _ stable_bureau.available,
    hplan _ stable_exchange, hremoval _ stable_clearance, hlisting _ stable_bureau.toListing, rfl,
    hcatalog bureauListing bureau rfl stable_bureau⟩

end AddonPlanner
