import AddonPlanner.Proofs.Catalog
import AddonPlanner.Proofs.Resolution.Search

/-!
# What a resolution says of the closure

The search visits one requirement after the other, narrows the bounds it has collected and passes over what it could not
resolve. What it says in the end is nevertheless about the whole closure of the package (`resolution_decides_closure`): there is
no issue exactly when each requirement of each member resolves to a version that the requirement itself accepts, and then the
dependencies are the closure without the package.
-/

namespace AddonPlanner.Package

variable {root : Package} {pool : PackageSet} {host : HostVersion}

/-- What a requirement resolves to has the required identifier, so it meets the requirement when its version does. -/
theorem isMetBy_of_resolve? {r : Requirement} {y : Package} (hres : root.resolve? pool r.id = some y) :
    r.isMetBy y ↔ r.bounds.contains y.version := by
  rw [isMetBy_iff]
  exact and_iff_right (resolve?_id hres)

/-- A package is sound when each requirement of its closure resolves to a version within the bounds of the requirement. -/
theorem sound_iff_within : root.Sound pool ↔
    ∀ x, root.Reaches pool x → ∀ r ∈ x.requirements,
      ∃ y, root.resolve? pool r.id = some y ∧ r.bounds.contains y.version := by
  constructor
  · intro hs x hx r hr
    obtain ⟨y, hy, hmet⟩ := hs x hx r hr
    exact ⟨y, hy, (isMetBy_of_resolve? hy).mp hmet⟩
  · intro h x hx r hr
    obtain ⟨y, hy, hv⟩ := h x hx r hr
    exact ⟨y, hy, (isMetBy_of_resolve? hy).mpr hv⟩

/-- For what is reached, to be another package is to have another identifier. -/
theorem Reaches.id_ne_iff {x : Package} (hx : root.Reaches pool x) : x.id ≠ root.id ↔ x ≠ root := by
  constructor
  · rintro hne rfl
    exact hne rfl
  · intro hne hid
    exact hne (hx.eq_of_id_eq hid)

/-- The dependencies of a sound package are the members of its closure other than itself. -/
theorem Sound.mem_dependencies_iff_ne (hs : root.Sound pool) {x : Package} :
    x ∈ (root.resolution pool host).dependencies ↔ root.Reaches pool x ∧ x ≠ root := by
  rw [hs.mem_dependencies_iff]
  exact and_congr_right fun hx => hx.id_ne_iff

/-- A resolution decides whether the closure of a package is satisfied: it has no issue exactly when each requirement of each
member of the closure resolves to a package whose version lies within the bounds of the requirement. When it has none, its
dependencies are the members of the closure other than the package. -/
theorem resolution_decides_closure (root : Package) (pool : PackageSet) (host : HostVersion) :
    ((root.resolution pool host).hasIssue = false ↔
      ∀ x, root.Reaches pool x → ∀ r ∈ x.requirements,
        ∃ y, root.resolve? pool r.id = some y ∧ r.bounds.contains y.version) ∧
    ((root.resolution pool host).hasIssue = false →
      ∀ x, x ∈ (root.resolution pool host).dependencies ↔ root.Reaches pool x ∧ x ≠ root) := by
  constructor
  · rw [hasIssue_eq_false_iff, sound_iff_within]
  · intro hi x
    have hs : root.Sound pool := hasIssue_eq_false_iff.mp hi
    exact hs.mem_dependencies_iff_ne

/-- The next version of an editor, which needs a plugin. -/
def editor : Package := ⟨"editor", .two, none, [⟨"plugin", .any⟩], .available⟩

/-- The plugin, which needs the next version of the editor and a theme. -/
def plugin : Package := ⟨"plugin", .one, none, [⟨"editor", .atLeast .two⟩, ⟨"theme", .atMost .one⟩], .installed⟩

/-- The theme, which needs the plugin in turn. -/
def theme : Package := ⟨"theme", .one, none, [⟨"plugin", .any⟩], .installed⟩

/-- What is installed: the plugin and the theme, beside the first version of the editor. -/
def desk : PackageSet :=
  .ofList [⟨"editor", .one, none, [⟨"plugin", .any⟩], .installed⟩, plugin, theme]

/-- Nothing is wrong with the next version of the editor, because the plugin finds that version in the place of the installed
one; the theme, which only the plugin requires, is among its dependencies. -/
theorem theme_mem_dependencies :
    (∀ x, editor.Reaches desk x → ∀ r ∈ x.requirements,
      ∃ y, editor.resolve? desk r.id = some y ∧ r.bounds.contains y.version) ∧
    theme ∈ (editor.resolution desk .eleven).dependencies := by
  obtain ⟨hmet, hdependencies⟩ := resolution_decides_closure editor desk .eleven
  have hclear : (editor.resolution desk .eleven).hasIssue = false := by decide +kernel
  have hplugin : editor.Reaches desk plugin :=
    Reaches.self.step List.mem_cons_self (resolve?_eq_some_iff.mpr (Or.inr ⟨by decide, rfl, Keyed.mem_ofList rfl⟩))
  have htheme : editor.Reaches desk theme :=
    hplugin.step (List.mem_cons_of_mem _ List.mem_cons_self)
      (resolve?_eq_some_iff.mpr (Or.inr ⟨by decide, rfl, Keyed.mem_ofList rfl⟩))
  have hne : theme ≠ editor := fun heq => absurd (congrArg Package.id heq) (by decide)
  exact ⟨hmet.mp hclear, (hdependencies hclear theme).mpr ⟨htheme, hne⟩⟩

end AddonPlanner.Package
