import AddonPlanner.Dependents
import AddonPlanner.Proofs.Keyed

/-!
# Which packages depend on others

The search for dependents takes each candidate from the list when it reaches it. It reaches just the candidates that a chain of
requirements leads to (`mem_spread_iff`), each link of which is met at the version of the package before it. A candidate is thus a
dependent when it requires an updated package or another dependent (`Catalog.mem_dependents_iff_requires`).
-/

namespace AddonPlanner

/-- A package leads to the candidates that require it at its version, and to those that require a candidate it leads to. -/
inductive Package.LeadsTo (candidates : List Package) (p : Package) : Package → Prop
  /-- The candidate requires the package itself. -/
  | direct {x : Package} : x ∈ candidates → x.requires p → p.LeadsTo candidates x
  /-- The candidate requires another one that the package leads to. -/
  | through {x y : Package} : p.LeadsTo candidates y → x ∈ candidates → x.requires y → p.LeadsTo candidates x

namespace Package

variable {candidates fewer : List Package} {p q x : Package}

theorem requires_iff : p.requires x ↔ ∃ r ∈ p.requirements, r.isMetBy x :=
  List.any_eq_true

theorem LeadsTo.mem (h : p.LeadsTo candidates x) : x ∈ candidates := by
  cases h with
  | direct hx _ => exact hx
  | through _ hx _ => exact hx

theorem LeadsTo.mono (hsub : ∀ y ∈ fewer, y ∈ candidates) (h : p.LeadsTo fewer x) : p.LeadsTo candidates x := by
  induction h with
  | direct hx hreq => exact .direct (hsub _ hx) hreq
  | through _ hx hreq ih => exact .through ih (hsub _ hx) hreq

theorem LeadsTo.trans (h : p.LeadsTo candidates q) (h' : q.LeadsTo candidates x) : p.LeadsTo candidates x := by
  induction h' with
  | direct hx hreq => exact .through h hx hreq
  | through _ hx hreq ih => exact .through ih hx hreq

theorem mem_dependentsIn : x ∈ p.dependentsIn candidates ↔ x ∈ candidates ∧ x.requires p :=
  List.mem_filter

theorem mem_othersIn : x ∈ p.othersIn candidates ↔ x ∈ candidates ∧ x.requires p = false := by
  rw [othersIn, List.mem_filter, Bool.not_eq_true']

/-- Once the dependents of a package have been taken from the candidates, the others are still led to by what is pending then. -/
theorem LeadsTo.dependent_or_led {rest : List Package} (hq : q ∈ p :: rest) (h : q.LeadsTo candidates x) :
    x ∈ p.dependentsIn candidates ∨ ∃ s ∈ p.dependentsIn candidates ++ rest, s.LeadsTo (p.othersIn candidates) x := by
  induction h with
  | @direct x hx hreq =>
    cases hp : x.requires p with
    | true => exact Or.inl (mem_dependentsIn.mpr ⟨hx, hp⟩)
    | false =>
      rcases List.mem_cons.mp hq with rfl | hq
      · rw [hreq] at hp
        cases hp
      · exact Or.inr ⟨q, List.mem_append_right _ hq, .direct (mem_othersIn.mpr ⟨hx, hp⟩) hreq⟩
  | @through x y _ hx hreq ih =>
    cases hp : x.requires p with
    | true => exact Or.inl (mem_dependentsIn.mpr ⟨hx, hp⟩)
    | false =>
      have hother := mem_othersIn.mpr ⟨hx, hp⟩
      rcases ih with hy | ⟨s, hs, hled⟩
      · exact Or.inr ⟨y, List.mem_append_left _ hy, .direct hother hreq⟩
      · exact Or.inr ⟨s, hs, .through hled hother hreq⟩

end Package

/-- The search reaches just the candidates that a pending package leads to. -/
theorem mem_spread_iff {candidates pending : List Package} {x : Package} :
    x ∈ spread candidates pending ↔ ∃ p ∈ pending, p.LeadsTo candidates x := by
  fun_induction spread candidates pending with
  | case1 candidates => simp
  | case2 candidates p rest ih =>
    rw [List.mem_append, ih]
    constructor
    · rintro (hx | ⟨s, hs, hled⟩)
      · obtain ⟨hx, hreq⟩ := Package.mem_dependentsIn.mp hx
        exact ⟨p, List.mem_cons_self, .direct hx hreq⟩
      · have hled := hled.mono fun y hy => (Package.mem_othersIn.mp hy).1
        rcases List.mem_append.mp hs with hs | hs
        · obtain ⟨hs, hreq⟩ := Package.mem_dependentsIn.mp hs
          exact ⟨p, List.mem_cons_self, (Package.LeadsTo.direct hs hreq).trans hled⟩
        · exact ⟨s, List.mem_cons_of_mem _ hs, hled⟩
    · rintro ⟨q, hq, hled⟩
      exact hled.dependent_or_led hq

/-- The packages that may turn out to be dependents: the installed ones, but for those to be ignored and the installed versions of
the updated packages. -/
def Catalog.candidates (c : Catalog) (updated ignored : PackageSet) : PackageSet :=
  (c.installed.diff ignored).diff updated

/-- The dependents are the candidates that an updated package leads to through candidates. -/
theorem Catalog.mem_dependents_iff {c : Catalog} {updated ignored : PackageSet} {x : Package} :
    x ∈ c.dependents updated ignored ↔ ∃ p ∈ updated, p.LeadsTo (c.candidates updated ignored).toList x := by
  rw [dependents, Keyed.mem_ofList_iff (t := c.candidates updated ignored), mem_spread_iff]
  · rfl
  · intro y hy
    obtain ⟨p, -, hled⟩ := mem_spread_iff.mp hy
    exact hled.mem

/-- A candidate is a dependent when it requires an updated package or another dependent. -/
theorem Catalog.mem_dependents_iff_requires {c : Catalog} {updated ignored : PackageSet} {x : Package} :
    x ∈ c.dependents updated ignored ↔ x ∈ c.candidates updated ignored ∧
      ∃ q, (q ∈ updated ∨ q ∈ c.dependents updated ignored) ∧ x.requires q := by
  constructor
  · intro hx
    obtain ⟨p, hp, hled⟩ := mem_dependents_iff.mp hx
    cases hled with
    | direct hmem hreq => exact ⟨hmem, p, Or.inl hp, hreq⟩
    | through hled hmem hreq => exact ⟨hmem, _, Or.inr (mem_dependents_iff.mpr ⟨p, hp, hled⟩), hreq⟩
  · rintro ⟨hmem, q, hq | hq, hreq⟩
    · exact mem_dependents_iff.mpr ⟨q, hq, .direct hmem hreq⟩
    · obtain ⟨p, hp, hled⟩ := mem_dependents_iff.mp hq
      exact mem_dependents_iff.mpr ⟨p, hp, .through hled hmem hreq⟩

end AddonPlanner
