import AddonPlanner.Proofs.Catalog
import AddonPlanner.Proofs.Resolution.Trace

/-!
# The packages that need a newer host

A search takes note of a package that does not run on the host when it starts from it or finds it, and it finds no package twice.
So at each moment its notes are those of the package and of the dependencies found so far, each taken once (`Noted`). In the end
they name just the packages among these that need a newer host, no identifier twice, each with the version that it needs
(`hostIssues_name_each_once`); unmet requirements make no difference.
-/

namespace AddonPlanner

open Package

variable {root : Package} {pool : PackageSet} {host : HostVersion}

namespace Package

/-- The note that is taken of a package: its identifier and the least version it runs on, unless it runs on the host. -/
def hostIssue? (host : HostVersion) (p : Package) : Option (String × HostVersion) :=
  if p.runsOn host then none else p.minHost?.map fun least => (p.id, least)

theorem hostIssue?_of_runsOn {p : Package} (h : p.runsOn host) : p.hostIssue? host = none :=
  if_pos h

/-- A note is taken of the packages whose least version is later than the host. -/
theorem hostIssue?_eq_some_iff {p : Package} {id : String} {least : HostVersion} :
    p.hostIssue? host = some (id, least) ↔ p.id = id ∧ p.minHost? = some least ∧ (compare least host).isGT := by
  unfold hostIssue? runsOn
  cases hleast : p.minHost? with
  | none => simp
  | some needed =>
    cases hcmp : compare needed host with
    | lt | eq =>
      simp only [hcmp, Ordering.isLE_lt, Ordering.isLE_eq, if_true]
      constructor
      · intro h
        cases h
      · rintro ⟨-, hsome, hgt⟩
        rw [← Option.some.inj hsome, hcmp] at hgt
        cases hgt
    | gt =>
      simp only [hcmp, Ordering.isLE_gt, Bool.false_eq_true, if_false, Option.map_some, Option.some.injEq, Prod.mk.injEq]
      constructor
      · rintro ⟨hid, rfl⟩
        exact ⟨hid, rfl, by rw [hcmp]; rfl⟩
      · rintro ⟨hid, rfl, -⟩
        exact ⟨hid, rfl⟩

theorem filterMap_hostIssue?_singleton (p : Package) : [p].filterMap (hostIssue? host) = (p.hostIssue? host).toList := by
  cases h : p.hostIssue? host <;> simp [h]

/-- The notes taken of the packages of a list name those that need a newer host. -/
theorem map_fst_filterMap_hostIssue? (l : List Package) :
    (l.filterMap (hostIssue? host)).map Prod.fst = (needingNewerHost host l).map Package.id := by
  induction l with
  | nil => rfl
  | cons p rest ih =>
    unfold needingNewerHost at ih ⊢
    cases hruns : p.runsOn host with
    | true => simp [hostIssue?_of_runsOn hruns, hruns, ih]
    | false =>
      cases hleast : p.minHost? with
      | none => simp [runsOn, hleast] at hruns
      | some least => simp [hostIssue?, hruns, hleast, ih]

end Package

namespace Search

theorem hostIssues_checkHost (s : Search) (p : Package) (host : HostVersion) :
    (s.checkHost p host).hostIssues = s.hostIssues ++ (p.hostIssue? host).toList := by
  unfold checkHost hostIssue?
  cases hleast : p.minHost? with
  | none => simp
  | some least => cases hruns : p.runsOn host <;> simp

theorem hostIssues_discover (s : Search) (p : Package) (host : HostVersion) :
    (s.discover p host).hostIssues = s.hostIssues ++ (p.hostIssue? host).toList :=
  hostIssues_checkHost { s with dependencies := s.dependencies.insert p } p host

/-- The notes are those of the package and of the dependencies found so far. -/
def Noted (root : Package) (host : HostVersion) (s : Search) : Prop :=
  s.hostIssues.Perm ((root :: s.dependencies.toList).filterMap (hostIssue? host))

theorem noted_start : (start root host).Noted root host := by
  have hdependencies : (start root host).dependencies = ∅ := by rw [start, dependencies_checkHost]
  have hnotes : (start root host).hostIssues = (root.hostIssue? host).toList := by rw [start, hostIssues_checkHost]; rfl
  unfold Noted
  rw [hdependencies, hnotes]
  exact .of_eq (filterMap_hostIssue?_singleton root).symm

/-- A new dependency joins with the note that is taken of it; nothing else changes either. -/
theorem Noted.visit {s : Search} (h : s.Noted root host) (parent : Package) (r : Requirement) :
    (visit root pool host parent s r).Noted root host := by
  refine visit_induction fun t ht => ?_
  cases ht with
  | missing | excluded | outside | known => exact h
  | @new found b hres hb hv hne hnew =>
    unfold Noted at h ⊢
    rw [hostIssues_discover, dependencies_discover]
    have hjoined : (root :: (s.dependencies.insert found).toList).Perm ((root :: s.dependencies.toList) ++ [found]) :=
      ((Keyed.perm_insert_of_new hnew).cons root).trans
        ((List.Perm.swap found root _).trans (List.perm_append_singleton found _).symm)
    have hnotes : ((root :: s.dependencies.toList) ++ [found]).filterMap (hostIssue? host) =
        (root :: s.dependencies.toList).filterMap (hostIssue? host) ++ (found.hostIssue? host).toList := by
      rw [List.filterMap_append, filterMap_hostIssue?_singleton]
    calc s.hostIssues ++ (found.hostIssue? host).toList
      _ |>.Perm ((root :: s.dependencies.toList).filterMap (hostIssue? host) ++ (found.hostIssue? host).toList) :=
        h.append_right _
      _ |>.Perm ((root :: (s.dependencies.insert found).toList).filterMap (hostIssue? host)) :=
        hnotes ▸ (hjoined.filterMap _).symm

end Search

namespace Package

/-- The host issues are the notes taken of the package and of its dependencies. -/
theorem hostIssues_perm (root : Package) (pool : PackageSet) (host : HostVersion) :
    (root.resolution pool host).hostIssues.Perm ((root.expanded pool host).filterMap (hostIssue? host)) := by
  refine (Search.run_induction (P := Search.Noted root host) (fun s parent rest hp hs => ?_) Search.noted_start).1
  exact Search.expand_induction (P := Search.Noted root host) (fun s r _ hs => hs.visit parent r) hs

/-- The host issues name each package once: no identifier occurs twice among them, and they pair just the identifiers of those
among the package and its dependencies whose least version is later than the host with that version, whether or not there are
issues with requirements. -/
theorem hostIssues_name_each_once (root : Package) (pool : PackageSet) (host : HostVersion) :
    ((root.resolution pool host).hostIssues.map Prod.fst).Nodup ∧
    ∀ id least, (id, least) ∈ (root.resolution pool host).hostIssues ↔
      ∃ x ∈ root.expanded pool host, x.id = id ∧ x.minHost? = some least ∧ (compare least host).isGT := by
  have hperm := hostIssues_perm root pool host
  constructor
  · rw [(hperm.map Prod.fst).nodup_iff, map_fst_filterMap_hostIssue?]
    have hsub : (needingNewerHost host (root.expanded pool host)).Sublist (root.expanded pool host) := List.filter_sublist
    exact nodup_map_id_expanded.sublist (hsub.map Package.id)
  · intro id least
    simp only [hperm.mem_iff, List.mem_filterMap, hostIssue?_eq_some_iff]

/-- A console that needs host 17 and a driver. -/
def console : Package :=
  ⟨"console", .two, some { HostVersion.eleven with major := 17 }, [⟨"driver", .any⟩], .available⟩

/-- A driver that needs the console in turn, a firmware that is nowhere to be found, and host 21; beside it an older console, which
runs everywhere. -/
def rig : PackageSet :=
  .ofList [⟨"console", .one, none, [], .installed⟩,
    ⟨"driver", .one, some { HostVersion.eleven with major := 21 }, [⟨"console", .any⟩, ⟨"firmware", .any⟩], .installed⟩]

/-- The console is named once, at its own need and not that of the older one, and the driver in spite of the issue it has. -/
example : (console.resolution rig .eleven).hostIssues.map (fun note => (note.1, note.2.display)) =
      [("console", "17.0"), ("driver", "21.0")] ∧ (console.resolution rig .eleven).hasIssue := by
  decide +kernel

end Package

end AddonPlanner
