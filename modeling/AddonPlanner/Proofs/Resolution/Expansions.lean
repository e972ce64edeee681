import AddonPlanner.Proofs.Catalog
import AddonPlanner.Proofs.Resolution.Trace

/-!
# The packages that a search expands

The loop of a search takes one package after the other off the stack and visits its requirements. `Expands` follows the loop
without knowing that it ends. It does, because each package that is taken off is paid for by work that was left
(`Expands.length_add_work_le`). What has been found is made of the packages taken off and of those still pending, each of them once
(`Expands.parted`).

So the loop expands the package in question first and then its dependencies, each of them once (`resolution_expands_each_once`), no
matter how the requirements lead back to what has been expanded already.
-/

namespace AddonPlanner

variable {root : Package} {pool : PackageSet} {host : HostVersion}

namespace Search

/-- The loop goes from one state to another by taking the packages of a list off the stack, one after the other, and expanding
each of them. -/
inductive Expands (root : Package) (pool : PackageSet) (host : HostVersion) : Search → List Package → Search → Prop
  /-- Nothing is taken off. -/
  | refl {s : Search} : Expands root pool host s [] s
  /-- The package on top of the stack comes first. -/
  | next {s t : Search} {parent : Package} {rest order : List Package} (hp : s.pending = parent :: rest) :
    Expands root pool host ({ s with pending := rest }.expand root pool host parent) order t →
      Expands root pool host s (parent :: order) t

/-- Each package that is taken off the stack is paid for by work that was left. -/
theorem Expands.length_add_work_le {s t : Search} {order : List Package} (h : Expands root pool host s order t) :
    order.length + t.work pool ≤ s.work pool := by
  induction h with
  | refl => exact Nat.le_of_eq (Nat.zero_add _)
  | @next s t parent rest order hp _ ih =>
    have hexpand := work_expand_le root pool host { s with pending := rest } parent
    have hpop : s.work pool = Search.work pool { s with pending := rest } + 1 := by
      simp only [work, unresolved, hp, List.length_cons, Nat.add_assoc]
    rw [List.length_cons]
    omega

/-- At the start every member of the pool may still be found, and the package itself is to be visited. -/
theorem work_start (root : Package) (pool : PackageSet) (host : HostVersion) :
    (start root host).work pool = pool.size + 1 := by
  obtain ⟨l, hl⟩ := start_eq root host
  have hunresolved : (start root host).unresolved pool = pool.size := by
    rw [hl]
    exact List.countP_eq_length.mpr fun _ _ => rfl
  rw [work, hunresolved, hl, List.length_singleton]

/-- What has been taken off the stack has been expanded. -/
theorem Expands.parted {s t : Search} {order done : List Package} (h : Expands root pool host s order t)
    (hs : Parted root done s) : Parted root (order.reverse ++ done) t := by
  induction h generalizing done with
  | refl => exact hs
  | @next s t parent rest order hp _ ih =>
    rw [List.reverse_cons, List.append_assoc]
    exact ih (hs.expand hp)

/-- The loop leaves no choice: whatever it takes off the stack is the beginning of what it takes off until nothing is pending. -/
theorem Expands.isPrefix {s t t' : Search} {order order' : List Package} (h : Expands root pool host s order t)
    (h' : Expands root pool host s order' t') (hend : t'.pending = []) : order <+: order' := by
  induction h generalizing order' with
  | refl => exact List.nil_prefix
  | next hp _ ih =>
    cases h' with
    | refl =>
      rw [hp] at hend
      cases hend
    | next hp' h' =>
      obtain ⟨rfl, rfl⟩ := List.cons.inj (hp.symm.trans hp')
      exact List.cons_prefix_cons.mpr ⟨rfl, ih h'⟩

/-- The search goes on until nothing is pending. -/
theorem exists_expands_run (root : Package) (pool : PackageSet) (host : HostVersion) (s : Search) :
    (∃ order, Expands root pool host s order (s.run root pool host)) ∧ (s.run root pool host).pending = [] := by
  fun_induction run root pool host s with
  | case1 s hp => exact ⟨⟨[], .refl⟩, hp⟩
  | case2 s parent rest hp ih =>
    obtain ⟨⟨order, horder⟩, hend⟩ := ih
    exact ⟨⟨parent :: order, .next hp horder⟩, hend⟩

end Search

namespace Package

/-- A resolution expands each package once, cycles or not. The loop of the search expands the package itself and then its
dependencies, each of them once, until nothing is pending, and it can do nothing but a beginning of this. So it ends after at most
one more package than the pool has members, and no identifier comes up twice. No version of the package is among its dependencies,
which are the pool's own members. -/
theorem resolution_expands_each_once (root : Package) (pool : PackageSet) (host : HostVersion) :
    ∃ others last, Search.Expands root pool host (.start root host) (root :: others) last ∧ last.pending = [] ∧
      last.toResolution = root.resolution pool host ∧
      (∀ order s, Search.Expands root pool host (.start root host) order s → order <+: root :: others) ∧
      (root :: others).length ≤ pool.size + 1 ∧ ((root :: others).map Package.id).Nodup ∧
      others.Perm (root.resolution pool host).dependencies.toList ∧
      (root.resolution pool host).dependencies.contains root.id = false ∧
      ∀ x ∈ (root.resolution pool host).dependencies, pool.get? x.id = some x := by
  obtain ⟨⟨order, horder⟩, hend⟩ := Search.exists_expands_run root pool host (.start root host)
  have hfound : (root.expanded pool host).Perm order := by
    have hparted := horder.parted Search.parted_start
    rw [Search.Parted, hend, List.append_nil, List.append_nil] at hparted
    exact hparted.trans (List.reverse_perm order)
  -- expanding the package itself is a beginning of the loop
  have hstart : (Search.start root host).pending = [root] := by rw [Search.start, Search.pending_checkHost]
  obtain ⟨others, rfl⟩ : [root] <+: order := Search.Expands.isPrefix (.next hstart .refl) horder hend
  have hbound := horder.length_add_work_le
  rw [Search.work_start] at hbound
  refine ⟨others, (Search.start root host).run root pool host, horder, hend, rfl, fun order s h => h.isPrefix horder hend,
    Nat.le_of_add_right_le hbound, ?_, ?_, ?_, ?_⟩
  · exact (hfound.map Package.id).nodup_iff.mp nodup_map_id_expanded
  · exact hfound.symm.cons_inv
  · exact Keyed.contains_eq_false_iff.mpr fun x hx => (Search.reached_run.dependencies x hx).2
  · exact fun x hx => Keyed.mem_iff_get?.mp (mem_of_mem_dependencies hx)

/-- The next version of an amplifier, which needs a cable. -/
def amplifier : Package := ⟨"amplifier", .two, none, [⟨"cable", .any⟩], .available⟩

/-- The first version of the amplifier, and a cable that needs a plug, which needs the cable and the next amplifier in turn. -/
def backline : PackageSet :=
  .ofList [⟨"amplifier", .one, none, [⟨"cable", .any⟩], .installed⟩, ⟨"cable", .one, none, [⟨"plug", .any⟩], .installed⟩,
    ⟨"plug", .one, none, [⟨"cable", .any⟩, ⟨"amplifier", .atLeast .two⟩], .installed⟩]

/-- The plug leads back to both others, which are not expanded again, and the installed amplifier is not expanded at all. -/
example : (amplifier.expanded backline .eleven).map Package.display = ["amplifier-2", "cable-1", "plug-1"] ∧
    (amplifier.resolution backline .eleven).hasIssue = false := by
  decide +kernel

end Package

end AddonPlanner
