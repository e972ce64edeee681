import Mathlib.Data.List.Chain
import AddonPlanner.Dependents.Graph
import AddonPlanner.Proofs.Catalog
import AddonPlanner.Proofs.Dependents
import AddonPlanner.Proofs.Resolution.Closure

/-!
# The search of the graph of dependents

Any search of the graph that visits just the nodes that it reaches and has not visited yet finds the dependents: the installed
packages at the end of a chain that starts with an updated package, and in which each package is required by the next
(`dependents_end_chains`). Along the chain there are installed packages only, none of them ignored and none the installed version of
an updated package. A depth-first search is such a search (`exact_depthFirst`).
-/

namespace AddonPlanner

namespace DependentsGraph

variable {g : DependentsGraph} {visited : List Nat} {i j k : Nat}

/-- Edges lead from one node to the other; each node leads to itself. -/
inductive Leads (g : DependentsGraph) (i : Nat) : Nat → Prop
  /-- A node leads to itself. -/
  | self : g.Leads i i
  /-- A node leads on along the edges. -/
  | step {j k : Nat} : g.Leads i j → (j, k) ∈ g.edges → g.Leads i k

/-- No edge leads from what has been visited to something else. -/
def Closed (g : DependentsGraph) (visited : List Nat) : Prop :=
  ∀ j ∈ visited, ∀ k, (j, k) ∈ g.edges → k ∈ visited

namespace Traversal

/-- A search visits exactly the nodes that it reaches from the node that it is moved to and has not visited yet. It is moved on when
it has visited all that it reaches, so that what it has visited is closed. -/
def Exact (search : Traversal) (g : DependentsGraph) : Prop :=
  ∀ visited, g.Closed visited → ∀ i < g.nodes.length, ∀ j, j ∈ search g visited i ↔ g.Leads i j ∧ j ∉ visited

variable {search : Traversal}

theorem Exact.mem_append_iff (h : search.Exact g) (hv : g.Closed visited) (hi : i < g.nodes.length) :
    j ∈ visited ++ search g visited i ↔ j ∈ visited ∨ g.Leads i j := by
  rw [List.mem_append, h visited hv i hi]
  constructor
  · exact Or.imp_right And.left
  · rintro (hj | hj)
    · exact Or.inl hj
    · by_cases hold : j ∈ visited
      · exact Or.inl hold
      · exact Or.inr ⟨hj, hold⟩

theorem Exact.closed_append (h : search.Exact g) (hv : g.Closed visited) (hi : i < g.nodes.length) :
    g.Closed (visited ++ search g visited i) := by
  intro j hj k hedge
  rw [h.mem_append_iff hv hi] at hj ⊢
  rcases hj with hj | hj
  · exact Or.inl (hv j hj k hedge)
  · exact Or.inr (hj.step hedge)

/-- Moved to one node after the other, a search visits what these lead to. -/
theorem Exact.mem_visits_iff (h : search.Exact g) {starts : List Nat} (hstarts : ∀ i ∈ starts, i < g.nodes.length)
    (hv : g.Closed visited) : j ∈ search.visits g starts visited ↔ j ∈ visited ∨ ∃ i ∈ starts, g.Leads i j := by
  induction starts generalizing visited with
  | nil => simp [visits]
  | cons i rest ih =>
    obtain ⟨hi, hrest⟩ := List.forall_mem_cons.mp hstarts
    have hmoved := ih hrest (h.closed_append hv hi)
    rw [h.mem_append_iff hv hi, or_assoc] at hmoved
    simp only [List.mem_cons, exists_eq_or_imp]
    exact hmoved

end Traversal

/-! ## Depth first -/

theorem mem_successors : k ∈ g.successors i ↔ (i, k) ∈ g.edges := by
  unfold successors
  constructor
  · intro h
    obtain ⟨e, he, rfl⟩ := List.mem_map.mp h
    obtain ⟨he, hi⟩ := List.mem_filter.mp he
    rwa [← beq_iff_eq.mp hi]
  · intro h
    exact List.mem_map.mpr ⟨(i, k), List.mem_filter.mpr ⟨h, beq_self_eq_true i⟩, rfl⟩

/-- Edges lead from one node to the other past the nodes that have been visited. -/
inductive LeadsPast (g : DependentsGraph) (visited : List Nat) (i : Nat) : Nat → Prop
  /-- A node that has not been visited leads to itself. -/
  | self : i ∉ visited → g.LeadsPast visited i i
  /-- A node leads on to nodes that have not been visited. -/
  | step {j k : Nat} : g.LeadsPast visited i j → (j, k) ∈ g.edges → k ∉ visited → g.LeadsPast visited i k

theorem LeadsPast.not_mem (h : g.LeadsPast visited i j) : j ∉ visited := by
  cases h with
  | self hi => exact hi
  | step _ _ hk => exact hk

theorem LeadsPast.start_not_mem (h : g.LeadsPast visited i j) : i ∉ visited := by
  induction h with
  | self hi => exact hi
  | step _ _ _ ih => exact ih

theorem LeadsPast.of_cons (h : g.LeadsPast (k :: visited) i j) : g.LeadsPast visited i j := by
  induction h with
  | self hi => exact .self fun hmem => hi (List.mem_cons_of_mem _ hmem)
  | step _ hedge hk ih => exact ih.step hedge fun hmem => hk (List.mem_cons_of_mem _ hmem)

theorem LeadsPast.of_edge (hi : i ∉ visited) (hedge : (i, k) ∈ g.edges) (h : g.LeadsPast visited k j) :
    g.LeadsPast visited i j := by
  induction h with
  | self hk => exact (LeadsPast.self hi).step hedge hk
  | step _ hedge' hk ih => exact ih.step hedge' hk

/-- Past a node that is visited now, its successors lead to what it leads to. -/
theorem LeadsPast.eq_or_past {rest : List Nat} (hstart : k ∈ i :: rest) (h : g.LeadsPast visited k j) :
    j = i ∨ ∃ s ∈ g.successors i ++ rest, g.LeadsPast (i :: visited) s j := by
  induction h with
  | self hk =>
    rcases List.mem_cons.mp hstart with rfl | hrest
    · exact Or.inl rfl
    · by_cases hki : k = i
      · exact Or.inl hki
      · exact Or.inr ⟨k, List.mem_append_right _ hrest, .self (by simp [hki, hk])⟩
  | @step m j _ hedge hj ih =>
    by_cases hji : j = i
    · exact Or.inl hji
    · have hnew : j ∉ i :: visited := by simp [hji, hj]
      rcases ih with rfl | ⟨s, hs, hpast⟩
      · exact Or.inr ⟨j, List.mem_append_left _ (mem_successors.mpr hedge), .self hnew⟩
      · exact Or.inr ⟨s, hs, hpast.step hedge hnew⟩

/-- A depth-first search visits what the nodes on its stack lead to past those that have been visited. -/
theorem mem_depthFirst_iff {stack : List Nat} : j ∈ g.depthFirst visited stack ↔ ∃ i ∈ stack, g.LeadsPast visited i j := by
  fun_induction g.depthFirst visited stack with
  | case1 visited => simp
  | case2 visited i rest hi ih =>
    rw [ih]
    constructor
    · rintro ⟨s, hs, hpast⟩
      exact ⟨s, List.mem_cons_of_mem _ hs, hpast⟩
    · rintro ⟨s, hs, hpast⟩
      rcases List.mem_cons.mp hs with rfl | hs
      · exact absurd hi hpast.start_not_mem
      · exact ⟨s, hs, hpast⟩
  | case3 visited i rest hi ih =>
    rw [List.mem_cons, ih]
    constructor
    · rintro (rfl | ⟨s, hs, hpast⟩)
      · exact ⟨j, List.mem_cons_self, .self hi⟩
      · rcases List.mem_append.mp hs with hs | hs
        · exact ⟨i, List.mem_cons_self, hpast.of_cons.of_edge hi (mem_successors.mp hs)⟩
        · exact ⟨s, List.mem_cons_of_mem _ hs, hpast.of_cons⟩
    · rintro ⟨s, hs, hpast⟩
      exact hpast.eq_or_past hs

/-- When what has been visited is closed, no way to a new node leads through it. -/
theorem Closed.leadsPast_iff (hv : g.Closed visited) : g.LeadsPast visited i j ↔ g.Leads i j ∧ j ∉ visited := by
  constructor
  · intro h
    refine ⟨?_, h.not_mem⟩
    induction h with
    | self => exact .self
    | step _ hedge _ ih => exact ih.step hedge
  · rintro ⟨h, hj⟩
    induction h with
    | self => exact .self hj
    | @step m k _ hedge ih => exact (ih fun hm => hj (hv m hm k hedge)).step hedge hj

/-- A depth-first search visits exactly what it reaches and has not visited yet. -/
theorem exact_depthFirst (g : DependentsGraph) : Traversal.Exact (fun g visited i => g.depthFirst visited [i]) g := by
  intro visited hv i _ j
  rw [mem_depthFirst_iff, ← hv.leadsPast_iff]
  simp

end DependentsGraph

/-! ## The graph of a catalog -/

theorem DependentsGraph.mem_edgesTo {nodes : List Package} {y : Package} {i j k : Nat} :
    (i, j) ∈ edgesTo nodes (y, k) ↔ j = k ∧ i ≠ k ∧ ∃ x, nodes[i]? = some x ∧ y.requires x := by
  unfold edgesTo
  rw [List.mem_map]
  constructor
  · rintro ⟨⟨x, i'⟩, hmem, heq⟩
    obtain ⟨rfl, rfl⟩ := Prod.mk.inj heq
    obtain ⟨hnode, hcond⟩ := List.mem_filter.mp hmem
    rw [Bool.and_eq_true, bne_iff_ne] at hcond
    exact ⟨rfl, hcond.1, x, List.mk_mem_zipIdx_iff_getElem?.mp hnode, hcond.2⟩
  · rintro ⟨rfl, hne, x, hnode, hreq⟩
    refine ⟨(x, i), List.mem_filter.mpr ⟨List.mk_mem_zipIdx_iff_getElem?.mpr hnode, ?_⟩, rfl⟩
    rw [Bool.and_eq_true, bne_iff_ne]
    exact ⟨hne, hreq⟩

namespace Catalog

variable {c : Catalog} {updated ignored : PackageSet} {i j : Nat} {x y : Package}

theorem candidates_eq_filter (c : Catalog) (updated ignored : PackageSet) :
    c.candidates updated ignored = c.installed.filter fun p => !ignored.contains p.id && !updated.contains p.id := by
  refine Keyed.eq_of_forall_mem_iff fun x => ?_
  simp only [candidates, Keyed.mem_diff, Keyed.mem_filter, Bool.and_eq_true, Bool.not_eq_true', and_assoc]

theorem nodes_dependentsGraph (c : Catalog) (updated ignored : PackageSet) :
    (c.dependentsGraph updated ignored).nodes = updated.toList ++ (c.candidates updated ignored).toList := by
  rw [candidates_eq_filter]
  rfl

/-- The nodes of the updated packages come first. -/
theorem getElem?_nodes_of_lt (hi : i < updated.size) :
    (c.dependentsGraph updated ignored).nodes[i]? = updated.toList[i]? := by
  rw [nodes_dependentsGraph]
  exact List.getElem?_append_left hi

theorem exists_updated_of_lt (hi : i < updated.size) :
    ∃ t ∈ updated, (c.dependentsGraph updated ignored).nodes[i]? = some t := by
  rw [getElem?_nodes_of_lt hi]
  exact ⟨updated.toList[i], List.getElem_mem hi, List.getElem?_eq_getElem hi⟩

theorem exists_node_of_mem_updated (hx : x ∈ updated) :
    ∃ i < updated.size, (c.dependentsGraph updated ignored).nodes[i]? = some x := by
  obtain ⟨i, hi⟩ := List.mem_iff_getElem?.mp hx
  have hlt : i < updated.size := (List.getElem?_eq_some_iff.mp hi).1
  exact ⟨i, hlt, (getElem?_nodes_of_lt hlt).trans hi⟩

/-- The nodes of the candidates come behind them. -/
theorem getElem?_nodes_of_le (hj : updated.size ≤ j) :
    (c.dependentsGraph updated ignored).nodes[j]? = (c.candidates updated ignored).toList[j - updated.size]? := by
  rw [nodes_dependentsGraph]
  exact List.getElem?_append_right hj

theorem mem_candidates_of_getElem? (hj : updated.size ≤ j)
    (hy : (c.dependentsGraph updated ignored).nodes[j]? = some y) : y ∈ c.candidates updated ignored := by
  rw [getElem?_nodes_of_le hj] at hy
  exact List.mem_of_getElem? hy

theorem exists_node_of_mem_candidates (hy : y ∈ c.candidates updated ignored) :
    ∃ j, updated.size ≤ j ∧ (c.dependentsGraph updated ignored).nodes[j]? = some y := by
  obtain ⟨k, hk⟩ := List.mem_iff_getElem?.mp hy
  refine ⟨updated.size + k, Nat.le_add_right _ _, ?_⟩
  rw [getElem?_nodes_of_le (Nat.le_add_right _ _), Nat.add_sub_cancel_left]
  exact hk

/-- Edges lead to the candidates, from every other node whose package is required. -/
theorem mem_edges_iff : (i, j) ∈ (c.dependentsGraph updated ignored).edges ↔
    i ≠ j ∧ updated.size ≤ j ∧ ∃ x y, (c.dependentsGraph updated ignored).nodes[i]? = some x ∧
      (c.dependentsGraph updated ignored).nodes[j]? = some y ∧ y.requires x := by
  have hedges : (c.dependentsGraph updated ignored).edges = ((c.candidates updated ignored).toList.zipIdx updated.size).flatMap
      (DependentsGraph.edgesTo (c.dependentsGraph updated ignored).nodes) := by
    rw [nodes_dependentsGraph, candidates_eq_filter]
    rfl
  rw [hedges, List.mem_flatMap]
  constructor
  · rintro ⟨⟨y, k⟩, hnode, hedge⟩
    obtain ⟨rfl, hne, x, hx, hreq⟩ := DependentsGraph.mem_edgesTo.mp hedge
    obtain ⟨hk, hy⟩ := List.mk_mem_zipIdx_iff_le_and_getElem?_sub.mp hnode
    exact ⟨hne, hk, x, y, hx, by rw [getElem?_nodes_of_le hk, hy], hreq⟩
  · rintro ⟨hne, hj, x, y, hx, hy, hreq⟩
    rw [getElem?_nodes_of_le hj] at hy
    exact ⟨(y, j), List.mk_mem_zipIdx_iff_le_and_getElem?_sub.mpr ⟨hj, hy⟩,
      DependentsGraph.mem_edgesTo.mpr ⟨rfl, hne, x, hx, hreq⟩⟩

/-- The edges lead from a node to nodes of candidates that its package leads to. -/
theorem leadsTo_of_leads (hx : (c.dependentsGraph updated ignored).nodes[i]? = some x)
    (h : (c.dependentsGraph updated ignored).Leads i j) :
    j = i ∨ updated.size ≤ j ∧ ∃ y, (c.dependentsGraph updated ignored).nodes[j]? = some y ∧
      x.LeadsTo (c.candidates updated ignored).toList y := by
  induction h with
  | self => exact Or.inl rfl
  | step _ hedge ih =>
    obtain ⟨-, hk, w, z, hw, hz, hreq⟩ := mem_edges_iff.mp hedge
    have hmem := mem_candidates_of_getElem? hk hz
    refine Or.inr ⟨hk, z, hz, ?_⟩
    rcases ih with rfl | ⟨-, y, hy, hled⟩
    · rw [hx] at hw
      rw [← Option.some.inj hw] at hreq
      exact .direct hmem hreq
    · rw [hy] at hw
      rw [← Option.some.inj hw] at hreq
      exact .through hled hmem hreq

/-- What a package leads to is at a node that the edges lead to. A package that requires itself has no edge to itself, and needs
none. -/
theorem exists_leads_of_leadsTo (hx : (c.dependentsGraph updated ignored).nodes[i]? = some x)
    (h : x.LeadsTo (c.candidates updated ignored).toList y) :
    ∃ j, updated.size ≤ j ∧ (c.dependentsGraph updated ignored).nodes[j]? = some y ∧
      (c.dependentsGraph updated ignored).Leads i j := by
  induction h with
  | @direct y hmem hreq =>
    obtain ⟨j, hj, hy⟩ := exists_node_of_mem_candidates hmem
    refine ⟨j, hj, hy, ?_⟩
    by_cases hij : i = j
    · rw [← hij]
      exact .self
    · exact DependentsGraph.Leads.self.step (mem_edges_iff.mpr ⟨hij, hj, x, y, hx, hy, hreq⟩)
  | @through z y _ hmem hreq ih =>
    obtain ⟨k, -, hy, hleads⟩ := ih
    obtain ⟨j, hj, hz⟩ := exists_node_of_mem_candidates hmem
    refine ⟨j, hj, hz, ?_⟩
    by_cases hkj : k = j
    · rw [← hkj]
      exact hleads
    · exact hleads.step (mem_edges_iff.mpr ⟨hkj, hj, y, z, hy, hz, hreq⟩)

section

variable {search : DependentsGraph.Traversal} (h : search.Exact (c.dependentsGraph updated ignored))

include h

/-- Moved to one updated package after the other, a search visits what the edges lead to from these. -/
theorem mem_visits_range_iff : j ∈ search.visits (c.dependentsGraph updated ignored) (List.range updated.size) [] ↔
    ∃ i < updated.size, (c.dependentsGraph updated ignored).Leads i j := by
  have hstarts : ∀ i ∈ List.range updated.size, i < (c.dependentsGraph updated ignored).nodes.length := by
    intro i hi
    rw [nodes_dependentsGraph, List.length_append]
    exact Nat.lt_add_right _ (List.mem_range.mp hi)
  have hnothing : (c.dependentsGraph updated ignored).Closed [] := fun _ hj => absurd hj List.not_mem_nil
  rw [h.mem_visits_iff hstarts hnothing]
  simp only [List.not_mem_nil, false_or, List.mem_range]

/-- The packages found are those at the nodes behind the updated packages that the edges lead to from these. -/
theorem mem_dependentsVia_iff : y ∈ c.dependentsVia search updated ignored ↔ ∃ j, updated.size ≤ j ∧
    (c.dependentsGraph updated ignored).nodes[j]? = some y ∧
      ∃ i < updated.size, (c.dependentsGraph updated ignored).Leads i j := by
  have hlisted (z : Package) : z ∈ ((search.visits (c.dependentsGraph updated ignored) (List.range updated.size) []).filter
      (updated.size ≤ ·)).filterMap ((c.dependentsGraph updated ignored).nodes[·]?) ↔ ∃ j, updated.size ≤ j ∧
        (c.dependentsGraph updated ignored).nodes[j]? = some z ∧
          ∃ i < updated.size, (c.dependentsGraph updated ignored).Leads i j := by
    simp only [List.mem_filterMap, List.mem_filter, mem_visits_range_iff h, decide_eq_true_eq]
    exact exists_congr fun j => ⟨fun ⟨⟨hled, hj⟩, hz⟩ => ⟨hj, hz, hled⟩, fun ⟨hj, hz, hled⟩ => ⟨⟨hled, hj⟩, hz⟩⟩
  rw [dependentsVia, Keyed.mem_ofList_iff (t := c.candidates updated ignored), hlisted]
  intro z hz
  obtain ⟨j, hj, hz, -⟩ := (hlisted z).mp hz
  exact mem_candidates_of_getElem? hj hz

/-- Every search of the graph that visits what it reaches finds the dependents. -/
theorem dependentsVia_eq_dependents : c.dependentsVia search updated ignored = c.dependents updated ignored := by
  refine Keyed.eq_of_forall_mem_iff fun y => ?_
  rw [mem_dependentsVia_iff h, mem_dependents_iff]
  constructor
  · rintro ⟨j, hj, hy, i, hi, hleads⟩
    obtain ⟨t, ht, hnode⟩ := exists_updated_of_lt hi
    rcases leadsTo_of_leads hnode hleads with rfl | ⟨-, z, hz, hled⟩
    · exact absurd hi (Nat.not_lt.mpr hj)
    · rw [hy] at hz
      rw [Option.some.inj hz]
      exact ⟨t, ht, hled⟩
  · rintro ⟨t, ht, hled⟩
    obtain ⟨i, hi, hnode⟩ := exists_node_of_mem_updated ht
    obtain ⟨j, hj, hy, hleads⟩ := exists_leads_of_leadsTo hnode hled
    exact ⟨j, hj, hy, i, hi, hleads⟩

end

end Catalog

/-! ## Chains -/

namespace Package

variable {candidates : List Package} {p x : Package}

/-- A package leads to the last package of every chain of candidates that starts with it, each of which requires the one before. -/
theorem leadsTo_iff_chain : p.LeadsTo candidates x ↔
    ∃ l : List Package, (p :: l).IsChain (fun q next => next.requires q) ∧ (∀ q ∈ l, q ∈ candidates) ∧ l.getLast? = some x := by
  constructor
  · intro h
    induction h with
    | @direct x hmem hreq =>
      exact ⟨[x], by simpa using hreq, by simpa using hmem, rfl⟩
    | @through x y hled hmem hreq ih =>
      obtain ⟨l, hchain, hall, hlast⟩ := ih
      have hend : (p :: l).getLast? = some y := by rw [List.getLast?_cons, hlast, Option.getD_some]
      refine ⟨l ++ [x], hchain.append (List.isChain_singleton x) ?_, ?_, List.getLast?_concat⟩
      · intro q hq next hnext
        rw [hend] at hq
        rw [← Option.some.inj hq, ← Option.some.inj hnext]
        exact hreq
      · intro q hq
        rcases List.mem_append.mp hq with hq | hq
        · exact hall q hq
        · rwa [List.mem_singleton.mp hq]
  · rintro ⟨l, hchain, hall, hlast⟩
    induction l generalizing p with
    | nil => cases hlast
    | cons q rest ih =>
      obtain ⟨hreq, hrest⟩ := List.isChain_cons_cons.mp hchain
      obtain ⟨hq, hmem⟩ := List.forall_mem_cons.mp hall
      have hdirect : p.LeadsTo candidates q := .direct hq hreq
      cases rest with
      | nil =>
        rw [← Option.some.inj hlast]
        exact hdirect
      | cons _ _ => exact hdirect.trans (ih hrest hmem hlast)

end Package

namespace Catalog

/-- A chain from an updated package to a dependent: the packages behind the updated one. -/
structure DependencyChain (c : Catalog) (updated ignored : PackageSet) (t : Package) (l : List Package) (x : Package) : Prop where
  /-- Each package declares a requirement on the one before it, which its version meets. -/
  linked : (t :: l).IsChain fun q next => ∃ r ∈ next.requirements, r.id = q.id ∧ r.bounds.contains q.version
  /-- All of them are installed; none is ignored, and none the installed version of an updated package. -/
  reportable : ∀ q ∈ l, q ∈ c.installed ∧ updated.contains q.id = false ∧ ignored.contains q.id = false
  /-- The dependent is the last. -/
  ends : l.getLast? = some x

variable {c : Catalog} {updated ignored : PackageSet} {t x : Package}

theorem mem_candidates_iff :
    x ∈ c.candidates updated ignored ↔ x ∈ c.installed ∧ updated.contains x.id = false ∧ ignored.contains x.id = false := by
  rw [candidates, Keyed.mem_diff, Keyed.mem_diff, and_assoc, and_comm (a := ignored.contains x.id = false)]

theorem exists_dependencyChain_iff :
    (∃ l, c.DependencyChain updated ignored t l x) ↔ t.LeadsTo (c.candidates updated ignored).toList x := by
  have hlink (q next : Package) :
      next.requires q ↔ ∃ r ∈ next.requirements, r.id = q.id ∧ r.bounds.contains q.version := by
    simp only [Package.requires_iff, Package.isMetBy_iff, eq_comm (a := q.id)]
  rw [Package.leadsTo_iff_chain]
  constructor
  · rintro ⟨l, hl⟩
    exact ⟨l, (List.IsChain.iff hlink).mpr hl.linked, fun q hq => mem_candidates_iff.mpr (hl.reportable q hq), hl.ends⟩
  · rintro ⟨l, hchain, hall, hlast⟩
    exact ⟨l, (List.IsChain.iff hlink).mp hchain, fun q hq => mem_candidates_iff.mp (hall q hq), hlast⟩

/-- The dependents stand at the ends of the chains that start with an updated package, and at no other place: they are what a search
of the graph finds that visits exactly the nodes it reaches from each updated package and has not visited yet. -/
theorem dependents_end_chains (c : Catalog) (updated ignored : PackageSet) (search : DependentsGraph.Traversal)
    (h : search.Exact (c.dependentsGraph updated ignored)) :
    (∀ x, x ∈ c.dependentsVia search updated ignored ↔ ∃ t ∈ updated, ∃ l, c.DependencyChain updated ignored t l x) ∧
      c.dependentsVia search updated ignored = c.dependents updated ignored := by
  refine ⟨fun x => ?_, dependentsVia_eq_dependents h⟩
  rw [dependentsVia_eq_dependents h, mem_dependents_iff]
  simp only [exists_dependencyChain_iff]

/-- The next versions of a font and of a palette. -/
def paints : PackageSet :=
  .ofList [⟨"font", .two, none, [], .available⟩, ⟨"palette", .two, none, [], .available⟩]

/-- What is installed: the first font; a canvas and a brush that need each other, the canvas the font as well, and the brush the
palette and itself; an easel that needs the canvas, and a frame that needs the easel; a sketch that refuses the next font. -/
def gallery : Catalog where
  installed := .ofList [⟨"font", .one, none, [], .installed⟩,
    ⟨"canvas", .one, none, [⟨"font", .any⟩, ⟨"brush", .any⟩], .installed⟩,
    ⟨"brush", .one, none, [⟨"palette", .atLeast .two⟩, ⟨"canvas", .any⟩, ⟨"brush", .any⟩], .installed⟩,
    ⟨"easel", .one, none, [⟨"canvas", .any⟩], .installed⟩, ⟨"frame", .one, none, [⟨"easel", .any⟩], .installed⟩,
    ⟨"sketch", .one, none, [⟨"font", .atMost .one⟩], .installed⟩]
  available := ∅

/-- The easel to be ignored. -/
def easels : PackageSet := .ofList [⟨"easel", .one, none, [], .installed⟩]

/-- Both updated packages lead to the canvas and the brush. When the easel is ignored, no chain leads to the frame behind it. -/
theorem paints_end_chains :
    DependentsGraph.Traversal.Exact (fun g visited i => g.depthFirst visited [i]) (gallery.dependentsGraph paints easels) ∧
      ((∀ x, x ∈ gallery.dependentsVia (fun g visited i => g.depthFirst visited [i]) paints easels ↔
          ∃ t ∈ paints, ∃ l, gallery.DependencyChain paints easels t l x) ∧
        gallery.dependentsVia (fun g visited i => g.depthFirst visited [i]) paints easels = gallery.dependents paints easels) ∧
      (gallery.dependents paints easels).keys = ["brush", "canvas"] ∧
      (gallery.dependents paints ∅).keys = ["brush", "canvas", "easel", "frame"] := by
  have hexact := DependentsGraph.exact_depthFirst (gallery.dependentsGraph paints easels)
  exact ⟨hexact, dependents_end_chains gallery paints easels _ hexact, by decide +kernel, by decide +kernel⟩

end Catalog

end AddonPlanner
