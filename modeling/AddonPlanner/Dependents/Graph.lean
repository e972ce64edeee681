import AddonPlanner.Dependents

/-!
# The graph of dependents

The search for dependents told as a walk through a graph. The updated packages are its first nodes, the installed packages that may be
reported come after them, and edges lead from each package to the installed packages that require it at its version. A search of the
graph is moved to one updated package after the other and visits no node twice; what it visits behind the updated packages are the
dependents.
-/

namespace AddonPlanner

/-- A graph whose nodes are packages; a node is known by its place. -/
structure DependentsGraph where
  /-- The packages at the nodes. -/
  nodes : List Package
  /-- The edges, each from the place of a node to the place of another. -/
  edges : List (Nat × Nat)

namespace DependentsGraph

/-- The edges to a node, from every other node whose package is required. -/
def edgesTo (nodes : List Package) (dependent : Package × Nat) : List (Nat × Nat) :=
  (nodes.zipIdx.filter fun node => node.2 != dependent.2 && dependent.1.requires node.1).map fun node => (node.2, dependent.2)

/-- The nodes that edges lead to from a node. -/
def successors (g : DependentsGraph) (i : Nat) : List Nat :=
  (g.edges.filter (·.1 == i)).map Prod.snd

/-- The number of edges from nodes that have not been visited. -/
def unvisited (g : DependentsGraph) (visited : List Nat) : Nat :=
  g.edges.countP fun e => !visited.contains e.1

/-- The edges from a node are no longer counted when it is visited. -/
theorem unvisited_cons_add {g : DependentsGraph} {visited : List Nat} {i : Nat} (h : i ∉ visited) :
    g.unvisited (i :: visited) + (g.successors i).length = g.unvisited visited := by
  have hnew : visited.contains i = false := by simpa using h
  unfold unvisited successors
  rw [List.length_map, ← List.countP_eq_length_filter]
  induction g.edges with
  | nil => rfl
  | cons e rest ih =>
    simp only [List.countP_cons, List.contains_cons] at ih ⊢
    by_cases hi : e.1 = i
    · simp only [hi, hnew, beq_self_eq_true, Bool.true_or, Bool.not_true, Bool.not_false, if_true, Bool.false_eq_true, if_false]
      omega
    · simp only [beq_eq_false_iff_ne.mpr hi, Bool.false_or, Bool.false_eq_true, if_false]
      omega

/-- Visits the nodes on a stack and, depth first, what they lead to; passes over what has been visited before. Lists the nodes in the
order of the visits. -/
def depthFirst (g : DependentsGraph) (visited stack : List Nat) : List Nat :=
  match stack with
  | [] => []
  | i :: rest =>
    if i ∈ visited then g.depthFirst visited rest
    else i :: g.depthFirst (i :: visited) (g.successors i ++ rest)
termination_by g.unvisited visited + stack.length
decreasing_by
  · simp only [List.length_cons]
    omega
  · have := unvisited_cons_add (g := g) ‹i ∉ visited›
    simp only [List.length_append, List.length_cons]
    omega

/-- A search of a graph: told the nodes that it has visited and the node that it is moved to, it lists those that it visits next. -/
abbrev Traversal := DependentsGraph → List Nat → Nat → List Nat

/-- What a search has visited when it has been moved to the nodes of a list, one after the other. -/
def Traversal.visits (search : Traversal) (g : DependentsGraph) (starts visited : List Nat) : List Nat :=
  starts.foldl (fun visited i => visited ++ search g visited i) visited

end DependentsGraph

namespace Catalog

/-- The updated packages and, behind them, the installed ones but for those to be ignored and the installed versions of the updated
packages, with edges to each of the latter from the packages it requires. -/
def dependentsGraph (c : Catalog) (updated ignored : PackageSet) : DependentsGraph :=
  let candidates := (c.installed.filter fun p => !ignored.contains p.id && !updated.contains p.id).toList
  let nodes := updated.toList ++ candidates
  { nodes, edges := (candidates.zipIdx updated.size).flatMap (DependentsGraph.edgesTo nodes) }

/-- The packages that a search visits behind the updated ones. -/
def dependentsVia (c : Catalog) (search : DependentsGraph.Traversal) (updated ignored : PackageSet) : PackageSet :=
  let g := c.dependentsGraph updated ignored
  let visits := search.visits g (List.range updated.size) []
  .ofList ((visits.filter (updated.size ≤ ·)).filterMap (g.nodes[·]?))

end Catalog

end AddonPlanner
