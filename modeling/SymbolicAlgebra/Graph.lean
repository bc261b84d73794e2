import SymbolicAlgebra.Outline
/-!
# Graphs of labelled nodes

Outlines are added to a graph one after another. A node is created before its parts, and the edge to
a part is put in once all that is below the part has been added. One node may be chosen as the root.
The graph is then searched from there: depth first for the order of a listing, and layer by layer
for the distances of the nodes.

* `Graph.add`: a graph with one more outline, and the number of its top node.
* `Graph.preorder`, `Graph.levels`: the two searches.
* `Graph.linesBy`, `Graph.depthBy`: what is read off any two searches, and `Graph.lines` and
  `Graph.depth` off these.
* `Expr.dump`: the listing of a tree as one text.
-/
namespace SymbolicAlgebra

/-- Nodes and edges stand in the order in which they were put in. -/
structure Graph where
  /-- The nodes, each with its label. -/
  nodes : List (Nat × String)
  /-- The edges, each from a node to a part of it. -/
  edges : List (Nat × Nat)
  /-- The number of the node that was created last. -/
  last : Nat
  root : Option Nat
deriving DecidableEq, Repr

namespace Graph

def empty : Graph := ⟨[], [], 0, none⟩

/-- The name of the node with the given number. -/
def nodeName (id : Nat) : String := "n" ++ toString id

/-- The graph with a new node, and the number of that node. -/
def addNode (g : Graph) (label : String) : Graph × Nat :=
  ({ g with nodes := g.nodes ++ [(g.last + 1, label)], last := g.last + 1 }, g.last + 1)

/-- The graph with an edge between two of its nodes. There is at most one from a node to another. -/
def addEdge (g : Graph) (id part : Nat) : Graph :=
  if (id, part) ∈ g.edges then g else { g with edges := g.edges ++ [(id, part)] }

mutual

/-- The graph with an outline added, and the number of its top node. -/
def add (g : Graph) : Outline → Graph × Nat
  | .node label parts =>
    let (g, id) := g.addNode label
    (addAll g id parts, id)

/-- The graph with outlines added below the node `id`. -/
def addAll (g : Graph) (id : Nat) : List Outline → Graph
  | [] => g
  | o :: os =>
    let (g, part) := add g o
    addAll (g.addEdge id part) id os

end

def withRoot (g : Graph) (id : Nat) : Graph := { g with root := some id }

/-- The graph of one outline, its top node being the root. -/
def ofOutline (o : Outline) : Graph :=
  let (g, id) := empty.add o
  g.withRoot id

def size (g : Graph) : Nat := g.nodes.length

def ids (g : Graph) : List Nat := g.nodes.map Prod.fst

/-- The label of a node. -/
def label? (g : Graph) (id : Nat) : Option String := g.nodes.lookup id

/-- The parts of a node. -/
def parts (g : Graph) (id : Nat) : List Nat := (g.edges.filter (·.1 == id)).map Prod.snd

/-- The nodes that a search has not met. -/
def unseen (g : Graph) (seen : List Nat) : List Nat := g.ids.filter (· ∉ seen)

theorem length_unseen_lt {g : Graph} {seen seen' : List Nat} {id : Nat} (hid : id ∈ g.ids)
    (hnew : id ∉ seen) (hseen : id ∈ seen') (hsub : seen ⊆ seen') :
    (g.unseen seen').length < (g.unseen seen).length := by
  have hsplit : g.unseen seen' = (g.unseen seen).filter (· ∉ seen') := by
    rw [unseen, unseen, List.filter_filter]
    refine List.filter_congr fun x _ => ?_
    by_cases hx : x ∈ seen
    · simp [hx, hsub hx]
    · simp [hx]
  rw [hsplit]
  refine List.length_filter_lt_length_iff_exists.mpr ⟨id, ?_, by simp [hseen]⟩
  simp [unseen, hid, hnew]

/-- The nodes met by a depth first search that has met those of `seen` and goes on with those of
`todo`. -/
def preorder (g : Graph) (seen : List Nat) : List Nat → List Nat
  | [] => []
  | id :: todo =>
    if id ∈ g.ids ∧ id ∉ seen then id :: preorder g (id :: seen) (g.parts id ++ todo)
    else preorder g seen todo
termination_by todo => ((g.unseen seen).length, todo.length)
decreasing_by
  · next h => exact Prod.Lex.left _ _ (length_unseen_lt h.1 h.2 (by simp) (by simp))
  · exact Prod.Lex.right _ (by simp)

/-- The nodes that a search meets next: parts of those in the last layer that it has not met. -/
def nextLayer (g : Graph) (seen layer : List Nat) : List Nat :=
  ((layer.flatMap g.parts).filter fun id => id ∈ g.ids ∧ id ∉ seen).eraseDups

theorem mem_nextLayer {g : Graph} {seen layer : List Nat} {id : Nat} :
    id ∈ g.nextLayer seen layer ↔
      (∃ parent ∈ layer, id ∈ g.parts parent) ∧ id ∈ g.ids ∧ id ∉ seen := by
  simp [nextLayer]

/-- The nodes met by a search layer by layer, with their levels. It has met the nodes of `seen`, and
those of `layer` last. -/
def spread (g : Graph) (seen : List Nat) (level : Nat) (layer : List Nat) : List (Nat × Nat) :=
  let next := g.nextLayer seen layer
  layer.map (·, level) ++ if next = [] then [] else spread g (seen ++ next) (level + 1) next
termination_by (g.unseen seen).length
decreasing_by
  next h =>
  obtain ⟨id, hid⟩ := List.exists_mem_of_ne_nil _ h
  obtain ⟨-, hmem, hnew⟩ := mem_nextLayer.mp hid
  exact length_unseen_lt hmem hnew (List.mem_append_right _ hid) (by simp)

/-- The nodes that a search from `id` meets, with their distances from it. -/
def levels (g : Graph) (id : Nat) : List (Nat × Nat) := g.spread [id] 0 [id]

/-- The searches that a listing and a depth are read off. -/
structure Searches where
  /-- The nodes met by a depth first search from a node, in the order in which it meets them. -/
  preorder : Graph → Nat → List Nat
  /-- The nodes that paths lead to from a node, with the lengths of the shortest paths. -/
  distances : Graph → Nat → List (Nat × Nat)

def Searches.standard : Searches := ⟨fun g id => g.preorder [] [id], levels⟩

/-- The greatest distance of a node from the root, or zero where there is no root. -/
def depthBy (s : Searches) (g : Graph) : Nat :=
  match g.root with
  | none => 0
  | some id => ((s.distances g id).map Prod.snd).max?.getD 0

/-- The listing of the nodes below the root, or nothing where there is no root. -/
def linesBy (s : Searches) (g : Graph) (indent : Nat) : List String :=
  match g.root with
  | none => []
  | some id =>
    let levels := s.distances g id
    (s.preorder g id).map fun id =>
      Outline.line indent ((levels.lookup id).getD 0) ((g.label? id).getD "")

def depth (g : Graph) : Nat := g.depthBy .standard

def lines (g : Graph) (indent : Nat) : List String := g.linesBy .standard indent

end Graph

namespace Expr

variable {α : Type} [Numeral α]

/-- The listing of a tree as one text, by way of a graph. -/
def dumpWith (indent : Nat) (e : Expr α) : String :=
  "\n".intercalate ((Graph.ofOutline e.outline).lines indent)

def dump (e : Expr α) : String := e.dumpWith 2

end Expr
end SymbolicAlgebra
