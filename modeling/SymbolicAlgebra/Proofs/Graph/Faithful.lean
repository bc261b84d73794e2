import Mathlib.Algebra.GroupWithZero.Nat
import SymbolicAlgebra.Binary64.Instances
import SymbolicAlgebra.Proofs.Graph.Listing

/-!
# A graph is an image of its trees

Adding an outline gives the next numbers to its nodes and touches no node that was
there before, although an edge to a part is put in only after the part with all
that is below it. So the outlines of a graph stand one after another, in the order
in which they were added, and every one of them stays where it is.

Results:
* `grows_add`, `growsBelow_addAll`: what adding an outline does to a graph.
* `Graph.Built.faithful`: a graph built by adding trees and choosing roots has the
  nodes of the trees and no others, and shows every tree as it is. What it shows is
  compared with recursions over the trees.
* `Expr.dumpWith_eq`: the text of a tree by way of a graph is its listing.
-/
namespace SymbolicAlgebra

namespace Outline

theorem size_pos (o : Outline) : 0 < o.size := by
  cases o
  simp only [size]
  omega

theorem sizeAll_append (os os' : List Outline) :
    sizeAll (os ++ os') = sizeAll os + sizeAll os' := by
  induction os with
  | nil => simp [sizeAll]
  | cons o os ih => simp only [List.cons_append, sizeAll, ih, Nat.add_assoc]

theorem labelsAll_append (os os' : List Outline) :
    labelsAll (os ++ os') = labelsAll os ++ labelsAll os' := by
  induction os with
  | nil => rfl
  | cons o os ih => simp only [List.cons_append, labelsAll, ih, List.append_assoc]

theorem starts_append (id : Nat) (os os' : List Outline) :
    starts id (os ++ os') = starts id os ++ starts (id + sizeAll os) os' := by
  induction os generalizing id with
  | nil => rfl
  | cons o os ih => simp only [List.cons_append, starts, sizeAll, ih, Nat.add_assoc]

end Outline

namespace Graph

open Outline (starts sizeAll labelsAll)

variable {g g' : Graph} {id part x : Nat} {o : Outline} {os : List Outline}

theorem standsAll_append : StandsAll g id (os ++ [o]) ↔
    StandsAll g id os ∧ Stands g (id + sizeAll os) o := by
  induction os generalizing id with
  | nil => simp [StandsAll, sizeAll]
  | cons o' os ih => simp only [List.cons_append, StandsAll, ih, sizeAll, Nat.add_assoc, and_assoc]

/-! ## One node and one edge -/

/-- Nodes have the numbers from one on, and edges join nodes. -/
structure WellFormed (g : Graph) : Prop where
  ids : g.ids = List.range' 1 g.last
  edges : ∀ {id part}, part ∈ g.parts id → id ≤ g.last ∧ 1 ≤ part ∧ part ≤ g.last

theorem wellFormed_empty : WellFormed empty := ⟨rfl, nofun⟩

theorem WellFormed.closed (h : WellFormed g) : Closed g := by
  intro id part hpart
  have hbound := (h.edges hpart).2
  rw [h.ids, List.mem_range'_1]
  omega

theorem WellFormed.size_eq (h : WellFormed g) : g.size = g.last := by
  have hlength := congrArg List.length h.ids
  simpa [Graph.ids, size] using hlength

theorem WellFormed.parts_eq_nil (h : WellFormed g) (hid : g.last < id) : g.parts id = [] := by
  rw [List.eq_nil_iff_forall_not_mem]
  intro part hpart
  have hbound := (h.edges hpart).1
  omega

theorem WellFormed.label_addNode (h : WellFormed g) (label : String) :
    (g.addNode label).1.label? (g.last + 1) = some label := by
  have hnew : g.label? (g.last + 1) = none := by
    rw [← Option.not_isSome_iff_eq_none]
    intro hsome
    obtain ⟨label', hlabel⟩ := Option.isSome_iff_exists.mp hsome
    have hmem := mem_ids_of_label hlabel
    rw [h.ids, List.mem_range'_1] at hmem
    omega
  show (g.nodes ++ [(g.last + 1, label)]).lookup (g.last + 1) = some label
  rw [List.lookup_append, show g.nodes.lookup (g.last + 1) = none from hnew]
  simp

theorem label_addNode_of_le (hx : x ≤ g.last) (label : String) :
    (g.addNode label).1.label? x = g.label? x := by
  have hne : (x == g.last + 1) = false := by
    rw [beq_eq_false_iff_ne]
    omega
  show (g.nodes ++ [(g.last + 1, label)]).lookup x = g.nodes.lookup x
  simp [List.lookup_append, List.lookup_cons, hne]

theorem WellFormed.addNode (h : WellFormed g) (label : String) :
    WellFormed (g.addNode label).1 where
  ids := by
    show (g.nodes ++ [(g.last + 1, label)]).map Prod.fst = List.range' 1 (g.last + 1)
    rw [List.map_append, List.range'_1_concat, ← h.ids, Nat.add_comm 1]
    rfl
  edges hpart := by
    have hbound := h.edges hpart
    show _ ≤ g.last + 1 ∧ _ ∧ _ ≤ g.last + 1
    omega

theorem mem_parts_iff : part ∈ g.parts id ↔ (id, part) ∈ g.edges := by
  simp [parts]

theorem parts_addEdge_of_ne (h : x ≠ id) : (g.addEdge id part).parts x = g.parts x := by
  unfold addEdge parts
  split
  · rfl
  · simp [h.symm]

theorem parts_addEdge (h : part ∉ g.parts id) :
    (g.addEdge id part).parts id = g.parts id ++ [part] := by
  rw [mem_parts_iff] at h
  simp [addEdge, parts, h]

theorem nodes_addEdge (g : Graph) (id part : Nat) : (g.addEdge id part).nodes = g.nodes := by
  unfold addEdge
  split <;> rfl

theorem root_addEdge (g : Graph) (id part : Nat) : (g.addEdge id part).root = g.root := by
  unfold addEdge
  split <;> rfl

theorem last_addEdge (g : Graph) (id part : Nat) : (g.addEdge id part).last = g.last := by
  unfold addEdge
  split <;> rfl

theorem WellFormed.addEdge (h : WellFormed g) (hid : id ≤ g.last) (hpos : 1 ≤ part)
    (hpart : part ≤ g.last) (hnew : part ∉ g.parts id) : WellFormed (g.addEdge id part) where
  ids := by
    rw [Graph.ids, nodes_addEdge, last_addEdge]
    exact h.ids
  edges := by
    intro x y hy
    rw [last_addEdge]
    by_cases hx : x = id
    · subst hx
      rw [parts_addEdge hnew, List.mem_append, List.mem_singleton] at hy
      rcases hy with hy | rfl
      · exact h.edges hy
      · exact ⟨hid, hpos, hpart⟩
    · rw [parts_addEdge_of_ne hx] at hy
      exact h.edges hy

/-! ## Outlines -/

/-- `g'` has, besides what is in `g`, the outlines behind the last node. -/
structure Grows (g g' : Graph) (os : List Outline) : Prop where
  last : g'.last = g.last + sizeAll os
  labels : g'.nodes.map Prod.snd = g.nodes.map Prod.snd ++ labelsAll os
  label : ∀ x ≤ g.last, g'.label? x = g.label? x
  wellFormed : WellFormed g'
  stands : StandsAll g' (g.last + 1) os

/-- The outlines are parts of the node `id`, behind those that it had. -/
structure GrowsBelow (g g' : Graph) (id : Nat) (os : List Outline) : Prop extends
    Grows g g' os where
  parts : g'.parts id = g.parts id ++ starts (g.last + 1) os
  others : ∀ x ≤ g.last, x ≠ id → g'.parts x = g.parts x

theorem growsBelow_nil (h : WellFormed g) : GrowsBelow g g id [] where
  last := rfl
  labels := (List.append_nil _).symm
  label _ _ := rfl
  wellFormed := h
  stands := trivial
  parts := (List.append_nil _).symm
  others _ _ _ := rfl

theorem Grows.le (h : Grows g g' [o]) : g.last + 1 ≤ g'.last := by
  have hlast := h.last
  have hpos := o.size_pos
  simp only [sizeAll] at hlast
  omega

/-- An outline is added with its top node, and its parts below that. -/
theorem grows_node (h : WellFormed g) (label : String) {parts : List Outline}
    (hparts : GrowsBelow (g.addNode label).1 g' (g.last + 1) parts) :
    Grows g g' [.node label parts] ∧ ∀ x ≤ g.last, g'.parts x = g.parts x := by
  have hlast : (g.addNode label).1.last = g.last + 1 := rfl
  refine ⟨⟨?_, ?_, fun x hx => ?_, hparts.wellFormed, ⟨?_, ?_, ?_⟩, trivial⟩, fun x hx => ?_⟩
  · rw [hparts.last, hlast]
    simp only [sizeAll, Outline.size]
    omega
  · rw [hparts.labels]
    simp [addNode, labelsAll, Outline.labels]
  · rw [hparts.label x (by omega), label_addNode_of_le hx]
  · rw [hparts.label (g.last + 1) (Nat.le_refl _), h.label_addNode]
  · rw [hparts.parts, show (g.addNode label).1.parts (g.last + 1) = g.parts (g.last + 1) from rfl,
      h.parts_eq_nil (Nat.lt_succ_self _), List.nil_append, hlast]
  · exact hparts.stands
  · exact hparts.others x (by omega) (by omega)

theorem WellFormed.not_mem_parts (h : WellFormed g) (hpart : g.last < part) :
    part ∉ g.parts id := by
  intro hmem
  have hbound := (h.edges hmem).2
  omega

/-- Outlines are added below a node one after another, each with the edge to it behind it. -/
theorem growsBelow_cons {g₁ : Graph} (hid : id ≤ g.last) (ho : Grows g g₁ [o])
    (hkept : ∀ x ≤ g.last, g₁.parts x = g.parts x) (hnew : g.last + 1 ∉ g₁.parts id)
    (hos : GrowsBelow (g₁.addEdge id (g.last + 1)) g' id os) : GrowsBelow g g' id (o :: os) := by
  have hlast : (g₁.addEdge id (g.last + 1)).last = g.last + o.size := by
    rw [last_addEdge, ho.last]
    simp only [sizeAll, Nat.add_zero]
  have hlabel : ∀ x, (g₁.addEdge id (g.last + 1)).label? x = g₁.label? x := fun x => by
    rw [label?, nodes_addEdge, label?]
  refine ⟨⟨?_, ?_, fun x hx => ?_, hos.wellFormed, ?_, ?_⟩, ?_, fun x hx hne => ?_⟩
  · rw [hos.last, hlast, sizeAll, Nat.add_assoc]
  · rw [hos.labels, nodes_addEdge, ho.labels]
    simp [labelsAll]
  · rw [hos.label x (by omega), hlabel, ho.label x hx]
  · refine ho.stands.1.of_kept fun x hx hlt => ⟨?_, ?_⟩
    · rw [hos.label x (by omega), hlabel]
    · rw [hos.others x (by omega) (by omega), parts_addEdge_of_ne (by omega)]
  · have hstands := hos.stands
    rwa [hlast, Nat.add_right_comm] at hstands
  · rw [hos.parts, parts_addEdge hnew, hkept id hid, hlast, starts, List.append_assoc,
      Nat.add_right_comm]
    rfl
  · rw [hos.others x (by omega) hne, parts_addEdge_of_ne hne, hkept x hx]

theorem id_add (g : Graph) (o : Outline) : (g.add o).2 = g.last + 1 := by
  cases o
  rfl

theorem addAll_cons (g : Graph) (id : Nat) (o : Outline) (os : List Outline) :
    g.addAll id (o :: os) = ((g.add o).1.addEdge id (g.last + 1)).addAll id os := by
  rw [← id_add g o, addAll]

mutual

/-- Adding an outline puts it behind the last node and leaves all others as they are. -/
theorem grows_add : ∀ {g : Graph}, WellFormed g → ∀ o : Outline,
    Grows g (g.add o).1 [o] ∧ ∀ x ≤ g.last, (g.add o).1.parts x = g.parts x
  | _, h, .node label parts => by
    rw [add]
    exact grows_node h label (growsBelow_addAll (h.addNode label) (Nat.le_refl _) parts)

theorem growsBelow_addAll : ∀ {g : Graph} {id : Nat}, WellFormed g → id ≤ g.last →
    ∀ os : List Outline, GrowsBelow g (g.addAll id os) id os
  | _, _, h, _, [] => growsBelow_nil h
  | g, id, h, hid, o :: os => by
    obtain ⟨ho, hkept⟩ := grows_add h o
    have hle := ho.le
    have hnew : g.last + 1 ∉ (g.add o).1.parts id := by
      rw [hkept id hid]
      exact h.not_mem_parts (Nat.lt_succ_self _)
    have hedge : WellFormed ((g.add o).1.addEdge id (g.last + 1)) :=
      ho.wellFormed.addEdge (by omega) (Nat.succ_pos _) hle hnew
    rw [addAll_cons]
    refine growsBelow_cons hid ho hkept hnew (growsBelow_addAll hedge ?_ os)
    rw [last_addEdge]
    omega

end

mutual

/-- Adding an outline does not choose a root. -/
theorem root_add : ∀ (g : Graph) (o : Outline), (g.add o).1.root = g.root
  | g, .node label parts => by
    rw [add]
    exact root_addAll (g.addNode label).1 (g.addNode label).2 parts

theorem root_addAll : ∀ (g : Graph) (id : Nat) (os : List Outline),
    (g.addAll id os).root = g.root
  | _, _, [] => rfl
  | g, id, o :: os => by
    rw [addAll, root_addAll _ id os, root_addEdge, root_add g o]

end

/-! ## Trees -/

/-- The numbers of outlines that stand one after another go up by the nodes of those before. -/
theorem start_of_split {β : Type} {added before after : List (Nat × β)} {p : Nat × β}
    {outline : β → Outline} {id : Nat}
    (hids : added.map Prod.fst = starts id (added.map fun p => outline p.2))
    (hsplit : added = before ++ p :: after) :
    p.1 = id + sizeAll (before.map fun p => outline p.2) := by
  subst hsplit
  induction before generalizing id with
  | nil => exact (List.cons.inj hids).1
  | cons q before ih =>
    rw [List.map_cons, sizeAll, ← Nat.add_assoc]
    exact ih (List.cons.inj hids).2

theorem stands_of_mem {β : Type} {added : List (Nat × β)} {outline : β → Outline} {id : Nat}
    (hids : added.map Prod.fst = starts id (added.map fun p => outline p.2))
    (h : StandsAll g id (added.map fun p => outline p.2)) :
    ∀ p ∈ added, Stands g p.1 (outline p.2) := by
  induction added generalizing id with
  | nil => exact nofun
  | cons p added ih =>
    rw [List.map_cons, List.map_cons, starts] at hids
    obtain ⟨rfl, hids⟩ := List.cons.inj hids
    rw [List.forall_mem_cons]
    exact ⟨h.1, ih hids h.2⟩

end Graph

section
variable {α : Type} [Numeral α]

theorem Outline.sizeAll_eq_sum (os : List Outline) : sizeAll os = (os.map size).sum := by
  induction os with
  | nil => rfl
  | cons o os ih => rw [sizeAll, ih, List.map_cons, List.sum_cons]

theorem Outline.labelsAll_eq_flatMap (os : List Outline) : labelsAll os = os.flatMap labels := by
  induction os with
  | nil => rfl
  | cons o os ih => rw [labelsAll, ih, List.flatMap_cons]

/-- The outlines of trees have as many nodes as the trees. -/
theorem Outline.sizeAll_outlines (added : List (Nat × Expr α)) :
    sizeAll (added.map fun p => p.2.outline) = (added.map fun p => p.2.subtrees.length).sum := by
  rw [sizeAll_eq_sum, List.map_map]
  exact congrArg List.sum (List.map_congr_left fun p _ => p.2.size_outline)

namespace Graph

/-- The graphs that arise as trees are added and their top nodes are chosen as the root. The trees
come with the numbers that were given to them, and the one that was chosen last is kept. -/
inductive Built : List (Nat × Expr α) → Option (Nat × Expr α) → Graph → Prop
  | empty : Built [] none Graph.empty
  | add {added chosen g} (e : Expr α) : Built added chosen g →
      Built (added ++ [((g.add e.outline).2, e)]) chosen (g.add e.outline).1
  | root {added chosen g p} : Built added chosen g → p ∈ added →
      Built added (some p) (g.withRoot p.1)

/-- The outlines stand in the graph one after another, and nothing else does. -/
structure Holds (g : Graph) (os : List Outline) : Prop where
  wellFormed : WellFormed g
  last : g.last = Outline.sizeAll os
  labels : g.nodes.map Prod.snd = Outline.labelsAll os
  stands : StandsAll g 1 os

theorem Holds.add {g : Graph} {os : List Outline} (h : Holds g os) (o : Outline) :
    Holds (g.add o).1 (os ++ [o]) := by
  obtain ⟨hgrows, hkept⟩ := grows_add h.wellFormed o
  refine ⟨hgrows.wellFormed, ?_, ?_, standsAll_append.mpr ⟨?_, ?_⟩⟩
  · rw [hgrows.last, h.last, Outline.sizeAll_append]
  · rw [hgrows.labels, h.labels, Outline.labelsAll_append]
  · refine h.stands.of_kept fun x _ hlt => ?_
    have hle : x ≤ g.last := by
      rw [h.last]
      omega
    exact ⟨hgrows.label x hle, hkept x hle⟩
  · have hstands := hgrows.stands.1
    rwa [h.last, Nat.add_comm] at hstands

theorem Holds.withRoot {g : Graph} {os : List Outline} (h : Holds g os) (id : Nat) :
    Holds (g.withRoot id) os where
  wellFormed := ⟨h.wellFormed.ids, h.wellFormed.edges⟩
  last := h.last
  labels := h.labels
  stands := h.stands.of_kept fun _ _ _ => ⟨rfl, rfl⟩

variable {added : List (Nat × Expr α)} {chosen : Option (Nat × Expr α)} {g : Graph}

theorem Built.holds (h : Built added chosen g) :
    Holds g (added.map fun p => p.2.outline) ∧
      added.map Prod.fst = Outline.starts 1 (added.map fun p => p.2.outline) := by
  induction h with
  | empty => exact ⟨⟨wellFormed_empty, rfl, rfl, trivial⟩, rfl⟩
  | @add added chosen g e _ ih =>
    obtain ⟨hholds, hids⟩ := ih
    rw [List.map_append, List.map_append, Outline.starts_append, hids]
    refine ⟨hholds.add e.outline, ?_⟩
    simp [Outline.starts, id_add, hholds.last, Nat.add_comm]
  | root _ _ ih => exact ⟨ih.1.withRoot _, ih.2⟩

/-- The root is the top node of the tree that was chosen. -/
theorem Built.root_eq (h : Built added chosen g) : g.root = chosen.map Prod.fst := by
  induction h with
  | empty => rfl
  | add e _ ih => rw [root_add, ih]
  | root => rfl

theorem Built.mem_of_chosen (h : Built added chosen g) : ∀ p ∈ chosen, p ∈ added := by
  induction h with
  | empty => exact nofun
  | add e _ ih => exact fun p hp => List.mem_append_left _ (ih p hp)
  | root _ hmem _ =>
    intro p hp
    cases hp
    exact hmem

/-- The graph has the height and the listing of the tree that was chosen. -/
theorem Built.shows {s : Searches} (hs : s.Lawful) {p : Nat × Expr α}
    (h : Built added (some p) g) :
    g.depthBy s = p.2.height ∧ ∀ indent, g.linesBy s indent = p.2.listing indent 0 := by
  obtain ⟨hholds, htops⟩ := h.holds
  have hclosed := hholds.wellFormed.closed
  have hroot : g.root = some p.1 := h.root_eq
  have hstands : Stands g p.1 p.2.outline :=
    stands_of_mem htops hholds.stands p (h.mem_of_chosen p rfl)
  refine ⟨?_, fun indent => ?_⟩
  · rw [hstands.depthBy hs hclosed hroot, Expr.height_outline]
  · rw [hstands.linesBy hs hclosed hroot, ← Expr.listing_eq_placed]

/-- The graph of a tree alone has its listing. -/
theorem lines_ofOutline (e : Expr α) (indent : Nat) :
    (ofOutline e.outline).lines indent = e.listing indent 0 := by
  let top : Nat × Expr α := ((Graph.empty.add e.outline).2, e)
  have hbuilt : Built [top] (some top) (ofOutline e.outline) :=
    .root (.add e .empty) List.mem_cons_self
  exact (hbuilt.shows standard_lawful).2 indent

theorem nodeName_injective : Function.Injective nodeName := by
  intro i j h
  have htext : toString i = toString j := (String.append_right_inj _).mp h
  have hdigits := congrArg (fun s : String => Nat.ofDigitChars 10 s.toList 0) htext
  simpa [Nat.toList_repr, Nat.ofDigitChars_toDigits] using hdigits

/-- A graph that is built by adding trees shows each of them as it is. The nodes have the names from
`n1` on, in the order of their trees and in a tree in preorder, and none is used twice. There are as
many as the trees have nodes. The graph has the height and the listing of the tree that was chosen
last, whatever was added before it and behind it, and before and after it was chosen. -/
theorem Built.faithful {s : Searches} (hs : s.Lawful) (h : Built added chosen g) :
    g.ids.map nodeName = (List.range' 1 g.size).map (fun k => "n" ++ toString k) ∧
      (g.ids.map nodeName).Nodup ∧
      g.nodes.map Prod.snd = added.flatMap (fun p => p.2.subtrees.map Expr.heading) ∧
      (∀ before p after, added = before ++ p :: after →
        p.1 = 1 + (before.map fun q => q.2.subtrees.length).sum) ∧
      g.size = (added.map fun p => p.2.subtrees.length).sum ∧
      ∀ p, chosen = some p →
        g.depthBy s = p.2.height ∧ ∀ indent, g.linesBy s indent = p.2.listing indent 0 := by
  obtain ⟨hholds, htops⟩ := h.holds
  have hwf := hholds.wellFormed
  refine ⟨?_, ?_, ?_, fun before p after hsplit => ?_, ?_, fun p hchosen => ?_⟩
  · rw [hwf.ids, hwf.size_eq]
    rfl
  · rw [hwf.ids]
    exact List.Nodup.map nodeName_injective List.nodup_range'
  · simp only [hholds.labels, Outline.labelsAll_eq_flatMap, List.flatMap_map, Expr.labels_outline]
  · rw [start_of_split htops hsplit, Outline.sizeAll_outlines]
  · rw [hwf.size_eq, hholds.last, Outline.sizeAll_outlines]
  · subst hchosen
    exact h.shows hs

/-- The graph shows `x+1` at its root, also when `-x` has been added behind it. -/
theorem Built.faithful_sum :
    let x : Expr Float := .monomial ⟨1.0, "x", 1.0⟩
    let sum : Expr Float := .binary .add x (.number 1.0)
    let g := (((Graph.empty.add sum.outline).1.withRoot 1).add (Expr.negate x).outline).1
    g.size = 5 ∧ g.depth = 1 ∧
      g.lines 2 = ["BinOp: Add", "  Monomial: 1 x^1", "  Number: 1"] := by
  intro x sum g
  have hsum : Built [(1, sum)] (some (1, sum)) ((Graph.empty.add sum.outline).1.withRoot 1) :=
    .root (.add sum .empty) List.mem_cons_self
  have hboth : Built [(1, sum), (4, .negate x)] (some (1, sum)) g := .add (.negate x) hsum
  obtain ⟨-, -, -, -, hsize, hshown⟩ := hboth.faithful standard_lawful
  obtain ⟨hdepth, hlines⟩ := hshown (1, sum) rfl
  have hlisting : sum.listing 2 0 = ["BinOp: Add", "  Monomial: 1 x^1", "  Number: 1"] := by
    decide +kernel
  exact ⟨hsize, hdepth, (hlines 2).trans hlisting⟩

end Graph

/-- The text of a tree by way of a graph is its listing. -/
theorem Expr.dumpWith_eq (indent : Nat) (e : Expr α) :
    e.dumpWith indent = "\n".intercalate (e.listing indent 0) :=
  congrArg "\n".intercalate (Graph.lines_ofOutline e indent)

end
end SymbolicAlgebra
