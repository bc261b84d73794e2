import Mathlib.Data.List.Nodup
import SymbolicAlgebra.Proofs.Graph.Search

/-!
# An outline in a graph

An outline takes as many numbers in a row as it has nodes, a node before its parts
and one part after the other. `Stands g id o` says that the graph has the labels
and the edges of the outline there. Then a search from its top node does what the
recursion over the outline does, whatever else is in the graph.

Results:
* `Stands.distance_iff`: the distance of a node from the top is its level.
* `Stands.depthFirst`: a depth first search visits the nodes in the order of their numbers.
* `Stands.depthBy`: the depth of the graph is the height of the outline.
* `Stands.linesBy`: the listing of the graph has a line for each place of the outline.
-/
namespace SymbolicAlgebra

namespace Outline

mutual

/-- The count of nodes. -/
def size : Outline → Nat
  | .node _ parts => 1 + sizeAll parts

def sizeAll : List Outline → Nat
  | [] => 0
  | o :: os => size o + sizeAll os

end

mutual

/-- The greatest level of a node, the root having level zero. -/
def height : Outline → Nat
  | .node _ parts => heightAll parts

/-- The greatest level of a node below a common parent, or zero. -/
def heightAll : List Outline → Nat
  | [] => 0
  | o :: os => max (height o + 1) (heightAll os)

end

mutual

/-- The labels of the nodes, in preorder. -/
def labels : Outline → List String
  | .node label parts => label :: labelsAll parts

def labelsAll : List Outline → List String
  | [] => []
  | o :: os => labels o ++ labelsAll os

end

mutual

/-- Each node has a label. -/
theorem length_labels : ∀ o : Outline, o.labels.length = o.size
  | .node label parts => by
    rw [labels, List.length_cons, length_labelsAll parts, size, Nat.add_comm]

theorem length_labelsAll : ∀ os : List Outline, (labelsAll os).length = sizeAll os
  | [] => rfl
  | o :: os => by
    rw [labelsAll, List.length_append, length_labels o, length_labelsAll os, sizeAll]

end

/-- Where a node of an outline stands. -/
structure Place where
  id : Nat
  level : Nat
  label : String

/-- The line of a place in a listing. -/
def Place.line (indent : Nat) (p : Place) : String := Outline.line indent p.level p.label

/-- The numbers of the top nodes of outlines that stand one after another from `id` on. -/
def starts (id : Nat) : List Outline → List Nat
  | [] => []
  | o :: os => id :: starts (id + o.size) os

mutual

/-- The places of the nodes, in preorder, if the top node stands at `id` and has the given level. -/
def placed (id level : Nat) : Outline → List Place
  | .node label parts => ⟨id, level, label⟩ :: placedAll (id + 1) (level + 1) parts

def placedAll (id level : Nat) : List Outline → List Place
  | [] => []
  | o :: os => placed id level o ++ placedAll (id + o.size) level os

end

mutual

theorem ids_placed (id level : Nat) :
    ∀ o : Outline, (o.placed id level).map Place.id = List.range' id o.size
  | .node label parts => by
    rw [placed, List.map_cons, ids_placedAll (id + 1) (level + 1) parts, size, Nat.add_comm 1,
      List.range'_succ]

theorem ids_placedAll (id level : Nat) :
    ∀ os : List Outline, (placedAll id level os).map Place.id = List.range' id (sizeAll os)
  | [] => rfl
  | o :: os => by
    rw [placedAll, List.map_append, ids_placed id level o, ids_placedAll (id + o.size) level os,
      List.range'_append_1, sizeAll]

end

mutual

theorem forall_placed_level_le (id level n : Nat) :
    ∀ o : Outline, (∀ p ∈ o.placed id level, p.level ≤ n) ↔ level + o.height ≤ n
  | .node label parts => by
    have hparts := forall_placedAll_level_le (id + 1) level n parts
    rw [placed, List.forall_mem_cons, height]
    constructor
    · rintro ⟨hlevel, hall⟩
      exact (hparts hlevel).mp hall
    · intro hle
      have hlevel : level ≤ n := by omega
      exact ⟨hlevel, (hparts hlevel).mpr hle⟩

theorem forall_placedAll_level_le (id level n : Nat) :
    ∀ os : List Outline, level ≤ n →
      ((∀ p ∈ placedAll id (level + 1) os, p.level ≤ n) ↔ level + heightAll os ≤ n)
  | [], hlevel => by simpa [placedAll, heightAll] using hlevel
  | o :: os, hlevel => by
    rw [placedAll, List.forall_mem_append, forall_placed_level_le id (level + 1) n o,
      forall_placedAll_level_le (id + o.size) level n os hlevel, heightAll]
    omega

end

/-- Some node has the greatest level. -/
theorem exists_placed_height (id level : Nat) (o : Outline) :
    ∃ p ∈ o.placed id level, p.level = level + o.height := by
  by_contra! hnone
  have hle := (forall_placed_level_le id level (level + o.height) o).mpr (Nat.le_refl _)
  have hlt : ∀ p ∈ o.placed id level, p.level < level + o.height :=
    fun p hp => Nat.lt_of_le_of_ne (hle p hp) (hnone p hp)
  have hless := (forall_placed_level_le id level (level + o.height - 1) o).mp
    fun p hp => Nat.le_sub_one_of_lt (hlt p hp)
  obtain ⟨label, parts⟩ := o
  have htop := hlt ⟨id, level, label⟩ List.mem_cons_self
  omega

theorem mem_placedAll_of_mem_starts {id x : Nat} (level : Nat) {os : List Outline}
    (h : x ∈ starts id os) : ∃ p ∈ placedAll id level os, p.id = x ∧ p.level = level := by
  induction os generalizing id with
  | nil => cases h
  | cons o os ih =>
    obtain ⟨label, parts⟩ := o
    rcases List.mem_cons.mp h with rfl | h
    · exact ⟨⟨x, level, label⟩, by simp [placedAll, placed], rfl, rfl⟩
    · obtain ⟨p, hp, hid⟩ := ih h
      exact ⟨p, List.mem_append_right _ hp, hid⟩

/-- A number has one place. -/
theorem eq_of_mem_placed {id level : Nat} {o : Outline} {p q : Place} (hp : p ∈ o.placed id level)
    (hq : q ∈ o.placed id level) (h : p.id = q.id) : p = q := by
  have hnodup : ((o.placed id level).map Place.id).Nodup := by
    rw [ids_placed]
    exact List.nodup_range'
  exact List.inj_on_of_nodup_map hnodup hp hq h

end Outline

namespace Graph

open Outline (placed placedAll starts Place)

variable {g g' : Graph} {root id x k n level : Nat} {o : Outline} {os : List Outline}

/-! ## Labels and edges where they belong -/

mutual

/-- The outline stands in the graph, its top node having the number `id`. -/
def Stands (g : Graph) (id : Nat) : Outline → Prop
  | .node label parts =>
    g.label? id = some label ∧ g.parts id = starts (id + 1) parts ∧ StandsAll g (id + 1) parts

/-- The outlines stand one after another from `id` on. -/
def StandsAll (g : Graph) (id : Nat) : List Outline → Prop
  | [] => True
  | o :: os => Stands g id o ∧ StandsAll g (id + o.size) os

end

mutual

/-- Only the nodes of an outline matter to where it stands. -/
theorem Stands.of_kept : ∀ {id : Nat} {o : Outline}, Stands g id o →
    (∀ x, id ≤ x → x < id + o.size → g'.label? x = g.label? x ∧ g'.parts x = g.parts x) →
      Stands g' id o
  | id, .node label parts, ⟨hlabel, hparts, hall⟩, h => by
    rw [Outline.size] at h
    obtain ⟨hlabel', hparts'⟩ := h id (by omega) (by omega)
    exact ⟨hlabel'.trans hlabel, hparts'.trans hparts,
      StandsAll.of_kept hall fun x hle hlt => h x (by omega) (by omega)⟩

theorem StandsAll.of_kept : ∀ {id : Nat} {os : List Outline}, StandsAll g id os →
    (∀ x, id ≤ x → x < id + Outline.sizeAll os →
      g'.label? x = g.label? x ∧ g'.parts x = g.parts x) → StandsAll g' id os
  | _, [], _, _ => trivial
  | id, o :: os, ⟨ho, hos⟩, h => by
    rw [Outline.sizeAll] at h
    exact ⟨Stands.of_kept ho fun x hle hlt => h x hle (by omega),
      StandsAll.of_kept hos fun x hle hlt => h x (by omega) (by omega)⟩

end

mutual

theorem Stands.label : ∀ {id level : Nat} {o : Outline}, Stands g id o →
    ∀ p ∈ placed id level o, g.label? p.id = some p.label
  | id, level, .node label parts, ⟨hlabel, _, hall⟩, p, hp => by
    rcases List.mem_cons.mp hp with rfl | hp
    · exact hlabel
    · exact StandsAll.label hall p hp

theorem StandsAll.label : ∀ {id level : Nat} {os : List Outline}, StandsAll g id os →
    ∀ p ∈ placedAll id level os, g.label? p.id = some p.label
  | _, _, [], _, _, hp => nomatch hp
  | id, level, o :: os, ⟨ho, hos⟩, p, hp => by
    rcases List.mem_append.mp hp with hp | hp
    · exact Stands.label ho p hp
    · exact StandsAll.label hos p hp

end

/-! ## Distances -/

mutual

/-- From a node edges lead to places one level below. -/
theorem Stands.part : ∀ {id level : Nat} {o : Outline}, Stands g id o →
    ∀ p ∈ placed id level o, ∀ x ∈ g.parts p.id,
      ∃ q ∈ placed id level o, q.id = x ∧ q.level = p.level + 1
  | id, level, .node label parts, ⟨_, hparts, hall⟩, p, hp, x, hx => by
    rcases List.mem_cons.mp hp with rfl | hp
    · rw [hparts] at hx
      obtain ⟨q, hq, hid⟩ := Outline.mem_placedAll_of_mem_starts (level + 1) hx
      exact ⟨q, List.mem_cons_of_mem _ hq, hid⟩
    · obtain ⟨q, hq, hid⟩ := StandsAll.part hall p hp x hx
      exact ⟨q, List.mem_cons_of_mem _ hq, hid⟩

theorem StandsAll.part : ∀ {id level : Nat} {os : List Outline}, StandsAll g id os →
    ∀ p ∈ placedAll id level os, ∀ x ∈ g.parts p.id,
      ∃ q ∈ placedAll id level os, q.id = x ∧ q.level = p.level + 1
  | _, _, [], _, _, hp, _, _ => nomatch hp
  | id, level, o :: os, ⟨ho, hos⟩, p, hp, x, hx => by
    rcases List.mem_append.mp hp with hp | hp
    · obtain ⟨q, hq, hid⟩ := Stands.part ho p hp x hx
      exact ⟨q, List.mem_append_left _ hq, hid⟩
    · obtain ⟨q, hq, hid⟩ := StandsAll.part hos p hp x hx
      exact ⟨q, List.mem_append_right _ hq, hid⟩

end

mutual

/-- To every place a path leads that has as many edges as the place has levels. -/
theorem Stands.path : ∀ {id level : Nat} {o : Outline}, Stands g id o → Path g root id level →
    ∀ p ∈ placed id level o, Path g root p.id p.level
  | id, level, .node label parts, ⟨_, hparts, hall⟩, htop, p, hp => by
    rcases List.mem_cons.mp hp with rfl | hp
    · exact htop
    · exact StandsAll.path hall (fun x hx => htop.step (hparts ▸ hx)) p hp

theorem StandsAll.path : ∀ {id level : Nat} {os : List Outline}, StandsAll g id os →
    (∀ x ∈ starts id os, Path g root x level) →
      ∀ p ∈ placedAll id level os, Path g root p.id p.level
  | _, _, [], _, _, _, hp => nomatch hp
  | id, level, o :: os, ⟨ho, hos⟩, htops, p, hp => by
    rcases List.mem_append.mp hp with hp | hp
    · exact Stands.path ho (htops id List.mem_cons_self) p hp
    · exact StandsAll.path hos (fun x hx => htops x (List.mem_cons_of_mem _ hx)) p hp

end

/-- Paths lead to places only. -/
theorem Stands.exists_place (h : Stands g id o) (hpath : Path g id x k) :
    ∃ p ∈ placed id 0 o, p.id = x ∧ p.level = k := by
  induction hpath with
  | refl =>
    obtain ⟨label, parts⟩ := o
    exact ⟨⟨id, 0, label⟩, List.mem_cons_self, rfl, rfl⟩
  | step _ hpart ih =>
    obtain ⟨p, hp, rfl, rfl⟩ := ih
    exact h.part p hp _ hpart

/-- The distance of a node from the top is its level. -/
theorem Stands.distance_iff (h : Stands g id o) :
    Distance g id x k ↔ ∃ p ∈ placed id 0 o, p.id = x ∧ p.level = k := by
  constructor
  · rintro ⟨hpath, -⟩
    exact h.exists_place hpath
  · rintro ⟨p, hp, rfl, rfl⟩
    refine ⟨h.path .refl p hp, fun n hn => ?_⟩
    obtain ⟨q, hq, hid, rfl⟩ := h.exists_place hn
    exact Nat.le_of_eq (by rw [Outline.eq_of_mem_placed hq hp hid])

theorem mem_ids_of_label {label : String} (h : g.label? id = some label) : id ∈ g.ids := by
  obtain ⟨before, after, hnodes, -⟩ := List.lookup_eq_some_iff.mp h
  rw [ids, hnodes]
  simp

theorem Stands.mem_ids (h : Stands g id o) : id ∈ g.ids := by
  cases o
  exact mem_ids_of_label h.1

/-- The depth of the graph is the height of the outline at its root. -/
theorem Stands.depthBy {s : Searches} (h : Stands g id o) (hs : s.Lawful) (hg : Closed g)
    (hroot : g.root = some id) : g.depthBy s = o.height := by
  obtain ⟨p, hp, hlevel⟩ := Outline.exists_placed_height id 0 o
  rw [Nat.zero_add] at hlevel
  refine depthBy_eq hs hg h.mem_ids hroot (h.distance_iff.mpr ⟨p, hp, rfl, hlevel⟩) fun x k hx => ?_
  obtain ⟨q, hq, -, rfl⟩ := h.distance_iff.mp hx
  have hle := (Outline.forall_placed_level_le id 0 o.height o).mpr (by omega)
  exact hle q hq

/-! ## The order of a listing -/

theorem DepthFirst.inv_visit {seen todo order : List Nat} (h : DepthFirst g seen (id :: todo) order)
    (hnew : id ∉ seen) :
    ∃ rest, order = id :: rest ∧ DepthFirst g (id :: seen) (g.parts id ++ todo) rest := by
  cases h with
  | visit _ h => exact ⟨_, rfl, h⟩
  | skip hseen => exact absurd hseen hnew

mutual

/-- A search visits the nodes of an outline in the order of their numbers, and no others on the
way. -/
theorem Stands.depthFirst : ∀ {id : Nat} {o : Outline} {seen todo order : List Nat},
    Stands g id o → DepthFirst g seen (id :: todo) order →
      (∀ x ∈ seen, x < id ∨ id + o.size ≤ x) →
        ∃ seen' rest, (∀ x ∈ seen', x ∈ seen ∨ id ≤ x ∧ x < id + o.size) ∧
          DepthFirst g seen' todo rest ∧ order = List.range' id o.size ++ rest
  | id, .node label parts, seen, _, _, ⟨_, hparts, hall⟩, hvisits, hseen => by
    rw [Outline.size] at hseen ⊢
    have hnew : id ∉ seen := fun hmem => by
      have hbound := hseen id hmem
      omega
    obtain ⟨order, rfl, hbelow⟩ := hvisits.inv_visit hnew
    rw [hparts] at hbelow
    obtain ⟨seen', rest, hseen', hrest, rfl⟩ := StandsAll.depthFirst hall hbelow fun x hx => by
      rcases List.mem_cons.mp hx with rfl | hx
      · omega
      · have hbound := hseen x hx
        omega
    refine ⟨seen', rest, fun x hx => ?_, hrest, ?_⟩
    · rcases hseen' x hx with hx | hx
      · rcases List.mem_cons.mp hx with rfl | hx
        · exact .inr (by omega)
        · exact .inl hx
      · exact .inr (by omega)
    · rw [Nat.add_comm 1, List.range'_succ, List.cons_append]

theorem StandsAll.depthFirst : ∀ {id : Nat} {os : List Outline} {seen todo order : List Nat},
    StandsAll g id os → DepthFirst g seen (starts id os ++ todo) order →
      (∀ x ∈ seen, x < id ∨ id + Outline.sizeAll os ≤ x) →
        ∃ seen' rest, (∀ x ∈ seen', x ∈ seen ∨ id ≤ x ∧ x < id + Outline.sizeAll os) ∧
          DepthFirst g seen' todo rest ∧ order = List.range' id (Outline.sizeAll os) ++ rest
  | _, [], seen, _, order, _, hvisits, _ =>
    ⟨seen, order, fun _ hx => .inl hx, hvisits, rfl⟩
  | id, o :: os, seen, _, _, ⟨ho, hos⟩, hvisits, hseen => by
    rw [Outline.sizeAll] at hseen ⊢
    obtain ⟨seen₁, rest₁, hseen₁, hvisits₁, rfl⟩ := Stands.depthFirst ho hvisits fun x hx => by
      have hbound := hseen x hx
      omega
    obtain ⟨seen₂, rest₂, hseen₂, hvisits₂, rfl⟩ :=
      StandsAll.depthFirst hos hvisits₁ fun x hx => by
        rcases hseen₁ x hx with hx | hx
        · have hbound := hseen x hx
          omega
        · omega
    refine ⟨seen₂, rest₂, fun x hx => ?_, hvisits₂, ?_⟩
    · rcases hseen₂ x hx with hx | hx
      · rcases hseen₁ x hx with hx | hx
        · exact .inl hx
        · exact .inr (by omega)
      · exact .inr (by omega)
    · rw [← List.append_assoc, List.range'_append_1]

end

/-- The listing of the graph has a line for each place of the outline at its root. -/
theorem Stands.linesBy {s : Searches} (h : Stands g id o) (hs : s.Lawful) (hg : Closed g)
    (hroot : g.root = some id) (indent : Nat) :
    g.linesBy s indent = (placed id 0 o).map (Place.line indent) := by
  obtain ⟨_, rest, -, hrest, horder⟩ :=
    h.depthFirst (hs.preorder hg h.mem_ids) (by exact nofun)
  have hids : s.preorder g id = (placed id 0 o).map Place.id := by
    cases hrest
    rw [horder, Outline.ids_placed, List.append_nil]
  simp only [Graph.linesBy, hroot, hids, List.map_map]
  refine List.map_congr_left fun p hp => ?_
  have hlevel := lookup_distances hs hg h.mem_ids (h.distance_iff.mpr ⟨p, hp, rfl, rfl⟩)
  simp only [Function.comp_apply, hlevel, h.label p hp, Option.getD_some, Place.line]

end Graph
end SymbolicAlgebra
