import SymbolicAlgebra.Graph

/-!
# Searches in a graph

A search layer by layer has met, before each layer, the nodes to which a path of
fewer edges leads, and a layer holds the nodes to which no path of fewer edges
leads. Where a layer is empty no path is longer, for the paths to a node farther
away go through nodes at every distance before it.

Results:
* `mem_levels_iff`: a search layer by layer finds each node that a path leads to, with the least
  length of a path.
* `depthFirst_preorder`: a depth first search visits a node before its parts and each node once.
* `standard_lawful`: so the two do what searches are relied on to do.
* `lookup_distances`, `depthBy_eq`: one distance is found for a node, and the depth of a graph is
  the greatest.
-/
namespace SymbolicAlgebra.Graph

variable {g : Graph} {root id part : Nat} {k n level : Nat} {seen layer todo order : List Nat}

/-! ## What searches are relied on to do -/

/-- A path of `k` edges leads from `root` to the node. -/
inductive Path (g : Graph) (root : Nat) : (id k : Nat) → Prop
  | refl : Path g root root 0
  | step {id part k : Nat} : Path g root id k → part ∈ g.parts id → Path g root part (k + 1)

/-- The least length of a path from `root` to the node. -/
structure Distance (g : Graph) (root id k : Nat) : Prop where
  path : Path g root id k
  least : ∀ n, Path g root id n → k ≤ n

/-- The order in which nodes are visited depth first: a node that was not seen is visited, its parts
come next, and what was left to do comes behind them. -/
inductive DepthFirst (g : Graph) : (seen todo order : List Nat) → Prop
  | done {seen : List Nat} : DepthFirst g seen [] []
  | visit {id : Nat} {seen todo order : List Nat} : id ∉ seen →
      DepthFirst g (id :: seen) (g.parts id ++ todo) order →
      DepthFirst g seen (id :: todo) (id :: order)
  | skip {id : Nat} {seen todo order : List Nat} : id ∈ seen → DepthFirst g seen todo order →
      DepthFirst g seen (id :: todo) order

/-- Every edge leads to a node. -/
def Closed (g : Graph) : Prop := ∀ id, ∀ part ∈ g.parts id, part ∈ g.ids

/-- The searches find the depth first order and the shortest paths from each node of a graph. -/
structure Searches.Lawful (s : Searches) : Prop where
  preorder : ∀ {g : Graph} {root : Nat}, Closed g → root ∈ g.ids →
    DepthFirst g [] [root] (s.preorder g root)
  distances : ∀ {g : Graph} {root id k : Nat}, Closed g → root ∈ g.ids →
    ((id, k) ∈ s.distances g root ↔ Distance g root id k)

/-! ## Distances -/

theorem Distance.unique (h : Distance g root id k) (h' : Distance g root id n) : k = n :=
  Nat.le_antisymm (h.least n h'.path) (h'.least k h.path)

/-- A node is a part of one that is nearer by one edge. -/
theorem Distance.exists_nearer (h : Distance g root part (k + 1)) :
    ∃ id, Distance g root id k ∧ part ∈ g.parts id := by
  obtain ⟨hpath, hleast⟩ := h
  cases hpath with
  | @step id _ _ hid hpart =>
    refine ⟨id, ⟨hid, fun n hn => ?_⟩, hpart⟩
    have hle := hleast (n + 1) (hn.step hpart)
    omega

/-- On the way to a node there are nodes at all distances before it. -/
theorem Distance.exists_of_le (h : Distance g root id k) (hle : n ≤ k) :
    ∃ id, Distance g root id n := by
  induction k generalizing id with
  | zero =>
    obtain rfl : n = 0 := by omega
    exact ⟨id, h⟩
  | succ k ih =>
    rcases Nat.lt_or_ge k n with hlt | hge
    · obtain rfl : n = k + 1 := by omega
      exact ⟨id, h⟩
    · obtain ⟨nearer, hnearer, -⟩ := h.exists_nearer
      exact ih hnearer hge

/-- What a search has met when it is at `level`: every node up to that level, and in the last layer
those of the level. -/
structure Reached (g : Graph) (root : Nat) (seen : List Nat) (level : Nat) (layer : List Nat) :
    Prop where
  seen : ∀ id, id ∈ seen ↔ ∃ k ≤ level, Path g root id k
  layer : ∀ id, id ∈ layer ↔ Distance g root id level

theorem reached_root (g : Graph) (root : Nat) : Reached g root [root] 0 [root] where
  seen id := by
    rw [List.mem_singleton]
    constructor
    · rintro rfl
      exact ⟨0, Nat.le_refl 0, .refl⟩
    · rintro ⟨k, hk, hpath⟩
      obtain rfl : k = 0 := by omega
      cases hpath
      rfl
  layer id := by
    rw [List.mem_singleton]
    constructor
    · rintro rfl
      exact ⟨.refl, fun n _ => Nat.zero_le n⟩
    · rintro ⟨hpath, -⟩
      cases hpath
      rfl

/-- The next layer holds the nodes that are farther by one edge. -/
theorem Reached.mem_nextLayer (hg : Closed g) (h : Reached g root seen level layer) :
    part ∈ g.nextLayer seen layer ↔ Distance g root part (level + 1) := by
  rw [Graph.mem_nextLayer]
  constructor
  · rintro ⟨⟨id, hid, hpart⟩, -, hnew⟩
    refine ⟨((h.layer id).mp hid).path.step hpart, fun n hn => ?_⟩
    rcases Nat.lt_or_ge level n with hlt | hle
    · exact hlt
    · exact absurd ((h.seen part).mpr ⟨n, hle, hn⟩) hnew
  · intro hdistance
    obtain ⟨id, hid, hpart⟩ := hdistance.exists_nearer
    refine ⟨⟨id, (h.layer id).mpr hid, hpart⟩, hg id part hpart, fun hseen => ?_⟩
    obtain ⟨k, hk, hpath⟩ := (h.seen part).mp hseen
    have hle := hdistance.least k hpath
    omega

theorem Reached.next (hg : Closed g) (h : Reached g root seen level layer) :
    Reached g root (seen ++ g.nextLayer seen layer) (level + 1) (g.nextLayer seen layer) where
  seen id := by
    rw [List.mem_append, h.mem_nextLayer hg, h.seen id]
    constructor
    · rintro (⟨k, hk, hpath⟩ | hdistance)
      · exact ⟨k, by omega, hpath⟩
      · exact ⟨level + 1, Nat.le_refl _, hdistance.path⟩
    · rintro ⟨k, hk, hpath⟩
      by_cases hnear : ∃ n ≤ level, Path g root id n
      · exact .inl hnear
      · have hfar : ∀ n, Path g root id n → level + 1 ≤ n := by
          intro n hn
          rcases Nat.lt_or_ge level n with hlt | hle
          · exact hlt
          · exact absurd ⟨n, hle, hn⟩ hnear
        obtain rfl : k = level + 1 := Nat.le_antisymm hk (hfar k hpath)
        exact .inr ⟨hpath, hfar⟩
  layer id := h.mem_nextLayer hg

theorem Reached.mem_map (h : Reached g root seen level layer) :
    (id, k) ∈ layer.map (·, level) ↔ k = level ∧ Distance g root id level := by
  rw [← h.layer id]
  constructor
  · intro hmem
    obtain ⟨_, hid, heq⟩ := List.mem_map.mp hmem
    cases heq
    exact ⟨rfl, hid⟩
  · rintro ⟨rfl, hid⟩
    exact List.mem_map.mpr ⟨id, hid, rfl⟩

/-- A search finds the nodes from its last layer on, with their distances. -/
theorem mem_spread (hg : Closed g) (h : Reached g root seen level layer) :
    (id, k) ∈ g.spread seen level layer ↔ level ≤ k ∧ Distance g root id k := by
  fun_induction Graph.spread g seen level layer with
  | case1 seen level layer next ih =>
    rw [List.mem_append, h.mem_map]
    constructor
    · rintro (⟨rfl, hid⟩ | hlater)
      · exact ⟨Nat.le_refl _, hid⟩
      · split at hlater
        · cases hlater
        · next hmore =>
          obtain ⟨hk, hid⟩ := (ih hmore (h.next hg)).mp hlater
          exact ⟨by omega, hid⟩
    · rintro ⟨hk, hid⟩
      rcases Nat.eq_or_lt_of_le hk with rfl | hlt
      · exact .inl ⟨rfl, hid⟩
      · right
        obtain ⟨far, hfar⟩ := hid.exists_of_le hlt
        have hmore : next ≠ [] := List.ne_nil_of_mem ((h.mem_nextLayer hg).mpr hfar)
        rw [if_neg hmore]
        exact (ih hmore (h.next hg)).mpr ⟨hlt, hid⟩

/-- A search finds the nodes that paths lead to, each with the least length of a path. -/
theorem mem_levels_iff (hg : Closed g) : (id, k) ∈ g.levels root ↔ Distance g root id k := by
  rw [levels, mem_spread hg (reached_root g root)]
  exact and_iff_right (Nat.zero_le k)

/-! ## The order of visits -/

/-- A search visits nodes depth first, if none but nodes are left to do. -/
theorem depthFirst_preorder (hg : Closed g) (htodo : ∀ id ∈ todo, id ∈ g.ids) :
    DepthFirst g seen todo (g.preorder seen todo) := by
  fun_induction Graph.preorder g seen todo with
  | case1 => exact .done
  | case2 seen id todo hid ih =>
    rw [List.forall_mem_cons] at htodo
    refine .visit hid.2 (ih fun x hx => ?_)
    rcases List.mem_append.mp hx with hx | hx
    · exact hg id x hx
    · exact htodo.2 x hx
  | case3 seen id todo hid ih =>
    rw [List.forall_mem_cons] at htodo
    have hseen : id ∈ seen := by
      by_cases hmem : id ∈ seen
      · exact hmem
      · exact absurd ⟨htodo.1, hmem⟩ hid
    exact .skip hseen (ih htodo.2)

theorem standard_lawful : Searches.standard.Lawful where
  preorder hg hroot := depthFirst_preorder hg (List.forall_mem_singleton.mpr hroot)
  distances hg _ := mem_levels_iff hg

/-! ## Levels and depth -/

variable {s : Searches}

/-- The level of a node is its distance. -/
theorem lookup_distances (hs : s.Lawful) (hg : Closed g) (hroot : root ∈ g.ids)
    (h : Distance g root id k) : (s.distances g root).lookup id = some k := by
  have hsome : ((s.distances g root).lookup id).isSome = true :=
    List.lookup_isSome_iff.mpr ⟨(id, k), (hs.distances hg hroot).mpr h, beq_self_eq_true id⟩
  obtain ⟨n, hn⟩ := Option.isSome_iff_exists.mp hsome
  obtain ⟨before, after, hfound, -⟩ := List.lookup_eq_some_iff.mp hn
  have hmem : (id, n) ∈ s.distances g root := by simp [hfound]
  rw [hn, h.unique ((hs.distances hg hroot).mp hmem)]

/-- The depth of a graph is the greatest distance of a node from the root. -/
theorem depthBy_eq (hs : s.Lawful) (hg : Closed g) (hmem : root ∈ g.ids)
    (hroot : g.root = some root) (h : Distance g root id n)
    (hmax : ∀ id k, Distance g root id k → k ≤ n) : g.depthBy s = n := by
  have hgreatest : ((s.distances g root).map Prod.snd).max? = some n := by
    rw [List.max?_eq_some_iff]
    refine ⟨List.mem_map.mpr ⟨(id, n), (hs.distances hg hmem).mpr h, rfl⟩, fun k hk => ?_⟩
    obtain ⟨⟨id', k⟩, hfound, rfl⟩ := List.mem_map.mp hk
    exact hmax id' k ((hs.distances hg hmem).mp hfound)
  simp only [depthBy, hroot, hgreatest, Option.getD_some]

end SymbolicAlgebra.Graph
