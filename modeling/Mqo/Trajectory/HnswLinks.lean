import Mqo.Trajectory.HnswMst

/-!
# MQO — which links the undirected forest loses

Neighbour pruning rewrites the list of one endpoint only, so the level-0 links
of an index are directed. `approximateMSTUsingHNSW_undirected` enters a link
in both directions, but only when it leads to a larger id.

* `undirectedForest_iff` — the function treats the stored links as an
  undirected graph exactly when every link to a smaller id is also stored at
  that id; otherwise the link is lost, and can leave a vertex without a tree
  of its own component.
-/

namespace Mqo

open Prog StackTraversal SpanningForest

section Links

variable {F D : Type} [Scalar F] [Scalar D] [Widen F D]

/-- The undirected graph of all level-0 links between the ids below `n`. -/
def levelZeroGraph (index : HierarchicalNSW F) (n : ℕ) : SimpleGraph (Fin n) :=
  SimpleGraph.fromRel fun v u => u.val ∈ index.linklist0 v.val

/-- Every stored link is in the adjacency list, in both directions. -/
def LosesNoLink (index : HierarchicalNSW F) (n : ℕ) (adj : Adjacency F) : Prop :=
  ∀ v < n, ∀ u ∈ index.linklist0 v, HasEdge adj v u ∧ HasEdge adj u v

/-- The function loses no link, and starts one tree for each connected component
of the undirected graph of the links. -/
def UndirectedForest (D : Type) [Scalar D] [Widen F D] (Q : PriorityQueue (PrimStep F))
    (index : HierarchicalNSW F) (n_query : ℕ) : Prop :=
  ∃ adj, ∃ r : Trajectory × D, Returns (buildAdjacency index n_query) adj ∧
    LosesNoLink index n_query adj ∧
    Returns (approximateMSTUsingHNSWUndirected Q index n_query) r ∧
    r.1.countP (fun e => e.2 = -1) = Nat.card (levelZeroGraph index n_query).ConnectedComponent

/-- A link from a larger to a smaller id is also stored at the smaller one. -/
def ReverseLinksStored (index : HierarchicalNSW F) (n : ℕ) : Prop :=
  ∀ v < n, ∀ u ∈ index.linklist0 v, u < v → v ∈ index.linklist0 u

variable {n : ℕ} {index : HierarchicalNSW F} {adj : Adjacency F}

/-- Two vertices are adjacent when the smaller one stores a link to the larger. -/
theorem hasEdge_iff
    (hadj : ∀ v u d, (u, d) ∈ adj v ↔ (v < u ∧ v < n ∧ (u, d) ∈ getNeighbors index v) ∨
      (u < v ∧ u < n ∧ (v, d) ∈ getNeighbors index u)) (v u : ℕ) :
    HasEdge adj v u ↔ (v < u ∧ v < n ∧ u ∈ index.linklist0 v) ∨
      (u < v ∧ u < n ∧ v ∈ index.linklist0 u) := by
  have hnb : ∀ a b, (∃ d, (b, d) ∈ getNeighbors index a) ↔ b ∈ index.linklist0 a := by
    intro a b
    constructor
    · rintro ⟨d, hd⟩
      exact mem_getNeighbors_fst hd
    · exact fun hb => ⟨_, List.mem_map_of_mem hb⟩
  simp only [HasEdge, hadj, exists_or, exists_and_left, hnb]

/-- No link is lost exactly when the reverse links are stored. -/
theorem losesNoLink_iff (hrange : LinksInRange index n)
    (hloop : ∀ v < n, v ∉ index.linklist0 v)
    (hadj : ∀ v u d, (u, d) ∈ adj v ↔ (v < u ∧ v < n ∧ (u, d) ∈ getNeighbors index v) ∨
      (u < v ∧ u < n ∧ (v, d) ∈ getNeighbors index u)) :
    LosesNoLink index n adj ↔ ReverseLinksStored index n := by
  constructor
  · intro h v hv u hu huv
    rcases (hasEdge_iff hadj v u).mp (h v hv u hu).1 with ⟨hlt, -⟩ | ⟨-, -, hmem⟩
    · omega
    · exact hmem
  · intro h v hv u hu
    have hun := hrange v hv u hu
    rw [hasEdge_iff hadj, hasEdge_iff hadj]
    rcases Nat.lt_trichotomy v u with hlt | heq | hlt
    · exact ⟨Or.inl ⟨hlt, hv, hu⟩, Or.inr ⟨hlt, hv, hu⟩⟩
    · exact absurd (heq ▸ hu) (hloop v hv)
    · have hrev := h v hv u hu hlt
      exact ⟨Or.inr ⟨hlt, hun, hrev⟩, Or.inl ⟨hlt, hun, hrev⟩⟩

/-- When no link is lost, the adjacency list is the graph of the links. -/
theorem hasEdge_eq_graph (hrange : LinksInRange index n)
    (hadj : ∀ v u d, (u, d) ∈ adj v ↔ (v < u ∧ v < n ∧ (u, d) ∈ getNeighbors index v) ∨
      (u < v ∧ u < n ∧ (v, d) ∈ getNeighbors index u)) (h : LosesNoLink index n adj) :
    HasEdge adj = fun a b =>
      ∃ v w : Fin n, v.val = a ∧ w.val = b ∧ (levelZeroGraph index n).Adj v w := by
  funext a b
  refine propext ⟨fun hab => ?_, ?_⟩
  · rcases (hasEdge_iff hadj a b).mp hab with ⟨hlt, ha, hmem⟩ | ⟨hlt, hb, hmem⟩
    · refine ⟨⟨a, ha⟩, ⟨b, hrange a ha b hmem⟩, rfl, rfl, ?_⟩
      exact (SimpleGraph.fromRel_adj _ _ _).mpr
        ⟨fun he => absurd (Fin.mk.inj he) (by omega), Or.inl hmem⟩
    · refine ⟨⟨a, hrange b hb a hmem⟩, ⟨b, hb⟩, rfl, rfl, ?_⟩
      exact (SimpleGraph.fromRel_adj _ _ _).mpr
        ⟨fun he => absurd (Fin.mk.inj he) (by omega), Or.inr hmem⟩
  · rintro ⟨v, w, rfl, rfl, hvw⟩
    rcases ((SimpleGraph.fromRel_adj _ _ _).mp hvw).2 with hmem | hmem
    · exact (h v v.2 w hmem).1
    · exact (h w w.2 v hmem).2

/-- **Lost links.** On links in range without self-loops the function treats the
links as an undirected graph exactly when every link to a smaller id is also
stored at that id. -/
theorem undirectedForest_iff (Q : PriorityQueue (PrimStep F)) (hrange : LinksInRange index n)
    (hloop : ∀ v < n, v ∉ index.linklist0 v) :
    UndirectedForest D Q index n ↔ ReverseLinksStored index n := by
  obtain ⟨adj, steps, hbuild, hadj, hsteps, hall, hret⟩ :=
    approximateMSTUsingHNSWUndirected_spec (D := D) Q hrange
  constructor
  · rintro ⟨adj', r, hbuild', hloses, -, -⟩
    obtain rfl := hbuild.unique hbuild'
    exact (losesNoLink_iff hrange hloop hadj).mp hloses
  · intro hrev
    have hloses := (losesNoLink_iff hrange hloop hadj).mpr hrev
    refine ⟨adj, _, hbuild, hloses, hret, ?_⟩
    have hgrows := hsteps.grows
    rw [hasEdge_eq_graph hrange hadj hloses] at hgrows
    have hcard := hgrows.card_components (f := Fin.val) Fin.val_injective
      (fun v => hall v.1 v.2) (fun v hv => ⟨⟨v, hsteps.bound v hv⟩, rfl⟩)
    rw [countP_root_entry, hcard, List.countP_map]
    rfl

end Links

-- ---------------------------------------------------------------------------
-- A pruned index
-- ---------------------------------------------------------------------------

/-- Six points with `M = 2`: the origin, four unit vectors, and a longer vector.
The last point links to the origin, whose full list prunes it. -/
def prunedIndex : HierarchicalNSW (Exact ℚ) where
  max_elements := 6
  cur_element_count := 6
  label_lookup := fun i => if i < 6 then some i else none
  externalLabel := id
  data := fun i => (List.range 5).map fun pos =>
    if pos + 1 = i then if i = 5 then .fin (11 / 10) else .fin 1 else .fin 0
  linklist0 := fun i => if i = 0 then [1, 2, 3, 4] else [0]
  fstdistfunc := l2Sqr 5

theorem prunedIndex_inRange : LinksInRange prunedIndex 6 := by
  unfold LinksInRange
  decide

theorem prunedIndex_noLoop : ∀ v < 6, v ∉ prunedIndex.linklist0 v := by decide

/-- Every point is linked to the origin, in one direction at least. -/
theorem prunedIndex_connected :
    Nat.card (levelZeroGraph prunedIndex 6).ConnectedComponent = 1 := by
  have hzero : ∀ v : Fin 6, (levelZeroGraph prunedIndex 6).Reachable v 0 := by
    intro v
    by_cases hv : v = 0
    · rw [hv]
    · refine SimpleGraph.Adj.reachable ((SimpleGraph.fromRel_adj _ _ _).mpr ⟨hv, Or.inl ?_⟩)
      revert v
      decide
  have hpre : (levelZeroGraph prunedIndex 6).Preconnected := fun v w =>
    (hzero v).trans (hzero w).symm
  have := hpre.subsingleton_connectedComponent
  exact Nat.card_of_subsingleton ((levelZeroGraph prunedIndex 6).connectedComponentMk 0)

/-- The link from the last point to the origin is lost: the last point becomes a
second root, although the graph of the links is connected. -/
theorem prunedIndex_losesLink : LinksInRange prunedIndex 6 ∧
    (∀ v < 6, v ∉ prunedIndex.linklist0 v) ∧
    ¬ UndirectedForest (Exact ℚ) (leastWeight ℚ) prunedIndex 6 ∧
    (∃ r : Trajectory × Exact ℚ,
      Returns (approximateMSTUsingHNSWUndirected (leastWeight ℚ) prunedIndex 6) r ∧
      r.1 = [(0, -1), (4, 0), (3, 0), (2, 0), (1, 0), (5, -1)]) ∧
    Nat.card (levelZeroGraph prunedIndex 6).ConnectedComponent = 1 := by
  refine ⟨prunedIndex_inRange, prunedIndex_noLoop, ?_, ?_, prunedIndex_connected⟩
  · rintro ⟨adj, r, hbuild, hloses, -, -⟩
    obtain ⟨adj', hbuild', hadj⟩ := buildAdjacency_returns prunedIndex_inRange
    obtain rfl := hbuild.unique hbuild'
    have hrev := (losesNoLink_iff prunedIndex_inRange prunedIndex_noLoop hadj).mp hloses
    have h0 : (5 : ℕ) ∈ prunedIndex.linklist0 0 := hrev 5 (by decide) 0 (by decide) (by decide)
    revert h0
    decide
  · have hrun : ((approximateMSTUsingHNSWUndirected (D := Exact ℚ) (leastWeight ℚ)
        prunedIndex 6).value 40).map Prod.fst =
        some [(0, -1), (4, 0), (3, 0), (2, 0), (1, 0), (5, -1)] := by decide +kernel
    exact exists_returns_of_value hrun

/-- The same index with the reverse of that link. -/
def unprunedIndex : HierarchicalNSW (Exact ℚ) :=
  { prunedIndex with linklist0 := fun i => if i = 0 then [1, 2, 3, 4, 5] else [0] }

theorem unprunedIndex_undirectedForest : UndirectedForest (Exact ℚ) (leastWeight ℚ) unprunedIndex 6 :=
  (undirectedForest_iff (leastWeight ℚ) (by unfold LinksInRange; decide) (by decide)).mpr
    (by unfold ReverseLinksStored; decide)

end Mqo
