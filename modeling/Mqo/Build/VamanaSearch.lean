import Mqo.Build.VamanaPrune

/-!
# MQO — the search for the neighbours of a Vamana point

`iterate_to_fixed_point` of `DiskANN/src/index.cpp` as `search_for_point_and_prune` calls it while
other threads change the graph: one pass of its loop copies the list of one node, and so a search
is a sequence of passes, each with the graph of its moment. All candidates that are expanded
are kept, and pruned at the end.

The nodes that lists and searches name are those of a set `Z` with the start node in it.

* `startSearch_returns` — the start node is the first candidate;
* `expand_spec`         — what a pass keeps, whatever list it reads: no candidate is expanded
  twice, and the start node is among the expanded ones;
* `prunePool_spec`      — the pruned list of a point, not empty but for the start node.
-/

namespace Mqo.Build.Vamana

open Prog Flags Search.Vamana

/-- A search for the neighbours of a point: its queue and marks, and `expanded_nodes`. -/
structure PointSearch (K : Type) where
  state : SearchState K
  expanded_nodes : List (Neighbor K)

section Functions

variable {V K : Type} [LinearOrder K]

/-- `iterate_to_fixed_point` before its loop, with what `get_init_ids` returns. -/
def startSearch (index : Index V K) (query : V) (Lsize : ℕ) (scratch : InMemQueryScratch K) :
    Run (PointSearch K) := do
  let s ← (index.initIdsFrom index.start).foldlM (index.insertInit query)
    { scratch.toSearchState with best_L_nodes := scratch.best_L_nodes.reserve Lsize }
  pure ⟨s, []⟩

/-- One pass of `while (best_L_nodes.has_unexpanded_node())`, with the graph it reads from. -/
def expand (index : Index V K) (ndebug : Bool) (query : V) (graph : ℕ → List ℕ)
    (s : PointSearch K) : Run (PointSearch K) := do
  let nbr := s.state.best_L_nodes.closestUnexpanded
  let nbrs := graph nbr.1.id
  check ndebug (∀ id ∈ nbrs, id < index.max_points + index.num_frozen_pts)
    "id < _max_points + _num_frozen_pts"
  pure ⟨index.insertAll query ⟨nbr.2, s.state.inserted_into_pool⟩ nbrs, s.expanded_nodes ++ [nbr.1]⟩

/-- The rest of `search_for_point_and_prune`: the point itself is taken out of the pool. -/
def prunePool [Zero K] [One K] [Add K] [Mul K] [Div K] [Neg K] (C : Floats K) (P : Parameters K)
    (index : Index V K) (ndebug : Bool) (S : Sorting K) (location : ℕ)
    (expanded_nodes : List (Neighbor K)) : Run (List ℕ) := do
  let pruned_list ← pruneNeighbors C P index ndebug S location
    (expanded_nodes.filter fun nbr => nbr.id ≠ location)
  check ndebug (pruned_list ≠ []) "!pruned_list.empty()"
  pure pruned_list

end Functions

section Search

variable {V K : Type} [LinearOrder K] {index : Index V K} {query : V} {L : ℕ} {Z : Set ℕ}

-- ---------------------------------------------------------------------------
-- Where the candidates of the queue come from
-- ---------------------------------------------------------------------------

theorem inserted_from {q q' : NeighborPriorityQueue K} {nbr : Neighbor K}
    (hins : Inserted q nbr q') {i : ℕ} (hi : i < q'.size) :
    (∃ j < q.size, q'.data i = q.data j) ∨ q'.data i = nbr := by
  cases hins with
  | dropped => exact Or.inl ⟨i, hi, rfl⟩
  | present => exact Or.inl ⟨i, hi, rfl⟩
  | inserted _ lo hlo _ _ _ _ hsize _ hdata =>
    rw [hdata i hi]
    exact (SortedArray.insertAt_cases lo nbr q.data (by omega) hlo).symm

/-- A candidate after a list has been offered is an old one, or one from the list. -/
theorem offerAll_from (hL : 1 ≤ L) {dist : ℕ → K} (ids : List ℕ) {offered : Set ℕ}
    {q : NeighborPriorityQueue K} (h : Holds dist L offered q) {i : ℕ}
    (hi : i < (ids.foldl (fun q id => q.insert ⟨id, dist id, false⟩) q).size) :
    (∃ j < q.size, (ids.foldl (fun q id => q.insert ⟨id, dist id, false⟩) q).data i = q.data j) ∨
      ((ids.foldl (fun q id => q.insert ⟨id, dist id, false⟩) q).data i).id ∈ ids := by
  induction ids generalizing q offered with
  | nil => exact Or.inl ⟨i, hi, rfl⟩
  | cons id ids ih =>
    have hins := insert_spec h.sorted (h.size.trans_eq h.capacity.symm)
      (hL.trans_eq h.capacity.symm) id (dist id)
    rcases ih (h.offer hins) hi with ⟨j, hj, heq⟩ | hmem
    · rw [List.foldl_cons, heq]
      rcases inserted_from hins hj with ⟨k, hk, heq'⟩ | heq'
      · exact Or.inl ⟨k, hk, heq'⟩
      · right
        rw [heq']
        exact List.mem_cons_self
    · exact Or.inr (List.mem_cons_of_mem _ hmem)

/-- The same for the neighbours of a node: those that are new have not been marked. -/
theorem insertAll_from (hL : 1 ≤ L) {s : SearchState K}
    (h : Holds (index.dist query) L {u | s.inserted_into_pool u = true} s.best_L_nodes)
    (nbrs : List ℕ) {i : ℕ} (hi : i < (index.insertAll query s nbrs).best_L_nodes.size) :
    (∃ j < s.best_L_nodes.size,
        (index.insertAll query s nbrs).best_L_nodes.data i = s.best_L_nodes.data j) ∨
      s.inserted_into_pool ((index.insertAll query s nbrs).best_L_nodes.data i).id = false := by
  rcases offerAll_from hL _ h hi with hold | hnew
  · exact Or.inl hold
  · exact Or.inr (mem_filter_new.mp hnew).2

-- ---------------------------------------------------------------------------
-- The invariant of a search
-- ---------------------------------------------------------------------------

/-- A search that has marked nodes of `Z` only. A candidate that has not been expanded is not among
the expanded ones; the first one to be expanded is the start node. -/
structure PointSearchInv (index : Index V K) (query : V) (L : ℕ) (Z : Set ℕ) (s : PointSearch K) :
    Prop where
  holds   : Holds (index.dist query) L {u | s.state.inserted_into_pool u = true} s.state.best_L_nodes
  cursor  : AtCursor s.state.best_L_nodes
  mem     : ∀ u, s.state.inserted_into_pool u = true → u ∈ Z
  marked  : ∀ u ∈ s.expanded_nodes.map Neighbor.id, s.state.inserted_into_pool u = true
  nodup   : (s.expanded_nodes.map Neighbor.id).Nodup
  pending : ∀ i < s.state.best_L_nodes.size, (s.state.best_L_nodes.data i).expanded = false →
    (s.state.best_L_nodes.data i).id ∉ s.expanded_nodes.map Neighbor.id
  first   : s.expanded_nodes = [] → s.state.best_L_nodes.cur < s.state.best_L_nodes.size ∧
    (s.state.best_L_nodes.data s.state.best_L_nodes.cur).id = index.start
  start   : s.expanded_nodes ≠ [] → index.start ∈ s.expanded_nodes.map Neighbor.id

/-- **The first candidate.** -/
theorem startSearch_returns (hfrozen : index.num_frozen_pts = 0) (hL : 1 ≤ L)
    (hstart : index.start ∈ Z) (query : V) (scratch : InMemQueryScratch K) :
    ∃ s, Returns (startSearch index query L scratch) s ∧ PointSearchInv index query L Z s ∧
      s.expanded_nodes = [] := by
  have hinit : index.initIdsFrom index.start = [index.start] := by
    rw [Index.initIdsFrom, hfrozen]
    rfl
  have hclear := searchInv_clear index query L scratch
  have hnone : ∀ i < (scratch.best_L_nodes.reserve L).size,
      ((scratch.best_L_nodes.reserve L).data i).expanded = false := by
    intro i hi
    have hsize : (scratch.best_L_nodes.reserve L).size = 0 := scratch.size_eq
    omega
  obtain ⟨s, hret, hinv, hfalse⟩ := insertInit_spec hL hclear hnone index.start_lt
  -- the start node is the only one that is marked
  have hmarks : ∀ u, s.inserted_into_pool u = true → u = index.start := by
    have hval : index.insertInit query ⟨scratch.best_L_nodes.reserve L, scratch.inserted_into_pool⟩
        index.start = pure ⟨(scratch.best_L_nodes.reserve L).insert
          ⟨index.start, index.dist query index.start, false⟩,
          Function.update scratch.inserted_into_pool index.start true⟩ := by
      rw [Index.insertInit, if_neg (not_le.mpr index.start_lt), scratch.inserted_eq, if_neg (by decide)]
    rw [hval] at hret
    obtain rfl := hret.unique (returns_pure _)
    intro u hu
    refine ((update_iff _ _ u).mp hu).resolve_left fun h => ?_
    rw [scratch.inserted_eq] at h
    cases h
  have hpos : 0 < s.best_L_nodes.size := (hinv.first hL (List.mem_append_right [] List.mem_cons_self)).1
  have hcur : s.best_L_nodes.cur = 0 := by
    by_contra hne
    have hexp := hinv.cursor.before 0 (by omega)
    rw [hfalse 0 hpos] at hexp
    cases hexp
  refine ⟨⟨s, []⟩, ?_, ⟨hinv.holds, hinv.cursor, fun u hu => ?_, fun u hu => ?_, List.nodup_nil,
    fun i _ _ => List.not_mem_nil, fun _ => ⟨?_, ?_⟩, fun hne => absurd rfl hne⟩, rfl⟩
  · unfold startSearch
    rw [hinit]
    exact Returns.bind (foldlM_cons hret (foldlM_nil ..)) (returns_pure _)
  · rw [hmarks u hu]
    exact hstart
  · exact absurd hu List.not_mem_nil
  · rw [hcur]
    exact hpos
  · exact hmarks _ (hinv.holds.mem _ (hcur ▸ hpos))

/-- The candidates of a queue are distinct. -/
theorem holds_injOn {dist : ℕ → K} {offered : Set ℕ} {q : NeighborPriorityQueue K}
    (h : Holds dist L offered q) {i j : ℕ} (hi : i < q.size) (hj : j < q.size)
    (heq : (q.data i).id = (q.data j).id) : i = j := by
  rcases Nat.lt_trichotomy i j with hlt | rfl | hgt
  · have hless := h.ascending hlt hj
    rw [heq] at hless
    exact absurd hless (lt_irrefl _)
  · rfl
  · have hless := h.ascending hgt hi
    rw [heq] at hless
    exact absurd hless (lt_irrefl _)

section Pass

variable {s : PointSearch K}

/-- **One pass.** Whatever list it reads, the search keeps its invariant, and comes closer to its end. -/
theorem expand_spec (hL : 1 ≤ L) (hZ : ∀ u ∈ Z, u < index.max_points + index.num_frozen_pts)
    (h : PointSearchInv index query L Z s) (hgo : s.state.best_L_nodes.hasUnexpandedNode = true)
    (ndebug : Bool) {graph : ℕ → List ℕ} (hgraph : ∀ i ∈ Z, ∀ u ∈ graph i, u ∈ Z) :
    ∃ s', Returns (expand index ndebug query graph s) s' ∧ PointSearchInv index query L Z s' ∧
      searchMeasure index L s'.state < searchMeasure index L s.state ∧ s'.expanded_nodes ≠ [] := by
  have hlt : s.state.best_L_nodes.cur < s.state.best_L_nodes.size := of_decide_eq_true hgo
  obtain ⟨hholds, hcursor, hsize, hmoved, hids, hother, hnode⟩ :=
    closestUnexpanded_spec h.holds h.cursor hlt
  -- the node that is expanded
  have hmark := h.holds.mem _ hlt
  have hnew := h.pending _ hlt (h.cursor.here hlt)
  rw [← hnode] at hmark hnew
  have hnbrs := hgraph _ (h.mem _ hmark)
  have hmono := insertAll_inserted index query
    ⟨s.state.best_L_nodes.closestUnexpanded.2, s.state.inserted_into_pool⟩
    (graph s.state.best_L_nodes.closestUnexpanded.1.id)
  obtain ⟨hholds', hcursor', hold⟩ := insertAll_holds
    (s := ⟨s.state.best_L_nodes.closestUnexpanded.2, s.state.inserted_into_pool⟩) hL hholds hcursor
    (graph s.state.best_L_nodes.closestUnexpanded.1.id)
  have hmeasure := insertAll_measure
    (s := ⟨s.state.best_L_nodes.closestUnexpanded.2, s.state.inserted_into_pool⟩) hL hholds hcursor
    fun u hu => hZ u (hnbrs u hu)
  have hne : s.expanded_nodes ++ [s.state.best_L_nodes.closestUnexpanded.1] ≠ [] := by simp
  have hmarks : ∀ u ∈ (s.expanded_nodes ++ [s.state.best_L_nodes.closestUnexpanded.1]).map Neighbor.id,
      s.state.inserted_into_pool u = true := by
    intro u hu
    rw [List.map_append, List.mem_append] at hu
    rcases hu with hu | hu
    · exact h.marked u hu
    · rw [List.mem_singleton.mp hu]
      exact hmark
  refine ⟨_, (check_returns fun u hu => hZ u (hnbrs u hu)).bind (returns_pure _),
    ⟨hholds', hcursor', fun u hu => ?_, fun u hu => ?_, ?_, fun i hi hexp hmem => ?_,
      fun hnil => absurd hnil hne, fun _ => ?_⟩, hmeasure.trans_lt ?_, hne⟩
  · exact ((hmono u).mp hu).elim (h.mem u) (hnbrs u)
  · exact (hmono u).mpr (Or.inl (hmarks u hu))
  · rw [List.map_append, List.nodup_append]
    refine ⟨h.nodup, List.nodup_singleton _, fun u hu v hv huv => ?_⟩
    rw [List.map_singleton, List.mem_singleton] at hv
    exact hnew (hv ▸ huv ▸ hu)
  · -- a candidate that waits has been marked just now, or has waited before
    dsimp only at hi hexp hmem
    rcases insertAll_from hL hholds _ hi with ⟨j, hj, heq⟩ | hfresh
    · rw [heq] at hexp hmem
      have hjc : j ≠ s.state.best_L_nodes.cur := by
        rintro rfl
        rw [hcursor.before _ hmoved] at hexp
        cases hexp
      rw [hother j hjc] at hexp hmem
      dsimp only at hj
      rw [hsize] at hj
      rw [List.map_append, List.mem_append] at hmem
      rcases hmem with hmem | hmem
      · exact h.pending j hj hexp hmem
      · rw [List.map_singleton, List.mem_singleton, hnode] at hmem
        exact hjc (holds_injOn h.holds hj hlt hmem)
    · have hmarked := hmarks _ hmem
      rw [hfresh] at hmarked
      cases hmarked
  · rw [List.map_append, List.mem_append]
    by_cases hnil : s.expanded_nodes = []
    · exact Or.inr (by rw [List.map_singleton, List.mem_singleton, hnode, (h.first hnil).2])
    · exact Or.inl (h.start hnil)
  · unfold searchMeasure
    dsimp only
    rw [hsize]
    omega

end Pass

-- ---------------------------------------------------------------------------
-- The pruned list
-- ---------------------------------------------------------------------------

/-- The neighbours of a node: distinct nodes of `Z` other than it, not more than `bound`. -/
structure NeighborList (Z : Set ℕ) (bound n : ℕ) (l : List ℕ) : Prop where
  length : l.length ≤ bound
  nodup  : l.Nodup
  mem    : ∀ u ∈ l, u ∈ Z ∧ u ≠ n

variable [Zero K] [One K] [Add K] [Mul K] [Div K] [Neg K] {C : Floats K} {P : Parameters K}
  {location : ℕ} {pool : List (Neighbor K)}

omit [Zero K] [One K] [Add K] [Mul K] [Div K] [Neg K] [LinearOrder K] in
theorem Pruned.neighborList {l : List ℕ} (h : Pruned P location pool l)
    (hmem : ∀ u ∈ pool.map Neighbor.id, u ∈ Z) : NeighborList Z P.indexingRange location l :=
  ⟨h.length, h.nodup, fun u hu => ⟨hmem u (h.mem u hu).2, (h.mem u hu).1⟩⟩

/-- **The neighbours of a point.** The search has expanded the start node, so only for the start node
itself may there be none, and only then may the assertion fail. -/
theorem prunePool_spec (hP : P.Valid C) {s : PointSearch K}
    (h : PointSearchInv index query L Z s) (hdone : s.expanded_nodes ≠ []) (S : Sorting K)
    (ndebug : Bool) (location : ℕ) :
    ∃ l, NeighborList Z P.indexingRange location l ∧ (location ≠ index.start → l ≠ []) ∧
      (Returns (prunePool C P index ndebug S location s.expanded_nodes) l ∨
        ndebug = false ∧ location = index.start ∧
          Fails (prunePool C P index ndebug S location s.expanded_nodes)
            (.assertFailed "!pruned_list.empty()")) := by
  have hsub := (List.filter_sublist (p := fun nbr : Neighbor K => decide (nbr.id ≠ location))
    (l := s.expanded_nodes)).map Neighbor.id
  have hloc : location ∉ (s.expanded_nodes.filter fun nbr => nbr.id ≠ location).map Neighbor.id := by
    intro hmem
    obtain ⟨nbr, hnbr, heq⟩ := List.mem_map.mp hmem
    exact of_decide_eq_true (List.mem_filter.mp hnbr).2 heq
  obtain ⟨l, hret, hpruned⟩ := pruneNeighbors_returns hP (h.nodup.sublist hsub) hloc index S ndebug
  have hne : location ≠ index.start → l ≠ [] := by
    intro hlocation
    refine hpruned.pos ?_
    obtain ⟨nbr, hnbr, heq⟩ := List.mem_map.mp (h.start hdone)
    refine List.ne_nil_of_mem (List.mem_filter.mpr ⟨hnbr, decide_eq_true ?_⟩)
    rw [heq]
    exact hlocation.symm
  refine ⟨l, hpruned.neighborList fun u hu => h.mem u (h.marked u (hsub.subset hu)), hne, ?_⟩
  unfold prunePool
  by_cases hl : l ≠ []
  · exact Or.inl (hret.bind ((check_returns hl).bind (returns_pure _)))
  · cases ndebug with
    | true => exact Or.inl (hret.bind (returns_pure _))
    | false =>
      have hlocation : location = index.start := by
        by_contra hlocation
        exact hl (hne hlocation)
      exact Or.inr ⟨rfl, hlocation, hret.bind_ends (Fails.bind (assert_fails hl))⟩

end Search

end Mqo.Build.Vamana
