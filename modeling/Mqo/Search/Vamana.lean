import Mqo.Lib.Flags
import Mqo.Search.VamanaQueue
import Mqo.Search.WarmStart

/-!
# MQO — searching a Vamana index

`Index::search` and `Index::iterate_to_fixed_point` of `DiskANN/src/index.cpp`, for
a search without filters. The start node, or the given entry point in its
place, is put into the queue; then the closest candidate that has not been
expanded is expanded until none is left. A static index has no frozen points,
so every id stands for a point of the data.

A scratch space serves one search after another; the destructor of its manager
clears it. The counters that the search returns are not read by anyone.

* `expandStep_spec`             — one expansion keeps the invariant `SearchInv`;
* `iterateToFixedPoint_returns` — the expansions end, with the closest of all
  evaluated points in the queue;
* `writeResults_eq`             — the output loop writes the first `k` of them, and
  for `k = 0` all;
* `search_closestWritten_iff`   — so a search does what it should just when `k` is
  positive.
-/

namespace Mqo.Search.Vamana

open Prog Flags

-- ---------------------------------------------------------------------------
-- The index
-- ---------------------------------------------------------------------------

/-- `diskann::Metric` -/
inductive Metric
  | L2
  | INNER_PRODUCT
  | COSINE
deriving DecidableEq

/-- `diskann::Index`, with its data store and its graph store. -/
structure Index (V K : Type) where
  max_points : ℕ
  num_frozen_pts : ℕ
  start : ℕ
  dist_metric : Metric
  data_store : ℕ → V
  compare : V → V → K
  graph_store : ℕ → List ℕ
  start_lt : start < max_points + num_frozen_pts
  graph_lt : ∀ i < max_points + num_frozen_pts, ∀ u ∈ graph_store i, u < max_points + num_frozen_pts

/-- The state of a search: the queue and the nodes that have been put into it. -/
structure SearchState (K : Type) where
  best_L_nodes : NeighborPriorityQueue K
  inserted_into_pool : ℕ → Bool

/-- `InMemQueryScratch` between two searches: it has been cleared. -/
structure InMemQueryScratch (K : Type) extends SearchState K where
  L : ℕ
  size_eq : best_L_nodes.size = 0
  cur_eq : best_L_nodes.cur = 0
  inserted_eq : ∀ id, inserted_into_pool id = false

/-- `resize_for_new_L` -/
def InMemQueryScratch.resizeForNewL {K : Type} (scratch : InMemQueryScratch K) (new_l : ℕ) :
    InMemQueryScratch K :=
  if scratch.L < new_l then
    { scratch with L := new_l, best_L_nodes := scratch.best_L_nodes.reserve new_l }
  else scratch

/-- `clear` -/
def SearchState.clear {K : Type} (s : SearchState K) (L : ℕ) : InMemQueryScratch K where
  best_L_nodes := s.best_L_nodes.clear
  inserted_into_pool _ := false
  L := L
  size_eq := rfl
  cur_eq := rfl
  inserted_eq _ := rfl

section Search

variable {V K : Type} [LinearOrder K]

namespace Index

omit [LinearOrder K] in
/-- `_pq_data_store->get_distance`: the data store itself when nothing is compressed. -/
def dist (index : Index V K) (query : V) (id : ℕ) : K := index.compare query (index.data_store id)

omit [LinearOrder K] in
/-- A start node followed by the frozen points. -/
def initIdsFrom (index : Index V K) (start : ℕ) : List ℕ :=
  start :: (List.range' index.max_points index.num_frozen_pts).filter (· ≠ start)

omit [LinearOrder K] in
/-- `init_ids`: from `get_init_ids` for the default marker `-1`, else from the entry
point, which is converted to `uint32_t`. -/
def initIds (index : Index V K) (entry_point : ℤ) : List ℕ :=
  if entry_point = -1 then index.initIdsFrom index.start
  else index.initIdsFrom (if entry_point < 0 then entry_point + 2 ^ 32 else entry_point).toNat

/-- One pass of the loop that puts the initial nodes into the queue. -/
def insertInit (index : Index V K) (query : V) (s : SearchState K) (id : ℕ) :
    Run (SearchState K) :=
  if index.max_points + index.num_frozen_pts ≤ id then fault (.exception ("Wrong loc" ++ toString id))
  else if s.inserted_into_pool id then pure s
  else pure ⟨s.best_L_nodes.insert ⟨id, index.dist query id, false⟩,
    Function.update s.inserted_into_pool id true⟩

/-- The neighbours of the node being expanded that are not in the pool: they are all
collected, then marked, then inserted. An id that is listed twice is inserted
twice. -/
def insertAll (index : Index V K) (query : V) (s : SearchState K) (nbrs : List ℕ) :
    SearchState K :=
  let id_scratch := nbrs.filter fun id => s.inserted_into_pool id = false
  ⟨id_scratch.foldl (fun q id => q.insert ⟨id, index.dist query id, false⟩) s.best_L_nodes,
    id_scratch.foldl (fun flags id => Function.update flags id true) s.inserted_into_pool⟩

/-- One pass of `while (best_L_nodes.has_unexpanded_node())`. -/
def expandStep (index : Index V K) (query : V) (s : SearchState K) :
    Run (SearchState K ⊕ SearchState K) :=
  if s.best_L_nodes.hasUnexpandedNode then do
    let nbr := s.best_L_nodes.closestUnexpanded
    let nbrs := index.graph_store nbr.1.id
    assert (∀ id ∈ nbrs, id < index.max_points + index.num_frozen_pts)
      "id < _max_points + _num_frozen_pts"
    pure (.inl (index.insertAll query ⟨nbr.2, s.inserted_into_pool⟩ nbrs))
  else pure (.inr s)

/-- `iterate_to_fixed_point` -/
def iterateToFixedPoint (index : Index V K) (query : V) (Lsize : ℕ) (init_ids : List ℕ)
    (s : SearchState K) : Run (SearchState K) := do
  let s ← init_ids.foldlM (index.insertInit query)
    { s with best_L_nodes := s.best_L_nodes.reserve Lsize }
  loop (index.expandStep query) s

omit [LinearOrder K] in
/-- The distance that is written for a candidate. -/
def outputDistance [Neg K] (index : Index V K) (distance : K) : K :=
  if index.dist_metric = .INNER_PRODUCT then -distance else distance

omit [LinearOrder K] in
/-- The loop that writes `indices` and `distances`, from the candidates left and `pos`:
what is written from there on. Whether `K` has been reached is tested after the
write. -/
def writeResults [Neg K] (index : Index V K) (k : ℕ) : List (Neighbor K) → ℕ → List (ℕ × K)
  | [], _ => []
  | nbr :: rest, pos =>
    if nbr.id < index.max_points then
      (nbr.id, index.outputDistance nbr.distance) ::
        if pos + 1 = k then [] else index.writeResults k rest (pos + 1)
    else if pos = k then [] else index.writeResults k rest pos

end Index

/-- What a search leaves: the ids and distances it has written, and its state. -/
structure SearchResult (K : Type) where
  written : List (ℕ × K)
  pool : SearchState K

/-- `Index::search` on a scratch space, which it leaves cleared. -/
def Index.search [Neg K] (index : Index V K) (query : V) (k L : ℕ) (entry_point : ℤ)
    (scratch : InMemQueryScratch K) : Run (SearchResult K × InMemQueryScratch K) :=
  if L < k then fault (.exception "Set L to a value of at least K")
  else do
    let scratch := scratch.resizeForNewL L
    let s ← index.iterateToFixedPoint query L (index.initIds entry_point) scratch.toSearchState
    pure (⟨index.writeResults k s.best_L_nodes.toList 0, s⟩, s.clear scratch.L)

-- ---------------------------------------------------------------------------
-- The invariant of the search
-- ---------------------------------------------------------------------------

/-- The nodes marked are those offered to the queue, and the neighbours of an expanded
candidate are marked. -/
structure SearchInv (index : Index V K) (query : V) (L : ℕ) (init_ids : List ℕ)
    (s : SearchState K) : Prop where
  holds    : Holds (index.dist query) L {u | s.inserted_into_pool u = true} s.best_L_nodes
  cursor   : AtCursor s.best_L_nodes
  init     : ∀ id ∈ init_ids, s.inserted_into_pool id = true
  lt       : ∀ u, s.inserted_into_pool u = true → u < index.max_points + index.num_frozen_pts
  expanded : ∀ i < s.best_L_nodes.size, (s.best_L_nodes.data i).expanded = true →
    ∀ u ∈ index.graph_store (s.best_L_nodes.data i).id, s.inserted_into_pool u = true

/-- Nodes not marked count more than the candidates left, since a new candidate may
take the cursor back to the front. -/
def searchMeasure (index : Index V K) (L : ℕ) (s : SearchState K) : ℕ :=
  (unset (index.max_points + index.num_frozen_pts) s.inserted_into_pool).card * (L + 1) +
    (s.best_L_nodes.size - s.best_L_nodes.cur)

variable {index : Index V K} {query : V} {L : ℕ} {init_ids : List ℕ} {s : SearchState K}

omit [LinearOrder K] in
theorem mem_filter_new {flags : ℕ → Bool} {nbrs : List ℕ} {u : ℕ} :
    u ∈ nbrs.filter (fun id => flags id = false) ↔ u ∈ nbrs ∧ flags u = false := by
  rw [List.mem_filter, decide_eq_true_iff]

/-- The marks after the neighbours of a node have been put into the queue. -/
theorem insertAll_inserted (index : Index V K) (query : V) (s : SearchState K) (nbrs : List ℕ)
    (u : ℕ) : (index.insertAll query s nbrs).inserted_into_pool u = true ↔
      s.inserted_into_pool u = true ∨ u ∈ nbrs := by
  unfold Index.insertAll
  dsimp only
  rw [mem_foldl_set, mem_filter_new]
  constructor
  · rintro (h | h)
    · exact Or.inl h
    · exact Or.inr h.1
  · rintro (h | h)
    · exact Or.inl h
    · cases hu : s.inserted_into_pool u with
      | true => exact Or.inl rfl
      | false => exact Or.inr ⟨h, rfl⟩

/-- The neighbours of a node are offered to the queue. -/
theorem insertAll_holds (hL : 1 ≤ L) {s : SearchState K}
    (h : Holds (index.dist query) L {u | s.inserted_into_pool u = true} s.best_L_nodes)
    (hcur : AtCursor s.best_L_nodes) (nbrs : List ℕ) :
    Holds (index.dist query) L {u | (index.insertAll query s nbrs).inserted_into_pool u = true}
      (index.insertAll query s nbrs).best_L_nodes ∧
    AtCursor (index.insertAll query s nbrs).best_L_nodes ∧
    ∀ i < (index.insertAll query s nbrs).best_L_nodes.size,
      ((index.insertAll query s nbrs).best_L_nodes.data i).expanded = true →
      ∃ j < s.best_L_nodes.size,
        (index.insertAll query s nbrs).best_L_nodes.data i = s.best_L_nodes.data j := by
  obtain ⟨hholds, hrest⟩ :=
    offerAll hL (nbrs.filter fun id => s.inserted_into_pool id = false) h hcur
  refine ⟨?_, hrest⟩
  have hset : {u | (index.insertAll query s nbrs).inserted_into_pool u = true} =
      {u | s.inserted_into_pool u = true} ∪
        {u | u ∈ nbrs.filter fun id => s.inserted_into_pool id = false} := by
    ext u
    exact mem_foldl_set _ _ u
  rw [hset]
  exact hholds

/-- New candidates have cost nodes that were not marked. -/
theorem insertAll_measure (hL : 1 ≤ L) {s : SearchState K}
    (h : Holds (index.dist query) L {u | s.inserted_into_pool u = true} s.best_L_nodes)
    (hcur : AtCursor s.best_L_nodes) {nbrs : List ℕ}
    (hnbrs : ∀ u ∈ nbrs, u < index.max_points + index.num_frozen_pts) :
    searchMeasure index L (index.insertAll query s nbrs) ≤ searchMeasure index L s := by
  by_cases hnew : nbrs.filter (fun id => s.inserted_into_pool id = false) = []
  · rw [Index.insertAll, hnew]
    exact le_refl _
  · obtain ⟨u, hu⟩ := List.exists_mem_of_ne_nil _ hnew
    obtain ⟨hmem, hfalse⟩ := mem_filter_new.mp hu
    have hsize := (insertAll_holds hL h hcur nbrs).1.size
    have hmono := insertAll_inserted index query s nbrs
    have hlt : unset (index.max_points + index.num_frozen_pts)
        (index.insertAll query s nbrs).inserted_into_pool ⊂
          unset (index.max_points + index.num_frozen_pts) s.inserted_into_pool := by
      refine (Finset.ssubset_iff_of_subset (unset_subset _ fun i hi => (hmono i).mpr (Or.inl hi))).mpr
        ⟨u, mem_unset.mpr ⟨hnbrs u hmem, hfalse⟩, fun hmem' => ?_⟩
      rw [mem_unset, (hmono u).mpr (Or.inr hmem)] at hmem'
      exact absurd hmem'.2 (by decide)
    have hmul := Nat.mul_le_mul_right (L + 1) (Nat.succ_le_of_lt (Finset.card_lt_card hlt))
    rw [Nat.succ_mul] at hmul
    unfold searchMeasure
    omega

/-- **One expansion.** -/
theorem expandStep_spec (hL : 1 ≤ L) {s : SearchState K}
    (h : SearchInv index query L init_ids s) (hlt : s.best_L_nodes.cur < s.best_L_nodes.size) :
    ∃ s', Returns (index.expandStep query s) (.inl s') ∧ SearchInv index query L init_ids s' ∧
      searchMeasure index L s' < searchMeasure index L s := by
  obtain ⟨hholds, hcursor, hsize, hmoved, hids, hother, hnode⟩ :=
    closestUnexpanded_spec h.holds h.cursor hlt
  let n := (s.best_L_nodes.data s.best_L_nodes.cur).id
  have hnbrs : ∀ u ∈ index.graph_store n, u < index.max_points + index.num_frozen_pts :=
    index.graph_lt _ (h.lt _ (h.holds.mem _ hlt))
  have hmono := insertAll_inserted index query
    ⟨s.best_L_nodes.closestUnexpanded.2, s.inserted_into_pool⟩ (index.graph_store n)
  obtain ⟨hholds', hcursor', hold⟩ :=
    insertAll_holds (s := ⟨s.best_L_nodes.closestUnexpanded.2, s.inserted_into_pool⟩) hL hholds
      hcursor (index.graph_store n)
  have hmeasure := insertAll_measure
    (s := ⟨s.best_L_nodes.closestUnexpanded.2, s.inserted_into_pool⟩) hL hholds hcursor hnbrs
  refine ⟨index.insertAll query ⟨s.best_L_nodes.closestUnexpanded.2, s.inserted_into_pool⟩
    (index.graph_store n), ?_, ⟨hholds', hcursor', fun id hid => (hmono id).mpr (Or.inl (h.init id hid)),
      fun u hu => ?_, fun i hi hexp u hu => (hmono u).mpr ?_⟩, hmeasure.trans_lt ?_⟩
  · rw [Index.expandStep, NeighborPriorityQueue.hasUnexpandedNode, if_pos (decide_eq_true hlt)]
    dsimp only
    rw [hnode]
    exact (assert_returns.mpr hnbrs).bind (returns_pure _)
  · rcases (hmono u).mp hu with hu | hu
    · exact h.lt u hu
    · exact hnbrs u hu
  · -- the candidate is the node just expanded, or was expanded before
    obtain ⟨j, hj, heq⟩ := hold i hi hexp
    rw [heq] at hexp hu
    dsimp only at hexp hu hj
    rw [hids] at hu
    by_cases hjc : j = s.best_L_nodes.cur
    · rw [hjc] at hu
      exact Or.inr hu
    · rw [hother j hjc] at hexp
      exact Or.inl (h.expanded j (hsize ▸ hj) hexp u hu)
  · unfold searchMeasure
    dsimp only
    rw [hsize]
    omega

/-- **The fixed point.** The expansions end, and then all candidates left in the queue
have been expanded. -/
theorem expand_returns (hL : 1 ≤ L) {s : SearchState K}
    (h : SearchInv index query L init_ids s) :
    ∃ s', Returns (loop (index.expandStep query) s) s' ∧ SearchInv index query L init_ids s' ∧
      ∀ i < s'.best_L_nodes.size, (s'.best_L_nodes.data i).expanded = true := by
  refine loop_returns (SearchInv index query L init_ids) (searchMeasure index L)
    (fun s' => SearchInv index query L init_ids s' ∧
      ∀ i < s'.best_L_nodes.size, (s'.best_L_nodes.data i).expanded = true) (fun s hs => ?_) h
  by_cases hlt : s.best_L_nodes.cur < s.best_L_nodes.size
  · exact Or.inl (expandStep_spec hL hs hlt)
  · refine Or.inr ⟨s, ?_, hs, fun i hi => hs.cursor.before i (by omega)⟩
    rw [Index.expandStep, NeighborPriorityQueue.hasUnexpandedNode, decide_eq_false hlt]
    exact returns_pure _

-- ---------------------------------------------------------------------------
-- The initial nodes
-- ---------------------------------------------------------------------------

/-- A cleared scratch space, with the capacity of the search. -/
theorem searchInv_clear (index : Index V K) (query : V) (L : ℕ) (scratch : InMemQueryScratch K) :
    SearchInv index query L []
      ⟨scratch.best_L_nodes.reserve L, scratch.inserted_into_pool⟩ := by
  have hsize : (scratch.best_L_nodes.reserve L).size = 0 := scratch.size_eq
  have hcur : (scratch.best_L_nodes.reserve L).cur = 0 := scratch.cur_eq
  have hnone : ∀ u, ¬ scratch.inserted_into_pool u = true := fun u hu => by
    rw [scratch.inserted_eq u] at hu
    cases hu
  have hempty : ∀ i, ¬ i < (scratch.best_L_nodes.reserve L).size := fun i => by omega
  refine ⟨⟨rfl, by dsimp only; omega, fun i j _ hj => absurd hj (hempty j),
    fun i hi => absurd hi (hempty i), fun i hi => absurd hi (hempty i),
    fun u hu => absurd hu (hnone u)⟩, ⟨by dsimp only; omega, fun i hi => ?_,
    fun hlt => absurd hlt (hempty _)⟩, fun id hid => absurd hid List.not_mem_nil,
    fun u hu => absurd hu (hnone u), fun i hi => absurd hi (hempty i)⟩
  dsimp only at hi
  omega

/-- An initial node is put into the queue. -/
theorem insertInit_spec (hL : 1 ≤ L) {pre : List ℕ} {s : SearchState K}
    (h : SearchInv index query L pre s)
    (hnone : ∀ i < s.best_L_nodes.size, (s.best_L_nodes.data i).expanded = false) {id : ℕ}
    (hid : id < index.max_points + index.num_frozen_pts) :
    ∃ s', Returns (index.insertInit query s id) s' ∧ SearchInv index query L (pre ++ [id]) s' ∧
      ∀ i < s'.best_L_nodes.size, (s'.best_L_nodes.data i).expanded = false := by
  have hmono := update_iff s.inserted_into_pool id
  cases hseen : s.inserted_into_pool id with
  | true =>
    refine ⟨s, ?_, ⟨h.holds, h.cursor, fun u hu => ?_, h.lt, h.expanded⟩, hnone⟩
    · rw [Index.insertInit, if_neg (by omega), if_pos hseen]
      exact returns_pure _
    · rcases List.mem_append.mp hu with hu | hu
      · exact h.init u hu
      · rw [List.mem_singleton.mp hu]
        exact hseen
  | false =>
    have hcap := h.holds.size.trans_eq h.holds.capacity.symm
    have hins := insert_spec h.holds.sorted hcap (hL.trans_eq h.holds.capacity.symm) id
      (index.dist query id)
    have hnone' : ∀ i < (s.best_L_nodes.insert ⟨id, index.dist query id, false⟩).size,
        ((s.best_L_nodes.insert ⟨id, index.dist query id, false⟩).data i).expanded = false := by
      intro i hi
      by_contra hexp
      obtain ⟨j, hj, heq⟩ := hins.of_expanded rfl hi (Bool.not_eq_false _ ▸ hexp)
      rw [heq, hnone j hj] at hexp
      exact hexp rfl
    have hset : {u | Function.update s.inserted_into_pool id true u = true} =
        insert id {u | s.inserted_into_pool u = true} := by
      ext u
      rw [Set.mem_insert_iff, or_comm]
      exact hmono u
    refine ⟨⟨s.best_L_nodes.insert ⟨id, index.dist query id, false⟩,
      Function.update s.inserted_into_pool id true⟩, ?_, ⟨?_, h.cursor.insert hcap rfl hins,
        fun u hu => (hmono u).mpr ?_, fun u hu => ?_, fun i hi hexp => ?_⟩, hnone'⟩
    · rw [Index.insertInit, if_neg (by omega), if_neg (by rw [hseen]; decide)]
      exact returns_pure _
    · dsimp only
      rw [hset]
      exact h.holds.offer hins
    · rcases List.mem_append.mp hu with hu | hu
      · exact Or.inl (h.init u hu)
      · exact Or.inr (List.mem_singleton.mp hu)
    · rcases (hmono u).mp hu with hu | rfl
      · exact h.lt u hu
      · exact hid
    · rw [hnone' i hi] at hexp
      cases hexp

/-- **The whole search.** From a cleared scratch space it ends with the closest of all
evaluated nodes in the queue, and all neighbours of these have been evaluated. -/
theorem iterateToFixedPoint_returns (hL : 1 ≤ L) (scratch : InMemQueryScratch K)
    (hinit : ∀ id ∈ init_ids, id < index.max_points + index.num_frozen_pts) :
    ∃ s, Returns (index.iterateToFixedPoint query L init_ids scratch.toSearchState) s ∧
      SearchInv index query L init_ids s ∧
      ∀ i < s.best_L_nodes.size, (s.best_L_nodes.data i).expanded = true := by
  have hsize : (scratch.best_L_nodes.reserve L).size = 0 := scratch.size_eq
  obtain ⟨s, hret, hinv, -⟩ := foldlM_returns (f := index.insertInit query)
    (fun pre s => SearchInv index query L pre s ∧
      ∀ i < s.best_L_nodes.size, (s.best_L_nodes.data i).expanded = false) (l := init_ids)
    (fun pre id post s hsplit ⟨hinv, hnone⟩ =>
      insertInit_spec hL hinv hnone (hinit id (by rw [hsplit]; simp)))
    (s := ⟨scratch.best_L_nodes.reserve L, scratch.inserted_into_pool⟩)
    ⟨searchInv_clear index query L scratch, fun i hi => by rw [hsize] at hi; omega⟩
  obtain ⟨s', hloop, hs'⟩ := expand_returns hL hinv
  exact ⟨s', hret.bind hloop, hs'⟩

-- ---------------------------------------------------------------------------
-- The output
-- ---------------------------------------------------------------------------

section Output

variable [Neg K] {k : ℕ}

omit [LinearOrder K] in
/-- **The output loop.** It stops at the `k`-th candidate, but not before the first. -/
theorem writeResults_eq (index : Index V K) (k : ℕ) {l : List (Neighbor K)}
    (hlt : ∀ nbr ∈ l, nbr.id < index.max_points) (pos : ℕ) :
    index.writeResults k l pos = (if pos < k then l.take (k - pos) else l).map
      fun nbr => (nbr.id, index.outputDistance nbr.distance) := by
  induction l generalizing pos with
  | nil => simp [Index.writeResults]
  | cons nbr rest ih =>
    rw [Index.writeResults, if_pos (hlt nbr List.mem_cons_self),
      ih (fun n hn => hlt n (List.mem_cons_of_mem _ hn))]
    by_cases hlast : pos + 1 = k
    · rw [if_pos hlast, if_pos (by omega), show k - pos = 1 by omega]
      simp
    · rw [if_neg hlast]
      by_cases hpos : pos < k
      · rw [if_pos (by omega), if_pos hpos, show k - pos = k - (pos + 1) + 1 by omega,
          List.take_succ_cons, List.map_cons]
      · rw [if_neg (by omega), if_neg hpos, List.map_cons]

/-- What a search for `k` points should do: it writes the closest of all points that
it has evaluated, in ascending order of distance and id, `k` of them or all that
its queue holds. The queue is full or holds all evaluated points, and their
neighbours have been evaluated as well. -/
structure ClosestWritten (index : Index V K) (query : V) (k L entry : ℕ) (res : SearchResult K) :
    Prop where
  length    : res.written.length = min k res.pool.best_L_nodes.size
  ascending : (res.written.map Prod.fst).Pairwise fun a b =>
    keyOf (index.dist query) a < keyOf (index.dist query) b
  distinct  : (res.written.map Prod.fst).Nodup
  distances : ∀ w ∈ res.written, w.2 = index.outputDistance (index.dist query w.1)
  lt        : ∀ w ∈ res.written, w.1 < index.max_points
  evaluated : ∀ w ∈ res.written, res.pool.inserted_into_pool w.1 = true
  closest   : ∀ u, res.pool.inserted_into_pool u = true → u ∉ res.written.map Prod.fst →
    ∀ w ∈ res.written, keyOf (index.dist query) w.1 < keyOf (index.dist query) u
  first     : ∀ w ∈ res.written.head?, index.dist query w.1 ≤ index.dist query entry
  pool      : res.pool.best_L_nodes.size = L ∨ ∀ u, res.pool.inserted_into_pool u = true →
    ∃ nbr ∈ res.pool.best_L_nodes.toList, nbr.id = u
  linked    : ∀ nbr ∈ res.pool.best_L_nodes.toList, ∀ u ∈ index.graph_store nbr.id,
    res.pool.inserted_into_pool u = true

omit [Neg K] in
/-- The queue is not empty, and its first candidate is no farther than an initial
node. -/
theorem SearchInv.first (h : SearchInv index query L init_ids s) (hL : 1 ≤ L) {id : ℕ}
    (hid : id ∈ init_ids) : 0 < s.best_L_nodes.size ∧
      index.dist query (s.best_L_nodes.data 0).id ≤ index.dist query id := by
  rcases h.holds.best id (h.init id hid) with ⟨j, hj, rfl⟩ | ⟨hfull, hless⟩
  · refine ⟨by omega, ?_⟩
    rcases Nat.eq_zero_or_pos j with rfl | hpos
    · exact le_refl _
    · exact dist_le_of_keyOf_lt (h.holds.ascending hpos hj)
  · have hpos : 0 < s.best_L_nodes.size := by omega
    refine ⟨hpos, dist_le_of_keyOf_lt ?_⟩
    rw [← Neighbor.key_eq (h.holds.distance 0 hpos)]
    exact hless 0 hpos

/-- The first `k` candidates of the queue at the fixed point. -/
theorem SearchInv.closestWritten (h : SearchInv index query L init_ids s)
    (hdone : ∀ i < s.best_L_nodes.size, (s.best_L_nodes.data i).expanded = true) (hL : 1 ≤ L)
    (hlt : ∀ nbr ∈ s.best_L_nodes.toList, nbr.id < index.max_points) {entry : ℕ}
    (hentry : entry ∈ init_ids) :
    ClosestWritten index query k L entry ⟨(s.best_L_nodes.toList.take k).map
      fun nbr => (nbr.id, index.outputDistance nbr.distance), s⟩ := by
  have hids : ((s.best_L_nodes.toList.take k).map fun nbr =>
      (nbr.id, index.outputDistance nbr.distance)).map Prod.fst =
      (s.best_L_nodes.toList.take k).map Neighbor.id := by
    rw [List.map_map]
    rfl
  have hascending : ((s.best_L_nodes.toList.take k).map Neighbor.id).Pairwise fun a b =>
      keyOf (index.dist query) a < keyOf (index.dist query) b := by
    rw [List.pairwise_map]
    exact h.holds.pairwise_toList.sublist (List.take_sublist _ _)
  have hwritten : ∀ w ∈ (s.best_L_nodes.toList.take k).map (fun nbr =>
      (nbr.id, index.outputDistance nbr.distance)), ∃ i < s.best_L_nodes.size, i < k ∧
      w = ((s.best_L_nodes.data i).id, index.outputDistance (s.best_L_nodes.data i).distance) := by
    intro w hw
    obtain ⟨nbr, hnbr, rfl⟩ := List.mem_map.mp hw
    obtain ⟨i, hi, hik, rfl⟩ := mem_take_toList.mp hnbr
    exact ⟨i, hi, hik, rfl⟩
  refine ⟨by rw [List.length_map, List.length_take, length_toList], by rw [hids]; exact hascending,
    ?_, fun w hw => ?_, fun w hw => ?_, fun w hw => ?_, fun u hu hnot w hw => ?_, fun w hw => ?_, ?_,
    fun nbr hnbr => ?_⟩
  · rw [hids]
    exact hascending.imp fun hlt heq => absurd (heq ▸ hlt) (lt_irrefl _)
  · obtain ⟨i, hi, -, rfl⟩ := hwritten w hw
    rw [h.holds.distance i hi]
  · obtain ⟨i, hi, -, rfl⟩ := hwritten w hw
    exact hlt _ (mem_toList.mpr ⟨i, hi, rfl⟩)
  · obtain ⟨i, hi, -, rfl⟩ := hwritten w hw
    exact h.holds.mem i hi
  · obtain ⟨i, hi, hik, rfl⟩ := hwritten w hw
    rcases h.holds.best u hu with ⟨j, hj, rfl⟩ | ⟨-, hless⟩
    · -- a candidate that is not written stands behind those that are
      have hjk : ¬ j < k := fun hjk => hnot (by
        rw [hids]
        exact List.mem_map_of_mem (mem_take_toList.mpr ⟨j, hj, hjk, rfl⟩))
      exact h.holds.ascending (by omega) hj
    · rw [← Neighbor.key_eq (h.holds.distance i hi)]
      exact hless i hi
  · obtain ⟨hpos, hfirst⟩ := h.first hL hentry
    rw [List.head?_map, List.head?_take, head?_toList hpos] at hw
    split at hw
    · cases hw
    · cases hw
      exact hfirst
  · rcases Nat.lt_or_eq_of_le h.holds.size with hlt | heq
    · refine Or.inr fun u hu => ?_
      rcases h.holds.best u hu with ⟨i, hi, hid⟩ | ⟨hfull, -⟩
      · exact ⟨_, mem_toList.mpr ⟨i, hi, rfl⟩, hid⟩
      · omega
    · exact Or.inl heq
  · obtain ⟨i, hi, rfl⟩ := mem_toList.mp hnbr
    exact h.expanded i hi (hdone i hi)

/-- **A search** for `k` points, of an index without frozen points. For `k = 0` it
writes its whole queue. -/
theorem search_spec (hfrozen : index.num_frozen_pts = 0) (query : V) (hL : 1 ≤ L) (hkL : k ≤ L)
    {entry_point : ℤ} (hlow : -1 ≤ entry_point) (hhigh : entry_point < index.max_points)
    (scratch : InMemQueryScratch K) :
    ∃ res scratch', Returns (index.search query k L entry_point scratch) (res, scratch') ∧
      0 < res.pool.best_L_nodes.size ∧
      (1 ≤ k → ClosestWritten index query k L
        (if entry_point = -1 then index.start else entry_point.toNat) res) ∧
      (k = 0 → res.written.length = res.pool.best_L_nodes.size) := by
  let entry := if entry_point = -1 then index.start else entry_point.toNat
  have hinit : index.initIds entry_point = [entry] := by
    have hnone : ∀ start, index.initIdsFrom start = [start] := fun start => by
      rw [Index.initIdsFrom, hfrozen]
      rfl
    by_cases hdefault : entry_point = -1
    · rw [Index.initIds, if_pos hdefault, hnone]
      simp only [entry, if_pos hdefault]
    · rw [Index.initIds, if_neg hdefault, hnone, if_neg (by omega)]
      simp only [entry, if_neg hdefault]
  have hentry : entry < index.max_points + index.num_frozen_pts := by
    have := index.start_lt
    simp only [entry]
    split <;> omega
  obtain ⟨s, hret, hinv, hdone⟩ : ∃ s, Returns (index.iterateToFixedPoint query L [entry]
      (scratch.resizeForNewL L).toSearchState) s ∧ SearchInv index query L [entry] s ∧
      ∀ i < s.best_L_nodes.size, (s.best_L_nodes.data i).expanded = true :=
    iterateToFixedPoint_returns hL _ (by simpa using hentry)
  have hlt : ∀ nbr ∈ s.best_L_nodes.toList, nbr.id < index.max_points := by
    intro nbr hnbr
    obtain ⟨i, hi, rfl⟩ := mem_toList.mp hnbr
    have := hinv.lt _ (hinv.holds.mem i hi)
    omega
  have hwritten := writeResults_eq index k hlt 0
  refine ⟨⟨index.writeResults k s.best_L_nodes.toList 0, s⟩,
    s.clear (scratch.resizeForNewL L).L, ?_, (hinv.first hL List.mem_cons_self).1,
    fun hk => ?_, fun hk => ?_⟩
  · rw [Index.search, if_neg (by omega), hinit]
    exact hret.bind (returns_pure _)
  · rw [if_pos (by omega), Nat.sub_zero] at hwritten
    rw [hwritten]
    exact hinv.closestWritten hdone hL hlt List.mem_cons_self
  · rw [if_neg (by omega)] at hwritten
    rw [hwritten, List.length_map, length_toList]

/-- **A search does what it should just when `k` is positive.** -/
theorem search_closestWritten_iff (hfrozen : index.num_frozen_pts = 0) (query : V) (hL : 1 ≤ L)
    (hkL : k ≤ L) {entry_point : ℤ} (hlow : 0 ≤ entry_point)
    (hhigh : entry_point < index.max_points) (scratch : InMemQueryScratch K) :
    (∃ r, Returns (index.search query k L entry_point scratch) r ∧
      ClosestWritten index query k L entry_point.toNat r.1) ↔ 1 ≤ k := by
  obtain ⟨res, scratch', hret, hpos, hclosest, hall⟩ :=
    search_spec hfrozen query hL hkL (by omega) hhigh scratch
  rw [if_neg (by omega)] at hclosest
  constructor
  · rintro ⟨r, hr, hwritten⟩
    obtain rfl := hr.unique hret
    by_contra hzero
    have hk : k = 0 := by omega
    have hlen := hall hk
    have hshort := hwritten.length
    dsimp only at hshort
    omega
  · exact fun hk => ⟨_, hret, hclosest hk⟩

end Output

end Search

end Mqo.Search.Vamana
