import Mqo.Build.VamanaSearch
import Mqo.Lib.Threads

/-!
# MQO — linking a Vamana graph with several threads

`Index::link` of `DiskANN/src/index.cpp`, and `inter_insert`. Each thread goes through the nodes that
the loop has given to it. The lock of a node is held while its list is copied, extended or
replaced, and never for longer, so a step of a thread is one of these and what the thread works
out by itself up to the next one. How the nodes are shared out, and in which order the threads
take their steps, is open.

All is about a set `Z` of nodes that holds the start node: threads whose nodes are in `Z`, in a graph
whose lists lead from `Z` to `Z`, stay there.

* `phaseStep_spec` — what a step does to the graph, and to the node of its thread;
* `link_keeps`     — so every reachable state has lists of distinct nodes, no longer than the
  slack allows, and a node that has been linked keeps having neighbours;
* `link_safe`      — in every order of steps, a thread is stopped only by an assertion about the start
  node;
* `link_finishes`  — without assertions every run ends, and the cleanup leaves a graph of the
  degree that was asked for.
-/

namespace Mqo.Build.Vamana

open Prog Flags Search.Vamana Threads

-- ---------------------------------------------------------------------------
-- The steps of a thread
-- ---------------------------------------------------------------------------

/-- What `link` works with. `slack` is `(uint64_t)(GRAPH_SLACK_FACTOR * range)`; `scratch` is the scratch
space that the search for a node gets. -/
structure Builder (V K : Type) [LinearOrder K] [Zero K] [One K] [Mul K] where
  floats : Floats K
  parameters : Parameters K
  sorting : Sorting K
  index : Index V K
  ndebug : Bool
  slack : ℕ
  scratch : ℕ → InMemQueryScratch K

/-- Where a thread is with its node. -/
inductive Phase (K : Type)
  | searching (s : PointSearch K)
  | setting (pruned_list : List ℕ)
  | inserting (src_pool : List ℕ)
  | pruning (des : ℕ) (copy_of_neighbors : List ℕ) (src_pool : List ℕ)

/-- A thread, with the nodes it has not begun with. -/
inductive Thread (K : Type)
  | idle (visit_order : List ℕ)
  | working (node : ℕ) (phase : Phase K) (visit_order : List ℕ)

/-- The nodes a thread is not done with. -/
def Thread.nodes {K : Type} : Thread K → List ℕ
  | .idle visit_order => visit_order
  | .working node _ visit_order => node :: visit_order

section Functions

variable {V K : Type} [LinearOrder K] [Zero K] [One K] [Add K] [Mul K] [Div K] [Neg K]

omit [LinearOrder K] [Zero K] [One K] [Add K] [Mul K] [Div K] [Neg K] in
/-- The loop that fills `dummy_pool`, with `dummy_visited`. -/
def dummyPool (index : Index V K) (des : ℕ) : List ℕ → List ℕ → List (Neighbor K)
  | [], _ => []
  | cur_nbr :: rest, dummy_visited =>
    if cur_nbr ∉ dummy_visited ∧ cur_nbr ≠ des then
      ⟨cur_nbr, getDistance index des cur_nbr, false⟩ ::
        dummyPool index des rest (cur_nbr :: dummy_visited)
    else dummyPool index des rest dummy_visited

namespace Builder

variable (B : Builder V K)

omit [Add K] [Div K] [Neg K] in
/-- All points, with the frozen ones. -/
def total : ℕ := B.index.max_points + B.index.num_frozen_pts

/-- A list that has become too long is pruned, without a lock. -/
def pruneList (des : ℕ) (copy_of_neighbors : List ℕ) : Run (List ℕ) :=
  pruneNeighbors B.floats B.parameters B.index B.ndebug B.sorting des
    (dummyPool B.index des copy_of_neighbors [])

/-- A step with a node: the phase after it, none if it was the last one, and the graph. -/
def phaseStep (node : ℕ) (graph : ℕ → List ℕ) : Phase K → Run (Option (Phase K) × (ℕ → List ℕ))
  | .searching s =>
    if s.state.best_L_nodes.hasUnexpandedNode then do
      let s ← expand B.index B.ndebug (B.index.data_store node) graph s
      pure (some (.searching s), graph)
    else do
      let pruned_list ← prunePool B.floats B.parameters B.index B.ndebug B.sorting node
        s.expanded_nodes
      pure (some (.setting pruned_list), graph)
  | .setting pruned_list => do
    check B.ndebug (pruned_list.length ≤ B.parameters.indexingRange)
      "_graph_store->get_neighbours((location_t)node).size() <= _indexingRange"
    pure (some (.inserting pruned_list), Function.update graph node pruned_list)
  | .inserting [] => pure (none, graph)
  | .inserting (des :: src_pool) => do
    check B.ndebug (des < B.total) "des < _max_points + _num_frozen_pts"
    pure (if node ∈ graph des then (some (.inserting src_pool), graph)
      else if (graph des).length < B.slack then
        (some (.inserting src_pool), Function.update graph des (graph des ++ [node]))
      else (some (.pruning des (graph des ++ [node]) src_pool), graph))
  | .pruning des copy_of_neighbors src_pool => do
    let new_out_neighbors ← B.pruneList des copy_of_neighbors
    pure (some (.inserting src_pool), Function.update graph des new_out_neighbors)

/-- A step of a thread: the thread and the graph after it. -/
def linkStep (graph : ℕ → List ℕ) : Thread K → Run (Thread K × (ℕ → List ℕ))
  | .idle [] => pure (.idle [], graph)
  | .idle (node :: visit_order) => do
    let s ← startSearch B.index (B.index.data_store node) B.parameters.indexingQueueSize
      (B.scratch node)
    pure (.working node (.searching s) visit_order, graph)
  | .working node phase visit_order => do
    let r ← B.phaseStep node graph phase
    pure (r.1.elim (.idle visit_order) fun phase => .working node phase visit_order, r.2)

/-- The steps of the threads in `T`. -/
def act {Id : Type} (T : Set Id) (t : Id) (l : Thread K) (graph : ℕ → List ℕ) (l' : Thread K)
    (graph' : ℕ → List ℕ) : Prop :=
  t ∈ T ∧ l ≠ .idle [] ∧ Returns (B.linkStep graph l) (l', graph')

/-- One pass of the loop of the final cleanup. -/
def cleanupStep (graph : ℕ → List ℕ) (node : ℕ) : Run (ℕ → List ℕ) :=
  if B.parameters.indexingRange < (graph node).length then do
    let new_out_neighbors ← B.pruneList node (graph node)
    pure (Function.update graph node new_out_neighbors)
  else pure graph

/-- The final cleanup, of lists that are each read and written by one thread only. -/
def cleanup (graph : ℕ → List ℕ) : Run (ℕ → List ℕ) :=
  (List.range B.total).foldlM B.cleanupStep graph

end Builder

end Functions

/-- `dummy_pool` holds each node of the list once. -/
theorem dummyPool_ids {V K : Type} (index : Index V K) (des : ℕ) (l visited : List ℕ) :
    ((dummyPool index des l visited).map Neighbor.id).Nodup ∧
      ∀ u, u ∈ (dummyPool index des l visited).map Neighbor.id ↔ u ∈ l ∧ u ≠ des ∧ u ∉ visited := by
  induction l generalizing visited with
  | nil => simp [dummyPool]
  | cons cur_nbr rest ih =>
    rw [dummyPool]
    split
    · next hnew =>
      obtain ⟨hnodup, hmem⟩ := ih (cur_nbr :: visited)
      refine ⟨?_, fun u => ?_⟩
      · rw [List.map_cons, List.nodup_cons, hmem]
        exact ⟨by simp, hnodup⟩
      · rw [List.map_cons, List.mem_cons, hmem, List.mem_cons, List.mem_cons]
        by_cases hu : u = cur_nbr
        · simp [hu, hnew]
        · simp [hu]
    · next hold =>
      obtain ⟨hnodup, hmem⟩ := ih visited
      refine ⟨hnodup, fun u => ?_⟩
      rw [hmem, List.mem_cons]
      by_cases hu : u = cur_nbr
      · subst hu
        rw [not_and_or, not_not, not_not] at hold
        constructor
        · rintro ⟨-, h⟩
          exact ⟨Or.inl rfl, h⟩
        · rintro ⟨-, hne, hnew⟩
          rcases hold with hold | hold
          · exact absurd hold hnew
          · exact absurd hold hne
      · simp [hu]

section Link

variable {V K : Type} [LinearOrder K] [Zero K] [One K] [Mul K] {B : Builder V K} {Z : Set ℕ}
  {graph graph' : ℕ → List ℕ} {node : ℕ}

-- ---------------------------------------------------------------------------
-- What a step keeps
-- ---------------------------------------------------------------------------

/-- What `link` can work with, on the points of `Z`. -/
structure Builder.Within (B : Builder V K) (Z : Set ℕ) : Prop where
  valid  : B.parameters.Valid B.floats
  frozen : B.index.num_frozen_pts = 0
  start  : B.index.start ∈ Z
  lt     : ∀ u ∈ Z, u < B.total

namespace Builder

/-- The lists of the nodes of `Z`. -/
def GraphOver (B : Builder V K) (Z : Set ℕ) (graph : ℕ → List ℕ) : Prop :=
  ∀ i ∈ Z, NeighborList Z (max B.parameters.indexingRange B.slack) i (graph i)

/-- What steps with nodes of `Z` do not change. -/
structure Kept (B : Builder V K) (Z : Set ℕ) (graph graph' : ℕ → List ℕ) : Prop where
  outside : ∀ i, i ∉ Z → graph' i = graph i
  linked  : ∀ i, i ≠ B.index.start → graph i ≠ [] → graph' i ≠ []

/-- What is known of a node at each phase. -/
def PhaseInv (B : Builder V K) (Z : Set ℕ) (node : ℕ) (graph : ℕ → List ℕ) : Phase K → Prop
  | .searching s => PointSearchInv B.index (B.index.data_store node) B.parameters.indexingQueueSize Z s
  | .setting pruned_list => NeighborList Z B.parameters.indexingRange node pruned_list ∧
      (node ≠ B.index.start → pruned_list ≠ [])
  | .inserting src_pool => (∀ des ∈ src_pool, des ∈ Z ∧ des ≠ node) ∧
      (node ≠ B.index.start → graph node ≠ [])
  | .pruning des copy_of_neighbors src_pool =>
      ((des ∈ Z ∧ des ≠ node) ∧ node ∈ copy_of_neighbors ∧ ∀ u ∈ copy_of_neighbors, u ∈ Z) ∧
      (∀ des ∈ src_pool, des ∈ Z ∧ des ≠ node) ∧ (node ≠ B.index.start → graph node ≠ [])

/-- What is left to do with a node. -/
def phaseMeasure (B : Builder V K) : Phase K → ℕ
  | .searching s =>
    searchMeasure B.index B.parameters.indexingQueueSize s.state + 2 * B.parameters.indexingRange + 3
  | .setting pruned_list => 2 * pruned_list.length + 2
  | .inserting src_pool => 2 * src_pool.length + 1
  | .pruning _ _ src_pool => 2 * src_pool.length + 2

/-- What a step with a node comes to. -/
structure Stepped (B : Builder V K) (Z : Set ℕ) (node : ℕ) (graph : ℕ → List ℕ) (phase : Phase K)
    (r : Option (Phase K) × (ℕ → List ℕ)) : Prop where
  lists : B.GraphOver Z r.2
  kept  : B.Kept Z graph r.2
  next  : ∀ phase', r.1 = some phase' →
    B.PhaseInv Z node r.2 phase' ∧ B.phaseMeasure phase' < B.phaseMeasure phase
  last  : r.1 = none → node ≠ B.index.start → r.2 node ≠ []

theorem Kept.refl (B : Builder V K) (Z : Set ℕ) (graph : ℕ → List ℕ) : B.Kept Z graph graph :=
  ⟨fun _ _ => rfl, fun _ _ h => h⟩

theorem Kept.trans {graph'' : ℕ → List ℕ} (h : B.Kept Z graph graph')
    (h' : B.Kept Z graph' graph'') : B.Kept Z graph graph'' :=
  ⟨fun i hi => (h'.outside i hi).trans (h.outside i hi),
    fun i hi hne => h'.linked i hi (h.linked i hi hne)⟩

/-- A list of `Z` is replaced. -/
theorem Kept.update {i : ℕ} {l : List ℕ} (hi : i ∈ Z)
    (hl : i ≠ B.index.start → graph i ≠ [] → l ≠ []) :
    B.Kept Z graph (Function.update graph i l) := by
  refine ⟨fun j hj => ?_, fun j hj hne => ?_⟩
  · rw [Function.update_of_ne]
    rintro rfl
    exact hj hi
  · by_cases hji : j = i
    · subst hji
      rw [Function.update_self]
      exact hl hj hne
    · rw [Function.update_of_ne hji]
      exact hne

theorem GraphOver.update (h : B.GraphOver Z graph) {i : ℕ} {l : List ℕ}
    (hl : NeighborList Z (max B.parameters.indexingRange B.slack) i l) :
    B.GraphOver Z (Function.update graph i l) := by
  intro j hj
  by_cases hji : j = i
  · rw [hji, Function.update_self]
    exact hl
  · rw [Function.update_of_ne hji]
    exact h j hj

end Builder

variable [Add K] [Div K] [Neg K]

-- ---------------------------------------------------------------------------
-- A step with a node
-- ---------------------------------------------------------------------------

/-- **A list that is pruned** stays a list of neighbours, and does not become empty. -/
theorem pruneList_returns (hP : B.parameters.Valid B.floats) (des : ℕ) {l : List ℕ}
    (hmem : ∀ u ∈ l, u ∈ Z) :
    ∃ l', Returns (B.pruneList des l) l' ∧ NeighborList Z B.parameters.indexingRange des l' ∧
      ((∃ u ∈ l, u ≠ des) → l' ≠ []) := by
  obtain ⟨hnodup, hids⟩ := dummyPool_ids B.index des l []
  obtain ⟨l', hret, hpruned⟩ := pruneNeighbors_returns hP hnodup
    (fun hdes => ((hids des).mp hdes).2.1 rfl) B.index B.sorting B.ndebug
  refine ⟨l', hret, hpruned.neighborList fun u hu => hmem u ((hids u).mp hu).1, ?_⟩
  rintro ⟨u, hu, hne⟩
  refine hpruned.pos fun hnil => ?_
  have hin := (hids u).mpr ⟨hu, hne, List.not_mem_nil⟩
  rw [hnil] at hin
  exact absurd hin List.not_mem_nil

namespace Builder

variable (hB : B.Within Z) (hnode : node ∈ Z) (hgraph : B.GraphOver Z graph)

include hB hgraph

/-- **Searching.** -/
theorem searching_spec {s : PointSearch K} (h : B.PhaseInv Z node graph (.searching s)) :
    ∃ r, B.Stepped Z node graph (.searching s) r ∧
      (Returns (B.phaseStep node graph (.searching s)) r ∨ B.ndebug = false ∧ node = B.index.start ∧
        Fails (B.phaseStep node graph (.searching s)) (.assertFailed "!pruned_list.empty()")) := by
  cases hgo : s.state.best_L_nodes.hasUnexpandedNode with
  | true =>
    obtain ⟨s', hret, hinv, hlt, -⟩ := expand_spec hB.valid.queue hB.lt h hgo B.ndebug
      fun i hi u hu => ((hgraph i hi).mem u hu).1
    refine ⟨(some (.searching s'), graph), ⟨hgraph, .refl B Z graph, ?_, fun hnone => by cases hnone⟩,
      Or.inl ?_⟩
    · rintro _ ⟨⟩
      refine ⟨hinv, ?_⟩
      simp only [phaseMeasure]
      omega
    · rw [phaseStep, if_pos hgo]
      exact hret.bind (returns_pure _)
  | false =>
    have hdone : s.expanded_nodes ≠ [] := by
      intro hnil
      rw [NeighborPriorityQueue.hasUnexpandedNode, decide_eq_true (h.first hnil).1] at hgo
      cases hgo
    obtain ⟨l, hlist, hne, hret⟩ := prunePool_spec hB.valid h hdone B.sorting B.ndebug node
    refine ⟨(some (.setting l), graph), ⟨hgraph, .refl B Z graph, ?_, fun hnone => by cases hnone⟩, ?_⟩
    · rintro _ ⟨⟩
      refine ⟨⟨hlist, hne⟩, ?_⟩
      have hlen := hlist.length
      simp only [phaseMeasure]
      omega
    · rw [phaseStep, if_neg (by rw [hgo]; decide)]
      rcases hret with hret | ⟨hdebug, hstart, hfail⟩
      · exact Or.inl (hret.bind (returns_pure _))
      · exact Or.inr ⟨hdebug, hstart, hfail.bind⟩

include hnode

omit hB in
/-- **Setting the list of the node.** -/
theorem setting_spec {l : List ℕ} (h : B.PhaseInv Z node graph (.setting l)) :
    ∃ r, B.Stepped Z node graph (.setting l) r ∧ Returns (B.phaseStep node graph (.setting l)) r := by
  obtain ⟨hlist, hne⟩ := h
  have hbound : NeighborList Z (max B.parameters.indexingRange B.slack) node l :=
    ⟨hlist.length.trans (le_max_left _ _), hlist.nodup, hlist.mem⟩
  refine ⟨(some (.inserting l), Function.update graph node l), ⟨hgraph.update hbound,
    .update hnode fun hstart _ => hne hstart, ?_, fun hnone => by cases hnone⟩,
    (check_returns hlist.length).bind (returns_pure _)⟩
  rintro _ ⟨⟩
  refine ⟨⟨hlist.mem, fun hstart => ?_⟩, Nat.lt_succ_self _⟩
  dsimp only
  rw [Function.update_self]
  exact hne hstart

/-- **Inserting the node** into the list of one of its neighbours. -/
theorem inserting_spec {des : ℕ} {l : List ℕ}
    (h : B.PhaseInv Z node graph (.inserting (des :: l))) :
    ∃ r, B.Stepped Z node graph (.inserting (des :: l)) r ∧
      Returns (B.phaseStep node graph (.inserting (des :: l))) r := by
  obtain ⟨hmem, hlinked⟩ := h
  obtain ⟨hdes, hne⟩ := hmem des List.mem_cons_self
  have hrest : ∀ des ∈ l, des ∈ Z ∧ des ≠ node := fun d hd => hmem d (List.mem_cons_of_mem _ hd)
  refine ⟨if node ∈ graph des then (some (.inserting l), graph)
    else if (graph des).length < B.slack then
      (some (.inserting l), Function.update graph des (graph des ++ [node]))
    else (some (.pruning des (graph des ++ [node]) l), graph), ?_,
    (check_returns (hB.lt des hdes)).bind (returns_pure _)⟩
  by_cases hold : node ∈ graph des
  · rw [if_pos hold]
    refine ⟨hgraph, .refl B Z graph, ?_, fun hnone => by cases hnone⟩
    rintro _ ⟨⟩
    refine ⟨⟨hrest, hlinked⟩, ?_⟩
    simp only [phaseMeasure, List.length_cons]
    omega
  rw [if_neg hold]
  by_cases hroom : (graph des).length < B.slack
  · rw [if_pos hroom]
    have hlist := hgraph des hdes
    have hkept : B.Kept Z graph (Function.update graph des (graph des ++ [node])) :=
      .update hdes fun _ _ => by simp
    refine ⟨hgraph.update ⟨?_, ?_, fun u hu => ?_⟩, hkept, ?_, fun hnone => by cases hnone⟩
    · rw [List.length_append, List.length_singleton]
      exact le_max_of_le_right hroom
    · rw [List.nodup_append]
      refine ⟨hlist.nodup, List.nodup_singleton _, fun u hu v hv huv => ?_⟩
      rw [List.mem_singleton.mp hv] at huv
      exact hold (huv ▸ hu)
    · rcases List.mem_append.mp hu with hu | hu
      · exact hlist.mem u hu
      · rw [List.mem_singleton.mp hu]
        exact ⟨hnode, hne.symm⟩
    · rintro _ ⟨⟩
      refine ⟨⟨hrest, fun hstart => hkept.linked node hstart (hlinked hstart)⟩, ?_⟩
      simp only [phaseMeasure, List.length_cons]
      omega
  · rw [if_neg hroom]
    refine ⟨hgraph, .refl B Z graph, ?_, fun hnone => by cases hnone⟩
    rintro _ ⟨⟩
    refine ⟨⟨⟨⟨hdes, hne⟩, by simp, fun u hu => ?_⟩, hrest, hlinked⟩, ?_⟩
    · rcases List.mem_append.mp hu with hu | hu
      · exact ((hgraph des hdes).mem u hu).1
      · rw [List.mem_singleton.mp hu]
        exact hnode
    · simp only [phaseMeasure, List.length_cons]
      omega

omit hnode

/-- **Pruning the list of a neighbour.** It is replaced, whatever has happened to it meanwhile. -/
theorem pruning_spec {des : ℕ} {copy l : List ℕ}
    (h : B.PhaseInv Z node graph (.pruning des copy l)) :
    ∃ r, B.Stepped Z node graph (.pruning des copy l) r ∧
      Returns (B.phaseStep node graph (.pruning des copy l)) r := by
  obtain ⟨⟨⟨hdes, hne⟩, hin, hcopy⟩, hrest, hlinked⟩ := h
  obtain ⟨l', hret, hlist, hpos⟩ := pruneList_returns hB.valid des hcopy
  have hkept : B.Kept Z graph (Function.update graph des l') :=
    .update hdes fun _ _ => hpos ⟨node, hin, hne.symm⟩
  refine ⟨(some (.inserting l), Function.update graph des l'),
    ⟨hgraph.update ⟨hlist.length.trans (le_max_left _ _), hlist.nodup, hlist.mem⟩, hkept, ?_,
      fun hnone => by cases hnone⟩, hret.bind (returns_pure _)⟩
  rintro _ ⟨⟩
  exact ⟨⟨hrest, fun hstart => hkept.linked node hstart (hlinked hstart)⟩, Nat.lt_succ_self _⟩

include hnode

/-- **One step with a node.** -/
theorem phaseStep_spec {phase : Phase K} (h : B.PhaseInv Z node graph phase) :
    ∃ r, B.Stepped Z node graph phase r ∧
      (Returns (B.phaseStep node graph phase) r ∨ B.ndebug = false ∧ node = B.index.start ∧
        Fails (B.phaseStep node graph phase) (.assertFailed "!pruned_list.empty()")) := by
  cases phase with
  | searching s => exact searching_spec hB hgraph h
  | setting l =>
    obtain ⟨r, hr, hret⟩ := setting_spec hnode hgraph h
    exact ⟨r, hr, Or.inl hret⟩
  | pruning des copy l =>
    obtain ⟨r, hr, hret⟩ := pruning_spec hB hgraph h
    exact ⟨r, hr, Or.inl hret⟩
  | inserting l =>
    cases l with
    | nil =>
      refine ⟨(none, graph), ⟨hgraph, .refl B Z graph, fun phase hphase => ?_, fun _ => h.2⟩,
        Or.inl (returns_pure _)⟩
      cases hphase
    | cons des l =>
      obtain ⟨r, hr, hret⟩ := inserting_spec hB hnode hgraph h
      exact ⟨r, hr, Or.inl hret⟩

omit hB hnode hgraph

-- ---------------------------------------------------------------------------
-- A step of a thread
-- ---------------------------------------------------------------------------

omit [Add K] [Div K] [Neg K] in
theorem PhaseInv.kept {phase : Phase K} (h : B.PhaseInv Z node graph phase)
    (hkept : B.Kept Z graph graph') : B.PhaseInv Z node graph' phase := by
  cases phase with
  | searching s => exact h
  | setting l => exact h
  | inserting l => exact ⟨h.1, fun hstart => hkept.linked node hstart (h.2 hstart)⟩
  | pruning des copy l => exact ⟨h.1, h.2.1, fun hstart => hkept.linked node hstart (h.2.2 hstart)⟩

/-- What is known of a thread that has been given the nodes `work`: those it is done with have
neighbours, but for the start node. -/
structure ThreadInv (B : Builder V K) (Z : Set ℕ) (work : List ℕ) (l : Thread K) (graph : ℕ → List ℕ) :
    Prop where
  done  : ∃ pre, work = pre ++ l.nodes ∧ ∀ n ∈ pre, n ≠ B.index.start → graph n ≠ []
  phase : ∀ node phase visit_order, l = .working node phase visit_order →
    B.PhaseInv Z node graph phase

/-- What is left to do for a thread. -/
def threadMeasure (B : Builder V K) : Thread K → ℕ
  | .idle visit_order => visit_order.length * (B.total * (B.parameters.indexingQueueSize + 1) +
      B.parameters.indexingQueueSize + 2 * B.parameters.indexingRange + 4)
  | .working _ phase visit_order => B.phaseMeasure phase + visit_order.length *
      (B.total * (B.parameters.indexingQueueSize + 1) + B.parameters.indexingQueueSize +
        2 * B.parameters.indexingRange + 4)

omit [Add K] [Div K] [Neg K] in
theorem ThreadInv.kept {work : List ℕ} {l : Thread K} (h : B.ThreadInv Z work l graph)
    (hkept : B.Kept Z graph graph') : B.ThreadInv Z work l graph' := by
  obtain ⟨pre, hwork, hdone⟩ := h.done
  exact ⟨⟨pre, hwork, fun n hn hstart => hkept.linked n hstart (hdone n hn hstart)⟩,
    fun node phase vo hl => (h.phase node phase vo hl).kept hkept⟩

/-- **One step of a thread** that is not done. -/
theorem linkStep_spec (hB : B.Within Z) {work : List ℕ} (hwork : ∀ n ∈ work, n ∈ Z)
    (hgraph : B.GraphOver Z graph) {l : Thread K} (hl : l ≠ .idle []) (h : B.ThreadInv Z work l graph) :
    ∃ r, (B.GraphOver Z r.2 ∧ B.Kept Z graph r.2 ∧ B.ThreadInv Z work r.1 r.2 ∧
        B.threadMeasure r.1 < B.threadMeasure l) ∧
      (Returns (B.linkStep graph l) r ∨ B.ndebug = false ∧
        (∃ phase visit_order, l = .working B.index.start phase visit_order) ∧
        Fails (B.linkStep graph l) (.assertFailed "!pruned_list.empty()")) := by
  obtain ⟨pre, hsplit, hdone⟩ := h.done
  cases l with
  | idle visit_order =>
    cases visit_order with
    | nil => exact absurd rfl hl
    | cons node visit_order =>
      obtain ⟨s, hret, hinv, -⟩ := startSearch_returns hB.frozen hB.valid.queue hB.start
        (B.index.data_store node) (B.scratch node)
      refine ⟨(.working node (.searching s) visit_order, graph), ⟨hgraph, .refl B Z graph,
        ⟨⟨pre, hsplit, hdone⟩, ?_⟩, ?_⟩, Or.inl (hret.bind (returns_pure _))⟩
      · rintro _ _ _ ⟨⟩
        exact hinv
      · have hcard : (unset B.total s.state.inserted_into_pool).card ≤ B.total :=
          (Finset.card_filter_le _ _).trans_eq (Finset.card_range _)
        have hmul := Nat.mul_le_mul_right (B.parameters.indexingQueueSize + 1) hcard
        have hsize := hinv.holds.size
        simp only [threadMeasure, phaseMeasure, searchMeasure, List.length_cons, Nat.succ_mul, total]
          at hmul ⊢
        omega
  | working node phase visit_order =>
    have hnode : node ∈ Z := hwork node (by rw [hsplit]; simp [Thread.nodes])
    obtain ⟨⟨next, graph'⟩, hstepped, hret⟩ :=
      phaseStep_spec hB hnode hgraph (h.phase node phase visit_order rfl)
    refine ⟨(next.elim (.idle visit_order) fun phase => .working node phase visit_order, graph'),
      ⟨hstepped.lists, hstepped.kept, ?_, ?_⟩, ?_⟩
    · have hdone' : ∀ n ∈ pre, n ≠ B.index.start → graph' n ≠ [] :=
        fun n hn hstart => hstepped.kept.linked n hstart (hdone n hn hstart)
      cases next with
      | none =>
        refine ⟨⟨pre ++ [node], by rw [hsplit]; simp [Thread.nodes], fun n hn => ?_⟩, ?_⟩
        · rcases List.mem_append.mp hn with hn | hn
          · exact hdone' n hn
          · rw [List.mem_singleton.mp hn]
            exact hstepped.last rfl
        · rintro _ _ _ ⟨⟩
      | some phase' =>
        refine ⟨⟨pre, hsplit, hdone'⟩, ?_⟩
        rintro _ _ _ ⟨⟩
        exact (hstepped.next phase' rfl).1
    · cases next with
      | none =>
        have hpos : 0 < B.phaseMeasure phase := by
          cases phase <;> simp [phaseMeasure]
        simp only [Option.elim, threadMeasure]
        omega
      | some phase' =>
        have hlt := (hstepped.next phase' rfl).2
        simp only [Option.elim, threadMeasure]
        omega
    · rcases hret with hret | ⟨hdebug, hstart, hfail⟩
      · exact Or.inl (hret.bind (returns_pure _))
      · exact Or.inr ⟨hdebug, ⟨phase, visit_order, by rw [hstart]⟩, hfail.bind⟩

-- ---------------------------------------------------------------------------
-- Runs of all threads
-- ---------------------------------------------------------------------------

section Runs

variable {Id : Type} {T : Set Id} {work : Id → List ℕ}

/-- A step that is taken. -/
theorem act_spec (hB : B.Within Z) (hwork : ∀ t ∈ T, ∀ n ∈ work t, n ∈ Z)
    (hgraph : B.GraphOver Z graph) {t : Id} {l l' : Thread K}
    (h : t ∈ T → B.ThreadInv Z (work t) l graph) (hact : B.act T t l graph l' graph') :
    B.GraphOver Z graph' ∧ B.Kept Z graph graph' ∧ B.ThreadInv Z (work t) l' graph' ∧
      B.threadMeasure l' < B.threadMeasure l := by
  obtain ⟨ht, hl, hret⟩ := hact
  obtain ⟨r, hr, hret' | ⟨-, -, hfail⟩⟩ := linkStep_spec hB (hwork t ht) hgraph hl (h ht)
  · obtain rfl := hret.unique hret'
    exact hr
  · exact absurd hfail hret.not_fails

/-- **What all threads keep.** -/
theorem link_keeps (hB : B.Within Z) (hwork : ∀ t ∈ T, ∀ n ∈ work t, n ∈ Z) :
    Keeps (B.act T) (B.GraphOver Z) fun t l graph => t ∈ T → B.ThreadInv Z (work t) l graph where
  own hgraph h hact := by
    obtain ⟨hgraph', -, hinv, -⟩ := act_spec hB hwork hgraph h hact
    exact ⟨hgraph', fun _ => hinv⟩
  other _ hgraph h hu hact ht :=
    (hu ht).kept (act_spec hB hwork hgraph h hact).2.1

/-- Before the loop: no node has a list. -/
def initial (K : Type) (work : Id → List ℕ) : State Id (Thread K) (ℕ → List ℕ) :=
  ⟨fun t => .idle (work t), fun _ => []⟩

omit [Add K] [Div K] [Neg K] in
theorem initial_holds (work : Id → List ℕ) :
    Holds (B.GraphOver Z) (fun t l graph => t ∈ T → B.ThreadInv Z (work t) l graph)
      (initial K work) := by
  refine ⟨fun i _ => ⟨Nat.zero_le _, List.nodup_nil, fun u hu => absurd hu List.not_mem_nil⟩,
    fun t _ => ⟨⟨[], rfl, fun n hn => absurd hn List.not_mem_nil⟩, ?_⟩⟩
  rintro _ _ _ ⟨⟩

variable [DecidableEq Id]

/-- **The threads of `T` can finish**, without assertions, while the others wait. -/
theorem finishes_within [Fintype Id] (hB : B.Within Z) (hndebug : B.ndebug = true)
    (hwork : ∀ t ∈ T, ∀ n ∈ work t, n ∈ Z) {s : State Id (Thread K) (ℕ → List ℕ)}
    (hs : Holds (B.GraphOver Z) (fun t l graph => t ∈ T → B.ThreadInv Z (work t) l graph) s) :
    ∃ s', Threads.Run (B.act Set.univ) s s' ∧ (∀ t ∈ T, s'.own t = .idle []) ∧
      (∀ t, t ∉ T → s'.own t = s.own t) ∧ B.GraphOver Z s'.shared ∧ B.Kept Z s.shared s'.shared := by
  have hkeeps : Keeps (B.act T) _ _ := link_keeps hB hwork
  obtain ⟨s', hrun, hdone⟩ := hkeeps.finishes (μ := fun _ => B.threadMeasure)
    (D := fun t l => t ∈ T → l = .idle [])
    (fun t l m l' m' hgraph h hact => (act_spec hB hwork hgraph h hact).2.2.2)
    (fun t l graph hgraph h hnot => by
      obtain ⟨ht, hl⟩ := Classical.not_imp.mp hnot
      obtain ⟨⟨l', graph'⟩, -, hret | ⟨hdebug, -⟩⟩ := linkStep_spec hB (hwork t ht) hgraph hl (h ht)
      · exact ⟨l', graph', ht, hl, hret⟩
      · rw [hndebug] at hdebug
        cases hdebug) hs
  refine ⟨s', hrun.mono fun hact => ⟨trivial, hact.2⟩, hdone, fun t ht => ?_, (hkeeps.run hrun hs).1, ?_⟩
  · exact hrun.own_eq fun l m l' m' hact => ht hact.1
  · exact hkeeps.relates (R := B.Kept Z) (Kept.refl B Z) (fun _ _ _ h h' => h.trans h')
      (fun hgraph h hact => (act_spec hB hwork hgraph h hact).2.1) hrun hs

/-- **Every reachable state is safe**, however the nodes are shared out and in whichever order the
threads take their steps: lists are of distinct other points, and not longer than the slack
allows; a node that a thread is done with has neighbours, but for the start node; and a thread
that is not done can take its step, unless an assertion fails for the start node. -/
theorem link_safe (hP : B.parameters.Valid B.floats) (hfrozen : B.index.num_frozen_pts = 0)
    (hwork : ∀ t, ∀ n ∈ work t, n < B.total) {s : State Id (Thread K) (ℕ → List ℕ)}
    (hrun : Threads.Run (B.act Set.univ) (initial K work) s) :
    (∀ i < B.total, NeighborList {u | u < B.total} (max B.parameters.indexingRange B.slack) i
      (s.shared i)) ∧
    (∀ t, ∃ pre, work t = pre ++ (s.own t).nodes ∧
      ∀ n ∈ pre, n ≠ B.index.start → s.shared n ≠ []) ∧
    ∀ t, s.own t = .idle [] ∨ (∃ r, Returns (B.linkStep s.shared (s.own t)) r) ∨
      B.ndebug = false ∧ (∃ phase visit_order, s.own t = .working B.index.start phase visit_order) ∧
        Fails (B.linkStep s.shared (s.own t)) (.assertFailed "!pruned_list.empty()") := by
  have hB : B.Within {u | u < B.total} := ⟨hP, hfrozen, B.index.start_lt, fun _ hu => hu⟩
  have hkeeps : Keeps (B.act Set.univ) _ _ := link_keeps hB fun t _ => hwork t
  obtain ⟨hgraph, hthreads⟩ := hkeeps.run hrun (initial_holds work)
  refine ⟨hgraph, fun t => (hthreads t trivial).done, fun t => ?_⟩
  by_cases hl : s.own t = .idle []
  · exact Or.inl hl
  · obtain ⟨r, -, hret⟩ := linkStep_spec hB (hwork t) hgraph hl (hthreads t trivial)
    exact Or.inr (hret.imp_left fun hret => ⟨r, hret⟩)

omit [DecidableEq Id] in
/-- **One pass of the cleanup.** -/
theorem cleanupStep_spec (hP : B.parameters.Valid B.floats) {graph : ℕ → List ℕ} {bound node : ℕ}
    (h : NeighborList Z bound node (graph node)) :
    ∃ l, Returns (B.cleanupStep graph node) (Function.update graph node l) ∧
      NeighborList Z B.parameters.indexingRange node l ∧ l ⊆ graph node ∧ (graph node ≠ [] → l ≠ []) := by
  unfold cleanupStep
  split
  · obtain ⟨l, hret, hlist, hpos⟩ := pruneList_returns (Z := {u | u ∈ graph node}) hP node fun u hu => hu
    refine ⟨l, hret.bind (returns_pure _), ⟨hlist.length, hlist.nodup, fun u hu => ?_⟩,
      fun u hu => (hlist.mem u hu).1, fun hne => ?_⟩
    · exact h.mem u (hlist.mem u hu).1
    · obtain ⟨u, hu⟩ := List.exists_mem_of_ne_nil _ hne
      exact hpos ⟨u, hu, (h.mem u hu).2⟩
  · next hshort =>
    refine ⟨graph node, ?_, ⟨not_lt.mp hshort, h.nodup, h.mem⟩, List.Subset.refl _, id⟩
    rw [Function.update_eq_self]
    exact returns_pure _

/-- What the cleanup makes of a graph. -/
structure Cleaned (B : Builder V K) (graph graph' : ℕ → List ℕ) : Prop where
  lists  : ∀ i < B.total, NeighborList {u | u < B.total} B.parameters.indexingRange i (graph' i)
  subset : ∀ i, graph' i ⊆ graph i
  linked : ∀ i, graph i ≠ [] → graph' i ≠ []

omit [DecidableEq Id] in
/-- **The cleanup.** -/
theorem cleanup_returns (hP : B.parameters.Valid B.floats) {graph : ℕ → List ℕ} {bound : ℕ}
    (hlists : ∀ i < B.total, NeighborList {u | u < B.total} bound i (graph i)) :
    ∃ graph', Returns (B.cleanup graph) graph' ∧ B.Cleaned graph graph' := by
  obtain ⟨graph', hret, hlists', hold, hsub, hpos⟩ := range_returns (f := B.cleanupStep)
    (fun i g => (∀ j < i, NeighborList {u | u < B.total} B.parameters.indexingRange j (g j)) ∧
        (∀ j, i ≤ j → g j = graph j) ∧ (∀ j, g j ⊆ graph j) ∧ ∀ j, graph j ≠ [] → g j ≠ [])
    (n := B.total)
    (fun i hi g ⟨hlists', hold, hsub, hpos⟩ => by
      have hi' := hlists i hi
      rw [← hold i le_rfl] at hi'
      obtain ⟨l, hret, hlist, hl, hne⟩ := cleanupStep_spec hP hi'
      refine ⟨_, hret, fun j hj => ?_, fun j hj => ?_, fun j => ?_, fun j hj => ?_⟩
      · by_cases hji : j = i
        · rw [hji, Function.update_self]
          exact hlist
        · rw [Function.update_of_ne hji]
          exact hlists' j (by omega)
      · rw [Function.update_of_ne (by omega)]
        exact hold j (by omega)
      · by_cases hji : j = i
        · rw [hji, Function.update_self]
          exact List.Subset.trans hl (hsub i)
        · rw [Function.update_of_ne hji]
          exact hsub j
      · by_cases hji : j = i
        · subst hji
          rw [Function.update_self]
          exact hne (hpos j hj)
        · rw [Function.update_of_ne hji]
          exact hpos j hj)
    (s := graph) ⟨fun j hj => absurd hj (Nat.not_lt_zero j), fun j _ => rfl,
      fun j => List.Subset.refl _, fun j hj => hj⟩
  exact ⟨graph', hret, hlists', hsub, hpos⟩

end Runs

/-- A scratch space that has not been used. -/
def unusedScratch : InMemQueryScratch ℚ where
  best_L_nodes := ⟨0, 50, 0, fun _ => ⟨0, 0, false⟩⟩
  inserted_into_pool _ := false
  L := 50
  size_eq := rfl
  cur_eq := rfl
  inserted_eq _ := rfl

/-- A point in the middle of two heaps of points. -/
def twoHeaps : Index ℚ ℚ where
  max_points := 4096
  num_frozen_pts := 0
  start := 0
  dist_metric := .L2
  data_store i := if i = 0 then 0 else if i % 2 = 0 then 1 else -1
  compare a b := (a - b) * (a - b)
  graph_store _ := []
  start_lt := by decide
  graph_lt _ _ _ hu := absurd hu List.not_mem_nil

/-- Building its graph as the program does, without assertions. -/
def twoHeapsBuilder : Builder ℚ ℚ where
  floats := exactFloats
  parameters := ⟨32, 750, 12 / 10, 50, false⟩
  sorting := mergeSorting ℚ
  index := twoHeaps
  ndebug := true
  slack := 41
  scratch _ := unusedScratch

/-- The chunks of the loop. -/
def chunk (t : Fin 2) : List ℕ := List.range' (2048 * t.val) 2048

theorem twoHeapsBuilder_valid : twoHeapsBuilder.parameters.Valid twoHeapsBuilder.floats :=
  ⟨by decide, by decide, by norm_num [twoHeapsBuilder], by norm_num [twoHeapsBuilder, exactFloats],
    by decide⟩

theorem chunk_lt (t : Fin 2) : ∀ n ∈ chunk t, n < twoHeapsBuilder.total := by
  intro n hn
  rw [chunk, List.mem_range'_1] at hn
  show n < 4096 + 0
  omega

/-- A state in which both threads are done. -/
theorem twoHeaps_safe : ∃ s : State (Fin 2) (Thread ℚ) (ℕ → List ℕ), (∀ t, s.own t = .idle []) ∧
    (∀ i < twoHeapsBuilder.total, NeighborList {u | u < twoHeapsBuilder.total} 41 i (s.shared i)) ∧
    (∀ t, ∃ pre, chunk t = pre ++ (s.own t).nodes ∧
      ∀ n ∈ pre, n ≠ twoHeapsBuilder.index.start → s.shared n ≠ []) := by
  obtain ⟨s, hrun, hdone, -⟩ := finishes_within (T := Set.univ) (B := twoHeapsBuilder)
    ⟨twoHeapsBuilder_valid, rfl, twoHeaps.start_lt, fun _ hu => hu⟩ rfl (fun t _ => chunk_lt t)
    (initial_holds chunk)
  obtain ⟨hlists, hlinked, -⟩ := link_safe twoHeapsBuilder_valid rfl chunk_lt hrun
  exact ⟨s, fun t => hdone t trivial, hlists, hlinked⟩

end Builder

end Link

end Mqo.Build.Vamana
