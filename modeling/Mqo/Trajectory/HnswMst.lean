import Mqo.Lib.Flags
import Mqo.Lib.SpanningForest
import Mqo.Trajectory.Groups
import Mqo.Trajectory.HnswIndex
import Mqo.Trajectory.Prim

/-!
# MQO — spanning forests of an HNSW graph

`get_neighbors`, `approximateMSTUsingHNSW` and
`approximateMSTUsingHNSW_undirected` of `mqo/ann/build_mst_from_ann.hpp`: a
lazy Prim search that starts a new tree at the smallest vertex not visited
yet. The first function searches along the stored links, the second one along
an adjacency list that it fills from the links to larger ids.

* `buildAdjacency_returns` — what the adjacency list holds;
* `visit_spec`  — one visit keeps the invariant `ForestInv`;
* `growTrees_spec` — the search ends, visits every vertex once, and records a
  spanning forest (`ForestSteps`).
-/

namespace Mqo

open Prog StackTraversal SpanningForest

variable {F D : Type} [Scalar F] [Scalar D] [Widen F D]

-- ---------------------------------------------------------------------------
-- The functions
-- ---------------------------------------------------------------------------

/-- The distance that `get_neighbors` attaches to a link: the root of the distance
the space computes. -/
def linkDistance (index : HierarchicalNSW F) (v nbId : ℕ) : F :=
  Scalar.sqrt (index.fstdistfunc (index.data v) (index.data nbId))

/-- `get_neighbors`: the level-0 list of `v` with its distances. -/
def getNeighbors (index : HierarchicalNSW F) (v : ℕ) : List (ℕ × F) :=
  (index.linklist0 v).map fun nbId => (nbId, linkDistance index v nbId)

/-- Neighbours with the weight of the edge. -/
abbrev Adjacency (F : Type) := ℕ → List (ℕ × F)

/-- A neighbour `u` of `v` that is larger than `v` is entered in both lists. -/
def addLink (n_query v : ℕ) (adj : Adjacency F) (pr : ℕ × F) : Run (Adjacency F) :=
  let u := pr.1
  let d := pr.2
  if u > v then
    if u < n_query then
      let adj := Function.update adj v (adj v ++ [(u, d)])
      pure (Function.update adj u (adj u ++ [(v, d)]))
    else fault .outOfRange -- `adj[u]`
  else pure adj

/-- The adjacency list of `approximateMSTUsingHNSW_undirected`. -/
def buildAdjacency (index : HierarchicalNSW F) (n_query : ℕ) : Run (Adjacency F) :=
  (List.range n_query).foldlM (fun adj v => (getNeighbors index v).foldlM (addLink n_query v) adj)
    (fun _ => [])

/-- The state of a search; a `PQItem` has the fields of a `PrimStep`. -/
structure SearchState (Q : PriorityQueue (PrimStep F)) where
  pq : Q.Heap
  visited : ℕ → Bool
  steps : List (PrimStep F)
  components : ℕ

/-- The neighbours of `v` not visited are pushed. -/
def pushNeighbours (Q : PriorityQueue (PrimStep F)) (visited : ℕ → Bool) (v : ℕ)
    (nbrs : List (ℕ × F)) (pq : Q.Heap) : Q.Heap :=
  nbrs.foldl (fun pq e => if !visited e.1 then Q.push pq ⟨e.1, some v, e.2⟩ else pq) pq

/-- A vertex is marked and recorded, and its neighbours are pushed. -/
def visit (Q : PriorityQueue (PrimStep F)) (n_query : ℕ) (adj : Adjacency F) (s : SearchState Q)
    (it : PrimStep F) : Run (SearchState Q) :=
  let visited := Function.update s.visited it.node true
  if ∀ e ∈ adj it.node, e.1 < n_query then
    pure { s with
      pq := pushNeighbours Q visited it.node (adj it.node) s.pq
      visited := visited
      steps := s.steps ++ [it] }
  else fault .outOfRange -- `visited[u]`

/-- One iteration of the queue loop. -/
def popStep (Q : PriorityQueue (PrimStep F)) (n_query : ℕ) (adj : Adjacency F)
    (s : SearchState Q) : Run (SearchState Q ⊕ SearchState Q) :=
  match Q.top s.pq with
  | none => pure (.inr s)
  | some it => do
    let s := { s with pq := Q.pop s.pq }
    if s.visited it.node then pure (.inl s)
    else
      let s ← visit Q n_query adj s it
      pure (.inl s)

/-- The tree of a vertex of `approximateMSTUsingHNSW_undirected`: the vertex is
pushed and the queue emptied. -/
def growTree (Q : PriorityQueue (PrimStep F)) (n_query : ℕ) (adj : Adjacency F)
    (s : SearchState Q) (start : ℕ) : Run (SearchState Q) :=
  if s.visited start then pure s
  else
    loop (popStep Q n_query adj)
      { s with pq := Q.push s.pq ⟨start, none, 0⟩, components := s.components + 1 }

/-- The tree of a vertex of `approximateMSTUsingHNSW`: the vertex is visited
before the queue is emptied. -/
def growTreeDirected (Q : PriorityQueue (PrimStep F)) (n_query : ℕ) (adj : Adjacency F)
    (s : SearchState Q) (start : ℕ) : Run (SearchState Q) :=
  if s.visited start then pure s
  else do
    let s ← visit Q n_query adj { s with components := s.components + 1 } ⟨start, none, 0⟩
    loop (popStep Q n_query adj) s

/-- The state before the first tree. -/
def initSearch (Q : PriorityQueue (PrimStep F)) : SearchState Q :=
  ⟨Q.empty, fun _ => false, [], 0⟩

/-- The mean over the edges used, `0` where there is none. -/
def averageOver (totalDist : D) (usedEdges : ℤ) : D :=
  if usedEdges > 0 then totalDist / Scalar.ofInt usedEdges else 0

/-- `approximateMSTUsingHNSW` -/
def approximateMSTUsingHNSW (Q : PriorityQueue (PrimStep F)) (index : HierarchicalNSW F)
    (n_query : ℕ) : Run (Trajectory × D) := do
  let final ← (List.range n_query).foldlM
    (growTreeDirected Q n_query (getNeighbors index)) (initSearch Q)
  let totalDist := final.steps.foldl (fun (total : D) it =>
    if it.parent = none then total else total + widen it.weight) 0
  pure (final.steps.map PrimStep.entry, averageOver totalDist (n_query - final.components))

/-- `approximateMSTUsingHNSW_undirected` -/
def approximateMSTUsingHNSWUndirected (Q : PriorityQueue (PrimStep F))
    (index : HierarchicalNSW F) (n_query : ℕ) : Run (Trajectory × D) := do
  let adj ← buildAdjacency index n_query
  let final ← (List.range n_query).foldlM (growTree Q n_query adj) (initSearch Q)
  let totalDist := final.steps.foldl (fun (total : D) it => total + widen it.weight) 0
  pure (final.steps.map PrimStep.entry, averageOver totalDist (n_query - final.components))

-- ---------------------------------------------------------------------------
-- The adjacency list
-- ---------------------------------------------------------------------------

/-- Every level-0 list holds only ids below `n`. -/
def LinksInRange (index : HierarchicalNSW F) (n : ℕ) : Prop :=
  ∀ v < n, ∀ u ∈ index.linklist0 v, u < n

/-- The entry (u, d) of `adj[v]` comes from a link between `v` and `u` that is
stored at the smaller of the two, and has been processed. -/
def FromLink (links : List (ℕ × (ℕ × F))) (v u : ℕ) (d : F) : Prop :=
  (v < u ∧ (v, (u, d)) ∈ links) ∨ (u < v ∧ (u, (v, d)) ∈ links)

omit [Scalar F] in
theorem fromLink_append {links links' : List (ℕ × (ℕ × F))} {v u : ℕ} {d : F} :
    FromLink (links ++ links') v u d ↔ FromLink links v u d ∨ FromLink links' v u d := by
  simp only [FromLink, List.mem_append]
  tauto

omit [Scalar F] in
/-- One link to a larger id enters two lists, any other link none. -/
theorem addLink_returns {n_query v : ℕ} (adj : Adjacency F) {pr : ℕ × F} (hpr : pr.1 < n_query) :
    ∃ adj', Returns (addLink n_query v adj pr) adj' ∧
      ∀ a b d, (b, d) ∈ adj' a ↔ (b, d) ∈ adj a ∨ FromLink [(v, pr)] a b d := by
  obtain ⟨u, w⟩ := pr
  unfold addLink
  by_cases huv : u > v
  · refine ⟨_, by rw [if_pos huv, if_pos hpr]; exact returns_pure _, fun a b d => ?_⟩
    by_cases hau : a = u
    · have hav : a ≠ v := by omega
      subst hau
      rw [Function.update_self, Function.update_of_ne hav]
      simp only [FromLink, List.mem_append, List.mem_singleton, Prod.mk.injEq]
      grind
    · rw [Function.update_of_ne hau]
      by_cases hav : a = v
      · subst hav
        rw [Function.update_self]
        simp only [FromLink, List.mem_append, List.mem_singleton, Prod.mk.injEq]
        grind
      · rw [Function.update_of_ne hav]
        simp [FromLink, hau, hav]
  · refine ⟨adj, by rw [if_neg huv]; exact returns_pure _, fun a b d => ?_⟩
    simp only [FromLink, List.mem_singleton, Prod.mk.injEq]
    refine ⟨Or.inl, ?_⟩
    rintro (h | ⟨hlt, rfl, rfl, -⟩ | ⟨hlt, rfl, rfl, -⟩)
    · exact h
    · exact absurd hlt huv
    · exact absurd hlt huv

/-- The stored links of `v`, with their distances. -/
def linksOf (index : HierarchicalNSW F) (v : ℕ) : List (ℕ × (ℕ × F)) :=
  (getNeighbors index v).map fun pr => (v, pr)

theorem mem_linksOf {index : HierarchicalNSW F} {v a : ℕ} {pr : ℕ × F} :
    (a, pr) ∈ linksOf index v ↔ a = v ∧ pr ∈ getNeighbors index v := by
  simp only [linksOf, List.mem_map, Prod.mk.injEq]
  constructor
  · rintro ⟨pr', h, rfl, rfl⟩
    exact ⟨rfl, h⟩
  · rintro ⟨rfl, h⟩
    exact ⟨pr, h, rfl, rfl⟩

theorem mem_getNeighbors_fst {index : HierarchicalNSW F} {v : ℕ} {pr : ℕ × F}
    (h : pr ∈ getNeighbors index v) : pr.1 ∈ index.linklist0 v := by
  obtain ⟨u, hu, rfl⟩ := List.mem_map.mp h
  exact hu

theorem mem_getNeighbors_snd {index : HierarchicalNSW F} {v : ℕ} {pr : ℕ × F}
    (h : pr ∈ getNeighbors index v) : pr.2 = linkDistance index v pr.1 := by
  obtain ⟨u, -, rfl⟩ := List.mem_map.mp h
  rfl

/-- **The adjacency list.** For links in range, `adj[v]` holds `u` at distance
`d` when the smaller of the two stores a link to the larger one. -/
theorem buildAdjacency_returns {index : HierarchicalNSW F} {n_query : ℕ}
    (hrange : LinksInRange index n_query) :
    ∃ adj, Returns (buildAdjacency index n_query) adj ∧
      ∀ v u d, (u, d) ∈ adj v ↔ (v < u ∧ v < n_query ∧ (u, d) ∈ getNeighbors index v) ∨
        (u < v ∧ u < n_query ∧ (v, d) ∈ getNeighbors index u) := by
  have hrow : ∀ v < n_query, ∀ adj : Adjacency F, ∃ adj',
      Returns ((getNeighbors index v).foldlM (addLink n_query v) adj) adj' ∧
      ∀ a b d, (b, d) ∈ adj' a ↔ (b, d) ∈ adj a ∨ FromLink (linksOf index v) a b d := by
    intro v hv adj
    obtain ⟨adj', hret, hmem⟩ := foldlM_returns
      (fun pre (adj' : Adjacency F) => ∀ a b d, (b, d) ∈ adj' a ↔ (b, d) ∈ adj a ∨
        FromLink (pre.map fun pr => (v, pr)) a b d) (l := getNeighbors index v)
      (f := addLink n_query v) (fun pre pr post adj' hl hI => by
        have hpr := hrange v hv pr.1 (mem_getNeighbors_fst (by rw [hl]; simp))
        obtain ⟨adj'', hret, hmem⟩ := addLink_returns adj' hpr
        refine ⟨adj'', hret, fun a b d => ?_⟩
        rw [hmem, hI, List.map_append, fromLink_append, or_assoc]
        rfl)
      (s := adj) (fun a b d => by simp [FromLink])
    exact ⟨adj', hret, hmem⟩
  obtain ⟨adj, hret, hmem⟩ := foldlM_returns
    (fun pre (adj : Adjacency F) => ∀ a b d, (b, d) ∈ adj a ↔
      FromLink (pre.flatMap (linksOf index)) a b d) (l := List.range n_query)
    (f := fun adj v => (getNeighbors index v).foldlM (addLink n_query v) adj)
    (fun pre v post adj hl hI => by
      obtain ⟨adj', hret, hmem⟩ := hrow v (List.mem_range.mp (by rw [hl]; simp)) adj
      refine ⟨adj', hret, fun a b d => ?_⟩
      rw [hmem, hI, List.flatMap_append, fromLink_append]
      simp)
    (s := fun _ => []) (fun a b d => by simp [FromLink])
  refine ⟨adj, hret, fun v u d => ?_⟩
  rw [hmem]
  simp only [FromLink, List.mem_flatMap, List.mem_range, mem_linksOf]
  constructor
  · rintro (⟨hlt, a, ha, rfl, h⟩ | ⟨hlt, a, ha, rfl, h⟩)
    · exact Or.inl ⟨hlt, ha, h⟩
    · exact Or.inr ⟨hlt, ha, h⟩
  · rintro (⟨hlt, hv, h⟩ | ⟨hlt, hu, h⟩)
    · exact Or.inl ⟨hlt, v, hv, rfl, h⟩
    · exact Or.inr ⟨hlt, u, hu, rfl, h⟩

-- ---------------------------------------------------------------------------
-- The invariant of the search
-- ---------------------------------------------------------------------------

/-- `adj` has an edge from `p` to `c`. -/
def HasEdge (adj : Adjacency F) (p c : ℕ) : Prop := ∃ d, (c, d) ∈ adj p

/-- A step as a record of the search. -/
def PrimStep.record (it : PrimStep F) : ℕ × Option ℕ := (it.node, it.parent)

/-- The vertices of the steps. -/
def stepNodes (steps : List (PrimStep F)) : List ℕ := nodes (steps.map PrimStep.record)

/-- A root has weight `0`; any other step has the weight of an edge. -/
def WeightOk (adj : Adjacency F) (it : PrimStep F) : Prop :=
  (it.parent = none ∧ it.weight = 0) ∨
    ∃ p, it.parent = some p ∧ (it.node, it.weight) ∈ adj p

/-- The record of a search of `adj`, with its weights. -/
structure ForestSteps (n : ℕ) (adj : Adjacency F) (steps : List (PrimStep F)) : Prop where
  grows  : Grows (HasEdge adj) (steps.map PrimStep.record)
  bound  : ∀ v ∈ stepNodes steps, v < n
  weight : ∀ it ∈ steps, WeightOk adj it

/-- The invariant of the search: marks, steps, queue and counter agree. -/
structure ForestInv (Q : PriorityQueue (PrimStep F)) (n : ℕ) (adj : Adjacency F)
    (s : SearchState Q) : Prop extends ForestSteps n adj s.steps where
  visited : ∀ v, s.visited v = true ↔ v ∈ stepNodes s.steps
  items   : ∀ it ∈ Q.elems s.pq, it.node < n ∧ ∃ p ∈ stepNodes s.steps, it.parent = some p ∧
    (it.node, it.weight) ∈ adj p
  counted : s.components = s.steps.countP fun it => it.parent.isNone

/-- Each neighbour of a visited vertex is visited, waits in the queue, or is
one of `extra`. -/
def Pending (Q : PriorityQueue (PrimStep F)) (adj : Adjacency F) (s : SearchState Q)
    (extra : List ℕ) : Prop :=
  ∀ p ∈ stepNodes s.steps, ∀ u, HasEdge adj p u →
    u ∈ stepNodes s.steps ∨ u ∈ extra ∨ ∃ it ∈ Q.elems s.pq, it.node = u

variable {Q : PriorityQueue (PrimStep F)} {n : ℕ} {adj : Adjacency F}

omit [Scalar F] in
@[simp] theorem stepNodes_concat (steps : List (PrimStep F)) (it : PrimStep F) :
    stepNodes (steps ++ [it]) = stepNodes steps ++ [it.node] := by
  simp [stepNodes, PrimStep.record]

theorem ForestInv.not_visited {s : SearchState Q} (h : ForestInv Q n adj s) {v : ℕ} :
    s.visited v = false ↔ v ∉ stepNodes s.steps := by
  rw [← h.visited, Bool.not_eq_true]

omit [Scalar F] in
/-- Nothing waits, so the vertices visited are closed. -/
theorem Pending.closed {s : SearchState Q} (h : Pending Q adj s [])
    (hempty : Q.elems s.pq = 0) : Closed (HasEdge adj) (s.steps.map PrimStep.record) := by
  intro p hp u hu
  rcases h p hp u hu with hv | hx | ⟨it, hit, -⟩
  · exact hv
  · exact absurd hx List.not_mem_nil
  · rw [hempty] at hit
    exact absurd hit (Multiset.notMem_zero it)

omit [Scalar F] in
/-- The queue gains an item for each neighbour not visited. -/
theorem mem_pushNeighbours (visited : ℕ → Bool) (v : ℕ) (nbrs : List (ℕ × F)) (pq : Q.Heap)
    (it : PrimStep F) :
    it ∈ Q.elems (pushNeighbours Q visited v nbrs pq) ↔
      it ∈ Q.elems pq ∨ ∃ e ∈ nbrs, visited e.1 = false ∧ it = ⟨e.1, some v, e.2⟩ := by
  unfold pushNeighbours
  induction nbrs generalizing pq with
  | nil => simp
  | cons e nbrs ih =>
    rw [List.foldl_cons, ih]
    cases hvis : visited e.1 with
    | true => simp [hvis]
    | false => simp [hvis, or_assoc, or_left_comm]

omit [Scalar F] in
theorem size_pushNeighbours_le (visited : ℕ → Bool) (v : ℕ) (nbrs : List (ℕ × F))
    (pq : Q.Heap) : Q.size (pushNeighbours Q visited v nbrs pq) ≤ Q.size pq + nbrs.length := by
  unfold pushNeighbours
  induction nbrs generalizing pq with
  | nil => simp
  | cons e nbrs ih =>
    rw [List.foldl_cons, List.length_cons]
    refine (ih _).trans ?_
    split
    · rw [Q.size_push]
      omega
    · omega

/-- The edges of the vertices not visited, and the queue: the measure of the
queue loop. -/
def searchMeasure (n : ℕ) (adj : Adjacency F) (s : SearchState Q) : ℕ :=
  (∑ v ∈ Flags.unset n s.visited, (adj v).length) + Q.size s.pq

/-- How a vertex may be reached: as a root once the vertices visited are closed,
or along an edge from one of them. -/
def Reached (adj : Adjacency F) (steps : List (PrimStep F)) (it : PrimStep F) : Prop :=
  (it.parent = none ∧ it.weight = 0 ∧ Closed (HasEdge adj) (steps.map PrimStep.record)) ∨
    ∃ p ∈ stepNodes steps, it.parent = some p ∧ (it.node, it.weight) ∈ adj p

theorem ForestSteps.concat {steps : List (PrimStep F)} (h : ForestSteps n adj steps)
    {it : PrimStep F} (hn : it.node < n) (hnew : it.node ∉ stepNodes steps)
    (hreached : Reached adj steps it) : ForestSteps n adj (steps ++ [it]) where
  grows := by
    rw [List.map_append, List.map_singleton, PrimStep.record]
    rcases hreached with ⟨hp, -, hclosed⟩ | ⟨p, hp, hpar, hedge⟩
    · rw [hp]
      exact Grows.root h.grows hclosed hnew
    · rw [hpar]
      exact Grows.child h.grows hp ⟨_, hedge⟩ hnew
  bound v hv := by
    rw [stepNodes_concat, List.mem_append, List.mem_singleton] at hv
    rcases hv with hv | rfl
    · exact h.bound v hv
    · exact hn
  weight it' hit' := by
    rcases List.mem_append.mp hit' with hit' | hit'
    · exact h.weight it' hit'
    · rw [List.mem_singleton.mp hit']
      rcases hreached with ⟨hp, hw, -⟩ | ⟨p, -, hpar, hedge⟩
      · exact Or.inl ⟨hp, hw⟩
      · exact Or.inr ⟨p, hpar, hedge⟩

/-- **One visit.** The invariant is kept, nothing but the vertex visited leaves
the list of pending neighbours, and the measure does not grow. -/
theorem visit_spec (hadj : ∀ v < n, ∀ e ∈ adj v, e.1 < n) (s : SearchState Q) (it : PrimStep F)
    (hsteps : ForestSteps n adj s.steps)
    (hvisited : ∀ v, s.visited v = true ↔ v ∈ stepNodes s.steps)
    (hitems : ∀ it ∈ Q.elems s.pq, it.node < n ∧ ∃ p ∈ stepNodes s.steps, it.parent = some p ∧
      (it.node, it.weight) ∈ adj p)
    (hcounted : s.components = (s.steps ++ [it]).countP fun it => it.parent.isNone)
    (hpending : Pending Q adj s [it.node])
    (hn : it.node < n) (hnew : it.node ∉ stepNodes s.steps)
    (hreached : Reached adj s.steps it) :
    ∃ s', Returns (visit Q n adj s it) s' ∧ ForestInv Q n adj s' ∧ Pending Q adj s' [] ∧
      s'.steps = s.steps ++ [it] ∧ searchMeasure n adj s' ≤ searchMeasure n adj s := by
  have hvis : s.visited it.node = false := by
    rw [← Bool.not_eq_true, hvisited]
    exact hnew
  let s' : SearchState Q :=
    { s with
      pq := pushNeighbours Q (Function.update s.visited it.node true) it.node (adj it.node) s.pq
      visited := Function.update s.visited it.node true
      steps := s.steps ++ [it] }
  have hvisited' : ∀ v, s'.visited v = true ↔ v ∈ stepNodes s'.steps := by
    intro v
    rw [stepNodes_concat, List.mem_append, List.mem_singleton, ← hvisited v]
    by_cases hv : v = it.node
    · simp [s', hv]
    · simp [s', hv]
  refine ⟨s', ?_, ⟨hsteps.concat hn hnew hreached, hvisited', ?_, hcounted⟩, ?_, rfl, ?_⟩
  · unfold visit
    rw [if_pos (hadj it.node hn)]
    exact returns_pure _
  · -- items: those that waited before, and the new ones
    intro it' hit'
    rcases (mem_pushNeighbours _ _ _ _ it').mp hit' with hold | ⟨e, he, -, rfl⟩
    · obtain ⟨hlt, p, hp, hrest⟩ := hitems it' hold
      exact ⟨hlt, p, by rw [stepNodes_concat]; exact List.mem_append_left _ hp, hrest⟩
    · exact ⟨hadj it.node hn e he, it.node, by rw [stepNodes_concat]; simp, rfl, he⟩
  · -- pending: the neighbours of the vertex visited are visited or pushed
    intro p hp u hu
    by_cases huv : u ∈ stepNodes s'.steps
    · exact Or.inl huv
    · right
      right
      rw [stepNodes_concat, List.mem_append, List.mem_singleton] at hp huv
      rcases hp with hp | rfl
      · rcases hpending p hp u hu with hv | hx | ⟨it', hit', rfl⟩
        · exact absurd (Or.inl hv) huv
        · exact absurd (Or.inr (List.mem_singleton.mp hx)) huv
        · exact ⟨it', (mem_pushNeighbours _ _ _ _ it').mpr (Or.inl hit'), rfl⟩
      · obtain ⟨d, hd⟩ := hu
        have hfalse : Function.update s.visited it.node true u = false := by
          rw [← Bool.not_eq_true, show Function.update s.visited it.node true u = s'.visited u
            from rfl, hvisited', stepNodes_concat, List.mem_append, List.mem_singleton]
          exact huv
        exact ⟨⟨u, some it.node, d⟩, (mem_pushNeighbours _ _ _ _ _).mpr
          (Or.inr ⟨(u, d), hd, hfalse, rfl⟩), rfl⟩
  · have hsum := Flags.sum_unset_update (fun v => (adj v).length) hn hvis
    have hsize := size_pushNeighbours_le (Q := Q) (Function.update s.visited it.node true) it.node
      (adj it.node) s.pq
    unfold searchMeasure
    rw [hsum]
    dsimp only [s']
    omega

-- ---------------------------------------------------------------------------
-- The search
-- ---------------------------------------------------------------------------

/-- An iteration of the queue loop keeps the invariant and decreases the measure,
or leaves the loop with an empty queue. -/
theorem popStep_spec (hadj : ∀ v < n, ∀ e ∈ adj v, e.1 < n) {s : SearchState Q}
    (h : ForestInv Q n adj s) (hpending : Pending Q adj s []) :
    (∃ s', Returns (popStep Q n adj s) (.inl s') ∧ ForestInv Q n adj s' ∧ Pending Q adj s' [] ∧
      s.steps <+: s'.steps ∧ searchMeasure n adj s' < searchMeasure n adj s) ∨
    (Returns (popStep Q n adj s) (.inr s) ∧ Q.elems s.pq = 0) := by
  unfold popStep
  cases htop : Q.top s.pq with
  | none => exact Or.inr ⟨returns_pure _, (Q.top_none _).mp htop⟩
  | some it =>
    left
    have hsize := Q.size_pop htop
    obtain ⟨hn, p, hp, hpar, hedge⟩ := h.items it (Q.top_mem htop)
    have hitems : ∀ it' ∈ Q.elems (Q.pop s.pq), it'.node < n ∧ ∃ p ∈ stepNodes s.steps,
        it'.parent = some p ∧ (it'.node, it'.weight) ∈ adj p :=
      fun it' hit' => h.items it' (Q.mem_of_mem_pop htop hit')
    -- the item taken from the queue is the only one that may be missing from it
    have hpop : Pending Q adj { s with pq := Q.pop s.pq } [it.node] := by
      intro p' hp' u hu
      rcases hpending p' hp' u hu with hv | hx | ⟨it', hit', rfl⟩
      · exact Or.inl hv
      · exact absurd hx List.not_mem_nil
      · rw [Q.elems_pop _ _ htop, Multiset.mem_cons] at hit'
        rcases hit' with rfl | hit'
        · exact Or.inr (Or.inl (List.mem_singleton_self _))
        · exact Or.inr (Or.inr ⟨it', hit', rfl⟩)
    dsimp only
    by_cases hvis : s.visited it.node = true
    · refine ⟨{ s with pq := Q.pop s.pq }, by rw [if_pos hvis]; exact returns_pure _,
        ⟨h.toForestSteps, h.visited, hitems, h.counted⟩, ?_, List.prefix_rfl, ?_⟩
      · intro p' hp' u hu
        rcases hpop p' hp' u hu with hv | hx | hw
        · exact Or.inl hv
        · exact Or.inl ((List.mem_singleton.mp hx) ▸ (h.visited it.node).mp hvis)
        · exact Or.inr (Or.inr hw)
      · unfold searchMeasure
        dsimp only
        omega
    · have hcount : s.components = (s.steps ++ [it]).countP fun it => it.parent.isNone := by
        rw [List.countP_append, ← h.counted]
        simp [hpar]
      obtain ⟨s', hret, hinv, hpend, hsteps, hle⟩ := visit_spec hadj
        { s with pq := Q.pop s.pq } it h.toForestSteps h.visited hitems hcount hpop hn
        (fun hm => hvis ((h.visited _).mpr hm)) (Or.inr ⟨p, hp, hpar, hedge⟩)
      refine ⟨s', by rw [if_neg hvis]; exact hret.bind (returns_pure _), hinv, hpend, ?_, ?_⟩
      · rw [hsteps]
        exact List.prefix_append _ _
      · refine hle.trans_lt ?_
        unfold searchMeasure
        dsimp only
        omega

/-- What holds between two trees: nothing waits. -/
structure BetweenTrees (Q : PriorityQueue (PrimStep F)) (n : ℕ) (adj : Adjacency F)
    (s : SearchState Q) : Prop extends ForestInv Q n adj s where
  empty  : Q.elems s.pq = 0
  closed : Closed (HasEdge adj) (s.steps.map PrimStep.record)

/-- The queue loop ends, with an empty queue and closed vertices. -/
theorem popLoop_spec (hadj : ∀ v < n, ∀ e ∈ adj v, e.1 < n) {s : SearchState Q}
    (h : ForestInv Q n adj s) (hpending : Pending Q adj s []) :
    ∃ s', Returns (loop (popStep Q n adj) s) s' ∧ BetweenTrees Q n adj s' ∧
      s.steps <+: s'.steps := by
  refine loop_returns
    (fun s' => ForestInv Q n adj s' ∧ Pending Q adj s' [] ∧ s.steps <+: s'.steps)
    (searchMeasure n adj) (fun s' => BetweenTrees Q n adj s' ∧ s.steps <+: s'.steps) ?_
    ⟨h, hpending, List.prefix_rfl⟩
  rintro s₁ ⟨h₁, hpend₁, hpre₁⟩
  rcases popStep_spec hadj h₁ hpend₁ with ⟨s₂, hret, h₂, hpend₂, hpre₂, hlt⟩ | ⟨hret, hempty⟩
  · exact Or.inl ⟨s₂, hret, ⟨h₂, hpend₂, hpre₁.trans hpre₂⟩, hlt⟩
  · exact Or.inr ⟨s₁, hret, ⟨h₁, hempty, hpend₁.closed hempty⟩, hpre₁⟩

/-- A new tree: its root is visited while nothing waits. -/
theorem visitRoot_spec (hadj : ∀ v < n, ∀ e ∈ adj v, e.1 < n) {s : SearchState Q}
    (h : BetweenTrees Q n adj s) {start : ℕ} (hstart : start < n)
    (hvis : s.visited start = false) {pq : Q.Heap} (hpq : Q.elems pq = 0) :
    ∃ s', Returns (visit Q n adj { s with pq := pq, components := s.components + 1 }
        ⟨start, none, 0⟩) s' ∧ ForestInv Q n adj s' ∧ Pending Q adj s' [] ∧
      s'.steps = s.steps ++ [⟨start, none, 0⟩] := by
  obtain ⟨s', hret, hinv, hpend, hsteps, -⟩ := visit_spec hadj
    { s with pq := pq, components := s.components + 1 } ⟨start, none, 0⟩
    h.toForestSteps h.visited
    (fun it hit => by rw [hpq] at hit; exact absurd hit (Multiset.notMem_zero it))
    (by rw [List.countP_append, ← h.counted]; simp)
    (fun p hp u hu => Or.inl (h.closed p hp u hu)) hstart
    (h.toForestInv.not_visited.mp hvis) (Or.inl ⟨rfl, rfl, h.closed⟩)
  exact ⟨s', hret, hinv, hpend, hsteps⟩

/-- **One tree** of either function: afterwards the vertex is visited. -/
def GrowsTree (Q : PriorityQueue (PrimStep F)) (n : ℕ) (adj : Adjacency F)
    (grow : SearchState Q → ℕ → Run (SearchState Q)) : Prop :=
  ∀ s start, BetweenTrees Q n adj s → start < n →
    ∃ s', Returns (grow s start) s' ∧ BetweenTrees Q n adj s' ∧ s.steps <+: s'.steps ∧
      start ∈ stepNodes s'.steps

omit [Scalar F] in
theorem stepNodes_prefix {steps steps' : List (PrimStep F)} (h : steps <+: steps') {v : ℕ}
    (hv : v ∈ stepNodes steps) : v ∈ stepNodes steps' := by
  obtain ⟨t, rfl⟩ := h
  unfold stepNodes nodes at hv ⊢
  rw [List.map_append, List.map_append]
  exact List.mem_append_left _ hv

theorem growTreeDirected_spec (hadj : ∀ v < n, ∀ e ∈ adj v, e.1 < n) :
    GrowsTree Q n adj (growTreeDirected Q n adj) := by
  intro s start h hstart
  unfold growTreeDirected
  by_cases hvis : s.visited start = true
  · exact ⟨s, by rw [if_pos hvis]; exact returns_pure _, h, List.prefix_rfl,
      (h.visited start).mp hvis⟩
  · rw [if_neg hvis]
    obtain ⟨s₁, hvisit, h₁, hpend₁, hsteps⟩ := visitRoot_spec hadj h hstart
      (Bool.not_eq_true _ ▸ hvis) h.empty
    obtain ⟨s₂, hloop, h₂, hpre⟩ := popLoop_spec hadj h₁ hpend₁
    rw [hsteps] at hpre
    exact ⟨s₂, hvisit.bind hloop, h₂, (List.prefix_append _ _).trans hpre,
      stepNodes_prefix hpre (by simp)⟩

theorem growTree_spec (hadj : ∀ v < n, ∀ e ∈ adj v, e.1 < n) :
    GrowsTree Q n adj (growTree Q n adj) := by
  intro s start h hstart
  unfold growTree
  by_cases hvis : s.visited start = true
  · exact ⟨s, by rw [if_pos hvis]; exact returns_pure _, h, List.prefix_rfl,
      (h.visited start).mp hvis⟩
  · rw [if_neg hvis]
    -- the queue holds the start vertex alone, so that is what the first iteration visits
    have hone : Q.elems (Q.push s.pq ⟨start, none, 0⟩) = {⟨start, none, 0⟩} := by
      rw [Q.elems_push, h.empty]
      rfl
    have htop : Q.top (Q.push s.pq ⟨start, none, 0⟩) = some ⟨start, none, 0⟩ := by
      obtain ⟨it, hit⟩ := Q.exists_top (h := Q.push s.pq ⟨start, none, 0⟩) (by rw [hone]; simp)
      have := Q.top_mem hit
      rw [hone, Multiset.mem_singleton] at this
      rw [hit, this]
    have hpop : Q.elems (Q.pop (Q.push s.pq ⟨start, none, 0⟩)) = 0 := by
      have hel := Q.elems_pop _ _ htop
      have hcard := congrArg Multiset.card hel
      rw [hone, Multiset.card_singleton, Multiset.card_cons] at hcard
      exact Multiset.card_eq_zero.mp (by omega)
    obtain ⟨s₁, hvisit, h₁, hpend₁, hsteps⟩ := visitRoot_spec hadj h hstart
      (Bool.not_eq_true _ ▸ hvis) hpop
    obtain ⟨s₂, hloop, h₂, hpre⟩ := popLoop_spec hadj h₁ hpend₁
    rw [hsteps] at hpre
    refine ⟨s₂, loop_next ?_ hloop, h₂, (List.prefix_append _ _).trans hpre,
      stepNodes_prefix hpre (by simp)⟩
    unfold popStep
    dsimp only
    rw [htop]
    dsimp only
    rw [if_neg hvis]
    exact hvisit.bind (returns_pure _)

theorem betweenTrees_init : BetweenTrees Q n adj (initSearch Q) where
  grows := Grows.nil
  bound _ hv := absurd hv List.not_mem_nil
  weight _ hit := absurd hit List.not_mem_nil
  visited v := by simp [initSearch, stepNodes]
  items _ hit := by simp [initSearch] at hit
  counted := rfl
  empty := by simp [initSearch]
  closed := closed_nil

/-- **The search.** All vertices are visited. -/
theorem growTrees_spec {grow : SearchState Q → ℕ → Run (SearchState Q)}
    (hgrow : GrowsTree Q n adj grow) :
    ∃ final, Returns ((List.range n).foldlM grow (initSearch Q)) final ∧
      ForestSteps n adj final.steps ∧ (∀ v < n, v ∈ stepNodes final.steps) ∧
      final.components = final.steps.countP fun it => it.parent.isNone := by
  obtain ⟨final, hret, hfinal, hall⟩ := foldlM_returns
    (fun pre s => BetweenTrees Q n adj s ∧ ∀ v ∈ pre, v ∈ stepNodes s.steps)
    (l := List.range n) (fun pre v post s hl hI => by
      have hv : v < n := List.mem_range.mp (by rw [hl]; simp)
      obtain ⟨s', hret, h', hpre, hmem⟩ := hgrow s v hI.1 hv
      refine ⟨s', hret, h', fun u hu => ?_⟩
      rcases List.mem_append.mp hu with hu | hu
      · exact stepNodes_prefix hpre (hI.2 u hu)
      · rwa [List.mem_singleton.mp hu])
    (s := initSearch Q)
    ⟨betweenTrees_init, fun v hv => absurd hv List.not_mem_nil⟩
  exact ⟨final, hret, hfinal.toForestSteps, fun v hv => hall v (List.mem_range.mpr hv),
    hfinal.counted⟩

-- ---------------------------------------------------------------------------
-- The forests
-- ---------------------------------------------------------------------------

omit [Scalar F] in
theorem entry_root_iff (it : PrimStep F) : it.entry.2 = -1 ↔ it.parent = none := by
  unfold PrimStep.entry
  cases it.parent with
  | none => simp
  | some p => simp

omit [Scalar F] in
theorem entry_edge_iff (it : PrimStep F) : it.entry.2 ≥ 0 ↔ ¬ it.parent.isNone = true := by
  unfold PrimStep.entry
  cases it.parent with
  | none => simp
  | some p => simp

omit [Scalar F] in
theorem countP_root_entry (steps : List (PrimStep F)) :
    (steps.map PrimStep.entry).countP (fun e => e.2 = -1) =
      steps.countP fun it => it.parent.isNone := by
  rw [List.countP_map]
  refine List.countP_congr fun it _ => ?_
  simp only [Function.comp, decide_eq_true_eq, entry_root_iff, Option.isNone_iff_eq_none]

/-- A search that visits every vertex records a rooted forest. -/
theorem ForestSteps.localForest {steps : List (PrimStep F)} (h : ForestSteps n adj steps)
    (hall : ∀ v < n, v ∈ stepNodes steps) : LocalForest n (steps.map PrimStep.entry) where
  perm := by
    have hperm : (stepNodes steps).Perm (List.range n) :=
      (List.perm_ext_iff_of_nodup h.grows.nodup List.nodup_range).mpr fun v =>
        ⟨fun hv => List.mem_range.mpr (h.bound v hv), fun hv => hall v (List.mem_range.mp hv)⟩
    have := hperm.map fun i : ℕ => (i : ℤ)
    rw [stepNodes, nodes, List.map_map, List.map_map] at this
    rw [List.map_map]
    exact this
  topo := by
    intro pre x post hsplit
    obtain ⟨pre', rest', hsteps, rfl, hrest⟩ := List.map_eq_append_iff.mp hsplit
    obtain ⟨it, post', rfl, rfl, rfl⟩ := List.map_eq_cons_iff.mp hrest
    cases hpar : it.parent with
    | none => exact Or.inl ((entry_root_iff it).mpr hpar)
    | some p =>
      have hrec : steps.map PrimStep.record = pre'.map PrimStep.record ++
          (it.node, some p) :: post'.map PrimStep.record := by
        rw [hsteps, List.map_append, List.map_cons, PrimStep.record, hpar]
      obtain ⟨hp, -⟩ := h.grows.parent_mem _ _ _ _ hrec
      obtain ⟨e, he, rfl⟩ := List.mem_map.mp hp
      obtain ⟨t, ht, rfl⟩ := List.mem_map.mp he
      refine Or.inr (List.mem_map.mpr ⟨t.entry, List.mem_map_of_mem ht, ?_⟩)
      simp only [PrimStep.entry, PrimStep.record, hpar]

/-- The ids in the adjacency list are in range. -/
theorem adjacency_inRange {index : HierarchicalNSW F} (hrange : LinksInRange index n)
    (hadj : ∀ v u d, (u, d) ∈ adj v ↔ (v < u ∧ v < n ∧ (u, d) ∈ getNeighbors index v) ∨
      (u < v ∧ u < n ∧ (v, d) ∈ getNeighbors index u)) :
    ∀ v < n, ∀ e ∈ adj v, e.1 < n := by
  intro v hv e he
  rcases (hadj v e.1 e.2).mp he with ⟨-, -, h⟩ | ⟨-, hu, -⟩
  · exact hrange v hv e.1 (mem_getNeighbors_fst h)
  · exact hu

/-- **`approximateMSTUsingHNSW_undirected`.** For links in range it returns the
entries of a search of its adjacency list that visits every vertex. -/
theorem approximateMSTUsingHNSWUndirected_spec (Q : PriorityQueue (PrimStep F))
    {index : HierarchicalNSW F} {n_query : ℕ} (hrange : LinksInRange index n_query) :
    ∃ adj steps, Returns (buildAdjacency index n_query) adj ∧
      (∀ v u d, (u, d) ∈ adj v ↔ (v < u ∧ v < n_query ∧ (u, d) ∈ getNeighbors index v) ∨
        (u < v ∧ u < n_query ∧ (v, d) ∈ getNeighbors index u)) ∧
      ForestSteps n_query adj steps ∧ (∀ v < n_query, v ∈ stepNodes steps) ∧
      Returns (approximateMSTUsingHNSWUndirected (D := D) Q index n_query)
        (steps.map PrimStep.entry,
          averageOver (steps.foldl (fun (total : D) it => total + widen it.weight) 0)
            (n_query - steps.countP fun it => it.parent.isNone)) := by
  obtain ⟨adj, hbuild, hadj⟩ := buildAdjacency_returns hrange
  obtain ⟨final, hgrow, hsteps, hall, hcount⟩ :=
    growTrees_spec (growTree_spec (Q := Q) (adjacency_inRange hrange hadj))
  refine ⟨adj, final.steps, hbuild, hadj, hsteps, hall, hbuild.bind (hgrow.bind ?_)⟩
  rw [hcount]
  exact returns_pure _

/-- A queue with the least weight on top; weights that are not finite count as
zero. -/
def leastWeight (R : Type) [Field R] [LinearOrder R] : PriorityQueue (PrimStep (Exact R)) :=
  PriorityQueue.byKey fun it => match it.weight with
    | .fin x => -x
    | _ => 0

end Mqo
