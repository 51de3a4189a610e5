import Mqo.Trajectory.Exact
import Mqo.Trajectory.HnswMst
import Mqo.Trajectory.PrimMinimum

/-!
# MQO — the queue search finds a minimum spanning forest

The search of `approximateMSTUsingHNSW_undirected` keeps every edge that leads
from a visited to an unvisited vertex in its queue, next to items whose vertex
has been visited since they were pushed. In exact arithmetic, with finite
weights and every edge entered at both ends, an item taken from the queue whose
vertex is unvisited is therefore a lightest edge that leaves the vertices
visited.

* `popStep_cases`      — what one iteration of the queue loop does;
* `popStep_lightest`   — it keeps the invariant `LightestInv`;
* `growTrees_lightest` — the search grows a minimum spanning forest, and roots
  every tree at the least vertex of its component;
* `lazyPrim_minimum`   — so the entries are one, and the average is its mean.
-/

namespace Mqo

open Prog StackTraversal LightestForest Exact

section Search

variable {F D : Type} [Scalar F] [Scalar D] [Widen F D]

/-- `approximateMSTUsingHNSW_undirected` from the adjacency list on. -/
def lazyPrim (Q : PriorityQueue (PrimStep F)) (n_query : ℕ) (adj : Adjacency F) :
    Run (Trajectory × D) := do
  let final ← (List.range n_query).foldlM (growTree Q n_query adj) (initSearch Q)
  let totalDist := final.steps.foldl (fun (total : D) it => total + widen it.weight) 0
  pure (final.steps.map PrimStep.entry, averageOver totalDist (n_query - final.components))

/-- The function fills the adjacency list and searches it. -/
theorem approximateMSTUsingHNSWUndirected_eq (Q : PriorityQueue (PrimStep F))
    (index : HierarchicalNSW F) (n_query : ℕ) :
    approximateMSTUsingHNSWUndirected (D := D) Q index n_query =
      buildAdjacency index n_query >>= lazyPrim Q n_query := rfl

/-- The comparison of `PQItem`: `w > o.w`. -/
def PrimStep.less (it o : PrimStep F) : Prop := o.weight < it.weight

/-- The state after an item has been visited. -/
def SearchState.afterVisit {Q : PriorityQueue (PrimStep F)} (adj : Adjacency F) (s : SearchState Q)
    (it : PrimStep F) : SearchState Q :=
  { s with
    pq := pushNeighbours Q (Function.update s.visited it.node true) it.node (adj it.node) s.pq
    visited := Function.update s.visited it.node true
    steps := s.steps ++ [it] }

variable {Q : PriorityQueue (PrimStep F)} {n : ℕ} {adj : Adjacency F}

omit [Scalar F] in
/-- **One iteration.** An item whose vertex is visited is dropped, any other one is
visited. -/
theorem popStep_cases {s : SearchState Q} {r : SearchState Q ⊕ SearchState Q}
    (h : Returns (popStep Q n adj s) r) :
    (Q.top s.pq = none ∧ r = .inr s) ∨
    (∃ it, Q.top s.pq = some it ∧ s.visited it.node = true ∧
      r = .inl { s with pq := Q.pop s.pq }) ∨
    ∃ it, Q.top s.pq = some it ∧ s.visited it.node = false ∧
      r = .inl ({ s with pq := Q.pop s.pq }.afterVisit adj it) := by
  unfold popStep at h
  cases htop : Q.top s.pq with
  | none =>
    rw [htop] at h
    exact Or.inl ⟨rfl, h.of_pure⟩
  | some it =>
    rw [htop] at h
    dsimp only at h
    by_cases hvis : s.visited it.node = true
    · rw [if_pos hvis] at h
      exact Or.inr (Or.inl ⟨it, rfl, hvis, h.of_pure⟩)
    · rw [if_neg hvis] at h
      obtain ⟨s', hs', hr⟩ := h.of_bind
      unfold visit at hs'
      split at hs'
      · refine Or.inr (Or.inr ⟨it, rfl, Bool.eq_false_iff.mpr hvis, ?_⟩)
        rw [hr.of_pure, hs'.of_pure]
        rfl
      · exact absurd (fails_fault _) hs'.not_fails

end Search

-- ---------------------------------------------------------------------------
-- The invariant
-- ---------------------------------------------------------------------------

section Lightest

variable {R : Type} [Field R] [LinearOrder R] [Root R] {Q : PriorityQueue (PrimStep (Exact R))}
  {n : ℕ} {adj : ℕ → List (ℕ × R)}

/-- The adjacency list with the given finite weights. -/
def finAdjacency (adj : ℕ → List (ℕ × R)) : Adjacency (Exact R) :=
  fun v => (adj v).map fun e => (e.1, fin e.2)

/-- Every entry is mirrored: an edge is entered at both ends. -/
def Mirrored (n : ℕ) (adj : ℕ → List (ℕ × R)) : Prop :=
  ∀ v < n, ∀ e ∈ adj v, e.1 < n ∧ (v, e.2) ∈ adj e.1

/-- The edges of the adjacency list. -/
def adjacencyEdge (n : ℕ) (adj : ℕ → List (ℕ × R)) (a b : ℕ) (w : R) : Prop :=
  a < n ∧ (b, w) ∈ adj a

/-- A step with the real weight of its edge. -/
def PrimStep.weighted (it : PrimStep (Exact R)) : ℕ × Option (ℕ × R) :=
  (it.node, it.parent.map fun p => (p, it.weight.value))

/-- The first item of a tree: it is alone in the queue, and all smaller vertices have
been visited. -/
def RootItem (s : SearchState Q) (it : PrimStep (Exact R)) : Prop :=
  it.parent = none ∧ it.weight = 0 ∧ Q.elems s.pq = {it} ∧ ∀ u < it.node, u ∈ stepNodes s.steps

/-- Any other item is an edge from a visited vertex. -/
def EdgeItem (adj : ℕ → List (ℕ × R)) (s : SearchState Q) (it : PrimStep (Exact R)) : Prop :=
  ∃ p ∈ stepNodes s.steps, ∃ w, it.parent = some p ∧ it.weight = fin w ∧ (it.node, w) ∈ adj p

/-- The invariant of the search. `waiting` is what lazy deletion relies on: every edge
to an unvisited vertex is in the queue itself, whatever else is. -/
structure LightestInv (Q : PriorityQueue (PrimStep (Exact R))) (n : ℕ) (adj : ℕ → List (ℕ × R))
    (s : SearchState Q) : Prop where
  grows   : GrowsLightest (adjacencyEdge n adj) (s.steps.map PrimStep.weighted)
  visited : ∀ v, s.visited v = true ↔ v ∈ stepNodes s.steps
  bound   : ∀ v ∈ stepNodes s.steps, v < n
  items   : ∀ it ∈ Q.elems s.pq, it.node < n ∧ (RootItem s it ∨ EdgeItem adj s it)
  waiting : ∀ p ∈ stepNodes s.steps, ∀ u w, (u, w) ∈ adj p →
    u ∈ stepNodes s.steps ∨ ⟨u, some p, fin w⟩ ∈ Q.elems s.pq
  weights : ∀ it ∈ s.steps, it.weight = fin (it.weight.value) ∧ (it.parent = none → it.weight = 0)
  roots   : ∀ it ∈ s.steps, it.parent = none →
    ∀ u < it.node, ¬ Relation.ReflTransGen (HasEdge (finAdjacency adj)) u it.node

omit [Field R] [LinearOrder R] [Root R] in
theorem mem_finAdjacency {v u : ℕ} {d : Exact R} :
    (u, d) ∈ finAdjacency adj v ↔ ∃ w, d = fin w ∧ (u, w) ∈ adj v := by
  simp only [finAdjacency, List.mem_map, Prod.mk.injEq]
  constructor
  · rintro ⟨⟨u', w⟩, hmem, rfl, rfl⟩
    exact ⟨w, rfl, hmem⟩
  · rintro ⟨w, rfl, hmem⟩
    exact ⟨(u, w), hmem, rfl, rfl⟩

omit [LinearOrder R] [Root R] in
theorem nodes_weighted (steps : List (PrimStep (Exact R))) :
    nodes (steps.map PrimStep.weighted) = stepNodes steps := by
  rw [stepNodes, nodes, SpanningForest.nodes, List.map_map, List.map_map]
  rfl

/-- Every weight waiting is finite, so on the queue the comparison is a strict weak
order. -/
theorem LightestInv.weak {s : SearchState Q} (h : LightestInv Q n adj s) :
    PriorityQueue.StrictWeakOn PrimStep.less (Q.elems s.pq) := by
  have hfin : ∀ it ∈ Q.elems s.pq, ∃ w, it.weight = fin w := by
    intro it hit
    rcases (h.items it hit).2 with hroot | ⟨p, -, w, -, hw, -⟩
    · exact ⟨0, hroot.2.1⟩
    · exact ⟨w, hw⟩
  constructor
  · intro a ha b hb hab hba
    obtain ⟨v, hv⟩ := hfin a ha
    obtain ⟨w, hw⟩ := hfin b hb
    rw [PrimStep.less, hv, hw] at hab hba
    exact lt_asymm (show w < v from hab) hba
  · intro a ha b hb c hc hab hbc
    obtain ⟨u, hu⟩ := hfin a ha
    obtain ⟨v, hv⟩ := hfin b hb
    obtain ⟨w, hw⟩ := hfin c hc
    rw [PrimStep.less, hu, hv] at hab
    rw [PrimStep.less, hv, hw] at hbc
    rw [PrimStep.less, hu, hw]
    exact not_lt.mpr ((not_lt.mp (show ¬ v < u from hab)).trans
      (not_lt.mp (show ¬ w < v from hbc)))

/-- A root item leaves nothing behind. -/
theorem LightestInv.edgeItems {s : SearchState Q} (h : LightestInv Q n adj s)
    {it : PrimStep (Exact R)} (htop : Q.top s.pq = some it) :
    ∀ it' ∈ Q.elems (Q.pop s.pq), it'.node < n ∧ EdgeItem adj s it' := by
  intro it' hit'
  obtain ⟨hlt, hroot | hedge⟩ := h.items it' (Q.mem_of_mem_pop htop hit')
  · have hsize := Q.size_pop htop
    rw [PriorityQueue.size, hroot.2.2.1, Multiset.card_singleton] at hsize
    have hempty : Q.elems (Q.pop s.pq) = 0 := Multiset.card_eq_zero.mp (by
      rw [PriorityQueue.size] at hsize
      omega)
    rw [hempty] at hit'
    exact absurd hit' (Multiset.notMem_zero it')
  · exact ⟨hlt, hedge⟩

/-- Dropping an item whose vertex is visited. -/
theorem LightestInv.drop {s : SearchState Q} (h : LightestInv Q n adj s)
    {it : PrimStep (Exact R)} (htop : Q.top s.pq = some it) (hvis : s.visited it.node = true) :
    LightestInv Q n adj { s with pq := Q.pop s.pq } where
  grows := h.grows
  visited := h.visited
  bound := h.bound
  items it' hit' := (h.edgeItems htop it' hit').imp_right Or.inr
  waiting p hp u w hw := by
    rcases h.waiting p hp u w hw with hu | hu
    · exact Or.inl hu
    · rw [Q.elems_pop _ _ htop, Multiset.mem_cons] at hu
      rcases hu with rfl | hu
      · exact Or.inl ((h.visited _).mp hvis)
      · exact Or.inr hu
  weights := h.weights
  roots := h.roots

/-- While the queue holds a root item, no edge leaves the vertices visited. -/
theorem LightestInv.closed {s : SearchState Q} (h : LightestInv Q n adj s)
    {it : PrimStep (Exact R)} (hroot : RootItem s it) :
    SpanningForest.Closed (HasEdge (finAdjacency adj)) (s.steps.map PrimStep.record) := by
  rintro a ha b ⟨d, hd⟩
  obtain ⟨w, -, hab⟩ := mem_finAdjacency.mp hd
  obtain ⟨hpar, -, hone, -⟩ := hroot
  rcases h.waiting a ha b w hab with hb | hb
  · exact hb
  · rw [hone, Multiset.mem_singleton] at hb
    rw [← hb] at hpar
    cases hpar

/-- An item for an unvisited vertex extends the search by a lightest edge. -/
theorem LightestInv.extends {s : SearchState Q} (h : LightestInv Q n adj s)
    (hQ : Q.Lawful PrimStep.less) {it : PrimStep (Exact R)} (htop : Q.top s.pq = some it)
    (hvis : s.visited it.node = false) :
    GrowsLightest (adjacencyEdge n adj) ((s.steps ++ [it]).map PrimStep.weighted) := by
  have hnew : it.node ∉ stepNodes s.steps := by
    rw [← h.visited, hvis]
    exact Bool.false_ne_true
  rw [List.map_append, List.map_singleton, PrimStep.weighted]
  rcases (h.items it (Q.top_mem htop)).2 with hroot | ⟨p, hp, w, hpar, hw, hedge⟩
  · rw [hroot.1]
    refine GrowsLightest.root h.grows ?_ (by rwa [nodes_weighted])
    rintro a ha b w ⟨-, hab⟩
    rw [nodes_weighted] at ha ⊢
    exact h.closed hroot a ha b ⟨fin w, mem_finAdjacency.mpr ⟨w, rfl, hab⟩⟩
  · rw [hpar, hw]
    refine GrowsLightest.child h.grows (by rwa [nodes_weighted]) (by rwa [nodes_weighted])
      ⟨h.bound p hp, hedge⟩ ?_
    rintro a ha b hb w' ⟨-, hab⟩
    rw [nodes_weighted] at ha hb
    have hmem := (h.waiting a ha b w' hab).resolve_left hb
    have hleast := hQ s.pq h.weak it htop _ hmem
    rw [PrimStep.less, hw] at hleast
    exact not_lt.mp hleast

/-- **One visit.** The edges of the vertex visited are now in the queue. -/
theorem LightestInv.visit {s : SearchState Q} (h : LightestInv Q n adj s)
    (hQ : Q.Lawful PrimStep.less) (hadj : Mirrored n adj) {it : PrimStep (Exact R)}
    (htop : Q.top s.pq = some it) (hvis : s.visited it.node = false) :
    LightestInv Q n adj ({ s with pq := Q.pop s.pq }.afterVisit (finAdjacency adj) it) := by
  obtain ⟨hlt, hitem⟩ := h.items it (Q.top_mem htop)
  have hvisited : ∀ v, Function.update s.visited it.node true v = true ↔
      v ∈ stepNodes (s.steps ++ [it]) := by
    intro v
    rw [stepNodes_concat, List.mem_append, List.mem_singleton, ← h.visited v]
    by_cases hv : v = it.node
    · simp [hv]
    · simp [hv]
  have hold : ∀ v ∈ stepNodes s.steps, v ∈ stepNodes (s.steps ++ [it]) := fun v hv => by
    rw [stepNodes_concat]
    exact List.mem_append_left _ hv
  have hself : it.node ∈ stepNodes (s.steps ++ [it]) := by
    rw [stepNodes_concat]
    exact List.mem_append_right _ (List.mem_singleton_self _)
  refine ⟨h.extends hQ htop hvis, hvisited, ?_, ?_, ?_, ?_, ?_⟩
  · intro v hv
    rcases List.mem_append.mp (stepNodes_concat s.steps it ▸ hv) with hv | hv
    · exact h.bound v hv
    · rwa [List.mem_singleton.mp hv]
  · intro it' hit'
    rcases (mem_pushNeighbours _ _ _ _ it').mp hit' with hit' | ⟨e, he, -, rfl⟩
    · obtain ⟨hlt', p, hp, hrest⟩ := h.edgeItems htop it' hit'
      exact ⟨hlt', Or.inr ⟨p, hold p hp, hrest⟩⟩
    · obtain ⟨w, hw, hmem⟩ := mem_finAdjacency.mp he
      exact ⟨(hadj it.node hlt _ hmem).1, Or.inr ⟨it.node, hself, w, rfl, hw, hmem⟩⟩
  · intro p hp u w hw
    by_cases hu : u ∈ stepNodes (s.steps ++ [it])
    · exact Or.inl hu
    · refine Or.inr ((mem_pushNeighbours _ _ _ _ _).mpr ?_)
      rcases List.mem_append.mp (stepNodes_concat s.steps it ▸ hp) with hp | hp
      · have hmem := (h.waiting p hp u w hw).resolve_left fun hin => hu (hold u hin)
        rw [Q.elems_pop _ _ htop, Multiset.mem_cons] at hmem
        rcases hmem with rfl | hmem
        · exact absurd hself hu
        · exact Or.inl hmem
      · rw [List.mem_singleton] at hp
        subst hp
        refine Or.inr ⟨(u, fin w), mem_finAdjacency.mpr ⟨w, rfl, hw⟩, ?_, rfl⟩
        rw [← Bool.not_eq_true, hvisited]
        exact hu
  · intro it' hit'
    rcases List.mem_append.mp hit' with hit' | hit'
    · exact h.weights it' hit'
    · rw [List.mem_singleton.mp hit']
      rcases hitem with ⟨-, hw, -⟩ | ⟨p, -, w, hpar, hw, -⟩
      · exact ⟨by rw [hw]; rfl, fun _ => hw⟩
      · exact ⟨by rw [hw]; rfl, fun hnone => by rw [hpar] at hnone; cases hnone⟩
  · intro it' hit' hpar u hu hreach
    rcases List.mem_append.mp hit' with hit' | hit'
    · exact h.roots it' hit' hpar u hu hreach
    · rw [List.mem_singleton.mp hit'] at hpar hu hreach
      rcases hitem with hroot | ⟨p, -, w, hsome, -⟩
      · -- all smaller vertices are visited, and no edge leaves the vertices visited
        have hin := (h.closed hroot).reach (hroot.2.2.2 u hu) hreach
        rw [(h.visited it.node).mpr hin] at hvis
        cases hvis
      · rw [hsome] at hpar
        cases hpar

/-- One iteration keeps the invariant. -/
theorem popStep_lightest {s s' : SearchState Q} (hQ : Q.Lawful PrimStep.less)
    (hadj : Mirrored n adj) (h : LightestInv Q n adj s)
    (hret : Returns (popStep Q n (finAdjacency adj) s) (.inl s')) : LightestInv Q n adj s' := by
  rcases popStep_cases hret with ⟨-, hr⟩ | ⟨it, htop, hvis, hr⟩ | ⟨it, htop, hvis, hr⟩
  · cases hr
  · cases hr
    exact h.drop htop hvis
  · cases hr
    exact h.visit hQ hadj htop hvis

/-- Pushing the root of a new tree onto an empty queue. -/
theorem LightestInv.start {s : SearchState Q} (h : LightestInv Q n adj s)
    (hempty : Q.elems s.pq = 0) {start : ℕ} (hstart : start < n)
    (hbelow : ∀ u < start, u ∈ stepNodes s.steps) (components : ℕ) :
    LightestInv Q n adj
      { s with pq := Q.push s.pq ⟨start, none, 0⟩, components := components } where
  grows := h.grows
  visited := h.visited
  bound := h.bound
  items it hit := by
    have hone : Q.elems (Q.push s.pq ⟨start, none, 0⟩) = {⟨start, none, 0⟩} := by
      rw [Q.elems_push, hempty]
      rfl
    have hit' := hit
    rw [hone, Multiset.mem_singleton] at hit'
    rw [hit']
    exact ⟨hstart, Or.inl ⟨rfl, rfl, hone, hbelow⟩⟩
  waiting p hp u w hw := by
    refine (h.waiting p hp u w hw).imp_right fun hmem => ?_
    rw [hempty] at hmem
    exact absurd hmem (Multiset.notMem_zero _)
  weights := h.weights
  roots := h.roots

/-- **One tree**, started while nothing waits and all smaller vertices are visited. -/
theorem growTree_lightest {s s' : SearchState Q} (hQ : Q.Lawful PrimStep.less)
    (hadj : Mirrored n adj) (h : LightestInv Q n adj s) (hempty : Q.elems s.pq = 0) {start : ℕ}
    (hstart : start < n) (hbelow : ∀ u < start, u ∈ stepNodes s.steps)
    (hret : Returns (growTree Q n (finAdjacency adj) s start) s') :
    LightestInv Q n adj s' := by
  unfold growTree at hret
  by_cases hvis : s.visited start = true
  · rw [if_pos hvis] at hret
    rw [hret.of_pure]
    exact h
  · rw [if_neg hvis] at hret
    refine loop_inv (LightestInv Q n adj) (LightestInv Q n adj)
      (fun s₁ s₂ h₁ hstep => popStep_lightest hQ hadj h₁ hstep) (fun s₁ s₂ h₁ hstep => ?_)
      (h.start hempty hstart hbelow _) hret
    rcases popStep_cases hstep with ⟨-, hr⟩ | ⟨it, -, -, hr⟩ | ⟨it, -, -, hr⟩
    · cases hr
      exact h₁
    · cases hr
    · cases hr

/-- In the order of the vertices, those before a vertex are the smaller ones. -/
theorem mem_of_lt_of_range {n x : ℕ} {pre post : List ℕ} (h : List.range n = pre ++ x :: post)
    {u : ℕ} (hu : u < x) : u ∈ pre := by
  have hsorted : (pre ++ x :: post).Pairwise (· < ·) := h ▸ List.pairwise_lt_range
  have hx : x < n := List.mem_range.mp (by rw [h]; simp)
  have hmem : u ∈ pre ++ x :: post := h ▸ List.mem_range.mpr (hu.trans hx)
  rcases List.mem_append.mp hmem with hmem | hmem
  · exact hmem
  · rcases List.mem_cons.mp hmem with rfl | hmem
    · exact absurd hu (lt_irrefl u)
    · have := (List.pairwise_cons.mp (List.pairwise_append.mp hsorted).2.1).1 u hmem
      omega

theorem lightestInv_init : LightestInv Q n adj (initSearch Q) where
  grows := GrowsLightest.nil
  visited v := by simp [initSearch, stepNodes]
  bound _ hv := absurd hv List.not_mem_nil
  items _ hit := by simp [initSearch] at hit
  waiting _ hp := absurd hp List.not_mem_nil
  weights _ hit := absurd hit List.not_mem_nil
  roots _ hit := absurd hit List.not_mem_nil

/-- **The search** keeps the invariant to its end, and visits every vertex. -/
theorem growTrees_lightest (hQ : Q.Lawful PrimStep.less) (hadj : Mirrored n adj) :
    ∃ final, Returns ((List.range n).foldlM (growTree Q n (finAdjacency adj)) (initSearch Q)) final ∧
      LightestInv Q n adj final ∧ BetweenTrees Q n (finAdjacency adj) final ∧
      ∀ v < n, v ∈ stepNodes final.steps := by
  have hrange : ∀ v < n, ∀ e ∈ finAdjacency adj v, e.1 < n := by
    rintro v hv ⟨u, d⟩ he
    obtain ⟨w, -, hmem⟩ := mem_finAdjacency.mp he
    exact (hadj v hv _ hmem).1
  have hstep : ∀ pre v post (s : SearchState Q), List.range n = pre ++ v :: post →
      LightestInv Q n adj s ∧ BetweenTrees Q n (finAdjacency adj) s ∧
        (∀ u ∈ pre, u ∈ stepNodes s.steps) →
      ∃ s', Returns (growTree Q n (finAdjacency adj) s v) s' ∧ LightestInv Q n adj s' ∧
        BetweenTrees Q n (finAdjacency adj) s' ∧ ∀ u ∈ pre ++ [v], u ∈ stepNodes s'.steps := by
    rintro pre v post s hl ⟨hlight, hbetween, hpre⟩
    have hv : v < n := List.mem_range.mp (by rw [hl]; simp)
    obtain ⟨s', hret, hbetween', hprefix, hmem⟩ := growTree_spec (Q := Q) hrange s v hbetween hv
    have hlight' := growTree_lightest hQ hadj hlight hbetween.empty hv
      (fun u hu => hpre u (mem_of_lt_of_range hl hu)) hret
    refine ⟨s', hret, hlight', hbetween', fun u hu => ?_⟩
    rcases List.mem_append.mp hu with hu | hu
    · exact stepNodes_prefix hprefix (hpre u hu)
    · rwa [List.mem_singleton.mp hu]
  obtain ⟨final, hret, hlight, hbetween, hall⟩ := foldlM_returns
    (fun pre s => LightestInv Q n adj s ∧ BetweenTrees Q n (finAdjacency adj) s ∧
      ∀ u ∈ pre, u ∈ stepNodes s.steps) hstep (s := initSearch Q)
    ⟨lightestInv_init, betweenTrees_init, fun u hu => absurd hu List.not_mem_nil⟩
  exact ⟨final, hret, hlight, hbetween, fun v hv => hall v (List.mem_range.mpr hv)⟩

-- ---------------------------------------------------------------------------
-- Components
-- ---------------------------------------------------------------------------

/-- The adjacency list as an undirected graph on the vertices. -/
def adjacencyGraph (n : ℕ) (adj : ℕ → List (ℕ × R)) : SimpleGraph (Fin n) :=
  SimpleGraph.fromRel fun v u => ∃ w, (u.val, w) ∈ adj v.val

omit [Field R] [LinearOrder R] [Root R] in
theorem hasEdge_finAdjacency {a b : ℕ} :
    HasEdge (finAdjacency adj) a b ↔ ∃ w, (b, w) ∈ adj a := by
  simp only [HasEdge, mem_finAdjacency]
  constructor
  · rintro ⟨d, w, -, hmem⟩
    exact ⟨w, hmem⟩
  · rintro ⟨w, hmem⟩
    exact ⟨fin w, w, rfl, hmem⟩

omit [Field R] [LinearOrder R] [Root R] in
/-- Its edges are those of the adjacency list, self-loops apart. -/
theorem adjacencyGraph_adj (hadj : Mirrored n adj) {v u : Fin n} :
    (adjacencyGraph n adj).Adj v u ↔ v ≠ u ∧ HasEdge (finAdjacency adj) v u := by
  rw [adjacencyGraph, SimpleGraph.fromRel_adj, hasEdge_finAdjacency]
  refine and_congr_right fun _ => or_iff_left_of_imp ?_
  rintro ⟨w, hmem⟩
  exact ⟨w, (hadj u u.2 _ hmem).2⟩

/-- Reachability between the vertices, as the search sees it. -/
def VertexAdj (n : ℕ) (adj : ℕ → List (ℕ × R)) (a b : ℕ) : Prop :=
  ∃ v w : Fin n, v.val = a ∧ w.val = b ∧ (adjacencyGraph n adj).Adj v w

/-- The search also is one of the undirected graph. -/
theorem BetweenTrees.vertexGrows {s : SearchState Q}
    (h : BetweenTrees Q n (finAdjacency adj) s) (hadj : Mirrored n adj) :
    SpanningForest.Grows (VertexAdj n adj) (s.steps.map PrimStep.record) := by
  refine h.grows.mono ?_ ?_
  · rintro a b ⟨v, w, rfl, rfl, hvw⟩
    exact ((adjacencyGraph_adj hadj).mp hvw).2
  · intro a ha b hb hne hab
    exact ⟨⟨a, h.bound a ha⟩, ⟨b, h.bound b hb⟩, rfl, rfl,
      (adjacencyGraph_adj hadj).mpr ⟨fun he => hne (Fin.mk.inj he), hab⟩⟩

/-- **Roots.** Every tree is rooted at the least vertex of its component. -/
theorem LightestInv.root_iff {s : SearchState Q} (h : LightestInv Q n adj s)
    (hbetween : BetweenTrees Q n (finAdjacency adj) s) (hadj : Mirrored n adj) {v : Fin n}
    (hv : v.val ∈ stepNodes s.steps) :
    (v.val, none) ∈ s.steps.map PrimStep.record ↔
      ∀ u, (adjacencyGraph n adj).Reachable v u → v ≤ u := by
  have hsymm : ∀ a b, VertexAdj n adj a b → VertexAdj n adj b a := by
    rintro a b ⟨v, w, hv, hw, hvw⟩
    exact ⟨w, v, hw, hv, hvw.symm⟩
  rw [(hbetween.vertexGrows hadj).root_iff_least hsymm ?_ hv]
  · constructor
    · exact fun hleast u hu => hleast u ((SpanningForest.reflTransGen_iff Fin.val_injective v u).mpr hu)
    · intro hleast u hu
      rcases Relation.ReflTransGen.cases_tail hu with rfl | ⟨_, -, _, w, _, rfl, -⟩
      · exact le_refl _
      · exact hleast w ((SpanningForest.reflTransGen_iff Fin.val_injective v w).mp hu)
  · intro c hc u hu hreach
    obtain ⟨it, hit, heq⟩ := List.mem_map.mp hc
    obtain ⟨rfl, hpar⟩ := Prod.mk.inj heq
    refine h.roots it hit hpar u hu (Relation.ReflTransGen.mono ?_ _ _ hreach)
    rintro a b ⟨v, w, rfl, rfl, hvw⟩
    exact ((adjacencyGraph_adj hadj).mp hvw).2

-- ---------------------------------------------------------------------------
-- The forest
-- ---------------------------------------------------------------------------

/-- The entries are a minimum spanning forest of the adjacency list, each tree rooted
at the least vertex of its component and with every parent before its children. -/
structure MinimumForest (n : ℕ) (adj : ℕ → List (ℕ × R)) (t : Trajectory) (weight : Sym2 ℕ → R) :
    Prop where
  children : (t.map Prod.fst).Perm (indices n)
  parents  : ∀ (pre : Trajectory) (e : ℤ × ℤ) (post : Trajectory), t = pre ++ e :: post →
    e.2 = -1 ∨ ∃ (v p : ℕ) (w : R), e = ((v : ℤ), (p : ℤ)) ∧ (v, w) ∈ adj p ∧
      (p : ℤ) ∈ pre.map Prod.fst
  roots    : ∀ v : Fin n, ((v.val : ℤ), -1) ∈ t ↔
    ∀ u, (adjacencyGraph n adj).Reachable v u → v ≤ u
  spanning : IsSpanningForest (adjacencyEdge n adj) (entryEdges t) weight
  minimum  : ∀ F weight', IsSpanningForest (adjacencyEdge n adj) F weight' →
    totalWeight (entryEdges t) weight ≤ totalWeight F weight'

omit [LinearOrder R] [Root R] in
theorem map_entry (steps : List (PrimStep (Exact R))) :
    steps.map PrimStep.entry = (steps.map PrimStep.weighted).map recordEntry := by
  rw [List.map_map]
  refine List.map_congr_left ?_
  rintro ⟨node, _ | p, weight⟩ - <;> rfl

omit [Field R] [LinearOrder R] [Root R] in
theorem mem_entry_root {steps : List (PrimStep (Exact R))} {v : ℕ} :
    ((v : ℤ), -1) ∈ steps.map PrimStep.entry ↔ (v, none) ∈ steps.map PrimStep.record := by
  simp only [List.mem_map]
  refine exists_congr fun it => and_congr_right fun _ => ?_
  obtain ⟨node, _ | p, weight⟩ := it
  · simp [PrimStep.entry, PrimStep.record]
  · simp [PrimStep.entry, PrimStep.record]

omit [Field R] [LinearOrder R] [Root R] in
theorem adjacencyEdge_symm (hadj : Mirrored n adj) (a b : ℕ) (w : R)
    (h : adjacencyEdge n adj a b w) : adjacencyEdge n adj b a w :=
  hadj a h.1 _ h.2

/-- The weights of the steps add up to what has been recorded. -/
theorem LightestInv.totalDist {s : SearchState Q} (h : LightestInv Q n adj s) :
    s.steps.foldl (fun (total : Exact R) it => total + widen it.weight) 0 =
      fin (recordedWeight (s.steps.map PrimStep.weighted)) := by
  have hfold : s.steps.foldl (fun (total : Exact R) it => total + widen it.weight) 0 =
      s.steps.foldl (fun total it => total + fin it.weight.value) 0 :=
    List.foldl_ext _ _ _ fun total it hit => by rw [widen_self, ← (h.weights it hit).1]
  rw [hfold, zero_eq, foldl_add_fin, zero_add, recordedWeight, List.map_map]
  congr 2
  refine List.map_congr_left fun it hit => ?_
  have hroot := (h.weights it hit).2
  obtain ⟨node, _ | p, weight⟩ := it
  · have hzero : weight = 0 := hroot rfl
    rw [hzero]
    rfl
  · rfl

variable [IsStrictOrderedRing R]

/-- **Minimality.** What the search has recorded at its end is a minimum spanning
forest. -/
theorem LightestInv.minimumForest {s : SearchState Q} (h : LightestInv Q n adj s)
    (hbetween : BetweenTrees Q n (finAdjacency adj) s) (hadj : Mirrored n adj)
    (hall : ∀ v < n, v ∈ stepNodes s.steps) :
    ∃ weight, MinimumForest n adj (s.steps.map PrimStep.entry) weight ∧
      totalWeight (entryEdges (s.steps.map PrimStep.entry)) weight =
        recordedWeight (s.steps.map PrimStep.weighted) := by
  obtain ⟨weight, hrecords⟩ := h.grows.exists_records
  have hedges : entryEdges (s.steps.map PrimStep.entry) =
      treeEdges (s.steps.map PrimStep.weighted) := by
    rw [map_entry, entryEdges_recordEntry]
  have hcover : ∀ a b w, adjacencyEdge n adj a b w → a ∈ nodes (s.steps.map PrimStep.weighted) := by
    intro a b w hab
    rw [nodes_weighted]
    exact hall a hab.1
  have htotal := h.grows.totalWeight_eq hrecords
  refine ⟨weight, ⟨(hbetween.toForestSteps.localForest hall).perm, ?_, fun v => ?_, ?_, ?_⟩, ?_⟩
  · intro pre e post hsplit
    obtain ⟨pre', rest', hsteps, rfl, hrest⟩ := List.map_eq_append_iff.mp hsplit
    obtain ⟨it, post', rfl, rfl, rfl⟩ := List.map_eq_cons_iff.mp hrest
    cases hpar : it.parent with
    | none => exact Or.inl ((entry_root_iff it).mpr hpar)
    | some p =>
      have hrec : s.steps.map PrimStep.record = pre'.map PrimStep.record ++
          (it.node, some p) :: post'.map PrimStep.record := by
        rw [hsteps, List.map_append, List.map_cons, PrimStep.record, hpar]
      obtain ⟨hp, hedge⟩ := hbetween.grows.parent_mem _ _ _ _ hrec
      obtain ⟨w, hw⟩ := hasEdge_finAdjacency.mp hedge
      obtain ⟨e, he, rfl⟩ := List.mem_map.mp hp
      obtain ⟨t, ht, rfl⟩ := List.mem_map.mp he
      refine Or.inr ⟨it.node, t.node, w, ?_, hw, ?_⟩
      · rw [PrimStep.entry, hpar]
        rfl
      · exact List.mem_map_of_mem (f := Prod.fst) (List.mem_map_of_mem (f := PrimStep.entry) ht)
  · rw [mem_entry_root]
    exact h.root_iff hbetween hadj (hall v v.2)
  · rw [hedges]
    exact h.grows.isSpanningForest (adjacencyEdge_symm hadj) hcover hrecords
  · intro F weight' hF
    rw [hedges, htotal]
    exact h.grows.minimum (adjacencyEdge_symm hadj) hcover hF
  · rw [hedges, htotal]

/-- **The queue search.** On any mirrored adjacency list with finite weights it returns
the entries of a minimum spanning forest, and the mean weight of its edges. -/
theorem lazyPrim_minimum (hQ : Q.Lawful PrimStep.less) (hadj : Mirrored n adj) :
    ∃ t average weight, Returns (lazyPrim (D := Exact R) Q n (finAdjacency adj)) (t, fin average) ∧
      MinimumForest n adj t weight ∧
      average = if Nat.card (adjacencyGraph n adj).ConnectedComponent < n then
        totalWeight (entryEdges t) weight /
          ((n : R) - Nat.card (adjacencyGraph n adj).ConnectedComponent) else 0 := by
  obtain ⟨final, hret, hlight, hbetween, hall⟩ := growTrees_lightest (Q := Q) hQ hadj
  obtain ⟨weight, hforest, htotal⟩ := hlight.minimumForest hbetween hadj hall
  have hcard : Nat.card (adjacencyGraph n adj).ConnectedComponent = final.components := by
    rw [(hbetween.vertexGrows hadj).card_components Fin.val_injective (fun v => hall v v.2)
      (fun v hv => ⟨⟨v, hbetween.bound v hv⟩, rfl⟩), hbetween.counted, List.countP_map]
    rfl
  refine ⟨_, _, weight, hret.bind ?_, hforest, rfl⟩
  have haverage : averageOver (final.steps.foldl (fun (total : Exact R) it => total + widen it.weight)
      0) (n - final.components) = fin (if Nat.card (adjacencyGraph n adj).ConnectedComponent < n then
        totalWeight (entryEdges (final.steps.map PrimStep.entry)) weight /
          ((n : R) - Nat.card (adjacencyGraph n adj).ConnectedComponent) else 0) := by
    rw [hlight.totalDist, htotal, hcard, averageOver]
    by_cases hlt : final.components < n
    · have hne : ((((n : ℤ) - final.components : ℤ)) : R) ≠ 0 := by
        rw [Int.cast_ne_zero]
        omega
      rw [if_pos hlt, if_pos (by omega), ofInt_eq, fin_div hne]
      push_cast
      rfl
    · rw [if_neg hlt, if_neg (by omega)]
      rfl
  rw [← haverage]
  exact returns_pure _

end Lightest

-- ---------------------------------------------------------------------------
-- A queue and a graph
-- ---------------------------------------------------------------------------

/-- A queue with a lightest edge on top. -/
def lightestFirst (R : Type) [LinearOrder R] : PriorityQueue (PrimStep (Exact R)) :=
  PriorityQueue.byKey fun it => OrderDual.toDual it.weight.rank

theorem lightestFirst_lawful (R : Type) [Field R] [LinearOrder R] [Root R] :
    (lightestFirst R).Lawful PrimStep.less := fun h _ a htop b hb hless =>
  PriorityQueue.byKey_ordered _ h a htop b hb (OrderDual.toDual_lt_toDual.mpr (rank_lt hless))

/-- Two components, with equal weights, a second edge between two vertices, and a
self-loop. -/
def twoComponents (v : ℕ) : List (ℕ × ℚ) :=
  match v with
  | 0 => [(1, 2), (2, 2), (1, -1)]
  | 1 => [(0, 2), (2, 2), (0, -1)]
  | 2 => [(1, 2), (0, 2)]
  | 3 => [(4, 5)]
  | 4 => [(3, 5), (4, 0)]
  | _ => []

theorem twoComponents_minimum : ∃ t average weight,
    Returns (lazyPrim (D := Exact ℚ) (lightestFirst ℚ) 5 (finAdjacency twoComponents))
      (t, fin average) ∧
    MinimumForest 5 twoComponents t weight ∧
    average = if Nat.card (adjacencyGraph 5 twoComponents).ConnectedComponent < 5 then
      totalWeight (entryEdges t) weight /
        (((5 : ℕ) : ℚ) - Nat.card (adjacencyGraph 5 twoComponents).ConnectedComponent) else 0 :=
  lazyPrim_minimum (lightestFirst_lawful ℚ) (by unfold Mirrored; decide)

end Mqo
