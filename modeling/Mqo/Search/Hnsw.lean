import Mqo.Lib.Flags
import Mqo.Lib.PriorityQueue
import Mqo.Search.VisitedList

/-!
# MQO — searching an HNSW index

`searchBaseLayerST_mine` and `searchKnn_mine` of `hnsw_exp/hnswlib/hnswalg.h`.
The search of the bottom layer keeps the best `ef` elements seen in a heap and
the elements still to be expanded in another; `searchKnn_mine` starts it from
the given points, or from the element that the greedy descent through the upper
layers ends at.

That a search ends, and what kind of results it has, holds whatever the distances
are, a NaN included. Which element it finds is proved for finite distances: these are
linearly ordered and bounded by `maxValue`, the value of
`numeric_limits<dist_t>::max()`.

* `baseLoop_returns`     — the main loop ends, whatever invariant it is run with;
* `searchBaseLayer_same` — the search of the bottom layer does not depend on the
  visited list it was given;
* `searchKnnMine_returns` — every search ends with labels of elements;
* `considered_inv`       — visiting a neighbour keeps the invariant `BaseInv`:
  an element at least as close as any visited one is among the results;
* `searchBaseLayer_spec` — this element is there when the bottom layer has been searched;
* `searchKnnMine_spec`   — the whole search returns one element, the same from
  every pool of visited lists, no farther than any starting point.
-/

namespace Mqo.Search.Hnsw

open Prog Flags

-- ---------------------------------------------------------------------------
-- The index
-- ---------------------------------------------------------------------------

/-- `HierarchicalNSW<dist_t>`: what a search reads. The links of an element at a
level lead to elements that reach this level. -/
structure HierarchicalNSW (V K : Type) where
  max_elements : ℕ
  cur_element_count : ℕ
  enterpoint_node : ℕ
  maxlevel : ℕ
  element_levels : ℕ → ℕ
  linklist : ℕ → ℕ → List ℕ
  data : ℕ → V
  externalLabel : ℕ → ℕ
  fstdistfunc : V → V → K
  capacity : cur_element_count ≤ max_elements
  enter_lt : 0 < cur_element_count → enterpoint_node < cur_element_count
  enter_level : maxlevel ≤ element_levels enterpoint_node
  link_lt : ∀ level, ∀ id < cur_element_count, level ≤ element_levels id →
    ∀ u ∈ linklist level id, u < cur_element_count
  link_level : ∀ level, ∀ id < cur_element_count, level ≤ element_levels id →
    ∀ u ∈ linklist level id, level ≤ element_levels u

section Search

variable {V K : Type} [Preorder K] [DecidableLT K] [Neg K]

/-- The distance of the query to an element. -/
def HierarchicalNSW.dist (index : HierarchicalNSW V K) (query_data : V) (id : ℕ) : K :=
  index.fstdistfunc query_data (index.data id)

/-- `get_linklist`; the lists of an element end at its own level. -/
def HierarchicalNSW.getLinklist (index : HierarchicalNSW V K) (id level : ℕ) : Run (List ℕ) :=
  if level ≤ index.element_levels id then pure (index.linklist level id) else fault .outOfRange

-- ---------------------------------------------------------------------------
-- The bottom layer
-- ---------------------------------------------------------------------------

/-- The state of `searchBaseLayerST_mine`. -/
structure BaseState (Q : PriorityQueue (K × ℕ)) (n : ℕ) where
  visited : VisitedList n
  top_candidates : Q.Heap
  candidate_set : Q.Heap
  lowerBound : K

variable (Q : PriorityQueue (K × ℕ)) (index : HierarchicalNSW V K) (query : V)

/-- The initialisation for one entry point. -/
def addEntryPoint (s : BaseState Q index.max_elements) (ep_id : ℕ) :
    Run (BaseState Q index.max_elements) := do
  let visited ← s.visited.visit ep_id
  let dist := index.dist query ep_id
  pure
    { visited := visited
      top_candidates := Q.push s.top_candidates (dist, ep_id)
      candidate_set := Q.push s.candidate_set (-dist, ep_id)
      lowerBound := if dist < s.lowerBound then dist else s.lowerBound }

/-- The pushes and evictions for a neighbour that has just been marked. -/
def offerCandidate (ef : ℕ) (s : BaseState Q index.max_elements) (candidate_id : ℕ) :
    BaseState Q index.max_elements :=
  let dist := index.dist query candidate_id
  if Q.size s.top_candidates < ef ∨ dist < s.lowerBound then
    let top_candidates := Q.shrink ef (Q.push s.top_candidates (dist, candidate_id))
    { s with
      candidate_set := Q.push s.candidate_set (-dist, candidate_id)
      top_candidates := top_candidates
      lowerBound := match Q.top top_candidates with
        | some top => top.1
        | none => s.lowerBound }
  else s

/-- One neighbour of the element being expanded. -/
def considerNeighbor (ef : ℕ) (s : BaseState Q index.max_elements) (candidate_id : ℕ) :
    Run (BaseState Q index.max_elements) := do
  let seen ← s.visited.isVisited candidate_id
  if seen then pure s
  else do
    let visited ← s.visited.visit candidate_id
    pure (offerCandidate Q index query ef { s with visited := visited } candidate_id)

/-- One iteration of the main loop. -/
def baseStep (ef : ℕ) (s : BaseState Q index.max_elements) :
    Run (BaseState Q index.max_elements ⊕ BaseState Q index.max_elements) :=
  match Q.top s.candidate_set with
  | none => pure (.inr s)
  | some current_node_pair =>
    let candidate_dist := -current_node_pair.1
    if s.lowerBound < candidate_dist then pure (.inr s)
    else do
      let s' ← (index.linklist 0 current_node_pair.2).foldlM (considerNeighbor Q index query ef)
        { s with candidate_set := Q.pop s.candidate_set }
      pure (.inl s')

/-- `searchBaseLayerST_mine` on the visited list it has been given. -/
def searchBaseLayer (maxValue : K) (ep_ids : List ℕ) (ef : ℕ)
    (vl : VisitedList index.max_elements) : Run (BaseState Q index.max_elements) := do
  let s ← ep_ids.foldlM (addEntryPoint Q index query) ⟨vl, Q.empty, Q.empty, maxValue⟩
  loop (baseStep Q index query ef) s

/-- `searchBaseLayerST_mine` -/
def searchBaseLayerSTMine (maxValue : K) (ep_ids : List ℕ) (ef : ℕ) (mem : ℕ → UInt16)
    (pool : VisitedListPool index.max_elements) :
    Run (Q.Heap × VisitedListPool index.max_elements) := do
  let vl := pool.getFreeVisitedList mem
  let s ← searchBaseLayer Q index query maxValue ep_ids ef vl.1
  pure (s.top_candidates, vl.2.releaseVisitedList s.visited)

-- ---------------------------------------------------------------------------
-- The whole search
-- ---------------------------------------------------------------------------

/-- One link of the greedy descent; the state is `currObj`, `curdist`, `changed`. -/
def greedyLink (s : (ℕ × K) × Bool) (cand : ℕ) : Run ((ℕ × K) × Bool) :=
  if index.max_elements < cand then fault (.exception "cand error")
  else
    let d := index.dist query cand
    pure (if d < s.1.2 then ((cand, d), true) else s)

/-- One pass of `while (changed)` on a level. -/
def greedyStep (level : ℕ) (s : ℕ × K) : Run ((ℕ × K) ⊕ (ℕ × K)) := do
  let data ← index.getLinklist s.1 level
  let r ← data.foldlM (greedyLink index query) (s, false)
  pure (if r.2 then .inl r.1 else .inr r.1)

/-- The descent from the given level to level 1. -/
def descendFrom : ℕ → ℕ × K → Run (ℕ × K)
  | 0, s => pure s
  | level + 1, s => do
    let s' ← loop (greedyStep index query (level + 1)) s
    descendFrom level s'

/-- The descent through the upper layers. -/
def descend : Run (ℕ × K) :=
  descendFrom index query index.maxlevel
    (index.enterpoint_node, index.dist query index.enterpoint_node)

/-- The points the bottom layer is searched from: those given, or the one that the
descent ends at. -/
def startingPoints (starting_points : List ℕ) : Run (List ℕ) :=
  if starting_points.length = 0 then do
    let currObj ← descend index query
    pure [currObj.1]
  else pure starting_points

/-- The last loop of `searchKnn_mine`. -/
def labelResults (R : PriorityQueue (K × ℕ)) (top_candidates : Q.Heap) : R.Heap :=
  (Q.drain top_candidates).foldl
    (fun result rez => R.push result (rez.1, index.externalLabel rez.2)) R.empty

/-- `searchKnn_mine`; the results go into a second queue, with their labels. -/
def searchKnnMine (R : PriorityQueue (K × ℕ)) (maxValue : K) (ef k : ℕ)
    (starting_points : List ℕ) (mem : ℕ → UInt16) (pool : VisitedListPool index.max_elements) :
    Run (R.Heap × VisitedListPool index.max_elements) :=
  if index.cur_element_count = 0 then pure (R.empty, pool)
  else do
    let points ← startingPoints index query starting_points
    let r ← searchBaseLayerSTMine Q index query maxValue points (max ef k) mem pool
    pure (labelResults Q index R (Q.shrink k r.1), r.2)

-- ---------------------------------------------------------------------------
-- The invariant of the bottom layer
-- ---------------------------------------------------------------------------

variable {Q index query}

/-- The closest visited element is never evicted. -/
structure BaseInv (Q : PriorityQueue (K × ℕ)) (index : HierarchicalNSW V K) (query : V)
    (s : BaseState Q index.max_elements) : Prop where
  visited_lt : ∀ id, s.visited.marked id = true → id < index.cur_element_count
  candidate  : ∀ e ∈ Q.elems s.candidate_set, e.2 < index.cur_element_count
  top        : ∀ e ∈ Q.elems s.top_candidates, e.2 < index.cur_element_count ∧
    e.1 = index.dist query e.2
  best       : ∀ id, s.visited.marked id = true →
    ∃ e ∈ Q.elems s.top_candidates, e.1 ≤ index.dist query id
  bound      : ∃ e ∈ Q.elems s.top_candidates, e.1 ≤ s.lowerBound

/-- Elements not visited yet, and candidates that wait: neither a visit nor a pop
increases their number. -/
def baseMeasure (s : BaseState Q index.max_elements) : ℕ :=
  (unset index.cur_element_count s.visited.marked).card + Q.size s.candidate_set

/-- The offer pushes at most one candidate. -/
theorem size_offerCandidate_le (query : V) (ef : ℕ) (s : BaseState Q index.max_elements) (id : ℕ) :
    Q.size (offerCandidate Q index query ef s id).candidate_set ≤ Q.size s.candidate_set + 1 := by
  unfold offerCandidate
  dsimp only
  split
  · exact (Q.size_push _ _).le
  · omega

theorem visited_offerCandidate (ef : ℕ) (s : BaseState Q index.max_elements) (id : ℕ) :
    (offerCandidate Q index query ef s id).visited = s.visited := by
  unfold offerCandidate
  dsimp only
  split <;> rfl

variable (Q index query)

/-- What `considerNeighbor` does to an element of the index. -/
def considered (ef : ℕ) (s : BaseState Q index.max_elements) (id : ℕ) :
    BaseState Q index.max_elements :=
  if s.visited.marked id then s
  else offerCandidate Q index query ef { s with visited := s.visited.mark id } id

/-- The state after the element behind a candidate has been expanded. -/
def expanded (ef : ℕ) (s : BaseState Q index.max_elements) (e : K × ℕ) :
    BaseState Q index.max_elements :=
  (index.linklist 0 e.2).foldl (considered Q index query ef)
    { s with candidate_set := Q.pop s.candidate_set }

variable {Q index query}

theorem considered_of_marked {ef : ℕ} {s : BaseState Q index.max_elements} {id : ℕ}
    (h : s.visited.marked id = true) : considered Q index query ef s id = s := by
  rw [considered, if_pos h]

theorem considered_of_unmarked {ef : ℕ} {s : BaseState Q index.max_elements} {id : ℕ}
    (h : s.visited.marked id = false) : considered Q index query ef s id =
      offerCandidate Q index query ef { s with visited := s.visited.mark id } id := by
  rw [considered, h, if_neg Bool.false_ne_true]

/-- **One neighbour.** -/
theorem considerNeighbor_returns {ef : ℕ} (s : BaseState Q index.max_elements) {id : ℕ}
    (hid : id < index.max_elements) :
    Returns (considerNeighbor Q index query ef s id) (considered Q index query ef s id) := by
  refine (VisitedList.isVisited_returns hid).bind ?_
  unfold considered
  split
  · exact returns_pure _
  · exact (VisitedList.visit_returns hid).bind (returns_pure _)

theorem marked_considered (ef : ℕ) (s : BaseState Q index.max_elements) (id i : ℕ) :
    (considered Q index query ef s id).visited.marked i = true ↔
      i = id ∨ s.visited.marked i = true := by
  cases hseen : s.visited.marked id with
  | true =>
    rw [considered_of_marked hseen]
    exact ⟨Or.inr, fun hi => hi.elim (fun heq => heq ▸ hseen) fun hi => hi⟩
  | false =>
    rw [considered_of_unmarked hseen, visited_offerCandidate]
    exact s.visited.marked_mark id i

theorem baseMeasure_considered_le (ef : ℕ) (s : BaseState Q index.max_elements) {id : ℕ}
    (hid : id < index.cur_element_count) :
    baseMeasure (considered Q index query ef s id) ≤ baseMeasure s := by
  cases hseen : s.visited.marked id with
  | true => rw [considered_of_marked hseen]
  | false =>
    have hcard := card_unvisited hid hseen
    have hsize := size_offerCandidate_le query ef { s with visited := s.visited.mark id } id
    rw [considered_of_unmarked hseen]
    unfold baseMeasure
    rw [visited_offerCandidate, hcard]
    dsimp only at hsize ⊢
    omega

/-- Only the neighbour itself can become a candidate. -/
theorem candidate_considered {ef : ℕ} {s : BaseState Q index.max_elements} {id : ℕ} {e : K × ℕ}
    (he : e ∈ Q.elems (considered Q index query ef s id).candidate_set) :
    e = (-index.dist query id, id) ∨ e ∈ Q.elems s.candidate_set := by
  unfold considered offerCandidate at he
  dsimp only at he
  split at he
  · exact Or.inr he
  · split at he
    · rw [Q.elems_push, Multiset.mem_cons] at he
      exact he
    · exact Or.inr he

/-- Only the neighbour itself can become a result. -/
theorem top_considered {ef : ℕ} {s : BaseState Q index.max_elements} {id : ℕ} {e : K × ℕ}
    (he : e ∈ Q.elems (considered Q index query ef s id).top_candidates) :
    e = (index.dist query id, id) ∨ e ∈ Q.elems s.top_candidates := by
  unfold considered offerCandidate at he
  dsimp only at he
  split at he
  · exact Or.inr he
  · split at he
    · have he' := Q.mem_of_mem_shrink he
      rw [Q.elems_push, Multiset.mem_cons] at he'
      exact he'
    · exact Or.inr he

omit [DecidableLT K] [Neg K] in
/-- Popping a candidate keeps the invariant. -/
theorem BaseInv.pop {s : BaseState Q index.max_elements} (h : BaseInv Q index query s)
    {e : K × ℕ} (htop : Q.top s.candidate_set = some e) :
    BaseInv Q index query { s with candidate_set := Q.pop s.candidate_set } :=
  ⟨h.visited_lt, fun e' he' => h.candidate e' (Q.mem_of_mem_pop htop he'), h.top, h.best, h.bound⟩

-- ---------------------------------------------------------------------------
-- One iteration
-- ---------------------------------------------------------------------------

/-- What holds after every neighbour holds after an expansion. -/
theorem expanded_induction {ef : ℕ} {s : BaseState Q index.max_elements} {e : K × ℕ}
    (hid : e.2 < index.cur_element_count) {P : BaseState Q index.max_elements → Prop}
    (hpop : P { s with candidate_set := Q.pop s.candidate_set })
    (hstep : ∀ s', P s' → ∀ u ∈ index.linklist 0 e.2, u < index.cur_element_count →
      P (considered Q index query ef s' u)) :
    P (expanded Q index query ef s e) :=
  List.foldlRecOn _ _ hpop fun s' hs' u hu =>
    hstep s' hs' u hu (index.link_lt 0 e.2 hid (Nat.zero_le _) u hu)

/-- After the neighbours have been visited all of them are marked. -/
theorem marked_neighbours (ef : ℕ) (links : List ℕ) (s : BaseState Q index.max_elements) {u : ℕ}
    (hu : u ∈ links ∨ s.visited.marked u = true) :
    (links.foldl (considered Q index query ef) s).visited.marked u = true := by
  induction links generalizing s with
  | nil => exact hu.resolve_left List.not_mem_nil
  | cons v links ih =>
    refine ih _ ?_
    rw [marked_considered]
    rcases hu with hu | hu
    · exact (List.mem_cons.mp hu).elim (fun heq => Or.inr (Or.inl heq)) Or.inl
    · exact Or.inr (Or.inr hu)

/-- The candidates stay in the index. -/
theorem candidate_expanded_lt (ef : ℕ) {s : BaseState Q index.max_elements}
    (hs : ∀ e ∈ Q.elems s.candidate_set, e.2 < index.cur_element_count) {e : K × ℕ}
    (htop : Q.top s.candidate_set = some e) :
    ∀ e' ∈ Q.elems (expanded Q index query ef s e).candidate_set, e'.2 < index.cur_element_count := by
  refine expanded_induction (hs e (Q.top_mem htop))
    (P := fun s' => ∀ e' ∈ Q.elems s'.candidate_set, e'.2 < index.cur_element_count)
    (fun e' he' => hs e' (Q.mem_of_mem_pop htop he')) fun s' hs' u _ hu e' he' => ?_
  rcases candidate_considered he' with rfl | he'
  · exact hu
  · exact hs' e' he'

/-- An expansion uses up its candidate. -/
theorem baseMeasure_expanded_lt (ef : ℕ) {s : BaseState Q index.max_elements} {e : K × ℕ}
    (htop : Q.top s.candidate_set = some e) (hid : e.2 < index.cur_element_count) :
    baseMeasure (expanded Q index query ef s e) < baseMeasure s := by
  have hle : baseMeasure (expanded Q index query ef s e) ≤
      baseMeasure { s with candidate_set := Q.pop s.candidate_set } :=
    expanded_induction hid (P := fun s' => baseMeasure s' ≤
        baseMeasure { s with candidate_set := Q.pop s.candidate_set }) (le_refl _)
      fun s' hs' u _ hu => (baseMeasure_considered_le ef s' hu).trans hs'
  have hsize := Q.size_pop htop
  unfold baseMeasure at hle ⊢
  dsimp only at hle
  omega

/-- An iteration that expands the closest candidate. -/
theorem baseStep_next {ef : ℕ} {s : BaseState Q index.max_elements} {e : K × ℕ}
    (htop : Q.top s.candidate_set = some e) (hbound : ¬ s.lowerBound < -e.1)
    (hid : e.2 < index.cur_element_count) :
    Returns (baseStep Q index query ef s) (.inl (expanded Q index query ef s e)) := by
  unfold baseStep
  rw [htop]
  dsimp only
  rw [if_neg hbound]
  have hfold := foldlM_foldl (f := considerNeighbor Q index query ef)
    (fun s' u hu => considerNeighbor_returns s'
      ((index.link_lt 0 e.2 hid (Nat.zero_le _) u hu).trans_le index.capacity))
    { s with candidate_set := Q.pop s.candidate_set }
  exact hfold.bind (returns_pure _)

/-- The loop is left when no candidate is within the bound. -/
theorem baseStep_stop {ef : ℕ} {s : BaseState Q index.max_elements}
    (h : ∀ e, Q.top s.candidate_set = some e → s.lowerBound < -e.1) :
    Returns (baseStep Q index query ef s) (.inr s) := by
  unfold baseStep
  cases htop : Q.top s.candidate_set with
  | none => exact returns_pure _
  | some e =>
    dsimp only
    rw [if_pos (h e htop)]
    exact returns_pure _

/-- **One iteration** of the main loop expands a candidate, or it leaves the loop. -/
theorem baseStep_cases (ef : ℕ) {s : BaseState Q index.max_elements}
    (h : ∀ e ∈ Q.elems s.candidate_set, e.2 < index.cur_element_count) :
    (∃ e, Q.top s.candidate_set = some e ∧ ¬ s.lowerBound < -e.1 ∧
      Returns (baseStep Q index query ef s) (.inl (expanded Q index query ef s e))) ∨
    ((∀ e, Q.top s.candidate_set = some e → s.lowerBound < -e.1) ∧
      Returns (baseStep Q index query ef s) (.inr s)) := by
  by_cases hstop : ∀ e, Q.top s.candidate_set = some e → s.lowerBound < -e.1
  · exact Or.inr ⟨hstop, baseStep_stop hstop⟩
  · obtain ⟨e, hcontinue⟩ := not_forall.mp hstop
    obtain ⟨htop, hbound⟩ := Classical.not_imp.mp hcontinue
    exact Or.inl ⟨e, htop, hbound, baseStep_next htop hbound (h e (Q.top_mem htop))⟩

/-- **The main loop** ends within every invariant that keeps the candidates in the
index. -/
theorem baseLoop_returns {ef : ℕ} (I : BaseState Q index.max_elements → Prop)
    (hcandidate : ∀ s, I s → ∀ e ∈ Q.elems s.candidate_set, e.2 < index.cur_element_count)
    (hstep : ∀ s e, I s → Q.top s.candidate_set = some e → ¬ s.lowerBound < -e.1 →
      I (expanded Q index query ef s e)) {s : BaseState Q index.max_elements} (hs : I s) :
    ∃ r, Returns (loop (baseStep Q index query ef) s) r ∧ I r ∧
      ∀ e, Q.top r.candidate_set = some e → r.lowerBound < -e.1 := by
  refine loop_returns I baseMeasure _ (fun s hI => ?_) hs
  rcases baseStep_cases ef (hcandidate s hI) with ⟨e, htop, hbound, hret⟩ | ⟨hstop, hret⟩
  · exact Or.inl ⟨_, hret, hstep s e hI htop hbound,
      baseMeasure_expanded_lt ef htop (hcandidate s hI e (Q.top_mem htop))⟩
  · exact Or.inr ⟨s, hret, hI, hstop⟩

-- ---------------------------------------------------------------------------
-- The entry points
-- ---------------------------------------------------------------------------

variable (Q index query)

/-- What `addEntryPoint` does to an element of the index. -/
def entered (s : BaseState Q index.max_elements) (ep_id : ℕ) : BaseState Q index.max_elements where
  visited := s.visited.mark ep_id
  top_candidates := Q.push s.top_candidates (index.dist query ep_id, ep_id)
  candidate_set := Q.push s.candidate_set (-index.dist query ep_id, ep_id)
  lowerBound := if index.dist query ep_id < s.lowerBound then index.dist query ep_id else s.lowerBound

variable {Q index query}

theorem addEntryPoint_returns (s : BaseState Q index.max_elements) {ep_id : ℕ}
    (hep : ep_id < index.max_elements) :
    Returns (addEntryPoint Q index query s ep_id) (entered Q index query s ep_id) :=
  (VisitedList.visit_returns hep).bind (returns_pure _)

theorem marked_entered (s : BaseState Q index.max_elements) (ep_id i : ℕ) :
    (entered Q index query s ep_id).visited.marked i = true ↔
      i = ep_id ∨ s.visited.marked i = true :=
  s.visited.marked_mark ep_id i

theorem top_entered (s : BaseState Q index.max_elements) (ep_id : ℕ) :
    Q.elems (entered Q index query s ep_id).top_candidates =
      (index.dist query ep_id, ep_id) ::ₘ Q.elems s.top_candidates :=
  Q.elems_push _ _

theorem candidate_entered (s : BaseState Q index.max_elements) (ep_id : ℕ) :
    Q.elems (entered Q index query s ep_id).candidate_set =
      (-index.dist query ep_id, ep_id) ::ₘ Q.elems s.candidate_set :=
  Q.elems_push _ _

/-- The seeds have been marked and pushed to both queues. -/
structure SeedInv (Q : PriorityQueue (K × ℕ)) (index : HierarchicalNSW V K) (query : V)
    (maxValue : K) (seeds : List ℕ) (s : BaseState Q index.max_elements) : Prop where
  visited   : ∀ id, s.visited.marked id = true ↔ id ∈ seeds
  candidate : ∀ e ∈ Q.elems s.candidate_set, e.2 ∈ seeds
  top       : ∀ e ∈ Q.elems s.top_candidates, e.2 ∈ seeds ∧ e.1 = index.dist query e.2
  seeded    : ∀ id ∈ seeds, (index.dist query id, id) ∈ Q.elems s.top_candidates
  bound     : s.lowerBound = maxValue ∨ ∃ e ∈ Q.elems s.top_candidates, e.1 ≤ s.lowerBound

omit [DecidableLT K] [Neg K] in
/-- Nothing has been pushed yet. -/
theorem SeedInv.nil {maxValue : K} {vl : VisitedList index.max_elements} (hvl : vl.Unmarked) :
    SeedInv Q index query maxValue [] ⟨vl, Q.empty, Q.empty, maxValue⟩ :=
  ⟨fun id => by simp [hvl id], fun e he => by simp at he, fun e he => by simp at he,
    fun id hid => absurd hid List.not_mem_nil, Or.inl rfl⟩

theorem SeedInv.enter {maxValue : K} {seeds : List ℕ} {s : BaseState Q index.max_elements}
    (h : SeedInv Q index query maxValue seeds s) (ep_id : ℕ) :
    SeedInv Q index query maxValue (seeds ++ [ep_id]) (entered Q index query s ep_id) := by
  refine ⟨fun id => ?_, fun e he => ?_, fun e he => ?_, fun id hid => ?_, ?_⟩
  · rw [marked_entered, h.visited, List.mem_append, List.mem_singleton, or_comm]
  · rw [candidate_entered, Multiset.mem_cons] at he
    rcases he with rfl | he
    · simp
    · exact List.mem_append_left _ (h.candidate e he)
  · rw [top_entered, Multiset.mem_cons] at he
    rcases he with rfl | he
    · exact ⟨by simp, rfl⟩
    · exact ⟨List.mem_append_left _ (h.top e he).1, (h.top e he).2⟩
  · rw [top_entered, Multiset.mem_cons]
    rcases List.mem_append.mp hid with hid | hid
    · exact Or.inr (h.seeded id hid)
    · exact Or.inl (by rw [List.mem_singleton.mp hid])
  · unfold entered
    dsimp only
    split
    · exact Or.inr ⟨(index.dist query ep_id, ep_id), by simp, le_refl _⟩
    · rcases h.bound with hmax | ⟨e, he, hle⟩
      · exact Or.inl hmax
      · exact Or.inr ⟨e, by simp [he], hle⟩

/-- **The entry points.** -/
theorem entryPoints_returns (query : V) (maxValue : K) {ep_ids : List ℕ}
    (heps : ∀ id ∈ ep_ids, id < index.cur_element_count) {vl : VisitedList index.max_elements}
    (hvl : vl.Unmarked) :
    ∃ s, Returns (ep_ids.foldlM (addEntryPoint Q index query) ⟨vl, Q.empty, Q.empty, maxValue⟩) s ∧
      SeedInv Q index query maxValue ep_ids s :=
  foldlM_returns (SeedInv Q index query maxValue)
    (fun pre id post s hsplit hs => ⟨_, addEntryPoint_returns s
      ((heps id (by rw [hsplit]; simp)).trans_le index.capacity), hs.enter id⟩) (.nil hvl)

omit [DecidableLT K] [Neg K] in
/-- The main loop starts within its invariant. -/
theorem SeedInv.baseInv {maxValue : K}
    (hfin : ∀ id < index.cur_element_count, index.dist query id ≤ maxValue) {seeds : List ℕ}
    (hne : seeds ≠ []) (hseeds : ∀ id ∈ seeds, id < index.cur_element_count)
    {s : BaseState Q index.max_elements} (h : SeedInv Q index query maxValue seeds s) :
    BaseInv Q index query s where
  visited_lt id hid := hseeds id ((h.visited id).mp hid)
  candidate e he := hseeds e.2 (h.candidate e he)
  top e he := ⟨hseeds e.2 (h.top e he).1, (h.top e he).2⟩
  best id hid := ⟨_, h.seeded id ((h.visited id).mp hid), le_refl _⟩
  bound := by
    rcases h.bound with hmax | hex
    · obtain ⟨id, hid⟩ := List.exists_mem_of_ne_nil seeds hne
      exact ⟨_, h.seeded id hid, hmax ▸ hfin id (hseeds id hid)⟩
    · exact hex

-- ---------------------------------------------------------------------------
-- Independence of the visited list
-- ---------------------------------------------------------------------------

/-- Two states that agree on everything but the tags behind the marks. -/
structure SameSearch (s t : BaseState Q index.max_elements) : Prop where
  visited   : ∀ i, s.visited.marked i = t.visited.marked i
  top       : s.top_candidates = t.top_candidates
  candidate : s.candidate_set = t.candidate_set
  bound     : s.lowerBound = t.lowerBound

/-- Marking the same element keeps the marks equal. -/
theorem marked_mark_congr {n : ℕ} {vl vl' : VisitedList n}
    (h : ∀ i, vl.marked i = vl'.marked i) (id i : ℕ) :
    (vl.mark id).marked i = (vl'.mark id).marked i := by
  rw [Bool.eq_iff_iff, VisitedList.marked_mark, VisitedList.marked_mark, h]

theorem addEntryPoint_same {s t s' : BaseState Q index.max_elements} (hst : SameSearch s t)
    {ep_id : ℕ} (h : Returns (addEntryPoint Q index query s ep_id) s') :
    ∃ t', Returns (addEntryPoint Q index query t ep_id) t' ∧ SameSearch s' t' := by
  obtain ⟨vl, hvl, hs'⟩ := h.of_bind
  obtain ⟨hlt, rfl⟩ := VisitedList.visit_inv hvl
  obtain rfl := hs'.of_pure
  refine ⟨_, (VisitedList.visit_returns hlt).bind (returns_pure _),
    marked_mark_congr hst.visited ep_id, ?_, ?_, ?_⟩
  · dsimp only
    rw [hst.top]
  · dsimp only
    rw [hst.candidate]
  · dsimp only
    rw [hst.bound]

theorem offerCandidate_same {s t : BaseState Q index.max_elements} (hst : SameSearch s t)
    (ef id : ℕ) : SameSearch (offerCandidate Q index query ef s id)
      (offerCandidate Q index query ef t id) := by
  unfold offerCandidate
  dsimp only
  rw [hst.top, hst.bound, hst.candidate]
  split
  · exact ⟨hst.visited, rfl, rfl, rfl⟩
  · exact hst

theorem considerNeighbor_same {ef : ℕ} {s t s' : BaseState Q index.max_elements}
    (hst : SameSearch s t) {id : ℕ} (h : Returns (considerNeighbor Q index query ef s id) s') :
    ∃ t', Returns (considerNeighbor Q index query ef t id) t' ∧ SameSearch s' t' := by
  obtain ⟨b, hseen, hs'⟩ := h.of_bind
  obtain ⟨hlt, rfl⟩ := VisitedList.isVisited_inv hseen
  have hseen' : Returns (t.visited.isVisited id) (t.visited.marked id) :=
    VisitedList.isVisited_returns hlt
  rw [hst.visited] at hs'
  cases hb : t.visited.marked id with
  | true =>
    rw [hb, if_pos rfl] at hs'
    obtain rfl := hs'.of_pure
    refine ⟨t, hseen'.bind ?_, hst⟩
    rw [hb, if_pos rfl]
    exact returns_pure _
  | false =>
    rw [hb, if_neg Bool.false_ne_true] at hs'
    obtain ⟨vl, hvl, hs'⟩ := hs'.of_bind
    obtain ⟨-, rfl⟩ := VisitedList.visit_inv hvl
    obtain rfl := hs'.of_pure
    have hmark : SameSearch { s with visited := s.visited.mark id }
        { t with visited := t.visited.mark id } :=
      ⟨marked_mark_congr hst.visited id, hst.top, hst.candidate, hst.bound⟩
    refine ⟨_, hseen'.bind ?_, offerCandidate_same hmark ef id⟩
    rw [hb, if_neg Bool.false_ne_true]
    exact (VisitedList.visit_returns hlt).bind (returns_pure _)

theorem baseStep_same {ef : ℕ} {s t : BaseState Q index.max_elements} (hst : SameSearch s t) :
    (∀ s', Returns (baseStep Q index query ef s) (.inl s') →
      ∃ t', Returns (baseStep Q index query ef t) (.inl t') ∧ SameSearch s' t') ∧
    ∀ s', Returns (baseStep Q index query ef s) (.inr s') →
      ∃ t', Returns (baseStep Q index query ef t) (.inr t') ∧ SameSearch s' t' := by
  unfold baseStep
  rw [hst.candidate, hst.bound]
  cases Q.top t.candidate_set with
  | none =>
    refine ⟨fun s' h => ?_, fun s' h => ?_⟩
    · cases h.of_pure
    · cases h.of_pure
      exact ⟨t, returns_pure _, hst⟩
  | some e =>
    dsimp only
    split
    · refine ⟨fun s' h => ?_, fun s' h => ?_⟩
      · cases h.of_pure
      · cases h.of_pure
        exact ⟨t, returns_pure _, hst⟩
    · refine ⟨fun s' h => ?_, fun s' h => ?_⟩
      · obtain ⟨s₁, hfold, hs'⟩ := h.of_bind
        cases hs'.of_pure
        have hpop : SameSearch ⟨s.visited, s.top_candidates, Q.pop t.candidate_set, t.lowerBound⟩
            { t with candidate_set := Q.pop t.candidate_set } :=
          ⟨hst.visited, hst.top, rfl, rfl⟩
        obtain ⟨t', hfold', hst'⟩ := foldlM_sim (g := considerNeighbor Q index query ef)
          SameSearch (fun _ _ _ _ _ hst h => considerNeighbor_same hst h) hpop hfold
        exact ⟨t', hfold'.bind (returns_pure _), hst'⟩
      · obtain ⟨s₁, -, hs'⟩ := h.of_bind
        cases hs'.of_pure

/-- **The visited list does not matter.** Two searches from lists without marks
return the same results, whatever else the lists hold. -/
theorem searchBaseLayer_same {maxValue : K} {ep_ids : List ℕ} {ef : ℕ}
    {vl vl' : VisitedList index.max_elements} (hvl : vl.Unmarked) (hvl' : vl'.Unmarked)
    {s : BaseState Q index.max_elements}
    (h : Returns (searchBaseLayer Q index query maxValue ep_ids ef vl) s) :
    ∃ t, Returns (searchBaseLayer Q index query maxValue ep_ids ef vl') t ∧ SameSearch s t := by
  obtain ⟨s₀, hinit, hloop⟩ := h.of_bind
  have hstart : SameSearch (⟨vl, Q.empty, Q.empty, maxValue⟩ : BaseState Q _)
      ⟨vl', Q.empty, Q.empty, maxValue⟩ :=
    ⟨fun i => (hvl i).trans (hvl' i).symm, rfl, rfl, rfl⟩
  obtain ⟨t₀, hinit', hst₀⟩ := foldlM_sim (g := addEntryPoint Q index query) SameSearch
    (fun _ _ _ _ _ hst h => addEntryPoint_same hst h) hstart hinit
  obtain ⟨t, hloop', hst⟩ := loop_sim SameSearch SameSearch
    (fun s t s' hst hret => (baseStep_same hst).1 s' hret)
    (fun s t s' hst hret => (baseStep_same hst).2 s' hret) hst₀ hloop
  exact ⟨t, hinit'.bind hloop', hst⟩

-- ---------------------------------------------------------------------------
-- The upper layers
-- ---------------------------------------------------------------------------

/-- The current object is an element that reaches the level, with its distance. -/
structure GreedyInv (index : HierarchicalNSW V K) (query : V) (level : ℕ) (s : ℕ × K) : Prop where
  lt    : s.1 < index.cur_element_count
  level : level ≤ index.element_levels s.1
  dist  : s.2 = index.dist query s.1

omit [Neg K] in
/-- One pass over the links: when anything changed, the distance has decreased. -/
theorem greedyStep_spec {level : ℕ} {s : ℕ × K} (h : GreedyInv index query level s) :
    (∃ s', Returns (greedyStep index query level s) (.inl s') ∧ GreedyInv index query level s' ∧
      s'.2 < s.2) ∨
    ∃ s', Returns (greedyStep index query level s) (.inr s') ∧ GreedyInv index query level s' := by
  have hlinks : Returns (index.getLinklist s.1 level) (index.linklist level s.1) := by
    rw [HierarchicalNSW.getLinklist, if_pos h.level]
    exact returns_pure _
  obtain ⟨r, hret, hinv, hlt⟩ := foldlM_returns (f := greedyLink index query)
    (fun _ (r : (ℕ × K) × Bool) => GreedyInv index query level r.1 ∧
      (r.1.2 < s.2 ∨ r = (s, false)))
    (l := index.linklist level s.1)
    (fun pre cand post r hsplit ⟨hinv, hlt⟩ => by
      have hmem : cand ∈ index.linklist level s.1 := by rw [hsplit]; simp
      have hcand := index.link_lt level s.1 h.lt h.level cand hmem
      have hmax : ¬ index.max_elements < cand := by
        have := index.capacity
        omega
      have hle : r.1.2 ≤ s.2 := by
        rcases hlt with hlt | rfl
        · exact hlt.le
        · exact le_refl _
      unfold greedyLink
      rw [if_neg hmax]
      refine ⟨_, returns_pure _, ?_⟩
      by_cases hd : index.dist query cand < r.1.2
      · rw [if_pos hd]
        exact ⟨⟨hcand, index.link_level level s.1 h.lt h.level cand hmem, rfl⟩,
          Or.inl (hd.trans_le hle)⟩
      · rw [if_neg hd]
        exact ⟨hinv, hlt⟩)
    (s := (s, false)) ⟨h, Or.inr rfl⟩
  have hstep : Returns (greedyStep index query level s) (if r.2 then .inl r.1 else .inr r.1) :=
    hlinks.bind (hret.bind (returns_pure _))
  cases hr : r.2 with
  | true =>
    rw [hr, if_pos rfl] at hstep
    refine Or.inl ⟨r.1, hstep, hinv, hlt.resolve_right ?_⟩
    rintro rfl
    cases hr
  | false =>
    rw [hr, if_neg Bool.false_ne_true] at hstep
    exact Or.inr ⟨r.1, hstep, hinv⟩

omit [Neg K] in
/-- The passes on one level end: only finitely many elements are closer. -/
theorem greedyLevel_returns {level : ℕ} {s : ℕ × K} (h : GreedyInv index query level s) :
    ∃ s', Returns (loop (greedyStep index query level) s) s' ∧ GreedyInv index query level s' := by
  refine loop_returns (GreedyInv index query level)
    (fun s => ((Finset.range index.cur_element_count).filter
      fun id => index.dist query id < s.2).card)
    (GreedyInv index query level) (fun s hs => ?_) h
  rcases greedyStep_spec hs with ⟨s', hret, hinv, hlt⟩ | ⟨s', hret, hinv⟩
  · refine Or.inl ⟨s', hret, hinv, Finset.card_lt_card ?_⟩
    refine Finset.ssubset_iff_subset_ne.mpr ⟨fun id hid => ?_, fun heq => ?_⟩
    · rw [Finset.mem_filter] at hid ⊢
      exact ⟨hid.1, hid.2.trans hlt⟩
    · -- the new object itself is no longer among them
      have hmem : s'.1 ∈ (Finset.range index.cur_element_count).filter
          fun id => index.dist query id < s.2 :=
        Finset.mem_filter.mpr ⟨Finset.mem_range.mpr hinv.lt, hinv.dist ▸ hlt⟩
      rw [← heq, Finset.mem_filter, ← hinv.dist] at hmem
      exact lt_irrefl _ hmem.2
  · exact Or.inr ⟨s', hret, hinv⟩

omit [Neg K] in
theorem descendFrom_returns {level : ℕ} {s : ℕ × K} (h : GreedyInv index query level s) :
    ∃ s', Returns (descendFrom index query level s) s' ∧ s'.1 < index.cur_element_count := by
  induction level generalizing s with
  | zero => exact ⟨s, returns_pure s, h.lt⟩
  | succ level ih =>
    obtain ⟨s₁, hret, hinv⟩ := greedyLevel_returns h
    obtain ⟨s', hret', hlt⟩ := ih ⟨hinv.lt, by have := hinv.level; omega, hinv.dist⟩
    exact ⟨s', hret.bind hret', hlt⟩

omit [Neg K] in
/-- The descent ends at an element of the index. -/
theorem descend_returns (query : V) (hpos : 0 < index.cur_element_count) :
    ∃ s, Returns (descend index query) s ∧ s.1 < index.cur_element_count :=
  descendFrom_returns ⟨index.enter_lt hpos, index.enter_level, rfl⟩

omit [Neg K] in
/-- The bottom layer is searched from at least one element, the given ones among
them. -/
theorem startingPoints_returns (query : V) (hpos : 0 < index.cur_element_count)
    {starting_points : List ℕ}
    (hstart : ∀ id ∈ starting_points, id < index.cur_element_count) :
    ∃ points, Returns (startingPoints index query starting_points) points ∧ points ≠ [] ∧
      (∀ id ∈ points, id < index.cur_element_count) ∧ ∀ id ∈ starting_points, id ∈ points := by
  unfold startingPoints
  by_cases hlen : starting_points.length = 0
  · obtain ⟨s, hret, hlt⟩ := descend_returns query hpos
    refine ⟨[s.1], by rw [if_pos hlen]; exact hret.bind (returns_pure _), by simp,
      fun id hid => List.mem_singleton.mp hid ▸ hlt, fun id hid => ?_⟩
    rw [List.length_eq_zero_iff.mp hlen] at hid
    exact absurd hid List.not_mem_nil
  · refine ⟨starting_points, by rw [if_neg hlen]; exact returns_pure _, ?_, hstart,
      fun _ hid => hid⟩
    exact fun hnil => hlen (by rw [hnil]; rfl)

-- ---------------------------------------------------------------------------
-- What is returned
-- ---------------------------------------------------------------------------

/-- Candidates and results are elements of the index, the results with their
distances. -/
structure ElementInv (Q : PriorityQueue (K × ℕ)) (index : HierarchicalNSW V K) (query : V)
    (s : BaseState Q index.max_elements) : Prop where
  candidate : ∀ e ∈ Q.elems s.candidate_set, e.2 < index.cur_element_count
  top       : ∀ e ∈ Q.elems s.top_candidates, e.2 < index.cur_element_count ∧
    e.1 = index.dist query e.2

theorem ElementInv.consider {s : BaseState Q index.max_elements} (h : ElementInv Q index query s)
    (ef : ℕ) {id : ℕ} (hid : id < index.cur_element_count) :
    ElementInv Q index query (considered Q index query ef s id) where
  candidate e he := by
    rcases candidate_considered he with rfl | he
    · exact hid
    · exact h.candidate e he
  top e he := by
    rcases top_considered he with rfl | he
    · exact ⟨hid, rfl⟩
    · exact h.top e he

theorem ElementInv.expand {s : BaseState Q index.max_elements} (h : ElementInv Q index query s)
    (ef : ℕ) {e : K × ℕ} (htop : Q.top s.candidate_set = some e) :
    ElementInv Q index query (expanded Q index query ef s e) :=
  expanded_induction (h.candidate e (Q.top_mem htop))
    ⟨fun e' he' => h.candidate e' (Q.mem_of_mem_pop htop he'), h.top⟩
    fun _ hs' _ _ hu => hs'.consider ef hu

omit [Preorder K] [DecidableLT K] [Neg K] in
/-- The results are pushed once more, with their labels. -/
theorem elems_labelResults (R : PriorityQueue (K × ℕ)) (top_candidates : Q.Heap) :
    R.elems (labelResults Q index R top_candidates) =
      (Q.elems top_candidates).map fun rez => (rez.1, index.externalLabel rez.2) := by
  rw [labelResults, R.elems_foldl_push, R.elems_empty, add_zero, ← Multiset.map_coe, Q.coe_drain]

/-- **Every search** from elements of the index returns, and each result is the label
of an element with its distance. -/
theorem searchKnnMine_returns (index : HierarchicalNSW V K) (query : V) (R : PriorityQueue (K × ℕ))
    (maxValue : K) (ef k : ℕ) {starting_points : List ℕ}
    (hstart : ∀ id ∈ starting_points, id < index.cur_element_count) (mem : ℕ → UInt16)
    (pool : VisitedListPool index.max_elements) :
    ∃ result pool', Returns
        (searchKnnMine Q index query R maxValue ef k starting_points mem pool) (result, pool') ∧
      ∀ e ∈ R.elems result, ∃ id < index.cur_element_count,
        e = (index.dist query id, index.externalLabel id) := by
  unfold searchKnnMine
  by_cases hpos : index.cur_element_count = 0
  · rw [if_pos hpos]
    refine ⟨R.empty, pool, returns_pure _, fun e he => ?_⟩
    rw [R.elems_empty] at he
    exact absurd he (Multiset.notMem_zero e)
  · rw [if_neg hpos]
    obtain ⟨points, hpoints, -, hlt, -⟩ :=
      startingPoints_returns query (Nat.pos_of_ne_zero hpos) hstart
    obtain ⟨s₀, hinit, hseed⟩ := entryPoints_returns (Q := Q) query maxValue hlt
      (VisitedListPool.getFreeVisitedList_unmarked mem pool)
    obtain ⟨s, hloop, hs, -⟩ := baseLoop_returns (ElementInv Q index query)
      (fun s hs => hs.candidate) (fun s e hs htop _ => hs.expand (max ef k) htop)
      ⟨fun e he => hlt e.2 (hseed.candidate e he), fun e he => (hseed.top e he).imp_left (hlt e.2)⟩
    have hbase : Returns (searchBaseLayer Q index query maxValue points (max ef k)
        (pool.getFreeVisitedList mem).1) s := hinit.bind hloop
    have hsearch : Returns (searchBaseLayerSTMine Q index query maxValue points (max ef k) mem pool)
        (s.top_candidates, (pool.getFreeVisitedList mem).2.releaseVisitedList s.visited) :=
      hbase.bind (returns_pure _)
    refine ⟨labelResults Q index R (Q.shrink k s.top_candidates), _,
      hpoints.bind (hsearch.bind (returns_pure _)), fun e he => ?_⟩
    rw [elems_labelResults, Multiset.mem_map] at he
    obtain ⟨rez, hrez, rfl⟩ := he
    obtain ⟨hid, hdist⟩ := hs.top rez (Q.mem_of_mem_shrink hrez)
    exact ⟨rez.2, hid, by rw [← hdist]⟩

end Search

-- ---------------------------------------------------------------------------
-- The closest element
-- ---------------------------------------------------------------------------

section Closest

variable {V K : Type} [LinearOrder K] [Neg K] {Q : PriorityQueue (K × ℕ)}
  {index : HierarchicalNSW V K} {query : V}

/-- What the offer of a marked element establishes. -/
theorem offerCandidate_inv (hQ : Q.Ordered fun a b => a.1 < b.1) {ef : ℕ} (hef : 1 ≤ ef)
    {s : BaseState Q index.max_elements} (h : BaseInv Q index query s) {id : ℕ}
    (hid : id < index.cur_element_count) :
    BaseInv Q index query
      (offerCandidate Q index query ef { s with visited := s.visited.mark id } id) := by
  have hmarked : ∀ i, (s.visited.mark id).marked i = true ↔ i = id ∨ s.visited.marked i = true :=
    s.visited.marked_mark id
  have hlt : ∀ i, (s.visited.mark id).marked i = true → i < index.cur_element_count := by
    intro i hi
    rcases (hmarked i).mp hi with rfl | hi
    · exact hid
    · exact h.visited_lt i hi
  unfold offerCandidate
  dsimp only
  split
  · -- the element is pushed, and at most the farthest ones are evicted
    have hkeep : ∀ e ∈ Q.elems (Q.push s.top_candidates (index.dist query id, id)),
        ∃ b ∈ Q.elems (Q.shrink ef (Q.push s.top_candidates (index.dist query id, id))),
          b.1 ≤ e.1 := fun e he => Q.shrink_keeps_min hQ hef he
    refine ⟨hlt, fun e he => ?_, fun e he => ?_, fun i hi => ?_, ?_⟩
    · rw [Q.elems_push, Multiset.mem_cons] at he
      rcases he with rfl | he
      · exact hid
      · exact h.candidate e he
    · have he' := Q.mem_of_mem_shrink he
      rw [Q.elems_push, Multiset.mem_cons] at he'
      rcases he' with rfl | he'
      · exact ⟨hid, rfl⟩
      · exact h.top e he'
    · rcases (hmarked i).mp hi with rfl | hi
      · exact hkeep (index.dist query i, i) (by simp)
      · obtain ⟨e, he, hle⟩ := h.best i hi
        obtain ⟨b, hb, hbe⟩ := hkeep e (by simp [he])
        exact ⟨b, hb, hbe.trans hle⟩
    · obtain ⟨b, hb, -⟩ := hkeep (index.dist query id, id) (by simp)
      obtain ⟨t, ht⟩ := Q.exists_top_of_size (Multiset.card_pos_iff_exists_mem.mpr ⟨b, hb⟩)
      rw [ht]
      exact ⟨t, Q.top_mem ht, le_refl _⟩
  · -- the heap is full and the element no closer than the farthest result
    next hskip =>
    rw [not_or, not_lt, not_lt] at hskip
    refine ⟨hlt, h.candidate, h.top, fun i hi => ?_, h.bound⟩
    rcases (hmarked i).mp hi with rfl | hi
    · obtain ⟨e, he, hle⟩ := h.bound
      exact ⟨e, he, hle.trans hskip.2⟩
    · exact h.best i hi

theorem considered_inv (hQ : Q.Ordered fun a b => a.1 < b.1) {ef : ℕ} (hef : 1 ≤ ef)
    {s : BaseState Q index.max_elements} (h : BaseInv Q index query s) {id : ℕ}
    (hid : id < index.cur_element_count) :
    BaseInv Q index query (considered Q index query ef s id) := by
  cases hseen : s.visited.marked id with
  | true =>
    rw [considered_of_marked hseen]
    exact h
  | false =>
    rw [considered_of_unmarked hseen]
    exact offerCandidate_inv hQ hef h hid

/-- The invariant is kept by an expansion. -/
theorem BaseInv.expand (hQ : Q.Ordered fun a b => a.1 < b.1) {ef : ℕ} (hef : 1 ≤ ef)
    {s : BaseState Q index.max_elements} (h : BaseInv Q index query s) {e : K × ℕ}
    (htop : Q.top s.candidate_set = some e) :
    BaseInv Q index query (expanded Q index query ef s e) :=
  expanded_induction (h.candidate e (Q.top_mem htop)) (h.pop htop)
    fun _ hs' _ _ hu => considered_inv hQ hef hs' hu

/-- **The bottom layer.** On a list without marks the search ends, and an element at
least as close as any visited one, the entry points among them, is among the
results. -/
theorem searchBaseLayer_spec (hQ : Q.Ordered fun a b => a.1 < b.1) {maxValue : K}
    (hfin : ∀ id < index.cur_element_count, index.dist query id ≤ maxValue) {ep_ids : List ℕ}
    (hne : ep_ids ≠ []) (heps : ∀ id ∈ ep_ids, id < index.cur_element_count) {ef : ℕ}
    (hef : 1 ≤ ef) {vl : VisitedList index.max_elements} (hvl : vl.Unmarked) :
    ∃ s, Returns (searchBaseLayer Q index query maxValue ep_ids ef vl) s ∧
      BaseInv Q index query s ∧ ∀ id ∈ ep_ids, s.visited.marked id = true := by
  obtain ⟨s₀, hinit, hseed⟩ := entryPoints_returns (Q := Q) query maxValue heps hvl
  obtain ⟨s, hloop, ⟨hinv, hmarks⟩, -⟩ := baseLoop_returns
    (fun s => BaseInv Q index query s ∧ ∀ id ∈ ep_ids, s.visited.marked id = true)
    (fun s hs => hs.1.candidate)
    (fun s e hs htop _ => ⟨hs.1.expand hQ hef htop, fun id hid => marked_neighbours ef _ _ (Or.inr (hs.2 id hid))⟩)
    ⟨hseed.baseInv hfin hne heps, fun id hid => (hseed.visited id).mpr hid⟩
  exact ⟨s, hinit.bind hloop, hinv, hmarks⟩

/-- `searchBaseLayerST_mine` returns, from every pool, the same results. -/
theorem searchBaseLayerSTMine_spec (hQ : Q.Ordered fun a b => a.1 < b.1) {maxValue : K}
    (hfin : ∀ id < index.cur_element_count, index.dist query id ≤ maxValue) {ep_ids : List ℕ}
    (hne : ep_ids ≠ []) (heps : ∀ id ∈ ep_ids, id < index.cur_element_count) {ef : ℕ}
    (hef : 1 ≤ ef) :
    ∃ top, (∀ mem pool, ∃ pool', Returns
        (searchBaseLayerSTMine Q index query maxValue ep_ids ef mem pool) (top, pool')) ∧
      (∀ e ∈ Q.elems top, e.2 < index.cur_element_count ∧ e.1 = index.dist query e.2) ∧
      ∀ id ∈ ep_ids, ∃ e ∈ Q.elems top, e.1 ≤ index.dist query id := by
  have hnew := VisitedList.unmarked_reset (VisitedList.new (n := index.max_elements) fun _ => 0)
  obtain ⟨s, hret, hinv, hmarks⟩ := searchBaseLayer_spec hQ hfin hne heps hef hnew
  refine ⟨s.top_candidates, fun mem pool => ?_, hinv.top, fun id hid => hinv.best id (hmarks id hid)⟩
  obtain ⟨t, hret', hst⟩ := searchBaseLayer_same hnew
    (VisitedListPool.getFreeVisitedList_unmarked mem pool) hret
  rw [hst.top]
  exact ⟨_, hret'.bind (returns_pure _)⟩

/-- **One search.** The bottom layer is left with the same queue from every pool; an element
at least as close as any starting point is in it. -/
theorem searchKnnMine_topk (query : V) (hQ : Q.Ordered fun a b => a.1 < b.1) (R : PriorityQueue (K × ℕ))
    {maxValue : K} (hfin : ∀ id < index.cur_element_count, index.dist query id ≤ maxValue)
    (hpos : 0 < index.cur_element_count) {starting_points : List ℕ}
    (hstart : ∀ id ∈ starting_points, id < index.cur_element_count) (ef : ℕ) {k : ℕ} (hk : 1 ≤ k) :
    ∃ top, 0 < Q.size top ∧
      (∀ mem pool, ∃ pool', Returns
        (searchKnnMine Q index query R maxValue ef k starting_points mem pool)
        (labelResults Q index R (Q.shrink k top), pool')) ∧
      (∀ e ∈ Q.elems top, e.2 < index.cur_element_count ∧ e.1 = index.dist query e.2) ∧
      ∀ sp ∈ starting_points, ∃ e ∈ Q.elems top, e.1 ≤ index.dist query sp := by
  obtain ⟨points, hpoints, hne, hlt, hsub⟩ := startingPoints_returns query hpos hstart
  obtain ⟨top, htop, helems, hbest⟩ := searchBaseLayerSTMine_spec hQ hfin hne hlt
    (hk.trans (le_max_right ef k))
  refine ⟨top, ?_, fun mem pool => ?_, helems, fun sp hsp => hbest sp (hsub sp hsp)⟩
  · obtain ⟨id, hid⟩ := List.exists_mem_of_ne_nil points hne
    obtain ⟨e, he, -⟩ := hbest id hid
    exact Multiset.card_pos_iff_exists_mem.mpr ⟨e, he⟩
  · obtain ⟨pool', hret⟩ := htop mem pool
    refine ⟨pool', ?_⟩
    unfold searchKnnMine
    rw [if_neg hpos.ne']
    exact hpoints.bind (hret.bind (returns_pure _))

/-- **One search** with `k = 1`. It returns one element of the index, the same one
from every pool, which is at least as close as every starting point. -/
theorem searchKnnMine_spec (query : V) (hQ : Q.Ordered fun a b => a.1 < b.1) (R : PriorityQueue (K × ℕ))
    {maxValue : K} (hfin : ∀ id < index.cur_element_count, index.dist query id ≤ maxValue)
    (hpos : 0 < index.cur_element_count) {starting_points : List ℕ}
    (hstart : ∀ id ∈ starting_points, id < index.cur_element_count) (ef : ℕ) :
    ∃ id < index.cur_element_count,
      (∀ mem pool, ∃ result pool', Returns
        (searchKnnMine Q index query R maxValue ef 1 starting_points mem pool) (result, pool') ∧
        R.elems result = {(index.dist query id, index.externalLabel id)}) ∧
      ∀ sp ∈ starting_points, index.dist query id ≤ index.dist query sp := by
  obtain ⟨top, hpos, hret, helems, hbest⟩ :=
    searchKnnMine_topk query hQ R hfin hpos hstart ef (le_refl 1)
  -- trimming to one element keeps the closest
  have hsize : Q.size (Q.shrink 1 top) = 1 := by
    rw [Q.size_shrink]
    omega
  obtain ⟨e, he⟩ := Multiset.card_eq_one.mp hsize
  have hmem : e ∈ Q.elems (Q.shrink 1 top) := by rw [he]; exact Multiset.mem_singleton_self e
  obtain ⟨helt, hedist⟩ := helems e (Q.mem_of_mem_shrink hmem)
  refine ⟨e.2, helt, fun mem pool => ?_, fun sp hsp => ?_⟩
  · obtain ⟨pool', hret⟩ := hret mem pool
    refine ⟨_, pool', hret, ?_⟩
    rw [elems_labelResults, he, Multiset.map_singleton, ← hedist]
  · obtain ⟨e', he', hle⟩ := hbest sp hsp
    obtain ⟨b, hb, hbe⟩ := Q.shrink_keeps_min hQ (le_refl 1) he'
    rw [he, Multiset.mem_singleton] at hb
    rw [← hedist, ← hb]
    exact hbe.trans hle

end Closest

end Mqo.Search.Hnsw
