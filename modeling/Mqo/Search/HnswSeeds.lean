import Mathlib.Data.Prod.Lex
import Mqo.Search.HnswEntries
import Mqo.Search.HnswRecall

/-!
# MQO — recall with several entry points

`get_recall_optimized2` of `hnsw_exp/process.hpp` asks for `n_entry_points` elements for
every query and starts the children from all of them. The results come farthest first,
so that the last label taken is that of the nearest one.

A search that starts from `n_entry_points` elements never has fewer results than these;
a root starts from one element and finds `n_entry_points` because it can reach as many.
The function relies on there being a result: over an index without elements the first
query takes the top of an empty queue.

* `searchEntries_size`          — the heap never gets smaller than the entry points;
* `searchSeeds_spec`            — one search, for a root or a child;
* `takeResults_returns`         — the labels are taken farthest first;
* `getRecallOptimized2_answers` — the run over an accepted trajectory.
-/

namespace Mqo.Search.Hnsw

open Prog

-- ---------------------------------------------------------------------------
-- The function
-- ---------------------------------------------------------------------------

/-- A search of the run: the entry it is made for, the elements it starts from, and the label
that is compared. -/
structure SeededSearch where
  curr : ℤ
  parent : ℤ
  seeds : List ℕ
  label : ℕ

/-- The state of the loop; `searches` is a log of the searches made. -/
structure SeededState (σ F : Type) where
  pool : σ
  partial_res : ℤ → List ℕ
  correct : F
  searches : List SeededSearch

/-- The entry points of a query: the row of its parent, none for a root. -/
def seedsOf (partial_res : ℤ → List ℕ) (parent : ℤ) : List ℕ :=
  if parent = -1 then [] else partial_res parent

section Recall

variable {V K F : Type} [LinearOrder K] [Neg K] [Scalar F]
  (Q R : PriorityQueue (K × ℕ)) (index : HierarchicalNSW V K) (maxValue : K) (querydata : ℕ → V)

/-- One pass of the loop over the results; the state is `result`, `label` and
`partial_res[curr]`. -/
def takeResult (n_entry_points : ℕ) (s : R.Heap × ℕ × List ℕ) (rep : ℕ) :
    Run (R.Heap × ℕ × List ℕ) :=
  match R.top s.1 with
  | none => fault .emptyQueue
  | some top =>
    pure (R.pop s.1, if rep + 1 = n_entry_points then top.2 else s.2.1, s.2.2 ++ [top.2])

/-- One entry of the trajectory; `uninit` is what the variable `label` holds before it is
assigned. -/
def seededStep (ans : ℕ → ℤ) (n_elements n_entry_points beamsize : ℕ) (mem : ℕ → UInt16)
    (uninit : ℕ) (s : SeededState (VisitedListPool index.max_elements) F) (x : ℤ × ℤ) :
    Run (SeededState (VisitedListPool index.max_elements) F) :=
  let curr := x.1
  let parent := x.2
  if InBounds n_elements curr ∧ (parent = -1 ∨ InBounds n_elements parent) then do
    let entry_points := seedsOf s.partial_res parent
    let result ← searchKnnMine Q index (querydata curr.toNat) R maxValue beamsize n_entry_points
      entry_points mem s.pool
    let taken ← (List.range n_entry_points).foldlM (takeResult R n_entry_points)
      (result.1, uninit, s.partial_res curr)
    let label := taken.2.1
    pure
      { pool := result.2
        partial_res := Function.update s.partial_res curr taken.2.2
        correct := if (label : ℤ) = ans curr.toNat then s.correct + 1 else s.correct
        searches := s.searches ++ [⟨curr, parent, entry_points, label⟩] }
  else fault .outOfRange

/-- `get_recall_optimized2`, without the duration it measures: the state after the loop, and
the recall. -/
def getRecallOptimized2 (F : Type) [Scalar F] (ans : ℕ → ℤ)
    (n_elements n_entry_points beamsize : ℕ) (mem : ℕ → UInt16) (uninit : ℕ)
    (trajectory : Trajectory) (pool : VisitedListPool index.max_elements) :
    Run (SeededState (VisitedListPool index.max_elements) F × F) := do
  assert (n_entry_points ≤ beamsize) "n_entry_points <= beamsize"
  let s ← trajectory.foldlM
    (seededStep Q R index maxValue querydata ans n_elements n_entry_points beamsize mem uninit)
    { pool := pool, partial_res := fun _ => [], correct := (0 : F), searches := [] }
  pure (s, s.correct / Scalar.ofInt n_elements)

end Recall

-- ---------------------------------------------------------------------------
-- The size of the heap
-- ---------------------------------------------------------------------------

section Size

variable {V K : Type} [LinearOrder K] [Neg K] {Q : PriorityQueue (K × ℕ)}
  {index : HierarchicalNSW V K} {query : V} {ep_ids : List ℕ} {ef : ℕ}

/-- One neighbour, whether it is new, accepted or turned away. -/
theorem Core.consider {current : Option ℕ} {s : BaseState Q index.max_elements}
    (h : Core Q index query ep_ids ef current s) {u : ℕ} (hu : Reachable index ep_ids u) :
    Core Q index query ep_ids ef current (considered Q index query ef s u) := by
  cases hnew : s.visited.marked u with
  | true =>
    rw [considered_of_marked hnew]
    exact h
  | false =>
    by_cases haccept : Q.size s.top_candidates < ef ∨ index.dist query u < s.lowerBound
    · exact h.accept hnew haccept hu
    · rw [considered_rejected hnew haccept]
      exact h.mark hu

/-- A neighbour that is pushed to a full heap drops one element only. -/
theorem size_considered_ge {s : BaseState Q index.max_elements}
    (hsize : Q.size s.top_candidates ≤ ef) (u : ℕ) :
    Q.size s.top_candidates ≤ Q.size (considered Q index query ef s u).top_candidates := by
  cases hnew : s.visited.marked u with
  | true => rw [considered_of_marked hnew]
  | false =>
    by_cases haccept : Q.size s.top_candidates < ef ∨ index.dist query u < s.lowerBound
    · rw [(considered_accepted hnew haccept).1, Q.size_shrink, Q.size_push]
      omega
    · rw [considered_rejected hnew haccept]

/-- At least `n` different elements of the index. -/
structure HoldsElements (index : HierarchicalNSW V K) (n : ℕ) (results : Multiset (K × ℕ)) :
    Prop where
  nodup    : (results.map Prod.snd).Nodup
  elements : ∀ e ∈ results, e.2 < index.cur_element_count
  size     : n ≤ Multiset.card results

/-- The invariant of the main loop: the heap has at least `n` elements. -/
structure Filled (Q : PriorityQueue (K × ℕ)) (index : HierarchicalNSW V K) (query : V)
    (ep_ids : List ℕ) (ef n : ℕ) (current : Option ℕ) (s : BaseState Q index.max_elements) :
    Prop where
  core : Core Q index query ep_ids ef current s
  size : n ≤ Q.size s.top_candidates

/-- **One expansion.** -/
theorem Filled.expand {n : ℕ} {s : BaseState Q index.max_elements}
    (h : Filled Q index query ep_ids ef n none s) {e : K × ℕ}
    (htop : Q.top s.candidate_set = some e) :
    Filled Q index query ep_ids ef n none (expanded Q index query ef s e) := by
  have hcand := h.core.candidate e (Q.top_mem htop)
  have hneighbours : Filled Q index query ep_ids ef n (some e.2) (expanded Q index query ef s e) :=
    List.foldlRecOn (motive := Filled Q index query ep_ids ef n (some e.2)) _ _
      ⟨h.core.pop htop, h.size⟩ fun s' hs' u hu =>
        ⟨hs'.core.consider ((h.core.reachable e.2 hcand.2).link hu),
          hs'.size.trans (size_considered_ge hs'.core.size u)⟩
  exact ⟨hneighbours.core.finish fun u hu => marked_neighbours ef _ _ (Or.inl hu), hneighbours.size⟩

/-- **The bottom layer** is left with at least as many results as there are entry points. -/
theorem searchEntries_size {maxValue : K}
    (hfin : ∀ id < index.cur_element_count, index.dist query id ≤ maxValue)
    (hne : ep_ids ≠ []) (hnodup : ep_ids.Nodup) (hlen : ep_ids.length ≤ ef)
    (heps : ∀ ep ∈ ep_ids, ep < index.cur_element_count) (mem : ℕ → UInt16)
    (pool : VisitedListPool index.max_elements) :
    ∃ r, Returns (searchBaseLayerSTMine Q index query maxValue ep_ids ef mem pool) r ∧
      HoldsElements index ep_ids.length (Q.elems r.1) := by
  have hinit := foldlM_foldl (f := addEntryPoint Q index query)
    (fun s ep hep => addEntryPoint_returns s ((heps ep hep).trans_le index.capacity))
    ⟨(pool.getFreeVisitedList mem).1, Q.empty, Q.empty, maxValue⟩
  have hstart := Entering.start (Q := Q) hfin hne hnodup hlen heps
    (VisitedListPool.getFreeVisitedList_unmarked mem pool)
  obtain ⟨s, hloop, hfilled, -⟩ := baseLoop_returns
    (Filled Q index query ep_ids ef ep_ids.length none)
    (fun s hs e he => (hs.core.reachable e.2 (hs.core.candidate e he).2).lt heps)
    (fun s e hs htop _ => hs.expand htop) ⟨hstart.core, hstart.size_top.ge⟩
  have hret : Returns (searchBaseLayer Q index query maxValue ep_ids ef
      (pool.getFreeVisitedList mem).1) s := hinit.bind hloop
  exact ⟨_, hret.bind (returns_pure _), hfilled.core.nodup, fun e he =>
    (hfilled.core.reachable e.2 (hfilled.core.seen e he)).lt heps, hfilled.size⟩

/-- An entry point that is alone is settled, or one of its neighbours is accepted. -/
theorem settled_or_advances {id : ℕ} (hef : 1 < ef) :
    Settled index query [id] ef ∨ Advances Q index query [id] ef := by
  by_cases hself : ∀ u ∈ index.linklist 0 id, u = id
  · refine Or.inl fun ep hep u hu hnew => absurd ?_ hnew
    rw [List.mem_singleton.mp hep] at hu
    rw [hself u hu]
    exact List.mem_singleton_self id
  · push Not at hself
    obtain ⟨u, hu, hne⟩ := hself
    refine Or.inr ⟨u, ?_, by simpa using hne, Or.inl (by simpa using hef)⟩
    -- the entry point is the only candidate
    refine List.mem_flatMap.mpr ⟨(-index.dist query id, id), List.mem_filter.mpr ⟨?_, ?_⟩, hu⟩
    · rw [Q.mem_drain]
      simp
    · simp [Closest]

/-- **A root.** From one element that reaches `n` elements, `n` are found. -/
theorem searchRoot_size (hQ : Q.Ordered fun a b => a.1 < b.1) (hneg : ExactNeg K) {maxValue : K}
    (hfin : ∀ id < index.cur_element_count, index.dist query id ≤ maxValue) {id : ℕ}
    (hid : id < index.cur_element_count) {n : ℕ} (hn : 1 ≤ n) (hef : n ≤ ef)
    (hreach : n ≤ {u | Reachable index [id] u}.ncard) (mem : ℕ → UInt16)
    (pool : VisitedListPool index.max_elements) :
    ∃ r, Returns (searchBaseLayerSTMine Q index query maxValue [id] ef mem pool) r ∧
      HoldsElements index n (Q.elems r.1) := by
  have heps : ∀ ep ∈ [id], ep < index.cur_element_count := fun ep hep =>
    List.mem_singleton.mp hep ▸ hid
  rcases hn.eq_or_lt with rfl | hlt
  · exact searchEntries_size hfin (List.cons_ne_nil id []) (List.nodup_singleton id) hef heps mem pool
  · have hlen : [id].length < ef := by
      rw [List.length_singleton]
      omega
    obtain ⟨r, hret, hcomplete⟩ := ((findsAll_iff hQ hneg hfin (List.cons_ne_nil id [])
      (List.nodup_singleton id) hlen.le heps).2.2 hlen).mpr (settled_or_advances (by omega)) mem pool
    refine ⟨r, hret, hcomplete.nodup, fun e he => (hcomplete.reachable e he).lt heps, ?_⟩
    rw [hcomplete.card]
    omega

end Size

-- ---------------------------------------------------------------------------
-- One search
-- ---------------------------------------------------------------------------

section Search

variable {V K : Type} [LinearOrder K] [Neg K] (Q R : PriorityQueue (K × ℕ))
  (index : HierarchicalNSW V K) (maxValue : K) (query : V)

/-- `n` elements of the index. -/
structure IsSeedRow (n : ℕ) (row : List ℕ) : Prop where
  length   : row.length = n
  nodup    : row.Nodup
  elements : ∀ id ∈ row, id < index.cur_element_count

/-- The search from `seeds` returns `result`, whatever the pool holds: `n` different elements,
one of them as close as any seed. -/
structure FindsRow (ef n : ℕ) (seeds : List ℕ) (result : R.Heap) : Prop where
  returns  : ∀ mem pool, ∃ pool',
    Returns (searchKnnMine Q index query R maxValue ef n seeds mem pool) (result, pool')
  size     : R.size result = n
  nodup    : ((R.elems result).map Prod.snd).Nodup
  elements : ∀ e ∈ R.elems result, e.2 < index.cur_element_count ∧ e.1 = index.dist query e.2
  closest  : ∀ id ∈ seeds, ∃ e ∈ R.elems result, e.1 ≤ index.dist query id

variable {Q R index maxValue query}

/-- What the bottom layer is left with, for a root or a child. -/
theorem searchPoints_size (hQ : Q.Ordered fun a b => a.1 < b.1) (hneg : ExactNeg K)
    (hpos : 0 < index.cur_element_count)
    (hfin : ∀ id < index.cur_element_count, index.dist query id ≤ maxValue) {n ef : ℕ} (hn : 1 ≤ n)
    (hef : n ≤ ef)
    (hreach : ∀ id < index.cur_element_count, n ≤ {u | Reachable index [id] u}.ncard)
    {seeds : List ℕ} (hseeds : seeds = [] ∨ IsSeedRow index n seeds) (mem : ℕ → UInt16)
    (pool : VisitedListPool index.max_elements) :
    ∃ points r, Returns (startingPoints index query seeds) points ∧
      Returns (searchBaseLayerSTMine Q index query maxValue points ef mem pool) r ∧
      HoldsElements index n (Q.elems r.1) := by
  unfold startingPoints
  rcases hseeds with rfl | hrow
  · obtain ⟨s, hdescend, hlt⟩ := descend_returns query hpos
    obtain ⟨r, hret, hr⟩ := searchRoot_size hQ hneg hfin hlt hn hef (hreach s.1 hlt) mem pool
    exact ⟨[s.1], r, hdescend.bind (returns_pure _), hret, hr⟩
  · have hlen := hrow.length
    have hne : seeds ≠ [] := List.ne_nil_of_length_pos (by omega)
    obtain ⟨r, hret, hr⟩ := searchEntries_size (Q := Q) hfin hne hrow.nodup
      (hlen.trans_le hef) hrow.elements mem pool
    refine ⟨seeds, r, ?_, hret, hlen ▸ hr⟩
    rw [if_neg (by omega)]
    exact returns_pure _

/-- **One search**, for a root or a child. -/
theorem searchSeeds_spec (hQ : Q.Ordered fun a b => a.1 < b.1) (hneg : ExactNeg K)
    (hpos : 0 < index.cur_element_count)
    (hlabel : ∀ id < index.cur_element_count, index.externalLabel id = id)
    (hfin : ∀ id < index.cur_element_count, index.dist query id ≤ maxValue) (ef : ℕ) {n : ℕ}
    (hn : 1 ≤ n)
    (hreach : ∀ id < index.cur_element_count, n ≤ {u | Reachable index [id] u}.ncard)
    {seeds : List ℕ} (hseeds : seeds = [] ∨ IsSeedRow index n seeds) :
    ∃ result, FindsRow Q R index maxValue query ef n seeds result := by
  have hstart : ∀ id ∈ seeds, id < index.cur_element_count := by
    rcases hseeds with rfl | hrow
    · exact fun id hid => absurd hid List.not_mem_nil
    · exact hrow.elements
  obtain ⟨top, -, hret, helems, hbest⟩ := searchKnnMine_topk query hQ R hfin hpos hstart ef hn
  -- the labels are the ids
  have hlabels : ∀ h : Q.Heap, (∀ e ∈ Q.elems h, e.2 < index.cur_element_count) →
      R.elems (labelResults Q index R (Q.shrink n h)) = Q.elems (Q.shrink n h) := fun h hlt => by
    have heq : ∀ e ∈ Q.elems (Q.shrink n h), (e.1, index.externalLabel e.2) = e := fun e he => by
      rw [hlabel e.2 (hlt e (Q.mem_of_mem_shrink he))]
    rw [elems_labelResults, Multiset.map_congr rfl heq, Multiset.map_id']
  have hresult := hlabels top fun e he => (helems e he).1
  -- the run with one pool gives the number of results
  obtain ⟨points, r, hpoints, hbase, hholds⟩ := searchPoints_size hQ hneg hpos hfin
    hn (le_max_right ef n) hreach hseeds (fun _ => 0) ⟨[]⟩
  obtain ⟨pool', hret₀⟩ := hret (fun _ => 0) ⟨[]⟩
  have hrun : Returns (searchKnnMine Q index query R maxValue ef n seeds (fun _ => 0) ⟨[]⟩)
      (labelResults Q index R (Q.shrink n r.1), r.2) := by
    unfold searchKnnMine
    rw [if_neg hpos.ne']
    exact hpoints.bind (hbase.bind (returns_pure _))
  have hsame : R.elems (labelResults Q index R (Q.shrink n top)) = Q.elems (Q.shrink n r.1) := by
    rw [← hlabels r.1 hholds.elements]
    exact congrArg (fun x => R.elems x.1) (hret₀.unique hrun)
  refine ⟨labelResults Q index R (Q.shrink n top), hret, ?_, ?_, fun e he => ?_, fun id hid => ?_⟩
  · rw [PriorityQueue.size, hsame]
    exact (Q.size_shrink n r.1).trans (min_eq_left hholds.size)
  · rw [hsame]
    exact Multiset.nodup_of_le (Multiset.map_le_map (Q.elems_shrink_le n r.1)) hholds.nodup
  · rw [hresult] at he
    exact helems e (Q.mem_of_mem_shrink he)
  · obtain ⟨e, he, hle⟩ := hbest id hid
    obtain ⟨b, hb, hbe⟩ := Q.shrink_keeps_min hQ hn he
    exact ⟨b, hresult ▸ hb, hbe.trans hle⟩

-- ---------------------------------------------------------------------------
-- The labels
-- ---------------------------------------------------------------------------

omit [LinearOrder K] [Neg K] in
/-- **The loop over the results** empties the queue and leaves the label of the result that is
popped last. -/
theorem takeResults_returns {n : ℕ} (hn : 1 ≤ n) {result : R.Heap} (hsize : R.size result = n)
    (uninit : ℕ) (row : List ℕ) :
    ∃ front last rest, R.drain result = front ++ [last] ∧
      Returns ((List.range n).foldlM (takeResult R n) (result, uninit, row))
        (rest, last.2, row ++ (R.drain result).map Prod.snd) := by
  obtain ⟨s, hret, taken, hdrain, hlen, hrow, hlast⟩ := range_returns (f := takeResult R n)
    (fun i s => ∃ taken, R.drain result = taken ++ R.drain s.1 ∧ taken.length = i ∧
      s.2.2 = row ++ taken.map Prod.snd ∧
      (i = n → ∃ front last, taken = front ++ [last] ∧ s.2.1 = last.2))
    (n := n) (s := (result, uninit, row))
    (fun i hi s ⟨taken, hdrain, hlen, hrow, _⟩ => by
      have hleft : 0 < R.size s.1 := by
        have htotal := congrArg List.length hdrain
        rw [R.length_drain, hsize, List.length_append, R.length_drain, hlen] at htotal
        omega
      obtain ⟨top, htop⟩ := R.exists_top_of_size hleft
      refine ⟨(R.pop s.1, if i + 1 = n then top.2 else s.2.1, s.2.2 ++ [top.2]), ?_,
        taken ++ [top], ?_, ?_, ?_, fun heq => ⟨taken, top, rfl, if_pos heq⟩⟩
      · unfold takeResult
        rw [htop]
        exact returns_pure _
      · rw [hdrain, R.drain_of_top htop, List.append_assoc, List.singleton_append]
      · rw [List.length_append, hlen, List.length_singleton]
      · rw [hrow, List.map_append, List.append_assoc, List.map_singleton])
    ⟨[], rfl, rfl, (List.append_nil row).symm, fun h => by omega⟩
  obtain ⟨front, last, hsplit, hlabel⟩ := hlast rfl
  -- nothing is left in the queue
  have hnil : R.drain s.1 = [] := by
    have htotal := congrArg List.length hdrain
    rw [R.length_drain, hsize, List.length_append, hlen] at htotal
    exact List.length_eq_zero_iff.mp (by omega)
  rw [hnil, List.append_nil] at hdrain
  refine ⟨front, last, s.1, hdrain.trans hsplit, ?_⟩
  rw [hdrain, ← hrow, ← hlabel]
  exact hret

/-- What the search for a query leaves: `n` different elements, `label` the nearest of them and
no farther than any seed. -/
structure AnswersFrom (index : HierarchicalNSW V K) (query : V) (n : ℕ) (seeds row : List ℕ)
    (label : ℕ) : Prop where
  isRow   : IsSeedRow index n row
  mem     : label ∈ row
  nearest : ∀ id ∈ row, index.dist query label ≤ index.dist query id
  closest : ∀ id ∈ seeds, index.dist query label ≤ index.dist query id

omit [Neg K] in
/-- The result that is popped last is the nearest. -/
theorem drain_last_le (hR : R.Ordered fun a b => toLex a < toLex b) {result : R.Heap}
    {front : List (K × ℕ)} {last : K × ℕ} (hdrain : R.drain result = front ++ [last]) :
    ∀ e ∈ R.elems result, last.1 ≤ e.1 := by
  intro e he
  have horder := R.drain_pairwise hR result
  rw [← R.mem_drain, hdrain] at he
  rw [hdrain, List.pairwise_append] at horder
  rcases List.mem_append.mp he with he | he
  · refine not_lt.mp fun hlt => horder.2.2 e he last (List.mem_singleton_self last) ?_
    exact Prod.Lex.toLex_lt_toLex.mpr (Or.inl hlt)
  · rw [List.mem_singleton.mp he]

theorem FindsRow.answers (hR : R.Ordered fun a b => toLex a < toLex b) {ef n : ℕ}
    {seeds : List ℕ} {result : R.Heap} (h : FindsRow Q R index maxValue query ef n seeds result)
    {front : List (K × ℕ)} {last : K × ℕ} (hdrain : R.drain result = front ++ [last]) :
    AnswersFrom index query n seeds ((R.drain result).map Prod.snd) last.2 := by
  have hlast : last ∈ R.elems result := by
    rw [← R.mem_drain, hdrain]
    simp
  have hleast : ∀ e ∈ R.elems result, index.dist query last.2 ≤ e.1 := fun e he => by
    rw [← (h.elements last hlast).2]
    exact drain_last_le hR hdrain e he
  refine ⟨⟨?_, ?_, fun id hid => ?_⟩, List.mem_map_of_mem (R.mem_drain.mpr hlast),
    fun id hid => ?_, fun id hid => ?_⟩
  · rw [List.length_map, R.length_drain, h.size]
  · have hnodup := h.nodup
    rw [← R.coe_drain, Multiset.map_coe, Multiset.coe_nodup] at hnodup
    exact hnodup
  · obtain ⟨e, he, rfl⟩ := List.mem_map.mp hid
    exact (h.elements e (R.mem_drain.mp he)).1
  · obtain ⟨e, he, rfl⟩ := List.mem_map.mp hid
    rw [← (h.elements e (R.mem_drain.mp he)).2]
    exact hleast e (R.mem_drain.mp he)
  · obtain ⟨e, he, hle⟩ := h.closest id hid
    exact (hleast e he).trans hle

end Search

-- ---------------------------------------------------------------------------
-- The run
-- ---------------------------------------------------------------------------

section Run

variable {V K F : Type} [LinearOrder K] [Neg K] [Scalar F]

/-- What the loop has established after part of the trajectory. -/
structure SeededInv (index : HierarchicalNSW V K) (querydata : ℕ → V) (ans : ℕ → ℤ) (n : ℕ)
    (pre : Trajectory) (s : SeededState (VisitedListPool index.max_elements) F) : Prop where
  entries   : s.searches.map (fun t => (t.curr, t.parent)) = pre
  seeds     : ∀ t ∈ s.searches, t.seeds = seedsOf s.partial_res t.parent
  answers   : ∀ t ∈ s.searches, AnswersFrom index (querydata t.curr.toNat) n t.seeds
    (s.partial_res t.curr) t.label
  untouched : ∀ c, c ∉ pre.map Prod.fst → s.partial_res c = []
  correct   : s.correct = (fun x : F => x + 1)^[s.searches.countP fun t =>
    decide ((t.label : ℤ) = ans t.curr.toNat)] 0

variable {Q R : PriorityQueue (K × ℕ)} {index : HierarchicalNSW V K} {maxValue : K}
  {querydata : ℕ → V} {ans : ℕ → ℤ} {n : ℕ} {pre : Trajectory}
  {s : SeededState (VisitedListPool index.max_elements) F}

omit [Neg K] in
theorem SeededInv.exists_search (h : SeededInv index querydata ans n pre s) {c : ℤ}
    (hc : c ∈ pre.map Prod.fst) : ∃ t ∈ s.searches, t.curr = c := by
  rw [← h.entries, List.map_map] at hc
  exact List.mem_map.mp hc

omit [Neg K] in
/-- The row of a parent may be started from. -/
theorem SeededInv.isSeedRow (h : SeededInv index querydata ans n pre s) {parent : ℤ}
    (hparent : parent = -1 ∨ parent ∈ pre.map Prod.fst) :
    seedsOf s.partial_res parent = [] ∨ IsSeedRow index n (seedsOf s.partial_res parent) := by
  unfold seedsOf
  split
  · exact Or.inl rfl
  · next hroot =>
    obtain ⟨t, ht, rfl⟩ := h.exists_search (hparent.resolve_left hroot)
    exact Or.inr (h.answers t ht).isRow

/-- Another row that is written does not change what a query was started from. -/
theorem seedsOf_update {partial_res : ℤ → List ℕ} {curr parent : ℤ} (row : List ℕ)
    (h : parent = -1 ∨ parent ≠ curr) :
    seedsOf (Function.update partial_res curr row) parent = seedsOf partial_res parent := by
  unfold seedsOf
  split
  · rfl
  · next hroot => rw [Function.update_of_ne (h.resolve_left hroot)]

omit [Neg K] in
/-- An answer to the next entry keeps the invariant. -/
theorem SeededInv.next (h : SeededInv index querydata ans n pre s) {n_elements : ℕ} {x : ℤ × ℤ}
    (hx : NextEntry n_elements pre x) {row : List ℕ} {label : ℕ}
    (hanswers : AnswersFrom index (querydata x.1.toNat) n (seedsOf s.partial_res x.2) row label)
    (pool : VisitedListPool index.max_elements) :
    SeededInv index querydata ans n (pre ++ [x])
      { pool := pool
        partial_res := Function.update s.partial_res x.1 row
        correct := if (label : ℤ) = ans x.1.toNat then s.correct + 1 else s.correct
        searches := s.searches ++ [⟨x.1, x.2, seedsOf s.partial_res x.2, label⟩] } := by
  -- an earlier search is for another query, and so is its parent
  have hother : ∀ t ∈ s.searches, t.curr ≠ x.1 ∧ (t.parent = -1 ∨ t.parent ≠ x.1) := fun t ht => by
    have hmem : (t.curr, t.parent) ∈ pre := h.entries ▸ List.mem_map_of_mem ht
    exact ⟨fun heq => hx.new (heq ▸ List.mem_map_of_mem hmem),
      (hx.topo.mem hmem).imp_right fun hm heq => hx.new (heq ▸ hm)⟩
  refine ⟨?_, fun t ht => ?_, fun t ht => ?_, fun c hc => ?_, ?_⟩
  · rw [List.map_append, h.entries]
    rfl
  · rcases List.mem_append.mp ht with ht | ht
    · exact (h.seeds t ht).trans (seedsOf_update row (hother t ht).2).symm
    · have hparent : x.2 = -1 ∨ x.2 ≠ x.1 :=
        hx.seeded.imp_right fun hm heq => hx.new (heq ▸ hm)
      rw [List.mem_singleton.mp ht]
      exact (seedsOf_update row hparent).symm
  · rcases List.mem_append.mp ht with ht | ht
    · dsimp only
      rw [Function.update_of_ne (hother t ht).1]
      exact h.answers t ht
    · rw [List.mem_singleton.mp ht]
      dsimp only
      rw [Function.update_self]
      exact hanswers
  · rw [List.map_append, List.mem_append, not_or] at hc
    have hne : c ≠ x.1 := fun heq => hc.2 (by simp [heq])
    dsimp only
    rw [Function.update_of_ne hne]
    exact h.untouched c hc.1
  · dsimp only
    rw [List.countP_append, h.correct, List.countP_singleton]
    by_cases hc : (label : ℤ) = ans x.1.toNat
    · rw [if_pos hc, if_pos (decide_eq_true hc), Function.iterate_succ_apply']
    · rw [if_neg hc, if_neg (by simpa using hc), Nat.add_zero]

variable (hQ : Q.Ordered fun a b => a.1 < b.1) (hR : R.Ordered fun a b => toLex a < toLex b)
  (hneg : ExactNeg K) (hpos : 0 < index.cur_element_count)
  (hlabel : ∀ id < index.cur_element_count, index.externalLabel id = id) {n_elements : ℕ}
  (hfin : ∀ c < n_elements, ∀ id < index.cur_element_count,
    index.dist (querydata c) id ≤ maxValue) (hn : 1 ≤ n)
  (hreach : ∀ id < index.cur_element_count, n ≤ {u | Reachable index [id] u}.ncard)

include hQ hR hneg hpos hlabel hfin hn hreach

/-- **One entry** of the trajectory. -/
theorem seededStep_returns (beamsize : ℕ) (mem : ℕ → UInt16) (uninit : ℕ)
    (h : SeededInv index querydata ans n pre s) {x : ℤ × ℤ} (hx : NextEntry n_elements pre x) :
    ∃ s', Returns (seededStep Q R index maxValue querydata ans n_elements n beamsize mem uninit s x)
        s' ∧ SeededInv index querydata ans n (pre ++ [x]) s' := by
  obtain ⟨result, hfound⟩ := searchSeeds_spec (R := R) hQ hneg hpos hlabel
    (hfin x.1.toNat hx.curr.toNat_lt) beamsize hn hreach (h.isSeedRow hx.seeded)
  obtain ⟨pool', hret⟩ := hfound.returns mem s.pool
  obtain ⟨front, last, rest, hdrain, htaken⟩ := takeResults_returns hn hfound.size uninit
    (s.partial_res x.1)
  have hanswers := hfound.answers hR hdrain
  rw [h.untouched x.1 hx.new, List.nil_append] at htaken
  refine ⟨_, ?_, h.next hx hanswers pool'⟩
  unfold seededStep
  rw [if_pos ⟨hx.curr, hx.parent⟩]
  dsimp only
  rw [h.untouched x.1 hx.new]
  exact hret.bind (htaken.bind (returns_pure _))

/-- **Recall with several entry points.** Over an index with elements, the run over an accepted
trajectory never takes from an empty queue. It searches the queries in order, a child from the
row of its parent; every query is left with `n` different labels, and the one compared is that of
the nearest of them and no farther than any seed. -/
theorem getRecallOptimized2_answers {beamsize : ℕ} (hbeam : n ≤ beamsize) (mem : ℕ → UInt16)
    (uninit : ℕ) {trajectory : Trajectory} (hacc : Accepted trajectory n_elements)
    (pool : VisitedListPool index.max_elements) :
    ∃ r, Returns (getRecallOptimized2 Q R index maxValue querydata F ans n_elements n beamsize mem
        uninit trajectory pool) r ∧
      r.1.searches.map (fun t => (t.curr, t.parent)) = trajectory ∧
      (∀ t ∈ r.1.searches, t.seeds = seedsOf r.1.partial_res t.parent ∧
        AnswersFrom index (querydata t.curr.toNat) n t.seeds (r.1.partial_res t.curr) t.label) ∧
      (∀ c, InBounds n_elements c →
        (r.1.partial_res c).length = n ∧ (r.1.partial_res c).Nodup) ∧
      r.2 = (fun x : F => x + 1)^[r.1.searches.countP fun t =>
        decide ((t.label : ℤ) = ans t.curr.toNat)] 0 / Scalar.ofInt n_elements := by
  obtain ⟨s, hret, hinv⟩ := foldlM_returns
    (f := seededStep Q R index maxValue querydata ans n_elements n beamsize mem uninit)
    (fun pre s => SeededInv index querydata ans n pre s) (l := trajectory)
    (fun pre x post s hsplit hinv => seededStep_returns hQ hR hneg hpos hlabel hfin hn hreach
      beamsize mem uninit hinv (nextEntry hacc hsplit))
    (s := { pool := pool, partial_res := fun _ => [], correct := (0 : F), searches := [] })
    ⟨rfl, fun t ht => absurd ht List.not_mem_nil, fun t ht => absurd ht List.not_mem_nil,
      fun _ _ => rfl, rfl⟩
  refine ⟨_, (assert_returns.mpr hbeam).bind (hret.bind (returns_pure _)), hinv.entries,
    fun t ht => ⟨hinv.seeds t ht, hinv.answers t ht⟩, fun c hc => ?_, by rw [hinv.correct]⟩
  have hmem : c ∈ trajectory.map Prod.fst :=
    (accepted_iff.mp hacc).1.mem_iff.mpr (mem_indices.mpr hc)
  obtain ⟨t, ht, rfl⟩ := hinv.exists_search hmem
  exact ⟨(hinv.answers t ht).isRow.length, (hinv.answers t ht).isRow.nodup⟩

end Run

-- ---------------------------------------------------------------------------
-- An index without elements
-- ---------------------------------------------------------------------------

/-- An index before the first insertion. -/
def emptyIndex : HierarchicalNSW ℤ ℤ where
  max_elements := 4
  cur_element_count := 0
  enterpoint_node := 0
  maxlevel := 0
  element_levels _ := 0
  linklist _ _ := []
  data _ := 0
  externalLabel id := id
  fstdistfunc a b := |a - b|
  capacity := by decide
  enter_lt h := absurd h (lt_irrefl 0)
  enter_level := Nat.le_refl Nat.zero
  link_lt _ _ h := absurd h (Nat.not_lt_zero _)
  link_level _ _ h := absurd h (Nat.not_lt_zero _)

/-- The first query finds nothing, and the top of an empty queue is taken. -/
theorem emptyIndex_emptyQueue :
    (∀ id < emptyIndex.cur_element_count, emptyIndex.externalLabel id = id) ∧
    (∀ id < emptyIndex.cur_element_count, 1 ≤ {u | Reachable emptyIndex [id] u}.ncard) ∧
    (∀ c < 1, ∀ id < emptyIndex.cur_element_count, emptyIndex.dist ((c : ℕ) : ℤ) id ≤ 100) ∧
    Accepted [(0, -1)] 1 ∧
    Fails (getRecallOptimized2 (PriorityQueue.byKey Prod.fst) (PriorityQueue.byKey toLex) emptyIndex
      100 (fun c : ℕ => (c : ℤ)) (Exact ℚ) (fun _ => 0) 1 1 1 (fun _ => 0) 0 [(0, -1)] ⟨[]⟩)
      .emptyQueue := by
  have hnone : ∀ {P : ℕ → Prop}, ∀ id < emptyIndex.cur_element_count, P id := fun id hid =>
    absurd hid (Nat.not_lt_zero id)
  exact ⟨hnone, hnone, fun _ _ => hnone, returns_of_value (n := 0) (by decide +kernel), ⟨5, rfl⟩⟩

/-- Two linked elements, a query and its child: both are left with both elements. -/
theorem lineIndex_answers : ∃ r,
    Returns (getRecallOptimized2 (PriorityQueue.byKey Prod.fst) (PriorityQueue.byKey toLex) lineIndex
      100 (fun c : ℕ => (c : ℤ)) (Exact ℚ) (fun _ => 0) 2 2 2 (fun _ => 0) 0 [(0, -1), (1, 0)] ⟨[]⟩)
      r ∧
    ∀ c, InBounds 2 c → (r.1.partial_res c).length = 2 ∧ (r.1.partial_res c).Nodup := by
  have hneg : ExactNeg ℤ := ⟨neg_neg, fun _ _ h => neg_lt_neg h⟩
  have hreach : ∀ id < lineIndex.cur_element_count,
      2 ≤ {u | Reachable lineIndex [id] u}.ncard := by
    intro id hid
    have hother : 1 - id ∈ lineIndex.linklist 0 id :=
      (by decide : ∀ id < lineIndex.cur_element_count, 1 - id ∈ lineIndex.linklist 0 id) id hid
    have hsub : ({id, 1 - id} : Set ℕ) ⊆ {u | Reachable lineIndex [id] u} := by
      rintro u (rfl | rfl)
      · exact ⟨u, by simp, .refl⟩
      · exact ⟨id, by simp, .single hother⟩
    have hfinite : {u | Reachable lineIndex [id] u}.Finite :=
      (Set.finite_Iio lineIndex.cur_element_count).subset fun u hu =>
        hu.lt fun ep hep => List.mem_singleton.mp hep ▸ hid
    have hcard := Set.ncard_le_ncard hsub hfinite
    rwa [Set.ncard_pair (by omega)] at hcard
  obtain ⟨r, hret, -, -, hrows, -⟩ := getRecallOptimized2_answers (F := Exact ℚ)
    (PriorityQueue.byKey_ordered Prod.fst) (PriorityQueue.byKey_ordered toLex) hneg (by decide)
    (fun _ _ => rfl) (lineIndex_dist_le (by decide)) (by decide : 1 ≤ 2) hreach (le_refl 2) (fun _ => 0) 0
    (show Accepted [(0, -1), (1, 0)] 2 from returns_of_value (n := 0) (by decide +kernel)) ⟨[]⟩
  exact ⟨r, hret, hrows⟩

end Mqo.Search.Hnsw
