import Mqo.Search.HnswRecall

/-!
# MQO — the plain search of an HNSW index

`searchBaseLayerST` and `searchKnn` of `hnsw_exp/hnswlib/hnswalg.h`, which the
seeded search replaces. `searchBaseLayerST` starts from one point and takes a
filter and a stop condition, which its bare-bone instance ignores; `searchKnn`
uses this instance when it is given no filter and no element is deleted.

* `searchBaseLayerST_bareBone` — the bare-bone instance returns what
  `searchBaseLayerST_mine` returns from the one point;
* `searchKnn_seedless`         — without filter and deletions, `searchKnn`
  returns what `searchKnn_mine` returns from no point.
-/

namespace Mqo.Search.Hnsw

open Prog Flags

-- ---------------------------------------------------------------------------
-- The arguments of the plain search
-- ---------------------------------------------------------------------------

/-- `BaseSearchStopCondition<dist_t>`, for an object with states in `S`. -/
structure SearchStopCondition (V K S : Type) where
  addPointToResult : ℕ → V → K → S → S
  removePointFromResult : ℕ → V → K → S → S
  shouldStopSearch : K → K → S → Bool × S
  shouldConsiderCandidate : K → K → S → Bool × S
  shouldRemoveExtra : S → Bool × S

/-- The template argument and the optional arguments of `searchBaseLayerST`; the labels
that the filter allows. -/
structure SearchArgs (V K S : Type) where
  bare_bone_search : Bool
  isIdAllowed : Option (ℕ → Bool)
  stop_condition : Option (SearchStopCondition V K S)

/-- The stop condition in use: `!bare_bone_search && stop_condition`. -/
def SearchArgs.active {V K S : Type} (args : SearchArgs V K S) :
    Option (SearchStopCondition V K S) :=
  if args.bare_bone_search then none else args.stop_condition

/-- The elements marked as deleted, and `num_deleted_`. -/
structure Deletions {V K : Type} (index : HierarchicalNSW V K) where
  isMarkedDeleted : ℕ → Bool
  num_deleted : ℕ
  counted : num_deleted =
    ((Finset.range index.cur_element_count).filter fun id => isMarkedDeleted id = true).card

section Plain

variable {V K S : Type} [LinearOrder K] [Neg K]

/-- The state of `searchBaseLayerST`, with that of the stop condition. -/
structure PlainState (Q : PriorityQueue (K × ℕ)) (n : ℕ) (S : Type) where
  base : BaseState Q n
  stop : S

variable (Q : PriorityQueue (K × ℕ)) (index : HierarchicalNSW V K) (deletions : Deletions index)
  (query : V) (args : SearchArgs V K S)

/-- May the element become a result? -/
def admits (id : ℕ) : Bool :=
  args.bare_bone_search ||
    (!deletions.isMarkedDeleted id &&
      match args.isIdAllowed with
      | none => true
      | some isIdAllowed => isIdAllowed (index.externalLabel id))

/-- A push to the results, reported to the stop condition. -/
def addResult (top_candidates : Q.Heap) (stop : S) (dist : K) (id : ℕ) : Q.Heap × S :=
  (Q.push top_candidates (dist, id),
    match args.active with
    | some cond => cond.addPointToResult (index.externalLabel id) (index.data id) dist stop
    | none => stop)

/-- The initialisation for the entry point. -/
def enterPlain (maxValue : K) (vl : VisitedList index.max_elements) (stop : S) (ep_id : ℕ) :
    Run (PlainState Q index.max_elements S) := do
  let s : PlainState Q index.max_elements S :=
    if admits index deletions args ep_id then
      let dist := index.dist query ep_id
      let added := addResult Q index args Q.empty stop dist ep_id
      ⟨⟨vl, added.1, Q.push Q.empty (-dist, ep_id), dist⟩, added.2⟩
    else ⟨⟨vl, Q.empty, Q.push Q.empty (-maxValue, ep_id), maxValue⟩, stop⟩
  let visited ← s.base.visited.visit ep_id
  pure { s with base := { s.base with visited := visited } }

/-- `flag_stop_search` -/
def stopFlag (ef : ℕ) (s : PlainState Q index.max_elements S) (candidate_dist : K) : Bool × S :=
  if args.bare_bone_search then (decide (s.base.lowerBound < candidate_dist), s.stop)
  else
    match args.stop_condition with
    | some cond => cond.shouldStopSearch candidate_dist s.base.lowerBound s.stop
    | none => (decide (s.base.lowerBound < candidate_dist ∧ Q.size s.base.top_candidates = ef), s.stop)

/-- `flag_consider_candidate` -/
def considerFlag (ef : ℕ) (s : PlainState Q index.max_elements S) (dist : K) : Bool × S :=
  match args.active with
  | some cond => cond.shouldConsiderCandidate dist s.base.lowerBound s.stop
  | none => (decide (Q.size s.base.top_candidates < ef ∨ dist < s.base.lowerBound), s.stop)

/-- `flag_remove_extra` -/
def removeFlag (ef : ℕ) (top_candidates : Q.Heap) (stop : S) : Bool × S :=
  match args.active with
  | some cond => cond.shouldRemoveExtra stop
  | none => (decide (ef < Q.size top_candidates), stop)

/-- One iteration of `while (flag_remove_extra)`. -/
def removeStep (ef : ℕ) (dist : K) (s : Q.Heap × Bool × S) :
    Run ((Q.Heap × Bool × S) ⊕ (Q.Heap × S)) :=
  if s.2.1 then
    match Q.top s.1 with
    | none => fault .emptyQueue
    | some top =>
      let stop :=
        match args.active with
        | some cond =>
          cond.removePointFromResult (index.externalLabel top.2) (index.data top.2) dist s.2.2
        | none => s.2.2
      pure (.inl (Q.pop s.1, removeFlag Q args ef (Q.pop s.1) stop))
  else pure (.inr (s.1, s.2.2))

/-- The pushes and evictions for a neighbour that has just been marked. -/
def offerPlain (ef : ℕ) (s : PlainState Q index.max_elements S) (candidate_id : ℕ) :
    Run (PlainState Q index.max_elements S) :=
  let dist := index.dist query candidate_id
  let flag_consider_candidate := considerFlag Q index args ef s dist
  if flag_consider_candidate.1 then do
    let added :=
      if admits index deletions args candidate_id then
        addResult Q index args s.base.top_candidates flag_consider_candidate.2 dist candidate_id
      else (s.base.top_candidates, flag_consider_candidate.2)
    let r ← loop (removeStep Q index args ef dist) (added.1, removeFlag Q args ef added.1 added.2)
    pure
      { base :=
          { s.base with
            candidate_set := Q.push s.base.candidate_set (-dist, candidate_id)
            top_candidates := r.1
            lowerBound := match Q.top r.1 with
              | some top => top.1
              | none => s.base.lowerBound }
        stop := r.2 }
  else pure { s with stop := flag_consider_candidate.2 }

/-- One neighbour of the element being expanded. -/
def considerPlain (ef : ℕ) (s : PlainState Q index.max_elements S) (candidate_id : ℕ) :
    Run (PlainState Q index.max_elements S) := do
  let seen ← s.base.visited.isVisited candidate_id
  if seen then pure s
  else do
    let visited ← s.base.visited.visit candidate_id
    offerPlain Q index deletions query args ef { s with base := { s.base with visited := visited } }
      candidate_id

/-- One iteration of the main loop. -/
def plainStep (ef : ℕ) (s : PlainState Q index.max_elements S) :
    Run (PlainState Q index.max_elements S ⊕ PlainState Q index.max_elements S) :=
  match Q.top s.base.candidate_set with
  | none => pure (.inr s)
  | some current_node_pair =>
    let flag_stop_search := stopFlag Q index args ef s (-current_node_pair.1)
    if flag_stop_search.1 then pure (.inr { s with stop := flag_stop_search.2 })
    else do
      let s' ← (index.linklist 0 current_node_pair.2).foldlM
        (considerPlain Q index deletions query args ef)
        { base := { s.base with candidate_set := Q.pop s.base.candidate_set }
          stop := flag_stop_search.2 }
      pure (.inl s')

/-- `searchBaseLayerST` -/
def searchBaseLayerST (maxValue : K) (ep_id ef : ℕ) (stop : S) (mem : ℕ → UInt16)
    (pool : VisitedListPool index.max_elements) :
    Run (Q.Heap × VisitedListPool index.max_elements) := do
  let vl := pool.getFreeVisitedList mem
  let s₀ ← enterPlain Q index deletions query args maxValue vl.1 stop ep_id
  let s ← loop (plainStep Q index deletions query args ef) s₀
  pure (s.base.top_candidates, vl.2.releaseVisitedList s.base.visited)

/-- `searchKnn` -/
def searchKnn (R : PriorityQueue (K × ℕ)) (maxValue : K) (ef k : ℕ)
    (isIdAllowed : Option (ℕ → Bool)) (mem : ℕ → UInt16)
    (pool : VisitedListPool index.max_elements) :
    Run (R.Heap × VisitedListPool index.max_elements) :=
  if index.cur_element_count = 0 then pure (R.empty, pool)
  else do
    let currObj ← descend index query
    let bare_bone_search := deletions.num_deleted = 0 && isIdAllowed.isNone
    let r ← searchBaseLayerST (S := Unit) Q index deletions query
      ⟨bare_bone_search, isIdAllowed, none⟩ maxValue currObj.1 (max ef k) () mem pool
    pure (labelResults Q index R (Q.shrink k r.1), r.2)

-- ---------------------------------------------------------------------------
-- The bare-bone instance
-- ---------------------------------------------------------------------------

variable {Q index deletions query args}

omit [LinearOrder K] [Neg K] in
theorem active_bareBone (hbare : args.bare_bone_search = true) : args.active = none := by
  rw [SearchArgs.active, if_pos hbare]

omit [LinearOrder K] [Neg K] in
/-- The removal loop pops while the size exceeds `ef`. -/
theorem removeLoop_returns (hbare : args.bare_bone_search = true) (ef : ℕ) (dist : K)
    (h : Q.Heap) (stop : S) :
    Returns (loop (removeStep Q index args ef dist) (h, removeFlag Q args ef h stop))
      (Q.shrink ef h, stop) := by
  have hflag : ∀ h, removeFlag Q args ef h stop = (decide (ef < Q.size h), stop) := fun h => by
    rw [removeFlag, active_bareBone hbare]
  induction hn : Q.size h generalizing h with
  | zero =>
    rw [hflag, decide_eq_false (by omega), Q.shrink_of_le (by omega)]
    exact loop_done (by rw [removeStep, if_neg Bool.false_ne_true]; exact returns_pure _)
  | succ n ih =>
    rcases Nat.lt_or_ge ef (Q.size h) with hlt | hge
    · obtain ⟨a, htop⟩ := Q.exists_top_of_size (h := h) (by omega)
      have hstep : Returns (removeStep Q index args ef dist (h, removeFlag Q args ef h stop))
          (.inl (Q.pop h, removeFlag Q args ef (Q.pop h) stop)) := by
        rw [hflag, decide_eq_true hlt, removeStep, if_pos rfl, htop, active_bareBone hbare]
        exact returns_pure _
      rw [Q.shrink_of_lt hlt]
      exact loop_next hstep (ih (Q.pop h) (by have := Q.size_pop htop; omega))
    · rw [hflag, decide_eq_false (by omega), Q.shrink_of_le hge]
      exact loop_done (by rw [removeStep, if_neg Bool.false_ne_true]; exact returns_pure _)

theorem offerPlain_returns (hbare : args.bare_bone_search = true) (ef : ℕ)
    (s : PlainState Q index.max_elements S) (id : ℕ) :
    Returns (offerPlain Q index deletions query args ef s id)
      ⟨offerCandidate Q index query ef s.base id, s.stop⟩ := by
  have hadmits : admits index deletions args id = true := by rw [admits, hbare, Bool.true_or]
  unfold offerPlain offerCandidate considerFlag
  rw [active_bareBone hbare]
  dsimp only
  by_cases hconsider : Q.size s.base.top_candidates < ef ∨ index.dist query id < s.base.lowerBound
  · rw [decide_eq_true hconsider, if_pos rfl, if_pos hadmits, if_pos hconsider, addResult,
      active_bareBone hbare]
    exact (removeLoop_returns hbare ef _ _ s.stop).bind (returns_pure _)
  · rw [decide_eq_false hconsider, if_neg Bool.false_ne_true, if_neg hconsider]
    exact returns_pure _

/-- **One neighbour.** -/
theorem considerPlain_sim (hbare : args.bare_bone_search = true) {ef : ℕ}
    {s s' : BaseState Q index.max_elements} {id : ℕ} (stop : S)
    (h : Returns (considerNeighbor Q index query ef s id) s') :
    Returns (considerPlain Q index deletions query args ef ⟨s, stop⟩ id) ⟨s', stop⟩ := by
  obtain ⟨seen, hseen, hs'⟩ := h.of_bind
  refine hseen.bind ?_
  cases seen with
  | true =>
    rw [if_pos rfl] at hs' ⊢
    obtain rfl := hs'.of_pure
    exact returns_pure _
  | false =>
    rw [if_neg Bool.false_ne_true] at hs' ⊢
    obtain ⟨visited, hvisit, hs'⟩ := hs'.of_bind
    obtain rfl := hs'.of_pure
    exact hvisit.bind (offerPlain_returns hbare ef _ id)

/-- **One iteration.** -/
theorem plainStep_sim (hbare : args.bare_bone_search = true) {ef : ℕ}
    {s : BaseState Q index.max_elements} (stop : S) :
    (∀ s', Returns (baseStep Q index query ef s) (.inl s') →
      Returns (plainStep Q index deletions query args ef ⟨s, stop⟩) (.inl ⟨s', stop⟩)) ∧
    ∀ s', Returns (baseStep Q index query ef s) (.inr s') →
      Returns (plainStep Q index deletions query args ef ⟨s, stop⟩) (.inr ⟨s', stop⟩) := by
  have hflag : ∀ d, stopFlag Q index args ef ⟨s, stop⟩ d = (decide (s.lowerBound < d), stop) :=
    fun d => if_pos hbare
  unfold baseStep plainStep
  dsimp only
  simp only [hflag]
  cases Q.top s.candidate_set with
  | none =>
    refine ⟨fun s' h => ?_, fun s' h => ?_⟩
    · cases h.of_pure
    · cases h.of_pure
      exact returns_pure _
  | some e =>
    dsimp only
    by_cases hbound : s.lowerBound < -e.1
    · rw [if_pos hbound, decide_eq_true hbound, if_pos rfl]
      refine ⟨fun s' h => ?_, fun s' h => ?_⟩
      · cases h.of_pure
      · cases h.of_pure
        exact returns_pure _
    · rw [if_neg hbound, decide_eq_false hbound, if_neg Bool.false_ne_true]
      refine ⟨fun s' h => ?_, fun s' h => ?_⟩
      · obtain ⟨s₁, hfold, hs'⟩ := h.of_bind
        cases hs'.of_pure
        obtain ⟨t, hfold', rfl⟩ := foldlM_sim (g := considerPlain Q index deletions query args ef)
          (fun s t => t = ⟨s, stop⟩)
          (fun s t u _ s' hst h => ⟨⟨s', stop⟩, hst ▸ considerPlain_sim hbare stop h, rfl⟩) rfl hfold
        exact hfold'.bind (returns_pure _)
      · obtain ⟨s₁, -, hs'⟩ := h.of_bind
        cases hs'.of_pure

/-- **The main loop.** -/
theorem plainLoop_sim (hbare : args.bare_bone_search = true) {ef : ℕ}
    {s r : BaseState Q index.max_elements} (stop : S)
    (h : Returns (loop (baseStep Q index query ef) s) r) :
    Returns (loop (plainStep Q index deletions query args ef) ⟨s, stop⟩) ⟨r, stop⟩ := by
  have hsim : ∃ t, Returns (loop (plainStep Q index deletions query args ef) ⟨s, stop⟩) t ∧
      t = ⟨r, stop⟩ :=
    loop_sim (fun s (t : PlainState Q index.max_elements S) => t = ⟨s, stop⟩)
      (fun s (t : PlainState Q index.max_elements S) => t = ⟨s, stop⟩)
      (fun s t s' hst h => ⟨⟨s', stop⟩, hst ▸ (plainStep_sim hbare stop).1 s' h, rfl⟩)
      (fun s t s' hst h => ⟨⟨s', stop⟩, hst ▸ (plainStep_sim hbare stop).2 s' h, rfl⟩) rfl h
  obtain ⟨t, hret, rfl⟩ := hsim
  exact hret

/-- A finite distance is the first bound, however the bound is initialised. -/
theorem enterPlain_returns (hbare : args.bare_bone_search = true) {maxValue : K} {ep_id : ℕ}
    (hfin : index.dist query ep_id ≤ maxValue) (hep : ep_id < index.max_elements)
    (vl : VisitedList index.max_elements) (stop : S) :
    Returns (enterPlain Q index deletions query args maxValue vl stop ep_id)
      ⟨entered Q index query ⟨vl, Q.empty, Q.empty, maxValue⟩ ep_id, stop⟩ := by
  have hadmits : admits index deletions args ep_id = true := by rw [admits, hbare, Bool.true_or]
  have hbound : (if index.dist query ep_id < maxValue then index.dist query ep_id else maxValue) =
      index.dist query ep_id := by
    split
    · rfl
    · next hge => exact le_antisymm (not_lt.mp hge) hfin
  unfold enterPlain entered
  dsimp only
  rw [if_pos hadmits, addResult, active_bareBone hbare, hbound]
  exact (VisitedList.visit_returns hep).bind (returns_pure _)

-- ---------------------------------------------------------------------------
-- The searches
-- ---------------------------------------------------------------------------

variable (Q query) in
/-- The search of the bottom layer from one point ends, for every `ef`. -/
theorem searchBaseLayer_one (ef : ℕ) (maxValue : K) {ep_id : ℕ}
    (hep : ep_id < index.cur_element_count) (vl : VisitedList index.max_elements) :
    ∃ s, Returns (loop (baseStep Q index query ef)
        (entered Q index query ⟨vl, Q.empty, Q.empty, maxValue⟩ ep_id)) s ∧
      Returns (searchBaseLayer Q index query maxValue [ep_id] ef vl) s := by
  obtain ⟨s, hloop, -⟩ : ∃ s, Returns (loop (baseStep Q index query ef)
      (entered Q index query ⟨vl, Q.empty, Q.empty, maxValue⟩ ep_id)) s ∧ _ := baseLoop_returns
    (fun s => ∀ e ∈ Q.elems s.candidate_set, e.2 < index.cur_element_count) (fun _ hs => hs)
    (fun s e hs htop _ => candidate_expanded_lt ef hs htop)
    (s := entered Q index query ⟨vl, Q.empty, Q.empty, maxValue⟩ ep_id)
    (fun e he => by
      rw [candidate_entered, Q.elems_empty] at he
      rw [Multiset.mem_singleton.mp he]
      exact hep)
  have hinit : Returns ([ep_id].foldlM (addEntryPoint Q index query)
      ⟨vl, Q.empty, Q.empty, maxValue⟩) _ :=
    foldlM_cons (addEntryPoint_returns _ (hep.trans_le index.capacity)) (foldlM_nil _ _)
  exact ⟨s, hloop, hinit.bind hloop⟩

/-- **The bottom layer.** -/
theorem searchBaseLayerST_bareBone (hbare : args.bare_bone_search = true) {maxValue : K}
    (hfin : ∀ id < index.cur_element_count, index.dist query id ≤ maxValue) {ep_id : ℕ}
    (hep : ep_id < index.cur_element_count) (ef : ℕ) (stop : S) (mem : ℕ → UInt16)
    (pool : VisitedListPool index.max_elements) :
    ∃ r, Returns (searchBaseLayerSTMine Q index query maxValue [ep_id] ef mem pool) r ∧
      Returns (searchBaseLayerST Q index deletions query args maxValue ep_id ef stop mem pool) r := by
  obtain ⟨s, hloop, hmine⟩ := searchBaseLayer_one Q query ef maxValue hep
    (pool.getFreeVisitedList mem).1
  have hinit : Returns (enterPlain Q index deletions query args maxValue
      (pool.getFreeVisitedList mem).1 stop ep_id) _ :=
    enterPlain_returns hbare (hfin ep_id hep) (hep.trans_le index.capacity) _ stop
  exact ⟨_, hmine.bind (returns_pure _),
    hinit.bind ((plainLoop_sim hbare stop hloop).bind (returns_pure _))⟩

/-- Without filter and deletions, `searchKnn` uses the bare-bone instance. -/
theorem searchKnn_seedless (R : PriorityQueue (K × ℕ)) {maxValue : K}
    (hfin : ∀ id < index.cur_element_count, index.dist query id ≤ maxValue)
    (hdeleted : ∀ id < index.cur_element_count, deletions.isMarkedDeleted id = false) (ef k : ℕ)
    (mem : ℕ → UInt16) (pool : VisitedListPool index.max_elements) :
    ∃ r, Returns (searchKnnMine Q index query R maxValue ef k [] mem pool) r ∧
      Returns (searchKnn Q index deletions query R maxValue ef k none mem pool) r := by
  unfold searchKnnMine searchKnn
  split
  · exact ⟨_, returns_pure _, returns_pure _⟩
  · next hcount =>
    obtain ⟨currObj, hdescend, hlt⟩ := descend_returns query (Nat.pos_of_ne_zero hcount)
    have hnum : deletions.num_deleted = 0 := by
      rw [deletions.counted, Finset.card_eq_zero, Finset.filter_eq_empty_iff]
      intro id hid
      rw [hdeleted id (Finset.mem_range.mp hid)]
      exact Bool.false_ne_true
    have hbare : (decide (deletions.num_deleted = 0) && (none : Option (ℕ → Bool)).isNone) = true := by
      rw [hnum]
      rfl
    obtain ⟨r, hmine, hplain⟩ : ∃ r, _ ∧ Returns (searchBaseLayerST (S := Unit) Q index deletions
        query ⟨_, none, none⟩ maxValue currObj.1 (max ef k) () mem pool) r :=
      searchBaseLayerST_bareBone hbare hfin hlt (max ef k) () mem pool
    have hpoints : Returns (startingPoints index query []) [currObj.1] := by
      rw [startingPoints, if_pos List.length_nil]
      exact hdescend.bind (returns_pure _)
    exact ⟨_, hpoints.bind (hmine.bind (returns_pure _)),
      hdescend.bind (hplain.bind (returns_pure _))⟩

/-- **The seeded search without seeds is the plain one.** From a single point, the bottom
layer is searched as by the bare-bone `searchBaseLayerST`; and without any point,
`searchKnn_mine` returns what `searchKnn` returns, if there are no deletions. -/
theorem searchMine_plain (Q : PriorityQueue (K × ℕ)) (index : HierarchicalNSW V K)
    (deletions : Deletions index) {query : V} {maxValue : K}
    (hfin : ∀ id < index.cur_element_count, index.dist query id ≤ maxValue) :
    (∀ args : SearchArgs V K S, args.bare_bone_search = true →
      ∀ ep_id < index.cur_element_count, ∀ ef (stop : S) mem pool,
        ∃ r, Returns (searchBaseLayerSTMine Q index query maxValue [ep_id] ef mem pool) r ∧
          Returns (searchBaseLayerST Q index deletions query args maxValue ep_id ef stop mem pool) r) ∧
    ((∀ id < index.cur_element_count, deletions.isMarkedDeleted id = false) →
      ∀ (R : PriorityQueue (K × ℕ)) ef k mem pool,
        ∃ r, Returns (searchKnnMine Q index query R maxValue ef k [] mem pool) r ∧
          Returns (searchKnn Q index deletions query R maxValue ef k none mem pool) r) :=
  ⟨fun _ hbare _ hep ef stop mem pool =>
      searchBaseLayerST_bareBone hbare hfin hep ef stop mem pool,
    fun hdeleted R ef k mem pool => searchKnn_seedless R hfin hdeleted ef k mem pool⟩

end Plain

-- ---------------------------------------------------------------------------
-- Two elements on a line
-- ---------------------------------------------------------------------------

/-- Both searches for the two elements closest to `3`. -/
theorem lineIndex_plain :
    (∃ r, Returns (searchBaseLayerSTMine (PriorityQueue.byKey Prod.fst) lineIndex 3 100 [1] 2
        (fun _ => 7) ⟨[]⟩) r ∧
      Returns (searchBaseLayerST (PriorityQueue.byKey Prod.fst) lineIndex
        ⟨fun _ => false, 0, rfl⟩ 3 ⟨true, none, none⟩ 100 1 2 () (fun _ => 7) ⟨[]⟩) r) ∧
    ∃ r, Returns (searchKnnMine (PriorityQueue.byKey Prod.fst) lineIndex 3
        (PriorityQueue.byKey Prod.fst) 100 1 2 [] (fun _ => 7) ⟨[]⟩) r ∧
      Returns (searchKnn (PriorityQueue.byKey Prod.fst) lineIndex ⟨fun _ => false, 0, rfl⟩ 3
        (PriorityQueue.byKey Prod.fst) 100 1 2 none (fun _ => 7) ⟨[]⟩) r := by
  have hfin : ∀ id < lineIndex.cur_element_count, lineIndex.dist 3 id ≤ 100 := by decide
  have hplain := searchMine_plain (S := Unit) (PriorityQueue.byKey Prod.fst) lineIndex
    ⟨fun _ => false, 0, rfl⟩ hfin
  exact ⟨hplain.1 ⟨true, none, none⟩ rfl 1 (by decide) 2 () (fun _ => 7) ⟨[]⟩,
    hplain.2 (fun _ _ => rfl) (PriorityQueue.byKey Prod.fst) 1 2 (fun _ => 7) ⟨[]⟩⟩

end Mqo.Search.Hnsw
