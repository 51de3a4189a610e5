import Mathlib.Analysis.SpecialFunctions.Log.Basic
import Mqo.Index.Record
import Mqo.Lib.PriorityQueue

/-!
# MQO — inserting into an HNSW index

`addPoint` of `hnsw_exp/hnswlib/hnswalg.h` and what it calls: the search of one
layer, the choice of neighbours, and the links to and from them. A new element
gets the next internal id; its record is zeroed, label and vector are copied
into it, and then it is linked level by level, from its own level or the highest
one of the index down to level 0.

A mutex is modelled by who holds it: `addPoint` holds that of the new element,
and a thread that locks a mutex it holds waits forever. Memory is taken to
suffice. Only new labels are inserted here; what `updatePoint` does to an
element whose label is inserted again is left open.
-/

namespace Mqo.Index

open Prog Memory ByteStream
open Mqo.Search.Hnsw (VisitedList VisitedListPool)

/-- What the standard library and the allocator leave open: the heaps compared by the
first component (`CompareByFirst`) and by pairs (`std::less`), the largest distance,
the bits of `1 / log(1.0 * M)`, and the contents of new memory. -/
structure Platform (K : Type) where
  byFirst : PriorityQueue (K × ℕ)
  byPair : PriorityQueue (K × ℕ)
  maxValue : K
  mult : ℕ → UInt64
  malloc : ℕ → UInt8
  newList : ℕ → UInt16

/-- A value of `getRandomLevel`, `(int) (-log(u) * mult)`. The logarithm of a positive
`double` is at least that of `2^(-1074)`, and `mult` is at most `1 / log(2)`. -/
structure LevelDraw where
  level : ℕ
  level_le : level ≤ 1074

/-- `getRandomLevel` over the reals, for a draw `u` of the uniform distribution. -/
noncomputable def getRandomLevel (u reverse_size : ℝ) : ℕ := ⌊-Real.log u * reverse_size⌋₊

/-- The least positive `double` is `2^(-1074)`, so that every level is a `LevelDraw`. -/
theorem getRandomLevel_le {u : ℝ} (hu : (2 : ℝ) ^ (-1074 : ℤ) ≤ u) {M : ℕ} (hM : 2 ≤ M) :
    getRandomLevel u (1 / Real.log M) ≤ 1074 := by
  have hpos : 0 < Real.log 2 := Real.log_pos one_lt_two
  have hlogM : Real.log 2 ≤ Real.log M := Real.log_le_log two_pos (by exact_mod_cast hM)
  have hlogu : -1074 * Real.log 2 ≤ Real.log u := by
    have hle := Real.log_le_log (by positivity) hu
    rw [Real.log_zpow] at hle
    exact_mod_cast hle
  refine Nat.floor_le_of_le ?_
  rw [mul_one_div, div_le_iff₀ (hpos.trans_le hlogM)]
  calc -Real.log u ≤ 1074 * Real.log 2 := by linarith
    _ ≤ ((1074 : ℕ) : ℝ) * Real.log M := by
      rw [Nat.cast_ofNat]
      exact mul_le_mul_of_nonneg_left hlogM (by norm_num)

/-- `SpaceInterface<dist_t>` -/
structure SpaceInterface (K : Type) where
  get_data_size : ℕ
  get_dist_func : List UInt8 → List UInt8 → K

/-- `enterpoint_node_ = -1` -/
def noElement : ℕ := 2 ^ 32 - 1

/-- `HierarchicalNSW<dist_t>`: the members that change. -/
structure HierarchicalNSW (L : Layout) where
  cur_element_count : ℕ
  num_deleted : ℕ
  maxlevel : ℤ
  enterpoint_node : ℕ
  memory : Memory Region
  element_levels : ℕ → ℕ
  label_lookup : ℕ → Option ℕ
  visited_list_pool : VisitedListPool L.max_elements
  level_generator : ℕ → LevelDraw

/-- The lock on the list of an element, for a thread that holds one already. -/
def lockLinks (held : Option ℕ) (id : ℕ) : Run Unit := if held = some id then hang else pure ()

variable {K : Type} [Preorder K] [DecidableLT K] [Neg K]
  (P : Platform K) (L : Layout) (fstdistfunc : List UInt8 → List UInt8 → K)

/-- `fstdistfunc_(data_point, getDataByInternalId(id), dist_func_param_)` -/
def distTo (m : Memory Region) (data_point : List UInt8) (id : ℕ) : Run K := do
  let vector ← L.getDataByInternalId m id
  pure (fstdistfunc data_point vector)

/-- The distance between two elements. -/
def distBetween (m : Memory Region) (id id' : ℕ) : Run K := do
  let vector ← L.getDataByInternalId m id
  distTo L fstdistfunc m vector id'

-- ---------------------------------------------------------------------------
-- The search of a layer
-- ---------------------------------------------------------------------------

/-- The state of `searchBaseLayer`. -/
structure LayerState where
  visited : VisitedList L.max_elements
  top_candidates : P.byFirst.Heap
  candidateSet : P.byFirst.Heap
  lowerBound : K

/-- One link of the element being expanded. -/
def considerLink (m : Memory Region) (data_point : List UInt8) (s : LayerState P L)
    (candidate_id : ℕ) : Run (LayerState P L) := do
  let seen ← s.visited.isVisited candidate_id
  if seen then pure s
  else do
    let visited ← s.visited.visit candidate_id
    let dist1 ← distTo L fstdistfunc m data_point candidate_id
    if P.byFirst.size s.top_candidates < L.ef_construction ∨ dist1 < s.lowerBound then do
      let deleted ← L.isMarkedDeleted m candidate_id
      let grown :=
        if deleted then s.top_candidates else P.byFirst.push s.top_candidates (dist1, candidate_id)
      let top_candidates := P.byFirst.dropOver L.ef_construction grown
      pure
        { visited := visited
          candidateSet := P.byFirst.push s.candidateSet (-dist1, candidate_id)
          top_candidates := top_candidates
          lowerBound := match P.byFirst.top top_candidates with
            | some top => top.1
            | none => s.lowerBound }
    else pure { s with visited := visited }

/-- One iteration of the main loop. -/
def layerStep (m : Memory Region) (held : Option ℕ) (data_point : List UInt8) (layer : ℕ)
    (s : LayerState P L) : Run (LayerState P L ⊕ LayerState P L) :=
  match P.byFirst.top s.candidateSet with
  | none => pure (.inr s)
  | some curr_el_pair =>
    if s.lowerBound < -curr_el_pair.1 ∧ P.byFirst.size s.top_candidates = L.ef_construction then
      pure (.inr s)
    else do
      lockLinks held curr_el_pair.2
      let datal ← getLinks m (L.getLinklistAtLevel curr_el_pair.2 layer)
      let s' ← datal.foldlM (considerLink P L fstdistfunc m data_point)
        { s with candidateSet := P.byFirst.pop s.candidateSet }
      pure (.inl s')

/-- The state before the main loop, without the mark of the entry point. -/
def layerStart (m : Memory Region) (visited : VisitedList L.max_elements) (ep_id : ℕ)
    (data_point : List UInt8) : Run (LayerState P L) := do
  let deleted ← L.isMarkedDeleted m ep_id
  if deleted then
    pure ⟨visited, P.byFirst.empty, P.byFirst.push P.byFirst.empty (-P.maxValue, ep_id), P.maxValue⟩
  else do
    let dist ← distTo L fstdistfunc m data_point ep_id
    pure ⟨visited, P.byFirst.push P.byFirst.empty (dist, ep_id),
      P.byFirst.push P.byFirst.empty (-dist, ep_id), dist⟩

/-- `searchBaseLayer` -/
def searchBaseLayer (m : Memory Region) (pool : VisitedListPool L.max_elements)
    (held : Option ℕ) (ep_id : ℕ) (data_point : List UInt8) (layer : ℕ) :
    Run (P.byFirst.Heap × VisitedListPool L.max_elements) := do
  let vl := pool.getFreeVisitedList P.newList
  let s ← layerStart P L fstdistfunc m vl.1 ep_id data_point
  let visited ← s.visited.visit ep_id
  let r ← loop (layerStep P L fstdistfunc m held data_point layer) { s with visited := visited }
  pure (r.top_candidates, vl.2.releaseVisitedList r.visited)

-- ---------------------------------------------------------------------------
-- The choice of neighbours
-- ---------------------------------------------------------------------------

/-- `good`: no element chosen before is closer to the candidate than the query is. -/
def isGood (m : Memory Region) (curent : ℕ) (dist_to_query : K) : List (K × ℕ) → Run Bool
  | [] => pure true
  | second_pair :: rest => do
    let curdist ← distBetween L fstdistfunc m second_pair.2 curent
    if curdist < dist_to_query then pure false
    else isGood m curent dist_to_query rest

/-- One iteration of `while (queue_closest.size())`; the state is the queue and
`return_list`. -/
def heuristicStep (m : Memory Region) (M : ℕ) (s : P.byPair.Heap × List (K × ℕ)) :
    Run ((P.byPair.Heap × List (K × ℕ)) ⊕ List (K × ℕ)) :=
  match P.byPair.top s.1 with
  | none => pure (.inr s.2)
  | some curent_pair =>
    if M ≤ s.2.length then pure (.inr s.2)
    else do
      let good ← isGood L fstdistfunc m curent_pair.2 (-curent_pair.1) s.2
      pure (.inl (P.byPair.pop s.1, if good then s.2 ++ [curent_pair] else s.2))

/-- `getNeighborsByHeuristic2` -/
def getNeighborsByHeuristic2 (m : Memory Region) (top_candidates : P.byFirst.Heap) (M : ℕ) :
    Run P.byFirst.Heap :=
  if P.byFirst.size top_candidates < M then pure top_candidates
  else do
    let queue_closest := (P.byFirst.drain top_candidates).foldl
      (fun q e => P.byPair.push q (-e.1, e.2)) P.byPair.empty
    let return_list ← loop (heuristicStep P L fstdistfunc m M) (queue_closest, [])
    pure (return_list.foldl (fun q e => P.byFirst.push q (-e.1, e.2)) P.byFirst.empty)

-- ---------------------------------------------------------------------------
-- Linking
-- ---------------------------------------------------------------------------

/-- The checks before a link of the new element is written. -/
def checkNewLink (element_levels : ℕ → ℕ) (ll_cur : Pointer) (level : ℕ) (isUpdate : Bool)
    (m : Memory Region) (idx id : ℕ) : Run Unit := do
  let old ← getLink m ll_cur idx
  if old ≠ 0 ∧ isUpdate = false then fault (.exception "Possible memory corruption")
  else if element_levels id < level then
    fault (.exception "Trying to make a link on a non-existent level")
  else pure ()

/-- The list of the new element. -/
def writeNewList (element_levels : ℕ → ℕ) (m : Memory Region) (cur_c level : ℕ) (isUpdate : Bool)
    (selectedNeighbors : List ℕ) : Run (Memory Region) := do
  let ll_cur := L.getLinklistAtLevel cur_c level
  let head ← loadWord m ll_cur.headSpan
  if head ≠ 0 ∧ isUpdate = false then
    fault (.exception "The newly inserted element should have blank link list")
  else do
    let m ← setListCount m ll_cur selectedNeighbors.length
    writeLinks (checkNewLink element_levels ll_cur level isUpdate) ll_cur 0 selectedNeighbors m

/-- The list of a neighbour that is full: the heuristic chooses among its links and the
new one. -/
def replaceLinks (m : Memory Region) (ll_other : Pointer) (cur_c other Mcurmax : ℕ)
    (data : List ℕ) : Run (Memory Region) := do
  let d_max ← distBetween L fstdistfunc m cur_c other
  let candidates ← data.foldlM
    (fun q id => do
      let d ← distBetween L fstdistfunc m id other
      pure (P.byFirst.push q (d, id)))
    (P.byFirst.push P.byFirst.empty (d_max, cur_c))
  let candidates ← getNeighborsByHeuristic2 P L fstdistfunc m candidates Mcurmax
  let ids := (P.byFirst.drain candidates).map Prod.snd
  let m ← writeLinks (fun _ _ _ => pure ()) ll_other 0 ids m
  setListCount m ll_other ids.length

/-- The link of one neighbour back to the new element. -/
def connectBack (element_levels : ℕ → ℕ) (held : Option ℕ) (cur_c level : ℕ) (isUpdate : Bool)
    (m : Memory Region) (other : ℕ) : Run (Memory Region) := do
  lockLinks held other
  let ll_other := L.getLinklistAtLevel other level
  let sz_link_list_other ← getListCount m ll_other
  if L.Mcurmax level < sz_link_list_other then fault (.exception "Bad value of sz_link_list_other")
  else if other = cur_c then fault (.exception "Trying to connect an element to itself")
  else if element_levels other < level then
    fault (.exception "Trying to make a link on a non-existent level")
  else do
    let data ← getLinks m ll_other
    if isUpdate = true ∧ cur_c ∈ data then pure m
    else if sz_link_list_other < L.Mcurmax level then appendLink m ll_other sz_link_list_other cur_c
    else replaceLinks P L fstdistfunc m ll_other cur_c other (L.Mcurmax level) data

/-- `mutuallyConnectNewElement`: the next entry point, and the memory. -/
def mutuallyConnectNewElement (element_levels : ℕ → ℕ) (held : Option ℕ) (m : Memory Region)
    (cur_c : ℕ) (top_candidates : P.byFirst.Heap) (level : ℕ) (isUpdate : Bool) :
    Run (ℕ × Memory Region) := do
  let top_candidates ← getNeighborsByHeuristic2 P L fstdistfunc m top_candidates L.M
  if L.M < P.byFirst.size top_candidates then
    fault (.exception "Should be not be more than M_ candidates returned by the heuristic")
  else do
    let selectedNeighbors := (P.byFirst.drain top_candidates).map Prod.snd
    match selectedNeighbors.getLast? with
    | none => fault .outOfRange
    | some next_closest_entry_point => do
      if isUpdate then lockLinks held cur_c else pure ()
      let m ← writeNewList L element_levels m cur_c level isUpdate selectedNeighbors
      let m ← selectedNeighbors.foldlM
        (connectBack P L fstdistfunc element_levels held cur_c level isUpdate) m
      pure (next_closest_entry_point, m)

-- ---------------------------------------------------------------------------
-- The way down
-- ---------------------------------------------------------------------------

/-- One link of the greedy descent; the state is `currObj`, `curdist`, `changed`. -/
def greedyLink (m : Memory Region) (data_point : List UInt8) (s : (ℕ × K) × Bool) (cand : ℕ) :
    Run ((ℕ × K) × Bool) :=
  if L.max_elements < cand then fault (.exception "cand error")
  else do
    let d ← distTo L fstdistfunc m data_point cand
    pure (if d < s.1.2 then ((cand, d), true) else s)

/-- One pass of `while (changed)` on a level. -/
def greedyStep (m : Memory Region) (held : Option ℕ) (data_point : List UInt8) (level : ℕ)
    (s : ℕ × K) : Run ((ℕ × K) ⊕ (ℕ × K)) := do
  lockLinks held s.1
  let datal ← getLinks m (L.getLinklist s.1 level)
  let r ← datal.foldlM (greedyLink L fstdistfunc m data_point) (s, false)
  pure (if r.2 then .inl r.1 else .inr r.1)

/-- The descent through the `k` levels above `curlevel`. -/
def descendTo (m : Memory Region) (held : Option ℕ) (data_point : List UInt8) (curlevel : ℕ) :
    ℕ → ℕ × K → Run (ℕ × K)
  | 0, s => pure s
  | k + 1, s => do
    let s' ← loop (greedyStep L fstdistfunc m held data_point (curlevel + k + 1)) s
    descendTo m held data_point curlevel k s'

/-- Where the descent ends. -/
def startObject (m : Memory Region) (held : Option ℕ) (data_point : List UInt8)
    (enterpoint_node curlevel : ℕ) (maxlevelcopy : ℤ) : Run ℕ :=
  if (curlevel : ℤ) < maxlevelcopy then do
    let curdist ← distTo L fstdistfunc m data_point enterpoint_node
    let r ← descendTo L fstdistfunc m held data_point curlevel (maxlevelcopy - curlevel).toNat
      (enterpoint_node, curdist)
    pure r.1
  else pure enterpoint_node

/-- The variables of the loop over the levels. -/
structure ConnectState where
  currObj : ℕ
  memory : Memory Region
  visited_list_pool : VisitedListPool L.max_elements

/-- The new element is linked at one level. -/
def connectLevel (element_levels : ℕ → ℕ) (cur_c : ℕ) (data_point : List UInt8)
    (enterpoint_copy : ℕ) (maxlevelcopy : ℤ) (epDeleted : Bool) (level : ℕ) (s : ConnectState L) :
    Run (ConnectState L) :=
  if maxlevelcopy < level then fault (.exception "Level error")
  else do
    let r ← searchBaseLayer P L fstdistfunc s.memory s.visited_list_pool (some cur_c) s.currObj
      data_point level
    let top_candidates ←
      if epDeleted then do
        let d ← distTo L fstdistfunc s.memory data_point enterpoint_copy
        pure (P.byFirst.dropOver L.ef_construction (P.byFirst.push r.1 (d, enterpoint_copy)))
      else pure r.1
    let c ← mutuallyConnectNewElement P L fstdistfunc element_levels (some cur_c) s.memory cur_c
      top_candidates level false
    pure ⟨c.1, c.2, r.2⟩

/-- The levels below the given number, from the highest one down. -/
def connectBelow (element_levels : ℕ → ℕ) (cur_c : ℕ) (data_point : List UInt8)
    (enterpoint_copy : ℕ) (maxlevelcopy : ℤ) (epDeleted : Bool) :
    ℕ → ConnectState L → Run (ConnectState L)
  | 0, s => pure s
  | level + 1, s => do
    let s' ← connectLevel P L fstdistfunc element_levels cur_c data_point enterpoint_copy
      maxlevelcopy epDeleted level s
    connectBelow element_levels cur_c data_point enterpoint_copy maxlevelcopy epDeleted level s'

-- ---------------------------------------------------------------------------
-- A new element
-- ---------------------------------------------------------------------------

/-- The record of a new element: zeroed, then its label and its vector. -/
def storeRecord (m : Memory Region) (cur_c label : ℕ) (data_point : List UInt8) :
    Run (Memory Region) := do
  let m ← store m .data_level0_memory (L.getLinklist0 cur_c).offset (zeros L.size_data_per_element)
  let m ← store m .data_level0_memory (L.labelSpan cur_c).offset (toBytes 8 label)
  store m .data_level0_memory (L.dataSpan cur_c).offset (data_point.take L.data_size)

/-- The block for the upper levels of a new element, zeroed. -/
def allocateLinks (m : Memory Region) (cur_c curlevel : ℕ) : Memory Region :=
  if curlevel ≠ 0 then
    Function.update m (.linkLists cur_c) ⟨L.size_links_per_element * curlevel + 1, fun _ => 0⟩
  else m

variable {L}

/-- What an insertion does before the new element is linked: all but the memory. -/
def HierarchicalNSW.reserve (s : HierarchicalNSW L) (label curlevel : ℕ) : HierarchicalNSW L :=
  { s with
    cur_element_count := s.cur_element_count + 1
    label_lookup := Function.update s.label_lookup label (some s.cur_element_count)
    level_generator := fun k => s.level_generator (k + 1)
    element_levels := Function.update s.element_levels s.cur_element_count curlevel }

/-- The rest of an insertion, once the memory holds the record of the new element: the
way down, the links of each level, and the entry point. -/
def linkElement (s : HierarchicalNSW L) (m : Memory Region) (label curlevel : ℕ)
    (data_point : List UInt8) : Run (HierarchicalNSW L) := do
  let cur_c := s.cur_element_count
  let reserved := s.reserve label curlevel
  let linked ←
    if s.enterpoint_node ≠ noElement then do
      let currObj ← startObject L fstdistfunc m (some cur_c) data_point s.enterpoint_node curlevel
        s.maxlevel
      let epDeleted ← L.isMarkedDeleted m s.enterpoint_node
      let c ← connectBelow P L fstdistfunc reserved.element_levels cur_c data_point
        s.enterpoint_node s.maxlevel epDeleted (min (curlevel : ℤ) s.maxlevel + 1).toNat
        ⟨currObj, m, s.visited_list_pool⟩
      pure { reserved with memory := c.memory, visited_list_pool := c.visited_list_pool }
    else pure { reserved with memory := m, enterpoint_node := 0, maxlevel := curlevel }
  pure (if s.maxlevel < curlevel then { linked with enterpoint_node := cur_c, maxlevel := curlevel }
    else linked)

/-- `addPoint(data_point, label, level)`, for the given effect of `updatePoint`. -/
def addPointAt (updatePoint : HierarchicalNSW L → List UInt8 → ℕ → Run (HierarchicalNSW L))
    (s : HierarchicalNSW L) (data_point : List UInt8) (label : ℕ) (level : ℤ) :
    Run (ℕ × HierarchicalNSW L) :=
  match s.label_lookup label with
  | some existingInternalId => do
    let s' ← updatePoint s data_point existingInternalId
    pure (existingInternalId, s')
  | none =>
    if s.cur_element_count ≥ L.max_elements then
      fault (.exception "The number of elements exceeds the specified limit")
    else do
      let cur_c := s.cur_element_count
      let curlevel := if 0 < level then level.toNat else (s.level_generator 0).level
      let m ← storeRecord L s.memory cur_c label data_point
      let s' ← linkElement P fstdistfunc s (allocateLinks L m cur_c curlevel) label curlevel data_point
      pure (cur_c, s')

/-- `addPoint(data_point, label)` -/
def addPoint (updatePoint : HierarchicalNSW L → List UInt8 → ℕ → Run (HierarchicalNSW L))
    (s : HierarchicalNSW L) (data_point : List UInt8) (label : ℕ) : Run (HierarchicalNSW L) := do
  let r ← addPointAt P fstdistfunc updatePoint s data_point label (-1)
  pure r.2

variable (L)

/-- The constructor for an empty index; `draws` are the levels that will be drawn. -/
def HierarchicalNSW.new (draws : ℕ → LevelDraw) : HierarchicalNSW L where
  cur_element_count := 0
  num_deleted := 0
  maxlevel := -1
  enterpoint_node := noElement
  memory
    | .data_level0_memory => ⟨L.max_elements * L.size_data_per_element, P.malloc⟩
    | .linkLists _ => ⟨0, P.malloc⟩
  element_levels := fun _ => 0
  label_lookup := fun _ => none
  visited_list_pool := ⟨[VisitedList.new P.newList]⟩
  level_generator := draws

/-- The loop of `build` and `build_ip`: row `i` under label `i`. -/
def fillIndex (updatePoint : HierarchicalNSW L → List UInt8 → ℕ → Run (HierarchicalNSW L))
    (row : ℕ → List UInt8) (max_elements : ℕ) (draws : ℕ → LevelDraw) : Run (HierarchicalNSW L) :=
  (List.range max_elements).foldlM
    (fun s i => addPoint P fstdistfunc updatePoint s (row i) i) (HierarchicalNSW.new P L draws)

end Mqo.Index
