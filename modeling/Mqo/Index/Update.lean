import Mqo.Index.Build

/-!
# MQO — updating an element of an HNSW index

`updatePoint` and `repairConnectionsForUpdate` of `hnsw_exp/hnswlib/hnswalg.h`: what `addPoint` does
under a label that is there already. The vector is overwritten, the lists of its neighbours are
chosen anew on every level of the element, and then the element is linked again from the top.

An `unordered_set` is a list without repetitions, read in an order that is left open.

* `relinkNeighbour_returns` — the list of one neighbour is chosen among the one and two hops;
* `updateLayers_returns`    — then those of all neighbours, level by level.
-/

namespace Mqo.Index

open Prog Memory ByteStream
open Mqo.Search.Hnsw (VisitedListPool)

-- ---------------------------------------------------------------------------
-- The functions
-- ---------------------------------------------------------------------------

/-- What an update leaves open: the order in which an `unordered_set` is read, and where the number
drawn for a neighbour on a level exceeds `updateNeighborProbability`. -/
structure UpdateChoices where
  order : List ℕ → List ℕ
  order_perm : ∀ l, (order l).Perm l
  exceeds : ℕ → ℕ → Bool

/-- The two sets of a level. -/
structure Hops where
  sCand : List ℕ
  sNeigh : List ℕ

section Functions

variable {K : Type} [Preorder K] [DecidableLT K] [Neg K]
  (P : Platform K) (L : Layout) (fstdistfunc : List UInt8 → List UInt8 → K) (C : UpdateChoices)

/-- `getConnectionsWithLock` -/
def getConnectionsWithLock (m : Memory Region) (internalId level : ℕ) : Run (List ℕ) := do
  lockLinks none internalId
  getLinks m (L.getLinklistAtLevel internalId level)

/-- A neighbour of the element, with its position in the list, and the neighbours behind it. -/
def gatherHops (m : Memory Region) (layer : ℕ) (s : Hops) (elOneHop : ℕ × ℕ) : Run Hops :=
  let sCand := s.sCand.insert elOneHop.1
  if C.exceeds layer elOneHop.2 then pure { s with sCand := sCand }
  else do
    let listTwoHop ← getConnectionsWithLock L m elOneHop.1 layer
    pure ⟨listTwoHop.foldl (fun sCand elTwoHop => sCand.insert elTwoHop) sCand,
      s.sNeigh.insert elOneHop.1⟩

/-- A candidate for the list of `neigh`: the nearest `elementsToKeep` are kept. -/
def keepNearest (m : Memory Region) (neigh elementsToKeep : ℕ) (candidates : P.byFirst.Heap)
    (cand : ℕ) : Run P.byFirst.Heap :=
  if cand = neigh then pure candidates
  else do
    let distance ← distBetween L fstdistfunc m neigh cand
    if P.byFirst.size candidates < elementsToKeep then
      pure (P.byFirst.push candidates (distance, cand))
    else
      match P.byFirst.top candidates with
      | none => fault .outOfRange -- `candidates.top()`
      | some top =>
        pure (if distance < top.1 then P.byFirst.push (P.byFirst.pop candidates) (distance, cand)
          else candidates)

/-- The list of a neighbour is chosen anew. -/
def relinkNeighbour (layer : ℕ) (sCand : List ℕ) (m : Memory Region) (neigh : ℕ) :
    Run (Memory Region) := do
  let size := if neigh ∈ sCand then sCand.length - 1 else sCand.length
  let elementsToKeep := min L.ef_construction size
  let candidates ← (C.order sCand).foldlM (keepNearest P L fstdistfunc m neigh elementsToKeep)
    P.byFirst.empty
  let candidates ← getNeighborsByHeuristic2 P L fstdistfunc m candidates (L.Mcurmax layer)
  lockLinks none neigh
  let ll_cur := L.getLinklistAtLevel neigh layer
  let ids := (P.byFirst.drain candidates).map Prod.snd
  let m ← setListCount m ll_cur ids.length
  writeLinks (fun _ _ _ => pure ()) ll_cur 0 ids m

/-- The neighbours of the element on one of its levels. -/
def updateLayer (internalId : ℕ) (m : Memory Region) (layer : ℕ) : Run (Memory Region) := do
  let listOneHop ← getConnectionsWithLock L m internalId layer
  if listOneHop.length = 0 then pure m
  else do
    let hops ← listOneHop.zipIdx.foldlM (gatherHops L C m layer) ⟨[internalId], []⟩
    (C.order hops.sNeigh).foldlM (relinkNeighbour P L fstdistfunc C layer hops.sCand) m

/-- One link of the way down; `currObj`, `curdist`, `changed`. -/
def repairLink (m : Memory Region) (dataPoint : List UInt8) (s : (ℕ × K) × Bool) (cand : ℕ) :
    Run ((ℕ × K) × Bool) := do
  let d ← distTo L fstdistfunc m dataPoint cand
  pure (if d < s.1.2 then ((cand, d), true) else s)

/-- One pass of `while (changed)` on a level. -/
def repairStep (m : Memory Region) (dataPoint : List UInt8) (level : ℕ) (s : ℕ × K) :
    Run ((ℕ × K) ⊕ (ℕ × K)) := do
  lockLinks none s.1
  let datal ← getLinks m (L.getLinklistAtLevel s.1 level)
  let r ← datal.foldlM (repairLink L fstdistfunc m dataPoint) (s, false)
  pure (if r.2 then .inl r.1 else .inr r.1)

/-- The way through the `k` levels above that of the element. -/
def repairDescent (m : Memory Region) (dataPoint : List UInt8) (dataPointLevel : ℕ) :
    ℕ → ℕ × K → Run (ℕ × K)
  | 0, s => pure s
  | k + 1, s => do
    let s' ← loop (repairStep L fstdistfunc m dataPoint (dataPointLevel + k + 1)) s
    repairDescent m dataPoint dataPointLevel k s'

/-- Where the way down ends. -/
def repairStart (m : Memory Region) (dataPoint : List UInt8)
    (entryPointInternalId dataPointLevel : ℕ) (maxLevel : ℤ) : Run ℕ :=
  if (dataPointLevel : ℤ) < maxLevel then do
    let curdist ← distTo L fstdistfunc m dataPoint entryPointInternalId
    let r ← repairDescent L fstdistfunc m dataPoint dataPointLevel
      (maxLevel - dataPointLevel).toNat (entryPointInternalId, curdist)
    pure r.1
  else pure entryPointInternalId

/-- The candidates without the element itself. -/
def filterCandidates (dataPointInternalId : ℕ) (topCandidates : P.byFirst.Heap) :
    P.byFirst.Heap :=
  (P.byFirst.drain topCandidates).foldl
    (fun filtered e => if e.2 ≠ dataPointInternalId then P.byFirst.push filtered e else filtered)
    P.byFirst.empty

/-- The element is linked again at one level. -/
def repairLevel (element_levels : ℕ → ℕ) (dataPoint : List UInt8)
    (entryPointInternalId dataPointInternalId level : ℕ) (s : ConnectState L) :
    Run (ConnectState L) := do
  let r ← searchBaseLayer P L fstdistfunc s.memory s.visited_list_pool none s.currObj dataPoint level
  let filtered := filterCandidates P dataPointInternalId r.1
  if 0 < P.byFirst.size filtered then do
    let epDeleted ← L.isMarkedDeleted s.memory entryPointInternalId
    let filtered ←
      if epDeleted then do
        let d ← distTo L fstdistfunc s.memory dataPoint entryPointInternalId
        pure (P.byFirst.dropOver L.ef_construction
          (P.byFirst.push filtered (d, entryPointInternalId)))
      else pure filtered
    let c ← mutuallyConnectNewElement P L fstdistfunc element_levels none s.memory
      dataPointInternalId filtered level true
    pure ⟨c.1, c.2, r.2⟩
  else pure ⟨s.currObj, s.memory, r.2⟩

/-- The levels below the given number, from the highest one down. -/
def repairBelow (element_levels : ℕ → ℕ) (dataPoint : List UInt8)
    (entryPointInternalId dataPointInternalId : ℕ) : ℕ → ConnectState L → Run (ConnectState L)
  | 0, s => pure s
  | level + 1, s => do
    let s' ← repairLevel P L fstdistfunc element_levels dataPoint entryPointInternalId
      dataPointInternalId level s
    repairBelow element_levels dataPoint entryPointInternalId dataPointInternalId level s'

/-- `repairConnectionsForUpdate` -/
def repairConnectionsForUpdate (element_levels : ℕ → ℕ) (m : Memory Region)
    (pool : VisitedListPool L.max_elements) (dataPoint : List UInt8)
    (entryPointInternalId dataPointInternalId dataPointLevel : ℕ) (maxLevel : ℤ) :
    Run (ConnectState L) := do
  let currObj ← repairStart L fstdistfunc m dataPoint entryPointInternalId dataPointLevel maxLevel
  if maxLevel < dataPointLevel then
    fault (.exception "Level of item to be updated cannot be bigger than max level")
  else
    repairBelow P L fstdistfunc element_levels dataPoint entryPointInternalId dataPointInternalId
      (dataPointLevel + 1) ⟨currObj, m, pool⟩

variable {L}

/-- `updatePoint` -/
def updatePoint (s : HierarchicalNSW L) (dataPoint : List UInt8) (internalId : ℕ) :
    Run (HierarchicalNSW L) := do
  let m ← store s.memory .data_level0_memory (L.dataSpan internalId).offset
    (dataPoint.take L.data_size)
  if s.enterpoint_node = internalId ∧ s.cur_element_count = 1 then pure { s with memory := m }
  else do
    let elemLevel := s.element_levels internalId
    let m ← (List.range (elemLevel + 1)).foldlM (updateLayer P L fstdistfunc C internalId) m
    let c ← repairConnectionsForUpdate P L fstdistfunc s.element_levels m s.visited_list_pool
      dataPoint s.enterpoint_node internalId elemLevel s.maxlevel
    pure { s with memory := c.memory, visited_list_pool := c.visited_list_pool }

/-- `unmarkDeletedInternal`, where deleted elements are not replaced. -/
def HierarchicalNSW.unmarkDeletedInternal (s : HierarchicalNSW L) (internalId : ℕ) :
    Run (HierarchicalNSW L) := do
  let deleted ← L.isMarkedDeleted s.memory internalId
  if deleted then do
    let mark ← loadWord s.memory (L.markSpan internalId)
    let m ← store s.memory .data_level0_memory (L.markSpan internalId).offset
      (toBytes 1 (mark - mark % 2))
    pure { s with memory := m, num_deleted := s.num_deleted - 1 }
  else fault (.exception "The requested to undelete element is not deleted")

/-- What `addPoint` does under a label that is there already. -/
def updateExisting (s : HierarchicalNSW L) (dataPoint : List UInt8) (existingInternalId : ℕ) :
    Run (HierarchicalNSW L) := do
  let deleted ← L.isMarkedDeleted s.memory existingInternalId
  let s ← if deleted then s.unmarkDeletedInternal existingInternalId else pure s
  updatePoint P fstdistfunc C s dataPoint existingInternalId

end Functions

-- ---------------------------------------------------------------------------
-- Graphs without loops
-- ---------------------------------------------------------------------------

/-- A graph in which no list names an element twice or its own one. -/
structure Intact (L : Layout) (levels : ℕ → ℕ) (N : ℕ) (lim : ℕ → ℕ) (m : Memory Region) : Prop
    extends Graph L levels N lim m where
  nodup  : ∀ id < N, ∀ level ≤ levels id, (links m (L.getLinklistAtLevel id level)).Nodup
  irrefl : ∀ id < N, ∀ level ≤ levels id, id ∉ links m (L.getLinklistAtLevel id level)

section Intact

variable {L : Layout} {levels : ℕ → ℕ} {N : ℕ} {lim : ℕ → ℕ} {m m' : Memory Region}

/-- **Rewriting a list** by ids of other elements, each once. -/
theorem Intact.rewrite (hL : L.WellFormed) (h : Intact L levels N lim m) {id level : ℕ}
    {ids : List ℕ} (hm : Rewrites L id level m m' ids) (hroom : ids.length ≤ L.Mcurmax level)
    (hids : ∀ v ∈ ids, IsNode levels (lim level) level v) (hnodup : ids.Nodup)
    (hirrefl : id ∉ ids) : Intact L levels N lim m' := by
  refine ⟨h.toGraph.rewrite hL hm hroom hids, fun id' hid' level' hlevel' => ?_,
    fun id' hid' level' hlevel' => ?_⟩
  all_goals by_cases hsame : id' = id ∧ level' = level
  · rw [hsame.1, hsame.2, hm.links]
    exact hnodup
  · rw [h.toGraph.links_of_rewrites hL hm hid' hlevel' hsame]
    exact h.nodup id' hid' level' hlevel'
  · rw [hsame.1, hsame.2, hm.links]
    exact hirrefl
  · rw [h.toGraph.links_of_rewrites hL hm hid' hlevel' hsame]
    exact h.irrefl id' hid' level' hlevel'

/-- The bound on the links may be raised. -/
theorem Intact.raise (h : Intact L levels N lim m) {lim' : ℕ → ℕ}
    (hle : ∀ level, lim level ≤ lim' level) (hbound : ∀ level, lim' level ≤ N) :
    Intact L levels N lim' m :=
  ⟨h.toGraph.raise hle hbound, h.nodup, h.irrefl⟩

/-- The deletion mark is in the first word of the list at level 0. -/
theorem mark_within_list (id : ℕ) : Within (L.markSpan id) (L.list id 0) :=
  ⟨rfl, Nat.le_add_right _ _, by
    show (L.getLinklist0 id).offset + 2 + 1 ≤ (L.getLinklist0 id).offset + (4 + 4 * L.Mcurmax 0)
    omega⟩

/-- A vector is no part of the graph. -/
theorem Intact.setData (hL : L.WellFormed) (h : Intact L levels N lim m) {id : ℕ}
    (hm : Modifies {L.dataSpan id} m m') : Intact L levels N lim m' := by
  have hlist : ∀ id' level, bytes m' (L.list id' level) = bytes m (L.list id' level) :=
    fun id' level => hm.bytes _ fun w hw => by
      rw [Set.mem_singleton_iff.mp hw]
      exact (list_apart_data hL id' level id).symm
  have hlinks : ∀ id' < N, ∀ level ≤ levels id',
      links m' (L.getLinklistAtLevel id' level) = links m (L.getLinklistAtLevel id' level) :=
    fun id' hid' level hlevel => links_congr (h.room id' hid' level hlevel) (hlist id' level)
  refine ⟨h.toGraph.congr (fun _ _ => rfl) (hm.size _)
      (fun id' hid' => (h.upper id' hid').trans (hm.size _).ge)
      (fun id' _ level _ => hlist id' level) (fun id' _ => hm.word fun w hw => ?_),
    fun id' hid' level hlevel => ?_, fun id' hid' level hlevel => ?_⟩
  · rw [Set.mem_singleton_iff.mp hw]
    exact (list_apart_data hL id' 0 id).symm.within (Within.refl _) (mark_within_list id')
  · rw [hlinks id' hid' level hlevel]
    exact h.nodup id' hid' level hlevel
  · rw [hlinks id' hid' level hlevel]
    exact h.irrefl id' hid' level hlevel

end Intact

-- ---------------------------------------------------------------------------
-- The neighbours of the element
-- ---------------------------------------------------------------------------

section Neighbours

variable {K : Type} [Preorder K] [DecidableLT K] [Neg K]
  {P : Platform K} {L : Layout} (fstdistfunc : List UInt8 → List UInt8 → K) {C : UpdateChoices}
  {levels : ℕ → ℕ} {N : ℕ} {m : Memory Region}

/-- The two sets name elements that reach the level, the candidates each once. -/
structure HopsInv (levels : ℕ → ℕ) (N layer : ℕ) (hops : Hops) : Prop where
  sCand  : ∀ v ∈ hops.sCand, IsNode levels N layer v
  nodup  : hops.sCand.Nodup
  sNeigh : ∀ v ∈ hops.sNeigh, IsNode levels N layer v

theorem foldl_insert {good : ℕ → Prop} {l acc : List ℕ} (hl : ∀ v ∈ l, good v)
    (hacc : ∀ v ∈ acc, good v) (hnodup : acc.Nodup) :
    (∀ v ∈ l.foldl (fun acc v => acc.insert v) acc, good v) ∧
      (l.foldl (fun acc v => acc.insert v) acc).Nodup := by
  induction l generalizing acc with
  | nil => exact ⟨hacc, hnodup⟩
  | cons x l ih =>
    refine ih (fun v hv => hl v (List.mem_cons_of_mem _ hv)) (fun v hv => ?_) (hnodup.insert)
    rcases List.mem_insert_iff.mp hv with rfl | hv
    · exact hl v List.mem_cons_self
    · exact hacc v hv

variable (hL : L.WellFormed) (h : Graph L levels N (fun _ => N) m)

include hL h

omit [Preorder K] [DecidableLT K] [Neg K] in
theorem getConnectionsWithLock_returns {id layer : ℕ} (hnode : IsNode levels N layer id) :
    Returns (getConnectionsWithLock L m id layer) (links m (L.getLinklistAtLevel id layer)) :=
  (lockLinks_returns (by rintro ⟨⟩)).bind (h.getLinks_returns hL hnode.1 hnode.2)

/-- **The two sets of a level.** -/
theorem gatherHops_returns {internalId layer : ℕ} (hnode : IsNode levels N layer internalId) :
    ∃ hops, Returns ((links m (L.getLinklistAtLevel internalId layer)).zipIdx.foldlM
        (gatherHops L C m layer) ⟨[internalId], []⟩) hops ∧ HopsInv levels N layer hops := by
  refine foldlM_returns (fun _ hops => HopsInv levels N layer hops)
    (fun pre e post hops hsplit hinv => ?_)
    ⟨fun v hv => List.mem_singleton.mp hv ▸ hnode, List.nodup_singleton _,
      fun v hv => absurd hv List.not_mem_nil⟩
  have hone : IsNode levels N layer e.1 := by
    have hmem : e ∈ (links m (L.getLinklistAtLevel internalId layer)).zipIdx := by
      rw [hsplit]
      exact List.mem_append_right _ List.mem_cons_self
    exact h.target internalId hnode.1 layer hnode.2 e.1 (List.fst_mem_of_mem_zipIdx hmem)
  have hcand : ∀ v ∈ hops.sCand.insert e.1, IsNode levels N layer v := fun v hv => by
    rcases List.mem_insert_iff.mp hv with rfl | hv
    · exact hone
    · exact hinv.sCand v hv
  unfold gatherHops
  dsimp only
  split
  · exact ⟨_, returns_pure _, hcand, hinv.nodup.insert, hinv.sNeigh⟩
  · obtain ⟨hall, hnodup⟩ := foldl_insert
      (fun v hv => h.target e.1 hone.1 layer hone.2 v hv) hcand (hinv.nodup.insert (a := e.1))
    refine ⟨_, (getConnectionsWithLock_returns hL h hone).bind (returns_pure _), hall, hnodup,
      fun v hv => ?_⟩
    rcases List.mem_insert_iff.mp hv with rfl | hv
    · exact hone
    · exact hinv.sNeigh v hv

omit [Neg K] in
/-- **One candidate** for the list of a neighbour. -/
theorem keepNearest_returns {neigh elementsToKeep cand : ℕ} (hkeep : 0 < elementsToKeep)
    (hneigh : neigh < N) (hcand : cand < N) (hne : cand ≠ neigh) (candidates : P.byFirst.Heap) :
    ∃ kept, Returns (keepNearest P L fstdistfunc m neigh elementsToKeep candidates cand) kept ∧
      (P.byFirst.elems kept).map Prod.snd ≤ cand ::ₘ (P.byFirst.elems candidates).map Prod.snd := by
  have hdist := h.distBetween_returns hL fstdistfunc hneigh hcand
  unfold keepNearest
  rw [if_neg hne]
  by_cases hroom : P.byFirst.size candidates < elementsToKeep
  · refine ⟨_, hdist.bind (by rw [if_pos hroom]; exact returns_pure _), ?_⟩
    rw [P.byFirst.elems_push, Multiset.map_cons]
  · obtain ⟨top, htop⟩ := P.byFirst.exists_top_of_size (h := candidates) (by omega)
    refine ⟨_, hdist.bind (by rw [if_neg hroom, htop]; exact returns_pure _), ?_⟩
    split
    · rw [P.byFirst.elems_push, Multiset.map_cons]
      refine Multiset.cons_le_cons _ (Multiset.map_le_map ?_)
      rw [P.byFirst.elems_pop _ _ htop]
      exact Multiset.le_cons_self _ _
    · exact Multiset.le_cons_self _ _

omit [Neg K] in
/-- All candidates: those kept are among the others than `neigh`. -/
theorem keepNearest_all {neigh elementsToKeep : ℕ} (hneigh : neigh < N) {cands : List ℕ}
    (hcands : ∀ v ∈ cands, v < N)
    (hkeep : (∃ v ∈ cands, v ≠ neigh) → 0 < elementsToKeep) :
    ∃ kept, Returns (cands.foldlM (keepNearest P L fstdistfunc m neigh elementsToKeep)
        P.byFirst.empty) kept ∧
      (P.byFirst.elems kept).map Prod.snd ≤ ↑(cands.filter (· ≠ neigh)) := by
  refine foldlM_returns (fun pre (kept : P.byFirst.Heap) =>
    (P.byFirst.elems kept).map Prod.snd ≤ ↑(pre.filter (· ≠ neigh)))
    (fun pre cand post kept hsplit hle => ?_) (by simp)
  have hmem : cand ∈ cands := by
    rw [hsplit]
    exact List.mem_append_right _ List.mem_cons_self
  by_cases hne : cand = neigh
  · refine ⟨kept, ?_, ?_⟩
    · rw [keepNearest, if_pos hne]
      exact returns_pure _
    · simpa [hne] using hle
  · obtain ⟨kept', hret, hle'⟩ := keepNearest_returns fstdistfunc hL h (P := P)
      (hkeep ⟨cand, hmem, hne⟩) hneigh (hcands cand hmem) hne kept
    refine ⟨kept', hret, hle'.trans ?_⟩
    have hfilter : (pre ++ [cand]).filter (· ≠ neigh) = pre.filter (· ≠ neigh) ++ [cand] := by
      simp [hne]
    rw [hfilter, ← Multiset.coe_add, Multiset.coe_singleton, add_comm, Multiset.singleton_add]
    exact Multiset.cons_le_cons _ hle

/-- The heuristic, also where there is no candidate. -/
theorem heuristic_among {M : ℕ} (hM : 0 < M) {candidates : P.byFirst.Heap}
    (hids : ∀ id ∈ (P.byFirst.elems candidates).map Prod.snd, id < N) :
    ∃ r, Returns (getNeighborsByHeuristic2 P L fstdistfunc m candidates M) r ∧
      P.byFirst.size r ≤ M ∧
      (P.byFirst.elems r).map Prod.snd ≤ (P.byFirst.elems candidates).map Prod.snd := by
  by_cases hempty : P.byFirst.size candidates = 0
  · refine ⟨candidates, ?_, by omega, le_refl _⟩
    rw [getNeighborsByHeuristic2, if_pos (by omega)]
    exact returns_pure _
  · obtain ⟨r, hret, -, hsize, hle⟩ := getNeighborsByHeuristic2_returns fstdistfunc hL h hids hM
      (Nat.pos_of_ne_zero hempty) rfl
    exact ⟨r, hret, hsize, hle⟩

omit [Preorder K] [DecidableLT K] [Neg K] in
/-- A list is overwritten, its length first. -/
theorem rewriteList_returns {id level : ℕ} (hnode : IsNode levels N level id) {ids : List ℕ}
    (hroom : ids.length ≤ L.Mcurmax level) (hids : ∀ v ∈ ids, v < N) :
    ∃ m₁ m', Returns (setListCount m (L.getLinklistAtLevel id level) ids.length) m₁ ∧
      Returns (writeLinks (fun _ _ _ => pure ()) (L.getLinklistAtLevel id level) 0 ids m₁) m' ∧
      Rewrites L id level m m' ids := by
  have hhold := h.holds_list hL hnode.1 hnode.2
  obtain ⟨m₁, hsize, hframe₁, hcount₁, -⟩ :=
    setListCount_returns hhold (hroom.trans_lt (Mcurmax_lt hL level))
  obtain ⟨m₂, hwrite, hframe₂, hcount₂, -, hlink₂⟩ := writeLinks_returns (fun _ _ _ => pure ())
    (fun v hv => h.id_lt hL (hids v hv)) 0 (by omega) (hframe₁.holds.mpr hhold)
    (fun _ _ _ _ _ _ _ _ => returns_pure ())
  refine ⟨m₁, m₂, hsize, hwrite, ?_, links_eq (hcount₂.trans hcount₁) fun j hj => ?_⟩
  · exact parts_of_list ((hframe₁.mono fun w hw => ⟨w, Or.inl hw, Within.refl w⟩).trans
      (hframe₂.mono fun w hw => ⟨w, Or.inr hw, Within.refl w⟩))
  · have hj' := hlink₂ j hj
    rw [Nat.zero_add] at hj'
    exact hj'

/-- **The list of a neighbour** names candidates other than the neighbour, each once. -/
theorem relinkNeighbour_returns {layer neigh : ℕ} (hneigh : IsNode levels N layer neigh)
    {sCand : List ℕ} (hcand : ∀ v ∈ sCand, v < N) (hnodup : sCand.Nodup) :
    ∃ m' ids, Returns (relinkNeighbour P L fstdistfunc C layer sCand m neigh) m' ∧
      Rewrites L neigh layer m m' ids ∧ ids.length ≤ L.Mcurmax layer ∧ ids.Nodup ∧ neigh ∉ ids ∧
      ∀ v ∈ ids, v ∈ sCand := by
  have hperm := C.order_perm sCand
  obtain ⟨kept, hkept, hle⟩ : ∃ kept, Returns ((C.order sCand).foldlM
        (keepNearest P L fstdistfunc m neigh (min L.ef_construction
          (if neigh ∈ sCand then sCand.length - 1 else sCand.length))) P.byFirst.empty) kept ∧
      (P.byFirst.elems kept).map Prod.snd ≤ ↑((C.order sCand).filter (· ≠ neigh)) :=
    keepNearest_all fstdistfunc hL h hneigh.1 (fun v hv => hcand v (hperm.mem_iff.mp hv)) (by
      rintro ⟨v, hv, hne⟩
      have hv := hperm.mem_iff.mp hv
      have hef := hL.M_pos.trans_le hL.ef
      have hpos : 0 < if neigh ∈ sCand then sCand.length - 1 else sCand.length := by
        split
        · next hmem =>
          have hsub : [v, neigh].Subperm sCand := List.subperm_of_subset (by simp [hne])
            (List.cons_subset.mpr ⟨hv, List.cons_subset.mpr ⟨hmem, List.nil_subset _⟩⟩)
          have := hsub.length_le
          rw [List.length_cons, List.length_singleton] at this
          omega
        · exact List.length_pos_of_mem hv
      omega)
  have hsub : (P.byFirst.elems kept).map Prod.snd ≤ (↑(sCand.filter (· ≠ neigh)) : Multiset ℕ) :=
    hle.trans (Multiset.coe_le.mpr (hperm.filter _).subperm)
  have hmem : ∀ v ∈ (P.byFirst.elems kept).map Prod.snd, v ∈ sCand ∧ v ≠ neigh := fun v hv => by
    have hv := Multiset.mem_of_le hsub hv
    rw [Multiset.mem_coe, List.mem_filter] at hv
    exact ⟨hv.1, by simpa using hv.2⟩
  obtain ⟨r, hheur, hsize, hr⟩ := heuristic_among fstdistfunc hL h
    (hL.M_pos.trans_le (M_le_Mcurmax hL layer)) (fun v hv => hcand v (hmem v hv).1)
  set ids := (P.byFirst.drain r).map Prod.snd with hidsdef
  have hcoe : (↑ids : Multiset ℕ) = (P.byFirst.elems r).map Prod.snd := by
    rw [hidsdef, ← Multiset.map_coe, P.byFirst.coe_drain]
  have hin : ∀ v ∈ ids, v ∈ sCand ∧ v ≠ neigh := fun v hv => by
    have hv : v ∈ (↑ids : Multiset ℕ) := Multiset.mem_coe.mpr hv
    rw [hcoe] at hv
    exact hmem v (Multiset.mem_of_le hr hv)
  have hlen : ids.length ≤ L.Mcurmax layer := by
    rw [hidsdef, List.length_map, P.byFirst.length_drain]
    exact hsize
  obtain ⟨m₁, m', hcount, hwrite, hrew⟩ := rewriteList_returns hL h hneigh hlen
    (fun v hv => hcand v (hin v hv).1)
  refine ⟨m', ids, hkept.bind (hheur.bind ((lockLinks_returns (by rintro ⟨⟩)).bind
    (hcount.bind hwrite))), hrew, hlen, ?_, fun hv => (hin neigh hv).2 rfl,
    fun v hv => (hin v hv).1⟩
  refine Multiset.coe_nodup.mp (Multiset.nodup_of_le ?_
    (Multiset.coe_nodup.mpr (hnodup.filter fun v => decide (v ≠ neigh))))
  rw [hcoe]
  exact hr.trans hsub

omit h in
/-- **One level** of the element. -/
theorem updateLayer_returns (h : Intact L levels N (fun _ => N) m) {internalId layer : ℕ}
    (hnode : IsNode levels N layer internalId) :
    ∃ m', Returns (updateLayer P L fstdistfunc C internalId m layer) m' ∧
      Intact L levels N (fun _ => N) m' ∧ Modifies (L.parts fun _ _ => True) m m' := by
  have hone := getConnectionsWithLock_returns hL h.toGraph hnode
  by_cases hnil : (links m (L.getLinklistAtLevel internalId layer)).length = 0
  · refine ⟨m, hone.bind ?_, h, Modifies.refl _ m⟩
    rw [if_pos hnil]
    exact returns_pure m
  · obtain ⟨hops, hgather, hinv⟩ := gatherHops_returns (C := C) hL h.toGraph hnode
    obtain ⟨m', hfold, hintact, hframe⟩ := foldlM_returns
      (f := relinkNeighbour P L fstdistfunc C layer hops.sCand) (l := C.order hops.sNeigh)
      (fun _ m' => Intact L levels N (fun _ => N) m' ∧ Modifies (L.parts fun _ _ => True) m m')
      (fun pre neigh post m' hsplit ⟨hintact, hframe⟩ => by
        have hneigh : IsNode levels N layer neigh :=
          hinv.sNeigh neigh ((C.order_perm _).mem_iff.mp (by rw [hsplit]; simp))
        obtain ⟨m'', ids, hret, hrew, hroom, hnodup, hirrefl, hids⟩ := relinkNeighbour_returns
          fstdistfunc hL hintact.toGraph (P := P) (C := C) hneigh
          (fun v hv => (hinv.sCand v hv).1) hinv.nodup
        exact ⟨m'', hret, hintact.rewrite hL hrew hroom (fun v hv => hinv.sCand v (hids v hv))
          hnodup hirrefl, hframe.trans (parts_mono hrew.frame fun _ _ _ => trivial)⟩)
      (s := m) ⟨h, Modifies.refl _ m⟩
    refine ⟨m', hone.bind ?_, hintact, hframe⟩
    rw [if_neg hnil]
    exact hgather.bind hfold

omit h in
/-- **All levels** of the element. -/
theorem updateLayers_returns (h : Intact L levels N (fun _ => N) m) {internalId : ℕ}
    (hid : internalId < N) :
    ∃ m', Returns ((List.range (levels internalId + 1)).foldlM
        (updateLayer P L fstdistfunc C internalId) m) m' ∧
      Intact L levels N (fun _ => N) m' ∧ Modifies (L.parts fun _ _ => True) m m' :=
  range_returns
    (fun _ m' => Intact L levels N (fun _ => N) m' ∧ Modifies (L.parts fun _ _ => True) m m')
    (fun layer hlayer m₁ ⟨hintact, hframe⟩ => by
      obtain ⟨m₂, hret, hintact₂, hframe₂⟩ := updateLayer_returns fstdistfunc hL hintact (P := P)
        (C := C) (show IsNode levels N layer internalId from ⟨hid, by omega⟩)
      exact ⟨m₂, hret, hintact₂, hframe.trans hframe₂⟩)
    ⟨h, Modifies.refl _ m⟩

end Neighbours

end Mqo.Index
