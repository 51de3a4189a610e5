import Mqo.Index.Build
import Mqo.Search.HnswBeam

/-!
# MQO — an index with a base layer only

`addPoint_modified` of `mqo/ann/build_ann_base_only.hpp` and what it calls:
`searchBaseLayerST_logging` and `mutuallyConnectNewElement_logging` of
`mqo/ann/hnswlib/hnswalg.h`, which is otherwise the same file as that of the other
modules. The map `dist_map` that is passed along is neither read nor written.

The search stops at the first candidate beyond the bound, that of `addPoint` only when
its heap is full as well. While the heap is not full it holds all that has been offered,
and the bound is the farthest of it; so there is no candidate beyond the bound.

* `Pending.consider`              — one link keeps the candidates within the bound;
* `searchBaseLayerSTLogging_same` — the search finds what `searchBaseLayer` finds;
* `Linked.next`, `BaseBuilt.next` — what an insertion makes of the lists and of the index;
* `BaseBuilt.insert`              — one insertion, by either function.
-/

namespace Mqo.Index

open Prog Memory ByteStream
open Mqo.Search.Hnsw (ExactNeg VisitedList VisitedListPool)

-- ---------------------------------------------------------------------------
-- The functions
-- ---------------------------------------------------------------------------

section Functions

variable {K : Type} [Preorder K] [DecidableLT K] [Neg K]
  (P : Platform K) (L : Layout) (fstdistfunc : List UInt8 → List UInt8 → K)

/-- One link of the element being expanded. -/
def considerLinkLogging (m : Memory Region) (data_point : List UInt8) (ef : ℕ) (s : LayerState P L)
    (candidate_id : ℕ) : Run (LayerState P L) := do
  let seen ← s.visited.isVisited candidate_id
  if seen then pure s
  else do
    let visited ← s.visited.visit candidate_id
    let dist ← distTo L fstdistfunc m data_point candidate_id
    if P.byFirst.size s.top_candidates < ef ∨ dist < s.lowerBound then
      let top_candidates := P.byFirst.shrink ef (P.byFirst.push s.top_candidates (dist, candidate_id))
      pure
        { visited := visited
          candidateSet := P.byFirst.push s.candidateSet (-dist, candidate_id)
          top_candidates := top_candidates
          lowerBound := match P.byFirst.top top_candidates with
            | some top => top.1
            | none => s.lowerBound }
    else pure { s with visited := visited }

/-- One iteration of the main loop. -/
def loggingStep (m : Memory Region) (data_point : List UInt8) (ef : ℕ) (s : LayerState P L) :
    Run (LayerState P L ⊕ LayerState P L) :=
  match P.byFirst.top s.candidateSet with
  | none => pure (.inr s)
  | some current_node_pair =>
    let candidate_dist := -current_node_pair.1
    if s.lowerBound < candidate_dist then pure (.inr s)
    else do
      let data ← getLinks m (L.getLinklist0 current_node_pair.2)
      let s' ← data.foldlM (considerLinkLogging P L fstdistfunc m data_point ef)
        { s with candidateSet := P.byFirst.pop s.candidateSet }
      pure (.inl s')

/-- `searchBaseLayerST_logging` -/
def searchBaseLayerSTLogging (m : Memory Region) (pool : VisitedListPool L.max_elements)
    (ep_id : ℕ) (data_point : List UInt8) (ef : ℕ) :
    Run (P.byFirst.Heap × VisitedListPool L.max_elements) := do
  let vl := pool.getFreeVisitedList P.newList
  let dist ← distTo L fstdistfunc m data_point ep_id
  let visited ← vl.1.visit ep_id
  let r ← loop (loggingStep P L fstdistfunc m data_point ef)
    ⟨visited, P.byFirst.push P.byFirst.empty (dist, ep_id),
      P.byFirst.push P.byFirst.empty (-dist, ep_id), dist⟩
  pure (r.top_candidates, vl.2.releaseVisitedList r.visited)

/-- `mutuallyConnectNewElement_logging`: the body of `mutuallyConnectNewElement`. Its caller
holds no lock. -/
def mutuallyConnectNewElementLogging (element_levels : ℕ → ℕ) (m : Memory Region) (cur_c : ℕ)
    (top_candidates : P.byFirst.Heap) (level : ℕ) (isUpdate : Bool) : Run (ℕ × Memory Region) :=
  mutuallyConnectNewElement P L fstdistfunc element_levels none m cur_c top_candidates level isUpdate

variable {L}

/-- `addPoint_modified`; `enterpoint_node_` is unsigned, and negative as an `int` from `2^31`
on. -/
def addPointModified (s : HierarchicalNSW L) (data_point : List UInt8) (label : ℕ) :
    Run (ℕ × HierarchicalNSW L) := do
  let cur_c := s.cur_element_count
  let m ← storeRecord L s.memory cur_c label data_point
  let stored := { s with
    cur_element_count := s.cur_element_count + 1
    label_lookup := Function.update s.label_lookup label (some cur_c)
    element_levels := Function.update s.element_levels cur_c 0
    memory := m }
  if 2 ^ 31 ≤ s.enterpoint_node then
    pure (cur_c, { stored with enterpoint_node := cur_c, maxlevel := 0 })
  else do
    let ef_base := max L.M L.ef_construction
    let currObj := s.enterpoint_node
    let r ← searchBaseLayerSTLogging P L fstdistfunc m s.visited_list_pool currObj data_point ef_base
    let c ← mutuallyConnectNewElementLogging P L fstdistfunc stored.element_levels m cur_c r.1 0 false
    pure (cur_c, { stored with memory := c.2, visited_list_pool := r.2 })

variable (L)

/-- The first `n` points are inserted into a fresh index with `addPoint_modified`, each under its
label. -/
def insertModified (row : ℕ → List UInt8) (label : ℕ → ℕ) (draws : ℕ → LevelDraw) (n : ℕ) :
    Run (HierarchicalNSW L) :=
  (List.range n).foldlM (fun s i => do
    let r ← addPointModified P fstdistfunc s (row i) (label i)
    pure r.2) (HierarchicalNSW.new P L draws)

/-- `build_ann_base_only`: row `i` under label `i`. -/
def buildAnnBaseOnly (row : ℕ → List UInt8) (num_elements : ℕ) (draws : ℕ → LevelDraw) :
    Run (HierarchicalNSW L) :=
  insertModified P L fstdistfunc row id draws num_elements

/-- The first `n` points are inserted with `addPoint`. -/
def insertPoints (updatePoint : HierarchicalNSW L → List UInt8 → ℕ → Run (HierarchicalNSW L))
    (row : ℕ → List UInt8) (label : ℕ → ℕ) (draws : ℕ → LevelDraw) (n : ℕ) :
    Run (HierarchicalNSW L) :=
  (List.range n).foldlM (fun s i => addPoint P fstdistfunc updatePoint s (row i) (label i))
    (HierarchicalNSW.new P L draws)

end Functions

-- ---------------------------------------------------------------------------
-- Locks
-- ---------------------------------------------------------------------------

section Unlocked

variable {K : Type} [Preorder K] [DecidableLT K] [Neg K]
  {P : Platform K} {L : Layout} {fstdistfunc : List UInt8 → List UInt8 → K}

/-- What returns although a lock is held returns without it. -/
theorem connectBack_unlocked {element_levels : ℕ → ℕ} {held : Option ℕ} {cur_c level other : ℕ}
    {isUpdate : Bool} {m m' : Memory Region}
    (h : Returns (connectBack P L fstdistfunc element_levels held cur_c level isUpdate m other) m') :
    Returns (connectBack P L fstdistfunc element_levels none cur_c level isUpdate m other) m' := by
  obtain ⟨_, -, hrest⟩ := h.of_bind
  exact (lockLinks_returns (by rintro ⟨⟩)).bind hrest

theorem mutuallyConnectNewElement_unlocked {element_levels : ℕ → ℕ} {held : Option ℕ}
    {m : Memory Region} {cur_c level : ℕ} {top_candidates : P.byFirst.Heap} {r : ℕ × Memory Region}
    (h : Returns (mutuallyConnectNewElement P L fstdistfunc element_levels held m cur_c top_candidates
      level false) r) :
    Returns (mutuallyConnectNewElementLogging P L fstdistfunc element_levels m cur_c top_candidates
      level false) r := by
  obtain ⟨chosen, hchosen, hrest⟩ := h.of_bind
  refine hchosen.bind ?_
  split at hrest
  · next hmany =>
    rw [if_pos hmany]
    exact hrest
  · next hfew =>
    rw [if_neg hfew]
    dsimp only at hrest ⊢
    split at hrest
    · exact absurd (fails_fault _) hrest.not_fails
    · rw [if_neg Bool.false_ne_true] at hrest ⊢
      obtain ⟨m₁, hnew, hrest⟩ := hrest.of_bind
      obtain ⟨m₂, hback, hrest⟩ := hrest.of_bind
      obtain ⟨m₂', hback', rfl⟩ := foldlM_sim (fun m m' => m = m')
        (fun m m' other _ m'' heq hret => ⟨m'', heq ▸ connectBack_unlocked hret, rfl⟩) rfl hback
      exact hnew.bind (hback'.bind hrest)

end Unlocked

-- ---------------------------------------------------------------------------
-- The search
-- ---------------------------------------------------------------------------

section Search

variable {K : Type} [LinearOrder K] [Neg K] {P : Platform K} {L : Layout}
  {fstdistfunc : List UInt8 → List UInt8 → K} {m : Memory Region} {data_point : List UInt8}

/-- The bound is the distance of a result, and while the heap is not full no candidate is beyond
it. -/
structure Pending (P : Platform K) (L : Layout) (s : LayerState P L) : Prop where
  bound  : ∃ e ∈ P.byFirst.elems s.top_candidates, s.lowerBound = e.1
  within : P.byFirst.size s.top_candidates < L.ef_construction →
    ∀ e ∈ P.byFirst.elems s.candidateSet, -e.1 ≤ s.lowerBound

/-- The entry point is the only candidate, and the only result. -/
theorem Pending.entry (hneg : ExactNeg K) (m : Memory Region) (data_point : List UInt8)
    (vl : VisitedList L.max_elements) (ep_id : ℕ) :
    Pending P L (layerEntry fstdistfunc P L m data_point vl ep_id) where
  bound := ⟨(storedDist fstdistfunc L m data_point ep_id, ep_id), by simp [layerEntry], rfl⟩
  within _ e he := by
    simp only [layerEntry, PriorityQueue.elems_push, PriorityQueue.elems_empty] at he ⊢
    rw [Multiset.mem_singleton.mp he, hneg.neg_neg]

/-- An offer to a heap that is not full afterwards drops nothing. -/
theorem Pending.offer (hQ : P.byFirst.Ordered fun a b => a.1 < b.1) (hneg : ExactNeg K)
    (hef : 0 < L.ef_construction) {IsElement : ℕ → Prop} {s : LayerState P L}
    (hs : LayerInv P L IsElement s) (h : Pending P L s) (dist1 : K) (id : ℕ) :
    Pending P L (offered s dist1 id) := by
  have hdrop := hs.drop_push (dist1, id)
  unfold offered
  rw [hdrop]
  have hsize := P.byFirst.size_shrink L.ef_construction
    (P.byFirst.push s.top_candidates (dist1, id))
  rw [P.byFirst.size_push] at hsize
  obtain ⟨t, ht⟩ := P.byFirst.exists_top_of_size (h := P.byFirst.shrink L.ef_construction
    (P.byFirst.push s.top_candidates (dist1, id))) (by omega)
  dsimp only
  rw [ht]
  refine ⟨⟨t, P.byFirst.top_mem ht, rfl⟩, fun hroom e he => ?_⟩
  dsimp only at hroom ⊢
  -- all that has been offered is in the heap, whose farthest element is the new bound
  rw [P.byFirst.shrink_of_le (by rw [P.byFirst.size_push]; omega)] at ht
  have hfar : ∀ b ∈ (dist1, id) ::ₘ P.byFirst.elems s.top_candidates, b.1 ≤ t.1 := fun b hb =>
    not_lt.mp (hQ _ t ht b (by rwa [P.byFirst.elems_push]))
  rcases Multiset.mem_cons.mp (P.byFirst.elems_push _ _ ▸ he) with rfl | he
  · rw [hneg.neg_neg]
    exact hfar (dist1, id) (Multiset.mem_cons_self _ _)
  · obtain ⟨b, hb, hbound⟩ := h.bound
    calc -e.1 ≤ s.lowerBound := h.within (by omega) e he
      _ = b.1 := hbound
      _ ≤ t.1 := hfar b (Multiset.mem_cons_of_mem hb)

/-- **One link.** -/
theorem Pending.consider (hQ : P.byFirst.Ordered fun a b => a.1 < b.1) (hneg : ExactNeg K)
    (hef : 0 < L.ef_construction) {IsElement : ℕ → Prop} {s : LayerState P L}
    (hs : LayerInv P L IsElement s) (h : Pending P L s) (id : ℕ) :
    Pending P L (considered fstdistfunc m data_point s id) := by
  unfold considered
  split
  · exact h
  · split
    · exact h.offer hQ hneg hef hs _ id
    · next hreject => exact ⟨h.bound, fun hroom => absurd (Or.inl hroom) hreject⟩

variable {levels : ℕ → ℕ} {N : ℕ} {lim : ℕ → ℕ} (hL : L.WellFormed) (h : Graph L levels N lim m)

include hL h

theorem considerLinkLogging_returns {candidate_id : ℕ} (hnode : IsNode levels (lim 0) 0 candidate_id)
    {IsElement : ℕ → Prop} {s : LayerState P L} (hs : LayerInv P L IsElement s) :
    Returns (considerLinkLogging P L fstdistfunc m data_point L.ef_construction s candidate_id)
      (considered fstdistfunc m data_point s candidate_id) := by
  have hid : candidate_id < N := hnode.1.trans_le (h.bound 0)
  have hcap : candidate_id < L.max_elements := hid.trans_le h.capacity
  refine (VisitedList.isVisited_returns hcap).bind ?_
  unfold considered offered
  rw [hs.drop_push]
  split
  · exact returns_pure s
  · refine (VisitedList.visit_returns hcap).bind
      ((h.distTo_returns hL fstdistfunc data_point hid).bind ?_)
    unfold storedDist
    split
    · exact returns_pure _
    · exact returns_pure _

/-- An expansion, with what both searches know after it. -/
theorem Pending.expand (hQ : P.byFirst.Ordered fun a b => a.1 < b.1) (hneg : ExactNeg K)
    {s : LayerState P L} (hs : LayerInv P L (IsNode levels (lim 0) 0) s) (hp : Pending P L s)
    {e : K × ℕ} (htop : P.byFirst.top s.candidateSet = some e) :
    Returns ((links m (L.getLinklist0 e.2)).foldlM
        (considerLinkLogging P L fstdistfunc m data_point L.ef_construction)
        { s with candidateSet := P.byFirst.pop s.candidateSet })
        (expanded fstdistfunc m data_point 0 s e) ∧
      Pending P L (expanded fstdistfunc m data_point 0 s e) := by
  have hnode := hs.candidate e (P.byFirst.top_mem htop)
  have hef := hL.M_pos.trans_le hL.ef
  obtain ⟨s', hfold, rfl, -, hp'⟩ := foldlM_returns
    (f := considerLinkLogging P L fstdistfunc m data_point L.ef_construction)
    (fun pre s' => s' = pre.foldl (considered fstdistfunc m data_point)
        { s with candidateSet := P.byFirst.pop s.candidateSet } ∧
      LayerInv P L (IsNode levels (lim 0) 0) s' ∧ Pending P L s')
    (l := links m (L.getLinklist0 e.2))
    (fun pre id post s' hsplit ⟨heq, hs', hp'⟩ => by
      have hlink := h.target e.2 (hnode.1.trans_le (h.bound 0)) 0 hnode.2 id (by
        show id ∈ links m (L.getLinklist0 e.2)
        rw [hsplit]
        simp)
      refine ⟨_, considerLinkLogging_returns hL h hlink hs', ?_,
        (hs'.consider fstdistfunc hef m data_point hlink hlink.1).1, hp'.consider hQ hneg hef hs' id⟩
      rw [List.foldl_append, ← heq, List.foldl_cons, List.foldl_nil])
    (s := { s with candidateSet := P.byFirst.pop s.candidateSet })
    ⟨rfl, ⟨fun e' he' => hs.candidate e' (P.byFirst.mem_of_mem_pop htop he'), hs.top, hs.nonempty,
      hs.size, hs.seen, hs.nodup⟩,
      ⟨hp.bound, fun hroom e' he' => hp.within hroom e' (P.byFirst.mem_of_mem_pop htop he')⟩⟩
  exact ⟨hfold, hp'⟩

/-- While the search of `addPoint` goes on, so does the other. -/
theorem loggingStep_next (hQ : P.byFirst.Ordered fun a b => a.1 < b.1) (hneg : ExactNeg K)
    {s : LayerState P L} (hs : LayerInv P L (IsNode levels (lim 0) 0) s) (hp : Pending P L s)
    {e : K × ℕ} (htop : P.byFirst.top s.candidateSet = some e)
    (hgo : ¬ (s.lowerBound < -e.1 ∧ P.byFirst.size s.top_candidates = L.ef_construction)) :
    Returns (loggingStep P L fstdistfunc m data_point L.ef_construction s)
      (.inl (expanded fstdistfunc m data_point 0 s e)) := by
  have hnode := hs.candidate e (P.byFirst.top_mem htop)
  have hbound : ¬ s.lowerBound < -e.1 := fun hlt => by
    have hfull : P.byFirst.size s.top_candidates ≠ L.ef_construction := fun heq => hgo ⟨hlt, heq⟩
    exact absurd (hp.within (lt_of_le_of_ne hs.size hfull) e (P.byFirst.top_mem htop)) (not_le.mpr hlt)
  unfold loggingStep
  rw [htop]
  dsimp only
  rw [if_neg hbound]
  exact (h.getLinks_returns hL (hnode.1.trans_le (h.bound 0)) hnode.2).bind
    ((hp.expand hL h hQ hneg hs htop).1.bind (returns_pure _))

omit hL h in
/-- When the search of `addPoint` ends, so does the other. -/
theorem loggingStep_stop {s : LayerState P L}
    (hstop : ∀ e, P.byFirst.top s.candidateSet = some e →
      s.lowerBound < -e.1 ∧ P.byFirst.size s.top_candidates = L.ef_construction) :
    Returns (loggingStep P L fstdistfunc m data_point L.ef_construction s) (.inr s) := by
  unfold loggingStep
  cases htop : P.byFirst.top s.candidateSet with
  | none => exact returns_pure _
  | some e =>
    dsimp only
    rw [if_pos (hstop e htop).1]
    exact returns_pure _

variable (fstdistfunc data_point) in
/-- **Both searches** of the base layer return the same. -/
theorem searchBaseLayerSTLogging_same (hQ : P.byFirst.Ordered fun a b => a.1 < b.1)
    (hneg : ExactNeg K) {held : Option ℕ} (hheld : ∀ id < lim 0, held ≠ some id)
    (pool : VisitedListPool L.max_elements) (ep_id : ℕ) (hep : IsNode levels (lim 0) 0 ep_id) :
    ∃ r, Returns (searchBaseLayer P L fstdistfunc m pool held ep_id data_point 0) r ∧
      Returns (searchBaseLayerSTLogging P L fstdistfunc m pool ep_id data_point L.ef_construction) r ∧
      0 < P.byFirst.size r.1 ∧ (∀ e ∈ P.byFirst.elems r.1, IsNode levels (lim 0) 0 e.2) ∧
      ((P.byFirst.elems r.1).map Prod.snd).Nodup := by
  have hid : ep_id < N := hep.1.trans_le (h.bound 0)
  have hef := hL.M_pos.trans_le hL.ef
  obtain ⟨r, hloop, hsearch, hr⟩ := searchBaseLayer_returns (P := P) fstdistfunc hL h data_point hheld
    pool hep
  refine ⟨_, hsearch, ?_, hr.nonempty, hr.top, hr.nodup⟩
  have hvisit : Returns ((pool.getFreeVisitedList P.newList).1.visit ep_id)
      ((pool.getFreeVisitedList P.newList).1.mark ep_id) :=
    VisitedList.visit_returns (hid.trans_le h.capacity)
  obtain ⟨r', hloop', rfl⟩ : ∃ r', Returns (Prog.loop
      (loggingStep P L fstdistfunc m data_point L.ef_construction) _) r' ∧ r = r' := loop_sim
    (fun s t => s = t ∧ LayerInv P L (IsNode levels (lim 0) 0) s ∧ Pending P L s) Eq
    (fun s t s' ⟨hst, hs, hp⟩ hstep => by
      by_cases hstop : ∀ e, P.byFirst.top s.candidateSet = some e →
          s.lowerBound < -e.1 ∧ P.byFirst.size s.top_candidates = L.ef_construction
      · cases hstep.unique (layerStep_stop fstdistfunc m held data_point 0 hstop)
      · obtain ⟨e, he⟩ := not_forall.mp hstop
        obtain ⟨htop, hgo⟩ := Classical.not_imp.mp he
        cases hstep.unique (layerStep_next fstdistfunc hL h data_point hheld hs htop hgo)
        exact ⟨_, hst ▸ loggingStep_next hL h hQ hneg hs hp htop hgo, rfl,
          (hs.expand fstdistfunc hL h data_point htop).1, (hp.expand hL h hQ hneg hs htop).2⟩)
    (fun s t r ⟨hst, hs, hp⟩ hstep => by
      by_cases hstop : ∀ e, P.byFirst.top s.candidateSet = some e →
          s.lowerBound < -e.1 ∧ P.byFirst.size s.top_candidates = L.ef_construction
      · cases hstep.unique (layerStep_stop fstdistfunc m held data_point 0 hstop)
        exact ⟨s, hst ▸ loggingStep_stop hstop, rfl⟩
      · obtain ⟨e, he⟩ := not_forall.mp hstop
        obtain ⟨htop, hgo⟩ := Classical.not_imp.mp he
        cases hstep.unique (layerStep_next fstdistfunc hL h data_point hheld hs htop hgo))
    ⟨rfl, LayerInv.entry fstdistfunc hef m data_point _ hep, Pending.entry hneg m data_point _ ep_id⟩
    hloop
  exact (h.distTo_returns hL fstdistfunc data_point hid).bind
    (hvisit.bind (hloop'.bind (returns_pure _)))

end Search

-- ---------------------------------------------------------------------------
-- The lists of the base layer
-- ---------------------------------------------------------------------------

/-- The lists of the base layer name nothing twice and not their own element, and none is empty
once there are two elements. -/
structure Linked (L : Layout) (n : ℕ) (m : Memory Region) : Prop where
  nodup    : ∀ id < n, (links m (L.getLinklist0 id)).Nodup
  irrefl   : ∀ id < n, id ∉ links m (L.getLinklist0 id)
  nonempty : 2 ≤ n → ∀ id < n, links m (L.getLinklist0 id) ≠ []

section Lists

variable {L : Layout} {m m' m'' : Memory Region} {n label : ℕ} {data_point : List UInt8}

/-- A new element has no links, and the lists of the others are as before. -/
theorem Created.links_base (hL : L.WellFormed) (h : Created L n 0 label data_point m m')
    (hgraph : Graph L (fun _ => 0) n (fun _ => n) m) :
    links m' (L.getLinklist0 n) = [] ∧
      ∀ id < n, links m' (L.getLinklist0 id) = links m (L.getLinklist0 id) := by
  refine ⟨links_eq (h.blank 0 (le_refl 0)).count fun j hj => absurd hj (Nat.not_lt_zero j),
    fun id hid => ?_⟩
  exact links_congr (hgraph.room id hid 0 (le_refl 0))
    (h.others id (by omega) _ (list_in_element hL id 0))

/-- The first element. -/
theorem Linked.first (hL : L.WellFormed) (h : Created L 0 0 label data_point m m')
    (hgraph : Graph L (fun _ => 0) 0 (fun _ => 0) m) : Linked L 1 m' := by
  have hnil := (h.links_base hL hgraph).1
  refine ⟨fun id hid => ?_, fun id hid => ?_, fun htwo => absurd htwo (by omega)⟩
  all_goals
    obtain rfl : id = 0 := by omega
    rw [hnil]
  · exact List.nodup_nil
  · exact List.not_mem_nil

/-- **A further element**, once it has been linked. -/
theorem Linked.next (hL : L.WellFormed) (h : Linked L n m) (hn : 0 < n)
    (hgraph : Graph L (fun _ => 0) n (fun _ => n) m) (hcreated : Created L n 0 label data_point m m')
    {selected : List ℕ} (hne : selected ≠ []) (hdistinct : selected.Nodup)
    (hsel : ∀ v ∈ selected, v < n)
    (hc : Connected L (fun _ => 0) (n + 1) 0 n selected selected m' m'') : Linked L (n + 1) m'' := by
  have hsame := (hcreated.links_base hL hgraph).2
  have hown : links m'' (L.getLinklist0 n) = selected := hc.own
  have hother : ∀ id < n, id ∉ selected →
      links m'' (L.getLinklist0 id) = links m (L.getLinklist0 id) := fun id hid hout =>
    (hc.other id (by omega) (le_refl 0) (by omega) hout).trans (hsame id hid)
  have hback : ∀ id ∈ selected,
      LinkedBack n (links m (L.getLinklist0 id)) (links m'' (L.getLinklist0 id)) :=
    fun id hid => by
      have hb : LinkedBack n (links m' (L.getLinklist0 id)) (links m'' (L.getLinklist0 id)) :=
        hc.back id hid
      rwa [hsame id (hsel id hid)] at hb
  have hnew : ∀ id < n, n ∉ links m (L.getLinklist0 id) := fun id hid hmem =>
    lt_irrefl n (hgraph.target id hid 0 (le_refl 0) n hmem).1
  refine ⟨fun id hid => ?_, fun id hid => ?_, fun htwo id hid => ?_⟩
  all_goals rcases Nat.lt_succ_iff_lt_or_eq.mp hid with hid | rfl
  · by_cases hin : id ∈ selected
    · refine Multiset.coe_nodup.mp (Multiset.nodup_of_le (hback id hin).among ?_)
      exact Multiset.nodup_cons.mpr ⟨hnew id hid, Multiset.coe_nodup.mpr (h.nodup id hid)⟩
    · rw [hother id hid hin]
      exact h.nodup id hid
  · rw [hown]
    exact hdistinct
  · by_cases hin : id ∈ selected
    · intro hmem
      rcases (hback id hin).mem hmem with heq | hold
      · omega
      · exact h.irrefl id hid hold
    · rw [hother id hid hin]
      exact h.irrefl id hid
  · rw [hown]
    exact fun hmem => lt_irrefl id (hsel id hmem)
  · by_cases hin : id ∈ selected
    · exact (hback id hin).nonempty
    · rw [hother id hid hin]
      refine h.nonempty ?_ id hid
      -- the only element of an index of one is the neighbour
      by_contra hone
      obtain ⟨v, hv⟩ := List.exists_mem_of_ne_nil selected hne
      have hvid : v = id := by
        have := hsel v hv
        omega
      exact hin (hvid ▸ hv)
  · rw [hown]
    exact hne

end Lists

-- ---------------------------------------------------------------------------
-- One insertion
-- ---------------------------------------------------------------------------

/-- The index holds `n` elements, all on the base layer only and linked with each other. -/
structure BaseBuilt (L : Layout) (label : ℕ → ℕ) (n : ℕ) (s : HierarchicalNSW L) : Prop where
  count  : s.cur_element_count = n
  levels : s.element_levels = fun _ => 0
  graph  : Graph L (fun _ => 0) n (fun _ => n) s.memory
  stored : ∀ i < n, word s.memory (L.labelSpan i) = label i
  lookup : ∀ x, (∀ i < n, label i ≠ x) → s.label_lookup x = none
  entry  : (n = 0 ∧ s.enterpoint_node = noElement ∧ s.maxlevel = -1) ∨
    (0 < n ∧ s.enterpoint_node = 0 ∧ s.maxlevel = 0)
  linked : Linked L n s.memory

section Insert

variable {K : Type} [LinearOrder K] [Neg K] {P : Platform K} {L : Layout}
  {fstdistfunc : List UInt8 → List UInt8 → K} {label : ℕ → ℕ} {n : ℕ} {s : HierarchicalNSW L}
  {data_point : List UInt8}

omit [LinearOrder K] [Neg K] in
theorem BaseBuilt.new (draws : ℕ → LevelDraw) :
    BaseBuilt L label 0 (HierarchicalNSW.new P L draws) where
  count := rfl
  levels := rfl
  graph :=
    have hbuilt : Built L (fun _ => []) 0 (HierarchicalNSW.new P L draws) := Built.new draws
    hbuilt.graph
  stored i hi := absurd hi (Nat.not_lt_zero i)
  lookup _ _ := rfl
  entry := Or.inl ⟨rfl, rfl, rfl⟩
  linked := ⟨fun id hid => absurd hid (Nat.not_lt_zero id),
    fun id hid => absurd hid (Nat.not_lt_zero id), fun h => absurd h (by omega)⟩

/-- The levels stay at zero. -/
theorem BaseBuilt.levels_update (hs : BaseBuilt L label n s) :
    Function.update s.element_levels s.cur_element_count 0 = fun _ => 0 := by
  rw [hs.levels]
  exact Function.update_eq_self s.cur_element_count _

/-- The state after an insertion, for the memory and the entry point it ends with. -/
theorem BaseBuilt.next (hL : L.WellFormed) (hs : BaseBuilt L label n s) {m m' : Memory Region}
    (hcreated : Created L n 0 (label n) data_point s.memory m)
    (hframe : Modifies (L.parts fun _ _ => True) m m') {lim : ℕ → ℕ}
    (hgraph : Graph L (fun _ => 0) (n + 1) lim m') (hlinked : Linked L (n + 1) m')
    (pool : VisitedListPool L.max_elements) {e : ℕ} (he : e = 0) {maxlevel : ℤ} (hmax : maxlevel = 0) :
    BaseBuilt L label (n + 1) { s with
      cur_element_count := s.cur_element_count + 1
      label_lookup := Function.update s.label_lookup (label n) (some s.cur_element_count)
      element_levels := Function.update s.element_levels s.cur_element_count 0
      memory := m'
      visited_list_pool := pool
      enterpoint_node := e
      maxlevel := maxlevel } where
  count := congrArg (· + 1) hs.count
  levels := hs.levels_update
  graph := hgraph.raise hgraph.bound fun _ => le_refl _
  stored i hi := by
    show word m' (L.labelSpan i) = label i
    rw [word_label hL hframe]
    rcases Nat.lt_succ_iff_lt_or_eq.mp hi with hi | rfl
    · rw [word, hcreated.others i (by omega) _ (Or.inl (label_within hL i))]
      exact hs.stored i hi
    · exact hcreated.label
  lookup x hx := by
    show Function.update s.label_lookup (label n) _ x = none
    rw [Function.update_of_ne (hx n (Nat.lt_succ_self n)).symm]
    exact hs.lookup x fun i hi => hx i (by omega)
  entry := Or.inr ⟨Nat.succ_pos n, he, hmax⟩
  linked := hlinked

variable (fstdistfunc data_point) in
/-- The first element becomes the entry point. -/
theorem linkElement_first (hep : s.enterpoint_node = noElement) (hmax : s.maxlevel = -1)
    (m : Memory Region) (x : ℕ) :
    Returns (linkElement P fstdistfunc s m x 0 data_point) { s.reserve x 0 with
      memory := m, enterpoint_node := s.cur_element_count, maxlevel := 0 } := by
  unfold linkElement
  dsimp only
  rw [if_neg (not_not.mpr hep), hmax]
  refine (returns_pure _).bind ?_
  rw [if_pos (by decide)]
  exact returns_pure _

/-- A later element is searched for and connected on the base layer. -/
theorem linkElement_base (hep : s.enterpoint_node ≠ noElement) (hmax : s.maxlevel = 0)
    {m m' : Memory Region} {x ep : ℕ} {r : P.byFirst.Heap × VisitedListPool L.max_elements}
    (hmark : Returns (L.isMarkedDeleted m s.enterpoint_node) false)
    (hsearch : Returns (searchBaseLayer P L fstdistfunc m s.visited_list_pool
      (some s.cur_element_count) s.enterpoint_node data_point 0) r)
    (hconnect : Returns (mutuallyConnectNewElement P L fstdistfunc (s.reserve x 0).element_levels
      (some s.cur_element_count) m s.cur_element_count r.1 0 false) (ep, m')) :
    Returns (linkElement P fstdistfunc s m x 0 data_point) { s.reserve x 0 with
      memory := m', visited_list_pool := r.2 } := by
  have hstart : Returns (startObject L fstdistfunc m (some s.cur_element_count) data_point
      s.enterpoint_node 0 0) s.enterpoint_node := by
    rw [startObject, if_neg (by decide)]
    exact returns_pure _
  have hlevel : Returns (connectLevel P L fstdistfunc (s.reserve x 0).element_levels
      s.cur_element_count data_point s.enterpoint_node 0 false 0
      ⟨s.enterpoint_node, m, s.visited_list_pool⟩) ⟨ep, m', r.2⟩ := by
    rw [connectLevel, if_neg (by decide)]
    exact hsearch.bind (hconnect.bind (returns_pure _))
  have hbelow : Returns (connectBelow P L fstdistfunc (s.reserve x 0).element_levels
      s.cur_element_count data_point s.enterpoint_node 0 false (min ((0 : ℕ) : ℤ) 0 + 1).toNat
      ⟨s.enterpoint_node, m, s.visited_list_pool⟩) ⟨ep, m', r.2⟩ := hlevel.bind (returns_pure _)
  unfold linkElement
  dsimp only
  rw [if_pos hep, hmax]
  refine hstart.bind (hmark.bind (hbelow.bind ((returns_pure _).bind ?_)))
  rw [if_neg (by decide)]
  exact returns_pure _

variable (fstdistfunc) in
/-- **One insertion**, by either function; for that of `addPoint` the level is drawn as zero. -/
theorem BaseBuilt.insert (hQ : P.byFirst.Ordered fun a b => a.1 < b.1) (hneg : ExactNeg K)
    (hL : L.WellFormed) (hs : BaseBuilt L label n s) (hn : n < L.max_elements)
    (hlabel : label n < 2 ^ 64) (hdata : data_point.length = L.data_size) :
    ∃ s', Returns (addPointModified P fstdistfunc s data_point (label n)) (n, s') ∧
      BaseBuilt L label (n + 1) s' ∧
      ∀ updatePoint draws, s.label_lookup (label n) = none → (draws 0).level = 0 →
        Returns (addPoint P fstdistfunc updatePoint { s with level_generator := draws } data_point
          (label n)) { s' with level_generator := fun k => draws (k + 1) } := by
  obtain rfl := hs.count
  obtain ⟨m, hstore, hcreated⟩ := createElement_returns (m := s.memory) hL hn hs.graph.level0 hlabel
    hdata 0
  have hcreated : Created L s.cur_element_count 0 (label s.cur_element_count) data_point s.memory m :=
    hcreated
  have hgraph : Graph L (fun _ => 0) (s.cur_element_count + 1) (fun _ => s.cur_element_count) m := by
    have hg := hcreated.graph hL hn hs.graph
    rwa [Function.update_eq_self s.cur_element_count (fun _ => 0)] at hg
  unfold addPointModified
  dsimp only
  rcases hs.entry with ⟨hzero, hep, hmax⟩ | ⟨hpos, hep, hmax⟩
  · -- the first element
    have hlinked : Linked L (s.cur_element_count + 1) m := by
      rw [hzero] at hcreated ⊢
      exact Linked.first hL hcreated (hzero ▸ hs.graph)
    refine ⟨_, hstore.bind ?_, hs.next hL hcreated (Modifies.refl _ m) hgraph hlinked
      s.visited_list_pool hzero rfl, fun updatePoint draws hfresh hdraw => ?_⟩
    · rw [if_pos (hep ▸ by decide)]
      exact returns_pure _
    · let drawn : HierarchicalNSW L := { s with level_generator := draws }
      have hlink := linkElement_first (P := P) (s := drawn) fstdistfunc data_point hep hmax m
        (label s.cur_element_count)
      exact addPoint_fresh (s := drawn) updatePoint hfresh hn hdraw hstore hlink
  · have hheld : ∀ id < s.cur_element_count, some s.cur_element_count ≠ some id := by
      intro id hid heq
      injection heq with heq
      omega
    obtain ⟨r, hsearch, hlogging, hfound, hnode, hnodup⟩ := searchBaseLayerSTLogging_same (P := P)
      fstdistfunc data_point hL hgraph hQ hneg hheld s.visited_list_pool s.enterpoint_node
      ⟨hep ▸ hpos, le_refl 0⟩
    obtain ⟨ep, m', selected, hconnect, -, hgraph', hframe, hne, hdistinct, hsel, hc⟩ :=
      mutuallyConnectNewElement_returns fstdistfunc hL hgraph (Nat.lt_succ_self _) (le_refl 0) rfl
        (hcreated.blank 0 (le_refl 0)) hfound hnode hnodup
    have hlinked := hs.linked.next hL hpos hs.graph hcreated hne hdistinct hsel hc
    refine ⟨_, hstore.bind ?_, hs.next hL hcreated (parts_mono hframe fun _ _ _ => trivial) hgraph'
      hlinked r.2 hep hmax, fun updatePoint draws hfresh hdraw => ?_⟩
    · rw [if_neg (by omega), hs.levels_update, max_eq_right hL.ef]
      exact hlogging.bind ((mutuallyConnectNewElement_unlocked hconnect).bind (returns_pure _))
    · let drawn : HierarchicalNSW L := { s with level_generator := draws }
      have hmark := hgraph.isMarkedDeleted_returns hL
        (show s.enterpoint_node < s.cur_element_count + 1 by omega)
      have hlevels : (drawn.reserve (label s.cur_element_count) 0).element_levels = fun _ => 0 :=
        hs.levels_update
      have hlink := linkElement_base (s := drawn) (x := label s.cur_element_count)
        (show s.enterpoint_node ≠ noElement from hep ▸ by decide) hmax hmark hsearch
        (hlevels ▸ hconnect)
      exact addPoint_fresh (s := drawn) updatePoint hfresh hn hdraw hstore hlink

end Insert

end Mqo.Index
