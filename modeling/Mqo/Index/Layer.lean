import Mqo.Index.Graph

/-!
# MQO — searching a layer while an element is inserted

`searchBaseLayer` and the greedy descent only follow links, so from an element of
a layer they stay among the elements that the layer links: those below `lim layer`
that reach it. The element being inserted is not one of them, and its mutex,
which the insertion holds, is never asked for. Neither order nor ties of the
heaps matter for this, nor does what a comparison with a NaN answers; the descent
ends because `<` is a strict order.

* `searchBaseLayer_returns` — the search ends with at least one element, all of the
  layer and none twice;
* `startObject_returns`     — the descent ends at an element of the layer below.
-/

namespace Mqo.Index

open Prog Memory Flags
open Mqo.Search.Hnsw (VisitedList VisitedListPool card_unvisited)

section Layer

variable {K : Type} [Preorder K] [DecidableLT K] [Neg K]
  {P : Platform K} {L : Layout} (fstdistfunc : List UInt8 → List UInt8 → K)
  {levels : ℕ → ℕ} {N : ℕ} {lim : ℕ → ℕ} {m : Memory Region}

theorem lockLinks_returns {held : Option ℕ} {id : ℕ} (h : held ≠ some id) :
    Returns (lockLinks held id) () := by
  rw [lockLinks, if_neg h]
  exact returns_pure ()

/-- Everything found so far is an element of the layer; there is a result, no element is one
twice, and each has been visited. -/
structure LayerInv (P : Platform K) (L : Layout) (IsElement : ℕ → Prop) (s : LayerState P L) :
    Prop where
  candidate : ∀ e ∈ P.byFirst.elems s.candidateSet, IsElement e.2
  top       : ∀ e ∈ P.byFirst.elems s.top_candidates, IsElement e.2
  nonempty  : 0 < P.byFirst.size s.top_candidates
  size      : P.byFirst.size s.top_candidates ≤ L.ef_construction
  seen      : ∀ e ∈ P.byFirst.elems s.top_candidates, s.visited.marked e.2 = true
  nodup     : ((P.byFirst.elems s.top_candidates).map Prod.snd).Nodup

/-- Elements below `n` not visited yet, and candidates that wait. -/
def layerMeasure (n : ℕ) (s : LayerState P L) : ℕ :=
  (unset n s.visited.marked).card + P.byFirst.size s.candidateSet

/-- The distance of the new element to one that is stored. -/
def storedDist (L : Layout) (m : Memory Region) (data_point : List UInt8) (id : ℕ) : K :=
  fstdistfunc data_point (bytes m (L.dataSpan id))

/-- The state after an element has been visited and offered. -/
def offered (s : LayerState P L) (dist1 : K) (candidate_id : ℕ) : LayerState P L :=
  let top_candidates :=
    P.byFirst.dropOver L.ef_construction (P.byFirst.push s.top_candidates (dist1, candidate_id))
  { visited := s.visited.mark candidate_id
    candidateSet := P.byFirst.push s.candidateSet (-dist1, candidate_id)
    top_candidates := top_candidates
    lowerBound := match P.byFirst.top top_candidates with
      | some top => top.1
      | none => s.lowerBound }

/-- The state after one link. -/
def considered (m : Memory Region) (data_point : List UInt8) (s : LayerState P L)
    (candidate_id : ℕ) : LayerState P L :=
  if s.visited.marked candidate_id then s
  else if P.byFirst.size s.top_candidates < L.ef_construction ∨
      storedDist fstdistfunc L m data_point candidate_id < s.lowerBound then
    offered s (storedDist fstdistfunc L m data_point candidate_id) candidate_id
  else { s with visited := s.visited.mark candidate_id }

/-- The state after the element behind a candidate has been expanded. -/
def expanded (m : Memory Region) (data_point : List UInt8) (layer : ℕ) (s : LayerState P L)
    (e : K × ℕ) : LayerState P L :=
  (links m (L.getLinklistAtLevel e.2 layer)).foldl (considered fstdistfunc m data_point)
    { s with candidateSet := P.byFirst.pop s.candidateSet }

/-- The state in which the loop starts. -/
def layerEntry (P : Platform K) (L : Layout) (m : Memory Region) (data_point : List UInt8)
    (vl : VisitedList L.max_elements) (ep_id : ℕ) : LayerState P L where
  visited := vl.mark ep_id
  top_candidates := P.byFirst.push P.byFirst.empty (storedDist fstdistfunc L m data_point ep_id, ep_id)
  candidateSet := P.byFirst.push P.byFirst.empty (-storedDist fstdistfunc L m data_point ep_id, ep_id)
  lowerBound := storedDist fstdistfunc L m data_point ep_id

omit [Preorder K] [DecidableLT K] [Neg K] in
/-- What is dropped after a push was the top of one element too many. -/
theorem LayerInv.drop_push {IsElement : ℕ → Prop} {s : LayerState P L}
    (hs : LayerInv P L IsElement s) (e : K × ℕ) :
    P.byFirst.dropOver L.ef_construction (P.byFirst.push s.top_candidates e) =
      P.byFirst.shrink L.ef_construction (P.byFirst.push s.top_candidates e) :=
  P.byFirst.dropOver_eq_shrink (by have := hs.size; rw [P.byFirst.size_push]; omega)

omit [Preorder K] [DecidableLT K] in
theorem LayerInv.offer {IsElement : ℕ → Prop} {s : LayerState P L} (hs : LayerInv P L IsElement s)
    (hef : 0 < L.ef_construction) (dist1 : K) {id : ℕ} (hid : IsElement id)
    (hnew : s.visited.marked id = false) : LayerInv P L IsElement (offered s dist1 id) where
  candidate e he := by
    rcases Multiset.mem_cons.mp (P.byFirst.elems_push _ _ ▸ he) with rfl | he
    · exact hid
    · exact hs.candidate e he
  top e he := by
    have he := P.byFirst.mem_of_mem_dropOver he
    rcases Multiset.mem_cons.mp (P.byFirst.elems_push _ _ ▸ he) with rfl | he
    · exact hid
    · exact hs.top e he
  nonempty := P.byFirst.size_dropOver_pos hef (by rw [P.byFirst.size_push]; omega)
  size := by
    show P.byFirst.size (P.byFirst.dropOver _ _) ≤ _
    rw [hs.drop_push, P.byFirst.size_shrink]
    exact min_le_left _ _
  seen e he := by
    have he := P.byFirst.mem_of_mem_dropOver he
    rcases Multiset.mem_cons.mp (P.byFirst.elems_push _ _ ▸ he) with rfl | he
    · exact (s.visited.marked_mark _ _).mpr (Or.inl rfl)
    · exact (s.visited.marked_mark _ _).mpr (Or.inr (hs.seen e he))
  nodup := by
    show ((P.byFirst.elems (P.byFirst.dropOver _ _)).map Prod.snd).Nodup
    rw [hs.drop_push]
    refine Multiset.nodup_of_le (Multiset.map_le_map (P.byFirst.elems_shrink_le _ _)) ?_
    rw [P.byFirst.elems_push, Multiset.map_cons]
    refine Multiset.nodup_cons.mpr ⟨fun hmem => ?_, hs.nodup⟩
    obtain ⟨e, he, rfl⟩ := Multiset.mem_map.mp hmem
    rw [hs.seen e he] at hnew
    cases hnew

/-- **One link** to an element of the layer. -/
theorem LayerInv.consider {IsElement : ℕ → Prop} {s : LayerState P L}
    (hs : LayerInv P L IsElement s) (hef : 0 < L.ef_construction) (m : Memory Region)
    (data_point : List UInt8) {id n : ℕ} (hid : IsElement id) (hlt : id < n) :
    LayerInv P L IsElement (considered fstdistfunc m data_point s id) ∧
      layerMeasure n (considered fstdistfunc m data_point s id) ≤ layerMeasure n s := by
  unfold considered
  cases hnew : s.visited.marked id with
  | true => exact ⟨hs, le_refl _⟩
  | false =>
    have hcard := card_unvisited hlt hnew
    rw [if_neg Bool.false_ne_true]
    split
    · have hsize := P.byFirst.size_push s.candidateSet (-storedDist fstdistfunc L m data_point id, id)
      refine ⟨hs.offer hef _ hid hnew, ?_⟩
      unfold layerMeasure offered
      dsimp only
      omega
    · refine ⟨⟨hs.candidate, hs.top, hs.nonempty, hs.size, fun e he =>
        (s.visited.marked_mark id e.2).mpr (Or.inr (hs.seen e he)), hs.nodup⟩, ?_⟩
      unfold layerMeasure
      dsimp only
      omega

omit [Preorder K] [DecidableLT K] in
theorem LayerInv.entry {IsElement : ℕ → Prop} (hef : 0 < L.ef_construction) (m : Memory Region)
    (data_point : List UInt8) (vl : VisitedList L.max_elements) {ep_id : ℕ} (hep : IsElement ep_id) :
    LayerInv P L IsElement (layerEntry fstdistfunc P L m data_point vl ep_id) where
  candidate e he := by simp [layerEntry] at he; rw [he]; exact hep
  top e he := by simp [layerEntry] at he; rw [he]; exact hep
  nonempty := by simp [layerEntry]
  size := by simp [layerEntry]; omega
  seen e he := by
    simp only [layerEntry, PriorityQueue.elems_push, PriorityQueue.elems_empty] at he ⊢
    rw [Multiset.mem_singleton.mp he]
    exact (vl.marked_mark ep_id ep_id).mpr (Or.inl rfl)
  nodup := by simp [layerEntry]

/-- The loop is left when no candidate waits, or the next one is beyond a full heap. -/
theorem layerStep_stop (m : Memory Region) (held : Option ℕ) (data_point : List UInt8) (layer : ℕ)
    {s : LayerState P L}
    (hstop : ∀ e, P.byFirst.top s.candidateSet = some e →
      s.lowerBound < -e.1 ∧ P.byFirst.size s.top_candidates = L.ef_construction) :
    Returns (layerStep P L fstdistfunc m held data_point layer s) (.inr s) := by
  unfold layerStep
  cases htop : P.byFirst.top s.candidateSet with
  | none => exact returns_pure _
  | some e =>
    dsimp only
    rw [if_pos (hstop e htop)]
    exact returns_pure _

variable (hL : L.WellFormed) (h : Graph L levels N lim m) (data_point : List UInt8)

include hL h

theorem considerLink_returns {layer candidate_id : ℕ}
    (hnode : IsNode levels (lim layer) layer candidate_id) (s : LayerState P L) :
    Returns (considerLink P L fstdistfunc m data_point s candidate_id)
      (considered fstdistfunc m data_point s candidate_id) := by
  have hid : candidate_id < N := hnode.1.trans_le (h.bound layer)
  have hcap : candidate_id < L.max_elements := hid.trans_le h.capacity
  refine (VisitedList.isVisited_returns hcap).bind ?_
  unfold considered
  split
  · exact returns_pure s
  · refine (VisitedList.visit_returns hcap).bind
      ((h.distTo_returns hL fstdistfunc data_point hid).bind ?_)
    unfold storedDist
    split
    · exact (h.isMarkedDeleted_returns hL hid).bind (returns_pure _)
    · exact returns_pure _

/-- **One expansion** stays in the layer and uses up its candidate. -/
theorem LayerInv.expand {layer : ℕ} {s : LayerState P L}
    (hs : LayerInv P L (IsNode levels (lim layer) layer) s) {e : K × ℕ}
    (htop : P.byFirst.top s.candidateSet = some e) :
    LayerInv P L (IsNode levels (lim layer) layer) (expanded fstdistfunc m data_point layer s e) ∧
      layerMeasure (lim layer) (expanded fstdistfunc m data_point layer s e) <
        layerMeasure (lim layer) s := by
  have hnode := hs.candidate e (P.byFirst.top_mem htop)
  have hid : e.2 < N := hnode.1.trans_le (h.bound layer)
  have hsize := P.byFirst.size_pop htop
  refine List.foldlRecOn (motive := fun s' => LayerInv P L (IsNode levels (lim layer) layer) s' ∧
    layerMeasure (lim layer) s' < layerMeasure (lim layer) s) _ _ ?_ fun s' ⟨hs', hlt⟩ id hmem => ?_
  · refine ⟨⟨fun e' he' => hs.candidate e' (P.byFirst.mem_of_mem_pop htop he'), hs.top, hs.nonempty,
      hs.size, hs.seen, hs.nodup⟩, ?_⟩
    unfold layerMeasure
    dsimp only
    omega
  · have hlink := h.target e.2 hid layer hnode.2 id hmem
    obtain ⟨hinv, hle⟩ := hs'.consider fstdistfunc (hL.M_pos.trans_le hL.ef) m data_point hlink hlink.1
    exact ⟨hinv, hle.trans_lt hlt⟩

/-- **One iteration** of the search of a layer, while it goes on. -/
theorem layerStep_next {layer : ℕ} {held : Option ℕ} (hheld : ∀ id < lim layer, held ≠ some id)
    {s : LayerState P L} (hs : LayerInv P L (IsNode levels (lim layer) layer) s) {e : K × ℕ}
    (htop : P.byFirst.top s.candidateSet = some e)
    (hgo : ¬ (s.lowerBound < -e.1 ∧ P.byFirst.size s.top_candidates = L.ef_construction)) :
    Returns (layerStep P L fstdistfunc m held data_point layer s)
      (.inl (expanded fstdistfunc m data_point layer s e)) := by
  have hnode := hs.candidate e (P.byFirst.top_mem htop)
  have hid : e.2 < N := hnode.1.trans_le (h.bound layer)
  have hfold := foldlM_foldl (f := considerLink P L fstdistfunc m data_point)
    (fun s' id hmem => considerLink_returns fstdistfunc hL h data_point
      (h.target e.2 hid layer hnode.2 id hmem) s')
    { s with candidateSet := P.byFirst.pop s.candidateSet }
  unfold layerStep
  rw [htop]
  dsimp only
  rw [if_neg hgo]
  exact (lockLinks_returns (hheld e.2 hnode.1)).bind
    ((h.getLinks_returns hL hid hnode.2).bind (hfold.bind (returns_pure _)))

/-- **One iteration** expands an element of the layer, or it leaves the loop. -/
theorem layerStep_returns {layer : ℕ} {held : Option ℕ} (hheld : ∀ id < lim layer, held ≠ some id)
    {s : LayerState P L} (hs : LayerInv P L (IsNode levels (lim layer) layer) s) :
    (∃ s', Returns (layerStep P L fstdistfunc m held data_point layer s) (.inl s') ∧
      LayerInv P L (IsNode levels (lim layer) layer) s' ∧
      layerMeasure (lim layer) s' < layerMeasure (lim layer) s) ∨
    ∃ s', Returns (layerStep P L fstdistfunc m held data_point layer s) (.inr s') ∧
      LayerInv P L (IsNode levels (lim layer) layer) s' := by
  by_cases hstop : ∀ e, P.byFirst.top s.candidateSet = some e →
      s.lowerBound < -e.1 ∧ P.byFirst.size s.top_candidates = L.ef_construction
  · exact Or.inr ⟨s, layerStep_stop fstdistfunc m held data_point layer hstop, hs⟩
  · obtain ⟨e, he⟩ := not_forall.mp hstop
    obtain ⟨htop, hgo⟩ := Classical.not_imp.mp he
    obtain ⟨hinv, hlt⟩ := hs.expand fstdistfunc hL h data_point htop
    exact Or.inl ⟨_, layerStep_next fstdistfunc hL h data_point hheld hs htop hgo, hinv, hlt⟩

/-- **The search of a layer** from one of its elements: it finds at least one, and none twice. -/
theorem searchBaseLayer_returns {layer : ℕ} {held : Option ℕ}
    (hheld : ∀ id < lim layer, held ≠ some id) (pool : VisitedListPool L.max_elements) {ep_id : ℕ}
    (hep : IsNode levels (lim layer) layer ep_id) :
    ∃ r, Returns (loop (layerStep P L fstdistfunc m held data_point layer)
        (layerEntry fstdistfunc P L m data_point (pool.getFreeVisitedList P.newList).1 ep_id)) r ∧
      Returns (searchBaseLayer P L fstdistfunc m pool held ep_id data_point layer)
        (r.top_candidates,
          (pool.getFreeVisitedList P.newList).2.releaseVisitedList r.visited) ∧
      LayerInv P L (IsNode levels (lim layer) layer) r := by
  have hid : ep_id < N := hep.1.trans_le (h.bound layer)
  have hdist := h.distTo_returns hL fstdistfunc data_point hid
  have hvisit : Returns ((pool.getFreeVisitedList P.newList).1.visit ep_id)
      ((pool.getFreeVisitedList P.newList).1.mark ep_id) :=
    VisitedList.visit_returns (hid.trans_le h.capacity)
  obtain ⟨r, hloop, hr⟩ := loop_returns
    (LayerInv P L (IsNode levels (lim layer) layer)) (layerMeasure (lim layer))
    (LayerInv P L (IsNode levels (lim layer) layer))
    (fun s hs => layerStep_returns fstdistfunc hL h data_point hheld hs)
    (LayerInv.entry fstdistfunc (hL.M_pos.trans_le hL.ef) m data_point _ hep)
  have hstart : Returns (layerStart P L fstdistfunc m (pool.getFreeVisitedList P.newList).1 ep_id
      data_point) ⟨(pool.getFreeVisitedList P.newList).1,
        P.byFirst.push P.byFirst.empty (storedDist fstdistfunc L m data_point ep_id, ep_id),
        P.byFirst.push P.byFirst.empty (-storedDist fstdistfunc L m data_point ep_id, ep_id),
        storedDist fstdistfunc L m data_point ep_id⟩ :=
    (h.isMarkedDeleted_returns hL hid).bind (hdist.bind (returns_pure _))
  exact ⟨r, hloop, hstart.bind (hvisit.bind (hloop.bind (returns_pure _))), hr⟩

-- ---------------------------------------------------------------------------
-- The way down
-- ---------------------------------------------------------------------------

/-- The current object is an element of the layer, with its distance. -/
structure GreedyInv (L : Layout) (fstdistfunc : List UInt8 → List UInt8 → K) (levels : ℕ → ℕ)
    (lim : ℕ → ℕ) (m : Memory Region) (data_point : List UInt8) (level : ℕ) (s : ℕ × K) : Prop where
  node : IsNode levels (lim level) level s.1
  dist : s.2 = fstdistfunc data_point (bytes m (L.dataSpan s.1))

omit [Neg K] in
/-- One pass over the links: when anything changed, the distance has decreased. -/
theorem greedyStep_returns {level : ℕ} {held : Option ℕ} (hheld : ∀ id < lim (level + 1), held ≠ some id)
    {s : ℕ × K} (hs : GreedyInv L fstdistfunc levels lim m data_point (level + 1) s) :
    (∃ s', Returns (greedyStep L fstdistfunc m held data_point (level + 1) s) (.inl s') ∧
      GreedyInv L fstdistfunc levels lim m data_point (level + 1) s' ∧ s'.2 < s.2) ∨
    ∃ s', Returns (greedyStep L fstdistfunc m held data_point (level + 1) s) (.inr s') ∧
      GreedyInv L fstdistfunc levels lim m data_point (level + 1) s' := by
  have hid : s.1 < N := hs.node.1.trans_le (h.bound _)
  have hlinks := h.getLinks_returns hL hid hs.node.2
  obtain ⟨r, hfold, hr, hlt⟩ := foldlM_returns (f := greedyLink L fstdistfunc m data_point)
    (fun _ (r : (ℕ × K) × Bool) => GreedyInv L fstdistfunc levels lim m data_point (level + 1) r.1 ∧
      (r.1.2 < s.2 ∨ r = (s, false)))
    (l := links m (L.getLinklistAtLevel s.1 (level + 1)))
    (fun pre cand post r hsplit ⟨hr, hlt⟩ => by
      have hcand := h.target s.1 hid (level + 1) hs.node.2 cand (by rw [hsplit]; simp)
      have hcandN : cand < N := hcand.1.trans_le (h.bound _)
      have hcap : ¬ L.max_elements < cand := by
        have := h.capacity
        omega
      have hdist := h.distTo_returns hL fstdistfunc data_point hcandN
      refine ⟨_, by rw [greedyLink, if_neg hcap]; exact hdist.bind (returns_pure _), ?_⟩
      split
      · next hd => exact ⟨⟨hcand, rfl⟩, Or.inl (hlt.elim (fun hlt => hd.trans hlt)
          (fun heq => by rw [heq] at hd; exact hd))⟩
      · exact ⟨hr, hlt⟩)
    (s := (s, false)) ⟨hs, Or.inr rfl⟩
  have hstep : Returns (greedyStep L fstdistfunc m held data_point (level + 1) s)
      (if r.2 then .inl r.1 else .inr r.1) :=
    (lockLinks_returns (hheld s.1 hs.node.1)).bind (hlinks.bind (hfold.bind (returns_pure _)))
  cases hchanged : r.2 with
  | true =>
    rw [hchanged, if_pos rfl] at hstep
    refine Or.inl ⟨r.1, hstep, hr, hlt.resolve_right ?_⟩
    rintro rfl
    cases hchanged
  | false =>
    rw [hchanged, if_neg Bool.false_ne_true] at hstep
    exact Or.inr ⟨r.1, hstep, hr⟩

omit [Neg K] in
/-- The passes on one level end: only finitely many elements are closer. -/
theorem greedyLevel_returns {level : ℕ} {held : Option ℕ}
    (hheld : ∀ id < lim (level + 1), held ≠ some id) {s : ℕ × K}
    (hs : GreedyInv L fstdistfunc levels lim m data_point (level + 1) s) :
    ∃ s', Returns (loop (greedyStep L fstdistfunc m held data_point (level + 1)) s) s' ∧
      GreedyInv L fstdistfunc levels lim m data_point (level + 1) s' := by
  let closer : ℕ × K → Finset ℕ := fun s => (Finset.range (lim (level + 1))).filter
    fun id => fstdistfunc data_point (bytes m (L.dataSpan id)) < s.2
  refine loop_returns _ (fun s => (closer s).card) _ (fun s hs => ?_) hs
  rcases greedyStep_returns fstdistfunc hL h data_point hheld hs with ⟨s', hret, hs', hlt⟩ | ⟨s', hret, hs'⟩
  · refine Or.inl ⟨s', hret, hs', Finset.card_lt_card (Finset.ssubset_iff_subset_ne.mpr
      ⟨fun id hid => ?_, fun heq => ?_⟩)⟩
    · rw [Finset.mem_filter] at hid ⊢
      exact ⟨hid.1, hid.2.trans hlt⟩
    · -- the new object itself is no longer among them
      have hmem : s'.1 ∈ closer s :=
        Finset.mem_filter.mpr ⟨Finset.mem_range.mpr hs'.node.1, hs'.dist ▸ hlt⟩
      rw [← heq, Finset.mem_filter, ← hs'.dist] at hmem
      exact lt_irrefl _ hmem.2
  · exact Or.inr ⟨s', hret, hs'⟩

omit [Neg K] in
/-- The descent, over levels that all link the elements below `n`. -/
theorem descendTo_returns {n : ℕ} (hlim : ∀ level, lim level = n) {held : Option ℕ}
    (hheld : ∀ id < n, held ≠ some id) (curlevel k : ℕ) {s : ℕ × K}
    (hnode : IsNode levels n (curlevel + k) s.1)
    (hdist : s.2 = fstdistfunc data_point (bytes m (L.dataSpan s.1))) :
    ∃ s', Returns (descendTo L fstdistfunc m held data_point curlevel k s) s' ∧
      IsNode levels n curlevel s'.1 := by
  induction k generalizing s with
  | zero => exact ⟨s, returns_pure s, hnode⟩
  | succ k ih =>
    obtain ⟨s₁, hret, hs₁⟩ := greedyLevel_returns fstdistfunc hL h data_point
      (fun id hid => hheld id (hlim (curlevel + k + 1) ▸ hid)) (s := s)
      ⟨by rw [hlim]; exact hnode, hdist⟩
    have hnode₁ := hs₁.node
    rw [hlim] at hnode₁
    obtain ⟨s', hret', hnode'⟩ := ih ⟨hnode₁.1, by have := hnode₁.2; omega⟩ hs₁.dist
    exact ⟨s', hret.bind hret', hnode'⟩

omit [Neg K] in
/-- **The descent** ends at an element of the highest level that is linked next. -/
theorem startObject_returns {n : ℕ} (hlim : ∀ level, lim level = n) {held : Option ℕ}
    (hheld : ∀ id < n, held ≠ some id) (curlevel : ℕ) {enterpoint_node maxlevel : ℕ}
    (hep : IsNode levels n maxlevel enterpoint_node) :
    ∃ currObj, Returns (startObject L fstdistfunc m held data_point enterpoint_node curlevel maxlevel)
        currObj ∧ IsNode levels n (min curlevel maxlevel) currObj := by
  have hid : enterpoint_node < N := hep.1.trans_le (hlim 0 ▸ h.bound 0)
  unfold startObject
  by_cases hlt : (curlevel : ℤ) < maxlevel
  · rw [if_pos hlt]
    have hk : curlevel + ((maxlevel : ℤ) - curlevel).toNat = maxlevel := by omega
    obtain ⟨s', hret, hnode⟩ := descendTo_returns fstdistfunc hL h data_point hlim
      hheld curlevel ((maxlevel : ℤ) - curlevel).toNat
      (s := (enterpoint_node, fstdistfunc data_point (bytes m (L.dataSpan enterpoint_node))))
      (hk.symm ▸ hep) rfl
    refine ⟨s'.1, (h.distTo_returns hL fstdistfunc data_point hid).bind (hret.bind (returns_pure _)), ?_⟩
    rw [Nat.min_eq_left (by omega)]
    exact hnode
  · rw [if_neg hlt, Nat.min_eq_right (by omega)]
    exact ⟨enterpoint_node, returns_pure _, hep⟩

end Layer

end Mqo.Index
