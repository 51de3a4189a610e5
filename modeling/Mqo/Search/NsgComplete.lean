import Mqo.Search.NsgRecall

/-!
# MQO — what is left in the pool of an NSG search

Besides the closest candidate, the pool keeps everything that matters among the
nodes that have been evaluated: one that is not in it is no closer than its last
candidate. A candidate is neither entered twice nor lost, although the cursor of
the search goes back and the binary search has to place equal distances.

* `Kept.consider`   — evaluating a neighbour keeps the pool distinct and complete;
* `Kept.advance`    — so does one pass of the search;
* `completePool`    — the pool at the end, for both searches.
-/

namespace Mqo.Search.Nsg

open Prog SortedArray Flags

section Invariant

variable {K : Type} [LinearOrder K] {neighbors : ℕ → List ℕ} {dist : ℕ → K} {nd L : ℕ}

/-- The candidates are distinct nodes that have been evaluated, and a node that has been
evaluated is a candidate, or no closer than the last one. -/
structure Kept (dist : ℕ → K) (L : ℕ) (s : PoolState K) : Prop where
  distinct : PairwiseOn (fun a b => a.id ≠ b.id) L s.retset
  seen     : ∀ i < L, s.flags (s.retset i).id = true
  covered  : ∀ u, s.flags u = true →
    (∃ i < L, (s.retset i).id = u) ∨ (s.retset (L - 1)).distance ≤ dist u

/-- Only the ids and distances of the candidates count. -/
theorem Kept.congr {s s' : PoolState K} (h : Kept dist L s) (hL : 1 ≤ L)
    (hsame : ∀ i < L, (s'.retset i).id = (s.retset i).id ∧
      (s'.retset i).distance = (s.retset i).distance) (hflags : s'.flags = s.flags) :
    Kept dist L s' := by
  refine ⟨fun i j hij hj => ?_, fun i hi => ?_, fun u hu => ?_⟩
  · show (s'.retset i).id ≠ (s'.retset j).id
    rw [(hsame i (by omega)).1, (hsame j hj).1]
    exact h.distinct i j hij hj
  · rw [hflags, (hsame i hi).1]
    exact h.seen i hi
  · rw [hflags] at hu
    rcases h.covered u hu with ⟨i, hi, heq⟩ | hle
    · exact Or.inl ⟨i, hi, by rw [(hsame i hi).1, heq]⟩
    · exact Or.inr (by rw [(hsame (L - 1) (by omega)).2]; exact hle)

/-- A node that is no closer than the last candidate. -/
theorem Kept.reject {s : PoolState K} (h : Kept dist L s) {id : ℕ}
    (hfar : (s.retset (L - 1)).distance ≤ dist id) :
    Kept dist L { s with flags := Function.update s.flags id true } where
  distinct := h.distinct
  seen i hi := (update_iff s.flags id _).mpr (Or.inl (h.seen i hi))
  covered u hu := by
    rcases (update_iff s.flags id u).mp hu with hu | rfl
    · exact h.covered u hu
    · exact Or.inr hfar

/-- A node that is inserted at its place: the last candidate may drop out. -/
theorem Kept.insert {s : PoolState K} (h : Kept dist L s)
    (hsorted : SortedOn Neighbor.distance L s.retset)
    (hnode : ∀ i < L, (s.retset i).distance = dist (s.retset i).id) {id r : ℕ} (hr : r < L)
    (hnew : ∀ i < L, (s.retset i).id ≠ id)
    (habove : ∀ i, r ≤ i → i < L → dist id ≤ (s.retset i).distance) (pos : ℕ) :
    Kept dist L ⟨insertAt r ⟨id, dist id, true⟩ s.retset, Function.update s.flags id true, pos⟩ := by
  have hlast : (insertAt r ⟨id, dist id, true⟩ s.retset (L - 1)).distance ≤
      (s.retset (L - 1)).distance := by
    rcases Nat.lt_or_eq_of_le (Nat.le_sub_one_of_lt hr) with hlt | heq
    · rw [insertAt_gt hlt]
      exact hsorted (L - 1 - 1) (L - 1) (by omega) (by omega)
    · rw [← heq, insertAt_self]
      exact habove r (le_refl r) hr
  refine ⟨?_, fun i hi => ?_, fun u hu => ?_⟩
  · exact (pairwiseOn_insertAt h.distinct hr.le (fun i hi => hnew i (by omega))
      fun i _ hi => (hnew i hi).symm).mono (Nat.le_succ L)
  · dsimp only
    rw [update_iff]
    rcases insertAt_cases r (⟨id, dist id, true⟩ : Neighbor K) s.retset (Nat.lt_succ_of_lt hi) hr.le
      with heq | ⟨j, hj, heq⟩
    · exact Or.inr (by rw [heq])
    · exact Or.inl (by rw [heq]; exact h.seen j hj)
  · rcases (update_iff s.flags id u).mp hu with hu | rfl
    · rcases h.covered u hu with ⟨j, hj, rfl⟩ | hle
      · rcases Nat.lt_or_eq_of_le (Nat.succ_le_of_lt hj) with hlt | heq
        · obtain ⟨i, hi, hfind⟩ := exists_insertAt r (⟨id, dist id, true⟩ : Neighbor K) s.retset hlt
          exact Or.inl ⟨i, hi, by dsimp only; rw [hfind]⟩
        · -- the last candidate drops out
          refine Or.inr (hlast.trans ?_)
          rw [← hnode j hj, show L - 1 = j by omega]
      · exact Or.inr (hlast.trans hle)
    · exact Or.inl ⟨r, hr, by dsimp only; rw [insertAt_self]⟩

/-- **One neighbour.** -/
theorem Kept.consider (hL : 1 ≤ L) {p : ℕ → Prop} {s : PoolState K} (h : Kept dist L s)
    (hinv : PoolInv neighbors dist nd L p s) (id : ℕ) : Kept dist L (considerId dist L s id) := by
  unfold considerId
  split
  · exact h
  · next hflag =>
    dsimp only
    split
    · next hfar => exact h.reject hfar
    · next hclose =>
      -- a node that has not been evaluated is not in the pool
      have hnew : ∀ i < L, (s.retset i).id ≠ id := fun i hi heq => hflag (heq ▸ h.seen i hi)
      have hlast : (⟨id, dist id, true⟩ : Neighbor K).distance < (s.retset (L - 1)).distance :=
        not_le.mp hclose
      obtain ⟨r, hr, -, habove, hins⟩ := insertIntoPool_inserts hL hinv.sorted hlast hnew
      rw [hins]
      exact h.insert hinv.sorted (fun i hi => (hinv.node i hi).2) hr hnew habove _

theorem Kept.considerAll (hL : 1 ≤ L) {p : ℕ → Prop} {ids : List ℕ} (hids : ∀ u ∈ ids, u < nd)
    {s : PoolState K} (h : Kept dist L s) (hinv : PoolInv neighbors dist nd L p s)
    (hpos : s.pos ≤ L) : Kept dist L (ids.foldl (considerId dist L) s) := by
  induction ids generalizing s with
  | nil => exact h
  | cons id ids ih =>
    obtain ⟨hinv', hadv, -⟩ := considerId_inv hL hinv hpos (hids id List.mem_cons_self)
    exact ih (fun u hu => hids u (List.mem_cons_of_mem _ hu)) (h.consider hL hinv id) hinv'
      (hadv.pos.trans hpos)

/-- **One pass** of the search. -/
theorem Kept.advance (hL : 1 ≤ L) (hnb : ∀ i < nd, ∀ u ∈ neighbors i, u < nd)
    {flags₀ : ℕ → Bool} {s : PoolState K} (hinv : SearchInv neighbors dist nd L flags₀ s)
    (hpos : s.pos < L) (h : Kept dist L s) : Kept dist L (advanced neighbors dist L s) := by
  have hexpand : Kept dist L (expand neighbors dist L s) := by
    unfold expand
    dsimp only
    split
    · exact Kept.considerAll hL (hnb _ (hinv.node s.pos hpos).1)
        (h.congr hL (fun i _ => clearFlag_same s.retset s.pos i) rfl) hinv.start (le_refl L)
    · exact h.congr hL (fun _ _ => ⟨rfl, rfl⟩) rfl
  exact hexpand.congr hL (fun _ _ => ⟨rfl, rfl⟩) rfl

end Invariant

-- ---------------------------------------------------------------------------
-- A whole search
-- ---------------------------------------------------------------------------

section WholeSearch

variable {K V : Type} [LinearOrder K] [Zero K]

/-- Distinct initial candidates. -/
theorem initPool_kept (S : Sorting K) (dist : ℕ → K) {nd L : ℕ} {first : List ℕ}
    {init : FillState} (h : FillInv nd L first init) (hlen : init.init_ids.length = L)
    (hnodup : init.init_ids.Nodup) :
    Kept dist L ⟨initPool S dist init.init_ids, init.flags, 0⟩ := by
  obtain ⟨l, hperm, -, hl, hget⟩ := initPool_spec S dist init.init_ids
  rw [hlen] at hl
  have hdistinct : l.Pairwise fun a b => a.id ≠ b.id := by
    rw [hperm.pairwise_iff fun hab => hab.symm, List.pairwise_map]
    exact hnodup
  refine ⟨fun i j hij hj => ?_, fun i hi => ?_, fun u hu => ?_⟩
  · dsimp only
    rw [hget i (by omega), hget j (hl ▸ hj)]
    exact List.pairwise_iff_getElem.mp hdistinct i j _ _ hij
  · obtain ⟨id, hid, heq⟩ := List.mem_map.mp (hperm.mem_iff.mp (List.getElem_mem (hl ▸ hi)))
    dsimp only
    rw [hget i (hl ▸ hi), ← heq]
    exact (h.flags id).mpr hid
  · have hmem : (⟨u, dist u, true⟩ : Neighbor K) ∈ l :=
      hperm.mem_iff.mpr (List.mem_map_of_mem ((h.flags u).mp hu))
    obtain ⟨j, hj, heq⟩ := List.mem_iff_getElem.mp hmem
    refine Or.inl ⟨j, hl ▸ hj, ?_⟩
    dsimp only
    rw [hget j hj, heq]

/-- The pool at the end of a search: distinct nodes in ascending order of their distance, all
of them expanded. A neighbour of a candidate is a candidate or no closer than the last one,
and the `k` ids returned are the closest of all nodes that have been evaluated. -/
structure CompletePool (neighbors : ℕ → List ℕ) (dist : ℕ → K) (L k : ℕ)
    (res : SearchResult K) : Prop where
  distinct  : ∀ i j, i < j → j < L → (res.retset i).id ≠ (res.retset j).id
  ascending : ∀ i j, i ≤ j → j < L → dist (res.retset i).id ≤ dist (res.retset j).id
  expanded  : ∀ i < L, (res.retset i).flag = false
  linked    : ∀ i < L, ∀ u ∈ neighbors (res.retset i).id,
    (∃ j < L, (res.retset j).id = u) ∨ dist (res.retset (L - 1)).id ≤ dist u
  indices   : res.indices = (List.range k).map fun i => (res.retset i).id
  evaluated : ∀ i < L, res.flags (res.retset i).id = true
  closest   : ∀ u, res.flags u = true → u ∈ res.indices ∨ ∀ v ∈ res.indices, dist v ≤ dist u

/-- From distinct initial candidates on, every search ends with a complete pool. -/
theorem searchFrom_complete (S : Sorting K) {neighbors : ℕ → List ℕ} (dist : ℕ → K) {nd L k : ℕ}
    (hnb : ∀ i < nd, ∀ u ∈ neighbors i, u < nd) (hL : 1 ≤ L) (hkL : k ≤ L) {first : List ℕ}
    {init : FillState} (h : FillInv nd L first init) (hlen : init.init_ids.length = L)
    (hnodup : init.init_ids.Nodup) :
    ∃ res, CompletePool neighbors dist L k res ∧
      ∃ s, Returns (loop (searchStep neighbors dist L)
          ⟨initPool S dist init.init_ids, init.flags, 0⟩) s ∧
        Returns (writeIndices L k s) res := by
  obtain ⟨s, hret, hinv, hdone, hkept⟩ := searchLoop_returns hL hnb (Kept dist L)
    (fun _ hs hpos hkept => hkept.advance hL hnb hs hpos) (initPool_inv S neighbors dist h hlen)
    (initPool_kept S dist h hlen hnodup)
  have hascending : ∀ i j, i ≤ j → j < L → dist (s.retset i).id ≤ dist (s.retset j).id := by
    intro i j hij hj
    rw [← (hinv.node i (by omega)).2, ← (hinv.node j hj).2]
    exact hinv.sorted i j hij hj
  have hcovered : ∀ u, s.flags u = true →
      (∃ i < L, (s.retset i).id = u) ∨ dist (s.retset (L - 1)).id ≤ dist u := by
    intro u hu
    rw [← (hinv.node (L - 1) (by omega)).2]
    exact hkept.covered u hu
  refine ⟨⟨(List.range k).map fun i => (s.retset i).id, s.retset, s.flags⟩,
    ⟨hkept.distinct, hascending, hdone, fun i hi u hu => ?_, rfl, hkept.seen, fun u hu => ?_⟩,
    s, hret, ?_⟩
  · exact hcovered u ((hinv.expanded i hi (hdone i hi)).resolve_left id u hu)
  · -- a node that is not among the first `k` comes after them, or is not in the pool
    by_cases hmem : ∃ i < k, (s.retset i).id = u
    · obtain ⟨i, hi, rfl⟩ := hmem
      exact Or.inl (List.mem_map_of_mem (f := fun i => (s.retset i).id) (List.mem_range.mpr hi))
    · refine Or.inr fun v hv => ?_
      obtain ⟨i, hi, rfl⟩ := List.mem_map.mp hv
      have hi := List.mem_range.mp hi
      rcases hcovered u hu with ⟨j, hj, rfl⟩ | hle
      · exact hascending i j (not_lt.mp fun hji => hmem ⟨j, by omega, rfl⟩) hj
      · exact (hascending i (L - 1) (by omega) (by omega)).trans hle
  · rw [writeIndices, if_neg (by omega)]
    exact returns_pure _

/-- **The pool of both searches.** On a graph whose lists are free of duplicates, the main
loop ends from whatever initial candidates `rand()` has completed, and its pool is complete. -/
theorem completePool (which : NsgSearch) (index : IndexNSG)
    (hnodup : ∀ i < index.nd, (index.final_graph i).Nodup) (S : Sorting K) (D : Distance V K)
    (x : ℕ → V) (query : V) {k L : ℕ} (hL : 1 ≤ L) (hkL : k ≤ L) {entry_point : ℤ}
    (hentry : entry_point < index.nd) {rng : ℕ → ℕ} {init : FillState}
    (hinit : Returns (fillInit index.nd L
      (index.final_graph (index.effectiveEntry entry_point)) rng) init) :
    ∃ res, Returns (which.run index S D x query k L entry_point rng) (res, init.rng) ∧
      CompletePool index.final_graph (which.dist D x query) L k res := by
  have hlt := index.effectiveEntry_lt hentry
  obtain ⟨hinv, hlen, hdistinct⟩ :=
    fillInit_inv (Nat.zero_lt_of_lt index.ep_lt) (index.graph_lt _ hlt) hinit
  obtain ⟨res, hres, s, hloop, hwrite⟩ := searchFrom_complete S (which.dist D x query)
    index.graph_lt hL hkL hinv hlen (hdistinct (hnodup _ hlt))
  exact ⟨res, which.run_of_loop S D x query hinit hinv hlen hloop hwrite, hres⟩

end WholeSearch

/-- Three candidates of four nodes, one of them random. -/
theorem lineGraph_completePool : ∃ r,
    Returns (NsgSearch.search_mine.run lineGraph (Sorting.insertion ℤ) squareDistance
      (fun i => i) 0 2 3 (-1) id) r ∧
    CompletePool lineGraph.final_graph
      (NsgSearch.search_mine.dist squareDistance (fun i => i) 0) 3 2 r.1 := by
  obtain ⟨init, hinit, -⟩ := fillInit_returns (show 3 ≤ lineGraph.nd by decide)
    (lineGraph.graph_lt _ (lineGraph.effectiveEntry_lt (show (-1 : ℤ) < lineGraph.nd by decide)))
    (covers_id lineGraph.nd)
  obtain ⟨res, hret, hres⟩ := completePool .search_mine lineGraph (by decide)
    (Sorting.insertion ℤ) squareDistance (fun i => i) 0 (by decide) (show 2 ≤ 3 by decide)
    (by decide) hinit
  exact ⟨_, hret, hres⟩

end Mqo.Search.Nsg
