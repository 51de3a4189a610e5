import Mathlib.Data.List.GetD
import Mqo.Lib.Flags
import Mqo.Search.NsgPool
import Mqo.Search.WarmStart

/-!
# MQO — searching an NSG graph

`Search_mine` and `SearchWithOptGraph_mine` of `nsg/src/index_nsg.cpp`. The pool
is filled with neighbours of the entry point and, where these are not enough,
with random nodes; then the candidates are expanded in order of their distance
until all that are left in the pool have been.

`Search_mine` reads the graph and the vectors from their own arrays;
`SearchWithOptGraph_mine` reads the nodes that `OptimizeGraph` has packed, and
ranks them by `compare` with the norm of the node. Ids in the graph are below
`nd_`, so every access to `flags` is in range.

* `fillInit_inv`, `fillInit_returns` — the initial candidates;
* `considerId_inv`  — evaluating a neighbour keeps the invariant `PoolInv`: the
  first candidate is no farther than any node that has been evaluated;
* `searchLoop_returns` — the expansions end, and then the neighbours of all
  candidates have been evaluated.
-/

namespace Mqo.Search.Nsg

open Prog SortedArray Flags

-- ---------------------------------------------------------------------------
-- The index
-- ---------------------------------------------------------------------------

/-- `IndexNSG`: the graph with its default entry point. -/
structure IndexNSG where
  nd : ℕ
  ep : ℕ
  final_graph : ℕ → List ℕ
  ep_lt : ep < nd
  graph_lt : ∀ i < nd, ∀ u ∈ final_graph i, u < nd

/-- A packed node of `opt_graph_`. -/
structure OptNode (V K : Type) where
  norm : K
  data : V
  neighbors : List ℕ

/-- `OptimizeGraph` -/
def IndexNSG.optimizeGraph {V K : Type} (index : IndexNSG) (norm : V → K) (data : ℕ → V) :
    ℕ → OptNode V K := fun i => ⟨norm (data i), data i, index.final_graph i⟩

/-- `DistanceL2` and `DistanceInnerProduct` with `compare`, and `DistanceFastL2` with
`norm` and its own `compare`: sums of products and of squared differences, which
do not depend on the order of the two vectors. -/
structure Distance (V K : Type) where
  compare : V → V → K
  norm : V → K
  compareNorm : V → V → K → K
  compare_comm : ∀ a b, compare a b = compare b a
  compareNorm_comm : ∀ a b n, compareNorm a b n = compareNorm b a n

/-- `std::sort` by distance: ascending, in some order of equal elements. -/
structure Sorting (K : Type) [LinearOrder K] where
  sort : List (Neighbor K) → List (Neighbor K)
  perm : ∀ l, (sort l).Perm l
  sorted : ∀ l, (sort l).Pairwise fun a b => a.distance ≤ b.distance

-- ---------------------------------------------------------------------------
-- The initial candidates
-- ---------------------------------------------------------------------------

/-- The state while the initial candidates are collected: `init_ids` so far,
`flags`, and the values `rand()` still has to return. -/
structure FillState where
  init_ids : List ℕ
  flags : ℕ → Bool
  rng : ℕ → ℕ

/-- The first loop: at most `L` neighbours of the entry point. -/
def firstNeighbors (neighbors : List ℕ) (L : ℕ) (rng : ℕ → ℕ) : FillState :=
  (neighbors.take L).foldl (fun s id =>
    { s with init_ids := s.init_ids ++ [id], flags := Function.update s.flags id true })
    ⟨[], fun _ => false, rng⟩

/-- One pass of `while (tmp_l < L)`: a random node, unless it is flagged. -/
def fillStep (nd L : ℕ) (s : FillState) : Run (FillState ⊕ FillState) :=
  if s.init_ids.length < L then
    let id := s.rng 0 % nd
    let rng := fun k => s.rng (k + 1)
    if s.flags id then pure (.inl { s with rng := rng })
    else pure (.inl ⟨s.init_ids ++ [id], Function.update s.flags id true, rng⟩)
  else pure (.inr s)

/-- Both loops. -/
def fillInit (nd L : ℕ) (neighbors : List ℕ) (rng : ℕ → ℕ) : Run FillState :=
  loop (fillStep nd L) (firstNeighbors neighbors L rng)

-- ---------------------------------------------------------------------------
-- Expanding the pool
-- ---------------------------------------------------------------------------

section Pool

variable {K : Type} [LinearOrder K] [Zero K]

/-- The sorted array of the initial candidates; what follows is a value-initialised
`Neighbor`. -/
def initPool (S : Sorting K) (dist : ℕ → K) (init_ids : List ℕ) : ℕ → Neighbor K := fun i =>
  (S.sort (init_ids.map fun id => ⟨id, dist id, true⟩)).getD i ⟨0, 0, false⟩

/-- The pool, the flags of the nodes evaluated, and `nk` or `k`. -/
structure PoolState (K : Type) where
  retset : ℕ → Neighbor K
  flags : ℕ → Bool
  pos : ℕ

omit [Zero K] in
/-- One neighbour of the node being expanded; `pos` is `nk`. -/
def considerId (dist : ℕ → K) (L : ℕ) (s : PoolState K) (id : ℕ) : PoolState K :=
  if s.flags id then s
  else
    let flags := Function.update s.flags id true
    if (s.retset (L - 1)).distance ≤ dist id then { s with flags := flags }
    else
      let r := insertIntoPool s.retset L ⟨id, dist id, true⟩
      ⟨r.1, flags, if r.2 < s.pos then r.2 else s.pos⟩

omit [Zero K] in
/-- Expanding the node at position `k`, if it has not been. -/
def expand (neighbors : ℕ → List ℕ) (dist : ℕ → K) (L : ℕ) (s : PoolState K) : PoolState K :=
  let nn := s.retset s.pos
  if nn.flag then
    (neighbors nn.id).foldl (considerId dist L)
      ⟨Function.update s.retset s.pos { nn with flag := false }, s.flags, L⟩
  else { s with pos := L }

omit [Zero K] in
/-- One pass of `while (k < L)`; `pos` is `k`. -/
def searchStep (neighbors : ℕ → List ℕ) (dist : ℕ → K) (L : ℕ) (s : PoolState K) :
    Run (PoolState K ⊕ PoolState K) :=
  if s.pos < L then
    let r := expand neighbors dist L s
    pure (.inl { r with pos := if r.pos ≤ s.pos then r.pos else s.pos + 1 })
  else pure (.inr s)

/-- What a search leaves: `indices`, its pool and its flags. -/
structure SearchResult (K : Type) where
  indices : List ℕ
  retset : ℕ → Neighbor K
  flags : ℕ → Bool

omit [Zero K] in
/-- The loop that writes the first `k` ids; `retset` has `L + 1` elements. -/
def writeIndices (L k : ℕ) (s : PoolState K) : Run (SearchResult K) :=
  if L + 1 < k then fault .outOfRange
  else pure ⟨(List.range k).map fun i => (s.retset i).id, s.retset, s.flags⟩

-- ---------------------------------------------------------------------------
-- The two searches
-- ---------------------------------------------------------------------------

variable {V : Type}

/-- The entry point: `ep_` for the default marker `-1`. -/
def IndexNSG.effectiveEntry (index : IndexNSG) (entry_point : ℤ) : ℕ :=
  if entry_point = -1 then index.ep else entry_point.toNat

/-- `Search_mine` -/
def searchMine (index : IndexNSG) (S : Sorting K) (D : Distance V K) (x : ℕ → V) (query : V)
    (k L : ℕ) (entry_point : ℤ) (rng : ℕ → ℕ) : Run (SearchResult K × (ℕ → ℕ)) := do
  let effective_entry := index.effectiveEntry entry_point
  let init ← fillInit index.nd L (index.final_graph effective_entry) rng
  let s ← loop (searchStep index.final_graph (fun id => D.compare query (x id)) L)
    ⟨initPool S (fun id => D.compare (x id) query) init.init_ids, init.flags, 0⟩
  let res ← writeIndices L k s
  pure (res, init.rng)

/-- `SearchWithOptGraph_mine`; `L` is counted again over the initial ids that are
below `nd_`, and their flags are set once more. -/
def searchWithOptGraphMine (index : IndexNSG) (S : Sorting K) (D : Distance V K)
    (opt_graph : ℕ → OptNode V K) (query : V) (k L : ℕ) (entry_point : ℤ) (rng : ℕ → ℕ) :
    Run (SearchResult K × (ℕ → ℕ)) := do
  let effective_entry := index.effectiveEntry entry_point
  let init ← fillInit index.nd L (opt_graph effective_entry).neighbors rng
  let init_ids := init.init_ids.filter (· < index.nd)
  let flags := init_ids.foldl (fun flags id => Function.update flags id true) init.flags
  let s ← loop (searchStep (fun id => (opt_graph id).neighbors)
      (fun id => D.compareNorm query (opt_graph id).data (opt_graph id).norm) init_ids.length)
    ⟨initPool S (fun id => D.compareNorm (opt_graph id).data query (opt_graph id).norm) init_ids,
      flags, 0⟩
  let res ← writeIndices L k s
  pure (res, init.rng)

end Pool

-- ---------------------------------------------------------------------------
-- Collecting the initial candidates
-- ---------------------------------------------------------------------------

/-- The flagged nodes are the ids collected: the neighbours of the entry point,
followed by random nodes. -/
structure FillInv (nd L : ℕ) (neighbors : List ℕ) (s : FillState) : Prop where
  length : s.init_ids.length ≤ L
  first  : neighbors.take L <+: s.init_ids
  flags  : ∀ i, s.flags i = true ↔ i ∈ s.init_ids
  lt     : ∀ i ∈ s.init_ids, i < nd

/-- Flagging a node. -/
theorem flag_iff {flags : ℕ → Bool} {ids : List ℕ} (h : ∀ i, flags i = true ↔ i ∈ ids) (id : ℕ) :
    ∀ i, Function.update flags id true i = true ↔ i ∈ ids ++ [id] := by
  intro i
  rw [update_iff, h, List.mem_append, List.mem_singleton]

theorem firstNeighbors_inv {nd L : ℕ} {neighbors : List ℕ} (hlt : ∀ u ∈ neighbors, u < nd)
    (rng : ℕ → ℕ) : FillInv nd L neighbors (firstNeighbors neighbors L rng) ∧
      (firstNeighbors neighbors L rng).init_ids = neighbors.take L ∧
      (firstNeighbors neighbors L rng).rng = rng := by
  have key : ∀ ids : List ℕ, ∀ s : FillState, (∀ i, s.flags i = true ↔ i ∈ s.init_ids) →
      (ids.foldl (fun s id => { s with
        init_ids := s.init_ids ++ [id], flags := Function.update s.flags id true }) s).init_ids =
          s.init_ids ++ ids ∧
      (∀ i, (ids.foldl (fun s id => { s with
        init_ids := s.init_ids ++ [id], flags := Function.update s.flags id true }) s).flags i =
          true ↔ i ∈ s.init_ids ++ ids) ∧
      (ids.foldl (fun s id => { s with
        init_ids := s.init_ids ++ [id], flags := Function.update s.flags id true }) s).rng =
          s.rng := by
    intro ids
    induction ids with
    | nil => exact fun s hs => ⟨(List.append_nil _).symm, by simpa using hs, rfl⟩
    | cons id ids ih =>
      intro s hs
      obtain ⟨h1, h2, h3⟩ := ih { s with
        init_ids := s.init_ids ++ [id], flags := Function.update s.flags id true } (flag_iff hs id)
      rw [List.append_assoc, List.singleton_append] at h1 h2
      exact ⟨h1, h2, h3⟩
  obtain ⟨h1, h2, h3⟩ := key (neighbors.take L) ⟨[], fun _ => false, rng⟩ (by simp)
  rw [List.nil_append] at h1 h2
  refine ⟨⟨?_, ?_, fun i => ?_, fun i hi => ?_⟩, h1, h3⟩
  · rw [firstNeighbors, h1]
    exact List.length_take_le _ _
  · rw [firstNeighbors, h1]
  · rw [firstNeighbors, h2, h1]
  · rw [firstNeighbors, h1] at hi
    exact hlt i (List.mem_of_mem_take hi)

/-- A random node keeps the invariant. -/
theorem FillInv.draw {nd L : ℕ} {neighbors : List ℕ} {s : FillState}
    (h : FillInv nd L neighbors s) (hnd : 0 < nd) (hlen : s.init_ids.length < L) (rng : ℕ → ℕ) :
    FillInv nd L neighbors ⟨s.init_ids ++ [s.rng 0 % nd],
      Function.update s.flags (s.rng 0 % nd) true, rng⟩ where
  length := by
    rw [List.length_append, List.length_singleton]
    exact hlen
  first := h.first.trans (List.prefix_append _ _)
  flags := flag_iff h.flags _
  lt i hi := by
    rcases List.mem_append.mp hi with hi | hi
    · exact h.lt i hi
    · rw [List.mem_singleton.mp hi]
      exact Nat.mod_lt _ hnd

/-- One pass keeps the invariant: it draws a node, which is new if it is collected. -/
theorem FillInv.step {nd L : ℕ} {neighbors : List ℕ} {s s' : FillState}
    (h : FillInv nd L neighbors s) (hnd : 0 < nd) (hret : Returns (fillStep nd L s) (.inl s')) :
    FillInv nd L neighbors s' ∧ (s.init_ids.Nodup → s'.init_ids.Nodup) := by
  unfold fillStep at hret
  split at hret
  · next hlen =>
    dsimp only at hret
    split at hret
    · cases hret.of_pure
      exact ⟨⟨h.length, h.first, h.flags, h.lt⟩, id⟩
    · next hnew =>
      cases hret.of_pure
      refine ⟨h.draw hnd hlen _, fun hnodup => List.nodup_append.mpr
        ⟨hnodup, List.nodup_singleton _, fun a ha b hb hab => hnew ?_⟩⟩
      rw [h.flags, ← List.mem_singleton.mp hb, ← hab]
      exact ha
  · cases hret.of_pure

/-- **The initial candidates.** When the loops end there are `L` of them, whatever
`rand()` returned, and they are distinct if the first ones are. -/
theorem fillInit_inv {nd L : ℕ} (hnd : 0 < nd) {neighbors : List ℕ}
    (hlt : ∀ u ∈ neighbors, u < nd) {rng : ℕ → ℕ} {init : FillState}
    (h : Returns (fillInit nd L neighbors rng) init) :
    FillInv nd L neighbors init ∧ init.init_ids.length = L ∧
      (neighbors.Nodup → init.init_ids.Nodup) := by
  obtain ⟨hfirst, hids, -⟩ := firstNeighbors_inv hlt rng
  refine loop_inv
    (fun s => FillInv nd L neighbors s ∧ (neighbors.Nodup → s.init_ids.Nodup))
    (fun s => FillInv nd L neighbors s ∧ s.init_ids.length = L ∧
      (neighbors.Nodup → s.init_ids.Nodup)) (fun s s' hs hret => ?_)
    (fun s r hs hret => ?_)
    ⟨hfirst, fun hnodup => hids ▸ hnodup.sublist (List.take_sublist L neighbors)⟩ h
  · have hstep := hs.1.step hnd hret
    exact ⟨hstep.1, fun hnodup => hstep.2 (hs.2 hnodup)⟩
  · unfold fillStep at hret
    split at hret
    · dsimp only at hret
      split at hret
      · cases hret.of_pure
      · cases hret.of_pure
    · next hlen =>
      cases hret.of_pure
      exact ⟨hs.1, Nat.le_antisymm hs.1.length (not_lt.mp hlen), hs.2⟩

/-- `rand() % nd_` returns every id again and again. -/
def Covers (nd : ℕ) (rng : ℕ → ℕ) : Prop := ∀ id < nd, ∀ k, ∃ j, k ≤ j ∧ rng j % nd = id

theorem Covers.tail {nd : ℕ} {rng : ℕ → ℕ} (h : Covers nd rng) :
    Covers nd fun k => rng (k + 1) := by
  intro id hid k
  obtain ⟨j, hkj, hj⟩ := h id hid (k + 1)
  refine ⟨j - 1, by omega, ?_⟩
  show rng (j - 1 + 1) % nd = id
  rw [Nat.sub_add_cancel (by omega)]
  exact hj

/-- While there are fewer candidates than nodes, some node is not flagged. -/
theorem FillInv.exists_unflagged {nd L : ℕ} {neighbors : List ℕ} {s : FillState}
    (h : FillInv nd L neighbors s) (hlen : s.init_ids.length < nd) :
    ∃ id < nd, s.flags id = false := by
  by_contra hall
  push Not at hall
  have hsub : Finset.range nd ⊆ s.init_ids.toFinset := by
    intro id hid
    rw [List.mem_toFinset, ← h.flags, ← Bool.not_eq_false]
    exact hall id (Finset.mem_range.mp hid)
  have hcard := Finset.card_le_card hsub
  rw [Finset.card_range] at hcard
  have := List.toFinset_card_le s.init_ids
  omega

/-- The random fill ends where `rand()` covers all ids. -/
theorem fillInit_returns {nd L : ℕ} (hL : L ≤ nd) {neighbors : List ℕ}
    (hlt : ∀ u ∈ neighbors, u < nd) {rng : ℕ → ℕ} (hrng : Covers nd rng) :
    ∃ init, Returns (fillInit nd L neighbors rng) init ∧ Covers nd init.rng := by
  -- by induction on the candidates still missing, and on the draws before the next new one
  have key : ∀ m, ∀ s : FillState, FillInv nd L neighbors s → Covers nd s.rng →
      L - s.init_ids.length = m → ∃ r, Returns (loop (fillStep nd L) s) r ∧ Covers nd r.rng := by
    intro m
    induction m with
    | zero =>
      intro s _ hc hm
      refine ⟨s, loop_done ?_, hc⟩
      rw [fillStep, if_neg (by omega)]
      exact returns_pure _
    | succ m ih =>
      have hnew : ∀ s : FillState, FillInv nd L neighbors s → Covers nd s.rng →
          L - s.init_ids.length = m + 1 → ¬ s.flags (s.rng 0 % nd) = true →
          ∃ r, Returns (loop (fillStep nd L) s) r ∧ Covers nd r.rng := by
        intro s hs hc hm hseen
        have hlen : s.init_ids.length < L := by omega
        obtain ⟨r, hr, hcr⟩ := ih _ (hs.draw (by omega) hlen _) hc.tail (by
          rw [List.length_append, List.length_singleton]
          omega)
        refine ⟨r, loop_next ?_ hr, hcr⟩
        rw [fillStep, if_pos hlen, if_neg hseen]
        exact returns_pure _
      intro s hs hc hm
      obtain ⟨id, hid, hflag⟩ := hs.exists_unflagged (by omega)
      obtain ⟨j, -, hj⟩ := hc id hid 0
      induction j generalizing s with
      | zero => exact hnew s hs hc hm (by rw [hj, hflag]; exact Bool.false_ne_true)
      | succ j ihj =>
        by_cases hseen : s.flags (s.rng 0 % nd) = true
        · -- a flagged node is drawn again: one draw fewer
          obtain ⟨r, hr, hcr⟩ := ihj { s with rng := fun k => s.rng (k + 1) }
            ⟨hs.length, hs.first, hs.flags, hs.lt⟩ hc.tail hm hflag hj
          refine ⟨r, loop_next ?_ hr, hcr⟩
          rw [fillStep, if_pos (by omega), if_pos hseen]
          exact returns_pure _
        · exact hnew s hs hc hm hseen
  obtain ⟨hinv, -, hrngs⟩ := firstNeighbors_inv (L := L) hlt rng
  exact key _ _ hinv (by rw [hrngs]; exact hrng) rfl

-- ---------------------------------------------------------------------------
-- The invariant of the pool
-- ---------------------------------------------------------------------------

section PoolInvariant

variable {K : Type} [LinearOrder K] {neighbors : ℕ → List ℕ} {dist : ℕ → K} {nd L : ℕ}

/-- The first candidate is no farther than any evaluated node, and the neighbours
of a candidate that has been expanded are evaluated, unless it satisfies `p`. -/
structure PoolInv (neighbors : ℕ → List ℕ) (dist : ℕ → K) (nd L : ℕ) (p : ℕ → Prop)
    (s : PoolState K) : Prop where
  sorted   : SortedOn Neighbor.distance L s.retset
  node     : ∀ i < L, (s.retset i).id < nd ∧ (s.retset i).distance = dist (s.retset i).id
  closest  : ∀ id, s.flags id = true → (s.retset 0).distance ≤ dist id
  expanded : ∀ i < L, (s.retset i).flag = false →
    p (s.retset i).id ∨ ∀ u ∈ neighbors (s.retset i).id, s.flags u = true

/-- What evaluating neighbours does to a state: the candidates before the returned
place are still there, and a place inside the pool costs an unevaluated node. -/
structure Advances (nd : ℕ) (s s' : PoolState K) : Prop where
  kept  : ∀ i < s'.pos, s'.retset i = s.retset i
  pos   : s'.pos ≤ s.pos
  flags : ∀ i, s.flags i = true → s'.flags i = true
  fewer : (unset nd s'.flags).card ≤ (unset nd s.flags).card
  paid  : s'.pos < s.pos → (unset nd s'.flags).card < (unset nd s.flags).card

omit [LinearOrder K] in
theorem Advances.refl (s : PoolState K) : Advances nd s s :=
  ⟨fun _ _ => rfl, le_refl _, fun _ h => h, le_refl _, fun h => absurd h (lt_irrefl _)⟩

omit [LinearOrder K] in
theorem Advances.trans {s s₁ s₂ : PoolState K} (h : Advances nd s s₁)
    (h' : Advances nd s₁ s₂) : Advances nd s s₂ where
  kept i hi := (h'.kept i hi).trans (h.kept i (hi.trans_le h'.pos))
  pos := h'.pos.trans h.pos
  flags i hi := h'.flags i (h.flags i hi)
  fewer := h'.fewer.trans h.fewer
  paid hlt := by
    by_cases hmid : s₁.pos < s.pos
    · exact h'.fewer.trans_lt (h.paid hmid)
    · exact (h'.paid (by have := h.pos; omega)).trans_le h.fewer

/-- The candidates stay as they are, and one more node is flagged. -/
theorem PoolInv.reject {p : ℕ → Prop} {s : PoolState K} (h : PoolInv neighbors dist nd L p s)
    (hL : 1 ≤ L) {retset' : ℕ → Neighbor K} (hsame : ∀ i < L, retset' i = s.retset i) {id : ℕ}
    (hle : (s.retset 0).distance ≤ dist id) (pos : ℕ) :
    PoolInv neighbors dist nd L p ⟨retset', Function.update s.flags id true, pos⟩ where
  sorted := h.sorted.congr fun i hi => by dsimp only; rw [hsame i hi]
  node i hi := by
    dsimp only
    rw [hsame i hi]
    exact h.node i hi
  closest i hi := by
    dsimp only at hi ⊢
    rw [hsame 0 hL]
    by_cases heq : i = id
    · exact heq ▸ hle
    · rw [Function.update_of_ne heq] at hi
      exact h.closest i hi
  expanded i hi hflag := by
    dsimp only at hflag ⊢
    rw [hsame i hi] at hflag ⊢
    refine (h.expanded i hi hflag).imp_right fun hu u hmem => ?_
    by_cases heq : u = id
    · rw [heq, Function.update_self]
    · rw [Function.update_of_ne heq]
      exact hu u hmem

/-- A closer node is inserted at its place. -/
theorem PoolInv.insert {p : ℕ → Prop} {s : PoolState K} (h : PoolInv neighbors dist nd L p s)
    {id r : ℕ} (hid : id < nd) (hr : r < L) (hbelow : ∀ i < r, (s.retset i).distance ≤ dist id)
    (habove : ∀ i, r ≤ i → i < L → dist id ≤ (s.retset i).distance) (pos : ℕ) :
    PoolInv neighbors dist nd L p
      ⟨insertAt r ⟨id, dist id, true⟩ s.retset, Function.update s.flags id true, pos⟩ where
  sorted := (sortedOn_insertAt h.sorted hr.le hbelow habove).mono (Nat.le_succ L)
  node i hi := by
    dsimp only
    rcases insertAt_cases r (⟨id, dist id, true⟩ : Neighbor K) s.retset (Nat.lt_succ_of_lt hi) hr.le
      with heq | ⟨j, hj, heq⟩
    · rw [heq]
      exact ⟨hid, rfl⟩
    · rw [heq]
      exact h.node j hj
  closest i hi := by
    dsimp only at hi ⊢
    -- the first candidate is the new one, or was first before
    have hfirst : (insertAt r ⟨id, dist id, true⟩ s.retset 0).distance ≤ (s.retset 0).distance ∧
        (insertAt r ⟨id, dist id, true⟩ s.retset 0).distance ≤ dist id := by
      rcases Nat.eq_zero_or_pos r with rfl | hpos
      · rw [insertAt_self]
        exact ⟨habove 0 (le_refl 0) hr, le_refl _⟩
      · rw [insertAt_lt hpos]
        exact ⟨le_refl _, hbelow 0 hpos⟩
    by_cases heq : i = id
    · exact heq ▸ hfirst.2
    · rw [Function.update_of_ne heq] at hi
      exact hfirst.1.trans (h.closest i hi)
  expanded i hi hflag := by
    dsimp only at hflag ⊢
    rcases insertAt_cases r (⟨id, dist id, true⟩ : Neighbor K) s.retset (Nat.lt_succ_of_lt hi) hr.le
      with heq | ⟨j, hj, heq⟩
    · rw [heq] at hflag
      cases hflag
    · rw [heq] at hflag ⊢
      refine (h.expanded j hj hflag).imp_right fun hu u hmem => ?_
      by_cases hue : u = id
      · rw [hue, Function.update_self]
      · rw [Function.update_of_ne hue]
        exact hu u hmem

/-- **One neighbour.** It is evaluated, and the invariant is kept. -/
theorem considerId_inv (hL : 1 ≤ L) {p : ℕ → Prop} {s : PoolState K}
    (h : PoolInv neighbors dist nd L p s) (hpos : s.pos ≤ L) {id : ℕ} (hid : id < nd) :
    PoolInv neighbors dist nd L p (considerId dist L s id) ∧
      Advances nd s (considerId dist L s id) ∧ (considerId dist L s id).flags id = true := by
  unfold considerId
  split
  · next hseen => exact ⟨h, .refl s, hseen⟩
  · next hnew =>
    have hcard := card_unset_update hid (Bool.not_eq_true _ ▸ hnew)
    have hmono : ∀ i, s.flags i = true → Function.update s.flags id true i = true :=
      fun i hi => (update_iff s.flags id i).mpr (Or.inl hi)
    dsimp only
    split
    · next hfar =>
      -- no closer than the last candidate
      refine ⟨h.reject hL (fun _ _ => rfl)
        ((h.sorted 0 (L - 1) (Nat.zero_le _) (by omega)).trans hfar) _,
        ⟨fun _ _ => rfl, le_refl _, hmono, by dsimp only; omega, fun hlt => absurd hlt (lt_irrefl _)⟩,
        Function.update_self ..⟩
    · have hins := insertIntoPool_spec hL h.sorted ⟨id, dist id, true⟩
      generalize insertIntoPool s.retset L ⟨id, dist id, true⟩ = placed at hins ⊢
      cases hins with
      | inserted r hr hbelow habove =>
        refine ⟨h.insert hid hr hbelow habove _, ⟨fun i hi => ?_, ?_, hmono, ?_, fun _ => ?_⟩,
          Function.update_self ..⟩
        · have hir : i < r := by
            dsimp only at hi
            split at hi <;> omega
          exact insertAt_lt hir _ _
        · dsimp only
          split <;> omega
        · dsimp only
          omega
        · dsimp only
          omega
      | rejected addr' r hr hsame hle =>
        refine ⟨h.reject hL hsame hle _, ⟨fun i hi => ?_, ?_, hmono, ?_, fun _ => ?_⟩,
          Function.update_self ..⟩
        · dsimp only at hi
          refine hsame i ?_
          split at hi <;> omega
        · dsimp only
          split <;> omega
        · dsimp only
          omega
        · dsimp only
          omega

/-- All neighbours of a node. -/
theorem considerAll_inv (hL : 1 ≤ L) {p : ℕ → Prop} {ids : List ℕ} (hids : ∀ u ∈ ids, u < nd)
    {s : PoolState K} (h : PoolInv neighbors dist nd L p s) (hpos : s.pos ≤ L) :
    PoolInv neighbors dist nd L p (ids.foldl (considerId dist L) s) ∧
      Advances nd s (ids.foldl (considerId dist L) s) ∧
      ∀ u ∈ ids, (ids.foldl (considerId dist L) s).flags u = true := by
  induction ids generalizing s with
  | nil => exact ⟨h, .refl s, fun u hu => absurd hu List.not_mem_nil⟩
  | cons id ids ih =>
    obtain ⟨h₁, hadv, hflag⟩ := considerId_inv hL h hpos (hids id List.mem_cons_self)
    obtain ⟨h₂, hadv', hflags⟩ := ih (fun u hu => hids u (List.mem_cons_of_mem _ hu)) h₁
      (hadv.pos.trans hpos)
    refine ⟨h₂, hadv.trans hadv', fun u hu => ?_⟩
    rcases List.mem_cons.mp hu with rfl | hu
    · exact hadv'.flags u hflag
    · exact hflags u hu

-- ---------------------------------------------------------------------------
-- The search loop
-- ---------------------------------------------------------------------------

/-- The invariant of the search: the candidates before the current one have been
expanded. -/
structure SearchInv (neighbors : ℕ → List ℕ) (dist : ℕ → K) (nd L : ℕ) (flags₀ : ℕ → Bool)
    (s : PoolState K) : Prop extends PoolInv neighbors dist nd L (fun _ => False) s where
  before : ∀ i < s.pos, i < L → (s.retset i).flag = false
  grown  : ∀ i, flags₀ i = true → s.flags i = true

/-- Unevaluated nodes count more than the places left in the pool, since a new
candidate may take the search back to the front. -/
def searchMeasure (nd L : ℕ) (s : PoolState K) : ℕ :=
  (unset nd s.flags).card * (L + 1) + (L - s.pos)

omit [LinearOrder K] in
/-- Clearing the flag of a candidate changes neither ids nor distances. -/
theorem clearFlag_same (retset : ℕ → Neighbor K) (pos i : ℕ) :
    (Function.update retset pos { retset pos with flag := false } i).id = (retset i).id ∧
      (Function.update retset pos { retset pos with flag := false } i).distance =
        (retset i).distance := by
  by_cases hi : i = pos
  · rw [hi, Function.update_self]
    exact ⟨rfl, rfl⟩
  · rw [Function.update_of_ne hi]
    exact ⟨rfl, rfl⟩

/-- The candidate is expanded: nothing but its flag changes before its neighbours are
considered. -/
theorem SearchInv.start {flags₀ : ℕ → Bool} {s : PoolState K}
    (h : SearchInv neighbors dist nd L flags₀ s) :
    PoolInv neighbors dist nd L (fun id => id = (s.retset s.pos).id)
      ⟨Function.update s.retset s.pos { s.retset s.pos with flag := false }, s.flags, L⟩ := by
  have hsame := clearFlag_same s.retset s.pos
  refine ⟨h.sorted.congr fun i _ => (hsame i).2, fun i hi => ?_, fun id hid => ?_,
    fun i hi hflag => ?_⟩
  · dsimp only
    rw [(hsame i).1, (hsame i).2]
    exact h.node i hi
  · dsimp only
    rw [(hsame 0).2]
    exact h.closest id hid
  · dsimp only at hflag ⊢
    by_cases hk : i = s.pos
    · exact Or.inl (by rw [hk, Function.update_self])
    · rw [Function.update_of_ne hk] at hflag ⊢
      exact Or.inr ((h.expanded i hi hflag).resolve_left id)

/-- What one pass does while `k < L`. -/
def advanced (neighbors : ℕ → List ℕ) (dist : ℕ → K) (L : ℕ) (s : PoolState K) : PoolState K :=
  let r := expand neighbors dist L s
  { r with pos := if r.pos ≤ s.pos then r.pos else s.pos + 1 }

variable (hL : 1 ≤ L) (hnb : ∀ i < nd, ∀ u ∈ neighbors i, u < nd)

include hL hnb

/-- Expanding a candidate. -/
theorem expand_inv {flags₀ : ℕ → Bool} {s : PoolState K}
    (h : SearchInv neighbors dist nd L flags₀ s) (hpos : s.pos < L) :
    PoolInv neighbors dist nd L (fun _ => False) (expand neighbors dist L s) ∧
      (∀ i < (expand neighbors dist L s).pos, i ≤ s.pos →
        ((expand neighbors dist L s).retset i).flag = false) ∧
      (expand neighbors dist L s).pos ≤ L ∧
      (∀ i, s.flags i = true → (expand neighbors dist L s).flags i = true) ∧
      (unset nd (expand neighbors dist L s).flags).card ≤ (unset nd s.flags).card ∧
      ((expand neighbors dist L s).pos < L →
        (unset nd (expand neighbors dist L s).flags).card < (unset nd s.flags).card) := by
  unfold expand
  dsimp only
  split
  · obtain ⟨hinv, hadv, hflags⟩ := considerAll_inv hL (hnb _ (h.node s.pos hpos).1)
      h.start (le_refl L)
    refine ⟨⟨hinv.sorted, hinv.node, hinv.closest, fun i hi hflag => Or.inr ?_⟩, fun i hi hik => ?_,
      hadv.pos, hadv.flags, hadv.fewer, hadv.paid⟩
    · rcases hinv.expanded i hi hflag with heq | hu
      · rw [heq]
        exact hflags
      · exact hu
    · rw [hadv.kept i hi]
      by_cases hk : i = s.pos
      · dsimp only
        rw [hk, Function.update_self]
      · dsimp only
        rw [Function.update_of_ne hk]
        exact h.before i (by omega) (by omega)
  · next hflag =>
    refine ⟨⟨h.sorted, h.node, h.closest, h.expanded⟩, fun i hi hik => ?_, le_refl L,
      fun _ hi => hi, le_refl _, fun hlt => absurd hlt (lt_irrefl L)⟩
    rcases Nat.lt_or_eq_of_le hik with hlt | rfl
    · exact h.before i hlt (by omega)
    · exact Bool.not_eq_true _ ▸ hflag

/-- One pass keeps the invariant and uses up the measure. -/
theorem SearchInv.advance {flags₀ : ℕ → Bool} {s : PoolState K}
    (h : SearchInv neighbors dist nd L flags₀ s) (hpos : s.pos < L) :
    SearchInv neighbors dist nd L flags₀ (advanced neighbors dist L s) ∧
      searchMeasure nd L (advanced neighbors dist L s) < searchMeasure nd L s := by
  obtain ⟨hinv, hbefore, hle, hmono, hfewer, hpaid⟩ := expand_inv hL hnb h hpos
  refine ⟨⟨⟨hinv.sorted, hinv.node, hinv.closest, hinv.expanded⟩, fun i hi _ => ?_,
    fun i hi => hmono i (h.grown i hi)⟩, ?_⟩
  · unfold advanced at hi ⊢
    dsimp only at hi ⊢
    split at hi
    · exact hbefore i hi (by omega)
    · exact hbefore i (by omega) (by omega)
  · unfold searchMeasure advanced
    dsimp only
    split
    · -- back to a new candidate, which has cost an unevaluated node
      have hlt := hpaid (by omega)
      have hmul := Nat.mul_le_mul_right (L + 1) (Nat.succ_le_of_lt hlt)
      rw [Nat.succ_mul] at hmul
      omega
    · have hmul := Nat.mul_le_mul_right (L + 1) hfewer
      omega

/-- **The search loop** ends, and then all candidates have been expanded; so does what
`J` says, if every pass keeps it. -/
theorem searchLoop_returns {flags₀ : ℕ → Bool} (J : PoolState K → Prop)
    (hJ : ∀ s, SearchInv neighbors dist nd L flags₀ s → s.pos < L → J s →
      J (advanced neighbors dist L s)) {s : PoolState K}
    (h : SearchInv neighbors dist nd L flags₀ s) (hs : J s) :
    ∃ s', Returns (loop (searchStep neighbors dist L) s) s' ∧
      SearchInv neighbors dist nd L flags₀ s' ∧ (∀ i < L, (s'.retset i).flag = false) ∧ J s' := by
  refine loop_returns (fun s => SearchInv neighbors dist nd L flags₀ s ∧ J s) (searchMeasure nd L)
    (fun s' => SearchInv neighbors dist nd L flags₀ s' ∧ (∀ i < L, (s'.retset i).flag = false) ∧ J s')
    (fun s hs => ?_) ⟨h, hs⟩
  unfold searchStep
  by_cases hpos : s.pos < L
  · rw [if_pos hpos]
    obtain ⟨hinv, hlt⟩ := hs.1.advance hL hnb hpos
    exact Or.inl ⟨_, returns_pure _, ⟨hinv, hJ s hs.1 hpos hs.2⟩, hlt⟩
  · rw [if_neg hpos]
    exact Or.inr ⟨s, returns_pure _, hs.1, fun i hi => hs.1.before i (by omega) hi, hs.2⟩

end PoolInvariant

-- ---------------------------------------------------------------------------
-- A whole search
-- ---------------------------------------------------------------------------

section WholeSearch

variable {K V : Type} [LinearOrder K] [Zero K]

/-- The initial pool holds the initial candidates, sorted. -/
theorem initPool_spec (S : Sorting K) (dist : ℕ → K) (ids : List ℕ) : ∃ l : List (Neighbor K),
    l.Perm (ids.map fun id => ⟨id, dist id, true⟩) ∧
      l.Pairwise (fun a b => a.distance ≤ b.distance) ∧ l.length = ids.length ∧
      ∀ i (hi : i < l.length), initPool S dist ids i = l[i] :=
  ⟨S.sort (ids.map fun id => ⟨id, dist id, true⟩), S.perm _, S.sorted _,
    by rw [(S.perm _).length_eq, List.length_map], fun i hi => List.getD_eq_getElem _ _ hi⟩

/-- The sorted initial candidates. -/
theorem initPool_inv (S : Sorting K) (neighbors : ℕ → List ℕ) (dist : ℕ → K) {nd L : ℕ}
    {first : List ℕ} {init : FillState} (h : FillInv nd L first init)
    (hlen : init.init_ids.length = L) :
    SearchInv neighbors dist nd L init.flags ⟨initPool S dist init.init_ids, init.flags, 0⟩ := by
  obtain ⟨l, hperm, hascending, hl, hget⟩ := initPool_spec S dist init.init_ids
  rw [hlen] at hl
  -- every candidate is one of the initial ids
  have hcand : ∀ i < L, ∃ id ∈ init.init_ids,
      initPool S dist init.init_ids i = ⟨id, dist id, true⟩ := by
    intro i hi
    rw [hget i (hl ▸ hi)]
    obtain ⟨id, hid, heq⟩ := List.mem_map.mp (hperm.mem_iff.mp (List.getElem_mem (hl ▸ hi)))
    exact ⟨id, hid, heq.symm⟩
  have hsorted : SortedOn Neighbor.distance L (initPool S dist init.init_ids) := by
    intro i j hij hj
    rcases Nat.lt_or_eq_of_le hij with hlt | rfl
    · rw [hget i (by omega), hget j (hl ▸ hj)]
      exact List.pairwise_iff_getElem.mp hascending i j _ _ hlt
    · exact le_refl _
  refine ⟨⟨hsorted, fun i hi => ?_, fun id hid => ?_, fun i hi hflag => ?_⟩,
    fun i hi => absurd hi (Nat.not_lt_zero i), fun _ hi => hi⟩
  · obtain ⟨id, hid, heq⟩ := hcand i hi
    dsimp only
    rw [heq]
    exact ⟨h.lt id hid, rfl⟩
  · have hmem : (⟨id, dist id, true⟩ : Neighbor K) ∈ l :=
      hperm.mem_iff.mpr (List.mem_map_of_mem ((h.flags id).mp hid))
    obtain ⟨j, hj, heq⟩ := List.mem_iff_getElem.mp hmem
    have hle := hsorted 0 j (Nat.zero_le j) (hl ▸ hj)
    rw [hget j hj, heq] at hle
    exact hle
  · obtain ⟨id, -, heq⟩ := hcand i hi
    dsimp only at hflag
    rw [heq] at hflag
    cases hflag

/-- The first id returned is a node no farther than any node that has been
evaluated, among them the first `L` neighbours of the entry point and all
neighbours of the candidates left in the pool. -/
structure ClosestEvaluated (neighbors : ℕ → List ℕ) (dist : ℕ → K) (nd L : ℕ) (first : List ℕ)
    (res : SearchResult K) : Prop where
  head    : ∃ rest, res.indices = (res.retset 0).id :: rest
  lt      : (res.retset 0).id < nd
  initial : ∀ u ∈ first.take L, res.flags u = true
  linked  : ∀ i < L, ∀ u ∈ neighbors (res.retset i).id, res.flags u = true
  closest : ∀ u, res.flags u = true → dist (res.retset 0).id ≤ dist u

/-- From the initial candidates on, every search ends with the closest evaluated
node in front. -/
theorem searchFrom_returns (S : Sorting K) {neighbors : ℕ → List ℕ} (dist : ℕ → K) {nd L k : ℕ}
    (hnb : ∀ i < nd, ∀ u ∈ neighbors i, u < nd) (hL : 1 ≤ L) (hk : 1 ≤ k) (hkL : k ≤ L + 1)
    {first : List ℕ} {init : FillState} (h : FillInv nd L first init)
    (hlen : init.init_ids.length = L) :
    ∃ res, ClosestEvaluated neighbors dist nd L first res ∧
      ∃ s, Returns (loop (searchStep neighbors dist L)
          ⟨initPool S dist init.init_ids, init.flags, 0⟩) s ∧
        Returns (writeIndices L k s) res := by
  obtain ⟨s, hret, hinv, hdone, -⟩ := searchLoop_returns hL hnb (fun _ => True)
    (fun _ _ _ _ => trivial) (initPool_inv S neighbors dist h hlen) trivial
  refine ⟨⟨(List.range k).map fun i => (s.retset i).id, s.retset, s.flags⟩, ?_, s, hret, ?_⟩
  · refine ⟨?_, (hinv.node 0 hL).1, fun u hu => ?_, fun i hi => ?_, fun u hu => ?_⟩
    · obtain ⟨k, rfl⟩ := Nat.exists_eq_succ_of_ne_zero (show k ≠ 0 by omega)
      exact ⟨_, by dsimp only; rw [List.range_succ_eq_map, List.map_cons]⟩
    · exact hinv.grown u ((h.flags u).mpr (h.first.subset hu))
    · exact (hinv.expanded i hi (hdone i hi)).resolve_left id
    · rw [← (hinv.node 0 hL).2]
      exact hinv.closest u hu
  · rw [writeIndices, if_neg (by omega)]
    exact returns_pure _

end WholeSearch

end Mqo.Search.Nsg
