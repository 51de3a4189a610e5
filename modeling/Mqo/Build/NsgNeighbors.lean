import Mqo.Search.Nsg

/-!
# MQO — the searches that build an NSG graph

Both `get_neighbors` of `nsg/src/index_nsg.cpp`. They are searches like `Search`,
and besides their pool they collect in `fullset` every node that they evaluate;
the second one, which `Link` calls with flags it has reset, also collects the
initial candidates.

* `considerFull_sim`     — the pool of such a search is that of a plain one;
* `FullInv.consider`     — what is collected are distinct nodes with their distances;
* `getNeighbors_returns` — the searches end, and what they collect.
-/

namespace Mqo.Build.Nsg

open Prog SortedArray Flags Search.Nsg

variable {K V : Type} [LinearOrder K] [Zero K]

-- ---------------------------------------------------------------------------
-- The searches
-- ---------------------------------------------------------------------------

/-- The state of the expansions: `len` is `L`, which the source increases up to the size
of `retset` less one. -/
structure FullState (K : Type) extends PoolState K where
  len : ℕ
  fullset : List (Neighbor K)

omit [Zero K] in
/-- One neighbour of the node being expanded; `size` is `retset.size()`. -/
def considerFull (dist : ℕ → K) (size : ℕ) (s : FullState K) (id : ℕ) : FullState K :=
  if s.flags id then s
  else
    let flags := Function.update s.flags id true
    let nn : Neighbor K := ⟨id, dist id, true⟩
    let fullset := s.fullset ++ [nn]
    if (s.retset (s.len - 1)).distance ≤ dist id then { s with flags := flags, fullset := fullset }
    else
      let r := insertIntoPool s.retset s.len nn
      { retset := r.1
        flags := flags
        pos := if r.2 < s.pos then r.2 else s.pos
        len := if s.len + 1 < size then s.len + 1 else s.len
        fullset := fullset }

omit [Zero K] in
/-- Expanding the node at position `k`, if it has not been. -/
def expandFull (neighbors : ℕ → List ℕ) (dist : ℕ → K) (size : ℕ) (s : FullState K) : FullState K :=
  let nn := s.retset s.pos
  if nn.flag then
    (neighbors nn.id).foldl (considerFull dist size)
      { s with retset := Function.update s.retset s.pos { nn with flag := false }, pos := s.len }
  else { s with pos := s.len }

omit [Zero K] in
/-- One pass of `while (k < (int)L)`; `pos` is `k`. -/
def fullStep (neighbors : ℕ → List ℕ) (dist : ℕ → K) (size : ℕ) (s : FullState K) :
    Run (FullState K ⊕ FullState K) :=
  if s.pos < s.len then
    let r := expandFull neighbors dist size s
    pure (.inl { r with pos := if r.pos ≤ s.pos then r.pos else s.pos + 1 })
  else pure (.inr s)

/-- What a search leaves: `retset`, `fullset`, `flags`, and the values `rand()` still has to
return. -/
structure Collected (K : Type) where
  retset : ℕ → Neighbor K
  fullset : List (Neighbor K)
  flags : ℕ → Bool
  rng : ℕ → ℕ

/-- The two functions; `initial` tells whether the initial candidates are collected. -/
def getNeighborsWith (initial : Bool) (index : IndexNSG) (S : Sorting K) (D : Distance V K)
    (data : ℕ → V) (query : V) (L : ℕ) (rng : ℕ → ℕ) : Run (Collected K) := do
  let init ← fillInit index.nd L (index.final_graph index.ep) rng
  let init_ids := init.init_ids.filter (· < index.nd)
  let dist := fun id => D.compare (data id) query
  let fullset := if initial then init_ids.map fun id => ⟨id, dist id, true⟩ else []
  let s ← loop (fullStep index.final_graph (fun id => D.compare query (data id)) (L + 1))
    ⟨⟨initPool S dist init_ids, init.flags, 0⟩, init_ids.length, fullset⟩
  pure ⟨s.retset, s.fullset, s.flags, init.rng⟩

/-- `get_neighbors(query, parameter, retset, fullset)` -/
def getNeighbors (index : IndexNSG) (S : Sorting K) (D : Distance V K) (data : ℕ → V) (query : V)
    (L : ℕ) (rng : ℕ → ℕ) : Run (Collected K) :=
  getNeighborsWith false index S D data query L rng

/-- `get_neighbors(query, parameter, flags, retset, fullset)` -/
def getNeighborsFlags (index : IndexNSG) (S : Sorting K) (D : Distance V K) (data : ℕ → V)
    (query : V) (L : ℕ) (rng : ℕ → ℕ) : Run (Collected K) :=
  getNeighborsWith true index S D data query L rng

-- ---------------------------------------------------------------------------
-- The pool is that of a plain search
-- ---------------------------------------------------------------------------

section Expansions

variable {neighbors : ℕ → List ℕ} {dist : ℕ → K} {nd L : ℕ} {others : List ℕ}
  {first : List (Neighbor K)}

/-- The state of a plain search inside the state of a collecting one. -/
def Extends (L : ℕ) (s : PoolState K) (t : FullState K) : Prop := t.toPoolState = s ∧ t.len = L

omit [Zero K] in
theorem considerFull_sim {s : PoolState K} {t : FullState K} (h : Extends L s t) (id : ℕ) :
    Extends L (considerId dist L s id) (considerFull dist (L + 1) t id) := by
  obtain ⟨rfl, hlen⟩ := h
  unfold considerId considerFull
  dsimp only
  rw [hlen]
  split
  · exact ⟨rfl, hlen⟩
  · split
    · exact ⟨rfl, rfl⟩
    · exact ⟨rfl, if_neg (lt_irrefl _)⟩

omit [Zero K] in
theorem considerAllFull_sim (ids : List ℕ) {s : PoolState K} {t : FullState K}
    (h : Extends L s t) :
    Extends L (ids.foldl (considerId dist L) s) (ids.foldl (considerFull dist (L + 1)) t) := by
  induction ids generalizing s t with
  | nil => exact h
  | cons id ids ih => exact ih (considerFull_sim h id)

omit [Zero K] in
theorem expandFull_sim {s : PoolState K} {t : FullState K} (h : Extends L s t) :
    Extends L (expand neighbors dist L s) (expandFull neighbors dist (L + 1) t) := by
  obtain ⟨rfl, hlen⟩ := h
  unfold expand expandFull
  dsimp only
  split
  · exact considerAllFull_sim _ ⟨by rw [hlen], hlen⟩
  · exact ⟨by rw [hlen], hlen⟩

-- ---------------------------------------------------------------------------
-- What is collected
-- ---------------------------------------------------------------------------

/-- Nodes with their distances, from `first` on; a node is flagged if it is one of `others`
or has been collected. -/
structure FullInv (dist : ℕ → K) (nd : ℕ) (others : List ℕ) (first : List (Neighbor K))
    (t : FullState K) : Prop where
  entry : ∀ nn ∈ t.fullset, nn.id < nd ∧ nn.distance = dist nn.id
  flags : ∀ id, t.flags id = true ↔ id ∈ others ∨ id ∈ t.fullset.map Neighbor.id
  first : first <+: t.fullset

omit [LinearOrder K] [Zero K] in
/-- Only the flags and what has been collected count. -/
theorem FullInv.congr {t t' : FullState K} (h : FullInv dist nd others first t)
    (hflags : t'.flags = t.flags) (hfull : t'.fullset = t.fullset) : FullInv dist nd others first t' where
  entry := by
    rw [hfull]
    exact h.entry
  flags id := by
    rw [hflags, hfull]
    exact h.flags id
  first := hfull ▸ h.first

omit [LinearOrder K] [Zero K] in
/-- A node that is flagged and collected. -/
theorem FullInv.collect {t t' : FullState K} (h : FullInv dist nd others first t)
    {id : ℕ} (hid : id < nd) (hflags : t'.flags = Function.update t.flags id true)
    (hfull : t'.fullset = t.fullset ++ [⟨id, dist id, true⟩]) : FullInv dist nd others first t' where
  entry nn hnn := by
    rw [hfull, List.mem_append, List.mem_singleton] at hnn
    rcases hnn with hnn | rfl
    · exact h.entry nn hnn
    · exact ⟨hid, rfl⟩
  flags u := by
    rw [hflags, update_iff, h.flags, hfull, List.map_append, List.mem_append, or_assoc,
      List.map_singleton, List.mem_singleton]
  first := h.first.trans (hfull ▸ List.prefix_append _ _)

omit [Zero K] in
/-- **One neighbour.** -/
theorem FullInv.consider {t : FullState K} (h : FullInv dist nd others first t)
    {id : ℕ} (hid : id < nd) (size : ℕ) : FullInv dist nd others first (considerFull dist size t id) := by
  unfold considerFull
  split
  · exact h
  · dsimp only
    split
    · exact h.collect hid rfl rfl
    · exact h.collect hid rfl rfl

omit [Zero K] in
theorem FullInv.considerAll {ids : List ℕ} (hids : ∀ u ∈ ids, u < nd)
    {t : FullState K} (h : FullInv dist nd others first t) (size : ℕ) :
    FullInv dist nd others first (ids.foldl (considerFull dist size) t) := by
  induction ids generalizing t with
  | nil => exact h
  | cons id ids ih =>
    exact ih (fun u hu => hids u (List.mem_cons_of_mem _ hu))
      (h.consider (hids id List.mem_cons_self) size)

omit [Zero K] in
theorem FullInv.expand (hnb : ∀ i < nd, ∀ u ∈ neighbors i, u < nd)
    {t : FullState K} (h : FullInv dist nd others first t) (hnode : (t.retset t.pos).id < nd) (size : ℕ) :
    FullInv dist nd others first (expandFull neighbors dist size t) := by
  unfold expandFull
  dsimp only
  split
  · have hstart : FullInv dist nd others first { t with
        retset := Function.update t.retset t.pos { t.retset t.pos with flag := false }
        pos := t.len } := h.congr rfl rfl
    exact hstart.considerAll (hnb _ hnode) size
  · exact h.congr rfl rfl

omit [Zero K] in
/-- **The expansions** end; the pool is that of a plain search, and what has been evaluated
is collected. -/
theorem fullLoop_returns (hL : 1 ≤ L) (hnb : ∀ i < nd, ∀ u ∈ neighbors i, u < nd)
    {flags₀ : ℕ → Bool} {s : PoolState K} (hs : SearchInv neighbors dist nd L flags₀ s)
    {t : FullState K} (hst : Extends L s t) (ht : FullInv dist nd others first t) :
    ∃ t', Returns (loop (fullStep neighbors dist (L + 1)) t) t' ∧
      SearchInv neighbors dist nd L flags₀ t'.toPoolState ∧ FullInv dist nd others first t' := by
  refine loop_returns (fun t => ∃ s, SearchInv neighbors dist nd L flags₀ s ∧ Extends L s t ∧
      FullInv dist nd others first t) (fun t => searchMeasure nd L t.toPoolState)
    (fun t' => SearchInv neighbors dist nd L flags₀ t'.toPoolState ∧ FullInv dist nd others first t')
    ?_ ⟨s, hs, hst, ht⟩
  rintro t ⟨s, hs, ⟨rfl, hlen⟩, ht⟩
  unfold fullStep
  by_cases hpos : t.pos < t.len
  · rw [if_pos hpos]
    have hpos' : t.pos < L := hlen ▸ hpos
    obtain ⟨hnext, hlt⟩ := hs.advance hL hnb hpos'
    obtain ⟨hpool, hlen'⟩ : Extends L (expand neighbors dist L t.toPoolState)
        (expandFull neighbors dist (L + 1) t) := expandFull_sim ⟨rfl, hlen⟩
    have hsame : advanced neighbors dist L t.toPoolState = { expandFull neighbors dist (L + 1) t with
        pos := if (expandFull neighbors dist (L + 1) t).pos ≤ t.pos then
          (expandFull neighbors dist (L + 1) t).pos else t.pos + 1 } := by
      rw [advanced, ← hpool]
    refine Or.inl ⟨_, returns_pure _, ⟨_, hnext, ⟨hsame.symm, hlen'⟩,
      (ht.expand hnb (hs.node t.pos hpos').1 (L + 1)).congr rfl rfl⟩, ?_⟩
    rw [hsame] at hlt
    exact hlt
  · rw [if_neg hpos]
    exact Or.inr ⟨t, returns_pure _, hs, ht⟩

end Expansions

-- ---------------------------------------------------------------------------
-- A whole search
-- ---------------------------------------------------------------------------

/-- What a search leaves: its candidates are nodes, `fullset` holds nodes with their
distances, and `collected` are the flagged ones that it must hold. -/
structure CollectedNodes (dist : ℕ → K) (nd L : ℕ) (c : Collected K) : Prop where
  node  : ∀ i < L, (c.retset i).id < nd
  entry : ∀ nn ∈ c.fullset, nn.id < nd ∧ nn.distance = dist nn.id
  flags : ∀ nn ∈ c.fullset, c.flags nn.id = true

/-- **A search while building** ends where `rand()` covers all ids, and leaves nodes with
their distances. If it collects the initial candidates, then all that it has flagged are
collected, and those are at least `L`. -/
theorem getNeighborsWith_returns (initial : Bool) (index : IndexNSG) (S : Sorting K)
    (D : Distance V K) (data : ℕ → V) (query : V) {L : ℕ} (hL : 1 ≤ L) (hLnd : L ≤ index.nd)
    {rng : ℕ → ℕ} (hrng : Covers index.nd rng) :
    ∃ c, Returns (getNeighborsWith initial index S D data query L rng) c ∧
      CollectedNodes (D.compare query ∘ data) index.nd L c ∧ Covers index.nd c.rng ∧
      (initial = true → L ≤ c.fullset.length ∧
        ∀ id, c.flags id = true → id ∈ c.fullset.map Neighbor.id) := by
  have hep := index.graph_lt _ index.ep_lt
  obtain ⟨init, hfill, hcovers⟩ := fillInit_returns hLnd hep hrng
  obtain ⟨hinit, hlen, -⟩ := fillInit_inv (Nat.zero_lt_of_lt index.ep_lt) hep hfill
  have hfilter : init.init_ids.filter (· < index.nd) = init.init_ids :=
    List.filter_eq_self.mpr fun id hid => decide_eq_true (hinit.lt id hid)
  have hcomm : (fun id => D.compare (data id) query) = D.compare query ∘ data :=
    funext fun id => D.compare_comm _ _
  let fullset : List (Neighbor K) :=
    if initial then init.init_ids.map fun id => ⟨id, D.compare (data id) query, true⟩ else []
  -- nothing else is flagged at the start if the initial candidates are collected
  let others := if initial then [] else init.init_ids
  have hfull : FullInv (D.compare query ∘ data) index.nd others fullset
      ⟨⟨initPool S (D.compare query ∘ data) init.init_ids, init.flags, 0⟩, L, fullset⟩ := by
    cases initial with
    | false =>
      exact ⟨fun nn hnn => absurd hnn List.not_mem_nil, fun id => (hinit.flags id).trans (by
        simp [others, fullset]), List.prefix_refl _⟩
    | true =>
      refine ⟨fun nn hnn => ?_, fun id => (hinit.flags id).trans ?_, List.prefix_refl _⟩
      · obtain ⟨id, hid, rfl⟩ := List.mem_map.mp hnn
        exact ⟨hinit.lt id hid, congrFun hcomm id⟩
      · simp [others, fullset]
  obtain ⟨t, hret, hpool, hcollected⟩ := fullLoop_returns hL index.graph_lt
    (initPool_inv S index.final_graph (D.compare query ∘ data) hinit hlen) ⟨rfl, rfl⟩ hfull
  refine ⟨⟨t.retset, t.fullset, t.flags, init.rng⟩, ?_,
    ⟨fun i hi => (hpool.node i hi).1, hcollected.entry, fun nn hnn => (hcollected.flags _).mpr
      (Or.inr (List.mem_map_of_mem hnn))⟩, hcovers, fun hinitial => ?_⟩
  · refine hfill.bind ?_
    dsimp only
    rw [hfilter, hcomm, hlen]
    exact hret.bind (returns_pure _)
  · subst hinitial
    refine ⟨?_, fun id hid => ((hcollected.flags id).mp hid).resolve_left List.not_mem_nil⟩
    have hle : (init.init_ids.map _).length ≤ t.fullset.length := hcollected.first.length_le
    rw [List.length_map, hlen] at hle
    exact hle

end Mqo.Build.Nsg
