import Mathlib.Algebra.BigOperators.Ring.Finset
import Mathlib.Algebra.Order.Ring.Defs
import Mqo.Search.NsgRecall

/-!
# MQO — the packed search agrees with the plain one

`SearchWithOptGraph_mine` ranks the nodes by `norm(x) - 2 <q, x>` instead of the squared
distance to `q`: for exact numbers the two differ by the square norm of the query, which is
the same for all nodes. A search only compares distances, so it goes the same way for
both, as it does for any two distances of which one grows with the other.

* `insertIntoPool_matches`, `expand_matches` — insertion and expansion compare only;
* `searchLoop_matches` — so does the whole loop;
* `packed_iff_plain`  — the two searches return the same ids, from the same draws;
* `searchWithOptGraph_agrees` — so they do for squared distances of exact vectors.
-/

namespace Mqo.Search.Nsg

open Prog SortedArray

variable {K : Type} [LinearOrder K] {f : K → K}

-- ---------------------------------------------------------------------------
-- Pools that match
-- ---------------------------------------------------------------------------

/-- The candidate with another distance. -/
def Neighbor.mapDistance (f : K → K) (nn : Neighbor K) : Neighbor K :=
  ⟨nn.id, f nn.distance, nn.flag⟩

omit [LinearOrder K] in
@[simp] theorem Neighbor.mapDistance_id (f : K → K) (nn : Neighbor K) :
    (nn.mapDistance f).id = nn.id := rfl

/-- The sorting does the same with the distances replaced. -/
def Sorting.Commutes (S : Sorting K) (f : K → K) : Prop :=
  ∀ l, S.sort (l.map (Neighbor.mapDistance f)) = (S.sort l).map (Neighbor.mapDistance f)

/-- `std::sort` only compares: it does the same for distances in the same order. -/
def Sorting.ComparesOnly (S : Sorting K) : Prop := ∀ f : K → K, StrictMono f → S.Commutes f

omit [LinearOrder K] in
theorem map_mapDistance_id (l : List (Neighbor K)) : l.map (Neighbor.mapDistance id) = l :=
  List.map_id' l

theorem Sorting.commutes_id (S : Sorting K) : S.Commutes id := fun l => by
  rw [map_mapDistance_id, map_mapDistance_id]

/-- The second pool has the candidates of the first one, with their distances replaced; of
the spare place only the id is read. -/
structure Matches (f : K → K) (L : ℕ) (retset retset' : ℕ → Neighbor K) : Prop where
  front : ∀ i < L, retset' i = (retset i).mapDistance f
  id    : ∀ i, (retset' i).id = (retset i).id

section Pools

variable {L : ℕ} {addr addr' : ℕ → Neighbor K} (hf : StrictMono f)

omit [LinearOrder K] in
theorem Matches.update (h : Matches f L addr addr') (i : ℕ) (nn : Neighbor K) :
    Matches f L (Function.update addr i nn) (Function.update addr' i (nn.mapDistance f)) where
  front j hj := by
    by_cases hji : j = i
    · rw [hji, Function.update_self, Function.update_self]
    · rw [Function.update_of_ne hji, Function.update_of_ne hji, h.front j hj]
  id j := by
    by_cases hji : j = i
    · rw [hji, Function.update_self, Function.update_self]
      rfl
    · rw [Function.update_of_ne hji, Function.update_of_ne hji, h.id j]

omit [LinearOrder K] in
theorem Matches.insertAt (h : Matches f L addr addr') {r : ℕ} (hr : r < L) (nn : Neighbor K) :
    Matches f L (insertAt r nn addr) (SortedArray.insertAt r (nn.mapDistance f) addr') where
  front j hj := by
    rcases Nat.lt_trichotomy j r with hlt | rfl | hgt
    · rw [insertAt_lt hlt, insertAt_lt hlt, h.front j hj]
    · rw [insertAt_self, insertAt_self]
    · rw [insertAt_gt hgt, insertAt_gt hgt, h.front (j - 1) (by omega)]
  id j := by
    rcases Nat.lt_trichotomy j r with hlt | rfl | hgt
    · rw [insertAt_lt hlt, insertAt_lt hlt, h.id j]
    · rw [insertAt_self, insertAt_self]
      rfl
    · rw [insertAt_gt hgt, insertAt_gt hgt, h.id (j - 1)]

/-- The binary search stays inside its interval. -/
theorem bisect_le (addr : ℕ → Neighbor K) (nn : Neighbor K) (fuel : ℕ) {left right : ℕ}
    (h : left ≤ right) :
    (bisect addr nn fuel left right).1 ≤ right ∧ (bisect addr nn fuel left right).2 ≤ right := by
  induction fuel generalizing left right with
  | zero => exact ⟨h, le_refl _⟩
  | succ fuel ih =>
    rw [bisect]
    split
    · dsimp only
      split
      · obtain ⟨h1, h2⟩ := ih (show left ≤ (left + right) / 2 by omega)
        exact ⟨by omega, by omega⟩
      · exact ih (by omega)
    · exact ⟨h, le_refl _⟩

include hf

theorem Matches.lt_iff (h : Matches f L addr addr') {i : ℕ} (hi : i < L) (nn : Neighbor K) :
    (nn.mapDistance f).distance < (addr' i).distance ↔ nn.distance < (addr i).distance := by
  rw [h.front i hi]
  exact hf.lt_iff_lt

theorem Matches.gt_iff (h : Matches f L addr addr') {i : ℕ} (hi : i < L) (nn : Neighbor K) :
    (addr' i).distance < (nn.mapDistance f).distance ↔ (addr i).distance < nn.distance := by
  rw [h.front i hi]
  exact hf.lt_iff_lt

theorem bisect_matches (h : Matches f L addr addr') (nn : Neighbor K) (fuel : ℕ) {left right : ℕ}
    (hright : right < L) :
    bisect addr' (nn.mapDistance f) fuel left right = bisect addr nn fuel left right := by
  induction fuel generalizing left right with
  | zero => rfl
  | succ fuel ih =>
    rw [bisect, bisect]
    split
    · next hlt =>
      dsimp only
      have hmid : (left + right) / 2 < L := by omega
      rw [ih hmid, ih hright]
      exact if_congr (h.lt_iff hf hmid nn) rfl rfl
    · rfl

theorem checkEqualId_matches (h : Matches f L addr addr') (nn : Neighbor K) {left : ℕ}
    (hleft : left < L) : checkEqualId addr' (nn.mapDistance f) left = checkEqualId addr nn left := by
  induction left with
  | zero => rfl
  | succ left ih =>
    rw [checkEqualId, checkEqualId, ih (by omega), h.id]
    exact if_congr (h.gt_iff hf hleft nn) rfl rfl

/-- **Insertion** goes to the same place. -/
theorem insertIntoPool_matches (hL : 1 ≤ L) (h : Matches f L addr addr') (nn : Neighbor K) :
    Matches f L (insertIntoPool addr L nn).1 (insertIntoPool addr' L (nn.mapDistance f)).1 ∧
      (insertIntoPool addr' L (nn.mapDistance f)).2 = (insertIntoPool addr L nn).2 := by
  have hlast : L - 1 < L := Nat.sub_one_lt (by omega)
  obtain ⟨hleft, hright⟩ := bisect_le addr nn L (Nat.zero_le (L - 1))
  unfold insertIntoPool
  rw [bisect_matches hf h nn L hlast]
  dsimp only
  rw [checkEqualId_matches hf h nn (by omega)]
  by_cases hfirst : nn.distance < (addr 0).distance
  · rw [if_pos hfirst, if_pos ((h.lt_iff hf hL nn).mpr hfirst)]
    exact ⟨h.insertAt hL nn, rfl⟩
  rw [if_neg hfirst, if_neg (mt (h.lt_iff hf hL nn).mp hfirst)]
  by_cases hbehind : (addr (L - 1)).distance < nn.distance
  · rw [if_pos hbehind, if_pos ((h.gt_iff hf hlast nn).mpr hbehind)]
    exact ⟨h.update L nn, rfl⟩
  rw [if_neg hbehind, if_neg (mt (h.gt_iff hf hlast nn).mp hbehind)]
  cases checkEqualId addr nn (bisect addr nn L 0 (L - 1)).1 with
  | none => exact ⟨h, rfl⟩
  | some left =>
    dsimp only
    rw [h.id, h.id, Neighbor.mapDistance_id]
    by_cases hequal : (addr left).id = nn.id ∨ (addr (bisect addr nn L 0 (L - 1)).2).id = nn.id
    · rw [if_pos hequal, if_pos hequal]
      exact ⟨h, rfl⟩
    · rw [if_neg hequal, if_neg hequal]
      exact ⟨h.insertAt (by omega) nn, rfl⟩

end Pools

-- ---------------------------------------------------------------------------
-- Searches that match
-- ---------------------------------------------------------------------------

/-- Two states of the search with the same candidates. -/
structure MatchesState (f : K → K) (L : ℕ) (s s' : PoolState K) : Prop where
  retset : Matches f L s.retset s'.retset
  flags  : s'.flags = s.flags
  pos    : s'.pos = s.pos

section Loop

variable {neighbors neighbors' : ℕ → List ℕ} {dist dist' : ℕ → K} {nd L : ℕ}
  (hf : StrictMono f) (hL : 1 ≤ L) (hdist : ∀ i < nd, dist' i = f (dist i))

include hf hL hdist

theorem considerId_matches {s s' : PoolState K} (h : MatchesState f L s s') {id : ℕ} (hid : id < nd) :
    MatchesState f L (considerId dist L s id) (considerId dist' L s' id) := by
  have hlast : L - 1 < L := Nat.sub_one_lt (by omega)
  have hle : (s'.retset (L - 1)).distance ≤ dist' id ↔ (s.retset (L - 1)).distance ≤ dist id := by
    rw [h.retset.front _ hlast, hdist id hid]
    exact hf.le_iff_le
  obtain ⟨hins, hplace⟩ := insertIntoPool_matches hf hL h.retset ⟨id, dist id, true⟩
  rw [show Neighbor.mapDistance f ⟨id, dist id, true⟩ = ⟨id, dist' id, true⟩ by
    rw [hdist id hid]; rfl] at hins hplace
  unfold considerId
  rw [h.flags]
  by_cases hflag : s.flags id = true
  · rw [if_pos hflag, if_pos hflag]
    exact h
  rw [if_neg hflag, if_neg hflag]
  dsimp only
  by_cases hfar : (s.retset (L - 1)).distance ≤ dist id
  · rw [if_pos hfar, if_pos (hle.mpr hfar)]
    exact ⟨h.retset, rfl, h.pos⟩
  · rw [if_neg hfar, if_neg (mt hle.mp hfar)]
    exact ⟨hins, rfl, by dsimp only; rw [hplace, h.pos]⟩

theorem considerAll_matches {ids : List ℕ} (hids : ∀ id ∈ ids, id < nd) {s s' : PoolState K}
    (h : MatchesState f L s s') :
    MatchesState f L (ids.foldl (considerId dist L) s) (ids.foldl (considerId dist' L) s') := by
  induction ids generalizing s s' with
  | nil => exact h
  | cons id ids ih =>
    exact ih (fun u hu => hids u (List.mem_cons_of_mem _ hu))
      (considerId_matches hf hL hdist h (hids id List.mem_cons_self))

variable (hnb : ∀ i < nd, ∀ u ∈ neighbors i, u < nd) (hsame : ∀ i < nd, neighbors' i = neighbors i)

include hnb hsame

theorem expand_matches {s s' : PoolState K} (h : MatchesState f L s s') (hpos : s.pos < L)
    (hnode : (s.retset s.pos).id < nd) :
    MatchesState f L (expand neighbors dist L s) (expand neighbors' dist' L s') := by
  unfold expand
  dsimp only
  rw [h.pos, h.retset.front _ hpos]
  change MatchesState f L _ (if (s.retset s.pos).flag = true then _ else _)
  split
  · rw [show ((s.retset s.pos).mapDistance f).id = (s.retset s.pos).id from rfl, hsame _ hnode]
    exact considerAll_matches hf hL hdist (hnb _ hnode)
      ⟨h.retset.update s.pos { s.retset s.pos with flag := false }, h.flags, rfl⟩
  · exact ⟨h.retset, h.flags, rfl⟩

/-- **The search loops** go the same way. -/
theorem searchLoop_matches {flags₀ : ℕ → Bool} {s s' r : PoolState K}
    (hs : SearchInv neighbors dist nd L flags₀ s) (h : MatchesState f L s s')
    (hret : Returns (loop (searchStep neighbors dist L) s) r) :
    ∃ r', Returns (loop (searchStep neighbors' dist' L) s') r' ∧ MatchesState f L r r' := by
  refine loop_sim (fun s s' => SearchInv neighbors dist nd L flags₀ s ∧ MatchesState f L s s')
    (fun r r' => MatchesState f L r r') (fun s s' t ⟨hs, h⟩ ht => ?_) (fun s s' t ⟨hs, h⟩ ht => ?_)
    ⟨hs, h⟩ hret
  · unfold searchStep at ht ⊢
    rw [h.pos]
    by_cases hpos : s.pos < L
    · rw [if_pos hpos] at ht ⊢
      obtain rfl := Sum.inl.inj ht.of_pure
      obtain ⟨hinv, -⟩ := hs.advance hL hnb hpos
      have hexp := expand_matches hf hL hdist hnb hsame h hpos (hs.node s.pos hpos).1
      exact ⟨_, returns_pure _, hinv, hexp.retset, hexp.flags, by dsimp only; rw [hexp.pos]⟩
    · rw [if_neg hpos] at ht
      cases ht.of_pure
  · unfold searchStep at ht ⊢
    rw [h.pos]
    by_cases hpos : s.pos < L
    · rw [if_pos hpos] at ht
      cases ht.of_pure
    · rw [if_neg hpos] at ht ⊢
      obtain rfl := Sum.inr.inj ht.of_pure
      exact ⟨s', returns_pure _, h⟩

omit hf hL hnb hsame in
theorem initPool_matches [Zero K] {S : Sorting K} (hS : S.Commutes f) {ids : List ℕ}
    (hids : ∀ id ∈ ids, id < nd) (hlen : ids.length = L) :
    Matches f L (initPool S dist ids) (initPool S dist' ids) := by
  have hmap : (ids.map fun id => (⟨id, dist' id, true⟩ : Neighbor K)) =
      (ids.map fun id => ⟨id, dist id, true⟩).map (Neighbor.mapDistance f) := by
    rw [List.map_map]
    refine List.map_congr_left fun id hid => ?_
    rw [hdist id (hids id hid)]
    rfl
  have hget : ∀ i : ℕ, (S.sort (ids.map fun id => ⟨id, dist' id, true⟩))[i]? =
      (S.sort (ids.map fun id => ⟨id, dist id, true⟩))[i]?.map (Neighbor.mapDistance f) := by
    intro i
    rw [hmap, hS, List.getElem?_map]
  have hsize : (S.sort (ids.map fun id => (⟨id, dist id, true⟩ : Neighbor K))).length = L := by
    rw [(S.perm _).length_eq, List.length_map, hlen]
  refine ⟨fun i hi => ?_, fun i => ?_⟩
  · have hi' := hi
    rw [← hsize] at hi'
    unfold initPool
    rw [List.getD_eq_getElem?_getD, List.getD_eq_getElem?_getD, hget, List.getElem?_eq_getElem hi']
    rfl
  · unfold initPool
    rw [List.getD_eq_getElem?_getD, List.getD_eq_getElem?_getD, hget]
    cases (S.sort (ids.map fun id => (⟨id, dist id, true⟩ : Neighbor K)))[i]? with
    | none => rfl
    | some nn => rfl

end Loop

-- ---------------------------------------------------------------------------
-- Whole searches
-- ---------------------------------------------------------------------------

section Searches

variable {V : Type} [Zero K] {S : Sorting K}

/-- What the two searches have in common. -/
def commonSearch (S : Sorting K) (neighbors : ℕ → List ℕ) (dist : ℕ → K) (nd k L : ℕ) (first : List ℕ)
    (rng : ℕ → ℕ) : Run (SearchResult K × (ℕ → ℕ)) := do
  let init ← fillInit nd L first rng
  let s ← loop (searchStep neighbors dist L) ⟨initPool S dist init.init_ids, init.flags, 0⟩
  let res ← writeIndices L k s
  pure (res, init.rng)

theorem searchMine_eq_common (index : IndexNSG) (S : Sorting K) (D : Distance V K) (x : ℕ → V)
    (query : V) (k L : ℕ) (entry_point : ℤ) (rng : ℕ → ℕ) :
    searchMine index S D x query k L entry_point rng = commonSearch S index.final_graph
      (fun id => D.compare query (x id)) index.nd k L
      (index.final_graph (index.effectiveEntry entry_point)) rng := by
  have hdist : (fun id => D.compare (x id) query) = fun id => D.compare query (x id) :=
    funext fun id => D.compare_comm _ _
  unfold searchMine commonSearch
  rw [hdist]

/-- The packed search too, for any packed graph whose ids are nodes. -/
theorem searchWithOptGraphMine_common (index : IndexNSG) (S : Sorting K) (D : Distance V K)
    (opt_graph : ℕ → OptNode V K) (query : V) (k L : ℕ) (entry_point : ℤ) (rng : ℕ → ℕ)
    (hlt : ∀ u ∈ (opt_graph (index.effectiveEntry entry_point)).neighbors, u < index.nd)
    (r : SearchResult K × (ℕ → ℕ)) :
    Returns (searchWithOptGraphMine index S D opt_graph query k L entry_point rng) r ↔
      Returns (commonSearch S (fun id => (opt_graph id).neighbors)
        (fun id => D.compareNorm query (opt_graph id).data (opt_graph id).norm) index.nd k L
        (opt_graph (index.effectiveEntry entry_point)).neighbors rng) r := by
  have hdist : (fun id => D.compareNorm (opt_graph id).data query (opt_graph id).norm) =
      fun id => D.compareNorm query (opt_graph id).data (opt_graph id).norm :=
    funext fun id => D.compareNorm_comm _ _ _
  -- all initial candidates are nodes, and flagged
  have hinit : ∀ init : FillState, Returns (fillInit index.nd L
      (opt_graph (index.effectiveEntry entry_point)).neighbors rng) init →
      init.init_ids.filter (· < index.nd) = init.init_ids ∧
      init.init_ids.foldl (fun flags id => Function.update flags id true) init.flags = init.flags ∧
      init.init_ids.length = L := by
    intro init hret
    obtain ⟨hinv, hlen, -⟩ := fillInit_inv (Nat.zero_lt_of_lt index.ep_lt) hlt hret
    exact ⟨List.filter_eq_self.mpr fun id hid => decide_eq_true (hinv.lt id hid),
      flagAgain fun id hid => (hinv.flags id).mpr hid, hlen⟩
  unfold searchWithOptGraphMine commonSearch
  rw [hdist]
  constructor
  · intro h
    obtain ⟨init, hret, hrest⟩ := h.of_bind
    obtain ⟨hfilter, hflags, hlen⟩ := hinit init hret
    refine hret.bind ?_
    dsimp only at hrest
    rw [hfilter, hflags, hlen] at hrest
    exact hrest
  · intro h
    obtain ⟨init, hret, hrest⟩ := h.of_bind
    obtain ⟨hfilter, hflags, hlen⟩ := hinit init hret
    refine hret.bind ?_
    dsimp only
    rw [hfilter, hflags, hlen]
    exact hrest

variable {neighbors neighbors' : ℕ → List ℕ} {dist dist' : ℕ → K} {nd k L : ℕ} {first : List ℕ}
  {rng : ℕ → ℕ}

/-- A search whose initial candidates are complete. -/
theorem commonSearch_returns (S : Sorting K) (dist : ℕ → K) (hnd : 0 < nd) (hL : 1 ≤ L)
    (hkL : k ≤ L + 1) (hnb : ∀ i < nd, ∀ u ∈ neighbors i, u < nd) (hfirst : ∀ u ∈ first, u < nd)
    {init : FillState} (hinit : Returns (fillInit nd L first rng) init) :
    ∃ s, Returns (loop (searchStep neighbors dist L)
        ⟨initPool S dist init.init_ids, init.flags, 0⟩) s ∧
      Returns (commonSearch S neighbors dist nd k L first rng)
        (⟨(List.range k).map fun i => (s.retset i).id, s.retset, s.flags⟩, init.rng) := by
  obtain ⟨hinv, hlen, -⟩ := fillInit_inv hnd hfirst hinit
  obtain ⟨s, hloop, -⟩ := searchLoop_returns hL hnb (fun _ => True) (fun _ _ _ _ => trivial)
    (initPool_inv S neighbors dist hinv hlen) trivial
  have hwrite : Returns (writeIndices L k s)
      ⟨(List.range k).map fun i => (s.retset i).id, s.retset, s.flags⟩ := by
    rw [writeIndices, if_neg (not_lt.mpr hkL)]
    exact returns_pure _
  exact ⟨s, hloop, hinit.bind (hloop.bind (hwrite.bind (returns_pure _)))⟩

section Agreement

variable (hf : StrictMono f) (hS : S.Commutes f) (hnd : 0 < nd) (hL : 1 ≤ L)
  (hdist : ∀ i < nd, dist' i = f (dist i)) (hnb : ∀ i < nd, ∀ u ∈ neighbors i, u < nd)
  (hsame : ∀ i < nd, neighbors' i = neighbors i) (hfirst : ∀ u ∈ first, u < nd)

include hf hS hnd hL hdist hnb hsame hfirst

/-- The second search finds what the first one finds. -/
theorem commonSearch_matches {res : SearchResult K} {rng' : ℕ → ℕ}
    (h : Returns (commonSearch S neighbors dist nd k L first rng) (res, rng')) :
    ∃ res', Returns (commonSearch S neighbors' dist' nd k L first rng) (res', rng') ∧
      res'.indices = res.indices ∧ res'.flags = res.flags := by
  have hnb' : ∀ i < nd, ∀ u ∈ neighbors' i, u < nd := fun i hi u hu => hnb i hi u (hsame i hi ▸ hu)
  obtain ⟨init, hinit, hrest⟩ := h.of_bind
  obtain ⟨_, -, hrest⟩ := hrest.of_bind
  obtain ⟨_, hwrite, -⟩ := hrest.of_bind
  have hkL := le_of_writeIndices hwrite
  obtain ⟨hinv, hlen, -⟩ := fillInit_inv hnd hfirst hinit
  obtain ⟨s, hloop, hrun⟩ := commonSearch_returns S dist hnd hL hkL hnb hfirst hinit
  obtain ⟨s', hloop', hrun'⟩ := commonSearch_returns S dist' hnd hL hkL hnb' hfirst hinit
  have hstart : MatchesState f L ⟨initPool S dist init.init_ids, init.flags, 0⟩
      ⟨initPool S dist' init.init_ids, init.flags, 0⟩ :=
    ⟨initPool_matches hdist hS hinv.lt hlen, rfl, rfl⟩
  obtain ⟨t, ht, hmatch⟩ := searchLoop_matches hf hL hdist hnb hsame
    (initPool_inv S neighbors dist hinv hlen) hstart hloop
  obtain ⟨rfl, rfl⟩ := Prod.mk.inj (h.unique hrun)
  refine ⟨_, hrun', ?_, ?_⟩
  · rw [hloop'.unique ht]
    exact List.map_congr_left fun i _ => hmatch.retset.id i
  · rw [hloop'.unique ht]
    exact hmatch.flags

/-- **Two searches** whose distances are in the same order return the same ids, or neither of
them returns. -/
theorem commonSearch_iff (ids : List ℕ) (rng' : ℕ → ℕ) :
    (∃ res, Returns (commonSearch S neighbors dist nd k L first rng) (res, rng') ∧
        res.indices = ids) ↔
      ∃ res, Returns (commonSearch S neighbors' dist' nd k L first rng) (res, rng') ∧
        res.indices = ids := by
  constructor
  · rintro ⟨res, hret, rfl⟩
    obtain ⟨res', hret', hids, -⟩ := commonSearch_matches hf hS hnd hL hdist hnb hsame hfirst hret
    exact ⟨res', hret', hids⟩
  · rintro ⟨res', hret', rfl⟩
    -- the first search returns too, and then finds what the second one has found
    obtain ⟨init, hinit, hrest⟩ := hret'.of_bind
    obtain ⟨_, -, hrest⟩ := hrest.of_bind
    obtain ⟨_, hwrite, -⟩ := hrest.of_bind
    obtain ⟨s, -, hrun⟩ :=
      commonSearch_returns S dist hnd hL (le_of_writeIndices hwrite) hnb hfirst hinit
    obtain ⟨res'', hret'', hids, -⟩ :=
      commonSearch_matches hf hS hnd hL hdist hnb hsame hfirst hrun
    obtain ⟨rfl, rfl⟩ := Prod.mk.inj (hret'.unique hret'')
    exact ⟨_, hrun, hids.symm⟩

end Agreement

/-- **The packed search against the plain one**: the packed graph holds the lists of `index`, and
the distances to its nodes are in the order of those to the rows. -/
theorem packed_iff_plain {f : K → K} (hf : StrictMono f) (hS : S.Commutes f) (index : IndexNSG)
    (D D' : Distance V K) (x : ℕ → V) (query : V) (k : ℕ) {L : ℕ} (hL : 1 ≤ L) {entry_point : ℤ}
    (hentry : entry_point < index.nd) {index' : IndexNSG} (hnd : index'.nd = index.nd)
    (hep : index'.ep = index.ep) {opt_graph : ℕ → OptNode V K}
    (hopt : ∀ i < index.nd, (opt_graph i).neighbors = index.final_graph i ∧
      D.compare query (x i) = f (D'.compareNorm query (opt_graph i).data (opt_graph i).norm))
    (rng rng' : ℕ → ℕ) (ids : List ℕ) :
    (∃ res, Returns (searchWithOptGraphMine index' S D' opt_graph query k L entry_point rng)
        (res, rng') ∧ res.indices = ids) ↔
      ∃ res, Returns (searchMine index S D x query k L entry_point rng) (res, rng') ∧
        res.indices = ids := by
  have heffective : index'.effectiveEntry entry_point = index.effectiveEntry entry_point := by
    rw [IndexNSG.effectiveEntry, IndexNSG.effectiveEntry, hep]
  have hlt := index.effectiveEntry_lt hentry
  have hnb : ∀ i < index.nd, ∀ u ∈ (opt_graph i).neighbors, u < index.nd := fun i hi u hu =>
    index.graph_lt i hi u ((hopt i hi).1 ▸ hu)
  have hcommon := fun r => searchWithOptGraphMine_common index' S D' opt_graph query k L entry_point
    rng (by rw [heffective, hnd]; exact hnb _ hlt) r
  simp only [hcommon, searchMine_eq_common, heffective, hnd, (hopt _ hlt).1]
  exact commonSearch_iff hf hS (Nat.zero_lt_of_lt index.ep_lt) hL (fun i hi => (hopt i hi).2) hnb
    (fun i hi => ((hopt i hi).1).symm) (index.graph_lt _ hlt) ids rng'

/-- **Packed graphs** that agree on the nodes are searched alike. -/
theorem packed_congr (S : Sorting K) (index : IndexNSG) (D : Distance V K) (query : V) (k : ℕ) {L : ℕ}
    (hL : 1 ≤ L) {entry_point : ℤ} (hentry : entry_point < index.nd) {index' : IndexNSG}
    (hnd : index'.nd = index.nd) (hep : index'.ep = index.ep) {opt_graph opt_graph' : ℕ → OptNode V K}
    (hlt : ∀ i < index.nd, ∀ u ∈ (opt_graph i).neighbors, u < index.nd)
    (hopt : ∀ i < index.nd, opt_graph' i = opt_graph i) (rng rng' : ℕ → ℕ) (ids : List ℕ) :
    (∃ res, Returns (searchWithOptGraphMine index S D opt_graph query k L entry_point rng)
        (res, rng') ∧ res.indices = ids) ↔
      ∃ res, Returns (searchWithOptGraphMine index' S D opt_graph' query k L entry_point rng)
        (res, rng') ∧ res.indices = ids := by
  have heffective : index'.effectiveEntry entry_point = index.effectiveEntry entry_point := by
    rw [IndexNSG.effectiveEntry, IndexNSG.effectiveEntry, hep]
  have hentry' := index.effectiveEntry_lt hentry
  have hcommon := fun r => searchWithOptGraphMine_common index S D opt_graph query k L entry_point rng
    (hlt _ hentry') r
  have hcommon' := fun r => searchWithOptGraphMine_common index' S D opt_graph' query k L entry_point
    rng (by rw [heffective, hnd, hopt _ hentry']; exact hlt _ hentry') r
  simp only [hcommon, hcommon', heffective, hnd, hopt _ hentry']
  exact commonSearch_iff strictMono_id S.commutes_id (Nat.zero_lt_of_lt index.ep_lt) hL
    (fun i hi => by rw [hopt i hi]; rfl) hlt (fun i hi => by rw [hopt i hi]) (hlt _ hentry') ids rng'

end Searches

-- ---------------------------------------------------------------------------
-- Squared distances
-- ---------------------------------------------------------------------------

section SquaredDistance

variable {F : Type} [CommRing F] [LinearOrder F] [IsStrictOrderedRing F]

/-- `DistanceL2` and `DistanceFastL2` on exact vectors: `compare` of `DistanceInnerProduct` is
negative, and twice it is added to the norm. -/
def l2Distance (dimension : ℕ) : Distance (ℕ → F) F where
  compare a b := ∑ j ∈ Finset.range dimension, (a j - b j) ^ 2
  norm a := ∑ j ∈ Finset.range dimension, a j ^ 2
  compareNorm a b n := 2 * -(∑ j ∈ Finset.range dimension, a j * b j) + n
  compare_comm a b := Finset.sum_congr rfl fun j _ => by ring
  compareNorm_comm a b n := by
    rw [Finset.sum_congr rfl fun j _ => mul_comm (a j) (b j)]

omit [LinearOrder F] [IsStrictOrderedRing F] in
/-- The square norm of the query is what the packed search leaves out. -/
theorem l2Distance_compare (dimension : ℕ) (q v : ℕ → F) :
    (l2Distance dimension).compare q v =
      (l2Distance dimension).compareNorm q v ((l2Distance dimension).norm v) +
        (l2Distance dimension).norm q := by
  change ∑ j ∈ Finset.range dimension, (q j - v j) ^ 2 =
    2 * -(∑ j ∈ Finset.range dimension, q j * v j) + ∑ j ∈ Finset.range dimension, v j ^ 2 +
      ∑ j ∈ Finset.range dimension, q j ^ 2
  rw [← Finset.sum_neg_distrib, Finset.mul_sum, ← Finset.sum_add_distrib, ← Finset.sum_add_distrib]
  exact Finset.sum_congr rfl fun j _ => by ring

end SquaredDistance

-- ---------------------------------------------------------------------------
-- Insertion sort
-- ---------------------------------------------------------------------------

theorem Sorting.insertion_comparesOnly : (Sorting.insertion K).ComparesOnly := fun f hf l => by
  refine (List.map_insertionSort _ _ _ l fun a _ b _ => ?_).symm
  exact hf.le_iff_le.symm

end Mqo.Search.Nsg
