import Mathlib.Data.List.Sort
import Mqo.Lib.Scalar
import Mqo.Search.Nsg

/-!
# MQO — warm-started recall over an NSG index

`get_recall_optimized` and `get_recall_optimized_ip` of `nsg_exp/process.hpp` run
the same loop with `SearchWithOptGraph_mine` and `Search_mine`; a query with a
parent enters the graph at the first id of the answer of its parent. The entry
point is not evaluated itself: a search starts from its neighbours.

* `NsgSearch.run_spec`      — both searches end with the closest evaluated node in
  front, once the initial candidates are complete;
* `closestEvaluated`        — so do all searches of a run along a trajectory;
* `unlinked_losesSeed`      — when no node links back to the entry point, the answer
  may be farther than it.
-/

namespace Mqo.Search.Nsg

open Prog

-- ---------------------------------------------------------------------------
-- The two searches
-- ---------------------------------------------------------------------------

/-- The search that a run uses. -/
inductive NsgSearch
  | search_mine
  | searchWithOptGraph_mine

section Search

variable {K V : Type} [LinearOrder K] [Zero K]

/-- The search, on the vectors `x`; `OptimizeGraph` has packed the same ones. -/
def NsgSearch.run (which : NsgSearch) (index : IndexNSG) (S : Sorting K) (D : Distance V K)
    (x : ℕ → V) (query : V) (k L : ℕ) (entry_point : ℤ) (rng : ℕ → ℕ) :
    Run (SearchResult K × (ℕ → ℕ)) :=
  match which with
  | search_mine => searchMine index S D x query k L entry_point rng
  | searchWithOptGraph_mine =>
    searchWithOptGraphMine index S D (index.optimizeGraph D.norm x) query k L entry_point rng

/-- The distance that it ranks the nodes by. -/
def NsgSearch.dist (which : NsgSearch) (D : Distance V K) (x : ℕ → V) (query : V) (id : ℕ) : K :=
  match which with
  | search_mine => D.compare query (x id)
  | searchWithOptGraph_mine => D.compareNorm query (x id) (D.norm (x id))

/-- What a search from `entry` returns. -/
def NsgSearch.Closest (which : NsgSearch) (index : IndexNSG) (D : Distance V K) (x : ℕ → V)
    (query : V) (L entry : ℕ) (res : SearchResult K) : Prop :=
  ClosestEvaluated index.final_graph (which.dist D x query) index.nd L (index.final_graph entry) res

variable {index : IndexNSG} {S : Sorting K} {D : Distance V K} {x : ℕ → V} {query : V} {k L : ℕ}
  {entry_point : ℤ} {rng : ℕ → ℕ}

theorem IndexNSG.effectiveEntry_lt (index : IndexNSG) {entry_point : ℤ}
    (h : entry_point < index.nd) : index.effectiveEntry entry_point < index.nd := by
  unfold IndexNSG.effectiveEntry
  split
  · exact index.ep_lt
  · have := index.ep_lt
    omega

/-- Flags that are set already may be set once more. -/
theorem flagAgain {flags : ℕ → Bool} {ids : List ℕ} (h : ∀ i ∈ ids, flags i = true) :
    ids.foldl (fun flags id => Function.update flags id true) flags = flags := by
  funext i
  rw [Bool.eq_iff_iff, Flags.mem_foldl_set]
  exact ⟨fun hi => hi.elim id (h i), Or.inl⟩

/-- Both searches are the common loop from the initial candidates on. -/
theorem NsgSearch.run_of_loop (which : NsgSearch) (S : Sorting K) (D : Distance V K) (x : ℕ → V)
    (query : V) {init : FillState} (hinit : Returns (fillInit index.nd L
      (index.final_graph (index.effectiveEntry entry_point)) rng) init)
    (hinv : FillInv index.nd L (index.final_graph (index.effectiveEntry entry_point)) init)
    (hlen : init.init_ids.length = L) {s : PoolState K} {res : SearchResult K}
    (hloop : Returns (loop (searchStep index.final_graph (which.dist D x query) L)
      ⟨initPool S (which.dist D x query) init.init_ids, init.flags, 0⟩) s)
    (hwrite : Returns (writeIndices L k s) res) :
    Returns (which.run index S D x query k L entry_point rng) (res, init.rng) := by
  cases which with
  | search_mine =>
    have hdist : (fun id => D.compare (x id) query) = NsgSearch.search_mine.dist D x query :=
      funext fun id => D.compare_comm _ _
    unfold NsgSearch.run searchMine
    rw [hdist]
    exact hinit.bind (hloop.bind (hwrite.bind (returns_pure _)))
  | searchWithOptGraph_mine =>
    have hdist : (fun id => D.compareNorm (index.optimizeGraph D.norm x id).data query
        (index.optimizeGraph D.norm x id).norm) =
        NsgSearch.searchWithOptGraph_mine.dist D x query :=
      funext fun id => D.compareNorm_comm _ _ _
    have hfilter : init.init_ids.filter (· < index.nd) = init.init_ids :=
      List.filter_eq_self.mpr fun id hid => decide_eq_true (hinv.lt id hid)
    have hflags := flagAgain fun id hid => (hinv.flags id).mpr hid
    unfold NsgSearch.run searchWithOptGraphMine
    rw [hdist]
    refine hinit.bind ?_
    rw [hfilter]
    dsimp only
    rw [hflags, hlen]
    exact hloop.bind (hwrite.bind (returns_pure _))

/-- **A search whose initial candidates are complete.** It ends with the closest
evaluated node in front. -/
theorem NsgSearch.run_spec (which : NsgSearch) (S : Sorting K) (D : Distance V K) (x : ℕ → V)
    (query : V) (hL : 1 ≤ L) (hk : 1 ≤ k) (hkL : k ≤ L + 1) (hentry : entry_point < index.nd)
    {init : FillState} (hinit : Returns (fillInit index.nd L
      (index.final_graph (index.effectiveEntry entry_point)) rng) init) :
    ∃ res, which.Closest index D x query L (index.effectiveEntry entry_point) res ∧
      Returns (which.run index S D x query k L entry_point rng) (res, init.rng) := by
  have hlt := index.graph_lt _ (index.effectiveEntry_lt hentry)
  obtain ⟨hinv, hlen, -⟩ := fillInit_inv (Nat.zero_lt_of_lt index.ep_lt) hlt hinit
  obtain ⟨res, hres, s, hloop, hwrite⟩ :=
    searchFrom_returns S (which.dist D x query) index.graph_lt hL hk hkL hinv hlen
  exact ⟨res, hres, which.run_of_loop S D x query hinit hinv hlen hloop hwrite⟩

omit [LinearOrder K] [Zero K] in
theorem le_of_writeIndices {s : PoolState K} {res : SearchResult K}
    (h : Returns (writeIndices L k s) res) : k ≤ L + 1 := by
  unfold writeIndices at h
  split at h
  · exact absurd (fails_fault _) h.not_fails
  · next hk => exact not_lt.mp hk

/-- A search that returns has completed its initial candidates, and has not read
outside its pool. -/
theorem NsgSearch.fill_of_run {which : NsgSearch} {r : SearchResult K × (ℕ → ℕ)}
    (h : Returns (which.run index S D x query k L entry_point rng) r) :
    k ≤ L + 1 ∧ ∃ init, Returns (fillInit index.nd L
      (index.final_graph (index.effectiveEntry entry_point)) rng) init := by
  cases which
  all_goals
    obtain ⟨init, hinit, hrest⟩ := h.of_bind
    obtain ⟨s, -, hrest⟩ := hrest.of_bind
    obtain ⟨res, hwrite, -⟩ := hrest.of_bind
    exact ⟨le_of_writeIndices hwrite, init, hinit⟩

/-- Partial correctness of a search, for every outcome of `rand()`. -/
theorem NsgSearch.run_closest {which : NsgSearch} (hL : 1 ≤ L) (hk : 1 ≤ k)
    (hentry : entry_point < index.nd) {r : SearchResult K × (ℕ → ℕ)}
    (h : Returns (which.run index S D x query k L entry_point rng) r) :
    which.Closest index D x query L (index.effectiveEntry entry_point) r.1 := by
  obtain ⟨hkL, init, hinit⟩ := NsgSearch.fill_of_run h
  obtain ⟨res, hres, hret⟩ := which.run_spec S D x query hL hk hkL hentry hinit
  rw [h.unique hret]
  exact hres

/-- A search ends where `rand()` covers all ids. -/
theorem NsgSearch.run_returns (which : NsgSearch) (S : Sorting K) (D : Distance V K) (x : ℕ → V)
    (query : V) (hL : 1 ≤ L) (hLnd : L ≤ index.nd) (hk : 1 ≤ k) (hkL : k ≤ L + 1)
    (hentry : entry_point < index.nd) (hrng : Covers index.nd rng) :
    ∃ res rng', Returns (which.run index S D x query k L entry_point rng) (res, rng') ∧
      which.Closest index D x query L (index.effectiveEntry entry_point) res ∧
      Covers index.nd rng' := by
  obtain ⟨init, hinit, hcov⟩ := fillInit_returns hLnd
    (index.graph_lt _ (index.effectiveEntry_lt hentry)) hrng
  obtain ⟨res, hres, hret⟩ := which.run_spec S D x query hL hk hkL hentry hinit
  exact ⟨res, init.rng, hret, hres, hcov⟩

end Search

-- ---------------------------------------------------------------------------
-- The run along a trajectory
-- ---------------------------------------------------------------------------

section Recall

variable {K V : Type} [LinearOrder K] [Zero K] (which : NsgSearch) (index : IndexNSG)
  (S : Sorting K) (D : Distance V K) (x query : ℕ → V)

/-- One search of the loop. Its first id is read afterwards, so `topk` has to be
positive. -/
def searchRow (topk beamsize : ℕ) (rng : ℕ → ℕ) (curr : ℤ) (seed : Option (List ℕ)) :
    Run (List ℕ × (ℕ → ℕ)) := do
  let entry_point ← entryPoint seed
  let r ← which.run index S D x (query curr.toNat) topk beamsize entry_point rng
  match r.1.indices with
  | [] => fault .outOfRange
  | id :: rest => pure (id :: rest, r.2)

/-- `get_recall_optimized` and `get_recall_optimized_ip`, without the duration they
measure: the state after the loop, and the recall. -/
def getRecallOptimized (F : Type) [Scalar F] (ans : ℕ → ℤ) (n_query topk beamsize : ℕ)
    (trajectory : Trajectory) (rng : ℕ → ℕ) : Run (RecallState (ℕ → ℕ) (List ℕ) F × F) := do
  let s ← recallLoop n_query (searchRow which index S D x query topk beamsize)
    (fun curr row => row.head?.map Int.ofNat = some (ans curr.toNat)) (· + 1) trajectory
    { engine := rng, ann := fun _ => List.replicate topk 0, correct := (0 : F), searches := [] }
  pure (s, s.correct / Scalar.ofInt n_query)

/-- The answer to a query: its first id is the closest node of those evaluated by a
search from the answer of the parent. -/
def AnswersFrom (beamsize : ℕ) (curr : ℤ) (seed : Option (List ℕ)) (row : List ℕ) : Prop :=
  ∃ entry res, EntersAt index.ep seed entry ∧ row = res.indices ∧
    which.Closest index D x (query curr.toNat) beamsize entry res

variable {which index S D x query} {L k : ℕ}

omit [Zero K] in
/-- The closest evaluated node is the first id of the row. -/
theorem NsgSearch.Closest.row {q : V} {entry : ℕ} {res : SearchResult K}
    (h : which.Closest index D x q L entry res) :
    ∃ id rest, res.indices = id :: rest ∧ id < index.nd := by
  obtain ⟨rest, hrow⟩ := h.head
  exact ⟨_, rest, hrow, h.lt⟩

/-- **One query**, for every outcome of `rand()`. -/
theorem searchRow_inv (hL : 1 ≤ L) (hk : 1 ≤ k) {rng rng' : ℕ → ℕ} {curr : ℤ}
    {seed : Option (List ℕ)} (hseed : ∀ row ∈ seed, IsRow index.nd row) {row : List ℕ}
    (h : Returns (searchRow which index S D x query k L rng curr seed) (row, rng')) :
    IsRow index.nd row ∧ AnswersFrom which index D x query L curr seed row := by
  obtain ⟨entry_point, hentry, -, hlt, hat⟩ := entryPoint_spec index.ep hseed
  obtain ⟨e, he, hrest⟩ := h.of_bind
  obtain rfl := he.unique hentry
  obtain ⟨r, hrun, hrow⟩ := hrest.of_bind
  have hclosest := NsgSearch.run_closest hL hk hlt hrun
  obtain ⟨id, rest, heq, hid⟩ := hclosest.row
  rw [heq] at hrow
  cases hrow.of_pure
  exact ⟨⟨id, rest, rfl, hid⟩, _, r.1, hat, heq.symm, hclosest⟩

/-- A query is answered where `rand()` covers all ids. -/
theorem searchRow_returns (hL : 1 ≤ L) (hLnd : L ≤ index.nd) (hk : 1 ≤ k) (hkL : k ≤ L + 1)
    {rng : ℕ → ℕ} (hrng : Covers index.nd rng) (curr : ℤ) {seed : Option (List ℕ)}
    (hseed : ∀ row ∈ seed, IsRow index.nd row) :
    ∃ row rng', Returns (searchRow which index S D x query k L rng curr seed) (row, rng') ∧
      Covers index.nd rng' ∧ IsRow index.nd row ∧
      AnswersFrom which index D x query L curr seed row := by
  obtain ⟨entry_point, hentry, -, hlt, hat⟩ := entryPoint_spec index.ep hseed
  obtain ⟨res, rng', hrun, hclosest, hcov⟩ :=
    which.run_returns S D x (query curr.toNat) hL hLnd hk hkL hlt hrng
  obtain ⟨id, rest, heq, hid⟩ := hclosest.row
  refine ⟨id :: rest, rng', hentry.bind (hrun.bind ?_), hcov, ⟨id, rest, rfl, hid⟩,
    _, res, hat, heq.symm, hclosest⟩
  rw [heq]
  exact returns_pure _

/-- All answers of a run come from the answers of the parents. -/
theorem getRecallOptimized_answersFrom {F : Type} [Scalar F] (hL : 1 ≤ L) (hk : 1 ≤ k)
    {ans : ℕ → ℤ} {n_query : ℕ} {trajectory : Trajectory} (hacc : Accepted trajectory n_query)
    {rng : ℕ → ℕ} {r : RecallState (ℕ → ℕ) (List ℕ) F × F}
    (h : Returns (getRecallOptimized which index S D x query F ans n_query k L trajectory rng) r) :
    ∀ e ∈ trajectory,
      AnswersFrom which index D x query L e.1 (seedOf r.1.ann e.2) (r.1.ann e.1) := by
  obtain ⟨s, hloop, hrest⟩ := h.of_bind
  obtain rfl := hrest.of_pure
  have hsearch : ∀ rng curr seed row rng', True → InBounds n_query curr →
      (∀ row ∈ seed, IsRow index.nd row) →
      Returns (searchRow which index S D x query k L rng curr seed) (row, rng') →
      True ∧ IsRow index.nd row ∧ AnswersFrom which index D x query L curr seed row :=
    fun rng curr seed row rng' _ _ hseed hrow => ⟨trivial, searchRow_inv hL hk hseed hrow⟩
  have hinv := recallLoop_inv (IsRow index.nd) hsearch hacc trivial hloop
  exact hinv.answered.post

/-- A run ends where `rand()` covers all ids. -/
theorem getRecallOptimized_returns (F : Type) [Scalar F] (hL : 1 ≤ L) (hLnd : L ≤ index.nd)
    (hk : 1 ≤ k) (hkL : k ≤ L + 1) (ans : ℕ → ℤ) {n_query : ℕ} {trajectory : Trajectory}
    (hacc : Accepted trajectory n_query) {rng : ℕ → ℕ} (hrng : Covers index.nd rng) : ∃ r,
    Returns (getRecallOptimized which index S D x query F ans n_query k L trajectory rng) r := by
  have hsearch : ∀ rng curr seed, Covers index.nd rng → InBounds n_query curr →
      (∀ row ∈ seed, IsRow index.nd row) →
      ∃ row rng', Returns (searchRow which index S D x query k L rng curr seed) (row, rng') ∧
        Covers index.nd rng' ∧ IsRow index.nd row ∧
        AnswersFrom which index D x query L curr seed row :=
    fun rng curr seed hcov _ hseed => searchRow_returns hL hLnd hk hkL hcov curr hseed
  let s₀ : RecallState (ℕ → ℕ) (List ℕ) F :=
    { engine := rng, ann := fun _ => List.replicate k 0, correct := 0, searches := [] }
  obtain ⟨s, hloop, -⟩ : ∃ s, Returns (recallLoop n_query (searchRow which index S D x query k L)
      (fun curr row => row.head?.map Int.ofNat = some (ans curr.toNat)) (· + 1) trajectory s₀) s ∧
      RecallInv (Covers index.nd) (AnswersFrom which index D x query L)
        (fun curr row => row.head?.map Int.ofNat = some (ans curr.toNat)) (· + 1) s₀ trajectory s :=
    recallLoop_returns (IsRow index.nd) hsearch hacc hrng
  exact ⟨_, hloop.bind (returns_pure _)⟩

/-- **The closest evaluated node.** Whatever `rand()` returns, a search from an entry
point ends, if the random fill does, with the closest of the nodes it has
evaluated in front: the first `L` neighbours of the entry point are among them,
and all neighbours of the first node. The answers of a run along a trajectory
are found in this way from the answers of the parents. -/
theorem closestEvaluated (which : NsgSearch) (index : IndexNSG) (S : Sorting K)
    (D : Distance V K) (x : ℕ → V) (F : Type) [Scalar F] (hL : 1 ≤ L) (hLnd : L ≤ index.nd)
    (hk : 1 ≤ k) :
    (∀ (query : V) (entry_point : ℤ) (rng : ℕ → ℕ), 0 ≤ entry_point → entry_point < index.nd →
      (∀ r, Returns (which.run index S D x query k L entry_point rng) r →
        which.Closest index D x query L entry_point.toNat r.1) ∧
      (k ≤ L + 1 → Covers index.nd rng →
        ∃ r, Returns (which.run index S D x query k L entry_point rng) r)) ∧
    ∀ (query : ℕ → V) (ans : ℕ → ℤ) (n_query : ℕ) (trajectory : Trajectory) (rng : ℕ → ℕ),
      Accepted trajectory n_query →
      (∀ r, Returns (getRecallOptimized which index S D x query F ans n_query k L trajectory rng) r →
        ∀ e ∈ trajectory,
          AnswersFrom which index D x query L e.1 (seedOf r.1.ann e.2) (r.1.ann e.1)) ∧
      (k ≤ L + 1 → Covers index.nd rng → ∃ r,
        Returns (getRecallOptimized which index S D x query F ans n_query k L trajectory rng) r) := by
  refine ⟨fun query entry_point rng hpos hlt => ⟨fun r hret => ?_, fun hkL hrng => ?_⟩,
    fun query ans n_query trajectory rng hacc => ⟨fun r hret => ?_, fun hkL hrng => ?_⟩⟩
  · have hentry : index.effectiveEntry entry_point = entry_point.toNat := if_neg (by omega)
    rw [← hentry]
    exact NsgSearch.run_closest hL hk hlt hret
  · obtain ⟨res, rng', hret, -⟩ := which.run_returns S D x query hL hLnd hk hkL hlt hrng
    exact ⟨_, hret⟩
  · exact getRecallOptimized_answersFrom hL hk hacc hret
  · exact getRecallOptimized_returns F hL hLnd hk hkL ans hacc hrng

end Recall

-- ---------------------------------------------------------------------------
-- Four nodes on a line
-- ---------------------------------------------------------------------------

/-- `std::sort` as an insertion sort. -/
def Sorting.insertion (K : Type) [LinearOrder K] : Sorting K where
  sort l := l.insertionSort fun a b => a.distance ≤ b.distance
  perm l := List.perm_insertionSort _ l
  sorted l :=
    have : Std.Total fun a b : Neighbor K => a.distance ≤ b.distance :=
      ⟨fun _ _ => le_total _ _⟩
    have : IsTrans (Neighbor K) fun a b => a.distance ≤ b.distance := ⟨fun _ _ _ => le_trans⟩
    List.pairwise_insertionSort _ l

/-- Squared distances of integers. -/
def squareDistance : Distance ℤ ℤ where
  compare a b := (a - b) * (a - b)
  norm a := a * a
  compareNorm a b n := n - 2 * (a * b)
  compare_comm a b := by ring
  compareNorm_comm a b n := by ring

/-- Nodes `0, 1, 2, 3` at the points `0, 1, 2, 3`; all can be reached from the entry
point `1`, but no edge leads back to node `0` from those it leads to. -/
def lineGraph : IndexNSG where
  nd := 4
  ep := 1
  final_graph i := if i = 0 then [2, 3] else if i = 1 then [0, 2] else if i = 2 then [3] else [2]
  ep_lt := by decide
  graph_lt i _ u hu := by
    split_ifs at hu
    all_goals
      simp only [List.mem_cons, List.not_mem_nil, or_false] at hu
      omega

/-- `rand()` running through all numbers. -/
theorem covers_id (nd : ℕ) : Covers nd id := fun i hi k => by
  refine ⟨i + nd * k, ?_, ?_⟩
  · have := Nat.le_mul_of_pos_left k (Nat.zero_lt_of_lt hi)
    omega
  · show (i + nd * k) % nd = i
    rw [Nat.add_mul_mod_self_left, Nat.mod_eq_of_lt hi]

/-- The search from node `0` for a query at `0`, and a query whose parent is equal to it:
the answer `2` is farther than the entry point. -/
theorem unlinked_losesSeed :
    (∃ r, Returns (NsgSearch.search_mine.run lineGraph (Sorting.insertion ℤ) squareDistance
        (fun i => i) 0 1 2 0 id) r ∧ r.1.indices = [2] ∧
      NsgSearch.search_mine.dist squareDistance (fun i => i) 0 0 <
        NsgSearch.search_mine.dist squareDistance (fun i => i) 0 2) ∧
    (∃ r, Returns (NsgSearch.searchWithOptGraph_mine.run lineGraph (Sorting.insertion ℤ)
        squareDistance (fun i => i) 0 1 2 0 id) r ∧ r.1.indices = [2] ∧
      NsgSearch.searchWithOptGraph_mine.dist squareDistance (fun i => i) 0 0 <
        NsgSearch.searchWithOptGraph_mine.dist squareDistance (fun i => i) 0 2) ∧
    (∃ r, Returns (getRecallOptimized .search_mine lineGraph (Sorting.insertion ℤ) squareDistance
        (fun i => i) (fun _ => 0) (Exact ℚ) (fun _ => 0) 2 1 2 [(0, -1), (1, 0)] id) r ∧
      (r.1.ann 0, r.1.ann 1) = ([0], [2])) ∧
    ∃ r, Returns (getRecallOptimized .searchWithOptGraph_mine lineGraph (Sorting.insertion ℤ)
        squareDistance (fun i => i) (fun _ => 0) (Exact ℚ) (fun _ => 0) 2 1 2
        [(0, -1), (1, 0)] id) r ∧
      (r.1.ann 0, r.1.ann 1) = ([0], [2]) := by
  refine ⟨?_, ?_, ?_, ?_⟩
  · obtain ⟨r, hr, hrow⟩ := exists_returns_of_value (n := 9) (f := fun r => r.1.indices) (b := [2])
      (p := NsgSearch.search_mine.run lineGraph (Sorting.insertion ℤ) squareDistance
        (fun i => i) 0 1 2 0 id) (by decide +kernel)
    exact ⟨r, hr, hrow, by decide⟩
  · obtain ⟨r, hr, hrow⟩ := exists_returns_of_value (n := 9) (f := fun r => r.1.indices) (b := [2])
      (p := NsgSearch.searchWithOptGraph_mine.run lineGraph (Sorting.insertion ℤ) squareDistance
        (fun i => i) 0 1 2 0 id) (by decide +kernel)
    exact ⟨r, hr, hrow, by decide⟩
  · exact exists_returns_of_value (n := 9) (by decide +kernel)
  · exact exists_returns_of_value (n := 9) (by decide +kernel)

/-- The same two queries, for a search that does end with the closest evaluated node. -/
theorem lineGraph_closestEvaluated : ∃ r,
    Returns (getRecallOptimized .searchWithOptGraph_mine lineGraph (Sorting.insertion ℤ)
      squareDistance (fun i => i) (fun _ => 0) (Exact ℚ) (fun _ => 0) 2 1 2
      [(0, -1), (1, 0)] id) r ∧
    AnswersFrom .searchWithOptGraph_mine lineGraph squareDistance (fun i => i) (fun _ => 0) 2 1
      (some (r.1.ann 0)) (r.1.ann 1) := by
  obtain ⟨hinv, hret⟩ := (closestEvaluated .searchWithOptGraph_mine lineGraph
    (Sorting.insertion ℤ) squareDistance (fun i => i) (Exact ℚ) (L := 2) (k := 1) (by decide)
    (by decide) (by decide)).2 (fun _ => 0) (fun _ => 0) 2 [(0, -1), (1, 0)] id
    (returns_of_value (n := 0) (by decide +kernel))
  obtain ⟨r, hr⟩ := hret (by decide) (covers_id 4)
  exact ⟨r, hr, hinv r hr (1, 0) (by simp)⟩

end Mqo.Search.Nsg
