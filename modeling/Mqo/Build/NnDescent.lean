import Mqo.Build.GenRandom
import Mqo.Build.NnUpdate
import Mqo.Search.NsgRecall

/-!
# MQO — NN-descent

`InitializeGraph`, `NNDescent` and `Build` of `efanna_graph/src/index_graph.cpp`: from pools of
random nodes, `join` and `update` are repeated, and the nearest `K` neighbours of each node are
listed.

* `initializeGraph_returns` — the random pools;
* `iterations_returns`      — what any of the iterations has joined is settled at the end;
* `build_returns`           — the lists.
-/

namespace Mqo.Build.Efanna

open Prog Nearest Search.Nsg

section Descent

variable {F : Type} [LinearOrder F]

-- ---------------------------------------------------------------------------
-- The functions
-- ---------------------------------------------------------------------------

section Functions

variable (P : Parameters) (dist : ℕ → ℕ → F)

omit [LinearOrder F] in
/-- `pool.push_back(nn)`: a vector that is full gets twice its capacity. -/
def pushBack (nhood : Nhood F) (nn : Neighbor F) : Nhood F :=
  { nhood with
    pool := nhood.pool ++ [nn]
    capacity := if nhood.pool.length < nhood.capacity then nhood.capacity
      else nhood.pool.length + max nhood.pool.length 1 }

omit [LinearOrder F] in
/-- The first loop of `InitializeGraph`: the `nhood`s, copied into `graph_`. -/
def newNhoods (nd : ℕ) (rng : ℕ → ℕ) : Run (KNNGraph F × (ℕ → ℕ)) :=
  (List.range nd).foldlM (fun (c : KNNGraph F × (ℕ → ℕ)) i => do
    let r ← genRandom c.2 (P.S * 2 % 2 ^ 32) nd
    pure (Function.update c.1 i ⟨[], P.L, P.S, [], r.1, [], []⟩, r.2))
    (fun _ => ⟨[], 0, 0, [], [], [], []⟩, rng)

omit [LinearOrder F] in
/-- The inner loop of the second one, for the ids `tmp` that the initializer found for `i`. -/
def pushDrawn (i : ℕ) (tmp : List ℕ) (nhood : Nhood F) : Nhood F :=
  tmp.foldl (fun nhood id => if id = i then nhood else pushBack nhood ⟨id, dist i id, true⟩) nhood

/-- The second loop, for one node; `search i` is what the generator of the `IndexRandom` returns for
the search of the node `i`. -/
def drawPool (nd : ℕ) (H : HeapAlgorithms (Neighbor.distance (K := F))) (search : ℕ → ℕ → ℕ)
    (graph : KNNGraph F) (i : ℕ) : Run (KNNGraph F) := do
  let tmp ← genRandom (search i) ((P.S + 1) % 2 ^ 32) nd
  if tmp.1.length < P.S then fault .outOfRange
  else
    let nhood := pushDrawn dist i (tmp.1.take P.S) (graph i)
    pure (Function.update graph i
      { nhood with pool := H.make_heap nhood.pool, capacity := max nhood.capacity P.L })

/-- `InitializeGraph(parameters)` -/
def initializeGraph (nd : ℕ) (H : HeapAlgorithms (Neighbor.distance (K := F))) (rng : ℕ → ℕ)
    (search : ℕ → ℕ → ℕ) : Run (KNNGraph F) := do
  let c ← newNhoods P nd rng
  (List.range nd).foldlM (drawPool P dist nd H search) c.1

/-- `_CONTROL_NUM` -/
def controlNum : ℕ := 100

/-- The first `n` iterations of `NNDescent`. -/
def iterations (nd : ℕ) (S : Sorting F) (H : HeapAlgorithms (Neighbor.distance (K := F)))
    (turn : ℕ → Turn F) (graph : KNNGraph F) (n : ℕ) : Run (KNNGraph F) :=
  (List.range n).foldlM (fun graph it => do
    let graph ← join dist nd H (turn it) graph
    update P nd S H (turn it) graph) graph

/-- `NNDescent(parameters)`; the control points are only for what it prints. -/
def nnDescent (nd : ℕ) (S : Sorting F) (H : HeapAlgorithms (Neighbor.distance (K := F)))
    (control : ℕ → ℕ) (turn : ℕ → Turn F) (graph : KNNGraph F) : Run (KNNGraph F) := do
  let _ ← genRandom control controlNum nd
  iterations P dist nd S H turn graph P.iter

/-- The list of a node. -/
def nearestIds (S : Sorting F) (nhood : Nhood F) : Run (List ℕ) :=
  let pool := S.sort nhood.pool
  if pool.length < P.K then fault .outOfRange else pure ((pool.take P.K).map Neighbor.id)

/-- `Build(n, data, parameters)`: `final_graph_`. -/
def build (nd : ℕ) (S : Sorting F) (H : HeapAlgorithms (Neighbor.distance (K := F))) (rng : ℕ → ℕ)
    (search : ℕ → ℕ → ℕ) (control : ℕ → ℕ) (turn : ℕ → Turn F) : Run (List (List ℕ)) := do
  let graph ← initializeGraph P dist nd H rng search
  let graph ← nnDescent P dist nd S H control turn graph
  (List.range nd).foldlM (fun final_graph i => do
    let tmp ← nearestIds P S (graph i)
    pure (final_graph ++ [tmp])) []

end Functions

variable {dist : ℕ → ℕ → F} {nd : ℕ} {H : HeapAlgorithms (Neighbor.distance (K := F))}
  {P : Parameters} {S : Sorting F}

-- ---------------------------------------------------------------------------
-- The random pools
-- ---------------------------------------------------------------------------

omit [LinearOrder F] in
theorem newNhoods_returns (hS : 2 * P.S < nd) (hnd : nd ≤ 2 ^ 31) (rng : ℕ → ℕ) :
    ∃ graph rng', Returns (newNhoods (F := F) P nd rng) (graph, rng') ∧ ∀ i < nd, ∃ nn_new,
      graph i = ⟨[], P.L, P.S, [], nn_new, [], []⟩ ∧ ∀ u ∈ nn_new, u < nd := by
  obtain ⟨c, hret, hc⟩ := range_returns (f := fun (c : KNNGraph F × (ℕ → ℕ)) i => do
      let r ← genRandom c.2 (P.S * 2 % 2 ^ 32) nd
      pure (Function.update c.1 i ⟨[], P.L, P.S, [], r.1, [], []⟩, r.2))
    (s := (fun _ => ⟨[], 0, 0, [], [], [], []⟩, rng))
    (fun n (c : KNNGraph F × (ℕ → ℕ)) => ∀ i < n, ∃ nn_new,
      c.1 i = ⟨[], P.L, P.S, [], nn_new, [], []⟩ ∧ ∀ u ∈ nn_new, u < nd) (n := nd)
    (fun n hn c hc => by
      obtain ⟨ids, hret, -, -, hlt⟩ := genRandom_returns c.2
        (show P.S * 2 % 2 ^ 32 < nd by rw [Nat.mod_eq_of_lt (by omega)]; omega) hnd
      refine ⟨_, hret.bind (returns_pure _), fun i hi => ?_⟩
      dsimp only
      by_cases hin : i = n
      · exact ⟨ids, by rw [hin, Function.update_self], hlt⟩
      · rw [Function.update_of_ne hin]
        exact hc i (by omega)) (fun i hi => absurd hi (Nat.not_lt_zero i))
  exact ⟨c.1, c.2, hret, hc⟩

variable (dist) in
omit [LinearOrder F] in
/-- The pool that is filled. -/
theorem pushDrawn_eq (i : ℕ) (tmp : List ℕ) {nhood : Nhood F} (hfits : nhood.pool.length ≤ nhood.capacity) :
    ∃ capacity, pushDrawn dist i tmp nhood = { nhood with
        pool := nhood.pool ++ (tmp.filter (· ≠ i)).map fun id => ⟨id, dist i id, true⟩
        capacity := capacity } ∧
      (pushDrawn dist i tmp nhood).pool.length ≤ capacity := by
  induction tmp generalizing nhood with
  | nil => exact ⟨nhood.capacity, by simp [pushDrawn], hfits⟩
  | cons id tmp ih =>
    rw [pushDrawn, List.foldl_cons]
    by_cases hid : id = i
    · rw [if_pos hid, List.filter_cons_of_neg (by simpa using hid)]
      exact ih hfits
    · rw [if_neg hid, List.filter_cons_of_pos (by simpa using hid), List.map_cons]
      have hroom : (pushBack nhood ⟨id, dist i id, true⟩).pool.length ≤
          (pushBack nhood ⟨id, dist i id, true⟩).capacity := by
        dsimp only [pushBack]
        rw [List.length_append, List.length_singleton]
        split <;> omega
      obtain ⟨capacity, heq, hlen⟩ := ih hroom
      refine ⟨capacity, heq.trans ?_, hlen⟩
      rw [pushBack, List.append_assoc, List.singleton_append]

/-- The pool of one node. -/
theorem drawPool_returns (hS : 1 < P.S) (hnodes : 2 * P.S < nd) (hnd : nd ≤ 2 ^ 31)
    (H : HeapAlgorithms (Neighbor.distance (K := F))) (search : ℕ → ℕ → ℕ) {graph : KNNGraph F} {i : ℕ}
    {nn_new : List ℕ} (hi : graph i = ⟨[], P.L, P.S, [], nn_new, [], []⟩) :
    ∃ pool capacity, Returns (drawPool P dist nd H search graph i) (Function.update graph i
        ⟨pool, capacity, P.S, [], nn_new, [], []⟩) ∧
      IsPool H (dist i) nd i capacity pool ∧ P.S ≤ pool.length + 1 := by
  obtain ⟨drawn, hret, hlen, hnodup, hlt⟩ := genRandom_returns (search i)
    (show (P.S + 1) % 2 ^ 32 < nd by rw [Nat.mod_eq_of_lt (by omega)]; omega) hnd
  rw [Nat.mod_eq_of_lt (by omega)] at hlen
  obtain ⟨capacity, heq, hfits⟩ := pushDrawn_eq dist i (drawn.take P.S)
    (show (Nhood.mk (F := F) [] P.L P.S [] nn_new [] []).pool.length ≤ P.L from Nat.zero_le _)
  obtain ⟨others, hothers⟩ : ∃ others, others = (drawn.take P.S).filter (· ≠ i) := ⟨_, rfl⟩
  obtain ⟨pool, hpool⟩ : ∃ pool : List (Neighbor F), pool = others.map fun id => ⟨id, dist i id, true⟩ :=
    ⟨_, rfl⟩
  rw [← hothers, List.nil_append, ← hpool] at heq
  rw [heq] at hfits
  have hids : ids pool = others := by
    rw [hpool, ids, List.map_map]
    exact List.map_id _
  have hmem : ∀ u ∈ others, u < nd ∧ u ≠ i := fun u hu => by
    rw [hothers, List.mem_filter] at hu
    exact ⟨hlt u (List.mem_of_mem_take hu.1), of_decide_eq_true hu.2⟩
  have hdistinct : others.Nodup := hothers ▸ (hnodup.sublist (List.take_sublist _ _)).filter _
  -- the node is drawn at most once
  have hcount : P.S ≤ others.length + 1 := by
    have herase : others = (drawn.take P.S).erase i := by
      rw [hothers, (hnodup.sublist (List.take_sublist _ _)).erase_eq_filter]
      exact List.filter_congr fun u _ => Bool.eq_iff_iff.mpr (by simp)
    have hle := List.le_length_erase (a := i) (l := drawn.take P.S)
    rw [List.length_take, hlen] at hle
    rw [herase]
    omega
  have hok : PoolOk (dist i) nd i pool := by
    refine ⟨hids ▸ hdistinct, fun p hp => ?_, fun p hp => ?_⟩
    · exact hmem p.id (hids ▸ List.mem_map_of_mem hp)
    · obtain ⟨u, -, rfl⟩ := List.mem_map.mp (hpool ▸ hp)
      rfl
  have hlength : pool.length = others.length := by rw [hpool, List.length_map]
  have hperm := H.make_perm pool
  refine ⟨H.make_heap pool, max capacity P.L, ?_, ⟨hok.perm hperm.symm, H.isHeap_make pool, ?_, ?_⟩, ?_⟩
  · unfold drawPool
    refine hret.bind ?_
    dsimp only
    rw [if_neg (by omega), hi, heq]
    exact returns_pure _
  · exact List.ne_nil_of_length_pos (by rw [hperm.length_eq]; omega)
  · rw [hperm.length_eq]
    exact hfits.trans (Nat.le_max_left _ _)
  · rw [hperm.length_eq, hlength]
    exact hcount

variable (dist) in
/-- **Random pools.** Each node has at least `S - 1` neighbours, and what is joined first are nodes. -/
theorem initializeGraph_returns (hS : 1 < P.S) (hnodes : 2 * P.S < nd) (hnd : nd ≤ 2 ^ 31)
    (H : HeapAlgorithms (Neighbor.distance (K := F))) (rng : ℕ → ℕ) (search : ℕ → ℕ → ℕ) :
    ∃ graph, Returns (initializeGraph P dist nd H rng search) graph ∧ Ready dist nd H graph ∧
      ∀ i < nd, P.S ≤ (graph i).pool.length + 1 := by
  obtain ⟨new, rng', hnew, hfresh⟩ := newNhoods_returns (F := F) hnodes hnd rng
  obtain ⟨graph, hret, -, hgraph⟩ := range_returns (f := drawPool P dist nd H search) (s := new) (n := nd)
    (fun n (graph : KNNGraph F) => (∀ i, n ≤ i → graph i = new i) ∧ ∀ i < n,
      ∃ pool capacity nn_new, graph i = ⟨pool, capacity, P.S, [], nn_new, [], []⟩ ∧
        (∀ u ∈ nn_new, u < nd) ∧ IsPool H (dist i) nd i capacity pool ∧ P.S ≤ pool.length + 1)
    (fun n hn graph ⟨hlater, hbefore⟩ => by
      obtain ⟨nn_new, hn_new, hlt⟩ := hfresh n hn
      obtain ⟨pool, capacity, hret, hpool, hlen⟩ := drawPool_returns hS hnodes hnd H search
        ((hlater n le_rfl).trans hn_new)
      refine ⟨_, hret, fun i hi => ?_, fun i hi => ?_⟩
      · rw [Function.update_of_ne (by omega)]
        exact hlater i (by omega)
      · by_cases hin : i = n
        · rw [hin, Function.update_self]
          exact ⟨pool, capacity, nn_new, rfl, hlt, hpool, hlen⟩
        · rw [Function.update_of_ne hin]
          exact hbefore i (by omega))
    ⟨fun i _ => rfl, fun i hi => absurd hi (Nat.not_lt_zero i)⟩
  refine ⟨graph, hnew.bind hret, ⟨fun i hi => ?_, fun i hi => ?_, fun i hi => ?_, fun i hi => ?_⟩,
    fun i hi => ?_⟩ <;>
  obtain ⟨pool, capacity, nn_new, heq, hlt, hpool, hlen⟩ := hgraph i hi <;> rw [heq]
  · exact hpool
  · intro u hu
    rw [List.append_nil] at hu
    exact hlt u hu
  · exact hlen

-- ---------------------------------------------------------------------------
-- The iterations
-- ---------------------------------------------------------------------------

/-- **One more iteration.** -/
theorem iterations_next {turn : ℕ → Turn F} {graph before joined after : KNNGraph F} {n : ℕ}
    (hbefore : Returns (iterations P dist nd S H turn graph n) before)
    (hjoin : Returns (join dist nd H (turn n) before) joined)
    (hupdate : Returns (update P nd S H (turn n) joined) after) :
    Returns (iterations P dist nd S H turn graph (n + 1)) after := by
  unfold iterations
  rw [List.range_succ]
  exact foldlM_append hbefore (foldlM_cons (hjoin.bind hupdate) (foldlM_nil _ _))

/-- What the first `n` iterations have led to: the pools have become no worse, and whatever any of
the iterations has joined is settled. -/
structure Descended (P : Parameters) (dist : ℕ → ℕ → F) (nd : ℕ) (S : Sorting F)
    (H : HeapAlgorithms (Neighbor.distance (K := F))) (turn : ℕ → Turn F) (first : KNNGraph F) (n : ℕ)
    (graph : KNNGraph F) : Prop extends Ready dist nd H graph where
  improves : ∀ i < nd, Improves (dist i) P.L (ids (first i).pool) (ids (graph i).pool)
  settled  : ∀ it < n, ∃ before, Returns (iterations P dist nd S H turn first it) before ∧
    ∀ m < nd, ∀ i j, Joined (before m) i j → (i < nd ∧ j < nd) ∧
      Settled (dist i) (ids (graph i).pool) j ∧ Settled (dist j) (ids (graph j).pool) i

theorem iterations_returns (hL : 0 < P.L) (hR : 0 < P.R) (hsymm : ∀ i j, dist i j = dist j i)
    {first : KNNGraph F} (h : Ready dist nd H first) (S : Sorting F) (turn : ℕ → Turn F) (n : ℕ) :
    ∃ graph, Returns (iterations P dist nd S H turn first n) graph ∧
      Descended P dist nd S H turn first n graph := by
  induction n with
  | zero =>
    exact ⟨first, foldlM_nil _ _, h, fun i _ => Improves.refl P.L _,
      fun it hit => absurd hit (Nat.not_lt_zero it)⟩
  | succ n ih =>
    obtain ⟨before, hbefore, hdescended⟩ := ih
    obtain ⟨joined, hjoin, hready, hbetter, hsettled⟩ :=
      join_returns hdescended.toReady hsymm (turn n)
    obtain ⟨after, hupdate, hready', hupdated⟩ := update_returns hL hR hready S (turn n)
    have hstep : ∀ i < nd, Improves (dist i) P.L (ids (before i).pool) (ids (after i).pool) :=
      fun i hi => (hbetter P.L i hi).trans (hupdated i hi).improves
    refine ⟨after, iterations_next hbefore hjoin hupdate, hready',
      fun i hi => (hdescended.improves i hi).trans (hstep i hi), fun it hit => ?_⟩
    rcases Nat.lt_succ_iff_lt_or_eq.mp hit with hit | rfl
    · -- joined before, and settled since then
      obtain ⟨g, hg, hpairs⟩ := hdescended.settled it hit
      refine ⟨g, hg, fun m hm i j hij => ?_⟩
      obtain ⟨⟨hi, hj⟩, hsi, hsj⟩ := hpairs m hm i j hij
      exact ⟨⟨hi, hj⟩, (hstep i hi).settled j hsi, (hstep j hj).settled i hsj⟩
    · refine ⟨before, hbefore, fun m hm i j hij => ?_⟩
      have hi := hdescended.sampled m hm i (List.mem_append_left _ hij.2.1)
      have hj := hdescended.sampled m hm j hij.2.2
      obtain ⟨hsi, hsj⟩ := hsettled m hm i j hij
      exact ⟨⟨hi, hj⟩, (hupdated i hi).improves.settled j hsi, (hupdated j hj).improves.settled i hsj⟩

-- ---------------------------------------------------------------------------
-- The lists
-- ---------------------------------------------------------------------------

/-- The list of a node: `K` other nodes in the order of their distances, no worse than what the pool
of the node held. -/
structure NearestList (P : Parameters) (d : ℕ → F) (nd owner : ℕ) (pool : List (Neighbor F))
    (list : List ℕ) : Prop where
  length   : list.length = P.K
  nodup    : list.Nodup
  node     : ∀ u ∈ list, u < nd ∧ u ≠ owner
  sorted   : list.Pairwise fun a b => d a ≤ d b
  improves : Improves d P.K (ids pool) list

theorem nearestIds_returns {d : ℕ → F} {owner : ℕ} {nhood : Nhood F} (h : PoolOk d nd owner nhood.pool)
    (hK : P.K ≤ nhood.pool.length) (S : Sorting F) :
    ∃ list, Returns (nearestIds P S nhood) list ∧ NearestList P d nd owner nhood.pool list := by
  have hperm := S.perm nhood.pool
  have hok := h.perm hperm.symm
  have htake : ((S.sort nhood.pool).take P.K).map Neighbor.id = (ids (S.sort nhood.pool)).take P.K :=
    List.map_take
  have hsorted : (ids (S.sort nhood.pool)).Pairwise fun a b => d a ≤ d b :=
    List.pairwise_map.mpr ((S.sorted nhood.pool).imp_of_mem fun {a b} ha hb hab => by
      rwa [← hok.distance a ha, ← hok.distance b hb])
  refine ⟨(ids (S.sort nhood.pool)).take P.K, ?_, ⟨?_, ?_, fun u hu => ?_, ?_, ?_⟩⟩
  · unfold nearestIds
    dsimp only
    rw [if_neg (by rw [hperm.length_eq]; omega), htake]
    exact returns_pure _
  · rw [List.length_take, ids, List.length_map, hperm.length_eq]
    omega
  · exact hok.nodup.sublist (List.take_sublist _ _)
  · obtain ⟨p, hp, rfl⟩ := List.mem_map.mp (List.mem_of_mem_take hu)
    exact hok.node p hp
  · exact hsorted.sublist (List.take_sublist _ _)
  · exact (improves_perm P.K (hperm.map Neighbor.id).symm).trans (improves_take P.K hsorted)

/-- **Building a kNN graph.** Whatever the threads, the races and the random numbers do, the lists are of
`K` other nodes each, no worse than the pools of the last iteration. -/
theorem build_returns (hK : P.K < P.S) (hS : 1 < P.S) (hKL : P.K ≤ P.L) (hL : 0 < P.L) (hR : 0 < P.R)
    (hnodes : 2 * P.S < nd) (hcontrol : controlNum < nd) (hnd : nd ≤ 2 ^ 31)
    (hsymm : ∀ i j, dist i j = dist j i) (S : Sorting F)
    (H : HeapAlgorithms (Neighbor.distance (K := F))) (rng : ℕ → ℕ) (search : ℕ → ℕ → ℕ)
    (control : ℕ → ℕ) (turn : ℕ → Turn F) :
    ∃ first last lists, Returns (initializeGraph P dist nd H rng search) first ∧
      Descended P dist nd S H turn first P.iter last ∧
      Returns (build P dist nd S H rng search control turn) lists ∧ lists.length = nd ∧
      ∀ i < nd, ∃ list, lists[i]? = some list ∧ NearestList P (dist i) nd i (last i).pool list := by
  obtain ⟨first, hfirst, hready, hsize⟩ := initializeGraph_returns dist hS hnodes hnd H rng search
  obtain ⟨last, hlast, hdescended⟩ := iterations_returns hL hR hsymm hready S turn P.iter
  obtain ⟨ids, hids, -⟩ := genRandom_returns control hcontrol hnd
  obtain ⟨lists, hlists, hlen, hnearest⟩ := range_returns
    (f := fun (final_graph : List (List ℕ)) i => do
      let tmp ← nearestIds P S (last i)
      pure (final_graph ++ [tmp])) (n := nd) (s := [])
    (fun n (lists : List (List ℕ)) => lists.length = n ∧ ∀ i < n, ∃ list, lists[i]? = some list ∧
      NearestList P (dist i) nd i (last i).pool list)
    (fun n hn lists ⟨hlen, hlists⟩ => by
      have hpool := (hdescended.improves n hn).length_le
      have := hsize n hn
      obtain ⟨list, hret, hlist⟩ := nearestIds_returns (hdescended.pool n hn).toPoolOk (P := P)
        (by simp only [Efanna.ids, List.length_map] at hpool; omega) S
      refine ⟨lists ++ [list], hret.bind (returns_pure _), by rw [List.length_append, hlen]; rfl,
        fun i hi => ?_⟩
      rcases Nat.lt_succ_iff_lt_or_eq.mp hi with hi | rfl
      · rw [List.getElem?_append_left (hlen.symm ▸ hi)]
        exact hlists i hi
      · exact ⟨list, by rw [← hlen, List.getElem?_concat_length], hlist⟩)
    ⟨rfl, fun i hi => absurd hi (Nat.not_lt_zero i)⟩
  exact ⟨first, last, lists, hfirst, hdescended, hfirst.bind ((hids.bind hlast).bind hlists), hlen,
    hnearest⟩

section Rows

variable {V : Type} (D : Distance V F) (data : ℕ → V) (hK : P.K < P.S) (hS : 1 < P.S) (hKL : P.K ≤ P.L)
  (hL : 0 < P.L) (hR : 0 < P.R) (hnodes : 2 * P.S < nd) (hcontrol : controlNum < nd) (hnd : nd ≤ 2 ^ 31)

/-- `compare` of two rows. -/
def rowDistance (i j : ℕ) : F := D.compare (data i) (data j)

include hK hS hKL hL hR hnodes hcontrol hnd

omit hK hKL hcontrol in
/-- **What an iteration samples**, from the random pools on: at most `S` neighbours that were new before are new
ones to join, and these and no others stop being new; the next join makes at most
`2 (S + R) (S + 3 R)` offers for each node. -/
theorem iterations_samples (S : Sorting F) (H : HeapAlgorithms (Neighbor.distance (K := F)))
    (rng : ℕ → ℕ) (search : ℕ → ℕ → ℕ) (turn : ℕ → Turn F) :
    ∃ first, Returns (initializeGraph P (rowDistance D data) nd H rng search) first ∧
      ∀ n, ∃ before joined after,
        Returns (iterations P (rowDistance D data) nd S H turn first n) before ∧
        Returns (join (rowDistance D data) nd H (turn n) before) joined ∧
        Returns (update P nd S H (turn n) joined) after ∧
        Returns (iterations P (rowDistance D data) nd S H turn first (n + 1)) after ∧
        ∀ i < nd, Updated P (rowDistance D data i) (joined i) (after i) ∧
          ((after i).join (rowDistance D data)).length ≤ 2 * (P.S + P.R) * (P.S + 3 * P.R) := by
  have hsymm : ∀ i j, rowDistance D data i j = rowDistance D data j i :=
    fun i j => D.compare_comm (data i) (data j)
  obtain ⟨first, hfirst, hready, -⟩ := initializeGraph_returns (rowDistance D data) hS hnodes hnd H
    rng search
  refine ⟨first, hfirst, fun n => ?_⟩
  obtain ⟨before, hbefore, hdescended⟩ := iterations_returns hL hR hsymm hready S turn n
  obtain ⟨joined, hjoin, hready', -, -⟩ := join_returns hdescended.toReady hsymm (turn n)
  obtain ⟨after, hupdate, -, hupdated⟩ := update_returns hL hR hready' S (turn n)
  refine ⟨before, joined, after, hbefore, hjoin, hupdate, iterations_next hbefore hjoin hupdate,
    fun i hi => ⟨hupdated i hi, (length_join_le _).trans ?_⟩⟩
  obtain ⟨fresh, reversed, hnew, hfresh, hreversed, -, -⟩ := (hupdated i hi).samples
  have hold := (hupdated i hi).old
  have hlen : (after i).nn_new.length ≤ P.S + P.R := by
    rw [hnew, List.length_append]
    omega
  exact Nat.mul_le_mul (Nat.mul_le_mul_left 2 hlen) (by omega)

end Rows

end Descent

-- ---------------------------------------------------------------------------
-- Nodes on a line
-- ---------------------------------------------------------------------------

/-- Everything in the order of the source. -/
def Turn.inOrder (F : Type) : Turn F where
  joinOrder := id
  join_perm l := List.Perm.refl l
  updateOrder := id
  update_perm l := List.Perm.refl l
  far _ _ := true
  rand _ _ := 0
  shuffle := id

theorem line_samples : ∃ first, Returns (initializeGraph ⟨2, 3, 1, 3, 2⟩
      (rowDistance squareDistance fun i => (i : ℤ)) 101 (HeapAlgorithms.sorted _) id fun _ => id)
      first ∧
    ∀ n, ∃ after, Returns (iterations ⟨2, 3, 1, 3, 2⟩
      (rowDistance squareDistance fun i => (i : ℤ)) 101 (Sorting.insertion ℤ)
      (HeapAlgorithms.sorted _) (fun _ => Turn.inOrder ℤ) first (n + 1)) after ∧
      ∀ i < 101, ((after i).join (rowDistance squareDistance fun i => (i : ℤ))).length ≤ 90 := by
  obtain ⟨first, hfirst, hsamples⟩ := iterations_samples (P := ⟨2, 3, 1, 3, 2⟩) squareDistance
    (fun i => (i : ℤ)) (by decide) (by decide) (by decide) (show 2 * 3 < 101 by decide) (by decide)
    (Sorting.insertion ℤ) (HeapAlgorithms.sorted _) id (fun _ => id) fun _ => Turn.inOrder ℤ
  refine ⟨first, hfirst, fun n => ?_⟩
  obtain ⟨_, _, after, -, -, -, hafter, hall⟩ := hsamples n
  exact ⟨after, hafter, fun i hi => (hall i hi).2⟩

end Mqo.Build.Efanna
