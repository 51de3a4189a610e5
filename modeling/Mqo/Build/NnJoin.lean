import Mqo.Build.NnPool

/-!
# MQO — joining neighbours

`join` of `efanna_graph/src/index_graph.cpp`: the neighbours that a node has sampled are offered to
one another, where at least one of the two is new. The loop is parallel; each offer is made under
the lock of the node that it is made to, and the offers are made in any order.

* `insertOffer_returns` — what one offer keeps;
* `join_returns`        — a join loses none of them, whatever the order.
-/

namespace Mqo.Build.Efanna

open Prog Nearest Search.Nsg

-- ---------------------------------------------------------------------------
-- The functions
-- ---------------------------------------------------------------------------

/-- What `Build` reads from its `Parameters`. -/
structure Parameters where
  K : ℕ
  L : ℕ
  iter : ℕ
  S : ℕ
  R : ℕ

/-- A call of `insert` in `join`: `graph_[node].insert(id, dist)`. -/
structure Offer (F : Type) where
  node : ℕ
  id : ℕ
  dist : F

/-- What an iteration leaves to the scheduler, to `rand()` and to races. -/
structure Turn (F : Type) where
  joinOrder   : List (Offer F) → List (Offer F)
  join_perm   : ∀ l, (joinOrder l).Perm l
  updateOrder : List (ℕ × ℕ) → List (ℕ × ℕ)
  update_perm : ∀ l, (updateOrder l).Perm l
  far         : ℕ → ℕ → Bool
  rand        : ℕ → ℕ → ℕ
  shuffle     : List ℕ → List ℕ

/-- `graph_` -/
abbrev KNNGraph (F : Type) := ℕ → Nhood F

section Join

variable {F : Type} [LinearOrder F]

section Functions

variable (dist : ℕ → ℕ → F)

omit [LinearOrder F] in
/-- The callback of `join`. -/
def callback (i j : ℕ) : List (Offer F) :=
  if i ≠ j then [⟨i, j, dist i j⟩, ⟨j, i, dist i j⟩] else []

omit [LinearOrder F] in
/-- `nhood::join(callback)` -/
def Nhood.join (nhood : Nhood F) : List (Offer F) :=
  nhood.nn_new.flatMap fun i =>
    (nhood.nn_new.flatMap fun j => if i < j then callback dist i j else []) ++
      nhood.nn_old.flatMap fun j => callback dist i j

/-- A call of `insert`. -/
def insertOffer (nd : ℕ) (H : HeapAlgorithms (Neighbor.distance (K := F))) (graph : KNNGraph F)
    (o : Offer F) : Run (KNNGraph F) :=
  if o.node < nd then do
    let nhood ← insert H (graph o.node) o.id o.dist
    pure (Function.update graph o.node nhood)
  else fault .outOfRange

/-- `IndexGraph::join()` -/
def join (nd : ℕ) (H : HeapAlgorithms (Neighbor.distance (K := F))) (turn : Turn F)
    (graph : KNNGraph F) : Run (KNNGraph F) :=
  (turn.joinOrder ((List.range nd).flatMap fun n => (graph n).join dist)).foldlM
    (insertOffer nd H) graph

end Functions

-- ---------------------------------------------------------------------------
-- Joining
-- ---------------------------------------------------------------------------

variable {dist : ℕ → ℕ → F} {nd : ℕ} {H : HeapAlgorithms (Neighbor.distance (K := F))}

/-- The graph between two iterations. -/
structure Ready (dist : ℕ → ℕ → F) (nd : ℕ) (H : HeapAlgorithms (Neighbor.distance (K := F)))
    (graph : KNNGraph F) : Prop where
  pool    : ∀ i < nd, IsPool H (dist i) nd i (graph i).capacity (graph i).pool
  sampled : ∀ i < nd, ∀ u ∈ (graph i).nn_new ++ (graph i).nn_old, u < nd
  rnn_new : ∀ i < nd, (graph i).rnn_new = []
  rnn_old : ∀ i < nd, (graph i).rnn_old = []

/-- An offer of a node to another one. -/
structure Offer.Ok (dist : ℕ → ℕ → F) (nd : ℕ) (o : Offer F) : Prop where
  node : o.node < nd
  id   : o.id < nd
  ne   : o.id ≠ o.node
  dist : o.dist = dist o.node o.id

/-- Two nodes that a join offers to one another. -/
def Joined (nhood : Nhood F) (i j : ℕ) : Prop :=
  i ≠ j ∧ i ∈ nhood.nn_new ∧ j ∈ nhood.nn_new ++ nhood.nn_old

omit [LinearOrder F] in
theorem mem_callback {i j : ℕ} {o : Offer F} :
    o ∈ callback dist i j ↔ i ≠ j ∧ (o = ⟨i, j, dist i j⟩ ∨ o = ⟨j, i, dist i j⟩) := by
  unfold callback
  split <;> simp_all

omit [LinearOrder F] in
/-- The offers of a join. -/
theorem mem_join {nhood : Nhood F} {o : Offer F} : o ∈ nhood.join dist ↔ ∃ i ∈ nhood.nn_new, ∃ j,
    (j ∈ nhood.nn_new ∧ i < j ∨ j ∈ nhood.nn_old) ∧ o ∈ callback dist i j := by
  unfold Nhood.join
  rw [List.mem_flatMap]
  refine exists_congr fun i => and_congr_right fun _ => ?_
  rw [List.mem_append, List.mem_flatMap, List.mem_flatMap]
  constructor
  · rintro (⟨j, hj, ho⟩ | ⟨j, hj, ho⟩)
    · split at ho
      · next hlt => exact ⟨j, Or.inl ⟨hj, hlt⟩, ho⟩
      · exact absurd ho List.not_mem_nil
    · exact ⟨j, Or.inr hj, ho⟩
  · rintro ⟨j, ⟨hj, hlt⟩ | hj, ho⟩
    · exact Or.inl ⟨j, hj, by rwa [if_pos hlt]⟩
    · exact Or.inr ⟨j, hj, ho⟩

variable (dist) in
omit [LinearOrder F] in
/-- Nodes that are joined are offered to one another. -/
theorem offers_of_joined {nhood : Nhood F} {i j : ℕ} (h : Joined nhood i j) :
    (∃ o ∈ nhood.join dist, o.node = i ∧ o.id = j) ∧ ∃ o ∈ nhood.join dist, o.node = j ∧ o.id = i := by
  obtain ⟨hne, hi, hj⟩ := h
  rcases List.mem_append.mp hj with hj | hj
  · rcases Nat.lt_or_gt_of_ne hne with hlt | hlt
    · exact ⟨⟨⟨i, j, dist i j⟩, mem_join.mpr ⟨i, hi, j, Or.inl ⟨hj, hlt⟩,
        mem_callback.mpr ⟨hne, Or.inl rfl⟩⟩, rfl, rfl⟩, ⟨⟨j, i, dist i j⟩, mem_join.mpr ⟨i, hi, j,
        Or.inl ⟨hj, hlt⟩, mem_callback.mpr ⟨hne, Or.inr rfl⟩⟩, rfl, rfl⟩⟩
    · exact ⟨⟨⟨i, j, dist j i⟩, mem_join.mpr ⟨j, hj, i, Or.inl ⟨hi, hlt⟩,
        mem_callback.mpr ⟨hne.symm, Or.inr rfl⟩⟩, rfl, rfl⟩, ⟨⟨j, i, dist j i⟩, mem_join.mpr ⟨j, hj, i,
        Or.inl ⟨hi, hlt⟩, mem_callback.mpr ⟨hne.symm, Or.inl rfl⟩⟩, rfl, rfl⟩⟩
  · exact ⟨⟨⟨i, j, dist i j⟩, mem_join.mpr ⟨i, hi, j, Or.inr hj,
      mem_callback.mpr ⟨hne, Or.inl rfl⟩⟩, rfl, rfl⟩, ⟨⟨j, i, dist i j⟩, mem_join.mpr ⟨i, hi, j,
      Or.inr hj, mem_callback.mpr ⟨hne, Or.inr rfl⟩⟩, rfl, rfl⟩⟩

omit [LinearOrder F] in
/-- How many offers a join makes. -/
theorem length_join_le (nhood : Nhood F) : (nhood.join dist).length ≤
    2 * nhood.nn_new.length * (nhood.nn_new.length + nhood.nn_old.length) := by
  have htwo : ∀ i j, (callback dist i j).length ≤ 2 := fun i j => by
    unfold callback
    split <;> simp
  have hall : ∀ (f : ℕ → List (Offer F)) (c : ℕ) (l : List ℕ), (∀ i, (f i).length ≤ c) →
      (l.flatMap f).length ≤ l.length * c := by
    intro f c l hf
    induction l with
    | nil => exact Nat.zero_le _
    | cons i l ih =>
      rw [List.flatMap_cons, List.length_append, List.length_cons, Nat.succ_mul]
      have := hf i
      omega
  refine (hall _ (2 * (nhood.nn_new.length + nhood.nn_old.length)) _ fun i => ?_).trans
    (Nat.le_of_eq (by ring))
  rw [List.length_append]
  have hnew := hall (fun j => if i < j then callback dist i j else []) 2 nhood.nn_new fun j => by
    split
    · exact htwo i j
    · exact Nat.zero_le _
  have hold := hall (fun j => callback dist i j) 2 nhood.nn_old (htwo i)
  omega

/-- The offers of a graph whose samples are nodes, for a distance that is symmetric. -/
theorem Ready.offer_ok {graph : KNNGraph F} (h : Ready dist nd H graph)
    (hsymm : ∀ i j, dist i j = dist j i) {n : ℕ} (hn : n < nd) {o : Offer F}
    (ho : o ∈ (graph n).join dist) : o.Ok dist nd := by
  obtain ⟨i, hi, j, hj, ho⟩ := mem_join.mp ho
  have hin := h.sampled n hn i (List.mem_append_left _ hi)
  have hjn : j < nd := h.sampled n hn j
    (hj.elim (fun hj => List.mem_append_left _ hj.1) (List.mem_append_right _))
  obtain ⟨hne, rfl | rfl⟩ := mem_callback.mp ho
  · exact ⟨hin, hjn, hne.symm, rfl⟩
  · exact ⟨hjn, hin, hne, hsymm i j⟩

/-- What holds while the offers `done` have been made, in any order. -/
structure JoinInv (dist : ℕ → ℕ → F) (nd : ℕ) (H : HeapAlgorithms (Neighbor.distance (K := F)))
    (before : KNNGraph F) (done : List (Offer F)) (graph : KNNGraph F) : Prop where
  pool     : ∀ i < nd, IsPool H (dist i) nd i (graph i).capacity (graph i).pool
  same     : ∀ i, graph i = { before i with pool := (graph i).pool }
  improves : ∀ n, ∀ i < nd, Improves (dist i) n (ids (before i).pool) (ids (graph i).pool)
  settled  : ∀ o ∈ done, Settled (dist o.node) (ids (graph o.node).pool) o.id

/-- **One offer.** -/
theorem insertOffer_returns {before graph : KNNGraph F} {done : List (Offer F)}
    (h : JoinInv dist nd H before done graph) {o : Offer F} (ho : o.Ok dist nd) :
    ∃ graph', Returns (insertOffer nd H graph o) graph' ∧
      JoinInv dist nd H before (done ++ [o]) graph' := by
  obtain ⟨pool', hret, hpool, hsettled, himproves⟩ :=
    insert_returns H (h.pool o.node ho.node) ho.id ho.ne
  refine ⟨Function.update graph o.node { graph o.node with pool := pool' }, ?_,
    fun i hi => ?_, fun i => ?_, fun n i hi => ?_, fun q hq => ?_⟩
  · rw [insertOffer, if_pos ho.node, ho.dist]
    exact hret.bind (returns_pure _)
  · by_cases hio : i = o.node
    · rw [hio, Function.update_self]
      exact hpool
    · rw [Function.update_of_ne hio]
      exact h.pool i hi
  · by_cases hio : i = o.node
    · rw [hio, Function.update_self, h.same o.node]
    · rw [Function.update_of_ne hio]
      exact h.same i
  · by_cases hio : i = o.node
    · rw [hio, Function.update_self]
      exact (h.improves n o.node ho.node).trans (himproves n)
    · rw [Function.update_of_ne hio]
      exact h.improves n i hi
  · rcases List.mem_append.mp hq with hq | hq
    · by_cases hqo : q.node = o.node
      · rw [hqo, Function.update_self]
        exact (himproves 0).settled q.id (hqo ▸ h.settled q hq)
      · rw [Function.update_of_ne hqo]
        exact h.settled q hq
    · rw [List.mem_singleton.mp hq, Function.update_self]
      exact hsettled

/-- **A join.** In whatever order the offers are made, none is lost: nodes that are joined are then
settled in one another's pools. -/
theorem join_returns {graph : KNNGraph F} (h : Ready dist nd H graph)
    (hsymm : ∀ i j, dist i j = dist j i) (turn : Turn F) :
    ∃ graph', Returns (join dist nd H turn graph) graph' ∧ Ready dist nd H graph' ∧
      (∀ n, ∀ i < nd, Improves (dist i) n (ids (graph i).pool) (ids (graph' i).pool)) ∧
      ∀ n < nd, ∀ i j, Joined (graph n) i j →
        Settled (dist i) (ids (graph' i).pool) j ∧ Settled (dist j) (ids (graph' j).pool) i := by
  have hperm := turn.join_perm ((List.range nd).flatMap fun n => (graph n).join dist)
  obtain ⟨graph', hret, hinv⟩ := foldlM_returns (JoinInv dist nd H graph)
    (l := turn.joinOrder ((List.range nd).flatMap fun n => (graph n).join dist))
    (f := insertOffer nd H) (fun pre o post g hsplit hinv => insertOffer_returns hinv (by
      have ho := hperm.mem_iff.mp (hsplit ▸ List.mem_append_right _ List.mem_cons_self : o ∈ _)
      obtain ⟨n, hn, ho⟩ := List.mem_flatMap.mp ho
      exact h.offer_ok hsymm (List.mem_range.mp hn) ho))
    (s := graph) ⟨h.pool, fun _ => rfl, fun n i _ => Improves.refl n _,
      fun o ho => absurd ho List.not_mem_nil⟩
  refine ⟨graph', hret, ⟨hinv.pool, fun i hi => ?_, fun i hi => ?_, fun i hi => ?_⟩, hinv.improves,
    fun n hn i j hij => ?_⟩
  · rw [hinv.same i]
    exact h.sampled i hi
  · rw [hinv.same i]
    exact h.rnn_new i hi
  · rw [hinv.same i]
    exact h.rnn_old i hi
  · have hmade : ∀ o ∈ (graph n).join dist, Settled (dist o.node) (ids (graph' o.node).pool) o.id :=
      fun o ho => hinv.settled o
        (hperm.mem_iff.mpr (List.mem_flatMap.mpr ⟨n, List.mem_range.mpr hn, ho⟩))
    obtain ⟨⟨o, ho, hoi, hoj⟩, q, hq, hqj, hqi⟩ := offers_of_joined dist hij
    exact ⟨hoi ▸ hoj ▸ hmade o ho, hqj ▸ hqi ▸ hmade q hq⟩

end Join

end Mqo.Build.Efanna
