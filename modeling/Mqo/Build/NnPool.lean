import Mqo.Lib.MaxHeap
import Mqo.Lib.Nearest
import Mqo.Search.NsgPool
import Mqo.Trajectory.Basic

/-!
# MQO — the pool of a node in NN-descent

`nhood` of `efanna2eold/neighbor.h`: the pool of a node is a heap of neighbours with the
farthest one in front, and `insert`, under the lock of the node, takes one that is new and no
farther. A pool that is as large as its capacity gives up its farthest neighbour.

* `insert_returns` — the neighbour is settled: in the pool, or no nearer than any that is; and
  the pool only improves.
-/

namespace Mqo.Build.Efanna

open Prog Nearest Search.Nsg

variable {F : Type} [LinearOrder F]

/-- `nhood`, and the capacity of its pool. -/
structure Nhood (F : Type) where
  pool : List (Neighbor F)
  capacity : ℕ
  M : ℕ
  nn_old : List ℕ
  nn_new : List ℕ
  rnn_old : List ℕ
  rnn_new : List ℕ

/-- `insert(id, dist)` -/
def insert (H : HeapAlgorithms (Neighbor.distance (K := F))) (nhood : Nhood F) (id : ℕ) (dist : F) :
    Run (Nhood F) :=
  match nhood.pool with
  | [] => fault .outOfRange
  | front :: rest =>
    if front.distance < dist then pure nhood
    else if id ∈ (front :: rest).map Neighbor.id then pure nhood
    else if (front :: rest).length < nhood.capacity then
      pure { nhood with pool := H.push (front :: rest) ⟨id, dist, true⟩ }
    else pure { nhood with pool := H.replace (front :: rest) ⟨id, dist, true⟩ }

/-- The ids of a pool. -/
def ids (pool : List (Neighbor F)) : List ℕ := pool.map Neighbor.id

/-- The pool of the node `owner`: other nodes, each at most once, with their distances. -/
structure PoolOk (d : ℕ → F) (nd owner : ℕ) (pool : List (Neighbor F)) : Prop where
  nodup    : (ids pool).Nodup
  node     : ∀ p ∈ pool, p.id < nd ∧ p.id ≠ owner
  distance : ∀ p ∈ pool, p.distance = d p.id

variable {d : ℕ → F} {nd owner : ℕ} {pool pool' : List (Neighbor F)}

omit [LinearOrder F] in
theorem PoolOk.perm (h : pool.Perm pool') (hpool : PoolOk d nd owner pool) :
    PoolOk d nd owner pool' where
  nodup := (h.map Neighbor.id).nodup_iff.mp hpool.nodup
  node p hp := hpool.node p (h.mem_iff.mpr hp)
  distance p hp := hpool.distance p (h.mem_iff.mpr hp)

omit [LinearOrder F] in
/-- A part of a pool. -/
theorem PoolOk.sublist (h : pool'.Sublist pool) (hpool : PoolOk d nd owner pool) :
    PoolOk d nd owner pool' where
  nodup := hpool.nodup.sublist (h.map Neighbor.id)
  node p hp := hpool.node p (h.subset hp)
  distance p hp := hpool.distance p (h.subset hp)

omit [LinearOrder F] in
/-- One more neighbour. -/
theorem PoolOk.cons (hpool : PoolOk d nd owner pool) {id : ℕ} (hid : id < nd) (howner : id ≠ owner)
    (hnew : id ∉ ids pool) : PoolOk d nd owner (⟨id, d id, true⟩ :: pool) where
  nodup := List.nodup_cons.mpr ⟨hnew, hpool.nodup⟩
  node p hp := (List.mem_cons.mp hp).elim (fun h => h ▸ ⟨hid, howner⟩) (hpool.node p)
  distance p hp := (List.mem_cons.mp hp).elim (fun h => h ▸ rfl) (hpool.distance p)

/-- All neighbours of a pool are no farther than a distance. -/
theorem PoolOk.le (hpool : PoolOk d nd owner pool) {t : F} (h : ∀ p ∈ pool, p.distance ≤ t) :
    ∀ u ∈ ids pool, d u ≤ t := by
  intro u hu
  obtain ⟨p, hp, rfl⟩ := List.mem_map.mp hu
  exact hpool.distance p hp ▸ h p hp

/-- A pool between two joins: a heap that is not empty and fits its capacity. -/
structure IsPool (H : HeapAlgorithms (Neighbor.distance (K := F))) (d : ℕ → F) (nd owner capacity : ℕ)
    (pool : List (Neighbor F)) : Prop extends PoolOk d nd owner pool where
  heap : H.IsHeap pool
  pos  : pool ≠ []
  fits : pool.length ≤ capacity

/-- **Inserting** a neighbour with its distance. The other members stay. -/
theorem insert_returns (H : HeapAlgorithms (Neighbor.distance (K := F))) {nhood : Nhood F}
    (h : IsPool H d nd owner nhood.capacity nhood.pool) {id : ℕ} (hid : id < nd)
    (howner : id ≠ owner) :
    ∃ pool', Returns (insert H nhood id (d id)) { nhood with pool := pool' } ∧
      IsPool H d nd owner nhood.capacity pool' ∧ Settled d (ids pool') id ∧
      ∀ n, Improves d n (ids nhood.pool) (ids pool') := by
  obtain ⟨pool, capacity, M, nn_old, nn_new, rnn_old, rnn_new⟩ := nhood
  dsimp only at h ⊢
  unfold insert
  cases pool with
  | nil => exact absurd rfl h.pos
  | cons front rest =>
    dsimp only
    have hfront : ∀ u ∈ ids rest, d u ≤ d front.id := by
      have hle := (h.toPoolOk.sublist (List.sublist_cons_self front rest)).le
        (H.front_le h.heap)
      rwa [h.distance front List.mem_cons_self] at hle
    by_cases hfar : front.distance < d id
    · -- farther than all
      rw [if_pos hfar]
      rw [h.distance front List.mem_cons_self] at hfar
      refine ⟨front :: rest, returns_pure _, h, Or.inr fun u hu => ?_, fun n => Improves.refl n _⟩
      rcases List.mem_cons.mp hu with rfl | hu
      · exact hfar.le
      · exact (hfront u hu).trans hfar.le
    rw [if_neg hfar]
    have hnear : d id ≤ d front.id := by
      rw [← h.distance front List.mem_cons_self]
      exact not_lt.mp hfar
    by_cases hthere : id ∈ (front :: rest).map Neighbor.id
    · rw [if_pos hthere]
      exact ⟨front :: rest, returns_pure _, h, Or.inl hthere, fun n => Improves.refl n _⟩
    rw [if_neg hthere]
    by_cases hroom : (front :: rest).length < capacity
    · rw [if_pos hroom]
      obtain ⟨hheap, hperm⟩ := H.push_spec h.heap ⟨id, d id, true⟩
      refine ⟨_, returns_pure _, ⟨(h.cons hid howner hthere).perm hperm.symm, hheap, ?_, ?_⟩, ?_, ?_⟩
      · exact fun hnil => List.cons_ne_nil _ _ (hnil ▸ hperm).nil_eq.symm
      · rw [hperm.length_eq]
        exact hroom
      · exact Or.inl ((hperm.map Neighbor.id).mem_iff.mpr List.mem_cons_self)
      · exact fun n => (improves_cons n List.mem_cons_self hnear).trans
          (improves_perm n (hperm.map Neighbor.id).symm)
    · rw [if_neg hroom]
      obtain ⟨hheap, hperm⟩ := H.replace_spec h.heap ⟨id, d id, true⟩
      have hrest := h.toPoolOk.sublist (List.sublist_cons_self front rest)
      refine ⟨_, returns_pure _, ⟨(hrest.cons hid howner fun hmem =>
        hthere (List.mem_cons_of_mem _ hmem)).perm hperm.symm, hheap, ?_, ?_⟩, ?_, ?_⟩
      · exact fun hnil => List.cons_ne_nil _ _ (hnil ▸ hperm).nil_eq.symm
      · rw [hperm.length_eq]
        exact h.fits
      · exact Or.inl ((hperm.map Neighbor.id).mem_iff.mpr List.mem_cons_self)
      · exact fun n => (improves_replace n hfront hnear).trans
          (improves_perm n (hperm.map Neighbor.id).symm)

end Mqo.Build.Efanna
