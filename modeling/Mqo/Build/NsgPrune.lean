import Mqo.Build.NsgNeighbors
import Mqo.Lib.GreedySelect

/-!
# MQO — the links of a node of an NSG graph

`sync_prune` of `nsg/src/index_nsg.cpp`. What a search for a node has evaluated, together
with its neighbours in the kNN graph, is sorted by distance; from this pool the links
are chosen greedily, where a node is left out if a chosen one is closer to it than it
is to the node in question.

* `syncPrune_returns` — a pool of at least two candidates gives links;
* `LinkRule`          — the rule that they follow;
* `linkNode_rule`     — so do the links chosen for every node, from all that the search has
  evaluated and the neighbours in the kNN graph.
-/

namespace Mqo.Build.Nsg

open Prog Search.Nsg GreedySelect

/-- `SimpleNeighbor` -/
structure SimpleNeighbor (K : Type) where
  id : ℕ
  distance : K
deriving DecidableEq

section Prune

variable {K V : Type} [LinearOrder K]

-- ---------------------------------------------------------------------------
-- Choosing links
-- ---------------------------------------------------------------------------

/-- The test of the inner loop: `t` has been chosen and occludes `p`. -/
def occludes (d : ℕ → ℕ → K) (t p : SimpleNeighbor K) : Bool :=
  p.id = t.id ∨ d t.id p.id < p.distance

/-- `sync_prune(q, pool, parameter, flags, cut_graph_)`: the list `result`, which is then
written to the places of `q`. -/
def syncPrune (index : IndexNSG) (S : Sorting K) (D : Distance V K) (data : ℕ → V) (R C q : ℕ)
    (pool : List (Neighbor K)) (flags : ℕ → Bool) : Run (List (SimpleNeighbor K)) :=
  let more := ((index.final_graph q).filter fun id => ¬ flags id).map fun id =>
    (⟨id, D.compare (data q) (data id), true⟩ : Neighbor K)
  let pool := (S.sort (pool ++ more)).map fun nn => ⟨nn.id, nn.distance⟩
  match pool with
  | [] => fault .outOfRange
  | first :: _ =>
    let start := if first.id = q then 1 else 0
    match pool[start]? with
    | none => fault .outOfRange
    | some p =>
      -- `start` goes on from there, below `pool.size()` and `maxc`
      let result := select (occludes fun a b => D.compare (data a) (data b)) R [p]
        ((pool.take C).drop (start + 1))
      if R < result.length then fault .outOfRange else pure result

/-- The rule for the links `result` of `q`, chosen from the sorted `pool`: they are at most
`R`, distinct, and none is closer to an earlier one than to `q`; the first is as close as
any candidate but `q`; and one of the first `C` candidates is left out only for a link
that occludes it, or because there are `R` links. -/
structure LinkRule (d : ℕ → ℕ → K) (R C q : ℕ) (pool result : List (SimpleNeighbor K)) : Prop where
  sublist  : result.Sublist pool
  length   : result.length ≤ R
  free     : result.Pairwise fun t p => p.id ≠ t.id ∧ p.distance ≤ d t.id p.id
  closest  : ∃ p rest, result = p :: rest ∧ ∀ u ∈ pool, u.id ≠ q → p.distance ≤ u.distance
  complete : ∀ u ∈ pool.take C, u.id ≠ q → u ∈ result ∨
    (∃ t ∈ result, u.id = t.id ∨ d t.id u.id < u.distance) ∨ R ≤ result.length

theorem not_occludes {d : ℕ → ℕ → K} {t p : SimpleNeighbor K} (h : occludes d t p = false) :
    p.id ≠ t.id ∧ p.distance ≤ d t.id p.id := by
  rw [occludes, decide_eq_false_iff_not, not_or, not_lt] at h
  exact h

/-- The links chosen from a sorted pool, from the place `start` on, where before `start` there
is only `q`. -/
theorem select_linkRule {d : ℕ → ℕ → K} {R C q : ℕ} (start : ℕ) {pool tail : List (SimpleNeighbor K)}
    {p : SimpleNeighbor K} (hR : 1 ≤ R) (hsorted : pool.Pairwise fun a b => a.distance ≤ b.distance)
    (hdrop : pool.drop start = p :: tail) (hbefore : ∀ u ∈ pool.take start, u.id = q) :
    LinkRule d R C q pool (select (occludes d) R [p] ((pool.take C).drop (start + 1))) := by
  have hcands : (pool.take C).drop (start + 1) = tail.take (C - (start + 1)) := by
    rw [List.drop_take, ← List.drop_drop, hdrop, List.drop_one, List.tail_cons]
  have hsplit : pool = pool.take start ++ p :: tail := by
    rw [← hdrop, List.take_append_drop]
  have hmem : ∀ u ∈ pool, u.id ≠ q → u = p ∨ u ∈ tail := by
    intro u hu hne
    rw [hsplit, List.mem_append, List.mem_cons] at hu
    exact hu.resolve_left fun hu => hne (hbefore u hu)
  rw [hcands]
  refine ⟨?_, length_select (by simpa using hR), ?_, ?_, fun u hu hne => ?_⟩
  · refine (select_sublist _ _).trans ?_
    rw [List.singleton_append]
    exact ((List.take_sublist _ tail).cons_cons p).trans (hdrop ▸ List.drop_sublist start pool)
  · exact (select_pairwise (List.pairwise_singleton _ _)).imp not_occludes
  · obtain ⟨rest, hrest⟩ : [p] <+: select (occludes d) R [p] (tail.take (C - (start + 1))) :=
      prefix_select _ _
    refine ⟨p, rest, hrest.symm, fun u hu hne => ?_⟩
    rcases hmem u hu hne with rfl | htail
    · exact le_refl _
    · rw [hsplit] at hsorted
      exact (List.pairwise_cons.mp (List.pairwise_append.mp hsorted).2.1).1 u htail
  · have hlater : u = p ∨ u ∈ tail.take (C - (start + 1)) := by
      rw [← List.take_append_drop start (pool.take C), List.mem_append, List.drop_take, hdrop] at hu
      rcases hu with hu | hu
      · rw [List.take_take, Nat.min_comm, ← List.take_take] at hu
        exact absurd (hbefore u (List.mem_of_mem_take hu)) hne
      · cases hC : C - start with
        | zero =>
          rw [hC] at hu
          exact absurd hu List.not_mem_nil
        | succ c =>
          rw [hC, List.take_succ_cons, List.mem_cons] at hu
          rw [show C - (start + 1) = c by omega]
          exact hu
    rcases hlater with rfl | hlater
    · exact Or.inl ((prefix_select _ _).subset List.mem_cons_self)
    · refine (select_complete hlater).imp_right (Or.imp_left ?_)
      rintro ⟨t, ht, hblocks⟩
      exact ⟨t, ht, of_decide_eq_true hblocks⟩

/-- The candidates for the links of `q`: the pool of the search, and the neighbours in the
kNN graph that it has not evaluated. -/
def candidates (index : IndexNSG) (D : Distance V K) (data : ℕ → V) (q : ℕ)
    (pool : List (Neighbor K)) (flags : ℕ → Bool) : List (SimpleNeighbor K) :=
  pool.map (fun nn => ⟨nn.id, nn.distance⟩) ++
    ((index.final_graph q).filter fun id => ¬ flags id).map fun id => ⟨id, D.compare (data q) (data id)⟩

/-- **The links of a node.** -/
theorem syncPrune_returns (index : IndexNSG) (S : Sorting K) (D : Distance V K) (data : ℕ → V)
    {R : ℕ} (hR : 1 ≤ R) (C q : ℕ) {pool : List (Neighbor K)} (hpool : 2 ≤ pool.length)
    (flags : ℕ → Bool) :
    ∃ sorted result, Returns (syncPrune index S D data R C q pool flags) result ∧
      sorted.Perm (candidates index D data q pool flags) ∧
      sorted.Pairwise (fun a b => a.distance ≤ b.distance) ∧
      LinkRule (fun a b => D.compare (data a) (data b)) R C q sorted result := by
  let more := ((index.final_graph q).filter fun id => ¬ flags id).map fun id =>
    (⟨id, D.compare (data q) (data id), true⟩ : Neighbor K)
  obtain ⟨sorted, hsorted⟩ : ∃ sorted, sorted = (S.sort (pool ++ more)).map
    (fun nn => (⟨nn.id, nn.distance⟩ : SimpleNeighbor K)) := ⟨_, rfl⟩
  have hperm : sorted.Perm (candidates index D data q pool flags) := by
    rw [hsorted]
    refine ((S.perm _).map _).trans (List.Perm.of_eq ?_)
    rw [List.map_append, List.map_map]
    rfl
  have hascending : sorted.Pairwise fun a b => a.distance ≤ b.distance := by
    rw [hsorted, List.pairwise_map]
    exact S.sorted _
  have hlen : 2 ≤ sorted.length := by
    rw [hperm.length_eq, candidates, List.length_append, List.length_map]
    omega
  obtain ⟨first, second, rest, rfl⟩ : ∃ first second rest, sorted = first :: second :: rest := by
    match sorted, hlen with
    | first :: second :: rest, _ => exact ⟨first, second, rest, rfl⟩
  refine ⟨first :: second :: rest, ?_⟩
  unfold syncPrune
  dsimp only
  rw [← hsorted]
  dsimp only
  by_cases hfirst : first.id = q
  · have hrule := select_linkRule (C := C) (d := fun a b => D.compare (data a) (data b)) 1 hR
      hascending (q := q) rfl (by simpa using hfirst)
    refine ⟨_, ?_, hperm, hascending, hrule⟩
    rw [if_pos hfirst]
    dsimp only [List.getElem?_cons_succ, List.getElem?_cons_zero]
    rw [if_neg (not_lt.mpr hrule.length)]
    exact returns_pure _
  · have hrule := select_linkRule (C := C) (d := fun a b => D.compare (data a) (data b)) 0 hR
      hascending (q := q) rfl (by simp)
    refine ⟨_, ?_, hperm, hascending, hrule⟩
    rw [if_neg hfirst]
    dsimp only [List.getElem?_cons_zero]
    rw [if_neg (not_lt.mpr hrule.length)]
    exact returns_pure _

end Prune

end Mqo.Build.Nsg
