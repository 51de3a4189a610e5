import Mqo.Search.BeamSweep
import Mqo.Search.NsgRecall

/-!
# MQO — how many initial candidates an NSG search asks for

A search draws random nodes until it has `L_search` distinct initial candidates. Nobody
compares this number with the number of nodes: the sweep of `run_nsg` multiplies it until
it is above the maximum of the user. Candidates are counted without bounds here, which is
exact for every positive `int`.

* `fillInit_diverges`  — with fewer nodes than that the draws never end;
* `NsgSearch.run_ids`  — with enough nodes both searches return `K` ids;
* `search_returns_iff` — when the searches return, and when no beam size of a sweep hangs.
-/

namespace Mqo.Search.Nsg

open Prog

/-- Conversion of an `int` to `unsigned`, as `L_search` is set. -/
def toUnsigned (beamsize : ℤ) : ℕ := (beamsize % 2 ^ 32).toNat

-- ---------------------------------------------------------------------------
-- More candidates than nodes
-- ---------------------------------------------------------------------------

section Fill

variable {nd L : ℕ} {neighbors : List ℕ}

/-- Distinct candidates are not more than the nodes. -/
theorem FillInv.length_le {s : FillState} (h : FillInv nd L neighbors s)
    (hnodup : s.init_ids.Nodup) : s.init_ids.length ≤ nd := by
  have hsub : s.init_ids ⊆ List.range nd := fun i hi => List.mem_range.mpr (h.lt i hi)
  have hlen := (hnodup.subperm hsub).length_le
  rwa [List.length_range] at hlen

/-- **The fill loop never ends** when more candidates than nodes are asked for. -/
theorem fillInit_diverges (hnd : 0 < nd) (hlt : ∀ u ∈ neighbors, u < nd)
    (hnodup : neighbors.Nodup) (hL : nd < L) (rng : ℕ → ℕ) :
    Diverges (fillInit nd L neighbors rng) := by
  obtain ⟨hfirst, hids, -⟩ := firstNeighbors_inv hlt rng
  refine loop_diverges (fun s => FillInv nd L neighbors s ∧ s.init_ids.Nodup) (fun s hs => ?_)
    ⟨hfirst, hids ▸ hnodup.sublist (List.take_sublist L neighbors)⟩
  -- a candidate is always missing, so the loop goes on
  have hlen := hs.1.length_le hs.2
  have hstep : ∃ s', Returns (fillStep nd L s) (.inl s') := by
    unfold fillStep
    rw [if_pos (by omega)]
    dsimp only
    split
    · exact ⟨_, returns_pure _⟩
    · exact ⟨_, returns_pure _⟩
  obtain ⟨s', hret⟩ := hstep
  have hinv := hs.1.step hnd hret
  exact ⟨s', hret, hinv.1, hinv.2 hs.2⟩

/-- Whether the fill loop ends, for random numbers that cover all nodes. -/
theorem fillInit_not_diverges_iff (hnd : 0 < nd) (hlt : ∀ u ∈ neighbors, u < nd)
    (hnodup : neighbors.Nodup) {rng : ℕ → ℕ} (hrng : Covers nd rng) :
    ¬ Diverges (fillInit nd L neighbors rng) ↔ L ≤ nd := by
  constructor
  · intro h
    by_contra hL
    exact h (fillInit_diverges hnd hlt hnodup (not_le.mp hL) rng)
  · intro hL
    obtain ⟨init, hret, -⟩ := fillInit_returns hL hlt hrng
    exact Ends.not_diverges hret

end Fill

-- ---------------------------------------------------------------------------
-- Whole searches
-- ---------------------------------------------------------------------------

section Search

variable {K V : Type} [LinearOrder K] [Zero K] (which : NsgSearch) (index : IndexNSG)
  (S : Sorting K) (D : Distance V K) (x : ℕ → V) (query : V) {k L : ℕ} {entry_point : ℤ}
  {rng : ℕ → ℕ}

/-- A search with its fill loop hangs with it. -/
theorem NsgSearch.run_diverges (hfill : Diverges (fillInit index.nd L
      (index.final_graph (index.effectiveEntry entry_point)) rng)) :
    Diverges (which.run index S D x query k L entry_point rng) := by
  cases which with
  | search_mine => exact hfill.bind
  | searchWithOptGraph_mine => exact hfill.bind

/-- **Enough nodes**: a search returns `k` ids of nodes. -/
theorem NsgSearch.run_ids (hL : 1 ≤ L) (hkL : k ≤ L) (hLnd : L ≤ index.nd)
    (hentry : entry_point < index.nd) (hrng : Covers index.nd rng) :
    ∃ res rng', Returns (which.run index S D x query k L entry_point rng) (res, rng') ∧
      res.indices.length = k ∧ ∀ id ∈ res.indices, id < index.nd := by
  have hlt := index.graph_lt _ (index.effectiveEntry_lt hentry)
  obtain ⟨init, hinit, -⟩ := fillInit_returns hLnd hlt hrng
  obtain ⟨hinv, hlen, -⟩ := fillInit_inv (Nat.zero_lt_of_lt index.ep_lt) hlt hinit
  obtain ⟨s, hloop, hpool, -, -⟩ := searchLoop_returns hL index.graph_lt (fun _ => True)
    (fun _ _ _ _ => trivial)
    (initPool_inv S index.final_graph (which.dist D x query) hinv hlen) trivial
  have hwrite : Returns (writeIndices L k s)
      ⟨(List.range k).map fun i => (s.retset i).id, s.retset, s.flags⟩ := by
    rw [writeIndices, if_neg (by omega)]
    exact returns_pure _
  refine ⟨_, init.rng, which.run_of_loop S D x query hinit hinv hlen hloop hwrite, ?_,
    fun id hid => ?_⟩
  · rw [List.length_map, List.length_range]
  · obtain ⟨i, hi, rfl⟩ := List.mem_map.mp hid
    exact (hpool.node i (lt_of_lt_of_le (List.mem_range.mp hi) hkL)).1

end Search

/-- **When the searches return**, and when no beam size that a sweep comes to makes the fill
loop run forever. `next` is the multiplication of the sweep, whatever it rounds to. -/
theorem search_returns_iff (index : IndexNSG)
    (hnodup : ∀ i < index.nd, (index.final_graph i).Nodup) :
    (∀ {K V : Type} [LinearOrder K] [Zero K] (which : NsgSearch) (S : Sorting K) (D : Distance V K)
      (x : ℕ → V) (query : V) (k L : ℕ) (entry_point : ℤ) (rng : ℕ → ℕ), 1 ≤ L → k ≤ L →
      (entry_point = -1 ∨ 0 ≤ entry_point ∧ entry_point < index.nd) → Covers index.nd rng →
      ((∃ res rng', Returns (which.run index S D x query k L entry_point rng) (res, rng') ∧
          res.indices.length = k ∧ ∀ id ∈ res.indices, id < index.nd) ↔ L ≤ index.nd)) ∧
    ∀ (next : ℤ → Option ℤ) (minbeamsize maxbeamsize : ℤ),
      (∀ b, Reached next minbeamsize maxbeamsize b →
        ∀ (entry_point : ℤ) (rng : ℕ → ℕ),
          (entry_point = -1 ∨ 0 ≤ entry_point ∧ entry_point < index.nd) → Covers index.nd rng →
          ¬ Diverges (fillInit index.nd (toUnsigned b)
            (index.final_graph (index.effectiveEntry entry_point)) rng)) ↔
      ∀ b, Reached next minbeamsize maxbeamsize b → toUnsigned b ≤ index.nd := by
  have hnd := Nat.zero_lt_of_lt index.ep_lt
  have hentry_lt : ∀ entry_point : ℤ,
      (entry_point = -1 ∨ 0 ≤ entry_point ∧ entry_point < index.nd) →
      entry_point < index.nd := by
    rintro entry_point (rfl | ⟨-, hlt⟩)
    · omega
    · exact hlt
  have hlist : ∀ entry_point : ℤ,
      (entry_point = -1 ∨ 0 ≤ entry_point ∧ entry_point < index.nd) →
      (∀ u ∈ index.final_graph (index.effectiveEntry entry_point), u < index.nd) ∧
        (index.final_graph (index.effectiveEntry entry_point)).Nodup := fun entry_point h =>
    have hlt := index.effectiveEntry_lt (hentry_lt entry_point h)
    ⟨index.graph_lt _ hlt, hnodup _ hlt⟩
  refine ⟨fun which S D x query k L entry_point rng hL hkL hentry hrng => ⟨?_, fun hLnd => ?_⟩,
    fun next minbeamsize maxbeamsize => ⟨fun h b hb => ?_, fun h b hb entry_point rng hentry hrng =>
      ?_⟩⟩
  · rintro ⟨res, rng', hret, -⟩
    by_contra hLnd
    obtain ⟨hlt, hdistinct⟩ := hlist entry_point hentry
    exact Ends.not_diverges hret (which.run_diverges index S D x query
      (fillInit_diverges hnd hlt hdistinct (not_le.mp hLnd) rng))
  · exact which.run_ids index S D x query hL hkL hLnd (hentry_lt entry_point hentry) hrng
  · obtain ⟨hlt, hdistinct⟩ := hlist (-1) (Or.inl rfl)
    exact (fillInit_not_diverges_iff hnd hlt hdistinct (covers_id index.nd)).mp
      (h b hb (-1) id (Or.inl rfl) (covers_id index.nd))
  · obtain ⟨hlt, hdistinct⟩ := hlist entry_point hentry
    exact (fillInit_not_diverges_iff hnd hlt hdistinct hrng).mpr (h b hb)

theorem lineGraph_returns :
    (∃ res rng', Returns (NsgSearch.search_mine.run lineGraph (Sorting.insertion ℤ) squareDistance
      (fun i => i) 0 1 2 0 id) (res, rng') ∧ res.indices.length = 1 ∧ ∀ u ∈ res.indices, u < 4) ∧
    ∀ b, Reached (nextBeam 2) 1 4 b →
      ¬ Diverges (fillInit 4 (toUnsigned b) (lineGraph.final_graph 0) id) := by
  have hnodup : ∀ i < lineGraph.nd, (lineGraph.final_graph i).Nodup := by decide
  obtain ⟨hsearch, hsweep⟩ := search_returns_iff lineGraph hnodup
  refine ⟨(hsearch .search_mine (Sorting.insertion ℤ) squareDistance (fun i => i) 0 1 2 0 id
    (by decide) (by decide) (Or.inr (by decide)) (covers_id 4)).mpr (by decide), fun b hb => ?_⟩
  refine (hsweep (nextBeam 2) 1 4).mpr (fun b hb => ?_) b hb 0 id (Or.inr (by decide)) (covers_id 4)
  have hge := hb.one_le (by norm_num) (le_refl 1)
  have hle := hb.le
  show (b % 2 ^ 32).toNat ≤ 4
  omega

/-- A graph of one node. -/
def loneNode : IndexNSG where
  nd := 1
  ep := 0
  final_graph _ := []
  ep_lt := Nat.one_pos
  graph_lt _ _ _ hu := absurd hu List.not_mem_nil

/-- Two candidates out of one node: both searches hang, and the sweep from 1 to 2 gets there. -/
theorem loneNode_hangs :
    ((∀ i < loneNode.nd, (loneNode.final_graph i).Nodup) ∧ Covers loneNode.nd id) ∧
    (∀ which : NsgSearch,
      Diverges (which.run loneNode (Sorting.insertion ℤ) squareDistance (fun i => i) 0 1 2 (-1) id) ∧
      ¬ ∃ r, Returns (which.run loneNode (Sorting.insertion ℤ) squareDistance (fun i => i) 0 1 2 (-1)
        id) r) ∧
    ∃ b, Reached (nextBeam 2) 1 2 b ∧
      Diverges (fillInit loneNode.nd (toUnsigned b) (loneNode.final_graph loneNode.ep) id) := by
  have hfill : Diverges (fillInit loneNode.nd 2 (loneNode.final_graph loneNode.ep) id) :=
    fillInit_diverges Nat.one_pos (fun u hu => absurd hu List.not_mem_nil) List.nodup_nil
      (by decide) id
  have hruns : ∀ which : NsgSearch, Diverges (which.run loneNode (Sorting.insertion ℤ)
      squareDistance (fun i => i) 0 1 2 (-1) id) := fun which =>
    which.run_diverges loneNode (Sorting.insertion ℤ) squareDistance (fun i => i) 0 hfill
  refine ⟨⟨fun _ _ => List.nodup_nil, covers_id 1⟩, fun which => ⟨hruns which, fun ⟨_, hret⟩ =>
    Ends.not_diverges hret (hruns which)⟩, 2, ?_, hfill⟩
  exact (Reached.start (by decide)).next (show nextBeam 2 1 = some 2 by decide +kernel) le_rfl

end Mqo.Search.Nsg
