import Mqo.Index.Labels

/-!
# MQO — filling an index, whatever the order of the distances

The two loops that fill an index with rows under their numbers, `addPoint` and
`addPoint_modified`. The distances may be floats, some of which compare to nothing: both searches
only follow links, and what an insertion leaves does not depend on what they prefer.

* `searchBaseLayerSTLogging_returns` — the search of the base layer ends with some of its elements;
* `Holding.addModified`              — one insertion by `addPoint_modified`;
* `insertPoints_holding`, `insertModified_holding` — the loops.
-/

namespace Mqo.Index

open Prog Memory ByteStream
open Mqo.Search.Hnsw (VisitedList VisitedListPool)

variable {K : Type} [Preorder K] [DecidableLT K] [Neg K] {P : Platform K} {L : Layout}
  (fstdistfunc : List UInt8 → List UInt8 → K)

-- ---------------------------------------------------------------------------
-- The search of the base layer
-- ---------------------------------------------------------------------------

section Search

variable {levels : ℕ → ℕ} {N : ℕ} {lim : ℕ → ℕ} {m : Memory Region} (hL : L.WellFormed)
  (h : Graph L levels N lim m) (data_point : List UInt8)

include hL h

/-- One link, as in the search of `addPoint`. -/
theorem considerLinkLogging_considered {candidate_id : ℕ}
    (hnode : IsNode levels (lim 0) 0 candidate_id) {IsElement : ℕ → Prop} {s : LayerState P L}
    (hs : LayerInv P L IsElement s) :
    Returns (considerLinkLogging P L fstdistfunc m data_point L.ef_construction s candidate_id)
      (considered fstdistfunc m data_point s candidate_id) := by
  have hid : candidate_id < N := hnode.1.trans_le (h.bound 0)
  have hcap : candidate_id < L.max_elements := hid.trans_le h.capacity
  refine (VisitedList.isVisited_returns hcap).bind ?_
  unfold considered offered
  rw [hs.drop_push]
  split
  · exact returns_pure s
  · refine (VisitedList.visit_returns hcap).bind
      ((h.distTo_returns hL fstdistfunc data_point hid).bind ?_)
    unfold storedDist
    split
    · exact returns_pure _
    · exact returns_pure _

/-- **One iteration** expands an element of the layer, or it leaves the loop. -/
theorem loggingStep_returns {s : LayerState P L}
    (hs : LayerInv P L (IsNode levels (lim 0) 0) s) :
    (∃ s', Returns (loggingStep P L fstdistfunc m data_point L.ef_construction s) (.inl s') ∧
      LayerInv P L (IsNode levels (lim 0) 0) s' ∧ layerMeasure (lim 0) s' < layerMeasure (lim 0) s) ∨
    ∃ s', Returns (loggingStep P L fstdistfunc m data_point L.ef_construction s) (.inr s') ∧
      LayerInv P L (IsNode levels (lim 0) 0) s' := by
  unfold loggingStep
  cases htop : P.byFirst.top s.candidateSet with
  | none => exact Or.inr ⟨s, returns_pure _, hs⟩
  | some e =>
    dsimp only
    by_cases hstop : s.lowerBound < -e.1
    · rw [if_pos hstop]
      exact Or.inr ⟨s, returns_pure _, hs⟩
    · rw [if_neg hstop]
      have hnode := hs.candidate e (P.byFirst.top_mem htop)
      have hid : e.2 < N := hnode.1.trans_le (h.bound 0)
      have hef := hL.M_pos.trans_le hL.ef
      obtain ⟨s', hfold, rfl, -⟩ := foldlM_returns
        (f := considerLinkLogging P L fstdistfunc m data_point L.ef_construction)
        (fun pre s' => s' = pre.foldl (considered fstdistfunc m data_point)
            { s with candidateSet := P.byFirst.pop s.candidateSet } ∧
          LayerInv P L (IsNode levels (lim 0) 0) s')
        (l := links m (L.getLinklist0 e.2))
        (fun pre id post s' hsplit ⟨heq, hs'⟩ => by
          have hlink := h.target e.2 hid 0 hnode.2 id (by
            show id ∈ links m (L.getLinklist0 e.2)
            rw [hsplit]
            simp)
          refine ⟨_, considerLinkLogging_considered fstdistfunc hL h data_point hlink hs', ?_,
            (hs'.consider fstdistfunc hef m data_point hlink hlink.1).1⟩
          rw [List.foldl_append, ← heq, List.foldl_cons, List.foldl_nil])
        (s := { s with candidateSet := P.byFirst.pop s.candidateSet })
        ⟨rfl, ⟨fun e' he' => hs.candidate e' (P.byFirst.mem_of_mem_pop htop he'), hs.top, hs.nonempty,
          hs.size, hs.seen, hs.nodup⟩⟩
      obtain ⟨hinv, hlt⟩ := hs.expand fstdistfunc hL h data_point htop
      exact Or.inl ⟨expanded fstdistfunc m data_point 0 s e,
        (h.getLinks_returns hL hid hnode.2).bind (hfold.bind (returns_pure _)), hinv, hlt⟩

/-- **The search** from an element: it finds at least one, and none twice. -/
theorem searchBaseLayerSTLogging_returns (pool : VisitedListPool L.max_elements) {ep_id : ℕ}
    (hep : IsNode levels (lim 0) 0 ep_id) :
    ∃ r, Returns (searchBaseLayerSTLogging P L fstdistfunc m pool ep_id data_point
        L.ef_construction) r ∧
      0 < P.byFirst.size r.1 ∧ (∀ e ∈ P.byFirst.elems r.1, IsNode levels (lim 0) 0 e.2) ∧
      ((P.byFirst.elems r.1).map Prod.snd).Nodup := by
  have hid : ep_id < N := hep.1.trans_le (h.bound 0)
  have hvisit : Returns ((pool.getFreeVisitedList P.newList).1.visit ep_id)
      ((pool.getFreeVisitedList P.newList).1.mark ep_id) :=
    VisitedList.visit_returns (hid.trans_le h.capacity)
  obtain ⟨r, hloop, hr⟩ := loop_returns
    (LayerInv P L (IsNode levels (lim 0) 0)) (layerMeasure (lim 0))
    (LayerInv P L (IsNode levels (lim 0) 0))
    (fun s hs => loggingStep_returns fstdistfunc hL h data_point hs)
    (LayerInv.entry fstdistfunc (hL.M_pos.trans_le hL.ef) m data_point
      (pool.getFreeVisitedList P.newList).1 hep)
  exact ⟨_, (h.distTo_returns hL fstdistfunc data_point hid).bind
    (hvisit.bind (hloop.bind (returns_pure _))), hr.nonempty, hr.top, hr.nodup⟩

end Search

-- ---------------------------------------------------------------------------
-- One insertion
-- ---------------------------------------------------------------------------

section Insert

variable {n : ℕ} {label : ℕ → ℕ} {vec : ℕ → List UInt8} {s : HierarchicalNSW L} {x : ℕ}
  {v : List UInt8}

/-- **A new label**, by `addPoint_modified`, while there is room and all elements are on the base
layer. -/
theorem Holding.addModified (hL : L.WellFormed) (hs : Holding L n label vec s)
    (hn : n < L.max_elements) (hx : x < 2 ^ 64) (hv : v.length = L.data_size)
    (hfresh : s.label_lookup x = none) (hbase : ∀ i < n, s.element_levels i = 0) :
    ∃ s', Returns (addPointModified P fstdistfunc s v x) (n, s') ∧
      Holding L (n + 1) (Function.update label n x) (Function.update vec n v) s' ∧
      ∀ i < n + 1, s'.element_levels i = 0 := by
  obtain ⟨m, hstore, hcreated⟩ := createElement_returns (m := s.memory) hL hn hs.intact.level0 hx hv 0
  have hcreated : Created L n 0 x v s.memory m := hcreated
  have hintact := hcreated.intact hL hn hs.intact
  have hnew : ((0 : ℕ) : ℤ) = Function.update s.element_levels n 0 n := by
    rw [Function.update_self]
  have hlevels : ∀ i < n + 1, Function.update s.element_levels n 0 i = 0 := by
    intro i hi
    rcases Nat.lt_succ_iff_lt_or_eq.mp hi with hi | rfl
    · rw [Function.update_of_ne (by omega)]
      exact hbase i hi
    · rw [Function.update_self]
  have hcount := hs.count
  subst hcount
  unfold addPointModified
  dsimp only
  rcases hs.entry with ⟨hzero, hep, hmax⟩ | ⟨hep, hmax⟩
  · -- the first element
    have hheld := hcreated.holding hL hs hfresh (Modifies.refl _ m) hintact s.visited_list_pool
      (Nat.lt_succ_self _) hnew ⟨by omega, le_refl _⟩
    have hheld' : Holding L (s.cur_element_count + 1) (Function.update label s.cur_element_count x)
        (Function.update vec s.cur_element_count v) { s with
          cur_element_count := s.cur_element_count + 1
          label_lookup := Function.update s.label_lookup x (some s.cur_element_count)
          element_levels := Function.update s.element_levels s.cur_element_count 0
          memory := m
          enterpoint_node := s.cur_element_count
          maxlevel := 0 } :=
      ⟨hheld.count, hheld.intact, hheld.stored, hheld.vectors, hheld.lookup, hheld.highest, hheld.entry⟩
    refine ⟨_, hstore.bind ?_, hheld', hlevels⟩
    rw [if_pos (hep ▸ by decide)]
    exact returns_pure _
  · have hzero : s.element_levels s.enterpoint_node = 0 := hbase _ hep
    have hold : Function.update s.element_levels s.cur_element_count 0 s.enterpoint_node = 0 := by
      rw [Function.update_of_ne (by omega)]
      exact hzero
    obtain ⟨r, hsearch, hfound, hnode, hnodup⟩ := searchBaseLayerSTLogging_returns fstdistfunc hL
      hintact.toGraph v (P := P) s.visited_list_pool
      (show IsNode _ s.cur_element_count 0 s.enterpoint_node from ⟨hep, Nat.zero_le _⟩)
    obtain ⟨ep, m', selected, hconnect, -, hgraph, hframe, -, hdistinct, hsel, hc⟩ :=
      mutuallyConnectNewElement_returns fstdistfunc hL hintact.toGraph (Nat.lt_succ_self _)
        (Nat.zero_le _) rfl (hcreated.blank 0 (le_refl 0)) hfound hnode hnodup
    have hlinked := hc.intact hL hintact rfl hgraph hframe hdistinct hsel
    have hheld := hcreated.holding hL hs hfresh (parts_mono hframe fun _ _ _ => trivial) hlinked r.2
      (e := s.enterpoint_node) (by omega)
      (show s.maxlevel = Function.update s.element_levels s.cur_element_count 0 s.enterpoint_node by
        rw [hold, hmax, hzero]) ⟨le_refl _, by omega⟩
    have hheld' : Holding L (s.cur_element_count + 1) (Function.update label s.cur_element_count x)
        (Function.update vec s.cur_element_count v) { s with
          cur_element_count := s.cur_element_count + 1
          label_lookup := Function.update s.label_lookup x (some s.cur_element_count)
          element_levels := Function.update s.element_levels s.cur_element_count 0
          memory := m'
          visited_list_pool := r.2 } :=
      ⟨hheld.count, hheld.intact, hheld.stored, hheld.vectors, hheld.lookup, hheld.highest, hheld.entry⟩
    refine ⟨_, hstore.bind ?_, hheld', hlevels⟩
    have := hL.max_lt
    rw [if_neg (by omega), max_eq_right hL.ef]
    exact hsearch.bind ((mutuallyConnectNewElement_unlocked hconnect).bind (returns_pure _))

end Insert

-- ---------------------------------------------------------------------------
-- The loops
-- ---------------------------------------------------------------------------

section Loops

variable {row : ℕ → List UInt8} {n : ℕ}

/-- One more row under its number. -/
theorem Holding.next_row {s : HierarchicalNSW L} (h : Holding L (n + 1) (Function.update id n n)
    (Function.update row n (row n)) s) : Holding L (n + 1) id row s := by
  rwa [Function.update_eq_self, show Function.update id n n = id from Function.update_eq_self n id] at h

theorem Holding.fresh {s : HierarchicalNSW L} (h : Holding L n id row s) : s.label_lookup n = none := by
  cases hlookup : s.label_lookup n with
  | none => rfl
  | some i =>
    obtain ⟨hi, heq⟩ := (h.lookup n i).mp hlookup
    exact absurd heq (Nat.ne_of_lt hi)

variable (hL : L.WellFormed) (hn : n ≤ L.max_elements)
  (hrow : ∀ i < n, (row i).length = L.data_size) (draws : ℕ → LevelDraw)

include hL hn hrow

/-- **The loop of `addPoint`.** -/
theorem insertPoints_holding
    (updatePoint : HierarchicalNSW L → List UInt8 → ℕ → Run (HierarchicalNSW L)) :
    ∃ s, Returns (insertPoints P L fstdistfunc updatePoint row id draws n) s ∧
      Holding L n id row s := by
  refine range_returns (fun k s => Holding L k id row s) (fun k hk s hs => ?_)
    (Holding.new draws id row)
  obtain ⟨s', hret, hs'⟩ := hs.addNew fstdistfunc (P := P) hL (by omega)
    (show k < 2 ^ 64 by have := hL.max_lt; omega) (hrow k hk) hs.fresh updatePoint
  exact ⟨s', hret, hs'.next_row⟩

/-- **The loop of `addPoint_modified`.** -/
theorem insertModified_holding :
    ∃ s, Returns (insertModified P L fstdistfunc row id draws n) s ∧ Holding L n id row s := by
  obtain ⟨s, hret, hs, -⟩ := range_returns
    (f := fun s i => do
      let r ← addPointModified P fstdistfunc s (row i) (id i)
      pure r.2)
    (fun k s => Holding L k id row s ∧ ∀ i < k, s.element_levels i = 0)
    (fun k hk s ⟨hs, hbase⟩ => by
      obtain ⟨s', hret, hs', hbase'⟩ := hs.addModified fstdistfunc (P := P) hL (by omega)
        (show k < 2 ^ 64 by have := hL.max_lt; omega) (hrow k hk) hs.fresh hbase
      exact ⟨s', hret.bind (returns_pure _), hs'.next_row, hbase'⟩)
    (s := HierarchicalNSW.new P L draws)
    ⟨Holding.new draws id row, fun i hi => absurd hi (Nat.not_lt_zero i)⟩
  exact ⟨s, hret, hs⟩

end Loops

end Mqo.Index
