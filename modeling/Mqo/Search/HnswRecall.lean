import Mqo.Lib.Scalar
import Mqo.Search.Hnsw
import Mqo.Search.WarmStart

/-!
# MQO — warm-started recall over an HNSW index

`get_recall_optimized` of `hnsw_exp/process.hpp` searches the queries of a
trajectory with `topk = 1`; a query with a parent starts from the element its
parent was answered with. All searches take their visited list from one pool.

* `getRecallOptimized_deterministic` — every query is searched once, after its
  parent, and the answers and the recall depend only on the child-to-parent map,
  whatever the pool holds;
* `getRecallOptimized_keepsSeed`     — the answer to a query is at least as close
  as the answer to its parent.
-/

namespace Mqo.Search.Hnsw

open Prog

section Recall

variable {V K F : Type} [LinearOrder K] [Neg K] [Scalar F]
  (Q R : PriorityQueue (K × ℕ)) (index : HierarchicalNSW V K) (maxValue : K) (querydata : ℕ → V)

/-- One search of the loop: from the entry point, if there is one, to the label on
top of the results. -/
def searchLabel (ef topk : ℕ) (mem : ℕ → UInt16) (pool : VisitedListPool index.max_elements)
    (curr : ℤ) (entry_point : Option ℤ) : Run (ℤ × VisitedListPool index.max_elements) := do
  let r ← searchKnnMine Q index (querydata curr.toNat) R maxValue ef topk
    (entry_point.toList.map Int.toNat) mem pool
  match R.top r.1 with
  | none => fault .emptyQueue
  | some top => pure ((top.2 : ℤ), r.2)

/-- `get_recall_optimized`, without the duration it measures: the state after the
loop, and the recall. -/
def getRecallOptimized (F : Type) [Scalar F] (ans : ℕ → ℤ) (n_elements topk beamsize : ℕ)
    (mem : ℕ → UInt16) (trajectory : Trajectory) (pool : VisitedListPool index.max_elements) :
    Run (RecallState (VisitedListPool index.max_elements) ℤ F × F) := do
  let s ← recallLoop n_elements (searchLabel Q R index maxValue querydata beamsize topk mem)
    (fun curr label => label = ans curr.toNat) (· + 1) trajectory
    { engine := pool, ann := fun _ => 0, correct := (0 : F), searches := [] }
  pure (s, s.correct / Scalar.ofInt n_elements)

-- ---------------------------------------------------------------------------
-- One query
-- ---------------------------------------------------------------------------

/-- `b` is the answer to the query from every pool, and an element at least as close
as the seed. -/
structure AnswersQuery (ef : ℕ) (curr : ℤ) (seed : Option ℤ) (b : ℤ) : Prop where
  returns : ∀ mem pool, ∃ pool',
    Returns (searchLabel Q R index maxValue querydata ef 1 mem pool curr seed) (b, pool')
  closest : ∀ p ∈ seed, index.dist (querydata curr.toNat) b.toNat ≤
    index.dist (querydata curr.toNat) p.toNat

/-- The internal id of an element. -/
def IsElement (b : ℤ) : Prop := 0 ≤ b ∧ b < index.cur_element_count

variable {Q R index maxValue querydata} {n_elements : ℕ}

omit [LinearOrder K] [Neg K] in
/-- A seed that is an element is a starting point in range. -/
theorem seedPoints_lt {seed : Option ℤ} (hseed : ∀ p ∈ seed, IsElement index p) :
    ∀ sp ∈ seed.toList.map Int.toNat, sp < index.cur_element_count := by
  intro sp hsp
  obtain ⟨p, hp, rfl⟩ := List.mem_map.mp hsp
  exact InBounds.toNat_lt (hseed p (Option.mem_toList.mp hp))

/-- The answer to a query from a given seed is determined. -/
theorem AnswersQuery.unique {ef : ℕ} {curr : ℤ} {seed : Option ℤ} {b b' : ℤ}
    (h : AnswersQuery Q R index maxValue querydata ef curr seed b)
    (h' : AnswersQuery Q R index maxValue querydata ef curr seed b') : b = b' := by
  obtain ⟨pool, hret⟩ := h.returns (fun _ => 0) ⟨[]⟩
  obtain ⟨pool', hret'⟩ := h'.returns (fun _ => 0) ⟨[]⟩
  exact congrArg Prod.fst (hret.unique hret')

variable (hQ : Q.Ordered fun a b => a.1 < b.1) (hpos : 0 < index.cur_element_count)
  (hlabel : ∀ id < index.cur_element_count, index.externalLabel id = id)
  (hfin : ∀ c < n_elements, ∀ id < index.cur_element_count,
    index.dist (querydata c) id ≤ maxValue)

include hQ hpos hlabel hfin

/-- **One query.** A seed that is an element gets an answer that is one. -/
theorem searchLabel_spec (ef : ℕ) {curr : ℤ}
    (hcurr : InBounds n_elements curr) {seed : Option ℤ}
    (hseed : ∀ p ∈ seed, IsElement index p) :
    ∃ b, IsElement index b ∧ AnswersQuery Q R index maxValue querydata ef curr seed b := by
  obtain ⟨id, hid, hret, hbest⟩ := searchKnnMine_spec (querydata curr.toNat) hQ R
    (hfin curr.toNat hcurr.toNat_lt) hpos (seedPoints_lt hseed) ef
  refine ⟨id, ⟨by omega, by exact_mod_cast hid⟩, fun mem pool => ?_, fun p hp => ?_⟩
  · obtain ⟨result, pool', hsearch, helems⟩ := hret mem pool
    refine ⟨pool', hsearch.bind ?_⟩
    -- the only result is on top
    have hne : R.elems result ≠ 0 := by
      rw [helems]
      exact Multiset.singleton_ne_zero _
    obtain ⟨top, htop⟩ := R.exists_top hne
    have hmem := R.top_mem htop
    rw [helems, Multiset.mem_singleton] at hmem
    rw [htop, hmem, hlabel id hid]
    exact returns_pure _
  · exact hbest p.toNat (List.mem_map_of_mem (Option.mem_toList.mpr hp))

-- ---------------------------------------------------------------------------
-- The whole trajectory
-- ---------------------------------------------------------------------------

/-- The run over an accepted trajectory answers every query. -/
theorem getRecallOptimized_returns (ans : ℕ → ℤ) (beamsize : ℕ) (mem : ℕ → UInt16)
    {trajectory : Trajectory} (hacc : Accepted trajectory n_elements)
    (pool : VisitedListPool index.max_elements) :
    ∃ r, Returns (getRecallOptimized Q R index maxValue querydata F ans n_elements 1 beamsize mem
        trajectory pool) r ∧
      Answered (AnswersQuery Q R index maxValue querydata beamsize) trajectory (fun _ => 0)
        r.1.ann ∧
      r.1.searches = logOf r.1.ann trajectory ∧
      r.2 = (fun x : F => x + 1)^[trajectory.countP fun e =>
        decide (r.1.ann e.1 = ans e.1.toNat)] 0 / Scalar.ofInt n_elements := by
  let s₀ : RecallState (VisitedListPool index.max_elements) ℤ F :=
    { engine := pool, ann := fun _ => 0, correct := 0, searches := [] }
  have hsearch : ∀ (st : VisitedListPool index.max_elements) curr seed, True →
      InBounds n_elements curr → (∀ b ∈ seed, IsElement index b) →
      ∃ b st', Returns (searchLabel Q R index maxValue querydata beamsize 1 mem st curr seed) (b, st') ∧
        True ∧ IsElement index b ∧
        AnswersQuery Q R index maxValue querydata beamsize curr seed b := by
    intro st curr seed _ hcurr hseed
    obtain ⟨b, hb, hanswer⟩ := searchLabel_spec hQ hpos hlabel hfin beamsize hcurr hseed
    obtain ⟨pool', hret⟩ := hanswer.returns mem st
    exact ⟨b, pool', hret, trivial, hb, hanswer⟩
  obtain ⟨s, hret, hinv⟩ : ∃ s, Returns (recallLoop n_elements
      (searchLabel Q R index maxValue querydata beamsize 1 mem)
      (fun curr label => label = ans curr.toNat) (· + 1) trajectory s₀) s ∧
      RecallInv (fun _ => True) (AnswersQuery Q R index maxValue querydata beamsize)
        (fun curr label => label = ans curr.toNat) (· + 1) s₀ trajectory s :=
    recallLoop_returns (IsElement index) hsearch hacc trivial
  exact ⟨_, hret.bind (returns_pure _), hinv.answered, hinv.searches, by rw [hinv.correct]⟩

/-- **Determinism.** Two accepted trajectories with the same child-to-parent map give
the same answers and the same recall, from any two pools; each searches every
query once and starts it from the answer that its parent got before. Reordering
gives such a trajectory. -/
theorem getRecallOptimized_deterministic (ans : ℕ → ℤ) (beamsize : ℕ)
    {trajectory : Trajectory} (hacc : Accepted trajectory n_elements) :
    (∀ (trajectory' : Trajectory), Accepted trajectory' n_elements →
      (∀ e, e ∈ trajectory ↔ e ∈ trajectory') →
      ∀ (mem mem' : ℕ → UInt16) (pool pool' : VisitedListPool index.max_elements),
        ∃ r r', Returns (getRecallOptimized Q R index maxValue querydata F ans n_elements 1 beamsize
            mem trajectory pool) r ∧
          Returns (getRecallOptimized Q R index maxValue querydata F ans n_elements 1 beamsize
            mem' trajectory' pool') r' ∧
          SearchesInOrder trajectory n_elements r.1.searches ∧
          SearchesInOrder trajectory' n_elements r'.1.searches ∧
          r.1.ann = r'.1.ann ∧ r.2 = r'.2) ∧
    ∃ reordered, Returns (reorderMultipleDFS trajectory) reordered ∧
      Accepted reordered n_elements ∧ ∀ e, e ∈ trajectory ↔ e ∈ reordered := by
  refine ⟨fun trajectory' hacc' hsame mem mem' pool pool' => ?_, ?_⟩
  · obtain ⟨r, hret, hanswered, hlog, hrecall⟩ := getRecallOptimized_returns (R := R) (F := F) hQ hpos
      hlabel hfin ans beamsize mem hacc pool
    obtain ⟨r', hret', hanswered', hlog', hrecall'⟩ := getRecallOptimized_returns (R := R) (F := F) hQ
      hpos hlabel hfin ans beamsize mem' hacc' pool'
    have hdet : ∀ c seed b b', AnswersQuery Q R index maxValue querydata beamsize c seed b →
        AnswersQuery Q R index maxValue querydata beamsize c seed b' → b = b' :=
      fun _ _ _ _ => AnswersQuery.unique
    have hann : r.1.ann = r'.1.ann :=
      hanswered.unique hdet hsame (accepted_iff.mp hacc).2 hanswered'
    refine ⟨r, r', hret, hret', hlog ▸ logOf_inOrder hacc _, hlog' ▸ logOf_inOrder hacc' _, hann, ?_⟩
    -- the recall counts the same entries in another order
    rw [hrecall, hrecall', hann, (accepted_perm hacc hacc' hsame).countP_eq]
  · have hforest := hacc.forest
    obtain ⟨out, hout, hperm, hacc'⟩ := reorderMultipleDFS_forest hforest.2
    rw [hforest.1] at hacc'
    exact ⟨out, hout, hacc', fun e => hperm.mem_iff.symm⟩

/-- **The seed is never lost.** The answer to a query is at least as close to it as
the answer to its parent; a query equal to its parent gets no farther answer. -/
theorem getRecallOptimized_keepsSeed (ans : ℕ → ℤ) (beamsize : ℕ) (mem : ℕ → UInt16)
    {trajectory : Trajectory} (hacc : Accepted trajectory n_elements)
    (pool : VisitedListPool index.max_elements) :
    ∃ r, Returns (getRecallOptimized Q R index maxValue querydata F ans n_elements 1 beamsize mem
        trajectory pool) r ∧
      ∀ e ∈ trajectory, e.2 ≠ -1 →
        index.dist (querydata e.1.toNat) (r.1.ann e.1).toNat ≤
          index.dist (querydata e.1.toNat) (r.1.ann e.2).toNat ∧
        (querydata e.1.toNat = querydata e.2.toNat →
          index.dist (querydata e.1.toNat) (r.1.ann e.1).toNat ≤
            index.dist (querydata e.2.toNat) (r.1.ann e.2).toNat) := by
  obtain ⟨r, hret, hanswered, -, -⟩ := getRecallOptimized_returns (R := R) (F := F) hQ hpos hlabel
    hfin ans beamsize mem hacc pool
  refine ⟨r, hret, fun e he hroot => ?_⟩
  have hseed : r.1.ann e.2 ∈ seedOf r.1.ann e.2 := by
    rw [seedOf, if_neg hroot]
    rfl
  have hle := (hanswered.post e he).closest _ hseed
  exact ⟨hle, fun heq => heq ▸ hle⟩

end Recall

-- ---------------------------------------------------------------------------
-- Two elements on a line
-- ---------------------------------------------------------------------------

/-- Two linked elements at `0` and `10`. -/
def lineIndex : HierarchicalNSW ℤ ℤ where
  max_elements := 4
  cur_element_count := 2
  enterpoint_node := 0
  maxlevel := 0
  element_levels _ := 0
  linklist _ id := if id = 0 then [1] else [0]
  data id := 10 * id
  externalLabel id := id
  fstdistfunc a b := |a - b|
  capacity := by decide
  enter_lt _ := by decide
  enter_level := Nat.le_refl Nat.zero
  link_lt _ id _ _ u hu := by
    split at hu <;> (rw [List.mem_singleton.mp hu]; decide)
  link_level _ _ _ h _ _ := h

theorem lineIndex_dist_le {n : ℕ} (hn : n ≤ 3) : ∀ c < n, ∀ id < lineIndex.cur_element_count,
    lineIndex.dist ((fun c : ℕ => (c : ℤ)) c) id ≤ 100 := fun c hc =>
  (by decide : ∀ c < 3, ∀ id < lineIndex.cur_element_count,
    lineIndex.dist ((fun c : ℕ => (c : ℤ)) c) id ≤ 100) c (hc.trans_le hn)

/-- A root with a child, before and after another root; one pool is about to wrap around and
holds stale tags, the other is empty. -/
theorem lineIndex_deterministic : ∃ r r',
    Returns (getRecallOptimized (PriorityQueue.byKey Prod.fst) (PriorityQueue.byKey Prod.fst)
      lineIndex 100 (fun c : ℕ => (c : ℤ)) (Exact ℚ) (fun _ => 0) 3 1 1 (fun _ => 7)
      [(0, -1), (1, 0), (2, -1)] ⟨[⟨65535, fun _ => 1, fun _ => by decide⟩]⟩) r ∧
    Returns (getRecallOptimized (PriorityQueue.byKey Prod.fst) (PriorityQueue.byKey Prod.fst)
      lineIndex 100 (fun c : ℕ => (c : ℤ)) (Exact ℚ) (fun _ => 0) 3 1 1 (fun _ => 1)
      [(2, -1), (0, -1), (1, 0)] ⟨[]⟩) r' ∧
    r.1.ann = r'.1.ann ∧ r.2 = r'.2 := by
  have hperm : [((0 : ℤ), (-1 : ℤ)), (1, 0), (2, -1)].Perm [(2, -1), (0, -1), (1, 0)] := by decide
  obtain ⟨r, r', hret, hret', -, -, hann, hrecall⟩ := (getRecallOptimized_deterministic (F := Exact ℚ)
    (PriorityQueue.byKey_ordered Prod.fst) (by decide) (fun _ _ => rfl)
    (lineIndex_dist_le (by decide))
    (fun _ => 0) 1 (show Accepted [(0, -1), (1, 0), (2, -1)] 3 from
      returns_of_value (n := 0) (by decide +kernel))).1 [(2, -1), (0, -1), (1, 0)]
    (returns_of_value (n := 0) (by decide +kernel)) (fun _ => hperm.mem_iff) (fun _ => 7)
    (fun _ => 1) ⟨[⟨65535, fun _ => 1, fun _ => by decide⟩]⟩ ⟨[]⟩
  exact ⟨r, r', hret, hret', hann, hrecall⟩

/-- A query and its child. -/
theorem lineIndex_keepsSeed : ∃ r,
    Returns (getRecallOptimized (PriorityQueue.byKey Prod.fst) (PriorityQueue.byKey Prod.fst)
      lineIndex 100 (fun c : ℕ => (c : ℤ)) (Exact ℚ) (fun _ => 0) 2 1 1 (fun _ => 0)
      [(0, -1), (1, 0)] ⟨[]⟩) r ∧
    lineIndex.dist (1 : ℤ) (r.1.ann 1).toNat ≤ lineIndex.dist (1 : ℤ) (r.1.ann 0).toNat := by
  obtain ⟨r, hret, hbest⟩ := getRecallOptimized_keepsSeed (F := Exact ℚ)
    (PriorityQueue.byKey_ordered Prod.fst) (by decide) (fun _ _ => rfl)
    (lineIndex_dist_le (by decide))
    (fun _ => 0) 1 (fun _ => 0) (show Accepted [(0, -1), (1, 0)] 2 from
      returns_of_value (n := 0) (by decide +kernel)) ⟨[]⟩
  exact ⟨r, hret, (hbest (1, 0) (by simp) (by decide)).1⟩

end Mqo.Search.Hnsw
