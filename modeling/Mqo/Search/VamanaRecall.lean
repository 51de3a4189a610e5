import Mqo.Lib.Scalar
import Mqo.Search.Vamana

/-!
# MQO — warm-started recall over a Vamana index

`get_recall_optimized` of `vamana_exp/process.hpp`; a query with a parent is
searched from the first id of the answer of its parent. The searches take their
scratch spaces from the queue of the index in turn.

* `searchRow_returns`                 — the answer to one query;
* `getRecallOptimized_keepsSeed_iff`  — the answers of a run are no farther than those
  of the parents, unless no answer is asked for;
* `closestWritten_and_keepsSeed`      — both levels together.
-/

namespace Mqo.Search.Vamana

open Prog

/-- `_query_scratch`: there is at least one scratch space, since an index has at least
one thread. -/
structure ScratchQueue (K : Type) where
  front : InMemQueryScratch K
  rest : List (InMemQueryScratch K)

/-- The front is taken out and comes back at the end. -/
def ScratchQueue.turn {K : Type} (queue : ScratchQueue K) (scratch : InMemQueryScratch K) :
    ScratchQueue K :=
  match queue.rest with
  | [] => ⟨scratch, []⟩
  | next :: rest => ⟨next, rest ++ [scratch]⟩

section Recall

variable {V K : Type} [LinearOrder K] [Neg K] (index : Index V K) (queries : ℕ → V)

/-- One search of the loop. The row has room for `topk` ids; places that are not
written keep their zeros, since a trajectory has every query once. The first id
is read afterwards. -/
def searchRow (topk Lsearch : ℕ) (queue : ScratchQueue K) (curr : ℤ) (seed : Option (List ℕ)) :
    Run (List ℕ × ScratchQueue K) := do
  let entry_point ← entryPoint seed
  let r ← index.search (queries curr.toNat) topk Lsearch entry_point queue.front
  let ids := r.1.written.map Prod.fst
  if topk < ids.length then fault .outOfRange
  else
    match ids ++ List.replicate (topk - ids.length) 0 with
    | [] => fault .outOfRange
    | id :: rest => pure (id :: rest, queue.turn r.2)

/-- `get_recall_optimized`, without the duration it measures: the state after the
loop, and the recall. -/
def getRecallOptimized (F : Type) [Scalar F] (answers : ℕ → ℤ) (n_query topk Lsearch : ℕ)
    (trajectory : Trajectory) (queue : ScratchQueue K) :
    Run (RecallState (ScratchQueue K) (List ℕ) ℕ × F) := do
  let s ← recallLoop n_query (searchRow index queries topk Lsearch)
    (fun curr row => row.head?.map Int.ofNat = some (answers curr.toNat)) (· + 1) trajectory
    { engine := queue, ann := fun _ => List.replicate topk 0, correct := 0, searches := [] }
  pure (s, Scalar.ofInt s.correct / Scalar.ofInt n_query)

/-- The answer to a query: the closest points evaluated by a search from the answer of
the parent. -/
def AnswersFrom (topk Lsearch : ℕ) (curr : ℤ) (seed : Option (List ℕ)) (row : List ℕ) : Prop :=
  ∃ entry res rest, EntersAt index.start seed entry ∧
    row = res.written.map Prod.fst ++ rest ∧ res.written ≠ [] ∧
    ClosestWritten index (queries curr.toNat) topk Lsearch entry res

/-- The first id of the row of `e` is no farther from its query than that of the row of
its parent. -/
def KeepsSeed (ann : ℤ → List ℕ) (e : ℤ × ℤ) : Prop :=
  ∃ id ∈ (ann e.1).head?, ∃ p ∈ (ann e.2).head?,
    index.dist (queries e.1.toNat) id ≤ index.dist (queries e.1.toNat) p

variable {index queries} {k L : ℕ}

/-- **One query.** -/
theorem searchRow_returns (hfrozen : index.num_frozen_pts = 0) (hL : 1 ≤ L) (hk : 1 ≤ k)
    (hkL : k ≤ L) (queue : ScratchQueue K) (curr : ℤ) {seed : Option (List ℕ)}
    (hseed : ∀ row ∈ seed, IsRow index.max_points row) :
    ∃ row queue', Returns (searchRow index queries k L queue curr seed) (row, queue') ∧
      IsRow index.max_points row ∧ AnswersFrom index queries k L curr seed row := by
  obtain ⟨entry_point, hentry, hlow, hhigh, hat⟩ := entryPoint_spec index.start hseed
  obtain ⟨res, scratch', hret, hpos, hclosest, -⟩ :=
    search_spec hfrozen (queries curr.toNat) hL hkL hlow hhigh queue.front
  replace hclosest := hclosest hk
  have hlen := hclosest.length
  cases hw : res.written with
  | nil =>
    rw [hw, List.length_nil] at hlen
    omega
  | cons w ws =>
    have hfit : ¬ k < (res.written.map Prod.fst).length := by
      rw [List.length_map]
      omega
    refine ⟨w.1 :: (ws.map Prod.fst ++ List.replicate (k - (res.written.map Prod.fst).length) 0),
      queue.turn scratch', hentry.bind (hret.bind ?_),
      ⟨_, _, rfl, hclosest.lt w (by rw [hw]; exact List.mem_cons_self)⟩,
      _, res, List.replicate (k - (res.written.map Prod.fst).length) 0, hat, by rw [hw]; rfl,
      by rw [hw]; exact List.cons_ne_nil _ _, hclosest⟩
    dsimp only
    rw [if_neg hfit, hw]
    exact returns_pure _

/-- Without room for an id nothing is answered. -/
theorem searchRow_zero {queue : ScratchQueue K} {curr : ℤ} {seed : Option (List ℕ)}
    {r : List ℕ × ScratchQueue K} : ¬ Returns (searchRow index queries 0 L queue curr seed) r := by
  intro h
  obtain ⟨entry_point, -, h⟩ := h.of_bind
  obtain ⟨res, -, h⟩ := h.of_bind
  dsimp only at h
  split at h
  · exact h.not_fails (fails_fault _)
  · next hfit =>
    have hnil : res.1.written.map Prod.fst = [] := List.eq_nil_of_length_eq_zero (by omega)
    rw [hnil] at h
    exact h.not_fails (fails_fault _)

/-- An answer from the answer of the parent is no farther than it. -/
theorem AnswersFrom.keepsSeed {ann : ℤ → List ℕ} {e : ℤ × ℤ}
    (h : AnswersFrom index queries k L e.1 (seedOf ann e.2) (ann e.1)) (hroot : e.2 ≠ -1) :
    KeepsSeed index queries ann e := by
  obtain ⟨entry, res, rest, hat, hrow, hne, hclosest⟩ := h
  rw [seedOf, if_neg hroot] at hat
  obtain ⟨w, ws, hw⟩ := List.exists_cons_of_ne_nil hne
  generalize hparent : ann e.2 = parent at hat
  cases hat with
  | seed p prest =>
    refine ⟨w.1, ?_, entry, by rw [hparent]; rfl, hclosest.first w (by rw [hw]; rfl)⟩
    rw [hrow, hw]
    rfl

/-- **A run over an accepted trajectory** keeps the seeds just when there is room for an
answer, or nothing to be answered. -/
theorem getRecallOptimized_keepsSeed_iff (hfrozen : index.num_frozen_pts = 0) (F : Type)
    [Scalar F] (hL : 1 ≤ L) (hkL : k ≤ L) (answers : ℕ → ℤ) {n_query : ℕ}
    {trajectory : Trajectory} (hacc : Accepted trajectory n_query) (queue : ScratchQueue K) :
    (∃ r, Returns (getRecallOptimized index queries F answers n_query k L trajectory queue) r ∧
      ∀ e ∈ trajectory, e.2 ≠ -1 → KeepsSeed index queries r.1.ann e) ↔
    1 ≤ k ∨ trajectory = [] := by
  constructor
  · rintro ⟨r, hret, -⟩
    cases trajectory with
    | nil => exact Or.inr rfl
    | cons x rest =>
      refine Or.inl (Nat.one_le_iff_ne_zero.mpr fun hzero => ?_)
      obtain ⟨s, hloop, -⟩ := hret.of_bind
      rw [recallLoop, List.foldlM_cons] at hloop
      obtain ⟨s₁, hstep, -⟩ := hloop.of_bind
      rw [recallStep_eq (nextEntry hacc (List.nil_append _).symm)] at hstep
      obtain ⟨row, hrow, -⟩ := hstep.of_bind
      subst hzero
      exact searchRow_zero hrow
  · rintro (hk | rfl)
    · have hsearch : ∀ (queue : ScratchQueue K) curr seed, True → InBounds n_query curr →
          (∀ row ∈ seed, IsRow index.max_points row) →
          ∃ row queue', Returns (searchRow index queries k L queue curr seed) (row, queue') ∧
            True ∧ IsRow index.max_points row ∧ AnswersFrom index queries k L curr seed row := by
        intro queue curr seed _ _ hseed
        obtain ⟨row, queue', hret, hrow, hanswer⟩ :=
          searchRow_returns hfrozen hL hk hkL queue curr hseed
        exact ⟨row, queue', hret, trivial, hrow, hanswer⟩
      let s₀ : RecallState (ScratchQueue K) (List ℕ) ℕ :=
        { engine := queue, ann := fun _ => List.replicate k 0, correct := 0, searches := [] }
      obtain ⟨s, hloop, hinv⟩ : ∃ s, Returns (recallLoop n_query (searchRow index queries k L)
          (fun curr row => row.head?.map Int.ofNat = some (answers curr.toNat)) (· + 1)
            trajectory s₀) s ∧
          RecallInv (fun _ => True) (AnswersFrom index queries k L)
            (fun curr row => row.head?.map Int.ofNat = some (answers curr.toNat)) (· + 1) s₀
            trajectory s :=
        recallLoop_returns (IsRow index.max_points) hsearch hacc trivial
      exact ⟨_, hloop.bind (returns_pure _),
        fun e he hroot => (hinv.answered.post e he).keepsSeed hroot⟩
    · exact ⟨_, (foldlM_nil _ _).bind (returns_pure _), fun e he => absurd he List.not_mem_nil⟩

/-- **A warm-started search loses nothing, when it is asked for something.** Every search
from an entry point ends and writes the closest of the points that it has
evaluated just when `k` is positive; and then the answers along a trajectory are
no farther than those of the parents. -/
theorem closestWritten_and_keepsSeed (hfrozen : index.num_frozen_pts = 0) (hL : 1 ≤ L)
    (hkL : k ≤ L) :
    (∀ (query : V) (entry_point : ℤ) (scratch : InMemQueryScratch K), 0 ≤ entry_point →
      entry_point < index.max_points →
      ((∃ r, Returns (index.search query k L entry_point scratch) r ∧
        ClosestWritten index query k L entry_point.toNat r.1) ↔ 1 ≤ k)) ∧
    ∀ (F : Type) [Scalar F] (queries : ℕ → V) (answers : ℕ → ℤ) (n_query : ℕ)
      (trajectory : Trajectory) (queue : ScratchQueue K), Accepted trajectory n_query →
      ((∃ r, Returns (getRecallOptimized index queries F answers n_query k L trajectory queue) r ∧
        ∀ e ∈ trajectory, e.2 ≠ -1 → KeepsSeed index queries r.1.ann e) ↔
      1 ≤ k ∨ trajectory = []) :=
  ⟨fun query _ scratch hlow hhigh =>
      search_closestWritten_iff hfrozen query hL hkL hlow hhigh scratch,
    fun F _ _ answers _ _ queue hacc =>
      getRecallOptimized_keepsSeed_iff hfrozen F hL hkL answers hacc queue⟩

end Recall

-- ---------------------------------------------------------------------------
-- Three points on a line
-- ---------------------------------------------------------------------------

theorem lt_of_mem_threePoints {i u : ℕ}
    (hu : u ∈ if i = 0 then [1, 1] else if i = 1 then [0, 2] else [1]) : u < 3 := by
  split_ifs at hu
  all_goals
    simp only [List.mem_cons, List.not_mem_nil, or_false] at hu
    omega

/-- Points at `0`, `10` and `20`; the edge from the first to the second is stored twice. -/
def threePoints : Index ℤ ℤ where
  max_points := 3
  num_frozen_pts := 0
  start := 0
  dist_metric := .L2
  data_store i := 10 * i
  compare a b := (a - b) * (a - b)
  graph_store i := if i = 0 then [1, 1] else if i = 1 then [0, 2] else [1]
  start_lt := by decide
  graph_lt _ _ _ hu := lt_of_mem_threePoints hu

/-- A scratch space that has not been used. -/
def newScratch : InMemQueryScratch ℤ where
  best_L_nodes := ⟨0, 2, 0, fun _ => ⟨0, 0, false⟩⟩
  inserted_into_pool _ := false
  L := 2
  size_eq := rfl
  cur_eq := rfl
  inserted_eq _ := rfl

/-- A search for no points writes the two candidates in its queue. -/
theorem search_zero_writes :
    (∃ r, Returns (threePoints.search 1 0 2 2 newScratch) r ∧ r.1.written = [(0, 1), (1, 81)]) ∧
    ¬ ∃ r, Returns (threePoints.search 1 0 2 2 newScratch) r ∧
      ClosestWritten threePoints 1 0 2 2 r.1 := by
  have hrun : ∃ r, Returns (threePoints.search 1 0 2 2 newScratch) r ∧
      r.1.written = [(0, 1), (1, 81)] :=
    exists_returns_of_value (n := 9) (by decide +kernel)
  refine ⟨hrun, ?_⟩
  rintro ⟨r, hret, hclosest⟩
  obtain ⟨r', hret', hwritten⟩ := hrun
  obtain rfl := hret.unique hret'
  have hlen := hclosest.length
  rw [hwritten, Nat.zero_min] at hlen
  cases hlen

/-- The same search for one point, and a query with its parent. -/
theorem threePoints_keepsSeed :
    (∃ r, Returns (threePoints.search 1 1 2 2 newScratch) r ∧
      ClosestWritten threePoints 1 1 2 2 r.1) ∧
    ∃ r, Returns (getRecallOptimized threePoints (fun c => c) (Exact ℚ) (fun _ => 0) 2 1 2
        [(0, -1), (1, 0)] ⟨newScratch, []⟩) r ∧
      ∀ e ∈ [((0 : ℤ), (-1 : ℤ)), (1, 0)], e.2 ≠ -1 →
        KeepsSeed threePoints (fun c => c) r.1.ann e := by
  obtain ⟨hsearch, hrecall⟩ := closestWritten_and_keepsSeed (k := 1) (L := 2)
    (show threePoints.num_frozen_pts = 0 from rfl) (by decide) (by decide)
  exact ⟨(hsearch 1 2 newScratch (by decide) (by decide)).mpr (le_refl 1),
    (hrecall (Exact ℚ) (fun c => c) (fun _ => 0) 2 [(0, -1), (1, 0)] ⟨newScratch, []⟩
      (returns_of_value (n := 0) (by decide +kernel))).mpr (Or.inl (le_refl 1))⟩

end Mqo.Search.Vamana
