import Mathlib.Data.List.FinRange
import Mqo.Lib.PriorityQueue
import Mqo.Trajectory.Basic

/-!
# MQO — the exact answers

`calculate_answers` of `data_handler/answer_handler.hpp` and the two distances of
`data_handler/calculator.hpp`. The queries are distributed over threads; each iteration
has a queue of its own and writes one row of the result, so that only the order in which
the iterations end is left open.

The queue compares pairs of a distance and an index. While the distances are comparable
with each other this is a strict weak order, on distinct indices even a total one, and the
queue holds the nearest points of those seen so far, ties broken by the smaller index.

* `NearestOf.collect`       — one data point keeps the queue that way;
* `fillAnswer_returns`      — the loop that fills the answer from its end;
* `calculateAnswers_sorted` — every row starts the list of all indices, sorted by the distances
  as they are computed.
-/

namespace Mqo

open Prog IntOffset

-- ---------------------------------------------------------------------------
-- The functions
-- ---------------------------------------------------------------------------

section Functions

variable {F : Type} [Scalar F]

/-- `get_distance_data_query` -/
def getDistanceDataQuery (data query : ℤ → F) (dim dindex qindex : ℕ) : F :=
  let dstart := intMul dim dindex
  let qstart := intMul dim qindex
  Scalar.sqrt ((List.range dim).foldl
    (fun sum i =>
      let diff := columnAt data dstart i - columnAt query qstart i
      sum + diff * diff) 0)

/-- `get_distance_data_query_ip` -/
def getDistanceDataQueryIp (data query : ℤ → F) (dim dindex qindex : ℕ) : F :=
  let dstart := intMul dim dindex
  let qstart := intMul dim qindex
  1 - (List.range dim).foldl
    (fun sum i => sum + columnAt data dstart i * columnAt query qstart i) 0

/-- The distance that the flag `l2` selects. -/
def dataDistance (l2 : Bool) (data query : ℤ → F) (dim dataindex i : ℕ) : F :=
  if l2 then getDistanceDataQuery data query dim dataindex i
  else getDistanceDataQueryIp data query dim dataindex i

/-- The comparison of `pair<float, int>`. -/
def pairLess (a b : F × ℕ) : Prop := a.1 < b.1 ∨ (¬ b.1 < a.1 ∧ a.2 < b.2)

instance : DecidableRel (pairLess (F := F)) := fun _ _ => inferInstanceAs (Decidable (_ ∨ _))

variable (R : PriorityQueue (F × ℕ)) (distance : ℕ → F) (topk : ℕ)

/-- One data point is pushed, and one dropped when there are too many. -/
def collect (pq : R.Heap) (dataindex : ℕ) : R.Heap :=
  R.dropOver topk (R.push pq (distance dataindex, dataindex))

/-- One iteration of the loop over `pos`; the state is the queue and `answer_for_query`. -/
def fillStep (state : R.Heap × List ℕ) (pos : ℕ) : Run (R.Heap × List ℕ) :=
  match R.top state.1 with
  | none => fault .emptyQueue
  | some top => pure (R.pop state.1, state.2.set pos top.2)

/-- The loop over `pos`, from `topk - 1` down to `0`. -/
def fillAnswer (pq : R.Heap) : Run (List ℕ) := do
  let state ← (List.range topk).reverse.foldlM (fillStep R) (pq, List.replicate topk 0)
  pure state.2

/-- The body of the parallel loop, for the distances to one query. -/
def answerForQuery (n_data : ℕ) : Run (List ℕ) :=
  fillAnswer R topk ((List.range n_data).foldl (collect R distance topk) R.empty)

end Functions

/-- `calculate_answers`, when the iterations end in the given order. -/
def calculateAnswers {F : Type} [Scalar F] (R : PriorityQueue (F × ℕ)) (data query : ℤ → F)
    (dim n_query n_data topk : ℕ) (l2 : Bool) (order : List ℕ) : Run (List (List ℕ)) :=
  order.foldlM (fun answers i => do
    let answer_for_query ← answerForQuery R (dataDistance l2 data query dim · i) topk n_data
    pure (answers.set i answer_for_query)) (List.replicate n_query [])

-- ---------------------------------------------------------------------------
-- The order of the indices
-- ---------------------------------------------------------------------------

section Order

variable {F : Type} [Scalar F]

/-- "Not less" is total and transitive on the distances of the indices below `n`. -/
structure TotallyOrdered (distance : ℕ → F) (n : ℕ) : Prop where
  asymm    : ∀ i < n, ∀ j < n, distance i < distance j → ¬ distance j < distance i
  negTrans : ∀ i < n, ∀ j < n, ∀ k < n,
    ¬ distance i < distance j → ¬ distance j < distance k → ¬ distance i < distance k

/-- The index `i` comes before `j` by distance, and by index where the distances are equal. -/
def Nearer (distance : ℕ → F) (i j : ℕ) : Prop :=
  pairLess (distance i, i) (distance j, j)

variable {distance : ℕ → F} {n i j k : ℕ}

theorem TotallyOrdered.nearer_asymm (h : TotallyOrdered distance n) (hi : i < n) (hj : j < n)
    (hij : Nearer distance i j) : ¬ Nearer distance j i := by
  rintro (hlt | ⟨hge, hlt⟩)
  · rcases hij with hlt' | ⟨hge', -⟩
    · exact h.asymm i hi j hj hlt' hlt
    · exact hge' hlt
  · rcases hij with hlt' | ⟨-, hlt'⟩
    · exact hge hlt'
    · exact absurd (Nat.lt_trans hlt hlt') (Nat.lt_irrefl j)

theorem nearer_total (distance : ℕ → F) (hne : i ≠ j) :
    Nearer distance i j ∨ Nearer distance j i := by
  unfold Nearer pairLess
  by_cases hij : distance i < distance j
  · exact Or.inl (Or.inl hij)
  · by_cases hji : distance j < distance i
    · exact Or.inr (Or.inl hji)
    · rcases Nat.lt_or_gt_of_ne hne with hlt | hlt
      · exact Or.inl (Or.inr ⟨hji, hlt⟩)
      · exact Or.inr (Or.inr ⟨hij, hlt⟩)

theorem TotallyOrdered.nearer_trans (h : TotallyOrdered distance n) (hi : i < n) (hj : j < n)
    (hk : k < n) (hij : Nearer distance i j) (hjk : Nearer distance j k) :
    Nearer distance i k := by
  have hji' : ¬ distance j < distance i := hij.elim (h.asymm i hi j hj) (·.1)
  have hkj' : ¬ distance k < distance j := hjk.elim (h.asymm j hj k hk) (·.1)
  by_cases hik : distance i < distance k
  · exact Or.inl hik
  · -- the three distances are equal, so both indices have been compared
    have hlt : i < j := hij.elim (fun hlt => absurd hlt (h.negTrans i hi k hk j hj hik hkj')) (·.2)
    have hlt' : j < k := hjk.elim (fun hlt => absurd hlt (h.negTrans j hj i hi k hk hji' hik)) (·.2)
    exact Or.inr ⟨h.negTrans k hk j hj i hi hkj' hji', hlt.trans hlt'⟩

/-- The pairs of distances and indices are strictly and weakly ordered. -/
theorem TotallyOrdered.strictWeakOn (h : TotallyOrdered distance n) {m : Multiset (F × ℕ)}
    (hm : ∀ e ∈ m, e.2 < n ∧ e = (distance e.2, e.2)) :
    PriorityQueue.StrictWeakOn pairLess m := by
  have hnearer : ∀ a ∈ m, ∀ b ∈ m, pairLess a b ↔ Nearer distance a.2 b.2 := fun a ha b hb => by
    rw [Nearer, ← (hm a ha).2, ← (hm b hb).2]
  refine ⟨fun a ha b hb hab => ?_, fun a ha b hb c hc hab hbc hac => ?_⟩
  · rw [hnearer b hb a ha]
    exact h.nearer_asymm (hm a ha).1 (hm b hb).1 ((hnearer a ha b hb).mp hab)
  · rw [hnearer a ha b hb] at hab
    rw [hnearer b hb c hc] at hbc
    rw [hnearer a ha c hc] at hac
    by_cases hba : b.2 = a.2
    · exact hbc (hba ▸ hac)
    · refine hbc (h.nearer_trans (hm b hb).1 (hm a ha).1 (hm c hc).1 ?_ hac)
      exact (nearer_total distance hba).resolve_right hab

/-- The indices can be sorted. -/
theorem TotallyOrdered.exists_sorted (h : TotallyOrdered distance n) :
    ∃ sorted : List ℕ, sorted.Perm (List.range n) ∧ sorted.Pairwise (Nearer distance) := by
  let le : Fin n → Fin n → Bool := fun a b => !decide (pairLess (distance b, b.1) (distance a, a.1))
  have hle : ∀ a b, le a b = true ↔ ¬ Nearer distance b.1 a.1 := fun a b => by
    simp [le, Nearer]
  have htrans : ∀ a b c, le a b = true → le b c = true → le a c = true := fun a b c hab hbc => by
    rw [hle] at hab hbc ⊢
    by_cases hne : a.1 = b.1
    · rwa [hne]
    · have hlt := (nearer_total distance hne).resolve_right hab
      exact fun hca => hbc (h.nearer_trans c.2 a.2 b.2 hca hlt)
  have htotal : ∀ a b, (le a b || le b a) = true := fun a b => by
    rw [Bool.or_eq_true, hle, hle]
    by_cases hba : Nearer distance b.1 a.1
    · exact Or.inr (h.nearer_asymm b.2 a.2 hba)
    · exact Or.inl hba
  have hperm := List.mergeSort_perm (List.finRange n) le
  have hsorted := List.pairwise_mergeSort htrans htotal (List.finRange n)
  have hnodup : ((List.finRange n).mergeSort le).Nodup :=
    hperm.nodup_iff.mpr (List.nodup_finRange n)
  refine ⟨((List.finRange n).mergeSort le).map Fin.val, ?_, ?_⟩
  · have hval := hperm.map Fin.val
    rwa [List.map_coe_finRange_eq_range] at hval
  · rw [List.pairwise_map]
    refine (hsorted.and hnodup).imp fun {a b} ⟨hab, hne⟩ => ?_
    exact (nearer_total distance fun heq => hne (Fin.ext heq)).resolve_right ((hle a b).mp hab)

end Order

-- ---------------------------------------------------------------------------
-- The queue
-- ---------------------------------------------------------------------------

/-- The queue holds the nearest of the first `m` indices, `topk` of them at most. -/
structure NearestOf {F : Type} [Scalar F] (R : PriorityQueue (F × ℕ)) (distance : ℕ → F)
    (topk m : ℕ) (pq : R.Heap) : Prop where
  size  : R.size pq = min topk m
  elems : ∀ e ∈ R.elems pq, e.2 < m ∧ e = (distance e.2, e.2)
  nodup : ((R.elems pq).map Prod.snd).Nodup
  all   : m ≤ topk → ∀ j < m, (distance j, j) ∈ R.elems pq
  out   : ∀ j < m, (distance j, j) ∉ R.elems pq → ∀ e ∈ R.elems pq, Nearer distance e.2 j

section Queue

variable {F : Type} [Scalar F] {R : PriorityQueue (F × ℕ)} {distance : ℕ → F} {topk m n : ℕ}
  {pq : R.Heap}

theorem NearestOf.empty : NearestOf R distance topk 0 R.empty where
  size := by simp
  elems e he := by simp at he
  nodup := by simp
  all _ j hj := absurd hj (Nat.not_lt_zero j)
  out j hj := absurd hj (Nat.not_lt_zero j)

/-- The next data point is a new one. -/
theorem NearestOf.pushed (hpq : NearestOf R distance topk m pq) :
    (∀ e ∈ (distance m, m) ::ₘ R.elems pq, e.2 < m + 1 ∧ e = (distance e.2, e.2)) ∧
      (((distance m, m) ::ₘ R.elems pq).map Prod.snd).Nodup := by
  constructor
  · intro e he
    rcases Multiset.mem_cons.mp he with rfl | he
    · exact ⟨Nat.lt_succ_self m, rfl⟩
    · obtain ⟨hlt, heq⟩ := hpq.elems e he
      exact ⟨hlt.trans (Nat.lt_succ_self m), heq⟩
  · rw [Multiset.map_cons, Multiset.nodup_cons]
    refine ⟨fun hmem => ?_, hpq.nodup⟩
    obtain ⟨e, he, hem⟩ := Multiset.mem_map.mp hmem
    have hlt := (hpq.elems e he).1
    rw [hem] at hlt
    exact absurd hlt (Nat.lt_irrefl m)

/-- A queue with room keeps everything. -/
theorem NearestOf.collect_room (hpq : NearestOf R distance topk m pq) (hroom : R.size pq < topk)
    {pq' : R.Heap} (hkeep : R.elems pq' = (distance m, m) ::ₘ R.elems pq) :
    NearestOf R distance topk (m + 1) pq' := by
  have hsize := hpq.size
  have hall : ∀ j < m + 1, (distance j, j) ∈ R.elems pq' := fun j hj => by
    rw [hkeep, Multiset.mem_cons]
    rcases Nat.lt_succ_iff_lt_or_eq.mp hj with hj | rfl
    · exact Or.inr (hpq.all (by omega) j hj)
    · exact Or.inl rfl
  refine ⟨?_, fun e he => hpq.pushed.1 e (hkeep ▸ he), hkeep ▸ hpq.pushed.2, fun _ => hall,
    fun j hj hout => absurd (hall j hj) hout⟩
  have hcard := congrArg Multiset.card hkeep
  rw [Multiset.card_cons] at hcard
  change R.size pq' = R.size pq + 1 at hcard
  omega

/-- A full queue drops its top `t`, which is behind all that stay; so is everything that has been
dropped before, or is behind `t`. -/
theorem NearestOf.collect_full (hR : R.Lawful pairLess) (h : TotallyOrdered distance n) (hm : m < n)
    (hpq : NearestOf R distance topk m pq) (hfull : R.size pq = topk) {t : F × ℕ} {pq' : R.Heap}
    (htop : R.top (R.push pq (distance m, m)) = some t)
    (hdrop : (distance m, m) ::ₘ R.elems pq = t ::ₘ R.elems pq') :
    NearestOf R distance topk (m + 1) pq' := by
  have hsize := hpq.size
  obtain ⟨hnew, hdistinct⟩ := hpq.pushed
  rw [hdrop, Multiset.map_cons, Multiset.nodup_cons] at hdistinct
  have hsub : ∀ e ∈ R.elems pq', e ∈ (distance m, m) ::ₘ R.elems pq := fun e he =>
    hdrop ▸ Multiset.mem_cons_of_mem he
  have htmem : t ∈ (distance m, m) ::ₘ R.elems pq := hdrop ▸ Multiset.mem_cons_self t _
  have hlt : ∀ e ∈ (distance m, m) ::ₘ R.elems pq, e.2 < n := fun e he => (hnew e he).1.trans_le hm
  have hbefore : ∀ e ∈ R.elems pq', Nearer distance e.2 t.2 := fun e he => by
    have hne : e.2 ≠ t.2 := fun heq =>
      hdistinct.1 (heq ▸ Multiset.mem_map_of_mem Prod.snd he)
    have hmax := hR (R.push pq (distance m, m))
    rw [R.elems_push] at hmax
    have hnot := hmax (h.strictWeakOn fun e he => ⟨hlt e he, (hnew e he).2⟩) t htop e (hsub e he)
    rw [(hnew t htmem).2, (hnew e (hsub e he)).2] at hnot
    exact (nearer_total distance hne).resolve_right hnot
  have hcard := congrArg Multiset.card hdrop
  rw [Multiset.card_cons, Multiset.card_cons] at hcard
  change R.size pq + 1 = R.size pq' + 1 at hcard
  refine ⟨by omega, fun e he => hnew e (hsub e he), hdistinct.2, fun hle => by omega,
    fun j hj hout e he => ?_⟩
  by_cases hjt : j = t.2
  · exact hjt ▸ hbefore e he
  · have hold : (distance j, j) ∉ (distance m, m) ::ₘ R.elems pq := fun hmem => by
      rw [hdrop, Multiset.mem_cons] at hmem
      exact hmem.elim (fun heq => hjt (congrArg Prod.snd heq)) hout
    rw [Multiset.mem_cons, not_or] at hold
    have hjm : j < m := lt_of_le_of_ne (Nat.lt_succ_iff.mp hj) fun heq => hold.1 (heq ▸ rfl)
    rcases Multiset.mem_cons.mp htmem with rfl | ht
    · have hsame : R.elems pq = R.elems pq' := (Multiset.cons_inj_right _).mp hdrop
      exact hpq.out j hjm hold.2 e (hsame ▸ he)
    · exact h.nearer_trans (hlt e (hsub e he)) (hlt t htmem) (hjm.trans hm) (hbefore e he)
        (hpq.out j hjm hold.2 t ht)

/-- **One data point.** -/
theorem NearestOf.collect (hR : R.Lawful pairLess) (h : TotallyOrdered distance n) (hm : m < n)
    (hpq : NearestOf R distance topk m pq) :
    NearestOf R distance topk (m + 1) (collect R distance topk pq m) := by
  have hsize := hpq.size
  have hpush := R.size_push pq (distance m, m)
  unfold Mqo.collect
  rw [R.dropOver_eq_shrink (by omega)]
  rcases R.shrink_push (show R.size pq ≤ topk by omega) (distance m, m) with
    ⟨hroom, hkeep⟩ | ⟨hfull, t, htop, hdrop⟩
  · exact hpq.collect_room hroom hkeep
  · exact hpq.collect_full hR h hm hfull htop hdrop

/-- The loop over the data. -/
theorem nearestOf_loop (topk : ℕ) (hR : R.Lawful pairLess) (h : TotallyOrdered distance n) :
    ∀ m ≤ n, NearestOf R distance topk m
      ((List.range m).foldl (collect R distance topk) R.empty) := by
  intro m
  induction m with
  | zero => exact fun _ => NearestOf.empty
  | succ m ih =>
    intro hm
    rw [List.range_succ, List.foldl_append]
    exact (ih (by omega)).collect hR h hm

end Queue

-- ---------------------------------------------------------------------------
-- One answer
-- ---------------------------------------------------------------------------

/-- The list starts the list of all indices below `n`, sorted by distance and then by index. -/
def IsAnswer {F : Type} [Scalar F] (distance : ℕ → F) (n topk : ℕ) (answer : List ℕ) : Prop :=
  ∃ sorted : List ℕ, sorted.Perm (List.range n) ∧ sorted.Pairwise (Nearer distance) ∧
    answer = sorted.take topk

section Answer

variable {F : Type} [Scalar F] {R : PriorityQueue (F × ℕ)} {distance : ℕ → F} {topk n : ℕ}

omit [Scalar F] in
/-- The positions are filled from the last one on. -/
theorem fillLoop_returns (k : ℕ) :
    ∀ (pq : R.Heap) (done : List ℕ), R.size pq = k → ∃ pq', Returns
      ((List.range k).reverse.foldlM (fillStep R) (pq, List.replicate k 0 ++ done))
      (pq', ((R.drain pq).map Prod.snd).reverse ++ done) := by
  induction k with
  | zero =>
    intro pq done hsize
    have hnil : R.drain pq = [] := List.length_eq_zero_iff.mp ((R.length_drain pq).trans hsize)
    rw [hnil]
    exact ⟨pq, foldlM_nil _ _⟩
  | succ k ih =>
    intro pq done hsize
    obtain ⟨top, htop⟩ := R.exists_top_of_size (h := pq) (by omega)
    have hpop := R.size_pop htop
    obtain ⟨pq', hrest⟩ := ih (R.pop pq) (top.2 :: done) (by omega)
    have hset : (List.replicate (k + 1) 0 ++ done).set k top.2 =
        List.replicate k 0 ++ top.2 :: done := by
      rw [List.replicate_succ', List.append_assoc, List.set_append_right _ _ (by simp)]
      simp
    have hstep : Returns (fillStep R (pq, List.replicate (k + 1) 0 ++ done) k)
        (R.pop pq, List.replicate k 0 ++ top.2 :: done) := by
      unfold fillStep
      dsimp only
      rw [htop, ← hset]
      exact returns_pure _
    refine ⟨pq', ?_⟩
    rw [List.range_succ, List.reverse_append, List.reverse_singleton, List.singleton_append,
      R.drain_of_top htop, List.map_cons, List.reverse_cons, List.append_assoc,
      List.singleton_append]
    exact foldlM_cons hstep hrest

omit [Scalar F] in
theorem fillAnswer_returns {pq : R.Heap} (hsize : R.size pq = topk) :
    Returns (fillAnswer R topk pq) ((R.drain pq).map Prod.snd).reverse := by
  obtain ⟨pq', hret⟩ := fillLoop_returns topk pq [] hsize
  rw [List.append_nil, List.append_nil] at hret
  exact hret.bind (returns_pure _)

/-- A sorted list before which no other index comes starts the sorted list of all. -/
theorem TotallyOrdered.isAnswer (h : TotallyOrdered distance n) {answer : List ℕ}
    (hnodup : answer.Nodup) (hsorted : answer.Pairwise (Nearer distance))
    (hlt : ∀ j ∈ answer, j < n)
    (hout : ∀ j < n, j ∉ answer → ∀ i ∈ answer, Nearer distance i j) :
    IsAnswer distance n answer.length answer := by
  obtain ⟨all, hperm, hall⟩ := h.exists_sorted
  have hrest : ∀ {j}, j ∈ all.filter (fun j => j ∉ answer) ↔ j < n ∧ j ∉ answer := fun {j} => by
    rw [List.mem_filter, hperm.mem_iff, List.mem_range, decide_eq_true_eq]
  refine ⟨answer ++ all.filter fun j => j ∉ answer, ?_, ?_, (List.take_left' rfl).symm⟩
  · refine (List.perm_ext_iff_of_nodup ?_ List.nodup_range).mpr fun j => ?_
    · refine List.nodup_append.mpr ⟨hnodup, (hperm.nodup_iff.mpr List.nodup_range).filter _,
        fun i hi j hj hij => (hrest.mp hj).2 (hij ▸ hi)⟩
    · rw [List.mem_append, hrest, List.mem_range]
      by_cases hj : j ∈ answer
      · exact ⟨fun _ => hlt j hj, fun _ => Or.inl hj⟩
      · exact ⟨fun hor => (hor.resolve_left hj).1, fun hn => Or.inr ⟨hn, hj⟩⟩
  · refine List.pairwise_append.mpr ⟨hsorted, hall.sublist List.filter_sublist,
      fun i hi j hj => ?_⟩
    obtain ⟨hn, hnot⟩ := hrest.mp hj
    exact hout j hn hnot i hi

/-- What has been left out goes behind what the queue holds, which comes out farthest first. -/
theorem NearestOf.isAnswer (hR : R.Lawful pairLess) (h : TotallyOrdered distance n) {pq : R.Heap}
    (hpq : NearestOf R distance topk n pq) (htopk : topk ≤ n) :
    IsAnswer distance n topk ((R.drain pq).map Prod.snd).reverse := by
  have hmem : ∀ {j}, j ∈ ((R.drain pq).map Prod.snd).reverse ↔ ∃ e ∈ R.elems pq, e.2 = j := by
    intro j
    rw [List.mem_reverse, List.mem_map]
    exact exists_congr fun e => and_congr_left fun _ => R.mem_drain
  have hnodup : ((R.drain pq).map Prod.snd).Nodup := by
    rw [← Multiset.coe_nodup, ← Multiset.map_coe, R.coe_drain]
    exact hpq.nodup
  have hsorted : ((R.drain pq).map Prod.snd).reverse.Pairwise (Nearer distance) := by
    rw [List.pairwise_reverse, List.pairwise_map]
    refine ((R.drain_pairwise_lawful hR (h.strictWeakOn hpq.elems)).and
      (List.pairwise_map.mp hnodup)).imp_of_mem fun {a b} ha hb ⟨hab, hne⟩ => ?_
    rw [(hpq.elems a (R.mem_drain.mp ha)).2, (hpq.elems b (R.mem_drain.mp hb)).2] at hab
    exact (nearer_total distance hne).resolve_left hab
  have hlen : ((R.drain pq).map Prod.snd).reverse.length = topk := by
    rw [List.length_reverse, List.length_map, R.length_drain, hpq.size, Nat.min_eq_left htopk]
  have hanswer := h.isAnswer (List.nodup_reverse.mpr hnodup) hsorted
    (fun j hj => by
      obtain ⟨e, he, rfl⟩ := hmem.mp hj
      exact (hpq.elems e he).1)
    (fun j hj hnot i hi => by
      obtain ⟨e, he, rfl⟩ := hmem.mp hi
      exact hpq.out j hj (fun hin => hnot (hmem.mpr ⟨_, hin, rfl⟩)) e he)
  rwa [hlen] at hanswer

/-- **One query.** -/
theorem answerForQuery_returns (hR : R.Lawful pairLess) (h : TotallyOrdered distance n)
    (htopk : topk ≤ n) : ∃ answer, Returns (answerForQuery R distance topk n) answer ∧
      IsAnswer distance n topk answer := by
  have hpq := nearestOf_loop topk hR h n (le_refl n)
  exact ⟨_, fillAnswer_returns (hpq.size.trans (Nat.min_eq_left htopk)),
    hpq.isAnswer hR h htopk⟩

end Answer

-- ---------------------------------------------------------------------------
-- All answers
-- ---------------------------------------------------------------------------

/-- Every row starts the list of all data indices, sorted by their distance to its query. -/
def AnswerRows {F : Type} [Scalar F] (distance : ℕ → ℕ → F) (n_query n_data topk : ℕ)
    (answers : List (List ℕ)) : Prop :=
  answers.length = n_query ∧ ∀ i < n_query, ∃ answer, answers[i]? = some answer ∧
    IsAnswer (distance · i) n_data topk answer

/-- The loop over the queries stores what every iteration answers, in whatever order they
end. -/
theorem calculateAnswers_returns {F : Type} [Scalar F] {R : PriorityQueue (F × ℕ)}
    {data query : ℤ → F} {dim n_query n_data topk : ℕ} {l2 : Bool} {distance : ℕ → ℕ → F}
    (hrow : ∀ i < n_query, ∃ answer,
      Returns (answerForQuery R (dataDistance l2 data query dim · i) topk n_data) answer ∧
        IsAnswer (distance · i) n_data topk answer)
    {order : List ℕ} (horder : order.Perm (List.range n_query)) :
    ∃ answers, Returns (calculateAnswers R data query dim n_query n_data topk l2 order) answers ∧
      AnswerRows distance n_query n_data topk answers := by
  obtain ⟨answers, hret, hlen, hall⟩ := foldlM_returns (l := order)
    (f := fun answers i => do
      let answer_for_query ← answerForQuery R (dataDistance l2 data query dim · i) topk n_data
      pure (answers.set i answer_for_query))
    (fun pre (answers : List (List ℕ)) => answers.length = n_query ∧
      ∀ i ∈ pre, ∃ answer, answers[i]? = some answer ∧
        IsAnswer (distance · i) n_data topk answer)
    (fun pre i post answers hsplit ⟨hlen, hpre⟩ => by
      have hi : i < n_query := List.mem_range.mp (horder.mem_iff.mp (by rw [hsplit]; simp))
      obtain ⟨answer, hret, hanswer⟩ := hrow i hi
      refine ⟨_, hret.map, by rw [List.length_set, hlen], fun i' hi' => ?_⟩
      by_cases hsame : i' = i
      · subst hsame
        exact ⟨answer, List.getElem?_set_self (hlen ▸ hi), hanswer⟩
      · have hold : i' ∈ pre := (List.mem_append.mp hi').resolve_right fun hmem =>
          hsame (List.mem_singleton.mp hmem)
        rw [List.getElem?_set_ne (Ne.symm hsame)]
        exact hpre i' hold)
    (s := List.replicate n_query []) ⟨List.length_replicate, fun i hi => absurd hi List.not_mem_nil⟩
  exact ⟨answers, hret, hlen, fun i hi => hall i (horder.mem_iff.mpr (List.mem_range.mpr hi))⟩

/-- **`calculate_answers`.** Where the distances to each query, as they are computed, are totally
ordered, every row is the start of the list of all indices, sorted by them. -/
theorem calculateAnswers_sorted {F : Type} [Scalar F] {R : PriorityQueue (F × ℕ)}
    (hR : R.Lawful pairLess) (data query : ℤ → F) (dim : ℕ) {n_query n_data topk : ℕ} (l2 : Bool)
    (hdistance : ∀ i < n_query, TotallyOrdered (dataDistance l2 data query dim · i) n_data)
    (htopk : topk ≤ n_data) {order : List ℕ} (horder : order.Perm (List.range n_query)) :
    ∃ answers, Returns (calculateAnswers R data query dim n_query n_data topk l2 order) answers ∧
      AnswerRows (dataDistance l2 data query dim) n_query n_data topk answers :=
  calculateAnswers_returns (fun i hi => answerForQuery_returns hR (hdistance i hi) htopk) horder

end Mqo
