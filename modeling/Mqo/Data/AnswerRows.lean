import Mqo.Data.Answers
import Mqo.Trajectory.Exact

/-!
# MQO — the exact answers and the rows of the matrices

`get_distance_data_query` and `get_distance_data_query_ip` compute the offsets of both rows in
`int`. While the rows of both matrices end at `2 ^ 31` or below, `calculate_answers` sorts the
data by the distances of the rows. Where one of them does not, it may sort by what lies before
the matrix.

* `dataDistance_row`         — rows that fit are compared as they are;
* `answerForQuery_one`       — a single data point is the answer to every query;
* `data_misread`, `query_misread` — matrices on which the first answer is a wrong one;
* `calculateAnswers_iff`     — the condition under which there is none.
-/

namespace Mqo

open Prog IntOffset Exact

-- ---------------------------------------------------------------------------
-- The rows
-- ---------------------------------------------------------------------------

section Rows

variable {F : Type} [Scalar F]

/-- The distance of a row of the data and a row of the queries. -/
def rowDataDistance (l2 : Bool) (data query : ℤ → F) (dim dindex qindex : ℕ) : F :=
  vectorDistance l2 dim (fun i => data ↑(dim * dindex + i)) fun i => query ↑(dim * qindex + i)

theorem dataDistance_eq (l2 : Bool) (data query : ℤ → F) (dim dindex qindex : ℕ) :
    dataDistance l2 data query dim dindex qindex =
      vectorDistance l2 dim (columnAt data (intMul dim dindex))
        (columnAt query (intMul dim qindex)) := rfl

/-- **Rows that fit** are compared as they are. -/
theorem dataDistance_row {n_data n_query dim dindex qindex : ℕ} (hdata : RowsFit n_data dim)
    (hquery : RowsFit n_query dim) (hd : dindex < n_data) (hq : qindex < n_query) (l2 : Bool)
    (data query : ℤ → F) :
    dataDistance l2 data query dim dindex qindex =
      rowDataDistance l2 data query dim dindex qindex := by
  rw [dataDistance_eq]
  exact vectorDistance_congr (fun _ hpos => hdata.columnAt data hd hpos)
    fun _ hpos => hquery.columnAt query hq hpos

-- ---------------------------------------------------------------------------
-- First answers
-- ---------------------------------------------------------------------------

variable {distance distance' : ℕ → F} {n topk : ℕ}

omit [Scalar F] in
/-- **A single data point** is the answer to every query. -/
theorem answerForQuery_one (R : PriorityQueue (F × ℕ)) (distance : ℕ → F) :
    Returns (answerForQuery R distance 1 1) [0] := by
  have hkeep : R.elems (collect R distance 1 R.empty 0) = {(distance 0, 0)} := by
    unfold collect
    rw [R.dropOver_eq_shrink (by simp)]
    rcases R.shrink_push (show R.size R.empty ≤ 1 by simp) (distance 0, 0) with
      ⟨-, hkeep⟩ | ⟨hfull, -⟩
    · rw [hkeep, R.elems_empty, Multiset.cons_zero]
    · simp at hfull
  have hdrain : R.drain (collect R distance 1 R.empty 0) = [(distance 0, 0)] := by
    rw [← Multiset.coe_eq_singleton, R.coe_drain, hkeep]
  have hsize : R.size (collect R distance 1 R.empty 0) = 1 := by
    rw [PriorityQueue.size, hkeep, Multiset.card_singleton]
  have hret := fillAnswer_returns hsize
  rwa [hdrain] at hret

theorem isAnswer_one (distance : ℕ → F) : IsAnswer distance 1 1 [0] :=
  ⟨[0], List.Perm.refl _, List.pairwise_singleton _ _, rfl⟩

omit [Scalar F] in
/-- Only the distances of the data points play a role. -/
theorem answerForQuery_congr (R : PriorityQueue (F × ℕ)) (topk : ℕ)
    (h : ∀ j < n, distance j = distance' j) :
    answerForQuery R distance topk n = answerForQuery R distance' topk n := by
  unfold answerForQuery
  congr 1
  refine List.foldl_ext _ _ _ fun pq j hj => ?_
  rw [collect, collect, h j (List.mem_range.mp hj)]

/-- The first answer is nearer than any other index. -/
theorem IsAnswer.first {answer : List ℕ} (h : IsAnswer distance n topk answer) (htopk : 1 ≤ topk)
    (hn : topk ≤ n) :
    ∃ first, answer.head? = some first ∧ first < n ∧
      ∀ j < n, j ≠ first → Nearer distance first j := by
  obtain ⟨sorted, hperm, hsorted, rfl⟩ := h
  cases sorted with
  | nil =>
    have hlen := hperm.length_eq
    rw [List.length_nil, List.length_range] at hlen
    omega
  | cons first rest =>
    refine ⟨first, ?_, List.mem_range.mp (hperm.mem_iff.mp List.mem_cons_self), fun j hj hne => ?_⟩
    · rw [List.head?_take, if_neg (by omega), List.head?_cons]
    · have hmem := hperm.mem_iff.mpr (List.mem_range.mpr hj)
      exact (List.pairwise_cons.mp hsorted).1 j ((List.mem_cons.mp hmem).resolve_left hne)

/-- Two distances do not have one answer when the first index is nearest by one of them only. -/
theorem IsAnswer.not_first {answer : List ℕ} (h : IsAnswer distance n topk answer)
    (h' : IsAnswer distance' n topk answer) (htopk : 1 ≤ topk) (hn : topk ≤ n)
    (hleast : ∀ j < n, ¬ distance j < distance 0) {r : ℕ} (hr : r < n)
    (hless : distance' r < distance' 0) (hirrefl : ¬ distance' 0 < distance' r) : False := by
  obtain ⟨first, hfirst, hlt, hnear⟩ := h.first htopk hn
  obtain ⟨first', hfirst', -, hnear'⟩ := h'.first htopk hn
  obtain rfl : first = first' := Option.some.inj (hfirst.symm.trans hfirst')
  have hzero : first = 0 := by
    by_contra hne
    rcases hnear 0 (by omega) (Ne.symm hne) with hless | ⟨-, hless⟩
    · exact hleast first hlt hless
    · exact Nat.not_lt_zero _ hless
  subst hzero
  have hr0 : r ≠ 0 := fun h0 => hirrefl (by rw [h0] at hless ⊢; exact hless)
  rcases hnear' r hr hr0 with hmore | ⟨hmore, -⟩
  · exact hirrefl hmore
  · exact hmore hless

end Rows

-- ---------------------------------------------------------------------------
-- Finite matrices
-- ---------------------------------------------------------------------------

section Finite

variable {K : Type} [Field K] [LinearOrder K] [IsStrictOrderedRing K] [Root K]

/-- The distances of finite vectors, as they are computed. -/
theorem dataDistance_fin (l2 : Bool) (x y : ℤ → K) (dim dindex qindex : ℕ) :
    dataDistance l2 (finMatrix x) (finMatrix y) dim dindex qindex =
      fin (distanceOf l2 dim (columnAt x (intMul dim dindex)) (columnAt y (intMul dim qindex))) :=
  vectorDistance_fin l2 dim _ _

theorem rowDataDistance_fin (l2 : Bool) (x y : ℤ → K) (dim dindex qindex : ℕ) :
    rowDataDistance l2 (finMatrix x) (finMatrix y) dim dindex qindex =
      fin (distanceOf l2 dim (matrixRow x dim dindex) (matrixRow y dim qindex)) :=
  vectorDistance_fin l2 dim _ _

omit [IsStrictOrderedRing K] in
/-- Finite distances are totally ordered. -/
theorem totallyOrdered_fin {distance : ℕ → Exact K} {w : ℕ → K} (h : ∀ j, distance j = fin (w j))
    (n : ℕ) : TotallyOrdered distance n where
  asymm j _ k _ hlt hlt' := by
    rw [h, h, fin_lt] at hlt hlt'
    exact lt_asymm hlt hlt'
  negTrans j _ k _ l _ hjk hkl := by
    rw [h, h, fin_lt, not_lt] at hjk hkl
    rw [h, h, fin_lt, not_lt]
    exact hkl.trans hjk

end Finite

-- ---------------------------------------------------------------------------
-- Rows that are misread
-- ---------------------------------------------------------------------------

section Misread

variable {dim : ℕ} {u v u' v' : ℕ → ℝ}

/-- A vector is no farther when it is no farther in any column. -/
theorem distanceOf_le (l2 : Bool)
    (hsquare : ∀ pos < dim,
      (u pos - v pos) * (u pos - v pos) ≤ (u' pos - v' pos) * (u' pos - v' pos))
    (hproduct : ∀ pos < dim, u' pos * v' pos ≤ u pos * v pos) :
    distanceOf l2 dim u v ≤ distanceOf l2 dim u' v' := by
  unfold distanceOf
  cases l2 with
  | true =>
    exact Real.sqrt_le_sqrt (List.sum_le_sum fun pos hpos => hsquare pos (List.mem_range.mp hpos))
  | false =>
    exact sub_le_sub_left (List.sum_le_sum fun pos hpos => hproduct pos (List.mem_range.mp hpos)) 1

/-- It is nearer when it is nearer in one. -/
theorem distanceOf_lt (l2 : Bool) {c : ℕ} (hc : c < dim)
    (hsquare : ∀ pos < dim,
      (u pos - v pos) * (u pos - v pos) ≤ (u' pos - v' pos) * (u' pos - v' pos))
    (hsquare' : (u c - v c) * (u c - v c) < (u' c - v' c) * (u' c - v' c))
    (hproduct : ∀ pos < dim, u' pos * v' pos ≤ u pos * v pos)
    (hproduct' : u' c * v' c < u c * v c) :
    distanceOf l2 dim u v < distanceOf l2 dim u' v' := by
  have hmem : c ∈ List.range dim := List.mem_range.mpr hc
  unfold distanceOf
  cases l2 with
  | true =>
    exact Real.sqrt_lt_sqrt (squaredOf_nonneg dim u v) (List.sum_lt_sum _ _
      (fun pos hpos => hsquare pos (List.mem_range.mp hpos)) ⟨c, hmem, hsquare'⟩)
  | false =>
    exact sub_lt_sub_left (List.sum_lt_sum _ _
      (fun pos hpos => hproduct pos (List.mem_range.mp hpos)) ⟨c, hmem, hproduct'⟩) 1

/-- One from the start of the matrix on, and zero before it. -/
def onesMatrix : ℤ → ℝ := fun k => if 0 ≤ k then 1 else 0

/-- Zero from the start of the matrix on, and one before it. -/
def zerosMatrix : ℤ → ℝ := fun k => if 0 ≤ k then 0 else 1

/-- Zero in the first row, and one in the columns of all others from `c` on. -/
def stepMatrix (dim c : ℕ) : ℤ → ℝ := fun k =>
  if k < dim ∨ k % dim < c then 0 else 1

variable {n : ℕ} (l2 : Bool)

/-- **A data row that is misread.** In the matrix all points are at one distance; the one that
is misread is nearer. -/
theorem data_misread (hint : dim < 2 ^ 31) (hover : ¬ RowsFit n dim) :
    (∀ j, ¬ distanceOf l2 dim (matrixRow onesMatrix dim j) (matrixRow (fun _ => -1) dim 0) <
      distanceOf l2 dim (matrixRow onesMatrix dim 0) (matrixRow (fun _ => -1) dim 0)) ∧
    ∃ r < n, distanceOf l2 dim (columnAt onesMatrix (intMul dim r))
        (columnAt (fun _ => -1) (intMul dim 0)) <
      distanceOf l2 dim (columnAt onesMatrix (intMul dim 0))
        (columnAt (fun _ => -1) (intMul dim 0)) := by
  obtain ⟨hdim, hrow, hc⟩ := row_of_not_fit hover
  have hones : ∀ k : ℤ, 0 ≤ k → onesMatrix k = 1 := fun k hk => if_pos hk
  have hread : ∀ pos < dim, columnAt onesMatrix (intMul dim (2 ^ 31 / dim)) pos =
      if pos < 2 ^ 31 % dim then 1 else 0 := fun pos hpos =>
    columnAt_sign hones (fun k hk => if_neg (by omega)) hint hpos
  have hfirst : ∀ pos < dim, columnAt onesMatrix (intMul dim 0) pos = 1 := fun pos hpos => by
    rw [columnAt_intMul _ (by omega)]
    exact hones _ (Int.natCast_nonneg _)
  refine ⟨fun j => not_lt.mpr (distanceOf_le l2 (fun pos _ => ?_) fun pos _ => ?_), 2 ^ 31 / dim,
    hrow, distanceOf_lt l2 hc (fun pos hpos => ?_) ?_ (fun pos hpos => ?_) ?_⟩
  · simp only [matrixRow, hones _ (Int.natCast_nonneg _), le_refl]
  · simp only [matrixRow, hones _ (Int.natCast_nonneg _), le_refl]
  · rw [hread pos hpos, hfirst pos hpos, columnAt]
    split <;> norm_num
  · rw [hread _ hc, hfirst _ hc, columnAt, if_neg (lt_irrefl _)]
    norm_num
  · rw [hread pos hpos, hfirst pos hpos, columnAt]
    split <;> norm_num
  · rw [hread _ hc, hfirst _ hc, columnAt, if_neg (lt_irrefl _)]
    norm_num

/-- **A query that is misread.** In the matrix no point is nearer than the first one; to what
is read instead, the second one is. -/
theorem query_misread {n_data : ℕ} (hn : 2 ≤ n_data) (hdata : RowsFit n_data dim)
    (hint : dim < 2 ^ 31) (hover : ¬ RowsFit n dim) : ∃ q < n,
    (∀ j, ¬ distanceOf l2 dim (matrixRow (stepMatrix dim (2 ^ 31 % dim)) dim j)
        (matrixRow zerosMatrix dim q) <
      distanceOf l2 dim (matrixRow (stepMatrix dim (2 ^ 31 % dim)) dim 0)
        (matrixRow zerosMatrix dim q)) ∧
    distanceOf l2 dim (columnAt (stepMatrix dim (2 ^ 31 % dim)) (intMul dim 1))
        (columnAt zerosMatrix (intMul dim q)) <
      distanceOf l2 dim (columnAt (stepMatrix dim (2 ^ 31 % dim)) (intMul dim 0))
        (columnAt zerosMatrix (intMul dim q)) := by
  obtain ⟨hdim, hrow, hc⟩ := row_of_not_fit hover
  have hzeros : ∀ k : ℤ, 0 ≤ k → zerosMatrix k = 0 := fun k hk => if_pos hk
  have hread : ∀ pos < dim, columnAt zerosMatrix (intMul dim (2 ^ 31 / dim)) pos =
      if pos < 2 ^ 31 % dim then 0 else 1 := fun pos hpos =>
    columnAt_sign hzeros (fun k hk => if_neg (by omega)) hint hpos
  have hfirst : ∀ pos < dim, stepMatrix dim (2 ^ 31 % dim) ↑(dim * 0 + pos) = 0 := fun pos hpos =>
    if_pos (Or.inl (by omega))
  have hfirstRead : ∀ pos < dim,
      columnAt (stepMatrix dim (2 ^ 31 % dim)) (intMul dim 0) pos = 0 := fun pos hpos => by
    rw [hdata.columnAt _ (by omega) hpos, hfirst pos hpos]
  have hsecondRead : ∀ pos < dim, columnAt (stepMatrix dim (2 ^ 31 % dim)) (intMul dim 1) pos =
      if pos < 2 ^ 31 % dim then 0 else 1 := fun pos hpos => by
    have hmod : ((dim * 1 + pos : ℕ) : ℤ) % dim = pos := by
      rw [← Int.natCast_mod, Nat.mul_add_mod, Nat.mod_eq_of_lt hpos]
    rw [hdata.columnAt _ (by omega) hpos, stepMatrix, hmod]
    refine if_congr ?_ rfl rfl
    omega
  refine ⟨2 ^ 31 / dim, hrow, fun j => not_lt.mpr (distanceOf_le l2 (fun pos hpos => ?_)
    fun pos hpos => ?_), distanceOf_lt l2 hc (fun pos hpos => ?_) ?_ (fun pos hpos => ?_) ?_⟩
  · rw [matrixRow, matrixRow, hfirst pos hpos, hzeros _ (Int.natCast_nonneg _), sub_zero, zero_mul]
    exact mul_self_nonneg _
  · rw [matrixRow, matrixRow, hzeros _ (Int.natCast_nonneg _), mul_zero, mul_zero]
  · rw [hfirstRead pos hpos, hsecondRead pos hpos, hread pos hpos, sub_self, zero_mul]
    exact mul_self_nonneg _
  · rw [hfirstRead _ hc, hsecondRead _ hc, hread _ hc, if_neg (lt_irrefl _)]
    norm_num
  · rw [hfirstRead pos hpos, hsecondRead pos hpos, hread pos hpos, zero_mul]
    exact mul_self_nonneg _
  · rw [hfirstRead _ hc, hsecondRead _ hc, hread _ hc, if_neg (lt_irrefl _)]
    norm_num

end Misread

-- ---------------------------------------------------------------------------
-- All answers
-- ---------------------------------------------------------------------------

/-- `calculate_answers` sorts the data by the given distance, wherever it is totally ordered, in
whatever order the iterations end. -/
def SortsBy (distance : ∀ {F : Type} [Scalar F], (ℤ → F) → (ℤ → F) → ℕ → ℕ → F)
    (n_query n_data dim topk : ℕ) (l2 : Bool) : Prop :=
  ∀ {F : Type} [Scalar F] (R : PriorityQueue (F × ℕ)) (data query : ℤ → F) (order : List ℕ),
    R.Lawful pairLess → order.Perm (List.range n_query) →
    (∀ i < n_query, TotallyOrdered (distance data query · i) n_data) →
    ∃ answers, Returns (calculateAnswers R data query dim n_query n_data topk l2 order) answers ∧
      AnswerRows (distance data query) n_query n_data topk answers

/-- The rows of the data matrix and of the query matrix are in reach, or play no role. -/
def RowsMatter (n_query n_data dim : ℕ) : Prop :=
  n_query = 0 ∨ n_data = 1 ∨ (RowsFit n_data dim ∧ RowsFit n_query dim)

section Answers

variable {n_query n_data dim topk : ℕ} (hint : dim < 2 ^ 31) (htopk : 1 ≤ topk)
  (hdata : topk ≤ n_data) (l2 : Bool)

include htopk hdata

/-- Where the rows fit, the data is sorted by their distances. -/
theorem sortsBy_rows (h : RowsMatter n_query n_data dim) :
    SortsBy (fun data query => rowDataDistance l2 data query dim) n_query n_data dim topk l2 := by
  intro F _ R data query order hR horder hordered
  refine calculateAnswers_returns (fun i hi => ?_) horder
  rcases h with rfl | rfl | ⟨hfit, hfit'⟩
  · exact absurd hi (Nat.not_lt_zero i)
  · obtain rfl : topk = 1 := le_antisymm hdata htopk
    exact ⟨[0], answerForQuery_one R _, isAnswer_one _⟩
  · rw [answerForQuery_congr R topk fun j hj => dataDistance_row hfit hfit' hj hi l2 data query]
    exact answerForQuery_returns hR (hordered i hi) hdata

/-- The data is not sorted by the distances of the rows when no row is nearer than the first one,
and another one is, as it is read. -/
theorem not_answerRows {R : PriorityQueue (Exact ℝ × ℕ)} (hR : R.Lawful pairLess) {order : List ℕ}
    (horder : order.Perm (List.range n_query)) {x y : ℤ → ℝ} {q r : ℕ} (hq : q < n_query)
    (hr : r < n_data)
    (hleast : ∀ j, ¬ distanceOf l2 dim (matrixRow x dim j) (matrixRow y dim q) <
      distanceOf l2 dim (matrixRow x dim 0) (matrixRow y dim q))
    (hless : distanceOf l2 dim (columnAt x (intMul dim r)) (columnAt y (intMul dim q)) <
      distanceOf l2 dim (columnAt x (intMul dim 0)) (columnAt y (intMul dim q))) :
    ¬ ∃ answers,
      Returns (calculateAnswers R (finMatrix x) (finMatrix y) dim n_query n_data topk l2 order)
        answers ∧
      AnswerRows (rowDataDistance l2 (finMatrix x) (finMatrix y) dim) n_query n_data topk
        answers := by
  rintro ⟨answers, hret, -, hrows⟩
  obtain ⟨answers', hret', -, hread⟩ := calculateAnswers_sorted hR (finMatrix x) (finMatrix y) dim
    l2 (fun i _ => totallyOrdered_fin (dataDistance_fin l2 x y dim · i) n_data) hdata horder
  obtain rfl := hret.unique hret'
  obtain ⟨answer, hanswer, hrow⟩ := hrows q hq
  obtain ⟨answer', hanswer', hread⟩ := hread q hq
  obtain rfl : answer = answer' := Option.some.inj (hanswer.symm.trans hanswer')
  refine hrow.not_first hread htopk hdata (fun j _ => ?_) hr ?_ ?_
  · rw [rowDataDistance_fin, rowDataDistance_fin]
    exact hleast j
  · rw [dataDistance_fin, dataDistance_fin]
    exact hless
  · rw [dataDistance_fin, dataDistance_fin]
    exact lt_asymm hless

include hint

/-- Where they do not, there are matrices that are sorted in another way. -/
theorem not_sortsBy_rows (h : ¬ RowsMatter n_query n_data dim) :
    ¬ SortsBy (fun data query => rowDataDistance l2 data query dim) n_query n_data dim topk l2 := by
  intro hsorts
  have hrows : ∀ (x y : ℤ → ℝ) (i : ℕ), TotallyOrdered
      (rowDataDistance l2 (finMatrix x) (finMatrix y) dim · i) n_data := fun x y i =>
    totallyOrdered_fin (rowDataDistance_fin l2 x y dim · i) n_data
  have hanswers := fun x y => hsorts _ (finMatrix x) (finMatrix y) (List.range n_query)
    PriorityQueue.byLess_lawful (List.Perm.refl _) fun i _ => hrows x y i
  obtain ⟨hquery, hone, hnot⟩ : n_query ≠ 0 ∧ n_data ≠ 1 ∧
      ¬ (RowsFit n_data dim ∧ RowsFit n_query dim) := by
    simpa [RowsMatter, not_or] using h
  by_cases hfit : RowsFit n_data dim
  · obtain ⟨q, hq, hleast, hless⟩ := query_misread l2 (by omega) hfit hint fun h => hnot ⟨hfit, h⟩
    exact not_answerRows htopk hdata l2 PriorityQueue.byLess_lawful (List.Perm.refl _) hq (by omega)
      hleast hless (hanswers _ _)
  · obtain ⟨hleast, r, hr, hless⟩ := data_misread l2 hint hfit
    exact not_answerRows htopk hdata l2 PriorityQueue.byLess_lawful (List.Perm.refl _)
      (Nat.pos_of_ne_zero hquery) hr hleast hless (hanswers _ _)

end Answers

end Mqo
