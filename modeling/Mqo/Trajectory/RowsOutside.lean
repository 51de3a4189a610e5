import Mqo.Trajectory.PrimReach

/-!
# MQO — rows that are read outside the matrix

Where the rows end above `2 ^ 31`, one of them is read before the start of the matrix. The
matrix `nanBefore` is zero, and what lies there is not a number: all distances of its rows are
finite, but none to that row is, as it is computed. No hyperplane splits its rows, so that the
row is left in one group with all others and the Prim loop never selects it.

* `spread_of_lsh`, `spread_of_mixedModified` — where an option returns, finite distances spread
  over its groups;
* `finiteRows_nanBefore`  — the rows of the matrix have finite distances;
* `SplitResult.nanBefore` — `split` leaves them in one group;
* `not_spread_nanBefore`  — over which nothing spreads to the row that is misread.
-/

namespace Mqo

open Prog IntOffset Exact

-- ---------------------------------------------------------------------------
-- What it takes to return
-- ---------------------------------------------------------------------------

section Returns

variable {F D : Type} [Scalar F] [IsTrans F (· < ·)] [Scalar D] [Widen F D]
  {Q : PriorityQueue GroupInfo} {normDist : ℕ → F} {query : ℤ → F} {n_query dim : ℕ}
  {use_l2 : Bool} {params : Params} {gen : Gen} {r : (Trajectory × D) × Gen} {pq : Q.Heap}

/-- Where the option `lsh` returns, finite distances spread over every group. -/
theorem spread_of_lsh (hn : 0 < n_query) (hB : 1 ≤ params.get "B")
    (h : Returns (optimizeTrajectoryLshMst Q normDist query n_query dim use_l2 params gen) r)
    (hres : SplitResult Q normDist query n_query dim (params.get "B") pq) :
    ∀ g ∈ Q.elems pq, GroupSpreads use_l2 query dim g.group := by
  obtain ⟨hyperplane, hhyp, h⟩ := h.of_bind
  obtain ⟨pq', hsplit, h⟩ := h.of_bind
  obtain rfl := hres.unique ⟨hyperplane, hhyp, hsplit⟩
  obtain ⟨totals, htotals, -⟩ := h.of_bind
  exact (returns_iff_of_ends (mstOfGroups_end use_l2 query dim (hres.spec hn hB).1 _)).mp
    ⟨totals, htotals⟩

/-- Where the option `mixed_modified` returns and no group is large, they do as well. -/
theorem spread_of_mixedModified {edgeQueue : PriorityQueue (PrimStep F)} {builders : Builders F}
    {B : ℤ} (hn : 0 < n_query) (hB : params "B" = some B) (hB1 : 1 ≤ B)
    (h : Returns (optimizeTrajectoryMixedModifiedMst Q normDist edgeQueue builders query n_query dim
      use_l2 params gen) r)
    (hres : SplitResult Q normDist query n_query dim B pq)
    (hsmall : ∀ g ∈ Q.elems pq, g.group.length ≤ 500) :
    ∀ g ∈ Q.elems pq, GroupSpreads use_l2 query dim g.group := by
  obtain ⟨B', hB', h⟩ := h.of_bind
  obtain rfl : B' = B := Option.some.inj ((lookup_eq hB').symm.trans hB)
  obtain ⟨M, -, h⟩ := h.of_bind
  obtain ⟨hyperplane, hhyp, h⟩ := h.of_bind
  obtain ⟨pq', hsplit, h⟩ := h.of_bind
  obtain rfl := hres.unique ⟨hyperplane, hhyp, hsplit⟩
  obtain ⟨totals, htotals, -⟩ := h.of_bind
  have hall := (returns_iff_of_ends (mixedGroups_end edgeQueue builders params.baseOnly use_l2 M
    ((params "ef").getD M) query dim (hres.spec hn hB1).1
    (fun g hg hbig => absurd hbig (Nat.not_lt.mpr (hsmall g hg))) _)).mp ⟨totals, htotals⟩
  exact fun g hg => hall g hg (hsmall g hg)

end Returns

-- ---------------------------------------------------------------------------
-- A matrix of zeros
-- ---------------------------------------------------------------------------

/-- Zeros, and something that is not a number `2 ^ 31` before the start. -/
def nanBefore : ℤ → Exact ℝ := fun k => if k = -2 ^ 31 then nan else fin 0

theorem nanBefore_cases (k : ℤ) : nanBefore k = fin 0 ∨ nanBefore k = nan := by
  unfold nanBefore
  split
  · exact Or.inr rfl
  · exact Or.inl rfl

theorem matrixRow_nanBefore (dim i pos : ℕ) : matrixRow nanBefore dim i pos = fin 0 := by
  rw [matrixRow, nanBefore, if_neg (by omega)]

/-- The rows of the matrix are all at one place. -/
theorem finiteRows_nanBefore (use_l2 : Bool) (dim n_query : ℕ) :
    FiniteRows use_l2 nanBefore dim n_query := by
  intro i _ j _ _
  rw [vectorDistance_congr (fun pos _ => matrixRow_nanBefore dim i pos)
    (fun pos _ => matrixRow_nanBefore dim j pos), vectorDistance_fin]
  exact fin_lt_infinity _

/-- Every product with a hyperplane is zero, or not a number. -/
theorem innerproduct_nanBefore (hyperplane : List (Exact ℝ)) (dim hindex qindex : ℕ) :
    ¬ innerproduct nanBefore hyperplane dim hindex qindex < 0 := by
  suffices h : ∀ (l : List ℕ) (sum : Exact ℝ), sum = fin 0 ∨ sum = nan →
      l.foldl (fun sum i => sum + columnAt nanBefore (intMul dim qindex) i *
        hyperplane.getD (intMul dim hindex + Int32.ofNat i).toInt.toNat 0) sum = fin 0 ∨
      l.foldl (fun sum i => sum + columnAt nanBefore (intMul dim qindex) i *
        hyperplane.getD (intMul dim hindex + Int32.ofNat i).toInt.toNat 0) sum = nan by
    unfold innerproduct
    rcases h (List.range dim) 0 (Or.inl rfl) with hsum | hsum
    · rw [hsum]
      exact fun hlt => lt_irrefl (0 : ℝ) (fin_lt.mp hlt)
    · rw [hsum]
      exact not_nan_lt 0
  intro l
  induction l with
  | nil => exact fun sum hsum => hsum
  | cons i l ih =>
    intro sum hsum
    rw [List.foldl_cons]
    refine ih _ ?_
    rcases hsum with rfl | rfl
    · rcases nanBefore_cases (intMul dim qindex + Int32.ofNat i).toInt with hread | hread
      · rw [columnAt, hread]
        rcases zero_mul_cases (hyperplane.getD
          (intMul dim hindex + Int32.ofNat i).toInt.toNat 0) with hterm | hterm
        · rw [hterm, fin_add, add_zero]
          exact Or.inl rfl
        · rw [hterm, add_nan]
          exact Or.inr rfl
      · rw [columnAt, hread, nan_mul, add_nan]
        exact Or.inr rfl
    · rw [nan_add]
      exact Or.inr rfl

/-- **One group** is left of the matrix. -/
theorem SplitResult.nanBefore {Q : PriorityQueue GroupInfo} {normDist : ℕ → Exact ℝ}
    {n_query dim : ℕ} (hn : 0 < n_query) {B : ℤ} {pq : Q.Heap}
    (h : SplitResult Q normDist nanBefore n_query dim B pq) :
    Q.elems pq = {⟨List.range n_query, n_query⟩} := by
  obtain ⟨hyperplane, -, hsplit⟩ := h
  exact split_whole Q hn (fun hindex q => innerproduct_nanBefore hyperplane dim hindex q) hsplit

/-- No distance to the row that is misread is a number. -/
theorem metricDistance_nanBefore (use_l2 : Bool) {dim : ℕ} (hdim : 0 < dim) (i : ℕ) :
    metricDistance use_l2 nanBefore dim i (2 ^ 31 / dim) = nan := by
  rw [metricDistance_eq]
  refine vectorDistance_nan use_l2 (Nat.mod_lt (2 ^ 31) hdim) _ ?_
  rw [columnAt_wrapped]
  exact if_pos rfl

/-- **Nothing spreads** to the row that is misread. -/
theorem not_spread_nanBefore (use_l2 : Bool) {n dim : ℕ} (hint : dim < 2 ^ 31)
    (hover : ¬ RowsFit n dim) : ¬ GroupSpreads use_l2 nanBefore dim (List.range n) := by
  obtain ⟨hdim, hrow, -⟩ := row_of_not_fit hover
  intro hall
  have hpath := hall (2 ^ 31 / dim) (by rwa [List.length_range])
  rcases Relation.ReflTransGen.cases_tail hpath with hzero | ⟨i, -, -, hlt⟩
  · exact absurd hzero (Nat.div_pos hint.le hdim).ne'
  · have hmember : (List.range n).getD (2 ^ 31 / dim) 0 = 2 ^ 31 / dim := by
      rw [List.getD_eq_getElem _ _ (by rwa [List.length_range]), List.getElem_range]
    rw [groupDistance, hmember, metricDistance_nanBefore use_l2 hdim] at hlt
    exact not_nan_lt _ hlt

end Mqo
