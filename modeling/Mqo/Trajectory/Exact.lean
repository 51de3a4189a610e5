import Mathlib.Algebra.Order.BigOperators.Group.List
import Mathlib.Data.List.GetD
import Mathlib.Tactic.Linarith
import Mathlib.Tactic.Ring
import Mqo.Trajectory.HnswIndex

/-!
# MQO — distances in exact arithmetic

Over `Exact R`, a matrix of finite entries has finite distances. `exactDistance`
is the value that `get_distance` or `get_distance_ip` has there, and the
distance functions of the index compute the same sums. While the rows end at
`2 ^ 31` or below, all of them measure the rows of the matrix.

* `metricDistance_fin` — the code's distance is `exactDistance`;
* `finiteDistances_fin` — so all distances are finite;
* `exactDistance_row`  — rows that fit are measured where they lie;
* `l2Sqr_row`, `innerProductDistance_row` — the functions of the spaces, for the vectors
  behind two pointers;
* `pointerRow_eq`      — which are rows of the matrix too.
-/

namespace Mqo

open Exact IntOffset

variable {R : Type} [Field R] [LinearOrder R] [IsStrictOrderedRing R] [Root R]

/-- The matrix with the given finite entries. -/
def finMatrix (x : ℤ → R) : ℤ → Exact R := fun k => fin (x k)

/-- The vector behind the pointer to row `i`. -/
def pointerRow (x : ℤ → R) (dim i : ℕ) : ℕ → R := fun pos => x ((intMul i dim).toInt + pos)

/-- The squared distance of two vectors. -/
def squaredOf (dim : ℕ) (u v : ℕ → R) : R :=
  ((List.range dim).map fun pos => (u pos - v pos) * (u pos - v pos)).sum

/-- The inner-product distance of two vectors. -/
def ipOf (dim : ℕ) (u v : ℕ → R) : R :=
  1 - ((List.range dim).map fun pos => u pos * v pos).sum

/-- The distance of two vectors. -/
def distanceOf (use_l2 : Bool) (dim : ℕ) (u v : ℕ → R) : R :=
  if use_l2 then Root.root (squaredOf dim u v) else ipOf dim u v

/-- The value of `get_distance_squared`. -/
def exactSquared (x : ℤ → R) (dim i j : ℕ) : R :=
  squaredOf dim (columnAt x (intMul dim i)) (columnAt x (intMul dim j))

/-- The value of `get_distance_ip`. -/
def exactIp (x : ℤ → R) (dim i j : ℕ) : R :=
  ipOf dim (columnAt x (intMul dim i)) (columnAt x (intMul dim j))

/-- The value of `get_distance` or `get_distance_ip`. -/
def exactDistance (use_l2 : Bool) (x : ℤ → R) (dim i j : ℕ) : R :=
  distanceOf use_l2 dim (columnAt x (intMul dim i)) (columnAt x (intMul dim j))

omit [IsStrictOrderedRing R] in
/-- A loop that adds finite terms. -/
theorem foldl_add_fin {α : Type} (l : List α) (f : α → R) (a : R) :
    l.foldl (fun sum y => sum + fin (f y)) (fin a) = fin (a + (l.map f).sum) := by
  induction l generalizing a with
  | nil => simp
  | cons y l ih =>
    rw [List.foldl_cons, fin_add, ih, List.map_cons, List.sum_cons, add_assoc]

omit [IsStrictOrderedRing R] in
/-- A loop that adds the squared differences of finite numbers. -/
theorem foldl_squared_fin (dim : ℕ) (u v : ℕ → R) :
    (List.range dim).foldl (fun sum pos =>
      sum + (fin (u pos) - fin (v pos)) * (fin (u pos) - fin (v pos))) (0 : Exact R) =
      fin (squaredOf dim u v) := by
  have hsum := foldl_add_fin (List.range dim)
    (fun pos => (u pos - v pos) * (u pos - v pos)) 0
  rw [zero_add] at hsum
  simp only [fin_sub, fin_mul]
  exact hsum

omit [IsStrictOrderedRing R] in
/-- One less a loop that adds the products of finite numbers. -/
theorem foldl_ip_fin (dim : ℕ) (u v : ℕ → R) :
    1 - (List.range dim).foldl (fun sum pos => sum + fin (u pos) * fin (v pos)) (0 : Exact R) =
      fin (ipOf dim u v) := by
  have hsum := foldl_add_fin (List.range dim) (fun pos => u pos * v pos) 0
  rw [zero_add] at hsum
  simp only [fin_mul]
  rw [zero_eq, hsum]
  exact fin_sub _ _

omit [Root R] in
theorem squaredOf_nonneg (dim : ℕ) (u v : ℕ → R) : 0 ≤ squaredOf dim u v := by
  refine List.sum_nonneg fun y hy => ?_
  obtain ⟨pos, -, rfl⟩ := List.mem_map.mp hy
  exact mul_self_nonneg _

omit [Root R] in
theorem exactSquared_nonneg (x : ℤ → R) (dim i j : ℕ) : 0 ≤ exactSquared x dim i j :=
  squaredOf_nonneg dim _ _

/-- The distance of two finite vectors. -/
theorem vectorDistance_fin (l2 : Bool) (dim : ℕ) (u v : ℕ → R) :
    vectorDistance l2 dim (fun i => fin (u i)) (fun i => fin (v i)) =
      fin (distanceOf l2 dim u v) := by
  unfold vectorDistance distanceOf
  cases l2 with
  | true =>
    rw [if_pos rfl, if_pos rfl, foldl_squared_fin, sqrt_fin (squaredOf_nonneg dim u v)]
  | false => rw [if_neg Bool.false_ne_true, if_neg Bool.false_ne_true, foldl_ip_fin]

omit [IsStrictOrderedRing R] in
/-- A loop that adds a term that is not a number. -/
theorem foldl_add_nan {α : Type} {f : α → Exact R} {y : α} (hf : f y = nan) :
    ∀ {l : List α}, y ∈ l → ∀ a : Exact R, l.foldl (fun sum y => sum + f y) a = nan := by
  have hkeep : ∀ l : List α, l.foldl (fun sum y => sum + f y) nan = nan := by
    intro l
    induction l with
    | nil => rfl
    | cons z l ih => rwa [List.foldl_cons, nan_add]
  intro l hy a
  induction l generalizing a with
  | nil => exact absurd hy List.not_mem_nil
  | cons z l ih =>
    rw [List.foldl_cons]
    rcases List.mem_cons.mp hy with rfl | hy
    · rw [hf, add_nan, hkeep]
    · exact ih hy _

omit [IsStrictOrderedRing R] in
/-- The distance to a vector with a column that is not a number. -/
theorem vectorDistance_nan (l2 : Bool) {dim pos : ℕ} (hpos : pos < dim) (u : ℕ → Exact R)
    {v : ℕ → Exact R} (hv : v pos = nan) : vectorDistance l2 dim u v = nan := by
  have hmem : pos ∈ List.range dim := List.mem_range.mpr hpos
  unfold vectorDistance
  cases l2 with
  | true =>
    rw [if_pos rfl, foldl_add_nan (by rw [hv, sub_nan, nan_mul]) hmem, sqrt_nan]
  | false =>
    rw [if_neg Bool.false_ne_true, foldl_add_nan (by rw [hv, mul_nan]) hmem, sub_nan]

/-- The code's distance in exact arithmetic. -/
theorem metricDistance_fin (use_l2 : Bool) (x : ℤ → R) (dim i j : ℕ) :
    metricDistance use_l2 (finMatrix x) dim i j = fin (exactDistance use_l2 x dim i j) :=
  vectorDistance_fin use_l2 dim _ _

theorem finiteDistances_fin (use_l2 : Bool) (x : ℤ → R) (dim n_query : ℕ) :
    FiniteDistances use_l2 (finMatrix x) dim n_query := by
  intro i _ j _ _
  rw [metricDistance_fin]
  exact fin_lt_infinity _

theorem finiteRows_fin (use_l2 : Bool) (x : ℤ → R) (dim n_query : ℕ) :
    FiniteRows use_l2 (finMatrix x) dim n_query := by
  intro i _ j _ _
  have hfin : vectorDistance use_l2 dim (matrixRow (finMatrix x) dim i)
      (matrixRow (finMatrix x) dim j) =
      fin (distanceOf use_l2 dim (matrixRow x dim i) (matrixRow x dim j)) :=
    vectorDistance_fin use_l2 dim _ _
  rw [hfin]
  exact fin_lt_infinity _

omit [LinearOrder R] [IsStrictOrderedRing R] [Root R] in
theorem squaredOf_comm (dim : ℕ) (u v : ℕ → R) : squaredOf dim u v = squaredOf dim v u := by
  unfold squaredOf
  congr 1
  exact List.map_congr_left fun pos _ => by ring

omit [LinearOrder R] [IsStrictOrderedRing R] [Root R] in
theorem ipOf_comm (dim : ℕ) (u v : ℕ → R) : ipOf dim u v = ipOf dim v u := by
  unfold ipOf
  congr 2
  exact List.map_congr_left fun pos _ => mul_comm _ _

omit [LinearOrder R] [IsStrictOrderedRing R] in
theorem exactDistance_comm (use_l2 : Bool) (x : ℤ → R) (dim i j : ℕ) :
    exactDistance use_l2 x dim i j = exactDistance use_l2 x dim j i := by
  unfold exactDistance distanceOf
  rw [squaredOf_comm, ipOf_comm]

-- ---------------------------------------------------------------------------
-- The rows of the matrix
-- ---------------------------------------------------------------------------

section Columns

variable {dim : ℕ} {u u' v v' : ℕ → R} (hu : ∀ pos < dim, u pos = u' pos)
  (hv : ∀ pos < dim, v pos = v' pos)

include hu hv

omit [LinearOrder R] [IsStrictOrderedRing R] [Root R] in
theorem squaredOf_congr : squaredOf dim u v = squaredOf dim u' v' := by
  unfold squaredOf
  congr 1
  refine List.map_congr_left fun pos hpos => ?_
  rw [hu pos (List.mem_range.mp hpos), hv pos (List.mem_range.mp hpos)]

omit [LinearOrder R] [IsStrictOrderedRing R] [Root R] in
theorem ipOf_congr : ipOf dim u v = ipOf dim u' v' := by
  unfold ipOf
  congr 2
  refine List.map_congr_left fun pos hpos => ?_
  rw [hu pos (List.mem_range.mp hpos), hv pos (List.mem_range.mp hpos)]

omit [LinearOrder R] [IsStrictOrderedRing R] in
/-- Vectors that agree in their columns have one distance. -/
theorem distanceOf_congr (use_l2 : Bool) :
    distanceOf use_l2 dim u v = distanceOf use_l2 dim u' v' := by
  unfold distanceOf
  rw [squaredOf_congr hu hv, ipOf_congr hu hv]

end Columns

omit [Root R] in
/-- One column contributes at most the squared distance. -/
theorem mul_self_le_squaredOf {dim pos : ℕ} (hpos : pos < dim) (u v : ℕ → R) :
    (u pos - v pos) * (u pos - v pos) ≤ squaredOf dim u v := by
  refine List.single_le_sum (fun y hy => ?_) _
    (List.mem_map.mpr ⟨pos, List.mem_range.mpr hpos, rfl⟩)
  obtain ⟨p, -, rfl⟩ := List.mem_map.mp hy
  exact mul_self_nonneg _

omit [Root R] in
/-- Columns that contribute at most `b` each contribute `dim * b` together. -/
theorem squaredOf_le {dim : ℕ} {u v : ℕ → R} {b : R}
    (h : ∀ pos < dim, (u pos - v pos) * (u pos - v pos) ≤ b) : squaredOf dim u v ≤ dim * b := by
  have hsum := List.sum_le_card_nsmul
    ((List.range dim).map fun pos => (u pos - v pos) * (u pos - v pos)) b fun y hy => by
      obtain ⟨pos, hpos, rfl⟩ := List.mem_map.mp hy
      exact h pos (List.mem_range.mp hpos)
  rwa [List.length_map, List.length_range, nsmul_eq_mul] at hsum

omit [LinearOrder R] [IsStrictOrderedRing R] [Root R] in
/-- Two vectors with one value each. -/
theorem squaredOf_const {dim : ℕ} {u v : ℕ → R} {a b : R} (hu : ∀ pos < dim, u pos = a)
    (hv : ∀ pos < dim, v pos = b) : squaredOf dim u v = dim * ((a - b) * (a - b)) := by
  rw [squaredOf_congr hu hv]
  simp [squaredOf]

section Fits

variable {n dim i j : ℕ} (hfit : RowsFit n dim) (hi : i < n) (hj : j < n)

include hfit hi hj

omit [LinearOrder R] [IsStrictOrderedRing R] [Root R] in
theorem exactSquared_row (x : ℤ → R) :
    exactSquared x dim i j = squaredOf dim (matrixRow x dim i) (matrixRow x dim j) :=
  squaredOf_congr (fun _ hpos => hfit.columnAt x hi hpos) fun _ hpos => hfit.columnAt x hj hpos

omit [LinearOrder R] [IsStrictOrderedRing R] [Root R] in
theorem exactIp_row (x : ℤ → R) :
    exactIp x dim i j = ipOf dim (matrixRow x dim i) (matrixRow x dim j) :=
  ipOf_congr (fun _ hpos => hfit.columnAt x hi hpos) fun _ hpos => hfit.columnAt x hj hpos

omit [LinearOrder R] [IsStrictOrderedRing R] in
/-- **Rows that fit** are measured where they lie. -/
theorem exactDistance_row (use_l2 : Bool) (x : ℤ → R) :
    exactDistance use_l2 x dim i j =
      distanceOf use_l2 dim (matrixRow x dim i) (matrixRow x dim j) :=
  distanceOf_congr (fun _ hpos => hfit.columnAt x hi hpos)
    (fun _ hpos => hfit.columnAt x hj hpos) use_l2

end Fits

-- ---------------------------------------------------------------------------
-- The distance functions of the index
-- ---------------------------------------------------------------------------

omit [Field R] [LinearOrder R] [IsStrictOrderedRing R] [Root R] in
theorem pointerRow_eq {n dim i pos : ℕ} (hfit : RowsFit n dim) (hi : i < n) (x : ℤ → R)
    (hpos : pos < dim) : pointerRow x dim i pos = matrixRow x dim i pos := by
  rw [pointerRow, matrixRow, intMul_comm, hfit.start hi (by omega), Nat.cast_add]

omit [Field R] [LinearOrder R] [IsStrictOrderedRing R] [Root R] in
theorem row_getD {dim pos : ℕ} (hpos : pos < dim) (x : ℤ → R) (i : ℕ) (d : Exact R) :
    (row (finMatrix x) dim i).getD pos d = fin (pointerRow x dim i pos) := by
  have hlt : pos < (row (finMatrix x) dim i).length := by simpa [row] using hpos
  rw [List.getD_eq_getElem _ _ hlt]
  simp only [row, finMatrix, pointerRow, List.getElem_map, List.getElem_range]

omit [IsStrictOrderedRing R] in
theorem l2Sqr_row (x : ℤ → R) (dim i j : ℕ) :
    l2Sqr dim (row (finMatrix x) dim i) (row (finMatrix x) dim j) =
      fin (squaredOf dim (pointerRow x dim i) (pointerRow x dim j)) := by
  rw [← foldl_squared_fin, l2Sqr]
  refine List.foldl_ext _ _ _ fun res pos hpos => ?_
  simp only [row_getD (List.mem_range.mp hpos)]

omit [IsStrictOrderedRing R] in
theorem innerProductDistance_row (x : ℤ → R) (dim i j : ℕ) :
    innerProductDistance dim (row (finMatrix x) dim i) (row (finMatrix x) dim j) =
      fin (ipOf dim (pointerRow x dim i) (pointerRow x dim j)) := by
  rw [← foldl_ip_fin, innerProductDistance, innerProduct]
  congr 1
  refine List.foldl_ext _ _ _ fun res pos hpos => ?_
  simp only [row_getD (List.mem_range.mp hpos)]

end Mqo
