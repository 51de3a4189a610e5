import Mqo.Data.Answers
import Mqo.Data.Loader
import Mqo.Trajectory.Groups

/-!
# MQO — where a row of the array starts

Row `i` of an array with `dim` columns starts at `dim * i`. Most routines
compute this product in `int`, where it wraps at `2 ^ 31`; `get_recall` computes
it in `long long`. The header check of the loaders does not bound it.

* `offset_exact_iff`    — when an `int` product is exact;
* `offsetsExact_iff`    — so all routines reach every row exactly when the last
  row starts below `2 ^ 31`;
* `Routine.offset_eq`   — the offsets are those of the functions that the trajectories and the
  answers are computed with, and so are the distances;
* `getRecallOptimizedVector_row` — a row that is reached is the vector of its search.
-/

namespace Mqo.Machine

open Prog ByteStream IntOffset

-- ---------------------------------------------------------------------------
-- The routines
-- ---------------------------------------------------------------------------

/-- The routines that reach a row through an `int` product, and the array where they
reach rows of two. -/
inductive Routine where
  | getDistanceIp
  | getDistanceSquared
  | getInnerproduct
  | getDistanceDataQueryData
  | getDistanceDataQueryQuery
  /-- `query + grp[i]*dim` in `optimize_trajectory_mixed_modified_mst` -/
  | mixedModifiedQuery
  /-- `subQ + i*dim` in `optimize_trajectory_mixed_modified_mst` -/
  | mixedModifiedSubQ
  | buildAnnFullL2
  | buildAnnFullIp
  | getRecallOptimized
  | getRecallOptimized2

/-- The offset of a row, as each routine computes it. -/
def Routine.offset (dim : Int32) : Routine → Int32 → Int32
  | getDistanceIp, i | getDistanceSquared, i => dim * i
  | getInnerproduct, qindex => dim * qindex
  | getDistanceDataQueryData, dindex => dim * dindex
  | getDistanceDataQueryQuery, qindex => dim * qindex
  | mixedModifiedQuery, i | mixedModifiedSubQ, i => i * dim
  | buildAnnFullL2, i | buildAnnFullIp, i => i * dim
  | getRecallOptimized, curr | getRecallOptimized2, curr => curr * dim

section Loops

variable {F : Type} [Scalar F]

/-- The loop over `dim` columns of two rows that start at `int` offsets; a column is
added to the offset in `int` as well. -/
def rowLoop (x y : ℤ → F) (dim xstart ystart : Int32) (term : F → F → F) : F :=
  (List.range dim.toInt.toNat).foldl (fun sum pos =>
    sum + term (x (xstart + Int32.ofNat pos).toInt) (y (ystart + Int32.ofNat pos).toInt)) 0

/-- `get_distance_ip` -/
def getDistanceIp (query : ℤ → F) (dim i j : Int32) : F :=
  let istart := Routine.getDistanceIp.offset dim i
  let jstart := Routine.getDistanceIp.offset dim j
  1 - rowLoop query query dim istart jstart fun x y => x * y

/-- `get_distance_squared` -/
def getDistanceSquared (query : ℤ → F) (dim i j : Int32) : F :=
  let istart := Routine.getDistanceSquared.offset dim i
  let jstart := Routine.getDistanceSquared.offset dim j
  rowLoop query query dim istart jstart fun x y => (x - y) * (x - y)

/-- `get_innerproduct` -/
def getInnerproduct (query hyperplane : ℤ → F) (dim qindex hindex : Int32) : F :=
  let qstart := Routine.getInnerproduct.offset dim qindex
  let hstart := dim * hindex
  rowLoop query hyperplane dim qstart hstart fun x y => x * y

/-- `get_distance_data_query` -/
def getDistanceDataQuery (data query : ℤ → F) (dim dindex qindex : Int32) : F :=
  let dstart := Routine.getDistanceDataQueryData.offset dim dindex
  let qstart := Routine.getDistanceDataQueryQuery.offset dim qindex
  Scalar.sqrt (rowLoop data query dim dstart qstart fun x y => (x - y) * (x - y))

/-- `get_distance_data_query_ip` -/
def getDistanceDataQueryIp (data query : ℤ → F) (dim dindex qindex : Int32) : F :=
  let dstart := Routine.getDistanceDataQueryData.offset dim dindex
  let qstart := Routine.getDistanceDataQueryQuery.offset dim qindex
  1 - rowLoop data query dim dstart qstart fun x y => x * y

end Loops

/-- The vector behind a pointer into an array: its columns are reached without `int`. -/
def vectorAt {F : Type} (array : ℤ → F) (offset : ℤ) (dim : Int32) : List F :=
  (List.range dim.toInt.toNat).map fun pos : ℕ => array (offset + pos)

/-- The vector `querydata + i * dim` of `get_recall`, where `i` is a `long long`. -/
def getRecallVector {F : Type} (querydata : ℤ → F) (dim i : Int32) : List F :=
  vectorAt querydata (i.toInt64 * dim.toInt64).toInt dim

/-- The vector `querydata + curr * dim` of `get_recall_optimized`. -/
def getRecallOptimizedVector {F : Type} (querydata : ℤ → F) (dim curr : Int32) : List F :=
  vectorAt querydata (Routine.getRecallOptimized.offset dim curr).toInt dim

-- ---------------------------------------------------------------------------
-- Exact products
-- ---------------------------------------------------------------------------

/-- An `int` product of non-negative numbers is exact while it is below `2 ^ 31`. -/
theorem mul_exact_iff {a b : Int32} (ha : 0 ≤ a.toInt) (hb : 0 ≤ b.toInt) :
    (a * b).toInt = a.toInt * b.toInt ↔ a.toInt * b.toInt < 2 ^ 31 := by
  constructor
  · intro h
    rw [← h]
    exact (a * b).toInt_lt
  · intro hlt
    have hnn := mul_nonneg ha hb
    rw [Int32.toInt_mul]
    exact Int.bmod_eq_of_le (by omega) (by omega)

/-- In `long long` it always is. -/
theorem mul_exact_int64 {a b : Int32} (ha : 0 ≤ a.toInt) (hb : 0 ≤ b.toInt) :
    (a.toInt64 * b.toInt64).toInt = a.toInt * b.toInt := by
  have hnn := mul_nonneg ha hb
  have hlt : a.toInt * b.toInt ≤ 2 ^ 31 * 2 ^ 31 :=
    mul_le_mul a.toInt_lt.le b.toInt_lt.le hb (by norm_num)
  rw [Int64.toInt_mul, Int32.toInt_toInt64, Int32.toInt_toInt64]
  exact Int.bmod_eq_of_le (by omega) (by omega)

/-- Every routine reaches a row exactly while the row starts below `2 ^ 31`. -/
theorem offset_exact_iff (r : Routine) {dim row : Int32} (hd : 0 ≤ dim.toInt)
    (hrow : 0 ≤ row.toInt) :
    (r.offset dim row).toInt = row.toInt * dim.toInt ↔ row.toInt * dim.toInt < 2 ^ 31 := by
  cases r with
  | getDistanceIp | getDistanceSquared | getInnerproduct | getDistanceDataQueryData
  | getDistanceDataQueryQuery =>
    rw [Routine.offset, mul_comm row.toInt]
    exact mul_exact_iff hd hrow
  | mixedModifiedQuery | mixedModifiedSubQ | buildAnnFullL2 | buildAnnFullIp | getRecallOptimized
  | getRecallOptimized2 => exact mul_exact_iff hrow hd

/-- Every routine reaches every row of an array with the given header, and `get_recall` and
`get_recall_optimized` hand over the same vector. -/
def OffsetsExact (n d : Int32) : Prop :=
  ∀ row : Int32, 0 ≤ row.toInt → row.toInt < n.toInt →
    (∀ r : Routine, (r.offset d row).toInt = row.toInt * d.toInt) ∧
      ∀ (F : Type) (querydata : ℤ → F),
        getRecallVector querydata d row = getRecallOptimizedVector querydata d row

/-- **Exact offsets.** -/
theorem offsetsExact_iff {n d : Int32} (h : ValidHeader n d) :
    OffsetsExact n d ↔ (n.toInt - 1) * d.toInt < 2 ^ 31 := by
  obtain ⟨hn, hd⟩ := validHeader_iff.mp h
  constructor
  · intro hexact
    have hbound := n.toInt_lt
    have hlast : (n - 1).toInt = n.toInt - 1 := by
      rw [Int32.toInt_sub]
      exact Int.bmod_eq_of_le (by simp; omega) (by simp; omega)
    have hrow : 0 ≤ (n - 1).toInt := by omega
    have hoffset := (hexact (n - 1) hrow (by omega)).1 .getDistanceSquared
    rw [← hlast]
    exact (offset_exact_iff _ hd.le hrow).mp hoffset
  · intro hlast row hrow hlt
    have hstart : row.toInt * d.toInt < 2 ^ 31 :=
      (mul_le_mul_of_nonneg_right (by omega) hd.le).trans_lt hlast
    have hoffset : ∀ r : Routine, (r.offset d row).toInt = row.toInt * d.toInt := fun r =>
      (offset_exact_iff r hd.le hrow).mpr hstart
    refine ⟨hoffset, fun F querydata => ?_⟩
    rw [getRecallVector, getRecallOptimizedVector, hoffset, mul_exact_int64 hrow hd.le]

theorem offsetsExact_small : ValidHeader 2 3 ∧ OffsetsExact 2 3 := by
  have hvalid : ValidHeader 2 3 := by decide
  exact ⟨hvalid, (offsetsExact_iff hvalid).mpr (by decide)⟩

/-- A file of `16777217` vectors of `128` bytes is loaded, but its last row starts at `2 ^ 31`,
which is the offset `-2 ^ 31` in `int`: `get_recall` and `get_recall_optimized` hand over
different vectors. -/
theorem lastRow_wraps :
    (∃ (disk : BinaryDisk) (m : Loaded UInt8), Returns (loadU8bin disk "queries.u8bin") m ∧
      m.n = 16777217 ∧ m.d = 128) ∧
    (∀ r : Routine, (r.offset 128 16777216).toInt = -2 ^ 31) ∧
    (getRecallVector id 128 16777216).head? = some (2 ^ 31) ∧
    (getRecallOptimizedVector id 128 16777216).head? = some (-2 ^ 31) ∧
    ¬ OffsetsExact 16777217 128 := by
  have hvalid : ValidHeader 16777217 128 := by decide
  have hsize : (totalSize 16777217 128).toNat = 2147483776 := by decide
  refine ⟨?_, fun r => ?_, ?_, ?_, ?_⟩
  · refine ⟨fun _ => some (int32Bytes 16777217 ++ (int32Bytes 128 ++
      (List.replicate 2147483776 0 ++ []))), _,
      loadBin_returns hvalid ?_ rfl ?_, rfl, rfl⟩
    · rw [List.length_replicate, hsize, one_mul]
    · rw [hsize]
      norm_num
  · cases r <;> decide
  · decide
  · decide
  · rw [offsetsExact_iff hvalid]
    decide

-- ---------------------------------------------------------------------------
-- The routines on their own
-- ---------------------------------------------------------------------------

/-- A non-negative `int` is that number. -/
theorem ofNat_toNat {a : Int32} (ha : 0 ≤ a.toInt) : Int32.ofNat a.toInt.toNat = a := by
  rw [← Int32.toInt_inj, Int32.toInt_ofNat_of_lt, Int.toNat_of_nonneg ha]
  have := a.toInt_lt
  omega

theorem intMul_toNat {a b : Int32} (ha : 0 ≤ a.toInt) (hb : 0 ≤ b.toInt) :
    intMul a.toInt.toNat b.toInt.toNat = a * b := by
  rw [intMul, ofNat_toNat ha, ofNat_toNat hb]

/-- The product that all routines compute. -/
theorem Routine.offset_eq (r : Routine) {dim row : Int32} (hd : 0 ≤ dim.toInt)
    (hrow : 0 ≤ row.toInt) : r.offset dim row = intMul dim.toInt.toNat row.toInt.toNat := by
  rw [intMul_toNat hd hrow]
  cases r with
  | getDistanceIp | getDistanceSquared | getInnerproduct | getDistanceDataQueryData
  | getDistanceDataQueryQuery => rfl
  | mixedModifiedQuery | mixedModifiedSubQ | buildAnnFullL2 | buildAnnFullIp | getRecallOptimized
  | getRecallOptimized2 => exact Int32.mul_comm row dim

section Routines

variable {F : Type} [Scalar F] (query data : ℤ → F) (hyperplane : List F) {dim i j : Int32}
  (hd : 0 ≤ dim.toInt) (hi : 0 ≤ i.toInt) (hj : 0 ≤ j.toInt)

include hd hi hj

/-- The functions of the trajectories are these routines, for arguments that are `int`. -/
theorem getDistanceIp_eq : getDistanceIp query dim i j =
    Mqo.getDistanceIp query dim.toInt.toNat i.toInt.toNat j.toInt.toNat := by
  unfold Mqo.getDistanceIp
  rw [intMul_toNat hd hi, intMul_toNat hd hj]
  rfl

theorem getDistanceSquared_eq : getDistanceSquared query dim i j =
    Mqo.getDistanceSquared query dim.toInt.toNat i.toInt.toNat j.toInt.toNat := by
  unfold Mqo.getDistanceSquared
  rw [intMul_toNat hd hi, intMul_toNat hd hj]
  rfl

theorem getInnerproduct_eq :
    getInnerproduct query (fun offset => hyperplane.getD offset.toNat 0) dim i j =
      innerproduct query hyperplane dim.toInt.toNat j.toInt.toNat i.toInt.toNat := by
  unfold innerproduct
  rw [intMul_toNat hd hi, intMul_toNat hd hj]
  rfl

theorem getDistanceDataQuery_eq : getDistanceDataQuery data query dim i j =
    Mqo.getDistanceDataQuery data query dim.toInt.toNat i.toInt.toNat j.toInt.toNat := by
  unfold Mqo.getDistanceDataQuery
  rw [intMul_toNat hd hi, intMul_toNat hd hj]
  rfl

theorem getDistanceDataQueryIp_eq : getDistanceDataQueryIp data query dim i j =
    Mqo.getDistanceDataQueryIp data query dim.toInt.toNat i.toInt.toNat j.toInt.toNat := by
  unfold Mqo.getDistanceDataQueryIp
  rw [intMul_toNat hd hi, intMul_toNat hd hj]
  rfl

end Routines

-- ---------------------------------------------------------------------------
-- The vectors of the searches
-- ---------------------------------------------------------------------------

/-- Row `row` of an array with `dim` columns, as a list. -/
def arrayRow {F : Type} (querydata : ℤ → F) (dim row : ℕ) : List F :=
  (List.range dim).map fun pos : ℕ => querydata ↑(row * dim + pos)

section Vectors

variable {F : Type} (querydata : ℤ → F) {dim curr : Int32} (hd : 0 ≤ dim.toInt)
  (hcurr : 0 ≤ curr.toInt)

include hd hcurr

/-- `get_recall` hands over the rows of the array. -/
theorem getRecallVector_row : getRecallVector querydata dim curr =
    arrayRow querydata dim.toInt.toNat curr.toInt.toNat := by
  rw [getRecallVector, mul_exact_int64 hcurr hd, vectorAt, arrayRow]
  refine List.map_congr_left fun pos _ => ?_
  rw [Nat.cast_add, Nat.cast_mul, Int.toNat_of_nonneg hd, Int.toNat_of_nonneg hcurr]

/-- So does `get_recall_optimized`, while the offset of the row is exact. -/
theorem getRecallOptimizedVector_row (hlt : curr.toInt * dim.toInt < 2 ^ 31) :
    getRecallOptimizedVector querydata dim curr =
      arrayRow querydata dim.toInt.toNat curr.toInt.toNat := by
  rw [← getRecallVector_row querydata hd hcurr, getRecallVector, mul_exact_int64 hcurr hd,
    getRecallOptimizedVector, (offset_exact_iff _ hd hcurr).mpr hlt]

end Vectors

end Mqo.Machine
