import Mqo.Data.Offsets
import Mqo.Search.HnswLabels
import Mqo.Search.HnswSeeds
import Mqo.Search.NsgRecall

/-!
# MQO — the rows that the searches are made for

The recall routines hand the pointer `querydata + curr * dim` to a search. The product is an
`int` along a trajectory and a `long long` in `get_recall`. While the offsets of a matrix are exact
(`OffsetsExact`), all of them search for its rows, so that the results on their answers are about
the rows.

* `pointerQuery_row`, `longPointerQuery_row` — the vectors behind the pointers;
* `getRecallOptimized_rows`, `getRecallOptimized2_rows`, `getRecall_rows` — the HNSW routines;
* `Nsg.getRecallOptimized_rows` — the NSG routine.
-/

namespace Mqo.Search

open Prog Machine

section Pointers

variable {V : Type} (querydata : ℤ → V) (dim : Int32)

/-- The vector behind `querydata + curr * dim`, where `curr` is an `int`. -/
def pointerQuery (curr : ℕ) : List V :=
  getRecallOptimizedVector querydata dim (Int32.ofNat curr)

/-- The vector behind `querydata + i * dim`, where `i` is a `long long`. -/
def longPointerQuery (i : ℕ) : List V :=
  getRecallVector querydata dim (Int32.ofNat i)

variable {dim} {n : Int32} (hvalid : ValidHeader n dim)

include hvalid

/-- `get_recall` searches for the rows of a matrix that has been loaded. -/
theorem longPointerQuery_row {i : ℕ} (hi : i < n.toInt.toNat) :
    longPointerQuery querydata dim i = arrayRow querydata dim.toInt.toNat i := by
  obtain ⟨hn, hd⟩ := validHeader_iff.mp hvalid
  have hlt := n.toInt_lt
  have hrow : (Int32.ofNat i).toInt = i := Int32.toInt_ofNat_of_lt (by omega)
  rw [longPointerQuery, getRecallVector_row querydata hd.le (by omega), hrow, Int.toNat_natCast]

/-- Along a trajectory this holds where the offsets are exact. -/
theorem pointerQuery_row (hexact : OffsetsExact n dim) {curr : ℕ} (hcurr : curr < n.toInt.toNat) :
    pointerQuery querydata dim curr = arrayRow querydata dim.toInt.toNat curr := by
  have hlt := n.toInt_lt
  have hrow : (Int32.ofNat curr).toInt = curr := Int32.toInt_ofNat_of_lt (by omega)
  rw [← longPointerQuery_row querydata hvalid hcurr]
  exact ((hexact (Int32.ofNat curr) (by omega) (by omega)).2 V querydata).symm

end Pointers

-- ---------------------------------------------------------------------------
-- HNSW
-- ---------------------------------------------------------------------------

namespace Hnsw

variable {V K F : Type} [LinearOrder K] [Neg K] [Scalar F] {Q R : PriorityQueue (K × ℕ)}
  {index : HierarchicalNSW (List V) K} {maxValue : K} {querydata : ℤ → V} {n dim : Int32}
  (hvalid : ValidHeader n dim) (ans : ℕ → ℤ) (mem : ℕ → UInt16)
  (pool : VisitedListPool index.max_elements)

include hvalid

theorem getRecall_rows (topk beamsize : ℕ) :
    getRecall Q R index maxValue (longPointerQuery querydata dim) F ans n.toInt.toNat topk beamsize
        mem pool =
      getRecall Q R index maxValue (arrayRow querydata dim.toInt.toNat) F ans n.toInt.toNat topk
        beamsize mem pool := by
  unfold getRecall
  rw [foldlM_congr fun i hi s => ?_]
  rw [recallQuery, recallQuery, searchLabel, searchLabel, Int.toNat_natCast,
    longPointerQuery_row querydata hvalid (List.mem_range.mp hi)]

variable (hexact : OffsetsExact n dim) (trajectory : Trajectory)

include hexact

/-- `get_recall_optimized` searches for the rows of the matrix. -/
theorem getRecallOptimized_rows (topk beamsize : ℕ) :
    getRecallOptimized Q R index maxValue (pointerQuery querydata dim) F ans n.toInt.toNat topk
        beamsize mem trajectory pool =
      getRecallOptimized Q R index maxValue (arrayRow querydata dim.toInt.toNat) F ans
        n.toInt.toNat topk beamsize mem trajectory pool := by
  unfold getRecallOptimized
  rw [recallLoop_congr fun st curr seed hcurr => ?_]
  rw [searchLabel, searchLabel, pointerQuery_row querydata hvalid hexact hcurr.toNat_lt]

/-- So does `get_recall_optimized2`. -/
theorem getRecallOptimized2_rows (n_entry_points beamsize uninit : ℕ) :
    getRecallOptimized2 Q R index maxValue (pointerQuery querydata dim) F ans n.toInt.toNat
        n_entry_points beamsize mem uninit trajectory pool =
      getRecallOptimized2 Q R index maxValue (arrayRow querydata dim.toInt.toNat) F ans
        n.toInt.toNat n_entry_points beamsize mem uninit trajectory pool := by
  unfold getRecallOptimized2
  rw [foldlM_congr fun x hx s => ?_]
  unfold seededStep
  by_cases hin : InBounds n.toInt.toNat x.1 ∧ (x.2 = -1 ∨ InBounds n.toInt.toNat x.2)
  · rw [if_pos hin, if_pos hin, pointerQuery_row querydata hvalid hexact hin.1.toNat_lt]
  · rw [if_neg hin, if_neg hin]

end Hnsw

-- ---------------------------------------------------------------------------
-- NSG
-- ---------------------------------------------------------------------------

/-- `get_recall_optimized` over an NSG index searches for the rows of the matrix. -/
theorem Nsg.getRecallOptimized_rows {V K F : Type} [LinearOrder K] [Zero K] [Scalar F]
    {which : NsgSearch} {index : IndexNSG} {S : Sorting K} {D : Distance (List V) K}
    {x : ℕ → List V} {querydata : ℤ → V} {n dim : Int32} (hvalid : ValidHeader n dim)
    (hexact : OffsetsExact n dim) (ans : ℕ → ℤ) (topk beamsize : ℕ) (trajectory : Trajectory)
    (rng : ℕ → ℕ) :
    getRecallOptimized which index S D x (pointerQuery querydata dim) F ans n.toInt.toNat topk
        beamsize trajectory rng =
      getRecallOptimized which index S D x (arrayRow querydata dim.toInt.toNat) F ans
        n.toInt.toNat topk beamsize trajectory rng := by
  unfold getRecallOptimized
  rw [recallLoop_congr fun st curr seed hcurr => ?_]
  rw [searchRow, searchRow, pointerQuery_row querydata hvalid hexact hcurr.toNat_lt]

end Mqo.Search
