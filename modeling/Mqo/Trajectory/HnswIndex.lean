import Mqo.Trajectory.Basic

/-!
# MQO — the HNSW index of a group

The part of `mqo/ann/hnswlib` that the trajectory code relies on: the two
distance functions, what an insertion stores, and the builders of
`mqo/ann/build_ann.hpp` and `mqo/ann/build_ann_base_only.hpp`.

An insertion stores the label and the vector under the next internal id, and
then links the new element into the graph. Which level-0 lists the linking
leaves behind depends on random levels and on the whole history of the index;
here it is given by a function `Connect`, about which nothing is assumed. The
distance functions are the scalar ones: the vector instructions add the same
terms in another order.

* `buildAnn_spec` — internal id, external label and insertion order agree, and
  the vector stored at `i` is the one at `data + i * dim`.
-/

namespace Mqo

open Prog IntOffset

variable {F : Type} [Scalar F]

-- ---------------------------------------------------------------------------
-- Spaces
-- ---------------------------------------------------------------------------

/-- `L2Sqr` -/
def l2Sqr (qty : ℕ) (pVect1 pVect2 : List F) : F :=
  (List.range qty).foldl (fun res i =>
    let t := pVect1.getD i 0 - pVect2.getD i 0
    res + t * t) 0

/-- `InnerProduct` -/
def innerProduct (qty : ℕ) (pVect1 pVect2 : List F) : F :=
  (List.range qty).foldl (fun res i => res + pVect1.getD i 0 * pVect2.getD i 0) 0

/-- `InnerProductDistance` -/
def innerProductDistance (qty : ℕ) (pVect1 pVect2 : List F) : F :=
  1 - innerProduct qty pVect1 pVect2

/-- `L2Space` and `InnerProductSpace` -/
inductive Space where
  | l2
  | ip
deriving DecidableEq

/-- `get_dist_func` -/
def Space.distFunc (space : Space) (dim : ℕ) : List F → List F → F :=
  match space with
  | .l2 => l2Sqr dim
  | .ip => innerProductDistance dim

-- ---------------------------------------------------------------------------
-- The index
-- ---------------------------------------------------------------------------

/-- `HierarchicalNSW`: the elements stored and their lists at level 0. -/
structure HierarchicalNSW (F : Type) where
  max_elements : ℕ
  cur_element_count : ℕ
  label_lookup : ℕ → Option ℕ
  externalLabel : ℕ → ℕ
  data : ℕ → List F
  linklist0 : ℕ → List ℕ
  fstdistfunc : List F → List F → F

/-- How an insertion links the element with the given internal id: the level-0
lists afterwards, for the parameters `M` and `ef_construction`. -/
abbrev Connect (F : Type) := ℤ → ℤ → HierarchicalNSW F → ℕ → ℕ → List ℕ

namespace HierarchicalNSW

/-- The constructor for an empty index. -/
def new (space : Space) (dim max_elements : ℕ) : HierarchicalNSW F where
  max_elements := max_elements
  cur_element_count := 0
  label_lookup := fun _ => none
  externalLabel := fun _ => 0
  data := fun _ => []
  linklist0 := fun _ => []
  fstdistfunc := space.distFunc dim

/-- Label and vector of a new element. -/
def store (index : HierarchicalNSW F) (data_point : List F) (label : ℕ) : HierarchicalNSW F :=
  let cur_c := index.cur_element_count
  { index with
    cur_element_count := cur_c + 1
    label_lookup := Function.update index.label_lookup label (some cur_c)
    externalLabel := Function.update index.externalLabel cur_c label
    data := Function.update index.data cur_c data_point }

/-- `addPoint`: a label that exists is updated, any other is stored and linked. -/
def addPoint (link : HierarchicalNSW F → ℕ → ℕ → List ℕ) (index : HierarchicalNSW F)
    (data_point : List F) (label : ℕ) : Run (HierarchicalNSW F) :=
  match index.label_lookup label with
  | some existing =>
    let updated := { index with data := Function.update index.data existing data_point }
    pure { updated with linklist0 := link updated existing }
  | none =>
    if index.cur_element_count ≥ index.max_elements then
      fault (.exception "The number of elements exceeds the specified limit")
    else
      let stored := index.store data_point label
      pure { stored with linklist0 := link stored index.cur_element_count }

/-- `addPoint_modified`: the element is stored and linked at level 0 only. -/
def addPointModified (link : HierarchicalNSW F → ℕ → ℕ → List ℕ) (index : HierarchicalNSW F)
    (data_point : List F) (label : ℕ) : Run (HierarchicalNSW F) :=
  let stored := index.store data_point label
  pure { stored with linklist0 := link stored index.cur_element_count }

end HierarchicalNSW

/-- The vector at `data + i * dim`: the product is an `int`, the columns are reached from
the pointer. -/
def row (data : ℤ → F) (dim i : ℕ) : List F :=
  (List.range dim).map fun pos : ℕ => data ((intMul i dim).toInt + pos)

omit [Scalar F] in
/-- While the rows fit, the pointer leads to the row. -/
theorem row_eq {n dim i : ℕ} (hfit : RowsFit n dim) (hi : i < n) (data : ℤ → F) :
    row data dim i = (List.range dim).map fun pos : ℕ => data ↑(dim * i + pos) := by
  refine List.map_congr_left fun pos hpos => ?_
  have hpos := List.mem_range.mp hpos
  rw [intMul_comm, hfit.start hi (by omega), Nat.cast_add]

/-- The insertion loop of the builders: row `i` under label `i`. -/
def buildAnn (add : HierarchicalNSW F → List F → ℕ → Run (HierarchicalNSW F)) (space : Space)
    (data : ℤ → F) (num_elements dim : ℕ) : Run (HierarchicalNSW F) :=
  (List.range num_elements).foldlM (fun index i => add index (row data dim i) i)
    (HierarchicalNSW.new space dim num_elements)

/-- `build_ann_full_l2` -/
def buildAnnFullL2 (connect : Connect F) (data : ℤ → F) (num_elements dim : ℕ)
    (M ef_construction : ℤ) : Run (HierarchicalNSW F) :=
  buildAnn (HierarchicalNSW.addPoint (connect M ef_construction)) .l2 data num_elements dim

/-- `build_ann_full_ip` -/
def buildAnnFullIp (connect : Connect F) (data : ℤ → F) (num_elements dim : ℕ)
    (M ef_construction : ℤ) : Run (HierarchicalNSW F) :=
  buildAnn (HierarchicalNSW.addPoint (connect M ef_construction)) .ip data num_elements dim

/-- `build_ann_base_only` -/
def buildAnnBaseOnly (connect : Connect F) (data : ℤ → F) (num_elements dim : ℕ)
    (M ef_construction : ℤ) : Run (HierarchicalNSW F) :=
  buildAnn (HierarchicalNSW.addPointModified (connect M ef_construction)) .l2 data num_elements dim

-- ---------------------------------------------------------------------------
-- What the builders store
-- ---------------------------------------------------------------------------

/-- The index holds the first `n` rows of the data, in order. -/
structure Stores (space : Space) (data : ℤ → F) (dim n : ℕ) (index : HierarchicalNSW F) :
    Prop where
  count : index.cur_element_count = n
  label : ∀ i < n, index.externalLabel i = i
  vector : ∀ i < n, index.data i = row data dim i
  lookup : ∀ i ≥ n, index.label_lookup i = none
  dist : index.fstdistfunc = space.distFunc dim

/-- Storing the next row under the next label. -/
theorem Stores.store {space : Space} {data : ℤ → F} {dim n : ℕ} {index : HierarchicalNSW F}
    (h : Stores space data dim n index) (links : ℕ → List ℕ) :
    Stores space data dim (n + 1) { index.store (row data dim n) n with linklist0 := links } where
  count := by
    show index.cur_element_count + 1 = n + 1
    rw [h.count]
  label i hi := by
    show Function.update index.externalLabel index.cur_element_count n i = i
    rw [h.count]
    by_cases hin : i = n
    · rw [hin, Function.update_self]
    · rw [Function.update_of_ne hin]
      exact h.label i (by omega)
  vector i hi := by
    show Function.update index.data index.cur_element_count (row data dim n) i = row data dim i
    rw [h.count]
    by_cases hin : i = n
    · rw [hin, Function.update_self]
    · rw [Function.update_of_ne hin]
      exact h.vector i (by omega)
  lookup i hi := by
    show Function.update index.label_lookup n (some index.cur_element_count) i = none
    rw [Function.update_of_ne (by omega)]
    exact h.lookup i (by omega)
  dist := h.dist

/-- The level-0 lists come from the linking in an index with room for `n` elements, unless
nothing has been inserted. -/
def LinkedBy (link : HierarchicalNSW F → ℕ → ℕ → List ℕ) (n : ℕ) (index : HierarchicalNSW F) :
    Prop :=
  (index.cur_element_count = 0 ∧ index.linklist0 = fun _ => []) ∨
    ∃ stored id, stored.max_elements = n ∧ index.linklist0 = link stored id

/-- `add` stores a new label under the next id, and links it. -/
def StoresNext (link : HierarchicalNSW F → ℕ → ℕ → List ℕ)
    (add : HierarchicalNSW F → List F → ℕ → Run (HierarchicalNSW F)) : Prop :=
  ∀ (index : HierarchicalNSW F) (data_point : List F) (label : ℕ),
    index.label_lookup label = none → index.cur_element_count < index.max_elements →
    Returns (add index data_point label)
      { index.store data_point label with
        linklist0 := link (index.store data_point label) index.cur_element_count }

omit [Scalar F] in
theorem addPoint_storesNext (link : HierarchicalNSW F → ℕ → ℕ → List ℕ) :
    StoresNext link (HierarchicalNSW.addPoint link) := by
  intro index data_point label hnew hroom
  rw [HierarchicalNSW.addPoint, hnew]
  simp only [ge_iff_le, if_neg (not_le.mpr hroom)]
  exact returns_pure _

omit [Scalar F] in
theorem addPointModified_storesNext (link : HierarchicalNSW F → ℕ → ℕ → List ℕ) :
    StoresNext link (HierarchicalNSW.addPointModified link) :=
  fun _ _ _ _ _ => returns_pure _

/-- **The builders.** Internal ids follow the insertion order. -/
theorem buildAnn_spec {link : HierarchicalNSW F → ℕ → ℕ → List ℕ}
    {add : HierarchicalNSW F → List F → ℕ → Run (HierarchicalNSW F)}
    (hadd : StoresNext link add) (space : Space) (data : ℤ → F) (num_elements dim : ℕ) :
    ∃ index, Returns (buildAnn add space data num_elements dim) index ∧
      Stores space data dim num_elements index ∧ LinkedBy link num_elements index := by
  obtain ⟨index, hret, hstores, -, hlinked⟩ := range_returns (n := num_elements)
    (fun n index => Stores space data dim n index ∧ index.max_elements = num_elements ∧
      LinkedBy link num_elements index)
    (fun n hn index ⟨hstores, hmax, _⟩ => by
      have hret := hadd index (row data dim n) n (hstores.lookup n (le_refl n))
        (by rw [hstores.count, hmax]; exact hn)
      exact ⟨_, hret, hstores.store _, hmax, Or.inr ⟨index.store (row data dim n) n, _, hmax, rfl⟩⟩)
    (s := HierarchicalNSW.new space dim num_elements)
    ⟨⟨rfl, fun i hi => absurd hi (Nat.not_lt_zero i), fun i hi => absurd hi (Nat.not_lt_zero i),
      fun _ _ => rfl, rfl⟩, rfl, Or.inl ⟨rfl, rfl⟩⟩
  exact ⟨index, hret, hstores, hlinked⟩

end Mqo
