import Mathlib.Data.Prod.Lex
import Mqo.Index.File
import Mqo.Search.Hnsw

/-!
# MQO — building an index and reading it back

`build`, `build_ip`, `read` and `read_ip` of `hnsw_exp/graph_handler.hpp`. The
recall functions cast the labels that a search returns to internal ids; they are
internal ids, since row `i` is inserted as the `i`-th element, under label `i`, and
neither later insertions nor the file change this.

* `Built.index`  — what searches see of an index in memory;
* `Built.search` — every search returns labels that are internal ids;
* `build_labels` — building, saving and reading keeps label, row and internal id
  together.
-/

namespace Mqo.Index

open Prog Memory
open Mqo.Search.Hnsw (VisitedListPool searchKnnMine)

-- ---------------------------------------------------------------------------
-- The handler
-- ---------------------------------------------------------------------------

section Handler

variable {K : Type}

/-- The distance functions that the constructors of the two spaces choose for a
dimension. -/
structure Distances (K : Type) where
  l2 : UInt64 → List UInt8 → List UInt8 → K
  innerProduct : UInt64 → List UInt8 → List UInt8 → K

/-- A space of vectors of `float`. -/
def floatSpace (distance : UInt64 → List UInt8 → List UInt8 → K) (dim : UInt64) :
    SpaceInterface K where
  get_data_size := (dim * 4).toNat
  get_dist_func := distance dim

/-- `L2Space` -/
def L2Space (D : Distances K) : UInt64 → SpaceInterface K := floatSpace D.l2

/-- `InnerProductSpace` -/
def InnerProductSpace (D : Distances K) : UInt64 → SpaceInterface K := floatSpace D.innerProduct

/-- The vector at `data + i * dim`; the matrix is given by its bytes. -/
def row (data : ℕ → UInt8) (dim : Int32) (i : ℕ) : List UInt8 :=
  (List.range (4 * (toSizeT dim).toNat)).map fun k => data (4 * (i * (toSizeT dim).toNat) + k)

/-- The layout of the index that `build` and `build_ip` create. -/
def builtLayout (P : Platform K) (space : SpaceInterface K) (max_elements M ef_construction : Int32) :
    Layout :=
  Layout.new P.mult space.get_data_size (toSizeT max_elements).toNat (toSizeT M).toNat
    (toSizeT ef_construction).toNat

variable [Preorder K] [DecidableLT K] [Neg K] (P : Platform K)
  (updatePoint : ∀ L : Layout, HierarchicalNSW L → List UInt8 → ℕ → Run (HierarchicalNSW L))
  (space : UInt64 → SpaceInterface K) (D : Distances K) (draws : ℕ → LevelDraw)

/-- The index that `build` and `build_ip` fill. -/
def filled (data : ℕ → UInt8) (max_elements dim M ef_construction : Int32) :
    Run (HierarchicalNSW (builtLayout P (space (toSizeT dim)) max_elements M ef_construction)) :=
  fillIndex P _ (space (toSizeT dim)).get_dist_func (updatePoint _) (row data dim)
    (toSizeT max_elements).toNat draws

/-- The body of `build` and `build_ip`, which differ in the space only. -/
def buildWith (disk : BinaryDisk) (savepath : String) (data : ℕ → UInt8)
    (max_elements dim M ef_construction : Int32) : Run BinaryDisk := do
  let alg_hnsw ← filled P updatePoint space draws data max_elements dim M ef_construction
  let file ← saveIndex alg_hnsw
  pure (Function.update disk savepath (some file))

/-- `build` -/
def build : BinaryDisk → String → (ℕ → UInt8) → Int32 → Int32 → Int32 → Int32 → Run BinaryDisk :=
  buildWith P updatePoint (L2Space D) draws

/-- `build_ip` -/
def buildIp : BinaryDisk → String → (ℕ → UInt8) → Int32 → Int32 → Int32 → Int32 → Run BinaryDisk :=
  buildWith P updatePoint (InnerProductSpace D) draws

omit [Preorder K] [DecidableLT K] [Neg K]

/-- The body of `read` and `read_ip`. -/
def readWith (disk : BinaryDisk) (hnsw_path : String) (dim : Int32) :
    Run (LoadedIndex × SpaceInterface K) := do
  let alg_hnsw ← loadIndex P (space (toSizeT dim)) draws disk hnsw_path 0
  pure (alg_hnsw, space (toSizeT dim))

/-- `read` -/
def read : BinaryDisk → String → Int32 → Run (LoadedIndex × SpaceInterface K) :=
  readWith P (L2Space D) draws

/-- `read_ip` -/
def readIp : BinaryDisk → String → Int32 → Run (LoadedIndex × SpaceInterface K) :=
  readWith P (InnerProductSpace D) draws

/-- `static_cast<tableint>(ann[parent])`, where `ann` holds the label as an `int`. -/
def annToTableint (label : ℕ) : ℕ := (Int32.ofNat label).toUInt32.toNat

/-- The label that `get_recall_optimized2` pushes to a `vector<tableint>`. -/
def labelToTableint (label : ℕ) : ℕ := (UInt32.ofNat label).toNat

end Handler

-- ---------------------------------------------------------------------------
-- Searching an index in memory
-- ---------------------------------------------------------------------------

section Searching

variable {K : Type} {L : Layout} {row : ℕ → List UInt8} {n : ℕ} {s : HierarchicalNSW L}

/-- `index` is what searches read of the index `s`. -/
structure Reads (s : HierarchicalNSW L) (fstdistfunc : List UInt8 → List UInt8 → K)
    (index : Search.Hnsw.HierarchicalNSW (List UInt8) K) : Prop where
  max_elements    : index.max_elements = L.max_elements
  count           : index.cur_element_count = s.cur_element_count
  enterpoint_node : index.enterpoint_node = s.enterpoint_node
  maxlevel        : (index.maxlevel : ℤ) = s.maxlevel
  element_levels  : index.element_levels = s.element_levels
  linklist        : ∀ id < s.cur_element_count, ∀ level ≤ s.element_levels id,
    Returns (getLinks s.memory (L.getLinklistAtLevel id level)) (index.linklist level id)
  data            : ∀ id < s.cur_element_count,
    Returns (L.getDataByInternalId s.memory id) (index.data id)
  externalLabel   : ∀ id < s.cur_element_count,
    Returns (L.getExternalLabel s.memory id) (index.externalLabel id)
  fstdistfunc     : index.fstdistfunc = fstdistfunc

/-- Label `i` and row `i` are at internal id `i`, for the `n` elements of the index. -/
structure Aligned (s : HierarchicalNSW L) (row : ℕ → List UInt8) (n : ℕ) : Prop where
  count : s.cur_element_count = n
  label : ∀ i < n, Returns (L.getExternalLabel s.memory i) i
  data  : ∀ i < n, Returns (L.getDataByInternalId s.memory i) (row i)

/-- A label that is an internal id: both casts leave it as it is, and the element
there holds the row of that label. -/
structure IsEntryPoint (s : HierarchicalNSW L) (row : ℕ → List UInt8) (n label : ℕ) : Prop where
  lt         : label < n
  optimized  : annToTableint label = label
  optimized2 : labelToTableint label = label
  data       : Returns (L.getDataByInternalId s.memory label) (row label)

/-- Every search from internal ids returns labels that are internal ids, each with the
distance to its row. -/
def SearchesEntryPoints [Preorder K] [DecidableLT K] [Neg K] (s : HierarchicalNSW L)
    (row : ℕ → List UInt8) (n : ℕ) (index : Search.Hnsw.HierarchicalNSW (List UInt8) K) : Prop :=
  ∀ (Q R : PriorityQueue (K × ℕ)) (query : List UInt8) (maxValue : K) (ef k : ℕ)
    (starting_points : List ℕ) (mem : ℕ → UInt16) (pool : VisitedListPool index.max_elements),
    (∀ sp ∈ starting_points, sp < n) →
    ∃ result pool', Returns
        (searchKnnMine Q index query R maxValue ef k starting_points mem pool) (result, pool') ∧
      ∀ e ∈ R.elems result, IsEntryPoint s row n e.2 ∧ e.1 = index.fstdistfunc query (row e.2)

/-- A number that fits an `int` survives both casts. -/
theorem annToTableint_eq {label : ℕ} (h : label < 2 ^ 31) : annToTableint label = label := by
  show label % 2 ^ 32 = label
  exact Nat.mod_eq_of_lt (by omega)

theorem labelToTableint_eq {label : ℕ} (h : label < 2 ^ 31) : labelToTableint label = label :=
  Nat.mod_eq_of_lt (by omega)

/-- An index that has been filled is aligned. -/
theorem Built.aligned (hL : L.WellFormed) (hs : Built L row n s) : Aligned s row n where
  count := hs.count
  label i hi := by
    have hlabel := hs.graph.getExternalLabel_returns hL hi
    rwa [hs.label i hi] at hlabel
  data i hi := by
    have hdata := hs.graph.getDataByInternalId_returns hL hi
    rwa [hs.data i hi] at hdata

/-- What searches see of an index that has been filled. -/
def Built.index (hs : Built L row n s) (hpos : 0 < n)
    (fstdistfunc : List UInt8 → List UInt8 → K) : Search.Hnsw.HierarchicalNSW (List UInt8) K where
  max_elements := L.max_elements
  cur_element_count := n
  enterpoint_node := s.enterpoint_node
  maxlevel := s.element_levels s.enterpoint_node
  element_levels := s.element_levels
  linklist level id := links s.memory (L.getLinklistAtLevel id level)
  data id := bytes s.memory (L.dataSpan id)
  externalLabel id := word s.memory (L.labelSpan id)
  fstdistfunc := fstdistfunc
  capacity := hs.graph.capacity
  enter_lt _ := (hs.entry.resolve_left fun h => hpos.ne' h.1).1
  enter_level := le_refl _
  link_lt level id hid hlevel u hu := (hs.graph.target id hid level hlevel u hu).1
  link_level level id hid hlevel u hu := (hs.graph.target id hid level hlevel u hu).2

theorem Built.reads (hL : L.WellFormed) (hs : Built L row n s) (hpos : 0 < n)
    (fstdistfunc : List UInt8 → List UInt8 → K) :
    Reads s fstdistfunc (hs.index hpos fstdistfunc) where
  max_elements := rfl
  count := hs.count.symm
  enterpoint_node := rfl
  maxlevel := (hs.entry.resolve_left fun h => hpos.ne' h.1).2.symm
  element_levels := rfl
  linklist _ hid _ hlevel := hs.graph.getLinks_returns hL (hs.count ▸ hid) hlevel
  data _ hid := hs.graph.getDataByInternalId_returns hL (hs.count ▸ hid)
  externalLabel _ hid := hs.graph.getExternalLabel_returns hL (hs.count ▸ hid)
  fstdistfunc := rfl

/-- **Searching** an aligned index. -/
theorem Aligned.search [Preorder K] [DecidableLT K] [Neg K] (hs : Aligned s row n)
    (hn : n < 2 ^ 31) {fstdistfunc : List UInt8 → List UInt8 → K}
    {index : Search.Hnsw.HierarchicalNSW (List UInt8) K} (hindex : Reads s fstdistfunc index) :
    SearchesEntryPoints s row n index := by
  intro Q R query maxValue ef k starting_points mem pool hstart
  have hcount : index.cur_element_count = n := hindex.count.trans hs.count
  obtain ⟨result, pool', hret, helems⟩ := Search.Hnsw.searchKnnMine_returns (Q := Q) index query R
    maxValue ef k (hcount.symm ▸ hstart) mem pool
  refine ⟨result, pool', hret, fun e he => ?_⟩
  obtain ⟨id, hid, rfl⟩ := helems e he
  rw [hcount] at hid
  have hid' : id < s.cur_element_count := hs.count.symm ▸ hid
  -- the label and the vector that the search has read are those of the element
  have hlabel : index.externalLabel id = id := (hindex.externalLabel id hid').unique (hs.label id hid)
  have hdata : index.data id = row id := (hindex.data id hid').unique (hs.data id hid)
  have hsmall : id < 2 ^ 31 := hid.trans hn
  refine ⟨?_, ?_⟩
  · show IsEntryPoint s row n (index.externalLabel id)
    rw [hlabel]
    exact ⟨hid, annToTableint_eq hsmall, labelToTableint_eq hsmall, hs.data id hid⟩
  · show index.fstdistfunc query (index.data id) = index.fstdistfunc query (row (index.externalLabel id))
    rw [hlabel, hdata]

end Searching

-- ---------------------------------------------------------------------------
-- Building and reading
-- ---------------------------------------------------------------------------

section RoundTrip

variable {K : Type} [Preorder K] [DecidableLT K] [Neg K]

/-- The index that is filled, and the one that is read from the file written for it, are
aligned, and searches of the latter return labels that are internal ids. -/
def KeepsLabels {L : Layout} (filled : Run (HierarchicalNSW L)) (built : Run BinaryDisk)
    (read : BinaryDisk → Run (LoadedIndex × SpaceInterface K)) (row : ℕ → List UInt8) (n : ℕ) : Prop :=
  ∃ s disk r, Returns filled s ∧ Returns built disk ∧ Returns (read disk) r ∧
    Aligned s row n ∧ Aligned r.1.index row n ∧
    ∃ index, Reads r.1.index r.2.get_dist_func index ∧
      SearchesEntryPoints r.1.index row n index

omit [Preorder K] [DecidableLT K] [Neg K] in
/-- The size of a vector does not overflow. -/
theorem get_data_size_floatSpace (distance : UInt64 → List UInt8 → List UInt8 → K) {dim : Int32}
    (hdim : 0 ≤ dim.toInt) :
    (floatSpace distance (toSizeT dim)).get_data_size = 4 * (toSizeT dim).toNat := by
  have hnat := toNat_toSizeT hdim
  have hlt := dim.toInt_lt
  show (toSizeT dim * 4).toNat = 4 * (toSizeT dim).toNat
  rw [UInt64.toNat_mul, Nat.mul_comm]
  exact Nat.mod_eq_of_lt (show 4 * (toSizeT dim).toNat < 2 ^ 64 by omega)

omit [Preorder K] [DecidableLT K] [Neg K] in
theorem builtLayout_wellFormed (P : Platform K) (distance : UInt64 → List UInt8 → List UInt8 → K)
    {max_elements dim M : Int32} (hmax : 1 ≤ max_elements.toInt) (hdim : 0 ≤ dim.toInt)
    (hM : 2 ≤ M.toInt) (ef_construction : Int32) :
    (builtLayout P (floatSpace distance (toSizeT dim)) max_elements M ef_construction).WellFormed := by
  have hsize := get_data_size_floatSpace distance hdim
  have hdimNat := toNat_toSizeT hdim
  have hmaxNat := toNat_toSizeT (z := max_elements) (by omega)
  have hMNat := toNat_toSizeT (z := M) (by omega)
  have hdimLt := dim.toInt_lt
  have hmaxLt := max_elements.toInt_lt
  exact Layout.new_wellFormed P.mult (by omega) (by omega) (by omega) (UInt64.toNat_lt _)

/-- **Building and reading** with one of the spaces. -/
theorem buildWith_labels (P : Platform K)
    (updatePoint : ∀ L : Layout, HierarchicalNSW L → List UInt8 → ℕ → Run (HierarchicalNSW L))
    (distance : UInt64 → List UInt8 → List UInt8 → K) (draws draws' : ℕ → LevelDraw)
    (disk : BinaryDisk) (savepath : String) (data : ℕ → UInt8) {max_elements dim M : Int32}
    (hmax : 1 ≤ max_elements.toInt) (hdim : 0 ≤ dim.toInt) (hM : 2 ≤ M.toInt)
    (ef_construction : Int32) :
    KeepsLabels
      (filled P updatePoint (floatSpace distance) draws data max_elements dim M ef_construction)
      (buildWith P updatePoint (floatSpace distance) draws disk savepath data max_elements dim M
        ef_construction)
      (fun disk' => readWith P (floatSpace distance) draws' disk' savepath dim)
      (row data dim) max_elements.toInt.toNat := by
  have hL := builtLayout_wellFormed P distance hmax hdim hM ef_construction
  have hn : (toSizeT max_elements).toNat = max_elements.toInt.toNat := by
    have := toNat_toSizeT (z := max_elements) (by omega)
    omega
  have hpos : 0 < max_elements.toInt.toNat := by omega
  have hlt : max_elements.toInt.toNat < 2 ^ 31 := by
    have := max_elements.toInt_lt
    omega
  have hrow : ∀ i, (row data dim i).length = (floatSpace distance (toSizeT dim)).get_data_size := by
    intro i
    rw [get_data_size_floatSpace distance hdim, row, List.length_map, List.length_range]
  obtain ⟨s, hfill, hs⟩ := fillIndex_returns (P := P) (distance (toSizeT dim)) hL
    (fun i _ => hrow i) (updatePoint _) draws
  have hs : Built _ (row data dim) max_elements.toInt.toNat s := hn ▸ hs
  have hfilled : Returns (filled P updatePoint (floatSpace distance) draws data max_elements dim M
      ef_construction) s := hfill
  have hsave := saveIndex_returns hL hs
  have hfile : Function.update disk savepath (some (fileBytes s)) savepath = some (fileBytes s) :=
    Function.update_self ..
  obtain ⟨index, hload, hindex, -, -⟩ := loadIndex_returns hL hs hpos P
    (floatSpace distance (toSizeT dim)) rfl draws' hfile
  have haligned := hindex.aligned hL
  have hreads := hindex.reads hL hpos (distance (toSizeT dim))
  exact ⟨s, _, _, hfilled, hfilled.bind (hsave.bind (returns_pure _)), hload.bind (returns_pure _),
    hs.aligned hL, haligned, _, hreads, haligned.search hlt hreads⟩

/-- **Labels are internal ids.** For every data matrix, every `M` from 2 on and every
sequence of levels, `build` and `read`, and `build_ip` and `read_ip`, keep label and row
`i` at internal id `i`, and searches return labels that can be used as entry points.
Distances may be anything, a NaN included, and `updatePoint` is never called. -/
theorem build_labels (P : Platform K)
    (updatePoint : ∀ L : Layout, HierarchicalNSW L → List UInt8 → ℕ → Run (HierarchicalNSW L))
    (D : Distances K) (draws draws' : ℕ → LevelDraw) (disk : BinaryDisk) (savepath : String)
    (data : ℕ → UInt8) {max_elements dim M : Int32} (hmax : 1 ≤ max_elements.toInt)
    (hdim : 0 ≤ dim.toInt) (hM : 2 ≤ M.toInt) (ef_construction : Int32) :
    KeepsLabels
      (filled P updatePoint (L2Space D) draws data max_elements dim M ef_construction)
      (build P updatePoint D draws disk savepath data max_elements dim M ef_construction)
      (fun disk' => read P D draws' disk' savepath dim) (row data dim) max_elements.toInt.toNat ∧
    KeepsLabels
      (filled P updatePoint (InnerProductSpace D) draws data max_elements dim M ef_construction)
      (buildIp P updatePoint D draws disk savepath data max_elements dim M ef_construction)
      (fun disk' => readIp P D draws' disk' savepath dim) (row data dim) max_elements.toInt.toNat :=
  ⟨buildWith_labels P updatePoint D.l2 draws draws' disk savepath data hmax hdim hM ef_construction,
    buildWith_labels P updatePoint D.innerProduct draws draws' disk savepath data hmax hdim hM
      ef_construction⟩

end RoundTrip

-- ---------------------------------------------------------------------------
-- Two vectors
-- ---------------------------------------------------------------------------

/-- The bytes of `1.0f`. -/
def oneBytes : List UInt8 := [0, 0, 128, 63]

/-- Heaps as sorted lists, and the bits of `1 / log(2.0)`. -/
def samplePlatform : Platform ℤ where
  byFirst := .byKey Prod.fst
  byPair := .byKey fun e => toLex e
  maxValue := 2 ^ 31
  mult _ := 0x3FF71547652B82FE
  malloc _ := 0
  newList _ := 0

/-- The two distances, as they are for the one-dimensional vectors `0.0f` and `1.0f`. -/
def sampleDistances : Distances ℤ where
  l2 _ a b := if a = b then 0 else 1
  innerProduct _ a b := if a = oneBytes ∧ b = oneBytes then 0 else 1

/-- The matrix with the rows `0.0f` and `1.0f`. -/
def sampleData (k : ℕ) : UInt8 := if k < 4 then 0 else oneBytes.getD (k - 4) 0

/-- The second element reaches level 1. -/
def sampleDraws (k : ℕ) : LevelDraw := ⟨k % 2, by omega⟩

theorem build_labels_sample :
    (1 ≤ (2 : Int32).toInt ∧ 0 ≤ (1 : Int32).toInt ∧ 2 ≤ (2 : Int32).toInt) ∧
    KeepsLabels
      (filled samplePlatform (fun _ s _ _ => pure s) (L2Space sampleDistances) sampleDraws sampleData
        2 1 2 10)
      (build samplePlatform (fun _ s _ _ => pure s) sampleDistances sampleDraws (fun _ => none)
        "hnsw.bin" sampleData 2 1 2 10)
      (fun disk' => read samplePlatform sampleDistances sampleDraws disk' "hnsw.bin" 1)
      (row sampleData 1) 2 ∧
    KeepsLabels
      (filled samplePlatform (fun _ s _ _ => pure s) (InnerProductSpace sampleDistances) sampleDraws
        sampleData 2 1 2 10)
      (buildIp samplePlatform (fun _ s _ _ => pure s) sampleDistances sampleDraws (fun _ => none)
        "hnsw.bin" sampleData 2 1 2 10)
      (fun disk' => readIp samplePlatform sampleDistances sampleDraws disk' "hnsw.bin" 1)
      (row sampleData 1) 2 :=
  ⟨by decide, build_labels samplePlatform (fun _ s _ _ => pure s) sampleDistances sampleDraws
    sampleDraws (fun _ => none) "hnsw.bin" sampleData (by decide) (by decide) (by decide) 10⟩

end Mqo.Index
