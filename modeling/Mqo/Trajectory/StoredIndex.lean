import Mqo.Data.Subset
import Mqo.Index.BaseLayer
import Mqo.Trajectory.Interface

/-!
# MQO — the index of a group in memory

The options `ann`, `mixed` and `mixed_modified` build their indexes with the insertions of
`mqo/ann/hnswlib`, on blocks of bytes. Here the linking that `Builders` leaves open is what these
insertions do: `IndexEnv.builders` reads the lists off the memory that they leave.

* `floats_rowBytes`       — a vector is read as it was written;
* `insertRows_returns`    — the rows of a group are inserted, whatever the flags are;
* `buildIndex_inMemory`, `groupIndex_inMemory` — the index that the search for a tree sees is the
  one in memory.
-/

namespace Mqo

open Prog Memory ByteStream

-- ---------------------------------------------------------------------------
-- Vectors in memory
-- ---------------------------------------------------------------------------

/-- What the code of the index depends on besides its arguments: the heaps and the allocator, the
levels that are drawn for a `mult_`, and how a `float` lies in memory. No label is ever inserted
again, so that nothing is chosen by an update. -/
structure IndexEnv (F : Type) where
  platform : Index.Platform F
  draws : UInt64 → ℕ → Index.LevelDraw
  choices : Index.UpdateChoices
  encode : F → List UInt8
  decode : List UInt8 → F
  length_encode : ∀ x, (encode x).length = 4

/-- An `int` as a `size_t`. -/
def sizeT (i : ℤ) : ℕ := (i % 2 ^ 64).toNat

theorem sizeT_lt (i : ℤ) : sizeT i < 2 ^ 64 := by
  unfold sizeT
  omega

namespace IndexEnv

section Layout

variable {F : Type} (E : IndexEnv F)

/-- A vector as bytes. -/
def rowBytes (vec : List F) : List UInt8 := vec.flatMap E.encode

/-- The `dim` numbers of a vector in memory. -/
def floats (dim : ℕ) (bs : List UInt8) : List F :=
  (List.range dim).map fun i => E.decode ((bs.drop (i * 4)).take 4)

/-- A distance function, on vectors in memory. -/
def distBytes (distfunc : List F → List F → F) (dim : ℕ) (pVect1 pVect2 : List UInt8) : F :=
  distfunc (E.floats dim pVect1) (E.floats dim pVect2)

/-- The numbers of a vector are floats: they are read as they were written. -/
def Exactly (vec : List F) : Prop := ∀ x ∈ vec, E.decode (E.encode x) = x

theorem length_rowBytes {vec : List F} {dim : ℕ} (h : vec.length = dim) :
    (E.rowBytes vec).length = dim * 4 := by
  rw [rowBytes, length_rows fun x _ => E.length_encode x, h]

/-- **A vector is read as it was written.** -/
theorem floats_rowBytes {vec : List F} {dim : ℕ} (h : vec.length = dim) (hvec : E.Exactly vec) :
    E.floats dim (E.rowBytes vec) = vec := by
  refine List.ext_getElem (by simp [floats, h]) fun i hi _ => ?_
  have hlt : i < vec.length := by simpa [floats, h] using hi
  simp only [floats, rowBytes, List.getElem_map, List.getElem_range]
  rw [row_flatMap (fun x _ => E.length_encode x) hlt]
  exact hvec _ (List.getElem_mem hlt)

/-- What the constructor computes for vectors of `dim` floats. -/
def layout (dim num_elements : ℕ) (M ef_construction : ℤ) : Index.Layout :=
  Index.Layout.new E.platform.mult (dim * 4) num_elements (sizeT M) (sizeT ef_construction)

/-- The parameters are in the ranges of their types, and `M` is not zero. -/
structure ParamsFit (dim num_elements : ℕ) (M : ℤ) : Prop where
  dim_lt : dim < 2 ^ 61
  max_lt : num_elements < 2 ^ 31
  M_pos  : sizeT M ≠ 0

theorem layout_wellFormed {dim num_elements : ℕ} {M : ℤ} (h : ParamsFit dim num_elements M)
    (ef_construction : ℤ) :
    (E.layout dim num_elements M ef_construction).WellFormed :=
  Index.Layout.new_wellFormed _ (by have := h.dim_lt; omega) h.max_lt
    (Nat.one_le_iff_ne_zero.mpr h.M_pos) (sizeT_lt _)

end Layout

-- ---------------------------------------------------------------------------
-- The functions
-- ---------------------------------------------------------------------------

variable {F : Type} [FloatOrder F] (E : IndexEnv F)

/-- The loops of `build_ann_full_l2`, `build_ann_full_ip` and `build_ann_base_only`, on the first
`n` of the vectors. -/
def insertRows (base_only : Bool) (distfunc : List F → List F → F) (dim num_elements : ℕ)
    (M ef_construction : ℤ) (vec : ℕ → List F) (n : ℕ) :
    Run (Index.HierarchicalNSW (E.layout dim num_elements M ef_construction)) :=
  let L := E.layout dim num_elements M ef_construction
  let fstdistfunc := E.distBytes distfunc dim
  let rows := fun i => E.rowBytes (vec i)
  if base_only then
    Index.insertModified E.platform L fstdistfunc rows id (E.draws L.mult) n
  else
    Index.insertPoints E.platform L fstdistfunc
      (Index.updateExisting E.platform fstdistfunc E.choices) rows id (E.draws L.mult) n

/-- How an insertion links an element: the level-0 lists in memory after it. -/
noncomputable def connect (base_only : Bool) : Connect F :=
  fun M ef_construction stored id v =>
    let dim := (stored.data id).length
    open Classical in
    if h : ∃ s, Returns (E.insertRows base_only stored.fstdistfunc dim stored.max_elements M
        ef_construction stored.data (id + 1)) s then
      Index.links h.choose.memory
        ((E.layout dim stored.max_elements M ef_construction).getLinklist0 v)
    else []

/-- The two kinds of insertion. -/
noncomputable def builders : Builders F := ⟨E.connect false, E.connect true⟩

/-- `get_neighbors`, in memory. -/
def neighborsInMemory {L : Index.Layout} (fstdistfunc : List UInt8 → List UInt8 → F)
    (s : Index.HierarchicalNSW L) (v : ℕ) : Run (List (ℕ × F)) := do
  let dataV ← L.getDataByInternalId s.memory v
  let neighbors ← Index.getLinks s.memory (L.getLinklistAtLevel v 0)
  neighbors.foldlM (fun result nbId => do
    let dist ← Index.distTo L fstdistfunc s.memory dataV nbId
    pure (result ++ [(nbId, Scalar.sqrt dist)])) []

-- ---------------------------------------------------------------------------
-- The rows in memory
-- ---------------------------------------------------------------------------

section Rows

variable (base_only : Bool) (distfunc : List F → List F → F) {dim num_elements : ℕ} {M : ℤ}
  (ef_construction : ℤ) {vec : ℕ → List F} {n : ℕ}

/-- **The loops**, whatever the flags are. -/
theorem insertRows_returns (h : ParamsFit dim num_elements M) (hn : n ≤ num_elements)
    (hvec : ∀ i < n, (vec i).length = dim) :
    ∃ s, Returns (E.insertRows base_only distfunc dim num_elements M ef_construction vec n) s ∧
      Index.Holding (E.layout dim num_elements M ef_construction) n id
        (fun i => E.rowBytes (vec i)) s := by
  have hL := E.layout_wellFormed h ef_construction
  have hrow : ∀ i < n, (E.rowBytes (vec i)).length = dim * 4 := fun i hi =>
    E.length_rowBytes (hvec i hi)
  cases base_only with
  | true => exact Index.insertModified_holding _ hL hn hrow _
  | false => exact Index.insertPoints_holding _ hL hn hrow _ _

variable {base_only distfunc ef_construction}

/-- Only the rows that are inserted count. -/
theorem insertRows_congr {vec' : ℕ → List F} (h : ∀ i < n, vec i = vec' i) :
    E.insertRows base_only distfunc dim num_elements M ef_construction vec n =
      E.insertRows base_only distfunc dim num_elements M ef_construction vec' n := by
  unfold insertRows Index.insertModified Index.insertPoints
  cases base_only with
  | true =>
    refine foldlM_congr (fun i hi s => ?_) _
    dsimp only
    rw [h i (List.mem_range.mp hi)]
  | false =>
    refine foldlM_congr (fun i hi s => ?_) _
    dsimp only
    rw [h i (List.mem_range.mp hi)]

/-- The linking reads the lists off the memory after the insertion. -/
theorem connect_eq {stored : HierarchicalNSW F} {k : ℕ}
    (hdist : stored.fstdistfunc = distfunc) (hmax : stored.max_elements = num_elements)
    (hlen : (vec k).length = dim) (hdata : ∀ i < k + 1, stored.data i = vec i)
    {s : Index.HierarchicalNSW (E.layout dim num_elements M ef_construction)}
    (hs : Returns (E.insertRows base_only distfunc dim num_elements M ef_construction vec (k + 1))
      s) (v : ℕ) :
    E.connect base_only M ef_construction stored k v =
      Index.links s.memory ((E.layout dim num_elements M ef_construction).getLinklist0 v) := by
  subst hdist hmax
  obtain rfl : (stored.data k).length = dim := by rw [hdata k (Nat.lt_succ_self k), hlen]
  rw [← E.insertRows_congr hdata] at hs
  have hex := Exists.intro s hs
  unfold connect
  dsimp only
  rw [dif_pos hex, hex.choose_spec.unique hs]

end Rows

-- ---------------------------------------------------------------------------
-- What the search sees
-- ---------------------------------------------------------------------------

/-- The index of the trajectory code is the one in memory: the same labels, vectors and level-0
lists, and the same neighbours at the same distances. -/
structure InMemory {L : Index.Layout} (dim n : ℕ) (s : Index.HierarchicalNSW L)
    (index : HierarchicalNSW F) : Prop where
  count     : s.cur_element_count = index.cur_element_count
  lookup    : s.label_lookup = index.label_lookup
  labels    : ∀ i < n, Returns (L.getExternalLabel s.memory i) (index.externalLabel i)
  vectors   : ∀ i < n, ∃ bs, Returns (L.getDataByInternalId s.memory i) bs ∧
    E.floats dim bs = index.data i
  lists     : ∀ v < n, Returns (Index.getLinks s.memory (L.getLinklistAtLevel v 0))
    (index.linklist0 v)
  neighbors : ∀ v < n, Returns (neighborsInMemory (E.distBytes index.fstdistfunc dim) s v)
    (getNeighbors index v)
  inRange   : LinksInRange index n
  noLoop    : ∀ v < n, v ∉ index.linklist0 v
  distinct  : ∀ v < n, (index.linklist0 v).Nodup

section Seen

variable {L : Index.Layout} {dim n : ℕ} {s : Index.HierarchicalNSW L} {index : HierarchicalNSW F}

/-- **The neighbours** of an element of an index whose lists and vectors are as in memory. -/
theorem neighborsInMemory_returns (hL : L.WellFormed) {N : ℕ} {levels lim : ℕ → ℕ}
    (h : Index.Graph L levels N lim s.memory)
    (hlists : ∀ v < N, Index.links s.memory (L.getLinklist0 v) = index.linklist0 v)
    (hvectors : ∀ i < N, E.floats dim (bytes s.memory (L.dataSpan i)) = index.data i) {v : ℕ}
    (hv : v < N) :
    Returns (neighborsInMemory (E.distBytes index.fstdistfunc dim) s v) (getNeighbors index v) := by
  have hlist : Returns (Index.getLinks s.memory (L.getLinklistAtLevel v 0)) (index.linklist0 v) :=
    hlists v hv ▸ h.getLinks_returns hL hv (Nat.zero_le _)
  have hin : ∀ u ∈ index.linklist0 v, u < N := fun u hu =>
    (h.target v hv 0 (Nat.zero_le _) u (show u ∈ Index.links s.memory (L.getLinklist0 v) from
      (hlists v hv).symm ▸ hu)).1.trans_le (h.bound 0)
  refine (h.getDataByInternalId_returns hL hv).bind (hlist.bind ?_)
  obtain ⟨result, hret, hresult⟩ := foldlM_returns
    (f := fun (result : List (ℕ × F)) nbId => do
      let dist ← Index.distTo L (E.distBytes index.fstdistfunc dim) s.memory
        (bytes s.memory (L.dataSpan v)) nbId
      pure (result ++ [(nbId, Scalar.sqrt dist)]))
    (fun pre result => result = pre.map fun nbId => (nbId, linkDistance index v nbId))
    (l := index.linklist0 v)
    (fun pre u post result hsplit hresult => by
      have hu : u < N := hin u (by rw [hsplit]; simp)
      refine ⟨_, (h.distTo_returns hL _ _ hu).bind (returns_pure _), ?_⟩
      rw [hresult, List.map_append, List.map_cons, List.map_nil, linkDistance, ← hvectors v hv,
        ← hvectors u hu]
      rfl)
    (s := []) rfl
  rw [hresult] at hret
  exact hret

/-- An index that was filled with the same rows. -/
theorem inMemory_of_holding (hL : L.WellFormed) {vec : ℕ → List F}
    (hs : Index.Holding L n id (fun i => E.rowBytes (vec i)) s)
    (hvec : ∀ i < n, (vec i).length = dim ∧ E.Exactly (vec i))
    (hcount : index.cur_element_count = n)
    (hlookup : index.label_lookup = fun x => if x < n then some x else none)
    (hlabel : ∀ i < n, index.externalLabel i = i) (hdata : ∀ i < n, index.data i = vec i)
    (hlists : ∀ v < n, index.linklist0 v = Index.links s.memory (L.getLinklist0 v)) :
    E.InMemory dim n s index := by
  have hgraph := hs.intact.toGraph
  have hvectors : ∀ i < n, E.floats dim (bytes s.memory (L.dataSpan i)) = index.data i := by
    intro i hi
    rw [hs.vectors i hi, E.floats_rowBytes (hvec i hi).1 (hvec i hi).2, hdata i hi]
  refine ⟨hs.count.trans hcount.symm, ?_, fun i hi => ?_, fun i hi => ?_, fun v hv => ?_,
    fun v hv => ?_, fun v hv u hu => ?_, fun v hv => ?_, fun v hv => ?_⟩
  · rw [hlookup]
    funext x
    refine Option.ext fun i => ?_
    rw [hs.lookup]
    by_cases hx : x < n
    · rw [if_pos hx]
      simp only [id_eq, Option.some.injEq]
      exact ⟨fun h => h.2.symm, fun h => ⟨h ▸ hx, h.symm⟩⟩
    · rw [if_neg hx]
      simp only [id_eq, reduceCtorEq, iff_false]
      exact fun h => hx (h.2 ▸ h.1)
  · rw [hlabel i hi]
    have hlab := hgraph.getExternalLabel_returns hL hi
    rwa [hs.stored i hi] at hlab
  · exact ⟨_, hgraph.getDataByInternalId_returns hL hi, hvectors i hi⟩
  · rw [hlists v hv]
    exact hgraph.getLinks_returns hL hv (Nat.zero_le _)
  · exact E.neighborsInMemory_returns hL hgraph (fun v hv => (hlists v hv).symm) hvectors hv
  · rw [hlists v hv] at hu
    exact (hgraph.target v hv 0 (Nat.zero_le _) u hu).1
  · rw [hlists v hv]
    exact hs.intact.irrefl v hv 0 (Nat.zero_le _)
  · rw [hlists v hv]
    exact hs.intact.nodup v hv 0 (Nat.zero_le _)

end Seen

-- ---------------------------------------------------------------------------
-- The builders
-- ---------------------------------------------------------------------------

omit [FloatOrder F] in
/-- **The last insertion** of a builder links the last row, in an index that holds them all. -/
theorem buildAnn_last [Scalar F] {link : HierarchicalNSW F → ℕ → ℕ → List ℕ}
    {add : HierarchicalNSW F → List F → ℕ → Run (HierarchicalNSW F)} (hadd : StoresNext link add)
    (space : Space) (data : ℤ → F) (n dim : ℕ) :
    ∃ index, Returns (buildAnn add space data n dim) index ∧ Stores space data dim n index ∧
      (index.label_lookup = fun x => if x < n then some x else none) ∧
      ∀ k, n = k + 1 → ∃ stored, Stores space data dim n stored ∧ stored.max_elements = n ∧
        index.linklist0 = link stored k := by
  obtain ⟨index, hret, hstores, -, hlookup, hlast⟩ := range_returns (n := n)
    (fun m index => Stores space data dim m index ∧ index.max_elements = n ∧
      (index.label_lookup = fun x => if x < m then some x else none) ∧
      ∀ k, m = k + 1 → ∃ stored, Stores space data dim m stored ∧ stored.max_elements = n ∧
        index.linklist0 = link stored k)
    (fun m hm index ⟨hstores, hmax, hlookup, _⟩ => by
      have hret := hadd index (row data dim m) m (hstores.lookup m (le_refl m))
        (by rw [hstores.count, hmax]; exact hm)
      refine ⟨_, hret, hstores.store _, hmax, ?_, fun k hk => ?_⟩
      · show Function.update index.label_lookup m (some index.cur_element_count) = _
        rw [hlookup, hstores.count]
        funext x
        by_cases hx : x = m
        · rw [hx, Function.update_self, if_pos (Nat.lt_succ_self m)]
        · rw [Function.update_of_ne hx]
          exact if_congr (by omega) rfl rfl
      · obtain rfl : m = k := Nat.succ_injective hk
        exact ⟨_, hstores.store _, hmax, by rw [hstores.count]⟩)
    (s := HierarchicalNSW.new space dim n)
    ⟨⟨rfl, fun i hi => absurd hi (Nat.not_lt_zero i), fun i hi => absurd hi (Nat.not_lt_zero i),
      fun _ _ => rfl, rfl⟩, rfl, rfl, fun k hk => absurd hk (Nat.succ_ne_zero k).symm⟩
  exact ⟨index, hret, hstores, hlookup, hlast⟩

/-- The distance function of the index that the flags select. -/
def distFunc (base_only use_l2 : Bool) (dim : ℕ) : List F → List F → F :=
  (indexSpace base_only use_l2).distFunc dim

/-- The flags select one of the two insertions. -/
theorem buildIndex_last (base_only use_l2 : Bool) (data : ℤ → F) (n dim : ℕ)
    (M ef_construction : ℤ) :
    ∃ index, Returns (buildIndex E.builders base_only use_l2 data n dim M ef_construction) index ∧
      Stores (indexSpace base_only use_l2) data dim n index ∧
      (index.label_lookup = fun x => if x < n then some x else none) ∧
      ∀ k, n = k + 1 → ∃ stored, Stores (indexSpace base_only use_l2) data dim n stored ∧
        stored.max_elements = n ∧
        index.linklist0 = E.connect base_only M ef_construction stored k := by
  unfold buildIndex
  cases base_only with
  | true => exact buildAnn_last (addPointModified_storesNext _) .l2 data n dim
  | false =>
    cases use_l2 with
    | true => exact buildAnn_last (addPoint_storesNext _) .l2 data n dim
    | false => exact buildAnn_last (addPoint_storesNext _) .ip data n dim

/-- **The index in memory.** The rows are inserted, and the index that the trajectory code gets is
the one that they leave. -/
theorem buildIndex_inMemory (base_only use_l2 : Bool) {data : ℤ → F} {n dim : ℕ} {M : ℤ}
    (h : ParamsFit dim n M) (hdata : ∀ i < n, E.Exactly (row data dim i)) (ef_construction : ℤ) :
    ∃ s index, Returns (E.insertRows base_only (distFunc base_only use_l2 dim) dim n M
        ef_construction (row data dim) n) s ∧
      Returns (buildIndex E.builders base_only use_l2 data n dim M ef_construction) index ∧
      E.InMemory dim n s index := by
  have hlen : ∀ i < n, (row data dim i).length = dim := fun i _ => by simp [row]
  obtain ⟨s, hs, hheld⟩ := E.insertRows_returns base_only (distFunc base_only use_l2 dim)
    ef_construction h (le_refl n) hlen
  obtain ⟨index, hindex, hstores, hlookup, hlast⟩ :=
    E.buildIndex_last base_only use_l2 data n dim M ef_construction
  refine ⟨s, index, hs, hindex, E.inMemory_of_holding (E.layout_wellFormed h ef_construction) hheld
    (fun i hi => ⟨hlen i hi, hdata i hi⟩) hstores.count hlookup hstores.label hstores.vector
    fun v hv => ?_⟩
  obtain ⟨k, rfl⟩ : ∃ k, n = k + 1 := ⟨n - 1, by omega⟩
  obtain ⟨stored, hstored, hmax, hlists⟩ := hlast k rfl
  rw [hlists]
  exact E.connect_eq hstored.dist hmax (hlen k (Nat.lt_succ_self k)) hstored.vector hs v

/-- **The index of a group in memory**, which holds the vectors behind the pointers of the group. -/
theorem groupIndex_inMemory (base_only use_l2 : Bool) {query : ℤ → F} {dim : ℕ} {M : ℤ}
    {grp : List ℕ} (h : ParamsFit dim grp.length M) (hfit : grp.length * dim < 2 ^ 31)
    (hquery : ∀ i < grp.length, E.Exactly (row query dim (grp.getD i 0))) (ef_construction : ℤ) :
    ∃ s index, Returns (E.insertRows base_only (distFunc base_only use_l2 dim) dim grp.length M
        ef_construction (fun i => row query dim (grp.getD i 0)) grp.length) s ∧
      Returns (groupIndex E.builders base_only use_l2 M ef_construction query dim grp) index ∧
      E.InMemory dim grp.length s index := by
  obtain ⟨subQ, hcopy, hrows⟩ := copyQueries_spec query hfit
  obtain ⟨s, index, hs, hindex, hmem⟩ := E.buildIndex_inMemory base_only use_l2 h
    (fun i hi => (hrows i hi).symm ▸ hquery i hi) ef_construction
  rw [E.insertRows_congr hrows] at hs
  exact ⟨s, index, hs, hcopy.bind hindex, hmem⟩

end IndexEnv

end Mqo
