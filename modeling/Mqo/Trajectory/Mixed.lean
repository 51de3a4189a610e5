import Mqo.Trajectory.HnswLinks
import Mqo.Trajectory.Lsh

/-!
# MQO — the options `ann`, `mixed` and `mixed_modified`

`mqo/ann_mst_opt.hpp` and `mqo/mixed_mst_opt.hpp`. The option `mixed_modified`
treats each group of `split` by its size: a single query is a tree of its own,
a group of at most 500 gets an exact minimum spanning tree, and a larger one a
spanning forest of the HNSW graph of its queries.

* `copyQueries_spec`, `copyQueries_returns_iff` — the copy of the vectors of a large group,
  whose size is an `int` product;
* `groupIndex_spec` — in a group handled through HNSW, internal id `i` stands for the query
  `grp[i]`;
* `annGroup_spec` — and the search gives a rooted forest;
* `mixedGroup_spec` — whatever the size, a group adds a rooted forest over its
  members;
* `optimizeTrajectoryMixedModifiedMst_spec` — all groups together.
-/

namespace Mqo

open Prog StackTraversal SpanningForest IntOffset

variable {F D : Type} [Scalar F] [Scalar D] [Widen F D]

-- ---------------------------------------------------------------------------
-- The indexes of the groups
-- ---------------------------------------------------------------------------

/-- How the two kinds of insertion link an element: `addPoint` and
`addPoint_modified`. -/
structure Builders (F : Type) where
  full : Connect F
  baseOnly : Connect F

/-- `memcpy(dest + target, source + start, sizeof(float) * n)`, where `dest` is an array of the
given length. -/
def memcpy (length : ℕ) (dest : ℤ → F) (target : ℤ) (source : ℤ → F) (start : ℤ) (n : ℕ) :
    Run (ℤ → F) :=
  if 0 ≤ target ∧ target + n ≤ length then
    pure fun k =>
      if target ≤ k ∧ k < target + n then source (start + (k - target)) else dest k
  else fault .outOfRange

/-- `subQ`: an array of `szg * dim` values, filled with the vectors of the group one after the
other. The number is an `int` product, and `new[]` throws where it is negative. -/
def copyQueries (query : ℤ → F) (dim : ℕ) (grp : List ℕ) : Run (ℤ → F) :=
  let szg := grp.length
  let count := intMul szg dim
  if count.toInt < 0 then fault (.exception "std::bad_array_new_length")
  else (List.range szg).foldlM (fun subQ i =>
    memcpy count.toInt.toNat subQ (intMul i dim).toInt query (intMul (grp.getD i 0) dim).toInt dim)
    fun _ => 0

/-- The index that the flags select. -/
def buildIndex (builders : Builders F) (base_only use_l2 : Bool) (data : ℤ → F)
    (num_elements dim : ℕ) (M ef_construction : ℤ) : Run (HierarchicalNSW F) :=
  if base_only then buildAnnBaseOnly builders.baseOnly data num_elements dim M ef_construction
  else if use_l2 then buildAnnFullL2 builders.full data num_elements dim M ef_construction
  else buildAnnFullIp builders.full data num_elements dim M ef_construction

/-- The index of a group, built over a copy of its vectors. -/
def groupIndex (builders : Builders F) (base_only use_l2 : Bool) (M ef_construction : ℤ)
    (query : ℤ → F) (dim : ℕ) (grp : List ℕ) : Run (HierarchicalNSW F) := do
  let subQ ← copyQueries query dim grp
  buildIndex builders base_only use_l2 subQ grp.length dim M ef_construction

/-- The space of that index. -/
def indexSpace (base_only use_l2 : Bool) : Space :=
  if base_only || use_l2 then .l2 else .ip

-- ---------------------------------------------------------------------------
-- The options
-- ---------------------------------------------------------------------------

/-- `optimize_trajectory_ann_mst`, without the duration it measures. -/
def optimizeTrajectoryAnnMst (edgeQueue : PriorityQueue (PrimStep F)) (builders : Builders F)
    (query : ℤ → F) (n_query dim : ℕ) (params : Params) : Run (Trajectory × D) := do
  let M := params.get "M"
  let ef_construction := params.get "ef"
  let use_base_only := params.get "base_only"
  let qann ← buildIndex builders (use_base_only ≠ 0) true query n_query dim M ef_construction
  approximateMSTUsingHNSW edgeQueue qann n_query

/-- What the loop over the groups has collected. -/
structure MixedTotals (D : Type) where
  fullTrajectory : Trajectory
  sumWeights : D
  sumEdges : ℤ

/-- The entries of a group, mapped to its queries, and its share of the weight. -/
def MixedTotals.add (totals : MixedTotals D) (grp : List ℕ) (loc : Trajectory × D) :
    MixedTotals D :=
  let localEdgeCount : ℤ := loc.1.countP fun e => e.2 ≥ 0
  { fullTrajectory := totals.fullTrajectory ++ loc.1.map (toGlobal grp)
    sumWeights := totals.sumWeights + loc.2 * Scalar.ofInt localEdgeCount
    sumEdges := totals.sumEdges + localEdgeCount }

/-- The branch for at most 500 members: the Prim loop. -/
def exactGroup (query : ℤ → F) (dim : ℕ) (use_l2 : Bool) (grp : List ℕ) :
    Run (Trajectory × D) := do
  let szg := grp.length
  let steps ← primLoop szg fun curr v =>
    metricDistance use_l2 query dim (grp.getD curr 0) (grp.getD v 0)
  let groupMSTWeight := steps.foldl (fun (weight : D) s => weight + widen s.weight) 0
  pure (steps.map PrimStep.entry, groupMSTWeight / Scalar.ofInt (szg - 1))

/-- The branch for larger groups: the index of the group and its forest. -/
def annGroup (edgeQueue : PriorityQueue (PrimStep F)) (builders : Builders F)
    (base_only use_l2 : Bool) (M ef_construction : ℤ) (query : ℤ → F) (dim : ℕ)
    (grp : List ℕ) : Run (Trajectory × D) := do
  let szg := grp.length
  let index ← groupIndex builders base_only use_l2 M ef_construction query dim grp
  approximateMSTUsingHNSWUndirected edgeQueue index szg

/-- The body of the loop over the groups. -/
def mixedGroup (edgeQueue : PriorityQueue (PrimStep F)) (builders : Builders F)
    (base_only use_l2 : Bool) (M ef_construction : ℤ) (query : ℤ → F) (dim : ℕ)
    (totals : MixedTotals D) (gi : GroupInfo) : Run (MixedTotals D) :=
  let grp := gi.group
  let szg := grp.length
  if szg ≤ 1 then
    pure { totals with
      fullTrajectory := totals.fullTrajectory ++ [((grp.getD 0 0 : ℤ), -1)] }
  else if szg ≤ 500 then do
    let loc ← exactGroup query dim use_l2 grp
    pure (totals.add grp loc)
  else do
    let loc ← annGroup edgeQueue builders base_only use_l2 M ef_construction query dim grp
    pure (totals.add grp loc)

/-- The average weight, with a root charged at the weight of a random pair. -/
def averageWeight (totals : MixedTotals D) (n_query : ℕ) (weight_for_root : D) : D :=
  (totals.sumWeights + Scalar.ofInt (n_query - totals.sumEdges) * weight_for_root) /
    Scalar.ofInt n_query

/-- `params.count("base_only") && params["base_only"] != 0` -/
def Params.baseOnly (params : Params) : Bool := params.get "base_only" ≠ 0

/-- `optimize_trajectory_mixed_modified_mst`, without the duration it measures. -/
def optimizeTrajectoryMixedModifiedMst (Q : PriorityQueue GroupInfo) (normDist : ℕ → F)
    (edgeQueue : PriorityQueue (PrimStep F)) (builders : Builders F) (query : ℤ → F)
    (n_query dim : ℕ) (use_l2 : Bool) (params : Params) (gen : Gen) :
    Run ((Trajectory × D) × Gen) := do
  let B ← params.lookup "B"
  let M ← params.lookup "M"
  let ef_construction := (params "ef").getD M
  let base_only := params.baseOnly
  let hyperplane ← generateRandomHyperplane normDist B 1 dim
  let pq ← split Q query hyperplane n_query dim B
  let totals ← (Q.drain pq).foldlM
    (mixedGroup edgeQueue builders base_only use_l2 M ef_construction query dim) ⟨[], (0 : D), 0⟩
  let weight ← getWeightForRoot (D := D) query n_query dim gen 3000
  pure ((totals.fullTrajectory, averageWeight totals n_query weight.1), weight.2)

/-- The body of the loop of `optimize_trajectory_mixed_mst`: every group of two or
more goes through an L2 index and its directed links. -/
def mixedDirectedGroup (edgeQueue : PriorityQueue (PrimStep F)) (builders : Builders F)
    (base_only : Bool) (M ef_construction : ℤ) (query : ℤ → F) (dim : ℕ)
    (totals : MixedTotals D) (gi : GroupInfo) : Run (MixedTotals D) :=
  let grp := gi.group
  let szg := grp.length
  if szg ≤ 1 then
    pure { totals with
      fullTrajectory := totals.fullTrajectory ++ [((grp.getD 0 0 : ℤ), -1)] }
  else do
    let index ← groupIndex builders base_only true M ef_construction query dim grp
    let loc ← approximateMSTUsingHNSW edgeQueue index szg
    pure (totals.add grp loc)

/-- `optimize_trajectory_mixed_mst`, without the duration it measures. -/
def optimizeTrajectoryMixedMst (Q : PriorityQueue GroupInfo) (normDist : ℕ → F)
    (edgeQueue : PriorityQueue (PrimStep F)) (builders : Builders F) (query : ℤ → F)
    (n_query dim : ℕ) (params : Params) (gen : Gen) : Run ((Trajectory × D) × Gen) := do
  let B ← params.lookup "B"
  let M ← params.lookup "M"
  let ef_construction ← params.lookup "ef"
  let base_only := params.baseOnly
  let hyperplane ← generateRandomHyperplane normDist B 1 dim
  let pq ← split Q query hyperplane n_query dim B
  let totals ← (Q.drain pq).foldlM
    (mixedDirectedGroup edgeQueue builders base_only M ef_construction query dim) ⟨[], (0 : D), 0⟩
  let weight ← getWeightForRoot (D := D) query n_query dim gen 3000
  pure ((totals.fullTrajectory, averageWeight totals n_query weight.1), weight.2)

-- ---------------------------------------------------------------------------
-- One group
-- ---------------------------------------------------------------------------

omit [Scalar F] in
/-- A copy inside the array. -/
theorem memcpy_returns {length n : ℕ} {target : ℤ} (h : 0 ≤ target ∧ target + n ≤ length)
    (dest source : ℤ → F) (start : ℤ) : Returns (memcpy length dest target source start n)
      fun k => if target ≤ k ∧ k < target + n then source (start + (k - target)) else dest k := by
  rw [memcpy, if_pos h]
  exact returns_pure _

/-- **The copy**: while its size is an `int`, row `i` of it is the vector of the query `grp[i]`. -/
theorem copyQueries_spec (query : ℤ → F) {dim : ℕ} {grp : List ℕ}
    (hfit : grp.length * dim < 2 ^ 31) :
    ∃ subQ, Returns (copyQueries query dim grp) subQ ∧
      ∀ i < grp.length, row subQ dim i = row query dim (grp.getD i 0) := by
  have hcount := toInt_intMul hfit
  -- the rows copied so far are in their places
  obtain ⟨subQ, hret, hrows⟩ := range_returns (n := grp.length)
    (fun m (subQ : ℤ → F) => ∀ i < m, ∀ pos < dim,
      subQ ↑(i * dim + pos) = query ((intMul (grp.getD i 0) dim).toInt + pos))
    (f := fun subQ i => memcpy (intMul grp.length dim).toInt.toNat subQ (intMul i dim).toInt query
      (intMul (grp.getD i 0) dim).toInt dim)
    (fun m hm subQ hrows => by
      have hend : m * dim + dim ≤ grp.length * dim := by
        rw [← Nat.succ_mul]
        exact Nat.mul_le_mul_right dim hm
      have hstart : (intMul m dim).toInt = ↑(m * dim) := by
        rcases Nat.eq_zero_or_pos dim with h0 | hpos
        · subst h0
          exact toInt_intMul (by omega)
        · exact toInt_intMul (by omega)
      refine ⟨_, memcpy_returns ?_ subQ query _, fun i hi pos hpos => ?_⟩
      · rw [hstart, hcount]
        omega
      · rw [hstart]
        rcases Nat.lt_succ_iff_lt_or_eq.mp hi with hlt | rfl
        · have hbefore : i * dim + dim ≤ m * dim := by
            rw [← Nat.succ_mul]
            exact Nat.mul_le_mul_right dim hlt
          rw [if_neg (by omega)]
          exact hrows i hlt pos hpos
        · rw [if_pos (by omega)]
          congr 1
          omega)
    (s := fun _ => (0 : F)) (fun i hi => absurd hi (Nat.not_lt_zero i))
  refine ⟨subQ, ?_, fun i hi => List.map_congr_left fun pos hpos => ?_⟩
  · rw [copyQueries, if_neg (by omega)]
    exact hret
  · have hpos := List.mem_range.mp hpos
    have hlt : i * dim + pos < grp.length * dim :=
      calc i * dim + pos < (i + 1) * dim := by rw [Nat.succ_mul]; omega
        _ ≤ grp.length * dim := Nat.mul_le_mul_right dim hi
    rw [toInt_intMul (show i * dim < 2 ^ 31 by omega), ← Nat.cast_add, hrows i hi pos hpos]

/-- **The copy needs** a size that is an `int`: where it wraps, `new[]` throws or the array is too
short for the rows. -/
theorem copyQueries_returns_iff (query : ℤ → F) (dim : ℕ) (grp : List ℕ) :
    (∃ subQ, Returns (copyQueries query dim grp) subQ) ↔ grp.length * dim < 2 ^ 31 := by
  constructor
  · rintro ⟨subQ, hret⟩
    unfold copyQueries at hret
    dsimp only at hret
    split at hret
    · exact absurd (fails_fault _) hret.not_fails
    · next hneg =>
      have hcopied := foldlM_inv
        (fun pre _ => ∀ i ∈ pre, (intMul i dim).toInt + dim ≤ (intMul grp.length dim).toInt.toNat)
        (fun pre i post s s' _ hpre hstep j hj => by
          rcases List.mem_append.mp hj with hj | hj
          · exact hpre j hj
          · rw [List.mem_singleton.mp hj]
            by_contra hout
            rw [memcpy, if_neg fun h => hout h.2] at hstep
            exact hstep.not_fails (fails_fault _))
        (fun i hi => absurd hi List.not_mem_nil) hret
      by_contra hover
      -- the row that the end of the array cuts off
      have hlt := (intMul grp.length dim).toInt_lt
      obtain ⟨length, hlength⟩ := Int.eq_ofNat_of_zero_le (not_lt.mp hneg)
      rw [hlength] at hlt hcopied
      have hpos : 0 < dim := Nat.pos_of_ne_zero fun h0 => by simp [h0] at hover
      have hrow : length / dim < grp.length :=
        (Nat.div_lt_iff_lt_mul hpos).mpr (by omega)
      have hdiv := Nat.div_add_mod' length dim
      have hmod := Nat.mod_lt length hpos
      have hin := hcopied _ (List.mem_range.mpr hrow)
      rw [toInt_intMul (by omega)] at hin
      omega
  · intro hfit
    obtain ⟨subQ, hret, -⟩ := copyQueries_spec query hfit
    exact ⟨subQ, hret⟩

/-- The linking that the flag selects. -/
def Builders.link (builders : Builders F) (base_only : Bool) : Connect F :=
  if base_only then builders.baseOnly else builders.full

/-- Whichever index is built, its ids follow the insertion order. -/
theorem buildIndex_spec (builders : Builders F) (base_only use_l2 : Bool) (data : ℤ → F)
    (num_elements dim : ℕ) (M ef_construction : ℤ) :
    ∃ index, Returns (buildIndex builders base_only use_l2 data num_elements dim M
        ef_construction) index ∧
      Stores (indexSpace base_only use_l2) data dim num_elements index ∧
      LinkedBy (builders.link base_only M ef_construction) num_elements index := by
  unfold buildIndex Builders.link
  cases base_only with
  | true => exact buildAnn_spec (addPointModified_storesNext _) .l2 data num_elements dim
  | false =>
    cases use_l2 with
    | true => exact buildAnn_spec (addPoint_storesNext _) .l2 data num_elements dim
    | false => exact buildAnn_spec (addPoint_storesNext _) .ip data num_elements dim

/-- What the index of a group holds: internal id `i` stands for the query `grp[i]`, and the
vector behind its pointer is stored there. -/
structure HoldsGroup (base_only use_l2 : Bool) (query : ℤ → F) (dim : ℕ) (grp : List ℕ)
    (index : HierarchicalNSW F) : Prop where
  count  : index.cur_element_count = grp.length
  label  : ∀ i < grp.length, index.externalLabel i = i
  vector : ∀ i < grp.length, index.data i = row query dim (grp.getD i 0)
  dist   : index.fstdistfunc = (indexSpace base_only use_l2).distFunc dim

/-- **The index of a group.** -/
theorem groupIndex_spec (builders : Builders F) (base_only use_l2 : Bool) (M ef_construction : ℤ)
    (query : ℤ → F) {dim : ℕ} {grp : List ℕ} (hfit : grp.length * dim < 2 ^ 31) :
    ∃ index, Returns (groupIndex builders base_only use_l2 M ef_construction query dim grp) index ∧
      HoldsGroup base_only use_l2 query dim grp index ∧
      LinkedBy (builders.link base_only M ef_construction) grp.length index := by
  obtain ⟨subQ, hcopy, hrows⟩ := copyQueries_spec query hfit
  obtain ⟨index, hindex, hstores, hlinked⟩ :=
    buildIndex_spec builders base_only use_l2 subQ grp.length dim M ef_construction
  exact ⟨index, hcopy.bind hindex, ⟨hstores.count, hstores.label, fun i hi => by
    rw [hstores.vector i hi, hrows i hi], hstores.dist⟩, hlinked⟩

theorem groupIndex_returns_iff (builders : Builders F) (base_only use_l2 : Bool)
    (M ef_construction : ℤ) (query : ℤ → F) (dim : ℕ) (grp : List ℕ) :
    (∃ index, Returns (groupIndex builders base_only use_l2 M ef_construction query dim grp) index) ↔
      grp.length * dim < 2 ^ 31 := by
  constructor
  · rintro ⟨index, hret⟩
    obtain ⟨subQ, hcopy, -⟩ := hret.of_bind
    exact (copyQueries_returns_iff query dim grp).mp ⟨subQ, hcopy⟩
  · intro hfit
    obtain ⟨index, hret, -⟩ :=
      groupIndex_spec builders base_only use_l2 M ef_construction query hfit
    exact ⟨index, hret⟩

/-- Every level-0 list of the index built for the group holds only ids of the
group. -/
def BuildInRange (builders : Builders F) (base_only use_l2 : Bool) (M ef_construction : ℤ)
    (query : ℤ → F) (dim : ℕ) (grp : List ℕ) : Prop :=
  ∀ index, Returns (groupIndex builders base_only use_l2 M ef_construction query dim grp) index →
    LinksInRange index grp.length

/-- Linking that stays among the ids of the group builds an index in range. -/
theorem buildInRange_of_link {builders : Builders F} {base_only use_l2 : Bool}
    {M ef_construction : ℤ} {query : ℤ → F} {dim : ℕ} {grp : List ℕ}
    (hlink : ∀ stored id, stored.max_elements = grp.length → ∀ v < grp.length,
      ∀ u ∈ builders.link base_only M ef_construction stored id v, u < grp.length) :
    BuildInRange builders base_only use_l2 M ef_construction query dim grp := by
  intro index hindex
  obtain ⟨index', hindex', -, hlinked⟩ := groupIndex_spec builders base_only use_l2 M
    ef_construction query ((groupIndex_returns_iff ..).mp ⟨index, hindex⟩)
  obtain rfl := hindex.unique hindex'
  intro v hv u hu
  rcases hlinked with ⟨-, hnil⟩ | ⟨stored, id, hmax, heq⟩
  · rw [hnil] at hu
    exact absurd hu List.not_mem_nil
  · rw [heq] at hu
    exact hlink stored id hmax v hv u hu

/-- A group handled through HNSW yields a search of its index. -/
theorem annGroup_spec (edgeQueue : PriorityQueue (PrimStep F)) {builders : Builders F}
    {base_only use_l2 : Bool} {M ef_construction : ℤ} {query : ℤ → F} {dim : ℕ} {grp : List ℕ}
    (hfit : grp.length * dim < 2 ^ 31)
    (hbuild : BuildInRange builders base_only use_l2 M ef_construction query dim grp) :
    ∃ index adj steps,
      Returns (groupIndex builders base_only use_l2 M ef_construction query dim grp) index ∧
      (∀ v u d, (u, d) ∈ adj v ↔ (v < u ∧ v < grp.length ∧ (u, d) ∈ getNeighbors index v) ∨
        (u < v ∧ u < grp.length ∧ (v, d) ∈ getNeighbors index u)) ∧
      LinksInRange index grp.length ∧
      ForestSteps grp.length adj steps ∧ (∀ v < grp.length, v ∈ stepNodes steps) ∧
      Returns (annGroup (D := D) edgeQueue builders base_only use_l2 M ef_construction query dim grp)
        (steps.map PrimStep.entry,
          averageOver (steps.foldl (fun (total : D) it => total + widen it.weight) 0)
            (grp.length - steps.countP fun it => it.parent.isNone)) := by
  obtain ⟨index, hindex, -⟩ :=
    groupIndex_spec builders base_only use_l2 M ef_construction query hfit
  obtain ⟨adj, steps, -, hadj, hsteps, hall, hret⟩ :=
    approximateMSTUsingHNSWUndirected_spec (D := D) edgeQueue (hbuild index hindex)
  exact ⟨index, adj, steps, hindex, hadj, hbuild index hindex, hsteps, hall, hindex.bind hret⟩

/-- A group handled exactly yields a run of the Prim loop. -/
theorem exactGroup_spec {use_l2 : Bool} {query : ℤ → F} {dim n_query : ℕ} {grp : List ℕ}
    (hfin : FiniteDistances use_l2 query dim n_query) (hgroup : IsGroup n_query grp) :
    ∃ steps, PrimSteps grp.length (fun curr v =>
        metricDistance use_l2 query dim (grp.getD curr 0) (grp.getD v 0)) steps ∧
      steps.length = grp.length ∧
      Returns (exactGroup (D := D) query dim use_l2 grp)
        (steps.map PrimStep.entry,
          steps.foldl (fun (weight : D) s => weight + widen s.weight) 0 /
            Scalar.ofInt (grp.length - 1)) := by
  obtain ⟨steps, hret, hsteps, hlen⟩ :=
    primLoop_spec (List.length_pos_iff.mpr hgroup.nonempty) (hfin.group hgroup)
  exact ⟨steps, hsteps, hlen, hret.bind (returns_pure _)⟩

/-- The branches that a group of two or more takes. -/
inductive LocalResult (edgeQueue : PriorityQueue (PrimStep F)) (builders : Builders F)
    (base_only use_l2 : Bool) (M ef_construction : ℤ) (query : ℤ → F) (dim : ℕ)
    (grp : List ℕ) (loc : Trajectory × D) : Prop
  | exact : grp.length ≤ 500 → Returns (exactGroup query dim use_l2 grp) loc →
      LocalResult edgeQueue builders base_only use_l2 M ef_construction query dim grp loc
  | ann : 500 < grp.length →
      Returns (annGroup edgeQueue builders base_only use_l2 M ef_construction query dim grp) loc →
      LocalResult edgeQueue builders base_only use_l2 M ef_construction query dim grp loc

/-- What a group adds: an entry for a single query, or a local forest with the
property `R`. -/
def GroupAdded (R : Trajectory × D → Prop) (grp : List ℕ) (totals totals' : MixedTotals D) :
    Prop :=
  (grp.length = 1 ∧ totals' = { totals with
    fullTrajectory := totals.fullTrajectory ++ [((grp.getD 0 0 : ℤ), -1)] }) ∨
  (1 < grp.length ∧ ∃ loc, LocalForest grp.length loc.1 ∧ R loc ∧ totals' = totals.add grp loc)

/-- **One group.** -/
theorem mixedGroup_spec (edgeQueue : PriorityQueue (PrimStep F)) {builders : Builders F}
    {base_only use_l2 : Bool} {M ef_construction : ℤ} {query : ℤ → F} {dim n_query : ℕ}
    (hfin : FiniteDistances use_l2 query dim n_query) {gi : GroupInfo}
    (hgroup : IsGroup n_query gi.group)
    (hfit : 500 < gi.group.length → gi.group.length * dim < 2 ^ 31)
    (hbuild : 500 < gi.group.length →
      BuildInRange builders base_only use_l2 M ef_construction query dim gi.group)
    (totals : MixedTotals D) :
    ∃ totals', Returns (mixedGroup edgeQueue builders base_only use_l2 M ef_construction query dim
        totals gi) totals' ∧
      GroupAdded (LocalResult edgeQueue builders base_only use_l2 M ef_construction query dim
        gi.group) gi.group totals totals' := by
  have hpos : 0 < gi.group.length := List.length_pos_iff.mpr hgroup.nonempty
  unfold mixedGroup
  dsimp only
  by_cases hone : gi.group.length ≤ 1
  · rw [if_pos hone]
    exact ⟨_, returns_pure _, Or.inl ⟨by omega, rfl⟩⟩
  · rw [if_neg hone]
    by_cases hsmall : gi.group.length ≤ 500
    · rw [if_pos hsmall]
      obtain ⟨steps, hsteps, hlen, hret⟩ := exactGroup_spec (D := D) hfin hgroup
      exact ⟨_, hret.bind (returns_pure _), Or.inr ⟨by omega, _, hsteps.localForest hlen,
        .exact hsmall hret, rfl⟩⟩
    · rw [if_neg hsmall]
      obtain ⟨index, adj, steps, -, -, -, hsteps, hall, hret⟩ :=
        annGroup_spec (D := D) edgeQueue (hfit (by omega)) (hbuild (by omega))
      exact ⟨_, hret.bind (returns_pure _), Or.inr ⟨by omega, _, hsteps.localForest hall,
        .ann (by omega) hret, rfl⟩⟩

/-- A large group is copied, so its size in values is an `int`. -/
theorem fit_of_mixedGroup {edgeQueue : PriorityQueue (PrimStep F)} {builders : Builders F}
    {base_only use_l2 : Bool} {M ef_construction : ℤ} {query : ℤ → F} {dim : ℕ} {gi : GroupInfo}
    (hbig : 500 < gi.group.length) {totals totals' : MixedTotals D}
    (h : Returns (mixedGroup edgeQueue builders base_only use_l2 M ef_construction query dim totals
      gi) totals') : gi.group.length * dim < 2 ^ 31 := by
  unfold mixedGroup at h
  dsimp only at h
  rw [if_neg (by omega), if_neg (by omega)] at h
  obtain ⟨loc, hloc, -⟩ := h.of_bind
  obtain ⟨index, hindex, -⟩ := hloc.of_bind
  exact (groupIndex_returns_iff ..).mp ⟨index, hindex⟩

/-- Whatever the group, a rooted forest over its members is added. -/
theorem GroupAdded.forest {R : Trajectory × D → Prop} {grp : List ℕ}
    {totals totals' : MixedTotals D} (h : GroupAdded R grp totals totals') :
    ∃ t, totals'.fullTrajectory = totals.fullTrajectory ++ t ∧ GroupForest [grp] t := by
  rcases h with ⟨hone, rfl⟩ | ⟨-, loc, hloc, -, rfl⟩
  · refine ⟨_, rfl, ?_⟩
    have : GroupForest [grp] ([(0, -1)].map (toGlobal grp)) :=
      groupForest_toGlobal (hone ▸ localForest_singleton)
    simpa [toGlobal] using this
  · exact ⟨_, rfl, groupForest_toGlobal hloc⟩

-- ---------------------------------------------------------------------------
-- All groups
-- ---------------------------------------------------------------------------

/-- The totals after a list of groups. -/
inductive GroupsAdded (R : List ℕ → Trajectory × D → Prop) :
    List (List ℕ) → MixedTotals D → Prop
  | nil : GroupsAdded R [] ⟨[], 0, 0⟩
  | concat {groups : List (List ℕ)} {grp : List ℕ} {totals totals' : MixedTotals D} :
      GroupsAdded R groups totals → GroupAdded (R grp) grp totals totals' →
      GroupsAdded R (groups ++ [grp]) totals'

theorem GroupsAdded.forest {R : List ℕ → Trajectory × D → Prop} {groups : List (List ℕ)}
    {totals : MixedTotals D} (h : GroupsAdded R groups totals) :
    GroupForest groups totals.fullTrajectory := by
  induction h with
  | nil => exact groupForest_nil
  | concat _ hadd ih =>
    obtain ⟨t, ht, hforest⟩ := hadd.forest
    rw [ht]
    exact ih.append hforest

/-- The loop over the groups adds them one after the other. -/
theorem mixedGroups_spec {Q : PriorityQueue GroupInfo} (edgeQueue : PriorityQueue (PrimStep F))
    {builders : Builders F} {base_only use_l2 : Bool} {M ef_construction : ℤ} {query : ℤ → F}
    {dim n_query : ℕ} (hfin : FiniteDistances use_l2 query dim n_query) {pq : Q.Heap}
    (hpart : GroupPartition n_query (Q.elems pq))
    (hfit : ∀ gi ∈ Q.elems pq, 500 < gi.group.length → gi.group.length * dim < 2 ^ 31)
    (hbuild : ∀ gi ∈ Q.elems pq, 500 < gi.group.length →
      BuildInRange builders base_only use_l2 M ef_construction query dim gi.group) :
    ∃ totals : MixedTotals D, Returns ((Q.drain pq).foldlM (mixedGroup edgeQueue builders base_only
        use_l2 M ef_construction query dim) ⟨[], (0 : D), 0⟩) totals ∧
      GroupsAdded (LocalResult edgeQueue builders base_only use_l2 M ef_construction query dim)
        (groupsOf Q pq) totals :=
  foldlM_returns
    (f := mixedGroup edgeQueue builders base_only use_l2 M ef_construction query dim)
    (fun pre (totals : MixedTotals D) => GroupsAdded (LocalResult edgeQueue builders
      base_only use_l2 M ef_construction query dim) (pre.map GroupInfo.group) totals)
    (l := Q.drain pq)
    (fun pre gi post totals hl hI => by
      have hmem : gi ∈ Q.elems pq := Q.mem_drain.mp (by rw [hl]; simp)
      obtain ⟨totals', hret, hadd⟩ := mixedGroup_spec (D := D) edgeQueue hfin
        (hpart.isGroup hmem) (hfit gi hmem) (hbuild gi hmem) totals
      refine ⟨totals', hret, ?_⟩
      rw [List.map_append]
      exact .concat hI hadd)
    (s := ⟨[], 0, 0⟩) .nil

theorem lookup_returns {params : Params} {key : String} {value : ℤ} (h : params key = some value) :
    Returns (params.lookup key) value := by
  rw [Params.lookup, h]
  exact returns_pure _

theorem lookup_eq {params : Params} {key : String} {value : ℤ}
    (h : Returns (params.lookup key) value) : params key = some value := by
  unfold Params.lookup at h
  cases hkey : params key with
  | none =>
    rw [hkey] at h
    exact absurd (fails_fault _) h.not_fails
  | some value' =>
    rw [hkey] at h
    rw [h.of_pure]

/-- **`mixed_modified`.** The groups of `split` are added one after the other. -/
theorem optimizeTrajectoryMixedModifiedMst_spec (Q : PriorityQueue GroupInfo) (normDist : ℕ → F)
    (edgeQueue : PriorityQueue (PrimStep F)) {builders : Builders F} {use_l2 : Bool}
    {query : ℤ → F} {dim n_query : ℕ} (hn : 0 < n_query)
    (hfin : FiniteDistances use_l2 query dim n_query) {gen : Gen} (hgen : Varies n_query gen)
    {params : Params} {B M : ℤ} (hB : params "B" = some B) (hB1 : 1 ≤ B)
    (hM : params "M" = some M) (hfit : (B - 1) * dim < 2 ^ 31)
    (hgroups : ∀ pq, SplitResult Q normDist query n_query dim B pq →
      ∀ gi ∈ Q.elems pq, 500 < gi.group.length → gi.group.length * dim < 2 ^ 31)
    (hbuild : ∀ pq, SplitResult Q normDist query n_query dim B pq →
      ∀ gi ∈ Q.elems pq, 500 < gi.group.length →
        BuildInRange builders params.baseOnly use_l2 M ((params "ef").getD M) query dim gi.group) :
    ∃ pq totals weight, SplitResult Q normDist query n_query dim B pq ∧
      GroupPartition n_query (Q.elems pq) ∧
      GroupsAdded (LocalResult edgeQueue builders params.baseOnly use_l2 M
        ((params "ef").getD M) query dim) (groupsOf Q pq) totals ∧
      Returns (getWeightForRoot (D := D) query n_query dim gen 3000) weight ∧
      Returns (optimizeTrajectoryMixedModifiedMst Q normDist edgeQueue builders query n_query dim
        use_l2 params gen)
        ((totals.fullTrajectory, averageWeight totals n_query weight.1), weight.2) := by
  obtain ⟨pq, hres⟩ := (splitResult_iff Q normDist query hn dim hB1).mpr hfit
  have hpart := (hres.spec hn hB1).1
  obtain ⟨totals, htotals, hadded⟩ := mixedGroups_spec (D := D) edgeQueue hfin hpart
    (hgroups pq hres) (hbuild pq hres)
  obtain ⟨weight, hweight⟩ := getWeightForRoot_returns (D := D) query hn dim hgen 3000
  obtain ⟨hyperplane, hhyp, hsplit⟩ := hres
  exact ⟨pq, totals, weight, ⟨hyperplane, hhyp, hsplit⟩, hpart, hadded, hweight,
    (lookup_returns hB).bind ((lookup_returns hM).bind (hhyp.bind (hsplit.bind (htotals.bind
      (hweight.bind (returns_pure _))))))⟩

/-- Where the option returns, `split` has returned, and every large group has been copied. -/
theorem fits_of_mixedModified {Q : PriorityQueue GroupInfo} {normDist : ℕ → F}
    {edgeQueue : PriorityQueue (PrimStep F)} {builders : Builders F} {use_l2 : Bool}
    {query : ℤ → F} {dim n_query : ℕ} (hn : 0 < n_query) {gen : Gen} {params : Params} {B : ℤ}
    (hB : params "B" = some B) (hB1 : 1 ≤ B) {r : (Trajectory × D) × Gen}
    (h : Returns (optimizeTrajectoryMixedModifiedMst Q normDist edgeQueue builders query n_query dim
      use_l2 params gen) r) :
    (B - 1) * dim < 2 ^ 31 ∧ ∀ pq, SplitResult Q normDist query n_query dim B pq →
      ∀ gi ∈ Q.elems pq, 500 < gi.group.length → gi.group.length * dim < 2 ^ 31 := by
  obtain ⟨B', hB', h⟩ := h.of_bind
  obtain rfl : B' = B := Option.some.inj ((lookup_eq hB').symm.trans hB)
  obtain ⟨M, -, h⟩ := h.of_bind
  obtain ⟨hyperplane, hhyp, h⟩ := h.of_bind
  obtain ⟨pq, hsplit, h⟩ := h.of_bind
  obtain ⟨totals, htotals, -⟩ := h.of_bind
  have hres : SplitResult Q normDist query n_query dim B' pq := ⟨hyperplane, hhyp, hsplit⟩
  refine ⟨(splitResult_iff Q normDist query hn dim hB1).mp ⟨pq, hres⟩, fun pq' hres' gi hgi => ?_⟩
  obtain rfl := hres.unique hres'
  have hloop := foldlM_inv
    (fun pre _ => ∀ gi ∈ pre, 500 < gi.group.length → gi.group.length * dim < 2 ^ 31)
    (fun pre g post s s' _ hpre hstep gi hgi hbig => by
      rcases List.mem_append.mp hgi with hgi | hgi
      · exact hpre gi hgi hbig
      · rw [List.mem_singleton.mp hgi] at hbig ⊢
        exact fit_of_mixedGroup hbig hstep)
    (fun gi hgi => absurd hgi List.not_mem_nil) htotals
  exact hloop gi (Q.mem_drain.mpr hgi)

/-- The given `B`, and two neighbours for each index element. -/
def groupParams (B : ℤ) : Params := fun key =>
  if key = "B" then some B else if key = "M" then some 2 else none

/-- One group. -/
def sampleParams : Params := groupParams 1

/-- Builders that link every element to the ones before and after it. -/
def chainBuilders (F : Type) : Builders F where
  full _ _ index _ v :=
    (if v = 0 then [] else [v - 1]) ++ if v + 1 < index.max_elements then [v + 1] else []
  baseOnly _ _ index _ v :=
    (if v = 0 then [] else [v - 1]) ++ if v + 1 < index.max_elements then [v + 1] else []

omit [Scalar F] in
theorem mem_chainBuilders {base_only : Bool} {M ef_construction : ℤ} {stored : HierarchicalNSW F}
    {id v u : ℕ} : u ∈ (chainBuilders F).link base_only M ef_construction stored id v ↔
      v = u + 1 ∨ (u = v + 1 ∧ v + 1 < stored.max_elements) := by
  have hchain : (chainBuilders F).link base_only M ef_construction stored id v =
      (if v = 0 then [] else [v - 1]) ++ if v + 1 < stored.max_elements then [v + 1] else [] := by
    unfold Builders.link
    split <;> rfl
  rw [hchain, List.mem_append]
  refine or_congr ?_ ?_
  · split
    · simp
      omega
    · rw [List.mem_singleton]
      omega
  · split
    · next hlt => simp [hlt]
    · next hlt => simp [hlt]

/-- The lists of an index with such links. -/
theorem chainBuilders_lists {base_only use_l2 : Bool} {M ef_construction : ℤ} {query : ℤ → F}
    {dim : ℕ} {grp : List ℕ} (hpos : 0 < grp.length) {index : HierarchicalNSW F}
    (hindex : Returns (groupIndex (chainBuilders F) base_only use_l2 M ef_construction query dim
      grp) index) (v u : ℕ) :
    u ∈ index.linklist0 v ↔ v = u + 1 ∨ (u = v + 1 ∧ v + 1 < grp.length) := by
  obtain ⟨index', hindex', hholds, hlinked⟩ := groupIndex_spec (chainBuilders F) base_only use_l2 M
    ef_construction query ((groupIndex_returns_iff ..).mp ⟨index, hindex⟩)
  obtain rfl := hindex.unique hindex'
  rcases hlinked with ⟨hcount, -⟩ | ⟨stored, id, hmax, heq⟩
  · rw [hholds.count] at hcount
    omega
  · rw [heq, mem_chainBuilders, hmax]

theorem chainBuilders_inRange {base_only use_l2 : Bool} {M ef_construction : ℤ} {query : ℤ → F}
    {dim : ℕ} {grp : List ℕ} :
    BuildInRange (chainBuilders F) base_only use_l2 M ef_construction query dim grp := by
  intro index hindex v hv u hu
  rcases (chainBuilders_lists (by omega) hindex v u).mp hu with h | ⟨h, hlt⟩
  · omega
  · omega

/-- The links of a chain make one tree of a group. -/
theorem chainBuilders_oneRoot {edgeQueue : PriorityQueue (PrimStep F)} {base_only use_l2 : Bool}
    {M ef_construction : ℤ} {query : ℤ → F} {dim : ℕ} {grp : List ℕ} (hpos : 0 < grp.length)
    {loc : Trajectory × D} (h : Returns (annGroup edgeQueue (chainBuilders F) base_only use_l2 M
      ef_construction query dim grp) loc) :
    LocalForest grp.length loc.1 ∧ loc.1.countP (fun e => e.2 = -1) = 1 := by
  obtain ⟨index, hindex, -⟩ := h.of_bind
  obtain ⟨index', adj, steps, hindex', hadj, -, hsteps, hall, hret⟩ := annGroup_spec (D := D)
    edgeQueue ((groupIndex_returns_iff ..).mp ⟨index, hindex⟩)
    (show BuildInRange (chainBuilders F) base_only use_l2 M ef_construction query dim grp from
      chainBuilders_inRange)
  obtain rfl := hindex.unique hindex'
  obtain rfl := h.unique hret
  have hedge : ∀ v, v + 1 < grp.length → HasEdge adj v (v + 1) := fun v hv =>
    (hasEdge_iff hadj v (v + 1)).mpr (Or.inl ⟨by omega, by omega,
      (chainBuilders_lists hpos hindex v (v + 1)).mpr (Or.inr ⟨rfl, hv⟩)⟩)
  have hreach : ∀ v < grp.length, Relation.ReflTransGen (HasEdge adj) 0 v := by
    intro v hv
    induction v with
    | zero => exact .refl
    | succ v ih => exact (ih (by omega)).tail (hedge v hv)
  have hsymm : ∀ a b, HasEdge adj a b → HasEdge adj b a := by
    intro a b
    rw [hasEdge_iff hadj, hasEdge_iff hadj]
    exact Or.symm
  have hone := hsteps.grows.one_root hsymm (hall 0 hpos) fun v hv => hreach v (hsteps.bound v hv)
  rw [List.countP_map] at hone
  exact ⟨hsteps.localForest hall, (countP_root_entry steps).trans hone⟩

/-- With such links and one group, all queries are in one tree. -/
theorem mixedModified_oneRoot {Q : PriorityQueue GroupInfo} {normDist : ℕ → F}
    {edgeQueue : PriorityQueue (PrimStep F)} {use_l2 : Bool} {query : ℤ → F} {dim n_query : ℕ}
    (hn : 500 < n_query) {gen : Gen} {params : Params} (hB : params "B" = some 1)
    {r : (Trajectory × D) × Gen}
    (h : Returns (optimizeTrajectoryMixedModifiedMst Q normDist edgeQueue (chainBuilders F) query
      n_query dim use_l2 params gen) r) : r.1.1.countP (fun e => e.2 = -1) = 1 := by
  obtain ⟨B, hB', h⟩ := h.of_bind
  obtain rfl : B = 1 := Option.some.inj ((lookup_eq hB').symm.trans hB)
  obtain ⟨M, -, h⟩ := h.of_bind
  obtain ⟨hyperplane, hhyp, h⟩ := h.of_bind
  obtain ⟨pq, hsplit, h⟩ := h.of_bind
  obtain ⟨totals, htotals, h⟩ := h.of_bind
  obtain ⟨weight, -, h⟩ := h.of_bind
  obtain rfl := h.of_pure
  -- the only group is that of all queries
  obtain ⟨pq', hsplit', hdrain⟩ := split_one Q query hyperplane n_query dim
  obtain rfl := hsplit.unique hsplit'
  rw [hdrain, List.foldlM_cons] at htotals
  obtain ⟨totals', hgroup, hrest⟩ := htotals.of_bind
  obtain rfl := hrest.of_pure
  unfold mixedGroup at hgroup
  simp only [List.length_range] at hgroup
  rw [if_neg (by omega), if_neg (by omega)] at hgroup
  obtain ⟨loc, hloc, hgroup⟩ := hgroup.of_bind
  obtain rfl := hgroup.of_pure
  obtain ⟨hforest, hone⟩ := chainBuilders_oneRoot (by rw [List.length_range]; omega) hloc
  show ([] ++ loc.1.map (toGlobal (List.range n_query))).countP
    (fun e : ℤ × ℤ => e.2 = -1) = 1
  rw [List.nil_append, countP_root_toGlobal _ hforest, hone]

end Mqo
