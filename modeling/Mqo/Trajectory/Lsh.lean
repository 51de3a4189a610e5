import Mqo.Trajectory.Groups
import Mqo.Trajectory.Prim

/-!
# MQO — the option `lsh`

`computeMSTs` and `optimize_trajectory_lsh_mst` of `mqo/lsh_mst_opt.hpp`: the
groups of `split` are taken from the heap one by one, and each contributes a
minimum spanning tree found by the Prim loop, as pairs of queries.

* `mstOfGroup_spec`  — one group adds one rooted tree over its members;
* `computeMSTs_spec` — all groups together give a `GroupForest` with one root
  for each group;
* `splitResult_iff`  — when `split` has its hyperplanes and returns.
-/

namespace Mqo

open Prog StackTraversal

-- ---------------------------------------------------------------------------
-- Parameters
-- ---------------------------------------------------------------------------

/-- `map<string, int> & params` -/
abbrev Params := String → Option ℤ

/-- `params[key]`: the value of a missing key is `0`. -/
def Params.get (params : Params) (key : String) : ℤ := (params key).getD 0

/-- `params.at(key)` -/
def Params.lookup (params : Params) (key : String) : Run ℤ :=
  match params key with
  | some value => pure value
  | none => fault (.exception "map::at")

-- ---------------------------------------------------------------------------
-- The spanning trees
-- ---------------------------------------------------------------------------

section Lsh

variable {F D : Type} [Scalar F] [Scalar D] [Widen F D]

/-- What the loop of `computeMSTs` has collected. -/
structure MstTotals (D : Type) where
  trajectory : Trajectory
  totalMSTWeight : D
  totalEdges : ℤ

/-- The entry of a Prim step of a group. -/
def PrimStep.toEntry (group : List ℕ) (s : PrimStep F) : ℤ × ℤ :=
  (group.getD s.node 0, match s.parent with
    | none => -1
    | some parent => group.getD parent 0)

/-- The body of the loop of `computeMSTs`: one group. -/
def mstOfGroup (query : ℤ → F) (dim : ℕ) (use_l2 : Bool) (totals : MstTotals D)
    (info : GroupInfo) : Run (MstTotals D) :=
  let group := info.group
  let n := group.length
  if n = 1 then
    pure { totals with trajectory := totals.trajectory ++ [((group.getD 0 0 : ℤ), -1)] }
  else do
    let steps ← primLoop n fun curr v =>
      metricDistance use_l2 query dim (group.getD curr 0) (group.getD v 0)
    let groupMSTWeight := steps.foldl (fun weight s => weight + s.weight) 0
    pure {
      trajectory := totals.trajectory ++ steps.map (PrimStep.toEntry group)
      totalMSTWeight := totals.totalMSTWeight + widen groupMSTWeight
      totalEdges := totals.totalEdges + (n - 1) }

/-- `computeMSTs` -/
def computeMSTs (Q : PriorityQueue GroupInfo) (query : ℤ → F) (n_query dim : ℕ) (use_l2 : Bool)
    (pq : Q.Heap) (gen : Gen) : Run ((Trajectory × D) × Gen) := do
  let totals ← (Q.drain pq).foldlM (mstOfGroup query dim use_l2) ⟨[], (0 : D), 0⟩
  let weight ← getWeightForRoot (D := D) query n_query dim gen 3000
  pure ((totals.trajectory,
    (totals.totalMSTWeight + Scalar.ofInt (n_query - totals.totalEdges) * weight.1) /
      Scalar.ofInt n_query), weight.2)

/-- `optimize_trajectory_lsh_mst`, without the duration it measures. -/
def optimizeTrajectoryLshMst (Q : PriorityQueue GroupInfo) (normDist : ℕ → F) (query : ℤ → F)
    (n_query dim : ℕ) (use_l2 : Bool) (params : Params) (gen : Gen) :
    Run ((Trajectory × D) × Gen) := do
  let B := params.get "B"
  let hyperplane ← generateRandomHyperplane normDist B 1 dim
  let pq ← split Q query hyperplane n_query dim B
  computeMSTs Q query n_query dim use_l2 pq gen

-- ---------------------------------------------------------------------------
-- One group
-- ---------------------------------------------------------------------------

omit [Scalar F] in
theorem toEntry_eq (group : List ℕ) (s : PrimStep F) :
    s.toEntry group = toGlobal group s.entry := by
  unfold PrimStep.toEntry PrimStep.entry toGlobal
  cases s.parent with
  | none => simp
  | some p => simp

omit [Scalar F] in
theorem map_toEntry (group : List ℕ) (steps : List (PrimStep F)) :
    steps.map (PrimStep.toEntry group) = (steps.map PrimStep.entry).map (toGlobal group) := by
  rw [List.map_map]
  exact List.map_congr_left fun s _ => toEntry_eq group s

/-- The weights of the Prim loop of a group. -/
def groupDistance (use_l2 : Bool) (query : ℤ → F) (dim : ℕ) (group : List ℕ) (curr v : ℕ) : F :=
  metricDistance use_l2 query dim (group.getD curr 0) (group.getD v 0)

/-- The weights between different members of a group are finite. -/
theorem FiniteDistances.group {use_l2 : Bool} {query : ℤ → F} {dim n_query : ℕ}
    (hfin : FiniteDistances use_l2 query dim n_query) {group : List ℕ}
    (hgroup : IsGroup n_query group) :
    ∀ i < group.length, ∀ j < group.length, i ≠ j →
      metricDistance use_l2 query dim (group.getD i 0) (group.getD j 0) < Scalar.infinity := by
  intro i hi j hj hij
  rw [List.getD_eq_getElem _ _ hi, List.getD_eq_getElem _ _ hj]
  refine hfin _ (hgroup.bound _ (List.getElem_mem hi)) _ (hgroup.bound _ (List.getElem_mem hj)) ?_
  exact fun he => hij ((hgroup.nodup.getElem_inj_iff).mp he)

theorem PrimSteps.localForest {n : ℕ} {d : ℕ → ℕ → F} {steps : List (PrimStep F)}
    (h : PrimSteps n d steps) (hlen : steps.length = n) :
    LocalForest n (steps.map PrimStep.entry) :=
  ⟨h.entries_perm hlen, h.topological⟩

/-- **One group.** With finite distances the group adds one rooted tree over
its members. -/
theorem mstOfGroup_spec {use_l2 : Bool} {query : ℤ → F} {dim n_query : ℕ}
    (hfin : FiniteDistances use_l2 query dim n_query) {info : GroupInfo}
    (hgroup : IsGroup n_query info.group) (totals : MstTotals D) :
    ∃ totals' t, Returns (mstOfGroup query dim use_l2 totals info) totals' ∧
      totals'.trajectory = totals.trajectory ++ t ∧ GroupForest [info.group] t ∧
      t.countP (fun e => e.2 = -1) = 1 := by
  unfold mstOfGroup
  dsimp only
  split
  · next hone =>
    refine ⟨_, [((info.group.getD 0 0 : ℤ), -1)], returns_pure _, rfl, ?_, rfl⟩
    have : GroupForest [info.group] ([(0, -1)].map (toGlobal info.group)) :=
      groupForest_toGlobal (hone ▸ localForest_singleton)
    simpa [toGlobal] using this
  · have hpos : 0 < info.group.length := List.length_pos_iff.mpr hgroup.nonempty
    obtain ⟨steps, hret, hsteps, hlen⟩ := primLoop_spec hpos (hfin.group hgroup)
    have htree := hsteps.localForest hlen
    refine ⟨_, steps.map (PrimStep.toEntry info.group), hret.bind (returns_pure _), rfl, ?_, ?_⟩
    · rw [map_toEntry]
      exact groupForest_toGlobal htree
    · rw [map_toEntry, countP_root_toGlobal _ htree]
      exact hsteps.countP_root (List.length_pos_iff.mp (hlen ▸ hpos))

-- ---------------------------------------------------------------------------
-- All groups
-- ---------------------------------------------------------------------------

variable {Q : PriorityQueue GroupInfo}

/-- The groups in the order in which they leave the heap. -/
def groupsOf (Q : PriorityQueue GroupInfo) (pq : Q.Heap) : List (List ℕ) :=
  (Q.drain pq).map GroupInfo.group

/-- The loop of `computeMSTs` ends with a forest over the groups, one root for each. -/
theorem mstOfGroups_spec {use_l2 : Bool} {query : ℤ → F} {dim n_query : ℕ}
    (hfin : FiniteDistances use_l2 query dim n_query) {pq : Q.Heap}
    (hpart : GroupPartition n_query (Q.elems pq)) :
    ∃ totals : MstTotals D,
      Returns ((Q.drain pq).foldlM (mstOfGroup query dim use_l2) ⟨[], (0 : D), 0⟩) totals ∧
      GroupForest (groupsOf Q pq) totals.trajectory ∧
      totals.trajectory.countP (fun e => e.2 = -1) = Q.size pq := by
  have hstep : ∀ pre info post (totals : MstTotals D), Q.drain pq = pre ++ info :: post →
      (GroupForest (pre.map GroupInfo.group) totals.trajectory ∧
        totals.trajectory.countP (fun e => e.2 = -1) = pre.length) →
      ∃ totals', Returns (mstOfGroup query dim use_l2 totals info) totals' ∧
        GroupForest ((pre ++ [info]).map GroupInfo.group) totals'.trajectory ∧
        totals'.trajectory.countP (fun e => e.2 = -1) = (pre ++ [info]).length := by
    rintro pre info post totals hdrain ⟨hforest, hroots⟩
    have hmem : info ∈ Q.elems pq := Q.mem_drain.mp (by rw [hdrain]; simp)
    obtain ⟨totals', t, hret, htraj, ht, hone⟩ :=
      mstOfGroup_spec hfin (hpart.isGroup hmem) totals
    refine ⟨totals', hret, ?_, ?_⟩
    · rw [htraj, List.map_append]
      exact hforest.append ht
    · rw [htraj, List.countP_append, hroots, hone, List.length_append, List.length_singleton]
  obtain ⟨totals, htotals, hforest, hroots⟩ := foldlM_returns
    (fun pre (totals : MstTotals D) => GroupForest (pre.map GroupInfo.group) totals.trajectory ∧
      totals.trajectory.countP (fun e => e.2 = -1) = pre.length) hstep
    (s := ⟨[], (0 : D), 0⟩) ⟨groupForest_nil, rfl⟩
  exact ⟨totals, htotals, hforest, by rw [hroots, Q.length_drain]⟩

/-- **`computeMSTs`.** The trajectory is a forest over the groups with one root
for each. -/
theorem computeMSTs_spec {use_l2 : Bool} {query : ℤ → F} {dim n_query : ℕ} (hn : 0 < n_query)
    (hfin : FiniteDistances use_l2 query dim n_query) {gen : Gen} (hgen : Varies n_query gen)
    {pq : Q.Heap} (hpart : GroupPartition n_query (Q.elems pq)) :
    ∃ r : (Trajectory × D) × Gen, Returns (computeMSTs Q query n_query dim use_l2 pq gen) r ∧
      GroupForest (groupsOf Q pq) r.1.1 ∧ r.1.1.countP (fun e => e.2 = -1) = Q.size pq := by
  obtain ⟨totals, htotals, hforest, hroots⟩ := mstOfGroups_spec (D := D) hfin hpart
  obtain ⟨weight, hweight⟩ := getWeightForRoot_returns (D := D) query hn dim hgen 3000
  exact ⟨_, htotals.bind (hweight.bind (returns_pure _)), hforest, hroots⟩

/-- The groups that `split` returns for the hyperplanes drawn. -/
def SplitResult (Q : PriorityQueue GroupInfo) (normDist : ℕ → F) (query : ℤ → F)
    (n_query dim : ℕ) (B : ℤ) (pq : Q.Heap) : Prop :=
  ∃ hyperplane, Returns (generateRandomHyperplane normDist B 1 dim) hyperplane ∧
    Returns (split Q query hyperplane n_query dim B) pq

/-- **The hyperplanes and the groups**: both are there exactly if the number of values drawn is
an `int`. -/
theorem splitResult_iff (Q : PriorityQueue GroupInfo) (normDist : ℕ → F) (query : ℤ → F)
    {n_query : ℕ} (hn : 0 < n_query) (dim : ℕ) {B : ℤ} (hB : 1 ≤ B) :
    (∃ pq, SplitResult Q normDist query n_query dim B pq) ↔ (B - 1) * dim < 2 ^ 31 := by
  rw [← generateRandomHyperplane_rows normDist hB dim]
  constructor
  · rintro ⟨pq, hyperplane, hhyp, hsplit⟩
    exact ⟨hyperplane, hhyp,
      (returns_iff_of_ends (split_ends Q hn query hyperplane B)).mp ⟨pq, hsplit⟩⟩
  · rintro ⟨hyperplane, hhyp, hrows⟩
    obtain ⟨pq, hsplit, -⟩ := split_spec Q hn query hB hrows
    exact ⟨pq, hyperplane, hhyp, hsplit⟩

theorem SplitResult.unique {normDist : ℕ → F} {query : ℤ → F} {n_query dim : ℕ} {B : ℤ}
    {pq pq' : Q.Heap} (h : SplitResult Q normDist query n_query dim B pq)
    (h' : SplitResult Q normDist query n_query dim B pq') : pq = pq' := by
  obtain ⟨hyperplane, hhyp, hsplit⟩ := h
  obtain ⟨hyperplane', hhyp', hsplit'⟩ := h'
  obtain rfl := hhyp.unique hhyp'
  exact hsplit.unique hsplit'

/-- With `B = 1` nothing is split. -/
theorem splitResult_one (Q : PriorityQueue GroupInfo) (normDist : ℕ → F) (query : ℤ → F)
    (n_query dim : ℕ) :
    SplitResult Q normDist query n_query dim 1 (Q.push Q.empty ⟨List.range n_query, n_query⟩) := by
  obtain ⟨hyperplane, hret, -⟩ :=
    generateRandomHyperplane_spec normDist (le_refl 1) (show (1 - 1) * (dim : ℤ) < 2 ^ 31 by simp)
  exact ⟨hyperplane, hret, foldlM_nil _ _⟩

/-- What `split` returns is a partition of the queries into at most `B` groups. -/
theorem SplitResult.spec {normDist : ℕ → F} {query : ℤ → F} {n_query dim : ℕ} (hn : 0 < n_query)
    {B : ℤ} (hB : 1 ≤ B) {pq : Q.Heap} (h : SplitResult Q normDist query n_query dim B pq) :
    GroupPartition n_query (Q.elems pq) ∧ (Q.size pq : ℤ) ≤ B := by
  obtain ⟨hyperplane, -, hsplit⟩ := h
  have hrows := (returns_iff_of_ends (split_ends Q hn query hyperplane B)).mp ⟨pq, hsplit⟩
  obtain ⟨pq', hsplit', hspec⟩ := split_spec Q hn query hB hrows
  exact hsplit.unique hsplit' ▸ hspec

/-- **The option `lsh`.** `split` returns at most `B` groups, and the trajectory
is a forest over them with one root for each. -/
theorem optimizeTrajectoryLshMst_spec {use_l2 : Bool} {query : ℤ → F} {dim n_query : ℕ}
    (hn : 0 < n_query) (hfin : FiniteDistances use_l2 query dim n_query) {gen : Gen}
    (hgen : Varies n_query gen) (normDist : ℕ → F) {params : Params} (hB : 1 ≤ params.get "B")
    (hfit : (params.get "B" - 1) * dim < 2 ^ 31) :
    ∃ pq, ∃ r : (Trajectory × D) × Gen,
      SplitResult Q normDist query n_query dim (params.get "B") pq ∧
      Returns (optimizeTrajectoryLshMst Q normDist query n_query dim use_l2 params gen) r ∧
      GroupPartition n_query (Q.elems pq) ∧ (Q.size pq : ℤ) ≤ params.get "B" ∧
      GroupForest (groupsOf Q pq) r.1.1 ∧ r.1.1.countP (fun e => e.2 = -1) = Q.size pq := by
  obtain ⟨pq, hres⟩ := (splitResult_iff Q normDist query hn dim hB).mpr hfit
  obtain ⟨hpart, hsize⟩ := hres.spec hn hB
  obtain ⟨hyperplane, hhyp, hsplit⟩ := hres
  obtain ⟨r, hr, hforest, hroots⟩ := computeMSTs_spec (D := D) hn hfin hgen hpart
  exact ⟨pq, r, ⟨hyperplane, hhyp, hsplit⟩, hhyp.bind (hsplit.bind hr), hpart, hsize, hforest,
    hroots⟩

/-- Where the option returns, `split` has returned. -/
theorem splitResult_of_lsh {query : ℤ → F} {n_query dim : ℕ} {use_l2 : Bool} {normDist : ℕ → F}
    {params : Params} {gen : Gen} {r : (Trajectory × D) × Gen}
    (h : Returns (optimizeTrajectoryLshMst Q normDist query n_query dim use_l2 params gen) r) :
    ∃ pq, SplitResult Q normDist query n_query dim (params.get "B") pq := by
  obtain ⟨hyperplane, hhyp, h⟩ := h.of_bind
  obtain ⟨pq, hsplit, -⟩ := h.of_bind
  exact ⟨pq, hyperplane, hhyp, hsplit⟩

end Lsh

end Mqo
