import Mqo.Trajectory.LshWeights
import Mqo.Trajectory.RowsOutside

/-!
# MQO — `mixed_modified` on small groups is `lsh`

While no group of `split` has more than 500 members,
`optimize_trajectory_mixed_modified_mst` takes its exact branch for every group
of two or more. That branch is a second copy of the Prim loop of `computeMSTs`,
on local indices and with another way of adding up the weights.

* `mixedGroup_of_mstOfGroup` — a group adds the same entries in both;
* `sameLists_iff` — so the lists are the same, wherever the hyperplanes can be drawn;
* `mixedModified_agrees_lsh_iff` — in exact arithmetic so are the averages, and among at most
  500 queries the rows have to fit as well.
-/

namespace Mqo

open Prog StackTraversal Exact IntOffset

section Lists

variable {F D : Type} [Scalar F] [Scalar D] [Widen F D] {Q : PriorityQueue GroupInfo}
  {edgeQueue : PriorityQueue (PrimStep F)} {builders : Builders F} {base_only use_l2 : Bool}
  {M ef_construction : ℤ} {query : ℤ → F} {dim : ℕ}

/-- **One group** of at most 500 members adds the same entries in both. -/
theorem mixedGroup_of_mstOfGroup {gi : GroupInfo} (hne : gi.group ≠ [])
    (hsmall : gi.group.length ≤ 500) {totals totals' : MstTotals D} {mixed : MixedTotals D}
    (h : totals.trajectory = mixed.fullTrajectory)
    (hret : Returns (mstOfGroup query dim use_l2 totals gi) totals') :
    ∃ mixed', Returns (mixedGroup edgeQueue builders base_only use_l2 M ef_construction query dim
        mixed gi) mixed' ∧ totals'.trajectory = mixed'.fullTrajectory := by
  have hpos : 0 < gi.group.length := List.length_pos_iff.mpr hne
  unfold mstOfGroup at hret
  unfold mixedGroup
  dsimp only at hret ⊢
  by_cases hone : gi.group.length = 1
  · rw [if_pos hone] at hret
    rw [if_pos (by omega), hret.of_pure]
    exact ⟨_, returns_pure _, by rw [h]⟩
  · rw [if_neg hone] at hret
    rw [if_neg (by omega), if_pos hsmall]
    obtain ⟨steps, hsteps, htotals⟩ := hret.of_bind
    have hexact : Returns (exactGroup (D := D) query dim use_l2 gi.group) (steps.map PrimStep.entry,
        steps.foldl (fun (weight : D) s => weight + widen s.weight) 0 /
          Scalar.ofInt (gi.group.length - 1)) := hsteps.bind (returns_pure _)
    refine ⟨_, hexact.bind (returns_pure _), ?_⟩
    rw [htotals.of_pure]
    simp only [MixedTotals.add, h, map_toEntry]

/-- So do all groups, in the order in which they leave the heap. -/
theorem mixedGroups_of_mstOfGroups (edgeQueue : PriorityQueue (PrimStep F)) (builders : Builders F)
    {pq : Q.Heap} (hne : ∀ gi ∈ Q.elems pq, gi.group ≠ [])
    (hsmall : ∀ gi ∈ Q.elems pq, gi.group.length ≤ 500) {totals : MstTotals D}
    (h : Returns ((Q.drain pq).foldlM (mstOfGroup query dim use_l2) ⟨[], (0 : D), 0⟩) totals) :
    ∃ mixed, Returns ((Q.drain pq).foldlM (mixedGroup edgeQueue builders base_only use_l2 M
        ef_construction query dim) ⟨[], (0 : D), 0⟩) mixed ∧
      totals.trajectory = mixed.fullTrajectory :=
  foldlM_sim (fun (totals : MstTotals D) (mixed : MixedTotals D) =>
      totals.trajectory = mixed.fullTrajectory)
    (fun _ _ gi hgi _ heq hret => mixedGroup_of_mstOfGroup (hne gi (Q.mem_drain.mp hgi))
      (hsmall gi (Q.mem_drain.mp hgi)) heq hret) rfl h

/-- The two options are called with the same `B`. -/
structure SameB (lshParams mixedParams : Params) (B M : ℤ) : Prop where
  one    : 1 ≤ B
  lshB   : lshParams.get "B" = B
  mixedB : mixedParams "B" = some B
  mixedM : mixedParams "M" = some M

/-- All groups of `split` are small. -/
def SmallGroups (Q : PriorityQueue GroupInfo) (normDist : ℕ → F) (query : ℤ → F) (n_query dim : ℕ)
    (B : ℤ) : Prop :=
  ∀ pq, SplitResult Q normDist query n_query dim B pq →
    ∀ gi ∈ Q.elems pq, gi.group.length ≤ 500

/-- The two options return the same list, whatever their averages, when `weight` and `weight'` are
what they draw for the roots. -/
def SameLists (D : Type) [Scalar D] [Widen F D] (Q : PriorityQueue GroupInfo)
    (edgeQueue : PriorityQueue (PrimStep F)) (builders : Builders F) (normDist : ℕ → F)
    (query : ℤ → F) (n_query dim : ℕ) (use_l2 : Bool) (lshParams mixedParams : Params)
    (gen gen' : Gen) (weight weight' : D × Gen) : Prop :=
  ∃ (t : Trajectory) (average average' : D),
    Returns (optimizeTrajectoryLshMst Q normDist query n_query dim use_l2 lshParams gen)
      ((t, average), weight.2) ∧
    Returns (optimizeTrajectoryMixedModifiedMst Q normDist edgeQueue builders query n_query dim
      use_l2 mixedParams gen') ((t, average'), weight'.2)

variable {normDist : ℕ → F} {n_query : ℕ} {lshParams mixedParams : Params} {B : ℤ}

/-- With their hyperplanes both options return, with the same list, whatever is drawn for the
roots. -/
theorem both_return (edgeQueue : PriorityQueue (PrimStep F)) (builders : Builders F)
    (hn : 0 < n_query) (hcall : SameB lshParams mixedParams B M)
    (hsmall : SmallGroups Q normDist query n_query dim B)
    (hfin : FiniteDistances use_l2 query dim n_query) (hfit : (B - 1) * dim < 2 ^ 31) :
    ∃ (pq : Q.Heap) (totals : MstTotals D) (mixed : MixedTotals D),
      GroupPartition n_query (Q.elems pq) ∧ (∀ gi ∈ Q.elems pq, gi.group.length ≤ 500) ∧
      Returns ((Q.drain pq).foldlM (mstOfGroup query dim use_l2) ⟨[], 0, 0⟩) totals ∧
      Returns ((Q.drain pq).foldlM (mixedGroup edgeQueue builders mixedParams.baseOnly use_l2 M
        ((mixedParams "ef").getD M) query dim) ⟨[], 0, 0⟩) mixed ∧
      totals.trajectory = mixed.fullTrajectory ∧
      (∀ gen weight, Returns (getWeightForRoot (D := D) query n_query dim gen 3000) weight →
        Returns (optimizeTrajectoryLshMst Q normDist query n_query dim use_l2 lshParams gen)
          ((totals.trajectory,
            (totals.totalMSTWeight + Scalar.ofInt (n_query - totals.totalEdges) * weight.1) /
              Scalar.ofInt n_query), weight.2)) ∧
      ∀ gen weight, Returns (getWeightForRoot (D := D) query n_query dim gen 3000) weight →
        Returns (optimizeTrajectoryMixedModifiedMst Q normDist edgeQueue builders query n_query dim
            use_l2 mixedParams gen)
          ((mixed.fullTrajectory, averageWeight mixed n_query weight.1), weight.2) := by
  obtain ⟨pq, hres⟩ := (splitResult_iff Q normDist query hn dim hcall.one).mpr hfit
  obtain ⟨hpart, -⟩ := hres.spec hn hcall.one
  have hgroups := hsmall pq hres
  obtain ⟨hyperplane, hhyp, hsplit⟩ := hres
  obtain ⟨totals, htotals, -⟩ := mstOfGroups_spec (D := D) hfin hpart
  obtain ⟨mixed, hmixed, heq⟩ := mixedGroups_of_mstOfGroups edgeQueue builders hpart.nonempty
    hgroups htotals
  refine ⟨pq, totals, mixed, hpart, hgroups, htotals, hmixed, heq, fun gen weight hweight => ?_,
    fun gen weight hweight => ?_⟩
  · rw [optimizeTrajectoryLshMst, hcall.lshB]
    exact hhyp.bind (hsplit.bind (htotals.bind (hweight.bind (returns_pure _))))
  · exact (lookup_returns hcall.mixedB).bind ((lookup_returns hcall.mixedM).bind (hhyp.bind
      (hsplit.bind (hmixed.bind (hweight.bind (returns_pure _))))))

/-- Where `lsh` returns, `split` has its hyperplanes. -/
theorem SameB.fits (hcall : SameB lshParams mixedParams B M) (hn : 0 < n_query) {gen : Gen}
    {r : (Trajectory × D) × Gen}
    (hret : Returns (optimizeTrajectoryLshMst Q normDist query n_query dim use_l2 lshParams gen) r) :
    (B - 1) * dim < 2 ^ 31 := by
  have hres := splitResult_of_lsh hret
  rw [hcall.lshB] at hres
  exact (splitResult_iff Q normDist query hn dim hcall.one).mp hres

/-- **The same lists**, exactly while the number of values drawn for the hyperplanes is an
`int`. -/
theorem sameLists_iff (edgeQueue : PriorityQueue (PrimStep F)) (builders : Builders F)
    (hn : 0 < n_query) (hcall : SameB lshParams mixedParams B M)
    (hsmall : SmallGroups Q normDist query n_query dim B)
    (hfin : FiniteDistances use_l2 query dim n_query) {gen gen' : Gen} {weight weight' : D × Gen}
    (hweight : Returns (getWeightForRoot query n_query dim gen 3000) weight)
    (hweight' : Returns (getWeightForRoot query n_query dim gen' 3000) weight') :
    SameLists D Q edgeQueue builders normDist query n_query dim use_l2 lshParams mixedParams gen gen'
      weight weight' ↔ (B - 1) * dim < 2 ^ 31 := by
  constructor
  · rintro ⟨t, average, average', hlsh, -⟩
    exact hcall.fits hn hlsh
  · intro hfit
    obtain ⟨pq, totals, mixed, -, -, -, -, heq, hlsh, hmixed⟩ :=
      both_return (D := D) edgeQueue builders hn hcall hsmall hfin hfit
    exact ⟨_, _, _, hlsh gen weight hweight, heq ▸ hmixed gen' weight' hweight'⟩

omit [Widen F D] [Scalar D] in
/-- Among at most 500 queries all groups are small. -/
theorem smallGroups_of_le (hn : 0 < n_query) (hsmall : n_query ≤ 500) (hB : 1 ≤ B) :
    SmallGroups Q normDist query n_query dim B := by
  intro pq hres gi hgi
  exact ((hres.spec hn hB).1.isGroup hgi).length_le.trans hsmall

end Lists

section Averages

variable {Q : PriorityQueue GroupInfo} {edgeQueue : PriorityQueue (PrimStep (Exact ℝ))}
  {builders : Builders (Exact ℝ)} {base_only use_l2 : Bool} {M ef_construction : ℤ} {x : ℤ → ℝ}
  {n_query dim : ℕ}

/-- On small groups the two ways of adding up the weights agree. -/
theorem totals_agree {pq : Q.Heap} (hpart : GroupPartition n_query (Q.elems pq))
    (hsmall : ∀ gi ∈ Q.elems pq, gi.group.length ≤ 500) {totals : MstTotals (Exact ℝ)}
    {mixed : MixedTotals (Exact ℝ)}
    (htotals : Returns ((Q.drain pq).foldlM (mstOfGroup (finMatrix x) dim use_l2) ⟨[], 0, 0⟩) totals)
    (hmixed : Returns ((Q.drain pq).foldlM (mixedGroup edgeQueue builders base_only use_l2 M
      ef_construction (finMatrix x) dim) ⟨[], 0, 0⟩) mixed)
    (heq : totals.trajectory = mixed.fullTrajectory) :
    totals.totalMSTWeight = mixed.sumWeights ∧ totals.totalEdges = mixed.sumEdges := by
  have hfin := finiteDistances_fin use_l2 x dim n_query
  obtain ⟨trees, totals', hret, hmin, hof⟩ := mstOfGroups_minimum use_l2 x dim hpart.cover
    hpart.nonempty
  obtain rfl := htotals.unique hret
  have hbuild : ∀ gi ∈ Q.elems pq, 500 < gi.group.length →
      BuildInRange builders base_only use_l2 M ef_construction (finMatrix x) dim gi.group :=
    fun gi hgi hbig => absurd hbig (Nat.not_lt.mpr (hsmall gi hgi))
  have hfit : ∀ gi ∈ Q.elems pq, 500 < gi.group.length → gi.group.length * dim < 2 ^ 31 :=
    fun gi hgi hbig => absurd hbig (Nat.not_lt.mpr (hsmall gi hgi))
  obtain ⟨mixed', hret', hadded⟩ := mixedGroups_spec (D := Exact ℝ) edgeQueue hfin hpart hfit hbuild
  obtain rfl := hmixed.unique hret'
  have haccounts : Accounts (exactDistance use_l2 x dim) mixed := by
    refine (hadded.mono fun grp hgrp hone loc hloc => ?_).accounts
    obtain ⟨gi, hgi, rfl⟩ := List.mem_map.mp hgrp
    have hmem := Q.mem_drain.mp hgi
    have hnot := Nat.not_lt.mpr (hsmall gi hmem)
    exact hloc.localWeight hfin (hpart.isGroup hmem) hone (fun hbig => absurd hbig hnot)
      (fun hbig => absurd hbig hnot) fun hbig => absurd hbig hnot
  refine ⟨?_, ?_⟩
  · rw [hof.weight, haccounts.weight, ← heq, hof.trajectory]
  · rw [hof.edges, haccounts.edges, ← heq, hof.trajectory, (minimumTrees_counts hmin).2]

end Averages

/-- The row that is misread keeps `lsh` from returning on zeros. -/
theorem not_sameLists_nanBefore {D : Type} [Scalar D] [Widen (Exact ℝ) D]
    {Q : PriorityQueue GroupInfo} {edgeQueue : PriorityQueue (PrimStep (Exact ℝ))}
    {builders : Builders (Exact ℝ)} {normDist : ℕ → Exact ℝ} {n_query dim : ℕ} {use_l2 : Bool}
    {lshParams mixedParams : Params} {B M : ℤ} (hn : 0 < n_query) (hdim : dim < 2 ^ 31)
    (hcall : SameB lshParams mixedParams B M) (hover : ¬ RowsFit n_query dim) {gen gen' : Gen}
    {weight weight' : D × Gen} :
    ¬ SameLists D Q edgeQueue builders normDist nanBefore n_query dim use_l2 lshParams mixedParams
      gen gen' weight weight' := by
  rintro ⟨t, average, average', hlsh, -⟩
  have hB : 1 ≤ lshParams.get "B" := hcall.lshB ▸ hcall.one
  obtain ⟨pq, hres⟩ := splitResult_of_lsh hlsh
  refine not_spread_nanBefore use_l2 hdim hover (spread_of_lsh hn hB hlsh hres ⟨_, n_query⟩ ?_)
  rw [hres.nanBefore hn]
  exact Multiset.mem_singleton_self _

/-- **`mixed_modified` and `lsh`.** While all groups of `split` are small, the two
options return the same list exactly if the number of values drawn for the hyperplanes is an
`int`; in exact arithmetic and for the same weight of a root they then also return the same
average. The distances have to be finite as they are read, or those of rows that fit. Among at
most 500 queries the rows have to fit, if the lists are to be the same for all matrices whose
rows have finite distances. -/
theorem mixedModified_agrees_lsh_iff (Q : PriorityQueue GroupInfo) {n_query dim : ℕ}
    (hn : 2 ≤ n_query) (hdim : dim < 2 ^ 31) (use_l2 : Bool) {lshParams mixedParams : Params}
    {B M : ℤ} (hcall : SameB lshParams mixedParams B M) (gen gen' : Gen) :
    (∀ (F D : Type) [Scalar F] [Scalar D] [Widen F D] (edgeQueue : PriorityQueue (PrimStep F))
      (builders : Builders F) (normDist : ℕ → F) (query : ℤ → F) (weight weight' : D × Gen),
      SmallGroups Q normDist query n_query dim B →
      (FiniteDistances use_l2 query dim n_query ∨
        FiniteRows use_l2 query dim n_query ∧ n_query * dim ≤ 2 ^ 31) →
      Returns (getWeightForRoot query n_query dim gen 3000) weight →
      Returns (getWeightForRoot query n_query dim gen' 3000) weight' →
      (SameLists D Q edgeQueue builders normDist query n_query dim use_l2 lshParams mixedParams gen
        gen' weight weight' ↔ (B - 1) * dim < 2 ^ 31)) ∧
    (∀ (edgeQueue : PriorityQueue (PrimStep (Exact ℝ))) (builders : Builders (Exact ℝ))
      (normDist : ℕ → Exact ℝ) (x : ℤ → ℝ) (weight weight' : Exact ℝ × Gen),
      SmallGroups Q normDist (finMatrix x) n_query dim B →
      Returns (getWeightForRoot (finMatrix x) n_query dim gen 3000) weight →
      Returns (getWeightForRoot (finMatrix x) n_query dim gen' 3000) weight' →
      weight.1 = weight'.1 →
      ((∃ (t : Trajectory) (average : Exact ℝ),
        Returns (optimizeTrajectoryLshMst Q normDist (finMatrix x) n_query dim use_l2 lshParams gen)
          ((t, average), weight.2) ∧
        Returns (optimizeTrajectoryMixedModifiedMst Q normDist edgeQueue builders (finMatrix x)
          n_query dim use_l2 mixedParams gen') ((t, average), weight'.2)) ↔
        (B - 1) * dim < 2 ^ 31)) ∧
    (n_query ≤ 500 → Varies n_query gen → Varies n_query gen' →
      ∀ (edgeQueue : PriorityQueue (PrimStep (Exact ℝ))) (builders : Builders (Exact ℝ))
        (normDist : ℕ → Exact ℝ),
      ((∀ (query : ℤ → Exact ℝ) (weight weight' : Exact ℝ × Gen),
        FiniteRows use_l2 query dim n_query →
        Returns (getWeightForRoot query n_query dim gen 3000) weight →
        Returns (getWeightForRoot query n_query dim gen' 3000) weight' →
        SameLists (Exact ℝ) Q edgeQueue builders normDist query n_query dim use_l2 lshParams
          mixedParams gen gen' weight weight') ↔
        (B - 1) * dim < 2 ^ 31 ∧ n_query * dim ≤ 2 ^ 31)) := by
  have hpos : 0 < n_query := by omega
  refine ⟨?_, ?_, ?_⟩
  · intro F D _ _ _ edgeQueue builders normDist query weight weight' hsmall hfin hweight hweight'
    have hread : FiniteDistances use_l2 query dim n_query := by
      rcases hfin with hfin | ⟨hrows, hfit⟩
      · exact hfin
      · exact hrows.distances hfit
    exact sameLists_iff edgeQueue builders hpos hcall hsmall hread hweight hweight'
  · intro edgeQueue builders normDist x weight weight' hsmall hweight hweight' hw
    constructor
    · rintro ⟨t, average, hlsh, -⟩
      exact hcall.fits hpos hlsh
    · intro hfit
      obtain ⟨pq, totals, mixed, hpart, hgroups, htotals, hloop, heq, hlsh, hmixed⟩ :=
        both_return (D := Exact ℝ) edgeQueue builders hpos hcall hsmall
          (finiteDistances_fin _ _ _ _) hfit
      obtain ⟨hsum, hedges⟩ := totals_agree hpart hgroups htotals hloop heq
      have hret := hmixed gen' weight' hweight'
      rw [averageWeight, ← heq, ← hsum, ← hedges, ← hw] at hret
      exact ⟨_, _, hlsh gen weight hweight, hret⟩
  · intro hle hgen hgen' edgeQueue builders normDist
    have hsmall : ∀ query, SmallGroups Q normDist query n_query dim B := fun query =>
      smallGroups_of_le hpos hle hcall.one
    obtain ⟨weight, hweight⟩ :=
      getWeightForRoot_returns (D := Exact ℝ) nanBefore hpos dim hgen 3000
    obtain ⟨weight', hweight'⟩ :=
      getWeightForRoot_returns (D := Exact ℝ) nanBefore hpos dim hgen' 3000
    constructor
    · intro h
      have hlists := h nanBefore weight weight' (finiteRows_nanBefore use_l2 dim n_query) hweight
        hweight'
      refine ⟨?_, ?_⟩
      · obtain ⟨t, average, average', hlsh, -⟩ := hlists
        exact hcall.fits hpos hlsh
      · by_contra hover
        exact not_sameLists_nanBefore hpos hdim hcall hover hlists
    · rintro ⟨hfit, hrows⟩ query weight weight' hfin hw hw'
      exact (sameLists_iff edgeQueue builders hpos hcall (hsmall query) (hfin.distances hrows) hw
        hw').mpr hfit

/-- Three queries on a line in at most two groups, for all three statements. -/
theorem mixedModified_agrees_lsh_line :
    (∃ weight : Exact ℝ × Gen, SameLists (Exact ℝ) (PriorityQueue.byKey GroupInfo.size)
      (leastWeight ℝ) (chainBuilders (Exact ℝ)) (fun _ => fin 1) (finMatrix fun k => (k : ℝ)) 3 1
      true (groupParams 2) (groupParams 2) (fun k => k) (fun k => k) weight weight) ∧
    (∃ (weight : Exact ℝ × Gen) (t : Trajectory) (average : Exact ℝ),
      Returns (optimizeTrajectoryLshMst (PriorityQueue.byKey GroupInfo.size) (fun _ => fin 1)
        (finMatrix fun k => (k : ℝ)) 3 1 false (groupParams 2) fun k => k)
          ((t, average), weight.2) ∧
      Returns (optimizeTrajectoryMixedModifiedMst (PriorityQueue.byKey GroupInfo.size)
        (fun _ => fin 1) (leastWeight ℝ) (chainBuilders (Exact ℝ)) (finMatrix fun k => (k : ℝ)) 3 1
        false (groupParams 2) fun k => k) ((t, average), weight.2)) ∧
    ∃ weight : Exact ℝ × Gen, SameLists (Exact ℝ) (PriorityQueue.byKey GroupInfo.size)
      (leastWeight ℝ) (chainBuilders (Exact ℝ)) (fun _ => fin 1) nanBefore 3 1 true
      (groupParams 2) (groupParams 2) (fun k => k) (fun k => k) weight weight := by
  have hcall : SameB (groupParams 2) (groupParams 2) 2 2 := ⟨by decide, rfl, rfl, rfl⟩
  have hsmall : SmallGroups (PriorityQueue.byKey GroupInfo.size) (fun _ => fin 1)
      (finMatrix fun k => (k : ℝ)) 3 1 2 := smallGroups_of_le (by decide) (by decide) (by decide)
  have hgen : Varies 3 fun k => k := varies_counting (by decide)
  obtain ⟨w, gen', hw⟩ := getWeightForRoot_fin (fun k => (k : ℝ)) (show 0 < 3 by decide) 1 hgen
  obtain ⟨weight, hweight⟩ :=
    getWeightForRoot_returns (D := Exact ℝ) nanBefore (show 0 < 3 by decide) 1 hgen 3000
  exact ⟨⟨_, ((mixedModified_agrees_lsh_iff _ (by decide) (by decide) true hcall _ _).1 (Exact ℝ)
      (Exact ℝ) _ _ _ _ _ _ hsmall (Or.inl (finiteDistances_fin true _ 1 3)) hw hw).mpr (by decide)⟩,
    ⟨_, ((mixedModified_agrees_lsh_iff _ (by decide) (by decide) false hcall _ _).2.1 _ _ _ _ _ _
      hsmall hw hw rfl).mpr (by decide)⟩,
    ⟨_, ((mixedModified_agrees_lsh_iff _ (by decide) (by decide) true hcall _ _).2.2 (by decide) hgen
      hgen _ _ _).mpr (by decide) nanBefore _ _ (finiteRows_nanBefore true 1 3) hweight hweight⟩⟩

/-- Two queries of 128 dimensions with `B = 16777217`: the hyperplanes would be `2 ^ 31` values,
which is `-2 ^ 31` in `int`, and neither option returns a list. -/
theorem mixedModified_lsh_throw :
    SameB (groupParams 16777217) (groupParams 16777217) 16777217 2 ∧
      SmallGroups (PriorityQueue.byKey GroupInfo.size) (fun _ => fin 1) (finMatrix fun k => (k : ℝ))
        2 128 16777217 ∧
      FiniteRows true (finMatrix fun k => (k : ℝ)) 128 2 ∧
      (∀ gen, Fails (optimizeTrajectoryLshMst (D := Exact ℝ) (PriorityQueue.byKey GroupInfo.size)
        (fun _ => fin 1) (finMatrix fun k => (k : ℝ)) 2 128 true (groupParams 16777217) gen)
        (.exception "std::bad_array_new_length")) ∧
      (∀ gen, Fails (optimizeTrajectoryMixedModifiedMst (D := Exact ℝ)
        (PriorityQueue.byKey GroupInfo.size) (fun _ => fin 1) (leastWeight ℝ)
        (chainBuilders (Exact ℝ)) (finMatrix fun k => (k : ℝ)) 2 128 true (groupParams 16777217) gen)
        (.exception "std::bad_array_new_length")) ∧
      ¬ ∃ (gen gen' : Gen) (weight weight' : Exact ℝ × Gen),
        SameLists (Exact ℝ) (PriorityQueue.byKey GroupInfo.size) (leastWeight ℝ)
          (chainBuilders (Exact ℝ)) (fun _ => fin 1) (finMatrix fun k => (k : ℝ)) 2 128 true
          (groupParams 16777217) (groupParams 16777217) gen gen' weight weight' := by
  have hhyp : Fails (generateRandomHyperplane (fun _ => (fin 1 : Exact ℝ)) 16777217 1 128)
      (.exception "std::bad_array_new_length") :=
    generateRandomHyperplane_fails _ (by norm_num) (by norm_num) (by norm_num)
  have hsmall : SmallGroups (PriorityQueue.byKey GroupInfo.size) (fun _ => (fin 1 : Exact ℝ))
      (finMatrix fun k => (k : ℝ)) 2 128 16777217 :=
    smallGroups_of_le two_pos (by decide) (by norm_num)
  refine ⟨⟨by norm_num, rfl, rfl, rfl⟩, hsmall, finiteRows_fin _ _ _ _, fun gen => hhyp.bind,
    fun gen => ?_, ?_⟩
  · exact (lookup_returns (show groupParams 16777217 "B" = some 16777217 from rfl)).bind_ends
      ((lookup_returns (show groupParams 16777217 "M" = some 2 from rfl)).bind_ends hhyp.bind)
  · rintro ⟨gen, gen', weight, weight', t, average, average', hret, -⟩
    exact hret.not_fails hhyp.bind

end Mqo
