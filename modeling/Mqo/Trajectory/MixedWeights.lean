import Mathlib.Algebra.BigOperators.Group.List.Basic
import Mqo.Trajectory.Exact
import Mqo.Trajectory.Mixed

/-!
# MQO — the weight that `mixed_modified` reports

Over exact reals, the average weight that
`optimize_trajectory_mixed_modified_mst` returns should be the mean of the
distances of its edges, with every root charged at the weight of a random
pair. Each group contributes a local average multiplied by its number of
edges, and the two branches compute edge weights differently: the exact branch
takes the distance of the metric, while `get_neighbors` takes the square root
of the distance of the index, which for `build_ann_base_only` is the squared
Euclidean one and for the inner-product index the inner-product distance
itself.

* `linkMeasures_iff`  — when the distance of a link is that of the exact branch;
* `weightsAgree_iff`  — whatever index is built, the average is the mean of the distances and
  every link measures right exactly when this holds of the members of each group above 500
  (and nothing that is allocated is larger than an `int`);
* `rootAgrees_row`    — for rows of the matrix: the metric is Euclidean, or the root of the index
  distance happens to be their inner-product distance.
-/

namespace Mqo

open Prog StackTraversal Exact IntOffset

-- ---------------------------------------------------------------------------
-- Sums of edge weights
-- ---------------------------------------------------------------------------

/-- The sum of the weights of the entries that are not roots. -/
def treeWeight {K : Type} [Scalar K] (d : ℕ → ℕ → K) (t : Trajectory) : K :=
  t.foldl (fun total e => if e.2 = -1 then total else total + d e.1.toNat e.2.toNat) 0

/-- The real weight of an entry; a root weighs nothing. -/
noncomputable def entryWeight (δ : ℕ → ℕ → ℝ) (e : ℤ × ℤ) : ℝ :=
  if e.2 = -1 then 0 else δ e.1.toNat e.2.toNat

theorem treeWeight_fin {d : ℕ → ℕ → Exact ℝ} {δ : ℕ → ℕ → ℝ} (hd : ∀ i j, d i j = fin (δ i j))
    (t : Trajectory) : treeWeight d t = fin ((t.map (entryWeight δ)).sum) := by
  suffices h : ∀ a : ℝ, t.foldl (fun total e => if e.2 = -1 then total
      else total + d e.1.toNat e.2.toNat) (fin a) = fin (a + (t.map (entryWeight δ)).sum) by
    have := h 0
    rwa [zero_add] at this
  intro a
  induction t generalizing a with
  | nil => simp
  | cons e t ih =>
    rw [List.foldl_cons, List.map_cons, List.sum_cons, ← add_assoc]
    unfold entryWeight at ih ⊢
    split
    · rw [ih, add_zero]
    · rw [hd, fin_add, ih]

/-- The real weight of a step. -/
noncomputable def stepWeight (δ : ℕ → ℕ → ℝ) (it : PrimStep (Exact ℝ)) : ℝ :=
  match it.parent with
  | none => 0
  | some p => δ p it.node

/-- The steps are weighted by `δ`. -/
def WeightedBy (δ : ℕ → ℕ → ℝ) (steps : List (PrimStep (Exact ℝ))) : Prop :=
  ∀ it ∈ steps, (it.parent = none ∧ it.weight = 0) ∨
    ∃ p, it.parent = some p ∧ it.weight = fin (δ p it.node)

theorem WeightedBy.weight {δ : ℕ → ℕ → ℝ} {steps : List (PrimStep (Exact ℝ))}
    (h : WeightedBy δ steps) : ∀ it ∈ steps, it.weight = fin (stepWeight δ it) := by
  intro it hit
  rcases h it hit with ⟨hp, hw⟩ | ⟨p, hp, hw⟩
  · rw [hw, stepWeight, hp]
    rfl
  · rw [hw, stepWeight, hp]

/-- A loop that adds the weights of the steps. -/
theorem foldl_weights {δ : ℕ → ℕ → ℝ} {steps : List (PrimStep (Exact ℝ))}
    (h : WeightedBy δ steps) :
    steps.foldl (fun (total : Exact ℝ) it => total + widen it.weight) 0 =
      fin ((steps.map (stepWeight δ)).sum) := by
  have hfold : steps.foldl (fun (total : Exact ℝ) it => total + widen it.weight) 0 =
      steps.foldl (fun total it => total + fin (stepWeight δ it)) 0 :=
    List.foldl_ext _ _ _ fun total it hit => by rw [widen_self, h.weight it hit]
  rw [hfold, zero_eq, foldl_add_fin, zero_add]

/-- The weight of a step is that of its entry. -/
theorem entryWeight_toGlobal {Δ : ℕ → ℕ → ℝ} (hcomm : ∀ i j, Δ i j = Δ j i) (grp : List ℕ)
    (it : PrimStep (Exact ℝ)) :
    entryWeight Δ (toGlobal grp it.entry) =
      stepWeight (fun p c => Δ (grp.getD p 0) (grp.getD c 0)) it := by
  unfold entryWeight stepWeight toGlobal PrimStep.entry
  cases it.parent with
  | none => simp
  | some p =>
    have hne : ¬ ((grp.getD p 0 : ℕ) : ℤ) = -1 := by omega
    simp only [Int.toNat_natCast, ge_iff_le, Int.natCast_nonneg, if_true, if_neg hne]
    exact hcomm _ _

/-- The number of steps with a parent. -/
theorem countP_edges (steps : List (PrimStep (Exact ℝ))) :
    (((steps.map PrimStep.entry).countP fun e => e.2 ≥ 0 : ℕ) : ℤ) =
      steps.length - steps.countP fun it => it.parent.isNone := by
  have hsplit := List.length_eq_countP_add_countP (fun it : PrimStep (Exact ℝ) => it.parent.isNone)
    (l := steps)
  have hedge : (steps.map PrimStep.entry).countP (fun e => e.2 ≥ 0) =
      steps.countP fun it => ¬ it.parent.isNone := by
    rw [List.countP_map]
    refine List.countP_congr fun it _ => ?_
    simp only [Function.comp, decide_eq_true_eq, entry_edge_iff]
  rw [hedge]
  omega

/-- A local average times the number of edges is the sum of the weights. -/
def LocalWeight (Δ : ℕ → ℕ → ℝ) (grp : List ℕ) (loc : Trajectory × Exact ℝ) : Prop :=
  loc.2 * Scalar.ofInt (loc.1.countP fun e => e.2 ≥ 0 : ℕ) =
    fin (((loc.1.map (toGlobal grp)).map (entryWeight Δ)).sum)

theorem map_entryWeight {Δ : ℕ → ℕ → ℝ} (hcomm : ∀ i j, Δ i j = Δ j i) (grp : List ℕ)
    (steps : List (PrimStep (Exact ℝ))) :
    ((steps.map PrimStep.entry).map (toGlobal grp)).map (entryWeight Δ) =
      steps.map (stepWeight fun p c => Δ (grp.getD p 0) (grp.getD c 0)) := by
  rw [List.map_map, List.map_map]
  exact List.map_congr_left fun it _ => entryWeight_toGlobal hcomm grp it

/-- A nonzero count cancels. -/
theorem div_mul_ofInt (a : ℝ) {k : ℤ} (hk : k ≠ 0) :
    fin a / (Scalar.ofInt k : Exact ℝ) * Scalar.ofInt k = fin a := by
  have hk' : (k : ℝ) ≠ 0 := Int.cast_ne_zero.mpr hk
  rw [ofInt_eq, fin_div hk', fin_mul, div_mul_cancel₀ _ hk']

/-- The steps of the Prim loop of a group are weighted by its distances. -/
theorem PrimSteps.weightedBy {Δ : ℕ → ℕ → ℝ} {grp : List ℕ} {d : ℕ → ℕ → Exact ℝ}
    (hd : ∀ p c, d p c = fin (Δ (grp.getD p 0) (grp.getD c 0)))
    {steps : List (PrimStep (Exact ℝ))} (hsteps : PrimSteps grp.length d steps) :
    WeightedBy (fun p c => Δ (grp.getD p 0) (grp.getD c 0)) steps := by
  intro it hit
  obtain ⟨pre, post, hsplit⟩ := List.append_of_mem hit
  rcases hsteps.ok pre it post hsplit with ⟨-, -, hp, hw⟩ | ⟨p, -, hp, hw⟩
  · exact Or.inl ⟨hp, hw⟩
  · exact Or.inr ⟨p, hp, by rw [hw, hd]⟩

/-- The accounting of the exact branch. -/
theorem exact_localWeight {Δ : ℕ → ℕ → ℝ} (hcomm : ∀ i j, Δ i j = Δ j i) {grp : List ℕ}
    (hgrp : 1 < grp.length) {d : ℕ → ℕ → Exact ℝ}
    (hd : ∀ p c, d p c = fin (Δ (grp.getD p 0) (grp.getD c 0)))
    {steps : List (PrimStep (Exact ℝ))} (hsteps : PrimSteps grp.length d steps)
    (hlen : steps.length = grp.length) :
    LocalWeight Δ grp (steps.map PrimStep.entry,
      steps.foldl (fun (weight : Exact ℝ) s => weight + widen s.weight) 0 /
        Scalar.ofInt (grp.length - 1)) := by
  have hweighted := hsteps.weightedBy hd
  have hone : steps.countP (fun it => it.parent.isNone) = 1 := by
    rw [← countP_root_entry]
    exact hsteps.countP_root (List.length_pos_iff.mp (by omega))
  unfold LocalWeight
  rw [countP_edges, foldl_weights hweighted, hone, hlen, map_entryWeight hcomm]
  exact div_mul_ofInt _ (by omega)

/-- The accounting of the HNSW branch. -/
theorem ann_localWeight {Δ : ℕ → ℕ → ℝ} (hcomm : ∀ i j, Δ i j = Δ j i) {grp : List ℕ}
    {steps : List (PrimStep (Exact ℝ))}
    (hweighted : WeightedBy (fun p c => Δ (grp.getD p 0) (grp.getD c 0)) steps)
    (hlen : steps.length = grp.length) :
    LocalWeight Δ grp (steps.map PrimStep.entry,
      averageOver (steps.foldl (fun (total : Exact ℝ) it => total + widen it.weight) 0)
        (grp.length - steps.countP fun it => it.parent.isNone)) := by
  unfold LocalWeight
  rw [countP_edges, foldl_weights hweighted, hlen, map_entryWeight hcomm]
  dsimp only
  have hle : steps.countP (fun it => it.parent.isNone) ≤ steps.length := List.countP_le_length
  unfold averageOver
  split
  · next hpos => exact div_mul_ofInt _ (by omega)
  · next hzero =>
    -- every step is a root, so nothing has been added up
    have hall : ∀ it ∈ steps, it.parent.isNone = true :=
      List.countP_eq_length.mp (by omega)
    have hsum : (steps.map (stepWeight fun p c => Δ (grp.getD p 0) (grp.getD c 0))).sum = 0 := by
      refine List.sum_eq_zero fun y hy => ?_
      obtain ⟨it, hit, rfl⟩ := List.mem_map.mp hy
      rw [stepWeight, Option.isNone_iff_eq_none.mp (hall it hit)]
    rw [hsum, zero_eq, ofInt_eq, fin_mul, zero_mul]

-- ---------------------------------------------------------------------------
-- The distances of links
-- ---------------------------------------------------------------------------

/-- The condition on two members `q`, `q'` of a group: the index distance of their stored
vectors is the square of the distance that the exact branch computes. -/
def RootAgrees (base_only use_l2 : Bool) (x : ℤ → ℝ) (dim q q' : ℕ) : Prop :=
  let u := pointerRow x dim q
  let u' := pointerRow x dim q'
  if use_l2 then squaredOf dim u u' = exactSquared x dim q q'
  else 0 ≤ exactIp x dim q q' ∧ (if base_only then squaredOf dim u u' else ipOf dim u u') =
    exactIp x dim q q' * exactIp x dim q q'

/-- The same for two rows of the matrix: the metric is Euclidean, or the root of the index
distance is the inner-product distance of the rows. -/
def RowsAgree (base_only use_l2 : Bool) (dim : ℕ) (u u' : ℕ → ℝ) : Prop :=
  use_l2 = true ∨
    if base_only then 0 ≤ ipOf dim u u' ∧ squaredOf dim u u' = ipOf dim u u' * ipOf dim u u'
    else ipOf dim u u' = 0 ∨ ipOf dim u u' = 1

/-- A link between two elements has a distance, and it is the one that the exact branch
would use. -/
def LinkMeasures (use_l2 : Bool) (x : ℤ → ℝ) (dim : ℕ) (grp : List ℕ)
    (index : HierarchicalNSW (Exact ℝ)) (i j : ℕ) : Prop :=
  ∃ y : ℝ, linkDistance index i j = fin y ∧
    metricDistance use_l2 (finMatrix x) dim (grp.getD i 0) (grp.getD j 0) = fin y

/-- The root of a non-negative number. -/
theorem sqrt_eq_iff {a b : ℝ} (ha : 0 ≤ a) : Real.sqrt a = b ↔ 0 ≤ b ∧ a = b * b := by
  constructor
  · rintro rfl
    exact ⟨Real.sqrt_nonneg a, (Real.mul_self_sqrt ha).symm⟩
  · rintro ⟨hb, rfl⟩
    exact Real.sqrt_mul_self hb

/-- A number is its own square if it is `0` or `1`. -/
theorem nonneg_and_eq_mul_self_iff {a : ℝ} : 0 ≤ a ∧ a = a * a ↔ a = 0 ∨ a = 1 := by
  constructor
  · rintro ⟨-, ha⟩
    have hmul : a * (a - 1) = 0 := by linarith
    exact (mul_eq_zero.mp hmul).imp_right fun h => by linarith
  · rintro (rfl | rfl)
    · simp
    · simp

/-- The root of a finite number, where it is defined. -/
theorem sqrt_eq_fin_iff {a b : ℝ} : Scalar.sqrt (fin a) = fin b ↔ 0 ≤ b ∧ a = b * b := by
  by_cases hneg : a < 0
  · rw [sqrt_fin_neg hneg]
    refine ⟨nofun, fun ⟨_, hab⟩ => ?_⟩
    exact absurd (hab ▸ mul_self_nonneg b) (not_le.mpr hneg)
  · rw [sqrt_fin (not_lt.mp hneg), fin_inj, root_real, sqrt_eq_iff (not_lt.mp hneg)]

/-- The root that `get_neighbors` takes agrees exactly under the condition. -/
theorem linkMeasures_iff {base_only use_l2 : Bool} {x : ℤ → ℝ} {dim : ℕ} {grp : List ℕ}
    {index : HierarchicalNSW (Exact ℝ)}
    (hholds : HoldsGroup base_only use_l2 (finMatrix x) dim grp index) {i j : ℕ}
    (hi : i < grp.length) (hj : j < grp.length) :
    LinkMeasures use_l2 x dim grp index i j ↔
      RootAgrees base_only use_l2 x dim (grp.getD i 0) (grp.getD j 0) := by
  unfold LinkMeasures RootAgrees linkDistance
  rw [hholds.dist, hholds.vector i hi, hholds.vector j hj, metricDistance_fin]
  generalize grp.getD i 0 = q
  generalize grp.getD j 0 = q'
  -- the link has the one distance that the exact branch has
  have hone : ∀ d : Exact ℝ, (∃ y, d = fin y ∧
      fin (exactDistance use_l2 x dim q q') = fin y) ↔ d = fin (exactDistance use_l2 x dim q q') :=
    fun d => ⟨fun ⟨y, hd, hy⟩ => hd.trans hy.symm, fun hd => ⟨_, hd, rfl⟩⟩
  rw [hone]
  cases use_l2 with
  | true =>
    have hroot : exactDistance true x dim q q' = Real.sqrt (exactSquared x dim q q') := rfl
    simp only [indexSpace, Bool.or_true, if_true, Space.distFunc]
    rw [l2Sqr_row, hroot, sqrt_fin (squaredOf_nonneg dim _ _), fin_inj, root_real]
    exact Real.sqrt_inj (squaredOf_nonneg dim _ _) (exactSquared_nonneg x dim q q')
  | false =>
    have hip : exactDistance false x dim q q' = exactIp x dim q q' := rfl
    rw [hip]
    cases base_only with
    | true =>
      simp only [indexSpace, Bool.or_false, if_true, Bool.false_eq_true, if_false, Space.distFunc]
      rw [l2Sqr_row, sqrt_eq_fin_iff]
    | false =>
      simp only [indexSpace, Bool.or_false, Bool.false_eq_true, if_false, Space.distFunc]
      rw [innerProductDistance_row, sqrt_eq_fin_iff]

/-- While the rows fit, the condition is one on the rows of the matrix. -/
theorem rootAgrees_row {n q q' : ℕ} {dim : ℕ} (hfit : RowsFit n dim) (hq : q < n) (hq' : q' < n)
    (base_only use_l2 : Bool) (x : ℤ → ℝ) :
    RootAgrees base_only use_l2 x dim q q' ↔
      RowsAgree base_only use_l2 dim (matrixRow x dim q) (matrixRow x dim q') := by
  have hu : ∀ pos < dim, pointerRow x dim q pos = matrixRow x dim q pos :=
    fun _ hpos => pointerRow_eq hfit hq x hpos
  have hu' : ∀ pos < dim, pointerRow x dim q' pos = matrixRow x dim q' pos :=
    fun _ hpos => pointerRow_eq hfit hq' x hpos
  unfold RootAgrees RowsAgree
  dsimp only
  rw [squaredOf_congr hu hu', ipOf_congr hu hu', exactSquared_row hfit hq hq',
    exactIp_row hfit hq hq']
  cases use_l2 with
  | true => simp
  | false =>
    simp only [Bool.false_eq_true, if_false, false_or]
    cases base_only with
    | true => simp
    | false =>
      simp only [Bool.false_eq_true, if_false]
      exact nonneg_and_eq_mul_self_iff

-- ---------------------------------------------------------------------------
-- The weight of a root
-- ---------------------------------------------------------------------------

/-- In exact arithmetic the weight of a root is a finite number. -/
theorem getWeightForRoot_fin (x : ℤ → ℝ) {n_query : ℕ} (hn : 0 < n_query) (dim : ℕ) {gen : Gen}
    (hgen : Varies n_query gen) :
    ∃ (w : ℝ) (gen' : Gen),
      Returns (getWeightForRoot (D := Exact ℝ) (finMatrix x) n_query dim gen 3000) (fin w, gen') := by
  obtain ⟨total, gen', ⟨y, rfl⟩, hret⟩ := getWeightForRoot_spec (finMatrix x) hn dim
    hgen 3000 (fun total : Exact ℝ => ∃ y, total = fin y) ⟨0, rfl⟩ fun total i j htotal => by
      obtain ⟨y, rfl⟩ := htotal
      have hd := metricDistance_fin true x dim i j
      rw [metricDistance, if_pos rfl] at hd
      exact ⟨y + exactDistance true x dim i j, by rw [widen_self, hd, fin_add]⟩
  rw [ofInt_eq, fin_div (by norm_num)] at hret
  exact ⟨_, gen', hret⟩

-- ---------------------------------------------------------------------------
-- All groups
-- ---------------------------------------------------------------------------

/-- The totals account for every entry collected. -/
structure Accounts (Δ : ℕ → ℕ → ℝ) (totals : MixedTotals (Exact ℝ)) : Prop where
  weight : totals.sumWeights = fin ((totals.fullTrajectory.map (entryWeight Δ)).sum)
  edges  : totals.sumEdges =
    totals.fullTrajectory.length - totals.fullTrajectory.countP fun e => e.2 = -1

/-- Adding a group keeps the accounts. -/
theorem Accounts.groupAdded {Δ : ℕ → ℕ → ℝ} {grp : List ℕ} {totals totals' : MixedTotals (Exact ℝ)}
    (h : Accounts Δ totals) (hadd : GroupAdded (LocalWeight Δ grp) grp totals totals') :
    Accounts Δ totals' := by
  rcases hadd with ⟨-, rfl⟩ | ⟨-, loc, hloc, hweight, rfl⟩
  · refine ⟨?_, ?_⟩
    · simp [h.weight, entryWeight]
    · simp [h.edges]
  · have hparent := hloc.parent
    have hedges : ((loc.1.countP fun e => e.2 ≥ 0 : ℕ) : ℤ) =
        loc.1.length - (loc.1.map (toGlobal grp)).countP fun e => e.2 = -1 := by
      rw [countP_root_toGlobal grp hloc]
      have hsplit := List.length_eq_countP_add_countP (fun e : ℤ × ℤ => decide (e.2 = -1))
        (l := loc.1)
      have hcongr : loc.1.countP (fun e => e.2 ≥ 0) =
          loc.1.countP fun e => ¬ decide (e.2 = -1) = true := by
        refine List.countP_congr fun e he => ?_
        simp only [decide_eq_true_eq]
        rcases hparent e he with h | h
        · simp [h]
        · exact ⟨fun _ => by omega, fun _ => h⟩
      rw [hcongr]
      omega
    refine ⟨?_, ?_⟩
    · show totals.sumWeights + loc.2 * Scalar.ofInt _ = _
      rw [hweight, h.weight, fin_add]
      simp [MixedTotals.add]
    · show totals.sumEdges + _ = _
      rw [hedges, h.edges]
      simp only [MixedTotals.add, List.length_append, List.length_map, List.countP_append]
      omega

theorem GroupsAdded.accounts {Δ : ℕ → ℕ → ℝ} {groups : List (List ℕ)}
    {totals : MixedTotals (Exact ℝ)} (h : GroupsAdded (LocalWeight Δ) groups totals) :
    Accounts Δ totals := by
  induction h with
  | nil => exact ⟨rfl, rfl⟩
  | concat _ hadd ih => exact ih.groupAdded hadd

theorem GroupsAdded.mono {K : Type} [Scalar K] {R R' : List ℕ → Trajectory × K → Prop}
    {groups : List (List ℕ)} {totals : MixedTotals K} (h : GroupsAdded R groups totals)
    (himp : ∀ grp ∈ groups, 1 < grp.length → ∀ loc, R grp loc → R' grp loc) :
    GroupsAdded R' groups totals := by
  induction h with
  | nil => exact .nil
  | @concat groups grp totals totals' _ hadd ih =>
    refine .concat (ih fun g hg => himp g (List.mem_append_left _ hg)) ?_
    rcases hadd with hone | ⟨hlen, loc, hloc, hR, heq⟩
    · exact Or.inl hone
    · exact Or.inr ⟨hlen, loc, hloc, himp grp (by simp) hlen loc hR, heq⟩

/-- Charging the roots makes the average, multiplied out, the sum of all weights. -/
theorem averageWeight_mul {Δ : ℕ → ℕ → ℝ} {totals : MixedTotals (Exact ℝ)} (h : Accounts Δ totals)
    {n_query : ℕ} (hn : 0 < n_query) (hlen : totals.fullTrajectory.length = n_query) (w : ℝ) :
    averageWeight totals n_query (fin w) * Scalar.ofInt n_query =
      fin ((totals.fullTrajectory.map (entryWeight Δ)).sum) +
        Scalar.ofInt (totals.fullTrajectory.countP fun e => e.2 = -1 : ℕ) * fin w := by
  have hroots : ((n_query : ℤ) - totals.sumEdges) =
      (totals.fullTrajectory.countP fun e => e.2 = -1 : ℕ) := by
    rw [h.edges, hlen]
    omega
  rw [averageWeight, hroots, h.weight, ofInt_eq, fin_mul, fin_add]
  exact div_mul_ofInt _ (by omega)

-- ---------------------------------------------------------------------------
-- The claim about the average
-- ---------------------------------------------------------------------------

section Average

variable {Q : PriorityQueue GroupInfo} {normDist : ℕ → Exact ℝ}
  {edgeQueue : PriorityQueue (PrimStep (Exact ℝ))} {builders : Builders (Exact ℝ)} {x : ℤ → ℝ}
  {n_query dim : ℕ} {use_l2 : Bool} {params : Params} {gen : Gen} {B M : ℤ}

/-- The groups of `split` that are handled through HNSW. -/
def HnswGroup (Q : PriorityQueue GroupInfo) (normDist : ℕ → Exact ℝ) (x : ℤ → ℝ)
    (n_query dim : ℕ) (B : ℤ) (grp : List ℕ) : Prop :=
  500 < grp.length ∧ ∃ pq, SplitResult Q normDist (finMatrix x) n_query dim B pq ∧
    ∃ gi ∈ Q.elems pq, gi.group = grp

/-- The average times the number of queries is the sum of the distances of the
edges plus the weight of the roots. -/
def AverageIsMean (Q : PriorityQueue GroupInfo) (normDist : ℕ → Exact ℝ)
    (edgeQueue : PriorityQueue (PrimStep (Exact ℝ))) (builders : Builders (Exact ℝ)) (x : ℤ → ℝ)
    (n_query dim : ℕ) (use_l2 : Bool) (params : Params) (gen : Gen) : Prop :=
  ∃ (w : Exact ℝ × Gen) (r : (Trajectory × Exact ℝ) × Gen),
    Returns (getWeightForRoot (finMatrix x) n_query dim gen 3000) w ∧
    Returns (optimizeTrajectoryMixedModifiedMst Q normDist edgeQueue builders (finMatrix x) n_query
      dim use_l2 params gen) r ∧
    r.1.2 * Scalar.ofInt n_query =
      treeWeight (metricDistance use_l2 (finMatrix x) dim) r.1.1 +
        Scalar.ofInt (r.1.1.countP fun e => e.2 = -1 : ℕ) * w.1

/-- In every group handled through HNSW, the links that are stored measure what the exact
branch would. -/
def LinksMeasure (Q : PriorityQueue GroupInfo) (normDist : ℕ → Exact ℝ)
    (builders : Builders (Exact ℝ)) (x : ℤ → ℝ) (n_query dim : ℕ) (use_l2 : Bool) (params : Params)
    (B M : ℤ) : Prop :=
  ∀ grp, HnswGroup Q normDist x n_query dim B grp →
    ∀ index, Returns (groupIndex builders params.baseOnly use_l2 M ((params "ef").getD M)
      (finMatrix x) dim grp) index →
    ∀ i < grp.length, ∀ j ∈ index.linklist0 i, i ≠ j → LinkMeasures use_l2 x dim grp index i j

/-- The hyperplanes and the copies of the large groups have as many values as an `int` can
count, and the condition holds for every two members of a large group. -/
def RootsAgree (Q : PriorityQueue GroupInfo) (normDist : ℕ → Exact ℝ) (x : ℤ → ℝ)
    (n_query dim : ℕ) (use_l2 : Bool) (params : Params) (B : ℤ) : Prop :=
  (B - 1) * dim < 2 ^ 31 ∧ ∀ grp, HnswGroup Q normDist x n_query dim B grp →
    grp.length * dim < 2 ^ 31 ∧ ∀ i < grp.length, ∀ j < grp.length, i ≠ j →
      RootAgrees params.baseOnly use_l2 x dim (grp.getD i 0) (grp.getD j 0)

/-- Under the condition the links measure right. -/
theorem RootsAgree.linksMeasure (h : RootsAgree Q normDist x n_query dim use_l2 params B)
    (hbuild : ∀ grp, HnswGroup Q normDist x n_query dim B grp →
      BuildInRange builders params.baseOnly use_l2 M ((params "ef").getD M) (finMatrix x) dim grp) :
    LinksMeasure Q normDist builders x n_query dim use_l2 params B M := by
  intro grp hgrp index hindex i hi j hlink hij
  have hj : j < grp.length := hbuild grp hgrp index hindex i hi j hlink
  obtain ⟨hfit, hroots⟩ := h.2 grp hgrp
  obtain ⟨index', hindex', hholds, -⟩ := groupIndex_spec builders params.baseOnly use_l2 M
    ((params "ef").getD M) (finMatrix x) hfit
  obtain rfl := hindex.unique hindex'
  exact (linkMeasures_iff hholds hi hj).mpr (hroots i hi j hj hij)

/-- Builders that link `i` to `j`, and nothing else. -/
def pairBuilders (F : Type) (i j : ℕ) : Builders F where
  full _ _ index _ v := if v = i ∧ j < index.max_elements then [j] else []
  baseOnly _ _ index _ v := if v = i ∧ j < index.max_elements then [j] else []

theorem link_pairBuilders {F : Type} (i j : ℕ) (base_only : Bool) (M ef_construction : ℤ) :
    (pairBuilders F i j).link base_only M ef_construction =
      fun index _ v => if v = i ∧ j < index.max_elements then [j] else [] := by
  unfold Builders.link
  split <;> rfl

theorem pairBuilders_inRange {base_only : Bool} {ef_construction : ℤ} {grp : List ℕ} (i j : ℕ) :
    BuildInRange (pairBuilders (Exact ℝ) i j) base_only use_l2 M ef_construction (finMatrix x) dim
      grp := by
  refine buildInRange_of_link fun stored id hmax v hv u hu => ?_
  simp only [link_pairBuilders] at hu
  split at hu
  · next h => rw [List.mem_singleton.mp hu, ← hmax]; exact h.2
  · exact absurd hu List.not_mem_nil

/-- When the links of every index measure right, the condition holds of every pair: one of
the indexes links the two. -/
theorem rootAgrees_of_linksMeasure {grp : List ℕ} (hgrp : HnswGroup Q normDist x n_query dim B grp)
    (hfit : grp.length * dim < 2 ^ 31) {i j : ℕ} (hi : i < grp.length) (hj : j < grp.length)
    (hij : i ≠ j) (h : LinksMeasure Q normDist (pairBuilders (Exact ℝ) i j) x n_query dim use_l2
      params B M) : RootAgrees params.baseOnly use_l2 x dim (grp.getD i 0) (grp.getD j 0) := by
  obtain ⟨index, hindex, hholds, hlinked⟩ := groupIndex_spec (pairBuilders (Exact ℝ) i j)
    params.baseOnly use_l2 M ((params "ef").getD M) (finMatrix x) hfit
  have hlink : j ∈ index.linklist0 i := by
    rcases hlinked with ⟨hcount, -⟩ | ⟨stored, id, hmax, heq⟩
    · rw [hholds.count] at hcount
      omega
    · rw [heq, link_pairBuilders]
      simp [hmax, hj]
  exact (linkMeasures_iff hholds hi hj).mp (h grp hgrp index hindex i hi j hlink hij)

/-- When the links measure right, so do the steps of the search. -/
theorem ForestSteps.weightedBy {grp : List ℕ} {index : HierarchicalNSW (Exact ℝ)}
    {adj : Adjacency (Exact ℝ)} {steps : List (PrimStep (Exact ℝ))}
    (hsteps : ForestSteps grp.length adj steps)
    (hadj : ∀ v u d, (u, d) ∈ adj v ↔ (v < u ∧ v < grp.length ∧ (u, d) ∈ getNeighbors index v) ∨
      (u < v ∧ u < grp.length ∧ (v, d) ∈ getNeighbors index u))
    (hlinks : ∀ i < grp.length, ∀ j ∈ index.linklist0 i, i ≠ j →
      LinkMeasures use_l2 x dim grp index i j) :
    WeightedBy (fun p c => exactDistance use_l2 x dim (grp.getD p 0) (grp.getD c 0)) steps := by
  -- a link that measures right has the exact distance
  have hlink : ∀ a b d, a ≠ b → a < grp.length → (b, d) ∈ getNeighbors index a →
      d = fin (exactDistance use_l2 x dim (grp.getD a 0) (grp.getD b 0)) := by
    intro a b d hab ha hmem
    obtain ⟨y, hy, hm⟩ := hlinks a ha b (mem_getNeighbors_fst hmem) hab
    rw [metricDistance_fin] at hm
    have hd : d = linkDistance index a b := mem_getNeighbors_snd hmem
    rw [hd, hy, hm]
  intro it hit
  rcases hsteps.weight it hit with hroot | ⟨p, hp, hedge⟩
  · exact Or.inl hroot
  · refine Or.inr ⟨p, hp, ?_⟩
    rcases (hadj p it.node it.weight).mp hedge with ⟨hlt, hp', hmem⟩ | ⟨hlt, hn, hmem⟩
    · exact hlink p it.node _ hlt.ne hp' hmem
    · rw [hlink it.node p _ hlt.ne hn hmem, exactDistance_comm]

/-- Each group keeps its accounts when the links measure right. -/
theorem LocalResult.localWeight (hfin : FiniteDistances use_l2 (finMatrix x) dim n_query)
    {grp : List ℕ} (hgroup : IsGroup n_query grp) (hlen : 1 < grp.length) {base_only : Bool}
    {ef : ℤ} (hfit : 500 < grp.length → grp.length * dim < 2 ^ 31)
    (hbuild : 500 < grp.length →
      BuildInRange builders base_only use_l2 M ef (finMatrix x) dim grp)
    (hlinks : 500 < grp.length → ∀ index,
      Returns (groupIndex builders base_only use_l2 M ef (finMatrix x) dim grp) index →
      ∀ i < grp.length, ∀ j ∈ index.linklist0 i, i ≠ j → LinkMeasures use_l2 x dim grp index i j)
    {loc : Trajectory × Exact ℝ}
    (h : LocalResult edgeQueue builders base_only use_l2 M ef (finMatrix x) dim grp loc) :
    LocalWeight (exactDistance use_l2 x dim) grp loc := by
  have hcomm := exactDistance_comm use_l2 x dim
  cases h with
  | exact _ hret =>
    obtain ⟨steps, hsteps, hslen, hret'⟩ := exactGroup_spec (D := Exact ℝ) hfin hgroup
    obtain rfl := hret.unique hret'
    exact exact_localWeight hcomm hlen (fun p c => metricDistance_fin use_l2 x dim _ _) hsteps hslen
  | ann hbig hret =>
    obtain ⟨index, adj, steps, hindex, hadj, hrange, hsteps, hall, hret'⟩ :=
      annGroup_spec (D := Exact ℝ) edgeQueue (hfit hbig) (hbuild hbig)
    obtain rfl := hret.unique hret'
    have hslen : steps.length = grp.length := by
      simpa using (hsteps.localForest hall).perm.length_eq
    exact ann_localWeight hcomm
      (hsteps.weightedBy hadj (hlinks hbig index hindex)) hslen

/-- Under the condition, the average is the mean. -/
theorem RootsAgree.averageIsMean (h : RootsAgree Q normDist x n_query dim use_l2 params B)
    (hn : 0 < n_query) (hB : params "B" = some B) (hB1 : 1 ≤ B) (hM : params "M" = some M)
    (hgen : Varies n_query gen)
    (hbuild : ∀ grp, HnswGroup Q normDist x n_query dim B grp →
      BuildInRange builders params.baseOnly use_l2 M ((params "ef").getD M) (finMatrix x) dim grp) :
    AverageIsMean Q normDist edgeQueue builders x n_query dim use_l2 params gen := by
  have hfin := finiteDistances_fin use_l2 x dim n_query
  obtain ⟨pq, totals, weight, hsplit, hpart, hadded, hweight, hret⟩ :=
    optimizeTrajectoryMixedModifiedMst_spec (D := Exact ℝ) Q normDist edgeQueue hn hfin hgen hB hB1
      hM h.1 (fun pq hpq gi hgi hbig => (h.2 gi.group ⟨hbig, pq, hpq, gi, hgi, rfl⟩).1)
      (fun pq hpq gi hgi hbig => hbuild gi.group ⟨hbig, pq, hpq, gi, hgi, rfl⟩)
  have hlen : totals.fullTrajectory.length = n_query := by
    have hdrain : GroupPartition n_query (Q.drain pq : Multiset GroupInfo) := by
      rw [Q.coe_drain]
      exact hpart
    exact (hadded.forest.accepted hdrain).forest.1
  have haccounts : Accounts (exactDistance use_l2 x dim) totals := by
    refine (hadded.mono fun grp hgrp hone loc hloc => ?_).accounts
    obtain ⟨gi, hgi, rfl⟩ := List.mem_map.mp hgrp
    have hmem := Q.mem_drain.mp hgi
    have hnsw : 500 < gi.group.length → HnswGroup Q normDist x n_query dim B gi.group :=
      fun hbig => ⟨hbig, pq, hsplit, gi, hmem, rfl⟩
    exact hloc.localWeight hfin (hpart.isGroup hmem) hone (fun hbig => (h.2 _ (hnsw hbig)).1)
      (fun hbig => hbuild _ (hnsw hbig)) (fun hbig => h.linksMeasure hbuild _ (hnsw hbig))
  obtain ⟨w, gen', hw⟩ := getWeightForRoot_fin x hn dim hgen
  obtain rfl := hweight.unique hw
  refine ⟨_, _, hw, hret, ?_⟩
  rw [averageWeight_mul haccounts hn hlen, treeWeight_fin (metricDistance_fin use_l2 x dim)]

end Average

-- ---------------------------------------------------------------------------
-- One group of 501 queries
-- ---------------------------------------------------------------------------

/-- With `B = 1` all queries are in one group. -/
theorem hnswGroup_one_iff {Q : PriorityQueue GroupInfo} {normDist : ℕ → Exact ℝ} {x : ℤ → ℝ}
    {n_query dim : ℕ} {grp : List ℕ} :
    HnswGroup Q normDist x n_query dim 1 grp ↔ 500 < n_query ∧ grp = List.range n_query := by
  have hone := splitResult_one Q normDist (finMatrix x) n_query dim
  constructor
  · rintro ⟨hbig, pq, hsplit, gi, hgi, rfl⟩
    obtain rfl := hsplit.unique hone
    rw [Q.elems_push, Q.elems_empty, Multiset.cons_zero, Multiset.mem_singleton] at hgi
    subst hgi
    exact ⟨by rwa [List.length_range] at hbig, rfl⟩
  · rintro ⟨hbig, rfl⟩
    refine ⟨by rwa [List.length_range], _, hone, ⟨List.range n_query, n_query⟩, ?_, rfl⟩
    rw [Q.elems_push]
    exact Multiset.mem_cons_self _ _

end Mqo
