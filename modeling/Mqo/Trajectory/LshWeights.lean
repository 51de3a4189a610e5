import Mqo.Trajectory.MixedWeights
import Mqo.Trajectory.PrimMinimum

/-!
# MQO — the trees of `computeMSTs` are minimal

Over exact reals `computeMSTs` emits, for each group, a spanning tree of least
weight of the complete graph on the group, whatever the metric and whatever
the order in which the groups leave the heap. The average it returns charges
every root with the weight of a random pair.

* `PrimSteps.minimumTree`   — the steps of one group are a minimum tree;
* `mstOfGroup_minimum`      — so one group adds one, and accounts for it;
* `computeMSTs_minimum`     — all groups together, and the average.
-/

namespace Mqo

open Prog StackTraversal LightestForest Exact IntOffset

-- ---------------------------------------------------------------------------
-- Spanning trees of a group
-- ---------------------------------------------------------------------------

/-- A set of pairs is a spanning tree of the complete graph on the group. -/
structure IsSpanningTree (group : List ℕ) (F : Finset (Sym2 ℕ)) : Prop where
  inside    : ∀ a b, s(a, b) ∈ F → a ∈ group ∧ b ∈ group ∧ a ≠ b
  acyclic   : (graph F).IsAcyclic
  connected : ∀ a ∈ group, ∀ b ∈ group, (graph F).Reachable a b

/-- The distance of a pair of queries. -/
noncomputable def pairDistance (use_l2 : Bool) (x : ℤ → ℝ) (dim : ℕ) : Sym2 ℕ → ℝ :=
  Sym2.lift ⟨exactDistance use_l2 x dim, exactDistance_comm use_l2 x dim⟩

/-- The entries are a minimum spanning tree of the group, rooted at its first member,
with every parent before its children. -/
structure MinimumTree (use_l2 : Bool) (x : ℤ → ℝ) (dim : ℕ) (group : List ℕ) (t : Trajectory) :
    Prop where
  forest   : GroupForest [group] t
  root     : ∃ rest, t = ((group.getD 0 0 : ℤ), -1) :: rest ∧ ∀ e ∈ rest, e.2 ≠ -1
  spanning : IsSpanningTree group (entryEdges t)
  minimum  : ∀ F, IsSpanningTree group F →
    totalWeight (entryEdges t) (pairDistance use_l2 x dim) ≤
      totalWeight F (pairDistance use_l2 x dim)

section Trees

variable {use_l2 : Bool} {x : ℤ → ℝ} {dim : ℕ} {group : List ℕ}

/-- A spanning tree is a spanning forest of the complete graph. -/
theorem isSpanningTree_iff (use_l2 : Bool) (x : ℤ → ℝ) (dim : ℕ) {F : Finset (Sym2 ℕ)} :
    IsSpanningTree group F ↔
    IsSpanningForest (groupEdge group (exactDistance use_l2 x dim)) F
      (pairDistance use_l2 x dim) := by
  constructor
  · intro h
    refine ⟨fun a b hab => ?_, h.acyclic, fun a b _ hab => h.connected a hab.1 b hab.2.1⟩
    obtain ⟨ha, hb, hne⟩ := h.inside a b hab
    exact ⟨hne, ha, hb, hne, rfl⟩
  · intro h
    refine ⟨fun a b hab => ?_, h.acyclic, fun a ha b hb => ?_⟩
    · obtain ⟨hne, ha, hb, -⟩ := h.edges a b hab
      exact ⟨ha, hb, hne⟩
    · by_cases hab : a = b
      · rw [hab]
      · exact h.connects a b _ ⟨ha, hb, hab, rfl⟩

theorem groupEdge_symm (a b : ℕ) (w : ℝ) (h : groupEdge group (exactDistance use_l2 x dim) a b w) :
    groupEdge group (exactDistance use_l2 x dim) b a w :=
  ⟨h.2.1, h.1, h.2.2.1.symm, by rw [h.2.2.2, exactDistance_comm]⟩

/-- The edges of the entries are those of the records. -/
theorem entryEdges_toEntry (group : List ℕ) (Δ : ℕ → ℕ → ℝ) (steps : List (PrimStep (Exact ℝ))) :
    entryEdges (steps.map (PrimStep.toEntry group)) =
      treeEdges (steps.map (PrimStep.groupRecord group Δ)) := by
  rw [← entryEdges_recordEntry, List.map_map]
  congr 1
  refine List.map_congr_left ?_
  rintro ⟨node, _ | p, weight⟩ - <;> rfl

/-- **One group.** The steps of its Prim loop are a minimum tree. -/
theorem PrimSteps.minimumTree {n_query : ℕ} (hgroup : IsGroup n_query group)
    {steps : List (PrimStep (Exact ℝ))}
    (h : PrimSteps group.length (finWeight (localWeight group (exactDistance use_l2 x dim))) steps)
    (hlen : steps.length = group.length)
    (hlight : LightestSteps group.length (localWeight group (exactDistance use_l2 x dim)) steps) :
    MinimumTree use_l2 x dim group (steps.map (PrimStep.toEntry group)) := by
  have hgrows := h.growsLightest hgroup.nodup hlight
  have hedges := entryEdges_toEntry group (exactDistance use_l2 x dim) steps
  have hcover : ∀ a b w, groupEdge group (exactDistance use_l2 x dim) a b w →
      a ∈ nodes (steps.map (PrimStep.groupRecord group (exactDistance use_l2 x dim))) := by
    intro a b w hab
    obtain ⟨i, hi, rfl⟩ := exists_getD hab.1
    rw [nodes_groupRecord]
    exact List.mem_map_of_mem ((h.perm hlen).mem_iff.mpr (List.mem_range.mpr hi))
  have hrecords : Records (steps.map (PrimStep.groupRecord group (exactDistance use_l2 x dim)))
      (pairDistance use_l2 x dim) := by
    intro c p w hmem
    exact (hgrows.edge_of_mem hmem).2.2.2.2.symm
  refine ⟨?_, ?_, ?_, ?_⟩
  · rw [map_toEntry]
    exact groupForest_toGlobal (h.localForest hlen)
  · cases steps with
    | nil => exact absurd (List.length_eq_zero_iff.mp hlen.symm) hgroup.nonempty
    | cons s rest =>
      refine ⟨rest.map (PrimStep.toEntry group), ?_, fun e he => ?_⟩
      · rcases h.ok [] s rest rfl with ⟨-, hnode, hpar, -⟩ | ⟨p, hp, -⟩
        · rw [List.map_cons, PrimStep.toEntry, hnode, hpar]
        · cases hp
      · obtain ⟨t, ht, rfl⟩ := List.mem_map.mp he
        obtain ⟨pre, post, rfl⟩ := List.append_of_mem ht
        obtain ⟨p, -, hpar, -⟩ := h.parent_of_later
          (show s :: (pre ++ t :: post) = (s :: pre) ++ t :: post from rfl) (List.cons_ne_nil s pre)
        rw [PrimStep.toEntry, hpar]
        dsimp only
        omega
  · rw [hedges, isSpanningTree_iff use_l2 x dim]
    exact hgrows.isSpanningForest groupEdge_symm hcover hrecords
  · intro F hF
    rw [hedges, hgrows.totalWeight_eq hrecords]
    exact hgrows.minimum groupEdge_symm hcover ((isSpanningTree_iff use_l2 x dim).mp hF)

end Trees

-- ---------------------------------------------------------------------------
-- All groups
-- ---------------------------------------------------------------------------

/-- The totals are those of the trees collected. -/
structure TotalsOf (δ : ℕ → ℕ → ℝ) (trees : List Trajectory) (totals : MstTotals (Exact ℝ)) :
    Prop where
  trajectory : totals.trajectory = trees.flatten
  weight     : totals.totalMSTWeight = fin ((trees.flatten.map (entryWeight δ)).sum)
  edges      : totals.totalEdges = trees.flatten.length - trees.length

section Groups

variable {Q : PriorityQueue GroupInfo} {use_l2 : Bool} {x : ℤ → ℝ} {n_query dim : ℕ}

/-- In a group of one the Prim loop has nothing but the root to select. -/
theorem primSteps_one (d : ℕ → ℕ → Exact ℝ) : PrimSteps 1 d [⟨0, none, 0⟩] :=
  primSteps_concat (primSteps_nil 1 d) one_pos List.not_mem_nil (Or.inl ⟨rfl, rfl, rfl, rfl⟩)

/-- **One group** adds a minimum tree, and accounts for it. -/
theorem mstOfGroup_minimum {info : GroupInfo} (hgroup : IsGroup n_query info.group)
    {trees : List Trajectory} {totals : MstTotals (Exact ℝ)}
    (h : TotalsOf (exactDistance use_l2 x dim) trees totals) :
    ∃ t totals', Returns (mstOfGroup (finMatrix x) dim use_l2 totals info) totals' ∧
      MinimumTree use_l2 x dim info.group t ∧
      TotalsOf (exactDistance use_l2 x dim) (trees ++ [t]) totals' := by
  have hpos : 0 < info.group.length := List.length_pos_iff.mpr hgroup.nonempty
  unfold mstOfGroup
  dsimp only
  by_cases hone : info.group.length = 1
  · rw [if_pos hone]
    have hsteps : PrimSteps info.group.length
        (finWeight (localWeight info.group (exactDistance use_l2 x dim))) [⟨0, none, 0⟩] :=
      hone ▸ primSteps_one _
    refine ⟨_, _, returns_pure _, hsteps.minimumTree hgroup hone.symm
      fun pre s post hsplit q hq => ?_, ?_, ?_, ?_⟩
    · -- nothing comes before the only step
      cases pre with
      | nil => exact absurd hq List.not_mem_nil
      | cons a pre => simp at hsplit
    · simp [h.trajectory, PrimStep.toEntry]
    · simp [h.weight, PrimStep.toEntry, entryWeight]
    · simp [h.edges]
  · rw [if_neg hone]
    have hd : (fun curr v => metricDistance use_l2 (finMatrix x) dim (info.group.getD curr 0)
        (info.group.getD v 0)) = finWeight (localWeight info.group (exactDistance use_l2 x dim)) := by
      funext i j
      exact metricDistance_fin use_l2 x dim _ _
    rw [hd]
    obtain ⟨steps, hret, hsteps, hlen, hlight⟩ :=
      primLoop_lightest (δ := localWeight info.group (exactDistance use_l2 x dim)) hpos
    have htree := hsteps.minimumTree hgroup hlen hlight
    have hweighted := hsteps.weightedBy (Δ := exactDistance use_l2 x dim) fun _ _ => rfl
    have hsum := foldl_weights hweighted
    rw [← map_entryWeight (exactDistance_comm use_l2 x dim), ← map_toEntry] at hsum
    refine ⟨_, _, hret.bind (returns_pure _), htree, ?_, ?_, ?_⟩
    · simp [h.trajectory]
    · rw [List.flatten_append, List.flatten_singleton, List.map_append, List.sum_append, ← fin_add,
        ← h.weight, ← hsum]
      rfl
    · simp only [List.flatten_append, List.flatten_singleton, List.length_append, List.length_map,
        List.length_singleton, h.edges, hlen]
      push_cast
      omega

/-- The loop of `computeMSTs` collects a minimum tree of each group. -/
theorem mstOfGroups_minimum (use_l2 : Bool) (x : ℤ → ℝ) (dim : ℕ) {pq : Q.Heap}
    (hcover : Covers n_query (Q.elems pq))
    (hne : ∀ info ∈ Q.elems pq, info.group ≠ []) :
    ∃ trees totals, Returns ((Q.drain pq).foldlM (mstOfGroup (finMatrix x) dim use_l2)
        ⟨[], (0 : Exact ℝ), 0⟩) totals ∧
      List.Forall₂ (MinimumTree use_l2 x dim) (groupsOf Q pq) trees ∧
      TotalsOf (exactDistance use_l2 x dim) trees totals := by
  have hstep : ∀ pre info post (totals : MstTotals (Exact ℝ)), Q.drain pq = pre ++ info :: post →
      (∃ trees, List.Forall₂ (MinimumTree use_l2 x dim) (pre.map GroupInfo.group) trees ∧
        TotalsOf (exactDistance use_l2 x dim) trees totals) →
      ∃ totals', Returns (mstOfGroup (finMatrix x) dim use_l2 totals info) totals' ∧
        ∃ trees, List.Forall₂ (MinimumTree use_l2 x dim)
          ((pre ++ [info]).map GroupInfo.group) trees ∧
        TotalsOf (exactDistance use_l2 x dim) trees totals' := by
    rintro pre info post totals hdrain ⟨trees, hmin, htotals⟩
    have hmem : info ∈ Q.elems pq := Q.mem_drain.mp (by rw [hdrain]; simp)
    obtain ⟨t, totals', hret, ht, htotals'⟩ :=
      mstOfGroup_minimum (hcover.isGroup hmem (hne info hmem)) htotals
    refine ⟨totals', hret, trees ++ [t], ?_, htotals'⟩
    rw [List.map_append]
    exact List.rel_append hmin (List.Forall₂.cons ht List.Forall₂.nil)
  obtain ⟨totals, hret, trees, hmin, htotals⟩ := foldlM_returns
    (fun pre totals => ∃ trees, List.Forall₂ (MinimumTree use_l2 x dim)
      (pre.map GroupInfo.group) trees ∧ TotalsOf (exactDistance use_l2 x dim) trees totals)
    hstep (s := ⟨[], (0 : Exact ℝ), 0⟩) ⟨[], List.Forall₂.nil, rfl, by simp [zero_eq], rfl⟩
  exact ⟨trees, totals, hret, hmin, htotals⟩

/-- The trees hold every query once, and one root for each group. -/
theorem minimumTrees_counts {groups : List (List ℕ)} {trees : List Trajectory}
    (h : List.Forall₂ (MinimumTree use_l2 x dim) groups trees) :
    (trees.flatten.map Prod.fst).Perm (groups.flatten.map fun q : ℕ => (q : ℤ)) ∧
      trees.flatten.countP (fun e => e.2 = -1) = trees.length := by
  induction h with
  | nil => exact ⟨List.Perm.refl _, rfl⟩
  | @cons group t groups trees ht _ ih =>
    obtain ⟨rest, hroot, hrest⟩ := ht.root
    have hone : t.countP (fun e => e.2 = -1) = 1 := by
      rw [hroot, List.countP_cons, List.countP_eq_zero.mpr fun e he => by simpa using hrest e he]
      rfl
    refine ⟨?_, ?_⟩
    · have hperm := ht.forest.perm
      rw [List.flatten_singleton] at hperm
      rw [List.flatten_cons, List.flatten_cons, List.map_append, List.map_append]
      exact hperm.append ih.1
    · rw [List.flatten_cons, List.countP_append, hone, ih.2, List.length_cons, Nat.add_comm]

/-- A weight returned for a root is a finite number. -/
theorem getWeightForRoot_finite {gen : Gen} {n_sample : ℕ} (hn : n_sample ≠ 0)
    {weight : Exact ℝ × Gen}
    (h : Returns (getWeightForRoot (finMatrix x) n_query dim gen n_sample) weight) :
    ∃ w : ℝ, weight.1 = fin w := by
  obtain ⟨sampled, hsampled, hret⟩ := h.of_bind
  have hfinite : ∃ y : ℝ, sampled.1 = fin y := by
    refine foldlM_inv (fun _ (state : Exact ℝ × Gen) => ∃ y : ℝ, state.1 = fin y) ?_ ⟨0, rfl⟩
      hsampled
    rintro _ _ _ state state' _ ⟨y, hy⟩ hstate
    obtain ⟨pair, -, hpair⟩ := hstate.of_bind
    have hd := metricDistance_fin true x dim pair.1.1 pair.1.2
    rw [metricDistance, if_pos rfl] at hd
    rw [hpair.of_pure, hd, hy, widen_self]
    exact ⟨_, fin_add _ _⟩
  obtain ⟨y, hy⟩ := hfinite
  rw [hret.of_pure, hy, ofInt_eq, fin_div (by exact_mod_cast hn)]
  exact ⟨_, rfl⟩

/-- **Minimality.** Whatever heap of groups `computeMSTs` is given, it emits a minimum
tree of each of them, and the average charges the edges at their distance and
the roots at the weight of a random pair. The weights are those of `get_distance` and
`get_distance_ip`; while the rows fit, they are the distances of the rows. -/
theorem computeMSTs_minimum {pq : Q.Heap} (hn : 2 ≤ n_query)
    (hcover : Covers n_query (Q.elems pq)) (hne : ∀ info ∈ Q.elems pq, info.group ≠ [])
    {gen : Gen} {weight : Exact ℝ × Gen}
    (hweight : Returns (getWeightForRoot (finMatrix x) n_query dim gen 3000) weight) :
    ∃ (trees : List Trajectory) (average w : ℝ),
      Returns (computeMSTs Q (finMatrix x) n_query dim use_l2 pq gen)
        ((trees.flatten, fin average), weight.2) ∧
      List.Forall₂ (MinimumTree use_l2 x dim) (groupsOf Q pq) trees ∧
      weight.1 = fin w ∧
      average * n_query = (trees.flatten.map (entryWeight (exactDistance use_l2 x dim))).sum +
        trees.flatten.countP (fun e => e.2 = -1) * w ∧
      (RowsFit n_query dim → ∀ i < n_query, ∀ j < n_query, exactDistance use_l2 x dim i j =
        distanceOf use_l2 dim (matrixRow x dim i) (matrixRow x dim j)) := by
  obtain ⟨trees, totals, hret, hmin, htotals⟩ := mstOfGroups_minimum use_l2 x dim hcover hne
  obtain ⟨w, hw⟩ := getWeightForRoot_finite (by decide) hweight
  obtain ⟨hperm, hroots⟩ := minimumTrees_counts hmin
  have hlen : trees.flatten.length = n_query := by
    have hdrain : Covers n_query (Q.drain pq : Multiset GroupInfo) := by
      rw [Q.coe_drain]
      exact hcover
    have := (hperm.trans (hdrain.flatten_perm.map _)).length_eq
    rwa [List.length_map, List.length_map, List.length_range] at this
  have hn0 : (n_query : ℝ) ≠ 0 := by exact_mod_cast (show n_query ≠ 0 by omega)
  have hcount : (n_query : ℤ) - totals.totalEdges = trees.length := by
    rw [htotals.edges, hlen]
    omega
  refine ⟨trees, ((trees.flatten.map (entryWeight (exactDistance use_l2 x dim))).sum +
    trees.length * w) / n_query, w, ?_, hmin, hw, ?_, fun hfit i hi j hj =>
      exactDistance_row hfit hi hj use_l2 x⟩
  · have haverage : (totals.totalMSTWeight + Scalar.ofInt (n_query - totals.totalEdges) * weight.1) /
        Scalar.ofInt n_query =
        fin (((trees.flatten.map (entryWeight (exactDistance use_l2 x dim))).sum +
          trees.length * w) / n_query) := by
      rw [htotals.weight, hcount, hw, ofInt_eq, ofInt_eq, fin_mul, fin_add, Int.cast_natCast,
        Int.cast_natCast, fin_div hn0]
    rw [← haverage, ← htotals.trajectory]
    exact hret.bind (hweight.bind (returns_pure _))
  · rw [hroots, div_mul_cancel₀ _ hn0]

end Groups

/-- Three queries in two groups, one of them not in ascending order. -/
def sampleGroups : (PriorityQueue.byKey GroupInfo.size).Heap :=
  let Q := PriorityQueue.byKey GroupInfo.size
  Q.push (Q.push Q.empty ⟨[2, 0], 2⟩) ⟨[1], 1⟩

/-- Their inner-product trees, some of whose weights are negative. -/
theorem sampleGroups_minimum : ∃ (weight : Exact ℝ × Gen) (trees : List Trajectory) (average w : ℝ),
    Returns (computeMSTs (PriorityQueue.byKey GroupInfo.size) (finMatrix fun k => (k : ℝ)) 3 2 false
      sampleGroups (fun k => k)) ((trees.flatten, fin average), weight.2) ∧
    List.Forall₂ (MinimumTree false (fun k => (k : ℝ)) 2) (groupsOf _ sampleGroups) trees ∧
    weight.1 = fin w ∧
    average * (3 : ℕ) =
      (trees.flatten.map (entryWeight (exactDistance false (fun k => (k : ℝ)) 2))).sum +
        trees.flatten.countP (fun e => e.2 = -1) * w ∧
    ∀ i < 3, ∀ j < 3, exactDistance false (fun k => (k : ℝ)) 2 i j =
      distanceOf false 2 (matrixRow (fun k => (k : ℝ)) 2 i) (matrixRow (fun k => (k : ℝ)) 2 j) := by
  obtain ⟨w, gen', hw⟩ := getWeightForRoot_fin (fun k => (k : ℝ)) (show 0 < 3 by decide) 2
    (varies_counting (by decide))
  obtain ⟨trees, average, w, hret, hmin, hfin, haverage, hrows⟩ :=
    @computeMSTs_minimum (PriorityQueue.byKey GroupInfo.size) false _ 3 2 sampleGroups (by decide)
      (by unfold Covers; decide) (by decide) _ _ hw
  exact ⟨_, trees, average, w, hret, hmin, hfin, haverage,
    hrows (show 3 * 2 ≤ 2 ^ 31 by decide)⟩

end Mqo
