import Mqo.Trajectory.Exact
import Mqo.Trajectory.FullMst
import Mqo.Trajectory.Mixed

/-!
# MQO — the interface

`mqo` of `mqo/interface.hpp`: the option selects how the trajectory is found,
the trajectory is reordered depth first, and the result has to pass
`checkTrajectory`. Any option that is not one of the four names is the name of
a file, read with `read_mst`, to which `(0, -1)` is appended.

* `lshAccepted_iff` — the option `lsh` returns an accepted trajectory with at most `B`
  roots whose edges stay inside the groups of `split`, as long as the number of values
  drawn for the hyperplanes is an `int`;
* `mixedAccepted_iff` — the same for the option `mixed_modified`, without the
  bound on the roots, and with what its indexes hold;
* `mqo_savedMst` — a tree of `get_mst` that is saved and read back gives an
  accepted trajectory with the same child-to-parent map;
* `mqo_file_terminates_iff` — on a file of in-range pairs the run ends exactly
  when no cycle is reachable from the query `0`.
-/

namespace Mqo

open Prog StackTraversal IntOffset

variable {F D : Type} [Scalar F] [Scalar D] [Widen F D]

/-- What a run depends on besides its arguments: the implementations of the two
priority queues, the values of the normal distribution, how index elements are
linked, the files, and the contents of uninitialised variables. -/
structure Env (F : Type) where
  groupQueue : PriorityQueue GroupInfo
  edgeQueue : PriorityQueue (PrimStep F)
  normDist : ℕ → F
  builders : Builders F
  disk : Disk
  mem : Uninitialised

/-- The options that are not the name of a file. -/
def namedOptions : List String := ["lsh", "ann", "mixed", "mixed_modified"]

/-- The trajectory and average weight that the option selects. -/
def optimizeTrajectory (env : Env F) (option : String) (n_query dim : ℕ) (query : ℤ → F)
    (use_l2 : Bool) (params : Params) (gen : Gen) : Run ((Trajectory × D) × Gen) :=
  if option = "lsh" then
    optimizeTrajectoryLshMst env.groupQueue env.normDist query n_query dim use_l2 params gen
  else if option = "ann" then do
    let res ← optimizeTrajectoryAnnMst env.edgeQueue env.builders query n_query dim params
    pure (res, gen)
  else if option = "mixed" then
    optimizeTrajectoryMixedMst env.groupQueue env.normDist env.edgeQueue env.builders query n_query
      dim params gen
  else if option = "mixed_modified" then
    optimizeTrajectoryMixedModifiedMst env.groupQueue env.normDist env.edgeQueue env.builders query
      n_query dim use_l2 params gen
  else do
    let custom_trajectory ← readMst env.disk env.mem option
    pure ((custom_trajectory ++ [(0, -1)], 0), gen)

/-- `mqo` -/
def mqo (D : Type) [Scalar D] [Widen F D] (env : Env F) (option : String) (n_query dim : ℕ)
    (query : ℤ → F) (use_l2 : Bool) (params : Params) (gen : Gen) : Run (Trajectory × Gen) := do
  let res ← optimizeTrajectory (D := D) env option n_query dim query use_l2 params gen
  let trajectory ← reorderMultipleDFS res.1.1
  checkTrajectory trajectory n_query
  pure (trajectory, res.2)

/-- An environment over the rationals: queues with the largest group and the least
weight on top, indexes that link a chain, and two files with one pair each. -/
def sampleEnv : Env (Exact ℚ) where
  groupQueue := PriorityQueue.byKey GroupInfo.size
  edgeQueue := leastWeight ℚ
  normDist := fun i => .fin (if i % 2 = 0 then 1 else -1)
  builders := chainBuilders (Exact ℚ)
  disk :=
    { content := fun name =>
        if name = "cycle.mst" then some ['1', '\n', '0', ' ', '0', '\n']
        else if name = "tree.mst" then some ['1', '\n', '1', ' ', '0', '\n']
        else none
      writable := fun _ => true }
  mem := ⟨0, fun _ => 0, fun _ => 0⟩

section Options

variable {env : Env F} {option : String} {n_query dim : ℕ} {query : ℤ → F} {use_l2 : Bool}
  {params : Params} {gen : Gen}

/-- When the option yields a trajectory that would be accepted, `mqo` returns a
permutation of it that is. -/
theorem mqo_of_accepted {r : (Trajectory × D) × Gen}
    (hr : Returns (optimizeTrajectory env option n_query dim query use_l2 params gen) r)
    (hforest : r.1.1.length = n_query ∧ Forest r.1.1) :
    ∃ out, Returns (mqo D env option n_query dim query use_l2 params gen) (out, r.2) ∧
      out.Perm r.1.1 ∧ Accepted out n_query := by
  obtain ⟨out, hout, hperm, hacc⟩ := reorderMultipleDFS_forest hforest.2
  rw [hforest.1] at hacc
  exact ⟨out, hr.bind (hout.bind (hacc.bind (returns_pure _))), hperm, hacc⟩

/-- Both queries of every entry that is not a root are in one group. -/
def StaysInGroups (groups : Multiset GroupInfo) (trajectory : Trajectory) : Prop :=
  ∀ e ∈ trajectory, e.2 ≠ -1 →
    ∃ g ∈ groups, ∃ c ∈ g.group, ∃ p ∈ g.group, e = ((c : ℤ), (p : ℤ))

theorem GroupForest.staysInGroups {Q : PriorityQueue GroupInfo} {pq : Q.Heap} {t out : Trajectory}
    (h : GroupForest (groupsOf Q pq) t) (hperm : out.Perm t) :
    StaysInGroups (Q.elems pq) out := by
  intro e he hroot
  obtain ⟨g, hg, hrest⟩ := h.inside e (hperm.mem_iff.mp he) hroot
  obtain ⟨info, hinfo, rfl⟩ := List.mem_map.mp hg
  exact ⟨info, Q.mem_drain.mp hinfo, hrest⟩

theorem GroupForest.accepted_of_partition {Q : PriorityQueue GroupInfo} {pq : Q.Heap}
    {t : Trajectory} (h : GroupForest (groupsOf Q pq) t)
    (hpart : GroupPartition n_query (Q.elems pq)) : Accepted t n_query := by
  rw [← Q.coe_drain] at hpart
  exact h.accepted hpart

/-- An accepted trajectory lists every query once, and parents first. -/
structure ListsEachOnce (trajectory : Trajectory) (n_query : ℕ) : Prop where
  length  : trajectory.length = n_query
  child   : ∀ i : ℕ, i < n_query → (trajectory.map Prod.fst).count (i : ℤ) = 1
  earlier : ∀ pre x post, trajectory = pre ++ x :: post → x.2 ≠ -1 → x.2 ∈ pre.map Prod.fst

theorem Accepted.listsEachOnce {trajectory : Trajectory} (h : Accepted trajectory n_query) :
    ListsEachOnce trajectory n_query := by
  obtain ⟨hperm, htopo⟩ := accepted_iff.mp h
  refine ⟨by simpa using hperm.length_eq, fun i hi => ?_, fun pre x post hsplit hroot =>
    (htopo pre x post hsplit).resolve_left hroot⟩
  rw [hperm.count_eq]
  exact List.count_eq_one_of_mem (nodup_indices n_query) (mem_indices.mpr ⟨by omega, by omega⟩)

theorem optimizeTrajectory_lsh (env : Env F) (n_query dim : ℕ) (query : ℤ → F) (use_l2 : Bool)
    (params : Params) (gen : Gen) :
    optimizeTrajectory (D := D) env "lsh" n_query dim query use_l2 params gen =
      optimizeTrajectoryLshMst env.groupQueue env.normDist query n_query dim use_l2 params gen :=
  if_pos rfl

theorem optimizeTrajectory_mixedModified (env : Env F) (n_query dim : ℕ) (query : ℤ → F)
    (use_l2 : Bool) (params : Params) (gen : Gen) :
    optimizeTrajectory (D := D) env "mixed_modified" n_query dim query use_l2 params gen =
      optimizeTrajectoryMixedModifiedMst env.groupQueue env.normDist env.edgeQueue env.builders
        query n_query dim use_l2 params gen := by
  rw [optimizeTrajectory, if_neg (by decide), if_neg (by decide), if_neg (by decide), if_pos rfl]

/-- What the option `lsh` is to return: an accepted list with at most `B` roots that stays inside
the groups of `split`. -/
def LshAccepted (D : Type) [Scalar D] [Widen F D] (env : Env F) (n_query dim : ℕ) (query : ℤ → F)
    (use_l2 : Bool) (params : Params) (gen : Gen) : Prop :=
  ∃ pq r, SplitResult env.groupQueue env.normDist query n_query dim (params.get "B") pq ∧
    Returns (mqo D env "lsh" n_query dim query use_l2 params gen) r ∧
    Accepted r.1 n_query ∧ ListsEachOnce r.1 n_query ∧
    (r.1.countP (fun e => e.2 = -1) : ℤ) ≤ params.get "B" ∧
    StaysInGroups (env.groupQueue.elems pq) r.1

/-- **The option `lsh`.** While the number of values drawn for the hyperplanes is an `int`, the
list is accepted, has at most `B` roots and stays inside the groups; above, it throws or reads a
hyperplane outside the array. -/
theorem lshAccepted_iff (env : Env F) (hn : 0 < n_query)
    (hfin : FiniteDistances use_l2 query dim n_query) (hB : 1 ≤ params.get "B")
    (hgen : Varies n_query gen) :
    LshAccepted D env n_query dim query use_l2 params gen ↔
      (params.get "B" - 1) * dim < 2 ^ 31 := by
  constructor
  · rintro ⟨pq, r, hsplit, -⟩
    exact (splitResult_iff env.groupQueue env.normDist query hn dim hB).mp ⟨pq, hsplit⟩
  · intro hfit
    obtain ⟨pq, r, hsplit, hr, hpart, hsize, hforest, hroots⟩ :=
      optimizeTrajectoryLshMst_spec (D := D) (Q := env.groupQueue) hn hfin hgen env.normDist
        hB hfit
    have hopt : Returns (optimizeTrajectory env "lsh" n_query dim query use_l2 params gen) r := by
      rw [optimizeTrajectory_lsh]
      exact hr
    obtain ⟨out, hout, hperm, hacc⟩ :=
      mqo_of_accepted hopt (hforest.accepted_of_partition hpart).forest
    refine ⟨pq, _, hsplit, hout, hacc, hacc.listsEachOnce, ?_, hforest.staysInGroups hperm⟩
    rw [hperm.countP_eq, hroots]
    exact hsize

/-- What the index of a large group stands for: the internal id `i` for the query `grp[i]`, with
its vector. -/
def LargeGroupsIndexed (env : Env F) (query : ℤ → F) (dim : ℕ) (use_l2 : Bool) (params : Params)
    (M : ℤ) (vector : ℕ → List F) (groups : Multiset GroupInfo) : Prop :=
  ∀ gi ∈ groups, 500 < gi.group.length →
    ∃ index, Returns (groupIndex env.builders params.baseOnly use_l2 M ((params "ef").getD M) query
        dim gi.group) index ∧
      ∀ i < gi.group.length, index.externalLabel i = i ∧
        index.data i = vector (gi.group.getD i 0)

/-- What the option `mixed_modified` is to return: an accepted list that stays inside the groups of
`split`, whose large ones are indexed by the given vectors. -/
def MixedAccepted (D : Type) [Scalar D] [Widen F D] (env : Env F) (n_query dim : ℕ) (query : ℤ → F)
    (use_l2 : Bool) (params : Params) (gen : Gen) (B M : ℤ) (vector : ℕ → List F) : Prop :=
  ∃ pq r, SplitResult env.groupQueue env.normDist query n_query dim B pq ∧
    Returns (mqo D env "mixed_modified" n_query dim query use_l2 params gen) r ∧
    Accepted r.1 n_query ∧ ListsEachOnce r.1 n_query ∧
    StaysInGroups (env.groupQueue.elems pq) r.1 ∧
    LargeGroupsIndexed env query dim use_l2 params M vector (env.groupQueue.elems pq)

/-- The level-0 lists of the indexes of the large groups hold only ids below the sizes of
these. -/
def LargeBuildsInRange (env : Env F) (n_query dim : ℕ) (query : ℤ → F) (use_l2 : Bool)
    (params : Params) (B M : ℤ) : Prop :=
  ∀ pq, SplitResult env.groupQueue env.normDist query n_query dim B pq →
    ∀ gi ∈ env.groupQueue.elems pq, 500 < gi.group.length →
      BuildInRange env.builders params.baseOnly use_l2 M ((params "ef").getD M) query dim gi.group

/-- What the large groups of `split` copy is small enough. -/
def LargeGroupsFit (env : Env F) (n_query dim : ℕ) (query : ℤ → F) (B : ℤ) : Prop :=
  ∀ pq, SplitResult env.groupQueue env.normDist query n_query dim B pq →
    ∀ gi ∈ env.groupQueue.elems pq, 500 < gi.group.length → gi.group.length * dim < 2 ^ 31

/-- What the option `mixed_modified` returns when all that it allocates is small enough. -/
theorem mqo_mixedModified (env : Env F) (hn : 0 < n_query)
    (hfin : FiniteDistances use_l2 query dim n_query) {B M : ℤ} (hB : params "B" = some B)
    (hB1 : 1 ≤ B) (hM : params "M" = some M) (hgen : Varies n_query gen)
    (hfit : (B - 1) * dim < 2 ^ 31) (hgroups : LargeGroupsFit env n_query dim query B)
    (hbuild : LargeBuildsInRange env n_query dim query use_l2 params B M) :
    ∃ pq res out, SplitResult env.groupQueue env.normDist query n_query dim B pq ∧
      Returns (optimizeTrajectoryMixedModifiedMst (D := D) env.groupQueue env.normDist env.edgeQueue
        env.builders query n_query dim use_l2 params gen) res ∧
      Returns (mqo D env "mixed_modified" n_query dim query use_l2 params gen) (out, res.2) ∧
      out.Perm res.1.1 ∧ Accepted out n_query ∧ StaysInGroups (env.groupQueue.elems pq) out := by
  obtain ⟨pq, totals, weight, hsplit, hpart, hadded, -, hr⟩ :=
    optimizeTrajectoryMixedModifiedMst_spec (D := D) env.groupQueue env.normDist env.edgeQueue
      hn hfin hgen hB hB1 hM hfit hgroups hbuild
  have hopt : Returns (optimizeTrajectory env "mixed_modified" n_query dim query use_l2 params gen)
      ((totals.fullTrajectory, averageWeight totals n_query weight.1), weight.2) := by
    rw [optimizeTrajectory_mixedModified]
    exact hr
  obtain ⟨out, hout, hperm, hacc⟩ :=
    mqo_of_accepted hopt (hadded.forest.accepted_of_partition hpart).forest
  exact ⟨pq, _, out, hsplit, hr, hout, hperm, hacc, hadded.forest.staysInGroups hperm⟩

/-- **The option `mixed_modified`.** The list is accepted and stays inside the groups, and the
internal ids of a large group stand for its queries, exactly while the number of values drawn for
the hyperplanes and that of every large group are an `int`. The vectors are those behind the
pointers `query + grp[i] * dim`. -/
theorem mixedAccepted_iff (env : Env F) (hn : 0 < n_query)
    (hfin : FiniteDistances use_l2 query dim n_query) {B M : ℤ} (hB : params "B" = some B)
    (hB1 : 1 ≤ B) (hM : params "M" = some M) (hgen : Varies n_query gen)
    (hbuild : LargeBuildsInRange env n_query dim query use_l2 params B M) :
    MixedAccepted D env n_query dim query use_l2 params gen B M (row query dim) ↔
      (B - 1) * dim < 2 ^ 31 ∧ LargeGroupsFit env n_query dim query B := by
  constructor
  · rintro ⟨pq, r, hsplit, -, -, -, -, hindexed⟩
    refine ⟨(splitResult_iff env.groupQueue env.normDist query hn dim hB1).mp ⟨pq, hsplit⟩,
      fun pq' hsplit' gi hgi hbig => ?_⟩
    obtain rfl := hsplit.unique hsplit'
    obtain ⟨index, hindex, -⟩ := hindexed gi hgi hbig
    exact (groupIndex_returns_iff ..).mp ⟨index, hindex⟩
  · rintro ⟨hfit, hgroups⟩
    obtain ⟨pq, res, out, hsplit, -, hout, -, hacc, hstays⟩ := mqo_mixedModified (D := D) env
      hn hfin hB hB1 hM hgen hfit hgroups hbuild
    refine ⟨pq, _, hsplit, hout, hacc, hacc.listsEachOnce, hstays, fun gi hgi hbig => ?_⟩
    obtain ⟨index, hindex, hholds, -⟩ := groupIndex_spec env.builders params.baseOnly use_l2 M
      ((params "ef").getD M) query (hgroups pq hsplit gi hgi hbig)
    exact ⟨index, hindex, fun i hi => ⟨hholds.label i hi, hholds.vector i hi⟩⟩

/-- Any other option is the name of a file. -/
theorem optimizeTrajectory_file (hoption : option ∉ namedOptions) {pairs : Trajectory}
    (hread : Returns (readMst env.disk env.mem option) pairs) :
    Returns (optimizeTrajectory (D := D) env option n_query dim query use_l2 params gen)
      ((pairs ++ [(0, -1)], 0), gen) := by
  simp only [namedOptions, List.mem_cons, List.not_mem_nil, or_false, not_or] at hoption
  obtain ⟨h1, h2, h3, h4⟩ := hoption
  rw [optimizeTrajectory, if_neg h1, if_neg h2, if_neg h3, if_neg h4]
  exact hread.bind (returns_pure _)

/-- **A saved tree.** The edges of `get_mst`, saved and read back, give an
accepted trajectory in which `0` is the only root and every other query has the
parent that `get_mst` found. -/
theorem mqo_savedMst (env : Env F) (params : Params) (gen : Gen)
    (hoption : option ∉ namedOptions)
    (hopen : env.disk.writable option = true) (hn : 1 ≤ n_query) (hint : n_query < 2 ^ 31)
    (hfin : FiniteCosts D use_l2 query dim n_query) {order : ℕ → List ℕ}
    (horder : ParallelOrder n_query order) :
    ∃ mst disk out, Returns (getMst (D := D) n_query dim query use_l2 order) mst ∧
      Returns (saveMst env.disk mst.1 option) disk ∧
      Returns (readMst disk env.mem option) mst.1 ∧
      Returns (mqo D { env with disk := disk } option n_query dim query use_l2 params gen)
        (out, gen) ∧
      Accepted out n_query ∧ (∀ e ∈ out, e.2 = -1 ↔ e = (0, -1)) ∧
      ∀ e, e ∈ mst.1 ↔ e ∈ out ∧ e.2 ≠ -1 := by
  obtain ⟨mst, hmst, htree⟩ := getMst_spec hn hfin horder
  have hlen := htree.length
  obtain ⟨disk, hsave, hread⟩ := readMst_saveMst hopen
    (show mst.1.length < 2 ^ 60 by omega)
    (htree.isIntPair (by omega)) env.mem
  have hforest := htree.forest
  have hopt : Returns (optimizeTrajectory (D := D) { env with disk := disk } option n_query dim
      query use_l2 params gen) ((mst.1 ++ [(0, -1)], 0), gen) :=
    optimizeTrajectory_file hoption hread
  obtain ⟨out, hout, hperm, hacc⟩ := mqo_of_accepted hopt ⟨hforest.2, hforest.1⟩
  have hmem : ∀ e, e ∈ out ↔ e ∈ mst.1 ∨ e = (0, -1) := by
    intro e
    rw [hperm.mem_iff, List.mem_append, List.mem_singleton]
  refine ⟨mst, disk, out, hmst, hsave, hread, hout, hacc, fun e he => ?_, fun e => ?_⟩
  · refine ⟨fun hroot => ?_, fun h => h ▸ rfl⟩
    exact ((hmem e).mp he).resolve_left fun hm => htree.parent e hm hroot
  · rw [hmem]
    constructor
    · exact fun he => ⟨Or.inl he, htree.parent e he⟩
    · rintro ⟨he | rfl, hroot⟩
      · exact he
      · exact absurd rfl hroot

/-- Three queries on a line, with the iterations of the inner loop in the order `2, 0, 1`, saved
as `out.mst`. -/
theorem mqo_savedMst_line : ∃ (mst : Trajectory × Exact ℚ) (disk : Disk) (out : Trajectory),
    Returns (getMst 3 1 (finMatrix fun k => (k : ℚ)) true fun _ => [2, 0, 1]) mst ∧
    Returns (saveMst sampleEnv.disk mst.1 "out.mst") disk ∧
    Returns (mqo (Exact ℚ) { sampleEnv with disk := disk } "out.mst" 3 1
      (finMatrix fun k => (k : ℚ)) true sampleParams fun k => k) (out, fun k => k) ∧
    Accepted out 3 := by
  obtain ⟨mst, disk, out, hmst, hsave, -, hout, hacc, -⟩ := mqo_savedMst (D := Exact ℚ)
    sampleEnv sampleParams (fun k => k) (show "out.mst" ∉ namedOptions by decide) rfl (by decide)
    (by decide) (show FiniteCosts (Exact ℚ) true (finMatrix fun k => (k : ℚ)) 1 3 by
      unfold FiniteCosts; decide +kernel)
    (show ParallelOrder 3 fun _ => [2, 0, 1] from fun _ =>
      show [2, 0, 1].Perm (List.range 3) by decide)
  exact ⟨mst, disk, out, hmst, hsave, hout, hacc⟩

-- ---------------------------------------------------------------------------
-- Arbitrary files
-- ---------------------------------------------------------------------------

/-- The run ends: with an accepted trajectory, or stopped by an assertion. -/
def EndsOrStops (run : Run (Trajectory × Gen)) (n_query : ℕ) : Prop :=
  (∃ r, Returns run r ∧ Accepted r.1 n_query) ∨ ∃ text, Fails run (.assertFailed text)

/-- The pairs lead from `p` to its child `c`. -/
def LeadsTo (pairs : Trajectory) (p c : ℤ) : Prop := (c, p) ∈ pairs

/-- No cycle of the pairs can be reached from the query `0`. -/
def NoCycleFromZero (pairs : Trajectory) : Prop :=
  ¬ ∃ y, Relation.ReflTransGen (LeadsTo pairs) 0 y ∧ Relation.TransGen (LeadsTo pairs) y y

/-- The children and parents of `m` pairs are numbers from `0` to `m`. -/
def PairsInRange (pairs : Trajectory) : Prop :=
  ∀ e ∈ pairs, (0 ≤ e.1 ∧ e.1 ≤ pairs.length) ∧ 0 ≤ e.2 ∧ e.2 ≤ pairs.length

theorem PairsInRange.inRange {pairs : Trajectory} (h : PairsInRange pairs) :
    InRange (pairs ++ [(0, -1)]) where
  child e he := by
    unfold InBounds
    rw [List.length_append, List.length_singleton]
    rcases List.mem_append.mp he with he | he
    · have := h e he
      omega
    · rw [List.mem_singleton.mp he]
      omega
  parent e he := by
    unfold InBounds
    rw [List.length_append, List.length_singleton]
    rcases List.mem_append.mp he with he | he
    · have := h e he
      omega
    · exact Or.inl (by rw [List.mem_singleton.mp he])

/-- The appended pair is the only root. -/
theorem PairsInRange.roots {pairs : Trajectory} (h : PairsInRange pairs) :
    withParent (pairs ++ [(0, -1)]) (-1) = [(0, -1)] := by
  unfold withParent
  have hnone : (pairs.filter fun e => e.2 = -1) = [] := by
    refine List.filter_eq_nil_iff.mpr fun e he => ?_
    have := (h e he).2.1
    simp only [decide_eq_true_eq]
    omega
  rw [List.filter_append, hnone, List.nil_append]
  rfl

/-- The pairs below a pair are the children of its child. -/
theorem below_iff {pairs : Trajectory} {x y : ℤ × ℤ} (hx : 0 ≤ x.1) :
    Below (childEdges (pairs ++ [(0, -1)])) y x ↔ y ∈ pairs ∧ y.2 = x.1 := by
  unfold Below childEdges
  rw [mem_withParent, List.mem_append, List.mem_singleton]
  constructor
  · rintro ⟨hy | rfl, hyx⟩
    · exact ⟨hy, hyx⟩
    · dsimp only at hyx
      omega
  · exact fun hy => ⟨Or.inl hy.1, hy.2⟩

/-- A pair is well-founded for the traversal exactly when its child is for the
pairs. -/
theorem PairsInRange.acc_iff {pairs : Trajectory} (h : PairsInRange pairs) :
    ∀ x : ℤ × ℤ, 0 ≤ x.1 →
      (Acc (Below (childEdges (pairs ++ [(0, -1)]))) x ↔
        Acc (fun c p => LeadsTo pairs p c) x.1) := by
  intro x hx
  constructor
  · intro hacc
    induction hacc with
    | intro x _ ih =>
      refine Acc.intro _ fun c hc => ?_
      exact ih (c, x.1) ((below_iff hx).mpr ⟨hc, rfl⟩) (h (c, x.1) hc).1.1
  · intro hacc
    generalize hc : x.1 = c at hacc
    induction hacc generalizing x with
    | intro c _ ih =>
      refine Acc.intro x fun y hy => ?_
      obtain ⟨hmem, hyx⟩ := (below_iff hx).mp hy
      have hlead : LeadsTo pairs c y.1 := by
        rw [← hc, ← hyx]
        exact hmem
      exact ih y.1 hlead y (h y hmem).1.1 rfl

/-- The traversal from the root ends exactly when no cycle can be reached. -/
theorem PairsInRange.emits_iff {pairs : Trajectory} (h : PairsInRange pairs) :
    (∃ out, Emits (childEdges (pairs ++ [(0, -1)])) (withParent (pairs ++ [(0, -1)]) (-1)) out) ↔
      NoCycleFromZero pairs := by
  have hS : (({0} : Set ℤ) ∪ { c | c ∈ pairs.map Prod.fst }).Finite :=
    (Set.finite_singleton 0).union (List.finite_toSet _)
  have hclosed : ∀ x ∈ (({0} : Set ℤ) ∪ { c | c ∈ pairs.map Prod.fst }), ∀ y,
      LeadsTo pairs x y → y ∈ (({0} : Set ℤ) ∪ { c | c ∈ pairs.map Prod.fst }) :=
    fun _ _ y hy => Or.inr (List.mem_map.mpr ⟨_, hy, rfl⟩)
  have hcycle := acc_iff_no_cycle (r := fun c p => LeadsTo pairs p c) hS hclosed
    (x := 0) (Or.inl rfl)
  rw [h.roots, exists_emits_iff_acc]
  simp only [List.mem_singleton, forall_eq]
  rw [h.acc_iff (0, -1) (le_refl _), hcycle, NoCycleFromZero]
  refine not_congr (exists_congr fun y => and_congr_right fun _ => ?_)
  exact Relation.transGen_swap

/-- `reorder_multiple_DFS` ends on the file's pairs exactly when no cycle can be
reached from `0`, and runs forever otherwise. -/
theorem reorder_file {pairs : Trajectory} (h : PairsInRange pairs) :
    (NoCycleFromZero pairs → ∃ out, Returns (reorderMultipleDFS (pairs ++ [(0, -1)])) out) ∧
      (¬ NoCycleFromZero pairs → Diverges (reorderMultipleDFS (pairs ++ [(0, -1)]))) := by
  constructor
  · intro hno
    obtain ⟨out, hout⟩ := h.emits_iff.mpr hno
    exact ⟨out, reorderMultipleDFS_returns h.inRange hout⟩
  · intro hcycle
    exact reorderMultipleDFS_diverges h.inRange fun hout => hcycle (h.emits_iff.mp hout)

/-- A cycle that can be reached from `0` keeps `mqo` running. -/
theorem mqo_file_diverges (env : Env F) (hoption : option ∉ namedOptions) {pairs : Trajectory}
    (hread : Returns (readMst env.disk env.mem option) pairs) (hrange : PairsInRange pairs)
    (hcycle : ¬ NoCycleFromZero pairs) :
    Diverges (mqo D env option n_query dim query use_l2 params gen) :=
  (optimizeTrajectory_file hoption hread).bind_diverges ((reorder_file hrange).2 hcycle).bind

theorem not_endsOrStops_of_diverges {run : Run (Trajectory × Gen)} (h : Diverges run) :
    ¬ EndsOrStops run n_query := by
  rintro (⟨r, hr, -⟩ | ⟨text, hfail⟩)
  · exact Ends.not_diverges hr h
  · exact Ends.not_diverges hfail h

/-- **Files.** On a file of pairs in range `mqo` ends exactly when no cycle of the
pairs can be reached from the query `0`. -/
theorem mqo_file_terminates_iff (env : Env F) (hoption : option ∉ namedOptions)
    {pairs : Trajectory} (hread : Returns (readMst env.disk env.mem option) pairs)
    (hrange : PairsInRange pairs) :
    EndsOrStops (mqo D env option n_query dim query use_l2 params gen) n_query ↔
      NoCycleFromZero pairs := by
  constructor
  · intro hends
    by_contra hcycle
    exact not_endsOrStops_of_diverges (mqo_file_diverges env hoption hread hrange hcycle) hends
  · intro hno
    have hopt : Returns (optimizeTrajectory (D := D) env option n_query dim query use_l2 params gen)
        ((pairs ++ [(0, -1)], 0), gen) := optimizeTrajectory_file hoption hread
    obtain ⟨out, hout⟩ := (reorder_file hrange).1 hno
    rcases checkTrajectory_ends out n_query with hacc | ⟨text, hfail⟩
    · exact Or.inl ⟨_, hopt.bind (hout.bind (Returns.bind hacc (returns_pure _))), hacc⟩
    · exact Or.inr ⟨text, hopt.bind_ends (hout.bind_ends hfail.bind)⟩

/-- A file with the pair of a tree. -/
theorem mqo_file_tree : EndsOrStops (mqo (Exact ℚ) sampleEnv "tree.mst" 2 1
    (finMatrix fun k => (k : ℚ)) true sampleParams fun k => k) 2 := by
  refine (mqo_file_terminates_iff sampleEnv (by decide)
    (show Returns (readMst sampleEnv.disk sampleEnv.mem "tree.mst") [(1, 0)] from
      returns_of_value (n := 0) (by decide +kernel)) (by unfold PairsInRange; decide)).mpr ?_
  rintro ⟨y, -, hyy⟩
  -- the only pair leads to 1, and none leads on
  have hstep : ∀ a b, LeadsTo [(1, 0)] a b → a = 0 ∧ b = 1 := by
    intro a b hab
    simpa [LeadsTo, and_comm] using hab
  obtain ⟨b, hyb, -⟩ := Relation.TransGen.head'_iff.mp hyy
  obtain ⟨c, -, hcy⟩ := Relation.TransGen.tail'_iff.mp hyy
  have h0 := (hstep y b hyb).1
  have h1 := (hstep c y hcy).2
  omega

/-- A file with the single pair `0 0` keeps `mqo` running. -/
theorem mqo_file_cycle : Returns (readMst sampleEnv.disk sampleEnv.mem "cycle.mst") [(0, 0)] ∧
    PairsInRange [(0, 0)] ∧
    Diverges (mqo (Exact ℚ) sampleEnv "cycle.mst" 2 1 (finMatrix fun k => (k : ℚ)) true sampleParams
      fun k => k) ∧
    ¬ EndsOrStops (mqo (Exact ℚ) sampleEnv "cycle.mst" 2 1 (finMatrix fun k => (k : ℚ)) true
      sampleParams fun k => k) 2 := by
  have hread : Returns (readMst sampleEnv.disk sampleEnv.mem "cycle.mst") [(0, 0)] :=
    returns_of_value (n := 0) (by decide +kernel)
  have hrange : PairsInRange [(0, 0)] := by unfold PairsInRange; decide
  have hcycle : ¬ NoCycleFromZero [(0, 0)] := fun hno =>
    hno ⟨0, Relation.ReflTransGen.refl, Relation.TransGen.single (by simp [LeadsTo])⟩
  have hdiv : Diverges (mqo (Exact ℚ) sampleEnv "cycle.mst" 2 1 (finMatrix fun k => (k : ℚ)) true
      sampleParams fun k => k) :=
    mqo_file_diverges sampleEnv (by decide) hread hrange hcycle
  exact ⟨hread, hrange, hdiv, not_endsOrStops_of_diverges hdiv⟩

end Options

-- ---------------------------------------------------------------------------
-- The other entry points
-- ---------------------------------------------------------------------------

section EntryPoints

variable (D) (env : Env F) (option : String) (n_query dim : ℕ) (query : ℤ → F) (use_l2 : Bool)
  (params : Params) (gen : Gen)

/-- `mqo_no_reorder` -/
def mqoNoReorder : Run (Trajectory × Gen) := do
  let res ← optimizeTrajectory (D := D) env option n_query dim query use_l2 params gen
  pure (res.1.1, res.2)

/-- `mqo_with_info`, without the duration. -/
def mqoWithInfo : Run ((Trajectory × D) × Gen) := do
  let res ← optimizeTrajectory (D := D) env option n_query dim query use_l2 params gen
  let trajectory ← reorderMultipleDFS res.1.1
  checkTrajectory trajectory n_query
  pure ((trajectory, res.1.2), res.2)

variable {D env option n_query dim query use_l2 params gen}

/-- The trajectory of `mqo_with_info` is that of `mqo`. -/
theorem mqo_iff_withInfo {t : Trajectory} {gen' : Gen} :
    Returns (mqo D env option n_query dim query use_l2 params gen) (t, gen') ↔
      ∃ w, Returns (mqoWithInfo D env option n_query dim query use_l2 params gen) ((t, w), gen') := by
  unfold mqo mqoWithInfo
  constructor
  · intro h
    obtain ⟨res, hres, h⟩ := h.of_bind
    obtain ⟨t', hreorder, h⟩ := h.of_bind
    obtain ⟨⟨⟩, hcheck, h⟩ := h.of_bind
    obtain ⟨rfl, rfl⟩ := Prod.mk.inj h.of_pure
    exact ⟨_, hres.bind (hreorder.bind (hcheck.bind (returns_pure _)))⟩
  · rintro ⟨w, h⟩
    obtain ⟨res, hres, h⟩ := h.of_bind
    obtain ⟨t', hreorder, h⟩ := h.of_bind
    obtain ⟨⟨⟩, hcheck, h⟩ := h.of_bind
    have heq := h.of_pure
    simp only [Prod.mk.injEq] at heq
    obtain ⟨⟨rfl, rfl⟩, rfl⟩ := heq
    exact hres.bind (hreorder.bind (hcheck.bind (returns_pure _)))

/-- A forest that `mqo_no_reorder` returns is what `mqo` reorders. -/
theorem mqo_of_noReorder {t : Trajectory} {gen' : Gen}
    (h : Returns (mqoNoReorder D env option n_query dim query use_l2 params gen) (t, gen'))
    (hforest : t.length = n_query ∧ Forest t) :
    ∃ out, Returns (mqo D env option n_query dim query use_l2 params gen) (out, gen') ∧
      out.Perm t ∧ Accepted out n_query := by
  obtain ⟨res, hres, h⟩ := h.of_bind
  obtain ⟨rfl, rfl⟩ := Prod.mk.inj h.of_pure
  exact mqo_of_accepted hres hforest

end EntryPoints

end Mqo
