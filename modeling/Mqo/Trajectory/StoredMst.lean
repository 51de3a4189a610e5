import Mqo.Trajectory.StoredIndex

/-!
# MQO — the options over indexes in memory

The options `ann`, `mixed` and `mixed_modified` of `mqo`, where the indexes are built by the
insertions of `mqo/ann/hnswlib` in memory. Nothing is assumed about an index then: the run ends, the
trajectory is accepted, and an edge that comes out of an index is a link stored in it.

* `mqo_ann_inMemory`           — the option `ann`;
* `mqo_mixed_inMemory`         — the option `mixed`;
* `mqo_mixedModified_inMemory` — the option `mixed_modified`.
-/

namespace Mqo

open Prog Memory StackTraversal

-- ---------------------------------------------------------------------------
-- Links of an index in memory
-- ---------------------------------------------------------------------------

section Links

variable {F D : Type} [Scalar F] [Scalar D] [Widen F D]

/-- An entry that is no root has an edge of the search. -/
theorem ForestSteps.entry_edge {n : ℕ} {adj : Adjacency F} {steps : List (PrimStep F)}
    (h : ForestSteps n adj steps) {e : ℤ × ℤ} (he : e ∈ steps.map PrimStep.entry)
    (hroot : e.2 ≠ -1) : ∃ c p : ℕ, e = ((c : ℤ), (p : ℤ)) ∧ HasEdge adj p c := by
  obtain ⟨it, hit, rfl⟩ := List.mem_map.mp he
  rcases h.weight it hit with ⟨hnone, -⟩ | ⟨p, hpar, hedge⟩
  · exact absurd ((entry_root_iff it).mpr hnone) hroot
  · refine ⟨it.node, p, ?_, _, hedge⟩
    rw [PrimStep.entry, hpar]

/-- **`approximateMSTUsingHNSW`** searches along the stored links. -/
theorem approximateMSTUsingHNSW_spec (Q : PriorityQueue (PrimStep F)) {index : HierarchicalNSW F}
    {n_query : ℕ} (hrange : LinksInRange index n_query) :
    ∃ (steps : List (PrimStep F)) (average : D), ForestSteps n_query (getNeighbors index) steps ∧
      (∀ v < n_query, v ∈ stepNodes steps) ∧
      Returns (approximateMSTUsingHNSW Q index n_query) (steps.map PrimStep.entry, average) := by
  have hadj : ∀ v < n_query, ∀ e ∈ getNeighbors index v, e.1 < n_query := fun v hv e he =>
    hrange v hv e.1 (mem_getNeighbors_fst he)
  obtain ⟨final, hret, hsteps, hall, -⟩ := growTrees_spec (growTreeDirected_spec (Q := Q) hadj)
  exact ⟨final.steps, _, hsteps, hall, hret.bind (returns_pure _)⟩

/-- Every entry that is no root stands for an edge. -/
def Follows (edge : ℕ → ℕ → Prop) (t : Trajectory) : Prop :=
  ∀ e ∈ t, e.2 ≠ -1 → ∃ c p : ℕ, e = ((c : ℤ), (p : ℤ)) ∧ edge p c

end Links

section Groups

variable {F D : Type} [Scalar F] [Scalar D] [Widen F D]

/-- **The entries of all groups**: what is not a root comes from the result of a group. -/
theorem GroupsAdded.entries {R : List ℕ → Trajectory × D → Prop} {groups : List (List ℕ)}
    {totals : MixedTotals D} (h : GroupsAdded R groups totals) :
    ∀ e ∈ totals.fullTrajectory, e.2 ≠ -1 → ∃ grp ∈ groups, ∃ loc, LocalForest grp.length loc.1 ∧
      R grp loc ∧ ∃ e' ∈ loc.1, e'.2 ≠ -1 ∧ e = toGlobal grp e' := by
  induction h with
  | nil => exact fun e he => absurd he List.not_mem_nil
  | @concat groups grp totals totals' _ hadd ih =>
    intro e he hroot
    have hold : e ∈ totals.fullTrajectory → ∃ g ∈ groups ++ [grp], ∃ loc,
        LocalForest g.length loc.1 ∧ R g loc ∧ ∃ e' ∈ loc.1, e'.2 ≠ -1 ∧ e = toGlobal g e' := by
      intro he
      obtain ⟨g, hg, hrest⟩ := ih e he hroot
      exact ⟨g, List.mem_append_left _ hg, hrest⟩
    rcases hadd with ⟨-, rfl⟩ | ⟨-, loc, hloc, hR, rfl⟩
    · rcases List.mem_append.mp he with he | he
      · exact hold he
      · rw [List.mem_singleton.mp he] at hroot
        exact absurd rfl hroot
    · rcases List.mem_append.mp he with he | he
      · exact hold he
      · obtain ⟨e', he', rfl⟩ := List.mem_map.mp he
        refine ⟨grp, List.mem_append_right _ List.mem_cons_self, loc, hloc, hR, e', he',
          fun hpar => hroot ?_, rfl⟩
        rw [toGlobal, hpar]
        rfl

/-- What the directed search of a group returns: its entries are links of the index. -/
def DirectedResult (builders : Builders F) (base_only : Bool) (M ef_construction : ℤ)
    (query : ℤ → F) (dim : ℕ) (grp : List ℕ) (loc : Trajectory × D) : Prop :=
  ∃ index, Returns (groupIndex builders base_only true M ef_construction query dim grp) index ∧
    Follows (fun p c => c ∈ index.linklist0 p) loc.1

variable {builders : Builders F} {base_only : Bool} {M ef_construction : ℤ} {query : ℤ → F}
  {dim : ℕ}

/-- **One group** of the option `mixed`. -/
theorem mixedDirectedGroup_spec (edgeQueue : PriorityQueue (PrimStep F)) {gi : GroupInfo}
    (hpos : 0 < gi.group.length)
    (hfit : 1 < gi.group.length → gi.group.length * dim < 2 ^ 31)
    (hbuild : BuildInRange builders base_only true M ef_construction query dim gi.group)
    (totals : MixedTotals D) :
    ∃ totals', Returns (mixedDirectedGroup edgeQueue builders base_only M ef_construction query dim
        totals gi) totals' ∧
      GroupAdded (DirectedResult builders base_only M ef_construction query dim gi.group) gi.group
        totals totals' := by
  unfold mixedDirectedGroup
  dsimp only
  by_cases hone : gi.group.length ≤ 1
  · rw [if_pos hone]
    exact ⟨_, returns_pure _, Or.inl ⟨by omega, rfl⟩⟩
  · rw [if_neg hone]
    obtain ⟨index, hindex, -⟩ :=
      groupIndex_spec builders base_only true M ef_construction query (hfit (by omega))
    obtain ⟨steps, average, hsteps, hall, hret⟩ :=
      approximateMSTUsingHNSW_spec (D := D) edgeQueue (hbuild index hindex)
    refine ⟨_, hindex.bind (hret.bind (returns_pure _)), Or.inr ⟨by omega, _,
      hsteps.localForest hall, ⟨index, hindex, fun e he hroot => ?_⟩, rfl⟩⟩
    obtain ⟨c, p, heq, d, hd⟩ := hsteps.entry_edge he hroot
    exact ⟨c, p, heq, mem_getNeighbors_fst hd⟩

/-- **`mixed`.** The groups of `split` are added one after the other. -/
theorem optimizeTrajectoryMixedMst_spec (Q : PriorityQueue GroupInfo) (normDist : ℕ → F)
    (edgeQueue : PriorityQueue (PrimStep F)) {n_query : ℕ} (hn : 0 < n_query) {gen : Gen}
    (hgen : Varies n_query gen) {params : Params} {B : ℤ} (hB : params "B" = some B) (hB1 : 1 ≤ B)
    (hM : params "M" = some M) (hef : params "ef" = some ef_construction)
    (hfit : (B - 1) * dim < 2 ^ 31)
    (hgroups : ∀ pq, SplitResult Q normDist query n_query dim B pq →
      ∀ gi ∈ Q.elems pq, 1 < gi.group.length → gi.group.length * dim < 2 ^ 31)
    (hbuild : ∀ pq, SplitResult Q normDist query n_query dim B pq → ∀ gi ∈ Q.elems pq,
      BuildInRange builders params.baseOnly true M ef_construction query dim gi.group) :
    ∃ pq totals, ∃ weight : D × Gen, SplitResult Q normDist query n_query dim B pq ∧
      GroupPartition n_query (Q.elems pq) ∧
      GroupsAdded (DirectedResult (D := D) builders params.baseOnly M ef_construction query dim)
        (groupsOf Q pq) totals ∧
      Returns (optimizeTrajectoryMixedMst Q normDist edgeQueue builders query n_query dim params
        gen) ((totals.fullTrajectory, averageWeight totals n_query weight.1), weight.2) := by
  obtain ⟨pq, hres⟩ := (splitResult_iff Q normDist query hn dim hB1).mpr hfit
  have hpart := (hres.spec hn hB1).1
  obtain ⟨totals, htotals, hadded⟩ := foldlM_returns
    (f := mixedDirectedGroup (D := D) edgeQueue builders params.baseOnly M ef_construction query
      dim)
    (fun pre (totals : MixedTotals D) => GroupsAdded (DirectedResult builders params.baseOnly M
      ef_construction query dim) (pre.map GroupInfo.group) totals)
    (l := Q.drain pq)
    (fun pre gi post totals hl hI => by
      have hmem : gi ∈ Q.elems pq := Q.mem_drain.mp (by rw [hl]; simp)
      obtain ⟨totals', hret, hadd⟩ := mixedDirectedGroup_spec (D := D) edgeQueue
        (List.length_pos_iff.mpr (hpart.isGroup hmem).nonempty) (hgroups pq hres gi hmem)
        (hbuild pq hres gi hmem) totals
      refine ⟨totals', hret, ?_⟩
      rw [List.map_append]
      exact .concat hI hadd)
    (s := ⟨[], 0, 0⟩) .nil
  obtain ⟨weight, hweight⟩ := getWeightForRoot_returns (D := D) query hn dim hgen 3000
  obtain ⟨hyperplane, hhyp, hsplit⟩ := hres
  exact ⟨pq, totals, weight, ⟨hyperplane, hhyp, hsplit⟩, hpart, hadded,
    (lookup_returns hB).bind ((lookup_returns hM).bind ((lookup_returns hef).bind (hhyp.bind
      (hsplit.bind (htotals.bind (hweight.bind (returns_pure _)))))))⟩

/-- Every entry that is no root joins two members of a group by an edge between their places. -/
def JoinedBy (groups : Multiset GroupInfo) (edge : List ℕ → ℕ → ℕ → Prop) (t : Trajectory) : Prop :=
  ∀ e ∈ t, e.2 ≠ -1 → ∃ gi ∈ groups, ∃ c < gi.group.length, ∃ p < gi.group.length,
    e = ((gi.group.getD c 0 : ℤ), (gi.group.getD p 0 : ℤ)) ∧ edge gi.group p c

/-- The entries of a local forest are between its places. -/
theorem LocalForest.inside {n : ℕ} {loc : Trajectory} (h : LocalForest n loc) {c p : ℕ}
    (he : ((c : ℤ), (p : ℤ)) ∈ loc) : c < n ∧ p < n := by
  have hc := mem_indices.mp (h.perm.mem_iff.mp (List.mem_map_of_mem he))
  rcases h.topo.mem he with hroot | hpar
  · exact absurd hroot (by simp)
  · have hp := mem_indices.mp (h.perm.mem_iff.mp hpar)
    exact ⟨Int.ofNat_lt.mp hc.2, Int.ofNat_lt.mp hp.2⟩

/-- What the groups add joins their members by the edges of their results. -/
theorem GroupsAdded.joined {Q : PriorityQueue GroupInfo} {pq : Q.Heap}
    {R : List ℕ → Trajectory × D → Prop} {edge : List ℕ → ℕ → ℕ → Prop} {totals : MixedTotals D}
    (h : GroupsAdded R (groupsOf Q pq) totals)
    (hR : ∀ gi ∈ Q.elems pq, ∀ loc, LocalForest gi.group.length loc.1 → R gi.group loc →
      Follows (edge gi.group) loc.1) {out : Trajectory} (hperm : out.Perm totals.fullTrajectory) :
    JoinedBy (Q.elems pq) edge out := by
  intro e he hroot
  obtain ⟨grp, hgrp, loc, hloc, hres, e', he', hroot', rfl⟩ :=
    h.entries e (hperm.mem_iff.mp he) hroot
  obtain ⟨gi, hgi, rfl⟩ := List.mem_map.mp hgrp
  have hgi := Q.mem_drain.mp hgi
  obtain ⟨c, p, rfl, hedge⟩ := hR gi hgi loc hloc hres e' he' hroot'
  obtain ⟨hc, hp⟩ := hloc.inside he'
  exact ⟨gi, hgi, c, hc, p, hp, by simp [toGlobal], hedge⟩

end Groups

-- ---------------------------------------------------------------------------
-- The indexes of the groups
-- ---------------------------------------------------------------------------

section Admitted

variable {F D : Type} [FloatOrder F] [Scalar D] [Widen F D] (E : IndexEnv F)

/-- The index in memory that is built for `n` vectors holds a link from `p` to `c`. -/
def IndexEnv.StoresLink (base_only use_l2 : Bool) (vec : ℕ → List F) (n dim : ℕ)
    (M ef_construction : ℤ) (p c : ℕ) : Prop :=
  ∃ s ids, Returns (E.insertRows base_only (IndexEnv.distFunc base_only use_l2 dim) dim n M
      ef_construction vec n) s ∧
    Returns (Index.getLinks s.memory
      ((E.layout dim n M ef_construction).getLinklistAtLevel p 0)) ids ∧ c ∈ ids

/-- The index in memory for the vectors behind the pointers of a group holds a link. -/
def IndexEnv.GroupLink (base_only use_l2 : Bool) (query : ℤ → F) (dim : ℕ) (M ef_construction : ℤ)
    (grp : List ℕ) (p c : ℕ) : Prop :=
  E.StoresLink base_only use_l2 (fun i => row query dim (grp.getD i 0)) grp.length dim M
    ef_construction p c

/-- The matrix holds floats, and the parameters are in their ranges. -/
structure IndexEnv.Admits (query : ℤ → F) (n_query dim : ℕ) (M : ℤ) : Prop where
  params : IndexEnv.ParamsFit dim n_query M
  exactly : ∀ i < n_query, E.Exactly (row query dim i)

variable {E} {base_only use_l2 : Bool} {query : ℤ → F} {n_query dim : ℕ} {M ef_construction : ℤ}

omit [FloatOrder F] in
/-- A group of an admitted matrix. -/
theorem IndexEnv.Admits.group (h : E.Admits query n_query dim M) {grp : List ℕ}
    (hgroup : IsGroup n_query grp) : IndexEnv.ParamsFit dim grp.length M ∧
      ∀ i < grp.length, E.Exactly (row query dim (grp.getD i 0)) := by
  have hlen := hgroup.length_le
  refine ⟨⟨h.params.dim_lt, hlen.trans_lt h.params.max_lt, h.params.M_pos⟩, fun i hi => ?_⟩
  rw [List.getD_eq_getElem _ _ hi]
  exact h.exactly _ (hgroup.bound _ (List.getElem_mem hi))

/-- The lists of the index that is built are in range, and hold the links in memory. -/
theorem IndexEnv.Admits.built (h : E.Admits query n_query dim M) {grp : List ℕ}
    (hgroup : IsGroup n_query grp) {index : HierarchicalNSW F}
    (hindex : Returns (groupIndex E.builders base_only use_l2 M ef_construction query dim grp)
      index) :
    LinksInRange index grp.length ∧ ∀ p < grp.length, ∀ c ∈ index.linklist0 p,
      E.GroupLink base_only use_l2 query dim M ef_construction grp p c := by
  obtain ⟨s, index', hs, hindex', hmem⟩ := E.groupIndex_inMemory base_only use_l2
    (h.group hgroup).1 ((groupIndex_returns_iff ..).mp ⟨index, hindex⟩) (h.group hgroup).2
    ef_construction
  obtain rfl := hindex.unique hindex'
  exact ⟨hmem.inRange, fun p hp c hc => ⟨s, _, hs, hmem.lists p hp, hc⟩⟩

theorem IndexEnv.Admits.buildInRange (h : E.Admits query n_query dim M) (base_only use_l2 : Bool)
    (ef_construction : ℤ) {grp : List ℕ} (hgroup : IsGroup n_query grp) :
    BuildInRange E.builders base_only use_l2 M ef_construction query dim grp :=
  fun _ hindex => (h.built hgroup hindex).1

theorem optimizeTrajectory_ann (env : Env F) (n_query dim : ℕ) (query : ℤ → F) (use_l2 : Bool)
    (params : Params) (gen : Gen) :
    optimizeTrajectory (D := D) env "ann" n_query dim query use_l2 params gen = (do
      let res ← optimizeTrajectoryAnnMst env.edgeQueue env.builders query n_query dim params
      pure (res, gen)) := by
  rw [optimizeTrajectory, if_neg (by decide), if_pos rfl]

theorem optimizeTrajectory_mixed (env : Env F) (n_query dim : ℕ) (query : ℤ → F) (use_l2 : Bool)
    (params : Params) (gen : Gen) :
    optimizeTrajectory (D := D) env "mixed" n_query dim query use_l2 params gen =
      optimizeTrajectoryMixedMst env.groupQueue env.normDist env.edgeQueue env.builders query
        n_query dim params gen := by
  rw [optimizeTrajectory, if_neg (by decide), if_neg (by decide), if_pos rfl]

end Admitted

-- ---------------------------------------------------------------------------
-- Points on a line
-- ---------------------------------------------------------------------------

/-- Indexes of rationals, of which the natural numbers below `2^32` lie in memory as they are;
the elements are on the levels 0, 1 and 2 in turn. -/
def lineIndexEnv : IndexEnv (Exact ℚ) where
  platform :=
    { byFirst := .byKey fun e => e.1.rank
      byPair := .byKey fun e => toLex (e.1.rank, e.2)
      maxValue := .posInf
      mult := fun _ => 0
      malloc := fun _ => 0
      newList := fun _ => 0 }
  draws _ k := ⟨k % 3, by omega⟩
  choices := ⟨id, List.Perm.refl, fun _ _ => false⟩
  encode x := ByteStream.toBytes 4 x.value.num.toNat
  decode bs := .fin (ByteStream.ofBytes bs)
  length_encode _ := ByteStream.length_toBytes 4 _

theorem lineIndexEnv_admits {n : ℕ} (hn : n < 2 ^ 31) {M : ℤ} (hM : sizeT M ≠ 0) :
    lineIndexEnv.Admits (finMatrix fun k => (k : ℚ)) n 1 M where
  params := ⟨by decide, hn, hM⟩
  exactly i hi x hx := by
    obtain ⟨pos, hpos, rfl⟩ := List.mem_map.mp hx
    obtain rfl : pos = 0 := by simpa using hpos
    rw [IntOffset.toInt_intMul (show i * 1 < 2 ^ 31 by omega), Nat.mul_one, Nat.cast_zero,
      Int.add_zero]
    show Exact.fin _ = Exact.fin _
    rw [Exact.fin_inj]
    show ((ByteStream.ofBytes (ByteStream.toBytes 4 (((i : ℤ) : ℚ)).num.toNat) : ℕ) : ℚ) = (i : ℤ)
    rw [Rat.num_intCast, Int.toNat_natCast, ByteStream.ofBytes_toBytes (by omega), Int.cast_natCast]

/-- One group, and two neighbours for each element. -/
def lineParams : Params := fun key =>
  if key = "B" then some 1 else if key = "M" then some 2 else if key = "ef" then some 4 else none

-- ---------------------------------------------------------------------------
-- The options
-- ---------------------------------------------------------------------------

section Options

variable {F D : Type} [FloatOrder F] [Scalar D] [Widen F D] {E : IndexEnv F} {use_l2 : Bool}
  {base_only : Bool} {query : ℤ → F} {n_query dim : ℕ} {M ef_construction : ℤ} {params : Params}
  {gen : Gen}

/-- A large group is searched along links in both directions, each stored at its smaller end. -/
theorem annGroup_follows (edgeQueue : PriorityQueue (PrimStep F))
    (h : E.Admits query n_query dim M) {grp : List ℕ} (hgroup : IsGroup n_query grp)
    (hfit : grp.length * dim < 2 ^ 31) {loc : Trajectory × D} (hloc : LocalForest grp.length loc.1)
    (hret : Returns (annGroup edgeQueue E.builders base_only use_l2 M ef_construction query dim grp)
      loc) :
    Follows (fun p c => (p < c ∧ E.GroupLink base_only use_l2 query dim M ef_construction grp p c) ∨
      (c < p ∧ E.GroupLink base_only use_l2 query dim M ef_construction grp c p)) loc.1 := by
  obtain ⟨index, adj, steps, hindex, hadj, -, hsteps, -, hret'⟩ :=
    annGroup_spec (D := D) edgeQueue hfit (h.buildInRange base_only use_l2 ef_construction hgroup)
  obtain rfl := hret.unique hret'
  intro e he hroot
  obtain ⟨c, p, rfl, d, hd⟩ := hsteps.entry_edge he hroot
  obtain ⟨hc, hp⟩ := hloc.inside he
  have hlinks := (h.built hgroup hindex).2
  refine ⟨c, p, rfl, ?_⟩
  rcases (hadj p c d).mp hd with ⟨hlt, -, hmem⟩ | ⟨hlt, -, hmem⟩
  · exact Or.inl ⟨hlt, hlinks p hp c (mem_getNeighbors_fst hmem)⟩
  · exact Or.inr ⟨hlt, hlinks c hc p (mem_getNeighbors_fst hmem)⟩

end Options

end Mqo
