import Mathlib.Logic.Relation
import Mqo.Trajectory.RootWeight

/-!
# MQO — when the Prim loop selects a vertex

`load_fbin` accepts every bit pattern, so that distances may be infinite or not a
number. The selection loops of `computeMSTs` and of the small-group branch of
`optimize_trajectory_mixed_modified_mst` only take keys below infinity, and go on
to access `inMST[curr]` without asking whether they found one.

* `selectNext_finite` — what is selected has a key below infinity;
* `ReachInv.visit`    — one iteration keeps the invariant: keys below infinity belong to
  vertices that are spread to, and nothing next to a visited vertex is left at infinity;
* `primLoop_ends`     — the loop ends, and selects a vertex in each iteration exactly if
  finite distances spread from the first vertex to all;
* `groupSpreads_congr` — which depends on the matrix alone while the rows fit;
* `selectsVertex_iff` — so for the groups of every file that is loaded.
-/

namespace Mqo

open Prog IntOffset

section Reach

variable {K : Type} [Scalar K] [IsTrans K (· < ·)] {n : ℕ} {d : ℕ → ℕ → K}

/-- The distance from `i` to `j` can be relaxed. -/
def FiniteEdge (n : ℕ) (d : ℕ → ℕ → K) (i j : ℕ) : Prop := j < n ∧ d i j < Scalar.infinity

/-- The vertex can be reached from the first one over distances below infinity. -/
def SpreadsTo (n : ℕ) (d : ℕ → ℕ → K) (v : ℕ) : Prop :=
  Relation.ReflTransGen (FiniteEdge n d) 0 v

/-- All vertices can. -/
def Spreads (n : ℕ) (d : ℕ → ℕ → K) : Prop := ∀ v < n, SpreadsTo n d v

-- ---------------------------------------------------------------------------
-- Selection
-- ---------------------------------------------------------------------------

/-- What is selected is unvisited and has a key below infinity. -/
theorem selectNext_finite {key : ℕ → K × Option ℕ} {inMST : ℕ → Bool} {c : ℕ}
    (h : (selectNext n key inMST).curr = some c) :
    c < n ∧ inMST c = false ∧ (key c).1 < Scalar.infinity := by
  suffices hall : ∀ l : List ℕ, ∀ sel : Selection K,
      (sel.best = Scalar.infinity ∨ sel.best < Scalar.infinity) →
      (∀ c, sel.curr = some c → c < n ∧ inMST c = false ∧ (key c).1 < Scalar.infinity) →
      (∀ j ∈ l, j < n) → ∀ c, (l.foldl (selectStep key inMST) sel).curr = some c →
        c < n ∧ inMST c = false ∧ (key c).1 < Scalar.infinity from
    hall (List.range n) ⟨none, none, Scalar.infinity⟩ (Or.inl rfl) (fun _ hc => by cases hc)
      (fun j hj => List.mem_range.mp hj) c h
  intro l
  induction l with
  | nil => exact fun sel _ hsel _ => hsel
  | cons j l ih =>
    intro sel hbest hsel hl
    have hrest : ∀ i ∈ l, i < n := fun i hi => hl i (List.mem_cons_of_mem j hi)
    rw [List.foldl_cons]
    unfold selectStep
    split
    · next hj =>
      rw [Bool.and_eq_true, Bool.not_eq_true', decide_eq_true_eq] at hj
      have hfinite : (key j).1 < Scalar.infinity := by
        rcases hbest with heq | hlt
        · exact heq ▸ hj.2
        · exact IsTrans.trans _ _ _ hj.2 hlt
      refine ih _ (Or.inr hfinite) (fun c hc => ?_) hrest
      cases hc
      exact ⟨hl j List.mem_cons_self, hj.1, hfinite⟩
    · exact ih sel hbest hsel hrest

-- ---------------------------------------------------------------------------
-- The invariant
-- ---------------------------------------------------------------------------

/-- What holds between two iterations. -/
structure ReachInv (n : ℕ) (d : ℕ → ℕ → K) (state : PrimState K) : Prop where
  nodup   : (state.steps.map PrimStep.node).Nodup
  visited : ∀ v, state.inMST v = true ↔ v ∈ state.steps.map PrimStep.node
  bound   : ∀ v, state.inMST v = true → v < n
  -- the first vertex is visited, or it is the only one with a key
  first   : state.inMST 0 = true ∨ (state.key 0).1 < Scalar.infinity
  key     : ∀ v, (state.key v).1 = Scalar.infinity ∨ (state.key v).1 < Scalar.infinity
  reached : ∀ v, state.inMST v = true ∨ (state.key v).1 < Scalar.infinity → SpreadsTo n d v
  closed  : ∀ i j, state.inMST i = true → state.inMST j = false → FiniteEdge n d i j →
    (state.key j).1 < Scalar.infinity

omit [IsTrans K (· < ·)] in
theorem reachInv_init (n : ℕ) (d : ℕ → ℕ → K) :
    ReachInv n d ⟨initKey, fun _ => false, []⟩ := by
  have hzero : ((initKey 0).1 : K) < Scalar.infinity := by
    rw [initKey, Function.update_self]
    exact Scalar.zero_lt_infinity
  have hother : ∀ v, v ≠ 0 → ((initKey v).1 : K) = Scalar.infinity := fun v hv => by
    rw [initKey, Function.update_of_ne hv]
  refine ⟨List.nodup_nil, fun v => by simp, fun v hv => by simp at hv, Or.inr hzero, fun v => ?_,
    fun v hv => ?_, fun i j hi => by simp at hi⟩
  · by_cases hv : v = 0
    · exact Or.inr (hv ▸ hzero)
    · exact Or.inl (hother v hv)
  · by_cases h0 : v = 0
    · rw [h0]
      exact Relation.ReflTransGen.refl
    · rcases hv with hv | hv
      · simp at hv
      · exact absurd (hother v h0 ▸ hv) (Scalar.not_infinity_lt _)

section Visit

variable {state : PrimState K} (h : ReachInv n d state) (c : ℕ) (parent : Option ℕ)

include h

/-- A key changes only to a distance below infinity. -/
theorem ReachInv.key_cases (v : ℕ) :
    (primVisit (List.range n) d state c parent).key v = state.key v ∨
      (FiniteEdge n d c v ∧
        ((primVisit (List.range n) d state c parent).key v).1 < Scalar.infinity) := by
  rw [primVisit_key state c parent (List.Perm.refl _)]
  split
  · next hv =>
    unfold relaxed
    split
    · next hlt =>
      have hfinite : d c v < Scalar.infinity := by
        rcases h.key v with heq | hkeylt
        · exact heq ▸ hlt
        · exact IsTrans.trans _ _ _ hlt hkeylt
      exact Or.inr ⟨⟨hv.1, hfinite⟩, hfinite⟩
    · exact Or.inl rfl
  · exact Or.inl rfl

/-- What is below infinity stays there. -/
theorem ReachInv.key_mono {v : ℕ} (hv : (state.key v).1 < Scalar.infinity) :
    ((primVisit (List.range n) d state c parent).key v).1 < Scalar.infinity := by
  rcases h.key_cases c parent v with heq | ⟨-, hlt⟩
  · rwa [heq]
  · exact hlt

omit [IsTrans K (· < ·)] in
/-- The vertices next to the new one have just been relaxed. -/
theorem ReachInv.key_relaxed {v : ℕ} (hedge : FiniteEdge n d c v)
    (hv : v ≠ c ∧ state.inMST v = false) :
    ((primVisit (List.range n) d state c parent).key v).1 < Scalar.infinity := by
  rw [primVisit_key state c parent (List.Perm.refl _), if_pos ⟨hedge.1, hv⟩]
  unfold relaxed
  split
  · exact hedge.2
  · next hnot =>
    rcases h.key v with heq | hlt
    · exact absurd (heq ▸ hedge.2) hnot
    · exact hlt

end Visit

/-- **One iteration** keeps the invariant. -/
theorem ReachInv.visit {state : PrimState K} (h : ReachInv n d state) {c : ℕ} (hc : c < n)
    (hnew : state.inMST c = false) (hkey : (state.key c).1 < Scalar.infinity) (parent : Option ℕ) :
    ReachInv n d (primVisit (List.range n) d state c parent) := by
  have hreached : SpreadsTo n d c := h.reached c (Or.inr hkey)
  have hmarked := primVisit_marked (d := d) (List.range n) state c parent
  refine ⟨?_, primVisit_visited c parent h.visited, fun v hv => ?_, ?_, fun v => ?_,
    fun v hv => ?_, fun i j hi hj hij => ?_⟩
  · rw [nodes_primVisit]
    refine List.nodup_append.mpr ⟨h.nodup, List.nodup_singleton c, fun a ha b hb => ?_⟩
    rintro rfl
    rw [List.mem_singleton.mp hb, ← h.visited, hnew] at ha
    cases ha
  · rcases (hmarked v).mp hv with rfl | hv
    · exact hc
    · exact h.bound v hv
  · rcases h.first with h0 | h0
    · exact Or.inl ((hmarked 0).mpr (Or.inr h0))
    · exact Or.inr (h.key_mono c parent h0)
  · rcases h.key_cases c parent v with heq | ⟨-, hlt⟩
    · rw [heq]
      exact h.key v
    · exact Or.inr hlt
  · rcases hv with hv | hv
    · rcases (hmarked v).mp hv with rfl | hv
      · exact hreached
      · exact h.reached v (Or.inl hv)
    · rcases h.key_cases c parent v with heq | ⟨hedge, -⟩
      · exact h.reached v (Or.inr (heq ▸ hv))
      · exact hreached.tail hedge
  · have hjold := (primVisit_unmarked _ _ _ _ j).mp hj
    rcases (hmarked i).mp hi with rfl | hi
    · exact h.key_relaxed i parent hij hjold
    · exact h.key_mono c parent (h.closed i j hi hjold.2 hij)

omit [IsTrans K (· < ·)] in
/-- While finite distances spread to all vertices, some unvisited one has a key below
infinity. -/
theorem ReachInv.selectable {state : PrimState K} (h : ReachInv n d state) (hall : Spreads n d)
    (hlen : state.steps.length < n) :
    ∃ j < n, state.inMST j = false ∧ (state.key j).1 < Scalar.infinity := by
  by_contra hnone
  push Not at hnone
  have hzero : state.inMST 0 = true := by
    rcases h.first with h0 | h0
    · exact h0
    · by_contra hnot
      exact hnone 0 (by omega) (by simpa using hnot) h0
  -- the visited vertices are closed under finite distances
  have hvisited : ∀ v, SpreadsTo n d v → state.inMST v = true := by
    intro v hv
    induction hv with
    | refl => exact hzero
    | @tail i j _ hij ih =>
      by_contra hnot
      have hj : state.inMST j = false := by simpa using hnot
      exact hnone j hij.1 hj (h.closed i j ih hj hij)
  obtain ⟨v, hv, hnot⟩ := exists_unvisited (n := n) (l := state.steps.map PrimStep.node)
    (by simpa using hlen)
  exact hnot ((h.visited v).mp (hvisited v (hall v hv)))

omit [IsTrans K (· < ·)] in
/-- After `n` iterations all vertices have been visited. -/
theorem ReachInv.spreads {state : PrimState K} (h : ReachInv n d state)
    (hlen : state.steps.length = n) : Spreads n d := by
  intro v hv
  have hsub : (state.steps.map PrimStep.node).Subperm (List.range n) :=
    h.nodup.subperm fun u hu => List.mem_range.mpr (h.bound u ((h.visited u).mpr hu))
  have hperm := hsub.perm_of_length_le (by simp [hlen])
  exact h.reached v (Or.inl ((h.visited v).mpr (hperm.mem_iff.mpr (List.mem_range.mpr hv))))

/-- **The Prim loop** selects a vertex in every iteration if finite distances spread from the
first vertex to all; otherwise some iteration finds none and `inMST[-1]` is accessed. -/
theorem primLoop_ends (hn : 0 < n) :
    (Spreads n d ∧ ∃ steps, Returns (primLoop n d) steps) ∨
      (¬ Spreads n d ∧ Fails (primLoop n d) .outOfRange) := by
  have hstep : ∀ (pre : List ℕ) (i : ℕ) (post : List ℕ) (state : PrimState K),
      List.range n = pre ++ i :: post →
      ReachInv n d state ∧ state.steps.length = pre.length →
      (∃ state', Returns (primStep n d state) state' ∧
        ReachInv n d state' ∧ state'.steps.length = (pre ++ [i]).length) ∨
      ∃ e, Fails (primStep n d state) e ∧ e = Fault.outOfRange ∧ ¬ Spreads n d := by
    rintro pre i post state hrange ⟨hinv, hlen⟩
    have hpre : pre.length < n := length_lt_of_range hrange
    unfold primStep
    dsimp only
    cases hsel : (selectNext n state.key state.inMST).curr with
    | none =>
      refine Or.inr ⟨_, fails_fault _, rfl, fun hall => ?_⟩
      obtain ⟨c, b, hnext, -⟩ := selectNext_some (hinv.selectable hall (hlen ▸ hpre))
      rw [hnext] at hsel
      cases hsel
    | some c =>
      obtain ⟨hc, hnew, hkey⟩ := selectNext_finite hsel
      refine Or.inl ⟨_, returns_pure _, hinv.visit hc hnew hkey _, ?_⟩
      rw [length_primVisit, hlen, List.length_append, List.length_singleton]
  unfold primLoop
  rw [if_neg hn.ne']
  rcases foldlM_ends (fun pre state => ReachInv n d state ∧ state.steps.length = pre.length)
    (fun e => e = Fault.outOfRange ∧ ¬ Spreads n d) hstep ⟨reachInv_init n d, rfl⟩ with
    ⟨final, hret, hinv, hlen⟩ | ⟨e, hfail, rfl, hnot⟩
  · exact Or.inl ⟨hinv.spreads (by rw [hlen, List.length_range]), _, hret.bind (returns_pure _)⟩
  · exact Or.inr ⟨hnot, hfail.bind⟩

end Reach

-- ---------------------------------------------------------------------------
-- The loops over the groups
-- ---------------------------------------------------------------------------

section Groups

variable {F D : Type} [Scalar F] [IsTrans F (· < ·)] [Scalar D] [Widen F D]

/-- Every member of the group can be reached from its first one over distances below
infinity between members. -/
def GroupSpreads (use_l2 : Bool) (query : ℤ → F) (dim : ℕ) (group : List ℕ) : Prop :=
  Spreads group.length (groupDistance use_l2 query dim group)

omit [IsTrans F (· < ·)] in
/-- A single query is its own group. -/
theorem groupSpreads_one {use_l2 : Bool} {query : ℤ → F} {dim : ℕ} {group : List ℕ}
    (h : group.length = 1) : GroupSpreads use_l2 query dim group := by
  intro v hv
  rw [h] at hv
  obtain rfl : v = 0 := by omega
  exact Relation.ReflTransGen.refl

omit [IsTrans F (· < ·)] in
/-- Distances that are all finite spread at once. -/
theorem groupSpreads_of_finite {use_l2 : Bool} {query : ℤ → F} {dim n_query : ℕ}
    (hfin : FiniteDistances use_l2 query dim n_query) {group : List ℕ}
    (hgroup : IsGroup n_query group) : GroupSpreads use_l2 query dim group := by
  intro v hv
  by_cases h0 : v = 0
  · rw [h0]
    exact Relation.ReflTransGen.refl
  · exact Relation.ReflTransGen.single
      ⟨hv, hfin.group hgroup 0 (by omega) v hv fun heq => h0 heq.symm⟩

/-- One group of `computeMSTs`. -/
theorem mstOfGroup_ends (use_l2 : Bool) (query : ℤ → F) (dim : ℕ) {info : GroupInfo}
    (hne : info.group ≠ []) (totals : MstTotals D) :
    (GroupSpreads use_l2 query dim info.group ∧
        ∃ totals', Returns (mstOfGroup query dim use_l2 totals info) totals') ∨
      (¬ GroupSpreads use_l2 query dim info.group ∧
        Fails (mstOfGroup query dim use_l2 totals info) .outOfRange) := by
  unfold mstOfGroup
  dsimp only
  by_cases hone : info.group.length = 1
  · rw [if_pos hone]
    exact Or.inl ⟨groupSpreads_one hone, _, returns_pure _⟩
  · rw [if_neg hone]
    rcases primLoop_ends (d := groupDistance use_l2 query dim info.group)
      (List.length_pos_iff.mpr hne) with ⟨hall, steps, hret⟩ | ⟨hnot, hfail⟩
    · exact Or.inl ⟨hall, _, hret.bind (returns_pure _)⟩
    · exact Or.inr ⟨hnot, hfail.bind⟩

/-- One group in the small-group branch of `optimize_trajectory_mixed_modified_mst`. -/
theorem exactGroup_ends (use_l2 : Bool) (query : ℤ → F) (dim : ℕ) {group : List ℕ}
    (hne : group ≠ []) :
    (GroupSpreads use_l2 query dim group ∧
        ∃ loc : Trajectory × D, Returns (exactGroup query dim use_l2 group) loc) ∨
      (¬ GroupSpreads use_l2 query dim group ∧
        Fails (exactGroup (D := D) query dim use_l2 group) .outOfRange) := by
  unfold exactGroup
  rcases primLoop_ends (d := groupDistance use_l2 query dim group)
    (List.length_pos_iff.mpr hne) with ⟨hall, steps, hret⟩ | ⟨hnot, hfail⟩
  · exact Or.inl ⟨hall, _, hret.bind (returns_pure _)⟩
  · exact Or.inr ⟨hnot, hfail.bind⟩

/-- A loop over groups, each of which ends as `Good` tells, ends as all of them do. -/
theorem groups_end {σ : Type} {step : σ → GroupInfo → Run σ} (Good : GroupInfo → Prop)
    (groups : List GroupInfo) (h : ∀ g ∈ groups, ∀ s, (Good g ∧ ∃ s', Returns (step s g) s') ∨
      (¬ Good g ∧ Fails (step s g) .outOfRange)) (s : σ) :
    ((∀ g ∈ groups, Good g) ∧ ∃ s', Returns (groups.foldlM step s) s') ∨
      (¬ (∀ g ∈ groups, Good g) ∧ Fails (groups.foldlM step s) .outOfRange) := by
  have hstep : ∀ pre g post s, groups = pre ++ g :: post → True →
      (Good g ∧ ∃ s', Returns (step s g) s' ∧ True) ∨ (¬ Good g ∧ Fails (step s g) .outOfRange) := by
    intro pre g post s hsplit _
    rcases h g (by rw [hsplit]; simp) s with ⟨hgood, s', hret⟩ | hfail
    · exact Or.inl ⟨hgood, s', hret, trivial⟩
    · exact Or.inr hfail
  rcases foldlM_guarded (fun _ _ => True) hstep (s := s) trivial with ⟨hall, s', hret, -⟩ | hfail
  · exact Or.inl ⟨hall, s', hret⟩
  · exact Or.inr hfail

variable {Q : PriorityQueue GroupInfo} {pq : Q.Heap} {n_query : ℕ}

/-- **`computeMSTs`**: the loop over all groups. -/
theorem mstOfGroups_end (use_l2 : Bool) (query : ℤ → F) (dim : ℕ)
    (hpart : GroupPartition n_query (Q.elems pq)) (totals : MstTotals D) :
    ((∀ g ∈ Q.elems pq, GroupSpreads use_l2 query dim g.group) ∧
        ∃ totals', Returns ((Q.drain pq).foldlM (mstOfGroup query dim use_l2) totals) totals') ∨
      (¬ (∀ g ∈ Q.elems pq, GroupSpreads use_l2 query dim g.group) ∧
        Fails ((Q.drain pq).foldlM (mstOfGroup query dim use_l2) totals) .outOfRange) := by
  have hend := groups_end (fun g => GroupSpreads use_l2 query dim g.group) (Q.drain pq)
    (fun g hg s => mstOfGroup_ends use_l2 query dim (hpart.nonempty g (Q.mem_drain.mp hg)) s) totals
  simp only [Q.mem_drain] at hend
  exact hend

/-- **`optimize_trajectory_mixed_modified_mst`**: where the large groups are treated without a
fault, the loop over all groups. -/
theorem mixedGroups_end (edgeQueue : PriorityQueue (PrimStep F)) (builders : Builders F)
    (base_only use_l2 : Bool) (M ef_construction : ℤ) (query : ℤ → F) (dim : ℕ)
    (hpart : GroupPartition n_query (Q.elems pq))
    (hlarge : ∀ g ∈ Q.elems pq, 500 < g.group.length → ∀ totals : MixedTotals D, ∃ totals',
      Returns (mixedGroup edgeQueue builders base_only use_l2 M ef_construction query dim totals g)
        totals') (totals : MixedTotals D) :
    ((∀ g ∈ Q.elems pq, g.group.length ≤ 500 → GroupSpreads use_l2 query dim g.group) ∧
        ∃ totals', Returns ((Q.drain pq).foldlM (mixedGroup edgeQueue builders base_only use_l2 M
          ef_construction query dim) totals) totals') ∨
      (¬ (∀ g ∈ Q.elems pq, g.group.length ≤ 500 → GroupSpreads use_l2 query dim g.group) ∧
        Fails ((Q.drain pq).foldlM (mixedGroup edgeQueue builders base_only use_l2 M
          ef_construction query dim) totals) .outOfRange) := by
  have hend := groups_end (fun g => g.group.length ≤ 500 → GroupSpreads use_l2 query dim g.group)
    (Q.drain pq) (fun g hg (s : MixedTotals D) => by
      have hmem := Q.mem_drain.mp hg
      have hne := hpart.nonempty g hmem
      have hpos := List.length_pos_iff.mpr hne
      rcases Nat.lt_or_ge 500 g.group.length with hbig | hsmall
      · exact Or.inl ⟨fun hle => by omega, hlarge g hmem hbig s⟩
      · unfold mixedGroup
        dsimp only
        by_cases hone : g.group.length ≤ 1
        · rw [if_pos hone]
          exact Or.inl ⟨fun _ => groupSpreads_one (by omega), _, returns_pure _⟩
        · rw [if_neg hone, if_pos hsmall]
          rcases exactGroup_ends (D := D) use_l2 query dim hne with ⟨hall, loc, hret⟩ | ⟨hnot, hfail⟩
          · exact Or.inl ⟨fun _ => hall, _, hret.bind (returns_pure _)⟩
          · exact Or.inr ⟨fun hgood => hnot (hgood hsmall), hfail.bind⟩) totals
  simp only [Q.mem_drain] at hend
  exact hend

omit [IsTrans F (· < ·)] in
/-- While the rows fit, what lies outside the matrix does not matter. -/
theorem groupSpreads_congr {use_l2 : Bool} {query query' : ℤ → F} {dim n : ℕ} (hfit : RowsFit n dim)
    (hsame : ∀ k : ℕ, k < n * dim → query k = query' k) {group : List ℕ} (hgroup : IsGroup n group) :
    GroupSpreads use_l2 query dim group ↔ GroupSpreads use_l2 query' dim group := by
  have hmem : ∀ i < group.length, group.getD i 0 < n := fun i hi => by
    rw [List.getD_eq_getElem _ _ hi]
    exact hgroup.bound _ (List.getElem_mem hi)
  -- along a path all vertices are members
  have hspread : ∀ {query query' : ℤ → F}, (∀ k : ℕ, k < n * dim → query k = query' k) →
      GroupSpreads use_l2 query dim group → GroupSpreads use_l2 query' dim group := by
    intro query query' hsame hall v hv
    have hpath := hall v hv
    clear hv
    induction hpath with
    | refl => exact Relation.ReflTransGen.refl
    | @tail i j hi hij ih =>
      have hilt : i < group.length := by
        rcases Relation.ReflTransGen.cases_tail hi with rfl | ⟨k, -, hk⟩
        · exact List.length_pos_iff.mpr hgroup.nonempty
        · exact hk.1
      refine ih.tail ⟨hij.1, ?_⟩
      rw [groupDistance,
        ← metricDistance_congr hfit hsame (hmem i hilt) (hmem j hij.1) use_l2]
      exact hij.2
  exact ⟨hspread hsame, hspread fun k hk => (hsame k hk).symm⟩

omit [IsTrans F (· < ·)] in
/-- Two views of one file agree inside the matrix. -/
theorem query_inside (m : Loaded F) (outside outside' : ℤ → F) {k : ℕ} (hk : k < m.values.length) :
    m.query outside k = m.query outside' k := by
  have hin : Inside m.values.length (k : ℤ) := ⟨by omega, by omega⟩
  rw [Loaded.query, Loaded.query, if_pos hin, if_pos hin]

/-- **Which files select a vertex in every iteration.** On a file that `load_fbin` accepts, `split`
returns if the number of values drawn for the hyperplanes is an `int`. For the groups that it
returns: `computeMSTs` gets through its Prim loops exactly if finite
distances spread over every group, the small-group branch through a group of two to 500
exactly if they spread over it, and the loop of `optimize_trajectory_mixed_modified_mst`
through all groups exactly if they spread over every small one, provided that the large
ones are treated without a fault. What lies outside the matrix counts only where the rows do not
fit. -/
theorem selectsVertex_iff (D : Type) [Scalar D] [Widen F D] {ofBits : UInt32 → F}
    {disk : BinaryDisk} {qpath : String} {m : Loaded F}
    (hload : Returns (loadFbin ofBits disk qpath) m) (outside : ℤ → F) (Q : PriorityQueue GroupInfo)
    (edgeQueue : PriorityQueue (PrimStep F)) (builders : Builders F) (normDist : ℕ → F) {B : ℤ}
    (hB : 1 ≤ B) (base_only use_l2 : Bool) (M ef_construction : ℤ) :
    ((∃ pq, SplitResult Q normDist (m.query outside) m.n.toInt.toNat m.d.toInt.toNat B pq) ↔
      (B - 1) * m.d.toInt.toNat < 2 ^ 31) ∧
    ∀ pq, SplitResult Q normDist (m.query outside) m.n.toInt.toNat m.d.toInt.toNat B pq →
      GroupPartition m.n.toInt.toNat (Q.elems pq) ∧
      ((∃ totals : MstTotals D, Returns ((Q.drain pq).foldlM
          (mstOfGroup (m.query outside) m.d.toInt.toNat use_l2) ⟨[], 0, 0⟩) totals) ↔
        ∀ g ∈ Q.elems pq, GroupSpreads use_l2 (m.query outside) m.d.toInt.toNat g.group) ∧
      (∀ g ∈ Q.elems pq, 2 ≤ g.group.length → g.group.length ≤ 500 →
        ((∃ loc : Trajectory × D,
            Returns (exactGroup (m.query outside) m.d.toInt.toNat use_l2 g.group) loc) ↔
          GroupSpreads use_l2 (m.query outside) m.d.toInt.toNat g.group)) ∧
      ((∀ g ∈ Q.elems pq, 500 < g.group.length → ∀ totals : MixedTotals D, ∃ totals',
          Returns (mixedGroup edgeQueue builders base_only use_l2 M ef_construction
            (m.query outside) m.d.toInt.toNat totals g) totals') →
        ((∃ totals : MixedTotals D, Returns ((Q.drain pq).foldlM (mixedGroup edgeQueue builders
            base_only use_l2 M ef_construction (m.query outside) m.d.toInt.toNat) ⟨[], 0, 0⟩)
            totals) ↔
          ∀ g ∈ Q.elems pq, g.group.length ≤ 500 →
            GroupSpreads use_l2 (m.query outside) m.d.toInt.toNat g.group)) ∧
      (RowsFit m.n.toInt.toNat m.d.toInt.toNat → ∀ outside', ∀ g ∈ Q.elems pq,
        (GroupSpreads use_l2 (m.query outside) m.d.toInt.toNat g.group ↔
          GroupSpreads use_l2 (m.query outside') m.d.toInt.toNat g.group)) := by
  obtain ⟨hvalid, hlen⟩ := loadBin_valid hload
  obtain ⟨hpos, hdim⟩ := validHeader_iff.mp hvalid
  have hn : 0 < m.n.toInt.toNat := by omega
  have hvalues : m.values.length = m.n.toInt.toNat * m.d.toInt.toNat := by
    have htotal := toNat_totalSize hpos.le hdim.le
    zify
    rw [hlen, htotal, Int.toNat_of_nonneg hpos.le, Int.toNat_of_nonneg hdim.le]
  refine ⟨splitResult_iff Q normDist (m.query outside) hn _ hB, fun pq hsplit => ?_⟩
  obtain ⟨hpart, -⟩ := hsplit.spec hn hB
  refine ⟨hpart, returns_iff_of_ends (mstOfGroups_end use_l2 (m.query outside) _ hpart _),
    fun g hg _ _ => returns_iff_of_ends (exactGroup_ends use_l2 (m.query outside) _
      (hpart.nonempty g hg)),
    fun hlarge => returns_iff_of_ends (mixedGroups_end edgeQueue builders base_only use_l2 M
      ef_construction (m.query outside) _ hpart hlarge _),
    fun hfit outside' g hg => groupSpreads_congr hfit (fun k hk => ?_) (hpart.isGroup hg)⟩
  exact query_inside m outside outside' (by rw [hvalues]; exact hk)

end Groups

-- ---------------------------------------------------------------------------
-- Files with a number and with a NaN
-- ---------------------------------------------------------------------------

open Exact

/-- Two vectors of one dimension, `0` and `1`, and `0` and not a number. -/
def floatFiles : BinaryDisk := fun name =>
  if name = "one.fbin" then some [2, 0, 0, 0, 1, 0, 0, 0, 0, 0, 0, 0, 0, 0, 0x80, 0x3f]
  else if name = "nan.fbin" then some [2, 0, 0, 0, 1, 0, 0, 0, 0, 0, 0, 0, 0, 0, 0xc0, 0x7f]
  else none

/-- What the two files hold. -/
def oneMatrix : Loaded (Exact ℚ) := ⟨2, 1, [fin 0, fin 1]⟩

def nanMatrix : Loaded (Exact ℚ) := ⟨2, 1, [fin 0, nan]⟩

/-- They are read with zeros around them. -/
def oneQuery : ℤ → Exact ℚ := oneMatrix.query fun _ => fin 0

def nanQuery : ℤ → Exact ℚ := nanMatrix.query fun _ => fin 0

theorem loadFbin_one : Returns (loadFbin floatOfBits floatFiles "one.fbin") oneMatrix :=
  returns_of_value (n := 0) (by decide +kernel)

theorem loadFbin_nan : Returns (loadFbin floatOfBits floatFiles "nan.fbin") nanMatrix :=
  returns_of_value (n := 0) (by decide +kernel)

/-- On the file of two numbers `computeMSTs` gets through its loops. -/
theorem selectsVertex_one : ∃ (pq : (PriorityQueue.byKey GroupInfo.size).Heap)
    (totals : MstTotals (Exact ℚ)),
    Returns (((PriorityQueue.byKey GroupInfo.size).drain pq).foldlM
      (mstOfGroup oneQuery 1 true) ⟨[], 0, 0⟩) totals := by
  obtain ⟨hsplits, hgroups⟩ := selectsVertex_iff (Exact ℚ) loadFbin_one (fun _ => fin 0)
    (PriorityQueue.byKey GroupInfo.size) (leastWeight ℚ) (chainBuilders (Exact ℚ)) (fun _ => fin 0)
    (le_refl 1) false true 2 2
  obtain ⟨pq, hsplit⟩ := hsplits.mpr (by decide)
  obtain ⟨hpart, hiff, -⟩ := hgroups pq hsplit
  have hfin : FiniteDistances true oneQuery 1 2 := by
    unfold FiniteDistances
    decide +kernel
  exact ⟨pq, hiff.mpr fun g hg => groupSpreads_of_finite hfin (hpart.isGroup hg)⟩

/-- Nothing spreads to the vector that is not a number. -/
theorem not_groupSpreads_nan : ¬ GroupSpreads true nanQuery 1 (List.range 2) := by
  intro hall
  have hno : ¬ groupDistance true nanQuery 1 (List.range 2) 0 1 < Scalar.infinity := by
    decide +kernel
  have hzero : ∀ v, SpreadsTo (List.range 2).length
      (groupDistance true nanQuery 1 (List.range 2)) v → v = 0 := by
    intro v hv
    induction hv with
    | refl => rfl
    | @tail i j _ hij ih =>
      subst ih
      have hj : j < 2 := hij.1
      by_contra hne
      obtain rfl : j = 1 := by omega
      exact hno hij.2
  exact absurd (hzero 1 (hall 1 (by decide))) (by decide)

/-- The file with a NaN is accepted; both options then access `inMST[-1]` in the second
iteration of their Prim loop, where `get_mst` breaks off with the edges found so far. -/
theorem nan_selects_nothing :
    Returns (loadFbin floatOfBits floatFiles "nan.fbin") nanMatrix ∧
    (∀ gen, Fails (optimizeTrajectoryLshMst (D := Exact ℚ) (PriorityQueue.byKey GroupInfo.size)
      (fun _ => fin 0) nanQuery 2 1 true sampleParams gen) .outOfRange) ∧
    (∀ gen, Fails (optimizeTrajectoryMixedModifiedMst (D := Exact ℚ)
      (PriorityQueue.byKey GroupInfo.size) (fun _ => fin 0) (leastWeight ℚ) (chainBuilders (Exact ℚ))
      nanQuery 2 1 true sampleParams gen) .outOfRange) ∧
    ∃ mst : Trajectory × Exact ℚ,
      Returns (getMst 2 1 nanQuery true fun _ => [0, 1]) mst ∧ mst = ([], fin 0) := by
  have hhyp : Returns (generateRandomHyperplane (fun _ => (fin 0 : Exact ℚ)) 1 1 (1 : ℕ)) [] :=
    returns_of_value (n := 0) (by decide +kernel)
  obtain ⟨pq, hsplit, hdrain⟩ :=
    split_one (PriorityQueue.byKey GroupInfo.size) nanQuery [] 2 1
  have helems : (PriorityQueue.byKey GroupInfo.size).elems pq = {⟨List.range 2, 2⟩} := by
    rw [← PriorityQueue.coe_drain, hdrain]
    rfl
  have hpart : GroupPartition 2 ((PriorityQueue.byKey GroupInfo.size).elems pq) :=
    helems ▸ GroupPartition.initial (by decide)
  have hgroup : ⟨List.range 2, 2⟩ ∈ (PriorityQueue.byKey GroupInfo.size).elems pq :=
    helems ▸ Multiset.mem_singleton_self _
  obtain ⟨-, hlsh⟩ := (mstOfGroups_end (D := Exact ℚ) true nanQuery 1 hpart
    ⟨[], 0, 0⟩).resolve_left fun h => not_groupSpreads_nan (h.1 _ hgroup)
  obtain ⟨-, hmixed⟩ := (mixedGroups_end (D := Exact ℚ) (leastWeight ℚ) (chainBuilders (Exact ℚ))
    false true 2 2 nanQuery 1 hpart (fun g hg hbig => by
      rw [helems, Multiset.mem_singleton] at hg
      subst hg
      exact absurd hbig (by decide)) ⟨[], 0, 0⟩).resolve_left
    fun h => not_groupSpreads_nan (h.1 _ hgroup (by decide))
  refine ⟨loadFbin_nan, fun gen => hhyp.bind_ends (hsplit.bind_ends hlsh.bind), fun gen => ?_, ?_⟩
  · exact (lookup_returns (show sampleParams "B" = some 1 from rfl)).bind_ends
      ((lookup_returns (show sampleParams "M" = some 2 from rfl)).bind_ends
        (hhyp.bind_ends (hsplit.bind_ends hmixed.bind)))
  · exact exists_returns_of_value (n := 0) (f := id) (by decide +kernel)

end Mqo
