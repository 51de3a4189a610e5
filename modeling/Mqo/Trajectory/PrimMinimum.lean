import Mqo.Lib.LightestForest
import Mqo.Trajectory.Groups
import Mqo.Trajectory.Prim

/-!
# MQO — the Prim loop finds a minimum spanning tree

In exact arithmetic, with finite symmetric weights of any sign, the key of a
vertex not visited yet is the least weight of an edge to a visited one. The
vertex of least key is therefore reached through a lightest edge that leaves
the vertices visited, and the tree is minimal.

* `selectNext_least`   — the key selected is a least one;
* `primVisit_least`    — one iteration keeps the keys least;
* `primLoop_lightest`  — every edge taken is lightest among those leaving;
* `PrimSteps.growsLightest` — so the steps, as pairs of members of a group,
  grow a minimum spanning tree of the complete graph on the group.
-/

namespace Mqo

open Prog StackTraversal LightestForest

/-- The pairs of the entries that are not roots. -/
def entryEdges (t : Trajectory) : Finset (Sym2 ℕ) :=
  (t.filterMap fun e => if e.2 = -1 then none else some s(e.2.toNat, e.1.toNat)).toFinset

/-- A record of a search as a pair (child, parent). -/
def recordEntry {W : Type} (e : ℕ × Option (ℕ × W)) : ℤ × ℤ :=
  (e.1, match e.2 with
    | none => -1
    | some pw => pw.1)

/-- The pairs of the entries are the edges recorded. -/
theorem entryEdges_recordEntry {W : Type} (l : List (ℕ × Option (ℕ × W))) :
    entryEdges (l.map recordEntry) = treeEdges l := by
  unfold entryEdges treeEdges
  rw [List.filterMap_map]
  congr 1
  refine List.filterMap_congr ?_
  rintro ⟨c, _ | ⟨p, w⟩⟩ -
  · rfl
  · have hne : ¬ ((p : ℕ) : ℤ) = -1 := by omega
    simp only [Function.comp, recordEntry, Int.toNat_natCast, Option.map_some]
    exact if_neg hne

-- ---------------------------------------------------------------------------
-- Selection
-- ---------------------------------------------------------------------------

section Selection

variable {K : Type} [Scalar K] [IsStrictOrder K (· < ·)]

/-- No key of an unvisited vertex is below the one selected. -/
theorem selectNext_least (n : ℕ) (key : ℕ → K × Option ℕ) (inMST : ℕ → Bool) :
    ∀ j < n, inMST j = false → ¬ (key j).1 < (selectNext n key inMST).best := by
  suffices h : ∀ l : List ℕ, ∀ j ∈ l, inMST j = false →
      ¬ (key j).1 < (l.foldl (selectStep key inMST) ⟨none, none, Scalar.infinity⟩).best from
    fun j hj => h (List.range n) j (List.mem_range.mpr hj)
  intro l
  induction l using List.reverseRecOn with
  | nil => exact fun j hj => absurd hj List.not_mem_nil
  | append_singleton l i ih =>
    intro j hj hvis
    rw [List.foldl_append, List.foldl_cons, List.foldl_nil]
    generalize hsel : l.foldl (selectStep key inMST) ⟨none, none, Scalar.infinity⟩ = sel at ih
    unfold selectStep
    split
    · next hi =>
      rw [Bool.and_eq_true, decide_eq_true_eq] at hi
      rcases List.mem_append.mp hj with hj | hj
      · -- a smaller key would be below the old best one
        exact fun hlt => ih j hj hvis (IsTrans.trans _ _ _ hlt hi.2)
      · rw [List.mem_singleton.mp hj]
        exact irrefl _
    · next hi =>
      rw [Bool.and_eq_true, decide_eq_true_eq, Bool.not_eq_true'] at hi
      rcases List.mem_append.mp hj with hj | hj
      · exact ih j hj hvis
      · rw [List.mem_singleton] at hj
        subst hj
        exact fun hlt => hi ⟨hvis, hlt⟩

end Selection

-- ---------------------------------------------------------------------------
-- Least keys
-- ---------------------------------------------------------------------------

section Least

variable {R : Type} [Field R] [LinearOrder R] [Root R] {n : ℕ} {δ : ℕ → ℕ → R}

/-- The weights of a real matrix. -/
def finWeight (δ : ℕ → ℕ → R) : ℕ → ℕ → Exact R := fun i j => .fin (δ i j)

/-- Each step takes an edge that is lightest among those that leave the vertices
visited before. -/
def LightestSteps (n : ℕ) (δ : ℕ → ℕ → R) (steps : List (PrimStep (Exact R))) : Prop :=
  ∀ pre s post, steps = pre ++ s :: post → ∀ q ∈ pre.map PrimStep.node,
    ∀ v < n, v ∉ pre.map PrimStep.node → ¬ finWeight δ q v < s.weight

/-- The key of an unvisited vertex is least among its edges to visited ones. -/
def LeastKeys (n : ℕ) (δ : ℕ → ℕ → R) (state : PrimState (Exact R)) : Prop :=
  ∀ v < n, state.inMST v = false → ∀ q ∈ state.steps.map PrimStep.node,
    ¬ finWeight δ q v < (state.key v).1

/-- Relaxation keeps a key least, and makes it at most the new weight. -/
theorem relaxed_least {d : ℕ → ℕ → Exact R} {curr v : ℕ} {k : Exact R × Option ℕ} {x : Exact R}
    (h : ¬ x < k.1 ∨ x = d curr v) : ¬ x < (relaxed d curr v k).1 := by
  unfold relaxed
  split
  · next hlt =>
    rcases h with h | rfl
    · exact fun hx => h (IsTrans.trans _ _ _ hx hlt)
    · exact irrefl _
  · next hnot =>
    rcases h with h | rfl
    · exact h
    · exact hnot

/-- One iteration keeps the keys least. -/
theorem primVisit_least {state : PrimState (Exact R)} (h : LeastKeys n δ state) (curr : ℕ)
    (parent : Option ℕ) :
    LeastKeys n δ (primVisit (List.range n) (finWeight δ) state curr parent) := by
  intro v hv hunmarked q hq
  have hunv := (primVisit_unmarked _ _ _ _ v).mp hunmarked
  rw [primVisit_key state curr _ (List.Perm.refl _), if_pos ⟨hv, hunv⟩]
  rw [nodes_primVisit, List.mem_append, List.mem_singleton] at hq
  refine relaxed_least ?_
  rcases hq with hq | rfl
  · exact Or.inl (h v hv hunv.2 q hq)
  · exact Or.inr rfl

/-- In exact arithmetic the vertex selected is reached through a lightest edge. -/
theorem PrimInv.lightest {state : PrimState (Exact R)} (hinv : PrimInv n (finWeight δ) state)
    (h : LeastKeys n δ state) {c : ℕ}
    (hc : (selectNext n state.key state.inMST).curr = some c) :
    ∀ q ∈ state.steps.map PrimStep.node, ∀ v < n, v ∉ state.steps.map PrimStep.node →
      ¬ finWeight δ q v < (state.key c).1 := by
  intro q hq v hv hnot
  have hvis : state.inMST v = false := by
    rw [← Bool.not_eq_true, hinv.visited]
    exact hnot
  have hne : state.steps ≠ [] := by
    rintro hnil
    simp [hnil] at hq
  have hleast := selectNext_least n state.key state.inMST v hv hvis
  generalize hsel : selectNext n state.key state.inMST = sel at hc hleast
  cases hsel ▸ selectNext_selected n state.key state.inMST with
  | none _ => cases hc
  | @some c' b hc' hvis' _ =>
    cases hc
    -- both keys are finite
    obtain ⟨p, -, hv'⟩ := hinv.later hne v hv hvis
    obtain ⟨p', -, hc''⟩ := hinv.later hne c (List.mem_range.mp hc') hvis'
    have hkey := h v hv hvis q hq
    rw [hv'] at hkey hleast
    rw [hc''] at hleast ⊢
    exact not_lt.mpr ((not_lt.mp hleast).trans (not_lt.mp hkey))

omit [Field R] [Root R] in
/-- The step of the root takes no edge; every other one takes a lightest one. -/
theorem lightestSteps_concat {steps : List (PrimStep (Exact R))} {s : PrimStep (Exact R)}
    (h : LightestSteps n δ steps) (hs : ∀ q ∈ steps.map PrimStep.node, ∀ v < n,
      v ∉ steps.map PrimStep.node → ¬ finWeight δ q v < s.weight) :
    LightestSteps n δ (steps ++ [s]) :=
  forall_split_concat (P := fun pre s => ∀ q ∈ pre.map PrimStep.node, ∀ v < n,
    v ∉ pre.map PrimStep.node → ¬ finWeight δ q v < s.weight) h hs

/-- **The Prim loop.** Every edge taken is lightest among those that leave. -/
theorem primLoop_lightest (hn : 0 < n) :
    ∃ steps, Returns (primLoop n (finWeight δ)) steps ∧ PrimSteps n (finWeight δ) steps ∧
      steps.length = n ∧ LightestSteps n δ steps := by
  have hfin : ∀ i < n, ∀ j < n, i ≠ j → finWeight δ i j < Scalar.infinity :=
    fun i _ j _ _ => trivial
  have hstep : ∀ (pre : List ℕ) (i : ℕ) (post : List ℕ) (state : PrimState (Exact R)),
      List.range n = pre ++ i :: post →
      PrimInv n (finWeight δ) state ∧ state.steps.length = pre.length ∧ LeastKeys n δ state ∧
        LightestSteps n δ state.steps →
      ∃ state', Returns (primStep n (finWeight δ) state) state' ∧
        PrimInv n (finWeight δ) state' ∧ state'.steps.length = (pre ++ [i]).length ∧
        LeastKeys n δ state' ∧ LightestSteps n δ state'.steps := by
    rintro pre i post state hrange ⟨hinv, hlen, hleast, hlight⟩
    have hpre : pre.length < n := length_lt_of_range hrange
    obtain ⟨c, hnext, hvisit⟩ := primVisit_spec hinv hfin (hlen ▸ hpre)
    refine ⟨primVisit (List.range n) (finWeight δ) state c
      (selectNext n state.key state.inMST).parent, ?_, hvisit _ (List.Perm.refl _), ?_,
      primVisit_least hleast c _, lightestSteps_concat hlight (hinv.lightest hleast hnext)⟩
    · unfold primStep
      dsimp only
      rw [hnext]
      exact returns_pure _
    · rw [length_primVisit, hlen, List.length_append, List.length_singleton]
  obtain ⟨final, hret, hinv, hlen, -, hlight⟩ := foldlM_returns
    (fun pre state => PrimInv n (finWeight δ) state ∧ state.steps.length = pre.length ∧
      LeastKeys n δ state ∧ LightestSteps n δ state.steps) hstep
    (s := ⟨initKey, fun _ => false, []⟩)
    ⟨primInv_init, rfl, fun v _ _ q hq => absurd hq List.not_mem_nil, fun pre s post h => by
      simp at h⟩
  refine ⟨final.steps, ?_, hinv.steps, by rw [hlen, List.length_range], hlight⟩
  rw [primLoop, if_neg (by omega)]
  exact hret.bind (returns_pure _)

-- ---------------------------------------------------------------------------
-- The tree of a group
-- ---------------------------------------------------------------------------

variable {grp : List ℕ} {Δ : ℕ → ℕ → R}

/-- The complete graph on a group. -/
def groupEdge (grp : List ℕ) (Δ : ℕ → ℕ → R) (a b : ℕ) (w : R) : Prop :=
  a ∈ grp ∧ b ∈ grp ∧ a ≠ b ∧ w = Δ a b

/-- The weights of a group by local indices. -/
def localWeight (grp : List ℕ) (Δ : ℕ → ℕ → R) (i j : ℕ) : R :=
  Δ (grp.getD i 0) (grp.getD j 0)

/-- A step as a pair of members of the group. -/
def PrimStep.groupRecord (grp : List ℕ) (Δ : ℕ → ℕ → R) (s : PrimStep (Exact R)) :
    ℕ × Option (ℕ × R) :=
  (grp.getD s.node 0, s.parent.map fun p => (grp.getD p 0, localWeight grp Δ p s.node))

omit [Field R] [LinearOrder R] [Root R] in
theorem nodes_groupRecord (grp : List ℕ) (Δ : ℕ → ℕ → R) (steps : List (PrimStep (Exact R))) :
    nodes (steps.map (PrimStep.groupRecord grp Δ)) =
      (steps.map PrimStep.node).map fun i => grp.getD i 0 := by
  rw [nodes, List.map_map, List.map_map]
  rfl

/-- Every member of a group has one local index. -/
theorem exists_getD {b : ℕ} (hb : b ∈ grp) : ∃ i < grp.length, grp.getD i 0 = b := by
  obtain ⟨i, hi, rfl⟩ := List.getElem_of_mem hb
  exact ⟨i, hi, List.getD_eq_getElem _ _ hi⟩

theorem getD_inj (hnd : grp.Nodup) {i j : ℕ} (hi : i < grp.length) (hj : j < grp.length)
    (h : grp.getD i 0 = grp.getD j 0) : i = j := by
  rw [List.getD_eq_getElem _ _ hi, List.getD_eq_getElem _ _ hj] at h
  exact (hnd.getElem_inj_iff).mp h

theorem getD_mem_of_lt {i : ℕ} (hi : i < grp.length) : grp.getD i 0 ∈ grp := by
  rw [List.getD_eq_getElem _ _ hi]
  exact List.getElem_mem hi

/-- **The tree of a group.** The steps of the Prim loop grow a minimum spanning tree
of the complete graph on the group. -/
theorem PrimSteps.growsLightest (hnd : grp.Nodup) {steps : List (PrimStep (Exact R))}
    (h : PrimSteps grp.length (finWeight (localWeight grp Δ)) steps)
    (hlight : LightestSteps grp.length (localWeight grp Δ) steps) :
    GrowsLightest (groupEdge grp Δ) (steps.map (PrimStep.groupRecord grp Δ)) := by
  suffices hpre : ∀ pre post, steps = pre ++ post →
      GrowsLightest (groupEdge grp Δ) (pre.map (PrimStep.groupRecord grp Δ)) from
    hpre steps [] (List.append_nil steps).symm
  intro pre
  induction pre using List.reverseRecOn with
  | nil => exact fun _ _ => GrowsLightest.nil
  | append_singleton pre s ih =>
    intro post hsteps
    have hsplit : steps = pre ++ s :: post := by rw [hsteps, List.append_assoc]; rfl
    have hgrows := ih (s :: post) hsplit
    have hlt : ∀ t ∈ pre, t.node < grp.length := fun t ht =>
      h.bound t (hsplit ▸ List.mem_append_left _ ht)
    have hs : s.node < grp.length := h.bound s (by simp [hsplit])
    have hnew : s.node ∉ pre.map PrimStep.node := by
      have hnodup := h.nodup
      rw [hsplit, List.map_append, List.map_cons] at hnodup
      exact (List.nodup_middle.mp hnodup).notMem ∘ List.mem_append_left _
    -- local indices below the length stand for different members
    have hmem : ∀ i < grp.length, grp.getD i 0 ∈ nodes (pre.map (PrimStep.groupRecord grp Δ)) →
        i ∈ pre.map PrimStep.node := by
      intro i hi hin
      rw [nodes_groupRecord] at hin
      obtain ⟨j, hj, hji⟩ := List.mem_map.mp hin
      obtain ⟨t, ht, rfl⟩ := List.mem_map.mp hj
      exact getD_inj hnd (hlt t ht) hi hji ▸ hj
    rw [List.map_append, List.map_singleton]
    rcases h.ok pre s post hsplit with ⟨rfl, -, hpar, -⟩ | ⟨p, hp, hpar, hw⟩
    · rw [PrimStep.groupRecord, hpar]
      exact GrowsLightest.root hgrows (fun a ha => absurd ha List.not_mem_nil) List.not_mem_nil
    · have hplt : p < grp.length := by
        obtain ⟨t, ht, rfl⟩ := List.mem_map.mp hp
        exact hlt t ht
      rw [PrimStep.groupRecord, hpar]
      refine GrowsLightest.child hgrows ?_ (fun hin => hnew (hmem _ hs hin))
        ⟨getD_mem_of_lt hplt, getD_mem_of_lt hs, fun he => ?_, rfl⟩ ?_
      · rw [nodes_groupRecord]
        exact List.mem_map_of_mem hp
      · exact hnew (getD_inj hnd hplt hs he ▸ hp)
      · rintro a ha b hb w' ⟨-, hbg, -, rfl⟩
        rw [nodes_groupRecord] at ha
        obtain ⟨q, hq, rfl⟩ := List.mem_map.mp ha
        obtain ⟨v, hv, rfl⟩ := exists_getD hbg
        have hle := hlight pre s post hsplit q hq v hv fun hin => hb (by
          rw [nodes_groupRecord]
          exact List.mem_map_of_mem hin)
        rw [hw] at hle
        exact not_lt.mp hle

end Least

end Mqo
