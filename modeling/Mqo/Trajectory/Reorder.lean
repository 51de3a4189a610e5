import Mqo.Trajectory.Basic

/-!
# MQO — depth-first reordering of a trajectory

`reorder_multiple_DFS` of `mqo/reorder.hpp` collects the children of every
node and the roots, and then runs one explicit-stack traversal for each root.
The traversal keeps no visited marks, so whether it ends depends on the list
it is given.

* `reorderMultipleDFS_returns`  — it returns what the traversal emits;
* `reorderMultipleDFS_diverges` — it runs forever when the traversal does not
  end;
* `reorderMultipleDFS_forest`   — on a forest it returns a permutation of the
  list that passes `checkTrajectory`.
-/

namespace Mqo

open Prog StackTraversal

/-- `i` is an index of a vector of `n` elements. -/
def InBounds (n : ℕ) (i : ℤ) : Prop := 0 ≤ i ∧ i < n

instance (n : ℕ) (i : ℤ) : Decidable (InBounds n i) := inferInstanceAs (Decidable (_ ∧ _))

theorem InBounds.toNat_lt {n : ℕ} {i : ℤ} (h : InBounds n i) : i.toNat < n := by
  obtain ⟨hpos, hlt⟩ := h
  omega

/-- One pair of the first loop; the state is `children` and `roots`. -/
def collectStep (n : ℕ) (state : (ℤ → List ℤ) × List ℤ) (edge : ℤ × ℤ) :
    Run ((ℤ → List ℤ) × List ℤ) :=
  let node := edge.1
  let parent := edge.2
  if parent = -1 then pure (state.1, state.2 ++ [node])
  else if InBounds n parent then
    pure (Function.update state.1 parent (state.1 parent ++ [node]), state.2)
  else fault .outOfRange

/-- The first loop of `reorder_multiple_DFS`: child lists and roots. -/
def collectChildren (edges : Trajectory) : Run ((ℤ → List ℤ) × List ℤ) :=
  edges.foldlM (collectStep edges.length) (fun _ => [], [])

/-- One iteration of the stack loop; the state is the stack and `reordered`. -/
def dfsStep (n : ℕ) (children : ℤ → List ℤ) (state : Trajectory × Trajectory) :
    Run ((Trajectory × Trajectory) ⊕ Trajectory) :=
  match state.1 with
  | [] => pure (.inr state.2)
  | (node, parent) :: s =>
    if InBounds n node then
      -- the children are pushed from the last to the first
      pure (.inl ((children node).reverse.foldl (fun s child => (child, node) :: s) s,
        state.2 ++ [(node, parent)]))
    else fault .outOfRange

/-- `reorder_multiple_DFS` -/
def reorderMultipleDFS (edges : Trajectory) : Run Trajectory := do
  let lists ← collectChildren edges
  lists.2.foldlM (fun reordered root =>
    loop (dfsStep edges.length lists.1) ([(root, -1)], reordered)) []

-- ---------------------------------------------------------------------------
-- Child lists
-- ---------------------------------------------------------------------------

/-- Every child is an index of the list and every parent is one or `-1`. -/
structure InRange (edges : Trajectory) : Prop where
  child  : ∀ e ∈ edges, InBounds edges.length e.1
  parent : ∀ e ∈ edges, e.2 = -1 ∨ InBounds edges.length e.2

/-- The lists collected from the pairs processed so far. -/
def Collected (pre : Trajectory) (state : (ℤ → List ℤ) × List ℤ) : Prop :=
  state.2 = (withParent pre (-1)).map Prod.fst ∧
    ∀ p, p ≠ -1 → state.1 p = (withParent pre p).map Prod.fst

/-- The child list of `p` holds the children of the pairs with parent `p`. -/
theorem collectChildren_returns {edges : Trajectory} (h : InRange edges) :
    ∃ children, Returns (collectChildren edges)
        (children, (withParent edges (-1)).map Prod.fst) ∧
      ∀ p, p ≠ -1 → children p = (withParent edges p).map Prod.fst := by
  have hstep : ∀ pre e post state, edges = pre ++ e :: post → Collected pre state →
      ∃ state', Returns (collectStep edges.length state e) state' ∧
        Collected (pre ++ [e]) state' := by
    rintro pre ⟨node, parent⟩ post ⟨children, roots⟩ hedges ⟨hroots, hchildren⟩
    simp only [collectStep] at hroots hchildren ⊢
    by_cases hr : parent = -1
    · refine ⟨_, by rw [if_pos hr]; exact returns_pure _, ?_, ?_⟩
      · simp [withParent, hroots, hr]
      · intro p hp
        simp [withParent, hchildren p hp, hr, hp.symm]
    · have hb : InBounds edges.length parent :=
        (h.parent (node, parent) (by simp [hedges])).resolve_left hr
      refine ⟨_, by rw [if_neg hr, if_pos hb]; exact returns_pure _, ?_, ?_⟩
      · simp [withParent, hroots, hr]
      · intro p hp
        by_cases hpp : p = parent
        · subst hpp
          simp [withParent, hchildren p hp]
        · simp [withParent, hchildren p hp, Function.update_of_ne hpp, Ne.symm hpp]
  have hinit : Collected [] (fun _ => [], []) := ⟨rfl, fun _ _ => rfl⟩
  obtain ⟨⟨children, roots⟩, hs, hroots, hchildren⟩ := foldlM_returns Collected hstep hinit
  simp only at hroots hchildren
  exact ⟨children, hroots ▸ hs, hchildren⟩

-- ---------------------------------------------------------------------------
-- The stack loop
-- ---------------------------------------------------------------------------

section StackLoop

variable {edges : Trajectory} {children : ℤ → List ℤ}

/-- Pushing the children from the last to the first leaves the first on top. -/
theorem push_children (cs : List ℤ) (node : ℤ) (s : Trajectory) :
    cs.reverse.foldl (fun s child => (child, node) :: s) s = cs.map (fun c => (c, node)) ++ s := by
  induction cs with
  | nil => rfl
  | cons c cs ih => rw [List.reverse_cons, List.foldl_append, ih]; rfl

theorem childEdges_eq (hchildren : ∀ p, p ≠ -1 → children p = (withParent edges p).map Prod.fst)
    {e : ℤ × ℤ} (he : e.1 ≠ -1) :
    (children e.1).map (fun c => (c, e.1)) = childEdges edges e := by
  rw [hchildren e.1 he, List.map_map, childEdges]
  conv_rhs => rw [← List.map_id (withParent edges e.1)]
  refine List.map_congr_left fun x hx => ?_
  rw [← (mem_withParent.mp hx).2]
  rfl

/-- One iteration pops a pair and pushes the pairs below it. -/
theorem dfsStep_returns (hchildren : ∀ p, p ≠ -1 → children p = (withParent edges p).map Prod.fst)
    {e : ℤ × ℤ} (he : InBounds edges.length e.1) (s out : Trajectory) :
    Returns (dfsStep edges.length children (e :: s, out))
      (.inl (childEdges edges e ++ s, out ++ [e])) := by
  have hne : e.1 ≠ -1 := by
    have := he.1
    omega
  rw [← childEdges_eq hchildren hne, ← push_children]
  show Returns (if InBounds edges.length e.1 then _ else _) _
  rw [if_pos he]
  exact returns_pure _

theorem dfs_returns (hchildren : ∀ p, p ≠ -1 → children p = (withParent edges p).map Prod.fst)
    (hrange : InRange edges) {stack o : Trajectory} (h : Emits (childEdges edges) stack o) :
    ∀ out, (∀ e ∈ stack, e ∈ edges) →
      Returns (loop (dfsStep edges.length children) (stack, out)) (out ++ o) := by
  induction h with
  | nil =>
    intro out _
    rw [List.append_nil]
    exact loop_done (returns_pure _)
  | @pop x rest o _ ih =>
    intro out hsub
    have hx := hrange.child x (hsub x List.mem_cons_self)
    refine loop_next (dfsStep_returns hchildren hx rest out) ?_
    have := ih (out ++ [x]) fun e he => by
      rcases List.mem_append.mp he with he | he
      · exact (mem_withParent.mp he).1
      · exact hsub e (List.mem_cons_of_mem _ he)
    rw [List.append_assoc] at this
    exact this

theorem dfs_diverges (hchildren : ∀ p, p ≠ -1 → children p = (withParent edges p).map Prod.fst)
    (hrange : InRange edges) {stack : Trajectory}
    (h : ¬ ∃ o, Emits (childEdges edges) stack o) (hsub : ∀ e ∈ stack, e ∈ edges)
    (out : Trajectory) : Diverges (loop (dfsStep edges.length children) (stack, out)) := by
  refine loop_diverges (fun state => (¬ ∃ o, Emits (childEdges edges) state.1 o) ∧
    ∀ e ∈ state.1, e ∈ edges) ?_ ⟨h, hsub⟩
  rintro ⟨stack, out⟩ ⟨hno, hsub⟩
  cases stack with
  | nil => exact absurd ⟨[], Emits.nil⟩ hno
  | cons x rest =>
    refine ⟨_, dfsStep_returns hchildren (hrange.child x (hsub x List.mem_cons_self)) rest out,
      ?_, ?_⟩
    · rintro ⟨o, ho⟩
      exact hno ⟨x :: o, Emits.pop ho⟩
    · intro e he
      rcases List.mem_append.mp he with he | he
      · exact (mem_withParent.mp he).1
      · exact hsub e (List.mem_cons_of_mem _ he)

/-- The loop over the roots emits what one traversal from all roots emits. -/
theorem roots_returns (hchildren : ∀ p, p ≠ -1 → children p = (withParent edges p).map Prod.fst)
    (hrange : InRange edges) :
    ∀ (roots : List ℤ) (o out : Trajectory), (∀ r ∈ roots, (r, -1) ∈ edges) →
      Emits (childEdges edges) (roots.map fun r => (r, -1)) o →
      Returns (roots.foldlM (fun reordered root =>
        loop (dfsStep edges.length children) ([(root, -1)], reordered)) out) (out ++ o) := by
  intro roots
  induction roots with
  | nil =>
    intro o out _ ho
    cases ho
    rw [List.append_nil]
    exact foldlM_nil _ _
  | cons r roots ih =>
    intro o out hroots ho
    obtain ⟨x, y, rfl, hx, hy⟩ := emits_split ho (s := [(r, -1)]) rfl
    have hr := dfs_returns hchildren hrange hx out fun e he => by
      rw [List.mem_singleton.mp he]
      exact hroots r List.mem_cons_self
    have hrest := ih y (out ++ x) (fun r' hr' => hroots r' (List.mem_cons_of_mem _ hr')) hy
    rw [List.append_assoc] at hrest
    exact foldlM_cons hr hrest

theorem roots_diverges (hchildren : ∀ p, p ≠ -1 → children p = (withParent edges p).map Prod.fst)
    (hrange : InRange edges) :
    ∀ (roots : List ℤ) (out : Trajectory), (∀ r ∈ roots, (r, -1) ∈ edges) →
      (¬ ∃ o, Emits (childEdges edges) (roots.map fun r => (r, -1)) o) →
      Diverges (roots.foldlM (fun reordered root =>
        loop (dfsStep edges.length children) ([(root, -1)], reordered)) out) := by
  intro roots
  induction roots with
  | nil => exact fun _ _ hno => absurd ⟨[], Emits.nil⟩ hno
  | cons r roots ih =>
    intro out hroots hno
    rw [List.foldlM_cons]
    have hr : ∀ e ∈ [((r, -1) : ℤ × ℤ)], e ∈ edges := by
      intro e he
      rw [List.mem_singleton.mp he]
      exact hroots r List.mem_cons_self
    by_cases hx : ∃ x, Emits (childEdges edges) [(r, -1)] x
    · obtain ⟨x, hx⟩ := hx
      refine (dfs_returns hchildren hrange hx out hr).bind_diverges ?_
      refine ih _ (fun r' hr' => hroots r' (List.mem_cons_of_mem _ hr')) ?_
      rintro ⟨y, hy⟩
      exact hno ⟨x ++ y, emits_append hx hy⟩
    · exact (dfs_diverges hchildren hrange hx hr out).bind

end StackLoop

-- ---------------------------------------------------------------------------
-- The whole function
-- ---------------------------------------------------------------------------

/-- The root pairs are the pairs (root, -1) of the collected roots. -/
theorem roots_map (edges : Trajectory) :
    ((withParent edges (-1)).map Prod.fst).map (fun r => (r, -1)) = withParent edges (-1) := by
  rw [List.map_map]
  conv_rhs => rw [← List.map_id (withParent edges (-1))]
  refine List.map_congr_left fun x hx => ?_
  rw [← (mem_withParent.mp hx).2]
  rfl

theorem mem_of_root {edges : Trajectory} :
    ∀ r ∈ (withParent edges (-1)).map Prod.fst, (r, (-1 : ℤ)) ∈ edges := by
  intro r hr
  obtain ⟨x, hx, rfl⟩ := List.mem_map.mp hr
  have := mem_withParent.mp hx
  rw [← this.2]
  exact this.1

/-- `reorder_multiple_DFS` returns what the traversal from the roots emits. -/
theorem reorderMultipleDFS_returns {edges out : Trajectory} (hrange : InRange edges)
    (h : Emits (childEdges edges) (withParent edges (-1)) out) :
    Returns (reorderMultipleDFS edges) out := by
  obtain ⟨children, hret, hchildren⟩ := collectChildren_returns hrange
  refine hret.bind ?_
  have := roots_returns hchildren hrange _ out [] mem_of_root (by rwa [roots_map])
  simpa using this

/-- `reorder_multiple_DFS` runs forever when the traversal does not end. -/
theorem reorderMultipleDFS_diverges {edges : Trajectory} (hrange : InRange edges)
    (h : ¬ ∃ out, Emits (childEdges edges) (withParent edges (-1)) out) :
    Diverges (reorderMultipleDFS edges) := by
  obtain ⟨children, hret, hchildren⟩ := collectChildren_returns hrange
  refine hret.bind_diverges ?_
  exact roots_diverges hchildren hrange _ [] mem_of_root (by rwa [roots_map])

/-- Each index below the length is a child once, and following parents from
any node reaches `-1`. -/
structure Forest (edges : Trajectory) : Prop where
  perm   : (edges.map Prod.fst).Perm (indices edges.length)
  rooted : ∀ e ∈ edges, Rooted (-1) edges e.1

theorem Forest.nodup {edges : Trajectory} (h : Forest edges) : (edges.map Prod.fst).Nodup :=
  h.perm.nodup_iff.mpr (nodup_indices _)

theorem Forest.marker {edges : Trajectory} (h : Forest edges) : (-1 : ℤ) ∉ edges.map Prod.fst := by
  rw [h.perm.mem_iff, mem_indices]
  omega

theorem Forest.inRange {edges : Trajectory} (h : Forest edges) : InRange edges where
  child _ he := mem_indices.mp (h.perm.mem_iff.mp (List.mem_map_of_mem he))
  parent e he := ((h.rooted e he).parent_mem h.nodup he).imp_right fun hp =>
    mem_indices.mp (h.perm.mem_iff.mp hp)

/-- A list accepted by the check is a forest. -/
theorem Accepted.forest {trajectory : Trajectory} {n : ℕ} (h : Accepted trajectory n) :
    trajectory.length = n ∧ Forest trajectory := by
  obtain ⟨hperm, htopo⟩ := accepted_iff.mp h
  have hlen : trajectory.length = n := by simpa using hperm.length_eq
  exact ⟨hlen, hlen ▸ hperm, htopo.rooted⟩

/-- **Reordering a forest.** The result is a permutation of the list, and it
passes `checkTrajectory`. -/
theorem reorderMultipleDFS_forest {edges : Trajectory} (h : Forest edges) :
    ∃ out, Returns (reorderMultipleDFS edges) out ∧ out.Perm edges ∧
      Accepted out edges.length := by
  obtain ⟨out, hout, hperm, htopo⟩ := emits_forest h.nodup h.marker h.rooted
  refine ⟨out, reorderMultipleDFS_returns h.inRange hout, hperm, ?_⟩
  exact accepted_iff.mpr ⟨(hperm.map Prod.fst).trans h.perm, htopo⟩

end Mqo
