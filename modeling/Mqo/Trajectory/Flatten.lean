import Mqo.Trajectory.MixedWeights
import Mqo.Trajectory.Preorder

/-!
# MQO — flattening a trajectory while it is reordered

`reorder_multiple_optimized` and `reorder_single_optimized` of `mqo/reorder.hpp` run the
traversals of `reorder_multiple_DFS` and `reorder_single_DFS`, and hang a node below the node
visited before it instead of below its parent when that costs at most `alpha` times as
much. The traversal itself is driven by the child lists of the input. The number of nodes
moved is printed and not returned.

The node visited before a node that is not a root lies in the same tree, because the
traversal emits a root and all that is below it as one block.

* `flattenLoop_returns`      — the loop returns the emitted pairs, flattened;
* `Preorder.previous`        — the pair before a child is of the same tree;
* `MovesNear.flatten_weight` — where no node is moved far, the weight grows by `alpha` at most;
* `Forest.flattens_read`     — the flattened forest, for the distances as they are computed.
-/

namespace Mqo

open Prog StackTraversal Exact IntOffset

-- ---------------------------------------------------------------------------
-- The functions
-- ---------------------------------------------------------------------------

section Functions

variable {F : Type} [Scalar F] (n : ℕ) (query : ℤ → F) (dim : ℕ) (alpha : F)

/-- `get_distance` of two nodes; both are rows of the matrix. -/
def nodeDistance (i j : ℤ) : Run F :=
  if InBounds n i ∧ InBounds n j then pure (getDistance query dim i.toNat j.toNat)
  else fault .outOfRange

/-- The pair appended to `result` when `(node, parent)` is popped. -/
def flattenPair (prev node parent : ℤ) : Run (ℤ × ℤ) :=
  if parent = -1 then pure (node, parent)
  else do
    let toParent ← nodeDistance n query dim node parent
    let toPrev ← nodeDistance n query dim node prev
    if toParent * alpha > toPrev then pure (node, prev) else pure (node, parent)

/-- One iteration of the stack loop; the state is the stack, `prev` and `result`. -/
def flattenStep (children : ℤ → List ℤ) (state : Trajectory × ℤ × Trajectory) :
    Run ((Trajectory × ℤ × Trajectory) ⊕ Trajectory) :=
  match state.1 with
  | [] => pure (.inr state.2.2)
  | (node, parent) :: s => do
    let pair ← flattenPair n query dim alpha state.2.1 node parent
    if InBounds n node then
      pure (.inl ((children node).reverse.foldl (fun s child => (child, node) :: s) s, node,
        state.2.2 ++ [pair]))
    else fault .outOfRange

/-- One pair of the first loop of `reorder_single_optimized`; the state is `children` and
`root`. -/
def collectSingleStep (state : (ℤ → List ℤ) × ℤ) (edge : ℤ × ℤ) : Run ((ℤ → List ℤ) × ℤ) :=
  let node := edge.1
  let parent := edge.2
  if parent = -1 then pure (state.1, node)
  else if InBounds n parent then
    pure (Function.update state.1 parent (state.1 parent ++ [node]), state.2)
  else fault .outOfRange

end Functions

section Functions

variable {F : Type} [Scalar F] (edges : Trajectory) (query : ℤ → F) (dim : ℕ) (alpha : F)

/-- `reorder_single_optimized` -/
def reorderSingleOptimized : Run Trajectory := do
  let tree ← edges.foldlM (collectSingleStep edges.length) (fun _ => [], -1)
  loop (flattenStep edges.length query dim alpha tree.1) ([(tree.2, -1)], -1, [])

/-- `reorder_multiple_optimized`; its first loop is that of `reorder_multiple_DFS`. -/
def reorderMultipleOptimized : Run Trajectory := do
  let lists ← collectChildren edges
  lists.2.foldlM (fun result root =>
    loop (flattenStep edges.length query dim alpha lists.1) ([(root, -1)], -1, result)) []

end Functions

-- ---------------------------------------------------------------------------
-- Flattened lists
-- ---------------------------------------------------------------------------

section Flattened

variable {F : Type} [Scalar F] (query : ℤ → F) (dim : ℕ) (alpha : F)

/-- The pair that replaces `e` when `prev` has been visited before it. -/
def flattened (prev : ℤ) (e : ℤ × ℤ) : ℤ × ℤ :=
  if e.2 = -1 then e
  else if getDistance query dim e.1.toNat e.2.toNat * alpha >
      getDistance query dim e.1.toNat prev.toNat then (e.1, prev)
  else e

/-- The pairs that replace those of a list. -/
def flatten : ℤ → Trajectory → Trajectory
  | _, [] => []
  | prev, e :: t => flattened query dim alpha prev e :: flatten e.1 t

variable {query dim alpha}

@[simp] theorem flattened_fst (prev : ℤ) (e : ℤ × ℤ) :
    (flattened query dim alpha prev e).1 = e.1 := by
  unfold flattened
  split
  · rfl
  · split <;> rfl

theorem flattened_root {e : ℤ × ℤ} (he : e.2 = -1) (prev : ℤ) :
    flattened query dim alpha prev e = e := if_pos he

@[simp] theorem flatten_fst (t : Trajectory) :
    ∀ prev, (flatten query dim alpha prev t).map Prod.fst = t.map Prod.fst := by
  induction t with
  | nil => exact fun _ => rfl
  | cons e t ih =>
    intro prev
    rw [flatten, List.map_cons, List.map_cons, flattened_fst, ih]

/-- The node visited last. -/
def lastNode (prev : ℤ) (t : Trajectory) : ℤ := (t.map Prod.fst).getLastD prev

theorem flatten_append (t t' : Trajectory) :
    ∀ prev, flatten query dim alpha prev (t ++ t') =
      flatten query dim alpha prev t ++ flatten query dim alpha (lastNode prev t) t' := by
  induction t with
  | nil => exact fun _ => rfl
  | cons e t ih =>
    intro prev
    rw [List.cons_append, flatten, flatten, ih, List.cons_append]
    unfold lastNode
    rw [List.map_cons, List.getLastD_cons]

/-- What has been visited before a root plays no role. -/
theorem flatten_of_root {t : Trajectory} (h : ∀ e ∈ t.head?, e.2 = -1) (prev prev' : ℤ) :
    flatten query dim alpha prev t = flatten query dim alpha prev' t := by
  cases t with
  | nil => rfl
  | cons e t =>
    have he : e.2 = -1 := h e rfl
    rw [flatten, flatten, flattened_root he, flattened_root he]

/-- A pair of the flattened list, and the pair that it replaces. -/
theorem flatten_split {t : Trajectory} :
    ∀ {prev : ℤ} {pre : Trajectory} {e' : ℤ × ℤ} {post : Trajectory},
      flatten query dim alpha prev t = pre ++ e' :: post →
      ∃ pre₀ e post₀, t = pre₀ ++ e :: post₀ ∧ pre.map Prod.fst = pre₀.map Prod.fst ∧
        e' = flattened query dim alpha (lastNode prev pre₀) e := by
  induction t with
  | nil =>
    intro prev pre e' post h
    simp [flatten] at h
  | cons a t ih =>
    intro prev pre e' post h
    rw [flatten] at h
    cases pre with
    | nil =>
      rw [List.nil_append, List.cons.injEq] at h
      exact ⟨[], a, t, rfl, rfl, h.1.symm⟩
    | cons b pre =>
      rw [List.cons_append, List.cons.injEq] at h
      obtain ⟨pre₀, e, post₀, rfl, hpre, he⟩ := ih h.2
      refine ⟨a :: pre₀, e, post₀, rfl, ?_, ?_⟩
      · rw [List.map_cons, List.map_cons, hpre, ← h.1, flattened_fst]
      · unfold lastNode at he ⊢
        rw [List.map_cons, List.getLastD_cons]
        exact he

end Flattened

-- ---------------------------------------------------------------------------
-- The loops
-- ---------------------------------------------------------------------------

section Loops

variable {F : Type} [Scalar F] (query : ℤ → F) (dim : ℕ) (alpha : F) {edges : Trajectory}
  {children : ℤ → List ℤ}

theorem nodeDistance_returns {n : ℕ} {i j : ℤ} (hi : InBounds n i) (hj : InBounds n j) :
    Returns (nodeDistance n query dim i j) (getDistance query dim i.toNat j.toNat) := by
  unfold nodeDistance
  rw [if_pos ⟨hi, hj⟩]
  exact returns_pure _

/-- Both distances are read when the node visited before is a row of the matrix. -/
theorem flattenPair_returns (hrange : InRange edges) {e : ℤ × ℤ} (he : e ∈ edges) {prev : ℤ}
    (hprev : e.2 = -1 ∨ InBounds edges.length prev) :
    Returns (flattenPair edges.length query dim alpha prev e.1 e.2)
      (flattened query dim alpha prev e) := by
  unfold flattenPair flattened
  by_cases hroot : e.2 = -1
  · rw [if_pos hroot, if_pos hroot]
    exact returns_pure _
  · rw [if_neg hroot, if_neg hroot]
    have hnode := hrange.child e he
    have hparent := (hrange.parent e he).resolve_left hroot
    refine (nodeDistance_returns query dim hnode hparent).bind
      ((nodeDistance_returns query dim hnode (hprev.resolve_left hroot)).bind ?_)
    split
    · exact returns_pure _
    · exact returns_pure _

/-- One iteration pops a pair, appends what replaces it, and pushes the pairs below it. -/
theorem flattenStep_returns
    (hchildren : ∀ p, p ≠ -1 → children p = (withParent edges p).map Prod.fst)
    (hrange : InRange edges) {e : ℤ × ℤ} (he : e ∈ edges) {prev : ℤ}
    (hprev : e.2 = -1 ∨ InBounds edges.length prev) (s result : Trajectory) :
    Returns (flattenStep edges.length query dim alpha children (e :: s, prev, result))
      (.inl (childEdges edges e ++ s, e.1, result ++ [flattened query dim alpha prev e])) := by
  have hnode := hrange.child e he
  have hne : e.1 ≠ -1 := by
    have := hnode.1
    omega
  rw [← childEdges_eq hchildren hne, ← push_children]
  refine (flattenPair_returns query dim alpha hrange he hprev).bind ?_
  show Returns (if InBounds edges.length e.1 then _ else _) _
  rw [if_pos hnode]
  exact returns_pure _

/-- **The stack loop** flattens what the traversal emits. No root is below another pair, so
`prev` is a node whenever it is used. -/
theorem flattenLoop_returns
    (hchildren : ∀ p, p ≠ -1 → children p = (withParent edges p).map Prod.fst)
    (hrange : InRange edges) {stack o : Trajectory} (h : Emits (childEdges edges) stack o) :
    ∀ prev result, (∀ e ∈ stack, e ∈ edges) →
      ((∀ e ∈ stack, e.2 = -1) ∨ InBounds edges.length prev) →
      Returns (loop (flattenStep edges.length query dim alpha children) (stack, prev, result))
        (result ++ flatten query dim alpha prev o) := by
  induction h with
  | nil =>
    intro prev result _ _
    rw [flatten, List.append_nil]
    exact loop_done (returns_pure _)
  | @pop x rest o _ ih =>
    intro prev result hsub hprev
    have hx := hsub x List.mem_cons_self
    have hstep := flattenStep_returns query dim alpha hchildren hrange hx
      (hprev.imp_left fun hroots => hroots x List.mem_cons_self) rest result
    have hrest := ih x.1 (result ++ [flattened query dim alpha prev x])
      (fun e he => (List.mem_append.mp he).elim (fun he => (mem_withParent.mp he).1)
        fun he => hsub e (List.mem_cons_of_mem _ he))
      (Or.inr (hrange.child x hx))
    rw [List.append_assoc] at hrest
    exact loop_next hstep hrest

/-- The loop over the roots. -/
theorem flattenRoots_returns
    (hchildren : ∀ p, p ≠ -1 → children p = (withParent edges p).map Prod.fst)
    (hrange : InRange edges) :
    ∀ (roots : List ℤ) (o result : Trajectory), (∀ r ∈ roots, (r, -1) ∈ edges) →
      Emits (childEdges edges) (roots.map fun r => (r, -1)) o →
      Returns (roots.foldlM (fun result root =>
        loop (flattenStep edges.length query dim alpha children) ([(root, -1)], -1, result)) result)
        (result ++ flatten query dim alpha (-1) o) := by
  intro roots
  induction roots with
  | nil =>
    intro o result _ ho
    cases ho
    rw [flatten, List.append_nil]
    exact foldlM_nil _ _
  | cons r roots ih =>
    intro o result hroots ho
    obtain ⟨t, t', rfl, ht, ht'⟩ := emits_split ho (s := [(r, -1)]) rfl
    have hfirst := flattenLoop_returns query dim alpha hchildren hrange ht (-1) result
      (fun e he => List.mem_singleton.mp he ▸ hroots r List.mem_cons_self)
      (Or.inl fun e he => List.mem_singleton.mp he ▸ rfl)
    have hrest := ih t' (result ++ flatten query dim alpha (-1) t)
      (fun r' hr' => hroots r' (List.mem_cons_of_mem _ hr')) ht'
    -- the next tree starts with its root
    have hhead : ∀ e ∈ t'.head?, e.2 = -1 := fun e he => by
      rw [emits_head ht', List.head?_map] at he
      obtain ⟨root, -, rfl⟩ := Option.mem_map.mp he
      rfl
    rw [flatten_append, flatten_of_root hhead (lastNode (-1) t) (-1), ← List.append_assoc]
    exact foldlM_cons hfirst hrest

/-- `reorder_multiple_optimized` returns what `reorder_multiple_DFS` returns, flattened. -/
theorem reorderMultipleOptimized_returns {out : Trajectory} (hrange : InRange edges)
    (h : Emits (childEdges edges) (withParent edges (-1)) out) :
    Returns (reorderMultipleOptimized edges query dim alpha)
      (flatten query dim alpha (-1) out) := by
  obtain ⟨children, hret, hchildren⟩ := collectChildren_returns hrange
  exact hret.bind (flattenRoots_returns query dim alpha hchildren hrange _ out [] mem_of_root
    (by rwa [roots_map]))

/-- The first loop of `reorder_single_optimized` keeps the last of the roots. -/
theorem collectSingle_returns {lists : (ℤ → List ℤ) × List ℤ}
    (h : Returns (collectChildren edges) lists) :
    Returns (edges.foldlM (collectSingleStep edges.length) (fun _ => [], -1))
      (lists.1, lists.2.getLastD (-1)) := by
  obtain ⟨t, ht, rfl⟩ := foldlM_sim (fun s t => t = (s.1, s.2.getLastD (-1)))
    (g := collectSingleStep edges.length) (fun s t e _ s' hst hstep => by
      subst hst
      unfold collectStep at hstep
      unfold collectSingleStep
      dsimp only at hstep ⊢
      by_cases hroot : e.2 = -1
      · rw [if_pos hroot] at hstep ⊢
        exact ⟨_, returns_pure _, by rw [hstep.of_pure, List.getLastD_concat]⟩
      · rw [if_neg hroot] at hstep ⊢
        split at hstep
        · next hparent =>
          rw [if_pos hparent]
          exact ⟨_, returns_pure _, by rw [hstep.of_pure]⟩
        · exact absurd (fails_fault _) hstep.not_fails) rfl h
  exact ht

/-- With one root both functions return the same. -/
theorem reorderSingleOptimized_returns {out : Trajectory} (hrange : InRange edges) {root : ℤ}
    (hroot : withParent edges (-1) = [(root, -1)])
    (h : Emits (childEdges edges) (withParent edges (-1)) out) :
    Returns (reorderSingleOptimized edges query dim alpha) (flatten query dim alpha (-1) out) := by
  obtain ⟨children, hret, hchildren⟩ := collectChildren_returns hrange
  have htree := collectSingle_returns hret
  rw [hroot] at h htree
  refine htree.bind ?_
  refine flattenLoop_returns query dim alpha hchildren hrange h (-1) [] (fun e he => ?_)
    (Or.inl fun e he => List.mem_singleton.mp he ▸ rfl)
  rw [List.mem_singleton.mp he]
  exact (mem_withParent.mp (hroot ▸ List.mem_singleton_self _)).1

end Loops

-- ---------------------------------------------------------------------------
-- Trees
-- ---------------------------------------------------------------------------

/-- Following parents from either node reaches the same root. -/
def InOneTree (edges : Trajectory) (a b : ℤ) : Prop :=
  ∃ root, (root, -1) ∈ edges ∧ Relation.ReflTransGen (fun c p => (c, p) ∈ edges) a root ∧
    Relation.ReflTransGen (fun c p => (c, p) ∈ edges) b root

section Trees

variable {edges out : Trajectory}

/-- A child and its parent are in one tree. -/
theorem Forest.inOneTree_parent (h : Forest edges) {e : ℤ × ℤ} (he : e ∈ edges) (hne : e.2 ≠ -1) :
    InOneTree edges e.1 e.2 := by
  have hroot : ∀ c, Rooted (-1) edges c → ∃ root, (root, -1) ∈ edges ∧
      Relation.ReflTransGen (fun c p => (c, p) ∈ edges) c root := by
    intro c hc
    induction hc with
    | @root c hc => exact ⟨c, hc, .refl⟩
    | child hc _ ih =>
      obtain ⟨root, hroot, hp⟩ := ih
      exact ⟨root, hroot, hp.head hc⟩
  obtain ⟨z, hz, hze⟩ := List.mem_map.mp (((h.rooted e he).parent_mem h.nodup he).resolve_left hne)
  obtain ⟨root, hmem, hpath⟩ := hroot e.2 (hze ▸ h.rooted z hz)
  exact ⟨root, hmem, hpath.head he, hpath⟩

/-- Every pair that is not a root is below one. -/
theorem Forest.below_root (h : Forest edges) {e : ℤ × ℤ} (he : e ∈ edges) (hne : e.2 ≠ -1) :
    ∃ r ∈ edges, r.2 = -1 ∧ Descendant edges e r := by
  have hroot : ∀ c, Rooted (-1) edges c → ∀ f ∈ edges, f.1 = c → f.2 ≠ -1 →
      ∃ r ∈ edges, r.2 = -1 ∧ Descendant edges f r := by
    intro c hc
    induction hc with
    | root hc =>
      intro f hf hfc hne
      exact absurd (congrArg Prod.snd (eq_of_fst_eq h.nodup hf hc hfc)) hne
    | @child c p hc hp ih =>
      intro f hf hfc hne
      have hfp : f.2 = p := congrArg Prod.snd (eq_of_fst_eq h.nodup hf hc hfc)
      obtain ⟨z, hz, hzp⟩ := List.mem_map.mp
        (((h.rooted f hf).parent_mem h.nodup hf).resolve_left hne)
      by_cases hzroot : z.2 = -1
      · exact ⟨z, hz, hzroot, .single ⟨hf, hzp.symm⟩⟩
      · obtain ⟨r, hr, hrroot, hbelow⟩ := ih z hz (hzp.trans hfp) hzroot
        exact ⟨r, hr, hrroot, .head ⟨hf, hzp.symm⟩ hbelow⟩
  exact hroot e.1 (h.rooted e he) e he rfl hne

/-- Nodes below a pair reach its node. -/
theorem Descendant.reaches {f e : ℤ × ℤ} (h : Descendant edges f e) :
    Relation.ReflTransGen (fun c p => (c, p) ∈ edges) f.1 e.1 :=
  Relation.ReflTransGen.lift Prod.fst (fun a b ⟨hmem, hpar⟩ =>
    show (a.1, b.1) ∈ edges from hpar ▸ hmem) _ _ h.to_reflTransGen

/-- **The pair before a child**, in preorder, is of the same tree: both lie in the block of their
root. -/
theorem Preorder.previous (hforest : Forest edges) (h : Preorder edges out) {pre post : Trajectory}
    {y e : ℤ × ℤ} (hout : out = pre ++ y :: e :: post) (hne : e.2 ≠ -1) :
    InOneTree edges e.1 y.1 := by
  have he : e ∈ edges := h.perm.mem_iff.mp (by rw [hout]; simp)
  obtain ⟨r, hr, hroot, hbelow⟩ := hforest.below_root he hne
  obtain ⟨pre', post', hsplit⟩ := List.append_of_mem (h.perm.mem_iff.mpr hr)
  obtain ⟨block, rest, rfl, hblock⟩ := h.block pre' r post' hsplit
  obtain ⟨b, b', rfl⟩ := List.append_of_mem ((hblock e).mpr hbelow)
  -- the pair occurs once, so that the pairs before it end in its block
  have hnodup : out.Nodup := h.perm.nodup_iff.mpr (List.Nodup.of_map _ hforest.nodup)
  have hout₁ : out = (pre ++ [y]) ++ e :: post := by simp [hout]
  have hout₂ : out = (pre' ++ r :: b) ++ e :: (b' ++ rest) := by simp [hsplit]
  rw [hout₁, List.nodup_append, List.nodup_cons] at hnodup
  have hbefore : e ∉ pre ++ [y] := fun hmem => hnodup.2.2 e hmem e List.mem_cons_self rfl
  have hlast := ((List.append_cons_inj_of_notMem hbefore hnodup.2.1.1).mp
    (hout₁.symm.trans hout₂)).1
  have hy : y ∈ r :: b := by
    have hend := congrArg List.getLast? hlast
    rw [List.getLast?_concat, List.getLast?_append_of_ne_nil _ (List.cons_ne_nil r b)] at hend
    exact List.mem_of_getLast? hend.symm
  refine ⟨r.1, hroot ▸ hr, hbelow.reaches, ?_⟩
  rcases List.mem_cons.mp hy with rfl | hy
  · exact .refl
  · exact Descendant.reaches ((hblock y).mp (List.mem_append_left _ hy))

section Entries

variable {F : Type} [Scalar F] {query : ℤ → F} {dim : ℕ} {alpha : F}

/-- A pair of the flattened list replaces one of the forest, and hangs a child below a node of
its tree that is already there. -/
theorem Preorder.flatten_entry (hforest : Forest edges) (h : Preorder edges out)
    {pre post : Trajectory} {e' : ℤ × ℤ}
    (hsplit : flatten query dim alpha (-1) out = pre ++ e' :: post) :
    ∃ e ∈ edges, (∃ prev, (e.2 ≠ -1 → InBounds edges.length prev) ∧
        e' = flattened query dim alpha prev e) ∧
      (e.2 ≠ -1 → e'.2 ∈ pre.map Prod.fst ∧ InOneTree edges e'.1 e'.2) := by
  obtain ⟨pre₀, e, post₀, hout, hpre, rfl⟩ := flatten_split hsplit
  have he : e ∈ edges := h.perm.mem_iff.mp (by rw [hout]; simp)
  -- a child has been visited after another node
  have hprevious : e.2 ≠ -1 → e.2 ∈ pre₀.map Prod.fst ∧
      ∃ pre₁ y, pre₀ = pre₁ ++ [y] ∧ lastNode (-1) pre₀ = y.1 := by
    intro hne
    have hparent : e.2 ∈ pre₀.map Prod.fst := (h.topo pre₀ e post₀ hout).resolve_left hne
    obtain ⟨pre₁, y, rfl⟩ := (List.eq_nil_or_concat' pre₀).resolve_left fun hnil => by
      rw [hnil] at hparent
      exact List.not_mem_nil hparent
    refine ⟨hparent, pre₁, y, rfl, ?_⟩
    rw [lastNode, List.map_append, List.map_singleton, List.getLastD_concat]
  refine ⟨e, he, ⟨_, fun hne => ?_, rfl⟩, fun hne => ?_⟩
  · obtain ⟨-, pre₁, y, rfl, hlast⟩ := hprevious hne
    rw [hlast]
    exact hforest.inRange.child y (h.perm.mem_iff.mp (by rw [hout]; simp))
  · obtain ⟨hparent, pre₁, y, rfl, hlast⟩ := hprevious hne
    rw [hpre, flattened_fst, hlast]
    unfold flattened
    rw [if_neg hne]
    split
    · have hbefore : out = pre₁ ++ y :: e :: post₀ := by
        rw [hout, List.append_assoc, List.singleton_append]
      exact ⟨by simp, h.previous hforest hbefore hne⟩
    · exact ⟨hparent, hforest.inOneTree_parent he hne⟩

/-- The flattened list passes the check. -/
theorem Preorder.flatten_accepted (hforest : Forest edges) (h : Preorder edges out) :
    Accepted (flatten query dim alpha (-1) out) edges.length := by
  refine accepted_iff.mpr ⟨?_, fun pre e' post hsplit => ?_⟩
  · rw [flatten_fst]
    exact (h.perm.map Prod.fst).trans hforest.perm
  · obtain ⟨e, -, ⟨prev, -, rfl⟩, hchild⟩ := h.flatten_entry hforest hsplit
    by_cases hroot : e.2 = -1
    · exact Or.inl (by rw [flattened_root hroot, hroot])
    · exact Or.inr (hchild hroot).1

/-- Flattening keeps the roots. -/
theorem Preorder.flatten_roots (hforest : Forest edges) (h : Preorder edges out) (node : ℤ) :
    (node, -1) ∈ flatten query dim alpha (-1) out ↔ (node, -1) ∈ edges := by
  have hnodes : (flatten query dim alpha (-1) out).map Prod.fst = out.map Prod.fst :=
    flatten_fst out _
  have hperm := h.perm.map Prod.fst
  constructor
  · intro hmem
    obtain ⟨pre, post, hsplit⟩ := List.append_of_mem hmem
    obtain ⟨e, he, ⟨prev, -, hflat⟩, hchild⟩ := h.flatten_entry hforest hsplit
    by_cases hroot : e.2 = -1
    · rw [flattened_root hroot] at hflat
      exact hflat ▸ he
    · -- a child hangs below a node, and `-1` is none
      have hmarker : (-1 : ℤ) ∈ edges.map Prod.fst := by
        rw [← hperm.mem_iff, ← hnodes, hsplit, List.map_append]
        exact List.mem_append_left _ (hchild hroot).1
      exact absurd hmarker hforest.marker
  · intro hmem
    have hnode : node ∈ (flatten query dim alpha (-1) out).map Prod.fst := by
      rw [hnodes, hperm.mem_iff]
      exact List.mem_map_of_mem hmem
    obtain ⟨e', he', rfl⟩ := List.mem_map.mp hnode
    obtain ⟨pre, post, hsplit⟩ := List.append_of_mem he'
    obtain ⟨e, he, ⟨prev, -, rfl⟩, -⟩ := h.flatten_entry hforest hsplit
    rw [flattened_fst] at hmem ⊢
    have heq := eq_of_fst_eq hforest.nodup he hmem rfl
    have hroot : e.2 = -1 := congrArg Prod.snd heq
    rw [flattened_root hroot] at he'
    exact heq ▸ he'

end Entries

end Trees

-- ---------------------------------------------------------------------------
-- Weights
-- ---------------------------------------------------------------------------

section Weights

variable (x : ℤ → ℝ) (dim : ℕ) (alpha : ℝ) (distance : ℕ → ℕ → ℝ) (edges : Trajectory)

/-- What flattening is to do with a forest: every node is emitted once, in the order of
`reorder_multiple_DFS`; the roots stay roots, and any other node hangs below an earlier node of
its tree that is at most `alpha` times as far as its parent was. With one root,
`reorder_single_optimized` returns the same list. -/
def Flattens : Prop :=
  ∃ out result, Returns (reorderMultipleDFS edges) out ∧
    Returns (reorderMultipleOptimized edges (finMatrix x) dim (fin alpha)) result ∧
    Accepted result edges.length ∧
    result.map Prod.fst = out.map Prod.fst ∧
    (∀ node, (node, -1) ∈ result ↔ (node, -1) ∈ edges) ∧
    (∀ pre node parent post, result = pre ++ (node, parent) :: post → parent ≠ -1 →
      ∃ original, (node, original) ∈ edges ∧ original ≠ -1 ∧ parent ∈ pre.map Prod.fst ∧
        InOneTree edges node parent ∧
        distance node.toNat parent.toNat ≤ alpha * distance node.toNat original.toNat) ∧
    (result.map (entryWeight distance)).sum ≤ alpha * (edges.map (entryWeight distance)).sum ∧
    ((∃! root, (root, -1) ∈ edges) →
      Returns (reorderSingleOptimized edges (finMatrix x) dim (fin alpha)) result)

/-- No node is moved to one that is more than `alpha` times as far as its parent. -/
def MovesNear : Prop :=
  ∀ e ∈ edges, ∀ prev, InBounds edges.length prev →
    entryWeight distance (flattened (finMatrix x) dim (fin alpha) prev e) ≤
      alpha * entryWeight distance e

variable {x dim alpha distance edges}

/-- **The weight** of the flattened list. -/
theorem MovesNear.flatten_weight (hnear : MovesNear x dim alpha distance edges)
    (hforest : Forest edges) (t : Trajectory) :
    ∀ prev, (∀ e ∈ t, e ∈ edges) →
      (InBounds edges.length prev ∨ ∀ e ∈ t.head?, e.2 = -1) →
      ((flatten (finMatrix x) dim (fin alpha) prev t).map (entryWeight distance)).sum ≤
        alpha * (t.map (entryWeight distance)).sum := by
  induction t with
  | nil => exact fun _ _ _ => by simp [flatten]
  | cons e t ih =>
    intro prev hsub hprev
    have he := hsub e List.mem_cons_self
    have hfirst : entryWeight distance (flattened (finMatrix x) dim (fin alpha) prev e) ≤
        alpha * entryWeight distance e := by
      rcases hprev with hprev | hroot
      · exact hnear e he prev hprev
      · have he2 : e.2 = -1 := hroot e rfl
        rw [flattened_root he2, entryWeight, if_pos he2, mul_zero]
    rw [flatten, List.map_cons, List.sum_cons, List.map_cons, List.sum_cons, mul_add]
    exact add_le_add hfirst (ih e.1 (fun e' he' => hsub e' (List.mem_cons_of_mem _ he'))
      (Or.inl (hforest.inRange.child e he)))

/-- **Flattening a forest** whose nodes are moved near. -/
theorem Forest.flattens (h : Forest edges) (hnear : MovesNear x dim alpha distance edges) :
    Flattens x dim alpha distance edges := by
  obtain ⟨out, hout, hperm, htopo⟩ := emits_forest h.nodup h.marker h.rooted
  have hpre := h.preorder hout hperm htopo
  refine ⟨out, _, reorderMultipleDFS_returns h.inRange hout,
    reorderMultipleOptimized_returns _ dim _ h.inRange hout, hpre.flatten_accepted h,
    flatten_fst out _, hpre.flatten_roots h, fun pre node parent post hsplit hne => ?_, ?_,
    fun ⟨root, hroot, hunique⟩ => ?_⟩
  · obtain ⟨e, he, ⟨prev, hprev, hflat⟩, hchild⟩ := hpre.flatten_entry h hsplit
    have hnode : node = e.1 := (congrArg Prod.fst hflat).trans (flattened_fst prev e)
    subst hnode
    have horiginal : e.2 ≠ -1 := fun hroot => by
      rw [flattened_root hroot] at hflat
      exact hne ((congrArg Prod.snd hflat).trans hroot)
    have hweight := hnear e he prev (hprev horiginal)
    rw [← hflat, entryWeight, entryWeight, if_neg hne, if_neg horiginal] at hweight
    exact ⟨e.2, he, horiginal, (hchild horiginal).1, (hchild horiginal).2, hweight⟩
  · rw [← (hperm.map _).sum_eq]
    refine hnear.flatten_weight h out (-1) (fun e he => hperm.mem_iff.mp he) (Or.inr fun e he => ?_)
    obtain ⟨rest, rfl⟩ := List.head?_eq_some_iff.mp he
    exact (htopo [] e rest rfl).resolve_right List.not_mem_nil
  · have hall : ∀ e ∈ withParent edges (-1), e = (root, -1) := fun e he => by
      obtain ⟨he, hparent⟩ := mem_withParent.mp he
      have hchild : e.1 = root := hunique e.1 (hparent ▸ he)
      exact Prod.ext hchild hparent
    have hnodup : (withParent edges (-1)).Nodup :=
      (List.Nodup.of_map _ h.nodup).sublist List.filter_sublist
    have hone : withParent edges (-1) = [(root, -1)] := by
      refine List.perm_singleton.mp
        ((List.perm_ext_iff_of_nodup hnodup (List.nodup_singleton _)).mpr
          fun e => ⟨fun he => List.mem_singleton.mpr (hall e he), fun he => ?_⟩)
      rw [List.mem_singleton.mp he]
      exact mem_withParent.mpr ⟨hroot, rfl⟩
    exact reorderSingleOptimized_returns _ dim _ h.inRange hone hout

/-- The node visited before is taken when it is near enough, as the two are read. -/
theorem flattened_cases (x : ℤ → ℝ) (dim : ℕ) (alpha : ℝ) (prev : ℤ) (e : ℤ × ℤ) :
    flattened (finMatrix x) dim (fin alpha) prev e = e ∨
      (e.2 ≠ -1 ∧ flattened (finMatrix x) dim (fin alpha) prev e = (e.1, prev) ∧
        exactDistance true x dim e.1.toNat prev.toNat <
          exactDistance true x dim e.1.toNat e.2.toNat * alpha) := by
  unfold flattened
  split
  · exact Or.inl rfl
  · next hne =>
    split
    · next hnear =>
      refine Or.inr ⟨hne, rfl, ?_⟩
      have hd : ∀ i j, getDistance (finMatrix x) dim i j = fin (exactDistance true x dim i j) :=
        metricDistance_fin true x dim
      rw [hd, hd, fin_mul] at hnear
      exact hnear
    · exact Or.inl rfl

/-- A move is near when it is near for a node that is moved. -/
theorem movesNear_of (halpha : 1 ≤ alpha) (hnonneg : ∀ i j, 0 ≤ distance i j)
    (hmove : ∀ e ∈ edges, ∀ prev, InBounds edges.length prev → e.2 ≠ -1 →
      exactDistance true x dim e.1.toNat prev.toNat <
        exactDistance true x dim e.1.toNat e.2.toNat * alpha →
      distance e.1.toNat prev.toNat ≤ alpha * distance e.1.toNat e.2.toNat) :
    MovesNear x dim alpha distance edges := by
  intro e he prev hprev
  have hweight : 0 ≤ entryWeight distance e := by
    unfold entryWeight
    split
    · exact le_refl 0
    · exact hnonneg _ _
  rcases flattened_cases x dim alpha prev e with hsame | ⟨hne, hmoved, hnear⟩
  · rw [hsame]
    exact le_mul_of_one_le_left hweight halpha
  · have hnode : prev ≠ -1 := by
      have := hprev.1
      omega
    rw [hmoved, entryWeight, entryWeight, if_neg hnode, if_neg hne]
    exact hmove e he prev hprev hne hnear

/-- **As the rows are read**, every forest is flattened. -/
theorem Forest.flattens_read (h : Forest edges) (halpha : 1 ≤ alpha) :
    Flattens x dim alpha (exactDistance true x dim) edges :=
  h.flattens (movesNear_of halpha (fun _ _ => Real.sqrt_nonneg _) fun e _ prev _ _ hnear => by
    rw [mul_comm]
    exact hnear.le)

end Weights

end Mqo
