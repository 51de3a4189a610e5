import Mqo.Trajectory.Reorder

/-!
# MQO — the reordered trajectory is in preorder

`reorder_multiple_DFS` of a forest yields its pairs in depth-first preorder:
every node is followed by the block of its descendants, and neither the trees
nor the children of a node change their order. The child lists built from the
result are therefore those built from the input, so that a second call changes
nothing.
-/

namespace Mqo

open Prog StackTraversal

/-- Following parents from the child of `f` reaches the child of `e`. -/
def Descendant (edges : Trajectory) : ℤ × ℤ → ℤ × ℤ → Prop :=
  Relation.TransGen fun f e => f ∈ edges ∧ f.2 = e.1

/-- The list `out` holds the pairs of `edges` in depth-first preorder: parents come
first, the descendants of a node follow it in one block, and the pairs with the
same parent (the roots, where it is `-1`) are in the order of `edges`. -/
structure Preorder (edges out : Trajectory) : Prop where
  perm     : out.Perm edges
  topo     : Topological (-1) out
  block    : ∀ pre e post, out = pre ++ e :: post → ∃ block rest, post = block ++ rest ∧
    ∀ f, f ∈ block ↔ Descendant edges f e
  siblings : ∀ p, withParent out p = withParent edges p

/-- What the traversal of a forest emits is in preorder. -/
theorem Forest.preorder {edges out : Trajectory} (h : Forest edges)
    (hout : Emits (childEdges edges) (withParent edges (-1)) out) (hperm : out.Perm edges)
    (htopo : Topological (-1) out) : Preorder edges out where
  perm := hperm
  topo := htopo
  block pre e post hsplit := by
    obtain ⟨block, rest, hpost, hblock⟩ := emits_block hout hsplit
    have hbelow : Below (childEdges edges) = fun f e => f ∈ edges ∧ f.2 = e.1 := by
      funext f e
      exact propext mem_withParent
    exact ⟨block, rest, hpost, fun f => by rw [hblock, hbelow, Descendant]⟩
  siblings := withParent_emits h.nodup h.rooted hout hperm

/-- A forest stays one when its pairs are permuted. -/
theorem Forest.of_perm {edges out : Trajectory} (h : Forest edges) (hperm : out.Perm edges) :
    Forest out where
  perm := by
    rw [hperm.length_eq]
    exact (hperm.map Prod.fst).trans h.perm
  rooted e he := (h.rooted e (hperm.mem_iff.mp he)).mono fun x hx => hperm.mem_iff.mpr hx

/-- A list in preorder is its own traversal. -/
theorem Preorder.emits {edges out : Trajectory} (h : Preorder edges out)
    (hout : Emits (childEdges edges) (withParent edges (-1)) out) :
    Emits (childEdges out) (withParent out (-1)) out := by
  have hchild : childEdges out = childEdges edges := by
    funext e
    exact h.siblings e.1
  rw [hchild, h.siblings]
  exact hout

/-- **Preorder.** `reorder_multiple_DFS` of a forest returns its pairs in depth-first
preorder, and changes nothing when it is called again. -/
theorem reorderMultipleDFS_preorder {edges : Trajectory} (h : Forest edges) :
    ∃ out, Returns (reorderMultipleDFS edges) out ∧ Preorder edges out ∧
      Returns (reorderMultipleDFS out) out := by
  obtain ⟨out, hout, hperm, htopo⟩ := emits_forest h.nodup h.marker h.rooted
  have hpre := h.preorder hout hperm htopo
  exact ⟨out, reorderMultipleDFS_returns h.inRange hout, hpre,
    reorderMultipleDFS_returns (h.of_perm hperm).inRange (hpre.emits hout)⟩

/-- A forest of two trees whose pairs are listed children first. -/
theorem twoTrees_forest : Forest [(2, 0), (4, 3), (1, 0), (3, -1), (0, -1)] where
  perm := by decide
  rooted := by
    have h0 : Rooted (-1) [(2, 0), (4, 3), (1, 0), (3, -1), (0, -1)] (0 : ℤ) := .root (by decide)
    have h3 : Rooted (-1) [(2, 0), (4, 3), (1, 0), (3, -1), (0, -1)] (3 : ℤ) := .root (by decide)
    intro e he
    simp only [List.mem_cons, List.not_mem_nil, or_false] at he
    rcases he with rfl | rfl | rfl | rfl | rfl
    · exact .child (p := 0) (by decide) h0
    · exact .child (p := 3) (by decide) h3
    · exact .child (p := 0) (by decide) h0
    · exact h3
    · exact h0

/-- It is reordered tree by tree. -/
theorem reorderMultipleDFS_twoTrees :
    ∃ out, Returns (reorderMultipleDFS [(2, 0), (4, 3), (1, 0), (3, -1), (0, -1)]) out ∧
      Preorder [(2, 0), (4, 3), (1, 0), (3, -1), (0, -1)] out ∧
      Returns (reorderMultipleDFS out) out :=
  reorderMultipleDFS_preorder twoTrees_forest

end Mqo
