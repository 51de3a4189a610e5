import Mathlib.Algebra.BigOperators.Group.Finset.Basic
import Mathlib.Algebra.Order.Group.Defs
import Mathlib.Combinatorics.SimpleGraph.Acyclic
import Mathlib.Data.List.Nodup

/-!
# Minimum spanning forests

A weighted graph is a relation `edge a b w`; two vertices may be joined by
edges of several weights. A spanning forest is a finite set of pairs without
cycles, each with the weight of an edge that joins it, that connects the ends
of every edge.

A search grows a forest: it reaches vertices one by one, each through an edge
from a vertex reached before, or as the root of a new tree once no edge leaves
the vertices reached. `GrowsLightest edge l` says that `l` records such a
search, and that every edge taken is lightest among those that leave the
vertices reached so far.

* `IsSpanningForest.exchange` — a lightest edge that leaves a set of vertices
  can be exchanged into any spanning forest, which does not become heavier;
* `GrowsLightest.isSpanningForest` — the edges recorded are a spanning forest;
* `GrowsLightest.minimum` — no spanning forest is lighter.
-/

universe u v

namespace LightestForest

open SimpleGraph

variable {α : Type u} {W : Type v}

-- ---------------------------------------------------------------------------
-- Spanning forests
-- ---------------------------------------------------------------------------

/-- A set of pairs as a graph. -/
def graph (F : Finset (Sym2 α)) : SimpleGraph α := fromEdgeSet (F : Set (Sym2 α))

/-- `F` is a spanning forest whose pairs have the given weights. -/
structure IsSpanningForest (edge : α → α → W → Prop) (F : Finset (Sym2 α)) (weight : Sym2 α → W) :
    Prop where
  edges    : ∀ a b, s(a, b) ∈ F → a ≠ b ∧ edge a b (weight s(a, b))
  acyclic  : (graph F).IsAcyclic
  connects : ∀ a b w, edge a b w → (graph F).Reachable a b

/-- The sum of the weights. -/
def totalWeight [AddCommMonoid W] (F : Finset (Sym2 α)) (weight : Sym2 α → W) : W :=
  ∑ e ∈ F, weight e

theorem graph_adj {F : Finset (Sym2 α)} {a b : α} : (graph F).Adj a b ↔ s(a, b) ∈ F ∧ a ≠ b := by
  rw [graph, fromEdgeSet_adj, Finset.mem_coe]

theorem graph_mono {F F' : Finset (Sym2 α)} (h : F ⊆ F') : graph F ≤ graph F' :=
  fromEdgeSet_mono (Finset.coe_subset.mpr h)

/-- A relation between neighbours that is reflexive and transitive relates all
vertices that are connected. -/
theorem reachable_induction {G : SimpleGraph α} {P : α → α → Prop} (hrefl : ∀ a, P a a)
    (htrans : ∀ a b c, P a b → P b c → P a c) (hadj : ∀ a b, G.Adj a b → P a b) {a b : α}
    (h : G.Reachable a b) : P a b := by
  rw [reachable_iff_reflTransGen] at h
  induction h with
  | refl => exact hrefl a
  | tail _ hbc ih => exact htrans _ _ _ ih (hadj _ _ hbc)

section Exchange

variable [DecidableEq α]

theorem graph_erase (F : Finset (Sym2 α)) (e : Sym2 α) :
    graph (F.erase e) = (graph F).deleteEdges {e} := by
  rw [graph, graph, deleteEdges_fromEdgeSet, Finset.coe_erase]

theorem graph_insert (F : Finset (Sym2 α)) (p c : α) :
    graph (insert s(p, c) F) = graph F ⊔ edge p c := by
  rw [graph, Finset.coe_insert, Set.insert_eq, fromEdgeSet_union, sup_comm]
  rfl

/-- Without the edge `a b` a vertex connected to `a` is still connected to one of
its ends. -/
theorem reachable_erase_or {F : Finset (Sym2 α)} {a b x : α} (h : (graph F).Reachable a x) :
    (graph (F.erase s(a, b))).Reachable a x ∨ (graph (F.erase s(a, b))).Reachable b x := by
  rw [reachable_iff_reflTransGen] at h
  induction h with
  | refl => exact Or.inl (Reachable.refl a)
  | @tail y z _ hyz ih =>
    by_cases he : s(y, z) = s(a, b)
    · rcases Sym2.eq_iff.mp he with ⟨-, rfl⟩ | ⟨-, rfl⟩
      · exact Or.inr (Reachable.refl z)
      · exact Or.inl (Reachable.refl z)
    · obtain ⟨hmem, hne⟩ := graph_adj.mp hyz
      have hstep : (graph (F.erase s(a, b))).Reachable y z :=
        (graph_adj.mpr ⟨Finset.mem_erase.mpr ⟨he, hmem⟩, hne⟩).reachable
      exact ih.imp (fun h => h.trans hstep) fun h => h.trans hstep

/-- In a forest, two connected vertices on either side of a cut are separated by
an edge of the cut. -/
theorem exists_cut_edge {F : Finset (Sym2 α)} (hF : (graph F).IsAcyclic) {S : Set α} {p c : α}
    (hp : p ∈ S) (hc : c ∉ S) (h : (graph F).Reachable p c) :
    ∃ a ∈ S, ∃ b, b ∉ S ∧ s(a, b) ∈ F ∧ (graph F).Reachable a p ∧ (graph F).Reachable a c ∧
      ¬ (graph (F.erase s(a, b))).Reachable p c := by
  obtain ⟨P, hP⟩ := h.exists_isPath
  obtain ⟨d, hd, ha, hb⟩ := P.exists_boundary_dart S hp hc
  have hsupp : d.fst ∈ P.support := P.dart_fst_mem_support_of_mem_darts hd
  have hedge : s(d.fst, d.snd) ∈ P.edges := List.mem_map_of_mem hd
  refine ⟨d.fst, ha, d.snd, hb, (graph_adj.mp d.adj).1, ⟨(P.takeUntil d.fst hsupp).reverse⟩,
    ⟨P.dropUntil d.fst hsupp⟩, fun hreach => ?_⟩
  -- a path that avoids the edge would be a second path
  rw [graph_erase, reachable_deleteEdges_iff_exists_walk] at hreach
  obtain ⟨q, hq⟩ := hreach
  have hpaths := (isAcyclic_iff_subsingleton_path.mp hF p c).elim ⟨P, hP⟩ q.toPath
  have hPq : P = q.toPath := congrArg Subtype.val hpaths
  rw [hPq] at hedge
  exact hq (q.edges_toPath_subset_edges hedge)

/-- A forest has no edge besides those of a forest that connects as much. -/
theorem subset_of_connects {edge : α → α → W → Prop} {F F' : Finset (Sym2 α)} {weight : Sym2 α → W}
    (hF : IsSpanningForest edge F weight) (hsub : F' ⊆ F)
    (hconn : ∀ a b w, edge a b w → (graph F').Reachable a b) : F ⊆ F' := by
  intro e he
  induction e with
  | _ a b =>
    by_contra hnot
    obtain ⟨hne, hedge⟩ := hF.edges a b he
    have hbridge := isAcyclic_iff_forall_adj_isBridge.mp hF.acyclic (graph_adj.mpr ⟨he, hne⟩)
    rw [isBridge_iff, ← graph_erase] at hbridge
    refine hbridge ((hconn a b _ hedge).mono (graph_mono fun x hx => ?_))
    exact Finset.mem_erase.mpr ⟨fun h => hnot (h ▸ hx), hsub hx⟩

variable [AddCommGroup W] [LinearOrder W] [IsOrderedAddMonoid W] {edge : α → α → W → Prop}
  {F : Finset (Sym2 α)} {weight : Sym2 α → W}

/-- **Exchange.** An edge that is lightest among those leaving `S` can be put into a
spanning forest in place of an edge that leaves `S`. -/
theorem IsSpanningForest.exchange (hF : IsSpanningForest edge F weight)
    (hsymm : ∀ a b w, edge a b w → edge b a w) {S : Set α} {p c : α} {w : W} (hp : p ∈ S)
    (hc : c ∉ S) (hedge : edge p c w)
    (hlight : ∀ a ∈ S, ∀ b ∉ S, ∀ w', edge a b w' → w ≤ w') :
    ∃ F' weight', IsSpanningForest edge F' weight' ∧ s(p, c) ∈ F' ∧ weight' s(p, c) = w ∧
      (∀ x ∈ S, ∀ y ∈ S, s(x, y) ∈ F → s(x, y) ∈ F' ∧ weight' s(x, y) = weight s(x, y)) ∧
      totalWeight F' weight' ≤ totalWeight F weight := by
  obtain ⟨a, ha, b, hb, hab, hap, hac, hcut⟩ :=
    exists_cut_edge hF.acyclic hp hc (hF.connects p c w hedge)
  have hpc : p ≠ c := fun h => hc (h ▸ hp)
  have hnot : s(p, c) ∉ F.erase s(a, b) := fun hmem =>
    hcut (graph_adj.mpr ⟨hmem, hpc⟩).reachable
  have hother : ∀ e ∈ F.erase s(a, b), Function.update weight s(p, c) w e = weight e := by
    intro e he
    exact Function.update_of_ne (fun h : e = s(p, c) => hnot (h ▸ he)) _ _
  refine ⟨insert s(p, c) (F.erase s(a, b)), Function.update weight s(p, c) w, ⟨?_, ?_, ?_⟩,
    Finset.mem_insert_self _ _, Function.update_self _ _ _, ?_, ?_⟩
  · intro x y hxy
    rcases Finset.mem_insert.mp hxy with heq | hmem
    · rw [heq, Function.update_self]
      rcases Sym2.eq_iff.mp heq with ⟨rfl, rfl⟩ | ⟨rfl, rfl⟩
      · exact ⟨hpc, hedge⟩
      · exact ⟨hpc.symm, hsymm _ _ _ hedge⟩
    · rw [hother _ hmem]
      exact hF.edges x y (Finset.mem_of_mem_erase hmem)
  · rw [graph_insert]
    refine IsAcyclic.sup_edge_of_not_reachable hcut (hF.acyclic.anti ?_)
    exact graph_mono (Finset.erase_subset _ _)
  · -- the new edge reconnects the two parts that the old one joined
    have hsub : graph (F.erase s(a, b)) ≤ graph (insert s(p, c) (F.erase s(a, b))) :=
      graph_mono (Finset.subset_insert _ _)
    have hnew : (graph (insert s(p, c) (F.erase s(a, b)))).Reachable p c :=
      (graph_adj.mpr ⟨Finset.mem_insert_self _ _, hpc⟩).reachable
    have hends : (graph (insert s(p, c) (F.erase s(a, b)))).Reachable a b := by
      rcases reachable_erase_or (b := b) hap with h1 | h1 <;>
        rcases reachable_erase_or (b := b) hac with h2 | h2
      · exact absurd (h1.symm.trans h2) hcut
      · exact (h1.mono hsub).trans (hnew.trans (h2.mono hsub).symm)
      · exact (h2.mono hsub).trans (hnew.symm.trans (h1.mono hsub).symm)
      · exact absurd (h1.symm.trans h2) hcut
    intro x y w' hxy
    refine reachable_induction (G := graph F) Reachable.refl (fun _ _ _ => Reachable.trans) ?_
      (hF.connects x y w' hxy)
    intro x y hadj
    obtain ⟨hmem, hne⟩ := graph_adj.mp hadj
    by_cases he : s(x, y) = s(a, b)
    · rcases Sym2.eq_iff.mp he with ⟨rfl, rfl⟩ | ⟨rfl, rfl⟩
      · exact hends
      · exact hends.symm
    · exact ((graph_adj.mpr ⟨Finset.mem_erase.mpr ⟨he, hmem⟩, hne⟩).reachable).mono hsub
  · intro x hx y hy hxy
    have hne : s(x, y) ≠ s(a, b) := by
      intro he
      rcases Sym2.eq_iff.mp he with ⟨-, rfl⟩ | ⟨rfl, -⟩
      · exact hb hy
      · exact hb hx
    have hmem := Finset.mem_erase.mpr ⟨hne, hxy⟩
    exact ⟨Finset.mem_insert_of_mem hmem, hother _ hmem⟩
  · have hle : w ≤ weight s(a, b) := hlight a ha b hb _ (hF.edges a b hab).2
    unfold totalWeight
    rw [Finset.sum_insert hnot, Function.update_self, Finset.sum_congr rfl hother,
      ← Finset.add_sum_erase F weight hab]
    exact add_le_add_left hle _

end Exchange

-- ---------------------------------------------------------------------------
-- Searches
-- ---------------------------------------------------------------------------

/-- The vertices a search has reached. -/
def nodes (l : List (α × Option (α × W))) : List α := l.map Prod.fst

/-- The records of a search that always takes a lightest edge: each vertex with the
vertex and the weight of the edge it was reached through, if any. -/
inductive GrowsLightest [LE W] (edge : α → α → W → Prop) : List (α × Option (α × W)) → Prop
  | nil : GrowsLightest edge []
  | root {l : List (α × Option (α × W))} {c : α} :
      GrowsLightest edge l → (∀ a ∈ nodes l, ∀ b w, edge a b w → b ∈ nodes l) → c ∉ nodes l →
      GrowsLightest edge (l ++ [(c, none)])
  | child {l : List (α × Option (α × W))} {c p : α} {w : W} :
      GrowsLightest edge l → p ∈ nodes l → c ∉ nodes l → edge p c w →
      (∀ a ∈ nodes l, ∀ b, b ∉ nodes l → ∀ w', edge a b w' → w ≤ w') →
      GrowsLightest edge (l ++ [(c, some (p, w))])

/-- The sum of the weights recorded. -/
def recordedWeight [AddCommMonoid W] (l : List (α × Option (α × W))) : W :=
  (l.map fun e => match e.2 with
    | none => 0
    | some (_, w) => w).sum

@[simp] theorem nodes_concat (l : List (α × Option (α × W))) (e : α × Option (α × W)) :
    nodes (l ++ [e]) = nodes l ++ [e.1] := by
  simp [nodes]

@[simp] theorem recordedWeight_root [AddCommMonoid W] (l : List (α × Option (α × W))) (c : α) :
    recordedWeight (l ++ [(c, none)]) = recordedWeight l := by
  simp [recordedWeight]

@[simp] theorem recordedWeight_child [AddCommMonoid W] (l : List (α × Option (α × W))) (c p : α)
    (w : W) : recordedWeight (l ++ [(c, some (p, w))]) = recordedWeight l + w := by
  simp [recordedWeight]

theorem GrowsLightest.nodup [LE W] {edge : α → α → W → Prop}
    {l : List (α × Option (α × W))} (h : GrowsLightest edge l) : (nodes l).Nodup := by
  induction h with
  | nil => exact List.nodup_nil
  | root _ _ hc ih =>
    rw [nodes_concat, ← List.concat_eq_append]
    exact ih.concat hc
  | child _ _ hc _ _ ih =>
    rw [nodes_concat, ← List.concat_eq_append]
    exact ih.concat hc

/-- An edge recorded is an edge between different vertices. -/
theorem GrowsLightest.edge_of_mem [LE W] {edge : α → α → W → Prop}
    {l : List (α × Option (α × W))} (h : GrowsLightest edge l) {c p : α} {w : W}
    (hmem : (c, some (p, w)) ∈ l) : p ≠ c ∧ edge p c w := by
  induction h with
  | nil => exact absurd hmem List.not_mem_nil
  | root _ _ _ ih => exact ih (by simpa using hmem)
  | child _ hp hc hedge _ ih =>
    rcases List.mem_append.mp hmem with hmem | hmem
    · exact ih hmem
    · simp only [List.mem_singleton, Prod.mk.injEq, Option.some.injEq] at hmem
      obtain ⟨rfl, rfl, rfl⟩ := hmem
      exact ⟨fun h => hc (h ▸ hp), hedge⟩

section Search

variable [DecidableEq α]

/-- The edges of the records. -/
def treeEdges (l : List (α × Option (α × W))) : Finset (Sym2 α) :=
  (l.filterMap fun e => e.2.map fun pw => s(pw.1, e.1)).toFinset

@[simp] theorem treeEdges_root (l : List (α × Option (α × W))) (c : α) :
    treeEdges (l ++ [(c, none)]) = treeEdges l := by
  simp [treeEdges]

@[simp] theorem treeEdges_child (l : List (α × Option (α × W))) (c p : α) (w : W) :
    treeEdges (l ++ [(c, some (p, w))]) = insert s(p, c) (treeEdges l) := by
  ext e
  simp [treeEdges]

theorem mem_treeEdges {l : List (α × Option (α × W))} {e : Sym2 α} :
    e ∈ treeEdges l ↔ ∃ c p w, (c, some (p, w)) ∈ l ∧ e = s(p, c) := by
  simp only [treeEdges, List.mem_toFinset, List.mem_filterMap, Option.map_eq_some_iff]
  constructor
  · rintro ⟨⟨c, q⟩, hmem, ⟨p, w⟩, rfl, rfl⟩
    exact ⟨c, p, w, hmem, rfl⟩
  · rintro ⟨c, p, w, hmem, rfl⟩
    exact ⟨(c, some (p, w)), hmem, (p, w), rfl, rfl⟩

/-- The new edge connects its ends. -/
theorem reachable_child {l : List (α × Option (α × W))} {c p : α} {w : W} (hpc : p ≠ c) :
    (graph (treeEdges (l ++ [(c, some (p, w))]))).Reachable p c := by
  rw [treeEdges_child]
  exact (graph_adj.mpr ⟨Finset.mem_insert_self _ _, hpc⟩).reachable

theorem reachable_mono {l : List (α × Option (α × W))} {e : α × Option (α × W)} {a b : α}
    (h : (graph (treeEdges l)).Reachable a b) : (graph (treeEdges (l ++ [e]))).Reachable a b := by
  refine h.mono (graph_mono fun x hx => ?_)
  obtain ⟨c, p, w, hmem, rfl⟩ := mem_treeEdges.mp hx
  exact mem_treeEdges.mpr ⟨c, p, w, List.mem_append_left _ hmem, rfl⟩

/-- The weights recorded for the edges of a search. -/
def Records (l : List (α × Option (α × W))) (weight : Sym2 α → W) : Prop :=
  ∀ c p w, (c, some (p, w)) ∈ l → weight s(p, c) = w

section Grows

variable [LE W] {edge : α → α → W → Prop} {l : List (α × Option (α × W))}

/-- Both ends of an edge recorded have been reached. -/
theorem GrowsLightest.mem_nodes (h : GrowsLightest edge l) {a b : α} (hab : s(a, b) ∈ treeEdges l) :
    a ∈ nodes l ∧ b ∈ nodes l := by
  induction h with
  | nil => simp [treeEdges] at hab
  | root _ _ _ ih =>
    rw [treeEdges_root] at hab
    rw [nodes_concat]
    exact ⟨List.mem_append_left _ (ih hab).1, List.mem_append_left _ (ih hab).2⟩
  | child _ hp _ _ _ ih =>
    rw [treeEdges_child, Finset.mem_insert] at hab
    rw [nodes_concat]
    rcases hab with heq | hab
    · rcases Sym2.eq_iff.mp heq with ⟨rfl, rfl⟩ | ⟨rfl, rfl⟩
      · exact ⟨List.mem_append_left _ hp, by simp⟩
      · exact ⟨by simp, List.mem_append_left _ hp⟩
    · exact ⟨List.mem_append_left _ (ih hab).1, List.mem_append_left _ (ih hab).2⟩

/-- A vertex not reached yet is on no edge recorded. -/
theorem GrowsLightest.fresh (h : GrowsLightest edge l) {p c : α} (hc : c ∉ nodes l) :
    s(p, c) ∉ treeEdges l :=
  fun hmem => hc (h.mem_nodes hmem).2

/-- A new vertex hangs on the forest by one edge, which closes no cycle. -/
theorem GrowsLightest.acyclic (h : GrowsLightest edge l) : (graph (treeEdges l)).IsAcyclic := by
  induction h with
  | nil =>
    have hbot : graph (treeEdges ([] : List (α × Option (α × W)))) = ⊥ := by
      simp [graph, treeEdges]
    rw [hbot]
    exact isAcyclic_bot
  | root _ _ _ ih => rwa [treeEdges_root]
  | @child l c p w hl hp hc _ _ ih =>
    rw [treeEdges_child, graph_insert]
    refine IsAcyclic.sup_edge_of_not_reachable (fun hreach => ?_) ih
    -- no edge recorded leads to the new vertex
    have hback : p = c ∨ c ∈ nodes l := by
      refine reachable_induction (G := graph (treeEdges l)) (P := fun a b => a = b ∨ b ∈ nodes l)
        (fun _ => Or.inl rfl) ?_ (fun a b hab => Or.inr (hl.mem_nodes (graph_adj.mp hab).1).2) hreach
      rintro a b c (rfl | hb) hbc
      · exact hbc
      · rcases hbc with rfl | hc
        · exact Or.inr hb
        · exact Or.inr hc
    rcases hback with rfl | hmem
    · exact hc hp
    · exact hc hmem

/-- Only the tree that is being grown has edges to vertices not reached yet. -/
theorem GrowsLightest.open_connected (h : GrowsLightest edge l) :
    ∀ a ∈ nodes l, ∀ b, b ∉ nodes l → ∀ w, edge a b w →
    ∀ a' ∈ nodes l, ∀ b', b' ∉ nodes l → ∀ w', edge a' b' w' →
      (graph (treeEdges l)).Reachable a a' := by
  induction h with
  | nil => exact fun a ha => absurd ha List.not_mem_nil
  | @root l c _ hclosed _ _ =>
    -- the vertices reached before have no such edge
    have honly : ∀ a ∈ nodes (l ++ [(c, (none : Option (α × W)))]), ∀ b,
        b ∉ nodes (l ++ [(c, (none : Option (α × W)))]) → ∀ w, edge a b w → a = c := by
      intro a ha b hb w hab
      rw [nodes_concat, List.mem_append, List.mem_singleton] at ha hb
      rcases ha with ha | ha
      · exact absurd (Or.inl (hclosed a ha b w hab)) hb
      · exact ha
    intro a ha b hb w hab a' ha' b' hb' w' hab'
    rw [honly a ha b hb w hab, honly a' ha' b' hb' w' hab']
  | @child l c p w _ hp hc hedge _ ih =>
    have hpc : p ≠ c := fun h => hc (h ▸ hp)
    -- every such vertex is connected to `p`, which has an edge to `c`
    have hto : ∀ a ∈ nodes (l ++ [(c, some (p, w))]), ∀ b, b ∉ nodes (l ++ [(c, some (p, w))]) →
        ∀ w', edge a b w' → (graph (treeEdges (l ++ [(c, some (p, w))]))).Reachable a p := by
      intro a ha b hb w' hab
      rw [nodes_concat, List.mem_append, List.mem_singleton] at ha hb
      rcases ha with ha | rfl
      · exact reachable_mono
          (ih a ha b (fun hm => hb (Or.inl hm)) w' hab p hp c hc w hedge)
      · exact (reachable_child hpc).symm
    intro a ha b hb w₁ hab a' ha' b' hb' w₂ hab'
    exact (hto a ha b hb w₁ hab).trans (hto a' ha' b' hb' w₂ hab').symm

/-- The records connect the ends of every edge between vertices reached. -/
theorem GrowsLightest.connects (h : GrowsLightest edge l)
    (hsymm : ∀ a b w, edge a b w → edge b a w) :
    ∀ a ∈ nodes l, ∀ b ∈ nodes l, ∀ w, edge a b w → (graph (treeEdges l)).Reachable a b := by
  induction h with
  | nil => exact fun a ha => absurd ha List.not_mem_nil
  | @root l c hl hclosed hc ih =>
    intro a ha b hb w hab
    rw [nodes_concat, List.mem_append, List.mem_singleton] at ha hb
    rcases ha with ha | rfl <;> rcases hb with hb | rfl
    · exact reachable_mono (ih a ha b hb w hab)
    · exact absurd (hclosed a ha b w hab) hc
    · exact absurd (hclosed b hb a w (hsymm _ _ _ hab)) hc
    · exact Reachable.refl _
  | @child l c p w hl hp hc hedge _ ih =>
    have hpc : p ≠ c := fun h => hc (h ▸ hp)
    -- a vertex reached before with an edge to `c` is connected to `p`
    have hto : ∀ a ∈ nodes l, ∀ w', edge a c w' →
        (graph (treeEdges (l ++ [(c, some (p, w))]))).Reachable a c := fun a ha w' hac =>
      (reachable_mono (hl.open_connected a ha c hc w' hac p hp c hc w hedge)).trans
        (reachable_child hpc)
    intro a ha b hb w' hab
    rw [nodes_concat, List.mem_append, List.mem_singleton] at ha hb
    rcases ha with ha | rfl <;> rcases hb with hb | rfl
    · exact reachable_mono (ih a ha b hb w' hab)
    · exact hto a ha w' hab
    · exact (hto b hb w' (hsymm _ _ _ hab)).symm
    · exact Reachable.refl _

/-- **The forest of a search.** When every vertex with an edge is reached, the edges
recorded are a spanning forest. -/
theorem GrowsLightest.isSpanningForest (h : GrowsLightest edge l)
    (hsymm : ∀ a b w, edge a b w → edge b a w) (hcover : ∀ a b w, edge a b w → a ∈ nodes l)
    {weight : Sym2 α → W} (hweight : Records l weight) :
    IsSpanningForest edge (treeEdges l) weight where
  edges a b hab := by
    obtain ⟨c, p, w, hmem, heq⟩ := mem_treeEdges.mp hab
    obtain ⟨hpc, hedge⟩ := h.edge_of_mem hmem
    rw [heq, hweight c p w hmem]
    rcases Sym2.eq_iff.mp heq with ⟨rfl, rfl⟩ | ⟨rfl, rfl⟩
    · exact ⟨hpc, hedge⟩
    · exact ⟨hpc.symm, hsymm _ _ _ hedge⟩
  acyclic := h.acyclic
  connects a b w hab := h.connects hsymm a (hcover a b w hab) b (hcover b a w (hsymm _ _ _ hab)) w hab

end Grows

section Minimum

variable [AddCommGroup W] [LinearOrder W] [IsOrderedAddMonoid W] {edge : α → α → W → Prop}
  {l : List (α × Option (α × W))}

omit [IsOrderedAddMonoid W] in
theorem GrowsLightest.exists_records (h : GrowsLightest edge l) : ∃ weight, Records l weight := by
  induction h with
  | nil => exact ⟨fun _ => 0, fun c p w hmem => absurd hmem List.not_mem_nil⟩
  | @root l c _ _ _ ih =>
    obtain ⟨weight, hweight⟩ := ih
    refine ⟨weight, fun c' p w hmem => hweight c' p w ?_⟩
    simpa using hmem
  | @child l c p w hl _ hc _ _ ih =>
    obtain ⟨weight, hweight⟩ := ih
    refine ⟨Function.update weight s(p, c) w, fun c' p' w' hmem => ?_⟩
    rcases List.mem_append.mp hmem with hmem | hmem
    · have hne : s(p', c') ≠ s(p, c) := fun he =>
        hl.fresh hc (he ▸ mem_treeEdges.mpr ⟨c', p', w', hmem, rfl⟩)
      rw [Function.update_of_ne hne, hweight c' p' w' hmem]
    · simp only [List.mem_singleton, Prod.mk.injEq, Option.some.injEq] at hmem
      obtain ⟨rfl, rfl, rfl⟩ := hmem
      exact Function.update_self _ _ _

omit [IsOrderedAddMonoid W] in
/-- The edges recorded weigh what has been recorded. -/
theorem GrowsLightest.totalWeight_eq (h : GrowsLightest edge l) {weight : Sym2 α → W}
    (hweight : Records l weight) : totalWeight (treeEdges l) weight = recordedWeight l := by
  induction h with
  | nil => rfl
  | root _ _ _ ih =>
    rw [treeEdges_root, recordedWeight_root]
    exact ih fun c p w hmem => hweight c p w (List.mem_append_left _ hmem)
  | @child l c p w hl _ hc _ _ ih =>
    have hnew : weight s(p, c) = w := hweight c p w (by simp)
    rw [treeEdges_child, recordedWeight_child, totalWeight, Finset.sum_insert (hl.fresh hc), hnew,
      add_comm]
    congr 1
    exact ih fun c p w hmem => hweight c p w (List.mem_append_left _ hmem)

/-- The edges recorded can be exchanged one by one into any spanning forest. -/
theorem GrowsLightest.exchange (h : GrowsLightest edge l)
    (hsymm : ∀ a b w, edge a b w → edge b a w) {F : Finset (Sym2 α)} {weight : Sym2 α → W}
    (hF : IsSpanningForest edge F weight) :
    ∃ F' weight', IsSpanningForest edge F' weight' ∧ treeEdges l ⊆ F' ∧ Records l weight' ∧
      totalWeight F' weight' ≤ totalWeight F weight := by
  induction h with
  | nil =>
    exact ⟨F, weight, hF, by simp [treeEdges], fun c p w hmem => absurd hmem List.not_mem_nil, le_rfl⟩
  | @root l c _ _ _ ih =>
    obtain ⟨F', weight', hF', hsub, hrec, hle⟩ := ih
    refine ⟨F', weight', hF', by rwa [treeEdges_root], fun c' p w hmem => hrec c' p w ?_, hle⟩
    simpa using hmem
  | @child l c p w hl hp hc hedge hlight ih =>
    obtain ⟨F', weight', hF', hsub, hrec, hle⟩ := ih
    obtain ⟨F₂, weight₂, hF₂, hmem₂, hw₂, hkeep, hle₂⟩ :=
      hF'.exchange hsymm (S := { a | a ∈ nodes l }) hp hc hedge hlight
    refine ⟨F₂, weight₂, hF₂, ?_, ?_, hle₂.trans hle⟩
    · rw [treeEdges_child]
      intro e he
      rcases Finset.mem_insert.mp he with rfl | he
      · exact hmem₂
      · obtain ⟨c', p', w', hmem, rfl⟩ := mem_treeEdges.mp he
        obtain ⟨hp', hc'⟩ := hl.mem_nodes he
        exact (hkeep p' hp' c' hc' (hsub he)).1
    · intro c' p' w' hmem
      rcases List.mem_append.mp hmem with hmem | hmem
      · have he := mem_treeEdges.mpr ⟨c', p', w', hmem, rfl⟩
        obtain ⟨hp', hc'⟩ := hl.mem_nodes he
        rw [(hkeep p' hp' c' hc' (hsub he)).2]
        exact hrec c' p' w' hmem
      · simp only [List.mem_singleton, Prod.mk.injEq, Option.some.injEq] at hmem
        obtain ⟨rfl, rfl, rfl⟩ := hmem
        exact hw₂

/-- **Minimality.** No spanning forest is lighter than the edges recorded. -/
theorem GrowsLightest.minimum (h : GrowsLightest edge l)
    (hsymm : ∀ a b w, edge a b w → edge b a w) (hcover : ∀ a b w, edge a b w → a ∈ nodes l)
    {F : Finset (Sym2 α)} {weight : Sym2 α → W} (hF : IsSpanningForest edge F weight) :
    recordedWeight l ≤ totalWeight F weight := by
  obtain ⟨F', weight', hF', hsub, hrec, hle⟩ := h.exchange hsymm hF
  have hconn : ∀ a b w, edge a b w → (graph (treeEdges l)).Reachable a b := fun a b w hab =>
    h.connects hsymm a (hcover a b w hab) b (hcover b a w (hsymm _ _ _ hab)) w hab
  have heq : treeEdges l = F' := Finset.Subset.antisymm hsub (subset_of_connects hF' hsub hconn)
  rw [← h.totalWeight_eq hrec, heq]
  exact hle

end Minimum

end Search

end LightestForest
