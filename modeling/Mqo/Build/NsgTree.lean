import Mqo.Build.NsgNeighbors
import Mqo.Lib.Exploration

/-!
# MQO — connecting an NSG graph

`DFS`, `findroot` and `tree_grow` of `nsg/src/index_nsg.cpp`. A depth-first search
flags what the navigating point reaches; as long as nodes are missing, the first of
them is linked from a flagged node near it, or from a random one, and the search
goes on there.

* `dfs_returns`      — the search flags the reachable nodes and counts them;
* `findroot_returns` — the node that is linked is new, and its link starts at a flagged
  node;
* `treeGrow_reaches` — in the end the navigating point reaches every node.
-/

namespace Mqo.Build.Nsg

open Prog Flags Search.Nsg

-- ---------------------------------------------------------------------------
-- The functions
-- ---------------------------------------------------------------------------

/-- The state of `DFS`; the stack has its top in front. -/
structure DfsState where
  tmp : ℕ
  stack : List ℕ
  flags : ℕ → Bool
  cnt : ℕ

/-- One pass of `while (!s.empty())`: `next` is the first neighbour of `tmp` that is not
flagged. -/
def dfsStep (final_graph : ℕ → List ℕ) (s : DfsState) : Run (DfsState ⊕ DfsState) :=
  match s.stack with
  | [] => pure (.inr s)
  | _ :: rest =>
    match (final_graph s.tmp).find? fun u => s.flags u = false with
    | none =>
      match rest with
      | [] => pure (.inr { s with stack := [] })
      | top :: _ => pure (.inl { s with tmp := top, stack := rest })
    | some next => pure (.inl ⟨next, next :: s.stack, Function.update s.flags next true, s.cnt + 1⟩)

/-- `DFS(flag, root, cnt)`: the flags and the counter. -/
def dfs (final_graph : ℕ → List ℕ) (flags : ℕ → Bool) (root cnt : ℕ) : Run ((ℕ → Bool) × ℕ) := do
  let s ← loop (dfsStep final_graph)
    ⟨root, [root], Function.update flags root true, if flags root then cnt else cnt + 1⟩
  pure (s.flags, s.cnt)

/-- `final_graph_[root].push_back(id)` -/
def pushBack (index : IndexNSG) (root : ℕ) (id : Fin index.nd) : IndexNSG where
  nd := index.nd
  ep := index.ep
  final_graph := Function.update index.final_graph root (index.final_graph root ++ [id.val])
  ep_lt := index.ep_lt
  graph_lt i hi u hu := by
    by_cases heq : i = root
    · rw [heq, Function.update_self, List.mem_append, List.mem_singleton] at hu
      rcases hu with hu | rfl
      · exact index.graph_lt root (heq ▸ hi) u hu
      · exact id.isLt
    · rw [Function.update_of_ne heq] at hu
      exact index.graph_lt i hi u hu

/-- `while (true)`: random nodes until one is flagged. -/
def drawFlagged (nd : ℕ) (flags : ℕ → Bool) (rng : ℕ → ℕ) : Run (ℕ × (ℕ → ℕ)) :=
  loop (fun rng =>
    let rid := rng 0 % nd
    let rng := fun k => rng (k + 1)
    if flags rid then pure (.inr (rid, rng)) else pure (.inl rng)) rng

section Grow

variable {K V : Type} [LinearOrder K] [Zero K]

/-- `findroot(flag, root, parameter)` -/
def findroot (index : IndexNSG) (S : Sorting K) (D : Distance V K) (data : ℕ → V) (L : ℕ)
    (flags : ℕ → Bool) (root : ℕ) (rng : ℕ → ℕ) : Run (IndexNSG × ℕ × (ℕ → ℕ)) :=
  match (List.finRange index.nd).find? fun i => flags i.val = false with
  | none => pure (index, root, rng)
  | some id => do
    let c ← getNeighbors index S D data (data id) L rng
    let found ← match (S.sort c.fullset).find? fun p => flags p.id with
      | some p => pure (p.id, c.rng)
      | none => drawFlagged index.nd flags c.rng
    pure (pushBack index found.1 id, found)

/-- The state of `tree_grow`. -/
structure GrowState where
  index : IndexNSG
  flags : ℕ → Bool
  root : ℕ
  unlinked_cnt : ℕ
  rng : ℕ → ℕ

/-- One pass of `while (unlinked_cnt < nd_)`. -/
def growStep (S : Sorting K) (D : Distance V K) (data : ℕ → V) (L : ℕ) (s : GrowState) :
    Run (GrowState ⊕ GrowState) :=
  if s.unlinked_cnt < s.index.nd then do
    let (flags, cnt) ← dfs s.index.final_graph s.flags s.root s.unlinked_cnt
    if s.index.nd ≤ cnt then pure (.inr { s with flags := flags, unlinked_cnt := cnt })
    else do
      let (index, root, rng) ← findroot s.index S D data L flags s.root s.rng
      pure (.inl ⟨index, flags, root, cnt, rng⟩)
  else pure (.inr s)

/-- `tree_grow(parameter)`: the index, `width`, and the values `rand()` still has to return. -/
def treeGrow (index : IndexNSG) (width : ℕ) (S : Sorting K) (D : Distance V K) (data : ℕ → V)
    (L : ℕ) (rng : ℕ → ℕ) : Run (IndexNSG × ℕ × (ℕ → ℕ)) := do
  let s ← loop (growStep S D data L) ⟨index, fun _ => false, index.ep, 0, rng⟩
  let width := (List.range s.index.nd).foldl (fun width i =>
    if width < (s.index.final_graph i).length then (s.index.final_graph i).length else width) width
  pure (s.index, width, s.rng)

end Grow

-- ---------------------------------------------------------------------------
-- Depth-first search
-- ---------------------------------------------------------------------------

/-- A link of the graph. -/
def Link (final_graph : ℕ → List ℕ) (v u : ℕ) : Prop := u ∈ final_graph v

/-- The flagged nodes are reached from `r`, those that are not pending are closed, and
`cnt` is their number. -/
structure Flagged (final_graph : ℕ → List ℕ) (nd r : ℕ) (flags : ℕ → Bool) (cnt : ℕ)
    (pending : List ℕ) : Prop where
  explored : Explored (Link final_graph) r {v | flags v = true} pending
  start    : flags r = true
  lt       : ∀ v, flags v = true → v < nd
  cnt      : cnt + (unset nd flags).card = nd

/-- The invariant of the search: what is on the stack is pending, with `tmp` on top. -/
structure DfsInv (final_graph : ℕ → List ℕ) (nd r : ℕ) (flags₀ : ℕ → Bool) (s : DfsState) : Prop
    extends Flagged final_graph nd r s.flags s.cnt s.stack where
  top   : ∃ rest, s.stack = s.tmp :: rest
  grown : ∀ v, flags₀ v = true → s.flags v = true

/-- Each node is pushed once and popped once. -/
def dfsMeasure (nd : ℕ) (s : DfsState) : ℕ := 2 * (unset nd s.flags).card + s.stack.length

theorem setOf_update (flags : ℕ → Bool) (id : ℕ) :
    {v | Function.update flags id true v = true} = insert id {v | flags v = true} :=
  Set.ext fun v => (update_iff flags id v).trans or_comm

section Dfs

variable {final_graph : ℕ → List ℕ} {nd r : ℕ} {flags₀ : ℕ → Bool}

/-- A neighbour of a flagged node that is not flagged itself. -/
theorem Flagged.flag {flags : ℕ → Bool} {cnt : ℕ} {pending : List ℕ}
    (h : Flagged final_graph nd r flags cnt pending) {v u : ℕ} (hv : flags v = true)
    (hadj : u ∈ final_graph v) (hu : u < nd) (hnew : flags u = false) :
    Flagged final_graph nd r (Function.update flags u true) (cnt + 1) (u :: pending) where
  explored := by
    rw [setOf_update]
    exact h.explored.visit hv hadj
  start := (update_iff _ _ _).mpr (Or.inl h.start)
  lt w hw := by
    rcases (update_iff _ _ _).mp hw with hw | rfl
    · exact h.lt w hw
    · exact hu
  cnt := by
    have hcnt := h.cnt
    have hcard := card_unset_update hu hnew
    omega

/-- One pass: a neighbour of the top is pushed, or the top is popped. -/
theorem DfsInv.step (hlt : ∀ i < nd, ∀ u ∈ final_graph i, u < nd) {s : DfsState}
    (h : DfsInv final_graph nd r flags₀ s) :
    (∃ s', Returns (dfsStep final_graph s) (.inl s') ∧ DfsInv final_graph nd r flags₀ s' ∧
      dfsMeasure nd s' < dfsMeasure nd s) ∨
    ∃ s', Returns (dfsStep final_graph s) (.inr s') ∧
      Flagged final_graph nd r s'.flags s'.cnt [] ∧ ∀ v, flags₀ v = true → s'.flags v = true := by
  obtain ⟨rest, hstack⟩ := h.top
  have htmp : s.flags s.tmp = true := h.explored.marked_of_pending s.tmp (by simp [hstack])
  unfold dfsStep
  rw [hstack]
  dsimp only
  cases hnext : (final_graph s.tmp).find? fun u => s.flags u = false with
  | some next =>
    have hmem := List.mem_of_find?_eq_some hnext
    have hnew : s.flags next = false := by simpa using List.find?_some hnext
    have hnext_lt := hlt _ (h.lt _ htmp) _ hmem
    have hcard := card_unset_update hnext_lt hnew
    refine Or.inl ⟨_, returns_pure _, ⟨?_, ⟨_, rfl⟩, fun v hv => ?_⟩, ?_⟩
    · rw [← hstack]
      exact h.toFlagged.flag htmp hmem hnext_lt hnew
    · exact (update_iff _ _ _).mpr (Or.inl (h.grown v hv))
    · unfold dfsMeasure
      rw [hstack, List.length_cons]
      dsimp only
      omega
  | none =>
    have hall : ∀ u, Link final_graph s.tmp u → u ∈ {v | s.flags v = true} := fun u hu => by
      simpa using List.find?_eq_none.mp hnext u hu
    have hleft := (hstack ▸ h.explored).leave hall
    cases rest with
    | nil => exact Or.inr ⟨_, returns_pure _, ⟨hleft, h.start, h.lt, h.cnt⟩, h.grown⟩
    | cons top rest =>
      refine Or.inl ⟨_, returns_pure _, ⟨⟨hleft, h.start, h.lt, h.cnt⟩, ⟨rest, rfl⟩, h.grown⟩, ?_⟩
      unfold dfsMeasure
      simp only [hstack, List.length_cons]
      omega

/-- **Depth-first search.** It ends with nothing pending. -/
theorem dfsLoop_returns (hlt : ∀ i < nd, ∀ u ∈ final_graph i, u < nd) {s : DfsState}
    (h : DfsInv final_graph nd r flags₀ s) :
    ∃ s', Returns (loop (dfsStep final_graph) s) s' ∧
      Flagged final_graph nd r s'.flags s'.cnt [] ∧ ∀ v, flags₀ v = true → s'.flags v = true :=
  loop_returns (DfsInv final_graph nd r flags₀) (dfsMeasure nd)
    (fun s' : DfsState => Flagged final_graph nd r s'.flags s'.cnt [] ∧
      ∀ v, flags₀ v = true → s'.flags v = true) (fun _ hs => hs.step hlt) h

/-- A whole call of `DFS`. -/
theorem dfs_returns (hlt : ∀ i < nd, ∀ u ∈ final_graph i, u < nd) {flags : ℕ → Bool} {root cnt : ℕ}
    (h : Flagged final_graph nd r (Function.update flags root true)
      (if flags root then cnt else cnt + 1) [root]) :
    ∃ flags' cnt', Returns (dfs final_graph flags root cnt) (flags', cnt') ∧
      Flagged final_graph nd r flags' cnt' [] ∧ flags' root = true ∧
      ∀ v, flags v = true → flags' v = true := by
  have hinv : DfsInv final_graph nd r (Function.update flags root true)
      ⟨root, [root], Function.update flags root true, if flags root then cnt else cnt + 1⟩ :=
    ⟨h, ⟨[], rfl⟩, fun _ hv => hv⟩
  obtain ⟨s', hret, hflagged, hgrown⟩ := dfsLoop_returns hlt hinv
  refine ⟨s'.flags, s'.cnt, hret.bind (returns_pure _), hflagged,
    hgrown root (Function.update_self ..), fun v hv => hgrown v ?_⟩
  exact (update_iff _ _ _).mpr (Or.inl hv)

end Dfs

-- ---------------------------------------------------------------------------
-- Linking the next node
-- ---------------------------------------------------------------------------

/-- A flagged node comes up where `rand()` covers all ids. -/
theorem drawFlagged_returns {nd : ℕ} {flags : ℕ → Bool} {v : ℕ} (hv : v < nd)
    (hflag : flags v = true) {rng : ℕ → ℕ} (hrng : Covers nd rng) :
    ∃ rid rng', Returns (drawFlagged nd flags rng) (rid, rng') ∧ flags rid = true ∧
      Covers nd rng' := by
  obtain ⟨j, -, hj⟩ := hrng v hv 0
  -- by induction on the draws before `v` comes up
  induction j generalizing rng with
  | zero =>
    refine ⟨v, _, loop_done ?_, hflag, hrng.tail⟩
    dsimp only
    rw [hj, if_pos hflag]
    exact returns_pure _
  | succ j ih =>
    by_cases hhit : flags (rng 0 % nd) = true
    · refine ⟨rng 0 % nd, _, loop_done ?_, hhit, hrng.tail⟩
      dsimp only
      rw [if_pos hhit]
      exact returns_pure _
    · obtain ⟨rid, rng', hret, hrest⟩ := ih hrng.tail hj
      refine ⟨rid, rng', loop_next ?_ hret, hrest⟩
      dsimp only
      rw [if_neg hhit]
      exact returns_pure _

theorem link_pushBack (index : IndexNSG) (root : ℕ) (id : Fin index.nd) (v u : ℕ) :
    Link (pushBack index root id).final_graph v u ↔
      Link index.final_graph v u ∨ v = root ∧ u = id := by
  unfold Link pushBack
  by_cases hv : v = root
  · simp [hv]
  · simp [hv]

section Grow

variable {K V : Type} [LinearOrder K] [Zero K]

/-- **The next node.** While nodes are missing, one that is not flagged is linked from a
flagged one. -/
theorem findroot_returns (index : IndexNSG) (S : Sorting K) (D : Distance V K) (data : ℕ → V)
    {L : ℕ} (hL : 1 ≤ L) (hLnd : L ≤ index.nd) {flags : ℕ → Bool} {v w : ℕ} (hv : v < index.nd)
    (hflag : flags v = true) (hw : w < index.nd) (hmissing : flags w = false) (root : ℕ)
    {rng : ℕ → ℕ} (hrng : Covers index.nd rng) :
    ∃ (id : Fin index.nd) (root' : ℕ) (rng' : ℕ → ℕ),
      Returns (findroot index S D data L flags root rng) (pushBack index root' id, root', rng') ∧
      flags id = false ∧ flags root' = true ∧ Covers index.nd rng' := by
  unfold findroot
  cases hid : (List.finRange index.nd).find? fun i => flags i.val = false with
  | none =>
    have hset := List.find?_eq_none.mp hid ⟨w, hw⟩ (List.mem_finRange _)
    simp [hmissing] at hset
  | some id =>
    have hnew : flags id = false := by simpa using List.find?_some hid
    obtain ⟨c, hret, -, hcovers, -⟩ :=
      getNeighborsWith_returns false index S D data (data id) hL hLnd hrng
    dsimp only
    cases hfound : (S.sort c.fullset).find? fun p => flags p.id with
    | some p =>
      have hp : flags p.id = true := by simpa using List.find?_some hfound
      refine ⟨id, p.id, c.rng, hret.bind ?_, hnew, hp, hcovers⟩
      rw [hfound]
      exact (returns_pure _).bind (returns_pure _)
    | none =>
      obtain ⟨rid, rng', hdraw, hrid, hcovers'⟩ := drawFlagged_returns hv hflag hcovers
      refine ⟨id, rid, rng', hret.bind ?_, hnew, hrid, hcovers'⟩
      rw [hfound]
      exact hdraw.bind (returns_pure _)

-- ---------------------------------------------------------------------------
-- Growing the tree
-- ---------------------------------------------------------------------------

/-- What is the navigating point's to reach. -/
def Reaches (index : IndexNSG) (v : ℕ) : Prop :=
  Relation.ReflTransGen (Link index.final_graph) index.ep v

/-- The graph has grown out of that of `index`: links have only been added, behind those of
a node, and to nodes that the navigating point did not reach. -/
structure GrownFrom (index index' : IndexNSG) : Prop where
  nd   : index'.nd = index.nd
  ep   : index'.ep = index.ep
  kept : ∀ i, index.final_graph i <+: index'.final_graph i
  new  : ∀ i, ∀ u ∈ index'.final_graph i, u ∈ index.final_graph i ∨ ¬ Reaches index u

theorem GrownFrom.refl (index : IndexNSG) : GrownFrom index index :=
  ⟨rfl, rfl, fun _ => List.prefix_refl _, fun _ _ hu => Or.inl hu⟩

theorem GrownFrom.pushBack {index index' : IndexNSG} (h : GrownFrom index index') (root : ℕ)
    (id : Fin index'.nd) (hnew : ¬ Reaches index id) :
    GrownFrom index (pushBack index' root id) where
  nd := h.nd
  ep := h.ep
  kept i := by
    unfold Nsg.pushBack
    by_cases hi : i = root
    · simpa [hi] using (h.kept root).trans (List.prefix_append _ _)
    · simpa [hi] using h.kept i
  new i u hu := by
    rcases (link_pushBack index' root id i u).mp hu with hu | ⟨-, rfl⟩
    · exact h.new i u hu
    · exact Or.inr hnew

/-- The invariant of `tree_grow`, before a call of `DFS`: the flagged nodes and `root`, with
`root` alone pending, some node `more` that the call will flag, and nothing that was
reached from the first is left out after the first call; every link that has been added has
a flagged node for it. -/
structure GrowInv (index : IndexNSG) (s : GrowState) : Prop where
  grown   : GrownFrom index s.index
  flagged : Flagged s.index.final_graph index.nd index.ep (Function.update s.flags s.root true)
    (if s.flags s.root then s.unlinked_cnt else s.unlinked_cnt + 1) [s.root]
  more    : ∃ w < index.nd, s.flags w = false ∧ (w = s.root ∨ w ∈ s.index.final_graph s.root)
  first   : s.index = index ∨ ∀ v, Reaches index v → s.flags v = true
  size    : ∀ i, (s.index.final_graph i).length + (unset index.nd s.flags).card ≤
    (index.final_graph i).length + index.nd
  covers  : Covers index.nd s.rng

theorem growInv_init (index : IndexNSG) {rng : ℕ → ℕ} (hrng : Covers index.nd rng) :
    GrowInv index ⟨index, fun _ => false, index.ep, 0, rng⟩ where
  grown := .refl index
  flagged := by
    have hflags : {v | Function.update (fun _ => false) index.ep true v = true} = {index.ep} := by
      rw [setOf_update]
      simp
    refine ⟨?_, Function.update_self .., fun v hv => ?_, ?_⟩
    · rw [hflags]
      exact .start _ _
    · have hv : v ∈ {v | Function.update (fun _ => false) index.ep true v = true} := hv
      rw [hflags] at hv
      exact hv ▸ index.ep_lt
    · have hcard : (unset index.nd fun _ => false).card =
          (unset index.nd (Function.update (fun _ => false) index.ep true)).card + 1 :=
        card_unset_update index.ep_lt rfl
      have hall : unset index.nd (fun _ => false) = Finset.range index.nd := by
        ext i
        simp
      rw [hall, Finset.card_range] at hcard
      dsimp only
      rw [if_neg Bool.false_ne_true]
      omega
  more := ⟨index.ep, index.ep_lt, rfl, Or.inl rfl⟩
  first := Or.inl rfl
  size i := Nat.add_le_add_left ((Finset.card_filter_le _ _).trans_eq (Finset.card_range _)) _
  covers := hrng

/-- The whole graph has been flagged. -/
theorem Flagged.reaches {final_graph : ℕ → List ℕ} {nd r : ℕ} {flags : ℕ → Bool} {cnt : ℕ}
    (h : Flagged final_graph nd r flags cnt []) (hcnt : nd ≤ cnt) {v : ℕ} (hv : v < nd) :
    Relation.ReflTransGen (Link final_graph) r v := by
  have hnone : (unset nd flags).card = 0 := by
    have := h.cnt
    omega
  refine h.explored.reached v ?_
  by_contra hflag
  have hmem : v ∈ unset nd flags := mem_unset.mpr ⟨hv, by simpa using hflag⟩
  rw [Finset.card_eq_zero.mp hnone] at hmem
  exact absurd hmem (Finset.notMem_empty v)

theorem length_pushBack (index : IndexNSG) (root : ℕ) (id : Fin index.nd) (i : ℕ) :
    ((pushBack index root id).final_graph i).length ≤ (index.final_graph i).length + 1 := by
  unfold pushBack
  by_cases hi : i = root
  · simp [hi]
  · simp [hi]

/-- **One round**: the search ends with everything flagged, or the next node is linked. -/
theorem GrowInv.step {index : IndexNSG} (S : Sorting K) (D : Distance V K) (data : ℕ → V) {L : ℕ}
    (hL : 1 ≤ L) (hLnd : L ≤ index.nd) {s : GrowState} (h : GrowInv index s) :
    (∃ s', Returns (growStep S D data L s) (.inl s') ∧ GrowInv index s' ∧
      (unset index.nd s'.flags).card < (unset index.nd s.flags).card) ∨
    ∃ s', Returns (growStep S D data L s) (.inr s') ∧ GrownFrom index s'.index ∧
      (∀ v < index.nd, Reaches s'.index v) ∧
      (∀ i, (s'.index.final_graph i).length ≤ (index.final_graph i).length + index.nd) ∧
      Covers index.nd s'.rng := by
  obtain ⟨w, hw, hmissing, hroot⟩ := h.more
  have hlt : ∀ i < index.nd, ∀ u ∈ s.index.final_graph i, u < index.nd := by
    rw [← h.grown.nd]
    exact s.index.graph_lt
  obtain ⟨flags', cnt', hdfs, hflagged, hflag, hmono⟩ := dfs_returns hlt h.flagged
  have hw' : flags' w = true := by
    rcases hroot with rfl | hlink
    · exact hflag
    · exact hflagged.explored.closed s.root hflag List.not_mem_nil w hlink
  have hfewer : (unset index.nd flags').card < (unset index.nd s.flags).card := by
    refine Finset.card_lt_card ((Finset.ssubset_iff_of_subset (unset_subset _ hmono)).mpr
      ⟨w, mem_unset.mpr ⟨hw, hmissing⟩, fun hmem => ?_⟩)
    rw [mem_unset, hw'] at hmem
    exact absurd hmem.2 (by decide)
  have hreaches : ∀ v, Reaches index v → flags' v = true := fun v hv => by
    rcases h.first with heq | hall
    · exact (hflagged.explored.mem_iff hflagged.start).mpr (heq ▸ hv)
    · exact hmono v (hall v hv)
  have hcnt : s.unlinked_cnt < s.index.nd := by
    have hsum := h.flagged.cnt
    rw [h.grown.nd]
    split at hsum
    · next hset =>
      -- the root is flagged, and `w` is one more that is not
      have hne : w ≠ s.root := fun heq => by rw [heq, hset] at hmissing; cases hmissing
      have hmem : w ∈ unset index.nd (Function.update s.flags s.root true) :=
        mem_unset.mpr ⟨hw, by rw [Function.update_of_ne hne]; exact hmissing⟩
      have := Finset.card_pos.mpr ⟨w, hmem⟩
      omega
    · omega
  unfold growStep
  rw [if_pos hcnt]
  by_cases hdone : s.index.nd ≤ cnt'
  · refine Or.inr ⟨{ s with flags := flags', unlinked_cnt := cnt' }, hdfs.bind ?_, h.grown,
      fun v hv => ?_, fun i => (Nat.le_add_right _ _).trans (h.size i), h.covers⟩
    · dsimp only
      rw [if_pos hdone]
      exact returns_pure _
    · unfold Reaches
      rw [h.grown.ep]
      exact hflagged.reaches (h.grown.nd ▸ hdone) hv
  · have hmiss : ∃ v, v < s.index.nd ∧ flags' v = false := by
      have hcard : 0 < (unset index.nd flags').card := by
        have := hflagged.cnt
        rw [h.grown.nd] at hdone
        omega
      obtain ⟨v, hv⟩ := Finset.card_pos.mp hcard
      rw [mem_unset] at hv
      exact ⟨v, h.grown.nd ▸ hv.1, hv.2⟩
    obtain ⟨v, hv, hvnew⟩ := hmiss
    have hstart : index.ep < s.index.nd := h.grown.nd ▸ index.ep_lt
    obtain ⟨id, root', rng', hfind, hnew, hroot', hcovers⟩ := findroot_returns s.index S D data hL
      (h.grown.nd ▸ hLnd) hstart hflagged.start hv hvnew s.root (h.grown.nd ▸ h.covers)
    have hid : (id : ℕ) < index.nd := h.grown.nd ▸ id.isLt
    have hsame : Function.update flags' root' true = flags' := by
      rw [Function.update_eq_self_iff, hroot']
    refine Or.inl ⟨⟨pushBack s.index root' id, flags', root', cnt', rng'⟩, hdfs.bind ?_,
      ⟨h.grown.pushBack root' id fun hreach => ?_, ?_, ⟨id, hid, hnew, Or.inr ?_⟩,
        Or.inr hreaches, fun i => ?_, h.grown.nd ▸ hcovers⟩, hfewer⟩
    · dsimp only
      rw [if_neg hdone]
      exact hfind.bind (returns_pure _)
    · rw [hreaches id hreach] at hnew
      cases hnew
    · dsimp only
      rw [hsame, if_pos hroot']
      exact ⟨hflagged.explored.extend hroot' (link_pushBack s.index root' id), hflagged.start,
        hflagged.lt, hflagged.cnt⟩
    · exact (link_pushBack s.index root' id root' id).mpr (Or.inr ⟨rfl, rfl⟩)
    · have hone := length_pushBack s.index root' id i
      have hsize := h.size i
      dsimp only
      omega

/-- `width` is at least the length of every list. -/
theorem le_foldl_width {f : ℕ → ℕ} (l : List ℕ) (width : ℕ) :
    (∀ i ∈ l, f i ≤ l.foldl (fun width i => if width < f i then f i else width) width) ∧
      width ≤ l.foldl (fun width i => if width < f i then f i else width) width := by
  induction l generalizing width with
  | nil => exact ⟨fun i hi => absurd hi List.not_mem_nil, le_refl _⟩
  | cons j l ih =>
    obtain ⟨hall, hle⟩ := ih (if width < f j then f j else width)
    rw [List.foldl_cons]
    have hj : f j ≤ (if width < f j then f j else width) ∧
        width ≤ (if width < f j then f j else width) := by
      split <;> omega
    refine ⟨fun i hi => ?_, hj.2.trans hle⟩
    rcases List.mem_cons.mp hi with rfl | hi
    · exact hj.1.trans hle
    · exact hall i hi

/-- `width` is not more than it was, or than the longest list. -/
theorem foldl_width_le {f : ℕ → ℕ} {l : List ℕ} {width b : ℕ} (hwidth : width ≤ b)
    (hl : ∀ i ∈ l, f i ≤ b) :
    l.foldl (fun width i => if width < f i then f i else width) width ≤ b := by
  induction l generalizing width with
  | nil => exact hwidth
  | cons j l ih =>
    refine ih ?_ fun i hi => hl i (List.mem_cons_of_mem _ hi)
    have := hl j List.mem_cons_self
    dsimp only
    split
    · exact this
    · exact hwidth

/-- **Growing the tree.** It ends where `rand()` covers all ids; then the navigating point
reaches every node, by links that were there and links to nodes that it did not reach,
and no list is longer than `width`, which has grown by at most the number of nodes. -/
theorem treeGrow_reaches (index : IndexNSG) (width : ℕ) (S : Sorting K) (D : Distance V K)
    (data : ℕ → V) {L : ℕ} (hL : 1 ≤ L) (hLnd : L ≤ index.nd) {rng : ℕ → ℕ}
    (hrng : Covers index.nd rng) :
    ∃ index' width' rng', Returns (treeGrow index width S D data L rng) (index', width', rng') ∧
      GrownFrom index index' ∧ (∀ v < index'.nd, Reaches index' v) ∧
      (∀ i < index'.nd, (index'.final_graph i).length ≤ width') ∧ width ≤ width' ∧
      ((∀ i < index.nd, (index.final_graph i).length ≤ width) → width' ≤ width + index.nd) ∧
      Covers index.nd rng' := by
  obtain ⟨s, hret, hgrown, hreach, hsize, hcovers⟩ := loop_returns (GrowInv index)
    (fun s => (unset index.nd s.flags).card)
    (fun s' : GrowState => GrownFrom index s'.index ∧ (∀ v < index.nd, Reaches s'.index v) ∧
      (∀ i, (s'.index.final_graph i).length ≤ (index.final_graph i).length + index.nd) ∧
      Covers index.nd s'.rng) (fun s hs => hs.step S D data hL hLnd) (growInv_init index hrng)
  have hwidth := le_foldl_width (f := fun i => (s.index.final_graph i).length)
    (List.range s.index.nd) width
  refine ⟨s.index, _, s.rng, hret.bind (returns_pure _), hgrown, hgrown.nd ▸ hreach,
    fun i hi => hwidth.1 i (List.mem_range.mpr hi), hwidth.2, fun hlen => ?_, hcovers⟩
  refine foldl_width_le (f := fun i => (s.index.final_graph i).length) (Nat.le_add_right _ _)
    fun i hi => (hsize i).trans ?_
  exact Nat.add_le_add_right (hlen i (hgrown.nd ▸ List.mem_range.mp hi)) _

end Grow

end Mqo.Build.Nsg
