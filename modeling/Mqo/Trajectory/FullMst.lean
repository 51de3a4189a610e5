import Mqo.Lib.TextStream
import Mqo.Trajectory.Prim
import Mqo.Trajectory.Reorder

/-!
# MQO — exact spanning trees and their files

`get_mst`, `save_mst` and `read_mst` of `mqo/fullmst/full_mst.hpp`. `get_mst`
runs the Prim loop over all queries in `double`, with squared distances, and
lists the tree edges without an entry for the root; its relaxation loop runs
in parallel, so the order of each pass is any permutation. The two other
functions write the list as text and read it back.

* `getMst_spec` — with finite costs the edges, preceded by the root entry,
  are a rooted tree over all queries;
* `readMst_saveMst` — `read_mst` returns what `save_mst` wrote;
* `TreeEdges.forest` — with `(0, -1)` put at their end the edges are a forest
  that can be reordered.
-/

namespace Mqo

open Prog StackTraversal TextStream

-- ---------------------------------------------------------------------------
-- The spanning tree
-- ---------------------------------------------------------------------------

section GetMst

variable {F D : Type} [Scalar F] [Scalar D] [Widen F D]

/-- The cost that the relaxation loop of `get_mst` computes: the squared
distance, or the inner-product distance. -/
def mstCost (use_l2 : Bool) (query : ℤ → F) (dim u j : ℕ) : D :=
  let x := fun d : ℕ => query ↑(u * dim + d)
  let y := fun d : ℕ => query ↑(j * dim + d)
  if use_l2 then
    (List.range dim).foldl (fun cost d =>
      let diff : D := widen (x d - y d)
      cost + diff * diff) 0
  else
    let dot := (List.range dim).foldl (fun (dot : D) d => dot + widen (x d) * widen (y d)) 0
    1 - dot

/-- The main loop of `get_mst`; the first argument holds the order in which each
iteration relaxes the vertices. -/
def mstLoop (n : ℕ) (cost : ℕ → ℕ → D) : List (List ℕ) → PrimState D → PrimState D
  | [], state => state
  | order :: orders, state =>
    let sel := selectNext n state.key state.inMST
    match sel.curr with
    | none => state -- `if (u < 0) break;`
    | some u => mstLoop n cost orders (primVisit order cost state u sel.parent)

/-- The edge of a vertex that is not the root. -/
def PrimStep.edge (s : PrimStep D) : Option (ℤ × ℤ) :=
  s.parent.map fun p => ((s.node : ℤ), (p : ℤ))

/-- `get_mst`: the edges and their average weight, without the duration. -/
def getMst (n_query dim : ℕ) (query : ℤ → F) (use_l2 : Bool) (order : ℕ → List ℕ) :
    Run (Trajectory × D) :=
  if n_query = 0 then fault .outOfRange -- `dist[0]`
  else
    let final := mstLoop n_query (mstCost use_l2 query dim) ((List.range n_query).map order)
      ⟨initKey, fun _ => false, []⟩
    let totalWeight := final.steps.foldl (fun (total : D) s =>
      if s.parent = none then total
      else total + (if use_l2 then Scalar.sqrt s.weight else s.weight)) 0
    let avg_edge := if n_query > 1 then totalWeight / Scalar.ofInt (n_query - 1) else 0
    pure (final.steps.filterMap PrimStep.edge, avg_edge)

/-- All costs between different queries are finite. -/
def FiniteCosts (D : Type) [Scalar D] [Widen F D] (use_l2 : Bool) (query : ℤ → F)
    (dim n_query : ℕ) : Prop :=
  ∀ i < n_query, ∀ j < n_query, i ≠ j → (mstCost use_l2 query dim i j : D) < Scalar.infinity

/-- Each pass of the parallel loop relaxes every vertex once. -/
def ParallelOrder (n_query : ℕ) (order : ℕ → List ℕ) : Prop :=
  ∀ it, (order it).Perm (List.range n_query)

/-- With finite costs no iteration breaks off, and every vertex is visited. -/
theorem mstLoop_spec {n : ℕ} {cost : ℕ → ℕ → D}
    (hfin : ∀ i < n, ∀ j < n, i ≠ j → cost i j < Scalar.infinity) :
    ∀ (orders : List (List ℕ)) (state : PrimState D), PrimInv n cost state →
      state.steps.length + orders.length = n → (∀ o ∈ orders, o.Perm (List.range n)) →
      PrimSteps n cost (mstLoop n cost orders state).steps ∧
        (mstLoop n cost orders state).steps.length = n := by
  intro orders
  induction orders with
  | nil =>
    intro state h hlen _
    exact ⟨h.steps, hlen⟩
  | cons order orders ih =>
    intro state h hlen horders
    rw [List.length_cons] at hlen
    obtain ⟨c, hnext, hinv⟩ := primVisit_spec h hfin (by omega)
    rw [mstLoop, hnext]
    refine ih _ (hinv order (horders order List.mem_cons_self)) ?_ fun o ho =>
      horders o (List.mem_cons_of_mem _ ho)
    rw [length_primVisit]
    omega

/-- A rooted spanning tree whose root entry is left out of the list of edges. -/
structure TreeEdges (n_query : ℕ) (edges : Trajectory) : Prop where
  perm   : ((0 :: edges.map Prod.fst)).Perm (indices n_query)
  topo   : Topological (-1) ((0, -1) :: edges)
  parent : ∀ e ∈ edges, e.2 ≠ -1

/-- The first step is the root `0`; the edges are the entries of the others. -/
theorem PrimSteps.entries_eq {n : ℕ} {cost : ℕ → ℕ → D} {steps : List (PrimStep D)}
    (h : PrimSteps n cost steps) (hne : steps ≠ []) :
    steps.map PrimStep.entry = (0, -1) :: steps.filterMap PrimStep.edge ∧
      ∀ e ∈ steps.filterMap PrimStep.edge, e.2 ≠ -1 := by
  obtain ⟨s, rest, rfl⟩ := List.exists_cons_of_ne_nil hne
  have hroot : s.node = 0 ∧ s.parent = none := by
    rcases h.ok [] s rest rfl with ⟨-, h0, hp, -⟩ | ⟨p, hp, -⟩
    · exact ⟨h0, hp⟩
    · cases hp
  have hlater : ∀ t ∈ rest, ∃ p : ℕ, t.parent = some p := by
    intro t ht
    obtain ⟨pre, post, rfl⟩ := List.append_of_mem ht
    obtain ⟨p, -, hp, -⟩ := h.parent_of_later
      (show s :: (pre ++ t :: post) = (s :: pre) ++ t :: post from rfl) (List.cons_ne_nil s pre)
    exact ⟨p, hp⟩
  have hs : s.edge = none := by rw [PrimStep.edge, hroot.2]; rfl
  have hedges : (s :: rest).filterMap PrimStep.edge = rest.map PrimStep.entry := by
    rw [List.filterMap_cons_none hs, ← List.filterMap_eq_map]
    refine List.filterMap_congr fun t ht => ?_
    obtain ⟨p, hp⟩ := hlater t ht
    simp [PrimStep.edge, PrimStep.entry, hp]
  rw [hedges]
  refine ⟨?_, fun e he => ?_⟩
  · rw [List.map_cons, PrimStep.entry, hroot.1, hroot.2]
    rfl
  · obtain ⟨t, ht, rfl⟩ := List.mem_map.mp he
    obtain ⟨p, hp⟩ := hlater t ht
    simp only [PrimStep.entry, hp]
    omega

theorem PrimSteps.treeEdges {n : ℕ} {cost : ℕ → ℕ → D} {steps : List (PrimStep D)}
    (h : PrimSteps n cost steps) (hn : 0 < n) (hlen : steps.length = n) :
    TreeEdges n (steps.filterMap PrimStep.edge) := by
  obtain ⟨hentries, hparent⟩ := h.entries_eq (List.ne_nil_of_length_pos (hlen ▸ hn))
  refine ⟨?_, ?_, hparent⟩
  · have := h.entries_perm hlen
    rwa [hentries] at this
  · have := h.topological
    rwa [hentries] at this

/-- The steps that the loop of `get_mst` records. -/
def mstSteps (D : Type) [Scalar D] [Widen F D] (n_query dim : ℕ) (query : ℤ → F) (use_l2 : Bool)
    (order : ℕ → List ℕ) : List (PrimStep D) :=
  (mstLoop n_query (mstCost use_l2 query dim) ((List.range n_query).map order)
    ⟨initKey, fun _ => false, []⟩).steps

theorem mstSteps_spec {n_query dim : ℕ} {query : ℤ → F} {use_l2 : Bool}
    (hfin : FiniteCosts D use_l2 query dim n_query) {order : ℕ → List ℕ}
    (horder : ParallelOrder n_query order) :
    PrimSteps n_query (mstCost use_l2 query dim) (mstSteps D n_query dim query use_l2 order) ∧
      (mstSteps D n_query dim query use_l2 order).length = n_query :=
  mstLoop_spec hfin ((List.range n_query).map order) ⟨initKey, fun _ => false, []⟩ primInv_init
    (by simp) fun o ho => by
      obtain ⟨it, -, rfl⟩ := List.mem_map.mp ho
      exact horder it

/-- `get_mst` returns the edges of these steps. -/
theorem getMst_returns {n_query : ℕ} (hn : 0 < n_query) (dim : ℕ) (query : ℤ → F) (use_l2 : Bool)
    (order : ℕ → List ℕ) :
    ∃ avg : D, Returns (getMst n_query dim query use_l2 order)
      ((mstSteps D n_query dim query use_l2 order).filterMap PrimStep.edge, avg) := by
  rw [getMst, if_neg hn.ne']
  exact ⟨_, returns_pure _⟩

/-- **`get_mst`.** With finite costs, whatever the order of the parallel
relaxations, the edges are a rooted spanning tree of all queries. -/
theorem getMst_spec {n_query dim : ℕ} (hn : 0 < n_query) {query : ℤ → F} {use_l2 : Bool}
    (hfin : FiniteCosts D use_l2 query dim n_query) {order : ℕ → List ℕ}
    (horder : ParallelOrder n_query order) :
    ∃ r : Trajectory × D, Returns (getMst n_query dim query use_l2 order) r ∧
      TreeEdges n_query r.1 := by
  obtain ⟨hsteps, hlen⟩ := mstSteps_spec hfin horder
  obtain ⟨avg, hret⟩ := getMst_returns (D := D) hn dim query use_l2 order
  exact ⟨_, hret, hsteps.treeEdges hn hlen⟩

end GetMst

-- ---------------------------------------------------------------------------
-- Files
-- ---------------------------------------------------------------------------

/-- The file system: contents by name, and the names that can be written. -/
structure Disk where
  content : String → Option (List Char)
  writable : String → Bool

/-- The values that variables without an initial value happen to hold: `m`, and
`child` and `parent` in each iteration. -/
structure Uninitialised where
  m : ℤ
  child : ℕ → ℤ
  parent : ℕ → ℤ

/-- `out << pr.first << ' ' << pr.second << '\n'` -/
def showEdge (pr : ℤ × ℤ) : List Char := showInt pr.1 ++ ' ' :: (showInt pr.2 ++ ['\n'])

/-- `save_mst` -/
def saveMst (disk : Disk) (edges : Trajectory) (filename : String) : Run Disk :=
  if disk.writable filename then
    let text := showNat edges.length ++ '\n' :: edges.flatMap showEdge
    pure { disk with content := Function.update disk.content filename (some text) }
  else fault (.exception ("Unable to open file for writing: " ++ filename))

/-- The loop of `read_mst` that starts at iteration `i`, for `k` iterations. -/
def readEdges (mem : Uninitialised) : ℕ → ℕ → IStream → Trajectory
  | _, 0, _ => []
  | i, k + 1, input =>
    let child := readInt input (mem.child i)
    let parent := readInt child.2 (mem.parent i)
    (child.1, parent.1) :: readEdges mem (i + 1) k parent.2

/-- `read_mst`; `reserve` throws above the maximal size of the vector. -/
def readMst (disk : Disk) (mem : Uninitialised) (filename : String) : Run Trajectory :=
  match disk.content filename with
  | none => fault (.exception ("Unable to open file for reading: " ++ filename))
  | some text =>
    let m := readSize ⟨text, false⟩ mem.m
    if m.1 ≥ 2 ^ 60 then fault (.exception "vector::reserve")
    else pure (readEdges mem 0 m.1.toNat m.2)

/-- Both numbers of the pair are values of `int`. -/
def IsIntPair (e : ℤ × ℤ) : Prop := (-2 ^ 31 ≤ e.1 ∧ e.1 < 2 ^ 31) ∧ -2 ^ 31 ≤ e.2 ∧ e.2 < 2 ^ 31

/-- The loop of `read_mst` reads the lines that `save_mst` wrote. -/
theorem readEdges_showEdge (mem : Uninitialised) {edges : Trajectory}
    (hint : ∀ e ∈ edges, IsIntPair e) : ∀ i,
      readEdges mem i edges.length ⟨'\n' :: edges.flatMap showEdge, false⟩ = edges := by
  induction edges with
  | nil => exact fun i => rfl
  | cons e edges ih =>
    intro i
    obtain ⟨⟨h1, h2⟩, h3, h4⟩ := hint e List.mem_cons_self
    have htext : '\n' :: (e :: edges).flatMap showEdge =
        ['\n'] ++ (showInt e.1 ++ ' ' :: (showInt e.2 ++ '\n' :: edges.flatMap showEdge)) := by
      simp [showEdge]
    have hchild := readInt_showInt h1 h2
      (List.forall_mem_singleton.mpr (show isSpace '\n' = true from rfl)) (c := ' ') (by decide)
      (showInt e.2 ++ '\n' :: edges.flatMap showEdge) (mem.child i)
    have hparent := readInt_showInt h3 h4
      (List.forall_mem_singleton.mpr (show isSpace ' ' = true from rfl)) (c := '\n') (by decide)
      (edges.flatMap showEdge) (mem.parent i)
    rw [List.singleton_append] at hparent
    rw [List.length_cons, readEdges, htext]
    simp only [hchild, hparent]
    rw [ih (fun x hx => hint x (List.mem_cons_of_mem _ hx))]

/-- **The round trip.** What `save_mst` wrote is what `read_mst` returns. -/
theorem readMst_saveMst {disk : Disk} {filename : String} (hopen : disk.writable filename = true)
    {edges : Trajectory} (hlen : edges.length < 2 ^ 60) (hint : ∀ e ∈ edges, IsIntPair e)
    (mem : Uninitialised) :
    ∃ disk', Returns (saveMst disk edges filename) disk' ∧
      Returns (readMst disk' mem filename) edges := by
  refine ⟨_, by rw [saveMst, if_pos hopen]; exact returns_pure _, ?_⟩
  have hsize := readSize_showNat (n := edges.length) (by omega) (c := '\n') (by decide)
    (edges.flatMap showEdge) mem.m
  unfold readMst
  simp only [Function.update_self, hsize]
  rw [if_neg (by omega), Int.toNat_natCast, readEdges_showEdge mem hint 0]
  exact returns_pure _

/-- The numbers of a tree over fewer than `2 ^ 31` queries are values of `int`. -/
theorem TreeEdges.isIntPair {n_query : ℕ} {edges : Trajectory} (h : TreeEdges n_query edges)
    (hn : n_query ≤ 2 ^ 31) : ∀ e ∈ edges, IsIntPair e := by
  intro e he
  have hchild : ∀ i ∈ (0 :: edges.map Prod.fst), 0 ≤ i ∧ i < 2 ^ 31 := by
    intro i hi
    have := mem_indices.mp (h.perm.mem_iff.mp hi)
    omega
  have h1 := hchild e.1 (List.mem_cons_of_mem _ (List.mem_map_of_mem he))
  have h2 := hchild e.2 ((h.topo.mem (List.mem_cons_of_mem _ he)).resolve_left (h.parent e he))
  unfold IsIntPair
  omega

theorem TreeEdges.length {n_query : ℕ} {edges : Trajectory} (h : TreeEdges n_query edges) :
    edges.length + 1 = n_query := by
  simpa using h.perm.length_eq

/-- The edges followed by `(0, -1)` form a tree in which `0` is the only root. -/
theorem TreeEdges.forest {n_query : ℕ} {edges : Trajectory} (h : TreeEdges n_query edges) :
    Forest (edges ++ [(0, -1)]) ∧ (edges ++ [((0 : ℤ), (-1 : ℤ))]).length = n_query := by
  have hperm : (edges ++ [(0, -1)]).Perm ((0, -1) :: edges) := List.perm_append_singleton _ _
  have hlen : (edges ++ [((0 : ℤ), (-1 : ℤ))]).length = n_query := by
    rw [List.length_append, List.length_singleton, h.length]
  refine ⟨⟨?_, fun e he => ?_⟩, hlen⟩
  · rw [hlen]
    exact (hperm.map Prod.fst).trans h.perm
  · exact (h.topo.rooted e (hperm.mem_iff.mp he)).mono fun x hx => hperm.mem_iff.mpr hx

end Mqo
