import Mqo.Build.NsgLink
import Mqo.Build.NsgTree
import Mqo.Search.NsgRecall

/-!
# MQO — building an NSG index

`init_graph` and `Build` of `nsg/src/index_nsg.cpp`: a search for the mean of the rows in the
kNN graph gives the navigating point, `Link` the places of each node, from which the
lists of ids are copied, and `tree_grow` connects them.

* `build_returns`  — the index that is built: its lists are those of the linked graph with links
  to nodes that the navigating point did not reach;
* `build_connects` — it reaches every node now, and links go both ways where there is room.
-/

namespace Mqo.Build.Nsg

open Prog Search.Nsg

-- ---------------------------------------------------------------------------
-- The functions
-- ---------------------------------------------------------------------------

/-- `center` in `init_graph`. -/
def center {F : Type} [Zero F] [Add F] [Div F] [NatCast F] (nd dimension : ℕ) (data : ℕ → List F) :
    List F :=
  (List.range dimension).map fun j => (List.range nd).foldl (fun c i => c + (data i).getD j 0) 0 / nd

/-- The index with another navigating point. -/
def withEp (index : IndexNSG) (ep : ℕ) (h : ep < index.nd) : IndexNSG :=
  { index with ep := ep, ep_lt := h }

/-- The loop that sets `pool_size`, from the given places on. -/
def poolSize {K : Type} [DecidableEq K] [One K] [Neg K] (pool : ℕ → SimpleNeighbor K) :
    List ℕ → ℕ → ℕ
  | [], pool_size => pool_size
  | j :: places, pool_size =>
    if (pool j).distance = -1 then pool_size else poolSize pool places j

/-- The list of a node that is copied from its places. -/
def copyLinks {K : Type} [DecidableEq K] [One K] [Neg K] (R : ℕ) (pool : ℕ → SimpleNeighbor K) :
    List ℕ :=
  (List.range (poolSize pool (List.range R) 0 + 1)).map fun j => (pool j).id

section Build

variable {F K : Type} [Zero F] [Add F] [Div F] [NatCast F] [LinearOrder K] [Zero K] [One K] [Neg K]

/-- `init_graph(parameters)`: the navigating point that `index` comes with is not read. -/
def initGraph (index : IndexNSG) (S : Sorting K) (D : Distance (List F) K) (data : ℕ → List F)
    (dimension L : ℕ) (rng : ℕ → ℕ) : Run (IndexNSG × (ℕ → ℕ)) := do
  let index := withEp index (rng 0 % index.nd) (Nat.mod_lt _ (Nat.zero_lt_of_lt index.ep_lt))
  let c ← getNeighbors index S D data (center index.nd dimension data) L fun k => rng (k + 1)
  if h : (c.retset 0).id < index.nd then pure (withEp index (c.retset 0).id h, c.rng)
  else fault .outOfRange

/-- The lists after linking; a link to no node would be followed by `tree_grow`. -/
def finalGraph (index : IndexNSG) (R : ℕ) (cut : CutGraph K) : Run IndexNSG :=
  if h : ∀ i < index.nd, ∀ u ∈ copyLinks R (cut i), u < index.nd then
    pure { index with final_graph := fun i => copyLinks R (cut i), graph_lt := h }
  else fault .outOfRange

/-- `Build(n, data, parameters)`, after the kNN graph has been loaded into `index`: the
index, `width`, and the values `rand()` still has to return to this thread. `cut` is what
`cut_graph_` holds when it is allocated. -/
def build (index : IndexNSG) (S : Sorting K) (T : SimpleSorting K) (D : Distance (List F) K)
    (data : ℕ → List F) (dimension L R C : ℕ) (order : List ℕ) (threads : ℕ → ℕ → ℕ) (rng : ℕ → ℕ)
    (cut : CutGraph K) : Run (IndexNSG × ℕ × (ℕ → ℕ)) := do
  let (index, rng) ← initGraph index S D data dimension L rng
  let cut ← link index S T D data L R C order threads cut
  let index ← finalGraph index R cut
  treeGrow index R S D data L rng

-- ---------------------------------------------------------------------------
-- The lists that are copied
-- ---------------------------------------------------------------------------

section Copied

variable {R : ℕ} {pool : ℕ → SimpleNeighbor K}

omit [Zero K] in
/-- The places up to the last one that is listed; the first one in any case. -/
theorem poolSize_range (R : ℕ) (pool : ℕ → SimpleNeighbor K) :
    poolSize pool (List.range R) 0 + 1 = max 1 (listed R pool).length := by
  suffices hsuff : ∀ n a size, poolSize pool (List.range' a n) size + 1 =
      if ((List.range' a n).map pool).takeWhile (fun p => p.distance ≠ -1) = [] then size + 1
      else a + (((List.range' a n).map pool).takeWhile fun p => p.distance ≠ -1).length by
    have hrange := hsuff R 0 0
    rw [← List.range_eq_range'] at hrange
    rw [hrange]
    change (if listed R pool = [] then 0 + 1 else 0 + (listed R pool).length) = _
    split
    · next hnil => simp [hnil]
    · next hne =>
      have := List.length_pos_of_ne_nil hne
      omega
  intro n
  induction n with
  | zero => exact fun a size => rfl
  | succ n ih =>
    intro a size
    rw [List.range'_succ, List.map_cons, poolSize]
    by_cases hend : (pool a).distance = -1
    · rw [if_pos hend, List.takeWhile_cons_of_neg (by simpa using hend), if_pos rfl]
    · rw [if_neg hend, ih (a + 1) a, List.takeWhile_cons_of_pos (by simpa using hend),
        if_neg (List.cons_ne_nil _ _), List.length_cons]
      split
      · next hnil => rw [hnil, List.length_nil]
      · omega

omit [Zero K] in
theorem length_copyLinks (R : ℕ) (pool : ℕ → SimpleNeighbor K) :
    (copyLinks R pool).length = max 1 (listed R pool).length := by
  rw [copyLinks, List.length_map, List.length_range, poolSize_range]

omit [Zero K] in
/-- The ids of what is listed, or of the first place. -/
theorem copyLinks_eq (R : ℕ) (pool : ℕ → SimpleNeighbor K) :
    copyLinks R pool = if listed R pool = [] then [(pool 0).id]
      else (listed R pool).map SimpleNeighbor.id := by
  rw [copyLinks, poolSize_range]
  split
  · next hnil => rw [hnil]; rfl
  · next hne =>
    have hpos := List.length_pos_of_ne_nil hne
    conv_rhs => rw [listed_eq_map R pool, List.map_map]
    rw [Nat.max_eq_right hpos]
    rfl

omit [Zero K] in
/-- Links are copied to nodes. -/
theorem HasLinks.copyLinks {d : ℕ → ℕ → K} {nd q : ℕ} (h : HasLinks d nd R q pool) :
    ∀ u ∈ copyLinks R pool, u < nd := by
  intro u hu
  rw [copyLinks_eq] at hu
  split at hu
  · rw [List.mem_singleton.mp hu]
    exact h.first.1
  · obtain ⟨p, hp, rfl⟩ := List.mem_map.mp hu
    exact (h.listed p hp).1

end Copied

-- ---------------------------------------------------------------------------
-- The whole build
-- ---------------------------------------------------------------------------

variable (index : IndexNSG) (S : Sorting K) (T : SimpleSorting K) (D : Distance (List F) K)
  (data : ℕ → List F) (dimension : ℕ) {L R : ℕ}

omit [One K] [Neg K] in
/-- The navigating point is a node. -/
theorem initGraph_returns (hL : 1 ≤ L) (hLnd : L ≤ index.nd) {rng : ℕ → ℕ}
    (hrng : Covers index.nd rng) :
    ∃ ep, ∃ hep : ep < index.nd, ∃ rng', Returns (initGraph index S D data dimension L rng)
      (withEp index ep hep, rng') ∧ Covers index.nd rng' := by
  have hstart := Nat.mod_lt (rng 0) (Nat.zero_lt_of_lt index.ep_lt)
  have htail : Covers index.nd fun k => rng (k + 1) := hrng.tail
  obtain ⟨c, hret, hc, hcovers, -⟩ := getNeighborsWith_returns false
    (withEp index (rng 0 % index.nd) hstart) S D data (center index.nd dimension data) hL hLnd htail
  refine ⟨(c.retset 0).id, hc.node 0 hL, c.rng, hret.bind ?_, hcovers⟩
  rw [dif_pos (hc.node 0 hL)]
  exact returns_pure _

/-- The graph that has been linked, before it is grown. -/
structure LinkedGraph (D : Distance (List F) K) (data : ℕ → List F) (R : ℕ) (linked : IndexNSG) :
    Prop where
  length : ∀ i < linked.nd, (linked.final_graph i).length ≤ R
  links  : ∀ i < linked.nd, linked.final_graph i ≠ []
  both   : (∀ a < linked.nd, ∀ b < linked.nd, D.compare (data a) (data b) ≠ -1) →
    ∀ i < linked.nd, ∀ u ∈ linked.final_graph i,
      i ∈ linked.final_graph u ∨ (linked.final_graph u).length = R

omit [Zero F] [Add F] [Div F] [NatCast F] in
/-- **The lists** that `Build` copies after linking. -/
theorem finalGraph_returns (hL : 2 ≤ L) (hLnd : L ≤ index.nd) (hR : 1 ≤ R) (C : ℕ) {order : List ℕ}
    (horder : order.Perm (List.range index.nd)) {threads : ℕ → ℕ → ℕ}
    (hthreads : ∀ n < index.nd, Covers index.nd (threads n)) (cut : CutGraph K) :
    ∃ linked cut', Returns (link index S T D data L R C order threads cut) cut' ∧
      Returns (finalGraph index R cut') linked ∧
      linked.nd = index.nd ∧ linked.ep = index.ep ∧ LinkedGraph D data R linked := by
  obtain ⟨cut', hret, hinv, hmutual⟩ := link_returns index S T D data hL hLnd hR C horder hthreads cut
  have hlt : ∀ i < index.nd, ∀ u ∈ copyLinks R (cut' i), u < index.nd :=
    fun i hi => (hinv i hi).copyLinks
  refine ⟨{ index with final_graph := fun i => copyLinks R (cut' i), graph_lt := hlt }, cut', hret,
    ?_, rfl, rfl, ⟨fun i _ => ?_, fun i _ hnil => ?_, fun hne i hi u hu => ?_⟩⟩
  · rw [finalGraph, dif_pos hlt]
    exact returns_pure _
  · rw [length_copyLinks]
    exact max_le hR (length_listed_le R _)
  · have hlen := congrArg List.length hnil
    rw [length_copyLinks, List.length_nil] at hlen
    omega
  · -- a list that is not empty is copied as it is
    obtain ⟨hlinks, hback⟩ := hmutual hne
    have hcopy : ∀ v < index.nd,
        copyLinks R (cut' v) = (listed R (cut' v)).map SimpleNeighbor.id := fun v hv => by
      rw [copyLinks_eq, if_neg (hlinks v hv)]
    have hult := hlt i hi u hu
    dsimp only at hu ⊢
    rw [hcopy i hi] at hu
    rw [hcopy u hult, List.length_map]
    obtain ⟨p, hp, hpu⟩ := List.mem_map.mp hu
    rcases hback i hi u ⟨p, hp, hpu⟩ with ⟨p', hp', hpi⟩ | hfull
    · exact Or.inl (List.mem_map.mpr ⟨p', hp', hpi⟩)
    · exact Or.inr hfull

/-- **Building.** It ends where `rand()` covers all ids. In the index that it leaves the
navigating point reaches every node, and `width` is at least the length of every list, and at
most `R` and the number of nodes. Before it was grown, each node had between one and `R` links,
each of them there in both directions or with its other end full, for a metric that is never -1;
what was added are links to nodes that the navigating point did not reach. -/
theorem build_returns (hL : 2 ≤ L) (hLnd : L ≤ index.nd) (hR : 1 ≤ R) (C : ℕ) {order : List ℕ}
    (horder : order.Perm (List.range index.nd)) {threads : ℕ → ℕ → ℕ}
    (hthreads : ∀ n < index.nd, Covers index.nd (threads n)) {rng : ℕ → ℕ}
    (hrng : Covers index.nd rng) (cut : CutGraph K) :
    ∃ built width rng' linked, Returns (build index S T D data dimension L R C order threads rng cut)
        (built, width, rng') ∧ built.nd = index.nd ∧
      (∀ v < built.nd, Reaches built v) ∧
      (∀ i < built.nd, (built.final_graph i).length ≤ width) ∧ R ≤ width ∧ width ≤ R + built.nd ∧
      LinkedGraph D data R linked ∧ GrownFrom linked built := by
  obtain ⟨ep, hep, rng', hinit, hcovers⟩ := initGraph_returns index S D data dimension
    ((Nat.le_succ 1).trans hL) hLnd hrng
  obtain ⟨linked, cut', hlink, hfinal, hnd, -, hlinked⟩ := finalGraph_returns (withEp index ep hep) S T
    D data hL hLnd hR C horder hthreads cut
  have hLlinked : L ≤ linked.nd := hnd ▸ hLnd
  have hcovers' : Covers linked.nd rng' := hnd ▸ hcovers
  obtain ⟨built, width, rng'', hgrow, hgrown, hreach, hlen, hwidth, hgrowth, -⟩ :=
    treeGrow_reaches linked R S D data ((Nat.le_succ 1).trans hL) hLlinked hcovers'
  refine ⟨built, width, rng'', linked, hinit.bind (hlink.bind (hfinal.bind hgrow)), hgrown.nd.trans hnd,
    hreach, hlen, hwidth, ?_, hlinked, hgrown⟩
  rw [hgrown.nd]
  exact hgrowth hlinked.length

end Build

-- ---------------------------------------------------------------------------
-- Four nodes on a line
-- ---------------------------------------------------------------------------

/-- `std::sort` as an insertion sort. -/
def SimpleSorting.insertion (K : Type) [LinearOrder K] : SimpleSorting K where
  sort l := l.insertionSort fun a b => a.distance ≤ b.distance
  perm l := List.perm_insertionSort _ l
  sorted l :=
    have : Std.Total fun a b : SimpleNeighbor K => a.distance ≤ b.distance :=
      ⟨fun _ _ => le_total _ _⟩
    have : IsTrans (SimpleNeighbor K) fun a b => a.distance ≤ b.distance := ⟨fun _ _ _ => le_trans⟩
    List.pairwise_insertionSort _ l

/-- Squared distances of rows with one number. -/
def squareRowDistance : Distance (List ℤ) ℤ where
  compare a b := (a.headD 0 - b.headD 0) * (a.headD 0 - b.headD 0)
  norm a := a.headD 0 * a.headD 0
  compareNorm a b n := n - 2 * (a.headD 0 * b.headD 0)
  compare_comm a b := by ring
  compareNorm_comm a b n := by ring

end Mqo.Build.Nsg
