import Mqo.Trajectory.HnswLinks

/-!
# MQO — the trees of the directed links

`approximateMSTUsingHNSW` searches along the stored links in their direction only. A tree
is started at the smallest id not visited, and it takes what can be reached from there along
links through ids that no earlier tree has taken. Nothing is assumed about the order in
which the queue yields its items.

* `directedForest_of_grows`         — what a search along the links records;
* `approximateMSTUsingHNSW_directed` — the function returns such a forest, with the mean of
  the weights of its edges.
-/

namespace Mqo

open Prog StackTraversal SpanningForest

-- ---------------------------------------------------------------------------
-- Records as entries
-- ---------------------------------------------------------------------------

/-- A record of a search as a pair (child, parent). -/
def entryOf (r : ℕ × Option ℕ) : ℤ × ℤ :=
  (r.1, match r.2 with
    | none => -1
    | some p => p)

theorem entry_eq_entryOf {F : Type} (steps : List (PrimStep F)) :
    steps.map PrimStep.entry = (steps.map PrimStep.record).map entryOf := by
  rw [List.map_map]
  rfl

theorem mem_entries {l : List (ℕ × Option ℕ)} {v : ℕ} :
    (v : ℤ) ∈ (l.map entryOf).map Prod.fst ↔ v ∈ nodes l := by
  rw [List.map_map, nodes, List.mem_map, List.mem_map]
  exact exists_congr fun r => and_congr_right fun _ => Nat.cast_inj

theorem entryOf_root_iff {r : ℕ × Option ℕ} : (entryOf r).2 = -1 ↔ r.2 = none := by
  obtain ⟨v, _ | p⟩ := r
  · simp [entryOf]
  · simp [entryOf]

/-- An entry of the list, and the record that it shows. -/
theorem entries_split {l : List (ℕ × Option ℕ)} {pre post : Trajectory} {e : ℤ × ℤ}
    (h : l.map entryOf = pre ++ e :: post) :
    ∃ pre' r post', l = pre' ++ r :: post' ∧ pre = pre'.map entryOf ∧ e = entryOf r ∧
      post = post'.map entryOf := by
  obtain ⟨pre', rest, rfl, rfl, hrest⟩ := List.map_eq_append_iff.mp h
  obtain ⟨r, post', rfl, rfl, rfl⟩ := List.map_eq_cons_iff.mp hrest
  exact ⟨pre', r, post', rfl, rfl, rfl, rfl⟩

-- ---------------------------------------------------------------------------
-- The forest
-- ---------------------------------------------------------------------------

/-- The id `v` is reachable from `s` along the links through ids that are not `taken`. -/
def ReachableAround (links : ℕ → List ℕ) (taken : List ℤ) (s v : ℕ) : Prop :=
  Relation.ReflTransGen (fun a b => b ∈ links a ∧ (b : ℤ) ∉ taken) s v

/-- The entries are a forest of the directed links: every id is a child once, parents come
first and hold a link to their child, and a tree, which ends at the next root, holds what can
be reached from its root around the earlier trees. -/
structure DirectedForest (links : ℕ → List ℕ) (n : ℕ) (t : Trajectory) : Prop where
  length   : t.length = n
  children : (t.map Prod.fst).Perm (indices n)
  parents  : ∀ pre e post, t = pre ++ e :: post →
    e.2 = -1 ∨ ∃ v p : ℕ, e = ((v : ℤ), (p : ℤ)) ∧ v ∈ links p ∧ (p : ℤ) ∈ pre.map Prod.fst
  trees    : ∀ pre (s : ℕ) post, t = pre ++ ((s : ℤ), -1) :: post → ∃ tree rest,
    post = tree ++ rest ∧ (∀ e ∈ rest.head?, e.2 = -1) ∧
    (∀ e ∈ tree, e.2 ∈ (((s : ℤ), -1) :: tree).map Prod.fst) ∧
    ∀ v : ℕ, (v : ℤ) ∈ (((s : ℤ), -1) :: tree).map Prod.fst ↔
      ReachableAround links (pre.map Prod.fst) s v

/-- A search along the links that records every id once. -/
theorem directedForest_of_grows {links : ℕ → List ℕ} {n : ℕ} {l : List (ℕ × Option ℕ)}
    (hrange : ∀ v < n, ∀ u ∈ links v, u < n) (h : Grows (fun p c => c ∈ links p) l)
    (hchildren : ((l.map entryOf).map Prod.fst).Perm (indices n)) :
    DirectedForest links n (l.map entryOf) := by
  have hnodes : ∀ v, v ∈ nodes l ↔ v < n := fun v => by
    rw [← mem_entries, hchildren.mem_iff, mem_indices]
    omega
  have hclosed : Closed (fun p c => c ∈ links p) l := fun p hp c hc =>
    (hnodes c).mpr (hrange p ((hnodes p).mp hp) c hc)
  refine ⟨?_, hchildren, fun pre e post hsplit => ?_, fun pre s post hsplit => ?_⟩
  · simpa [indices] using hchildren.length_eq
  · obtain ⟨pre', ⟨v, _ | p⟩, post', hl, rfl, rfl, -⟩ := entries_split hsplit
    · exact Or.inl rfl
    · obtain ⟨hp, hlink⟩ := h.parent_mem _ _ _ _ hl
      exact Or.inr ⟨v, p, rfl, hlink, mem_entries.mpr hp⟩
  · obtain ⟨pre', r, post', hl, rfl, hr, rfl⟩ := entries_split hsplit
    obtain ⟨v, q⟩ := r
    obtain rfl : q = none := entryOf_root_iff.mp (congrArg Prod.snd hr).symm
    obtain rfl : s = v := Nat.cast_injective (R := ℤ) (congrArg Prod.fst hr)
    obtain ⟨tree, rest, rfl, hrest, hparents, hreach⟩ := h.tree hclosed hl
    have hroot : ((s : ℤ), -1) :: tree.map entryOf = ((s, none) :: tree).map entryOf := rfl
    refine ⟨tree.map entryOf, rest.map entryOf, List.map_append, fun e he => ?_, fun e he => ?_,
      fun v => ?_⟩
    · rw [List.head?_map] at he
      obtain ⟨r, hr, rfl⟩ := Option.mem_map.mp he
      exact entryOf_root_iff.mpr (hrest r hr)
    · obtain ⟨⟨c, q⟩, hr, rfl⟩ := List.mem_map.mp he
      obtain ⟨p, hp, rfl⟩ := hparents _ hr
      rw [hroot]
      exact mem_entries.mpr hp
    · rw [hroot, mem_entries, hreach]
      unfold ReachableAround
      simp only [mem_entries]

-- ---------------------------------------------------------------------------
-- The average
-- ---------------------------------------------------------------------------

section Average

variable {F D : Type} [Scalar F] [Scalar D] [Widen F D]

/-- The weights of the entries that are not roots, added in their order. -/
def edgeSum (weight : ℕ → ℕ → D) (t : Trajectory) : D :=
  ((t.filter fun e => e.2 ≠ -1).map fun e => weight e.2.toNat e.1.toNat).foldl (· + ·) 0

/-- What the search adds up are the distances of the links. -/
theorem edgeSum_steps {n : ℕ} {index : HierarchicalNSW F} {steps : List (PrimStep F)}
    (h : ForestSteps n (getNeighbors index) steps) :
    steps.foldl (fun (total : D) it =>
        if it.parent = none then total else total + widen it.weight) 0 =
      edgeSum (fun p v => widen (linkDistance index p v)) (steps.map PrimStep.entry) := by
  unfold edgeSum
  generalize (0 : D) = total
  have hweight := h.weight
  clear h
  induction steps generalizing total with
  | nil => rfl
  | cons it steps ih =>
    have hrest := fun total => ih total fun it' hit' => hweight it' (List.mem_cons_of_mem _ hit')
    rw [List.foldl_cons, List.map_cons]
    rcases hweight it List.mem_cons_self with ⟨hroot, -⟩ | ⟨p, hpar, hlink⟩
    · have hentry : it.entry.2 = -1 := (entry_root_iff it).mpr hroot
      rw [if_pos hroot, List.filter_cons_of_neg (by simpa using hentry)]
      exact hrest total
    · have hentry : it.entry = ((it.node : ℤ), (p : ℤ)) := by rw [PrimStep.entry, hpar]
      have hchild : it.entry.2 ≠ -1 := by
        rw [hentry]
        simp
      have hdist : it.weight = linkDistance index p it.node := mem_getNeighbors_snd hlink
      rw [if_neg (by rw [hpar]; simp), List.filter_cons_of_pos (by simpa using hchild),
        List.map_cons, List.foldl_cons, hentry, hdist]
      exact hrest _

/-- **`approximateMSTUsingHNSW`.** For links in range it returns a forest of the directed
links, and the mean over its edges. -/
theorem approximateMSTUsingHNSW_directed (Q : PriorityQueue (PrimStep F))
    {index : HierarchicalNSW F} {n_query : ℕ} (hrange : LinksInRange index n_query) :
    ∃ (t : Trajectory) (average : D),
      Returns (approximateMSTUsingHNSW Q index n_query) (t, average) ∧
      DirectedForest index.linklist0 n_query t ∧
      average = if t.countP (fun e => e.2 = -1) < n_query then
        edgeSum (fun p v => widen (linkDistance index p v)) t /
          Scalar.ofInt ((n_query : ℤ) - t.countP fun e => e.2 = -1)
      else 0 := by
  have hadj : ∀ v < n_query, ∀ e ∈ getNeighbors index v, e.1 < n_query := fun v hv e he =>
    hrange v hv e.1 (mem_getNeighbors_fst he)
  obtain ⟨final, hret, hsteps, hall, hcount⟩ :=
    growTrees_spec (growTreeDirected_spec (Q := Q) hadj)
  have hedge : HasEdge (getNeighbors index) = fun p c => c ∈ index.linklist0 p := by
    funext p c
    refine propext ⟨fun ⟨d, hd⟩ => mem_getNeighbors_fst hd, fun hc => ?_⟩
    exact ⟨_, List.mem_map_of_mem hc⟩
  have hchildren := (hsteps.localForest hall).perm
  rw [entry_eq_entryOf] at hchildren
  have hforest := directedForest_of_grows hrange (hedge ▸ hsteps.grows) hchildren
  rw [← entry_eq_entryOf] at hforest
  refine ⟨_, _, hret.bind (returns_pure _), hforest, ?_⟩
  rw [edgeSum_steps hsteps, countP_root_entry, ← hcount, averageOver]
  by_cases hlt : final.components < n_query
  · rw [if_pos hlt, if_pos (by omega)]
  · rw [if_neg hlt, if_neg (by omega)]

end Average

/-- Two trees of the links of an index of six points: the last point links to the first, which
does not link back. -/
theorem approximateMSTUsingHNSW_prunedIndex : ∃ (t : Trajectory) (average : Exact ℚ),
    Returns (approximateMSTUsingHNSW (leastWeight ℚ) prunedIndex 6) (t, average) ∧
    DirectedForest prunedIndex.linklist0 6 t := by
  obtain ⟨t, average, hret, hforest, -⟩ :=
    approximateMSTUsingHNSW_directed (D := Exact ℚ) (leastWeight ℚ) prunedIndex_inRange
  exact ⟨t, average, hret, hforest⟩

end Mqo
