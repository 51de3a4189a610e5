import Mathlib.Data.List.TakeWhile
import Mqo.Search.HnswBeam

/-!
# MQO — several entry points

`searchBaseLayerST_mine` starts from any number of entry points, and its first
bound is the *least* of their distances, not the greatest one kept. Until a
neighbour is accepted, an entry point that is farther than the closest one ends
the search, and a full heap turns away every neighbour that is not closer than
all entry points. From the first accepted neighbour on the search is the usual
one.

* `scan`               — the neighbours seen while the first bound is in force;
* `Entering.consider`  — one of them is turned away, or is the first accepted one;
* `findsAll_iff`       — when the search finds all it should.
-/

namespace Mqo.Search.Hnsw

open Prog Flags

section Entries

variable {V K : Type} [LinearOrder K] [Neg K] (Q : PriorityQueue (K × ℕ))
  (index : HierarchicalNSW V K) (query : V) (ep_ids : List ℕ) (ef : ℕ)

/-- `searchBaseLayerST_mine` finds what it should, on every visited list. -/
def FindsAll (maxValue : K) : Prop :=
  ∀ mem pool, ∃ r, Returns (searchBaseLayerSTMine Q index query maxValue ep_ids ef mem pool) r ∧
    Complete index query ep_ids ef (Q.elems r.1)
-- ---------------------------------------------------------------------------
-- The first bound
-- ---------------------------------------------------------------------------

/-- The candidates that are no farther than any entry point. -/
def Closest (e : K × ℕ) : Prop := ∀ ep ∈ ep_ids, index.dist query e.2 ≤ index.dist query ep

instance (e : K × ℕ) : Decidable (Closest index query ep_ids e) :=
  inferInstanceAs (Decidable (∀ ep ∈ ep_ids, _))

/-- The neighbours of the closest candidates, in the order in which they are popped. -/
def upcoming (candidate_set : Q.Heap) : List ℕ :=
  ((Q.drain candidate_set).filter fun e => decide (Closest index query ep_ids e)).flatMap
    fun e => index.linklist 0 e.2

/-- The neighbours of the closest entry points. -/
def scan : List ℕ :=
  upcoming Q index query ep_ids
    (ep_ids.foldl (fun h ep => Q.push h (-index.dist query ep, ep)) Q.empty)

/-- The neighbour is accepted under the first bound. -/
def IsAccepted (u : ℕ) : Prop :=
  u ∉ ep_ids ∧ (ep_ids.length < ef ∨ ∀ ep ∈ ep_ids, index.dist query u < index.dist query ep)

instance (u : ℕ) : Decidable (IsAccepted index query ep_ids ef u) :=
  inferInstanceAs (Decidable (_ ∧ (_ ∨ ∀ ep ∈ ep_ids, _)))

/-- A closest entry point has a neighbour that is accepted. -/
def Advances : Prop := ∃ u ∈ scan Q index query ep_ids, IsAccepted index query ep_ids ef u

instance : Decidable (Advances Q index query ep_ids ef) :=
  inferInstanceAs (Decidable (∃ u ∈ scan Q index query ep_ids, _))

/-- The entry points are a complete answer. -/
def Settled : Prop :=
  ∀ ep ∈ ep_ids, ∀ u ∈ index.linklist 0 ep, u ∉ ep_ids →
    ep_ids.length = ef ∧ ∀ ep' ∈ ep_ids, index.dist query ep' ≤ index.dist query u

instance : Decidable (Settled index query ep_ids ef) :=
  inferInstanceAs (Decidable (∀ ep ∈ ep_ids, ∀ u ∈ index.linklist 0 ep, u ∉ ep_ids →
    _ ∧ ∀ ep' ∈ ep_ids, _))

/-- The neighbours turned away before one is accepted. -/
def turnedAway : List ℕ :=
  ((scan Q index query ep_ids).takeWhile fun u => !decide (IsAccepted index query ep_ids ef u)).filter
    fun u => !decide (u ∈ ep_ids)

/-- No more than one entry point is farther than any of them. -/
def Harmless : Prop :=
  ∀ u ∈ turnedAway Q index query ep_ids ef, ∀ ep ∈ ep_ids, ∀ ep' ∈ ep_ids,
    index.dist query u < index.dist query ep → index.dist query u < index.dist query ep' → ep = ep'

instance : Decidable (Harmless Q index query ep_ids ef) :=
  inferInstanceAs (Decidable (∀ u ∈ turnedAway Q index query ep_ids ef,
    ∀ ep ∈ ep_ids, ∀ ep' ∈ ep_ids, _))
variable {Q index query ep_ids ef}

-- ---------------------------------------------------------------------------
-- Before it
-- ---------------------------------------------------------------------------

/-- The invariant before the first accepted neighbour: the heap holds the entry points.
`scanned` are the neighbours seen, `pending` those of the element being expanded that are
still to be seen. -/
structure Entering (Q : PriorityQueue (K × ℕ)) (index : HierarchicalNSW V K) (query : V)
    (ep_ids : List ℕ) (ef : ℕ) (current : Option ℕ) (scanned pending : List ℕ)
    (s : BaseState Q index.max_elements) : Prop where
  core    : Core Q index query ep_ids ef current s
  top     : Q.elems s.top_candidates = ep_ids.map fun ep => (index.dist query ep, ep)
  bound   : ∃ ep ∈ ep_ids, s.lowerBound = index.dist query ep ∧
    ∀ ep' ∈ ep_ids, index.dist query ep ≤ index.dist query ep'
  visited : ∀ id, s.visited.marked id = true → id ∈ ep_ids ∨ id ∈ scanned
  quiet   : ∀ u ∈ scanned, ¬ IsAccepted index query ep_ids ef u
  ahead   : scan Q index query ep_ids =
    scanned ++ (pending ++ upcoming Q index query ep_ids s.candidate_set)

section Entering

variable {current : Option ℕ} {scanned pending : List ℕ} {u : ℕ}
  {s : BaseState Q index.max_elements}

theorem Entering.size_top (h : Entering Q index query ep_ids ef current scanned pending s) :
    Q.size s.top_candidates = ep_ids.length := by
  rw [PriorityQueue.size, h.top, Multiset.coe_card, List.length_map]

theorem Entering.mem_top (h : Entering Q index query ep_ids ef current scanned pending s)
    {e : K × ℕ} (he : e ∈ Q.elems s.top_candidates) :
    e.2 ∈ ep_ids ∧ e.1 = index.dist query e.2 := by
  rw [h.top, Multiset.mem_coe, List.mem_map] at he
  obtain ⟨ep, hep, rfl⟩ := he
  exact ⟨hep, rfl⟩

/-- The test of the loop, for a neighbour that is new. -/
theorem Entering.accepts (h : Entering Q index query ep_ids ef current scanned pending s)
    (hnew : s.visited.marked u = false) :
    (Q.size s.top_candidates < ef ∨ index.dist query u < s.lowerBound) ↔
      IsAccepted index query ep_ids ef u := by
  have hfresh : u ∉ ep_ids := fun hmem => by
    rw [h.core.entries u hmem] at hnew
    cases hnew
  obtain ⟨ep, hep, hlower, hmin⟩ := h.bound
  rw [h.size_top, hlower]
  unfold IsAccepted
  refine ⟨fun hor => ⟨hfresh, hor.imp_right fun hlt ep' hep' => hlt.trans_le (hmin ep' hep')⟩,
    fun hacc => hacc.2.imp_right fun hall => hall ep hep⟩

/-- What was seen before an accepted neighbour was turned away. -/
theorem Entering.mem_turnedAway
    (h : Entering Q index query ep_ids ef current scanned (u :: pending) s)
    (hacc : IsAccepted index query ep_ids ef u) {id : ℕ} (hid : id ∈ scanned) (hnew : id ∉ ep_ids) :
    id ∈ turnedAway Q index query ep_ids ef := by
  unfold turnedAway
  rw [h.ahead, List.takeWhile_append_of_pos (fun v hv => by simp [h.quiet v hv]), List.cons_append,
    List.takeWhile_cons_of_neg (by simp [hacc]), List.append_nil, List.mem_filter]
  exact ⟨hid, by simp [hnew]⟩

/-- **The first accepted neighbour.** -/
theorem Entering.accept (hQ : Q.Ordered fun a b => a.1 < b.1) (hef : 1 ≤ ef)
    (h : Entering Q index query ep_ids ef current scanned (u :: pending) s)
    (hnew : s.visited.marked u = false) (hacc : IsAccepted index query ep_ids ef u)
    (hu : Reachable index ep_ids u) :
    Beam Q index query ep_ids ef (Harmless Q index query ep_ids ef) current
      (considered Q index query ef s u) := by
  have haccept := (h.accepts hnew).mpr hacc
  refine ⟨h.core.accept hnew haccept hu, tight_accepted hQ hnew haccept hef, fun hharmless => ?_⟩
  refine Covered.accept hQ hnew haccept hef h.core fun id hid => ?_
  by_cases hmem : id ∈ ep_ids
  · refine Or.inl ⟨(index.dist query id, id), ?_, rfl⟩
    rw [h.top]
    exact Multiset.mem_coe.mpr
      (List.mem_map_of_mem (f := fun ep => (index.dist query ep, ep)) hmem)
  · have hscanned := (h.visited id hid).resolve_left hmem
    have hquiet := h.quiet id hscanned
    unfold IsAccepted at hquiet
    push Not at hquiet
    obtain ⟨hlen, ep, hep, hle⟩ := hquiet hmem
    have hfull : Q.size s.top_candidates = ef := by
      have := h.core.size
      have := h.size_top
      omega
    have hclose : index.dist query u < index.dist query id :=
      (hacc.2.resolve_left (by omega) ep hep).trans_le hle
    refine Or.inr ⟨hfull, not_lt.mp fun hlt => ?_⟩
    -- only one entry point is farther than the element that was turned away
    obtain ⟨e, he, e', he', hne, hfar, hfar'⟩ :=
      h.core.two_farther hQ hnew haccept hef hfull hclose.le hlt
    rw [(h.mem_top he).2] at hfar
    rw [(h.mem_top he').2] at hfar'
    exact hne (hharmless id (h.mem_turnedAway hacc hscanned hmem) e.2 (h.mem_top he).1 e'.2
      (h.mem_top he').1 hfar hfar')

/-- **One neighbour.** -/
theorem Entering.consider (hQ : Q.Ordered fun a b => a.1 < b.1) (hef : 1 ≤ ef)
    (h : Entering Q index query ep_ids ef current scanned (u :: pending) s)
    (hu : Reachable index ep_ids u) :
    Entering Q index query ep_ids ef current (scanned ++ [u]) pending
        (considered Q index query ef s u) ∨
      (Advances Q index query ep_ids ef ∧
        Beam Q index query ep_ids ef (Harmless Q index query ep_ids ef) current
          (considered Q index query ef s u)) := by
  have hahead : scan Q index query ep_ids =
      (scanned ++ [u]) ++ (pending ++ upcoming Q index query ep_ids s.candidate_set) := by
    rw [h.ahead]
    simp
  cases hnew : s.visited.marked u with
  | true =>
    rw [considered_of_marked hnew]
    refine Or.inl ⟨h.core, h.top, h.bound, fun id hid => ?_, fun v hv => ?_, hahead⟩
    · exact (h.visited id hid).imp_right (List.mem_append_left _)
    · rcases List.mem_append.mp hv with hv | hv
      · exact h.quiet v hv
      · rw [List.mem_singleton.mp hv]
        exact (h.visited u hnew).elim (fun hmem hacc => hacc.1 hmem) (h.quiet u)
  | false =>
    by_cases hacc : IsAccepted index query ep_ids ef u
    · refine Or.inr ⟨⟨u, ?_, hacc⟩, h.accept hQ hef hnew hacc hu⟩
      rw [h.ahead]
      simp
    · rw [considered_rejected hnew (mt (h.accepts hnew).mp hacc)]
      refine Or.inl ⟨h.core.mark hu, h.top, h.bound, fun id hid => ?_, fun v hv => ?_, hahead⟩
      · rcases (s.visited.marked_mark u id).mp hid with rfl | hid
        · exact Or.inr (by simp)
        · exact (h.visited id hid).imp_right (List.mem_append_left _)
      · rcases List.mem_append.mp hv with hv | hv
        · exact h.quiet v hv
        · rw [List.mem_singleton.mp hv]
          exact hacc

/-- The neighbours of one element. -/
theorem Entering.neighbours (hQ : Q.Ordered fun a b => a.1 < b.1) (hef : 1 ≤ ef)
    (h : Entering Q index query ep_ids ef current scanned pending s)
    (hlinks : ∀ u ∈ pending, Reachable index ep_ids u) :
    Entering Q index query ep_ids ef current (scanned ++ pending) []
        (pending.foldl (considered Q index query ef) s) ∨
      (Advances Q index query ep_ids ef ∧
        Beam Q index query ep_ids ef (Harmless Q index query ep_ids ef) current
          (pending.foldl (considered Q index query ef) s)) := by
  induction pending generalizing scanned s with
  | nil => exact Or.inl (by rwa [List.append_nil])
  | cons u pending ih =>
    have hrest : ∀ v ∈ pending, Reachable index ep_ids v := fun v hv =>
      hlinks v (List.mem_cons_of_mem u hv)
    rcases h.consider hQ hef (hlinks u List.mem_cons_self) with hent | ⟨hadv, hbeam⟩
    · have hih := ih hent hrest
      rwa [List.append_assoc, List.singleton_append] at hih
    · exact Or.inr ⟨hadv, hbeam.neighbours hQ hef hrest⟩

end Entering

-- ---------------------------------------------------------------------------
-- The main loop
-- ---------------------------------------------------------------------------

/-- The invariant of the main loop. -/
def Searching (Q : PriorityQueue (K × ℕ)) (index : HierarchicalNSW V K) (query : V)
    (ep_ids : List ℕ) (ef : ℕ) (s : BaseState Q index.max_elements) : Prop :=
  (∃ scanned, Entering Q index query ep_ids ef none scanned [] s) ∨
    (Advances Q index query ep_ids ef ∧
      Beam Q index query ep_ids ef (Harmless Q index query ep_ids ef) none s)

theorem Searching.core {s : BaseState Q index.max_elements}
    (h : Searching Q index query ep_ids ef s) : Core Q index query ep_ids ef none s := by
  rcases h with ⟨_, hent⟩ | ⟨-, hbeam⟩
  · exact hent.core
  · exact hbeam.core

omit [Neg K] in
/-- The neighbours of the element that is popped come next. -/
theorem upcoming_of_top {h : Q.Heap} {e : K × ℕ} (htop : Q.top h = some e)
    (hclosest : Closest index query ep_ids e) : upcoming Q index query ep_ids h =
      index.linklist 0 e.2 ++ upcoming Q index query ep_ids (Q.pop h) := by
  unfold upcoming
  rw [Q.drain_of_top htop, List.filter_cons_of_pos (by simpa using hclosest), List.flatMap_cons]

/-- **One expansion.** -/
theorem Searching.expand (hQ : Q.Ordered fun a b => a.1 < b.1) (hneg : ExactNeg K) (hef : 1 ≤ ef)
    {s : BaseState Q index.max_elements} (h : Searching Q index query ep_ids ef s) {e : K × ℕ}
    (htop : Q.top s.candidate_set = some e) (hbound : ¬ s.lowerBound < -e.1) :
    Searching Q index query ep_ids ef (expanded Q index query ef s e) := by
  have hcand := h.core.candidate e (Q.top_mem htop)
  have hlinks : ∀ u ∈ index.linklist 0 e.2, Reachable index ep_ids u := fun u hu =>
    (h.core.reachable e.2 hcand.2).link hu
  have hdone : ∀ u ∈ index.linklist 0 e.2,
      (expanded Q index query ef s e).visited.marked u = true := fun u hu =>
    marked_neighbours ef _ _ (Or.inl hu)
  rcases h with ⟨scanned, hent⟩ | ⟨hadv, hbeam⟩
  · -- within the first bound the candidate is one of the closest
    obtain ⟨ep, -, hlower, hmin⟩ := hent.bound
    have hclosest : Closest index query ep_ids e := by
      intro ep' hep'
      rw [hcand.1, hneg.neg_neg, hlower, not_lt] at hbound
      exact hbound.trans (hmin ep' hep')
    have hpop : Entering Q index query ep_ids ef (some e.2) scanned (index.linklist 0 e.2)
        { s with candidate_set := Q.pop s.candidate_set } :=
      ⟨hent.core.pop htop, hent.top, hent.bound, hent.visited, hent.quiet, by
        rw [hent.ahead, List.nil_append, upcoming_of_top htop hclosest]⟩
    rcases hpop.neighbours hQ hef hlinks with hent' | ⟨hadv, hbeam⟩
    · exact Or.inl ⟨_, hent'.core.finish hdone, hent'.top, hent'.bound, hent'.visited, hent'.quiet,
        hent'.ahead⟩
    · exact Or.inr ⟨hadv, hbeam.core.finish hdone, hbeam.tight, hbeam.covered⟩
  · have hpop : Beam Q index query ep_ids ef (Harmless Q index query ep_ids ef) (some e.2)
        { s with candidate_set := Q.pop s.candidate_set } :=
      ⟨hbeam.core.pop htop, hbeam.tight, hbeam.covered⟩
    have hbeam' := hpop.neighbours hQ hef hlinks
    exact Or.inr ⟨hadv, hbeam'.core.finish hdone, hbeam'.tight, hbeam'.covered⟩
-- ---------------------------------------------------------------------------
-- The start
-- ---------------------------------------------------------------------------

variable (Q query) in
theorem entered_queues (ep_ids : List ℕ) (s : BaseState Q index.max_elements) :
    (ep_ids.foldl (entered Q index query) s).candidate_set =
        ep_ids.foldl (fun h ep => Q.push h (-index.dist query ep, ep)) s.candidate_set ∧
      (ep_ids.foldl (entered Q index query) s).top_candidates =
        ep_ids.foldl (fun h ep => Q.push h (index.dist query ep, ep)) s.top_candidates := by
  induction ep_ids generalizing s with
  | nil => exact ⟨rfl, rfl⟩
  | cons ep ep_ids ih => exact ih (entered Q index query s ep)

variable (Q query) in
theorem entered_marked (ep_ids : List ℕ) (s : BaseState Q index.max_elements) (id : ℕ) :
    (ep_ids.foldl (entered Q index query) s).visited.marked id = true ↔
      id ∈ ep_ids ∨ s.visited.marked id = true := by
  induction ep_ids generalizing s with
  | nil => simp
  | cons ep ep_ids ih =>
    rw [List.foldl_cons, ih, marked_entered, List.mem_cons]
    tauto

variable (Q query) in
/-- The bound after the entry points is the least of their distances. -/
theorem entered_bound (ep_ids : List ℕ) (s : BaseState Q index.max_elements) :
    (ep_ids.foldl (entered Q index query) s).lowerBound ≤ s.lowerBound ∧
      (∀ ep ∈ ep_ids, (ep_ids.foldl (entered Q index query) s).lowerBound ≤ index.dist query ep) ∧
      ((ep_ids.foldl (entered Q index query) s).lowerBound = s.lowerBound ∨
        ∃ ep ∈ ep_ids, (ep_ids.foldl (entered Q index query) s).lowerBound = index.dist query ep) := by
  induction ep_ids generalizing s with
  | nil => simp
  | cons ep ep_ids ih =>
    obtain ⟨hle, hall, hor⟩ := ih (entered Q index query s ep)
    have hone : (entered Q index query s ep).lowerBound ≤ index.dist query ep ∧
        (entered Q index query s ep).lowerBound ≤ s.lowerBound ∧
        ((entered Q index query s ep).lowerBound = s.lowerBound ∨
          (entered Q index query s ep).lowerBound = index.dist query ep) := by
      unfold entered
      dsimp only
      split
      · next hlt => exact ⟨le_refl _, hlt.le, Or.inr rfl⟩
      · next hge => exact ⟨not_lt.mp hge, le_refl _, Or.inl rfl⟩
    rw [List.foldl_cons]
    refine ⟨hle.trans hone.2.1, fun ep' hep' => ?_, ?_⟩
    · rcases List.mem_cons.mp hep' with rfl | hep'
      · exact hle.trans hone.1
      · exact hall ep' hep'
    · rcases hor with heq | ⟨ep', hep', heq⟩
      · rw [heq]
        exact hone.2.2.imp_right fun heq' => ⟨ep, List.mem_cons_self, heq'⟩
      · exact Or.inr ⟨ep', List.mem_cons_of_mem _ hep', heq⟩
/-- **The start** of the main loop. -/
theorem Entering.start {maxValue : K}
    (hfin : ∀ id < index.cur_element_count, index.dist query id ≤ maxValue)
    (hne : ep_ids ≠ []) (hnodup : ep_ids.Nodup) (hlen : ep_ids.length ≤ ef)
    (heps : ∀ ep ∈ ep_ids, ep < index.cur_element_count) {vl : VisitedList index.max_elements}
    (hvl : vl.Unmarked) :
    Entering Q index query ep_ids ef none [] []
      (ep_ids.foldl (entered Q index query) ⟨vl, Q.empty, Q.empty, maxValue⟩) := by
  obtain ⟨hset, htop⟩ := entered_queues Q query ep_ids
    ⟨vl, Q.empty, Q.empty, maxValue⟩
  obtain ⟨hle, hall, hor⟩ := entered_bound Q query ep_ids
    ⟨vl, Q.empty, Q.empty, maxValue⟩
  have hmarked := entered_marked Q query ep_ids
    ⟨vl, Q.empty, Q.empty, maxValue⟩
  generalize ep_ids.foldl (entered Q index query) ⟨vl, Q.empty, Q.empty, maxValue⟩ = s at *
  dsimp only at hset htop hle hor hmarked
  have htop' : Q.elems s.top_candidates = ep_ids.map fun ep => (index.dist query ep, ep) := by
    rw [htop, Q.elems_foldl_push, Q.elems_empty, add_zero]
  have hcand' : Q.elems s.candidate_set = ep_ids.map fun ep => (-index.dist query ep, ep) := by
    rw [hset, Q.elems_foldl_push, Q.elems_empty, add_zero]
  have hentry : ∀ ep ∈ ep_ids, s.visited.marked ep = true := fun ep hep =>
    (hmarked ep).mpr (Or.inl hep)
  have hseen : ∀ id, s.visited.marked id = true → id ∈ ep_ids := fun id hid =>
    ((hmarked id).mp hid).resolve_right (by rw [hvl id]; exact Bool.false_ne_true)
  refine ⟨⟨fun e he => ?_, ?_, ?_, fun e he => ?_, fun e he => ?_, fun e he => ?_, hentry,
    fun id hid => ⟨id, hseen id hid, .refl⟩⟩, htop', ?_, fun id hid => Or.inl (hseen id hid),
    fun u hu => absurd hu List.not_mem_nil, ?_⟩
  · rw [htop', Multiset.mem_coe, List.mem_map] at he
    obtain ⟨ep, -, rfl⟩ := he
    rfl
  · rw [htop', Multiset.map_coe, List.map_map, Multiset.coe_nodup,
      show (Prod.snd ∘ fun ep => (index.dist query ep, ep)) = id from rfl, List.map_id]
    exact hnodup
  · rw [PriorityQueue.size, htop', Multiset.coe_card, List.length_map]
    exact hlen
  · rw [htop', Multiset.mem_coe, List.mem_map] at he
    obtain ⟨ep, hep, rfl⟩ := he
    exact hentry ep hep
  · rw [hcand', Multiset.mem_coe, List.mem_map] at he
    obtain ⟨ep, hep, rfl⟩ := he
    exact ⟨rfl, hentry ep hep⟩
  · rw [htop', Multiset.mem_coe, List.mem_map] at he
    obtain ⟨ep, hep, rfl⟩ := he
    rw [hcand']
    exact Or.inl (Multiset.mem_coe.mpr
      (List.mem_map_of_mem (f := fun ep => (-index.dist query ep, ep)) hep))
  · rcases hor with hmax | ⟨ep, hep, heq⟩
    · obtain ⟨ep, hep⟩ := List.exists_mem_of_ne_nil ep_ids hne
      have heq : s.lowerBound = index.dist query ep :=
        le_antisymm (hall ep hep) (hmax ▸ hfin ep (heps ep hep))
      exact ⟨ep, hep, heq, fun ep' hep' => heq ▸ hall ep' hep'⟩
    · exact ⟨ep, hep, heq, fun ep' hep' => heq ▸ hall ep' hep'⟩
  · rw [hset]
    rfl
-- ---------------------------------------------------------------------------
-- The end
-- ---------------------------------------------------------------------------

omit [Neg K] in
/-- The entry points are complete exactly when they are settled. -/
theorem complete_entries_iff (hnodup : ep_ids.Nodup) (hlen : ep_ids.length ≤ ef)
    (heps : ∀ ep ∈ ep_ids, ep < index.cur_element_count) :
    Complete index query ep_ids ef ↑(ep_ids.map fun ep => (index.dist query ep, ep)) ↔
      Settled index query ep_ids ef := by
  have hids : (↑(ep_ids.map fun ep => (index.dist query ep, ep)) : Multiset (K × ℕ)).map Prod.snd =
      ↑ep_ids := by
    rw [Multiset.map_coe, List.map_map,
      show (Prod.snd ∘ fun ep => (index.dist query ep, ep)) = id from rfl, List.map_id]
  have hmem : ∀ e : K × ℕ,
      e ∈ (↑(ep_ids.map fun ep => (index.dist query ep, ep)) : Multiset (K × ℕ)) ↔
        e.2 ∈ ep_ids ∧ e.1 = index.dist query e.2 := by
    intro e
    rw [Multiset.mem_coe, List.mem_map]
    exact ⟨fun ⟨ep, hep, heq⟩ => heq ▸ ⟨hep, rfl⟩, fun ⟨hep, heq⟩ => ⟨e.2, hep, by rw [← heq]⟩⟩
  have hreach : ∀ ep ∈ ep_ids, Reachable index ep_ids ep := fun ep hep => ⟨ep, hep, .refl⟩
  constructor
  · intro h ep hep u hu hnew
    have hfar := (h.closed (index.dist query ep, ep) ((hmem _).mpr ⟨hep, rfl⟩) u hu).resolve_left
      (by rw [hids]; exact hnew)
    refine ⟨le_antisymm hlen (not_lt.mp fun hlt => ?_), fun ep' hep' =>
      hfar (index.dist query ep', ep') ((hmem _).mpr ⟨hep', rfl⟩)⟩
    -- the entry points and the neighbour are too many
    have hfinite : {id | Reachable index ep_ids id}.Finite :=
      (Set.finite_Iio index.cur_element_count).subset fun id hid => hid.lt heps
    have hsub : ((u :: ep_ids).toFinset : Set ℕ) ⊆ {id | Reachable index ep_ids id} := by
      intro id hid
      rw [Finset.mem_coe, List.mem_toFinset, List.mem_cons] at hid
      rcases hid with rfl | hid
      · exact (hreach ep hep).link hu
      · exact hreach id hid
    have hcard := Set.ncard_le_ncard hsub hfinite
    rw [Set.ncard_coe_finset, List.toFinset_card_of_nodup (List.nodup_cons.mpr ⟨hnew, hnodup⟩),
      List.length_cons] at hcard
    have hmin := h.card
    rw [Multiset.coe_card, List.length_map] at hmin
    omega
  · intro h
    refine ⟨by rw [hids]; exact hnodup, fun e he => hreach e.2 ((hmem e).mp he).1, ?_,
      fun e he u hu => ?_⟩
    · refine card_eq_min heps (by rw [hids]; exact hnodup)
        (fun e he => hreach e.2 ((hmem e).mp he).1) (by simpa using hlen) fun hlt id hid => ?_
      rw [Multiset.coe_card, List.length_map] at hlt
      rw [hids]
      refine hid.mem_of_closed (S := fun id => id ∈ ep_ids) (fun _ hep => hep) fun id hid u hu => ?_
      by_contra hnew
      exact hlt.ne (h id hid u hu hnew).1
    · rw [hids]
      by_cases hnew : u ∈ ep_ids
      · exact Or.inl hnew
      · exact Or.inr fun e' he' => (h e.2 ((hmem e).mp he).1 u hu hnew).2 e'.2 ((hmem e').mp he').1

/-- When the loop is left within the first bound, every closest entry point has been
expanded. -/
theorem Entering.not_advances (hQ : Q.Ordered fun a b => a.1 < b.1) (hneg : ExactNeg K)
    {scanned : List ℕ} {s : BaseState Q index.max_elements}
    (h : Entering Q index query ep_ids ef none scanned [] s)
    (hstop : ∀ e, Q.top s.candidate_set = some e → s.lowerBound < -e.1) :
    ¬ Advances Q index query ep_ids ef := by
  obtain ⟨ep, hep, hlower, -⟩ := h.bound
  have hnil : upcoming Q index query ep_ids s.candidate_set = [] := by
    unfold upcoming
    rw [List.filter_eq_nil_iff.mpr, List.flatMap_nil]
    intro e he hclosest
    have hcand := Q.mem_drain.mp he
    obtain ⟨t, ht⟩ := Q.exists_top (h := s.candidate_set) fun h0 => by
      rw [h0] at hcand
      exact Multiset.notMem_zero _ hcand
    have hle : index.dist query e.2 ≤ index.dist query ep := (of_decide_eq_true hclosest) ep hep
    have hlt := hneg.neg_lt_neg _ _ ((hlower ▸ hle).trans_lt (hstop t ht))
    rw [hneg.neg_neg, ← (h.core.candidate e hcand).1] at hlt
    exact hQ _ t ht e hcand hlt
  rintro ⟨u, hu, hacc⟩
  rw [h.ahead, hnil, List.append_nil, List.append_nil] at hu
  exact h.quiet u hu hacc

/-- Settled entry points have no neighbour that is accepted. -/
theorem Settled.not_advances (h : Settled index query ep_ids ef) :
    ¬ Advances Q index query ep_ids ef := by
  rintro ⟨u, hu, hnew, hacc⟩
  unfold scan upcoming at hu
  obtain ⟨e, he, hu⟩ := List.mem_flatMap.mp hu
  have he := Q.mem_drain.mp (List.mem_of_mem_filter he)
  rw [Q.elems_foldl_push, Q.elems_empty, add_zero, Multiset.mem_coe, List.mem_map] at he
  obtain ⟨ep, hep, rfl⟩ := he
  obtain ⟨hfull, hfar⟩ := h ep hep u hu hnew
  exact (hacc.resolve_left (by omega) ep hep).not_ge (hfar ep hep)

omit [Neg K] in
/-- While there are fewer than `ef` entry points nothing is turned away. -/
theorem harmless_of_lt [Neg K] (hlt : ep_ids.length < ef) : Harmless Q index query ep_ids ef := by
  intro u hu
  obtain ⟨hu, hnew⟩ := List.mem_filter.mp hu
  have hreject := List.mem_takeWhile_imp hu
  have hnew : u ∉ ep_ids := by simpa using hnew
  have haccept : IsAccepted index query ep_ids ef u := ⟨hnew, Or.inl hlt⟩
  simp [haccept] at hreject

section Run

variable (hQ : Q.Ordered fun a b => a.1 < b.1) (hneg : ExactNeg K) {maxValue : K}
  (hfin : ∀ id < index.cur_element_count, index.dist query id ≤ maxValue) (hne : ep_ids ≠ [])
  (hnodup : ep_ids.Nodup) (hlen : ep_ids.length ≤ ef)
  (heps : ∀ ep ∈ ep_ids, ep < index.cur_element_count)

include hQ hneg hfin hne hnodup hlen heps

/-- **The run**: it ends within the first bound, with the entry points as results, or after
an accepted neighbour. -/
theorem searchEntries_returns (mem : ℕ → UInt16) (pool : VisitedListPool index.max_elements) :
    ∃ r, Returns (searchBaseLayerSTMine Q index query maxValue ep_ids ef mem pool) r ∧
      ((¬ Advances Q index query ep_ids ef ∧
        Q.elems r.1 = ep_ids.map fun ep => (index.dist query ep, ep)) ∨
      (Advances Q index query ep_ids ef ∧ (Harmless Q index query ep_ids ef →
        Complete index query ep_ids ef (Q.elems r.1)))) := by
  have hef : 1 ≤ ef := (List.length_pos_of_ne_nil hne).trans_le hlen
  have hinit := foldlM_foldl (f := addEntryPoint Q index query)
    (fun s ep hep => addEntryPoint_returns s ((heps ep hep).trans_le index.capacity))
    ⟨(pool.getFreeVisitedList mem).1, Q.empty, Q.empty, maxValue⟩
  obtain ⟨s, hloop, hsearch, hstop⟩ := baseLoop_returns (Searching Q index query ep_ids ef)
    (fun s hs e he => (hs.core.reachable e.2 (hs.core.candidate e he).2).lt heps)
    (fun s e hs htop hbound => hs.expand hQ hneg hef htop hbound)
    (Or.inl ⟨[], Entering.start hfin hne hnodup hlen heps
      (VisitedListPool.getFreeVisitedList_unmarked mem pool)⟩)
  have hret : Returns (searchBaseLayer Q index query maxValue ep_ids ef
      (pool.getFreeVisitedList mem).1) s := hinit.bind hloop
  refine ⟨_, hret.bind (returns_pure _), ?_⟩
  rcases hsearch with ⟨scanned, hent⟩ | ⟨hadv, hbeam⟩
  · exact Or.inl ⟨hent.not_advances hQ hneg hstop, hent.top⟩
  · exact Or.inr ⟨hadv, fun hharmless => hbeam.complete hQ hneg heps hharmless hstop⟩

/-- **When the search finds all.** It does if the entry points are settled, or if it gets
past them without a loss; and a search that finds all has settled entry points or gets past
them. With fewer than `ef` entry points nothing is lost. -/
theorem findsAll_iff :
    (Settled index query ep_ids ef ∨
        (Advances Q index query ep_ids ef ∧ Harmless Q index query ep_ids ef) →
      FindsAll Q index query ep_ids ef maxValue) ∧
    (FindsAll Q index query ep_ids ef maxValue →
      Settled index query ep_ids ef ∨ Advances Q index query ep_ids ef) ∧
    (ep_ids.length < ef → (FindsAll Q index query ep_ids ef maxValue ↔
      Settled index query ep_ids ef ∨ Advances Q index query ep_ids ef)) := by
  have hrun := searchEntries_returns hQ hneg hfin hne hnodup hlen heps
  have hentries : Complete index query ep_ids ef _ ↔ Settled index query ep_ids ef :=
    complete_entries_iff hnodup hlen heps
  have hif : Settled index query ep_ids ef ∨
      (Advances Q index query ep_ids ef ∧ Harmless Q index query ep_ids ef) →
      FindsAll Q index query ep_ids ef maxValue := by
    intro hcond mem pool
    obtain ⟨r, hret, hend⟩ := hrun mem pool
    refine ⟨r, hret, ?_⟩
    rcases hend with ⟨hstay, htop⟩ | ⟨hadv, hcomplete⟩
    · rw [htop]
      exact hentries.mpr (hcond.resolve_right fun hadv => hstay hadv.1)
    · exact hcomplete (hcond.resolve_left fun hset => hset.not_advances hadv).2
  have honly : FindsAll Q index query ep_ids ef maxValue →
      Settled index query ep_ids ef ∨ Advances Q index query ep_ids ef := by
    intro hall
    obtain ⟨r, hret, hend⟩ := hrun (fun _ => 0) ⟨[]⟩
    obtain ⟨r', hret', hcomplete⟩ := hall (fun _ => 0) ⟨[]⟩
    rw [hret'.unique hret] at hcomplete
    rcases hend with ⟨-, htop⟩ | ⟨hadv, -⟩
    · rw [htop] at hcomplete
      exact Or.inl (hentries.mp hcomplete)
    · exact Or.inr hadv
  refine ⟨hif, honly, fun hlt => ⟨honly, fun hcond => hif ?_⟩⟩
  exact hcond.imp_right fun hadv => ⟨hadv, harmless_of_lt hlt⟩

end Run

end Entries

-- ---------------------------------------------------------------------------
-- Three elements on a line
-- ---------------------------------------------------------------------------

/-- Elements at `2`, `4` and `3`; the last two are linked. -/
def splitIndex : HierarchicalNSW ℤ ℤ where
  max_elements := 3
  cur_element_count := 3
  enterpoint_node := 0
  maxlevel := 0
  element_levels _ := 0
  linklist _ id := if id = 1 then [2] else if id = 2 then [1] else []
  data id := if id = 0 then 2 else if id = 1 then 4 else 3
  externalLabel id := id
  fstdistfunc a b := |a - b|
  capacity := le_refl 3
  enter_lt _ := by decide
  enter_level := Nat.le_refl Nat.zero
  link_lt _ id _ _ u hu := by
    split at hu
    · rw [List.mem_singleton.mp hu]
      decide
    · split at hu
      · rw [List.mem_singleton.mp hu]
        decide
      · cases hu
  link_level _ _ _ h _ _ := h

/-- Close to the element that has a neighbour, two entry points find all three elements. -/
theorem splitIndex_findsAll :
    FindsAll (PriorityQueue.byKey Prod.fst) splitIndex 5 [0, 1] 3 100 := by
  have hneg : ExactNeg ℤ := ⟨neg_neg, fun _ _ h => neg_lt_neg h⟩
  have hfin : ∀ id < splitIndex.cur_element_count, splitIndex.dist 5 id ≤ 100 := by decide
  exact (findsAll_iff (PriorityQueue.byKey_ordered Prod.fst) hneg hfin (by decide) (by decide)
    (by decide) (by decide)).1 (Or.inr ⟨by decide +kernel, by decide +kernel⟩)

/-- Close to the one that has none, the search stops after it: the entry points `0` and `1`
are returned, although `1` has a neighbour that is closer than itself. -/
theorem splitIndex_stopsEarly :
    (∃ r, Returns (searchBaseLayerSTMine (PriorityQueue.byKey Prod.fst) splitIndex 0 100 [0, 1] 3
        (fun _ => 0) ⟨[]⟩) r ∧
      (PriorityQueue.byKey Prod.fst).drain r.1 = [(4, 1), (2, 0)]) ∧
    2 ∈ splitIndex.linklist 0 1 ∧ splitIndex.dist 0 2 < splitIndex.dist 0 1 ∧
    ¬ FindsAll (PriorityQueue.byKey Prod.fst) splitIndex 0 [0, 1] 3 100 := by
  have hrun : ∃ r, Returns (searchBaseLayerSTMine (PriorityQueue.byKey Prod.fst) splitIndex 0 100
      [0, 1] 3 (fun _ => 0) ⟨[]⟩) r ∧
      (PriorityQueue.byKey Prod.fst).drain r.1 = [(4, 1), (2, 0)] :=
    exists_returns_of_value (n := 5)
      (f := fun r : (PriorityQueue.byKey (Prod.fst : ℤ × ℕ → ℤ)).Heap × VisitedListPool 3 =>
        (PriorityQueue.byKey Prod.fst).drain r.1) (by decide +kernel)
  refine ⟨hrun, by decide, by decide, fun hall => ?_⟩
  obtain ⟨r, hret, hdrain⟩ := hrun
  obtain ⟨r', hret', hcomplete⟩ := hall (fun _ => 0) ⟨[]⟩
  obtain rfl := hret'.unique hret
  rw [← PriorityQueue.coe_drain, hdrain] at hcomplete
  rcases hcomplete.closed (4, 1) (by decide) 2 (by decide) with hmem | hfar
  · exact absurd hmem (by decide)
  · exact absurd (hfar (4, 1) (by decide)) (by decide)

end Mqo.Search.Hnsw
