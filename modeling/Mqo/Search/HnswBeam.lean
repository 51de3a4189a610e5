import Mathlib.Data.Set.Card
import Mathlib.Logic.Relation
import Mqo.Search.Hnsw

/-!
# MQO — what a search of the bottom layer leaves out

The invariant of the search once its bound is the greatest distance kept: an
element that has been visited is among the results, or the heap is full and the
element no closer than the bound. When the loop is left every result has been
expanded, so that no neighbour of a result is missed.

* `Core.accept`   — what a neighbour that is pushed to both queues keeps;
* `Beam.consider` — one neighbour keeps the invariant;
* `Beam.complete` — when the loop is left, the results are complete.
-/

namespace Mqo.Search.Hnsw

open Prog Flags

/-- The negation of finite values is exact and turns the order around. -/
structure ExactNeg (K : Type) [LinearOrder K] [Neg K] : Prop where
  neg_neg    : ∀ a : K, - -a = a
  neg_lt_neg : ∀ a b : K, a < b → -b < -a

section Beam

variable {V K : Type} [LinearOrder K] [Neg K] (Q : PriorityQueue (K × ℕ))
  (index : HierarchicalNSW V K) (query : V) (ep_ids : List ℕ) (ef : ℕ)

-- ---------------------------------------------------------------------------
-- What a search should find
-- ---------------------------------------------------------------------------

/-- The element can be reached from an entry point over links of the bottom layer. -/
def Reachable (id : ℕ) : Prop :=
  ∃ ep ∈ ep_ids, Relation.ReflTransGen (fun a b => b ∈ index.linklist 0 a) ep id

/-- The results are `ef` reachable elements, or all of them, and no neighbour of a result
has been missed. -/
structure Complete (results : Multiset (K × ℕ)) : Prop where
  nodup     : (results.map Prod.snd).Nodup
  reachable : ∀ e ∈ results, Reachable index ep_ids e.2
  card      : Multiset.card results = min ef {id | Reachable index ep_ids id}.ncard
  closed    : ∀ e ∈ results, ∀ u ∈ index.linklist 0 e.2,
    u ∈ results.map Prod.snd ∨ ∀ e' ∈ results, index.dist query e'.2 ≤ index.dist query u
-- ---------------------------------------------------------------------------
-- The state of a search
-- ---------------------------------------------------------------------------

/-- What holds in every state; `current` is the element being expanded. -/
structure Core (current : Option ℕ) (s : BaseState Q index.max_elements) : Prop where
  dist      : ∀ e ∈ Q.elems s.top_candidates, e.1 = index.dist query e.2
  nodup     : ((Q.elems s.top_candidates).map Prod.snd).Nodup
  size      : Q.size s.top_candidates ≤ ef
  seen      : ∀ e ∈ Q.elems s.top_candidates, s.visited.marked e.2 = true
  candidate : ∀ e ∈ Q.elems s.candidate_set,
    e.1 = -index.dist query e.2 ∧ s.visited.marked e.2 = true
  -- a result is still to be expanded, being expanded, or has no neighbour that is new
  frontier  : ∀ e ∈ Q.elems s.top_candidates, (-e.1, e.2) ∈ Q.elems s.candidate_set ∨
    current = some e.2 ∨ ∀ u ∈ index.linklist 0 e.2, s.visited.marked u = true
  entries   : ∀ ep ∈ ep_ids, s.visited.marked ep = true
  reachable : ∀ id, s.visited.marked id = true → Reachable index ep_ids id

/-- The bound is the greatest distance kept. -/
def Tight (s : BaseState Q index.max_elements) : Prop :=
  ∃ e ∈ Q.elems s.top_candidates, s.lowerBound = e.1 ∧ ∀ e' ∈ Q.elems s.top_candidates, e'.1 ≤ e.1

/-- An element that has been visited is kept, or the heap is full and it is no closer
than `bound`. -/
def Covered (bound : K) (s : BaseState Q index.max_elements) : Prop :=
  ∀ id, s.visited.marked id = true → (∃ e ∈ Q.elems s.top_candidates, e.2 = id) ∨
    (Q.size s.top_candidates = ef ∧ bound ≤ index.dist query id)
-- ---------------------------------------------------------------------------
-- One neighbour
-- ---------------------------------------------------------------------------

variable {Q index query ep_ids ef}

omit [LinearOrder K] in
/-- Marking an element that is not pushed. -/
theorem Core.mark {current : Option ℕ} {s : BaseState Q index.max_elements}
    (h : Core Q index query ep_ids ef current s) {u : ℕ} (hu : Reachable index ep_ids u) :
    Core Q index query ep_ids ef current { s with visited := s.visited.mark u } := by
  have hmono : ∀ i, s.visited.marked i = true → (s.visited.mark u).marked i = true :=
    fun i hi => (s.visited.marked_mark u i).mpr (Or.inr hi)
  refine ⟨h.dist, h.nodup, h.size, fun e he => hmono _ (h.seen e he),
    fun e he => ⟨(h.candidate e he).1, hmono _ (h.candidate e he).2⟩, fun e he => ?_,
    fun ep hep => hmono ep (h.entries ep hep), fun id hid => ?_⟩
  · rcases h.frontier e he with hcand | hcur | hdone
    · exact Or.inl hcand
    · exact Or.inr (Or.inl hcur)
    · exact Or.inr (Or.inr fun v hv => hmono v (hdone v hv))
  · rcases (s.visited.marked_mark u id).mp hid with rfl | hid
    · exact hu
    · exact h.reachable id hid

/-- The state after an accepted neighbour. -/
theorem considered_accepted {s : BaseState Q index.max_elements} {u : ℕ}
    (hnew : s.visited.marked u = false)
    (haccept : Q.size s.top_candidates < ef ∨ index.dist query u < s.lowerBound) :
    (considered Q index query ef s u).top_candidates =
        Q.shrink ef (Q.push s.top_candidates (index.dist query u, u)) ∧
      (considered Q index query ef s u).candidate_set =
        Q.push s.candidate_set (-index.dist query u, u) := by
  rw [considered_of_unmarked hnew, offerCandidate, if_pos haccept]
  exact ⟨rfl, rfl⟩

/-- The state after one that is turned away. -/
theorem considered_rejected {s : BaseState Q index.max_elements} {u : ℕ}
    (hnew : s.visited.marked u = false)
    (hreject : ¬ (Q.size s.top_candidates < ef ∨ index.dist query u < s.lowerBound)) :
    considered Q index query ef s u = { s with visited := s.visited.mark u } := by
  rw [considered_of_unmarked hnew, offerCandidate, if_neg hreject]

section Accept

variable (hQ : Q.Ordered fun a b => a.1 < b.1) {current : Option ℕ}
  {s : BaseState Q index.max_elements} {u : ℕ} (hnew : s.visited.marked u = false)
  (haccept : Q.size s.top_candidates < ef ∨ index.dist query u < s.lowerBound)

include hnew haccept

omit [LinearOrder K] haccept in
/-- The results have been visited, the neighbour has not. -/
theorem Core.nodup_cons (h : Core Q index query ep_ids ef current s) :
    (((index.dist query u, u) ::ₘ Q.elems s.top_candidates).map Prod.snd).Nodup := by
  rw [Multiset.map_cons]
  refine Multiset.nodup_cons.mpr ⟨fun hmem => ?_, h.nodup⟩
  obtain ⟨e, he, rfl⟩ := Multiset.mem_map.mp hmem
  rw [h.seen e he] at hnew
  cases hnew

/-- **An accepted neighbour.** -/
theorem Core.accept (h : Core Q index query ep_ids ef current s)
    (hu : Reachable index ep_ids u) :
    Core Q index query ep_ids ef current (considered Q index query ef s u) := by
  obtain ⟨htop, hcand⟩ := considered_accepted hnew haccept
  have hmarked : ∀ i, (considered Q index query ef s u).visited.marked i = true ↔
      i = u ∨ s.visited.marked i = true := marked_considered ef s u
  have hmono : ∀ i, s.visited.marked i = true →
      (considered Q index query ef s u).visited.marked i = true := fun i hi =>
    (hmarked i).mpr (Or.inr hi)
  refine ⟨fun e he => ?_, ?_, ?_, fun e he => ?_, fun e he => ?_, fun e he => ?_,
    fun ep hep => hmono ep (h.entries ep hep), fun id hid => ?_⟩
  · rcases top_considered he with rfl | he
    · rfl
    · exact h.dist e he
  · rw [htop]
    refine Multiset.nodup_of_le (Multiset.map_le_map (Q.elems_shrink_le ef _)) ?_
    rw [Q.elems_push]
    exact h.nodup_cons hnew
  · rw [htop, Q.size_shrink]
    exact min_le_left _ _
  · rcases top_considered he with rfl | he
    · exact (hmarked u).mpr (Or.inl rfl)
    · exact hmono e.2 (h.seen e he)
  · rcases candidate_considered he with rfl | he
    · exact ⟨rfl, (hmarked u).mpr (Or.inl rfl)⟩
    · exact ⟨(h.candidate e he).1, hmono e.2 (h.candidate e he).2⟩
  · rw [hcand, Q.elems_push, Multiset.mem_cons]
    rcases top_considered he with rfl | he
    · exact Or.inl (Or.inl rfl)
    · rcases h.frontier e he with hin | hcur | hdone
      · exact Or.inl (Or.inr hin)
      · exact Or.inr (Or.inl hcur)
      · exact Or.inr (Or.inr fun v hv => hmono v (hdone v hv))
  · rcases (hmarked id).mp hid with rfl | hid
    · exact hu
    · exact h.reachable id hid

include hQ

/-- From then on the bound is the greatest distance kept. -/
theorem tight_accepted (hef : 1 ≤ ef) : Tight Q index (considered Q index query ef s u) := by
  have hpos : 0 < Q.size (Q.shrink ef (Q.push s.top_candidates (index.dist query u, u))) := by
    rw [Q.size_shrink, Q.size_push]
    omega
  obtain ⟨t, ht⟩ := Q.exists_top_of_size hpos
  rw [considered_of_unmarked hnew, offerCandidate, if_pos haccept]
  unfold Tight
  dsimp only
  rw [ht]
  exact ⟨t, Q.top_mem ht, rfl, fun e he => not_lt.mp (hQ _ t ht e he)⟩

/-- What the new bound covers before the push it covers after it. -/
theorem Covered.accept (hef : 1 ≤ ef) (hcore : Core Q index query ep_ids ef current s)
    (h : Covered Q index query ef (considered Q index query ef s u).lowerBound s) :
    Covered Q index query ef (considered Q index query ef s u).lowerBound
      (considered Q index query ef s u) := by
  obtain ⟨b, hb, hbound, -⟩ := tight_accepted hQ hnew haccept hef
  rw [hbound] at h ⊢
  have hkeep : ∀ e ∈ (index.dist query u, u) ::ₘ Q.elems s.top_candidates,
      e ∈ Q.elems (considered Q index query ef s u).top_candidates ∨
        (Q.size (considered Q index query ef s u).top_candidates = ef ∧ b.1 ≤ e.1) := by
    rw [(considered_accepted hnew haccept).1] at hb ⊢
    exact fun e he => (Q.mem_shrink_push hQ hcore.size he).imp_right fun hf => ⟨hf.1, hf.2 b hb⟩
  intro id hid
  rcases (marked_considered ef s u id).mp hid with rfl | hid
  · exact (hkeep _ (Multiset.mem_cons_self _ _)).imp_left fun hmem => ⟨_, hmem, rfl⟩
  · rcases h id hid with ⟨e, he, rfl⟩ | ⟨hfull, hle⟩
    · rw [← hcore.dist e he]
      exact (hkeep e (Multiset.mem_cons_of_mem he)).imp_left fun hmem => ⟨e, hmem, rfl⟩
    · refine Or.inr ⟨?_, hle⟩
      rw [(considered_accepted hnew haccept).1, Q.size_shrink, Q.size_push]
      omega

/-- A new bound above `d` leaves two results that are farther than `d` behind: the one that
has been dropped and the one that gives the bound. -/
theorem Core.two_farther (hef : 1 ≤ ef) (h : Core Q index query ep_ids ef current s)
    (hfull : Q.size s.top_candidates = ef) {d : K} (hu : index.dist query u ≤ d)
    (hlt : d < (considered Q index query ef s u).lowerBound) :
    ∃ e ∈ Q.elems s.top_candidates, ∃ e' ∈ Q.elems s.top_candidates,
      e.2 ≠ e'.2 ∧ d < e.1 ∧ d < e'.1 := by
  obtain ⟨b, hb, hbound, -⟩ := tight_accepted hQ hnew haccept hef
  rw [(considered_accepted hnew haccept).1] at hb
  rw [hbound] at hlt
  have hnodup := h.nodup_cons hnew
  have hold : ∀ e ∈ (index.dist query u, u) ::ₘ Q.elems s.top_candidates, d < e.1 →
      e ∈ Q.elems s.top_candidates := fun e he hfar =>
    (Multiset.mem_cons.mp he).resolve_left fun heq => absurd hfar (not_lt.mpr (heq ▸ hu))
  rcases Q.shrink_push h.size (index.dist query u, u) with ⟨hroom, -⟩ | ⟨-, t, ht, hdrop⟩
  · omega
  · have hbt : b.1 ≤ t.1 := not_lt.mp (hQ _ t ht b (Q.mem_of_mem_shrink hb))
    rw [hdrop] at hnodup hold
    rw [Multiset.map_cons, Multiset.nodup_cons] at hnodup
    exact ⟨t, hold t (Multiset.mem_cons_self _ _) (hlt.trans_le hbt), b,
      hold b (Multiset.mem_cons_of_mem hb) hlt,
      fun heq => hnodup.1 (heq ▸ Multiset.mem_map_of_mem Prod.snd hb), hlt.trans_le hbt, hlt⟩

/-- A bound that is the greatest distance kept does not increase while the heap is full. -/
theorem Tight.lowerBound_le (hef : 1 ≤ ef) (h : Tight Q index s)
    (hfull : Q.size s.top_candidates = ef) :
    (considered Q index query ef s u).lowerBound ≤ s.lowerBound := by
  obtain ⟨b, hb, hbound, -⟩ := tight_accepted hQ hnew haccept hef
  obtain ⟨t, -, hlower, hmax⟩ := h
  rw [hbound]
  rcases top_considered hb with rfl | hb
  · exact (haccept.resolve_left (by omega)).le
  · rw [hlower]
    exact hmax b hb

end Accept

-- ---------------------------------------------------------------------------
-- After the first accepted neighbour
-- ---------------------------------------------------------------------------

/-- The invariant from the first accepted neighbour on. The bound covers what has been
visited if `covers` says that nothing was lost before. -/
structure Beam (Q : PriorityQueue (K × ℕ)) (index : HierarchicalNSW V K) (query : V)
    (ep_ids : List ℕ) (ef : ℕ) (covers : Prop) (current : Option ℕ)
    (s : BaseState Q index.max_elements) : Prop where
  core    : Core Q index query ep_ids ef current s
  tight   : Tight Q index s
  covered : covers → Covered Q index query ef s.lowerBound s

/-- **One neighbour.** -/
theorem Beam.consider (hQ : Q.Ordered fun a b => a.1 < b.1) (hef : 1 ≤ ef) {covers : Prop}
    {current : Option ℕ} {s : BaseState Q index.max_elements}
    (h : Beam Q index query ep_ids ef covers current s) {u : ℕ} (hu : Reachable index ep_ids u) :
    Beam Q index query ep_ids ef covers current (considered Q index query ef s u) := by
  cases hnew : s.visited.marked u with
  | true =>
    rw [considered_of_marked hnew]
    exact h
  | false =>
    by_cases haccept : Q.size s.top_candidates < ef ∨ index.dist query u < s.lowerBound
    · refine ⟨h.core.accept hnew haccept hu, tight_accepted hQ hnew haccept hef, fun hc => ?_⟩
      refine Covered.accept hQ hnew haccept hef h.core fun id hid => ?_
      exact (h.covered hc id hid).imp_right fun ⟨hfull, hle⟩ =>
        ⟨hfull, (h.tight.lowerBound_le hQ hnew haccept hef hfull).trans hle⟩
    · rw [considered_rejected hnew haccept]
      rw [not_or, not_lt, not_lt] at haccept
      refine ⟨h.core.mark hu, h.tight, fun hc id hid => ?_⟩
      rcases (s.visited.marked_mark u id).mp hid with rfl | hid
      · exact Or.inr ⟨le_antisymm h.core.size haccept.1, haccept.2⟩
      · exact h.covered hc id hid

omit [LinearOrder K] [Neg K] in
theorem Reachable.link {id u : ℕ} (h : Reachable index ep_ids id) (hu : u ∈ index.linklist 0 id) :
    Reachable index ep_ids u := by
  obtain ⟨ep, hep, hpath⟩ := h
  exact ⟨ep, hep, hpath.tail hu⟩

omit [LinearOrder K] [Neg K] in
theorem Reachable.lt (heps : ∀ ep ∈ ep_ids, ep < index.cur_element_count) {id : ℕ}
    (h : Reachable index ep_ids id) : id < index.cur_element_count := by
  obtain ⟨ep, hep, hpath⟩ := h
  induction hpath with
  | refl => exact heps ep hep
  | tail _ hlink ih => exact index.link_lt 0 _ ih (Nat.zero_le _) _ hlink

omit [LinearOrder K] in
/-- The candidate that is popped is being expanded. -/
theorem Core.pop {s : BaseState Q index.max_elements} (h : Core Q index query ep_ids ef none s)
    {e : K × ℕ} (htop : Q.top s.candidate_set = some e) :
    Core Q index query ep_ids ef (some e.2) { s with candidate_set := Q.pop s.candidate_set } := by
  refine ⟨h.dist, h.nodup, h.size, h.seen, fun e' he' => h.candidate e' (Q.mem_of_mem_pop htop he'),
    fun e' he' => ?_, h.entries, h.reachable⟩
  rcases h.frontier e' he' with hcand | hcur | hdone
  · rw [Q.elems_pop _ e htop, Multiset.mem_cons] at hcand
    rcases hcand with heq | hcand
    · exact Or.inr (Or.inl (by rw [← heq]))
    · exact Or.inl hcand
  · cases hcur
  · exact Or.inr (Or.inr hdone)

omit [LinearOrder K] in
/-- Its expansion ends when all its neighbours have been visited. -/
theorem Core.finish {id : ℕ} {s : BaseState Q index.max_elements}
    (h : Core Q index query ep_ids ef (some id) s)
    (hlinks : ∀ u ∈ index.linklist 0 id, s.visited.marked u = true) :
    Core Q index query ep_ids ef none s := by
  refine ⟨h.dist, h.nodup, h.size, h.seen, h.candidate, fun e he => ?_, h.entries, h.reachable⟩
  rcases h.frontier e he with hcand | hcur | hdone
  · exact Or.inl hcand
  · exact Or.inr (Or.inr (Option.some.inj hcur ▸ hlinks))
  · exact Or.inr (Or.inr hdone)

theorem Beam.neighbours (hQ : Q.Ordered fun a b => a.1 < b.1) (hef : 1 ≤ ef) {covers : Prop}
    {current : Option ℕ} {links : List ℕ} (hlinks : ∀ u ∈ links, Reachable index ep_ids u)
    {s : BaseState Q index.max_elements} (h : Beam Q index query ep_ids ef covers current s) :
    Beam Q index query ep_ids ef covers current (links.foldl (considered Q index query ef) s) :=
  List.foldlRecOn (motive := Beam Q index query ep_ids ef covers current) links _ h
    fun _ hs u hu => hs.consider hQ hef (hlinks u hu)
-- ---------------------------------------------------------------------------
-- The end
-- ---------------------------------------------------------------------------

omit [LinearOrder K] [Neg K] in
/-- A set that contains the entry points and is closed under links has everything. -/
theorem Reachable.mem_of_closed {S : ℕ → Prop} (hentries : ∀ ep ∈ ep_ids, S ep)
    (hlinks : ∀ id, S id → ∀ u ∈ index.linklist 0 id, S u) {id : ℕ}
    (h : Reachable index ep_ids id) : S id := by
  obtain ⟨ep, hep, hpath⟩ := h
  induction hpath with
  | refl => exact hentries ep hep
  | tail _ hlink ih => exact hlinks _ ih _ hlink

omit [LinearOrder K] [Neg K] in
/-- Distinct reachable elements, which are all of them if they are fewer than `ef`. -/
theorem card_eq_min (heps : ∀ ep ∈ ep_ids, ep < index.cur_element_count)
    {results : Multiset (K × ℕ)} (hnodup : (results.map Prod.snd).Nodup)
    (hreach : ∀ e ∈ results, Reachable index ep_ids e.2) (hle : Multiset.card results ≤ ef)
    (hall : Multiset.card results < ef → ∀ id, Reachable index ep_ids id →
      id ∈ results.map Prod.snd) :
    Multiset.card results = min ef {id | Reachable index ep_ids id}.ncard := by
  have hfinite : {id | Reachable index ep_ids id}.Finite :=
    (Set.finite_Iio index.cur_element_count).subset fun id hid => hid.lt heps
  have hcard : ((results.map Prod.snd).toFinset : Set ℕ).ncard = Multiset.card results := by
    rw [Set.ncard_coe_finset, Multiset.toFinset_card_of_nodup hnodup, Multiset.card_map]
  have hsub : ((results.map Prod.snd).toFinset : Set ℕ) ⊆ {id | Reachable index ep_ids id} := by
    intro id hid
    obtain ⟨e, he, rfl⟩ := Multiset.mem_map.mp (Multiset.mem_toFinset.mp (Finset.mem_coe.mp hid))
    exact hreach e he
  have hncard := Set.ncard_le_ncard hsub hfinite
  rw [hcard] at hncard
  rcases hle.lt_or_eq with hlt | heq
  · have hsup : {id | Reachable index ep_ids id} ⊆ ((results.map Prod.snd).toFinset : Set ℕ) :=
      fun id hid => Finset.mem_coe.mpr (Multiset.mem_toFinset.mpr (hall hlt id hid))
    have hncard' := Set.ncard_le_ncard hsup (Finset.finite_toSet _)
    rw [hcard] at hncard'
    omega
  · omega

/-- When the loop is left, a result within the bound has been expanded. -/
theorem Core.links_marked (hQ : Q.Ordered fun a b => a.1 < b.1) (hneg : ExactNeg K)
    {s : BaseState Q index.max_elements} (h : Core Q index query ep_ids ef none s)
    (hstop : ∀ e, Q.top s.candidate_set = some e → s.lowerBound < -e.1) {e : K × ℕ}
    (he : e ∈ Q.elems s.top_candidates) (hle : e.1 ≤ s.lowerBound) :
    ∀ u ∈ index.linklist 0 e.2, s.visited.marked u = true := by
  rcases h.frontier e he with hcand | hcur | hdone
  · obtain ⟨t, ht⟩ := Q.exists_top (h := s.candidate_set) fun h0 => by
      rw [h0] at hcand
      exact Multiset.notMem_zero _ hcand
    -- the candidate on top is the closest one
    have hlt : e.1 < -t.1 := hle.trans_lt (hstop t ht)
    have hlt' := hneg.neg_lt_neg _ _ hlt
    rw [hneg.neg_neg] at hlt'
    exact absurd hlt' (hQ _ t ht _ hcand)
  · cases hcur
  · exact hdone

/-- **The result** after the first accepted neighbour. -/
theorem Beam.complete (hQ : Q.Ordered fun a b => a.1 < b.1) (hneg : ExactNeg K)
    (heps : ∀ ep ∈ ep_ids, ep < index.cur_element_count) {covers : Prop} (hcovers : covers)
    {s : BaseState Q index.max_elements} (h : Beam Q index query ep_ids ef covers none s)
    (hstop : ∀ e, Q.top s.candidate_set = some e → s.lowerBound < -e.1) :
    Complete index query ep_ids ef (Q.elems s.top_candidates) := by
  obtain ⟨t, -, hlower, hmax⟩ := h.tight
  have hexpanded : ∀ e ∈ Q.elems s.top_candidates, ∀ u ∈ index.linklist 0 e.2,
      s.visited.marked u = true := fun e he =>
    h.core.links_marked hQ hneg hstop he (hlower ▸ hmax e he)
  have hreach : ∀ e ∈ Q.elems s.top_candidates, Reachable index ep_ids e.2 := fun e he =>
    h.core.reachable e.2 (h.core.seen e he)
  refine ⟨h.core.nodup, hreach, card_eq_min heps h.core.nodup hreach h.core.size fun hlt id hid => ?_,
    fun e he u hu => ?_⟩
  · -- a heap with room holds everything that has been visited
    have hkept : ∀ id, s.visited.marked id = true → id ∈ (Q.elems s.top_candidates).map Prod.snd :=
      fun id hid => ((h.covered hcovers id hid).resolve_right fun hfull => by
        have : Q.size s.top_candidates < ef := hlt
        omega).elim fun e he => Multiset.mem_map.mpr ⟨e, he⟩
    refine hkept id (hid.mem_of_closed (S := fun id => s.visited.marked id = true)
      h.core.entries fun id hid u hu => ?_)
    obtain ⟨e, he, rfl⟩ := Multiset.mem_map.mp (hkept id hid)
    exact hexpanded e he u hu
  · rcases h.covered hcovers u (hexpanded e he u hu) with ⟨e', he', rfl⟩ | ⟨-, hle⟩
    · exact Or.inl (Multiset.mem_map_of_mem Prod.snd he')
    · refine Or.inr fun e' he' => ?_
      rw [← h.core.dist e' he']
      exact (hlower ▸ hmax e' he').trans hle
end Beam

end Mqo.Search.Hnsw
