import Mqo.Index.Insert

/-!
# MQO — the graph in the memory of an index

What an insertion relies on and restores, read off the bytes: every list of an
element is inside its block and no longer than the room it has, and its links
lead to elements that reach the level of the list. While an element is being
inserted, the levels that have been linked already lead to it and the others do
not; `lim level` is the bound on the links of a level.

* `Graph.fits`, `Graph.getLinks_returns`, `Graph.distTo_returns` — so reading a list
  or a vector is no fault;
* `Graph.rewrite` — rewriting a list within its room keeps the graph.
-/

namespace Mqo.Index

open Prog Memory ByteStream

/-- An element below `n` that reaches the level. -/
def IsNode (levels : ℕ → ℕ) (n level id : ℕ) : Prop := id < n ∧ level ≤ levels id

/-- The graph of the first `N` elements. -/
structure Graph (L : Layout) (levels : ℕ → ℕ) (N : ℕ) (lim : ℕ → ℕ) (m : Memory Region) :
    Prop where
  capacity : N ≤ L.max_elements
  level0   : (m .data_level0_memory).size = L.max_elements * L.size_data_per_element
  upper    : ∀ id < N, levels id * L.size_links_per_element ≤ (m (.linkLists id)).size
  room     : ∀ id < N, ∀ level ≤ levels id,
    count m (L.getLinklistAtLevel id level) ≤ L.Mcurmax level
  target   : ∀ id < N, ∀ level ≤ levels id, ∀ v ∈ links m (L.getLinklistAtLevel id level),
    IsNode levels (lim level) level v
  bound    : ∀ level, lim level ≤ N
  unmarked : ∀ id < N, word m (L.markSpan id) = 0

namespace Graph

variable {L : Layout} {levels : ℕ → ℕ} {N : ℕ} {lim : ℕ → ℕ} {m m' : Memory Region}

/-- Records below the capacity are inside the block. -/
theorem holds_record (h : Graph L levels N lim m) {id : ℕ} (hid : id < N) :
    Holds m (L.record id) :=
  Mqo.Index.holds_record h.level0 (hid.trans_le h.capacity)

variable (hL : L.WellFormed)

include hL

theorem holds_list (h : Graph L levels N lim m) {id level : ℕ} (hid : id < N)
    (hlevel : level ≤ levels id) : Holds m (L.list id level) := by
  cases level with
  | zero => exact (h.holds_record hid).within (list_zero_within hL id)
  | succ level =>
    refine Holds.within ?_ (list_succ_within hL id level)
    exact (slot_le hlevel).trans (h.upper id hid)

theorem fits (h : Graph L levels N lim m) {id level : ℕ} (hid : id < N)
    (hlevel : level ≤ levels id) : Fits m (L.getLinklistAtLevel id level) (L.Mcurmax level) :=
  ⟨h.holds_list hL hid hlevel, h.room id hid level hlevel⟩

theorem getLinks_returns (h : Graph L levels N lim m) {id level : ℕ} (hid : id < N)
    (hlevel : level ≤ levels id) :
    Returns (getLinks m (L.getLinklistAtLevel id level)) (links m (L.getLinklistAtLevel id level)) :=
  Index.getLinks_returns (h.fits hL hid hlevel)

theorem getDataByInternalId_returns (h : Graph L levels N lim m) {id : ℕ} (hid : id < N) :
    Returns (L.getDataByInternalId m id) (bytes m (L.dataSpan id)) :=
  load_returns ((h.holds_record hid).within (data_within hL id))

theorem getExternalLabel_returns (h : Graph L levels N lim m) {id : ℕ} (hid : id < N) :
    Returns (L.getExternalLabel m id) (word m (L.labelSpan id)) :=
  loadWord_returns ((h.holds_record hid).within (label_within hL id))

/-- No element is marked as deleted. -/
theorem isMarkedDeleted_returns (h : Graph L levels N lim m) {id : ℕ} (hid : id < N) :
    Returns (L.isMarkedDeleted m id) false := by
  have hmark := loadWord_returns ((h.holds_record hid).within (mark_within hL id))
  rw [h.unmarked id hid] at hmark
  exact hmark.map

section Distances

variable {K : Type} (fstdistfunc : List UInt8 → List UInt8 → K)

theorem distTo_returns (h : Graph L levels N lim m) (data_point : List UInt8) {id : ℕ}
    (hid : id < N) : Returns (distTo L fstdistfunc m data_point id)
      (fstdistfunc data_point (bytes m (L.dataSpan id))) :=
  (h.getDataByInternalId_returns hL hid).map

theorem distBetween_returns (h : Graph L levels N lim m) {id id' : ℕ} (hid : id < N)
    (hid' : id' < N) : Returns (distBetween L fstdistfunc m id id')
      (fstdistfunc (bytes m (L.dataSpan id)) (bytes m (L.dataSpan id'))) :=
  (h.getDataByInternalId_returns hL hid).bind (h.distTo_returns hL fstdistfunc _ hid')

end Distances

omit hL in
/-- The bound on the links may be raised. -/
theorem raise (h : Graph L levels N lim m) {lim' : ℕ → ℕ} (hle : ∀ level, lim level ≤ lim' level)
    (hbound : ∀ level, lim' level ≤ N) : Graph L levels N lim' m :=
  { h with
    target := fun id hid level hlevel v hv =>
      let hnode := h.target id hid level hlevel v hv
      ⟨hnode.1.trans_le (hle level), hnode.2⟩
    bound := hbound }

omit hL in
/-- The graph depends on the lists and the marks of its elements only. -/
theorem congr (h : Graph L levels N lim m) {levels' : ℕ → ℕ}
    (hlevels : ∀ id < N, levels' id = levels id)
    (hlevel0 : (m' .data_level0_memory).size = (m .data_level0_memory).size)
    (hupper : ∀ id < N, levels id * L.size_links_per_element ≤ (m' (.linkLists id)).size)
    (hlist : ∀ id < N, ∀ level ≤ levels id, bytes m' (L.list id level) = bytes m (L.list id level))
    (hmark : ∀ id < N, word m' (L.markSpan id) = word m (L.markSpan id)) :
    Graph L levels' N lim m' := by
  have hlinks : ∀ id < N, ∀ level ≤ levels id,
      links m' (L.getLinklistAtLevel id level) = links m (L.getLinklistAtLevel id level) :=
    fun id hid level hlevel => links_congr (h.room id hid level hlevel) (hlist id hid level hlevel)
  refine
    { capacity := h.capacity
      level0 := hlevel0.trans h.level0
      upper := fun id hid => by rw [hlevels id hid]; exact hupper id hid
      room := fun id hid level hlevel => ?_
      target := fun id hid level hlevel v hv => ?_
      bound := h.bound
      unmarked := fun id hid => (hmark id hid).trans (h.unmarked id hid) }
  · rw [hlevels id hid] at hlevel
    rw [← length_links, hlinks id hid level hlevel, length_links]
    exact h.room id hid level hlevel
  · rw [hlevels id hid] at hlevel
    rw [hlinks id hid level hlevel] at hv
    obtain ⟨hlt, hle⟩ := h.target id hid level hlevel v hv
    exact ⟨hlt, by rw [hlevels v (hlt.trans_le (h.bound level))]; exact hle⟩

/-- The other lists keep their links when one is rewritten. -/
theorem links_of_rewrites (h : Graph L levels N lim m) {id level : ℕ} {ids : List ℕ}
    (hm : Rewrites L id level m m' ids) {id' level' : ℕ} (hid : id' < N) (hlevel : level' ≤ levels id')
    (hne : ¬ (id' = id ∧ level' = level)) :
    links m' (L.getLinklistAtLevel id' level') = links m (L.getLinklistAtLevel id' level') :=
  links_congr (h.room id' hid level' hlevel) (bytes_list hL hm.frame hne)

/-- **Rewriting a list.** -/
theorem rewrite (h : Graph L levels N lim m) {id level : ℕ} {ids : List ℕ}
    (hm : Rewrites L id level m m' ids) (hroom : ids.length ≤ L.Mcurmax level)
    (hids : ∀ v ∈ ids, IsNode levels (lim level) level v) : Graph L levels N lim m' := by
  have hlinks : ∀ id' < N, ∀ level' ≤ levels id',
      (id = id' ∧ level = level') ∨
      links m' (L.getLinklistAtLevel id' level') = links m (L.getLinklistAtLevel id' level') := by
    intro id' hid' level' hlevel'
    by_cases hsame : id = id' ∧ level = level'
    · exact Or.inl hsame
    · exact Or.inr (h.links_of_rewrites hL hm hid' hlevel' fun heq => hsame ⟨heq.1.symm, heq.2.symm⟩)
  refine
    { capacity := h.capacity
      level0 := (hm.frame.size _).trans h.level0
      upper := fun id' hid' => (h.upper id' hid').trans (hm.frame.size _).ge
      room := fun id' hid' level' hlevel' => ?_
      target := fun id' hid' level' hlevel' v hv => ?_
      bound := h.bound
      unmarked := fun id' hid' => ?_ }
  · rw [← length_links]
    rcases hlinks id' hid' level' hlevel' with ⟨rfl, rfl⟩ | heq
    · rw [hm.links]
      exact hroom
    · rw [heq, length_links]
      exact h.room id' hid' level' hlevel'
  · rcases hlinks id' hid' level' hlevel' with ⟨rfl, rfl⟩ | heq
    · rw [hm.links] at hv
      exact hids v hv
    · rw [heq] at hv
      exact h.target id' hid' level' hlevel' v hv
  · rw [word_mark hL hm.frame id']
    exact h.unmarked id' hid'

end Graph

end Mqo.Index
