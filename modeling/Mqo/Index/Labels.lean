import Mqo.Index.BaseBuild
import Mqo.Index.Repair

/-!
# MQO — an HNSW index as a map from labels to vectors

Any sequence of calls of `addPoint`, under labels that are new or have been there before. The index
then stands for a map: `getDataByLabel` gives the vector that was added last under a label.

* `connectBelow_intact`, `Created.holding` — a new element keeps the lists free of loops;
* `Holding.addNew`, `Holding.addAgain`     — a call under a new label, and under an old one;
* `addPoint_step`      — one call is one assignment to the map, unless the index is full;
* `addPoints_holding`  — any sequence of calls;
* `addPoints_map`      — what `getDataByLabel` then reads.
-/

namespace Mqo.Index

open Prog Memory ByteStream
open Mqo.Search.Hnsw (VisitedListPool)

-- ---------------------------------------------------------------------------
-- The functions
-- ---------------------------------------------------------------------------

/-- A call of `addPoint`, with what it leaves open where the label is there already. -/
structure Insertion where
  label : ℕ
  data_point : List UInt8
  choices : UpdateChoices

/-- Calls of `addPoint`, one after the other, on a fresh index. -/
def addPoints {K : Type} [Preorder K] [DecidableLT K] [Neg K] (P : Platform K) (L : Layout)
    (fstdistfunc : List UInt8 → List UInt8 → K) (draws : ℕ → LevelDraw) (calls : List Insertion) :
    Run (HierarchicalNSW L) :=
  calls.foldlM (fun s call =>
    addPoint P fstdistfunc (updateExisting P fstdistfunc call.choices) s call.data_point call.label)
    (HierarchicalNSW.new P L draws)

/-- `getDataByLabel`, as bytes. -/
def HierarchicalNSW.getDataByLabel {L : Layout} (s : HierarchicalNSW L) (label : ℕ) :
    Run (List UInt8) :=
  match s.label_lookup label with
  | none => fault (.exception "Label not found")
  | some internalId => do
    let deleted ← L.isMarkedDeleted s.memory internalId
    if deleted then fault (.exception "Label not found")
    else L.getDataByInternalId s.memory internalId

-- ---------------------------------------------------------------------------
-- A new element
-- ---------------------------------------------------------------------------

section Fresh

variable {L : Layout} {levels : ℕ → ℕ} {n curlevel label : ℕ} {data_point : List UInt8}
  {m m' : Memory Region}

/-- The record of a new element has empty lists. -/
theorem Created.intact (hL : L.WellFormed) (h : Created L n curlevel label data_point m m')
    (hn : n < L.max_elements) (hintact : Intact L levels n (fun _ => n) m) :
    Intact L (Function.update levels n curlevel) (n + 1) (fun _ => n) m' := by
  have hold : ∀ id < n, ∀ level ≤ levels id,
      links m' (L.getLinklistAtLevel id level) = links m (L.getLinklistAtLevel id level) :=
    fun id hid level hlevel => links_congr (hintact.room id hid level hlevel)
      (h.others id (by omega) _ (list_in_element hL id level))
  have hown : ∀ level ≤ curlevel, links m' (L.getLinklistAtLevel n level) = [] :=
    fun level hlevel => links_eq (h.blank level hlevel).count fun j hj =>
      absurd hj (Nat.not_lt_zero j)
  refine ⟨h.graph hL hn hintact.toGraph, fun id hid level hlevel => ?_,
    fun id hid level hlevel => ?_⟩
  all_goals rcases Nat.lt_succ_iff_lt_or_eq.mp hid with hid | rfl
  · rw [Function.update_of_ne (by omega)] at hlevel
    rw [hold id hid level hlevel]
    exact hintact.nodup id hid level hlevel
  · rw [Function.update_self] at hlevel
    rw [hown level hlevel]
    exact List.nodup_nil
  · rw [Function.update_of_ne (by omega)] at hlevel
    rw [hold id hid level hlevel]
    exact hintact.irrefl id hid level hlevel
  · rw [Function.update_self] at hlevel
    rw [hown level hlevel]
    exact List.not_mem_nil

/-- **A level on which the new element has been linked** has no loops. -/
theorem Connected.intact (hL : L.WellFormed) {N level cur_c : ℕ} {lim lim' : ℕ → ℕ}
    (h : Intact L levels N lim m) (hlim : lim level = cur_c) (hgraph : Graph L levels N lim' m')
    (hframe : Modifies (L.parts fun _ l => l = level) m m') {selected : List ℕ}
    (hnodup : selected.Nodup) (hsel : ∀ v ∈ selected, v < cur_c)
    (hc : Connected L levels N level cur_c selected selected m m') : Intact L levels N lim' m' := by
  have hnew : ∀ id < N, level ≤ levels id → cur_c ∉ links m (L.getLinklistAtLevel id level) :=
    fun id hid hle hmem => lt_irrefl cur_c (hlim ▸ (h.target id hid level hle cur_c hmem).1)
  -- a list of the level: that of the new element, of a neighbour, or one that is as before
  have hcases : ∀ id < N, level ≤ levels id →
      (links m' (L.getLinklistAtLevel id level)).Nodup ∧
        id ∉ links m' (L.getLinklistAtLevel id level) := by
    intro id hid hle
    by_cases hcur : id = cur_c
    · rw [hcur, hc.own]
      exact ⟨hnodup, fun hmem => lt_irrefl cur_c (hsel cur_c hmem)⟩
    · by_cases hin : id ∈ selected
      · have hback := hc.back id hin
        refine ⟨Multiset.coe_nodup.mp (Multiset.nodup_of_le hback.among (Multiset.nodup_cons.mpr
          ⟨hnew id hid hle, Multiset.coe_nodup.mpr (h.nodup id hid level hle)⟩)), fun hmem => ?_⟩
        rcases hback.mem hmem with heq | hold
        · exact hcur heq
        · exact h.irrefl id hid level hle hold
      · rw [hc.other id hid hle hcur hin]
        exact ⟨h.nodup id hid level hle, h.irrefl id hid level hle⟩
  have hsame : ∀ id < N, ∀ l ≤ levels id, l ≠ level →
      links m' (L.getLinklistAtLevel id l) = links m (L.getLinklistAtLevel id l) :=
    fun id hid l hl hne => links_congr (h.room id hid l hl) (bytes_list hL hframe hne)
  refine ⟨hgraph, fun id hid l hl => ?_, fun id hid l hl => ?_⟩
  all_goals by_cases hne : l = level
  · exact hne ▸ (hcases id hid (hne ▸ hl)).1
  · rw [hsame id hid l hl hne]
    exact h.nodup id hid l hl
  · exact hne ▸ (hcases id hid (hne ▸ hl)).2
  · rw [hsame id hid l hl hne]
    exact h.irrefl id hid l hl

variable {K : Type} [Preorder K] [DecidableLT K] [Neg K] {P : Platform K}
  (fstdistfunc : List UInt8 → List UInt8 → K)

/-- **The levels below `k`**, on which nothing leads to the new element yet. -/
theorem connectBelow_intact (hL : L.WellFormed) {N cur_c : ℕ} (hcur : cur_c < N)
    (data_point : List UInt8) (enterpoint_copy : ℕ) {maxlevel : ℤ} {k : ℕ}
    (hlevel : ∀ l < k, l ≤ levels cur_c) (hmax : ∀ l < k, (l : ℤ) ≤ maxlevel)
    {s : ConnectState L} {lim : ℕ → ℕ} (h : Intact L levels N lim s.memory)
    (hlim : ∀ l < k, lim l = cur_c) (hblank : ∀ l < k, Blank L s.memory cur_c l)
    (hobj : ∀ l < k, IsNode levels cur_c l s.currObj) :
    ∃ s' lim', Returns (connectBelow P L fstdistfunc levels cur_c data_point enterpoint_copy
        maxlevel false k s) s' ∧
      Intact L levels N lim' s'.memory ∧ Modifies (L.parts fun _ _ => True) s.memory s'.memory := by
  induction k generalizing s lim with
  | zero => exact ⟨s, lim, returns_pure s, h, Modifies.refl _ _⟩
  | succ k ih =>
    have hk : k < k + 1 := Nat.lt_succ_self k
    obtain ⟨r, -, hsearch, hr⟩ := searchBaseLayer_returns fstdistfunc hL h.toGraph data_point
      (P := P) (show ∀ id < lim k, some cur_c ≠ some id from fun id hid heq => by
        rw [hlim k hk] at hid
        injection heq with heq
        omega) s.visited_list_pool (hlim k hk ▸ hobj k hk)
    generalize (s.visited_list_pool.getFreeVisitedList P.newList).2.releaseVisitedList r.visited =
      pool' at hsearch
    obtain ⟨ep, m', selected, hconnect, hep, hgraph, hframe, -, hnodup, hsel, hc⟩ :=
      mutuallyConnectNewElement_returns fstdistfunc hL h.toGraph hcur (hlevel k hk) (hlim k hk)
        (hblank k hk) hr.nonempty (hlim k hk ▸ hr.top) hr.nodup
    have hintact := hc.intact hL h (hlim k hk) hgraph hframe hnodup hsel
    have hstep : Returns (connectLevel P L fstdistfunc levels cur_c data_point enterpoint_copy
        maxlevel false k s) ⟨ep, m', pool'⟩ := by
      rw [connectLevel, if_neg (not_lt.mpr (hmax k hk))]
      exact hsearch.bind (hconnect.bind (returns_pure _))
    obtain ⟨s', lim', hrest, hintact', hframe'⟩ := ih (s := ⟨ep, m', pool'⟩)
      (fun l hl => hlevel l (by omega)) (fun l hl => hmax l (by omega)) hintact
      (fun l hl => by rw [Function.update_of_ne (by omega)]; exact hlim l (by omega))
      (fun l hl => (hblank l (by omega)).congr (bytes_list hL hframe (by omega)))
      (fun l hl => ⟨hep.1, by have := hep.2; show l ≤ levels ep; omega⟩)
    exact ⟨s', lim', hstep.bind hrest, hintact',
      (parts_mono hframe fun _ _ _ => trivial).trans hframe'⟩

end Fresh

-- ---------------------------------------------------------------------------
-- One call
-- ---------------------------------------------------------------------------

/-- The index holds `n` elements: element `i` has the vector `vec i` under the label `label i`. -/
structure Holding (L : Layout) (n : ℕ) (label : ℕ → ℕ) (vec : ℕ → List UInt8)
    (s : HierarchicalNSW L) : Prop where
  count   : s.cur_element_count = n
  intact  : Intact L s.element_levels n (fun _ => n) s.memory
  stored  : ∀ i < n, word s.memory (L.labelSpan i) = label i
  vectors : ∀ i < n, bytes s.memory (L.dataSpan i) = vec i
  lookup  : ∀ x i, s.label_lookup x = some i ↔ i < n ∧ label i = x
  highest : ∀ i < n, (s.element_levels i : ℤ) ≤ s.maxlevel
  entry   : (n = 0 ∧ s.enterpoint_node = noElement ∧ s.maxlevel = -1) ∨
    (s.enterpoint_node < n ∧ s.maxlevel = s.element_levels s.enterpoint_node)

section Call

variable {K : Type} [Preorder K] [DecidableLT K] [Neg K] {P : Platform K} {L : Layout}
  (fstdistfunc : List UInt8 → List UInt8 → K) {n x : ℕ} {label : ℕ → ℕ} {vec : ℕ → List UInt8}
  {s : HierarchicalNSW L} {v : List UInt8}

omit [Preorder K] [DecidableLT K] [Neg K] in
theorem Holding.new (draws : ℕ → LevelDraw) (label : ℕ → ℕ) (vec : ℕ → List UInt8) :
    Holding L 0 label vec (HierarchicalNSW.new P L draws) where
  count := rfl
  intact :=
    { (show Built L vec 0 (HierarchicalNSW.new P L draws) from Built.new draws).graph with
      nodup := fun id hid => absurd hid (Nat.not_lt_zero id)
      irrefl := fun id hid => absurd hid (Nat.not_lt_zero id) }
  stored i hi := absurd hi (Nat.not_lt_zero i)
  vectors i hi := absurd hi (Nat.not_lt_zero i)
  lookup _ i := ⟨nofun, fun h => absurd h.1 (Nat.not_lt_zero i)⟩
  highest i hi := absurd hi (Nat.not_lt_zero i)
  entry := Or.inl ⟨rfl, rfl, rfl⟩

/-- An index that holds anything has an entry point on its highest level. -/
theorem Holding.enterpoint (h : Holding L n label vec s) (hn : 0 < n) :
    ∃ maxlevel : ℕ, s.maxlevel = maxlevel ∧
      IsNode s.element_levels n maxlevel s.enterpoint_node := by
  rcases h.entry with ⟨rfl, -⟩ | ⟨hep, hmax⟩
  · exact absurd hn (lt_irrefl 0)
  · exact ⟨_, hmax, hep, le_refl _⟩

/-- The state after a new element has been linked, for the memory and the entry point at the end. -/
theorem Created.holding (hL : L.WellFormed) {m' m'' : Memory Region} {curlevel : ℕ}
    (h : Created L n curlevel x v s.memory m') (hs : Holding L n label vec s)
    (hfresh : s.label_lookup x = none) (hframe : Modifies (L.parts fun _ _ => True) m' m'')
    {lim : ℕ → ℕ} (hintact : Intact L (Function.update s.element_levels n curlevel) (n + 1) lim m'')
    (pool : VisitedListPool L.max_elements) {e : ℕ} (he : e < n + 1) {maxlevel : ℤ}
    (hmax : maxlevel = Function.update s.element_levels n curlevel e)
    (hhigh : s.maxlevel ≤ maxlevel ∧ (curlevel : ℤ) ≤ maxlevel) :
    Holding L (n + 1) (Function.update label n x) (Function.update vec n v)
      { s.reserve x curlevel with
        memory := m'', visited_list_pool := pool, enterpoint_node := e, maxlevel := maxlevel } := by
  obtain rfl := hs.count
  have hlabel : ∀ i < s.cur_element_count + 1, word m'' (L.labelSpan i) =
      Function.update label s.cur_element_count x i := by
    intro i hi
    rw [word_label hL hframe]
    rcases Nat.lt_succ_iff_lt_or_eq.mp hi with hi | rfl
    · rw [Function.update_of_ne (by omega), word,
        h.others i (by omega) _ (Or.inl (label_within hL i))]
      exact hs.stored i hi
    · rw [Function.update_self]
      exact h.label
  have hdata : ∀ i < s.cur_element_count + 1, bytes m'' (L.dataSpan i) =
      Function.update vec s.cur_element_count v i := by
    intro i hi
    rw [bytes_data hL hframe]
    rcases Nat.lt_succ_iff_lt_or_eq.mp hi with hi | rfl
    · rw [Function.update_of_ne (by omega), h.others i (by omega) _ (Or.inl (data_within hL i))]
      exact hs.vectors i hi
    · rw [Function.update_self]
      exact h.data
  have hunused : ∀ i < s.cur_element_count, label i ≠ x := fun i hi heq => by
    rw [(hs.lookup x i).mpr ⟨hi, heq⟩] at hfresh
    cases hfresh
  refine ⟨rfl, hintact.raise hintact.bound fun _ => le_refl _, hlabel, hdata, fun y i => ?_,
    fun i hi => ?_, Or.inr ⟨he, hmax⟩⟩
  · show Function.update s.label_lookup x (some s.cur_element_count) y = some i ↔ _
    by_cases hy : y = x
    · subst hy
      rw [Function.update_self]
      constructor
      · rintro ⟨⟩
        exact ⟨Nat.lt_succ_self _, Function.update_self ..⟩
      · rintro ⟨hi, heq⟩
        rcases Nat.lt_succ_iff_lt_or_eq.mp hi with hi | rfl
        · rw [Function.update_of_ne (by omega)] at heq
          exact absurd heq (hunused i hi)
        · rfl
    · rw [Function.update_of_ne hy, hs.lookup]
      constructor
      · rintro ⟨hi, heq⟩
        exact ⟨by omega, by rw [Function.update_of_ne (by omega)]; exact heq⟩
      · rintro ⟨hi, heq⟩
        rcases Nat.lt_succ_iff_lt_or_eq.mp hi with hi | rfl
        · rw [Function.update_of_ne (by omega)] at heq
          exact ⟨hi, heq⟩
        · rw [Function.update_self] at heq
          exact absurd heq.symm hy
  · show (Function.update s.element_levels s.cur_element_count curlevel i : ℤ) ≤ maxlevel
    rcases Nat.lt_succ_iff_lt_or_eq.mp hi with hi | rfl
    · rw [Function.update_of_ne (by omega)]
      exact (hs.highest i hi).trans hhigh.1
    · rw [Function.update_self]
      exact hhigh.2

/-- **The new element is linked**, and becomes the entry point if it is the highest. -/
theorem Created.linked_holding (hL : L.WellFormed) {m' : Memory Region} {curlevel : ℕ}
    (h : Created L n curlevel x v s.memory m') (hs : Holding L n label vec s)
    (hfresh : s.label_lookup x = none) (hn : n < L.max_elements) :
    ∃ s', Returns (linkElement P fstdistfunc s m' x curlevel v) s' ∧
      Holding L (n + 1) (Function.update label n x) (Function.update vec n v) s' := by
  have hintact := h.intact hL hn hs.intact
  have hnew : (curlevel : ℤ) = Function.update s.element_levels n curlevel n := by
    rw [Function.update_self]
  unfold linkElement
  rcases hs.entry with ⟨rfl, hep, hmax⟩ | ⟨hep, hmax⟩
  · -- the first element
    have hheld := h.holding hL hs hfresh (Modifies.refl _ m') hintact s.visited_list_pool
      (Nat.lt_succ_self 0) hnew ⟨by omega, le_refl _⟩
    refine ⟨_, ?_, hheld⟩
    dsimp only
    rw [if_neg (not_not.mpr hep)]
    refine (returns_pure _).bind ?_
    rw [hmax, if_pos (by omega), hs.count]
    exact returns_pure _
  · have hepoint : s.enterpoint_node ≠ noElement := by
      have := hL.max_lt
      unfold noElement
      omega
    have hold : Function.update s.element_levels n curlevel s.enterpoint_node =
        s.element_levels s.enterpoint_node := Function.update_of_ne (by omega) ..
    set maxlevel := s.element_levels s.enterpoint_node with hml
    obtain ⟨currObj, hdescend, hobj⟩ := startObject_returns fstdistfunc hL hintact.toGraph v
      (n := n) (fun _ => rfl)
      (show ∀ id < n, some n ≠ some id from fun id hid heq => by injection heq with heq; omega)
      curlevel (show IsNode _ n maxlevel s.enterpoint_node from ⟨hep, hold.ge⟩)
    have hmark := hintact.isMarkedDeleted_returns hL (show s.enterpoint_node < n + 1 by omega)
    obtain ⟨c, lim, hconnect, hintact', hframe⟩ := connectBelow_intact fstdistfunc
      hL (P := P) (Nat.lt_succ_self n) v s.enterpoint_node (k := min curlevel maxlevel + 1)
      (fun l hl => by rw [Function.update_self]; omega)
      (show ∀ l < min curlevel maxlevel + 1, (l : ℤ) ≤ (maxlevel : ℤ) from fun l hl => by omega)
      (s := ⟨currObj, m', s.visited_list_pool⟩) hintact (fun _ _ => rfl)
      (fun l hl => h.blank l (by omega))
      (fun l hl => ⟨hobj.1, by
        have := hobj.2
        show l ≤ Function.update s.element_levels n curlevel currObj
        omega⟩)
    rw [if_pos hepoint, hs.count, hmax]
    have hlevels : (s.reserve x curlevel).element_levels =
        Function.update s.element_levels n curlevel := by
      show Function.update s.element_levels s.cur_element_count curlevel = _
      rw [hs.count]
    rw [← hlevels] at hconnect
    rw [show (min (curlevel : ℤ) maxlevel + 1).toNat = min curlevel maxlevel + 1 by omega]
    refine ⟨_, hdescend.bind (hmark.bind (hconnect.bind
      ((returns_pure _).bind (returns_pure _)))), ?_⟩
    split
    · next hhigh =>
      exact h.holding hL hs hfresh hframe hintact' c.visited_list_pool (Nat.lt_succ_self n) hnew
        ⟨by omega, le_refl _⟩
    · next hlow =>
      have hheld := h.holding hL hs hfresh hframe hintact' c.visited_list_pool
        (e := s.enterpoint_node) (by omega) (show s.maxlevel = _ by rw [hold, hmax])
        ⟨le_refl _, by omega⟩
      exact hheld

/-- **A new label**, while there is room. -/
theorem Holding.addNew (hL : L.WellFormed) (hs : Holding L n label vec s) (hn : n < L.max_elements)
    (hx : x < 2 ^ 64) (hv : v.length = L.data_size) (hfresh : s.label_lookup x = none)
    (updatePoint : HierarchicalNSW L → List UInt8 → ℕ → Run (HierarchicalNSW L)) :
    ∃ s', Returns (addPoint P fstdistfunc updatePoint s v x) s' ∧
      Holding L (n + 1) (Function.update label n x) (Function.update vec n v) s' := by
  obtain ⟨m', hstore, hcreated⟩ := createElement_returns (m := s.memory) hL hn hs.intact.level0 hx hv
    (s.level_generator 0).level
  obtain ⟨s', hlink, hheld⟩ := hcreated.linked_holding fstdistfunc (P := P) hL hs
    hfresh hn
  obtain rfl := hs.count
  exact ⟨s', addPoint_fresh updatePoint hfresh hn rfl hstore hlink, hheld⟩

/-- **A label that is there**: its vector is replaced. -/
theorem Holding.addAgain (hL : L.WellFormed) (hs : Holding L n label vec s)
    (hv : v.length = L.data_size) {id : ℕ} (hlookup : s.label_lookup x = some id)
    (C : UpdateChoices) :
    ∃ s', Returns (addPoint P fstdistfunc (updateExisting P fstdistfunc C) s v x) s' ∧
      Holding L n label (Function.update vec id v) s' := by
  obtain ⟨hid, -⟩ := (hs.lookup x id).mp hlookup
  obtain ⟨maxlevel, hmax, hep⟩ := hs.enterpoint (by omega)
  have hhigh : s.element_levels id ≤ maxlevel := by
    have := hs.highest id hid
    omega
  obtain ⟨m', pool, hupdate, hintact, hnew, hsame, hlabel⟩ := updatePoint_returns fstdistfunc hL
    (P := P) (C := C) hs.intact hmax hep hid hhigh hv
  refine ⟨{ s with memory := m', visited_list_pool := pool }, ?_, hs.count, hintact,
    fun i hi => (hlabel i).trans (hs.stored i hi), fun i hi => ?_, hs.lookup, hs.highest, hs.entry⟩
  · have hexisting : Returns (updateExisting P fstdistfunc C s v id)
        { s with memory := m', visited_list_pool := pool } :=
      (hs.intact.isMarkedDeleted_returns hL hid).bind ((returns_pure _).bind hupdate)
    refine Returns.bind (a := (id, { s with memory := m', visited_list_pool := pool })) ?_
      (returns_pure _)
    unfold addPointAt
    rw [hlookup]
    exact hexisting.bind (returns_pure _)
  · by_cases hi' : i = id
    · rw [hi', Function.update_self]
      exact hnew
    · rw [Function.update_of_ne hi']
      exact (hsame i hi').trans (hs.vectors i hi)

/-- A new label in an index that is full. -/
theorem Holding.addFull (hs : Holding L n label vec s) (hn : n = L.max_elements)
    (hfresh : s.label_lookup x = none)
    (updatePoint : HierarchicalNSW L → List UInt8 → ℕ → Run (HierarchicalNSW L)) :
    Fails (addPoint P fstdistfunc updatePoint s v x)
      (.exception "The number of elements exceeds the specified limit") := by
  refine Fails.bind ?_
  unfold addPointAt
  rw [hfresh]
  dsimp only
  rw [if_pos (by rw [hs.count, hn])]
  exact fails_fault _

end Call

-- ---------------------------------------------------------------------------
-- The map
-- ---------------------------------------------------------------------------

/-- The map that a sequence of assignments leaves. -/
def contents (calls : List Insertion) : ℕ → Option (List UInt8) :=
  calls.foldl (fun map call => Function.update map call.label (some call.data_point)) fun _ => none

/-- The labels that occur. -/
def labels (calls : List Insertion) : Finset ℕ := (calls.map Insertion.label).toFinset

@[simp] theorem contents_concat (calls : List Insertion) (call : Insertion) :
    contents (calls ++ [call]) =
      Function.update (contents calls) call.label (some call.data_point) := by
  simp [contents]

@[simp] theorem labels_concat (calls : List Insertion) (call : Insertion) :
    labels (calls ++ [call]) = insert call.label (labels calls) := by
  ext x
  simp [labels]

theorem contents_isSome_iff (calls : List Insertion) (x : ℕ) :
    (contents calls x).isSome = true ↔ x ∈ labels calls := by
  induction calls using List.reverseRecOn with
  | nil => simp [contents, labels]
  | append_singleton calls call ih =>
    rw [contents_concat, labels_concat, Finset.mem_insert, ← ih]
    by_cases hx : x = call.label
    · simp [hx]
    · simp [hx]

theorem labels_mono {calls rest : List Insertion} : labels calls ⊆ labels (calls ++ rest) := by
  intro x hx
  simp only [labels, List.mem_toFinset, List.map_append, List.mem_append] at hx ⊢
  exact Or.inl hx

/-- The vectors and labels are those of the map. -/
def Represents (n : ℕ) (label : ℕ → ℕ) (vec : ℕ → List UInt8) (map : ℕ → Option (List UInt8)) :
    Prop :=
  ∀ x v, map x = some v ↔ ∃ i < n, label i = x ∧ vec i = v

/-- **The refinement**: an index that stands for the map the calls have left. -/
def Mapped (L : Layout) (calls : List Insertion) (s : HierarchicalNSW L) : Prop :=
  ∃ label vec, Holding L (labels calls).card label vec s ∧
    Represents (labels calls).card label vec (contents calls)

section Map

variable {n : ℕ} {label : ℕ → ℕ} {vec : ℕ → List UInt8} {map : ℕ → Option (List UInt8)}

theorem Represents.assignNew (h : Represents n label vec map) {x : ℕ} (hx : map x = none)
    (v : List UInt8) : Represents (n + 1) (Function.update label n x) (Function.update vec n v)
      (Function.update map x (some v)) := by
  intro y w
  by_cases hy : y = x
  · subst hy
    rw [Function.update_self]
    constructor
    · rintro ⟨⟩
      exact ⟨n, Nat.lt_succ_self n, Function.update_self .., Function.update_self ..⟩
    · rintro ⟨i, hi, hlabel, rfl⟩
      rcases Nat.lt_succ_iff_lt_or_eq.mp hi with hi | rfl
      · rw [Function.update_of_ne (by omega)] at hlabel
        rw [(h y (vec i)).mpr ⟨i, hi, hlabel, rfl⟩] at hx
        cases hx
      · rw [Function.update_self]
  · rw [Function.update_of_ne hy, h]
    constructor
    · rintro ⟨i, hi, hlabel, hvec⟩
      refine ⟨i, by omega, ?_, ?_⟩
      · rw [Function.update_of_ne (by omega)]
        exact hlabel
      · rw [Function.update_of_ne (by omega)]
        exact hvec
    · rintro ⟨i, hi, hlabel, hvec⟩
      rcases Nat.lt_succ_iff_lt_or_eq.mp hi with hi | rfl
      · rw [Function.update_of_ne (by omega)] at hlabel hvec
        exact ⟨i, hi, hlabel, hvec⟩
      · rw [Function.update_self] at hlabel
        exact absurd hlabel.symm hy

theorem Represents.assignAgain (h : Represents n label vec map) {x id : ℕ} (hid : id < n)
    (hx : label id = x) (honly : ∀ i < n, label i = x → i = id) (v : List UInt8) :
    Represents n label (Function.update vec id v) (Function.update map x (some v)) := by
  intro y w
  by_cases hy : y = x
  · subst hy
    rw [Function.update_self]
    constructor
    · rintro ⟨⟩
      exact ⟨id, hid, hx, Function.update_self ..⟩
    · rintro ⟨i, hi, hlabel, rfl⟩
      rw [honly i hi hlabel, Function.update_self]
  · rw [Function.update_of_ne hy, h]
    refine exists_congr fun i => and_congr_right fun hi => and_congr_right fun hlabel => ?_
    rw [Function.update_of_ne]
    rintro rfl
    exact hy (hlabel.symm.trans hx)

variable {L : Layout} {s : HierarchicalNSW L}

/-- What the lookup table knows is what the map holds. -/
theorem Holding.lookup_none (hs : Holding L n label vec s) (h : Represents n label vec map)
    {x : ℕ} : s.label_lookup x = none ↔ map x = none := by
  constructor
  · intro hnone
    cases hmap : map x with
    | none => rfl
    | some v =>
      obtain ⟨i, hi, hlabel, -⟩ := (h x v).mp hmap
      rw [(hs.lookup x i).mpr ⟨hi, hlabel⟩] at hnone
      cases hnone
  · intro hnone
    cases hlookup : s.label_lookup x with
    | none => rfl
    | some i =>
      obtain ⟨hi, hlabel⟩ := (hs.lookup x i).mp hlookup
      rw [(h x (vec i)).mpr ⟨i, hi, hlabel, rfl⟩] at hnone
      cases hnone

variable {K : Type} [Preorder K] [DecidableLT K] [Neg K] {P : Platform K}
  (fstdistfunc : List UInt8 → List UInt8 → K) {calls : List Insertion}

/-- **One call** is one assignment, or there is no room for a label that is new. -/
theorem addPoint_step (hL : L.WellFormed) (hs : Mapped L calls s) {call : Insertion}
    (hlabel : call.label < 2 ^ 64) (hdata : call.data_point.length = L.data_size)
    (hcap : (labels calls).card ≤ L.max_elements) :
    (∃ s', Returns (addPoint P fstdistfunc (updateExisting P fstdistfunc call.choices) s
        call.data_point call.label) s' ∧ Mapped L (calls ++ [call]) s' ∧
      (labels (calls ++ [call])).card ≤ L.max_elements) ∨
    (Fails (addPoint P fstdistfunc (updateExisting P fstdistfunc call.choices) s
        call.data_point call.label)
        (.exception "The number of elements exceeds the specified limit") ∧
      L.max_elements < (labels (calls ++ [call])).card) := by
  obtain ⟨label, vec, hheld, hmap⟩ := hs
  unfold Mapped
  rw [labels_concat, contents_concat]
  cases hlookup : s.label_lookup call.label with
  | some id =>
    obtain ⟨hid, hx⟩ := (hheld.lookup _ id).mp hlookup
    have hin : call.label ∈ labels calls := by
      rw [← contents_isSome_iff, (hmap _ _).mpr ⟨id, hid, hx, rfl⟩]
      rfl
    obtain ⟨s', hret, hheld'⟩ := hheld.addAgain fstdistfunc (P := P) hL hdata
      hlookup call.choices
    rw [Finset.insert_eq_of_mem hin]
    refine Or.inl ⟨s', hret, ⟨label, _, hheld',
      hmap.assignAgain hid hx (fun i hi heq => ?_) _⟩, hcap⟩
    have := (hheld.lookup _ i).mpr ⟨hi, heq⟩
    rw [hlookup] at this
    exact (Option.some.inj this).symm
  | none =>
    have hnone := (hheld.lookup_none hmap).mp hlookup
    have hout : call.label ∉ labels calls := by
      rw [← contents_isSome_iff, hnone]
      exact Bool.false_ne_true
    rw [Finset.card_insert_of_notMem hout]
    rcases hcap.lt_or_eq with hroom | hfull
    · obtain ⟨s', hret, hheld'⟩ := hheld.addNew fstdistfunc (P := P) hL hroom hlabel
        hdata hlookup (updateExisting P fstdistfunc call.choices)
      exact Or.inl ⟨s', hret, ⟨_, _, hheld', hmap.assignNew hnone _⟩, hroom⟩
    · exact Or.inr ⟨hheld.addFull fstdistfunc hfull hlookup _, by omega⟩

/-- **Any sequence of calls**, up to the first new label for which there is no room. -/
theorem addPoints_holding (hL : L.WellFormed) (draws : ℕ → LevelDraw)
    (hlabel : ∀ call ∈ calls, call.label < 2 ^ 64)
    (hdata : ∀ call ∈ calls, call.data_point.length = L.data_size) :
    (∃ s, Returns (addPoints P L fstdistfunc draws calls) s ∧ Mapped L calls s ∧
      (labels calls).card ≤ L.max_elements) ∨
    (Fails (addPoints P L fstdistfunc draws calls)
        (.exception "The number of elements exceeds the specified limit") ∧
      L.max_elements < (labels calls).card) := by
  rcases foldlM_ends
    (fun pre (s : HierarchicalNSW L) => Mapped L pre s ∧ (labels pre).card ≤ L.max_elements)
    (fun e => e = .exception "The number of elements exceeds the specified limit" ∧
      L.max_elements < (labels calls).card)
    (l := calls) (f := fun s call => addPoint P fstdistfunc
      (updateExisting P fstdistfunc call.choices) s call.data_point call.label)
    (fun pre call post s hsplit ⟨hs, hcap⟩ => by
      have hmem : call ∈ calls := by
        rw [hsplit]
        exact List.mem_append_right _ List.mem_cons_self
      rcases addPoint_step fstdistfunc (P := P) hL hs (hlabel call hmem)
        (hdata call hmem) hcap with ⟨s', hret, hs', hcap'⟩ | ⟨hfail, hmore⟩
      · exact Or.inl ⟨s', hret, hs', hcap'⟩
      · refine Or.inr ⟨_, hfail, rfl, hmore.trans_le (Finset.card_le_card ?_)⟩
        have hrest : calls = (pre ++ [call]) ++ post := by rw [hsplit, List.append_cons]
        rw [hrest]
        exact labels_mono)
    (s := HierarchicalNSW.new P L draws)
    ⟨⟨fun _ => 0, fun _ => [], Holding.new draws _ _, fun x v => by simp [contents, labels]⟩,
      by simp [labels]⟩ with ⟨s, hret, hs, hcap⟩ | ⟨e, hfail, rfl, hmore⟩
  · exact Or.inl ⟨s, hret, hs, hcap⟩
  · exact Or.inr ⟨hfail, hmore⟩

/-- `getDataByLabel` reads the map. -/
theorem Mapped.getDataByLabel (hL : L.WellFormed) (hs : Mapped L calls s) (x : ℕ) :
    Ends (s.getDataByLabel x) (match contents calls x with
      | some v => .ok v
      | none => .error (.exception "Label not found")) := by
  obtain ⟨label, vec, hheld, hmap⟩ := hs
  unfold HierarchicalNSW.getDataByLabel
  cases hlookup : s.label_lookup x with
  | none =>
    rw [(hheld.lookup_none hmap).mp hlookup]
    exact fails_fault _
  | some id =>
    obtain ⟨hid, hx⟩ := (hheld.lookup x id).mp hlookup
    rw [(hmap x (vec id)).mpr ⟨id, hid, hx, rfl⟩, ← hheld.vectors id hid]
    exact (hheld.intact.isMarkedDeleted_returns hL hid).bind
      (hheld.intact.getDataByInternalId_returns hL hid)

/-- **The map.** As many labels as there is room for: afterwards each of them leads to the vector
that was added last under it. With more labels the calls fail. -/
theorem addPoints_map (hL : L.WellFormed) (draws : ℕ → LevelDraw)
    (hlabel : ∀ call ∈ calls, call.label < 2 ^ 64)
    (hdata : ∀ call ∈ calls, call.data_point.length = L.data_size) :
    ((labels calls).card ≤ L.max_elements →
      ∃ s, Returns (addPoints P L fstdistfunc draws calls) s ∧
        s.cur_element_count = (labels calls).card ∧
        ∀ x, Ends (s.getDataByLabel x) (match contents calls x with
          | some v => .ok v
          | none => .error (.exception "Label not found"))) ∧
    (L.max_elements < (labels calls).card → Fails (addPoints P L fstdistfunc draws calls)
      (.exception "The number of elements exceeds the specified limit")) := by
  rcases addPoints_holding fstdistfunc (P := P) hL draws hlabel hdata with
    ⟨s, hret, hs, hcap⟩ | ⟨hfail, hmore⟩
  · refine ⟨fun _ => ⟨s, hret, ?_, hs.getDataByLabel hL⟩,
      fun hmore => absurd hcap (not_le.mpr hmore)⟩
    obtain ⟨_, _, hheld, -⟩ := hs
    exact hheld.count
  · exact ⟨fun hcap => absurd hcap (not_le.mpr hmore), fun _ => hfail⟩

end Map

-- ---------------------------------------------------------------------------
-- Three calls under two labels
-- ---------------------------------------------------------------------------

/-- The vector under the label 10 is replaced. -/
def lineCalls : List Insertion :=
  let choices : UpdateChoices := ⟨id, List.Perm.refl, fun _ _ => false⟩
  [⟨10, [0], choices⟩, ⟨20, [7], choices⟩, ⟨10, [14], choices⟩]

theorem lineLayout_wellFormed : (Layout.new linePlatform.mult 1 4 1 2).WellFormed :=
  Layout.new_wellFormed _ (by decide) (by decide) (le_refl 1) (by decide)

theorem addPoints_map_line :
    let L := Layout.new linePlatform.mult 1 4 1 2
    ∃ s, Returns (addPoints linePlatform L lineDistance (fun _ => baseLevel) lineCalls) s ∧
      s.cur_element_count = 2 ∧ Returns (s.getDataByLabel 10) [14] ∧
      Returns (s.getDataByLabel 20) [7] ∧
      Fails (s.getDataByLabel 30) (.exception "Label not found") := by
  intro L
  obtain ⟨s, hret, hcount, hread⟩ := (addPoints_map (P := linePlatform) lineDistance
    lineLayout_wellFormed (fun _ => baseLevel)
    (show ∀ call ∈ lineCalls, call.label < 2 ^ 64 by decide)
    (show ∀ call ∈ lineCalls, call.data_point.length = 1 by decide)).1
    (show (labels lineCalls).card ≤ 4 by decide)
  exact ⟨s, hret, hcount, hread 10, hread 20, hread 30⟩

end Mqo.Index
