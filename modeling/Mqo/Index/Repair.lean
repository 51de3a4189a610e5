import Mqo.Index.Update

/-!
# MQO — linking an updated element again

`repairConnectionsForUpdate` walks down to the level of the element, and on each of its levels the
element gets a new list, and a place in those of its new neighbours unless it is there already.

* `repairStart_returns`       — the way down takes the steps of that of an insertion;
* `connectBack_again`         — a neighbour that leads to the element keeps its list;
* `mutuallyConnect_again`     — a level of the element is linked again;
* `updatePoint_returns`       — after an update the graph is intact, and one vector has changed.
-/

namespace Mqo.Index

open Prog Memory ByteStream
open Mqo.Search.Hnsw (VisitedListPool)

section Repair

variable {K : Type} [Preorder K] [DecidableLT K] [Neg K]
  {P : Platform K} {L : Layout} (fstdistfunc : List UInt8 → List UInt8 → K) {C : UpdateChoices}
  {levels : ℕ → ℕ} {N : ℕ} {m : Memory Region}

-- ---------------------------------------------------------------------------
-- The way down
-- ---------------------------------------------------------------------------

section Descent

omit [Neg K]

variable {fstdistfunc} {data_point : List UInt8}

/-- The two functions differ in a check that an insertion makes. -/
theorem repairLink_of_greedy {s r : (ℕ × K) × Bool} {cand : ℕ}
    (h : Returns (greedyLink L fstdistfunc m data_point s cand) r) :
    Returns (repairLink L fstdistfunc m data_point s cand) r := by
  unfold greedyLink at h
  split at h
  · exact absurd (fails_fault _) h.not_fails
  · exact h

theorem repairStep_of_greedy {level : ℕ} {s : ℕ × K} {r : (ℕ × K) ⊕ (ℕ × K)}
    (h : Returns (greedyStep L fstdistfunc m none data_point (level + 1) s) r) :
    Returns (repairStep L fstdistfunc m data_point (level + 1) s) r := by
  obtain ⟨_, hlock, h⟩ := Returns.of_bind h
  obtain ⟨datal, hlinks, h⟩ := Returns.of_bind h
  obtain ⟨q, hfold, h⟩ := Returns.of_bind h
  obtain ⟨q', hfold', rfl⟩ := foldlM_sim (g := repairLink L fstdistfunc m data_point) Eq
    (fun s t x _ s' hst hx => ⟨s', hst ▸ repairLink_of_greedy hx, rfl⟩) rfl hfold
  exact hlock.bind (hlinks.bind (hfold'.bind h))

theorem repairLoop_of_greedy {level : ℕ} {s r : ℕ × K}
    (h : Returns (loop (greedyStep L fstdistfunc m none data_point (level + 1)) s) r) :
    Returns (loop (repairStep L fstdistfunc m data_point (level + 1)) s) r := by
  obtain ⟨r', hret, rfl⟩ : ∃ r', Returns
      (loop (repairStep L fstdistfunc m data_point (level + 1)) s) r' ∧ r = r' := loop_sim Eq Eq
    (fun s t s' hst hx => ⟨s', hst ▸ repairStep_of_greedy hx, rfl⟩)
    (fun s t r hst hx => ⟨r, hst ▸ repairStep_of_greedy hx, rfl⟩) rfl h
  exact hret

theorem repairDescent_of_greedy {level k : ℕ} {s r : ℕ × K}
    (h : Returns (descendTo L fstdistfunc m none data_point level k s) r) :
    Returns (repairDescent L fstdistfunc m data_point level k s) r := by
  induction k generalizing s with
  | zero => exact h
  | succ k ih =>
    obtain ⟨s', hloop, h⟩ := Returns.of_bind h
    exact (repairLoop_of_greedy hloop).bind (ih h)

theorem repairStart_of_greedy {enterpoint_node level : ℕ} {maxlevel : ℤ} {r : ℕ}
    (h : Returns (startObject L fstdistfunc m none data_point enterpoint_node level maxlevel) r) :
    Returns (repairStart L fstdistfunc m data_point enterpoint_node level maxlevel) r := by
  unfold startObject at h
  unfold repairStart
  split at h
  · next hlt =>
    obtain ⟨curdist, hdist, h⟩ := Returns.of_bind h
    obtain ⟨q, hdescent, h⟩ := Returns.of_bind h
    rw [if_pos hlt]
    exact hdist.bind ((repairDescent_of_greedy hdescent).bind h)
  · next hge =>
    rw [if_neg hge]
    exact h

end Descent

omit [Neg K] in
/-- **The way down** ends at an element that reaches the level. -/
theorem repairStart_returns (hL : L.WellFormed) (h : Graph L levels N (fun _ => N) m)
    (data_point : List UInt8) {level enterpoint_node maxlevel : ℕ}
    (hep : IsNode levels N maxlevel enterpoint_node) (hlevel : level ≤ maxlevel) :
    ∃ currObj, Returns (repairStart L fstdistfunc m data_point enterpoint_node level maxlevel)
        currObj ∧ IsNode levels N level currObj := by
  obtain ⟨currObj, hret, hnode⟩ := startObject_returns fstdistfunc hL h data_point (fun _ => rfl)
    (show ∀ id < N, none ≠ some id from fun _ _ => nofun) level hep
  rw [Nat.min_eq_left hlevel] at hnode
  exact ⟨currObj, repairStart_of_greedy hret, hnode⟩

-- ---------------------------------------------------------------------------
-- One level
-- ---------------------------------------------------------------------------

section Level

variable (hL : L.WellFormed)

include hL

omit [Preorder K] [DecidableLT K] [Neg K] in
/-- The list of the element is overwritten; nothing is checked but the levels. -/
theorem writeNewList_again (h : Graph L levels N (fun _ => N) m) {cur_c level : ℕ}
    (hcur : IsNode levels N level cur_c) {selected : List ℕ} (hlength : selected.length ≤ L.M)
    (hsel : ∀ v ∈ selected, IsNode levels N level v) :
    ∃ m', Returns (writeNewList L levels m cur_c level true selected) m' ∧
      Rewrites L cur_c level m m' selected := by
  have hhold := h.holds_list hL hcur.1 hcur.2
  have hroom := hlength.trans (M_le_Mcurmax hL level)
  have hhead := loadWord_returns (hhold.within (Pointer.headSpan_within _ _))
  obtain ⟨m₁, hsize, hframe₁, hcount₁, -⟩ :=
    setListCount_returns hhold (hroom.trans_lt (Mcurmax_lt hL level))
  have hhold₁ := hframe₁.holds.mpr hhold
  obtain ⟨m₂, hwrite, hframe₂, hcount₂, -, hlink₂⟩ := writeLinks_returns
    (checkNewLink levels (L.getLinklistAtLevel cur_c level) level true)
    (fun v hv => h.id_lt hL (hsel v hv).1) 0 (by omega) hhold₁
    (fun m' j id _ hj hid hm' _ => by
      refine (getLink_returns hm' hj).bind ?_
      rw [if_neg (by simp), if_neg (not_lt.mpr (hsel id hid).2)]
      exact returns_pure ())
  refine ⟨m₂, hhead.bind ?_, ?_, links_eq (hcount₂.trans hcount₁) fun j hj => ?_⟩
  · rw [if_neg (by simp)]
    exact hsize.bind hwrite
  · exact parts_of_list ((hframe₁.mono fun w hw => ⟨w, Or.inl hw, Within.refl w⟩).trans
      (hframe₂.mono fun w hw => ⟨w, Or.inr hw, Within.refl w⟩))
  · have hj' := hlink₂ j hj
    rw [Nat.zero_add] at hj'
    exact hj'

/-- **The link back** to an element that may be linked already. -/
theorem connectBack_again (h : Graph L levels N (fun _ => N) m) {cur_c other level : ℕ}
    (hother : IsNode levels N level other) (hcur : cur_c < N) (hne : other ≠ cur_c) :
    ∃ m' ids, Returns (connectBack P L fstdistfunc levels none cur_c level true m other) m' ∧
      Rewrites L other level m m' ids ∧ ids.length ≤ L.Mcurmax level ∧
      LinkedBack cur_c (links m (L.getLinklistAtLevel other level)) ids ∧
      ((links m (L.getLinklistAtLevel other level)).Nodup → ids.Nodup) := by
  have hfits := h.fits hL hother.1 hother.2
  have hcount := getListCount_returns hfits.holds
  have hlinks := h.getLinks_returns hL hother.1 hother.2
  by_cases hmem : cur_c ∈ links m (L.getLinklistAtLevel other level)
  · refine ⟨m, _, ?_, ⟨Modifies.refl _ m, rfl⟩, ?_, ⟨List.ne_nil_of_mem hmem,
      Multiset.le_cons_self _ _⟩, id⟩
    · refine (lockLinks_returns (by rintro ⟨⟩)).bind (hcount.bind ?_)
      rw [if_neg (not_lt.mpr hfits.count_le), if_neg hne, if_neg (not_lt.mpr hother.2)]
      refine hlinks.bind ?_
      rw [if_pos ⟨rfl, hmem⟩]
      exact returns_pure m
    · rw [length_links]
      exact hfits.count_le
  · obtain ⟨m', ids, hret, hrew, hroom, hback⟩ := connectBack_returns fstdistfunc hL h (P := P)
      (show none ≠ some other from nofun) hother hcur hne
    refine ⟨m', ids, ?_, hrew, hroom, hback, fun hnodup => Multiset.coe_nodup.mp
      (Multiset.nodup_of_le hback.among (Multiset.nodup_cons.mpr
        ⟨hmem, Multiset.coe_nodup.mpr hnodup⟩))⟩
    -- without the element in the list, the two kinds of call take the same branches
    refine (lockLinks_returns (by rintro ⟨⟩)).bind (hcount.bind ?_)
    rw [if_neg (not_lt.mpr hfits.count_le), if_neg hne, if_neg (not_lt.mpr hother.2)]
    refine hlinks.bind ?_
    rw [if_neg fun hand => hmem hand.2]
    obtain ⟨_, -, hret⟩ := Returns.of_bind hret
    obtain ⟨sz, hsz, hret⟩ := Returns.of_bind hret
    obtain rfl := hsz.unique hcount
    rw [if_neg (not_lt.mpr hfits.count_le), if_neg hne, if_neg (not_lt.mpr hother.2)] at hret
    obtain ⟨data, hdata, hret⟩ := Returns.of_bind hret
    obtain rfl := hdata.unique hlinks
    rwa [if_neg (by simp)] at hret

/-- **A level of the element** is linked again, to other elements found on it. -/
theorem mutuallyConnect_again (h : Intact L levels N (fun _ => N) m) {cur_c level : ℕ}
    (hcur : IsNode levels N level cur_c) {top_candidates : P.byFirst.Heap}
    (hne : 0 < P.byFirst.size top_candidates)
    (htop : ∀ e ∈ P.byFirst.elems top_candidates, IsNode levels N level e.2 ∧ e.2 ≠ cur_c)
    (hnodup : ((P.byFirst.elems top_candidates).map Prod.snd).Nodup) :
    ∃ ep m', Returns (mutuallyConnectNewElement P L fstdistfunc levels none m cur_c top_candidates
        level true) (ep, m') ∧
      IsNode levels N level ep ∧ Intact L levels N (fun _ => N) m' ∧
      Modifies (L.parts fun _ _ => True) m m' := by
  have hids : ∀ id ∈ (P.byFirst.elems top_candidates).map Prod.snd,
      IsNode levels N level id ∧ id ≠ cur_c := by
    intro id hid
    obtain ⟨e, he, rfl⟩ := Multiset.mem_map.mp hid
    exact htop e he
  obtain ⟨r, hheur, hpos, hsize, hr⟩ := getNeighborsByHeuristic2_returns fstdistfunc hL h.toGraph
    (fun id hid => (hids id hid).1.1) hL.M_pos hne rfl
  set selected := (P.byFirst.drain r).map Prod.snd with hselected
  have hamong : (↑selected : Multiset ℕ) ≤ (P.byFirst.elems top_candidates).map Prod.snd := by
    rwa [hselected, ← Multiset.map_coe, P.byFirst.coe_drain]
  have hsel : ∀ v ∈ selected, IsNode levels N level v ∧ v ≠ cur_c := fun v hv =>
    hids v (Multiset.mem_of_le hamong (Multiset.mem_coe.mpr hv))
  have hlength : selected.length = P.byFirst.size r := by
    rw [hselected, List.length_map, P.byFirst.length_drain]
  have hnil : selected ≠ [] := List.ne_nil_of_length_pos (by omega)
  obtain ⟨m₁, hnew, hrew⟩ := writeNewList_again hL h.toGraph hcur
    (show selected.length ≤ L.M by omega) (fun v hv => (hsel v hv).1)
  have hintact₁ := h.rewrite hL hrew (by have := M_le_Mcurmax hL level; omega)
    (fun v hv => (hsel v hv).1)
    (Multiset.coe_nodup.mp (Multiset.nodup_of_le hamong hnodup)) (fun hv => (hsel cur_c hv).2 rfl)
  obtain ⟨m₂, hfold, hintact₂, hframe₂⟩ := foldlM_returns
    (f := connectBack P L fstdistfunc levels none cur_c level true) (l := selected)
    (fun _ m' => Intact L levels N (fun _ => N) m' ∧ Modifies (L.parts fun _ _ => True) m m')
    (fun pre other post m' hsplit ⟨hintact, hframe⟩ => by
      obtain ⟨hother, hoc⟩ := hsel other (by rw [hsplit]; simp)
      obtain ⟨m'', ids, hret, hrew', hroom, hback, hdistinct⟩ := connectBack_again fstdistfunc hL
        hintact.toGraph (P := P) hother hcur.1 hoc
      refine ⟨m'', hret, hintact.rewrite hL hrew' hroom (fun v hv => ?_)
        (hdistinct (hintact.nodup other hother.1 level hother.2)) (fun hv => ?_),
        hframe.trans (parts_mono hrew'.frame fun _ _ _ => trivial)⟩
      · rcases hback.mem hv with rfl | hv
        · exact hcur
        · exact hintact.target other hother.1 level hother.2 v hv
      · rcases hback.mem hv with heq | hv
        · exact hoc heq
        · exact hintact.irrefl other hother.1 level hother.2 hv)
    (s := m₁) ⟨hintact₁, parts_mono hrew.frame fun _ _ _ => trivial⟩
  refine ⟨selected.getLast hnil, m₂, hheur.bind ?_, (hsel _ (List.getLast_mem hnil)).1, hintact₂,
    hframe₂⟩
  rw [if_neg (not_lt.mpr hsize)]
  dsimp only
  rw [← hselected, List.getLast?_eq_some_getLast hnil]
  dsimp only
  rw [if_pos rfl]
  exact (lockLinks_returns (by rintro ⟨⟩)).bind (hnew.bind (hfold.bind (returns_pure _)))

-- ---------------------------------------------------------------------------
-- All levels
-- ---------------------------------------------------------------------------

omit [Preorder K] [DecidableLT K] [Neg K] hL in
/-- The candidates but for the element. -/
theorem elems_filterCandidates (id : ℕ) (topCandidates : P.byFirst.Heap) :
    P.byFirst.elems (filterCandidates P id topCandidates) =
      (P.byFirst.elems topCandidates).filter (fun e => e.2 ≠ id) := by
  have hfold : ∀ (l : List (K × ℕ)) (q : P.byFirst.Heap),
      P.byFirst.elems (l.foldl (fun filtered e =>
        if e.2 ≠ id then P.byFirst.push filtered e else filtered) q) =
      ↑(l.filter fun e => e.2 ≠ id) + P.byFirst.elems q := by
    intro l
    induction l with
    | nil => intro q; simp
    | cons e l ih =>
      intro q
      rw [List.foldl_cons, ih]
      by_cases he : e.2 = id
      · simp [he]
      · rw [if_pos he, P.byFirst.elems_push, List.filter_cons_of_pos (by simpa using he),
          ← Multiset.cons_coe, Multiset.add_cons, Multiset.cons_add]
  rw [filterCandidates, hfold, P.byFirst.elems_empty, add_zero, ← P.byFirst.coe_drain,
    Multiset.filter_coe]

/-- **The element at one level**: it is linked again where the search finds others. -/
theorem repairLevel_returns {s : ConnectState L} (h : Intact L levels N (fun _ => N) s.memory)
    (dataPoint : List UInt8) {ep id level : ℕ} (hep : ep < N) (hid : IsNode levels N level id)
    (hobj : IsNode levels N level s.currObj) :
    ∃ s', Returns (repairLevel P L fstdistfunc levels dataPoint ep id level s) s' ∧
      Intact L levels N (fun _ => N) s'.memory ∧ IsNode levels N level s'.currObj ∧
      Modifies (L.parts fun _ _ => True) s.memory s'.memory := by
  obtain ⟨r, -, hsearch, hr⟩ := searchBaseLayer_returns fstdistfunc hL h.toGraph dataPoint (P := P)
    (show ∀ id < N, none ≠ some id from fun _ _ => nofun) s.visited_list_pool hobj
  generalize (s.visited_list_pool.getFreeVisitedList P.newList).2.releaseVisitedList r.visited =
    pool' at hsearch
  have hfilter := elems_filterCandidates (P := P) id r.top_candidates
  by_cases hsome : 0 < P.byFirst.size (filterCandidates P id r.top_candidates)
  · obtain ⟨ep', m', hconnect, hnode, hintact, hframe⟩ := mutuallyConnect_again fstdistfunc hL h
      (P := P) hid hsome
      (fun e he => by
        rw [hfilter, Multiset.mem_filter] at he
        exact ⟨hr.top e he.1, he.2⟩)
      (Multiset.nodup_of_le (Multiset.map_le_map (hfilter ▸ Multiset.filter_le _ _)) hr.nodup)
    refine ⟨⟨ep', m', pool'⟩, hsearch.bind ?_, hintact, hnode, hframe⟩
    rw [if_pos hsome]
    exact (h.isMarkedDeleted_returns hL hep).bind ((returns_pure _).bind
      (hconnect.bind (returns_pure _)))
  · refine ⟨⟨s.currObj, s.memory, pool'⟩, hsearch.bind ?_, h, hobj, Modifies.refl _ _⟩
    rw [if_neg hsome]
    exact returns_pure _

/-- **The levels below `k`**, from the top. -/
theorem repairBelow_returns {s : ConnectState L} (h : Intact L levels N (fun _ => N) s.memory)
    (dataPoint : List UInt8) {ep id k : ℕ} (hep : ep < N) (hid : id < N) (hk : k ≤ levels id + 1)
    (hobj : s.currObj < N ∧ k ≤ levels s.currObj + 1) :
    ∃ s', Returns (repairBelow P L fstdistfunc levels dataPoint ep id k s) s' ∧
      Intact L levels N (fun _ => N) s'.memory ∧
      Modifies (L.parts fun _ _ => True) s.memory s'.memory := by
  induction k generalizing s with
  | zero => exact ⟨s, returns_pure s, h, Modifies.refl _ _⟩
  | succ k ih =>
    obtain ⟨s₁, hret, hintact, hnode, hframe⟩ := repairLevel_returns fstdistfunc hL h dataPoint
      (P := P) hep (show IsNode levels N k id from ⟨hid, by omega⟩) ⟨hobj.1, by omega⟩
    obtain ⟨s', hrest, hintact', hframe'⟩ := ih hintact (by omega)
      ⟨hnode.1, Nat.le_succ_of_le hnode.2⟩
    exact ⟨s', hret.bind hrest, hintact', hframe.trans hframe'⟩

end Level

-- ---------------------------------------------------------------------------
-- An update
-- ---------------------------------------------------------------------------

/-- **`updatePoint`** on an intact index: the vector of the element is the new one, and the graph is
intact again. -/
theorem updatePoint_returns (hL : L.WellFormed) {s : HierarchicalNSW L}
    (h : Intact L s.element_levels N (fun _ => N) s.memory) {maxlevel : ℕ}
    (hmax : s.maxlevel = maxlevel) (hep : IsNode s.element_levels N maxlevel s.enterpoint_node)
    {id : ℕ} (hid : id < N) (hlevel : s.element_levels id ≤ maxlevel) {dataPoint : List UInt8}
    (hdata : dataPoint.length = L.data_size) :
    ∃ m' pool, Returns (updatePoint P fstdistfunc C s dataPoint id)
        { s with memory := m', visited_list_pool := pool } ∧
      Intact L s.element_levels N (fun _ => N) m' ∧ bytes m' (L.dataSpan id) = dataPoint ∧
      (∀ i ≠ id, bytes m' (L.dataSpan i) = bytes s.memory (L.dataSpan i)) ∧
      ∀ i, word m' (L.labelSpan i) = word s.memory (L.labelSpan i) := by
  have htake : (dataPoint.take L.data_size).length = L.data_size := by
    rw [List.length_take, hdata, Nat.min_self]
  have hstore := store_returns htake ((h.holds_record hid).within (data_within hL id))
  set m₀ := put s.memory .data_level0_memory (L.dataSpan id).offset (dataPoint.take L.data_size)
    with hm₀
  have hframe₀ : Modifies {L.dataSpan id} s.memory m₀ := Modifies.of_put (Set.mem_singleton _)
    (by rw [htake]; exact Within.refl _)
  have hnew : bytes m₀ (L.dataSpan id) = dataPoint := by
    refine (bytes_put_self s.memory .data_level0_memory (L.dataSpan id).offset htake).trans ?_
    rw [← hdata, List.take_length]
  have hsame : ∀ i ≠ id, bytes m₀ (L.dataSpan i) = bytes s.memory (L.dataSpan i) :=
    fun i hi => hframe₀.bytes _ fun w hw => by
      rw [Set.mem_singleton_iff.mp hw]
      exact (slot_apart _ fun heq => hi heq.symm).within (data_within hL id) (data_within hL i)
  have hlabel : ∀ i, word m₀ (L.labelSpan i) = word s.memory (L.labelSpan i) :=
    fun i => hframe₀.word fun w hw => by
      rw [Set.mem_singleton_iff.mp hw]
      by_cases hi : id = i
      · rw [hi]
        exact label_apart_data hL
      · exact (slot_apart _ hi).within (data_within hL id) (label_within hL i)
  have hintact₀ := h.setData hL hframe₀
  by_cases halone : s.enterpoint_node = id ∧ s.cur_element_count = 1
  · refine ⟨m₀, s.visited_list_pool, hstore.bind ?_, hintact₀, hnew, hsame, hlabel⟩
    rw [if_pos halone]
    exact returns_pure _
  · obtain ⟨m₁, hlayers, hintact₁, hframe₁⟩ := updateLayers_returns fstdistfunc hL hintact₀ (P := P)
      (C := C) hid
    obtain ⟨currObj, hstart, hobj⟩ := repairStart_returns fstdistfunc hL hintact₁.toGraph dataPoint
      hep hlevel
    obtain ⟨c, hrepair, hintact₂, hframe₂⟩ := repairBelow_returns fstdistfunc hL (P := P)
      (s := ⟨currObj, m₁, s.visited_list_pool⟩) hintact₁ dataPoint hep.1 hid
      (k := s.element_levels id + 1) (le_refl _) ⟨hobj.1, Nat.succ_le_succ hobj.2⟩
    have hframe := hframe₁.trans hframe₂
    refine ⟨c.memory, c.visited_list_pool, hstore.bind ?_, hintact₂, ?_, fun i hi => ?_,
      fun i => ?_⟩
    · rw [if_neg halone, hmax]
      refine hlayers.bind (Returns.bind (hstart.bind ?_) (returns_pure _))
      rw [if_neg (by omega)]
      exact hrepair
    · rw [bytes_data hL hframe]
      exact hnew
    · rw [bytes_data hL hframe]
      exact hsame i hi
    · rw [word_label hL hframe]
      exact hlabel i

end Repair

end Mqo.Index
