import Mqo.Index.Layer

/-!
# MQO — linking a new element

`getNeighborsByHeuristic2` and `mutuallyConnectNewElement` on the memory of an
index. A level is linked once for the new element: its own list there is still
blank, and none of the lists searched leads to it, so that none of the checks
along the way fails.

* `getNeighborsByHeuristic2_returns` — the heuristic keeps at least one of its
  candidates, none more often than it is there, and at most as many as asked for;
* `connectBack_returns` — the list of a neighbour gets the new element or is
  chosen anew from its links and the new element, within its room;
* `newList_connected`, `connectBack_all` — the list of the new element, then those
  of its neighbours;
* `mutuallyConnectNewElement_returns` — the graph then leads to the new element at
  this level; only its list and those of its neighbours have changed.
-/

namespace Mqo.Index

open Prog Memory
open Mqo.Search.Hnsw (VisitedListPool)

section Connect

variable {K : Type} [Preorder K] [DecidableLT K] [Neg K]
  {P : Platform K} {L : Layout} (fstdistfunc : List UInt8 → List UInt8 → K)
  {levels : ℕ → ℕ} {N : ℕ} {lim : ℕ → ℕ} {m : Memory Region}

-- ---------------------------------------------------------------------------
-- The heuristic
-- ---------------------------------------------------------------------------

section Heuristic

variable (hL : L.WellFormed) (h : Graph L levels N lim m)

include hL h

omit [Neg K] in
/-- The first candidate is always good. -/
theorem isGood_returns {curent : ℕ} (hcurent : curent < N) (dist_to_query : K)
    {return_list : List (K × ℕ)} (hlist : ∀ e ∈ return_list, e.2 < N) :
    ∃ good, Returns (isGood L fstdistfunc m curent dist_to_query return_list) good ∧
      (return_list = [] → good = true) := by
  induction return_list with
  | nil => exact ⟨true, returns_pure true, fun _ => rfl⟩
  | cons e rest ih =>
    obtain ⟨good, hret, -⟩ := ih fun e' he' => hlist e' (List.mem_cons_of_mem _ he')
    have hdist := h.distBetween_returns hL fstdistfunc
      (hlist e List.mem_cons_self) hcurent
    rw [isGood]
    by_cases hlt : fstdistfunc (bytes m (L.dataSpan e.2)) (bytes m (L.dataSpan curent)) < dist_to_query
    · refine ⟨false, hdist.bind ?_, fun hnil => by cases hnil⟩
      rw [if_pos hlt]
      exact returns_pure false
    · refine ⟨good, hdist.bind ?_, fun hnil => by cases hnil⟩
      rw [if_neg hlt]
      exact hret

/-- The ids of those chosen and of those that wait are among `ids`; one candidate is there to be
chosen. -/
structure HeuristicInv (P : Platform K) (ids : Multiset ℕ) (M : ℕ)
    (s : P.byPair.Heap × List (K × ℕ)) : Prop where
  among    : ↑(s.2.map Prod.snd) + (P.byPair.elems s.1).map Prod.snd ≤ ids
  length   : s.2.length ≤ M
  nonempty : s.2 = [] → 0 < P.byPair.size s.1

omit [Preorder K] [DecidableLT K] [Neg K] hL h in
theorem HeuristicInv.chosen {ids : Multiset ℕ} {M : ℕ} {s : P.byPair.Heap × List (K × ℕ)}
    (hs : HeuristicInv P ids M s) : (↑(s.2.map Prod.snd) : Multiset ℕ) ≤ ids :=
  (Multiset.le_add_right _ _).trans hs.among

variable {ids : Multiset ℕ} (hids : ∀ id ∈ ids, id < N)

include hids

theorem heuristicStep_returns {M : ℕ} (hM : 0 < M) {s : P.byPair.Heap × List (K × ℕ)}
    (hs : HeuristicInv P ids M s) :
    (∃ s', Returns (heuristicStep P L fstdistfunc m M s) (.inl s') ∧ HeuristicInv P ids M s' ∧
      P.byPair.size s'.1 < P.byPair.size s.1) ∨
    ∃ r, Returns (heuristicStep P L fstdistfunc m M s) (.inr r) ∧
      (↑(r.map Prod.snd) : Multiset ℕ) ≤ ids ∧ r.length ≤ M ∧ r ≠ [] := by
  unfold heuristicStep
  cases htop : P.byPair.top s.1 with
  | none =>
    refine Or.inr ⟨s.2, returns_pure _, hs.chosen, hs.length, fun hnil => ?_⟩
    have hsize := hs.nonempty hnil
    rw [PriorityQueue.size, (P.byPair.top_none s.1).mp htop, Multiset.card_zero] at hsize
    exact lt_irrefl _ hsize
  | some e =>
    dsimp only
    split
    · next hfull =>
      refine Or.inr ⟨s.2, returns_pure _, hs.chosen, hs.length, fun hnil => ?_⟩
      rw [hnil, List.length_nil] at hfull
      omega
    · next hroom =>
      have hsize := P.byPair.size_pop htop
      have hamong := hs.among
      rw [P.byPair.elems_pop s.1 e htop, Multiset.map_cons] at hamong
      have hmem : e.2 ∈ ids := Multiset.mem_of_le hamong (by simp)
      obtain ⟨good, hret, hfirst⟩ := isGood_returns fstdistfunc hL h
        (hids e.2 hmem) (-e.1) fun e' he' => hids e'.2
          (Multiset.mem_of_le hs.chosen (Multiset.mem_coe.mpr (List.mem_map_of_mem he')))
      refine Or.inl ⟨_, hret.bind (returns_pure _), ⟨?_, ?_, ?_⟩, by dsimp only; omega⟩
      · dsimp only
        split
        · refine le_trans (le_of_eq ?_) hamong
          rw [List.map_append, ← Multiset.coe_add, add_assoc]
          rfl
        · exact le_trans (add_le_add_right (Multiset.le_cons_self _ _) _) hamong
      · dsimp only
        split
        · rw [List.length_append, List.length_singleton]
          omega
        · exact hs.length
      · intro hnil
        dsimp only at hnil
        split at hnil
        · simp at hnil
        · next hbad => exact absurd (hfirst hnil) hbad

/-- **The heuristic** chooses among its candidates, each as often as it is there. -/
theorem getNeighborsByHeuristic2_returns {M : ℕ} (hM : 0 < M) {top_candidates : P.byFirst.Heap}
    (hne : 0 < P.byFirst.size top_candidates)
    (htop : (P.byFirst.elems top_candidates).map Prod.snd = ids) :
    ∃ r, Returns (getNeighborsByHeuristic2 P L fstdistfunc m top_candidates M) r ∧
      0 < P.byFirst.size r ∧ P.byFirst.size r ≤ M ∧ (P.byFirst.elems r).map Prod.snd ≤ ids := by
  unfold getNeighborsByHeuristic2
  by_cases hsmall : P.byFirst.size top_candidates < M
  · rw [if_pos hsmall]
    exact ⟨top_candidates, returns_pure _, hne, hsmall.le, htop.le⟩
  · rw [if_neg hsmall]
    have hqueue := P.byPair.elems_foldl_push (fun e : K × ℕ => (-e.1, e.2))
      (P.byFirst.drain top_candidates) P.byPair.empty
    rw [P.byPair.elems_empty, add_zero] at hqueue
    obtain ⟨return_list, hloop, hchosen, hlength, hnonempty⟩ := loop_returns
      (HeuristicInv P ids M)
      (fun s => P.byPair.size s.1)
      (fun r : List (K × ℕ) => (↑(r.map Prod.snd) : Multiset ℕ) ≤ ids ∧ r.length ≤ M ∧ r ≠ [])
      (fun s hs => heuristicStep_returns fstdistfunc hL h hids hM hs)
      (s := ((P.byFirst.drain top_candidates).foldl
        (fun q e => P.byPair.push q (-e.1, e.2)) P.byPair.empty, []))
      ⟨by
          rw [hqueue, ← htop, ← P.byFirst.coe_drain, Multiset.map_coe, Multiset.map_coe, List.map_map,
            List.map_nil, Multiset.coe_nil, zero_add]
          rfl,
        Nat.zero_le _, fun _ => by
          rw [PriorityQueue.size, hqueue, Multiset.coe_card, List.length_map, P.byFirst.length_drain]
          exact hne⟩
    have hresult := P.byFirst.elems_foldl_push (fun e : K × ℕ => (-e.1, e.2)) return_list
      P.byFirst.empty
    rw [P.byFirst.elems_empty, add_zero] at hresult
    refine ⟨_, hloop.bind (returns_pure _), ?_, ?_, ?_⟩
    · rw [PriorityQueue.size, hresult, Multiset.coe_card, List.length_map]
      exact List.length_pos_iff.mpr hnonempty
    · rw [PriorityQueue.size, hresult, Multiset.coe_card, List.length_map]
      exact hlength
    · rw [hresult, Multiset.map_coe, List.map_map]
      exact hchosen

end Heuristic

-- ---------------------------------------------------------------------------
-- The list of the new element
-- ---------------------------------------------------------------------------

/-- A list that has been zeroed. -/
structure Blank (L : Layout) (m : Memory Region) (id level : ℕ) : Prop where
  count : count m (L.getLinklistAtLevel id level) = 0
  head  : word m (L.getLinklistAtLevel id level).headSpan = 0
  link  : ∀ j < L.Mcurmax level, link m (L.getLinklistAtLevel id level) j = 0

/-- Blank lists stay blank when other lists are rewritten. -/
theorem Blank.congr {m' : Memory Region} {id level : ℕ} (h : Blank L m id level)
    (hbytes : bytes m' (L.list id level) = bytes m (L.list id level)) : Blank L m' id level where
  count := by
    rw [← h.count]
    exact word_congr (a := 0) (w := 2) (by omega) hbytes
  head := by
    rw [← h.head]
    exact word_congr (a := 0) (w := 4) (by omega) hbytes
  link j hj := by
    rw [← h.link j hj]
    exact link_congr hj hbytes

theorem M_le_Mcurmax (hL : L.WellFormed) (level : ℕ) : L.M ≤ L.Mcurmax level := by
  unfold Layout.Mcurmax
  have := hL.maxM0
  have := hL.maxM
  split <;> omega

theorem Mcurmax_lt (hL : L.WellFormed) (level : ℕ) : L.Mcurmax level < 2 ^ 16 := by
  unfold Layout.Mcurmax
  have := hL.maxM0
  have := hL.maxM
  have := hL.M_le
  split <;> omega

-- ---------------------------------------------------------------------------
-- Links back
-- ---------------------------------------------------------------------------

/-- The links of a neighbour after the link back: at least one, chosen among those it had and
the new element. -/
structure LinkedBack (cur_c : ℕ) (old new : List ℕ) : Prop where
  nonempty : new ≠ []
  among    : (↑new : Multiset ℕ) ≤ cur_c ::ₘ ↑old

theorem LinkedBack.mem {cur_c v : ℕ} {old new : List ℕ} (hb : LinkedBack cur_c old new)
    (hv : v ∈ new) : v = cur_c ∨ v ∈ old := by
  have hmem := Multiset.mem_of_le hb.among (Multiset.mem_coe.mpr hv)
  rwa [Multiset.mem_cons, Multiset.mem_coe] at hmem

/-- The lists of a level when the new element has got its own list, and the first of its
neighbours, `linked`, lead back to it. -/
structure Connected (L : Layout) (levels : ℕ → ℕ) (N level cur_c : ℕ) (selected linked : List ℕ)
    (m m' : Memory Region) : Prop where
  own   : links m' (L.getLinklistAtLevel cur_c level) = selected
  back  : ∀ id ∈ linked, LinkedBack cur_c (links m (L.getLinklistAtLevel id level))
    (links m' (L.getLinklistAtLevel id level))
  other : ∀ id < N, level ≤ levels id → id ≠ cur_c → id ∉ linked →
    links m' (L.getLinklistAtLevel id level) = links m (L.getLinklistAtLevel id level)

/-- One more neighbour has been linked back. -/
theorem Connected.linkBack (hL : L.WellFormed) {level cur_c : ℕ} {selected linked : List ℕ}
    {m₀ m' m'' : Memory Region} (hc : Connected L levels N level cur_c selected linked m₀ m')
    (hgraph : Graph L levels N lim m') (hcur : IsNode levels N level cur_c) {other : ℕ}
    (hother : IsNode levels N level other) (hne : other ≠ cur_c) (hnew : other ∉ linked)
    (hlinked : ∀ id ∈ linked, IsNode levels N level id) {ids : List ℕ}
    (hrew : Rewrites L other level m' m'' ids)
    (hback : LinkedBack cur_c (links m' (L.getLinklistAtLevel other level)) ids) :
    Connected L levels N level cur_c selected (linked ++ [other]) m₀ m'' where
  own := (hgraph.links_of_rewrites hL hrew hcur.1 hcur.2 fun heq => hne heq.1.symm).trans hc.own
  back id hid := by
    rcases List.mem_append.mp hid with hid | hid
    · have hnode := hlinked id hid
      rw [hgraph.links_of_rewrites hL hrew hnode.1 hnode.2 fun heq => hnew (heq.1 ▸ hid)]
      exact hc.back id hid
    · rw [List.mem_singleton.mp hid, hrew.links, ← hc.other other hother.1 hother.2 hne hnew]
      exact hback
  other id hid hlevel hcur' hid' := by
    rw [List.mem_append, not_or, List.mem_singleton] at hid'
    rw [hgraph.links_of_rewrites hL hrew hid hlevel fun heq => hid'.2 heq.1]
    exact hc.other id hid hlevel hcur' hid'.1

section Lists

variable (hL : L.WellFormed) (h : Graph L levels N lim m)

include hL h

/-- Ids fit a `tableint`. -/
theorem Graph.id_lt {id : ℕ} (hid : id < N) : id < 2 ^ 32 := by
  have := h.capacity
  have := hL.max_lt
  omega

/-- **The list of the new element**; neither blank check fails. -/
theorem writeNewList_returns {cur_c level : ℕ} (hcur : IsNode levels N level cur_c)
    (hblank : Blank L m cur_c level) {selected : List ℕ} (hlength : selected.length ≤ L.M)
    (hsel : ∀ v ∈ selected, IsNode levels N level v) :
    ∃ m', Returns (writeNewList L levels m cur_c level false selected) m' ∧
      Rewrites L cur_c level m m' selected := by
  have hhold := h.holds_list hL hcur.1 hcur.2
  have hroom := hlength.trans (M_le_Mcurmax hL level)
  have hhead := loadWord_returns (hhold.within (Pointer.headSpan_within _ _))
  rw [hblank.head] at hhead
  obtain ⟨m₁, hsize, hframe₁, hcount₁, hlink₁⟩ :=
    setListCount_returns hhold (hroom.trans_lt (Mcurmax_lt hL level))
  have hhold₁ := hframe₁.holds.mpr hhold
  obtain ⟨m₂, hwrite, hframe₂, hcount₂, -, hlink₂⟩ := writeLinks_returns
    (checkNewLink levels (L.getLinklistAtLevel cur_c level) level false)
    (fun v hv => h.id_lt hL (hsel v hv).1) 0 (by omega) hhold₁
    (fun m' j id _ hj hid hm' hold => by
      have hget := getLink_returns hm' hj
      rw [hold, hlink₁ j, hblank.link j hj] at hget
      have hlevel : ¬ levels id < level := not_lt.mpr (hsel id hid).2
      refine hget.bind ?_
      rw [if_neg (by simp), if_neg hlevel]
      exact returns_pure ())
  refine ⟨m₂, hhead.bind ?_, ?_, ?_⟩
  · rw [if_neg (by simp)]
    exact hsize.bind hwrite
  · refine parts_of_list ((hframe₁.mono fun w hw => ⟨w, Or.inl hw, Within.refl w⟩).trans
      (hframe₂.mono fun w hw => ⟨w, Or.inr hw, Within.refl w⟩))
  · refine links_eq (hcount₂.trans hcount₁) fun j hj => ?_
    have hj' := hlink₂ j hj
    rw [Nat.zero_add] at hj'
    exact hj'

-- ---------------------------------------------------------------------------
-- The lists of the neighbours
-- ---------------------------------------------------------------------------

omit [Preorder K] [DecidableLT K] [Neg K] in
/-- The candidates for the list of a full neighbour. -/
theorem replaceCandidates_returns (cur_c : ℕ) {other : ℕ} (hother : other < N) {data : List ℕ}
    (hdata : ∀ v ∈ data, v < N) (d_max : K) :
    ∃ q, Returns (data.foldlM (fun (q : P.byFirst.Heap) id => do
        let d ← distBetween L fstdistfunc m id other
        pure (P.byFirst.push q (d, id))) (P.byFirst.push P.byFirst.empty (d_max, cur_c))) q ∧
      (P.byFirst.elems q).map Prod.snd = cur_c ::ₘ ↑data := by
  refine foldlM_returns (fun (pre : List ℕ) (q : P.byFirst.Heap) =>
    (P.byFirst.elems q).map Prod.snd = cur_c ::ₘ ↑pre) (fun pre id post q hsplit hq => ?_) (by simp)
  have hid : id ∈ data := by rw [hsplit]; simp
  refine ⟨_, (h.distBetween_returns hL fstdistfunc (hdata id hid) hother).map, ?_⟩
  rw [P.byFirst.elems_push, Multiset.map_cons, hq, Multiset.cons_swap, Multiset.cons_coe]
  exact congrArg _ (Multiset.coe_eq_coe.mpr (List.perm_append_singleton id pre).symm)

/-- The list of a full neighbour is chosen anew. -/
theorem replaceLinks_returns {cur_c other level : ℕ} (hother : IsNode levels N level other)
    (hcur : cur_c < N) :
    ∃ m' ids, Returns (replaceLinks P L fstdistfunc m (L.getLinklistAtLevel other level) cur_c other
        (L.Mcurmax level) (links m (L.getLinklistAtLevel other level))) m' ∧
      Rewrites L other level m m' ids ∧ ids.length ≤ L.Mcurmax level ∧
      LinkedBack cur_c (links m (L.getLinklistAtLevel other level)) ids := by
  set ll_other := L.getLinklistAtLevel other level with hll
  have htarget : ∀ v ∈ links m ll_other, v < N := fun v hv =>
    (h.target other hother.1 level hother.2 v hv).1.trans_le (h.bound level)
  obtain ⟨q, hfold, hq⟩ := replaceCandidates_returns fstdistfunc hL h (P := P) cur_c
    hother.1 htarget (fstdistfunc (bytes m (L.dataSpan cur_c)) (bytes m (L.dataSpan other)))
  have hpos : 0 < P.byFirst.size q := by
    have hcard := congrArg Multiset.card hq
    rw [Multiset.card_map, Multiset.card_cons] at hcard
    exact Nat.lt_of_lt_of_eq (Nat.succ_pos _) hcard.symm
  have hM : 0 < L.Mcurmax level := hL.M_pos.trans_le (M_le_Mcurmax hL level)
  obtain ⟨r, hheur, hkept, hsize, hr⟩ := getNeighborsByHeuristic2_returns fstdistfunc hL h
    (show ∀ v ∈ cur_c ::ₘ ↑(links m ll_other), v < N from fun v hv =>
      (Multiset.mem_cons.mp hv).elim (fun heq => heq ▸ hcur) (htarget v)) hM hpos hq
  have hlen : ((P.byFirst.drain r).map Prod.snd).length = P.byFirst.size r := by
    rw [List.length_map, P.byFirst.length_drain]
  have hback : LinkedBack cur_c (links m ll_other) ((P.byFirst.drain r).map Prod.snd) :=
    ⟨List.ne_nil_of_length_pos (by omega), by rwa [← Multiset.map_coe, P.byFirst.coe_drain]⟩
  have hhold := h.holds_list hL hother.1 hother.2
  obtain ⟨m₁, hwrite, hframe₁, -, -, hlink₁⟩ := writeLinks_returns
    (fun _ _ _ => pure ())
    (fun v hv => (hback.mem hv).elim (fun heq => heq ▸ h.id_lt hL hcur)
      fun hmem => h.id_lt hL (htarget v hmem))
    0 (show 0 + ((P.byFirst.drain r).map Prod.snd).length ≤ L.Mcurmax level by omega) hhold
    (fun _ _ _ _ _ _ _ _ => returns_pure ())
  obtain ⟨m₂, hcount, hframe₂, hcount₂, hlink₂⟩ := setListCount_returns (hframe₁.holds.mpr hhold)
    (show ((P.byFirst.drain r).map Prod.snd).length < 2 ^ 16 by
      have := Mcurmax_lt hL level
      omega)
  refine ⟨m₂, _, (h.distBetween_returns hL fstdistfunc hcur hother.1).bind
    (hfold.bind (hheur.bind (hwrite.bind hcount))), ⟨?_, ?_⟩, by omega, hback⟩
  · exact parts_of_list ((hframe₁.mono fun w hw => ⟨w, Or.inr hw, Within.refl w⟩).trans
      (hframe₂.mono fun w hw => ⟨w, Or.inl hw, Within.refl w⟩))
  · refine links_eq hcount₂ fun j hj => ?_
    have hj' := hlink₁ j hj
    rw [Nat.zero_add] at hj'
    rw [hlink₂, hj']

/-- **The link back.** -/
theorem connectBack_returns {cur_c other level : ℕ} {held : Option ℕ} (hheld : held ≠ some other)
    (hother : IsNode levels N level other) (hcur : cur_c < N) (hne : other ≠ cur_c) :
    ∃ m' ids, Returns (connectBack P L fstdistfunc levels held cur_c level false m other) m' ∧
      Rewrites L other level m m' ids ∧ ids.length ≤ L.Mcurmax level ∧
      LinkedBack cur_c (links m (L.getLinklistAtLevel other level)) ids := by
  have hfits := h.fits hL hother.1 hother.2
  have hcount := getListCount_returns hfits.holds
  have hlinks := h.getLinks_returns hL hother.1 hother.2
  have hstart : ∀ {m' : Memory Region},
      Returns (if count m (L.getLinklistAtLevel other level) < L.Mcurmax level then
          appendLink m (L.getLinklistAtLevel other level)
            (count m (L.getLinklistAtLevel other level)) cur_c
        else replaceLinks P L fstdistfunc m (L.getLinklistAtLevel other level) cur_c other
          (L.Mcurmax level) (links m (L.getLinklistAtLevel other level))) m' →
      Returns (connectBack P L fstdistfunc levels held cur_c level false m other) m' := by
    intro m' hret
    refine (lockLinks_returns hheld).bind (hcount.bind ?_)
    rw [if_neg (not_lt.mpr hfits.count_le), if_neg hne, if_neg (not_lt.mpr hother.2)]
    refine hlinks.bind ?_
    rw [if_neg (by simp)]
    exact hret
  by_cases hroom : count m (L.getLinklistAtLevel other level) < L.Mcurmax level
  · obtain ⟨m', hret, hframe, hnew⟩ :=
      appendLink_returns hfits hroom (Mcurmax_lt hL level) (h.id_lt hL hcur)
    refine ⟨m', _, hstart (by rw [if_pos hroom]; exact hret), ⟨parts_of_list hframe, hnew⟩, ?_,
      by simp, ?_⟩
    · rw [List.length_append, length_links, List.length_singleton]
      exact hroom
    · rw [Multiset.cons_coe]
      exact (Multiset.coe_eq_coe.mpr (List.perm_append_singleton cur_c _)).le
  · obtain ⟨m', ids, hret, hrest⟩ := replaceLinks_returns fstdistfunc hL h (P := P) hother hcur
    exact ⟨m', ids, hstart (by rw [if_neg hroom]; exact hret), hrest⟩

-- ---------------------------------------------------------------------------
-- One level
-- ---------------------------------------------------------------------------

omit [Preorder K] [DecidableLT K] [Neg K] in
/-- The list of the new element is written first. -/
theorem newList_connected {cur_c level : ℕ} (hcur : cur_c < N) (hlevel : level ≤ levels cur_c)
    (hlim : lim level = cur_c) (hblank : Blank L m cur_c level) {selected : List ℕ}
    (hlength : selected.length ≤ L.M) (hsel : ∀ v ∈ selected, IsNode levels cur_c level v) :
    ∃ m', Returns (writeNewList L levels m cur_c level false selected) m' ∧
      Graph L levels N (Function.update lim level (cur_c + 1)) m' ∧
      Modifies (L.parts fun _ l => l = level) m m' ∧
      Connected L levels N level cur_c selected [] m m' := by
  obtain ⟨m₁, hnew, hrew⟩ := writeNewList_returns hL h ⟨hcur, hlevel⟩ hblank hlength
    (fun v hv => ⟨(hsel v hv).1.trans hcur, (hsel v hv).2⟩)
  refine ⟨m₁, hnew, ?_, parts_mono hrew.frame fun _ _ hin => hin.2, hrew.links,
    fun id hid => absurd hid List.not_mem_nil, fun id hid hle hne _ =>
      h.links_of_rewrites hL hrew hid hle fun heq => hne heq.1⟩
  refine (h.rewrite hL hrew (hlength.trans (M_le_Mcurmax hL level))
    (fun v hv => hlim ▸ hsel v hv)).raise (fun l => ?_) fun l => ?_
  · by_cases hl : l = level
    · rw [hl, Function.update_self]
      omega
    · rw [Function.update_of_ne hl]
  · by_cases hl : l = level
    · rw [hl, Function.update_self]
      exact hcur
    · rw [Function.update_of_ne hl]
      exact h.bound l

omit h in
/-- Then the lists of its neighbours, one after the other. -/
theorem connectBack_all {cur_c level : ℕ} (hcur : cur_c < N) (hlevel : level ≤ levels cur_c)
    {selected : List ℕ} (hsel : ∀ v ∈ selected, IsNode levels cur_c level v)
    (hdistinct : selected.Nodup) {m₁ : Memory Region}
    (hgraph : Graph L levels N (Function.update lim level (cur_c + 1)) m₁)
    (hframe : Modifies (L.parts fun _ l => l = level) m m₁)
    (hstart : Connected L levels N level cur_c selected [] m m₁) :
    ∃ m', Returns (selected.foldlM
        (connectBack P L fstdistfunc levels (some cur_c) cur_c level false) m₁) m' ∧
      Graph L levels N (Function.update lim level (cur_c + 1)) m' ∧
      Modifies (L.parts fun _ l => l = level) m m' ∧
      Connected L levels N level cur_c selected selected m m' := by
  have hselN : ∀ v ∈ selected, IsNode levels N level v :=
    fun v hv => ⟨(hsel v hv).1.trans hcur, (hsel v hv).2⟩
  exact foldlM_returns
    (f := connectBack P L fstdistfunc levels (some cur_c) cur_c level false)
    (fun linked m' => Graph L levels N (Function.update lim level (cur_c + 1)) m' ∧
      Modifies (L.parts fun _ l => l = level) m m' ∧
      Connected L levels N level cur_c selected linked m m')
    (l := selected)
    (fun pre other post m' hsplit ⟨hgraph, hframe, hc⟩ => by
      have hmem : other ∈ selected := by rw [hsplit]; simp
      have hlt := (hsel other hmem).1
      have hpre : ∀ id ∈ pre, IsNode levels N level id := fun id hid =>
        hselN id (by rw [hsplit]; exact List.mem_append_left _ hid)
      have hfresh : other ∉ pre := fun hmem' => by
        rw [hsplit] at hdistinct
        exact (List.nodup_append.mp hdistinct).2.2 other hmem' other List.mem_cons_self rfl
      obtain ⟨m'', ids, hret, hrew', hroom, hback⟩ := connectBack_returns fstdistfunc hL hgraph
        (P := P) (show some cur_c ≠ some other from fun heq => by injection heq with heq; omega)
        (hselN other hmem) hcur (by omega)
      refine ⟨m'', hret, hgraph.rewrite hL hrew' hroom (fun v hv => ?_),
        hframe.trans (parts_mono hrew'.frame fun _ _ hin => hin.2),
        hc.linkBack hL hgraph ⟨hcur, hlevel⟩ (hselN other hmem) (by omega) hfresh hpre hrew' hback⟩
      rcases hback.mem hv with rfl | hv
      · rw [Function.update_self]
        exact ⟨Nat.lt_succ_self v, hlevel⟩
      · exact hgraph.target other (hselN other hmem).1 level (hselN other hmem).2 v hv)
    (s := m₁) ⟨hgraph, hframe, hstart⟩

/-- **Linking one level** on which nothing leads to the new element yet. -/
theorem mutuallyConnectNewElement_returns {cur_c level : ℕ} (hcur : cur_c < N)
    (hlevel : level ≤ levels cur_c) (hlim : lim level = cur_c) (hblank : Blank L m cur_c level)
    {top_candidates : P.byFirst.Heap} (hne : 0 < P.byFirst.size top_candidates)
    (htop : ∀ e ∈ P.byFirst.elems top_candidates, IsNode levels cur_c level e.2)
    (hnodup : ((P.byFirst.elems top_candidates).map Prod.snd).Nodup) :
    ∃ ep m' selected, Returns (mutuallyConnectNewElement P L fstdistfunc levels (some cur_c) m cur_c
        top_candidates level false) (ep, m') ∧
      IsNode levels cur_c level ep ∧
      Graph L levels N (Function.update lim level (cur_c + 1)) m' ∧
      Modifies (L.parts fun _ l => l = level) m m' ∧
      selected ≠ [] ∧ selected.Nodup ∧ (∀ v ∈ selected, v < cur_c) ∧
      Connected L levels N level cur_c selected selected m m' := by
  have hids : ∀ id ∈ (P.byFirst.elems top_candidates).map Prod.snd, IsNode levels cur_c level id := by
    intro id hid
    obtain ⟨e, he, rfl⟩ := Multiset.mem_map.mp hid
    exact htop e he
  obtain ⟨r, hheur, hpos, hsize, hr⟩ := getNeighborsByHeuristic2_returns fstdistfunc hL h
    (fun id hid => (hids id hid).1.trans hcur) hL.M_pos hne rfl
  set selected := (P.byFirst.drain r).map Prod.snd with hselected
  have hamong : (↑selected : Multiset ℕ) ≤ (P.byFirst.elems top_candidates).map Prod.snd := by
    rwa [hselected, ← Multiset.map_coe, P.byFirst.coe_drain]
  have hsel : ∀ v ∈ selected, IsNode levels cur_c level v := fun v hv =>
    hids v (Multiset.mem_of_le hamong (Multiset.mem_coe.mpr hv))
  have hdistinct : selected.Nodup := Multiset.coe_nodup.mp (Multiset.nodup_of_le hamong hnodup)
  have hlength : selected.length = P.byFirst.size r := by
    rw [hselected, List.length_map, P.byFirst.length_drain]
  have hnil : selected ≠ [] := List.ne_nil_of_length_pos (by omega)
  obtain ⟨m₁, hnew, hgraph₁, hframe₁, hstart⟩ :=
    newList_connected hL h hcur hlevel hlim hblank (by omega) hsel
  obtain ⟨m₂, hfold, hgraph₂, hframe₂, hconnected⟩ := connectBack_all fstdistfunc hL hcur
    hlevel (P := P) hsel hdistinct hgraph₁ hframe₁ hstart
  refine ⟨selected.getLast hnil, m₂, selected, hheur.bind ?_, hsel _ (List.getLast_mem hnil), hgraph₂,
    hframe₂, hnil, hdistinct, fun v hv => (hsel v hv).1, hconnected⟩
  rw [if_neg (not_lt.mpr hsize)]
  dsimp only
  rw [← hselected, List.getLast?_eq_some_getLast hnil]
  dsimp only
  rw [if_neg Bool.false_ne_true]
  exact hnew.bind (hfold.bind (returns_pure _))

end Lists

end Connect

end Mqo.Index
