import Mqo.Index.Connect

/-!
# MQO — filling an HNSW index

The insertion loop of `build` and `build_ip`. What an insertion writes is the
record of the new element, the block of its upper levels, and lists; so the
labels and the vectors of the elements before it stay as they are.

* `storeRecord_returns`   — the three writes of a record, and what they leave alone;
* `createElement_returns` — the record of a new element: blank lists, its label, its
  vector and no deletion mark; every other record stays;
* `connectBelow_returns`  — all levels of the new element are linked;
* `addPoint_returns`      — one insertion of the next row under the next label;
* `fillIndex_returns`     — after `n` of them, label and row `i` are at internal id
  `i`, for every `i < n`.
-/

namespace Mqo.Index

open Prog Memory ByteStream
open Mqo.Search.Hnsw (VisitedListPool)

-- ---------------------------------------------------------------------------
-- The record of a new element
-- ---------------------------------------------------------------------------

/-- An element has been created at level `curlevel`; the other elements are as before. -/
structure Created (L : Layout) (cur_c curlevel label : ℕ) (data_point : List UInt8)
    (m m' : Memory Region) : Prop where
  level0   : (m' .data_level0_memory).size = (m .data_level0_memory).size
  upper    : ∀ id ≠ cur_c, (m' (.linkLists id)).size = (m (.linkLists id)).size
  ownUpper : curlevel * L.size_links_per_element ≤ (m' (.linkLists cur_c)).size
  blank    : ∀ level ≤ curlevel, Blank L m' cur_c level
  label    : word m' (L.labelSpan cur_c) = label
  data     : bytes m' (L.dataSpan cur_c) = data_point
  mark     : word m' (L.markSpan cur_c) = 0
  others   : ∀ id ≠ cur_c, ∀ t : Span Region,
    Within t (L.record id) ∨ t.region = .linkLists id → bytes m' t = bytes m t

section Create

variable {L : Layout} {m : Memory Region}

/-- A block of zeros. -/
theorem word_of_zero_block {m : Memory Region} {s : Span Region}
    (h : ∀ k, (m s.region).byte k = 0) : word m s = 0 := by
  have hbytes : bytes m s = zeros s.length := by
    refine List.ext_getElem (by simp) fun k hk hk' => ?_
    simp [bytes, zeros, h]
  rw [word, hbytes, ofBytes_zeros]

/-- Where the parts of a list are in a stretch of zeros, the list is blank. -/
theorem blank_of_words {id level : ℕ}
    (h : ∀ a len, a + len ≤ 4 + 4 * L.Mcurmax level →
      word m ⟨(L.getLinklistAtLevel id level).region, (L.getLinklistAtLevel id level).offset + a, len⟩ = 0) :
    Blank L m id level where
  count := h 0 2 (by omega)
  head := h 0 4 (by omega)
  link j hj := by
    unfold link Pointer.linkSpan
    rw [Nat.add_assoc]
    exact h (4 + 4 * j) 4 (by omega)

/-- The new block is apart from everything that was there. -/
theorem bytes_allocateLinks {cur_c curlevel : ℕ} {t : Span Region}
    (ht : t.region ≠ .linkLists cur_c) : bytes (allocateLinks L m cur_c curlevel) t = bytes m t := by
  unfold allocateLinks
  split
  · exact bytes_congr fun k _ => by rw [Function.update_of_ne ht]
  · rfl

theorem size_allocateLinks {cur_c curlevel : ℕ} {region : Region} (h : region ≠ .linkLists cur_c) :
    (allocateLinks L m cur_c curlevel region).size = (m region).size := by
  unfold allocateLinks
  split
  · rw [Function.update_of_ne h]
  · rfl

/-- The record of an element has been written; what is apart from it is as before. -/
structure Stored (L : Layout) (cur_c label : ℕ) (data_point : List UInt8)
    (m m' : Memory Region) : Prop where
  size   : ∀ region, (m' region).size = (m region).size
  zero   : ∀ a len, a + len ≤ 4 + 4 * L.Mcurmax 0 →
    word m' ⟨.data_level0_memory, (L.getLinklist0 cur_c).offset + a, len⟩ = 0
  label  : word m' (L.labelSpan cur_c) = label
  data   : bytes m' (L.dataSpan cur_c) = data_point
  others : ∀ t : Span Region, Apart (L.record cur_c) t → bytes m' t = bytes m t

section Record

variable (hL : L.WellFormed) {cur_c : ℕ}

include hL

theorem list_offset_zero : (L.getLinklist0 cur_c).offset = cur_c * L.size_data_per_element := by
  show cur_c * L.size_data_per_element + L.offsetLevel0 = _
  rw [hL.first, Nat.add_zero]

theorem label_apart_data : Apart (L.dataSpan cur_c) (L.labelSpan cur_c) := by
  refine Or.inr (Or.inl ?_)
  show cur_c * L.size_data_per_element + L.offsetData + L.data_size ≤
    cur_c * L.size_data_per_element + L.label_offset
  have := hL.label
  have := hL.data
  omega

/-- **The three writes** of a record. -/
theorem storeRecord_returns (hcur : cur_c < L.max_elements)
    (hsize : (m .data_level0_memory).size = L.max_elements * L.size_data_per_element)
    {label : ℕ} (hlabel : label < 2 ^ 64) {data_point : List UInt8}
    (hdata : data_point.length = L.data_size) :
    ∃ m', Returns (storeRecord L m cur_c label data_point) m' ∧
      Stored L cur_c label data_point m m' := by
  have hrecord := holds_record hsize hcur
  set m₁ := put m .data_level0_memory (L.getLinklist0 cur_c).offset (zeros L.size_data_per_element)
    with hm₁
  set m₂ := put m₁ .data_level0_memory (L.labelSpan cur_c).offset (toBytes 8 label) with hm₂
  set m₃ := put m₂ .data_level0_memory (L.dataSpan cur_c).offset (data_point.take L.data_size)
    with hm₃
  have htake : (data_point.take L.data_size).length = L.data_size := by
    rw [List.length_take, hdata, Nat.min_self]
  have hstored : Returns (storeRecord L m cur_c label data_point) m₃ := by
    refine (store_returns (length_zeros _) (by rw [list_offset_zero hL]; exact hrecord)).bind
      ((store_returns (length_toBytes 8 label) ?_).bind (store_returns htake ?_))
    · exact (holds_put ..).mpr (hrecord.within (label_within hL cur_c))
    · exact (holds_put ..).mpr ((holds_put ..).mpr (hrecord.within (data_within hL cur_c)))
  have hframe₁ : Modifies {L.record cur_c} m m₁ := Modifies.of_put (Set.mem_singleton _)
    (by rw [length_zeros, list_offset_zero hL]; exact Within.refl _)
  have hframe₂ : Modifies {L.labelSpan cur_c} m₁ m₂ := Modifies.of_put (Set.mem_singleton _)
    (by rw [length_toBytes]; exact Within.refl _)
  have hframe₃ : Modifies {L.dataSpan cur_c} m₂ m₃ := Modifies.of_put (Set.mem_singleton _)
    (by rw [htake]; exact Within.refl _)
  refine ⟨m₃, hstored,
    { size := fun region =>
        (hframe₃.size region).trans ((hframe₂.size region).trans (hframe₁.size region))
      zero := fun a len hlen => ?_
      label := ?_
      data := ?_
      others := fun t ht => ?_ }⟩
  · -- the list of level 0 is what the first write has left there
    have hin : Within (⟨.data_level0_memory, (L.getLinklist0 cur_c).offset + a, len⟩ : Span Region)
        (L.list cur_c 0) :=
      ⟨rfl, Nat.le_add_right _ _, by
        show (L.getLinklist0 cur_c).offset + a + len ≤
          (L.getLinklist0 cur_c).offset + (4 + 4 * L.Mcurmax 0)
        omega⟩
    have hroom : a + len ≤ L.size_data_per_element := by
      have := hL.size
      have := hL.level0
      have : L.Mcurmax 0 = L.maxM0 := rfl
      omega
    rw [hframe₃.word, hframe₂.word]
    · exact word_put_zeros m .data_level0_memory _ hroom
    · rintro w rfl
      exact ((list_apart_label hL cur_c 0 cur_c).within hin (Within.refl _)).symm
    · rintro w rfl
      exact ((list_apart_data hL cur_c 0 cur_c).within hin (Within.refl _)).symm
  · rw [hframe₃.word]
    · exact word_put (by omega)
    · rintro w rfl
      exact label_apart_data hL
  · refine (bytes_put_self m₂ .data_level0_memory (L.dataSpan cur_c).offset htake).trans ?_
    rw [← hdata, List.take_length]
  · rw [hframe₃.bytes, hframe₂.bytes, hframe₁.bytes]
    · rintro w rfl
      exact ht
    · rintro w rfl
      exact ht.within (label_within hL cur_c) (Within.refl t)
    · rintro w rfl
      exact ht.within (data_within hL cur_c) (Within.refl t)

omit hL in
/-- The block of the upper levels is added. -/
theorem Stored.created {label : ℕ} {data_point : List UInt8} {m' : Memory Region}
    (h : Stored L cur_c label data_point m m') (curlevel : ℕ) :
    Created L cur_c curlevel label data_point m (allocateLinks L m' cur_c curlevel) := by
  have hown : ∀ t : Span Region, t.region = .data_level0_memory →
      bytes (allocateLinks L m' cur_c curlevel) t = bytes m' t :=
    fun t ht => bytes_allocateLinks (by rw [ht]; rintro ⟨⟩)
  have hzero : ∀ a len, a + len ≤ 4 + 4 * L.Mcurmax 0 →
      word (allocateLinks L m' cur_c curlevel)
        ⟨.data_level0_memory, (L.getLinklist0 cur_c).offset + a, len⟩ = 0 := by
    intro a len hlen
    rw [word, hown _ rfl, ← word]
    exact h.zero a len hlen
  refine
    { level0 := (size_allocateLinks (by rintro ⟨⟩)).trans (h.size _)
      upper := fun id hid => (size_allocateLinks fun heq => hid (by injection heq)).trans (h.size _)
      ownUpper := ?_
      blank := fun level hlevel => ?_
      label := ?_
      data := (hown _ rfl).trans h.data
      mark := hzero 2 1 (by omega)
      others := fun id hid t ht => ?_ }
  · unfold allocateLinks
    split
    · rw [Function.update_self, Nat.mul_comm]
      exact Nat.le_succ _
    · next hcur0 =>
      rw [not_not.mp hcur0, Nat.zero_mul]
      exact Nat.zero_le _
  · cases level with
    | zero => exact blank_of_words hzero
    | succ level =>
      refine blank_of_words fun a len _ => word_of_zero_block fun k => ?_
      show (allocateLinks L m' cur_c curlevel (.linkLists cur_c)).byte k = 0
      rw [allocateLinks, if_pos (by omega), Function.update_self]
  · rw [word, hown _ rfl, ← word]
    exact h.label
  · rcases ht with ht | ht
    · rw [bytes_allocateLinks (by rw [ht.1]; rintro ⟨⟩)]
      exact h.others t ((slot_apart _ fun heq => hid heq.symm).within (Within.refl _) ht)
    · rw [bytes_allocateLinks (by rw [ht]; exact fun heq => hid (by injection heq))]
      exact h.others t (Or.inl (by rw [ht]; rintro ⟨⟩))

/-- **The record of a new element** and the block of its upper levels. -/
theorem createElement_returns (hcur : cur_c < L.max_elements)
    (hsize : (m .data_level0_memory).size = L.max_elements * L.size_data_per_element)
    {label : ℕ} (hlabel : label < 2 ^ 64) {data_point : List UInt8}
    (hdata : data_point.length = L.data_size) (curlevel : ℕ) :
    ∃ m', Returns (storeRecord L m cur_c label data_point) m' ∧
      Created L cur_c curlevel label data_point m (allocateLinks L m' cur_c curlevel) := by
  obtain ⟨m', hret, hstored⟩ := storeRecord_returns hL hcur hsize hlabel hdata
  exact ⟨m', hret, hstored.created curlevel⟩

end Record

/-- The list of an element is in its record or in its own block. -/
theorem list_in_element (hL : L.WellFormed) (id level : ℕ) :
    Within (L.list id level) (L.record id) ∨ (L.list id level).region = .linkLists id := by
  cases level with
  | zero => exact Or.inl (list_zero_within hL id)
  | succ level => exact Or.inr rfl

variable {m' : Memory Region} {levels : ℕ → ℕ} {n curlevel label : ℕ} {data_point : List UInt8}

/-- The graph with an element that has no links yet. -/
theorem Created.graph (hL : L.WellFormed) (h : Created L n curlevel label data_point m m')
    (hn : n < L.max_elements) (hgraph : Graph L levels n (fun _ => n) m) :
    Graph L (Function.update levels n curlevel) (n + 1) (fun _ => n) m' := by
  have hnew : Function.update levels n curlevel n = curlevel := Function.update_self ..
  -- the elements that were there are linked as before
  have hsame : Graph L (Function.update levels n curlevel) n (fun _ => n) m' :=
    hgraph.congr (fun id hid => Function.update_of_ne (by omega) ..) h.level0
      (fun id hid => by rw [h.upper id (by omega)]; exact hgraph.upper id hid)
      (fun id hid level _ => h.others id (by omega) _ (list_in_element hL id level))
      (fun id hid => by rw [word, h.others id (by omega) _ (Or.inl (mark_within hL id)), word])
  refine
    { capacity := hn
      level0 := hsame.level0
      upper := fun id hid => ?_
      room := fun id hid level hlevel => ?_
      target := fun id hid level hlevel v hv => ?_
      bound := fun _ => Nat.le_succ n
      unmarked := fun id hid => ?_ }
  all_goals rcases Nat.lt_succ_iff_lt_or_eq.mp hid with hid | rfl
  · exact hsame.upper id hid
  · rw [hnew]
    exact h.ownUpper
  · exact hsame.room id hid level hlevel
  · rw [hnew] at hlevel
    rw [(h.blank level hlevel).count]
    exact Nat.zero_le _
  · exact hsame.target id hid level hlevel v hv
  · rw [hnew] at hlevel
    have hnil : links m' (L.getLinklistAtLevel id level) = [] :=
      links_eq (h.blank level hlevel).count fun j hj => absurd hj (Nat.not_lt_zero j)
    rw [hnil] at hv
    exact absurd hv List.not_mem_nil
  · exact hsame.unmarked id hid
  · exact h.mark

end Create

-- ---------------------------------------------------------------------------
-- All levels of a new element
-- ---------------------------------------------------------------------------

section Insert

variable {K : Type} [Preorder K] [DecidableLT K] [Neg K]
  {P : Platform K} {L : Layout} (fstdistfunc : List UInt8 → List UInt8 → K)

/-- **The levels below `k`**, on which nothing leads to the new element yet. -/
theorem connectBelow_returns (hL : L.WellFormed) {levels : ℕ → ℕ} {N cur_c : ℕ} (hcur : cur_c < N)
    (data_point : List UInt8) (enterpoint_copy : ℕ) {maxlevel : ℤ} {k : ℕ}
    (hlevel : ∀ l < k, l ≤ levels cur_c) (hmax : ∀ l < k, (l : ℤ) ≤ maxlevel)
    {s : ConnectState L} {lim : ℕ → ℕ} (h : Graph L levels N lim s.memory)
    (hlim : ∀ l < k, lim l = cur_c) (hblank : ∀ l < k, Blank L s.memory cur_c l)
    (hobj : ∀ l < k, IsNode levels cur_c l s.currObj) :
    ∃ s' lim', Returns (connectBelow P L fstdistfunc levels cur_c data_point enterpoint_copy maxlevel
        false k s) s' ∧
      Graph L levels N lim' s'.memory ∧ Modifies (L.parts fun _ _ => True) s.memory s'.memory := by
  induction k generalizing s lim with
  | zero => exact ⟨s, lim, returns_pure s, h, Modifies.refl _ _⟩
  | succ k ih =>
    have hk : k < k + 1 := Nat.lt_succ_self k
    obtain ⟨r, -, hsearch, hr⟩ := searchBaseLayer_returns fstdistfunc hL h data_point
      (P := P) (show ∀ id < lim k, some cur_c ≠ some id from fun id hid heq => by
        rw [hlim k hk] at hid
        injection heq with heq
        omega) s.visited_list_pool (hlim k hk ▸ hobj k hk)
    generalize (s.visited_list_pool.getFreeVisitedList P.newList).2.releaseVisitedList r.visited =
      pool' at hsearch
    obtain ⟨ep, m', -, hconnect, hep, hgraph, hframe, -⟩ := mutuallyConnectNewElement_returns
      fstdistfunc hL h hcur (hlevel k hk) (hlim k hk) (hblank k hk) hr.nonempty
      (hlim k hk ▸ hr.top) hr.nodup
    have hstep : Returns (connectLevel P L fstdistfunc levels cur_c data_point enterpoint_copy maxlevel
        false k s) ⟨ep, m', pool'⟩ := by
      rw [connectLevel, if_neg (not_lt.mpr (hmax k hk))]
      exact hsearch.bind (hconnect.bind (returns_pure _))
    obtain ⟨s', lim', hrest, hgraph', hframe'⟩ := ih (s := ⟨ep, m', pool'⟩)
      (fun l hl => hlevel l (by omega)) (fun l hl => hmax l (by omega)) hgraph
      (fun l hl => by rw [Function.update_of_ne (by omega)]; exact hlim l (by omega))
      (fun l hl => (hblank l (by omega)).congr (bytes_list hL hframe (by omega)))
      (fun l hl => ⟨hep.1, by have := hep.2; show l ≤ levels ep; omega⟩)
    exact ⟨s', lim', hstep.bind hrest, hgraph',
      (parts_mono hframe fun _ _ _ => trivial).trans hframe'⟩

-- ---------------------------------------------------------------------------
-- One insertion
-- ---------------------------------------------------------------------------

/-- The index holds the first `n` rows under their numbers, linked with each other. -/
structure Built (L : Layout) (row : ℕ → List UInt8) (n : ℕ) (s : HierarchicalNSW L) : Prop where
  count    : s.cur_element_count = n
  graph    : Graph L s.element_levels n (fun _ => n) s.memory
  label    : ∀ i < n, word s.memory (L.labelSpan i) = i
  data     : ∀ i < n, bytes s.memory (L.dataSpan i) = row i
  lookup   : ∀ i ≥ n, s.label_lookup i = none
  level_le : ∀ i < n, s.element_levels i ≤ 1074
  entry    : (n = 0 ∧ s.enterpoint_node = noElement ∧ s.maxlevel = -1) ∨
    (s.enterpoint_node < n ∧ s.maxlevel = s.element_levels s.enterpoint_node)

variable {row : ℕ → List UInt8} {n : ℕ} {s : HierarchicalNSW L}

omit [Preorder K] [DecidableLT K] [Neg K] in
/-- The constructor. -/
theorem Built.new (draws : ℕ → LevelDraw) : Built L row 0 (HierarchicalNSW.new P L draws) where
  count := rfl
  graph :=
    { capacity := Nat.zero_le _
      level0 := rfl
      upper := fun id hid => absurd hid (Nat.not_lt_zero id)
      room := fun id hid => absurd hid (Nat.not_lt_zero id)
      target := fun id hid => absurd hid (Nat.not_lt_zero id)
      bound := fun _ => le_refl 0
      unmarked := fun id hid => absurd hid (Nat.not_lt_zero id) }
  label i hi := absurd hi (Nat.not_lt_zero i)
  data i hi := absurd hi (Nat.not_lt_zero i)
  lookup _ _ := rfl
  level_le i hi := absurd hi (Nat.not_lt_zero i)
  entry := Or.inl ⟨rfl, rfl, rfl⟩

/-- An element has been created, and lists have been rewritten: labels and vectors are
those of one more row. -/
theorem Created.stored (hL : L.WellFormed) {m' m'' : Memory Region} {curlevel : ℕ}
    (h : Created L n curlevel n (row n) s.memory m')
    (hs : Built L row n s) (hframe : Modifies (L.parts fun _ _ => True) m' m'') {i : ℕ}
    (hi : i < n + 1) : word m'' (L.labelSpan i) = i ∧ bytes m'' (L.dataSpan i) = row i := by
  rw [word_label hL hframe, bytes_data hL hframe]
  rcases Nat.lt_succ_iff_lt_or_eq.mp hi with hi | rfl
  · refine ⟨?_, ?_⟩
    · rw [word, h.others i (by omega) _ (Or.inl (label_within hL i))]
      exact hs.label i hi
    · rw [h.others i (by omega) _ (Or.inl (data_within hL i))]
      exact hs.data i hi
  · exact ⟨h.label, h.data⟩

/-- The state after an insertion, for the memory and the entry point it ends with. -/
theorem Created.built (hL : L.WellFormed) {m' m'' : Memory Region} {curlevel : ℕ}
    (h : Created L n curlevel n (row n) s.memory m') (hs : Built L row n s)
    (hframe : Modifies (L.parts fun _ _ => True) m' m'') {lim : ℕ → ℕ}
    (hgraph : Graph L (Function.update s.element_levels n curlevel) (n + 1) lim m'')
    (hcurlevel : curlevel ≤ 1074) (pool : VisitedListPool L.max_elements) {e : ℕ} (he : e < n + 1)
    {maxlevel : ℤ} (hmax : maxlevel = Function.update s.element_levels n curlevel e) :
    Built L row (n + 1) { s.reserve n curlevel with
      memory := m'', visited_list_pool := pool, enterpoint_node := e, maxlevel := maxlevel } where
  count := congrArg (· + 1) hs.count
  graph := by
    show Graph L (Function.update s.element_levels s.cur_element_count curlevel) (n + 1) _ m''
    rw [hs.count]
    exact hgraph.raise hgraph.bound fun _ => le_refl _
  label i hi := (h.stored hL hs hframe hi).1
  data i hi := (h.stored hL hs hframe hi).2
  lookup i hi := by
    show Function.update s.label_lookup n _ i = none
    rw [Function.update_of_ne (by omega)]
    exact hs.lookup i (by omega)
  level_le i hi := by
    show Function.update s.element_levels s.cur_element_count curlevel i ≤ 1074
    rw [hs.count]
    rcases Nat.lt_succ_iff_lt_or_eq.mp hi with hi | rfl
    · rw [Function.update_of_ne (by omega)]
      exact hs.level_le i hi
    · rw [Function.update_self]
      exact hcurlevel
  entry := by
    refine Or.inr ⟨he, ?_⟩
    show maxlevel = Function.update s.element_levels s.cur_element_count curlevel e
    rw [hs.count]
    exact hmax

/-- **The new element is linked**, and becomes the entry point if it is the highest. -/
theorem Created.linked (hL : L.WellFormed) {m' : Memory Region} {curlevel : ℕ}
    (h : Created L n curlevel n (row n) s.memory m') (hs : Built L row n s)
    (hn : n < L.max_elements) (hcurlevel : curlevel ≤ 1074) :
    ∃ s', Returns (linkElement P fstdistfunc s m' n curlevel (row n)) s' ∧
      Built L row (n + 1) s' := by
  have hgraph := h.graph hL hn hs.graph
  have hnew : (curlevel : ℤ) = Function.update s.element_levels n curlevel n := by
    rw [Function.update_self]
  unfold linkElement
  rcases hs.entry with ⟨rfl, hep, hmax⟩ | ⟨hep, hmax⟩
  · -- the first element
    have hbuilt := h.built hL hs (Modifies.refl _ m') hgraph hcurlevel s.visited_list_pool
      (Nat.lt_succ_self 0) hnew
    refine ⟨_, ?_, hbuilt⟩
    dsimp only
    rw [if_neg (not_not.mpr hep)]
    refine (returns_pure _).bind ?_
    rw [hmax, if_pos (by omega), hs.count]
    exact returns_pure _
  · have hepoint : s.enterpoint_node ≠ noElement := by
      have := hL.max_lt
      unfold noElement
      omega
    have hold : Function.update s.element_levels n curlevel s.enterpoint_node =
        s.element_levels s.enterpoint_node := Function.update_of_ne (by omega) ..
    set maxlevel := s.element_levels s.enterpoint_node with hml
    obtain ⟨currObj, hdescend, hobj⟩ := startObject_returns fstdistfunc hL hgraph (row n)
      (n := n) (fun _ => rfl)
      (show ∀ id < n, some n ≠ some id from fun id hid heq => by injection heq with heq; omega)
      curlevel (show IsNode _ n maxlevel s.enterpoint_node from ⟨hep, hold.ge⟩)
    have hmark := hgraph.isMarkedDeleted_returns hL (show s.enterpoint_node < n + 1 by omega)
    have hk : (min (curlevel : ℤ) maxlevel + 1).toNat = min curlevel maxlevel + 1 := by omega
    obtain ⟨c, lim, hconnect, hgraph', hframe⟩ := connectBelow_returns fstdistfunc
      hL (P := P) (Nat.lt_succ_self n) (row n) s.enterpoint_node (k := min curlevel maxlevel + 1)
      (fun l hl => by rw [Function.update_self]; omega)
      (show ∀ l < min curlevel maxlevel + 1, (l : ℤ) ≤ (maxlevel : ℤ) from fun l hl => by omega)
      (s := ⟨currObj, m', s.visited_list_pool⟩) hgraph (fun _ _ => rfl)
      (fun l hl => h.blank l (by omega))
      (fun l hl => ⟨hobj.1, by
        have := hobj.2
        show l ≤ Function.update s.element_levels n curlevel currObj
        omega⟩)
    rw [if_pos hepoint, hs.count, hmax]
    have hlevels : (s.reserve n curlevel).element_levels =
        Function.update s.element_levels n curlevel := by
      show Function.update s.element_levels s.cur_element_count curlevel = _
      rw [hs.count]
    rw [← hlevels] at hconnect
    rw [hk]
    refine ⟨_, hdescend.bind (hmark.bind (hconnect.bind ((returns_pure _).bind (returns_pure _)))), ?_⟩
    · split
      · exact h.built hL hs hframe hgraph' hcurlevel c.visited_list_pool (Nat.lt_succ_self n) hnew
      · have hbuilt := h.built hL hs hframe hgraph' hcurlevel c.visited_list_pool
          (e := s.enterpoint_node) (by omega) (show s.maxlevel = _ by rw [hold, hmax])
        exact hbuilt

variable {fstdistfunc} in
/-- Under a new label, and while there is room, `addPoint` stores the record and links it. -/
theorem addPoint_fresh (updatePoint : HierarchicalNSW L → List UInt8 → ℕ → Run (HierarchicalNSW L))
    {s s' : HierarchicalNSW L} {label curlevel : ℕ} {data_point : List UInt8} {m : Memory Region}
    (hfresh : s.label_lookup label = none) (hcur : s.cur_element_count < L.max_elements)
    (hdraw : (s.level_generator 0).level = curlevel)
    (hstore : Returns (storeRecord L s.memory s.cur_element_count label data_point) m)
    (hlink : Returns (linkElement P fstdistfunc s (allocateLinks L m s.cur_element_count curlevel)
      label curlevel data_point) s') :
    Returns (addPoint P fstdistfunc updatePoint s data_point label) s' := by
  have hat : Returns (addPointAt P fstdistfunc updatePoint s data_point label (-1))
      (s.cur_element_count, s') := by
    unfold addPointAt
    rw [hfresh]
    dsimp only
    rw [if_neg (by omega), if_neg (by decide), hdraw]
    exact hstore.bind (hlink.bind (returns_pure _))
  exact hat.bind (returns_pure _)

/-- **One insertion.** -/
theorem addPoint_returns (hL : L.WellFormed) (hn : n < L.max_elements)
    (hrow : (row n).length = L.data_size) (hs : Built L row n s)
    (updatePoint : HierarchicalNSW L → List UInt8 → ℕ → Run (HierarchicalNSW L)) :
    ∃ s', Returns (addPoint P fstdistfunc updatePoint s (row n) n) s' ∧ Built L row (n + 1) s' := by
  obtain rfl := hs.count
  obtain ⟨m', hstore, hcreated⟩ := createElement_returns (m := s.memory) hL hn hs.graph.level0
    (show s.cur_element_count < 2 ^ 64 by have := hL.max_lt; omega) hrow
    (s.level_generator 0).level
  obtain ⟨s', hlink, hbuilt⟩ := hcreated.linked fstdistfunc hL (P := P) hs hn
    (s.level_generator 0).level_le
  exact ⟨s', addPoint_fresh updatePoint (hs.lookup _ (le_refl _)) hn rfl hstore hlink, hbuilt⟩

/-- **The insertion loop.** Label and row `i` end at internal id `i`. -/
theorem fillIndex_returns (hL : L.WellFormed)
    (hrow : ∀ i < L.max_elements, (row i).length = L.data_size)
    (updatePoint : HierarchicalNSW L → List UInt8 → ℕ → Run (HierarchicalNSW L))
    (draws : ℕ → LevelDraw) :
    ∃ s, Returns (fillIndex P L fstdistfunc updatePoint row L.max_elements draws) s ∧
      Built L row L.max_elements s := by
  exact range_returns (fun n s => Built L row n s)
    (fun n hn s hs => addPoint_returns fstdistfunc hL hn (hrow n hn) hs updatePoint) (Built.new draws)

end Insert

end Mqo.Index
