import Mathlib.Data.Prod.Lex
import Mqo.Search.HnswEntries
import Mqo.Search.HnswRecall

/-!
# MQO — the label that a search is judged by

`get_recall` and `get_recall_optimized` of `hnsw_exp/process.hpp` take the label on
top of the results of `searchKnn_mine`. The results are a queue with the *farthest*
one on top, so this is the label of the nearest result only when all results are
equally far. With `topk = 1`, which is what `run_hnsw` passes, there is one result.

* `searchLabel_topk`    — one search, for every `topk`;
* `nearestLabel_iff`    — when the label on top is that of the nearest result;
* `getRecall_returns`, `getRecallOptimized_topk` — the labels that the runs compare;
* `comparesNearest_iff` — they are those of the nearest results for `topk = 1` only.
-/

namespace Mqo.Search.Hnsw

open Prog

-- ---------------------------------------------------------------------------
-- Labels of results
-- ---------------------------------------------------------------------------

section Labels

variable {K : Type} [LinearOrder K]

/-- `label` belongs to the nearest of the results. -/
def NearestLabel (results : Multiset (K × ℕ)) (label : ℤ) : Prop :=
  ∃ e ∈ results, (e.2 : ℤ) = label ∧ ∀ e' ∈ results, e.1 ≤ e'.1

/-- No result is farther than another. -/
def Equidistant (results : Multiset (K × ℕ)) : Prop :=
  ∀ e ∈ results, ∀ e' ∈ results, e.1 ≤ e'.1

theorem equidistant_of_card_le_one {results : Multiset (K × ℕ)} (h : Multiset.card results ≤ 1) :
    Equidistant results := by
  intro e he e' he'
  obtain ⟨rest, rfl⟩ := Multiset.exists_cons_of_mem he
  rw [Multiset.card_cons] at h
  have hrest : rest = 0 := Multiset.card_eq_zero.mp (by omega)
  rw [hrest, Multiset.mem_cons] at he'
  rcases he' with rfl | he'
  · exact le_refl _
  · exact absurd he' (Multiset.notMem_zero _)

/-- **The label on top** of a queue of pairs is that of the nearest one exactly when no
other is farther: the farthest is on top. -/
theorem nearestLabel_iff {R : PriorityQueue (K × ℕ)}
    (hR : R.Ordered fun a b => toLex a < toLex b) {result : R.Heap} {top : K × ℕ}
    (htop : R.top result = some top)
    (hlabels : ∀ e ∈ R.elems result, ∀ e' ∈ R.elems result, e.2 = e'.2 → e.1 = e'.1) :
    NearestLabel (R.elems result) top.2 ↔ Equidistant (R.elems result) := by
  have hfar : ∀ e ∈ R.elems result, e.1 ≤ top.1 := fun e he =>
    not_lt.mp fun hlt => hR result top htop e he (Prod.Lex.toLex_lt_toLex.mpr (Or.inl hlt))
  constructor
  · rintro ⟨near, hnear, hlabel, hleast⟩ e he e' he'
    have hsame : near.1 = top.1 := hlabels near hnear top (R.top_mem htop) (by exact_mod_cast hlabel)
    calc e.1 ≤ top.1 := hfar e he
      _ = near.1 := hsame.symm
      _ ≤ e'.1 := hleast e' he'
  · exact fun h => ⟨top, R.top_mem htop, rfl, h top (R.top_mem htop)⟩

end Labels

-- ---------------------------------------------------------------------------
-- One search
-- ---------------------------------------------------------------------------

section Search

variable {V K F : Type} [LinearOrder K] [Neg K] [Scalar F]
  (Q R : PriorityQueue (K × ℕ)) (index : HierarchicalNSW V K) (maxValue : K) (querydata : ℕ → V)

/-- The search for a query returns `result`, whatever the pool holds. -/
def Finds (ef topk : ℕ) (curr : ℤ) (entry_point : Option ℤ) (result : R.Heap) : Prop :=
  ∀ mem pool, ∃ pool', Returns (searchKnnMine Q index (querydata curr.toNat) R maxValue ef topk
    (entry_point.toList.map Int.toNat) mem pool) (result, pool')

/-- One iteration of `get_recall`: the pool, the labels compared so far and `correct`. -/
def recallQuery (ans : ℕ → ℤ) (topk beamsize : ℕ) (mem : ℕ → UInt16)
    (s : VisitedListPool index.max_elements × List ℤ × F) (i : ℕ) :
    Run (VisitedListPool index.max_elements × List ℤ × F) := do
  let r ← searchLabel Q R index maxValue querydata beamsize topk mem s.1 i none
  pure (r.2, s.2.1 ++ [r.1], if r.1 = ans i then s.2.2 + 1 else s.2.2)

/-- `get_recall`, without the duration it measures: the state after the loop, and the
recall. -/
def getRecall (F : Type) [Scalar F] (ans : ℕ → ℤ) (n_elements topk beamsize : ℕ)
    (mem : ℕ → UInt16) (pool : VisitedListPool index.max_elements) :
    Run ((VisitedListPool index.max_elements × List ℤ × F) × F) := do
  let s ← (List.range n_elements).foldlM
    (recallQuery Q R index maxValue querydata ans topk beamsize mem) (pool, [], (0 : F))
  pure (s, s.2.2 / Scalar.ofInt n_elements)

/-- A label that is compared: it is on top of what the search finds. -/
structure Compared (ef topk : ℕ) (curr : ℤ) (seed : Option ℤ) (result : R.Heap) (b : ℤ) : Prop where
  finds : Finds Q R index maxValue querydata ef topk curr seed result
  top   : ∃ top, R.top result = some top ∧ b = top.2

/-- The label is that of the nearest point that the search finds. -/
def NearestFound (ef topk : ℕ) (curr : ℤ) (seed : Option ℤ) (b : ℤ) : Prop :=
  ∃ result, Finds Q R index maxValue querydata ef topk curr seed result ∧
    NearestLabel (R.elems result) b

variable {Q R index maxValue querydata}

theorem Finds.unique {ef topk : ℕ} {curr : ℤ} {seed : Option ℤ} {result result' : R.Heap}
    (h : Finds Q R index maxValue querydata ef topk curr seed result)
    (h' : Finds Q R index maxValue querydata ef topk curr seed result') : result = result' := by
  obtain ⟨pool, hret⟩ := h (fun _ => 0) ⟨[]⟩
  obtain ⟨pool', hret'⟩ := h' (fun _ => 0) ⟨[]⟩
  exact congrArg Prod.fst (hret.unique hret')

theorem Compared.nearestFound_iff {ef topk : ℕ} {curr : ℤ} {seed : Option ℤ} {result : R.Heap}
    {b : ℤ} (h : Compared Q R index maxValue querydata ef topk curr seed result b) :
    NearestFound Q R index maxValue querydata ef topk curr seed b ↔
      NearestLabel (R.elems result) b :=
  ⟨fun ⟨_, hfinds, hn⟩ => h.finds.unique hfinds ▸ hn, fun hn => ⟨result, h.finds, hn⟩⟩

theorem Compared.searchLabel {ef topk : ℕ} {curr : ℤ} {seed : Option ℤ} {result : R.Heap} {b : ℤ}
    (h : Compared Q R index maxValue querydata ef topk curr seed result b) (mem : ℕ → UInt16)
    (pool : VisitedListPool index.max_elements) :
    ∃ pool', Returns (searchLabel Q R index maxValue querydata ef topk mem pool curr seed)
      (b, pool') := by
  obtain ⟨pool', hret⟩ := h.finds mem pool
  obtain ⟨top, htop, rfl⟩ := h.top
  refine ⟨pool', hret.bind ?_⟩
  rw [htop]
  exact returns_pure _

variable (hQ : Q.Ordered fun a b => a.1 < b.1) (hpos : 0 < index.cur_element_count)
  {n_elements : ℕ} (hfin : ∀ c < n_elements, ∀ id < index.cur_element_count,
    index.dist (querydata c) id ≤ maxValue)

include hQ hpos hfin

/-- **One search.** It finds at least one and at most `topk` points, which are elements of the
index with their distances and labels. -/
theorem searchLabel_topk (ef : ℕ) {topk : ℕ} (htopk : 1 ≤ topk) {curr : ℤ}
    (hcurr : InBounds n_elements curr) {seed : Option ℤ} (hseed : ∀ p ∈ seed, IsElement index p) :
    ∃ result b, Compared Q R index maxValue querydata ef topk curr seed result b ∧
      Multiset.card (R.elems result) ≤ topk ∧
      ∀ e ∈ R.elems result, ∃ id < index.cur_element_count,
        e = (index.dist (querydata curr.toNat) id, index.externalLabel id) := by
  obtain ⟨top, hne, hret, helems, -⟩ := searchKnnMine_topk (querydata curr.toNat) hQ R
    (hfin curr.toNat hcurr.toNat_lt) hpos (seedPoints_lt hseed) ef htopk
  have hsize : Multiset.card (R.elems (labelResults Q index R (Q.shrink topk top))) =
      min topk (Q.size top) := by
    rw [elems_labelResults, Multiset.card_map]
    exact Q.size_shrink topk top
  obtain ⟨t, ht⟩ := R.exists_top_of_size (h := labelResults Q index R (Q.shrink topk top)) (by
    rw [PriorityQueue.size, hsize]
    omega)
  refine ⟨labelResults Q index R (Q.shrink topk top), t.2, ⟨hret, t, ht, rfl⟩, by omega,
    fun e he => ?_⟩
  rw [elems_labelResults, Multiset.mem_map] at he
  obtain ⟨rez, hrez, rfl⟩ := he
  obtain ⟨hid, hdist⟩ := helems rez (Q.mem_of_mem_shrink hrez)
  exact ⟨rez.2, hid, by rw [← hdist]⟩

/-- **Exactness** for one search: with distinct labels, the label on top is that of the nearest
point found exactly when no point found is farther than another. -/
theorem searchLabel_nearest_iff (hR : R.Ordered fun a b => toLex a < toLex b)
    (hinj : ∀ id < index.cur_element_count, ∀ id' < index.cur_element_count,
      index.externalLabel id = index.externalLabel id' → id = id') (ef : ℕ) {topk : ℕ}
    (htopk : 1 ≤ topk) {curr : ℤ} (hcurr : InBounds n_elements curr) {seed : Option ℤ}
    (hseed : ∀ p ∈ seed, IsElement index p) :
    ∃ result b, Compared Q R index maxValue querydata ef topk curr seed result b ∧
      (NearestLabel (R.elems result) b ↔ Equidistant (R.elems result)) := by
  obtain ⟨result, b, hcomp, -, helems⟩ :=
    searchLabel_topk (R := R) hQ hpos hfin ef htopk hcurr hseed
  obtain ⟨top, htop, rfl⟩ := hcomp.top
  refine ⟨result, _, hcomp, nearestLabel_iff hR htop fun e he e' he' heq => ?_⟩
  obtain ⟨id, hid, rfl⟩ := helems e he
  obtain ⟨id', hid', rfl⟩ := helems e' he'
  rw [hinj id hid id' hid' heq]

-- ---------------------------------------------------------------------------
-- The runs
-- ---------------------------------------------------------------------------

/-- The run of `get_recall` compares one label for each query. -/
theorem getRecall_returns (ans : ℕ → ℤ) (beamsize : ℕ) {topk : ℕ} (htopk : 1 ≤ topk)
    (mem : ℕ → UInt16) (pool : VisitedListPool index.max_elements) :
    ∃ r, Returns (getRecall Q R index maxValue querydata F ans n_elements topk beamsize mem pool) r ∧
      r.1.2.1.length = n_elements ∧
      ∀ (i : ℕ) (b : ℤ), r.1.2.1[i]? = some b → ∃ result : R.Heap,
        Compared Q R index maxValue querydata beamsize topk i none result b ∧
        Multiset.card (R.elems result) ≤ topk := by
  obtain ⟨s, hret, hlen, hlabels⟩ := range_returns
    (f := recallQuery Q R index maxValue querydata ans topk beamsize mem)
    (fun n (s : VisitedListPool index.max_elements × List ℤ × F) => s.2.1.length = n ∧
      ∀ (i : ℕ) (b : ℤ), s.2.1[i]? = some b → ∃ result : R.Heap,
        Compared Q R index maxValue querydata beamsize topk i none result b ∧
        Multiset.card (R.elems result) ≤ topk)
    (n := n_elements)
    (fun n hn s ⟨hlen, hlabels⟩ => by
      obtain ⟨result, b, hcomp, hcard, -⟩ := searchLabel_topk (R := R) hQ hpos hfin beamsize htopk
        (show InBounds n_elements n from ⟨by omega, by omega⟩)
        (fun p (hp : p ∈ none) => by cases hp)
      obtain ⟨pool', hret⟩ := hcomp.searchLabel mem s.1
      refine ⟨_, hret.bind (returns_pure _), by simp [hlen], fun i b' hi => ?_⟩
      dsimp only at hi
      rcases Nat.lt_or_ge i n with hlt | hge
      · rw [List.getElem?_append_left (by omega)] at hi
        exact hlabels i b' hi
      · rw [List.getElem?_append_right (by omega), List.getElem?_singleton] at hi
        split at hi
        · obtain rfl := Option.some.inj hi
          have hin : i = n := by omega
          exact ⟨result, hin ▸ hcomp, hcard⟩
        · cases hi)
    (s := (pool, [], (0 : F))) ⟨rfl, fun i b hi => by cases hi⟩
  exact ⟨_, hret.bind (returns_pure _), hlen, hlabels⟩

/-- The run of `get_recall_optimized` compares and stores one label for each entry. -/
theorem getRecallOptimized_topk
    (hlabel : ∀ id < index.cur_element_count, index.externalLabel id < index.cur_element_count)
    (ans : ℕ → ℤ) (beamsize : ℕ) {topk : ℕ} (htopk : 1 ≤ topk) (mem : ℕ → UInt16)
    {trajectory : Trajectory} (hacc : Accepted trajectory n_elements)
    (pool : VisitedListPool index.max_elements) :
    ∃ r, Returns (getRecallOptimized Q R index maxValue querydata F ans n_elements topk beamsize mem
        trajectory pool) r ∧
      r.1.searches = logOf r.1.ann trajectory ∧
      ∀ e ∈ trajectory, ∃ result : R.Heap,
        Compared Q R index maxValue querydata beamsize topk e.1 (seedOf r.1.ann e.2) result
          (r.1.ann e.1) ∧
        Multiset.card (R.elems result) ≤ topk := by
  let s₀ : RecallState (VisitedListPool index.max_elements) ℤ F :=
    { engine := pool, ann := fun _ => 0, correct := 0, searches := [] }
  let P : ℤ → Option ℤ → ℤ → Prop := fun curr seed b => ∃ result : R.Heap,
    Compared Q R index maxValue querydata beamsize topk curr seed result b ∧
    Multiset.card (R.elems result) ≤ topk
  have hsearch : ∀ (st : VisitedListPool index.max_elements) curr seed, True →
      InBounds n_elements curr → (∀ b ∈ seed, IsElement index b) →
      ∃ b st', Returns (searchLabel Q R index maxValue querydata beamsize topk mem st curr seed)
        (b, st') ∧ True ∧ IsElement index b ∧ P curr seed b := by
    intro st curr seed _ hcurr hseed
    obtain ⟨result, b, hcomp, hcard, helems⟩ :=
      searchLabel_topk (R := R) hQ hpos hfin beamsize htopk hcurr hseed
    obtain ⟨pool', hret⟩ := hcomp.searchLabel mem st
    refine ⟨b, pool', hret, trivial, ?_, result, hcomp, hcard⟩
    -- the label is the id of an element
    obtain ⟨top, htop, rfl⟩ := hcomp.top
    obtain ⟨id, hid, rfl⟩ := helems top (R.top_mem htop)
    exact ⟨by omega, by exact_mod_cast hlabel id hid⟩
  obtain ⟨s, hret, hinv⟩ : ∃ s, Returns (recallLoop n_elements
      (searchLabel Q R index maxValue querydata beamsize topk mem)
      (fun curr label => label = ans curr.toNat) (· + 1) trajectory s₀) s ∧
      RecallInv (fun _ => True) P (fun curr label => label = ans curr.toNat) (· + 1) s₀ trajectory s :=
    recallLoop_returns (IsElement index) hsearch hacc trivial
  exact ⟨_, hret.bind (returns_pure _), hinv.searches, hinv.answered.post⟩

end Search

/-- The property for one value of `topk`: with every non-empty index, every query matrix of
finite distances and every beam, both runs end, and each label that they compare or store
is that of the nearest point that its search finds. -/
def ComparesNearest (topk : ℕ) : Prop :=
  ∀ (V K F : Type) [LinearOrder K] [Neg K] [Scalar F] (Q R : PriorityQueue (K × ℕ))
    (index : HierarchicalNSW V K) (maxValue : K) (querydata : ℕ → V) (n_elements beamsize : ℕ)
    (ans : ℕ → ℤ) (mem : ℕ → UInt16) (pool : VisitedListPool index.max_elements),
    Q.Ordered (fun a b => a.1 < b.1) → R.Ordered (fun a b => toLex a < toLex b) →
    0 < index.cur_element_count → 1 ≤ beamsize →
    (∀ c < n_elements, ∀ id < index.cur_element_count, index.dist (querydata c) id ≤ maxValue) →
    (∃ r, Returns (getRecall Q R index maxValue querydata F ans n_elements topk beamsize mem pool) r ∧
      r.1.2.1.length = n_elements ∧ ∀ (i : ℕ) (b : ℤ), r.1.2.1[i]? = some b →
        NearestFound Q R index maxValue querydata beamsize topk i none b) ∧
    ((∀ id < index.cur_element_count, index.externalLabel id < index.cur_element_count) →
      ∀ trajectory : Trajectory, Accepted trajectory n_elements →
      ∃ r, Returns (getRecallOptimized Q R index maxValue querydata F ans n_elements topk beamsize
          mem trajectory pool) r ∧
        r.1.searches = logOf r.1.ann trajectory ∧ ∀ e ∈ trajectory,
          NearestFound Q R index maxValue querydata beamsize topk e.1 (seedOf r.1.ann e.2)
            (r.1.ann e.1))

/-- With `topk = 1` there is one result. -/
theorem comparesNearest_one : ComparesNearest 1 := by
  intro V K F _ _ _ Q R index maxValue querydata n_elements beamsize ans mem pool hQ hR hpos _ hfin
  have hnearest : ∀ {curr : ℤ} {seed : Option ℤ} {result : R.Heap} {b : ℤ},
      Compared Q R index maxValue querydata beamsize 1 curr seed result b →
      Multiset.card (R.elems result) ≤ 1 →
      NearestFound Q R index maxValue querydata beamsize 1 curr seed b := by
    intro curr seed result b hcomp hcard
    obtain ⟨top, htop, rfl⟩ := hcomp.top
    exact ⟨result, hcomp.finds, top, R.top_mem htop, rfl,
      equidistant_of_card_le_one hcard top (R.top_mem htop)⟩
  refine ⟨?_, fun hlabel trajectory hacc => ?_⟩
  · obtain ⟨r, hret, hlen, hlabels⟩ := getRecall_returns (R := R) (F := F) hQ hpos hfin ans beamsize
      (le_refl 1) mem pool
    refine ⟨r, hret, hlen, fun i b hi => ?_⟩
    obtain ⟨result, hcomp, hcard⟩ := hlabels i b hi
    exact hnearest hcomp hcard
  · obtain ⟨r, hret, hlog, hanswers⟩ := getRecallOptimized_topk (R := R) (F := F) hQ hpos hfin hlabel
      ans beamsize (le_refl 1) mem hacc pool
    refine ⟨r, hret, hlog, fun e he => ?_⟩
    obtain ⟨result, hcomp, hcard⟩ := hanswers e he
    exact hnearest hcomp hcard

-- ---------------------------------------------------------------------------
-- Two elements on a line
-- ---------------------------------------------------------------------------

theorem lineIndex_exactNeg : ExactNeg ℤ := ⟨neg_neg, fun _ _ h => neg_lt_neg h⟩

/-- Both elements can be reached from the first. -/
theorem lineIndex_reachable : {id | Reachable lineIndex [0] id} = {0, 1} := by
  ext id
  simp only [Set.mem_ofPred_eq, Set.mem_insert_iff, Set.mem_singleton_iff]
  constructor
  · intro h
    have hlt : id < 2 := h.lt (by decide)
    omega
  · rintro (rfl | rfl)
    · exact ⟨0, by simp, .refl⟩
    · exact ⟨0, by simp, .single (by decide)⟩

/-- A search that may return two points returns both elements. -/
theorem lineIndex_finds {R : PriorityQueue (ℤ × ℕ)} {topk : ℕ} (htopk : 2 ≤ topk) {result : R.Heap}
    (h : Finds (PriorityQueue.byKey Prod.fst) R lineIndex 100 (fun c : ℕ => (c : ℤ)) 1 topk 0 none
      result) :
    (0, 0) ∈ R.elems result ∧ (10, 1) ∈ R.elems result := by
  have hfin : ∀ id < lineIndex.cur_element_count, lineIndex.dist 0 id ≤ 100 := by decide
  have hlen : [0].length < max 1 topk := by
    rw [List.length_singleton]
    omega
  have hall : FindsAll (PriorityQueue.byKey Prod.fst) lineIndex 0 [0] (max 1 topk) 100 :=
    ((findsAll_iff (PriorityQueue.byKey_ordered Prod.fst) lineIndex_exactNeg hfin (by decide)
      (by decide) hlen.le (by decide)).2.2 hlen).mpr
      (Or.inr ⟨1, by decide +kernel, by decide, Or.inl hlen⟩)
  obtain ⟨r, hret, hcomplete⟩ := hall (fun _ => 0) ⟨[]⟩
  have hcard : Multiset.card ((PriorityQueue.byKey Prod.fst).elems r.1) = 2 := by
    rw [hcomplete.card, lineIndex_reachable, Set.ncard_pair (by decide)]
    omega
  -- two distinct ids below two
  have hids : (((PriorityQueue.byKey Prod.fst).elems r.1).map Prod.snd).toFinset = {0, 1} := by
    refine Finset.eq_of_subset_of_card_le (fun id hid => ?_) ?_
    · obtain ⟨e, he, rfl⟩ := Multiset.mem_map.mp (Multiset.mem_toFinset.mp hid)
      have hreach : e.2 ∈ {id | Reachable lineIndex [0] id} := hcomplete.reachable e he
      rw [lineIndex_reachable] at hreach
      simpa using hreach
    · rw [Multiset.toFinset_card_of_nodup hcomplete.nodup, Multiset.card_map, hcard]
      decide
  obtain ⟨pool', hfound⟩ := h (fun _ => 0) ⟨[]⟩
  have hpoints : Returns (startingPoints lineIndex 0 []) [0] :=
    returns_of_value (n := 0) (by decide +kernel)
  have hsearch : Returns (searchKnnMine (PriorityQueue.byKey Prod.fst) lineIndex 0 R 100 1 topk []
      (fun _ => 0) ⟨[]⟩) (labelResults _ lineIndex R (PriorityQueue.shrink _ topk r.1), r.2) :=
    hpoints.bind (hret.bind (returns_pure _))
  obtain ⟨result', pool'', hret', helems⟩ := searchKnnMine_returns
    (Q := PriorityQueue.byKey Prod.fst) lineIndex 0 R 100 1 topk
    (fun _ (hid : _ ∈ []) => absurd hid List.not_mem_nil) (fun _ => 0) ⟨[]⟩
  have heq : result' = result := congrArg Prod.fst (hret'.unique hfound)
  have hresult : result = labelResults _ lineIndex R (PriorityQueue.shrink _ topk r.1) :=
    congrArg Prod.fst (hfound.unique hsearch)
  have hmem : ∀ id ∈ ({0, 1} : Finset ℕ), (lineIndex.dist 0 id, id) ∈ R.elems result := by
    intro id hid
    rw [← hids, Multiset.mem_toFinset, Multiset.mem_map] at hid
    obtain ⟨e, he, rfl⟩ := hid
    have hlabel : (e.1, e.2) ∈ R.elems result := by
      rw [hresult, elems_labelResults, PriorityQueue.shrink_of_le _ (hcard.trans_le htopk),
        Multiset.mem_map]
      exact ⟨e, he, rfl⟩
    obtain ⟨id, -, hid⟩ := helems _ (heq ▸ hlabel)
    have hid' : e.2 = id := congrArg Prod.snd hid
    rw [hid'] at hid hlabel ⊢
    rwa [hid] at hlabel
  exact ⟨hmem 0 (by decide), hmem 1 (by decide)⟩

/-- With more than one result, the farther element is the one on top. -/
theorem not_comparesNearest {topk : ℕ} (htopk : 2 ≤ topk) : ¬ ComparesNearest topk := by
  intro hall
  have hQ := PriorityQueue.byKey_ordered (Prod.fst : ℤ × ℕ → ℤ)
  have hR := PriorityQueue.byKey_ordered (toLex : ℤ × ℕ → ℤ ×ₗ ℕ)
  have hfin : ∀ c < 1, ∀ id < lineIndex.cur_element_count,
      lineIndex.dist ((fun c : ℕ => (c : ℤ)) c) id ≤ 100 := by decide
  obtain ⟨⟨r, hret, hlen, hnear⟩, -⟩ := hall ℤ ℤ (Exact ℚ) _ _ lineIndex 100
    (fun c : ℕ => (c : ℤ)) 1 1 (fun _ => 0) (fun _ => 0) ⟨[]⟩ hQ hR (by decide) (le_refl 1) hfin
  obtain ⟨result, b, hcomp, hiff⟩ := searchLabel_nearest_iff hQ (by decide) hfin hR
    (fun _ _ _ _ heq => heq) 1 (show 1 ≤ topk by omega)
    (show InBounds 1 0 from ⟨le_refl 0, by decide⟩) (fun p (hp : p ∈ none) => by cases hp)
  obtain ⟨r', hret', -, hlabels⟩ := getRecall_returns (F := Exact ℚ)
    (R := PriorityQueue.byKey (toLex : ℤ × ℕ → ℤ ×ₗ ℕ)) hQ (by decide) hfin (fun _ => 0) 1
    (show 1 ≤ topk by omega) (fun _ => 0) ⟨[]⟩
  obtain rfl := hret.unique hret'
  obtain ⟨b', hb'⟩ : ∃ b', r.1.2.1[0]? = some b' := ⟨_, List.getElem?_eq_getElem (by omega)⟩
  obtain ⟨result', hcomp', -⟩ := hlabels 0 b' hb'
  obtain rfl := hcomp.finds.unique hcomp'.finds
  obtain ⟨top, htop, rfl⟩ := hcomp.top
  obtain ⟨top', htop', rfl⟩ := hcomp'.top
  obtain rfl := Option.some.inj (htop.symm.trans htop')
  have hequal := hiff.mp (hcomp'.nearestFound_iff.mp (hnear 0 _ hb'))
  obtain ⟨hzero, hten⟩ := lineIndex_finds htopk hcomp.finds
  exact absurd (hequal _ hten _ hzero) (by decide)

/-- **Which label is compared.** The runs compare the labels of the nearest points found if
and only if `topk` is one. For a single search and any `topk`, the label is that of the
nearest point exactly when no point found is farther than another. -/
theorem comparesNearest_iff {topk : ℕ} (htopk : 1 ≤ topk) :
    (ComparesNearest topk ↔ topk = 1) ∧
    ∀ (V K : Type) [LinearOrder K] [Neg K] (Q R : PriorityQueue (K × ℕ))
      (index : HierarchicalNSW V K) (maxValue : K) (querydata : ℕ → V) (n_elements ef : ℕ),
      Q.Ordered (fun a b => a.1 < b.1) → R.Ordered (fun a b => toLex a < toLex b) →
      0 < index.cur_element_count →
      (∀ c < n_elements, ∀ id < index.cur_element_count,
        index.dist (querydata c) id ≤ maxValue) →
      (∀ id < index.cur_element_count, ∀ id' < index.cur_element_count,
        index.externalLabel id = index.externalLabel id' → id = id') →
      ∀ curr, InBounds n_elements curr → ∀ seed : Option ℤ, (∀ p ∈ seed, IsElement index p) →
        ∃ result b, Compared Q R index maxValue querydata ef topk curr seed result b ∧
          (NearestLabel (R.elems result) b ↔ Equidistant (R.elems result)) := by
  refine ⟨⟨fun hall => ?_, fun h => h ▸ comparesNearest_one⟩, ?_⟩
  · by_contra hne
    exact not_comparesNearest (by omega) hall
  · intro V K _ _ Q R index maxValue querydata n_elements ef hQ hR hpos hfin hinj curr hcurr seed
      hseed
    exact searchLabel_nearest_iff hQ hpos hfin hR hinj ef htopk hcurr hseed

/-- One result is the nearest point, and two results are one too many. -/
theorem comparesNearest_one_not_two : ComparesNearest 1 ∧ ¬ ComparesNearest 2 := by
  refine ⟨(comparesNearest_iff (le_refl 1)).1.mpr rfl, fun hall => ?_⟩
  exact absurd ((comparesNearest_iff (show 1 ≤ 2 by decide)).1.mp hall) (by decide)

/-- The query `0` is searched with `topk = 2`. The elements at `10` and `0` are found; the label
of the one at `10` is compared, and stored as the seed, and the recall is zero. -/
theorem lineIndex_comparesFarthest :
    (∃ r, Returns (getRecall (PriorityQueue.byKey Prod.fst) (PriorityQueue.byKey toLex) lineIndex 100
        (fun c : ℕ => (c : ℤ)) (Exact ℚ) (fun _ => 0) 1 2 1 (fun _ => 0) ⟨[]⟩) r ∧
      (r.1.2.1, r.2) = ([1], 0)) ∧
    (∃ r, Returns (getRecallOptimized (PriorityQueue.byKey Prod.fst) (PriorityQueue.byKey toLex)
        lineIndex 100 (fun c : ℕ => (c : ℤ)) (Exact ℚ) (fun _ => 0) 1 2 1 (fun _ => 0) [(0, -1)]
        ⟨[]⟩) r ∧
      r.1.ann 0 = 1) ∧
    ¬ NearestFound (PriorityQueue.byKey Prod.fst) (PriorityQueue.byKey toLex) lineIndex 100
      (fun c : ℕ => (c : ℤ)) 1 2 0 none 1 := by
  refine ⟨exists_returns_of_value (n := 5)
      (f := fun r : (_ × List ℤ × Exact ℚ) × Exact ℚ => (r.1.2.1, r.2)) (by decide +kernel),
    exists_returns_of_value (n := 5)
      (f := fun r : RecallState _ ℤ (Exact ℚ) × Exact ℚ => r.1.ann 0) (by decide +kernel), ?_⟩
  rintro ⟨result, hfinds, near, hnear, hlabel, hleast⟩
  have hle := hleast _ (lineIndex_finds (le_refl 2) hfinds).1
  obtain ⟨result', pool', hret, helems⟩ := searchKnnMine_returns (Q := PriorityQueue.byKey Prod.fst)
    lineIndex (0 : ℤ) (PriorityQueue.byKey toLex) 100 1 2
    (fun _ (hid : _ ∈ []) => absurd hid List.not_mem_nil) (fun _ => 0) ⟨[]⟩
  obtain ⟨pool'', hret'⟩ := hfinds (fun _ => 0) ⟨[]⟩
  have heq : result = result' := congrArg Prod.fst (hret'.unique hret)
  obtain ⟨id, -, rfl⟩ := helems near (heq ▸ hnear)
  have hid : id = 1 := by exact_mod_cast hlabel
  subst hid
  exact absurd hle (by decide)

end Mqo.Search.Hnsw
