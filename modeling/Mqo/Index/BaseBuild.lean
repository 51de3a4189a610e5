import Mqo.Index.BaseOnly

/-!
# MQO — the base layer after a sequence of insertions

The loop of `build_ann_base_only`, and the same points inserted with `addPoint` on a fresh
index all of whose levels are drawn to be zero.

The labels of the second loop are distinct: `addPoint` moves an element whose label is
already there, and `addPoint_modified` never looks. Past the capacity `addPoint` throws, and
`addPoint_modified` writes behind its block.

* `insertModified_returns`, `insertModified_full` — the loops, up to the capacity and past it;
* `addPointModified_same`                         — both loops build the same index;
* `addPointModified_invariants`                   — what holds of it after each insertion.
-/

namespace Mqo.Index

open Prog Memory ByteStream
open Mqo.Search.Hnsw (ExactNeg)

-- ---------------------------------------------------------------------------
-- The insertion loops
-- ---------------------------------------------------------------------------

section Runs

variable {K : Type} [LinearOrder K] [Neg K] {P : Platform K} {L : Layout}
  (fstdistfunc : List UInt8 → List UInt8 → K) {row : ℕ → List UInt8} {label : ℕ → ℕ}
  (draws draws₀ : ℕ → LevelDraw) {n : ℕ}
  (updatePoint : HierarchicalNSW L → List UInt8 → ℕ → Run (HierarchicalNSW L))

/-- **The loops** over points that fit, with distinct labels for `addPoint`. -/
theorem insertModified_returns (hQ : P.byFirst.Ordered fun a b => a.1 < b.1) (hneg : ExactNeg K)
    (hL : L.WellFormed) (hn : n ≤ L.max_elements) (hrow : ∀ i < n, (row i).length = L.data_size)
    (hlabel : ∀ i < n, label i < 2 ^ 64) :
    ∃ s, Returns (insertModified P L fstdistfunc row label draws n) s ∧ BaseBuilt L label n s ∧
      ((∀ i < n, ∀ j < n, label i = label j → i = j) → (∀ k, (draws₀ k).level = 0) →
        Returns (insertPoints P L fstdistfunc updatePoint row label draws₀ n)
          { s with level_generator := fun k => draws₀ (k + n) }) := by
  refine range_returns (fun i s => BaseBuilt L label i s ∧
      ((∀ i < n, ∀ j < n, label i = label j → i = j) → (∀ k, (draws₀ k).level = 0) →
        Returns (insertPoints P L fstdistfunc updatePoint row label draws₀ i)
          { s with level_generator := fun k => draws₀ (k + i) }))
    (fun i hi s ⟨hs, hsame⟩ => ?_) ⟨BaseBuilt.new draws, fun _ _ => foldlM_nil _ _⟩
  obtain ⟨s', hret, hs', hadd⟩ := hs.insert fstdistfunc hQ hneg hL (by omega) (hlabel i hi)
    (hrow i hi)
  refine ⟨s', hret.map, hs', fun hinj hzero => ?_⟩
  have hfresh : s.label_lookup (label i) = none := hs.lookup (label i) fun j hj heq => by
    have := hinj j (by omega) i hi heq
    omega
  have hstep := hadd updatePoint (fun k => draws₀ (k + i)) hfresh (hzero _)
  have hshift : (fun k => draws₀ (k + 1 + i)) = fun k => draws₀ (k + (i + 1)) := by
    funext k
    rw [Nat.add_assoc, Nat.add_comm 1 i]
  rw [hshift] at hstep
  unfold insertPoints
  rw [List.range_succ]
  exact foldlM_append (hsame hinj hzero) (foldlM_cons hstep (foldlM_nil _ _))

omit [LinearOrder K] [Neg K] in
/-- There is no room for a record behind the last one. -/
theorem storeRecord_fails (hL : L.WellFormed) {m : Memory Region}
    (hsize : (m .data_level0_memory).size = L.max_elements * L.size_data_per_element) {cur_c : ℕ}
    (hcur : cur_c = L.max_elements) (label : ℕ) (data_point : List UInt8) :
    Fails (storeRecord L m cur_c label data_point) .outOfRange := by
  subst hcur
  have hout : ¬ Holds m ⟨.data_level0_memory, (L.getLinklist0 L.max_elements).offset,
      (zeros L.size_data_per_element).length⟩ := by
    show ¬ L.max_elements * L.size_data_per_element + L.offsetLevel0 +
      (zeros L.size_data_per_element).length ≤ (m .data_level0_memory).size
    have := hL.size
    rw [hsize, length_zeros]
    omega
  unfold storeRecord store
  rw [if_neg hout]
  exact (fails_fault _).bind

theorem range_split {k n : ℕ} (h : k < n) : ∃ rest, List.range n = List.range k ++ k :: rest := by
  refine ⟨(List.range n).drop (k + 1), ?_⟩
  have hk : k < (List.range n).length := by rwa [List.length_range]
  have hdrop := List.drop_eq_getElem_cons hk
  rw [List.getElem_range] at hdrop
  rw [← hdrop]
  conv_lhs => rw [← List.take_append_drop k (List.range n)]
  rw [List.take_range, Nat.min_eq_left h.le]

/-- More points than the index has room for. -/
theorem insertModified_full (hQ : P.byFirst.Ordered fun a b => a.1 < b.1) (hneg : ExactNeg K)
    (hL : L.WellFormed) (hn : L.max_elements < n) (hrow : ∀ i < n, (row i).length = L.data_size)
    (hlabel : ∀ i < n, label i < 2 ^ 64) :
    Fails (insertModified P L fstdistfunc row label draws n) .outOfRange ∧
      ((∀ i < n, ∀ j < n, label i = label j → i = j) → (∀ k, (draws₀ k).level = 0) →
        Fails (insertPoints P L fstdistfunc updatePoint row label draws₀ n)
          (.exception "The number of elements exceeds the specified limit")) := by
  obtain ⟨s, hret, hs, hsame⟩ := insertModified_returns fstdistfunc draws draws₀ updatePoint hQ
    hneg hL (le_refl L.max_elements) (fun i hi => hrow i (by omega)) (fun i hi => hlabel i (by omega))
  obtain ⟨rest, hsplit⟩ := range_split hn
  unfold insertModified insertPoints at *
  rw [hsplit]
  refine ⟨foldlM_append hret (foldlM_fails ?_), fun hinj hzero => ?_⟩
  · have hadd : Fails (addPointModified P fstdistfunc s (row L.max_elements) (label L.max_elements))
        .outOfRange := (storeRecord_fails hL hs.graph.level0 hs.count _ _).bind
    exact hadd.bind
  · refine foldlM_append (hsame (fun i hi j hj => hinj i (by omega) j (by omega)) hzero)
      (foldlM_fails ?_)
    have hfresh : s.label_lookup (label L.max_elements) = none :=
      hs.lookup _ fun j hj heq => by
        have := hinj j (by omega) L.max_elements hn heq
        omega
    unfold addPoint addPointAt
    dsimp only
    rw [hfresh]
    dsimp only
    rw [if_pos hs.count.ge]
    exact (fails_fault _).bind

end Runs

-- ---------------------------------------------------------------------------
-- A fresh index
-- ---------------------------------------------------------------------------

section Fresh

variable {K : Type} [LinearOrder K] [Neg K] (P : Platform K)
  (hQ : P.byFirst.Ordered fun a b => a.1 < b.1) (hneg : ExactNeg K)
  {data_size max_elements M ef_construction n : ℕ} (hdata : data_size < 2 ^ 63)
  (hmax : max_elements < 2 ^ 31) (hM : 1 ≤ M) (hef : ef_construction < 2 ^ 64)
  (fstdistfunc : List UInt8 → List UInt8 → K) {row : ℕ → List UInt8} {label : ℕ → ℕ}
  (hrow : ∀ i < n, (row i).length = data_size) (hlabel : ∀ i < n, label i < 2 ^ 64)

include hQ hneg hdata hmax hM hef hrow hlabel

/-- **The two insertions agree.** A fresh index is given the same points, under distinct labels,
by `addPoint_modified` and by `addPoint` with every level drawn to be zero. As long as they fit,
both end with the same lists, labels and entry point; otherwise neither ends. -/
theorem addPointModified_same
    (updatePoint : HierarchicalNSW (Layout.new P.mult data_size max_elements M ef_construction) →
      List UInt8 → ℕ →
      Run (HierarchicalNSW (Layout.new P.mult data_size max_elements M ef_construction)))
    (draws : ℕ → LevelDraw) {draws₀ : ℕ → LevelDraw} (hzero : ∀ k, (draws₀ k).level = 0)
    (hdistinct : ∀ i < n, ∀ j < n, label i = label j → i = j) :
    let L := Layout.new P.mult data_size max_elements M ef_construction
    (n ≤ max_elements → ∃ s s',
      Returns (insertModified P L fstdistfunc row label draws n) s ∧
      Returns (insertPoints P L fstdistfunc updatePoint row label draws₀ n) s' ∧
      s.cur_element_count = n ∧ s'.cur_element_count = n ∧
      s'.enterpoint_node = s.enterpoint_node ∧
      (∀ id < n, ∃ ids, Returns (getLinks s.memory (L.getLinklist0 id)) ids ∧
        Returns (getLinks s'.memory (L.getLinklist0 id)) ids) ∧
      ∀ id < n, Returns (L.getExternalLabel s.memory id) (label id) ∧
        Returns (L.getExternalLabel s'.memory id) (label id)) ∧
    (max_elements < n →
      (∀ s, ¬ Returns (insertModified P L fstdistfunc row label draws n) s) ∧
      ∀ s, ¬ Returns (insertPoints P L fstdistfunc updatePoint row label draws₀ n) s) := by
  intro L
  have hL : L.WellFormed := Layout.new_wellFormed P.mult hdata hmax hM hef
  refine ⟨fun hn => ?_, fun hn => ?_⟩
  · obtain ⟨s, hret, hs, hsame⟩ := insertModified_returns fstdistfunc draws draws₀ updatePoint hQ
      hneg hL hn hrow hlabel
    refine ⟨s, _, hret, hsame hdistinct hzero, hs.count, hs.count, rfl, fun id hid => ?_,
      fun id hid => ?_⟩
    · have hlist := hs.graph.getLinks_returns hL hid (le_refl 0)
      exact ⟨_, hlist, hlist⟩
    · have hlab := hs.graph.getExternalLabel_returns hL hid
      rw [hs.stored id hid] at hlab
      exact ⟨hlab, hlab⟩
  · obtain ⟨hfail, hfail'⟩ := insertModified_full fstdistfunc draws draws₀ updatePoint hQ hneg hL hn
      hrow hlabel
    exact ⟨fun s hs => hs.not_fails hfail, fun s hs => hs.not_fails (hfail' hdistinct hzero)⟩

/-- **After each insertion** that fits, the lists of the base layer are short, name nothing
twice, only what is there and not their own element, and are empty in an index of one alone. -/
theorem addPointModified_invariants (draws : ℕ → LevelDraw) (hn : n ≤ max_elements) :
    let L := Layout.new P.mult data_size max_elements M ef_construction
    ∀ k ≤ n, ∃ s, Returns (insertModified P L fstdistfunc row label draws k) s ∧
      s.cur_element_count = k ∧
      (∀ id < k, ∃ ids, Returns (getLinks s.memory (L.getLinklist0 id)) ids ∧
        ids.length ≤ 2 * M ∧ ids.Nodup ∧ (∀ v ∈ ids, v < k ∧ v ≠ id) ∧ (2 ≤ k → ids ≠ [])) ∧
      (0 < k → s.enterpoint_node = 0) := by
  intro L k hk
  have hL : L.WellFormed := Layout.new_wellFormed P.mult hdata hmax hM hef
  obtain ⟨s, hret, hs, -⟩ := insertModified_returns fstdistfunc draws draws (fun s _ _ => pure s) hQ
    hneg hL (hk.trans hn) (fun i hi => hrow i (hi.trans_le hk))
    (fun i hi => hlabel i (hi.trans_le hk))
  refine ⟨s, hret, hs.count, fun id hid => ?_, fun hpos => ?_⟩
  · have hlist := hs.graph.getLinks_returns hL hid (le_refl 0)
    refine ⟨_, hlist, ?_, hs.linked.nodup id hid, fun v hv => ⟨?_, ?_⟩,
      fun htwo => hs.linked.nonempty htwo id hid⟩
    · have hroom := hs.graph.room id hid 0 (le_refl 0)
      have hcap : L.Mcurmax 0 ≤ 2 * M := by
        show (if M ≤ 10000 then M else 10000) * 2 ≤ 2 * M
        split <;> omega
      rw [length_links]
      exact hroom.trans hcap
    · exact (hs.graph.target id hid 0 (le_refl 0) v hv).1
    · rintro rfl
      exact hs.linked.irrefl v hid hv
  · rcases hs.entry with ⟨rfl, -⟩ | ⟨-, hentry, -⟩
    · exact absurd hpos (lt_irrefl 0)
    · exact hentry

end Fresh

-- ---------------------------------------------------------------------------
-- Four points on a line
-- ---------------------------------------------------------------------------

/-- Heaps as sorted lists. -/
def linePlatform : Platform ℤ where
  byFirst := .byKey Prod.fst
  byPair := .byKey fun e => toLex e
  maxValue := 2 ^ 31
  mult _ := 0
  malloc _ := 0
  newList _ := 0

def linePoint (i : ℕ) : List UInt8 := toBytes 1 (7 * i)

def lineLabel (i : ℕ) : ℕ := 10 * i

def baseLevel : LevelDraw := ⟨0, by decide⟩

def lineDistance (a b : List UInt8) : ℤ := |(ofBytes a : ℤ) - ofBytes b|

theorem addPointModified_same_line :
    let L := Layout.new linePlatform.mult 1 4 1 2
    ∃ s s',
      Returns (insertModified linePlatform L lineDistance linePoint lineLabel (fun _ => baseLevel) 4)
        s ∧
      Returns (insertPoints linePlatform L lineDistance (fun s _ _ => pure s) linePoint lineLabel
        (fun _ => baseLevel) 4) s' ∧
      s'.enterpoint_node = s.enterpoint_node ∧
      ∀ id < 4, ∃ ids, Returns (getLinks s.memory (L.getLinklist0 id)) ids ∧
        Returns (getLinks s'.memory (L.getLinklist0 id)) ids := by
  intro L
  obtain ⟨s, s', hs, hs', -, -, hentry, hlists, -⟩ := (addPointModified_same linePlatform
    (PriorityQueue.byKey_ordered Prod.fst) ⟨neg_neg, fun _ _ h => neg_lt_neg h⟩
    (show 1 < 2 ^ 63 by decide) (show 4 < 2 ^ 31 by decide) (le_refl 1) (show 2 < 2 ^ 64 by decide)
    lineDistance (fun i (_ : i < 4) => show (linePoint i).length = 1 from length_toBytes 1 _)
    (fun i hi => show lineLabel i < 2 ^ 64 by unfold lineLabel; omega) (fun s _ _ => pure s)
    (fun _ => baseLevel) (fun _ => show baseLevel.level = 0 from rfl)
    (fun i _ j _ h => by unfold lineLabel at h; omega)).1 (le_refl 4)
  exact ⟨s, s', hs, hs', hentry, hlists⟩

theorem addPointModified_invariants_line :
    let L := Layout.new linePlatform.mult 1 4 1 2
    ∃ s, Returns (insertModified linePlatform L lineDistance linePoint lineLabel
        (fun _ => baseLevel) 4) s ∧
      ∀ id < 4, ∃ ids, Returns (getLinks s.memory (L.getLinklist0 id)) ids ∧
        ids.length ≤ 2 ∧ ids.Nodup ∧ (∀ v ∈ ids, v < 4 ∧ v ≠ id) ∧ ids ≠ [] := by
  intro L
  obtain ⟨s, hs, -, hlists, -⟩ := addPointModified_invariants linePlatform
    (PriorityQueue.byKey_ordered Prod.fst) ⟨neg_neg, fun _ _ h => neg_lt_neg h⟩
    (show 1 < 2 ^ 63 by decide) (show 4 < 2 ^ 31 by decide) (le_refl 1) (show 2 < 2 ^ 64 by decide)
    lineDistance (fun i (_ : i < 4) => show (linePoint i).length = 1 from length_toBytes 1 _)
    (fun i hi => show lineLabel i < 2 ^ 64 by unfold lineLabel; omega) (fun _ => baseLevel)
    (le_refl 4) 4 (le_refl 4)
  refine ⟨s, hs, fun id hid => ?_⟩
  obtain ⟨ids, hret, hlen, hnodup, hin, hne⟩ := hlists id hid
  exact ⟨ids, hret, hlen, hnodup, hin, hne (by decide)⟩

end Mqo.Index
