import Mqo.Index.Labels
import Mqo.Trajectory.Basic

/-!
# MQO — checking an HNSW index

`checkIntegrity` of `hnsw_exp/hnswlib/hnswalg.h`: the links of every list lead to elements of the
index, none to its own and none twice, and every element is in some list. The lists that `addPoint`
leaves never fail the first three checks; the last one is not ensured.

* `checkList_returns`   — a list of an intact index passes, and its links are counted;
* `checkIntegrity_iff`  — what is left of the check is that each element is linked;
* `addPoints_checked`   — after any sequence of calls.
-/

namespace Mqo.Index

open Prog Memory ByteStream

-- ---------------------------------------------------------------------------
-- The functions
-- ---------------------------------------------------------------------------

section Functions

variable {L : Layout} (s : HierarchicalNSW L)

/-- A link of the list that is checked: `inbound_connections_num` and the set `s`. -/
def checkLink (cur_element_count i : ℕ) (r : (ℕ → ℕ) × List ℕ) (v : ℕ) :
    Run ((ℕ → ℕ) × List ℕ) := do
  assert (v < cur_element_count) "data[j] < cur_element_count"
  assert (v ≠ i) "data[j] != i"
  pure (Function.update r.1 v (r.1 v + 1), r.2.insert v)

/-- The list of an element at a level is checked. -/
def HierarchicalNSW.checkList (i : ℕ) (inbound_connections_num : ℕ → ℕ) (l : ℕ) : Run (ℕ → ℕ) := do
  let data ← getLinks s.memory (L.getLinklistAtLevel i l)
  let r ← data.foldlM (checkLink s.cur_element_count i) (inbound_connections_num, [])
  assert (r.2.length = data.length) "s.size() == size"
  pure r.1

/-- `checkIntegrity`, without what it prints. -/
def HierarchicalNSW.checkIntegrity : Run Unit := do
  let inbound_connections_num ← (List.range s.cur_element_count).foldlM
    (fun inbound i => (List.range (s.element_levels i + 1)).foldlM (s.checkList i) inbound)
    (fun _ => 0)
  if 1 < s.cur_element_count then
    (List.range s.cur_element_count).foldlM
      (fun _ i => assert (0 < inbound_connections_num i) "inbound_connections_num[i] > 0") ()
  else pure ()

/-- Some list of an element below `n` names `v`. -/
def LinkedFrom (n v : ℕ) : Prop :=
  ∃ i < n, ∃ l ≤ s.element_levels i, v ∈ links s.memory (L.getLinklistAtLevel i l)

end Functions

-- ---------------------------------------------------------------------------
-- Intact indexes
-- ---------------------------------------------------------------------------

section Check

variable {L : Layout} {s : HierarchicalNSW L} {n : ℕ}

/-- The counts are those before, and one more for each link in `l`. -/
def Counted (before after : ℕ → ℕ) (l : List ℕ) : Prop := ∀ v, after v = before v + l.count v

/-- The links of a list that names others only, each once. -/
theorem checkLinks_returns {i : ℕ} {data : List ℕ} (hlt : ∀ v ∈ data, v < n) (hne : i ∉ data)
    (hnodup : data.Nodup) (before : ℕ → ℕ) :
    ∃ r, Returns (data.foldlM (checkLink n i) (before, [])) r ∧ Counted before r.1 data ∧
      r.2.length = data.length := by
  obtain ⟨r, hret, hcount, -, hlen⟩ := foldlM_returns
    (fun pre (r : (ℕ → ℕ) × List ℕ) =>
      Counted before r.1 pre ∧ (∀ v ∈ r.2, v ∈ pre) ∧ r.2.length = pre.length)
    (l := data) (f := checkLink n i)
    (fun pre v post r hsplit ⟨hcount, hsub, hlen⟩ => by
      have hmem : v ∈ data := by rw [hsplit]; simp
      have hnew : v ∉ pre := fun hpre => by
        rw [hsplit] at hnodup
        exact (List.nodup_append.mp hnodup).2.2 v hpre v List.mem_cons_self rfl
      have hother : v ≠ i := fun heq => hne (heq ▸ hmem)
      refine ⟨_, (assert_returns.mpr (hlt v hmem)).bind ((assert_returns.mpr hother).bind
        (returns_pure _)), fun w => ?_, fun w hw => ?_, ?_⟩
      · dsimp only
        by_cases hw : w = v
        · subst hw
          rw [Function.update_self, hcount, List.count_append]
          simp [Nat.add_assoc]
        · rw [Function.update_of_ne hw, hcount, List.count_append, List.count_singleton]
          simp [Ne.symm hw]
      · rcases List.mem_insert_iff.mp hw with rfl | hw
        · simp
        · exact List.mem_append_left _ (hsub w hw)
      · rw [List.length_insert_of_not_mem fun hin => hnew (hsub v hin), hlen,
          List.length_append, List.length_singleton])
    (s := (before, [])) ⟨fun _ => by simp, fun _ h => h, rfl⟩
  exact ⟨r, hret, hcount, hlen⟩

variable (hL : L.WellFormed) (hcount : s.cur_element_count = n)
  (h : Intact L s.element_levels n (fun _ => n) s.memory)

include hL hcount h

/-- **A list** passes its three checks. -/
theorem checkList_returns {i l : ℕ} (hi : i < n) (hl : l ≤ s.element_levels i) (before : ℕ → ℕ) :
    ∃ after, Returns (s.checkList i before l) after ∧
      Counted before after (links s.memory (L.getLinklistAtLevel i l)) := by
  obtain ⟨r, hret, hcounted, hlen⟩ := checkLinks_returns
    (fun v hv => (h.target i hi l hl v hv).1) (h.irrefl i hi l hl) (h.nodup i hi l hl) before
  rw [← hcount] at hret
  exact ⟨r.1, (h.getLinks_returns hL hi hl).bind (hret.bind
    ((assert_returns.mpr hlen).bind (returns_pure _))), hcounted⟩

/-- **All lists**: a number is left at zero exactly when no list names the element. -/
theorem checkLists_returns :
    ∃ inbound, Returns ((List.range n).foldlM (fun inbound i =>
        (List.range (s.element_levels i + 1)).foldlM (s.checkList i) inbound) (fun _ => 0)) inbound ∧
      ∀ v, 0 < inbound v ↔ LinkedFrom s n v := by
  refine range_returns (fun k (inbound : ℕ → ℕ) => ∀ v, 0 < inbound v ↔ LinkedFrom s k v)
    (fun i hi inbound hinbound => ?_)
    (fun v => by simp [LinkedFrom])
  obtain ⟨after, hret, hafter⟩ := range_returns (f := s.checkList i) (n := s.element_levels i + 1)
    (fun k (after : ℕ → ℕ) => ∀ v, 0 < after v ↔
      LinkedFrom s i v ∨ ∃ l < k, v ∈ links s.memory (L.getLinklistAtLevel i l))
    (fun l hl before hbefore => by
      obtain ⟨after, hret, hcounted⟩ := checkList_returns hL hcount h hi
        (Nat.lt_succ_iff.mp hl) before
      refine ⟨after, hret, fun v => ?_⟩
      rw [hcounted v, Nat.add_pos_iff_pos_or_pos, hbefore v, List.count_pos_iff, or_assoc]
      refine or_congr_right ⟨?_, ?_⟩
      · rintro (⟨l', hl', hv⟩ | hv)
        · exact ⟨l', by omega, hv⟩
        · exact ⟨l, Nat.lt_succ_self l, hv⟩
      · rintro ⟨l', hl', hv⟩
        rcases Nat.lt_succ_iff_lt_or_eq.mp hl' with hl' | rfl
        · exact Or.inl ⟨l', hl', hv⟩
        · exact Or.inr hv)
    (s := inbound) (fun v => by rw [hinbound v]; simp)
  refine ⟨after, hret, fun v => (hafter v).trans ⟨?_, ?_⟩⟩
  · rintro (⟨j, hj, hrest⟩ | ⟨l, hl, hv⟩)
    · exact ⟨j, by omega, hrest⟩
    · exact ⟨i, Nat.lt_succ_self i, l, Nat.lt_succ_iff.mp hl, hv⟩
  · rintro ⟨j, hj, l, hl, hv⟩
    rcases Nat.lt_succ_iff_lt_or_eq.mp hj with hj | rfl
    · exact Or.inl ⟨j, hj, l, hl, hv⟩
    · exact Or.inr ⟨l, Nat.lt_succ_iff.mpr hl, hv⟩

/-- **The whole check** of an intact index. -/
theorem checkIntegrity_iff :
    (Returns s.checkIntegrity () ∧ (1 < n → ∀ v < n, LinkedFrom s n v)) ∨
    (Fails s.checkIntegrity (.assertFailed "inbound_connections_num[i] > 0") ∧ 1 < n ∧
      ∃ v < n, ¬ LinkedFrom s n v) := by
  obtain ⟨inbound, hret, hinbound⟩ := checkLists_returns hL hcount h
  unfold HierarchicalNSW.checkIntegrity
  rw [hcount]
  by_cases hone : 1 < n
  · rcases foldlM_ends
      (fun pre (_ : Unit) => ∀ v ∈ pre, LinkedFrom s n v)
      (fun e => e = .assertFailed "inbound_connections_num[i] > 0" ∧ ∃ v < n, ¬ LinkedFrom s n v)
      (l := List.range n)
      (f := fun _ i => assert (0 < inbound i) "inbound_connections_num[i] > 0")
      (fun pre i post _ hsplit hall => by
        have hi : i < n := List.mem_range.mp (by rw [hsplit]; simp)
        by_cases hpos : 0 < inbound i
        · refine Or.inl ⟨(), assert_returns.mpr hpos, fun v hv => ?_⟩
          rcases List.mem_append.mp hv with hv | hv
          · exact hall v hv
          · rw [List.mem_singleton.mp hv]
            exact (hinbound i).mp hpos
        · refine Or.inr ⟨_, ?_, rfl, i, hi, fun hlinked => hpos ((hinbound i).mpr hlinked)⟩
          rw [assert, if_neg hpos]
          exact fails_fault _)
      (s := ()) (fun v hv => absurd hv List.not_mem_nil) with ⟨_, hpass, hall⟩ | ⟨e, hfail, rfl, hbad⟩
    · refine Or.inl ⟨hret.bind ?_, fun _ v hv => hall v (List.mem_range.mpr hv)⟩
      rw [if_pos hone]
      exact hpass
    · refine Or.inr ⟨hret.bind_ends ?_, hone, hbad⟩
      rw [if_pos hone]
      exact hfail
  · refine Or.inl ⟨hret.bind ?_, fun hmore => absurd hmore hone⟩
    rw [if_neg hone]
    exact returns_pure ()

end Check

-- ---------------------------------------------------------------------------
-- After any sequence of calls
-- ---------------------------------------------------------------------------

section Calls

variable {K : Type} [Preorder K] [DecidableLT K] [Neg K] (P : Platform K) {L : Layout}
  (fstdistfunc : List UInt8 → List UInt8 → K) {calls : List Insertion}

/-- **`checkIntegrity` after `addPoint`.** No check of a list ever fails; the check of the elements
fails exactly when one of two or more is in no list. -/
theorem addPoints_checked (hL : L.WellFormed) (draws : ℕ → LevelDraw)
    (hlabel : ∀ call ∈ calls, call.label < 2 ^ 64)
    (hdata : ∀ call ∈ calls, call.data_point.length = L.data_size)
    (hcap : (labels calls).card ≤ L.max_elements) :
    ∃ s, Returns (addPoints P L fstdistfunc draws calls) s ∧
      ((Returns s.checkIntegrity () ∧
          (1 < s.cur_element_count → ∀ v < s.cur_element_count, LinkedFrom s s.cur_element_count v)) ∨
        (Fails s.checkIntegrity (.assertFailed "inbound_connections_num[i] > 0") ∧
          1 < s.cur_element_count ∧
          ∃ v < s.cur_element_count, ¬ LinkedFrom s s.cur_element_count v)) := by
  rcases addPoints_holding fstdistfunc (P := P) hL draws hlabel hdata with
    ⟨s, hret, ⟨label, vec, hheld, -⟩, -⟩ | ⟨-, hmore⟩
  · refine ⟨s, hret, ?_⟩
    rw [hheld.count]
    exact checkIntegrity_iff hL hheld.count hheld.intact
  · exact absurd hcap (not_le.mpr hmore)

end Calls

theorem addPoints_checked_line :
    let L := Layout.new linePlatform.mult 1 4 1 2
    ∃ s, Returns (addPoints linePlatform L lineDistance (fun _ => baseLevel) lineCalls) s ∧
      (Returns s.checkIntegrity () ∨
        Fails s.checkIntegrity (.assertFailed "inbound_connections_num[i] > 0")) := by
  intro L
  obtain ⟨s, hret, hcheck⟩ := addPoints_checked linePlatform lineDistance lineLayout_wellFormed
    (fun _ => baseLevel) (show ∀ call ∈ lineCalls, call.label < 2 ^ 64 by decide)
    (show ∀ call ∈ lineCalls, call.data_point.length = 1 by decide)
    (show (labels lineCalls).card ≤ 4 by decide)
  exact ⟨s, hret, hcheck.imp And.left And.left⟩

end Mqo.Index
