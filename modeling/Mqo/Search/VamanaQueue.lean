import Mathlib.Data.Prod.Lex
import Mathlib.Data.Set.Insert
import Mqo.Lib.SortedArray

/-!
# MQO — the candidate queue of the Vamana search

`Neighbor` and `NeighborPriorityQueue` of `DiskANN/include/neighbor.h`: an array
sorted by distance and id, with a capacity and a cursor at the first candidate
that has not been expanded. `Holds dist L offered q` says what the queue is for:
it holds the `L` least of the nodes offered to it.

* `locate_spec`            — the binary search of `insert`;
* `Holds.insert`           — offering a node;
* `AtCursor.insert`        — the cursor goes back to an inserted node;
* `closestUnexpanded_spec` — the candidate at the cursor is marked, and the cursor
  moves on.
-/

namespace Mqo.Search.Vamana

open SortedArray

/-- `diskann::Neighbor` -/
structure Neighbor (K : Type) where
  id : ℕ
  distance : K
  expanded : Bool
deriving DecidableEq

/-- `NeighborPriorityQueue` -/
structure NeighborPriorityQueue (K : Type) where
  size : ℕ
  capacity : ℕ
  cur : ℕ
  data : ℕ → Neighbor K

section Queue

variable {K : Type} [LinearOrder K]

/-- `operator<` -/
instance : LT (Neighbor K) where
  lt nbr other := nbr.distance < other.distance ∨ nbr.distance = other.distance ∧ nbr.id < other.id

instance (nbr other : Neighbor K) : Decidable (nbr < other) :=
  inferInstanceAs (Decidable (_ ∨ _ ∧ _))

/-- The loop `while (lo < hi)` of `insert`; `none` when it meets the id. `fuel` is at
least the width of the interval. -/
def locate (data : ℕ → Neighbor K) (nbr : Neighbor K) : ℕ → ℕ → ℕ → Option ℕ
  | 0, lo, _ => some lo
  | fuel + 1, lo, hi =>
    if lo < hi then
      let mid := (lo + hi) / 2
      if nbr < data mid then locate data nbr fuel lo mid
      else if (data mid).id = nbr.id then none
      else locate data nbr fuel (mid + 1) hi
    else some lo

omit [LinearOrder K] in
/-- `memmove(&_data[lo + 1], &_data[lo], n * sizeof(Neighbor))` -/
def memmove (data : ℕ → Neighbor K) (lo n : ℕ) : ℕ → Neighbor K := fun i =>
  if lo < i ∧ i ≤ lo + n then data (i - 1) else data i

namespace NeighborPriorityQueue

/-- `insert` -/
def insert (q : NeighborPriorityQueue K) (nbr : Neighbor K) : NeighborPriorityQueue K :=
  if q.size = q.capacity ∧ q.data (q.size - 1) < nbr then q
  else
    match locate q.data nbr q.size 0 q.size with
    | none => q
    | some lo =>
      let data := if lo < q.capacity then memmove q.data lo (q.size - lo) else q.data
      { data := Function.update data lo ⟨nbr.id, nbr.distance, false⟩
        size := if q.size < q.capacity then q.size + 1 else q.size
        capacity := q.capacity
        cur := if lo < q.cur then lo else q.cur }

omit [LinearOrder K] in
/-- The loop of `closest_unexpanded` that moves the cursor. -/
def advance (data : ℕ → Neighbor K) (size : ℕ) : ℕ → ℕ → ℕ
  | 0, cur => cur
  | fuel + 1, cur =>
    if cur < size ∧ (data cur).expanded = true then advance data size fuel (cur + 1) else cur

omit [LinearOrder K] in
/-- `closest_unexpanded` -/
def closestUnexpanded (q : NeighborPriorityQueue K) : Neighbor K × NeighborPriorityQueue K :=
  let data := Function.update q.data q.cur { q.data q.cur with expanded := true }
  (data q.cur, { q with data := data, cur := advance data q.size q.size q.cur })

/-- `has_unexpanded_node` -/
def hasUnexpandedNode (q : NeighborPriorityQueue K) : Bool := q.cur < q.size

/-- `reserve`, on a storage that grows by itself. -/
def reserve (q : NeighborPriorityQueue K) (capacity : ℕ) : NeighborPriorityQueue K :=
  { q with capacity := capacity }

/-- The candidates `_data[0]`, …, `_data[_size - 1]`. -/
def toList (q : NeighborPriorityQueue K) : List (Neighbor K) := (List.range q.size).map q.data

/-- `clear` -/
def clear (q : NeighborPriorityQueue K) : NeighborPriorityQueue K := { q with size := 0, cur := 0 }

end NeighborPriorityQueue

omit [LinearOrder K] in
@[simp] theorem length_toList (q : NeighborPriorityQueue K) : q.toList.length = q.size := by
  rw [NeighborPriorityQueue.toList, List.length_map, List.length_range]

omit [LinearOrder K] in
theorem mem_take_toList {q : NeighborPriorityQueue K} {k : ℕ} {nbr : Neighbor K} :
    nbr ∈ q.toList.take k ↔ ∃ i < q.size, i < k ∧ q.data i = nbr := by
  rw [NeighborPriorityQueue.toList, ← List.map_take, List.take_range, List.mem_map]
  simp only [List.mem_range, Nat.lt_min, and_assoc, and_left_comm]

omit [LinearOrder K] in
theorem mem_toList {q : NeighborPriorityQueue K} {nbr : Neighbor K} :
    nbr ∈ q.toList ↔ ∃ i < q.size, q.data i = nbr := by
  rw [NeighborPriorityQueue.toList, List.mem_map]
  simp only [List.mem_range]

omit [LinearOrder K] in
theorem head?_toList {q : NeighborPriorityQueue K} (h : 0 < q.size) :
    q.toList.head? = some (q.data 0) := by
  obtain ⟨m, hm⟩ := Nat.exists_eq_succ_of_ne_zero (Nat.ne_of_gt h)
  rw [NeighborPriorityQueue.toList, hm, List.range_succ_eq_map, List.map_cons, List.head?_cons]

-- ---------------------------------------------------------------------------
-- The order of the candidates
-- ---------------------------------------------------------------------------

/-- The pair that `operator<` compares. -/
def Neighbor.key (nbr : Neighbor K) : K ×ₗ ℕ := toLex (nbr.distance, nbr.id)

/-- The key of a node at its distance. -/
def keyOf (dist : ℕ → K) (id : ℕ) : K ×ₗ ℕ := toLex (dist id, id)

theorem Neighbor.lt_iff {nbr other : Neighbor K} : nbr < other ↔ nbr.key < other.key := by
  rw [Neighbor.key, Neighbor.key, Prod.Lex.toLex_lt_toLex]
  exact Iff.rfl

omit [LinearOrder K] in
theorem Neighbor.key_eq {dist : ℕ → K} {nbr : Neighbor K} (h : nbr.distance = dist nbr.id) :
    nbr.key = keyOf dist nbr.id := by
  rw [Neighbor.key, keyOf, h]

/-- A lesser key is at most as far. -/
theorem dist_le_of_keyOf_lt {dist : ℕ → K} {i j : ℕ} (h : keyOf dist i < keyOf dist j) :
    dist i ≤ dist j := by
  rcases Prod.Lex.toLex_lt_toLex.mp h with hlt | ⟨heq, -⟩
  · exact hlt.le
  · exact heq.le

-- ---------------------------------------------------------------------------
-- Insertion
-- ---------------------------------------------------------------------------

/-- What the binary search has found among the first `size` candidates. -/
inductive Located (data : ℕ → Neighbor K) (size : ℕ) (nbr : Neighbor K) : Option ℕ → Prop
  | present (i : ℕ) : i < size → (data i).id = nbr.id → Located data size nbr none
  | place (lo : ℕ) : lo ≤ size → (∀ i < lo, (data i).key < nbr.key) →
      (∀ i, lo ≤ i → i < size → nbr.key < (data i).key) → Located data size nbr (some lo)

/-- **The binary search.** -/
theorem locate_spec {data : ℕ → Neighbor K} {size : ℕ} {nbr : Neighbor K}
    (h : PairwiseOn (fun a b => a.key < b.key) size data) (fuel : ℕ) {lo hi : ℕ}
    (hfuel : hi - lo ≤ fuel) (hle : lo ≤ hi) (hhi : hi ≤ size)
    (hbelow : ∀ i < lo, (data i).key < nbr.key)
    (habove : ∀ i, hi ≤ i → i < size → nbr.key < (data i).key) :
    Located data size nbr (locate data nbr fuel lo hi) := by
  induction fuel generalizing lo hi with
  | zero => exact .place lo (by omega) hbelow fun i hi' => habove i (by omega)
  | succ fuel ih =>
    rw [locate]
    split
    · next hlt =>
      dsimp only
      split
      · next hless =>
        have hkey := Neighbor.lt_iff.mp hless
        refine ih (by omega) (by omega) (by omega) hbelow fun i hi' hsize => ?_
        rcases Nat.lt_or_eq_of_le hi' with hmid | rfl
        · exact hkey.trans (h _ _ hmid hsize)
        · exact hkey
      · next hge =>
        split
        · next hid => exact .present _ (by omega) hid
        · next hid =>
          -- the keys differ, because the ids do
          have hkey : (data ((lo + hi) / 2)).key < nbr.key := by
            refine lt_of_le_of_ne (not_lt.mp fun hlt => hge (Neighbor.lt_iff.mpr hlt)) fun heq => ?_
            exact hid (congrArg (fun p : K ×ₗ ℕ => (ofLex p).2) heq)
          refine ih (by omega) (by omega) hhi (fun i hi' => ?_) habove
          rcases Nat.lt_or_eq_of_le (Nat.lt_succ_iff.mp hi') with hmid | rfl
          · exact (h _ _ hmid (by omega)).trans hkey
          · exact hkey
    · exact .place lo (by omega) hbelow fun i hi' => habove i (by omega)

/-- What an insertion did to a queue. -/
inductive Inserted (q : NeighborPriorityQueue K) (nbr : Neighbor K) :
    NeighborPriorityQueue K → Prop
  | dropped : q.size = q.capacity → (∀ i < q.size, (q.data i).key < nbr.key) → Inserted q nbr q
  | present (i : ℕ) : i < q.size → (q.data i).id = nbr.id → Inserted q nbr q
  | inserted (q' : NeighborPriorityQueue K) (lo : ℕ) : lo ≤ q.size → lo < q.capacity →
      (∀ i < lo, (q.data i).key < nbr.key) →
      (∀ i, lo ≤ i → i < q.size → nbr.key < (q.data i).key) →
      q'.capacity = q.capacity → q'.size = min (q.size + 1) q.capacity → q'.cur = min q.cur lo →
      (∀ i < q'.size, q'.data i = insertAt lo nbr q.data i) → Inserted q nbr q'

omit [LinearOrder K] in
/-- Moving the rest of the candidates up and writing to the gap inserts. -/
theorem memmove_eq_insertAt (data : ℕ → Neighbor K) {lo size i : ℕ} (hlo : lo ≤ size)
    (hi : i ≤ size) (nbr : Neighbor K) :
    Function.update (memmove data lo (size - lo)) lo nbr i = insertAt lo nbr data i := by
  rcases Nat.lt_trichotomy i lo with hlt | rfl | hgt
  · rw [Function.update_of_ne (by omega), insertAt_lt hlt, memmove, if_neg (by omega)]
  · rw [Function.update_self, insertAt_self]
  · rw [Function.update_of_ne (by omega), insertAt_gt hgt, memmove, if_pos (by omega)]

/-- **Insertion into a sorted queue** of a candidate not expanded yet. -/
theorem insert_spec {q : NeighborPriorityQueue K}
    (h : PairwiseOn (fun a b => a.key < b.key) q.size q.data) (hsize : q.size ≤ q.capacity)
    (hcap : 1 ≤ q.capacity) (id : ℕ) (distance : K) :
    Inserted q ⟨id, distance, false⟩ (q.insert ⟨id, distance, false⟩) := by
  unfold NeighborPriorityQueue.insert
  split
  · next hfull =>
    refine .dropped hfull.1 fun i hi => ?_
    have hlast := Neighbor.lt_iff.mp hfull.2
    rcases Nat.lt_or_eq_of_le (show i ≤ q.size - 1 by omega) with hlt | rfl
    · exact (h _ _ hlt (by omega)).trans hlast
    · exact hlast
  · next hroom =>
    have hloc : Located q.data q.size ⟨id, distance, false⟩
        (locate q.data ⟨id, distance, false⟩ q.size 0 q.size) :=
      locate_spec h q.size (Nat.sub_le _ 0) (Nat.zero_le _) (le_refl _)
        (fun i hi => absurd hi (Nat.not_lt_zero i)) (fun i hi hi' => absurd hi' (not_lt.mpr hi))
    generalize locate q.data ⟨id, distance, false⟩ q.size 0 q.size = found at hloc ⊢
    cases hloc with
    | present i hi hid => exact .present i hi hid
    | place lo hlo hbelow habove =>
      have hlt : lo < q.capacity := by
        -- a full queue is not passed, because its last candidate is not less
        rcases Nat.lt_or_eq_of_le hsize with hlt | heq
        · omega
        · by_contra hge
          refine hroom ⟨heq, Neighbor.lt_iff.mpr (hbelow _ (by omega))⟩
      dsimp only
      rw [if_pos hlt]
      refine .inserted _ lo hlo hlt hbelow habove rfl ?_ ?_ fun i hi => ?_
      · dsimp only
        split <;> omega
      · dsimp only
        split <;> omega
      · refine memmove_eq_insertAt q.data hlo ?_ _
        dsimp only at hi
        split at hi <;> omega

-- ---------------------------------------------------------------------------
-- What the queue holds
-- ---------------------------------------------------------------------------

/-- The queue holds the `L` least of the nodes offered to it, in ascending order. -/
structure Holds (dist : ℕ → K) (L : ℕ) (offered : Set ℕ) (q : NeighborPriorityQueue K) : Prop where
  capacity : q.capacity = L
  size     : q.size ≤ L
  sorted   : PairwiseOn (fun a b => a.key < b.key) q.size q.data
  distance : ∀ i < q.size, (q.data i).distance = dist (q.data i).id
  mem      : ∀ i < q.size, (q.data i).id ∈ offered
  best     : ∀ u ∈ offered, (∃ i < q.size, (q.data i).id = u) ∨
    q.size = L ∧ ∀ i < q.size, (q.data i).key < keyOf dist u

variable {dist : ℕ → K} {L : ℕ} {offered : Set ℕ} {q q' : NeighborPriorityQueue K}

/-- **Offering a node.** -/
theorem Holds.offer (h : Holds dist L offered q) {id : ℕ}
    (hins : Inserted q ⟨id, dist id, false⟩ q') : Holds dist L (insert id offered) q' := by
  have hkey : (⟨id, dist id, false⟩ : Neighbor K).key = keyOf dist id := rfl
  cases hins with
  | dropped hfull hless =>
    refine ⟨h.capacity, h.size, h.sorted, h.distance, fun i hi => Or.inr (h.mem i hi),
      fun u hu => ?_⟩
    rcases hu with rfl | hu
    · exact Or.inr ⟨hfull.trans h.capacity, hless⟩
    · exact h.best u hu
  | present i hi hid =>
    refine ⟨h.capacity, h.size, h.sorted, h.distance, fun i hi => Or.inr (h.mem i hi),
      fun u hu => ?_⟩
    rcases hu with rfl | hu
    · exact Or.inl ⟨i, hi, hid⟩
    · exact h.best u hu
  | inserted _ lo hlo hcap hbelow habove hcapacity hsize _ hdata =>
    rw [h.capacity] at hcapacity hcap hsize
    have hle := h.size
    have hsorted := pairwiseOn_insertAt h.sorted hlo hbelow habove
    have hcases : ∀ i < q'.size, q'.data i = ⟨id, dist id, false⟩ ∨
        ∃ j < q.size, q'.data i = q.data j := fun i hi => by
      rw [hdata i hi]
      exact insertAt_cases lo _ _ (by omega) hlo
    refine ⟨hcapacity, by omega, (hsorted.mono (by omega)).congr hdata, fun i hi => ?_,
      fun i hi => ?_, fun u hu => ?_⟩
    · rcases hcases i hi with heq | ⟨j, hj, heq⟩
      · rw [heq]
      · rw [heq]
        exact h.distance j hj
    · rcases hcases i hi with heq | ⟨j, hj, heq⟩
      · rw [heq]
        exact Or.inl rfl
      · rw [heq]
        exact Or.inr (h.mem j hj)
    · rcases hu with rfl | hu
      · exact Or.inl ⟨lo, by omega, by rw [hdata lo (by omega), insertAt_self]⟩
      · rcases h.best u hu with ⟨j, hj, rfl⟩ | ⟨hfull, hless⟩
        · by_cases hkept : j + 1 < q'.size
          · obtain ⟨i, hi, heq⟩ := exists_insertAt lo ⟨id, dist id, false⟩ q.data hkept
            exact Or.inl ⟨i, hi, by rw [hdata i hi, heq]⟩
          · -- the last candidate of a full queue has been evicted
            obtain rfl : j = q.size - 1 := by omega
            refine Or.inr ⟨by omega, fun i hi => ?_⟩
            have hlt := hsorted i q.size (by omega) (Nat.lt_succ_self _)
            rw [insertAt_gt (show lo < q.size by omega)] at hlt
            rw [hdata i hi, ← Neighbor.key_eq (h.distance _ hj)]
            exact hlt
        · refine Or.inr ⟨by omega, fun i hi => ?_⟩
          rcases hcases i hi with heq | ⟨j, hj, heq⟩
          · rw [heq]
            exact (habove lo (le_refl lo) (by omega)).trans (hless lo (by omega))
          · rw [heq]
            exact hless j hj

theorem Holds.ascending (h : Holds dist L offered q) {i j : ℕ} (hij : i < j) (hj : j < q.size) :
    keyOf dist (q.data i).id < keyOf dist (q.data j).id := by
  rw [← Neighbor.key_eq (h.distance i (by omega)), ← Neighbor.key_eq (h.distance j hj)]
  exact h.sorted i j hij hj

theorem Holds.pairwise_toList (h : Holds dist L offered q) :
    q.toList.Pairwise fun a b => keyOf dist a.id < keyOf dist b.id := by
  rw [NeighborPriorityQueue.toList, List.pairwise_map]
  exact List.pairwise_lt_range.imp_of_mem fun _ hj hij =>
    h.ascending hij (List.mem_range.mp hj)

/-- Whether a candidate has been expanded does not matter. -/
theorem Holds.congr (h : Holds dist L offered q) (hcap : q'.capacity = q.capacity)
    (hsize : q'.size = q.size) (hid : ∀ i, (q'.data i).id = (q.data i).id)
    (hdist : ∀ i, (q'.data i).distance = (q.data i).distance) : Holds dist L offered q' := by
  have hkey : ∀ i, (q'.data i).key = (q.data i).key := fun i => by
    rw [Neighbor.key, Neighbor.key, hid, hdist]
  refine ⟨hcap.trans h.capacity, hsize ▸ h.size, fun i j hij hj => ?_, fun i hi => ?_,
    fun i hi => ?_, fun u hu => ?_⟩
  · show (q'.data i).key < (q'.data j).key
    rw [hkey, hkey]
    exact h.sorted i j hij (hsize ▸ hj)
  · rw [hid, hdist]
    exact h.distance i (hsize ▸ hi)
  · rw [hid]
    exact h.mem i (hsize ▸ hi)
  · rw [hsize]
    simp only [hid, hkey]
    exact h.best u hu

-- ---------------------------------------------------------------------------
-- The cursor
-- ---------------------------------------------------------------------------

/-- The cursor stands at the first candidate that has not been expanded. -/
structure AtCursor (q : NeighborPriorityQueue K) : Prop where
  le     : q.cur ≤ q.size
  before : ∀ i < q.cur, (q.data i).expanded = true
  here   : q.cur < q.size → (q.data q.cur).expanded = false

/-- An inserted candidate takes the cursor back. -/
theorem AtCursor.insert (h : AtCursor q) (hsize : q.size ≤ q.capacity) {nbr : Neighbor K}
    (hnew : nbr.expanded = false) (hins : Inserted q nbr q') : AtCursor q' := by
  cases hins with
  | dropped => exact h
  | present => exact h
  | inserted _ lo hlo hcap _ _ _ hsize' hcur hdata =>
    have hle := h.le
    refine ⟨by omega, fun i hi => ?_, fun hlt => ?_⟩
    · rw [hdata i (by omega), insertAt_lt (by omega)]
      exact h.before i (by omega)
    · rw [hdata _ hlt, hcur]
      rcases Nat.lt_or_ge q.cur lo with hbefore | hafter
      · rw [Nat.min_eq_left hbefore.le, insertAt_lt hbefore]
        exact h.here (by omega)
      · rw [Nat.min_eq_right hafter, insertAt_self]
        exact hnew

omit [LinearOrder K] in
/-- The cursor moves past the candidates that have been expanded. -/
theorem advance_spec (data : ℕ → Neighbor K) {size : ℕ} (fuel : ℕ) {cur : ℕ}
    (hfuel : size - cur ≤ fuel) (hcur : cur ≤ size)
    (hbefore : ∀ i < cur, (data i).expanded = true) :
    cur ≤ NeighborPriorityQueue.advance data size fuel cur ∧
    NeighborPriorityQueue.advance data size fuel cur ≤ size ∧
    (∀ i < NeighborPriorityQueue.advance data size fuel cur, (data i).expanded = true) ∧
    (NeighborPriorityQueue.advance data size fuel cur < size →
      (data (NeighborPriorityQueue.advance data size fuel cur)).expanded = false) := by
  induction fuel generalizing cur with
  | zero =>
    refine ⟨le_refl _, hcur, hbefore, fun hlt => ?_⟩
    rw [NeighborPriorityQueue.advance] at hlt
    omega
  | succ fuel ih =>
    rw [NeighborPriorityQueue.advance]
    split
    · next hexp =>
      obtain ⟨h1, h2⟩ := ih (show size - (cur + 1) ≤ fuel by omega) (by omega) fun i hi => by
        rcases Nat.lt_or_eq_of_le (Nat.lt_succ_iff.mp hi) with hlt | rfl
        · exact hbefore i hlt
        · exact hexp.2
      exact ⟨by omega, h2⟩
    · next hstop =>
      refine ⟨le_refl _, hcur, hbefore, fun hlt => ?_⟩
      rw [not_and, Bool.not_eq_true] at hstop
      exact hstop hlt

/-- **Taking the candidate at the cursor.** It is marked as expanded, and the cursor
moves on. -/
theorem closestUnexpanded_spec (h : Holds dist L offered q) (hcur : AtCursor q)
    (hlt : q.cur < q.size) :
    Holds dist L offered q.closestUnexpanded.2 ∧ AtCursor q.closestUnexpanded.2 ∧
    q.closestUnexpanded.2.size = q.size ∧ q.cur < q.closestUnexpanded.2.cur ∧
    (∀ i, (q.closestUnexpanded.2.data i).id = (q.data i).id) ∧
    (∀ i, i ≠ q.cur → q.closestUnexpanded.2.data i = q.data i) ∧
    (q.closestUnexpanded).1.id = (q.data q.cur).id := by
  unfold NeighborPriorityQueue.closestUnexpanded
  dsimp only
  generalize hdata : Function.update q.data q.cur { q.data q.cur with expanded := true } = data
  have hhere : data q.cur = { q.data q.cur with expanded := true } := by
    rw [← hdata, Function.update_self]
  have hother : ∀ i, i ≠ q.cur → data i = q.data i := fun i hi => by
    rw [← hdata, Function.update_of_ne hi]
  have hid : ∀ i, (data i).id = (q.data i).id := fun i => by
    by_cases hi : i = q.cur
    · rw [hi, hhere]
    · rw [hother i hi]
  have hdist : ∀ i, (data i).distance = (q.data i).distance := fun i => by
    by_cases hi : i = q.cur
    · rw [hi, hhere]
    · rw [hother i hi]
  obtain ⟨hge, hle, hbefore, hnext⟩ := advance_spec data q.size (Nat.sub_le _ _) hcur.le
    fun i hi => by
      rw [hother i (by omega)]
      exact hcur.before i hi
  refine ⟨h.congr rfl rfl hid hdist, ⟨hle, hbefore, hnext⟩, rfl, ?_, hid, hother, hid _⟩
  -- the marked candidate is passed
  by_contra hstay
  have heq : NeighborPriorityQueue.advance data q.size q.size q.cur = q.cur := by omega
  have hfalse := hnext (by omega)
  rw [heq, hhere] at hfalse
  cases hfalse

-- ---------------------------------------------------------------------------
-- A list of nodes
-- ---------------------------------------------------------------------------

/-- An inserted candidate has not been expanded. -/
theorem Inserted.of_expanded {nbr : Neighbor K} (hins : Inserted q nbr q')
    (hnew : nbr.expanded = false) {i : ℕ} (hi : i < q'.size)
    (hexp : (q'.data i).expanded = true) : ∃ j < q.size, q'.data i = q.data j := by
  cases hins with
  | dropped => exact ⟨i, hi, rfl⟩
  | present => exact ⟨i, hi, rfl⟩
  | inserted _ lo hlo _ _ _ _ hsize _ hdata =>
    rw [hdata i hi] at hexp ⊢
    rcases insertAt_cases lo nbr q.data (show i < q.size + 1 by omega) hlo with heq | hold
    · rw [heq, hnew] at hexp
      cases hexp
    · exact hold

/-- **Offering a list of nodes.** -/
theorem offerAll (hL : 1 ≤ L) (ids : List ℕ) (h : Holds dist L offered q) (hcur : AtCursor q) :
    Holds dist L (offered ∪ {u | u ∈ ids})
      (ids.foldl (fun q id => q.insert ⟨id, dist id, false⟩) q) ∧
    AtCursor (ids.foldl (fun q id => q.insert ⟨id, dist id, false⟩) q) ∧
    ∀ i < (ids.foldl (fun q id => q.insert ⟨id, dist id, false⟩) q).size,
      ((ids.foldl (fun q id => q.insert ⟨id, dist id, false⟩) q).data i).expanded = true →
      ∃ j < q.size, (ids.foldl (fun q id => q.insert ⟨id, dist id, false⟩) q).data i = q.data j := by
  induction ids generalizing q offered with
  | nil =>
    refine ⟨?_, hcur, fun i hi _ => ⟨i, hi, rfl⟩⟩
    simpa using h
  | cons id ids ih =>
    have hins := insert_spec h.sorted (h.size.trans_eq h.capacity.symm)
      (hL.trans_eq h.capacity.symm) id (dist id)
    obtain ⟨hholds, hcursor, hold⟩ := ih (h.offer hins)
      (hcur.insert (h.size.trans_eq h.capacity.symm) rfl hins)
    refine ⟨?_, hcursor, fun i hi hexp => ?_⟩
    · have hset : offered ∪ {u | u ∈ id :: ids} = Insert.insert id offered ∪ {u | u ∈ ids} := by
        ext u
        simp [or_assoc, or_left_comm]
      rw [hset]
      exact hholds
    · -- the candidate was there before the list, since it is expanded
      obtain ⟨j, hj, heq⟩ := hold i hi hexp
      rw [List.foldl_cons, heq] at hexp ⊢
      exact hins.of_expanded rfl hj hexp

end Queue

end Mqo.Search.Vamana
