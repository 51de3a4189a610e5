import Mathlib.Data.Multiset.AddSub
import Mathlib.Data.Multiset.MapFold
import Mathlib.Data.List.Sort
import Mathlib.Tactic.Cases

/-!
# Priority queues

`std::priority_queue` fixes what a queue contains after each operation and
that the top is a maximal element; which of several maximal elements is on
top is left to the implementation. `PriorityQueue α` is an implementation in
this sense: a carrier, its operations, and the multiset of elements a heap
holds, with the laws every implementation obeys whatever its comparison is.
`Ordered less` adds that the top is maximal for `less`, and `Lawful less` that
it is where `less` is a strict weak order, which is all the standard promises.

Results that hold for every tie-breaking are proved for an arbitrary
`PriorityQueue`; `byKey` and `byLess` are implementations, a sorted list and a
list that is searched.

* `coe_drain`        — popping until the heap is empty yields its elements;
* `drain_pairwise`   — the order in which they come;
* `elems_shrink_le`  — dropping surplus elements only removes elements;
* `shrink_push`      — what a push to a full queue drops;
* `shrink_keeps_min` — dropping surplus elements never drops the best one.
-/

universe u v

/-- An implementation of a priority queue of elements of `α`. -/
structure PriorityQueue (α : Type u) where
  Heap : Type u
  empty : Heap
  push : Heap → α → Heap
  top : Heap → Option α
  pop : Heap → Heap
  elems : Heap → Multiset α
  elems_empty : elems empty = 0
  elems_push : ∀ h a, elems (push h a) = a ::ₘ elems h
  top_none : ∀ h, top h = none ↔ elems h = 0
  elems_pop : ∀ h a, top h = some a → elems h = a ::ₘ elems (pop h)

namespace PriorityQueue

variable {α : Type u} (Q : PriorityQueue α)

/-- The top is maximal for `less`. -/
def Ordered (less : α → α → Prop) : Prop :=
  ∀ h a, Q.top h = some a → ∀ b ∈ Q.elems h, ¬ less a b

/-- The number of elements. -/
def size (h : Q.Heap) : ℕ := Multiset.card (Q.elems h)

attribute [simp] elems_empty elems_push

@[simp] theorem size_empty : Q.size Q.empty = 0 := by simp [size]

@[simp] theorem size_push (h : Q.Heap) (a : α) : Q.size (Q.push h a) = Q.size h + 1 := by
  simp [size]

theorem top_mem {h : Q.Heap} {a : α} (ht : Q.top h = some a) : a ∈ Q.elems h := by
  rw [Q.elems_pop h a ht]
  exact Multiset.mem_cons_self a _

theorem size_pop {h : Q.Heap} {a : α} (ht : Q.top h = some a) :
    Q.size h = Q.size (Q.pop h) + 1 := by
  rw [size, Q.elems_pop h a ht, Multiset.card_cons, size]

theorem mem_of_mem_pop {h : Q.Heap} {a b : α} (ht : Q.top h = some a)
    (hb : b ∈ Q.elems (Q.pop h)) : b ∈ Q.elems h := by
  rw [Q.elems_pop h a ht]
  exact Multiset.mem_cons_of_mem hb

/-- A queue of one element is empty without it. -/
theorem elems_pop_singleton {h : Q.Heap} {a b : α} (hs : Q.elems h = {b}) (ht : Q.top h = some a) :
    a = b ∧ Q.elems (Q.pop h) = 0 := by
  have hpop := Q.elems_pop h a ht
  rw [hs] at hpop
  obtain ⟨rfl, hzero⟩ := (Multiset.singleton_eq_cons_iff _).mp hpop
  exact ⟨rfl, hzero⟩

theorem exists_top {h : Q.Heap} (hs : Q.elems h ≠ 0) : ∃ a, Q.top h = some a := by
  cases ht : Q.top h with
  | some a => exact ⟨a, rfl⟩
  | none => exact absurd ((Q.top_none h).mp ht) hs

theorem exists_top_of_size {h : Q.Heap} (hs : 0 < Q.size h) : ∃ a, Q.top h = some a :=
  Q.exists_top (Multiset.card_pos.mp hs)

/-- A queue filled in a loop. -/
theorem elems_foldl_push {β : Type v} (f : β → α) (l : List β) (h : Q.Heap) :
    Q.elems (l.foldl (fun h b => Q.push h (f b)) h) = ↑(l.map f) + Q.elems h := by
  induction l generalizing h with
  | nil => simp
  | cons b l ih =>
    rw [List.foldl_cons, ih, Q.elems_push, List.map_cons, ← Multiset.cons_coe, Multiset.cons_add,
      Multiset.add_cons]

-- ---------------------------------------------------------------------------
-- Draining
-- ---------------------------------------------------------------------------

/-- The first `n` elements popped. -/
def drainRun : ℕ → Q.Heap → List α
  | 0, _ => []
  | n + 1, h =>
    match Q.top h with
    | none => []
    | some a => a :: drainRun n (Q.pop h)

/-- The elements in the order in which they are popped: what a loop
`while (!q.empty()) { q.top(); q.pop(); }` sees. -/
def drain (h : Q.Heap) : List α := Q.drainRun (Q.size h) h

theorem drain_of_top {h : Q.Heap} {a : α} (ht : Q.top h = some a) :
    Q.drain h = a :: Q.drain (Q.pop h) := by
  rw [drain, Q.size_pop ht, drainRun, ht, drain]

theorem drain_of_empty {h : Q.Heap} (ht : Q.top h = none) : Q.drain h = [] := by
  rw [drain, size, (Q.top_none h).mp ht, Multiset.card_zero, drainRun]

/-- Draining loses and invents nothing. -/
theorem coe_drain (h : Q.Heap) : (Q.drain h : Multiset α) = Q.elems h := by
  induction hn : Q.size h generalizing h with
  | zero =>
    have he : Q.elems h = 0 := Multiset.card_eq_zero.mp hn
    rw [Q.drain_of_empty ((Q.top_none h).mpr he), he]
    rfl
  | succ n ih =>
    obtain ⟨a, ht⟩ := Q.exists_top_of_size (h := h) (by omega)
    have hpop := Q.size_pop ht
    rw [Q.drain_of_top ht, Q.elems_pop h a ht, ← Multiset.cons_coe, ih (Q.pop h) (by omega)]

theorem mem_drain {h : Q.Heap} {a : α} : a ∈ Q.drain h ↔ a ∈ Q.elems h := by
  rw [← Q.coe_drain h, Multiset.mem_coe]

theorem length_drain (h : Q.Heap) : (Q.drain h).length = Q.size h := by
  rw [size, ← Q.coe_drain h, Multiset.coe_card]

/-- The order of draining, where the top is maximal in every part of the heap. -/
theorem drain_pairwise_of {less : α → α → Prop} {h : Q.Heap}
    (hmax : ∀ h', Q.elems h' ≤ Q.elems h → ∀ a, Q.top h' = some a → ∀ b ∈ Q.elems h', ¬ less a b) :
    (Q.drain h).Pairwise fun a b => ¬ less a b := by
  induction hn : Q.size h generalizing h with
  | zero =>
    rw [Q.drain_of_empty ((Q.top_none h).mpr (Multiset.card_eq_zero.mp hn))]
    exact List.Pairwise.nil
  | succ n ih =>
    obtain ⟨a, ht⟩ := Q.exists_top_of_size (h := h) (by omega)
    have hpop := Q.size_pop ht
    have hle : Q.elems (Q.pop h) ≤ Q.elems h := by
      rw [Q.elems_pop h a ht]
      exact Multiset.le_cons_self _ _
    rw [Q.drain_of_top ht]
    refine List.pairwise_cons.mpr ⟨fun b hb => ?_,
      ih (fun h' hsub => hmax h' (hsub.trans hle)) (by omega)⟩
    exact hmax h (le_refl _) a ht b (Q.mem_of_mem_pop ht (Q.mem_drain.mp hb))

/-- The order of draining: nothing is popped after something less. -/
theorem drain_pairwise {less : α → α → Prop} (hord : Q.Ordered less) (h : Q.Heap) :
    (Q.drain h).Pairwise fun a b => ¬ less a b :=
  Q.drain_pairwise_of fun h' _ => hord h'

-- ---------------------------------------------------------------------------
-- Strict weak orders
-- ---------------------------------------------------------------------------

/-- `less` is a strict weak order on the elements. -/
structure StrictWeakOn (less : α → α → Prop) (m : Multiset α) : Prop where
  asymm    : ∀ a ∈ m, ∀ b ∈ m, less a b → ¬ less b a
  negTrans : ∀ a ∈ m, ∀ b ∈ m, ∀ c ∈ m, ¬ less a b → ¬ less b c → ¬ less a c

theorem StrictWeakOn.mono {less : α → α → Prop} {m m' : Multiset α} (h : StrictWeakOn less m)
    (hle : m' ≤ m) : StrictWeakOn less m' where
  asymm a ha b hb := h.asymm a (Multiset.mem_of_le hle ha) b (Multiset.mem_of_le hle hb)
  negTrans a ha b hb c hc := h.negTrans a (Multiset.mem_of_le hle ha) b
    (Multiset.mem_of_le hle hb) c (Multiset.mem_of_le hle hc)

/-- The top is maximal in every heap on which `less` is a strict weak order. -/
def Lawful (less : α → α → Prop) : Prop :=
  ∀ h, StrictWeakOn less (Q.elems h) → ∀ a, Q.top h = some a → ∀ b ∈ Q.elems h, ¬ less a b

/-- The order in which a heap with such an order is drained. -/
theorem drain_pairwise_lawful {less : α → α → Prop} (hlaw : Q.Lawful less) {h : Q.Heap}
    (hweak : StrictWeakOn less (Q.elems h)) : (Q.drain h).Pairwise fun a b => ¬ less a b :=
  Q.drain_pairwise_of fun h' hle => hlaw h' (hweak.mono hle)

-- ---------------------------------------------------------------------------
-- Dropping surplus elements
-- ---------------------------------------------------------------------------

/-- `while (q.size() > k) q.pop();` -/
def shrink (k : ℕ) (h : Q.Heap) : Q.Heap := Q.pop^[Q.size h - k] h

theorem shrink_of_le {k : ℕ} {h : Q.Heap} (hk : Q.size h ≤ k) : Q.shrink k h = h := by
  rw [shrink, Nat.sub_eq_zero_of_le hk, Function.iterate_zero, id]

theorem shrink_of_lt {k : ℕ} {h : Q.Heap} (hk : k < Q.size h) :
    Q.shrink k h = Q.shrink k (Q.pop h) := by
  obtain ⟨a, ht⟩ := Q.exists_top_of_size (h := h) (by omega)
  have hpop := Q.size_pop ht
  rw [shrink, shrink, show Q.size h - k = (Q.size (Q.pop h) - k) + 1 by omega,
    Function.iterate_succ_apply]

/-- Induction over the elements dropped. -/
theorem shrink_induction {k : ℕ} {P : Q.Heap → Prop}
    (hpop : ∀ h a, k < Q.size h → Q.top h = some a → P h → P (Q.pop h))
    {h : Q.Heap} (hP : P h) : P (Q.shrink k h) := by
  induction hn : Q.size h generalizing h with
  | zero => rwa [Q.shrink_of_le (by omega)]
  | succ n ih =>
    rcases Nat.lt_or_ge k (Q.size h) with hlt | hge
    · obtain ⟨a, ht⟩ := Q.exists_top_of_size (h := h) (by omega)
      have hsz := Q.size_pop ht
      rw [Q.shrink_of_lt hlt]
      exact ih (hpop h a hlt ht hP) (by omega)
    · rwa [Q.shrink_of_le hge]

theorem size_shrink (k : ℕ) (h : Q.Heap) : Q.size (Q.shrink k h) = min k (Q.size h) := by
  induction hn : Q.size h generalizing h with
  | zero => rw [Q.shrink_of_le (by omega)]; omega
  | succ n ih =>
    rcases Nat.lt_or_ge k (Q.size h) with hlt | hge
    · obtain ⟨a, ht⟩ := Q.exists_top_of_size (h := h) (by omega)
      have hsz := Q.size_pop ht
      rw [Q.shrink_of_lt hlt, ih (Q.pop h) (by omega)]
      omega
    · rw [Q.shrink_of_le hge]
      omega

theorem elems_shrink_le (k : ℕ) (h : Q.Heap) : Q.elems (Q.shrink k h) ≤ Q.elems h := by
  refine Q.shrink_induction (P := fun h' => Q.elems h' ≤ Q.elems h) ?_ (le_refl _)
  intro h' a _ ht hle
  refine le_trans ?_ hle
  rw [Q.elems_pop h' a ht]
  exact Multiset.le_cons_self _ _

theorem mem_of_mem_shrink {k : ℕ} {h : Q.Heap} {a : α} (ha : a ∈ Q.elems (Q.shrink k h)) :
    a ∈ Q.elems h :=
  Multiset.mem_of_le (Q.elems_shrink_le k h) ha

/-- A push to a queue of at most `k` elements drops the top if there were `k`. -/
theorem shrink_push {k : ℕ} {h : Q.Heap} (hk : Q.size h ≤ k) (a : α) :
    (Q.size h < k ∧ Q.elems (Q.shrink k (Q.push h a)) = a ::ₘ Q.elems h) ∨
    (Q.size h = k ∧ ∃ t, Q.top (Q.push h a) = some t ∧
      a ::ₘ Q.elems h = t ::ₘ Q.elems (Q.shrink k (Q.push h a))) := by
  have hsize := Q.size_push h a
  rcases Nat.lt_or_ge (Q.size h) k with hlt | hge
  · refine Or.inl ⟨hlt, ?_⟩
    rw [Q.shrink_of_le (by omega), Q.elems_push]
  · obtain ⟨t, ht⟩ := Q.exists_top_of_size (h := Q.push h a) (by omega)
    have hpop := Q.size_pop ht
    refine Or.inr ⟨by omega, t, ht, ?_⟩
    rw [Q.shrink_of_lt (by omega), Q.shrink_of_le (by omega), ← Q.elems_push,
      Q.elems_pop _ t ht]

/-- After a push an element is kept, or `k` elements are that are no larger. -/
theorem mem_shrink_push {κ : Type v} [LinearOrder κ] {key : α → κ}
    (hord : Q.Ordered fun a b => key a < key b) {k : ℕ} {h : Q.Heap} (hk : Q.size h ≤ k) {a e : α}
    (he : e ∈ a ::ₘ Q.elems h) :
    e ∈ Q.elems (Q.shrink k (Q.push h a)) ∨
      (Q.size (Q.shrink k (Q.push h a)) = k ∧
        ∀ b ∈ Q.elems (Q.shrink k (Q.push h a)), key b ≤ key e) := by
  rcases Q.shrink_push hk a with ⟨-, hkeep⟩ | ⟨hfull, t, ht, hdrop⟩
  · exact Or.inl (hkeep ▸ he)
  · rw [hdrop, Multiset.mem_cons] at he
    rcases he with rfl | he
    · refine Or.inr ⟨by rw [Q.size_shrink, Q.size_push]; omega, fun b hb => not_lt.mp ?_⟩
      exact hord _ e ht b (Q.mem_of_mem_shrink hb)
    · exact Or.inl he

/-- **The best element survives.** In a queue whose top is the element with the
largest key, dropping surplus elements down to `k ≥ 1` keeps, for every
element, one whose key is at most as large. -/
theorem shrink_keeps_min {κ : Type v} [LinearOrder κ] {key : α → κ}
    (hord : Q.Ordered fun a b => key a < key b) {k : ℕ} (hk : 1 ≤ k) {h : Q.Heap} {a : α}
    (ha : a ∈ Q.elems h) : ∃ b ∈ Q.elems (Q.shrink k h), key b ≤ key a := by
  refine Q.shrink_induction (P := fun h' => ∃ b ∈ Q.elems h', key b ≤ key a) ?_
    ⟨a, ha, le_refl _⟩
  rintro h' t hlt ht ⟨b, hb, hle⟩
  rw [Q.elems_pop h' t ht, Multiset.mem_cons] at hb
  rcases hb with rfl | hb
  · -- the element dropped is the largest, so any other one will do
    obtain ⟨c, hc⟩ := Q.exists_top_of_size (h := Q.pop h') (by have := Q.size_pop ht; omega)
    have hcm := Q.top_mem hc
    have hmax := hord h' b ht c (Q.mem_of_mem_pop ht hcm)
    exact ⟨c, hcm, le_trans (not_lt.mp hmax) hle⟩
  · exact ⟨b, hb, hle⟩

/-- `if (q.size() > k) q.pop();` -/
def dropOver (k : ℕ) (h : Q.Heap) : Q.Heap := if k < Q.size h then Q.pop h else h

theorem mem_of_mem_dropOver {k : ℕ} {h : Q.Heap} {a : α} (ha : a ∈ Q.elems (Q.dropOver k h)) :
    a ∈ Q.elems h := by
  unfold dropOver at ha
  split at ha
  · next hlt =>
    obtain ⟨t, ht⟩ := Q.exists_top_of_size (h := h) (by omega)
    exact Q.mem_of_mem_pop ht ha
  · exact ha

/-- One surplus element is dropped by the `if` as by the `while`. -/
theorem dropOver_eq_shrink {k : ℕ} {h : Q.Heap} (hs : Q.size h ≤ k + 1) :
    Q.dropOver k h = Q.shrink k h := by
  unfold dropOver
  split
  · next hlt =>
    obtain ⟨t, ht⟩ := Q.exists_top_of_size (h := h) (by omega)
    have hpop := Q.size_pop ht
    rw [Q.shrink_of_lt hlt, Q.shrink_of_le (by omega)]
  · next hge => rw [Q.shrink_of_le (by omega)]

/-- A queue that may keep one element does not lose its last one. -/
theorem size_dropOver_pos {k : ℕ} (hk : 0 < k) {h : Q.Heap} (hs : 0 < Q.size h) :
    0 < Q.size (Q.dropOver k h) := by
  unfold dropOver
  split
  · obtain ⟨t, ht⟩ := Q.exists_top_of_size hs
    have hpop := Q.size_pop ht
    omega
  · exact hs

-- ---------------------------------------------------------------------------
-- A sorted list as a priority queue
-- ---------------------------------------------------------------------------

/-- The priority queue kept as a list sorted by decreasing key. -/
def byKey {κ : Type v} [LinearOrder κ] (key : α → κ) : PriorityQueue α where
  Heap := { l : List α // l.Pairwise fun a b => key b ≤ key a }
  empty := ⟨[], List.Pairwise.nil⟩
  push h a := ⟨h.1.orderedInsert (fun a b => key b ≤ key a) a, by
    have : Std.Total fun a b : α => key b ≤ key a := ⟨fun a b => le_total (key b) (key a)⟩
    have : IsTrans α fun a b : α => key b ≤ key a := ⟨fun _ _ _ hab hbc => le_trans hbc hab⟩
    exact h.2.orderedInsert a h.1⟩
  top h := h.1.head?
  pop h := ⟨h.1.tail, h.2.tail⟩
  elems h := h.1
  elems_empty := rfl
  elems_push h a := by
    rw [Multiset.cons_coe]
    exact Multiset.coe_eq_coe.mpr (List.perm_orderedInsert _ a h.1)
  top_none h := by simp [List.head?_eq_none_iff]
  elems_pop h a ht := by
    obtain ⟨l, hl⟩ := h
    cases l with
    | nil => cases ht
    | cons b l =>
      cases ht
      rfl

theorem byKey_ordered {κ : Type v} [LinearOrder κ] (key : α → κ) :
    (byKey key).Ordered fun a b => key a < key b := by
  rintro ⟨l, hl⟩ a ht b hb
  cases l with
  | nil => cases ht
  | cons c l =>
    cases ht
    rcases List.mem_cons.mp (Multiset.mem_coe.mp hb) with rfl | hb
    · exact lt_irrefl _
    · exact not_lt.mpr ((List.pairwise_cons.mp hl).1 b hb)

-- ---------------------------------------------------------------------------
-- A searched list as a priority queue
-- ---------------------------------------------------------------------------

section ByLess

variable {less : α → α → Prop}

/-- In a strict weak order there is a maximal element. -/
theorem StrictWeakOn.exists_maximal {l : List α} (h : StrictWeakOn less l) (hne : l ≠ []) :
    ∃ a ∈ l, ∀ b ∈ l, ¬ less a b := by
  induction l with
  | nil => exact absurd rfl hne
  | cons a l ih =>
    have hself : ¬ less a a := fun hlt =>
      h.asymm a List.mem_cons_self a List.mem_cons_self hlt hlt
    by_cases hl : l = []
    · subst hl
      exact ⟨a, List.mem_cons_self, fun b hb => List.mem_singleton.mp hb ▸ hself⟩
    · obtain ⟨t, ht, hmax⟩ := ih (h.mono (Multiset.le_cons_self _ a)) hl
      have ht' := List.mem_cons_of_mem a ht
      by_cases hlt : less t a
      · have hta := h.asymm t ht' a List.mem_cons_self hlt
        refine ⟨a, List.mem_cons_self, fun b hb => ?_⟩
        rcases List.mem_cons.mp hb with rfl | hb'
        · exact hself
        · exact h.negTrans a List.mem_cons_self t ht' b hb hta (hmax b hb')
      · refine ⟨t, ht', fun b hb => ?_⟩
        rcases List.mem_cons.mp hb with rfl | hb'
        · exact hlt
        · exact hmax b hb'

variable [DecidableEq α] [DecidableRel less]

variable (less) in
/-- A maximal element of the list, or its head where there is none. -/
def searchTop (l : List α) : Option α :=
  (l.find? fun a => l.all fun b => !decide (less a b)).or l.head?

omit [DecidableEq α] in
theorem searchTop_mem {l : List α} {a : α} (h : searchTop less l = some a) : a ∈ l := by
  rcases Option.or_eq_some_iff.mp h with hfind | ⟨-, hhead⟩
  · exact List.mem_of_find?_eq_some hfind
  · exact List.mem_of_head? hhead

variable (less) in
/-- The priority queue that searches a list for its top. -/
def byLess : PriorityQueue α where
  Heap := List α
  empty := []
  push h a := a :: h
  top := searchTop less
  pop h := match searchTop less h with
    | none => h
    | some a => h.erase a
  elems h := h
  elems_empty := rfl
  elems_push h a := rfl
  top_none h := by
    cases h with
    | nil => simp [searchTop]
    | cons a l => simp [searchTop]
  elems_pop h a ht := by
    rw [ht]
    exact Multiset.coe_eq_coe.mpr (List.perm_cons_erase (searchTop_mem ht))

theorem byLess_lawful : (byLess less).Lawful less := by
  intro h hweak a ht b hb
  have hne : h ≠ [] := fun hnil => by
    rw [hnil] at hb
    exact List.not_mem_nil (Multiset.mem_coe.mp hb)
  obtain ⟨t, htmem, hmax⟩ := StrictWeakOn.exists_maximal hweak hne
  rcases Option.or_eq_some_iff.mp ht with hfind | ⟨hnone, -⟩
  · have hall := List.find?_some hfind
    simpa using List.all_eq_true.mp hall b (Multiset.mem_coe.mp hb)
  · have hnot := List.find?_eq_none.mp hnone t htmem
    exact absurd (List.all_eq_true.mpr fun c hc => by simpa using hmax c hc) hnot

end ByLess

end PriorityQueue
