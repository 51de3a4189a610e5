import Mathlib.Order.Lattice
import Mathlib.Tactic.Cases

/-!
# Insertion into a sorted array

An array is the function that gives the element at each position. `PairwiseOn r n`
says that `r` holds between any two of its first `n` elements, the earlier and the
later; `SortedOn key n` says that the keys ascend. `insertAt p a f` moves the
elements from position `p` on one place up and puts `a` at `p`, as `memmove`
followed by an assignment does.

* `pairwiseOn_insertAt`, `sortedOn_insertAt` — inserting between the smaller and the
  larger elements keeps the array sorted;
* `insertAt_lt`, `insertAt_self`, `insertAt_gt` — what stands where afterwards;
* `exists_insertAt` — an element of the old array, unless it was the last, is
  still there.
-/

universe u v

namespace SortedArray

variable {α : Type u} {κ : Type v} [LinearOrder κ]

/-- The first `n` elements are pairwise related. -/
def PairwiseOn (r : α → α → Prop) (n : ℕ) (f : ℕ → α) : Prop :=
  ∀ i j, i < j → j < n → r (f i) (f j)

/-- The keys of the first `n` elements ascend. -/
def SortedOn (key : α → κ) (n : ℕ) (f : ℕ → α) : Prop :=
  ∀ i j, i ≤ j → j < n → key (f i) ≤ key (f j)

theorem sortedOn_iff {key : α → κ} {n : ℕ} {f : ℕ → α} :
    SortedOn key n f ↔ PairwiseOn (fun a b => key a ≤ key b) n f := by
  refine ⟨fun h i j hij hj => h i j (Nat.le_of_lt hij) hj, fun h i j hij hj => ?_⟩
  rcases Nat.lt_or_eq_of_le hij with hlt | rfl
  · exact h i j hlt hj
  · exact le_refl _

/-- The array with `a` inserted at position `p`. -/
def insertAt (p : ℕ) (a : α) (f : ℕ → α) : ℕ → α := fun i =>
  if i < p then f i else if i = p then a else f (i - 1)

theorem insertAt_lt {p i : ℕ} (h : i < p) (a : α) (f : ℕ → α) : insertAt p a f i = f i :=
  if_pos h

@[simp] theorem insertAt_self (p : ℕ) (a : α) (f : ℕ → α) : insertAt p a f p = a := by
  rw [insertAt, if_neg (Nat.lt_irrefl p), if_pos rfl]

theorem insertAt_gt {p i : ℕ} (h : p < i) (a : α) (f : ℕ → α) :
    insertAt p a f i = f (i - 1) := by
  rw [insertAt, if_neg (by omega), if_neg (by omega)]

/-- What stands at a position: the new element, or one that was there before. -/
theorem insertAt_cases (p : ℕ) (a : α) (f : ℕ → α) {n i : ℕ} (hi : i < n + 1) (hp : p ≤ n) :
    insertAt p a f i = a ∨ ∃ j < n, insertAt p a f i = f j := by
  rcases Nat.lt_trichotomy i p with h | rfl | h
  · exact Or.inr ⟨i, by omega, insertAt_lt h a f⟩
  · exact Or.inl (insertAt_self i a f)
  · exact Or.inr ⟨i - 1, by omega, insertAt_gt h a f⟩

/-- Every element but the last of the old ones stands somewhere among the first
`n`. -/
theorem exists_insertAt (p : ℕ) (a : α) (f : ℕ → α) {n j : ℕ} (hj : j + 1 < n) :
    ∃ i < n, insertAt p a f i = f j := by
  by_cases h : j < p
  · exact ⟨j, by omega, insertAt_lt h a f⟩
  · exact ⟨j + 1, hj, insertAt_gt (by omega) a f⟩

/-- **Insertion.** Between the elements that come before the new one and those that
come after it, the elements stay pairwise related. -/
theorem pairwiseOn_insertAt {r : α → α → Prop} {n p : ℕ} {a : α} {f : ℕ → α}
    (h : PairwiseOn r n f) (hp : p ≤ n) (hbelow : ∀ i < p, r (f i) a)
    (habove : ∀ i, p ≤ i → i < n → r a (f i)) : PairwiseOn r (n + 1) (insertAt p a f) := by
  intro i j hij hj
  rcases Nat.lt_trichotomy j p with hjp | rfl | hjp
  · -- both stand before the new element
    rw [insertAt_lt hjp, insertAt_lt (by omega)]
    exact h i j hij (by omega)
  · rw [insertAt_self, insertAt_lt hij]
    exact hbelow i hij
  · rw [insertAt_gt hjp]
    rcases Nat.lt_trichotomy i p with hip | rfl | hip
    · rw [insertAt_lt hip]
      exact h i (j - 1) (by omega) (by omega)
    · rw [insertAt_self]
      exact habove (j - 1) (by omega) (by omega)
    · rw [insertAt_gt hip]
      exact h (i - 1) (j - 1) (by omega) (by omega)

theorem sortedOn_insertAt {key : α → κ} {n p : ℕ} {a : α} {f : ℕ → α} (h : SortedOn key n f)
    (hp : p ≤ n) (hbelow : ∀ i < p, key (f i) ≤ key a)
    (habove : ∀ i, p ≤ i → i < n → key a ≤ key (f i)) : SortedOn key (n + 1) (insertAt p a f) :=
  sortedOn_iff.mpr (pairwiseOn_insertAt (sortedOn_iff.mp h) hp hbelow habove)

theorem PairwiseOn.mono {r : α → α → Prop} {n m : ℕ} {f : ℕ → α} (h : PairwiseOn r n f)
    (hm : m ≤ n) : PairwiseOn r m f := fun i j hij hj => h i j hij (by omega)

theorem PairwiseOn.congr {r : α → α → Prop} {n : ℕ} {f g : ℕ → α} (h : PairwiseOn r n f)
    (hg : ∀ i < n, g i = f i) : PairwiseOn r n g := by
  intro i j hij hj
  rw [hg i (by omega), hg j hj]
  exact h i j hij hj

theorem SortedOn.mono {key : α → κ} {n m : ℕ} {f : ℕ → α} (h : SortedOn key n f) (hm : m ≤ n) :
    SortedOn key m f := fun i j hij hj => h i j hij (by omega)

/-- Only the keys of the elements below `n` count. -/
theorem SortedOn.congr {key : α → κ} {n : ℕ} {f g : ℕ → α} (h : SortedOn key n f)
    (hg : ∀ i < n, key (g i) = key (f i)) : SortedOn key n g := by
  intro i j hij hj
  rw [hg i (by omega), hg j hj]
  exact h i j hij hj

end SortedArray
