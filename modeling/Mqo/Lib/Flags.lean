import Mathlib.Algebra.BigOperators.Group.Finset.Basic
import Mathlib.Data.Finset.Card
import Mathlib.Logic.Function.Basic

/-!
# Flags of the nodes of a graph

A search keeps a flag for every node and only ever sets flags. The nodes whose
flags are not set are the measure by which it ends.

* `update_iff`, `mem_foldl_set` — setting a flag, or those of a list of nodes;
* `unset_update`      — setting a flag takes its node off the unset ones;
* `card_unset_update` — so there is one node fewer;
* `unset_subset`      — more flags, fewer nodes.
-/

namespace Flags

/-- The nodes below `n` whose flags are not set. -/
def unset (n : ℕ) (flags : ℕ → Bool) : Finset ℕ := (Finset.range n).filter fun i => flags i = false

variable {n : ℕ} {flags flags' : ℕ → Bool}

@[simp] theorem mem_unset {i : ℕ} : i ∈ unset n flags ↔ i < n ∧ flags i = false := by
  rw [unset, Finset.mem_filter, Finset.mem_range]

theorem update_iff (flags : ℕ → Bool) (id i : ℕ) :
    Function.update flags id true i = true ↔ flags i = true ∨ i = id := by
  by_cases hi : i = id
  · simp [hi]
  · simp [hi]

theorem unset_update (n : ℕ) (flags : ℕ → Bool) (id : ℕ) :
    unset n (Function.update flags id true) = (unset n flags).erase id := by
  ext i
  by_cases hi : i = id
  · simp [hi]
  · simp [hi]

theorem card_unset_update {id : ℕ} (hid : id < n) (hnew : flags id = false) :
    (unset n flags).card = (unset n (Function.update flags id true)).card + 1 := by
  rw [unset_update, Finset.card_erase_add_one (mem_unset.mpr ⟨hid, hnew⟩)]

/-- The same for a sum over the unset nodes. -/
theorem sum_unset_update {M : Type*} [AddCommMonoid M] (w : ℕ → M) {id : ℕ} (hid : id < n)
    (hnew : flags id = false) :
    ∑ i ∈ unset n flags, w i = w id + ∑ i ∈ unset n (Function.update flags id true), w i := by
  rw [unset_update]
  exact (Finset.add_sum_erase _ _ (mem_unset.mpr ⟨hid, hnew⟩)).symm

theorem unset_subset (n : ℕ) (h : ∀ i, flags i = true → flags' i = true) :
    unset n flags' ⊆ unset n flags := by
  intro i hi
  rw [mem_unset] at hi ⊢
  refine ⟨hi.1, Bool.eq_false_iff.mpr fun hset => ?_⟩
  rw [h i hset] at hi
  exact absurd hi.2 (by decide)

/-- Setting the flags of the nodes of a list. -/
theorem mem_foldl_set (ids : List ℕ) (flags : ℕ → Bool) (i : ℕ) :
    ids.foldl (fun flags id => Function.update flags id true) flags i = true ↔
      flags i = true ∨ i ∈ ids := by
  induction ids generalizing flags with
  | nil => simp
  | cons id ids ih => rw [List.foldl_cons, ih, update_iff, List.mem_cons, or_assoc]

end Flags
