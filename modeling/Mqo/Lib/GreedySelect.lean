import Mathlib.Data.List.Sublists
import Mathlib.Data.List.Pairwise

/-!
# Greedy selection

Candidates are gone through in their order, and one is chosen unless something that has
been chosen before `blocks` it, until `limit` have been chosen.

* `prefix_select`, `select_sublist` — what is chosen is kept, and chosen in order;
* `length_select`   — no more than `limit` are chosen;
* `select_pairwise` — nothing chosen blocks what is chosen later;
* `select_complete` — what is not chosen is blocked by something that is, or came too late.
-/

universe u

namespace GreedySelect

variable {α : Type u} (blocks : α → α → Bool) (limit : ℕ)

/-- The candidates chosen behind those that have been chosen already. -/
def select : List α → List α → List α
  | chosen, [] => chosen
  | chosen, p :: rest =>
    if chosen.length < limit then
      select (if chosen.any fun t => blocks t p then chosen else chosen ++ [p]) rest
    else chosen

variable {blocks limit}

theorem prefix_select (cands chosen : List α) : chosen <+: select blocks limit chosen cands := by
  induction cands generalizing chosen with
  | nil => exact List.prefix_refl _
  | cons p rest ih =>
    rw [select]
    split
    · split
      · exact ih chosen
      · exact (List.prefix_append _ _).trans (ih _)
    · exact List.prefix_refl _

theorem select_sublist (cands chosen : List α) :
    (select blocks limit chosen cands).Sublist (chosen ++ cands) := by
  induction cands generalizing chosen with
  | nil =>
    rw [select, List.append_nil]
  | cons p rest ih =>
    rw [select]
    split
    · split
      · exact (ih chosen).trans (List.Sublist.append_left (List.sublist_cons_self p rest) chosen)
      · simpa using ih (chosen ++ [p])
    · exact List.sublist_append_left _ _

theorem length_select {cands chosen : List α} (h : chosen.length ≤ limit) :
    (select blocks limit chosen cands).length ≤ limit := by
  induction cands generalizing chosen with
  | nil => exact h
  | cons p rest ih =>
    rw [select]
    split
    · next hlt =>
      split
      · exact ih h
      · exact ih (by rw [List.length_append, List.length_singleton]; exact hlt)
    · exact h

theorem select_pairwise {cands chosen : List α}
    (h : chosen.Pairwise fun t p => blocks t p = false) :
    (select blocks limit chosen cands).Pairwise fun t p => blocks t p = false := by
  induction cands generalizing chosen with
  | nil => exact h
  | cons p rest ih =>
    rw [select]
    split
    · split
      · exact ih h
      · next hfree =>
        refine ih (List.pairwise_append.mpr ⟨h, List.pairwise_singleton _ _, fun t ht q hq => ?_⟩)
        rw [List.mem_singleton.mp hq]
        rw [List.any_eq_true] at hfree
        exact Bool.eq_false_iff.mpr fun hblocks => hfree ⟨t, ht, hblocks⟩
    · exact h

/-- **Nothing is left out without a reason.** -/
theorem select_complete {cands chosen : List α} {p : α} (hp : p ∈ cands) :
    p ∈ select blocks limit chosen cands ∨
      (∃ t ∈ select blocks limit chosen cands, blocks t p = true) ∨
      limit ≤ (select blocks limit chosen cands).length := by
  induction cands generalizing chosen with
  | nil => exact absurd hp List.not_mem_nil
  | cons q rest ih =>
    rw [select]
    split
    · split
      · next hblocked =>
        obtain ⟨t, ht, hblocks⟩ := List.any_eq_true.mp hblocked
        rcases List.mem_cons.mp hp with rfl | hp
        · exact Or.inr (Or.inl ⟨t, (prefix_select rest chosen).subset ht, hblocks⟩)
        · exact ih hp
      · rcases List.mem_cons.mp hp with rfl | hp
        · exact Or.inl ((prefix_select rest _).subset (by simp))
        · exact ih hp
    · next hfull => exact Or.inr (Or.inr (not_lt.mp hfull))

end GreedySelect
