import Mathlib.Data.List.Basic
import Mathlib.Data.Set.Insert
import Mathlib.Logic.Relation

/-!
# Exploring a graph

A search marks the vertices it comes to and keeps those whose edges it has not gone
through to the end in a list, `pending`. `Explored adj r marked pending` is what
holds all the time: a marked vertex that is not pending has all its successors
marked, and every marked vertex is reached from `r`.

* `start`, `visit`, `leave` — the moves of a search;
* `mem_iff`   — when nothing is pending, the marked vertices are those that `r` reaches;
* `extend`    — a new edge out of a marked vertex, which then is pending again.
-/

universe u

variable {α : Type u} {adj : α → α → Prop} {r : α} {marked : Set α} {pending : List α}

/-- Marked vertices are reached from `r`, and what is not pending is closed. -/
structure Explored (adj : α → α → Prop) (r : α) (marked : Set α) (pending : List α) : Prop where
  marked_of_pending : ∀ v ∈ pending, v ∈ marked
  closed  : ∀ v ∈ marked, v ∉ pending → ∀ u, adj v u → u ∈ marked
  reached : ∀ v ∈ marked, Relation.ReflTransGen adj r v

namespace Explored

/-- Only the first vertex has been marked. -/
theorem start (adj : α → α → Prop) (r : α) : Explored adj r {r} [r] where
  marked_of_pending v hv := List.mem_singleton.mp hv
  closed v hv hpending := absurd (List.mem_singleton.mpr hv) hpending
  reached v hv := by
    rw [Set.mem_singleton_iff.mp hv]

/-- A successor of a marked vertex is marked, and is pending. -/
theorem visit (h : Explored adj r marked pending) {v u : α} (hv : v ∈ marked) (hadj : adj v u) :
    Explored adj r (insert u marked) (u :: pending) where
  marked_of_pending w hw := by
    rcases List.mem_cons.mp hw with rfl | hw
    · exact Set.mem_insert _ _
    · exact Set.mem_insert_of_mem _ (h.marked_of_pending w hw)
  closed w hw hpending x hx := by
    rw [List.mem_cons, not_or] at hpending
    have hmarked := (Set.mem_insert_iff.mp hw).resolve_left hpending.1
    exact Set.mem_insert_of_mem _ (h.closed w hmarked hpending.2 x hx)
  reached w hw := by
    rcases Set.mem_insert_iff.mp hw with rfl | hw
    · exact (h.reached v hv).tail hadj
    · exact h.reached w hw

/-- A vertex whose successors are all marked need not be pending. -/
theorem leave {v : α} (h : Explored adj r marked (v :: pending))
    (hall : ∀ u, adj v u → u ∈ marked) : Explored adj r marked pending where
  marked_of_pending w hw := h.marked_of_pending w (List.mem_cons_of_mem _ hw)
  closed w hw hpending := by
    by_cases heq : w = v
    · exact heq ▸ hall
    · exact h.closed w hw (List.not_mem_cons_of_ne_of_not_mem heq hpending)
  reached := h.reached

/-- **At the end** the marked vertices are the reachable ones. -/
theorem mem_iff (h : Explored adj r marked []) (hr : r ∈ marked) {v : α} :
    v ∈ marked ↔ Relation.ReflTransGen adj r v := by
  refine ⟨h.reached v, fun hreach => ?_⟩
  induction hreach with
  | refl => exact hr
  | tail _ hadj ih => exact h.closed _ ih List.not_mem_nil _ hadj

/-- A new edge out of a marked vertex. -/
theorem extend {adj' : α → α → Prop} {a b : α} (h : Explored adj r marked []) (ha : a ∈ marked)
    (hadj : ∀ v u, adj' v u ↔ adj v u ∨ v = a ∧ u = b) : Explored adj' r marked [a] where
  marked_of_pending v hv := List.mem_singleton.mp hv ▸ ha
  closed v hv hpending u hu := by
    rcases (hadj v u).mp hu with hu | ⟨heq, -⟩
    · exact h.closed v hv List.not_mem_nil u hu
    · exact absurd (List.mem_singleton.mpr heq) hpending
  reached v hv := Relation.ReflTransGen.mono (fun v u hu => (hadj v u).mpr (Or.inl hu)) _ _ (h.reached v hv)

end Explored
