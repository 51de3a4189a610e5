import Mathlib.Logic.Function.Basic
import Mqo.Lib.Flags
import Mqo.Trajectory.Basic

/-!
# MQO — recycled visited lists

`VisitedList` and `VisitedListPool` of `hnswlib/visited_list_pool.h`. A search
marks an element by writing the tag of the search into a 16-bit array. The
array is not cleared between searches: a list taken from the pool only gets a
new tag, and is zeroed when the tag wraps around.

The list carries the invariant that no entry exceeds the current tag, so the
invalid states, in which a stale mark reads as a fresh one, cannot be built.

* `VisitedList.unmarked_reset` — after `reset` no element is marked, whatever
  the array held, also when the tag wraps around;
* `getFreeVisitedList_unmarked` — so a search starts without marks, on a list
  that was recycled as well as on a new one.
-/

namespace Mqo.Search.Hnsw

open Prog Flags

/-- `VisitedList`: the tag of the search, and an array with one entry for each of
`numelements` elements. -/
structure VisitedList (numelements : ℕ) where
  curV : UInt16
  mass : ℕ → UInt16
  mass_le : ∀ i, mass i ≤ curV

namespace VisitedList

variable {n : ℕ}

/-- The constructor: the tag is `-1`, and `new` leaves the array uninitialised. -/
def new (mem : ℕ → UInt16) : VisitedList n where
  curV := -1
  mass := mem
  mass_le i := by
    have := (mem i).toNat_lt
    rw [UInt16.le_iff_toNat_le, show (-1 : UInt16).toNat = 65535 from rfl]
    omega

/-- A tag that does not wrap around is above the entries. -/
theorem lt_succ {tag curV : UInt16} (h : tag ≤ curV) (hwrap : curV + 1 ≠ 0) : tag < curV + 1 := by
  have hne : (curV + 1).toNat ≠ 0 := fun h0 => hwrap (UInt16.toNat_inj.mp h0)
  rw [UInt16.le_iff_toNat_le] at h
  rw [UInt16.toNat_add, UInt16.toNat_one] at hne
  rw [UInt16.lt_iff_toNat_lt, UInt16.toNat_add, UInt16.toNat_one]
  have := curV.toNat_lt
  omega

/-- `reset` -/
def reset (vl : VisitedList n) : VisitedList n :=
  let curV := vl.curV + 1
  if h : curV = 0 then
    { curV := curV + 1, mass := fun _ => 0, mass_le := fun _ => by rw [h]; decide }
  else
    { curV := curV, mass := vl.mass, mass_le := fun i => UInt16.le_of_lt (lt_succ (vl.mass_le i) h) }

/-- `visited_array[id] == visited_array_tag` -/
def marked (vl : VisitedList n) (id : ℕ) : Bool := vl.mass id = vl.curV

/-- Reading an entry; `id` has to be an index of the array. -/
def isVisited (vl : VisitedList n) (id : ℕ) : Run Bool :=
  if id < n then pure (vl.marked id) else fault .outOfRange

/-- `visited_array[id] = visited_array_tag` -/
def mark (vl : VisitedList n) (id : ℕ) : VisitedList n where
  curV := vl.curV
  mass := Function.update vl.mass id vl.curV
  mass_le i := by
    by_cases hi : i = id
    · rw [hi, Function.update_self]
      exact UInt16.le_refl _
    · rw [Function.update_of_ne hi]
      exact vl.mass_le i

/-- Writing the tag; `id` has to be an index of the array. -/
def visit (vl : VisitedList n) (id : ℕ) : Run (VisitedList n) :=
  if id < n then pure (vl.mark id) else fault .outOfRange

theorem isVisited_returns {vl : VisitedList n} {id : ℕ} (h : id < n) :
    Returns (vl.isVisited id) (vl.marked id) := by
  rw [isVisited, if_pos h]
  exact returns_pure _

theorem visit_returns {vl : VisitedList n} {id : ℕ} (h : id < n) :
    Returns (vl.visit id) (vl.mark id) := by
  rw [visit, if_pos h]
  exact returns_pure _

theorem isVisited_inv {vl : VisitedList n} {id : ℕ} {b : Bool} (h : Returns (vl.isVisited id) b) :
    id < n ∧ b = vl.marked id := by
  by_cases hid : id < n
  · exact ⟨hid, h.unique (isVisited_returns hid)⟩
  · rw [isVisited, if_neg hid] at h
    exact absurd (fails_fault _) h.not_fails

theorem visit_inv {vl vl' : VisitedList n} {id : ℕ} (h : Returns (vl.visit id) vl') :
    id < n ∧ vl' = vl.mark id := by
  by_cases hid : id < n
  · exact ⟨hid, h.unique (visit_returns hid)⟩
  · rw [visit, if_neg hid] at h
    exact absurd (fails_fault _) h.not_fails

/-- Marking adds one element to those marked. -/
theorem marked_mark (vl : VisitedList n) (id i : ℕ) :
    (vl.mark id).marked i = true ↔ i = id ∨ vl.marked i = true := by
  unfold marked mark
  by_cases hi : i = id
  · simp [hi]
  · simp [hi]

/-- No mark is left over. -/
def Unmarked (vl : VisitedList n) : Prop := ∀ i, vl.marked i = false

/-- **No stale marks.** Whatever the list held, nothing is marked after `reset`. -/
theorem unmarked_reset (vl : VisitedList n) : vl.reset.Unmarked := by
  intro i
  unfold marked reset
  dsimp only
  split
  · next h =>
    -- the tag wrapped around: all entries are 0, and the tag is 1
    simp [h]
  · next h => exact decide_eq_false (UInt16.ne_of_lt (lt_succ (vl.mass_le i) h))

end VisitedList

/-- `VisitedListPool` -/
structure VisitedListPool (numelements : ℕ) where
  pool : List (VisitedList numelements)

namespace VisitedListPool

variable {n : ℕ}

/-- `getFreeVisitedList`: the front of the pool or a new list, reset. -/
def getFreeVisitedList (mem : ℕ → UInt16) (p : VisitedListPool n) :
    VisitedList n × VisitedListPool n :=
  match p.pool with
  | rez :: rest => (rez.reset, ⟨rest⟩)
  | [] => ((VisitedList.new mem).reset, ⟨[]⟩)

/-- `releaseVisitedList` -/
def releaseVisitedList (p : VisitedListPool n) (vl : VisitedList n) : VisitedListPool n :=
  ⟨vl :: p.pool⟩

/-- Every search starts without marks. -/
theorem getFreeVisitedList_unmarked (mem : ℕ → UInt16) (p : VisitedListPool n) :
    (p.getFreeVisitedList mem).1.Unmarked := by
  unfold getFreeVisitedList
  split
  · exact VisitedList.unmarked_reset _
  · exact VisitedList.unmarked_reset _

end VisitedListPool

/-- Visiting an element takes it off the unvisited ones. -/
theorem card_unvisited {n cur : ℕ} {vl : VisitedList n} {id : ℕ} (hid : id < cur)
    (hnew : vl.marked id = false) :
    (unset cur vl.marked).card = (unset cur (vl.mark id).marked).card + 1 := by
  have hmark : (vl.mark id).marked = Function.update vl.marked id true := by
    funext i
    rw [Bool.eq_iff_iff, vl.marked_mark, update_iff, or_comm]
  rw [hmark, card_unset_update hid hnew]

/-- A tag at the end of its range: the list is zeroed, and the stale entry with
the next tag is not taken for a mark. -/
example : ((⟨65535, fun _ => 1, fun _ => by decide⟩ : VisitedList 4).reset.marked 2) = false := by decide

end Mqo.Search.Hnsw
