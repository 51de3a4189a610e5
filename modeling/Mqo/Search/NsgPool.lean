import Mathlib.Data.Nat.Basic
import Mathlib.Logic.Function.Basic
import Mqo.Lib.SortedArray

/-!
# MQO — the candidate pool of the NSG search

`Neighbor` and `InsertIntoPool` of `efanna2e/neighbor.h`. The pool is an array of
`K + 1` candidates, of which the first `K` are sorted by distance and the last
is a spare place. A candidate is inserted after a binary search for its place,
unless its id is found among those at the same distance.

* `bisect_spec`          — the binary search encloses the distance of the new
  candidate between two neighbouring ones;
* `insertIntoPool_spec`  — the call inserts at the place it returns, or leaves the
  first `K` candidates as they are and returns a place outside;
* `insertIntoPool_inserts` — it does insert a new candidate that is closer than the
  last one.
-/

namespace Mqo.Search.Nsg

open SortedArray

/-- `efanna2e::Neighbor` -/
structure Neighbor (K : Type) where
  id : ℕ
  distance : K
  flag : Bool
deriving DecidableEq

section Pool

variable {K : Type} [LinearOrder K]

/-- `while (left < right - 1)`: the interval is halved until its ends are
neighbours; `fuel` is at least its width. -/
def bisect (addr : ℕ → Neighbor K) (nn : Neighbor K) : ℕ → ℕ → ℕ → ℕ × ℕ
  | 0, left, right => (left, right)
  | fuel + 1, left, right =>
    if left + 1 < right then
      let mid := (left + right) / 2
      if nn.distance < (addr mid).distance then bisect addr nn fuel left mid
      else bisect addr nn fuel mid right
    else (left, right)

/-- The loop under "check equal ID": it goes down from `left` while the distance is
that of the new candidate, and stops with `none` where the id is the same. -/
def checkEqualId (addr : ℕ → Neighbor K) (nn : Neighbor K) : ℕ → Option ℕ
  | 0 => some 0
  | left + 1 =>
    if (addr (left + 1)).distance < nn.distance then some (left + 1)
    else if (addr (left + 1)).id = nn.id then none
    else checkEqualId addr nn left

/-- `InsertIntoPool`: the new array and the returned place. -/
def insertIntoPool (addr : ℕ → Neighbor K) (k : ℕ) (nn : Neighbor K) : (ℕ → Neighbor K) × ℕ :=
  if nn.distance < (addr 0).distance then (insertAt 0 nn addr, 0)
  else if (addr (k - 1)).distance < nn.distance then (Function.update addr k nn, k)
  else
    let bounds := bisect addr nn k 0 (k - 1)
    let right := bounds.2
    match checkEqualId addr nn bounds.1 with
    | none => (addr, k + 1)
    | some left =>
      if (addr left).id = nn.id ∨ (addr right).id = nn.id then (addr, k + 1)
      else (insertAt right nn addr, right)

/-- **The binary search.** -/
theorem bisect_spec {addr : ℕ → Neighbor K} {nn : Neighbor K} (fuel : ℕ) {left right : ℕ}
    (hfuel : right - left ≤ fuel) (hle : left ≤ right)
    (hleft : (addr left).distance ≤ nn.distance) (hright : nn.distance ≤ (addr right).distance) :
    (bisect addr nn fuel left right).1 ≤ (bisect addr nn fuel left right).2 ∧
    (bisect addr nn fuel left right).2 ≤ (bisect addr nn fuel left right).1 + 1 ∧
    (bisect addr nn fuel left right).2 ≤ right ∧
    (addr (bisect addr nn fuel left right).1).distance ≤ nn.distance ∧
    nn.distance ≤ (addr (bisect addr nn fuel left right).2).distance := by
  induction fuel generalizing left right with
  | zero => exact ⟨hle, by rw [bisect]; dsimp only; omega, Nat.le_refl _, hleft, hright⟩
  | succ fuel ih =>
    rw [bisect]
    split
    · dsimp only
      split
      · next hlt =>
        obtain ⟨h0, h1, h2, h3⟩ := ih (show (left + right) / 2 - left ≤ fuel by omega) (by omega)
          hleft hlt.le
        exact ⟨h0, h1, by omega, h3⟩
      · next hge => exact ih (by omega) (by omega) (not_lt.mp hge) hright
    · exact ⟨hle, by dsimp only; omega, Nat.le_refl _, hleft, hright⟩

/-- The check for an equal id stops at one, or at a place no farther up. -/
theorem checkEqualId_none {addr : ℕ → Neighbor K} {nn : Neighbor K} {left : ℕ}
    (h : checkEqualId addr nn left = none) : ∃ i ≤ left, (addr i).id = nn.id := by
  induction left with
  | zero => cases h
  | succ left ih =>
    rw [checkEqualId] at h
    split at h
    · cases h
    · split at h
      · next heq => exact ⟨left + 1, Nat.le_refl _, heq⟩
      · obtain ⟨i, hi, heq⟩ := ih h
        exact ⟨i, by omega, heq⟩

theorem checkEqualId_le {addr : ℕ → Neighbor K} {nn : Neighbor K} {left r : ℕ}
    (h : checkEqualId addr nn left = some r) : r ≤ left := by
  induction left with
  | zero =>
    cases h
    exact Nat.le_refl 0
  | succ left ih =>
    rw [checkEqualId] at h
    split at h
    · cases h
      exact Nat.le_refl _
    · split at h
      · cases h
      · exact Nat.le_succ_of_le (ih h)

/-- What a call did: it inserted before the end, or left the pool as it was. -/
inductive Inserted (addr : ℕ → Neighbor K) (k : ℕ) (nn : Neighbor K) :
    (ℕ → Neighbor K) × ℕ → Prop
  | inserted (r : ℕ) : r < k → (∀ i < r, (addr i).distance ≤ nn.distance) →
      (∀ i, r ≤ i → i < k → nn.distance ≤ (addr i).distance) →
      Inserted addr k nn (insertAt r nn addr, r)
  | rejected (addr' : ℕ → Neighbor K) (r : ℕ) : k ≤ r → (∀ i < k, addr' i = addr i) →
      (addr 0).distance ≤ nn.distance → Inserted addr k nn (addr', r)

/-- **Insertion into a sorted pool.** -/
theorem insertIntoPool_spec {addr : ℕ → Neighbor K} {k : ℕ} (hk : 1 ≤ k)
    (h : SortedOn Neighbor.distance k addr) (nn : Neighbor K) :
    Inserted addr k nn (insertIntoPool addr k nn) := by
  unfold insertIntoPool
  split
  · next hlt =>
    -- before all others
    exact .inserted 0 hk (fun i hi => absurd hi (Nat.not_lt_zero i))
      fun i _ hi => hlt.le.trans (h 0 i (Nat.zero_le i) hi)
  · next hge =>
    have hfirst := not_lt.mp hge
    split
    · exact .rejected _ k (Nat.le_refl k)
        (fun i hi => Function.update_of_ne (Nat.ne_of_lt hi) _ _) hfirst
    · next hlast =>
      obtain ⟨hbounds, hnext, hright, hleft, hle⟩ := bisect_spec k
        (show k - 1 - 0 ≤ k by omega) (Nat.zero_le _) hfirst (not_lt.mp hlast)
      dsimp only
      split
      · exact .rejected _ _ (by omega) (fun _ _ => rfl) hfirst
      · split
        · exact .rejected _ _ (by omega) (fun _ _ => rfl) hfirst
        · exact .inserted _ (by omega)
            (fun i hi => (h i _ (by omega) (by omega)).trans hleft)
            fun i hi hik => hle.trans (h _ i hi hik)

/-- A candidate that is not in the pool, and closer than its last one, is inserted. -/
theorem insertIntoPool_inserts {addr : ℕ → Neighbor K} {k : ℕ} (hk : 1 ≤ k)
    (h : SortedOn Neighbor.distance k addr) {nn : Neighbor K}
    (hlast : nn.distance < (addr (k - 1)).distance) (hnew : ∀ i < k, (addr i).id ≠ nn.id) :
    ∃ r < k, (∀ i < r, (addr i).distance ≤ nn.distance) ∧
      (∀ i, r ≤ i → i < k → nn.distance ≤ (addr i).distance) ∧
      insertIntoPool addr k nn = (insertAt r nn addr, r) := by
  have hspec := insertIntoPool_spec hk h nn
  -- the returned place is inside
  have hplace : (insertIntoPool addr k nn).2 < k := by
    unfold insertIntoPool
    split
    · exact hk
    · next hfirst =>
      rw [if_neg (not_lt.mpr hlast.le)]
      obtain ⟨hbounds, hnext, hright, -, -⟩ := bisect_spec k (show k - 1 - 0 ≤ k by omega)
        (Nat.zero_le _) (not_lt.mp hfirst) hlast.le
      dsimp only
      cases hcheck : checkEqualId addr nn (bisect addr nn k 0 (k - 1)).1 with
      | none =>
        obtain ⟨i, hi, heq⟩ := checkEqualId_none hcheck
        exact absurd heq (hnew i (by omega))
      | some left =>
        have hleft := checkEqualId_le hcheck
        dsimp only
        rw [if_neg]
        · omega
        · exact not_or.mpr ⟨hnew left (by omega), hnew _ (by omega)⟩
  generalize insertIntoPool addr k nn = placed at hspec hplace ⊢
  cases hspec with
  | inserted r hr hbelow habove => exact ⟨r, hr, hbelow, habove, rfl⟩
  | rejected addr' r hr => exact absurd hplace (Nat.not_lt.mpr hr)

end Pool

end Mqo.Search.Nsg
