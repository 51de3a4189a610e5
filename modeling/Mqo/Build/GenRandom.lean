import Mathlib.Data.List.Sort
import Mathlib.Data.Nat.ModEq
import Mqo.Trajectory.Basic

/-!
# MQO — distinct random ids

`GenRandom` of `efanna2eold/util.h`: `size` draws below `N - size` are sorted, moved
apart where two are equal, and then all shifted by one more draw, modulo `N`.

* `spread_increasing`, `spread_lt` — what moving apart does;
* `genRandom_returns` — the ids are distinct and below `N`, whatever the draws are.
-/

namespace Mqo.Build

open Prog

/-- The second loop, behind an element `prev` that stays. -/
def spreadFrom : ℕ → List ℕ → List ℕ
  | _, [] => []
  | prev, a :: rest =>
    let a := if a ≤ prev then prev + 1 else a
    a :: spreadFrom a rest

/-- The second loop. -/
def spread : List ℕ → List ℕ
  | [] => []
  | a :: rest => a :: spreadFrom a rest

/-- `GenRandom(rng, addr, size, N)`: the ids, in `unsigned` arithmetic, and the numbers that `rng`
has yet to return. -/
def genRandom (rng : ℕ → ℕ) (size N : ℕ) : Run (List ℕ × (ℕ → ℕ)) :=
  let range := (N + 2 ^ 32 - size) % 2 ^ 32
  if 0 < size ∧ range = 0 ∨ N = 0 then fault .outOfRange
  else
    let addr := (List.range size).map fun i => rng i % range
    let addr := spread (addr.insertionSort (· ≤ ·))
    let off := rng size % N
    pure (addr.map fun a => (a + off) % 2 ^ 32 % N, fun k => rng (size + 1 + k))

-- ---------------------------------------------------------------------------
-- Moving apart
-- ---------------------------------------------------------------------------

@[simp] theorem length_spreadFrom (prev : ℕ) (l : List ℕ) : (spreadFrom prev l).length = l.length := by
  induction l generalizing prev with
  | nil => rfl
  | cons a l ih => rw [spreadFrom, List.length_cons, ih, List.length_cons]

@[simp] theorem length_spread (l : List ℕ) : (spread l).length = l.length := by
  cases l with
  | nil => rfl
  | cons a l => rw [spread, List.length_cons, length_spreadFrom, List.length_cons]

/-- What comes behind an element is larger, and increasing. -/
theorem spreadFrom_increasing (prev : ℕ) (l : List ℕ) :
    (∀ a ∈ spreadFrom prev l, prev < a) ∧ (spreadFrom prev l).Pairwise (· < ·) := by
  induction l generalizing prev with
  | nil => exact ⟨fun a ha => absurd ha List.not_mem_nil, List.Pairwise.nil⟩
  | cons a l ih =>
    rw [spreadFrom]
    have hnext : prev < if a ≤ prev then prev + 1 else a := by
      split <;> omega
    obtain ⟨hlarger, hincreasing⟩ := ih (if a ≤ prev then prev + 1 else a)
    refine ⟨fun b hb => ?_, List.pairwise_cons.mpr ⟨hlarger, hincreasing⟩⟩
    rcases List.mem_cons.mp hb with rfl | hb
    · exact hnext
    · exact hnext.trans (hlarger b hb)

theorem spread_increasing (l : List ℕ) : (spread l).Pairwise (· < ·) := by
  cases l with
  | nil => exact List.Pairwise.nil
  | cons a l =>
    obtain ⟨hlarger, hincreasing⟩ := spreadFrom_increasing a l
    exact List.pairwise_cons.mpr ⟨hlarger, hincreasing⟩

/-- Each element moves by at most one place more than the one in front of it. -/
theorem spreadFrom_lt {m : ℕ} (l : List ℕ) (hl : ∀ a ∈ l, a < m) {prev k : ℕ} (hprev : prev < m + k) :
    ∀ a ∈ spreadFrom prev l, a < m + k + l.length := by
  induction l generalizing prev k with
  | nil => exact fun a ha => absurd ha List.not_mem_nil
  | cons a l ih =>
    rw [spreadFrom]
    have ha := hl a List.mem_cons_self
    have hnext : (if a ≤ prev then prev + 1 else a) < m + (k + 1) := by
      split <;> omega
    intro b hb
    rw [List.length_cons]
    rcases List.mem_cons.mp hb with rfl | hb
    · omega
    · have := ih (fun c hc => hl c (List.mem_cons_of_mem _ hc)) hnext b hb
      omega

theorem spread_lt {m : ℕ} {l : List ℕ} (hl : ∀ a ∈ l, a < m) : ∀ a ∈ spread l, a < m + l.length := by
  cases l with
  | nil => exact fun a ha => absurd ha List.not_mem_nil
  | cons a l =>
    have ha := hl a List.mem_cons_self
    intro b hb
    rw [List.length_cons]
    rcases List.mem_cons.mp hb with rfl | hb
    · omega
    · have := spreadFrom_lt l (fun c hc => hl c (List.mem_cons_of_mem _ hc)) (k := 0) ha b hb
      omega

/-- A shift modulo `N` keeps numbers below `N` apart. -/
theorem shift_injOn {N off a b : ℕ} (ha : a < N) (hb : b < N) (h : (a + off) % N = (b + off) % N) :
    a = b := by
  have hmod : a + off ≡ b + off [MOD N] := h
  have hcancel : a ≡ b [MOD N] := Nat.ModEq.add_right_cancel' off hmod
  rwa [Nat.ModEq, Nat.mod_eq_of_lt ha, Nat.mod_eq_of_lt hb] at hcancel

-- ---------------------------------------------------------------------------
-- The ids
-- ---------------------------------------------------------------------------

/-- **Random ids** are distinct, whatever the draws are, as long as there are more numbers
than are asked for. -/
theorem genRandom_returns (rng : ℕ → ℕ) {size N : ℕ} (hsize : size < N) (hN : N ≤ 2 ^ 31) :
    ∃ ids, Returns (genRandom rng size N) (ids, fun k => rng (size + 1 + k)) ∧
      ids.length = size ∧ ids.Nodup ∧ ∀ id ∈ ids, id < N := by
  have hrange : (N + 2 ^ 32 - size) % 2 ^ 32 = N - size := by
    rw [show N + 2 ^ 32 - size = N - size + 2 ^ 32 by omega, Nat.add_mod_right,
      Nat.mod_eq_of_lt (by omega)]
  obtain ⟨addr, haddr⟩ : ∃ addr, addr = spread
    (((List.range size).map fun i => rng i % (N - size)).insertionSort (· ≤ ·)) := ⟨_, rfl⟩
  have hlen : addr.length = size := by
    rw [haddr, length_spread, List.length_insertionSort, List.length_map, List.length_range]
  have hlt : ∀ a ∈ addr, a < N := by
    have hdraws : ∀ a ∈ ((List.range size).map fun i => rng i % (N - size)).insertionSort (· ≤ ·),
        a < N - size := by
      intro a ha
      obtain ⟨i, -, rfl⟩ := List.mem_map.mp ((List.mem_insertionSort _).mp ha)
      exact Nat.mod_lt _ (by omega)
    have hspread := spread_lt hdraws
    rw [← haddr, List.length_insertionSort, List.length_map, List.length_range] at hspread
    intro a ha
    have := hspread a ha
    omega
  have hoff : rng size % N < N := Nat.mod_lt _ (by omega)
  -- the sums do not overflow
  have hmod : ∀ a ∈ addr, (a + rng size % N) % 2 ^ 32 % N = (a + rng size % N) % N := fun a ha => by
    have := hlt a ha
    rw [Nat.mod_eq_of_lt (show a + rng size % N < 2 ^ 32 by omega)]
  refine ⟨addr.map fun a => (a + rng size % N) % 2 ^ 32 % N, ?_, ?_, ?_, ?_⟩
  · unfold genRandom
    dsimp only
    rw [hrange, if_neg (by omega), ← haddr]
    exact returns_pure _
  · rw [List.length_map, hlen]
  · refine List.Nodup.map_on (fun a ha b hb h => ?_)
      ((haddr ▸ spread_increasing _ : addr.Pairwise (· < ·)).imp fun hab => hab.ne)
    rw [hmod a ha, hmod b hb] at h
    exact shift_injOn (hlt a ha) (hlt b hb) h
  · intro id hid
    obtain ⟨a, ha, rfl⟩ := List.mem_map.mp hid
    exact Nat.mod_lt _ (by omega)

end Mqo.Build
