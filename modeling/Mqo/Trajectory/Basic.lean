import Mathlib.Data.Finset.Card
import Mathlib.Data.Int.Order.Basic
import Mathlib.Data.List.Nodup
import Mqo.Lib.IntOffset
import Mqo.Lib.Prog
import Mqo.Lib.Scalar
import Mqo.Lib.StackTraversal

/-!
# MQO — distances, sampling and the trajectory check

The definitions of `mqo/basic.hpp` and `mqo/checker.hpp`.

A query matrix `float * query` is the function that gives the value read at each
offset from the pointer, inside the array or not. Row `i` starts at `dim * i`, an
`int` product that wraps. A trajectory is a list of pairs (child, parent), with
parent `-1` at the root of a tree.

* `getDistance`, `getDistanceIp` — the two metrics, and `metricDistance_row`, which says
  when they are the distances of the rows;
* `sampleTwo`, `getWeightForRoot` — the rejection sampling behind the weight
  charged for a root, over a stream of random draws;
* `checkTrajectory` — the assertions a trajectory has to pass.

Main results:

* `accepted_iff` — a trajectory passes exactly when its children are
  `0, …, n_query - 1`, each once, and every parent is an earlier child;
* `getWeightForRoot_returns` — the sampling ends on every stream in which no
  draw repeats forever.
-/

namespace Mqo

open Prog StackTraversal IntOffset

-- ---------------------------------------------------------------------------
-- Faults
-- ---------------------------------------------------------------------------

/-- The ways in which a run can stop without a result. -/
inductive Fault where
  /-- `assert` failed on the given condition. -/
  | assertFailed (condition : String)
  /-- An exception with the given text was thrown. -/
  | exception (what : String)
  /-- A container was accessed outside its bounds. -/
  | outOfRange
  /-- `top()` or `pop()` was called on an empty queue. -/
  | emptyQueue
deriving DecidableEq

/-- The runs of the program. -/
abbrev Run (α : Type) := Prog Fault α

/-- `assert(condition)` -/
def assert (condition : Prop) [Decidable condition] (text : String) : Run Unit :=
  if condition then pure () else fault (.assertFailed text)

theorem assert_returns {condition : Prop} [Decidable condition] {text : String} :
    Returns (assert condition text) () ↔ condition := by
  unfold assert
  split
  · exact ⟨fun _ => ‹condition›, fun _ => returns_pure ()⟩
  · exact ⟨fun h => absurd (fails_fault _) h.not_fails, fun h => absurd h ‹¬ condition›⟩

theorem assert_fails {condition : Prop} [Decidable condition] {text : String}
    (h : ¬ condition) : Fails (assert condition text) (.assertFailed text) := by
  rw [assert, if_neg h]
  exact fails_fault _

-- ---------------------------------------------------------------------------
-- Distances
-- ---------------------------------------------------------------------------

section Distances

variable {F D : Type} [Scalar F] [Scalar D] [Widen F D]

/-- `get_distance_ip` -/
def getDistanceIp (query : ℤ → F) (dim i j : ℕ) : F :=
  let istart := intMul dim i
  let jstart := intMul dim j
  1 - (List.range dim).foldl
    (fun sum pos => sum + columnAt query istart pos * columnAt query jstart pos) 0

/-- `get_distance_squared` -/
def getDistanceSquared (query : ℤ → F) (dim i j : ℕ) : F :=
  let istart := intMul dim i
  let jstart := intMul dim j
  (List.range dim).foldl
    (fun sum pos =>
      let diff := columnAt query istart pos - columnAt query jstart pos
      sum + diff * diff) 0

/-- `get_distance` -/
def getDistance (query : ℤ → F) (dim i j : ℕ) : F :=
  Scalar.sqrt (getDistanceSquared query dim i j)

/-- The distance the flag `use_l2` selects. -/
def metricDistance (use_l2 : Bool) (query : ℤ → F) (dim i j : ℕ) : F :=
  if use_l2 then getDistance query dim i j else getDistanceIp query dim i j

/-- All distances between different queries, as they are computed, are finite. -/
def FiniteDistances (use_l2 : Bool) (query : ℤ → F) (dim n_query : ℕ) : Prop :=
  ∀ i < n_query, ∀ j < n_query, i ≠ j →
    metricDistance use_l2 query dim i j < Scalar.infinity

/-- The distance of two vectors that the flag `l2` selects. -/
def vectorDistance (l2 : Bool) (dim : ℕ) (u v : ℕ → F) : F :=
  if l2 then
    Scalar.sqrt ((List.range dim).foldl (fun sum i => sum + (u i - v i) * (u i - v i)) 0)
  else 1 - (List.range dim).foldl (fun sum i => sum + u i * v i) 0

/-- Row `i` of a matrix with `dim` columns. -/
def matrixRow {α : Type} (x : ℤ → α) (dim i : ℕ) : ℕ → α := fun pos => x ↑(dim * i + pos)

/-- All distances between different rows of the matrix are finite. -/
def FiniteRows (use_l2 : Bool) (query : ℤ → F) (dim n_query : ℕ) : Prop :=
  ∀ i < n_query, ∀ j < n_query, i ≠ j →
    vectorDistance use_l2 dim (matrixRow query dim i) (matrixRow query dim j) < Scalar.infinity

section Vectors

omit [Scalar D] [Widen F D]

theorem metricDistance_eq (use_l2 : Bool) (query : ℤ → F) (dim i j : ℕ) :
    metricDistance use_l2 query dim i j =
      vectorDistance use_l2 dim (columnAt query (intMul dim i)) (columnAt query (intMul dim j)) :=
  rfl

theorem vectorDistance_congr {l2 : Bool} {dim : ℕ} {u u' v v' : ℕ → F}
    (hu : ∀ pos < dim, u pos = u' pos) (hv : ∀ pos < dim, v pos = v' pos) :
    vectorDistance l2 dim u v = vectorDistance l2 dim u' v' := by
  unfold vectorDistance
  congr 2
  · refine List.foldl_ext _ _ _ fun sum pos hpos => ?_
    rw [hu pos (List.mem_range.mp hpos), hv pos (List.mem_range.mp hpos)]
  · refine List.foldl_ext _ _ _ fun sum pos hpos => ?_
    rw [hu pos (List.mem_range.mp hpos), hv pos (List.mem_range.mp hpos)]

/-- **Rows that fit** are measured where they lie. -/
theorem metricDistance_row {n dim : ℕ} (hfit : RowsFit n dim) {i j : ℕ} (hi : i < n) (hj : j < n)
    (use_l2 : Bool) (query : ℤ → F) :
    metricDistance use_l2 query dim i j =
      vectorDistance use_l2 dim (matrixRow query dim i) (matrixRow query dim j) := by
  rw [metricDistance_eq]
  exact vectorDistance_congr (fun _ hpos => hfit.columnAt query hi hpos)
    fun _ hpos => hfit.columnAt query hj hpos

/-- While the rows fit, what lies outside the matrix is not read. -/
theorem metricDistance_congr {n dim : ℕ} (hfit : RowsFit n dim) {query query' : ℤ → F}
    (hsame : ∀ k : ℕ, k < n * dim → query k = query' k) {i j : ℕ} (hi : i < n) (hj : j < n)
    (use_l2 : Bool) :
    metricDistance use_l2 query dim i j = metricDistance use_l2 query' dim i j := by
  rw [metricDistance_row hfit hi hj, metricDistance_row hfit hi hj]
  exact vectorDistance_congr (fun _ hpos => hsame _ (column_lt hi hpos))
    fun _ hpos => hsame _ (column_lt hj hpos)

theorem FiniteRows.distances {use_l2 : Bool} {query : ℤ → F} {dim n_query : ℕ}
    (h : FiniteRows use_l2 query dim n_query) (hfit : RowsFit n_query dim) :
    FiniteDistances use_l2 query dim n_query := by
  intro i hi j hj hij
  rw [metricDistance_row hfit hi hj]
  exact h i hi j hj hij

end Vectors

end Distances

-- ---------------------------------------------------------------------------
-- Sampling
-- ---------------------------------------------------------------------------

section Sampling

variable {F D : Type} [Scalar F] [Scalar D] [Widen F D]

/-- The raw draws of a random generator, still to come. -/
abbrev Gen := ℕ → ℕ

/-- One draw of `uniform_int_distribution<>(0, n - 1)`. -/
def uniformInt (n : ℕ) (gen : Gen) : ℕ × Gen :=
  (gen 0 % n, fun k => gen (k + 1))

/-- One pass of the rejection loop of `sampleTwo` after the first index `a`. -/
def redraw (n a : ℕ) (gen : Gen) : Run (Gen ⊕ ((ℕ × ℕ) × Gen)) :=
  let b := uniformInt n gen
  pure (if b.1 = a then .inl b.2 else .inr ((a, b.1), b.2))

/-- `sample_two`: the second index is redrawn while it equals the first. -/
def sampleTwo (n : ℕ) (gen : Gen) : Run ((ℕ × ℕ) × Gen) :=
  let a := uniformInt n gen
  loop (redraw n a.1) a.2

/-- `get_weight_for_root`: the mean distance of `n_sample` random pairs. All callers
leave `n_sample` at its default 3000. -/
def getWeightForRoot (query : ℤ → F) (n_query dim : ℕ) (gen : Gen) (n_sample : ℕ) :
    Run (D × Gen) := do
  let sampled ← (List.range n_sample).foldlM (fun (state : D × Gen) _ => do
    let random_pair ← sampleTwo n_query state.2
    let distance := getDistance query dim random_pair.1.1 random_pair.1.2
    pure (state.1 + widen distance, random_pair.2)) (0, gen)
  pure (sampled.1 / Scalar.ofInt n_sample, sampled.2)

/-- No draw below `n` is repeated forever. -/
def Varies (n : ℕ) (gen : Gen) : Prop := ∀ k, ∃ j, k < j ∧ gen j % n ≠ gen k % n

theorem Varies.tail {n : ℕ} {gen : Gen} (h : Varies n gen) : Varies n fun k => gen (k + 1) := by
  intro k
  obtain ⟨j, hkj, hne⟩ := h (k + 1)
  refine ⟨j - 1, by omega, ?_⟩
  show gen (j - 1 + 1) % n ≠ gen (k + 1) % n
  rwa [Nat.sub_add_cancel (by omega)]

theorem Varies.drop {n : ℕ} {gen : Gen} (h : Varies n gen) (m : ℕ) :
    Varies n fun k => gen (k + m) := by
  induction m with
  | zero => exact h
  | succ m ih =>
    have := ih.tail
    simpa only [Nat.add_assoc, Nat.add_comm 1 m] using this

/-- Counting never repeats a draw at once. -/
theorem varies_counting {n : ℕ} (hn : 2 ≤ n) : Varies n fun k => k := by
  intro k
  refine ⟨k + 1, by omega, fun h => ?_⟩
  have hdvd := (Nat.modEq_iff_dvd' (n := n) (show k ≤ k + 1 by omega)).mp h.symm
  rw [Nat.add_sub_cancel_left] at hdvd
  exact absurd (Nat.le_of_dvd one_pos hdvd) (by omega)

/-- The rejection loop reaches a draw that differs from `a`. -/
theorem redraw_returns {n : ℕ} (hn : 0 < n) {gen : Gen} (h : Varies n gen) {a j : ℕ}
    (hj : gen j % n ≠ a) : ∀ m ≤ j, ∃ r, Returns (loop (redraw n a) fun k => gen (k + m)) r ∧
      r.1.1 = a ∧ r.1.2 < n ∧ r.1.2 ≠ a ∧ Varies n r.2 := by
  intro m hm
  induction hd : j - m generalizing m with
  | zero =>
    obtain rfl : m = j := by omega
    refine ⟨((a, gen m % n), fun k => gen (k + 1 + m)), loop_done ?_, rfl, Nat.mod_lt _ hn, hj,
      (h.drop m).tail⟩
    simp only [redraw, uniformInt, Nat.zero_add, if_neg hj]
    exact returns_pure _
  | succ d ih =>
    by_cases hb : gen m % n = a
    · obtain ⟨r, hr, hrest⟩ := ih (m + 1) (by omega) (by omega)
      refine ⟨r, loop_next ?_ hr, hrest⟩
      simp only [redraw, uniformInt, Nat.zero_add, if_pos hb, Nat.add_right_comm _ 1 m]
      exact returns_pure _
    · refine ⟨((a, gen m % n), fun k => gen (k + 1 + m)), loop_done ?_, rfl, Nat.mod_lt _ hn, hb,
        (h.drop m).tail⟩
      simp only [redraw, uniformInt, Nat.zero_add, if_neg hb]
      exact returns_pure _

/-- The rejection loop ends where the draws vary: both indices are below `n`
and different, and the draws left over vary. -/
theorem sampleTwo_returns {n : ℕ} (hn : 0 < n) {gen : Gen} (h : Varies n gen) :
    ∃ r, Returns (sampleTwo n gen) r ∧
      r.1.1 < n ∧ r.1.2 < n ∧ r.1.1 ≠ r.1.2 ∧ Varies n r.2 := by
  obtain ⟨j, hj, hne⟩ := h 0
  obtain ⟨r, hr, h1, h2, h3, hv⟩ := redraw_returns hn h hne 1 hj
  exact ⟨r, hr, h1 ▸ Nat.mod_lt _ hn, h2, h1 ▸ h3.symm, hv⟩

/-- Sampling ends on every stream whose draws vary; its total keeps a property
that adding a distance keeps. -/
theorem getWeightForRoot_spec (query : ℤ → F) {n_query : ℕ} (hn : 0 < n_query) (dim : ℕ)
    {gen : Gen} (h : Varies n_query gen) (n_sample : ℕ) (P : D → Prop) (h0 : P 0)
    (hadd : ∀ total i j, P total → P (total + widen (getDistance query dim i j))) :
    ∃ total gen', P total ∧
      Returns (getWeightForRoot query n_query dim gen n_sample) (total / Scalar.ofInt n_sample, gen')
      := by
  obtain ⟨s, hs, htotal, -⟩ := foldlM_returns
    (f := fun (state : D × Gen) (_ : ℕ) => do
      let random_pair ← sampleTwo n_query state.2
      let distance := getDistance query dim random_pair.1.1 random_pair.1.2
      pure (state.1 + widen distance, random_pair.2))
    (fun _ state => P state.1 ∧ Varies n_query state.2) (l := List.range n_sample)
    (fun _ _ _ state _ hstate => by
      obtain ⟨r, hr, -, -, -, hv⟩ := sampleTwo_returns hn hstate.2
      exact ⟨_, hr.bind (returns_pure _), hadd _ _ _ hstate.1, hv⟩)
    (s := (0, gen)) ⟨h0, h⟩
  exact ⟨s.1, s.2, htotal, hs.bind (returns_pure _)⟩

/-- The weight of a root is defined on every stream whose draws vary. -/
theorem getWeightForRoot_returns (query : ℤ → F) {n_query : ℕ} (hn : 0 < n_query) (dim : ℕ)
    {gen : Gen} (h : Varies n_query gen) (n_sample : ℕ) :
    ∃ r : D × Gen, Returns (getWeightForRoot query n_query dim gen n_sample) r := by
  obtain ⟨total, gen', -, hret⟩ := getWeightForRoot_spec query hn dim h n_sample
    (fun _ : D => True) trivial fun _ _ _ _ => trivial
  exact ⟨_, hret⟩

end Sampling

-- ---------------------------------------------------------------------------
-- The trajectory check
-- ---------------------------------------------------------------------------

/-- Pairs (child, parent); the parent of a root is `-1`. -/
abbrev Trajectory := List (ℤ × ℤ)

/-- The indices `0, …, n - 1`. -/
def indices (n : ℕ) : List ℤ := (List.range n).map fun i : ℕ => (i : ℤ)

/-- `checkTrajectory` -/
def checkTrajectory (trajectory : Trajectory) (n_query : ℕ) : Run Unit := do
  assert (trajectory.length = n_query) "trajectory.size() == n_query"
  let full : Finset ℤ := (indices n_query).toFinset
  let nodes : Finset ℤ := (trajectory.map Prod.fst).toFinset
  assert (full = nodes) "full == nodes"
  let visited := trajectory.foldl (fun (state : Finset ℤ × Bool) x =>
    (insert x.1 state.1,
      if x.2 ≠ -1 then if x.2 ∈ state.1 then state.2 else false else state.2)) (∅, true)
  assert (visited.2 = true) "possible"

/-- The trajectory passes the check. -/
def Accepted (trajectory : Trajectory) (n_query : ℕ) : Prop :=
  Returns (checkTrajectory trajectory n_query) ()

theorem mem_indices {n : ℕ} {i : ℤ} : i ∈ indices n ↔ 0 ≤ i ∧ i < n := by
  simp only [indices, List.mem_map, List.mem_range]
  constructor
  · rintro ⟨k, hk, rfl⟩
    omega
  · rintro ⟨h0, hn⟩
    exact ⟨i.toNat, by omega, by omega⟩

theorem nodup_indices (n : ℕ) : (indices n).Nodup :=
  List.nodup_range.map fun _ _ h => Int.ofNat.inj h

@[simp] theorem length_indices (n : ℕ) : (indices n).length = n := by simp [indices]

/-- The loop over `prev` accepts exactly the topological lists. -/
theorem possible_iff (trajectory : Trajectory) :
    (trajectory.foldl (fun (state : Finset ℤ × Bool) x =>
      (insert x.1 state.1,
        if x.2 ≠ -1 then if x.2 ∈ state.1 then state.2 else false else state.2))
      (∅, true)).2 = true ↔ Topological (-1) trajectory := by
  suffices h : ∀ l : Trajectory, (l.foldl (fun (state : Finset ℤ × Bool) x =>
      (insert x.1 state.1,
        if x.2 ≠ -1 then if x.2 ∈ state.1 then state.2 else false else state.2))
      (∅, true)).1 = (l.map Prod.fst).toFinset ∧
      ((l.foldl (fun (state : Finset ℤ × Bool) x =>
      (insert x.1 state.1,
        if x.2 ≠ -1 then if x.2 ∈ state.1 then state.2 else false else state.2))
      (∅, true)).2 = true ↔ Topological (-1) l) from (h trajectory).2
  intro l
  induction l using List.reverseRecOn with
  | nil => exact ⟨rfl, fun _ => topological_nil (-1), fun _ => rfl⟩
  | append_singleton l x ih =>
    obtain ⟨hprev, hpos⟩ := ih
    rw [List.foldl_append, List.foldl_cons, List.foldl_nil, hprev]
    refine ⟨by ext a; simp, ?_⟩
    have hlast : Topological (-1) (l ++ [x]) ↔
        Topological (-1) l ∧ (x.2 = -1 ∨ x.2 ∈ l.map Prod.fst) :=
      ⟨fun h => ⟨h.of_append, h l x [] rfl⟩, fun h => topological_concat h.1 h.2⟩
    rw [hlast, ← hpos, ← List.mem_toFinset]
    by_cases hr : x.2 = -1
    · simp [hr]
    · by_cases hm : x.2 ∈ (l.map Prod.fst).toFinset
      · simp [hr, hm]
      · simp [hr, hm]

/-- A trajectory passes exactly when its children are the indices below
`n_query`, each once, and every parent is an earlier child. -/
theorem accepted_iff {trajectory : Trajectory} {n_query : ℕ} :
    Accepted trajectory n_query ↔
      (trajectory.map Prod.fst).Perm (indices n_query) ∧ Topological (-1) trajectory := by
  have hset : trajectory.length = n_query ∧
      (indices n_query).toFinset = (trajectory.map Prod.fst).toFinset ↔
      (trajectory.map Prod.fst).Perm (indices n_query) := by
    constructor
    · rintro ⟨hlen, hset⟩
      -- as many different children as entries, so no child is repeated
      have hcard : (trajectory.map Prod.fst).toFinset.card = (trajectory.map Prod.fst).length := by
        rw [← hset, List.toFinset_card_of_nodup (nodup_indices n_query), length_indices,
          List.length_map, hlen]
      have hnd : (trajectory.map Prod.fst).Nodup := by
        rw [List.card_toFinset] at hcard
        exact List.dedup_eq_self.mp ((List.dedup_sublist _).eq_of_length hcard)
      rw [List.perm_ext_iff_of_nodup hnd (nodup_indices n_query)]
      intro a
      rw [← List.mem_toFinset, ← hset, List.mem_toFinset]
    · intro hperm
      refine ⟨by simpa using hperm.length_eq, ?_⟩
      ext a
      rw [List.mem_toFinset, List.mem_toFinset, hperm.mem_iff]
  rw [← hset, ← possible_iff, Accepted, checkTrajectory]
  constructor
  · intro h
    obtain ⟨⟨⟩, h1, h⟩ := h.of_bind
    obtain ⟨⟨⟩, h2, h⟩ := h.of_bind
    exact ⟨⟨assert_returns.mp h1, assert_returns.mp h2⟩, assert_returns.mp h⟩
  · rintro ⟨⟨h1, h2⟩, h3⟩
    exact (assert_returns.mpr h1).bind ((assert_returns.mpr h2).bind (assert_returns.mpr h3))

/-- The check always ends: it passes, or one of its assertions fails. -/
theorem checkTrajectory_ends (trajectory : Trajectory) (n_query : ℕ) :
    Accepted trajectory n_query ∨
      ∃ text, Fails (checkTrajectory trajectory n_query) (.assertFailed text) := by
  unfold Accepted checkTrajectory
  by_cases h1 : trajectory.length = n_query
  · by_cases h2 : (indices n_query).toFinset = (trajectory.map Prod.fst).toFinset
    · by_cases h3 : (trajectory.foldl (fun (state : Finset ℤ × Bool) x =>
          (insert x.1 state.1,
            if x.2 ≠ -1 then if x.2 ∈ state.1 then state.2 else false else state.2))
          (∅, true)).2 = true
      · exact Or.inl ((assert_returns.mpr h1).bind
          ((assert_returns.mpr h2).bind (assert_returns.mpr h3)))
      · exact Or.inr ⟨_, (assert_returns.mpr h1).bind_ends
          ((assert_returns.mpr h2).bind_ends (assert_fails h3))⟩
    · exact Or.inr ⟨_, (assert_returns.mpr h1).bind_ends (assert_fails h2).bind⟩
  · exact Or.inr ⟨_, (assert_fails h1).bind⟩

end Mqo
