import Mathlib.Data.List.GetD
import Mathlib.Data.Multiset.Bind
import Mathlib.Data.Multiset.Filter
import Mathlib.Data.Multiset.Range
import Mqo.Lib.PriorityQueue
import Mqo.Trajectory.Reorder

/-!
# MQO — splitting the queries into groups

`split` of `mqo/lsh_mst_opt.hpp` starts from one group that holds all queries
and, `B - 1` times, replaces the largest group by its two sides of a random
hyperplane. The heap is any implementation of `std::priority_queue`.

* `getInnerproduct_ends` — inside the array, the product is `innerproduct`;
* `generateRandomHyperplane_rows` — when the array has every row that is read;
* `splitRound_spec` — one round keeps the partition `GroupPartition`;
* `split_spec`      — `split` returns at most `B` groups that partition the
  queries;
* `split_ends`      — otherwise it reads a hyperplane outside the array;
* `groupForest_toGlobal` — a rooted forest over the local indices of a group
  becomes one over its queries;
* `GroupForest.accepted` — rooted forests over all groups form an accepted
  trajectory.
-/

namespace Mqo

open Prog StackTraversal IntOffset

-- ---------------------------------------------------------------------------
-- Hyperplanes
-- ---------------------------------------------------------------------------

section Hyperplanes

variable {F : Type} [Scalar F]

/-- `generateRandomHyperplane`: an array for the first `(B - 1) * rep * dim` values of the
normal distribution. The number is an `int` product, and `new[]` throws where it is
negative. -/
def generateRandomHyperplane (normDist : ℕ → F) (B rep : ℤ) (dim : ℕ) : Run (List F) :=
  let count := (Int32.ofInt B - 1) * Int32.ofInt rep * Int32.ofNat dim
  if count.toInt < 0 then fault (.exception "std::bad_array_new_length")
  else pure ((List.range count.toInt.toNat).map normDist)

/-- `hyperplane[offset]` -/
def hyperplaneAt (hyperplane : List F) (offset : Int32) : Run F :=
  if Inside hyperplane.length offset.toInt then pure (hyperplane.getD offset.toInt.toNat 0)
  else fault .outOfRange

/-- `get_innerproduct` -/
def getInnerproduct (query : ℤ → F) (hyperplane : List F) (dim qindex hindex : ℕ) : Run F :=
  let qstart := intMul dim qindex
  let hstart := intMul dim hindex
  (List.range dim).foldlM (fun sum i => do
    let h ← hyperplaneAt hyperplane (hstart + Int32.ofNat i)
    pure (sum + columnAt query qstart i * h)) 0

/-- The value of `get_innerproduct` where all reads are inside the array. -/
def innerproduct (query : ℤ → F) (hyperplane : List F) (dim hindex qindex : ℕ) : F :=
  (List.range dim).foldl (fun sum i =>
    sum + columnAt query (intMul dim qindex) i *
      hyperplane.getD (intMul dim hindex + Int32.ofNat i).toInt.toNat 0) 0

/-- All columns of the row `hindex` are read inside the array. -/
def HasRow (hyperplane : List F) (dim hindex : ℕ) : Prop :=
  ∀ i < dim, Inside hyperplane.length (intMul dim hindex + Int32.ofNat i).toInt

/-- The loop of `get_innerproduct` gets through exactly if the array has the row. -/
theorem getInnerproduct_ends (query : ℤ → F) (hyperplane : List F) (dim qindex hindex : ℕ) :
    (HasRow hyperplane dim hindex ∧ Returns (getInnerproduct query hyperplane dim qindex hindex)
        (innerproduct query hyperplane dim hindex qindex)) ∨
      (¬ HasRow hyperplane dim hindex ∧
        Fails (getInnerproduct query hyperplane dim qindex hindex) .outOfRange) := by
  have hend := foldlM_guarded
    (f := fun sum i => do
      let h ← hyperplaneAt hyperplane (intMul dim hindex + Int32.ofNat i)
      pure (sum + columnAt query (intMul dim qindex) i * h))
    (G := fun i => Inside hyperplane.length (intMul dim hindex + Int32.ofNat i).toInt)
    (e := .outOfRange)
    (fun pre sum => sum = pre.foldl (fun sum i =>
      sum + columnAt query (intMul dim qindex) i *
        hyperplane.getD (intMul dim hindex + Int32.ofNat i).toInt.toNat 0) 0)
    (l := List.range dim)
    (fun pre i post sum _ hsum => by
      unfold hyperplaneAt
      by_cases hin : Inside hyperplane.length (intMul dim hindex + Int32.ofNat i).toInt
      · rw [if_pos hin]
        refine Or.inl ⟨hin, _, (returns_pure _).bind (returns_pure _), ?_⟩
        rw [List.foldl_append, ← hsum]
        rfl
      · rw [if_neg hin]
        exact Or.inr ⟨hin, (fails_fault _).bind⟩)
    (s := (0 : F)) rfl
  simp only [List.mem_range] at hend
  rcases hend with ⟨hrow, sum, hret, rfl⟩ | ⟨hrow, hfail⟩
  · exact Or.inl ⟨hrow, hret⟩
  · exact Or.inr ⟨hrow, hfail⟩

theorem getInnerproduct_returns (query : ℤ → F) {hyperplane : List F} {dim hindex : ℕ}
    (hrow : HasRow hyperplane dim hindex) (qindex : ℕ) :
    Returns (getInnerproduct query hyperplane dim qindex hindex)
      (innerproduct query hyperplane dim hindex qindex) :=
  ((getInnerproduct_ends query hyperplane dim qindex hindex).resolve_right
    fun h => h.1 hrow).2

omit [Scalar F] in
/-- The first rows are there exactly if the array is long enough and no offset wraps. -/
theorem hasRows_iff {hyperplane : List F} {rows dim : ℕ} :
    (∀ split_num < rows, HasRow hyperplane dim split_num) ↔
      rows * dim ≤ hyperplane.length ∧ rows * dim ≤ 2 ^ 31 := rowsInside_iff

omit [Scalar F] in
/-- An array of `B - 1` rows has every row that is read while none of them ends above
`2 ^ 31`. -/
theorem hasRows_of_length {hyperplane : List F} {dim : ℕ} {B : ℤ} (hB : 1 ≤ B)
    (hlen : (hyperplane.length : ℤ) = (B - 1) * dim) :
    (∀ split_num < (B - 1).toNat, HasRow hyperplane dim split_num) ↔ (B - 1) * dim ≤ 2 ^ 31 := by
  obtain ⟨rows, hrows⟩ := Int.eq_ofNat_of_zero_le (show 0 ≤ B - 1 by omega)
  rw [hrows] at hlen ⊢
  rw [Int.toNat_natCast, hasRows_iff]
  have hlen' : hyperplane.length = rows * dim := by exact_mod_cast hlen
  rw [hlen']
  exact ⟨fun h => by exact_mod_cast h.2, fun h => ⟨le_refl _, by exact_mod_cast h⟩⟩

/-- The number of values that are drawn, in `int`. -/
theorem hyperplaneCount {B : ℤ} (hB : 1 ≤ B) (dim : ℕ) :
    (Int32.ofInt B - 1) * Int32.ofInt 1 * Int32.ofNat dim = intMul (B - 1).toNat dim := by
  obtain ⟨rows, hrows⟩ := Int.eq_ofNat_of_zero_le (show 0 ≤ B - 1 by omega)
  have hone : Int32.ofInt B - 1 = Int32.ofNat rows := by
    rw [← Int32.ofInt_eq_ofNat, ← hrows, Int32.ofInt_sub]
    rfl
  rw [hone, hrows, Int.toNat_natCast, show Int32.ofInt 1 = 1 from rfl, Int32.mul_one]
  rfl

omit [Scalar F] in
/-- **The hyperplanes** hold one row for each split, and all of them are read inside the
array, exactly if their number is an `int`. -/
theorem generateRandomHyperplane_rows (normDist : ℕ → F) {B : ℤ} (hB : 1 ≤ B) (dim : ℕ) :
    (∃ hyperplane, Returns (generateRandomHyperplane normDist B 1 dim) hyperplane ∧
      ∀ split_num < (B - 1).toNat, HasRow hyperplane dim split_num) ↔ (B - 1) * dim < 2 ^ 31 := by
  have hint : (B - 1) * dim < 2 ^ 31 ↔ (B - 1).toNat * dim < 2 ^ 31 := by
    obtain ⟨rows, hrows⟩ := Int.eq_ofNat_of_zero_le (show 0 ≤ B - 1 by omega)
    rw [hrows, Int.toNat_natCast]
    exact_mod_cast Iff.rfl
  rw [hint, generateRandomHyperplane, hyperplaneCount hB]
  by_cases hneg : (intMul (B - 1).toNat dim).toInt < 0
  · rw [if_pos hneg]
    refine ⟨fun ⟨_, hret, _⟩ => absurd (fails_fault _) hret.not_fails, fun hlt => ?_⟩
    rw [toInt_intMul hlt] at hneg
    omega
  · rw [if_neg hneg]
    have hlt := (intMul (B - 1).toNat dim).toInt_lt
    constructor
    · rintro ⟨hyperplane, hret, hrows⟩
      rw [hret.of_pure, hasRows_iff, List.length_map, List.length_range] at hrows
      omega
    · intro hfit
      refine ⟨_, returns_pure _, hasRows_iff.mpr ?_⟩
      rw [List.length_map, List.length_range, toInt_intMul hfit]
      exact ⟨by omega, hfit.le⟩

omit [Scalar F] in
theorem generateRandomHyperplane_spec (normDist : ℕ → F) {B : ℤ} (hB : 1 ≤ B) {dim : ℕ}
    (hfit : (B - 1) * dim < 2 ^ 31) :
    ∃ hyperplane, Returns (generateRandomHyperplane normDist B 1 dim) hyperplane ∧
      ∀ split_num < (B - 1).toNat, HasRow hyperplane dim split_num :=
  (generateRandomHyperplane_rows normDist hB dim).mpr hfit

omit [Scalar F] in
theorem generateRandomHyperplane_fails (normDist : ℕ → F) {B : ℤ} (hB : 1 ≤ B) {dim : ℕ}
    (hover : 2 ^ 31 ≤ (B - 1) * dim) (hlt : (B - 1) * dim < 2 ^ 32) :
    Fails (generateRandomHyperplane normDist B 1 dim) (.exception "std::bad_array_new_length") := by
  obtain ⟨rows, hrows⟩ := Int.eq_ofNat_of_zero_le (show 0 ≤ B - 1 by omega)
  rw [hrows] at hover hlt
  rw [generateRandomHyperplane, hyperplaneCount hB, hrows, Int.toNat_natCast,
    if_pos (toInt_intMul_neg (by exact_mod_cast hover) (by exact_mod_cast hlt))]
  exact fails_fault _

end Hyperplanes

-- ---------------------------------------------------------------------------
-- Splitting
-- ---------------------------------------------------------------------------

/-- `GroupInfo` -/
structure GroupInfo where
  group : List ℕ
  size : ℕ
deriving DecidableEq

/-- `GroupCompare` -/
def groupCompare (a b : GroupInfo) : Prop := a.size < b.size

section Split

variable {F : Type} [Scalar F]

/-- `splitgroup` -/
def splitgroup (group : List ℕ) (query : ℤ → F) (hyperplane : List F) (dim split_num : ℕ) :
    Run (List ℕ × List ℕ) :=
  let hindex := split_num
  group.foldlM (fun (sides : List ℕ × List ℕ) qindex => do
    let sum ← getInnerproduct query hyperplane dim qindex hindex
    pure (if sum < 0 then (sides.1 ++ [qindex], sides.2) else (sides.1, sides.2 ++ [qindex])))
    ([], [])

/-- `if (size > 0) pq.push({group, size})` -/
def pushGroup (Q : PriorityQueue GroupInfo) (pq : Q.Heap) (group : List ℕ) : Q.Heap :=
  let size := group.length
  if size > 0 then Q.push pq ⟨group, size⟩ else pq

/-- One round of the loop of `split`. -/
def splitRound (Q : PriorityQueue GroupInfo) (query : ℤ → F) (hyperplane : List F) (dim : ℕ)
    (pq : Q.Heap) (split_num : ℕ) : Run Q.Heap :=
  match Q.top pq with
  | none => fault .emptyQueue
  | some groupInfo => do
    let pq := Q.pop pq
    let splitRes ← splitgroup groupInfo.group query hyperplane dim split_num
    pure (pushGroup Q (pushGroup Q pq splitRes.1) splitRes.2)

/-- `split` -/
def split (Q : PriorityQueue GroupInfo) (query : ℤ → F) (hyperplane : List F)
    (n_query dim : ℕ) (B : ℤ) : Run Q.Heap :=
  (List.range (B - 1).toNat).foldlM (splitRound Q query hyperplane dim)
    (Q.push Q.empty ⟨List.range n_query, n_query⟩)

/-- The groups are non-empty, in ascending order, know their size, and together
hold each query once. -/
structure GroupPartition (n_query : ℕ) (groups : Multiset GroupInfo) : Prop where
  cover     : groups.bind (fun g => (g.group : Multiset ℕ)) = Multiset.range n_query
  nonempty  : ∀ g ∈ groups, g.group ≠ []
  ascending : ∀ g ∈ groups, g.group.Pairwise (· < ·)
  size      : ∀ g ∈ groups, g.size = g.group.length

theorem GroupPartition.initial {n_query : ℕ} (hn : 0 < n_query) :
    GroupPartition n_query {⟨List.range n_query, n_query⟩} where
  cover := by
    rw [Multiset.singleton_bind]
    rfl
  nonempty g hg := by
    rw [Multiset.mem_singleton.mp hg]
    simpa using hn.ne'
  ascending g hg := by
    rw [Multiset.mem_singleton.mp hg]
    exact List.pairwise_lt_range
  size g hg := by
    rw [Multiset.mem_singleton.mp hg]
    exact List.length_range.symm

/-- A partition of at least one query has a group. -/
theorem GroupPartition.ne_zero {n_query : ℕ} {groups : Multiset GroupInfo} (hn : 0 < n_query)
    (h : GroupPartition n_query groups) : groups ≠ 0 := by
  rintro rfl
  have := congrArg Multiset.card h.cover
  simp at this
  omega

/-- The members of a group are different queries. -/
structure IsGroup (n_query : ℕ) (group : List ℕ) : Prop where
  nonempty : group ≠ []
  nodup : group.Nodup
  bound : ∀ q ∈ group, q < n_query

theorem IsGroup.length_le {n_query : ℕ} {group : List ℕ} (h : IsGroup n_query group) :
    group.length ≤ n_query := by
  have hsub := h.nodup.subperm fun q hq => List.mem_range.mpr (h.bound q hq)
  simpa using hsub.length_le

/-- The groups hold each query once, whatever their order. -/
def Covers (n_query : ℕ) (groups : Multiset GroupInfo) : Prop :=
  groups.bind (fun g => (g.group : Multiset ℕ)) = Multiset.range n_query

theorem Covers.isGroup {n_query : ℕ} {groups : Multiset GroupInfo} (h : Covers n_query groups)
    {g : GroupInfo} (hg : g ∈ groups) (hne : g.group ≠ []) : IsGroup n_query g.group where
  nonempty := hne
  nodup := by
    have hle := Multiset.le_bind (f := fun g : GroupInfo => (g.group : Multiset ℕ)) groups hg
    rw [h] at hle
    exact Multiset.coe_nodup.mp (Multiset.nodup_of_le hle (Multiset.nodup_range n_query))
  bound q hq := by
    have : q ∈ Multiset.range n_query := by
      rw [← h, Multiset.mem_bind]
      exact ⟨g, hg, hq⟩
    exact Multiset.mem_range.mp this

theorem Covers.flatten_perm {n_query : ℕ} {groups : List GroupInfo}
    (h : Covers n_query (groups : Multiset GroupInfo)) :
    (groups.map GroupInfo.group).flatten.Perm (List.range n_query) := by
  rw [← Multiset.coe_eq_coe, ← List.flatMap_def, ← Multiset.coe_bind]
  exact h

theorem GroupPartition.isGroup {n_query : ℕ} {groups : Multiset GroupInfo}
    (h : GroupPartition n_query groups) {g : GroupInfo} (hg : g ∈ groups) :
    IsGroup n_query g.group :=
  Covers.isGroup h.cover hg (h.nonempty g hg)

/-- A group as it is pushed: an empty side is left out. -/
def side (group : List ℕ) : Multiset GroupInfo :=
  if group.length > 0 then {⟨group, group.length⟩} else 0

theorem side_bind (group : List ℕ) :
    (side group).bind (fun g => (g.group : Multiset ℕ)) = group := by
  unfold side
  split
  · rw [Multiset.singleton_bind]
  · next h =>
    rw [Nat.not_lt, Nat.le_zero, List.length_eq_zero_iff] at h
    rw [Multiset.zero_bind, h]
    rfl

theorem card_side_le (group : List ℕ) : (side group).card ≤ 1 := by
  unfold side
  split <;> simp

theorem mem_side {group : List ℕ} {g : GroupInfo} (h : g ∈ side group) :
    g = ⟨group, group.length⟩ ∧ group ≠ [] := by
  unfold side at h
  split at h
  · next hpos => exact ⟨Multiset.mem_singleton.mp h, List.length_pos_iff.mp hpos⟩
  · exact absurd h (Multiset.notMem_zero g)

/-- `splitgroup` filters the group by the sign of the product. -/
theorem splitgroup_returns (group : List ℕ) (query : ℤ → F) {hyperplane : List F}
    {dim split_num : ℕ} (hrow : HasRow hyperplane dim split_num) :
    Returns (splitgroup group query hyperplane dim split_num)
      (group.filter fun q => innerproduct query hyperplane dim split_num q < 0,
       group.filter fun q => ¬ innerproduct query hyperplane dim split_num q < 0) := by
  obtain ⟨s, hs, rfl⟩ := foldlM_returns
    (f := fun (sides : List ℕ × List ℕ) qindex => do
      let sum ← getInnerproduct query hyperplane dim qindex split_num
      pure (if sum < 0 then (sides.1 ++ [qindex], sides.2) else (sides.1, sides.2 ++ [qindex])))
    (fun pre sides => sides =
      (pre.filter fun q => innerproduct query hyperplane dim split_num q < 0,
       pre.filter fun q => ¬ innerproduct query hyperplane dim split_num q < 0))
    (l := group)
    (fun pre q post sides _ hsides => by
      refine ⟨_, (getInnerproduct_returns query hrow q).bind (returns_pure _), ?_⟩
      subst hsides
      by_cases hq : innerproduct query hyperplane dim split_num q < 0
      · simp [hq]
      · simp [hq])
    (s := ([], [])) rfl
  exact hs

/-- Replacing a group by its two sides keeps the partition. -/
theorem GroupPartition.replace {n_query : ℕ} {rest : Multiset GroupInfo} {g : GroupInfo}
    (h : GroupPartition n_query (g ::ₘ rest)) (p : ℕ → Prop) [DecidablePred p] :
    GroupPartition n_query
      (side (g.group.filter fun q => ¬ p q) + (side (g.group.filter fun q => p q) + rest)) := by
  have hmem : ∀ g' ∈ side (g.group.filter fun q => ¬ p q) +
      (side (g.group.filter fun q => p q) + rest),
      g' ∈ rest ∨ ∃ (s : ℕ → Prop) (_ : DecidablePred s), g.group.filter s ≠ [] ∧
        g' = ⟨g.group.filter s, (g.group.filter s).length⟩ := by
    intro g' hg'
    rcases Multiset.mem_add.mp hg' with hr | hg'
    · exact Or.inr ⟨fun q => ¬ p q, inferInstance, (mem_side hr).2, (mem_side hr).1⟩
    rcases Multiset.mem_add.mp hg' with hl | hg'
    · exact Or.inr ⟨p, inferInstance, (mem_side hl).2, (mem_side hl).1⟩
    · exact Or.inl hg'
  refine ⟨?_, ?_, ?_, ?_⟩
  · rw [Multiset.add_bind, Multiset.add_bind, side_bind, side_bind, ← h.cover,
      Multiset.cons_bind, ← add_assoc]
    congr 1
    rw [add_comm]
    have := Multiset.filter_add_not p (g.group : Multiset ℕ)
    simpa using this
  · intro g' hg'
    rcases hmem g' hg' with hg' | ⟨s, _, hne, rfl⟩
    · exact h.nonempty g' (Multiset.mem_cons_of_mem hg')
    · exact hne
  · intro g' hg'
    rcases hmem g' hg' with hg' | ⟨s, _, hne, rfl⟩
    · exact h.ascending g' (Multiset.mem_cons_of_mem hg')
    · exact (h.ascending g (Multiset.mem_cons_self g rest)).filter _
  · intro g' hg'
    rcases hmem g' hg' with hg' | ⟨s, _, hne, rfl⟩
    · exact h.size g' (Multiset.mem_cons_of_mem hg')
    · rfl

variable (Q : PriorityQueue GroupInfo)

@[simp] theorem elems_pushGroup (pq : Q.Heap) (group : List ℕ) :
    Q.elems (pushGroup Q pq group) = side group + Q.elems pq := by
  unfold pushGroup side
  dsimp only
  split
  · rw [Q.elems_push, Multiset.singleton_add]
  · rw [zero_add]

/-- A round replaces the group on top by its two sides. -/
theorem splitRound_returns {dim split_num : ℕ} (query : ℤ → F) {hyperplane : List F}
    (hrow : HasRow hyperplane dim split_num) {pq : Q.Heap} {g : GroupInfo}
    (hg : Q.top pq = some g) :
    Returns (splitRound Q query hyperplane dim pq split_num)
      (pushGroup Q (pushGroup Q (Q.pop pq)
        (g.group.filter fun q => innerproduct query hyperplane dim split_num q < 0))
        (g.group.filter fun q => ¬ innerproduct query hyperplane dim split_num q < 0)) := by
  unfold splitRound
  rw [hg]
  exact (splitgroup_returns g.group query hrow).bind (returns_pure _)

/-- **One round.** The heap is not empty, the hyperplane is read inside the
array, the partition is kept, and at most one group is added. -/
theorem splitRound_spec {n_query dim split_num : ℕ} (hn : 0 < n_query) (query : ℤ → F)
    {hyperplane : List F} (hrow : HasRow hyperplane dim split_num) {pq : Q.Heap}
    (h : GroupPartition n_query (Q.elems pq)) :
    ∃ pq', Returns (splitRound Q query hyperplane dim pq split_num) pq' ∧
      GroupPartition n_query (Q.elems pq') ∧ Q.size pq' ≤ Q.size pq + 1 := by
  obtain ⟨g, hg⟩ := Q.exists_top (h.ne_zero hn)
  rw [Q.elems_pop pq g hg] at h
  have hsize := Q.size_pop hg
  refine ⟨_, splitRound_returns Q query hrow hg, ?_, ?_⟩
  · rw [elems_pushGroup, elems_pushGroup]
    exact h.replace _
  · rw [PriorityQueue.size, elems_pushGroup, elems_pushGroup, Multiset.card_add,
      Multiset.card_add]
    have h1 := card_side_le (g.group.filter fun q =>
      innerproduct query hyperplane dim split_num q < 0)
    have h2 := card_side_le (g.group.filter fun q =>
      ¬ innerproduct query hyperplane dim split_num q < 0)
    rw [PriorityQueue.size, PriorityQueue.size] at hsize
    rw [PriorityQueue.size]
    omega

/-- **`split`** returns at most `B` groups that partition the queries. -/
theorem split_spec {n_query dim : ℕ} (hn : 0 < n_query) (query : ℤ → F) {hyperplane : List F}
    {B : ℤ} (hB : 1 ≤ B) (hrows : ∀ split_num < (B - 1).toNat, HasRow hyperplane dim split_num) :
    ∃ pq, Returns (split Q query hyperplane n_query dim B) pq ∧
      GroupPartition n_query (Q.elems pq) ∧ (Q.size pq : ℤ) ≤ B := by
  have hstep : ∀ pre i post pq, List.range (B - 1).toNat = pre ++ i :: post →
      (GroupPartition n_query (Q.elems pq) ∧ Q.size pq ≤ pre.length + 1) →
      ∃ pq', Returns (splitRound Q query hyperplane dim pq i) pq' ∧
        GroupPartition n_query (Q.elems pq') ∧ Q.size pq' ≤ (pre ++ [i]).length + 1 := by
    rintro pre i post pq hrange ⟨hpart, hsize⟩
    have hi : i < (B - 1).toNat := List.mem_range.mp (by rw [hrange]; simp)
    obtain ⟨pq', hret, hpart', hsize'⟩ := splitRound_spec Q hn query (hrows i hi) hpart
    refine ⟨pq', hret, hpart', ?_⟩
    rw [List.length_append, List.length_singleton]
    omega
  obtain ⟨pq, hret, hpart, hsize⟩ := foldlM_returns
    (fun pre pq => GroupPartition n_query (Q.elems pq) ∧ Q.size pq ≤ pre.length + 1) hstep
    (s := Q.push Q.empty ⟨List.range n_query, n_query⟩)
    ⟨by simpa using GroupPartition.initial hn, by simp⟩
  refine ⟨pq, hret, hpart, ?_⟩
  rw [List.length_range] at hsize
  omega

/-- A round reads its row, for the first member of the group on top. -/
theorem splitRound_fails {n_query dim split_num : ℕ} (hn : 0 < n_query) (query : ℤ → F)
    {hyperplane : List F} (hrow : ¬ HasRow hyperplane dim split_num) {pq : Q.Heap}
    (h : GroupPartition n_query (Q.elems pq)) :
    Fails (splitRound Q query hyperplane dim pq split_num) .outOfRange := by
  obtain ⟨g, hg⟩ := Q.exists_top (h.ne_zero hn)
  obtain ⟨q, rest, hgroup⟩ := List.exists_cons_of_ne_nil (h.nonempty g (Q.top_mem hg))
  have hread : Fails (getInnerproduct query hyperplane dim q split_num) .outOfRange :=
    ((getInnerproduct_ends query hyperplane dim q split_num).resolve_left fun h => hrow h.1).2
  have hsides : Fails (splitgroup g.group query hyperplane dim split_num) .outOfRange := by
    rw [splitgroup, hgroup]
    exact foldlM_fails hread.bind
  unfold splitRound
  rw [hg]
  exact hsides.bind

/-- **The loop of `split`** gets through exactly if the array has every row that is read. -/
theorem split_ends {n_query dim : ℕ} (hn : 0 < n_query) (query : ℤ → F) (hyperplane : List F)
    (B : ℤ) :
    ((∀ split_num < (B - 1).toNat, HasRow hyperplane dim split_num) ∧
        ∃ pq, Returns (split Q query hyperplane n_query dim B) pq) ∨
      (¬ (∀ split_num < (B - 1).toNat, HasRow hyperplane dim split_num) ∧
        Fails (split Q query hyperplane n_query dim B) .outOfRange) := by
  have hend := foldlM_guarded (f := splitRound Q query hyperplane dim)
    (G := HasRow hyperplane dim) (e := .outOfRange)
    (fun _ pq => GroupPartition n_query (Q.elems pq)) (l := List.range (B - 1).toNat)
    (fun pre i post pq _ hpart => by
      by_cases hrow : HasRow hyperplane dim i
      · obtain ⟨pq', hret, hpart', -⟩ := splitRound_spec Q hn query hrow hpart
        exact Or.inl ⟨hrow, pq', hret, hpart'⟩
      · exact Or.inr ⟨hrow, splitRound_fails Q hn query hrow hpart⟩)
    (s := Q.push Q.empty ⟨List.range n_query, n_query⟩)
    (by simpa using GroupPartition.initial hn)
  simp only [List.mem_range] at hend
  rcases hend with ⟨hrows, pq, hret, -⟩ | hfail
  · exact Or.inl ⟨hrows, pq, hret⟩
  · exact Or.inr hfail

/-- With `B = 1` there is one group, which holds all queries. -/
theorem split_one (query : ℤ → F) (hyperplane : List F) (n_query dim : ℕ) :
    ∃ pq, Returns (split Q query hyperplane n_query dim 1) pq ∧
      Q.drain pq = [⟨List.range n_query, n_query⟩] := by
  refine ⟨_, foldlM_nil _ _, ?_⟩
  have helems := Q.coe_drain (Q.push Q.empty ⟨List.range n_query, n_query⟩)
  rw [Q.elems_push, Q.elems_empty] at helems
  exact Multiset.coe_eq_singleton.mp helems

/-- Where no product is negative, nothing is split. -/
theorem split_whole {n_query dim : ℕ} (hn : 0 < n_query) {query : ℤ → F} {hyperplane : List F}
    (hside : ∀ hindex q, ¬ innerproduct query hyperplane dim hindex q < 0) {B : ℤ} {pq : Q.Heap}
    (hret : Returns (split Q query hyperplane n_query dim B) pq) :
    Q.elems pq = {⟨List.range n_query, n_query⟩} := by
  have hrows := (returns_iff_of_ends (split_ends Q hn query hyperplane B)).mp ⟨pq, hret⟩
  refine foldlM_inv (fun _ pq => Q.elems pq = {⟨List.range n_query, n_query⟩})
    (fun pre i post pq pq' hrange hwhole hround => ?_) ?_ hret
  · have hi : i < (B - 1).toNat := List.mem_range.mp (by rw [hrange]; simp)
    obtain ⟨g, hg⟩ := Q.exists_top (h := pq) (by rw [hwhole]; exact Multiset.singleton_ne_zero _)
    obtain ⟨rfl, hrest⟩ := Q.elems_pop_singleton hwhole hg
    rw [hround.unique (splitRound_returns Q query (hrows i hi) hg), elems_pushGroup,
      elems_pushGroup, hrest]
    simp [hside, side, hn]
  · rw [Q.elems_push, Q.elems_empty, Multiset.cons_zero]

end Split

-- ---------------------------------------------------------------------------
-- Trees of groups
-- ---------------------------------------------------------------------------

/-- A trajectory over the queries of the groups: each of them is a child once,
parents come first, and no edge leaves its group. -/
structure GroupForest (groups : List (List ℕ)) (t : Trajectory) : Prop where
  perm   : (t.map Prod.fst).Perm (groups.flatten.map fun q : ℕ => (q : ℤ))
  topo   : Topological (-1) t
  inside : ∀ e ∈ t, e.2 ≠ -1 → ∃ g ∈ groups, ∃ c ∈ g, ∃ p ∈ g, e = ((c : ℤ), (p : ℤ))

theorem groupForest_nil : GroupForest [] [] where
  perm := List.Perm.refl _
  topo := topological_nil (-1)
  inside _ he := absurd he List.not_mem_nil

theorem GroupForest.append {groups groups' : List (List ℕ)} {t t' : Trajectory}
    (h : GroupForest groups t) (h' : GroupForest groups' t') :
    GroupForest (groups ++ groups') (t ++ t') where
  perm := by
    rw [List.map_append, List.flatten_append, List.map_append]
    exact h.perm.append h'.perm
  topo := h.topo.append h'.topo
  inside e he hroot := by
    rcases List.mem_append.mp he with he | he
    · obtain ⟨g, hg, hrest⟩ := h.inside e he hroot
      exact ⟨g, List.mem_append_left _ hg, hrest⟩
    · obtain ⟨g, hg, hrest⟩ := h'.inside e he hroot
      exact ⟨g, List.mem_append_right _ hg, hrest⟩

/-- A rooted forest over the local indices of a group. -/
structure LocalForest (n : ℕ) (loc : Trajectory) : Prop where
  perm : (loc.map Prod.fst).Perm (indices n)
  topo : Topological (-1) loc

theorem LocalForest.parent {n : ℕ} {loc : Trajectory} (h : LocalForest n loc) :
    ∀ e ∈ loc, e.2 = -1 ∨ 0 ≤ e.2 := by
  intro e he
  rcases h.topo.mem he with hr | hp
  · exact Or.inl hr
  · exact Or.inr (mem_indices.mp (h.perm.mem_iff.mp hp)).1

theorem localForest_singleton : LocalForest 1 [(0, -1)] where
  perm := List.Perm.refl _
  topo := topological_concat (topological_nil (-1)) (Or.inl rfl)

/-- A pair of local indices as a pair of queries: `grp[ni]`, and `grp[pi]`
where there is a parent. -/
def toGlobal (grp : List ℕ) (e : ℤ × ℤ) : ℤ × ℤ :=
  (grp.getD e.1.toNat 0, if e.2 ≥ 0 then grp.getD e.2.toNat 0 else -1)

/-- The queries of a group by their local indices. -/
theorem indices_map_getD (grp : List ℕ) :
    (indices grp.length).map (fun i => (grp.getD i.toNat 0 : ℤ)) = grp.map fun q : ℕ => (q : ℤ) := by
  rw [indices, List.map_map]
  refine List.ext_getElem (by simp) fun i hi _ => ?_
  have : i < grp.length := by simpa using hi
  simp [List.getD_eq_getElem?_getD, this]

theorem getD_mem {grp : List ℕ} {i : ℤ} (hi : i ∈ indices grp.length) :
    grp.getD i.toNat 0 ∈ grp := by
  have : i.toNat < grp.length := by
    have := mem_indices.mp hi
    omega
  rw [List.getD_eq_getElem _ _ this]
  exact List.getElem_mem this

/-- **From local to global indices.** A rooted forest over the local indices
becomes a rooted forest over the group. -/
theorem groupForest_toGlobal {grp : List ℕ} {loc : Trajectory} (h : LocalForest grp.length loc) :
    GroupForest [grp] (loc.map (toGlobal grp)) where
  perm := by
    rw [List.flatten_singleton, ← indices_map_getD, List.map_map]
    have := h.perm.map fun i => (grp.getD i.toNat 0 : ℤ)
    rwa [List.map_map] at this
  topo := by
    intro pre x post hsplit
    obtain ⟨pre', rest', hloc, rfl, hrest⟩ := List.map_eq_append_iff.mp hsplit
    obtain ⟨e, post', rfl, rfl, rfl⟩ := List.map_eq_cons_iff.mp hrest
    rcases h.topo pre' e post' hloc with hr | hp
    · exact Or.inl (by simp [toGlobal, hr])
    · -- the parent is an earlier local index, so it is not negative
      obtain ⟨z, hz, hze⟩ := List.mem_map.mp hp
      have hzm : z.1 ∈ indices grp.length :=
        h.perm.mem_iff.mp (List.mem_map_of_mem (by rw [hloc]; exact List.mem_append_left _ hz))
      have hnn : e.2 ≥ 0 := hze ▸ (mem_indices.mp hzm).1
      refine Or.inr (List.mem_map.mpr ⟨toGlobal grp z, List.mem_map_of_mem hz, ?_⟩)
      simp only [toGlobal, if_pos hnn, hze]
  inside := by
    intro x hx hroot
    obtain ⟨e, he, rfl⟩ := List.mem_map.mp hx
    have hnn : e.2 ≥ 0 := by
      by_contra hneg
      exact hroot (by simp only [toGlobal, if_neg hneg])
    have hpar : e.2 ∈ loc.map Prod.fst := (h.topo.mem he).resolve_left (by omega)
    refine ⟨grp, List.mem_singleton_self grp, _, getD_mem (h.perm.mem_iff.mp
      (List.mem_map_of_mem he)), _, getD_mem (h.perm.mem_iff.mp hpar), ?_⟩
    simp only [toGlobal, if_pos hnn]

theorem toGlobal_root_iff (grp : List ℕ) {e : ℤ × ℤ} (he : e.2 = -1 ∨ 0 ≤ e.2) :
    (toGlobal grp e).2 = -1 ↔ e.2 = -1 := by
  unfold toGlobal
  split <;> omega

/-- The mapping keeps which entries are roots. -/
theorem countP_root_toGlobal (grp : List ℕ) {n : ℕ} {loc : Trajectory} (h : LocalForest n loc) :
    (loc.map (toGlobal grp)).countP (fun e => e.2 = -1) = loc.countP (fun e => e.2 = -1) := by
  rw [List.countP_map]
  refine List.countP_congr fun e he => ?_
  simp only [Function.comp, decide_eq_true_eq, toGlobal_root_iff grp (h.parent e he)]

/-- Over all groups of a partition, the trajectory is accepted. -/
theorem GroupForest.accepted {n_query : ℕ} {groups : List GroupInfo} {t : Trajectory}
    (h : GroupForest (groups.map GroupInfo.group) t)
    (hpart : GroupPartition n_query (groups : Multiset GroupInfo)) : Accepted t n_query :=
  accepted_iff.mpr ⟨h.perm.trans ((Covers.flatten_perm hpart.cover).map _), h.topo⟩

end Mqo
