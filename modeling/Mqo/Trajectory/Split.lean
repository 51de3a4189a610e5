import Mqo.Trajectory.Exact
import Mqo.Trajectory.Groups

/-!
# MQO — the groups of `split`

`split` takes the largest group from its heap `B - 1` times and pushes the sides of
the next hyperplane back. All members of a group go to their side by the sign of a
product that depends on the vector read for them alone, so that equal vectors never part.
A vector is read where it lies while its offsets are below `2 ^ 31`.

* `splitRound_together` — one round keeps queries with equal vectors together;
* `GroupPartition.pairwise_disjoint` — the groups of a partition are disjoint;
* `split_wellSplit`     — what `split` returns when its hyperplanes can be read;
* `split_parts`         — equal rows may part when one of them is misread;
* `split_wellSplit_iff` — for which shapes of the arrays `split` keeps its promise.
-/

namespace Mqo

open Prog IntOffset Exact

section Split

variable {F : Type} [Scalar F]

/-- The vectors that `get_innerproduct` reads for the two queries are equal. -/
def SameRead (query : ℤ → F) (dim a b : ℕ) : Prop :=
  ∀ pos < dim, columnAt query (intMul dim a) pos = columnAt query (intMul dim b) pos

/-- The rows of the two queries in the matrix are equal. -/
def SameRow (query : ℤ → F) (dim a b : ℕ) : Prop :=
  ∀ pos < dim, query ↑(dim * a + pos) = query ↑(dim * b + pos)

/-- What `split` should return for at least one query and `B ≥ 1`, where `same` tells which
queries have identical vectors. -/
structure WellSplit (same : ℕ → ℕ → Prop) (n_query : ℕ) (B : ℤ) (groups : List GroupInfo) :
    Prop where
  count     : 1 ≤ groups.length ∧ (groups.length : ℤ) ≤ B
  nonempty  : ∀ g ∈ groups, g.group ≠ []
  disjoint  : groups.Pairwise fun g g' => g.group.Disjoint g'.group
  ascending : ∀ g ∈ groups, g.group.Pairwise (· < ·)
  size      : ∀ g ∈ groups, g.size = g.group.length
  union     : ∀ q, (∃ g ∈ groups, q ∈ g.group) ↔ q < n_query
  together  : ∀ a < n_query, ∀ b < n_query, same a b →
    ∃ g ∈ groups, a ∈ g.group ∧ b ∈ g.group

/-- Every group holds both queries or neither. -/
def Together (groups : Multiset GroupInfo) (a b : ℕ) : Prop :=
  ∀ g ∈ groups, a ∈ g.group ↔ b ∈ g.group

-- ---------------------------------------------------------------------------
-- Equal vectors
-- ---------------------------------------------------------------------------

omit [Scalar F] in
/-- Rows that fit are read where they lie. -/
theorem SameRow.read {query : ℤ → F} {n_query dim a b : ℕ} (h : SameRow query dim a b)
    (hfit : RowsFit n_query dim) (ha : a < n_query) (hb : b < n_query) :
    SameRead query dim a b := by
  intro pos hpos
  rw [hfit.columnAt query ha hpos, hfit.columnAt query hb hpos]
  exact h pos hpos

/-- Equal vectors have equal products. -/
theorem SameRead.innerproduct_eq {query : ℤ → F} {dim a b : ℕ} (h : SameRead query dim a b)
    (hyperplane : List F) (hindex : ℕ) :
    innerproduct query hyperplane dim hindex a = innerproduct query hyperplane dim hindex b := by
  unfold innerproduct
  refine List.foldl_ext _ _ _ fun sum pos hpos => ?_
  rw [h pos (List.mem_range.mp hpos)]

/-- A side takes both queries or neither. -/
theorem Together.side {g : GroupInfo} {a b : ℕ} (h : a ∈ g.group ↔ b ∈ g.group) {p : ℕ → Prop}
    [DecidablePred p] (hp : p a ↔ p b) : Together (side (g.group.filter fun q => p q)) a b := by
  intro g' hg'
  rw [(mem_side hg').1]
  simp only [List.mem_filter, h, hp, decide_eq_true_eq]

variable (Q : PriorityQueue GroupInfo)

/-- **One round** keeps queries with equal vectors together. -/
theorem splitRound_together {query : ℤ → F} {hyperplane : List F} {dim split_num : ℕ}
    (hrow : HasRow hyperplane dim split_num) {a b : ℕ} (hab : SameRead query dim a b)
    {pq pq' : Q.Heap} (h : Together (Q.elems pq) a b)
    (hret : Returns (splitRound Q query hyperplane dim pq split_num) pq') :
    Together (Q.elems pq') a b := by
  cases hg : Q.top pq with
  | none =>
    unfold splitRound at hret
    rw [hg] at hret
    exact absurd (fails_fault _) hret.not_fails
  | some g =>
    have hsign : innerproduct query hyperplane dim split_num a < 0 ↔
        innerproduct query hyperplane dim split_num b < 0 := by
      rw [hab.innerproduct_eq hyperplane split_num]
    have htop : a ∈ g.group ↔ b ∈ g.group := h g (Q.top_mem hg)
    rw [hret.unique (splitRound_returns Q query hrow hg)]
    intro g' hg'
    rw [elems_pushGroup, elems_pushGroup, Multiset.mem_add, Multiset.mem_add] at hg'
    rcases hg' with hg' | hg' | hg'
    · exact Together.side htop (not_congr hsign) g' hg'
    · exact Together.side htop hsign g' hg'
    · exact h g' (Q.mem_of_mem_pop hg hg')

/-- The whole loop does; with `B = 1` it makes no round. -/
theorem split_together {query : ℤ → F} {hyperplane : List F} {n_query dim : ℕ} {B : ℤ}
    (hrows : ∀ split_num < (B - 1).toNat, HasRow hyperplane dim split_num) {a b : ℕ}
    (ha : a < n_query) (hb : b < n_query) (hab : 1 < B → SameRead query dim a b) {pq : Q.Heap}
    (hret : Returns (split Q query hyperplane n_query dim B) pq) : Together (Q.elems pq) a b := by
  refine foldlM_inv (fun _ pq => Together (Q.elems pq) a b)
    (fun pre i post s s' hsplit hs hround => ?_) (fun g hg => ?_) hret
  · have hi : i < (B - 1).toNat := List.mem_range.mp (by rw [hsplit]; simp)
    exact splitRound_together Q (hrows i hi) (hab (by omega)) hs hround
  · rw [Q.elems_push, Q.elems_empty] at hg
    rw [Multiset.mem_singleton.mp hg]
    simp only [List.mem_range, ha, hb]

-- ---------------------------------------------------------------------------
-- The partition
-- ---------------------------------------------------------------------------

/-- The groups are disjoint, as each query is in one of them. -/
theorem GroupPartition.pairwise_disjoint {n_query : ℕ} {groups : List GroupInfo}
    (h : GroupPartition n_query (groups : Multiset GroupInfo)) :
    groups.Pairwise fun g g' => g.group.Disjoint g'.group := by
  have hnodup : (groups.map GroupInfo.group).flatten.Nodup :=
    (Covers.flatten_perm h.cover).nodup_iff.mpr List.nodup_range
  exact List.pairwise_map.mp (List.nodup_flatten.mp hnodup).2

theorem GroupPartition.mem_iff {n_query : ℕ} {groups : List GroupInfo}
    (h : GroupPartition n_query (groups : Multiset GroupInfo)) (q : ℕ) :
    (∃ g ∈ groups, q ∈ g.group) ↔ q < n_query := by
  have hmem := (Covers.flatten_perm h.cover).mem_iff (a := q)
  rw [List.mem_range, List.mem_flatten] at hmem
  rw [← hmem]
  constructor
  · rintro ⟨g, hg, hq⟩
    exact ⟨g.group, List.mem_map_of_mem hg, hq⟩
  · rintro ⟨group, hgroup, hq⟩
    obtain ⟨g, hg, rfl⟩ := List.mem_map.mp hgroup
    exact ⟨g, hg, hq⟩

/-- **`split`** on hyperplanes that can be read: it returns between one and `B` groups,
non-empty, disjoint, ascending, of the size they say, together all queries, and never
parting queries with equal vectors. -/
theorem split_wellSplit {n_query : ℕ} (hn : 1 ≤ n_query) {dim : ℕ} {query : ℤ → F} {B : ℤ}
    (hB : 1 ≤ B) {hyperplane : List F}
    (hrows : ∀ split_num < (B - 1).toNat, HasRow hyperplane dim split_num) {same : ℕ → ℕ → Prop}
    (hsame : 1 < B → ∀ a < n_query, ∀ b < n_query, same a b → SameRead query dim a b) :
    ∃ pq, Returns (split Q query hyperplane n_query dim B) pq ∧
      WellSplit same n_query B (Q.drain pq) := by
  obtain ⟨pq, hret, hpart, hsize⟩ := split_spec Q hn query hB hrows
  have hlist : GroupPartition n_query (Q.drain pq : Multiset GroupInfo) := by
    rw [Q.coe_drain]
    exact hpart
  refine ⟨pq, hret, ⟨?_, by rw [Q.length_drain]; exact hsize⟩, hlist.nonempty,
    hlist.pairwise_disjoint, hlist.ascending, hlist.size, hlist.mem_iff, fun a ha b hb hab => ?_⟩
  · rw [Q.length_drain]
    exact Multiset.card_pos.mpr (hpart.ne_zero hn)
  · obtain ⟨g, hg, hmem⟩ := (hlist.mem_iff a).mpr ha
    have htogether := split_together Q hrows ha hb (fun hlt => hsame hlt a ha b hb hab) hret
    exact ⟨g, hg, hmem, (htogether g (Q.mem_drain.mp hg)).mp hmem⟩

-- ---------------------------------------------------------------------------
-- Queries that part
-- ---------------------------------------------------------------------------

/-- No group holds both queries. -/
def Apart (groups : Multiset GroupInfo) (a b : ℕ) : Prop :=
  ∀ g ∈ groups, a ∈ g.group → b ∉ g.group

/-- The two sides of a group part the queries that the first hyperplane parts. -/
theorem apart_sides {groups : Multiset GroupInfo} {group : List ℕ} {p : ℕ → Prop}
    [DecidablePred p] {a b : ℕ} (hgroups : Apart groups a b)
    (hsplit : (a ∈ group → b ∉ group) ∨ (p a ∧ ¬ p b)) :
    Apart (side (group.filter fun q => ¬ p q) + (side (group.filter fun q => p q) + groups)) a b := by
  intro g hg ha hb
  rcases Multiset.mem_add.mp hg with hg | hg
  · rw [(mem_side hg).1] at ha hb
    have ha := List.mem_filter.mp ha
    have hb := List.mem_filter.mp hb
    rcases hsplit with hnot | ⟨hpa, -⟩
    · exact hnot ha.1 hb.1
    · simp [hpa] at ha
  rcases Multiset.mem_add.mp hg with hg | hg
  · rw [(mem_side hg).1] at ha hb
    have ha := List.mem_filter.mp ha
    have hb := List.mem_filter.mp hb
    rcases hsplit with hnot | ⟨-, hpb⟩
    · exact hnot ha.1 hb.1
    · simp [hpb] at hb
  · exact hgroups g hg ha hb

/-- Once the first hyperplane has parted two queries, they are never joined again. -/
theorem split_apart {query : ℤ → F} {hyperplane : List F} {n_query dim : ℕ} {B : ℤ} (hB : 1 < B)
    (hrows : ∀ split_num < (B - 1).toNat, HasRow hyperplane dim split_num) {a b : ℕ}
    (ha : innerproduct query hyperplane dim 0 a < 0)
    (hb : ¬ innerproduct query hyperplane dim 0 b < 0) {pq : Q.Heap}
    (hret : Returns (split Q query hyperplane n_query dim B) pq) : Apart (Q.elems pq) a b := by
  have hinv := foldlM_inv
    (fun pre pq => (pre = [] ∧ pq = Q.push Q.empty ⟨List.range n_query, n_query⟩) ∨
      (pre ≠ [] ∧ Apart (Q.elems pq) a b))
    (fun pre i post pq pq' hsplit hI hround => by
      have hi : i < (B - 1).toNat := List.mem_range.mp (by rw [hsplit]; simp)
      refine Or.inr ⟨by simp, ?_⟩
      cases hg : Q.top pq with
      | none =>
        unfold splitRound at hround
        rw [hg] at hround
        exact absurd (fails_fault _) hround.not_fails
      | some g =>
        rw [hround.unique (splitRound_returns Q query (hrows i hi) hg), elems_pushGroup,
          elems_pushGroup]
        rcases hI with ⟨rfl, rfl⟩ | ⟨-, hapart⟩
        · -- the first round parts them
          have hzero : i = 0 := by
            have hget : (List.range (B - 1).toNat)[0]? = some i := by rw [hsplit]; rfl
            rw [List.getElem?_range (by omega)] at hget
            exact (Option.some.inj hget).symm
          rw [hzero]
          refine apart_sides (fun g' hg' => ?_) (Or.inr ⟨ha, hb⟩)
          have hwhole : Q.elems (Q.push Q.empty ⟨List.range n_query, n_query⟩) =
              {⟨List.range n_query, n_query⟩} := by
            rw [Q.elems_push, Q.elems_empty, Multiset.cons_zero]
          rw [(Q.elems_pop_singleton hwhole hg).2] at hg'
          exact absurd hg' (Multiset.notMem_zero g')
        · exact apart_sides (fun g' hg' => hapart g' (Q.mem_of_mem_pop hg hg'))
            (Or.inl (hapart g (Q.top_mem hg))))
    (Or.inl ⟨rfl, rfl⟩) hret
  rcases hinv with ⟨hnil, -⟩ | ⟨-, hapart⟩
  · have := congrArg List.length hnil
    simp only [List.length_range, List.length_nil] at this
    omega
  · exact hapart

end Split

-- ---------------------------------------------------------------------------
-- A row that is misread
-- ---------------------------------------------------------------------------

/-- A matrix of zeros, with another value before its start. -/
def wrappedMatrix : ℤ → ℚ := fun k => if k = -2 ^ 31 then -1 else 0

/-- A hyperplane of ones weighs the vector that is read. -/
theorem innerproduct_ones {rows dim : ℕ} (hrows : 0 < rows) (q : ℕ) (x : ℤ → ℚ)
    (hdim : dim ≤ 2 ^ 31) :
    innerproduct (finMatrix x) (List.replicate (rows * dim) (fin 1)) dim 0 q =
      fin (((List.range dim).map fun pos => columnAt x (intMul dim q) pos).sum) := by
  have hsum := foldl_add_fin (List.range dim) (fun pos => columnAt x (intMul dim q) pos) 0
  rw [zero_add] at hsum
  rw [← hsum]
  unfold innerproduct
  refine List.foldl_ext _ _ _ fun sum pos hpos => ?_
  have hpos := List.mem_range.mp hpos
  have hlt : pos < rows * dim := hpos.trans_le (Nat.le_mul_of_pos_left dim hrows)
  have hoffset : (intMul dim 0 + Int32.ofNat pos).toInt.toNat = pos := by
    rw [intMul_add, Nat.mul_zero, Nat.zero_add, Int32.toInt_ofNat_of_lt (by omega),
      Int.toNat_natCast]
  rw [hoffset, List.getD_eq_getElem _ _ (by simpa using hlt), List.getElem_replicate]
  show sum + fin _ * fin 1 = sum + fin _
  rw [fin_mul, mul_one]
  rfl

/-- The first row is read where it lies. -/
theorem wrappedMatrix_first {dim pos : ℕ} (hdim : dim ≤ 2 ^ 31) (hpos : pos < dim) :
    columnAt wrappedMatrix (intMul dim 0) pos = 0 := by
  rw [columnAt_intMul wrappedMatrix (by omega)]
  exact if_neg (by omega)

/-- The row with the offset `2 ^ 31` is read before the start of the matrix there. -/
theorem wrappedMatrix_misread {dim : ℕ} :
    columnAt wrappedMatrix (intMul dim (2 ^ 31 / dim)) (2 ^ 31 % dim) = -1 := by
  rw [columnAt_wrapped]
  rfl

/-- **Equal rows part**: a row that does not fit is misread, and goes to another side than the
first row, though all rows of the matrix are zero. -/
theorem split_parts (Q : PriorityQueue GroupInfo) {n_query dim rows : ℕ} (hrows : 0 < rows)
    (hfit : rows * dim ≤ 2 ^ 31) (hover : ¬ RowsFit n_query dim) {pq : Q.Heap}
    (hret : Returns (split Q (finMatrix wrappedMatrix) (List.replicate (rows * dim) (fin 1))
      n_query dim (rows + 1 : ℕ)) pq) :
    ∃ q < n_query, SameRow (finMatrix wrappedMatrix) dim q 0 ∧ Apart (Q.elems pq) q 0 := by
  have hdim : dim ≤ 2 ^ 31 := (Nat.le_mul_of_pos_left dim hrows).trans hfit
  obtain ⟨-, hrow, hcolumn⟩ := row_of_not_fit hover
  refine ⟨2 ^ 31 / dim, hrow, fun pos _ => ?_, ?_⟩
  · unfold finMatrix wrappedMatrix
    rw [if_neg (by omega), if_neg (by omega)]
  · have hle : ∀ y ∈ (List.range dim).map fun pos =>
        -1 * columnAt wrappedMatrix (intMul dim (2 ^ 31 / dim)) pos, 0 ≤ y := by
      intro y hy
      obtain ⟨pos, -, rfl⟩ := List.mem_map.mp hy
      unfold columnAt wrappedMatrix
      split <;> norm_num
    have hone := List.single_le_sum hle 1 (List.mem_map.mpr
      ⟨2 ^ 31 % dim, List.mem_range.mpr hcolumn, by rw [wrappedMatrix_misread]; norm_num⟩)
    rw [List.sum_map_mul_left] at hone
    have hzero : ((List.range dim).map fun pos => columnAt wrappedMatrix (intMul dim 0) pos).sum = 0 :=
      List.sum_eq_zero fun y hy => by
        obtain ⟨p, hp, rfl⟩ := List.mem_map.mp hy
        exact wrappedMatrix_first hdim (List.mem_range.mp hp)
    refine split_apart Q (by push_cast; omega) (hasRows_iff.mpr ?_) ?_ ?_ hret
    · rw [List.length_replicate]
      have : ((rows + 1 : ℕ) - 1 : ℤ).toNat = rows := by omega
      rw [this]
      exact ⟨le_refl _, hfit⟩
    · rw [innerproduct_ones hrows _ _ hdim]
      show fin _ < fin 0
      rw [fin_lt]
      linarith
    · rw [innerproduct_ones hrows _ _ hdim, hzero]
      exact fun h => lt_irrefl (0 : ℚ) (fin_lt.mp h)

/-- **`split`.** For an array of `B - 1` rows of hyperplanes: it reads no hyperplane outside the
array, and returns groups as it should, with equal vectors together as they are read, exactly
if the array ends at `2 ^ 31` or below. The rows of the matrix that are equal stay together,
whatever the arrays hold, exactly if the rows of the queries end there as well, or nothing is
split. -/
theorem split_wellSplit_iff {n_query : ℕ} (hn : 1 ≤ n_query) (dim : ℕ) {B : ℤ} (hB : 1 ≤ B) :
    (∀ (F : Type) [Scalar F] (Q : PriorityQueue GroupInfo) (query : ℤ → F) (hyperplane : List F),
      (hyperplane.length : ℤ) = (B - 1) * dim →
      ((∃ pq, Returns (split Q query hyperplane n_query dim B) pq ∧
        WellSplit (SameRead query dim) n_query B (Q.drain pq)) ↔ (B - 1) * dim ≤ 2 ^ 31)) ∧
    ((∀ (F : Type) [Scalar F] (Q : PriorityQueue GroupInfo) (query : ℤ → F) (hyperplane : List F),
      (hyperplane.length : ℤ) = (B - 1) * dim →
      ∃ pq, Returns (split Q query hyperplane n_query dim B) pq ∧
        WellSplit (SameRow query dim) n_query B (Q.drain pq)) ↔
      (B - 1) * dim ≤ 2 ^ 31 ∧ (B = 1 ∨ n_query * dim ≤ 2 ^ 31)) := by
  have hreads : ∀ (F : Type) [Scalar F] (Q : PriorityQueue GroupInfo) (query : ℤ → F)
      (hyperplane : List F), (hyperplane.length : ℤ) = (B - 1) * dim →
      (∃ pq, Returns (split Q query hyperplane n_query dim B) pq) → (B - 1) * dim ≤ 2 ^ 31 :=
    fun F _ Q query hyperplane hlen hret =>
      (hasRows_of_length hB hlen).mp ((returns_iff_of_ends (split_ends Q hn query hyperplane B)).mp
        hret)
  refine ⟨fun F _ Q query hyperplane hlen => ⟨fun ⟨pq, hret, _⟩ =>
    hreads F Q query hyperplane hlen ⟨pq, hret⟩, fun hfit =>
      split_wellSplit Q hn hB ((hasRows_of_length hB hlen).mpr hfit) fun _ _ _ _ _ h => h⟩, ?_⟩
  constructor
  · intro h
    obtain ⟨rows, hrows⟩ := Int.eq_ofNat_of_zero_le (show 0 ≤ B - 1 by omega)
    obtain rfl : B = (rows + 1 : ℕ) := by push_cast; omega
    have hlen : ((List.replicate (rows * dim) (fin 1 : Exact ℚ)).length : ℤ) =
        ((rows + 1 : ℕ) - 1) * dim := by
      rw [List.length_replicate]
      push_cast
      ring
    obtain ⟨pq, hret, hwell⟩ := h (Exact ℚ) (PriorityQueue.byKey GroupInfo.size)
      (finMatrix wrappedMatrix) _ hlen
    have hfit := hreads _ _ _ _ hlen ⟨pq, hret⟩
    refine ⟨hfit, or_iff_not_imp_left.mpr fun hone => ?_⟩
    by_contra hover
    have hfit' : rows * dim ≤ 2 ^ 31 := by
      rw [List.length_replicate] at hlen
      exact_mod_cast hlen ▸ hfit
    obtain ⟨q, hq, hsame, hapart⟩ := split_parts _ (by push_cast at hone; omega) hfit' hover hret
    obtain ⟨g, hg, hmem, hmem'⟩ := hwell.together q hq 0 hn hsame
    exact hapart g ((PriorityQueue.byKey GroupInfo.size).mem_drain.mp hg) hmem hmem'
  · rintro ⟨hfit, hrows⟩ F _ Q query hyperplane hlen
    refine split_wellSplit Q hn hB ((hasRows_of_length hB hlen).mpr hfit) fun hlt a ha b hb hab => ?_
    exact hab.read (hrows.resolve_left (by omega)) ha hb

/-- Four vectors on a line, two of them equal, and a hyperplane through the origin. -/
theorem split_wellSplit_line : ∃ pq : (PriorityQueue.byKey GroupInfo.size).Heap,
    Returns (split (PriorityQueue.byKey GroupInfo.size)
      (finMatrix fun k => if k = 1 then (3 : ℚ) else -1) [fin 1] 4 1 2) pq ∧
    WellSplit (SameRow (finMatrix fun k => if k = 1 then (3 : ℚ) else -1) 1) 4 2
      ((PriorityQueue.byKey GroupInfo.size).drain pq) :=
  (split_wellSplit_iff (by decide) 1 (by decide)).2.mpr (by decide) _ _ _ _ (by decide)

/-- With `16777217` hyperplanes of `128` values the last one starts at `2 ^ 31`, which is
`-2 ^ 31` in `int`: the last round reads it outside the array. -/
theorem split_reads_outside :
    ((List.replicate 2147483776 (fin 1 : Exact ℚ)).length : ℤ) = (16777218 - 1) * (128 : ℕ) ∧
    Fails (split (PriorityQueue.byKey GroupInfo.size) (finMatrix fun k => (k : ℚ))
      (List.replicate 2147483776 (fin 1)) 2 128 16777218) .outOfRange ∧
    ¬ ∃ pq, Returns (split (PriorityQueue.byKey GroupInfo.size) (finMatrix fun k => (k : ℚ))
        (List.replicate 2147483776 (fin 1)) 2 128 16777218) pq ∧
      WellSplit (SameRow (finMatrix fun k => (k : ℚ)) 128) 2 16777218
        ((PriorityQueue.byKey GroupInfo.size).drain pq) := by
  have hlen : ((List.replicate 2147483776 (fin 1 : Exact ℚ)).length : ℤ) =
      (16777218 - 1) * (128 : ℕ) := by
    rw [List.length_replicate]
    norm_num
  have hfails : Fails (split (PriorityQueue.byKey GroupInfo.size) (finMatrix fun k => (k : ℚ))
      (List.replicate 2147483776 (fin 1)) 2 128 16777218) .outOfRange := by
    refine ((split_ends (PriorityQueue.byKey GroupInfo.size) two_pos _ _ 16777218).resolve_left
      fun h => ?_).2
    have := (hasRows_of_length (by norm_num) hlen).mp h.1
    norm_num at this
  exact ⟨hlen, hfails, fun ⟨_, hret, _⟩ => hret.not_fails hfails⟩

end Mqo
