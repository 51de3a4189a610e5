import Mqo.Trajectory.Flatten

/-!
# MQO — flattening and the rows of the matrix

`get_distance` computes the offset of a row in `int`. While the rows of the nodes end at
`2 ^ 31` or below, flattening compares the rows of the matrix. Where they do not, it compares
what lies before the matrix, and a node may be moved far away.

* `flattens_small`, `flattens_rows` — two nodes, and rows that fit, are flattened as they are;
* `siblings_misread`                — a node moved to a sibling that is far away;
* `reorderMultipleOptimized_iff`    — the condition under which no node is.
-/

namespace Mqo

open Prog StackTraversal Exact IntOffset

/-- The distance of two rows of the matrix. -/
noncomputable def rowDistance (x : ℤ → ℝ) (dim i j : ℕ) : ℝ :=
  distanceOf true dim (matrixRow x dim i) (matrixRow x dim j)

theorem rowDistance_nonneg (x : ℤ → ℝ) (dim i j : ℕ) : 0 ≤ rowDistance x dim i j :=
  Real.sqrt_nonneg _

theorem squaredOf_self (dim : ℕ) (u : ℕ → ℝ) : squaredOf dim u u = 0 := by
  simp [squaredOf]

theorem rowDistance_self (x : ℤ → ℝ) (dim i : ℕ) : rowDistance x dim i i = 0 := by
  show Real.sqrt (squaredOf dim _ _) = 0
  rw [squaredOf_self, Real.sqrt_zero]

/-- No node is its own parent. -/
theorem Forest.parent_ne {edges : Trajectory} (h : Forest edges) {e : ℤ × ℤ} (he : e ∈ edges) :
    e.2 ≠ e.1 := by
  have hrooted : ∀ c, Rooted (-1) edges c → ∀ f ∈ edges, f.1 = c → f.2 ≠ c := by
    intro c hc
    induction hc with
    | @root c hc =>
      intro f hf hfc hloop
      have hroot : f.2 = -1 := congrArg Prod.snd (eq_of_fst_eq h.nodup hf hc hfc)
      have hnode := (h.inRange.child f hf).1
      omega
    | @child c p hc _ ih =>
      intro f hf hfc hloop
      have hparent : f.2 = p := congrArg Prod.snd (eq_of_fst_eq h.nodup hf hc hfc)
      exact ih f hf (by rw [hfc, ← hloop, hparent]) hparent
  exact hrooted e.1 (h.rooted e he) e he rfl

section Rows

variable {x : ℤ → ℝ} {dim : ℕ} {alpha : ℝ} {edges : Trajectory} (h : Forest edges)
  (halpha : 1 ≤ alpha)

include h halpha

/-- **Rows that fit** are flattened as they are. -/
theorem flattens_rows (hfit : RowsFit edges.length dim) :
    Flattens x dim alpha (rowDistance x dim) edges := by
  refine h.flattens (movesNear_of halpha (rowDistance_nonneg x dim)
    fun e he prev hprev hne hnear => ?_)
  have hnode := (h.inRange.child e he).toNat_lt
  have hparent := ((h.inRange.parent e he).resolve_left hne).toNat_lt
  rw [exactDistance_row hfit hnode hprev.toNat_lt, exactDistance_row hfit hnode hparent] at hnear
  rw [mul_comm]
  exact hnear.le

/-- With two nodes there is nowhere else to move. -/
theorem flattens_small (hsmall : edges.length ≤ 2) :
    Flattens x dim alpha (rowDistance x dim) edges := by
  refine h.flattens (movesNear_of halpha (rowDistance_nonneg x dim) fun e he prev hprev hne _ => ?_)
  have hnode := h.inRange.child e he
  have hparent := (h.inRange.parent e he).resolve_left hne
  have hnonneg := rowDistance_nonneg x dim e.1.toNat e.2.toNat
  by_cases hself : prev = e.1
  · rw [hself, rowDistance_self]
    exact mul_nonneg (by linarith) hnonneg
  · have hloop := h.parent_ne he
    obtain rfl : prev = e.2 := by
      have := hnode.1
      have := hnode.2
      have := hparent.1
      have := hparent.2
      have := hprev.1
      have := hprev.2
      omega
    exact le_mul_of_one_le_left hnonneg halpha

end Rows

-- ---------------------------------------------------------------------------
-- Two siblings
-- ---------------------------------------------------------------------------

/-- Two siblings below node 0, and a tree for every other node. -/
def siblings (n o r : ℕ) : Trajectory :=
  (0, -1) :: ((o : ℤ), 0) :: ((r : ℤ), 0) ::
    ((List.range n).filter fun v => v ≠ 0 ∧ v ≠ o ∧ v ≠ r).map fun v : ℕ => ((v : ℤ), -1)

section Siblings

variable {n o r : ℕ}

/-- Only node 0 has children. -/
theorem siblings_below {p : ℤ} (hp : p ≠ -1) :
    withParent (siblings n o r) p = if p = 0 then [((o : ℤ), 0), ((r : ℤ), 0)] else [] := by
  have hothers : withParent
      (((List.range n).filter fun v => v ≠ 0 ∧ v ≠ o ∧ v ≠ r).map
        fun v : ℕ => ((v : ℤ), (-1 : ℤ))) p = [] := by
    refine List.filter_eq_nil_iff.mpr fun e he => ?_
    obtain ⟨v, -, rfl⟩ := List.mem_map.mp he
    simpa using hp.symm
  unfold withParent at hothers ⊢
  unfold siblings
  rw [List.filter_cons_of_neg (by simpa using hp.symm)]
  by_cases h0 : p = 0
  · subst h0
    rw [List.filter_cons_of_pos (by simp), List.filter_cons_of_pos (by simp), hothers, if_pos rfl]
  · rw [List.filter_cons_of_neg (by simpa using Ne.symm h0),
      List.filter_cons_of_neg (by simpa using Ne.symm h0), hothers, if_neg h0]

/-- The other nodes are roots. -/
theorem siblings_roots : withParent (siblings n o r) (-1) =
    (0, -1) :: ((List.range n).filter fun v => v ≠ 0 ∧ v ≠ o ∧ v ≠ r).map
      fun v : ℕ => ((v : ℤ), -1) := by
  unfold withParent siblings
  rw [List.filter_cons_of_pos (by simp), List.filter_cons_of_neg (by simp),
    List.filter_cons_of_neg (by simp), List.filter_eq_self.mpr fun e he => ?_]
  obtain ⟨v, -, rfl⟩ := List.mem_map.mp he
  simp

/-- Pairs with nothing below them are emitted as they are. -/
theorem emits_leaves {γ : Type} {next : γ → List γ} {l : List γ} (h : ∀ e ∈ l, next e = []) :
    Emits next l l := by
  induction l with
  | nil => exact Emits.nil
  | cons e l ih =>
    refine Emits.pop ?_
    rw [h e List.mem_cons_self, List.nil_append]
    exact ih fun e' he' => h e' (List.mem_cons_of_mem _ he')

/-- The traversal emits the siblings one after the other. -/
theorem siblings_emits (ho0 : o ≠ 0) (hr0 : r ≠ 0) :
    Emits (childEdges (siblings n o r)) (withParent (siblings n o r) (-1)) (siblings n o r) := by
  have hnone : ∀ v : ℕ, v ≠ 0 → ∀ p, childEdges (siblings n o r) ((v : ℤ), p) = [] := by
    intro v hv p
    rw [childEdges, siblings_below (by omega), if_neg (by omega)]
  rw [siblings_roots]
  refine Emits.pop ?_
  rw [childEdges, siblings_below (by decide), if_pos rfl]
  refine Emits.pop ?_
  rw [hnone o ho0]
  refine Emits.pop ?_
  rw [hnone r hr0]
  refine emits_leaves fun e he => ?_
  obtain ⟨v, hv, rfl⟩ := List.mem_map.mp he
  exact hnone v (of_decide_eq_true (List.mem_filter.mp hv).2).1 _

variable (ho : o < n) (hr : r < n) (ho0 : o ≠ 0) (hr0 : r ≠ 0) (hor : o ≠ r)

include ho hr ho0 hr0 hor

/-- Each node is a child once. -/
theorem siblings_children : ((siblings n o r).map Prod.fst).Perm (indices n) := by
  have hperm : (0 :: o :: r :: (List.range n).filter fun v => v ≠ 0 ∧ v ≠ o ∧ v ≠ r).Perm
      (List.range n) := by
    refine (List.perm_ext_iff_of_nodup ?_ List.nodup_range).mpr fun v => ?_
    · have hrange : (List.range n).Nodup := List.nodup_range
      simp [ho0.symm, hr0.symm, hor, hrange.filter]
    · simp only [List.mem_cons, List.mem_filter, List.mem_range, decide_eq_true_eq]
      omega
  have hmap := hperm.map fun v : ℕ => (v : ℤ)
  rw [indices]
  refine (List.Perm.of_eq ?_).trans hmap
  simp [siblings, List.map_map, Function.comp_def]

/-- The pairs are a forest of `n` nodes. -/
theorem siblings_forest : (siblings n o r).length = n ∧ Forest (siblings n o r) := by
  refine Accepted.forest (accepted_iff.mpr ⟨siblings_children ho hr ho0 hr0 hor, ?_⟩)
  intro pre e post hsplit
  cases pre with
  | nil =>
    rw [siblings, List.nil_append, List.cons.injEq] at hsplit
    exact Or.inl (by rw [← hsplit.1])
  | cons a pre =>
    rw [siblings, List.cons_append, List.cons.injEq] at hsplit
    obtain ⟨rfl, htail⟩ := hsplit
    have he : e ∈ pre ++ e :: post := by simp
    rw [← htail] at he
    simp only [List.mem_cons, List.mem_map] at he
    rcases he with rfl | rfl | ⟨v, -, rfl⟩
    · exact Or.inr List.mem_cons_self
    · exact Or.inr List.mem_cons_self
    · exact Or.inl rfl

end Siblings

-- ---------------------------------------------------------------------------
-- A row that is misread
-- ---------------------------------------------------------------------------

/-- Column `c` of row `o` is one, wherever it is read from, and so is what lies `2 ^ 31` before
the matrix. -/
def siblingMatrix (dim o c : ℕ) : ℤ → ℤ := fun k =>
  if k = -2 ^ 31 ∨ k = (Int32.ofNat (dim * o + c)).toInt ∨ k = ↑(dim * o + c) then 1 else 0

/-- Column `c` of row `r` has the offset `2 ^ 31`, and row `o` is another one. -/
structure Wraps (dim o r c : ℕ) : Prop where
  column  : c < dim
  bound   : dim < 2 ^ 31
  wrapped : dim * r + c = 2 ^ 31
  apart   : (dim * o = dim ∧ 2 * dim ≤ dim * r) ∨ (dim * o = 2 * dim ∧ dim * r = dim)

/-- Where the rows do not fit, there are two such nodes. -/
theorem exists_wraps {n dim : ℕ} (hn : 3 ≤ n) (hint : dim < 2 ^ 31) (hover : ¬ RowsFit n dim) :
    ∃ o r c, o < n ∧ r < n ∧ o ≠ 0 ∧ r ≠ 0 ∧ o ≠ r ∧ Wraps dim o r c := by
  obtain ⟨hdim, hrow, hcolumn⟩ := row_of_not_fit hover
  have hpos : 0 < 2 ^ 31 / dim := Nat.div_pos hint.le hdim
  have hwrapped := Nat.div_add_mod (2 ^ 31) dim
  rcases Nat.lt_or_ge (2 ^ 31 / dim) 2 with hlt | hge
  · have hone : 2 ^ 31 / dim = 1 := le_antisymm (Nat.le_of_lt_succ hlt) hpos
    refine ⟨2, 1, 2 ^ 31 % dim, by omega, by omega, by decide, by decide, by decide, hcolumn, hint,
      by rwa [hone] at hwrapped, Or.inr ⟨mul_comm _ _, mul_one _⟩⟩
  · refine ⟨1, 2 ^ 31 / dim, 2 ^ 31 % dim, by omega, hrow, by decide, hpos.ne',
      (Nat.lt_of_succ_le hge).ne, hcolumn, hint, hwrapped, Or.inl ⟨mul_one _, ?_⟩⟩
    rw [mul_comm 2]
    exact Nat.mul_le_mul_left dim hge

/-- What is read in a column depends on its offset modulo `2 ^ 32`. -/
theorem siblingMatrix_read (dim o c i pos : ℕ) :
    columnAt (fun k => (siblingMatrix dim o c k : ℝ)) (intMul dim i) pos =
      if (dim * i + pos) % 2 ^ 32 = 2 ^ 31 ∨ (dim * i + pos) % 2 ^ 32 = (dim * o + c) % 2 ^ 32
      then 1 else 0 := by
  have hmin : (Int32.ofNat (dim * i + pos)).toInt = -2 ^ 31 ↔ (dim * i + pos) % 2 ^ 32 = 2 ^ 31 :=
    toInt_ofNat_inj (b := 2 ^ 31)
  have hlies : (Int32.ofNat (dim * i + pos)).toInt = ↑(dim * o + c) →
      (dim * i + pos) % 2 ^ 32 = (dim * o + c) % 2 ^ 32 := by
    intro heq
    have hlt := Int32.toInt_lt (Int32.ofNat (dim * i + pos))
    rw [heq] at hlt
    exact toInt_ofNat_inj.mp (heq.trans (Int32.toInt_ofNat_of_lt (by exact_mod_cast hlt)).symm)
  rw [columnAt, intMul_add, siblingMatrix]
  simp only [hmin, toInt_ofNat_inj]
  by_cases hread : (dim * i + pos) % 2 ^ 32 = 2 ^ 31 ∨
      (dim * i + pos) % 2 ^ 32 = (dim * o + c) % 2 ^ 32
  · rw [if_pos hread, if_pos (hread.imp_right Or.inl), Int.cast_one]
  · rw [if_neg hread, if_neg, Int.cast_zero]
    rintro (h | h | h)
    · exact hread (Or.inl h)
    · exact hread (Or.inr h)
    · exact hread (Or.inr (hlies h))

/-- In the matrix the column is one as well. -/
theorem siblingMatrix_column (dim o c : ℕ) :
    matrixRow (fun k => (siblingMatrix dim o c k : ℝ)) dim o c = 1 := by
  rw [matrixRow, siblingMatrix, if_pos (Or.inr (Or.inr rfl)), Int.cast_one]

namespace Wraps

variable {dim o r c pos : ℕ} (h : Wraps dim o r c)

include h

/-- The first row is read where it lies. -/
theorem read_first (hpos : pos < dim) :
    columnAt (fun k => (siblingMatrix dim o c k : ℝ)) (intMul dim 0) pos = 0 := by
  obtain ⟨hc, hint, hwrap, hapart⟩ := h
  rw [siblingMatrix_read, if_neg]
  omega

/-- The two siblings are read alike: one in column `c`, and zero in any other. -/
theorem read_sibling {i : ℕ} (hi : i = o ∨ i = r) (hpos : pos < dim) :
    columnAt (fun k => (siblingMatrix dim o c k : ℝ)) (intMul dim i) pos =
      if pos = c then 1 else 0 := by
  obtain ⟨hc, hint, hwrap, hapart⟩ := h
  rw [siblingMatrix_read]
  refine if_congr ?_ rfl rfl
  rcases hi with rfl | rfl
  · omega
  · omega

/-- The matrix is zero in the rows of the first node and of sibling `r`. -/
theorem row_zero {i : ℕ} (hi : i = 0 ∨ i = r) (hpos : pos < dim) :
    matrixRow (fun k => (siblingMatrix dim o c k : ℝ)) dim i pos = 0 := by
  obtain ⟨hc, hint, hwrap, hapart⟩ := h
  rw [matrixRow, siblingMatrix, if_neg, Int.cast_zero]
  have hread : (Int32.ofNat (dim * o + c)).toInt < 0 ∨
      (Int32.ofNat (dim * o + c)).toInt = ↑(dim * o + c) := by
    rw [Int32.toInt_ofNat', Int.bmod_def, show Int32.size = 2 ^ 32 from rfl]
    omega
  rcases hi with rfl | rfl
  · omega
  · omega

/-- As they are read, the siblings are one point, which differs from their parent. -/
theorem exactDistance_lt :
    exactDistance true (fun k => (siblingMatrix dim o c k : ℝ)) dim r o <
      exactDistance true (fun k => (siblingMatrix dim o c k : ℝ)) dim r 0 := by
  have hsame : exactSquared (fun k => (siblingMatrix dim o c k : ℝ)) dim r o = 0 := by
    rw [exactSquared, squaredOf_congr (fun pos hpos => h.read_sibling (Or.inr rfl) hpos)
      (fun pos hpos => h.read_sibling (Or.inl rfl) hpos), squaredOf_self]
  have hfar := mul_self_le_squaredOf h.column
    (columnAt (fun k => (siblingMatrix dim o c k : ℝ)) (intMul dim r))
    (columnAt (fun k => (siblingMatrix dim o c k : ℝ)) (intMul dim 0))
  rw [h.read_sibling (Or.inr rfl) h.column, h.read_first h.column, if_pos rfl] at hfar
  refine Real.sqrt_lt_sqrt (squaredOf_nonneg dim _ _) ?_
  show exactSquared _ dim r o < _
  rw [hsame]
  linarith

/-- In the matrix sibling `r` is its parent, and the other one is not. -/
theorem rowDistance_lt :
    rowDistance (fun k => (siblingMatrix dim o c k : ℝ)) dim r 0 <
      rowDistance (fun k => (siblingMatrix dim o c k : ℝ)) dim r o := by
  have hfar := mul_self_le_squaredOf h.column
    (matrixRow (fun k => (siblingMatrix dim o c k : ℝ)) dim r)
    (matrixRow (fun k => (siblingMatrix dim o c k : ℝ)) dim o)
  rw [h.row_zero (Or.inr rfl) h.column, siblingMatrix_column] at hfar
  refine Real.sqrt_lt_sqrt (squaredOf_nonneg dim _ _) ?_
  rw [squaredOf_const (fun pos hpos => h.row_zero (Or.inr rfl) hpos)
    (fun pos hpos => h.row_zero (Or.inl rfl) hpos)]
  linarith

/-- **A node moved far away.** Sibling `r` is hung below the other one. -/
theorem not_flattens {n : ℕ} (ho : o < n) (hr : r < n) (ho0 : o ≠ 0) (hr0 : r ≠ 0) (hor : o ≠ r) :
    ¬ Flattens (fun k => (siblingMatrix dim o c k : ℝ)) dim 1
      (rowDistance (fun k => (siblingMatrix dim o c k : ℝ)) dim) (siblings n o r) := by
  rintro ⟨out, result, -, hret, -, -, -, hnear, -⟩
  obtain ⟨-, hforest⟩ := siblings_forest ho hr ho0 hr0 hor
  have hflat := hret.unique (reorderMultipleOptimized_returns _ dim _ hforest.inRange
    (siblings_emits ho0 hr0))
  have hmoved : flattened (finMatrix fun k => (siblingMatrix dim o c k : ℝ)) dim (fin 1) o
      ((r : ℤ), 0) = ((r : ℤ), (o : ℤ)) := by
    have hd : ∀ i j, getDistance (finMatrix fun k => (siblingMatrix dim o c k : ℝ)) dim i j =
        fin (exactDistance true (fun k => (siblingMatrix dim o c k : ℝ)) dim i j) :=
      metricDistance_fin true _ dim
    unfold flattened
    rw [if_neg (show (0 : ℤ) ≠ -1 by decide), hd, hd, fin_mul, mul_one, if_pos]
    exact h.exactDistance_lt
  obtain ⟨original, hedge, -, -, -, hle⟩ := hnear
    [(0, -1),
      flattened (finMatrix fun k => (siblingMatrix dim o c k : ℝ)) dim (fin 1) 0 ((o : ℤ), 0)]
    r o _ (by rw [hflat, siblings, flatten, flatten, flatten, hmoved]; rfl) (by omega)
  have hsibling : ((r : ℤ), (0 : ℤ)) ∈ siblings n o r := by simp [siblings]
  obtain rfl : original = 0 := congrArg Prod.snd (eq_of_fst_eq hforest.nodup hedge hsibling rfl)
  rw [one_mul] at hle
  exact absurd hle (not_le.mpr h.rowDistance_lt)

end Wraps

/-- **Flattening a forest**, as the rows are read and as they are: the nodes are moved near
exactly if there are at most two, or all rows end at `2 ^ 31` or below. -/
theorem reorderMultipleOptimized_iff {n dim : ℕ} (hint : dim < 2 ^ 31) :
    (∀ edges, Forest edges → ∀ (x : ℤ → ℝ) (alpha : ℝ), 1 ≤ alpha →
      Flattens x dim alpha (exactDistance true x dim) edges) ∧
    ((∀ edges, Forest edges → edges.length = n → ∀ (x : ℤ → ℝ) (alpha : ℝ), 1 ≤ alpha →
      Flattens x dim alpha (rowDistance x dim) edges) ↔ n ≤ 2 ∨ RowsFit n dim) := by
  refine ⟨fun edges h x alpha halpha => h.flattens_read halpha, fun hall => ?_, fun hfit => ?_⟩
  · refine or_iff_not_imp_left.mpr fun hmany => ?_
    by_contra hover
    obtain ⟨o, r, c, ho, hr, ho0, hr0, hor, hwraps⟩ := exists_wraps (by omega) hint hover
    obtain ⟨hlen, hforest⟩ := siblings_forest ho hr ho0 hr0 hor
    exact hwraps.not_flattens ho hr ho0 hr0 hor (hall _ hforest hlen _ 1 (le_refl 1))
  · intro edges h hlen x alpha halpha
    subst hlen
    rcases hfit with hsmall | hfit
    · exact flattens_small h halpha hsmall
    · exact flattens_rows h halpha hfit

/-- Two trees of nodes on a line. -/
theorem reorderMultipleOptimized_twoTrees :
    Flattens (fun k => (k : ℝ)) 1 2 (rowDistance (fun k => (k : ℝ)) 1)
      [(2, 0), (4, 3), (1, 0), (3, -1), (0, -1)] :=
  ((reorderMultipleOptimized_iff (n := 5) (by decide)).2.mpr (Or.inr (by unfold RowsFit; decide)))
    _ twoTrees_forest rfl _ 2 one_le_two

/-- Among 16777217 nodes of dimension 128, the last one is moved away from its own point. -/
theorem reorderMultipleOptimized_misread :
    (siblings 16777217 1 16777216).length = 16777217 ∧ Forest (siblings 16777217 1 16777216) ∧
    ¬ Flattens (fun k => (siblingMatrix 128 1 0 k : ℝ)) 128 1
      (rowDistance (fun k => (siblingMatrix 128 1 0 k : ℝ)) 128)
      (siblings 16777217 1 16777216) := by
  have hwraps : Wraps 128 1 16777216 0 := ⟨by decide, by decide, by decide, by decide⟩
  obtain ⟨hlen, hforest⟩ := siblings_forest (n := 16777217) (o := 1) (r := 16777216) (by decide)
    (by decide) (by decide) (by decide) (by decide)
  exact ⟨hlen, hforest, hwraps.not_flattens (by decide) (by decide) (by decide) (by decide)
    (by decide)⟩

end Mqo
