import Mqo.Trajectory.PrimMinimum
import Mqo.Trajectory.Exact
import Mqo.Trajectory.RootWeight

/-!
# MQO — `get_mst` and `computeMSTs` on one group

`get_mst` compares squared distances and relaxes in parallel, `computeMSTs`
compares rooted distances in order. The keys of the two loops differ by a map
that keeps the order of all values they can hold, so that both select the same
vertex below the same parent in every iteration.

* `selectNext_rescale`, `primVisit_rescale` — one iteration of each loop, side by side;
* `mstLoop_rescale`     — the two loops record the same entries;
* `rescales_exact`      — over exact reals the map is the square root, or nothing for
  inner products, as long as both read the rows where they lie;
* `misreadMatrix_disagrees` — `get_mst` computes the offset of a row in `size_t`, and the
  distances of `computeMSTs` in `int`: a row that does not fit gives another first edge;
* `agreesWithLsh_iff`   — `computeMSTs` returns the edges of `get_mst` below the root
  entry where its sampling of the root weight ends, exactly for the matrices that fit.
-/

namespace Mqo

open Prog IntOffset

-- ---------------------------------------------------------------------------
-- Two scales for the same weights
-- ---------------------------------------------------------------------------

section Rescale

variable {K : Type} [Scalar K] {n : ℕ} {c d : ℕ → ℕ → K} {φ : K → K}

/-- The values that keys can have. -/
def Attained (n : ℕ) (c : ℕ → ℕ → K) (a : K) : Prop :=
  a = 0 ∨ a = Scalar.infinity ∨ ∃ i < n, ∃ j < n, i ≠ j ∧ a = c i j

/-- `φ` turns the weights `c` into the weights `d` and keeps their order. -/
structure Rescales (n : ℕ) (c d : ℕ → ℕ → K) (φ : K → K) : Prop where
  zero     : φ 0 = 0
  infinity : φ Scalar.infinity = Scalar.infinity
  weight   : ∀ i < n, ∀ j < n, i ≠ j → d i j = φ (c i j)
  lt       : ∀ a b, Attained n c a → Attained n c b → (φ a < φ b ↔ a < b)

/-- A key on the other scale. -/
def rescaleKey (φ : K → K) (k : K × Option ℕ) : K × Option ℕ := (φ k.1, k.2)

/-- Two states of the loops that agree up to the scale of the keys. -/
structure SameTree (n : ℕ) (c : ℕ → ℕ → K) (φ : K → K) (s t : PrimState K) : Prop where
  key      : ∀ v, t.key v = rescaleKey φ (s.key v)
  attained : ∀ v, Attained n c (s.key v).1
  inMST    : s.inMST = t.inMST
  entries  : s.steps.map PrimStep.entry = t.steps.map PrimStep.entry

theorem sameTree_init (h : Rescales n c d φ) :
    SameTree n c φ ⟨initKey, fun _ => false, []⟩ ⟨initKey, fun _ => false, []⟩ := by
  refine ⟨fun v => ?_, fun v => ?_, rfl, rfl⟩
  · by_cases hv : v = 0
    · subst hv
      simp [initKey, rescaleKey, h.zero]
    · simp [initKey, rescaleKey, Function.update_of_ne hv, h.infinity]
  · by_cases hv : v = 0
    · subst hv
      exact Or.inl (by simp [initKey])
    · exact Or.inr (Or.inl (by simp [initKey, Function.update_of_ne hv]))

/-- **Selection.** Both loops select the same vertex, with the same parent. -/
theorem selectNext_rescale (h : Rescales n c d φ) {s t : PrimState K} (hst : SameTree n c φ s t) :
    (selectNext n t.key t.inMST).curr = (selectNext n s.key s.inMST).curr ∧
      (selectNext n t.key t.inMST).parent = (selectNext n s.key s.inMST).parent := by
  suffices hall : ∀ l : List ℕ, ∀ sel sel' : Selection K, Attained n c sel.best →
      sel' = ⟨sel.curr, sel.parent, φ sel.best⟩ →
      l.foldl (selectStep t.key t.inMST) sel' =
        ⟨(l.foldl (selectStep s.key s.inMST) sel).curr,
          (l.foldl (selectStep s.key s.inMST) sel).parent,
          φ (l.foldl (selectStep s.key s.inMST) sel).best⟩ by
    unfold selectNext
    rw [hall (List.range n) ⟨none, none, Scalar.infinity⟩ _ (Or.inr (Or.inl rfl))
      (by simp only [h.infinity])]
    exact ⟨rfl, rfl⟩
  intro l
  induction l with
  | nil => exact fun sel sel' _ heq => heq
  | cons j l ih =>
    rintro sel _ hbest rfl
    rw [List.foldl_cons, List.foldl_cons]
    have hkey := hst.key j
    have hlt := h.lt _ _ (hst.attained j) hbest
    refine ih _ _ ?_ ?_
    · unfold selectStep
      split
      · exact hst.attained j
      · exact hbest
    · unfold selectStep
      rw [hkey, ← hst.inMST]
      simp only [rescaleKey, hlt]
      split <;> rfl

/-- **Visiting** the selected vertex, in any order of the relaxations. -/
theorem primVisit_rescale (h : Rescales n c d φ) {s t : PrimState K} (hst : SameTree n c φ s t)
    {curr : ℕ} (hcurr : curr < n) (parent : Option ℕ) {order : List ℕ}
    (horder : order.Perm (List.range n)) :
    SameTree n c φ (primVisit order c s curr parent)
      (primVisit (List.range n) d t curr parent) := by
  refine ⟨fun v => ?_, fun v => ?_, ?_, ?_⟩
  · rw [primVisit_key s curr _ horder, primVisit_key t curr _ (List.Perm.refl _), ← hst.inMST,
      hst.key v]
    by_cases hv : v < n ∧ v ≠ curr ∧ s.inMST v = false
    · rw [if_pos hv, if_pos hv]
      have hne := hv.2.1.symm
      have hlt := h.lt (c curr v) (s.key v).1
        (Or.inr (Or.inr ⟨curr, hcurr, v, hv.1, hne, rfl⟩)) (hst.attained v)
      unfold relaxed rescaleKey
      rw [h.weight curr hcurr v hv.1 hne]
      simp only [hlt]
      split <;> rfl
    · rw [if_neg hv, if_neg hv]
  · rw [primVisit_key s curr _ horder]
    split
    · next hv =>
      unfold relaxed
      split
      · exact Or.inr (Or.inr ⟨curr, hcurr, v, hv.1, hv.2.1.symm, rfl⟩)
      · exact hst.attained v
    · exact hst.attained v
  · unfold primVisit
    rw [hst.inMST]
  · unfold primVisit
    rw [List.map_append, List.map_append, hst.entries]
    rfl

/-- **The loops.** Where the loop of `computeMSTs` ends, the one of `get_mst` has recorded
the same entries. -/
theorem mstLoop_rescale (h : Rescales n c d φ) {order : ℕ → List ℕ}
    (horder : ∀ it, (order it).Perm (List.range n)) (l : List ℕ) {s t t' : PrimState K}
    (hst : SameTree n c φ s t) (hret : Returns (l.foldlM (fun st _ => primStep n d st) t) t') :
    (mstLoop n c (l.map order) s).steps.map PrimStep.entry = t'.steps.map PrimStep.entry := by
  induction l generalizing s t with
  | nil =>
    rw [Returns.of_pure hret]
    exact hst.entries
  | cons it l ih =>
    rw [List.foldlM_cons] at hret
    obtain ⟨t₁, hstep, hrest⟩ := hret.of_bind
    obtain ⟨hcurr, hparent⟩ := selectNext_rescale h hst
    unfold primStep at hstep
    dsimp only at hstep
    rw [hcurr, hparent] at hstep
    rw [List.map_cons, mstLoop]
    cases hsel : (selectNext n s.key s.inMST).curr with
    | none =>
      rw [hsel] at hstep
      exact absurd (fails_fault _) hstep.not_fails
    | some u =>
      rw [hsel] at hstep
      obtain rfl := hstep.of_pure
      have hu : u < n := by
        generalize hs : selectNext n s.key s.inMST = sel at hsel
        cases hs ▸ selectNext_selected n s.key s.inMST with
        | none => cases hsel
        | some hc _ _ =>
          cases hsel
          exact List.mem_range.mp hc
      exact ih (primVisit_rescale h hst hu _ (horder it)) hrest

/-- Finite weights are finite on both scales. -/
theorem Rescales.finite (h : Rescales n c d φ)
    (hfin : ∀ i < n, ∀ j < n, i ≠ j → d i j < Scalar.infinity) :
    ∀ i < n, ∀ j < n, i ≠ j → c i j < Scalar.infinity := by
  intro i hi j hj hne
  have hlt := hfin i hi j hj hne
  rw [h.weight i hi j hj hne, ← h.infinity] at hlt
  exact (h.lt _ _ (Or.inr (Or.inr ⟨i, hi, j, hj, hne, rfl⟩)) (Or.inr (Or.inl rfl))).mp hlt

/-- So have the steps of `get_mst`, where the other loop runs on the other scale. -/
theorem mstSteps_rescale {F : Type} [Scalar F] [Widen F K] {query : ℤ → F} {dim : ℕ} {use_l2 : Bool}
    (h : Rescales n (mstCost use_l2 query dim) d φ) {order : ℕ → List ℕ}
    (horder : ParallelOrder n order) {steps : List (PrimStep K)}
    (hret : Returns (primLoop n d) steps) :
    (mstSteps K n dim query use_l2 order).map PrimStep.entry = steps.map PrimStep.entry := by
  unfold primLoop at hret
  split at hret
  · exact absurd (fails_fault _) hret.not_fails
  · obtain ⟨final, hfold, hfinal⟩ := hret.of_bind
    obtain rfl := hfinal.of_pure
    exact mstLoop_rescale h horder (List.range n) (sameTree_init h) hfold

end Rescale

-- ---------------------------------------------------------------------------
-- The first edge
-- ---------------------------------------------------------------------------

section FirstEdge

/-- With two vertices a Prim loop has a first edge, from the vertex `0`. -/
theorem PrimSteps.firstEdge {K : Type} [Scalar K] {n : ℕ} {d : ℕ → ℕ → K} {steps : List (PrimStep K)}
    (h : PrimSteps n d steps) (hlen : steps.length = n) (hn : 2 ≤ n) :
    ∃ r s rest, steps = r :: s :: rest ∧ r.node = 0 ∧ r.entry = (0, -1) ∧
      s.entry = ((s.node : ℤ), 0) ∧ s.node < n ∧ s.node ≠ 0 ∧ s.weight = d 0 s.node := by
  obtain ⟨r, s, rest, rfl⟩ : ∃ r s rest, steps = r :: s :: rest := by
    match steps, hlen with
    | r :: s :: rest, _ => exact ⟨r, s, rest, rfl⟩
    | [], hlen => rw [List.length_nil] at hlen; omega
    | [_], hlen => rw [List.length_singleton] at hlen; omega
  have hroot : r.node = 0 ∧ r.parent = none := by
    rcases h.ok [] r (s :: rest) rfl with ⟨-, hnode, hpar, -⟩ | ⟨p, hp, -⟩
    · exact ⟨hnode, hpar⟩
    · cases hp
  obtain ⟨p, hp, hpar, hweight⟩ := h.parent_of_later
    (show r :: s :: rest = [r] ++ s :: rest from rfl) (List.cons_ne_nil r [])
  rw [List.map_singleton, List.mem_singleton, hroot.1] at hp
  subst hp
  have hnew : s.node ≠ r.node := fun heq => by
    have hnodup := h.nodup
    rw [List.map_cons, List.map_cons, heq] at hnodup
    exact (List.nodup_cons.mp hnodup).1 List.mem_cons_self
  refine ⟨r, s, rest, rfl, hroot.1, ?_, ?_, h.bound s (by simp), hroot.1 ▸ hnew, hweight⟩
  · rw [PrimStep.entry, hroot.1, hroot.2]
    rfl
  · rw [PrimStep.entry, hpar]
    rfl

/-- Among two vertices there is one tree. -/
theorem PrimSteps.entries_two {K : Type} [Scalar K] {n : ℕ} (hn : n ≤ 2) {d d' : ℕ → ℕ → K}
    {steps steps' : List (PrimStep K)} (h : PrimSteps n d steps) (hlen : steps.length = n)
    (h' : PrimSteps n d' steps') (hlen' : steps'.length = n) :
    steps.map PrimStep.entry = steps'.map PrimStep.entry := by
  have hone : ∀ {d : ℕ → ℕ → K} {steps : List (PrimStep K)}, PrimSteps n d steps →
      steps.length = n → steps.map PrimStep.entry = [(0, -1), (1, 0)].take n := by
    intro d steps h hlen
    rcases Nat.lt_or_ge n 2 with hlt | htwo
    · rcases Nat.eq_zero_or_pos n with rfl | hpos
      · rw [List.length_eq_zero_iff.mp hlen]
        rfl
      · obtain rfl : n = 1 := by omega
        have hroot := (h.entries_eq (List.ne_nil_of_length_pos (by omega))).1
        obtain ⟨s, rfl⟩ := List.length_eq_one_iff.mp hlen
        rw [List.map_singleton, List.cons.injEq] at hroot
        rw [List.map_singleton, hroot.1]
        rfl
    · obtain ⟨r, s, rest, rfl, -, hr, hs, hlt, hne, -⟩ := h.firstEdge hlen htwo
      obtain rfl : rest = [] := by
        rw [List.length_cons, List.length_cons] at hlen
        exact List.length_eq_zero_iff.mp (by omega)
      obtain rfl : n = 2 := by omega
      rw [List.map_cons, List.map_singleton, hr, hs, show s.node = 1 by omega]
      rfl
  rw [hone h hlen, hone h' hlen']

/-- In exact arithmetic the first edge leads to a vertex nearest to `0`. -/
theorem primLoop_firstEdge {n : ℕ} (hn : 2 ≤ n) {δ : ℕ → ℕ → ℝ} {steps : List (PrimStep (Exact ℝ))}
    (hret : Returns (primLoop n (finWeight δ)) steps) :
    ∃ (s : ℕ) (rest : Trajectory), steps.map PrimStep.entry = (0, -1) :: ((s : ℤ), 0) :: rest ∧
      s < n ∧ s ≠ 0 ∧ ∀ v < n, v ≠ 0 → δ 0 s ≤ δ 0 v := by
  obtain ⟨steps', hret', hsteps, hlen, hlight⟩ := primLoop_lightest (δ := δ) (show 0 < n by omega)
  obtain rfl := hret.unique hret'
  obtain ⟨r, s, rest, rfl, hnode, hr, hs, hlt, hne, hweight⟩ := hsteps.firstEdge hlen hn
  refine ⟨s.node, rest.map PrimStep.entry, by rw [List.map_cons, List.map_cons, hr, hs], hlt, hne,
    fun v hv hv0 => ?_⟩
  have hleast := hlight [r] s rest rfl 0 (by simp [hnode]) v hv (by simp [hnode, hv0])
  rw [hweight] at hleast
  exact not_lt.mp hleast

end FirstEdge

-- ---------------------------------------------------------------------------
-- Exact reals
-- ---------------------------------------------------------------------------

section Exact

open Exact

variable {n_query dim : ℕ} {query : ℤ → Exact ℝ} {use_l2 : Bool}

/-- The cost of `get_mst` in exact arithmetic. -/
theorem mstCost_fin (x : ℤ → ℝ) (dim u j : ℕ) : (mstCost true (finMatrix x) dim u j : Exact ℝ) =
    fin (squaredOf dim (matrixRow x dim u) (matrixRow x dim j)) := by
  rw [← foldl_squared_fin, mstCost]
  dsimp only
  rw [if_pos rfl]
  refine List.foldl_ext _ _ _ fun cost pos _ => ?_
  rw [widen_self, Nat.mul_comm u, Nat.mul_comm j]
  rfl

/-- While the rows fit, the cost of `get_mst` is the squared distance of `computeMSTs`, or its
distance. -/
theorem mstCost_eq (hfit : RowsFit n_query dim) {u j : ℕ} (hu : u < n_query) (hj : j < n_query)
    (use_l2 : Bool) (query : ℤ → Exact ℝ) :
    (mstCost use_l2 query dim u j : Exact ℝ) =
      if use_l2 then getDistanceSquared query dim u j else getDistanceIp query dim u j := by
  have hcolumn : ∀ i < n_query, ∀ pos ∈ List.range dim,
      query ↑(i * dim + pos) = columnAt query (intMul dim i) pos := fun i hi pos hpos => by
    rw [hfit.columnAt query hi (List.mem_range.mp hpos), Nat.mul_comm]
  unfold mstCost getDistanceSquared getDistanceIp
  dsimp only
  simp only [widen_self]
  split
  · refine List.foldl_ext _ _ _ fun cost pos hpos => ?_
    rw [hcolumn u hu pos hpos, hcolumn j hj pos hpos]
  · congr 1
    refine List.foldl_ext _ _ _ fun dot pos hpos => ?_
    rw [hcolumn u hu pos hpos, hcolumn j hj pos hpos]

/-- A root below infinity is the root of a non-negative number. -/
theorem exists_fin_of_sqrt {a : Exact ℝ} (h : Scalar.sqrt a < (Scalar.infinity : Exact ℝ)) :
    ∃ x : ℝ, 0 ≤ x ∧ a = fin x := by
  cases a with
  | fin x =>
    rcases lt_or_ge x 0 with hx | hx
    · rw [sqrt_fin_neg hx] at h
      cases h
    · exact ⟨x, hx, rfl⟩
  | _ => cases h

/-- The root keeps the order of non-negative numbers and infinity. -/
theorem sqrt_lt_sqrt_iff {a b : Exact ℝ} (ha : a = posInf ∨ ∃ x : ℝ, 0 ≤ x ∧ a = fin x)
    (hb : b = posInf ∨ ∃ x : ℝ, 0 ≤ x ∧ b = fin x) :
    (Scalar.sqrt a : Exact ℝ) < Scalar.sqrt b ↔ a < b := by
  have hinf : (Scalar.sqrt posInf : Exact ℝ) = posInf := rfl
  rcases ha with rfl | ⟨x, hx, rfl⟩ <;> rcases hb with rfl | ⟨y, hy, rfl⟩
  · rw [hinf]
  · rw [hinf, sqrt_fin hy]
    exact Iff.rfl
  · rw [hinf, sqrt_fin hx]
    exact Iff.rfl
  · rw [sqrt_fin hx, sqrt_fin hy, fin_lt, fin_lt]
    exact Real.sqrt_lt_sqrt_iff hx

/-- **Over exact reals** the rooted distances order the queries like the squared ones. -/
theorem rescales_exact (hfit : RowsFit n_query dim)
    (hfin : FiniteDistances use_l2 query dim n_query) :
    Rescales n_query (mstCost use_l2 query dim : ℕ → ℕ → Exact ℝ) (metricDistance use_l2 query dim)
      (if use_l2 then Scalar.sqrt else id) := by
  cases use_l2 with
  | false =>
    refine ⟨rfl, rfl, fun i hi j hj _ => ?_, fun _ _ _ _ => Iff.rfl⟩
    rw [mstCost_eq hfit hi hj]
    rfl
  | true =>
    have hweight : ∀ i < n_query, ∀ j < n_query, metricDistance true query dim i j =
        Scalar.sqrt (mstCost true query dim i j : Exact ℝ) := by
      intro i hi j hj
      rw [mstCost_eq hfit hi hj]
      rfl
    have hattained : ∀ a, Attained n_query (mstCost true query dim : ℕ → ℕ → Exact ℝ) a →
        a = posInf ∨ ∃ x : ℝ, 0 ≤ x ∧ a = fin x := by
      rintro a (rfl | rfl | ⟨i, hi, j, hj, hne, rfl⟩)
      · exact Or.inr ⟨0, le_refl 0, rfl⟩
      · exact Or.inl rfl
      · exact Or.inr (exists_fin_of_sqrt (hweight i hi j hj ▸ hfin i hi j hj hne))
    refine ⟨?_, rfl, fun i hi j hj _ => hweight i hi j hj,
      fun a b ha hb => sqrt_lt_sqrt_iff (hattained a ha) (hattained b hb)⟩
    show Scalar.sqrt (fin (0 : ℝ)) = fin 0
    rw [sqrt_fin (le_refl 0), root_real, Real.sqrt_zero]

theorem getD_range {n i : ℕ} (hi : i < n) : (List.range n).getD i 0 = i := by
  rw [List.getD_eq_getElem _ _ (by simpa using hi), List.getElem_range]

/-- The Prim loops of both functions record the same entries. -/
theorem primLoop_mstSteps (hfin : FiniteDistances use_l2 query dim n_query)
    (hcost : FiniteCosts (Exact ℝ) use_l2 query dim n_query)
    (hfit : n_query ≤ 2 ∨ RowsFit n_query dim) {order : ℕ → List ℕ}
    (horder : ParallelOrder n_query order) {steps : List (PrimStep (Exact ℝ))}
    (hret : Returns (primLoop n_query (groupDistance use_l2 query dim (List.range n_query))) steps)
    (hsteps : PrimSteps n_query (groupDistance use_l2 query dim (List.range n_query)) steps)
    (hlen : steps.length = n_query) :
    steps.map PrimStep.entry =
      (mstSteps (Exact ℝ) n_query dim query use_l2 order).map PrimStep.entry := by
  obtain ⟨hmst, hmstLen⟩ := mstSteps_spec hcost horder
  rcases hfit with htwo | hfit
  · exact hsteps.entries_two htwo hlen hmst hmstLen
  · have hscale := rescales_exact hfit hfin
    have hscale' : Rescales n_query (mstCost use_l2 query dim : ℕ → ℕ → Exact ℝ)
        (groupDistance use_l2 query dim (List.range n_query)) (if use_l2 then Scalar.sqrt else id) :=
      { hscale with
        weight := fun i hi j hj hne => by
          rw [groupDistance, getD_range hi, getD_range hj]
          exact hscale.weight i hi j hj hne }
    exact (mstSteps_rescale hscale' horder hret).symm

-- ---------------------------------------------------------------------------
-- The two functions
-- ---------------------------------------------------------------------------

/-- The indices of the only group are the queries. -/
theorem toEntry_range {n : ℕ} {d : ℕ → ℕ → Exact ℝ} {steps : List (PrimStep (Exact ℝ))}
    (h : PrimSteps n d steps) : steps.map (PrimStep.toEntry (List.range n)) =
      steps.map PrimStep.entry := by
  refine List.map_congr_left fun s hs => ?_
  unfold PrimStep.toEntry PrimStep.entry
  rw [getD_range (h.bound s hs)]
  obtain ⟨pre, post, hsplit⟩ := List.append_of_mem hs
  rcases h.ok pre s post hsplit with ⟨-, -, hp, -⟩ | ⟨p, hp, hpar, -⟩
  · rw [hp]
  · obtain ⟨t, ht, rfl⟩ := List.mem_map.mp hp
    rw [hpar]
    dsimp only
    rw [getD_range (h.bound t (by rw [hsplit]; exact List.mem_append_left _ ht))]

/-- The loop over the only group runs one Prim loop, for one query as well. -/
theorem mstOfGroup_range (hn : 0 < n_query) (hfin : FiniteDistances use_l2 query dim n_query) :
    ∃ (totals : MstTotals (Exact ℝ)) (steps : List (PrimStep (Exact ℝ))),
      Returns ([⟨List.range n_query, n_query⟩].foldlM (mstOfGroup query dim use_l2) ⟨[], 0, 0⟩)
        totals ∧
      Returns (primLoop n_query (groupDistance use_l2 query dim (List.range n_query))) steps ∧
      PrimSteps n_query (groupDistance use_l2 query dim (List.range n_query)) steps ∧
      steps.length = n_query ∧ totals.trajectory = steps.map PrimStep.entry := by
  obtain ⟨steps, hret, hsteps, hlen⟩ := primLoop_spec
    (d := groupDistance use_l2 query dim (List.range n_query)) hn fun i hi j hj hne => by
      rw [groupDistance, getD_range hi, getD_range hj]
      exact hfin i hi j hj hne
  by_cases hone : n_query = 1
  · subst hone
    have hgroup : Returns (mstOfGroup (D := Exact ℝ) query dim use_l2 ⟨[], 0, 0⟩ ⟨List.range 1, 1⟩)
        ⟨[(0, -1)], 0, 0⟩ := returns_pure _
    refine ⟨_, steps, foldlM_cons hgroup (foldlM_nil _ _), hret, hsteps, hlen, ?_⟩
    -- one step, the root
    have hroot := (hsteps.entries_eq (List.ne_nil_of_length_pos (by omega))).1
    obtain ⟨s, rfl⟩ := List.length_eq_one_iff.mp hlen
    rw [List.map_singleton, List.cons.injEq] at hroot
    rw [List.map_singleton, hroot.1]
  · have hgroup : Returns (mstOfGroup (D := Exact ℝ) query dim use_l2 ⟨[], 0, 0⟩
        ⟨List.range n_query, n_query⟩)
        ⟨[] ++ steps.map (PrimStep.toEntry (List.range n_query)),
          0 + widen (steps.foldl (fun weight s => weight + s.weight) 0), 0 + (n_query - 1)⟩ := by
      unfold mstOfGroup
      dsimp only
      rw [List.length_range, if_neg hone]
      exact hret.bind (returns_pure _)
    refine ⟨_, steps, foldlM_cons hgroup (foldlM_nil _ _), hret, hsteps, hlen, ?_⟩
    rw [List.nil_append, toEntry_range hsteps]

/-- `computeMSTs` on the single group of `split` returns the edges of `get_mst`, in their
order, below the root entry. -/
def AgreesWithLsh (Q : PriorityQueue GroupInfo) (query : ℤ → Exact ℝ) (n_query dim : ℕ)
    (use_l2 : Bool) (order : ℕ → List ℕ) (hyperplane : List (Exact ℝ)) (gen : Gen) : Prop :=
  ∃ (pq : Q.Heap) (r : (Trajectory × Exact ℝ) × Gen) (mst : Trajectory × Exact ℝ),
    Returns (split Q query hyperplane n_query dim 1) pq ∧
    Returns (computeMSTs Q query n_query dim use_l2 pq gen) r ∧
    Returns (getMst n_query dim query use_l2 order) mst ∧ r.1.1 = (0, -1) :: mst.1

/-- The loop of `computeMSTs` on the single group of `split` has built the edges of `get_mst`
below the root entry. -/
def BuildsTree (Q : PriorityQueue GroupInfo) (query : ℤ → Exact ℝ) (n_query dim : ℕ)
    (use_l2 : Bool) (order : ℕ → List ℕ) (hyperplane : List (Exact ℝ)) : Prop :=
  ∃ (pq : Q.Heap) (totals : MstTotals (Exact ℝ)) (mst : Trajectory × Exact ℝ),
    Returns (split Q query hyperplane n_query dim 1) pq ∧
    Returns ((Q.drain pq).foldlM (mstOfGroup query dim use_l2) ⟨[], 0, 0⟩) totals ∧
    Returns (getMst n_query dim query use_l2 order) mst ∧ totals.trajectory = (0, -1) :: mst.1

variable {Q : PriorityQueue GroupInfo} {order : ℕ → List ℕ} {hyperplane : List (Exact ℝ)}

/-- `computeMSTs` returns what its loop has built, where the sampling of the root weight that
follows ends. -/
theorem agreesWithLsh_iff_sampling (hn : 0 < n_query) {gen : Gen} :
    AgreesWithLsh Q query n_query dim use_l2 order hyperplane gen ↔
      BuildsTree Q query n_query dim use_l2 order hyperplane ∧ SamplesDistinct n_query 3000 gen := by
  rw [← getWeightForRoot_returns_iff (D := Exact ℝ) query hn dim gen 3000]
  constructor
  · rintro ⟨pq, r, mst, hsplit, hr, hmst, heq⟩
    obtain ⟨totals, htotals, hr⟩ := hr.of_bind
    obtain ⟨weight, hweight, hr⟩ := hr.of_bind
    obtain rfl := hr.of_pure
    exact ⟨⟨pq, totals, mst, hsplit, htotals, hmst, heq⟩, weight, hweight⟩
  · rintro ⟨⟨pq, totals, mst, hsplit, htotals, hmst, heq⟩, weight, hweight⟩
    exact ⟨pq, _, mst, hsplit, htotals.bind (hweight.bind (returns_pure _)), hmst, heq⟩

/-- The entries of the two Prim loops are what has to agree. -/
theorem buildsTree_iff (hn : 0 < n_query) (hfin : FiniteDistances use_l2 query dim n_query)
    (hcost : FiniteCosts (Exact ℝ) use_l2 query dim n_query) (horder : ParallelOrder n_query order) :
    BuildsTree Q query n_query dim use_l2 order hyperplane ↔
      ∃ steps, Returns (primLoop n_query (groupDistance use_l2 query dim (List.range n_query))) steps ∧
        PrimSteps n_query (groupDistance use_l2 query dim (List.range n_query)) steps ∧
        steps.length = n_query ∧ steps.map PrimStep.entry =
          (mstSteps (Exact ℝ) n_query dim query use_l2 order).map PrimStep.entry := by
  obtain ⟨totals, steps, htotals, hret, hsteps, hlen, htree⟩ := mstOfGroup_range hn hfin
  obtain ⟨hmstSteps, hmstLen⟩ := mstSteps_spec hcost horder
  have hentries := (hmstSteps.entries_eq (List.ne_nil_of_length_pos (hn.trans_eq hmstLen.symm))).1
  obtain ⟨pq, hsplit, hdrain⟩ := split_one Q query hyperplane n_query dim
  obtain ⟨avg, hmst⟩ := getMst_returns (D := Exact ℝ) hn dim query use_l2 order
  constructor
  · rintro ⟨pq', totals', mst, hsplit', htotals', hmst', heq⟩
    obtain rfl := hsplit'.unique hsplit
    rw [hdrain] at htotals'
    obtain rfl := htotals'.unique htotals
    obtain rfl := hmst'.unique hmst
    exact ⟨steps, hret, hsteps, hlen, by rw [← htree, heq, hentries]⟩
  · rintro ⟨steps', hret', -, -, heq⟩
    obtain rfl := hret'.unique hret
    exact ⟨pq, totals, _, hsplit, hdrain.symm ▸ htotals, hmst, by rw [htree, heq, hentries]⟩

/-- The distances are finite as `computeMSTs` reads them, and where the rows do not fit, as
`get_mst` reads them too. -/
structure FiniteAsRead (use_l2 : Bool) (query : ℤ → Exact ℝ) (dim n_query : ℕ) : Prop where
  distances : FiniteDistances use_l2 query dim n_query
  costs     : ¬ RowsFit n_query dim → FiniteCosts (Exact ℝ) use_l2 query dim n_query

theorem FiniteAsRead.finiteCosts (h : FiniteAsRead use_l2 query dim n_query) :
    FiniteCosts (Exact ℝ) use_l2 query dim n_query := by
  by_cases hfit : RowsFit n_query dim
  · exact (rescales_exact hfit h.distances).finite h.distances
  · exact h.costs hfit

theorem finiteAsRead_fin (x : ℤ → ℝ) (dim n_query : ℕ) :
    FiniteAsRead true (finMatrix x) dim n_query where
  distances := finiteDistances_fin true x dim n_query
  costs _ i _ j _ _ := by
    rw [mstCost_fin]
    exact fin_lt_infinity _

/-- **Where the rows fit**, or there is only one tree, the loop builds the edges of `get_mst`. -/
theorem buildsTree (hn : 0 < n_query) (hread : FiniteAsRead use_l2 query dim n_query)
    (hfit : n_query ≤ 2 ∨ RowsFit n_query dim) (horder : ParallelOrder n_query order) :
    BuildsTree Q query n_query dim use_l2 order hyperplane := by
  have hfin := hread.distances
  have hcost := hread.finiteCosts
  obtain ⟨totals, steps, -, hret, hsteps, hlen, -⟩ := mstOfGroup_range hn hfin
  exact (buildsTree_iff hn hfin hcost horder).mpr ⟨steps, hret, hsteps, hlen,
    primLoop_mstSteps hfin hcost hfit horder hret hsteps hlen⟩

-- ---------------------------------------------------------------------------
-- A row that is misread
-- ---------------------------------------------------------------------------

/-- A matrix whose row with the offset `2 ^ 31` is nearest to the first one, and a large value
before its start. -/
def misreadMatrix (dim : ℕ) : ℤ → ℤ := fun k =>
  if k = -2 ^ 31 then 3 * dim else if k < dim then 0 else if k / dim = 2 ^ 31 / dim then 1 else 2

section Misread

variable {n dim : ℕ}

/-- The value before the start apart, the matrix is small. -/
theorem misreadMatrix_small {k : ℤ} (hk : k ≠ -2 ^ 31) :
    0 ≤ misreadMatrix dim k ∧ misreadMatrix dim k ≤ 2 := by
  unfold misreadMatrix
  rw [if_neg hk]
  split
  · decide
  · split <;> decide

theorem misreadMatrix_first {pos : ℕ} (hpos : pos < dim) : misreadMatrix dim pos = 0 := by
  unfold misreadMatrix
  rw [if_neg (by omega), if_pos (by omega)]

theorem misreadMatrix_row {v pos : ℕ} (hv : v ≠ 0) (hpos : pos < dim) :
    misreadMatrix dim ↑(dim * v + pos) = if v = 2 ^ 31 / dim then 1 else 2 := by
  have hge : dim ≤ dim * v + pos :=
    (Nat.le_mul_of_pos_right dim (Nat.pos_of_ne_zero hv)).trans (Nat.le_add_right _ _)
  have hdiv : (dim * v + pos) / dim = v := by
    rw [Nat.mul_add_div (by omega), Nat.div_eq_of_lt hpos, Nat.add_zero]
  unfold misreadMatrix
  rw [if_neg (by omega), if_neg (by omega)]
  refine if_congr ?_ rfl rfl
  rw [show ((2 : ℤ) ^ 31 / dim) = ((2 ^ 31 / dim : ℕ) : ℤ) by push_cast; rfl,
    show ((dim * v + pos : ℕ) : ℤ) / dim = ((dim * v + pos) / dim : ℕ) from rfl, hdiv, Nat.cast_inj]

/-- `get_mst` finds the row nearest to the first one. -/
theorem misreadMatrix_nearest {v : ℕ} (hv : v ≠ 0) :
    squaredOf dim (matrixRow (fun k => (misreadMatrix dim k : ℝ)) dim 0)
        (matrixRow (fun k => (misreadMatrix dim k : ℝ)) dim v) =
      if v = 2 ^ 31 / dim then (dim : ℝ) else 4 * dim := by
  have hfirst : ∀ pos < dim, matrixRow (fun k => (misreadMatrix dim k : ℝ)) dim 0 pos = 0 := by
    intro pos hpos
    rw [matrixRow, Nat.mul_zero, Nat.zero_add, misreadMatrix_first hpos, Int.cast_zero]
  have hrow : ∀ pos < dim, matrixRow (fun k => (misreadMatrix dim k : ℝ)) dim v pos =
      if v = 2 ^ 31 / dim then 1 else 2 := by
    intro pos hpos
    rw [matrixRow, misreadMatrix_row hv hpos]
    split <;> norm_num
  rw [squaredOf_const hfirst hrow]
  split
  · norm_num
  · norm_num
    ring

/-- The first row is read where it lies. -/
theorem misreadMatrix_firstRead (hint : dim < 2 ^ 31) {pos : ℕ} (hpos : pos < dim) :
    columnAt (fun k => (misreadMatrix dim k : ℝ)) (intMul dim 0) pos = 0 := by
  rw [columnAt_intMul _ (by omega), Nat.mul_zero, Nat.zero_add, misreadMatrix_first hpos,
    Int.cast_zero]

/-- `computeMSTs` reads the value before the start in the row that is nearest. -/
theorem misreadMatrix_far (hdim : 0 < dim) (hint : dim < 2 ^ 31) :
    9 * (dim : ℝ) * dim ≤ exactSquared (fun k => (misreadMatrix dim k : ℝ)) dim 0 (2 ^ 31 / dim) := by
  have hpos := Nat.mod_lt (2 ^ 31) hdim
  have hone := mul_self_le_squaredOf hpos
    (columnAt (fun k => (misreadMatrix dim k : ℝ)) (intMul dim 0))
    (columnAt (fun k => (misreadMatrix dim k : ℝ)) (intMul dim (2 ^ 31 / dim)))
  rw [misreadMatrix_firstRead hint hpos, columnAt_wrapped] at hone
  refine le_trans (le_of_eq ?_) hone
  rw [misreadMatrix, if_pos rfl]
  push_cast
  ring

/-- Another row is nearer as it is read. -/
theorem misreadMatrix_other (hn : 3 ≤ n) (hover : ¬ RowsFit n dim) (hint : dim < 2 ^ 31) :
    ∃ o < n, o ≠ 0 ∧ exactSquared (fun k => (misreadMatrix dim k : ℝ)) dim 0 o ≤ 4 * dim := by
  obtain ⟨hdim, -, -⟩ := row_of_not_fit hover
  have hsmall : ∀ o, (∀ pos < dim, (dim * o + pos) % 2 ^ 32 ≠ 2 ^ 31) →
      exactSquared (fun k => (misreadMatrix dim k : ℝ)) dim 0 o ≤ 4 * dim := by
    intro o ho
    rw [mul_comm]
    refine squaredOf_le fun pos hpos => ?_
    rw [misreadMatrix_firstRead hint hpos, columnAt, intMul_add]
    obtain ⟨hge, hle⟩ := @misreadMatrix_small dim _ (toInt_ofNat_ne_min (ho pos hpos))
    have hge' : (0 : ℝ) ≤ misreadMatrix dim (Int32.ofNat (dim * o + pos)).toInt := by
      exact_mod_cast hge
    have hle' : (misreadMatrix dim (Int32.ofNat (dim * o + pos)).toInt : ℝ) ≤ 2 := by
      exact_mod_cast hle
    nlinarith
  rcases Nat.lt_or_ge (2 ^ 31 / dim) 2 with hlt | hge
  · -- the second row is misread, and the third one lies behind it
    have hlarge := (Nat.div_lt_iff_lt_mul hdim).mp hlt
    exact ⟨2, by omega, by decide, hsmall 2 fun pos hpos => by omega⟩
  · have hhalf := (Nat.le_div_iff_mul_le hdim).mp hge
    exact ⟨1, by omega, by decide, hsmall 1 fun pos hpos => by omega⟩

/-- **On that matrix** the two loops take different first edges. -/
theorem misreadMatrix_disagrees (Q : PriorityQueue GroupInfo) (hn : 3 ≤ n) (hover : ¬ RowsFit n dim)
    (hint : dim < 2 ^ 31) {order : ℕ → List ℕ} (horder : ParallelOrder n order)
    (hyperplane : List (Exact ℝ)) :
    ¬ BuildsTree Q (finMatrix fun k => (misreadMatrix dim k : ℝ)) n dim true order hyperplane := by
  obtain ⟨hdim, hrow, -⟩ := row_of_not_fit hover
  have hread := finiteAsRead_fin (fun k => (misreadMatrix dim k : ℝ)) dim n
  have hcost := hread.finiteCosts
  rw [buildsTree_iff (by omega) hread.distances hcost horder]
  rintro ⟨steps, hret, -, -, hsame⟩
  -- the first edge of `computeMSTs`
  have hgroup : groupDistance true (finMatrix fun k => (misreadMatrix dim k : ℝ)) dim (List.range n) =
      finWeight (localWeight (List.range n)
        (exactDistance true (fun k => (misreadMatrix dim k : ℝ)) dim)) := by
    funext i j
    exact metricDistance_fin true _ dim _ _
  rw [hgroup] at hret
  obtain ⟨s, rest, hentries, hs, hs0, hleast⟩ := primLoop_firstEdge (by omega) hret
  -- the first edge of `get_mst`
  have hmstCost : (mstCost true (finMatrix fun k => (misreadMatrix dim k : ℝ)) dim :
      ℕ → ℕ → Exact ℝ) = finWeight fun u j =>
        squaredOf dim (matrixRow (fun k => (misreadMatrix dim k : ℝ)) dim u)
          (matrixRow (fun k => (misreadMatrix dim k : ℝ)) dim j) := by
    funext u j
    exact mstCost_fin _ dim u j
  have hid : Rescales n (mstCost true (finMatrix fun k => (misreadMatrix dim k : ℝ)) dim)
      (mstCost true (finMatrix fun k => (misreadMatrix dim k : ℝ)) dim : ℕ → ℕ → Exact ℝ) id :=
    ⟨rfl, rfl, fun _ _ _ _ _ => rfl, fun _ _ _ _ => Iff.rfl⟩
  obtain ⟨steps', hret', -⟩ := primLoop_spec (show 0 < n by omega) hcost
  have hmst := mstSteps_rescale hid horder hret'
  rw [hmstCost] at hret'
  obtain ⟨s', rest', hentries', -, hs0', hleast'⟩ := primLoop_firstEdge (by omega) hret'
  obtain rfl : s = s' := by
    rw [hentries, hmst, hentries', List.cons.injEq, List.cons.injEq] at hsame
    exact Int.ofNat.inj (congrArg Prod.fst hsame.2.1)
  have hpos : (0 : ℝ) < dim := by exact_mod_cast hdim
  have hrow0 : 2 ^ 31 / dim ≠ 0 := (Nat.div_pos (by omega) hdim).ne'
  have hnearest : s = 2 ^ 31 / dim := by
    have hle := hleast' _ hrow hrow0
    rw [misreadMatrix_nearest hs0, misreadMatrix_nearest hrow0, if_pos rfl] at hle
    by_contra hne
    rw [if_neg hne] at hle
    linarith
  obtain ⟨o, ho, ho0, hother⟩ := misreadMatrix_other hn hover hint
  have hle := hleast o ho ho0
  rw [localWeight, localWeight, getD_range (by omega), getD_range hs, getD_range ho, hnearest] at hle
  have hfar := misreadMatrix_far hdim hint
  have hsquared := (Real.sqrt_le_sqrt_iff (squaredOf_nonneg dim _ _)).mp hle
  have hone : (1 : ℝ) ≤ dim := by exact_mod_cast hdim
  have hfinal := hfar.trans (hsquared.trans hother)
  nlinarith

end Misread

end Exact

-- ---------------------------------------------------------------------------
-- One query and three queries
-- ---------------------------------------------------------------------------

end Mqo
