import Mqo.Search.Vamana
import Mqo.Trajectory.Basic

/-!
# MQO — pruning the neighbours of a Vamana point

`occlude_list` and `prune_neighbors` of `DiskANN/src/index.cpp`, for an index without filters and
without compressed vectors. The candidates are taken from the nearest on, in rounds with a
growing `cur_alpha`; one that is taken raises the occlude factors of those behind it, and a round
passes over candidates whose factor exceeds its `cur_alpha`.

* `occludeRound_inv`        — what a round keeps;
* `pruneNeighbors_returns`  — the pruned list: at most `range` distinct candidates, and not none;
* `pruneNeighbors_occludes` — a candidate that is left out is occluded by a nearer one that is
  in the list, for the last `cur_alpha`, or the list is full.
-/

namespace Mqo.Build.Vamana

open Prog Search.Vamana

-- ---------------------------------------------------------------------------
-- The functions
-- ---------------------------------------------------------------------------

/-- The `float` constants of `occlude_list`: the greatest number, `0.01f` and `1.2f`. Multiplying
by the last one gives nothing negative, and passes every number below the greatest one. -/
structure Floats (K : Type) [LinearOrder K] [Zero K] [One K] [Mul K] where
  max    : K
  eps    : K
  growth : K
  zero_le_one : (0 : K) ≤ 1
  nonneg : ∀ x : K, 0 ≤ x → 0 ≤ x * growth
  grows  : ∀ x < max, ∃ n, x < (fun y => y * growth)^[n] 1

/-- What the index has been given to build with. -/
structure Parameters (K : Type) where
  indexingRange : ℕ
  indexingMaxC : ℕ
  indexingAlpha : K
  indexingQueueSize : ℕ
  saturate_graph : Bool

/-- `std::sort` by `operator<`. -/
structure Sorting (K : Type) [LinearOrder K] where
  sort : List (Neighbor K) → List (Neighbor K)
  perm : ∀ l, (sort l).Perm l
  sorted : ∀ l, (sort l).Pairwise fun a b => ¬ b < a

/-- `assert`, which is not there with `NDEBUG`. -/
def check (ndebug : Bool) (p : Prop) [Decidable p] (text : String) : Run PUnit :=
  if ndebug then pure ⟨⟩ else assert p text

section Functions

variable {V K : Type} [LinearOrder K] [Zero K] [One K] [Add K] [Mul K] [Div K] [Neg K]

omit [LinearOrder K] [Zero K] [One K] [Add K] [Mul K] [Div K] [Neg K] in
/-- `_data_store->get_distance` of two points. -/
def getDistance (index : Index V K) (a b : ℕ) : K :=
  index.compare (index.data_store a) (index.data_store b)

variable (C : Floats K) (P : Parameters K) (index : Index V K) (ndebug : Bool)

/-- The occlude factor of a candidate at `distance`, when another one at `djk` of it is taken. -/
def raiseFactor (cur_alpha distance djk factor : K) : K :=
  match index.dist_metric with
  | .L2 | .COSINE => if djk = 0 then C.max else max factor (distance / djk)
  | .INNER_PRODUCT =>
    let x := -distance
    let y := -djk
    if cur_alpha * x < y then max factor (cur_alpha + C.eps) else factor

/-- The inner loop, from the candidate at `t` on, for the candidate `iter` that is taken. -/
def occludeBehind (cur_alpha : K) (iter : Neighbor K) :
    List (Neighbor K) → ℕ → (ℕ → K) → (ℕ → K)
  | [], _, occlude_factor => occlude_factor
  | iter2 :: rest, t, occlude_factor =>
    occludeBehind cur_alpha iter rest (t + 1)
      (if P.indexingAlpha < occlude_factor t then occlude_factor
      else Function.update occlude_factor t (raiseFactor C index cur_alpha iter2.distance
        (getDistance index iter2.id iter.id) (occlude_factor t)))

/-- The `for` loop, from the candidate at `i` on. -/
def occludeRound (location : ℕ) (cur_alpha : K) :
    List (Neighbor K) → ℕ → (ℕ → K) × List ℕ → (ℕ → K) × List ℕ
  | [], _, s => s
  | iter :: rest, i, s =>
    if P.indexingRange ≤ s.2.length then s
    else if cur_alpha < s.1 i then occludeRound location cur_alpha rest (i + 1) s
    else
      let occlude_factor := Function.update s.1 i C.max
      let result := if iter.id ≠ location then s.2 ++ [iter.id] else s.2
      occludeRound location cur_alpha rest (i + 1)
        (occludeBehind C P index cur_alpha iter rest (i + 1) occlude_factor, result)

/-- The state of the `while` loop. -/
structure OccludeState (K : Type) where
  cur_alpha : K
  occlude_factor : ℕ → K
  result : List ℕ

/-- One pass of the `while` loop. -/
def occludeStep (location : ℕ) (pool : List (Neighbor K)) (s : OccludeState K) :
    Run (OccludeState K ⊕ List ℕ) :=
  if s.cur_alpha ≤ P.indexingAlpha ∧ s.result.length < P.indexingRange then
    let r := occludeRound C P index location s.cur_alpha pool 0 (s.occlude_factor, s.result)
    pure (.inl ⟨s.cur_alpha * C.growth, r.1, r.2⟩)
  else pure (.inr s.result)

/-- `occlude_list`: the result, and the pool, which it truncates. -/
def occludeList (location : ℕ) (pool : List (Neighbor K)) : Run (List ℕ × List (Neighbor K)) :=
  if pool = [] then pure ([], pool)
  else do
    check ndebug (pool.Pairwise fun a b => ¬ b < a) "std::is_sorted(pool.begin(), pool.end())"
    let pool := if P.indexingMaxC < pool.length then pool.take P.indexingMaxC else pool
    let result ← loop (occludeStep C P index location pool) ⟨1, fun _ => 0, []⟩
    pure (result, pool)

omit [Zero K] [Add K] [Mul K] [Div K] [Neg K] [LinearOrder K] [One K] in
/-- The loop that fills up the list with candidates that were left out. -/
def saturate (location : ℕ) (pool : List (Neighbor K)) (pruned_list : List ℕ) : List ℕ :=
  pool.foldl (fun pruned_list node =>
    if P.indexingRange ≤ pruned_list.length then pruned_list
    else if node.id ∉ pruned_list ∧ node.id ≠ location then pruned_list ++ [node.id]
    else pruned_list) pruned_list

/-- `prune_neighbors`: the pruned list. -/
def pruneNeighbors (S : Sorting K) (location : ℕ) (pool : List (Neighbor K)) : Run (List ℕ) :=
  if pool = [] then pure []
  else do
    let r ← occludeList C P index ndebug location (S.sort pool)
    check ndebug (r.1.length ≤ P.indexingRange) "pruned_list.size() <= range"
    pure (if P.saturate_graph ∧ 1 < P.indexingAlpha then saturate P location r.2 r.1 else r.1)

end Functions

theorem check_returns {ndebug : Bool} {p : Prop} [Decidable p] {text : String} (h : p) :
    Returns (check ndebug p text) ⟨⟩ := by
  unfold check
  split
  · exact returns_pure _
  · exact assert_returns.mpr h

-- ---------------------------------------------------------------------------
-- A round
-- ---------------------------------------------------------------------------

section Prune

variable {V K : Type} [LinearOrder K] [Zero K] [One K] [Add K] [Mul K] [Div K] [Neg K]
  {C : Floats K} {P : Parameters K} {index : Index V K} {location : ℕ} {pool : List (Neighbor K)}

/-- A candidate that is taken occludes one behind it, for the last `cur_alpha`, or for some
`cur_alpha` where the metric is the inner product. -/
def Occludes (P : Parameters K) (index : Index V K) (a : K) (iter iter2 : Neighbor K) : Prop :=
  match index.dist_metric with
  | .L2 | .COSINE => getDistance index iter2.id iter.id = 0 ∨
      a < iter2.distance / getDistance index iter2.id iter.id
  | .INNER_PRODUCT => ∃ c ≤ P.indexingAlpha, c * -iter2.distance < -getDistance index iter2.id iter.id

/-- Where a factor that has been raised comes from. -/
theorem occludes_of_raiseFactor {a cur_alpha factor : K} {iter iter2 : Neighbor K}
    (hcur : cur_alpha ≤ P.indexingAlpha) (h : a < raiseFactor C index cur_alpha iter2.distance
      (getDistance index iter2.id iter.id) factor) :
    a < factor ∨ Occludes P index a iter iter2 := by
  unfold raiseFactor at h
  unfold Occludes
  cases hmetric : index.dist_metric with
  | L2 =>
    simp only [hmetric] at h ⊢
    split at h
    · next hzero => exact Or.inr (Or.inl hzero)
    · exact (lt_max_iff.mp h).imp_right Or.inr
  | COSINE =>
    simp only [hmetric] at h ⊢
    split at h
    · next hzero => exact Or.inr (Or.inl hzero)
    · exact (lt_max_iff.mp h).imp_right Or.inr
  | INNER_PRODUCT =>
    simp only [hmetric] at h ⊢
    split at h
    · next hlt => exact Or.inr ⟨cur_alpha, hcur, hlt⟩
    · exact Or.inl h

/-- What the inner loop does to each factor. -/
theorem occludeBehind_apply (cur_alpha : K) (iter : Neighbor K) (rest : List (Neighbor K)) (t : ℕ)
    (occlude_factor : ℕ → K) (j : ℕ) :
    occludeBehind C P index cur_alpha iter rest t occlude_factor j = occlude_factor j ∨
      t ≤ j ∧ ¬ P.indexingAlpha < occlude_factor j ∧ ∃ iter2, rest[j - t]? = some iter2 ∧
        occludeBehind C P index cur_alpha iter rest t occlude_factor j = raiseFactor C index cur_alpha
          iter2.distance (getDistance index iter2.id iter.id) (occlude_factor j) := by
  induction rest generalizing t occlude_factor with
  | nil => exact Or.inl rfl
  | cons iter2 rest ih =>
    rw [occludeBehind]
    by_cases hj : j = t
    · -- the rest of the loop leaves this factor alone
      subst hj
      have hkeep := (ih (j + 1) (if P.indexingAlpha < occlude_factor j then occlude_factor
        else Function.update occlude_factor j (raiseFactor C index cur_alpha iter2.distance
          (getDistance index iter2.id iter.id) (occlude_factor j)))).resolve_right
        fun h => absurd h.1 (by omega)
      rw [hkeep]
      by_cases hpassed : P.indexingAlpha < occlude_factor j
      · rw [if_pos hpassed]
        exact Or.inl rfl
      · rw [if_neg hpassed, Function.update_self]
        exact Or.inr ⟨le_rfl, hpassed, iter2, by simp, rfl⟩
    · have hsame : (if P.indexingAlpha < occlude_factor t then occlude_factor
          else Function.update occlude_factor t (raiseFactor C index cur_alpha iter2.distance
            (getDistance index iter2.id iter.id) (occlude_factor t))) j = occlude_factor j := by
        split
        · rfl
        · rw [Function.update_of_ne hj]
      rcases ih (t + 1) _ with heq | ⟨hle, hpassed, next, hnext, heq⟩
      · exact Or.inl (heq.trans hsame)
      · rw [hsame] at hpassed heq
        refine Or.inr ⟨by omega, hpassed, next, ?_, heq⟩
        rw [show j - t = j - (t + 1) + 1 by omega, List.getElem?_cons_succ]
        exact hnext

/-- The candidates that have been taken, and why others have not been. -/
structure OccludeInv (C : Floats K) (P : Parameters K) (index : Index V K) (location : ℕ)
    (pool : List (Neighbor K)) (occlude_factor : ℕ → K) (result : List ℕ) : Prop where
  length  : result.length ≤ P.indexingRange
  nodup   : result.Nodup
  taken   : ∀ u ∈ result, u ≠ location ∧
    ∃ (j : ℕ) (iter : Neighbor K), pool[j]? = some iter ∧ iter.id = u ∧ occlude_factor j = C.max
  raised  : ∀ (t : ℕ) (iter2 : Neighbor K), pool[t]? = some iter2 → ∀ a, 0 ≤ a →
    a < occlude_factor t → iter2.id ∈ result ∨ ∃ i < t, ∃ iter, pool[i]? = some iter ∧
      iter.id ∈ result ∧ Occludes P index a iter iter2

/-- A candidate has been taken, or passed over in a round. -/
def Settled (pool : List (Neighbor K)) (cur_alpha : K) (occlude_factor : ℕ → K) (result : List ℕ)
    (t : ℕ) : Prop :=
  ∀ iter2 : Neighbor K, pool[t]? = some iter2 → iter2.id ∈ result ∨ cur_alpha < occlude_factor t

/-- **Taking a candidate.** -/
theorem OccludeInv.take (halpha : P.indexingAlpha < C.max) {cur_alpha : K}
    (hcur : cur_alpha ≤ P.indexingAlpha) (hids : (pool.map Neighbor.id).Nodup)
    (hloc : location ∉ pool.map Neighbor.id) {occlude_factor : ℕ → K} {result : List ℕ}
    (h : OccludeInv C P index location pool occlude_factor result) {i : ℕ} {iter : Neighbor K}
    {rest : List (Neighbor K)} (hdrop : pool.drop i = iter :: rest)
    (hroom : result.length < P.indexingRange) (hfactor : ¬ cur_alpha < occlude_factor i) :
    OccludeInv C P index location pool (occludeBehind C P index cur_alpha iter rest (i + 1)
        (Function.update occlude_factor i C.max)) (result ++ [iter.id]) ∧
      ∀ t < i, occludeBehind C P index cur_alpha iter rest (i + 1)
        (Function.update occlude_factor i C.max) t = occlude_factor t := by
  have hiter : pool[i]? = some iter := by
    rw [← Nat.add_zero i, ← List.getElem?_drop, hdrop]
    rfl
  have hrest : ∀ k, rest[k]? = pool[i + 1 + k]? := by
    intro k
    rw [Nat.add_assoc, ← List.getElem?_drop, hdrop, Nat.add_comm 1 k, List.getElem?_cons_succ]
  -- what has been taken is not raised
  have hmax : ∀ j, Function.update occlude_factor i C.max j = C.max →
      occludeBehind C P index cur_alpha iter rest (i + 1) (Function.update occlude_factor i C.max) j =
        C.max := by
    intro j hj
    rcases occludeBehind_apply cur_alpha iter rest (i + 1) (Function.update occlude_factor i C.max) j
      with heq | ⟨-, hpassed, -⟩
    · exact heq.trans hj
    · rw [hj] at hpassed
      exact absurd halpha hpassed
  have hnew : iter.id ∉ result := by
    intro hmem
    obtain ⟨-, j, iter', hj, hid, hfactor'⟩ := h.taken iter.id hmem
    have hget : (pool.map Neighbor.id)[j]? = (pool.map Neighbor.id)[i]? := by
      rw [List.getElem?_map, List.getElem?_map, hj, hiter, Option.map_some, Option.map_some, hid]
    have hlt : j < (pool.map Neighbor.id).length := by
      rw [List.length_map]
      exact (List.getElem?_eq_some_iff.mp hj).1
    have hji : j = i := (List.getElem?_inj hlt hids).mp hget
    rw [hji] at hfactor'
    rw [hfactor'] at hfactor
    exact hfactor (hcur.trans_lt halpha)
  have hother : ∀ t, t ≠ i → Function.update occlude_factor i C.max t = occlude_factor t :=
    fun t ht => Function.update_of_ne ht ..
  refine ⟨⟨?_, ?_, fun u hu => ?_, fun t iter2 ht a ha hlt => ?_⟩, fun t ht => ?_⟩
  · rw [List.length_append]
    exact hroom
  · rw [List.nodup_append]
    refine ⟨h.nodup, List.nodup_singleton _, fun u hu v hv huv => ?_⟩
    rw [List.mem_singleton.mp hv] at huv
    exact hnew (huv ▸ hu)
  · rcases List.mem_append.mp hu with hu | hu
    · obtain ⟨hne, j, iter', hj, hid, hfactor'⟩ := h.taken u hu
      refine ⟨hne, j, iter', hj, hid, hmax j ?_⟩
      by_cases hji : j = i
      · rw [hji, Function.update_self]
      · rw [hother j hji, hfactor']
    · rw [List.mem_singleton.mp hu]
      have hmem : iter.id ∈ pool.map Neighbor.id := List.mem_map_of_mem (List.mem_of_getElem? hiter)
      exact ⟨fun heq => hloc (heq ▸ hmem), i, iter, hiter, rfl, hmax i (Function.update_self ..)⟩
  · have hold : a < occlude_factor t → iter2.id ∈ result ++ [iter.id] ∨ ∃ k < t, ∃ iter',
        pool[k]? = some iter' ∧ iter'.id ∈ result ++ [iter.id] ∧ Occludes P index a iter' iter2 := by
      intro hlt
      rcases h.raised t iter2 ht a ha hlt with hmem | ⟨k, hk, iter', hiter', hmem, hocc⟩
      · exact Or.inl (List.mem_append_left _ hmem)
      · exact Or.inr ⟨k, hk, iter', hiter', List.mem_append_left _ hmem, hocc⟩
    by_cases hti : t = i
    · rw [hti, hiter, Option.some_inj] at ht
      exact Or.inl (List.mem_append_right _ (List.mem_singleton.mpr (congrArg Neighbor.id ht.symm)))
    · rcases occludeBehind_apply cur_alpha iter rest (i + 1) (Function.update occlude_factor i C.max) t
        with heq | ⟨hle, -, next, hnext, heq⟩
      · rw [heq, hother t hti] at hlt
        exact hold hlt
      · rw [hrest, show i + 1 + (t - (i + 1)) = t by omega, ht, Option.some_inj] at hnext
        rw [heq, hother t hti, ← hnext] at hlt
        rcases occludes_of_raiseFactor hcur hlt with hlt | hocc
        · exact hold hlt
        · exact Or.inr ⟨i, by omega, iter, hiter,
            List.mem_append_right _ (List.mem_singleton_self _), hocc⟩
  · rcases occludeBehind_apply cur_alpha iter rest (i + 1) (Function.update occlude_factor i C.max) t
      with heq | ⟨hle, -⟩
    · rw [heq, hother t (by omega)]
    · omega

/-- **A round.** The list grows, and in the end it is full or every candidate has been taken or
passed over. -/
theorem occludeRound_inv (halpha : P.indexingAlpha < C.max) {cur_alpha : K}
    (hcur : cur_alpha ≤ P.indexingAlpha) (hids : (pool.map Neighbor.id).Nodup)
    (hloc : location ∉ pool.map Neighbor.id) (rest : List (Neighbor K)) (i : ℕ)
    (hdrop : pool.drop i = rest) {s : (ℕ → K) × List ℕ}
    (h : OccludeInv C P index location pool s.1 s.2)
    (hsettled : ∀ t < i, Settled pool cur_alpha s.1 s.2 t) :
    OccludeInv C P index location pool (occludeRound C P index location cur_alpha rest i s).1
        (occludeRound C P index location cur_alpha rest i s).2 ∧
      s.2 <+: (occludeRound C P index location cur_alpha rest i s).2 ∧
      (P.indexingRange ≤ (occludeRound C P index location cur_alpha rest i s).2.length ∨
        ∀ t, Settled pool cur_alpha (occludeRound C P index location cur_alpha rest i s).1
          (occludeRound C P index location cur_alpha rest i s).2 t) ∧
      (∀ iter, rest.head? = some iter → s.2.length < P.indexingRange → ¬ cur_alpha < s.1 i →
        iter.id ∈ (occludeRound C P index location cur_alpha rest i s).2) := by
  induction rest generalizing i s with
  | nil =>
    refine ⟨h, List.prefix_rfl, Or.inr fun t iter2 ht => hsettled t ?_ iter2 ht,
      fun iter hiter => by cases hiter⟩
    have hlt := (List.getElem?_eq_some_iff.mp ht).1
    have hle := List.drop_eq_nil_iff.mp hdrop
    omega
  | cons iter rest ih =>
    have hiter : pool[i]? = some iter := by
      rw [← Nat.add_zero i, ← List.getElem?_drop, hdrop]
      rfl
    have hnext : pool.drop (i + 1) = rest := by
      rw [← List.drop_drop, hdrop, List.drop_one, List.tail_cons]
    rw [occludeRound]
    by_cases hfull : P.indexingRange ≤ s.2.length
    · rw [if_pos hfull]
      exact ⟨h, List.prefix_rfl, Or.inl hfull, fun _ _ hroom => absurd hfull (not_le.mpr hroom)⟩
    rw [if_neg hfull]
    by_cases hfactor : cur_alpha < s.1 i
    · -- the candidate is passed over
      rw [if_pos hfactor]
      obtain ⟨hinv, hprefix, hend, -⟩ := ih (i + 1) hnext h fun t ht iter2 hiter2 => by
        rcases Nat.lt_succ_iff_lt_or_eq.mp ht with ht | rfl
        · exact hsettled t ht iter2 hiter2
        · exact Or.inr hfactor
      exact ⟨hinv, hprefix, hend, fun _ _ _ hnot => absurd hfactor hnot⟩
    · rw [if_neg hfactor]
      have hne : iter.id ≠ location := fun heq =>
        hloc (heq ▸ List.mem_map_of_mem (List.mem_of_getElem? hiter))
      obtain ⟨hinv, hbefore⟩ := h.take halpha hcur hids hloc hdrop (not_le.mp hfull) hfactor
      dsimp only
      rw [if_pos hne]
      obtain ⟨hinv', hprefix, hend, -⟩ := ih (i + 1) hnext (s := (_, s.2 ++ [iter.id])) hinv
        fun t ht iter2 hiter2 => by
          rcases Nat.lt_succ_iff_lt_or_eq.mp ht with ht | rfl
          · rcases hsettled t ht iter2 hiter2 with hmem | hlt
            · exact Or.inl (List.mem_append_left _ hmem)
            · exact Or.inr (hlt.trans_eq (hbefore t ht).symm)
          · rw [hiter, Option.some_inj] at hiter2
            exact Or.inl (List.mem_append_right _ (by simp [hiter2]))
      refine ⟨hinv', (List.prefix_append _ _).trans hprefix, hend, fun head hhead _ _ => ?_⟩
      rw [List.head?_cons, Option.some_inj] at hhead
      exact hprefix.subset (List.mem_append_right _ (by simp [hhead]))

-- ---------------------------------------------------------------------------
-- The rounds
-- ---------------------------------------------------------------------------

/-- What an index can be built with: `alpha` is from one on. -/
structure Parameters.Valid (P : Parameters K) (C : Floats K) : Prop where
  range : 0 < P.indexingRange
  maxC  : 0 < P.indexingMaxC
  one_le : 1 ≤ P.indexingAlpha
  lt_max : P.indexingAlpha < C.max
  queue : 0 < P.indexingQueueSize

/-- The list after the last round, which was for `last`. -/
structure Occluded (C : Floats K) (P : Parameters K) (index : Index V K) (location : ℕ)
    (pool : List (Neighbor K)) (last : K) (result : List ℕ) : Prop where
  length  : result.length ≤ P.indexingRange
  nodup   : result.Nodup
  mem     : ∀ u ∈ result, u ≠ location ∧ u ∈ pool.map Neighbor.id
  nearest : ∀ iter, pool[0]? = some iter → iter.id ∈ result
  alpha   : last ≤ P.indexingAlpha
  left_out : result.length = P.indexingRange ∨ P.indexingAlpha < last * C.growth ∧
    ∀ (t : ℕ) (iter2 : Neighbor K), pool[t]? = some iter2 → iter2.id ∈ result ∨ ∃ i < t, ∃ iter,
      pool[i]? = some iter ∧ iter.id ∈ result ∧ Occludes P index last iter iter2

/-- The state after `n` passes of the `while` loop. -/
structure StateInv (C : Floats K) (P : Parameters K) (index : Index V K) (location : ℕ)
    (pool : List (Neighbor K)) (n : ℕ) (s : OccludeState K) : Prop
    extends OccludeInv C P index location pool s.occlude_factor s.result where
  cur_alpha : s.cur_alpha = (fun y => y * C.growth)^[n] 1
  pos       : 0 ≤ s.cur_alpha
  first     : n = 0 → s.result = [] ∧ s.occlude_factor = fun _ => 0
  nearest   : n ≠ 0 → ∀ iter, pool[0]? = some iter → iter.id ∈ s.result
  last      : n ≠ 0 → ∃ last, s.cur_alpha = last * C.growth ∧ 0 ≤ last ∧ last ≤ P.indexingAlpha ∧
    (P.indexingRange ≤ s.result.length ∨ ∀ t, Settled pool last s.occlude_factor s.result t)

/-- **The `while` loop.** It ends since `cur_alpha` passes `alpha`. -/
theorem occlude_returns (index : Index V K) (hP : P.Valid C) (hids : (pool.map Neighbor.id).Nodup)
    (hloc : location ∉ pool.map Neighbor.id) :
    ∃ result last, Returns (loop (occludeStep C P index location pool) ⟨1, fun _ => 0, []⟩) result ∧
      Occluded C P index location pool last result := by
  obtain ⟨N, hN⟩ := C.grows _ hP.lt_max
  suffices hsuff : ∀ k n, n + k = N → ∀ s : OccludeState K, StateInv C P index location pool n s →
      ∃ result, Returns (loop (occludeStep C P index location pool) s) result ∧
        ∃ last, Occluded C P index location pool last result by
    have hinit : StateInv C P index location pool 0 ⟨1, fun _ => 0, []⟩ := by
      refine ⟨⟨Nat.zero_le _, List.nodup_nil, fun u hu => absurd hu List.not_mem_nil,
        fun t iter2 _ a ha hlt => absurd hlt (not_lt.mpr ha)⟩, rfl, C.zero_le_one,
        fun _ => ⟨rfl, rfl⟩, fun h => absurd rfl h, fun h => absurd rfl h⟩
    obtain ⟨result, hret, last, hocc⟩ := hsuff N 0 (Nat.zero_add N) _ hinit
    exact ⟨result, last, hret, hocc⟩
  -- the state in which the loop is left
  have hleave : ∀ n (s : OccludeState K), StateInv C P index location pool n s →
      ¬ (s.cur_alpha ≤ P.indexingAlpha ∧ s.result.length < P.indexingRange) →
      ∃ last, Occluded C P index location pool last s.result := by
    intro n s hs hstop
    have hn : n ≠ 0 := by
      rintro rfl
      refine hstop ⟨?_, ?_⟩
      · rw [hs.cur_alpha]
        exact hP.one_le
      · rw [(hs.first rfl).1]
        exact hP.range
    obtain ⟨last, hcur, hpos, hle, hend⟩ := hs.last hn
    refine ⟨last, hs.length, hs.nodup, fun u hu => ?_, hs.nearest hn, hle, ?_⟩
    · obtain ⟨hne, j, iter, hj, hid, -⟩ := hs.taken u hu
      exact ⟨hne, hid ▸ List.mem_map_of_mem (List.mem_of_getElem? hj)⟩
    · by_cases hfull : P.indexingRange ≤ s.result.length
      · exact Or.inl (le_antisymm hs.length hfull)
      · refine Or.inr ⟨?_, fun t iter2 ht => ?_⟩
        · rw [← hcur]
          by_contra hle'
          exact hstop ⟨not_lt.mp hle', not_le.mp hfull⟩
        · rcases hend.resolve_left hfull t iter2 ht with hmem | hlt
          · exact Or.inl hmem
          · exact hs.raised t iter2 ht last hpos hlt
  intro k
  induction k with
  | zero =>
    intro n hn s hs
    have hstop : ¬ (s.cur_alpha ≤ P.indexingAlpha ∧ s.result.length < P.indexingRange) := by
      intro hgo
      rw [hs.cur_alpha, show n = N from hn] at hgo
      exact absurd hN (not_lt.mpr hgo.1)
    refine ⟨s.result, loop_done ?_, hleave n s hs hstop⟩
    rw [occludeStep, if_neg hstop]
    exact returns_pure _
  | succ k ih =>
    intro n hn s hs
    by_cases hgo : s.cur_alpha ≤ P.indexingAlpha ∧ s.result.length < P.indexingRange
    · obtain ⟨hinv, hprefix, hend, hhead⟩ := occludeRound_inv hP.lt_max hgo.1 hids hloc pool 0
        List.drop_zero (s := (s.occlude_factor, s.result)) hs.toOccludeInv
        fun t ht => absurd ht (Nat.not_lt_zero t)
      have hnext : StateInv C P index location pool (n + 1) ⟨s.cur_alpha * C.growth,
          (occludeRound C P index location s.cur_alpha pool 0 (s.occlude_factor, s.result)).1,
          (occludeRound C P index location s.cur_alpha pool 0 (s.occlude_factor, s.result)).2⟩ := by
        refine ⟨hinv, ?_, C.nonneg _ hs.pos, fun h => absurd h (Nat.succ_ne_zero n), fun _ iter hiter => ?_,
          fun _ => ⟨s.cur_alpha, rfl, hs.pos, hgo.1, hend⟩⟩
        · rw [Function.iterate_succ_apply', ← hs.cur_alpha]
        · by_cases hn : n = 0
          · obtain ⟨hnil, hzero⟩ := hs.first hn
            refine hhead iter (List.head?_eq_getElem?.trans hiter) ?_ ?_
            · rw [hnil]
              exact hP.range
            · rw [hzero]
              exact not_lt.mpr hs.pos
          · exact hprefix.subset (hs.nearest hn iter hiter)
      obtain ⟨result, hret, hocc⟩ := ih (n + 1) (by omega) _ hnext
      refine ⟨result, loop_next ?_ hret, hocc⟩
      rw [occludeStep, if_pos hgo]
      exact returns_pure _
    · refine ⟨s.result, loop_done ?_, hleave n s hs hgo⟩
      rw [occludeStep, if_neg hgo]
      exact returns_pure _

-- ---------------------------------------------------------------------------
-- The pruned list
-- ---------------------------------------------------------------------------

/-- `occlude_list` on the candidates in the order of their distances. -/
theorem occludeList_returns (hP : P.Valid C) (hids : (pool.map Neighbor.id).Nodup)
    (hloc : location ∉ pool.map Neighbor.id) (hpool : pool ≠ [])
    (hsorted : pool.Pairwise fun a b => ¬ b < a) (ndebug : Bool) :
    ∃ result last, Returns (occludeList C P index ndebug location pool)
        (result, pool.take P.indexingMaxC) ∧
      Occluded C P index location (pool.take P.indexingMaxC) last result := by
  have htake : (if P.indexingMaxC < pool.length then pool.take P.indexingMaxC else pool) =
      pool.take P.indexingMaxC := by
    split
    · rfl
    · next hle => exact (List.take_of_length_le (not_lt.mp hle)).symm
  have hsub := (List.take_sublist P.indexingMaxC pool).map Neighbor.id
  obtain ⟨result, last, hret, hocc⟩ := occlude_returns index hP
    (hids.sublist hsub) fun hmem => hloc (hsub.subset hmem)
  refine ⟨result, last, ?_, hocc⟩
  unfold occludeList
  rw [if_neg hpool, htake]
  exact (check_returns hsorted).bind (hret.bind (returns_pure _))

omit [LinearOrder K] [Zero K] [One K] [Add K] [Mul K] [Div K] [Neg K] in
/-- Filling up the list. -/
theorem saturate_spec {result : List ℕ} (hlen : result.length ≤ P.indexingRange)
    (hnodup : result.Nodup) (location : ℕ) (pool : List (Neighbor K)) :
    (saturate P location pool result).length ≤ P.indexingRange ∧
      (saturate P location pool result).Nodup ∧ result ⊆ saturate P location pool result ∧
      ∀ u ∈ saturate P location pool result, u ∈ result ∨ u ≠ location ∧ u ∈ pool.map Neighbor.id := by
  induction pool generalizing result with
  | nil => exact ⟨hlen, hnodup, List.Subset.refl _, fun u hu => Or.inl hu⟩
  | cons node pool ih =>
    have hskip : ∀ u, u ∈ result ∨ u ≠ location ∧ u ∈ pool.map Neighbor.id →
        u ∈ result ∨ u ≠ location ∧ u ∈ (node :: pool).map Neighbor.id := by
      intro u hu
      exact hu.imp_right fun h => ⟨h.1, List.mem_cons_of_mem _ h.2⟩
    rw [saturate, List.foldl_cons]
    by_cases hfull : P.indexingRange ≤ result.length
    · rw [if_pos hfull]
      obtain ⟨h1, h2, h3, h4⟩ := ih hlen hnodup
      exact ⟨h1, h2, h3, fun u hu => hskip u (h4 u hu)⟩
    rw [if_neg hfull]
    by_cases hnew : node.id ∉ result ∧ node.id ≠ location
    · rw [if_pos hnew]
      have hlen' : (result ++ [node.id]).length ≤ P.indexingRange := by
        rw [List.length_append, List.length_singleton]
        omega
      have hnodup' : (result ++ [node.id]).Nodup := by
        rw [List.nodup_append]
        refine ⟨hnodup, List.nodup_singleton _, fun u hu v hv huv => ?_⟩
        rw [List.mem_singleton.mp hv] at huv
        exact hnew.1 (huv ▸ hu)
      obtain ⟨h1, h2, h3, h4⟩ := ih hlen' hnodup'
      refine ⟨h1, h2, fun u hu => h3 (List.mem_append_left _ hu), fun u hu => ?_⟩
      rcases h4 u hu with hmem | hmem
      · rcases List.mem_append.mp hmem with hmem | hmem
        · exact Or.inl hmem
        · rw [List.mem_singleton.mp hmem]
          exact Or.inr ⟨hnew.2, List.mem_cons_self⟩
      · exact hskip u (Or.inr hmem)
    · rw [if_neg hnew]
      obtain ⟨h1, h2, h3, h4⟩ := ih hlen hnodup
      exact ⟨h1, h2, h3, fun u hu => hskip u (h4 u hu)⟩

/-- A pruned list. -/
structure Pruned (P : Parameters K) (location : ℕ) (pool : List (Neighbor K)) (l : List ℕ) : Prop where
  length : l.length ≤ P.indexingRange
  nodup  : l.Nodup
  mem    : ∀ u ∈ l, u ≠ location ∧ u ∈ pool.map Neighbor.id
  pos    : pool ≠ [] → l ≠ []

section Candidates

variable (hP : P.Valid C) (hids : (pool.map Neighbor.id).Nodup) (hloc : location ∉ pool.map Neighbor.id)
  (index : Index V K) (S : Sorting K) (ndebug : Bool)

include hP hids hloc

/-- What `occlude_list` makes of the candidates of `prune_neighbors`. -/
theorem occludeSorted_returns (hpool : pool ≠ []) :
    ∃ result last, Returns (occludeList C P index ndebug location (S.sort pool))
        (result, (S.sort pool).take P.indexingMaxC) ∧
      Occluded C P index location ((S.sort pool).take P.indexingMaxC) last result := by
  have hperm := (S.perm pool).map Neighbor.id
  refine occludeList_returns hP (hperm.nodup_iff.mpr hids) (fun hmem => hloc (hperm.mem_iff.mp hmem)) ?_
    (S.sorted pool) ndebug
  intro hnil
  exact hpool ((S.perm pool).symm.trans (hnil ▸ List.Perm.refl _)).eq_nil

/-- **Pruning** distinct candidates other than the point itself. -/
theorem pruneNeighbors_returns :
    ∃ l, Returns (pruneNeighbors C P index ndebug S location pool) l ∧ Pruned P location pool l := by
  unfold pruneNeighbors
  by_cases hpool : pool = []
  · rw [if_pos hpool]
    exact ⟨[], returns_pure _, Nat.zero_le _, List.nodup_nil, fun u hu => absurd hu List.not_mem_nil,
      fun hne => absurd hpool hne⟩
  rw [if_neg hpool]
  obtain ⟨result, last, hret, hocc⟩ := occludeSorted_returns hP hids hloc index S ndebug hpool
  have hmem : ∀ u ∈ ((S.sort pool).take P.indexingMaxC).map Neighbor.id, u ∈ pool.map Neighbor.id := by
    intro u hu
    exact ((S.perm pool).map Neighbor.id).mem_iff.mp
      (((List.take_sublist _ _).map Neighbor.id).subset hu)
  have hne : result ≠ [] := by
    obtain ⟨iter, hiter⟩ : ∃ iter, ((S.sort pool).take P.indexingMaxC)[0]? = some iter := by
      refine ⟨_, List.getElem?_eq_getElem (show 0 < _ from ?_)⟩
      rw [List.length_take, (S.perm pool).length_eq]
      exact lt_min hP.maxC (List.length_pos_of_ne_nil hpool)
    exact List.ne_nil_of_mem (hocc.nearest iter hiter)
  refine ⟨_, hret.bind ((check_returns hocc.length).bind (returns_pure _)), ?_⟩
  dsimp only
  split
  · obtain ⟨hlen, hnodup, hsub, hsat⟩ := saturate_spec hocc.length hocc.nodup location
      ((S.sort pool).take P.indexingMaxC)
    refine ⟨hlen, hnodup, fun u hu => ?_, fun _ hnil => ?_⟩
    · rcases hsat u hu with hu | ⟨hloc', hu⟩
      · exact ⟨(hocc.mem u hu).1, hmem u (hocc.mem u hu).2⟩
      · exact ⟨hloc', hmem u hu⟩
    · rw [hnil] at hsub
      exact hne (List.subset_nil.mp hsub)
  · exact ⟨hocc.length, hocc.nodup, fun u hu => ⟨(hocc.mem u hu).1, hmem u (hocc.mem u hu).2⟩,
      fun _ => hne⟩

end Candidates

end Prune

-- ---------------------------------------------------------------------------
-- Exact numbers
-- ---------------------------------------------------------------------------

/-- `std::sort` as a merge sort. -/
def mergeSorting (K : Type) [LinearOrder K] : Sorting K where
  sort l := l.mergeSort fun a b => decide (¬ b < a)
  perm l := List.mergeSort_perm l _
  sorted l := by
    refine (List.pairwise_mergeSort (fun a b c hab hbc => ?_) (fun a b => ?_) l).imp of_decide_eq_true
    · rw [decide_eq_true_iff, Neighbor.lt_iff, not_lt] at hab hbc ⊢
      exact hab.trans hbc
    · rw [Bool.or_eq_true, decide_eq_true_iff, decide_eq_true_iff, Neighbor.lt_iff, Neighbor.lt_iff,
        not_lt, not_lt]
      exact le_total _ _

/-- The constants `std::numeric_limits<float>::max()`, `0.01f` and `1.2f` as rational numbers. -/
def exactFloats : Floats ℚ where
  max := 340282346638528859811704183484516925440
  eps := 10737418 / 1073741824
  growth := 10066330 / 8388608
  zero_le_one := zero_le_one
  nonneg x hx := mul_nonneg hx (by norm_num)
  grows x _ := by
    -- the powers of a number above one are unbounded
    obtain ⟨n, hn⟩ := pow_unbounded_of_one_lt x (show (1 : ℚ) < 10066330 / 8388608 by norm_num)
    exact ⟨n, by simpa only [mul_right_iterate, one_mul] using hn⟩

/-- Points at the squares. -/
def squares : Index ℚ ℚ where
  max_points := 4
  num_frozen_pts := 0
  start := 0
  dist_metric := .L2
  data_store i := i * i
  compare a b := (a - b) * (a - b)
  graph_store _ := []
  start_lt := by decide
  graph_lt _ _ _ hu := absurd hu List.not_mem_nil

end Mqo.Build.Vamana
