import Mathlib.Data.Finset.Range
import Mqo.Trajectory.Basic

/-!
# MQO — the Prim loop

`computeMSTs`, the small-group branch of `optimize_trajectory_mixed_modified_mst`
and `get_mst` each hold a copy of the quadratic Prim loop: select the
unvisited vertex of least key, mark it, and relax the keys of the unvisited
vertices. `selectNext` and `primVisit` are one iteration over the local
indices `0, …, n - 1` and a weight `d`; a step records the vertex selected,
its parent and its key.

* `selectNext_some` — what selection finds;
* `relax_apply`    — relaxation changes each key on its own, whatever the
  order of the vertices;
* `primVisit_key`, `primVisit_visited` — the keys and the marks after an iteration;
* `primVisit_spec` — one iteration keeps the invariant `PrimInv`;
* `primLoop_spec`  — with finite weights the loop selects every vertex once,
  the first one as root and every other one below an earlier one.
-/

namespace Mqo

open Prog StackTraversal

variable {K : Type} [Scalar K]

/-- The result of the selection loop: `curr`, `parent` and `best`. -/
structure Selection (K : Type) where
  curr : Option ℕ
  parent : Option ℕ
  best : K

/-- One iteration of the selection loop. -/
def selectStep (key : ℕ → K × Option ℕ) (inMST : ℕ → Bool) (sel : Selection K) (j : ℕ) :
    Selection K :=
  if !inMST j && (key j).1 < sel.best then ⟨some j, (key j).2, (key j).1⟩ else sel

/-- The unvisited vertex with the least key; `-1` is `none`. -/
def selectNext (n : ℕ) (key : ℕ → K × Option ℕ) (inMST : ℕ → Bool) : Selection K :=
  (List.range n).foldl (selectStep key inMST) ⟨none, none, Scalar.infinity⟩

/-- Relax the key of `v` through `curr`. -/
def relaxOne (d : ℕ → ℕ → K) (curr : ℕ) (inMST : ℕ → Bool) (key : ℕ → K × Option ℕ) (v : ℕ) :
    ℕ → K × Option ℕ :=
  if !inMST v then
    let dist := d curr v
    if dist < (key v).1 then Function.update key v (dist, some curr) else key
  else key

/-- A vertex as it is selected. -/
structure PrimStep (K : Type) where
  node : ℕ
  parent : Option ℕ
  weight : K

structure PrimState (K : Type) where
  key : ℕ → K × Option ℕ
  inMST : ℕ → Bool
  steps : List (PrimStep K)

/-- The keys before the first iteration. -/
def initKey : ℕ → K × Option ℕ :=
  Function.update (fun _ => (Scalar.infinity, none)) 0 (0, none)

/-- Mark the vertex `curr`, record it, and relax the keys in the given order. -/
def primVisit (order : List ℕ) (d : ℕ → ℕ → K) (state : PrimState K) (curr : ℕ)
    (parent : Option ℕ) : PrimState K :=
  let inMST := Function.update state.inMST curr true
  { key := order.foldl (relaxOne d curr inMST) state.key
    inMST := inMST
    steps := state.steps ++ [⟨curr, parent, (state.key curr).1⟩] }

/-- One iteration of the Prim loop. -/
def primStep (n : ℕ) (d : ℕ → ℕ → K) (state : PrimState K) : Run (PrimState K) :=
  let sel := selectNext n state.key state.inMST
  match sel.curr with
  | none => fault .outOfRange -- `inMST[-1]`
  | some curr => pure (primVisit (List.range n) d state curr sel.parent)

/-- The Prim loop of a group of `n` vertices. -/
def primLoop (n : ℕ) (d : ℕ → ℕ → K) : Run (List (PrimStep K)) :=
  if n = 0 then fault .outOfRange -- `key[0]`
  else do
    let final ← (List.range n).foldlM (fun state _ => primStep n d state)
      ⟨initKey, fun _ => false, []⟩
    pure final.steps

-- ---------------------------------------------------------------------------
-- Selection
-- ---------------------------------------------------------------------------

/-- What the selection loop has found among the vertices of a list. -/
inductive Selected (key : ℕ → K × Option ℕ) (inMST : ℕ → Bool) (l : List ℕ) :
    Selection K → Prop
  | none : (∀ j ∈ l, inMST j = false → ¬ (key j).1 < Scalar.infinity) →
      Selected key inMST l ⟨none, none, Scalar.infinity⟩
  | some {c : ℕ} {b : K} : c ∈ l → inMST c = false → (key c).1 < b →
      Selected key inMST l ⟨some c, (key c).2, (key c).1⟩

theorem selectStep_selected {key : ℕ → K × Option ℕ} {inMST : ℕ → Bool} {l : List ℕ}
    {sel : Selection K} (h : Selected key inMST l sel) (j : ℕ) :
    Selected key inMST (l ++ [j]) (selectStep key inMST sel j) := by
  unfold selectStep
  split
  · next hj =>
    rw [Bool.and_eq_true, Bool.not_eq_true', decide_eq_true_eq] at hj
    exact Selected.some (by simp) hj.1 hj.2
  · next hj =>
    rw [Bool.and_eq_true, Bool.not_eq_true', decide_eq_true_eq] at hj
    cases h with
    | none hl =>
      refine Selected.none fun i hi hvis hlt => ?_
      rcases List.mem_append.mp hi with hi | hi
      · exact hl i hi hvis hlt
      · rw [List.mem_singleton] at hi
        exact hj ⟨hi ▸ hvis, hi ▸ hlt⟩
    | some hc hvis hlt => exact Selected.some (List.mem_append_left _ hc) hvis hlt

theorem selectNext_selected (n : ℕ) (key : ℕ → K × Option ℕ) (inMST : ℕ → Bool) :
    Selected key inMST (List.range n) (selectNext n key inMST) := by
  unfold selectNext
  induction List.range n using List.reverseRecOn with
  | nil => exact Selected.none fun j hj => absurd hj List.not_mem_nil
  | append_singleton l j ih =>
    rw [List.foldl_append, List.foldl_cons, List.foldl_nil]
    exact selectStep_selected ih j

/-- Selection succeeds when some unvisited key is below infinity. -/
theorem selectNext_some {n : ℕ} {key : ℕ → K × Option ℕ} {inMST : ℕ → Bool}
    (h : ∃ j < n, inMST j = false ∧ (key j).1 < Scalar.infinity) :
    ∃ c b, selectNext n key inMST = ⟨some c, (key c).2, (key c).1⟩ ∧ c < n ∧
      inMST c = false ∧ (key c).1 < b := by
  obtain ⟨j, hj, hvis, hlt⟩ := h
  generalize hsel : selectNext n key inMST = sel
  cases hsel ▸ selectNext_selected n key inMST with
  | none hl => exact absurd hlt (hl j (List.mem_range.mpr hj) hvis)
  | @some c b hc hvc hlc => exact ⟨c, b, rfl, List.mem_range.mp hc, hvc, hlc⟩

-- ---------------------------------------------------------------------------
-- Relaxation
-- ---------------------------------------------------------------------------

/-- The key of an unvisited vertex `v` after relaxation through `curr`. -/
def relaxed (d : ℕ → ℕ → K) (curr v : ℕ) (k : K × Option ℕ) : K × Option ℕ :=
  if d curr v < k.1 then (d curr v, some curr) else k

theorem relaxOne_eq (d : ℕ → ℕ → K) (curr : ℕ) (inMST : ℕ → Bool) (key : ℕ → K × Option ℕ)
    (v : ℕ) : relaxOne d curr inMST key v =
      if inMST v = false then Function.update key v (relaxed d curr v (key v)) else key := by
  unfold relaxOne relaxed
  cases inMST v with
  | true => rfl
  | false =>
    simp only [Bool.not_false, if_true]
    split
    · rfl
    · rw [Function.update_eq_self]

/-- Relaxation over any list without repetition changes each key on its own. -/
theorem relax_apply (d : ℕ → ℕ → K) (curr : ℕ) (inMST : ℕ → Bool) {order : List ℕ}
    (hnd : order.Nodup) (key : ℕ → K × Option ℕ) (v : ℕ) :
    order.foldl (relaxOne d curr inMST) key v =
      if v ∈ order ∧ inMST v = false then relaxed d curr v (key v) else key v := by
  induction order generalizing key with
  | nil => simp
  | cons a order ih =>
    rw [List.nodup_cons] at hnd
    rw [List.foldl_cons, ih hnd.2, relaxOne_eq]
    by_cases hva : v = a
    · subst hva
      by_cases hvis : inMST v = false
      · simp [hnd.1, hvis]
      · simp [hvis]
    · by_cases hvis : inMST a = false
      · simp [hvis, hva]
      · simp [hvis, hva]

-- ---------------------------------------------------------------------------
-- Visiting a vertex
-- ---------------------------------------------------------------------------

section Visit

variable {n : ℕ} {d : ℕ → ℕ → K} (order : List ℕ) (state : PrimState K) (c : ℕ) (p : Option ℕ)

@[simp] theorem length_primVisit :
    (primVisit order d state c p).steps.length = state.steps.length + 1 := by
  simp [primVisit]

@[simp] theorem nodes_primVisit : (primVisit order d state c p).steps.map PrimStep.node =
    state.steps.map PrimStep.node ++ [c] := by
  simp [primVisit]

theorem primVisit_marked (v : ℕ) :
    (primVisit order d state c p).inMST v = true ↔ v = c ∨ state.inMST v = true := by
  unfold primVisit
  by_cases hv : v = c
  · simp [hv]
  · simp [hv]

theorem primVisit_unmarked (v : ℕ) :
    (primVisit order d state c p).inMST v = false ↔ v ≠ c ∧ state.inMST v = false := by
  rw [← Bool.not_eq_true, primVisit_marked, not_or, Bool.not_eq_true]

variable {order state} in
/-- The marks stay those of the vertices recorded. -/
theorem primVisit_visited (h : ∀ v, state.inMST v = true ↔ v ∈ state.steps.map PrimStep.node)
    (v : ℕ) : (primVisit order d state c p).inMST v = true ↔
      v ∈ (primVisit order d state c p).steps.map PrimStep.node := by
  rw [primVisit_marked, nodes_primVisit, List.mem_append, List.mem_singleton, h, or_comm]

variable {order} in
/-- The key of each vertex left is relaxed once. -/
theorem primVisit_key (horder : order.Perm (List.range n)) (v : ℕ) :
    (primVisit order d state c p).key v =
      if v < n ∧ v ≠ c ∧ state.inMST v = false then relaxed d c v (state.key v)
      else state.key v := by
  have hiff : v ∈ order ∧ (primVisit order d state c p).inMST v = false ↔
      v < n ∧ v ≠ c ∧ state.inMST v = false := by
    rw [horder.mem_iff, List.mem_range, primVisit_unmarked]
  refine (relax_apply d c _ (horder.nodup_iff.mpr List.nodup_range) state.key v).trans ?_
  exact if_congr hiff rfl rfl

end Visit

-- ---------------------------------------------------------------------------
-- The invariant
-- ---------------------------------------------------------------------------

/-- The first step is the root; every later one hangs below an earlier one. -/
def StepOk (d : ℕ → ℕ → K) (pre : List (PrimStep K)) (s : PrimStep K) : Prop :=
  (pre = [] ∧ s.node = 0 ∧ s.parent = none ∧ s.weight = 0) ∨
    ∃ p ∈ pre.map PrimStep.node, s.parent = some p ∧ s.weight = d p s.node

/-- The steps a complete or partial run of the Prim loop records. -/
structure PrimSteps (n : ℕ) (d : ℕ → ℕ → K) (steps : List (PrimStep K)) : Prop where
  bound : ∀ s ∈ steps, s.node < n
  nodup : (steps.map PrimStep.node).Nodup
  ok    : ∀ pre s post, steps = pre ++ s :: post → StepOk d pre s

/-- The invariant of the loop: the steps, the marks and the keys agree. -/
structure PrimInv (n : ℕ) (d : ℕ → ℕ → K) (state : PrimState K) : Prop where
  steps   : PrimSteps n d state.steps
  visited : ∀ v, state.inMST v = true ↔ v ∈ state.steps.map PrimStep.node
  first   : state.steps = [] → state.key = initKey
  later   : state.steps ≠ [] → ∀ v < n, state.inMST v = false →
    ∃ p ∈ state.steps.map PrimStep.node, state.key v = (d p v, some p)

theorem primSteps_nil (n : ℕ) (d : ℕ → ℕ → K) : PrimSteps n d [] where
  bound s hs := absurd hs List.not_mem_nil
  nodup := List.nodup_nil
  ok pre s post h := by simp at h

theorem primSteps_concat {n : ℕ} {d : ℕ → ℕ → K} {steps : List (PrimStep K)} {s : PrimStep K}
    (h : PrimSteps n d steps) (hn : s.node < n) (hnew : s.node ∉ steps.map PrimStep.node)
    (hok : StepOk d steps s) : PrimSteps n d (steps ++ [s]) where
  bound t ht := by
    rcases List.mem_append.mp ht with ht | ht
    · exact h.bound t ht
    · rwa [List.mem_singleton.mp ht]
  nodup := by
    rw [List.map_append, List.map_singleton]
    exact List.nodup_append.mpr ⟨h.nodup, List.nodup_singleton _, fun a ha b hb => by
      rw [List.mem_singleton.mp hb]
      exact fun hab => hnew (hab ▸ ha)⟩
  ok := forall_split_concat (P := StepOk d) h.ok hok

/-- Fewer than `n` different vertices below `n` leave one out. -/
theorem exists_unvisited {n : ℕ} {l : List ℕ} (hlen : l.length < n) : ∃ v < n, v ∉ l := by
  by_contra hno
  push Not at hno
  have hsub : Finset.range n ⊆ l.toFinset := fun v hv =>
    List.mem_toFinset.mpr (hno v (Finset.mem_range.mp hv))
  have hcard := (Finset.card_le_card hsub).trans (List.toFinset_card_le l)
  rw [Finset.card_range] at hcard
  omega

variable {n : ℕ} {d : ℕ → ℕ → K}

theorem primInv_init : PrimInv n d ⟨initKey, fun _ => false, []⟩ where
  steps := primSteps_nil n d
  visited v := by simp
  first _ := rfl
  later h := absurd rfl h

/-- With finite weights some vertex can be selected until all are. -/
theorem PrimInv.selectable {state : PrimState K} (h : PrimInv n d state)
    (hfin : ∀ i < n, ∀ j < n, i ≠ j → d i j < Scalar.infinity)
    (hlen : state.steps.length < n) :
    ∃ j < n, state.inMST j = false ∧ (state.key j).1 < Scalar.infinity := by
  have hunv : ∀ v, v ∉ state.steps.map PrimStep.node → state.inMST v = false := fun v hv => by
    rw [← Bool.not_eq_true, h.visited]
    exact hv
  by_cases hs : state.steps = []
  · refine ⟨0, by omega, hunv 0 (by simp [hs]), ?_⟩
    rw [h.first hs, initKey, Function.update_self]
    exact Scalar.zero_lt_infinity
  · obtain ⟨v, hv, hnot⟩ := exists_unvisited (n := n) (l := state.steps.map PrimStep.node)
      (by simpa using hlen)
    obtain ⟨p, hp, hkey⟩ := h.later hs v hv (hunv v hnot)
    refine ⟨v, hv, hunv v hnot, ?_⟩
    obtain ⟨s, hs, rfl⟩ := List.mem_map.mp hp
    rw [hkey]
    exact hfin _ (h.steps.bound s hs) v hv fun he => hnot (he ▸ hp)

/-- **One iteration.** With finite weights a vertex is selected while there is
one left, and visiting it keeps the invariant, whatever the order of the
relaxations. -/
theorem primVisit_spec {state : PrimState K} (h : PrimInv n d state)
    (hfin : ∀ i < n, ∀ j < n, i ≠ j → d i j < Scalar.infinity)
    (hlen : state.steps.length < n) :
    ∃ c, (selectNext n state.key state.inMST).curr = some c ∧
      ∀ order : List ℕ, order.Perm (List.range n) →
        PrimInv n d (primVisit order d state c (selectNext n state.key state.inMST).parent) := by
  obtain ⟨c, b, hnext, hc, hvis, hlt⟩ := selectNext_some (h.selectable hfin hlen)
  rw [hnext]
  refine ⟨c, rfl, fun order horder => ?_⟩
  have hnew : c ∉ state.steps.map PrimStep.node := by
    rw [← h.visited, hvis]
    exact Bool.false_ne_true
  -- in the first iteration the root is selected, as every other key is infinite
  have hroot : state.steps = [] → c = 0 := by
    intro hs
    by_contra hne
    rw [h.first hs, initKey, Function.update_of_ne hne] at hlt
    exact Scalar.not_infinity_lt b hlt
  refine ⟨primSteps_concat h.steps hc hnew ?_, primVisit_visited c _ h.visited,
    fun hnil => by simp [primVisit] at hnil, ?_⟩
  · -- the key of the selected vertex tells its parent
    by_cases hs : state.steps = []
    · obtain rfl := hroot hs
      exact Or.inl ⟨hs, rfl, by rw [h.first hs]; rfl, by rw [h.first hs]; rfl⟩
    · obtain ⟨p, hp, hkey⟩ := h.later hs c hc hvis
      exact Or.inr ⟨p, hp, by rw [hkey], by rw [hkey]⟩
  · intro _ v hv hunmarked
    obtain ⟨hvc, hunv⟩ := (primVisit_unmarked _ _ _ _ v).mp hunmarked
    rw [primVisit_key state c _ horder, if_pos ⟨hv, hvc, hunv⟩, relaxed, nodes_primVisit]
    by_cases hrel : d c v < (state.key v).1
    · exact ⟨c, by simp, by rw [if_pos hrel]⟩
    · rw [if_neg hrel]
      by_cases hs : state.steps = []
      · -- every key but the root's is still infinite, so it has been relaxed
        have hkey : (state.key v).1 = Scalar.infinity := by
          rw [h.first hs, initKey, Function.update_of_ne (hroot hs ▸ hvc)]
        exact absurd (hkey ▸ hfin c hc v hv hvc.symm) hrel
      · obtain ⟨p, hp, hkey⟩ := h.later hs v hv hunv
        exact ⟨p, List.mem_append_left _ hp, hkey⟩

theorem primStep_spec {state : PrimState K} (h : PrimInv n d state)
    (hfin : ∀ i < n, ∀ j < n, i ≠ j → d i j < Scalar.infinity)
    (hlen : state.steps.length < n) :
    ∃ state', Returns (primStep n d state) state' ∧
      state'.steps.length = state.steps.length + 1 ∧ PrimInv n d state' := by
  obtain ⟨c, hnext, hinv⟩ := primVisit_spec h hfin hlen
  refine ⟨_, ?_, length_primVisit (d := d) _ _ _ _, hinv (List.range n) (List.Perm.refl _)⟩
  unfold primStep
  dsimp only
  rw [hnext]
  exact returns_pure _

/-- An iteration of `for (int i = 0; i < n; i++)` has fewer than `n` before it. -/
theorem length_lt_of_range {pre post : List ℕ} {i : ℕ} (h : List.range n = pre ++ i :: post) :
    pre.length < n := by
  have := congrArg List.length h
  simp only [List.length_range, List.length_append, List.length_cons] at this
  omega

/-- **The Prim loop.** With finite weights every vertex is selected once. -/
theorem primLoop_spec (hn : 0 < n) (hfin : ∀ i < n, ∀ j < n, i ≠ j → d i j < Scalar.infinity) :
    ∃ steps, Returns (primLoop n d) steps ∧ PrimSteps n d steps ∧ steps.length = n := by
  have hstep : ∀ (pre : List ℕ) (i : ℕ) (post : List ℕ) (state : PrimState K),
      List.range n = pre ++ i :: post →
      PrimInv n d state ∧ state.steps.length = pre.length →
      ∃ state', Returns (primStep n d state) state' ∧
        PrimInv n d state' ∧ state'.steps.length = (pre ++ [i]).length := by
    rintro pre i post state hrange ⟨hinv, hlen⟩
    have hpre : pre.length < n := length_lt_of_range hrange
    obtain ⟨state', hret, hlen', hinv'⟩ := primStep_spec hinv hfin (hlen ▸ hpre)
    exact ⟨state', hret, hinv', by simp [hlen', hlen]⟩
  obtain ⟨final, hret, hinv, hlen⟩ := foldlM_returns
    (fun pre state => PrimInv n d state ∧ state.steps.length = pre.length) hstep
    ⟨primInv_init, rfl⟩
  refine ⟨final.steps, ?_, hinv.steps, by rw [hlen, List.length_range]⟩
  rw [primLoop, if_neg (by omega)]
  exact hret.bind (returns_pure _)

/-- All vertices are selected. -/
theorem PrimSteps.perm {steps : List (PrimStep K)} (h : PrimSteps n d steps)
    (hlen : steps.length = n) : (steps.map PrimStep.node).Perm (List.range n) := by
  have hsub : (steps.map PrimStep.node).Subperm (List.range n) := by
    refine h.nodup.subperm fun v hv => ?_
    obtain ⟨s, hs, rfl⟩ := List.mem_map.mp hv
    exact List.mem_range.mpr (h.bound s hs)
  exact hsub.perm_of_length_le (by simp [hlen])

-- ---------------------------------------------------------------------------
-- Entries
-- ---------------------------------------------------------------------------

/-- A step as a pair of local indices (child, parent). -/
def PrimStep.entry (s : PrimStep K) : ℤ × ℤ :=
  (s.node, match s.parent with
    | none => -1
    | some p => p)

theorem PrimSteps.entries_perm {steps : List (PrimStep K)} (h : PrimSteps n d steps)
    (hlen : steps.length = n) :
    ((steps.map PrimStep.entry).map Prod.fst).Perm (indices n) := by
  have := (h.perm hlen).map fun i : ℕ => (i : ℤ)
  rwa [List.map_map] at this ⊢

/-- Every step but the first has a parent, which was selected before. -/
theorem PrimSteps.parent_of_later {steps pre post : List (PrimStep K)} {s : PrimStep K}
    (h : PrimSteps n d steps) (hs : steps = pre ++ s :: post) (hpre : pre ≠ []) :
    ∃ p ∈ pre.map PrimStep.node, s.parent = some p ∧ s.weight = d p s.node :=
  (h.ok pre s post hs).resolve_left fun h => hpre h.1

theorem PrimSteps.topological {steps : List (PrimStep K)} (h : PrimSteps n d steps) :
    Topological (-1) (steps.map PrimStep.entry) := by
  intro pre x post hsplit
  obtain ⟨pre', rest', hsteps, rfl, hrest⟩ := List.map_eq_append_iff.mp hsplit
  obtain ⟨s, post', rfl, rfl, rfl⟩ := List.map_eq_cons_iff.mp hrest
  rcases h.ok pre' s post' hsteps with ⟨-, -, hp, -⟩ | ⟨p, hp, hpar, -⟩
  · exact Or.inl (by rw [PrimStep.entry, hp])
  · obtain ⟨t, ht, rfl⟩ := List.mem_map.mp hp
    refine Or.inr (List.mem_map.mpr ⟨t.entry, List.mem_map_of_mem ht, ?_⟩)
    simp only [PrimStep.entry, hpar]

/-- The first step is the only root. -/
theorem PrimSteps.countP_root {steps : List (PrimStep K)} (h : PrimSteps n d steps)
    (hne : steps ≠ []) : (steps.map PrimStep.entry).countP (fun e => e.2 = -1) = 1 := by
  cases steps with
  | nil => exact absurd rfl hne
  | cons s rest =>
    have hrest : (rest.map PrimStep.entry).countP (fun e => e.2 = -1) = 0 := by
      refine List.countP_eq_zero.mpr fun e he => ?_
      obtain ⟨t, ht, rfl⟩ := List.mem_map.mp he
      obtain ⟨pre, post, rfl⟩ := List.append_of_mem ht
      obtain ⟨p, -, hp, -⟩ := h.parent_of_later
        (show s :: (pre ++ t :: post) = (s :: pre) ++ t :: post from rfl) (List.cons_ne_nil s pre)
      simp only [PrimStep.entry, hp, decide_eq_true_eq]
      omega
    have hs : s.entry.2 = -1 := by
      rcases h.ok [] s rest rfl with ⟨-, -, hp, -⟩ | ⟨p, hp, -⟩
      · rw [PrimStep.entry, hp]
      · cases hp
    rw [List.map_cons, List.countP_cons, hrest, if_pos (decide_eq_true hs)]

end Mqo
