import Mqo.Build.NnJoin
import Mqo.Search.Nsg

/-!
# MQO — sampling neighbours

`update` of `efanna_graph/src/index_graph.cpp` truncates the pools and samples from them what is
joined next: the neighbours up to the `S`-th one that is new, and reverse neighbours. The third
loop is parallel: nodes are added to the reverse neighbours of others under their locks, in any
order, and the last neighbour of another pool is read while that pool may be being arranged.

* `passed_perm`        — the samples of a node do not depend on the order;
* `updateStep_returns` — what one pass keeps;
* `update_returns`     — the pools become no worse, and a neighbour is sampled as new once.
-/

namespace Mqo.Build.Efanna

open Prog Nearest Search.Nsg

section Update

variable {F : Type} [LinearOrder F]

-- ---------------------------------------------------------------------------
-- The functions
-- ---------------------------------------------------------------------------

section Functions

variable (P : Parameters)

omit [LinearOrder F] in
/-- The `while` loop that counts the neighbours up to the `S`-th one that is new; `c` of them are behind
it. -/
def countLoop : List (Neighbor F) → ℕ → ℕ
  | [], _ => 0
  | nn :: rest, c =>
    if c < P.S then 1 + countLoop rest (if nn.flag then c + 1 else c) else 0

/-- The second loop of `update`, for one node. -/
def select (S : Sorting F) (nhood : Nhood F) : Nhood F :=
  let pool := S.sort nhood.pool
  let pool := if P.L < pool.length then pool.take P.L else pool
  let maxl := min ((nhood.M + P.S) % 2 ^ 32) pool.length
  { nhood with
    pool := pool
    capacity := max nhood.capacity P.L
    M := countLoop P (pool.take maxl) 0 }

omit [LinearOrder F] in
/-- The node `n` joins the reverse neighbours `rnn` of a neighbour if it is farther than the
last one in the pool of that one. -/
def reverse (far : Bool) (rand : ℕ) (rnn : List ℕ) (n : ℕ) : Run (List ℕ) :=
  if far = false then pure rnn
  else if rnn.length < P.R then pure (rnn ++ [n])
  else if P.R = 0 then fault .outOfRange
  else pure (rnn.set (rand % P.R) n)

omit [LinearOrder F] in
/-- A pass of the third loop, for the neighbour `l` of the node `n`. -/
def updateStep (nd : ℕ) (turn : Turn F) (graph : KNNGraph F) (p : ℕ × ℕ) : Run (KNNGraph F) :=
  let n := p.1
  let l := p.2
  match (graph n).pool[l]? with
  | none => fault .outOfRange
  | some nn =>
    if nd ≤ nn.id ∨ (graph nn.id).pool = [] then fault .outOfRange
    else if nn.flag then do
      let graph := Function.update graph n { graph n with nn_new := (graph n).nn_new ++ [nn.id] }
      let rnn ← reverse P (turn.far n l) (turn.rand n l) (graph nn.id).rnn_new n
      let graph := Function.update graph nn.id { graph nn.id with rnn_new := rnn }
      pure (Function.update graph n
        { graph n with pool := (graph n).pool.set l { nn with flag := false } })
    else do
      let graph := Function.update graph n { graph n with nn_old := (graph n).nn_old ++ [nn.id] }
      let rnn ← reverse P (turn.far n l) (turn.rand n l) (graph nn.id).rnn_old n
      pure (Function.update graph nn.id { graph nn.id with rnn_old := rnn })

omit [LinearOrder F] in
/-- The fourth loop, for one node. -/
def merge (shuffle : List ℕ → List ℕ) (nhood : Nhood F) : Nhood F :=
  let rnn_new := if P.R ≠ 0 ∧ P.R < nhood.rnn_new.length then (shuffle nhood.rnn_new).take P.R
    else nhood.rnn_new
  let nn_new := nhood.nn_new ++ rnn_new
  let rnn_old := if P.R ≠ 0 ∧ P.R < nhood.rnn_old.length then (shuffle nhood.rnn_old).take P.R
    else nhood.rnn_old
  let nn_old := nhood.nn_old ++ rnn_old
  let nn_old := if P.R * 2 % 2 ^ 32 < nn_old.length then nn_old.take (P.R * 2 % 2 ^ 32) else nn_old
  { nhood with nn_new := nn_new, nn_old := nn_old, rnn_new := [], rnn_old := [] }

omit [LinearOrder F] in
/-- The passes of the third loop. -/
def passes (nd : ℕ) (graph : KNNGraph F) : List (ℕ × ℕ) :=
  (List.range nd).flatMap fun n => (List.range (graph n).M).map fun l => (n, l)

/-- `update(parameters)` -/
def update (nd : ℕ) (S : Sorting F) (H : HeapAlgorithms (Neighbor.distance (K := F))) (turn : Turn F)
    (graph : KNNGraph F) : Run (KNNGraph F) := do
  let graph : KNNGraph F := fun i => { graph i with nn_new := [], nn_old := [] }
  let graph : KNNGraph F := fun n => select P S (graph n)
  let graph ← (turn.updateOrder (passes nd graph)).foldlM (updateStep P nd turn) graph
  let graph : KNNGraph F := fun n => { graph n with pool := H.make_heap (graph n).pool }
  pure fun i => merge P turn.shuffle (graph i)

end Functions

-- ---------------------------------------------------------------------------
-- Updating
-- ---------------------------------------------------------------------------

variable {dist : ℕ → ℕ → F} {nd : ℕ} {H : HeapAlgorithms (Neighbor.distance (K := F))}
  {P : Parameters} {S : Sorting F}

omit [LinearOrder F] in
/-- At most `S` of the neighbours up to where the count stops are new. -/
theorem countLoop_spec (P : Parameters) (pool : List (Neighbor F)) (c : ℕ) :
    countLoop P pool c ≤ pool.length ∧
      ((pool.take (countLoop P pool c)).filter Neighbor.flag).length ≤ P.S - c := by
  induction pool generalizing c with
  | nil => exact ⟨Nat.zero_le _, Nat.zero_le _⟩
  | cons nn rest ih =>
    rw [countLoop]
    by_cases hc : c < P.S
    · rw [if_pos hc, Nat.add_comm 1, List.take_succ_cons, List.length_cons]
      cases hflag : nn.flag with
      | true =>
        obtain ⟨hlen, hnew⟩ := ih (c + 1)
        rw [if_pos rfl, List.filter_cons_of_pos hflag, List.length_cons]
        omega
      | false =>
        obtain ⟨hlen, hnew⟩ := ih c
        rw [if_neg (by simp), List.filter_cons_of_neg (by simp [hflag])]
        omega
    · rw [if_neg hc]
      exact ⟨Nat.zero_le _, Nat.zero_le _⟩

/-- A node after the second loop. -/
structure Selected (P : Parameters) (d : ℕ → F) (nd owner : ℕ) (before nhood : Nhood F) : Prop
    extends PoolOk d nd owner nhood.pool where
  improves : Improves d P.L (ids before.pool) (ids nhood.pool)
  kept     : ∀ p ∈ nhood.pool, p ∈ before.pool
  pos      : nhood.pool ≠ []
  fits     : nhood.pool.length ≤ nhood.capacity
  count    : nhood.M ≤ nhood.pool.length
  new      : ((nhood.pool.take nhood.M).filter Neighbor.flag).length ≤ P.S

theorem select_spec (hL : 0 < P.L) {d : ℕ → F} {owner : ℕ} (nhood : Nhood F)
    (h : IsPool H d nd owner nhood.capacity nhood.pool) (S : Sorting F) :
    Selected P d nd owner nhood (select P S nhood) := by
  obtain ⟨pool, hpool⟩ : ∃ pool, pool = (S.sort nhood.pool).take P.L := ⟨_, rfl⟩
  have heq : (if P.L < (S.sort nhood.pool).length then (S.sort nhood.pool).take P.L
      else S.sort nhood.pool) = pool := by
    rw [hpool]
    split
    · rfl
    · next hle => exact (List.take_of_length_le (not_lt.mp hle)).symm
  have hperm := S.perm nhood.pool
  have hsub : pool.Sublist (S.sort nhood.pool) := hpool ▸ List.take_sublist _ _
  have hsorted : (ids (S.sort nhood.pool)).Pairwise fun a b => d a ≤ d b := by
    refine List.pairwise_map.mpr ((S.sorted nhood.pool).imp_of_mem fun {a b} ha hb hab => ?_)
    rwa [← h.distance a (hperm.mem_iff.mp ha), ← h.distance b (hperm.mem_iff.mp hb)]
  have htake : ids pool = (ids (S.sort nhood.pool)).take P.L := by rw [hpool, ids, List.map_take]; rfl
  have hlen : pool.length = min P.L nhood.pool.length := by rw [hpool, List.length_take, hperm.length_eq]
  have hpos := List.length_pos_of_ne_nil h.pos
  have hselect : select P S nhood = { nhood with
      pool := pool
      capacity := max nhood.capacity P.L
      M := countLoop P (pool.take (min ((nhood.M + P.S) % 2 ^ 32) pool.length)) 0 } := by
    unfold select
    dsimp only
    rw [heq]
  obtain ⟨hcount, hnew⟩ :=
    countLoop_spec P (pool.take (min ((nhood.M + P.S) % 2 ^ 32) pool.length)) 0
  rw [List.length_take] at hcount
  rw [hselect]
  refine ⟨(h.toPoolOk.perm hperm.symm).sublist hsub, ?_, fun p hp => hperm.mem_iff.mp (hsub.subset hp),
    ?_, ?_, ?_, ?_⟩
  · dsimp only
    rw [htake]
    exact (improves_perm P.L (hperm.map Neighbor.id).symm).trans (improves_take P.L hsorted)
  · exact List.ne_nil_of_length_pos (by dsimp only; omega)
  · dsimp only
    have := h.fits
    omega
  · dsimp only
    omega
  · rw [List.take_take, Nat.min_eq_left (hcount.trans (Nat.min_le_left _ _))] at hnew
    exact hnew

omit [LinearOrder F] in
/-- A node that joins reverse neighbours. -/
theorem reverse_returns (hR : 0 < P.R) {rnn : List ℕ} (hrnn : rnn.length ≤ P.R) (hlt : ∀ u ∈ rnn, u < nd)
    (far : Bool) (rand : ℕ) {n : ℕ} (hn : n < nd) :
    ∃ rnn', Returns (reverse P far rand rnn n) rnn' ∧ rnn'.length ≤ P.R ∧ ∀ u ∈ rnn', u < nd := by
  unfold reverse
  cases far with
  | false => exact ⟨rnn, returns_pure _, hrnn, hlt⟩
  | true =>
    rw [if_neg (by simp)]
    by_cases hroom : rnn.length < P.R
    · rw [if_pos hroom]
      refine ⟨rnn ++ [n], returns_pure _, by rw [List.length_append]; exact hroom, fun u hu => ?_⟩
      rcases List.mem_append.mp hu with hu | hu
      · exact hlt u hu
      · exact List.mem_singleton.mp hu ▸ hn
    · rw [if_neg hroom, if_neg (by omega)]
      refine ⟨_, returns_pure _, by rw [List.length_set]; exact hrnn, fun u hu => ?_⟩
      rcases List.mem_or_eq_of_mem_set hu with hu | rfl
      · exact hlt u hu
      · exact hn

omit [LinearOrder F] in
/-- The neighbour of `n` that a pass is for, if it was new, or was not, at the start. -/
def passed (start : KNNGraph F) (new : Bool) (n : ℕ) (p : ℕ × ℕ) : Option ℕ :=
  if p.1 = n then ((start n).pool[p.2]?).bind fun q => if q.flag = new then some q.id else none
  else none

omit [LinearOrder F] in
/-- A neighbour is not new after the pass for it. -/
def afterPass (done : List (ℕ × ℕ)) (n l : ℕ) (q : Neighbor F) : Neighbor F :=
  { q with flag := q.flag && !decide ((n, l) ∈ done) }

omit [LinearOrder F] in
theorem afterPass_of_ne {m n k l : ℕ} (h : (m, k) ≠ (n, l)) : afterPass (F := F) [(n, l)] m k = id := by
  funext q
  rw [afterPass, decide_eq_false (by simpa using h), Bool.not_false, Bool.and_true, id]

omit [LinearOrder F] in
theorem passed_append (start : KNNGraph F) (new : Bool) (n : ℕ) (done : List (ℕ × ℕ)) (p : ℕ × ℕ) :
    (done ++ [p]).filterMap (passed start new n) =
      done.filterMap (passed start new n) ++ (passed start new n p).toList := by
  rw [List.filterMap_append]
  cases hp : passed start new n p <;> simp [hp]

/-- What holds after the passes `done` of the third loop, in any order. -/
structure UpdateInv (P : Parameters) (nd : ℕ) (start : KNNGraph F) (done : List (ℕ × ℕ))
    (graph : KNNGraph F) : Prop where
  pool     : ∀ n l, (graph n).pool[l]? =
    ((start n).pool[l]?).map (afterPass done n l)
  capacity : ∀ n, (graph n).capacity = (start n).capacity
  nn_new   : ∀ n, (graph n).nn_new = done.filterMap (passed start true n)
  nn_old   : ∀ n, (graph n).nn_old = done.filterMap (passed start false n)
  rnn_new  : ∀ n < nd, (graph n).rnn_new.length ≤ P.R ∧ ∀ u ∈ (graph n).rnn_new, u < nd
  rnn_old  : ∀ n < nd, (graph n).rnn_old.length ≤ P.R ∧ ∀ u ∈ (graph n).rnn_old, u < nd

omit [LinearOrder F] in
/-- **What a pass changes**: the pool and the samples of its node `n`, and the reverse neighbours
of the neighbour `o`. -/
theorem UpdateInv.next {start graph graph' : KNNGraph F} {done : List (ℕ × ℕ)}
    (h : UpdateInv P nd start done graph) {n l o : ℕ} {pool : List (Neighbor F)}
    {nn_new nn_old rnn_new rnn_old : List ℕ}
    (hnode : graph' n = { graph n with pool := pool, nn_new := nn_new, nn_old := nn_old })
    (hneighbor : graph' o = { graph o with rnn_new := rnn_new, rnn_old := rnn_old })
    (helse : ∀ m, m ≠ n → m ≠ o → graph' m = graph m)
    (hpool : ∀ k, pool[k]? = ((graph n).pool[k]?).map (afterPass [(n, l)] n k))
    (hnew : nn_new = (graph n).nn_new ++ (passed start true n (n, l)).toList)
    (hold : nn_old = (graph n).nn_old ++ (passed start false n (n, l)).toList)
    (hrnew : rnn_new.length ≤ P.R ∧ ∀ u ∈ rnn_new, u < nd)
    (hrold : rnn_old.length ≤ P.R ∧ ∀ u ∈ rnn_old, u < nd) :
    UpdateInv P nd start (done ++ [(n, l)]) graph' := by
  have hsame : ∀ m, m ≠ n → (graph' m).pool = (graph m).pool ∧
      (graph' m).capacity = (graph m).capacity ∧ (graph' m).nn_new = (graph m).nn_new ∧
      (graph' m).nn_old = (graph m).nn_old := by
    intro m hm
    by_cases hmo : m = o
    · rw [hmo, hneighbor]
      exact ⟨rfl, rfl, rfl, rfl⟩
    · rw [helse m hm hmo]
      exact ⟨rfl, rfl, rfl, rfl⟩
  have hsame' : ∀ m, m ≠ o → (graph' m).rnn_new = (graph m).rnn_new ∧
      (graph' m).rnn_old = (graph m).rnn_old := by
    intro m hm
    by_cases hmn : m = n
    · rw [hmn, hnode]
      exact ⟨rfl, rfl⟩
    · rw [helse m hmn hm]
      exact ⟨rfl, rfl⟩
  have hpassed : ∀ new m, m ≠ n → passed start new m (n, l) = none := fun new m hm =>
    if_neg (Ne.symm hm)
  constructor
  · intro m k
    have hafter : afterPass (done ++ [(n, l)]) m k =
        afterPass [(n, l)] m k ∘ afterPass (F := F) done m k := by
      funext q
      simp [afterPass, Bool.and_assoc]
    rw [hafter, ← Option.map_map, ← h.pool]
    by_cases hm : m = n
    · rw [hm, hnode]
      exact hpool k
    · rw [(hsame m hm).1, afterPass_of_ne (by simp [hm]), Option.map_id, id]
  · intro m
    by_cases hm : m = n
    · rw [hm, hnode]
      exact h.capacity n
    · exact (hsame m hm).2.1.trans (h.capacity m)
  · intro m
    rw [passed_append, ← h.nn_new]
    by_cases hm : m = n
    · rw [hm, hnode]
      exact hnew
    · rw [(hsame m hm).2.2.1, hpassed true m hm, Option.toList_none, List.append_nil]
  · intro m
    rw [passed_append, ← h.nn_old]
    by_cases hm : m = n
    · rw [hm, hnode]
      exact hold
    · rw [(hsame m hm).2.2.2, hpassed false m hm, Option.toList_none, List.append_nil]
  · intro m hmnd
    by_cases hm : m = o
    · rw [hm, hneighbor]
      exact hrnew
    · rw [(hsame' m hm).1]
      exact h.rnn_new m hmnd
  · intro m hmnd
    by_cases hm : m = o
    · rw [hm, hneighbor]
      exact hrold
    · rw [(hsame' m hm).2]
      exact h.rnn_old m hmnd

omit [LinearOrder F] in
/-- **One pass.** -/
theorem updateStep_returns (hR : 0 < P.R) {start graph : KNNGraph F} {done : List (ℕ × ℕ)}
    (h : UpdateInv P nd start done graph)
    (hstart : ∀ i < nd, (start i).pool ≠ [] ∧ ∀ p ∈ (start i).pool, p.id < nd ∧ p.id ≠ i)
    (turn : Turn F) {n l : ℕ} (hn : n < nd) (hl : l < (start n).pool.length) (hpass : (n, l) ∉ done) :
    ∃ graph', Returns (updateStep P nd turn graph (n, l)) graph' ∧
      UpdateInv P nd start (done ++ [(n, l)]) graph' := by
  obtain ⟨nn, hnn⟩ : ∃ nn, (start n).pool[l]? = some nn := ⟨_, List.getElem?_eq_getElem hl⟩
  have hget : (graph n).pool[l]? = some nn := by
    rw [h.pool n l, hnn, Option.map_some, afterPass, decide_eq_false hpass, Bool.not_false,
      Bool.and_true]
  obtain ⟨hid, hne⟩ := (hstart n hn).2 nn (List.mem_of_getElem? hnn)
  have hback : (graph nn.id).pool ≠ [] := by
    intro hnil
    have hzero := h.pool nn.id 0
    rw [hnil, List.getElem?_nil, eq_comm, Option.map_eq_none_iff, List.getElem?_eq_none_iff] at hzero
    exact (hstart nn.id hid).1 (List.length_eq_zero_iff.mp (Nat.le_zero.mp hzero))
  have hpassed : ∀ new, passed start new n (n, l) = if nn.flag = new then some nn.id else none :=
    fun new => by rw [passed, if_pos rfl, hnn, Option.bind_some]
  unfold updateStep
  dsimp only
  rw [hget]
  dsimp only
  rw [if_neg (by simp [hback, hid])]
  cases hflag : nn.flag with
  | true =>
    obtain ⟨rnn, hrnn, hreverse⟩ := reverse_returns hR (h.rnn_new nn.id hid).1 (h.rnn_new nn.id hid).2
      (turn.far n l) (turn.rand n l) hn
    rw [if_pos rfl, Function.update_of_ne hne]
    refine ⟨_, hrnn.bind (returns_pure _), ?_⟩
    rw [Function.update_of_ne hne.symm, Function.update_self]
    refine h.next (Function.update_self ..)
      ((Function.update_of_ne hne ..).trans (Function.update_self ..)) (fun m hm hmo => ?_)
      (fun k => ?_) ?_ ?_ hreverse (h.rnn_old nn.id hid)
    · rw [Function.update_of_ne hm, Function.update_of_ne hmo, Function.update_of_ne hm]
    · by_cases hk : k = l
      · rw [hk, List.getElem?_set_self (List.getElem?_eq_some_iff.mp hget).1, hget]
        simp [afterPass]
      · rw [List.getElem?_set_ne (Ne.symm hk), afterPass_of_ne (by simp [hk]), Option.map_id, id]
    · rw [hpassed, hflag]
      rfl
    · rw [hpassed, hflag]
      simp
  | false =>
    obtain ⟨rnn, hrnn, hreverse⟩ := reverse_returns hR (h.rnn_old nn.id hid).1 (h.rnn_old nn.id hid).2
      (turn.far n l) (turn.rand n l) hn
    rw [if_neg (by simp), Function.update_of_ne hne]
    refine ⟨_, hrnn.bind (returns_pure _), ?_⟩
    refine h.next ((Function.update_of_ne hne.symm ..).trans (Function.update_self ..))
      (Function.update_self ..) (fun m hm hmo => ?_) (fun k => ?_) ?_ ?_ (h.rnn_new nn.id hid) hreverse
    · rw [Function.update_of_ne hmo, Function.update_of_ne hm]
    · by_cases hk : k = l
      · rw [hk, hget, Option.map_some, afterPass, hflag, Bool.false_and, ← hflag]
      · rw [afterPass_of_ne (by simp [hk]), Option.map_id, id]
    · rw [hpassed, hflag]
      simp
    · rw [hpassed, hflag]
      rfl

omit [LinearOrder F] in
theorem mem_passes {graph : KNNGraph F} {n l : ℕ} :
    (n, l) ∈ passes nd graph ↔ n < nd ∧ l < (graph n).M := by
  simp [passes]

omit [LinearOrder F] in
theorem nodup_passes (nd : ℕ) (graph : KNNGraph F) : (passes nd graph).Nodup := by
  refine List.nodup_flatMap.mpr ⟨fun n _ => List.nodup_range.map fun l l' h => congrArg Prod.snd h, ?_⟩
  refine List.nodup_range.imp fun {n m} hne p hn hm => ?_
  obtain ⟨l, -, rfl⟩ := List.mem_map.mp hn
  obtain ⟨k, -, hk⟩ := List.mem_map.mp hm
  exact hne (congrArg Prod.fst hk).symm

omit [LinearOrder F] in
/-- **The samples of a node**, whatever the order of the passes: its first `M` neighbours that were
new, or those that were not. -/
theorem passed_perm {start : KNNGraph F} {done : List (ℕ × ℕ)} (hdone : done.Perm (passes nd start))
    {n : ℕ} (hn : n < nd) (hcount : (start n).M ≤ (start n).pool.length)
    (hnodup : (ids (start n).pool).Nodup) (new : Bool) :
    (done.filterMap (passed start new n)).Perm
      (ids (((start n).pool.take (start n).M).filter fun q => q.flag = new)) := by
  have hpassed : ∀ p u, passed start new n p = some u ↔ p.1 = n ∧
      ∃ q, (start n).pool[p.2]? = some q ∧ q.flag = new ∧ q.id = u := by
    intro p u
    unfold passed
    split
    · next h =>
      rw [Option.bind_eq_some_iff, and_iff_right h]
      refine exists_congr fun q => and_congr_right fun _ => ?_
      split <;> simp_all
    · next h => simp [h]
  refine (List.perm_ext_iff_of_nodup ?_ ?_).mpr fun u => ?_
  · refine (hdone.nodup_iff.mpr (nodup_passes nd start)).filterMap fun p p' u hp hp' => ?_
    obtain ⟨hn₁, q, hq, -, hid⟩ := (hpassed p u).mp hp
    obtain ⟨hn₂, q', hq', -, hid'⟩ := (hpassed p' u).mp hp'
    -- both are for the neighbour with this id
    have hget : ∀ {k : ℕ} {r : Neighbor F}, (start n).pool[k]? = some r →
        (ids (start n).pool)[k]? = some r.id := fun h => by rw [ids, List.getElem?_map, h, Option.map_some]
    have hlt : p.2 < (ids (start n).pool).length := (List.getElem?_eq_some_iff.mp (hget hq)).1
    refine Prod.ext (hn₁.trans hn₂.symm) ((List.getElem?_inj hlt hnodup).mp ?_)
    rw [hget hq, hget hq', hid, hid']
  · exact hnodup.sublist (((List.filter_sublist).trans (List.take_sublist _ _)).map _)
  · rw [List.mem_filterMap]
    constructor
    · rintro ⟨⟨m, l⟩, hp, hu⟩
      obtain ⟨rfl, q, hq, hflag, rfl⟩ := (hpassed _ u).mp hu
      have hl := (mem_passes.mp (hdone.mem_iff.mp hp)).2
      refine List.mem_map.mpr ⟨q, List.mem_filter.mpr ⟨?_, decide_eq_true hflag⟩, rfl⟩
      exact List.mem_of_getElem? ((List.getElem?_take_of_lt hl).trans hq)
    · intro hu
      obtain ⟨q, hq, rfl⟩ := List.mem_map.mp hu
      obtain ⟨hq, hflag⟩ := List.mem_filter.mp hq
      obtain ⟨l, hl, hget⟩ := List.getElem_of_mem hq
      rw [List.length_take, Nat.min_eq_left hcount] at hl
      have hp := hdone.mem_iff.mpr (mem_passes.mpr ⟨hn, hl⟩)
      refine ⟨(n, l), hp, (hpassed _ _).mpr ⟨rfl, q, ?_, of_decide_eq_true hflag, rfl⟩⟩
      rw [List.getElem_take] at hget
      exact List.getElem?_eq_some_iff.mpr ⟨_, hget⟩

/-- A node after an update: the pool has not become worse, at most `S` neighbours that were new
are joined next, together with at most `R` reverse ones, and they are not new any more. -/
structure Updated (P : Parameters) (d : ℕ → F) (before after : Nhood F) : Prop where
  improves : Improves d P.L (ids before.pool) (ids after.pool)
  samples  : ∃ fresh reversed, after.nn_new = fresh ++ reversed ∧ fresh.length ≤ P.S ∧
    reversed.length ≤ P.R ∧ (∀ u ∈ fresh, ∃ p ∈ before.pool, p.id = u ∧ p.flag = true) ∧
    ∀ p ∈ after.pool, p.flag = true ↔ p.id ∉ fresh ∧ ∃ q ∈ before.pool, q.id = p.id ∧ q.flag = true
  old      : after.nn_old.length ≤ 2 * P.R

omit [LinearOrder F] in
/-- Pools that differ in flags. -/
theorem PoolOk.of_core {d : ℕ → F} {owner : ℕ} {pool pool' : List (Neighbor F)}
    (hcore : pool'.map (fun q => (q.id, q.distance)) = pool.map fun q => (q.id, q.distance))
    (h : PoolOk d nd owner pool) : ids pool' = ids pool ∧ PoolOk d nd owner pool' := by
  have hids : ids pool' = ids pool := by
    have hfst := congrArg (List.map Prod.fst) hcore
    rwa [List.map_map, List.map_map] at hfst
  have hmem : ∀ p ∈ pool', ∃ q ∈ pool, q.id = p.id ∧ q.distance = p.distance := by
    intro p hp
    have hp' : (p.id, p.distance) ∈ pool.map fun q => (q.id, q.distance) :=
      hcore ▸ List.mem_map_of_mem hp
    obtain ⟨q, hq, heq⟩ := List.mem_map.mp hp'
    exact ⟨q, hq, congrArg Prod.fst heq, congrArg Prod.snd heq⟩
  refine ⟨hids, hids ▸ h.nodup, fun p hp => ?_, fun p hp => ?_⟩
  · obtain ⟨q, hq, hid, -⟩ := hmem p hp
    exact hid ▸ h.node q hq
  · obtain ⟨q, hq, hid, hdist⟩ := hmem p hp
    exact hid ▸ hdist ▸ h.distance q hq

omit [LinearOrder F] in
/-- Which neighbours are sampled as new ones. -/
theorem mem_fresh {pool : List (Neighbor F)} (hnodup : (ids pool).Nodup) {l M : ℕ} {q : Neighbor F}
    (hq : pool[l]? = some q) :
    q.id ∈ ids ((pool.take M).filter fun q => q.flag = true) ↔ l < M ∧ q.flag = true := by
  constructor
  · intro hmem
    obtain ⟨q', hq', hid⟩ := List.mem_map.mp hmem
    obtain ⟨hq', hflag⟩ := List.mem_filter.mp hq'
    have heq : q' = q := List.inj_on_of_nodup_map hnodup (List.mem_of_mem_take hq')
      (List.mem_of_getElem? hq) hid
    subst heq
    obtain ⟨k, hk, hget⟩ := List.getElem_of_mem hq'
    rw [List.getElem_take] at hget
    rw [List.length_take] at hk
    have hk' : k < pool.length := hk.trans_le (Nat.min_le_right _ _)
    have hkl : k = l := (List.getElem?_inj hk' (List.Nodup.of_map _ hnodup)).mp (by
      rw [List.getElem?_eq_getElem hk', hget, hq])
    exact ⟨hkl ▸ hk.trans_le (Nat.min_le_left _ _), of_decide_eq_true hflag⟩
  · rintro ⟨hl, hflag⟩
    exact List.mem_map_of_mem (List.mem_filter.mpr
      ⟨List.mem_of_getElem? ((List.getElem?_take_of_lt hl).trans hq), decide_eq_true hflag⟩)

omit [LinearOrder F] in
/-- There are at most `R` reverse neighbours, so none of them are dropped. -/
theorem merge_eq (P : Parameters) (shuffle : List ℕ → List ℕ) (nhood : Nhood F) (hnew : nhood.rnn_new.length ≤ P.R)
    (hold : nhood.rnn_old.length ≤ P.R) : merge P shuffle nhood = { nhood with
      nn_new := nhood.nn_new ++ nhood.rnn_new
      nn_old := (nhood.nn_old ++ nhood.rnn_old).take (P.R * 2 % 2 ^ 32)
      rnn_new := []
      rnn_old := [] } := by
  have hkeep : ∀ rnn : List ℕ, rnn.length ≤ P.R →
      (if P.R ≠ 0 ∧ P.R < rnn.length then (shuffle rnn).take P.R else rnn) = rnn :=
    fun rnn hrnn => if_neg fun h => absurd h.2 (not_lt.mpr hrnn)
  have htake : ∀ l : List ℕ, (if P.R * 2 % 2 ^ 32 < l.length then l.take (P.R * 2 % 2 ^ 32) else l) =
      l.take (P.R * 2 % 2 ^ 32) := fun l => by
    split
    · rfl
    · next hle => exact (List.take_of_length_le (not_lt.mp hle)).symm
  unfold merge
  dsimp only
  rw [hkeep _ hnew, hkeep _ hold, htake]

/-- A node after all passes: the neighbours that were sampled are not new any more. -/
structure Passed (P : Parameters) (nd : ℕ) (start nhood : Nhood F) : Prop where
  pool     : ∀ l, nhood.pool[l]? = (start.pool[l]?).map fun q =>
    Neighbor.mk q.id q.distance (q.flag && !decide (l < start.M))
  capacity : nhood.capacity = start.capacity
  nn_new   : nhood.nn_new.Perm (ids ((start.pool.take start.M).filter fun q => q.flag = true))
  nn_old   : nhood.nn_old.Perm (ids ((start.pool.take start.M).filter fun q => q.flag = false))
  rnn_new  : nhood.rnn_new.length ≤ P.R ∧ ∀ u ∈ nhood.rnn_new, u < nd
  rnn_old  : nhood.rnn_old.length ≤ P.R ∧ ∀ u ∈ nhood.rnn_old, u < nd

omit [LinearOrder F] in
/-- **All passes**, in any order. -/
theorem passes_returns (hR : 0 < P.R) {start : KNNGraph F}
    (hpool : ∀ i < nd, (start i).pool ≠ [] ∧ ∀ p ∈ (start i).pool, p.id < nd ∧ p.id ≠ i)
    (hcount : ∀ i < nd, (start i).M ≤ (start i).pool.length)
    (hnodup : ∀ i < nd, (ids (start i).pool).Nodup)
    (hnn : ∀ i, (start i).nn_new = [] ∧ (start i).nn_old = [])
    (hrnn : ∀ i < nd, (start i).rnn_new = [] ∧ (start i).rnn_old = []) (turn : Turn F) :
    ∃ last, Returns ((turn.updateOrder (passes nd start)).foldlM (updateStep P nd turn) start) last ∧
      ∀ i < nd, Passed P nd (start i) (last i) := by
  have hperm := turn.update_perm (passes nd start)
  have hinit : UpdateInv P nd start [] start := by
    refine ⟨fun n l => ?_, fun n => rfl, fun n => (hnn n).1, fun n => (hnn n).2, fun n hn => ?_,
      fun n hn => ?_⟩
    · have hnone : afterPass (F := F) [] n l = id := by
        funext q
        simp [afterPass]
      rw [hnone, Option.map_id, id]
    · simp [(hrnn n hn).1]
    · simp [(hrnn n hn).2]
  obtain ⟨last, hret, hinv⟩ := foldlM_returns (UpdateInv P nd start)
    (l := turn.updateOrder (passes nd start)) (f := updateStep P nd turn)
    (fun pre p post g hsplit hinv => by
      obtain ⟨n, l⟩ := p
      have hp : (n, l) ∈ passes nd start :=
        hperm.mem_iff.mp (hsplit ▸ List.mem_append_right _ List.mem_cons_self)
      obtain ⟨hn, hl⟩ := mem_passes.mp hp
      have hdistinct := hperm.nodup_iff.mpr (nodup_passes nd start)
      rw [hsplit, List.nodup_append] at hdistinct
      exact updateStep_returns hR hinv hpool turn hn (hl.trans_le (hcount n hn))
        fun hmem => hdistinct.2.2 _ hmem _ List.mem_cons_self rfl) hinit
  refine ⟨last, hret, fun i hi => ⟨fun l => ?_, hinv.capacity i, ?_, ?_, hinv.rnn_new i hi,
    hinv.rnn_old i hi⟩⟩
  · have hdone : (i, l) ∈ turn.updateOrder (passes nd start) ↔ l < (start i).M := by
      rw [hperm.mem_iff, mem_passes, and_iff_right hi]
    rw [hinv.pool i l]
    refine congrArg (fun f => ((start i).pool[l]?).map f) (funext fun q => ?_)
    rw [afterPass, decide_eq_decide.mpr hdone]
  · exact (hinv.nn_new i).symm ▸ passed_perm hperm hi (hcount i hi) (hnodup i hi) true
  · exact (hinv.nn_old i).symm ▸ passed_perm hperm hi (hcount i hi) (hnodup i hi) false

section Node

variable {d : ℕ → F} {owner : ℕ} {before start nhood : Nhood F}

omit [LinearOrder F] in
/-- The pool after all passes differs in flags only. -/
theorem Passed.core (h : Passed P nd start nhood) :
    nhood.pool.map (fun q => (q.id, q.distance)) = start.pool.map fun q => (q.id, q.distance) := by
  refine List.ext_getElem? fun l => ?_
  rw [List.getElem?_map, List.getElem?_map, h.pool l, Option.map_map]
  rfl

omit [LinearOrder F] in
/-- What is joined next are nodes. -/
theorem Passed.node_lt (h : Passed P nd start nhood) (hnode : ∀ p ∈ start.pool, p.id < nd) :
    ∀ u, u ∈ nhood.nn_new ∨ u ∈ nhood.rnn_new ∨ u ∈ nhood.nn_old ∨ u ∈ nhood.rnn_old → u < nd := by
  have hsample : ∀ new, ∀ u ∈ ids ((start.pool.take start.M).filter fun q => q.flag = new), u < nd := by
    intro new u hu
    obtain ⟨q, hq, rfl⟩ := List.mem_map.mp hu
    exact hnode q (List.mem_of_mem_take (List.mem_of_mem_filter hq))
  rintro u (hu | hu | hu | hu)
  · exact hsample true u (h.nn_new.mem_iff.mp hu)
  · exact h.rnn_new.2 u hu
  · exact hsample false u (h.nn_old.mem_iff.mp hu)
  · exact h.rnn_old.2 u hu

/-- **A node after the update.** -/
theorem updated_of_passed (hbefore : (ids before.pool).Nodup)
    (hselected : Selected P d nd owner before start) (h : Passed P nd start nhood)
    (H : HeapAlgorithms (Neighbor.distance (K := F))) {after : Nhood F}
    (hafter : after = { nhood with
      pool := H.make_heap nhood.pool
      nn_new := nhood.nn_new ++ nhood.rnn_new
      nn_old := (nhood.nn_old ++ nhood.rnn_old).take (P.R * 2 % 2 ^ 32)
      rnn_new := []
      rnn_old := [] }) :
    IsPool H d nd owner after.capacity after.pool ∧ Updated P d before after := by
  have hmake := H.make_perm nhood.pool
  obtain ⟨hids, hok⟩ := PoolOk.of_core h.core hselected.toPoolOk
  have hlen : nhood.pool.length = start.pool.length := by
    have := congrArg List.length hids
    rwa [ids, ids, List.length_map, List.length_map] at this
  rw [hafter]
  refine ⟨⟨hok.perm hmake.symm, H.isHeap_make _, fun hnil => ?_, ?_⟩, ?_,
    ⟨nhood.nn_new, nhood.rnn_new, rfl, ?_, h.rnn_new.1, fun u hu => ?_, fun p hp => ?_⟩, ?_⟩
  · have hzero := hlen.symm.trans (hmake.length_eq.symm.trans (congrArg List.length hnil))
    exact hselected.pos (List.length_eq_zero_iff.mp hzero)
  · dsimp only
    rw [hmake.length_eq, hlen, h.capacity]
    exact hselected.fits
  · exact (hids ▸ hselected.improves).trans (improves_perm P.L (hmake.map Neighbor.id).symm)
  · rw [h.nn_new.length_eq, ids, List.length_map]
    simpa using hselected.new
  · obtain ⟨q, hq, hid⟩ := List.mem_map.mp (h.nn_new.mem_iff.mp hu)
    obtain ⟨hq, hflag⟩ := List.mem_filter.mp hq
    exact ⟨q, hselected.kept q (List.mem_of_mem_take hq), hid, of_decide_eq_true hflag⟩
  · -- the flag of `p` is that of a neighbour that was in the pool before
    obtain ⟨l, hl⟩ := List.mem_iff_getElem?.mp (hmake.mem_iff.mp hp)
    rw [h.pool l] at hl
    obtain ⟨q, hq, rfl⟩ := Option.map_eq_some_iff.mp hl
    have hkept := hselected.kept q (List.mem_of_getElem? hq)
    have hunique : (∃ r ∈ before.pool, r.id = q.id ∧ r.flag = true) ↔ q.flag = true := by
      refine ⟨fun ⟨r, hr, hid, hflag⟩ => ?_, fun hflag => ⟨q, hkept, rfl, hflag⟩⟩
      rwa [← List.inj_on_of_nodup_map hbefore hr hkept hid]
    dsimp only
    rw [hunique, h.nn_new.mem_iff, mem_fresh hselected.nodup hq, Bool.and_eq_true, Bool.not_eq_true',
      decide_eq_false_iff_not]
    tauto
  · dsimp only
    rw [List.length_take]
    have := Nat.mod_le (P.R * 2) (2 ^ 32)
    omega

end Node

/-- **An update.** -/
theorem update_returns (hL : 0 < P.L) (hR : 0 < P.R) {graph : KNNGraph F} (h : Ready dist nd H graph)
    (S : Sorting F) (turn : Turn F) :
    ∃ graph', Returns (update P nd S H turn graph) graph' ∧ Ready dist nd H graph' ∧
      ∀ i < nd, Updated P (dist i) (graph i) (graph' i) := by
  obtain ⟨start, hstart⟩ : ∃ start : KNNGraph F, start = fun n =>
    select P S { graph n with nn_new := [], nn_old := [] } := ⟨_, rfl⟩
  have hselected : ∀ i < nd, Selected P (dist i) nd i (graph i) (start i) := fun i hi => by
    have hspec := select_spec hL { graph i with nn_new := [], nn_old := [] } (h.pool i hi) S
    rw [hstart]
    exact ⟨hspec.toPoolOk, hspec.improves, hspec.kept, hspec.pos, hspec.fits, hspec.count, hspec.new⟩
  obtain ⟨last, hret, hpassed⟩ := passes_returns hR
    (fun i hi => ⟨(hselected i hi).pos, (hselected i hi).node⟩) (fun i hi => (hselected i hi).count)
    (fun i hi => (hselected i hi).nodup) (fun i => hstart ▸ ⟨rfl, rfl⟩)
    (fun i hi => hstart ▸ ⟨h.rnn_new i hi, h.rnn_old i hi⟩) turn
  have hmerge := fun i hi => merge_eq P turn.shuffle { last i with pool := H.make_heap (last i).pool }
    (hpassed i hi).rnn_new.1 (hpassed i hi).rnn_old.1
  have hupdated := fun i hi => updated_of_passed (h.pool i hi).nodup (hselected i hi) (hpassed i hi) H
    (hmerge i hi)
  refine ⟨_, ?_, ⟨fun i hi => (hupdated i hi).1, fun i hi u hu => ?_, fun i hi => ?_, fun i hi => ?_⟩,
    fun i hi => (hupdated i hi).2⟩
  · unfold update
    dsimp only
    rw [← hstart]
    exact hret.bind (returns_pure _)
  · rw [hmerge i hi] at hu
    refine (hpassed i hi).node_lt (fun p hp => ((hselected i hi).node p hp).1) u ?_
    simp only [List.mem_append] at hu
    rcases hu with (hu | hu) | hu
    · exact Or.inl hu
    · exact Or.inr (Or.inl hu)
    · exact Or.inr (Or.inr (List.mem_append.mp (List.mem_of_mem_take hu)))
  · rw [hmerge i hi]
  · rw [hmerge i hi]

end Update

end Mqo.Build.Efanna
