import Mqo.Data.Loader
import Mqo.Trajectory.Interface

/-!
# MQO — when the sampling of the root weight ends

`get_weight_for_root` draws 3000 pairs with `sample_two`, which redraws the
second index until it differs from the first. The loaders let `n_query = 1`
through, and then there is no second index: both options that sample run
forever, whatever is drawn.

* `getWeightForRoot_returns_iff` — the weight is defined exactly on the
  streams on which every call of `sample_two` yields two different indices;
* `sampleTwo_diverges`           — with one query no call ends;
* `mqoCanTerminate_iff`          — the options `lsh` and `mixed_modified` can
  terminate on a loaded file exactly when it has two queries.
-/

namespace Mqo

open Prog IntOffset

-- ---------------------------------------------------------------------------
-- The calls of `sample_two`
-- ---------------------------------------------------------------------------

/-- The given number of calls of `sample_two`, one after the other, all return two
different indices below `n_query`. -/
def SamplesDistinct (n_query : ℕ) : ℕ → Gen → Prop
  | 0, _ => True
  | calls + 1, gen => ∃ a b gen', Returns (sampleTwo n_query gen) ((a, b), gen') ∧
      a < n_query ∧ b < n_query ∧ a ≠ b ∧ SamplesDistinct n_query calls gen'

/-- Where the draws vary all calls return. -/
theorem samplesDistinct_of_varies {n_query : ℕ} (hn : 0 < n_query) :
    ∀ (calls : ℕ) (gen : Gen), Varies n_query gen → SamplesDistinct n_query calls gen
  | 0, _, _ => trivial
  | calls + 1, gen, h => by
    obtain ⟨r, hr, ha, hb, hne, hv⟩ := sampleTwo_returns hn h
    exact ⟨r.1.1, r.1.2, r.2, hr, ha, hb, hne, samplesDistinct_of_varies hn calls r.2 hv⟩

/-- Two different indices need two queries. -/
theorem SamplesDistinct.two_le {n_query calls : ℕ} {gen : Gen}
    (h : SamplesDistinct n_query (calls + 1) gen) : 2 ≤ n_query := by
  obtain ⟨a, b, gen', -, ha, hb, hne, -⟩ := h
  omega

/-- What a call returns is two different indices. -/
theorem sampleTwo_distinct {n_query : ℕ} (hn : 0 < n_query) {gen : Gen} {r : (ℕ × ℕ) × Gen}
    (h : Returns (sampleTwo n_query gen) r) :
    r.1.1 < n_query ∧ r.1.2 < n_query ∧ r.1.1 ≠ r.1.2 := by
  have hloop : Returns (loop (redraw n_query (uniformInt n_query gen).1) (uniformInt n_query gen).2) r :=
    h
  refine loop_inv (fun _ => True) (fun r => r.1.1 < n_query ∧ r.1.2 < n_query ∧ r.1.1 ≠ r.1.2)
    (fun _ _ _ _ => trivial) (fun s r _ hr => ?_) trivial hloop
  have hr := hr.of_pure
  split at hr
  · cases hr
  · next hne =>
    cases hr
    exact ⟨Nat.mod_lt _ hn, Nat.mod_lt _ hn, fun h => hne h.symm⟩

/-- With one query the second index never differs from the first. -/
theorem sampleTwo_diverges (gen : Gen) : Diverges (sampleTwo 1 gen) := by
  have hstep : ∀ s : Gen, True → ∃ s', Returns (redraw 1 (uniformInt 1 gen).1 s) (.inl s') ∧ True := by
    intro s _
    refine ⟨(uniformInt 1 s).2, ?_, trivial⟩
    have heq : (uniformInt 1 s).1 = (uniformInt 1 gen).1 := by
      simp only [uniformInt, Nat.mod_one]
    rw [redraw]
    simp only [if_pos heq]
    exact returns_pure _
  exact loop_diverges (fun _ => True) hstep trivial

-- ---------------------------------------------------------------------------
-- The weight of a root
-- ---------------------------------------------------------------------------

section RootWeight

variable {F D : Type} [Scalar F] [Scalar D] [Widen F D]

/-- The body of the loop of `get_weight_for_root`. -/
def addSample (query : ℤ → F) (n_query dim : ℕ) (state : D × Gen) : Run (D × Gen) := do
  let random_pair ← sampleTwo n_query state.2
  let distance := getDistance query dim random_pair.1.1 random_pair.1.2
  pure (state.1 + widen distance, random_pair.2)

theorem getWeightForRoot_eq (query : ℤ → F) (n_query dim : ℕ) (gen : Gen) (n_sample : ℕ) :
    getWeightForRoot (D := D) query n_query dim gen n_sample =
      (List.range n_sample).foldlM (fun state _ => addSample query n_query dim state) (0, gen) >>=
        fun sampled => pure (sampled.1 / Scalar.ofInt n_sample, sampled.2) := rfl

theorem samples_return_iff (query : ℤ → F) {n_query : ℕ} (hn : 0 < n_query) (dim : ℕ)
    (l : List ℕ) (state : D × Gen) :
    (∃ state', Returns (l.foldlM (fun state _ => addSample query n_query dim state) state) state') ↔
      SamplesDistinct n_query l.length state.2 := by
  induction l generalizing state with
  | nil => exact ⟨fun _ => trivial, fun _ => ⟨state, foldlM_nil _ state⟩⟩
  | cons i l ih =>
    constructor
    · rintro ⟨state', h⟩
      rw [List.foldlM_cons] at h
      obtain ⟨s, hs, hrest⟩ := h.of_bind
      obtain ⟨r, hr, hpure⟩ := hs.of_bind
      obtain ⟨ha, hb, hne⟩ := sampleTwo_distinct hn hr
      have hgen : s.2 = r.2 := by rw [hpure.of_pure]
      exact ⟨r.1.1, r.1.2, r.2, hr, ha, hb, hne, hgen ▸ (ih s).mp ⟨state', hrest⟩⟩
    · rintro ⟨a, b, gen', hr, -, -, -, hcalls⟩
      have hs : Returns (addSample (D := D) query n_query dim state)
          (state.1 + widen (getDistance query dim a b), gen') := hr.bind (returns_pure _)
      obtain ⟨state', hrest⟩ := (ih (state.1 + widen (getDistance query dim a b), gen')).mpr hcalls
      exact ⟨state', foldlM_cons hs hrest⟩

/-- **The root weight** is defined exactly where every call of `sample_two` yields
two different indices. -/
theorem getWeightForRoot_returns_iff (query : ℤ → F) {n_query : ℕ} (hn : 0 < n_query) (dim : ℕ)
    (gen : Gen) (n_sample : ℕ) :
    (∃ r : D × Gen, Returns (getWeightForRoot query n_query dim gen n_sample) r) ↔
      SamplesDistinct n_query n_sample gen := by
  have hiff := samples_return_iff (D := D) query hn dim (List.range n_sample) (0, gen)
  rw [List.length_range] at hiff
  rw [← hiff]
  constructor
  · rintro ⟨r, hr⟩
    obtain ⟨s, hs, -⟩ := hr.of_bind
    exact ⟨s, hs⟩
  · rintro ⟨s, hs⟩
    exact ⟨_, hs.bind (returns_pure _)⟩

/-- With one query the sampling runs forever. -/
theorem getWeightForRoot_diverges (query : ℤ → F) (dim : ℕ) (gen : Gen) {n_sample : ℕ}
    (h : 0 < n_sample) : Diverges (getWeightForRoot (D := D) query 1 dim gen n_sample) := by
  obtain ⟨k, rfl⟩ := Nat.exists_eq_succ_of_ne_zero h.ne'
  rw [getWeightForRoot_eq, List.range_succ_eq_map, List.foldlM_cons]
  exact (sampleTwo_diverges gen).bind.bind.bind

end RootWeight

-- ---------------------------------------------------------------------------
-- The options that sample
-- ---------------------------------------------------------------------------

section Options

variable {F D : Type} [Scalar F] [Scalar D] [Widen F D]

/-- The matrix behind the pointer that a loader returns, and what lies outside it. -/
def Loaded.query (m : Loaded F) (outside : ℤ → F) : ℤ → F := fun k =>
  if Inside m.values.length k then m.values.getD k.toNat 0 else outside k

/-- The stages before the sampling are defined: the parameters are given, the number of values
drawn for the hyperplanes is an `int`, and for `mixed_modified` so are those of the large groups,
whose indexes link their own ids. -/
def ReachesSampling (env : Env F) (option : String) (n_query dim : ℕ) (query : ℤ → F)
    (use_l2 : Bool) (params : Params) : Prop :=
  FiniteDistances use_l2 query dim n_query ∧ ∃ B, params "B" = some B ∧ 1 ≤ B ∧
    (B - 1) * dim < 2 ^ 31 ∧
    (option = "mixed_modified" → ∃ M, params "M" = some M ∧
      ∀ pq, SplitResult env.groupQueue env.normDist query n_query dim B pq →
        ∀ gi ∈ env.groupQueue.elems pq, 500 < gi.group.length →
          gi.group.length * dim < 2 ^ 31 ∧
          BuildInRange env.builders params.baseOnly use_l2 M ((params "ef").getD M) query dim
            gi.group)

/-- `mqo` can terminate: on some stream of draws every call of `sample_two` yields two
different indices, and there `mqo` returns if the stages before are defined. -/
def MqoCanTerminate (D : Type) [Scalar D] [Widen F D] (env : Env F) (option : String)
    (n_query dim : ℕ) (query : ℤ → F) (use_l2 : Bool) (params : Params) : Prop :=
  ∃ gen, SamplesDistinct n_query 3000 gen ∧
    (ReachesSampling env option n_query dim query use_l2 params →
      ∃ r, Returns (mqo D env option n_query dim query use_l2 params gen) r)

variable {env : Env F} {option : String} {n_query dim : ℕ} {query : ℤ → F} {use_l2 : Bool}
  {params : Params}

/-- With two queries `mqo` returns on every stream whose draws vary. -/
theorem ReachesSampling.mqo_returns
    (h : ReachesSampling env option n_query dim query use_l2 params) (hn : 2 ≤ n_query)
    (hoption : option = "lsh" ∨ option = "mixed_modified") {gen : Gen}
    (hgen : Varies n_query gen) :
    ∃ r, Returns (mqo D env option n_query dim query use_l2 params gen) r := by
  obtain ⟨hfin, B, hB, hB1, hfit, hmixed⟩ := h
  rcases hoption with rfl | rfl
  · have hget : params.get "B" = B := by rw [Params.get, hB, Option.getD_some]
    obtain ⟨pq, r, -, hr, hpart, -, hforest, -⟩ := optimizeTrajectoryLshMst_spec (D := D)
      (Q := env.groupQueue) (by omega) hfin hgen env.normDist (hget.symm ▸ hB1) (hget.symm ▸ hfit)
    rw [← optimizeTrajectory_lsh] at hr
    obtain ⟨out, hout, -⟩ := mqo_of_accepted hr (hforest.accepted_of_partition hpart).forest
    exact ⟨_, hout⟩
  · obtain ⟨M, hM, hbuild⟩ := hmixed rfl
    obtain ⟨pq, totals, weight, -, hpart, hadded, -, hr⟩ :=
      optimizeTrajectoryMixedModifiedMst_spec (D := D) env.groupQueue env.normDist env.edgeQueue
        (by omega) hfin hgen hB hB1 hM hfit (fun pq hpq gi hgi hbig => (hbuild pq hpq gi hgi hbig).1)
        fun pq hpq gi hgi hbig => (hbuild pq hpq gi hgi hbig).2
    rw [← optimizeTrajectory_mixedModified] at hr
    obtain ⟨out, hout, -⟩ := mqo_of_accepted hr (hadded.forest.accepted_of_partition hpart).forest
    exact ⟨_, hout⟩

/-- With one query `mqo` runs forever, whatever is drawn. -/
theorem ReachesSampling.mqo_diverges (h : ReachesSampling env option 1 dim query use_l2 params)
    (hoption : option = "lsh" ∨ option = "mixed_modified") (gen : Gen) :
    Diverges (mqo D env option 1 dim query use_l2 params gen) := by
  obtain ⟨hfin, B, hB, hB1, hfit, hmixed⟩ := h
  obtain ⟨pq, hres⟩ := (splitResult_iff env.groupQueue env.normDist query one_pos dim hB1).mpr hfit
  obtain ⟨hpart, -⟩ := hres.spec one_pos hB1
  have hgroups := hres
  obtain ⟨hyperplane, hhyp, hsplit⟩ := hres
  have hsample := getWeightForRoot_diverges (D := D) query dim gen (show 0 < 3000 by decide)
  rcases hoption with rfl | rfl
  · obtain ⟨totals, htotals, -⟩ := mstOfGroups_spec (D := D) hfin hpart
    have hget : params.get "B" = B := by rw [Params.get, hB, Option.getD_some]
    rw [mqo, optimizeTrajectory_lsh, optimizeTrajectoryLshMst, hget]
    refine (hhyp.bind_diverges (hsplit.bind_diverges (htotals.bind_diverges ?_))).bind
    exact Diverges.bind hsample
  · obtain ⟨M, hM, hbuild⟩ := hmixed rfl
    obtain ⟨totals, htotals, -⟩ := mixedGroups_spec (D := D) env.edgeQueue hfin hpart
      (fun gi hgi hbig => (hbuild pq hgroups gi hgi hbig).1)
      fun gi hgi hbig => (hbuild pq hgroups gi hgi hbig).2
    rw [mqo, optimizeTrajectory_mixedModified, optimizeTrajectoryMixedModifiedMst]
    refine ((lookup_returns hB).bind_diverges ((lookup_returns hM).bind_diverges
      (hhyp.bind_diverges (hsplit.bind_diverges (htotals.bind_diverges ?_))))).bind
    exact Diverges.bind hsample

/-- **Termination.** On a file that `get_data` loads, the options that sample can
terminate exactly when the file does not hold a single query. -/
theorem mqoCanTerminate_iff (env : Env F) {ofBits : UInt32 → F} {disk : BinaryDisk}
    {qpath : String} {m : Loaded F} (hload : Returns (getData ofBits disk qpath) m)
    (outside : ℤ → F) (hoption : option = "lsh" ∨ option = "mixed_modified") (use_l2 : Bool)
    (params : Params) :
    MqoCanTerminate D env option m.n.toInt.toNat m.d.toInt.toNat (m.query outside) use_l2
        params ↔
      m.n.toInt ≠ 1 := by
  have hpos := (validHeader_iff.mp (getData_valid hload).1).1
  constructor
  · rintro ⟨gen, hcalls, -⟩
    have := hcalls.two_le
    omega
  · intro hn
    have hgen : Varies m.n.toInt.toNat fun k => k := varies_counting (by omega)
    exact ⟨_, samplesDistinct_of_varies (by omega) 3000 _ hgen,
      fun hreach => hreach.mqo_returns (by omega) hoption hgen⟩

-- ---------------------------------------------------------------------------
-- Files with one and with two queries
-- ---------------------------------------------------------------------------

/-- Two files of one-dimensional vectors. -/
def sampleFiles : BinaryDisk := fun name =>
  if name = "one.u8bin" then some [1, 0, 0, 0, 1, 0, 0, 0, 7]
  else if name = "two.u8bin" then some [2, 0, 0, 0, 1, 0, 0, 0, 7, 9]
  else none

theorem getData_one : Returns (getData (fun _ => 0) sampleFiles "one.u8bin")
    ⟨1, 1, [(.fin 7 : Exact ℚ)]⟩ := returns_of_value (n := 0) (by decide +kernel)

theorem getData_two : Returns (getData (fun _ => 0) sampleFiles "two.u8bin")
    ⟨2, 1, [(.fin 7 : Exact ℚ), .fin 9]⟩ := returns_of_value (n := 0) (by decide +kernel)

/-- On the file with two queries both options can terminate. -/
theorem mqoCanTerminate_two : MqoCanTerminate (Exact ℚ) sampleEnv "lsh" 2 1
    (Loaded.query ⟨2, 1, [(.fin 7 : Exact ℚ), .fin 9]⟩ fun _ => 0) true sampleParams :=
  (mqoCanTerminate_iff sampleEnv getData_two (fun _ => 0) (Or.inl rfl) true sampleParams).mpr (by decide)

/-- On the file with one query neither option ever ends. -/
theorem mqo_one_diverges : ∃ m : Loaded (Exact ℚ),
    Returns (getData (fun _ => 0) sampleFiles "one.u8bin") m ∧ m.n = 1 ∧ m.d = 1 ∧
    ∀ outside option, option = "lsh" ∨ option = "mixed_modified" →
      (∀ gen, Diverges (mqo (Exact ℚ) sampleEnv option 1 1 (m.query outside) true sampleParams
        gen)) ∧
      ¬ MqoCanTerminate (Exact ℚ) sampleEnv option 1 1 (m.query outside) true sampleParams := by
  refine ⟨_, getData_one, rfl, rfl, fun outside option hoption => ⟨?_, ?_⟩⟩
  · -- there are no two queries whose distance could be infinite, and no large group
    have hreach : ReachesSampling sampleEnv option 1 1
        (Loaded.query ⟨1, 1, [(.fin 7 : Exact ℚ)]⟩ outside) true sampleParams := by
      refine ⟨fun i hi j hj hij => absurd hij (by omega), 1, rfl, le_refl 1, by decide, fun _ => ?_⟩
      refine ⟨2, rfl, fun pq hpq gi hgi hbig => ?_⟩
      have hlen := ((hpq.spec one_pos (le_refl 1)).1.isGroup hgi).length_le
      omega
    exact hreach.mqo_diverges hoption
  · rintro ⟨gen, hcalls, -⟩
    have := hcalls.two_le
    omega

end Options

end Mqo
