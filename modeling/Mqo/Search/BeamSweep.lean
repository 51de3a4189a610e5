import Mqo.Search.BeamProduct
import Mqo.Trajectory.Basic

/-!
# MQO — the sweep over the beam sizes

The loop of `run_vamana.cpp` and of `run_nsg.cpp` around the searches. The beam size is
an `int` that is multiplied by a `float` after each round, and the ratio is read from the
command line before.

* `Reached`              — the beam sizes that a sweep comes to;
* `beamSweep_upward_iff` — a sweep ends with beam sizes that have grown each time if and only
  if every beam size that is reached grows;
* `grows_iff`            — for which ratios it does;
* `sweeps_upward_iff`    — the two programs.
-/

namespace Mqo.Search

open Prog FloatRounding

-- ---------------------------------------------------------------------------
-- The loop
-- ---------------------------------------------------------------------------

/-- The ways in which a sweep can stop without a result. -/
inductive SweepFault where
  /-- A search failed. -/
  | search (fault : Fault)
  /-- A number that no `int` holds was converted to an `int`. -/
  | intConversion
  /-- `std::out_of_range`: the ratio is too large for a `float`. -/
  | outOfRange

/-- The runs of a sweep. -/
abbrev SweepRun (α : Type) := Prog SweepFault α

/-- `stof` of a numeral with this value. It refuses tiny values as well, which are left out: a
ratio above 1 is not one of them. -/
def stof (value : ℚ) : SweepRun ℚ :=
  if |binary32.round value| < 2 ^ 128 then pure (binary32.round value) else fault .outOfRange

/-- The beam size, and the rows that `result_handler` has. -/
structure SweepState (R : Type) where
  beamsize : ℤ
  rows : List (ℤ × R)

/-- One round of the `for` loop; `evaluate` runs the searches. -/
def sweepStep {R : Type} (evaluate : ℤ → SweepRun R) (next : ℤ → Option ℤ) (max_beamsize : ℤ)
    (s : SweepState R) : SweepRun (SweepState R ⊕ List (ℤ × R)) :=
  if s.beamsize ≤ max_beamsize then do
    let result ← evaluate s.beamsize
    match next s.beamsize with
    | some beamsize => pure (.inl ⟨beamsize, s.rows ++ [(s.beamsize, result)]⟩)
    | none => fault .intConversion
  else pure (.inr s.rows)

/-- The `for` loop, and the rows that are saved after it. -/
def beamSweep {R : Type} (evaluate : ℤ → SweepRun R) (next : ℤ → Option ℤ)
    (min_beamsize max_beamsize : ℤ) : SweepRun (List (ℤ × R)) :=
  loop (sweepStep evaluate next max_beamsize) ⟨min_beamsize, []⟩

section Programs

variable {R : Type}

/-- The sweep of `run_vamana`; `argument` is the number that stands in `argv[12]`. -/
def runVamanaSweep (get_recall get_recall_optimized : ℤ → ℤ → SweepRun R)
    (min_beamsize max_beamsize : Int32) (argument : ℚ) : SweepRun (List (ℤ × R × R)) := do
  let increment_ratio ← stof argument
  let topk := 1
  beamSweep (fun beamsize => do
      let resNormal ← get_recall topk beamsize
      let resOpt ← get_recall_optimized topk beamsize
      pure (resNormal, resOpt))
    (nextBeam increment_ratio) min_beamsize.toInt max_beamsize.toInt

/-- The sweep of `run_nsg`; `argument` is the number that stands in `argv[12]`. -/
def runNsgSweep (use_l2 : Bool)
    (get_recall get_recall_ip get_recall_optimized get_recall_optimized_ip : ℤ → ℤ → SweepRun R)
    (minbeamsize maxbeamsize : Int32) (argument : ℚ) : SweepRun (List (ℤ × R × R)) := do
  let increment_ratio ← stof argument
  beamSweep (fun beamsize => do
      let topk := 1
      let resNormal ← (if use_l2 then get_recall else get_recall_ip) topk beamsize
      let resOpt ←
        (if use_l2 then get_recall_optimized else get_recall_optimized_ip) topk beamsize
      pure (resNormal, resOpt))
    (nextBeam increment_ratio) minbeamsize.toInt maxbeamsize.toInt

end Programs

/-- The beam sizes that a sweep comes to. -/
inductive Reached (next : ℤ → Option ℤ) (min_beamsize max_beamsize : ℤ) : ℤ → Prop
  | start : min_beamsize ≤ max_beamsize → Reached next min_beamsize max_beamsize min_beamsize
  | next {b b' : ℤ} : Reached next min_beamsize max_beamsize b → next b = some b' →
      b' ≤ max_beamsize → Reached next min_beamsize max_beamsize b'

theorem Reached.le {next : ℤ → Option ℤ} {lo hi b : ℤ} (h : Reached next lo hi b) : b ≤ hi := by
  cases h with
  | start hle => exact hle
  | next _ _ hle => exact hle

/-- A sweep ends, with a larger beam size in each round. -/
def SweepsUpward {R : Type} (sweep : SweepRun (List (ℤ × R))) : Prop :=
  ∃ rows, Returns sweep rows ∧ (rows.map Prod.fst).Pairwise (· < ·)

-- ---------------------------------------------------------------------------
-- Runs of the loop
-- ---------------------------------------------------------------------------

section Sweep

variable {R : Type} {evaluate : ℤ → SweepRun R} {next : ℤ → Option ℤ} {lo hi : ℤ}

/-- One round whose product is an `int`. -/
theorem sweepStep_next (heval : ∀ b, ∃ r, Returns (evaluate b) r) {s : SweepState R} {b : ℤ}
    (hle : s.beamsize ≤ hi) (hnext : next s.beamsize = some b) :
    ∃ r, Returns (sweepStep evaluate next hi s) (.inl ⟨b, s.rows ++ [(s.beamsize, r)]⟩) := by
  obtain ⟨r, hr⟩ := heval s.beamsize
  refine ⟨r, ?_⟩
  unfold sweepStep
  rw [if_pos hle]
  refine hr.bind ?_
  rw [hnext]
  exact returns_pure _

/-- A run that ends comes to all beam sizes that are reached. -/
theorem run_from_reached (heval : ∀ b, ∃ r, Returns (evaluate b) r)
    {rows : List (ℤ × R)} (hret : Returns (beamSweep evaluate next lo hi) rows) {b : ℤ}
    (h : Reached next lo hi b) :
    ∃ s : SweepState R, s.beamsize = b ∧ Returns (loop (sweepStep evaluate next hi) s) rows := by
  induction h with
  | start _ => exact ⟨_, rfl, hret⟩
  | next hb hnext _ ih =>
    obtain ⟨s, rfl, hrun⟩ := ih
    obtain ⟨r, hstep⟩ := sweepStep_next heval hb.le hnext
    exact ⟨_, rfl, loop_of_next hstep hrun⟩

/-- Every product that is taken is an `int`. -/
theorem next_isSome_of_returns (heval : ∀ b, ∃ r, Returns (evaluate b) r)
    {rows : List (ℤ × R)} (hret : Returns (beamSweep evaluate next lo hi) rows) {b : ℤ}
    (h : Reached next lo hi b) : ∃ b', next b = some b' := by
  obtain ⟨s, rfl, hrun⟩ := run_from_reached heval hret h
  cases hnext : next s.beamsize with
  | some b' => exact ⟨b', rfl⟩
  | none =>
    obtain ⟨r, hr⟩ := heval s.beamsize
    have hfails : Fails (sweepStep evaluate next hi s) .intConversion := by
      unfold sweepStep
      rw [if_pos h.le]
      refine hr.bind_ends ?_
      rw [hnext]
      exact fails_fault _
    exact absurd (loop_fails hfails) hrun.not_fails

/-- A beam size that the product does not change is kept forever. -/
theorem beamSweep_diverges (heval : ∀ b, ∃ r, Returns (evaluate b) r) (hle : lo ≤ hi)
    (hnext : next lo = some lo) : Diverges (beamSweep evaluate next lo hi) := by
  refine loop_diverges (fun s => s.beamsize = lo) (fun s hs => ?_) rfl
  obtain ⟨r, hstep⟩ := sweepStep_next heval (hs ▸ hle) (hs ▸ hnext)
  exact ⟨_, hstep, hs⟩

/-- The beam size is reached, or above the maximum; the rows have come from smaller ones. -/
structure SweepInv (next : ℤ → Option ℤ) (lo hi : ℤ) (s : SweepState R) : Prop where
  ge      : lo ≤ s.beamsize
  reached : s.beamsize ≤ hi → Reached next lo hi s.beamsize
  sorted  : (s.rows.map Prod.fst).Pairwise (· < ·)
  below   : ∀ b ∈ s.rows.map Prod.fst, b < s.beamsize

/-- A larger beam size keeps the invariant. -/
theorem SweepInv.grow {s : SweepState R} (h : SweepInv next lo hi s) (hle : s.beamsize ≤ hi)
    {b : ℤ} (hnext : next s.beamsize = some b) (hlt : s.beamsize < b) (r : R) :
    SweepInv next lo hi ⟨b, s.rows ++ [(s.beamsize, r)]⟩ where
  ge := h.ge.trans hlt.le
  reached hb := (h.reached hle).next hnext hb
  sorted := by
    rw [List.map_append, List.pairwise_append]
    refine ⟨h.sorted, List.pairwise_singleton _ _, fun x hx y hy => ?_⟩
    obtain rfl := List.mem_singleton.mp hy
    exact h.below x hx
  below x hx := by
    rw [List.map_append, List.mem_append] at hx
    rcases hx with hx | hx
    · exact (h.below x hx).trans hlt
    · obtain rfl := List.mem_singleton.mp hx
      exact hlt

/-- **A sweep that grows in each round** ends. -/
theorem beamSweep_upward (heval : ∀ b, ∃ r, Returns (evaluate b) r)
    (hgrow : ∀ b, Reached next lo hi b → ∃ b', next b = some b' ∧ b < b') :
    SweepsUpward (beamSweep evaluate next lo hi) := by
  refine loop_returns (SweepInv next lo hi) (fun s => (hi + 1 - s.beamsize).toNat) _
    (fun s hs => ?_) ⟨le_rfl, .start, List.Pairwise.nil, fun b hb => absurd hb List.not_mem_nil⟩
  by_cases hle : s.beamsize ≤ hi
  · obtain ⟨b, hnext, hlt⟩ := hgrow _ (hs.reached hle)
    obtain ⟨r, hstep⟩ := sweepStep_next heval hle hnext
    refine Or.inl ⟨_, hstep, hs.grow hle hnext hlt r, ?_⟩
    dsimp only
    omega
  · refine Or.inr ⟨s.rows, ?_, hs.sorted⟩
    unfold sweepStep
    rw [if_neg hle]
    exact returns_pure _

/-- A round goes on with one more row, or ends with the rows that there are. -/
theorem sweepStep_inv {s : SweepState R} {r : SweepState R ⊕ List (ℤ × R)}
    (h : Returns (sweepStep evaluate next hi s) r) :
    (∃ b x, r = .inl ⟨b, s.rows ++ [(s.beamsize, x)]⟩) ∨ r = .inr s.rows := by
  unfold sweepStep at h
  split at h
  · obtain ⟨x, -, h⟩ := h.of_bind
    split at h
    · rename_i b _
      exact Or.inl ⟨b, x, h.of_pure⟩
    · exact absurd (fails_fault _) h.not_fails
  · exact Or.inr h.of_pure

/-- The rows of a state are the first ones of the result. -/
theorem rows_prefix {s : SweepState R} {rows : List (ℤ × R)}
    (h : Returns (loop (sweepStep evaluate next hi) s) rows) : s.rows <+: rows := by
  refine loop_inv (fun t => s.rows <+: t.rows) (fun rows => s.rows <+: rows)
    (fun t t' hpre hstep => ?_) (fun t rows hpre hstep => ?_) (List.prefix_refl _) h
  · obtain ⟨b, x, heq⟩ | heq := sweepStep_inv hstep
    · obtain rfl := Sum.inl.inj heq
      exact hpre.trans (List.prefix_append _ _)
    · cases heq
  · obtain ⟨b, x, heq⟩ | heq := sweepStep_inv hstep
    · cases heq
    · obtain rfl := Sum.inr.inj heq
      exact hpre

/-- **A sweep ends** with beam sizes that have grown each time if and only if every beam size
that it comes to grows. -/
theorem beamSweep_upward_iff (heval : ∀ b, ∃ r, Returns (evaluate b) r) :
    SweepsUpward (beamSweep evaluate next lo hi) ↔
      ∀ b, Reached next lo hi b → ∃ b', next b = some b' ∧ b < b' := by
  constructor
  · rintro ⟨rows, hret, hsorted⟩ b hb
    obtain ⟨b', hnext⟩ := next_isSome_of_returns heval hret hb
    refine ⟨b', hnext, ?_⟩
    by_cases hle : b' ≤ hi
    · -- both have a row, one after the other
      have hb' := hb.next hnext hle
      obtain ⟨b'', hnext'⟩ := next_isSome_of_returns heval hret hb'
      obtain ⟨s, rfl, hrun⟩ := run_from_reached heval hret hb
      obtain ⟨r, hstep⟩ := sweepStep_next heval hb.le hnext
      obtain ⟨r', hstep'⟩ := sweepStep_next (s := ⟨b', s.rows ++ [(s.beamsize, r)]⟩) heval hle hnext'
      have hpre := rows_prefix (loop_of_next hstep' (loop_of_next hstep hrun))
      have hpair := hsorted.sublist (hpre.sublist.map Prod.fst)
      simp only [List.map_append, List.append_assoc, List.map_cons, List.map_nil] at hpair
      have htail := (List.pairwise_append.mp hpair).2.1
      exact (List.pairwise_cons.mp htail).1 b' (List.mem_singleton_self b')
    · have := hb.le
      omega
  · exact beamSweep_upward heval

end Sweep

-- ---------------------------------------------------------------------------
-- The ratios
-- ---------------------------------------------------------------------------

section Ratio

variable {ratio : ℚ} {lo hi b : ℤ}

theorem not_reached_of_lt {next : ℤ → Option ℤ} (hlt : hi < lo) (b : ℤ) :
    ¬ Reached next lo hi b := by
  intro h
  induction h with
  | start hle => omega
  | next _ _ _ ih => exact ih

/-- A beam size stays positive where the ratio is not below 1. -/
theorem Reached.one_le (hratio : 1 ≤ ratio) (hlo : 1 ≤ lo) (h : Reached (nextBeam ratio) lo hi b) :
    1 ≤ b := by
  induction h with
  | start _ => exact hlo
  | @next b b' _ hnext _ ih =>
    rw [nextBeam_eq (by linarith) (by omega)] at hnext
    split at hnext
    · obtain rfl := Option.some.inj hnext
      have hone : binary32.IsNumber 1 := Format.isNumber_zpow (e := 0) (by decide)
      have hb : (1 : ℚ) ≤ binary32.round b :=
        hone.le_round zero_le_one (by exact_mod_cast ih)
      refine Int.le_floor.mpr ?_
      rw [Int.cast_one]
      exact hone.le_round zero_le_one (one_le_mul_of_one_le_of_one_le hb hratio)
    · cases hnext

/-- The next beam size is an `int` above the last one. -/
theorem nextBeam_grows_iff (hratio : 0 ≤ ratio) (hb : 0 ≤ b) :
    (∃ b', nextBeam ratio b = some b' ∧ b < b') ↔
      floatProduct ratio b < 2 ^ 31 ∧ (b : ℚ) + 1 ≤ floatProduct ratio b := by
  have hfloor : b < ⌊floatProduct ratio b⌋ ↔ (b : ℚ) + 1 ≤ floatProduct ratio b := by
    rw [← Int.add_one_le_iff, Int.le_floor]
    push_cast
    rfl
  rw [nextBeam_eq hratio hb, ← hfloor]
  constructor
  · rintro ⟨b', hnext, hlt⟩
    split at hnext
    · rename_i hfits
      obtain rfl := Option.some.inj hnext
      exact ⟨hfits, hlt⟩
    · cases hnext
  · rintro ⟨hfits, hlt⟩
    exact ⟨_, if_pos hfits, hlt⟩

/-- What the `float` product asks for: it adds at least 1 to the smallest beam size, by a ratio
above 1 or beyond the maximum at once, and no product leaves the range of `int`. -/
def GrowsInRange (ratio : ℚ) (lo hi : ℤ) : Prop :=
  hi < lo ∨ ((lo : ℚ) + 1 ≤ floatProduct ratio lo ∧
    (1 < ratio ∨ (hi : ℚ) + 1 ≤ floatProduct ratio lo) ∧
    ∀ b, Reached (nextBeam ratio) lo hi b → floatProduct ratio b < 2 ^ 31)

/-- No product leaves the range if that of the largest beam size does not. -/
theorem growsInRange_of_max (hratio : 1 < ratio) (hlo : 1 ≤ lo)
    (hadds : (lo : ℚ) + 1 ≤ floatProduct ratio lo) (hmax : floatProduct ratio hi < 2 ^ 31) :
    GrowsInRange ratio lo hi := by
  refine Or.inr ⟨hadds, Or.inl hratio, fun b hb => lt_of_le_of_lt ?_ hmax⟩
  have hone := hb.one_le hratio.le hlo
  exact floatProduct_mono (by linarith) (by omega) hb.le

/-- A ratio above 1 makes all beam sizes grow that are not below one that grows. -/
theorem Reached.grows (hnumber : binary32.IsNumber ratio) (hratio : 1 < ratio) (hlo : 1 ≤ lo)
    (hadds : (lo : ℚ) + 1 ≤ floatProduct ratio lo) (h : Reached (nextBeam ratio) lo hi b) :
    (b : ℚ) + 1 ≤ floatProduct ratio b := by
  refine floatProduct_grows hnumber hratio hlo ?_ hadds
  induction h with
  | start _ => exact le_rfl
  | @next b b' hb hnext _ ih =>
    have hgrows := floatProduct_grows hnumber hratio hlo ih hadds
    rw [nextBeam_eq (by linarith) (by omega)] at hnext
    split at hnext
    · obtain rfl := Option.some.inj hnext
      have : b + 1 ≤ ⌊floatProduct ratio b⌋ := Int.le_floor.mpr (by exact_mod_cast hgrows)
      omega
    · cases hnext

/-- Only the first beam size is reached if the first product is above the maximum. -/
theorem Reached.eq_start (hratio : 0 ≤ ratio) (hlo : 1 ≤ lo)
    (habove : (hi : ℚ) + 1 ≤ floatProduct ratio lo) (h : Reached (nextBeam ratio) lo hi b) :
    b = lo := by
  induction h with
  | start _ => rfl
  | @next b b' _ hnext hle ih =>
    subst ih
    rw [nextBeam_eq hratio (by omega)] at hnext
    split at hnext
    · obtain rfl := Option.some.inj hnext
      have : hi + 1 ≤ ⌊floatProduct ratio b⌋ := Int.le_floor.mpr (by exact_mod_cast habove)
      omega
    · cases hnext

/-- By the ratio 1 a beam size is rounded once, and then kept. -/
theorem floatProduct_one_stuck (hadds : (b : ℚ) + 1 ≤ floatProduct 1 b) (hb : 1 ≤ b) :
    ∃ b' : ℤ, floatProduct 1 b = b' ∧ floatProduct 1 b' = b' := by
  have hlarge : 2 ^ 23 ≤ b := by
    by_contra hsmall
    rw [floatProduct_one, round_int (by omega) (by omega)] at hadds
    linarith
  obtain ⟨b', hb'⟩ := exists_round_eq hlarge
  refine ⟨b', (floatProduct_one b).trans hb', ?_⟩
  rw [floatProduct_one, ← hb', binary32.round_round]

/-- **Growth**, from what the first product and the range of `int` say. -/
theorem grows_iff (hnumber : binary32.IsNumber ratio) (hratio : 1 ≤ ratio) (hlo : 1 ≤ lo) :
    (∀ b, Reached (nextBeam ratio) lo hi b → ∃ b', nextBeam ratio b = some b' ∧ b < b') ↔
      GrowsInRange ratio lo hi := by
  have hiff : ∀ b, Reached (nextBeam ratio) lo hi b →
      ((∃ b', nextBeam ratio b = some b' ∧ b < b') ↔
        floatProduct ratio b < 2 ^ 31 ∧ (b : ℚ) + 1 ≤ floatProduct ratio b) := fun b hb =>
    have := hb.one_le hratio hlo
    nextBeam_grows_iff (by linarith) (by omega)
  constructor
  · intro h
    rcases lt_or_ge hi lo with hlt | hle
    · exact Or.inl hlt
    · have hadds := ((hiff lo (.start hle)).mp (h lo (.start hle))).2
      refine Or.inr ⟨hadds, ?_, fun b hb => ((hiff b hb).mp (h b hb)).1⟩
      by_contra hneither
      rw [not_or, not_lt, not_le] at hneither
      obtain rfl : ratio = 1 := le_antisymm hneither.1 hratio
      -- the rounded beam size is reached as well, and stays
      obtain ⟨b', hb', hstuck⟩ := floatProduct_one_stuck hadds hlo
      have hle' : b' ≤ hi := by
        rw [hb'] at hneither
        exact Int.lt_add_one_iff.mp (by exact_mod_cast hneither.2)
      have hnext : nextBeam 1 lo = some b' := by
        obtain ⟨hfits, -⟩ := (hiff lo (.start hle)).mp (h lo (.start hle))
        rw [nextBeam_eq zero_le_one (by omega), if_pos hfits, hb', Int.floor_intCast]
      have hreached := Reached.next (.start hle) hnext hle'
      have hadds' := ((hiff b' hreached).mp (h b' hreached)).2
      rw [hstuck] at hadds'
      linarith
  · rintro (hlt | ⟨hadds, hgrows | habove, hfits⟩) b hb
    · exact absurd hb (not_reached_of_lt hlt b)
    · exact (hiff b hb).mpr ⟨hfits b hb, hb.grows hnumber hgrows hlo hadds⟩
    · obtain rfl := hb.eq_start (by linarith) hlo habove
      exact (hiff b hb).mpr ⟨hfits b hb, hadds⟩

end Ratio

-- ---------------------------------------------------------------------------
-- The two programs
-- ---------------------------------------------------------------------------

/-- Searches that return for every beam size. -/
def AlwaysReturns {R : Type} (run : ℤ → ℤ → SweepRun R) : Prop :=
  ∀ topk beamsize, ∃ r, Returns (run topk beamsize) r

theorem stof_returns {value : ℚ} (h : |binary32.round value| < 2 ^ 128) :
    Returns (stof value) (binary32.round value) := by
  unfold stof
  rw [if_pos h]
  exact returns_pure _

/-- The sweep after the ratio has been read. -/
theorem stof_sweep_iff {R : Type} {evaluate : ℤ → SweepRun R}
    (heval : ∀ b, ∃ r, Returns (evaluate b) r) {value : ℚ} (hvalue : 1 < value) {lo hi : ℤ}
    (hlo : 1 ≤ lo) :
    SweepsUpward (do
        let increment_ratio ← stof value
        beamSweep evaluate (nextBeam increment_ratio) lo hi) ↔
      binary32.round value < 2 ^ 128 ∧ GrowsInRange (binary32.round value) lo hi := by
  have hratio : 1 ≤ binary32.round value :=
    (Format.isNumber_zpow (e := 0) (by decide) : binary32.IsNumber 1).le_round zero_le_one hvalue.le
  rw [← grows_iff (binary32.isNumber_round value) hratio hlo, ← beamSweep_upward_iff heval]
  have habs : |binary32.round value| = binary32.round value := abs_of_nonneg (by linarith)
  constructor
  · rintro ⟨rows, hret, hsorted⟩
    obtain ⟨ratio, hread, hret⟩ := hret.of_bind
    unfold stof at hread
    split at hread
    · rename_i hfits
      rw [habs] at hfits
      obtain rfl := hread.of_pure
      exact ⟨hfits, rows, hret, hsorted⟩
    · exact absurd (fails_fault _) hread.not_fails
  · rintro ⟨hfits, rows, hret, hsorted⟩
    rw [← habs] at hfits
    exact ⟨rows, (stof_returns hfits).bind hret, hsorted⟩

/-- **The sweeps of `run_vamana` and `run_nsg`.** The beam sizes grow as the ratio rounded to
`float` makes them. -/
theorem sweeps_upward_iff {R : Type} (use_l2 : Bool)
    {get_recall get_recall_ip get_recall_optimized get_recall_optimized_ip : ℤ → ℤ → SweepRun R}
    (h : AlwaysReturns get_recall) (hip : AlwaysReturns get_recall_ip)
    (hopt : AlwaysReturns get_recall_optimized) (hoptip : AlwaysReturns get_recall_optimized_ip)
    {increment_ratio : ℚ} (hratio : 1 < increment_ratio) {min_beamsize : Int32}
    (hmin : 1 ≤ min_beamsize.toInt) (max_beamsize : Int32) :
    (SweepsUpward (runVamanaSweep get_recall get_recall_optimized min_beamsize max_beamsize
        increment_ratio) ↔
      binary32.round increment_ratio < 2 ^ 128 ∧
        GrowsInRange (binary32.round increment_ratio) min_beamsize.toInt max_beamsize.toInt) ∧
    (SweepsUpward (runNsgSweep use_l2 get_recall get_recall_ip get_recall_optimized
        get_recall_optimized_ip min_beamsize max_beamsize increment_ratio) ↔
      binary32.round increment_ratio < 2 ^ 128 ∧
        GrowsInRange (binary32.round increment_ratio) min_beamsize.toInt max_beamsize.toInt) := by
  constructor
  · refine stof_sweep_iff (fun b => ?_) hratio hmin
    obtain ⟨r, hr⟩ := h 1 b
    obtain ⟨r', hr'⟩ := hopt 1 b
    exact ⟨_, hr.bind (hr'.bind (returns_pure _))⟩
  · refine stof_sweep_iff (fun b => ?_) hratio hmin
    have hpick : ∀ {f g : ℤ → ℤ → SweepRun R}, AlwaysReturns f → AlwaysReturns g →
        ∃ r, Returns ((if use_l2 then f else g) 1 b) r := by
      intro f g hf hg
      split
      · exact hf 1 b
      · exact hg 1 b
    obtain ⟨r, hr⟩ := hpick h hip
    obtain ⟨r', hr'⟩ := hpick hopt hoptip
    exact ⟨_, hr.bind (hr'.bind (returns_pure _))⟩

/-- Searches without a result worth keeping. -/
def noRecall : ℤ → ℤ → SweepRun Unit := fun _ _ => pure ()

theorem noRecall_returns : AlwaysReturns noRecall := fun _ _ => ⟨(), returns_pure ()⟩

/-- By a ratio of 1.05 from 20 on: the `float` next to 1.05 is below it, and the product with 20
is rounded up to 21 again. -/
theorem sweeps_upward_twentieth :
    SweepsUpward (runVamanaSweep noRecall noRecall 20 100 (21 / 20)) ∧
      SweepsUpward (runNsgSweep true noRecall noRecall noRecall noRecall 20 100 (21 / 20)) := by
  have hiff := sweeps_upward_iff true noRecall_returns noRecall_returns noRecall_returns
    noRecall_returns (show (1 : ℚ) < 21 / 20 by norm_num) (show 1 ≤ (20 : Int32).toInt by decide) 100
  have hgrows : GrowsInRange (binary32.round (21 / 20)) (20 : Int32).toInt (100 : Int32).toInt :=
    growsInRange_of_max (by decide +kernel) (by decide) (by decide +kernel) (by decide +kernel)
  have hread : binary32.round (21 / 20) < 2 ^ 128 := by decide +kernel
  exact ⟨hiff.1.mpr ⟨hread, hgrows⟩, hiff.2.mpr ⟨hread, hgrows⟩⟩

/-- From 1 to 100 by the ratio 1.5: the beam size stays 1. -/
theorem sweeps_stuck :
    (1 ≤ (1 : Int32).toInt ∧ (1 : ℚ) < 3 / 2 ∧ AlwaysReturns noRecall) ∧
      Diverges (runVamanaSweep noRecall noRecall 1 100 (3 / 2)) ∧
      ¬ SweepsUpward (runVamanaSweep noRecall noRecall 1 100 (3 / 2)) ∧
      Diverges (runNsgSweep true noRecall noRecall noRecall noRecall 1 100 (3 / 2)) ∧
      ¬ SweepsUpward (runNsgSweep true noRecall noRecall noRecall noRecall 1 100 (3 / 2)) := by
  have hle : (1 : Int32).toInt ≤ (100 : Int32).toInt := by decide
  have hread : Returns (stof (3 / 2)) (binary32.round (3 / 2)) := stof_returns (by decide +kernel)
  have hnext : nextBeam (binary32.round (3 / 2)) (1 : Int32).toInt = some (1 : Int32).toInt := by
    decide +kernel
  have hvamana : Diverges (runVamanaSweep noRecall noRecall 1 100 (3 / 2)) :=
    hread.bind_diverges (beamSweep_diverges (fun _ => ⟨((), ()), returns_pure _⟩) hle hnext)
  have hnsg : Diverges (runNsgSweep true noRecall noRecall noRecall noRecall 1 100 (3 / 2)) :=
    hread.bind_diverges (beamSweep_diverges (fun _ => ⟨((), ()), returns_pure _⟩) hle hnext)
  exact ⟨⟨by decide, by norm_num, noRecall_returns⟩, hvamana,
    fun ⟨_, hret, _⟩ => Ends.not_diverges hret hvamana, hnsg,
    fun ⟨_, hret, _⟩ => Ends.not_diverges hret hnsg⟩

end Mqo.Search
