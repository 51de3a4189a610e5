import Mqo.Trajectory.RowsOutside

/-!
# MQO — the options `lsh` and `mixed_modified`

For one matrix both options give an accepted trajectory exactly as long as what they allocate is
counted in `int`, provided that the distances are finite as they are read. For all matrices of a
size whose rows have finite distances, the rows have to end at `2 ^ 31` or below as well.

* `mqo_lsh_iff`           — the option `lsh`;
* `mqo_mixedModified_iff` — the option `mixed_modified`, with what its indexes hold.
-/

namespace Mqo

open Prog IntOffset Exact

section Lsh

variable {n_query dim : ℕ} {use_l2 : Bool} {params : Params} {gen : Gen}

/-- On zeros the option `lsh` stops at the row that is misread. -/
theorem not_lshAccepted_nanBefore (env : Env (Exact ℝ)) (hn : 0 < n_query) (hdim : dim < 2 ^ 31)
    (hB : 1 ≤ params.get "B") (hover : ¬ RowsFit n_query dim) :
    ¬ LshAccepted (Exact ℝ) env n_query dim nanBefore use_l2 params gen := by
  rintro ⟨pq, r, hres, hr, -⟩
  obtain ⟨res, hopt, -⟩ := hr.of_bind
  rw [optimizeTrajectory_lsh] at hopt
  refine not_spread_nanBefore use_l2 hdim hover (spread_of_lsh hn hB hopt hres ⟨_, n_query⟩ ?_)
  rw [hres.nanBefore hn]
  exact Multiset.mem_singleton_self _

/-- **The option `lsh`.** For a matrix whose distances are finite as they are read, the list is
accepted, has at most `B` roots and stays inside the groups exactly if the number of values drawn
for the hyperplanes is an `int`. This is so for all matrices of a size whose rows have finite
distances exactly if the rows end at `2 ^ 31` or below as well. -/
theorem mqo_lsh_iff (hn : 2 ≤ n_query) (hdim : dim < 2 ^ 31) (use_l2 : Bool)
    (hB : 1 ≤ params.get "B") (hgen : Varies n_query gen) :
    (∀ (F D : Type) [Scalar F] [Scalar D] [Widen F D] (env : Env F) (query : ℤ → F),
      (FiniteDistances use_l2 query dim n_query ∨
        FiniteRows use_l2 query dim n_query ∧ n_query * dim ≤ 2 ^ 31) →
      (LshAccepted D env n_query dim query use_l2 params gen ↔
        (params.get "B" - 1) * dim < 2 ^ 31)) ∧
    ∀ env : Env (Exact ℝ),
      (∀ query, FiniteRows use_l2 query dim n_query →
        LshAccepted (Exact ℝ) env n_query dim query use_l2 params gen) ↔
      (params.get "B" - 1) * dim < 2 ^ 31 ∧ n_query * dim ≤ 2 ^ 31 := by
  have hpos : 0 < n_query := by omega
  refine ⟨fun F D _ _ _ env query hfin => ?_, fun env => ?_⟩
  · rcases hfin with hfin | ⟨hrows, hfit⟩
    · exact lshAccepted_iff env hpos hfin hB hgen
    · exact lshAccepted_iff env hpos (hrows.distances hfit) hB hgen
  constructor
  · intro h
    have hzero := h nanBefore (finiteRows_nanBefore use_l2 dim n_query)
    refine ⟨?_, ?_⟩
    · obtain ⟨pq, r, hres, -⟩ := hzero
      exact (splitResult_iff env.groupQueue env.normDist nanBefore hpos dim hB).mp ⟨pq, hres⟩
    · by_contra hover
      exact not_lshAccepted_nanBefore env hpos hdim hB hover hzero
  · rintro ⟨hfit, hrows⟩ query hfin
    exact (lshAccepted_iff env hpos (hfin.distances hrows) hB hgen).mpr hfit

end Lsh

/-- Five queries on a line, split once. -/
theorem mqo_lsh_line : ∃ r, Returns (mqo (Exact ℚ) sampleEnv "lsh" 5 1 (finMatrix fun k => (k : ℚ))
    true (groupParams 2) fun k => k) r ∧ Accepted r.1 5 ∧
    (r.1.countP (fun e => e.2 = -1) : ℤ) ≤ 2 := by
  obtain ⟨pq, r, -, hr, hacc, -, hroots, -⟩ := ((mqo_lsh_iff (by decide) (by decide) true
    (show 1 ≤ (groupParams 2).get "B" by decide) (varies_counting (by decide))).1 (Exact ℚ)
      (Exact ℚ) sampleEnv _ (Or.inl (finiteDistances_fin true (fun k => (k : ℚ)) 1 5))).mpr
      (by decide)
  exact ⟨r, hr, hacc, hroots⟩

/-- Two queries of 128 dimensions with `B = 16777217`: the hyperplanes would be `2 ^ 31` values,
which is `-2 ^ 31` in `int`, and nothing is returned. -/
theorem mqo_lsh_throws :
    FiniteRows true (finMatrix fun k => (k : ℚ)) 128 2 ∧
      (∀ gen, Fails (mqo (Exact ℚ) sampleEnv "lsh" 2 128 (finMatrix fun k => (k : ℚ)) true
        (groupParams 16777217) gen) (.exception "std::bad_array_new_length")) ∧
      ¬ ∃ gen r, Returns (mqo (Exact ℚ) sampleEnv "lsh" 2 128 (finMatrix fun k => (k : ℚ)) true
        (groupParams 16777217) gen) r := by
  have hfails : ∀ gen, Fails (mqo (Exact ℚ) sampleEnv "lsh" 2 128 (finMatrix fun k => (k : ℚ)) true
      (groupParams 16777217) gen) (.exception "std::bad_array_new_length") := by
    intro gen
    refine Fails.bind ?_
    rw [optimizeTrajectory_lsh]
    exact Fails.bind (generateRandomHyperplane_fails _ (by norm_num [Params.get, groupParams])
      (by norm_num [Params.get, groupParams]) (by norm_num [Params.get, groupParams]))
  refine ⟨finiteRows_fin _ _ _ _, hfails, ?_⟩
  rintro ⟨gen, r, hret⟩
  exact hret.not_fails (hfails gen)

section MixedModified

variable {n_query dim : ℕ} {use_l2 : Bool} {params : Params} {gen : Gen} {B M : ℤ}

theorem largeGroupsFit_of_le {F : Type} [Scalar F] (env : Env F) {query : ℤ → F} (hn : 0 < n_query)
    (hB : 1 ≤ B) (hfit : 500 < n_query → n_query * dim < 2 ^ 31) :
    LargeGroupsFit env n_query dim query B := by
  intro pq hres gi hgi hbig
  have hlen := ((hres.spec hn hB).1.isGroup hgi).length_le
  exact (Nat.mul_le_mul_right dim hlen).trans_lt (hfit (hbig.trans_le hlen))

/-- While the rows fit, the vectors behind the pointers are the rows. -/
theorem MixedAccepted.rows {F D : Type} [Scalar F] [Scalar D] [Widen F D] {env : Env F}
    {query : ℤ → F} (hn : 0 < n_query) (hB : 1 ≤ B) (hfit : RowsFit n_query dim)
    (h : MixedAccepted D env n_query dim query use_l2 params gen B M (row query dim)) :
    MixedAccepted D env n_query dim query use_l2 params gen B M
      fun q => (List.range dim).map (matrixRow query dim q) := by
  obtain ⟨pq, r, hres, hr, hacc, hlists, hstays, hindexed⟩ := h
  refine ⟨pq, r, hres, hr, hacc, hlists, hstays, fun gi hgi hbig => ?_⟩
  obtain ⟨index, hindex, hholds⟩ := hindexed gi hgi hbig
  refine ⟨index, hindex, fun i hi => ⟨(hholds i hi).1, ?_⟩⟩
  have hgroup := (hres.spec hn hB).1.isGroup hgi
  rw [(hholds i hi).2, List.getD_eq_getElem _ _ hi,
    row_eq hfit (hgroup.bound _ (List.getElem_mem hi))]
  rfl

/-- On zeros the option `mixed_modified` stops at the row that is misread, or the one large group
is too large to be copied. -/
theorem fits_of_mixedAccepted_nanBefore {env : Env (Exact ℝ)} {vector : ℕ → List (Exact ℝ)}
    (hn : 0 < n_query) (hdim : dim < 2 ^ 31) (hB : params "B" = some B) (hB1 : 1 ≤ B)
    (h : MixedAccepted (Exact ℝ) env n_query dim nanBefore use_l2 params gen B M vector) :
    (B - 1) * dim < 2 ^ 31 ∧ n_query * dim ≤ 2 ^ 31 ∧
      (500 < n_query → n_query * dim < 2 ^ 31) := by
  obtain ⟨pq, r, hres, hr, -⟩ := h
  obtain ⟨res, hopt, -⟩ := hr.of_bind
  rw [optimizeTrajectory_mixedModified] at hopt
  obtain ⟨hfit, hgroups⟩ := fits_of_mixedModified hn hB hB1 hopt
  have hwhole := hres.nanBefore hn
  have hmem : ⟨List.range n_query, n_query⟩ ∈ env.groupQueue.elems pq :=
    hwhole ▸ Multiset.mem_singleton_self _
  have hlarge : 500 < n_query → n_query * dim < 2 ^ 31 := fun hbig => by
    have hcopied := hgroups pq hres _ hmem
    rw [List.length_range] at hcopied
    exact hcopied hbig
  refine ⟨hfit, ?_, hlarge⟩
  rcases Nat.lt_or_ge 500 n_query with hbig | hsmall
  · exact (hlarge hbig).le
  · by_contra hover
    refine not_spread_nanBefore use_l2 hdim hover
      (spread_of_mixedModified hn hB hB1 hopt hres (fun g hg => ?_) ⟨_, n_query⟩ hmem)
    rw [hwhole, Multiset.mem_singleton] at hg
    rwa [hg, List.length_range]

/-- **The option `mixed_modified`.** For a matrix whose distances are finite as they are read, the
list is accepted and stays inside the groups, and the internal ids of a large group stand for its
queries, exactly while the number of values drawn for the hyperplanes and that of every large group
are an `int`; the vectors are those behind the pointers `query + grp[i] * dim`. For all matrices of
a size whose rows have finite distances, and all index builds, the list is accepted and the vectors
are the rows exactly if the rows end at `2 ^ 31` or below as well, and below it when there are more
than 500. -/
theorem mqo_mixedModified_iff (hn : 2 ≤ n_query) (hdim : dim < 2 ^ 31) (use_l2 : Bool)
    (hB : params "B" = some B) (hB1 : 1 ≤ B) (hM : params "M" = some M)
    (hgen : Varies n_query gen) :
    (∀ (F D : Type) [Scalar F] [Scalar D] [Widen F D] (env : Env F) (query : ℤ → F),
      LargeBuildsInRange env n_query dim query use_l2 params B M →
      (FiniteDistances use_l2 query dim n_query →
        (MixedAccepted D env n_query dim query use_l2 params gen B M (row query dim) ↔
          (B - 1) * dim < 2 ^ 31 ∧ LargeGroupsFit env n_query dim query B)) ∧
      (FiniteRows use_l2 query dim n_query → n_query * dim ≤ 2 ^ 31 →
        (MixedAccepted D env n_query dim query use_l2 params gen B M
            (fun q => (List.range dim).map (matrixRow query dim q)) ↔
          (B - 1) * dim < 2 ^ 31 ∧ LargeGroupsFit env n_query dim query B))) ∧
    ∀ env : Env (Exact ℝ),
      (∀ (builders : Builders (Exact ℝ)) (query : ℤ → Exact ℝ),
        LargeBuildsInRange { env with builders := builders } n_query dim query use_l2 params B M →
        FiniteRows use_l2 query dim n_query →
        MixedAccepted (Exact ℝ) { env with builders := builders } n_query dim query use_l2 params
          gen B M fun q => (List.range dim).map (matrixRow query dim q)) ↔
      (B - 1) * dim < 2 ^ 31 ∧ n_query * dim ≤ 2 ^ 31 ∧
        (500 < n_query → n_query * dim < 2 ^ 31) := by
  have hpos : 0 < n_query := by omega
  refine ⟨fun F D _ _ _ env query hbuild => ⟨fun hfin =>
    mixedAccepted_iff env hpos hfin hB hB1 hM hgen hbuild, fun hrows hfit => ?_⟩, fun env => ?_⟩
  · have hiff := mixedAccepted_iff (D := D) env hpos (hrows.distances hfit) hB hB1 hM hgen hbuild
    refine ⟨fun h => ?_, fun h => (hiff.mpr h).rows hpos hB1 hfit⟩
    obtain ⟨pq, r, hres, hr, -⟩ := h
    obtain ⟨res, hopt, -⟩ := hr.of_bind
    rw [optimizeTrajectory_mixedModified] at hopt
    exact fits_of_mixedModified hpos hB hB1 hopt
  constructor
  · intro h
    exact fits_of_mixedAccepted_nanBefore hpos hdim hB hB1 (h (chainBuilders (Exact ℝ)) nanBefore
      (fun _ _ _ _ _ => chainBuilders_inRange) (finiteRows_nanBefore use_l2 dim n_query))
  · rintro ⟨hfit, hrows, hlarge⟩ builders query hbuild hfin
    exact ((mixedAccepted_iff _ hpos (hfin.distances hrows) hB hB1 hM hgen hbuild).mpr
      ⟨hfit, largeGroupsFit_of_le _ hpos hB1 hlarge⟩).rows hpos hB1 hrows

end MixedModified

/-- A group of 501 queries, handled through HNSW: its links make one tree. -/
theorem mqo_mixedModified_large : ∃ r, Returns (mqo (Exact ℚ) sampleEnv "mixed_modified" 501 1
    (finMatrix fun k => (k : ℚ)) true sampleParams fun k => k) r ∧ Accepted r.1 501 ∧
    r.1.countP (fun e => e.2 = -1) = 1 := by
  have hfin := finiteDistances_fin true (fun k => (k : ℚ)) 1 501
  have hgroups : LargeGroupsFit sampleEnv 501 1 (finMatrix fun k => (k : ℚ)) 1 :=
    largeGroupsFit_of_le sampleEnv (by decide) (by decide) (by decide)
  have hbuild : LargeBuildsInRange sampleEnv 501 1 (finMatrix fun k => (k : ℚ)) true sampleParams 1
      2 := fun _ _ _ _ _ => chainBuilders_inRange
  obtain ⟨pq, r, -, hr, hacc, -⟩ := (((mqo_mixedModified_iff (by decide) (by decide) true
    (show sampleParams "B" = some 1 from rfl) (by decide) (show sampleParams "M" = some 2 from rfl)
    (varies_counting (by decide))).1 (Exact ℚ) (Exact ℚ) sampleEnv _ hbuild).1 hfin).mpr
      ⟨by decide, hgroups⟩
  obtain ⟨-, res, out, -, hres, hout, hperm, -⟩ := mqo_mixedModified (D := Exact ℚ) sampleEnv
    (by decide) hfin (show sampleParams "B" = some 1 from rfl) (by decide)
    (show sampleParams "M" = some 2 from rfl) (varies_counting (by decide)) (by decide) hgroups
    hbuild
  obtain rfl := hr.unique hout
  refine ⟨_, hr, hacc, ?_⟩
  rw [hperm.countP_eq]
  exact mixedModified_oneRoot (by decide) rfl hres

/-- Two queries of 128 dimensions with `B = 16777217`, as for the option `lsh`. -/
theorem mqo_mixedModified_throws :
    FiniteRows true (finMatrix fun k => (k : ℚ)) 128 2 ∧
      (∀ gen, Fails (mqo (Exact ℚ) sampleEnv "mixed_modified" 2 128 (finMatrix fun k => (k : ℚ)) true
        (groupParams 16777217) gen) (.exception "std::bad_array_new_length")) ∧
      ¬ ∃ gen r, Returns (mqo (Exact ℚ) sampleEnv "mixed_modified" 2 128
        (finMatrix fun k => (k : ℚ)) true (groupParams 16777217) gen) r := by
  have hfails : ∀ gen, Fails (mqo (Exact ℚ) sampleEnv "mixed_modified" 2 128
      (finMatrix fun k => (k : ℚ)) true (groupParams 16777217) gen)
      (.exception "std::bad_array_new_length") := by
    intro gen
    refine Fails.bind ?_
    rw [optimizeTrajectory_mixedModified]
    exact (lookup_returns (show groupParams 16777217 "B" = some 16777217 from rfl)).bind_ends
      ((lookup_returns (show groupParams 16777217 "M" = some 2 from rfl)).bind_ends
        (Fails.bind (generateRandomHyperplane_fails _ (by norm_num) (by norm_num) (by norm_num))))
  refine ⟨finiteRows_fin _ _ _ _, hfails, ?_⟩
  rintro ⟨gen, r, hret⟩
  exact hret.not_fails (hfails gen)

end Mqo
