import Mqo.Trajectory.Reorder

/-!
# MQO — warm-started searches along a trajectory

The functions `get_recall_optimized` of the three indexes share one loop: the
queries are searched in the order of the trajectory, and a query with a parent
starts from the answer of its parent. `recallStep` is the body of this loop
for an arbitrary search; `engine` is what consecutive searches share.

* `recallLoop_inv`, `recallLoop_returns` — a run over an accepted trajectory answers
  every query from the answer of its parent, and ends when its searches do;
* `logOf_inOrder`     — every query is searched once, after its parent;
* `Answered.unique`   — when a search is a function of its query and seed, the
  answers depend only on the child-to-parent map;
* `accepted_perm`     — and so does the number of correct ones, because accepted
  trajectories with the same entries are permutations of each other.
-/

namespace Mqo.Search

open Prog StackTraversal

/-- One search of a run: the entry it is made for, the answer of the parent that
it starts from, and its own answer. -/
structure SearchRecord (β : Type) where
  curr : ℤ
  parent : ℤ
  seed : Option β
  answer : β

/-- The state of the loop; `searches` is a log of the searches made. -/
structure RecallState (σ β R : Type) where
  engine : σ
  ann : ℤ → β
  correct : R
  searches : List (SearchRecord β)

section Loop

variable {σ β R : Type}

/-- What a child starts from: the answer of its parent, nothing for a root. -/
def seedOf (ann : ℤ → β) (parent : ℤ) : Option β :=
  if parent = -1 then none else some (ann parent)

/-- The state after the search for `x` has answered `b`. -/
def RecallState.next (isCorrect : ℤ → β → Bool) (incr : R → R) (s : RecallState σ β R) (x : ℤ × ℤ)
    (b : β) (engine : σ) : RecallState σ β R where
  engine := engine
  ann := Function.update s.ann x.1 b
  correct := if isCorrect x.1 b then incr s.correct else s.correct
  searches := s.searches ++ [⟨x.1, x.2, seedOf s.ann x.2, b⟩]

/-- One entry of the trajectory. -/
def recallStep (n_query : ℕ) (search : σ → ℤ → Option β → Run (β × σ)) (isCorrect : ℤ → β → Bool)
    (incr : R → R) (s : RecallState σ β R) (x : ℤ × ℤ) : Run (RecallState σ β R) :=
  let curr := x.1
  let parent := x.2
  if InBounds n_query curr ∧ (parent = -1 ∨ InBounds n_query parent) then do
    let result ← search s.engine curr (seedOf s.ann parent)
    pure (s.next isCorrect incr x result.1 result.2)
  else fault .outOfRange

/-- The loop over the trajectory. -/
def recallLoop (n_query : ℕ) (search : σ → ℤ → Option β → Run (β × σ))
    (isCorrect : ℤ → β → Bool) (incr : R → R) (trajectory : Trajectory)
    (s : RecallState σ β R) : Run (RecallState σ β R) :=
  trajectory.foldlM (recallStep n_query search isCorrect incr) s

/-- Only the searches for queries in range are made. -/
theorem recallLoop_congr {n_query : ℕ} {search search' : σ → ℤ → Option β → Run (β × σ)}
    (h : ∀ st curr seed, InBounds n_query curr → search st curr seed = search' st curr seed)
    (isCorrect : ℤ → β → Bool) (incr : R → R) (trajectory : Trajectory) (s : RecallState σ β R) :
    recallLoop n_query search isCorrect incr trajectory s =
      recallLoop n_query search' isCorrect incr trajectory s := by
  refine foldlM_congr (fun x _ s => ?_) s
  unfold recallStep
  by_cases hx : InBounds n_query x.1 ∧ (x.2 = -1 ∨ InBounds n_query x.2)
  · rw [if_pos hx, if_pos hx, h _ _ _ hx.1]
  · rw [if_neg hx, if_neg hx]

-- ---------------------------------------------------------------------------
-- Rows of ids
-- ---------------------------------------------------------------------------

/-- Where a query enters the graph when the answers are rows of ids: at
`res[parent][0]`, or by the default marker. -/
def entryPoint : Option (List ℕ) → Run ℤ
  | none => pure (-1)
  | some [] => fault .outOfRange
  | some (id :: _) => pure id

/-- The node that a search enters at, for the default entry `ep`. -/
inductive EntersAt (ep : ℕ) : Option (List ℕ) → ℕ → Prop
  | default : EntersAt ep none ep
  | seed (id : ℕ) (rest : List ℕ) : EntersAt ep (some (id :: rest)) id

/-- A row that starts with a node below `n`. -/
def IsRow (n : ℕ) (row : List ℕ) : Prop := ∃ id rest, row = id :: rest ∧ id < n

theorem entryPoint_spec (ep : ℕ) {n : ℕ} {seed : Option (List ℕ)}
    (hseed : ∀ row ∈ seed, IsRow n row) :
    ∃ entry_point, Returns (entryPoint seed) entry_point ∧ -1 ≤ entry_point ∧ entry_point < n ∧
      EntersAt ep seed (if entry_point = -1 then ep else entry_point.toNat) := by
  cases seed with
  | none =>
    refine ⟨-1, returns_pure _, le_refl _, by omega, ?_⟩
    rw [if_pos rfl]
    exact .default
  | some row =>
    obtain ⟨id, rest, rfl, hid⟩ := hseed row rfl
    refine ⟨id, returns_pure _, by omega, by exact_mod_cast hid, ?_⟩
    rw [if_neg (by omega), Int.toNat_natCast]
    exact .seed id rest

-- ---------------------------------------------------------------------------
-- Answers
-- ---------------------------------------------------------------------------

/-- The answers to the entries of `t`: each is related by `P` to its query and to
the final answer of its parent, and nothing else has been written. -/
structure Answered (P : ℤ → Option β → β → Prop) (t : Trajectory) (ann₀ ann : ℤ → β) : Prop where
  post      : ∀ e ∈ t, P e.1 (seedOf ann e.2) (ann e.1)
  untouched : ∀ i, i ∉ t.map Prod.fst → ann i = ann₀ i

/-- The log of the searches that gave these answers. -/
def logOf (ann : ℤ → β) (t : Trajectory) : List (SearchRecord β) :=
  t.map fun e => ⟨e.1, e.2, seedOf ann e.2, ann e.1⟩

/-- An answer that no entry of `t` reads or writes may change. -/
theorem seedOf_update {ann : ℤ → β} {c p : ℤ} (b : β) (h : p = -1 ∨ p ≠ c) :
    seedOf (Function.update ann c b) p = seedOf ann p := by
  unfold seedOf
  split
  · rfl
  · next hp => rw [Function.update_of_ne (h.resolve_left hp)]

theorem Answered.concat {P : ℤ → Option β → β → Prop} {t : Trajectory} {ann₀ ann : ℤ → β}
    (h : Answered P t ann₀ ann) (htopo : Topological (-1) t) {x : ℤ × ℤ}
    (hnew : x.1 ∉ t.map Prod.fst) (hpar : x.2 = -1 ∨ x.2 ∈ t.map Prod.fst) {b : β}
    (hb : P x.1 (seedOf ann x.2) b) :
    Answered P (t ++ [x]) ann₀ (Function.update ann x.1 b) := by
  have hseed : ∀ p, p = -1 ∨ p ∈ t.map Prod.fst →
      seedOf (Function.update ann x.1 b) p = seedOf ann p := fun p hp =>
    seedOf_update b (hp.imp_right fun hm heq => hnew (heq ▸ hm))
  refine ⟨fun e he => ?_, fun i hi => ?_⟩
  · rcases List.mem_append.mp he with he | he
    · have hne : e.1 ≠ x.1 := fun heq => hnew (heq ▸ List.mem_map_of_mem he)
      rw [hseed e.2 (htopo.mem he), Function.update_of_ne hne]
      exact h.post e he
    · rw [List.mem_singleton.mp he, hseed x.2 hpar, Function.update_self]
      exact hb
  · rw [List.map_append, List.mem_append, not_or] at hi
    have hne : i ≠ x.1 := fun heq => hi.2 (by simp [heq])
    rw [Function.update_of_ne hne]
    exact h.untouched i hi.1

theorem logOf_concat {t : Trajectory} (ann : ℤ → β) (htopo : Topological (-1) t) {x : ℤ × ℤ}
    (hnew : x.1 ∉ t.map Prod.fst) (hpar : x.2 = -1 ∨ x.2 ∈ t.map Prod.fst) (b : β) :
    logOf (Function.update ann x.1 b) (t ++ [x]) =
      logOf ann t ++ [⟨x.1, x.2, seedOf ann x.2, b⟩] := by
  have hseed : ∀ p, p = -1 ∨ p ∈ t.map Prod.fst →
      seedOf (Function.update ann x.1 b) p = seedOf ann p := fun p hp =>
    seedOf_update b (hp.imp_right fun hm heq => hnew (heq ▸ hm))
  unfold logOf
  rw [List.map_append, List.map_singleton, hseed x.2 hpar, Function.update_self]
  congr 1
  refine List.map_congr_left fun e he => ?_
  have hne : e.1 ≠ x.1 := fun heq => hnew (heq ▸ List.mem_map_of_mem he)
  rw [hseed e.2 (htopo.mem he), Function.update_of_ne hne]

/-- Counting over the entries is not affected by a later answer. -/
theorem countP_update {t : Trajectory} (ann : ℤ → β) (isCorrect : ℤ → β → Bool) {c : ℤ}
    (hnew : c ∉ t.map Prod.fst) (b : β) :
    t.countP (fun e => isCorrect e.1 (Function.update ann c b e.1)) =
      t.countP fun e => isCorrect e.1 (ann e.1) := by
  refine List.countP_congr fun e he => ?_
  have hne : e.1 ≠ c := fun heq => hnew (heq ▸ List.mem_map_of_mem he)
  rw [Function.update_of_ne hne]

/-- What the loop has established after part of the trajectory. -/
structure RecallInv (I : σ → Prop) (P : ℤ → Option β → β → Prop) (isCorrect : ℤ → β → Bool)
    (incr : R → R) (s₀ : RecallState σ β R) (t : Trajectory) (s : RecallState σ β R) : Prop where
  engine   : I s.engine
  answered : Answered P t s₀.ann s.ann
  correct  : s.correct = incr^[t.countP fun e => isCorrect e.1 (s.ann e.1)] s₀.correct
  searches : s.searches = s₀.searches ++ logOf s.ann t

/-- One entry: its query is answered from the answer of an earlier entry. -/
structure NextEntry (n_query : ℕ) (pre : Trajectory) (x : ℤ × ℤ) : Prop where
  topo   : Topological (-1) pre
  curr   : InBounds n_query x.1
  parent : x.2 = -1 ∨ InBounds n_query x.2
  new    : x.1 ∉ pre.map Prod.fst
  seeded : x.2 = -1 ∨ x.2 ∈ pre.map Prod.fst

theorem nextEntry {n_query : ℕ} {trajectory : Trajectory} (hacc : Accepted trajectory n_query)
    {pre post : Trajectory} {x : ℤ × ℤ} (hsplit : trajectory = pre ++ x :: post) :
    NextEntry n_query pre x := by
  obtain ⟨hperm, htopo⟩ := accepted_iff.mp hacc
  have hnodup : (trajectory.map Prod.fst).Nodup := hperm.nodup_iff.mpr (nodup_indices n_query)
  have hbounds : ∀ i ∈ trajectory.map Prod.fst, InBounds n_query i := fun i hi =>
    mem_indices.mp (hperm.mem_iff.mp hi)
  have hseeded := htopo pre x post hsplit
  subst hsplit
  refine ⟨htopo.of_append, hbounds x.1 (List.mem_map_of_mem (by simp)),
    hseeded.imp_right fun hm => hbounds x.2 ?_, ?_, hseeded⟩
  · rw [List.map_append]
    exact List.mem_append_left _ hm
  · rw [List.map_append, List.map_cons] at hnodup
    exact fun hm => (List.nodup_append.mp hnodup).2.2 _ hm _ List.mem_cons_self rfl

/-- An answer to the next entry keeps the invariant. -/
theorem RecallInv.next {I : σ → Prop} {P : ℤ → Option β → β → Prop} {isCorrect : ℤ → β → Bool}
    {incr : R → R} {s₀ s : RecallState σ β R} {pre : Trajectory}
    (h : RecallInv I P isCorrect incr s₀ pre s) {n_query : ℕ} {x : ℤ × ℤ}
    (hx : NextEntry n_query pre x) {b : β} {st' : σ} (hI : I st')
    (hP : P x.1 (seedOf s.ann x.2) b) :
    RecallInv I P isCorrect incr s₀ (pre ++ [x]) (s.next isCorrect incr x b st') := by
  refine ⟨hI, h.answered.concat hx.topo hx.new hx.seeded hP, ?_, ?_⟩
  · unfold RecallState.next
    rw [List.countP_append, countP_update s.ann isCorrect hx.new, h.correct]
    cases hc : isCorrect x.1 b with
    | true => simp [hc, Function.iterate_succ_apply']
    | false => simp [hc]
  · unfold RecallState.next
    rw [logOf_concat s.ann hx.topo hx.new hx.seeded, h.searches, List.append_assoc]

section Run

variable {n_query : ℕ} {search : σ → ℤ → Option β → Run (β × σ)} {isCorrect : ℤ → β → Bool}
  {incr : R → R} {I : σ → Prop} (Valid : β → Prop) {P : ℤ → Option β → β → Prop}

/-- The seed of the next entry is a valid answer. -/
theorem valid_seed {pre : Trajectory} {x : ℤ × ℤ} (hx : NextEntry n_query pre x) {ann : ℤ → β}
    (hvalid : ∀ e ∈ pre, Valid (ann e.1)) : ∀ b ∈ seedOf ann x.2, Valid b := by
  intro b hb
  unfold seedOf at hb
  split at hb
  · cases hb
  · next hroot =>
    obtain ⟨e, he, hex⟩ := List.mem_map.mp (hx.seeded.resolve_left hroot)
    cases hb
    rw [← hex]
    exact hvalid e he

theorem valid_update {pre : Trajectory} {x : ℤ × ℤ} (hx : NextEntry n_query pre x) {ann : ℤ → β}
    (hvalid : ∀ e ∈ pre, Valid (ann e.1)) {b : β} (hb : Valid b) :
    ∀ e ∈ pre ++ [x], Valid (Function.update ann x.1 b e.1) := by
  intro e he
  rcases List.mem_append.mp he with he | he
  · have hne : e.1 ≠ x.1 := fun heq => hx.new (heq ▸ List.mem_map_of_mem he)
    rw [Function.update_of_ne hne]
    exact hvalid e he
  · rw [List.mem_singleton.mp he, Function.update_self]
    exact hb

theorem recallStep_eq {pre : Trajectory} {x : ℤ × ℤ} (hx : NextEntry n_query pre x)
    (s : RecallState σ β R) :
    recallStep n_query search isCorrect incr s x = (do
      let result ← search s.engine x.1 (seedOf s.ann x.2)
      pure (s.next isCorrect incr x result.1 result.2)) :=
  if_pos ⟨hx.curr, hx.parent⟩

theorem RecallInv.initial {s₀ : RecallState σ β R} (hI : I s₀.engine) :
    RecallInv I P isCorrect incr s₀ [] s₀ :=
  ⟨hI, ⟨fun _ he => absurd he List.not_mem_nil, fun _ _ => rfl⟩, rfl, (List.append_nil _).symm⟩

/-- **The loop.** Where the answers to valid seeds are valid and related by `P`, so
are all answers of a run over an accepted trajectory. -/
theorem recallLoop_inv
    (hsearch : ∀ st curr seed b st', I st → InBounds n_query curr → (∀ p ∈ seed, Valid p) →
      Returns (search st curr seed) (b, st') → I st' ∧ Valid b ∧ P curr seed b)
    {trajectory : Trajectory} (hacc : Accepted trajectory n_query) {s₀ s : RecallState σ β R}
    (hI : I s₀.engine) (h : Returns (recallLoop n_query search isCorrect incr trajectory s₀) s) :
    RecallInv I P isCorrect incr s₀ trajectory s := by
  refine (foldlM_inv (fun pre s => RecallInv I P isCorrect incr s₀ pre s ∧
    ∀ e ∈ pre, Valid (s.ann e.1)) (fun pre x post s s' hsplit ⟨hinv, hvalid⟩ hret => ?_)
    ⟨RecallInv.initial hI, fun e he => absurd he List.not_mem_nil⟩ h).1
  have hx := nextEntry hacc hsplit
  rw [recallStep_eq hx] at hret
  obtain ⟨⟨b, st'⟩, hb, hs'⟩ := hret.of_bind
  obtain rfl := hs'.of_pure
  obtain ⟨hI', hvb, hP⟩ :=
    hsearch s.engine x.1 _ b st' hinv.engine hx.curr (valid_seed Valid hx hvalid) hb
  exact ⟨hinv.next hx hI' hP, valid_update Valid hx hvalid hvb⟩

/-- When moreover every search from a valid seed ends, so does the run. -/
theorem recallLoop_returns
    (hsearch : ∀ st curr seed, I st → InBounds n_query curr → (∀ p ∈ seed, Valid p) →
      ∃ b st', Returns (search st curr seed) (b, st') ∧ I st' ∧ Valid b ∧ P curr seed b)
    {trajectory : Trajectory} (hacc : Accepted trajectory n_query) {s₀ : RecallState σ β R}
    (hI : I s₀.engine) :
    ∃ s, Returns (recallLoop n_query search isCorrect incr trajectory s₀) s ∧
      RecallInv I P isCorrect incr s₀ trajectory s := by
  obtain ⟨s, hret, hinv, -⟩ := foldlM_returns
    (f := recallStep n_query search isCorrect incr)
    (fun pre s => RecallInv I P isCorrect incr s₀ pre s ∧ ∀ e ∈ pre, Valid (s.ann e.1))
    (l := trajectory) (fun pre x post s hsplit ⟨hinv, hvalid⟩ => by
      have hx := nextEntry hacc hsplit
      obtain ⟨b, st', hb, hI', hvb, hP⟩ :=
        hsearch s.engine x.1 _ hinv.engine hx.curr (valid_seed Valid hx hvalid)
      refine ⟨s.next isCorrect incr x b st', ?_, hinv.next hx hI' hP,
        valid_update Valid hx hvalid hvb⟩
      rw [recallStep_eq hx]
      exact hb.bind (returns_pure _))
    (s := s₀) ⟨RecallInv.initial hI, fun e he => absurd he List.not_mem_nil⟩
  exact ⟨s, hret, hinv⟩

end Run

-- ---------------------------------------------------------------------------
-- The order of the searches
-- ---------------------------------------------------------------------------

/-- Every query is searched once, and a search that starts from an answer comes
after the search of the parent that gave this answer. -/
structure SearchesInOrder (trajectory : Trajectory) (n_query : ℕ)
    (searches : List (SearchRecord β)) : Prop where
  entries : searches.map (fun r => (r.curr, r.parent)) = trajectory
  once    : ∀ i : ℕ, i < n_query → (searches.map SearchRecord.curr).count (i : ℤ) = 1
  seeded  : ∀ pre r post, searches = pre ++ r :: post →
    (r.parent = -1 ∧ r.seed = none) ∨ ∃ r' ∈ pre, r'.curr = r.parent ∧ r.seed = some r'.answer

theorem logOf_inOrder {trajectory : Trajectory} {n_query : ℕ}
    (hacc : Accepted trajectory n_query) (ann : ℤ → β) :
    SearchesInOrder trajectory n_query (logOf ann trajectory) := by
  obtain ⟨hperm, htopo⟩ := accepted_iff.mp hacc
  have hcurr : (logOf ann trajectory).map SearchRecord.curr = trajectory.map Prod.fst := by
    rw [logOf, List.map_map]
    rfl
  refine ⟨?_, fun i hi => ?_, fun pre r post hsplit => ?_⟩
  · rw [logOf, List.map_map]
    exact List.map_id' trajectory
  · rw [hcurr, hperm.count_eq]
    exact List.count_eq_one_of_mem (nodup_indices n_query) (mem_indices.mpr ⟨by omega, by omega⟩)
  · obtain ⟨pre', rest', htraj, rfl, hrest⟩ := List.map_eq_append_iff.mp hsplit
    obtain ⟨e, post', rfl, rfl, rfl⟩ := List.map_eq_cons_iff.mp hrest
    by_cases hroot : e.2 = -1
    · exact Or.inl ⟨hroot, if_pos hroot⟩
    · obtain ⟨z, hz, hze⟩ := List.mem_map.mp ((htopo pre' e post' htraj).resolve_left hroot)
      refine Or.inr ⟨_, List.mem_map_of_mem hz, hze, ?_⟩
      show seedOf ann e.2 = some (ann z.1)
      rw [seedOf, if_neg hroot, hze]

-- ---------------------------------------------------------------------------
-- The child-to-parent map determines the answers
-- ---------------------------------------------------------------------------

/-- When `P` determines the answer, two topological lists with the same entries
have the same answers. -/
theorem Answered.unique {P : ℤ → Option β → β → Prop}
    (hP : ∀ c seed b b', P c seed b → P c seed b' → b = b') {t t' : Trajectory}
    (hsame : ∀ e, e ∈ t ↔ e ∈ t') (htopo : Topological (-1) t) {ann₀ ann ann' : ℤ → β}
    (h : Answered P t ann₀ ann) (h' : Answered P t' ann₀ ann') : ann = ann' := by
  -- along the first list, an entry agrees because its parent already does
  have hprefix : ∀ pre post, t = pre ++ post → ∀ c ∈ pre.map Prod.fst, ann c = ann' c := by
    intro pre
    induction pre using List.reverseRecOn with
    | nil => exact fun _ _ c hc => absurd hc List.not_mem_nil
    | append_singleton pre x ih =>
      intro post hsplit c hc
      have hsplit' : t = pre ++ x :: post := by simpa using hsplit
      rw [List.map_append, List.mem_append, List.map_singleton, List.mem_singleton] at hc
      rcases hc with hc | rfl
      · exact ih (x :: post) hsplit' c hc
      · have hx : x ∈ t := by simp [hsplit']
        have hseed : seedOf ann x.2 = seedOf ann' x.2 := by
          unfold seedOf
          split
          · rfl
          · next hroot =>
            rw [ih (x :: post) hsplit' x.2 ((htopo pre x post hsplit').resolve_left hroot)]
        have hpost' := h'.post x ((hsame x).mp hx)
        rw [← hseed] at hpost'
        exact hP _ _ _ _ (h.post x hx) hpost'
  funext c
  by_cases hc : c ∈ t.map Prod.fst
  · exact hprefix t [] (List.append_nil t).symm c hc
  · have hc' : c ∉ t'.map Prod.fst := by
      intro hm
      obtain ⟨e, he, rfl⟩ := List.mem_map.mp hm
      exact hc (List.mem_map_of_mem ((hsame e).mpr he))
    rw [h.untouched c hc, h'.untouched c hc']

/-- Accepted trajectories with the same entries are permutations of each other. -/
theorem accepted_perm {t t' : Trajectory} {n_query : ℕ} (h : Accepted t n_query)
    (h' : Accepted t' n_query) (hsame : ∀ e, e ∈ t ↔ e ∈ t') : t.Perm t' := by
  have hnodup : ∀ {l : Trajectory}, Accepted l n_query → l.Nodup := fun hl =>
    List.Nodup.of_map Prod.fst
      ((accepted_iff.mp hl).1.nodup_iff.mpr (nodup_indices n_query))
  exact (List.perm_ext_iff_of_nodup (hnodup h) (hnodup h')).mpr hsame

end Loop

end Mqo.Search
