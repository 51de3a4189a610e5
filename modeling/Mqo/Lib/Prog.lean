import Mathlib.Data.Nat.Basic
import Mathlib.Data.List.Basic
import Mathlib.Tactic.Cases

/-!
# Computations that may fault or run forever

A C++ function returns a value, ends in a fault (a failed assertion, an
exception, an access outside a container), or loops forever. `Prog ε α`
models the three outcomes by the answers given for growing amounts of fuel:
`none` while the computation is still running, the result from some amount
on. The field `mono` says that an answer, once given, is never withdrawn, so
a computation has at most one outcome (`Ends.unique`).

* `Returns p a` — `p` ends normally with `a`;
* `Fails p e`   — `p` ends with the fault `e`;
* `Diverges p`  — no amount of fuel is enough.

`loop step` iterates a step that either continues (`inl`) or leaves the loop
(`inr`). The rules below are the ones a verification needs: sequencing
(`Returns.bind`, `Fails.bind`, `Diverges.bind`), total correctness of a loop
from an invariant and a measure (`loop_returns`), partial correctness
(`loop_inv`), divergence from an invariant that is never left
(`loop_diverges`), lock-step simulation of two loops (`loop_sim`), and the same
rules for iteration over a list (`foldlM_append`, `foldlM_returns`, `foldlM_guarded`,
`foldlM_foldl`, `foldlM_inv`, `foldlM_sim`).
-/

universe u

/-- A computation with faults in `ε` and results in `α`. -/
structure Prog (ε : Type u) (α : Type u) where
  run : ℕ → Option (Except ε α)
  mono : ∀ n r, run n = some r → run (n + 1) = some r

namespace Prog

variable {ε α β σ τ ρ : Type u}

-- ---------------------------------------------------------------------------
-- Outcomes
-- ---------------------------------------------------------------------------

/-- The computation ends with outcome `r`. -/
def Ends (p : Prog ε α) (r : Except ε α) : Prop := ∃ n, p.run n = some r

/-- The computation returns `a`. -/
def Returns (p : Prog ε α) (a : α) : Prop := Ends p (.ok a)

/-- The computation stops with the fault `e`. -/
def Fails (p : Prog ε α) (e : ε) : Prop := Ends p (.error e)

/-- The computation runs forever. -/
def Diverges (p : Prog ε α) : Prop := ∀ n, p.run n = none

theorem run_le (p : Prog ε α) {n m : ℕ} {r : Except ε α} (hnm : n ≤ m)
    (h : p.run n = some r) : p.run m = some r := by
  induction m, hnm using Nat.le_induction with
  | base => exact h
  | succ m _ ih => exact p.mono m r ih

theorem Ends.unique {p : Prog ε α} {r r' : Except ε α} (h : Ends p r) (h' : Ends p r') :
    r = r' := by
  obtain ⟨n, hn⟩ := h
  obtain ⟨m, hm⟩ := h'
  have h1 := p.run_le (Nat.le_max_left n m) hn
  have h2 := p.run_le (Nat.le_max_right n m) hm
  rw [h1] at h2
  exact Option.some.inj h2

theorem Returns.unique {p : Prog ε α} {a b : α} (h : Returns p a) (h' : Returns p b) :
    a = b :=
  Except.ok.inj (Ends.unique h h')

theorem Returns.not_fails {p : Prog ε α} {a : α} {e : ε} (h : Returns p a) : ¬ Fails p e :=
  fun h' => by cases Ends.unique h h'

theorem Ends.not_diverges {p : Prog ε α} {r : Except ε α} (h : Ends p r) : ¬ Diverges p := by
  intro hd
  obtain ⟨n, hn⟩ := h
  rw [hd n] at hn
  cases hn

/-- While a computation that ends is still running it has given no other answer. -/
theorem Ends.run_eq {p : Prog ε α} {r : Except ε α} (h : Ends p r) (n : ℕ) :
    p.run n = none ∨ p.run n = some r := by
  cases hn : p.run n with
  | none => exact Or.inl rfl
  | some r' => exact Or.inr (by rw [Ends.unique ⟨n, hn⟩ h])

/-- The value returned within the given amount of fuel. -/
def value (p : Prog ε α) (n : ℕ) : Option α :=
  match p.run n with
  | some (.ok a) => some a
  | _ => none

/-- A value that can be computed is returned. -/
theorem returns_of_value {p : Prog ε α} {n : ℕ} {a : α} (h : p.value n = some a) :
    Returns p a := by
  unfold value at h
  split at h
  · next hrun => exact ⟨n, by rw [hrun, Option.some.inj h]⟩
  · cases h

/-- A part of a value that can be computed. -/
theorem exists_returns_of_value {p : Prog ε α} {n : ℕ} {f : α → β} {b : β}
    (h : (p.value n).map f = some b) : ∃ a, Returns p a ∧ f a = b := by
  obtain ⟨a, ha, hf⟩ := Option.map_eq_some_iff.mp h
  exact ⟨a, returns_of_value ha, hf⟩

-- ---------------------------------------------------------------------------
-- Sequencing
-- ---------------------------------------------------------------------------

/-- Stop with a fault. -/
def fault (e : ε) : Prog ε α := ⟨fun _ => some (.error e), fun _ _ h => h⟩

/-- Never end. -/
def hang : Prog ε α := ⟨fun _ => none, fun _ _ h => h⟩

/-- The answer of `p` followed by `f`, for a fixed amount of fuel. -/
def bindRun (p : Prog ε α) (f : α → Prog ε β) (n : ℕ) : Option (Except ε β) :=
  match p.run n with
  | none => none
  | some (.error e) => some (.error e)
  | some (.ok a) => (f a).run n

instance : Monad (Prog ε) where
  pure a := ⟨fun _ => some (.ok a), fun _ _ h => h⟩
  bind p f :=
    { run := bindRun p f
      mono := by
        intro n r h
        unfold bindRun at h ⊢
        cases hp : p.run n with
        | none => rw [hp] at h; cases h
        | some q =>
          rw [hp] at h
          rw [p.mono n q hp]
          cases q with
          | error e => exact h
          | ok a => exact (f a).mono n r h }

theorem bind_run (p : Prog ε α) (f : α → Prog ε β) (n : ℕ) :
    (p >>= f).run n = bindRun p f n := rfl

theorem returns_pure (a : α) : Returns (pure a : Prog ε α) a := ⟨0, rfl⟩

theorem fails_fault (e : ε) : Fails (fault e : Prog ε α) e := ⟨0, rfl⟩

theorem Returns.bind_ends {p : Prog ε α} {f : α → Prog ε β} {a : α} {r : Except ε β}
    (hp : Returns p a) (hf : Ends (f a) r) : Ends (p >>= f) r := by
  obtain ⟨n, hn⟩ := hp
  obtain ⟨m, hm⟩ := hf
  refine ⟨max n m, ?_⟩
  rw [bind_run, bindRun, p.run_le (Nat.le_max_left n m) hn]
  exact (f a).run_le (Nat.le_max_right n m) hm

theorem Returns.bind {p : Prog ε α} {f : α → Prog ε β} {a : α} {b : β}
    (hp : Returns p a) (hf : Returns (f a) b) : Returns (p >>= f) b :=
  hp.bind_ends hf

theorem Returns.map {p : Prog ε α} {f : α → β} {a : α} (hp : Returns p a) :
    Returns (p >>= fun x => pure (f x)) (f a) :=
  hp.bind (returns_pure (f a))

theorem Fails.bind {p : Prog ε α} {f : α → Prog ε β} {e : ε} (hp : Fails p e) :
    Fails (p >>= f) e := by
  obtain ⟨n, hn⟩ := hp
  exact ⟨n, by rw [bind_run, bindRun, hn]⟩

theorem Diverges.bind {p : Prog ε α} {f : α → Prog ε β} (hp : Diverges p) :
    Diverges (p >>= f) :=
  fun n => by rw [bind_run, bindRun, hp n]

theorem Returns.bind_diverges {p : Prog ε α} {f : α → Prog ε β} {a : α}
    (hp : Returns p a) (hf : Diverges (f a)) : Diverges (p >>= f) := by
  intro n
  rw [bind_run, bindRun]
  rcases Ends.run_eq hp n with hn | hn
  · rw [hn]
  · rw [hn]
    exact hf n

/-- Inversion of sequencing: a returned value came through both parts. -/
theorem Returns.of_bind {p : Prog ε α} {f : α → Prog ε β} {b : β}
    (h : Returns (p >>= f) b) : ∃ a, Returns p a ∧ Returns (f a) b := by
  obtain ⟨n, hn⟩ := h
  rw [bind_run, bindRun] at hn
  cases hp : p.run n with
  | none => rw [hp] at hn; cases hn
  | some q =>
    rw [hp] at hn
    cases q with
    | error e => cases hn
    | ok a => exact ⟨a, ⟨n, hp⟩, ⟨n, hn⟩⟩

theorem Returns.of_pure {a b : α} (h : Returns (pure a : Prog ε α) b) : b = a :=
  h.unique (returns_pure a)

-- ---------------------------------------------------------------------------
-- Loops
-- ---------------------------------------------------------------------------

/-- Iterate `step`, spending one unit of fuel for each iteration. -/
def loopRun (step : σ → Prog ε (σ ⊕ ρ)) : ℕ → σ → Option (Except ε ρ)
  | 0, _ => none
  | n + 1, s =>
    match (step s).run n with
    | none => none
    | some (.error e) => some (.error e)
    | some (.ok (.inr r)) => some (.ok r)
    | some (.ok (.inl s')) => loopRun step n s'

theorem loopRun_mono (step : σ → Prog ε (σ ⊕ ρ)) (n : ℕ) :
    ∀ (s : σ) (r : Except ε ρ), loopRun step n s = some r → loopRun step (n + 1) s = some r := by
  induction n with
  | zero => intro s r h; cases h
  | succ n ih =>
    intro s r h
    rw [loopRun] at h
    rw [loopRun]
    cases hs : (step s).run n with
    | none => rw [hs] at h; cases h
    | some q =>
      rw [hs] at h
      rw [(step s).mono n q hs]
      match q, h with
      | .error e, h => exact h
      | .ok (.inr r'), h => exact h
      | .ok (.inl s'), h => exact ih s' r h

/-- The loop `while` the step continues. -/
def loop (step : σ → Prog ε (σ ⊕ ρ)) (s : σ) : Prog ε ρ :=
  ⟨fun n => loopRun step n s, fun n => loopRun_mono step n s⟩

theorem loop_next {step : σ → Prog ε (σ ⊕ ρ)} {s s' : σ} {r : Except ε ρ}
    (hs : Returns (step s) (.inl s')) (h : Ends (loop step s') r) : Ends (loop step s) r := by
  obtain ⟨n, hn⟩ := hs
  obtain ⟨m, hm⟩ := h
  refine ⟨max n m + 1, ?_⟩
  show loopRun step (max n m + 1) s = some r
  rw [loopRun, (step s).run_le (Nat.le_max_left n m) hn]
  exact (loop step s').run_le (Nat.le_max_right n m) hm

theorem loop_done {step : σ → Prog ε (σ ⊕ ρ)} {s : σ} {r : ρ}
    (hs : Returns (step s) (.inr r)) : Returns (loop step s) r := by
  obtain ⟨n, hn⟩ := hs
  refine ⟨n + 1, ?_⟩
  show loopRun step (n + 1) s = some (.ok r)
  rw [loopRun, hn]

/-- A loop that ends does so from every state it comes to. -/
theorem loop_of_next {step : σ → Prog ε (σ ⊕ ρ)} {s s' : σ} {r : Except ε ρ}
    (hs : Returns (step s) (.inl s')) (h : Ends (loop step s) r) : Ends (loop step s') r := by
  obtain ⟨n, hn⟩ := h
  replace hn : loopRun step n s = some r := hn
  cases n with
  | zero => cases hn
  | succ n =>
    rw [loopRun] at hn
    rcases Ends.run_eq hs n with hrun | hrun
    · rw [hrun] at hn
      cases hn
    · rw [hrun] at hn
      exact ⟨n, hn⟩

theorem loop_fails {step : σ → Prog ε (σ ⊕ ρ)} {s : σ} {e : ε} (hs : Fails (step s) e) :
    Fails (loop step s) e := by
  obtain ⟨n, hn⟩ := hs
  refine ⟨n + 1, ?_⟩
  show loopRun step (n + 1) s = some (.error e)
  rw [loopRun, hn]

/-- **Total correctness of a loop.** An invariant `I`, a measure `μ` that every
continuing iteration decreases, and a postcondition `Q` that leaving the loop
establishes. -/
theorem loop_returns {step : σ → Prog ε (σ ⊕ ρ)} (I : σ → Prop) (μ : σ → ℕ) (Q : ρ → Prop)
    (hstep : ∀ s, I s →
      (∃ s', Returns (step s) (.inl s') ∧ I s' ∧ μ s' < μ s) ∨
      (∃ r, Returns (step s) (.inr r) ∧ Q r))
    {s : σ} (hs : I s) : ∃ r, Returns (loop step s) r ∧ Q r := by
  induction hm : μ s using Nat.strong_induction_on generalizing s with
  | _ m ih =>
    rcases hstep s hs with ⟨s', hret, hI, hlt⟩ | ⟨r, hret, hQ⟩
    · obtain ⟨r, hr, hQ⟩ := ih (μ s') (hm ▸ hlt) hI rfl
      exact ⟨r, loop_next hret hr, hQ⟩
    · exact ⟨r, loop_done hret, hQ⟩

/-- A loop whose invariant never lets it leave runs forever. -/
theorem loop_diverges {step : σ → Prog ε (σ ⊕ ρ)} (I : σ → Prop)
    (hstep : ∀ s, I s → ∃ s', Returns (step s) (.inl s') ∧ I s')
    {s : σ} (hs : I s) : Diverges (loop step s) := by
  intro n
  show loopRun step n s = none
  induction n generalizing s with
  | zero => rfl
  | succ n ih =>
    obtain ⟨s', hret, hI⟩ := hstep s hs
    rw [loopRun]
    rcases Ends.run_eq hret n with hn | hn
    · rw [hn]
    · rw [hn]
      exact ih hI

/-- **Lock-step simulation.** When related states step to related states and
leave the loop together with related results, the second loop returns
whenever the first does. -/
theorem loop_sim {step : σ → Prog ε (σ ⊕ ρ)} {ρ' : Type u} {step' : τ → Prog ε (τ ⊕ ρ')}
    (R : σ → τ → Prop) (S : ρ → ρ' → Prop)
    (hnext : ∀ s t s', R s t → Returns (step s) (.inl s') →
      ∃ t', Returns (step' t) (.inl t') ∧ R s' t')
    (hdone : ∀ s t r, R s t → Returns (step s) (.inr r) →
      ∃ r', Returns (step' t) (.inr r') ∧ S r r')
    {s : σ} {t : τ} {r : ρ} (hst : R s t) (h : Returns (loop step s) r) :
    ∃ r', Returns (loop step' t) r' ∧ S r r' := by
  obtain ⟨n, hn⟩ := h
  replace hn : loopRun step n s = some (.ok r) := hn
  induction n generalizing s t with
  | zero => cases hn
  | succ n ih =>
    rw [loopRun] at hn
    cases hs : (step s).run n with
    | none => rw [hs] at hn; cases hn
    | some q =>
      rw [hs] at hn
      match q, hs, hn with
      | .ok (.inr r₁), hs, hn =>
        cases hn
        obtain ⟨r', hr', hS⟩ := hdone s t r hst ⟨n, hs⟩
        exact ⟨r', loop_done hr', hS⟩
      | .ok (.inl s'), hs, hn =>
        obtain ⟨t', ht', hR⟩ := hnext s t s' hst ⟨n, hs⟩
        obtain ⟨r', hr', hS⟩ := ih hR hn
        exact ⟨r', loop_next ht' hr', hS⟩

/-- **Partial correctness of a loop**: an invariant that every iteration keeps, and
that gives `Q` when the loop is left. -/
theorem loop_inv {step : σ → Prog ε (σ ⊕ ρ)} (I : σ → Prop) (Q : ρ → Prop)
    (hnext : ∀ s s', I s → Returns (step s) (.inl s') → I s')
    (hdone : ∀ s r, I s → Returns (step s) (.inr r) → Q r)
    {s : σ} {r : ρ} (hs : I s) (h : Returns (loop step s) r) : Q r := by
  -- the second loop repeats the first one
  have hsim : ∃ r', Returns (loop step s) r' ∧ Q r :=
    loop_sim (fun s t => I s ∧ s = t) (fun r _ => Q r)
      (fun s t s' ⟨hI, hst⟩ hret => ⟨s', hst ▸ hret, hnext s s' hI hret, rfl⟩)
      (fun s t r ⟨hI, hst⟩ hret => ⟨r, hst ▸ hret, hdone s r hI hret⟩) ⟨hs, rfl⟩ h
  exact hsim.choose_spec.2

-- ---------------------------------------------------------------------------
-- Iteration over a list
-- ---------------------------------------------------------------------------

theorem foldlM_nil (f : σ → α → Prog ε σ) (s : σ) :
    Returns (([] : List α).foldlM f s) s := returns_pure s

theorem foldlM_cons {f : σ → α → Prog ε σ} {x : α} {l : List α} {s s' : σ} {r : Except ε σ}
    (hx : Returns (f s x) s') (hl : Ends (l.foldlM f s') r) :
    Ends ((x :: l).foldlM f s) r := by
  rw [List.foldlM_cons]
  exact hx.bind_ends hl

theorem foldlM_fails {f : σ → α → Prog ε σ} {x : α} {l : List α} {s : σ} {e : ε}
    (hx : Fails (f s x) e) : Fails ((x :: l).foldlM f s) e := by
  rw [List.foldlM_cons]
  exact hx.bind

/-- A `for` loop in two parts. -/
theorem foldlM_append {f : σ → α → Prog ε σ} {l l' : List α} {s s' : σ} {r : Except ε σ}
    (hl : Returns (l.foldlM f s) s') (hl' : Ends (l'.foldlM f s') r) :
    Ends ((l ++ l').foldlM f s) r := by
  induction l generalizing s with
  | nil =>
    obtain rfl := hl.of_pure
    exact hl'
  | cons x l ih =>
    rw [List.foldlM_cons] at hl
    obtain ⟨s₁, hx, hrest⟩ := hl.of_bind
    exact foldlM_cons hx (ih hrest)

/-- A `for` loop ends with its invariant, or where one of its steps fails. -/
theorem foldlM_ends {f : σ → α → Prog ε σ} (I : List α → σ → Prop) (J : ε → Prop) {l : List α}
    (hstep : ∀ (pre : List α) (x : α) (post : List α) (s : σ), l = pre ++ x :: post → I pre s →
      (∃ s', Returns (f s x) s' ∧ I (pre ++ [x]) s') ∨ ∃ e, Fails (f s x) e ∧ J e)
    {s : σ} (hs : I [] s) :
    (∃ s', Returns (l.foldlM f s) s' ∧ I l s') ∨ ∃ e, Fails (l.foldlM f s) e ∧ J e := by
  suffices h : ∀ (post pre : List α) (s : σ), l = pre ++ post → I pre s →
      (∃ s', Returns (post.foldlM f s) s' ∧ I l s') ∨ ∃ e, Fails (post.foldlM f s) e ∧ J e from
    h l [] s rfl hs
  intro post
  induction post with
  | nil =>
    intro pre s hl hI
    rw [List.append_nil] at hl
    exact Or.inl ⟨s, foldlM_nil f s, hl ▸ hI⟩
  | cons x post ih =>
    intro pre s hl hI
    rcases hstep pre x post s hl hI with ⟨s₁, hx, hI₁⟩ | ⟨e, hx, hJ⟩
    · rcases ih (pre ++ [x]) s₁ (by simp [hl]) hI₁ with ⟨s₂, hrest, hI₂⟩ | ⟨e, hrest, hJ⟩
      · exact Or.inl ⟨s₂, foldlM_cons hx hrest, hI₂⟩
      · exact Or.inr ⟨e, foldlM_cons hx hrest, hJ⟩
    · exact Or.inr ⟨e, foldlM_fails hx, hJ⟩

/-- **Invariant of a `for` loop**: `I` speaks about the part of the list that
has been processed and the state reached. -/
theorem foldlM_returns {f : σ → α → Prog ε σ} (I : List α → σ → Prop) {l : List α}
    (hstep : ∀ (pre : List α) (x : α) (post : List α) (s : σ), l = pre ++ x :: post → I pre s →
      ∃ s', Returns (f s x) s' ∧ I (pre ++ [x]) s')
    {s : σ} (hs : I [] s) : ∃ s', Returns (l.foldlM f s) s' ∧ I l s' :=
  (foldlM_ends I (fun _ => False)
    (fun pre x post s hl hI => Or.inl (hstep pre x post s hl hI)) hs).resolve_right
    fun ⟨_, _, hfalse⟩ => hfalse

/-- A run that returns if `P` holds and fails otherwise. -/
theorem returns_iff_of_ends {P : Prop} {p : Prog ε α} {e : ε}
    (h : (P ∧ ∃ a, Returns p a) ∨ (¬ P ∧ Fails p e)) : (∃ a, Returns p a) ↔ P := by
  rcases h with ⟨hP, hret⟩ | ⟨hP, hfail⟩
  · exact ⟨fun _ => hP, fun _ => hret⟩
  · exact ⟨fun ⟨_, hret⟩ => absurd hfail hret.not_fails, fun h => absurd h hP⟩

/-- **A guarded loop.** Steps that go through exactly where `G` holds, and stop with `e`
elsewhere, make a loop that goes through exactly where it holds of the whole list. -/
theorem foldlM_guarded {f : σ → α → Prog ε σ} {G : α → Prop} {e : ε}
    (I : List α → σ → Prop) {l : List α}
    (hstep : ∀ (pre : List α) (x : α) (post : List α) (s : σ), l = pre ++ x :: post → I pre s →
      (G x ∧ ∃ s', Returns (f s x) s' ∧ I (pre ++ [x]) s') ∨ (¬ G x ∧ Fails (f s x) e))
    {s : σ} (hs : I [] s) :
    ((∀ x ∈ l, G x) ∧ ∃ s', Returns (l.foldlM f s) s' ∧ I l s') ∨
      (¬ (∀ x ∈ l, G x) ∧ Fails (l.foldlM f s) e) := by
  rcases foldlM_ends (fun pre s => (∀ x ∈ pre, G x) ∧ I pre s)
    (fun e' => e' = e ∧ ¬ ∀ x ∈ l, G x)
    (fun pre x post s hsplit hI => by
      rcases hstep pre x post s hsplit hI.2 with ⟨hgood, s', hret, hI'⟩ | ⟨hbad, hfail⟩
      · refine Or.inl ⟨s', hret, fun y hy => ?_, hI'⟩
        rcases List.mem_append.mp hy with hy | hy
        · exact hI.1 y hy
        · exact List.mem_singleton.mp hy ▸ hgood
      · exact Or.inr ⟨e, hfail, rfl, fun hall => hbad (hall x (by rw [hsplit]; simp))⟩)
    (s := s) ⟨fun y hy => absurd hy List.not_mem_nil, hs⟩ with
    ⟨s', hret, hall, hI⟩ | ⟨e', hfail, rfl, hnot⟩
  · exact Or.inl ⟨hall, s', hret, hI⟩
  · exact Or.inr ⟨hnot, hfail⟩

/-- **Invariant of a counting loop** `for (i = 0; i < n; i++)`. -/
theorem range_returns {ε σ : Type} {f : σ → ℕ → Prog ε σ} (I : ℕ → σ → Prop) {n : ℕ}
    (hstep : ∀ i < n, ∀ s, I i s → ∃ s', Returns (f s i) s' ∧ I (i + 1) s') {s : σ} (hs : I 0 s) :
    ∃ s', Returns ((List.range n).foldlM f s) s' ∧ I n s' := by
  obtain ⟨s', hret, hI⟩ := foldlM_returns (fun pre s => I pre.length s) (l := List.range n)
    (fun pre i post s hsplit hI => by
      have hlt : pre.length < (List.range n).length := by
        rw [hsplit, List.length_append, List.length_cons]
        omega
      have hget : (List.range n)[pre.length] = i := by
        simp only [hsplit, List.getElem_append_right (le_refl _), Nat.sub_self, List.getElem_cons_zero]
      rw [List.getElem_range] at hget
      subst hget
      obtain ⟨s', hret, hI'⟩ := hstep pre.length (by simpa using hlt) s hI
      exact ⟨s', hret, by rw [List.length_append, List.length_singleton]; exact hI'⟩) hs
  rw [List.length_range] at hI
  exact ⟨s', hret, hI⟩

/-- Steps that agree on the list. -/
theorem foldlM_congr {f g : σ → α → Prog ε σ} {l : List α} (h : ∀ x ∈ l, ∀ s, f s x = g s x)
    (s : σ) : l.foldlM f s = l.foldlM g s := by
  induction l generalizing s with
  | nil => rfl
  | cons x l ih =>
    rw [List.foldlM_cons, List.foldlM_cons, h x List.mem_cons_self]
    exact congrArg _ (funext fun s' => ih (fun y hy => h y (List.mem_cons_of_mem _ hy)) s')

/-- A `for` loop over steps that are functions. -/
theorem foldlM_foldl {f : σ → α → Prog ε σ} {g : σ → α → σ} {l : List α}
    (hstep : ∀ s, ∀ x ∈ l, Returns (f s x) (g s x)) (s : σ) :
    Returns (l.foldlM f s) (l.foldl g s) := by
  induction l generalizing s with
  | nil => exact foldlM_nil f s
  | cons x l ih =>
    exact foldlM_cons (hstep s x List.mem_cons_self)
      (ih (fun s y hy => hstep s y (List.mem_cons_of_mem _ hy)) (g s x))

/-- Partial correctness of a `for` loop. -/
theorem foldlM_inv {f : σ → α → Prog ε σ} (I : List α → σ → Prop) {l : List α}
    (hstep : ∀ (pre : List α) (x : α) (post : List α) (s s' : σ), l = pre ++ x :: post → I pre s →
      Returns (f s x) s' → I (pre ++ [x]) s')
    {s s' : σ} (hs : I [] s) (h : Returns (l.foldlM f s) s') : I l s' := by
  suffices hpost : ∀ (post pre : List α) (s : σ), l = pre ++ post → I pre s →
      Returns (post.foldlM f s) s' → I l s' from hpost l [] s rfl hs h
  intro post
  induction post with
  | nil =>
    intro pre s hl hI hret
    rw [List.append_nil] at hl
    rw [hret.of_pure, hl]
    exact hI
  | cons x post ih =>
    intro pre s hl hI hret
    rw [List.foldlM_cons] at hret
    obtain ⟨s₁, hx, hrest⟩ := hret.of_bind
    exact ih (pre ++ [x]) s₁ (by simp [hl]) (hstep pre x post s s₁ hl hI hx) hrest

/-- Lock-step simulation of two `for` loops over one list. -/
theorem foldlM_sim {f : σ → α → Prog ε σ} {g : τ → α → Prog ε τ} (R : σ → τ → Prop) {l : List α}
    (hstep : ∀ s t, ∀ x ∈ l, ∀ s', R s t → Returns (f s x) s' →
      ∃ t', Returns (g t x) t' ∧ R s' t')
    {s s' : σ} {t : τ} (hst : R s t) (h : Returns (l.foldlM f s) s') :
    ∃ t', Returns (l.foldlM g t) t' ∧ R s' t' := by
  induction l generalizing s t with
  | nil => exact ⟨t, foldlM_nil g t, (Returns.of_pure h) ▸ hst⟩
  | cons x l ih =>
    rw [List.foldlM_cons] at h
    obtain ⟨s₁, hx, hrest⟩ := h.of_bind
    obtain ⟨t₁, hx', hR₁⟩ := hstep s t x List.mem_cons_self s₁ hst hx
    obtain ⟨t', hrest', hR⟩ :=
      ih (fun s t y hy => hstep s t y (List.mem_cons_of_mem _ hy)) hR₁ hrest
    exact ⟨t', foldlM_cons hx' hrest', hR⟩

end Prog
