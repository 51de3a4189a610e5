import Mathlib.Algebra.BigOperators.Group.Finset.Basic
import Mathlib.Algebra.Order.BigOperators.Group.Finset
import Mathlib.Data.Fintype.Basic
import Mathlib.Logic.Relation
import Mathlib.Order.WellFounded

/-!
# Threads that take turns

Threads work on a shared state, each with a state of its own. `act t l m l' m'` says that
thread `t` may go from `l` to `l'` in one atomic step (a critical section, or a step that
touches nothing shared) that changes the shared state from `m` to `m'`. A run takes steps
of any threads in any order.

* `Run.mono`, `Run.own_eq` — runs of some of the threads, in which the others stay where they are;
* `Keeps.run`      — an invariant of the shared state, and for each thread an assertion that
  its own steps and those of the others keep, hold in every state of a run;
* `Keeps.relates`  — what every step does to the shared state, a run does;
* `terminates`     — where every step uses up a measure of its thread, no run goes on for
  ever;
* `Keeps.finishes` — and if a thread that is not done can take a step, every run can
  be continued until all are done.
-/

universe u v w

namespace Threads

variable {T : Type u} {L : Type v} {S : Type w}

/-- The states of the threads, and what they share. -/
structure State (T : Type u) (L : Type v) (S : Type w) where
  own : T → L
  shared : S

variable [DecidableEq T] (act : T → L → S → L → S → Prop)

/-- Some thread takes a step. -/
def Step (s s' : State T L S) : Prop :=
  ∃ t l, act t (s.own t) s.shared l s'.shared ∧ s'.own = Function.update s.own t l

/-- Steps of any threads, in any order. -/
def Run : State T L S → State T L S → Prop := Relation.ReflTransGen (Step act)

section Alone

variable {act}

/-- More steps, more runs. -/
theorem Run.mono {act' : T → L → S → L → S → Prop}
    (hle : ∀ {t l m l' m'}, act t l m l' m' → act' t l m l' m') {s s' : State T L S}
    (hrun : Run act s s') : Run act' s s' := by
  induction hrun with
  | refl => exact .refl
  | tail _ hstep ih =>
    obtain ⟨t, l, hact, hown⟩ := hstep
    exact .tail ih ⟨t, l, hle hact, hown⟩

/-- A thread that takes no steps stays where it is. -/
theorem Run.own_eq {t : T} (hstay : ∀ l m l' m', ¬ act t l m l' m') {s s' : State T L S}
    (hrun : Run act s s') : s'.own t = s.own t := by
  induction hrun with
  | refl => rfl
  | tail _ hstep ih =>
    obtain ⟨u, l, hact, hown⟩ := hstep
    have hu : t ≠ u := by
      rintro rfl
      exact hstay _ _ _ _ hact
    rw [hown, Function.update_of_ne hu, ih]

/-- One thread takes one more step. -/
theorem Run.next {t : T} {s s' : State T L S} {l l' : L} {m : S} (hrun : Run act s s')
    (hown : s'.own t = l) (hact : act t l s'.shared l' m) :
    Run act s ⟨Function.update s'.own t l', m⟩ :=
  .tail hrun ⟨t, l', hown ▸ hact, rfl⟩

end Alone

/-- The invariant `I` of the shared state and the assertions `J` of the threads: a step of a thread
keeps the invariant, its own assertion and those of the others. -/
structure Keeps (I : S → Prop) (J : T → L → S → Prop) : Prop where
  own   : ∀ {t l m l' m'}, I m → J t l m → act t l m l' m' → I m' ∧ J t l' m'
  other : ∀ {t u l m l' m' k}, u ≠ t → I m → J t l m → J u k m → act t l m l' m' → J u k m'

/-- The invariant and all assertions. -/
def Holds (I : S → Prop) (J : T → L → S → Prop) (s : State T L S) : Prop :=
  I s.shared ∧ ∀ t, J t (s.own t) s.shared

variable {act} {I : S → Prop} {J : T → L → S → Prop}

theorem Keeps.step (h : Keeps act I J) {s s' : State T L S} (hstep : Step act s s')
    (hs : Holds I J s) : Holds I J s' := by
  obtain ⟨t, l, hact, hown⟩ := hstep
  obtain ⟨hI, hJ⟩ := h.own hs.1 (hs.2 t) hact
  refine ⟨hI, fun u => ?_⟩
  rw [hown]
  by_cases hu : u = t
  · rw [hu, Function.update_self]
    exact hJ
  · rw [Function.update_of_ne hu]
    exact h.other hu hs.1 (hs.2 t) (hs.2 u) hact

/-- **Invariants of a run.** -/
theorem Keeps.run (h : Keeps act I J) {s s' : State T L S} (hrun : Run act s s')
    (hs : Holds I J s) : Holds I J s' := by
  induction hrun with
  | refl => exact hs
  | tail _ hstep ih => exact h.step hstep ih

/-- **What every step does**, for a relation that can be chained. -/
theorem Keeps.relates (h : Keeps act I J) {R : S → S → Prop} (hrefl : ∀ m, R m m)
    (htrans : ∀ m m' m'', R m m' → R m' m'' → R m m'')
    (hstep : ∀ {t l m l' m'}, I m → J t l m → act t l m l' m' → R m m') {s s' : State T L S}
    (hrun : Run act s s') (hs : Holds I J s) : R s.shared s'.shared := by
  induction hrun with
  | refl => exact hrefl _
  | tail hprefix hlast ih =>
    have hmid := h.run hprefix hs
    obtain ⟨t, l, hact, -⟩ := hlast
    exact htrans _ _ _ ih (hstep hmid.1 (hmid.2 t) hact)

section Measure

variable [Fintype T] (h : Keeps act I J) {μ : T → L → ℕ}
  (hμ : ∀ t l m l' m', I m → J t l m → act t l m l' m' → μ t l' < μ t l)

include hμ

/-- A step uses up the sum of all measures. -/
theorem measure_lt {s s' : State T L S} (hs : Holds I J s) (hstep : Step act s s') :
    ∑ t, μ t (s'.own t) < ∑ t, μ t (s.own t) := by
  obtain ⟨t, l, hact, hown⟩ := hstep
  have hlt := hμ _ _ _ _ _ hs.1 (hs.2 t) hact
  rw [hown]
  refine Finset.sum_lt_sum (fun u _ => ?_) ⟨t, Finset.mem_univ t, ?_⟩
  · by_cases hu : u = t
    · rw [hu, Function.update_self]
      exact hlt.le
    · rw [Function.update_of_ne hu]
  · rw [Function.update_self]
    exact hlt

/-- **No run goes on for ever** from a state in which the invariant and all assertions hold. -/
theorem terminates : WellFounded fun s' s : State T L S => Holds I J s ∧ Step act s s' :=
  Subrelation.wf (r := InvImage (· < ·) fun s : State T L S => ∑ t, μ t (s.own t))
    (fun {_ _} hstep => measure_lt hμ hstep.1 hstep.2) (InvImage.wf _ wellFounded_lt)

include h

/-- **Every run can be finished.** -/
theorem Keeps.finishes {D : T → L → Prop}
    (hgo : ∀ t l m, I m → J t l m → ¬ D t l → ∃ l' m', act t l m l' m') {s : State T L S}
    (hs : Holds I J s) : ∃ s', Run act s s' ∧ ∀ t, D t (s'.own t) := by
  induction hn : ∑ t, μ t (s.own t) using Nat.strong_induction_on generalizing s with
  | _ n ih =>
    by_cases hdone : ∀ t, D t (s.own t)
    · exact ⟨s, .refl, hdone⟩
    · obtain ⟨t, ht⟩ := not_forall.mp hdone
      obtain ⟨l, m, hact⟩ := hgo t _ _ hs.1 (hs.2 t) ht
      have hstep : Step act s ⟨Function.update s.own t l, m⟩ := ⟨t, l, hact, rfl⟩
      obtain ⟨s', hrun, hdone'⟩ := ih _ (hn ▸ measure_lt hμ hs hstep) (h.step hstep hs) rfl
      exact ⟨s', .head hstep hrun, hdone'⟩

end Measure

end Threads
