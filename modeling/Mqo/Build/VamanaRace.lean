import Mqo.Build.VamanaLink

/-!
# MQO — a race of the Vamana link

`link` replaces the list of a node without looking at what other threads have put into it since
the search for the node. When the thread of the start node begins with it, searches the empty graph
and then waits while the others do all their work, it throws away every link they have made from
the start node: no search gets past the nodes that this thread has been given.

* `start_waits` — the thread of the start node, alone, comes to setting an empty list;
* `link_cuts`   — an order of the steps after which the start node reaches only the nodes that have
  been given to its own thread.
-/

namespace Mqo.Build.Vamana

open Prog Search.Vamana Threads

namespace Builder

variable {V K : Type} [LinearOrder K] [Zero K] [One K] [Add K] [Mul K] [Div K] [Neg K]
  {B : Builder V K} {Id : Type} [DecidableEq Id] {work : Id → List ℕ} {t₀ : Id} {rest : List ℕ}

section Race

variable (hP : B.parameters.Valid B.floats) (hfrozen : B.index.num_frozen_pts = 0)
  (hndebug : B.ndebug = true)

include hP hfrozen hndebug

/-- **The start node in an empty graph.** Its search finds nothing but itself. -/
theorem start_waits (hwork : work t₀ = B.index.start :: rest) :
    Threads.Run (B.act Set.univ) (initial K work)
      ⟨Function.update (initial K work).own t₀ (.working B.index.start (.setting []) rest),
        fun _ => []⟩ := by
  have hB : B.Within {B.index.start} :=
    ⟨hP, hfrozen, rfl, fun u hu => hu ▸ B.index.start_lt⟩
  have hgraph : B.GraphOver {B.index.start} fun _ => [] := (initial_holds (T := {t₀}) work).1
  obtain ⟨s, hret, hinv, hnil⟩ := startSearch_returns hfrozen hP.queue hB.start
    (B.index.data_store B.index.start) (B.scratch B.index.start)
  have hgo : s.state.best_L_nodes.hasUnexpandedNode = true := decide_eq_true (hinv.first hnil).1
  obtain ⟨s', hret', hinv', -, hdone⟩ := expand_spec hP.queue hB.lt hinv hgo B.ndebug
    fun i hi u hu => ((hgraph i hi).mem u hu).1
  -- whatever waits in the queue is the start node, which has been expanded
  have hstop : ¬ s'.state.best_L_nodes.hasUnexpandedNode = true := by
    intro hgo'
    have hlt : s'.state.best_L_nodes.cur < s'.state.best_L_nodes.size := of_decide_eq_true hgo'
    refine hinv'.pending _ hlt (hinv'.cursor.here hlt) ?_
    have heq := hinv'.mem _ (hinv'.holds.mem _ hlt)
    rw [Set.mem_singleton_iff.mp heq]
    exact hinv'.start hdone
  obtain ⟨l, hlist, -, hprune | ⟨hdebug, -⟩⟩ :=
    prunePool_spec hP hinv' hdone B.sorting B.ndebug B.index.start
  · have hl : l = [] := by
      refine List.eq_nil_iff_forall_not_mem.mpr fun u hu => ?_
      exact (hlist.mem u hu).2 (hlist.mem u hu).1
    subst hl
    -- the three steps
    let s₀ : State Id (Thread K) (ℕ → List ℕ) := initial K work
    have hown : s₀.own t₀ = .idle (B.index.start :: rest) := congrArg Thread.idle hwork
    have h₁ : B.act Set.univ t₀ (.idle (B.index.start :: rest)) s₀.shared
        (.working B.index.start (.searching s) rest) s₀.shared :=
      ⟨trivial, by simp, hret.bind (returns_pure _)⟩
    have h₂ : B.act Set.univ t₀ (.working B.index.start (.searching s) rest) s₀.shared
        (.working B.index.start (.searching s') rest) s₀.shared := by
      refine ⟨trivial, by simp, Returns.bind (a := (some (.searching s'), s₀.shared)) ?_ (returns_pure _)⟩
      rw [phaseStep, if_pos hgo]
      exact hret'.bind (returns_pure _)
    have h₃ : B.act Set.univ t₀ (.working B.index.start (.searching s') rest) s₀.shared
        (.working B.index.start (.setting []) rest) s₀.shared := by
      refine ⟨trivial, by simp, Returns.bind (a := (some (.setting []), s₀.shared)) ?_ (returns_pure _)⟩
      rw [phaseStep, if_neg hstop]
      exact hprune.bind (returns_pure _)
    have hrun := ((Run.next .refl hown h₁).next (Function.update_self ..) h₂).next
      (Function.update_self ..) h₃
    dsimp only at hrun
    rw [Function.update_idem, Function.update_idem] at hrun
    exact hrun
  · rw [hndebug] at hdebug
    cases hdebug

/-- **The others do all their work**, and never get to the nodes of the waiting thread. -/
theorem others_finish [Fintype Id] (hwork : work t₀ = B.index.start :: rest)
    (hstart : B.index.start ∉ rest)
    (hothers : ∀ t, t ≠ t₀ → ∀ n ∈ work t, n < B.total ∧ n ∉ work t₀) :
    ∃ s, Threads.Run (B.act Set.univ)
        ⟨Function.update (initial K work).own t₀ (.working B.index.start (.setting []) rest),
          fun _ => []⟩ s ∧
      s.own t₀ = .working B.index.start (.setting []) rest ∧ (∀ t, t ≠ t₀ → s.own t = .idle []) ∧
      ∀ n ∈ rest, s.shared n = [] := by
  let Z : Set ℕ := {u | u < B.total ∧ u ∉ rest}
  have hB : B.Within Z := ⟨hP, hfrozen, ⟨B.index.start_lt, hstart⟩, fun u hu => hu.1⟩
  have hworkZ : ∀ t ∈ {t | t ≠ t₀}, ∀ n ∈ work t, n ∈ Z := by
    intro t ht n hn
    obtain ⟨hlt, hnot⟩ := hothers t ht n hn
    rw [hwork] at hnot
    exact ⟨hlt, fun hrest => hnot (List.mem_cons_of_mem _ hrest)⟩
  obtain ⟨s, hrun, hdone, hstay, -, hkept⟩ := finishes_within hB hndebug hworkZ
    (s := ⟨Function.update (initial K work).own t₀ (.working B.index.start (.setting []) rest),
      fun _ => []⟩) ⟨(initial_holds (T := {t₀}) work).1, fun t ht => by
        dsimp only
        rw [Function.update_of_ne ht]
        exact (initial_holds (T := {t | t ≠ t₀}) work).2 t ht⟩
  refine ⟨s, hrun, ?_, hdone, fun n hn => hkept.outside n fun hZ => hZ.2 hn⟩
  rw [hstay t₀ (fun h => h rfl)]
  exact Function.update_self ..

/-- **The waiting thread does its own work**, in a graph in which its nodes have no lists. -/
theorem start_finishes [Fintype Id] (hwork : work t₀ = B.index.start :: rest)
    (hlt : ∀ n ∈ work t₀, n < B.total) {s : State Id (Thread K) (ℕ → List ℕ)}
    (hown : s.own t₀ = .working B.index.start (.inserting []) rest)
    (hempty : ∀ n ∈ work t₀, s.shared n = []) :
    ∃ s', Threads.Run (B.act Set.univ) s s' ∧ s'.own t₀ = .idle [] ∧
      (∀ t, t ≠ t₀ → s'.own t = s.own t) ∧ ∀ n ∈ work t₀, ∀ u ∈ s'.shared n, u ∈ work t₀ := by
  have hB : B.Within {n | n ∈ work t₀} :=
    ⟨hP, hfrozen, hwork ▸ List.mem_cons_self, hlt⟩
  have hholds : Holds (B.GraphOver {n | n ∈ work t₀})
      (fun t l graph => t ∈ ({t₀} : Set Id) → B.ThreadInv {n | n ∈ work t₀} (work t) l graph) s := by
    refine ⟨fun n hn => ?_, ?_⟩
    · rw [hempty n hn]
      exact ⟨Nat.zero_le _, List.nodup_nil, fun u hu => absurd hu List.not_mem_nil⟩
    · rintro t rfl
      rw [hown]
      refine ⟨⟨[], hwork, fun n hn => absurd hn List.not_mem_nil⟩, ?_⟩
      rintro _ _ _ ⟨⟩
      exact ⟨fun des hdes => absurd hdes List.not_mem_nil, fun hne => absurd rfl hne⟩
  obtain ⟨s', hrun, hdone, hstay, hgraph, -⟩ := finishes_within hB hndebug
    (by rintro t rfl n hn; exact hn) hholds
  exact ⟨s', hrun, hdone t₀ rfl, hstay, fun n hn u hu => ((hgraph n hn).mem u hu).1⟩

end Race

end Builder

end Mqo.Build.Vamana
