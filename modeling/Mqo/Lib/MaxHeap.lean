import Mathlib.Data.List.Sort
import Mathlib.Order.Defs.LinearOrder

/-!
# Heaps in a vector

`std::make_heap`, `std::push_heap` and `std::pop_heap`: a heap is an arrangement of the elements
of a vector that has a largest one in front; how the others are arranged is left to the
implementation. `HeapAlgorithms key` is an implementation that compares by `key`.

* `push_spec`    — an element at the end is taken into the heap;
* `replace_spec` — the largest element is replaced: popped, overwritten, and pushed;
* `sorted`       — an implementation that keeps its heaps sorted.
-/

universe u v

/-- An implementation of the heap algorithms. -/
structure HeapAlgorithms {α : Type u} {κ : Type v} [LinearOrder κ] (key : α → κ) where
  IsHeap : List α → Prop
  make_heap : List α → List α
  push_heap : List α → List α
  pop_heap : List α → List α
  front_le : ∀ {a l}, IsHeap (a :: l) → ∀ b ∈ l, key b ≤ key a
  make_perm : ∀ l, (make_heap l).Perm l
  isHeap_make : ∀ l, IsHeap (make_heap l)
  push_perm : ∀ {l} a, IsHeap l → (push_heap (l ++ [a])).Perm (l ++ [a])
  isHeap_push : ∀ {l} a, IsHeap l → IsHeap (push_heap (l ++ [a]))
  pop_eq : ∀ {a l}, IsHeap (a :: l) → ∃ rest, pop_heap (a :: l) = rest ++ [a] ∧ rest.Perm l ∧
    IsHeap rest

namespace HeapAlgorithms

variable {α : Type u} {κ : Type v} [LinearOrder κ] {key : α → κ} (H : HeapAlgorithms key)

/-- `push_back` and `push_heap`. -/
def push (l : List α) (a : α) : List α := H.push_heap (l ++ [a])

/-- `pop_heap`, an assignment to the last place, and `push_heap`. -/
def replace (l : List α) (a : α) : List α := H.push_heap ((H.pop_heap l).dropLast ++ [a])

theorem push_spec {l : List α} (h : H.IsHeap l) (a : α) :
    H.IsHeap (H.push l a) ∧ (H.push l a).Perm (a :: l) :=
  ⟨H.isHeap_push a h, (H.push_perm a h).trans List.perm_append_comm⟩

theorem replace_spec {front : α} {l : List α} (h : H.IsHeap (front :: l)) (a : α) :
    H.IsHeap (H.replace (front :: l) a) ∧ (H.replace (front :: l) a).Perm (a :: l) := by
  obtain ⟨rest, hpop, hperm, hrest⟩ := H.pop_eq h
  unfold replace
  rw [hpop, List.dropLast_concat]
  obtain ⟨hheap, hpush⟩ := H.push_spec hrest a
  exact ⟨hheap, hpush.trans (hperm.cons a)⟩

/-- Heaps that are sorted, the largest element in front. -/
def sorted (key : α → κ) : HeapAlgorithms key where
  IsHeap l := l.Pairwise fun a b => key b ≤ key a
  make_heap l := l.insertionSort fun a b => key b ≤ key a
  push_heap l := l.insertionSort fun a b => key b ≤ key a
  pop_heap
    | [] => []
    | a :: l => l ++ [a]
  front_le h := (List.pairwise_cons.mp h).1
  make_perm l := List.perm_insertionSort _ l
  isHeap_make l :=
    have : Std.Total fun a b : α => key b ≤ key a := ⟨fun _ _ => le_total _ _⟩
    have : IsTrans α fun a b => key b ≤ key a := ⟨fun _ _ _ h h' => h'.trans h⟩
    List.pairwise_insertionSort _ l
  push_perm _ _ := List.perm_insertionSort _ _
  isHeap_push _ _ :=
    have : Std.Total fun a b : α => key b ≤ key a := ⟨fun _ _ => le_total _ _⟩
    have : IsTrans α fun a b => key b ≤ key a := ⟨fun _ _ _ h h' => h'.trans h⟩
    List.pairwise_insertionSort _ _
  pop_eq {_ l} h := ⟨l, rfl, List.Perm.refl l, (List.pairwise_cons.mp h).2⟩

end HeapAlgorithms
