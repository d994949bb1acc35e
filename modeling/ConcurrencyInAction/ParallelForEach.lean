import Mathlib.Data.List.Nodup

/-!
# `parallel_for_each` and `parallel_for_each_async`

`parallel_for_each(first, last, f)` of `parallel_foreach.cpp` cuts `[first, last)` into
`num_threads` blocks: the loop hands `num_threads - 1` blocks of `block_size` elements to
threads, each advancing `block_start` by `block_size`, and the calling thread runs the last
block `[block_start, last)`. `parallel_for_each_async` halves its range while it holds at least
`2 * min_per_thread` elements, runs the first half through `std::async` and the second half
itself.

Positions in the range are offsets from `first`. Each block is run by one thread with
`std::for_each`, which applies `f` once to each of its elements; the threads interleave, so
`f` is applied once to every element of every block, in some order. `applied` lists those
applications block after block. The range's length comes from `std::distance`, a signed
64-bit value, so none of the `unsigned long` expressions below wraps and they are computed in
`Nat`.
-/

namespace ConcurrencyInAction

namespace ParallelForEach

/-- `min_per_thread`. -/
def minPerThread : Nat := 25

/-- `max_threads`: enough threads for `min_per_thread` elements each. -/
def maxThreads (length : Nat) : Nat := (length + minPerThread - 1) / minPerThread

/-- `num_threads`: `hardware_concurrency()`, or 2 when it reports 0, but at most
`max_threads`. -/
def numThreads (length hardwareThreads : Nat) : Nat :=
  min (if hardwareThreads ≠ 0 then hardwareThreads else 2) (maxThreads length)

/-- `block_size`. -/
def blockSize (length hardwareThreads : Nat) : Nat := length / numThreads length hardwareThreads

/-- The launch loop from `block_start`, with `count` iterations left: each hands
`[block_start, block_start + block_size)` to a thread and moves `block_start` to its end.
Returns the blocks handed out and the final `block_start`. -/
def launch (blockSize : Nat) : Nat → Nat → List (Nat × Nat) × Nat
  | 0, blockStart => ([], blockStart)
  | count + 1, blockStart =>
    let blockEnd := blockStart + blockSize
    let rest := launch blockSize count blockEnd
    ((blockStart, blockEnd) :: rest.1, rest.2)

/-- The blocks of `parallel_for_each` over a range of `length` elements: those the loop hands
to the `num_threads - 1` threads, then `[block_start, last)` for the calling thread. An empty
range returns at once. -/
def blocks (length hardwareThreads : Nat) : List (Nat × Nat) :=
  if length = 0 then []
  else
    let loop := launch (blockSize length hardwareThreads) (numThreads length hardwareThreads - 1) 0
    loop.1 ++ [(loop.2, length)]

/-- The elements of a block `[start, stop)`. -/
def Block.elements (b : Nat × Nat) : List Nat := List.range' b.1 (b.2 - b.1)

/-- The applications of `f` of `parallel_for_each`, block after block. -/
def applied (length hardwareThreads : Nat) : List Nat :=
  (blocks length hardwareThreads).flatMap Block.elements

/-! ### The launch loop -/

lemma launch_snd (bs : Nat) : ∀ count start, (launch bs count start).2 = start + count * bs
  | 0, start => by simp [launch]
  | count + 1, start => by
    rw [launch, launch_snd bs count (start + bs), Nat.succ_mul]
    omega

/-- The loop's blocks follow each other from `start`, covering `count * block_size`
elements. -/
lemma launch_elements (bs : Nat) :
    ∀ count start, (launch bs count start).1.flatMap Block.elements = List.range' start (count * bs)
  | 0, start => by simp [launch]
  | count + 1, start => by
    show List.range' start (start + bs - start) ++ (launch bs count (start + bs)).1.flatMap
      Block.elements = _
    rw [launch_elements bs count (start + bs), Nat.add_sub_cancel_left, List.range'_append_1,
      Nat.succ_mul]

lemma launch_fst_length (bs : Nat) :
    ∀ count start, (launch bs count start).1.length = count
  | 0, start => rfl
  | count + 1, start => by
    rw [launch, List.length_cons, launch_fst_length bs count (start + bs)]

/-- Two ranges that meet make one. -/
lemma range'_append_split {s m n : Nat} (hs : s ≤ m) (hn : m ≤ n) :
    List.range' s (m - s) ++ List.range' m (n - m) = List.range' s (n - s) := by
  have hlen : n - m + (m - s) = n - s := by omega
  rw [← hlen, ← List.range'_append_1 s (m - s) (n - m), Nat.add_sub_cancel' hs]

/-! ### The blocks of `parallel_for_each` -/

/-- There is a thread exactly when there is an element. -/
lemma numThreads_pos_iff (length h : Nat) : 0 < numThreads length h ↔ 0 < length := by
  unfold numThreads maxThreads minPerThread
  split <;> omega

/-- The threads' blocks end where the last one starts, at most at `last`. -/
lemma launch_snd_le (length h : Nat) :
    (launch (blockSize length h) (numThreads length h - 1) 0).2 ≤ length := by
  rw [launch_snd, blockSize, Nat.zero_add]
  calc (numThreads length h - 1) * (length / numThreads length h)
      _ ≤ numThreads length h * (length / numThreads length h) :=
        Nat.mul_le_mul_right _ (Nat.sub_le _ 1)
      _ ≤ length := Nat.mul_div_le length _

/-- The blocks, read one after the other, are the range `[first, last)`. -/
lemma applied_eq_range (length h : Nat) : applied length h = List.range length := by
  unfold applied blocks
  split
  · simp [*]
  · have hle := launch_snd_le length h
    rw [launch_snd, Nat.zero_add] at hle
    simp only [List.flatMap_append, launch_elements, List.flatMap_singleton, Block.elements,
      launch_snd, Nat.zero_add]
    simpa [List.range_eq_range'] using range'_append_split (Nat.zero_le _) hle

lemma mem_applied {length h i : Nat} : i ∈ applied length h ↔ i < length := by
  rw [applied_eq_range, List.mem_range]

lemma count_range' (s n i : Nat) :
    (List.range' s n).count i = if s ≤ i ∧ i < s + n then 1 else 0 := by
  split
  · exact List.count_eq_one_of_mem (List.nodup_range' s n) (List.mem_range'_1.2 ‹_›)
  · exact List.count_eq_zero_of_not_mem (mt List.mem_range'_1.1 ‹_›)

/-- `f` is applied once to every element of `[first, last)` and to nothing else. -/
lemma count_applied (length h i : Nat) :
    (applied length h).count i = if i < length then 1 else 0 := by
  simp [applied_eq_range, List.range_eq_range', count_range']

/-- One block per thread, the calling thread's included. -/
lemma length_blocks (length h : Nat) : (blocks length h).length = numThreads length h := by
  unfold blocks
  split
  · simp [numThreads, maxThreads, minPerThread, *]
  · have := (numThreads_pos_iff length h).2 (Nat.pos_of_ne_zero ‹_›)
    simp only [List.length_append, launch_fst_length, List.length_singleton]
    omega

/-- No two blocks share an element. -/
lemma blocks_pairwise_disjoint (length h : Nat) :
    (blocks length h).Pairwise fun b c => (Block.elements b).Disjoint (Block.elements c) := by
  have hnd : (applied length h).Nodup := applied_eq_range length h ▸ List.nodup_range length
  exact (List.nodup_flatMap.1 hnd).2

/-- The blocks cover `[first, last)` and lie within it. -/
lemma mem_blocks_iff (length h i : Nat) :
    i < length ↔ ∃ b ∈ blocks length h, i ∈ Block.elements b := by
  rw [← mem_applied (h := h), applied, List.mem_flatMap]

/-! ### `parallel_for_each_async` -/

/-- `mid_point = first + length / 2`. -/
def midPoint (first last : Nat) : Nat := first + (last - first) / 2

/-- A range that `parallel_for_each_async` splits has both halves shorter than itself. -/
lemma halves_shorter (first last : Nat) :
    last - first < 2 * minPerThread ∨
      (midPoint first last - first < last - first ∧ last - midPoint first last < last - first) := by
  unfold midPoint minPerThread
  omega

/-- `parallel_for_each_async(first, last, f)`: the applications of `f`, those of the
`std::async` call on the first half, then those of the second half. `last - first` is
`length`. -/
def parallelForEachAsync (first last : Nat) : List Nat :=
  if last - first = 0 then []
  else if _hshort : last - first < 2 * minPerThread then List.range' first (last - first)
  else
    let firstHalf : Thunk (List Nat) := Thunk.mk fun _ => parallelForEachAsync first (midPoint first last)
    firstHalf.get ++ parallelForEachAsync (midPoint first last) last
termination_by last - first
decreasing_by
  all_goals simp_wf
  · have := halves_shorter first last
    omega
  · have := halves_shorter first last
    omega

/-- `parallel_for_each_async` applies `f` to the elements of `[first, last)`, half after
half. -/
lemma parallelForEachAsync_eq_range (first last : Nat) :
    parallelForEachAsync first last = List.range' first (last - first) := by
  induction first, last using parallelForEachAsync.induct with
  | case1 first last h0 => rw [parallelForEachAsync, if_pos h0, h0]; rfl
  | case2 first last h0 hshort => rw [parallelForEachAsync, if_neg h0, dif_pos hshort]
  | case3 first last h0 hshort ihFirst ihSecond =>
    rw [parallelForEachAsync, if_neg h0, dif_neg hshort]
    show parallelForEachAsync first (midPoint first last) ++ _ = _
    rw [ihFirst, ihSecond]
    exact range'_append_split (by unfold midPoint; omega) (by unfold midPoint; omega)

/-- For every `n` and every `hardware_concurrency()` value `h`, `parallel_for_each` runs one
block per thread, at least one thread when there is an element; the blocks are pairwise
disjoint and cover the range, so `f` is applied exactly once to each element.
`parallel_for_each_async` applies `f` exactly once to each element of every range, and each
call either runs its range itself or splits it into two shorter halves. -/
theorem parallelForEach_applies_once (n h : Nat) :
    (0 < numThreads n h ↔ 0 < n) ∧
    (blocks n h).length = numThreads n h ∧
    (blocks n h).Pairwise (fun b c => (Block.elements b).Disjoint (Block.elements c)) ∧
    (∀ i, i < n ↔ ∃ b ∈ blocks n h, i ∈ Block.elements b) ∧
    (∀ i, (applied n h).count i = if i < n then 1 else 0) ∧
    (∀ first last i,
      (parallelForEachAsync first last).count i = if first ≤ i ∧ i < last then 1 else 0) ∧
    (∀ first last, last - first < 2 * minPerThread ∨
      (midPoint first last - first < last - first ∧ last - midPoint first last < last - first)) :=
  ⟨numThreads_pos_iff n h, length_blocks n h, blocks_pairwise_disjoint n h, mem_blocks_iff n h,
    count_applied n h, fun first last i => by
      rw [parallelForEachAsync_eq_range, count_range']
      congr 1
      apply propext
      omega,
    halves_shorter⟩

end ParallelForEach

end ConcurrencyInAction
