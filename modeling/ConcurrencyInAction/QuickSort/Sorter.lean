import ConcurrencyInAction.AtomicStack
import ConcurrencyInAction.QuickSort.Sequential

/-!
# `sorter` of `parallel_quickqort.cpp`

`do_sort` partitions around the first element, pushes the lower part as a chunk on the shared
stack `chunks`, starts a `sort_thread` while `threads.size() < max_thread_count`, sorts the
higher part itself, and sorts chunks with `try_sort_chunk` until its lower part's promise is
set; `sort_thread` runs `try_sort_chunk` until `~sorter` sets `end_of_data`. A thread is a list
of frames, top first, each at its next step on shared state; the stack's `push` and `pop` are
one step each, as `lockFreeStackRf_linearizable` allows.

As written, `do_sort` does not compile once instantiated, which nothing in the file does:
`lock_free_stack_rf::push` copies the chunk, whose `std::promise` cannot be copied. The model
moves it, as `std::move(new_lower_chunk)` asks, and takes each test and `push_back` on the
vector `threads`, on which worker threads race, as one step.
-/

namespace ConcurrencyInAction

namespace QuickSort

namespace Sorter

/-- The sorter's shared state. -/
structure Shared (α : Type) where
  /-- `chunks`: the chunks on the stack, top first. -/
  chunks : List Nat
  /-- The list each chunk was pushed with. -/
  data : Nat → List α
  /-- The value of each chunk's `promise`, once set. -/
  promise : Nat → Option (List α)
  /-- How many chunks were pushed. -/
  next : Nat
  /-- `threads.size()`. -/
  threads : Nat
  /-- How many of `threads` began `sort_thread`. -/
  started : Nat
  /-- How many of `threads` returned from `sort_thread`. -/
  exited : Nat
  /-- `end_of_data`. -/
  endOfData : Bool

/-- A call in progress, at its next step. A frame of `do_sort` keeps, as `rest`, what
`chunk_data` held once the pivot was spliced off; the code's own locals are the others. -/
inductive Frame (α : Type)
  /-- `do_sort(chunk_data)` is called. -/
  | doSort (chunkData : List α)
  /-- After `chunks.push`: `chunk_data` holds the higher part and `new_lower` is the future
  of chunk `newLower`. Next: `if(threads.size()<max_thread_count) threads.push_back(...)`,
  then `do_sort(chunk_data)`. -/
  | spawn (pivot : α) (rest chunkData : List α) (newLower : Nat)
  /-- In `new_higher(do_sort(chunk_data))`. -/
  | higher (pivot : α) (rest : List α) (newLower : Nat)
  /-- `while(new_lower.wait_for(0s) != ready) try_sort_chunk();`, `result` holding the pivot
  and `new_higher`. -/
  | wait (pivot : α) (rest result : List α) (newLower : Nat)
  /-- `try_sort_chunk()`: `chunks.pop()`. -/
  | tryPop
  /-- `sort_chunk(chunk)`, in `do_sort(chunk->data)`. -/
  | sortChunk (chunk : Nat)
  /-- `chunk->promise.set_value(value)`. -/
  | setValue (chunk : Nat) (value : List α)
  /-- `while(!end_of_data) { try_sort_chunk(); yield(); }` of `sort_thread`. -/
  | sortThread

/-- A thread. -/
inductive Local (α : Type)
  /-- `parallel_quick_sort(input)` is called. -/
  | start (input : List α)
  /-- A thread of `threads` that has not begun. -/
  | idle
  /-- Running the frames, top first. -/
  | running (frames : List (Frame α))
  /-- `s.do_sort(input)` returned `result`; `~sorter` runs next. -/
  | returned (result : List α)
  /-- `~sorter`: `end_of_data` is set, the threads are being joined. -/
  | joining (result : List α)
  /-- `parallel_quick_sort` returned `result`. -/
  | finished (result : List α)
  /-- `sort_thread` returned. -/
  | exited

variable {α : Type}

/-- `max_thread_count`: `hardware_concurrency() - 1` in `unsigned`, so 0 wraps to
`2^32 - 1`. -/
def maxThreadCount (hardwareConcurrency : Nat) : Nat :=
  (hardwareConcurrency + (2 ^ 32 - 1)) % 2 ^ 32

namespace Shared

/-- `chunks.push(std::move(new_lower_chunk))`: a new chunk holding `data` and an unset
promise, on top of the stack. -/
def push (g : Shared α) (data : List α) : Shared α :=
  { g with chunks := ((StackOp.push g.next).apply g.chunks).1,
           data := Function.update g.data g.next data,
           promise := Function.update g.promise g.next none,
           next := g.next + 1 }

/-- `if(threads.size()<max_thread_count) threads.push_back(std::thread(...))`. -/
def spawn (g : Shared α) (maxThreadCount : Nat) : Shared α :=
  if g.threads < maxThreadCount then { g with threads := g.threads + 1 } else g

/-- `chunk->promise.set_value(value)`, which throws on a promise that holds a value. -/
def setValue (g : Shared α) (c : Nat) (value : List α) : Except Fault (Shared α) :=
  match g.promise c with
  | some _ => .error .promiseAlreadySatisfied
  | none => .ok { g with promise := Function.update g.promise c (some value) }

@[simp] lemma push_chunks (g : Shared α) (data : List α) :
    (g.push data).chunks = g.next :: g.chunks := rfl

@[simp] lemma push_next (g : Shared α) (data : List α) : (g.push data).next = g.next + 1 := rfl

@[simp] lemma push_data (g : Shared α) (data : List α) :
    (g.push data).data = Function.update g.data g.next data := rfl

@[simp] lemma push_promise (g : Shared α) (data : List α) :
    (g.push data).promise = Function.update g.promise g.next none := rfl

/-- Starting a thread touches no chunk. -/
lemma spawn_chunks (g : Shared α) (m : Nat) :
    (g.spawn m).chunks = g.chunks ∧ (g.spawn m).data = g.data ∧ (g.spawn m).promise = g.promise ∧
      (g.spawn m).next = g.next := by
  unfold spawn; split <;> exact ⟨rfl, rfl, rfl, rfl⟩

end Shared

/-- A `do_sort` call returns `r` to the frame below it: to `new_higher` of the call that made
it, to `sort_chunk`, which sets the promise next, or to `parallel_quick_sort`. -/
def deliver (r : List α) : List (Frame α) → Local α
  | [] => .returned r
  | .higher pivot rest newLower :: fs => .running (.wait pivot rest (pivot :: r) newLower :: fs)
  | .sortChunk c :: fs => .running (.setValue c r :: fs)
  | fs => .running fs

variable (P : Partition α) (lt : α → α → Bool) (hardwareConcurrency : Nat)

/-- One atomic step of a thread. The threads waiting on nothing (`finished`, `exited`) stay
where they are, as does a thread blocked in a join or not yet begun. -/
def step (g : Shared α) : Local α → Except Fault (Shared α × Local α)
  | .start [] => .ok (g, .finished [])
  | .start input => .ok (g, .running [.doSort input])
  | .idle =>
    if g.started < g.threads then .ok ({ g with started := g.started + 1 }, .running [.sortThread])
    else .ok (g, .idle)
  | .running (.doSort [] :: fs) => .ok (g, deliver [] fs)
  | .running (.doSort (pivot :: rest) :: fs) =>
    let parts := P.run (fun t => lt t pivot) rest
    .ok (g.push parts.1, .running (.spawn pivot rest parts.2 g.next :: fs))
  | .running (.spawn pivot rest chunkData newLower :: fs) =>
    .ok (g.spawn (maxThreadCount hardwareConcurrency),
      .running (.doSort chunkData :: .higher pivot rest newLower :: fs))
  | .running (.wait pivot rest result newLower :: fs) =>
    match g.promise newLower with
    | some lower => .ok (g, deliver (lower ++ result) fs)
    | none => .ok (g, .running (.tryPop :: .wait pivot rest result newLower :: fs))
  | .running (.tryPop :: fs) =>
    match StackOp.pop.apply g.chunks with
    | (chunks, .popped (some c)) =>
      .ok ({ g with chunks }, .running (.doSort (g.data c) :: .sortChunk c :: fs))
    | _ => .ok (g, .running fs)
  | .running (.setValue c value :: fs) => do
    let g' ← g.setValue c value
    return (g', .running fs)
  | .running (.sortThread :: fs) =>
    if g.endOfData then .ok ({ g with exited := g.exited + 1 }, .exited)
    else .ok (g, .running (.tryPop :: .sortThread :: fs))
  | .returned result => .ok ({ g with endOfData := true }, .joining result)
  | .joining result =>
    if g.exited = g.threads then .ok (g, .finished result) else .ok (g, .joining result)
  | l => .ok (g, l)

/-- The sorter as a program; it emits no events. -/
def sorter : Program (Shared α) (Local α) Unit Empty :=
  ⟨fun g l _ => (step P lt hardwareConcurrency g l).map fun r => (r.1, r.2, none)⟩

/-- `parallel_quick_sort(input)` called on thread `main`: no chunk, no thread started, and
every other thread idle. -/
def init {Tid : Type} [DecidableEq Tid] (main : Tid) (input : List α) :
    Conf Tid (Shared α) (Local α) :=
  ⟨⟨[], fun _ => [], fun _ => none, 0, 0, 0, 0, false⟩,
    fun t => if t = main then .start input else .idle⟩

/-! ### What a step can do -/

/-- The transitions of a thread, one constructor per step of the code. -/
inductive Move : Shared α → Local α → Shared α → Local α → Prop
  | stay (g : Shared α) (l : Local α) : Move g l g l
  | startEmpty (g : Shared α) : Move g (.start []) g (.finished [])
  | start (g : Shared α) (pivot : α) (rest : List α) :
      Move g (.start (pivot :: rest)) g (.running [.doSort (pivot :: rest)])
  | begin (g : Shared α) (h : g.started < g.threads) :
      Move g .idle { g with started := g.started + 1 } (.running [.sortThread])
  | sortEmpty (g : Shared α) (fs : List (Frame α)) :
      Move g (.running (.doSort [] :: fs)) g (deliver [] fs)
  | partition (g : Shared α) (pivot : α) (rest : List α) (fs : List (Frame α)) :
      Move g (.running (.doSort (pivot :: rest) :: fs))
        (g.push (P.run (fun t => lt t pivot) rest).1)
        (.running (.spawn pivot rest (P.run (fun t => lt t pivot) rest).2 g.next :: fs))
  | spawn (g : Shared α) (pivot : α) (rest chunkData : List α) (newLower : Nat)
      (fs : List (Frame α)) :
      Move g (.running (.spawn pivot rest chunkData newLower :: fs))
        (g.spawn (maxThreadCount hardwareConcurrency))
        (.running (.doSort chunkData :: .higher pivot rest newLower :: fs))
  | ready (g : Shared α) (pivot : α) (rest result : List α) (newLower : Nat)
      (fs : List (Frame α)) (lower : List α) (h : g.promise newLower = some lower) :
      Move g (.running (.wait pivot rest result newLower :: fs)) g (deliver (lower ++ result) fs)
  | notReady (g : Shared α) (pivot : α) (rest result : List α) (newLower : Nat)
      (fs : List (Frame α)) (h : g.promise newLower = none) :
      Move g (.running (.wait pivot rest result newLower :: fs)) g
        (.running (.tryPop :: .wait pivot rest result newLower :: fs))
  | popped (g : Shared α) (c : Nat) (chunks : List Nat) (fs : List (Frame α))
      (h : g.chunks = c :: chunks) :
      Move g (.running (.tryPop :: fs)) { g with chunks }
        (.running (.doSort (g.data c) :: .sortChunk c :: fs))
  | empty (g : Shared α) (fs : List (Frame α)) (h : g.chunks = []) :
      Move g (.running (.tryPop :: fs)) g (.running fs)
  | setValue (g : Shared α) (c : Nat) (value : List α) (fs : List (Frame α))
      (h : g.promise c = none) :
      Move g (.running (.setValue c value :: fs))
        { g with promise := Function.update g.promise c (some value) } (.running fs)
  | exit (g : Shared α) (fs : List (Frame α)) (h : g.endOfData = true) :
      Move g (.running (.sortThread :: fs)) { g with exited := g.exited + 1 } .exited
  | loop (g : Shared α) (fs : List (Frame α)) (h : g.endOfData = false) :
      Move g (.running (.sortThread :: fs)) g (.running (.tryPop :: .sortThread :: fs))
  | destroy (g : Shared α) (result : List α) :
      Move g (.returned result) { g with endOfData := true } (.joining result)
  | joined (g : Shared α) (result : List α) (h : g.exited = g.threads) :
      Move g (.joining result) g (.finished result)

lemma move_of_step {g g' : Shared α} {l l' : Local α}
    (h : step P lt hardwareConcurrency g l = .ok (g', l')) :
    Move P lt hardwareConcurrency g l g' l' := by
  cases l with
  | start input =>
    cases input with
    | nil => cases h; exact .startEmpty g
    | cons pivot rest => cases h; exact .start g pivot rest
  | idle =>
    rw [step] at h
    split at h <;> cases h
    exacts [.begin g ‹_›, .stay g _]
  | running fs =>
    match fs with
    | [] => cases h; exact .stay g _
    | .doSort [] :: fs => cases h; exact .sortEmpty g fs
    | .doSort (pivot :: rest) :: fs => cases h; exact .partition g pivot rest fs
    | .spawn pivot rest chunkData newLower :: fs =>
      simp only [step, Except.ok.injEq, Prod.mk.injEq] at h
      obtain ⟨rfl, rfl⟩ := h
      exact .spawn g pivot rest chunkData newLower fs
    | .higher .. :: fs => cases h; exact .stay g _
    | .wait pivot rest result newLower :: fs =>
      rw [step] at h
      split at h <;> cases h
      exacts [.ready g pivot rest result newLower fs _ ‹_›, .notReady g pivot rest result newLower fs ‹_›]
    | .tryPop :: fs =>
      cases hc : g.chunks with
      | nil => simp only [step, hc, StackOp.apply_pop_nil] at h; cases h; exact .empty g fs hc
      | cons c chunks =>
        simp only [step, hc, StackOp.apply_pop_cons] at h; cases h; exact .popped g c chunks fs hc
    | .sortChunk .. :: fs => cases h; exact .stay g _
    | .setValue c value :: fs =>
      cases hc : g.promise c with
      | none => simp only [step, Shared.setValue, hc] at h; cases h; exact .setValue g c value fs hc
      | some _ => simp [step, Shared.setValue, hc] at h
    | .sortThread :: fs =>
      rw [step] at h
      split at h <;> rename_i hd <;> cases h
      exacts [.exit g fs hd, .loop g fs (by simpa using hd)]
  | returned result => cases h; exact .destroy g result
  | joining result =>
    rw [step] at h
    split at h <;> cases h
    exacts [.joined g result ‹_›, .stay g _]
  | finished result => cases h; exact .stay g _
  | exited => cases h; exact .stay g _

lemma move_of_program_step {g g' : Shared α} {l l' : Local α} {c : Unit} {e : Option Empty}
    (h : (sorter P lt hardwareConcurrency).step g l c = .ok (g', l', e)) :
    Move P lt hardwareConcurrency g l g' l' := by
  simp only [sorter] at h
  cases hs : step P lt hardwareConcurrency g l with
  | error f => rw [hs] at h; cases h
  | ok r => rw [hs] at h; cases h; exact move_of_step P lt hardwareConcurrency hs

/-! ### The calls in progress -/

/-- The call a frame belongs to. -/
inductive Call (α : Type)
  | doSort (input : List α)
  | trySortChunk
  | sortThread

namespace Frame

/-- The call a frame belongs to: `do_sort` on its argument, `try_sort_chunk`, or
`sort_thread`. -/
def call : Frame α → Call α
  | .doSort chunkData => .doSort chunkData
  | .spawn pivot rest _ _ | .higher pivot rest _ | .wait pivot rest _ _ => .doSort (pivot :: rest)
  | .tryPop | .sortChunk _ | .setValue _ _ => .trySortChunk
  | .sortThread => .sortThread

/-- The chunk whose future a `do_sort` frame holds in `new_lower`. -/
@[simp] def future : Frame α → Option Nat
  | .spawn _ _ _ newLower | .higher _ _ newLower | .wait _ _ _ newLower => some newLower
  | _ => none

/-- The chunk a `sort_chunk` call sorts. -/
@[simp] def sorting : Frame α → Option Nat
  | .sortChunk c | .setValue c _ => some c
  | _ => none

/-- The chunks whose data a frame reads. -/
def chunks (f : Frame α) : List Nat := f.future.toList ++ f.sorting.toList

end Frame

namespace Local

/-- The frames of a running thread. -/
def frames : Local α → List (Frame α)
  | .running fs => fs
  | _ => []

/-- The chunks a thread is sorting. -/
def sorting (l : Local α) : List Nat := l.frames.filterMap Frame.sorting

/-- The chunks whose futures a thread holds. -/
def futures (l : Local α) : List Nat := l.frames.filterMap Frame.future

/-- What `parallel_quick_sort` returns, once `s.do_sort(input)` has. -/
def result : Local α → Option (List α)
  | .returned r | .joining r | .finished r => some r
  | _ => none

@[simp] lemma frames_running (fs : List (Frame α)) : (running fs).frames = fs := rfl

@[simp] lemma futures_running (fs : List (Frame α)) :
    (running fs).futures = fs.filterMap Frame.future := rfl

@[simp] lemma sorting_running (fs : List (Frame α)) :
    (running fs).sorting = fs.filterMap Frame.sorting := rfl

end Local

/-- A `do_sort` call that returns leaves its futures and chunks to the frames below it. -/
@[simp] lemma frames_deliver_filterMap {β : Type} (r : List α) (fs : List (Frame α))
    (p : Frame α → Option β) (hp : ∀ pivot rest newLower,
      p (.wait pivot rest (pivot :: r) newLower) = p (.higher pivot rest newLower))
    (hs : ∀ c, p (.setValue c r) = p (.sortChunk c)) :
    (deliver r fs).frames.filterMap p = fs.filterMap p := by
  match fs with
  | [] => rfl
  | .higher pivot rest newLower :: fs =>
    rw [deliver, Local.frames, List.filterMap_cons, List.filterMap_cons, hp]
  | .sortChunk c :: fs => rw [deliver, Local.frames, List.filterMap_cons, List.filterMap_cons, hs]
  | .doSort _ :: _ | .spawn .. :: _ | .wait .. :: _ | .tryPop :: _ | .setValue .. :: _
  | .sortThread :: _ => rfl

@[simp] lemma sorting_deliver (r : List α) (fs : List (Frame α)) :
    (deliver r fs).sorting = fs.filterMap Frame.sorting :=
  frames_deliver_filterMap r fs _ (fun _ _ _ => rfl) fun _ => rfl

@[simp] lemma futures_deliver (r : List α) (fs : List (Frame α)) :
    (deliver r fs).futures = fs.filterMap Frame.future :=
  frames_deliver_filterMap r fs _ (fun _ _ _ => rfl) fun _ => rfl

section Frames

variable (data : Nat → List α)

/-- The call a frame waits for, which returns to it. -/
def Frame.waitsFor : Frame α → Option (Call α)
  | .higher pivot rest _ => some (.doSort (P.run (fun t => lt t pivot) rest).2)
  | .sortChunk c => some (.doSort (data c))
  | .wait .. | .sortThread => some .trySortChunk
  | _ => none

/-- What a frame has computed agrees with its call's argument and with the chunks' data. -/
def Frame.Ok : Frame α → Prop
  | .spawn pivot rest chunkData newLower =>
    P.run (fun t => lt t pivot) rest = (data newLower, chunkData)
  | .higher pivot rest newLower => (P.run (fun t => lt t pivot) rest).1 = data newLower
  | .wait pivot rest result newLower => (P.run (fun t => lt t pivot) rest).1 = data newLower ∧
    result = pivot :: sequentialQuickSort P lt (P.run (fun t => lt t pivot) rest).2
  | .setValue c value => value = sequentialQuickSort P lt (data c)
  | _ => True

/-- The call at the bottom of a thread: `do_sort(input)` for the thread that called
`parallel_quick_sort(input)`, `sort_thread` for a worker. -/
def bottomCall : Option (List α) → Call α
  | some input => .doSort input
  | none => .sortThread

/-- A thread's frames, top first: each is consistent and returns to the one below it, and the
bottom one belongs to the thread's bottom call. -/
def StackOk (k : Option (List α)) : List (Frame α) → Prop
  | [] => False
  | [f] => f.Ok P lt data ∧ f.call = bottomCall k
  | f :: b :: fs => f.Ok P lt data ∧ b.waitsFor P lt data = some f.call ∧ StackOk k (b :: fs)

/-- The frames `fs` take the return of a call `c` made above them. -/
def Takes (k : Option (List α)) (fs : List (Frame α)) (c : Call α) : Prop :=
  match fs with
  | [] => c = bottomCall k
  | b :: _ => b.waitsFor P lt data = some c ∧ StackOk P lt data k fs

/-- What a thread has computed agrees with the argument of its bottom call `k`. -/
def Local.Ok (k : Option (List α)) : Local α → Prop
  | .start input => k = some input
  | .idle | .exited => k = none
  | .running fs => StackOk P lt data k fs
  | .returned r | .joining r | .finished r =>
    ∃ input, k = some input ∧ r = sequentialQuickSort P lt input

variable {P lt data} {k : Option (List α)}

lemma stackOk_cons {f : Frame α} {fs : List (Frame α)} :
    StackOk P lt data k (f :: fs) ↔ f.Ok P lt data ∧ Takes P lt data k fs f.call := by
  cases fs <;> rfl

/-- A `do_sort` call on `input` that returns the sorted `input` leaves a consistent thread. -/
lemma deliver_ok {fs : List (Frame α)} {input : List α}
    (h : Takes P lt data k fs (.doSort input)) :
    (deliver (sequentialQuickSort P lt input) fs).Ok P lt data k := by
  match fs, h with
  | [], h => exact ⟨input, by cases k <;> simp_all [Takes, bottomCall], rfl⟩
  | .higher pivot rest newLower :: fs, ⟨hw, hs⟩ =>
    obtain rfl : (P.run (fun t => lt t pivot) rest).2 = input := by
      simpa [Frame.waitsFor] using hw
    obtain ⟨hok, ht⟩ := stackOk_cons.1 hs
    exact stackOk_cons.2 ⟨⟨hok, rfl⟩, ht⟩
  | .sortChunk c :: fs, ⟨hw, hs⟩ =>
    obtain rfl : data c = input := by simpa [Frame.waitsFor] using hw
    exact stackOk_cons.2 ⟨rfl, (stackOk_cons.1 hs).2⟩
  | .doSort _ :: _, ⟨hw, _⟩ | .spawn .. :: _, ⟨hw, _⟩ | .wait .. :: _, ⟨hw, _⟩
  | .tryPop :: _, ⟨hw, _⟩ | .setValue .. :: _, ⟨hw, _⟩ | .sortThread :: _, ⟨hw, _⟩ =>
    simp [Frame.waitsFor] at hw

/-- A `try_sort_chunk` call returns to a loop. -/
lemma Takes.trySortChunk {fs : List (Frame α)} (h : Takes P lt data k fs .trySortChunk) :
    StackOk P lt data k fs := by
  match fs, k, h with
  | [], some _, h | [], none, h => cases h
  | _ :: _, _, h => exact h.2

/-- `sort_thread` is the bottom call of a worker. -/
lemma Takes.sortThread {fs : List (Frame α)} (h : Takes P lt data k fs .sortThread) :
    fs = [] ∧ k = none := by
  match fs, k, h with
  | [], none, _ => exact ⟨rfl, rfl⟩
  | [], some _, h => cases h
  | b :: _, _, ⟨hw, _⟩ => cases b <;> simp [Frame.waitsFor] at hw

lemma Frame.ok_congr {data' : Nat → List α} {f : Frame α}
    (hd : ∀ c ∈ f.chunks, data' c = data c) : f.Ok P lt data' ↔ f.Ok P lt data := by
  cases f <;> simp_all [Frame.Ok, Frame.chunks, Frame.future, Frame.sorting]

lemma Frame.waitsFor_congr {data' : Nat → List α} {f : Frame α}
    (hd : ∀ c ∈ f.chunks, data' c = data c) : f.waitsFor P lt data' = f.waitsFor P lt data := by
  cases f <;> simp_all [Frame.waitsFor, Frame.chunks, Frame.future, Frame.sorting]

/-- A thread's consistency reads only the data of the chunks its frames name. -/
lemma StackOk.congr {data' : Nat → List α} {fs : List (Frame α)}
    (hd : ∀ f ∈ fs, ∀ c ∈ f.chunks, data' c = data c) (h : StackOk P lt data k fs) :
    StackOk P lt data' k fs := by
  induction fs with
  | nil => exact h
  | cons f fs ih =>
    obtain ⟨hok, ht⟩ := stackOk_cons.1 h
    refine stackOk_cons.2 ⟨(Frame.ok_congr (hd f (List.mem_cons_self _ _))).2 hok, ?_⟩
    cases fs with
    | nil => exact ht
    | cons b fs =>
      exact ⟨(Frame.waitsFor_congr (hd b (by simp))).trans ht.1,
        ih (fun f hf => hd f (List.mem_cons_of_mem _ hf)) ht.2⟩

lemma Local.ok_congr {data' : Nat → List α} {l : Local α}
    (hd : ∀ f ∈ l.frames, ∀ c ∈ f.chunks, data' c = data c) (h : l.Ok P lt data k) :
    l.Ok P lt data' k := by
  cases l with
  | running fs => exact StackOk.congr hd h
  | _ => exact h

end Frames

lemma Local.mem_of_mem_chunks {l : Local α} {f : Frame α} (hf : f ∈ l.frames) {c : Nat}
    (hc : c ∈ f.chunks) : c ∈ l.futures ∨ c ∈ l.sorting := by
  simp only [Frame.chunks, List.mem_append, Option.mem_toList] at hc
  exact hc.imp (fun hc => List.mem_filterMap.2 ⟨f, hf, hc⟩) fun hc => List.mem_filterMap.2 ⟨f, hf, hc⟩

/-- Every future a frame holds is of a chunk pushed after each chunk that a frame below it
sorts. -/
def Ordered : List (Frame α) → Prop
  | [] => True
  | f :: fs => (∀ c ∈ f.future, ∀ c' ∈ fs.filterMap Frame.sorting, c' < c) ∧ Ordered fs

lemma ordered_deliver (r : List α) {fs : List (Frame α)} (h : Ordered fs) :
    Ordered (deliver r fs).frames := by
  match fs, h with
  | [], _ => trivial
  | .higher .. :: _, h | .sortChunk _ :: _, h | .doSort _ :: _, h | .spawn .. :: _, h
  | .wait .. :: _, h | .tryPop :: _, h | .setValue .. :: _, h | .sortThread :: _, h => exact h

variable {Tid : Type} [Fintype Tid]

/-- How many times chunk `c` is found: on the stack, in the hands of a thread sorting it, or
done, its promise set. -/
def places (s : Conf Tid (Shared α) (Local α)) (c : Nat) : Nat :=
  s.shared.chunks.count c + ∑ t, (s.thr t).sorting.count c +
    if (s.shared.promise c).isSome then 1 else 0

variable [DecidableEq Tid] (main : Tid) (input : List α)

/-- The bottom call of thread `t`: `do_sort(input)` for `main`, `sort_thread` for the
others. -/
def role (t : Tid) : Option (List α) := if t = main then some input else none

/-- The sorter's invariant, for `parallel_quick_sort(input)` called on thread `main`. -/
structure Inv (s : Conf Tid (Shared α) (Local α)) : Prop where
  /-- Every thread is consistent with its bottom call. -/
  thread : ∀ t, (s.thr t).Ok P lt s.shared.data (role main input t)
  /-- Futures are of chunks pushed. -/
  future : ∀ t, ∀ c ∈ (s.thr t).futures, c < s.shared.next
  /-- A set promise holds its chunk's data, sorted. -/
  promise : ∀ c v, s.shared.promise c = some v → v = sequentialQuickSort P lt (s.shared.data c)
  /-- Every chunk pushed is in exactly one place, and no other chunk is anywhere. -/
  placed : ∀ c, places s c = if c < s.shared.next then 1 else 0
  /-- A chunk whose promise is unset has its future held by a thread. -/
  waited : ∀ c < s.shared.next, s.shared.promise c = none → ∃ t, c ∈ (s.thr t).futures
  /-- The futures above a `sort_chunk` frame are of later chunks than the one it sorts. -/
  ordered : ∀ t, Ordered (s.thr t).frames

variable {P lt main input} {s : Conf Tid (Shared α) (Local α)}

omit [DecidableEq Tid] in
lemma count_sorting_le_sum (s : Conf Tid (Shared α) (Local α)) (t : Tid) (c : Nat) :
    (s.thr t).sorting.count c ≤ ∑ u, (s.thr u).sorting.count c :=
  Finset.single_le_sum (f := fun u => (s.thr u).sorting.count c) (fun _ _ => Nat.zero_le _)
    (Finset.mem_univ t)

/-- A chunk a thread sorts was pushed, is off the stack, and its promise is unset. -/
lemma Inv.sorting (h : Inv P lt main input s) {t : Tid} {c : Nat}
    (hc : c ∈ (s.thr t).sorting) :
    c < s.shared.next ∧ c ∉ s.shared.chunks ∧ s.shared.promise c = none := by
  have hle := count_sorting_le_sum s t c
  have hpos := List.count_pos_iff.2 hc
  have hp := h.placed c
  simp only [places] at hp
  have hlt : c < s.shared.next := by
    by_contra hn
    rw [if_neg hn] at hp
    omega
  rw [if_pos hlt] at hp
  refine ⟨hlt, fun hcs => ?_, ?_⟩
  · have := List.count_pos_iff.2 hcs
    omega
  · cases hs : s.shared.promise c
    · rfl
    · rw [hs, Option.isSome_some, if_pos rfl] at hp
      omega

/-- The chunks a thread's frames name were pushed. -/
lemma Inv.chunk_lt (h : Inv P lt main input s) {t : Tid} {f : Frame α}
    (hf : f ∈ (s.thr t).frames) {c : Nat} (hc : c ∈ f.chunks) : c < s.shared.next :=
  (Local.mem_of_mem_chunks hf hc).elim (h.future t c) fun hc => (h.sorting hc).1

/-- A step of thread `v` from `x` to `g` and `l` keeps the invariant when the data of the
chunks pushed is kept, `v` is consistent, its futures were pushed, the set promises hold sorted
data, the chunks that moved between places are those newly pushed, and a future is dropped only
once its promise is set. -/
lemma Inv.set (h : Inv P lt main input s) {v : Tid} {x : Local α} (hx : s.thr v = x)
    {g : Shared α} {l : Local α}
    (hdata : ∀ c < s.shared.next, g.data c = s.shared.data c) (hnext : s.shared.next ≤ g.next)
    (hthread : l.Ok P lt g.data (role main input v))
    (hfuture : ∀ c ∈ l.futures, c < g.next)
    (hpromise : ∀ c w, g.promise c = some w → w = sequentialQuickSort P lt (g.data c))
    (hcount : ∀ c, g.chunks.count c + l.sorting.count c + (if (g.promise c).isSome then 1 else 0)
      + (if c < s.shared.next then 1 else 0) = s.shared.chunks.count c + x.sorting.count c
      + (if (s.shared.promise c).isSome then 1 else 0) + (if c < g.next then 1 else 0))
    (hunset : ∀ c < g.next, g.promise c = none →
      (c < s.shared.next ∧ s.shared.promise c = none) ∨ c ∈ l.futures)
    (hkeep : ∀ c ∈ x.futures, g.promise c = none → c ∈ l.futures)
    (hordered : Ordered l.frames) :
    Inv P lt main input (s.set v g l) where
  thread t := by
    by_cases ht : t = v
    · subst ht; simpa using hthread
    · rw [Conf.set_thr_ne _ _ _ ht, Conf.set_shared]
      exact Local.ok_congr (fun f hf c hc => hdata c (h.chunk_lt hf hc)) (h.thread t)
  future t c hc := by
    by_cases ht : t = v
    · subst ht; exact hfuture c (by simpa using hc)
    · rw [Conf.set_thr_ne _ _ _ ht] at hc
      exact lt_of_lt_of_le (h.future t c hc) hnext
  promise := hpromise
  placed c := by
    have hsum := s.sum_set (fun l => l.sorting.count c) v g l
    have hold := h.placed c
    have hc := hcount c
    rw [hx] at hsum
    simp only [places, Conf.set_shared] at hold ⊢
    omega
  waited c hc hp := by
    rcases hunset c hc hp with ⟨hc', hp'⟩ | hl
    · obtain ⟨t, ht⟩ := h.waited c hc' hp'
      by_cases htv : t = v
      · subst htv; exact ⟨t, by simpa using hkeep c (hx ▸ ht) hp⟩
      · exact ⟨t, by rwa [Conf.set_thr_ne _ _ _ htv]⟩
    · exact ⟨v, by simpa using hl⟩
  ordered t := by
    by_cases ht : t = v
    · subst ht; simpa using hordered
    · rw [Conf.set_thr_ne _ _ _ ht]; exact h.ordered t

/-- A step that leaves the chunks, their data and their promises alone keeps the invariant
when the thread stays consistent, keeps the chunks it sorts, and drops only futures whose
promise is set. -/
lemma Inv.set_local (h : Inv P lt main input s) {v : Tid} {x : Local α} (hx : s.thr v = x)
    {g : Shared α} {l : Local α}
    (hchunks : g.chunks = s.shared.chunks) (hdata : g.data = s.shared.data)
    (hpromise : g.promise = s.shared.promise) (hnext : g.next = s.shared.next)
    (hthread : l.Ok P lt s.shared.data (role main input v))
    (hfuture : ∀ c ∈ l.futures, c ∈ x.futures)
    (hsorting : l.sorting = x.sorting)
    (hkeep : ∀ c ∈ x.futures, s.shared.promise c = none → c ∈ l.futures)
    (hordered : Ordered l.frames) :
    Inv P lt main input (s.set v g l) :=
  h.set hx (by simp [hdata]) hnext.ge (hdata ▸ hthread)
    (fun c hc => hnext ▸ h.future v c (hx ▸ hfuture c hc))
    (hdata ▸ hpromise ▸ h.promise) (fun c => by rw [hchunks, hsorting, hpromise, hnext])
    (fun c hc hp => .inl ⟨hnext ▸ hc, hpromise ▸ hp⟩) (fun c hc hp => hkeep c hc (hpromise ▸ hp))
    hordered

/-- A step that leaves the chunks alone and changes a thread's frames only above its futures
and the chunks it sorts keeps the invariant when the thread stays consistent. -/
lemma Inv.set_same (h : Inv P lt main input s) {v : Tid} {x : Local α} (hx : s.thr v = x)
    {g : Shared α} {l : Local α}
    (hchunks : g.chunks = s.shared.chunks) (hdata : g.data = s.shared.data)
    (hpromise : g.promise = s.shared.promise) (hnext : g.next = s.shared.next)
    (hthread : l.Ok P lt s.shared.data (role main input v))
    (hfutures : l.futures = x.futures) (hsorting : l.sorting = x.sorting)
    (hordered : Ordered l.frames) :
    Inv P lt main input (s.set v g l) :=
  h.set_local hx hchunks hdata hpromise hnext hthread (fun _ hc => by rwa [← hfutures]) hsorting
    (fun _ hc _ => by rwa [hfutures]) hordered

/-- Chunk `next` is nowhere yet. -/
lemma Inv.fresh (h : Inv P lt main input s) :
    s.shared.chunks.count s.shared.next = 0 ∧ s.shared.promise s.shared.next = none ∧
      ∀ t, s.shared.next ∉ (s.thr t).sorting := by
  have hp := h.placed s.shared.next
  simp only [places, Nat.lt_irrefl, if_false] at hp
  refine ⟨by omega, ?_, fun t ht => ?_⟩
  · cases hs : s.shared.promise s.shared.next
    · rfl
    · rw [hs, Option.isSome_some, if_pos rfl] at hp; omega
  · have := List.count_pos_iff.2 ht
    have := count_sorting_le_sum s t s.shared.next
    omega

/-- Every step keeps the invariant. -/
lemma Inv.step (h : Inv P lt main input s) {v : Tid} {g : Shared α} {l : Local α}
    (hm : Move P lt hardwareConcurrency s.shared (s.thr v) g l) :
    Inv P lt main input (s.set v g l) := by
  have hok := h.thread v
  have hord := h.ordered v
  generalize hx : s.thr v = x at hm hok hord
  cases hm with
  | stay => subst hx; rw [Conf.set_self]; exact h
  | startEmpty =>
    exact h.set_same hx rfl rfl rfl rfl ⟨[], hok, (sequentialQuickSort_nil P lt).symm⟩ rfl rfl
      trivial
  | start pivot rest =>
    exact h.set_same hx rfl rfl rfl rfl ⟨trivial, by rw [hok]; rfl⟩ rfl rfl ⟨nofun, trivial⟩
  | begin hlt =>
    exact h.set_same hx rfl rfl rfl rfl ⟨trivial, by rw [hok]; rfl⟩ rfl rfl ⟨nofun, trivial⟩
  | sortEmpty fs =>
    have hd := deliver_ok (stackOk_cons.1 hok).2
    rw [sequentialQuickSort_nil] at hd
    exact h.set_same hx rfl rfl rfl rfl hd (futures_deliver _ _) (sorting_deliver _ _)
      (ordered_deliver _ hord.2)
  | partition pivot rest fs =>
    obtain ⟨hc0, hp0, -⟩ := h.fresh
    have hdata : ∀ c < s.shared.next,
        (s.shared.push (P.run (fun t => lt t pivot) rest).1).data c = s.shared.data c :=
      fun c hc => Function.update_noteq (Nat.ne_of_lt hc) _ _
    have hok' := Local.ok_congr (fun f hf c hc => hdata c (h.chunk_lt (hx ▸ hf) hc)) hok
    refine h.set hx hdata (Nat.le_succ _)
      (stackOk_cons.2 ⟨by simp [Frame.Ok], (stackOk_cons.1 hok').2⟩)
      (fun c hc => ?_) (fun c w hw => ?_) (fun c => ?_) (fun c hc hp => ?_)
      (fun c hc _ => List.mem_cons_of_mem _ hc) ⟨fun c hc c' hc' => ?_, hord.2⟩
    · rcases List.mem_cons.1 hc with rfl | hc
      · exact Nat.lt_succ_self _
      · exact Nat.lt_succ_of_lt (h.future v c (hx ▸ hc))
    · have hcn : c ≠ s.shared.next := by rintro rfl; simp at hw
      rw [Shared.push_promise, Function.update_noteq hcn] at hw
      rw [Shared.push_data, Function.update_noteq hcn]
      exact h.promise c w hw
    · simp only [Shared.push_chunks, Shared.push_promise, Shared.push_next, List.count_cons,
        Local.sorting_running, List.filterMap_cons, Frame.sorting]
      by_cases hcn : c = s.shared.next
      · subst hcn
        simp [hc0, hp0, Nat.add_comm]
      · have hlt : c < s.shared.next + 1 ↔ c < s.shared.next := by omega
        simp [Function.update_noteq hcn, hlt, Ne.symm hcn]
    · by_cases hcn : c = s.shared.next
      · exact .inr (hcn ▸ List.mem_cons_self _ _)
      · refine .inl ⟨Nat.lt_of_le_of_ne (Nat.le_of_lt_succ hc) hcn, ?_⟩
        rwa [Shared.push_promise, Function.update_noteq hcn] at hp
    · obtain rfl : s.shared.next = c := Option.some.inj hc
      exact (h.sorting (t := v) (hx ▸ hc')).1
  | spawn pivot rest chunkData newLower fs =>
    obtain ⟨hc, hd, hp, hn⟩ := s.shared.spawn_chunks (maxThreadCount hardwareConcurrency)
    obtain ⟨hspawn, ht⟩ := stackOk_cons.1 hok
    simp only [Frame.Ok] at hspawn
    refine h.set_same hx hc hd hp hn (stackOk_cons.2 ⟨trivial, ?_, stackOk_cons.2 ⟨?_, ht⟩⟩)
      rfl rfl ⟨nofun, hord⟩
    · simp [Frame.waitsFor, Frame.call, hspawn]
    · simp [Frame.Ok, hspawn]
  | ready pivot rest result newLower fs lower hl =>
    obtain ⟨⟨hlow, hres⟩, ht⟩ := stackOk_cons.1 hok
    have hv : lower ++ result = sequentialQuickSort P lt (pivot :: rest) := by
      rw [sequentialQuickSort_cons, h.promise _ _ hl, ← hlow, hres]
    refine h.set_local hx rfl rfl rfl rfl (by rw [hv]; exact deliver_ok ht)
      (fun c hc => List.mem_cons_of_mem _ (by rwa [futures_deliver] at hc)) (sorting_deliver _ _)
      (fun c hc hp => ?_) (ordered_deliver _ hord.2)
    rcases List.mem_cons.1 hc with rfl | hc
    · rw [hl] at hp; cases hp
    · rwa [futures_deliver]
  | notReady pivot rest result newLower fs hl =>
    exact h.set_same hx rfl rfl rfl rfl (stackOk_cons.2 ⟨trivial, rfl, hok⟩) rfl rfl ⟨nofun, hord⟩
  | popped c chunks fs hc =>
    refine h.set hx (fun _ _ => rfl) le_rfl
      (stackOk_cons.2 ⟨trivial, rfl, stackOk_cons.2 ⟨trivial, (stackOk_cons.1 hok).2⟩⟩)
      (fun c' hc' => h.future v c' (hx ▸ hc')) h.promise (fun c' => ?_)
      (fun c' hc' hp => .inl ⟨hc', hp⟩) (fun c' hc' _ => hc') ⟨nofun, nofun, hord.2⟩
    simp only [hc, Local.sorting_running, List.filterMap_cons, Frame.sorting, List.count_cons]
    omega
  | empty fs hc =>
    exact h.set_same hx rfl rfl rfl rfl (Takes.trySortChunk (stackOk_cons.1 hok).2) rfl rfl hord.2
  | setValue c value fs hp =>
    obtain ⟨hval, ht⟩ := stackOk_cons.1 hok
    refine h.set hx (fun _ _ => rfl) le_rfl (Takes.trySortChunk ht)
      (fun c' hc' => h.future v c' (hx ▸ hc')) (fun c' w hw => ?_) (fun c' => ?_)
      (fun c' hc' hp' => .inl ⟨hc', ?_⟩) (fun c' hc' _ => hc') hord.2
    · by_cases hcc : c' = c
      · subst hcc
        simp only [Function.update_same, Option.some.injEq] at hw
        exact hw ▸ hval
      · simp only [Function.update_noteq hcc] at hw
        exact h.promise c' w hw
    · simp only [Local.sorting_running, List.filterMap_cons, Frame.sorting, List.count_cons]
      by_cases hcc : c' = c
      · subst hcc
        simp [hp]
        omega
      · simp [Function.update_noteq hcc, Ne.symm hcc]
    · by_cases hcc : c' = c
      · subst hcc; simp at hp'
      · simpa only [Function.update_noteq hcc] using hp'
  | exit fs hd =>
    obtain ⟨rfl, hk⟩ := Takes.sortThread (stackOk_cons.1 hok).2
    exact h.set_same hx rfl rfl rfl rfl hk rfl rfl trivial
  | loop fs hd =>
    exact h.set_same hx rfl rfl rfl rfl (stackOk_cons.2 ⟨trivial, rfl, hok⟩) rfl rfl ⟨nofun, hord⟩
  | destroy result => exact h.set_same hx rfl rfl rfl rfl hok rfl rfl trivial
  | joined result hj => exact h.set_same hx rfl rfl rfl rfl hok rfl rfl trivial

lemma inv_init : Inv P lt main input (init main input) where
  thread t := by
    by_cases ht : t = main
    · subst ht; simp [init, role, Local.Ok]
    · simp [init, role, ht, Local.Ok]
  future t c hc := by
    by_cases ht : t = main <;> simp [init, ht, Local.futures, Local.frames] at hc
  promise _ _ h := by cases h
  placed c := by
    simp only [places, init, List.count_nil, zero_add, Nat.not_lt_zero, if_false]
    refine (Finset.sum_eq_zero fun t _ => ?_).trans rfl
    split <;> rfl
  waited _ hc := absurd hc (Nat.not_lt_zero _)
  ordered t := by by_cases ht : t = main <;> simp [init, ht, Local.frames, Ordered]

lemma inv_reach {s : Conf Tid (Shared α) (Local α)} {h : List (Tid × Empty)}
    (hr : (sorter P lt hardwareConcurrency).Reach (init main input) s h) :
    Inv P lt main input s :=
  hr.inv _ inv_init fun _ _ _ _ _ _ hs hstep =>
    hs.step hardwareConcurrency (move_of_program_step P lt hardwareConcurrency hstep)

/-! ### What the invariant gives -/

/-- A step faults only by setting a promise that holds a value. -/
lemma step_error {g : Shared α} {l : Local α} {f : Fault}
    (h : step P lt hardwareConcurrency g l = .error f) :
    ∃ c value fs w, l = .running (.setValue c value :: fs) ∧ g.promise c = some w := by
  unfold step at h
  split at h <;> (try split at h) <;> (try cases h)
  rename_i c value fs
  unfold Shared.setValue at h
  split at h
  · exact ⟨c, value, fs, _, rfl, ‹_›⟩
  · cases h

/-- No thread ever sets a promise twice: `set_value` never throws. -/
lemma Inv.noFault (h : Inv P lt main input s) :
    (sorter P lt hardwareConcurrency).NoFault .promiseAlreadySatisfied s := by
  intro t _ hs
  have herr : Sorter.step P lt hardwareConcurrency s.shared (s.thr t) =
      .error .promiseAlreadySatisfied := by
    simp only [sorter] at hs
    cases hs' : Sorter.step P lt hardwareConcurrency s.shared (s.thr t) with
    | error f' => rw [hs'] at hs; cases hs; rfl
    | ok r => rw [hs'] at hs; cases hs
  obtain ⟨c, value, fs, w, hx, hw⟩ := step_error hardwareConcurrency herr
  have := (h.sorting (t := t) (c := c) (by simp [hx])).2.2
  rw [hw] at this
  cases this

end Sorter

end QuickSort

end ConcurrencyInAction
