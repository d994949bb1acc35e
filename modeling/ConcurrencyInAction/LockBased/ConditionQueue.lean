import ConcurrencyInAction.LockBased.Monitor
import ConcurrencyInAction.LockBased.Queue

/-!
# The `threadsafe_queue` of `operation_sharing.cpp`

A `std::queue<T>` (front first here) behind a `std::mutex mut`, with a
`std::condition_variable data_cond`, as an instance of the machine of
`LockBased/Monitor.lean`. `push` pushes and calls `data_cond.notify_one()` under the lock.
Both `wait_and_pop`s take a `std::unique_lock` and call `data_cond.wait(lk, pred)` with the
predicate `!data_queue.empty()`, then read `front()` and `pop()`; both `try_pop`s test
`empty()` and give up, or read `front()` and `pop()`.

The queue refines the atomic queue in which a `wait_and_pop` takes effect only on a non-empty
queue, and no call reads `front()` of, or pops, an empty queue. No wakeup is lost: while
threads wait on `data_cond`, the queue holds at most as many elements as there are threads
that will test the predicate again (waiters already woken, and `wait_and_pop`s holding the
mutex), so an element never stays in the queue while every consumer sleeps.

`try_pop()` (the `shared_ptr` overload) calls `make_shared(data_queue.front())` with no
template argument, which does not compile once the function is instantiated; nothing in the
file calls it, and it is modelled as `try_pop(T&)` handing back a pointer.
-/

namespace ConcurrencyInAction

open Monitor

namespace ConditionQueue

/-- The member functions of `threadsafe_queue<T>`. -/
inductive Op (T : Type)
  /-- `void push(T new_value)`. -/
  | push (newValue : T)
  /-- `void wait_and_pop(T& value)`. -/
  | waitAndPop
  /-- `std::shared_ptr<T> wait_and_pop()`. -/
  | waitAndPopPtr
  /-- `bool try_pop(T& value)`. -/
  | tryPop
  /-- `std::shared_ptr<T> try_pop()`. -/
  | tryPopPtr
  /-- `bool empty() const`. -/
  | empty
  deriving DecidableEq, Repr

/-- The locals of a pop: before its emptiness test, before `data_queue.front()`, and before
`data_queue.pop()` with the front it read. -/
inductive Local (T : Type)
  | start
  | front
  | popFront (v : T)
  deriving DecidableEq, Repr

variable {T : Type}

/-- The body of the four pops. `blocking` for `wait_and_pop`, whose test is
`data_cond.wait(lk, [this]{return !data_queue.empty();})`; `try_pop` returns `false` or a null
pointer instead. Then `data_queue.front()` and `data_queue.pop()`. -/
def popBody (blocking : Bool) : Local T → List T → Micro (List T) (Local T) (QueueRet T)
  | .start, q =>
    if q.isEmpty then (if blocking then .wait else .finish q (.popped none)) else .next .front
  | .front, v :: _ => .next (.popFront v)
  | .popFront v, _ :: rest => .finish rest (.popped (some v))
  | _, [] => .undefined

/-- The container call a member function makes next. -/
def exec : Op T → Local T → List T → Micro (List T) (Local T) (QueueRet T)
  | .push newValue, _, q => .finish (q ++ [newValue]) .pushed
  | .waitAndPop, l, q => popBody true l q
  | .waitAndPopPtr, l, q => popBody true l q
  | .tryPop, l, q => popBody false l q
  | .tryPopPtr, l, q => popBody false l q
  | .empty, _, q => .finish q (.isEmpty q.isEmpty)

/-- The member functions that wait on `data_cond`. -/
def Op.waits : Op T → Bool
  | .waitAndPop | .waitAndPopPtr => true
  | _ => false

/-- The member function that calls `data_cond.notify_one()`. -/
def Op.notifies : Op T → Bool
  | .push _ => true
  | _ => false

/-- `threadsafe_queue<T>`: every member function locks `mut` exclusively. -/
def threadsafeQueue : Methods (List T) (Op T) (Local T) (QueueRet T) where
  mode _ := .exclusive
  start _ := .start
  exec := exec
  notifies := Op.notifies

/-- A `wait_and_pop` takes effect only on a non-empty queue. -/
def Op.enabled (op : Op T) (q : List T) : Bool := !op.waits || !q.isEmpty

/-- The sequential queue. -/
def Op.apply : Op T → List T → List T × QueueRet T
  | .push v, q => (q ++ [v], .pushed)
  | .waitAndPop, q | .waitAndPopPtr, q | .tryPop, q | .tryPopPtr, q => popFront q
  | .empty, q => (q, .isEmpty q.isEmpty)

/-! ### The member functions run alone -/

/-- Where a pop running alone on `q` can be: past the emptiness test only if `q` has a front,
and holding the front it read. -/
def PopAt : Local T → List T → Prop
  | .start, _ => True
  | .front, q => q ≠ []
  | .popFront v, q => q.head? = some v

lemma popAt_next {blocking : Bool} {l l' : Local T} {q : List T}
    (h : popBody blocking l q = .next l') : PopAt l' q := by
  rcases l with _ | _ | v <;> rcases q with _ | ⟨w, rest⟩ <;> cases blocking <;>
    simp only [popBody, List.isEmpty_cons, List.isEmpty_nil, if_true, if_false,
      Bool.false_eq_true, reduceCtorEq, Micro.next.injEq] at h <;> subst h <;> simp [PopAt]

lemma popAt_of_runs {op : Op T} {q : List T} {l : Local T}
    (h : Runs threadsafeQueue op q l) : PopAt l q := by
  induction h with
  | start => trivial
  | next _ he =>
    cases op <;> simp only [threadsafeQueue, exec, reduceCtorEq] at he
    all_goals exact popAt_next he

lemma popBody_ne_undefined {blocking : Bool} {l : Local T} {q : List T} (h : PopAt l q) :
    popBody blocking l q ≠ .undefined := by
  rcases l with _ | _ | v <;> rcases q with _ | ⟨w, rest⟩ <;> cases blocking <;>
    simp_all [PopAt, popBody]

/-- A pop that waits finds the queue empty, and only a `wait_and_pop` waits. -/
lemma popBody_wait {blocking : Bool} {l : Local T} {q : List T}
    (he : popBody blocking l q = .wait) : blocking = true ∧ q = [] := by
  rcases l with _ | _ | v <;> rcases q with _ | ⟨w, rest⟩ <;> cases blocking <;>
    simp_all [popBody]

lemma popBody_finish {blocking : Bool} {l : Local T} {q d : List T} {r : QueueRet T}
    (h : PopAt l q) (he : popBody blocking l q = .finish d r) :
    (blocking = true → q ≠ []) ∧ popFront q = (d, r) := by
  rcases l with _ | _ | v <;> rcases q with _ | ⟨w, rest⟩ <;> cases blocking <;>
    simp_all [PopAt, popBody, popFront]

/-- Run alone, each member function is the sequential queue's operation, and a `wait_and_pop`
ends only on a non-empty queue. -/
lemma threadsafeQueue_implements :
    (threadsafeQueue (T := T)).Implements Op.enabled Op.apply where
  defined {op _ _} h := by
    cases op <;> simp only [threadsafeQueue, exec, ne_eq, reduceCtorEq, not_false_eq_true]
    all_goals exact popBody_ne_undefined (popAt_of_runs h)
  finish {op q _ _ _} h he := by
    cases op <;> simp only [threadsafeQueue, exec, Micro.finish.injEq] at he
    case push v => exact ⟨rfl, by rw [← he.1, ← he.2]; rfl⟩
    case empty => exact ⟨rfl, by rw [← he.1, ← he.2]; rfl⟩
    all_goals
      obtain ⟨hne, hpop⟩ := popBody_finish (popAt_of_runs h) he
      refine ⟨?_, hpop⟩
      cases q <;> simp_all [Op.enabled, Op.waits]
  shared {op _ _ _ _} hm := by cases hm

/-- A call that ends takes at most one element, exactly one if it is a `wait_and_pop`, and adds
one only if it is a `push`. -/
lemma length_apply {op : Op T} {q : List T} (he : op.enabled q = true) :
    (op.apply q).1.length + (if op.waits then 1 else 0) ≤
      q.length + (if op.notifies then 1 else 0) := by
  cases op <;> cases q <;> simp_all [Op.apply, Op.enabled, Op.waits, Op.notifies, popFront]

/-! ### No lost wakeup -/

variable {Tid : Type} [DecidableEq Tid] [Fintype Tid]

/-- One for a thread holding the mutex in a `wait_and_pop`. -/
def consumerWeight (th : Thread Tid (Op T) (Local T)) : Int :=
  match th.pc with
  | .run op _ => if op.waits then 1 else 0
  | _ => 0

/-- The threads inside `data_cond.wait` that a `notify_one` or a spurious wakeup has taken out
of the waiting set: each will take the mutex and test the predicate again. -/
def woken (s : Conf Tid (Shared (List T) Tid) (Thread Tid (Op T) (Local T))) : Int :=
  s.count waitWeight - s.shared.waiting.length

/-- The `wait_and_pop`s holding the mutex. -/
def consumers (s : Conf Tid (Shared (List T) Tid) (Thread Tid (Op T) (Local T))) : Int :=
  s.count consumerWeight

/-- Only a `wait_and_pop` waits on `data_cond`, and while a thread waits there, each element
of the queue is matched by a woken waiter or a `wait_and_pop` holding the mutex. -/
structure Served (s : Conf Tid (Shared (List T) Tid) (Thread Tid (Op T) (Local T))) : Prop where
  waits : ∀ u op, (s.thr u).pc = .wait op → op.waits = true
  served : s.shared.waiting ≠ [] → (s.shared.data.length : Int) ≤ woken s + consumers s

variable {s : Conf Tid (Shared (List T) Tid) (Thread Tid (Op T) (Local T))} {t : Tid}
  {g : Shared (List T) Tid} {th : Thread Tid (Op T) (Local T)}

omit [DecidableEq Tid] [Fintype Tid] in
lemma consumerWeight_nonneg (th : Thread Tid (Op T) (Local T)) : 0 ≤ consumerWeight th := by
  unfold consumerWeight; split <;> [split; skip] <;> omega

lemma Served.waits_set (hS : Served s) (hth : ∀ op, th.pc = .wait op → op.waits = true)
    (u : Tid) (op : Op T) (h : ((s.set t g th).thr u).pc = .wait op) : op.waits = true := by
  by_cases hu : u = t
  · subst hu; exact hth op (by simpa using h)
  · rw [Conf.set_thr_ne _ _ _ hu] at h; exact hS.waits u op h

/-- A step that keeps the contents and the waiting set, and takes no thread out of `cv.wait` or
out of a `wait_and_pop` holding the mutex without putting it in the other, keeps every element
served. -/
lemma Served.served_keep (hS : Served s) (hd : g.data = s.shared.data)
    (hw : g.waiting = s.shared.waiting)
    (hweight : waitWeight (s.thr t) + consumerWeight (s.thr t) ≤ waitWeight th + consumerWeight th)
    (hne : (s.set t g th).shared.waiting ≠ []) :
    ((s.set t g th).shared.data.length : Int) ≤ woken (s.set t g th) + consumers (s.set t g th) := by
  have := hS.served (by simpa [hw] using hne)
  unfold woken consumers at *
  rw [Conf.count_set, Conf.count_set, Conf.set_shared, hd, hw]
  omega

lemma Served.step (hI : Inv threadsafeQueue s) (hS : Served s)
    (hI' : Inv threadsafeQueue (s.set t g th)) {c : Choice (Op T) Tid}
    {e : Option (Atomic.Event (Op T) (QueueRet T))}
    (hs : step threadsafeQueue s.shared (s.thr t) c = (g, th, e)) : Served (s.set t g th) := by
  have hW := Conf.count_set s waitWeight t g th
  have hC := Conf.count_set s consumerWeight t g th
  have hS' := hS.served
  simp only [woken, consumers] at hS'
  cases move_of_step hs with
  | stay => simpa using hS
  | call op h =>
    exact ⟨hS.waits_set (by simp), hS.served_keep rfl rfl (by simp [waitWeight, consumerWeight, h])⟩
  | acquire op h =>
    refine ⟨hS.waits_set (by simp), hS.served_keep (Shared.acquire_data _ _)
      (Shared.acquire_waiting _ _) ?_⟩
    simp only [waitWeight, consumerWeight, h]
    split <;> omega
  | next op l l' h =>
    exact ⟨hS.waits_set (by simp), hS.served_keep rfl rfl (by simp [waitWeight, consumerWeight, h])⟩
  | wait op l h he =>
    have hw : op.waits = true ∧ s.shared.data = [] := by
      cases op <;> simp only [threadsafeQueue, exec, reduceCtorEq] at he
      all_goals exact (popBody_wait he).imp (by simp [Op.waits]) id
    refine ⟨hS.waits_set (by simpa using hw.1), fun _ => ?_⟩
    have hlen := hI'.length_waiting_le
    unfold woken consumers
    simp only [Conf.set_shared, Shared.release_data, hw.2, List.length_nil, Nat.cast_zero] at hlen ⊢
    exact add_nonneg (sub_nonneg.2 hlen) (Conf.count_nonneg _ consumerWeight_nonneg)
  | finish op l d r c h he =>
    refine ⟨hS.waits_set (by simp), fun hw => ?_⟩
    obtain ⟨hen, hap⟩ := threadsafeQueue_implements.finish (hI.runs t op l h) he
    have hl := length_apply hen
    rw [hap] at hl
    have hne : s.shared.waiting ≠ [] := fun h0 => hw (by
      simp only [Conf.set_shared, h0]; split <;> simp)
    have := hS' hne
    have hn := List.length_pos.2 hne
    unfold woken consumers
    rw [hW, hC]
    simp only [waitWeight, consumerWeight, h, Conf.set_shared, threadsafeQueue]
    cases hwt : op.waits <;> simp only [hwt, if_true, if_false, Bool.false_eq_true] at hl ⊢ <;>
      split <;> rename_i hno <;>
      simp only [hno, if_true, if_false, Bool.false_eq_true, length_notifyOne] at hl ⊢ <;> omega
  | spurious op h =>
    refine ⟨hS.waits_set (hS.waits t op h ▸ fun _ h' => by rw [h] at h'; cases h'; rfl),
      fun hw => ?_⟩
    have := hS' fun h0 => hw (by simp [h0])
    have hle := (List.erase_sublist (s.thr t).self s.shared.waiting).length_le
    unfold woken consumers
    rw [hW, hC]
    simp only [Conf.set_shared]
    omega
  | wake op h =>
    exact ⟨hS.waits_set (by simp), hS.served_keep (Shared.acquire_data _ _)
      (Shared.acquire_waiting _ _) (by simp [waitWeight, consumerWeight, h, hS.waits t op h])⟩

omit [DecidableEq Tid] in
lemma served_init (d : List T) :
    Served (init d : Conf Tid (Shared (List T) Tid) (Thread Tid (Op T) (Local T))) :=
  ⟨fun _ _ h => (by cases h), fun h => absurd rfl h⟩

lemma served_reach {d : List T} {h : List (Tid × Atomic.Event (Op T) (QueueRet T))}
    (hr : (monitor threadsafeQueue).Reach (init d) s h) :
    Inv threadsafeQueue s ∧ Served s :=
  hr.inv (fun s => Inv threadsafeQueue s ∧ Served s) ⟨inv_init d, served_init d⟩
    fun _ _ _ _ _ _ hIS hs =>
      have hI' := hIS.1.step threadsafeQueue_implements (Except.ok.inj hs)
      ⟨hI', hIS.2.step hIS.1 hI' (Except.ok.inj hs)⟩

/-- No lost wakeup: in every run, while some thread waits on `data_cond`, the queue holds at
most as many elements as there are threads that will test the predicate again: waiters a
`notify_one` or a spurious wakeup has woken, and `wait_and_pop`s holding the mutex. -/
theorem threadsafeQueue_no_lost_wakeup {d : List T}
    {h : List (Tid × Atomic.Event (Op T) (QueueRet T))}
    (hr : (monitor threadsafeQueue).Reach (init d) s h) (hw : s.shared.waiting ≠ []) :
    (s.shared.data.length : Int) ≤ woken s + consumers s :=
  (served_reach hr).2.served hw

/-- Two `wait_and_pop`s wait on an empty queue, and a `push(10)` wakes the first: one element,
one woken waiter, and the second still waiting. -/
theorem threadsafeQueue_no_lost_wakeup_push :
    ∃ s h, (monitor (threadsafeQueue (T := Nat))).Reach (init [] : Conf (Fin 3) _ _) s h ∧
      s.shared.waiting = [2] ∧ s.shared.data = [10] ∧
      (s.shared.data.length : Int) ≤ woken s + consumers s := by
  have key : (match (monitor (threadsafeQueue (T := Nat))).run (init [] : Conf (Fin 3) _ _)
      [(1, .call .waitAndPop), (1, .go), (1, .go), (2, .call .waitAndPop), (2, .go), (2, .go),
        (0, .call (.push 10)), (0, .go), (0, .notify 1)] with
    | .ok (s, _) => decide (s.shared.waiting = [2] ∧ s.shared.data = [10])
    | .error _ => false) = true := by decide
  split at key
  · have hr := Program.reach_of_run ‹_›
    obtain ⟨hw, hd⟩ := of_decide_eq_true key
    exact ⟨_, _, hr, hw, hd, threadsafeQueue_no_lost_wakeup hr (by simp [hw])⟩
  · cases key

/-- Every history of the queue, from any contents, is one of the atomic queue in which a
`wait_and_pop` takes effect only on a non-empty queue, and no call reads `front()` of, or
pops, an empty `std::queue`. -/
theorem conditionQueue_linearizable {d : List T}
    {h : List (Tid × Atomic.Event (Op T) (QueueRet T))}
    (hr : (monitor threadsafeQueue).Reach (init d) s h) :
    (∃ a, (Atomic.blockingObject Op.enabled Op.apply).Reach (Monitor.atomicInit Tid d) a h ∧
      a.shared = s.shared.data ∧ ∀ t, a.thr t = absPc (s.thr t).pc) ∧
    ∀ t op l, (s.thr t).pc = .run op l → exec op l s.shared.data ≠ .undefined :=
  ⟨monitor_refines threadsafeQueue_implements hr, fun t op l h =>
    threadsafeQueue_implements.defined ((inv_reach threadsafeQueue_implements hr).runs t op l h)⟩

/-- Two `wait_and_pop`s wait on an empty queue and a `push(10)` wakes the first, which takes
the mutex, finds the queue non-empty and pops 10. -/
theorem conditionQueue_linearizable_push :
    ∃ s h, (monitor (threadsafeQueue (T := Nat))).Reach (init []) s h ∧
      h = [(1, .call .waitAndPop), (2, .call .waitAndPop), (0, .call (.push 10)),
        (0, .ret .pushed), (1, .ret (.popped (some 10)))] ∧
      ((∃ a, (Atomic.blockingObject Op.enabled Op.apply).Reach (Monitor.atomicInit (Fin 3) []) a h ∧
        a.shared = s.shared.data ∧ ∀ t, a.thr t = absPc (s.thr t).pc) ∧
      ∀ t op l, (s.thr t).pc = .run op l → exec op l s.shared.data ≠ .undefined) := by
  have key : (match (monitor (threadsafeQueue (T := Nat))).run (init [] : Conf (Fin 3) _ _)
      [(1, .call .waitAndPop), (1, .go), (1, .go), (2, .call .waitAndPop), (2, .go), (2, .go),
        (0, .call (.push 10)), (0, .go), (0, .notify 1), (1, .go), (1, .go), (1, .go),
        (1, .go)] with
    | .ok (_, h) => decide (h = [(1, .call .waitAndPop), (2, .call .waitAndPop),
        (0, .call (.push 10)), (0, .ret .pushed), (1, .ret (.popped (some 10)))])
    | .error _ => false) = true := by decide
  split at key
  · have hr := Program.reach_of_run ‹_›
    exact ⟨_, _, hr, of_decide_eq_true key, conditionQueue_linearizable hr⟩
  · cases key

end ConditionQueue

end ConcurrencyInAction
