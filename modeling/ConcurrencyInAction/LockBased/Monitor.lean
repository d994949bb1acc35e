import ConcurrencyInAction.Atomic
import Mathlib.Algebra.Ring.Int.Defs

/-!
# Objects behind one mutex

`threadsafe_stack` and `dns_cache` of `data_sharing.cpp` and the `threadsafe_queue` of
`operation_sharing.cpp` keep a standard container behind one mutex, which each member function
holds while it makes its calls on the container; the queue's `wait_and_pop` waits on a
condition variable that `push` notifies. This module is the machine they share: a member
function is its container calls, one step each (`Methods.exec`), and the machine adds the
`shared_mutex` (`locked`, `readers`), `cv.wait` with its spurious wakeups, and the release of
the lock in the step of the last call.

In every run a holder of the mutex has made its calls on the contents the container still has
(`Runs`), so each call takes effect at its last container call and the object refines the
atomic object of its sequential specification (`monitor_refines`).
-/

namespace ConcurrencyInAction

namespace Atomic

variable {S Op R : Type}

/-- The atomic object of a sequential specification whose calls may block: a call takes effect,
in one step, in a state where `enabled` lets it, and waits in any other. -/
def blockingObject (enabled : Op → S → Bool) (apply : Op → S → S × R) :
    Program S (Thread Op R) (Choice Op) (Event Op R) where
  step s
    | .idle, .call op => .ok (s, .pending op, some (.call op))
    | .idle, .go => .ok (s, .idle, none)
    | .pending op, _ =>
      if enabled op s then .ok ((apply op s).1, .done (apply op s).2, none)
      else .ok (s, .pending op, none)
    | .done r, _ => .ok (s, .idle, some (.ret r))

/-- With no call ever blocked, it is the atomic object. -/
lemma blockingObject_true (apply : Op → S → S × R) :
    blockingObject (fun _ _ => true) apply = object apply := by
  unfold blockingObject object
  congr 1

variable {Tid : Type} [DecidableEq Tid] {enabled : Op → S → Bool} {apply : Op → S → S × R}

lemma blocking_reach_call (a : Conf Tid S (Thread Op R)) (t : Tid) (op : Op)
    (h : a.thr t = .idle) :
    (blockingObject enabled apply).Reach a (a.set t a.shared (.pending op)) [(t, .call op)] := by
  simpa using Program.Reach.single (P := blockingObject enabled apply) (s := a) (t := t)
    (c := .call op) (g := a.shared) (l := .pending op) (e := some (.call op))
    (by simp [blockingObject, h])

/-- A call that is enabled takes effect and returns. -/
lemma blocking_reach_lin_ret (a : Conf Tid S (Thread Op R)) (t : Tid) (op : Op)
    (h : a.thr t = .pending op) (he : enabled op a.shared = true) :
    (blockingObject enabled apply).Reach a (a.set t (apply op a.shared).1 .idle)
      [(t, .ret (apply op a.shared).2)] := by
  have h₁ := Program.Reach.single (P := blockingObject enabled apply) (s := a) (t := t) (c := .go)
    (g := (apply op a.shared).1) (l := .done (apply op a.shared).2) (e := none)
    (by simp [blockingObject, h, he])
  have h₂ := Program.Reach.single (P := blockingObject enabled apply)
    (s := a.set t (apply op a.shared).1 (.done (apply op a.shared).2)) (t := t) (c := .go)
    (g := (apply op a.shared).1) (l := .idle) (e := some (.ret (apply op a.shared).2))
    (by simp [blockingObject])
  simpa using h₁.trans h₂

end Atomic

namespace Monitor

/-- How a member function holds the mutex. -/
inductive Mode
  | shared
  | exclusive
  deriving DecidableEq, Repr

/-- What a member function's next container call does, on contents `S`, with the function's
locals `L`, for a function returning `R`. -/
inductive Micro (S L R : Type)
  /-- A call that only reads; the function goes on with locals `l`. -/
  | next (l : L)
  /-- `cv.wait(lk, pred)` with the predicate false. -/
  | wait
  /-- The function's last call: the contents become `s` and the function returns `r`. -/
  | finish (s : S) (r : R)
  /-- A call whose precondition fails, such as `top()` of an empty `std::stack`: undefined
  behaviour. The thread goes no further. -/
  | undefined
  deriving DecidableEq, Repr

/-- A class's member functions: the mode each locks the mutex in, its locals when it starts,
its container calls, and whether it calls `notify_one` before it returns. -/
structure Methods (S Op L R : Type) where
  mode : Op → Mode
  start : Op → L
  exec : Op → L → S → Micro S L R
  notifies : Op → Bool

/-- Where a thread is. -/
inductive Pc (Op L : Type)
  | idle
  /-- Constructing the lock: waiting for the mutex. -/
  | lock (op : Op)
  /-- Holding the mutex, with locals `l`. -/
  | run (op : Op) (l : L)
  /-- Inside `cv.wait`, the mutex released. -/
  | wait (op : Op)
  deriving DecidableEq, Repr

/-- A thread: its id (`std::this_thread::get_id()`, which `cv.wait` files it under) and where
it is. -/
structure Thread (Tid Op L : Type) where
  self : Tid
  pc : Pc Op L
  deriving DecidableEq, Repr

/-- The object: the container, the mutex (`locked` by an exclusive owner, held by `readers`
shared owners) and the condition variable's threads not yet woken. -/
structure Shared (S Tid : Type) where
  data : S
  locked : Bool
  readers : Nat
  waiting : List Tid

/-- Scheduler choices: call a member function, let a step happen, the thread a `notify_one`
wakes, or a spurious wakeup. -/
inductive Choice (Op Tid : Type)
  | call (op : Op)
  | go
  | notify (u : Tid)
  | spurious
  deriving DecidableEq, Repr

variable {S Op L R Tid : Type}

namespace Shared

/-- The mutex can be locked in mode `m`. -/
def free (g : Shared S Tid) : Mode → Bool
  | .exclusive => !g.locked && g.readers == 0
  | .shared => !g.locked

/-- `lock()` or `lock_shared()`. -/
def acquire (g : Shared S Tid) : Mode → Shared S Tid
  | .exclusive => { g with locked := true }
  | .shared => { g with readers := g.readers + 1 }

/-- `unlock()` or `unlock_shared()`. -/
def release (g : Shared S Tid) : Mode → Shared S Tid
  | .exclusive => { g with locked := false }
  | .shared => { g with readers := g.readers - 1 }

@[simp] lemma acquire_data (g : Shared S Tid) (m : Mode) : (g.acquire m).data = g.data := by
  cases m <;> rfl

@[simp] lemma acquire_waiting (g : Shared S Tid) (m : Mode) :
    (g.acquire m).waiting = g.waiting := by
  cases m <;> rfl

@[simp] lemma release_data (g : Shared S Tid) (m : Mode) : (g.release m).data = g.data := by
  cases m <;> rfl

@[simp] lemma release_waiting (g : Shared S Tid) (m : Mode) :
    (g.release m).waiting = g.waiting := by
  cases m <;> rfl

end Shared

variable [DecidableEq Tid]

/-- `notify_one`: the waiting thread the scheduler names, or the first one if it names none. -/
def notifyOne (ws : List Tid) : Choice Op Tid → List Tid
  | .notify u => if u ∈ ws then ws.erase u else ws.tail
  | _ => ws.tail

@[simp] lemma notifyOne_nil (c : Choice Op Tid) : notifyOne [] c = [] := by
  unfold notifyOne; split <;> simp

lemma notifyOne_sublist (ws : List Tid) (c : Choice Op Tid) : (notifyOne ws c).Sublist ws := by
  unfold notifyOne
  split
  · split
    · exact List.erase_sublist _ _
    · exact List.tail_sublist _
  · exact List.tail_sublist _

/-- `notify_one` wakes exactly one thread if one waits. -/
lemma length_notifyOne (ws : List Tid) (c : Choice Op Tid) :
    (notifyOne ws c).length = ws.length - 1 := by
  unfold notifyOne
  split
  · split
    · exact List.length_erase_of_mem ‹_›
    · exact List.length_tail _
  · exact List.length_tail _

/-- One step of a thread. -/
def step (M : Methods S Op L R) (g : Shared S Tid) (th : Thread Tid Op L) (c : Choice Op Tid) :
    Shared S Tid × Thread Tid Op L × Option (Atomic.Event Op R) :=
  match th.pc, c with
  | .idle, .call op => (g, { th with pc := .lock op }, some (.call op))
  | .idle, _ => (g, th, none)
  | .lock op, _ =>
    if g.free (M.mode op) then (g.acquire (M.mode op), { th with pc := .run op (M.start op) }, none)
    else (g, th, none)
  | .run op l, c =>
    match M.exec op l g.data with
    | .next l' => (g, { th with pc := .run op l' }, none)
    | .wait =>
      ({ g.release (M.mode op) with waiting := g.waiting ++ [th.self] }, { th with pc := .wait op },
        none)
    | .finish d r =>
      ({ g.release (M.mode op) with
          data := d, waiting := if M.notifies op then notifyOne g.waiting c else g.waiting },
        { th with pc := .idle }, some (.ret r))
    | .undefined => (g, th, none)
  | .wait _, .spurious => ({ g with waiting := g.waiting.erase th.self }, th, none)
  | .wait op, _ =>
    if th.self ∉ g.waiting ∧ g.free (M.mode op) then
      (g.acquire (M.mode op), { th with pc := .run op (M.start op) }, none)
    else (g, th, none)

/-- The object as a program. -/
def monitor (M : Methods S Op L R) :
    Program (Shared S Tid) (Thread Tid Op L) (Choice Op Tid) (Atomic.Event Op R) :=
  ⟨fun g th c => .ok (step M g th c)⟩

/-- The object constructed with contents `d`: the mutex free, no thread waiting, every thread
idle. -/
def init (d : S) : Conf Tid (Shared S Tid) (Thread Tid Op L) :=
  ⟨⟨d, false, 0, []⟩, fun t => ⟨t, .idle⟩⟩

/-! ### What a step can do -/

/-- The transitions of a thread, one constructor per branch of `step`. -/
inductive Move (M : Methods S Op L R) : Shared S Tid → Thread Tid Op L → Shared S Tid →
    Thread Tid Op L → Option (Atomic.Event Op R) → Prop
  | stay (g : Shared S Tid) (th : Thread Tid Op L) : Move M g th g th none
  | call (g : Shared S Tid) (th : Thread Tid Op L) (op : Op) (h : th.pc = .idle) :
      Move M g th g { th with pc := .lock op } (some (.call op))
  | acquire (g : Shared S Tid) (th : Thread Tid Op L) (op : Op) (h : th.pc = .lock op)
      (hf : g.free (M.mode op) = true) :
      Move M g th (g.acquire (M.mode op)) { th with pc := .run op (M.start op) } none
  | next (g : Shared S Tid) (th : Thread Tid Op L) (op : Op) (l l' : L) (h : th.pc = .run op l)
      (he : M.exec op l g.data = .next l') : Move M g th g { th with pc := .run op l' } none
  | wait (g : Shared S Tid) (th : Thread Tid Op L) (op : Op) (l : L) (h : th.pc = .run op l)
      (he : M.exec op l g.data = .wait) :
      Move M g th { g.release (M.mode op) with waiting := g.waiting ++ [th.self] }
        { th with pc := .wait op } none
  | finish (g : Shared S Tid) (th : Thread Tid Op L) (op : Op) (l : L) (d : S) (r : R)
      (c : Choice Op Tid) (h : th.pc = .run op l) (he : M.exec op l g.data = .finish d r) :
      Move M g th { g.release (M.mode op) with
          data := d, waiting := if M.notifies op then notifyOne g.waiting c else g.waiting }
        { th with pc := .idle } (some (.ret r))
  | spurious (g : Shared S Tid) (th : Thread Tid Op L) (op : Op) (h : th.pc = .wait op) :
      Move M g th { g with waiting := g.waiting.erase th.self } th none
  | wake (g : Shared S Tid) (th : Thread Tid Op L) (op : Op) (h : th.pc = .wait op)
      (hn : th.self ∉ g.waiting) (hf : g.free (M.mode op) = true) :
      Move M g th (g.acquire (M.mode op)) { th with pc := .run op (M.start op) } none

lemma move_of_step {M : Methods S Op L R} {g g' : Shared S Tid} {th th' : Thread Tid Op L}
    {c : Choice Op Tid} {e : Option (Atomic.Event Op R)} (h : step M g th c = (g', th', e)) :
    Move M g th g' th' e := by
  obtain ⟨self, pc⟩ := th
  cases pc with
  | idle => cases c <;> cases h <;> first | exact .call _ _ _ rfl | exact .stay _ _
  | lock op =>
    dsimp only [step] at h
    split at h <;> cases h
    exacts [.acquire _ _ op rfl ‹_›, .stay _ _]
  | run op l =>
    dsimp only [step] at h
    split at h <;> cases h
    exacts [.next _ _ op l _ rfl ‹_›, .wait _ _ op l rfl ‹_›, .finish _ _ op l _ _ c rfl ‹_›,
      .stay _ _]
  | wait op =>
    cases c
    case spurious => cases h; exact .spurious _ _ op rfl
    all_goals
      dsimp only [step] at h
      split at h
      · rename_i hc; cases h; exact .wake _ _ op rfl hc.1 hc.2
      · cases h; exact .stay _ _

/-! ### The specification of a class -/

/-- The locals a member function `op` reaches from its start, running alone on the contents
`s`: every container call it made read `s`. -/
inductive Runs (M : Methods S Op L R) (op : Op) (s : S) : L → Prop
  | start : Runs M op s (M.start op)
  | next {l l' : L} : Runs M op s l → M.exec op l s = .next l' → Runs M op s l'

/-- The member functions implement the sequential specification `apply`, whose calls may block
where `enabled` is false. Run alone from contents `s`, a function makes no undefined container
call, ends only where `enabled` lets it, with the contents and the value `apply` gives, and
changes nothing if it holds the mutex shared. -/
structure Methods.Implements (M : Methods S Op L R) (enabled : Op → S → Bool)
    (apply : Op → S → S × R) : Prop where
  defined : ∀ {op s l}, Runs M op s l → M.exec op l s ≠ .undefined
  finish : ∀ {op s l d r}, Runs M op s l → M.exec op l s = .finish d r →
    enabled op s = true ∧ apply op s = (d, r)
  shared : ∀ {op s l d r}, M.mode op = .shared → Runs M op s l → M.exec op l s = .finish d r →
    d = s

/-! ### The invariant -/

/-- The mode a thread holds the mutex in, if it holds it. -/
def Pc.holding (mode : Op → Mode) : Pc Op L → Option Mode
  | .run op _ => some (mode op)
  | _ => none

/-- One for a thread that holds the mutex shared. -/
def sharedWeight (mode : Op → Mode) (th : Thread Tid Op L) : Int :=
  if th.pc.holding mode = some .shared then 1 else 0

/-- One for a thread inside `cv.wait`. -/
def waitWeight (th : Thread Tid Op L) : Int :=
  match th.pc with
  | .wait _ => 1
  | _ => 0

variable [Fintype Tid]

/-- The mutex's state says who holds it: it is `locked` exactly when a thread owns it
exclusively, an exclusive owner holds it alone, and `readers` counts the shared owners. -/
structure LockOk (mode : Op → Mode) (s : Conf Tid (Shared S Tid) (Thread Tid Op L)) : Prop where
  locked : s.shared.locked = true ↔ ∃ t, (s.thr t).pc.holding mode = some .exclusive
  alone : ∀ t u, (s.thr t).pc.holding mode = some .exclusive → (s.thr u).pc.holding mode ≠ none →
    u = t
  readers : (s.shared.readers : Int) = s.count (sharedWeight mode)

section Lock

variable {mode : Op → Mode} {s : Conf Tid (Shared S Tid) (Thread Tid Op L)} {t : Tid}
  {g : Shared S Tid} {th : Thread Tid Op L}

omit [DecidableEq Tid] [Fintype Tid] in
lemma sharedWeight_nonneg (th : Thread Tid Op L) : 0 ≤ sharedWeight mode th := by
  unfold sharedWeight; split <;> omega

omit [DecidableEq Tid] in
/-- A free mutex is held by no thread. -/
lemma LockOk.holding_eq_none (hL : LockOk mode s) (hf : s.shared.free .exclusive = true)
    (u : Tid) : (s.thr u).pc.holding mode = none := by
  simp only [Shared.free, Bool.and_eq_true, Bool.not_eq_true', beq_iff_eq] at hf
  have hw := s.count_eq_zero sharedWeight_nonneg (by rw [← hL.readers, hf.2]; rfl) u
  have hx : ¬ (s.thr u).pc.holding mode = some .exclusive := fun hx =>
    absurd (hL.locked.2 ⟨u, hx⟩) (by simp [hf.1])
  unfold sharedWeight at hw
  revert hx hw
  rcases (s.thr u).pc.holding mode with _ | _ | _ <;> simp

omit [DecidableEq Tid] in
lemma LockOk.not_exclusive (hL : LockOk mode s) (hf : s.shared.locked = false) (u : Tid) :
    (s.thr u).pc.holding mode ≠ some .exclusive := fun hx =>
  absurd (hL.locked.2 ⟨u, hx⟩) (by simp [hf])

/-- A step that leaves the mutex's state and what each thread holds as they were. -/
lemma LockOk.set_keep (hL : LockOk mode s) (hl : g.locked = s.shared.locked)
    (hr : g.readers = s.shared.readers)
    (hth : th.pc.holding mode = (s.thr t).pc.holding mode) : LockOk mode (s.set t g th) := by
  have hu : ∀ u, ((s.set t g th).thr u).pc.holding mode = (s.thr u).pc.holding mode := fun u => by
    by_cases h : u = t
    · subst h; simpa using hth
    · rw [Conf.set_thr_ne _ _ _ h]
  refine ⟨?_, fun t' u => ?_, ?_⟩
  · simp only [Conf.set_shared, hl, hu, hL.locked]
  · rw [hu, hu]; exact hL.alone t' u
  · rw [Conf.count_set, Conf.set_shared, hr, hL.readers]
    simp only [sharedWeight, hth]
    omega

/-- `lock()` or `lock_shared()` on a free mutex. -/
lemma LockOk.set_acquire (hL : LockOk mode s) {m : Mode} (hf : s.shared.free m = true)
    (ht : (s.thr t).pc.holding mode = none) (hl : g.locked = (s.shared.acquire m).locked)
    (hr : g.readers = (s.shared.acquire m).readers) (hth : th.pc.holding mode = some m) :
    LockOk mode (s.set t g th) := by
  have hcount := Conf.count_set s (sharedWeight mode) t g th
  simp [sharedWeight, ht, hth] at hcount
  have hu : ∀ u, u ≠ t → ((s.set t g th).thr u).pc.holding mode = (s.thr u).pc.holding mode :=
    fun u h => by rw [Conf.set_thr_ne _ _ _ h]
  cases m with
  | exclusive =>
    have hnone := hL.holding_eq_none hf
    simp only [Shared.free, Bool.and_eq_true, Bool.not_eq_true', beq_iff_eq] at hf
    refine ⟨by simp [hl, Shared.acquire]; exact ⟨t, by simpa using hth⟩, fun t' u h₁ h₂ => ?_, ?_⟩
    · have key : ∀ v, ((s.set t g th).thr v).pc.holding mode ≠ none → v = t := fun v hv => by
        by_contra hvt
        exact hv (by rw [hu v hvt, hnone])
      rw [key u h₂, key t' (by simp [h₁])]
    · rw [hcount, Conf.set_shared, hr, ← hL.readers]; simp [Shared.acquire]
  | shared =>
    simp only [Shared.free, Bool.not_eq_true'] at hf
    refine ⟨?_, fun t' u h₁ _ => ?_, ?_⟩
    · simp only [Conf.set_shared, hl, Shared.acquire, hf, Bool.false_eq_true, false_iff, not_exists]
      intro u hx
      by_cases h : u = t
      · subst h; simp [hth] at hx
      · exact hL.not_exclusive hf u (by rwa [hu u h] at hx)
    · by_cases h : t' = t
      · subst h; simp [hth] at h₁
      · exact absurd (by rwa [hu t' h] at h₁) (hL.not_exclusive hf t')
    · rw [hcount, Conf.set_shared, hr, ← hL.readers]; simp [Shared.acquire]

/-- `unlock()` or `unlock_shared()` by an owner. -/
lemma LockOk.set_release (hL : LockOk mode s) {m : Mode} (ht : (s.thr t).pc.holding mode = some m)
    (hl : g.locked = (s.shared.release m).locked) (hr : g.readers = (s.shared.release m).readers)
    (hth : th.pc.holding mode = none) : LockOk mode (s.set t g th) := by
  have hcount := Conf.count_set s (sharedWeight mode) t g th
  simp [sharedWeight, ht, hth] at hcount
  have hu : ∀ u, u ≠ t → ((s.set t g th).thr u).pc.holding mode = (s.thr u).pc.holding mode :=
    fun u h => by rw [Conf.set_thr_ne _ _ _ h]
  cases m with
  | exclusive =>
    have hx : ∀ u, ((s.set t g th).thr u).pc.holding mode = none := fun u => by
      by_cases h : u = t
      · subst h; simpa using hth
      · rw [hu u h]
        by_contra hne
        exact h (hL.alone t u ht hne)
    refine ⟨by simp [hl, Shared.release, hx], fun t' _ h₁ => absurd h₁ (by simp [hx]), ?_⟩
    rw [hcount, Conf.set_shared, hr, ← hL.readers]; simp [Shared.release]
  | shared =>
    have hlf : s.shared.locked = false := by
      by_contra hne
      obtain ⟨u, hux⟩ := hL.locked.1 (by simpa using hne)
      have := hL.alone u t hux (by simp [ht])
      subst this
      simp [ht] at hux
    have hx : ∀ u, ((s.set t g th).thr u).pc.holding mode ≠ some .exclusive := fun u => by
      by_cases h : u = t
      · subst h; simp [hth]
      · rw [hu u h]; exact hL.not_exclusive hlf u
    have hpos : 1 ≤ (s.shared.readers : Int) := by
      rw [hL.readers]
      calc (1 : Int) = sharedWeight mode (s.thr t) := (if_pos ht).symm
        _ ≤ s.count (sharedWeight mode) :=
          Finset.single_le_sum (f := fun u => sharedWeight mode (s.thr u))
            (fun u _ => sharedWeight_nonneg _) (Finset.mem_univ t)
    refine ⟨by simp [hl, Shared.release, hlf, hx], fun t' _ h₁ => absurd h₁ (hx t'), ?_⟩
    have hrd : (s.shared.release .shared).readers = s.shared.readers - 1 := rfl
    rw [hcount, Conf.set_shared, hr, ← hL.readers, if_pos rfl]
    omega

end Lock

variable (M : Methods S Op L R)

/-- What every reachable configuration satisfies: threads know their ids, the mutex's state
says who holds it, the threads in `waiting` are inside `cv.wait`, and a thread holding the
mutex has made its container calls on the present contents. -/
structure Inv (s : Conf Tid (Shared S Tid) (Thread Tid Op L)) : Prop where
  self : ∀ t, (s.thr t).self = t
  lock : LockOk M.mode s
  waiting : ∀ u ∈ s.shared.waiting, ∃ op, (s.thr u).pc = .wait op
  nodup : s.shared.waiting.Nodup
  runs : ∀ t op l, (s.thr t).pc = .run op l → Runs M op s.shared.data l

variable {M} {s : Conf Tid (Shared S Tid) (Thread Tid Op L)} {t : Tid}

omit [DecidableEq Tid] in
lemma Inv.not_mem_waiting (hI : Inv M s) (h : ∀ op, (s.thr t).pc ≠ .wait op) :
    t ∉ s.shared.waiting := fun ht => by
  obtain ⟨op, hw⟩ := hI.waiting t ht
  exact h op hw

lemma Inv.self_set (hI : Inv M s) {g : Shared S Tid} {th : Thread Tid Op L}
    (h : th.self = (s.thr t).self) (u : Tid) : ((s.set t g th).thr u).self = u := by
  by_cases hu : u = t
  · subst hu; simpa [h] using hI.self u
  · rw [Conf.set_thr_ne _ _ _ hu]; exact hI.self u

/-- A step that moves `t` out of `cv.wait` and out of the mutex, or into them, keeps the other
threads' places. -/
lemma Inv.waiting_set (hI : Inv M s) {g : Shared S Tid} {th : Thread Tid Op L}
    (hw : ∀ u ∈ g.waiting, u ∈ s.shared.waiting ∧ u ≠ t ∨ u = t ∧ ∃ op, th.pc = .wait op)
    (u : Tid) (hu : u ∈ g.waiting) : ∃ op, ((s.set t g th).thr u).pc = .wait op := by
  rcases hw u hu with ⟨hu, hne⟩ | ⟨rfl, hth⟩
  · rw [Conf.set_thr_ne _ _ _ hne]; exact hI.waiting u hu
  · simpa using hth

/-- The other threads keep their locals, and see the same contents. -/
lemma Inv.runs_set (hI : Inv M s) {g : Shared S Tid} {th : Thread Tid Op L}
    (hd : ∀ u op l, u ≠ t → (s.thr u).pc = .run op l → g.data = s.shared.data)
    (hth : ∀ op l, th.pc = .run op l → Runs M op g.data l) (u : Tid) (op : Op) (l : L)
    (h : ((s.set t g th).thr u).pc = .run op l) : Runs M op (s.set t g th).shared.data l := by
  by_cases hu : u = t
  · subst hu; exact hth op l (by simpa using h)
  · rw [Conf.set_thr_ne _ _ _ hu] at h
    rw [Conf.set_shared, hd u op l hu h]
    exact hI.runs u op l h

lemma Inv.step {enabled : Op → S → Bool} {apply : Op → S → S × R}
    (hM : M.Implements enabled apply) (hI : Inv M s) {c : Choice Op Tid} {g : Shared S Tid}
    {th : Thread Tid Op L} {e : Option (Atomic.Event Op R)}
    (hs : step M s.shared (s.thr t) c = (g, th, e)) : Inv M (s.set t g th) := by
  cases move_of_step hs with
  | stay => simpa using hI
  | call op h =>
    have ht := hI.not_mem_waiting (t := t) (by simp [h])
    refine ⟨hI.self_set rfl, hI.lock.set_keep rfl rfl (by simp [h, Pc.holding]),
      hI.waiting_set fun u hu => .inl ⟨hu, fun h => ht (h ▸ hu)⟩, hI.nodup,
      hI.runs_set (fun _ _ _ _ _ => rfl) (by simp)⟩
  | acquire op h hf =>
    have ht := hI.not_mem_waiting (t := t) (by simp [h])
    refine ⟨hI.self_set rfl, hI.lock.set_acquire hf (by simp [h, Pc.holding]) rfl rfl rfl,
      hI.waiting_set fun u hu => .inl ⟨by simpa using hu, fun h => ht (h ▸ by simpa using hu)⟩,
      by simpa using hI.nodup,
      hI.runs_set (fun _ _ _ _ _ => by simp) (by simp; exact .start)⟩
  | next op l l' h he =>
    have ht := hI.not_mem_waiting (t := t) (by simp [h])
    refine ⟨hI.self_set rfl, hI.lock.set_keep rfl rfl (by simp [h, Pc.holding]),
      hI.waiting_set fun u hu => .inl ⟨hu, fun h => ht (h ▸ hu)⟩, hI.nodup,
      hI.runs_set (fun _ _ _ _ _ => rfl) ?_⟩
    simp only [Pc.run.injEq, and_imp]
    rintro _ _ rfl rfl
    exact .next (hI.runs t op l h) he
  | wait op l h he =>
    have ht := hI.not_mem_waiting (t := t) (by simp [h])
    refine ⟨hI.self_set rfl, hI.lock.set_release (by simp [h, Pc.holding]) rfl rfl rfl,
      hI.waiting_set fun u hu => ?_, ?_, hI.runs_set (fun _ _ _ _ _ => by simp) (by simp)⟩
    · have hu : u ∈ s.shared.waiting ∨ u = t := by simpa [hI.self t] using hu
      rcases hu with hu | rfl
      · exact .inl ⟨hu, fun h => ht (h ▸ hu)⟩
      · exact .inr ⟨rfl, op, rfl⟩
    · simpa [hI.self t, List.nodup_append, ht] using hI.nodup
  | finish op l d r c h he =>
    have ht := hI.not_mem_waiting (t := t) (by simp [h])
    have hsub : ∀ u, u ∈ (if M.notifies op then notifyOne s.shared.waiting c
        else s.shared.waiting) → u ∈ s.shared.waiting := fun u hu => by
      split at hu
      · exact (notifyOne_sublist _ c).subset hu
      · exact hu
    refine ⟨hI.self_set rfl, hI.lock.set_release (by simp [h, Pc.holding]) rfl rfl rfl,
      hI.waiting_set fun u hu => .inl ⟨hsub u hu, fun h => ht (h ▸ hsub u hu)⟩, ?_,
      hI.runs_set (fun u op' l' hu hu' => ?_) (by simp)⟩
    · show List.Nodup (if _ then _ else _)
      split
      · exact hI.nodup.sublist (notifyOne_sublist _ c)
      · exact hI.nodup
    · cases hm : M.mode op with
      | shared => exact hM.shared hm (hI.runs t op l h) he
      | exclusive =>
        exact absurd (hI.lock.alone t u (by simp [h, Pc.holding, hm]) (by simp [hu', Pc.holding]))
          hu
  | spurious op h =>
    refine ⟨hI.self_set rfl, hI.lock.set_keep rfl rfl rfl,
      hI.waiting_set fun u hu => ?_, hI.nodup.erase _,
      hI.runs_set (fun _ _ _ _ _ => rfl) (by simp [h])⟩
    by_cases hut : u = t
    · exact .inr ⟨hut, op, h⟩
    · exact .inl ⟨(List.mem_erase_of_ne hut).1 (by simpa [hI.self t] using hu), hut⟩
  | wake op h hn hf =>
    rw [hI.self t] at hn
    refine ⟨hI.self_set rfl, hI.lock.set_acquire hf (by simp [h, Pc.holding]) rfl rfl rfl,
      hI.waiting_set fun u hu => .inl ⟨by simpa using hu, fun h => hn (h ▸ by simpa using hu)⟩,
      by simpa using hI.nodup,
      hI.runs_set (fun _ _ _ _ _ => by simp) (by simp; exact .start)⟩

omit [DecidableEq Tid] in
lemma inv_init (d : S) : Inv M (init d : Conf Tid (Shared S Tid) (Thread Tid Op L)) := by
  refine ⟨fun _ => rfl, ⟨by simp [init, Pc.holding], by simp [init, Pc.holding], ?_⟩,
    by simp [init], List.nodup_nil, by simp [init]⟩
  simp [init, Conf.count, sharedWeight, Pc.holding]

lemma inv_reach {enabled : Op → S → Bool} {apply : Op → S → S × R}
    (hM : M.Implements enabled apply) {d : S} {h : List (Tid × Atomic.Event Op R)}
    (hr : (monitor M).Reach (init d) s h) : Inv M s :=
  hr.inv _ (inv_init d) fun _ _ _ _ _ _ hI hs => hI.step hM (Except.ok.inj hs)

/-- The threads in `waiting` are at most the threads inside `cv.wait`. -/
lemma Inv.length_waiting_le (hI : Inv M s) :
    (s.shared.waiting.length : Int) ≤ s.count waitWeight := by
  have hw : ∀ u ∈ s.shared.waiting.toFinset, waitWeight (s.thr u) = 1 := fun u hu => by
    obtain ⟨op, h⟩ := hI.waiting u (List.mem_toFinset.1 hu)
    simp [waitWeight, h]
  calc (s.shared.waiting.length : Int)
      = s.shared.waiting.toFinset.card := by rw [List.toFinset_card_of_nodup hI.nodup]
    _ = ∑ u ∈ s.shared.waiting.toFinset, waitWeight (s.thr u) := by
        rw [Finset.sum_congr rfl hw]; simp
    _ ≤ s.count waitWeight :=
        Finset.sum_le_sum_of_subset_of_nonneg (Finset.subset_univ _) fun u _ _ => by
          unfold waitWeight; split <;> omega

/-! ### Refinement of the atomic object -/

/-- The call a thread is in, for the atomic object: it takes effect at its last container
call, in the step that also returns. -/
def absPc : Pc Op L → Atomic.Thread Op R
  | .idle => .idle
  | .lock op | .run op _ | .wait op => .pending op

/-- The atomic object with contents `d` and every thread idle. -/
def atomicInit (Tid : Type) (d : S) : Conf Tid S (Atomic.Thread Op R) :=
  ⟨d, fun _ => .idle⟩

variable (M)

/-- The refinement relation: the invariant, the same contents, and each thread in the call it
is in. -/
structure Refines (s : Conf Tid (Shared S Tid) (Thread Tid Op L))
    (a : Conf Tid S (Atomic.Thread Op R)) : Prop where
  inv : Inv M s
  data : a.shared = s.shared.data
  thr : ∀ t, a.thr t = absPc (s.thr t).pc

variable {M} {a : Conf Tid S (Atomic.Thread Op R)}

/-- A step of the object that the atomic object matches by doing nothing. -/
lemma Refines.stutter (hR : Refines M s a) {g : Shared S Tid} {th : Thread Tid Op L}
    (hI : Inv M (s.set t g th)) (hd : g.data = s.shared.data)
    (hth : absPc (R := R) th.pc = absPc (s.thr t).pc) : Refines M (s.set t g th) a := by
  refine ⟨hI, by rw [Conf.set_shared, hd, hR.data], fun u => ?_⟩
  by_cases hu : u = t
  · subst hu; simp [hth, hR.thr]
  · rw [Conf.set_thr_ne _ _ _ hu, hR.thr]

/-- A step of the object that the atomic object matches by a move of the same thread. -/
lemma Refines.set (hR : Refines M s a) {g : Shared S Tid} {th : Thread Tid Op L}
    (hI : Inv M (s.set t g th)) : Refines M (s.set t g th) (a.set t g.data (absPc th.pc)) := by
  refine ⟨hI, rfl, fun u => ?_⟩
  by_cases hu : u = t
  · subst hu; simp
  · rw [Conf.set_thr_ne _ _ _ hu, Conf.set_thr_ne _ _ _ hu, hR.thr]

lemma refines_step {enabled : Op → S → Bool} {apply : Op → S → S × R}
    (hM : M.Implements enabled apply) (hR : Refines M s a) {c : Choice Op Tid} {g : Shared S Tid}
    {th : Thread Tid Op L} {e : Option (Atomic.Event Op R)}
    (hs : step M s.shared (s.thr t) c = (g, th, e)) :
    ∃ a', (Atomic.blockingObject enabled apply).Reach a a' (e.map (t, ·)).toList ∧
      Refines M (s.set t g th) a' := by
  have hI := hR.inv.step hM hs
  cases move_of_step hs with
  | stay => exact ⟨a, .refl, by simpa using hR⟩
  | call op h =>
    have hat : a.thr t = .idle := by rw [hR.thr, h]; rfl
    refine ⟨_, Atomic.blocking_reach_call a t op hat, ?_⟩
    simpa [hR.data] using hR.set hI
  | acquire op h => exact ⟨a, .refl, hR.stutter hI (by simp) (by simp [h, absPc])⟩
  | next op l l' h => exact ⟨a, .refl, hR.stutter hI rfl (by simp [h, absPc])⟩
  | wait op l h => exact ⟨a, .refl, hR.stutter hI (by cases M.mode op <;> rfl) (by simp [h, absPc])⟩
  | finish op l d r c h he =>
    obtain ⟨hen, hap⟩ := hM.finish (hR.inv.runs t op l h) he
    have hat : a.thr t = .pending op := by rw [hR.thr, h]; rfl
    rw [← hR.data] at hen hap
    have hlr : (Atomic.blockingObject enabled apply).Reach a _ _ :=
      Atomic.blocking_reach_lin_ret a t op hat hen
    rw [hap] at hlr
    exact ⟨_, hlr, hR.set hI⟩
  | spurious op h => exact ⟨a, .refl, hR.stutter hI rfl rfl⟩
  | wake op h => exact ⟨a, .refl, hR.stutter hI (by simp) (by simp [h, absPc])⟩

/-- Every history of an object whose member functions implement `apply` is a history of the
atomic object of `apply`, the contents being the atomic object's state and each thread in the
call it is in. -/
lemma monitor_refines {enabled : Op → S → Bool} {apply : Op → S → S × R}
    (hM : M.Implements enabled apply) {d : S} {h : List (Tid × Atomic.Event Op R)}
    (hr : (monitor M).Reach (init d) s h) :
    ∃ a, (Atomic.blockingObject enabled apply).Reach (atomicInit Tid d) a h ∧
      a.shared = s.shared.data ∧ ∀ t, a.thr t = absPc (s.thr t).pc := by
  obtain ⟨a, ha, hR⟩ := hr.simulate (Refines M)
    (⟨inv_init d, rfl, fun _ => rfl⟩ : Refines M (init d) (atomicInit Tid d))
    fun _ _ _ _ _ _ _ hR hs => refines_step hM hR (Except.ok.inj hs)
  exact ⟨a, ha, hR.data, hR.thr⟩

end Monitor

end ConcurrencyInAction
