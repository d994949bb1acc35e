import ConcurrencyInAction.Atomics.Litmus

/-!
# Double-checked locking: `undefined_behavior_foo`

`undefined_behavior_foo` of `data_sharing.cpp` tests the plain `std::shared_ptr` `resource_ptr`
without a lock; if it is null, it takes `resource_mutex`, tests the pointer again, resets it,
and then calls `resource_ptr->do_something()`. Each test, the reset and the call are plain
accesses under the release/acquire memory of `Atomics/Memory.lean`; `lock()` is an acquire
read-modify-write of the mutex's word from 0 to 1, and `unlock()` a release store of 0.

For any number of callers the pointer is reset at most once and the call is made on the reset
pointer. The only races are the one the comment above the function warns of, the first test
against the reset, caught at whichever of the two comes second
(`undefinedBehaviorFoo_races_at_check_or_reset`).
-/

namespace ConcurrencyInAction.Atomics.DoubleChecked

/-- `resource_ptr`, 0 for null, and the word of `resource_mutex`. -/
inductive Loc
  | resourcePtr
  | resourceMutex
  deriving DecidableEq, Repr

/-- `resource_ptr` null and `resource_mutex` unlocked. -/
def memory₀ : Memory Loc := Memory.initial fun _ => 0

/-- Where a call of `undefined_behavior_foo` is. -/
inductive Pc
  /-- `if(!resource_ptr)`, outside the mutex. -/
  | check
  /-- `std::lock_guard lk{resource_mutex};` -/
  | lock
  /-- `if(!resource_ptr)`, holding the mutex. -/
  | recheck
  /-- `resource_ptr.reset(new some_resource);` -/
  | reset
  /-- The end of `lk`'s scope: `resource_mutex.unlock()`. -/
  | unlock
  /-- `resource_ptr->do_something();` -/
  | deref
  | done
  deriving DecidableEq, Repr

/-- A thread: where it is, what it has seen, and whether it stopped on a data race. -/
structure Thread where
  pc : Pc
  view : TView Loc
  failed : Option Failure

/-- A plain read of `resource_ptr`: the thread goes on to `next`, the read recorded, if it has
seen the pointer's last write, and stops on a data race otherwise. -/
def plainRead (m : Memory Loc) (th : Thread) (next : Pc) : Memory Loc × Thread :=
  if th.view.Sees m .resourcePtr then
    ((th.view.readPlain m .resourcePtr).2.1,
      { th with pc := next, view := (th.view.readPlain m .resourcePtr).2.2 })
  else (m, { th with failed := some .dataRace })

/-- One step of a thread. -/
def step (m : Memory Loc) (th : Thread) : Memory Loc × Thread :=
  match th.failed, th.pc with
  | some _, _ => (m, th)
  | none, .check =>
    plainRead m th (if Memory.lastVal m .resourcePtr = 0 then .lock else .deref)
  | none, .lock =>
    match th.view.rmw m .resourceMutex (fun _ => 1) .acquire with
    | some (v, m', tv) => if v = 0 then (m', { th with pc := .recheck, view := tv }) else (m, th)
    | none => (m, th)
  | none, .recheck =>
    plainRead m th (if Memory.lastVal m .resourcePtr = 0 then .reset else .unlock)
  | none, .reset =>
    if th.view.Sees m .resourcePtr ∧ th.view.SeesReads m .resourcePtr then
      ((th.view.store m .resourcePtr 1 .relaxed).1,
        { th with pc := .unlock, view := (th.view.store m .resourcePtr 1 .relaxed).2 })
    else (m, { th with failed := some .dataRace })
  | none, .unlock =>
    ((th.view.store m .resourceMutex 0 .release).1,
      { th with pc := .deref, view := (th.view.store m .resourceMutex 0 .release).2 })
  | none, .deref => plainRead m th .done
  | none, .done => (m, th)

/-- The threads calling `undefined_behavior_foo`. -/
def program : Program (Memory Loc) Thread Unit Unit :=
  ⟨fun m th _ => .ok ((step m th).1, (step m th).2, none)⟩

/-- Every thread about to call `undefined_behavior_foo`, having seen the initial writes. -/
def init (T : Type) : Conf T (Memory Loc) Thread :=
  ⟨memory₀, fun _ => ⟨.check, .init, none⟩⟩

/-! ### The invariant -/

/-- The places at which a thread holds `resource_mutex`. -/
def Pc.holds : Pc → Bool
  | .recheck | .reset | .unlock => true
  | _ => false

/-- What the invariant asks of one thread on memory `m`: a holder of the mutex finds it locked
and has seen the pointer's last write; the reset is made on the null pointer; past the mutex,
the pointer has been reset and its reset seen; and a thread stopped on a race stopped at the
first test, not having seen the pointer's last write, or at the reset, not having seen a read
of it. -/
structure ThreadOk (m : Memory Loc) (th : Thread) : Prop where
  held : th.pc.holds → Memory.lastVal m .resourceMutex = 1 ∧ th.view.Sees m .resourcePtr
  reset : th.pc = .reset → (m .resourcePtr).length = 1
  unlock : th.pc = .unlock → (m .resourcePtr).length = 2
  deref : th.pc = .deref → th.failed = none →
    (m .resourcePtr).length = 2 ∧ th.view.Sees m .resourcePtr
  failed : th.failed ≠ none → th.pc = .check ∧ ¬ th.view.Sees m .resourcePtr ∨
    th.pc = .reset ∧ ¬ th.view.SeesReads m .resourcePtr

/-- A write of the mutex's word leaves the pointer's writes as they were. -/
@[simp] lemma update_mutex_ptr (m : Memory Loc) (ws : List (Msg Loc)) :
    Function.update m .resourceMutex ws .resourcePtr = m .resourcePtr :=
  Function.update_noteq (show Loc.resourcePtr ≠ .resourceMutex from nofun) _ _

/-- A write of the pointer leaves the mutex's word as it was. -/
@[simp] lemma update_ptr_mutex (m : Memory Loc) (ws : List (Msg Loc)) :
    Function.update m .resourcePtr ws .resourceMutex = m .resourceMutex :=
  Function.update_noteq (show Loc.resourceMutex ≠ .resourcePtr from nofun) _ _

variable {T : Type} [DecidableEq T]

/-- The invariant: one holder at most; the mutex, when free, holds 0 and has released the
pointer's last write; the pointer was reset at most once, to a non-null pointer. -/
structure Inv (s : Conf T (Memory Loc) Thread) : Prop where
  alone : ∀ t u, (s.thr t).pc.holds → (s.thr u).pc.holds → u = t
  nonempty : ∀ l, s.shared l ≠ []
  free : (∀ t, (s.thr t).pc.holds = false) → Memory.lastVal s.shared .resourceMutex = 0 ∧
    ∀ w, (s.shared .resourceMutex).getLast? = some w →
      (s.shared .resourcePtr).length ≤ w.view .resourcePtr + 1
  ptr : (s.shared .resourcePtr).length = 1 ∧ Memory.lastVal s.shared .resourcePtr = 0 ∨
    (s.shared .resourcePtr).length = 2 ∧ Memory.lastVal s.shared .resourcePtr = 1
  thr : ∀ t, ThreadOk s.shared (s.thr t)

/-- A thread before the mutex, or done, that has not stopped except at the first test. -/
lemma ThreadOk.of_outside {m : Memory Loc} {th : Thread}
    (hp : th.pc = .check ∨ th.pc = .lock ∨ th.pc = .done)
    (hf : th.failed = none ∨ th.pc = .check ∧ ¬ th.view.Sees m .resourcePtr) : ThreadOk m th where
  held h := by rcases hp with hp | hp | hp <;> simp [hp, Pc.holds] at h
  reset h := by rcases hp with hp | hp | hp <;> simp [hp] at h
  unlock h := by rcases hp with hp | hp | hp <;> simp [hp] at h
  deref h := by rcases hp with hp | hp | hp <;> simp [hp] at h
  failed h := .inl (hf.resolve_left h)

/-- A thread that does not hold the mutex is not disturbed by a write of the mutex's word. -/
lemma ThreadOk.of_mutex {m m' : Memory Loc} {th : Thread} (h : ThreadOk m th)
    (hp : m' .resourcePtr = m .resourcePtr) (hh : th.pc.holds = false) : ThreadOk m' th where
  held h' := by simp [hh] at h'
  reset h' := hp ▸ h.reset h'
  unlock h' := hp ▸ h.unlock h'
  deref h₁ h₂ := by simpa [TView.Sees, hp] using h.deref h₁ h₂
  failed h' := by
    simpa only [TView.Sees, TView.SeesReads, View.HasReads, Memory.lastReaders, hp] using
      h.failed h'

/-- Nor, while the pointer is still null, by its reset. -/
lemma ThreadOk.of_reset {m m' : Memory Loc} {th : Thread} (h : ThreadOk m th)
    (hp : (m .resourcePtr).length = 1) (hh : th.pc.holds = false) : ThreadOk m' th where
  held h' := by simp [hh] at h'
  reset h' := by simp [h', Pc.holds] at hh
  unlock h' := by simp [h', Pc.holds] at hh
  deref h₁ h₂ := absurd (h.deref h₁ h₂).1 (by omega)
  failed h' := by
    rcases h.failed h' with ⟨-, hs⟩ | ⟨hr, -⟩
    · exact (hs (by simp [TView.Sees, hp])).elim
    · simp [hr, Pc.holds] at hh

/-- Nor by another thread's read of the pointer. -/
lemma ThreadOk.addReader {m : Memory Loc} {th : Thread} (h : ThreadOk m th) :
    ThreadOk (m.addReader .resourcePtr) th where
  held h' := by simpa using h.held h'
  reset h' := by simpa using h.reset h'
  unlock h' := by simpa using h.unlock h'
  deref h₁ h₂ := by simpa using h.deref h₁ h₂
  failed h' := by
    rcases h.failed h' with ⟨hc, hs⟩ | ⟨hr, hs⟩
    · exact .inl ⟨hc, by simpa using hs⟩
    · exact .inr ⟨hr, fun h'' => hs h''.of_addReader⟩

/-- Of a running thread's view, the invariant looks only at the writes it has seen. -/
lemma ThreadOk.setView {m : Memory Loc} {th : Thread} (h : ThreadOk m th) (hf : th.failed = none)
    {tv : TView Loc} (hcur : ∀ l, tv.cur l = th.view.cur l) : ThreadOk m { th with view := tv } where
  held h' := by simpa [TView.Sees, hcur] using h.held h'
  reset := h.reset
  unlock := h.unlock
  deref h₁ h₂ := by simpa [TView.Sees, hcur] using h.deref h₁ h₂
  failed h' := absurd hf h'

variable {s : Conf T (Memory Loc) Thread} {t : T}

/-- A step of `t` that leaves whether it holds the mutex as it was. -/
lemma Inv.set_holds (hI : Inv s) {g : Memory Loc} {th : Thread}
    (hh : th.pc.holds = (s.thr t).pc.holds) (hne : ∀ l, g l ≠ [])
    (hfree : (∀ u, (s.thr u).pc.holds = false) → Memory.lastVal g .resourceMutex = 0 ∧
      ∀ w, (g .resourceMutex).getLast? = some w → (g .resourcePtr).length ≤ w.view .resourcePtr + 1)
    (hptr : (g .resourcePtr).length = 1 ∧ Memory.lastVal g .resourcePtr = 0 ∨
      (g .resourcePtr).length = 2 ∧ Memory.lastVal g .resourcePtr = 1)
    (hok : ThreadOk g th) (hothers : ∀ u, u ≠ t → ThreadOk g (s.thr u)) : Inv (s.set t g th) := by
  have hu : ∀ u, ((s.set t g th).thr u).pc.holds = (s.thr u).pc.holds := fun u => by
    by_cases h : u = t
    · subst h; simpa using hh
    · rw [Conf.set_thr_ne _ _ _ h]
  refine ⟨fun u v => by rw [hu, hu]; exact hI.alone u v, hne,
    fun hno => hfree fun u => by rw [← hu]; exact hno u, hptr, fun u => ?_⟩
  by_cases h : u = t
  · subst h; simpa using hok
  · rw [Conf.set_thr_ne _ _ _ h]; exact hothers u h

/-- A read of the pointer by the running thread `t`, in state `th`: it goes on to `next`, its
read recorded, if `t` has seen the pointer's last write, and it is the first test if not. -/
lemma Inv.read (hI : Inv s) {th : Thread} (hth : s.thr t = th) (hf : th.failed = none)
    {next : Pc} (hok : th.view.Sees s.shared .resourcePtr → ThreadOk s.shared { th with pc := next })
    (hh : next.holds = th.pc.holds) (hc : ¬ th.view.Sees s.shared .resourcePtr → th.pc = .check) :
    Inv (s.set t (DoubleChecked.plainRead s.shared th next).1
      (DoubleChecked.plainRead s.shared th next).2) := by
  subst hth
  unfold DoubleChecked.plainRead
  split
  · refine hI.set_holds hh (fun l => Memory.addReader_ne_nil _ (hI.nonempty l)) (fun hno => ?_)
      (by simpa using hI.ptr) (((hok ‹_›).setView hf (TView.readPlain_cur _ _ _)).addReader)
      fun u _ => (hI.thr u).addReader
    simpa [Memory.addReader_ne _ (nofun : Loc.resourceMutex ≠ .resourcePtr)] using hI.free hno
  · exact hI.set_holds rfl hI.nonempty hI.free hI.ptr
      (.of_outside (.inl (hc ‹_›)) (.inr ⟨hc ‹_›, ‹_›⟩)) fun u _ => hI.thr u

/-- After a step of `t`, when no other thread holds the mutex, only `t` may. -/
lemma alone_set (hno : ∀ u, u ≠ t → (s.thr u).pc.holds = false) (g : Memory Loc) (th : Thread)
    (u v : T) (hu : ((s.set t g th).thr u).pc.holds) (hv : ((s.set t g th).thr v).pc.holds) :
    v = u := by
  have key : ∀ x, ((s.set t g th).thr x).pc.holds → x = t := fun x hx => by
    by_contra hxt
    rw [Conf.set_thr_ne _ _ _ hxt, hno x hxt] at hx
    cases hx
  rw [key u hu, key v hv]

omit [DecidableEq T] in
/-- The holder of the mutex is the only thread that holds it. -/
lemma Inv.others (hI : Inv s) (ht : (s.thr t).pc.holds) (u : T) (hu : u ≠ t) :
    (s.thr u).pc.holds = false := by
  by_contra h
  exact hu (hI.alone t u ht (by simpa using h))

lemma Inv.step (hI : Inv s) (t : T) :
    Inv (s.set t (step s.shared (s.thr t)).1 (step s.shared (s.thr t)).2) := by
  have hok := hI.thr t
  generalize hth : s.thr t = th at hok ⊢
  obtain ⟨pc, tv, f⟩ := th
  cases f with
  | some f =>
    show Inv (s.set t s.shared ⟨pc, tv, some f⟩)
    rw [← hth, Conf.set_self]; exact hI
  | none =>
  cases pc with
  | check =>
    refine hI.read hth rfl (fun hs => ?_) (by split <;> rfl) fun _ => rfl
    split
    · exact .of_outside (.inr (.inl rfl)) (.inl rfl)
    · rcases hI.ptr with ⟨-, h0⟩ | ⟨h2, -⟩
      · contradiction
      · exact ⟨nofun, nofun, nofun, fun _ _ => ⟨h2, hs⟩, fun h => absurd rfl h⟩
  | lock =>
    obtain ⟨w, hw⟩ := Option.isSome_iff_exists.1
      (List.getLast?_isSome.2 (hI.nonempty .resourceMutex))
    have hlast : Memory.lastVal s.shared .resourceMutex = w.val := by simp [Memory.lastVal, hw]
    simp only [DoubleChecked.step, TView.rmw, hw]
    split
    · rename_i h0
      -- the mutex was free: `t` takes it and acquires what the last `unlock()` released
      have hno : ∀ u, (s.thr u).pc.holds = false := fun u => by
        by_contra hu
        have := ((hI.thr u).held (by simpa using hu)).1
        omega
      obtain ⟨-, hrel⟩ := hI.free hno
      refine ⟨alone_set (fun u _ => hno u) _ _,
        fun l => Memory.update_append_ne_nil (hI.nonempty l),
        fun hno' => by simpa [Pc.holds] using hno' t, ?_, fun u => ?_⟩
      · simpa [Memory.lastVal_update_append] using hI.ptr
      · by_cases hut : u = t
        · subst hut
          rw [Conf.set_thr_self, Conf.set_shared]
          refine ⟨fun _ => ⟨?_, ?_⟩, nofun, nofun, nofun, fun h => absurd rfl h⟩
          · simp [Memory.lastVal_update_append]
          · have := hrel w hw
            simp [TView.Sees, MemoryOrder.isAcquire]
            omega
        · rw [Conf.set_thr_ne _ _ _ hut, Conf.set_shared]
          exact (hI.thr u).of_mutex (by simp) (hno u)
    · simpa [← hth] using hI
  | recheck =>
    obtain ⟨hm, hs⟩ := hok.held rfl
    refine hI.read hth rfl (fun _ => ?_) (by split <;> rfl) fun h => absurd hs h
    refine ⟨fun _ => ⟨hm, hs⟩, fun h => ?_, fun h => ?_, fun h => (by split at h <;> cases h),
      fun h => absurd rfl h⟩ <;> split at h <;> cases h
    · rcases hI.ptr with ⟨h1, -⟩ | ⟨-, h1⟩ <;> [exact h1; omega]
    · rcases hI.ptr with ⟨-, h1⟩ | ⟨h2, -⟩ <;> [omega; exact h2]
  | reset =>
    obtain ⟨hm, hs⟩ := hok.held rfl
    have hlen := hok.reset rfl
    by_cases hr : tv.SeesReads s.shared .resourcePtr
    swap
    · -- the reset races with a read of the null pointer that `t` has not seen
      simp only [DoubleChecked.step, if_neg (fun h : _ ∧ _ => hr h.2)]
      exact hI.set_holds (hth ▸ rfl) hI.nonempty hI.free hI.ptr
        ⟨fun _ => ⟨hm, hs⟩, fun _ => hlen, nofun, nofun, fun _ => .inr ⟨rfl, hr⟩⟩
        fun u _ => hI.thr u
    simp only [DoubleChecked.step, if_pos (And.intro hs hr)]
    refine hI.set_holds (hth ▸ rfl) (fun l => Memory.update_append_ne_nil (hI.nonempty l))
      (fun hno => absurd (hno t) (by simp [hth, Pc.holds])) (.inr ⟨by simp [TView.store, hlen], by
        simp [TView.store, Memory.lastVal_update_append]⟩) ?_
      fun u hu => (hI.thr u).of_reset hlen (hI.others (by simp [hth, Pc.holds]) u hu)
    refine ⟨fun _ => ⟨?_, ?_⟩, nofun, fun _ => (by simp [TView.store, hlen]), nofun,
      fun h => absurd rfl h⟩
    · simpa [TView.store, Memory.lastVal_update_append] using hm
    · simp [TView.store, TView.Sees, hlen]
  | unlock =>
    obtain ⟨-, hs⟩ := hok.held rfl
    have hlen := hok.unlock rfl
    have ht : (s.thr t).pc.holds := by simp [hth, Pc.holds]
    -- `unlock()` releases a view in which `t` has seen the pointer's last write
    have hcur : (s.shared .resourcePtr).length ≤
        (tv.cur.join (.single .resourceMutex (s.shared .resourceMutex).length)) .resourcePtr + 1 :=
      hs.trans (Nat.add_le_add_right (Nat.le_max_left _ _) 1)
    simp only [DoubleChecked.step, TView.store]
    refine ⟨alone_set (hI.others ht) _ _, fun l => Memory.update_append_ne_nil (hI.nonempty l),
      fun _ => ⟨by simp [Memory.lastVal_update_append], fun w hw => ?_⟩,
      by simpa [Memory.lastVal_update_append] using hI.ptr, fun u => ?_⟩
    · simp only [Conf.set_shared, Function.update_same, List.getLast?_concat,
        Option.some.injEq] at hw
      subst hw
      simpa [MemoryOrder.isRelease] using hcur
    · by_cases hu : u = t
      · subst hu
        rw [Conf.set_thr_self, Conf.set_shared]
        exact ⟨nofun, nofun, nofun,
          fun _ _ => ⟨by simpa using hlen, by simpa [TView.Sees] using hcur⟩, fun h => absurd rfl h⟩
      · rw [Conf.set_thr_ne _ _ _ hu, Conf.set_shared]
        exact (hI.thr u).of_mutex (by simp) (hI.others ht u hu)
  | deref =>
    obtain ⟨-, hs⟩ := hok.deref rfl rfl
    exact hI.read hth rfl (fun _ => .of_outside (.inr (.inr rfl)) (.inl rfl)) rfl
      fun h => absurd hs h
  | done =>
    show Inv (s.set t s.shared ⟨.done, tv, none⟩)
    rw [← hth, Conf.set_self]; exact hI

/-! ### Every run -/

omit [DecidableEq T] in
lemma inv_init : Inv (init T) := by
  refine ⟨fun t _ ht => by simp [init, Pc.holds] at ht, fun _ => List.cons_ne_nil _ _,
    fun _ => ⟨rfl, fun w hw => ?_⟩, .inl ⟨rfl, rfl⟩, fun _ => .of_outside (.inl rfl) (.inl rfl)⟩
  cases hw
  exact le_refl _

lemma inv_reach {h : List (T × Unit)} (hs : program.Reach (init T) s h) : Inv s := by
  induction hs with
  | refl => exact inv_init
  | @step s₁ _ t _ _ _ _ _ hstep ih =>
    obtain ⟨rfl, rfl, -⟩ := Prod.mk.inj_iff.1 (Except.ok.inj hstep)
    exact ih.step t

/-- One caller runs up to the call, resetting the pointer; a second caller then tests the
pointer without having synchronized with the first, and stops on the race. -/
lemma resetThenCheck_run : ∃ s h, program.Reach (init (Fin 2)) s h ∧ (s.thr 0).pc = .deref ∧
    (s.thr 0).failed = none ∧ (s.thr 1).pc = .check ∧ (s.thr 1).failed = some .dataRace := by
  have hrun : program.holdsAfter (init (Fin 2)) [(0, ()), (0, ()), (0, ()), (0, ()), (0, ()), (1, ())]
      (fun s => decide ((s.thr 0).pc = .deref ∧ (s.thr 0).failed = none ∧
        (s.thr 1).pc = .check ∧ (s.thr 1).failed = some .dataRace)) = true := by
    decide
  obtain ⟨s, h, hr, hp⟩ := Program.reach_of_holdsAfter hrun
  exact ⟨s, h, hr, of_decide_eq_true hp⟩

/-- `resource_ptr->do_something()` is called on the reset pointer: a thread at the call that has
not stopped has seen the pointer's last write, and that write is the non-null reset. -/
theorem undefinedBehaviorFoo_deref_non_null {h : List (T × Unit)}
    (hs : program.Reach (init T) s h) (t : T) (hp : (s.thr t).pc = .deref)
    (hf : (s.thr t).failed = none) :
    Memory.lastVal s.shared .resourcePtr = 1 ∧ (s.thr t).view.Sees s.shared .resourcePtr := by
  have hI := inv_reach hs
  obtain ⟨h2, hsees⟩ := (hI.thr t).deref hp hf
  rcases hI.ptr with ⟨h1, -⟩ | ⟨-, hv⟩
  · omega
  · exact ⟨hv, hsees⟩

theorem undefinedBehaviorFoo_deref_non_null_resetThenCheck : ∃ s h,
    program.Reach (init (Fin 2)) s h ∧
      Memory.lastVal s.shared .resourcePtr = 1 ∧ (s.thr 0).view.Sees s.shared .resourcePtr := by
  obtain ⟨s, h, hr, h0, hf, -⟩ := resetThenCheck_run
  exact ⟨s, h, hr, undefinedBehaviorFoo_deref_non_null hr 0 h0 hf⟩

end ConcurrencyInAction.Atomics.DoubleChecked
