import ConcurrencyInAction.Atomics.Litmus

/-!
# `spinlock_mutex`

The spin lock of `atomic.cpp`: `lock()` spins on `flag.test_and_set(std::memory_order_acquire)`
until it reads the flag clear, and `unlock()` clears the flag with `memory_order_release`.
The class is a mutex: its clients put accesses to ordinary, non-atomic data between `lock()`
and `unlock()`.

The clients here are any number of threads, each running any number of critical sections
`lock(); body; unlock();` whose bodies read and write non-atomic data. In every run under the
release/acquire memory:
* at most one thread is inside a critical section (`spinlock_mutual_exclusion`);
* the flag is set exactly when a thread is inside (`spinlock_flag_set_iff_held`);
* no access of a body races, because the thread inside has seen the last write of every
  datum and every read of it (`spinlock_no_data_race`): `unlock()`'s release store passes on
  what its thread has seen to the test-and-set that next reads the flag clear.
-/

namespace ConcurrencyInAction.Atomics.Spinlock

/-- The lock's `flag`, and the non-atomic data the critical sections access. -/
inductive Loc
  | flag
  | data (n : Nat)
  deriving DecidableEq, Repr

/-- `flag(ATOMIC_FLAG_INIT)`, and the data's initial values `d`. -/
def memory₀ (d : Nat → Int) : Memory Loc :=
  Memory.initial fun
    | .flag => 0
    | .data n => d n

/-- `lock()`: `while(flag.test_and_set(std::memory_order_acquire));` -/
def lock : Instr Loc := .testAndSet .flag .acquire

/-- `unlock()`: `flag.clear(std::memory_order_release);` -/
def unlock : Instr Loc := .store .flag 0 .release

/-- A statement of a critical section's body: a plain write or read of a datum. -/
def isPlain : Instr Loc → Bool
  | .write (.data _) _ => true
  | .print (.data _) none => true
  | _ => false

lemma isPlain_eq_true {i : Instr Loc} (h : isPlain i = true) :
    (∃ n v, i = .write (.data n) v) ∨ ∃ n, i = .print (.data n) none := by
  unfold isPlain at h
  split at h
  · exact .inl ⟨_, _, rfl⟩
  · exact .inr ⟨_, rfl⟩
  · cases h

/-- Bodies made of plain accesses only. -/
def Plain (bs : List (List (Instr Loc))) : Prop := ∀ b ∈ bs, ∀ i ∈ b, isPlain i = true

instance : DecidablePred Plain := fun bs =>
  inferInstanceAs (Decidable (∀ b ∈ bs, ∀ i ∈ b, isPlain i = true))

/-- The critical sections `lock(); b; unlock();` for each body `b` of `bs` in turn. -/
def sections : List (List (Instr Loc)) → List (Instr Loc)
  | [] => []
  | b :: bs => lock :: (b ++ unlock :: sections bs)

/-- Code between two critical sections: the sections still to run. -/
def Outside (code : List (Instr Loc)) : Prop := ∃ bs, Plain bs ∧ code = sections bs

/-- Code inside a critical section: the rest of its body, `unlock()`, and the sections still
to run. -/
def Inside (code : List (Instr Loc)) : Prop :=
  ∃ b bs, (∀ i ∈ b, isPlain i = true) ∧ Plain bs ∧ code = b ++ unlock :: sections bs

/-- No code is both between and inside critical sections. -/
lemma not_inside_of_outside {code : List (Instr Loc)} (h : Outside code) : ¬ Inside code := by
  rintro ⟨b, bs, hb, -, rfl⟩
  obtain ⟨bs', -, h⟩ := h
  cases bs' with
  | nil => cases b <;> cases h
  | cons b' bs' =>
    cases b with
    | nil => cases h
    | cons i b =>
      obtain ⟨rfl, -⟩ := List.cons.inj h
      cases hb _ (List.mem_cons_self _ _)

/-- View `v` has seen the last write of every datum, and every plain read of it. -/
def Covers (v : View Loc) (m : Memory Loc) : Prop :=
  ∀ n, (m (.data n)).length ≤ v (.data n) + 1 ∧ v.HasReads m (.data n)

lemma Covers.join_left {v : View Loc} {m : Memory Loc} (h : Covers v m) (v' : View Loc) :
    Covers (v.join v') m :=
  fun n => ⟨(h n).1.trans (Nat.add_le_add_right (le_max_left _ _) 1), (h n).2.join_left _⟩

lemma Covers.join_right {v : View Loc} {m : Memory Loc} (h : Covers v m) (v' : View Loc) :
    Covers (v'.join v) m :=
  fun n => ⟨(h n).1.trans (Nat.add_le_add_right (le_max_right _ _) 1), (h n).2.join_right _⟩

/-- A write of the flag leaves the data alone. -/
lemma Covers.update_flag {v : View Loc} {m : Memory Loc} (h : Covers v m) (ws : List (Msg Loc)) :
    Covers v (Function.update m .flag ws) := fun n => by
  have hn : Function.update m .flag ws (.data n) = m (.data n) :=
    Function.update_noteq (nofun : Loc.data n ≠ .flag) _ _
  exact ⟨by rw [hn]; exact (h n).1, (h n).2.congr hn⟩

section Invariant

variable {T : Type} [DecidableEq T] {s : Conf T (Memory Loc) (Thread Loc)}

/-- The invariant: each thread is between or inside critical sections and at most one is
inside; the flag is set when one is, and clear when none is; and the thread inside or, when
none is, the flag's last write, has seen the last write of every datum and every read of it. -/
structure Inv (s : Conf T (Memory Loc) (Thread Loc)) : Prop where
  shape : ∀ t, Outside (s.thr t).code ∨ Inside (s.thr t).code
  exclusive : ∀ t u, Inside (s.thr t).code → Inside (s.thr u).code → t = u
  nonempty : ∀ l, s.shared l ≠ []
  held : ∀ t, Inside (s.thr t).code → Memory.lastVal s.shared .flag = 1
  free : (∀ t, ¬ Inside (s.thr t).code) → Memory.lastVal s.shared .flag = 0 ∧
    ∀ w, (s.shared .flag).getLast? = some w → Covers w.view s.shared
  sees : ∀ t, Inside (s.thr t).code → Covers (s.thr t).view.cur s.shared
  ok : ∀ t, (s.thr t).failed = none

/-- A step of thread `t` to memory `g` and state `l` keeps the invariant when it keeps each
field for `t` and for the threads it leaves alone. -/
lemma Inv.set (hI : Inv s) {t : T} {g : Memory Loc} {l : Thread Loc}
    (hshape : Outside l.code ∨ Inside l.code)
    (halone : Inside l.code → ∀ u ≠ t, ¬ Inside (s.thr u).code)
    (hne : ∀ l, g l ≠ [])
    (hheld : (Inside l.code ∨ ∃ u ≠ t, Inside (s.thr u).code) → Memory.lastVal g .flag = 1)
    (hfree : ¬ Inside l.code → (∀ u ≠ t, ¬ Inside (s.thr u).code) →
      Memory.lastVal g .flag = 0 ∧ ∀ w, (g .flag).getLast? = some w → Covers w.view g)
    (hsees : Inside l.code → Covers l.view.cur g)
    (hothers : ∀ u ≠ t, Inside (s.thr u).code → Covers (s.thr u).view.cur g)
    (hf : l.failed = none) : Inv (s.set t g l) := by
  have thr : ∀ u, u ≠ t → (s.set t g l).thr u = s.thr u := fun u h => Conf.set_thr_ne _ _ _ h
  refine ⟨fun u => ?_, fun u v hu hv => ?_, hne, fun u hu => hheld ?_, fun hno => ?_,
    fun u hu => ?_, fun u => ?_⟩
  · by_cases h : u = t
    · subst h; simpa using hshape
    · rw [thr u h]; exact hI.shape u
  · by_cases hut : u = t <;> by_cases hvt : v = t
    · rw [hut, hvt]
    · subst hut; simp only [Conf.set_thr_self] at hu; rw [thr v hvt] at hv
      exact absurd hv (halone hu v hvt)
    · subst hvt; simp only [Conf.set_thr_self] at hv; rw [thr u hut] at hu
      exact absurd hu (halone hv u hut)
    · rw [thr u hut] at hu; rw [thr v hvt] at hv
      exact hI.exclusive u v hu hv
  · by_cases h : u = t
    · subst h; simpa using Or.inl hu
    · rw [thr u h] at hu; exact .inr ⟨u, h, hu⟩
  · exact hfree (by simpa using hno t) fun u h => by simpa [thr u h] using hno u
  · by_cases h : u = t
    · subst h; simp only [Conf.set_thr_self] at hu ⊢; exact hsees hu
    · rw [thr u h] at hu ⊢; exact hothers u h hu
  · by_cases h : u = t
    · subst h; simpa using hf
    · rw [thr u h]; exact hI.ok u

/-- Every step keeps the invariant. -/
lemma Inv.step (hI : Inv s) (t : T) (i : Nat) :
    Inv (s.set t (step s.shared (s.thr t) i).1 (step s.shared (s.thr t) i).2.1) := by
  have stay : Inv (s.set t s.shared (s.thr t)) := by rw [Conf.set_self]; exact hI
  have hshape := hI.shape t
  have hsees := hI.sees t
  have hheld := hI.held t
  have hok := hI.ok t
  have hm := hI.nonempty
  generalize hth : s.thr t = th at hshape hsees hheld hok stay ⊢
  obtain ⟨code, tv, f⟩ := th
  obtain rfl : f = none := hok
  dsimp only at hsees hheld
  rcases hshape with ⟨bs, hbs, rfl⟩ | ⟨b, bs, hb, hbs, rfl⟩
  · cases bs with
    | nil => rw [step_nil rfl]; exact stay
    | cons b bs =>
    -- `lock()`: a test-and-set of the flag
    have hb : ∀ i ∈ b, isPlain i = true := hbs b (List.mem_cons_self _ _)
    have hbs' : Plain bs := fun b' hb' => hbs b' (List.mem_cons_of_mem _ hb')
    have hout : Outside (sections (b :: bs)) := ⟨_, hbs, rfl⟩
    rcases step_testAndSet s.shared ⟨sections (b :: bs), tv, none⟩ i rfl with
      h | ⟨v, m', tv', hl, h⟩ <;> rw [h]
    · exact stay
    obtain ⟨w, hw, rfl, rfl, rfl⟩ := TView.rmw_eq_some hl
    dsimp only
    have hflag : ∀ (w' : Msg Loc), Memory.lastVal
        (Function.update s.shared .flag (s.shared .flag ++ [w'])) .flag = w'.val := fun w' => by
      rw [Memory.lastVal_update_append, if_pos rfl]
    by_cases h0 : w.val = 0
    · -- the flag was clear: `t` enters, and acquires what the last `unlock()` released
      have hnone : ∀ u, ¬ Inside (s.thr u).code := fun u hu => by
        have := hI.held u hu
        have hlast : Memory.lastVal s.shared .flag = w.val := by simp [Memory.lastVal, hw]
        omega
      rw [if_pos h0]
      exact hI.set (.inr ⟨b, bs, hb, hbs', rfl⟩) (fun _ u _ => hnone u)
        (fun _ => Memory.update_append_ne_nil (hm _)) (fun _ => hflag _)
        (fun hn => absurd ⟨b, bs, hb, hbs', rfl⟩ hn)
        (fun _ => (((hI.free hnone).2 w hw).update_flag _).join_right _)
        (fun u _ hu => absurd hu (hnone u)) rfl
    · -- the flag was set: some thread is inside, and `t` spins
      have hsome : ∃ u, Inside (s.thr u).code := by
        by_contra hno
        have := (hI.free fun u hu => hno ⟨u, hu⟩).1
        have hlast : Memory.lastVal s.shared .flag = w.val := by simp [Memory.lastVal, hw]
        omega
      obtain ⟨u, hu⟩ := hsome
      have hut : u ≠ t := fun h => by
        subst h
        rw [hth] at hu
        exact not_inside_of_outside hout hu
      rw [if_neg h0]
      exact hI.set (.inl hout) (fun hin => absurd hin (not_inside_of_outside hout))
        (fun _ => Memory.update_append_ne_nil (hm _)) (fun _ => hflag _)
        (fun _ hno => absurd hu (hno u hut)) (fun hin => absurd hin (not_inside_of_outside hout))
        (fun u _ hu => (hI.sees u hu).update_flag _) rfl
  · have hin : Inside (b ++ unlock :: sections bs) := ⟨b, bs, hb, hbs, rfl⟩
    have halone : ∀ u ≠ t, ¬ Inside (s.thr u).code := fun u hut hu =>
      hut (hI.exclusive u t hu (by rw [hth]; exact hin))
    have hflag := hheld hin
    cases b with
    | nil =>
      -- `unlock()`: clears the flag, releasing what `t` has seen
      have hout : Outside (sections bs) := ⟨bs, hbs, rfl⟩
      rw [step_store rfl]
      dsimp only
      refine hI.set (.inl hout) (fun h => absurd h (not_inside_of_outside hout))
        (fun _ => Memory.update_append_ne_nil (hm _)) ?_ (fun _ _ => ⟨?_, fun w hw => ?_⟩)
        (fun h => absurd h (not_inside_of_outside hout)) (fun u hut hu => absurd hu (halone u hut))
        rfl
      · rintro (h | ⟨u, hut, hu⟩)
        exacts [absurd h (not_inside_of_outside hout), absurd hu (halone u hut)]
      · rw [TView.store_fst, Memory.lastVal_update_append, if_pos rfl]
      · rw [TView.store_fst, Function.update_same, List.getLast?_concat, Option.some.injEq] at hw
        subst hw
        exact ((hsees hin).update_flag _).join_left _
    | cons i b =>
      have hb' : ∀ i ∈ b, isPlain i = true := fun j hj => hb j (List.mem_cons_of_mem _ hj)
      have hin' : Inside (b ++ unlock :: sections bs) := ⟨b, bs, hb', hbs, rfl⟩
      rcases isPlain_eq_true (hb i (List.mem_cons_self _ _)) with ⟨n, v, rfl⟩ | ⟨n, rfl⟩
      · -- a plain write: no race, since `t` has seen the datum's last write and its reads
        rw [step_write rfl, if_pos (show tv.Sees s.shared (.data n) ∧ tv.SeesReads s.shared (.data n)
          from hsees hin n)]
        dsimp only
        refine hI.set (.inr hin') (fun _ => halone) (fun _ => Memory.update_append_ne_nil (hm _))
          (fun _ => ?_) (fun h => absurd hin' h) (fun _ n' => ?_)
          (fun u hut hu => absurd hu (halone u hut)) rfl
        · rw [TView.store_fst, Memory.lastVal_update_append, if_neg (nofun : Loc.flag ≠ .data n)]
          exact hflag
        · by_cases h : n' = n
          · subst h; exact TView.sees_store_self _ _ _ _ _
          · exact TView.store_keeps (hsees hin n') (by simpa using h) _ _
      · -- a plain read: no race, and it reads the datum's last write
        rw [step_read rfl, if_pos (show tv.Sees s.shared (.data n) from (hsees hin n).1)]
        refine hI.set (.inr hin') (fun _ => halone) (fun _ => Memory.addReader_ne_nil _ (hm _))
          (fun _ => ?_) (fun h => absurd hin' h) (fun _ n' => TView.readPlain_keeps (hsees hin n') (hm _))
          (fun u hut hu => absurd hu (halone u hut)) rfl
        simpa [TView.readPlain] using hflag

variable {d : Nat → Int} {bodies : T → List (List (Instr Loc))}

omit [DecidableEq T] in
lemma inv_init (hb : ∀ t, Plain (bodies t)) :
    Inv (init (memory₀ d) fun t => sections (bodies t)) := by
  have hout : ∀ t, Outside (sections (bodies t)) := fun t => ⟨_, hb t, rfl⟩
  refine ⟨fun t => .inl (hout t), fun t _ ht => absurd ht (not_inside_of_outside (hout t)),
    fun _ => List.cons_ne_nil _ _, fun t ht => absurd ht (not_inside_of_outside (hout t)),
    fun _ => ⟨rfl, fun w hw n => ?_⟩, fun t ht => absurd ht (not_inside_of_outside (hout t)),
    fun _ => rfl⟩
  cases hw
  exact ⟨le_refl _, nofun⟩

lemma inv_reach (hb : ∀ t, Plain (bodies t)) {h : List (T × Int)}
    (hs : (program Loc).Reach (init (memory₀ d) fun t => sections (bodies t)) s h) : Inv s := by
  induction hs with
  | refl => exact inv_init hb
  | @step s₁ _ t c _ _ _ _ hstep ih =>
    have := ih.step t c
    rwa [show step s₁.shared (s₁.thr t) c = _ from Except.ok.inj hstep] at this

/-- `spinlock_mutex` excludes: in every run of any number of threads, each running critical
sections `lock(); body; unlock();` whose bodies make plain accesses, at most one thread is
inside a critical section. -/
theorem spinlock_mutual_exclusion (hb : ∀ t, Plain (bodies t)) {h : List (T × Int)}
    (hs : (program Loc).Reach (init (memory₀ d) fun t => sections (bodies t)) s h) {t u : T}
    (ht : Inside (s.thr t).code) (hu : Inside (s.thr u).code) : t = u :=
  (inv_reach hb hs).exclusive t u ht hu

/-- In every run the flag is set exactly when a thread is inside a critical section. -/
theorem spinlock_flag_set_iff_held (hb : ∀ t, Plain (bodies t)) {h : List (T × Int)}
    (hs : (program Loc).Reach (init (memory₀ d) fun t => sections (bodies t)) s h) :
    Memory.lastVal s.shared .flag = 1 ↔ ∃ t, Inside (s.thr t).code := by
  have hI := inv_reach hb hs
  refine ⟨fun h1 => ?_, fun ⟨t, ht⟩ => hI.held t ht⟩
  by_contra hno
  have := (hI.free fun t ht => hno ⟨t, ht⟩).1
  omega

/-- Critical sections are ordered by the lock: in every run no access of a body races, and the
thread inside a critical section has seen the last write of every datum and every read of it,
so that its plain reads return the data's last writes and its plain writes follow those
reads. -/
theorem spinlock_no_data_race (hb : ∀ t, Plain (bodies t)) {h : List (T × Int)}
    (hs : (program Loc).Reach (init (memory₀ d) fun t => sections (bodies t)) s h) (t : T) :
    (s.thr t).failed = none ∧
      (Inside (s.thr t).code → ∀ n, (s.thr t).view.Sees s.shared (.data n) ∧
        (s.thr t).view.SeesReads s.shared (.data n)) :=
  ⟨(inv_reach hb hs).ok t, (inv_reach hb hs).sees t⟩

end Invariant

/-- Two threads that each run `lock(); datum 0 = 1; print datum 0; unlock();`. -/
def twoClients : Conf (Fin 2) (Memory Loc) (Thread Loc) :=
  init (memory₀ fun _ => 0) fun _ => sections [[.write (.data 0) 1, .print (.data 0) none]]

/-- A run of `twoClients` in which the first thread has left its critical section and the
second has entered its own. -/
lemma twoClients_run : ∃ s h, (program Loc).Reach twoClients s h ∧
    (s.thr 1).code = [.write (.data 0) 1, .print (.data 0) none, unlock] := by
  have hrun : (program Loc).holdsAfter twoClients [(0, 0), (0, 0), (0, 0), (0, 0), (1, 0)]
      (fun s => decide ((s.thr 1).code = [.write (.data 0) 1, .print (.data 0) none, unlock])) =
        true := by
    decide
  obtain ⟨s, h, hr, hp⟩ := Program.reach_of_holdsAfter hrun
  exact ⟨s, h, hr, of_decide_eq_true hp⟩

lemma inside_twoClients : Inside [.write (.data 0) 1, .print (.data 0) none, unlock] :=
  ⟨[_, _], [], by decide, by decide, rfl⟩

theorem spinlock_mutual_exclusion_twoClients : ∃ s h, (program Loc).Reach twoClients s h ∧
    Inside (s.thr 1).code ∧ ∀ u, Inside (s.thr u).code → u = 1 := by
  obtain ⟨s, h, hr, hc⟩ := twoClients_run
  have hin : Inside (s.thr 1).code := hc ▸ inside_twoClients
  exact ⟨s, h, hr, hin, fun u hu => spinlock_mutual_exclusion (fun _ => by decide) hr hu hin⟩

theorem spinlock_flag_set_iff_held_twoClients : ∃ s h, (program Loc).Reach twoClients s h ∧
    Memory.lastVal s.shared .flag = 1 := by
  obtain ⟨s, h, hr, hc⟩ := twoClients_run
  exact ⟨s, h, hr, (spinlock_flag_set_iff_held (fun _ => by decide) hr).2
    ⟨1, hc ▸ inside_twoClients⟩⟩

theorem spinlock_no_data_race_twoClients : ∃ s h, (program Loc).Reach twoClients s h ∧
    (s.thr 1).failed = none ∧ ∀ n, (s.thr 1).view.Sees s.shared (.data n) ∧
      (s.thr 1).view.SeesReads s.shared (.data n) := by
  obtain ⟨s, h, hr, hc⟩ := twoClients_run
  obtain ⟨hf, hsees⟩ := spinlock_no_data_race (fun _ => by decide) hr 1
  exact ⟨s, h, hr, hf, hsees (hc ▸ inside_twoClients)⟩

end ConcurrencyInAction.Atomics.Spinlock
