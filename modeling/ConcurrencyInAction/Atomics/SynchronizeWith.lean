import ConcurrencyInAction.Atomics.Litmus

/-!
# `synchronize_with()`

The synchronizes-with example of `atomic.cpp`: `writer_thread` pushes `42` onto the plain
`std::vector<int> datavec` and then sets `std::atomic<bool> data_ready`; `reader_thread`
loops until it sees `data_ready` set and then prints `datavec[0]`. Both atomic accesses are
sequentially consistent, so the store releases the push and the load that sees it acquires
it.

`datavec` is one non-atomic location, whose writes are the vector's states: the initial one
is the empty vector, and `push_back(42)` writes the vector `{42}`. A plain access races unless
the thread has seen the location's last write. In every run no access races and
`reader_thread` prints `42` only (`synchronizeWith_prints_answer`): in particular it never
reads `datavec[0]` of the empty vector.
-/

namespace ConcurrencyInAction.Atomics.SynchronizeWith

/-- The calling thread and the threads `read` and `write` it starts. -/
inductive Tid
  | main
  | read
  | write
  deriving DecidableEq, Repr

/-- The globals `datavec` and `data_ready`, and the end of each thread. -/
inductive Loc
  | datavec
  | dataReady
  | done (t : Tid)
  deriving DecidableEq, Repr

/-- The globals before the threads start: `datavec` empty and `data_ready{false}`. -/
def memory₀ : Memory Loc := Memory.initial fun _ => 0

/-- `reader_thread`: `while(!data_ready.load())`, sleeping between the loads, then
`std::cout<<"The answer="<<datavec[0]`. -/
def readerThread : List (Instr Loc) := [.await .dataReady .seqCst, .print .datavec none]

/-- `writer_thread`: `datavec.push_back(42); data_ready=true;` -/
def writerThread : List (Instr Loc) := [.write .datavec 42, .store .dataReady 1 .seqCst]

/-- The threads of `synchronize_with()`: `main` joins `read`; `write` is detached. -/
def synchronizeWithThreads : Tid → List (Instr Loc)
  | .main => [join (.done .read)]
  | .read => readerThread ++ [exit (.done .read)]
  | .write => writerThread

/-- `synchronize_with()`. -/
def synchronizeWith : Conf Tid (Memory Loc) (Thread Loc) := init memory₀ synchronizeWithThreads

section Invariant

variable {s : Conf Tid (Memory Loc) (Thread Loc)}

/-- What holds of the memory and of the reader `rd` and the writer `wr` in every run: until
the push `datavec` is empty; after it `datavec` holds `{42}` last and the writer has seen it;
a set `data_ready` comes after the push and releases it; and the reader past its loop has
seen the push. -/
structure State (m : Memory Loc) (rd wr : Thread Loc) : Prop where
  nonempty : ∀ l, m l ≠ []
  unpushed : wr.code = writerThread → m .datavec = memory₀ .datavec
  pushed : wr.code ≠ writerThread →
    (m .datavec).length = 2 ∧ Memory.lastVal m .datavec = 42 ∧ 1 ≤ wr.view.cur .datavec
  ready : ∀ w ∈ m .dataReady, w.val ≠ 0 → wr.code ≠ writerThread ∧ 1 ≤ w.view .datavec
  seen : rd.code ≠ synchronizeWithThreads .read →
    wr.code ≠ writerThread ∧ 1 ≤ rd.view.cur .datavec

/-- The invariant of the example. -/
structure Inv (s : Conf Tid (Memory Loc) (Thread Loc)) : Prop where
  state : State s.shared (s.thr .read) (s.thr .write)
  ok : ∀ t, (s.thr t).failed = none

lemma Inv.set (hI : Inv s) {t : Tid} {g : Memory Loc} {l : Thread Loc}
    (hg : State g ((s.set t g l).thr .read) ((s.set t g l).thr .write)) (hf : l.failed = none) :
    Inv (s.set t g l) := by
  refine ⟨hg, fun u => ?_⟩
  by_cases h : u = t
  · subst h; simpa using hf
  · rw [Conf.set_thr_ne _ _ _ h]; exact hI.ok u

/-- A step of `main` leaves the memory and the other threads alone. -/
lemma Inv.set_main (hI : Inv s) {l : Thread Loc} (hf : l.failed = none) :
    Inv (s.set .main s.shared l) :=
  hI.set (by
    rw [Conf.set_thr_ne _ _ _ (nofun : Tid.read ≠ .main),
      Conf.set_thr_ne _ _ _ (nofun : Tid.write ≠ .main)]
    exact hI.state) hf

/-- The end of `read` releases nothing the invariant looks at. -/
lemma State.exit_read {m : Memory Loc} {rd wr : Thread Loc} (hs : State m rd wr) {rest}
    (hr : rd.code ≠ synchronizeWithThreads .read) {w : Msg Loc} :
    State (Function.update m (.done .read) (m (.done .read) ++ [w]))
      (rd.next rest (rd.view.store m (.done .read) 1 .release).2) wr where
  nonempty _ := Memory.update_append_ne_nil (hs.nonempty _)
  unpushed h := by rw [Function.update_noteq (nofun : Loc.datavec ≠ .done .read)]; exact hs.unpushed h
  pushed h := by
    simp only [Memory.lastVal, Function.update_noteq (nofun : Loc.datavec ≠ .done .read)]
    exact hs.pushed h
  ready w' hw' := hs.ready w' (by rwa [Function.update_noteq (nofun : Loc.dataReady ≠ .done .read)] at hw')
  seen _ := ⟨(hs.seen hr).1, le_trans (hs.seen hr).2 (Nat.le_max_left _ _)⟩

/-- Every step keeps the invariant, and prints only `42`, from `read`. -/
lemma Inv.step (hI : Inv s) {t : Tid} (hsuf : (s.thr t).code <:+ synchronizeWithThreads t)
    (i : Nat) :
    Inv (s.set t (step s.shared (s.thr t) i).1 (step s.shared (s.thr t) i).2.1) ∧
      ∀ v ∈ (step s.shared (s.thr t) i).2.2, t = .read ∧ v = 42 := by
  have hst := hI.state
  have hok := hI.ok t
  have stay : Inv (s.set t s.shared (s.thr t)) := by rw [Conf.set_self]; exact hI
  generalize hth : s.thr t = th at hsuf hok stay ⊢
  obtain ⟨code, tv, f⟩ := th
  obtain rfl : f = none := hok
  cases t with
  | main =>
    simp only [synchronizeWithThreads, join, List.suffix_cons_iff, List.suffix_nil] at hsuf
    rcases hsuf with rfl | rfl
    · -- `read.join()`
      rcases step_await s.shared ⟨_, tv, none⟩ i rfl with h | ⟨v, tv', -, h⟩ <;> rw [h]
      exacts [⟨stay, nofun⟩, ⟨hI.set_main rfl, nofun⟩]
    · rw [step_nil rfl]; exact ⟨stay, nofun⟩
  | read =>
    rw [hth] at hst
    have hw : (s.set .read s.shared ⟨code, tv, none⟩).thr .write = s.thr .write :=
      Conf.set_thr_ne _ _ _ nofun
    simp only [synchronizeWithThreads, readerThread, exit, List.cons_append, List.nil_append,
      List.suffix_cons_iff, List.suffix_nil] at hsuf
    rcases hsuf with rfl | rfl | rfl | rfl
    · -- `while(!data_ready.load())`: acquires the push once it sees `data_ready` set
      rcases step_await s.shared ⟨_, tv, none⟩ i rfl with h | ⟨v, tv', hl, h⟩ <;> rw [h]
      · exact ⟨stay, nofun⟩
      refine ⟨hI.set ?_ rfl, nofun⟩
      simp only [Conf.set_thr_self, Conf.set_thr_ne _ _ _ (nofun : Tid.write ≠ .read)]
      refine ⟨hst.nonempty, hst.unpushed, hst.pushed, hst.ready, fun hr => ?_⟩
      by_cases h0 : v = 0
      · rw [if_pos h0] at hr
        exact absurd rfl hr
      obtain ⟨w, hw', -, rfl, rfl⟩ := TView.load_eq_some hl
      obtain ⟨hp, hv⟩ := hst.ready w (List.getElem?_mem hw') h0
      refine ⟨hp, ?_⟩
      show 1 ≤ max (max _ _) ((if MemoryOrder.seqCst.isAcquire = true then w.view else .bot) _)
      rw [if_pos (show MemoryOrder.seqCst.isAcquire = true from rfl)]
      omega
    · -- `std::cout<<datavec[0]`: a plain read of the push
      obtain ⟨hp, hcur⟩ := hst.seen nofun
      have hcur : 1 ≤ tv.cur .datavec := hcur
      obtain ⟨hlen, hval, -⟩ := hst.pushed hp
      rw [step_read rfl, if_pos (show tv.Sees s.shared .datavec by
        show (s.shared .datavec).length ≤ _
        omega)]
      refine ⟨hI.set ?_ rfl, fun v hv => ⟨by trivial, ?_⟩⟩
      · simp only [Conf.set_thr_self, Conf.set_thr_ne _ _ _ (nofun : Tid.write ≠ .read)]
        refine ⟨fun l => Memory.addReader_ne_nil _ (hst.nonempty l), fun h => absurd h hp,
          fun _ => by simpa [TView.readPlain] using hst.pushed hp, fun w hw' => hst.ready w ?_,
          fun _ => ⟨hp, by simpa [Thread.next] using hcur⟩⟩
        simpa only [TView.readPlain, Memory.addReader_ne _ (nofun : Loc.dataReady ≠ .datavec)]
          using hw'
      · simp only [Option.mem_def, Option.some.injEq] at hv
        rw [← hv]; exact hval
    · -- the end of `read`
      rw [step_store rfl]
      refine ⟨hI.set ?_ rfl, nofun⟩
      simp only [Conf.set_thr_self, Conf.set_thr_ne _ _ _ (nofun : Tid.write ≠ .read)]
      exact hst.exit_read nofun
    · rw [step_nil rfl]; exact ⟨stay, nofun⟩
  | write =>
    rw [hth] at hst
    simp only [synchronizeWithThreads, writerThread, List.suffix_cons_iff, List.suffix_nil]
      at hsuf
    rcases hsuf with rfl | rfl | rfl
    · -- `datavec.push_back(42)`: no race, since nothing wrote `datavec` before
      have hm := hst.unpushed rfl
      rw [step_write rfl, if_pos (show tv.Sees s.shared .datavec ∧ tv.SeesReads s.shared .datavec from
        ⟨by show (s.shared .datavec).length ≤ _; rw [hm]; exact Nat.le_add_left _ _,
          fun j hj => absurd hj (by simp [Memory.lastReaders, hm, memory₀, Memory.initial])⟩)]
      refine ⟨hI.set ?_ rfl, nofun⟩
      simp only [Conf.set_thr_self, Conf.set_thr_ne _ _ _ (nofun : Tid.read ≠ .write),
        TView.store_fst]
      refine ⟨fun _ => Memory.update_append_ne_nil (hst.nonempty _),
        nofun, fun _ => ⟨?_, ?_, ?_⟩,
        fun w hw h0 => absurd rfl (hst.ready w (by rwa [Function.update_noteq (nofun : Loc.dataReady ≠ .datavec)] at hw) h0).1,
        fun hr => absurd rfl (hst.seen hr).1⟩
      · rw [Function.update_same, List.length_append, hm]; rfl
      · rw [Memory.lastVal_update_append, if_pos rfl]
      · show 1 ≤ max _ (View.single Loc.datavec (s.shared Loc.datavec).length Loc.datavec)
        rw [View.single_self, hm]
        exact Nat.le_max_right _ _
    · -- `data_ready=true`: releases the push
      obtain ⟨hlen, hval, hcur⟩ := hst.pushed nofun
      have hnw : ([] : List (Instr Loc)) ≠ writerThread := by decide
      rw [step_store rfl]
      refine ⟨hI.set ?_ rfl, nofun⟩
      simp only [Conf.set_thr_self, Conf.set_thr_ne _ _ _ (nofun : Tid.read ≠ .write),
        TView.store_fst]
      refine ⟨fun _ => Memory.update_append_ne_nil (hst.nonempty _), fun h => absurd h hnw,
        fun _ => ?_, fun w hw h0 => ?_, fun hr => ⟨hnw, (hst.seen hr).2⟩⟩
      · rw [Function.update_noteq (nofun : Loc.datavec ≠ .dataReady), Memory.lastVal_update_append,
          if_neg (nofun : Loc.datavec ≠ .dataReady)]
        exact ⟨hlen, hval, le_trans hcur (Nat.le_max_left _ _)⟩
      · rcases Memory.mem_update_append hw with hw | ⟨-, rfl⟩
        · exact ⟨hnw, (hst.ready w hw h0).2⟩
        · -- `seq_cst` releases: the write carries the writer's view
          exact ⟨hnw, le_trans hcur (Nat.le_max_left _ _)⟩
    · rw [step_nil rfl]; exact ⟨stay, nofun⟩

lemma inv_init : Inv synchronizeWith := by
  refine ⟨⟨fun _ => List.cons_ne_nil _ _, fun _ => rfl, fun h => absurd rfl h,
    fun w hw h0 => ?_, fun h => absurd rfl h⟩, fun _ => rfl⟩
  exact absurd (List.mem_singleton.1 hw ▸ rfl) h0

/-- The invariant holds in every run, and every line printed is `42`, printed by `read`. -/
lemma inv_reach {h : List (Tid × Int)} (hs : (program Loc).Reach synchronizeWith s h) :
    Inv s ∧ ∀ x ∈ h, x = (.read, 42) := by
  induction hs with
  | refl => exact ⟨inv_init, nofun⟩
  | @step s₁ _ t c _ _ e reach hstep ih =>
    have := ih.1.step (reach_code_suffix reach t) c
    rw [show step s₁.shared (s₁.thr t) c = _ from Except.ok.inj hstep] at this
    refine ⟨this.1, fun x hx => ?_⟩
    rcases List.mem_append.1 hx with hx | hx
    · exact ih.2 x hx
    cases e with
    | none => cases hx
    | some v =>
      obtain ⟨rfl, rfl⟩ := this.2 v rfl
      exact List.mem_singleton.1 hx

/-- `reader_thread` sees the push of `writer_thread`: in every run of `synchronize_with()`, no
plain access to `datavec` races, and the only line printed is `reader_thread`'s
`The answer=42`. -/
theorem synchronizeWith_prints_answer {h : List (Tid × Int)}
    (hs : (program Loc).Reach synchronizeWith s h) :
    (∀ t, (s.thr t).failed = none) ∧ ∀ x ∈ h, x = (.read, 42) :=
  ⟨(inv_reach hs).1.ok, (inv_reach hs).2⟩

end Invariant

/-- A run in which `reader_thread` prints its answer. -/
theorem synchronizeWith_prints_answer_run :
    ∃ s h, (program Loc).Reach synchronizeWith s h ∧ (Tid.read, (42 : Int)) ∈ h ∧
      (∀ t, (s.thr t).failed = none) ∧ ∀ x ∈ h, x = (.read, 42) := by
  have key : (match (program Loc).run synchronizeWith
      [(.write, 0), (.write, 0), (.read, 1), (.read, 0), (.read, 0), (.main, 1)] with
    | .ok (_, h) => decide ((Tid.read, (42 : Int)) ∈ h)
    | .error _ => false) = true := by decide
  split at key
  · have hr := Program.reach_of_run ‹_›
    exact ⟨_, _, hr, of_decide_eq_true key, synchronizeWith_prints_answer hr⟩
  · cases key

end ConcurrencyInAction.Atomics.SynchronizeWith
