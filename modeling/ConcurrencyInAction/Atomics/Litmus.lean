import ConcurrencyInAction.Interleaving
import ConcurrencyInAction.Atomics.Memory

/-!
# The statements of `atomic.cpp` and the threads that run them

Each function of `atomic.cpp` that a thread runs is a straight list of statements: stores,
fences, the spin loops `while(!l.load(o));` and `while(l.test_and_set(o));`, the guarded
increment `if(l.load(o)) ++z;`, assertions on a load, and the plain accesses of a non-atomic
location. A thread keeps the statements it has left, its view and, if it stopped early, why:
a failed `assert`, or a data race on a plain location.

A load is nondeterministic: the scheduler's choice names the write it reads. `program` runs
the threads under the release/acquire memory of `Atomics.Memory`; `scProgram` runs them
under sequential consistency, where every load reads the last write of its location, and its
runs are runs of `program`.

The end of a thread synchronises with the `join()` that waits for it; `exit` and `join`
express this as a release store and an acquire spin on a location of the thread's own.
-/

namespace ConcurrencyInAction.Atomics

/-- The statements of the functions of `atomic.cpp`, on locations `Loc`. -/
inductive Instr (Loc : Type)
  /-- `l.store(v, o)`; `l = v` is the sequentially consistent store. -/
  | store (l : Loc) (v : Int) (o : MemoryOrder)
  /-- `std::atomic_thread_fence(o)`. -/
  | fence (o : MemoryOrder)
  /-- `while(!l.load(o));`: spin until a load reads a nonzero value. -/
  | await (l : Loc) (o : MemoryOrder)
  /-- `while(l.test_and_set(o));`: spin until a test-and-set reads zero. -/
  | testAndSet (l : Loc) (o : MemoryOrder)
  /-- `if(l.load(o))` guarding the next statement, which a load reading zero skips. -/
  | ifLoad (l : Loc) (o : MemoryOrder)
  /-- `++l` on an atomic integer: a sequentially consistent `l.fetch_add(1)`. -/
  | increment (l : Loc)
  /-- `assert(l.load(o)==v);` -/
  | assertEq (l : Loc) (o : MemoryOrder) (v : Int)
  /-- `assert(l.load(o)!=v);` -/
  | assertNe (l : Loc) (o : MemoryOrder) (v : Int)
  /-- A plain write of `v` to the non-atomic location `l`. -/
  | write (l : Loc) (v : Int)
  /-- `std::cout << l`: a load of the atomic `l` with order `o`, or a plain read of `l`. -/
  | print (l : Loc) (o : Option MemoryOrder)
  deriving DecidableEq, Repr

/-- Why a thread stopped early: a failed `assert`, which aborts, or a data race on a plain
location, which is undefined behaviour. -/
inductive Failure
  | assertion
  | dataRace
  deriving DecidableEq, Repr

/-- A thread: the statements it has left, its view, and the failure it stopped on. -/
structure Thread (Loc : Type) where
  code : List (Instr Loc)
  view : TView Loc
  failed : Option Failure

variable {Loc : Type} [DecidableEq Loc]

/-- The thread goes on with `code`, having seen `tv`. -/
def Thread.next (th : Thread Loc) (code : List (Instr Loc)) (tv : TView Loc) : Thread Loc :=
  ⟨code, tv, th.failed⟩

/-- The thread stops on failure `f`. -/
def Thread.fail (tv : TView Loc) (f : Failure) : Thread Loc := ⟨[], tv, some f⟩

/-- One step of a thread on memory `m`; a load reads write `i` of its location. A load of a
write that does not exist, or that the thread's view has passed, leaves everything as it is.
The step returns what the thread prints. -/
def step (m : Memory Loc) (th : Thread Loc) (i : Nat) : Memory Loc × Thread Loc × Option Int :=
  match th.code with
  | [] => (m, th, none)
  | .store l v o :: rest =>
    let r := th.view.store m l v o
    (r.1, th.next rest r.2, none)
  | .fence o :: rest => (m, th.next rest (th.view.fence o), none)
  | .await l o :: rest =>
    match th.view.load m l o i with
    | none => (m, th, none)
    | some (v, tv) => (m, th.next (if v = 0 then th.code else rest) tv, none)
  | .testAndSet l o :: rest =>
    match th.view.rmw m l (fun _ => 1) o with
    | none => (m, th, none)
    | some (v, m', tv) => (m', th.next (if v = 0 then rest else th.code) tv, none)
  | .ifLoad l o :: rest =>
    match th.view.load m l o i with
    | none => (m, th, none)
    | some (v, tv) => (m, th.next (if v = 0 then rest.tail else rest) tv, none)
  | .increment l :: rest =>
    match th.view.rmw m l (· + 1) .seqCst with
    | none => (m, th, none)
    | some (_, m', tv) => (m', th.next rest tv, none)
  | .assertEq l o v :: rest =>
    match th.view.load m l o i with
    | none => (m, th, none)
    | some (v', tv) => (m, if v' = v then th.next rest tv else Thread.fail tv .assertion, none)
  | .assertNe l o v :: rest =>
    match th.view.load m l o i with
    | none => (m, th, none)
    | some (v', tv) => (m, if v' ≠ v then th.next rest tv else Thread.fail tv .assertion, none)
  | .write l v :: rest =>
    if th.view.Sees m l ∧ th.view.SeesReads m l then
      let r := th.view.store m l v .relaxed
      (r.1, th.next rest r.2, none)
    else (m, Thread.fail th.view .dataRace, none)
  | .print l (some o) :: rest =>
    match th.view.load m l o i with
    | none => (m, th, none)
    | some (v, tv) => (m, th.next rest tv, some v)
  | .print l none :: rest =>
    if th.view.Sees m l then
      let r := th.view.readPlain m l
      (r.2.1, th.next rest r.2.2, some r.1)
    else (m, Thread.fail th.view .dataRace, none)

/-- The threads under the release/acquire memory: the scheduler picks a thread and the write
its load reads; a step's event is what it prints. -/
def program (Loc : Type) [DecidableEq Loc] : Program (Memory Loc) (Thread Loc) Nat Int :=
  ⟨fun m th i => .ok (step m th i)⟩

/-- The location a statement loads, if it is an atomic load. -/
def Instr.loads : Instr Loc → Option Loc
  | .await l _ | .ifLoad l _ | .assertEq l _ _ | .assertNe l _ _ | .print l (some _) => some l
  | _ => none

/-- Under sequential consistency a load reads the last write of its location. -/
def scChoice (m : Memory Loc) (th : Thread Loc) : Nat :=
  match th.code.head?.bind Instr.loads with
  | some l => (m l).length - 1
  | none => 0

/-- The threads under sequential consistency. -/
def scProgram (Loc : Type) [DecidableEq Loc] : Program (Memory Loc) (Thread Loc) Unit Int :=
  ⟨fun m th _ => .ok (step m th (scChoice m th))⟩

/-- The memory in which location `l` holds only its initial value `v₀ l`. -/
def Memory.initial (v₀ : Loc → Int) : Memory Loc := fun l => [⟨v₀ l, .bot, 0⟩]

/-- The threads started on their functions `code`, on memory `m₀`: what was written before
the threads were created happens before them, so each starts having seen the initial
writes. -/
def init {Tid : Type} (m₀ : Memory Loc) (code : Tid → List (Instr Loc)) :
    Conf Tid (Memory Loc) (Thread Loc) :=
  ⟨m₀, fun t => ⟨code t, .init, none⟩⟩

/-- The end of thread `t`: a release store to its own location `done`. -/
def exit (done : Loc) : Instr Loc := .store done 1 .release

/-- `t.join()`: wait for the end of the thread whose location is `done`. -/
def join (done : Loc) : Instr Loc := .await done .acquire

/-! ### What a step does, statement by statement -/

section Steps

variable {m : Memory Loc} {th : Thread Loc} {i : Nat} {rest : List (Instr Loc)} {l : Loc}
  {o : MemoryOrder}

lemma step_nil (h : th.code = []) : step m th i = (m, th, none) := by
  simp [step, h]

lemma step_store {v : Int} (h : th.code = .store l v o :: rest) :
    step m th i = ((th.view.store m l v o).1, th.next rest (th.view.store m l v o).2, none) := by
  simp [step, h]

lemma step_fence (h : th.code = .fence o :: rest) :
    step m th i = (m, th.next rest (th.view.fence o), none) := by
  simp [step, h]

/-- A load either reads nothing and leaves the thread, or reads `v` into view `tv`. -/
lemma step_await (m : Memory Loc) (th : Thread Loc) (i : Nat)
    (h : th.code = .await l o :: rest) :
    step m th i = (m, th, none) ∨ ∃ v tv, th.view.load m l o i = some (v, tv) ∧
      step m th i = (m, th.next (if v = 0 then th.code else rest) tv, none) := by
  simp only [step, h]
  split
  · exact .inl rfl
  · exact .inr ⟨_, _, ‹_›, rfl⟩

lemma step_ifLoad (m : Memory Loc) (th : Thread Loc) (i : Nat)
    (h : th.code = .ifLoad l o :: rest) :
    step m th i = (m, th, none) ∨ ∃ v tv, th.view.load m l o i = some (v, tv) ∧
      step m th i = (m, th.next (if v = 0 then rest.tail else rest) tv, none) := by
  simp only [step, h]
  split
  · exact .inl rfl
  · exact .inr ⟨_, _, ‹_›, rfl⟩

lemma step_testAndSet (m : Memory Loc) (th : Thread Loc) (i : Nat)
    (h : th.code = .testAndSet l o :: rest) :
    step m th i = (m, th, none) ∨ ∃ v m' tv, th.view.rmw m l (fun _ => 1) o = some (v, m', tv) ∧
      step m th i = (m', th.next (if v = 0 then rest else th.code) tv, none) := by
  simp only [step, h]
  split
  · exact .inl rfl
  · exact .inr ⟨_, _, _, ‹_›, rfl⟩

lemma step_increment (m : Memory Loc) (th : Thread Loc) (i : Nat)
    (h : th.code = .increment l :: rest) :
    step m th i = (m, th, none) ∨ ∃ v m' tv, th.view.rmw m l (· + 1) .seqCst = some (v, m', tv) ∧
      step m th i = (m', th.next rest tv, none) := by
  simp only [step, h]
  split
  · exact .inl rfl
  · exact .inr ⟨_, _, _, ‹_›, rfl⟩

lemma step_assertEq {v : Int} (m : Memory Loc) (th : Thread Loc) (i : Nat)
    (h : th.code = .assertEq l o v :: rest) :
    step m th i = (m, th, none) ∨ ∃ v' tv, th.view.load m l o i = some (v', tv) ∧
      step m th i = (m, if v' = v then th.next rest tv else Thread.fail tv .assertion, none) := by
  simp only [step, h]
  split
  · exact .inl rfl
  · exact .inr ⟨_, _, ‹_›, rfl⟩

lemma step_assertNe {v : Int} (m : Memory Loc) (th : Thread Loc) (i : Nat)
    (h : th.code = .assertNe l o v :: rest) :
    step m th i = (m, th, none) ∨ ∃ v' tv, th.view.load m l o i = some (v', tv) ∧
      step m th i = (m, if v' ≠ v then th.next rest tv else Thread.fail tv .assertion, none) := by
  simp only [step, h]
  split
  · exact .inl rfl
  · exact .inr ⟨_, _, ‹_›, rfl⟩

lemma step_write {v : Int} (h : th.code = .write l v :: rest) :
    step m th i = if th.view.Sees m l ∧ th.view.SeesReads m l then
      ((th.view.store m l v .relaxed).1, th.next rest (th.view.store m l v .relaxed).2, none)
    else (m, Thread.fail th.view .dataRace, none) := by
  simp [step, h]

lemma step_print (m : Memory Loc) (th : Thread Loc) (i : Nat)
    (h : th.code = .print l (some o) :: rest) :
    step m th i = (m, th, none) ∨ ∃ v tv, th.view.load m l o i = some (v, tv) ∧
      step m th i = (m, th.next rest tv, some v) := by
  simp only [step, h]
  split
  · exact .inl rfl
  · exact .inr ⟨_, _, ‹_›, rfl⟩

lemma step_read (h : th.code = .print l none :: rest) :
    step m th i = if th.view.Sees m l then
      ((th.view.readPlain m l).2.1, th.next rest (th.view.readPlain m l).2.2,
        some (th.view.readPlain m l).1)
    else (m, Thread.fail th.view .dataRace, none) := by
  simp [step, h]

end Steps

/-! ### Every run -/

section Runs

variable {Tid : Type} [DecidableEq Tid]

/-- A step leaves a suffix of the statements a thread had. -/
lemma step_code_suffix (m : Memory Loc) (th : Thread Loc) (i : Nat) :
    (step m th i).2.1.code <:+ th.code := by
  rcases th with ⟨_ | ⟨ins, rest⟩, tv, f⟩
  · exact List.suffix_refl _
  have h1 : rest <:+ ins :: rest := List.suffix_cons _ _
  have h2 : rest.tail <:+ ins :: rest := (List.tail_suffix rest).trans h1
  rcases ins with _ | _ | _ | _ | _ | _ | _ | _ | _ | ⟨l, _ | o⟩ <;> simp only [step] <;>
    repeat' split
  all_goals first
    | exact List.suffix_refl _ | exact h1 | exact h2 | exact List.nil_suffix

/-- Every thread runs a suffix of its function. -/
lemma reach_code_suffix {m₀ : Memory Loc} {code : Tid → List (Instr Loc)}
    {s : Conf Tid (Memory Loc) (Thread Loc)} {h : List (Tid × Int)}
    (hr : (program Loc).Reach (init m₀ code) s h) (t : Tid) : (s.thr t).code <:+ code t := by
  induction hr with
  | refl => exact List.suffix_refl _
  | @step s _ u c g l _ _ hs ih =>
    rw [Conf.set_thr]
    split
    · subst u
      have hl : (step s.shared (s.thr t) c).2.1 = l := by rw [Except.ok.inj hs]
      exact hl ▸ (step_code_suffix _ _ c).trans ih
    · exact ih

/-- A run under sequential consistency is a run under release/acquire, in which every load
reads the last write of its location. -/
lemma Reach.of_sc {s₀ s : Conf Tid (Memory Loc) (Thread Loc)} {h : List (Tid × Int)}
    (hr : (scProgram Loc).Reach s₀ s h) : (program Loc).Reach s₀ s h := by
  induction hr with
  | refl => exact .refl
  | step _ hs ih => exact .step (c := scChoice _ _) ih hs

end Runs

end ConcurrencyInAction.Atomics
