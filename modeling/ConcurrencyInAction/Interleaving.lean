import Mathlib.Algebra.Order.BigOperators.Group.Finset
import Mathlib.Algebra.Order.Group.Int

/-!
# Threads interleaving atomic steps

Every concurrent component of the repository is modelled the same way: a shared state, one
local state (program counter and locals) per thread, and a step function saying what one
atomic action of a thread does. A configuration runs by letting any thread take one step.
Threads range over an arbitrary finite type, so the results hold for any number of threads
and for every interleaving.

A step may fault: dereference a null pointer, touch freed memory, free a node twice, take a
remainder by zero, or set a `std::promise` that already holds a value.
A faulting step is not a transition; a component is memory-safe when no reachable
configuration has a faulting step.
-/

namespace ConcurrencyInAction

/-- What an atomic action can do wrong. -/
inductive Fault
  | nullDeref
  | useAfterFree
  | doubleFree
  | divisionByZero
  | promiseAlreadySatisfied
  | intOverflow
  deriving DecidableEq, Repr

/-- A program: one atomic step of a thread with local state `L` on the shared state `G`,
under a scheduler choice `C`. The step may emit a visible event `E` (a call or a return). -/
structure Program (G L C E : Type) where
  step : G → L → C → Except Fault (G × L × Option E)

/-- A configuration: the shared state and the local state of every thread. -/
structure Conf (Tid G L : Type) where
  shared : G
  thr : Tid → L

variable {Tid G L C E G' L' C' : Type}

namespace Conf

/-- How many threads a local-state weight counts, as an integer. -/
def count [Fintype Tid] (s : Conf Tid G L) (f : L → Int) : Int :=
  ∑ u, f (s.thr u)

lemma count_nonneg [Fintype Tid] (s : Conf Tid G L) {f : L → Int} (h : ∀ l, 0 ≤ f l) :
    0 ≤ s.count f :=
  Finset.sum_nonneg (f := fun u => f (s.thr u)) fun u _ => h (s.thr u)

/-- A nonnegative weight whose count is zero vanishes at every thread. -/
lemma count_eq_zero [Fintype Tid] (s : Conf Tid G L) {f : L → Int} (h : ∀ l, 0 ≤ f l)
    (h0 : s.count f = 0) (u : Tid) : f (s.thr u) = 0 :=
  (Finset.sum_eq_zero_iff_of_nonneg (f := fun u => f (s.thr u)) fun u _ => h (s.thr u)).mp h0 u
    (Finset.mem_univ u)

variable [DecidableEq Tid]

/-- The configuration after thread `t` moved to local state `l` and the shared state to `g`. -/
def set (s : Conf Tid G L) (t : Tid) (g : G) (l : L) : Conf Tid G L :=
  ⟨g, Function.update s.thr t l⟩

@[simp] lemma set_shared (s : Conf Tid G L) (t : Tid) (g : G) (l : L) :
    (s.set t g l).shared = g := rfl

@[simp] lemma set_thr_self (s : Conf Tid G L) (t : Tid) (g : G) (l : L) :
    (s.set t g l).thr t = l := by simp [set]

lemma set_thr_ne (s : Conf Tid G L) {t u : Tid} (g : G) (l : L) (h : u ≠ t) :
    (s.set t g l).thr u = s.thr u := by simp [set, h]

@[simp] lemma set_self (s : Conf Tid G L) (t : Tid) : s.set t s.shared (s.thr t) = s := by
  simp [set]

@[simp] lemma set_set (s : Conf Tid G L) (t : Tid) (g g' : G) (l l' : L) :
    (s.set t g l).set t g' l' = s.set t g' l' := by
  simp [set]

/-- Moving the shared state alone. -/
lemma set_shared_only (s : Conf Tid G L) (t : Tid) (g : G) : s.set t g (s.thr t) = ⟨g, s.thr⟩ := by
  simp [set]

lemma set_thr (s : Conf Tid G L) (t : Tid) (g : G) (l : L) (u : Tid) :
    (s.set t g l).thr u = if u = t then l else s.thr u := by
  by_cases h : u = t
  · subst h; simp
  · simp [set_thr_ne _ _ _ h, h]

/-- Moving one thread changes a sum over the threads by that thread's term only. -/
lemma sum_set {M : Type} [AddCommMonoid M] [Fintype Tid] (s : Conf Tid G L) (f : L → M)
    (t : Tid) (g : G) (l : L) :
    ∑ u, f ((s.set t g l).thr u) + f (s.thr t) = ∑ u, f (s.thr u) + f l := by
  have hf : (fun u => f ((s.set t g l).thr u)) = Function.update (fun u => f (s.thr u)) t (f l) := by
    funext u
    by_cases h : u = t
    · subst h; simp
    · simp [set_thr_ne _ _ _ h, h]
  rw [hf, Finset.sum_update_of_mem (Finset.mem_univ t),
    Finset.sum_eq_add_sum_diff_singleton (Finset.mem_univ t) (fun u => f (s.thr u)),
    add_comm (f l), add_assoc, add_comm _ (f (s.thr t)), ← add_assoc, add_comm (f (s.thr t))]

/-- The other threads' terms of a sum are untouched by a move of thread `t`. -/
lemma sum_erase_set {M : Type} [AddCommMonoid M] [Fintype Tid] (s : Conf Tid G L) (f : L → M)
    (t : Tid) (g : G) (l : L) :
    ∑ u ∈ Finset.univ.erase t, f ((s.set t g l).thr u) = ∑ u ∈ Finset.univ.erase t, f (s.thr u) :=
  Finset.sum_congr rfl fun u hu => by rw [set_thr_ne _ _ _ (Finset.ne_of_mem_erase hu)]

/-- Moving one thread changes a count by that thread's weight only. -/
lemma count_set [Fintype Tid] (s : Conf Tid G L) (f : L → Int) (t : Tid) (g : G) (l : L) :
    (s.set t g l).count f = s.count f - f (s.thr t) + f l := by
  have := s.sum_set f t g l
  simp only [count]
  omega

end Conf

namespace Program

variable [DecidableEq Tid]

/-- The configurations that runs from `s₀` reach, with the history of visible events
(each tagged with the thread that emitted it). -/
inductive Reach (P : Program G L C E) (s₀ : Conf Tid G L) :
    Conf Tid G L → List (Tid × E) → Prop
  | refl : Reach P s₀ s₀ []
  | step {s : Conf Tid G L} {h : List (Tid × E)} {t : Tid} {c : C} {g : G} {l : L}
      {e : Option E} (reach : Reach P s₀ s h) (hstep : P.step s.shared (s.thr t) c = .ok (g, l, e)) :
      Reach P s₀ (s.set t g l) (h ++ (e.map (t, ·)).toList)

/-- A configuration that some run from `s₀` reaches. -/
def Reachable (P : Program G L C E) (s₀ s : Conf Tid G L) : Prop :=
  ∃ h : List (Tid × E), P.Reach s₀ s h

/-- No thread of `s` has a step that faults with `f`. -/
def NoFault (P : Program G L C E) (f : Fault) (s : Conf Tid G L) : Prop :=
  ∀ t c, P.step s.shared (s.thr t) c ≠ .error f

variable {P : Program G L C E} {s₀ : Conf Tid G L}

/-- A property that holds at `s₀` and that every step keeps holds at every reachable
configuration. -/
lemma Reach.inv (I : Conf Tid G L → Prop) (init : I s₀)
    (step : ∀ s t c g l e, I s → P.step s.shared (s.thr t) c = .ok (g, l, e) → I (s.set t g l))
    {s : Conf Tid G L} {h : List (Tid × E)} (hr : P.Reach s₀ s h) : I s := by
  induction hr with
  | refl => exact init
  | step _ hs ih => exact step _ _ _ _ _ _ ih hs

lemma Reach.trans {s s' : Conf Tid G L} {h h' : List (Tid × E)} (hr : P.Reach s₀ s h)
    (hr' : P.Reach s s' h') : P.Reach s₀ s' (h ++ h') := by
  induction hr' with
  | refl => simpa using hr
  | step _ hs ih => simpa [List.append_assoc] using Reach.step ih hs

lemma Reach.single {s : Conf Tid G L} {t : Tid} {c : C} {g : G} {l : L} {e : Option E}
    (hs : P.step s.shared (s.thr t) c = .ok (g, l, e)) :
    P.Reach s (s.set t g l) (e.map (t, ·)).toList := by
  simpa using Reach.step Reach.refl hs

/-- Forward simulation of the runs whose events all satisfy `ok`: if every step from a
configuration related by `R` to one of `Q`, with events satisfying `ok`, is matched by a run of
`Q` with the same visible events, then every such history of `P` from `s₀` is a history of `Q`
from `a₀`, ending in related configurations. -/
lemma Reach.simulate_of {Q : Program G' L' C' E} (ok : Tid × E → Prop)
    (R : Conf Tid G L → Conf Tid G' L' → Prop) {a₀ : Conf Tid G' L'} (init : R s₀ a₀)
    (sim : ∀ s a t c g l e, R s a → P.step s.shared (s.thr t) c = .ok (g, l, e) →
      (∀ x ∈ (e.map (t, ·)).toList, ok x) →
      ∃ a', Q.Reach a a' (e.map (t, ·)).toList ∧ R (s.set t g l) a')
    {s : Conf Tid G L} {h : List (Tid × E)} (hr : P.Reach s₀ s h) (hok : ∀ x ∈ h, ok x) :
    ∃ a, Q.Reach a₀ a h ∧ R s a := by
  induction hr with
  | refl => exact ⟨a₀, Reach.refl, init⟩
  | step _ hs ih =>
    obtain ⟨a, ha, hR⟩ := ih fun x hx => hok x (List.mem_append_left _ hx)
    obtain ⟨a', ha', hR'⟩ := sim _ _ _ _ _ _ _ hR hs fun x hx => hok x (List.mem_append_right _ hx)
    exact ⟨a', ha.trans ha', hR'⟩

/-- Forward simulation: if every step from a configuration related by `R` to one of `Q` is
matched by a run of `Q` with the same visible events, then every history of `P` from `s₀` is
a history of `Q` from `a₀`, ending in related configurations. -/
lemma Reach.simulate {Q : Program G' L' C' E} (R : Conf Tid G L → Conf Tid G' L' → Prop)
    {a₀ : Conf Tid G' L'} (init : R s₀ a₀)
    (sim : ∀ s a t c g l e, R s a → P.step s.shared (s.thr t) c = .ok (g, l, e) →
      ∃ a', Q.Reach a a' (e.map (t, ·)).toList ∧ R (s.set t g l) a')
    {s : Conf Tid G L} {h : List (Tid × E)} (hr : P.Reach s₀ s h) :
    ∃ a, Q.Reach a₀ a h ∧ R s a :=
  hr.simulate_of (fun _ => True) R init (fun _ _ _ _ _ _ _ hR hs _ => sim _ _ _ _ _ _ _ hR hs)
    fun _ _ => trivial

/-- The configurations a run from `s₀` passes through, the latest first. Properties of a
run's history ("since a step at which ...") are stated over these lists. -/
inductive Run (P : Program G L C E) (s₀ : Conf Tid G L) : List (Conf Tid G L) → Prop
  | start : Run P s₀ [s₀]
  | step {s : Conf Tid G L} {cs : List (Conf Tid G L)} {t : Tid} {c : C} {g : G} {l : L}
      {e : Option E} (run : Run P s₀ (s :: cs))
      (hstep : P.step s.shared (s.thr t) c = .ok (g, l, e)) : Run P s₀ (s.set t g l :: s :: cs)

/-- Every configuration a run passes through is reachable. -/
lemma Run.reachable {cs : List (Conf Tid G L)} (hr : P.Run s₀ cs) {s : Conf Tid G L}
    (hs : s ∈ cs) : P.Reachable s₀ s := by
  induction hr generalizing s with
  | start => exact List.mem_singleton.1 hs ▸ ⟨[], Reach.refl⟩
  | step _ hstep ih =>
    rcases List.mem_cons.1 hs with rfl | hs
    · obtain ⟨h, hr⟩ := ih (List.mem_cons_self _ _)
      exact ⟨_, hr.step hstep⟩
    · exact ih hs

/-- Every reachable configuration ends a run. -/
lemma Reach.run {s : Conf Tid G L} {h : List (Tid × E)} (hr : P.Reach s₀ s h) :
    ∃ cs, P.Run s₀ (s :: cs) := by
  induction hr with
  | refl => exact ⟨[], Run.start⟩
  | step _ hs ih =>
    obtain ⟨cs, hcs⟩ := ih
    exact ⟨_, hcs.step hs⟩

/-- Run a schedule: each entry names the thread that moves and the scheduler's choice. -/
def run (P : Program G L C E) (s : Conf Tid G L) :
    List (Tid × C) → Except Fault (Conf Tid G L × List (Tid × E))
  | [] => .ok (s, [])
  | (t, c) :: rest =>
    match P.step s.shared (s.thr t) c with
    | .error f => .error f
    | .ok (g, l, e) =>
      match P.run (s.set t g l) rest with
      | .error f => .error f
      | .ok (s', h) => .ok (s', (e.map (t, ·)).toList ++ h)

/-- A schedule that runs without fault reaches its final configuration. -/
lemma reach_of_run {s s' : Conf Tid G L} {h : List (Tid × E)} :
    ∀ {sched : List (Tid × C)}, P.run s sched = .ok (s', h) → P.Reach s s' h
  | [], hrun => by
    cases hrun
    exact Reach.refl
  | (t, c) :: rest, hrun => by
    simp only [run] at hrun
    split at hrun
    · cases hrun
    · rename_i g l e hs
      split at hrun
      · cases hrun
      · rename_i s₁ h₁ hrest
        cases hrun
        exact (Reach.single hs).trans (reach_of_run hrest)

/-- The step of `t` under `c` faults with `f`. -/
def faults (P : Program G L C E) (f : Fault) (t : Tid) (c : C) (s : Conf Tid G L) : Bool :=
  match P.step s.shared (s.thr t) c with
  | .error f' => f' == f
  | .ok _ => false

omit [DecidableEq Tid] in
lemma not_noFault_of_faults {s : Conf Tid G L} {f : Fault} {t : Tid} {c : C}
    (h : P.faults f t c s = true) : ¬ P.NoFault f s := fun hn => by
  unfold faults at h
  split at h
  · rename_i f' hs
    obtain rfl : f' = f := by simpa using h
    exact hn t c hs
  · cases h

/-- The schedule runs without fault and `pred` holds at its end. Decidable on concrete
schedules, so a run can be exhibited by evaluation. -/
def holdsAfter (P : Program G L C E) (s : Conf Tid G L) (sched : List (Tid × C))
    (pred : Conf Tid G L → Bool) : Bool :=
  match P.run s sched with
  | .error _ => false
  | .ok (s', _) => pred s'

lemma reach_of_holdsAfter {s : Conf Tid G L} {sched : List (Tid × C)}
    {pred : Conf Tid G L → Bool} (h : P.holdsAfter s sched pred = true) :
    ∃ s' h, P.Reach s s' h ∧ pred s' = true := by
  unfold holdsAfter at h
  split at h
  · cases h
  · rename_i s' h' hrun
    exact ⟨s', h', reach_of_run hrun, h⟩

end Program

end ConcurrencyInAction
