import Mathlib.Logic.Relation
import ConcurrencyInAction.Interleaving

/-!
# `hierarchical_mutex`

The lock hierarchy of `data_sharing.cpp`. Every mutex has a fixed `hierarchy_value`; every
thread has a `this_thread_hierarchy_value`, `ULONG_MAX` at the start. `lock` and `try_lock`
throw `logic_error` unless the thread's value is above the mutex's, and after acquiring the
internal mutex save the thread's value in the mutex (`previous_hierarchy_value`) and lower the
thread's value to the mutex's. `unlock` restores the thread's value from the mutex.

The saved value is that of the mutex, not of the thread's own history: a thread that unlocks
out of order restores the value saved when that mutex was locked, not the minimum of what it
still holds. With last-in-first-out unlocking the thread's value is the least value it holds,
so every acquisition goes strictly down the hierarchy and no cycle of waiting threads forms.

Threads run calls chosen by a client that unlocks only mutexes it holds; with `lifo` it
unlocks the one it locked last. The list of held mutexes is the client's own record (a ghost
variable the code does not have); every step is one access to the mutex or to the thread's
value, and a `lock` on a mutex another thread owns waits.
-/

namespace ConcurrencyInAction

namespace HierarchicalMutex

/-- `ULONG_MAX`, the initial `this_thread_hierarchy_value`. -/
def ulongMax : Nat := 2 ^ 64 - 1

/-- The calls of `hierarchical_mutex`. -/
inductive Op (M : Type)
  | lock (m : M)
  | tryLock (m : M)
  | unlock (m : M)
  deriving DecidableEq, Repr

/-- Visible events: a call, a return (`try_lock` returns whether it acquired), or the
`logic_error` of a hierarchy violation. -/
inductive Event (M : Type)
  | call (op : Op M)
  | ret
  | tryRet (ok : Bool)
  | violation
  deriving DecidableEq, Repr

/-- The mutexes: the owner of each internal mutex, and `previous_hierarchy_value`. -/
structure Shared (M Tid : Type) where
  owner : M → Option Tid
  previous : M → Nat

/-- Program counters of the three calls. -/
inductive Pc (M : Type)
  | idle
  /-- `lock()`: `check_for_hierarchy_violation()`. -/
  | lockCheck (m : M)
  /-- `internal_mutex.lock()`, waiting while another thread owns it. -/
  | lockAcquire (m : M)
  /-- `update_hierarchy_value()`. -/
  | lockUpdate (m : M)
  /-- `try_lock()`: `check_for_hierarchy_violation()`. -/
  | tryCheck (m : M)
  /-- `if(!internal_mutex.try_lock()) return false;`. -/
  | tryAcquire (m : M)
  /-- `update_hierarchy_value(); return true;`. -/
  | tryUpdate (m : M)
  /-- `unlock()`: `this_thread_hierarchy_value=previous_hierarchy_value`. -/
  | unlockRestore (m : M)
  /-- `internal_mutex.unlock()`. -/
  | unlockRelease (m : M)
  deriving DecidableEq, Repr

/-- A thread: its id, `this_thread_hierarchy_value`, the mutexes it holds (last locked first,
the client's record), and where it is. -/
structure Local (M Tid : Type) where
  self : Tid
  value : Nat
  held : List M
  pc : Pc M

/-- Scheduler choices: the client calls an operation, or a step runs. -/
inductive Choice (M : Type)
  | call (op : Op M)
  | go
  deriving DecidableEq, Repr

variable {M Tid : Type}

section Code

variable [DecidableEq M]

/-- The client unlocks only a mutex it holds; with `lifo`, the one it locked last. -/
def unlockAllowed (lifo : Bool) (held : List M) (m : M) : Bool :=
  if lifo then held.head? = some m else m ∈ held

/-- One step of a thread, for mutexes with hierarchy values `hierarchy`. -/
def step (hierarchy : M → Nat) (lifo : Bool) (g : Shared M Tid) (l : Local M Tid) :
    Choice M → Except Fault (Shared M Tid × Local M Tid × Option (Event M))
  | .call op =>
    match l.pc, op with
    | .idle, .lock m => .ok (g, { l with pc := .lockCheck m }, some (.call (.lock m)))
    | .idle, .tryLock m => .ok (g, { l with pc := .tryCheck m }, some (.call (.tryLock m)))
    | .idle, .unlock m =>
      if unlockAllowed lifo l.held m then
        .ok (g, { l with pc := .unlockRestore m }, some (.call (.unlock m)))
      else .ok (g, l, none)
    | _, _ => .ok (g, l, none)
  | .go =>
    match l.pc with
    | .idle => .ok (g, l, none)
    | .lockCheck m =>
      if l.value ≤ hierarchy m then .ok (g, { l with pc := .idle }, some .violation)
      else .ok (g, { l with pc := .lockAcquire m }, none)
    | .lockAcquire m =>
      match g.owner m with
      | none => .ok ({ g with owner := Function.update g.owner m (some l.self) },
          { l with held := m :: l.held, pc := .lockUpdate m }, none)
      | some _ => .ok (g, l, none)
    | .lockUpdate m =>
      .ok ({ g with previous := Function.update g.previous m l.value },
        { l with value := hierarchy m, pc := .idle }, some .ret)
    | .tryCheck m =>
      if l.value ≤ hierarchy m then .ok (g, { l with pc := .idle }, some .violation)
      else .ok (g, { l with pc := .tryAcquire m }, none)
    | .tryAcquire m =>
      match g.owner m with
      | none => .ok ({ g with owner := Function.update g.owner m (some l.self) },
          { l with held := m :: l.held, pc := .tryUpdate m }, none)
      | some _ => .ok (g, { l with pc := .idle }, some (.tryRet false))
    | .tryUpdate m =>
      .ok ({ g with previous := Function.update g.previous m l.value },
        { l with value := hierarchy m, pc := .idle }, some (.tryRet true))
    | .unlockRestore m => .ok (g, { l with value := g.previous m, pc := .unlockRelease m }, none)
    | .unlockRelease m =>
      .ok ({ g with owner := Function.update g.owner m none },
        { l with held := l.held.erase m, pc := .idle }, some .ret)

/-- The mutexes and their clients as a program. -/
def hierarchicalMutex (hierarchy : M → Nat) (lifo : Bool) :
    Program (Shared M Tid) (Local M Tid) (Choice M) (Event M) :=
  ⟨step hierarchy lifo⟩

/-- Mutexes just constructed (`previous_hierarchy_value(0)`), no owner, every thread idle
at `ULONG_MAX`. -/
def init : Conf Tid (Shared M Tid) (Local M Tid) :=
  ⟨⟨fun _ => none, fun _ => 0⟩, fun t => ⟨t, ulongMax, [], .idle⟩⟩

/-! ### What a step can do -/

/-- The transitions of a thread, one constructor per branch of the code. -/
inductive Move (hierarchy : M → Nat) (lifo : Bool) :
    Shared M Tid → Local M Tid → Shared M Tid → Local M Tid → Option (Event M) → Prop
  | callLock (g : Shared M Tid) (l : Local M Tid) (m : M) (h : l.pc = .idle) :
      Move hierarchy lifo g l g { l with pc := .lockCheck m } (some (.call (.lock m)))
  | callTry (g : Shared M Tid) (l : Local M Tid) (m : M) (h : l.pc = .idle) :
      Move hierarchy lifo g l g { l with pc := .tryCheck m } (some (.call (.tryLock m)))
  | callUnlock (g : Shared M Tid) (l : Local M Tid) (m : M) (h : l.pc = .idle)
      (ha : unlockAllowed lifo l.held m = true) :
      Move hierarchy lifo g l g { l with pc := .unlockRestore m } (some (.call (.unlock m)))
  | stay (g : Shared M Tid) (l : Local M Tid) : Move hierarchy lifo g l g l none
  | violation (g : Shared M Tid) (l : Local M Tid) (m : M)
      (h : l.pc = .lockCheck m ∨ l.pc = .tryCheck m) (hv : l.value ≤ hierarchy m) :
      Move hierarchy lifo g l g { l with pc := .idle } (some .violation)
  | passLock (g : Shared M Tid) (l : Local M Tid) (m : M) (h : l.pc = .lockCheck m)
      (hv : hierarchy m < l.value) : Move hierarchy lifo g l g { l with pc := .lockAcquire m } none
  | passTry (g : Shared M Tid) (l : Local M Tid) (m : M) (h : l.pc = .tryCheck m)
      (hv : hierarchy m < l.value) : Move hierarchy lifo g l g { l with pc := .tryAcquire m } none
  | acquireLock (g : Shared M Tid) (l : Local M Tid) (m : M) (h : l.pc = .lockAcquire m)
      (hf : g.owner m = none) :
      Move hierarchy lifo g l { g with owner := Function.update g.owner m (some l.self) }
        { l with held := m :: l.held, pc := .lockUpdate m } none
  | acquireTry (g : Shared M Tid) (l : Local M Tid) (m : M) (h : l.pc = .tryAcquire m)
      (hf : g.owner m = none) :
      Move hierarchy lifo g l { g with owner := Function.update g.owner m (some l.self) }
        { l with held := m :: l.held, pc := .tryUpdate m } none
  | tryFail (g : Shared M Tid) (l : Local M Tid) (m : M) (h : l.pc = .tryAcquire m) :
      Move hierarchy lifo g l g { l with pc := .idle } (some (.tryRet false))
  | updateLock (g : Shared M Tid) (l : Local M Tid) (m : M) (h : l.pc = .lockUpdate m) :
      Move hierarchy lifo g l { g with previous := Function.update g.previous m l.value }
        { l with value := hierarchy m, pc := .idle } (some .ret)
  | updateTry (g : Shared M Tid) (l : Local M Tid) (m : M) (h : l.pc = .tryUpdate m) :
      Move hierarchy lifo g l { g with previous := Function.update g.previous m l.value }
        { l with value := hierarchy m, pc := .idle } (some (.tryRet true))
  | restore (g : Shared M Tid) (l : Local M Tid) (m : M) (h : l.pc = .unlockRestore m) :
      Move hierarchy lifo g l g { l with value := g.previous m, pc := .unlockRelease m } none
  | release (g : Shared M Tid) (l : Local M Tid) (m : M) (h : l.pc = .unlockRelease m) :
      Move hierarchy lifo g l { g with owner := Function.update g.owner m none }
        { l with held := l.held.erase m, pc := .idle } (some .ret)

lemma move_of_step {hierarchy : M → Nat} {lifo : Bool} {g g' : Shared M Tid}
    {l l' : Local M Tid} {c : Choice M} {e : Option (Event M)}
    (h : step hierarchy lifo g l c = .ok (g', l', e)) : Move hierarchy lifo g l g' l' e := by
  obtain ⟨self, value, held, pc⟩ := l
  have done : ∀ {x : Shared M Tid × Local M Tid × Option (Event M)},
      (.ok x : Except Fault _) = .ok (g', l', e) → x = (g', l', e) := fun h => by cases h; rfl
  cases c with
  | call op =>
    cases pc <;> cases op <;> simp only [step] at h
    case idle.lock m => cases done h; exact .callLock _ _ m rfl
    case idle.tryLock m => cases done h; exact .callTry _ _ m rfl
    case idle.unlock m =>
      split at h
      · cases done h; exact .callUnlock _ _ m rfl ‹_›
      · cases done h; exact .stay _ _
    all_goals cases done h; exact .stay _ _
  | go =>
    cases pc with
    | idle => cases done h; exact .stay _ _
    | lockCheck m =>
      simp only [step] at h
      split at h <;> cases done h
      exacts [.violation _ _ m (.inl rfl) ‹_›, .passLock _ _ m rfl (by simp only; omega)]
    | tryCheck m =>
      simp only [step] at h
      split at h <;> cases done h
      exacts [.violation _ _ m (.inr rfl) ‹_›, .passTry _ _ m rfl (by simp only; omega)]
    | lockAcquire m =>
      simp only [step] at h
      split at h <;> cases done h
      exacts [.acquireLock _ _ m rfl ‹_›, .stay _ _]
    | tryAcquire m =>
      simp only [step] at h
      split at h <;> cases done h
      exacts [.acquireTry _ _ m rfl ‹_›, .tryFail _ _ m rfl]
    | lockUpdate m => cases done h; exact .updateLock _ _ m rfl
    | tryUpdate m => cases done h; exact .updateTry _ _ m rfl
    | unlockRestore m => cases done h; exact .restore _ _ m rfl
    | unlockRelease m => cases done h; exact .release _ _ m rfl

end Code

/-! ### The thread's value under last-in-first-out unlocking -/

/-- The value of the least mutex of a last-locked-first list: the first one's, or
`ULONG_MAX`. -/
def valueOf (hierarchy : M → Nat) : List M → Nat
  | [] => ulongMax
  | m :: _ => hierarchy m

@[simp] lemma valueOf_nil (hierarchy : M → Nat) : valueOf hierarchy [] = ulongMax := rfl

@[simp] lemma valueOf_cons (hierarchy : M → Nat) (m : M) (rest : List M) :
    valueOf hierarchy (m :: rest) = hierarchy m := rfl

/-- Every mutex of the list is below all those locked before it. -/
def Ordered (hierarchy : M → Nat) : List M → Prop
  | [] => True
  | m :: rest => hierarchy m < valueOf hierarchy rest ∧ Ordered hierarchy rest

/-- Every mutex of the list is below all those locked before it, and saved the value of the
one locked just before it as its `previous_hierarchy_value`. -/
def Chained (hierarchy previous : M → Nat) : List M → Prop
  | [] => True
  | m :: rest =>
    previous m = valueOf hierarchy rest ∧ hierarchy m < valueOf hierarchy rest ∧
      Chained hierarchy previous rest

section Lists

variable {hierarchy previous : M → Nat}

lemma Ordered.valueOf_le : ∀ {l : List M}, Ordered hierarchy l → ∀ {m : M}, m ∈ l →
    valueOf hierarchy l ≤ hierarchy m
  | [], _, _, hm => absurd hm (List.not_mem_nil _)
  | x :: rest, ⟨hx, hr⟩, m, hm => by
    rcases List.mem_cons.mp hm with rfl | hm
    · exact le_rfl
    · exact (hx.trans_le (hr.valueOf_le hm)).le

lemma Ordered.not_mem {m : M} {rest : List M} (h : Ordered hierarchy (m :: rest)) :
    m ∉ rest := fun hm => absurd (h.2.valueOf_le hm) (not_le.mpr h.1)

lemma Chained.ordered : ∀ {l : List M}, Chained hierarchy previous l → Ordered hierarchy l
  | [], _ => trivial
  | _ :: _, ⟨_, hlt, hr⟩ => ⟨hlt, hr.ordered⟩

/-- `Chained` reads `previous_hierarchy_value` of the listed mutexes only. -/
lemma Chained.congr {previous' : M → Nat} : ∀ {l : List M}, Chained hierarchy previous l →
    (∀ m ∈ l, previous' m = previous m) → Chained hierarchy previous' l
  | [], _, _ => trivial
  | m :: _, ⟨hp, hlt, hr⟩, h =>
    ⟨(h m (List.mem_cons_self _ _)).trans hp, hlt,
      hr.congr fun x hx => h x (List.mem_cons_of_mem _ hx)⟩

end Lists

/-- What a thread's value and its record say, at each point of a call. -/
def ThreadOk (hierarchy previous : M → Nat) (l : Local M Tid) : Prop :=
  match l.pc with
  | .idle | .lockCheck _ | .tryCheck _ =>
    l.value = valueOf hierarchy l.held ∧ Chained hierarchy previous l.held
  | .lockAcquire m | .tryAcquire m =>
    l.value = valueOf hierarchy l.held ∧ Chained hierarchy previous l.held ∧ hierarchy m < l.value
  | .lockUpdate m | .tryUpdate m =>
    ∃ rest, l.held = m :: rest ∧ l.value = valueOf hierarchy rest ∧ hierarchy m < l.value ∧
      Chained hierarchy previous rest
  | .unlockRestore m =>
    ∃ rest, l.held = m :: rest ∧ l.value = valueOf hierarchy l.held ∧
      Chained hierarchy previous l.held
  | .unlockRelease m =>
    ∃ rest, l.held = m :: rest ∧ l.value = valueOf hierarchy rest ∧ hierarchy m < l.value ∧
      Chained hierarchy previous rest

section Invariant

variable {hierarchy previous : M → Nat}

lemma ThreadOk.ordered {l : Local M Tid} (h : ThreadOk hierarchy previous l) :
    Ordered hierarchy l.held := by
  unfold ThreadOk at h
  split at h
  all_goals first
    | exact h.2.ordered
    | exact h.2.1.ordered
    | (obtain ⟨rest, hl, hv, hlt, hc⟩ := h; rw [hl]; exact ⟨hv ▸ hlt, hc.ordered⟩)
    | (obtain ⟨rest, hl, -, hc⟩ := h; rw [hl] at hc ⊢; exact hc.ordered)

/-- A thread's invariant reads `previous_hierarchy_value` of the mutexes it holds only. -/
lemma ThreadOk.congr {l : Local M Tid} {previous' : M → Nat} (h : ThreadOk hierarchy previous l)
    (hp : ∀ m ∈ l.held, previous' m = previous m) : ThreadOk hierarchy previous' l := by
  unfold ThreadOk at h ⊢
  split at h
  all_goals first
    | exact ⟨h.1, h.2.congr hp⟩
    | exact ⟨h.1, h.2.1.congr hp, h.2.2⟩
    | (obtain ⟨rest, hl, hv, hlt, hc⟩ := h
       exact ⟨rest, hl, hv, hlt, hc.congr fun x hx => hp x (hl ▸ List.mem_cons_of_mem _ hx)⟩)
    | (obtain ⟨rest, hl, hv, hc⟩ := h; exact ⟨rest, hl, hv, hc.congr hp⟩)

/-- The invariant: every thread knows its id, holds exactly the mutexes it owns, and its
value and record agree as `ThreadOk` says. -/
structure Inv (hierarchy : M → Nat) (s : Conf Tid (Shared M Tid) (Local M Tid)) : Prop where
  self : ∀ t, (s.thr t).self = t
  owner : ∀ t m, s.shared.owner m = some t ↔ m ∈ (s.thr t).held
  thread : ∀ t, ThreadOk hierarchy s.shared.previous (s.thr t)

variable [DecidableEq Tid] {s : Conf Tid (Shared M Tid) (Local M Tid)} {t : Tid}

/-- The invariant after thread `t` moved to `l` and the mutexes to `g`: `t`'s part is
checked, the other threads' follows when their owned mutexes and saved values are unchanged. -/
lemma Inv.set (hI : Inv hierarchy s) {g : Shared M Tid} {l : Local M Tid} (hs : l.self = t)
    (ho : ∀ m, g.owner m = some t ↔ m ∈ l.held) (hl : ThreadOk hierarchy g.previous l)
    (hou : ∀ u m, u ≠ t → (g.owner m = some u ↔ s.shared.owner m = some u))
    (hp : ∀ u m, u ≠ t → m ∈ (s.thr u).held → g.previous m = s.shared.previous m) :
    Inv hierarchy (s.set t g l) where
  self u := by
    by_cases hu : u = t
    · subst hu; simpa using hs
    · rw [Conf.set_thr_ne _ _ _ hu]; exact hI.self u
  owner u m := by
    by_cases hu : u = t
    · subst hu; simpa using ho m
    · rw [Conf.set_thr_ne _ _ _ hu, Conf.set_shared, hou u m hu]; exact hI.owner u m
  thread u := by
    by_cases hu : u = t
    · subst hu; simpa using hl
    · rw [Conf.set_thr_ne _ _ _ hu]; exact (hI.thread u).congr (hp u · hu)

/-- A step that touches no mutex and keeps the thread's record. -/
lemma Inv.set_local (hI : Inv hierarchy s) {l : Local M Tid} (hs : l.self = (s.thr t).self)
    (hh : l.held = (s.thr t).held) (hl : ThreadOk hierarchy s.shared.previous l) :
    Inv hierarchy (s.set t s.shared l) :=
  hI.set (hs.trans (hI.self t)) (fun m => hh ▸ hI.owner t m) hl (fun _ _ _ => Iff.rfl)
    fun _ _ _ _ => rfl

variable [DecidableEq M]

/-- `internal_mutex.lock()` or `try_lock()` takes a free mutex. -/
lemma Inv.acquire (hI : Inv hierarchy s) {m : M} (hf : s.shared.owner m = none)
    {l : Local M Tid} (hs : l.self = t) (hh : l.held = m :: (s.thr t).held)
    (hl : ThreadOk hierarchy s.shared.previous l) :
    Inv hierarchy
      (s.set t { s.shared with owner := Function.update s.shared.owner m (some (s.thr t).self) }
        l) := by
  rw [hI.self t]
  refine hI.set hs (fun x => ?_) hl (fun u x hu => ?_) fun _ _ _ _ => rfl
  · by_cases hx : x = m
    · subst hx; simp [hh]
    · simp [hh, hx, hI.owner t x]
  · by_cases hx : x = m
    · subst hx; simp [hf, Ne.symm hu]
    · simp [hx]

/-- `update_hierarchy_value()`: the thread saves its value in a mutex it holds. -/
lemma Inv.update (hI : Inv hierarchy s) {m : M} (hm : m ∈ (s.thr t).held) {l : Local M Tid}
    (hs : l.self = t) (hh : l.held = (s.thr t).held)
    (hl : ThreadOk hierarchy (Function.update s.shared.previous m (s.thr t).value) l) :
    Inv hierarchy
      (s.set t { s.shared with previous := Function.update s.shared.previous m (s.thr t).value }
        l) := by
  refine hI.set hs (fun x => hh ▸ hI.owner t x) hl (fun _ _ _ => Iff.rfl) fun u x hu hx => ?_
  have hne : x ≠ m := fun h => by
    subst h
    exact hu (Option.some.inj (((hI.owner u x).mpr hx).symm.trans ((hI.owner t x).mpr hm)))
  simp [hne]

/-- `internal_mutex.unlock()` gives up the mutex the thread locked last. -/
lemma Inv.release (hI : Inv hierarchy s) {m : M} {rest : List M}
    (hm : (s.thr t).held = m :: rest) {l : Local M Tid} (hs : l.self = t) (hh : l.held = rest)
    (hl : ThreadOk hierarchy s.shared.previous l) :
    Inv hierarchy (s.set t { s.shared with owner := Function.update s.shared.owner m none } l) := by
  have hnot : m ∉ rest := by
    have := (hI.thread t).ordered
    rw [hm] at this
    exact this.not_mem
  have ht : s.shared.owner m = some t := (hI.owner t m).mpr (by simp [hm])
  refine hI.set hs (fun x => ?_) hl (fun u x hu => ?_) fun _ _ _ _ => rfl
  · by_cases hx : x = m
    · subst hx; simp [hh, hnot]
    · simp [hh, hx, hI.owner t x, hm]
  · by_cases hx : x = m
    · subst hx; simp [ht, Ne.symm hu]
    · simp [hx]

/-- The thread's saved values after `update_hierarchy_value()` on the mutex it just locked:
the mutex saves the value of the one locked before it. -/
lemma Chained.update {previous : M → Nat} {m : M} {rest : List M}
    (hlt : hierarchy m < valueOf hierarchy rest) (hc : Chained hierarchy previous rest) :
    Chained hierarchy (Function.update previous m (valueOf hierarchy rest)) (m :: rest) := by
  have hm : m ∉ rest := Ordered.not_mem (m := m) ⟨hlt, hc.ordered⟩
  refine ⟨by simp, hlt, hc.congr fun x hx => ?_⟩
  rw [Function.update_noteq (ne_of_mem_of_not_mem hx hm)]

/-- With last-in-first-out unlocking, every step keeps the invariant. -/
lemma Inv.step (hI : Inv hierarchy s) {c : Choice M} {g : Shared M Tid} {l : Local M Tid}
    {e : Option (Event M)} (h : step hierarchy true s.shared (s.thr t) c = .ok (g, l, e)) :
    Inv hierarchy (s.set t g l) := by
  have hok := hI.thread t
  cases move_of_step h with
  | stay => simpa using hI
  | callLock m hpc | callTry m hpc =>
    exact hI.set_local rfl rfl (by simpa [ThreadOk, hpc] using hok)
  | callUnlock m hpc ha =>
    obtain ⟨rest, hrest⟩ := List.head?_eq_some_iff.mp (by simpa [unlockAllowed] using ha)
    simp only [ThreadOk, hpc] at hok
    exact hI.set_local rfl rfl ⟨rest, hrest, hok⟩
  | violation m hpc hv =>
    refine hI.set_local rfl rfl ?_
    rcases hpc with hpc | hpc <;> simpa [ThreadOk, hpc] using hok
  | passLock m hpc hv | passTry m hpc hv =>
    simp only [ThreadOk, hpc] at hok
    exact hI.set_local rfl rfl ⟨hok.1, hok.2, hv⟩
  | acquireLock m hpc hf | acquireTry m hpc hf =>
    simp only [ThreadOk, hpc] at hok
    exact hI.acquire hf (hI.self t) rfl ⟨_, rfl, hok.1, hok.2.2, hok.2.1⟩
  | tryFail m hpc =>
    simp only [ThreadOk, hpc] at hok
    exact hI.set_local rfl rfl ⟨hok.1, hok.2.1⟩
  | updateLock m hpc | updateTry m hpc =>
    simp only [ThreadOk, hpc] at hok
    obtain ⟨rest, hrest, hv, hlt, hc⟩ := hok
    refine hI.update (by simp [hrest]) (hI.self t) rfl ⟨by simp [hrest], ?_⟩
    rw [hrest, hv]
    exact Chained.update (hv ▸ hlt) hc
  | restore m hpc =>
    simp only [ThreadOk, hpc] at hok
    obtain ⟨rest, hrest, -, hc⟩ := hok
    rw [hrest] at hc
    exact hI.set_local rfl rfl ⟨rest, hrest, hc.1, hc.1 ▸ hc.2.1, hc.2.2⟩
  | release m hpc =>
    simp only [ThreadOk, hpc] at hok
    obtain ⟨rest, hrest, hv, -, hc⟩ := hok
    have herase : (s.thr t).held.erase m = rest := by rw [hrest, List.erase_cons_head]
    exact hI.release hrest (hI.self t) herase ⟨herase ▸ hv, herase ▸ hc⟩

omit [DecidableEq M] [DecidableEq Tid] in
lemma inv_init : Inv hierarchy (init : Conf Tid (Shared M Tid) (Local M Tid)) where
  self _ := rfl
  owner _ _ := by simp [init]
  thread _ := ⟨rfl, trivial⟩

lemma inv_reach {h : List (Tid × Event M)}
    (hr : (hierarchicalMutex hierarchy true).Reach init s h) : Inv hierarchy s :=
  hr.inv _ inv_init fun _ _ _ _ _ _ hI hs => hI.step hs

end Invariant

/-! ### The hierarchy, and why no waiting cycle forms -/

/-- Thread `t` waits in `internal_mutex.lock()` for a mutex that `u` owns. -/
def waitsFor (s : Conf Tid (Shared M Tid) (Local M Tid)) (t u : Tid) : Prop :=
  ∃ m, (s.thr t).pc = .lockAcquire m ∧ s.shared.owner m = some u

/-- Three mutexes: 1000, 500 and 700. -/
def exampleHierarchy : Fin 3 → Nat
  | 0 => 1000
  | 1 => 500
  | 2 => 700

section Hierarchy

variable {hierarchy : M → Nat} {s : Conf Tid (Shared M Tid) (Local M Tid)}

/-- A thread about to take a mutex is above it: the check it passed still holds. -/
lemma Inv.acquiring_lt (hI : Inv hierarchy s) {t : Tid} {m : M}
    (hpc : (s.thr t).pc = .lockAcquire m ∨ (s.thr t).pc = .tryAcquire m) :
    hierarchy m < valueOf hierarchy (s.thr t).held := by
  have hok := hI.thread t
  rcases hpc with hpc | hpc <;>
  · simp only [ThreadOk, hpc] at hok
    exact hok.1 ▸ hok.2.2

/-- Waiting goes strictly down: the waiter's least held value is above the owner's. -/
lemma Inv.waitsFor_lt (hI : Inv hierarchy s) {t u : Tid} (hw : waitsFor s t u) :
    valueOf hierarchy (s.thr u).held < valueOf hierarchy (s.thr t).held := by
  obtain ⟨m, hpc, ho⟩ := hw
  calc valueOf hierarchy (s.thr u).held
      ≤ hierarchy m := (hI.thread u).ordered.valueOf_le ((hI.owner u m).mp ho)
    _ < valueOf hierarchy (s.thr t).held := hI.acquiring_lt (.inl hpc)

lemma Inv.transGen_waitsFor_lt (hI : Inv hierarchy s) {t u : Tid}
    (hw : Relation.TransGen (waitsFor s) t u) :
    valueOf hierarchy (s.thr u).held < valueOf hierarchy (s.thr t).held := by
  induction hw with
  | single hw => exact hI.waitsFor_lt hw
  | tail _ hw ih => exact (hI.waitsFor_lt hw).trans ih

variable [DecidableEq M] [DecidableEq Tid]

/-- With every thread unlocking the mutex it locked last: a thread between calls has the
least hierarchy value of the mutexes it holds, `ULONG_MAX` when it holds none; a thread about
to take a mutex is below every mutex it holds; and no thread waits, through other threads, on
itself. -/
theorem hierarchicalMutex_lifo_hierarchy {h : List (Tid × Event M)}
    (hr : (hierarchicalMutex hierarchy true).Reach init s h) :
    (∀ t, (s.thr t).pc = .idle →
      (s.thr t).value = valueOf hierarchy (s.thr t).held ∧
        ∀ m ∈ (s.thr t).held, (s.thr t).value ≤ hierarchy m) ∧
    (∀ t m, (s.thr t).pc = .lockAcquire m ∨ (s.thr t).pc = .tryAcquire m →
      ∀ m' ∈ (s.thr t).held, hierarchy m < hierarchy m') ∧
    ∀ t, ¬ Relation.TransGen (waitsFor s) t t := by
  have hI := inv_reach hr
  refine ⟨fun t hpc => ?_, fun t m hpc m' hm' => ?_, fun t hw => ?_⟩
  · have hok := hI.thread t
    simp only [ThreadOk, hpc] at hok
    exact ⟨hok.1, fun m hm => hok.1 ▸ hok.2.ordered.valueOf_le hm⟩
  · exact (hI.acquiring_lt hpc).trans_le ((hI.thread t).ordered.valueOf_le hm')
  · exact lt_irrefl _ (hI.transGen_waitsFor_lt hw)

/-- Thread 0 locks mutex 0 (1000) and then mutex 1 (500); thread 1 locks mutex 2 (700) and
waits in `lock()` for mutex 1, which thread 0 holds. -/
theorem hierarchicalMutex_lifo_hierarchy_waiting :
    ∃ (s : Conf (Fin 2) (Shared (Fin 3) (Fin 2)) (Local (Fin 3) (Fin 2)))
      (h : List (Fin 2 × Event (Fin 3))),
      (hierarchicalMutex exampleHierarchy true).Reach init s h ∧
      (s.thr 0).held = [1, 0] ∧ waitsFor s 1 0 ∧
      ((∀ t, (s.thr t).pc = .idle →
        (s.thr t).value = valueOf exampleHierarchy (s.thr t).held ∧
          ∀ m ∈ (s.thr t).held, (s.thr t).value ≤ exampleHierarchy m) ∧
      (∀ t m, (s.thr t).pc = .lockAcquire m ∨ (s.thr t).pc = .tryAcquire m →
        ∀ m' ∈ (s.thr t).held, exampleHierarchy m < exampleHierarchy m') ∧
      ∀ t, ¬ Relation.TransGen (waitsFor s) t t) := by
  have hrun : (hierarchicalMutex exampleHierarchy true).holdsAfter
      (init : Conf (Fin 2) (Shared (Fin 3) (Fin 2)) (Local (Fin 3) (Fin 2)))
      [(0, .call (.lock 0)), (0, .go), (0, .go), (0, .go),
       (0, .call (.lock 1)), (0, .go), (0, .go), (0, .go),
       (1, .call (.lock 2)), (1, .go), (1, .go), (1, .go),
       (1, .call (.lock 1)), (1, .go), (1, .go)]
      (fun s => decide ((s.thr 0).held = [1, 0] ∧ (s.thr 1).pc = .lockAcquire 1 ∧
        s.shared.owner 1 = some 0)) = true := by
    decide
  obtain ⟨s, h, hr, hp⟩ := Program.reach_of_holdsAfter hrun
  obtain ⟨hheld, hpc, hown⟩ := of_decide_eq_true hp
  exact ⟨s, h, hr, hheld, ⟨1, hpc, hown⟩, hierarchicalMutex_lifo_hierarchy hr⟩

end Hierarchy

/-! ### Unlocking out of order -/

/-- Thread 0 locks mutexes 0 and 1 and unlocks 0 first, which restores its value to
`ULONG_MAX` while it still holds 1. Thread 1 locks 2 and goes on to lock 1; thread 0 then
passes the check for 2. -/
def outOfOrderSchedule : List (Fin 2 × Choice (Fin 3)) :=
  [(0, .call (.lock 0)), (0, .go), (0, .go), (0, .go),
   (0, .call (.lock 1)), (0, .go), (0, .go), (0, .go),
   (0, .call (.unlock 0)), (0, .go), (0, .go),
   (1, .call (.lock 2)), (1, .go), (1, .go), (1, .go),
   (1, .call (.lock 1)), (1, .go),
   (0, .call (.lock 2)), (0, .go)]

/-- When a thread may unlock any mutex it holds, a thread holding mutex 1 (500) has value
`ULONG_MAX`, passes the check for mutex 2 (700), and the two threads wait on each other. -/
theorem hierarchicalMutex_unordered_unlock_deadlock :
    ∃ (s : Conf (Fin 2) (Shared (Fin 3) (Fin 2)) (Local (Fin 3) (Fin 2)))
      (h : List (Fin 2 × Event (Fin 3))),
      (hierarchicalMutex exampleHierarchy false).Reach init s h ∧
      (s.thr 0).held = [1] ∧ (s.thr 0).value = ulongMax ∧
      waitsFor s 0 1 ∧ waitsFor s 1 0 := by
  have hrun : (hierarchicalMutex exampleHierarchy false).holdsAfter init outOfOrderSchedule
      (fun s => decide ((s.thr 0).held = [1] ∧ (s.thr 0).value = ulongMax ∧
        (s.thr 0).pc = .lockAcquire 2 ∧ s.shared.owner 2 = some 1 ∧
        (s.thr 1).pc = .lockAcquire 1 ∧ s.shared.owner 1 = some 0)) = true := by
    decide
  obtain ⟨s, h, hr, hp⟩ := Program.reach_of_holdsAfter hrun
  simp only [decide_eq_true_eq] at hp
  obtain ⟨hh, hv, h0, ho2, h1, ho1⟩ := hp
  exact ⟨s, h, hr, hh, hv, ⟨2, h0, ho2⟩, ⟨1, h1, ho1⟩⟩

end HierarchicalMutex

end ConcurrencyInAction
