import ConcurrencyInAction.Interleaving

/-!
# `hp_owner`: one hazard pointer slot per thread

`lock_free.cpp` keeps `max_hazard_pointers` slots, each an `id` (a `std::thread::id`) and a
`pointer`. A thread's first call of `get_hazard_pointer_for_current_thread` constructs its
`thread_local` `hp_owner`, which scans the slots in order and claims the first whose id is the
default one with a `compare_exchange_strong`; if none is free it throws, and the next call
tries again. At thread exit the destructor clears the slot's pointer and then its id.

The default `std::thread::id` is `none`; every CAS, load and store is one step. The number of
slots is a parameter `max` (the code has `maxHazardPointers`). In every run:

* no two live `hp_owner`s point to the same slot;
* a slot's id names a thread exactly when that thread's live `hp_owner` points to it;
* a construction throws only after each slot it examined, at the moment it examined it, was
  owned by another thread whose `hp_owner` was live and pointed to it.

An `hp_owner` is live from the CAS that claims its slot until its destructor resets the id.
-/

namespace ConcurrencyInAction

namespace HpOwner

/-- `max_hazard_pointers`. -/
def maxHazardPointers : Nat := 100

/-- `hazard_pointer`: the owner's id (`none` is the default `std::thread::id`, which names no
thread) and the published pointer. -/
structure HazardPointer (Tid : Type) where
  id : Option Tid
  pointer : Option Nat
  deriving DecidableEq, Repr

/-- `hazard_pointers`, indexed from 0. -/
structure Shared (Tid : Type) where
  hazardPointers : Nat → HazardPointer Tid

/-- Where a thread is with its `hp_owner`. -/
inductive Pc
  /-- No `hp_owner`: not constructed yet, or its construction threw. -/
  | none
  /-- The constructor's loop, about to CAS `hazard_pointers[i].id`; past the last slot, the
  `if(!hp) throw`. -/
  | scan (i : Nat)
  /-- Constructed, with `hp = &hazard_pointers[i]`. -/
  | owns (i : Nat)
  /-- `~hp_owner`: `hp->pointer.store(nullptr)`. -/
  | releasePointer (i : Nat)
  /-- `~hp_owner`: `hp->id.store(std::thread::id())`. -/
  | releaseId (i : Nat)
  /-- The thread has exited and its `hp_owner` is destroyed. -/
  | exited
  deriving DecidableEq, Repr

/-- The slot a live `hp_owner` of the thread points to. -/
def Pc.slot : Pc → Option Nat
  | .owns i | .releasePointer i | .releaseId i => some i
  | _ => Option.none

/-- Scheduler choices: call `get_hazard_pointer_for_current_thread`, store into the slot it
returns, or exit the thread. The steps inside the constructor and destructor ignore it. -/
inductive Choice
  | call
  | store (v : Option Nat)
  | exit
  deriving DecidableEq, Repr

/-- A thread: its id and where it is. -/
structure Thread (Tid : Type) where
  self : Tid
  pc : Pc
  deriving DecidableEq, Repr

variable {Tid : Type}

namespace Shared

/-- Store into `hazard_pointers[i].id`. -/
def setId (g : Shared Tid) (i : Nat) (v : Option Tid) : Shared Tid :=
  ⟨Function.update g.hazardPointers i { g.hazardPointers i with id := v }⟩

/-- Store into `hazard_pointers[i].pointer`. -/
def setPointer (g : Shared Tid) (i : Nat) (v : Option Nat) : Shared Tid :=
  ⟨Function.update g.hazardPointers i { g.hazardPointers i with pointer := v }⟩

@[simp] lemma setId_id (g : Shared Tid) (i j : Nat) (v : Option Tid) :
    ((g.setId i v).hazardPointers j).id = if j = i then v else (g.hazardPointers j).id := by
  by_cases h : j = i
  · subst h; simp [setId]
  · simp [setId, h]

@[simp] lemma setPointer_id (g : Shared Tid) (i j : Nat) (v : Option Nat) :
    ((g.setPointer i v).hazardPointers j).id = (g.hazardPointers j).id := by
  by_cases h : j = i
  · subst h; simp [setPointer]
  · simp [setPointer, h]

end Shared

variable (max : Nat)

/-- One step of thread `self`. -/
def step (self : Tid) (g : Shared Tid) : Pc → Choice → Shared Tid × Pc
  | .none, .call => (g, .scan 0)
  | .none, .store _ => (g, .none)
  | .none, .exit => (g, .exited)
  | .scan i, _ =>
    if i < max then
      if (g.hazardPointers i).id.isNone then (g.setId i (some self), .owns i)
      else (g, .scan (i + 1))
    else (g, .none)
  | .owns i, .call => (g, .owns i)
  | .owns i, .store v => (g.setPointer i v, .owns i)
  | .owns i, .exit => (g, .releasePointer i)
  | .releasePointer i, _ => (g.setPointer i none, .releaseId i)
  | .releaseId i, _ => (g.setId i none, .exited)
  | .exited, _ => (g, .exited)

/-- Threads creating and destroying their `hp_owner`s over `max` slots. -/
def hpOwner : Program (Shared Tid) (Thread Tid) Choice Unit :=
  ⟨fun g th c => .ok ((step max th.self g th.pc c).1, ⟨th.self, (step max th.self g th.pc c).2⟩,
    none)⟩

/-- Every slot free, no thread with an `hp_owner`. -/
def init : Conf Tid (Shared Tid) (Thread Tid) :=
  ⟨⟨fun _ => ⟨none, none⟩⟩, fun t => ⟨t, .none⟩⟩

/-! ### What a step can do -/

/-- The transitions of thread `self`, one constructor per step of the code. -/
inductive Move (self : Tid) : Shared Tid → Pc → Shared Tid → Pc → Prop
  | call (g : Shared Tid) : Move self g .none g (.scan 0)
  | idle (g : Shared Tid) : Move self g .none g .none
  | leave (g : Shared Tid) : Move self g .none g .exited
  | claim (g : Shared Tid) (i : Nat) (hi : i < max) (hfree : (g.hazardPointers i).id = none) :
      Move self g (.scan i) (g.setId i (some self)) (.owns i)
  | taken (g : Shared Tid) (i : Nat) (hi : i < max) (hu : (g.hazardPointers i).id ≠ none) :
      Move self g (.scan i) g (.scan (i + 1))
  | throw (g : Shared Tid) (i : Nat) (hi : max ≤ i) : Move self g (.scan i) g .none
  | use (g : Shared Tid) (i : Nat) : Move self g (.owns i) g (.owns i)
  | store (g : Shared Tid) (i : Nat) (v : Option Nat) :
      Move self g (.owns i) (g.setPointer i v) (.owns i)
  | exit (g : Shared Tid) (i : Nat) : Move self g (.owns i) g (.releasePointer i)
  | releasePointer (g : Shared Tid) (i : Nat) :
      Move self g (.releasePointer i) (g.setPointer i none) (.releaseId i)
  | releaseId (g : Shared Tid) (i : Nat) : Move self g (.releaseId i) (g.setId i none) .exited
  | exited (g : Shared Tid) : Move self g .exited g .exited

lemma move_of_step {self : Tid} {g : Shared Tid} {pc : Pc} {c : Choice} :
    Move max self g pc (step max self g pc c).1 (step max self g pc c).2 := by
  cases pc with
  | none => cases c <;> constructor
  | scan i =>
    simp only [step]
    split
    · split
      · exact .claim g i ‹_› (Option.isNone_iff_eq_none.1 ‹_›)
      · exact .taken g i ‹_› (mt Option.isNone_iff_eq_none.2 ‹_›)
    · exact .throw g i (Nat.le_of_not_lt ‹_›)
  | owns i => cases c <;> constructor
  | releasePointer i => constructor
  | releaseId i => constructor
  | exited => constructor

/-- A step of the program is a move of the thread that takes it, which keeps its id. -/
lemma move_of_program_step {g g' : Shared Tid} {th th' : Thread Tid} {c : Choice}
    {e : Option Unit} (h : (hpOwner max).step g th c = .ok (g', th', e)) :
    th'.self = th.self ∧ Move max th.self g th.pc g' th'.pc := by
  cases h
  exact ⟨rfl, move_of_step max⟩

/-! ### Slot ownership -/

/-- The invariant: threads know their ids, a scan never passes the last slot, and a slot's id
names a thread exactly when that thread's live `hp_owner` points to it. -/
structure Owned (s : Conf Tid (Shared Tid) (Thread Tid)) : Prop where
  self : ∀ t, (s.thr t).self = t
  scan_le : ∀ t i, (s.thr t).pc = .scan i → i ≤ max
  id_of_slot : ∀ t i, (s.thr t).pc.slot = some i → (s.shared.hazardPointers i).id = some t
  slot_of_id : ∀ t i, (s.shared.hazardPointers i).id = some t → (s.thr t).pc.slot = some i

lemma owned_init : Owned max (init : Conf Tid (Shared Tid) (Thread Tid)) where
  self _ := rfl
  scan_le _ _ h := by cases h
  id_of_slot _ _ h := by cases h
  slot_of_id _ _ h := by cases h

namespace Move

variable {max} {v : Tid} {g g' : Shared Tid} {pc pc' : Pc}

/-- A thread gets a slot only by claiming a free one. -/
lemma slot_new (hm : Move max v g pc g' pc') {i : Nat} (h : pc'.slot = some i) :
    pc.slot = some i ∨ (g.hazardPointers i).id = none ∧ (g'.hazardPointers i).id = some v := by
  cases hm <;> simp_all [Pc.slot]

/-- A thread keeps its slot until its destructor resets the slot's id. -/
lemma slot_keep (hm : Move max v g pc g' pc') {i : Nat} (h : pc.slot = some i) :
    pc'.slot = some i ∨ (g'.hazardPointers i).id = none := by
  cases hm <;> simp_all [Pc.slot]

/-- A slot's id changes only when the mover claims it or its destructor resets it. -/
lemma id_change (hm : Move max v g pc g' pc') {i : Nat}
    (h : (g'.hazardPointers i).id ≠ (g.hazardPointers i).id) :
    pc.slot = some i ∧ pc'.slot = Option.none ∧ (g'.hazardPointers i).id = none ∨
      pc'.slot = some i ∧ (g'.hazardPointers i).id = some v := by
  cases hm <;> simp only [Shared.setId_id, Shared.setPointer_id, ne_eq, not_true] at h
  all_goals split at h <;> simp_all [Pc.slot]

lemma scan_le (hm : Move max v g pc g' pc') (hle : ∀ i, pc = .scan i → i ≤ max) {k : Nat}
    (h : pc' = .scan k) : k ≤ max := by
  cases hm <;> cases h <;> omega

end Move

variable [DecidableEq Tid]

lemma Owned.step {s : Conf Tid (Shared Tid) (Thread Tid)} {v : Tid} {g : Shared Tid} {pc : Pc}
    (hinv : Owned max s) (hm : Move max v s.shared (s.thr v).pc g pc) :
    Owned max (s.set v g ⟨v, pc⟩) where
  self t := by
    by_cases htv : t = v
    · subst htv; rw [Conf.set_thr_self]
    · rw [Conf.set_thr_ne _ _ _ htv]; exact hinv.self t
  scan_le t k h := by
    by_cases htv : t = v
    · subst htv; exact hm.scan_le (hinv.scan_le t) (by rwa [Conf.set_thr_self] at h)
    · rw [Conf.set_thr_ne _ _ _ htv] at h; exact hinv.scan_le t k h
  id_of_slot t i h := by
    rw [Conf.set_shared]
    by_cases hid : (g.hazardPointers i).id = (s.shared.hazardPointers i).id
    · rw [hid]
      by_cases htv : t = v
      · subst htv
        rw [Conf.set_thr_self] at h
        rcases hm.slot_new h with hold | ⟨-, hnew⟩
        · exact hinv.id_of_slot t i hold
        · rwa [← hid]
      · exact hinv.id_of_slot t i (by rwa [Conf.set_thr_ne _ _ _ htv] at h)
    · by_cases htv : t = v
      · subst htv
        rw [Conf.set_thr_self] at h
        rcases hm.id_change hid with ⟨-, hnone, -⟩ | ⟨-, hnew⟩
        · simp [hnone] at h
        · exact hnew
      · rw [Conf.set_thr_ne _ _ _ htv] at h
        have hold := hinv.id_of_slot t i h
        rcases hm.id_change hid with ⟨hv, -, -⟩ | ⟨hv, -⟩
        · exact absurd ((hinv.id_of_slot v i hv).symm.trans hold) (by simpa using Ne.symm htv)
        · rcases hm.slot_new hv with hv | ⟨hfree, -⟩
          · exact absurd ((hinv.id_of_slot v i hv).symm.trans hold) (by simpa using Ne.symm htv)
          · simp [hfree] at hold
  slot_of_id t i h := by
    rw [Conf.set_shared] at h
    by_cases hid : (g.hazardPointers i).id = (s.shared.hazardPointers i).id
    · rw [hid] at h
      have hold := hinv.slot_of_id t i h
      by_cases htv : t = v
      · subst htv
        rw [Conf.set_thr_self]
        rcases hm.slot_keep hold with hnew | hnone
        · exact hnew
        · simp [hid, h] at hnone
      · rwa [Conf.set_thr_ne _ _ _ htv]
    · rcases hm.id_change hid with ⟨-, -, hnone⟩ | ⟨hv, hnew⟩
      · simp [hnone] at h
      · obtain rfl : t = v := by simpa [hnew] using h.symm
        rwa [Conf.set_thr_self]

lemma owned_reach {s : Conf Tid (Shared Tid) (Thread Tid)} {h : List (Tid × Unit)}
    (hr : (hpOwner max).Reach init s h) : Owned max s :=
  hr.inv (Owned max) (owned_init max) fun s v _ _ th _ hinv hstep => by
    obtain ⟨hself, hm⟩ := move_of_program_step max hstep
    rw [hinv.self v] at hself hm
    obtain ⟨self, pc⟩ := th
    cases hself
    exact hinv.step max hm

/-! ### Runs -/

/-- The latest time thread `t` was about to examine slot `i` in a run (latest configuration
first), the slot's id named another thread whose live `hp_owner` pointed to it. -/
def Examined (t : Tid) (i : Nat) (run : List (Conf Tid (Shared Tid) (Thread Tid))) : Prop :=
  ∃ seg c rest u, run = seg ++ c :: rest ∧ (∀ c' ∈ seg, (c'.thr t).pc ≠ .scan i) ∧
    (c.thr t).pc = .scan i ∧ (c.shared.hazardPointers i).id = some u ∧ u ≠ t ∧
    (c.thr u).pc.slot = some i

/-- A thread scanning slot `k` examined every slot before it at a moment when another thread's
live `hp_owner` held it. -/
lemma examined_of_scan {s : Conf Tid (Shared Tid) (Thread Tid)}
    {cs : List (Conf Tid (Shared Tid) (Thread Tid))} (hr : (hpOwner max).Run init (s :: cs))
    {t : Tid} {k : Nat} (hk : (s.thr t).pc = .scan k) {i : Nat} (hi : i < k) :
    Examined t i (s :: cs) := by
  generalize hl : s :: cs = l at hr
  induction hr generalizing s cs k with
  | start => cases hl; cases hk
  | @step s₀ cs₀ v c g th e run hstep ih =>
    cases hl
    have hinv := owned_reach max (run.reachable (List.mem_cons_self _ _)).choose_spec
    obtain ⟨-, hm⟩ := move_of_program_step max hstep
    rw [hinv.self v] at hm
    have extend : Examined t i (s₀ :: cs₀) → Examined t i (s₀.set v g th :: s₀ :: cs₀) := by
      rintro ⟨seg, c', rest, u, hsplit, hseg, hc⟩
      refine ⟨s₀.set v g th :: seg, c', rest, u, by rw [hsplit]; rfl, ?_, hc⟩
      intro c'' hc''
      rcases List.mem_cons.1 hc'' with rfl | hc''
      · rw [hk]
        intro h
        cases h
        omega
      · exact hseg c'' hc''
    by_cases htv : t = v
    · subst htv
      rw [Conf.set_thr_self] at hk
      generalize hx : (s₀.thr t).pc = x at hm
      rw [hk] at hm
      cases hm with
      | call => omega
      | taken j hj hu =>
        rcases Nat.lt_succ_iff_lt_or_eq.1 hi with hi | rfl
        · exact extend (ih hx hi rfl)
        · obtain ⟨u, hu⟩ := Option.ne_none_iff_exists'.1 hu
          have hslot := hinv.slot_of_id u i hu
          refine ⟨[s₀.set t s₀.shared th], s₀, cs₀, u, rfl, by simp [hk], hx, hu, ?_, hslot⟩
          rintro rfl
          rw [hx] at hslot
          cases hslot
    · rw [Conf.set_thr_ne _ _ _ htv] at hk
      exact extend (ih hk hi rfl)

/-- What holds of a run ending in `s`, its earlier configurations being `cs` (latest first):
no two live `hp_owner`s share a slot; a slot's id names a thread exactly when that thread's
live `hp_owner` points to it; and a step that throws from the constructor comes after the
thread examined each of the `max` slots while another live `hp_owner` held it. -/
structure SlotsOwned (s : Conf Tid (Shared Tid) (Thread Tid))
    (cs : List (Conf Tid (Shared Tid) (Thread Tid))) : Prop where
  unique : ∀ t u i, (s.thr t).pc.slot = some i → (s.thr u).pc.slot = some i → t = u
  id_iff : ∀ i t, (s.shared.hazardPointers i).id = some t ↔ (s.thr t).pc.slot = some i
  throws : ∀ t k c g th e, (s.thr t).pc = .scan k →
    (hpOwner max).step s.shared (s.thr t) c = .ok (g, th, e) → th.pc = .none →
    ∀ i < max, Examined t i (s :: cs)

/-- For every interleaving of any number of threads creating and destroying their
`hp_owner`s, every run satisfies `SlotsOwned`. -/
theorem hpOwner_slot_ownership {s : Conf Tid (Shared Tid) (Thread Tid)}
    {cs : List (Conf Tid (Shared Tid) (Thread Tid))} (hr : (hpOwner max).Run init (s :: cs)) :
    SlotsOwned max s cs := by
  have hinv := owned_reach max (hr.reachable (List.mem_cons_self _ _)).choose_spec
  refine ⟨fun t u i ht hu => ?_, fun i t => ⟨hinv.slot_of_id t i, hinv.id_of_slot t i⟩, ?_⟩
  · simpa using (hinv.id_of_slot t i ht).symm.trans (hinv.id_of_slot u i hu)
  · intro t k c g th e hk hstep hth i hi
    obtain ⟨-, hm⟩ := move_of_program_step max hstep
    rw [hk, hth] at hm
    cases hm with
    | throw _ hle => exact examined_of_scan max hr hk (Nat.lt_of_lt_of_le hi hle)

/-- Two threads and one slot: thread 0 claims it, and thread 1 examines it, finds it owned and
is about to throw. -/
theorem hpOwner_slot_ownership_throw :
    ∃ (s : Conf (Fin 2) (Shared (Fin 2)) (Thread (Fin 2))) (cs : List _),
      (hpOwner 1).Run init (s :: cs) ∧ (s.thr 0).pc = .owns 0 ∧ (s.thr 1).pc = .scan 1 ∧
      SlotsOwned 1 s cs := by
  have hrun : (hpOwner 1).holdsAfter (init : Conf (Fin 2) (Shared (Fin 2)) (Thread (Fin 2)))
      [(0, .call), (0, .call), (1, .call), (1, .call)]
      (fun s => decide ((s.thr 0).pc = .owns 0 ∧ (s.thr 1).pc = .scan 1)) = true := by
    decide
  obtain ⟨s, h, hr, hp⟩ := Program.reach_of_holdsAfter hrun
  obtain ⟨h0, h1⟩ := of_decide_eq_true hp
  obtain ⟨cs, hcs⟩ := hr.run
  exact ⟨s, cs, hcs, h0, h1, hpOwner_slot_ownership 1 hcs⟩

end HpOwner

end ConcurrencyInAction
