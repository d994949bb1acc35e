import ConcurrencyInAction.AtomicStack

/-!
# `lock_free_stack_with_hazard`: pop with hazard pointers

The stack of `lock_free.cpp` that protects the node a pop is about to read with a hazard
pointer. A pop publishes the head it read in its thread's slot, reads `head` again, and only
if the two agree goes on to read `old_head->next`. The pop that unlinks a node deletes it
unless `outstanding_hazard_pointers_for` reports a hazard, and then deletes every node on the
reclaim list that has none.

`outstanding_hazard_pointers_for` returns `false` unconditionally, so the reclaim list stays
empty and every unlinked node is deleted at once, whatever the hazard slots hold. Another pop
that has published and validated the same head then reads the deleted node.

Each thread owns one hazard slot (`hp_owner` hands every thread its own entry of
`hazard_pointers`). Every load, store, exchange and compare-exchange is one step; a read of a
deleted node faults with `useAfterFree`, a second delete with `doubleFree`.
-/

namespace ConcurrencyInAction

namespace LockFreeStackWithHazard

/-- `lock_free_stack_with_hazard::node`: the value, emptied by the pop that unlinks the node,
and the successor. -/
structure Node (α : Type) where
  data : Option α
  next : Option Nat
  deriving DecidableEq, Repr

/-- The shared state: `head`, the heap of nodes, each thread's hazard pointer, and
`nodes_to_reclaim` (the nodes it wraps, front first). -/
structure Shared (α Tid : Type) where
  head : Option Nat
  heap : Nat → Option (Node α)
  hazard : Tid → Option Nat
  reclaim : List Nat

/-- Program counters of `pop`, with the locals live at each. -/
inductive Local (α : Type)
  | idle
  /-- `pop()`, before `old_head = head.load()`. -/
  | popLoad
  /-- `temp = old_head; hp.store(old_head)`. -/
  | publish (old : Option Nat)
  /-- `old_head = head.load()`, then `while(old_head != temp)`. -/
  | recheck (temp : Option Nat)
  /-- Evaluating `old_head->next` for the exchange. -/
  | readNext (old : Nat)
  /-- `head.compare_exchange_strong(old_head, old_head->next)`. -/
  | cas (old : Nat) (nxt : Option Nat)
  /-- `hp.store(nullptr)`. -/
  | clear (old : Option Nat)
  /-- `res.swap(old_head->data)`. -/
  | swap (old : Nat)
  /-- `if(outstanding_hazard_pointers_for(old_head)) reclaim_later(old_head); else delete
  old_head;` -/
  | dispose (old : Nat) (res : Option α)
  /-- `delete_nodes_with_no_hazards`: `current = nodes_to_reclaim.exchange(nullptr)`. -/
  | takeReclaim (res : Option α)
  /-- The loop of `delete_nodes_with_no_hazards` over the taken list. -/
  | reclaimLoop (rest : List Nat) (res : Option α)
  deriving DecidableEq, Repr

/-- Scheduler choices: start a `pop`, or run. -/
inductive Choice
  | call
  | go
  deriving DecidableEq, Repr

variable {α Tid : Type}

/-- `outstanding_hazard_pointers_for(data)`, as the code has it. -/
def outstandingHazardPointersFor (_g : Shared α Tid) (_p : Nat) : Bool := false

namespace Shared

/-- Dereference a node. -/
def read (g : Shared α Tid) (p : Nat) : Except Fault (Node α) :=
  match g.heap p with
  | some n => .ok n
  | none => .error .useAfterFree

/-- `delete`. -/
def delete (g : Shared α Tid) (p : Nat) : Except Fault (Shared α Tid) :=
  match g.heap p with
  | some _ => .ok { g with heap := Function.update g.heap p none }
  | none => .error .doubleFree

/-- `add_to_reclaim_list(new data_to_reclaim(p))`: its compare-exchange loop pushes the
wrapper on the front of the list. -/
def reclaimLater (g : Shared α Tid) (p : Nat) : Shared α Tid :=
  { g with reclaim := p :: g.reclaim }

end Shared

variable [DecidableEq Tid]

/-- One atomic step of thread `t` of `lock_free_stack_with_hazard::pop`. -/
def step (t : Tid) (g : Shared α Tid) :
    Local α → Choice → Except Fault (Shared α Tid × Local α × Option (StackEvent α))
  | .idle, .call => .ok (g, .popLoad, some (.call .pop))
  | .idle, .go => .ok (g, .idle, none)
  | .popLoad, _ => .ok (g, .publish g.head, none)
  | .publish old, _ =>
    .ok ({ g with hazard := Function.update g.hazard t old }, .recheck old, none)
  | .recheck temp, _ =>
    if g.head ≠ temp then .ok (g, .publish g.head, none)
    else match temp with
      | none => .ok (g, .clear none, none)
      | some p => .ok (g, .readNext p, none)
  | .readNext p, _ => do
    let n ← g.read p
    return (g, .cas p n.next, none)
  | .cas p nxt, _ =>
    if g.head = some p then .ok ({ g with head := nxt }, .clear (some p), none)
    else .ok (g, .publish g.head, none)
  | .clear old, _ =>
    let g' := { g with hazard := Function.update g.hazard t none }
    match old with
    | none => .ok (g', .idle, some (.ret (.popped none)))
    | some p => .ok (g', .swap p, none)
  | .swap p, _ => do
    let n ← g.read p
    return ({ g with heap := Function.update g.heap p (some { n with data := none }) },
      .dispose p n.data, none)
  | .dispose p res, _ =>
    if outstandingHazardPointersFor g p then .ok (g.reclaimLater p, .takeReclaim res, none)
    else do
      let g' ← g.delete p
      return (g', .takeReclaim res, none)
  | .takeReclaim res, _ => .ok ({ g with reclaim := [] }, .reclaimLoop g.reclaim res, none)
  | .reclaimLoop [] res, _ => .ok (g, .idle, some (.ret (.popped res)))
  | .reclaimLoop (q :: rest) res, _ =>
    if !outstandingHazardPointersFor g q then do
      let g' ← g.delete q
      return (g', .reclaimLoop rest res, none)
    else .ok (g.reclaimLater q, .reclaimLoop rest res, none)

/-- The threads of `lock_free_stack_with_hazard` as a program: each step knows which thread
takes it, since it writes that thread's hazard slot. -/
structure Thread (α Tid : Type) where
  self : Tid
  pc : Local α

/-- `lock_free_stack_with_hazard` as a program over threads that know their own id. -/
def lockFreeStackWithHazard (α Tid : Type) [DecidableEq Tid] :
    Program (Shared α Tid) (Thread α Tid) Choice (StackEvent α) :=
  ⟨fun g th c => (step th.self g th.pc c).map fun r => (r.1, ⟨th.self, r.2.1⟩, r.2.2)⟩

/-- The nodes of a stack holding `vs`, top first, at addresses `0, 1, …`. -/
def stackHeap (vs : List α) (p : Nat) : Option (Node α) :=
  (vs.get? p).map fun v => ⟨some v, if p + 1 < vs.length then some (p + 1) else none⟩

/-- A stack holding `vs`, every hazard slot empty, nothing to reclaim, every thread idle. -/
def initWith (vs : List α) : Conf Tid (Shared α Tid) (Thread α Tid) :=
  ⟨⟨if vs.isEmpty then none else some 0, stackHeap vs, fun _ => none, []⟩, fun t => ⟨t, .idle⟩⟩

/-! ### What a step can do -/

/-- The transitions of `lock_free_stack_with_hazard::pop` of thread `t`, one constructor per
step of the code. `outstanding_hazard_pointers_for` answers `false`, so `dispose` and the
reclaim loop always delete. -/
inductive Move (t : Tid) :
    Shared α Tid → Local α → Shared α Tid → Local α → Option (StackEvent α) → Prop
  | call (g : Shared α Tid) : Move t g .idle g .popLoad (some (.call .pop))
  | stay (g : Shared α Tid) : Move t g .idle g .idle none
  | load (g : Shared α Tid) : Move t g .popLoad g (.publish g.head) none
  | publish (g : Shared α Tid) (old : Option Nat) :
      Move t g (.publish old) { g with hazard := Function.update g.hazard t old } (.recheck old) none
  | changed (g : Shared α Tid) (temp : Option Nat) (h : g.head ≠ temp) :
      Move t g (.recheck temp) g (.publish g.head) none
  | empty (g : Shared α Tid) (h : g.head = none) : Move t g (.recheck none) g (.clear none) none
  | validated (g : Shared α Tid) (p : Nat) (h : g.head = some p) :
      Move t g (.recheck (some p)) g (.readNext p) none
  | readNext (g : Shared α Tid) (p : Nat) (n : Node α) (hp : g.heap p = some n) :
      Move t g (.readNext p) g (.cas p n.next) none
  | unlink (g : Shared α Tid) (p : Nat) (nxt : Option Nat) (hh : g.head = some p) :
      Move t g (.cas p nxt) { g with head := nxt } (.clear (some p)) none
  | retry (g : Shared α Tid) (p : Nat) (nxt : Option Nat) (hh : g.head ≠ some p) :
      Move t g (.cas p nxt) g (.publish g.head) none
  | clearNull (g : Shared α Tid) :
      Move t g (.clear none) { g with hazard := Function.update g.hazard t none } .idle
        (some (.ret (.popped none)))
  | clear (g : Shared α Tid) (p : Nat) :
      Move t g (.clear (some p)) { g with hazard := Function.update g.hazard t none } (.swap p) none
  | swap (g : Shared α Tid) (p : Nat) (n : Node α) (hp : g.heap p = some n) :
      Move t g (.swap p) { g with heap := Function.update g.heap p (some { n with data := none }) }
        (.dispose p n.data) none
  | dispose (g : Shared α Tid) (p : Nat) (n : Node α) (res : Option α) (hp : g.heap p = some n) :
      Move t g (.dispose p res) { g with heap := Function.update g.heap p none } (.takeReclaim res)
        none
  | takeReclaim (g : Shared α Tid) (res : Option α) :
      Move t g (.takeReclaim res) { g with reclaim := [] } (.reclaimLoop g.reclaim res) none
  | reclaimDone (g : Shared α Tid) (res : Option α) :
      Move t g (.reclaimLoop [] res) g .idle (some (.ret (.popped res)))
  | reclaimNext (g : Shared α Tid) (q : Nat) (n : Node α) (rest : List Nat) (res : Option α)
      (hq : g.heap q = some n) :
      Move t g (.reclaimLoop (q :: rest) res) { g with heap := Function.update g.heap q none }
        (.reclaimLoop rest res) none

/-- Peel one `read` or `delete` off a step. -/
private lemma hz_bind_ok {β γ : Type} {x : Except Fault β} {f : β → Except Fault γ} {r : γ}
    (h : (x >>= f) = .ok r) : ∃ b, x = .ok b ∧ f b = .ok r := by
  cases x with
  | error e => cases h
  | ok b => exact ⟨b, rfl, h⟩

omit [DecidableEq Tid] in
private lemma hz_read_ok {g : Shared α Tid} {p : Nat} {n : Node α} (h : g.read p = .ok n) :
    g.heap p = some n := by
  unfold Shared.read at h; split at h <;> simp_all

omit [DecidableEq Tid] in
private lemma hz_delete_ok {g g' : Shared α Tid} {p : Nat} (h : g.delete p = .ok g') :
    ∃ n, g.heap p = some n ∧ g' = { g with heap := Function.update g.heap p none } := by
  unfold Shared.delete at h; split at h
  · cases h; exact ⟨_, ‹_›, rfl⟩
  · cases h

lemma move_of_step {t : Tid} {g g' : Shared α Tid} {l l' : Local α} {c : Choice}
    {e : Option (StackEvent α)} (h : step t g l c = .ok (g', l', e)) : Move t g l g' l' e := by
  cases l with
  | idle => cases c <;> cases h; exacts [.call g, .stay g]
  | popLoad => cases h; exact .load g
  | publish old => cases h; exact .publish g old
  | recheck temp =>
    simp only [step] at h
    split at h
    · cases h; exact .changed g temp ‹_›
    · rcases temp with _ | p <;> cases h
      exacts [.empty g (not_not.1 ‹_›), .validated g p (not_not.1 ‹_›)]
  | readNext p =>
    obtain ⟨n, hn, h⟩ := hz_bind_ok h
    cases h
    exact .readNext g p n (hz_read_ok hn)
  | cas p nxt =>
    simp only [step] at h
    split at h <;> cases h
    exacts [.unlink g p nxt ‹_›, .retry g p nxt ‹_›]
  | clear old => rcases old with _ | p <;> cases h; exacts [.clearNull g, .clear g p]
  | swap p =>
    obtain ⟨n, hn, h⟩ := hz_bind_ok h
    cases h
    exact .swap g p n (hz_read_ok hn)
  | dispose p res =>
    obtain ⟨g₁, hg, h⟩ := hz_bind_ok h
    obtain ⟨n, hp, rfl⟩ := hz_delete_ok hg
    cases h
    exact .dispose g p n res hp
  | takeReclaim res => cases h; exact .takeReclaim g res
  | reclaimLoop rest res =>
    rcases rest with _ | ⟨q, rest⟩
    · cases h; exact .reclaimDone g res
    · obtain ⟨g₁, hg, h⟩ := hz_bind_ok h
      obtain ⟨n, hq, rfl⟩ := hz_delete_ok hg
      cases h
      exact .reclaimNext g q n rest res hq

namespace Move

variable {t : Tid} {g g' : Shared α Tid} {l l' : Local α} {e : Option (StackEvent α)}

/-- A thread writes no hazard slot but its own. -/
lemma hazard_ne (hm : Move t g l g' l' e) {u : Tid} (hu : u ≠ t) : g'.hazard u = g.hazard u := by
  cases hm <;> simp [Function.update_noteq hu]

/-- A thread about to re-read `head` has just published the value it compares with. -/
lemma hazard_of_recheck {temp : Option Nat} (hm : Move t g l g' (.recheck temp) e) :
    g'.hazard t = temp := by
  cases hm
  simp

/-- A thread reaches `old_head->next` only from a re-read of `head` that found the value it
published, and that step changes nothing shared. -/
lemma of_readNext {p : Nat} (hm : Move t g l g' (.readNext p) e) :
    l = .recheck (some p) ∧ g.head = some p ∧ g' = g := by
  cases hm
  exact ⟨rfl, ‹_›, rfl⟩

end Move

/-- A step of the program is a move of the thread that takes it, which keeps its id. -/
lemma move_of_program_step {g g' : Shared α Tid} {th th' : Thread α Tid} {c : Choice}
    {e : Option (StackEvent α)} (h : (lockFreeStackWithHazard α Tid).step g th c = .ok (g', th', e)) :
    th'.self = th.self ∧ Move th.self g th.pc g' th'.pc e := by
  simp only [lockFreeStackWithHazard] at h
  cases hs : step th.self g th.pc c with
  | error f => rw [hs] at h; cases h
  | ok r => rw [hs] at h; cases h; exact ⟨rfl, move_of_step hs⟩

/-! ### The publish protocol -/

/-- Every thread knows its own id, and a thread about to re-read `head` holds in its hazard
slot the value it will compare `head` with. -/
def Published (s : Conf Tid (Shared α Tid) (Thread α Tid)) : Prop :=
  ∀ t, (s.thr t).self = t ∧ ∀ temp, (s.thr t).pc = .recheck temp → s.shared.hazard t = temp

lemma published_reach {vs : List α} {s : Conf Tid (Shared α Tid) (Thread α Tid)}
    {h : List (Tid × StackEvent α)} (hr : (lockFreeStackWithHazard α Tid).Reach (initWith vs) s h) :
    Published s := by
  refine hr.inv Published (fun t => ⟨rfl, fun _ h => by cases h⟩) ?_
  intro s u c g th e hinv hstep t
  obtain ⟨hself, hm⟩ := move_of_program_step hstep
  rw [(hinv u).1] at hself hm
  by_cases htu : t = u
  · subst htu
    simp only [Conf.set_thr_self, Conf.set_shared]
    exact ⟨hself, fun temp hp => Move.hazard_of_recheck (hp ▸ hm)⟩
  · simp only [Conf.set_thr_ne _ _ _ htu, Conf.set_shared, hm.hazard_ne htu]
    exact hinv t

/-- The newest configuration of a run lies in any stretch of the run that reaches it. -/
private lemma hz_head_mem {β : Type} {x y : β} {xs seg rest : List β}
    (h : x :: xs = seg ++ y :: rest) : x ∈ seg ++ [y] := by
  cases seg with
  | nil => cases h; simp
  | cons z seg => cases h; simp

/-- In every run of `pop` by any number of threads, a thread that evaluates `old_head->next`
has held `old_head` in its hazard slot continuously since a configuration, after its store,
at which `head` was `old_head`: the run, latest configuration first, splits into the stretch
since that configuration and what came before. -/
theorem lockFreeStackWithHazard_publish_protocol {vs : List α}
    {s : Conf Tid (Shared α Tid) (Thread α Tid)} {cs : List (Conf Tid (Shared α Tid) (Thread α Tid))}
    (hr : (lockFreeStackWithHazard α Tid).Run (initWith vs) (s :: cs)) {t : Tid} {p : Nat}
    (hp : (s.thr t).pc = .readNext p) :
    ∃ seg s₁ rest, s :: cs = seg ++ s₁ :: rest ∧ s₁.shared.head = some p ∧
      ∀ c ∈ seg ++ [s₁], c.shared.hazard t = some p := by
  generalize hl : s :: cs = l at hr
  induction hr generalizing s cs with
  | start => cases hl; exact nomatch hp
  | @step s₀ cs₀ u c g th e run hstep ih =>
    cases hl
    have hpub := published_reach (run.reachable (List.mem_cons_self _ _)).choose_spec
    obtain ⟨-, hm⟩ := move_of_program_step hstep
    rw [(hpub u).1] at hm
    by_cases htu : t = u
    · subst htu
      rw [Conf.set_thr_self] at hp
      obtain ⟨hpc, hhead, rfl⟩ := (hp ▸ hm).of_readNext
      exact ⟨[s₀.set t s₀.shared th], s₀, cs₀, rfl, hhead, by simp [(hpub t).2 _ hpc]⟩
    · rw [Conf.set_thr_ne _ _ _ htu] at hp
      obtain ⟨seg, s₁, rest, hsplit, hhead, hslot⟩ := ih hp rfl
      refine ⟨s₀.set u g th :: seg, s₁, rest, by rw [hsplit]; rfl, hhead, ?_⟩
      intro c hc
      rcases List.mem_cons.1 hc with rfl | hc
      · rw [Conf.set_shared, hm.hazard_ne htu]
        exact hslot s₀ (hz_head_mem hsplit)
      · exact hslot c hc

/-- One thread pops the one-node stack up to `old_head->next`: its slot holds the node since
the re-read of `head`. -/
theorem lockFreeStackWithHazard_publish_protocol_run :
    ∃ (s : Conf (Fin 1) (Shared Nat (Fin 1)) (Thread Nat (Fin 1))) (cs : List _),
      (lockFreeStackWithHazard Nat (Fin 1)).Run (initWith [7]) (s :: cs) ∧
      (s.thr 0).pc = .readNext 0 ∧
      ∃ seg s₁ rest, s :: cs = seg ++ s₁ :: rest ∧ s₁.shared.head = some 0 ∧
        ∀ c ∈ seg ++ [s₁], c.shared.hazard 0 = some 0 := by
  have hrun : (lockFreeStackWithHazard Nat (Fin 1)).holdsAfter (initWith [7])
      [(0, .call), (0, .go), (0, .go), (0, .go)] (fun s => decide ((s.thr 0).pc = .readNext 0)) =
      true := by
    decide
  obtain ⟨s, h, hr, hp⟩ := Program.reach_of_holdsAfter hrun
  obtain ⟨cs, hcs⟩ := hr.run
  have hp : (s.thr 0).pc = .readNext 0 := of_decide_eq_true hp
  exact ⟨s, cs, hcs, hp, lockFreeStackWithHazard_publish_protocol hcs hp⟩

/-- A pop that has published and validated its hazard pointer on the only node, paused; a
second pop runs to completion and deletes that node while the first pop's hazard slot still
holds it; the first pop then reads `old_head->next` from the deleted node. -/
def hazardSchedule : List (Fin 2 × Choice) :=
  [(0, .call), (0, .go), (0, .go), (0, .go),
   (1, .call), (1, .go), (1, .go), (1, .go), (1, .go), (1, .go), (1, .go), (1, .go), (1, .go),
   (1, .go), (1, .go)]

/-- On a stack with one node, a pop deletes the node while another thread's hazard slot holds
its address, and that thread's next step reads the deleted node. -/
theorem lockFreeStackWithHazard_deletes_hazardous_node :
    ∃ (s : Conf (Fin 2) (Shared Nat (Fin 2)) (Thread Nat (Fin 2)))
      (h : List (Fin 2 × StackEvent Nat)),
      (lockFreeStackWithHazard Nat (Fin 2)).Reach (initWith [7]) s h ∧
      s.shared.hazard 0 = some 0 ∧ s.shared.heap 0 = none ∧
      ¬ (lockFreeStackWithHazard Nat (Fin 2)).NoFault .useAfterFree s := by
  have hrun : (lockFreeStackWithHazard Nat (Fin 2)).holdsAfter (initWith [7]) hazardSchedule
      (fun s => decide (s.shared.hazard 0 = some 0) && (s.shared.heap 0).isNone &&
        (lockFreeStackWithHazard Nat (Fin 2)).faults .useAfterFree 0 .go s) = true := by
    decide
  obtain ⟨s, h, hr, hp⟩ := Program.reach_of_holdsAfter hrun
  simp only [Bool.and_eq_true, decide_eq_true_eq, Option.isNone_iff_eq_none] at hp
  exact ⟨s, h, hr, hp.1.1, hp.1.2, Program.not_noFault_of_faults hp.2⟩

end LockFreeStackWithHazard

end ConcurrencyInAction
