import ConcurrencyInAction.AtomicStack

/-!
# `lock_free_stack_with_gc`: reclaiming nodes while no other pop runs

The stack of `lock_free.cpp` that counts the threads inside `pop` in `threads_in_pop`. The pop
that unlinks a node deletes it only if it finds itself the only pop running; it then also
takes the whole `to_be_deleted` list, deletes that list too if the count it leaves behind is
zero, and puts it back otherwise. A pop that is not alone puts its node on `to_be_deleted`.

The class has no `push`: a run starts from a stack built before any thread runs. Every atomic
load, store, exchange, compare-exchange, increment and decrement is one step, and a weak
compare-exchange may fail spuriously. The plain accesses to a node's fields are one step each
and interleave with the others, so the model is sequentially consistent. The walks along a
list of nodes read one node per step.
A read of a deleted node faults with `useAfterFree`, a second delete with `doubleFree`, and a
write through a null pointer with `nullDeref`.
-/

namespace ConcurrencyInAction

namespace LockFreeStackWithGc

/-- `lock_free_stack_with_gc::node`: the value, emptied by the pop that unlinks the node,
and the successor. -/
structure Node (α : Type) where
  data : Option α
  next : Option Nat
  deriving DecidableEq, Repr

/-- The shared state: `head`, the heap of nodes, `threads_in_pop` and `to_be_deleted`. -/
structure Shared (α : Type) where
  head : Option Nat
  heap : Nat → Option (Node α)
  threadsInPop : Nat
  toBeDeleted : Option Nat

/-- Program counters of `pop`, with the locals live at each. -/
inductive Local (α : Type)
  | idle
  /-- `++threads_in_pop`. -/
  | enter
  /-- `old_head=head.load()`. -/
  | load
  /-- The loop test `old_head && ...`, reading `old_head->next` for the exchange. -/
  | test (old : Option Nat)
  /-- `head.compare_exchange_weak(old_head,old_head->next)`. -/
  | cas (old : Nat) (nxt : Option Nat)
  /-- `res.swap(old_head->data)`. -/
  | swap (old : Nat)
  /-- `try_reclaim(old_head)`: `if(threads_in_pop==1)`. -/
  | check (old : Option Nat) (res : Option α)
  /-- `nodes_to_delete=to_be_deleted.exchange(nullptr)`. -/
  | claim (old : Option Nat) (res : Option α)
  /-- `if(!--threads_in_pop)`. -/
  | leave (old nodes : Option Nat) (res : Option α)
  /-- `delete_nodes(nodes)`: `while(nodes)`, reading `nodes->next`. -/
  | deleteNodes (nodes old : Option Nat) (res : Option α)
  /-- `delete nodes; nodes=next;`. -/
  | deleteNode (p : Nat) (next old : Option Nat) (res : Option α)
  /-- `chain_pending_nodes(nodes)`: `while(node* const next=last->next) last=next;`. -/
  | findLast (first last : Nat) (old : Option Nat) (res : Option α)
  /-- `chain_pending_nodes(first,last)`: `last->next=to_be_deleted`. It is called as
  `chain_pending_node(old_head)` when `pending`, and then `pop` decrements the count; it is
  called from `chain_pending_nodes(nodes)` otherwise, and then `pop` deletes `old_head`. -/
  | link (first last : Option Nat) (pending : Bool) (old : Option Nat) (res : Option α)
  /-- `to_be_deleted.compare_exchange_weak(last->next,first)`. -/
  | chainCas (first : Option Nat) (last : Nat) (pending : Bool) (old : Option Nat)
      (res : Option α)
  /-- `delete old_head` (deleting a null pointer does nothing), then `return res`. -/
  | deleteOld (old : Option Nat) (res : Option α)
  /-- `--threads_in_pop` after `chain_pending_node(old_head)`, then `return res`. -/
  | leavePending (res : Option α)
  deriving DecidableEq, Repr

/-- Scheduler choices: start a `pop`, run, or run with a spurious failure of a weak
compare-exchange. -/
inductive Choice
  | call
  | go
  | fail
  deriving DecidableEq, Repr

variable {α : Type}

/-- Whether a weak compare-exchange fails spuriously at this step. -/
def Choice.spurious : Choice → Bool
  | .fail => true
  | _ => false

namespace Shared

/-- Dereference a node. -/
def read (g : Shared α) (p : Nat) : Except Fault (Node α) :=
  match g.heap p with
  | some n => .ok n
  | none => .error .useAfterFree

/-- Write a node. -/
def write (g : Shared α) (p : Nat) (n : Node α) : Shared α :=
  { g with heap := Function.update g.heap p (some n) }

/-- The heap after `delete ptr`. -/
def erase (g : Shared α) (p : Nat) : Shared α :=
  { g with heap := Function.update g.heap p none }

/-- `delete ptr`. -/
def delete (g : Shared α) (p : Nat) : Except Fault (Shared α) :=
  match g.heap p with
  | some _ => .ok (g.erase p)
  | none => .error .doubleFree

/-- `--threads_in_pop`. -/
def decr (g : Shared α) : Shared α :=
  { g with threadsInPop := g.threadsInPop - 1 }

end Shared

/-- One atomic step of a thread of `lock_free_stack_with_gc::pop`. -/
def step (g : Shared α) : Local α → Choice → Except Fault (Shared α × Local α × Option (StackEvent α))
  | .idle, .call => .ok (g, .enter, some (.call .pop))
  | .idle, _ => .ok (g, .idle, none)
  | .enter, _ => .ok ({ g with threadsInPop := g.threadsInPop + 1 }, .load, none)
  | .load, _ => .ok (g, .test g.head, none)
  | .test none, _ => .ok (g, .check none none, none)
  | .test (some p), _ => do
    let n ← g.read p
    return (g, .cas p n.next, none)
  | .cas p nxt, c =>
    if g.head = some p ∧ !c.spurious then .ok ({ g with head := nxt }, .swap p, none)
    else .ok (g, .test g.head, none)
  | .swap p, _ => do
    let n ← g.read p
    return (g.write p { n with data := none }, .check (some p) n.data, none)
  | .check old res, _ =>
    if g.threadsInPop = 1 then .ok (g, .claim old res, none)
    else .ok (g, .link old old true old res, none)
  | .claim old res, _ => .ok ({ g with toBeDeleted := none }, .leave old g.toBeDeleted res, none)
  | .leave old nodes res, _ =>
    if g.threadsInPop - 1 = 0 then .ok (g.decr, .deleteNodes nodes old res, none)
    else match nodes with
      | none => .ok (g.decr, .deleteOld old res, none)
      | some p => .ok (g.decr, .findLast p p old res, none)
  | .deleteNodes none old res, _ => .ok (g, .deleteOld old res, none)
  | .deleteNodes (some p) old res, _ => do
    let n ← g.read p
    return (g, .deleteNode p n.next old res, none)
  | .deleteNode p nxt old res, _ => do
    let g' ← g.delete p
    return (g', .deleteNodes nxt old res, none)
  | .findLast first last old res, _ => do
    let n ← g.read last
    match n.next with
    | none => return (g, .link (some first) (some last) false old res, none)
    | some q => return (g, .findLast first q old res, none)
  | .link _ none _ _ _, _ => .error .nullDeref
  | .link first (some last) pending old res, _ => do
    let n ← g.read last
    return (g.write last { n with next := g.toBeDeleted }, .chainCas first last pending old res,
      none)
  | .chainCas first last pending old res, c => do
    let n ← g.read last
    if g.toBeDeleted = n.next ∧ !c.spurious then
      return ({ g with toBeDeleted := first },
        if pending then .leavePending res else .deleteOld old res, none)
    else
      return (g.write last { n with next := g.toBeDeleted }, .chainCas first last pending old res,
        none)
  | .deleteOld none res, _ => .ok (g, .idle, some (.ret (.popped res)))
  | .deleteOld (some p) res, _ => do
    let g' ← g.delete p
    return (g', .idle, some (.ret (.popped res)))
  | .leavePending res, _ => .ok (g.decr, .idle, some (.ret (.popped res)))

/-- `lock_free_stack_with_gc` as a program. -/
def lockFreeStackWithGc (α : Type) : Program (Shared α) (Local α) Choice (StackEvent α) :=
  ⟨step⟩

/-- Every thread idle on the shared state `g`. -/
def start (Tid : Type) (g : Shared α) : Conf Tid (Shared α) (Local α) :=
  ⟨g, fun _ => .idle⟩

/-- The nodes of a stack holding `vs`, top first, at addresses `0, 1, …`. -/
def stackHeap (vs : List α) (p : Nat) : Option (Node α) :=
  (vs.get? p).map fun v => ⟨some v, if p + 1 < vs.length then some (p + 1) else none⟩

/-- A stack holding `vs`, `threads_in_pop` zero and `to_be_deleted` null. -/
def stackOf (vs : List α) : Shared α :=
  ⟨if vs.isEmpty then none else some 0, stackHeap vs, 0, none⟩

namespace Shared

@[simp] lemma write_heap (g : Shared α) (p : Nat) (n : Node α) :
    (g.write p n).heap = Function.update g.heap p (some n) := rfl

@[simp] lemma write_head (g : Shared α) (p : Nat) (n : Node α) : (g.write p n).head = g.head :=
  rfl

@[simp] lemma write_threadsInPop (g : Shared α) (p : Nat) (n : Node α) :
    (g.write p n).threadsInPop = g.threadsInPop := rfl

@[simp] lemma write_toBeDeleted (g : Shared α) (p : Nat) (n : Node α) :
    (g.write p n).toBeDeleted = g.toBeDeleted := rfl

@[simp] lemma erase_heap (g : Shared α) (p : Nat) :
    (g.erase p).heap = Function.update g.heap p none := rfl

@[simp] lemma erase_head (g : Shared α) (p : Nat) : (g.erase p).head = g.head := rfl

@[simp] lemma erase_threadsInPop (g : Shared α) (p : Nat) :
    (g.erase p).threadsInPop = g.threadsInPop := rfl

@[simp] lemma erase_toBeDeleted (g : Shared α) (p : Nat) :
    (g.erase p).toBeDeleted = g.toBeDeleted := rfl

@[simp] lemma decr_heap (g : Shared α) : g.decr.heap = g.heap := rfl

@[simp] lemma decr_head (g : Shared α) : g.decr.head = g.head := rfl

@[simp] lemma decr_threadsInPop (g : Shared α) : g.decr.threadsInPop = g.threadsInPop - 1 := rfl

@[simp] lemma decr_toBeDeleted (g : Shared α) : g.decr.toBeDeleted = g.toBeDeleted := rfl

end Shared

/-! ### What a step can do -/

/-- The transitions of `lock_free_stack_with_gc::pop`, one constructor per step of the code. -/
inductive Move : Shared α → Local α → Shared α → Local α → Option (StackEvent α) → Prop
  | call (g : Shared α) : Move g .idle g .enter (some (.call .pop))
  | stay (g : Shared α) : Move g .idle g .idle none
  | enter (g : Shared α) : Move g .enter { g with threadsInPop := g.threadsInPop + 1 } .load none
  | load (g : Shared α) : Move g .load g (.test g.head) none
  | testNull (g : Shared α) : Move g (.test none) g (.check none none) none
  | readNext (g : Shared α) (p : Nat) (n : Node α) (hp : g.heap p = some n) :
      Move g (.test (some p)) g (.cas p n.next) none
  | unlink (g : Shared α) (p : Nat) (nxt : Option Nat) (hh : g.head = some p) :
      Move g (.cas p nxt) { g with head := nxt } (.swap p) none
  | retry (g : Shared α) (p : Nat) (nxt : Option Nat) : Move g (.cas p nxt) g (.test g.head) none
  | swap (g : Shared α) (p : Nat) (n : Node α) (hp : g.heap p = some n) :
      Move g (.swap p) (g.write p { n with data := none }) (.check (some p) n.data) none
  | alone (g : Shared α) (old : Option Nat) (res : Option α) (h1 : g.threadsInPop = 1) :
      Move g (.check old res) g (.claim old res) none
  | notAlone (g : Shared α) (old : Option Nat) (res : Option α) (h1 : g.threadsInPop ≠ 1) :
      Move g (.check old res) g (.link old old true old res) none
  | claim (g : Shared α) (old : Option Nat) (res : Option α) :
      Move g (.claim old res) { g with toBeDeleted := none } (.leave old g.toBeDeleted res) none
  | leaveLast (g : Shared α) (old nodes : Option Nat) (res : Option α)
      (h0 : g.threadsInPop - 1 = 0) :
      Move g (.leave old nodes res) g.decr (.deleteNodes nodes old res) none
  | leaveNone (g : Shared α) (old : Option Nat) (res : Option α) (h0 : g.threadsInPop - 1 ≠ 0) :
      Move g (.leave old none res) g.decr (.deleteOld old res) none
  | leaveSome (g : Shared α) (old : Option Nat) (p : Nat) (res : Option α)
      (h0 : g.threadsInPop - 1 ≠ 0) :
      Move g (.leave old (some p) res) g.decr (.findLast p p old res) none
  | deleteNodesDone (g : Shared α) (old : Option Nat) (res : Option α) :
      Move g (.deleteNodes none old res) g (.deleteOld old res) none
  | deleteNodesNext (g : Shared α) (p : Nat) (n : Node α) (old : Option Nat) (res : Option α)
      (hp : g.heap p = some n) :
      Move g (.deleteNodes (some p) old res) g (.deleteNode p n.next old res) none
  | deleteNode (g : Shared α) (p : Nat) (n : Node α) (nxt old : Option Nat) (res : Option α)
      (hp : g.heap p = some n) :
      Move g (.deleteNode p nxt old res) (g.erase p) (.deleteNodes nxt old res) none
  | foundLast (g : Shared α) (first last : Nat) (n : Node α) (old : Option Nat) (res : Option α)
      (hp : g.heap last = some n) (hn : n.next = none) :
      Move g (.findLast first last old res) g (.link (some first) (some last) false old res) none
  | findNext (g : Shared α) (first last q : Nat) (n : Node α) (old : Option Nat) (res : Option α)
      (hp : g.heap last = some n) (hn : n.next = some q) :
      Move g (.findLast first last old res) g (.findLast first q old res) none
  | link (g : Shared α) (first : Option Nat) (last : Nat) (n : Node α) (pending : Bool)
      (old : Option Nat) (res : Option α) (hp : g.heap last = some n) :
      Move g (.link first (some last) pending old res)
        (g.write last { n with next := g.toBeDeleted }) (.chainCas first last pending old res) none
  | chained (g : Shared α) (first : Option Nat) (last : Nat) (n : Node α) (pending : Bool)
      (old : Option Nat) (res : Option α) (hp : g.heap last = some n)
      (hn : g.toBeDeleted = n.next) :
      Move g (.chainCas first last pending old res) { g with toBeDeleted := first }
        (if pending then .leavePending res else .deleteOld old res) none
  | chainRetry (g : Shared α) (first : Option Nat) (last : Nat) (n : Node α) (pending : Bool)
      (old : Option Nat) (res : Option α) (hp : g.heap last = some n) :
      Move g (.chainCas first last pending old res)
        (g.write last { n with next := g.toBeDeleted }) (.chainCas first last pending old res) none
  | deleteNull (g : Shared α) (res : Option α) :
      Move g (.deleteOld none res) g .idle (some (.ret (.popped res)))
  | deleteOld (g : Shared α) (p : Nat) (n : Node α) (res : Option α) (hp : g.heap p = some n) :
      Move g (.deleteOld (some p) res) (g.erase p) .idle (some (.ret (.popped res)))
  | leavePending (g : Shared α) (res : Option α) :
      Move g (.leavePending res) g.decr .idle (some (.ret (.popped res)))

/-- Peel one `read` or `delete` off a step. -/
private lemma gc_bind_ok {β γ : Type} {x : Except Fault β} {f : β → Except Fault γ} {r : γ}
    (h : (x >>= f) = .ok r) : ∃ b, x = .ok b ∧ f b = .ok r := by
  cases x with
  | error e => cases h
  | ok b => exact ⟨b, rfl, h⟩

private lemma gc_read_ok {g : Shared α} {p : Nat} {n : Node α} (h : g.read p = .ok n) :
    g.heap p = some n := by
  unfold Shared.read at h; split at h <;> simp_all

private lemma gc_delete_ok {g g' : Shared α} {p : Nat} (h : g.delete p = .ok g') :
    ∃ n, g.heap p = some n ∧ g' = g.erase p := by
  unfold Shared.delete at h; split at h
  · cases h; exact ⟨_, ‹_›, rfl⟩
  · cases h

lemma move_of_step {g g' : Shared α} {l l' : Local α} {c : Choice}
    {e : Option (StackEvent α)} (h : step g l c = .ok (g', l', e)) : Move g l g' l' e := by
  cases l with
  | idle =>
    cases c <;> simp only [step, Except.ok.injEq, Prod.mk.injEq] at h <;>
      obtain ⟨rfl, rfl, rfl⟩ := h
    exacts [.call g, .stay g, .stay g]
  | enter =>
    simp only [step, Except.ok.injEq, Prod.mk.injEq] at h
    obtain ⟨rfl, rfl, rfl⟩ := h
    exact .enter g
  | load =>
    simp only [step, Except.ok.injEq, Prod.mk.injEq] at h
    obtain ⟨rfl, rfl, rfl⟩ := h
    exact .load g
  | test old =>
    rcases old with _ | p
    · simp only [step, Except.ok.injEq, Prod.mk.injEq] at h
      obtain ⟨rfl, rfl, rfl⟩ := h
      exact .testNull g
    · obtain ⟨n, hn, h⟩ := gc_bind_ok h
      cases h
      exact .readNext g p n (gc_read_ok hn)
  | cas p nxt =>
    simp only [step] at h
    split at h <;> simp only [Except.ok.injEq, Prod.mk.injEq] at h <;> obtain ⟨rfl, rfl, rfl⟩ := h
    exacts [.unlink g p nxt ‹_ ∧ _›.1, .retry g p nxt]
  | swap p =>
    obtain ⟨n, hn, h⟩ := gc_bind_ok h
    cases h
    exact .swap g p n (gc_read_ok hn)
  | check old res =>
    simp only [step] at h
    split at h <;> simp only [Except.ok.injEq, Prod.mk.injEq] at h <;> obtain ⟨rfl, rfl, rfl⟩ := h
    exacts [.alone g old res ‹_›, .notAlone g old res ‹_›]
  | claim old res =>
    simp only [step, Except.ok.injEq, Prod.mk.injEq] at h
    obtain ⟨rfl, rfl, rfl⟩ := h
    exact .claim g old res
  | leave old nodes res =>
    simp only [step] at h
    split at h
    · simp only [Except.ok.injEq, Prod.mk.injEq] at h
      obtain ⟨rfl, rfl, rfl⟩ := h
      exact .leaveLast g old nodes res ‹_›
    · rcases nodes with _ | p <;> simp only [Except.ok.injEq, Prod.mk.injEq] at h <;>
        obtain ⟨rfl, rfl, rfl⟩ := h
      exacts [.leaveNone g old res ‹_›, .leaveSome g old p res ‹_›]
  | deleteNodes nodes old res =>
    rcases nodes with _ | p
    · simp only [step, Except.ok.injEq, Prod.mk.injEq] at h
      obtain ⟨rfl, rfl, rfl⟩ := h
      exact .deleteNodesDone g old res
    · obtain ⟨n, hn, h⟩ := gc_bind_ok h
      cases h
      exact .deleteNodesNext g p n old res (gc_read_ok hn)
  | deleteNode p nxt old res =>
    obtain ⟨g₁, hg, h⟩ := gc_bind_ok h
    obtain ⟨n, hp, rfl⟩ := gc_delete_ok hg
    cases h
    exact .deleteNode g p n nxt old res hp
  | findLast first last old res =>
    obtain ⟨n, hn, h⟩ := gc_bind_ok h
    rcases hq : n.next with _ | q <;> simp only [hq] at h <;> cases h
    exacts [.foundLast g first last n old res (gc_read_ok hn) hq,
      .findNext g first last q n old res (gc_read_ok hn) hq]
  | link first last pending old res =>
    rcases last with _ | last
    · cases h
    · obtain ⟨n, hn, h⟩ := gc_bind_ok h
      cases h
      exact .link g first last n pending old res (gc_read_ok hn)
  | chainCas first last pending old res =>
    obtain ⟨n, hn, h⟩ := gc_bind_ok h
    split at h <;> cases h
    exacts [.chained g first last n pending old res (gc_read_ok hn) ‹_ ∧ _›.1,
      .chainRetry g first last n pending old res (gc_read_ok hn)]
  | deleteOld old res =>
    rcases old with _ | p
    · simp only [step, Except.ok.injEq, Prod.mk.injEq] at h
      obtain ⟨rfl, rfl, rfl⟩ := h
      exact .deleteNull g res
    · obtain ⟨g₁, hg, h⟩ := gc_bind_ok h
      obtain ⟨n, hp, rfl⟩ := gc_delete_ok hg
      cases h
      exact .deleteOld g p n res hp
  | leavePending res =>
    simp only [step, Except.ok.injEq, Prod.mk.injEq] at h
    obtain ⟨rfl, rfl, rfl⟩ := h
    exact .leavePending g res

/-- The node the next step of a thread dereferences or deletes, if any. -/
def Local.deref : Local α → Option Nat
  | .test old => old
  | .swap p => some p
  | .deleteNodes nodes _ _ => nodes
  | .deleteNode p _ _ _ => some p
  | .findLast _ last _ _ => some last
  | .link _ last _ _ _ => last
  | .chainCas _ last _ _ _ => some last
  | .deleteOld old _ => old
  | _ => none

private lemma gc_read_bind_error {β : Type} {g : Shared α} {p : Nat}
    {k : Node α → Except Fault β} {f : Fault} (h : (g.read p >>= k) = .error f)
    (hk : ∀ n, k n ≠ .error f) : g.heap p = none := by
  unfold Shared.read at h
  split at h
  · exact absurd h (hk _)
  · assumption

private lemma gc_delete_bind_error {β : Type} {g : Shared α} {p : Nat}
    {k : Shared α → Except Fault β} {f : Fault} (h : (g.delete p >>= k) = .error f)
    (hk : ∀ g', k g' ≠ .error f) : g.heap p = none := by
  unfold Shared.delete at h
  split at h
  · exact absurd h (hk _)
  · assumption

/-- A step faults only by touching a node that is gone, or by writing through the null `last`
of `chain_pending_nodes`. -/
lemma step_error {g : Shared α} {l : Local α} {c : Choice} {f : Fault}
    (h : step g l c = .error f) :
    f = .nullDeref ∨ ∃ p, l.deref = some p ∧ g.heap p = none := by
  cases l with
  | idle => cases c <;> cases h
  | enter | load | claim | leavePending => cases h
  | test old =>
    rcases old with _ | p
    · cases h
    · exact .inr ⟨p, rfl, gc_read_bind_error h fun _ => nofun⟩
  | cas p nxt => simp only [step] at h; split at h <;> cases h
  | swap p => exact .inr ⟨p, rfl, gc_read_bind_error h fun _ => nofun⟩
  | check old res => simp only [step] at h; split at h <;> cases h
  | leave old nodes res =>
    simp only [step] at h
    split at h
    · cases h
    · rcases nodes with _ | _ <;> cases h
  | deleteNodes nodes old res =>
    rcases nodes with _ | p
    · cases h
    · exact .inr ⟨p, rfl, gc_read_bind_error h fun _ => nofun⟩
  | deleteNode p nxt old res => exact .inr ⟨p, rfl, gc_delete_bind_error h fun _ => nofun⟩
  | findLast first last old res =>
    exact .inr ⟨last, rfl, gc_read_bind_error h fun n => by cases n.next <;> nofun⟩
  | link first last pending old res =>
    rcases last with _ | last
    · exact .inl (by cases h; rfl)
    · exact .inr ⟨last, rfl, gc_read_bind_error h fun _ => nofun⟩
  | chainCas first last pending old res =>
    exact .inr ⟨last, rfl, gc_read_bind_error h fun _ => by split <;> nofun⟩
  | deleteOld old res =>
    rcases old with _ | p
    · cases h
    · exact .inr ⟨p, rfl, gc_delete_bind_error h fun _ => nofun⟩

end LockFreeStackWithGc

end ConcurrencyInAction
