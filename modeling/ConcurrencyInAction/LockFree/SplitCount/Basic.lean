import ConcurrencyInAction.AtomicStack

/-!
# `lock_free_stack_rf`: the stack with split reference counts

The last stack of `lock_free.cpp`. The head is a `counted_node_ptr`, a pointer together with an
external count, compared and exchanged as one value. A pop first claims the head value by
raising its external count (`increase_head_count`), and only then reads the node. The pop that
unlinks a node adds `external_count - 2` to the node's internal count; a pop that loses the
race gives its claim back by subtracting one. Whoever brings the internal count to zero deletes
the node.

Node addresses come from a counter and are never reused. Every access to the head or to a node
is one step; a read of a deleted node faults with `useAfterFree`, a second delete with
`doubleFree`. The head of the constructed stack is `{0, nullptr}`.

The counts are 32-bit `int`s. `++external_count` on `INT_MAX` is a signed overflow and faults
with `intOverflow`; the `fetch_add`s on `std::atomic<int>` wrap around.
-/

namespace ConcurrencyInAction

namespace LockFreeStackRf

/-- `counted_node_ptr`: the external count and the node pointer. -/
structure CountedNodePtr where
  externalCount : Int
  ptr : Option Nat
  deriving DecidableEq, Repr

/-- `lock_free_stack_rf::node`: the value (`std::shared_ptr<T>`, emptied by the pop that
unlinks the node), the internal count and the successor. -/
structure Node (α : Type) where
  data : Option α
  internalCount : Int
  next : CountedNodePtr
  deriving DecidableEq, Repr

/-- The shared state: `head`, the heap of nodes, and the next fresh address. -/
structure Shared (α : Type) where
  head : CountedNodePtr
  heap : Nat → Option (Node α)
  alloc : Nat

/-- Program counters of `push` and `pop`, with the locals live at each. -/
inductive Local (α : Type)
  | idle
  /-- `push(data)`, before `new node(data)`. -/
  | pushNew (v : α)
  /-- Before `new_node.ptr->next = head.load()`. -/
  | pushLoad (v : α) (p : Nat)
  /-- The loop `while(!head.compare_exchange_weak(new_node.ptr->next, new_node))`. -/
  | pushCas (v : α) (p : Nat)
  /-- `pop()`, before `old_head = head.load()`. -/
  | popLoad
  /-- The loop of `increase_head_count(old_head)`. -/
  | popIncr (old : CountedNodePtr)
  /-- The head value `old` claimed, `ptr = old.ptr = p` non-null: reads `ptr->next`. -/
  | popReadNext (old : CountedNodePtr) (p : Nat)
  /-- `head.compare_exchange_strong(old_head, ptr->next)`, the successor read. -/
  | popCas (old : CountedNodePtr) (p : Nat) (nxt : CountedNodePtr)
  /-- The exchange succeeded: `res.swap(ptr->data)`. -/
  | popSwap (old : CountedNodePtr) (p : Nat)
  /-- `ptr->internal_count.fetch_add(count_increase)`, `count_increase = old.external_count - 2`. -/
  | popSettle (old : CountedNodePtr) (p : Nat) (res : Option α)
  /-- The unlinking pop brought the count to zero: `delete ptr`, then `return res`. -/
  | popDelete (p : Nat) (res : Option α)
  /-- The exchange failed, `old_head` reloaded: `ptr->internal_count.fetch_add(-1)`. -/
  | popRelease (old : CountedNodePtr) (p : Nat)
  /-- The release brought the count to zero: `ptr->internal_count.load(acquire)`. -/
  | popAcquire (old : CountedNodePtr) (p : Nat)
  /-- `delete ptr`, then back to `increase_head_count(old_head)`. -/
  | popDeleteLoser (old : CountedNodePtr) (p : Nat)
  deriving DecidableEq, Repr

/-- Scheduler choices: start a call, run, or let a weak compare-exchange fail spuriously. -/
inductive Choice (α : Type)
  | call (op : StackOp α)
  | go
  | fail
  deriving DecidableEq, Repr

variable {α : Type}

/-- `INT_MAX` of a 32-bit `int`. -/
def intMax : Int := 2147483647

/-- `INT_MIN` of a 32-bit `int`. -/
def intMin : Int := -2147483648

/-- What `std::atomic<int>::fetch_add` stores: the sum modulo `2^32`, as a two's-complement
`int`. -/
def wrap (x : Int) : Int := (x - intMin) % 4294967296 + intMin

/-- A sum that fits in an `int` is stored as it is. -/
lemma wrap_of_le {x : Int} (h₁ : intMin ≤ x) (h₂ : x ≤ intMax) : wrap x = x := by
  unfold wrap intMin intMax at *
  omega

/-- Whether a weak compare-exchange fails spuriously at this step. -/
def Choice.spurious : Choice α → Bool
  | .fail => true
  | _ => false

namespace Shared

/-- Dereference a node. -/
def read (g : Shared α) (p : Nat) : Except Fault (Node α) :=
  match g.heap p with
  | some n => .ok n
  | none => .error .useAfterFree

/-- Write a node. -/
def write (g : Shared α) (p : Nat) (n : Node α) : Shared α :=
  { g with heap := Function.update g.heap p (some n) }

/-- `delete ptr`. -/
def delete (g : Shared α) (p : Nat) : Except Fault (Shared α) :=
  match g.heap p with
  | some _ => .ok { g with heap := Function.update g.heap p none }
  | none => .error .doubleFree

/-- `new node(data)`: `data` set, `internal_count` zero, at a fresh address. -/
def new (g : Shared α) (v : α) : Shared α :=
  { g with heap := Function.update g.heap g.alloc (some ⟨some v, 0, ⟨0, none⟩⟩),
           alloc := g.alloc + 1 }

end Shared

/-- One atomic step of a thread of `lock_free_stack_rf`. -/
def step (g : Shared α) :
    Local α → Choice α → Except Fault (Shared α × Local α × Option (StackEvent α))
  | .idle, .call (.push v) => .ok (g, .pushNew v, some (.call (.push v)))
  | .idle, .call .pop => .ok (g, .popLoad, some (.call .pop))
  | .idle, _ => .ok (g, .idle, none)
  | .pushNew v, _ => .ok (g.new v, .pushLoad v g.alloc, none)
  | .pushLoad v p, _ => do
    let n ← g.read p
    return (g.write p { n with next := g.head }, .pushCas v p, none)
  | .pushCas v p, c => do
    let n ← g.read p
    if n.next = g.head ∧ !c.spurious then
      return ({ g with head := ⟨1, some p⟩ }, .idle, some (.ret .pushed))
    else
      return (g.write p { n with next := g.head }, .pushCas v p, none)
  | .popLoad, _ => .ok (g, .popIncr g.head, none)
  | .popIncr old, _ =>
    if old.externalCount = intMax then .error .intOverflow
    else if g.head = old then
      match old.ptr with
      | none => .ok ({ g with head := ⟨old.externalCount + 1, none⟩ }, .idle,
          some (.ret (.popped none)))
      | some p => .ok ({ g with head := ⟨old.externalCount + 1, some p⟩ },
          .popReadNext ⟨old.externalCount + 1, some p⟩ p, none)
    else .ok (g, .popIncr g.head, none)
  | .popReadNext old p, _ => do
    let n ← g.read p
    return (g, .popCas old p n.next, none)
  | .popCas old p nxt, _ =>
    if g.head = old then .ok ({ g with head := nxt }, .popSwap old p, none)
    else .ok (g, .popRelease g.head p, none)
  | .popSwap old p, _ => do
    let n ← g.read p
    return (g.write p { n with data := none }, .popSettle old p n.data, none)
  | .popSettle old p res, _ => do
    let n ← g.read p
    let g' := g.write p { n with internalCount := wrap (n.internalCount + (old.externalCount - 2)) }
    if n.internalCount = -(old.externalCount - 2) then return (g', .popDelete p res, none)
    else return (g', .idle, some (.ret (.popped res)))
  | .popDelete p res, _ => do
    let g' ← g.delete p
    return (g', .idle, some (.ret (.popped res)))
  | .popRelease old p, _ => do
    let n ← g.read p
    let g' := g.write p { n with internalCount := wrap (n.internalCount + -1) }
    if n.internalCount = 1 then return (g', .popAcquire old p, none)
    else return (g', .popIncr old, none)
  | .popAcquire old p, _ => do
    let _ ← g.read p
    return (g, .popDeleteLoser old p, none)
  | .popDeleteLoser old p, _ => do
    let g' ← g.delete p
    return (g', .popIncr old, none)

/-- `lock_free_stack_rf` as a program. -/
def lockFreeStackRf (α : Type) : Program (Shared α) (Local α) (Choice α) (StackEvent α) :=
  ⟨step⟩

/-- The constructed stack: `head` is `{0, nullptr}`, no node, every thread idle. -/
def init (Tid : Type) : Conf Tid (Shared α) (Local α) :=
  ⟨⟨⟨0, none⟩, fun _ => none, 0⟩, fun _ => .idle⟩

namespace Shared

/-- The heap after `delete ptr`. -/
def erase (g : Shared α) (p : Nat) : Shared α :=
  { g with heap := Function.update g.heap p none }

@[simp] lemma write_heap (g : Shared α) (p : Nat) (n : Node α) :
    (g.write p n).heap = Function.update g.heap p (some n) := rfl

@[simp] lemma write_head (g : Shared α) (p : Nat) (n : Node α) : (g.write p n).head = g.head := rfl

@[simp] lemma write_alloc (g : Shared α) (p : Nat) (n : Node α) :
    (g.write p n).alloc = g.alloc := rfl

@[simp] lemma erase_heap (g : Shared α) (p : Nat) :
    (g.erase p).heap = Function.update g.heap p none := rfl

@[simp] lemma erase_head (g : Shared α) (p : Nat) : (g.erase p).head = g.head := rfl

@[simp] lemma erase_alloc (g : Shared α) (p : Nat) : (g.erase p).alloc = g.alloc := rfl

@[simp] lemma new_heap (g : Shared α) (v : α) :
    (g.new v).heap = Function.update g.heap g.alloc (some ⟨some v, 0, ⟨0, none⟩⟩) := rfl

@[simp] lemma new_head (g : Shared α) (v : α) : (g.new v).head = g.head := rfl

@[simp] lemma new_alloc (g : Shared α) (v : α) : (g.new v).alloc = g.alloc + 1 := rfl

lemma read_live {g : Shared α} {p : Nat} {n : Node α} (hp : g.heap p = some n) :
    g.read p = .ok n := by
  simp [read, hp]

lemma delete_live {g : Shared α} {p : Nat} {n : Node α} (hp : g.heap p = some n) :
    g.delete p = .ok (g.erase p) := by
  simp [delete, hp, erase]

end Shared

/-! ### A pop running alone -/

section Alone

variable {Tid : Type} [DecidableEq Tid] {s : Conf Tid (Shared α) (Local α)} {t : Tid}

/-- An empty pop by an idle thread raises the count of the null head by one, if it is below
`INT_MAX`. -/
lemma reach_emptyPop (ht : s.thr t = .idle) {e : Int} (hh : s.shared.head = ⟨e, none⟩)
    (hne : e ≠ intMax) :
    (lockFreeStackRf α).Reach s ⟨{ s.shared with head := ⟨e + 1, none⟩ }, s.thr⟩
      [(t, .call .pop), (t, .ret (.popped none))] := by
  have h : (lockFreeStackRf α).run s [(t, .call .pop), (t, .go), (t, .go)] =
      .ok (s.set t { s.shared with head := ⟨e + 1, none⟩ } .idle,
        [(t, .call .pop), (t, .ret (.popped none))]) := by
    simp [Program.run, lockFreeStackRf, step, ht, hh, hne]
  simpa [← ht, Conf.set_shared_only] using Program.reach_of_run h

end Alone

/-! ### What a step can do -/

/-- The transitions of `lock_free_stack_rf`, one constructor per step of the code. -/
inductive Move : Shared α → Local α → Shared α → Local α → Option (StackEvent α) → Prop
  | callPush (g : Shared α) (v : α) : Move g .idle g (.pushNew v) (some (.call (.push v)))
  | callPop (g : Shared α) : Move g .idle g .popLoad (some (.call .pop))
  | stay (g : Shared α) : Move g .idle g .idle none
  | newNode (g : Shared α) (v : α) : Move g (.pushNew v) (g.new v) (.pushLoad v g.alloc) none
  | loadHead (g : Shared α) (v : α) (p : Nat) (n : Node α) (hp : g.heap p = some n) :
      Move g (.pushLoad v p) (g.write p { n with next := g.head }) (.pushCas v p) none
  | pushed (g : Shared α) (v : α) (p : Nat) (n : Node α) (hp : g.heap p = some n)
      (hn : n.next = g.head) :
      Move g (.pushCas v p) { g with head := ⟨1, some p⟩ } .idle (some (.ret .pushed))
  | pushRetry (g : Shared α) (v : α) (p : Nat) (n : Node α) (hp : g.heap p = some n) :
      Move g (.pushCas v p) (g.write p { n with next := g.head }) (.pushCas v p) none
  | loadOld (g : Shared α) : Move g .popLoad g (.popIncr g.head) none
  | claimEmpty (g : Shared α) (e : Int) (hne : e ≠ intMax) (hh : g.head = ⟨e, none⟩) :
      Move g (.popIncr ⟨e, none⟩) { g with head := ⟨e + 1, none⟩ } .idle (some (.ret (.popped none)))
  | claim (g : Shared α) (e : Int) (p : Nat) (hne : e ≠ intMax) (hh : g.head = ⟨e, some p⟩) :
      Move g (.popIncr ⟨e, some p⟩) { g with head := ⟨e + 1, some p⟩ }
        (.popReadNext ⟨e + 1, some p⟩ p) none
  | claimRetry (g : Shared α) (old : CountedNodePtr) (hne : old.externalCount ≠ intMax)
      (hh : g.head ≠ old) :
      Move g (.popIncr old) g (.popIncr g.head) none
  | readNext (g : Shared α) (old : CountedNodePtr) (p : Nat) (n : Node α)
      (hp : g.heap p = some n) : Move g (.popReadNext old p) g (.popCas old p n.next) none
  | unlink (g : Shared α) (old : CountedNodePtr) (p : Nat) (nxt : CountedNodePtr)
      (hh : g.head = old) : Move g (.popCas old p nxt) { g with head := nxt } (.popSwap old p) none
  | lose (g : Shared α) (old : CountedNodePtr) (p : Nat) (nxt : CountedNodePtr)
      (hh : g.head ≠ old) : Move g (.popCas old p nxt) g (.popRelease g.head p) none
  | swap (g : Shared α) (old : CountedNodePtr) (p : Nat) (n : Node α) (hp : g.heap p = some n) :
      Move g (.popSwap old p) (g.write p { n with data := none }) (.popSettle old p n.data) none
  | settleZero (g : Shared α) (old : CountedNodePtr) (p : Nat) (res : Option α) (n : Node α)
      (hp : g.heap p = some n) (hz : n.internalCount = -(old.externalCount - 2)) :
      Move g (.popSettle old p res)
        (g.write p { n with internalCount := wrap (n.internalCount + (old.externalCount - 2)) })
        (.popDelete p res) none
  | settle (g : Shared α) (old : CountedNodePtr) (p : Nat) (res : Option α) (n : Node α)
      (hp : g.heap p = some n) (hz : n.internalCount ≠ -(old.externalCount - 2)) :
      Move g (.popSettle old p res)
        (g.write p { n with internalCount := wrap (n.internalCount + (old.externalCount - 2)) })
        .idle (some (.ret (.popped res)))
  | delete (g : Shared α) (p : Nat) (res : Option α) (n : Node α) (hp : g.heap p = some n) :
      Move g (.popDelete p res) (g.erase p) .idle (some (.ret (.popped res)))
  | releaseLast (g : Shared α) (old : CountedNodePtr) (p : Nat) (n : Node α)
      (hp : g.heap p = some n) (h1 : n.internalCount = 1) :
      Move g (.popRelease old p) (g.write p { n with internalCount := wrap (n.internalCount + -1) })
        (.popAcquire old p) none
  | release (g : Shared α) (old : CountedNodePtr) (p : Nat) (n : Node α)
      (hp : g.heap p = some n) (h1 : n.internalCount ≠ 1) :
      Move g (.popRelease old p) (g.write p { n with internalCount := wrap (n.internalCount + -1) })
        (.popIncr old) none
  | acquire (g : Shared α) (old : CountedNodePtr) (p : Nat) (n : Node α)
      (hp : g.heap p = some n) : Move g (.popAcquire old p) g (.popDeleteLoser old p) none
  | deleteLoser (g : Shared α) (old : CountedNodePtr) (p : Nat) (n : Node α)
      (hp : g.heap p = some n) : Move g (.popDeleteLoser old p) (g.erase p) (.popIncr old) none

/-- Peel one `read` or `delete` off a step. -/
private lemma bind_ok {β γ : Type} {x : Except Fault β} {f : β → Except Fault γ} {r : γ}
    (h : (x >>= f) = .ok r) : ∃ b, x = .ok b ∧ f b = .ok r := by
  cases x with
  | error e => cases h
  | ok b => exact ⟨b, rfl, h⟩

private lemma read_ok {g : Shared α} {p : Nat} {n : Node α} (h : g.read p = .ok n) :
    g.heap p = some n := by
  unfold Shared.read at h; split at h <;> simp_all

private lemma delete_ok {g g' : Shared α} {p : Nat} (h : g.delete p = .ok g') :
    ∃ n, g.heap p = some n ∧ g' = g.erase p := by
  unfold Shared.delete at h; split at h
  · cases h; exact ⟨_, ‹_›, rfl⟩
  · cases h

lemma move_of_step {g g' : Shared α} {l l' : Local α} {c : Choice α}
    {e : Option (StackEvent α)} (h : step g l c = .ok (g', l', e)) : Move g l g' l' e := by
  cases l with
  | idle =>
    rcases c with ⟨v | _⟩ | _ | _ <;> simp only [step, Except.ok.injEq, Prod.mk.injEq] at h <;>
      obtain ⟨rfl, rfl, rfl⟩ := h
    exacts [.callPush g v, .callPop g, .stay g, .stay g]
  | pushNew v =>
    simp only [step, Except.ok.injEq, Prod.mk.injEq] at h
    obtain ⟨rfl, rfl, rfl⟩ := h
    exact .newNode g v
  | pushLoad v p =>
    obtain ⟨n, hn, h⟩ := bind_ok h
    cases h
    exact .loadHead g v p n (read_ok hn)
  | pushCas v p =>
    obtain ⟨n, hn, h⟩ := bind_ok h
    split at h <;> cases h
    exacts [.pushed g v p n (read_ok hn) (by simp_all), .pushRetry g v p n (read_ok hn)]
  | popLoad =>
    simp only [step, Except.ok.injEq, Prod.mk.injEq] at h
    obtain ⟨rfl, rfl, rfl⟩ := h
    exact .loadOld g
  | popIncr old =>
    simp only [step] at h
    split at h
    · cases h
    rename_i hne
    split at h
    · rename_i hh
      subst hh
      rcases hp : g.head with ⟨e, _ | p⟩ <;> simp only [hp, Except.ok.injEq, Prod.mk.injEq] at h hne <;>
        obtain ⟨rfl, rfl, rfl⟩ := h
      exacts [.claimEmpty g e hne hp, .claim g e p hne hp]
    · simp only [Except.ok.injEq, Prod.mk.injEq] at h
      obtain ⟨rfl, rfl, rfl⟩ := h
      exact .claimRetry g old hne ‹_›
  | popReadNext old p =>
    obtain ⟨n, hn, h⟩ := bind_ok h
    cases h
    exact .readNext g old p n (read_ok hn)
  | popCas old p nxt =>
    simp only [step] at h
    split at h <;> simp only [Except.ok.injEq, Prod.mk.injEq] at h <;> obtain ⟨rfl, rfl, rfl⟩ := h
    exacts [.unlink g old p nxt ‹_›, .lose g old p nxt ‹_›]
  | popSwap old p =>
    obtain ⟨n, hn, h⟩ := bind_ok h
    cases h
    exact .swap g old p n (read_ok hn)
  | popSettle old p res =>
    obtain ⟨n, hn, h⟩ := bind_ok h
    split at h <;> cases h
    exacts [.settleZero g old p res n (read_ok hn) ‹_›, .settle g old p res n (read_ok hn) ‹_›]
  | popDelete p res =>
    obtain ⟨g'', hg, h⟩ := bind_ok h
    cases h
    obtain ⟨n, hn, rfl⟩ := delete_ok hg
    exact .delete g p res n hn
  | popRelease old p =>
    obtain ⟨n, hn, h⟩ := bind_ok h
    split at h <;> cases h
    exacts [.releaseLast g old p n (read_ok hn) ‹_›, .release g old p n (read_ok hn) ‹_›]
  | popAcquire old p =>
    obtain ⟨n, hn, h⟩ := bind_ok h
    cases h
    exact .acquire g old p n (read_ok hn)
  | popDeleteLoser old p =>
    obtain ⟨g'', hg, h⟩ := bind_ok h
    cases h
    obtain ⟨n, hn, rfl⟩ := delete_ok hg
    exact .deleteLoser g old p n hn

/-- The node a thread's next step dereferences or deletes. -/
def Local.touches : Local α → Option Nat
  | .pushLoad _ p | .pushCas _ p | .popReadNext _ p | .popSwap _ p | .popSettle _ p _
  | .popDelete p _ | .popRelease _ p | .popAcquire _ p | .popDeleteLoser _ p => some p
  | _ => none

/-- A step faults only on the node it touches, when that node is gone, or in
`increase_head_count` when the count is already `INT_MAX`. -/
lemma step_ok_of_live {g : Shared α} {l : Local α} (c : Choice α)
    (h : ∀ p, l.touches = some p → g.heap p ≠ none)
    (hmax : ∀ old, l = .popIncr old → old.externalCount ≠ intMax) : ∃ r, step g l c = .ok r := by
  have live : ∀ p, l.touches = some p → ∃ n, g.heap p = some n := fun p hp =>
    Option.ne_none_iff_exists'.mp (h p hp)
  cases l with
  | idle => rcases c with ⟨_ | _⟩ | _ | _ <;> exact ⟨_, rfl⟩
  | popIncr old =>
    simp only [step, hmax old rfl, if_false]
    split
    · cases old.ptr <;> exact ⟨_, rfl⟩
    · exact ⟨_, rfl⟩
  | popCas old p nxt => simp only [step]; split <;> exact ⟨_, rfl⟩
  | pushNew | popLoad => exact ⟨_, rfl⟩
  | pushCas v p =>
    obtain ⟨n, hn⟩ := live p rfl
    simp only [step, Shared.read_live hn, bind, Except.bind]
    split <;> exact ⟨_, rfl⟩
  | popSettle old p res =>
    obtain ⟨n, hn⟩ := live p rfl
    simp only [step, Shared.read_live hn, bind, Except.bind]
    split <;> exact ⟨_, rfl⟩
  | popRelease old p =>
    obtain ⟨n, hn⟩ := live p rfl
    simp only [step, Shared.read_live hn, bind, Except.bind]
    split <;> exact ⟨_, rfl⟩
  | popDelete p res =>
    obtain ⟨n, hn⟩ := live p rfl
    exact ⟨_, by simp only [step, Shared.delete_live hn, bind, Except.bind]; rfl⟩
  | popDeleteLoser old p =>
    obtain ⟨n, hn⟩ := live p rfl
    exact ⟨_, by simp only [step, Shared.delete_live hn, bind, Except.bind]; rfl⟩
  | pushLoad v p | popReadNext old p | popSwap old p | popAcquire old p =>
    obtain ⟨n, hn⟩ := live p rfl
    exact ⟨_, by simp only [step, Shared.read_live hn, bind, Except.bind]; rfl⟩

/-- The only signed overflow: `++new_counter.external_count` with the count at `INT_MAX`. -/
lemma step_intOverflow {g : Shared α} {old : CountedNodePtr} (c : Choice α)
    (h : old.externalCount = intMax) : step g (.popIncr old) c = .error .intOverflow := by
  simp [step, h]

end LockFreeStackRf

end ConcurrencyInAction
