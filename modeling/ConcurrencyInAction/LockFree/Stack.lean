import ConcurrencyInAction.AtomicStack

/-!
# `lock_free_stack`: the stack without reclamation

The first stack of `lock_free.cpp`. `push` allocates a node, reads the head into the node's
`next` and installs the node with a compare-exchange, retrying with the freshly read head;
`pop` reads the head and swings it to the successor with a compare-exchange, retrying with the
head the failed exchange reported. Popped nodes are never deleted, so node addresses are never
reused and there is no ABA.

Each thread's local state is its program counter with the locals live there; every access to
the head or to a node is one step. `compare_exchange_weak` may fail spuriously: the scheduler
chooses `fail`.

The refinement mapping reads the stack's contents off the chain of nodes from `head` and maps
each thread to the atomic stack: a push takes effect at its successful exchange, a pop at its
successful exchange or, when it returns empty, at the load that saw a null head.
-/

namespace ConcurrencyInAction

namespace LockFreeStack

open Atomic (callsRets)

/-- `lock_free_stack::node`: the value and the successor. -/
structure Node (α : Type) where
  data : α
  next : Option Nat
  deriving DecidableEq, Repr

/-- The shared state: `head`, the heap of nodes, and the next fresh address. -/
structure Shared (α : Type) where
  head : Option Nat
  heap : Nat → Option (Node α)
  alloc : Nat

/-- Program counters of `push` and `pop`, with the locals live at each. -/
inductive Local (α : Type)
  | idle
  /-- `push(data)`, before `new node{data}`. -/
  | pushNew (v : α)
  /-- Before `new_node->next = head.load()`. -/
  | pushLoad (v : α) (p : Nat)
  /-- The loop `while(!head.compare_exchange_weak(new_node->next, new_node))`. -/
  | pushCas (v : α) (p : Nat)
  /-- `pop()`, before `old_head = head.load()`. -/
  | popLoad
  /-- The loop test `old_head && ...`: reads `old_head->next` when non-null. -/
  | popTest (old : Option Nat)
  /-- `head.compare_exchange_weak(old_head, old_head->next)` with the successor read. -/
  | popCas (p : Nat) (nxt : Option Nat)
  /-- `return old_head->data` after a successful exchange. -/
  | popRet (p : Nat)
  deriving DecidableEq, Repr

/-- Scheduler choices: start a call, run, or let a weak compare-exchange fail spuriously. -/
inductive Choice (α : Type)
  | call (op : StackOp α)
  | go
  | fail
  deriving DecidableEq, Repr

variable {α Tid : Type}

/-- Whether a weak compare-exchange fails spuriously at this step. -/
def Choice.spurious : Choice α → Bool
  | .fail => true
  | _ => false

namespace Shared

/-- Dereference a node. -/
def read (g : Shared α) (p : Nat) : Except Fault (Node α) :=
  match g.heap p with
  | some n => .ok n
  | none => .error .useAfterFree

/-- Write a node's `next`. -/
def setNext (g : Shared α) (p : Nat) (n : Node α) (nxt : Option Nat) : Shared α :=
  { g with heap := Function.update g.heap p (some { n with next := nxt }) }

/-- `new node{data}`: a fresh address. -/
def new (g : Shared α) (v : α) : Shared α :=
  { g with heap := Function.update g.heap g.alloc (some ⟨v, none⟩), alloc := g.alloc + 1 }

end Shared

/-- One atomic step of a thread of `lock_free_stack`. -/
def step (g : Shared α) : Local α → Choice α → Except Fault (Shared α × Local α × Option (StackEvent α))
  | .idle, .call (.push v) => .ok (g, .pushNew v, some (.call (.push v)))
  | .idle, .call .pop => .ok (g, .popLoad, some (.call .pop))
  | .idle, _ => .ok (g, .idle, none)
  | .pushNew v, _ => .ok (g.new v, .pushLoad v g.alloc, none)
  | .pushLoad v p, _ => do
    let n ← g.read p
    return (g.setNext p n g.head, .pushCas v p, none)
  | .pushCas v p, c => do
    let n ← g.read p
    if n.next = g.head ∧ !c.spurious then
      return ({ g with head := some p }, .idle, some (.ret .pushed))
    else
      return (g.setNext p n g.head, .pushCas v p, none)
  | .popLoad, _ => .ok (g, .popTest g.head, none)
  | .popTest none, _ => .ok (g, .idle, some (.ret (.popped none)))
  | .popTest (some p), _ => do
    let n ← g.read p
    return (g, .popCas p n.next, none)
  | .popCas p nxt, c =>
    if g.head = some p ∧ !c.spurious then .ok ({ g with head := nxt }, .popRet p, none)
    else .ok (g, .popTest g.head, none)
  | .popRet p, _ => do
    let n ← g.read p
    return (g, .idle, some (.ret (.popped (some n.data))))

/-- `lock_free_stack` as a program. -/
def lockFreeStack (α : Type) : Program (Shared α) (Local α) (Choice α) (StackEvent α) :=
  ⟨step⟩

/-- The constructed stack: `head` null, no node, every thread idle. -/
def init (Tid : Type) : Conf Tid (Shared α) (Local α) :=
  ⟨⟨none, fun _ => none, 0⟩, fun _ => .idle⟩

/-! ### What a step can do -/

/-- The transitions of `lock_free_stack`, one constructor per step of the code. -/
inductive Move : Shared α → Local α → Shared α → Local α → Option (StackEvent α) → Prop
  | callPush (g : Shared α) (v : α) : Move g .idle g (.pushNew v) (some (.call (.push v)))
  | callPop (g : Shared α) : Move g .idle g .popLoad (some (.call .pop))
  | stay (g : Shared α) : Move g .idle g .idle none
  | newNode (g : Shared α) (v : α) : Move g (.pushNew v) (g.new v) (.pushLoad v g.alloc) none
  | loadHead (g : Shared α) (v : α) (p : Nat) (n : Node α) (hp : g.heap p = some n) :
      Move g (.pushLoad v p) (g.setNext p n g.head) (.pushCas v p) none
  | pushed (g : Shared α) (v : α) (p : Nat) (n : Node α) (hp : g.heap p = some n)
      (hn : n.next = g.head) : Move g (.pushCas v p) { g with head := some p } .idle (some (.ret .pushed))
  | pushRetry (g : Shared α) (v : α) (p : Nat) (n : Node α) (hp : g.heap p = some n) :
      Move g (.pushCas v p) (g.setNext p n g.head) (.pushCas v p) none
  | loadOld (g : Shared α) : Move g .popLoad g (.popTest g.head) none
  | popEmpty (g : Shared α) : Move g (.popTest none) g .idle (some (.ret (.popped none)))
  | readNext (g : Shared α) (p : Nat) (n : Node α) (hp : g.heap p = some n) :
      Move g (.popTest (some p)) g (.popCas p n.next) none
  | unlink (g : Shared α) (p : Nat) (nxt : Option Nat) (hh : g.head = some p) :
      Move g (.popCas p nxt) { g with head := nxt } (.popRet p) none
  | popRetry (g : Shared α) (p : Nat) (nxt : Option Nat) :
      Move g (.popCas p nxt) g (.popTest g.head) none
  | ret (g : Shared α) (p : Nat) (n : Node α) (hp : g.heap p = some n) :
      Move g (.popRet p) g .idle (some (.ret (.popped (some n.data))))

lemma move_of_step {g g' : Shared α} {l l' : Local α} {c : Choice α} {e : Option (StackEvent α)}
    (h : step g l c = .ok (g', l', e)) : Move g l g' l' e := by
  cases l with
  | idle =>
    rcases c with ⟨v | _⟩ | _ | _ <;> simp only [step, Except.ok.injEq, Prod.mk.injEq] at h <;>
      obtain ⟨rfl, rfl, rfl⟩ := h
    exacts [.callPush g v, .callPop g, .stay g, .stay g]
  | pushNew v =>
    simp only [step, Except.ok.injEq, Prod.mk.injEq] at h
    obtain ⟨rfl, rfl, rfl⟩ := h
    exact .newNode g v
  | pushLoad v p =>
    simp only [step, Shared.read] at h
    split at h <;> simp only [bind, Except.bind, pure, Except.pure, Except.ok.injEq,
      Prod.mk.injEq, reduceCtorEq] at h
    obtain ⟨rfl, rfl, rfl⟩ := h
    exact .loadHead g v p _ ‹_›
  | pushCas v p =>
    simp only [step, Shared.read] at h
    split at h <;> simp only [bind, Except.bind, pure, Except.pure, reduceCtorEq] at h
    split at h <;> simp only [Except.ok.injEq, Prod.mk.injEq] at h <;> obtain ⟨rfl, rfl, rfl⟩ := h
    exacts [.pushed g v p _ ‹_› (by simp_all), .pushRetry g v p _ ‹_›]
  | popLoad =>
    simp only [step, Except.ok.injEq, Prod.mk.injEq] at h
    obtain ⟨rfl, rfl, rfl⟩ := h
    exact .loadOld g
  | popTest old =>
    cases old with
    | none =>
      simp only [step, Except.ok.injEq, Prod.mk.injEq] at h
      obtain ⟨rfl, rfl, rfl⟩ := h
      exact .popEmpty g
    | some p =>
      simp only [step, Shared.read] at h
      split at h <;> simp only [bind, Except.bind, pure, Except.pure, Except.ok.injEq,
        Prod.mk.injEq, reduceCtorEq] at h
      obtain ⟨rfl, rfl, rfl⟩ := h
      exact .readNext g p _ ‹_›
  | popCas p nxt =>
    simp only [step] at h
    split at h <;> simp only [Except.ok.injEq, Prod.mk.injEq] at h <;> obtain ⟨rfl, rfl, rfl⟩ := h
    exacts [.unlink g p nxt (by simp_all), .popRetry g p nxt]
  | popRet p =>
    simp only [step, Shared.read] at h
    split at h <;> simp only [bind, Except.bind, pure, Except.pure, Except.ok.injEq,
      Prod.mk.injEq, reduceCtorEq] at h
    obtain ⟨rfl, rfl, rfl⟩ := h
    exact .ret g p _ ‹_›


/-! ### The chain from `head` -/

/-- Following `next` from `c` visits the nodes of `stk`, with their values, and ends at null. -/
def Chain (heap : Nat → Option (Node α)) : Option Nat → List (Nat × α) → Prop
  | c, [] => c = none
  | c, (p, v) :: rest => c = some p ∧ ∃ n, heap p = some n ∧ n.data = v ∧ Chain heap n.next rest

lemma Chain.live {heap : Nat → Option (Node α)} :
    ∀ {c : Option Nat} {stk : List (Nat × α)}, Chain heap c stk →
      ∀ p ∈ stk.map Prod.fst, ∃ n, heap p = some n
  | _, [], _, _, hp => by simp at hp
  | _, (q, _) :: rest, ⟨_, n, hq, _, hc⟩, p, hp => by
    rcases List.mem_cons.mp hp with rfl | hp
    · exact ⟨n, hq⟩
    · exact hc.live p hp

/-- The chain only reads the nodes it visits. -/
lemma Chain.congr {heap heap' : Nat → Option (Node α)} :
    ∀ {c : Option Nat} {stk : List (Nat × α)}, Chain heap c stk →
      (∀ p ∈ stk.map Prod.fst, heap' p = heap p) → Chain heap' c stk
  | _, [], hc, _ => hc
  | _, (q, _) :: rest, ⟨hc, n, hq, hv, hr⟩, h => by
    refine ⟨hc, n, (h q (by simp)).trans hq, hv, hr.congr fun p hp => h p ?_⟩
    simp [hp]

lemma Chain.nil_of_none {heap : Nat → Option (Node α)} {stk : List (Nat × α)}
    (h : Chain heap none stk) : stk = [] := by
  cases stk with
  | nil => rfl
  | cons e rest => exact absurd h.1 (by simp)

lemma Chain.cons_of_some {heap : Nat → Option (Node α)} {p : Nat} {stk : List (Nat × α)}
    (h : Chain heap (some p) stk) :
    ∃ n rest, stk = (p, n.data) :: rest ∧ heap p = some n ∧ Chain heap n.next rest := by
  rcases stk with _ | ⟨⟨q, v⟩, rest⟩
  · exact absurd h (by simp [Chain])
  · obtain ⟨hq, n, hn, rfl, hr⟩ := h
    cases hq
    exact ⟨n, rest, rfl, hn, hr⟩

/-- The node a thread's local state points to. -/
def Local.node : Local α → Option Nat
  | .pushLoad _ p | .pushCas _ p | .popTest (some p) | .popCas p _ | .popRet p => some p
  | _ => none

/-- The node a pushing thread has allocated and not yet published. -/
def Local.owned : Local α → Option Nat
  | .pushLoad _ p | .pushCas _ p => some p
  | _ => none

lemma Local.node_of_owned {l : Local α} {p : Nat} (h : l.owned = some p) : l.node = some p := by
  cases l <;> simp_all [Local.owned, Local.node]

/-- What a thread's local state knows about the heap. -/
def LocalOk (g : Shared α) : Local α → Prop
  | .pushLoad v p | .pushCas v p => ∃ n, g.heap p = some n ∧ n.data = v
  | .popTest (some p) | .popRet p => ∃ n, g.heap p = some n
  | .popCas p nxt => ∃ n, g.heap p = some n ∧ n.next = nxt
  | _ => True

lemma LocalOk.live {g : Shared α} {l : Local α} {p : Nat} (h : LocalOk g l)
    (hp : l.node = some p) : ∃ n, g.heap p = some n := by
  cases l with
  | popTest old => cases old <;> simp_all [Local.node, LocalOk]
  | pushLoad | pushCas | popCas =>
    simp only [Local.node, Option.some.injEq, LocalOk] at hp h
    obtain ⟨n, hn, -⟩ := h
    exact ⟨n, hp ▸ hn⟩
  | popRet => simp_all [Local.node, LocalOk]
  | _ => simp [Local.node] at hp

/-- A heap change that keeps each node the thread points to, up to its `next` when the
thread does not read it. -/
lemma LocalOk.congr {g g' : Shared α} {l : Local α} (h : LocalOk g l)
    (hg : ∀ p, l.node = some p → g'.heap p = g.heap p) : LocalOk g' l := by
  cases l with
  | popTest old => cases old <;> simp_all [Local.node, LocalOk]
  | _ => simp_all [Local.node, LocalOk]

/-- The invariant of `lock_free_stack`, at the contents `stk` the chain from `head` lists. -/
structure InvAt (s : Conf Tid (Shared α) (Local α)) (stk : List (Nat × α)) : Prop where
  chain : Chain s.shared.heap s.shared.head stk
  fresh : ∀ q, s.shared.alloc ≤ q → s.shared.heap q = none
  local_ok : ∀ t, LocalOk s.shared (s.thr t)
  unpublished : ∀ t p, (s.thr t).owned = some p → p ∉ stk.map Prod.fst
  exclusive : ∀ t u p, t ≠ u → (s.thr t).owned = some p → (s.thr u).node ≠ some p

variable [DecidableEq Tid] {s : Conf Tid (Shared α) (Local α)} {stk : List (Nat × α)}

@[simp] lemma Shared.setNext_heap (g : Shared α) (p : Nat) (n : Node α) (nxt : Option Nat) :
    (g.setNext p n nxt).heap = Function.update g.heap p (some { n with next := nxt }) := rfl

@[simp] lemma Shared.setNext_head (g : Shared α) (p : Nat) (n : Node α) (nxt : Option Nat) :
    (g.setNext p n nxt).head = g.head := rfl

@[simp] lemma Shared.setNext_alloc (g : Shared α) (p : Nat) (n : Node α) (nxt : Option Nat) :
    (g.setNext p n nxt).alloc = g.alloc := rfl

@[simp] lemma Shared.new_heap (g : Shared α) (v : α) :
    (g.new v).heap = Function.update g.heap g.alloc (some ⟨v, none⟩) := rfl

@[simp] lemma Shared.new_head (g : Shared α) (v : α) : (g.new v).head = g.head := rfl

@[simp] lemma Shared.new_alloc (g : Shared α) (v : α) : (g.new v).alloc = g.alloc + 1 := rfl

omit [DecidableEq Tid] in
lemma InvAt.lt_alloc (hI : InvAt s stk) {p : Nat} {n : Node α} (hp : s.shared.heap p = some n) :
    p < s.shared.alloc := by
  by_contra h
  simp [hI.fresh p (by omega)] at hp

/-- A step that leaves the heap alone and moves thread `t` to a local state owning nothing.
The new chain may only list nodes of the old chain, or the node `t` owned; the thread may
point only into the new chain or where it pointed before. -/
lemma InvAt.set_head (hI : InvAt s stk) {t : Tid} {g : Shared α}
    (hheap : g.heap = s.shared.heap) (halloc : g.alloc = s.shared.alloc) {stk' : List (Nat × α)}
    (hc : Chain g.heap g.head stk')
    (hsub : ∀ q ∈ stk'.map Prod.fst, q ∈ stk.map Prod.fst ∨ (s.thr t).owned = some q)
    {l : Local α} (hl : LocalOk g l) (ho : l.owned = none)
    (hn : ∀ p, l.node = some p → p ∈ stk'.map Prod.fst ∨ (s.thr t).node = some p) :
    InvAt (s.set t g l) stk' := by
  have unpub : ∀ u q, u ≠ t → (s.thr u).owned = some q → q ∉ stk'.map Prod.fst := by
    intro u q hu hq hq'
    rcases hsub q hq' with h | h
    · exact hI.unpublished u q hq h
    · exact hI.exclusive t u q (Ne.symm hu) h (Local.node_of_owned hq)
  refine ⟨hc, fun q hq => hheap ▸ hI.fresh q (halloc ▸ hq), fun u => ?_, fun u q hq => ?_,
    fun u w p huw hu hw => ?_⟩
  · rw [Conf.set_thr]; split
    · exact hl
    · exact (hI.local_ok u).congr fun p _ => by simp [hheap]
  · rw [Conf.set_thr] at hq; split at hq
    · exact Option.noConfusion (ho.symm.trans hq)
    · exact unpub u q ‹_› hq
  · rw [Conf.set_thr] at hu hw
    split at hu
    · exact Option.noConfusion (ho.symm.trans hu)
    · split at hw
      · subst w
        rcases hn p hw with hp | hp
        · exact unpub u p huw hu hp
        · exact hI.exclusive u t p huw hu hp
      · exact hI.exclusive u w p huw hu hw

/-- A step that changes only the thread's local state. -/
lemma InvAt.set_local (hI : InvAt s stk) {t : Tid} {l : Local α} (hl : LocalOk s.shared l)
    (ho : l.owned = none)
    (hn : ∀ p, l.node = some p → p ∈ stk.map Prod.fst ∨ (s.thr t).node = some p) :
    InvAt (s.set t s.shared l) stk :=
  hI.set_head rfl rfl hI.chain (fun _ hq => .inl hq) hl ho hn

/-- A step to a local state that points to no node. -/
lemma InvAt.set_unpointed (hI : InvAt s stk) {t : Tid} {l : Local α} (hl : LocalOk s.shared l)
    (hn : l.node = none) : InvAt (s.set t s.shared l) stk := by
  have ho : l.owned = none := by
    cases h : l.owned with
    | none => rfl
    | some p => exact Option.noConfusion (hn.symm.trans (Local.node_of_owned h))
  exact hI.set_local hl ho fun _ hp => Option.noConfusion (hn.symm.trans hp)

/-- The pusher writes `next` of the node it owns: nobody else can see the write. -/
lemma InvAt.setNext (hI : InvAt s stk) {t : Tid} {v : α} {p : Nat} {n : Node α}
    (hp : s.shared.heap p = some n) (ho : (s.thr t).owned = some p)
    (hv : n.data = v) (nxt : Option Nat) :
    InvAt (s.set t (s.shared.setNext p n nxt) (.pushCas v p)) stk := by
  have hne : ∀ u q, u ≠ t → (s.thr u).node = some q → q ≠ p := by
    rintro u q hu hq rfl
    exact hI.exclusive t u q (Ne.symm hu) ho hq
  have hno : ∀ q ∈ stk.map Prod.fst, q ≠ p := by
    rintro q hq rfl
    exact hI.unpublished t q ho hq
  refine ⟨hI.chain.congr fun q hq => by simp [hno q hq], fun q hq => ?_, fun u => ?_,
    fun u q hq => ?_, fun u w q huw hu hw => ?_⟩
  · have hqp : q ≠ p := fun h => by rw [h] at hq; simp [hI.fresh p hq] at hp
    simp [hqp, hI.fresh q hq]
  · rw [Conf.set_thr]; split
    · exact ⟨{ n with next := nxt }, by simp, hv⟩
    · exact (hI.local_ok u).congr fun q hq => by simp [hne u q ‹_› hq]
  · rw [Conf.set_thr] at hq; split at hq
    · have hqp : p = q := by simpa [Local.owned] using hq
      exact hqp ▸ hI.unpublished t p ho
    · exact hI.unpublished u q hq
  · rw [Conf.set_thr] at hu hw
    split at hu <;> split at hw
    · exact absurd (‹u = t›.trans ‹w = t›.symm) huw
    · have hqp : p = q := by simpa [Local.owned] using hu
      subst hqp
      exact hI.exclusive t w p (‹u = t› ▸ huw) ho hw
    · have hqp : p = q := by simpa [Local.node] using hw
      subst hqp
      exact hI.exclusive u t p (‹w = t› ▸ huw) hu (Local.node_of_owned ho)
    · exact hI.exclusive u w q huw hu hw

/-- `new node{data}`: the fresh node is owned by the pusher and by nobody else. -/
lemma InvAt.new (hI : InvAt s stk) (t : Tid) (v : α) :
    InvAt (s.set t (s.shared.new v) (.pushLoad v s.shared.alloc)) stk := by
  have hne : ∀ u q, (s.thr u).node = some q → q ≠ s.shared.alloc := by
    rintro u q hq rfl
    obtain ⟨n, hn⟩ := (hI.local_ok u).live hq
    simp [hI.fresh _ le_rfl] at hn
  have hno : ∀ q ∈ stk.map Prod.fst, q ≠ s.shared.alloc := by
    rintro q hq rfl
    obtain ⟨n, hn⟩ := hI.chain.live _ hq
    simp [hI.fresh _ le_rfl] at hn
  refine ⟨hI.chain.congr fun q hq => by simp [hno q hq], fun q hq => ?_, fun u => ?_,
    fun u q hq => ?_, fun u w q huw hu hw => ?_⟩
  · simp only [Conf.set_shared, Shared.new_alloc] at hq
    simp [show q ≠ s.shared.alloc by omega, hI.fresh q (by omega)]
  · rw [Conf.set_thr]; split
    · exact ⟨⟨v, none⟩, by simp, rfl⟩
    · exact (hI.local_ok u).congr fun q hq => by simp [hne u q hq]
  · rw [Conf.set_thr] at hq; split at hq
    · have hqa : s.shared.alloc = q := by simpa [Local.owned] using hq
      exact hqa ▸ fun h => hno _ h rfl
    · exact hI.unpublished u q hq
  · rw [Conf.set_thr] at hu hw
    split at hu <;> split at hw
    · exact absurd (‹u = t›.trans ‹w = t›.symm) huw
    · have hqa : s.shared.alloc = q := by simpa [Local.owned] using hu
      exact hne w q hw hqa.symm
    · have hqa : s.shared.alloc = q := by simpa [Local.node] using hw
      exact hne u q (Local.node_of_owned hu) hqa.symm
    · exact hI.exclusive u w q huw hu hw

/-! ### Refinement of the atomic stack -/

/-- Where each thread's call is against the atomic stack: a push takes effect at its
successful exchange; a pop at its successful exchange, or at the load that saw a null head. -/
def absThread (g : Shared α) : Local α → AtomicThread α
  | .idle => .idle
  | .pushNew v | .pushLoad v _ | .pushCas v _ => .pending (.push v)
  | .popLoad | .popTest (some _) | .popCas _ _ => .pending .pop
  | .popTest none => .done (.popped none)
  | .popRet p => .done (.popped ((g.heap p).map Node.data))

/-- The refinement relation: the invariant holds at the chain from `head`, whose values are
the atomic stack's contents, and every thread is where `absThread` puts it. -/
def Refines (s : Conf Tid (Shared α) (Local α)) (a : Conf Tid (List α) (AtomicThread α)) :
    Prop :=
  ∃ stk, InvAt s stk ∧ a.shared = stk.map Prod.snd ∧ ∀ t, a.thr t = absThread s.shared (s.thr t)

/-- `absThread` reads only the value of the node a returning pop holds. -/
lemma absThread_congr {g g' : Shared α} {l : Local α}
    (h : ∀ p, l.node = some p → (g'.heap p).map Node.data = (g.heap p).map Node.data) :
    absThread g' l = absThread g l := by
  cases l with
  | popTest old => cases old <;> rfl
  | popRet p => simp [absThread, h p rfl]
  | _ => rfl

/-- A node write that keeps every value. -/
lemma Shared.setNext_data (g : Shared α) {p : Nat} {n : Node α} (hp : g.heap p = some n)
    (nxt : Option Nat) (q : Nat) :
    ((g.setNext p n nxt).heap q).map Node.data = (g.heap q).map Node.data := by
  by_cases h : q = p
  · subst h; simp [hp]
  · simp [h]

/-- A refinement step: thread `t` moves, the atomic stack goes to `a.set t vs x`. -/
lemma Refines.set {s : Conf Tid (Shared α) (Local α)} {a : Conf Tid (List α) (AtomicThread α)}
    (hR : ∀ t, a.thr t = absThread s.shared (s.thr t)) {t : Tid} {g : Shared α} {l : Local α}
    {stk' : List (Nat × α)} (hI : InvAt (s.set t g l) stk')
    (hu : ∀ u, u ≠ t → absThread g (s.thr u) = absThread s.shared (s.thr u)) :
    Refines (s.set t g l) (a.set t (stk'.map Prod.snd) (absThread g l)) := by
  refine ⟨stk', hI, rfl, fun u => ?_⟩
  rw [Conf.set_thr, Conf.set_thr]
  split
  · subst u; rfl
  · simp [hR u, hu u ‹_›]

/-- One step of `lock_free_stack` is matched by the atomic stack. -/
lemma refines_step {s : Conf Tid (Shared α) (Local α)} {a : Conf Tid (List α) (AtomicThread α)}
    (hR : Refines s a) {t : Tid} {c : Choice α} {g : Shared α} {l : Local α}
    {e : Option (StackEvent α)} (hs : step s.shared (s.thr t) c = .ok (g, l, e)) :
    ∃ a', (atomicStack α).Reach a a' (e.map (t, ·)).toList ∧ Refines (s.set t g l) a' := by
  obtain ⟨stk, hI, ha, hthr⟩ := hR
  have heq : ∀ x, a.set t (stk.map Prod.snd) x = a.set t a.shared x := by simp [ha]
  have same : ∀ u, u ≠ t → absThread s.shared (s.thr u) = absThread s.shared (s.thr u) :=
    fun _ _ => rfl
  -- a step the atomic stack does not see
  have stutter : ∀ {g l}, InvAt (s.set t g l) stk → absThread g l = absThread s.shared (s.thr t) →
      (∀ u, u ≠ t → absThread g (s.thr u) = absThread s.shared (s.thr u)) →
      Refines (s.set t g l) a := fun hI' hl hu => by
    have := Refines.set hthr hI' hu
    rwa [hl, ← hthr t, heq, Conf.set_self] at this
  have none_node : ∀ p, (Local.idle : Local α).node ≠ some p := by simp [Local.node]
  generalize hl : s.thr t = l₀ at hs
  -- `old_head` read from `head`: the pop takes effect now if it saw null
  have toTest : absThread s.shared l₀ = .pending .pop →
      ∃ a', (atomicStack α).Reach a a' [] ∧
        Refines (s.set t s.shared (.popTest s.shared.head)) a' := by
    intro hpend
    cases hh : s.shared.head with
    | none =>
      have hs0 : stk = [] := (hh ▸ hI.chain).nil_of_none
      refine ⟨_, Atomic.reach_lin a t .pop (by rw [hthr, hl, hpend]), ?_⟩
      have hI' := hI.set_unpointed (t := t) (l := .popTest none) trivial rfl
      simpa [ha, hs0, absThread] using Refines.set hthr hI' same
    | some q =>
      obtain ⟨n, rest, rfl, hq, -⟩ := (hh ▸ hI.chain).cons_of_some
      exact ⟨a, .refl, stutter (hI.set_local (l := .popTest (some q)) ⟨n, hq⟩ rfl
        fun _ hp => .inl (Option.some.inj hp ▸ List.mem_cons_self _ _)) (by rw [hl, hpend]; rfl) same⟩
  cases move_of_step hs with
  | callPush v =>
    refine ⟨_, Atomic.reach_call a t (.push v) (by simp [hthr, hl, absThread]), ?_⟩
    rw [← heq]
    exact Refines.set hthr (hI.set_unpointed (l := .pushNew v) trivial rfl) same
  | callPop =>
    refine ⟨_, Atomic.reach_call a t .pop (by simp [hthr, hl, absThread]), ?_⟩
    rw [← heq]
    exact Refines.set hthr (hI.set_unpointed (l := .popLoad) trivial rfl) same
  | stay =>
    exact ⟨a, Program.Reach.refl, stutter (hI.set_unpointed trivial rfl) (by simp [hl]) same⟩
  | newNode v =>
    refine ⟨a, Program.Reach.refl, stutter (hI.new t v) (by simp [hl, absThread]) fun u _ =>
      absThread_congr fun q hq => ?_⟩
    obtain ⟨n, hn⟩ := (hI.local_ok u).live hq
    simp [show q ≠ s.shared.alloc from fun h => by simp [h, hI.fresh] at hn]
  | loadHead v p n hp =>
    have hv : n.data = v := by simpa [hl, LocalOk, hp] using hI.local_ok t
    exact ⟨a, Program.Reach.refl, stutter (hI.setNext hp (by simp [hl, Local.owned]) hv _)
      (by simp [hl, absThread]) fun u _ => absThread_congr fun q _ => Shared.setNext_data _ hp _ q⟩
  | pushRetry v p n hp =>
    have hv : n.data = v := by simpa [hl, LocalOk, hp] using hI.local_ok t
    exact ⟨a, Program.Reach.refl, stutter (hI.setNext hp (by simp [hl, Local.owned]) hv _)
      (by simp [hl, absThread]) fun u _ => absThread_congr fun q _ => Shared.setNext_data _ hp _ q⟩
  | pushed v p n hp hn =>
    have hv : n.data = v := by simpa [hl, LocalOk, hp] using hI.local_ok t
    refine ⟨_, Atomic.reach_lin_ret a t (.push v) (by simp [hthr, hl, absThread]), ?_⟩
    have hc : Chain s.shared.heap (some p) ((p, v) :: stk) := ⟨rfl, n, hp, hv, hn ▸ hI.chain⟩
    have hI' : InvAt (s.set t { s.shared with head := some p } .idle) ((p, v) :: stk) :=
      hI.set_head (g := { s.shared with head := some p }) rfl rfl hc
        (fun q hq => by
          rcases List.mem_cons.mp hq with h | h
          · exact .inr (by simp [hl, Local.owned, h])
          · exact .inl h)
        trivial rfl (fun q hq => absurd hq (none_node q))
    simpa [ha] using Refines.set hthr hI' same
  | loadOld => exact toTest rfl
  | popRetry p nxt => exact toTest rfl
  | popEmpty =>
    refine ⟨_, Atomic.reach_ret a t (.popped none) (by simp [hthr, hl, absThread]), ?_⟩
    rw [← heq]
    exact Refines.set hthr (hI.set_unpointed trivial rfl) same
  | readNext p n hp =>
    exact ⟨a, .refl, stutter (hI.set_local (l := .popCas p n.next) ⟨n, hp, rfl⟩ rfl
      (fun q hq => .inr (by simpa [hl, Local.node] using hq))) (by simp [hl, absThread]) same⟩
  | unlink p nxt hh =>
    obtain ⟨n, hn, hnxt⟩ : ∃ n, s.shared.heap p = some n ∧ n.next = nxt := by
      simpa [hl, LocalOk] using hI.local_ok t
    obtain ⟨n', rest, rfl, hn', hc⟩ := (hh ▸ hI.chain).cons_of_some
    obtain rfl : n' = n := Option.some.inj (hn'.symm.trans hn)
    refine ⟨_, Atomic.reach_lin a t .pop (by simp [hthr, hl, absThread]), ?_⟩
    have hI' : InvAt (s.set t { s.shared with head := nxt } (.popRet p)) rest :=
      hI.set_head (g := { s.shared with head := nxt }) rfl rfl (hnxt ▸ hc)
        (fun q hq => .inl (List.mem_cons_of_mem _ hq)) ⟨n', hn'⟩ rfl
        (fun q hq => .inr (by simpa [hl, Local.node] using hq))
    simpa [ha, absThread, hn'] using Refines.set hthr hI' same
  | ret p n hp =>
    refine ⟨_, Atomic.reach_ret a t (.popped (some n.data))
      (by simp [hthr, hl, absThread, hp]), ?_⟩
    rw [← heq]
    exact Refines.set hthr (hI.set_unpointed trivial rfl) same

omit [DecidableEq Tid] in
lemma refines_init : Refines (init Tid : Conf Tid (Shared α) (Local α)) (atomicInit Tid []) :=
  ⟨[], ⟨rfl, fun _ _ => rfl, fun _ => trivial, fun _ _ h => by simp [init, Local.owned] at h,
    fun _ _ _ _ h => by simp [init, Local.owned] at h⟩, rfl, fun _ => rfl⟩

lemma refines_reach {s₀ s : Conf Tid (Shared α) (Local α)}
    {a₀ : Conf Tid (List α) (AtomicThread α)} {h : List (Tid × StackEvent α)}
    (h0 : Refines s₀ a₀) (hr : (lockFreeStack α).Reach s₀ s h) :
    ∃ a, (atomicStack α).Reach a₀ a h ∧ Refines s a :=
  Program.Reach.simulate Refines h0 (fun _ _ _ _ _ _ _ hR hs => refines_step hR hs) hr

/-! ### A thread running alone -/

/-- A call of a thread running alone returns, from any state whose chain from `head` is live:
`push` after four steps, `pop` after three on an empty stack and after five otherwise. The
other threads do not move. -/
lemma reach_call_alone {t : Tid} (hc : Chain s.shared.heap s.shared.head stk) (ht : s.thr t = .idle)
    (op : StackOp α) : ∃ g r, (lockFreeStack α).Reach s ⟨g, s.thr⟩ [(t, .call op), (t, .ret r)] := by
  have hidle : ∀ g, s.set t g .idle = ⟨g, s.thr⟩ := fun g => by rw [← ht, Conf.set_shared_only]
  cases op with
  | push v =>
    have h : (lockFreeStack α).run s [(t, .call (.push v)), (t, .go), (t, .go), (t, .go)] =
        .ok (s.set t { (s.shared.new v).setNext s.shared.alloc ⟨v, none⟩ s.shared.head with
          head := some s.shared.alloc } .idle, [(t, .call (.push v)), (t, .ret .pushed)]) := by
      simp [Program.run, lockFreeStack, step, ht, Shared.read, Choice.spurious, bind, Except.bind,
        pure, Except.pure]
    exact ⟨_, _, hidle _ ▸ Program.reach_of_run h⟩
  | pop =>
    cases hh : s.shared.head with
    | none =>
      have h : (lockFreeStack α).run s [(t, .call .pop), (t, .go), (t, .go)] =
          .ok (s.set t s.shared .idle, [(t, .call .pop), (t, .ret (.popped none))]) := by
        simp [Program.run, lockFreeStack, step, ht, hh]
      exact ⟨_, _, hidle _ ▸ Program.reach_of_run h⟩
    | some p =>
      obtain ⟨n, -, -, hp, -⟩ := (hh ▸ hc).cons_of_some
      have h : (lockFreeStack α).run s [(t, .call .pop), (t, .go), (t, .go), (t, .go), (t, .go)] =
          .ok (s.set t { s.shared with head := n.next } .idle,
            [(t, .call .pop), (t, .ret (.popped (some n.data)))]) := by
        simp [Program.run, lockFreeStack, step, ht, hh, hp, Shared.read, Choice.spurious, bind,
          Except.bind, pure, Except.pure]
      exact ⟨_, _, hidle _ ▸ Program.reach_of_run h⟩

/-- A thread running alone from a reachable state completes any sequence of calls, each
returning before the next starts. -/
lemma reach_calls_alone {t : Tid} {h : List (Tid × StackEvent α)}
    (hr : (lockFreeStack α).Reach (init Tid) s h) (ht : s.thr t = .idle) (ops : List (StackOp α)) :
    ∃ s' rets, (lockFreeStack α).Reach s s' ((callsRets (ops.zip rets)).map (t, ·)) ∧
      rets.length = ops.length ∧ s'.thr = s.thr := by
  induction ops generalizing s h with
  | nil => exact ⟨s, [], .refl, rfl, rfl⟩
  | cons op ops ih =>
    obtain ⟨-, -, stk, hI, -⟩ := refines_reach refines_init hr
    obtain ⟨g, r, hr₁⟩ := reach_call_alone hI.chain ht op
    obtain ⟨s', rets, hr₂, hlen, hthr⟩ := ih (hr.trans hr₁) ht
    exact ⟨s', r :: rets, by simpa [callsRets] using hr₁.trans hr₂, by simp [hlen], hthr⟩

/-- What a lone thread's calls return: from a quiescent reachable state, pushing `v₁ … vₙ`
and then popping `n` times gets `vₙ … v₁`. -/
lemma rets_push_pop_alone {t : Tid} {h : List (Tid × StackEvent α)}
    (hr : (lockFreeStack α).Reach (init Tid) s h) (hq : ∀ u, s.thr u = .idle) (ws : List α)
    (rets : List (StackRet α)) {s' : Conf Tid (Shared α) (Local α)} {h' : List (Tid × StackEvent α)}
    (hr' : (lockFreeStack α).Reach s s' h') (ht : ∀ x ∈ h', x.1 = t)
    (hh : h'.map Prod.snd =
      callsRets ((ws.map StackOp.push ++ List.replicate ws.length StackOp.pop).zip rets))
    (hlen : rets.length = 2 * ws.length) :
    rets = ws.map (fun _ => .pushed) ++ ws.reverse.map fun w => .popped (some w) := by
  obtain ⟨a, -, hR⟩ := refines_reach refines_init hr
  obtain ⟨a', ha', -⟩ := refines_reach hR hr'
  obtain ⟨stk, -, -, hthr⟩ := hR
  have := Atomic.sequential ha' (fun u => by rw [hthr, hq]; rfl) ht hh
  have hl : (ws.map StackOp.push ++ List.replicate ws.length StackOp.pop).length = rets.length := by
    simp [hlen]; omega
  rwa [List.map_snd_zip _ _ hl.ge, List.map_fst_zip _ _ hl.le, StackOp.run_push_pop] at this

/-- `lock_free_stack` is linearizable: every history from the constructed stack is a history
of the atomic stack, each call taking effect where `absThread` says (its successful exchange
on `head`, or for an empty pop the load that saw null). Hence, once every call has returned,
the values on the stack and those popped are exactly those pushed, none lost and none twice.
From a quiescent state, a thread running alone that pushes `v₁ … vₙ` and then pops `n` times
completes all its calls and gets `vₙ … v₁`, and every such run returns exactly that. -/
theorem lockFreeStack_linearizable [Fintype Tid] {s : Conf Tid (Shared α) (Local α)}
    {h : List (Tid × StackEvent α)} (hr : (lockFreeStack α).Reach (init Tid) s h) :
    (∃ a, (atomicStack α).Reach (atomicInit Tid []) a h ∧ Refines s a) ∧
    ((∀ t, s.thr t = .idle) → ∃ stk, Chain s.shared.heap s.shared.head stk ∧
      ↑(stk.map Prod.snd) + poppedValues h = pushedValues h) ∧
    (∀ (t : Tid) (ws : List α), (∀ u, s.thr u = .idle) →
      ∃ s', (lockFreeStack α).Reach s s'
        ((callsRets ((ws.map StackOp.push ++ List.replicate ws.length StackOp.pop).zip
          (ws.map (fun _ => StackRet.pushed) ++ ws.reverse.map fun w => StackRet.popped (some w)))).map
          (t, ·)) ∧
        ∀ u, s'.thr u = .idle) ∧
    (∀ (t : Tid) (ws : List α) (rets : List (StackRet α)) (s' : Conf Tid (Shared α) (Local α))
      (h' : List (Tid × StackEvent α)), (∀ u, s.thr u = .idle) →
      (lockFreeStack α).Reach s s' h' → (∀ x ∈ h', x.1 = t) →
      h'.map Prod.snd =
        callsRets ((ws.map StackOp.push ++ List.replicate ws.length StackOp.pop).zip rets) →
      rets.length = 2 * ws.length →
      rets = ws.map (fun _ => .pushed) ++ ws.reverse.map fun w => .popped (some w)) := by
  obtain ⟨a, ha, stk, hI, hsh, hthr⟩ := refines_reach refines_init hr
  refine ⟨⟨a, ha, stk, hI, hsh, hthr⟩, fun hq => ⟨stk, hI.chain, ?_⟩, fun t ws hq => ?_,
    fun t ws rets s' h' hq hr' ht hh hlen => rets_push_pop_alone hr hq ws rets hr' ht hh hlen⟩
  · have := AtomicStack.conservation ha
    simpa [fun t => show a.thr t = .idle by rw [hthr, hq]; rfl, AtomicThread.held, hsh] using this
  · obtain ⟨s', rets, hr', hlen, hthr'⟩ := reach_calls_alone hr (hq t)
      (ws.map StackOp.push ++ List.replicate ws.length StackOp.pop)
    have hrets := rets_push_pop_alone (t := t) hr hq ws rets hr' (by simp)
      (by simp [List.map_map, Function.comp_def]) (by simp [hlen]; omega)
    exact ⟨s', hrets ▸ hr', fun u => hthr' ▸ hq u⟩

/-- Two pushes race: thread 1's exchange wins, thread 0's fails and retries against the new
`head`, and a pop of thread 1 then takes thread 0's value off the top. -/
theorem lockFreeStack_linearizable_retry :
    ∃ (s : Conf (Fin 2) (Shared Nat) (Local Nat)) (h : List (Fin 2 × StackEvent Nat)),
      (lockFreeStack Nat).Reach (init (Fin 2)) s h ∧
      h = [(0, .call (.push 1)), (1, .call (.push 2)), (1, .ret .pushed), (0, .ret .pushed),
        (1, .call .pop), (1, .ret (.popped (some 1)))] ∧ (∀ u, s.thr u = .idle) ∧
      ((∃ a, (atomicStack Nat).Reach (atomicInit (Fin 2) []) a h ∧ Refines s a) ∧
      ((∀ t, s.thr t = .idle) → ∃ stk, Chain s.shared.heap s.shared.head stk ∧
        ↑(stk.map Prod.snd) + poppedValues h = pushedValues h) ∧
      (∀ (t : Fin 2) (ws : List Nat), (∀ u, s.thr u = .idle) →
        ∃ s', (lockFreeStack Nat).Reach s s'
          ((callsRets ((ws.map StackOp.push ++ List.replicate ws.length StackOp.pop).zip
            (ws.map (fun _ => StackRet.pushed) ++ ws.reverse.map fun w => StackRet.popped (some w)))).map
          (t, ·)) ∧
          ∀ u, s'.thr u = .idle) ∧
      (∀ (t : Fin 2) (ws : List Nat) (rets : List (StackRet Nat)) (s' : Conf (Fin 2) (Shared Nat) (Local Nat))
        (h' : List (Fin 2 × StackEvent Nat)), (∀ u, s.thr u = .idle) →
        (lockFreeStack Nat).Reach s s' h' → (∀ x ∈ h', x.1 = t) →
        h'.map Prod.snd =
          callsRets ((ws.map StackOp.push ++ List.replicate ws.length StackOp.pop).zip rets) →
        rets.length = 2 * ws.length →
        rets = ws.map (fun _ => .pushed) ++ ws.reverse.map fun w => .popped (some w))) := by
  have key : (match (lockFreeStack Nat).run (init (Fin 2))
      [(0, .call (.push 1)), (0, .go), (0, .go), (1, .call (.push 2)), (1, .go), (1, .go), (1, .go),
        (0, .go), (0, .go), (1, .call .pop), (1, .go), (1, .go), (1, .go), (1, .go)] with
    | .ok (s, h) => decide (h = [(0, .call (.push 1)), (1, .call (.push 2)), (1, .ret .pushed),
        (0, .ret .pushed), (1, .call .pop), (1, .ret (.popped (some 1)))] ∧ ∀ u, s.thr u = .idle)
    | .error _ => false) = true := by decide
  split at key
  · have hr := Program.reach_of_run ‹_›
    obtain ⟨hh, hq⟩ := of_decide_eq_true key
    exact ⟨_, _, hr, hh, hq, lockFreeStack_linearizable hr⟩
  · cases key

end LockFreeStack

end ConcurrencyInAction
