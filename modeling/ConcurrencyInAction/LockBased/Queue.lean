import ConcurrencyInAction.Atomic

/-!
# `threadsafe_queue`: two locks and a dummy node

The queue of `lock_base_data_structure.cpp`: `push` fills the dummy node at `tail` and links a
new dummy under `tail_mutex`; the pops take `head_mutex`, compare `head` with `get_tail()` and
unlink the first node. Each critical section is one step. `try_pop()` calls `pop_head()` with no
lock and no comparison, so each of its accesses is a step of its own, and on the constructed
queue it destroys the dummy node that `tail` still points to.

As written the class does not compile; the model assumes these repairs:
* `pop_head` returns its `const` local `old_head` by value, which copies a `unique_ptr`: read as
  a move;
* `try_pop(T&)` returns `old_head` as `bool`, which needs an explicit conversion: read as
  `old_head != nullptr`;
* `wait_for_data` and `empty` compare `head` with `get_tail()`, a `unique_ptr` with a `node*`:
  read as `head.get()`, as `try_pop_head` does.
-/

namespace ConcurrencyInAction

/-! ### The sequential queue -/

/-- The calls of the queue. -/
inductive QueueOp (α : Type)
  | push (v : α)
  /-- `try_pop()`, returning a `shared_ptr`. -/
  | tryPop
  /-- `try_pop(T&)`. -/
  | tryPopRef
  /-- `wait_and_pop(T&)`. -/
  | waitAndPop
  | empty
  deriving DecidableEq, Repr

/-- What a call returns: the pops a value or nothing, `empty` whether the queue is empty. -/
inductive QueueRet (α : Type)
  | pushed
  | popped (r : Option α)
  | isEmpty (b : Bool)
  deriving DecidableEq, Repr

variable {α : Type}

/-- Take the front of a queue. -/
def popFront : List α → List α × QueueRet α
  | [] => ([], .popped none)
  | v :: q => (q, .popped (some v))

/-- The sequential first-in-first-out queue, front first. -/
def QueueOp.apply : QueueOp α → List α → List α × QueueRet α
  | .push v, q => (q ++ [v], .pushed)
  | .tryPop, q | .tryPopRef, q | .waitAndPop, q => popFront q
  | .empty, q => (q, .isEmpty q.isEmpty)

namespace ThreadsafeQueue

/-- `threadsafe_queue::node`: the value (a null `shared_ptr` is `none`) and the successor. -/
structure Node (α : Type) where
  data : Option α
  next : Option Nat
  deriving DecidableEq, Repr

/-- The shared state: `head`, `tail`, the heap of nodes and the next fresh address. -/
structure Shared (α : Type) where
  head : Option Nat
  tail : Option Nat
  heap : Nat → Option (Node α)
  alloc : Nat

/-- Program counters of the calls, with the locals live at each. -/
inductive Pc (α : Type)
  | idle
  /-- `push(new_value)`: `make_shared<T>` and `new node`. -/
  | pushNew (v : α)
  /-- Under `tail_mutex`: `tail->data=new_data; tail->next=std::move(p); tail=new_tail;`. -/
  | pushLink (v : α) (p : Nat)
  /-- `try_pop()`, in `pop_head()`: `old_head=std::move(head)`. -/
  | tryPopMove
  /-- `head=std::move(old_head->next)`. -/
  | tryPopNext (old : Option Nat)
  /-- `return old_head?old_head->data:...`; then `old_head` destroys the node. -/
  | tryPopRet (old : Nat)
  /-- `try_pop(T&)`: `try_pop_head(value)` under `head_mutex`. -/
  | tryPopRef
  /-- `wait_and_pop(T&)`: `wait_for_data()` until `head` is not `tail`, then the rest of
  `wait_pop_head(value)`, under `head_mutex`. -/
  | waitAndPop
  /-- `empty()` under `head_mutex`. -/
  | empty
  deriving DecidableEq, Repr

/-- Where a call starts. -/
def Pc.ofOp : QueueOp α → Pc α
  | .push v => .pushNew v
  | .tryPop => .tryPopMove
  | .tryPopRef => .tryPopRef
  | .waitAndPop => .waitAndPop
  | .empty => .empty

/-- Visible events of the queue. -/
abbrev Event (α : Type) := Atomic.Event (QueueOp α) (QueueRet α)

namespace Shared

/-- `new node`: a fresh dummy. -/
def new (g : Shared α) : Shared α :=
  { g with heap := Function.update g.heap g.alloc (some ⟨none, none⟩), alloc := g.alloc + 1 }

/-- `value=std::move(*head->data)`, then `pop_head()`: `head` moves to the successor and the
old head is destroyed. -/
def popHead (g : Shared α) : Except Fault (Shared α × α) :=
  match g.head with
  | none => .error .nullDeref
  | some p =>
    match g.heap p with
    | none => .error .useAfterFree
    | some n =>
      match n.data with
      | none => .error .nullDeref
      | some v => .ok ({ g with head := n.next, heap := Function.update g.heap p none }, v)

/-- The critical section of `push` on `tail`. -/
def link (g : Shared α) (v : α) (p : Nat) : Except Fault (Shared α) :=
  match g.tail with
  | none => .error .nullDeref
  | some q =>
    match g.heap q with
    | none => .error .useAfterFree
    | some _ => .ok { g with heap := Function.update g.heap q (some ⟨some v, some p⟩), tail := some p }

end Shared

/-- One step of a thread. -/
def step (g : Shared α) : Pc α → Atomic.Choice (QueueOp α) → Except Fault (Shared α × Pc α × Option (Event α))
  | .idle, .call op => .ok (g, .ofOp op, some (.call op))
  | .idle, .go => .ok (g, .idle, none)
  | .pushNew v, _ => .ok (g.new, .pushLink v g.alloc, none)
  | .pushLink v p, _ => do
    let g' ← g.link v p
    return (g', .idle, some (.ret .pushed))
  | .tryPopMove, _ => .ok ({ g with head := none }, .tryPopNext g.head, none)
  | .tryPopNext none, _ => .error .nullDeref
  | .tryPopNext (some p), _ =>
    match g.heap p with
    | none => .error .useAfterFree
    | some n => .ok ({ g with head := n.next }, .tryPopRet p, none)
  | .tryPopRet p, _ =>
    match g.heap p with
    | none => .error .useAfterFree
    | some n => .ok ({ g with heap := Function.update g.heap p none }, .idle, some (.ret (.popped n.data)))
  | .tryPopRef, _ =>
    if g.head = g.tail then .ok (g, .idle, some (.ret (.popped none)))
    else do
      let (g', v) ← g.popHead
      return (g', .idle, some (.ret (.popped (some v))))
  | .waitAndPop, _ =>
    if g.head = g.tail then .ok (g, .waitAndPop, none)
    else do
      let (g', v) ← g.popHead
      return (g', .idle, some (.ret (.popped (some v))))
  | .empty, _ => .ok (g, .idle, some (.ret (.isEmpty (decide (g.head = g.tail)))))

/-- `threadsafe_queue` as a program. -/
def threadsafeQueue (α : Type) : Program (Shared α) (Pc α) (Atomic.Choice (QueueOp α)) (Event α) :=
  ⟨step⟩

/-- The constructed queue: `head(new node), tail(head.get())`, every thread idle. -/
def init (Tid : Type) : Conf Tid (Shared α) (Pc α) :=
  ⟨⟨some 0, some 0, fun p => if p = 0 then some ⟨none, none⟩ else none, 1⟩, fun _ => .idle⟩

/-! ### What a step can do -/

namespace Shared

lemma popHead_eq_ok {g g' : Shared α} {v : α} (h : g.popHead = .ok (g', v)) :
    ∃ p nxt, g.head = some p ∧ g.heap p = some ⟨some v, nxt⟩ ∧
      g' = { g with head := nxt, heap := Function.update g.heap p none } := by
  unfold popHead at h
  rcases hh : g.head with _ | p <;> simp only [hh] at h
  · cases h
  · rcases hn : g.heap p with _ | n <;> simp only [hn] at h
    · cases h
    · rcases hd : n.data with _ | w <;> simp only [hd] at h
      · cases h
      · cases h; exact ⟨p, n.next, rfl, by rw [hn, ← hd], rfl⟩

lemma link_eq_ok {g g' : Shared α} {v : α} {p : Nat} (h : g.link v p = .ok g') :
    ∃ q n, g.tail = some q ∧ g.heap q = some n ∧
      g' = { g with heap := Function.update g.heap q (some ⟨some v, some p⟩), tail := some p } := by
  unfold link at h
  split at h
  · cases h
  · split at h
    · cases h
    · cases h
      exact ⟨_, _, ‹_›, ‹_›, rfl⟩

@[simp] lemma new_heap (g : Shared α) :
    g.new.heap = Function.update g.heap g.alloc (some ⟨none, none⟩) := rfl

@[simp] lemma new_head (g : Shared α) : g.new.head = g.head := rfl

@[simp] lemma new_tail (g : Shared α) : g.new.tail = g.tail := rfl

@[simp] lemma new_alloc (g : Shared α) : g.new.alloc = g.alloc + 1 := rfl

end Shared

/-- The transitions of a thread, one constructor per branch of the code. -/
inductive Move : Shared α → Pc α → Shared α → Pc α → Option (Event α) → Prop
  | call (g : Shared α) (op : QueueOp α) : Move g .idle g (.ofOp op) (some (.call op))
  | stay (g : Shared α) : Move g .idle g .idle none
  | newNode (g : Shared α) (v : α) : Move g (.pushNew v) g.new (.pushLink v g.alloc) none
  | link (g g' : Shared α) (v : α) (p : Nat) (h : g.link v p = .ok g') :
      Move g (.pushLink v p) g' .idle (some (.ret .pushed))
  | tryMove (g : Shared α) : Move g .tryPopMove { g with head := none } (.tryPopNext g.head) none
  | tryNext (g : Shared α) (p : Nat) (n : Node α) (hp : g.heap p = some n) :
      Move g (.tryPopNext (some p)) { g with head := n.next } (.tryPopRet p) none
  | tryRet (g : Shared α) (p : Nat) (n : Node α) (hp : g.heap p = some n) :
      Move g (.tryPopRet p) { g with heap := Function.update g.heap p none } .idle
        (some (.ret (.popped n.data)))
  | tryEmpty (g : Shared α) (h : g.head = g.tail) :
      Move g .tryPopRef g .idle (some (.ret (.popped none)))
  | tryPopped (g g' : Shared α) (v : α) (h : g.head ≠ g.tail) (hp : g.popHead = .ok (g', v)) :
      Move g .tryPopRef g' .idle (some (.ret (.popped (some v))))
  | wait (g : Shared α) (h : g.head = g.tail) : Move g .waitAndPop g .waitAndPop none
  | waitPopped (g g' : Shared α) (v : α) (h : g.head ≠ g.tail) (hp : g.popHead = .ok (g', v)) :
      Move g .waitAndPop g' .idle (some (.ret (.popped (some v))))
  | empty (g : Shared α) :
      Move g .empty g .idle (some (.ret (.isEmpty (decide (g.head = g.tail)))))

lemma move_of_step {g g' : Shared α} {l l' : Pc α} {c : Atomic.Choice (QueueOp α)}
    {e : Option (Event α)} (h : step g l c = .ok (g', l', e)) : Move g l g' l' e := by
  have done : ∀ {x : Shared α × Pc α × Option (Event α)},
      (.ok x : Except Fault _) = .ok (g', l', e) → x = (g', l', e) := fun h => by cases h; rfl
  have bind : ∀ {r : Except Fault (Shared α × α)}
      {v : Shared α × α → Except Fault (Shared α × Pc α × Option (Event α))},
      (r >>= v) = .ok (g', l', e) → ∃ x, r = .ok x ∧ v x = .ok (g', l', e) := by
    intro r v h
    cases r with
    | error f => cases h
    | ok x => exact ⟨x, rfl, h⟩
  cases l with
  | idle =>
    cases c with
    | call op => cases done h; exact .call g op
    | go => cases done h; exact .stay g
  | pushNew v => cases done h; exact .newNode g v
  | pushLink v p =>
    simp only [step, Bind.bind, Except.bind] at h
    split at h
    · cases h
    · cases done h; exact .link g _ v p ‹_›
  | tryPopMove => cases done h; exact .tryMove g
  | tryPopNext old =>
    rcases old with _ | p
    · cases h
    · simp only [step] at h
      split at h
      · cases h
      · cases done h; exact .tryNext g p _ ‹_›
  | tryPopRet p =>
    simp only [step] at h
    split at h
    · cases h
    · cases done h; exact .tryRet g p _ ‹_›
  | tryPopRef =>
    simp only [step] at h
    split at h
    · cases done h; exact .tryEmpty g ‹_›
    · obtain ⟨⟨g'', v⟩, hp, h⟩ := bind h
      cases done h; exact .tryPopped g _ v ‹_› hp
  | waitAndPop =>
    simp only [step] at h
    split at h
    · cases done h; exact .wait g ‹_›
    · obtain ⟨⟨g'', v⟩, hp, h⟩ := bind h
      cases done h; exact .waitPopped g _ v ‹_› hp
  | empty => cases done h; exact .empty g

/-! ### The chain from `head` to `tail` -/

/-- Following `next` from `c` visits the nodes of `stk`, each holding its value, and ends at
the node `tl`, which holds neither data nor successor. -/
def Chain (heap : Nat → Option (Node α)) (tl : Nat) : Option Nat → List (Nat × α) → Prop
  | c, [] => c = some tl ∧ heap tl = some ⟨none, none⟩
  | c, (p, v) :: rest => c = some p ∧ ∃ nxt, heap p = some ⟨some v, nxt⟩ ∧ Chain heap tl nxt rest

section Chain

variable {heap : Nat → Option (Node α)} {tl : Nat}

lemma Chain.tail_live : ∀ {c : Option Nat} {stk : List (Nat × α)}, Chain heap tl c stk →
    heap tl = some ⟨none, none⟩
  | _, [], h => h.2
  | _, _ :: _, ⟨_, _, _, h⟩ => h.tail_live

lemma Chain.live : ∀ {c : Option Nat} {stk : List (Nat × α)}, Chain heap tl c stk →
    ∀ p ∈ stk.map Prod.fst, heap p ≠ none
  | _, [], _, _, hp => by simp at hp
  | _, (q, _) :: rest, ⟨_, _, hq, hr⟩, p, hp => by
    rcases List.mem_cons.mp hp with rfl | hp
    · simp [hq]
    · exact hr.live p hp

/-- The chain only reads the nodes it visits and `tl`. -/
lemma Chain.congr {heap' : Nat → Option (Node α)} :
    ∀ {c : Option Nat} {stk : List (Nat × α)}, Chain heap tl c stk → heap' tl = heap tl →
      (∀ p ∈ stk.map Prod.fst, heap' p = heap p) → Chain heap' tl c stk
  | _, [], ⟨hc, ht⟩, h, _ => ⟨hc, h.trans ht⟩
  | _, (q, _) :: _, ⟨hc, nxt, hq, hr⟩, h, hs =>
    ⟨hc, nxt, (hs q (List.mem_cons_self _ _)).trans hq,
      hr.congr h fun p hp => hs p (List.mem_cons_of_mem _ hp)⟩

/-- The chain reaches `tl` at once exactly when it lists no value. -/
lemma Chain.eq_tail_iff : ∀ {c : Option Nat} {stk : List (Nat × α)}, Chain heap tl c stk →
    tl ∉ stk.map Prod.fst → (c = some tl ↔ stk = [])
  | _, [], ⟨hc, _⟩, _ => by simp [hc]
  | _, (q, _) :: _, ⟨hc, _⟩, hn => by
    simp only [List.map_cons, List.mem_cons, not_or] at hn
    simp [hc, Ne.symm hn.1]

/-- `push`'s critical section: the dummy `tl` takes the value and the new dummy `p`. -/
lemma Chain.append {p : Nat} (v : α) (hp : heap p = some ⟨none, none⟩) (hpt : p ≠ tl) :
    ∀ {c : Option Nat} {stk : List (Nat × α)}, Chain heap tl c stk → tl ∉ stk.map Prod.fst →
      Chain (Function.update heap tl (some ⟨some v, some p⟩)) p c (stk ++ [(tl, v)])
  | _, [], ⟨hc, _⟩, _ => ⟨hc, some p, by simp, rfl, by simp [hpt, hp]⟩
  | _, (q, w) :: rest, ⟨hc, nxt, hq, hr⟩, hn => by
    simp only [List.map_cons, List.mem_cons, not_or] at hn
    exact ⟨hc, nxt, by simp [Ne.symm hn.1, hq], hr.append v hp hpt hn.2⟩

end Chain

/-- The node a pushing thread has allocated and not yet linked. -/
def Pc.owned : Pc α → Option Nat
  | .pushLink _ p => some p
  | _ => none

/-- Whether a thread is inside `try_pop()`, which takes no lock. -/
def Pc.unlocked : Pc α → Bool
  | .tryPopMove | .tryPopNext _ | .tryPopRet _ => true
  | _ => false

@[simp] lemma Pc.owned_ofOp (op : QueueOp α) : (Pc.ofOp op).owned = none := by
  cases op <;> rfl

/-- The invariant, at the chain `stk` from `head` to the dummy `tl`: `tail` points to the
dummy, no node is listed twice, no address at or past `alloc` is in use, each pushing
thread's new node is a dummy of its own off the chain, and no thread is inside `try_pop()`. -/
structure InvAt {Tid : Type} (s : Conf Tid (Shared α) (Pc α)) (stk : List (Nat × α)) (tl : Nat) :
    Prop where
  chain : Chain s.shared.heap tl s.shared.head stk
  tail : s.shared.tail = some tl
  nodup : (tl :: stk.map Prod.fst).Nodup
  fresh : ∀ q, s.shared.alloc ≤ q → s.shared.heap q = none
  owned : ∀ t p, (s.thr t).owned = some p →
    s.shared.heap p = some ⟨none, none⟩ ∧ p ∉ tl :: stk.map Prod.fst
  exclusive : ∀ t u p, (s.thr t).owned = some p → (s.thr u).owned = some p → t = u
  locked : ∀ t, (s.thr t).unlocked = false

section Invariant

variable {Tid : Type} [DecidableEq Tid] {s : Conf Tid (Shared α) (Pc α)} {stk : List (Nat × α)}
  {tl : Nat} {t : Tid}

omit [DecidableEq Tid] in
lemma InvAt.lt_alloc (hI : InvAt s stk tl) {p : Nat} (hp : s.shared.heap p ≠ none) :
    p < s.shared.alloc :=
  Nat.lt_of_not_le fun h => hp (hI.fresh p h)

omit [DecidableEq Tid] in
lemma InvAt.tail_eq_head_iff (hI : InvAt s stk tl) : s.shared.head = s.shared.tail ↔ stk = [] := by
  rw [hI.tail]
  exact hI.chain.eq_tail_iff (List.nodup_cons.mp hI.nodup).1

/-- The invariant after thread `t` moved to `l` and the shared state to `g`: the new chain,
`tail` and heap are given, and every node a thread owns must still be a dummy off the chain,
owned by that thread alone. -/
lemma InvAt.set (hI : InvAt s stk tl) {g : Shared α} {l : Pc α} {stk' : List (Nat × α)}
    {tl' : Nat} (hchain : Chain g.heap tl' g.head stk') (htail : g.tail = some tl')
    (hnodup : (tl' :: stk'.map Prod.fst).Nodup) (hfresh : ∀ q, g.alloc ≤ q → g.heap q = none)
    (hown : ∀ p, l.owned = some p → g.heap p = some ⟨none, none⟩ ∧
      p ∉ tl' :: stk'.map Prod.fst ∧ ∀ u, u ≠ t → (s.thr u).owned ≠ some p)
    (hothers : ∀ u p, u ≠ t → (s.thr u).owned = some p →
      g.heap p = some ⟨none, none⟩ ∧ p ∉ tl' :: stk'.map Prod.fst)
    (hl : l.unlocked = false) : InvAt (s.set t g l) stk' tl' where
  chain := by simpa using hchain
  tail := by simpa using htail
  nodup := hnodup
  fresh := by simpa using hfresh
  owned u p hp := by
    by_cases hu : u = t
    · subst hu
      obtain ⟨hn, hm, -⟩ := hown p (by simpa using hp)
      exact ⟨by simpa using hn, hm⟩
    · rw [Conf.set_thr_ne _ _ _ hu] at hp
      simpa using hothers u p hu hp
  exclusive u w p hu hw := by
    by_cases hut : u = t <;> by_cases hwt : w = t
    · rw [hut, hwt]
    · subst hut
      rw [Conf.set_thr_self] at hu; rw [Conf.set_thr_ne _ _ _ hwt] at hw
      exact absurd hw ((hown p hu).2.2 w hwt)
    · subst hwt
      rw [Conf.set_thr_self] at hw; rw [Conf.set_thr_ne _ _ _ hut] at hu
      exact absurd hu ((hown p hw).2.2 u hut)
    · rw [Conf.set_thr_ne _ _ _ hut] at hu; rw [Conf.set_thr_ne _ _ _ hwt] at hw
      exact hI.exclusive u w p hu hw
  locked u := by
    by_cases hu : u = t
    · subst hu; simpa using hl
    · rw [Conf.set_thr_ne _ _ _ hu]; exact hI.locked u

/-- A step that changes only thread `t`'s local state, to one that owns no node and is not
inside `try_pop()`. -/
lemma InvAt.set_local (hI : InvAt s stk tl) {l : Pc α} (ho : l.owned = none)
    (hu : l.unlocked = false) : InvAt (s.set t s.shared l) stk tl :=
  hI.set hI.chain hI.tail hI.nodup hI.fresh (by simp [ho]) (fun u p _ hp => hI.owned u p hp) hu

/-- `new node`: the fresh address becomes the pusher's own dummy. -/
lemma InvAt.new (hI : InvAt s stk tl) (v : α) :
    InvAt (s.set t s.shared.new (.pushLink v s.shared.alloc)) stk tl := by
  have hlive : ∀ p, s.shared.heap p ≠ none → p ≠ s.shared.alloc := fun p hp =>
    Nat.ne_of_lt (hI.lt_alloc hp)
  have htl := hlive tl (by simp [hI.chain.tail_live])
  have hfree : s.shared.alloc ∉ tl :: stk.map Prod.fst := fun hm => by
    rcases List.mem_cons.mp hm with h | h
    exacts [htl h.symm, hlive _ (hI.chain.live _ h) rfl]
  refine hI.set (hI.chain.congr (by simp [htl]) fun p hp => by simp [hlive p (hI.chain.live p hp)])
    hI.tail hI.nodup (fun q hq => ?_) (fun p hp => ?_) (fun u p _ hp => ?_) rfl
  · simp only [Shared.new_alloc] at hq
    simp [show q ≠ s.shared.alloc by omega, hI.fresh q (by omega)]
  · obtain rfl : s.shared.alloc = p := by simpa [Pc.owned] using hp
    exact ⟨by simp, hfree, fun u _ hu => by simpa [hI.fresh _ le_rfl] using (hI.owned u _ hu).1⟩
  · obtain ⟨hn, hm⟩ := hI.owned u p hp
    exact ⟨by simp [hlive p (by simp [hn]), hn], hm⟩

/-- `push`'s critical section: the value goes into the dummy and the pusher's node becomes
the new dummy. -/
lemma InvAt.link (hI : InvAt s stk tl) {v : α} {p : Nat} (ht : s.thr t = .pushLink v p)
    {g' : Shared α} (hl : s.shared.link v p = .ok g') :
    InvAt (s.set t g' .idle) (stk ++ [(tl, v)]) p := by
  obtain ⟨q, n, hq, -, rfl⟩ := Shared.link_eq_ok hl
  obtain rfl : tl = q := Option.some.inj (hI.tail.symm.trans hq)
  obtain ⟨hp, hpm⟩ := hI.owned t p (by simp [ht, Pc.owned])
  simp only [List.mem_cons, not_or] at hpm
  have htl := List.nodup_cons.mp hI.nodup
  have htl' : tl < s.shared.alloc := hI.lt_alloc (by simp [hI.chain.tail_live])
  refine hI.set (hI.chain.append v hp hpm.1 htl.1) rfl ?_ (fun q hq => ?_) (by simp [Pc.owned])
    (fun u q hu hq => ?_) rfl
  · simp only [List.map_append, List.map_cons, List.map_nil]
    refine List.nodup_cons.mpr ⟨by simp [hpm.1, hpm.2], ?_⟩
    exact (List.perm_append_singleton _ _).nodup_iff.mpr hI.nodup
  · dsimp only at hq
    simpa [show q ≠ tl by omega] using hI.fresh q hq
  · obtain ⟨hn, hm⟩ := hI.owned u q hq
    simp only [List.mem_cons, not_or] at hm
    have hqp : q ≠ p := fun h => hu (hI.exclusive u t q hq (by simp [ht, Pc.owned, h]))
    exact ⟨by simp [hm.1, hn], by simp [hqp, hm.1, hm.2]⟩

/-- A pop's critical section, when `head` is not `tail`: the first node leaves the chain and is
destroyed. -/
lemma InvAt.pop (hI : InvAt s stk tl) {g' : Shared α} {v : α}
    (hne : s.shared.head ≠ s.shared.tail) (hp : s.shared.popHead = .ok (g', v)) :
    ∃ q rest, stk = (q, v) :: rest ∧ InvAt (s.set t g' .idle) rest tl := by
  obtain ⟨q, nxt, hh, hq, rfl⟩ := Shared.popHead_eq_ok hp
  rcases hs : stk with _ | ⟨⟨q', w⟩, rest⟩
  · exact absurd (hI.tail_eq_head_iff.mpr hs) hne
  have hc := hI.chain
  rw [hs] at hc
  obtain ⟨hq', nxt', hq'', hr⟩ := hc
  obtain rfl : q = q' := Option.some.inj (hh.symm.trans hq')
  obtain ⟨rfl, rfl⟩ : w = v ∧ nxt' = nxt := by
    rw [hq] at hq''
    simpa [eq_comm] using hq''
  have hnd := hI.nodup
  rw [hs] at hnd
  simp only [List.map_cons, List.nodup_cons, List.mem_cons, not_or] at hnd
  have hkeep : ∀ r, r ≠ q → (Function.update s.shared.heap q none) r = s.shared.heap r :=
    fun r hr => Function.update_noteq hr _ _
  refine ⟨q, rest, rfl, hI.set (hr.congr (hkeep tl hnd.1.1) fun r hrm => hkeep r fun h =>
    hnd.2.1 (h ▸ hrm)) hI.tail (List.nodup_cons.mpr ⟨hnd.1.2, hnd.2.2⟩) (fun r hr' => ?_)
    (by simp [Pc.owned]) (fun u r _ hr' => ?_) rfl⟩
  · dsimp only at hr' ⊢
    by_cases h : r = q
    · subst h; simp
    · simpa [hkeep r h] using hI.fresh r hr'
  · obtain ⟨hn, hm⟩ := hI.owned u r hr'
    rw [hs] at hm
    simp only [List.map_cons, List.mem_cons, not_or] at hm
    exact ⟨by simpa [hkeep r hm.2.1] using hn, by simp [hm.1, hm.2.2]⟩

end Invariant

/-! ### Linearizability of the locked operations -/

/-- Where each thread's call is against the atomic queue: a push takes effect in its critical
section on `tail`, a pop or `empty` in its critical section on `head`. -/
def absThread : Pc α → Atomic.Thread (QueueOp α) (QueueRet α)
  | .idle => .idle
  | .pushNew v | .pushLink v _ => .pending (.push v)
  | .tryPopMove | .tryPopNext _ | .tryPopRet _ => .pending .tryPop
  | .tryPopRef => .pending .tryPopRef
  | .waitAndPop => .pending .waitAndPop
  | .empty => .pending .empty

@[simp] lemma absThread_ofOp (op : QueueOp α) : absThread (Pc.ofOp op) = .pending op := by
  cases op <;> rfl

/-- The atomic queue, empty, every thread idle. -/
def atomicInit (Tid : Type) : Conf Tid (List α) (Atomic.Thread (QueueOp α) (QueueRet α)) :=
  ⟨[], fun _ => .idle⟩

/-- The refinement relation: the invariant holds at a chain whose values are the atomic
queue's contents, and every thread is where `absThread` puts it. -/
def Refines {Tid : Type} (s : Conf Tid (Shared α) (Pc α))
    (a : Conf Tid (List α) (Atomic.Thread (QueueOp α) (QueueRet α))) : Prop :=
  ∃ stk tl, InvAt s stk tl ∧ a.shared = stk.map Prod.snd ∧ ∀ t, a.thr t = absThread (s.thr t)

section Simulation

variable {Tid : Type} [DecidableEq Tid] {s : Conf Tid (Shared α) (Pc α)}
  {a : Conf Tid (List α) (Atomic.Thread (QueueOp α) (QueueRet α))} {t : Tid}

lemma Refines.set (hthr : ∀ u, a.thr u = absThread (s.thr u)) {g : Shared α} {l : Pc α}
    {stk : List (Nat × α)} {tl : Nat} (hI : InvAt (s.set t g l) stk tl) :
    Refines (s.set t g l) (a.set t (stk.map Prod.snd) (absThread l)) := by
  refine ⟨stk, tl, hI, rfl, fun u => ?_⟩
  by_cases hu : u = t
  · subst hu; simp
  · rw [Conf.set_thr_ne _ _ _ hu, Conf.set_thr_ne _ _ _ hu, hthr]

/-- Every step of the queue other than the call of `try_pop()` is matched by at most one
call, effect or return of the atomic queue. -/
lemma refines_step (hR : Refines s a) {c : Atomic.Choice (QueueOp α)} {g : Shared α}
    {l : Pc α} {e : Option (Event α)} (h : step s.shared (s.thr t) c = .ok (g, l, e))
    (hok : ∀ x ∈ (e.map (t, ·)).toList, x.2 ≠ .call .tryPop) :
    ∃ a', (Atomic.object QueueOp.apply).Reach a a' (e.map (t, ·)).toList ∧
      Refines (s.set t g l) a' := by
  obtain ⟨stk, tl, hI, hsh, hthr⟩ := hR
  have hm := move_of_step h
  generalize hx : s.thr t = x at hm
  have hlock := hI.locked t
  have hat : a.thr t = absThread x := hx ▸ hthr t
  have stutter : ∀ {stk' : List (Nat × α)} {tl' : Nat}, InvAt (s.set t g l) stk' tl' →
      stk'.map Prod.snd = stk.map Prod.snd → absThread l = absThread x →
      ∃ a', (Atomic.object QueueOp.apply).Reach a a' [] ∧ Refines (s.set t g l) a' :=
    fun hI' hs hl => ⟨a, .refl, by
      have := Refines.set hthr hI'
      rwa [hs, ← hsh, hl, ← hat, Conf.set_self] at this⟩
  have linRet : ∀ (op : QueueOp α) (r : QueueRet α) {stk' : List (Nat × α)} {tl' : Nat},
      a.thr t = .pending op → op.apply a.shared = (stk'.map Prod.snd, r) →
      InvAt (s.set t g l) stk' tl' → l = .idle →
      ∃ a', (Atomic.object QueueOp.apply).Reach a a' [(t, .ret r)] ∧ Refines (s.set t g l) a' :=
    fun op r _ _ hop happ hI' hl => by
      have hr : (Atomic.object QueueOp.apply).Reach a _ _ := Atomic.reach_lin_ret a t op hop
      simp only [happ] at hr
      subst hl
      exact ⟨_, hr, Refines.set hthr hI'⟩
  rw [hx] at hlock
  cases hm with
  | call op =>
    have hop : op ≠ .tryPop := fun h' => hok (t, .call op) (by simp) (by simp [h'])
    refine ⟨_, Atomic.reach_call a t op (by rw [hat]; rfl), ?_⟩
    have := Refines.set hthr (hI.set_local (t := t) (Pc.owned_ofOp op)
      (by cases op <;> first | rfl | exact absurd rfl hop))
    rwa [← hsh, absThread_ofOp] at this
  | stay => exact stutter (by rw [← hx, Conf.set_self]; exact hI) rfl rfl
  | newNode v => exact stutter (hI.new v) rfl rfl
  | link g' v p hl =>
    exact linRet (.push v) .pushed hat (by simp [QueueOp.apply, hsh]) (hI.link hx hl) rfl
  | tryMove | tryNext | tryRet => simp [Pc.unlocked] at hlock
  | tryEmpty hh =>
    obtain rfl := hI.tail_eq_head_iff.mp hh
    exact linRet .tryPopRef (.popped none) hat (by simp [QueueOp.apply, hsh, popFront])
      (hI.set_local rfl rfl) rfl
  | tryPopped g' v hne hp =>
    obtain ⟨q, rest, rfl, hI'⟩ := hI.pop hne hp
    exact linRet .tryPopRef (.popped (some v)) hat (by simp [QueueOp.apply, hsh, popFront]) hI' rfl
  | wait hh => exact stutter (by rw [← hx, Conf.set_self]; exact hI) rfl rfl
  | waitPopped g' v hne hp =>
    obtain ⟨q, rest, rfl, hI'⟩ := hI.pop hne hp
    exact linRet .waitAndPop (.popped (some v)) hat (by simp [QueueOp.apply, hsh, popFront]) hI' rfl
  | empty =>
    have he : (stk.map Prod.snd).isEmpty = decide (s.shared.head = s.shared.tail) := by
      rcases hs : stk with _ | ⟨x, rest⟩
      · simp [hI.tail_eq_head_iff.mpr hs]
      · have : s.shared.head ≠ s.shared.tail := fun h => by simp [hI.tail_eq_head_iff.mp h] at hs
        simp [this]
    exact linRet .empty _ hat (by simp [QueueOp.apply, hsh, he]) (hI.set_local rfl rfl) rfl

omit [DecidableEq Tid] in
lemma refines_init : Refines (init Tid : Conf Tid (Shared α) (Pc α)) (atomicInit Tid) := by
  refine ⟨[], 0, ⟨⟨rfl, by simp [init]⟩, rfl, by simp, fun q hq => ?_, fun _ _ h => ?_,
    fun _ _ _ h => ?_, fun _ => rfl⟩, rfl, fun _ => rfl⟩
  · simp [init] at hq ⊢; omega
  · simp [init, Pc.owned] at h
  · simp [init, Pc.owned] at h

lemma refines_reach {h : List (Tid × Event α)} (hr : (threadsafeQueue α).Reach (init Tid) s h)
    (hno : ∀ x ∈ h, x.2 ≠ .call .tryPop) :
    ∃ a, (Atomic.object QueueOp.apply).Reach (atomicInit Tid) a h ∧ Refines s a :=
  Program.Reach.simulate_of (fun x => x.2 ≠ .call .tryPop) Refines refines_init
    (fun _ _ _ _ _ _ _ hR hs hok => refines_step hR hs hok) hr hno

end Simulation

/-! ### The locked operations are safe and linearizable -/

section Safety

variable {Tid : Type} [DecidableEq Tid] {s : Conf Tid (Shared α) (Pc α)} {stk : List (Nat × α)}
  {tl : Nat}

omit [DecidableEq Tid] in
/-- A pop that finds `head` apart from `tail` finds a node with a value. -/
lemma InvAt.popHead_ok (hI : InvAt s stk tl) (hne : s.shared.head ≠ s.shared.tail) :
    ∃ g' v, s.shared.popHead = .ok (g', v) := by
  rcases hs : stk with _ | ⟨⟨q, v⟩, rest⟩
  · exact absurd (hI.tail_eq_head_iff.mpr hs) hne
  have hc := hI.chain
  rw [hs] at hc
  obtain ⟨hq, nxt, hn, -⟩ := hc
  exact ⟨{ s.shared with head := nxt, heap := Function.update s.shared.heap q none }, v,
    by simp only [Shared.popHead, hq, hn]⟩

omit [DecidableEq Tid] in
/-- No step of a thread faults while no thread is inside `try_pop()`. -/
lemma InvAt.noFault (hI : InvAt s stk tl) (f : Fault) : (threadsafeQueue α).NoFault f s := by
  intro t c hf
  have hlock := hI.locked t
  generalize s.thr t = x at hf hlock
  cases x with
  | idle => cases c <;> cases hf
  | pushLink v p =>
    simp [threadsafeQueue, step, Shared.link, hI.tail, hI.chain.tail_live, bind, Except.bind, pure,
      Except.pure] at hf
  | tryPopRef | waitAndPop =>
    simp only [threadsafeQueue, step] at hf
    split at hf
    · cases hf
    · obtain ⟨g', v, hp⟩ := hI.popHead_ok ‹_›
      simp [hp, bind, Except.bind, pure, Except.pure] at hf
  | tryPopMove | tryPopNext | tryPopRet => simp [Pc.unlocked] at hlock
  | pushNew | empty => cases hf

/-- Without `try_pop()`, `threadsafe_queue` is safe and linearizable: in every run from the
constructed queue, for any number of threads and every interleaving, in which no thread calls
`try_pop()`, the history is a history of the atomic first-in-first-out queue, each push taking
effect in its critical section on `tail` and each pop or `empty` in its critical section on
`head`. In every reachable state `head` is non-null, the nodes from `head` reach `tail`, each
holds a value (the queue's contents, front first) until `tail`, which holds neither data nor
successor, and no step faults. -/
theorem threadsafeQueue_linearizable {h : List (Tid × Event α)}
    (hr : (threadsafeQueue α).Reach (init Tid) s h) (hno : ∀ x ∈ h, x.2 ≠ .call .tryPop) :
    ∃ a stk tl, (Atomic.object QueueOp.apply).Reach (atomicInit Tid) a h ∧
      (∀ t, a.thr t = absThread (s.thr t)) ∧ a.shared = stk.map Prod.snd ∧
      Chain s.shared.heap tl s.shared.head stk ∧ s.shared.tail = some tl ∧
      ∀ f, (threadsafeQueue α).NoFault f s := by
  obtain ⟨a, ha, stk, tl, hI, hsh, hthr⟩ := refines_reach hr hno
  exact ⟨a, stk, tl, ha, hthr, hsh, hI.chain, hI.tail, hI.noFault⟩

/-- `wait_and_pop()` waits on the constructed queue until a `push(5)` links its node, pops 5,
and a second `push(6)` has allocated its node but not yet linked it. -/
theorem threadsafeQueue_linearizable_wait :
    ∃ (s : Conf (Fin 2) (Shared Nat) (Pc Nat)) (h : List (Fin 2 × Event Nat)),
      (threadsafeQueue Nat).Reach (init (Fin 2)) s h ∧
      h = [(1, .call .waitAndPop), (0, .call (.push 5)), (0, .ret .pushed),
        (1, .ret (.popped (some 5))), (0, .call (.push 6))] ∧ s.thr 0 = .pushLink 6 2 ∧
      ∃ a stk tl, (Atomic.object QueueOp.apply).Reach (atomicInit (Fin 2)) a h ∧
        (∀ t, a.thr t = absThread (s.thr t)) ∧ a.shared = stk.map Prod.snd ∧
        Chain s.shared.heap tl s.shared.head stk ∧ s.shared.tail = some tl ∧
        ∀ f, (threadsafeQueue Nat).NoFault f s := by
  have key : (match (threadsafeQueue Nat).run (init (Fin 2))
      [(1, .call .waitAndPop), (1, .go), (0, .call (.push 5)), (0, .go), (0, .go), (1, .go),
        (0, .call (.push 6)), (0, .go)] with
    | .ok (s, h) => decide (h = [(1, .call .waitAndPop), (0, .call (.push 5)), (0, .ret .pushed),
        (1, .ret (.popped (some 5))), (0, .call (.push 6))] ∧ s.thr 0 = .pushLink 6 2)
    | .error _ => false) = true := by decide
  split at key
  · have hr := Program.reach_of_run ‹_›
    obtain ⟨hh, hpc⟩ := of_decide_eq_true key
    exact ⟨_, _, hr, hh, hpc, threadsafeQueue_linearizable hr (by simp [hh])⟩
  · cases key

end Safety

/-! ### `try_pop()` on the constructed queue -/

/-- Thread 0 calls `try_pop()` on the constructed queue and runs it to the end, then calls
`push(5)` and allocates its node; thread 1 then calls `try_pop(T&)`. -/
def tryPopSchedule : List (Fin 2 × Atomic.Choice (QueueOp Nat)) :=
  [(0, .call .tryPop), (0, .go), (0, .go), (0, .go), (0, .call (.push 5)), (0, .go),
   (1, .call .tryPopRef)]

/-- `try_pop()` on the constructed queue leaves `head` null and destroys the dummy node that
`tail` still points to: the pushing thread's next step writes `tail->data` into the destroyed
node, and `try_pop(T&)` finds `head.get() != get_tail()` and dereferences the null `head`. -/
theorem threadsafeQueue_try_pop_breaks_queue :
    ∃ (s : Conf (Fin 2) (Shared Nat) (Pc Nat)) (h : List (Fin 2 × Event Nat)),
      (threadsafeQueue Nat).Reach (init (Fin 2)) s h ∧
      s.shared.head = none ∧ s.shared.tail = some 0 ∧ s.shared.heap 0 = none ∧
      ¬ (threadsafeQueue Nat).NoFault .useAfterFree s ∧
      ¬ (threadsafeQueue Nat).NoFault .nullDeref s := by
  have hrun : (threadsafeQueue Nat).holdsAfter (init (Fin 2)) tryPopSchedule
      (fun s => decide (s.shared.head = none ∧ s.shared.tail = some 0) &&
        (s.shared.heap 0).isNone &&
        (threadsafeQueue Nat).faults .useAfterFree 0 .go s &&
        (threadsafeQueue Nat).faults .nullDeref 1 .go s) = true := by
    decide
  obtain ⟨s, h, hr, hp⟩ := Program.reach_of_holdsAfter hrun
  simp only [Bool.and_eq_true, decide_eq_true_eq, Option.isNone_iff_eq_none] at hp
  exact ⟨s, h, hr, hp.1.1.1.1, hp.1.1.1.2, hp.1.1.2, Program.not_noFault_of_faults hp.1.2,
    Program.not_noFault_of_faults hp.2⟩

end ThreadsafeQueue

end ConcurrencyInAction
