import ConcurrencyInAction.Atomic

/-!
# `threadsafe_list`: a list with a mutex per node

The list of `lock_base_data_structure.cpp`. `head` is a node without data whose `next` owns
the first element; every node carries its own `std::mutex`. `push_front` links a new node
after `head` under `head.m`. `for_each`, `find_first_if` and `remove_if` walk the list hand
over hand: they hold the mutex of `current`, lock the mutex of `next`, and only then let go of
`current` (or, in `remove_if`, unlink `next` while holding both).

Taking a free mutex, and giving one up, is one step each; a thread that finds the mutex taken
waits (its step leaves everything as it was). What a thread reads and writes while it holds the
mutexes that guard it is part of the step that takes or gives up a mutex: the moves of
`push_front`, the test of `next` with the lock of `next->m`, and the visit of a node with the
release of the one before. `for_each` is modelled as returning the values it passed to `f`,
in order, and the predicates as functions to `Bool`.

A read of a deleted node, or of the mutex of one, faults with `useAfterFree`; a second delete
with `doubleFree`; `*next->data` on a node without data with `nullDeref`.
-/

namespace ConcurrencyInAction

/-! ### The sequential list -/

/-- The calls of the list. -/
inductive ListOp (α : Type)
  | pushFront (v : α)
  | forEach
  | findFirstIf (p : α → Bool)
  | removeIf (p : α → Bool)

/-- What a call returns: `for_each` the values it passed to `f`, `find_first_if` the data of
the first node that satisfies the predicate, the others nothing. -/
inductive ListRet (α : Type)
  | done
  | visited (vs : List α)
  | found (v : Option α)

variable {α : Type}

/-- The sequential list, front first. -/
def ListOp.apply : ListOp α → List α → List α × ListRet α
  | .pushFront v, l => (v :: l, .done)
  | .forEach, l => (l, .visited l)
  | .findFirstIf p, l => (l, .found (l.find? p))
  | .removeIf p, l => (l.filter fun v => !p v, .done)

namespace ThreadsafeList

/-- `threadsafe_list::node`: the mutex `m`, the data (none for `head`) and the successor. -/
structure Node (α : Type) where
  data : Option α
  next : Option Nat
  locked : Bool

/-- The heap of nodes, `head` at address `0`, and the next fresh address. -/
structure Shared (α : Type) where
  heap : Nat → Option (Node α)
  alloc : Nat

/-- A walk along the list, by what it does at each node: `for_each` with the values it has
passed to `f`, `find_first_if` and `remove_if` with their predicate. -/
inductive Walk (α : Type)
  | forEach (visited : List α)
  | findFirstIf (p : α → Bool)
  | removeIf (p : α → Bool)

/-- Program counters, with the locals live at each. -/
inductive Pc (α : Type)
  | idle
  /-- `push_front(value)`: `new node(value)`. -/
  | pushNew (v : α)
  /-- `std::lock_guard<std::mutex> lk{head.m}`, then `new_node->next=std::move(head.next);
  head.next=std::move(new_node);`. -/
  | pushLock (v : α) (p : Nat)
  /-- `lk` gives up `head.m` as `push_front` returns. -/
  | pushUnlock
  /-- `std::unique_lock<std::mutex> lk(head.m)`. -/
  | lockHead (w : Walk α)
  /-- `while(node* const next=current->next.get())`, then `next_lk(next->m)`. -/
  | next (w : Walk α) (cur : Nat)
  /-- The loop body, holding the mutexes of `current` and `next`. -/
  | hold (w : Walk α) (cur nxt : Nat)
  /-- `return next->data;`: `next_lk` gives up `next->m`. -/
  | found (nxt : Nat) (v : α)
  /-- `remove_if` after `old_next=std::move(current->next); current->next=std::move(next->next);`:
  `next_lk.unlock()`. -/
  | unlinked (p : α → Bool) (cur nxt : Nat)
  /-- `old_next` goes out of scope and deletes the node. -/
  | destroy (p : α → Bool) (cur nxt : Nat)
  /-- The loop ends: `lk` gives up `current->m` as the function returns. -/
  | release (w : Walk α) (cur : Nat)

/-- Visible events of the list. -/
abbrev Event (α : Type) := Atomic.Event (ListOp α) (ListRet α)

/-- The program counter a call starts at. -/
def Pc.ofOp : ListOp α → Pc α
  | .pushFront v => .pushNew v
  | .forEach => .lockHead (.forEach [])
  | .findFirstIf p => .lockHead (.findFirstIf p)
  | .removeIf p => .lockHead (.removeIf p)

/-- The call a walk is running. -/
def Walk.op : Walk α → ListOp α
  | .forEach _ => .forEach
  | .findFirstIf p => .findFirstIf p
  | .removeIf p => .removeIf p

/-- What a walk returns when it reaches the end of the list. -/
def Walk.result : Walk α → ListRet α
  | .forEach vs => .visited vs
  | .findFirstIf _ => .found none
  | .removeIf _ => .done

namespace Shared

/-- Dereference a node. -/
def read (g : Shared α) (p : Nat) : Except Fault (Node α) :=
  match g.heap p with
  | some n => .ok n
  | none => .error .useAfterFree

/-- Write a node. -/
def write (g : Shared α) (p : Nat) (n : Node α) : Shared α :=
  { g with heap := Function.update g.heap p (some n) }

/-- `new node(value)`, at a fresh address. -/
def new (g : Shared α) (v : α) : Shared α :=
  { heap := Function.update g.heap g.alloc (some ⟨some v, none, false⟩), alloc := g.alloc + 1 }

/-- The heap after `delete`. -/
def erase (g : Shared α) (p : Nat) : Shared α :=
  { g with heap := Function.update g.heap p none }

/-- `delete`. -/
def delete (g : Shared α) (p : Nat) : Except Fault (Shared α) :=
  match g.heap p with
  | some _ => .ok (g.erase p)
  | none => .error .doubleFree

/-- `m.unlock()` on the mutex of node `p`. -/
def unlock (g : Shared α) (p : Nat) : Except Fault (Shared α) := do
  let n ← g.read p
  return g.write p { n with locked := false }

end Shared

/-- One step of a thread. -/
def step (g : Shared α) :
    Pc α → Atomic.Choice (ListOp α) → Except Fault (Shared α × Pc α × Option (Event α))
  | .idle, .call op => .ok (g, .ofOp op, some (.call op))
  | .idle, .go => .ok (g, .idle, none)
  | .pushNew v, _ => .ok (g.new v, .pushLock v g.alloc, none)
  | .pushLock v p, _ => do
    let h ← g.read 0
    if h.locked then return (g, .pushLock v p, none)
    let n ← g.read p
    return ((g.write p { n with next := h.next }).write 0 { h with next := some p, locked := true },
      .pushUnlock, none)
  | .pushUnlock, _ => do
    let g' ← g.unlock 0
    return (g', .idle, some (.ret .done))
  | .lockHead w, _ => do
    let h ← g.read 0
    if h.locked then return (g, .lockHead w, none)
    return (g.write 0 { h with locked := true }, .next w 0, none)
  | .next w cur, _ => do
    let c ← g.read cur
    match c.next with
    | none => return (g, .release w cur, none)
    | some q =>
      let n ← g.read q
      if n.locked then return (g, .next w cur, none)
      return (g.write q { n with locked := true }, .hold w cur q, none)
  | .hold w cur q, _ => do
    let n ← g.read q
    let some v := n.data | .error .nullDeref
    match w with
    | .forEach vs =>
      let g' ← g.unlock cur
      return (g', .next (.forEach (vs ++ [v])) q, none)
    | .findFirstIf p =>
      let g' ← g.unlock cur
      return (g', if p v then .found q v else .next (.findFirstIf p) q, none)
    | .removeIf p =>
      if p v then
        let c ← g.read cur
        return ((g.write cur { c with next := n.next }).write q { n with next := none },
          .unlinked p cur q, none)
      else
        let g' ← g.unlock cur
        return (g', .next (.removeIf p) q, none)
  | .found q v, _ => do
    let g' ← g.unlock q
    return (g', .idle, some (.ret (.found (some v))))
  | .unlinked p cur q, _ => do
    let g' ← g.unlock q
    return (g', .destroy p cur q, none)
  | .destroy p cur q, _ => do
    let g' ← g.delete q
    return (g', .next (.removeIf p) cur, none)
  | .release w cur, _ => do
    let g' ← g.unlock cur
    return (g', .idle, some (.ret w.result))

/-- `threadsafe_list` as a program. -/
def threadsafeList (α : Type) :
    Program (Shared α) (Pc α) (Atomic.Choice (ListOp α)) (Event α) :=
  ⟨step⟩

/-- The constructed list: `head` alone, every thread idle. -/
def init (Tid : Type) : Conf Tid (Shared α) (Pc α) :=
  ⟨⟨fun p => if p = 0 then some ⟨none, none, false⟩ else none, 1⟩, fun _ => .idle⟩

namespace Shared

@[simp] lemma write_heap (g : Shared α) (p : Nat) (n : Node α) :
    (g.write p n).heap = Function.update g.heap p (some n) := rfl

@[simp] lemma write_alloc (g : Shared α) (p : Nat) (n : Node α) :
    (g.write p n).alloc = g.alloc := rfl

@[simp] lemma new_heap (g : Shared α) (v : α) :
    (g.new v).heap = Function.update g.heap g.alloc (some ⟨some v, none, false⟩) := rfl

@[simp] lemma new_alloc (g : Shared α) (v : α) : (g.new v).alloc = g.alloc + 1 := rfl

@[simp] lemma erase_heap (g : Shared α) (p : Nat) :
    (g.erase p).heap = Function.update g.heap p none := rfl

@[simp] lemma erase_alloc (g : Shared α) (p : Nat) : (g.erase p).alloc = g.alloc := rfl

lemma read_of_heap {g : Shared α} {p : Nat} {n : Node α} (h : g.heap p = some n) :
    g.read p = .ok n := by
  simp [read, h]

lemma unlock_of_heap {g : Shared α} {p : Nat} {n : Node α} (h : g.heap p = some n) :
    g.unlock p = .ok (g.write p { n with locked := false }) := by
  simp [unlock, read_of_heap h]

lemma delete_of_heap {g : Shared α} {p : Nat} {n : Node α} (h : g.heap p = some n) :
    g.delete p = .ok (g.erase p) := by
  simp [delete, h]

end Shared

@[simp] lemma ok_bind {β γ : Type} (b : β) (f : β → Except Fault γ) :
    (Except.ok b >>= f) = f b := rfl

/-! ### What a step can do -/

/-- The transitions of `threadsafe_list`, one constructor per step of the code. -/
inductive Move : Shared α → Pc α → Shared α → Pc α → Option (Event α) → Prop
  | call (g : Shared α) (op : ListOp α) : Move g .idle g (.ofOp op) (some (.call op))
  | stay (g : Shared α) : Move g .idle g .idle none
  | newNode (g : Shared α) (v : α) : Move g (.pushNew v) (g.new v) (.pushLock v g.alloc) none
  | pushWait (g : Shared α) (v : α) (p : Nat) (h : Node α) (hh : g.heap 0 = some h)
      (hl : h.locked = true) : Move g (.pushLock v p) g (.pushLock v p) none
  | pushLink (g : Shared α) (v : α) (p : Nat) (h n : Node α) (hh : g.heap 0 = some h)
      (hl : h.locked = false) (hp : g.heap p = some n) :
      Move g (.pushLock v p)
        ((g.write p { n with next := h.next }).write 0 { h with next := some p, locked := true })
        .pushUnlock none
  | pushUnlock (g : Shared α) (h : Node α) (hh : g.heap 0 = some h) :
      Move g .pushUnlock (g.write 0 { h with locked := false }) .idle (some (.ret .done))
  | headWait (g : Shared α) (w : Walk α) (h : Node α) (hh : g.heap 0 = some h)
      (hl : h.locked = true) : Move g (.lockHead w) g (.lockHead w) none
  | headLock (g : Shared α) (w : Walk α) (h : Node α) (hh : g.heap 0 = some h)
      (hl : h.locked = false) :
      Move g (.lockHead w) (g.write 0 { h with locked := true }) (.next w 0) none
  | atEnd (g : Shared α) (w : Walk α) (cur : Nat) (c : Node α) (hc : g.heap cur = some c)
      (hn : c.next = none) : Move g (.next w cur) g (.release w cur) none
  | nextWait (g : Shared α) (w : Walk α) (cur q : Nat) (c n : Node α) (hc : g.heap cur = some c)
      (hn : c.next = some q) (hq : g.heap q = some n) (hl : n.locked = true) :
      Move g (.next w cur) g (.next w cur) none
  | nextLock (g : Shared α) (w : Walk α) (cur q : Nat) (c n : Node α) (hc : g.heap cur = some c)
      (hn : c.next = some q) (hq : g.heap q = some n) (hl : n.locked = false) :
      Move g (.next w cur) (g.write q { n with locked := true }) (.hold w cur q) none
  | visit (g : Shared α) (vs : List α) (cur q : Nat) (c n : Node α) (v : α)
      (hq : g.heap q = some n) (hv : n.data = some v) (hc : g.heap cur = some c) :
      Move g (.hold (.forEach vs) cur q) (g.write cur { c with locked := false })
        (.next (.forEach (vs ++ [v])) q) none
  | test (g : Shared α) (p : α → Bool) (cur q : Nat) (c n : Node α) (v : α)
      (hq : g.heap q = some n) (hv : n.data = some v) (hc : g.heap cur = some c) :
      Move g (.hold (.findFirstIf p) cur q) (g.write cur { c with locked := false })
        (if p v then .found q v else .next (.findFirstIf p) q) none
  | unlink (g : Shared α) (p : α → Bool) (cur q : Nat) (c n : Node α) (v : α)
      (hq : g.heap q = some n) (hv : n.data = some v) (hp : p v = true) (hc : g.heap cur = some c) :
      Move g (.hold (.removeIf p) cur q)
        ((g.write cur { c with next := n.next }).write q { n with next := none })
        (.unlinked p cur q) none
  | keep (g : Shared α) (p : α → Bool) (cur q : Nat) (c n : Node α) (v : α)
      (hq : g.heap q = some n) (hv : n.data = some v) (hp : p v = false)
      (hc : g.heap cur = some c) :
      Move g (.hold (.removeIf p) cur q) (g.write cur { c with locked := false })
        (.next (.removeIf p) q) none
  | foundUnlock (g : Shared α) (q : Nat) (v : α) (n : Node α) (hq : g.heap q = some n) :
      Move g (.found q v) (g.write q { n with locked := false }) .idle
        (some (.ret (.found (some v))))
  | unlockUnlinked (g : Shared α) (p : α → Bool) (cur q : Nat) (n : Node α)
      (hq : g.heap q = some n) :
      Move g (.unlinked p cur q) (g.write q { n with locked := false }) (.destroy p cur q) none
  | destroy (g : Shared α) (p : α → Bool) (cur q : Nat) (n : Node α) (hq : g.heap q = some n) :
      Move g (.destroy p cur q) (g.erase q) (.next (.removeIf p) cur) none
  | release (g : Shared α) (w : Walk α) (cur : Nat) (c : Node α) (hc : g.heap cur = some c) :
      Move g (.release w cur) (g.write cur { c with locked := false }) .idle (some (.ret w.result))

/-- Peel one `read`, `unlock` or `delete` off a step. -/
private lemma list_bind_ok {β γ : Type} {x : Except Fault β} {f : β → Except Fault γ} {r : γ}
    (h : (x >>= f) = .ok r) : ∃ b, x = .ok b ∧ f b = .ok r := by
  cases x with
  | error e => cases h
  | ok b => exact ⟨b, rfl, h⟩

private lemma list_read_ok {g : Shared α} {p : Nat} {n : Node α} (h : g.read p = .ok n) :
    g.heap p = some n := by
  unfold Shared.read at h; split at h <;> simp_all

private lemma list_unlock_ok {g g' : Shared α} {p : Nat} (h : g.unlock p = .ok g') :
    ∃ n, g.heap p = some n ∧ g' = g.write p { n with locked := false } := by
  obtain ⟨n, hn, h⟩ := list_bind_ok h
  cases h
  exact ⟨n, list_read_ok hn, rfl⟩

private lemma list_delete_ok {g g' : Shared α} {p : Nat} (h : g.delete p = .ok g') :
    ∃ n, g.heap p = some n ∧ g' = g.erase p := by
  unfold Shared.delete at h; split at h
  · cases h; exact ⟨_, ‹_›, rfl⟩
  · cases h

lemma move_of_step {g g' : Shared α} {l l' : Pc α} {c : Atomic.Choice (ListOp α)}
    {e : Option (Event α)} (h : step g l c = .ok (g', l', e)) : Move g l g' l' e := by
  cases l with
  | idle =>
    cases c <;> simp only [step, Except.ok.injEq, Prod.mk.injEq] at h <;>
      obtain ⟨rfl, rfl, rfl⟩ := h
    exacts [.call g _, .stay g]
  | pushNew v =>
    simp only [step, Except.ok.injEq, Prod.mk.injEq] at h
    obtain ⟨rfl, rfl, rfl⟩ := h
    exact .newNode g v
  | pushLock v p =>
    obtain ⟨hd, hh, h⟩ := list_bind_ok h
    by_cases hl : hd.locked
    · simp only [hl, if_true] at h
      cases h; exact .pushWait g v p hd (list_read_ok hh) hl
    · rcases hn : g.read p with _ | n <;>
        simp only [hl, hn, Bool.false_eq_true, if_false, bind, Except.bind, pure, Except.pure,
          Except.ok.injEq, Prod.mk.injEq, reduceCtorEq] at h
      obtain ⟨rfl, rfl, rfl⟩ := h
      exact .pushLink g v p hd n (list_read_ok hh) (Bool.eq_false_iff.mpr hl) (list_read_ok hn)
  | pushUnlock =>
    obtain ⟨g₁, hg, h⟩ := list_bind_ok h
    obtain ⟨hd, hh, rfl⟩ := list_unlock_ok hg
    cases h
    exact .pushUnlock g hd hh
  | lockHead w =>
    obtain ⟨hd, hh, h⟩ := list_bind_ok h
    by_cases hl : hd.locked
    · simp only [hl, if_true] at h
      cases h; exact .headWait g w hd (list_read_ok hh) hl
    · simp only [hl, Bool.false_eq_true, if_false] at h
      cases h; exact .headLock g w hd (list_read_ok hh) (Bool.eq_false_iff.mpr hl)
  | next w cur =>
    obtain ⟨cn, hc, h⟩ := list_bind_ok h
    rcases hq : cn.next with _ | q <;> simp only [hq] at h
    · cases h; exact .atEnd g w cur cn (list_read_ok hc) hq
    · obtain ⟨n, hn, h⟩ := list_bind_ok h
      by_cases hl : n.locked
      · simp only [hl, if_true] at h
        cases h; exact .nextWait g w cur q cn n (list_read_ok hc) hq (list_read_ok hn) hl
      · simp only [hl, Bool.false_eq_true, if_false] at h
        cases h
        exact .nextLock g w cur q cn n (list_read_ok hc) hq (list_read_ok hn)
          (Bool.eq_false_iff.mpr hl)
  | hold w cur q =>
    obtain ⟨n, hn, h⟩ := list_bind_ok h
    rcases hv : n.data with _ | v <;> simp only [hv] at h
    · cases h
    · cases w with
      | forEach vs =>
        obtain ⟨g₁, hg, h⟩ := list_bind_ok h
        obtain ⟨cn, hc, rfl⟩ := list_unlock_ok hg
        cases h
        exact .visit g vs cur q cn n v (list_read_ok hn) hv hc
      | findFirstIf p =>
        obtain ⟨g₁, hg, h⟩ := list_bind_ok h
        obtain ⟨cn, hc, rfl⟩ := list_unlock_ok hg
        cases h
        exact .test g p cur q cn n v (list_read_ok hn) hv hc
      | removeIf p =>
        by_cases hp : p v
        · simp only [hp, if_true] at h
          obtain ⟨cn, hc, h⟩ := list_bind_ok h
          cases h
          have hn' : ({ n with next := none } : Node α) = ⟨some v, none, n.locked⟩ := by rw [← hv]
          rw [← hn']
          exact .unlink g p cur q cn n v (list_read_ok hn) hv hp (list_read_ok hc)
        · simp only [hp, Bool.false_eq_true, if_false] at h
          obtain ⟨g₁, hg, h⟩ := list_bind_ok h
          obtain ⟨cn, hc, rfl⟩ := list_unlock_ok hg
          cases h
          exact .keep g p cur q cn n v (list_read_ok hn) hv (Bool.eq_false_iff.mpr hp) hc
  | found q v =>
    obtain ⟨g₁, hg, h⟩ := list_bind_ok h
    obtain ⟨n, hn, rfl⟩ := list_unlock_ok hg
    cases h
    exact .foundUnlock g q v n hn
  | unlinked p cur q =>
    obtain ⟨g₁, hg, h⟩ := list_bind_ok h
    obtain ⟨n, hn, rfl⟩ := list_unlock_ok hg
    cases h
    exact .unlockUnlinked g p cur q n hn
  | destroy p cur q =>
    obtain ⟨g₁, hg, h⟩ := list_bind_ok h
    obtain ⟨n, hn, rfl⟩ := list_delete_ok hg
    cases h
    exact .destroy g p cur q n hn
  | release w cur =>
    obtain ⟨g₁, hg, h⟩ := list_bind_ok h
    obtain ⟨cn, hc, rfl⟩ := list_unlock_ok hg
    cases h
    exact .release g w cur cn hc

end ThreadsafeList

end ConcurrencyInAction
