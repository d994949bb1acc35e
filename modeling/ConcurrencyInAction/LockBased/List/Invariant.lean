import ConcurrencyInAction.LockBased.List.Basic

/-!
# Hand over hand: who holds which node

The nodes reachable from `head` form a null-terminated list `0 :: ns`, every node of `ns`
carrying data. A node's mutex is taken exactly when one thread's program counter says it holds
it, and no two threads hold the same node. Every thread inside the list holds the node it is at:
so no thread can pass another, a node is only unlinked by the thread that holds it and the node
before it, and the node it unlinks is, from then on, known to that thread alone. That node is
deleted with no thread holding its mutex, waiting on it, or referring to it at all.
-/

namespace ConcurrencyInAction

namespace ThreadsafeList

variable {α : Type}

/-! ### Lists of nodes -/

/-- Following `next` from `c` visits the nodes `ns` and ends at a null pointer. -/
def Chain (heap : Nat → Option (Node α)) : Option Nat → List Nat → Prop
  | c, [] => c = none
  | c, p :: ns => c = some p ∧ ∃ n, heap p = some n ∧ Chain heap n.next ns

/-- The successor of node `p`, if `p` is live. -/
def nextOf (heap : Nat → Option (Node α)) (p : Nat) : Option (Option Nat) :=
  (heap p).map Node.next

/-- The data of node `p`, if `p` is live and has some. -/
def datum (heap : Nat → Option (Node α)) (p : Nat) : Option α :=
  (heap p).bind Node.data

variable {heap heap' : Nat → Option (Node α)}

lemma nextOf_ne_none {p : Nat} : nextOf heap p ≠ none ↔ heap p ≠ none := by
  simp [nextOf]

lemma nextOf_eq_some {p : Nat} {x : Option Nat} :
    nextOf heap p = some x ↔ ∃ n, heap p = some n ∧ n.next = x :=
  Option.map_eq_some'

lemma datum_eq_some {p : Nat} {v : α} :
    datum heap p = some v ↔ ∃ n, heap p = some n ∧ n.data = some v :=
  Option.bind_eq_some

/-- A write that keeps a node's successor keeps every successor. -/
lemma nextOf_update_of_next {p : Nat} {n : Node α} (hn : heap p = some n) (m : Node α)
    (hm : m.next = n.next) : nextOf (Function.update heap p (some m)) = nextOf heap := by
  funext q
  by_cases hq : q = p
  · subst hq; simp [nextOf, hn, hm]
  · simp [nextOf, hq]

/-- A write that keeps a node's data keeps all data. -/
lemma datum_update_of_data {p : Nat} {n : Node α} (hn : heap p = some n) (m : Node α)
    (hm : m.data = n.data) : datum (Function.update heap p (some m)) = datum heap := by
  funext q
  by_cases hq : q = p
  · subst hq; simp [datum, hn, hm]
  · simp [datum, hq]

/-- Unlinking keeps all data. -/
lemma datum_unlink {g : Shared α} {cur q : Nat} {c n : Node α} (hcq : cur ≠ q)
    (hc : g.heap cur = some c) (hq : g.heap q = some n) :
    datum ((g.write cur { c with next := n.next }).write q { n with next := none }).heap =
      datum g.heap := by
  simp only [Shared.write_heap]
  rw [datum_update_of_data (by simp [Ne.symm hcq, hq] : Function.update g.heap cur
    (some { c with next := n.next }) q = some n) { n with next := none } rfl,
    datum_update_of_data hc { c with next := n.next } rfl]

/-- A write to a live node leaves the fresh addresses fresh. -/
lemma Shared.fresh_write {g : Shared α} (hf : ∀ q, g.alloc ≤ q → g.heap q = none) {p : Nat}
    (hp : g.heap p ≠ none) (m : Node α) : ∀ q, (g.write p m).alloc ≤ q → (g.write p m).heap q = none :=
  fun q hq => by
    have hq' := hf q hq
    simp [Function.update_noteq (fun h : q = p => hp (h ▸ hq')), hq']

lemma Chain.live {c : Option Nat} {ns : List Nat} (h : Chain heap c ns) {p : Nat}
    (hp : p ∈ ns) : heap p ≠ none := by
  induction ns generalizing c with
  | nil => cases hp
  | cons q ns ih =>
    obtain ⟨-, n, hn, hc⟩ := h
    rcases List.mem_cons.mp hp with rfl | hp
    · simp [hn]
    · exact ih hc hp

/-- A list of nodes depends on the heap only through the successors of its nodes. -/
lemma Chain.congr {c : Option Nat} {ns : List Nat} (h : Chain heap c ns)
    (he : ∀ p ∈ ns, nextOf heap' p = nextOf heap p) : Chain heap' c ns := by
  induction ns generalizing c with
  | nil => exact h
  | cons q ns ih =>
    obtain ⟨rfl, n, hn, hc⟩ := h
    have hq := he q (List.mem_cons_self _ _)
    rw [nextOf, nextOf, hn] at hq
    obtain ⟨n', hn', hnx⟩ := Option.map_eq_some'.1 hq
    exact ⟨rfl, n', hn', hnx ▸ ih hc fun p hp => he p (List.mem_cons_of_mem _ hp)⟩

/-- Replace what follows node `x`: the nodes before `x` keep their successors, and `x` now
leads to `rest'`. -/
lemma Chain.graft {c : Option Nat} {pre rest rest' : List Nat} {x : Nat}
    (h : Chain heap c (pre ++ x :: rest)) (hpre : ∀ p ∈ pre, nextOf heap' p = nextOf heap p)
    {n' : Node α} (hx : heap' x = some n') (hrest : Chain heap' n'.next rest') :
    Chain heap' c (pre ++ x :: rest') := by
  induction pre generalizing c with
  | nil => obtain ⟨rfl, -⟩ := h; exact ⟨rfl, n', hx, hrest⟩
  | cons q pre ih =>
    obtain ⟨rfl, n, hn, hc⟩ := h
    have hq := hpre q (List.mem_cons_self _ _)
    rw [nextOf, nextOf, hn] at hq
    obtain ⟨m, hm, hmx⟩ := Option.map_eq_some'.1 hq
    exact ⟨rfl, m, hm, hmx ▸ ih hc fun p hp => hpre p (List.mem_cons_of_mem _ hp)⟩

/-- The nodes after `x` in a list of nodes are the list from `x`'s successor. -/
lemma Chain.tail {c : Option Nat} {pre rest : List Nat} {x : Nat}
    (h : Chain heap c (pre ++ x :: rest)) : ∃ n, heap x = some n ∧ Chain heap n.next rest := by
  induction pre generalizing c with
  | nil => exact h.2
  | cons q pre ih => obtain ⟨-, n, -, hc⟩ := h; exact ih hc

lemma Chain.unique {c : Option Nat} {ns ms : List Nat} (h : Chain heap c ns)
    (h' : Chain heap c ms) : ns = ms := by
  induction ns generalizing c ms with
  | nil => cases ms with
    | nil => rfl
    | cons q ms => obtain ⟨rfl, -⟩ := h'; cases h
  | cons p ns ih =>
    cases ms with
    | nil => obtain ⟨rfl, -⟩ := h; cases h'
    | cons q ms =>
      obtain ⟨rfl, n, hn, hc⟩ := h
      obtain ⟨hq, m, hm, hc'⟩ := h'
      obtain rfl : p = q := Option.some.inj hq
      obtain rfl : n = m := Option.some.inj (hn.symm.trans hm)
      rw [ih hc hc']

/-- A null-terminated list of nodes visits each node once. -/
lemma Chain.nodup {c : Option Nat} {ns : List Nat} (h : Chain heap c ns) : ns.Nodup := by
  induction ns generalizing c with
  | nil => exact List.nodup_nil
  | cons p ns ih =>
    obtain ⟨rfl, n, hn, hc⟩ := h
    refine List.nodup_cons.2 ⟨fun hp => ?_, ih hc⟩
    obtain ⟨pre, post, rfl⟩ := List.append_of_mem hp
    obtain ⟨m, hm, hpost⟩ := hc.tail
    have := congrArg List.length
      ((show Chain heap (some p) (p :: (pre ++ p :: post)) from ⟨rfl, n, hn, hc⟩).unique
        (show Chain heap (some p) (p :: post) from ⟨rfl, m, hm, hpost⟩))
    simp at this
    omega

/-- A node of a list of nodes splits it: what comes before, and the list from its successor. -/
lemma Chain.split {c : Option Nat} {ns : List Nat} (h : Chain heap c ns) {x : Nat}
    (hx : x ∈ ns) : ∃ pre rest n, ns = pre ++ x :: rest ∧ heap x = some n ∧ Chain heap n.next rest := by
  obtain ⟨pre, rest, rfl⟩ := List.append_of_mem hx
  obtain ⟨n, hn, hc⟩ := h.tail
  exact ⟨pre, rest, n, rfl, hn, hc⟩

/-- The successor of a node of the list is the next node of the list. -/
lemma Chain.split_next {c : Option Nat} {ns : List Nat} (h : Chain heap c ns) {x q : Nat}
    (hx : x ∈ ns) (hq : nextOf heap x = some (some q)) : ∃ pre post, ns = pre ++ x :: q :: post := by
  obtain ⟨pre, rest, m, rfl, hm, hc⟩ := h.split hx
  rw [nextOf, hm] at hq
  rw [Option.some.inj hq] at hc
  rcases rest with _ | ⟨r, post⟩
  · cases hc
  · obtain ⟨hr, -⟩ := hc
    obtain rfl := Option.some.inj hr
    exact ⟨pre, post, rfl⟩

/-- The successor of a node of a list of nodes is in the list, and is another node. -/
lemma Chain.next_mem {c : Option Nat} {ns : List Nat} (h : Chain heap c ns) {x q : Nat}
    (hx : x ∈ ns) (hq : nextOf heap x = some (some q)) : q ∈ ns ∧ q ≠ x := by
  obtain ⟨pre, post, rfl⟩ := h.split_next hx hq
  have hnd := (List.nodup_append.1 h.nodup).2.1
  exact ⟨by simp, fun hqx => by simp [hqx] at hnd⟩

/-- A node of a list of nodes with no successor is the last one. -/
lemma Chain.last {c : Option Nat} {ns : List Nat} (h : Chain heap c ns) {x : Nat}
    (hx : x ∈ ns) (hn : nextOf heap x = some none) : ∃ pre, ns = pre ++ [x] := by
  obtain ⟨pre, rest, m, rfl, hm, hc⟩ := h.split hx
  rw [nextOf, hm] at hn
  rw [Option.some.inj hn] at hc
  cases rest with
  | nil => exact ⟨pre, rfl⟩
  | cons r rest => cases hc.1

/-- Unlinking the successor `q` of node `x`: `x` takes `q`'s successor, and whatever `q` becomes,
the list no longer visits it. -/
lemma Chain.unlink {c : Option Nat} {pre post : List Nat} {x q : Nat}
    (h : Chain heap c (pre ++ x :: q :: post)) (cx : Node α) {nq : Node α}
    (hq : heap q = some nq) (m : Node α) :
    Chain (Function.update (Function.update heap x (some { cx with next := nq.next })) q (some m))
      c (pre ++ x :: post) := by
  obtain ⟨-, hmid, hdis⟩ := List.nodup_append.1 h.nodup
  have hxq : x ≠ q := fun e => by simp [e] at hmid
  have hout : ∀ p ∈ pre ++ post, p ≠ x ∧ p ≠ q := fun p hp => by
    rcases List.mem_append.1 hp with hp | hp
    · exact ⟨fun e => hdis hp (by simp [e]), fun e => hdis hp (by simp [e])⟩
    · exact ⟨fun e => by simp_all, fun e => by simp_all⟩
  have hsame : ∀ p ∈ pre ++ post, nextOf (Function.update (Function.update heap x
      (some { cx with next := nq.next })) q (some m)) p = nextOf heap p := fun p hp => by
    simp [nextOf, (hout p hp).1, (hout p hp).2]
  obtain ⟨n', hn', hpost⟩ := (show Chain heap c ((pre ++ [x]) ++ q :: post) by simpa using h).tail
  rw [Option.some.inj (hn'.symm.trans hq)] at hpost
  exact h.graft (fun p hp => hsame p (List.mem_append_left _ hp))
    (show _ = some { cx with next := nq.next } by simp [hxq])
    (hpost.congr fun p hp => hsame p (List.mem_append_right _ hp))

/-! ### What a thread holds -/

namespace Pc

/-- The nodes whose mutex the thread holds. -/
def held : Pc α → List Nat
  | .pushUnlock => [0]
  | .next _ cur | .release _ cur | .destroy _ cur _ => [cur]
  | .hold _ cur q | .unlinked _ cur q => [cur, q]
  | .found q _ => [q]
  | _ => []

/-- The node out of the list the thread alone refers to: the one it made and has not linked
yet, or the one it unlinked. -/
def own : Pc α → Option Nat
  | .pushLock _ p => some p
  | .unlinked _ _ q | .destroy _ _ q => some q
  | _ => none

/-- Every node the thread refers to. -/
def refs (l : Pc α) : List Nat := l.held ++ l.own.toList

lemma mem_refs_of_held {l : Pc α} {p : Nat} (h : p ∈ l.held) : p ∈ l.refs :=
  List.mem_append_left _ h

lemma mem_refs_of_own {l : Pc α} {p : Nat} (h : l.own = some p) : p ∈ l.refs :=
  List.mem_append_right _ (by simp [h])

/-- A call starts holding no mutex and referring to no node. -/
@[simp] lemma held_ofOp (op : ListOp α) : (ofOp op).held = [] := by cases op <;> rfl

@[simp] lemma refs_ofOp (op : ListOp α) : (ofOp op).refs = [] := by cases op <;> rfl

end Pc

/-- Where the thread at `l` is in the list `L`, and what it knows of the nodes it refers to. A walk
waiting for `head.m` is as its call started it. -/
def PcOk (heap : Nat → Option (Node α)) (L : List Nat) : Pc α → Prop
  | .pushLock v p => p ∉ L ∧ datum heap p = some v
  | .lockHead w => Pc.ofOp w.op = .lockHead w
  | .next _ cur => cur ∈ L
  | .hold _ cur q => cur ∈ L ∧ nextOf heap cur = some (some q)
  | .found q _ => q ∈ L
  | .unlinked _ cur q | .destroy _ cur q => cur ∈ L ∧ q ∉ L ∧ nextOf heap q ≠ none
  | .release _ cur => cur ∈ L ∧ nextOf heap cur = some none
  | _ => True

/-- A node a thread alone refers to is out of the list. -/
lemma PcOk.own_not_mem {L : List Nat} {l : Pc α} (h : PcOk heap L l) {p : Nat}
    (hp : l.own = some p) : p ∉ L := by
  cases l with
  | pushLock v q => obtain rfl : q = p := Option.some.inj hp; exact h.1
  | unlinked f cur q | destroy f cur q => obtain rfl : q = p := Option.some.inj hp; exact h.2.1
  | _ => cases hp

/-- What a thread knows depends only on the successors, the data and the membership in the list
of the nodes it refers to. -/
lemma PcOk.congr {L L' : List Nat} {l : Pc α} (h : PcOk heap L l)
    (he : ∀ p ∈ l.refs, nextOf heap' p = nextOf heap p ∧ datum heap' p = datum heap p ∧
      (p ∈ L' ↔ p ∈ L)) : PcOk heap' L' l := by
  cases l with
  | pushLock v p =>
    obtain ⟨-, h1, h2⟩ := he p (by simp [Pc.refs, Pc.own])
    exact ⟨fun hp => h.1 (h2.1 hp), h1 ▸ h.2⟩
  | next w cur | found cur v => exact (he cur (by simp [Pc.refs, Pc.held])).2.2.2 h
  | hold w cur q | release w cur =>
    obtain ⟨h1, -, h2⟩ := he cur (by simp [Pc.refs, Pc.held])
    exact ⟨h2.2 h.1, h1 ▸ h.2⟩
  | unlinked f cur q | destroy f cur q =>
    have hc := he cur (by simp [Pc.refs, Pc.held])
    obtain ⟨h1, -, h2⟩ := he q (by simp [Pc.refs, Pc.own])
    exact ⟨hc.2.2.2 h.1, fun hq => h.2.1 (h2.1 hq), h1 ▸ h.2.2⟩
  | _ => exact h

/-- When every node keeps its successor and data, every thread keeps what it knows. -/
lemma PcOk.of_shape {L : List Nat} {l : Pc α} (h : PcOk heap L l)
    (hn : nextOf heap' = nextOf heap) (hd : datum heap' = datum heap) : PcOk heap' L l :=
  h.congr fun _ _ => ⟨by rw [hn], by rw [hd], Iff.rfl⟩

/-- The nodes after `head` once a thread has moved from `x` to `l`: `push_front` links its node,
`remove_if` unlinks one. -/
def Pc.listAfter : Pc α → Pc α → List Nat → List Nat
  | .pushLock _ p, .pushUnlock, ns => p :: ns
  | .hold _ _ q, .unlinked _ _ _, ns => ns.erase q
  | _, _, ns => ns

section Invariant

variable {Tid : Type}

/-- The invariant of `threadsafe_list`, with `ns` the nodes after `head`. -/
structure Inv (s : Conf Tid (Shared α) (Pc α)) (ns : List Nat) : Prop where
  chain : Chain s.shared.heap (some 0) (0 :: ns)
  data : ∀ p ∈ ns, datum s.shared.heap p ≠ none
  fresh : ∀ p, s.shared.alloc ≤ p → s.shared.heap p = none
  pc : ∀ t, PcOk s.shared.heap (0 :: ns) (s.thr t)
  locked : ∀ p n, s.shared.heap p = some n → (n.locked = true ↔ ∃ t, p ∈ (s.thr t).held)
  disjoint : ∀ t u p, p ∈ (s.thr t).refs → p ∈ (s.thr u).refs → t = u

variable {s : Conf Tid (Shared α) (Pc α)} {ns : List Nat}

/-- Every node a thread refers to is live. -/
lemma Inv.refs_live (hI : Inv s ns) (t : Tid) {p : Nat} (hp : p ∈ (s.thr t).refs) :
    s.shared.heap p ≠ none := by
  have hpc := hI.pc t
  have hL : ∀ {q}, q ∈ 0 :: ns → s.shared.heap q ≠ none := fun hq => hI.chain.live hq
  generalize s.thr t = x at hp hpc
  cases x with
  | idle | pushNew _ | lockHead _ => simp [Pc.refs, Pc.held, Pc.own] at hp
  | pushLock v q =>
    obtain ⟨n, hn, -⟩ := datum_eq_some.1 hpc.2
    obtain rfl : p = q := by simpa [Pc.refs, Pc.held, Pc.own] using hp
    simp [hn]
  | pushUnlock =>
    obtain rfl : p = 0 := by simpa [Pc.refs, Pc.held, Pc.own] using hp
    exact hL (List.mem_cons_self _ _)
  | next w cur =>
    obtain rfl : p = cur := by simpa [Pc.refs, Pc.held, Pc.own] using hp
    exact hL hpc
  | found q v =>
    obtain rfl : p = q := by simpa [Pc.refs, Pc.held, Pc.own] using hp
    exact hL hpc
  | release w cur =>
    obtain rfl : p = cur := by simpa [Pc.refs, Pc.held, Pc.own] using hp
    exact hL hpc.1
  | hold w cur q =>
    rcases (by simpa [Pc.refs, Pc.held, Pc.own] using hp : p = cur ∨ p = q) with rfl | rfl
    · exact hL hpc.1
    · exact hL (hI.chain.next_mem hpc.1 hpc.2).1
  | unlinked f cur q | destroy f cur q =>
    rcases (by simpa [Pc.refs, Pc.held, Pc.own] using hp : p = cur ∨ p = q) with rfl | rfl
    exacts [hL hpc.1, nextOf_ne_none.1 hpc.2.2]

/-- The successor of a node of the list is a node after `head`. -/
lemma Inv.succ_mem (hI : Inv s ns) {cur q : Nat} (hcur : cur ∈ 0 :: ns)
    (hq : nextOf s.shared.heap cur = some (some q)) : q ∈ ns := by
  obtain ⟨pre, post, hsplit⟩ := hI.chain.split_next hcur hq
  rcases pre with _ | ⟨x, pre⟩ <;> obtain ⟨-, rfl⟩ := List.cons.inj hsplit <;> simp

/-- Taking the successor `q` of a node `cur` out of the list. -/
lemma Inv.erase_succ (hI : Inv s ns) {cur q : Nat} (hcur : cur ∈ 0 :: ns)
    (hq : nextOf s.shared.heap cur = some (some q)) :
    ∃ pre post, 0 :: ns = pre ++ cur :: q :: post ∧ 0 :: ns.erase q = pre ++ cur :: post := by
  obtain ⟨pre, post, hsplit⟩ := hI.chain.split_next hcur hq
  have hnd : (pre ++ cur :: q :: post).Nodup := hsplit ▸ hI.chain.nodup
  obtain ⟨-, hmid, hdis⟩ := List.nodup_append.1 hnd
  have hcq : cur ≠ q := fun e => by simp [e] at hmid
  have hq0 : q ≠ 0 := fun e => (List.nodup_cons.1 hI.chain.nodup).1 (e ▸ hI.succ_mem hcur hq)
  refine ⟨pre, post, hsplit, ?_⟩
  rw [← List.erase_cons_tail (by simpa using hq0.symm), hsplit,
    List.erase_append_right _ fun h => hdis h (by simp),
    List.erase_cons_tail (by simpa using hcq), List.erase_cons_head]

/-- A node of the list whose mutex is free is no thread's. -/
lemma Inv.not_refs_of_free (hI : Inv s ns) {p : Nat} {n : Node α} (hp : p ∈ 0 :: ns)
    (hn : s.shared.heap p = some n) (hl : n.locked = false) (u : Tid) :
    p ∉ (s.thr u).refs := fun h => by
  rcases List.mem_append.1 h with h | h
  · have := (hI.locked p n hn).2 ⟨u, h⟩
    simp [hl] at this
  · exact (hI.pc u).own_not_mem (by simpa using h) hp

/-- A node a thread holds is locked. -/
lemma Inv.locked_of_held (hI : Inv s ns) {t : Tid} {p : Nat} {n : Node α}
    (hp : p ∈ (s.thr t).held) (hn : s.shared.heap p = some n) : n.locked = true :=
  (hI.locked p n hn).2 ⟨t, hp⟩

/-- A node no other thread holds: one thread `t` refers to. -/
lemma Inv.others_not_held (hI : Inv s ns) {p : Nat} (hp : p ∈ (s.thr t).refs) (u : Tid)
    (hu : u ≠ t) : p ∉ (s.thr u).held :=
  fun h => hu (hI.disjoint u t p (Pc.mem_refs_of_held h) hp)

/-- A node a thread refers to but does not hold is unlocked. -/
lemma Inv.unlocked_of_own (hI : Inv s ns) {t : Tid} {p : Nat} {n : Node α}
    (hp : p ∈ (s.thr t).refs) (hh : p ∉ (s.thr t).held) (hn : s.shared.heap p = some n) :
    n.locked = false := by
  rw [Bool.eq_false_iff, ne_eq, hI.locked p n hn]
  rintro ⟨u, hu⟩
  obtain rfl := hI.disjoint u t p (Pc.mem_refs_of_held hu) hp
  exact hh hu

variable [DecidableEq Tid]

/-- The frame of a step of thread `t` to local state `l` and shared state `g`, with list `ns'`:
it writes only the nodes `W`, which no other thread refers to, and everything else the
invariant says of the other threads carries over. -/
lemma Inv.set (hI : Inv s ns) {t : Tid} {g : Shared α} {l : Pc α} {ns' : List Nat}
    (W : List Nat) (hchain : Chain g.heap (some 0) (0 :: ns'))
    (hdata : ∀ p ∈ ns', datum g.heap p ≠ none)
    (hfresh : ∀ p, g.alloc ≤ p → g.heap p = none) (hpc : PcOk g.heap (0 :: ns') l)
    (hW : ∀ p, p ∉ W →
      g.heap p = s.shared.heap p ∧ (p ∈ ns' ↔ p ∈ ns) ∧ (p ∈ l.held ↔ p ∈ (s.thr t).held))
    (hWt : ∀ p ∈ W, ∀ u, u ≠ t → p ∉ (s.thr u).refs)
    (hlock : ∀ p ∈ W, ∀ n, g.heap p = some n → (n.locked = true ↔ p ∈ l.held))
    (hrefs : ∀ p ∈ l.refs, ∀ u, u ≠ t → p ∉ (s.thr u).refs) :
    Inv (s.set t g l) ns' := by
  have hthr : ∀ u, u ≠ t → (s.set t g l).thr u = s.thr u := fun u hu => Conf.set_thr_ne _ _ _ hu
  refine ⟨hchain, hdata, hfresh, fun u => ?_, fun p n hp => ?_, fun u w p hu hw => ?_⟩
  · by_cases hut : u = t
    · subst hut; simpa using hpc
    · rw [hthr u hut]
      refine (hI.pc u).congr fun p hp => ?_
      have hpW := hW p fun h => hWt p h u hut hp
      exact ⟨by simp only [nextOf, Conf.set_shared, hpW.1], by simp only [datum, Conf.set_shared, hpW.1],
        by simp [hpW.2.1]⟩
  · have hheld : ∀ u, p ∈ ((s.set t g l).thr u).held ↔ (u = t ∧ p ∈ l.held) ∨
        (u ≠ t ∧ p ∈ (s.thr u).held) := fun u => by
      by_cases hut : u = t
      · subst hut; simp
      · simp [hthr u hut, hut]
    rw [Conf.set_shared] at hp
    simp only [hheld]
    by_cases hpW : p ∈ W
    · rw [hlock p hpW n hp]
      exact ⟨fun h => ⟨t, .inl ⟨rfl, h⟩⟩, fun ⟨u, hu⟩ => hu.elim (fun h => h.2)
        fun h => absurd (Pc.mem_refs_of_held h.2) (hWt p hpW u h.1)⟩
    · obtain ⟨hg, -, hh⟩ := hW p hpW
      rw [hg] at hp
      rw [hI.locked p n hp]
      refine ⟨fun ⟨u, hu⟩ => ?_, fun ⟨u, hu⟩ => ⟨u, hu.elim (fun h => h.1 ▸ hh.1 h.2) And.right⟩⟩
      by_cases hut : u = t
      · subst hut; exact ⟨u, .inl ⟨rfl, hh.2 hu⟩⟩
      · exact ⟨u, .inr ⟨hut, hu⟩⟩
  · by_cases hut : u = t <;> by_cases hwt : w = t
    · exact hut.trans hwt.symm
    · subst hut; rw [Conf.set_thr_self] at hu; rw [hthr w hwt] at hw
      exact absurd hw (hrefs p hu w hwt)
    · subst hwt; rw [Conf.set_thr_self] at hw; rw [hthr u hut] at hu
      exact absurd hu (hrefs p hw u hut)
    · rw [hthr u hut] at hu; rw [hthr w hwt] at hw
      exact hI.disjoint u w p hu hw

/-! ### The steps keep the invariant -/

/-- A step that writes no node and keeps what the thread holds. -/
lemma Inv.local (hI : Inv s ns) {t : Tid} {l : Pc α} (hpc : PcOk s.shared.heap (0 :: ns) l)
    (hheld : ∀ p, p ∈ l.held ↔ p ∈ (s.thr t).held) (hrefs : ∀ p ∈ l.refs, p ∈ (s.thr t).refs) :
    Inv (s.set t s.shared l) ns :=
  hI.set [] hI.chain hI.data hI.fresh hpc (fun p _ => ⟨rfl, Iff.rfl, hheld p⟩) nofun nofun
    fun p hp u hu h => hu (hI.disjoint u t p h (hrefs p hp))

/-- A step that takes or gives up the mutex of node `p`: a node of the list whose mutex is free,
or a node the thread refers to. -/
lemma Inv.relock (hI : Inv s ns) {t : Tid} {l : Pc α} {p : Nat} {n : Node α}
    (hn : s.shared.heap p = some n) (b : Bool)
    (hfree : p ∈ (s.thr t).refs ∨ (p ∈ 0 :: ns ∧ n.locked = false))
    (hpc : PcOk s.shared.heap (0 :: ns) l) (hb : b = true ↔ p ∈ l.held)
    (hheld : ∀ q, q ≠ p → (q ∈ l.held ↔ q ∈ (s.thr t).held))
    (hrefs : ∀ q ∈ l.refs, q = p ∨ q ∈ (s.thr t).refs) :
    Inv (s.set t (s.shared.write p { n with locked := b }) l) ns := by
  have hp : ∀ u, u ≠ t → p ∉ (s.thr u).refs := fun u hu h => hfree.elim
    (fun ht => hu (hI.disjoint u t p h ht)) fun ⟨hL, hl⟩ => hI.not_refs_of_free hL hn hl u h
  have hnext := nextOf_update_of_next hn { n with locked := b } rfl
  have hdatum := datum_update_of_data hn { n with locked := b } rfl
  refine hI.set [p] (hI.chain.congr fun q _ => by simp [hnext])
    (fun q hq => by simpa [hdatum] using hI.data q hq) (Shared.fresh_write hI.fresh (by simp [hn]) _)
    (hpc.of_shape hnext hdatum) (fun q hq => ?_) (by simpa using hp) (by simpa using hb)
    fun q hq u hu => ?_
  · have hqp : q ≠ p := by simpa using hq
    exact ⟨by simp [hqp], Iff.rfl, hheld q hqp⟩
  · rcases hrefs q hq with rfl | hq
    exacts [hp u hu, fun h => hu (hI.disjoint u t q h hq)]

/-- `push_front`'s `new node(value)`. -/
lemma Inv.newNode (hI : Inv s ns) {t : Tid} {v : α} (ht : s.thr t = .pushNew v) :
    Inv (s.set t (s.shared.new v) (.pushLock v s.shared.alloc)) ns := by
  have hfresh := hI.fresh _ le_rfl
  have hout : ∀ u, s.shared.alloc ∉ (s.thr u).refs := fun u h => hI.refs_live u h hfresh
  have hL : s.shared.alloc ∉ 0 :: ns := fun h => hI.chain.live h hfresh
  have hsame : ∀ q, q ∈ 0 :: ns → (s.shared.new v).heap q = s.shared.heap q := fun q hq => by
    simp [show q ≠ s.shared.alloc from fun h => hL (h ▸ hq)]
  refine hI.set [s.shared.alloc] (hI.chain.congr fun q hq => by rw [nextOf, nextOf, hsame q hq])
    (fun q hq => by rw [datum, hsame q (List.mem_cons_of_mem _ hq)]; exact hI.data q hq)
    (fun q hq => ?_) ⟨hL, by simp [datum]⟩ (fun q hq => ?_) (by simpa using fun u _ => hout u)
    (by simp [Pc.held]) fun q hq u _ => ?_
  · have hq' : q ≠ s.shared.alloc := by simp at hq; omega
    simp [hq', hI.fresh q (by simp at hq; omega)]
  · have hq' : q ≠ s.shared.alloc := by simpa using hq
    exact ⟨by simp [hq'], Iff.rfl, by simp [ht, Pc.held]⟩
  · obtain rfl : q = s.shared.alloc := by simpa [Pc.refs, Pc.held, Pc.own] using hq
    exact hout u

/-- `push_front` under `head.m`: the new node takes `head.next` and becomes it. -/
lemma Inv.pushLink (hI : Inv s ns) {t : Tid} {v : α} {p : Nat} {h n : Node α}
    (ht : s.thr t = .pushLock v p) (hh : s.shared.heap 0 = some h) (hl : h.locked = false)
    (hp : s.shared.heap p = some n) :
    Inv (s.set t ((s.shared.write p { n with next := h.next }).write 0
      { h with next := some p, locked := true }) .pushUnlock) (p :: ns) := by
  have hpc := hI.pc t
  rw [ht] at hpc
  have hp0 : p ≠ 0 := fun h => hpc.1 (h ▸ List.mem_cons_self _ _)
  have hpt : p ∈ (s.thr t).refs := Pc.mem_refs_of_own (by rw [ht]; rfl)
  have hnl : n.locked = false := hI.unlocked_of_own hpt (by simp [ht, Pc.held]) hp
  have h0 : ∀ u, 0 ∉ (s.thr u).refs := hI.not_refs_of_free (List.mem_cons_self _ _) hh hl
  have hpu : ∀ u, u ≠ t → p ∉ (s.thr u).refs := fun u hu h => hu (hI.disjoint u t p h hpt)
  have hsame : ∀ q, q ≠ 0 → q ≠ p → ((s.shared.write p { n with next := h.next }).write 0
      { h with next := some p, locked := true }).heap q = s.shared.heap q := fun q h0 hp => by
    simp [h0, hp]
  have hrest : Chain s.shared.heap h.next ns := by
    obtain ⟨-, h', hh', hrest⟩ := hI.chain
    rwa [Option.some.inj (hh.symm.trans hh')]
  have hnd := List.nodup_cons.1 hI.chain.nodup
  have hpns : p ∉ ns := fun h => hpc.1 (List.mem_cons_of_mem _ h)
  have hne : ∀ q ∈ ns, q ≠ 0 ∧ q ≠ p := fun q hq =>
    ⟨fun h => hnd.1 (h ▸ hq), fun h => hpns (h ▸ hq)⟩
  refine hI.set [p, 0] ⟨rfl, { h with next := some p, locked := true }, by simp, rfl,
      { n with next := h.next }, by simp [hp0],
      hrest.congr fun q hq => by rw [nextOf, nextOf, hsame q (hne q hq).1 (hne q hq).2]⟩
    (fun q hq => ?_) (Shared.fresh_write (Shared.fresh_write hI.fresh (by simp [hp]) _)
      (by simp [Ne.symm hp0, hh]) _) trivial (fun q hq => ?_) ?_ ?_ fun q hq u _ => ?_
  · rcases List.mem_cons.1 hq with rfl | hq
    · have hv : n.data = some v := by simpa [datum, hp] using hpc.2
      simp [datum, hp0, hv]
    · rw [datum, hsame q (hne q hq).1 (hne q hq).2]; exact hI.data q hq
  · simp only [List.mem_cons, List.mem_singleton, not_or, List.not_mem_nil] at hq
    exact ⟨hsame q hq.2.1 hq.1, by simp [hq.1], by simp [ht, Pc.held, hq.2.1]⟩
  · simpa using ⟨hpu, fun u _ => h0 u⟩
  · simp only [List.mem_cons, List.mem_singleton, List.not_mem_nil, or_false]
    rintro q (rfl | rfl) m hm
    · simp [hp0] at hm; subst hm; simp [Pc.held, hp0, hnl]
    · simp at hm; subst hm; simp [Pc.held]
  · obtain rfl : q = 0 := by simpa [Pc.refs, Pc.held, Pc.own] using hq
    exact h0 u

/-- `remove_if` moves `next->next` into `current->next`: node `q` leaves the list, and only the
thread that unlinked it refers to it. -/
lemma Inv.unlink (hI : Inv s ns) {t : Tid} {f : α → Bool} {cur q : Nat} {c n : Node α}
    (ht : s.thr t = .hold (.removeIf f) cur q) (hc : s.shared.heap cur = some c)
    (hq : s.shared.heap q = some n) :
    Inv (s.set t ((s.shared.write cur { c with next := n.next }).write q { n with next := none })
      (.unlinked f cur q)) (ns.erase q) := by
  have hpc := hI.pc t
  rw [ht] at hpc
  obtain ⟨pre, post, hsplit, hL⟩ := hI.erase_succ hpc.1 hpc.2
  have hnd : (pre ++ cur :: q :: post).Nodup := hsplit ▸ hI.chain.nodup
  have hcq : cur ≠ q := fun e => by simp [e, List.nodup_append] at hnd
  have hqL : q ∉ 0 :: ns.erase q := by
    obtain ⟨-, hmid, hdis⟩ := List.nodup_append.1 hnd
    rw [hL]
    simp only [List.mem_append, List.mem_cons, not_or]
    exact ⟨fun h => hdis h (by simp), Ne.symm hcq, (List.nodup_cons.1 (List.nodup_cons.1 hmid).2).1⟩
  have hheld : ∀ p ∈ [cur, q], p ∈ (s.thr t).held := by simp [ht, Pc.held]
  have hWt : ∀ p ∈ [cur, q], ∀ u, u ≠ t → p ∉ (s.thr u).refs := fun p hp u hu h =>
    hu (hI.disjoint u t p h (Pc.mem_refs_of_held (hheld p hp)))
  have hdatum := datum_unlink hcq hc hq
  refine hI.set [cur, q] (by rw [hL]; exact (hsplit ▸ hI.chain).unlink c hq _)
    (fun p hp => by rw [hdatum]; exact hI.data p (List.mem_of_mem_erase hp))
    (Shared.fresh_write (Shared.fresh_write hI.fresh (by simp [hc]) _) (by simp [Ne.symm hcq, hq]) _)
    ⟨by rw [hL]; simp, hqL, by simp [nextOf]⟩ (fun p hp => ?_) hWt ?_ fun p hp => hWt p (by simpa [Pc.refs, Pc.held, Pc.own] using hp)
  · simp only [List.mem_cons, List.mem_singleton, not_or, List.not_mem_nil] at hp
    exact ⟨by simp [hp.1, hp.2.1], List.mem_erase_of_ne hp.2.1, by simp [ht, Pc.held]⟩
  · simp only [List.mem_cons, List.mem_singleton, List.not_mem_nil, or_false]
    rintro p (rfl | rfl) m hm
    · simp [hcq] at hm; subst hm
      simp [Pc.held, hI.locked_of_held (hheld _ (by simp)) hc]
    · simp at hm; subst hm
      simp [Pc.held, hI.locked_of_held (hheld _ (by simp)) hq]

/-- `old_next` going out of scope deletes the node the thread unlinked. -/
lemma Inv.destroy (hI : Inv s ns) {t : Tid} {f : α → Bool} {cur q : Nat}
    (ht : s.thr t = .destroy f cur q) :
    Inv (s.set t (s.shared.erase q) (.next (.removeIf f) cur)) ns := by
  have hpc := hI.pc t
  rw [ht] at hpc
  have hqt : q ∈ (s.thr t).refs := Pc.mem_refs_of_own (by rw [ht]; rfl)
  have hsame : ∀ p, p ≠ q → (s.shared.erase q).heap p = s.shared.heap p := fun p hp => by simp [hp]
  have hne : ∀ p ∈ 0 :: ns, p ≠ q := fun p hp e => hpc.2.1 (e ▸ hp)
  refine hI.set [q] (hI.chain.congr fun p hp => by rw [nextOf, nextOf, hsame p (hne p hp)])
    (fun p hp => by rw [datum, hsame p (hne p (List.mem_cons_of_mem _ hp))]; exact hI.data p hp)
    (fun p hp => ?_) hpc.1 (fun p hp => ?_) ?_ (by simp) fun p hp u hu h => ?_
  · by_cases e : p = q
    · simp [e]
    · rw [hsame p e]; exact hI.fresh p hp
  · have e : p ≠ q := by simpa using hp
    exact ⟨hsame p e, Iff.rfl, by simp [ht, Pc.held]⟩
  · simpa using fun u hu h => hu (hI.disjoint u t q h hqt)
  · obtain rfl : p = cur := by simpa [Pc.refs, Pc.held, Pc.own] using hp
    exact hu (hI.disjoint u t p h (Pc.mem_refs_of_held (by simp [ht, Pc.held])))

/-- Every step keeps the invariant. -/
lemma Inv.step (hI : Inv s ns) {t : Tid} {g : Shared α} {l : Pc α} {e : Option (Event α)}
    (hm : Move s.shared (s.thr t) g l e) : Inv (s.set t g l) ((s.thr t).listAfter l ns) := by
  have hpc := hI.pc t
  generalize hx : s.thr t = x at hm hpc ⊢
  cases hm with
  | call op =>
    exact hI.local (by cases op <;> trivial) (fun _ => by rw [Pc.held_ofOp, hx]; rfl) (by simp)
  | stay | pushWait | headWait | nextWait => exact show Inv _ ns by rw [← hx, Conf.set_self]; exact hI
  | newNode v => exact hI.newNode hx
  | pushLink v p h n hh hl hp => exact hI.pushLink hx hh hl hp
  | pushUnlock h hh =>
    exact hI.relock hh false (.inl (by simp [hx, Pc.refs, Pc.held])) trivial
      (by simp [Pc.held]) (fun q hq => by simp [hx, Pc.held, hq]) (by simp [Pc.refs, Pc.held, Pc.own])
  | headLock w h hh hl =>
    exact hI.relock hh true (.inr ⟨List.mem_cons_self _ _, hl⟩) (List.mem_cons_self _ _)
      (by simp [Pc.held]) (fun q hq => by simp [hx, Pc.held, hq])
      (by simp [Pc.refs, Pc.held, Pc.own])
  | atEnd w cur c hc hn =>
    exact hI.local ⟨hpc, by simp [nextOf, hc, hn]⟩ (by simp [hx, Pc.held])
      (by simp [hx, Pc.refs, Pc.held, Pc.own])
  | nextLock w cur q c n hc hn hq hl =>
    have hnext : nextOf s.shared.heap cur = some (some q) := by simp [nextOf, hc, hn]
    have hqc := (hI.chain.next_mem hpc hnext).2
    exact hI.relock hq true (.inr ⟨(hI.chain.next_mem hpc hnext).1, hl⟩) ⟨hpc, hnext⟩
      (by simp [Pc.held]) (fun x hx' => by simp [hx, Pc.held, hx'])
      (by simp [hx, Pc.refs, Pc.held, Pc.own])
  | visit _ cur q c _ _ _ _ hc | keep _ cur q c _ _ _ _ _ hc =>
    obtain ⟨hqL, hqc⟩ := hI.chain.next_mem hpc.1 hpc.2
    exact hI.relock hc false (.inl (by simp [hx, Pc.refs, Pc.held])) hqL
      (by simp [Pc.held, hqc.symm]) (fun x hx' => by simp [hx, Pc.held, hx'])
      (by simp [hx, Pc.refs, Pc.held, Pc.own])
  | test p cur q c n v hq hv hc =>
    obtain ⟨hqL, hqc⟩ := hI.chain.next_mem hpc.1 hpc.2
    split <;> exact hI.relock hc false (.inl (by simp [hx, Pc.refs, Pc.held])) hqL
      (by simp [Pc.held, hqc.symm]) (fun x hx' => by simp [hx, Pc.held, hx'])
      (by simp [hx, Pc.refs, Pc.held, Pc.own])
  | unlink p cur q c n v hq hv hp hc => exact hI.unlink hx hc hq
  | foundUnlock q v n hq =>
    exact hI.relock hq false (.inl (by simp [hx, Pc.refs, Pc.held])) trivial
      (by simp [Pc.held]) (fun x hx' => by simp [hx, Pc.held, hx']) (by simp [Pc.refs, Pc.held, Pc.own])
  | unlockUnlinked p cur q n hq =>
    have hcq : cur ≠ q := fun e => hpc.2.1 (e ▸ hpc.1)
    exact hI.relock hq false (.inl (by simp [hx, Pc.refs, Pc.held])) hpc
      (by simp [Pc.held, Ne.symm hcq]) (fun x hx' => by simp [hx, Pc.held, hx'])
      (by simp [hx, Pc.refs, Pc.held, Pc.own])
  | destroy p cur q n hq => exact hI.destroy hx
  | release w cur c hc =>
    exact hI.relock hc false (.inl (by simp [hx, Pc.refs, Pc.held])) trivial
      (by simp [Pc.held]) (fun x hx' => by simp [hx, Pc.held, hx']) (by simp [Pc.refs, Pc.held, Pc.own])

omit [DecidableEq Tid] in
/-- The constructed list: `head` alone. -/
lemma inv_init : Inv (init Tid : Conf Tid (Shared α) (Pc α)) [] where
  chain := ⟨rfl, _, rfl, rfl⟩
  data := nofun
  fresh p hp := if_neg (by simp only [init] at hp; omega)
  pc _ := trivial
  locked p n hp := by
    simp only [init] at hp
    split at hp <;> cases hp
    simp [init, Pc.held]
  disjoint _ _ _ h := by simp [init, Pc.refs, Pc.held, Pc.own] at h

lemma inv_reach {h : List (Tid × Event α)} (hr : (threadsafeList α).Reach (init Tid) s h) :
    ∃ ns, Inv s ns :=
  hr.inv (fun s => ∃ ns, Inv s ns) ⟨[], inv_init⟩ fun _ _ _ _ _ _ ⟨_, hI⟩ hs =>
    ⟨_, hI.step (move_of_step hs)⟩

omit [DecidableEq Tid] in
/-- Under the invariant no step faults: every node a step reads, locks, unlocks or deletes is
live, and the node whose data `hold` dereferences has some. -/
lemma Inv.step_ok (hI : Inv s ns) (t : Tid) (c : Atomic.Choice (ListOp α)) :
    ∃ r, ThreadsafeList.step s.shared (s.thr t) c = .ok r := by
  have hpc := hI.pc t
  have hlive : ∀ p ∈ (s.thr t).refs, ∃ n, s.shared.heap p = some n := fun p hp =>
    Option.ne_none_iff_exists'.1 (hI.refs_live t hp)
  obtain ⟨-, h, hh, -⟩ := hI.chain
  generalize s.thr t = x at hpc hlive
  cases x with
  | idle => cases c <;> exact ⟨_, rfl⟩
  | pushNew v => exact ⟨_, rfl⟩
  | pushLock v p =>
    obtain ⟨n, hn⟩ := hlive p (by simp [Pc.refs, Pc.own])
    simp only [ThreadsafeList.step, Shared.read_of_heap hh, Shared.read_of_heap hn, ok_bind, pure_bind]
    split <;> exact ⟨_, rfl⟩
  | pushUnlock => simp only [ThreadsafeList.step, Shared.unlock_of_heap hh, ok_bind]; exact ⟨_, rfl⟩
  | lockHead w =>
    simp only [ThreadsafeList.step, Shared.read_of_heap hh, ok_bind, pure_bind]
    split <;> exact ⟨_, rfl⟩
  | next w cur =>
    obtain ⟨c', hc⟩ := hlive cur (by simp [Pc.refs, Pc.held])
    simp only [ThreadsafeList.step, Shared.read_of_heap hc, ok_bind]
    split
    · exact ⟨_, rfl⟩
    · rename_i q hq
      obtain ⟨n, hn⟩ := Option.ne_none_iff_exists'.1
        (hI.chain.live (hI.chain.next_mem hpc
          (show nextOf s.shared.heap cur = some (some q) by simp [nextOf, hc, hq])).1)
      simp only [Shared.read_of_heap hn, ok_bind, pure_bind]
      split <;> exact ⟨_, rfl⟩
  | hold w cur q =>
    obtain ⟨c', hc⟩ := hlive cur (by simp [Pc.refs, Pc.held])
    obtain ⟨n, hn⟩ := hlive q (by simp [Pc.refs, Pc.held])
    obtain ⟨v, hv⟩ : ∃ v, n.data = some v := Option.ne_none_iff_exists'.1 (by
      simpa [datum, hn] using hI.data q (hI.succ_mem hpc.1 hpc.2))
    simp only [ThreadsafeList.step, Shared.read_of_heap hn, ok_bind, hv]
    cases w with
    | forEach vs => simp only [Shared.unlock_of_heap hc, ok_bind]; exact ⟨_, rfl⟩
    | findFirstIf p => simp only [Shared.unlock_of_heap hc, ok_bind]; exact ⟨_, rfl⟩
    | removeIf p =>
      simp only [Shared.read_of_heap hc, Shared.unlock_of_heap hc, ok_bind, pure_bind]
      split <;> exact ⟨_, rfl⟩
  | found q v | unlinked _ _ q =>
    obtain ⟨n, hn⟩ := hlive q (by simp [Pc.refs, Pc.held])
    simp only [ThreadsafeList.step, Shared.unlock_of_heap hn, ok_bind]
    exact ⟨_, rfl⟩
  | destroy f cur q =>
    obtain ⟨n, hn⟩ := hlive q (by simp [Pc.refs, Pc.own])
    simp only [ThreadsafeList.step, Shared.delete_of_heap hn, ok_bind]
    exact ⟨_, rfl⟩
  | release w cur =>
    obtain ⟨c', hc⟩ := hlive cur (by simp [Pc.refs, Pc.held])
    simp only [ThreadsafeList.step, Shared.unlock_of_heap hc, ok_bind]
    exact ⟨_, rfl⟩

omit [DecidableEq Tid] in
lemma Inv.noFault (hI : Inv s ns) (f : Fault) : (threadsafeList α).NoFault f s := fun t c h => by
  obtain ⟨r, hr⟩ := hI.step_ok t c
  exact absurd (hr.symm.trans h) nofun

omit [DecidableEq Tid] in
/-- When `remove_if` deletes node `q`: the node is out of the list and its mutex is free, no other
thread refers to it, and no thread waits on its mutex (a thread waiting at `next->m` waits on the
successor of a node of the list). -/
lemma Inv.destroy_safe (hI : Inv s ns) {t : Tid} {f : α → Bool} {cur q : Nat}
    (ht : s.thr t = .destroy f cur q) :
    q ∉ 0 :: ns ∧ (∃ n, s.shared.heap q = some n ∧ n.locked = false) ∧
      ∀ u, u ≠ t → q ∉ (s.thr u).refs ∧
        ∀ w c, s.thr u = .next w c → nextOf s.shared.heap c ≠ some (some q) := by
  have hpc := hI.pc t
  rw [ht] at hpc
  have hqt : q ∈ (s.thr t).refs := Pc.mem_refs_of_own (by rw [ht]; rfl)
  obtain ⟨n, hn⟩ := Option.ne_none_iff_exists'.1 (hI.refs_live t hqt)
  have hcq : cur ≠ q := fun e => hpc.2.1 (e ▸ hpc.1)
  refine ⟨hpc.2.1, ⟨n, hn, hI.unlocked_of_own hqt (by simp [ht, Pc.held, Ne.symm hcq]) hn⟩,
    fun u hu => ⟨fun h => hu (hI.disjoint u t q h hqt), fun w c hc hnext => ?_⟩⟩
  have hcL := hI.pc u
  rw [hc] at hcL
  exact hpc.2.1 (hI.chain.next_mem hcL hnext).1

end Invariant

end ThreadsafeList

end ConcurrencyInAction
