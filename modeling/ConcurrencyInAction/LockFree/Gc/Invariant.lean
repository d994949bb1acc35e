import ConcurrencyInAction.LockFree.Gc.Basic
import Mathlib.Data.List.Perm.Subperm

/-!
# Who holds an unlinked node

A node leaves the stack at the compare-exchange of the pop that unlinks it. From then on
exactly one party holds it until it is deleted: that pop, as its `old_head`; the
`to_be_deleted` list; or the pop that took the list with `to_be_deleted.exchange(nullptr)`, as
its `nodes_to_delete`. Other pops may still read the node through an `old_head` loaded before
the unlink, until their compare-exchange fails, and all that time they are counted in
`threads_in_pop`.

So a pop deletes only nodes no other thread can read. It deletes its own `old_head` after it saw
`threads_in_pop==1`: no other pop was inside `pop` then, and a pop entering later loads a `head`
past the node. It deletes the list it took once its decrement brought the count to zero, when
no pop was inside `pop` at all.

`Inv` says this of one configuration, with the stack `S`, the list `D` of `to_be_deleted` and
the list `C t` each thread claimed as ghost state; every step keeps it.
-/

namespace ConcurrencyInAction

namespace LockFreeStackWithGc

variable {α : Type}

/-! ### Lists of nodes -/

/-- Following `next` from `c` visits the nodes `ns` and ends at a null pointer. -/
def Chain (heap : Nat → Option (Node α)) : Option Nat → List Nat → Prop
  | c, [] => c = none
  | c, p :: ns => c = some p ∧ ∃ n, heap p = some n ∧ Chain heap n.next ns

/-- The live nodes `ns` are linked by `next` from `first` to `last`; where `last` points is not
said. -/
def Seg (heap : Nat → Option (Node α)) (first last : Nat) : List Nat → Prop
  | [] => False
  | p :: ns => first = p ∧ ∃ n, heap p = some n ∧
      (ns = [] ∧ last = p ∨ ∃ q, n.next = some q ∧ Seg heap q last ns)

variable {heap heap' : Nat → Option (Node α)}

lemma chain_none {ns : List Nat} : Chain heap none ns ↔ ns = [] := by
  cases ns <;> simp [Chain]

lemma chain_some {p : Nat} {ns : List Nat} :
    Chain heap (some p) ns ↔ ∃ n rest, ns = p :: rest ∧ heap p = some n ∧ Chain heap n.next rest := by
  cases ns with
  | nil => simp [Chain]
  | cons q ns =>
    simp only [Chain, Option.some.injEq, List.cons.injEq]
    constructor
    · rintro ⟨rfl, n, hn, hc⟩; exact ⟨n, ns, ⟨rfl, rfl⟩, hn, hc⟩
    · rintro ⟨n, rest, ⟨rfl, rfl⟩, hn, hc⟩; exact ⟨rfl, n, hn, hc⟩

lemma Chain.live {c : Option Nat} {ns : List Nat} (h : Chain heap c ns) {p : Nat}
    (hp : p ∈ ns) : heap p ≠ none := by
  induction ns generalizing c with
  | nil => cases hp
  | cons q ns ih =>
    obtain ⟨-, n, hn, hc⟩ := h
    rcases List.mem_cons.mp hp with rfl | hp
    · simp [hn]
    · exact ih hc hp

lemma Chain.congr {c : Option Nat} {ns : List Nat} (h : Chain heap c ns)
    (he : ∀ p ∈ ns, heap' p = heap p) : Chain heap' c ns := by
  induction ns generalizing c with
  | nil => exact h
  | cons q ns ih =>
    obtain ⟨rfl, n, hn, hc⟩ := h
    exact ⟨rfl, n, by rw [he _ (List.mem_cons_self _ _), hn],
      ih hc fun p hp => he p (List.mem_cons_of_mem _ hp)⟩

/-- Following `next` from one pointer gives one list. -/
lemma Chain.unique {c : Option Nat} {ns ms : List Nat} (h : Chain heap c ns)
    (h' : Chain heap c ms) : ns = ms := by
  induction ns generalizing c ms with
  | nil => cases ms with
    | nil => rfl
    | cons q ms => obtain ⟨rfl, -⟩ := h'; cases h
  | cons p ns ih =>
    cases ms with
    | nil => obtain ⟨rfl, -⟩ := h; cases h'
    | cons q ms =>
      obtain ⟨rfl, n, hn, hc⟩ := h
      obtain ⟨hq, m, hm, hc'⟩ := h'
      obtain rfl : p = q := Option.some.inj hq
      obtain rfl : n = m := Option.some.inj (hn.symm.trans hm)
      rw [ih hc hc']

/-- A null-terminated list of nodes visits each node once. -/
lemma Chain.nodup {c : Option Nat} {ns : List Nat} (h : Chain heap c ns) : ns.Nodup := by
  induction ns generalizing c with
  | nil => exact List.nodup_nil
  | cons p ns ih =>
    obtain ⟨rfl, n, hn, hc⟩ := h
    refine List.nodup_cons.2 ⟨fun hp => ?_, ih hc⟩
    obtain ⟨pre, post, rfl⟩ := List.append_of_mem hp
    have hpost : ∀ {c : Option Nat} (pre : List Nat), Chain heap c (pre ++ p :: post) →
        Chain heap (some p) (p :: post) := by
      intro c pre h
      induction pre generalizing c with
      | nil => obtain ⟨rfl, h⟩ := h; exact ⟨rfl, h⟩
      | cons q pre ih => obtain ⟨-, m, -, h⟩ := h; exact ih h
    have := congrArg List.length
      ((show Chain heap (some p) (p :: (pre ++ p :: post)) from ⟨rfl, n, hn, hc⟩).unique
        (hpost pre hc))
    simp at this
    omega

lemma Seg.live {f l : Nat} {ns : List Nat} (h : Seg heap f l ns) {p : Nat} (hp : p ∈ ns) :
    heap p ≠ none := by
  induction ns generalizing f with
  | nil => cases h
  | cons q ns ih =>
    obtain ⟨-, n, hn, hrest⟩ := h
    rcases List.mem_cons.mp hp with rfl | hp
    · simp [hn]
    · rcases hrest with ⟨rfl, -⟩ | ⟨r, -, hs⟩
      · cases hp
      · exact ih hs hp

lemma Seg.last_mem {f l : Nat} {ns : List Nat} (h : Seg heap f l ns) : l ∈ ns := by
  induction ns generalizing f with
  | nil => cases h
  | cons q ns ih =>
    obtain ⟨-, n, -, ⟨-, rfl⟩ | ⟨r, -, hs⟩⟩ := h
    · exact List.mem_cons_self _ _
    · exact List.mem_cons_of_mem _ (ih hs)

lemma Seg.congr {f l : Nat} {ns : List Nat} (h : Seg heap f l ns)
    (he : ∀ p ∈ ns, heap' p = heap p) : Seg heap' f l ns := by
  induction ns generalizing f with
  | nil => cases h
  | cons q ns ih =>
    obtain ⟨rfl, n, hn, hrest⟩ := h
    refine ⟨rfl, n, by rw [he _ (List.mem_cons_self _ _), hn], ?_⟩
    rcases hrest with h | ⟨r, hr, hs⟩
    · exact .inl h
    · exact .inr ⟨r, hr, ih hs fun p hp => he p (List.mem_cons_of_mem _ hp)⟩

/-- Writing the last node of a segment keeps the segment. -/
lemma Seg.write_last {f l : Nat} {ns : List Nat} (h : Seg heap f l ns) (hnd : ns.Nodup)
    (n' : Node α) : Seg (Function.update heap l (some n')) f l ns := by
  induction ns generalizing f with
  | nil => cases h
  | cons q ns ih =>
    obtain ⟨rfl, n, hn, hrest⟩ := h
    rcases hrest with ⟨rfl, rfl⟩ | ⟨r, hr, hs⟩
    · exact ⟨rfl, n', by simp, .inl ⟨rfl, rfl⟩⟩
    · have hq : f ≠ l := fun hq => (List.nodup_cons.1 hnd).1 (hq ▸ hs.last_mem)
      exact ⟨rfl, n, by simp [hq, hn], .inr ⟨r, hr, ih hs (List.nodup_cons.1 hnd).2⟩⟩

/-- One step of the walk `last=next` extends the segment. -/
lemma Seg.snoc {f l q : Nat} {ns : List Nat} {n : Node α} (h : Seg heap f l ns)
    (hl : heap l = some n) (hq : n.next = some q) (hq' : heap q ≠ none) :
    Seg heap f q (ns ++ [q]) := by
  induction ns generalizing f with
  | nil => cases h
  | cons p ns ih =>
    obtain ⟨rfl, m, hm, ⟨rfl, rfl⟩ | ⟨r, hr, hs⟩⟩ := h
    · obtain ⟨n', hn'⟩ := Option.ne_none_iff_exists'.1 hq'
      exact ⟨rfl, n, hl, .inr ⟨q, hq, rfl, n', hn', .inl ⟨rfl, rfl⟩⟩⟩
    · exact ⟨rfl, m, hm, .inr ⟨r, hr, ih hs⟩⟩

/-- A segment whose last node points to a list is the front of that list. -/
lemma Seg.chain {f l : Nat} {ns ms : List Nat} {n : Node α} (h : Seg heap f l ns)
    (hl : heap l = some n) (hc : Chain heap n.next ms) : Chain heap (some f) (ns ++ ms) := by
  induction ns generalizing f with
  | nil => cases h
  | cons p ns ih =>
    obtain ⟨rfl, m, hm, ⟨rfl, rfl⟩ | ⟨r, hr, hs⟩⟩ := h
    · obtain rfl : n = m := Option.some.inj (hl.symm.trans hm)
      exact ⟨rfl, n, hl, hc⟩
    · exact ⟨rfl, m, hm, by rw [hr]; exact ih hs⟩

/-! ### What a thread holds -/

namespace Local

/-- The node the thread unlinked and holds as `old_head`. -/
def own : Local α → Option Nat
  | .swap p => some p
  | .check old _ | .claim old _ | .leave old _ _ | .deleteNodes _ old _ | .deleteNode _ _ old _
  | .findLast _ _ old _ | .link _ _ _ old _ | .chainCas _ _ _ old _ | .deleteOld old _ => old
  | _ => none

/-- The node whose `next` the thread is about to read, or to compare with `head`, through an
`old_head` it has not unlinked. -/
def reader : Local α → Option Nat
  | .test old => old
  | .cas p _ => some p
  | _ => none

/-- Counted in `threads_in_pop`: past the increment, not yet past the decrement. -/
def counted : Local α → Bool
  | .idle | .enter | .deleteNodes .. | .deleteNode .. | .findLast .. | .deleteOld .. => false
  | .link _ _ pending _ _ | .chainCas _ _ pending _ _ => pending
  | _ => true

/-- Saw `threads_in_pop==1`, so is to delete its `old_head`. -/
def reclaims : Local α → Bool
  | .claim .. | .leave .. | .deleteNodes .. | .deleteNode .. | .findLast .. | .deleteOld .. => true
  | .link _ _ pending _ _ | .chainCas _ _ pending _ _ => !pending
  | _ => false

/-- How many times `threads_in_pop` counts the thread. -/
def inPop (l : Local α) : Int := if l.counted then 1 else 0

lemma inPop_nonneg (l : Local α) : 0 ≤ l.inPop := by
  unfold inPop; split <;> decide

lemma inPop_idle : (idle : Local α).inPop = 0 := rfl

lemma inPop_of_counted {l : Local α} (h : l.counted = true) : l.inPop = 1 := by
  simp [inPop, h]

/-- Brought `threads_in_pop` to zero, so is deleting the list it claimed. -/
def deleting : Local α → Bool
  | .deleteNodes .. | .deleteNode .. => true
  | _ => false

end Local

/-- The list `ns` a thread claimed, as far as its locals show it: the list from
`nodes_to_delete` while it decides and deletes, the part still ahead of `last` while it walks,
the segment from `first` to `last` while it chains; `chain_pending_node(old_head)` chains the
thread's `old_head` alone. -/
def Claimed (heap : Nat → Option (Node α)) : Local α → List Nat → Prop
  | .leave _ nodes _, ns => Chain heap nodes ns
  | .deleteNodes nodes _ _, ns => Chain heap nodes ns
  | .deleteNode p nxt _ _, ns => ∃ rest, ns = p :: rest ∧ heap p ≠ none ∧ Chain heap nxt rest
  | .findLast first last _ _, ns => ∃ pre post n, ns = pre ++ post ∧ Seg heap first last pre ∧
      heap last = some n ∧ Chain heap n.next post
  | .link first last false _ _, ns => ∃ f l, first = some f ∧ last = some l ∧ Seg heap f l ns
  | .link first last true old _, ns => ns = [] ∧ first = old ∧ last = old
  | .chainCas first last false _ _, ns => ∃ f, first = some f ∧ Seg heap f last ns
  | .chainCas first last true old _, ns => ns = [] ∧ first = some last ∧ old = some last
  | _, ns => ns = []

/-- The nodes a thread at `l` holds: its `old_head`, then the list `ns` it claimed. -/
def owns (l : Local α) (ns : List Nat) : List Nat := l.own.toList ++ ns

/-- Node `p` is one the thread at `l`, holding the list `ns`, is to delete. -/
def Doomed (l : Local α) (ns : List Nat) (p : Nat) : Prop :=
  l.reclaims = true ∧ l.own = some p ∨ l.deleting = true ∧ p ∈ ns

lemma Claimed.live {l : Local α} {ns : List Nat} (h : Claimed heap l ns) {p : Nat}
    (hp : p ∈ ns) : heap p ≠ none := by
  cases l
  case leave | deleteNodes => exact Chain.live h hp
  case deleteNode =>
    obtain ⟨rest, rfl, hq, hc⟩ := h
    rcases List.mem_cons.mp hp with rfl | hp
    exacts [hq, hc.live hp]
  case findLast =>
    obtain ⟨pre, post, n, rfl, hs, -, hc⟩ := h
    rcases List.mem_append.mp hp with hp | hp
    exacts [hs.live hp, hc.live hp]
  case link pending _ _ =>
    cases pending
    · obtain ⟨f, l, -, -, hs⟩ := h; exact hs.live hp
    · obtain ⟨rfl, -⟩ := h; cases hp
  case chainCas pending _ _ =>
    cases pending
    · obtain ⟨f, -, hs⟩ := h; exact hs.live hp
    · obtain ⟨rfl, -⟩ := h; cases hp
  all_goals obtain rfl : ns = [] := h; cases hp

lemma Claimed.congr {l : Local α} {ns : List Nat} (h : Claimed heap l ns)
    (he : ∀ p ∈ ns, heap' p = heap p) : Claimed heap' l ns := by
  cases l
  case leave | deleteNodes => exact Chain.congr h he
  case deleteNode =>
    obtain ⟨rest, rfl, hq, hc⟩ := h
    exact ⟨rest, rfl, by rwa [he _ (List.mem_cons_self _ _)],
      hc.congr fun p hp => he p (List.mem_cons_of_mem _ hp)⟩
  case findLast =>
    obtain ⟨pre, post, n, rfl, hs, hl, hc⟩ := h
    exact ⟨pre, post, n, rfl, hs.congr fun p hp => he p (List.mem_append_left _ hp),
      by rw [he _ (List.mem_append_left _ hs.last_mem), hl],
      hc.congr fun p hp => he p (List.mem_append_right _ hp)⟩
  case link pending _ _ =>
    cases pending
    · obtain ⟨f, l, hf, hl, hs⟩ := h; exact ⟨f, l, hf, hl, hs.congr he⟩
    · exact h
  case chainCas pending _ _ =>
    cases pending
    · obtain ⟨f, hf, hs⟩ := h; exact ⟨f, hf, hs.congr he⟩
    · exact h
  all_goals exact h

lemma Doomed.mem_owns {l : Local α} {ns : List Nat} {p : Nat} (h : Doomed l ns p) :
    p ∈ owns l ns := by
  rcases h with ⟨-, h⟩ | ⟨-, h⟩
  · simp [owns, h]
  · exact List.mem_append_right _ h

/-- A thread still reading through an unlinked `old_head` deletes nothing. -/
lemma not_doomed_of_reader {l : Local α} {ns : List Nat} {p q : Nat} (h : l.reader = some p) :
    ¬ Doomed l ns q := by
  cases l <;> simp_all [Local.reader, Doomed, Local.reclaims, Local.deleting]

lemma Doomed.mono {l l' : Local α} {ns ns' : List Nat} {p : Nat}
    (hr : l.reclaims = true → l'.reclaims = true) (ho : l.own = l'.own)
    (hd : l.deleting = true → l'.deleting = true ∧ ns ⊆ ns') (h : Doomed l ns p) :
    Doomed l' ns' p := by
  rcases h with ⟨h₁, h₂⟩ | ⟨h₁, h₂⟩
  · exact .inl ⟨hr h₁, ho ▸ h₂⟩
  · exact .inr ⟨(hd h₁).1, (hd h₁).2 h₂⟩

lemma not_doomed {l : Local α} {ns : List Nat} {p : Nat} (h₁ : l.reclaims = false)
    (h₂ : l.deleting = false) : ¬ Doomed l ns p := by
  simp [Doomed, h₁, h₂]

lemma counted_of_reader {l : Local α} {p : Nat} (h : l.reader = some p) : l.counted = true := by
  cases l <;> simp_all [Local.reader, Local.counted]

lemma owns_nodup_left {S D ns : List Nat} {l : Local α} (h : (S ++ D ++ owns l ns).Nodup) :
    (S ++ D).Nodup := (List.nodup_append.1 h).1

lemma subperm_nodup {l₁ l₂ : List Nat} (h : List.Subperm l₁ l₂) (hn : l₂.Nodup) : l₁.Nodup := by
  obtain ⟨l, hp, hs⟩ := h
  exact hp.nodup_iff.1 (hs.nodup hn)

lemma subperm_of_count {l₁ l₂ : List Nat} (h : ∀ a, l₁.count a ≤ l₂.count a) :
    List.Subperm l₁ l₂ :=
  List.subperm_ext_iff.2 fun a _ => h a

lemma Chain.head_mem {p : Nat} {ns : List Nat} (h : Chain heap (some p) ns) : p ∈ ns := by
  obtain ⟨n, rest, rfl, -⟩ := chain_some.1 h
  exact List.mem_cons_self _ _

/-! ### The invariant -/

section Invariant

variable {Tid : Type} [Fintype Tid] {S₀ : List Nat}

/-- The invariant of `lock_free_stack_with_gc`, from a stack whose nodes were `S₀`: the stack
`S`, the `to_be_deleted` list `D` and the lists `C t` the threads claimed are lists of live
nodes, no node is in two of them or held by two threads, no live node of `S₀` is lost,
`threads_in_pop` counts the threads inside `pop`, and no thread reads a node that another
thread is to delete. -/
structure Inv (S₀ : List Nat) (s : Conf Tid (Shared α) (Local α)) (S D : List Nat)
    (C : Tid → List Nat) : Prop where
  stack : Chain s.shared.heap s.shared.head S
  pending : Chain s.shared.heap s.shared.toBeDeleted D
  claimed : ∀ t, Claimed s.shared.heap (s.thr t) (C t)
  owned : ∀ t p, (s.thr t).own = some p → s.shared.heap p ≠ none
  separate : (S ++ D).Nodup
  nodup : ∀ t, (S ++ D ++ owns (s.thr t) (C t)).Nodup
  disjoint : ∀ t u, t ≠ u → (owns (s.thr t) (C t)).Disjoint (owns (s.thr u) (C u))
  cover : ∀ p ∈ S₀, s.shared.heap p ≠ none → p ∈ S ∨ p ∈ D ∨ ∃ t, p ∈ owns (s.thr t) (C t)
  count : (s.shared.threadsInPop : Int) = s.count Local.inPop
  reader : ∀ t p, (s.thr t).reader = some p →
    s.shared.heap p ≠ none ∧ ∀ u, ¬ Doomed (s.thr u) (C u) p
  readNext : ∀ t p nxt, s.thr t = .cas p nxt → p ∈ S →
    ∃ n, s.shared.heap p = some n ∧ n.next = nxt

variable {s : Conf Tid (Shared α) (Local α)} {S D : List Nat} {C : Tid → List Nat}

lemma Inv.owns_live (hI : Inv S₀ s S D C) (t : Tid) {p : Nat}
    (hp : p ∈ owns (s.thr t) (C t)) : s.shared.heap p ≠ none := by
  rcases List.mem_append.1 hp with hp | hp
  · exact hI.owned t p (by simpa using hp)
  · exact (hI.claimed t).live hp

/-- A node another thread holds is outside everything thread `t` holds or can move. -/
lemma Inv.not_mem_zone (hI : Inv S₀ s S D C) {t u : Tid} (hu : u ≠ t) {p : Nat}
    (hp : p ∈ owns (s.thr u) (C u)) : p ∉ S ++ D ++ owns (s.thr t) (C t) := by
  rw [List.mem_append, not_or]
  exact ⟨fun h => List.disjoint_of_nodup_append (hI.nodup u) h hp,
    fun h => hI.disjoint u t hu hp h⟩

lemma Inv.stack_not_owns (hI : Inv S₀ s S D C) (t : Tid) {p : Nat} (hp : p ∈ S) :
    p ∉ owns (s.thr t) (C t) :=
  List.disjoint_of_nodup_append (hI.nodup t) (List.mem_append_left _ hp)

lemma Inv.pending_not_owns (hI : Inv S₀ s S D C) (t : Tid) {p : Nat} (hp : p ∈ D) :
    p ∉ owns (s.thr t) (C t) :=
  List.disjoint_of_nodup_append (hI.nodup t) (List.mem_append_right _ hp)

/-- What a thread is to delete after its step, it was to delete before: no reader of another
thread can hold it. -/
lemma Inv.others_of_doomed (hI : Inv S₀ s S D C) {t : Tid} {x : Local α} (hx : s.thr t = x)
    {l : Local α} {c : List Nat} (hd : ∀ q, Doomed l c q → Doomed x (C t) q) :
    ∀ u, u ≠ t → ∀ p, (s.thr u).reader = some p → ¬ Doomed l c p :=
  fun u _ p hp h => (hI.reader u p hp).2 t (hx ▸ hd p h)

variable [DecidableEq Tid]

/-- A thread counted in `threads_in_pop` makes the count positive. -/
lemma Inv.count_pos (hI : Inv S₀ s S D C) {t : Tid} (ht : (s.thr t).counted = true) :
    1 ≤ s.shared.threadsInPop := by
  have h0 := (s.set t s.shared .idle).count_nonneg Local.inPop_nonneg
  rw [Conf.count_set, ← hI.count, Local.inPop_idle, Local.inPop_of_counted ht] at h0
  omega

/-- A thread that sees `threads_in_pop` at one while counted is the only thread inside `pop`. -/
lemma Inv.alone (hI : Inv S₀ s S D C) (h1 : s.shared.threadsInPop = 1) {t : Tid}
    (ht : (s.thr t).counted = true) {u : Tid} (hu : u ≠ t) : (s.thr u).counted = false := by
  have h0 := (s.set t s.shared .idle).count_eq_zero Local.inPop_nonneg
    (by rw [Conf.count_set, ← hI.count, Local.inPop_idle, Local.inPop_of_counted ht, h1]; norm_num) u
  rw [Conf.set_thr_ne _ _ _ hu] at h0
  simpa [Local.inPop] using h0

/-- When no other thread is counted, no other thread reads an unlinked node. -/
lemma Inv.no_reader (hI : Inv S₀ s S D C) (h1 : s.shared.threadsInPop = 1) {t : Tid}
    (ht : (s.thr t).counted = true) {u : Tid} (hu : u ≠ t) {p : Nat} :
    (s.thr u).reader ≠ some p := fun h => by
  simpa [counted_of_reader h] using hI.alone h1 ht hu

/-- The frame of a step of thread `t`: what the step must show about the nodes it moves, given
that it moves only nodes of the stack, of `to_be_deleted` and of its own, and deletes only
nodes it is to delete. -/
lemma Inv.set (hI : Inv S₀ s S D C) {t : Tid} {x : Local α} (hx : s.thr t = x) {g : Shared α}
    {l : Local α} {S' D' c : List Nat}
    (hstack : Chain g.heap g.head S') (hpending : Chain g.heap g.toBeDeleted D')
    (hclaimed : Claimed g.heap l c) (howned : ∀ p, l.own = some p → g.heap p ≠ none)
    (hsuffix : List.IsSuffix S' S) (hsub : List.Subperm (S' ++ D' ++ owns l c) (S ++ D ++ owns x (C t)))
    (hframe : ∀ p, p ∉ owns x (C t) → g.heap p = s.shared.heap p)
    (hfree : ∀ p, g.heap p = none → s.shared.heap p ≠ none → Doomed x (C t) p)
    (hcover : ∀ p ∈ S ++ D ++ owns x (C t), g.heap p ≠ none → p ∈ S' ++ D' ++ owns l c)
    (hcount : (g.threadsInPop : Int) + x.inPop = s.shared.threadsInPop + l.inPop)
    (hothers : ∀ u, u ≠ t → ∀ p, (s.thr u).reader = some p → ¬ Doomed l c p)
    (hreader : ∀ p, l.reader = some p →
      g.heap p ≠ none ∧ ∀ u, u ≠ t → ¬ Doomed (s.thr u) (C u) p)
    (hreadNext : ∀ p nxt, l = .cas p nxt → p ∈ S' → ∃ n, g.heap p = some n ∧ n.next = nxt) :
    Inv S₀ (s.set t g l) S' D' (Function.update C t c) := by
  subst hx
  have hnd' := subperm_nodup hsub (hI.nodup t)
  have hfar : ∀ u, u ≠ t → ∀ p ∈ owns (s.thr u) (C u), p ∉ S' ++ D' ++ owns l c :=
    fun u hu p hp h => hI.not_mem_zone hu hp (hsub.subset h)
  have hsame : ∀ u, u ≠ t → ∀ p ∈ owns (s.thr u) (C u), g.heap p = s.shared.heap p :=
    fun u hu p hp => hframe p fun h => hI.not_mem_zone hu hp (List.mem_append_right _ h)
  have hthr : ∀ u, u ≠ t → (s.set t g l).thr u = s.thr u := fun u hu => Conf.set_thr_ne _ _ _ hu
  have hC : ∀ u, u ≠ t → Function.update C t c u = C u := fun u hu => Function.update_noteq hu _ _
  refine ⟨hstack, hpending, fun u => ?_, fun u p => ?_, owns_nodup_left hnd', fun u => ?_,
    fun u w huw => ?_,
    fun p hp hlive => ?_, ?_, fun u p => ?_, fun u p nxt => ?_⟩
  · by_cases hu : u = t
    · subst hu; simpa using hclaimed
    · rw [hthr u hu, hC u hu]
      exact (hI.claimed u).congr fun p hp => hsame u hu p (List.mem_append_right _ hp)
  · by_cases hu : u = t
    · subst hu; simpa using howned p
    · rw [hthr u hu]
      intro hp
      rw [Conf.set_shared, hsame u hu p (by simp [owns, hp])]
      exact hI.owned u p hp
  · by_cases hu : u = t
    · subst hu; simpa using hnd'
    · rw [hthr u hu, hC u hu, List.nodup_append]
      refine ⟨owns_nodup_left hnd', (List.nodup_append.1 (hI.nodup u)).2.1, fun p hp hp' => ?_⟩
      exact hfar u hu p hp' (List.mem_append_left _ hp)
  · by_cases hu : u = t
    · subst hu
      rw [Conf.set_thr_self, Function.update_same, hthr w (Ne.symm huw), hC w (Ne.symm huw)]
      exact fun p hp hp' => hfar w (Ne.symm huw) p hp' (List.mem_append_right _ hp)
    · by_cases hw : w = t
      · subst hw
        rw [Conf.set_thr_self, Function.update_same, hthr u hu, hC u hu]
        exact fun p hp hp' => hfar u hu p hp (List.mem_append_right _ hp')
      · rw [hthr u hu, hC u hu, hthr w hw, hC w hw]
        exact hI.disjoint u w huw
  · have hold : s.shared.heap p ≠ none := fun h0 => by
      by_cases hp' : p ∈ owns (s.thr t) (C t)
      · exact hI.owns_live t hp' h0
      · exact hlive (by rw [Conf.set_shared, hframe p hp', h0])
    simp only [Conf.set_thr]
    rcases hI.cover p hp hold with hS | hD | ⟨u, hu⟩
    · rcases List.mem_append.1 (hcover p (by simp [hS]) hlive) with h | h
      · rcases List.mem_append.1 h with h | h
        exacts [.inl h, .inr (.inl h)]
      · exact .inr (.inr ⟨t, by simpa using h⟩)
    · rcases List.mem_append.1 (hcover p (by simp [hD]) hlive) with h | h
      · rcases List.mem_append.1 h with h | h
        exacts [.inl h, .inr (.inl h)]
      · exact .inr (.inr ⟨t, by simpa using h⟩)
    · by_cases hut : u = t
      · subst hut
        rcases List.mem_append.1 (hcover p (List.mem_append_right _ hu) hlive) with h | h
        · rcases List.mem_append.1 h with h | h
          exacts [.inl h, .inr (.inl h)]
        · exact .inr (.inr ⟨u, by simpa using h⟩)
      · exact .inr (.inr ⟨u, by simpa [hut, hC u hut] using hu⟩)
  · rw [Conf.count_set, ← hI.count]
    simp only [Conf.set_shared, Conf.set_thr_self]
    omega
  · by_cases hu : u = t
    · subst hu
      simp only [Conf.set_thr_self, Conf.set_shared]
      intro hp
      refine ⟨(hreader p hp).1, fun w => ?_⟩
      by_cases hw : w = u
      · subst hw; simpa using not_doomed_of_reader hp
      · rw [hthr w hw, hC w hw]; exact (hreader p hp).2 w hw
    · rw [hthr u hu]
      intro hp
      obtain ⟨hlive, hnd⟩ := hI.reader u p hp
      refine ⟨fun h0 => hnd t (hfree p h0 hlive), fun w => ?_⟩
      by_cases hw : w = t
      · subst hw; simpa using hothers u hu p hp
      · rw [hthr w hw, hC w hw]; exact hnd w
  · by_cases hu : u = t
    · subst hu; simpa using hreadNext p nxt
    · rw [hthr u hu]
      intro hx hp
      obtain ⟨n, hn, hnx⟩ := hI.readNext u p nxt hx (hsuffix.subset hp)
      refine ⟨n, ?_, hnx⟩
      rw [Conf.set_shared, hframe p fun h => List.disjoint_of_nodup_append (hI.nodup t)
        (List.mem_append_left _ (hsuffix.subset hp)) h, hn]

/-- A step that only moves nodes between the stack, `to_be_deleted` and its own hands, and
deletes none. -/
lemma Inv.set_perm (hI : Inv S₀ s S D C) {t : Tid} {x : Local α} (hx : s.thr t = x)
    {g : Shared α} {l : Local α} {S' D' c : List Nat}
    (hstack : Chain g.heap g.head S') (hpending : Chain g.heap g.toBeDeleted D')
    (hclaimed : Claimed g.heap l c) (howned : ∀ p, l.own = some p → g.heap p ≠ none)
    (hsuffix : List.IsSuffix S' S) (hperm : (S' ++ D' ++ owns l c).Perm (S ++ D ++ owns x (C t)))
    (hheap : g.heap = s.shared.heap)
    (hcount : (g.threadsInPop : Int) + x.inPop = s.shared.threadsInPop + l.inPop)
    (hothers : ∀ u, u ≠ t → ∀ p, (s.thr u).reader = some p → ¬ Doomed l c p)
    (hreader : ∀ p, l.reader = some p →
      g.heap p ≠ none ∧ ∀ u, u ≠ t → ¬ Doomed (s.thr u) (C u) p)
    (hreadNext : ∀ p nxt, l = .cas p nxt → p ∈ S' → ∃ n, g.heap p = some n ∧ n.next = nxt) :
    Inv S₀ (s.set t g l) S' D' (Function.update C t c) :=
  hI.set hx hstack hpending hclaimed howned hsuffix hperm.subperm (fun _ _ => by rw [hheap])
    (fun _ h0 h => absurd (hheap ▸ h0) h) (fun _ hp _ => hperm.mem_iff.2 hp) hcount hothers
    hreader hreadNext

/-- A step that moves no node and writes none: it changes at most `threads_in_pop` and the
thread's locals, and the thread holds what it held. -/
lemma Inv.local (hI : Inv S₀ s S D C) {t : Tid} {x : Local α} (hx : s.thr t = x)
    {g : Shared α} {l : Local α} {c : List Nat}
    (hhead : g.head = s.shared.head) (hheap : g.heap = s.shared.heap)
    (htbd : g.toBeDeleted = s.shared.toBeDeleted)
    (hclaimed : Claimed s.shared.heap l c) (hown : l.own = x.own)
    (howns : owns l c = owns x (C t))
    (hcount : (g.threadsInPop : Int) + x.inPop = s.shared.threadsInPop + l.inPop)
    (hothers : ∀ u, u ≠ t → ∀ p, (s.thr u).reader = some p → ¬ Doomed l c p)
    (hreader : ∀ p, l.reader = some p → x.reader = some p ∨ s.shared.head = some p)
    (hreadNext : ∀ p nxt, l = .cas p nxt → p ∈ S →
      ∃ n, s.shared.heap p = some n ∧ n.next = nxt) :
    Inv S₀ (s.set t g l) S D (Function.update C t c) := by
  refine hI.set hx (by rw [hhead, hheap]; exact hI.stack) (by rw [htbd, hheap]; exact hI.pending)
    (by rwa [hheap]) (fun p hp => by rw [hheap]; exact hI.owned t p (by rw [hx, ← hown, hp]))
    (List.suffix_refl S) (by rw [howns]) (fun p _ => by rw [hheap])
    (fun p h0 h => absurd (hheap ▸ h0) h) (fun p hp _ => by rwa [howns]) hcount hothers
    (fun p hp => ?_) (by rwa [hheap])
  rw [hheap]
  rcases hreader p hp with h | h
  · obtain ⟨hlive, hnd⟩ := hI.reader t p (hx ▸ h)
    exact ⟨hlive, fun u _ => hnd u⟩
  · have hS : p ∈ S := Chain.head_mem (h ▸ hI.stack)
    exact ⟨hI.stack.live hS, fun u _ hd => hI.stack_not_owns u hS hd.mem_owns⟩

/-- A step that writes a node the thread holds and moves no node. -/
lemma Inv.write (hI : Inv S₀ s S D C) {t : Tid} {x : Local α} (hx : s.thr t = x) {p : Nat}
    (hp : p ∈ owns x (C t)) (n : Node α) {l : Local α} {c : List Nat}
    (hclaimed : Claimed (Function.update s.shared.heap p (some n)) l c) (hown : l.own = x.own)
    (howns : owns l c = owns x (C t)) (hcount : l.inPop = x.inPop)
    (hdoomed : ∀ q, Doomed l c q → Doomed x (C t) q) (hreader : l.reader = none) :
    Inv S₀ (s.set t (s.shared.write p n) l) S D (Function.update C t c) := by
  have hframe : ∀ q, q ∉ owns x (C t) → (s.shared.write p n).heap q = s.shared.heap q :=
    fun q hq => Function.update_noteq (fun h => hq (by rw [h]; exact hp)) _ _
  refine hI.set hx
    (hI.stack.congr fun q hq => hframe q (hx ▸ hI.stack_not_owns t hq))
    (hI.pending.congr fun q hq => hframe q (hx ▸ hI.pending_not_owns t hq)) hclaimed
    (fun q hq => ?_) (List.suffix_refl S) (by rw [howns]) hframe (fun q h0 h => ?_)
    (fun q hq _ => by rwa [howns]) (by rw [hcount]; rfl) (hI.others_of_doomed hx hdoomed)
    (fun q h => by simp [hreader] at h) (fun q nxt h => by simp [h, Local.reader] at hreader)
  · by_cases hqp : q = p
    · subst hqp; simp
    · rw [Shared.write_heap, Function.update_noteq hqp]
      exact hI.owned t q (by rw [hx, ← hown, hq])
  · by_cases hqp : q = p
    · subst hqp; simp at h0
    · simp [Function.update_noteq hqp] at h0
      exact absurd h0 h

/-- A step that deletes a node the thread is to delete, and lets go of it. -/
lemma Inv.erase (hI : Inv S₀ s S D C) {t : Tid} {x : Local α} (hx : s.thr t = x) {p : Nat}
    (hp : Doomed x (C t) p) {l : Local α} {c : List Nat}
    (hclaimed : Claimed (Function.update s.shared.heap p none) l c)
    (hsub : List.Subperm (owns l c) (owns x (C t))) (hp' : p ∉ owns l c)
    (hmem : ∀ q ∈ owns x (C t), q ≠ p → q ∈ owns l c) (hcount : l.inPop = x.inPop)
    (hdoomed : ∀ q, Doomed l c q → Doomed x (C t) q) (hreader : l.reader = none) :
    Inv S₀ (s.set t (s.shared.erase p) l) S D (Function.update C t c) := by
  have hpo : p ∈ owns x (C t) := hp.mem_owns
  have hframe : ∀ q, q ∉ owns x (C t) → (s.shared.erase p).heap q = s.shared.heap q :=
    fun q hq => Function.update_noteq (fun h => hq (by rw [h]; exact hpo)) _ _
  refine hI.set hx
    (hI.stack.congr fun q hq => hframe q (hx ▸ hI.stack_not_owns t hq))
    (hI.pending.congr fun q hq => hframe q (hx ▸ hI.pending_not_owns t hq)) hclaimed
    (fun q hq => ?_) (List.suffix_refl S) ((List.subperm_append_left _).2 hsub) hframe (fun q h0 h => ?_)
    (fun q hq hq' => ?_) (by rw [hcount]; rfl) (hI.others_of_doomed hx hdoomed)
    (fun q h => by simp [hreader] at h) (fun q nxt h => by simp [h, Local.reader] at hreader)
  · have hq' : q ∈ owns l c := by simp [owns, hq]
    have hqp : q ≠ p := fun h => hp' (h ▸ hq')
    rw [Shared.erase_heap, Function.update_noteq hqp]
    exact hI.owns_live t (hx ▸ hsub.subset hq')
  · by_cases hqp : q = p
    · subst hqp; exact hp
    · simp [Function.update_noteq hqp] at h0
      exact absurd h0 h
  · have hqp : q ≠ p := fun h => hq' (by rw [h]; simp)
    rcases List.mem_append.1 hq with h | h
    · exact List.mem_append_left _ h
    · exact List.mem_append_right _ (hmem q h hqp)

/-- Every step keeps the invariant. -/
lemma Inv.step (hI : Inv S₀ s S D C) {t : Tid} {ch : Choice} {g : Shared α} {l : Local α}
    {e : Option (StackEvent α)} (hs : step s.shared (s.thr t) ch = .ok (g, l, e)) :
    ∃ S' D' C', Inv S₀ (s.set t g l) S' D' C' := by
  have hcl := hI.claimed t
  have hnd := hI.nodup t
  generalize hx : s.thr t = x at hs hcl hnd
  have hpos : x.counted = true → 1 ≤ s.shared.threadsInPop := fun h => hI.count_pos (hx ▸ h)
  cases move_of_step hs with
  | call =>
    exact ⟨S, D, _, hI.local hx rfl rfl rfl (c := []) rfl rfl (by rw [show C t = [] from hcl]; rfl)
      rfl (fun _ _ _ _ => not_doomed rfl rfl) (fun _ h => by cases h) (fun _ _ h => by cases h)⟩
  | stay => exact ⟨S, D, C, by rw [← hx, Conf.set_self]; exact hI⟩
  | enter =>
    exact ⟨S, D, _, hI.local hx rfl rfl rfl (c := []) rfl rfl (by rw [show C t = [] from hcl]; rfl)
      (by simp [Local.inPop, Local.counted]) (fun _ _ _ _ => not_doomed rfl rfl)
      (fun _ h => by cases h) (fun _ _ h => by cases h)⟩
  | load =>
    exact ⟨S, D, _, hI.local hx rfl rfl rfl (c := []) rfl rfl (by rw [show C t = [] from hcl]; rfl)
      rfl (fun _ _ _ _ => not_doomed rfl rfl) (fun _ h => .inr h) (fun _ _ h => by cases h)⟩
  | testNull =>
    exact ⟨S, D, _, hI.local hx rfl rfl rfl (c := []) rfl rfl (by rw [show C t = [] from hcl]; rfl)
      rfl (fun _ _ _ _ => not_doomed rfl rfl) (fun _ h => by cases h) (fun _ _ h => by cases h)⟩
  | readNext p n hp =>
    exact ⟨S, D, _, hI.local hx rfl rfl rfl (c := []) rfl rfl (by rw [show C t = [] from hcl]; rfl)
      rfl (fun _ _ _ _ => not_doomed rfl rfl) (fun _ h => .inl h)
      (fun _ _ h _ => by cases h; exact ⟨n, hp, rfl⟩)⟩
  | retry p nxt =>
    exact ⟨S, D, _, hI.local hx rfl rfl rfl (c := []) rfl rfl (by rw [show C t = [] from hcl]; rfl)
      rfl (fun _ _ _ _ => not_doomed rfl rfl) (fun _ h => .inr h) (fun _ _ h => by cases h)⟩
  | unlink p nxt hh =>
    have hc : C t = [] := hcl
    obtain ⟨n, hn, rfl⟩ := hI.readNext t p nxt hx (Chain.head_mem (hh ▸ hI.stack))
    obtain ⟨m, rest, rfl, hm, hrest⟩ := chain_some.1 (hh ▸ hI.stack)
    obtain rfl : m = n := Option.some.inj (hm.symm.trans hn)
    refine ⟨rest, D, _, hI.set_perm hx (c := []) hrest hI.pending rfl (fun _ h => by
      cases h; rw [hn]; simp) (List.suffix_cons _ _) (List.perm_iff_count.2 fun a => ?_) rfl rfl
      (fun _ _ _ _ => not_doomed rfl rfl) (fun _ h => by cases h) (fun _ _ h => by cases h)⟩
    simp only [hc, owns, Local.own, Option.toList, List.count_append, List.count_cons,
      List.count_nil, List.cons_append]
    omega
  | swap p n hp =>
    have hc : C t = [] := hcl
    exact ⟨S, D, _, hI.write hx (p := p) (by simp [owns, Local.own]) _ (c := []) rfl rfl
      (by rw [hc]; rfl) rfl (fun _ h => absurd h (not_doomed rfl rfl)) rfl⟩
  | alone old res h1 =>
    exact ⟨S, D, _, hI.local hx rfl rfl rfl (c := []) rfl rfl
      (by rw [show C t = [] from hcl]; rfl) rfl
      (fun _ hu _ hp _ => hI.no_reader h1 (by rw [hx]; rfl) hu hp) (fun _ h => by cases h)
      (fun _ _ h => by cases h)⟩
  | notAlone old res h1 =>
    exact ⟨S, D, _, hI.local hx rfl rfl rfl (c := []) ⟨rfl, rfl, rfl⟩ rfl
      (by rw [show C t = [] from hcl]; rfl) rfl (fun _ _ _ _ => not_doomed rfl rfl)
      (fun _ h => by cases h) (fun _ _ h => by cases h)⟩
  | claim old res =>
    have hc : C t = [] := hcl
    refine ⟨S, [], _, hI.set_perm hx (c := D) hI.stack rfl hI.pending
      (fun p h => hI.owned t p (by rw [hx]; exact h)) (List.suffix_refl S)
      (List.perm_iff_count.2 fun a => ?_) rfl rfl
      (hI.others_of_doomed hx fun _ => Doomed.mono (fun _ => rfl) rfl nofun)
      (fun _ h => by cases h) (fun _ _ h => by cases h)⟩
    simp only [hc, owns, Local.own, List.count_append, List.count_nil]
    omega
  | leaveLast old nodes res h0 =>
    have h1 : s.shared.threadsInPop = 1 := by have := hpos rfl; omega
    exact ⟨S, D, _, hI.local hx rfl rfl rfl hcl rfl rfl
      (by simp [Local.inPop, Local.counted]; omega)
      (fun _ hu _ hp _ => hI.no_reader h1 (by rw [hx]; rfl) hu hp) (fun _ h => by cases h)
      (fun _ _ h => by cases h)⟩
  | leaveNone old res h0 =>
    have hc : C t = [] := chain_none.1 hcl
    have := hpos rfl
    exact ⟨S, D, _, hI.local hx rfl rfl rfl (c := []) rfl rfl (by rw [hc]; rfl)
      (by simp [Local.inPop, Local.counted]; omega)
      (hI.others_of_doomed hx fun _ => Doomed.mono (fun _ => rfl) rfl nofun) (fun _ h => by cases h) (fun _ _ h => by cases h)⟩
  | leaveSome old p res h0 =>
    obtain ⟨n, rest, hc, hp, hrest⟩ := chain_some.1 hcl
    have := hpos rfl
    exact ⟨S, D, _, hI.local hx rfl rfl rfl
      ⟨[p], rest, n, hc, ⟨rfl, n, hp, .inl ⟨rfl, rfl⟩⟩, hp, hrest⟩ rfl rfl
      (by simp [Local.inPop, Local.counted]; omega)
      (hI.others_of_doomed hx fun _ => Doomed.mono (fun _ => rfl) rfl nofun) (fun _ h => by cases h) (fun _ _ h => by cases h)⟩
  | deleteNodesDone old res =>
    have hc : C t = [] := chain_none.1 hcl
    exact ⟨S, D, _, hI.local hx rfl rfl rfl (c := []) rfl rfl (by rw [hc]; rfl) rfl
      (hI.others_of_doomed hx fun _ => Doomed.mono (fun _ => rfl) rfl nofun) (fun _ h => by cases h) (fun _ _ h => by cases h)⟩
  | deleteNodesNext p n old res hp =>
    obtain ⟨m, rest, hc, hm, hrest⟩ := chain_some.1 hcl
    obtain rfl : m = n := Option.some.inj (hm.symm.trans hp)
    exact ⟨S, D, _, hI.local hx rfl rfl rfl ⟨rest, hc, by simp [hp], hrest⟩ rfl rfl rfl
      (hI.others_of_doomed hx fun q h => h) (fun _ h => by cases h) (fun _ _ h => by cases h)⟩
  | deleteNode p n nxt old res hp =>
    obtain ⟨rest, hc, -, hrest⟩ := hcl
    have hnd' := (List.nodup_append.1 (List.nodup_append.1 hnd).2.1)
    simp only [Local.own, hc] at hnd'
    have hpr : p ∉ rest := (List.nodup_cons.1 hnd'.2.1).1
    have hpo : p ∉ old.toList := fun h => hnd'.2.2 h (List.mem_cons_self _ _)
    refine ⟨S, D, _, hI.erase hx (c := rest) (.inr ⟨rfl, by simp [hc]⟩)
      (hrest.congr fun q hq => Function.update_noteq (by rintro rfl; exact hpr hq) _ _)
      (subperm_of_count fun a => ?_) (by simp [owns, Local.own, hpr, hpo]) (fun q hq hqp => ?_) rfl
      (fun _ => Doomed.mono (fun _ => rfl) rfl fun _ => ⟨rfl, by simp [hc]⟩) rfl⟩
    · simp only [owns, Local.own, hc, List.count_append, List.count_cons]
      split <;> omega
    · simp [owns, Local.own, hc, hqp] at hq ⊢
      exact hq
  | foundLast first last n old res hp hn =>
    obtain ⟨pre, post, m, hc, hs, hm, hpost⟩ := hcl
    obtain rfl : m = n := Option.some.inj (hm.symm.trans hp)
    obtain rfl : post = [] := chain_none.1 (hn ▸ hpost)
    exact ⟨S, D, _, hI.local hx rfl rfl rfl ⟨first, last, rfl, rfl, by simpa [hc] using hs⟩ rfl
      rfl rfl (hI.others_of_doomed hx fun _ => Doomed.mono (fun _ => rfl) rfl nofun) (fun _ h => by cases h) (fun _ _ h => by cases h)⟩
  | findNext first last q n old res hp hn =>
    obtain ⟨pre, post, m, hc, hs, hm, hpost⟩ := hcl
    obtain rfl : m = n := Option.some.inj (hm.symm.trans hp)
    obtain ⟨m, rest, rfl, hq, hrest⟩ := chain_some.1 (hn ▸ hpost)
    exact ⟨S, D, _, hI.local hx rfl rfl rfl
      ⟨pre ++ [q], rest, m, by simp [hc], hs.snoc hp hn (by simp [hq]), hq, hrest⟩ rfl rfl rfl
      (hI.others_of_doomed hx fun _ => Doomed.mono (fun _ => rfl) rfl nofun) (fun _ h => by cases h) (fun _ _ h => by cases h)⟩
  | link first last n pending old res hp =>
    cases pending
    · obtain ⟨f, l, rfl, hl, hs⟩ := hcl
      obtain rfl : last = l := Option.some.inj hl
      exact ⟨S, D, _, hI.write hx (p := last) (List.mem_append_right _ hs.last_mem) _
        ⟨f, rfl, hs.write_last (List.nodup_append.1 (List.nodup_append.1 hnd).2.1).2.1 _⟩
        rfl rfl rfl (fun _ h => h) rfl⟩
    · obtain ⟨hc, rfl, rfl⟩ := hcl
      exact ⟨S, D, _, hI.write hx (p := last) (by simp [owns, Local.own]) _ (c := [])
        ⟨rfl, rfl, rfl⟩ rfl (by rw [hc]; rfl) rfl (fun _ h => absurd h (not_doomed rfl rfl)) rfl⟩
  | chained first last n pending old res hp hn =>
    have hD : Chain s.shared.heap n.next D := by rw [← hn]; exact hI.pending
    cases pending
    · obtain ⟨f, rfl, hseg⟩ := hcl
      rw [if_neg Bool.false_ne_true]
      refine ⟨S, C t ++ D, _, hI.set_perm hx (c := []) hI.stack (hseg.chain hp hD) rfl
        (fun p h => hI.owned t p (by rw [hx]; exact h)) (List.suffix_refl S)
        (List.perm_iff_count.2 fun a => ?_) rfl rfl
        (hI.others_of_doomed hx fun _ => Doomed.mono (fun _ => rfl) rfl nofun)
        (fun _ h => by cases h) (fun _ _ h => by cases h)⟩
      simp only [owns, Local.own, List.count_append, List.count_nil]
      omega
    · obtain ⟨hc, rfl, rfl⟩ := hcl
      rw [if_pos rfl]
      refine ⟨S, last :: D, _, hI.set_perm hx (c := []) hI.stack ⟨rfl, n, hp, hD⟩ rfl
        (fun _ h => by cases h) (List.suffix_refl S) (List.perm_iff_count.2 fun a => ?_) rfl rfl
        (fun _ _ _ _ => not_doomed rfl rfl) (fun _ h => by cases h) (fun _ _ h => by cases h)⟩
      simp only [owns, Local.own, hc, Option.toList, List.count_append, List.count_cons,
        List.count_nil, List.cons_append]
      omega
  | chainRetry first last n pending old res hp =>
    cases pending
    · obtain ⟨f, hf, hs⟩ := hcl
      exact ⟨S, D, _, hI.write hx (p := last) (List.mem_append_right _ hs.last_mem) _
        ⟨f, hf, hs.write_last (List.nodup_append.1 (List.nodup_append.1 hnd).2.1).2.1 _⟩
        rfl rfl rfl (fun _ h => h) rfl⟩
    · obtain ⟨hc, hf, rfl⟩ := hcl
      exact ⟨S, D, _, hI.write hx (p := last) (by simp [owns, Local.own]) _ ⟨hc, hf, rfl⟩
        rfl rfl rfl (fun _ h => h) rfl⟩
  | deleteNull res =>
    exact ⟨S, D, _, hI.local hx rfl rfl rfl (c := []) rfl rfl
      (by rw [show C t = [] from hcl]; rfl) rfl (fun _ _ _ _ => not_doomed rfl rfl)
      (fun _ h => by cases h) (fun _ _ h => by cases h)⟩
  | deleteOld p n res hp =>
    have hc : C t = [] := hcl
    refine ⟨S, D, _, hI.erase hx (c := []) (.inl ⟨rfl, rfl⟩) rfl
      (subperm_of_count fun a => ?_) (by simp [owns, Local.own]) (fun q hq hqp => ?_) rfl
      (fun _ h => absurd h (not_doomed rfl rfl)) rfl⟩
    · simp [owns, Local.own]
    · simp [owns, Local.own, hc] at hq
      exact absurd hq hqp
  | leavePending res =>
    have := hpos rfl
    exact ⟨S, D, _, hI.local hx rfl rfl rfl (c := []) rfl rfl
      (by rw [show C t = [] from hcl]; rfl) (by simp [Local.inPop, Local.counted]; omega)
      (fun _ _ _ _ => not_doomed rfl rfl) (fun _ h => by cases h) (fun _ _ h => by cases h)⟩

omit [DecidableEq Tid] in
lemma inv_start {g₀ : Shared α} (h₀ : Chain g₀.heap g₀.head S₀) (htbd : g₀.toBeDeleted = none)
    (hz : g₀.threadsInPop = 0) : Inv S₀ (start Tid g₀) S₀ [] fun _ => [] where
  stack := h₀
  pending := by show Chain g₀.heap g₀.toBeDeleted []; rw [htbd]; rfl
  claimed _ := rfl
  owned _ _ h := by cases h
  separate := by simpa using h₀.nodup
  nodup _ := by simpa [start, owns, Local.own] using h₀.nodup
  disjoint _ _ _ := by simp [start, owns, Local.own]
  cover _ hp _ := .inl hp
  count := by simp [Conf.count, start, Local.inPop, Local.counted, hz]
  reader _ _ h := by cases h
  readNext _ _ _ h := by cases h

/-- The invariant holds at every configuration reachable from a stack of live nodes `S₀`,
with `to_be_deleted` null and no thread in `pop`. -/
lemma inv_reach {g₀ : Shared α} (h₀ : Chain g₀.heap g₀.head S₀) (htbd : g₀.toBeDeleted = none)
    (hz : g₀.threadsInPop = 0) {s : Conf Tid (Shared α) (Local α)}
    {h : List (Tid × StackEvent α)} (hr : (lockFreeStackWithGc α).Reach (start Tid g₀) s h) :
    ∃ S D C, Inv S₀ s S D C :=
  hr.inv (fun s => ∃ S D C, Inv S₀ s S D C) ⟨S₀, [], _, inv_start h₀ htbd hz⟩
    fun _ _ _ _ _ _ ⟨_, _, _, hI⟩ hs => hI.step hs

omit [DecidableEq Tid] in
/-- Every node a thread is about to read or delete is live. -/
lemma Inv.deref_live (hI : Inv S₀ s S D C) (t : Tid) {p : Nat}
    (hp : (s.thr t).deref = some p) : s.shared.heap p ≠ none := by
  have hcl := hI.claimed t
  have hown := hI.owned t
  have hrd := hI.reader t
  generalize s.thr t = x at hp hcl hown hrd
  cases x
  case test => exact (hrd p hp).1
  case swap | deleteOld => exact hown p hp
  case deleteNodes nodes _ _ =>
    obtain rfl : nodes = some p := hp
    exact hcl.live hcl.head_mem
  case deleteNode => obtain rfl := Option.some.inj hp; obtain ⟨-, -, h, -⟩ := hcl; exact h
  case findLast => obtain rfl := Option.some.inj hp; obtain ⟨-, -, n, -, -, hn, -⟩ := hcl; simp [hn]
  case link pending _ _ =>
    cases pending
    · obtain ⟨f, l, -, rfl, hs⟩ := hcl; exact hs.live (Option.some.inj hp ▸ hs.last_mem)
    · obtain ⟨-, -, rfl⟩ := hcl; exact hown p hp
  case chainCas pending _ _ =>
    obtain rfl := Option.some.inj hp
    cases pending
    · obtain ⟨f, -, hs⟩ := hcl; exact hs.live hs.last_mem
    · obtain ⟨-, -, h⟩ := hcl; exact hown _ h
  all_goals cases hp

omit [DecidableEq Tid] in
/-- No configuration with the invariant has a step that reads a deleted node or deletes one
twice. -/
lemma Inv.noFault (hI : Inv S₀ s S D C) :
    (lockFreeStackWithGc α).NoFault .useAfterFree s ∧
      (lockFreeStackWithGc α).NoFault .doubleFree s := by
  have key : ∀ f, f ≠ .nullDeref → (lockFreeStackWithGc α).NoFault f s := fun f hf t c h => by
    rcases step_error h with h | ⟨p, hp, h0⟩
    exacts [hf h, hI.deref_live t hp h0]
  exact ⟨key _ nofun, key _ nofun⟩

end Invariant

end LockFreeStackWithGc

end ConcurrencyInAction
