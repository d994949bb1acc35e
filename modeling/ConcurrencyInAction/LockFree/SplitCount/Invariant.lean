import ConcurrencyInAction.LockFree.SplitCount.Basic

/-!
# The split-count invariant

Every node is in one of six states: free (never allocated, or deleted), private to the pusher
that allocated it, linked with the external count `e` of the pointer to it, unlinked with its
unlinking pop still to settle, released with claims outstanding, or about to be deleted by the
one pop that brought its count to zero.

The counts balance. A thread holding a claim on a node owes it `-1`; the pop that unlinked it
owes `e - 2` (the link it removed and its own claim, added in one `fetch_add`). For a linked
node, `internal_count + (e - 1)` plus the threads' shares is zero; for an unlinked one,
`internal_count` plus the shares is. So `e - 1 + internal_count` counts the claims on a linked
node, and once the unlinker has settled, `internal_count` counts the claims still out: the node
is deleted exactly when the last of them is given back.
-/

namespace ConcurrencyInAction

namespace LockFreeStackRf

/-- What a thread is doing with a given node. -/
inductive Role
  | none
  /-- Allocated it and has not published it. -/
  | owner
  /-- Holds a claim: raised the head's count on it and has not given the claim back. -/
  | claimant
  /-- Unlinked it, with external count `e`, and has not settled its count. -/
  | unlinker (e : Int)
  /-- Brought its count to zero and is about to delete it. -/
  | deleter
  deriving DecidableEq, Repr

/-- A thread's share of a node's balance: a claim owes `-1`, the unlinking pop `e - 2`. -/
def Role.share : Role → Int
  | .claimant => -1
  | .unlinker e => e - 2
  | _ => 0

@[simp] lemma Role.share_none : Role.none.share = 0 := rfl
@[simp] lemma Role.share_owner : Role.owner.share = 0 := rfl
@[simp] lemma Role.share_claimant : Role.claimant.share = -1 := rfl
@[simp] lemma Role.share_unlinker (e : Int) : (Role.unlinker e).share = e - 2 := rfl
@[simp] lemma Role.share_deleter : Role.deleter.share = 0 := rfl

variable {α Tid : Type}

/-- The node a thread's local state is about, if any. -/
def Local.node : Local α → Option Nat
  | .pushLoad _ p | .pushCas _ p | .popReadNext _ p | .popCas _ p _ | .popRelease _ p
  | .popSwap _ p | .popSettle _ p _ | .popDelete p _ | .popAcquire _ p | .popDeleteLoser _ p => some p
  | _ => none

/-- What the thread does with its node. -/
def Local.kind : Local α → Role
  | .pushLoad _ _ | .pushCas _ _ => .owner
  | .popReadNext _ _ | .popCas _ _ _ | .popRelease _ _ => .claimant
  | .popSwap old _ | .popSettle old _ _ => .unlinker old.externalCount
  | .popDelete _ _ | .popAcquire _ _ | .popDeleteLoser _ _ => .deleter
  | _ => .none

/-- What a thread does with node `q`. -/
def Local.role (l : Local α) (q : Nat) : Role :=
  if l.node = some q then l.kind else .none

lemma Local.role_of_ne {l : Local α} {q : Nat} (h : l.node ≠ some q) : l.role q = .none := by
  simp [Local.role, h]

lemma Local.node_of_role {l : Local α} {q : Nat} (h : l.role q ≠ .none) : l.node = some q := by
  by_contra h'
  exact h (Local.role_of_ne h')

/-! ### The chain from `head` -/

/-- Following `next` from `c` visits `stk` (each node with the external count of the pointer
to it and its value) and ends at a null pointer with count `z`. -/
def Chain (heap : Nat → Option (Node α)) : CountedNodePtr → List (Int × Nat × α) → Int → Prop
  | c, [], z => c = ⟨z, none⟩
  | c, (e, p, v) :: rest, z =>
    c = ⟨e, some p⟩ ∧ ∃ n, heap p = some n ∧ n.data = some v ∧ Chain heap n.next rest z

/-- The nodes of a chain. -/
def nodes (stk : List (Int × Nat × α)) : List Nat := stk.map fun x => x.2.1

/-- The chain entries of node `q`: the external count of the pointer to it and its value. -/
def entries (stk : List (Int × Nat × α)) (q : Nat) : List (Int × α) :=
  stk.filterMap fun x => if x.2.1 = q then some (x.1, x.2.2) else none

@[simp] lemma nodes_nil : nodes ([] : List (Int × Nat × α)) = [] := rfl

@[simp] lemma nodes_cons (x : Int × Nat × α) (stk : List (Int × Nat × α)) :
    nodes (x :: stk) = x.2.1 :: nodes stk := rfl

@[simp] lemma entries_nil (q : Nat) : entries ([] : List (Int × Nat × α)) q = [] := rfl

lemma entries_cons (e : Int) (p : Nat) (v : α) (stk : List (Int × Nat × α)) (q : Nat) :
    entries ((e, p, v) :: stk) q = if p = q then (e, v) :: entries stk q else entries stk q := by
  by_cases h : p = q <;> simp [entries, h]

lemma entries_cons_ne {e : Int} {p : Nat} {v : α} (stk : List (Int × Nat × α)) {q : Nat}
    (h : p ≠ q) : entries ((e, p, v) :: stk) q = entries stk q := by
  simp [entries_cons, h]

lemma entries_eq_nil {stk : List (Int × Nat × α)} {q : Nat} (h : q ∉ nodes stk) :
    entries stk q = [] := by
  induction stk with
  | nil => rfl
  | cons x stk ih =>
    obtain ⟨e, p, v⟩ := x
    simp only [nodes_cons, List.mem_cons, not_or] at h
    rw [entries_cons_ne _ (Ne.symm h.1), ih h.2]

lemma entries_cons_self {e : Int} {p : Nat} {v : α} {stk : List (Int × Nat × α)}
    (h : p ∉ nodes stk) : entries ((e, p, v) :: stk) p = [(e, v)] := by
  simp [entries_cons, entries_eq_nil h]

lemma not_mem_nodes {stk : List (Int × Nat × α)} {q : Nat} (h : entries stk q = []) :
    q ∉ nodes stk := by
  induction stk with
  | nil => simp
  | cons x stk ih =>
    obtain ⟨e, p, v⟩ := x
    rw [entries_cons] at h
    split at h
    · cases h
    · simpa [Ne.symm ‹_›] using ih h

/-- A chain depends only on the value and successor of its nodes. -/
lemma Chain.congr {heap heap' : Nat → Option (Node α)} :
    ∀ {c : CountedNodePtr} {stk : List (Int × Nat × α)} {z : Int}, Chain heap c stk z →
      (∀ p ∈ nodes stk, (heap' p).map (fun n => (n.data, n.next)) =
        (heap p).map fun n => (n.data, n.next)) → Chain heap' c stk z
  | _, [], _, hc, _ => hc
  | _, (e, q, v) :: rest, _, ⟨hc, n, hq, hv, hr⟩, h => by
    have hview := h q (by simp)
    rw [hq, Option.map_some'] at hview
    obtain ⟨n', hq', hn'⟩ := Option.map_eq_some'.mp hview
    simp only [Prod.mk.injEq] at hn'
    refine ⟨hc, n', hq', hn'.1 ▸ hv, hn'.2 ▸ hr.congr fun p hp => h p ?_⟩
    simp [hp]

lemma Chain.live {heap : Nat → Option (Node α)} :
    ∀ {c : CountedNodePtr} {stk : List (Int × Nat × α)} {z : Int}, Chain heap c stk z →
      ∀ p ∈ nodes stk, ∃ n, heap p = some n
  | _, [], _, _, _, hp => by simp at hp
  | _, (e, q, v) :: rest, _, ⟨_, n, hq, _, hr⟩, p, hp => by
    rcases List.mem_cons.mp hp with rfl | hp
    · exact ⟨n, hq⟩
    · exact hr.live p hp

lemma Chain.nil_of_none {heap : Nat → Option (Node α)} {e z : Int}
    {stk : List (Int × Nat × α)} (h : Chain heap ⟨e, none⟩ stk z) : stk = [] ∧ z = e := by
  cases stk with
  | nil => cases h; exact ⟨rfl, rfl⟩
  | cons x rest => exact absurd h.1 (by simp)

lemma Chain.cons_of_some {heap : Nat → Option (Node α)} {e z : Int} {p : Nat}
    {stk : List (Int × Nat × α)} (h : Chain heap ⟨e, some p⟩ stk z) :
    ∃ n v rest, stk = (e, p, v) :: rest ∧ heap p = some n ∧ n.data = some v ∧
      Chain heap n.next rest z := by
  rcases stk with _ | ⟨⟨e', q, v⟩, rest⟩
  · exact absurd h (by simp [Chain])
  · obtain ⟨hq, n, hn, hv, hr⟩ := h
    cases hq
    exact ⟨n, v, rest, rfl, hn, hv, hr⟩

/-- The chain from a pointer is determined by the heap. -/
lemma Chain.unique {heap : Nat → Option (Node α)} :
    ∀ {c : CountedNodePtr} {stk stk' : List (Int × Nat × α)} {z z' : Int}, Chain heap c stk z →
      Chain heap c stk' z' → stk = stk' ∧ z = z'
  | _, [], [], _, _, h, h' => ⟨rfl, by cases h.symm.trans h'; rfl⟩
  | _, [], (_ :: _), _, _, h, h' => absurd (h ▸ h'.1) (by simp)
  | _, (_ :: _), [], _, _, h, h' => absurd (h' ▸ h.1) (by simp)
  | _, (e, p, v) :: rest, (e', p', v') :: rest', _, _, ⟨hc, n, hn, hv, hr⟩, ⟨hc', n', hn', hv', hr'⟩ => by
    obtain ⟨rfl, rfl⟩ : e = e' ∧ p = p' := by simpa using hc.symm.trans hc'
    obtain rfl : n = n' := Option.some.inj (hn.symm.trans hn')
    obtain rfl : v = v' := Option.some.inj (hv.symm.trans hv')
    obtain ⟨rfl, rfl⟩ := hr.unique hr'
    exact ⟨rfl, rfl⟩

/-! ### Per-thread and per-node invariants -/

/-- What a thread's local state knows about the heap. -/
def LocalOk (g : Shared α) : Local α → Prop
  | .pushLoad v p | .pushCas v p => ∃ n, g.heap p = some n ∧ n.data = some v
  | .popReadNext old p => old.ptr = some p
  | .popCas old p nxt => old.ptr = some p ∧ ∃ n, g.heap p = some n ∧ n.next = nxt
  | .popSwap _ p => ∃ n, g.heap p = some n ∧ n.data.isSome
  | .popSettle _ _ res | .popDelete _ res => res.isSome
  | _ => True

/-- The states of one node, from its heap cell, its chain entries and what each thread does
with it. -/
inductive NodeOk [Fintype Tid] : Option (Node α) → List (Int × α) → (Tid → Role) → Prop
  /-- Never allocated, or deleted: nobody refers to it. -/
  | free (roles : Tid → Role) (h : ∀ u, roles u = .none) : NodeOk none [] roles
  /-- Allocated by `t` and not yet published. -/
  | priv (n : Node α) (roles : Tid → Role) (t : Tid) (ht : roles t = .owner)
      (h : ∀ u, u ≠ t → roles u = .none) (hi : n.internalCount = 0) : NodeOk (some n) [] roles
  /-- Linked, by a pointer with external count `e`; only claims on it. -/
  | linked (n : Node α) (roles : Tid → Role) (e : Int) (v : α) (he : 1 ≤ e)
      (hle : n.internalCount ≤ 0)
      (hbal : n.internalCount + (e - 1) + ∑ u, (roles u).share = 0)
      (h : ∀ u, roles u = .none ∨ roles u = .claimant) (hmax : e ≤ intMax) :
      NodeOk (some n) [(e, v)] roles
  /-- Unlinked by `t`, which has still to add its count. -/
  | unlinking (n : Node α) (roles : Tid → Role) (t : Tid) (e : Int) (ht : roles t = .unlinker e)
      (h : ∀ u, u ≠ t → roles u = .none ∨ roles u = .claimant) (hle : n.internalCount ≤ 0)
      (hbal : n.internalCount + ∑ u, (roles u).share = 0) (hmax : e ≤ intMax) :
      NodeOk (some n) [] roles
  /-- Unlinked and settled, with claims outstanding. -/
  | released (n : Node α) (roles : Tid → Role) (h : ∀ u, roles u = .none ∨ roles u = .claimant)
      (hpos : 0 < n.internalCount) (hbal : n.internalCount + ∑ u, (roles u).share = 0)
      (hmax : n.internalCount ≤ intMax) : NodeOk (some n) [] roles
  /-- Its count reached zero at `t`'s `fetch_add`; `t` is about to delete it. -/
  | dying (n : Node α) (roles : Tid → Role) (t : Tid) (ht : roles t = .deleter)
      (h : ∀ u, u ≠ t → roles u = .none) (hi : n.internalCount = 0) : NodeOk (some n) [] roles

/-- What the threads of `s` do with node `q`. -/
def roles (s : Conf Tid (Shared α) (Local α)) (q : Nat) : Tid → Role := fun u => (s.thr u).role q

/-- The invariant of `lock_free_stack_rf`, at the chain `stk` from `head` ending in a null
pointer with count `z`. -/
structure InvAt [Fintype Tid] (s : Conf Tid (Shared α) (Local α)) (stk : List (Int × Nat × α))
    (z : Int) : Prop where
  chain : Chain s.shared.heap s.shared.head stk z
  nodup : (nodes stk).Nodup
  fresh : ∀ q, s.shared.alloc ≤ q → s.shared.heap q = none
  local_ok : ∀ t, LocalOk s.shared (s.thr t)
  node_ok : ∀ q, NodeOk (s.shared.heap q) (entries stk q) (roles s q)
  /-- The count of the null pointer that ends the chain fits in an `int`. -/
  null_count : z ≤ intMax

/-! ### Frame lemmas -/

lemma Local.kind_ne_none {l : Local α} {q : Nat} (h : l.node = some q) : l.kind ≠ .none := by
  cases l <;> simp_all [Local.node, Local.kind]

lemma Local.role_of_node {l : Local α} {q : Nat} (h : l.node = some q) : l.role q = l.kind := by
  simp [Local.role, h]

lemma Local.role_ne_none {l : Local α} {q : Nat} (h : l.node = some q) : l.role q ≠ .none := by
  rw [Local.role_of_node h]; exact Local.kind_ne_none h

/-- A local state's knowledge survives a heap change that keeps the successor of its node, and
its value unless the thread only holds a claim. -/
lemma LocalOk.congr {g g' : Shared α} {l : Local α} (h : LocalOk g l)
    (hnext : ∀ q, l.node = some q → (g'.heap q).map Node.next = (g.heap q).map Node.next)
    (hdata : ∀ q, l.node = some q → l.kind ≠ .claimant →
      (g'.heap q).map Node.data = (g.heap q).map Node.data) : LocalOk g' l := by
  have view : ∀ {q : Nat} {n : Node α} {β : Type} (f : Node α → β), g.heap q = some n →
      (g'.heap q).map f = (g.heap q).map f → ∃ n', g'.heap q = some n' ∧ f n' = f n :=
    fun f hq hf => Option.map_eq_some'.mp (by rw [hf, hq, Option.map_some'])
  cases l with
  | pushLoad v p | pushCas v p =>
    obtain ⟨n, hn, hv⟩ := h
    obtain ⟨n', hn', hd⟩ := view Node.data hn (hdata p rfl (by simp [Local.kind]))
    exact ⟨n', hn', hd.trans hv⟩
  | popCas old p nxt =>
    obtain ⟨hp, n, hn, hv⟩ := h
    obtain ⟨n', hn', hd⟩ := view Node.next hn (hnext p rfl)
    exact ⟨hp, n', hn', hd.trans hv⟩
  | popSwap old p =>
    obtain ⟨n, hn, hv⟩ := h
    obtain ⟨n', hn', hd⟩ := view Node.data hn (hdata p rfl (by simp [Local.kind]))
    exact ⟨n', hn', hd ▸ hv⟩
  | _ => exact h

namespace NodeOk

variable [Fintype Tid] {c : Option (Node α)} {es : List (Int × α)} {r : Tid → Role} {t : Tid}

lemma of_none (h : NodeOk none es r) : es = [] ∧ ∀ u, r u = .none := by
  cases h with
  | free _ h => exact ⟨rfl, h⟩

lemma live (h : NodeOk c es r) (ht : r t ≠ .none) : ∃ n, c = some n := by
  cases h with
  | free _ h => exact absurd (h t) ht
  | _ => exact ⟨_, rfl⟩

lemma of_owner (h : NodeOk c es r) (ht : r t = .owner) :
    ∃ n, c = some n ∧ es = [] ∧ (∀ u, u ≠ t → r u = .none) ∧ n.internalCount = 0 := by
  cases h with
  | priv n _ t' ht' h hi =>
    obtain rfl : t = t' := by_contra fun hne => by simp [h t hne] at ht
    exact ⟨n, rfl, rfl, h, hi⟩
  | unlinking n _ t' e ht' h =>
    obtain rfl : t = t' := by_contra fun hne => by rcases h t hne with h | h <;> simp [h] at ht
    simp [ht'] at ht
  | dying n _ t' ht' h =>
    obtain rfl : t = t' := by_contra fun hne => by simp [h t hne] at ht
    simp [ht'] at ht
  | free _ h => simp [h t] at ht
  | linked _ _ _ _ _ _ _ h | released _ _ h => rcases h t with h | h <;> simp [h] at ht

/-- Only the pop that unlinked a node has it as unlinker; the node is off the chain, and
every other thread holds a claim on it or nothing. -/
lemma of_unlinker {n : Node α} {e : Int} (h : NodeOk (some n) es r) (ht : r t = .unlinker e) :
    es = [] ∧ (∀ u, u ≠ t → r u = .none ∨ r u = .claimant) ∧ n.internalCount ≤ 0 ∧
      n.internalCount + ∑ u, (r u).share = 0 ∧ e ≤ intMax := by
  cases h with
  | unlinking _ _ t' e' ht' h hle hbal hmax =>
    obtain rfl : t = t' := by_contra fun hne => by rcases h t hne with h | h <;> simp [h] at ht
    simp only [ht', Role.unlinker.injEq] at ht
    exact ⟨rfl, h, hle, hbal, ht ▸ hmax⟩
  | priv _ _ t' ht' h | dying _ _ t' ht' h =>
    obtain rfl : t = t' := by_contra fun hne => by simp [h t hne] at ht
    simp [ht'] at ht
  | linked _ _ _ _ _ _ _ h | released _ _ h => rcases h t with h | h <;> simp [h] at ht

/-- A node about to be deleted is off the chain, no other thread refers to it, and its count
is zero. -/
lemma of_deleter {n : Node α} (h : NodeOk (some n) es r) (ht : r t = .deleter) :
    es = [] ∧ (∀ u, u ≠ t → r u = .none) ∧ n.internalCount = 0 := by
  cases h with
  | dying _ _ t' ht' h hi =>
    obtain rfl : t = t' := by_contra fun hne => by simp [h t hne] at ht
    exact ⟨rfl, h, hi⟩
  | priv _ _ t' ht' h =>
    obtain rfl : t = t' := by_contra fun hne => by simp [h t hne] at ht
    simp [ht'] at ht
  | unlinking _ _ t' e' ht' h =>
    obtain rfl : t = t' := by_contra fun hne => by rcases h t hne with h | h <;> simp [h] at ht
    simp [ht'] at ht
  | linked _ _ _ _ _ _ _ h | released _ _ h => rcases h t with h | h <;> simp [h] at ht

/-- Only the internal count of a node matters to its state. -/
lemma congr_internal {n n' : Node α} (h : NodeOk (some n) es r)
    (hi : n'.internalCount = n.internalCount) : NodeOk (some n') es r := by
  cases h with
  | priv _ _ t ht h hi' => exact .priv n' r t ht h (hi.trans hi')
  | linked _ _ e v he hle hbal h hmax => exact .linked n' r e v he (hi ▸ hle) (hi ▸ hbal) h hmax
  | unlinking _ _ t e ht h hle hbal hmax =>
    exact .unlinking n' r t e ht h (hi ▸ hle) (hi ▸ hbal) hmax
  | released _ _ h hpos hbal hmax => exact .released n' r h (hi ▸ hpos) (hi ▸ hbal) (hi ▸ hmax)
  | dying _ _ t ht h hi' => exact .dying n' r t ht h (hi.trans hi')

/-! #### The balance -/

omit [Fintype Tid] in
lemma share_nonpos {x : Role} (h : x = .none ∨ x = .claimant) : x.share ≤ 0 := by
  rcases h with rfl | rfl <;> simp

lemma sum_share_nonpos (h : ∀ u, r u = .none ∨ r u = .claimant) : ∑ u, (r u).share ≤ 0 :=
  Finset.sum_nonpos fun u _ => share_nonpos (h u)

variable [DecidableEq Tid]

lemma sum_share_update (r : Tid → Role) (t : Tid) (x : Role) :
    ∑ u, (Function.update r t x u).share = ∑ u, (r u).share - (r t).share + x.share := by
  have hf : (fun u => (Function.update r t x u).share) =
      Function.update (fun u => (r u).share) t x.share := by
    funext u
    by_cases hu : u = t
    · subst hu; simp
    · simp [hu]
  rw [hf, Finset.sum_update_of_mem (Finset.mem_univ t),
    Finset.sum_eq_add_sum_diff_singleton (Finset.mem_univ t) fun u => (r u).share]
  abel

omit [Fintype Tid] in
/-- A property of every role once `t` has given its role up, from the property of the other
threads' roles. -/
lemma update_none_forall {P : Role → Prop} (h0 : P .none) (h : ∀ u, u ≠ t → P (r u)) (u : Tid) :
    P (Function.update r t .none u) := by
  by_cases hu : u = t
  · subst hu; simpa using h0
  · simpa [hu] using h u hu

/-- When the balance of the other threads is zero and none of them owes more than a claim,
none of them refers to the node. -/
lemma none_of_sum_share {x : Role} (hx : x.share = 0)
    (h : ∀ u, u ≠ t → r u = .none ∨ r u = .claimant)
    (hs : ∑ u, (Function.update r t x u).share = 0) (u : Tid) (hu : u ≠ t) : r u = .none := by
  have hle : ∀ w ∈ Finset.univ, (Function.update r t x w).share ≤ 0 := fun w _ => by
    by_cases hw : w = t
    · subst hw; simp [hx]
    · simpa [hw] using share_nonpos (h w hw)
  have := (Finset.sum_eq_zero_iff_of_nonpos hle).mp hs u (Finset.mem_univ u)
  rcases h u hu with h | h
  · exact h
  · simp [hu, h] at this

/-- When every other thread holds a claim on the node or nothing, the balance is at most
`t`'s share. -/
lemma sum_share_le (h : ∀ u, u ≠ t → r u = .none ∨ r u = .claimant) :
    ∑ u, (r u).share ≤ (r t).share := by
  have hs := sum_share_update r t .none
  have := sum_share_nonpos (update_none_forall (P := fun x => x = .none ∨ x = .claimant) (.inl rfl) h)
  simp only [Role.share_none, add_zero] at hs
  omega

/-! #### How a node changes state -/

lemma alloc (h : NodeOk none es r) (t : Tid) (v : α) :
    NodeOk (some ⟨some v, 0, ⟨0, none⟩⟩) [] (Function.update r t .owner) :=
  .priv _ _ t (by simp) (fun u hu => by simp [hu, h.of_none.2 u]) rfl

/-- The successful exchange of `push` links the node with external count one. -/
lemma publish {n : Node α} (h : NodeOk (some n) es r) (ht : r t = .owner) (v : α) :
    NodeOk (some n) [(1, v)] (Function.update r t .none) := by
  obtain ⟨_, ⟨⟩, -, hr, hi⟩ := h.of_owner ht
  have hall : ∀ u, Function.update r t .none u = .none := update_none_forall (P := (· = .none)) rfl hr
  exact .linked n _ 1 v le_rfl hi.le (by simp [hall, hi]) (fun u => .inl (hall u)) (by decide)

/-- `increase_head_count` raises the count of the pointer to the node and takes a claim. -/
lemma claim {n : Node α} {e : Int} {v : α} (h : NodeOk (some n) [(e, v)] r)
    (ht : r t = .none) (hne : e ≠ intMax) :
    NodeOk (some n) [(e + 1, v)] (Function.update r t .claimant) := by
  cases h with
  | linked _ _ _ _ he hle hbal h hmax =>
    refine .linked n _ (e + 1) v (by omega) hle ?_ (fun u => ?_) (by omega)
    · rw [sum_share_update, ht]; simp only [Role.share_none, Role.share_claimant]; omega
    · by_cases hu : u = t
      · subst hu; simp
      · simp [hu, h u]

/-- The pop whose exchange on `head` succeeded becomes the node's unlinker. -/
lemma unlink {n : Node α} {e : Int} {v : α} (h : NodeOk (some n) [(e, v)] r)
    (ht : r t = .claimant) : NodeOk (some n) [] (Function.update r t (.unlinker e)) := by
  cases h with
  | linked _ _ _ _ he hle hbal h hmax =>
    refine .unlinking n _ t e (by simp) (fun u hu => by simp [hu, h u]) hle ?_ hmax
    rw [sum_share_update, ht]; simp only [Role.share_unlinker, Role.share_claimant]; omega

/-- The unlinker's `fetch_add` brought the count to zero: it is the node's deleter. -/
lemma settleZero {n : Node α} {e : Int} (h : NodeOk (some n) es r) (ht : r t = .unlinker e)
    (hz : n.internalCount = -(e - 2)) :
    NodeOk (some { n with internalCount := wrap (n.internalCount + (e - 2)) }) es
      (Function.update r t .deleter) := by
  obtain ⟨rfl, hr, -, hbal, -⟩ := h.of_unlinker ht
  have hs : ∑ u, (Function.update r t .deleter u).share = 0 := by
    rw [sum_share_update, ht]; simp only [Role.share_unlinker, Role.share_deleter]; omega
  exact .dying _ _ t (by simp) (fun u hu => by simpa [hu] using none_of_sum_share Role.share_deleter hr hs u hu)
    (by rw [show n.internalCount + (e - 2) = 0 by omega]; exact wrap_of_le (by decide) (by decide))

/-- The unlinker's `fetch_add` left claims outstanding. -/
lemma settle {n : Node α} {e : Int} (h : NodeOk (some n) es r) (ht : r t = .unlinker e)
    (hz : n.internalCount ≠ -(e - 2)) :
    NodeOk (some { n with internalCount := wrap (n.internalCount + (e - 2)) }) es
      (Function.update r t .none) := by
  obtain ⟨rfl, hr, hle, hbal, hmax⟩ := h.of_unlinker ht
  have hr' := update_none_forall (P := fun x => x = .none ∨ x = .claimant) (.inl rfl) hr
  have hs := sum_share_update r t .none
  have := sum_share_nonpos hr'
  rw [ht] at hs
  simp only [Role.share_unlinker, Role.share_none] at hs
  -- the sum is the number of claims still out, so it fits in an `int`
  rw [wrap_of_le (by unfold intMin; omega) (by unfold intMax at hmax ⊢; omega)]
  exact .released _ _ hr' (by simp only; omega) (by simp only; omega) (by simp only; omega)

/-- `delete ptr`: the node is gone and nobody refers to it. -/
lemma erase {n : Node α} (h : NodeOk (some n) es r) (ht : r t = .deleter) :
    es = [] ∧ NodeOk (none : Option (Node α)) [] (Function.update r t .none) := by
  obtain ⟨rfl, hr, -⟩ := h.of_deleter ht
  exact ⟨rfl, .free _ (update_none_forall (P := (· = .none)) rfl hr)⟩

/-- A losing pop gives its claim back and brings the count to zero: it is the node's deleter. -/
lemma releaseLast {n : Node α} (h : NodeOk (some n) es r) (ht : r t = .claimant)
    (h1 : n.internalCount = 1) :
    NodeOk (some { n with internalCount := wrap (n.internalCount + -1) }) es
      (Function.update r t .deleter) := by
  cases h with
  | released _ _ hr hpos hbal =>
    have hs : ∑ u, (Function.update r t .deleter u).share = 0 := by
      rw [sum_share_update, ht]; simp only [Role.share_claimant, Role.share_deleter]; omega
    exact .dying _ _ t (by simp)
      (fun u hu => by simpa [hu] using none_of_sum_share Role.share_deleter (fun u _ => hr u) hs u hu)
      (by rw [h1]; exact wrap_of_le (by decide) (by decide))
  | linked _ _ _ _ _ hle | unlinking _ _ _ _ _ _ hle => omega
  | priv _ _ t' ht' h | dying _ _ t' ht' h =>
    obtain rfl : t = t' := by_contra fun hne => by simp [h t hne] at ht
    simp [ht'] at ht

/-- The count of a node a thread holds a claim on is more than `INT_MIN` and at most
`INT_MAX`, so the claim's `fetch_add(-1)` does not wrap. -/
lemma claimed_count {n : Node α} (h : NodeOk (some n) es r) (ht : r t = .claimant) :
    intMin + 1 ≤ n.internalCount ∧ n.internalCount ≤ intMax := by
  cases h with
  | linked _ _ e v he hle hbal h hmax =>
    have := sum_share_nonpos h
    unfold intMin intMax at *
    omega
  | unlinking _ _ t' e ht' h hle hbal hmax =>
    have := sum_share_le h
    rw [ht'] at this
    simp only [Role.share_unlinker] at this
    unfold intMin intMax at *
    omega
  | released _ _ hr hpos hbal hmax =>
    unfold intMin
    omega
  | priv _ _ t' ht' h | dying _ _ t' ht' h =>
    obtain rfl : t = t' := by_contra fun hne => by simp [h t hne] at ht
    simp [ht'] at ht

/-- A losing pop gives its claim back, claims remaining. -/
lemma release {n : Node α} (h : NodeOk (some n) es r) (ht : r t = .claimant)
    (h1 : n.internalCount ≠ 1) :
    NodeOk (some { n with internalCount := wrap (n.internalCount + -1) }) es
      (Function.update r t .none) := by
  obtain ⟨h₁, h₂⟩ := h.claimed_count ht
  rw [wrap_of_le (by omega) (by omega)]
  have hs := sum_share_update r t .none
  rw [ht] at hs
  simp only [Role.share_claimant, Role.share_none] at hs
  cases h with
  | linked _ _ e v he hle hbal h hmax =>
    exact .linked _ _ e v he (by simp only; omega) (by simp only; omega)
      (update_none_forall (P := fun x => x = .none ∨ x = .claimant) (.inl rfl) fun u _ => h u) hmax
  | unlinking _ _ t' e ht' h hle hbal hmax =>
    have hne : t' ≠ t := fun heq => by simp [heq, ht] at ht'
    exact .unlinking _ _ t' e (by simp [hne, ht']) (fun u hu => by
      by_cases hut : u = t
      · subst hut; simp
      · simpa [hut] using h u hu) (by simp only; omega) (by simp only; omega) hmax
  | released _ _ hr hpos hbal hmax =>
    exact .released _ _
      (update_none_forall (P := fun x => x = .none ∨ x = .claimant) (.inl rfl) fun u _ => hr u)
      (by simp only; omega) (by simp only; omega) (by simp only; omega)
  | priv _ _ t' ht' h | dying _ _ t' ht' h =>
    obtain rfl : t = t' := by_contra fun hne => by simp [h t hne] at ht
    simp [ht'] at ht

end NodeOk

/-! ### Every step keeps the invariant -/

/-- A node write that keeps a field of the node keeps that field of the heap. -/
lemma Shared.write_map {β : Type} (g : Shared α) {p : Nat} {n n' : Node α} (f : Node α → β)
    (hp : g.heap p = some n) (hf : f n' = f n) (q : Nat) :
    ((g.write p n').heap q).map f = (g.heap q).map f := by
  by_cases hq : q = p
  · subst hq; simp [hp, hf]
  · simp [hq]

section Steps

variable {s : Conf Tid (Shared α) (Local α)} {stk : List (Int × Nat × α)} {z : Int} {t : Tid}

/-- A change to node `p` that no other thread refers to. -/
lemma view_of_none {g : Shared α} {p : Nat} (h : ∀ u, u ≠ t → roles s p u = .none) :
    ∀ u, u ≠ t → (s.thr u).node = some p →
      (g.heap p).map Node.next = (s.shared.heap p).map Node.next ∧
      ((s.thr u).kind ≠ .claimant → (g.heap p).map Node.data = (s.shared.heap p).map Node.data) :=
  fun u hu hn => absurd (h u hu) (Local.role_ne_none hn)

variable [Fintype Tid]

lemma InvAt.live (hI : InvAt s stk z) {u : Tid} {p : Nat} (h : (s.thr u).node = some p) :
    ∃ n, s.shared.heap p = some n :=
  (hI.node_ok p).live (t := u) (Local.role_ne_none h)

lemma InvAt.lt_alloc (hI : InvAt s stk z) {p : Nat} {n : Node α}
    (hp : s.shared.heap p = some n) : p < s.shared.alloc :=
  Nat.lt_of_not_le fun h => by simp [hI.fresh p h] at hp

lemma InvAt.node_ok_of (hI : InvAt s stk z) {p : Nat} {n : Node α}
    (hp : s.shared.heap p = some n) : NodeOk (some n) (entries stk p) (roles s p) :=
  hp ▸ hI.node_ok p

/-- A node write keeps the fresh addresses fresh. -/
lemma InvAt.fresh_write (hI : InvAt s stk z) {p : Nat} {n : Node α}
    (hp : s.shared.heap p = some n) (n' : Node α) :
    ∀ q, (s.shared.write p n').alloc ≤ q → (s.shared.write p n').heap q = none := fun q hq => by
  have := hI.lt_alloc hp
  simp only [Shared.write_alloc] at hq
  simp [show q ≠ p by omega, hI.fresh q hq]

/-- A node write keeps the chain if the node is off it, or if its value and successor stay. -/
lemma InvAt.chain_write (hI : InvAt s stk z) {p : Nat} {n n' : Node α}
    (hp : s.shared.heap p = some n) (h : p ∈ nodes stk → n'.data = n.data ∧ n'.next = n.next) :
    Chain (s.shared.write p n').heap s.shared.head stk z := by
  refine hI.chain.congr fun q hq => ?_
  by_cases hqp : q = p
  · subst hqp; simp [hp, h hq]
  · simp [hqp]

variable [DecidableEq Tid]

omit [Fintype Tid] in
lemma roles_set (s : Conf Tid (Shared α) (Local α)) (t : Tid) (g : Shared α) (l : Local α)
    (q : Nat) : roles (s.set t g l) q = Function.update (roles s q) t (l.role q) := by
  funext u
  by_cases hu : u = t
  · subst hu; simp [roles]
  · simp [roles, hu, Conf.set_thr_ne _ _ _ hu]

omit [Fintype Tid] in
lemma update_roles_of_eq {l : Local α} {q : Nat} (h : l.role q = (s.thr t).role q) :
    Function.update (roles s q) t (l.role q) = roles s q := by
  rw [h]
  exact Function.update_eq_self t (roles s q)

omit [Fintype Tid] in
lemma roles_set_of_eq {g : Shared α} {l : Local α} {q : Nat}
    (h : l.role q = (s.thr t).role q) : roles (s.set t g l) q = roles s q := by
  rw [roles_set, update_roles_of_eq h]

/-- The invariant after thread `t` moved, when the shared state changed at node `p` only: the
new chain, the fresh addresses, `t`'s local state and node `p` are checked; the other nodes
and the other threads follow. -/
lemma InvAt.update (hI : InvAt s stk z) (p : Nat) {g : Shared α} {l : Local α}
    {stk' : List (Int × Nat × α)} {z' : Int}
    (hchain : Chain g.heap g.head stk' z') (hz : z' ≤ intMax) (hnodup : (nodes stk').Nodup)
    (hfresh : ∀ q, g.alloc ≤ q → g.heap q = none) (hl : LocalOk g l)
    (hheap : ∀ q, q ≠ p → g.heap q = s.shared.heap q)
    (hview : ∀ u, u ≠ t → (s.thr u).node = some p →
      (g.heap p).map Node.next = (s.shared.heap p).map Node.next ∧
      ((s.thr u).kind ≠ .claimant → (g.heap p).map Node.data = (s.shared.heap p).map Node.data))
    (hent : ∀ q, q ≠ p → entries stk' q = entries stk q)
    (hrole : ∀ q, q ≠ p → l.role q = (s.thr t).role q)
    (hp : NodeOk (g.heap p) (entries stk' p) (Function.update (roles s p) t (l.role p))) :
    InvAt (s.set t g l) stk' z' where
  chain := hchain
  null_count := hz
  nodup := hnodup
  fresh := hfresh
  local_ok u := by
    by_cases hu : u = t
    · subst hu; simpa using hl
    · rw [Conf.set_thr_ne _ _ _ hu, Conf.set_shared]
      refine (hI.local_ok u).congr (fun q hq => ?_) fun q hq hk => ?_
      · by_cases hqp : q = p
        · subst hqp; exact (hview u hu hq).1
        · rw [hheap q hqp]
      · by_cases hqp : q = p
        · subst hqp; exact (hview u hu hq).2 hk
        · rw [hheap q hqp]
  node_ok q := by
    by_cases hq : q = p
    · subst hq; rw [roles_set]; exact hp
    · rw [Conf.set_shared, hheap q hq, hent q hq, roles_set_of_eq (hrole q hq)]
      exact hI.node_ok q

/-- A step that changes nothing shared and keeps the thread's role on every node. -/
lemma InvAt.local_step (hI : InvAt s stk z) {l : Local α} (hl : LocalOk s.shared l)
    (hrole : ∀ q, l.role q = (s.thr t).role q) : InvAt (s.set t s.shared l) stk z :=
  hI.update 0 hI.chain hI.null_count hI.nodup hI.fresh hl (fun _ _ => rfl)
    (fun _ _ _ => ⟨rfl, fun _ => rfl⟩) (fun _ _ => rfl) (fun q _ => hrole q)
    (by rw [hrole 0]; exact (Function.update_eq_self t (roles s 0)).symm ▸ hI.node_ok 0)

/-- `new node(data)`: a private node at a fresh address. -/
lemma InvAt.newNode (hI : InvAt s stk z) {v : α} (hl : s.thr t = .pushNew v) :
    InvAt (s.set t (s.shared.new v) (.pushLoad v s.shared.alloc)) stk z := by
  have hfree : s.shared.heap s.shared.alloc = none := hI.fresh _ le_rfl
  have hnode := hI.node_ok s.shared.alloc
  rw [hfree] at hnode
  have hna : ∀ q ∈ nodes stk, q ≠ s.shared.alloc := fun q hq hqa => by
    obtain ⟨n, hn⟩ := hI.chain.live q hq
    simp [hqa, hfree] at hn
  refine hI.update s.shared.alloc (hI.chain.congr fun q hq => by simp [hna q hq]) hI.null_count
    hI.nodup
    (fun q hq => ?_) ⟨⟨some v, 0, ⟨0, none⟩⟩, by simp, rfl⟩ (fun q hq => by simp [hq])
    (view_of_none fun u _ => hnode.of_none.2 u) (fun _ _ => rfl) (fun q hq => ?_) ?_
  · simp [show q ≠ s.shared.alloc by simp at hq; omega, hI.fresh q (by simp at hq; omega)]
  · simp [hl, Local.role, Local.node, Ne.symm hq]
  · rw [hnode.of_none.1]
    simpa [Local.role, Local.node, Local.kind] using hnode.alloc t v

/-- `new_node.ptr->next = head.load()`: a write to the pusher's private node. -/
lemma InvAt.setNext (hI : InvAt s stk z) {v : α} {p : Nat} {n : Node α}
    (hp : s.shared.heap p = some n) (hv : n.data = some v) (hown : (s.thr t).role p = .owner)
    (hrole : ∀ q, (Local.pushCas v p).role q = (s.thr t).role q) :
    InvAt (s.set t (s.shared.write p { n with next := s.shared.head }) (.pushCas v p)) stk z := by
  obtain ⟨_, ⟨⟩, hent, hr, -⟩ := (hI.node_ok_of hp).of_owner hown
  refine hI.update p (hI.chain_write hp fun h => absurd h (not_mem_nodes hent)) hI.null_count
    hI.nodup (hI.fresh_write hp _) ⟨{ n with next := s.shared.head }, by simp, hv⟩ (fun q hq => by simp [hq]) (view_of_none hr)
    (fun _ _ => rfl) (fun q _ => hrole q) ?_
  rw [update_roles_of_eq (hrole p), Shared.write_heap, Function.update_same]
  exact (hI.node_ok_of hp).congr_internal rfl

/-- The successful exchange of `push`: the node goes on top of the chain. -/
lemma InvAt.pushed (hI : InvAt s stk z) {v : α} {p : Nat} {n : Node α}
    (hl : s.thr t = .pushCas v p) (hp : s.shared.heap p = some n) (hn : n.next = s.shared.head) :
    InvAt (s.set t { s.shared with head := ⟨1, some p⟩ } .idle) ((1, p, v) :: stk) z := by
  have hown : roles s p t = .owner := by simp [roles, hl, Local.role, Local.node, Local.kind]
  obtain ⟨_, ⟨⟩, hent, -, -⟩ := (hI.node_ok_of hp).of_owner hown
  have hnp := not_mem_nodes hent
  have hv : n.data = some v := by simpa [hl, LocalOk, hp] using hI.local_ok t
  refine hI.update p ⟨rfl, n, hp, hv, hn ▸ hI.chain⟩ hI.null_count
    (List.nodup_cons.mpr ⟨hnp, hI.nodup⟩)
    hI.fresh trivial (fun _ _ => rfl) (fun _ _ _ => ⟨rfl, fun _ => rfl⟩)
    (fun q hq => entries_cons_ne _ (Ne.symm hq))
    (fun q hq => by simp [hl, Local.role, Local.node, Ne.symm hq]) ?_
  rw [entries_cons_self hnp]
  simpa [Local.role, Local.node, hp] using (hI.node_ok_of hp).publish hown v

/-- `increase_head_count` on an empty stack raises the count of the null head. -/
lemma InvAt.claimEmpty (hI : InvAt s stk z) {e : Int} (hl : s.thr t = .popIncr ⟨e, none⟩)
    (hne : e ≠ intMax) (hh : s.shared.head = ⟨e, none⟩) :
    InvAt (s.set t { s.shared with head := ⟨e + 1, none⟩ } .idle) [] (e + 1) := by
  obtain ⟨rfl, rfl⟩ := (hh ▸ hI.chain).nil_of_none
  have hrole : ∀ q, (Local.idle : Local α).role q = (s.thr t).role q := fun q => by
    simp [hl, Local.role, Local.node]
  exact hI.update 0 rfl (by have := hI.null_count; omega) List.nodup_nil hI.fresh trivial
    (fun _ _ => rfl) (fun _ _ _ => ⟨rfl, fun _ => rfl⟩) (fun _ _ => rfl) (fun q _ => hrole q)
    (by rw [update_roles_of_eq (hrole 0)]; exact hI.node_ok 0)

/-- `increase_head_count` on a node: the count of the pointer to it goes up by one and the
pop holds a claim on it. -/
lemma InvAt.claim (hI : InvAt s stk z) {e : Int} {p : Nat} (hl : s.thr t = .popIncr ⟨e, some p⟩)
    (hne : e ≠ intMax) (hh : s.shared.head = ⟨e, some p⟩) :
    ∃ v rest, stk = (e, p, v) :: rest ∧ InvAt (s.set t { s.shared with head := ⟨e + 1, some p⟩ }
      (.popReadNext ⟨e + 1, some p⟩ p)) ((e + 1, p, v) :: rest) z := by
  obtain ⟨n, v, rest, rfl, hn, hv, hc⟩ := (hh ▸ hI.chain).cons_of_some
  have hnp : p ∉ nodes rest := (List.nodup_cons.mp hI.nodup).1
  refine ⟨v, rest, rfl, hI.update p ⟨rfl, n, hn, hv, hc⟩ hI.null_count hI.nodup hI.fresh rfl
    (fun _ _ => rfl) (fun _ _ _ => ⟨rfl, fun _ => rfl⟩)
    (fun q hq => by rw [entries_cons_ne _ (Ne.symm hq), entries_cons_ne _ (Ne.symm hq)])
    (fun q hq => by simp [hl, Local.role, Local.node, Ne.symm hq]) ?_⟩
  have hnode := hI.node_ok_of hn
  rw [entries_cons_self hnp] at hnode ⊢
  simpa [Local.role, Local.node, Local.kind, hn] using
    hnode.claim (t := t) (by simp [roles, hl, Local.role, Local.node]) hne

/-- The successful exchange on `head` in `pop`: the node leaves the chain and the pop becomes
its unlinker. -/
lemma InvAt.unlink (hI : InvAt s stk z) {old nxt : CountedNodePtr} {p : Nat}
    (hl : s.thr t = .popCas old p nxt) (hh : s.shared.head = old) :
    ∃ v rest, stk = (old.externalCount, p, v) :: rest ∧
      (∃ n, s.shared.heap p = some n ∧ n.data = some v) ∧
      InvAt (s.set t { s.shared with head := nxt } (.popSwap old p)) rest z := by
  obtain ⟨hold, n, hn, hnxt⟩ : old.ptr = some p ∧ ∃ n, s.shared.heap p = some n ∧ n.next = nxt :=
    by simpa [hl, LocalOk] using hI.local_ok t
  have hh' : s.shared.head = ⟨old.externalCount, some p⟩ := by rw [hh, ← hold]
  obtain ⟨n', v, rest, rfl, hn', hv, hc⟩ := (hh' ▸ hI.chain).cons_of_some
  obtain rfl : n' = n := Option.some.inj (hn'.symm.trans hn)
  have hnp : p ∉ nodes rest := (List.nodup_cons.mp hI.nodup).1
  refine ⟨v, rest, rfl, ⟨n', hn', hv⟩, hI.update p (hnxt ▸ hc) hI.null_count
    (List.nodup_cons.mp hI.nodup).2 hI.fresh
    ⟨n', hn', by simp [hv]⟩ (fun _ _ => rfl) (fun _ _ _ => ⟨rfl, fun _ => rfl⟩)
    (fun q hq => (entries_cons_ne _ (Ne.symm hq)).symm)
    (fun q hq => by simp [hl, Local.role, Local.node, Ne.symm hq]) ?_⟩
  have hnode := hI.node_ok_of hn'
  rw [entries_cons_self hnp] at hnode
  rw [entries_eq_nil hnp]
  simpa [Local.role, Local.node, Local.kind, hn'] using
    hnode.unlink (t := t) (by simp [roles, hl, Local.role, Local.node, Local.kind])

/-- `res.swap(ptr->data)`: the unlinker takes the value out of its node. -/
lemma InvAt.swap (hI : InvAt s stk z) {old : CountedNodePtr} {p : Nat} {n : Node α}
    (hl : s.thr t = .popSwap old p) (hp : s.shared.heap p = some n) :
    InvAt (s.set t (s.shared.write p { n with data := none }) (.popSettle old p n.data)) stk z := by
  obtain ⟨hent, hr, -⟩ := (hI.node_ok_of hp).of_unlinker (t := t) (e := old.externalCount)
    (by simp [roles, hl, Local.role, Local.node, Local.kind])
  have hrole : ∀ q, (Local.popSettle old p n.data).role q = (s.thr t).role q := fun q => by
    simp [hl, Local.role, Local.node, Local.kind]
  have hv : n.data.isSome := by simpa [hl, LocalOk, hp] using hI.local_ok t
  refine hI.update p (hI.chain_write hp fun h => absurd h (not_mem_nodes hent)) hI.null_count
    hI.nodup (hI.fresh_write hp _) hv (fun q hq => by simp [hq])
    (fun u hu hn => ⟨by simp [hp], fun hk => absurd ?_ hk⟩) (fun _ _ => rfl) (fun q _ => hrole q) ?_
  · rw [← Local.role_of_node hn]
    exact (hr u hu).resolve_left (Local.role_ne_none hn)
  · rw [update_roles_of_eq (hrole p), Shared.write_heap, Function.update_same]
    exact (hI.node_ok_of hp).congr_internal rfl

/-- A `fetch_add` on a node's internal count. -/
lemma InvAt.setInternal (hI : InvAt s stk z) {p : Nat} {n : Node α} {i : Int} {l : Local α}
    (hp : s.shared.heap p = some n) (hl : LocalOk s.shared l)
    (hrole : ∀ q, q ≠ p → l.role q = (s.thr t).role q)
    (hnew : NodeOk (some { n with internalCount := i }) (entries stk p)
      (Function.update (roles s p) t (l.role p))) :
    InvAt (s.set t (s.shared.write p { n with internalCount := i }) l) stk z :=
  have hmap : ∀ {β : Type} (f : Node α → β), f { n with internalCount := i } = f n →
      ∀ q, ((s.shared.write p { n with internalCount := i }).heap q).map f =
        (s.shared.heap q).map f := fun f hf => Shared.write_map _ f hp hf
  hI.update p (hI.chain_write hp fun _ => ⟨rfl, rfl⟩) hI.null_count hI.nodup (hI.fresh_write hp _)
    (hl.congr (fun q _ => hmap Node.next rfl q) fun q _ _ => hmap Node.data rfl q)
    (fun q hq => by simp [hq]) (fun _ _ _ => ⟨hmap Node.next rfl p, fun _ => hmap Node.data rfl p⟩) (fun _ _ => rfl) hrole
    (by rw [Shared.write_heap, Function.update_same]; exact hnew)

/-- `delete ptr` by the node's deleter. -/
lemma InvAt.erase (hI : InvAt s stk z) {p : Nat} {l : Local α}
    (hdel : (s.thr t).role p = .deleter) (hl : LocalOk s.shared l)
    (hrole : ∀ q, q ≠ p → l.role q = (s.thr t).role q) (hlp : l.role p = .none) :
    InvAt (s.set t (s.shared.erase p) l) stk z := by
  obtain ⟨n, hp⟩ := (hI.node_ok p).live (t := t) (by simp [roles, hdel])
  obtain ⟨hent, hfree⟩ := (hI.node_ok_of hp).erase hdel
  obtain ⟨-, hr, -⟩ := (hI.node_ok_of hp).of_deleter hdel
  have hnp := not_mem_nodes hent
  have hoff : ∀ q, q ≠ p → (s.shared.erase p).heap q = s.shared.heap q := fun q hq => by simp [hq]
  refine hI.update p (hI.chain.congr fun q hq => by rw [hoff q fun h => hnp (h ▸ hq)]) hI.null_count
    hI.nodup
    (fun q hq => ?_) (hl.congr (fun q hq => ?_) fun q hq _ => ?_) hoff (view_of_none hr)
    (fun _ _ => rfl) hrole (by rw [hent, hlp]; simpa using hfree)
  · by_cases hqp : q = p
    · subst hqp; simp
    · rw [hoff q hqp]; exact hI.fresh q hq
  all_goals
    rw [hoff q fun h => by subst h; exact Local.role_ne_none hq hlp]

/-- `new_node.ptr->next = head.load()`, before the loop or after a failed exchange. -/
lemma InvAt.pushWrite (hI : InvAt s stk z) {v : α} {p : Nat} {n : Node α}
    (hl : s.thr t = .pushLoad v p ∨ s.thr t = .pushCas v p) (hp : s.shared.heap p = some n) :
    InvAt (s.set t (s.shared.write p { n with next := s.shared.head }) (.pushCas v p)) stk z := by
  obtain ⟨n', hn', hv⟩ : ∃ n', s.shared.heap p = some n' ∧ n'.data = some v := by
    rcases hl with hl | hl <;> simpa [hl, LocalOk] using hI.local_ok t
  cases hp.symm.trans hn'
  exact hI.setNext hp hv (by rcases hl with hl | hl <;> simp [hl, Local.role, Local.node, Local.kind])
    fun q => by rcases hl with hl | hl <;> simp [hl, Local.role, Local.node, Local.kind]

/-- The unlinker's `fetch_add` brings the count to zero. -/
lemma InvAt.settleZero (hI : InvAt s stk z) {old : CountedNodePtr} {p : Nat} {res : Option α}
    {n : Node α} (hl : s.thr t = .popSettle old p res) (hp : s.shared.heap p = some n)
    (hz : n.internalCount = -(old.externalCount - 2)) :
    InvAt (s.set t (s.shared.write p
      { n with internalCount := wrap (n.internalCount + (old.externalCount - 2)) }) (.popDelete p res))
      stk z :=
  hI.setInternal hp (by simpa [hl, LocalOk] using hI.local_ok t)
    (fun q hq => by simp [hl, Local.role, Local.node, Ne.symm hq])
    (by
      have := (hI.node_ok_of hp).settleZero (t := t)
        (by simp [roles, hl, Local.role, Local.node, Local.kind]) hz
      simpa [Local.role, Local.node, Local.kind] using this)

/-- The unlinker's `fetch_add` leaves claims outstanding; the pop returns. -/
lemma InvAt.settle (hI : InvAt s stk z) {old : CountedNodePtr} {p : Nat} {res : Option α}
    {n : Node α} (hl : s.thr t = .popSettle old p res) (hp : s.shared.heap p = some n)
    (hz : n.internalCount ≠ -(old.externalCount - 2)) :
    InvAt (s.set t (s.shared.write p
      { n with internalCount := wrap (n.internalCount + (old.externalCount - 2)) }) .idle) stk z :=
  hI.setInternal hp trivial (fun q hq => by simp [hl, Local.role, Local.node, Ne.symm hq])
    (by
      have := (hI.node_ok_of hp).settle (t := t)
        (by simp [roles, hl, Local.role, Local.node, Local.kind]) hz
      simpa [Local.role, Local.node] using this)

/-- A losing pop's `fetch_add(-1)` brings the count to zero. -/
lemma InvAt.releaseLast (hI : InvAt s stk z) {old : CountedNodePtr} {p : Nat} {n : Node α}
    (hl : s.thr t = .popRelease old p) (hp : s.shared.heap p = some n)
    (h1 : n.internalCount = 1) :
    InvAt (s.set t (s.shared.write p { n with internalCount := wrap (n.internalCount + -1) })
      (.popAcquire old p)) stk z :=
  hI.setInternal hp trivial (fun q hq => by simp [hl, Local.role, Local.node, Ne.symm hq])
    (by
      have := (hI.node_ok_of hp).releaseLast (t := t)
        (by simp [roles, hl, Local.role, Local.node, Local.kind]) h1
      simpa [Local.role, Local.node, Local.kind] using this)

/-- A losing pop's `fetch_add(-1)` leaves claims outstanding; the pop retries. -/
lemma InvAt.release (hI : InvAt s stk z) {old : CountedNodePtr} {p : Nat} {n : Node α}
    (hl : s.thr t = .popRelease old p) (hp : s.shared.heap p = some n)
    (h1 : n.internalCount ≠ 1) :
    InvAt (s.set t (s.shared.write p { n with internalCount := wrap (n.internalCount + -1) })
      (.popIncr old)) stk z :=
  hI.setInternal hp trivial (fun q hq => by simp [hl, Local.role, Local.node, Ne.symm hq])
    (by
      have := (hI.node_ok_of hp).release (t := t)
        (by simp [roles, hl, Local.role, Local.node, Local.kind]) h1
      simpa [Local.role, Local.node] using this)

/-- `delete ptr`, by the pop that unlinked the node or by a losing one. -/
lemma InvAt.deleteNode (hI : InvAt s stk z) {p : Nat} {l : Local α}
    (hdel : (s.thr t).role p = .deleter) (hl : ∀ q, l.role q = .none) (hok : LocalOk s.shared l) :
    InvAt (s.set t (s.shared.erase p) l) stk z :=
  hI.erase hdel hok (fun q hq => by
    rw [hl q, Local.role_of_ne]
    rw [Local.node_of_role (q := p) (by simp [hdel])]
    simpa using Ne.symm hq) (hl p)

/-- Every transition keeps the invariant, at the chain it leaves behind. -/
lemma InvAt.step (hI : InvAt s stk z) {g : Shared α} {l : Local α} {e : Option (StackEvent α)}
    (hm : Move s.shared (s.thr t) g l e) : ∃ stk' z', InvAt (s.set t g l) stk' z' := by
  generalize hl : s.thr t = l₀ at hm
  have ok := hI.local_ok t
  rw [hl] at ok
  have same : ∀ {l : Local α}, LocalOk s.shared l → (∀ q, l.role q = l₀.role q) →
      ∃ stk' z', InvAt (s.set t s.shared l) stk' z' :=
    fun hl' hr => ⟨stk, z, hI.local_step hl' fun q => hl ▸ hr q⟩
  cases hm with
  | callPush v | callPop | stay | loadOld | claimRetry =>
    exact same trivial fun q => by simp [Local.role, Local.node]
  | readNext old p n hp =>
    exact same ⟨ok, n, hp, rfl⟩ fun q => by simp [Local.role, Local.node, Local.kind]
  | lose old p nxt _ | acquire old p n _ =>
    exact same trivial fun q => by simp [Local.role, Local.node, Local.kind]
  | newNode v => exact ⟨_, _, hI.newNode hl⟩
  | loadHead v p n hp => exact ⟨_, _, hI.pushWrite (.inl hl) hp⟩
  | pushRetry v p n hp => exact ⟨_, _, hI.pushWrite (.inr hl) hp⟩
  | pushed v p n hp hn => exact ⟨_, _, hI.pushed hl hp hn⟩
  | claimEmpty e hne hh => exact ⟨_, _, hI.claimEmpty hl hne hh⟩
  | claim e p hne hh =>
    obtain ⟨_, _, _, h⟩ := hI.claim hl hne hh
    exact ⟨_, _, h⟩
  | unlink old p nxt hh =>
    obtain ⟨_, _, _, _, h⟩ := hI.unlink hl hh
    exact ⟨_, _, h⟩
  | swap old p n hp => exact ⟨_, _, hI.swap hl hp⟩
  | settleZero old p res n hp hz => exact ⟨_, _, hI.settleZero hl hp hz⟩
  | settle old p res n hp hz => exact ⟨_, _, hI.settle hl hp hz⟩
  | releaseLast old p n hp h1 => exact ⟨_, _, hI.releaseLast hl hp h1⟩
  | release old p n hp h1 => exact ⟨_, _, hI.release hl hp h1⟩
  | delete p res n hp | deleteLoser _ p n hp =>
    exact ⟨_, _, hI.deleteNode (by simp [hl, Local.role, Local.node, Local.kind])
      (fun q => by simp [Local.role, Local.node]) trivial⟩

omit [DecidableEq Tid] in
lemma invAt_init : InvAt (init Tid : Conf Tid (Shared α) (Local α)) [] 0 where
  chain := rfl
  nodup := List.nodup_nil
  fresh _ _ := rfl
  local_ok _ := trivial
  node_ok _ := .free _ fun _ => by simp [roles, init, Local.role, Local.node]
  null_count := by decide

/-- The invariant holds in every reachable configuration. -/
lemma invAt_reach {h : List (Tid × StackEvent α)}
    (hr : (lockFreeStackRf α).Reach (init Tid) s h) : ∃ stk z, InvAt s stk z :=
  Program.Reach.inv (fun s => ∃ stk z, InvAt s stk z) ⟨[], 0, invAt_init⟩
    (fun _ _ _ _ _ _ ⟨_, _, hI⟩ hs => hI.step (move_of_step hs)) hr

end Steps

end LockFreeStackRf

end ConcurrencyInAction
