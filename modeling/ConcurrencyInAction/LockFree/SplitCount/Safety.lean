import Mathlib.Algebra.BigOperators.Ring
import ConcurrencyInAction.LockFree.SplitCount.Invariant

/-!
# `lock_free_stack_rf`: what the counts guarantee

From the invariant: the counts of a node say how many claims are out on it; a node is deleted
only by the pop whose `fetch_add` brought its count to zero, while nobody else refers to it;
no step reads or deletes a deleted node; and once every call has returned, the live nodes are
exactly the stacked ones. A push in flight holds a live node off the chain, so the last fact
needs every thread idle, not only every pop returned.

Every external count is at most `INT_MAX` and no `fetch_add` wraps. The external count of
`head` is not otherwise bounded: every empty pop raises it by one, and at `INT_MAX` the next
`++external_count` overflows.
-/

namespace ConcurrencyInAction

namespace LockFreeStackRf

variable {α Tid : Type}

/-- The threads holding a claim on node `p`: pops between their successful
`increase_head_count` and giving the claim up. -/
def claimants [Fintype Tid] (s : Conf Tid (Shared α) (Local α)) (p : Nat) : Nat :=
  (Finset.univ.filter fun u => (s.thr u).role p = .claimant).card

lemma entries_of_mem {e : Int} {p : Nat} {v : α} :
    ∀ {stk : List (Int × Nat × α)}, (nodes stk).Nodup → (e, p, v) ∈ stk →
      entries stk p = [(e, v)]
  | [], _, h => by simp at h
  | (e', q, w) :: rest, hnd, h => by
    rcases List.mem_cons.mp h with h | h
    · cases h
      exact entries_cons_self (List.nodup_cons.mp hnd).1
    · have hq : q ≠ p := fun hq => (List.nodup_cons.mp hnd).1 <| by
        subst hq; exact List.mem_map.mpr ⟨_, h, rfl⟩
      rw [entries_cons_ne _ hq]
      exact entries_of_mem (List.nodup_cons.mp hnd).2 h

lemma Local.node_of_touches {l : Local α} {p : Nat} (h : l.touches = some p) :
    l.node = some p := by
  cases l <;> simp_all [Local.touches, Local.node]

section Counts

variable [Fintype Tid] {s : Conf Tid (Shared α) (Local α)} {stk : List (Int × Nat × α)} {z : Int}

/-- When every thread holds a claim on the node or nothing, the balance is minus the number of
claims. -/
lemma sum_share_eq_neg_card {r : Tid → Role} (h : ∀ u, r u = .none ∨ r u = .claimant) :
    ∑ u, (r u).share = -((Finset.univ.filter fun u => r u = .claimant).card : Int) := by
  have hu : ∀ u, (r u).share = -(if r u = .claimant then 1 else 0 : Int) :=
    fun u => by rcases h u with h | h <;> simp [h]
  simp only [hu, Finset.sum_neg_distrib, Finset.card_filter, Nat.cast_sum, Nat.cast_ite,
    Nat.cast_one, Nat.cast_zero]

lemma sum_share_eq_neg_claimants {p : Nat}
    (h : ∀ u, roles s p u = .none ∨ roles s p u = .claimant) :
    ∑ u, (roles s p u).share = -(claimants s p : Int) :=
  sum_share_eq_neg_card h

lemma claimants_eq_zero {p : Nat} (h : ∀ u, roles s p u ≠ .claimant) : claimants s p = 0 :=
  Finset.card_eq_zero.mpr (Finset.filter_eq_empty_iff.mpr fun u _ => h u)

/-- A node on the chain, reached by a pointer with external count `e`: `e ≥ 1`, and
`e - 1 + internal_count` is the number of claims on it. -/
lemma InvAt.linked_count (hI : InvAt s stk z) {e : Int} {p : Nat} {v : α}
    (hmem : (e, p, v) ∈ stk) :
    1 ≤ e ∧ e ≤ intMax ∧ ∃ n, s.shared.heap p = some n ∧ e - 1 + n.internalCount = claimants s p := by
  obtain ⟨n, hn⟩ := hI.chain.live p (List.mem_map_of_mem _ hmem)
  have hnode := hI.node_ok_of hn
  rw [entries_of_mem hI.nodup hmem] at hnode
  cases hnode with
  | linked _ _ _ _ he _ hbal h hmax =>
    rw [sum_share_eq_neg_claimants h] at hbal
    exact ⟨he, hmax, n, hn, by omega⟩

/-- A live node off the chain whose unlinker, if any, has added its count: `internal_count` is
the number of claims still out on it. -/
lemma InvAt.settled_count (hI : InvAt s stk z) {p : Nat} {n : Node α}
    (hn : s.shared.heap p = some n) (hoff : p ∉ nodes stk)
    (hu : ∀ u e, (s.thr u).role p ≠ .unlinker e) : n.internalCount = claimants s p := by
  have hnode := hI.node_ok_of hn
  rw [entries_eq_nil hoff] at hnode
  cases hnode with
  | priv _ _ t ht h hi | dying _ _ t ht h hi =>
    have : claimants s p = 0 := claimants_eq_zero fun u => by
      by_cases hut : u = t
      · subst hut; simp [ht]
      · simp [h u hut]
    simp [hi, this]
  | unlinking _ _ t e ht => exact absurd ht (hu t e)
  | released _ _ h _ hbal =>
    rw [sum_share_eq_neg_claimants h] at hbal
    omega

/-- The node a pop is about to delete is live and off the chain, its count is zero, and no
other thread refers to it. -/
lemma InvAt.deleter (hI : InvAt s stk z) {u : Tid} {p : Nat}
    (hu : (s.thr u).role p = .deleter) :
    p ∉ nodes stk ∧ ∃ n, s.shared.heap p = some n ∧ n.internalCount = 0 ∧
      ∀ w, w ≠ u → (s.thr w).role p = .none := by
  obtain ⟨n, hn⟩ := (hI.node_ok p).live (t := u) (by simp [roles, hu])
  obtain ⟨hent, hr, hi⟩ := (hI.node_ok_of hn).of_deleter hu
  exact ⟨not_mem_nodes hent, n, hn, hi, hr⟩

/-- Every node a thread is about to dereference or delete is live, so the only fault a step
can make is the overflow of `++external_count`. -/
lemma InvAt.noFault (hI : InvAt s stk z) {f : Fault} (hf : f ≠ .intOverflow) :
    (lockFreeStackRf α).NoFault f s := fun t c hs => by
  by_cases hov : ∃ old, s.thr t = .popIncr old ∧ old.externalCount = intMax
  · obtain ⟨old, hl, he⟩ := hov
    rw [hl] at hs
    exact hf (Except.error.inj (hs.symm.trans (step_intOverflow c he)))
  · obtain ⟨r, hr⟩ := step_ok_of_live (g := s.shared) (l := s.thr t) c (fun p hp => by
      obtain ⟨n, hn⟩ := hI.live (Local.node_of_touches hp)
      simp [hn]) fun old hl he => hov ⟨old, hl, he⟩
    cases hr.symm.trans hs

/-- Once every call has returned, the live nodes are exactly the stacked ones. -/
lemma InvAt.quiescent (hI : InvAt s stk z) (hq : ∀ u, s.thr u = .idle) (p : Nat) :
    s.shared.heap p ≠ none ↔ p ∈ nodes stk := by
  have hnone : ∀ u, roles s p u = .none := fun u => by
    simp [roles, hq u, Local.role, Local.node]
  refine ⟨fun hp => ?_, fun hp => ?_⟩
  · obtain ⟨n, hn⟩ := Option.ne_none_iff_exists'.mp hp
    by_contra hoff
    have hnode := hI.node_ok_of hn
    rw [entries_eq_nil hoff] at hnode
    cases hnode with
    | priv _ _ t ht | dying _ _ t ht | unlinking _ _ t _ ht => simp [hnone t] at ht
    | released _ _ _ hpos hbal =>
      simp only [hnone, Role.share_none, Finset.sum_const_zero] at hbal
      omega
  · obtain ⟨n, hn⟩ := hI.chain.live p hp
    simp [hn]

variable [DecidableEq Tid]

/-- The unlinker's `fetch_add(external_count - 2)` leaves `internal_count` equal to the number
of claims still out on the node, a sum that fits in an `int`: it does not wrap. -/
lemma InvAt.settle_count (hI : InvAt s stk z) {u : Tid} {old : CountedNodePtr} {p : Nat}
    {res : Option α} {n : Node α} (hu : s.thr u = .popSettle old p res)
    (hn : s.shared.heap p = some n) :
    n.internalCount + (old.externalCount - 2) = claimants s p ∧
      n.internalCount + (old.externalCount - 2) ≤ intMax := by
  have hrole : roles s p u = .unlinker old.externalCount := by
    simp [roles, hu, Local.role, Local.node, Local.kind]
  obtain ⟨-, hr, hle, hbal, hmax⟩ := (hI.node_ok_of hn).of_unlinker hrole
  -- the others hold claims or nothing, and the unlinker is not a claimant
  have hr' := NodeOk.update_none_forall (P := fun x => x = .none ∨ x = .claimant) (.inl rfl) hr
  have hcard : (Finset.univ.filter fun w => Function.update (roles s p) u .none w = .claimant) =
      Finset.univ.filter fun w => (s.thr w).role p = .claimant := Finset.filter_congr fun w _ => by
    by_cases hw : w = u
    · subst hw; simp [hu, Local.role, Local.node, Local.kind]
    · simp [hw, roles]
  have hs := NodeOk.sum_share_update (roles s p) u .none
  rw [sum_share_eq_neg_card hr', hcard, hrole] at hs
  simp only [Role.share_unlinker, Role.share_none, add_zero] at hs
  refine ⟨?_, by unfold intMax at hmax ⊢; omega⟩
  simp only [claimants]
  omega

/-- A losing pop's `fetch_add(-1)` does not wrap. -/
lemma InvAt.release_fits (hI : InvAt s stk z) {u : Tid} {old : CountedNodePtr} {p : Nat}
    {n : Node α} (hu : s.thr u = .popRelease old p) (hn : s.shared.heap p = some n) :
    intMin ≤ n.internalCount + -1 ∧ n.internalCount + -1 ≤ intMax := by
  obtain ⟨h₁, h₂⟩ := (hI.node_ok_of hn).claimed_count (t := u)
    (by simp [roles, hu, Local.role, Local.node, Local.kind])
  constructor <;> omega

/-- The split-count invariant of `lock_free_stack_rf`, in every reachable configuration, for
any number of threads and every interleaving. The chain from `head` is `stk`, ending in a null
pointer with count `z ≤ INT_MAX`. A stacked node, reached by a pointer with external count `e`,
has `1 ≤ e ≤ INT_MAX` and `e - 1 + internal_count` claims on it. A live node off the chain
whose unlinker (if it had one) has added `external_count - 2` has `internal_count` claims left;
the unlinker's `fetch_add` leaves exactly that count, and neither `fetch_add` wraps. The node a
pop is about to delete is live, off the chain, at count zero, and no other thread refers to it.
No step reads a deleted node or deletes one twice. Once every thread is idle, the live nodes
are exactly the stacked ones. -/
theorem lockFreeStackRf_split_count {h : List (Tid × StackEvent α)}
    (hr : (lockFreeStackRf α).Reach (init Tid) s h) :
    ∃ stk z, Chain s.shared.heap s.shared.head stk z ∧ z ≤ intMax ∧
      (∀ e p v, (e, p, v) ∈ stk → 1 ≤ e ∧ e ≤ intMax ∧
        ∃ n, s.shared.heap p = some n ∧ e - 1 + n.internalCount = claimants s p) ∧
      (∀ p n, s.shared.heap p = some n → p ∉ nodes stk →
        (∀ u e, (s.thr u).role p ≠ .unlinker e) → n.internalCount = claimants s p) ∧
      (∀ u old p res n, s.thr u = .popSettle old p res → s.shared.heap p = some n →
        n.internalCount + (old.externalCount - 2) = claimants s p ∧
        n.internalCount + (old.externalCount - 2) ≤ intMax) ∧
      (∀ u old p n, s.thr u = .popRelease old p → s.shared.heap p = some n →
        intMin ≤ n.internalCount + -1 ∧ n.internalCount + -1 ≤ intMax) ∧
      (∀ u p, (s.thr u).role p = .deleter → p ∉ nodes stk ∧ ∃ n, s.shared.heap p = some n ∧
        n.internalCount = 0 ∧ ∀ w, w ≠ u → (s.thr w).role p = .none) ∧
      (lockFreeStackRf α).NoFault .useAfterFree s ∧ (lockFreeStackRf α).NoFault .doubleFree s ∧
      ((∀ u, s.thr u = .idle) → ∀ p, s.shared.heap p ≠ none ↔ p ∈ nodes stk) := by
  obtain ⟨stk, z, hI⟩ := invAt_reach hr
  exact ⟨stk, z, hI.chain, hI.null_count, fun _ _ _ => hI.linked_count,
    fun _ _ => hI.settled_count, fun _ _ _ _ _ => hI.settle_count, fun _ _ _ _ => hI.release_fits,
    fun _ _ => hI.deleter, hI.noFault nofun, hI.noFault nofun, hI.quiescent⟩

/-- Thread 0 claims the node of a one-element stack, then thread 1 claims it too, unlinks it
and settles: the node is off the chain with `internal_count = 1`, the claim thread 0 still
holds. -/
theorem lockFreeStackRf_split_count_claim_out :
    ∃ (s : Conf (Fin 2) (Shared Nat) (Local Nat)) (h : List (Fin 2 × StackEvent Nat)),
      (lockFreeStackRf Nat).Reach (init (Fin 2)) s h ∧
      (s.shared.heap 0).map Node.internalCount = some 1 ∧ s.thr 0 = .popReadNext ⟨2, some 0⟩ 0 ∧
      ∃ stk z, Chain s.shared.heap s.shared.head stk z ∧ z ≤ intMax ∧
        (∀ e p v, (e, p, v) ∈ stk → 1 ≤ e ∧ e ≤ intMax ∧
          ∃ n, s.shared.heap p = some n ∧ e - 1 + n.internalCount = claimants s p) ∧
        (∀ p n, s.shared.heap p = some n → p ∉ nodes stk →
          (∀ u e, (s.thr u).role p ≠ .unlinker e) → n.internalCount = claimants s p) ∧
        (∀ u old p res n, s.thr u = .popSettle old p res → s.shared.heap p = some n →
          n.internalCount + (old.externalCount - 2) = claimants s p ∧
          n.internalCount + (old.externalCount - 2) ≤ intMax) ∧
        (∀ u old p n, s.thr u = .popRelease old p → s.shared.heap p = some n →
          intMin ≤ n.internalCount + -1 ∧ n.internalCount + -1 ≤ intMax) ∧
        (∀ u p, (s.thr u).role p = .deleter → p ∉ nodes stk ∧ ∃ n, s.shared.heap p = some n ∧
          n.internalCount = 0 ∧ ∀ w, w ≠ u → (s.thr w).role p = .none) ∧
        (lockFreeStackRf Nat).NoFault .useAfterFree s ∧
        (lockFreeStackRf Nat).NoFault .doubleFree s ∧
        ((∀ u, s.thr u = .idle) → ∀ p, s.shared.heap p ≠ none ↔ p ∈ nodes stk) := by
  have hrun : (lockFreeStackRf Nat).holdsAfter (init (Fin 2))
      ([(0, .call (.push 1)), (0, .go), (0, .go), (0, .go), (0, .call .pop), (0, .go), (0, .go),
        (1, .call .pop)] ++ List.replicate 6 (1, .go))
      (fun s => decide ((s.shared.heap 0).map Node.internalCount = some 1 ∧
        s.thr 0 = .popReadNext ⟨2, some 0⟩ 0)) = true := by decide
  obtain ⟨s, h, hr, hp⟩ := Program.reach_of_holdsAfter hrun
  obtain ⟨hi, hl⟩ := of_decide_eq_true hp
  exact ⟨s, h, hr, hi, hl, lockFreeStackRf_split_count hr⟩

end Counts

/-- A push that has allocated its node and not yet linked it: no pop is in flight, yet a live
node is not on the chain. -/
theorem lockFreeStackRf_push_in_flight_off_chain :
    ∃ (s : Conf Unit (Shared Nat) (Local Nat)) (h : List (Unit × StackEvent Nat)),
      (lockFreeStackRf Nat).Reach (init Unit) s h ∧ s.thr () = .pushLoad 0 0 ∧
      s.shared.heap 0 ≠ none ∧ ∀ stk z, Chain s.shared.heap s.shared.head stk z → 0 ∉ nodes stk :=
  by
  have r := (Program.Reach.single (P := lockFreeStackRf Nat) (s := init Unit) (t := ())
    (c := .call (.push 0)) (g := (init Unit).shared) (l := .pushNew 0)
    (e := some (.call (.push 0))) rfl).step (t := ()) (c := .go) (g := (init Unit).shared.new 0)
    (l := .pushLoad 0 0) (e := none) (by simp [lockFreeStackRf, step, init])
  refine ⟨_, _, r, by simp, by simp [init], fun stk z hc => ?_⟩
  obtain ⟨rfl, -⟩ := Chain.nil_of_none (e := 0) hc
  simp

/-! ### The external count of `head` -/

/-- The history of `k` empty pops by thread `t`. -/
def emptyPops (t : Tid) : Nat → List (Tid × StackEvent α)
  | 0 => []
  | k + 1 => emptyPops t k ++ [(t, .call .pop), (t, .ret (.popped none))]

variable [DecidableEq Tid]

/-- `k` empty pops by an idle thread raise the count of the null head by `k`, while it stays
at most `INT_MAX`. -/
lemma reach_emptyPops {s : Conf Tid (Shared α) (Local α)} {t : Tid} {e : Int}
    (ht : s.thr t = .idle) (hh : s.shared.head = ⟨e, none⟩) :
    ∀ k : Nat, e + k ≤ intMax →
      (lockFreeStackRf α).Reach s ⟨{ s.shared with head := ⟨e + k, none⟩ }, s.thr⟩ (emptyPops t k)
  | 0, _ => by
    obtain ⟨⟨hd, heap, alloc⟩, thr⟩ := s
    cases hh
    simpa using Program.Reach.refl
  | k + 1, hk => (reach_emptyPops ht hh k (by omega)).trans (by
      simpa [emptyPops, add_assoc] using
        reach_emptyPop (s := ⟨{ s.shared with head := ⟨e + k, none⟩ }, s.thr⟩) ht rfl
          (by push_cast at hk; omega))

/-- From any reachable configuration with an empty stack, a thread running `k` pops alone,
with `e + k ≤ INT_MAX`, gets `k` empty results and leaves `head = {e + k, nullptr}`: an empty
pop raises the external count of `head` by one and keeps its pointer null. -/
theorem lockFreeStackRf_empty_pops_raise_count {s : Conf Tid (Shared α) (Local α)}
    {h : List (Tid × StackEvent α)} (hr : (lockFreeStackRf α).Reach (init Tid) s h) {t : Tid}
    (ht : s.thr t = .idle) {e : Int} (hh : s.shared.head = ⟨e, none⟩) (k : Nat)
    (hk : e + k ≤ intMax) :
    (lockFreeStackRf α).Reach (init Tid) ⟨{ s.shared with head := ⟨e + k, none⟩ }, s.thr⟩
      (h ++ emptyPops t k) :=
  hr.trans (reach_emptyPops ht hh k hk)

/-- Three empty pops on the constructed stack leave `head = {3, nullptr}`. -/
theorem lockFreeStackRf_three_empty_pops :
    (0 : Int) + (3 : Nat) ≤ intMax ∧ (lockFreeStackRf Nat).Reach (init Unit)
      ⟨{ (init Unit).shared with head := ⟨0 + (3 : Nat), none⟩ }, (init Unit).thr⟩
      ([] ++ emptyPops () 3) :=
  ⟨by decide, lockFreeStackRf_empty_pops_raise_count .refl rfl rfl 3 (by decide)⟩

/-- `2^31 - 1` empty pops on the constructed stack take the external count of `head` to
`INT_MAX`, and the `++external_count` of the next pop overflows `int`. Already one empty pop
changes `head`. -/
theorem lockFreeStackRf_head_count_overflows :
    (∃ (s : Conf Unit (Shared Nat) (Local Nat)) (h : List (Unit × StackEvent Nat)),
      (lockFreeStackRf Nat).Reach (init Unit) s h ∧ s.shared.head = ⟨intMax, none⟩ ∧
      s.thr () = .popIncr ⟨intMax, none⟩ ∧ ¬ (lockFreeStackRf Nat).NoFault .intOverflow s) ∧
    ∃ s : Conf Unit (Shared Nat) (Local Nat),
      (lockFreeStackRf Nat).Reach (init Unit) s [((), .call .pop), ((), .ret (.popped none))] ∧
      s.shared.head ≠ (init Unit : Conf Unit (Shared Nat) (Local Nat)).shared.head := by
  have hmax : (0 : Int) + ((2147483647 : Nat) : Int) = intMax := by decide
  have r₁ := reach_emptyPops (α := Nat) (t := ()) (s := init Unit) rfl rfl 2147483647 hmax.le
  rw [hmax] at r₁
  -- the next pop loads `head` and is about to raise its count
  have hrun : (lockFreeStackRf Nat).holdsAfter
      ⟨{ (init Unit).shared with head := ⟨intMax, none⟩ }, (init Unit).thr⟩
      [((), .call .pop), ((), .go)]
      (fun s => decide (s.shared.head = ⟨intMax, none⟩ ∧ s.thr () = .popIncr ⟨intMax, none⟩) &&
        (lockFreeStackRf Nat).faults .intOverflow () .go s) = true := by decide
  obtain ⟨s, h, r₂, hp⟩ := Program.reach_of_holdsAfter hrun
  simp only [Bool.and_eq_true, decide_eq_true_eq] at hp
  exact ⟨⟨s, _, r₁.trans r₂, hp.1.1, hp.1.2, Program.not_noFault_of_faults hp.2⟩, _,
    reach_emptyPop (t := ()) rfl rfl (by decide), by simp [init]⟩

end LockFreeStackRf

end ConcurrencyInAction
