import ConcurrencyInAction.LockFree.SplitCount.Invariant

/-!
# `lock_free_stack_rf` is linearizable

A forward simulation into the atomic stack. A push takes effect at its successful exchange on
`head`; a pop that finds a node, at its successful exchange on `head`, returning the value of
the node it unlinked; a pop that finds the stack empty, at the `increase_head_count` exchange
that saw a null pointer. Each of the last two is one step of the code, so the atomic stack
takes its effect and its return together when the code returns in that step.
-/

namespace ConcurrencyInAction

namespace LockFreeStackRf

open Atomic (callsRets)

variable {α Tid : Type}

/-- The values of a chain, top first. -/
def values (stk : List (Int × Nat × α)) : List α := stk.map fun x => x.2.2

@[simp] lemma values_nil : values ([] : List (Int × Nat × α)) = [] := rfl

/-- Where each thread's call is against the atomic stack. A pop has taken effect once its
exchange on `head` succeeded: from then on it returns the value the node held. -/
def absThread (g : Shared α) : Local α → AtomicThread α
  | .idle => .idle
  | .pushNew v | .pushLoad v _ | .pushCas v _ => .pending (.push v)
  | .popSwap _ p => .done (.popped ((g.heap p).bind Node.data))
  | .popSettle _ _ res | .popDelete _ res => .done (.popped res)
  | _ => .pending .pop

/-- The refinement relation: the invariant holds at the chain from `head`, whose values are
the atomic stack's contents, and every thread is where `absThread` puts it. -/
def Refines [Fintype Tid] (s : Conf Tid (Shared α) (Local α))
    (a : Conf Tid (List α) (AtomicThread α)) : Prop :=
  ∃ stk z, InvAt s stk z ∧ a.shared = values stk ∧ ∀ t, a.thr t = absThread s.shared (s.thr t)

/-- `absThread` reads only the value of the node an unlinking pop holds. -/
lemma absThread_congr {g g' : Shared α} {l : Local α}
    (h : ∀ q, l.node = some q → l.kind ≠ .claimant →
      (g'.heap q).map Node.data = (g.heap q).map Node.data) :
    absThread g' l = absThread g l := by
  cases l with
  | popSwap old p =>
    have := h p rfl (by simp [Local.kind])
    simp only [absThread]
    rcases h1 : g.heap p with _ | n <;> rcases h2 : g'.heap p with _ | n' <;> simp_all
  | _ => rfl

section Simulation

variable [Fintype Tid] {s : Conf Tid (Shared α) (Local α)} {stk : List (Int × Nat × α)} {z : Int}
  {t : Tid}

/-- A step of thread `t` leaves the value of every node another thread has unlinked or is
deleting: only the node's own unlinker takes its value out, and only its deleter deletes it. -/
lemma InvAt.data_frame (hI : InvAt s stk z) {g : Shared α} {l : Local α}
    {e : Option (StackEvent α)} (hm : Move s.shared (s.thr t) g l e) (u : Tid) (hu : u ≠ t)
    (q : Nat) (hq : (s.thr u).node = some q) (hk : (s.thr u).kind ≠ .claimant) :
    (g.heap q).map Node.data = (s.shared.heap q).map Node.data := by
  have hrole : roles s q u = (s.thr u).kind := Local.role_of_node hq
  -- the node `p` the step writes is not `q`
  have off : ∀ p, (∀ w, w ≠ t → roles s p w = .none ∨ roles s p w = .claimant) → q ≠ p :=
    fun p h hqp => by
      subst hqp
      rcases h u hu with h | h <;> rw [hrole] at h
      exacts [Local.kind_ne_none hq h, hk h]
  generalize hl : s.thr t = l₀ at hm
  cases hm with
  | newNode v =>
    obtain ⟨n, hn⟩ := hI.live hq
    have : q ≠ s.shared.alloc := fun h => by simp [h, hI.fresh _ le_rfl] at hn
    simp [this]
  | loadHead v p n hp | pushRetry v p n hp | settleZero _ p _ n hp | settle _ p _ n hp
  | releaseLast _ p n hp | release _ p n hp => exact Shared.write_map _ Node.data hp (by rfl) q
  | swap old p n hp =>
    have h := ((hI.node_ok_of hp).of_unlinker (t := t) (e := old.externalCount)
      (by simp [roles, hl, Local.role, Local.node, Local.kind])).2.1
    simp [off p h]
  | delete p _ n hp | deleteLoser _ p n hp =>
    have h := ((hI.node_ok_of hp).of_deleter (t := t)
      (by simp [roles, hl, Local.role, Local.node, Local.kind])).2.1
    simp [Shared.erase_heap, off p fun w hw => .inl (h w hw)]
  | _ => rfl

variable [DecidableEq Tid]

/-- A refinement step: thread `t` moves, the atomic stack goes to `a.set t (values stk')
(absThread g l)`. -/
lemma Refines.set {a : Conf Tid (List α) (AtomicThread α)}
    (hR : ∀ u, a.thr u = absThread s.shared (s.thr u)) {g : Shared α} {l : Local α}
    {stk' : List (Int × Nat × α)} {z' : Int} (hI : InvAt (s.set t g l) stk' z')
    (hu : ∀ u, u ≠ t → absThread g (s.thr u) = absThread s.shared (s.thr u)) :
    Refines (s.set t g l) (a.set t (values stk') (absThread g l)) := by
  refine ⟨stk', z', hI, rfl, fun u => ?_⟩
  by_cases h : u = t
  · subst h; simp
  · rw [Conf.set_thr_ne _ _ _ h, Conf.set_thr_ne _ _ _ h, hR u, Conf.set_shared, hu u h]

/-- One step of `lock_free_stack_rf` is matched by the atomic stack. -/
lemma refines_step {a : Conf Tid (List α) (AtomicThread α)} (hR : Refines s a) {c : Choice α}
    {g : Shared α} {l : Local α} {e : Option (StackEvent α)}
    (hs : step s.shared (s.thr t) c = .ok (g, l, e)) :
    ∃ a', (atomicStack α).Reach a a' (e.map (t, ·)).toList ∧ Refines (s.set t g l) a' := by
  obtain ⟨stk, z, hI, ha, hthr⟩ := hR
  have hm := move_of_step hs
  have others : ∀ u, u ≠ t → absThread g (s.thr u) = absThread s.shared (s.thr u) :=
    fun u hu => absThread_congr fun q hq hk => hI.data_frame hm u hu q hq hk
  have heq : ∀ x, a.set t (values stk) x = a.set t a.shared x := by simp [ha]
  -- a step the atomic stack does not see
  have stutter : ∀ {stk' : List (Int × Nat × α)} {z' : Int}, InvAt (s.set t g l) stk' z' →
      values stk' = values stk → absThread g l = absThread s.shared (s.thr t) →
      ∃ a', (atomicStack α).Reach a a' [] ∧ Refines (s.set t g l) a' := fun hI' hv hl' =>
    ⟨a, .refl, by
      have := Refines.set hthr hI' others
      rwa [hv, hl', ← hthr t, heq, Conf.set_self] at this⟩
  generalize hl : s.thr t = l₀ at hs hm others stutter
  have ok := hI.local_ok t
  rw [hl] at ok
  cases hm with
  | callPush v =>
    refine ⟨_, Atomic.reach_call a t (.push v) (by simp [hthr, hl, absThread]), ?_⟩
    rw [← heq]
    exact Refines.set hthr (hI.local_step trivial fun q => by simp [hl, Local.role, Local.node])
      others
  | callPop =>
    refine ⟨_, Atomic.reach_call a t .pop (by simp [hthr, hl, absThread]), ?_⟩
    rw [← heq]
    exact Refines.set hthr (hI.local_step trivial fun q => by simp [hl, Local.role, Local.node])
      others
  | stay | loadOld | claimRetry =>
    exact stutter (hI.local_step trivial fun q => by simp [hl, Local.role, Local.node]) rfl
      (by simp [absThread])
  | readNext old p n hp =>
    exact stutter (hI.local_step ⟨ok, n, hp, rfl⟩ fun q => by
      simp [hl, Local.role, Local.node, Local.kind]) rfl (by simp [absThread])
  | lose old p nxt _ | acquire old p n _ =>
    exact stutter (hI.local_step trivial fun q => by simp [hl, Local.role, Local.node, Local.kind])
      rfl (by simp [absThread])
  | newNode v => exact stutter (hI.newNode hl) rfl (by simp [absThread])
  | loadHead v p n hp => exact stutter (hI.pushWrite (.inl hl) hp) rfl (by simp [absThread])
  | pushRetry v p n hp => exact stutter (hI.pushWrite (.inr hl) hp) rfl (by simp [absThread])
  | pushed v p n hp hn =>
    refine ⟨_, Atomic.reach_lin_ret a t (.push v) (by simp [hthr, hl, absThread]), ?_⟩
    simpa [ha, absThread] using Refines.set hthr (hI.pushed hl hp hn) others
  | claimEmpty e hne hh =>
    obtain ⟨rfl, -⟩ := (hh ▸ hI.chain).nil_of_none
    have hr : (atomicStack α).Reach a _ _ :=
      Atomic.reach_lin_ret a t .pop (by simp [hthr, hl, absThread])
    rw [ha] at hr
    exact ⟨a.set t [] .idle, by simpa using hr,
      by simpa [absThread] using Refines.set hthr (hI.claimEmpty hl hne hh) others⟩
  | claim e p hne hh =>
    obtain ⟨v, rest, rfl, hI'⟩ := hI.claim hl hne hh
    exact stutter hI' rfl (by simp [absThread])
  | unlink old p nxt hh =>
    obtain ⟨v, rest, rfl, ⟨n, hn, hv⟩, hI'⟩ := hI.unlink hl hh
    refine ⟨_, Atomic.reach_lin a t .pop (by simp [hthr, hl, absThread]), ?_⟩
    rw [ha]
    simpa [absThread, hn, hv] using Refines.set hthr hI' others
  | swap old p n hp => exact stutter (hI.swap hl hp) rfl (by simp [absThread, hp])
  | settleZero old p res n hp hz => exact stutter (hI.settleZero hl hp hz) rfl (by simp [absThread])
  | settle old p res n hp hz =>
    refine ⟨_, Atomic.reach_ret a t (.popped res) (by simp [hthr, hl, absThread]), ?_⟩
    rw [← heq]
    exact Refines.set hthr (hI.settle hl hp hz) others
  | releaseLast old p n hp h1 =>
    exact stutter (hI.releaseLast hl hp h1) rfl (by simp [absThread])
  | release old p n hp h1 => exact stutter (hI.release hl hp h1) rfl (by simp [absThread])
  | delete p res n hp =>
    refine ⟨_, Atomic.reach_ret a t (.popped res) (by simp [hthr, hl, absThread]), ?_⟩
    rw [← heq]
    exact Refines.set hthr (hI.deleteNode (by simp [hl, Local.role, Local.node, Local.kind])
      (fun q => by simp [Local.role, Local.node]) trivial) others
  | deleteLoser old p n hp =>
    exact stutter (hI.deleteNode (by simp [hl, Local.role, Local.node, Local.kind])
      (fun q => by simp [Local.role, Local.node]) trivial) rfl (by simp [absThread])

omit [DecidableEq Tid] in
lemma refines_init : Refines (init Tid : Conf Tid (Shared α) (Local α)) (atomicInit Tid []) :=
  ⟨[], 0, invAt_init, rfl, fun _ => rfl⟩

lemma refines_reach {s₀ : Conf Tid (Shared α) (Local α)}
    {a₀ : Conf Tid (List α) (AtomicThread α)} {h : List (Tid × StackEvent α)}
    (h0 : Refines s₀ a₀) (hr : (lockFreeStackRf α).Reach s₀ s h) :
    ∃ a, (atomicStack α).Reach a₀ a h ∧ Refines s a :=
  Program.Reach.simulate Refines h0 (fun _ _ _ _ _ _ _ hR hs => refines_step hR hs) hr

end Simulation

end LockFreeStackRf

end ConcurrencyInAction
