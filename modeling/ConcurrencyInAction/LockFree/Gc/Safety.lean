import ConcurrencyInAction.LockFree.Gc.Invariant

/-!
# Safety of `lock_free_stack_with_gc`

From a stack whose nodes form a null-terminated list, with `to_be_deleted` null and no thread
in `pop`, no run deletes a node twice or reads a deleted one, and every node unlinked from the
stack and not yet deleted has exactly one holder.

The scheme has a hole of another kind: a pop that finds the stack empty while another pop is
running calls `chain_pending_node(nullptr)`, which writes `last->next` through a null pointer.
-/

namespace ConcurrencyInAction

namespace LockFreeStackWithGc

variable {α : Type}

/-- Who holds a node unlinked from the stack: the `to_be_deleted` list, a thread as its
`old_head`, or a thread as part of the list it took from `to_be_deleted`. -/
inductive Holder (Tid : Type)
  | toBeDeleted
  | oldHead (t : Tid)
  | claimed (t : Tid)
  deriving DecidableEq

/-- Whether `w` holds node `p`, with `D` the `to_be_deleted` list and `C t` the list thread `t`
claimed. -/
def Holder.holds {Tid : Type} (s : Conf Tid (Shared α) (Local α)) (D : List Nat)
    (C : Tid → List Nat) : Holder Tid → Nat → Prop
  | .toBeDeleted, p => p ∈ D
  | .oldHead t, p => (s.thr t).own = some p
  | .claimed t, p => p ∈ C t

variable {Tid : Type} [Fintype Tid] {S₀ : List Nat} {s : Conf Tid (Shared α) (Local α)}
  {S D : List Nat} {C : Tid → List Nat}

/-- No two holders share a node. -/
lemma Inv.holder_unique (hI : Inv S₀ s S D C) {w w' : Holder Tid} {p : Nat}
    (h : w.holds s D C p) (h' : w'.holds s D C p) : w = w' := by
  have own_mem : ∀ t, (s.thr t).own = some p → p ∈ owns (s.thr t) (C t) :=
    fun t h => by simp [owns, h]
  have claimed_mem : ∀ t, p ∈ C t → p ∈ owns (s.thr t) (C t) :=
    fun t h => List.mem_append_right _ h
  have same : ∀ t u, p ∈ owns (s.thr t) (C t) → p ∈ owns (s.thr u) (C u) → t = u :=
    fun t u ht hu => by_contra fun htu => hI.disjoint t u htu ht hu
  have apart : ∀ t, (s.thr t).own = some p → p ∉ C t := fun t h hc =>
    List.disjoint_of_nodup_append (List.nodup_append.1 (hI.nodup t)).2.1 (by simp [h]) hc
  cases w with
  | toBeDeleted =>
    cases w' with
    | toBeDeleted => rfl
    | oldHead u => exact absurd (own_mem u h') (hI.pending_not_owns u h)
    | claimed u => exact absurd (claimed_mem u h') (hI.pending_not_owns u h)
  | oldHead t =>
    cases w' with
    | toBeDeleted => exact absurd (own_mem t h) (hI.pending_not_owns t h')
    | oldHead u => rw [same t u (own_mem t h) (own_mem u h')]
    | claimed u =>
      obtain rfl := same t u (own_mem t h) (claimed_mem u h')
      exact absurd h' (apart t h)
  | claimed t =>
    cases w' with
    | toBeDeleted => exact absurd (claimed_mem t h) (hI.pending_not_owns t h')
    | oldHead u =>
      obtain rfl := same t u (claimed_mem t h) (own_mem u h')
      exact absurd h (apart t h')
    | claimed u => rw [same t u (claimed_mem t h) (claimed_mem u h')]

/-- A node on the stack has no holder. -/
lemma Inv.stack_no_holder (hI : Inv S₀ s S D C) {p : Nat} (hp : p ∈ S) (w : Holder Tid) :
    ¬ w.holds s D C p := by
  cases w with
  | toBeDeleted => exact List.disjoint_of_nodup_append hI.separate hp
  | oldHead t =>
    exact fun h => hI.stack_not_owns t hp (by simp [owns, show (s.thr t).own = some p from h])
  | claimed t => exact fun h => hI.stack_not_owns t hp (List.mem_append_right _ h)

/-- A live node of the first stack that is off the stack has a holder. -/
lemma Inv.holder_exists (hI : Inv S₀ s S D C) {p : Nat} (hp : p ∈ S₀)
    (hlive : s.shared.heap p ≠ none) (hS : p ∉ S) : ∃ w : Holder Tid, w.holds s D C p := by
  rcases hI.cover p hp hlive with h | h | ⟨t, h⟩
  · exact absurd h hS
  · exact ⟨.toBeDeleted, h⟩
  · rcases List.mem_append.1 h with h | h
    · exact ⟨.oldHead t, by simpa using h⟩
    · exact ⟨.claimed t, h⟩

variable [DecidableEq Tid]

/-- `lock_free_stack_with_gc` started from a stack of live nodes `S₀`, with `to_be_deleted` null
and no thread in `pop`: in every reachable configuration no step deletes a deleted node or reads
one, and the lists of the stack, of `to_be_deleted` and of what each thread claimed are such
that a node on the stack has no holder and a live node off it has exactly one. -/
theorem lockFreeStackWithGc_reclaims_safely {g₀ : Shared α} (h₀ : Chain g₀.heap g₀.head S₀)
    (htbd : g₀.toBeDeleted = none) (hz : g₀.threadsInPop = 0) {h : List (Tid × StackEvent α)}
    (hr : (lockFreeStackWithGc α).Reach (start Tid g₀) s h) :
    (lockFreeStackWithGc α).NoFault .doubleFree s ∧
    (lockFreeStackWithGc α).NoFault .useAfterFree s ∧
    ∃ (S D : List Nat) (C : Tid → List Nat),
      Chain s.shared.heap s.shared.head S ∧ Chain s.shared.heap s.shared.toBeDeleted D ∧
      (∀ t, Claimed s.shared.heap (s.thr t) (C t) ∧ (C t).Nodup) ∧
      (∀ p ∈ S, ∀ w : Holder Tid, ¬ w.holds s D C p) ∧
      ∀ p ∈ S₀, p ∉ S → s.shared.heap p ≠ none → ∃! w : Holder Tid, w.holds s D C p := by
  obtain ⟨S, D, C, hI⟩ := inv_reach h₀ htbd hz hr
  refine ⟨hI.noFault.2, hI.noFault.1, S, D, C, hI.stack, hI.pending,
    fun t => ⟨hI.claimed t, (List.nodup_append.1 (List.nodup_append.1 (hI.nodup t)).2.1).2.1⟩,
    fun p hp => hI.stack_no_holder hp, fun p hp hS hlive => ?_⟩
  obtain ⟨w, hw⟩ := hI.holder_exists hp hlive hS
  exact ⟨w, hw, fun w' hw' => hI.holder_unique hw' hw⟩

/-- Two threads on a stack of two values: thread 0 enters `pop`, and thread 1 then pops the top
node while thread 0 is still inside, so it puts the node on `to_be_deleted` instead of deleting
it. The node, live and off the stack, has exactly one holder there. -/
theorem lockFreeStackWithGc_reclaims_safely_pending :
    ∃ (s : Conf (Fin 2) (Shared Nat) (Local Nat)) (h : List (Fin 2 × StackEvent Nat)),
      (lockFreeStackWithGc Nat).Reach (start (Fin 2) (stackOf [1, 2])) s h ∧
      s.shared.toBeDeleted = some 0 ∧ s.shared.heap 0 ≠ none ∧
      ((lockFreeStackWithGc Nat).NoFault .doubleFree s ∧
      (lockFreeStackWithGc Nat).NoFault .useAfterFree s ∧
      ∃ (S D : List Nat) (C : Fin 2 → List Nat),
        Chain s.shared.heap s.shared.head S ∧ Chain s.shared.heap s.shared.toBeDeleted D ∧
        (∀ t, Claimed s.shared.heap (s.thr t) (C t) ∧ (C t).Nodup) ∧
        (∀ p ∈ S, ∀ w : Holder (Fin 2), ¬ w.holds s D C p) ∧
        ∀ p ∈ [0, 1], p ∉ S → s.shared.heap p ≠ none → ∃! w : Holder (Fin 2), w.holds s D C p) := by
  have hrun : (lockFreeStackWithGc Nat).holdsAfter (start (Fin 2) (stackOf [1, 2]))
      ([(0, .call), (0, .go), (1, .call)] ++ List.replicate 10 (1, .go))
      (fun s => decide (s.shared.toBeDeleted = some 0 ∧ s.shared.heap 0 ≠ none)) = true := by
    decide
  obtain ⟨s, h, hr, hp⟩ := Program.reach_of_holdsAfter hrun
  obtain ⟨htbd, hlive⟩ := of_decide_eq_true hp
  exact ⟨s, h, hr, htbd, hlive, lockFreeStackWithGc_reclaims_safely
    (show Chain (stackOf [1, 2]).heap (stackOf [1, 2]).head [0, 1] by
      simp [Chain, stackOf, stackHeap]) rfl rfl hr⟩

/-- Two pops on an empty stack both enter `pop`; the first then loads a null `head`, sees
`threads_in_pop` at two and calls `chain_pending_node(nullptr)`. -/
def emptyPopSchedule : List (Fin 2 × Choice) :=
  [(0, .call), (0, .go), (1, .call), (1, .go), (0, .go), (0, .go), (0, .go)]

/-- One `pop` by thread 0, from its call to its return. -/
def lonePop : List (Fin 2 × Choice) :=
  (0, .call) :: List.replicate 10 (0, .go)

/-- A pop running alone on a stack whose top node is `p` sees `threads_in_pop==1`, unlinks `p`
and deletes it at once. -/
lemma run_lonePop {g : Shared α} {p : Nat} {n : Node α} (hh : g.head = some p)
    (hn : g.heap p = some n) (htbd : g.toBeDeleted = none) (hz : g.threadsInPop = 0) :
    (lockFreeStackWithGc α).run (start (Fin 2) g) lonePop =
      .ok (start (Fin 2) { g with head := n.next, heap := Function.update g.heap p none },
        [(0, .call .pop), (0, .ret (.popped n.data))]) := by
  simp [lonePop, Program.run, lockFreeStackWithGc, step, Shared.read, Shared.delete, Shared.erase,
    Shared.write, Shared.decr, hh, hn, htbd, hz, start, Conf.set, Choice.spurious]

/-- Popping alone, one pop after another, empties any stack whose nodes form a null-terminated
list, and leaves `to_be_deleted` null and no pop running. -/
lemma reach_emptied : ∀ {S : List Nat} {g : Shared α}, Chain g.heap g.head S →
    g.toBeDeleted = none → g.threadsInPop = 0 →
    ∃ g' h, (lockFreeStackWithGc α).Reach (start (Fin 2) g) (start (Fin 2) g') h ∧
      g'.head = none ∧ g'.toBeDeleted = none ∧ g'.threadsInPop = 0
  | [], g, hc, htbd, hz => ⟨g, [], .refl, hc, htbd, hz⟩
  | p :: S, g, hc, htbd, hz => by
    obtain ⟨hh, n, hn, hrest⟩ := hc
    have hp : p ∉ S := (List.nodup_cons.1 (Chain.nodup (c := g.head) ⟨hh, n, hn, hrest⟩)).1
    have hrest' : Chain (Function.update g.heap p none) n.next S :=
      hrest.congr fun q hq => Function.update_noteq (ne_of_mem_of_not_mem hq hp) _ _
    obtain ⟨g', h', hr', hg'⟩ := reach_emptied (g := { g with head := n.next, heap := _ }) hrest'
      htbd hz
    exact ⟨g', _, (Program.reach_of_run (run_lonePop hh hn htbd hz)).trans hr', hg'⟩

/-- From any stack whose nodes form a null-terminated list (the empty one included), with
`to_be_deleted` null and no pop running, two threads reach a configuration where the next
step of a pop calls `chain_pending_node` on a null `old_head` and writes through it: thread 0
pops the stack empty alone, then both threads enter `pop` and thread 0 finds `head` null while
`threads_in_pop` is two. -/
theorem lockFreeStackWithGc_pop_derefs_null {g₀ : Shared α} {S₀ : List Nat}
    (h₀ : Chain g₀.heap g₀.head S₀) (htbd : g₀.toBeDeleted = none) (hz : g₀.threadsInPop = 0) :
    ∃ (s : Conf (Fin 2) (Shared α) (Local α)) (h : List (Fin 2 × StackEvent α)),
      (lockFreeStackWithGc α).Reach (start (Fin 2) g₀) s h ∧
      ¬ (lockFreeStackWithGc α).NoFault .nullDeref s := by
  obtain ⟨g, h, hr, hh, htbd', hz'⟩ := reach_emptied h₀ htbd hz
  have hrun : (lockFreeStackWithGc α).holdsAfter (start (Fin 2) g) emptyPopSchedule
      ((lockFreeStackWithGc α).faults .nullDeref 0 .go) = true := by
    simp [Program.holdsAfter, emptyPopSchedule, Program.run, lockFreeStackWithGc, step, hh, htbd',
      hz', start, Conf.set, Program.faults]
  obtain ⟨s, h', hr', hp⟩ := Program.reach_of_holdsAfter hrun
  exact ⟨s, _, hr.trans hr', Program.not_noFault_of_faults hp⟩

/-- The failure from a stack of two values. -/
theorem lockFreeStackWithGc_pop_derefs_null_two :
    (Chain (stackOf [1, 2]).heap (stackOf [1, 2]).head [0, 1] ∧
      (stackOf [1, 2]).toBeDeleted = none ∧ (stackOf [1, 2]).threadsInPop = 0) ∧
    ∃ (s : Conf (Fin 2) (Shared Nat) (Local Nat)) (h : List (Fin 2 × StackEvent Nat)),
      (lockFreeStackWithGc Nat).Reach (start (Fin 2) (stackOf [1, 2])) s h ∧
      ¬ (lockFreeStackWithGc Nat).NoFault .nullDeref s :=
  have h₀ : Chain (stackOf [1, 2]).heap (stackOf [1, 2]).head [0, 1] := by
    simp [Chain, stackOf, stackHeap]
  ⟨⟨h₀, rfl, rfl⟩, lockFreeStackWithGc_pop_derefs_null h₀ rfl rfl⟩

/-- The failing input on the empty stack itself: two pops enter `pop`, and the first loads a
null `head`, so its next step is `chain_pending_node(nullptr)`, writing through the null
pointer. -/
lemma lockFreeStackWithGc_empty_pop_derefs_null :
    ∃ (s : Conf (Fin 2) (Shared Nat) (Local Nat)) (h : List (Fin 2 × StackEvent Nat)),
      (lockFreeStackWithGc Nat).Reach (start (Fin 2) (stackOf [])) s h ∧
      s.thr 0 = .link none none true none none ∧
      ¬ (lockFreeStackWithGc Nat).NoFault .nullDeref s := by
  have hrun : (lockFreeStackWithGc Nat).holdsAfter (start (Fin 2) (stackOf [])) emptyPopSchedule
      (fun s => decide (s.thr 0 = .link none none true none none) &&
        (lockFreeStackWithGc Nat).faults .nullDeref 0 .go s) = true := by
    decide
  obtain ⟨s, h, hr, hp⟩ := Program.reach_of_holdsAfter hrun
  simp only [Bool.and_eq_true, decide_eq_true_eq] at hp
  exact ⟨s, h, hr, hp.1, Program.not_noFault_of_faults hp.2⟩

end LockFreeStackWithGc

end ConcurrencyInAction
