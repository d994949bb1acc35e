import ConcurrencyInAction.Atomic
import Mathlib.Tactic.Abel

/-!
# The atomic stack

The sequential last-in-first-out stack, and the atomic object over it: the specification of
the lock-free stacks of the repository. The values a history pushes and pops are conserved by
every run of the atomic stack.
-/

namespace ConcurrencyInAction

/-- A call on a stack. -/
inductive StackOp (α : Type)
  | push (v : α)
  | pop
  deriving DecidableEq, Repr

/-- What a call returns: `push` nothing, `pop` the value it removed, or nothing when empty. -/
inductive StackRet (α : Type)
  | pushed
  | popped (r : Option α)
  deriving DecidableEq, Repr

variable {α : Type}

/-- The sequential stack on its contents, top first. -/
def StackOp.apply : StackOp α → List α → List α × StackRet α
  | .push v, vs => (v :: vs, .pushed)
  | .pop, [] => ([], .popped none)
  | .pop, v :: vs => (vs, .popped (some v))

@[simp] lemma StackOp.apply_push (v : α) (vs : List α) :
    (StackOp.push v).apply vs = (v :: vs, .pushed) := rfl

@[simp] lemma StackOp.apply_pop_nil : (StackOp.pop : StackOp α).apply [] = ([], .popped none) :=
  rfl

@[simp] lemma StackOp.apply_pop_cons (v : α) (vs : List α) :
    (StackOp.pop : StackOp α).apply (v :: vs) = (vs, .popped (some v)) := rfl

open Atomic in
lemma StackOp.run_pushes (ws vs : List α) :
    run StackOp.apply (ws.map .push) vs = (ws.reverse ++ vs, ws.map fun _ => .pushed) := by
  induction ws generalizing vs with
  | nil => rfl
  | cons w ws ih => simp [ih]

open Atomic in
lemma StackOp.run_pops (xs vs : List α) :
    run StackOp.apply (List.replicate xs.length .pop) (xs ++ vs) =
      (vs, xs.map fun x => .popped (some x)) := by
  induction xs with
  | nil => rfl
  | cons x xs ih => simp [List.replicate_succ, ih]

open Atomic in
/-- Pushing `v₁ … vₙ` and then popping `n` times returns `vₙ … v₁`, whatever the stack held. -/
lemma StackOp.run_push_pop (ws vs : List α) :
    (run StackOp.apply (ws.map .push ++ List.replicate ws.length .pop) vs).2 =
      ws.map (fun _ => .pushed) ++ ws.reverse.map fun w => .popped (some w) := by
  have := run_pops ws.reverse vs
  rw [List.length_reverse] at this
  simp [run_append, run_pushes, this]

/-- Visible events of a stack: a call and a return. -/
abbrev StackEvent (α : Type) := Atomic.Event (StackOp α) (StackRet α)

/-- A thread of the atomic stack. -/
abbrev AtomicThread (α : Type) := Atomic.Thread (StackOp α) (StackRet α)

/-- The atomic stack: a call, the step at which it takes effect, and its return. -/
def atomicStack (α : Type) :
    Program (List α) (AtomicThread α) (Atomic.Choice (StackOp α)) (StackEvent α) :=
  Atomic.object StackOp.apply

/-- The atomic stack with contents `vs` and every thread idle. -/
def atomicInit (Tid : Type) (vs : List α) : Conf Tid (List α) (AtomicThread α) :=
  ⟨vs, fun _ => .idle⟩

/-- The value an event pushes: that of a call of `push`. -/
def StackEvent.pushedValue : StackEvent α → Option α
  | .call (.push v) => some v
  | _ => none

/-- The value an event takes off the stack: that of a return of `pop`. -/
def StackEvent.poppedValue : StackEvent α → Option α
  | .ret (.popped r) => r
  | _ => none

/-- The value a thread holds: that of a push not yet effective, or of an effective pop that has
not returned. -/
def AtomicThread.held : AtomicThread α → Multiset α
  | .pending (.push v) => {v}
  | .done (.popped (some v)) => {v}
  | _ => 0

variable {Tid : Type}

/-- The values a history pushes. -/
def pushedValues (h : List (Tid × StackEvent α)) : Multiset α :=
  (h.filterMap fun e => e.2.pushedValue : List α)

/-- The values a history's pops return. -/
def poppedValues (h : List (Tid × StackEvent α)) : Multiset α :=
  (h.filterMap fun e => e.2.poppedValue : List α)

@[simp] lemma pushedValues_nil : pushedValues ([] : List (Tid × StackEvent α)) = 0 := rfl

@[simp] lemma poppedValues_nil : poppedValues ([] : List (Tid × StackEvent α)) = 0 := rfl

@[simp] lemma pushedValues_append (h h' : List (Tid × StackEvent α)) :
    pushedValues (h ++ h') = pushedValues h + pushedValues h' := by
  simp [pushedValues, List.filterMap_append]

@[simp] lemma poppedValues_append (h h' : List (Tid × StackEvent α)) :
    poppedValues (h ++ h') = poppedValues h + poppedValues h' := by
  simp [poppedValues, List.filterMap_append]

@[simp] lemma pushedValues_single (t : Tid) (e : StackEvent α) :
    pushedValues [(t, e)] = (e.pushedValue.toList : Multiset α) := by
  cases h : e.pushedValue <;> simp [pushedValues, h]

@[simp] lemma poppedValues_single (t : Tid) (e : StackEvent α) :
    poppedValues [(t, e)] = (e.poppedValue.toList : Multiset α) := by
  cases h : e.poppedValue <;> simp [poppedValues, h]

variable [DecidableEq Tid]

namespace AtomicStack

open Program

/-- No value is lost or duplicated: the contents, the values held by the calls in flight and
the values returned are together the initial contents and the values pushed. -/
lemma conservation [Fintype Tid] {vs : List α} {a : Conf Tid (List α) (AtomicThread α)}
    {h : List (Tid × StackEvent α)} (hr : (atomicStack α).Reach (atomicInit Tid vs) a h) :
    ↑a.shared + ∑ t, (a.thr t).held + poppedValues h = ↑vs + pushedValues h := by
  induction hr with
  | refl => simp [atomicInit, AtomicThread.held]
  | @step a h t c g l e _ hs ih =>
    rw [← Finset.sum_erase_add _ _ (Finset.mem_univ t)] at ih
    rw [← Finset.sum_erase_add _ _ (Finset.mem_univ t), Conf.sum_erase_set, Conf.set_thr_self,
      Conf.set_shared]
    generalize ∑ u ∈ Finset.univ.erase t, (a.thr u).held = R at ih ⊢
    generalize a.thr t = x at hs ih
    generalize a.shared = w at hs ih
    have key : ∀ {x y a b d : Multiset α}, a = b → x = a + d → y = b + d → x = y :=
      fun hab hx hy => by rw [hx, hy, hab]
    cases Atomic.Move.of_step hs with
    | call op =>
      rcases op with v | _
      · exact key (d := {v}) ih (by simp [AtomicThread.held, StackEvent.poppedValue]; abel)
          (by simp [StackEvent.pushedValue]; abel)
      · exact key (d := 0) ih (by simp [AtomicThread.held, StackEvent.poppedValue])
          (by simp [StackEvent.pushedValue])
    | stay => simpa using ih
    | lin op =>
      rcases op with v | _
      · have hc : ((v :: w : List α) : Multiset α) = {v} + ↑w := by simp
        exact key (d := 0) ih (by simp [AtomicThread.held]; rw [hc]; abel) (by simp)
      · rcases w with _ | ⟨v, w⟩
        · simpa [AtomicThread.held] using ih
        · have hc : ((v :: w : List α) : Multiset α) = {v} + ↑w := by simp
          exact key (d := 0) ih (by simp [AtomicThread.held]; rw [hc]; abel) (by simp)
    | ret r =>
      rcases r with _ | _ | v
      · simpa [AtomicThread.held, StackEvent.pushedValue, StackEvent.poppedValue] using ih
      · simpa [AtomicThread.held, StackEvent.pushedValue, StackEvent.poppedValue] using ih
      · exact key (d := 0) ih (by simp [AtomicThread.held, StackEvent.poppedValue]; abel)
          (by simp [StackEvent.pushedValue])

end AtomicStack

end ConcurrencyInAction
