import ConcurrencyInAction.Interleaving

/-!
# Atomic objects

The concurrent object in which every call takes effect in one atomic step of its own,
somewhere between its call and its return, on a sequential object given by
`apply : Op → S → S × R` (the new state and what the call returns). A concurrent data
structure is linearizable when each of its histories is a history of this object; the stacks,
the queue and the lookup table of the repository are specified that way.

Only the object's state and the calls in flight are state here: which step of a call is its
linearization point is said by the refinement mappings of the concrete structures.
-/

namespace ConcurrencyInAction

namespace Atomic

/-- Visible events of a concurrent object: a call and a return. -/
inductive Event (Op R : Type)
  | call (op : Op)
  | ret (r : R)
  deriving DecidableEq, Repr

/-- A thread of the atomic object: idle, inside a call that has not taken effect, or inside a
call that has taken effect and has still to return. -/
inductive Thread (Op R : Type)
  | idle
  | pending (op : Op)
  | done (r : R)
  deriving DecidableEq, Repr

/-- Scheduler choices of the atomic object: call an operation, or let a step happen. -/
inductive Choice (Op : Type)
  | call (op : Op)
  | go
  deriving DecidableEq, Repr

variable {S Op R : Type}

/-- The atomic object: a call, the step at which it takes effect, and its return. -/
def object (apply : Op → S → S × R) : Program S (Thread Op R) (Choice Op) (Event Op R) where
  step s
    | .idle, .call op => .ok (s, .pending op, some (.call op))
    | .idle, .go => .ok (s, .idle, none)
    | .pending op, _ => .ok ((apply op s).1, .done (apply op s).2, none)
    | .done r, _ => .ok (s, .idle, some (.ret r))

/-- The transitions of the atomic object. -/
inductive Move (apply : Op → S → S × R) :
    S → Thread Op R → S → Thread Op R → Option (Event Op R) → Prop
  | call (s : S) (op : Op) : Move apply s .idle s (.pending op) (some (.call op))
  | stay (s : S) : Move apply s .idle s .idle none
  | lin (s : S) (op : Op) : Move apply s (.pending op) (apply op s).1 (.done (apply op s).2) none
  | ret (s : S) (r : R) : Move apply s (.done r) s .idle (some (.ret r))

lemma Move.of_step {apply : Op → S → S × R} {s s' : S} {x x' : Thread Op R} {c : Choice Op}
    {e : Option (Event Op R)} (h : (object apply).step s x c = .ok (s', x', e)) :
    Move apply s x s' x' e := by
  cases x <;> cases c <;> simp only [object, Except.ok.injEq, Prod.mk.injEq] at h <;>
    obtain ⟨rfl, rfl, rfl⟩ := h <;> constructor

/-! ### The sequential object -/

/-- The sequential object run on a list of calls: the final state and each call's return. -/
def run (apply : Op → S → S × R) : List Op → S → S × List R
  | [], s => (s, [])
  | op :: ops, s => ((run apply ops (apply op s).1).1, (apply op s).2 :: (run apply ops (apply op s).1).2)

variable {apply : Op → S → S × R}

@[simp] lemma run_nil (s : S) : run apply [] s = (s, []) := rfl

@[simp] lemma run_cons (op : Op) (ops : List Op) (s : S) :
    run apply (op :: ops) s =
      ((run apply ops (apply op s).1).1, (apply op s).2 :: (run apply ops (apply op s).1).2) :=
  rfl

lemma run_append (ops ops' : List Op) (s : S) :
    run apply (ops ++ ops') s =
      ((run apply ops' (run apply ops s).1).1,
        (run apply ops s).2 ++ (run apply ops' (run apply ops s).1).2) := by
  induction ops generalizing s with
  | nil => rfl
  | cons o ops ih => simp [ih]

lemma run_append_single (ops : List Op) (op : Op) (s : S) :
    run apply (ops ++ [op]) s =
      ((apply op (run apply ops s).1).1, (run apply ops s).2 ++ [(apply op (run apply ops s).1).2]) := by
  simp [run_append]

lemma length_run (ops : List Op) (s : S) : (run apply ops s).2.length = ops.length := by
  induction ops generalizing s with
  | nil => rfl
  | cons o ops ih => simp [ih]

/-- A history of calls, each returning before the next begins. -/
def callsRets : List (Op × R) → List (Event Op R)
  | [] => []
  | (op, r) :: rest => .call op :: .ret r :: callsRets rest

lemma callsRets_append (l l' : List (Op × R)) :
    callsRets (l ++ l') = callsRets l ++ callsRets l' := by
  induction l with
  | nil => rfl
  | cons x l ih => simp [callsRets, ih]

lemma length_callsRets (l : List (Op × R)) : (callsRets l).length = 2 * l.length := by
  induction l with
  | nil => rfl
  | cons x l ih => simp [callsRets, ih]; omega

lemma callsRets_injective {l l' : List (Op × R)} (h : callsRets l = callsRets l') : l = l' := by
  induction l generalizing l' with
  | nil => cases l' <;> simp_all [callsRets]
  | cons x l ih =>
    rcases l' with _ | ⟨y, l'⟩
    · simp [callsRets] at h
    · simp only [callsRets, List.cons.injEq, Event.call.injEq, Event.ret.injEq] at h
      rw [Prod.ext h.1 h.2.1, ih h.2.2]

/-- A history of calls that all returned does not end with a call. -/
lemma callsRets_ne_append_call (l l' : List (Op × R)) (op : Op) :
    callsRets l ≠ callsRets l' ++ [.call op] := fun h => by
  have := congrArg List.length h
  simp [length_callsRets] at this
  omega

/-! ### Runs of the atomic object -/

variable {Tid : Type} [DecidableEq Tid]

open Program

/-- A call. -/
lemma reach_call (a : Conf Tid S (Thread Op R)) (t : Tid) (op : Op) (h : a.thr t = .idle) :
    (object apply).Reach a (a.set t a.shared (.pending op)) [(t, .call op)] := by
  simpa using Reach.single (P := object apply) (s := a) (c := .call op) (g := a.shared)
    (l := .pending op) (e := some (.call op)) (by simp [object, h])

/-- The step at which a call takes effect: the linearization point. -/
lemma reach_lin (a : Conf Tid S (Thread Op R)) (t : Tid) (op : Op) (h : a.thr t = .pending op) :
    (object apply).Reach a (a.set t (apply op a.shared).1 (.done (apply op a.shared).2)) [] := by
  simpa using Reach.single (P := object apply) (s := a) (t := t) (c := .go)
    (g := (apply op a.shared).1) (l := .done (apply op a.shared).2) (e := none)
    (by simp [object, h])

/-- A return. -/
lemma reach_ret (a : Conf Tid S (Thread Op R)) (t : Tid) (r : R) (h : a.thr t = .done r) :
    (object apply).Reach a (a.set t a.shared .idle) [(t, .ret r)] := by
  simpa using Reach.single (P := object apply) (s := a) (c := .go) (g := a.shared) (l := .idle)
    (e := some (.ret r)) (by simp [object, h])

/-- A call that takes effect and returns in one concrete step: linearization point and
return together. -/
lemma reach_lin_ret (a : Conf Tid S (Thread Op R)) (t : Tid) (op : Op)
    (h : a.thr t = .pending op) :
    (object apply).Reach a (a.set t (apply op a.shared).1 .idle) [(t, .ret (apply op a.shared).2)] := by
  have h₂ : (object apply).Reach (a.set t (apply op a.shared).1 (.done (apply op a.shared).2)) _ _ :=
    reach_ret _ t _ (Conf.set_thr_self ..)
  simpa using (reach_lin a t op h).trans h₂

/-- Thread `t` alone has been active since a quiescent configuration with state `s₀`, and
its calls `es` so far are answered as by the sequential object. -/
def SeqAt (apply : Op → S → S × R) (t : Tid) (s₀ : S) (a : Conf Tid S (Thread Op R))
    (es : List (Event Op R)) : Prop :=
  (∀ u, u ≠ t → a.thr u = .idle) ∧ ∃ ops : List Op,
    match a.thr t with
    | .idle => es = callsRets (ops.zip (run apply ops s₀).2) ∧ a.shared = (run apply ops s₀).1
    | .pending op =>
      es = callsRets (ops.zip (run apply ops s₀).2) ++ [.call op] ∧ a.shared = (run apply ops s₀).1
    | .done r =>
      ∃ op, es = callsRets (ops.zip (run apply ops s₀).2) ++ [.call op] ∧
        apply op (run apply ops s₀).1 = (a.shared, r)

lemma seqAt_step {t : Tid} {s₀ : S} {a : Conf Tid S (Thread Op R)} {es : List (Event Op R)}
    (hq : SeqAt apply t s₀ a es) {u : Tid} {c : Choice Op} {g : S} {l : Thread Op R}
    {e : Option (Event Op R)} (hs : (object apply).step a.shared (a.thr u) c = .ok (g, l, e))
    (he : e.isSome → u = t) : SeqAt apply t s₀ (a.set u g l) (es ++ e.toList) := by
  obtain ⟨hidle, ops, hops⟩ := hq
  by_cases hu : u = t
  · subst hu
    refine ⟨fun w hw => by rw [Conf.set_thr_ne _ _ _ hw]; exact hidle w hw, ?_⟩
    simp only [Conf.set_thr_self, Conf.set_shared]
    generalize a.thr u = x at hs hops
    generalize a.shared = w at hs hops
    cases Move.of_step hs with
    | call op => exact ⟨ops, by simp [hops.1], hops.2⟩
    | stay => exact ⟨ops, by simpa using hops⟩
    | lin op => exact ⟨ops, op, by simpa using hops.1, by rw [← hops.2]⟩
    | ret r =>
      obtain ⟨op, hes, hap⟩ := hops
      refine ⟨ops ++ [op], ?_, ?_⟩
      · rw [run_append_single, List.zip_append (by simp [length_run]), callsRets_append, hes, hap]
        simp [callsRets]
      · rw [run_append_single, hap]
  · have hx : a.thr u = .idle := hidle u hu
    rw [hx] at hs
    cases Move.of_step hs with
    | call op => exact absurd (he rfl) hu
    | stay =>
      have : a.set u a.shared .idle = a := by rw [← hx]; exact Conf.set_self a u
      simpa [this] using And.intro hidle ⟨ops, hops⟩

lemma seqAt_reach {t : Tid} {a a' : Conf Tid S (Thread Op R)} {h : List (Tid × Event Op R)}
    (hr : (object apply).Reach a a' h) (hidle : ∀ u, a.thr u = .idle) (ht : ∀ x ∈ h, x.1 = t) :
    SeqAt apply t a.shared a' (h.map Prod.snd) := by
  induction hr with
  | refl => exact ⟨fun u _ => hidle u, [], by simp [hidle t, callsRets]⟩
  | @step a₁ h₁ u c g l e _ hs ih =>
    have := seqAt_step (ih fun x hx => ht x (by simp [hx])) hs fun hsome => by
      obtain ⟨x, rfl⟩ := Option.isSome_iff_exists.mp hsome
      exact ht (u, x) (by simp)
    cases e <;> simpa using this

/-- A history of the atomic object in which one thread, alone from a quiescent configuration,
makes calls that each return before the next: the returns are the sequential object's. -/
lemma sequential {t : Tid} {a a' : Conf Tid S (Thread Op R)} {h : List (Tid × Event Op R)}
    (hr : (object apply).Reach a a' h) (hidle : ∀ u, a.thr u = .idle) (ht : ∀ x ∈ h, x.1 = t)
    {calls : List (Op × R)} (hh : h.map Prod.snd = callsRets calls) :
    calls.map Prod.snd = (run apply (calls.map Prod.fst) a.shared).2 := by
  obtain ⟨-, ops, hops⟩ := seqAt_reach hr hidle ht
  split at hops
  · have hc := callsRets_injective (hh.symm.trans hops.1)
    subst hc
    rw [List.map_fst_zip _ _ (by simp [length_run]), List.map_snd_zip _ _ (by simp [length_run])]
  · exact absurd (hh.symm.trans hops.1) (callsRets_ne_append_call _ _ _)
  · obtain ⟨op, hes, -⟩ := hops
    exact absurd (hh.symm.trans hes) (callsRets_ne_append_call _ _ _)

end Atomic

end ConcurrencyInAction
