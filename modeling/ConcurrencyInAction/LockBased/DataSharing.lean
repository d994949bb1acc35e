import ConcurrencyInAction.LockBased.Monitor

/-!
# `threadsafe_stack` and `dns_cache`

Two classes of `data_sharing.cpp` that keep a container behind one mutex, as instances of the
machine of `LockBased/Monitor.lean`.

`threadsafe_stack<T>` wraps a `std::stack<T>` (top first here) and a `std::mutex`, and every
member function holds a `std::lock_guard` for its whole body. Both `pop`s test `data.empty()`
and throw `empty_stack`, then read `data.top()` and call `data.pop()`: three container calls,
between which another thread's `pop` could take the same top but for the mutex. The stack
refines the atomic stack, and no thread ever calls `top()` or `pop()` on an empty stack.

`dns_cache` keeps a `std::map<std::string, dns_entry>` behind a `std::shared_mutex`.
`find_entry` takes a `std::shared_lock` and makes two calls (`entries.find(domain)`, then the
read through the iterator), `update_or_add_entry` a `std::lock_guard` and one call. Several
`find_entry`s may hold the mutex together; an `update_or_add_entry` holds it alone, as the
comment above the class says. The cache refines the atomic map. `dns_entry` is an empty class
in the source, so the model lets it be any type, `default` being `dns_entry()`.

The copy constructor of `threadsafe_stack`, which copies another stack's data under that
stack's mutex, is a start from any contents `d`.
-/

namespace ConcurrencyInAction

open Monitor

namespace ThreadsafeStack

/-- `empty_stack::what()`. -/
def emptyStackWhat : String := "empty stack"

/-- The member functions of `threadsafe_stack<T>`. -/
inductive Op (T : Type)
  /-- `void push(T new_value)`. -/
  | push (newValue : T)
  /-- `std::shared_ptr<T> pop()`. -/
  | pop
  /-- `void pop(T& value)`. -/
  | popValue
  /-- `bool empty() const`. -/
  | empty
  deriving DecidableEq, Repr

/-- What a call returns: `pop()` a pointer to a copy of the top, `pop(T&)` the value it
assigns, `empty()` its answer, or the `empty_stack` a `pop` throws, by its `what()`. -/
inductive Ret (T : Type)
  | pushed
  | ptr (v : T)
  | value (v : T)
  | isEmpty (b : Bool)
  | threw (what : String)
  deriving DecidableEq, Repr

/-- The locals of a `pop`: before `data.empty()`, before `data.top()`, and before `data.pop()`
with the top it read. -/
inductive Local (T : Type)
  | start
  | top
  | popTop (v : T)
  deriving DecidableEq, Repr

variable {T : Type}

/-- The body of both `pop`s, `result` being how the function hands the value back:
`if(data.empty()) throw empty_stack();`, then `data.top()`, then `data.pop()`. -/
def popBody (result : T → Ret T) : Local T → List T → Micro (List T) (Local T) (Ret T)
  | .start, data => if data.isEmpty then .finish data (.threw emptyStackWhat) else .next .top
  | .top, v :: _ => .next (.popTop v)
  | .popTop v, _ :: rest => .finish rest (result v)
  | _, [] => .undefined

/-- The container call a member function makes next. -/
def exec : Op T → Local T → List T → Micro (List T) (Local T) (Ret T)
  | .push newValue, _, data => .finish (newValue :: data) .pushed
  | .pop, l, data => popBody .ptr l data
  | .popValue, l, data => popBody .value l data
  | .empty, _, data => .finish data (.isEmpty data.isEmpty)

/-- `threadsafe_stack<T>`: every member function locks `m` exclusively, and none notifies. -/
def threadsafeStack : Methods (List T) (Op T) (Local T) (Ret T) where
  mode _ := .exclusive
  start _ := .start
  exec := exec
  notifies _ := false

/-- A `pop` on its own: the top, or `empty_stack`. -/
def popApply (result : T → Ret T) : List T → List T × Ret T
  | [] => ([], .threw emptyStackWhat)
  | v :: rest => (rest, result v)

/-- The sequential stack. -/
def Op.apply : Op T → List T → List T × Ret T
  | .push v, data => (v :: data, .pushed)
  | .pop, data => popApply .ptr data
  | .popValue, data => popApply .value data
  | .empty, data => (data, .isEmpty data.isEmpty)

/-- Where a `pop` running alone on `data` can be: past the emptiness test only if `data` has a
top, and holding the top it read. -/
def PopAt : Local T → List T → Prop
  | .start, _ => True
  | .top, data => data ≠ []
  | .popTop v, data => data.head? = some v

lemma popAt_next {result : T → Ret T} {l l' : Local T} {data : List T}
    (h : popBody result l data = .next l') : PopAt l' data := by
  rcases l with _ | _ | v <;> rcases data with _ | ⟨w, rest⟩ <;>
    simp only [popBody, List.isEmpty_cons, List.isEmpty_nil, if_true, if_false,
      Bool.false_eq_true, reduceCtorEq, Micro.next.injEq] at h <;> subst h <;> simp [PopAt]

lemma popAt_of_runs {op : Op T} {data : List T} {l : Local T}
    (h : Runs threadsafeStack op data l) : PopAt l data := by
  induction h with
  | start => trivial
  | next _ he =>
    cases op <;> simp only [threadsafeStack, exec, reduceCtorEq] at he
    exacts [popAt_next he, popAt_next he]

lemma popBody_ne_undefined {result : T → Ret T} {l : Local T} {data : List T}
    (h : PopAt l data) : popBody result l data ≠ .undefined := by
  rcases l with _ | _ | v <;> rcases data with _ | ⟨w, rest⟩ <;> simp_all [PopAt, popBody]

lemma popBody_finish {result : T → Ret T} {l : Local T} {data d : List T} {r : Ret T}
    (h : PopAt l data) (he : popBody result l data = .finish d r) :
    popApply result data = (d, r) := by
  rcases l with _ | _ | v <;> rcases data with _ | ⟨w, rest⟩ <;>
    simp_all [PopAt, popBody, popApply]

/-- Run alone, each member function is the sequential stack's operation. -/
lemma threadsafeStack_implements :
    (threadsafeStack (T := T)).Implements (fun _ _ => true) Op.apply where
  defined {op _ _} h := by
    cases op <;> simp only [threadsafeStack, exec, ne_eq, reduceCtorEq, not_false_eq_true]
    all_goals exact popBody_ne_undefined (popAt_of_runs h)
  finish {op _ _ _ _} h he := by
    cases op <;> simp only [threadsafeStack, exec, Micro.finish.injEq] at he
    all_goals first
      | exact ⟨rfl, popBody_finish (popAt_of_runs h) he⟩
      | exact ⟨rfl, by rw [← he.1, ← he.2]; rfl⟩
  shared {op _ _ _ _} hm := by cases hm

variable {Tid : Type} [DecidableEq Tid] [Fintype Tid]

/-- Every history of `threadsafe_stack`, from any contents, is one of the atomic stack, and no
thread ever calls `top()` or `pop()` on an empty `std::stack`. -/
theorem threadsafeStack_linearizable {d : List T}
    {s : Conf Tid (Shared (List T) Tid) (Thread Tid (Op T) (Local T))}
    {h : List (Tid × Atomic.Event (Op T) (Ret T))}
    (hr : (monitor threadsafeStack).Reach (init d) s h) :
    (∃ a, (Atomic.object Op.apply).Reach (Monitor.atomicInit Tid d) a h ∧ a.shared = s.shared.data ∧
      ∀ t, a.thr t = absPc (s.thr t).pc) ∧
    ∀ t op l, (s.thr t).pc = .run op l → exec op l s.shared.data ≠ .undefined := by
  have hI := inv_reach threadsafeStack_implements hr
  refine ⟨?_, fun t op l h => threadsafeStack_implements.defined (hI.runs t op l h)⟩
  rw [← Atomic.blockingObject_true]
  exact monitor_refines threadsafeStack_implements hr

/-- `threadsafestack()`: `si.push(5)`, `si.pop()` gives a pointer to 5, and `si.empty()` is
true, so the `pop(x)` it guards is not made. -/
theorem threadsafeStack_linearizable_threadsafestack :
    ∃ s h, (monitor (threadsafeStack (T := Nat))).Reach (init []) s h ∧
      h = [((), .call (.push 5)), ((), .ret .pushed), ((), .call .pop), ((), .ret (.ptr 5)),
        ((), .call .empty), ((), .ret (.isEmpty true))] ∧
      ((∃ a, (Atomic.object Op.apply).Reach (Monitor.atomicInit Unit []) a h ∧ a.shared = s.shared.data ∧
        ∀ t, a.thr t = absPc (s.thr t).pc) ∧
      ∀ t op l, (s.thr t).pc = .run op l → exec op l s.shared.data ≠ .undefined) := by
  have key : (match (monitor (threadsafeStack (T := Nat))).run (init [])
      [((), .call (.push 5)), ((), .go), ((), .go), ((), .call .pop), ((), .go), ((), .go),
        ((), .go), ((), .go), ((), .call .empty), ((), .go), ((), .go)] with
    | .ok (_, h) => decide (h = [((), .call (.push 5)), ((), .ret .pushed), ((), .call .pop),
        ((), .ret (.ptr 5)), ((), .call .empty), ((), .ret (.isEmpty true))])
    | .error _ => false) = true := by decide
  split at key
  · have hr := Program.reach_of_run ‹_›
    exact ⟨_, _, hr, of_decide_eq_true key, threadsafeStack_linearizable hr⟩
  · cases key

end ThreadsafeStack

namespace DnsCache

/-- The member functions of `dns_cache`. -/
inductive Op (K V : Type)
  /-- `dns_entry find_entry(std::string const& domain)`. -/
  | findEntry (domain : K)
  /-- `void update_or_add_entry(std::string const& domain, dns_entry const& dns_details)`. -/
  | updateOrAddEntry (domain : K) (dnsDetails : V)
  deriving DecidableEq, Repr

/-- What a call returns: the entry `find_entry` copies out, or nothing. -/
inductive Ret (V : Type)
  | entry (e : V)
  | updated
  deriving DecidableEq, Repr

/-- The locals of `find_entry`: before `entries.find(domain)`, and after it, with whether the
iterator `it` is `entries.end()`. -/
inductive Local
  | start
  | found (atEnd : Bool)
  deriving DecidableEq, Repr

variable {K V : Type} [DecidableEq K] [Inhabited V]

/-- The container call a member function makes next, on `entries`. -/
def exec : Op K V → Local → (K → Option V) → Micro (K → Option V) Local (Ret V)
  | .findEntry domain, .start, entries => .next (.found (entries domain).isNone)
  | .findEntry domain, .found atEnd, entries =>
    if atEnd then .finish entries (.entry default)
    else
      match entries domain with
      | some e => .finish entries (.entry e)
      | none => .undefined
  | .updateOrAddEntry domain dnsDetails, _, entries =>
    .finish (Function.update entries domain (some dnsDetails)) .updated

/-- The mode each member function locks `entry_mutex` in. -/
def Op.mode : Op K V → Mode
  | .findEntry _ => .shared
  | .updateOrAddEntry _ _ => .exclusive

/-- `dns_cache`. -/
def dnsCache : Methods (K → Option V) (Op K V) Local (Ret V) where
  mode := Op.mode
  start _ := .start
  exec := exec
  notifies _ := false

/-- The sequential map: `find_entry` gives the entry or `dns_entry()`. -/
def Op.apply : Op K V → (K → Option V) → (K → Option V) × Ret V
  | .findEntry domain, entries => (entries, .entry ((entries domain).getD default))
  | .updateOrAddEntry domain dnsDetails, entries =>
    (Function.update entries domain (some dnsDetails), .updated)

/-- Run alone, `find_entry` has either not searched yet or holds the iterator `find` gave. -/
lemma local_of_runs {op : Op K V} {entries : K → Option V} {l : Local}
    (h : Runs dnsCache op entries l) :
    l = .start ∨ ∃ domain, op = .findEntry domain ∧ l = .found (entries domain).isNone := by
  induction h with
  | start => exact .inl rfl
  | next _ he ih =>
    rcases op with domain | ⟨domain, dnsDetails⟩
    · rcases ih with rfl | ⟨_, _, rfl⟩
      · simp only [dnsCache, exec, Micro.next.injEq] at he
        exact .inr ⟨domain, rfl, he.symm⟩
      · simp only [dnsCache, exec] at he
        split at he
        · cases he
        · split at he <;> cases he
    · simp [dnsCache, exec] at he

/-- Run alone, each member function is the sequential map's operation, and `find_entry`
changes nothing. -/
lemma dnsCache_implements :
    (dnsCache (K := K) (V := V)).Implements (fun _ _ => true) Op.apply := by
  refine ⟨fun {op entries l} h => ?_, fun {op entries l d r} h he => ?_,
    fun {op entries l d r} hm h he => ?_⟩
  · rcases local_of_runs h with rfl | ⟨domain, rfl, rfl⟩
    · cases op <;> simp [dnsCache, exec]
    · simp only [dnsCache, exec]
      cases hd : entries domain <;> simp
  · rcases local_of_runs h with rfl | ⟨domain, rfl, rfl⟩
    · rcases op with domain | ⟨domain, dnsDetails⟩
      · simp [dnsCache, exec] at he
      · simp only [dnsCache, exec, Micro.finish.injEq] at he
        rw [← he.1, ← he.2]
        exact ⟨rfl, rfl⟩
    · simp only [dnsCache, exec] at he
      cases hd : entries domain <;> simp only [hd, Option.isNone_none, Option.isNone_some,
        if_true, if_false, Bool.false_eq_true, Micro.finish.injEq] at he <;>
        simp [Op.apply, hd, ← he.1, ← he.2]
  · rcases local_of_runs h with rfl | ⟨domain, rfl, rfl⟩
    · rcases op with domain | ⟨domain, dnsDetails⟩
      · simp [dnsCache, exec] at he
      · cases hm
    · simp only [dnsCache, exec] at he
      split at he
      · exact (Micro.finish.inj he).1.symm
      · split at he
        · exact (Micro.finish.inj he).1.symm
        · cases he

variable {Tid : Type} [DecidableEq Tid] [Fintype Tid]

/-- Every history of `dns_cache` is one of the atomic map, and no `find_entry` reads through an
iterator to an entry that is no longer there. -/
theorem dnsCache_linearizable {d : K → Option V}
    {s : Conf Tid (Shared (K → Option V) Tid) (Thread Tid (Op K V) Local)}
    {h : List (Tid × Atomic.Event (Op K V) (Ret V))}
    (hr : (monitor dnsCache).Reach (init d) s h) :
    (∃ a, (Atomic.object Op.apply).Reach (Monitor.atomicInit Tid d) a h ∧ a.shared = s.shared.data ∧
      ∀ t, a.thr t = absPc (s.thr t).pc) ∧
    ∀ t op l, (s.thr t).pc = .run op l → exec op l s.shared.data ≠ .undefined := by
  have hI := inv_reach dnsCache_implements hr
  refine ⟨?_, fun t op l h => dnsCache_implements.defined (hI.runs t op l h)⟩
  rw [← Atomic.blockingObject_true]
  exact monitor_refines dnsCache_implements hr

/-- The run in which `find_entry("a")` and `find_entry("b")` on an empty cache hold
`entry_mutex` together and both return `dns_entry()`. -/
theorem dnsCache_linearizable_two_readers :
    ∃ s h, (monitor (dnsCache (K := String) (V := Unit))).Reach (init fun _ => none) s h ∧
      h = [(0, .call (.findEntry "a")), (1, .call (.findEntry "b")), (0, .ret (.entry ())),
        (1, .ret (.entry ()))] ∧
      ((∃ a, (Atomic.object Op.apply).Reach (Monitor.atomicInit (Fin 2) fun _ => none) a h ∧
        a.shared = s.shared.data ∧ ∀ t, a.thr t = absPc (s.thr t).pc) ∧
      ∀ t op l, (s.thr t).pc = .run op l → exec op l s.shared.data ≠ .undefined) := by
  have key : (match (monitor (dnsCache (K := String) (V := Unit))).run
      (init (fun _ => none) : Conf (Fin 2) _ _)
      [(0, .call (.findEntry "a")), (0, .go), (1, .call (.findEntry "b")), (1, .go), (0, .go),
        (1, .go), (0, .go), (1, .go)] with
    | .ok (_, h) => decide (h = [(0, .call (.findEntry "a")), (1, .call (.findEntry "b")),
        (0, .ret (.entry ())), (1, .ret (.entry ()))])
    | .error _ => false) = true := by decide
  split at key
  · have hr := Program.reach_of_run ‹_›
    exact ⟨_, _, hr, of_decide_eq_true key, dnsCache_linearizable hr⟩
  · cases key

end DnsCache

end ConcurrencyInAction
