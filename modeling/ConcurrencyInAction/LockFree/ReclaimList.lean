import ConcurrencyInAction.Interleaving
import Mathlib.Algebra.BigOperators.Group.Finset
import Mathlib.Data.Multiset.Range
import Mathlib.Tactic.Abel

/-!
# The reclaim list: `reclaim_later`, `add_to_reclaim_list`, `delete_nodes_with_no_hazards`

`lock_free.cpp` wraps a pointer to be freed in a `data_to_reclaim` entry and pushes it on the
list `nodes_to_reclaim` with a compare-exchange loop. `delete_nodes_with_no_hazards` takes the
whole list with `exchange(nullptr)` and walks it privately: each entry that
`outstanding_hazard_pointers_for` clears is deleted (its destructor runs the deleter), the
others are pushed back with `add_to_reclaim_list`.

Threads call `reclaim_later` and `delete_nodes_with_no_hazards` in any interleaving, and
`outstanding_hazard_pointers_for` may give any answer at each call (the code's answers
`false`): the scheduler's choice at the test gives it. Every load, store, exchange and
compare-exchange is one step. `compare_exchange_weak` is modelled without spurious failures,
which would only repeat the load it does on failure.

Every allocated entry is in exactly one place: the list `nodes_to_reclaim`, once; the hands of
one thread (the entry it is pushing with `add_to_reclaim_list`, and, for a thread inside
`delete_nodes_with_no_hazards`, the rest of the list it took); or deleted. A fresh entry of
`reclaim_later` sits in the pushing thread's hands until its compare-exchange succeeds, outside
the list and outside every draining thread's chain.
-/

namespace ConcurrencyInAction

namespace ReclaimList

/-- `data_to_reclaim`: the wrapped pointer and `next`. The deleter is `do_delete<T>`, which the
destructor runs on `data`. -/
structure Entry where
  data : Nat
  next : Option Nat
  deriving DecidableEq, Repr

/-- The shared state: `nodes_to_reclaim`, the heap of entries, the next fresh address, and
(ghost) the entries whose destructor ran, latest first. -/
structure Shared where
  nodesToReclaim : Option Nat
  heap : Nat → Option Entry
  alloc : Nat
  deleterRuns : List Nat

/-- Where `add_to_reclaim_list` returns to: `reclaim_later`, or the loop of
`delete_nodes_with_no_hazards` with its `next`. -/
inductive Caller
  | reclaimLater
  | drain (next : Option Nat)
  deriving DecidableEq, Repr

/-- Program counters, with the locals live at each. -/
inductive Local
  | idle
  /-- `node->next = nodes_to_reclaim.load()`. -/
  | addLoad (node : Nat) (caller : Caller)
  /-- `while(!nodes_to_reclaim.compare_exchange_weak(node->next, node))`. -/
  | addCas (node : Nat) (caller : Caller)
  /-- `current = nodes_to_reclaim.exchange(nullptr)`. -/
  | take
  /-- `while(current)`. -/
  | test (current : Option Nat)
  /-- `next = current->next`. -/
  | readNext (current : Nat)
  /-- `if(!outstanding_hazard_pointers_for(current->data)) delete current; else
  add_to_reclaim_list(current);` -/
  | check (current : Nat) (next : Option Nat)
  deriving DecidableEq, Repr

/-- Scheduler choices: call `reclaim_later(data)` or `delete_nodes_with_no_hazards()`, or run,
with the answer `outstanding_hazard_pointers_for` gives if this step asks it. -/
inductive Choice
  | reclaimLater (data : Nat)
  | deleteNodes
  | go (hazard : Bool)
  deriving DecidableEq, Repr

/-- The answer of `outstanding_hazard_pointers_for` at this step. -/
def Choice.hazard : Choice → Bool
  | .go b => b
  | _ => false

/-- Where `add_to_reclaim_list` returns. -/
def Caller.resume : Caller → Local
  | .reclaimLater => .idle
  | .drain next => .test next

namespace Shared

/-- Dereference an entry. -/
def read (g : Shared) (p : Nat) : Except Fault Entry :=
  match g.heap p with
  | some e => .ok e
  | none => .error .useAfterFree

/-- Store into an entry. -/
def write (g : Shared) (p : Nat) (e : Entry) : Shared :=
  { g with heap := Function.update g.heap p (some e) }

/-- `new data_to_reclaim(data)`. -/
def new (g : Shared) (data : Nat) : Shared :=
  { g with heap := Function.update g.heap g.alloc (some ⟨data, none⟩), alloc := g.alloc + 1 }

/-- `delete current`: the destructor runs the deleter, then the entry is freed. -/
def delete (g : Shared) (p : Nat) : Except Fault Shared :=
  match g.heap p with
  | some _ => .ok { g with heap := Function.update g.heap p none, deleterRuns := p :: g.deleterRuns }
  | none => .error .doubleFree

end Shared

/-- One atomic step of a thread. -/
def step (g : Shared) : Local → Choice → Except Fault (Shared × Local)
  | .idle, .reclaimLater data => .ok (g.new data, .addLoad g.alloc .reclaimLater)
  | .idle, .deleteNodes => .ok (g, .take)
  | .idle, .go _ => .ok (g, .idle)
  | .addLoad node k, _ => do
    let e ← g.read node
    return (g.write node { e with next := g.nodesToReclaim }, .addCas node k)
  | .addCas node k, _ => do
    let e ← g.read node
    if g.nodesToReclaim = e.next then return ({ g with nodesToReclaim := some node }, k.resume)
    else return (g.write node { e with next := g.nodesToReclaim }, .addCas node k)
  | .take, _ => .ok ({ g with nodesToReclaim := none }, .test g.nodesToReclaim)
  | .test none, _ => .ok (g, .idle)
  | .test (some c), _ => .ok (g, .readNext c)
  | .readNext c, _ => do
    let e ← g.read c
    return (g, .check c e.next)
  | .check c next, ch => do
    let _ ← g.read c
    if ch.hazard then return (g, .addLoad c (.drain next))
    else do
      let g' ← g.delete c
      return (g', .test next)

/-- The reclaim list's functions as a program; they emit no events. -/
def reclaimList : Program Shared Local Choice Unit :=
  ⟨fun g l c => (step g l c).map fun r => (r.1, r.2, none)⟩

/-- Nothing allocated, every thread idle. -/
def init (Tid : Type) : Conf Tid Shared Local :=
  ⟨⟨none, fun _ => none, 0, []⟩, fun _ => .idle⟩

/-! ### What a step can do -/

/-- The transitions of a thread, one constructor per step of the code; `keep` and `delete` are
the two answers of `outstanding_hazard_pointers_for`. -/
inductive Move : Shared → Local → Shared → Local → Prop
  | reclaimLater (g : Shared) (data : Nat) :
      Move g .idle (g.new data) (.addLoad g.alloc .reclaimLater)
  | deleteNodes (g : Shared) : Move g .idle g .take
  | stay (g : Shared) : Move g .idle g .idle
  | load (g : Shared) (node : Nat) (k : Caller) (e : Entry) (hn : g.heap node = some e) :
      Move g (.addLoad node k) (g.write node { e with next := g.nodesToReclaim }) (.addCas node k)
  | linked (g : Shared) (node : Nat) (k : Caller) (e : Entry) (hn : g.heap node = some e)
      (hh : g.nodesToReclaim = e.next) :
      Move g (.addCas node k) { g with nodesToReclaim := some node } k.resume
  | retry (g : Shared) (node : Nat) (k : Caller) (e : Entry) (hn : g.heap node = some e) :
      Move g (.addCas node k) (g.write node { e with next := g.nodesToReclaim }) (.addCas node k)
  | take (g : Shared) : Move g .take { g with nodesToReclaim := none } (.test g.nodesToReclaim)
  | finish (g : Shared) : Move g (.test none) g .idle
  | next (g : Shared) (c : Nat) : Move g (.test (some c)) g (.readNext c)
  | readNext (g : Shared) (c : Nat) (e : Entry) (hc : g.heap c = some e) :
      Move g (.readNext c) g (.check c e.next)
  | keep (g : Shared) (c : Nat) (next : Option Nat) (e : Entry) (hc : g.heap c = some e) :
      Move g (.check c next) g (.addLoad c (.drain next))
  | delete (g : Shared) (c : Nat) (next : Option Nat) (e : Entry) (hc : g.heap c = some e) :
      Move g (.check c next)
        { g with heap := Function.update g.heap c none, deleterRuns := c :: g.deleterRuns }
        (.test next)

/-- Peel one `read` or `delete` off a step. -/
private lemma rl_bind_ok {β γ : Type} {x : Except Fault β} {f : β → Except Fault γ} {r : γ}
    (h : (x >>= f) = .ok r) : ∃ b, x = .ok b ∧ f b = .ok r := by
  cases x with
  | error e => cases h
  | ok b => exact ⟨b, rfl, h⟩

private lemma rl_read_ok {g : Shared} {p : Nat} {e : Entry} (h : g.read p = .ok e) :
    g.heap p = some e := by
  unfold Shared.read at h; split at h <;> simp_all

lemma move_of_step {g g' : Shared} {l l' : Local} {c : Choice}
    (h : step g l c = .ok (g', l')) : Move g l g' l' := by
  cases l with
  | idle => cases c <;> cases h; exacts [.reclaimLater g _, .deleteNodes g, .stay g]
  | addLoad node k =>
    obtain ⟨e, he, h⟩ := rl_bind_ok h
    cases h
    exact .load g node k e (rl_read_ok he)
  | addCas node k =>
    obtain ⟨e, he, h⟩ := rl_bind_ok h
    split at h <;> cases h
    exacts [.linked g node k e (rl_read_ok he) ‹_›, .retry g node k e (rl_read_ok he)]
  | take => cases h; exact .take g
  | test current => rcases current with _ | c <;> cases h; exacts [.finish g, .next g c]
  | readNext c =>
    obtain ⟨e, he, h⟩ := rl_bind_ok h
    cases h
    exact .readNext g c e (rl_read_ok he)
  | check c next =>
    obtain ⟨e, he, h⟩ := rl_bind_ok h
    split at h
    · cases h; exact .keep g c next e (rl_read_ok he)
    · obtain ⟨g₁, hg, h⟩ := rl_bind_ok h
      cases h
      unfold Shared.delete at hg
      split at hg <;> cases hg
      exact .delete g c next e (rl_read_ok he)

lemma move_of_program_step {g g' : Shared} {l l' : Local} {c : Choice} {e : Option Unit}
    (h : reclaimList.step g l c = .ok (g', l', e)) : Move g l g' l' := by
  simp only [reclaimList] at h
  cases hs : step g l c with
  | error f => rw [hs] at h; cases h
  | ok r => rw [hs] at h; cases h; exact move_of_step hs

/-- The entry the next step of a thread reads or deletes, if any. -/
def Local.touches : Local → Option Nat
  | .addLoad node _ | .addCas node _ | .check node _ => some node
  | .readNext c => some c
  | _ => none

/-- A step faults only on an entry that is not allocated. -/
lemma step_error {g : Shared} {l : Local} {c : Choice} {f : Fault} (h : step g l c = .error f) :
    ∃ p, l.touches = some p ∧ g.heap p = none := by
  have hread : ∀ {β : Type} {p : Nat} {k : Entry → Except Fault β},
      (g.read p >>= k) = .error f → (∀ e, k e ≠ .error f) → g.heap p = none := by
    intro β p k h hk
    unfold Shared.read at h
    split at h
    · exact absurd h (hk _)
    · assumption
  cases l with
  | idle => cases c <;> cases h
  | addLoad node k => exact ⟨node, rfl, hread h fun _ => nofun⟩
  | addCas node k => exact ⟨node, rfl, hread h fun _ => by split <;> nofun⟩
  | take => cases h
  | test current => rcases current with _ | c <;> cases h
  | readNext c => exact ⟨c, rfl, hread h fun _ => nofun⟩
  | check c next =>
    refine ⟨c, rfl, ?_⟩
    cases hc : g.heap c with
    | none => rfl
    | some e =>
      simp only [step, Shared.read, hc, Shared.delete] at h
      split at h <;> cases h

/-! ### Lists of entries -/

/-- Following `next` from `c` visits the entries `ns` and ends at a null pointer. -/
def Linked (heap : Nat → Option Entry) : Option Nat → List Nat → Prop
  | c, [] => c = none
  | c, p :: ns => c = some p ∧ ∃ e, heap p = some e ∧ Linked heap e.next ns

variable {heap heap' : Nat → Option Entry}

lemma linked_none {ns : List Nat} : Linked heap none ns ↔ ns = [] := by
  cases ns <;> simp [Linked]

lemma Linked.live {c : Option Nat} {ns : List Nat} (h : Linked heap c ns) {p : Nat}
    (hp : p ∈ ns) : heap p ≠ none := by
  induction ns generalizing c with
  | nil => cases hp
  | cons q ns ih =>
    obtain ⟨-, e, he, hc⟩ := h
    rcases List.mem_cons.1 hp with rfl | hp
    · simp [he]
    · exact ih hc hp

lemma Linked.congr {c : Option Nat} {ns : List Nat} (h : Linked heap c ns)
    (he : ∀ p ∈ ns, heap' p = heap p) : Linked heap' c ns := by
  induction ns generalizing c with
  | nil => exact h
  | cons q ns ih =>
    obtain ⟨rfl, e, hq, hc⟩ := h
    exact ⟨rfl, e, (he q (List.mem_cons_self _ _)).trans hq,
      ih hc fun p hp => he p (List.mem_cons_of_mem _ hp)⟩

/-! ### Where the entries are -/

/-- The entry a thread has in hand: the one it pushes, or the one it is about to test. -/
def Local.node : Local → Option Nat
  | .addLoad node _ | .addCas node _ | .check node _ => some node
  | _ => none

/-- Where the list a thread holds privately starts: the rest of the list
`delete_nodes_with_no_hazards` took. -/
def Local.chain : Local → Option Nat
  | .addLoad _ (.drain next) | .addCas _ (.drain next) => next
  | .test current => current
  | .readNext c => some c
  | .check _ next => next
  | _ => none

/-- The entries a thread holds: the one in hand, then its private list `P`. -/
def Local.held (l : Local) (P : List Nat) : List Nat := l.node.toList ++ P

@[simp] lemma resume_node (k : Caller) : k.resume.node = none := by cases k <;> rfl

@[simp] lemma resume_chain (k : Caller) : k.resume.chain = (Local.addCas 0 k).chain := by
  cases k <;> rfl

section Places

variable {Tid : Type} [Fintype Tid] [DecidableEq Tid]

/-- Where every entry is, with `L` the list from `nodes_to_reclaim` and `P t` the private list
of thread `t`: the lists are linked, the entries in hand are allocated, the deleted ones
freed, no address from `alloc` on is in use, and the list, the threads' holdings and the
deleted entries together are the allocated addresses, each once. -/
structure Places (s : Conf Tid Shared Local) (L : List Nat) (P : Tid → List Nat) : Prop where
  list : Linked s.shared.heap s.shared.nodesToReclaim L
  chain : ∀ t, Linked s.shared.heap (s.thr t).chain (P t)
  node : ∀ t p, (s.thr t).node = some p → s.shared.heap p ≠ none
  deleted : ∀ p ∈ s.shared.deleterRuns, s.shared.heap p = none
  fresh : ∀ p, s.shared.alloc ≤ p → s.shared.heap p = none
  placed : (L : Multiset Nat) + ∑ t, ((s.thr t).held (P t) : Multiset Nat) +
    (s.shared.deleterRuns : Multiset Nat) = Multiset.range s.shared.alloc

variable {s : Conf Tid Shared Local} {L : List Nat} {P : Tid → List Nat}

/-- The entries a thread holds are nowhere else, and it holds each once. -/
lemma Places.disjoint (h : Places s L P) (v : Tid) :
    ((s.thr v).held (P v)).Nodup ∧ ∀ x ∈ (s.thr v).held (P v),
      x ∉ L ∧ x ∉ s.shared.deleterRuns ∧ ∀ t, t ≠ v → x ∉ (s.thr t).held (P t) := by
  have hnd := Multiset.nodup_range s.shared.alloc
  rw [← h.placed, ← Finset.add_sum_erase _ _ (Finset.mem_univ v)] at hnd
  have hre : (L : Multiset Nat) + (((s.thr v).held (P v) : Multiset Nat) +
      ∑ t ∈ Finset.univ.erase v, ((s.thr t).held (P t) : Multiset Nat)) + s.shared.deleterRuns =
      ((s.thr v).held (P v) : Multiset Nat) + ((L : Multiset Nat) +
      ∑ t ∈ Finset.univ.erase v, ((s.thr t).held (P t) : Multiset Nat) + s.shared.deleterRuns) := by
    abel
  rw [hre] at hnd
  obtain ⟨hv, -, hdis⟩ := Multiset.nodup_add.1 hnd
  refine ⟨Multiset.coe_nodup.1 hv, fun x hx => ?_⟩
  have hx' := Multiset.disjoint_left.1 hdis (Multiset.mem_coe.2 hx)
  simp only [Multiset.mem_add, Multiset.mem_coe, not_or] at hx'
  refine ⟨hx'.1.1, hx'.2, fun t ht hxt => hx'.1.2 ?_⟩
  exact Multiset.mem_sum.2 ⟨t, Finset.mem_erase.2 ⟨ht, Finset.mem_univ t⟩, Multiset.mem_coe.2 hxt⟩

omit [DecidableEq Tid] in
/-- Deleted entries were allocated. -/
lemma Places.lt_alloc_of_deleted (h : Places s L P) {p : Nat}
    (hp : p ∈ s.shared.deleterRuns) : p < s.shared.alloc := by
  rw [← Multiset.mem_range, ← h.placed]
  exact Multiset.mem_add.2 (Or.inr (Multiset.mem_coe.2 hp))

/-- An entry moving from the list to a thread's holdings. -/
private lemma rl_cons_shift (a : Nat) (l₁ l₂ l₃ : List Nat) :
    (↑(a :: l₁) : Multiset Nat) + ↑l₂ + ↑l₃ = ↑l₁ + ↑(a :: l₂) + ↑l₃ := by
  simp only [← Multiset.cons_coe, Multiset.cons_add, Multiset.add_cons]

/-- An entry moving from a thread's holdings to the deleted ones. -/
private lemma rl_cons_shift_deleted (a : Nat) (l₁ l₂ l₃ : List Nat) :
    (↑l₁ : Multiset Nat) + ↑l₂ + ↑(a :: l₃) = ↑l₁ + ↑(a :: l₂) + ↑l₃ := by
  simp only [← Multiset.cons_coe, Multiset.cons_add, Multiset.add_cons]

private lemma rl_sum_update {M : Type} [AddCommMonoid M] (f f' : Tid → M) (v : Tid)
    (hf : ∀ t, t ≠ v → f' t = f t) : ∑ t, f' t + f v = ∑ t, f t + f' v := by
  rw [← Finset.add_sum_erase _ f' (Finset.mem_univ v), ← Finset.add_sum_erase _ f (Finset.mem_univ v),
    Finset.sum_congr rfl fun t ht => hf t (Finset.ne_of_mem_erase ht)]
  abel

/-- A step of thread `v` keeps `Places` when the new list and the mover's new holdings are
linked, the other threads' entries are untouched, and the entries moved from place to place
(plus any fresh ones, `extra`) are the same. -/
lemma Places.set (h : Places s L P) {v : Tid} {g : Shared} {l : Local} (L' Pv : List Nat)
    (extra : Multiset Nat) (hlist : Linked g.heap g.nodesToReclaim L')
    (hchain : Linked g.heap l.chain Pv) (hnode : ∀ p, l.node = some p → g.heap p ≠ none)
    (hother : ∀ t, t ≠ v → ∀ p ∈ (s.thr t).held (P t), g.heap p = s.shared.heap p)
    (hdeleted : ∀ p ∈ g.deleterRuns, g.heap p = none)
    (hfresh : ∀ p, g.alloc ≤ p → g.heap p = none)
    (hloc : (L' : Multiset Nat) + (l.held Pv : Multiset Nat) + g.deleterRuns =
      L + ((s.thr v).held (P v) : Multiset Nat) + s.shared.deleterRuns + extra)
    (halloc : Multiset.range g.alloc = Multiset.range s.shared.alloc + extra) :
    Places (s.set v g l) L' (Function.update P v Pv) where
  list := hlist
  chain t := by
    by_cases ht : t = v
    · subst ht; simpa using hchain
    · rw [Conf.set_thr_ne _ _ _ ht, Function.update_noteq ht]
      exact (h.chain t).congr fun p hp => hother t ht p (List.mem_append_right _ hp)
  node t p hp := by
    by_cases ht : t = v
    · subst ht; exact hnode p (by simpa using hp)
    · rw [Conf.set_thr_ne _ _ _ ht] at hp
      rw [Conf.set_shared, hother t ht p (by simp [Local.held, hp])]
      exact h.node t p hp
  deleted := hdeleted
  fresh := hfresh
  placed := by
    have hsum := rl_sum_update (fun t => ((s.thr t).held (P t) : Multiset Nat))
      (fun t => (((s.set v g l).thr t).held (Function.update P v Pv t) : Multiset Nat)) v
      fun t ht => by simp only [Conf.set_thr_ne _ _ _ ht, Function.update_noteq ht]
    simp only [Conf.set_thr_self, Function.update_same] at hsum
    rw [Conf.set_shared, halloc, ← h.placed]
    apply add_right_cancel (b := ((s.thr v).held (P v) : Multiset Nat))
    calc _ = (L' : Multiset Nat) + (∑ t, (((s.set v g l).thr t).held (Function.update P v Pv t) :
            Multiset Nat) + ((s.thr v).held (P v) : Multiset Nat)) + g.deleterRuns := by abel
      _ = (L' : Multiset Nat) + (l.held Pv : Multiset Nat) + g.deleterRuns +
            ∑ t, ((s.thr t).held (P t) : Multiset Nat) := by rw [hsum]; abel
      _ = _ := by rw [hloc]; abel

omit [DecidableEq Tid] in
/-- Every entry a thread holds is allocated. -/
lemma Places.live (h : Places s L P) {t : Tid} {p : Nat} (hp : p ∈ (s.thr t).held (P t)) :
    s.shared.heap p ≠ none := by
  rcases List.mem_append.1 hp with hp | hp
  · exact h.node t p (Option.mem_toList.1 hp)
  · exact (h.chain t).live hp

/-- A thread that stores into the entry in its hand and keeps what it holds keeps the entries
placed. -/
lemma Places.write_own (h : Places s L P) {v : Tid} {node : Nat} {e e' : Entry} {l : Local}
    (hn : s.shared.heap node = some e) (hnode : (s.thr v).node = some node)
    (hl : l.node = some node) (hc : l.chain = (s.thr v).chain) :
    Places (s.set v (s.shared.write node e') l) L (Function.update P v (P v)) := by
  obtain ⟨hnd, hdis⟩ := h.disjoint v
  have hheld : (s.thr v).held (P v) = node :: P v := by simp [Local.held, hnode]
  obtain ⟨hL, hD, hT⟩ := hdis node (by rw [hheld]; exact List.mem_cons_self _ _)
  have hP : node ∉ P v := (List.nodup_cons.1 (hheld ▸ hnd)).1
  have hfr : ∀ p, s.shared.alloc ≤ p → p ≠ node := fun p hp hpn => by
    have := h.fresh p hp; simp_all
  refine h.set L (P v) 0
    (h.list.congr fun p hp => Function.update_noteq (ne_of_mem_of_not_mem hp hL) _ _)
    (hc ▸ (h.chain v).congr fun p hp => Function.update_noteq (ne_of_mem_of_not_mem hp hP) _ _)
    (fun p hp => by rw [hl] at hp; cases hp; simp [Shared.write])
    (fun t ht p hp => Function.update_noteq (ne_of_mem_of_not_mem hp (hT t ht)) _ _)
    (fun p hp => (Function.update_noteq (ne_of_mem_of_not_mem hp hD) _ _).trans (h.deleted p hp))
    (fun p hp => (Function.update_noteq (hfr p hp) _ _).trans (h.fresh p hp))
    (by simp [Local.held, hl, hnode, Shared.write]) (add_zero _).symm

/-- Every step keeps the entries placed. -/
lemma Places.step (h : Places s L P) {v : Tid} {g : Shared} {l : Local}
    (hm : Move s.shared (s.thr v) g l) : ∃ L' P', Places (s.set v g l) L' P' := by
  obtain ⟨hnd, hdis⟩ := h.disjoint v
  have hch := h.chain v
  generalize hx : s.thr v = x at hm hnd hdis hch
  cases hm with
  | reclaimLater d =>
    have hPv : P v = [] := linked_none.1 hch
    have ha : s.shared.heap s.shared.alloc = none := h.fresh _ le_rfl
    have hne : ∀ p, s.shared.heap p ≠ none → p ≠ s.shared.alloc := fun p hp hpa => hp (hpa ▸ ha)
    refine ⟨L, _, h.set L [] {s.shared.alloc}
      (h.list.congr fun p hp => Function.update_noteq (hne p (h.list.live hp)) _ _) rfl
      (fun p hp => by cases hp; simp [Shared.new])
      (fun t _ p hp => Function.update_noteq (hne p (h.live hp)) _ _)
      (fun p hp => (Function.update_noteq (Nat.ne_of_lt (h.lt_alloc_of_deleted hp)) _ _).trans
        (h.deleted p hp))
      (fun p hp => (Function.update_noteq (by simp only [Shared.new] at hp; omega) _ _).trans
        (h.fresh p (by simp only [Shared.new] at hp; omega)))
      (by rw [hx, hPv]; simp [Local.held, Local.node, Shared.new]; rw [← Multiset.coe_add]; abel)
      (by rw [Shared.new, Multiset.range_succ, add_comm, Multiset.singleton_add])⟩
  | deleteNodes =>
    have hPv : P v = [] := linked_none.1 hch
    exact ⟨L, _, h.set L [] 0 h.list rfl (fun p hp => by cases hp) (fun _ _ _ _ => rfl) h.deleted
      h.fresh (by rw [hx, hPv]; simp [Local.held, Local.node]) (add_zero _).symm⟩
  | stay =>
    have hPv : P v = [] := linked_none.1 hch
    exact ⟨L, _, h.set L [] 0 h.list rfl (fun p hp => by cases hp) (fun _ _ _ _ => rfl) h.deleted
      h.fresh (by rw [hx, hPv]; simp [Local.held, Local.node]) (add_zero _).symm⟩
  | load node k e hn =>
    exact ⟨L, _, h.write_own hn (by rw [hx]; rfl) rfl (by rw [hx]; cases k <;> rfl)⟩
  | retry node k e hn =>
    exact ⟨L, _, h.write_own hn (by rw [hx]; rfl) rfl (by rw [hx])⟩
  | linked node k e hn hh =>
    refine ⟨node :: L, _, h.set (node :: L) (P v) 0 ⟨rfl, e, hn, hh ▸ h.list⟩
      (by rw [resume_chain]; cases k <;> exact hch) (fun p hp => by simp at hp)
      (fun _ _ _ _ => rfl) h.deleted h.fresh ?_ (add_zero _).symm⟩
    rw [hx, add_zero, show k.resume.held (P v) = P v by simp [Local.held]]
    exact rl_cons_shift node L (P v) _
  | take =>
    have hPv : P v = [] := linked_none.1 hch
    exact ⟨[], _, h.set [] L 0 rfl h.list (fun p hp => by cases hp) (fun _ _ _ _ => rfl) h.deleted
      h.fresh (by rw [hx, hPv]; simp [Local.held, Local.node]) (add_zero _).symm⟩
  | finish =>
    have hPv : P v = [] := linked_none.1 hch
    exact ⟨L, _, h.set L [] 0 h.list rfl (fun p hp => by cases hp) (fun _ _ _ _ => rfl) h.deleted
      h.fresh (by rw [hx, hPv]; simp [Local.held, Local.node]) (add_zero _).symm⟩
  | next c =>
    exact ⟨L, _, h.set L (P v) 0 h.list hch (fun p hp => by cases hp) (fun _ _ _ _ => rfl)
      h.deleted h.fresh (by rw [hx, add_zero]; rfl) (add_zero _).symm⟩
  | readNext c e hc =>
    obtain ⟨q, P₁, hPv, hq, e', he', hrest⟩ : ∃ q P₁, P v = q :: P₁ ∧ some c = some q ∧
        ∃ e', s.shared.heap q = some e' ∧ Linked s.shared.heap e'.next P₁ := by
      cases hP : P v with
      | nil => rw [hP] at hch; cases hch
      | cons q P₁ => rw [hP] at hch; exact ⟨q, P₁, rfl, hch⟩
    cases hq
    rw [hc] at he'
    cases he'
    exact ⟨L, _, h.set L P₁ 0 h.list hrest (fun p hp => by cases hp; simp [hc])
      (fun _ _ _ _ => rfl) h.deleted h.fresh (by rw [hx, hPv, add_zero]; rfl) (add_zero _).symm⟩
  | keep c next e hc =>
    exact ⟨L, _, h.set L (P v) 0 h.list hch (fun p hp => by cases hp; simp [hc])
      (fun _ _ _ _ => rfl) h.deleted h.fresh (by rw [hx, add_zero]; rfl) (add_zero _).symm⟩
  | delete c next e hc =>
    have hmem : c ∈ (Local.check c next).held (P v) := List.mem_cons_self _ _
    obtain ⟨hL, hD, hT⟩ := hdis c hmem
    have hP : c ∉ P v := (List.nodup_cons.1 hnd).1
    refine ⟨L, _, h.set L (P v) 0
      (h.list.congr fun p hp => Function.update_noteq (ne_of_mem_of_not_mem hp hL) _ _)
      (hch.congr fun p hp => Function.update_noteq (ne_of_mem_of_not_mem hp hP) _ _)
      (fun p hp => by cases hp)
      (fun t ht p hp => Function.update_noteq (ne_of_mem_of_not_mem hp (hT t ht)) _ _)
      (fun p hp => ?_) (fun p hp => ?_) ?_ (add_zero _).symm⟩
    · show Function.update s.shared.heap c none p = none
      by_cases hpc : p = c
      · rw [hpc, Function.update_same]
      · simp only [List.mem_cons, hpc, false_or] at hp
        rw [Function.update_noteq hpc, h.deleted p hp]
    · show Function.update s.shared.heap c none p = none
      by_cases hpc : p = c
      · rw [hpc, Function.update_same]
      · rw [Function.update_noteq hpc, h.fresh p hp]
    · rw [hx, add_zero]
      exact rl_cons_shift_deleted c L (P v) _

omit [DecidableEq Tid] in
lemma places_init : Places (init Tid) [] fun _ => [] where
  list := rfl
  chain _ := rfl
  node _ _ h := by cases h
  deleted _ h := by cases h
  fresh _ _ := rfl
  placed := by simp [init, Local.held, Local.node]

lemma places_reach {s : Conf Tid Shared Local} {h : List (Tid × Unit)}
    (hr : reclaimList.Reach (init Tid) s h) : ∃ L P, Places s L P :=
  hr.inv (fun s => ∃ L P, Places s L P) ⟨_, _, places_init⟩
    fun _ _ _ _ _ _ ⟨_, _, hp⟩ hstep => hp.step (move_of_program_step hstep)

omit [DecidableEq Tid] in
/-- No step of a placed configuration faults: every entry a thread reads, writes or deletes is
allocated. -/
lemma Places.noFault (h : Places s L P) (f : Fault) : reclaimList.NoFault f s := by
  intro t c hstep
  have herr : ReclaimList.step s.shared (s.thr t) c = .error f := by
    simp only [reclaimList] at hstep
    cases hs : ReclaimList.step s.shared (s.thr t) c with
    | error f' => rw [hs] at hstep; cases hstep; rfl
    | ok r => rw [hs] at hstep; cases hstep
  obtain ⟨p, hp, hfree⟩ := step_error herr
  refine h.live (t := t) ?_ hfree
  have hch := h.chain t
  generalize s.thr t = x at hp hch
  cases x <;> simp only [Local.touches, Option.some.injEq, reduceCtorEq] at hp <;> subst hp <;>
    simp only [Local.held, Local.node, Option.toList_some, List.singleton_append,
      List.mem_cons_self]
  cases hP : P t with
  | nil => rw [hP] at hch; cases hch
  | cons q P₁ =>
    rw [hP] at hch
    obtain ⟨hq, -⟩ := hch
    simp only [Local.chain, Option.some.injEq] at hq
    simp [hq]

/-- For any number of threads calling `reclaim_later` and `delete_nodes_with_no_hazards` in any
interleaving, with any answers of `outstanding_hazard_pointers_for`: every allocated
`data_to_reclaim` entry is in exactly one place, and nothing else is anywhere. The places are
the list `nodes_to_reclaim` starts (`L`), the holdings of each thread `t` (the entry it pushes
or tests, then the rest `P t` of the list it took), and the deleted entries. Each entry's
deleter runs at most once, and no step faults. -/
theorem reclaimList_entries_placed {s : Conf Tid Shared Local} {h : List (Tid × Unit)}
    (hr : reclaimList.Reach (init Tid) s h) :
    (∃ (L : List Nat) (P : Tid → List Nat), Linked s.shared.heap s.shared.nodesToReclaim L ∧
      (∀ t, Linked s.shared.heap (s.thr t).chain (P t)) ∧
      ∀ a, L.count a + ∑ t, ((s.thr t).held (P t)).count a + s.shared.deleterRuns.count a =
        if a < s.shared.alloc then 1 else 0) ∧
    s.shared.deleterRuns.Nodup ∧ ∀ f, reclaimList.NoFault f s := by
  obtain ⟨L, P, hp⟩ := places_reach hr
  have hnd := Multiset.nodup_range s.shared.alloc
  rw [← hp.placed] at hnd
  refine ⟨⟨L, P, hp.list, hp.chain, fun a => ?_⟩, Multiset.coe_nodup.1 (Multiset.nodup_add.1 hnd).2.1,
    hp.noFault⟩
  have hcount := congrArg (Multiset.count a) hp.placed
  simp only [Multiset.count_add, Multiset.count_sum', Multiset.coe_count] at hcount
  rw [hcount]
  split
  · exact Multiset.count_eq_one_of_mem (Multiset.nodup_range _) (Multiset.mem_range.2 ‹_›)
  · exact Multiset.count_eq_zero_of_not_mem (mt Multiset.mem_range.1 ‹_›)

end Places

/-- Thread 0 pushes three entries with `reclaim_later`; thread 1 takes the list, deletes the top
entry and is pushing the next back (the hazard check answered yes), its private chain still
holding the last; thread 0 has just allocated a fourth entry. -/
theorem reclaimList_entries_placed_drain :
    ∃ (s : Conf (Fin 2) Shared Local) (h : List (Fin 2 × Unit)),
      reclaimList.Reach (init (Fin 2)) s h ∧ s.shared.nodesToReclaim = none ∧
      s.shared.deleterRuns = [2] ∧ s.thr 1 = .addLoad 1 (.drain (some 0)) ∧
      s.thr 0 = .addLoad 3 .reclaimLater ∧
      ((∃ (L : List Nat) (P : Fin 2 → List Nat), Linked s.shared.heap s.shared.nodesToReclaim L ∧
        (∀ t, Linked s.shared.heap (s.thr t).chain (P t)) ∧
        ∀ a, L.count a + ∑ t, ((s.thr t).held (P t)).count a + s.shared.deleterRuns.count a =
          if a < s.shared.alloc then 1 else 0) ∧
      s.shared.deleterRuns.Nodup ∧ ∀ f, reclaimList.NoFault f s) := by
  have hrun : reclaimList.holdsAfter (init (Fin 2))
      [(0, .reclaimLater 5), (0, .go false), (0, .go false),
       (0, .reclaimLater 6), (0, .go false), (0, .go false),
       (0, .reclaimLater 7), (0, .go false), (0, .go false),
       (1, .deleteNodes), (1, .go false), (1, .go false), (1, .go false), (1, .go false),
       (1, .go false), (1, .go false), (1, .go true), (0, .reclaimLater 8)]
      (fun s => decide (s.shared.nodesToReclaim = none ∧ s.shared.deleterRuns = [2] ∧
        s.thr 1 = .addLoad 1 (.drain (some 0)) ∧ s.thr 0 = .addLoad 3 .reclaimLater)) = true := by
    decide
  obtain ⟨s, h, hr, hp⟩ := Program.reach_of_holdsAfter hrun
  obtain ⟨hl, hd, h1, h0⟩ := of_decide_eq_true hp
  exact ⟨s, h, hr, hl, hd, h1, h0, reclaimList_entries_placed hr⟩

/-- The claim's three places miss the entry `reclaim_later` has just allocated: before its
compare-exchange it is allocated, `nodes_to_reclaim` is empty, it is not deleted, and no
thread holds a private list at all. -/
theorem reclaimList_fresh_entry_unplaced :
    ∃ (s : Conf (Fin 1) Shared Local) (h : List (Fin 1 × Unit)),
      reclaimList.Reach (init (Fin 1)) s h ∧ s.shared.heap 0 ≠ none ∧
      s.shared.nodesToReclaim = none ∧ 0 ∉ s.shared.deleterRuns ∧ ∀ t, (s.thr t).chain = none := by
  have hrun : reclaimList.holdsAfter (init (Fin 1)) [(0, .reclaimLater 5)]
      (fun s => decide (s.shared.heap 0 ≠ none ∧ s.shared.nodesToReclaim = none ∧
        0 ∉ s.shared.deleterRuns ∧ ∀ t, (s.thr t).chain = none)) = true := by
    decide
  obtain ⟨s, h, hr, hp⟩ := Program.reach_of_holdsAfter hrun
  exact ⟨s, h, hr, of_decide_eq_true hp⟩

end ReclaimList

end ConcurrencyInAction
