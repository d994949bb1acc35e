import Mathlib.Data.List.Nodup
import ConcurrencyInAction.Atomics.Litmus

/-!
# `acquirereleasetransitive()`

Transitive synchronization in `atomic.cpp`: `thread_1` stores five values into
`std::atomic<int> vecdata[5]` with relaxed stores and then releases `sync1`; `thread_2` spins
until it acquires `sync1` and then stores `sync2`; `thread_3` spins until it acquires `sync2`
and asserts each of the five values with relaxed loads. `thread_3` never synchronizes with
`thread_1`: it sees the values because `thread_2`'s store of `sync2` releases what `thread_2`
acquired from `sync1`.

The threads are written with parameters: the stores of `thread_1` (any list `ds` of indices
and values), the values `thread_3` checks (any `cs` among them), and every order. When `ds`
names each element at most once and each link of the chain releases and acquires, no
assertion fails in any run (`transitive_asserts_hold`).

`thread_2`'s `sync2.store(std::memory_order_release)` passes the order as the value to store:
it stores `true` with the default order, `memory_order_seq_cst`, which releases.
-/

namespace ConcurrencyInAction.Atomics.Transitive

/-- The calling thread and the threads `t1`, `t2`, `t3` it starts. -/
inductive Tid
  | main
  | t1
  | t2
  | t3
  deriving DecidableEq, Repr

/-- The globals `vecdata[0]` to `vecdata[4]`, `sync1` and `sync2`, and the end of each
thread. -/
inductive Loc
  | vecdata (i : Fin 5)
  | sync1
  | sync2
  | done (t : Tid)
  deriving DecidableEq, Repr

/-- The globals before the threads start: `vecdata` zero-initialized, `sync1(false)` and
`sync2(false)`. -/
def memory₀ : Memory Loc := Memory.initial fun _ => 0

/-- `thread_1` storing `ds`: `vecdata[i].store(v,od)` for each `(i, v)` of `ds` in turn, then
`sync1.store(true,r₁)`. -/
def storeThenSync (ds : List (Fin 5 × Int)) (od r₁ : MemoryOrder) : List (Instr Loc) :=
  ds.map (fun d => .store (.vecdata d.1) d.2 od) ++ [.store .sync1 1 r₁]

/-- `thread_2`: `while(!sync1.load(a₁));`, then a store of `true` to `sync2` with order
`r₂`. -/
def passOn (a₁ r₂ : MemoryOrder) : List (Instr Loc) := [.await .sync1 a₁, .store .sync2 1 r₂]

/-- `thread_3` checking `cs`: `while(!sync2.load(a₂));`, then
`assert(vecdata[i].load(od)==v);` for each `(i, v)` of `cs` in turn. -/
def syncThenCheck (a₂ od : MemoryOrder) (cs : List (Fin 5 × Int)) : List (Instr Loc) :=
  .await .sync2 a₂ :: cs.map (fun d => .assertEq (.vecdata d.1) od d.2)

/-- The values `thread_1` stores and `thread_3` checks. -/
def vecdataValues : List (Fin 5 × Int) := [(0, 42), (1, 97), (2, 17), (3, -141), (4, 2003)]

/-- `thread_1`. -/
def thread1 : List (Instr Loc) := storeThenSync vecdataValues .relaxed .release

/-- `thread_2`. -/
def thread2 : List (Instr Loc) := passOn .acquire .seqCst

/-- `thread_3`. -/
def thread3 : List (Instr Loc) := syncThenCheck .acquire .relaxed vecdataValues

/-- `t1.join(); t2.join(); t3.join();` -/
def transitiveMain : List (Instr Loc) := [join (.done .t1), join (.done .t2), join (.done .t3)]

/-- The threads when `t1`, `t2` and `t3` run `c₁`, `c₂` and `c₃`. -/
def transitiveThreads (c₁ c₂ c₃ : List (Instr Loc)) : Tid → List (Instr Loc)
  | .main => transitiveMain
  | .t1 => c₁ ++ [exit (.done .t1)]
  | .t2 => c₂ ++ [exit (.done .t2)]
  | .t3 => c₃ ++ [exit (.done .t3)]

/-- `acquirereleasetransitive()`. -/
def acquirereleasetransitive : Conf Tid (Memory Loc) (Thread Loc) :=
  init memory₀ (transitiveThreads thread1 thread2 thread3)

/-- The head of a suffix of `xs ++ ys` that is not in `xs` starts a suffix of `ys`. -/
lemma cons_suffix_append_of_not_mem {α : Type} {a : α} {l xs ys : List α}
    (h : a :: l <:+ xs ++ ys) (ha : a ∉ xs) : a :: l <:+ ys := by
  induction xs with
  | nil => exact h
  | cons x xs ih =>
    rcases List.suffix_cons_iff.1 h with h | h
    · exact absurd (List.mem_cons.2 (.inl (List.cons.inj h).1)) ha
    · exact ih h fun hm => ha (List.mem_cons_of_mem _ hm)

section Invariant

variable {ds cs : List (Fin 5 × Int)} {od od' r₁ a₁ r₂ a₂ : MemoryOrder}
  {s : Conf Tid (Memory Loc) (Thread Loc)}

/-- What the memory holds in every run: each write of `vecdata[i]` after the initial one is a
store of `thread_1`, and a set `sync1` or `sync2` releases all of them. -/
structure MemOk (ds : List (Fin 5 × Int)) (m : Memory Loc) : Prop where
  nonempty : ∀ l, m l ≠ []
  vecdata : ∀ i j w, (m (.vecdata i))[j]? = some w → 0 < j → (i, w.val) ∈ ds
  sync1_releases : ∀ w ∈ m .sync1, w.val ≠ 0 → ∀ d ∈ ds, 1 ≤ w.view (.vecdata d.1)
  sync2_releases : ∀ w ∈ m .sync2, w.val ≠ 0 → ∀ d ∈ ds, 1 ≤ w.view (.vecdata d.1)

/-- What each thread has seen, by what is left of its code: `thread_1` has seen each of its
stores it no longer has to make, and `thread_2` and `thread_3` have seen all of them once past
their loop. -/
def Seen (ds : List (Fin 5 × Int)) (od : MemoryOrder) : Tid → Thread Loc → Prop
  | .t1, ⟨code, tv, _⟩ =>
    ∀ d ∈ ds, .store (.vecdata d.1) d.2 od ∉ code → 1 ≤ tv.cur (.vecdata d.1)
  | .t2, ⟨code, tv, _⟩ | .t3, ⟨code, tv, _⟩ =>
    (∀ l o, .await l o ∉ code) → ∀ d ∈ ds, 1 ≤ tv.cur (.vecdata d.1)
  | .main, _ => True

/-- The invariant of the example. -/
structure Inv (ds : List (Fin 5 × Int)) (od : MemoryOrder)
    (s : Conf Tid (Memory Loc) (Thread Loc)) : Prop where
  mem : MemOk ds s.shared
  seen : ∀ t, Seen ds od t (s.thr t)
  ok : ∀ t, (s.thr t).failed = none

lemma MemOk.append {m : Memory Loc} (hm : MemOk ds m) {l : Loc} {w : Msg Loc}
    (hv : ∀ i, l = .vecdata i → (i, w.val) ∈ ds)
    (h₁ : l = .sync1 → w.val ≠ 0 → ∀ d ∈ ds, 1 ≤ w.view (.vecdata d.1))
    (h₂ : l = .sync2 → w.val ≠ 0 → ∀ d ∈ ds, 1 ≤ w.view (.vecdata d.1)) :
    MemOk ds (Function.update m l (m l ++ [w])) where
  nonempty _ := Memory.update_append_ne_nil (hm.nonempty _)
  vecdata i j w' hj h0 := by
    rcases Memory.getElem?_update_append hj with hj | ⟨rfl, -, rfl⟩
    exacts [hm.vecdata i j w' hj h0, hv i rfl]
  sync1_releases w' hw' h0 := by
    rcases Memory.mem_update_append hw' with hw' | ⟨rfl, rfl⟩
    exacts [hm.sync1_releases w' hw' h0, h₁ rfl h0]
  sync2_releases w' hw' h0 := by
    rcases Memory.mem_update_append hw' with hw' | ⟨rfl, rfl⟩
    exacts [hm.sync2_releases w' hw' h0, h₂ rfl h0]

/-- A store to a location other than `vecdata`, `sync1` and `sync2` keeps the memory's
shape. -/
lemma MemOk.append_done {m : Memory Loc} (hm : MemOk ds m) (t : Tid) (w : Msg Loc) :
    MemOk ds (Function.update m (.done t) (m (.done t) ++ [w])) :=
  hm.append nofun nofun nofun

lemma Inv.set (hI : Inv ds od s) {t : Tid} {g : Memory Loc} {l : Thread Loc}
    (hg : MemOk ds g) (hl : Seen ds od t l) (hf : l.failed = none) : Inv ds od (s.set t g l) := by
  refine ⟨hg, fun u => ?_, fun u => ?_⟩ <;> by_cases h : u = t
  · subst h; simpa using hl
  · rw [Conf.set_thr_ne _ _ _ h]; exact hI.seen u
  · subst h; simpa using hf
  · rw [Conf.set_thr_ne _ _ _ h]; exact hI.ok u

/-- An acquire load of a set `sync1` or `sync2` sees every store of `thread_1`. -/
lemma seen_of_acquire {tv tv' : TView Loc} {m : Memory Loc} {l : Loc} {o : MemoryOrder}
    {i : Nat} {v : Int} (ho : o.isAcquire = true) (hl : tv.load m l o i = some (v, tv'))
    (hv : v ≠ 0) (hrel : ∀ w ∈ m l, w.val ≠ 0 → ∀ d ∈ ds, 1 ≤ w.view (.vecdata d.1)) :
    ∀ d ∈ ds, 1 ≤ tv'.cur (.vecdata d.1) := by
  obtain ⟨w, hw, -, rfl, rfl⟩ := TView.load_eq_some hl
  intro d hd
  have := hrel w (List.getElem?_mem hw) hv d hd
  show 1 ≤ max (max _ _) ((if o.isAcquire = true then w.view else View.bot) _)
  rw [if_pos ho]
  omega

/-- Every step keeps the invariant, when `ds` names each element at most once, `cs` is among
`ds`, and each link of the chain releases and acquires. -/
lemma Inv.step (hnd : (ds.map Prod.fst).Nodup) (hcs : cs ⊆ ds) (hr₁ : r₁.isRelease = true)
    (ha₁ : a₁.isAcquire = true) (hr₂ : r₂.isRelease = true) (ha₂ : a₂.isAcquire = true)
    (hI : Inv ds od s) {t : Tid}
    (hsuf : (s.thr t).code <:+ transitiveThreads (storeThenSync ds od r₁) (passOn a₁ r₂)
      (syncThenCheck a₂ od' cs) t)
    (i : Nat) : Inv ds od (s.set t (step s.shared (s.thr t) i).1 (step s.shared (s.thr t) i).2.1) := by
  have hseen := hI.seen t
  have hok := hI.ok t
  have stay : Inv ds od (s.set t s.shared (s.thr t)) := by rw [Conf.set_self]; exact hI
  have hm := hI.mem
  generalize s.thr t = th at hsuf hseen hok stay ⊢
  obtain ⟨code, tv, f⟩ := th
  obtain rfl : f = none := hok
  cases t with
  | main =>
    -- `t1.join()`, `t2.join()` and `t3.join()` only wait
    have hjoin : ∀ l rest, code = .await l .acquire :: rest → Inv ds od
        (s.set .main (Atomics.step s.shared ⟨code, tv, none⟩ i).1
          (Atomics.step s.shared ⟨code, tv, none⟩ i).2.1) := by
      intro l rest hc
      rcases step_await s.shared ⟨code, tv, none⟩ i hc with
        h | ⟨v, tv', -, h⟩ <;> rw [h]
      exacts [stay, hI.set hm trivial rfl]
    simp only [transitiveThreads, transitiveMain, join, List.suffix_cons_iff, List.suffix_nil]
      at hsuf
    rcases hsuf with rfl | rfl | rfl | rfl <;>
      first | exact hjoin _ _ rfl | (rw [step_nil rfl]; exact stay)
  | t1 =>
    rcases code with _ | ⟨ins, rest⟩
    · rw [step_nil rfl]; exact stay
    have hseen : ∀ d ∈ ds, .store (.vecdata d.1) d.2 od ∉ ins :: rest →
        1 ≤ tv.cur (.vecdata d.1) := hseen
    -- a store to anything but `vecdata` keeps what `thread_1` has seen
    have keep : ∀ l v o, ins = .store l v o → (∀ i, l ≠ .vecdata i) →
        Seen ds od .t1 ⟨rest, (tv.store s.shared l v o).2, none⟩ := fun l v o hins hl d hd hn =>
      le_trans (hseen d hd (by simp [hins, hn, Ne.symm (hl d.1)]))
        (TView.le_store_cur _ _ _ _ _ _)
    have hmem : ins ∈ storeThenSync ds od r₁ ++ [exit (.done .t1)] :=
      hsuf.subset (List.mem_cons_self _ _)
    simp only [storeThenSync, exit, List.mem_append, List.mem_map, List.mem_singleton] at hmem
    rcases hmem with (⟨d, hd, rfl⟩ | rfl) | rfl
    · -- `vecdata[i].store(v,od)`
      rw [step_store rfl]
      refine hI.set (hm.append (fun i hi => ?_) nofun nofun) (fun d' hd' hn => ?_) rfl
      · cases hi; exact hd
      show 1 ≤ max (tv.cur (Loc.vecdata d'.1)) (View.single (Loc.vecdata d.1) _ (Loc.vecdata d'.1))
      by_cases he : d'.1 = d.1
      · have := List.length_pos.2 (hm.nonempty (.vecdata d.1))
        rw [he, View.single_self]
        omega
      · have := hseen d' hd' (by simp [hn, he])
        omega
    · -- `sync1.store(true,r₁)`: releases every store of `thread_1`
      have hsuf : .store .sync1 1 r₁ :: rest <:+
          (ds.map fun d => .store (.vecdata d.1) d.2 od) ++ [.store .sync1 1 r₁] ++
            [exit (.done .t1)] := hsuf
      rw [List.append_assoc] at hsuf
      have hlast : .store .sync1 1 r₁ :: rest <:+ [.store .sync1 1 r₁, exit (.done .t1)] :=
        cons_suffix_append_of_not_mem hsuf (by simp)
      -- `sync1` is stored last but for the end of the thread
      obtain rfl : rest = [exit (.done .t1)] := by
        rcases List.suffix_cons_iff.1 hlast with h | h
        · exact (List.cons.inj h).2
        · rcases List.suffix_cons_iff.1 h with h | h
          · cases h
          · cases List.suffix_nil.1 h
      have hall : ∀ d ∈ ds, 1 ≤ tv.cur (.vecdata d.1) := fun d hd => hseen d hd (by simp [exit])
      rw [step_store rfl]
      refine hI.set (hm.append nofun (fun _ _ d hd => ?_) nofun) (keep _ _ _ rfl nofun) rfl
      show 1 ≤ (if r₁.isRelease = true then (_ : View Loc) else _) _
      rw [if_pos hr₁]
      exact le_trans (hall d hd) (Nat.le_max_left _ _)
    · -- the end of `thread_1`
      rw [step_store rfl]
      exact hI.set (hm.append_done _ _) (keep _ _ _ rfl nofun) rfl
  | t2 =>
    simp only [transitiveThreads, passOn, exit, List.cons_append, List.nil_append,
      List.suffix_cons_iff, List.suffix_nil] at hsuf
    rcases hsuf with rfl | rfl | rfl | rfl
    · -- `while(!sync1.load(a₁))`: acquires every store of `thread_1` once it sees `sync1` set
      rcases step_await s.shared ⟨_, tv, none⟩ i rfl with
        h | ⟨v, tv', hl, h⟩ <;> rw [h]
      · exact stay
      refine hI.set hm (fun hna => ?_) rfl
      by_cases h0 : v = 0
      · rw [if_pos h0] at hna
        exact absurd (List.mem_cons_self _ _) (hna _ _)
      · exact seen_of_acquire ha₁ hl h0 hm.sync1_releases
    · -- `sync2.store(true)`: releases what `thread_2` acquired
      have hall : ∀ d ∈ ds, 1 ≤ tv.cur (.vecdata d.1) := hseen (by simp)
      rw [step_store rfl]
      refine hI.set (hm.append nofun nofun fun _ _ d hd => ?_)
        (fun _ d hd => le_trans (hall d hd) (TView.le_store_cur _ _ _ _ _ _)) rfl
      show 1 ≤ (if r₂.isRelease = true then (_ : View Loc) else _) _
      rw [if_pos hr₂]
      exact le_trans (hall d hd) (Nat.le_max_left _ _)
    · -- the end of `thread_2`
      have hall : ∀ d ∈ ds, 1 ≤ tv.cur (.vecdata d.1) := hseen (by simp)
      rw [step_store rfl]
      exact hI.set (hm.append_done _ _)
        (fun _ d hd => le_trans (hall d hd) (TView.le_store_cur _ _ _ _ _ _)) rfl
    · rw [step_nil rfl]; exact stay
  | t3 =>
    simp only [transitiveThreads, syncThenCheck, List.cons_append, List.suffix_cons_iff] at hsuf
    rcases hsuf with rfl | hsuf
    · -- `while(!sync2.load(a₂))`: acquires every store of `thread_1` once it sees `sync2` set
      rcases step_await s.shared ⟨_, tv, none⟩ i rfl with
        h | ⟨v, tv', hl, h⟩ <;> rw [h]
      · exact stay
      refine hI.set hm (fun hna => ?_) rfl
      by_cases h0 : v = 0
      · rw [if_pos h0] at hna
        exact absurd (List.mem_cons_self _ _) (hna _ _)
      · exact seen_of_acquire ha₂ hl h0 hm.sync2_releases
    have hall : ∀ d ∈ ds, 1 ≤ tv.cur (.vecdata d.1) :=
      hseen fun l o ha => by
        rcases List.mem_append.1 (hsuf.subset ha) with h | h
        · obtain ⟨c, -, hc⟩ := List.mem_map.1 h
          cases hc
        · cases List.mem_singleton.1 h
    rcases code with _ | ⟨ins, rest⟩
    · rw [step_nil rfl]; exact stay
    have hmem : ins ∈ cs.map _ ++ [exit (.done .t3)] := hsuf.subset (List.mem_cons_self _ _)
    simp only [exit, List.mem_append, List.mem_map, List.mem_singleton] at hmem
    rcases hmem with ⟨c, hc, rfl⟩ | rfl
    · -- `assert(vecdata[i].load(od')==v)`: reads the store of `thread_1`
      rcases step_assertEq s.shared ⟨_, tv, none⟩ i rfl with
        h | ⟨v, tv', hl, h⟩ <;> rw [h]
      · exact stay
      obtain ⟨w, hw, hi, rfl, -⟩ := TView.load_eq_some hl
      have hi : tv.cur (.vecdata c.1) ≤ i := hi
      have := hall c (hcs hc)
      have hval : (c.1, w.val) = c :=
        List.inj_on_of_nodup_map hnd (hm.vecdata c.1 i w hw (by omega)) (hcs hc) rfl
      rw [if_pos (congrArg Prod.snd hval)]
      exact hI.set hm (fun _ d hd => le_trans (hall d hd) (TView.le_load_cur hl _)) rfl
    · -- the end of `thread_3`
      rw [step_store rfl]
      exact hI.set (hm.append_done _ _)
        (fun _ d hd => le_trans (hall d hd) (TView.le_store_cur _ _ _ _ _ _)) rfl

lemma inv_init : Inv ds od (init memory₀ (transitiveThreads (storeThenSync ds od r₁)
    (passOn a₁ r₂) (syncThenCheck a₂ od' cs))) := by
  refine ⟨⟨fun _ => List.cons_ne_nil _ _, fun i j w hj h0 => ?_, fun w hw h0 => ?_,
    fun w hw h0 => ?_⟩, fun t => ?_, fun _ => rfl⟩
  · match j, hj with
    | 0, _ => omega
  · exact absurd (List.mem_singleton.1 hw ▸ rfl) h0
  · exact absurd (List.mem_singleton.1 hw ▸ rfl) h0
  · cases t
    · trivial
    · intro d hd hn
      exact absurd (List.mem_append_left _ (List.mem_append_left _ (List.mem_map_of_mem _ hd))) hn
    all_goals exact fun hna => absurd (List.mem_cons_self _ _) (hna _ _)

lemma inv_reach (hnd : (ds.map Prod.fst).Nodup) (hcs : cs ⊆ ds) (hr₁ : r₁.isRelease = true)
    (ha₁ : a₁.isAcquire = true) (hr₂ : r₂.isRelease = true) (ha₂ : a₂.isAcquire = true)
    {h : List (Tid × Int)} (hs : (program Loc).Reach (init memory₀ (transitiveThreads
      (storeThenSync ds od r₁) (passOn a₁ r₂) (syncThenCheck a₂ od' cs))) s h) :
    Inv ds od s := by
  induction hs with
  | refl => exact inv_init
  | @step s₁ _ t c _ _ _ reach hstep ih =>
    have := ih.step hnd hcs hr₁ ha₁ hr₂ ha₂ (reach_code_suffix reach t) c
    rwa [show step s₁.shared (s₁.thr t) c = _ from Except.ok.inj hstep] at this

/-- `thread_3` sees the stores of `thread_1` through `thread_2`: in every run, whatever the
orders of the stores and loads of `vecdata`, no assertion fails when `thread_1` stores each
element at most once, `thread_3` checks values `thread_1` stores, `thread_1` and `thread_2`
store `sync1` and `sync2` with release orders and `thread_2` and `thread_3` load them with
acquire orders. -/
theorem transitive_asserts_hold (hnd : (ds.map Prod.fst).Nodup) (hcs : cs ⊆ ds)
    (hr₁ : r₁.isRelease = true) (ha₁ : a₁.isAcquire = true) (hr₂ : r₂.isRelease = true)
    (ha₂ : a₂.isAcquire = true) {h : List (Tid × Int)}
    (hs : (program Loc).Reach (init memory₀ (transitiveThreads (storeThenSync ds od r₁)
      (passOn a₁ r₂) (syncThenCheck a₂ od' cs))) s h) (t : Tid) : (s.thr t).failed = none :=
  (inv_reach hnd hcs hr₁ ha₁ hr₂ ha₂ hs).ok t

end Invariant

/-- `acquirereleasetransitive()` is an instance, and has a run in which `thread_3` makes all
five checks. -/
theorem acquirereleasetransitive_asserts_hold :
    (vecdataValues.map Prod.fst).Nodup ∧ ∃ s h, (program Loc).Reach acquirereleasetransitive s h ∧
      (s.thr .t3).code = [] ∧ (s.thr .t3).failed = none := by
  have hrun : (program Loc).holdsAfter acquirereleasetransitive [(.t1, 0), (.t1, 0), (.t1, 0),
      (.t1, 0), (.t1, 0), (.t1, 0), (.t2, 1), (.t2, 0), (.t3, 1), (.t3, 1), (.t3, 1), (.t3, 1),
      (.t3, 1), (.t3, 1), (.t3, 0)] (fun s => decide ((s.thr .t3).code = [])) = true := by
    decide
  obtain ⟨s, h, hr, hp⟩ := Program.reach_of_holdsAfter hrun
  exact ⟨by decide, s, h, hr, of_decide_eq_true hp, transitive_asserts_hold (by decide)
    (List.Subset.refl _) (by rfl) (by rfl) (by rfl) (by rfl) hr .t3⟩

end ConcurrencyInAction.Atomics.Transitive
