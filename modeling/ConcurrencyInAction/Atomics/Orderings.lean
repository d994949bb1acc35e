import ConcurrencyInAction.Atomics.Litmus

/-!
# `relaxed()`, `acquirerelease()`, `fencesmemory()` and `seq_cst()`

The examples of `atomic.cpp` on the globals `std::atomic<bool> x,y` and `std::atomic<int> z`
(`false` is 0 and `true` is 1). Each starts threads on a writer and a reader, joins them and
looks at `z`.

`write_x_then_y` stores `x` then `y`; `read_y_then_x` spins until it sees `y` and then
increments `z` if it sees `x`. The three variants differ only in their orders and fences, so
they are one writer and one reader with parameters. Whatever the orders, the assertion
`assert(z.load()!=0)` after the joins holds in every run when the writer releases `y` (a
release store, or a release fence between the stores) and the reader acquires it (an acquire
load, or an acquire fence after the loop): the reader then sees `x`'s store and increments
`z`. With every order relaxed, as in `relaxed()`, a run fails the assertion.

`seq_cst()` uses sequentially consistent operations only, so its runs are those of
sequential consistency. With the source's three threads, `z` can end at 0, which is why its
assertion is commented out; with `read_y_then_x` started as well, for any number of threads
on each of the four functions, `z` is nonzero once a thread of each reader has finished.
-/

namespace ConcurrencyInAction.Atomics.Orderings

/-- The threads of the examples: `main` and the threads `a`, `b`, `c`, `d` it starts. -/
inductive Tid
  | main
  | a
  | b
  | c
  | d
  deriving DecidableEq, Repr

/-- The globals `x`, `y` and `z`, and the end of each thread. -/
inductive Loc
  | x
  | y
  | z
  | done (t : Tid)
  deriving DecidableEq, Repr

/-- `x=false; y=false; z=0;` before the threads start. -/
def memory₀ : Memory Loc := Memory.initial fun _ => 0

/-! ### The functions the threads run -/

/-- `write_x_then_y`: `x.store(true,ox)`, an `atomic_thread_fence(memory_order_release)` if
`fence`, then `y.store(true,oy)`. -/
def writeXThenY (ox : MemoryOrder) (fence : Bool) (oy : MemoryOrder) : List (Instr Loc) :=
  .store .x 1 ox :: (if fence then [.fence .release] else []) ++ [.store .y 1 oy]

/-- `read_l₁_then_l₂`: `while(!l₁.load(o₁));`, an `atomic_thread_fence(memory_order_acquire)`
if `fence`, then `if(l₂.load(o₂)) ++z;`. -/
def readThen (l₁ l₂ : Loc) (o₁ : MemoryOrder) (fence : Bool) (o₂ : MemoryOrder) :
    List (Instr Loc) :=
  .await l₁ o₁ :: (if fence then [.fence .acquire] else []) ++ [.ifLoad l₂ o₂, .increment .z]

/-- `write_x_then_y_relax`. -/
def writeXThenYRelax : List (Instr Loc) := writeXThenY .relaxed false .relaxed

/-- `read_y_then_x_relax`. -/
def readYThenXRelax : List (Instr Loc) := readThen .y .x .relaxed false .relaxed

/-- `write_x_then_y_acq_rel`. -/
def writeXThenYAcqRel : List (Instr Loc) := writeXThenY .relaxed false .release

/-- `read_y_then_x_acq_rel`. -/
def readYThenXAcqRel : List (Instr Loc) := readThen .y .x .acquire false .relaxed

/-- `write_x_then_y_fence`. -/
def writeXThenYFence : List (Instr Loc) := writeXThenY .relaxed true .relaxed

/-- `read_y_then_x_fence`. -/
def readYThenXFence : List (Instr Loc) := readThen .y .x .relaxed true .relaxed

/-- `write_x`. -/
def writeX : List (Instr Loc) := [.store .x 1 .seqCst]

/-- `write_y`. -/
def writeY : List (Instr Loc) := [.store .y 1 .seqCst]

/-- `read_x_then_y`. -/
def readXThenY : List (Instr Loc) := readThen .x .y .seqCst false .seqCst

/-- `read_y_then_x`. -/
def readYThenX : List (Instr Loc) := readThen .y .x .seqCst false .seqCst

/-! ### Message passing -/

/-- What `relaxed()`, `acquirerelease()` and `fencesmemory()` do once `a` and `b` run:
`a.join(); b.join();`, then `cout << z << endl;` if `p` (not in `fencesmemory()`), then
`assert(z.load()!=0);`. -/
def messagePassingMain (p : Bool) : List (Instr Loc) :=
  join (.done .a) :: join (.done .b) ::
    ((if p then [.print .z (some .seqCst)] else []) ++ [.assertNe .z .seqCst 0])

/-- The threads of the example whose thread `a` runs `w` and thread `b` runs `r`, and whose
`main` prints `z` if `p`. -/
def messagePassing (p : Bool) (w r : List (Instr Loc)) : Tid → List (Instr Loc)
  | .main => messagePassingMain p
  | .a => w ++ [exit (.done .a)]
  | .b => r ++ [exit (.done .b)]
  | .c | .d => []

/-- `relaxed()`. -/
def relaxed : Conf Tid (Memory Loc) (Thread Loc) :=
  init memory₀ (messagePassing true writeXThenYRelax readYThenXRelax)

/-- `acquirerelease()`. -/
def acquirerelease : Conf Tid (Memory Loc) (Thread Loc) :=
  init memory₀ (messagePassing true writeXThenYAcqRel readYThenXAcqRel)

/-- `fencesmemory()`. -/
def fencesmemory : Conf Tid (Memory Loc) (Thread Loc) :=
  init memory₀ (messagePassing false writeXThenYFence readYThenXFence)

section MessagePassing

/-- What the memory holds in every run: `x` is only ever set, a nonzero `y` releases `x`'s
store, the `k`-th write of `z` is at least `k`, and the end of `b` releases `z`'s
increment. -/
structure MemOk (m : Memory Loc) : Prop where
  nonempty : ∀ l, m l ≠ []
  x_set : ∀ i w, (m .x)[i]? = some w → 0 < i → w.val = 1
  y_releases : ∀ w ∈ m .y, w.val ≠ 0 → 1 ≤ w.view .x
  z_count : ∀ (i : Nat) w, (m .z)[i]? = some w → (i : Int) ≤ w.val
  b_releases : ∀ w ∈ m (.done .b), w.val ≠ 0 → 1 ≤ w.view .z

/-- What each thread has seen, by the statements it has left: the writer has stored `x`
before releasing `y`, the reader has acquired `x` before loading it and incremented `z`
before ending, and `main` has acquired `z` from `b` once past `b.join()`. -/
def Seen (oy : MemoryOrder) : Tid → Thread Loc → Prop
  | .a, ⟨[.fence _, _, _], tv, _⟩ => 1 ≤ tv.cur .x
  | .a, ⟨[_, _], tv, _⟩ => 1 ≤ (if oy.isRelease then tv.cur else tv.rel) .x
  | .b, ⟨[.fence _, _, _, _], tv, _⟩ => 1 ≤ tv.acq .x
  | .b, ⟨[.ifLoad _ _, _, _], tv, _⟩ => 1 ≤ tv.cur .x
  | .b, ⟨[_], tv, _⟩ => 1 ≤ tv.cur .z
  | .main, ⟨code, tv, _⟩ => .await (.done .b) .acquire ∉ code → 1 ≤ tv.cur .z
  | _, _ => True

/-- The invariant of the example. -/
structure Inv (oy : MemoryOrder) (s : Conf Tid (Memory Loc) (Thread Loc)) : Prop where
  mem : MemOk s.shared
  seen : ∀ t, Seen oy t (s.thr t)
  ok : ∀ t, (s.thr t).failed = none

variable {oy : MemoryOrder} {s : Conf Tid (Memory Loc) (Thread Loc)}

lemma MemOk.append {m : Memory Loc} (hm : MemOk m) {l : Loc} {w : Msg Loc}
    (hx : l = .x → w.val = 1) (hy : l = .y → w.val ≠ 0 → 1 ≤ w.view .x)
    (hz : l = .z → ((m .z).length : Int) ≤ w.val)
    (hb : l = .done .b → w.val ≠ 0 → 1 ≤ w.view .z) :
    MemOk (Function.update m l (m l ++ [w])) where
  nonempty l' := by
    by_cases h : l' = l
    · subst h; simp
    · rw [Function.update_noteq h]; exact hm.nonempty l'
  x_set i w' hi h0 := by
    rcases Memory.getElem?_update_append hi with hi | ⟨rfl, -, rfl⟩
    exacts [hm.x_set i w' hi h0, hx rfl]
  y_releases w' hw' h0 := by
    rcases Memory.mem_update_append hw' with hw' | ⟨rfl, rfl⟩
    exacts [hm.y_releases w' hw' h0, hy rfl h0]
  z_count i w' hi := by
    rcases Memory.getElem?_update_append hi with hi | ⟨rfl, rfl, rfl⟩
    exacts [hm.z_count i w' hi, hz rfl]
  b_releases w' hw' h0 := by
    rcases Memory.mem_update_append hw' with hw' | ⟨rfl, rfl⟩
    exacts [hm.b_releases w' hw' h0, hb rfl h0]

lemma Inv.set (hI : Inv oy s) {t : Tid} {g : Memory Loc} {l : Thread Loc} (hg : MemOk g)
    (hl : Seen oy t l) (hf : l.failed = none) : Inv oy (s.set t g l) := by
  refine ⟨hg, fun u => ?_, fun u => ?_⟩ <;> by_cases h : u = t
  · subst h; simpa using hl
  · rw [Conf.set_thr_ne _ _ _ h]; exact hI.seen u
  · subst h; simpa using hf
  · rw [Conf.set_thr_ne _ _ _ h]; exact hI.ok u

variable {ox oy' ox' : MemoryOrder} {fw fr p : Bool}

/-- Every step of the example keeps the invariant, when the writer releases `y` and the reader
acquires it. -/
lemma Inv.step (hw : fw = true ∨ oy.isRelease = true) (hr : fr = true ∨ oy'.isAcquire = true)
    (hI : Inv oy s) {t : Tid}
    (hsuf : (s.thr t).code <:+ messagePassing p (writeXThenY ox fw oy) (readThen .y .x oy' fr ox') t)
    (i : Nat) : Inv oy (s.set t (step s.shared (s.thr t) i).1 (step s.shared (s.thr t) i).2.1) := by
  have hseen := hI.seen t
  have hok := hI.ok t
  have stay : Inv oy (s.set t s.shared (s.thr t)) := by rw [Conf.set_self]; exact hI
  have hm := hI.mem
  generalize s.thr t = th at hsuf hseen hok stay ⊢
  obtain ⟨code, tv, f⟩ := th
  obtain rfl : f = none := hok
  cases t with
  | main =>
    have hseen : .await (.done .b) .acquire ∉ code → 1 ≤ tv.cur .z := hseen
    have hjb : ∀ rest, .await (.done .b) .acquire ∉ rest → .await (.done .b) .acquire ∉ code → ∀ tv',
        (∀ l, tv.cur l ≤ tv'.cur l) → Seen oy .main ⟨rest, tv', none⟩ :=
      fun _ _ hc _ hle _ => le_trans (hseen hc) (hle _)
    -- `a.join()`
    have ja : ∀ rest, code = .await (.done .a) .acquire :: .await (.done .b) .acquire :: rest → Inv oy
        (s.set .main (Atomics.step s.shared ⟨code, tv, none⟩ i).1
          (Atomics.step s.shared ⟨code, tv, none⟩ i).2.1) := by
      rintro rest rfl
      rcases step_await s.shared ⟨_, tv, none⟩ i rfl with h | ⟨v, tv', -, h⟩ <;> rw [h]
      · exact stay
      · exact hI.set hm (by split <;> exact fun h => absurd (by simp) h) rfl
    -- `b.join()`: acquires `b`'s increment of `z`
    have jb : ∀ rest, code = .await (.done .b) .acquire :: rest → .await (.done .b) .acquire ∉ rest → Inv oy
        (s.set .main (Atomics.step s.shared ⟨code, tv, none⟩ i).1
          (Atomics.step s.shared ⟨code, tv, none⟩ i).2.1) := by
      rintro rest rfl hrest
      rcases step_await s.shared ⟨_, tv, none⟩ i rfl with h | ⟨v, tv', hl, h⟩ <;> rw [h]
      · exact stay
      · refine hI.set hm ?_ rfl
        split
        · exact fun h => absurd (List.mem_cons_self _ _) h
        · obtain ⟨w, hw', -, rfl, rfl⟩ := TView.load_eq_some hl
          have := hm.b_releases w (List.getElem?_mem hw') ‹_›
          intro _
          show 1 ≤ max (max _ _) _
          simp only [MemoryOrder.isAcquire, if_true]
          omega
    -- `cout << z`
    have pr : code = [.print .z (some .seqCst), .assertNe .z .seqCst 0] → Inv oy
        (s.set .main (Atomics.step s.shared ⟨code, tv, none⟩ i).1
          (Atomics.step s.shared ⟨code, tv, none⟩ i).2.1) := by
      rintro rfl
      rcases step_print s.shared ⟨_, tv, none⟩ i rfl with h | ⟨v, tv', hl, h⟩ <;> rw [h]
      · exact stay
      · exact hI.set hm (hjb _ (by simp) (by simp) _ (TView.le_load_cur hl)) rfl
    -- `assert(z.load()!=0)`: reads an increment of `z`
    have as : code = [.assertNe .z .seqCst 0] → Inv oy
        (s.set .main (Atomics.step s.shared ⟨code, tv, none⟩ i).1
          (Atomics.step s.shared ⟨code, tv, none⟩ i).2.1) := by
      rintro rfl
      rcases step_assertNe s.shared ⟨_, tv, none⟩ i rfl with h | ⟨v, tv', hl, h⟩ <;> rw [h]
      · exact stay
      · obtain ⟨w, hw', hi, rfl, -⟩ := TView.load_eq_some hl
        have hz : 1 ≤ tv.cur .z := hseen (by simp)
        have hi : tv.cur .z ≤ i := hi
        have := hm.z_count i w hw'
        rw [if_pos (by omega)]
        exact hI.set hm (hjb _ (by simp) (by simp) _ (TView.le_load_cur hl)) rfl
    have nil : code = [] → Inv oy (s.set .main (Atomics.step s.shared ⟨code, tv, none⟩ i).1
        (Atomics.step s.shared ⟨code, tv, none⟩ i).2.1) := by
      rintro rfl; rw [step_nil rfl]; exact stay
    cases p <;> simp only [messagePassing, messagePassingMain, join, Bool.false_eq_true,
      eq_self_iff_true, if_true, if_false, List.nil_append, List.cons_append,
      List.singleton_append, List.suffix_cons_iff, List.suffix_nil] at hsuf
    · rcases hsuf with h | h | h | h
      exacts [ja _ h, jb _ h (by simp), as h, nil h]
    · rcases hsuf with h | h | h | h | h
      exacts [ja _ h, jb _ h (by simp), pr h, as h, nil h]
  | a =>
    simp only [messagePassing, writeXThenY, exit, List.cons_append, List.suffix_cons_iff] at hsuf
    rcases hsuf with rfl | hsuf
    · -- `x.store(true,ox)`
      rw [step_store rfl]
      refine hI.set (hm.append (fun _ => rfl) nofun nofun nofun) ?_ rfl
      have hlen := List.length_pos.2 (hm.nonempty .x)
      cases fw
      · have hrel : oy.isRelease = true := hw.resolve_left nofun
        show 1 ≤ (if oy.isRelease = true then (_ : View Loc) else _) Loc.x
        rw [if_pos hrel]
        show 1 ≤ max _ _
        simp only [View.single_self]
        omega
      · show 1 ≤ max _ _
        simp only [View.single_self]
        omega
    have : (fw = true ∧ code = [.fence .release, .store .y 1 oy, .store (.done .a) 1 .release]) ∨
        code <:+ [.store .y 1 oy, .store (.done .a) 1 .release] := by
      cases fw
      · exact .inr hsuf
      · rcases List.suffix_cons_iff.1 hsuf with rfl | h
        exacts [.inl ⟨rfl, rfl⟩, .inr h]
    simp only [List.suffix_cons_iff, List.suffix_nil] at this
    rcases this with ⟨-, rfl⟩ | rfl | rfl | rfl
    · -- `atomic_thread_fence(memory_order_release)`
      rw [step_fence rfl]
      have hx : 1 ≤ tv.cur .x := hseen
      refine hI.set hm ?_ rfl
      show 1 ≤ (if oy.isRelease = true then (_ : View Loc) else _) Loc.x
      split <;> exact hx
    · -- `y.store(true,oy)`: releases what the writer has seen of `x`
      rw [step_store rfl]
      have hx : 1 ≤ (if oy.isRelease then tv.cur else tv.rel) .x := hseen
      refine hI.set (hm.append nofun (fun _ _ => ?_) nofun nofun) trivial rfl
      show 1 ≤ (if oy.isRelease = true then (_ : View Loc) else _) Loc.x
      revert hx
      cases oy.isRelease <;> simp [View.single]
    · rw [step_store rfl]
      exact hI.set (hm.append nofun nofun nofun nofun) trivial rfl
    · rw [step_nil rfl]; exact stay
  | b =>
    simp only [messagePassing, readThen, exit, List.cons_append, List.suffix_cons_iff] at hsuf
    rcases hsuf with rfl | hsuf
    · -- `while(!y.load(oy'))`: acquires `x`'s store once it sees `y` set
      rcases step_await s.shared ⟨_, tv, none⟩ i rfl with h | ⟨v, tv', hl, h⟩ <;>
        rw [h]
      · exact stay
      refine hI.set hm ?_ rfl
      obtain ⟨w, hw', -, rfl, rfl⟩ := TView.load_eq_some hl
      by_cases h0 : w.val = 0
      · rw [if_pos h0]
        cases fr <;> trivial
      rw [if_neg h0]
      have hx := hm.y_releases w (List.getElem?_mem hw') h0
      cases fr
      · have hacq : oy'.isAcquire = true := hr.resolve_left nofun
        show 1 ≤ max (max _ _) ((if oy'.isAcquire = true then w.view else View.bot) Loc.x)
        simp only [hacq, if_true]
        omega
      · show 1 ≤ max (max _ _) (w.view Loc.x)
        omega
    have : (fr = true ∧
          code = [.fence .acquire, .ifLoad .x ox', .increment .z, .store (.done .b) 1 .release]) ∨
        code <:+ [.ifLoad .x ox', .increment .z, .store (.done .b) 1 .release] := by
      cases fr
      · exact .inr hsuf
      · rcases List.suffix_cons_iff.1 hsuf with rfl | h
        exacts [.inl ⟨rfl, rfl⟩, .inr h]
    simp only [List.suffix_cons_iff, List.suffix_nil] at this
    rcases this with ⟨-, rfl⟩ | rfl | rfl | rfl | rfl
    · -- `atomic_thread_fence(memory_order_acquire)`
      rw [step_fence rfl]
      have hx : 1 ≤ tv.acq .x := hseen
      refine hI.set hm ?_ rfl
      show 1 ≤ max (tv.cur Loc.x) (tv.acq Loc.x)
      omega
    · -- `if(x.load(ox'))`: reads `x` set
      rcases step_ifLoad s.shared ⟨_, tv, none⟩ i rfl with
        h | ⟨v, tv', hl, h⟩ <;> rw [h]
      · exact stay
      obtain ⟨w, hw', hi, rfl, rfl⟩ := TView.load_eq_some hl
      have hx : 1 ≤ tv.cur .x := hseen
      have hi : tv.cur .x ≤ i := hi
      rw [if_neg (by rw [hm.x_set i w hw' (by omega)]; decide)]
      exact hI.set hm trivial rfl
    · -- `++z`
      rcases step_increment s.shared ⟨_, tv, none⟩ i rfl with
        h | ⟨v, m', tv', hl, h⟩ <;> rw [h]
      · exact stay
      obtain ⟨w, hw', rfl, rfl, rfl⟩ := TView.rmw_eq_some hl
      have hlen := List.length_pos.2 (hm.nonempty .z)
      have hlast := hm.z_count _ w (by rw [← List.getLast?_eq_getElem?]; exact hw')
      refine hI.set (hm.append nofun nofun (fun _ => ?_) nofun) ?_ rfl
      · show _ ≤ w.val + 1
        omega
      · show 1 ≤ max (max _ _) _
        simp only [View.single_self]
        omega
    · -- the end of `b`: releases its increment of `z`
      rw [step_store rfl]
      have hz : 1 ≤ tv.cur .z := hseen
      refine hI.set (hm.append nofun nofun nofun fun _ _ => ?_) trivial rfl
      show 1 ≤ max (tv.cur Loc.z) (View.single (Loc.done .b) _ Loc.z)
      omega
    · rw [step_nil rfl]; exact stay
  | c | d =>
    obtain rfl : code = [] := List.suffix_nil.1 hsuf
    rw [step_nil rfl]; exact stay

lemma inv_init : Inv oy (init memory₀ (messagePassing p (writeXThenY ox fw oy)
    (readThen .y .x oy' fr ox'))) := by
  refine ⟨⟨fun _ => List.cons_ne_nil _ _, fun i w hi h0 => ?_, fun w hw h0 => ?_,
    fun i w hi => ?_, fun w hw h0 => ?_⟩, fun t => ?_, fun _ => rfl⟩
  · match i, hi with
    | 0, _ => omega
  · exact absurd (List.mem_singleton.1 hw ▸ rfl) h0
  · match i, hi with
    | 0, hi => cases hi; exact le_refl _
  · exact absurd (List.mem_singleton.1 hw ▸ rfl) h0
  · cases t
    · exact fun h => absurd (List.mem_cons_of_mem _ (List.mem_cons_self _ _)) h
    all_goals cases fw <;> cases fr <;> trivial

/-- The invariant holds in every run of the example when the writer releases `y` and the
reader acquires it. -/
lemma inv_reach (hw : fw = true ∨ oy.isRelease = true) (hr : fr = true ∨ oy'.isAcquire = true)
    {h : List (Tid × Int)} (hs : (program Loc).Reach
      (init memory₀ (messagePassing p (writeXThenY ox fw oy) (readThen .y .x oy' fr ox'))) s h) :
    Inv oy s := by
  induction hs with
  | refl => exact inv_init
  | @step s₁ _ t c _ _ _ reach hstep ih =>
    have := ih.step hw hr (reach_code_suffix reach t) c
    rwa [show step s₁.shared (s₁.thr t) c = _ from Except.ok.inj hstep] at this

/-- In every run of `write_x_then_y` against `read_y_then_x`, whatever their orders, when the
writer releases `y` (by a release store or a release fence before it) and the reader acquires
it (by an acquire load or an acquire fence after its loop), no thread fails: `main`'s
`assert(z.load()!=0)` after joining both holds. -/
theorem messagePassing_assert_holds (hw : fw = true ∨ oy.isRelease = true)
    (hr : fr = true ∨ oy'.isAcquire = true) {h : List (Tid × Int)}
    (hs : (program Loc).Reach
      (init memory₀ (messagePassing p (writeXThenY ox fw oy) (readThen .y .x oy' fr ox'))) s h)
    (t : Tid) : (s.thr t).failed = none :=
  (inv_reach hw hr hs).ok t

/-- `acquirerelease()` is an instance, and has a run in which `main` passes its
assertion. -/
theorem messagePassing_assert_holds_acquirerelease :
    ∃ s h, (program Loc).Reach acquirerelease s h ∧ (s.thr .main).code = [] ∧
      (s.thr .main).failed = none := by
  have hrun : (program Loc).holdsAfter acquirerelease [(.a, 0), (.a, 0), (.a, 0), (.b, 1),
      (.b, 1), (.b, 0), (.b, 0), (.main, 1), (.main, 1), (.main, 1), (.main, 1)]
      (fun s => decide ((s.thr .main).code = [])) = true := by
    decide
  obtain ⟨s, h, hr, hp⟩ := Program.reach_of_holdsAfter hrun
  exact ⟨s, h, hr, of_decide_eq_true hp,
    messagePassing_assert_holds (by exact .inr rfl) (by exact .inr rfl) hr .main⟩

/-- With every order relaxed, as in `relaxed()`, the assertion can fail: `b` sees `y` set and
still reads `x` unset, so it skips the increment and `main` reads `z` as 0 after the joins. -/
lemma relaxed_assert_fails :
    ∃ s h, (program Loc).Reach relaxed s h ∧ (s.thr .main).failed = some .assertion := by
  have hrun : (program Loc).holdsAfter relaxed [(.a, 0), (.a, 0), (.a, 0), (.b, 1), (.b, 0),
      (.b, 0), (.main, 1), (.main, 1), (.main, 0), (.main, 0)]
      (fun s => decide ((s.thr .main).failed = some .assertion)) = true := by
    decide
  obtain ⟨s, h, hr, hp⟩ := Program.reach_of_holdsAfter hrun
  exact ⟨s, h, hr, of_decide_eq_true hp⟩

end MessagePassing

/-! ### `seq_cst()` -/

/-- What `seq_cst()` does once `a`, `b` and `c` run: `a.join(); b.join(); c.join();` and
`cout << z`. -/
def seqCstMain : List (Instr Loc) :=
  [join (.done .a), join (.done .b), join (.done .c), .print .z (some .seqCst)]

/-- The threads of `seq_cst()`: `a` runs `write_x`, `b` `write_y` and `c` `read_x_then_y`;
`d`, commented out in the source, does not run. -/
def seqCstThreads : Tid → List (Instr Loc)
  | .main => seqCstMain
  | .a => writeX ++ [exit (.done .a)]
  | .b => writeY ++ [exit (.done .b)]
  | .c => readXThenY ++ [exit (.done .c)]
  | .d => []

/-- `seq_cst()`. -/
def seqCst : Conf Tid (Memory Loc) (Thread Loc) := init memory₀ seqCstThreads

/-- `seq_cst()` as written can print 0: `c` sees `x` set before `b` sets `y`, so no thread
increments `z`. This is why its `assert(z.load()!=0)` is commented out. -/
lemma seqCst_prints_zero :
    ∃ s h, (scProgram Loc).Reach seqCst s h ∧ (Tid.main, (0 : Int)) ∈ h := by
  have key : (match (scProgram Loc).run seqCst [(.a, ()), (.c, ()), (.c, ()), (.c, ()),
      (.b, ()), (.b, ()), (.a, ()), (.main, ()), (.main, ()), (.main, ()), (.main, ())] with
    | .ok (_, h) => decide ((Tid.main, (0 : Int)) ∈ h)
    | .error _ => false) = true := by decide
  split at key
  · exact ⟨_, _, Program.reach_of_run ‹_›, of_decide_eq_true key⟩
  · cases key

/-! ### `seq_cst()` with `read_y_then_x` -/

/-- The four functions of `seq_cst()`'s threads, `read_y_then_x` included. -/
inductive Role
  | writeX
  | writeY
  | readXThenY
  | readYThenX
  deriving DecidableEq, Repr

/-- The function a thread of the role runs. -/
def Role.code : Role → List (Instr Loc)
  | .writeX => Orderings.writeX
  | .writeY => Orderings.writeY
  | .readXThenY => Orderings.readXThenY
  | .readYThenX => Orderings.readYThenX

/-- The flag a reader spins on. -/
def Role.spinsOn : Role → Option Loc
  | .readXThenY => some .x
  | .readYThenX => some .y
  | .writeX | .writeY => none

/-- Readers spin on `x` or `y`. -/
lemma Role.spinsOn_eq {r : Role} {l : Loc} (h : r.spinsOn = some l) : l = .x ∨ l = .y := by
  cases r <;> cases h
  exacts [.inl rfl, .inr rfl]

section SeqCst

variable {T : Type} [DecidableEq T] {role : T → Role} {s : Conf T (Memory Loc) (Thread Loc)}

/-- The invariant of `seq_cst()`'s functions under sequential consistency: `x` and `y` only
hold 0 and 1, `z` only counts up, a reader past its loop has seen its flag set, and two
readers of different flags do not both end before one of them has incremented `z`. -/
structure ScInv (role : T → Role) (s : Conf T (Memory Loc) (Thread Loc)) : Prop where
  nonempty : ∀ l, s.shared l ≠ []
  flags : ∀ l, l ≠ .z → ∀ w ∈ s.shared l, w.val = 0 ∨ w.val = 1
  z_nonneg : ∀ w ∈ s.shared .z, 0 ≤ w.val
  saw : ∀ t l, (role t).spinsOn = some l → (s.thr t).code.length < 3 →
    Memory.lastVal s.shared l = 1
  incremented : ∀ c d l l', (role c).spinsOn = some l → (role d).spinsOn = some l' → l ≠ l' →
    (s.thr c).code = [] → (s.thr d).code = [] → Memory.lastVal s.shared .z ≠ 0

/-- A step of thread `t` to memory `g` and state `l` keeps the invariant when the memory keeps
its shape, set flags stay set, a nonzero `z` stays nonzero, and `t` itself keeps what the
invariant asks of a reader. -/
lemma ScInv.set (hI : ScInv role s) {t : T} {g : Memory Loc} {l : Thread Loc}
    (hne : ∀ l, g l ≠ []) (hflags : ∀ l, l ≠ .z → ∀ w ∈ g l, w.val = 0 ∨ w.val = 1)
    (hz₀ : ∀ w ∈ g .z, 0 ≤ w.val)
    (hgrow : ∀ l', l' ≠ .z → Memory.lastVal s.shared l' = 1 → Memory.lastVal g l' = 1)
    (hz : Memory.lastVal s.shared .z ≠ 0 → Memory.lastVal g .z ≠ 0)
    (hsaw : ∀ l', (role t).spinsOn = some l' → l.code.length < 3 → Memory.lastVal g l' = 1)
    (hinc : ∀ u l₁ l₂, (role t).spinsOn = some l₁ → (role u).spinsOn = some l₂ → l₁ ≠ l₂ →
      l.code = [] → ((s.set t g l).thr u).code = [] → Memory.lastVal g .z ≠ 0) :
    ScInv role (s.set t g l) := by
  have hnz : ∀ u l', (role u).spinsOn = some l' → l' ≠ .z := fun u l' h => by
    rcases Role.spinsOn_eq h with rfl | rfl <;> exact nofun
  refine ⟨hne, hflags, hz₀, fun u l' hu hlen => ?_, fun c d l₁ l₂ hc hd hne' hc' hd' => ?_⟩
  · by_cases h : u = t
    · subst h; exact hsaw l' hu (by simpa using hlen)
    · rw [Conf.set_thr_ne _ _ _ h] at hlen
      exact hgrow l' (hnz u l' hu) (hI.saw u l' hu hlen)
  · by_cases h : c = t
    · subst h; exact hinc d l₁ l₂ hc hd hne' (by simpa using hc') hd'
    by_cases h' : d = t
    · subst h'
      exact hinc c l₂ l₁ hd hc (Ne.symm hne') (by simpa using hd') hc'
    rw [Conf.set_thr_ne _ _ _ h] at hc'
    rw [Conf.set_thr_ne _ _ _ h'] at hd'
    exact hz (hI.incremented c d l₁ l₂ hc hd hne' hc' hd')

omit [DecidableEq T] in
lemma ScInv.lastVal_flag (hI : ScInv role s) {l : Loc} (hl : l ≠ .z) :
    Memory.lastVal s.shared l = 0 ∨ Memory.lastVal s.shared l = 1 := by
  obtain ⟨w, hw, he⟩ := Memory.lastVal_mem (hI.nonempty l)
  rw [he]
  exact hI.flags l hl w hw

/-- `write_x` and `write_y` keep the invariant: they set a flag. -/
lemma ScInv.step_writer (hI : ScInv role s) {t : T} {l : Loc} (ht : (role t).spinsOn = none)
    (hl : l ≠ .z) (hsuf : (s.thr t).code <:+ [.store l 1 .seqCst]) (i : Nat) :
    ScInv role (s.set t (step s.shared (s.thr t) i).1 (step s.shared (s.thr t) i).2.1) := by
  have stay : ScInv role (s.set t s.shared (s.thr t)) := by rw [Conf.set_self]; exact hI
  generalize s.thr t = th at hsuf stay ⊢
  obtain ⟨code, tv, f⟩ := th
  simp only [List.suffix_cons_iff, List.suffix_nil] at hsuf
  rcases hsuf with rfl | rfl
  · rw [step_store rfl]
    dsimp only [TView.store_fst]
    refine hI.set (fun _ => Memory.update_append_ne_nil (hI.nonempty _)) (fun l' hl' w hw => ?_)
      (fun w hw => ?_) (fun l' _ h1 => ?_) (fun h0 => ?_) (by simp [ht]) (by simp [ht])
    · rcases Memory.mem_update_append hw with hw | ⟨-, rfl⟩
      exacts [hI.flags l' hl' w hw, .inr rfl]
    · rcases Memory.mem_update_append hw with hw | ⟨h, -⟩
      exacts [hI.z_nonneg w hw, absurd h.symm hl]
    · rw [Memory.lastVal_update_append]
      split
      · rfl
      · exact h1
    · rwa [Memory.lastVal_update_append, if_neg (Ne.symm hl)]
  · rw [step_nil rfl]; exact stay

/-- `read_x_then_y` and `read_y_then_x` keep the invariant: a reader that sees its flag set
and the other unset ends only if no reader of the other flag has ended. -/
lemma ScInv.step_reader (hI : ScInv role s) {t : T} {l₁ l₂ : Loc}
    (ht : (role t).spinsOn = some l₁) (hother : ∀ u l, (role u).spinsOn = some l → l ≠ l₁ → l = l₂)
    (h₁ : l₁ ≠ .z) (h₂ : l₂ ≠ .z) (h₁₂ : l₁ ≠ l₂)
    (hsuf : (s.thr t).code <:+ [.await l₁ .seqCst, .ifLoad l₂ .seqCst, .increment .z]) :
    ScInv role (s.set t (step s.shared (s.thr t) (scChoice s.shared (s.thr t))).1
      (step s.shared (s.thr t) (scChoice s.shared (s.thr t))).2.1) := by
  have stay : ScInv role (s.set t s.shared (s.thr t)) := by rw [Conf.set_self]; exact hI
  have hsaw := hI.saw t l₁ ht
  generalize s.thr t = th at hsuf stay hsaw ⊢
  obtain ⟨code, tv, f⟩ := th
  -- a step that leaves the memory as it is
  have keep := fun (l : Thread Loc) => hI.set (g := s.shared) (t := t) (l := l) hI.nonempty
    hI.flags hI.z_nonneg (fun _ _ h => h) id
  simp only [List.suffix_cons_iff, List.suffix_nil] at hsuf
  rcases hsuf with rfl | rfl | rfl | rfl
  · -- `while(!l₁.load())`
    rw [show scChoice s.shared ⟨[.await l₁ .seqCst, .ifLoad l₂ .seqCst, .increment .z], tv, f⟩ =
      (s.shared l₁).length - 1 from rfl]
    rcases step_await s.shared ⟨_, tv, f⟩ ((s.shared l₁).length - 1) rfl with
      h | ⟨v, tv', hl, h⟩ <;> rw [h]
    · exact stay
    have hv := TView.load_last hl
    refine keep _ (fun l' hl' hlen => ?_) (fun _ _ _ _ _ _ hc _ => ?_)
    · rw [ht] at hl'
      cases hl'
      by_cases h0 : v = 0
      · rw [if_pos h0] at hlen
        exact absurd hlen (Nat.lt_irrefl 3)
      · rcases hI.lastVal_flag h₁ with h1 | h1
        exacts [absurd (hv.trans h1) h0, h1]
    · split at hc <;> cases hc
  · -- `if(l₂.load()) ++z;`
    rw [show scChoice s.shared ⟨[.ifLoad l₂ .seqCst, .increment .z], tv, f⟩ =
      (s.shared l₂).length - 1 from rfl]
    rcases step_ifLoad s.shared ⟨_, tv, f⟩ ((s.shared l₂).length - 1) rfl with
      h | ⟨v, tv', hl, h⟩ <;> rw [h]
    · exact stay
    have hv := TView.load_last hl
    refine keep _ (fun l' hl' _ => ?_) (fun u l₁' l₂' htu hu hne hc hu' => ?_)
    · rw [ht] at hl'
      cases hl'
      exact hsaw (by simp)
    · rw [ht] at htu
      cases htu
      have hut : u ≠ t := by rintro rfl; rw [ht] at hu; cases hu; exact hne rfl
      rw [Conf.set_thr_ne _ _ _ hut] at hu'
      have h1 := hI.saw u l₂' hu (by rw [hu']; decide)
      obtain rfl := hother u l₂' hu (Ne.symm hne)
      by_cases h0 : v = 0
      · rw [hv] at h0
        rw [h0] at h1
        exact absurd h1 (by decide)
      · rw [if_neg h0] at hc
        cases hc
  · -- `++z`
    rcases step_increment s.shared ⟨_, tv, f⟩ (scChoice s.shared ⟨_, tv, f⟩) rfl with
      h | ⟨v, m', tv', hl, h⟩ <;> rw [h]
    · exact stay
    obtain ⟨w, hw, rfl, rfl, rfl⟩ := TView.rmw_eq_some hl
    dsimp only
    have hw0 := hI.z_nonneg w (List.mem_of_getLast?_eq_some hw)
    have hlast : ∀ mv, Memory.lastVal (Function.update s.shared .z
        (s.shared .z ++ [⟨w.val + 1, mv, 0⟩])) .z = w.val + 1 := fun _ => by
      rw [Memory.lastVal_update_append, if_pos rfl]
    refine hI.set (fun _ => Memory.update_append_ne_nil (hI.nonempty _)) (fun l' hl' w' hw' => ?_)
      (fun w' hw' => ?_) (fun l' hl' h1 => ?_) (fun _ => ?_) (fun l' hl' _ => ?_)
      (fun _ _ _ _ _ _ _ _ => ?_)
    · rcases Memory.mem_update_append hw' with hw' | ⟨h, -⟩
      exacts [hI.flags l' hl' w' hw', absurd h hl']
    · rcases Memory.mem_update_append hw' with hw' | ⟨-, rfl⟩
      · exact hI.z_nonneg w' hw'
      · show (0 : Int) ≤ w.val + 1
        omega
    · rwa [Memory.lastVal_update_append, if_neg hl']
    · rw [hlast]; omega
    · rw [ht] at hl'
      cases hl'
      rw [Memory.lastVal_update_append, if_neg h₁]
      exact hsaw (by simp)
    · rw [hlast]; omega
  · rw [step_nil rfl]; exact stay

/-- Every step keeps the invariant. -/
lemma ScInv.step (hI : ScInv role s) {t : T} (hsuf : (s.thr t).code <:+ (role t).code) :
    ScInv role (s.set t (step s.shared (s.thr t) (scChoice s.shared (s.thr t))).1
      (step s.shared (s.thr t) (scChoice s.shared (s.thr t))).2.1) := by
  have hx : ∀ u l, (role u).spinsOn = some l → l ≠ .x → l = .y := fun _ _ h hne =>
    (Role.spinsOn_eq h).resolve_left hne
  have hy : ∀ u l, (role u).spinsOn = some l → l ≠ .y → l = .x := fun _ _ h hne =>
    (Role.spinsOn_eq h).resolve_right hne
  cases hr : role t <;> rw [hr] at hsuf
  · exact hI.step_writer (l := .x) (by rw [hr]; rfl) nofun hsuf _
  · exact hI.step_writer (l := .y) (by rw [hr]; rfl) nofun hsuf _
  · exact hI.step_reader (by rw [hr]; rfl) hx nofun nofun nofun hsuf
  · exact hI.step_reader (by rw [hr]; rfl) hy nofun nofun nofun hsuf

omit [DecidableEq T] in
lemma scInv_init (role : T → Role) : ScInv role (init memory₀ fun t => (role t).code) := by
  refine ⟨fun _ => List.cons_ne_nil _ _, fun _ _ w hw => ?_, fun w hw => ?_,
    fun t l hl hlen => ?_, fun c _ l _ hc _ _ hc' _ => ?_⟩
  · exact .inl (by rw [List.mem_singleton.1 hw])
  · rw [List.mem_singleton.1 hw]
  · cases hr : role t <;> rw [hr] at hl <;> cases hl <;>
      simp [init, hr, Role.code, readXThenY, readYThenX, readThen] at hlen
  · cases hr : role c <;> rw [hr] at hc <;> cases hc <;>
      simp [init, hr, Role.code, readXThenY, readYThenX, readThen] at hc'

lemma scInv_reach {h : List (T × Int)}
    (hs : (scProgram Loc).Reach (init memory₀ fun t => (role t).code) s h) : ScInv role s := by
  induction hs with
  | refl => exact scInv_init role
  | @step s₁ _ t c _ _ _ reach hstep ih =>
    have := ih.step (reach_code_suffix (Reach.of_sc reach) t)
    rwa [show step s₁.shared (s₁.thr t) (scChoice s₁.shared (s₁.thr t)) = _ from
      Except.ok.inj hstep] at this

/-- `read_x_then_y` and `read_y_then_x` never both end leaving `z` at 0: in every sequentially
consistent run of any number of threads, each running `write_x`, `write_y`, `read_x_then_y`
or `read_y_then_x`, once a thread of each reader has ended, the last value of `z` is
nonzero. -/
theorem seqCst_readers_increment (role : T → Role) {h : List (T × Int)}
    (hs : (scProgram Loc).Reach (init memory₀ fun t => (role t).code) s h) {c d : T}
    (hc : role c = .readXThenY) (hd : role d = .readYThenX) (hc' : (s.thr c).code = [])
    (hd' : (s.thr d).code = []) : Memory.lastVal s.shared .z ≠ 0 :=
  (scInv_reach hs).incremented c d .x .y (by rw [hc]; rfl) (by rw [hd]; rfl) nofun hc' hd'

end SeqCst

/-- A run of the four functions, one thread each, in which both readers end. -/
theorem seqCst_readers_increment_run :
    ∃ s h, (scProgram Loc).Reach (init memory₀ fun r : Role => r.code) s h ∧
      (s.thr .readXThenY).code = [] ∧ (s.thr .readYThenX).code = [] ∧
      Memory.lastVal s.shared .z ≠ 0 := by
  have hrun : (scProgram Loc).holdsAfter (init memory₀ fun r : Role => r.code)
      [(.writeX, ()), (.writeY, ()), (.readXThenY, ()), (.readXThenY, ()), (.readXThenY, ()),
        (.readYThenX, ()), (.readYThenX, ()), (.readYThenX, ())]
      (fun s => decide ((s.thr .readXThenY).code = [] ∧ (s.thr .readYThenX).code = [])) = true := by
    decide
  obtain ⟨s, h, hr, hp⟩ := Program.reach_of_holdsAfter hrun
  obtain ⟨h1, h2⟩ := of_decide_eq_true hp
  exact ⟨s, h, hr, h1, h2, seqCst_readers_increment id hr rfl rfl h1 h2⟩

end ConcurrencyInAction.Atomics.Orderings
