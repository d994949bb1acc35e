import Mathlib.Logic.Function.Basic
import Mathlib.Order.Basic
import Mathlib.Data.Nat.Defs

/-!
# Atomics under release/acquire: views and modification orders

The memory of `atomic.cpp`, in the view-based operational reading of the C++ release/acquire
and relaxed orders. Each location keeps its writes in modification order, oldest first, the
first being its initial value. A write carries the view it releases. A thread has a view: for
each location, the position of the latest write it has seen, so that its loads may read that
write or any later one, never an older one (coherence).

* a load reads any write its view has not passed, and joins the write's released view into
  the thread's view when it acquires;
* a store goes last in its location's modification order; a release store releases the
  thread's whole view, a relaxed one only what the thread's last release fence saw;
* a read-modify-write (`fetch_add`, `test_and_set`) reads the last write and writes right
  after it, continuing the release sequence of the write it read;
* `atomic_thread_fence(acquire)` acquires the views of every write the thread has read, and
  `atomic_thread_fence(release)` makes later relaxed stores release the thread's view.

`memory_order_seq_cst` is read as `acq_rel` here: the single total order on sequentially
consistent operations is not part of this model, which therefore allows more executions than
the standard does; a property proved of all of them holds of the standard's. A program whose
atomics are all sequentially consistent is read under sequential consistency instead
(`Litmus.scProgram`).

Plain (non-atomic) locations use the same histories, and a view also records the plain reads
its thread has seen, each named by the write it read and its number among that write's reads;
views pass reads on as they pass writes. A plain read races with a write its thread has not
seen; a plain write races also with a read of the last write that its thread has not seen.
-/

namespace ConcurrencyInAction.Atomics

/-- `std::memory_order`, as far as `atomic.cpp` uses it. -/
inductive MemoryOrder
  | relaxed
  | acquire
  | release
  | acqRel
  | seqCst
  deriving DecidableEq, Repr

namespace MemoryOrder

/-- A load or read-modify-write with this order acquires. -/
def isAcquire : MemoryOrder → Bool
  | .acquire | .acqRel | .seqCst => true
  | .relaxed | .release => false

/-- A store or read-modify-write with this order releases. -/
def isRelease : MemoryOrder → Bool
  | .release | .acqRel | .seqCst => true
  | .relaxed | .acquire => false

end MemoryOrder

/-- A view: for each location, the position in its modification order of the latest write
seen, and the plain reads seen, each as the position of the write read and its number among
that write's reads. -/
structure View (Loc : Type) where
  seen : Loc → Nat
  reads : Loc → List (Nat × Nat)

namespace View

variable {Loc : Type}

instance : CoeFun (View Loc) fun _ => Loc → Nat := ⟨View.seen⟩

/-- The view that has seen only the initial writes, and no read. -/
def bot : View Loc := ⟨fun _ => 0, fun _ => []⟩

/-- Everything either view has seen. -/
def join (v w : View Loc) : View Loc :=
  ⟨fun l => max (v l) (w l), fun l => v.reads l ++ w.reads l⟩

@[simp] lemma bot_apply (l : Loc) : (bot : View Loc) l = 0 := rfl

@[simp] lemma join_apply (v w : View Loc) (l : Loc) : v.join w l = max (v l) (w l) := rfl

@[simp] lemma join_reads (v w : View Loc) (l : Loc) :
    (v.join w).reads l = v.reads l ++ w.reads l := rfl

variable [DecidableEq Loc]

/-- The view that has seen write `i` of `l` (and the initial writes). -/
def single (l : Loc) (i : Nat) : View Loc := ⟨fun l' => if l' = l then i else 0, fun _ => []⟩

@[simp] lemma single_self (l : Loc) (i : Nat) : single l i l = i := if_pos rfl

lemma single_ne {l l' : Loc} (i : Nat) (h : l' ≠ l) : single l i l' = 0 := if_neg h

/-- The view that has seen read `r` of `l`, and nothing else. -/
def read (l : Loc) (r : Nat × Nat) : View Loc := ⟨fun _ => 0, fun l' => if l' = l then [r] else []⟩

@[simp] lemma read_apply (l l' : Loc) (r : Nat × Nat) : read l r l' = 0 := rfl

@[simp] lemma read_reads_self (l : Loc) (r : Nat × Nat) : (read l r).reads l = [r] := if_pos rfl

end View

/-- An element of a list with one more element appended is an old one or the new one. -/
lemma getElem?_concat_eq_some {α : Type} {l : List α} {a w : α} {i : Nat}
    (h : (l ++ [a])[i]? = some w) : l[i]? = some w ∨ (i = l.length ∧ w = a) := by
  rcases Nat.lt_or_ge i l.length with hi | hi
  · exact .inl (by rwa [List.getElem?_append_left hi] at h)
  · rw [List.getElem?_append_right hi] at h
    obtain ⟨hi', rfl⟩ : i - l.length = 0 ∧ a = w := by
      simpa [List.getElem?_cons, List.getElem?_nil] using h
    exact .inr ⟨by omega, rfl⟩

/-- A write: the value written, the view it releases, and the number of plain reads of it. -/
structure Msg (Loc : Type) where
  val : Int
  view : View Loc
  readers : Nat

/-- The memory: the writes of each location in modification order, oldest first. -/
abbrev Memory (Loc : Type) := Loc → List (Msg Loc)

section Memory

variable {Loc : Type} [DecidableEq Loc]

/-- A write of a location after a write was appended to location `l`. -/
lemma Memory.mem_update_append {m : Memory Loc} {l l' : Loc} {w w' : Msg Loc}
    (h : w' ∈ Function.update m l (m l ++ [w]) l') : w' ∈ m l' ∨ (l' = l ∧ w' = w) := by
  by_cases hl : l' = l
  · subst hl
    rw [Function.update_same] at h
    rcases List.mem_append.1 h with h | h
    · exact .inl h
    · exact .inr ⟨rfl, List.mem_singleton.1 h⟩
  · rw [Function.update_noteq hl] at h
    exact .inl h

/-- The `i`-th write of a location after a write was appended to location `l`. -/
lemma Memory.getElem?_update_append {m : Memory Loc} {l l' : Loc}
    {w w' : Msg Loc} {i : Nat} (h : (Function.update m l (m l ++ [w]) l')[i]? = some w') :
    (m l')[i]? = some w' ∨ (l' = l ∧ i = (m l).length ∧ w' = w) := by
  by_cases hl : l' = l
  · subst hl
    rw [Function.update_same] at h
    rcases getElem?_concat_eq_some h with h | ⟨hi, rfl⟩
    · exact .inl h
    · exact .inr ⟨rfl, hi, rfl⟩
  · rw [Function.update_noteq hl] at h
    exact .inl h

/-- Appending a write keeps every location's history nonempty. -/
lemma Memory.update_append_ne_nil {m : Memory Loc} {l l' : Loc} {w : Msg Loc} (h : m l' ≠ []) :
    Function.update m l (m l ++ [w]) l' ≠ [] := by
  by_cases hl : l' = l
  · subst hl; simp
  · rwa [Function.update_noteq hl]

/-- The value of the last write of `l`. -/
def Memory.lastVal (m : Memory Loc) (l : Loc) : Int := ((m l).getLast?.map Msg.val).getD 0

lemma Memory.lastVal_update_append (m : Memory Loc) (l l' : Loc) (w : Msg Loc) :
    Memory.lastVal (Function.update m l (m l ++ [w])) l' =
      if l' = l then w.val else Memory.lastVal m l' := by
  by_cases h : l' = l
  · subst h; simp [Memory.lastVal]
  · simp [Memory.lastVal, Function.update_noteq h, h]

omit [DecidableEq Loc] in
/-- The last value of a location is the value of one of its writes. -/
lemma Memory.lastVal_mem {m : Memory Loc} {l : Loc} (h : m l ≠ []) :
    ∃ w ∈ m l, Memory.lastVal m l = w.val := by
  obtain ⟨w, hw⟩ := List.getLast?_isSome.2 h |> Option.isSome_iff_exists.1
  exact ⟨w, List.mem_of_getLast?_eq_some hw, by simp [Memory.lastVal, hw]⟩

/-- The number of plain reads of the last write of `l`. -/
def Memory.lastReaders (m : Memory Loc) (l : Loc) : Nat := ((m l).getLast?.map Msg.readers).getD 0

lemma Memory.lastReaders_update_append (m : Memory Loc) (l l' : Loc) (w : Msg Loc) :
    Memory.lastReaders (Function.update m l (m l ++ [w])) l' =
      if l' = l then w.readers else Memory.lastReaders m l' := by
  by_cases h : l' = l
  · subst h; simp [Memory.lastReaders]
  · simp [Memory.lastReaders, Function.update_noteq h, h]

/-- A plain read of `l`: the last write of `l` has one more reader. -/
def Memory.addReader (m : Memory Loc) (l : Loc) : Memory Loc :=
  Function.update m l ((m l).dropLast ++
    ((m l).getLast?.map fun w => { w with readers := w.readers + 1 }).toList)

/-- A plain read leaves each location's writes as they were, or the same with one more reader
of the last. -/
lemma Memory.addReader_cases (m : Memory Loc) (l l' : Loc) :
    m.addReader l l' = m l' ∨ ∃ ws w, m l' = ws ++ [w] ∧
      m.addReader l l' = ws ++ [{ w with readers := w.readers + 1 }] := by
  by_cases hl : l' = l
  · subst hl
    rcases List.eq_nil_or_concat (m l') with h | ⟨ws, w, h⟩
    · exact .inl (by simp [Memory.addReader, h])
    · rw [List.concat_eq_append] at h
      exact .inr ⟨ws, w, h, by simp [Memory.addReader, h]⟩
  · exact .inl (Function.update_noteq hl _ _)

lemma Memory.addReader_ne (m : Memory Loc) {l l' : Loc} (h : l' ≠ l) :
    m.addReader l l' = m l' :=
  Function.update_noteq h _ _

@[simp] lemma Memory.length_addReader (m : Memory Loc) (l l' : Loc) :
    (m.addReader l l').length = (m l').length := by
  rcases m.addReader_cases l l' with h | ⟨ws, w, h, h'⟩ <;> simp [h, *]

@[simp] lemma Memory.lastVal_addReader (m : Memory Loc) (l l' : Loc) :
    Memory.lastVal (m.addReader l) l' = Memory.lastVal m l' := by
  rcases m.addReader_cases l l' with h | ⟨ws, w, h, h'⟩ <;> simp [Memory.lastVal, h, *]

lemma Memory.addReader_ne_nil {m : Memory Loc} (l : Loc) {l' : Loc} (h : m l' ≠ []) :
    m.addReader l l' ≠ [] := by
  rw [← List.length_pos, Memory.length_addReader]; exact List.length_pos.2 h

/-- A plain read of `l` adds a reader to its last write. -/
lemma Memory.lastReaders_addReader {m : Memory Loc} {l : Loc} (h : m l ≠ []) :
    Memory.lastReaders (m.addReader l) l = Memory.lastReaders m l + 1 := by
  obtain ⟨ws, w, hw⟩ := (List.eq_nil_or_concat (m l)).resolve_left h
  simp [Memory.lastReaders, Memory.addReader, hw]

/-- View `v` has seen every plain read of the last write of `l`. -/
def View.HasReads (v : View Loc) (m : Memory Loc) (l : Loc) : Prop :=
  ∀ j < Memory.lastReaders m l, ((m l).length - 1, j) ∈ v.reads l

instance (v : View Loc) (m : Memory Loc) (l : Loc) : Decidable (v.HasReads m l) :=
  inferInstanceAs (Decidable (∀ j < _, _))

omit [DecidableEq Loc] in
lemma View.HasReads.join_left {v : View Loc} {m : Memory Loc} {l : Loc} (h : v.HasReads m l)
    (v' : View Loc) : (v.join v').HasReads m l :=
  fun j hj => List.mem_append_left _ (h j hj)

omit [DecidableEq Loc] in
lemma View.HasReads.join_right {v : View Loc} {m : Memory Loc} {l : Loc} (h : v.HasReads m l)
    (v' : View Loc) : (v'.join v).HasReads m l :=
  fun j hj => List.mem_append_right _ (h j hj)

omit [DecidableEq Loc] in
/-- Only the writes of `l` matter to whether a view has seen the reads of `l`. -/
lemma View.HasReads.congr {v : View Loc} {m m' : Memory Loc} {l : Loc} (h : v.HasReads m l)
    (hm : m' l = m l) : v.HasReads m' l := by
  simpa only [View.HasReads, Memory.lastReaders, hm] using h

/-- Nothing has read a write just appended. -/
lemma View.hasReads_update_append (v : View Loc) (m : Memory Loc) (l : Loc) {w : Msg Loc}
    (hw : w.readers = 0) : v.HasReads (Function.update m l (m l ++ [w])) l := by
  intro j hj
  rw [Memory.lastReaders_update_append, if_pos rfl, hw] at hj
  cases hj

end Memory

/-- What a thread has seen: `cur` bounds what its loads may read, `acq` gathers the views of
the writes it has read (for a later acquire fence), and `rel` is `cur` at its last release
fence, which its relaxed stores release. -/
structure TView (Loc : Type) where
  cur : View Loc
  acq : View Loc
  rel : View Loc

namespace TView

variable {Loc : Type} [DecidableEq Loc]

/-- A thread that has seen only the initial writes. -/
def init : TView Loc := ⟨.bot, .bot, .bot⟩

/-- `l.load(o)` reading write `i` of `l`: any write the view has not passed. -/
def load (tv : TView Loc) (m : Memory Loc) (l : Loc) (o : MemoryOrder) (i : Nat) :
    Option (Int × TView Loc) :=
  match (m l)[i]? with
  | none => none
  | some w =>
    if tv.cur l ≤ i then
      some (w.val, ⟨(tv.cur.join (.single l i)).join (if o.isAcquire then w.view else .bot),
        (tv.acq.join (.single l i)).join w.view, tv.rel⟩)
    else none

/-- `l.store(v, o)`: the write goes last in `l`'s modification order. -/
def store (tv : TView Loc) (m : Memory Loc) (l : Loc) (v : Int) (o : MemoryOrder) :
    Memory Loc × TView Loc :=
  let i := (m l).length
  let cur := tv.cur.join (.single l i)
  (Function.update m l (m l ++ [⟨v, if o.isRelease then cur else tv.rel.join (.single l i), 0⟩]),
    ⟨cur, tv.acq.join (.single l i), tv.rel⟩)

/-- A read-modify-write of `l` with order `o` writing `f` of the value it reads: it reads the
last write of `l` and writes right after it, releasing also what that write released. It
returns the value read. -/
def rmw (tv : TView Loc) (m : Memory Loc) (l : Loc) (f : Int → Int) (o : MemoryOrder) :
    Option (Int × Memory Loc × TView Loc) :=
  match (m l).getLast? with
  | none => none
  | some w =>
    let i := (m l).length
    let cur := (tv.cur.join (.single l i)).join (if o.isAcquire then w.view else .bot)
    some (w.val,
      Function.update m l
        (m l ++ [⟨f w.val, (if o.isRelease then cur else tv.rel.join (.single l i)).join w.view,
          0⟩]),
      ⟨cur, (tv.acq.join (.single l i)).join w.view, tv.rel⟩)

/-- `std::atomic_thread_fence(o)`. -/
def fence (tv : TView Loc) (o : MemoryOrder) : TView Loc :=
  let cur := if o.isAcquire then tv.cur.join tv.acq else tv.cur
  ⟨cur, tv.acq, if o.isRelease then cur else tv.rel⟩

/-- A plain read of `l`: it reads the last write of `l`, which gets one more reader, and the
thread's view records the read. -/
def readPlain (tv : TView Loc) (m : Memory Loc) (l : Loc) : Int × Memory Loc × TView Loc :=
  (Memory.lastVal m l, m.addReader l,
    { tv with cur := tv.cur.join (.read l ((m l).length - 1, Memory.lastReaders m l)) })

/-- The thread has seen the last write of `l`: a plain access to `l` does not race with a
write. -/
def Sees (tv : TView Loc) (m : Memory Loc) (l : Loc) : Prop := (m l).length ≤ tv.cur l + 1

instance (tv : TView Loc) (m : Memory Loc) (l : Loc) : Decidable (tv.Sees m l) :=
  inferInstanceAs (Decidable (_ ≤ _))

/-- The thread has seen every plain read of the last write of `l`: a plain write to `l` does
not race with a read. -/
def SeesReads (tv : TView Loc) (m : Memory Loc) (l : Loc) : Prop := tv.cur.HasReads m l

instance (tv : TView Loc) (m : Memory Loc) (l : Loc) : Decidable (tv.SeesReads m l) :=
  inferInstanceAs (Decidable (tv.cur.HasReads m l))

/-! ### What each operation does -/

/-- A store appends its write to the location. -/
lemma store_fst (tv : TView Loc) (m : Memory Loc) (l : Loc) (v : Int) (o : MemoryOrder) :
    (tv.store m l v o).1 = Function.update m l (m l ++ [⟨v, if o.isRelease then
      tv.cur.join (.single l (m l).length) else tv.rel.join (.single l (m l).length), 0⟩]) := rfl


lemma load_eq_some {tv tv' : TView Loc} {m : Memory Loc} {l : Loc} {o : MemoryOrder} {i : Nat}
    {v : Int} (h : tv.load m l o i = some (v, tv')) :
    ∃ w, (m l)[i]? = some w ∧ tv.cur l ≤ i ∧ v = w.val ∧
      tv' = ⟨(tv.cur.join (.single l i)).join (if o.isAcquire then w.view else .bot),
        (tv.acq.join (.single l i)).join w.view, tv.rel⟩ := by
  unfold load at h
  split at h
  · cases h
  · rename_i w hw
    split at h
    · cases h
      exact ⟨w, hw, ‹_›, rfl, rfl⟩
    · cases h

lemma rmw_eq_some {tv tv' : TView Loc} {m m' : Memory Loc} {l : Loc} {f : Int → Int}
    {o : MemoryOrder} {v : Int} (h : tv.rmw m l f o = some (v, m', tv')) :
    ∃ w, (m l).getLast? = some w ∧ v = w.val ∧
      m' = Function.update m l (m l ++ [⟨f w.val,
        (if o.isRelease then (tv.cur.join (.single l (m l).length)).join
          (if o.isAcquire then w.view else .bot)
        else tv.rel.join (.single l (m l).length)).join w.view, 0⟩]) ∧
      tv' = ⟨(tv.cur.join (.single l (m l).length)).join (if o.isAcquire then w.view else .bot),
        (tv.acq.join (.single l (m l).length)).join w.view, tv.rel⟩ := by
  unfold rmw at h
  split at h
  · cases h
  · rename_i w hw
    cases h
    exact ⟨w, hw, rfl, rfl, rfl⟩

/-- A load of the last write of `l` reads `l`'s last value. -/
lemma load_last {tv tv' : TView Loc} {m : Memory Loc} {l : Loc} {o : MemoryOrder} {v : Int}
    (h : tv.load m l o ((m l).length - 1) = some (v, tv')) : v = Memory.lastVal m l := by
  obtain ⟨w, hw, -, rfl, -⟩ := load_eq_some h
  simp [Memory.lastVal, List.getLast?_eq_getElem?, hw]

/-- A store moves the thread's view past its own write. -/
lemma store_snd (tv : TView Loc) (m : Memory Loc) (l : Loc) (v : Int) (o : MemoryOrder) :
    (tv.store m l v o).2 = ⟨tv.cur.join (.single l (m l).length),
      tv.acq.join (.single l (m l).length), tv.rel⟩ := rfl

/-- No store takes back what the thread has seen. -/
lemma le_store_cur (tv : TView Loc) (m : Memory Loc) (l : Loc) (v : Int) (o : MemoryOrder)
    (l' : Loc) : tv.cur l' ≤ (tv.store m l v o).2.cur l' :=
  Nat.le_max_left _ _

/-- No load takes back what the thread has seen. -/
lemma le_load_cur {tv tv' : TView Loc} {m : Memory Loc} {l : Loc} {o : MemoryOrder} {i : Nat}
    {v : Int} (h : tv.load m l o i = some (v, tv')) (l' : Loc) : tv.cur l' ≤ tv'.cur l' := by
  obtain ⟨w, -, -, -, rfl⟩ := load_eq_some h
  exact Nat.le_trans (Nat.le_max_left _ _) (Nat.le_max_left _ _)

/-- A thread sees its own store, and every read of it (there is none yet). -/
lemma sees_store_self (tv : TView Loc) (m : Memory Loc) (l : Loc) (v : Int) (o : MemoryOrder) :
    (tv.store m l v o).2.Sees (tv.store m l v o).1 l ∧
      (tv.store m l v o).2.SeesReads (tv.store m l v o).1 l := by
  refine ⟨?_, View.hasReads_update_append _ _ _ rfl⟩
  simp only [Sees, store_fst, store_snd, Function.update_same, List.length_append,
    List.length_singleton, View.join_apply, View.single_self]
  omega

/-- A store of `l` keeps what its thread had seen of another location. -/
lemma store_keeps {tv : TView Loc} {m : Memory Loc} {l l' : Loc}
    (h : tv.Sees m l' ∧ tv.SeesReads m l') (hl : l' ≠ l) (v : Int) (o : MemoryOrder) :
    (tv.store m l v o).2.Sees (tv.store m l v o).1 l' ∧
      (tv.store m l v o).2.SeesReads (tv.store m l v o).1 l' := by
  refine ⟨?_, (h.2.join_left _).congr (Function.update_noteq hl _ _)⟩
  have := h.1
  simp only [Sees, store_fst, store_snd, Function.update_noteq hl, View.join_apply] at this ⊢
  omega

@[simp] lemma readPlain_memory (tv : TView Loc) (m : Memory Loc) (l : Loc) :
    (tv.readPlain m l).2.1 = m.addReader l := rfl

@[simp] lemma readPlain_cur (tv : TView Loc) (m : Memory Loc) (l l' : Loc) :
    (tv.readPlain m l).2.2.cur l' = tv.cur l' := by
  simp [readPlain]

/-- A plain read records a read, and moves its thread past no write. -/
@[simp] lemma sees_readPlain (tv : TView Loc) (m m' : Memory Loc) (l l' : Loc) :
    (tv.readPlain m l).2.2.Sees m' l' ↔ tv.Sees m' l' := by
  simp [Sees]

/-- A plain read changes no location's writes as far as `Sees` tells. -/
@[simp] lemma sees_addReader (tv : TView Loc) (m : Memory Loc) (l l' : Loc) :
    tv.Sees (m.addReader l) l' ↔ tv.Sees m l' := by
  simp [Sees]

/-- The reader has seen its own read, and every read of the write it read that it had seen. -/
lemma SeesReads.readPlain {tv : TView Loc} {m : Memory Loc} {l : Loc} (h : tv.SeesReads m l)
    (hne : m l ≠ []) : (tv.readPlain m l).2.2.SeesReads (tv.readPlain m l).2.1 l := by
  intro j hj
  simp only [TView.readPlain, Memory.lastReaders_addReader hne, Memory.length_addReader] at hj ⊢
  rcases Nat.lt_succ_iff_lt_or_eq.1 hj with hj | rfl
  · exact List.mem_append_left _ (h j hj)
  · simp

/-- A plain read keeps what its thread had seen of every location. -/
lemma readPlain_keeps {tv : TView Loc} {m : Memory Loc} {l l' : Loc}
    (h : tv.Sees m l' ∧ tv.SeesReads m l') (hne : m l ≠ []) :
    (tv.readPlain m l).2.2.Sees (tv.readPlain m l).2.1 l' ∧
      (tv.readPlain m l).2.2.SeesReads (tv.readPlain m l).2.1 l' := by
  refine ⟨by simpa using h.1, ?_⟩
  by_cases hl : l' = l
  · subst hl; exact h.2.readPlain hne
  · exact (h.2.join_left _).congr (m.addReader_ne hl)

/-- A plain read, by any thread, only adds a read that others have not seen. -/
lemma SeesReads.of_addReader {tv : TView Loc} {m : Memory Loc} {l l' : Loc}
    (h : tv.SeesReads (m.addReader l) l') : tv.SeesReads m l' := by
  rcases m.addReader_cases l l' with h' | ⟨ws, w, hw, h'⟩
  · exact View.HasReads.congr h h'.symm
  · intro j hj
    have := h j (by simp [Memory.lastReaders, h', hw] at hj ⊢; omega)
    simpa [h', hw] using this

end TView

end ConcurrencyInAction.Atomics
