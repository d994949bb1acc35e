import ConcurrencyInAction.Atomic

/-!
# `threadsafe_lookup_table`

The hash table of `lock_base_data_structure.cpp`: a fixed vector of buckets, each a list of
entries under its own `shared_mutex`. A bucket operation runs under its bucket's mutex and is
one step; `get_map` locks the buckets one step at a time in index order, then reads them one
step at a time, and returns one state of the table because it holds every lock. With
`num_buckets = 0`, `get_bucket` takes a remainder by zero.

As written the class does not compile; the model assumes these repairs:
* `find_entry_for` is `const` but returns a `bucket_iterator` into its `const` list: read as a
  search of the bucket (`lookup`);
* `get_map` names `buckets[i].mutex` and `buckets[i].data`, private members reached through a
  `unique_ptr`: read as `buckets[i]->mutex` and `buckets[i]->data`.
-/

namespace ConcurrencyInAction

/-! ### The sequential map -/

/-- The calls of the lookup table. -/
inductive MapOp (K V : Type)
  | valueFor (key : K) (d : V)
  | addOrUpdateMapping (key : K) (value : V)
  | removeMapping (key : K)
  | getMap

/-- What a call returns: `value_for` a value, `get_map` a map, the others nothing. -/
inductive MapRet (K V : Type)
  | value (v : V)
  | done
  | map (m : K → Option V)

variable {K V : Type} [DecidableEq K]

/-- The sequential map. -/
def MapOp.apply : MapOp K V → (K → Option V) → (K → Option V) × MapRet K V
  | .valueFor key d, m => (m, .value ((m key).getD d))
  | .addOrUpdateMapping key value, m => (Function.update m key (some value), .done)
  | .removeMapping key, m => (Function.update m key none, .done)
  | .getMap, m => (m, .map m)

namespace ThreadsafeLookupTable

/-! ### `bucket_type` -/

/-- `bucket_type::data`: the entries of a bucket, in list order. -/
abbrev Bucket (K V : Type) := List (K × V)

/-- The value of the entry `find_entry_for(key)` finds. -/
def lookup (data : Bucket K V) (key : K) : Option V :=
  (data.find? fun e => e.1 == key).map Prod.snd

/-- `bucket_type::value_for`. -/
def valueFor (data : Bucket K V) (key : K) (d : V) : V :=
  match data.find? fun e => e.1 == key with
  | none => d
  | some e => e.2

/-- `bucket_type::add_or_update_mapping`: the entry `find_entry_for` finds gets the new value;
without one, an entry is appended (`push_back`). -/
def addOrUpdateMapping : Bucket K V → K → V → Bucket K V
  | [], key, value => [(key, value)]
  | e :: rest, key, value =>
    if e.1 = key then (e.1, value) :: rest else e :: addOrUpdateMapping rest key value

/-- `bucket_type::remove_mapping`: erases the entry `find_entry_for` finds, if any. -/
def removeMapping (data : Bucket K V) (key : K) : Bucket K V :=
  data.eraseP fun e => e.1 == key

/-- `std::map::insert`: adds the entry unless its key is there. -/
def mapInsert (res : K → Option V) (e : K × V) : K → Option V :=
  fun k => (res k).or (if k = e.1 then some e.2 else none)

section Bucket

variable {data : Bucket K V} {key k : K}

@[simp] lemma lookup_nil (key : K) : lookup ([] : Bucket K V) key = none := rfl

lemma lookup_cons (e : K × V) (data : Bucket K V) (key : K) :
    lookup (e :: data) key = if e.1 = key then some e.2 else lookup data key := by
  by_cases h : e.1 = key <;> simp [lookup, List.find?_cons, h]

lemma valueFor_eq (data : Bucket K V) (key : K) (d : V) :
    valueFor data key d = (lookup data key).getD d := by
  unfold valueFor lookup
  split <;> simp [*]

lemma lookup_addOrUpdateMapping (value : V) :
    lookup (addOrUpdateMapping data key value) k = if k = key then some value else lookup data k := by
  induction data with
  | nil =>
    by_cases h : k = key
    · subst h; simp [addOrUpdateMapping, lookup_cons]
    · simp [addOrUpdateMapping, lookup_cons, h, Ne.symm h]
  | cons e rest ih =>
    by_cases he : e.1 = key
    · by_cases h : k = key
      · subst h; simp [addOrUpdateMapping, lookup_cons, he]
      · simp [addOrUpdateMapping, lookup_cons, he, h, Ne.symm h]
    · simp only [addOrUpdateMapping, he, if_false, lookup_cons, ih]
      by_cases h : k = key
      · subst h; simp [he]
      · simp [h]

lemma mem_addOrUpdateMapping {value : V} {e : K × V}
    (h : e ∈ addOrUpdateMapping data key value) : e ∈ data ∨ e.1 = key := by
  induction data with
  | nil => simp_all [addOrUpdateMapping]
  | cons x rest ih =>
    simp only [addOrUpdateMapping] at h
    split at h
    · rcases List.mem_cons.mp h with rfl | h
      · exact .inr ‹_›
      · exact .inl (List.mem_cons_of_mem _ h)
    · rcases List.mem_cons.mp h with rfl | h
      · exact .inl (List.mem_cons_self _ _)
      · exact (ih h).imp (List.mem_cons_of_mem _) id

lemma keys_addOrUpdateMapping (value : V) :
    (addOrUpdateMapping data key value).map Prod.fst =
      if key ∈ data.map Prod.fst then data.map Prod.fst else data.map Prod.fst ++ [key] := by
  induction data with
  | nil => simp [addOrUpdateMapping]
  | cons e rest ih =>
    by_cases he : e.1 = key
    · simp [addOrUpdateMapping, he]
    · simp only [addOrUpdateMapping, he, if_false, List.map_cons, ih, List.mem_cons, Ne.symm he,
        false_or]
      split_ifs <;> rfl

lemma nodup_addOrUpdateMapping (value : V) (h : (data.map Prod.fst).Nodup) :
    ((addOrUpdateMapping data key value).map Prod.fst).Nodup := by
  rw [keys_addOrUpdateMapping]
  split
  · exact h
  · exact h.append (List.nodup_singleton _) (List.disjoint_singleton.mpr ‹_›)

/-- Erasing the first entry of a key erases the key, when no key repeats. -/
lemma lookup_removeMapping (h : (data.map Prod.fst).Nodup) :
    lookup (removeMapping data key) k = if k = key then none else lookup data k := by
  induction data with
  | nil => split <;> rfl
  | cons e rest ih =>
    simp only [List.map_cons, List.nodup_cons] at h
    by_cases he : e.1 = key
    · have hnot : lookup rest key = none := by
        simp only [lookup, Option.map_eq_none', List.find?_eq_none, beq_iff_eq]
        intro x hx hxk
        apply h.1
        rw [he, ← hxk]
        exact List.mem_map_of_mem Prod.fst hx
      simp only [removeMapping, List.eraseP_cons, he, beq_self_eq_true, cond_true]
      by_cases hk : k = key
      · simp [hk, hnot]
      · simp [lookup_cons, he, Ne.symm hk, hk]
    · have : removeMapping (e :: rest) key = e :: removeMapping rest key := by
        simp [removeMapping, List.eraseP_cons, he]
      rw [this, lookup_cons, lookup_cons, ih h.2]
      by_cases hk : k = key
      · subst hk; simp [he]
      · simp [hk]

lemma nodup_removeMapping (h : (data.map Prod.fst).Nodup) :
    ((removeMapping data key).map Prod.fst).Nodup :=
  h.sublist ((List.eraseP_sublist _).map _)

lemma foldl_mapInsert (res : K → Option V) :
    (data.foldl mapInsert res) k = (res k).or (lookup data k) := by
  induction data generalizing res with
  | nil => simp
  | cons e rest ih =>
    rw [List.foldl_cons, ih, lookup_cons]
    by_cases h : e.1 = k
    · subst h; cases h' : res e.1 <;> simp [mapInsert, h']
    · simp [mapInsert, h, Ne.symm h]

end Bucket

/-! ### The table -/

/-- The table: `buckets` (each `bucket_type`'s data) and, per bucket, whether a `get_map`
holds its mutex. -/
structure Shared (K V : Type) where
  buckets : List (Bucket K V)
  locked : Nat → Bool

/-- Bucket `i`. -/
def Shared.bucket (g : Shared K V) (i : Nat) : Bucket K V := g.buckets.getD i []

/-- Bucket `i` rewritten by its operation. -/
def Shared.setBucket (g : Shared K V) (i : Nat) (data : Bucket K V) : Shared K V :=
  { g with buckets := g.buckets.set i data }

omit [DecidableEq K] in
@[simp] lemma Shared.length_setBucket (g : Shared K V) (i : Nat) (data : Bucket K V) :
    (g.setBucket i data).buckets.length = g.buckets.length := by
  simp [Shared.setBucket]

omit [DecidableEq K] in
@[simp] lemma Shared.locked_setBucket (g : Shared K V) (i : Nat) (data : Bucket K V) :
    (g.setBucket i data).locked = g.locked := rfl

omit [DecidableEq K] in
lemma Shared.bucket_setBucket (g : Shared K V) {i : Nat} (data : Bucket K V)
    (hi : i < g.buckets.length) (j : Nat) :
    (g.setBucket i data).bucket j = if j = i then data else g.bucket j := by
  simp only [Shared.bucket, Shared.setBucket, List.getD_eq_getElem?_getD, List.getElem?_set]
  by_cases h : j = i
  · simp [h, hi]
  · simp [h, Ne.symm h]

/-- `get_bucket`: `hasher(key) % buckets.size()`, a remainder by zero when there is no
bucket. -/
def getBucket (hasher : K → Nat) (n : Nat) (key : K) : Except Fault Nat :=
  if n = 0 then .error .divisionByZero else .ok (hasher key % n)

/-- Program counters: a bucket operation before its one step, or `get_map` locking bucket
`i` (those before it held) or copying bucket `i` into `res` (every bucket held). -/
inductive Pc (K V : Type)
  | idle
  | valueFor (key : K) (d : V)
  | addOrUpdateMapping (key : K) (value : V)
  | removeMapping (key : K)
  | lockBucket (i : Nat)
  | collect (i : Nat) (res : K → Option V)

/-- Where a call starts. -/
def Pc.ofOp : MapOp K V → Pc K V
  | .valueFor key d => .valueFor key d
  | .addOrUpdateMapping key value => .addOrUpdateMapping key value
  | .removeMapping key => .removeMapping key
  | .getMap => .lockBucket 0

/-- Visible events of the table. -/
abbrev Event (K V : Type) := Atomic.Event (MapOp K V) (MapRet K V)

/-- One step of a thread. -/
def step (hasher : K → Nat) (g : Shared K V) :
    Pc K V → Atomic.Choice (MapOp K V) → Except Fault (Shared K V × Pc K V × Option (Event K V))
  | .idle, .call op => .ok (g, .ofOp op, some (.call op))
  | .idle, .go => .ok (g, .idle, none)
  | .valueFor key d, _ => do
    let i ← getBucket hasher g.buckets.length key
    if g.locked i then return (g, .valueFor key d, none)
    else return (g, .idle, some (.ret (.value (valueFor (g.bucket i) key d))))
  | .addOrUpdateMapping key value, _ => do
    let i ← getBucket hasher g.buckets.length key
    if g.locked i then return (g, .addOrUpdateMapping key value, none)
    else return (g.setBucket i (addOrUpdateMapping (g.bucket i) key value), .idle, some (.ret .done))
  | .removeMapping key, _ => do
    let i ← getBucket hasher g.buckets.length key
    if g.locked i then return (g, .removeMapping key, none)
    else return (g.setBucket i (removeMapping (g.bucket i) key), .idle, some (.ret .done))
  | .lockBucket i, _ =>
    if i < g.buckets.length then
      if g.locked i then .ok (g, .lockBucket i, none)
      else .ok ({ g with locked := Function.update g.locked i true }, .lockBucket (i + 1), none)
    else .ok (g, .collect 0 fun _ => none, none)
  | .collect i res, _ =>
    if i < g.buckets.length then .ok (g, .collect (i + 1) ((g.bucket i).foldl mapInsert res), none)
    else .ok ({ g with locked := fun _ => false }, .idle, some (.ret (.map res)))

/-- The lookup table as a program, for the hash function `hasher`. -/
def threadsafeLookupTable (hasher : K → Nat) :
    Program (Shared K V) (Pc K V) (Atomic.Choice (MapOp K V)) (Event K V) :=
  ⟨step hasher⟩

/-- `threadsafe_lookup_table(num_buckets)`: empty buckets, no mutex held, every thread idle. -/
def init {Tid : Type} (numBuckets : Nat) : Conf Tid (Shared K V) (Pc K V) :=
  ⟨⟨List.replicate numBuckets [], fun _ => false⟩, fun _ => .idle⟩

/-! ### What a step can do -/

/-- The transitions of a thread, one constructor per branch of the code. -/
inductive Move (hasher : K → Nat) : Shared K V → Pc K V → Shared K V → Pc K V → Option (Event K V) → Prop
  | call (g : Shared K V) (op : MapOp K V) : Move hasher g .idle g (.ofOp op) (some (.call op))
  | wait (g : Shared K V) (l : Pc K V) : Move hasher g l g l none
  | valueFor (g : Shared K V) (key : K) (d : V) (hn : g.buckets.length ≠ 0)
      (hl : g.locked (hasher key % g.buckets.length) = false) :
      Move hasher g (.valueFor key d) g .idle
        (some (.ret (.value (valueFor (g.bucket (hasher key % g.buckets.length)) key d))))
  | addOrUpdateMapping (g : Shared K V) (key : K) (value : V) (hn : g.buckets.length ≠ 0)
      (hl : g.locked (hasher key % g.buckets.length) = false) :
      Move hasher g (.addOrUpdateMapping key value)
        (g.setBucket (hasher key % g.buckets.length)
          (addOrUpdateMapping (g.bucket (hasher key % g.buckets.length)) key value))
        .idle (some (.ret .done))
  | removeMapping (g : Shared K V) (key : K) (hn : g.buckets.length ≠ 0)
      (hl : g.locked (hasher key % g.buckets.length) = false) :
      Move hasher g (.removeMapping key)
        (g.setBucket (hasher key % g.buckets.length)
          (removeMapping (g.bucket (hasher key % g.buckets.length)) key))
        .idle (some (.ret .done))
  | lock (g : Shared K V) (i : Nat) (hi : i < g.buckets.length) (hl : g.locked i = false) :
      Move hasher g (.lockBucket i) { g with locked := Function.update g.locked i true }
        (.lockBucket (i + 1)) none
  | lockedAll (g : Shared K V) (i : Nat) (hi : g.buckets.length ≤ i) :
      Move hasher g (.lockBucket i) g (.collect 0 fun _ => none) none
  | collect (g : Shared K V) (i : Nat) (res : K → Option V) (hi : i < g.buckets.length) :
      Move hasher g (.collect i res) g (.collect (i + 1) ((g.bucket i).foldl mapInsert res)) none
  | release (g : Shared K V) (i : Nat) (res : K → Option V) (hi : g.buckets.length ≤ i) :
      Move hasher g (.collect i res) { g with locked := fun _ => false } .idle
        (some (.ret (.map res)))

lemma move_of_step {hasher : K → Nat} {g g' : Shared K V} {l l' : Pc K V}
    {c : Atomic.Choice (MapOp K V)} {e : Option (Event K V)}
    (h : step hasher g l c = .ok (g', l', e)) : Move hasher g l g' l' e := by
  have done : ∀ {x : Shared K V × Pc K V × Option (Event K V)},
      (.ok x : Except Fault _) = .ok (g', l', e) → x = (g', l', e) := fun h => by cases h; rfl
  have bucket : ∀ {n : Nat} {key : K} {x : Nat → Except Fault (Shared K V × Pc K V × Option (Event K V))},
      (getBucket hasher n key >>= x) = .ok (g', l', e) →
        n ≠ 0 ∧ x (hasher key % n) = .ok (g', l', e) := fun h => by
    unfold getBucket at h
    split at h
    · cases h
    · exact ⟨‹_›, h⟩
  cases l with
  | idle =>
    cases c with
    | call op => cases done h; exact .call _ op
    | go => cases done h; exact .wait _ _
  | valueFor key d =>
    obtain ⟨hn, h⟩ := bucket h
    split at h <;> cases done h
    exacts [.wait _ _, .valueFor _ key d hn (Bool.eq_false_iff.mpr ‹_›)]
  | addOrUpdateMapping key value =>
    obtain ⟨hn, h⟩ := bucket h
    split at h <;> cases done h
    exacts [.wait _ _, .addOrUpdateMapping _ key value hn (Bool.eq_false_iff.mpr ‹_›)]
  | removeMapping key =>
    obtain ⟨hn, h⟩ := bucket h
    split at h <;> cases done h
    exacts [.wait _ _, .removeMapping _ key hn (Bool.eq_false_iff.mpr ‹_›)]
  | lockBucket i =>
    simp only [step] at h
    split at h
    · split at h <;> cases done h
      exacts [.wait _ _, .lock _ i ‹_› (Bool.eq_false_iff.mpr ‹_›)]
    · cases done h; exact .lockedAll _ i (by omega)
  | collect i res =>
    simp only [step] at h
    split at h <;> cases done h
    exacts [.collect _ i res ‹_›, .release _ i res (by omega)]

/-! ### The invariant -/

/-- The buckets whose mutex a thread holds, in a table of `n` buckets: those its `get_map`
has locked. -/
def Pc.holds (n : Nat) : Pc K V → Nat → Prop
  | .lockBucket i, j => j < i
  | .collect _ _, j => j < n
  | _, _ => False

omit [DecidableEq K] in
@[simp] lemma Pc.holds_idle (n j : Nat) : ¬ (Pc.idle : Pc K V).holds n j := id

omit [DecidableEq K] in
@[simp] lemma Pc.holds_ofOp (n : Nat) (op : MapOp K V) (j : Nat) : ¬ (Pc.ofOp op).holds n j := by
  cases op <;> simp [Pc.ofOp, Pc.holds]

/-- The map the table holds: each key looked up in the bucket of its hash. -/
def toMap (hasher : K → Nat) (g : Shared K V) (k : K) : Option V :=
  lookup (g.bucket (hasher k % g.buckets.length)) k

/-- What `get_map` has copied once it has read buckets `0 … i-1`. -/
def collected (hasher : K → Nat) (g : Shared K V) (i : Nat) (k : K) : Option V :=
  if hasher k % g.buckets.length < i then toMap hasher g k else none

/-- What a thread's `get_map` has done so far. -/
def PcOk (hasher : K → Nat) (g : Shared K V) : Pc K V → Prop
  | .lockBucket i => i ≤ g.buckets.length
  | .collect i res => i ≤ g.buckets.length ∧ res = collected hasher g i
  | _ => True

/-- A held bucket exists. -/
lemma PcOk.holds_lt {hasher : K → Nat} {g : Shared K V} {l : Pc K V} (hok : PcOk hasher g l)
    {j : Nat} (h : l.holds g.buckets.length j) : j < g.buckets.length := by
  cases l <;> simp only [Pc.holds, PcOk] at h hok
  · omega
  · exact h

section Table

variable {hasher : K → Nat} {g : Shared K V}

/-- A placed bucket holds only keys of its own hash. -/
lemma lookup_eq_none_of_placed {j : Nat} {k : K}
    (hp : ∀ e ∈ g.bucket j, hasher e.1 % g.buckets.length = j)
    (hk : hasher k % g.buckets.length ≠ j) : lookup (g.bucket j) k = none := by
  simp only [lookup, Option.map_eq_none', List.find?_eq_none, beq_iff_eq]
  exact fun e he hek => hk (hek ▸ hp e he)

lemma collected_zero : collected hasher g 0 = fun _ => none := by
  funext k; simp [collected]

/-- Copying bucket `i` into what buckets `0 … i-1` gave. -/
lemma collected_succ (hp : ∀ j, ∀ e ∈ g.bucket j, hasher e.1 % g.buckets.length = j) (i : Nat) :
    (g.bucket i).foldl mapInsert (collected hasher g i) = collected hasher g (i + 1) := by
  funext k
  rw [foldl_mapInsert]
  unfold collected
  rcases Nat.lt_trichotomy (hasher k % g.buckets.length) i with h | h | h
  · rw [if_pos h, if_pos (by omega), lookup_eq_none_of_placed (hp i) (by omega), Option.or_none]
  · subst h; simp [toMap]
  · rw [if_neg (by omega), if_neg (by omega), lookup_eq_none_of_placed (hp i) (by omega)]; rfl

/-- Once every bucket is read, `get_map` has the whole map. -/
lemma collected_length : collected hasher g g.buckets.length = toMap hasher g := by
  funext k
  unfold collected
  split
  · rfl
  · have : g.buckets.length = 0 := by
      by_contra hn; exact ‹¬_› (Nat.mod_lt _ (Nat.pos_of_ne_zero hn))
    simp [toMap, Shared.bucket, List.length_eq_zero.mp this]

lemma toMap_addOrUpdateMapping (hn : g.buckets.length ≠ 0) (key : K) (value : V) :
    toMap hasher (g.setBucket (hasher key % g.buckets.length)
      (addOrUpdateMapping (g.bucket (hasher key % g.buckets.length)) key value)) =
      Function.update (toMap hasher g) key (some value) := by
  funext k
  have hi := Nat.mod_lt (hasher key) (Nat.pos_of_ne_zero hn)
  simp only [toMap, Shared.length_setBucket, g.bucket_setBucket _ hi]
  by_cases hk : k = key
  · subst hk; simp [lookup_addOrUpdateMapping]
  · rw [Function.update_noteq hk]
    by_cases hb : hasher k % g.buckets.length = hasher key % g.buckets.length
    · rw [if_pos hb, lookup_addOrUpdateMapping, if_neg hk, toMap, hb]
    · rw [if_neg hb]; rfl

lemma toMap_removeMapping (hd : ∀ j, ((g.bucket j).map Prod.fst).Nodup) (hn : g.buckets.length ≠ 0) (key : K) :
    toMap hasher (g.setBucket (hasher key % g.buckets.length)
      (removeMapping (g.bucket (hasher key % g.buckets.length)) key)) =
      Function.update (toMap hasher g) key none := by
  funext k
  have hi := Nat.mod_lt (hasher key) (Nat.pos_of_ne_zero hn)
  simp only [toMap, Shared.length_setBucket, g.bucket_setBucket _ hi]
  by_cases hk : k = key
  · subst hk; simp [lookup_removeMapping (hd _)]
  · rw [Function.update_noteq hk]
    by_cases hb : hasher k % g.buckets.length = hasher key % g.buckets.length
    · rw [if_pos hb, lookup_removeMapping (hd _), if_neg hk, toMap, hb]
    · rw [if_neg hb]; rfl

end Table

variable {Tid : Type} [DecidableEq Tid]

/-- The invariant: every entry sits in the bucket of its key's hash and no key repeats in a
bucket (so each key has at most one entry in the table); a bucket's mutex is held exactly
when a `get_map` holds it, and by one thread only; and each `get_map` has copied exactly what
the buckets it has read hold. -/
structure Inv (hasher : K → Nat) (s : Conf Tid (Shared K V) (Pc K V)) : Prop where
  placed : ∀ i, ∀ e ∈ s.shared.bucket i, hasher e.1 % s.shared.buckets.length = i
  nodup : ∀ i, ((s.shared.bucket i).map Prod.fst).Nodup
  locked : ∀ j, s.shared.locked j = true ↔ ∃ t, (s.thr t).holds s.shared.buckets.length j
  exclusive : ∀ j t u, (s.thr t).holds s.shared.buckets.length j →
    (s.thr u).holds s.shared.buckets.length j → t = u
  pc : ∀ t, PcOk hasher s.shared (s.thr t)

section Invariant

variable {hasher : K → Nat} {s : Conf Tid (Shared K V) (Pc K V)} {t : Tid}

/-- The invariant after thread `t` moved to `l` and the table to `g`. -/
lemma Inv.set (hI : Inv hasher s) {g : Shared K V} {l : Pc K V}
    (hlen : g.buckets.length = s.shared.buckets.length)
    (hplaced : ∀ i, ∀ e ∈ g.bucket i, hasher e.1 % g.buckets.length = i)
    (hnodup : ∀ i, ((g.bucket i).map Prod.fst).Nodup)
    (hlocked : ∀ j, g.locked j = true ↔
      l.holds g.buckets.length j ∨ ∃ u, u ≠ t ∧ (s.thr u).holds g.buckets.length j)
    (hexcl : ∀ j u, u ≠ t → l.holds g.buckets.length j → ¬ (s.thr u).holds g.buckets.length j)
    (hok : PcOk hasher g l) (hothers : ∀ u, u ≠ t → PcOk hasher g (s.thr u)) :
    Inv hasher (s.set t g l) where
  placed := by simpa using hplaced
  nodup := by simpa using hnodup
  locked j := by
    rw [Conf.set_shared, hlocked j]
    constructor
    · rintro (h | ⟨u, hu, h⟩)
      · exact ⟨t, by simpa using h⟩
      · exact ⟨u, by rwa [Conf.set_thr_ne _ _ _ hu]⟩
    · rintro ⟨u, h⟩
      by_cases hu : u = t
      · subst hu; exact .inl (by simpa using h)
      · exact .inr ⟨u, hu, by rwa [Conf.set_thr_ne _ _ _ hu] at h⟩
  exclusive j u v hu hv := by
    simp only [Conf.set_shared] at hu hv
    by_cases hut : u = t <;> by_cases hvt : v = t
    · rw [hut, hvt]
    · subst hut; rw [Conf.set_thr_self] at hu; rw [Conf.set_thr_ne _ _ _ hvt] at hv
      exact (hexcl j v hvt hu hv).elim
    · subst hvt; rw [Conf.set_thr_self] at hv; rw [Conf.set_thr_ne _ _ _ hut] at hu
      exact (hexcl j u hut hv hu).elim
    · rw [Conf.set_thr_ne _ _ _ hut] at hu; rw [Conf.set_thr_ne _ _ _ hvt] at hv
      exact hI.exclusive j u v (hlen ▸ hu) (hlen ▸ hv)
  pc u := by
    by_cases hu : u = t
    · subst hu; simpa using hok
    · rw [Conf.set_thr_ne _ _ _ hu]; exact hothers u hu

/-- A step that keeps the table and what the thread holds. -/
lemma Inv.set_local (hI : Inv hasher s) {l : Pc K V}
    (hh : ∀ j, l.holds s.shared.buckets.length j ↔ (s.thr t).holds s.shared.buckets.length j)
    (hok : PcOk hasher s.shared l) : Inv hasher (s.set t s.shared l) := by
  refine hI.set rfl hI.placed hI.nodup (fun j => ?_) (fun j u hu hl hu' => ?_) hok
    fun u _ => hI.pc u
  · rw [hI.locked j, hh j]
    constructor
    · rintro ⟨u, h⟩
      by_cases hu : u = t
      · exact .inl (hu ▸ h)
      · exact .inr ⟨u, hu, h⟩
    · rintro (h | ⟨u, -, h⟩)
      exacts [⟨t, h⟩, ⟨u, h⟩]
  · exact hu (hI.exclusive j u t hu' ((hh j).mp hl))

omit [DecidableEq Tid] in
/-- No `get_map` is copying while some bucket's mutex is free. -/
lemma Inv.not_collect (hI : Inv hasher s) {i : Nat} (hi : i < s.shared.buckets.length)
    (hl : s.shared.locked i = false) (u : Tid) (j : Nat) (res : K → Option V) :
    s.thr u ≠ .collect j res := fun h => by
  have := (hI.locked i).mpr ⟨u, by rw [h]; exact hi⟩
  simp_all

/-- A bucket operation rewrites the key's bucket, with entries of that bucket's hash and no
key twice. -/
lemma Inv.setBucket (hI : Inv hasher s) {key : K} {data : Bucket K V}
    (hn : s.shared.buckets.length ≠ 0)
    (hl : s.shared.locked (hasher key % s.shared.buckets.length) = false)
    (hnot : ∀ j, ¬ (s.thr t).holds s.shared.buckets.length j)
    (hp : ∀ e ∈ data, hasher e.1 % s.shared.buckets.length = hasher key % s.shared.buckets.length)
    (hd : (data.map Prod.fst).Nodup) :
    Inv hasher (s.set t (s.shared.setBucket (hasher key % s.shared.buckets.length) data) .idle) := by
  have hi := Nat.mod_lt (hasher key) (Nat.pos_of_ne_zero hn)
  refine hI.set (by simp) (fun j => ?_) (fun j => ?_) (fun j => ?_) (fun _ _ _ h => h.elim) trivial
    fun u _ => ?_
  · rw [Shared.bucket_setBucket _ _ hi, Shared.length_setBucket]
    split
    · subst j; exact hp
    · exact hI.placed j
  · rw [Shared.bucket_setBucket _ _ hi]
    split
    exacts [hd, hI.nodup j]
  · simp only [Shared.locked_setBucket, Shared.length_setBucket, hI.locked j]
    constructor
    · rintro ⟨u, h⟩
      have hu : u ≠ t := fun hu => hnot j (hu ▸ h)
      exact .inr ⟨u, hu, h⟩
    · rintro (h | ⟨u, -, h⟩)
      exacts [h.elim, ⟨u, h⟩]
  · have hc := hI.not_collect hi hl u
    have ho := hI.pc u
    revert hc ho
    cases s.thr u <;> simp [PcOk]

/-- Every step keeps the invariant. -/
lemma Inv.step (hI : Inv hasher s) {c : Atomic.Choice (MapOp K V)} {g : Shared K V}
    {l : Pc K V} {e : Option (Event K V)} (h : step hasher s.shared (s.thr t) c = .ok (g, l, e)) :
    Inv hasher (s.set t g l) := by
  have hm := move_of_step h
  generalize hx : s.thr t = x at hm
  have hok := hI.pc t
  rw [hx] at hok
  cases hm with
  | call op => exact hI.set_local (by simp [hx]) (by cases op <;> simp [Pc.ofOp, PcOk])
  | wait => rw [← hx, Conf.set_self]; exact hI
  | valueFor key d hn hl => exact hI.set_local (by simp [hx, Pc.holds]) trivial
  | addOrUpdateMapping key value hn hl =>
    refine hI.setBucket hn hl (by simp [hx, Pc.holds]) (fun e he => ?_)
      (nodup_addOrUpdateMapping _ (hI.nodup _))
    rcases mem_addOrUpdateMapping he with he | rfl
    exacts [hI.placed _ e he, rfl]
  | removeMapping key hn hl =>
    exact hI.setBucket hn hl (by simp [hx, Pc.holds])
      (fun e he => hI.placed _ e (List.mem_of_mem_eraseP he)) (nodup_removeMapping (hI.nodup _))
  | lock i hi hl =>
    refine hI.set rfl hI.placed hI.nodup (fun j => ?_) (fun j u hu hj hu' => ?_) (by exact hi)
      fun u _ => hI.pc u
    · by_cases hj : j = i
      · subst hj; simp [Pc.holds]
      · have hold := hI.locked j
        simp only [hx, Pc.holds] at hold
        simp only [Function.update_noteq hj, hold, Pc.holds]
        constructor
        · rintro ⟨u, hu⟩
          by_cases hut : u = t
          · subst hut; rw [hx] at hu; exact .inl (by simp only [Pc.holds] at hu; omega)
          · exact .inr ⟨u, hut, hu⟩
        · rintro (hj' | ⟨u, -, hu⟩)
          · exact ⟨t, by rw [hx]; simp only [Pc.holds]; omega⟩
          · exact ⟨u, hu⟩
    · simp only [Pc.holds] at hj
      rcases Nat.lt_succ_iff_lt_or_eq.mp hj with hj | rfl
      · exact hu (hI.exclusive j u t hu' (by rw [hx]; exact hj))
      · have := (hI.locked j).mpr ⟨u, hu'⟩
        simp_all
  | lockedAll i hi =>
    have hi' : i = s.shared.buckets.length := le_antisymm hok hi
    subst hi'
    exact hI.set_local (by simp [hx, Pc.holds]) ⟨Nat.zero_le _, collected_zero.symm⟩
  | collect i res hi =>
    refine hI.set_local (by simp [hx, Pc.holds]) ⟨hi, ?_⟩
    rw [hok.2, collected_succ hI.placed]
  | release i res hi =>
    refine hI.set rfl hI.placed hI.nodup (fun j => ?_) (fun _ _ _ h => h.elim) trivial
      fun u _ => hI.pc u
    simp only [Pc.holds, false_or, Bool.false_eq_true, false_iff, not_exists, not_and]
    intro u hu hj
    have hlt := (hI.pc u).holds_lt hj
    exact hu (hI.exclusive j u t hj (by rw [hx]; exact hlt))

omit [DecidableEq K] [DecidableEq Tid] in
@[simp] lemma bucket_init (numBuckets i : Nat) :
    (init numBuckets : Conf Tid (Shared K V) (Pc K V)).shared.bucket i = [] := by
  simp only [init, Shared.bucket, List.getD_eq_getElem?_getD, List.getElem?_replicate]
  split <;> rfl

omit [DecidableEq Tid] in
lemma inv_init (numBuckets : Nat) :
    Inv hasher (init numBuckets : Conf Tid (Shared K V) (Pc K V)) where
  placed i e he := by simp at he
  nodup i := by simp
  locked j := by simp [init, Pc.holds]
  exclusive j t u h := by simp [init, Pc.holds] at h
  pc t := trivial

lemma inv_reach {numBuckets : Nat} {h : List (Tid × Event K V)}
    (hr : (threadsafeLookupTable hasher).Reach (init numBuckets) s h) : Inv hasher s :=
  hr.inv _ (inv_init numBuckets) fun _ _ _ _ _ _ hI hs => hI.step hs

/-- No step changes the number of buckets. -/
lemma Move.length_eq {g g' : Shared K V} {l l' : Pc K V} {e : Option (Event K V)}
    (hm : Move hasher g l g' l' e) : g'.buckets.length = g.buckets.length := by
  cases hm <;> simp

lemma length_reach {numBuckets : Nat} {h : List (Tid × Event K V)}
    (hr : (threadsafeLookupTable hasher).Reach (init numBuckets) s h) :
    s.shared.buckets.length = numBuckets :=
  hr.inv (fun s => s.shared.buckets.length = numBuckets) (by simp [init])
    fun _ _ _ _ _ _ hn hs => by simpa [(move_of_step hs).length_eq] using hn

end Invariant

/-! ### Linearizability -/

/-- The abstract thread of a program counter: a call is pending until its step takes effect;
a bucket operation takes effect and returns in its one step, `get_map` at its return. -/
def absThread : Pc K V → Atomic.Thread (MapOp K V) (MapRet K V)
  | .idle => .idle
  | .valueFor key d => .pending (.valueFor key d)
  | .addOrUpdateMapping key value => .pending (.addOrUpdateMapping key value)
  | .removeMapping key => .pending (.removeMapping key)
  | .lockBucket _ | .collect _ _ => .pending .getMap

omit [DecidableEq K] in
@[simp] lemma absThread_ofOp (op : MapOp K V) : absThread (Pc.ofOp op) = .pending op := by
  cases op <;> rfl

/-- The atomic map with no entry and every thread idle. -/
def atomicInit (Tid : Type) : Conf Tid (K → Option V) (Atomic.Thread (MapOp K V) (MapRet K V)) :=
  ⟨fun _ => none, fun _ => .idle⟩

/-- The refinement mapping: the invariant holds, the atomic map is the table's map, and every
thread is where `absThread` puts it. -/
structure Refines (hasher : K → Nat) (s : Conf Tid (Shared K V) (Pc K V))
    (a : Conf Tid (K → Option V) (Atomic.Thread (MapOp K V) (MapRet K V))) : Prop where
  inv : Inv hasher s
  map : a.shared = toMap hasher s.shared
  thr : ∀ t, a.thr t = absThread (s.thr t)

section Simulation

variable {hasher : K → Nat} {s : Conf Tid (Shared K V) (Pc K V)}
  {a : Conf Tid (K → Option V) (Atomic.Thread (MapOp K V) (MapRet K V))} {t : Tid}

lemma Refines.set (hR : Refines hasher s a) {g : Shared K V} {l : Pc K V}
    (hI : Inv hasher (s.set t g l)) {m : K → Option V} (hm : m = toMap hasher g) :
    Refines hasher (s.set t g l) (a.set t m (absThread l)) where
  inv := hI
  map := by simpa using hm
  thr u := by
    by_cases hu : u = t
    · subst hu; simp
    · rw [Conf.set_thr_ne _ _ _ hu, Conf.set_thr_ne _ _ _ hu]; exact hR.thr u

/-- Every step of the table is matched by at most one call, effect or return of the atomic
map. -/
lemma refines_step (hR : Refines hasher s a) {c : Atomic.Choice (MapOp K V)} {g : Shared K V}
    {l : Pc K V} {e : Option (Event K V)} (h : step hasher s.shared (s.thr t) c = .ok (g, l, e)) :
    ∃ a', (Atomic.object MapOp.apply).Reach a a' (e.map (t, ·)).toList ∧
      Refines hasher (s.set t g l) a' := by
  have hI := hR.inv.step h
  have hm := move_of_step h
  generalize hx : s.thr t = x at hm
  have hok := hR.inv.pc t
  rw [hx] at hok
  have hthr : a.thr t = absThread x := hx ▸ hR.thr t
  have stutter : toMap hasher g = toMap hasher s.shared → absThread l = absThread x →
      ∃ a', (Atomic.object MapOp.apply).Reach a a' [] ∧ Refines hasher (s.set t g l) a' :=
    fun hg hl => ⟨a, .refl, by
      have := hR.set hI (m := a.shared) (hR.map.trans hg.symm)
      rwa [hl, ← hthr, Conf.set_self] at this⟩
  cases hm with
  | call op =>
    exact ⟨_, Atomic.reach_call a t op (by rw [hthr]; rfl),
      by simpa using hR.set hI hR.map⟩
  | wait => exact stutter rfl rfl
  | valueFor key d hn hl =>
    have hr : (Atomic.object MapOp.apply).Reach a _ _ :=
      Atomic.reach_lin_ret a t (.valueFor key d) hthr
    simp only [MapOp.apply, hR.map, toMap, ← valueFor_eq] at hr
    exact ⟨_, hr, by simpa [← hR.map] using hR.set hI hR.map⟩
  | addOrUpdateMapping key value hn hl =>
    have hr : (Atomic.object MapOp.apply).Reach a _ _ :=
      Atomic.reach_lin_ret a t (.addOrUpdateMapping key value) hthr
    refine ⟨_, hr, hR.set hI ?_⟩
    simp only [MapOp.apply, hR.map, toMap_addOrUpdateMapping hn]
  | removeMapping key hn hl =>
    have hr : (Atomic.object MapOp.apply).Reach a _ _ :=
      Atomic.reach_lin_ret a t (.removeMapping key) hthr
    refine ⟨_, hr, hR.set hI ?_⟩
    simp only [MapOp.apply, hR.map, toMap_removeMapping hR.inv.nodup hn]
  | lock i hi hl => exact stutter rfl rfl
  | lockedAll i hi => exact stutter rfl rfl
  | collect i res hi => exact stutter rfl rfl
  | release i res hi =>
    have hres : res = a.shared := by
      rw [hok.2, le_antisymm hok.1 hi, collected_length, hR.map]
    have hr : (Atomic.object MapOp.apply).Reach a _ _ :=
      Atomic.reach_lin_ret a t .getMap hthr
    simp only [MapOp.apply, ← hres] at hr
    exact ⟨_, hr, hR.set hI (hres.trans hR.map)⟩

omit [DecidableEq Tid] in
lemma refines_init (numBuckets : Nat) :
    Refines hasher (init numBuckets : Conf Tid (Shared K V) (Pc K V)) (atomicInit Tid) where
  inv := inv_init numBuckets
  map := by funext k; simp [atomicInit, toMap]
  thr _ := rfl

lemma refines_reach {numBuckets : Nat} {h : List (Tid × Event K V)}
    (hr : (threadsafeLookupTable hasher).Reach (init numBuckets) s h) :
    ∃ a, (Atomic.object MapOp.apply).Reach (atomicInit Tid) a h ∧ Refines hasher s a :=
  Program.Reach.simulate (Refines hasher) (refines_init numBuckets)
    (fun _ _ _ _ _ _ _ hR hs => refines_step hR hs) hr

end Simulation

/-! ### The table refines a map -/

section Table

variable {hasher : K → Nat}

/-- With at least one bucket no step faults: `get_bucket` is the only partial operation. -/
lemma step_ne_error {g : Shared K V} (hn : g.buckets.length ≠ 0) (l : Pc K V)
    (c : Atomic.Choice (MapOp K V)) (f : Fault) : step hasher g l c ≠ .error f := by
  have hb : ∀ key, getBucket hasher g.buckets.length key = .ok (hasher key % g.buckets.length) :=
    fun key => by simp [getBucket, hn]
  cases l <;> cases c <;> simp only [step, hb, bind, Except.bind, pure, Except.pure] <;> (try split_ifs) <;>
    simp

variable {Tid : Type} [DecidableEq Tid]

/-- `threadsafe_lookup_table` is linearizable for every hasher and bucket count: every history
of any number of threads is one of the atomic map. In every reachable state the table keeps its
`num_buckets` buckets, each entry sits in bucket `hasher(key) % num_buckets` and no key occurs
twice in a bucket, and with at least one bucket no step faults. -/
theorem threadsafeLookupTable_linearizable (numBuckets : Nat) {s : Conf Tid (Shared K V) (Pc K V)}
    {h : List (Tid × Event K V)}
    (hr : (threadsafeLookupTable hasher).Reach (init numBuckets) s h) :
    (∃ a, (Atomic.object MapOp.apply).Reach (atomicInit Tid) a h ∧
      a.shared = toMap hasher s.shared ∧ ∀ t, a.thr t = absThread (s.thr t)) ∧
    s.shared.buckets.length = numBuckets ∧
    (∀ i, ∀ e ∈ s.shared.bucket i, hasher e.1 % numBuckets = i) ∧
    (∀ i, ((s.shared.bucket i).map Prod.fst).Nodup) ∧
    (0 < numBuckets → (threadsafeLookupTable hasher).NoFault .divisionByZero s) := by
  obtain ⟨a, ha, hR⟩ := refines_reach hr
  have hlen := length_reach hr
  refine ⟨⟨a, ha, hR.map, hR.thr⟩, hlen, hlen ▸ hR.inv.placed, hR.inv.nodup, fun hn t c => ?_⟩
  exact step_ne_error (by omega) _ c _

/-- Two threads over three buckets with `hasher = id`: both insert into bucket 1, then thread
0's `get_map` holds buckets 0 and 1 while thread 1's `value_for(4)` waits on bucket 1. -/
theorem threadsafeLookupTable_linearizable_getMap :
    ∃ (s : Conf (Fin 2) (Shared Nat Nat) (Pc Nat Nat)) (h : List (Fin 2 × Event Nat Nat)),
      (threadsafeLookupTable fun k : Nat => k).Reach (init 3) s h ∧
      s.shared.locked 0 = true ∧ s.shared.locked 1 = true ∧ s.shared.bucket 1 = [(1, 10), (4, 40)] ∧
      ((∃ a, (Atomic.object MapOp.apply).Reach (atomicInit (Fin 2)) a h ∧
          a.shared = toMap (fun k : Nat => k) s.shared ∧ ∀ t, a.thr t = absThread (s.thr t)) ∧
        s.shared.buckets.length = 3 ∧
        (∀ i, ∀ e ∈ s.shared.bucket i, e.1 % 3 = i) ∧
        (∀ i, ((s.shared.bucket i).map Prod.fst).Nodup) ∧
        (0 < 3 → (threadsafeLookupTable fun k : Nat => k).NoFault .divisionByZero s)) := by
  have hrun : (threadsafeLookupTable fun k : Nat => k).holdsAfter
      (init 3 : Conf (Fin 2) (Shared Nat Nat) (Pc Nat Nat))
      [(0, .call (.addOrUpdateMapping 1 10)), (0, .go), (1, .call (.addOrUpdateMapping 4 40)),
        (1, .go), (0, .call .getMap), (0, .go), (0, .go), (1, .call (.valueFor 4 0)), (1, .go)]
      (fun s => decide (s.shared.locked 0 = true ∧ s.shared.locked 1 = true ∧
        s.shared.bucket 1 = [(1, 10), (4, 40)])) = true := by decide
  obtain ⟨s, h, hr, hp⟩ := Program.reach_of_holdsAfter hrun
  obtain ⟨h0, h1, hb⟩ := of_decide_eq_true hp
  exact ⟨s, h, hr, h0, h1, hb, threadsafeLookupTable_linearizable 3 hr⟩

/-- With no bucket every call but `get_map` faults: after the call, the thread's next step
computes `hasher(key) % buckets.size()` with `buckets.size() = 0`. -/
theorem threadsafeLookupTable_zero_buckets_faults (t : Tid) (op : MapOp K V) :
    (threadsafeLookupTable hasher).Reach (init 0) ((init 0).set t (init 0 : Conf Tid (Shared K V) (Pc K V)).shared (.ofOp op))
      [(t, .call op)] ∧
    ((threadsafeLookupTable hasher).faults .divisionByZero t .go
      ((init 0 : Conf Tid (Shared K V) (Pc K V)).set t (init 0 : Conf Tid (Shared K V) (Pc K V)).shared (.ofOp op)) = true ↔
        op ≠ .getMap) := by
  refine ⟨?_, ?_⟩
  · simpa using Program.Reach.single (P := threadsafeLookupTable hasher)
      (s := (init 0 : Conf Tid (Shared K V) (Pc K V))) (t := t) (c := .call op) rfl
  · cases op <;> simp [Program.faults, threadsafeLookupTable, step, getBucket, init, Pc.ofOp, bind,
      Except.bind]

end Table

end ThreadsafeLookupTable

end ConcurrencyInAction
