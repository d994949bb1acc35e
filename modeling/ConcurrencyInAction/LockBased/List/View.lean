import ConcurrencyInAction.LockBased.List.Invariant

/-!
# The list as the removals in progress will leave it

A `remove_if` takes effect when it takes `head.m`, but it unlinks the nodes it removes one at a
time, as it walks past them: until it is done, the nodes after its `current` still hold elements
it has removed. `view` reads a stretch of nodes as the removals in progress will leave it: the
element of a node is dropped when the predicate of a removal whose `current` comes before the
node holds of it.

Hand over hand locking keeps this reading stable. A walk that passes a node it keeps moves its
predicate one node on, past an element the predicate does not hold of; an unlink takes out a
node whose element the reading had already dropped; a new node is linked right after `head`,
before every removal in progress. Each such step changes the nodes and predicates of a window
of the list only, and the reading of what lies before and after the window is unchanged.
-/

namespace ConcurrencyInAction

namespace ThreadsafeList

variable {α : Type}

/-! ### Reading a stretch of nodes -/

/-- The element of a node with data `d`, unless `F` removes it. -/
def kept (F : α → Bool) : Option α → List α
  | some v => if F v then [] else [v]
  | none => []

/-- The elements of the nodes `ps` that the removals in progress leave: `F` is the predicate of
the removals whose `current` comes before `ps`, and `R p` that of the removal at node `p`. -/
def view (R : Nat → α → Bool) (heap : Nat → Option (Node α)) (F : α → Bool) :
    List Nat → List α
  | [] => []
  | p :: ps => kept F (datum heap p) ++ view R heap (fun v => F v || R p v) ps

/-- The predicate of the removals at or before the nodes `ps`, with `F` before them. -/
def pass (R : Nat → α → Bool) (F : α → Bool) : List Nat → α → Bool
  | [] => F
  | p :: ps => pass R (fun v => F v || R p v) ps

/-- The nodes after node `x` in `L`. -/
def after (x : Nat) : List Nat → List Nat
  | [] => []
  | p :: ps => if p = x then ps else after x ps

/-- The elements after node `x` of the list `L`, as the removals in progress will leave them;
the removal at `x` counts. -/
def tailView (R : Nat → α → Bool) (heap : Nat → Option (Node α)) (L : List Nat) (x : Nat) :
    List α :=
  view R heap (R x) (after x L)

variable {R R' : Nat → α → Bool} {heap heap' : Nat → Option (Node α)}

/-- A reading depends on the predicates and the data of the nodes read only. -/
lemma view_congr {F G : α → Bool} {l : List Nat} (hF : ∀ v, G v = F v)
    (hR : ∀ p ∈ l, ∀ v, R' p v = R p v) (hd : ∀ p ∈ l, datum heap' p = datum heap p) :
    view R' heap' G l = view R heap F l := by
  induction l generalizing F G with
  | nil => rfl
  | cons p ps ih =>
    obtain rfl : G = F := funext hF
    have hp := List.mem_cons_self p ps
    rw [view, view, hd p hp, ih (F := fun v => G v || R p v) (G := fun v => G v || R' p v)
      (fun v => by simp only [hR p hp v]) (fun q hq => hR q (List.mem_cons_of_mem _ hq))
      (fun q hq => hd q (List.mem_cons_of_mem _ hq))]

lemma pass_congr {F G : α → Bool} {l : List Nat} (hF : ∀ v, G v = F v)
    (hR : ∀ p ∈ l, ∀ v, R' p v = R p v) (v : α) : pass R' G l v = pass R F l v := by
  induction l generalizing F G with
  | nil => exact hF v
  | cons p ps ih =>
    exact ih (F := fun v => F v || R p v) (G := fun v => G v || R' p v)
      (fun u => by simp only [hF, hR p (List.mem_cons_self _ _) u])
      fun q hq => hR q (List.mem_cons_of_mem _ hq)

lemma view_append (F : α → Bool) (l₁ l₂ : List Nat) :
    view R heap F (l₁ ++ l₂) = view R heap F l₁ ++ view R heap (pass R F l₁) l₂ := by
  induction l₁ generalizing F with
  | nil => rfl
  | cons p ps ih => rw [List.cons_append, view, view, pass, ih, List.append_assoc]

/-- One more removal before a stretch drops the elements its predicate holds of. -/
lemma view_or (F f : α → Bool) (l : List Nat) :
    view R heap (fun v => F v || f v) l = (view R heap F l).filter fun v => !f v := by
  induction l generalizing F with
  | nil => rfl
  | cons p ps ih =>
    rw [view, view, List.filter_append, ← ih]
    congr 1
    · rcases datum heap p with _ | v
      · rfl
      · by_cases hF : F v <;> by_cases hf : f v <;> simp [kept, hF, hf]
    · exact view_congr (fun v => Bool.or_right_comm _ _ _) (fun _ _ _ => rfl) fun _ _ => rfl

/-- A node whose element is removed, and at which no removal is, reads as nothing. -/
lemma view_skip {F : α → Bool} {q : Nat} {v : α} (hq : datum heap q = some v) (hF : F v = true)
    (hR : ∀ u, R q u = false) (ps : List Nat) : view R heap F (q :: ps) = view R heap F ps := by
  rw [view, hq]
  simp [kept, hF, hR]

/-! ### The nodes after a node -/

@[simp] lemma after_cons_self (x : Nat) (ps : List Nat) : after x (x :: ps) = ps := by
  simp [after]

lemma after_cons_of_ne {x p : Nat} (h : p ≠ x) (ps : List Nat) :
    after x (p :: ps) = after x ps := by
  simp [after, h]

lemma after_append_of_not_mem {x : Nat} {pre : List Nat} (hx : x ∉ pre) (rest : List Nat) :
    after x (pre ++ rest) = after x rest := by
  induction pre with
  | nil => rfl
  | cons p pre ih =>
    rw [List.cons_append, after_cons_of_ne (fun h => hx (by rw [h]; exact List.mem_cons_self _ _)),
      ih fun h => hx (List.mem_cons_of_mem _ h)]

lemma after_append_of_mem {x : Nat} {pre : List Nat} (hx : x ∈ pre) (rest : List Nat) :
    after x (pre ++ rest) = after x pre ++ rest := by
  induction pre with
  | nil => cases hx
  | cons p pre ih =>
    by_cases h : p = x
    · subst h; simp
    · rw [List.cons_append, after_cons_of_ne h, after_cons_of_ne h,
        ih ((List.mem_cons.1 hx).resolve_left (Ne.symm h))]

lemma mem_of_mem_after {x p : Nat} {L : List Nat} (h : p ∈ after x L) : p ∈ L := by
  induction L with
  | nil => cases h
  | cons q L ih =>
    by_cases hq : q = x
    · rw [hq, after_cons_self] at h; exact List.mem_cons_of_mem _ h
    · rw [after_cons_of_ne hq] at h; exact List.mem_cons_of_mem _ (ih h)

/-! ### Steps that change a window of the list -/

section Window

variable {pre W W' post : List Nat} {x : Nat}

/-- Before a window in which the nodes or predicates change, and whose reading with what follows
is unchanged, every node reads the same. -/
lemma tailView_pre (hR : ∀ p ∈ pre, ∀ v, R' p v = R p v) (hd : ∀ p ∈ pre, datum heap' p = datum heap p)
    (hview : ∀ G, view R' heap' G (W' ++ post) = view R heap G (W ++ post)) (hx : x ∈ pre) :
    tailView R' heap' (pre ++ W' ++ post) x = tailView R heap (pre ++ W ++ post) x := by
  have hsub : ∀ p ∈ after x pre, p ∈ pre := fun p hp => mem_of_mem_after hp
  rw [tailView, tailView, List.append_assoc, List.append_assoc, after_append_of_mem hx,
    after_append_of_mem hx, view_append _ (after x pre) (W' ++ post),
    view_append _ (after x pre) (W ++ post), hview,
    view_congr (fun v => hR x hx v) (fun p hp => hR p (hsub p hp)) (fun p hp => hd p (hsub p hp)),
    funext (pass_congr (fun v => hR x hx v) fun p hp => hR p (hsub p hp))]

/-- After the window every node reads the same. -/
lemma tailView_post (hnd : (pre ++ W ++ post).Nodup) (hnd' : (pre ++ W' ++ post).Nodup)
    (hR : ∀ p ∈ post, ∀ v, R' p v = R p v) (hd : ∀ p ∈ post, datum heap' p = datum heap p)
    (hx : x ∈ post) :
    tailView R' heap' (pre ++ W' ++ post) x = tailView R heap (pre ++ W ++ post) x := by
  have out : ∀ {V : List Nat}, (pre ++ V ++ post).Nodup → x ∉ pre ++ V := fun h hx' =>
    List.disjoint_of_nodup_append h hx' hx
  rw [tailView, tailView, after_append_of_not_mem (out hnd'), after_append_of_not_mem (out hnd)]
  exact view_congr (hR x hx) (fun p hp => hR p (mem_of_mem_after hp))
    fun p hp => hd p (mem_of_mem_after hp)

end Window

/-- A node's reading does not depend on the data of the nodes before it. -/
lemma tailView_of_datum {L : List Nat} (hd : ∀ p ∈ L, datum heap' p = datum heap p) (x : Nat) :
    tailView R heap' L x = tailView R heap L x :=
  view_congr (fun _ => rfl) (fun _ _ _ => rfl) fun p hp => hd p (mem_of_mem_after hp)

/-- The last node reads as nothing. -/
lemma tailView_last (pre : List Nat) (x : Nat) (hx : x ∉ pre) :
    tailView R heap (pre ++ [x]) x = [] := by
  rw [tailView, after_append_of_not_mem hx, after_cons_self]
  rfl

/-! ### The steps -/

section Steps

variable {pre post : List Nat} {cur q : Nat} {v : α}

/-- A walk at `cur` that keeps the element `v` of the next node `q` moves its predicate on to
`q`: the reading from before `cur` is unchanged. -/
lemma view_move (hq : datum heap q = some v) (hv : R cur v = false) (hRq : ∀ u, R q u = false)
    (hcur : ∀ u, R' cur u = false) (hq' : ∀ u, R' q u = R cur u)
    (hpost : ∀ p ∈ post, ∀ u, R' p u = R p u) (G : α → Bool) :
    view R' heap G ([cur, q] ++ post) = view R heap G ([cur, q] ++ post) := by
  simp only [List.cons_append, List.nil_append, view, hq, kept, hcur, hv, Bool.or_false]
  exact congrArg _ (congrArg _
    (view_congr (fun u => by simp only [hcur, hq', hRq, Bool.or_false]) hpost fun _ _ => rfl))

/-- ... and so is the reading from `cur` on. -/
lemma tailView_move_cur (hcur' : cur ∉ pre) (hq : datum heap q = some v) (hv : R cur v = false)
    (hRq : ∀ u, R q u = false) (hcur : ∀ u, R' cur u = false) (hq' : ∀ u, R' q u = R cur u)
    (hpost : ∀ p ∈ post, ∀ u, R' p u = R p u) :
    tailView R' heap (pre ++ cur :: q :: post) cur = tailView R heap (pre ++ cur :: q :: post) cur := by
  rw [tailView, tailView, after_append_of_not_mem hcur', after_cons_self, view, view, hq]
  simp only [kept, hcur, hv]
  exact congrArg _ (view_congr (fun u => by simp only [hcur, hq', hRq, Bool.or_false, Bool.false_or])
    hpost fun _ _ => rfl)

/-- The walk that moved reads from `q` what it read from `cur`, but the element it passed. -/
lemma tailView_move_next (hnd : (pre ++ cur :: q :: post).Nodup) (hq : datum heap q = some v)
    (hv : R cur v = false) (hRq : ∀ u, R q u = false) (hq' : ∀ u, R' q u = R cur u)
    (hpost : ∀ p ∈ post, ∀ u, R' p u = R p u) :
    tailView R heap (pre ++ cur :: q :: post) cur = v :: tailView R' heap (pre ++ cur :: q :: post) q := by
  obtain ⟨-, hmid, hdis⟩ := List.nodup_append.1 hnd
  have hq_pre : q ∉ pre ++ [cur] := fun h => by
    rcases List.mem_append.1 h with h | h
    · exact hdis h (by simp)
    · simp at h; simp [h] at hmid
  rw [tailView, tailView, after_append_of_not_mem (fun h => hdis h (List.mem_cons_self _ _)),
    after_cons_self, (by simp : pre ++ cur :: q :: post = (pre ++ [cur]) ++ q :: post),
    after_append_of_not_mem hq_pre, after_cons_self, view, hq]
  simp only [kept, hv, if_false, List.singleton_append]
  exact congrArg _ (view_congr (fun u => by simp only [hq', hRq, Bool.or_false]) hpost
    fun _ _ => rfl).symm

/-- Unlinking the node `q` after `cur`, whose element the removal at `cur` drops, leaves the
reading from before `cur` unchanged. -/
lemma view_unlink (hq : datum heap q = some v) (hv : R cur v = true) (hRq : ∀ u, R q u = false)
    (hd : ∀ p ∈ cur :: post, datum heap' p = datum heap p) (G : α → Bool) :
    view R heap' G ([cur] ++ post) = view R heap G ([cur, q] ++ post) := by
  show view R heap' G (cur :: post) = view R heap G (cur :: q :: post)
  rw [view, view, view_skip hq (by simp [hv]) hRq, hd cur (List.mem_cons_self _ _),
    view_congr (fun _ => rfl) (fun _ _ _ => rfl) fun p hp => hd p (List.mem_cons_of_mem _ hp)]

/-- ... and the reading from `cur` on. -/
lemma tailView_unlink_cur (hcur : cur ∉ pre) (hq : datum heap q = some v) (hv : R cur v = true)
    (hRq : ∀ u, R q u = false) (hd : ∀ p ∈ post, datum heap' p = datum heap p) :
    tailView R heap' (pre ++ cur :: post) cur = tailView R heap (pre ++ cur :: q :: post) cur := by
  rw [tailView, tailView, after_append_of_not_mem hcur, after_append_of_not_mem hcur,
    after_cons_self, after_cons_self, view_skip hq hv hRq]
  exact view_congr (fun _ => rfl) (fun _ _ _ => rfl) hd

/-- A node linked right after `head`, before every removal in progress, is read first. -/
lemma tailView_push {p : Nat} {ns : List Nat} (hp : datum heap' p = some v)
    (hR0 : ∀ u, R 0 u = false) (hRp : ∀ u, R p u = false)
    (hd : ∀ q ∈ ns, datum heap' q = datum heap q) :
    tailView R heap' (0 :: p :: ns) 0 = v :: tailView R heap (0 :: ns) 0 := by
  rw [tailView, tailView, after_cons_self, after_cons_self, view, hp]
  simp only [kept, hR0, if_false, List.singleton_append]
  exact congrArg _ (view_congr (fun u => by simp only [hRp, hR0, Bool.or_false]) (fun _ _ _ => rfl) hd)

/-- A removal taking `head.m` drops, from the reading after `head`, the elements its predicate
holds of. -/
lemma tailView_lockHead {f : α → Bool} {ns : List Nat} (hR0 : ∀ u, R' 0 u = (R 0 u || f u))
    (hR : ∀ p ∈ ns, ∀ u, R' p u = R p u) :
    tailView R' heap (0 :: ns) 0 = (tailView R heap (0 :: ns) 0).filter fun u => !f u := by
  rw [tailView, tailView, after_cons_self, ← view_or]
  exact view_congr hR0 hR fun _ _ => rfl

/-! ### Every node a step leaves in the list -/

/-- A walk passing a node it keeps changes the reading of no node but the one it passed to. -/
lemma tailView_move (hnd : (pre ++ cur :: q :: post).Nodup) (hq : datum heap q = some v)
    (hv : R cur v = false) (hRq : ∀ u, R q u = false) (hcur : ∀ u, R' cur u = false)
    (hq' : ∀ u, R' q u = R cur u) (hR : ∀ p, p ≠ cur → p ≠ q → ∀ u, R' p u = R p u) {x : Nat}
    (hx : x ∈ pre ++ cur :: q :: post) (hxq : x ≠ q) :
    tailView R' heap (pre ++ cur :: q :: post) x = tailView R heap (pre ++ cur :: q :: post) x := by
  obtain ⟨-, hmid, hdis⟩ := List.nodup_append.1 hnd
  have hpre : ∀ p ∈ pre, ∀ u, R' p u = R p u := fun p hp =>
    hR p (fun e => hdis hp (by simp [e])) fun e => hdis hp (by simp [e])
  have hpost : ∀ p ∈ post, ∀ u, R' p u = R p u := fun p hp =>
    hR p (fun e => by simp_all) fun e => by simp_all
  have hL : pre ++ cur :: q :: post = pre ++ [cur, q] ++ post := by simp
  rcases List.mem_append.1 hx with hx | hx
  · rw [hL]
    exact tailView_pre hpre (fun _ _ => rfl) (view_move hq hv hRq hcur hq' hpost) hx
  rcases List.mem_cons.1 hx with rfl | hx
  · exact tailView_move_cur (fun h => hdis h (List.mem_cons_self _ _)) hq hv hRq hcur hq' hpost
  rcases List.mem_cons.1 hx with rfl | hx
  · exact absurd rfl hxq
  · rw [hL] at hnd ⊢
    exact tailView_post hnd hnd hpost (fun _ _ => rfl) hx

/-- Unlinking a node whose element the removal at `cur` drops changes the reading of no node
left in the list. -/
lemma tailView_unlink (hnd : (pre ++ cur :: q :: post).Nodup) (hq : datum heap q = some v)
    (hv : R cur v = true) (hRq : ∀ u, R q u = false)
    (hd : ∀ p ∈ pre ++ cur :: post, datum heap' p = datum heap p) {x : Nat}
    (hx : x ∈ pre ++ cur :: post) :
    tailView R heap' (pre ++ cur :: post) x = tailView R heap (pre ++ cur :: q :: post) x := by
  have hnd' := hnd.sublist (((List.sublist_cons_self q post).cons₂ cur).append_left pre)
  have hdis := (List.nodup_append.1 hnd).2.2
  have hL : pre ++ cur :: q :: post = pre ++ [cur, q] ++ post := by simp
  have hL' : pre ++ cur :: post = pre ++ [cur] ++ post := by simp
  rcases List.mem_append.1 hx with hx | hx
  · rw [hL, hL']
    exact tailView_pre (fun _ _ _ => rfl) (fun p hp => hd p (List.mem_append_left _ hp))
      (view_unlink hq hv hRq fun p hp => hd p (List.mem_append_right _ hp)) hx
  rcases List.mem_cons.1 hx with rfl | hx
  · exact tailView_unlink_cur (fun h => hdis h (List.mem_cons_self _ _)) hq hv hRq
      fun p hp => hd p (by simp [hp])
  · rw [hL] at hnd ⊢
    rw [hL'] at hnd' ⊢
    exact tailView_post hnd hnd' (fun _ _ _ => rfl) (fun p hp => hd p (by simp [hp])) hx

/-- Giving up the last node changes the reading of no node. -/
lemma tailView_release (hcur : cur ∉ pre) (hR : ∀ p ∈ pre, ∀ u, R' p u = R p u) {x : Nat}
    (hx : x ∈ pre ++ [cur]) : tailView R' heap (pre ++ [cur]) x = tailView R heap (pre ++ [cur]) x := by
  rcases List.mem_append.1 hx with hx | hx
  · rw [← List.append_nil (pre ++ [cur])]
    exact tailView_pre hR (fun _ _ => rfl) (fun _ => rfl) hx
  · obtain rfl : x = cur := List.mem_singleton.1 hx
    rw [tailView_last pre x hcur, tailView_last pre x hcur]

end Steps

end ThreadsafeList

end ConcurrencyInAction
