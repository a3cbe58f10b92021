import CometBFT.CList.CList

/-! The pointers of a `CList` over every run of `PushBack`, and of `Remove` followed by `DetachPrev`, as
    the mempool makes them.

    A run is compared with the list it should hold: the elements pushed and not removed, in the order
    they were pushed (`contents`). The invariant `Inv` says that the pointers link that list in both
    directions, that `head`, `tail` and `curLen` describe it, that a removed element is marked and has
    no `prev`, and that every `next` pointer, also one a removed element keeps, goes forward past no
    element of the list. From it, walking `Next` from the head lists the elements, walking `Prev` from
    the tail lists them backwards, and a walk from any element, removed or not, meets every later
    element of the list unless it stops first at a removed element. -/

namespace CometBFT

namespace CList

open LinkedChain

variable {α : Type}

/-! ### What the list should hold -/

/-- The elements in the list after `ops`, from a heap of `n` elements whose list holds `live`. -/
def contentsFrom : ℕ → List ℕ → List (Op α) → List ℕ
  | _, live, [] => live
  | n, live, .pushBack _ :: ops => contentsFrom (n + 1) (live ++ [n]) ops
  | n, live, .remove e :: ops => contentsFrom n (live.erase e) ops

/-- The elements a run from an empty list leaves in it, in the order they were pushed. -/
def contents (ops : List (Op α)) : List ℕ := contentsFrom 0 [] ops

/-- The runs the mempool makes: each `Remove` is of an element in the list, and each `PushBack` finds
    fewer than `m` elements in it. -/
def ValidFrom (m : ℕ) : ℕ → List ℕ → List (Op α) → Prop
  | _, _, [] => True
  | n, live, .pushBack _ :: ops => live.length < m ∧ ValidFrom m (n + 1) (live ++ [n]) ops
  | n, live, .remove e :: ops => e ∈ live ∧ ValidFrom m n (live.erase e) ops

/-! ### The invariant -/

structure Inv (l : CList α) (live : List ℕ) : Prop where
  sorted : live.Pairwise (· < ·)
  lt_length : ∀ x ∈ live, x < l.elems.length
  removed_iff : ∀ x < l.elems.length, l.elems.removed x = true ↔ x ∉ live
  head : l.head = live.head?
  tail : l.tail = live.getLast?
  curLen : l.curLen = live.length
  nextLinks : Links l.elems.next live
  prevLinks : Links l.elems.prev live.reverse
  forward : Forward l.elems.next (· ∈ live)
  next_lt : ∀ x y, l.elems.next x = some y → y < l.elems.length
  detached : ∀ x ∉ live, l.elems.prev x = none

theorem inv_newWithMax (m : ℕ) : Inv (newWithMax m : CList α) [] where
  sorted := List.Pairwise.nil
  lt_length := by simp
  removed_iff := by simp [newWithMax]
  head := rfl
  tail := rfl
  curLen := rfl
  nextLinks := by simp [Links]
  prevLinks := by simp [Links]
  forward := by simp [Forward, newWithMax, Heap.next]
  next_lt := by simp [newWithMax, Heap.next]
  detached := by simp [newWithMax, Heap.prev]

namespace Inv

variable {l : CList α} {live : List ℕ}

theorem nodup (hinv : Inv l live) : live.Nodup := hinv.sorted.nodup

theorem next_eq (hinv : Inv l live) {x : ℕ} (hx : x ∈ live) : l.elems.next x = after live x :=
  hinv.nextLinks x hx

theorem prev_eq (hinv : Inv l live) {x : ℕ} (hx : x ∈ live) : l.elems.prev x = after live.reverse x :=
  hinv.prevLinks x (List.mem_reverse.mpr hx)

/-- The last element of the list is the only one without a successor. -/
theorem le_of_next_eq_none (hinv : Inv l live) {x : ℕ} (hx : x ∈ live) (hnone : l.elems.next x = none) :
    ∀ z ∈ live, z ≤ x := by
  rw [hinv.next_eq hx, after_eq_none_iff hinv.nodup hx] at hnone
  exact fun z hz => le_of_getLast? hinv.sorted hnone hz

/-- `PushBack` appends its new element to the list. -/
theorem pushBack {l' : CList α} {v : α} {e : ℕ} (hinv : Inv l live) (h : l.pushBack v = some (l', e)) :
    Inv l' (live ++ [l.elems.length]) := by
  have htail : ∀ t ∈ l.tail, t < l.elems.length := fun t ht =>
    hinv.lt_length t (List.mem_of_getLast? (hinv.tail ▸ ht))
  obtain ⟨-, rfl, hlen, -, hcur, hhead, htail', hnext_e, hprev_e, hrem_e, hnext, hold⟩ := pushBack_eq_some htail h
  set n := l.elems.length
  have hn : n ∉ live := fun h => (hinv.lt_length n h).false
  -- a pointer past the old heap reads nothing
  have hbeyond : ∀ x, n < x → l'.elems.next x = none ∧ l'.elems.prev x = none := fun x hx =>
    ⟨Heap.next_eq_none_of_le (by omega), Heap.prev_eq_none_of_le (by omega)⟩
  refine ⟨?sorted, ?lt_length, ?removed_iff, ?head, ?tail, ?curLen, ?nextLinks, ?prevLinks, ?forward, ?next_lt,
    ?detached⟩
  case sorted =>
    exact List.pairwise_append.mpr ⟨hinv.sorted, List.pairwise_singleton _ _,
      fun a ha b hb => (List.mem_singleton.mp hb) ▸ hinv.lt_length a ha⟩
  case lt_length =>
    intro x hx
    rcases List.mem_append.mp hx with hx | hx
    · exact hlen ▸ Nat.lt_succ_of_lt (hinv.lt_length x hx)
    · rw [List.mem_singleton.mp hx, hlen]
      exact Nat.lt_succ_self n
  case removed_iff =>
    intro x hx
    rcases Nat.lt_or_ge x n with hxn | hxn
    · rw [(hold x hxn).2, hinv.removed_iff x hxn]
      simp [hxn.ne]
    · obtain rfl : x = n := by omega
      simp [hrem_e]
  case head =>
    rw [hhead, hinv.tail]
    cases live with
    | nil => rfl
    | cons a live => simp [hinv.head]
  case tail => simp [htail']
  case curLen => simp [hcur, hinv.curLen]
  case nextLinks =>
    intro x hx
    rcases List.mem_append.mp hx with hx | hx
    · have hxn : x < n := hinv.lt_length x hx
      rw [hnext x hxn, after_append_singleton hinv.nodup hx, hinv.tail, hinv.next_eq hx]
      rfl
    · rw [List.mem_singleton.mp hx, hnext_e, after_append_singleton_self hn]
  case prevLinks =>
    intro x hx
    rw [List.reverse_append, List.reverse_singleton, List.singleton_append] at hx ⊢
    rcases List.mem_cons.mp hx with rfl | hx
    · rw [hprev_e, after_cons_self, List.head?_reverse, hinv.tail]
    · have hx' : x ∈ live := List.mem_reverse.mp hx
      rw [(hold x (hinv.lt_length x hx')).1, hinv.prev_eq hx',
        after_cons_of_ne (fun h : x = n => hn (h ▸ hx'))]
  case forward =>
    intro x y hxy
    rcases Nat.lt_trichotomy x n with hxn | rfl | hxn
    · rw [hnext x hxn] at hxy
      split_ifs at hxy with hxt
      · -- the old last element now points at the new one
        obtain rfl := Option.some.inj hxy
        have hlast : live.getLast? = some x := hinv.tail ▸ hxt
        refine ⟨hxn, fun z hz ⟨hxz, hzn⟩ => ?_⟩
        rcases List.mem_append.mp hz with hz | hz
        · exact absurd (le_of_getLast? hinv.sorted hlast hz) (by omega)
        · rw [List.mem_singleton.mp hz] at hzn
          exact lt_irrefl n hzn
      · obtain ⟨hxy', hskip⟩ := hinv.forward x y hxy
        refine ⟨hxy', fun z hz ⟨hxz, hzy⟩ => ?_⟩
        rcases List.mem_append.mp hz with hz | hz
        · exact hskip z hz ⟨hxz, hzy⟩
        · rw [List.mem_singleton.mp hz] at hzy
          exact absurd (hinv.next_lt x y hxy) (by omega)
    · rw [hnext_e] at hxy
      cases hxy
    · rw [(hbeyond x hxn).1] at hxy
      cases hxy
  case next_lt =>
    intro x y hxy
    rw [hlen]
    rcases Nat.lt_trichotomy x n with hxn | rfl | hxn
    · rw [hnext x hxn] at hxy
      split_ifs at hxy
      · rw [Option.some.inj hxy.symm]
        exact Nat.lt_succ_self n
      · exact Nat.lt_succ_of_lt (hinv.next_lt x y hxy)
    · rw [hnext_e] at hxy
      cases hxy
    · rw [(hbeyond x hxn).1] at hxy
      cases hxy
  case detached =>
    intro x hx
    rw [List.mem_append, not_or, List.mem_singleton] at hx
    rcases Nat.lt_or_ge x n with hxn | hxn
    · rw [(hold x hxn).1, hinv.detached x hx.1]
    · exact (hbeyond x (by omega)).2

/-- Only an element of the list can be removed: a removed element has lost its `prev`, and it is not
    the head. -/
theorem mem_of_remove {l₁ : CList α} {e : ℕ} {v : α} (hinv : Inv l live) (h : l.remove e = some (l₁, v)) :
    e ∈ live := by
  obtain ⟨-, -, -, hhead, -⟩ := remove_eq_some h
  by_contra he
  have hfirst : live.head? = some e := hinv.head ▸ hhead (hinv.detached e he)
  exact he (List.mem_of_mem_head? hfirst)

/-- `Remove` followed by `DetachPrev` erases the element from the list. -/
theorem remove {l₁ l' : CList α} {e : ℕ} {v : α} (hinv : Inv l live) (h : l.remove e = some (l₁, v))
    (hd : l₁.detachPrev e = some l') : Inv l' (live.erase e) := by
  have he := hinv.mem_of_remove h
  obtain ⟨hlt, -, -, -, -, rfl⟩ := remove_eq_some h
  obtain ⟨-, rfl⟩ := detachPrev_eq_some hd
  have hnd := hinv.nodup
  -- `e`'s neighbours in the list, which its pointers name
  set p := l.elems.prev e with hp_def
  set q := l.elems.next e with hq_def
  have hp : p = after live.reverse e := hinv.prev_eq he
  have hq : q = after live e := hinv.next_eq he
  have hpvalid : ∀ x ∈ p, x < l.elems.length := fun x hx =>
    hinv.lt_length x (List.mem_reverse.mp (mem_of_after_eq_some (hp ▸ hx)).2)
  have hqvalid : ∀ x ∈ q, x < l.elems.length := fun x hx =>
    hinv.lt_length x (mem_of_after_eq_some (hq ▸ hx)).2
  -- `x` stands before `e` exactly when `e` names it as `prev`
  have hbefore : ∀ x, x ∈ p ↔ after live x = some e := fun x => by
    rw [Option.mem_def, hp, after_reverse_eq_some hnd]
  have hafter : ∀ x, x ∈ q ↔ after live.reverse x = some e := fun x => by
    rw [Option.mem_def, hq, after_reverse_eq_some hnd]
  have hnext : ∀ x, (l.unlink e p q).elems.next x = if x ∈ p then q else l.elems.next x :=
    unlink_next hpvalid
  have hprev : ∀ x, (l.unlink e p q).elems.prev x = if x ∈ q then p else l.elems.prev x :=
    unlink_prev hqvalid
  have hlen : e < (l.unlink e p q).elems.length := by simpa using hlt
  have hmem : ∀ x, x ∈ live.erase e ↔ x ≠ e ∧ x ∈ live := fun x => hnd.mem_erase_iff
  refine ⟨?sorted, ?lt_length, ?removed_iff, ?head, ?tail, ?curLen, ?nextLinks, ?prevLinks, ?forward, ?next_lt,
    ?detached⟩
  case sorted => exact hinv.sorted.sublist (List.erase_sublist)
  case lt_length =>
    intro x hx
    simpa using hinv.lt_length x (List.mem_of_mem_erase hx)
  case removed_iff =>
    intro x hx
    simp only [Heap.removed_setPrev, unlink_removed hlt, hmem]
    split_ifs with hxe
    · simp [hxe]
    · simpa [hxe] using hinv.removed_iff x (by simpa using hx)
  case head =>
    rw [unlink_head, head?_erase hnd he, hinv.head, ← hp, ← hq]
  case tail =>
    rw [unlink_tail, getLast?_erase hnd he, hinv.tail, ← hp, ← hq]
  case curLen =>
    rw [unlink_curLen, List.length_erase_of_mem he, hinv.curLen]
  case nextLinks =>
    intro x hx
    obtain ⟨hxe, hx⟩ := (hmem x).mp hx
    rw [Heap.next_setPrev, hnext, after_erase hnd hxe, hinv.next_eq hx, ← hq]
    simp only [hbefore]
  case prevLinks =>
    intro x hx
    rw [reverse_erase hnd] at hx ⊢
    obtain ⟨hxe, hx⟩ := ((List.nodup_reverse.mpr hnd).mem_erase_iff).mp hx
    rw [Heap.prev_setPrev x hlen, if_neg hxe, hprev, after_erase (List.nodup_reverse.mpr hnd) hxe,
      hinv.prev_eq (List.mem_reverse.mp hx), ← hp]
    simp only [hafter]
  case forward =>
    intro x y hxy
    rw [Heap.next_setPrev, hnext] at hxy
    split_ifs at hxy with hxp
    · -- `e`'s predecessor now points where `e` did, past `e` only
      have hxe : l.elems.next x = some e := by
        rw [hinv.next_eq (mem_of_after_eq_some ((hbefore x).mp hxp)).1]
        exact (hbefore x).mp hxp
      obtain ⟨hxe', hskip₁⟩ := hinv.forward x e hxe
      obtain ⟨hey, hskip₂⟩ := hinv.forward e y hxy
      refine ⟨by omega, fun z hz ⟨hxz, hzy⟩ => ?_⟩
      obtain ⟨hze, hz⟩ := (hmem z).mp hz
      rcases Nat.lt_or_gt_of_ne hze with hze | hze
      · exact hskip₁ z hz ⟨hxz, hze⟩
      · exact hskip₂ z hz ⟨hze, hzy⟩
    · obtain ⟨hxy', hskip⟩ := hinv.forward x y hxy
      exact ⟨hxy', fun z hz => hskip z (List.mem_of_mem_erase hz)⟩
  case next_lt =>
    intro x y hxy
    rw [Heap.next_setPrev, hnext] at hxy
    simp only [Heap.length_setPrev, unlink_length]
    split_ifs at hxy
    · exact hinv.next_lt e y hxy
    · exact hinv.next_lt x y hxy
  case detached =>
    intro x hx
    by_cases hxe : x = e
    · rw [hxe, Heap.prev_setPrev e hlen, if_pos rfl]
    · have hx' : x ∉ live := fun h => hx ((hmem x).mpr ⟨hxe, h⟩)
      rw [Heap.prev_setPrev x hlen, if_neg hxe, hprev, if_neg, hinv.detached x hx']
      exact fun h => hx' (List.mem_reverse.mp (mem_of_after_eq_some ((hafter x).mp h)).1)

/-- One operation moves the list to the one `contentsFrom` describes. -/
theorem step {l' : CList α} {op : Op α} (hinv : Inv l live) (h : l.step op = some l') :
    ∃ live', Inv l' live' ∧ l'.maxLen = l.maxLen ∧
      ∀ ops, contentsFrom l.elems.length live (op :: ops) = contentsFrom l'.elems.length live' ops := by
  cases op with
  | pushBack v =>
    obtain ⟨⟨l'', e⟩, hpush, rfl⟩ := Option.map_eq_some_iff.mp h
    have htail : ∀ t ∈ l.tail, t < l.elems.length := fun t ht =>
      hinv.lt_length t (List.mem_of_getLast? (hinv.tail ▸ ht))
    obtain ⟨-, -, hlen, hmax, -⟩ := pushBack_eq_some htail hpush
    exact ⟨_, hinv.pushBack hpush, hmax, fun ops => by rw [hlen]; rfl⟩
  | remove e =>
    obtain ⟨⟨l₁, v⟩, hrem, hd⟩ := Option.bind_eq_some_iff.mp h
    obtain ⟨-, -, -, -, -, rfl⟩ := remove_eq_some hrem
    obtain ⟨-, rfl⟩ := detachPrev_eq_some hd
    exact ⟨_, hinv.remove hrem hd, by simp, fun ops => by simp [contentsFrom]⟩

/-- Every run keeps the invariant, for the list `contentsFrom` describes. -/
theorem run {l' : CList α} {ops : List (Op α)} (hinv : Inv l live) (h : l.run ops = some l') :
    Inv l' (contentsFrom l.elems.length live ops) := by
  induction ops generalizing l live with
  | nil =>
    obtain rfl := Option.some.inj h
    exact hinv
  | cons op ops ih =>
    obtain ⟨l₁, hstep, hrun⟩ := Option.bind_eq_some_iff.mp h
    obtain ⟨live₁, hinv₁, -, hcontents⟩ := hinv.step hstep
    rw [hcontents]
    exact ih hinv₁ hrun

/-- A walk from an element of the list stays in the list. -/
theorem mem_of_reaches (hinv : Inv l live) {e f : ℕ} (he : e ∈ live)
    (h : Relation.ReflTransGen (Step l.elems.next) e f) : f ∈ live :=
  LinkedChain.mem_of_reaches (fun _ _ hx hxy => (mem_of_after_eq_some ((hinv.next_eq hx).symm.trans hxy)).2) he h

/-- A walk along `Next` from any element meets every element of the list pushed after it, or stops
    first at a removed element; from an element of the list it always meets them. -/
theorem reaches (hinv : Inv l live) {e f : ℕ} (he : e < l.elems.length) (hf : f ∈ live) (hef : e ≤ f) :
    (e ∈ live → Relation.ReflTransGen (Step l.elems.next) e f) ∧
      (Relation.ReflTransGen (Step l.elems.next) e f ∨
        ∃ x, Relation.ReflTransGen (Step l.elems.next) e x ∧ x < f ∧ l.elems.next x = none ∧
          l.elems.removed x = true) := by
  have hwalk := reaches_or_stops hinv.forward (fun x hx hnone => hinv.le_of_next_eq_none hx hnone) hef hf
  -- a walk that stops stops at an element outside the list, which is marked removed
  have hstop : ∀ x, Relation.ReflTransGen (Step l.elems.next) e x → x ∉ live → l.elems.removed x = true := by
    intro x hx hxl
    refine (hinv.removed_iff x ?_).mpr hxl
    rcases Relation.ReflTransGen.cases_tail hx with rfl | ⟨w, -, hwx⟩
    · exact he
    · exact hinv.next_lt w x hwx
  refine ⟨fun hel => ?_, ?_⟩
  · rcases hwalk with h | ⟨x, hx, -, -, hxl⟩
    · exact h
    · exact absurd (hinv.mem_of_reaches hel hx) hxl
  · rcases hwalk with h | ⟨x, hx, hxf, hnone, hxl⟩
    · exact .inl h
    · exact .inr ⟨x, hx, hxf, hnone, hstop x hx hxl⟩

/-! ### No run of the mempool panics -/

theorem tail_lt (hinv : Inv l live) : ∀ t ∈ l.tail, t < l.elems.length := fun t ht =>
  hinv.lt_length t (List.mem_of_getLast? (hinv.tail ▸ ht))

theorem pushBack_isSome (hinv : Inv l live) (v : α) (hlen : live.length < l.maxLen) :
    ∃ l' e, l.pushBack v = some (l', e) := by
  unfold CList.pushBack
  rw [if_neg (by rw [hinv.curLen]; omega)]
  cases l.tail <;> exact ⟨_, _, rfl⟩

/-- `Remove` of an element of the list passes its three checks, and `DetachPrev` then finds it removed. -/
theorem remove_isSome (hinv : Inv l live) {e : ℕ} (he : e ∈ live) : ∃ l', l.step (.remove e) = some l' := by
  have hne : live ≠ [] := List.ne_nil_of_mem he
  have hlt := hinv.lt_length e he
  obtain ⟨v, hrem⟩ := remove_eq_some_of hlt (by simp [hinv.head, hne]) (by simp [hinv.tail, hne])
    (fun hnone => by
      rw [hinv.prev_eq he, after_eq_none_iff (List.nodup_reverse.mpr hinv.nodup) (List.mem_reverse.mpr he),
        List.getLast?_reverse] at hnone
      rw [hinv.head, hnone])
    (fun hnone => by
      rw [hinv.next_eq he, after_eq_none_iff hinv.nodup he] at hnone
      rw [hinv.tail, hnone])
  have hremoved : (l.unlink e (l.elems.prev e) (l.elems.next e)).elems.removed e = true := by
    rw [unlink_removed hlt, if_pos rfl]
  exact ⟨_, by rw [CList.step, hrem, Option.bind_some, detachPrev, if_pos hremoved]⟩

/-- A run of the mempool's operations returns. -/
theorem run_isSome {ops : List (Op α)} (hinv : Inv l live) (hvalid : ValidFrom l.maxLen l.elems.length live ops) :
    ∃ l', l.run ops = some l' := by
  induction ops generalizing l live with
  | nil => exact ⟨l, rfl⟩
  | cons op ops ih =>
    cases op with
    | pushBack v =>
      obtain ⟨hlen, hrest⟩ := hvalid
      obtain ⟨l₁, e, hpush⟩ := hinv.pushBack_isSome v hlen
      obtain ⟨-, -, hlen₁, hmax, -⟩ := pushBack_eq_some hinv.tail_lt hpush
      obtain ⟨l', hrun⟩ := ih (hinv.pushBack hpush) (by rw [hmax, hlen₁]; exact hrest)
      exact ⟨l', by rw [run_cons, CList.step, hpush, Option.map_some, Option.bind_some, hrun]⟩
    | remove e =>
      obtain ⟨he, hrest⟩ := hvalid
      obtain ⟨l₁, hstep⟩ := hinv.remove_isSome he
      obtain ⟨⟨l₀, v⟩, hrem, hd⟩ := Option.bind_eq_some_iff.mp hstep
      have hinv₁ := hinv.remove hrem hd
      obtain ⟨-, -, -, -, -, rfl⟩ := remove_eq_some hrem
      obtain ⟨-, rfl⟩ := detachPrev_eq_some hd
      obtain ⟨l', hrun⟩ := ih hinv₁ (by simpa using hrest)
      exact ⟨l', by rw [run_cons, hstep]; exact hrun⟩

end Inv

/-- Walking `Next` from the head lists `live`, walking `Prev` from the tail lists it backwards, and
    `curLen` is its length. -/
def Traverses (l : CList α) (live : List ℕ) : Prop :=
  (∀ fuel, live.length ≤ fuel → walk l.elems.next fuel l.head = live) ∧
    (∀ fuel, live.length ≤ fuel → walk l.elems.prev fuel l.tail = live.reverse) ∧ l.curLen = live.length

/-- A walk along `Next` from an element of `live` meets every later element of `live`; a walk from any
    element, removed or not, meets each of them or stops first at a removed element with no `Next`. -/
def ReachesLater (l : CList α) (live : List ℕ) : Prop :=
  ∀ e f, e < l.elems.length → f ∈ live → e ≤ f →
    (e ∈ live → Relation.ReflTransGen (Step l.elems.next) e f) ∧
    (Relation.ReflTransGen (Step l.elems.next) e f ∨
      ∃ x, Relation.ReflTransGen (Step l.elems.next) e x ∧ x < f ∧ l.elems.next x = none ∧
        l.elems.removed x = true)

/-- The mempool's list over every run of `PushBack` and of `Remove` of an element of the list followed by
    `DetachPrev`: the run returns, its pointers list the elements pushed and not removed in both
    directions, walks along `Next` miss none of them, and every `Next`, also one a removed element keeps,
    points to a later element and jumps over no element of the list. -/
theorem clist_run_links_and_reach {m : ℕ} {ops : List (Op α)} (hvalid : ValidFrom m 0 [] ops) :
    ∃ l, (newWithMax m : CList α).run ops = some l ∧ Traverses l (contents ops) ∧
      ReachesLater l (contents ops) ∧ Forward l.elems.next (· ∈ contents ops) := by
  obtain ⟨l, hrun⟩ := (inv_newWithMax m).run_isSome hvalid
  have hinv : Inv l (contents ops) := (inv_newWithMax m).run hrun
  refine ⟨l, hrun, ⟨fun fuel hfuel => ?_, fun fuel hfuel => ?_, hinv.curLen⟩,
    fun e f he hf hef => hinv.reaches he hf hef, hinv.forward⟩
  · rw [hinv.head]
    exact walk_of_links hinv.nodup hinv.nextLinks hfuel
  · rw [hinv.tail, ← List.head?_reverse]
    exact walk_of_links (List.nodup_reverse.mpr hinv.nodup) hinv.prevLinks (by simpa using hfuel)

/-- Three transactions pushed, the first removed while a gossip routine may stand on it. -/
theorem clist_run_links_and_reach_gossip :
    ValidFrom (2 ^ 63 - 1) 0 [] ([.pushBack 10, .pushBack 11, .remove 0, .pushBack 12] : List (Op ℕ)) ∧
      ∃ l, (new : CList ℕ).run [.pushBack 10, .pushBack 11, .remove 0, .pushBack 12] = some l ∧
        Traverses l (contents ([.pushBack 10, .pushBack 11, .remove 0, .pushBack 12] : List (Op ℕ))) ∧
        ReachesLater l (contents ([.pushBack 10, .pushBack 11, .remove 0, .pushBack 12] : List (Op ℕ))) ∧
        Forward l.elems.next (· ∈ contents ([.pushBack 10, .pushBack 11, .remove 0, .pushBack 12] : List (Op ℕ))) := by
  have hvalid : ValidFrom (2 ^ 63 - 1) 0 [] ([.pushBack 10, .pushBack 11, .remove 0, .pushBack 12] : List (Op ℕ)) := by
    simp [ValidFrom]
  exact ⟨hvalid, clist_run_links_and_reach hvalid⟩

/-- Elements 0 and 1 are pushed; 0 is removed while its `Next` is 1; then 1 is removed as the last element,
    and 2 is pushed. The walk from 0 goes to 1 and stops there, so it never meets 2. -/
theorem removed_element_misses_later_push :
    ∃ l₁ l, (new : CList ℕ).run [.pushBack 10, .pushBack 11] = some l₁ ∧ l₁.elems.next 0 = some 1 ∧
      l₁.run [.remove 0, .remove 1, .pushBack 12] = some l ∧
      contents ([.pushBack 10, .pushBack 11, .remove 0, .remove 1, .pushBack 12] : List (Op ℕ)) = [2] ∧
      ¬Relation.ReflTransGen (Step l.elems.next) 0 2 := by
  -- whatever else the heap holds, a walk from 0 that can only go to 1, and no further, misses 2
  have hmiss : ∀ next : ℕ → Option ℕ, next 0 = some 1 → next 1 = none →
      ¬Relation.ReflTransGen (Step next) 0 2 := by
    intro next h0 h1 h
    have hS : ∀ x y, (x = 0 ∨ x = 1) → Step next x y → (y = 0 ∨ y = 1) := by
      rintro x y (rfl | rfl) hxy
      · rw [Step, h0] at hxy
        exact .inr (Option.some.inj hxy).symm
      · rw [Step, h1] at hxy
        cases hxy
    rcases LinkedChain.mem_of_reaches hS (.inl rfl) h with h2 | h2 <;> omega
  exact ⟨_, _, rfl, rfl, rfl, rfl, hmiss _ rfl rfl⟩

end CList

end CometBFT
