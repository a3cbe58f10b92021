import Mathlib
import CometBFT.Lib.LinkedChain

/-! The concurrent linked list `CList` (`internal/clist/clist.go`) that holds the mempool's
    transactions, which gossip routines walk element by element while it changes.

    The elements live in a heap `elems` in the order `PushBack` made them, and a pointer is an index
    into it; an element is never freed, so a pointer stays valid after `Remove`. The wait groups and
    channels that wake up waiting readers are left out: they change no pointer. A panic is `none`. -/

namespace CometBFT

structure CElement (α : Type) where
  prev : Option ℕ
  next : Option ℕ
  removed : Bool
  value : α
  deriving DecidableEq, Repr

/-- The elements `PushBack` made, in order: a pointer is an index. -/
abbrev Heap (α : Type) := List (CElement α)

namespace Heap

variable {α : Type}

/-- `e.Next()`. -/
def next (h : Heap α) (e : ℕ) : Option ℕ := h[e]?.bind (·.next)

/-- `e.Prev()`. -/
def prev (h : Heap α) (e : ℕ) : Option ℕ := h[e]?.bind (·.prev)

/-- `e.Removed()`. -/
def removed (h : Heap α) (e : ℕ) : Bool := h[e]?.any (·.removed)

/-- `e.SetNext(n)`. -/
def setNext (h : Heap α) (e : ℕ) (n : Option ℕ) : Heap α := h.modify e fun x => { x with next := n }

/-- `e.SetPrev(p)`. -/
def setPrev (h : Heap α) (e : ℕ) (p : Option ℕ) : Heap α := h.modify e fun x => { x with prev := p }

/-- `e.SetRemoved()`. -/
def setRemoved (h : Heap α) (e : ℕ) : Heap α := h.modify e fun x => { x with removed := true }

section Frame
variable (h : Heap α) (e x : ℕ)

theorem next_eq_none_of_le {h : Heap α} {e : ℕ} (he : h.length ≤ e) : h.next e = none := by
  simp [next, List.getElem?_eq_none he]

theorem prev_eq_none_of_le {h : Heap α} {e : ℕ} (he : h.length ≤ e) : h.prev e = none := by
  simp [prev, List.getElem?_eq_none he]

@[simp] theorem length_setNext (n : Option ℕ) : (h.setNext e n).length = h.length := List.length_modify ..
@[simp] theorem length_setPrev (p : Option ℕ) : (h.setPrev e p).length = h.length := List.length_modify ..
@[simp] theorem length_setRemoved : (h.setRemoved e).length = h.length := List.length_modify ..

/-- A write to one field of an element leaves every other field of every element as it was. -/
theorem bind_modify {β : Type} (read : CElement α → Option β) (f : CElement α → CElement α)
    (hf : ∀ c, read (f c) = read c) : (h.modify e f)[x]?.bind read = h[x]?.bind read := by
  rw [List.getElem?_modify]
  cases h[x]? with
  | none => rfl
  | some c =>
    simp only [Option.map_eq_map, Option.map_some, Option.bind_some]
    split_ifs
    · exact hf c
    · rfl

theorem any_modify (read : CElement α → Bool) (f : CElement α → CElement α) (hf : ∀ c, read (f c) = read c) :
    (h.modify e f)[x]?.any read = h[x]?.any read := by
  rw [List.getElem?_modify]
  cases h[x]? with
  | none => rfl
  | some c =>
    simp only [Option.map_eq_map, Option.map_some, Option.any_some]
    split_ifs
    · exact hf c
    · rfl

@[simp] theorem prev_setNext (n : Option ℕ) : (h.setNext e n).prev x = h.prev x :=
  bind_modify h e x _ _ fun _ => rfl
@[simp] theorem removed_setNext (n : Option ℕ) : (h.setNext e n).removed x = h.removed x :=
  any_modify h e x _ _ fun _ => rfl
@[simp] theorem next_setPrev (p : Option ℕ) : (h.setPrev e p).next x = h.next x :=
  bind_modify h e x _ _ fun _ => rfl
@[simp] theorem removed_setPrev (p : Option ℕ) : (h.setPrev e p).removed x = h.removed x :=
  any_modify h e x _ _ fun _ => rfl
@[simp] theorem next_setRemoved : (h.setRemoved e).next x = h.next x :=
  bind_modify h e x _ _ fun _ => rfl
@[simp] theorem prev_setRemoved : (h.setRemoved e).prev x = h.prev x :=
  bind_modify h e x _ _ fun _ => rfl

variable {h e}

theorem next_setNext (he : e < h.length) (n : Option ℕ) :
    (h.setNext e n).next x = if x = e then n else h.next x := by
  split_ifs with hx
  · subst hx
    simp [next, setNext, he]
  · simp [next, setNext, Ne.symm hx]

theorem prev_setPrev (he : e < h.length) (p : Option ℕ) :
    (h.setPrev e p).prev x = if x = e then p else h.prev x := by
  split_ifs with hx
  · subst hx
    simp [prev, setPrev, he]
  · simp [prev, setPrev, Ne.symm hx]

theorem removed_setRemoved (he : e < h.length) :
    (h.setRemoved e).removed x = if x = e then true else h.removed x := by
  split_ifs with hx
  · subst hx
    simp [removed, setRemoved, he]
  · simp [removed, setRemoved, Ne.symm hx]

variable (c : CElement α)

@[simp] theorem next_append_self : Heap.next (h ++ [c]) h.length = c.next := by
  simp [next]
@[simp] theorem prev_append_self : Heap.prev (h ++ [c]) h.length = c.prev := by
  simp [prev]
@[simp] theorem removed_append_self : Heap.removed (h ++ [c]) h.length = c.removed := by
  simp [removed]

variable {x}

theorem next_append_of_lt (hx : x < h.length) : Heap.next (h ++ [c]) x = h.next x := by
  simp [next, List.getElem?_append_left hx]
theorem prev_append_of_lt (hx : x < h.length) : Heap.prev (h ++ [c]) x = h.prev x := by
  simp [prev, List.getElem?_append_left hx]
theorem removed_append_of_lt (hx : x < h.length) : Heap.removed (h ++ [c]) x = h.removed x := by
  simp [removed, List.getElem?_append_left hx]

end Frame

end Heap

structure CList (α : Type) where
  elems : Heap α
  head : Option ℕ
  tail : Option ℕ
  curLen : ℕ
  maxLen : ℕ
  deriving DecidableEq, Repr

namespace CList

variable {α : Type}

/-- `newWithMax`. -/
def newWithMax (maxLength : ℕ) : CList α :=
  { elems := [], head := none, tail := none, curLen := 0, maxLen := maxLength }

/-- `New`, with `MaxLength`, the largest `int`. -/
def new : CList α := newWithMax (2 ^ 63 - 1)

/-! ### The operations -/

/-- `PushBack`: the new element and the list with it at the end, or the panic at `maxLen` elements. -/
def pushBack (l : CList α) (v : α) : Option (CList α × ℕ) :=
  if l.maxLen ≤ l.curLen then none
  else
    let e := l.elems.length
    let elems : Heap α := l.elems ++ [{ prev := none, next := none, removed := false, value := v }]
    match l.tail with
    | none => some ({ l with elems, head := some e, tail := some e, curLen := l.curLen + 1 }, e)
    -- `e.SetPrev(l.tail)`, then `l.tail.SetNext(e)`
    | some t =>
      some ({ l with elems := (elems.setPrev e (some t)).setNext t (some e), tail := some e,
                     curLen := l.curLen + 1 }, e)

/-- The pointer updates of `Remove` once its checks have passed, for an element `e` between `prev` and
    `next`. -/
def unlink (l : CList α) (e : ℕ) (prev next : Option ℕ) : CList α :=
  let l := { l with curLen := l.curLen - 1 }
  let l := match prev with
    | none => { l with head := next }
    | some p => { l with elems := l.elems.setNext p next }
  let l := match next with
    | none => { l with tail := prev }
    | some n => { l with elems := l.elems.setPrev n prev }
  { l with elems := l.elems.setRemoved e }

/-- `Remove`: the list without `e` and `e`'s value, or one of its three panics. -/
def remove (l : CList α) (e : ℕ) : Option (CList α × α) :=
  match l.elems[e]? with
  | none => none
  | some x =>
    -- "Remove(e) on empty CList"
    if l.head = none ∨ l.tail = none then none
    -- "Remove(e) with false head"
    else if x.prev = none ∧ l.head ≠ some e then none
    -- "Remove(e) with false tail"
    else if x.next = none ∧ l.tail ≠ some e then none
    else some (l.unlink e x.prev x.next, x.value)

/-- `DetachPrev`, which panics on an element that is not removed. -/
def detachPrev (l : CList α) (e : ℕ) : Option (CList α) :=
  if l.elems.removed e then some { l with elems := l.elems.setPrev e none } else none

/-- What the mempool does to its list: `PushBack`, or `Remove` followed by `DetachPrev`. -/
inductive Op (α : Type)
  | pushBack (v : α)
  | remove (e : ℕ)
  deriving DecidableEq, Repr

def step (l : CList α) : Op α → Option (CList α)
  | .pushBack v => (l.pushBack v).map (·.1)
  | .remove e => (l.remove e).bind fun r => r.1.detachPrev e

def run (l : CList α) (ops : List (Op α)) : Option (CList α) := ops.foldlM step l

theorem run_nil (l : CList α) : l.run [] = some l := rfl

theorem run_cons (l : CList α) (op : Op α) (ops : List (Op α)) :
    l.run (op :: ops) = (l.step op).bind fun l' => l'.run ops := rfl

/-! ### What each operation does to the pointers -/

theorem pushBack_eq_some {l l' : CList α} {v : α} {e : ℕ} (htail : ∀ t ∈ l.tail, t < l.elems.length)
    (h : l.pushBack v = some (l', e)) :
    l.curLen < l.maxLen ∧ e = l.elems.length ∧ l'.elems.length = l.elems.length + 1 ∧
      l'.maxLen = l.maxLen ∧ l'.curLen = l.curLen + 1 ∧ l'.head = (if l.tail = none then some e else l.head) ∧ l'.tail = some e ∧
      l'.elems.next e = none ∧ l'.elems.prev e = l.tail ∧ l'.elems.removed e = false ∧
      (∀ x < l.elems.length, l'.elems.next x = if x ∈ l.tail then some e else l.elems.next x) ∧
      (∀ x < l.elems.length, l'.elems.prev x = l.elems.prev x ∧ l'.elems.removed x = l.elems.removed x) := by
  unfold pushBack at h
  split_ifs at h with hmax
  cases ht : l.tail with
  | none =>
    simp only [ht, Option.some.injEq, Prod.mk.injEq] at h
    obtain ⟨rfl, rfl⟩ := h
    refine ⟨by omega, rfl, by simp, rfl, rfl, by simp, rfl, by simp, by simp, by simp, ?_, ?_⟩
    · intro x hx
      simp [Heap.next_append_of_lt _ hx]
    · intro x hx
      simp [Heap.prev_append_of_lt _ hx, Heap.removed_append_of_lt _ hx]
  | some t =>
    simp only [ht, Option.some.injEq, Prod.mk.injEq] at h
    obtain ⟨rfl, rfl⟩ := h
    have hlt : t < l.elems.length := htail t ht
    set c : CElement α := { prev := none, next := none, removed := false, value := v }
    have hlt' : t < ((l.elems ++ [c]).setPrev l.elems.length (some t)).length := by
      simp only [Heap.length_setPrev, List.length_append, List.length_singleton]
      omega
    have hlen : l.elems.length < (l.elems ++ [c]).length := by simp
    refine ⟨by omega, rfl, by simp, rfl, rfl, by simp, rfl, ?_, ?_, ?_, ?_, ?_⟩
    · simp [Heap.next_setNext _ hlt', hlt.ne']
      rfl
    · simp [Heap.prev_setPrev _ hlen]
    · simp
      rfl
    · intro x hx
      simp [Heap.next_setNext _ hlt', Heap.next_append_of_lt _ hx, eq_comm]
    · intro x hx
      simp [Heap.prev_setPrev _ hlen, hx.ne, Heap.prev_append_of_lt _ hx, Heap.removed_append_of_lt _ hx]

section Unlink
variable (l : CList α) (e : ℕ) (prev next : Option ℕ)

@[simp] theorem unlink_length : (l.unlink e prev next).elems.length = l.elems.length := by
  unfold unlink
  cases prev <;> cases next <;> simp

@[simp] theorem unlink_curLen : (l.unlink e prev next).curLen = l.curLen - 1 := by
  unfold unlink
  cases prev <;> cases next <;> rfl

@[simp] theorem unlink_maxLen : (l.unlink e prev next).maxLen = l.maxLen := by
  unfold unlink
  cases prev <;> cases next <;> rfl

theorem unlink_head : (l.unlink e prev next).head = if prev = none then next else l.head := by
  unfold unlink
  cases prev <;> cases next <;> rfl

theorem unlink_tail : (l.unlink e prev next).tail = if next = none then prev else l.tail := by
  unfold unlink
  cases prev <;> cases next <;> rfl

variable {l e prev next}

theorem unlink_next (hp : ∀ p ∈ prev, p < l.elems.length) (x : ℕ) :
    (l.unlink e prev next).elems.next x = if x ∈ prev then next else l.elems.next x := by
  unfold unlink
  cases prev with
  | none => cases next <;> simp
  | some p => cases next <;> simp [Heap.next_setNext, hp p rfl, eq_comm]

theorem unlink_prev (hn : ∀ n ∈ next, n < l.elems.length) (x : ℕ) :
    (l.unlink e prev next).elems.prev x = if x ∈ next then prev else l.elems.prev x := by
  unfold unlink
  cases next with
  | none => cases prev <;> simp
  | some n => cases prev <;> simp [Heap.prev_setPrev, hn n rfl, eq_comm]

theorem unlink_removed (he : e < l.elems.length) (x : ℕ) :
    (l.unlink e prev next).elems.removed x = if x = e then true else l.elems.removed x := by
  unfold unlink
  cases prev <;> cases next <;> simp [Heap.removed_setRemoved, he]

end Unlink

theorem remove_eq_some {l l' : CList α} {e : ℕ} {v : α} (h : l.remove e = some (l', v)) :
    e < l.elems.length ∧ l.head ≠ none ∧ l.tail ≠ none ∧
      (l.elems.prev e = none → l.head = some e) ∧ (l.elems.next e = none → l.tail = some e) ∧
      l' = l.unlink e (l.elems.prev e) (l.elems.next e) := by
  unfold remove at h
  split at h
  · cases h
  · rename_i x hx
    have he : e < l.elems.length := by
      by_contra hle
      rw [List.getElem?_eq_none (Nat.le_of_not_lt hle)] at hx
      cases hx
    have hprev : l.elems.prev e = x.prev := by simp [Heap.prev, hx]
    have hnext : l.elems.next e = x.next := by simp [Heap.next, hx]
    split_ifs at h with hempty hhead htail
    simp only [Option.some.injEq, Prod.mk.injEq] at h
    obtain ⟨rfl, -⟩ := h
    refine ⟨he, fun h => hempty (.inl h), fun h => hempty (.inr h), ?_, ?_, by rw [hprev, hnext]⟩
    · intro hp
      by_contra hne
      exact hhead ⟨hprev ▸ hp, hne⟩
    · intro hn
      by_contra hne
      exact htail ⟨hnext ▸ hn, hne⟩

/-- `Remove` succeeds on an element whose missing neighbours are the list's ends. -/
theorem remove_eq_some_of {l : CList α} {e : ℕ} (he : e < l.elems.length) (hhead : l.head ≠ none)
    (htail : l.tail ≠ none) (hprev : l.elems.prev e = none → l.head = some e)
    (hnext : l.elems.next e = none → l.tail = some e) :
    ∃ v, l.remove e = some (l.unlink e (l.elems.prev e) (l.elems.next e), v) := by
  obtain ⟨x, hx⟩ : ∃ x, l.elems[e]? = some x := ⟨l.elems[e], List.getElem?_eq_getElem he⟩
  have hp : l.elems.prev e = x.prev := by simp [Heap.prev, hx]
  have hn : l.elems.next e = x.next := by simp [Heap.next, hx]
  refine ⟨x.value, ?_⟩
  unfold remove
  rw [hx]
  simp only
  rw [if_neg (by tauto), if_neg (fun h => h.2 (hprev (hp ▸ h.1))), if_neg (fun h => h.2 (hnext (hn ▸ h.1))),
    hp, hn]

theorem detachPrev_eq_some {l l' : CList α} {e : ℕ} (h : l.detachPrev e = some l') :
    l.elems.removed e = true ∧ l' = { l with elems := l.elems.setPrev e none } := by
  unfold detachPrev at h
  split_ifs at h with hr
  exact ⟨hr, (Option.some.inj h).symm⟩

end CList

end CometBFT
