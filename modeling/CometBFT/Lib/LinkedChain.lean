import Mathlib.Data.List.Chain
import Mathlib.Data.List.Nodup
import Mathlib.Logic.Relation

/-! Linked lists in a heap whose pointers are natural numbers.

    `after l x` is the node that follows `x` in a duplicate-free list `l`. A pointer function `next`
    links `l` when it gives each node of `l` its successor there (`Links`); the walk along `next` from
    the first node then lists `l` (`walk_of_links`). Appending a node and erasing one change the
    successors of at most one node (`after_append_singleton`, `after_erase`), and the successors in the
    reversed list are the predecessors (`after_reverse_eq_some`), so links in both directions are kept
    by updates of one or two pointers.

    When every pointer goes forward and jumps over no node of a set `live`, the walk from any node
    meets every later live node, unless it stops first at a node outside `live`
    (`reaches_or_stops`). -/

namespace LinkedChain

/-! ### The successor in a list -/

section After

variable {α : Type*} [DecidableEq α]

/-- The node after the first `x` in `l`. -/
def after : List α → α → Option α
  | [], _ => none
  | y :: l, x => if y = x then l.head? else after l x

variable {l : List α} {x y e : α}

@[simp] theorem after_nil : after [] x = none := rfl

@[simp] theorem after_cons_self : after (x :: l) x = l.head? := by
  simp [after]

theorem after_cons_of_ne (h : x ≠ y) : after (y :: l) x = after l x := by
  simp [after, Ne.symm h]

theorem mem_of_after_eq_some (h : after l x = some y) : x ∈ l ∧ y ∈ l := by
  induction l with
  | nil => cases h
  | cons z l ih =>
    by_cases hz : x = z
    · subst hz
      rw [after_cons_self] at h
      exact ⟨List.mem_cons_self, List.mem_cons_of_mem _ (List.mem_of_mem_head? h)⟩
    · rw [after_cons_of_ne hz] at h
      exact (ih h).imp (List.mem_cons_of_mem _) (List.mem_cons_of_mem _)

/-- The last node has no successor. -/
theorem after_getLast (hl : l.Nodup) (hx : x ∈ l.getLast?) : after l x = none := by
  induction l with
  | nil => cases hx
  | cons z l ih =>
    cases l with
    | nil =>
      obtain rfl : z = x := by simpa using hx
      simp
    | cons w l =>
      have hzx : x ≠ z := by
        rintro rfl
        exact (List.nodup_cons.mp hl).1 (List.mem_of_getLast? (by simpa [List.getLast?_cons_cons] using hx))
      rw [after_cons_of_ne hzx]
      exact ih hl.of_cons (by simpa [List.getLast?_cons_cons] using hx)

/-- A node appended at the end follows the old last node. -/
theorem after_append_singleton (hl : l.Nodup) (hx : x ∈ l) (n : α) :
    after (l ++ [n]) x = if l.getLast? = some x then some n else after l x := by
  induction l with
  | nil => cases hx
  | cons z l ih =>
    by_cases hz : x = z
    · subst hz
      have hnot : x ∉ l := (List.nodup_cons.mp hl).1
      cases l with
      | nil => simp
      | cons w l =>
        have hlast : (x :: w :: l).getLast? ≠ some x := by
          rw [List.getLast?_cons_cons]
          exact fun h => hnot (List.mem_of_getLast? h)
        rw [if_neg hlast, List.cons_append, after_cons_self, after_cons_self]
        rfl
    · have hx' : x ∈ l := (List.mem_cons.mp hx).resolve_left hz
      have hne : l ≠ [] := List.ne_nil_of_mem hx'
      rw [List.cons_append, after_cons_of_ne hz, after_cons_of_ne hz, ih hl.of_cons hx']
      obtain ⟨w, l', rfl⟩ := List.exists_cons_of_ne_nil hne
      rw [List.getLast?_cons_cons]

theorem after_append_singleton_self (hn : n ∉ l) : after (l ++ [n]) n = none := by
  induction l with
  | nil => simp
  | cons z l ih =>
    rw [List.mem_cons, not_or] at hn
    rw [List.cons_append, after_cons_of_ne hn.1, ih hn.2]

/-- Erasing `e` gives its predecessor `e`'s successor and leaves every other successor. -/
theorem after_erase (hl : l.Nodup) (hy : y ≠ e) :
    after (l.erase e) y = if after l y = some e then after l e else after l y := by
  induction l with
  | nil => simp
  | cons z l ih =>
    by_cases hze : z = e
    · subst hze
      rw [List.erase_cons_head, after_cons_of_ne hy, after_cons_self]
      -- `y` is not in front of `z`, so its successor cannot be `z`
      have hne : after l y ≠ some z := fun h => (List.nodup_cons.mp hl).1 (mem_of_after_eq_some h).2
      simp [hne]
    · have herase : (z :: l).erase e = z :: l.erase e := by simp [hze]
      rw [herase]
      by_cases hyz : y = z
      · subst hyz
        rw [after_cons_self, after_cons_self, after_cons_of_ne (Ne.symm hze)]
        cases l with
        | nil => simp
        | cons w l =>
          by_cases hwe : w = e
          · subst hwe
            simp [List.erase_cons_head]
          · simp [hwe]
      · rw [after_cons_of_ne hyz, after_cons_of_ne hyz, after_cons_of_ne (Ne.symm hze), ih hl.of_cons]

/-- In a duplicate-free list, `y` follows `x` exactly where the two stand side by side. -/
theorem after_eq_some_iff (hl : l.Nodup) : after l x = some y ↔ ∃ A B, l = A ++ x :: y :: B := by
  constructor
  · intro h
    induction l with
    | nil => cases h
    | cons z l ih =>
      by_cases hz : x = z
      · subst hz
        rw [after_cons_self] at h
        obtain ⟨B, rfl⟩ : ∃ B, l = y :: B := by
          cases l with
          | nil => cases h
          | cons w B => exact ⟨B, by simpa using h⟩
        exact ⟨[], B, rfl⟩
      · rw [after_cons_of_ne hz] at h
        obtain ⟨A, B, rfl⟩ := ih hl.of_cons h
        exact ⟨z :: A, B, rfl⟩
  · rintro ⟨A, B, rfl⟩
    induction A with
    | nil => simp
    | cons z A ih =>
      -- `x` stands later in the list, so it is not `z`
      have hxz : x ≠ z := by
        rintro rfl
        exact (List.nodup_cons.mp hl).1 (by simp)
      rw [List.cons_append, after_cons_of_ne hxz, ih hl.of_cons]

theorem after_reverse_of_after (hl : l.Nodup) (h : after l y = some x) : after l.reverse x = some y := by
  obtain ⟨A, B, rfl⟩ := (after_eq_some_iff hl).mp h
  exact (after_eq_some_iff (List.nodup_reverse.mpr hl)).mpr ⟨B.reverse, A.reverse, by simp⟩

/-- In a duplicate-free list, the successor of `x` in the reversed list is its predecessor. -/
theorem after_reverse_eq_some (hl : l.Nodup) : after l.reverse x = some y ↔ after l y = some x := by
  constructor
  · intro h
    simpa using after_reverse_of_after (List.nodup_reverse.mpr hl) h
  · exact after_reverse_of_after hl

/-- Only the last node of a duplicate-free list has no successor. -/
theorem after_eq_none_iff (hl : l.Nodup) (hx : x ∈ l) : after l x = none ↔ l.getLast? = some x := by
  constructor
  · intro h
    obtain ⟨A, B, rfl⟩ := List.append_of_mem hx
    cases B with
    | nil => simp
    | cons y B =>
      rw [(after_eq_some_iff hl).mpr ⟨A, B, rfl⟩] at h
      cases h
  · exact fun h => after_getLast hl h

theorem reverse_erase (hl : l.Nodup) (e : α) : (l.erase e).reverse = l.reverse.erase e := by
  rw [hl.erase_eq_filter, (List.nodup_reverse.mpr hl).erase_eq_filter, List.filter_reverse]

/-- Erasing the first node makes its successor first. -/
theorem head?_erase (hl : l.Nodup) (he : e ∈ l) :
    (l.erase e).head? = if after l.reverse e = none then after l e else l.head? := by
  obtain ⟨A, B, rfl⟩ := List.append_of_mem he
  have heA : e ∉ A := fun h => (List.nodup_append.mp hl).2.2 e h e List.mem_cons_self rfl
  rw [List.erase_append_right _ heA, List.erase_cons_head]
  cases A with
  | nil =>
    have heB : e ∉ B.reverse := by simpa using (List.nodup_cons.mp hl).1
    simp only [List.nil_append, List.reverse_cons]
    rw [after_append_singleton_self heB, if_pos rfl, after_cons_self]
  | cons a A =>
    -- `e` is not first, so something stands before it
    have hrev : after (a :: A ++ e :: B).reverse e ≠ none := by
      rw [Ne, after_eq_none_iff (List.nodup_reverse.mpr hl) (by simp), List.getLast?_reverse]
      simp only [List.cons_append, List.head?_cons, Option.some.injEq]
      rintro rfl
      exact heA List.mem_cons_self
    rw [if_neg hrev]
    simp

/-- Erasing the last node makes its predecessor last. -/
theorem getLast?_erase (hl : l.Nodup) (he : e ∈ l) :
    (l.erase e).getLast? = if after l e = none then after l.reverse e else l.getLast? := by
  have h := head?_erase (List.nodup_reverse.mpr hl) (List.mem_reverse.mpr he)
  rwa [← reverse_erase hl, List.head?_reverse, List.reverse_reverse, List.head?_reverse] at h

end After

/-! ### Sorted lists -/

/-- Every node of a strictly increasing list is at most its last. -/
theorem le_of_getLast? {l : List ℕ} {x z : ℕ} (hs : l.Pairwise (· < ·)) (hx : l.getLast? = some x)
    (hz : z ∈ l) : z ≤ x := by
  obtain ⟨A, rfl⟩ := List.getLast?_eq_some_iff.mp hx
  rcases List.mem_append.mp hz with hzA | hzx
  · exact le_of_lt ((List.pairwise_append.mp hs).2.2 z hzA x (by simp))
  · simp at hzx
    omega

/-! ### Walking a linked list -/

variable (next : ℕ → Option ℕ)

/-- The nodes met by following `next` from `start`, at most `fuel` of them. -/
def walk : ℕ → Option ℕ → List ℕ
  | 0, _ => []
  | _ + 1, none => []
  | fuel + 1, some x => x :: walk fuel (next x)

/-- One step along `next`. -/
def Step (x y : ℕ) : Prop := next x = some y

/-- `next` gives each node of `l` its successor in `l`. -/
def Links (l : List ℕ) : Prop := ∀ x ∈ l, next x = after l x

@[simp]
theorem walk_none (fuel : ℕ) : walk next fuel none = [] := by
  cases fuel <;> rfl

variable {next}

/-- Enough fuel walks a linked list from its first node to its end. -/
theorem walk_of_links {l : List ℕ} (hl : l.Nodup) (h : Links next l) {fuel : ℕ} (hfuel : l.length ≤ fuel) :
    walk next fuel l.head? = l := by
  induction l generalizing fuel with
  | nil => exact walk_none next fuel
  | cons x l ih =>
    obtain ⟨fuel, rfl⟩ : ∃ f, fuel = f + 1 := ⟨fuel - 1, by simp at hfuel; omega⟩
    have hx : next x = l.head? := by rw [h x List.mem_cons_self, after_cons_self]
    -- the links of the tail are those of the list, as `x` is not in it
    have hrest : Links next l := fun y hy => by
      have hyx : y ≠ x := fun hyx => (List.nodup_cons.mp hl).1 (hyx ▸ hy)
      rw [h y (List.mem_cons_of_mem _ hy), after_cons_of_ne hyx]
    rw [List.head?_cons, walk, hx, ih hl.of_cons hrest (by simpa using hfuel)]

section Forward

variable {live : ℕ → Prop}

/-- Every pointer goes forward and jumps over no node of `live`. -/
def Forward (next : ℕ → Option ℕ) (live : ℕ → Prop) : Prop :=
  ∀ x y, next x = some y → x < y ∧ ∀ z, live z → ¬(x < z ∧ z < y)

/-- The walk from `e` meets every live node `f` at or after it, or stops before `f` at a node outside
    `live`: a live node without successor is the last live node. -/
theorem reaches_or_stops (hfwd : Forward next live)
    (hend : ∀ x, live x → next x = none → ∀ z, live z → z ≤ x) {e f : ℕ} (hef : e ≤ f) (hf : live f) :
    Relation.ReflTransGen (Step next) e f ∨
      ∃ x, Relation.ReflTransGen (Step next) e x ∧ x < f ∧ next x = none ∧ ¬live x := by
  -- induction on the distance from `e` to `f`, which each step shortens
  induction hd : f - e using Nat.strong_induction_on generalizing e with
  | _ d ih =>
    rcases Nat.eq_or_lt_of_le hef with rfl | hlt
    · exact .inl .refl
    cases hnext : next e with
    | none =>
      by_cases hlive : live e
      · exact absurd (hend e hlive hnext f hf) (by omega)
      · exact .inr ⟨e, .refl, hlt, hnext, hlive⟩
    | some y =>
      obtain ⟨hey, hskip⟩ := hfwd e y hnext
      have hyf : y ≤ f := by
        by_contra hfy
        exact hskip f hf ⟨hlt, by omega⟩
      have hstep : Step next e y := hnext
      rcases ih (f - y) (by omega) hyf rfl with hreach | ⟨x, hreach, hx⟩
      · exact .inl (.head hstep hreach)
      · exact .inr ⟨x, .head hstep hreach, hx⟩

/-- A walk that starts in a set closed under steps stays in it. -/
theorem mem_of_reaches {S : ℕ → Prop} (hS : ∀ x y, S x → Step next x y → S y) {e f : ℕ} (he : S e)
    (h : Relation.ReflTransGen (Step next) e f) : S f := by
  induction h with
  | refl => exact he
  | tail _ hstep ih => exact hS _ _ ih hstep

end Forward

end LinkedChain
