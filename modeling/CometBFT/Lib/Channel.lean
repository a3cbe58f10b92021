import Mathlib

/-! A buffered channel with several senders. Each sender sends its values in order; the channel delivers
    them in the order in which the scheduler lets the sends happen. A schedule names, step by step, the
    sender whose next value goes in; a step naming a sender with nothing left to send does nothing. Every
    value delivered comes after the values its sender sent before it. -/

namespace Channel

variable {α : Type}

/-- The values the channel delivers when the senders, with the values `ls` still to send, send in the
    order `sched`. -/
def deliver : List Nat → List (List α) → List α
  | [], _ => []
  | i :: sched, ls =>
    match ls[i]? with
    | some (a :: l) => a :: deliver sched (ls.set i l)
    | _ => deliver sched ls

/-- A value delivered after `D₁` was sent by a sender after values that all are in `D₁`. -/
theorem deliver_eq_append_cons {sched : List Nat} {ls : List (List α)} {D₁ D₂ : List α} {a : α}
    (h : deliver sched ls = D₁ ++ a :: D₂) : ∃ l ∈ ls, ∃ pre suf, l = pre ++ a :: suf ∧ ∀ b ∈ pre, b ∈ D₁ := by
  induction sched generalizing ls D₁ with
  | nil => cases D₁ <;> cases h
  | cons i sched ih =>
    unfold deliver at h
    split at h
    · rename_i b l hi
      have hmem : b :: l ∈ ls := List.mem_of_getElem? hi
      cases D₁ with
      | nil =>
        -- the value just sent is the one delivered
        obtain ⟨rfl, -⟩ := List.cons.inj h
        exact ⟨_, hmem, [], l, rfl, fun _ hb => by cases hb⟩
      | cons c D₁ =>
        obtain ⟨rfl, ht⟩ := List.cons.inj h
        obtain ⟨l', hl', pre, suf, rfl, hpre⟩ := ih ht
        rcases List.mem_or_eq_of_mem_set hl' with hl' | hl'
        · exact ⟨_, hl', pre, suf, rfl, fun x hx => List.mem_cons_of_mem _ (hpre x hx)⟩
        · -- it comes from the sender that just sent `b`
          subst hl'
          refine ⟨_, hmem, b :: pre, suf, rfl, fun x hx => ?_⟩
          rcases List.mem_cons.mp hx with rfl | hx
          · exact List.mem_cons_self
          · exact List.mem_cons_of_mem _ (hpre x hx)
    · exact ih h

/-- Every value delivered was sent by some sender. -/
theorem mem_deliver {sched : List Nat} {ls : List (List α)} {a : α} (h : a ∈ deliver sched ls) :
    ∃ l ∈ ls, a ∈ l := by
  obtain ⟨D₁, D₂, hD⟩ := List.append_of_mem h
  obtain ⟨l, hl, pre, suf, rfl, -⟩ := deliver_eq_append_cons hD
  exact ⟨_, hl, List.mem_append_right _ List.mem_cons_self⟩

end Channel
