import Mathlib.Data.List.Basic

/-! Reassembling messages from fragments. A fragment is its data with a flag that marks the last
    fragment of a message; a receiver appends the data of each fragment to what it holds and passes the
    message on at the marked one. `collect acc fs` gives the messages the fragments `fs` complete, after
    `acc` already held, and what is held at the end. -/

namespace Reassembly

variable {α : Type}

/-- The messages that the fragments complete, from `acc` held, and what is held after them. -/
def collect (acc : List α) : List (Bool × List α) → List (List α) × List α
  | [] => ([], acc)
  | (last, d) :: fs =>
    if last then ((acc ++ d) :: (collect [] fs).1, (collect [] fs).2) else collect (acc ++ d) fs

@[simp] theorem collect_nil (acc : List α) : collect acc [] = ([], acc) := rfl

@[simp] theorem collect_cons_last (acc d : List α) (fs : List (Bool × List α)) :
    collect acc ((true, d) :: fs) = ((acc ++ d) :: (collect [] fs).1, (collect [] fs).2) := rfl

@[simp] theorem collect_cons_more (acc d : List α) (fs : List (Bool × List α)) :
    collect acc ((false, d) :: fs) = collect (acc ++ d) fs := rfl

/-- A last fragment sent after the others completes the message held after them. -/
theorem collect_append_last (acc d : List α) (fs : List (Bool × List α)) :
    collect acc (fs ++ [(true, d)]) = ((collect acc fs).1 ++ [(collect acc fs).2 ++ d], []) := by
  induction fs generalizing acc with
  | nil => simp
  | cons f fs ih =>
    obtain ⟨last, d'⟩ := f
    cases last with
    | true => simp [ih]
    | false => simp [ih]

/-- Any other fragment sent after the others adds its data to what is held. -/
theorem collect_append_more (acc d : List α) (fs : List (Bool × List α)) :
    collect acc (fs ++ [(false, d)]) = ((collect acc fs).1, (collect acc fs).2 ++ d) := by
  induction fs generalizing acc with
  | nil => simp
  | cons f fs ih =>
    obtain ⟨last, d'⟩ := f
    cases last with
    | true => simp [ih]
    | false => simp [ih]

/-- What is held is the start of the next message, complete or not, so it is never longer. -/
theorem exists_prefix_collect (acc : List α) (fs : List (Bool × List α)) :
    ∃ m ∈ (collect acc fs).1 ++ [(collect acc fs).2], acc <+: m := by
  induction fs generalizing acc with
  | nil => exact ⟨acc, by simp, List.prefix_refl acc⟩
  | cons f fs ih =>
    obtain ⟨last, d⟩ := f
    cases last with
    | true => exact ⟨acc ++ d, by simp, List.prefix_append acc d⟩
    | false =>
      obtain ⟨m, hm, hp⟩ := ih (acc ++ d)
      exact ⟨m, hm, (List.prefix_append acc d).trans hp⟩

/-- The data of the next fragment fits in the message it belongs to. -/
theorem length_le_of_collect {acc d : List α} {last : Bool} {fs : List (Bool × List α)} {cap : ℕ}
    (hcap : ∀ m ∈ (collect acc ((last, d) :: fs)).1 ++ [(collect acc ((last, d) :: fs)).2], m.length ≤ cap) :
    acc.length + d.length ≤ cap := by
  -- `acc ++ d` is what is held after that fragment, the start of the message it completes or continues.
  have hstart : ∃ m ∈ (collect acc ((last, d) :: fs)).1 ++ [(collect acc ((last, d) :: fs)).2],
      acc ++ d <+: m := by
    cases last with
    | true => exact ⟨acc ++ d, by simp, List.prefix_refl _⟩
    | false => exact exists_prefix_collect (acc ++ d) fs
  obtain ⟨m, hm, hp⟩ := hstart
  calc acc.length + d.length = (acc ++ d).length := (List.length_append ..).symm
    _ ≤ m.length := hp.length_le
    _ ≤ cap := hcap m hm

end Reassembly
