import Mathlib

/-! Lists of records sorted by a key under a lawful three-way `compare`. A list sorted by `≤` on keys whose
    keys are distinct is sorted by `<`; two such lists that are permutations of each other are equal, so
    any sort of a list with distinct keys gives one result. -/

namespace SortedKeys

open Std

variable {α κ : Type} (key : α → κ)

section Filter

variable [BEq κ] [LawfulBEq κ] {key}

/-- Dropping from `l` the keys of `u :: U` drops no more than those of `U` when no element of `l` has
    `u`'s key. -/
theorem filter_not_mem_cons {l U : List α} {u : α} (h : ∀ x ∈ l, key x ≠ key u) :
    l.filter (fun x => key x ∉ (u :: U).map key) = l.filter (fun x => key x ∉ U.map key) :=
  List.filter_congr fun x hx => by simp [h x hx]

end Filter

variable [Ord κ]

/-- `a`'s key is at most `b`'s. -/
def KeyLE (a b : α) : Prop := compare (key a) (key b) ≠ .gt

/-- `a`'s key is below `b`'s. -/
def KeyLT (a b : α) : Prop := compare (key a) (key b) = .lt

section Lawful

variable [LawfulEqCmp (compare : κ → κ → Ordering)] {key}

theorem KeyLT.ne {a b : α} (h : KeyLT key a b) : key a ≠ key b := fun he => by
  have hself : compare (key b) (key b) = .eq := LawfulEqCmp.compare_eq_iff_eq.mpr rfl
  unfold KeyLT at h
  rw [he, hself] at h
  cases h

theorem KeyLE.lt_of_ne {a b : α} (h : KeyLE key a b) (hne : key a ≠ key b) : KeyLT key a b := by
  unfold KeyLE at h
  unfold KeyLT
  cases hc : compare (key a) (key b)
  · rfl
  · exact absurd (LawfulEqCmp.compare_eq_iff_eq.mp hc) hne
  · exact absurd hc h

/-- A list sorted by `≤` on keys whose keys are distinct is sorted by `<`. -/
theorem pairwise_lt_of_le {l : List α} (h : l.Pairwise (KeyLE key)) (hn : (l.map key).Nodup) :
    l.Pairwise (KeyLT key) :=
  (h.and (List.pairwise_map.mp hn)).imp fun hab => hab.1.lt_of_ne hab.2

theorem nodup_of_pairwise_lt {l : List α} (h : l.Pairwise (KeyLT key)) : (l.map key).Nodup :=
  List.pairwise_map.mpr (h.imp KeyLT.ne)

theorem key_not_mem_of_lt {a : α} {l : List α} (h : ∀ x ∈ l, KeyLT key a x) : key a ∉ l.map key := by
  simp only [List.mem_map, not_exists, not_and]
  exact fun x hx he => (h x hx).ne he.symm

end Lawful

/-! ### Merging with override -/

section Merge

variable [BEq κ] [LawfulBEq κ]

/-- `M` merges `U` into `E`: sorted by `<` on keys, it holds `U` and the elements of `E` at the keys that
    `U` does not hold. -/
def IsMerge (E U M : List α) : Prop :=
  M.Pairwise (KeyLT key) ∧ M.Perm (E.filter (fun e => key e ∉ U.map key) ++ U)

variable {key}

theorem IsMerge.mem {E U M : List α} (h : IsMerge key E U M) {x : α} (hx : x ∈ M) : x ∈ E ∨ x ∈ U := by
  rcases List.mem_append.mp (h.2.subset hx) with hx | hx
  · exact .inl (List.mem_filter.mp hx).1
  · exact .inr hx

theorem isMerge_nil_left {U : List α} (hU : U.Pairwise (KeyLT key)) : IsMerge key [] U U :=
  ⟨hU, by simp⟩

theorem isMerge_nil_right {E : List α} (hE : E.Pairwise (KeyLT key)) : IsMerge key E [] E :=
  ⟨hE, by simp⟩

variable [LawfulEqCmp (compare : κ → κ → Ordering)]

/-- Equal least keys: the element of `U` leads the merge in place of the one of `E`. -/
theorem IsMerge.cons_eq {e u : α} {E U M : List α} (h : IsMerge key E U M) (heq : key e = key u)
    (he : ∀ x ∈ E, KeyLT key e x) (hu : ∀ x ∈ U, KeyLT key u x) :
    IsMerge key (e :: E) (u :: U) (u :: M) := by
  refine ⟨List.pairwise_cons.mpr ⟨fun x hx => ?_, h.1⟩, ?_⟩
  · rcases h.mem hx with hx | hx
    · have := he x hx
      unfold KeyLT at this ⊢
      rwa [← heq]
    · exact hu x hx
  · have hE : ∀ x ∈ E, key x ≠ key u := fun x hx => heq ▸ (he x hx).ne.symm
    rw [List.filter_cons_of_neg (by simp [heq]), filter_not_mem_cons hE]
    exact (h.2.cons u).trans List.perm_middle.symm

end Merge

section Trans

variable [TransCmp (compare : κ → κ → Ordering)]

instance : Std.Total (KeyLE key) where
  total a b := by
    by_cases h : compare (key a) (key b) = .gt
    · exact Or.inr fun h' => OrientedCmp.not_lt_of_lt (OrientedCmp.gt_iff_lt.mp h) (OrientedCmp.gt_iff_lt.mp h')
    · exact Or.inl h

instance : IsTrans α (KeyLE key) := ⟨fun _ _ _ => TransCmp.le_trans⟩

instance : IsTrans α (KeyLT key) := ⟨fun _ _ _ => TransCmp.lt_trans⟩

instance : Trans (KeyLT key) (KeyLT key) (KeyLT key) := ⟨TransCmp.lt_trans⟩

variable {key} in
theorem KeyLT.trans {a b c : α} (h₁ : KeyLT key a b) (h₂ : KeyLT key b c) : KeyLT key a c :=
  TransCmp.lt_trans h₁ h₂

variable [LawfulEqCmp (compare : κ → κ → Ordering)] {key}

theorem KeyLE.antisymm {a b : α} (h₁ : KeyLE key a b) (h₂ : KeyLE key b a) : key a = key b := by
  by_contra hne
  exact OrientedCmp.not_lt_of_lt (h₁.lt_of_ne hne) (h₂.lt_of_ne (Ne.symm hne))

/-- Two lists with distinct keys, each sorted by `≤` on keys, that are permutations of each other are equal. -/
theorem eq_of_perm {l₁ l₂ : List α} (h₁ : l₁.Pairwise (KeyLE key)) (h₂ : l₂.Pairwise (KeyLE key))
    (hn : (l₁.map key).Nodup) (hp : l₁.Perm l₂) : l₁ = l₂ :=
  hp.eq_of_pairwise (fun _ _ ha hb hab hba => List.inj_on_of_nodup_map hn ha (hp.symm.subset hb) (hab.antisymm hba))
    h₁ h₂

/-- In a list sorted by `≤` on keys, neighbours with distinct keys make all keys distinct. -/
theorem isChain_ne_iff {l : List α} (h : l.Pairwise (KeyLE key)) :
    List.IsChain (fun a b => key a ≠ key b) l ↔ (l.map key).Nodup := by
  constructor
  · intro hc
    -- neighbours are `≤` by the sort and distinct by the chain, so `<`
    have hlt : List.IsChain (KeyLT key) l := by
      induction hc with
      | nil => exact .nil
      | singleton a => exact .singleton a
      | cons_cons hab _ ih =>
        exact .cons_cons ((List.rel_of_pairwise_cons h List.mem_cons_self).lt_of_ne hab) (ih h.of_cons)
    exact nodup_of_pairwise_lt (List.isChain_iff_pairwise.mp hlt)
  · intro hn
    exact (pairwise_lt_of_le h hn).isChain.imp fun _ _ hab => hab.ne

theorem KeyLT.of_not_lt {a b : α} (hlt : ¬KeyLT key a b) (hne : key a ≠ key b) : KeyLT key b a := by
  unfold KeyLT at hlt ⊢
  cases hc : compare (key a) (key b)
  · exact absurd hc hlt
  · exact absurd (LawfulEqCmp.compare_eq_iff_eq.mp hc) hne
  · exact OrientedCmp.gt_iff_lt.mp hc

section MergeOrder

variable [BEq κ] [LawfulBEq κ]

/-- The least element comes from `E`: it leads the merge, and `U` does not hold its key. -/
theorem IsMerge.cons_left {e u : α} {E U M : List α} (h : IsMerge key E (u :: U) M)
    (he : ∀ x ∈ E, KeyLT key e x) (heu : KeyLT key e u) (hu : ∀ x ∈ U, KeyLT key u x) :
    IsMerge key (e :: E) (u :: U) (e :: M) := by
  have heU : key e ∉ (u :: U).map key := key_not_mem_of_lt fun x hx => by
    rcases List.mem_cons.mp hx with rfl | hx
    · exact heu
    · exact heu.trans (hu x hx)
  refine ⟨List.pairwise_cons.mpr ⟨fun x hx => ?_, h.1⟩, ?_⟩
  · rcases h.mem hx with hx | hx
    · exact he x hx
    · rcases List.mem_cons.mp hx with rfl | hx
      · exact heu
      · exact heu.trans (hu x hx)
  · rw [List.filter_cons_of_pos (by simpa using heU)]
    exact h.2.cons e

/-- The least element comes from `U`: it leads the merge. -/
theorem IsMerge.cons_right {e u : α} {E U M : List α} (h : IsMerge key (e :: E) U M)
    (he : ∀ x ∈ E, KeyLT key e x) (hue : KeyLT key u e) (hu : ∀ x ∈ U, KeyLT key u x) :
    IsMerge key (e :: E) (u :: U) (u :: M) := by
  have hlt : ∀ x ∈ e :: E, KeyLT key u x := fun x hx => by
    rcases List.mem_cons.mp hx with rfl | hx
    · exact hue
    · exact hue.trans (he x hx)
  refine ⟨List.pairwise_cons.mpr ⟨fun x hx => ?_, h.1⟩, ?_⟩
  · rcases h.mem hx with hx | hx
    · exact hlt x hx
    · exact hu x hx
  · rw [filter_not_mem_cons fun x hx => (hlt x hx).ne.symm]
    exact (h.2.cons u).trans List.perm_middle.symm

end MergeOrder

end Trans

end SortedKeys
