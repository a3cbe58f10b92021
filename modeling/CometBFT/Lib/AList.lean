import Mathlib.Data.List.AList

/-! Finite maps as association lists, for code that keeps a Go map: how `insert` and `erase` change the
    number of keys and a count over the entries, and a map over the values that keeps the keys. -/

namespace AList

variable {α : Type*} {β : α → Type*}

section MapVal
variable {γ : α → Type*}

/-- The map with the same keys whose value at `a` is `f a b` for the value `b` it had. -/
def mapVal (f : (a : α) → β a → γ a) (s : AList β) : AList γ :=
  ⟨s.entries.map fun e => ⟨e.1, f e.1 e.2⟩, by
    simpa [List.NodupKeys, List.keys, Function.comp_def] using s.nodupKeys⟩

variable (f : (a : α) → β a → γ a) (s : AList β)

@[simp]
theorem keys_mapVal : (s.mapVal f).keys = s.keys := by
  simp [mapVal, keys, List.keys, Function.comp_def]

@[simp]
theorem mem_mapVal {a : α} : a ∈ s.mapVal f ↔ a ∈ s := by
  simp only [mem_keys, keys_mapVal]

@[simp]
theorem mapVal_id : s.mapVal (fun _ b => b) = s :=
  ext (by simp [mapVal])

theorem mapVal_mapVal {δ : α → Type*} (g : (a : α) → γ a → δ a) :
    (s.mapVal f).mapVal g = s.mapVal fun a b => g a (f a b) :=
  ext (by simp [mapVal, Function.comp_def])

theorem countP_mapVal (p : Sigma γ → Bool) :
    (s.mapVal f).entries.countP p = s.entries.countP fun e => p ⟨e.1, f e.1 e.2⟩ := by
  simp only [mapVal, List.countP_map, Function.comp_def]

theorem dlookup_map [DecidableEq α] (a : α) (l : List (Sigma β)) :
    (l.map fun e => (⟨e.1, f e.1 e.2⟩ : Sigma γ)).dlookup a = (l.dlookup a).map (f a) := by
  induction l with
  | nil => rfl
  | cons e l ih =>
    obtain ⟨a', b'⟩ := e
    by_cases ha : a = a'
    · subst ha
      simp only [List.map_cons, List.dlookup_cons_eq, Option.map_some]
    · rw [List.map_cons, List.dlookup_cons_ne _ _ ha, List.dlookup_cons_ne _ _ ha, ih]

@[simp]
theorem lookup_mapVal [DecidableEq α] (a : α) : (s.mapVal f).lookup a = (s.lookup a).map (f a) :=
  dlookup_map f a s.entries

end MapVal

variable [DecidableEq α]

theorem erase_of_notMem {a : α} {s : AList β} (h : a ∉ s) : s.erase a = s :=
  ext (List.kerase_of_notMem_keys h)

theorem length_keys_insert_of_mem {a : α} {b : β a} {s : AList β} (h : a ∈ s) :
    (s.insert a b).keys.length = s.keys.length := by
  have hpos := List.length_pos_of_mem (mem_keys.mp h)
  rw [keys_insert, List.length_cons, List.length_erase_of_mem (mem_keys.mp h)]
  omega

theorem length_keys_insert_of_notMem {a : α} {b : β a} {s : AList β} (h : a ∉ s) :
    (s.insert a b).keys.length = s.keys.length + 1 := by
  rw [keys_insert, List.length_cons, List.erase_of_not_mem (mt mem_keys.mpr h)]

theorem length_keys_erase_of_mem {a : α} {s : AList β} (h : a ∈ s) :
    (s.erase a).keys.length + 1 = s.keys.length := by
  have hpos := List.length_pos_of_mem (mem_keys.mp h)
  rw [keys_erase, List.length_erase_of_mem (mem_keys.mp h)]
  omega

section Count
variable (p : Sigma β → Bool)

theorem countP_insert (a : α) (b : β a) (s : AList β) :
    (s.insert a b).entries.countP p = (s.erase a).entries.countP p + if p ⟨a, b⟩ then 1 else 0 := by
  rw [entries_insert, List.countP_cons]
  rfl

/-- Erasing a key takes its entry out of every count. -/
theorem countP_erase_of_lookup {a : α} {b : β a} {s : AList β} (h : s.lookup a = some b) :
    (s.erase a).entries.countP p + (if p ⟨a, b⟩ then 1 else 0) = s.entries.countP p := by
  have hmem : Sigma.mk a b ∈ s.entries := mem_lookup_iff.mp h
  obtain ⟨b', l₁, l₂, -, hl, herase⟩ := List.exists_of_kerase (List.mem_keys_of_mem hmem)
  have hb : b = b' := s.nodupKeys.eq_of_mk_mem hmem (hl ▸ List.mem_append_right _ List.mem_cons_self)
  subst hb
  change (s.entries.kerase a).countP p + _ = _
  rw [herase, hl, List.countP_append, List.countP_append, List.countP_cons]
  dsimp only
  omega

theorem countP_insert_of_notMem {a : α} {b : β a} {s : AList β} (h : a ∉ s) :
    (s.insert a b).entries.countP p = s.entries.countP p + if p ⟨a, b⟩ then 1 else 0 := by
  rw [countP_insert, erase_of_notMem h]

end Count

end AList
