import Mathlib

/-! Prefix codes over lists, for encodings built of fields. A code is prefix-free on a set of values
    when the word of such a value, followed by anything, is not another word followed by something
    else, unless the two words are the same: the reader of a concatenation knows where the word ends.
    Fixed-length words are prefix-free, and so are words that carry their length in front. A message is
    a run of fields, each a tag letter and a word, left out when absent; equal messages then have equal
    fields, field by field, as long as no field is followed by its own tag. -/

namespace PrefixCode

variable {α β : Type}

/-- The words of `e` for the values in `s` are a prefix code among all the words of `e`. -/
def PrefixFreeOn (s : Set α) (e : α → List β) : Prop :=
  ∀ a ∈ s, ∀ b x y, e a ++ x = e b ++ y → e a = e b ∧ x = y

theorem prefixFreeOn_of_length {s : Set α} {e : α → List β} (h : ∀ a b, (e a).length = (e b).length) :
    PrefixFreeOn s e :=
  fun a _ b _ _ hab => List.append_inj hab (h a b)

theorem PrefixFreeOn.comp {γ : Type} {s : Set α} {e : α → List β} (he : PrefixFreeOn s e) (f : γ → α) :
    PrefixFreeOn {c | f c ∈ s} (e ∘ f) :=
  fun a ha b x y h => he (f a) ha (f b) x y h

/-! ### Words with their length in front -/

/-- A word preceded by the word of its length. -/
def lenPrefixed (ev : Nat → List β) (v : List β) : List β := ev v.length ++ v

section
variable {ev : Nat → List β}

/-- A length code that is prefix-free makes every length-prefixed word determine its content. -/
theorem lenPrefixed_injective (hev : PrefixFreeOn Set.univ ev) : Function.Injective (lenPrefixed ev) := by
  intro u w h
  exact (hev _ trivial _ u w h).2

/-- Length-prefixed words are prefix-free where the length code is one-to-one. -/
theorem prefixFreeOn_lenPrefixed {s : Set Nat} (hev : PrefixFreeOn Set.univ ev)
    (hinj : ∀ n ∈ s, ∀ m, ev n = ev m → n = m) : PrefixFreeOn {v | v.length ∈ s} (lenPrefixed ev) := by
  intro u hu w x y h
  simp only [lenPrefixed, List.append_assoc] at h
  obtain ⟨hlen, hrest⟩ := hev _ trivial _ _ _ h
  have hl : u.length = w.length := hinj _ hu _ hlen
  obtain ⟨rfl, rfl⟩ := List.append_inj hrest hl
  exact ⟨rfl, rfl⟩

end

/-! ### Fields -/

/-- A field of a message: its tag and the word of its value, or nothing when it is absent. -/
def field (t : β) (e : α → List β) : Option α → List β
  | none => []
  | some a => t :: e a

/-- A proto3 scalar is present when it is not its default value. -/
def nonDefault [DecidableEq α] (z a : α) : Option α := if a = z then none else some a

section
variable {t t' : β} {e : α → List β} {o o' : Option α} {x y : List β}

@[simp] theorem field_none : field t e none = [] := rfl

@[simp] theorem field_some (a : α) : field t e (some a) = t :: e a := rfl

theorem field_comp {γ : Type} (f : γ → α) (o : Option γ) : field t (e ∘ f) o = field t e (o.map f) := by
  cases o <;> rfl

theorem nonDefault_injective [DecidableEq α] (z : α) : Function.Injective (nonDefault z) := by
  intro a b h
  unfold nonDefault at h
  split_ifs at h with ha hb hb
  · rw [ha, hb]
  all_goals cases h
  rfl

theorem field_injective (he : Function.Injective e) : Function.Injective (field t e) := by
  intro o o' h
  cases o <;> cases o'
  · rfl
  all_goals simp only [field_none, field_some, reduceCtorEq, List.cons.injEq, true_and] at h
  exact congrArg some (he h)

/-- Equal scalar fields hold equal values, or values with equal words. -/
theorem field_nonDefault_eq [DecidableEq α] {z a b : α} (h : field t e (nonDefault z a) = field t e (nonDefault z b)) :
    a = b ∨ e a = e b := by
  unfold nonDefault at h
  split_ifs at h with ha hb hb
  · exact .inl (ha.trans hb.symm)
  all_goals simp only [field_none, field_some, reduceCtorEq, List.cons.injEq, true_and] at h
  exact .inr h

/-- What follows a field starts with the field's tag only if the field is there. -/
theorem head?_field_append_ne (ht : t ≠ t') (hx : x.head? ≠ some t') : (field t e o ++ x).head? ≠ some t' := by
  cases o with
  | none => simpa using hx
  | some a => simpa using ht

theorem head?_field_ne (ht : t ≠ t') : (field t e o).head? ≠ some t' := by
  simpa using head?_field_append_ne (x := []) ht (by simp)

/-- The first field of a message comes off: equal messages have equal first fields when neither field
    is followed by its own tag. -/
theorem field_append_cancel {s : Set α} (he : PrefixFreeOn s e) (ho : ∀ a ∈ o, a ∈ s)
    (hx : x.head? ≠ some t) (hy : y.head? ≠ some t) (h : field t e o ++ x = field t e o' ++ y) :
    field t e o = field t e o' ∧ x = y := by
  cases o with
  | none =>
    cases o' with
    | none => exact ⟨rfl, by simpa using h⟩
    | some b =>
      simp only [field_none, List.nil_append, field_some, List.cons_append] at h
      exact absurd (by rw [h]; rfl) hx
  | some a =>
    cases o' with
    | none =>
      simp only [field_some, List.cons_append, field_none, List.nil_append] at h
      exact absurd (by rw [← h]; rfl) hy
    | some b =>
      simp only [field_some, List.cons_append, List.cons.injEq, true_and] at h ⊢
      exact he a (ho a rfl) b x y h
end

end PrefixCode
