import Mathlib

/-! Merkle trees over lists, split at the largest power of two below the length (the tree shape of
    RFC 6962). `root` is the root of a list of leaves, `trails` the sibling path of each leaf from the
    leaf up, and `rootFromAunts` the root recomputed from a leaf, its index, the number of leaves and a
    path, reading the path from its end.

    One pass of joining neighbours (`pairUp`) keeps the root, so joining level by level until one node
    is left computes the same root. Every leaf's own path recomputes the root, and a path recomputes the
    root only from the leaf it was made for, as long as no inner node of the tree is also the node of
    two other children. -/

namespace MerkleTree

/-! ### The split point -/

/-- The largest power of two below `n`, for `n ≥ 2`. -/
def splitPoint (n : Nat) : Nat := 2 ^ Nat.log2 (n - 1)

theorem splitPoint_eq_of_lt {n m : Nat} (h₁ : 2 ^ m < n) (h₂ : n ≤ 2 ^ (m + 1)) : splitPoint n = 2 ^ m := by
  have hm : (n - 1).log2 = m := by
    rw [Nat.log2_eq_iff (by omega), Nat.pow_succ]
    rw [Nat.pow_succ] at h₂
    omega
  rw [splitPoint, hm]

theorem splitPoint_pos (n : Nat) : 0 < splitPoint n := Nat.two_pow_pos _

theorem splitPoint_lt {n : Nat} (h : 2 ≤ n) : splitPoint n < n := by
  have := Nat.log2_self_le (n := n - 1) (by omega)
  unfold splitPoint
  omega

theorem le_two_mul_splitPoint (n : Nat) : n ≤ 2 * splitPoint n := by
  have := Nat.lt_log2_self (n := n - 1)
  rw [Nat.pow_succ] at this
  unfold splitPoint
  omega

/-- Of at most `2 ^ (d + 1)` leaves, the left part of a split holds at most `2 ^ d`. -/
theorem splitPoint_le {n d : Nat} (h : n ≤ 2 ^ (d + 1)) : splitPoint n ≤ 2 ^ d := by
  unfold splitPoint
  apply Nat.pow_le_pow_right (by norm_num)
  rcases Nat.eq_zero_or_pos (n - 1) with h0 | hpos
  · simp [h0]
  · have := (Nat.log2_lt hpos.ne').mpr (show n - 1 < 2 ^ (d + 1) by omega)
    omega

/-- One level up, the split point halves. -/
theorem splitPoint_half {n : Nat} (h : 3 ≤ n) : splitPoint ((n + 1) / 2) = splitPoint n / 2 := by
  obtain ⟨m, hm⟩ : ∃ m, (n - 1).log2 = m + 1 := by
    refine ⟨(n - 1).log2 - 1, ?_⟩
    have : 1 ≤ (n - 1).log2 := by
      rw [Nat.le_log2 (by omega)]
      omega
    omega
  have hlo := Nat.log2_self_le (n := n - 1) (by omega)
  have hhi := Nat.lt_log2_self (n := n - 1)
  rw [hm, Nat.pow_succ] at hlo hhi
  rw [Nat.pow_succ] at hhi
  have hsp : splitPoint n = 2 ^ m * 2 := by rw [splitPoint, hm, Nat.pow_succ]
  rw [hsp, Nat.mul_div_cancel _ (by decide)]
  exact splitPoint_eq_of_lt (by omega) (by rw [Nat.pow_succ]; omega)

theorem splitPoint_even {n : Nat} (h : 3 ≤ n) : splitPoint n % 2 = 0 := by
  have h2 := splitPoint_half h
  have := splitPoint_pos ((n + 1) / 2)
  have := le_two_mul_splitPoint n
  have hsp : splitPoint n = 2 ^ (n - 1).log2 := rfl
  obtain ⟨m, hm⟩ : ∃ m, (n - 1).log2 = m + 1 := ⟨(n - 1).log2 - 1, by
    have : 1 ≤ (n - 1).log2 := by rw [Nat.le_log2 (by omega)]; omega
    omega⟩
  rw [hsp, hm, Nat.pow_succ]
  omega

section
variable {α : Type} (node : α → α → α)

/-! ### One level of joining neighbours -/

/-- Neighbours are joined; an odd last node goes up alone. -/
def pairUp : List α → List α
  | [] => []
  | [a] => [a]
  | a :: b :: rest => node a b :: pairUp rest

theorem length_pairUp : ∀ xs : List α, (pairUp node xs).length = (xs.length + 1) / 2
  | [] => by simp [pairUp]
  | [_] => by simp [pairUp]
  | _ :: _ :: rest => by
    simp only [pairUp, List.length_cons, length_pairUp rest]
    omega

/-- A pass over an even prefix ends at the prefix's end. -/
theorem pairUp_append : ∀ xs ys : List α, xs.length % 2 = 0 →
    pairUp node (xs ++ ys) = pairUp node xs ++ pairUp node ys
  | [], _, _ => by simp [pairUp]
  | [_], _, h => by simp at h
  | a :: b :: rest, ys, h => by
    simp only [List.length_cons] at h
    simp only [List.cons_append, pairUp, List.cons.injEq, true_and]
    exact pairUp_append rest ys (by omega)

/-! ### The root -/

variable (empty : α)

/-- The root: no leaf gives `empty`, one leaf is the root, and more are split at `splitPoint`. -/
def root : List α → α
  | [] => empty
  | [a] => a
  | a :: b :: rest =>
    node (root ((a :: b :: rest).take (splitPoint (rest.length + 2))))
      (root ((a :: b :: rest).drop (splitPoint (rest.length + 2))))
termination_by xs => xs.length
decreasing_by
  · have := splitPoint_lt (n := rest.length + 2) (by omega)
    simp only [List.length_take, List.length_cons]
    omega
  · have := splitPoint_pos (rest.length + 2)
    simp only [List.length_drop, List.length_cons]
    omega

theorem root_split {xs : List α} (h : 2 ≤ xs.length) :
    root node empty xs =
      node (root node empty (xs.take (splitPoint xs.length))) (root node empty (xs.drop (splitPoint xs.length))) := by
  match xs, h with
  | a :: b :: rest, _ => rw [root]; rfl

/-- Joining neighbours keeps the root: the pass joins each half on its own, since the split point is
    even, and one level up the split point is half of it. -/
theorem root_pairUp (xs : List α) : root node empty (pairUp node xs) = root node empty xs := by
  induction h : xs.length using Nat.strong_induction_on generalizing xs with
  | _ n ih =>
    match xs with
    | [] => simp [pairUp]
    | [_] => simp [pairUp]
    | [a, b] =>
      have : splitPoint 2 = 1 := splitPoint_eq_of_lt (m := 0) (by decide) (by decide)
      simp [pairUp, root, this]
    | a :: b :: c :: rest =>
      set xs := a :: b :: c :: rest with hxs
      have hn : xs.length = rest.length + 3 := rfl
      have hk := splitPoint_lt (n := xs.length) (by omega)
      have hk2 := le_two_mul_splitPoint xs.length
      have heven := splitPoint_even (n := xs.length) (by omega)
      set k := splitPoint xs.length
      have hsplit : pairUp node xs = pairUp node (xs.take k) ++ pairUp node (xs.drop k) := by
        conv_lhs => rw [← List.take_append_drop k xs]
        exact pairUp_append node _ _ (by simpa [List.length_take, Nat.min_eq_left hk.le] using heven)
      have hlenL : (pairUp node (xs.take k)).length = k / 2 := by
        rw [length_pairUp, List.length_take, Nat.min_eq_left hk.le]
        omega
      have hlen : (pairUp node xs).length = (xs.length + 1) / 2 := length_pairUp node xs
      have hhalf : splitPoint (pairUp node xs).length = k / 2 := by
        rw [hlen]; exact splitPoint_half (by omega)
      -- the left half keeps its root by induction; the right half too, or it is one leaf
      have hL : root node empty (pairUp node (xs.take k)) = root node empty (xs.take k) :=
        ih _ (by rw [← h, List.length_take]; omega) _ rfl
      have hR : root node empty (pairUp node (xs.drop k)) = root node empty (xs.drop k) :=
        ih _ (by rw [← h, List.length_drop]; have := splitPoint_pos xs.length; omega) _ rfl
      rw [root_split node empty (show 2 ≤ (pairUp node xs).length by omega),
        root_split node empty (show 2 ≤ xs.length by omega),
        hhalf, hsplit, List.take_left' hlenL, List.drop_left' hlenL, hL, hR]

/-! ### Paths -/

/-- The sibling path of each leaf, from the leaf up: in a split, a leaf of the left part continues with
    the right part's root, and a leaf of the right part with the left part's root. -/
def trails : List α → List (List α)
  | [] => []
  | [_] => [[]]
  | a :: b :: rest =>
    (trails ((a :: b :: rest).take (splitPoint (rest.length + 2)))).map
        (· ++ [root node empty ((a :: b :: rest).drop (splitPoint (rest.length + 2)))]) ++
      (trails ((a :: b :: rest).drop (splitPoint (rest.length + 2)))).map
        (· ++ [root node empty ((a :: b :: rest).take (splitPoint (rest.length + 2)))])
termination_by xs => xs.length
decreasing_by
  · have := splitPoint_lt (n := rest.length + 2) (by omega)
    simp only [List.length_take, List.length_cons]
    omega
  · have := splitPoint_pos (rest.length + 2)
    simp only [List.length_drop, List.length_cons]
    omega

/-- The pairs of children of the inner nodes. -/
def nodes : List α → List (α × α)
  | [] => []
  | [_] => []
  | a :: b :: rest =>
    (root node empty ((a :: b :: rest).take (splitPoint (rest.length + 2))),
        root node empty ((a :: b :: rest).drop (splitPoint (rest.length + 2)))) ::
      (nodes ((a :: b :: rest).take (splitPoint (rest.length + 2))) ++
        nodes ((a :: b :: rest).drop (splitPoint (rest.length + 2))))
termination_by xs => xs.length
decreasing_by
  · have := splitPoint_lt (n := rest.length + 2) (by omega)
    simp only [List.length_take, List.length_cons]
    omega
  · have := splitPoint_pos (rest.length + 2)
    simp only [List.length_drop, List.length_cons]
    omega

theorem trails_split {xs : List α} (h : 2 ≤ xs.length) :
    trails node empty xs =
      (trails node empty (xs.take (splitPoint xs.length))).map
          (· ++ [root node empty (xs.drop (splitPoint xs.length))]) ++
        (trails node empty (xs.drop (splitPoint xs.length))).map
          (· ++ [root node empty (xs.take (splitPoint xs.length))]) := by
  match xs, h with
  | a :: b :: rest, _ => rw [trails]; rfl

theorem nodes_split {xs : List α} (h : 2 ≤ xs.length) :
    nodes node empty xs =
      (root node empty (xs.take (splitPoint xs.length)), root node empty (xs.drop (splitPoint xs.length))) ::
        (nodes node empty (xs.take (splitPoint xs.length)) ++ nodes node empty (xs.drop (splitPoint xs.length))) := by
  match xs, h with
  | a :: b :: rest, _ => rw [nodes]; rfl

theorem length_trails (xs : List α) : (trails node empty xs).length = xs.length := by
  induction h : xs.length using Nat.strong_induction_on generalizing xs with
  | _ n ih =>
    match xs with
    | [] => simp [trails, ← h]
    | [_] => simp [trails, ← h]
    | a :: b :: rest =>
      set xs := a :: b :: rest
      have h2 : 2 ≤ xs.length := by simp [xs]
      have hk := splitPoint_lt h2
      have hk0 := splitPoint_pos xs.length
      set k := splitPoint xs.length
      rw [trails_split node empty h2, List.length_append, List.length_map, List.length_map,
        ih _ (by rw [← h, List.length_take]; omega) _ rfl, ih _ (by rw [← h, List.length_drop]; omega) _ rfl,
        List.length_take, List.length_drop, ← h]
      omega

/-- The root recomputed from a leaf at `index` of `total` leaves and the path above it, read from its
    end; `none` when the path does not fit the shape of the tree. -/
def rootFromAunts : Nat → Nat → α → List α → Option α
  | _, 0, _, _ => none
  | index, 1, leaf, aunts => if index = 0 ∧ aunts.isEmpty then some leaf else none
  | index, total + 2, leaf, aunts =>
    if total + 2 ≤ index then none
    else
      match aunts.getLast? with
      | none => none
      | some last =>
        if index < splitPoint (total + 2) then
          (rootFromAunts index (splitPoint (total + 2)) leaf aunts.dropLast).map (node · last)
        else
          (rootFromAunts (index - splitPoint (total + 2)) (total + 2 - splitPoint (total + 2)) leaf
            aunts.dropLast).map (node last ·)
termination_by _ total => total
decreasing_by
  · exact splitPoint_lt (by omega)
  · have := splitPoint_pos (total + 2)
    omega

/-- `rootFromAunts` above one leaf: it takes the path apart from its end. -/
theorem rootFromAunts_split {index total : Nat} {leaf last : α} {aunts : List α} (h : 2 ≤ total)
    (hi : index < total) :
    rootFromAunts node index total leaf (aunts ++ [last]) =
      if index < splitPoint total then (rootFromAunts node index (splitPoint total) leaf aunts).map (node · last)
      else (rootFromAunts node (index - splitPoint total) (total - splitPoint total) leaf aunts).map (node last ·) := by
  obtain ⟨t, rfl⟩ : ∃ t, total = t + 2 := ⟨total - 2, by omega⟩
  rw [rootFromAunts, if_neg (by omega)]
  simp only [List.getLast?_concat, List.dropLast_concat]

theorem rootFromAunts_of_le {index total : Nat} {leaf : α} {aunts : List α} (h : total ≤ index) :
    rootFromAunts node index total leaf aunts = none := by
  match total with
  | 0 => simp [rootFromAunts]
  | 1 => simp [rootFromAunts]; omega
  | total + 2 => rw [rootFromAunts, if_pos h]

theorem rootFromAunts_nil_path {index total : Nat} {leaf : α} (h : 2 ≤ total) :
    rootFromAunts node index total leaf [] = none := by
  obtain ⟨t, rfl⟩ : ∃ t, total = t + 2 := ⟨total - 2, by omega⟩
  rw [rootFromAunts]
  split_ifs <;> rfl

/-- Every leaf's own path recomputes the root. -/
theorem rootFromAunts_trails {xs : List α} {i : Nat} {x : α} (hx : xs[i]? = some x) :
    rootFromAunts node i xs.length x ((trails node empty xs).getD i []) = some (root node empty xs) := by
  induction h : xs.length using Nat.strong_induction_on generalizing xs i x with
  | _ n ih =>
    match xs with
    | [] => simp at hx
    | [a] =>
      obtain ⟨rfl, rfl⟩ : i = 0 ∧ a = x := by
        cases i with
        | zero => simpa using hx
        | succ i => simp at hx
      simp [← h, rootFromAunts, trails, root]
    | a :: b :: rest =>
      set xs := a :: b :: rest
      have h2 : 2 ≤ xs.length := by simp [xs]
      have hi : i < xs.length := (List.getElem?_eq_some_iff.mp hx).1
      have hk := splitPoint_lt h2
      have hk0 := splitPoint_pos xs.length
      set k := splitPoint xs.length
      have hlenL : (xs.take k).length = k := by rw [List.length_take]; omega
      have hlenR : (xs.drop k).length = xs.length - k := List.length_drop ..
      have htL : (trails node empty (xs.take k)).length = k := by rw [length_trails, hlenL]
      have htR : (trails node empty (xs.drop k)).length = xs.length - k := by rw [length_trails, hlenR]
      rw [trails_split node empty h2, root_split node empty h2, ← h]
      by_cases hik : i < k
      · -- a leaf of the left part: its path ends with the right part's root
        have hget : ((trails node empty (xs.take k)).map (· ++ [root node empty (xs.drop k)]) ++
            (trails node empty (xs.drop k)).map (· ++ [root node empty (xs.take k)])).getD i [] =
            (trails node empty (xs.take k)).getD i [] ++ [root node empty (xs.drop k)] := by
          rw [List.getD_eq_getElem?_getD, List.getElem?_append_left (by rwa [List.length_map, htL]),
            List.getElem?_map, List.getD_eq_getElem?_getD, List.getElem?_eq_getElem (by rwa [htL])]
          rfl
        have hxL : (xs.take k)[i]? = some x := by rw [List.getElem?_take, if_pos hik, hx]
        have hL := ih k (by omega) hxL hlenL
        rw [hget, rootFromAunts_split node h2 hi, if_pos hik]
        change Option.map _ (rootFromAunts node i k x _) = _
        rw [hL]
        rfl
      · -- a leaf of the right part: its path ends with the left part's root
        have hget : ((trails node empty (xs.take k)).map (· ++ [root node empty (xs.drop k)]) ++
            (trails node empty (xs.drop k)).map (· ++ [root node empty (xs.take k)])).getD i [] =
            (trails node empty (xs.drop k)).getD (i - k) [] ++ [root node empty (xs.take k)] := by
          rw [List.getD_eq_getElem?_getD, List.getElem?_append_right (by rw [List.length_map, htL]; omega),
            List.getElem?_map, List.length_map, htL, List.getD_eq_getElem?_getD,
            List.getElem?_eq_getElem (by rw [htR]; omega)]
          rfl
        have hxR : (xs.drop k)[i - k]? = some x := by
          rw [List.getElem?_drop, Nat.add_sub_cancel' (by omega), hx]
        have hR := ih _ (by omega) hxR hlenR
        rw [hget, rootFromAunts_split node h2 hi, if_neg hik]
        change Option.map _ (rootFromAunts node (i - k) (xs.length - k) x _) = _
        rw [hR]
        rfl

/-! ### Binding -/

section
variable {P : α → Prop} (hnode : ∀ a b, P (node a b))
include hnode

/-- What `rootFromAunts` returns is the leaf or a node. -/
theorem rootFromAunts_mem {index total : Nat} {leaf r : α} {aunts : List α} (hleaf : P leaf)
    (h : rootFromAunts node index total leaf aunts = some r) : P r := by
  match total with
  | 0 => simp [rootFromAunts] at h
  | 1 =>
    simp only [rootFromAunts] at h
    split_ifs at h
    cases h
    exact hleaf
  | total + 2 =>
    by_cases hi : index < total + 2
    · rcases List.eq_nil_or_concat' aunts with rfl | ⟨aunts, last, rfl⟩
      · rw [rootFromAunts_nil_path node (by omega)] at h
        cases h
      · rw [rootFromAunts_split node (by omega) hi] at h
        split_ifs at h
        · obtain ⟨l, -, rfl⟩ := Option.map_eq_some_iff.mp h
          exact hnode _ _
        · obtain ⟨l, -, rfl⟩ := Option.map_eq_some_iff.mp h
          exact hnode _ _
    · rw [rootFromAunts_of_le node (by omega)] at h
      cases h

/-- A path recomputes the root only from the leaf at its index, as long as no inner node of the tree is
    also the node of two other children, the one of them that the path recomputes being a `P`. -/
theorem eq_of_rootFromAunts {xs : List α} {i : Nat} {x : α} {aunts : List α}
    (hcancel : ∀ c d, (c, d) ∈ nodes node empty xs → ∀ a b, node a b = node c d → P a ∨ P b → a = c ∧ b = d)
    (hx : P x) (h : rootFromAunts node i xs.length x aunts = some (root node empty xs)) : xs[i]? = some x := by
  induction hn : xs.length using Nat.strong_induction_on generalizing xs i aunts with
  | _ n ih =>
    match xs with
    | [] => simp [rootFromAunts] at h
    | [a] =>
      simp only [rootFromAunts, List.length_singleton, root] at h
      split_ifs at h with hi
      cases h
      simp [hi.1]
    | a :: b :: rest =>
      set xs := a :: b :: rest
      have h2 : 2 ≤ xs.length := by simp [xs]
      have hk := splitPoint_lt h2
      have hk0 := splitPoint_pos xs.length
      set k := splitPoint xs.length
      have hlenL : (xs.take k).length = k := by rw [List.length_take]; omega
      have hlenR : (xs.drop k).length = xs.length - k := List.length_drop ..
      have htop : (root node empty (xs.take k), root node empty (xs.drop k)) ∈ nodes node empty xs := by
        rw [nodes_split node empty h2]; exact List.mem_cons_self
      have hsubL : ∀ p ∈ nodes node empty (xs.take k), p ∈ nodes node empty xs := by
        intro p hp
        rw [nodes_split node empty h2]
        exact List.mem_cons_of_mem _ (List.mem_append_left _ hp)
      have hsubR : ∀ p ∈ nodes node empty (xs.drop k), p ∈ nodes node empty xs := by
        intro p hp
        rw [nodes_split node empty h2]
        exact List.mem_cons_of_mem _ (List.mem_append_right _ hp)
      -- the path is not empty and the index is inside the tree
      have hi : i < xs.length := by
        by_contra hge
        rw [rootFromAunts_of_le node (by omega)] at h
        cases h
      obtain ⟨aunts, last, rfl⟩ : ∃ aunts' last, aunts = aunts' ++ [last] := by
        rcases List.eq_nil_or_concat' aunts with rfl | ⟨aunts', last, rfl⟩
        · rw [rootFromAunts_nil_path node h2] at h
          cases h
        · exact ⟨aunts', last, rfl⟩
      rw [rootFromAunts_split node h2 hi, root_split node empty h2] at h
      split_ifs at h with hik
      · -- the left child is recomputed, so it is the left part's root and the leaf is on the left
        obtain ⟨l, hl, hnl⟩ := Option.map_eq_some_iff.mp h
        obtain ⟨rfl, -⟩ := hcancel _ _ htop l last hnl (.inl (rootFromAunts_mem node hnode hx hl))
        have := ih k (by omega) (fun c d hcd => hcancel c d (hsubL _ hcd)) (by rwa [hlenL]) hlenL
        rwa [List.getElem?_take, if_pos hik] at this
      · -- the right child is recomputed
        obtain ⟨r, hr, hnr⟩ := Option.map_eq_some_iff.mp h
        obtain ⟨-, rfl⟩ := hcancel _ _ htop last r hnr (.inr (rootFromAunts_mem node hnode hx hr))
        have := ih (xs.length - k) (by omega) (fun c d hcd => hcancel c d (hsubR _ hcd)) (by rwa [hlenR]) hlenR
        rwa [List.getElem?_drop, Nat.add_sub_cancel' (by omega)] at this

end

/-- The root of a non-empty list, and so each child of every inner node, has every property that the
    leaves and the nodes have. -/
theorem root_mem {Q : α → Prop} (hnode : ∀ a b, Q (node a b)) {xs : List α} (hxs : ∀ x ∈ xs, Q x)
    (hne : xs ≠ []) : Q (root node empty xs) := by
  match xs with
  | [a] =>
    rw [root]
    exact hxs a List.mem_cons_self
  | a :: b :: rest =>
    rw [root]
    exact hnode _ _

theorem nodes_mem {Q : α → Prop} (hnode : ∀ a b, Q (node a b)) {xs : List α} (hxs : ∀ x ∈ xs, Q x) :
    ∀ p ∈ nodes node empty xs, Q p.1 ∧ Q p.2 := by
  induction hn : xs.length using Nat.strong_induction_on generalizing xs with
  | _ n ih =>
    match xs with
    | [] => simp [nodes]
    | [_] => simp [nodes]
    | a :: b :: rest =>
      set xs := a :: b :: rest
      have h2 : 2 ≤ xs.length := by simp [xs]
      have hk := splitPoint_lt h2
      have hk0 := splitPoint_pos xs.length
      set k := splitPoint xs.length
      have hL : ∀ x ∈ xs.take k, Q x := fun x hx => hxs x (List.mem_of_mem_take hx)
      have hR : ∀ x ∈ xs.drop k, Q x := fun x hx => hxs x (List.mem_of_mem_drop hx)
      have hneL : xs.take k ≠ [] := by rw [← List.length_pos_iff, List.length_take]; omega
      have hneR : xs.drop k ≠ [] := by rw [← List.length_pos_iff, List.length_drop]; omega
      rw [nodes_split node empty h2]
      intro p hp
      simp only [List.mem_cons, List.mem_append] at hp
      rcases hp with rfl | hp | hp
      · exact ⟨root_mem node empty hnode hL hneL, root_mem node empty hnode hR hneR⟩
      · exact ih _ (by rw [← hn, List.length_take]; omega) hL rfl p hp
      · exact ih _ (by rw [← hn, List.length_drop]; omega) hR rfl p hp

/-- Every node on a path is the root of a non-empty part of the leaves, so it has every property that the
    leaves and the nodes have. -/
theorem mem_of_mem_trails {Q : α → Prop} (hnode : ∀ a b, Q (node a b)) {xs : List α} (hxs : ∀ x ∈ xs, Q x) :
    ∀ t ∈ trails node empty xs, ∀ a ∈ t, Q a := by
  induction hn : xs.length using Nat.strong_induction_on generalizing xs with
  | _ n ih =>
    match xs with
    | [] => simp [trails]
    | [_] => simp [trails]
    | a :: b :: rest =>
      set xs := a :: b :: rest
      have h2 : 2 ≤ xs.length := by simp [xs]
      have hk := splitPoint_lt h2
      have hk0 := splitPoint_pos xs.length
      set k := splitPoint xs.length
      have hL : ∀ x ∈ xs.take k, Q x := fun x hx => hxs x (List.mem_of_mem_take hx)
      have hR : ∀ x ∈ xs.drop k, Q x := fun x hx => hxs x (List.mem_of_mem_drop hx)
      have hneL : xs.take k ≠ [] := by rw [← List.length_pos_iff, List.length_take]; omega
      have hneR : xs.drop k ≠ [] := by rw [← List.length_pos_iff, List.length_drop]; omega
      rw [trails_split node empty h2]
      intro t ht c hc
      simp only [List.mem_append, List.mem_map] at ht
      -- a path of the left part goes on with the right part's root, and the other way round
      rcases ht with ⟨t, ht, rfl⟩ | ⟨t, ht, rfl⟩
      · rcases List.mem_append.mp hc with hc | hc
        · exact ih _ (by rw [← hn, List.length_take]; omega) hL rfl t ht c hc
        · rw [List.mem_singleton.mp hc]
          exact root_mem node empty hnode hR hneR
      · rcases List.mem_append.mp hc with hc | hc
        · exact ih _ (by rw [← hn, List.length_drop]; omega) hR rfl t ht c hc
        · rw [List.mem_singleton.mp hc]
          exact root_mem node empty hnode hL hneL

/-- The path of a leaf among at most `2 ^ d` leaves has at most `d` nodes. -/
theorem length_le_of_mem_trails {xs : List α} {d : Nat} (hxs : xs.length ≤ 2 ^ d) :
    ∀ t ∈ trails node empty xs, t.length ≤ d := by
  induction hn : xs.length using Nat.strong_induction_on generalizing xs d with
  | _ n ih =>
    match xs with
    | [] => simp [trails]
    | [_] => simp [trails]
    | a :: b :: rest =>
      set xs := a :: b :: rest
      have h2 : 2 ≤ xs.length := by simp [xs]
      -- two leaves or more need a level: `d = e + 1`, and each part has at most `2 ^ e` leaves
      obtain ⟨e, rfl⟩ : ∃ e, d = e + 1 := Nat.exists_eq_succ_of_ne_zero fun hd => by
        rw [hd, pow_zero] at hxs
        omega
      have hk := splitPoint_lt h2
      have hke := splitPoint_le hxs
      have h2k := le_two_mul_splitPoint xs.length
      set k := splitPoint xs.length
      rw [trails_split node empty h2]
      intro t ht
      simp only [List.mem_append, List.mem_map] at ht
      rcases ht with ⟨t, ht, rfl⟩ | ⟨t, ht, rfl⟩
      · have := ih _ (by rw [← hn, List.length_take]; omega) (d := e) (by rw [List.length_take]; omega) rfl t ht
        rw [List.length_append, List.length_singleton]
        omega
      · have := ih _ (by rw [← hn, List.length_drop]; omega) (d := e) (by rw [List.length_drop]; omega) rfl t ht
        rw [List.length_append, List.length_singleton]
        omega

end

end MerkleTree
