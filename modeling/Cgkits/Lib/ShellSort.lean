import Mathlib.Data.List.Nodup
import Mathlib.Data.Nat.Notation
import Mathlib.Data.List.Range
import Mathlib.Tactic.Basic

/-!
# Shell sort

Shell sort is insertion sort over shrinking gaps: for each gap, every element sinks to its place
among the elements whose distance to it is a multiple of the gap.  The gaps are the numbers
`1, 4, 13, 40, …` up to the length, from the largest down, so the last pass is an insertion sort.

An array is a function on the indices.  Every step is a swap of two elements, so the result is a
permutation (`shellSort_perm`), and the last pass sorts whatever it gets (`pairwise_shellSort`).
`map_shellSort` says that the algorithm looks at the elements only through the comparison.
-/

namespace ShellSort

variable {α β : Type*}

/-- The array in which the elements at `i` and `j` have been exchanged. -/
def swap (a : ℕ → α) (i j : ℕ) : ℕ → α := fun k => if k = i then a j else if k = j then a i else a k

/-- Let the element at position `p` sink below larger elements, in steps of `gap`.  The position
drops in every step, so `p` steps are enough. -/
def sink (le : α → α → Bool) (gap : ℕ) : ℕ → ℕ → (ℕ → α) → ℕ → α
  | 0, _, a => a
  | n + 1, p, a =>
    if gap ≤ p ∧ le (a (p - gap)) (a p) = false then sink le gap n (p - gap) (swap a (p - gap) p)
    else a

/-- One insertion pass with a gap over an array of length `n`: every element sinks to its place. -/
def pass (le : α → α → Bool) (n : ℕ) (a : ℕ → α) (gap : ℕ) : ℕ → α :=
  (List.range' gap (n - gap)).foldl (fun a i => sink le gap i i a) a

/-- The first gap of the sequence that is longer than the array. -/
def growGap (n : ℕ) : ℕ → ℕ → ℕ
  | 0, gap => gap
  | k + 1, gap => if gap ≤ n then growGap n k (3 * gap + 1) else gap

/-- The gaps from `gap` down to the last positive one, each a third of the one before. -/
def gaps : ℕ → ℕ → List ℕ
  | 0, _ => []
  | k + 1, gap => if 0 < gap then gap :: gaps k (gap / 3) else []

/-- Shell sort of an array of length `n`: one pass for each gap, from the largest down. -/
def sortArray (le : α → α → Bool) (n : ℕ) (a : ℕ → α) : ℕ → α :=
  (gaps (n + 1) (growGap n (n + 1) 1 / 3)).foldl (pass le n) a

/-- Shell sort of a list, through the array of its elements. -/
def shellSort (le : α → α → Bool) : List α → List α
  | [] => []
  | x :: l =>
    (List.range (x :: l).length).map
      (sortArray le (x :: l).length fun k => ((x :: l)[k]?).getD x)

/-! ## The result is a permutation -/

/-- The elements of an array of length `n`, in order. -/
def toList (n : ℕ) (a : ℕ → α) : List α := (List.range n).map a

/-- A swap within the array only rearranges its elements. -/
lemma toList_swap {n i j : ℕ} (a : ℕ → α) (hi : i < n) (hj : j < n) :
    (toList n (swap a i j)).Perm (toList n a) := by
  have hswap : swap a i j = a ∘ fun k => if k = i then j else if k = j then i else k := by
    funext k
    unfold swap
    dsimp only [Function.comp]
    split
    · rfl
    · split <;> rfl
  unfold toList
  rw [hswap, ← List.map_map]
  apply List.Perm.map
  -- the indices are rearranged
  rw [List.perm_ext_iff_of_nodup _ List.nodup_range]
  · intro k
    rw [List.mem_map, List.mem_range]
    constructor
    · rintro ⟨l, hl, rfl⟩
      rw [List.mem_range] at hl
      split
      · exact hj
      · split
        · exact hi
        · exact hl
    · intro hk
      refine ⟨if k = i then j else if k = j then i else k, ?_, ?_⟩
      · rw [List.mem_range]
        split
        · exact hj
        · split
          · exact hi
          · exact hk
      · split_ifs <;> simp_all
  · apply List.Nodup.map_on _ List.nodup_range
    intro k _ l _ he
    split_ifs at he <;> omega

/-- Sinking an element only rearranges the elements of the array. -/
lemma toList_sink (le : α → α → Bool) {n gap k p : ℕ} (a : ℕ → α) (hp : p < n) :
    (toList n (sink le gap k p a)).Perm (toList n a) := by
  induction k generalizing p a with
  | zero => exact List.Perm.refl _
  | succ k ih =>
    unfold sink
    split
    · exact (ih _ (by omega)).trans (toList_swap a (by omega) hp)
    · exact List.Perm.refl _

/-- A pass only rearranges the elements of the array. -/
lemma toList_pass (le : α → α → Bool) {n : ℕ} (a : ℕ → α) (gap : ℕ) :
    (toList n (pass le n a gap)).Perm (toList n a) := by
  unfold pass
  have hlt : ∀ i ∈ List.range' gap (n - gap), i < n := by
    intro i hi
    rw [List.mem_range'_1] at hi
    omega
  generalize List.range' gap (n - gap) = l at hlt
  induction l generalizing a with
  | nil => exact List.Perm.refl _
  | cons i l ih =>
    rw [List.foldl_cons]
    exact (ih _ fun j hj => hlt j (List.mem_cons_of_mem i hj)).trans
      (toList_sink le a (hlt i List.mem_cons_self))

/-- Sorting an array only rearranges its elements. -/
lemma toList_sortArray (le : α → α → Bool) {n : ℕ} (a : ℕ → α) :
    (toList n (sortArray le n a)).Perm (toList n a) := by
  unfold sortArray
  generalize gaps (n + 1) (growGap n (n + 1) 1 / 3) = l
  induction l generalizing a with
  | nil => exact List.Perm.refl _
  | cons gap l ih => exact (ih _).trans (toList_pass le a gap)

/-- The array of the elements of a list has these elements in the same order. -/
lemma toList_getD (l : List α) (x : α) : toList l.length (fun k => (l[k]?).getD x) = l := by
  apply List.ext_getElem
  · simp [toList]
  · intro i h₁ h₂
    simp [toList, List.getElem?_eq_getElem h₂]

/-- The sorted list is a permutation of the list that was given. -/
theorem shellSort_perm (le : α → α → Bool) (l : List α) : (shellSort le l).Perm l := by
  cases l with
  | nil => exact List.Perm.refl _
  | cons x l =>
    have h := toList_sortArray le (n := (x :: l).length) fun k => ((x :: l)[k]?).getD x
    rw [toList_getD] at h
    exact h

/-! ## The last pass sorts -/

section Sorted

variable {le : α → α → Bool}

/-- While the element at `p` sinks in steps of one, the others are in order up to `i`, and it is not
larger than those behind it. -/
structure Sinking (le : α → α → Bool) (i p : ℕ) (a : ℕ → α) : Prop where
  /-- The other elements are in order among themselves. -/
  others : ∀ k l, k < l → l ≤ i → k ≠ p → l ≠ p → le (a k) (a l) = true
  /-- The element is not larger than those behind it. -/
  behind : ∀ l, p < l → l ≤ i → le (a p) (a l) = true

/-- The array is in order up to the index `i`. -/
def Ordered (le : α → α → Bool) (i : ℕ) (a : ℕ → α) : Prop :=
  ∀ k l, k < l → l ≤ i → le (a k) (a l) = true

variable (htrans : ∀ x y z, le x y = true → le y z = true → le x z = true)
  (htotal : ∀ x y, le x y = true ∨ le y x = true)

include htotal in
/-- An element that is not in order with the one below it moves one step down. -/
lemma Sinking.swap {i p : ℕ} {a : ℕ → α} (h : Sinking le i (p + 1) a) (hp : p + 1 ≤ i)
    (hlt : le (a p) (a (p + 1)) = false) : Sinking le i p (swap a p (p + 1)) := by
  have hle : le (a (p + 1)) (a p) = true := by
    cases htotal (a p) (a (p + 1)) with
    | inl h => rw [h] at hlt; cases hlt
    | inr h => exact h
  have h₁ : ShellSort.swap a p (p + 1) p = a (p + 1) := if_pos rfl
  have h₂ : ShellSort.swap a p (p + 1) (p + 1) = a p := by
    unfold ShellSort.swap
    rw [if_neg (by omega), if_pos rfl]
  have h₃ : ∀ k, k ≠ p → k ≠ p + 1 → ShellSort.swap a p (p + 1) k = a k := by
    intro k hk hk'
    unfold ShellSort.swap
    rw [if_neg hk, if_neg hk']
  constructor
  · intro k l hkl hli hk hl
    by_cases hl' : l = p + 1
    · subst hl'
      rw [h₂, h₃ k hk (by omega)]
      exact h.others k p (by omega) (by omega) (by omega) (by omega)
    · rw [h₃ l hl hl']
      by_cases hk' : k = p + 1
      · subst hk'
        rw [h₂]
        exact h.others p l (by omega) hli (by omega) hl'
      · rw [h₃ k hk hk']
        exact h.others k l hkl hli hk' hl'
  · intro l hpl hli
    rw [h₁]
    by_cases hl' : l = p + 1
    · subst hl'
      rw [h₂]
      exact hle
    · rw [h₃ l (by omega) hl']
      exact h.behind l (by omega) hli

include htrans htotal in
/-- When the element has sunk as far as it can, the array is in order up to the next element. -/
lemma Sinking.ordered {i p k : ℕ} {a : ℕ → α} (h : Sinking le i p a) (hp : p ≤ i) (hk : p ≤ k) :
    Ordered le i (sink le 1 k p a) := by
  induction k generalizing p a with
  | zero =>
    obtain rfl : p = 0 := by omega
    intro k l hkl hli
    by_cases hk : k = 0
    · subst hk
      exact h.behind l hkl hli
    · exact h.others k l hkl hli hk (by omega)
  | succ n ih =>
    unfold sink
    split
    · rename_i hc
      obtain ⟨p, rfl⟩ : ∃ q, p = q + 1 := ⟨p - 1, by omega⟩
      rw [Nat.add_sub_cancel] at hc ⊢
      exact ih (h.swap htotal hp hc.2) (by omega) (by omega)
    · rename_i hc
      intro k l hkl hli
      by_cases hk : k = p
      · subst hk
        exact h.behind l hkl hli
      · by_cases hl : l = p
        · subst hl
          have hle : le (a (l - 1)) (a l) = true := by
            by_contra hne
            exact hc ⟨by omega, by simpa using hne⟩
          by_cases hk' : k = l - 1
          · rw [hk']
            exact hle
          · exact htrans _ _ _ (h.others k (l - 1) (by omega) (by omega) hk (by omega)) hle
        · exact h.others k l hkl hli hk hl

include htrans htotal in
/-- An insertion pass with the gap one puts the whole array in order. -/
lemma ordered_pass {n : ℕ} (a : ℕ → α) : Ordered le (n - 1) (pass le n a 1) := by
  unfold pass
  -- after the elements below `1 + m` have been inserted, they are in order
  have hm : ∀ m, Ordered le m ((List.range' 1 m).foldl (fun a i => sink le 1 i i a) a) := by
    intro m
    induction m with
    | zero =>
      intro k l hkl hl
      omega
    | succ m ih =>
      rw [List.range'_concat, List.foldl_append, List.foldl_cons, List.foldl_nil]
      rw [Nat.one_mul, Nat.add_comm 1 m]
      apply Sinking.ordered htrans htotal _ le_rfl le_rfl
      constructor
      · intro k l hkl hl hk hl'
        exact ih k l hkl (by omega)
      · intro l hl hl'
        omega
  exact hm (n - 1)

/-- The gaps `0, 1, 4, 13, 40, …`, each three times the one before and one more. -/
def gapAt : ℕ → ℕ
  | 0 => 0
  | k + 1 => 3 * gapAt k + 1

/-- The division that shrinks a gap gives the gap before it. -/
lemma gapAt_succ_div (k : ℕ) : gapAt (k + 1) / 3 = gapAt k := by
  rw [gapAt]
  omega

/-- Growing a gap of the sequence gives a later gap of the sequence. -/
lemma growGap_gapAt (n m k : ℕ) : ∃ j, growGap n m (gapAt k) = gapAt j ∧ k ≤ j ∧ j ≤ k + m := by
  induction m generalizing k with
  | zero => exact ⟨k, rfl, le_rfl, le_rfl⟩
  | succ m ih =>
    unfold growGap
    split
    · obtain ⟨j, hj, hkj, hjm⟩ := ih (k + 1)
      exact ⟨j, hj, by omega, by omega⟩
    · exact ⟨k, rfl, le_rfl, by omega⟩

/-- The gaps from a positive one down end with the gap `1`. -/
lemma exists_gaps_gapAt {m k : ℕ} (hk : k + 1 ≤ m) : ∃ l, gaps m (gapAt (k + 1)) = l ++ [1] := by
  induction k generalizing m with
  | zero =>
    obtain ⟨m, rfl⟩ : ∃ j, m = j + 1 := ⟨m - 1, by omega⟩
    refine ⟨[], ?_⟩
    cases m with
    | zero => rfl
    | succ m => rfl
  | succ k ih =>
    obtain ⟨m, rfl⟩ : ∃ j, m = j + 1 := ⟨m - 1, by omega⟩
    obtain ⟨l, hl⟩ := ih (m := m) (by omega)
    refine ⟨gapAt (k + 2) :: l, ?_⟩
    have hpos : 0 < gapAt (k + 2) := Nat.succ_pos _
    rw [gaps, if_pos hpos, gapAt_succ_div, hl]
    rfl

/-- The last pass over a nonempty array has the gap `1`, which sorts it. -/
lemma exists_gaps {n : ℕ} (hn : 0 < n) :
    ∃ l, gaps (n + 1) (growGap n (n + 1) 1 / 3) = l ++ [1] := by
  have hgrow : growGap n (n + 1) 1 = growGap n n (gapAt 2) := by
    rw [growGap, if_pos (Nat.succ_le_of_lt hn)]
    rfl
  obtain ⟨j, hj, h2, hjn⟩ := growGap_gapAt n n 2
  obtain ⟨j, rfl⟩ : ∃ i, j = i + 2 := ⟨j - 2, by omega⟩
  rw [hgrow, hj, gapAt_succ_div]
  exact exists_gaps_gapAt (by omega)

include htrans htotal in
/-- The sorted array is in order when the comparison is total and transitive. -/
theorem pairwise_sortArray (n : ℕ) (a : ℕ → α) :
    (toList n (sortArray le n a)).Pairwise fun x y => le x y = true := by
  rcases Nat.eq_zero_or_pos n with rfl | hn
  · exact List.Pairwise.nil
  · obtain ⟨gs, hgs⟩ := exists_gaps hn
    have hord : Ordered le (n - 1) (sortArray le n a) := by
      unfold sortArray
      rw [hgs, List.foldl_append]
      exact ordered_pass htrans htotal _
    unfold toList
    rw [List.pairwise_map]
    apply List.Pairwise.imp_of_mem _ List.pairwise_lt_range
    intro i j _ hj hij
    rw [List.mem_range] at hj
    exact hord i j hij (by omega)

include htrans htotal in
/-- The sorted list is in order when the comparison is total and transitive. -/
theorem pairwise_shellSort (l : List α) : (shellSort le l).Pairwise fun x y => le x y = true := by
  cases l with
  | nil => exact List.Pairwise.nil
  | cons x l => exact pairwise_sortArray htrans htotal _ _

end Sorted

/-! ## The elements matter only through the comparison -/

section Map

variable {le : α → α → Bool} {le' : β → β → Bool} {f : α → β}

/-- Sinking commutes with a map that respects the comparison. -/
lemma map_sink (hf : ∀ x y, le' (f x) (f y) = le x y) (gap k p : ℕ) (a : ℕ → α) :
    sink le' gap k p (f ∘ a) = f ∘ sink le gap k p a := by
  induction k generalizing p a with
  | zero => rfl
  | succ k ih =>
    have hswap : swap (f ∘ a) (p - gap) p = f ∘ swap a (p - gap) p := by
      funext k
      unfold swap
      dsimp only [Function.comp]
      split
      · rfl
      · split <;> rfl
    unfold sink
    simp only [Function.comp_apply, hf, hswap, ih]
    split <;> rfl

/-- Sorting an array commutes with a map that respects the comparison. -/
lemma map_sortArray (hf : ∀ x y, le' (f x) (f y) = le x y) (n : ℕ) (a : ℕ → α) :
    sortArray le' n (f ∘ a) = f ∘ sortArray le n a := by
  unfold sortArray
  generalize gaps (n + 1) (growGap n (n + 1) 1 / 3) = l
  induction l generalizing a with
  | nil => rfl
  | cons gap l ih =>
    have hpass : pass le' n (f ∘ a) gap = f ∘ pass le n a gap := by
      unfold pass
      generalize List.range' gap (n - gap) = is
      induction is generalizing a with
      | nil => rfl
      | cons i is ih' =>
        rw [List.foldl_cons, List.foldl_cons, map_sink hf]
        exact ih' _
    rw [List.foldl_cons, List.foldl_cons, hpass]
    exact ih _

/-- Sorting commutes with a map that respects the comparison. -/
lemma map_shellSort (hf : ∀ x y, le' (f x) (f y) = le x y) (l : List α) :
    shellSort le' (l.map f) = (shellSort le l).map f := by
  cases l with
  | nil => rfl
  | cons x l =>
    unfold shellSort
    have harray : (fun k : ℕ => (((x :: l).map f)[k]?).getD (f x)) =
        f ∘ fun k : ℕ => ((x :: l)[k]?).getD x := by
      funext k
      dsimp only [Function.comp]
      rw [List.getElem?_map]
      cases (x :: l)[k]? <;> rfl
    rw [List.map_cons] at harray ⊢
    dsimp only
    rw [harray, List.map_map]
    have hlen : (f x :: l.map f).length = (x :: l).length := by simp
    rw [hlen, map_sortArray hf]

end Map

/-! ## Only the elements of the array matter -/

section Congr

variable {le : α → α → Bool} {a b : ℕ → α} {n : ℕ}

/-- Sinking does the same in two arrays that have the same elements below `n`. -/
lemma sink_congr (h : ∀ k < n, a k = b k) {gap m p : ℕ} (hp : p < n) :
    ∀ k < n, sink le gap m p a k = sink le gap m p b k := by
  induction m generalizing p a b with
  | zero => exact h
  | succ m ih =>
    have hp' : p - gap < n := by omega
    unfold sink
    rw [h p hp, h (p - gap) hp']
    split
    · apply ih _ hp'
      intro k hk
      unfold swap
      rw [h p hp, h (p - gap) hp', h k hk]
    · exact h

/-- Sorting gives the same in two arrays that have the same elements below `n`. -/
lemma sortArray_congr (h : ∀ k < n, a k = b k) :
    ∀ k < n, sortArray le n a k = sortArray le n b k := by
  unfold sortArray
  generalize gaps (n + 1) (growGap n (n + 1) 1 / 3) = l
  induction l generalizing a b with
  | nil => exact h
  | cons gap l ih =>
    apply ih
    unfold pass
    have hlt : ∀ i ∈ List.range' gap (n - gap), i < n := by
      intro i hi
      rw [List.mem_range'_1] at hi
      omega
    generalize List.range' gap (n - gap) = is at hlt
    induction is generalizing a b with
    | nil => exact h
    | cons i is ih' =>
      exact ih' (sink_congr h (hlt i List.mem_cons_self)) fun j hj =>
        hlt j (List.mem_cons_of_mem i hj)

/-- Sorting an array and reading off its elements is sorting the list of its elements. -/
theorem toList_sortArray_eq : toList n (sortArray le n a) = shellSort le (toList n a) := by
  cases hl : toList n a with
  | nil =>
    have hn : n = 0 := by simpa [toList] using hl
    rw [hn]
    rfl
  | cons x l =>
    have hlen : (x :: l).length = n := by rw [← hl, toList, List.length_map, List.length_range]
    unfold shellSort toList
    dsimp only
    rw [hlen]
    apply List.map_congr_left
    intro k hk
    rw [List.mem_range] at hk
    apply sortArray_congr _ k hk
    intro j hj
    rw [← hl, toList, List.getElem?_map, List.getElem?_range hj]
    rfl

end Congr

end ShellSort
