import Cgkits.Lib.Region
import Cgkits.Lib.ShellSort
import Mathlib

/-!
# Sorting (`syslib.c`)

`sysSsort` is `sys_ssort` with its indices as integers.  An access to an element that is not in the
array is an error, and so is a gap that does not fit into an `int`.

Without such an error the loops do what the passes of the library's Shell sort do (`sysSsort_eq`).
`SortsArrays` says what a comparison function must make of every array, and every total preorder
does (`sorts_of_preorderCmp`).
-/

namespace Support

open ShellSort (sink pass gaps growGap sortArray toList)

/-- `INT_MAX`, the largest `int`. -/
def intMax : ℤ := 2 ^ 31 - 1

/-- What goes wrong in a sort: a loop, an index or a gap. -/
inductive SortFault where
  /-- A loop of the model does not end. -/
  | endless
  /-- An element outside of the array is touched. -/
  | outside
  /-- The gap does not fit into an `int`. -/
  | overflow
deriving DecidableEq

section Model

variable {α : Type*}

/-- `*(base + j)`, which is an error outside of the array. -/
def load (r : Region α) (j : ℤ) : Except SortFault α :=
  if 0 ≤ j ∧ j < r.size then .ok (r.cell j.toNat) else .error .outside

/-- `*(base + j) = x`, where a place outside of the array is an error. -/
def store (r : Region α) (j : ℤ) (x : α) : Except SortFault (Region α) :=
  if 0 ≤ j ∧ j < r.size then .ok { r with cell := Function.update r.cell j.toNat x } else
    .error .outside

variable (cmp : α → α → ℤ)

/-- The loop over `j`: exchange an element with those a gap below it until it is in order. -/
def exchange (gap : ℤ) : ℕ → ℤ → Region α → Except SortFault (Region α)
  | 0, _, _ => .error .endless
  | fuel + 1, j, r =>
    if 0 ≤ j then
      (load r j).bind fun x => (load r (j + gap)).bind fun y =>
        if cmp x y ≤ 0 then .ok r
        else (store r j y).bind fun r => (store r (j + gap) x).bind fun r => exchange gap fuel
          (j - gap) r
    else .ok r

/-- The loop over `i`: let each element from the gap on sink to its place. -/
def insertAll (nel gap : ℤ) : ℕ → ℤ → Region α → Except SortFault (Region α)
  | 0, _, _ => .error .endless
  | fuel + 1, i, r =>
    if i < nel then
      (exchange cmp gap (nel.toNat + 2) (i - gap) r).bind (insertAll nel gap fuel (i + 1)) else
        .ok r

/-- The loop over the gaps from the largest one down to 1. -/
def allGaps (nel : ℤ) : ℕ → ℤ → Region α → Except SortFault (Region α)
  | 0, _, _ => .error .endless
  | fuel + 1, gap, r =>
    if 0 < gap then
      (insertAll cmp nel gap (nel.toNat + 2) gap r).bind (allGaps nel fuel (gap.tdiv 3)) else .ok r

/-- The loop that looks for the largest gap, which may not exceed an `int`. -/
def firstGap (nel : ℤ) : ℕ → ℤ → Except SortFault ℤ
  | 0, _ => .error .endless
  | fuel + 1, gap =>
    if gap ≤ nel then if 3 * gap + 1 ≤ intMax then firstGap nel fuel (3 * gap + 1) else
      .error .overflow
    else .ok gap

/-- `sys_ssort`: Shell sort of `nel` elements with the gaps from the largest one down. -/
def sysSsort (nel : ℤ) (r : Region α) : Except SortFault (Region α) :=
  (firstGap nel (nel.toNat + 2) 1).bind fun gap => allGaps cmp nel (nel.toNat + 2) (gap.tdiv 3) r

/-- The elements of an array as a list, from the first one to the last one. -/
def elems (r : Region α) : List α := toList r.size r.cell

/-- The comparison is a total preorder: any two elements compare, and the order is transitive. -/
structure PreorderCmp : Prop where
  /-- Of two elements one may stand before the other. -/
  total : ∀ x y, cmp x y ≤ 0 ∨ cmp y x ≤ 0
  /-- The order of the comparison is transitive. -/
  trans : ∀ x y z, cmp x y ≤ 0 → cmp y z ≤ 0 → cmp x z ≤ 0

/-- Every array for which the largest gap fits into an `int` is sorted, and no element outside of it
is touched. -/
def SortsArrays : Prop :=
  ∀ r : Region α, 3 * (r.size : ℤ) + 1 ≤ intMax → ∃ r', sysSsort cmp r.size r = .ok r' ∧
    r'.size = r.size ∧ (elems r').Perm (elems r) ∧ (elems r').Pairwise fun x y => cmp x y ≤ 0

end Model

/-! ## The loops -/

variable {α : Type*} {cmp : α → α → ℤ} {r : Region α}

/-- The comparison, as the question whether two elements may stay where they are. -/
def mayStay (cmp : α → α → ℤ) (x y : α) : Bool := decide (cmp x y ≤ 0)

/-- Reading an element of the array succeeds and returns it. -/
lemma load_eq {p : ℕ} {j : ℤ} (hj : j = p) (hp : p < r.size) : load r j = .ok (r.cell p) := by
  subst hj
  exact if_pos ⟨by omega, by omega⟩

/-- Writing an element of the array succeeds and changes this element only. -/
lemma store_eq {p : ℕ} {j : ℤ} (hj : j = p) (hp : p < r.size) (x : α) :
    store r j x = .ok { r with cell := Function.update r.cell p x } := by
  subst hj
  exact if_pos ⟨by omega, by omega⟩

/-- The two writes of an exchange swap two elements. -/
lemma update_update_eq_swap (a : ℕ → α) {p q : ℕ} (hne : p ≠ q) :
    Function.update (Function.update a p (a q)) q (a p) = ShellSort.swap a p q := by
  funext k
  unfold ShellSort.swap
  by_cases hk : k = q
  · rw [if_neg (hk ▸ hne.symm), if_pos hk, hk, Function.update_self]
  · rw [if_neg hk, Function.update_of_ne hk]
    by_cases hkp : k = p
    · rw [if_pos hkp, hkp, Function.update_self]
    · rw [if_neg hkp, Function.update_of_ne hkp]

/-- The loop over `j` lets an element sink, within the array. -/
lemma exchange_eq {gap k p fuel : ℕ} (hgap : 0 < gap) (hp : p < r.size) (hk : p ≤ k)
    (hfuel : k < fuel) :
    exchange cmp gap fuel ((p : ℤ) - gap) r = .ok { r with
      cell := sink (mayStay cmp) gap k p r.cell } := by
  induction k generalizing p fuel r with
  | zero =>
    obtain ⟨fuel, rfl⟩ : ∃ n, fuel = n + 1 := ⟨fuel - 1, by omega⟩
    rw [exchange, if_neg (by omega), sink]
  | succ k ih =>
    obtain ⟨fuel, rfl⟩ : ∃ n, fuel = n + 1 := ⟨fuel - 1, by omega⟩
    rw [exchange, sink]
    by_cases hle : gap ≤ p
    · have hj : (p : ℤ) - gap = (p - gap : ℕ) := by omega
      have hj' : (p : ℤ) - gap + gap = p := by omega
      rw [if_pos (by omega), load_eq hj (by omega), load_eq hj' hp]
      simp only [Except.bind]
      by_cases hcmp : cmp (r.cell (p - gap)) (r.cell p) ≤ 0
      · have hstay : mayStay cmp (r.cell (p - gap)) (r.cell p) = true := decide_eq_true hcmp
        rw [if_pos hcmp, if_neg (by simp [hstay])]
      · have hstay : mayStay cmp (r.cell (p - gap)) (r.cell p) = false := decide_eq_false hcmp
        rw [if_neg hcmp, if_pos ⟨hle, hstay⟩, store_eq hj (by omega)]
        dsimp only
        rw [store_eq (r := { r with cell := Function.update r.cell (p - gap) (r.cell p) }) hj' hp]
        dsimp only
        rw [update_update_eq_swap _ (by omega), hj]
        exact ih (r := { r with cell := ShellSort.swap r.cell (p - gap) p })
          (by change _ < r.size; omega) (by omega) (by omega)
    · rw [if_neg (by omega), if_neg (fun h => hle h.1)]

/-- The loop over `i` lets the elements from `i` on sink, within the array. -/
lemma insertAll_eq {n gap i m fuel : ℕ} (hgap : 0 < gap) (hr : r.size = n) (hi : gap ≤ i)
    (hm : i + m = max i n) (hfuel : m < fuel) :
    insertAll cmp n gap fuel i r =
      .ok { r with
        cell := (List.range' i m).foldl (fun a i => sink (mayStay cmp) gap i i a) r.cell } := by
  induction m generalizing i fuel r with
  | zero =>
    obtain ⟨fuel, rfl⟩ : ∃ k, fuel = k + 1 := ⟨fuel - 1, by omega⟩
    rw [insertAll, if_neg (by omega)]
    rfl
  | succ m ih =>
    obtain ⟨fuel, rfl⟩ : ∃ k, fuel = k + 1 := ⟨fuel - 1, by omega⟩
    have hin : i < n := by omega
    have hsink : exchange cmp gap (n + 2) ((i : ℤ) - gap) r =
        .ok { r with cell := sink (mayStay cmp) gap i i r.cell } :=
      exchange_eq hgap (hr ▸ hin) (Nat.le_refl i) (by omega)
    rw [insertAll, if_pos (by omega), Int.toNat_natCast, hsink]
    exact ih (r := { r with cell := sink (mayStay cmp) gap i i r.cell }) (i := i + 1) hr (by omega)
      (by omega) (by omega)

/-- The loop over `i` from the gap on is a pass of the insertion sort. -/
lemma insertAll_pass {n gap : ℕ} (hgap : 0 < gap) (hr : r.size = n) :
    insertAll cmp n gap (n + 2) gap r = .ok { r with cell := pass (mayStay cmp) n r.cell gap } :=
  insertAll_eq hgap hr (Nat.le_refl gap) (by omega) (by omega)

/-- The loop over the gaps makes the passes with the gaps from `gap` down. -/
lemma allGaps_eq {n k gap fuel : ℕ} (hr : r.size = n) (hk : gap ≤ k) (hfuel : k < fuel) :
    allGaps cmp n fuel gap r = .ok { r with
      cell := (gaps k gap).foldl (pass (mayStay cmp) n) r.cell } := by
  induction k generalizing gap fuel r with
  | zero =>
    obtain ⟨fuel, rfl⟩ : ∃ m, fuel = m + 1 := ⟨fuel - 1, by omega⟩
    rw [allGaps, if_neg (by omega)]
    rfl
  | succ k ih =>
    obtain ⟨fuel, rfl⟩ : ∃ m, fuel = m + 1 := ⟨fuel - 1, by omega⟩
    rw [allGaps, gaps]
    by_cases hgap : 0 < gap
    · have hdiv : (gap : ℤ).tdiv 3 = (gap / 3 : ℕ) := rfl
      rw [if_pos (by omega), if_pos hgap, Int.toNat_natCast, insertAll_pass hgap hr, hdiv]
      exact ih (r := { r with cell := pass (mayStay cmp) n r.cell gap }) hr (by omega) (by omega)
    · rw [if_neg (by omega), if_neg hgap]
      rfl

/-- The loop for the largest gap finds the one that the abstract sort starts from. -/
lemma firstGap_eq {n k gap : ℕ} (hn : 3 * (n : ℤ) + 1 ≤ intMax) (hk : n < gap + k) :
    firstGap n (k + 1) gap = .ok (growGap n k gap : ℕ) := by
  induction k generalizing gap with
  | zero => rw [firstGap, if_neg (by omega), growGap]
  | succ k ih =>
    rw [firstGap, growGap]
    by_cases hgap : gap ≤ n
    · rw [if_pos (by omega), if_pos hgap, if_pos (by omega)]
      exact @ih (3 * gap + 1) (by omega)
    · rw [if_neg (by omega), if_neg hgap]

/-- The gap that ends the search is not much longer than the array. -/
lemma growGap_le {n k gap : ℕ} (h : gap ≤ 3 * n + 1) : growGap n k gap ≤ 3 * n + 1 := by
  induction k generalizing gap with
  | zero => exact h
  | succ k ih =>
    rw [growGap]
    split
    · exact ih (by omega)
    · exact h

/-- The function does what the passes of Shell sort do. -/
theorem sysSsort_eq (h : 3 * (r.size : ℤ) + 1 ≤ intMax) :
    sysSsort cmp r.size r = .ok { r with cell := sortArray (mayStay cmp) r.size r.cell } := by
  have hgap : firstGap r.size (r.size + 2) 1 = .ok (growGap r.size (r.size + 1) 1 : ℕ) :=
    firstGap_eq (k := r.size + 1) h (by omega)
  have hle : growGap r.size (r.size + 1) 1 ≤ 3 * r.size + 1 := growGap_le (by omega)
  have hdiv :
    ((growGap r.size (r.size + 1) 1 : ℕ) : ℤ).tdiv 3 = (growGap r.size (r.size + 1) 1 / 3 : ℕ) :=
      rfl
  rw [sysSsort, Int.toNat_natCast, hgap]
  simp only [Except.bind]
  rw [hdiv]
  exact allGaps_eq (k := r.size + 1) rfl (by omega) (by omega)

/-- With a comparison that is a total preorder every array is sorted. -/
theorem sorts_of_preorderCmp (h : PreorderCmp cmp) : SortsArrays cmp := by
  intro r hr
  refine ⟨_, sysSsort_eq hr, rfl, ShellSort.toList_sortArray _ _, ?_⟩
  have htrans : ∀ x y z, mayStay cmp x y = true → mayStay cmp y z = true →
      mayStay cmp x z = true := by
    intro x y z hxy hyz
    exact decide_eq_true (h.trans x y z (of_decide_eq_true hxy) (of_decide_eq_true hyz))
  have htotal : ∀ x y, mayStay cmp x y = true ∨ mayStay cmp y x = true := by
    intro x y
    exact (h.total x y).imp decide_eq_true decide_eq_true
  exact (ShellSort.pairwise_sortArray htrans htotal r.size r.cell).imp of_decide_eq_true

end Support
