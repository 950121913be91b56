import Cgkits.Lib.Region
import Mathlib.Data.Int.Notation
import Mathlib.Data.List.Basic
import Mathlib.Order.Basic

/-!
# Bounded concatenation (`com.c`)

`com_concat` writes the characters of its arguments into an array until the room is used up, and a
null character behind them.  The result is computed from the argument that has been fetched last.
This is the first one that has not been looked at, not the one in which the room ended, so the
result tells that something was cut off only when there is such an argument and it is not empty:
`comConcat_iff`.
-/

namespace Support

variable {r : Region UInt8} {args : List (List UInt8)}

/-! ## The function -/

/-- The inner loop: the characters of `src` that are left, `size`, `dst` and the array. -/
def copyArg : List UInt8 → ℤ → ℕ → Region UInt8 → Option (List UInt8 × ℤ × ℕ × Region UInt8)
  | [], size, dst, r => some ([], size, dst, r)
  | c :: src, size, dst, r =>
    if 1 < size then (r.write dst c).bind fun r => copyArg src (size - 1) (dst + 1) r
    else some (c :: src, size - 1, dst, r)

/-- The outer loop, with the arguments that have not been fetched: the last one that was fetched,
`size`, `dst` and the array. -/
def concatLoop : List (List UInt8) → ℤ → ℕ → Region UInt8 →
    Option (Option (List UInt8) × ℤ × ℕ × Region UInt8)
  | [], size, dst, r => some (none, size, dst, r)
  | src :: args, size, dst, r =>
    if 1 < size then (copyArg src size dst r).bind fun x => concatLoop args x.2.1 x.2.2.1 x.2.2.2
    else some (some src, size, dst, r)

/-- `com_concat`: copy the strings one behind the other into `dst`; the result is the room that is
left, or -1, and the array. -/
def comConcat (size : ℤ) (args : List (List UInt8)) (r : Region UInt8) :
    Option (ℤ × Region UInt8) := do
  let (src, size, dst, r) ← concatLoop args size 0 r
  let r ← r.write dst 0
  some (if size ≤ 1 ∧ ∃ s ∈ src, s ≠ [] then -1 else size, r)

/-- The array gets the characters of the arguments as far as there is room, and a null character;
the other elements stay as they are; and the result is `-1` exactly when characters have been cut
off. -/
def Concatenates (size : ℕ) (args : List (List UInt8)) : Prop :=
  ∀ r : Region UInt8, r.size = size → ∃ ret r', comConcat size args r = some (ret, r') ∧
    r'.Holds 0 (args.flatten.take (size - 1) ++ [0]) ∧
    (∀ x, (args.flatten.take (size - 1)).length < x → r'.cell x = r.cell x) ∧
    (ret = -1 ↔ size - 1 < args.flatten.length)

/-- The argument behind the one with which the room is used up is there and is not empty. -/
def Follows (room : ℕ) (args : List (List UInt8)) : Prop :=
  ∃ k s, args[k]? = some s ∧ s ≠ [] ∧ room ≤ (args.take k).flatten.length ∧
    ∀ j, j < k → (args.take j).flatten.length < room

/-! ## The loops -/

/-- The inner loop copies as many characters as there is room for. -/
lemma copyArg_eq (src : List UInt8) {room dst : ℕ} (hfit : dst + room < r.size) :
    ∃ src' size' r', copyArg src (room + 1 : ℕ) dst r =
      some (src', size', dst + (src.take room).length, r') ∧
      Region.writeAll (src.take room) dst r = some r' ∧ size' = if src.length ≤ room then
        ((room - src.length + 1 : ℕ) : ℤ) else 0 := by
  induction src generalizing room dst r with
  | nil => exact ⟨[], (room + 1 : ℕ), r, by simp [copyArg], by simp [Region.writeAll], by simp⟩
  | cons c src ih =>
    cases room with
    | zero => exact ⟨c :: src, 0, r, rfl, rfl, rfl⟩
    | succ room =>
      have hwrite := Region.write_eq (r := r) (show dst < r.size by omega) c
      obtain ⟨src', size', r', hcopy, hall, hsize⟩ :=
        @ih { r with cell := Function.update r.cell dst c } room (dst + 1)
          (by change _ < r.size; omega)
      refine ⟨src', size', r', ?_, ?_, ?_⟩
      · have hone : (1 : ℤ) < ((room + 1 + 1 : ℕ) : ℤ) := by omega
        have hsub : ((room + 1 + 1 : ℕ) : ℤ) - 1 = ((room + 1 : ℕ) : ℤ) := by omega
        rw [copyArg, if_pos hone, hsub, hwrite, Option.bind_some, hcopy, List.take_succ_cons,
          List.length_cons, Nat.add_assoc, Nat.add_comm 1]
      · rw [List.take_succ_cons, Region.writeAll, hwrite]
        exact hall
      · simp only [hsize, List.length_cons, Nat.add_le_add_iff_right, Nat.add_sub_add_right]

/-- Without room the next argument is fetched, and nothing else is done. -/
lemma concatLoop_full (args : List (List UInt8)) {size : ℤ} (dst : ℕ) (h : size ≤ 1) :
    concatLoop args size dst r = some (args.head?, size, dst, r) := by
  cases args with
  | nil => rfl
  | cons src args => exact if_neg (Int.not_lt.mpr h)

/-- Without room the next argument is the one that follows. -/
lemma follows_zero : Follows 0 args ↔ ∃ s ∈ args.head?, s ≠ [] := by
  constructor
  · rintro ⟨k, s, hk, hs, -, hleast⟩
    cases k with
    | zero => exact ⟨s, List.head?_eq_getElem?.trans hk, hs⟩
    | succ k => exact absurd (hleast 0 (Nat.succ_pos k)) (Nat.not_lt_zero _)
  · rintro ⟨s, hs, hne⟩
    exact ⟨0, s, List.head?_eq_getElem?.symm.trans hs, hne, Nat.zero_le _, nofun⟩

/-- An argument that follows uses up as much of the room as it is long. -/
lemma follows_cons {room : ℕ} (h : 0 < room) (s : List UInt8) :
    Follows room (s :: args) ↔ Follows (room - s.length) args := by
  have hlen :
      ∀ k, ((s :: args).take (k + 1)).flatten.length = s.length + (args.take k).flatten.length := by
    intro k
    rw [List.take_succ_cons, List.flatten_cons, List.length_append]
  constructor
  · rintro ⟨k, t, hk, ht, hroom, hleast⟩
    cases k with
    | zero => exact absurd hroom (Nat.not_le_of_lt h)
    | succ k =>
      refine ⟨k, t, hk, ht, ?_, fun j hj => ?_⟩
      · rw [hlen] at hroom
        omega
      · have hlt := hleast (j + 1) (Nat.succ_lt_succ hj)
        rw [hlen] at hlt
        omega
  · rintro ⟨k, t, hk, ht, hroom, hleast⟩
    refine ⟨k + 1, t, hk, ht, ?_, fun j hj => ?_⟩
    · rw [hlen]
      omega
    · cases j with
      | zero => exact h
      | succ j =>
        rw [hlen]
        have hlt := hleast j (Nat.lt_of_succ_lt_succ hj)
        omega

/-- The outer loop copies as many characters as there is room for.  Afterwards the room is used up,
and the argument that was fetched last is not empty, exactly when such an argument follows. -/
lemma concatLoop_eq (args : List (List UInt8)) {room dst : ℕ} (hfit : dst + room < r.size) :
    ∃ src size' r', concatLoop args (room + 1 : ℕ) dst r =
      some (src, size', dst + (args.flatten.take room).length, r') ∧
      Region.writeAll (args.flatten.take room) dst r = some r' ∧ 0 ≤ size' ∧
      ((size' ≤ 1 ∧ ∃ s ∈ src, s ≠ []) ↔ Follows room args) := by
  induction args generalizing room dst r with
  | nil =>
    refine ⟨none, (room + 1 : ℕ), r, by simp [concatLoop], by simp [Region.writeAll], by omega, ?_⟩
    refine iff_of_false (fun h => by simp at h) ?_
    rintro ⟨k, s, hk, -⟩
    simp at hk
  | cons s args ih =>
    by_cases hroom : room = 0
    · subst hroom
      refine ⟨some s, 1, r, if_neg (by decide), rfl, by decide, ?_⟩
      rw [follows_zero]
      exact and_iff_right (Int.le_refl 1)
    · have hone : (1 : ℤ) < ((room + 1 : ℕ) : ℤ) := by omega
      obtain ⟨src', size', r₁, hcopy, hall, hsize⟩ := copyArg_eq s hfit
      have hsize₁ := Region.size_writeAll hall
      rw [follows_cons (Nat.pos_of_ne_zero hroom), concatLoop, if_pos hone, hcopy, Option.bind_some]
      by_cases hlen : s.length ≤ room
      · -- the argument has been copied, and there may be room for the next one
        have htake : (s :: args).flatten.take room = s ++ args.flatten.take (room - s.length) := by
          rw [List.flatten_cons, List.take_append, List.take_of_length_le hlen]
        rw [List.take_of_length_le hlen] at hall ⊢
        rw [if_pos hlen] at hsize
        obtain ⟨src, size'', r', hloop, hall', hnonneg, hiff⟩ :=
          @ih r₁ (room - s.length) (dst + s.length) (by omega)
        refine ⟨src, size'', r', ?_, ?_, hnonneg, hiff⟩
        · rw [hsize, hloop, htake, List.length_append, Nat.add_assoc]
        · rw [htake, Region.writeAll_append, hall, Option.bind_some, hall']
      · -- the room has ended in this argument
        have htake : (s :: args).flatten.take room = s.take room := by
          rw [List.flatten_cons, List.take_append_of_le_length (by omega)]
        rw [if_neg hlen] at hsize
        have hzero : room - s.length = 0 := by omega
        subst hsize
        refine ⟨args.head?, 0, r₁, ?_, ?_, Int.le_refl 0, ?_⟩
        · rw [concatLoop_full args _ (show (0 : ℤ) ≤ 1 by decide), htake]
        · rw [htake, hall]
        · rw [hzero, follows_zero]
          exact and_iff_right (show (0 : ℤ) ≤ 1 by decide)

/-! ## The result -/

/-- When an argument follows, its characters are cut off. -/
lemma Follows.lt {room : ℕ} (h : Follows room args) : room < args.flatten.length := by
  obtain ⟨k, s, hk, hs, hroom, -⟩ := h
  have hdrop : args.drop k = s :: args.drop (k + 1) := by
    obtain ⟨hlt, hget⟩ := List.getElem?_eq_some_iff.mp hk
    rw [List.drop_eq_getElem_cons hlt, hget]
  have hlen :
      args.flatten.length = (args.take k).flatten.length +
      (s.length + (args.drop (k + 1)).flatten.length) := by
    conv_lhs => rw [← List.take_append_drop k args, List.flatten_append, List.length_append, hdrop,
      List.flatten_cons, List.length_append]
  have hpos := List.length_pos_of_ne_nil hs
  omega

/-- What `com_concat` does: everything but the result is as it should be, and the result is `-1`
exactly when an argument follows the one with which the room is used up. -/
lemma comConcat_eq {size : ℕ} (h : 1 ≤ size) (args : List (List UInt8)) (hsize : r.size = size) :
    ∃ ret r', comConcat size args r = some (ret, r') ∧
      r'.Holds 0 (args.flatten.take (size - 1) ++ [0]) ∧
      (∀ x, (args.flatten.take (size - 1)).length < x → r'.cell x = r.cell x) ∧
      (ret = -1 ↔ Follows (size - 1) args) := by
  obtain ⟨room, rfl⟩ : ∃ room, size = room + 1 := ⟨size - 1, by omega⟩
  rw [Nat.add_sub_cancel]
  have hfit : 0 + room < r.size := by omega
  obtain ⟨src, size', r₁, hloop, hall, hnonneg, hiff⟩ := concatLoop_eq args hfit
  rw [Nat.zero_add] at hloop
  have hlen : (args.flatten.take room).length < r₁.size := by
    rw [Region.size_writeAll hall, hsize]
    exact Nat.lt_succ_of_le (List.length_take_le _ _)
  obtain ⟨r', hr'⟩ := Region.exists_writeAll (r := r₁) [(0 : UInt8)] (Nat.succ_le_of_lt hlen)
  -- the characters and the null character are one write
  have hwrites : Region.writeAll (args.flatten.take room ++ [0]) 0 r = some r' := by
    rw [Region.writeAll_append, hall, Option.bind_some, Nat.zero_add, hr']
  rw [Region.writeAll_singleton] at hr'
  refine ⟨if size' ≤ 1 ∧ ∃ s ∈ src, s ≠ [] then -1 else size', r',
    ?_, Region.holds_writeAll hwrites, fun x hx => ?_, ?_⟩
  · rw [comConcat, hloop]
    change (r₁.write _ 0).bind (fun r => some (_, r)) = _
    rw [hr']
    rfl
  · refine Region.cell_writeAll hwrites (Or.inr ?_)
    rw [List.length_append, List.length_singleton, Nat.zero_add]
    exact hx
  · rw [← hiff]
    split
    · rename_i hcut
      exact iff_of_true rfl hcut
    · rename_i hcut
      refine iff_of_false (fun h => ?_) hcut
      omega

/-- `com_concat` does what it should do exactly when nothing is cut off, or the argument behind the
one with which the room is used up is there and is not empty. -/
theorem comConcat_iff {size : ℕ} (h : 1 ≤ size) (args : List (List UInt8)) :
    Concatenates size args ↔ args.flatten.length ≤ size - 1 ∨ Follows (size - 1) args := by
  constructor
  · intro hcat
    obtain ⟨ret, r', heq, -, -, hret⟩ := hcat ⟨size, fun _ => 0⟩ rfl
    obtain ⟨ret₂, r₂, heq₂, -, -, hret₂⟩ := comConcat_eq h args (r := ⟨size, fun _ => 0⟩) rfl
    rw [heq] at heq₂
    cases heq₂
    by_cases hcut : size - 1 < args.flatten.length
    · exact Or.inr (hret₂.mp (hret.mpr hcut))
    · exact Or.inl (Nat.le_of_not_lt hcut)
  · intro hcond r hr
    obtain ⟨ret, r', heq, hholds, hframe, hret⟩ := comConcat_eq h args hr
    refine ⟨ret, r', heq, hholds, hframe, hret.trans ?_⟩
    rcases hcond with hfit | hfollows
    · exact iff_of_false (fun h => absurd h.lt (Nat.not_lt_of_le hfit)) (Nat.not_lt_of_le hfit)
    · exact iff_of_true hfollows hfollows.lt

/-- The strings `ab` and `c`, for which there is room for two characters. -/
theorem comConcat_twoStrings :
    Concatenates 3 [[97, 98], [99]] ↔ [[97, 98], [99]].flatten.length ≤ 3 - 1 ∨ Follows (3 - 1)
    [[97, 98], [99]] :=
  comConcat_iff (by decide) _

/-- The string `abc`, for which there is room for two characters: the result is not `-1`. -/
theorem not_comConcat : ¬ ∀ (size : ℕ) (args : List (List UInt8)), 1 ≤ size →
    Concatenates size args := by
  intro h
  have hno : ¬ Follows 2 [[97, 98, 99]] := by
    rintro ⟨k, s, hk, -, hroom, -⟩
    cases k with
    | zero => exact absurd hroom (by decide)
    | succ k => simp at hk
  obtain ⟨ret, r', heq, -, -, hret⟩ := h 3 [[97, 98, 99]] (by decide) ⟨3, fun _ => 0⟩ rfl
  obtain ⟨ret₂, r₂, heq₂, -, -, hret₂⟩ :=
    comConcat_eq (by decide : 1 ≤ 3) [[97, 98, 99]] (r := ⟨3, fun _ => 0⟩) rfl
  rw [heq] at heq₂
  cases heq₂
  exact hno (hret₂.mp (hret.mpr (by decide)))

end Support
