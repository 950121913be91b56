import Mathlib.Data.List.Range
import Mathlib.Data.Int.Notation
import Mathlib.Logic.Function.Basic
import Mathlib.Tactic.Linarith

/-!
# The stack macros (`yystack.h`)

A stack is an array and a pointer that moves down with every push.  The macros whose names end in an
underscore do not look at the bounds of the array: a push on a full stack writes below it.  So the
memory is a function on all the integers, and the array is the part from `0` to `size`.
-/

namespace Parser

/-- A stack of `yystk_dcl`, which grows downwards in its array. -/
structure YyStack (α : Type) where
  /-- The memory in and around the array. -/
  cells : ℤ → α
  /-- The pointer, relative to the array. -/
  sp : ℤ
  /-- The length of the array of the stack. -/
  size : ℕ

namespace YyStack

variable {α : Type} (st : YyStack α)

/-- `yystk_clear` sets the pointer behind the end of the array. -/
def clear : YyStack α := { st with sp := st.size }

/-- `yystk_full`: the pointer is at the start of the array. -/
def Full : Prop := st.sp ≤ 0

/-- `yystk_empty`: the pointer is behind the end of the array. -/
def Empty : Prop := st.size ≤ st.sp

instance : Decidable st.Full := inferInstanceAs (Decidable (_ ≤ _))

instance : Decidable st.Empty := inferInstanceAs (Decidable (_ ≤ _))

/-- `yystk_ele`, the number of elements. -/
def ele : ℤ := st.size - st.sp

/-- `yystk_item`, the element at an offset from the top. -/
def item (offset : ℤ) : α := st.cells (st.sp + offset)

/-- `yypush_` pushes an element without a check. -/
def push_ (x : α) : YyStack α :=
  { st with cells := Function.update st.cells (st.sp - 1) x, sp := st.sp - 1 }

/-- `yypop_` pops an element without a check. -/
def pop_ : YyStack α := { st with sp := st.sp + 1 }

/-- `yypopn_` pops a number of elements without a check. -/
def popn_ (amt : ℕ) : YyStack α := { st with sp := st.sp + amt }

/-- The elements from the pointer to the end of the array, the top first. -/
def toList : List α := (List.range (st.size - st.sp).toNat).map fun k : ℕ => st.item k

variable {st}

/-- The number of the elements is the distance from the pointer to the end. -/
@[simp] lemma length_toList : st.toList.length = (st.size - st.sp).toNat := by
  unfold toList
  rw [List.length_map, List.length_range]

/-- The elements of a stack that is not empty are its top and those below. -/
lemma toList_eq_cons (h : ¬ st.Empty) : st.toList = st.item 0 :: st.pop_.toList := by
  unfold Empty at h
  have hlen : (st.size - st.sp).toNat = (st.pop_.size - st.pop_.sp).toNat + 1 := by
    change _ = (st.size - (st.sp + 1)).toNat + 1
    omega
  unfold toList
  rw [hlen, List.range_succ_eq_map, List.map_cons, List.map_map]
  refine congrArg₂ List.cons rfl (List.map_congr_left fun k _ => ?_)
  change st.cells (st.sp + (k + 1 : ℕ)) = st.cells (st.sp + 1 + k)
  congr 1
  push_cast
  omega

/-- An empty stack has no elements. -/
lemma toList_eq_nil (h : st.Empty) : st.toList = [] := by
  unfold Empty at h
  unfold toList
  rw [show (st.size - st.sp).toNat = 0 by omega]
  rfl

/-- A stack is empty exactly if it has no elements. -/
lemma toList_eq_nil_iff : st.toList = [] ↔ st.Empty := by
  refine ⟨fun h => ?_, toList_eq_nil⟩
  by_contra hne
  rw [toList_eq_cons hne] at h
  cases h

/-- When elements are popped, the first ones are dropped. -/
lemma toList_popn_ (amt : ℕ) : (st.popn_ amt).toList = st.toList.drop amt := by
  refine List.ext_getElem? fun k => ?_
  have hitem : ∀ (s : YyStack α) (k : ℕ), s.toList[k]? = if (k : ℤ) < s.size - s.sp then
    some (s.item k) else none := by
    intro s k
    unfold toList
    rw [List.getElem?_map]
    split
    · rw [List.getElem?_range (by omega), Option.map_some]
    · rw [List.getElem?_eq_none (by rw [List.length_range]; omega), Option.map_none]
  rw [List.getElem?_drop, hitem, hitem]
  have hcell : (st.popn_ amt).item k = st.item (amt + k : ℕ) := by
    change st.cells (st.sp + amt + k) = st.cells (st.sp + (amt + k : ℕ))
    congr 1
    push_cast
    omega
  rw [hcell]
  refine if_congr ?_ rfl rfl
  change (k : ℤ) < st.size - (st.sp + amt) ↔ _
  push_cast
  omega

/-- When an element is pushed, it is in front of those that were there. -/
lemma toList_push_ (h : st.sp ≤ st.size) (x : α) : (st.push_ x).toList = x :: st.toList := by
  have hne : ¬ (st.push_ x).Empty := by
    change ¬ (st.size : ℤ) ≤ st.sp - 1
    omega
  rw [toList_eq_cons hne]
  refine congrArg₂ List.cons ?_ ?_
  · change Function.update st.cells (st.sp - 1) x (st.sp - 1 + 0) = x
    rw [add_zero, Function.update_self]
  · unfold toList
    have hsp : (st.push_ x).pop_.sp = st.sp := sub_add_cancel st.sp 1
    change (List.range (st.size - (st.push_ x).pop_.sp).toNat).map _ = _
    rw [hsp]
    refine List.map_congr_left fun k _ => ?_
    change Function.update st.cells (st.sp - 1) x ((st.push_ x).pop_.sp + k) = st.cells (st.sp + k)
    rw [hsp, Function.update_of_ne (by omega)]

end YyStack

end Parser
