import Mathlib.Data.Finset.Card
import Mathlib.Algebra.BigOperators.Intervals
import Mathlib.Tactic.Ring

/-!
# Sets of numbers as maps of words

A set of natural numbers is kept as a list of words of `w` bits; the number `x` is the bit `x % w`
of the word `x / w`. Behind the end of the list all words are zero, so that maps of different
lengths can be compared word by word: `word` is this infinite sequence of words, and every lemma
about an operation needs only what the operation does to it.
-/

namespace BitMap

open Finset

variable {w : ℕ}

/-- The word with the index `k`, and zero behind the end of the list. -/
def word (ws : List (BitVec w)) (k : ℕ) : BitVec w := ws[k]?.getD 0#w

/-- The bit with the number `x`, which is bit `x % w` of word `x / w`. -/
def bit (ws : List (BitVec w)) (x : ℕ) : Bool := (word ws (x / w)).getLsbD (x % w)

/-- The set that a bit map stands for: the numbers whose bits are set. -/
def toFinset (ws : List (BitVec w)) : Finset ℕ := (range (ws.length * w)).filter (fun x => bit ws x)

variable {ws vs us : List (BitVec w)} {k x : ℕ}

/-! ## Words -/

/-- A word inside the list is the one at its index. -/
lemma getElem?_eq_word (h : k < ws.length) : ws[k]? = some (word ws k) := by
  unfold word
  rw [List.getElem?_eq_getElem h, Option.getD_some]

/-- The words behind the end of the list are zero. -/
lemma word_of_le (h : ws.length ≤ k) : word ws k = 0#w := by
  unfold word
  rw [List.getElem?_eq_none h, Option.getD_none]

/-- Words of zero at the end of a list do not change any word. -/
lemma word_append_replicate (ws : List (BitVec w)) (n k : ℕ) :
    word (ws ++ List.replicate n 0#w) k = word ws k := by
  by_cases hk : k < ws.length
  · unfold word
    rw [List.getElem?_append_left hk]
  · push Not at hk
    rw [word_of_le hk]
    unfold word
    rw [List.getElem?_append_right hk, List.getElem?_replicate]
    split <;> rfl

/-- Every word of a map of zeros is zero, also behind the end of the map. -/
lemma word_replicate (n k : ℕ) : word (List.replicate n 0#w) k = 0#w :=
  (word_append_replicate [] n k).trans (word_of_le (Nat.zero_le k))

/-- When one word is replaced, the others stay as they are. -/
lemma word_set {a : BitVec w} {j : ℕ} (hk : k < ws.length) : word (ws.set k a) j = if j = k then
    a else word ws j := by
  unfold word
  split
  · rw [‹j = k›, List.getElem?_set_self hk, Option.getD_some]
  · rw [List.getElem?_set_ne (Ne.symm ‹_›)]

/-! ## Bits -/

/-- A number that is given by a word and a place within it has the bit at this place. -/
lemma bit_mul_add {j : ℕ} (hj : j < w) : bit ws (k * w + j) = (word ws k).getLsbD j := by
  have hdiv : (k * w + j) / w = k := by
    rw [Nat.mul_comm, Nat.mul_add_div (by omega), Nat.div_eq_of_lt hj, Nat.add_zero]
  have hmod : (k * w + j) % w = j := by rw [Nat.mul_comm, Nat.mul_add_mod, Nat.mod_eq_of_lt hj]
  unfold bit
  rw [hdiv, hmod]

/-- No bit is set behind the end of the list. -/
lemma bit_of_le (h : ws.length * w ≤ x) : bit ws x = false := by
  unfold bit
  rcases Nat.eq_zero_or_pos w with rfl | hw
  · exact BitVec.getLsbD_of_ge _ _ (Nat.zero_le _)
  · rw [word_of_le ((Nat.le_div_iff_mul_le hw).mpr h)]
    exact BitVec.getLsbD_zero

/-- A number is a member exactly when its bit is set. -/
@[simp] lemma mem_toFinset : x ∈ toFinset ws ↔ bit ws x = true := by
  unfold toFinset
  rw [mem_filter, mem_range]
  refine ⟨fun h => h.2, fun h => ⟨?_, h⟩⟩
  by_contra hx
  rw [bit_of_le (Nat.le_of_not_lt hx)] at h
  cases h

/-- Membership is decided by looking at the bit. -/
lemma decide_mem_toFinset : decide (x ∈ toFinset ws) = bit ws x :=
  Bool.eq_iff_iff.mpr (decide_eq_true_iff.trans mem_toFinset)

/-- The members are numbers that have a bit in the map. -/
lemma lt_of_mem_toFinset (h : x ∈ toFinset ws) : x < ws.length * w :=
  mem_range.mp (mem_filter.mp h).1

/-- Maps with the same words stand for the same set. -/
lemma toFinset_congr (h : ∀ k, word ws k = word vs k) : toFinset ws = toFinset vs := by
  ext x
  rw [mem_toFinset, mem_toFinset]
  unfold bit
  rw [h]

/-- A map of zeros stands for the empty set. -/
lemma toFinset_replicate (n : ℕ) : toFinset (List.replicate n 0#w) = ∅ := by
  ext x
  rw [mem_toFinset]
  unfold bit
  rw [word_replicate, BitVec.getLsbD_zero]
  simp

/-- The words of one set are included in those of the other. -/
lemma toFinset_subset_iff : toFinset ws ⊆ toFinset vs ↔
    ∀ k, word ws k &&& word vs k = word ws k := by
  constructor
  · intro h k
    refine BitVec.eq_of_getLsbD_eq fun j hj => ?_
    have hbit := @h (k * w + j)
    rw [mem_toFinset, mem_toFinset, bit_mul_add hj, bit_mul_add hj] at hbit
    rw [BitVec.getLsbD_and]
    by_cases hws : (word ws k).getLsbD j = true
    · rw [hws, hbit hws, Bool.and_true]
    · rw [Bool.not_eq_true] at hws
      rw [hws, Bool.false_and]
  · intro h x hx
    rw [mem_toFinset] at hx ⊢
    unfold bit at hx ⊢
    rw [← h, BitVec.getLsbD_and, Bool.and_eq_true] at hx
    exact hx.2

/-- Two maps stand for the same set exactly when they have the same words. -/
lemma toFinset_eq_iff : toFinset ws = toFinset vs ↔ ∀ k, word ws k = word vs k := by
  refine ⟨fun h k => ?_, toFinset_congr⟩
  have hle := toFinset_subset_iff.mp h.subset k
  have hge := toFinset_subset_iff.mp h.symm.subset k
  rw [← hle, BitVec.and_comm, hge]

/-- Two words differ where one of the sets has a member that the other has not. -/
lemma word_ne_iff : word ws k ≠ word vs k ↔ ∃ x ∈ symmDiff (toFinset ws)
    (toFinset vs), x / w = k := by
  have hmem : ∀ x, x ∈ symmDiff (toFinset ws) (toFinset vs) ↔ bit ws x ≠ bit vs x := by
    intro x
    rw [mem_symmDiff, mem_toFinset, mem_toFinset]
    cases bit ws x <;> cases bit vs x <;> decide
  constructor
  · intro hne
    by_contra hall
    refine hne (BitVec.eq_of_getLsbD_eq fun j hj => ?_)
    by_contra hbit
    refine hall ⟨k * w + j, (hmem _).mpr ?_, ?_⟩
    · rw [bit_mul_add hj, bit_mul_add hj]
      exact hbit
    · rw [Nat.mul_comm, Nat.mul_add_div (by omega), Nat.div_eq_of_lt hj, Nat.add_zero]
  · rintro ⟨x, hx, rfl⟩ heq
    refine (hmem x).mp hx ?_
    unfold bit
    rw [heq]

/-- Two words have a bit in common where the sets have a member in common. -/
lemma word_and_ne_zero_iff (hw : 0 < w) :
    word ws k &&& word vs k ≠ 0#w ↔ ∃ x ∈ toFinset ws ∩ toFinset vs, x / w = k := by
  constructor
  · intro hne
    by_contra hall
    refine hne (BitVec.eq_of_getLsbD_eq fun j hj => ?_)
    rw [BitVec.getLsbD_and, BitVec.getLsbD_zero]
    by_contra hbit
    rw [Bool.not_eq_false, Bool.and_eq_true, ← bit_mul_add hj, ← bit_mul_add hj] at hbit
    refine hall ⟨k * w + j, mem_inter.mpr ⟨mem_toFinset.mpr hbit.1, mem_toFinset.mpr hbit.2⟩, ?_⟩
    rw [Nat.mul_comm, Nat.mul_add_div hw, Nat.div_eq_of_lt hj, Nat.add_zero]
  · rintro ⟨x, hx, rfl⟩ hzero
    rw [mem_inter, mem_toFinset, mem_toFinset] at hx
    have hbit : (word ws (x / w) &&& word vs (x / w)).getLsbD (x % w) = true := by
      rw [BitVec.getLsbD_and, Bool.and_eq_true]
      exact hx
    rw [hzero, BitVec.getLsbD_zero] at hbit
    cases hbit

/-! ## Operations -/

/-- An operation on words that works bit by bit, with `g` on each bit. -/
def Bitwise (f : BitVec w → BitVec w → BitVec w) (g : Bool → Bool → Bool) : Prop :=
  ∀ u v, ∀ j < w, (f u v).getLsbD j = g (u.getLsbD j) (v.getLsbD j)

/-- An operation that works bit by bit on the words works bit by bit on the maps. -/
lemma bit_of_bitwise {f : BitVec w → BitVec w → BitVec w} {g : Bool → Bool → Bool}
    (hf : Bitwise f g) (hw : 0 < w) (h : ∀ k, word us k = f (word ws k) (word vs k)) (x : ℕ) :
    bit us x = g (bit ws x) (bit vs x) := by
  unfold bit
  rw [h]
  exact hf _ _ _ (Nat.mod_lt x hw)

/-- The bitwise or of the words is the union of the sets. -/
lemma toFinset_or (hw : 0 < w) (h : ∀ k, word us k = word ws k ||| word vs k) :
    toFinset us = toFinset ws ∪ toFinset vs := by
  ext x
  have hor : Bitwise (w := w) (· ||| ·) or := fun u v j _ => BitVec.getLsbD_or
  rw [mem_union, mem_toFinset, mem_toFinset, mem_toFinset, bit_of_bitwise hor hw h, Bool.or_eq_true]

/-- The bitwise and of the words is the intersection of the sets. -/
lemma toFinset_and (hw : 0 < w) (h : ∀ k, word us k = word ws k &&& word vs k) :
    toFinset us = toFinset ws ∩ toFinset vs := by
  ext x
  have hand : Bitwise (w := w) (· &&& ·) and := fun u v j _ => BitVec.getLsbD_and
  rw [mem_inter, mem_toFinset, mem_toFinset, mem_toFinset, bit_of_bitwise hand hw h,
    Bool.and_eq_true]

/-- The bitwise exclusive or of the words is the symmetric difference of the sets. -/
lemma toFinset_xor (hw : 0 < w) (h : ∀ k, word us k = word ws k ^^^ word vs k) :
    toFinset us = symmDiff (toFinset ws) (toFinset vs) := by
  ext x
  have hxor : Bitwise (w := w) (· ^^^ ·) xor := fun u v j _ => BitVec.getLsbD_xor
  rw [mem_symmDiff, mem_toFinset, mem_toFinset, mem_toFinset, bit_of_bitwise hxor hw h]
  cases bit ws x <;> cases bit vs x <;> decide

/-- Two numbers that are in the same word at the same place are equal. -/
lemma eq_of_div_of_mod {y : ℕ} (hdiv : y / w = x / w) (hmod : x % w = y % w) : y = x := by
  rw [← Nat.div_add_mod y w, ← Nat.div_add_mod x w, hdiv, hmod]

/-- The word of a number that is in the map is a word of the list. -/
lemma div_lt_length (hx : x < ws.length * w) : x / w < ws.length :=
  Nat.div_lt_of_lt_mul (Nat.mul_comm _ _ ▸ hx)

/-- Setting the bit of `x` adds `x` to the set. -/
lemma toFinset_insert (hx : x < ws.length * w) :
    toFinset (ws.set (x / w) (word ws (x / w) ||| 1#w <<< (x % w))) = insert x (toFinset ws) := by
  have hw : 0 < w := by
    by_contra hw
    obtain rfl : w = 0 := by omega
    omega
  ext y
  rw [mem_insert, mem_toFinset, mem_toFinset]
  unfold bit
  rw [word_set (div_lt_length hx)]
  split
  · have hbit : (1#w <<< (x % w)).getLsbD (y % w) = decide (x % w = y % w) := by
      rw [← BitVec.twoPow_eq, BitVec.getLsbD_twoPow, decide_eq_true (Nat.mod_lt x hw),
        Bool.true_and]
    rw [BitVec.getLsbD_or, hbit, Bool.or_eq_true, decide_eq_true_iff, ‹y / w = x / w›, or_comm]
    refine or_congr_left ⟨fun h => eq_of_div_of_mod ‹_› h, fun h => ?_⟩
    rw [h]
  · refine ⟨fun h => .inr h, fun h => h.resolve_left ?_⟩
    rintro rfl
    exact ‹¬ y / w = y / w› rfl

/-- Clearing the bit of `x` takes `x` out of the set. -/
lemma toFinset_erase (hx : x < ws.length * w) :
    toFinset (ws.set (x / w) (word ws (x / w) &&& ~~~(1#w <<< (x % w)))) =
    (toFinset ws).erase x := by
  have hw : 0 < w := by
    by_contra hw
    obtain rfl : w = 0 := by omega
    omega
  ext y
  rw [mem_erase, mem_toFinset, mem_toFinset]
  unfold bit
  rw [word_set (div_lt_length hx)]
  split
  · have hbit : (~~~(1#w <<< (x % w))).getLsbD (y % w) = !decide (x % w = y % w) := by
      rw [BitVec.getLsbD_not, ← BitVec.twoPow_eq, BitVec.getLsbD_twoPow,
        decide_eq_true (Nat.mod_lt x hw), decide_eq_true (Nat.mod_lt y hw), Bool.true_and,
        Bool.true_and]
    rw [BitVec.getLsbD_and, hbit, Bool.and_eq_true, Bool.not_eq_true', decide_eq_false_iff_not,
      ‹y / w = x / w›, and_comm]
    refine and_congr_left' ⟨fun h hyx => h ?_, fun h hmod => h (eq_of_div_of_mod ‹_› hmod)⟩
    rw [hyx]
  · refine ⟨fun h => ⟨?_, h⟩, fun h => h.2⟩
    rintro rfl
    exact ‹¬ y / w = y / w› rfl

/-! ## The number of members -/

/-- Counting the numbers below `n * c` that satisfy `p` may be done in groups of `c`. -/
lemma card_filter_range_mul (p : ℕ → Bool) (n c : ℕ) :
    ((range (n * c)).filter (fun x => p x)).card = ∑ k ∈
    range n, ((range c).filter (fun j => p (k * c + j))).card := by
  induction n with
  | zero => simp
  | succ n ih =>
    rw [sum_range_succ, ← ih, card_filter, card_filter, card_filter, Nat.succ_mul, sum_range_add]

/-- The size of the set is the sum of the bits that are set in each group of `c` bits. -/
lemma card_toFinset {n c : ℕ} (h : n * c = ws.length * w) : (toFinset ws).card =
    ∑ k ∈ range n, ((range c).filter (fun j => bit ws (k * c + j))).card := by
  unfold toFinset
  rw [← h, card_filter_range_mul]

end BitMap
