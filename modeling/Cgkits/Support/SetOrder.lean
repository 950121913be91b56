import Cgkits.Support.Set

/-!
# The order of sets (`set_compare`)

`set_compare` looks for the first word in which two maps differ.  If both maps have this word, the
answer is the difference of the two words as an `int`, so a word is less than those that follow it
within half of the range of an `unsigned`, around the corner if need be.  If only one map has the
word, the set with the longer map is greater. `Comparable` names the three ways in which this is not
an order: two words that are opposite to each other, three words that go once around, and a map that
has ended beside a longer map of the same set.
-/

namespace Support

open BitMap

variable {σ : Sets} {s t u : SetS} {i j k : ℕ}

/-! ## The first difference -/

/-- The words of the two sets below `k` are the same. -/
def Agree (s t : SetS) (k : ℕ) : Prop := ∀ l < k, word s.map l = word t.map l

/-- The answer when the word `k` is the first one that differs. -/
def answerAt (s t : SetS) (k : ℕ) : ℤ :=
  if k < s.nwords then
    if k < t.nwords then (word s.map k - word t.map k).toInt else 1
  else -1

/-- Sets that are not equal differ first in some word. -/
lemma exists_agree (h : s.toFinset ≠ t.toFinset) :
    ∃ k, Agree s t k ∧ word s.map k ≠ word t.map k := by
  have hex : ∃ k, word s.map k ≠ word t.map k := by
    by_contra hall
    push Not at hall
    exact h (toFinset_congr hall)
  exact ⟨Nat.find hex, fun l hl => not_not.mp (Nat.find_min hex hl), Nat.find_spec hex⟩

/-- The words behind the map of a set are zero. -/
lemma SetS.Ok.word_eq_zero (hs : s.Ok) (hk : s.nwords ≤ k) : word s.map k = 0#32 :=
  word_of_le (hs.map.le.trans hk)

/-- A word that is not zero is in the map of the set. -/
lemma SetS.Ok.lt_nwords (hs : s.Ok) (hk : word s.map k ≠ 0#32) : k < s.nwords := by
  by_contra hle
  exact hk (hs.word_eq_zero (Nat.le_of_not_lt hle))

/-- The loop over the tail of the longer map finds the first word that is not zero. -/
lemma scan_returnIfSet_first {ws : List SetType} (a : ℤ) {n m : ℕ} (hlen : n + m = ws.length)
    (hk : n ≤ k) (hfirst : ∀ l, n ≤ l → l < k → word ws l = 0#32) (hword : word ws k ≠ 0#32) :
    (scan (returnIfSet ws a) n m).map (Option.getD · 0) = some a := by
  have hlt : k < ws.length := by
    by_contra hle
    exact hword (word_of_le (Nat.le_of_not_lt hle))
  have hbody : ∀ j, n ≤ j → j < n + m →
      returnIfSet ws a j = some (if word ws j ≠ 0#32 then some a else none) := by
    intro j _ hjlt
    unfold returnIfSet
    rw [getElem?_eq_word (by omega), Option.map_some]
  rw [scan_first (a := fun _ => a) hbody hk (by omega) hword fun l hl hl' =>
    not_not.mpr (hfirst l hl hl')]
  rfl

/-- The first word that differs decides the answer of `set_compare`. -/
lemma setCompare_of_agree (hi : σ[i]? = some s) (hj : σ[j]? = some t) (hs : s.Ok) (ht : t.Ok)
    (hagree : Agree s t k) (hne : word s.map k ≠ word t.map k) :
    setCompare σ i j = some (answerAt s t k) := by
  have hij : i ≠ j := by
    rintro rfl
    obtain rfl : s = t := Option.some.inj (hi.symm.trans hj)
    exact hne rfl
  obtain ⟨n, hn⟩ : ∃ n, n = min s.nwords t.nwords := ⟨_, rfl⟩
  have hbody : ∀ l, 0 ≤ l → l < 0 + n → returnIfDiffer s.map t.map l =
      some (if word s.map l ≠ word t.map l then some (word s.map l - word t.map l).toInt
      else none) := by
    intro l _ hlt
    unfold returnIfDiffer
    rw [getElem?_eq_word (show l < s.map.length by rw [hs.map]; omega),
      getElem?_eq_word (show l < t.map.length by rw [ht.map]; omega)]
    rfl
  unfold setCompare answerAt
  rw [hi, hj]
  change (if i = j then some 0 else _) = _
  rw [if_neg hij, ← hn]
  change (scan (returnIfDiffer s.map t.map) 0 n).bind _ = _
  by_cases hk : k < n
  · -- the word is in both maps
    rw [if_pos (show k < s.nwords by omega), if_pos (show k < t.nwords by omega),
        scan_first hbody (Nat.zero_le k) (by omega) hne fun l _ hl =>
      not_not.mpr (hagree l hl)]
    rfl
  · obtain ⟨r, hr, hnone, -⟩ := scan_if hbody
    have hend : r = none := hnone.mpr fun l _ hl => not_not.mpr (hagree l (by omega))
    rw [hr, hend, Option.bind_some]
    dsimp only
    by_cases hlong : 0 < s.nwords - n
    · have htzero : ∀ l, n ≤ l → word t.map l = 0#32 := fun l hl => ht.word_eq_zero (by omega)
      have hword : word s.map k ≠ 0#32 := by
        rw [← htzero k (by omega)]
        exact hne
      have hks := hs.lt_nwords hword
      rw [if_pos hlong, if_pos hks, if_neg (by omega)]
      refine scan_returnIfSet_first 1 (by rw [hs.map]; omega) (show n ≤ k by omega)
        (fun l hl hl' => ?_) hword
      rw [hagree l hl', htzero l hl]
    · have hszero : ∀ l, n ≤ l → word s.map l = 0#32 := fun l hl => hs.word_eq_zero (by omega)
      have hword : word t.map k ≠ 0#32 := by
        rw [← hszero k (by omega)]
        exact hne.symm
      have hkt := ht.lt_nwords hword
      rw [if_neg hlong, if_pos (by omega), if_neg (by omega)]
      refine scan_returnIfSet_first (-1) (by rw [ht.map]; omega) (show n ≤ k by omega)
        (fun l hl hl' => ?_) hword
      rw [← hagree l hl', hszero l hl]

/-! ## Signs -/

/-- The number `b` is at most half of the range ahead of `a`, around the corner if need be. -/
def WithinHalf (a b : ℕ) : Prop := (a < b ∧ b ≤ a + 2 ^ 31) ∨ b + 2 ^ 31 ≤ a

/-- Three numbers that are not opposite to each other and do not go once around. -/
lemma WithinHalf.trans {a b c : ℕ} (hab : WithinHalf a b) (hbc : WithinHalf b c)
    (hb : b ≠ a + 2 ^ 31) (ha : a ≠ b + 2 ^ 31) (hc : c ≠ b + 2 ^ 31) (hb' : b ≠ c + 2 ^ 31)
    (hac : a ≠ c) (h₁ : a < b → b < a + 2 ^ 31 → b < c → c < b + 2 ^ 31 → c < a + 2 ^ 31)
    (h₂ : b < c → c < b + 2 ^ 31 → c < a → a < c + 2 ^ 31 → a < b + 2 ^ 31)
    (h₃ : c < a → a < c + 2 ^ 31 → a < b → b < a + 2 ^ 31 → b < c + 2 ^ 31) : WithinHalf a c := by
  unfold WithinHalf at *
  omega

/-- The difference of two words is not positive: the second one is at most half of the range
ahead. -/
lemma toInt_sub_le_zero_iff (a b : SetType) :
    (a - b).toInt ≤ 0 ↔ a.toNat = b.toNat ∨ WithinHalf a.toNat b.toNat := by
  have ha := a.isLt
  have hb := b.isLt
  unfold WithinHalf
  rw [BitVec.toInt_eq_toNat_cond, BitVec.toNat_sub]
  split <;> omega

/-- The difference the other way round, unless the words are opposite to each other. -/
lemma toInt_sub_comm {a b : SetType} (h : b.toNat ≠ a.toNat + 2 ^ 31)
    (h' : a.toNat ≠ b.toNat + 2 ^ 31) : (a - b).toInt = -(b - a).toInt := by
  have ha := a.isLt
  have hb := b.isLt
  rw [BitVec.toInt_eq_toNat_cond, BitVec.toInt_eq_toNat_cond, BitVec.toNat_sub, BitVec.toNat_sub]
  split <;> split <;> omega

/-- The number that a word of a set is, without a sign. -/
def SetS.value (s : SetS) (k : ℕ) : ℕ := (word s.map k).toNat

/-- Two words are the same exactly if they are the same number. -/
lemma value_eq_iff : s.value k = t.value k ↔ word s.map k = word t.map k := BitVec.toNat_inj

/-- The number of a word is below `2 ^ 32`. -/
lemma SetS.value_lt (s : SetS) (k : ℕ) : s.value k < 2 ^ 32 := (word s.map k).isLt

/-- The words behind the map of a set are the number zero. -/
lemma SetS.Ok.value_eq_zero (hs : s.Ok) (hk : s.nwords ≤ k) : s.value k = 0 := by
  unfold SetS.value
  rw [hs.word_eq_zero hk]
  rfl

/-- The answer is not positive when the first set does not have the word, or when both have it and
the word of the second lies at most half of the range above that of the first. -/
lemma answerAt_le_zero_iff : answerAt s t k ≤ 0 ↔
    s.nwords ≤ k ∨
    (k < t.nwords ∧ (s.value k = t.value k ∨ WithinHalf (s.value k) (t.value k))) := by
  have hsub := toInt_sub_le_zero_iff (word s.map k) (word t.map k)
  unfold answerAt
  by_cases hs : k < s.nwords
  · rw [if_pos hs]
    by_cases ht : k < t.nwords
    · rw [if_pos ht, hsub, or_iff_right (Nat.not_le_of_lt hs), and_iff_right ht]
      rfl
    · rw [if_neg ht]
      exact iff_of_false (by decide) fun h => h.elim (Nat.not_le_of_lt hs) fun h => ht h.1
  · rw [if_neg hs]
    exact iff_of_true (by decide) (.inl (by omega))

/-! ## The order -/

/-- `set_compare` orders the sets of `σ` as its comment says: it works like `strcmp`. -/
structure ComparesLikeStrcmp (σ : Sets) : Prop where
  /-- There is an answer for every two sets. -/
  total : ∀ i < σ.length, ∀ j < σ.length, ∃ r, setCompare σ i j = some r
  /-- The answers for two sets have opposite signs. -/
  opposite : ∀ i j r r', setCompare σ i j = some r → setCompare σ j i = some r' → r.sign = -r'.sign
  /-- The order of the sets is transitive. -/
  trans : ∀ i j l r r' r'', setCompare σ i j = some r → setCompare σ j l = some r' →
    setCompare σ i l = some r'' → r ≤ 0 → r' ≤ 0 → r'' ≤ 0
  /-- Only sets with the same members are equal. -/
  zero : ∀ i j s t r, σ[i]? = some s → σ[j]? = some t → setCompare σ i j = some r →
    (r = 0 ↔ s.toFinset = t.toFinset)

/-- The words of the sets can be ordered by the signs of their differences. -/
structure Comparable (σ : Sets) : Prop where
  /-- Where two sets differ first, the words are not `2 ^ 31` apart. -/
  apart : ∀ s ∈ σ, ∀ t ∈ σ, ∀ k, Agree s t k → k < s.nwords → k < t.nwords →
    t.value k ≠ s.value k + 2 ^ 31
  /-- Where three sets differ first, the words do not go once around in steps of less than
  `2 ^ 31`. -/
  around : ∀ s ∈ σ, ∀ t ∈ σ, ∀ u ∈ σ, ∀ k, Agree s t k → Agree s u k → k < s.nwords → k < t.nwords →
    k < u.nwords → s.value k < t.value k → t.value k < s.value k + 2 ^ 31 → t.value k < u.value k →
    u.value k < t.value k + 2 ^ 31 → u.value k < s.value k + 2 ^ 31
  /-- Where a map has ended and a longer map of the same set has not, there is no word above
  `2 ^ 31`. -/
  ended : ∀ s ∈ σ, ∀ t ∈ σ, ∀ u ∈ σ, ∀ k, Agree s u k → s.nwords ≤ k → k < t.nwords →
    s.toFinset = t.toFinset → u.value k ≤ 2 ^ 31

/-- Two sets that are the same up to a word are so in either order. -/
lemma Agree.symm (h : Agree s t k) : Agree t s k := fun l hl => (h l hl).symm

/-- The answer for two sets of a client is 0 for equal sets and else comes from the first word that
differs. -/
lemma setCompare_cases (hσ : ∀ s ∈ σ, s.Ok) (hi : σ[i]? = some s) (hj : σ[j]? = some t) :
    (s.toFinset = t.toFinset ∧ setCompare σ i j = some 0) ∨
      ∃ k, Agree s t k ∧ word s.map k ≠ word t.map k ∧
        setCompare σ i j = some (answerAt s t k) := by
  have hs := hσ s (List.mem_of_getElem? hi)
  have ht := hσ t (List.mem_of_getElem? hj)
  by_cases heq : s.toFinset = t.toFinset
  · obtain ⟨r, hr, hzero⟩ := setCompare_spec hi hj hs ht
    rw [hzero.mpr heq] at hr
    exact .inl ⟨heq, hr⟩
  · obtain ⟨k, hagree, hne⟩ := exists_agree heq
    exact .inr ⟨k, hagree, hne, setCompare_of_agree hi hj hs ht hagree hne⟩

/-- Two sets agree in the words below `k` when a third one agrees with both. -/
lemma Agree.trans (h : Agree s t k) (h' : Agree t u k) : Agree s u k :=
  fun l hl => (h l hl).trans (h' l hl)

/-- The set whose map has ended is less than a different set that has been the same up to there. -/
lemma setCompare_of_ended (hσ : ∀ s ∈ σ, s.Ok) (hi : σ[i]? = some s) (hj : σ[j]? = some t)
    (hagree : Agree s t k) (hend : s.nwords ≤ k) (hne : s.toFinset ≠ t.toFinset) :
    setCompare σ i j = some (-1) ∧ setCompare σ j i = some 1 := by
  have hs := hσ s (List.mem_of_getElem? hi)
  have ht := hσ t (List.mem_of_getElem? hj)
  obtain ⟨l, hl, hword⟩ := exists_agree hne
  have hkl : k ≤ l := by
    by_contra hlt
    exact hword (hagree l (by omega))
  have hlt : l < t.nwords := ht.lt_nwords (by
    rw [← hs.word_eq_zero (hend.trans hkl)]
    exact hword.symm)
  have hless : answerAt s t l = -1 := by
    unfold answerAt
    rw [if_neg (by omega)]
  have hgreater : answerAt t s l = 1 := by
    unfold answerAt
    rw [if_pos hlt, if_neg (by omega)]
  refine ⟨?_, ?_⟩
  · rw [← hless]
    exact setCompare_of_agree hi hj hs ht hl hword
  · rw [← hgreater]
    exact setCompare_of_agree hj hi ht hs hl.symm hword.symm

/-- Signs are opposite if one number is negative exactly where the other one is positive. -/
lemma sign_eq_neg_sign_iff (r r' : ℤ) : r.sign = -r'.sign ↔
    ((r ≤ 0 ↔ 0 ≤ r') ∧ (r' ≤ 0 ↔ 0 ≤ r)) := by
  rcases Int.lt_trichotomy r 0 with h | rfl | h <;> rcases Int.lt_trichotomy r' 0 with
    h' | rfl | h' <;>
    simp [Int.sign_eq_neg_one_of_neg, Int.sign_eq_one_of_pos, *] <;> omega

/-- If `set_compare` orders the sets, it orders their words. -/
lemma comparable_of_comparesLikeStrcmp (hσ : ∀ s ∈ σ, s.Ok) (h : ComparesLikeStrcmp σ) :
    Comparable σ := by
  have hword : ∀ {s t : SetS} {k : ℕ}, s.value k ≠ t.value k → word s.map k ≠ word t.map k :=
    fun hne heq =>
    hne (value_eq_iff.mpr heq)
  have hapart : ∀ s ∈ σ, ∀ t ∈ σ, ∀ k, Agree s t k → k < s.nwords → k < t.nwords →
      t.value k ≠ s.value k + 2 ^ 31 := by
    intro s hs t ht k hagree hks hkt hvalue
    obtain ⟨i, hi⟩ := List.mem_iff_getElem?.mp hs
    obtain ⟨j, hj⟩ := List.mem_iff_getElem?.mp ht
    have hne := hword (show s.value k ≠ t.value k by omega)
    have hst := setCompare_of_agree hi hj (hσ s hs) (hσ t ht) hagree hne
    have hts := setCompare_of_agree hj hi (hσ t ht) (hσ s hs) hagree.symm hne.symm
    have hsign := (sign_eq_neg_sign_iff _ _).mp (h.opposite i j _ _ hst hts)
    have hle : answerAt s t k ≤ 0 := answerAt_le_zero_iff.mpr (.inr ⟨hkt, .inr (.inl (by omega))⟩)
    have hle' : answerAt t s k ≤ 0 := answerAt_le_zero_iff.mpr (.inr ⟨hks, .inr (.inr (by omega))⟩)
    have hzero : answerAt s t k = 0 := by omega
    exact hne (toFinset_eq_iff.mp ((h.zero i j s t _ hi hj hst).mp hzero) k)
  refine ⟨hapart, ?_, ?_⟩
  · intro s hs t ht u hu k hst hsu hks hkt hku hlt hnear hlt' hnear'
    obtain ⟨i, hi⟩ := List.mem_iff_getElem?.mp hs
    obtain ⟨j, hj⟩ := List.mem_iff_getElem?.mp ht
    obtain ⟨l, hl⟩ := List.mem_iff_getElem?.mp hu
    have hle :=
      h.trans i j l _ _ _ (setCompare_of_agree hi hj (hσ s hs) (hσ t ht) hst (hword (by omega)))
      (setCompare_of_agree hj hl (hσ t ht) (hσ u hu) (hst.symm.trans hsu) (hword (by omega)))
      (setCompare_of_agree hi hl (hσ s hs) (hσ u hu) hsu (hword (by omega)))
      (answerAt_le_zero_iff.mpr (.inr ⟨hkt, .inr (.inl (by omega))⟩))
      (answerAt_le_zero_iff.mpr (.inr ⟨hku, .inr (.inl (by omega))⟩))
    have hsu' := hapart s hs u hu k hsu hks hku
    rw [answerAt_le_zero_iff] at hle
    unfold WithinHalf at hle
    omega
  · intro s hs t ht u hu k hsu hks hkt heq
    by_contra hgreat
    obtain ⟨i, hi⟩ := List.mem_iff_getElem?.mp hs
    obtain ⟨j, hj⟩ := List.mem_iff_getElem?.mp ht
    obtain ⟨l, hl⟩ := List.mem_iff_getElem?.mp hu
    have hts : ∀ l, word t.map l = word s.map l := toFinset_eq_iff.mp heq.symm
    have hszero := (hσ s hs).value_eq_zero hks
    have htzero : t.value k = s.value k := value_eq_iff.mpr (hts k)
    obtain ⟨r, hr, hzero⟩ := setCompare_spec hj hi (hσ t ht) (hσ s hs)
    have hle := h.trans j i l _ _ _ hr
      (setCompare_of_agree hi hl (hσ s hs) (hσ u hu) hsu (hword (by omega)))
      (setCompare_of_agree hj hl (hσ t ht) (hσ u hu) (fun l hl => (hts l).trans (hsu l hl))
      (hword (by omega))) (hzero.mpr heq.symm).le (answerAt_le_zero_iff.mpr (.inl hks))
    rw [answerAt_le_zero_iff] at hle
    unfold WithinHalf at hle
    have hlt := u.value_lt k
    omega

/-- At the first word that is not the same in all three sets, the answers fit together. -/
lemma Comparable.answerAt_trans (h : Comparable σ) (hs : s ∈ σ) (ht : t ∈ σ) (hu : u ∈ σ)
    (hst : Agree s t k) (htu : Agree t u k) (hne : s.value k ≠ t.value k)
    (hne' : t.value k ≠ u.value k) (hne'' : s.value k ≠ u.value k) (hle : answerAt s t k ≤ 0)
    (hle' : answerAt t u k ≤ 0) : answerAt s u k ≤ 0 := by
  rw [answerAt_le_zero_iff] at hle hle' ⊢
  rcases hle with hks | ⟨hkt, heq | hahead⟩
  · exact .inl hks
  · exact absurd heq hne
  rcases hle' with hkt' | ⟨hku, heq | hahead'⟩
  · omega
  · exact absurd heq hne'
  by_cases hks : s.nwords ≤ k
  · exact .inl hks
  push Not at hks
  have hsu := hst.trans htu
  refine .inr ⟨hku,
    .inr (hahead.trans hahead' (h.apart s hs t ht k hst hks hkt)
    (h.apart t ht s hs k hst.symm hkt hks) (h.apart t ht u hu k htu hkt hku)
    (h.apart u hu t ht k htu.symm hku hkt) hne'' ?_ ?_ ?_)⟩
  · exact h.around s hs t ht u hu k hst hsu hks hkt hku
  · exact h.around t ht u hu s hs k htu hst.symm hkt hku hks
  · exact h.around u hu s hs t ht k hsu.symm htu.symm hku hks hkt

/-- A set that is the same in a word as one whose answer is known. -/
lemma Comparable.answerAt_congr_left (hσ : ∀ s ∈ σ, s.Ok) (h : Comparable σ) (hs : s ∈ σ)
    (ht : t ∈ σ) (hu : u ∈ σ) (htu : Agree t u k) (heq : s.value k = t.value k)
    (hne : t.value k ≠ u.value k) (hsame : t.nwords ≤ k → k < s.nwords → t.toFinset = s.toFinset)
    (hle : answerAt t u k ≤ 0) : answerAt s u k ≤ 0 := by
  rw [answerAt_le_zero_iff] at hle ⊢
  by_cases hks : s.nwords ≤ k
  · exact .inl hks
  push Not at hks
  rcases hle with hkt | hle
  · -- the second map has ended, and the first one has not
    have hended := h.ended t ht s hs u hu k htu hkt hks (hsame hkt hks)
    have hzero := (hσ t ht).value_eq_zero hkt
    have hku : k < u.nwords := by
      by_contra hku
      exact hne (hzero.trans ((hσ u hu).value_eq_zero (Nat.le_of_not_lt hku)).symm)
    refine .inr ⟨hku, .inr (.inl ?_)⟩
    omega
  · rw [heq]
    exact .inr hle

/-- A set that is the same in a word as the one to which the answer is known. -/
lemma Comparable.answerAt_congr_right (hσ : ∀ s ∈ σ, s.Ok) (h : Comparable σ) (hs : s ∈ σ)
    (ht : t ∈ σ) (hu : u ∈ σ) (hst : Agree s t k) (htu : Agree t u k) (heq : t.value k = u.value k)
    (hne : s.value k ≠ t.value k) (hsame : u.nwords ≤ k → k < t.nwords → u.toFinset = t.toFinset)
    (hle : answerAt s t k ≤ 0) : answerAt s u k ≤ 0 := by
  rw [answerAt_le_zero_iff] at hle ⊢
  by_cases hks : s.nwords ≤ k
  · exact .inl hks
  push Not at hks
  obtain ⟨hkt, heq' | hahead⟩ := hle.resolve_left (Nat.not_le_of_lt hks)
  · exact absurd heq' hne
  by_cases hku : u.nwords ≤ k
  · -- the last map has ended: its word is zero, and half of the range ahead of the first one
    have hended := h.ended u hu t ht s hs k (hst.trans htu).symm hku hkt (hsame hku hkt)
    have hapart := h.apart t ht s hs k hst.symm hkt hks
    have hzero := (hσ u hu).value_eq_zero hku
    unfold WithinHalf at hahead
    omega
  · rw [← heq]
    exact .inr ⟨Nat.lt_of_not_le hku, .inr hahead⟩

/-- Sets that are the same in a word, with another one between them: the first map has ended, and
the sets are not equal. -/
lemma Comparable.ended_of_between (hσ : ∀ s ∈ σ, s.Ok) (h : Comparable σ) (hs : s ∈ σ) (ht : t ∈ σ)
    (hu : u ∈ σ) (hst : Agree s t k) (htu : Agree t u k) (heq : s.value k = u.value k)
    (hne : s.value k ≠ t.value k) (hle : answerAt s t k ≤ 0) (hle' : answerAt t u k ≤ 0) :
    s.nwords ≤ k ∧ s.toFinset ≠ u.toFinset := by
  rw [answerAt_le_zero_iff] at hle hle'
  have hkt : k < t.nwords := by
    by_contra hkt
    have hks := hle.resolve_right fun h => hkt h.1
    exact hne
      (((hσ s hs).value_eq_zero hks).trans ((hσ t ht).value_eq_zero (Nat.le_of_not_lt hkt)).symm)
  obtain ⟨hku, heq' | hahead'⟩ := hle'.resolve_left (Nat.not_le_of_lt hkt)
  · exact absurd (heq.trans heq'.symm) hne
  have hapart := h.apart u hu t ht k htu.symm hku hkt
  unfold WithinHalf at hahead'
  by_cases hks : s.nwords ≤ k
  · refine ⟨hks, fun hsame => ?_⟩
    have hended := h.ended s hs u hu t ht k hst hks hku hsame
    have hzero := (hσ s hs).value_eq_zero hks
    omega
  · push Not at hks
    obtain ⟨-, heq' | hahead⟩ := hle.resolve_left (Nat.not_le_of_lt hks)
    · exact absurd heq' hne
    have hapart' := h.apart s hs t ht k hst hks hkt
    have hapart'' := h.apart t ht s hs k hst.symm hkt hks
    unfold WithinHalf at hahead
    omega

/-- Sets whose words can be ordered are compared transitively. -/
lemma Comparable.trans (hσ : ∀ s ∈ σ, s.Ok) (h : Comparable σ) {l : ℕ} (hi : σ[i]? = some s)
    (hj : σ[j]? = some t) (hl : σ[l]? = some u) {r r' r'' : ℤ} (hr : setCompare σ i j = some r)
    (hr' : setCompare σ j l = some r') (hr'' : setCompare σ i l = some r'') (hle : r ≤ 0)
    (hle' : r' ≤ 0) : r'' ≤ 0 := by
  have hs := List.mem_of_getElem? hi
  have ht := List.mem_of_getElem? hj
  have hu := List.mem_of_getElem? hl
  rcases setCompare_cases hσ hi hl with ⟨-, hzero⟩ | ⟨m, -, hm, -⟩
  · exact (Option.some.inj (hr''.symm.trans hzero)).le
  -- the first word that is not the same in all three sets
  have hex : ∃ k, ¬ (word s.map k = word t.map k ∧ word t.map k = word u.map k) :=
    ⟨m, fun h => hm (h.1.trans h.2)⟩
  obtain ⟨k, hfirst, hk⟩ :
      ∃ k, (∀ l < k, word s.map l = word t.map l ∧ word t.map l = word u.map l) ∧
        ¬ (word s.map k = word t.map k ∧ word t.map k = word u.map k) :=
    ⟨Nat.find hex, fun l hl => not_not.mp (Nat.find_min hex hl), Nat.find_spec hex⟩
  have hst : Agree s t k := fun l hl => (hfirst l hl).1
  have htu : Agree t u k := fun l hl => (hfirst l hl).2
  have hsu := hst.trans htu
  rw [← value_eq_iff, ← value_eq_iff] at hk
  have hrst : s.value k ≠ t.value k → answerAt s t k ≤ 0 := fun hne => by
    have hrun :=
      setCompare_of_agree hi hj (hσ s hs) (hσ t ht) hst fun heq => hne (value_eq_iff.mpr heq)
    rw [← Option.some.inj (hr.symm.trans hrun)]
    exact hle
  have hrtu : t.value k ≠ u.value k → answerAt t u k ≤ 0 := fun hne => by
    have hrun :=
      setCompare_of_agree hj hl (hσ t ht) (hσ u hu) htu fun heq => hne (value_eq_iff.mpr heq)
    rw [← Option.some.inj (hr'.symm.trans hrun)]
    exact hle'
  have hrsu : s.value k ≠ u.value k → answerAt s u k ≤ 0 → r'' ≤ 0 := fun hne hle => by
    have hrun :=
      setCompare_of_agree hi hl (hσ s hs) (hσ u hu) hsu fun heq => hne (value_eq_iff.mpr heq)
    rw [Option.some.inj (hr''.symm.trans hrun)]
    exact hle
  by_cases heq₁ : s.value k = t.value k
  · have hne : t.value k ≠ u.value k := fun heq => hk ⟨heq₁, heq⟩
    refine hrsu (heq₁ ▸ hne) (h.answerAt_congr_left hσ hs ht hu htu heq₁ hne (fun hkt _ => ?_)
      (hrtu hne))
    by_contra hdiff
    have hone := Option.some.inj (hr.symm.trans (setCompare_of_ended hσ hj hi hst.symm hkt hdiff).2)
    omega
  by_cases heq₂ : t.value k = u.value k
  · refine hrsu (heq₂ ▸ heq₁) (h.answerAt_congr_right hσ hs ht hu hst htu heq₂ heq₁
      (fun hku _ => ?_) (hrst heq₁))
    by_contra hdiff
    have hone :=
      Option.some.inj (hr'.symm.trans (setCompare_of_ended hσ hl hj htu.symm hku hdiff).2)
    omega
  by_cases heq₃ : s.value k = u.value k
  · obtain ⟨hend, hdiff⟩ := h.ended_of_between hσ hs ht hu hst htu heq₃ heq₁ (hrst heq₁) (hrtu heq₂)
    rw [Option.some.inj (hr''.symm.trans (setCompare_of_ended hσ hi hl hsu hend hdiff).1)]
    decide
  · exact hrsu heq₃ (h.answerAt_trans hs ht hu hst htu heq₁ heq₂ heq₃ (hrst heq₁) (hrtu heq₂))

/-- At the first word that differs, the two answers are opposite to each other. -/
lemma Comparable.answerAt_opposite (hσ : ∀ s ∈ σ, s.Ok) (h : Comparable σ) (hs : s ∈ σ) (ht : t ∈ σ)
    (hagree : Agree s t k) (hne : word s.map k ≠ word t.map k) :
    answerAt s t k = -answerAt t s k := by
  unfold answerAt
  by_cases hks : k < s.nwords
  · by_cases hkt : k < t.nwords
    · rw [if_pos hks, if_pos hkt, if_pos hkt, if_pos hks]
      exact toInt_sub_comm (h.apart s hs t ht k hagree hks hkt)
        (h.apart t ht s hs k hagree.symm hkt hks)
    · rw [if_pos hks, if_neg hkt, if_neg hkt]
      decide
  · have hkt : k < t.nwords := (hσ t ht).lt_nwords (by
      rw [← (hσ s hs).word_eq_zero (Nat.le_of_not_lt hks)]
      exact hne.symm)
    rw [if_neg hks, if_pos hkt, if_neg hks]

/-- Sets are ordered if and only if their words can be ordered. -/
theorem comparesLikeStrcmp_iff (hσ : ∀ s ∈ σ, s.Ok) : ComparesLikeStrcmp σ ↔ Comparable σ := by
  refine ⟨comparable_of_comparesLikeStrcmp hσ, fun h => ?_⟩
  have hget : ∀ {i j : ℕ} {r : ℤ}, setCompare σ i j = some r → ∃ s t, σ[i]? = some s ∧
      σ[j]? = some t := by
    intro i j r hr
    obtain ⟨s, hs, hr⟩ := Option.bind_eq_some_iff.mp hr
    obtain ⟨t, ht, -⟩ := Option.bind_eq_some_iff.mp hr
    exact ⟨s, t, hs, ht⟩
  refine ⟨?_, ?_, ?_, ?_⟩
  · intro i hi j hj
    rcases setCompare_cases hσ (List.getElem?_eq_getElem hi) (List.getElem?_eq_getElem hj) with
      ⟨-, hr⟩ | ⟨k, -, -, hr⟩
    · exact ⟨0, hr⟩
    · exact ⟨_, hr⟩
  · intro i j r r' hr hr'
    obtain ⟨s, t, hi, hj⟩ := hget hr
    have hs := List.mem_of_getElem? hi
    have ht := List.mem_of_getElem? hj
    rcases setCompare_cases hσ hi hj with ⟨heq, hzero⟩ | ⟨k, hagree, hne, hrun⟩
    · obtain ⟨a, ha, hazero⟩ := setCompare_spec hj hi (hσ t ht) (hσ s hs)
      rw [Option.some.inj (hr.symm.trans hzero), Option.some.inj (hr'.symm.trans ha),
        hazero.mpr heq.symm]
      decide
    · have hrun' := setCompare_of_agree hj hi (hσ t ht) (hσ s hs) hagree.symm hne.symm
      rw [Option.some.inj (hr.symm.trans hrun), Option.some.inj (hr'.symm.trans hrun'),
        h.answerAt_opposite hσ hs ht hagree hne, Int.sign_neg]
  · intro i j l r r' r'' hr hr' hr'' hle hle'
    obtain ⟨s, t, hi, hj⟩ := hget hr
    obtain ⟨-, u, -, hl⟩ := hget hr'
    exact h.trans hσ hi hj hl hr hr' hr'' hle hle'
  · intro i j s t r hi hj hr
    obtain ⟨a, ha, hzero⟩ :=
      setCompare_spec hi hj (hσ s (List.mem_of_getElem? hi)) (hσ t (List.mem_of_getElem? hj))
    rw [Option.some.inj (hr.symm.trans ha)]
    exact hzero

/-- The calls that make the sets `{31}` and `∅`. -/
def lastOfWord : List SetCall := [.new, .new, .add 0 31]

/-- The calls make two sets that are in order. -/
lemma exists_lastOfWord : ∃ σ, execAll lastOfWord = some σ ∧ ∀ s ∈ σ, s.Ok := by
  have hdenote : denoteAll lastOfWord = some [{31}, ∅] := by decide
  obtain ⟨σ, hrun, hσ, -⟩ := execAll_spec (σ := []) (fun s hs => absurd hs List.not_mem_nil) hdenote
  exact ⟨σ, hrun, hσ⟩

/-- For the sets `{31}` and `∅` the comparison is an order exactly when their words are
comparable. -/
theorem comparesLikeStrcmp_lastOfWord : ∃ σ, execAll lastOfWord = some σ ∧
    (ComparesLikeStrcmp σ ↔ Comparable σ) := by
  obtain ⟨σ, hrun, hσ⟩ := exists_lastOfWord
  exact ⟨σ, hrun, comparesLikeStrcmp_iff hσ⟩

/-- Each of the sets `{31}` and `∅` is less than the other one. -/
theorem not_comparesLikeStrcmp : ¬ ∀ (calls : List SetCall) (σ : Sets), execAll calls = some σ →
    (∀ s ∈ σ, s.compl = 0) → ComparesLikeStrcmp σ := by
  intro hall
  obtain ⟨σ, hrun, -⟩ := exists_lastOfWord
  have hcompl :
    (execAll lastOfWord).map (fun σ => σ.all fun s => s.compl == 0) = some true := by decide
  have hless : (execAll lastOfWord).bind (fun σ => setCompare σ 0 1) = some (-2 ^ 31) := by decide
  have hless' : (execAll lastOfWord).bind (fun σ => setCompare σ 1 0) = some (-2 ^ 31) := by decide
  rw [hrun] at hcompl hless hless'
  have horder := hall lastOfWord σ hrun fun s hs =>
    beq_iff_eq.mp (List.all_eq_true.mp (Option.some.inj hcompl) s hs)
  exact absurd (horder.opposite 0 1 _ _ hless hless') (by decide)

end Support
