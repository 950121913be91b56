import Cgkits.Support.Set

/-!
# The classification of two sets (`set_test`)

`set_test` makes both maps equally long and walks over their words.  It returns `_SET_INTER` at the
first word in which the sets differ and have a member in common.  Words that are equal are passed
over, also when they hold members: a common member counts only if it stands in a word in which the
sets differ.
-/

namespace Support

open BitMap

variable {σ : Sets} {s t : SetS}

/-! ## The function -/

/-- `_SET_EQUIV`, the answer that the sets are equal. -/
def setEquiv : ℤ := 0

/-- `_SET_DISJ`, the answer that the sets have no common member. -/
def setDisj : ℤ := 1

/-- `_SET_INTER`, the answer that the sets have a common member. -/
def setInter : ℤ := 2

/-- The loop of `set_test` over `n` words, from the word `k` on. -/
def testLoop (ws vs : List SetType) : ℕ → ℕ → ℤ → Option ℤ
  | _, 0, rval => some rval
  | k, n + 1, rval => do
    let a ← ws[k]?
    let b ← vs[k]?
    if a ≠ b then
      if a &&& b ≠ 0#32 then some setInter else testLoop ws vs (k + 1) n setDisj
    else testLoop ws vs (k + 1) n rval

/-- `set_test`: make both maps as long as the longer one and compare them; the answer, and the sets
afterwards. -/
def setTest (i j : ℕ) (σ : Sets) : Option (ℤ × Sets) := do
  let set1 ← σ[i]?
  let set2 ← σ[j]?
  let n := max set1.nwords set2.nwords
  let σ ← update (enlarge · n) i σ
  let σ ← update (enlarge · n) j σ
  let set1 ← σ[i]?
  let set2 ← σ[j]?
  let rval ← testLoop set1.map set2.map 0 n setEquiv
  some (rval, σ)

/-! ## The loop -/

/-- The loop ends in one of three ways: with two words that meet, with words that differ, or with
equal maps. -/
lemma testLoop_spec {ws vs : List SetType} (k n : ℕ) (rval : ℤ) (hws : k + n ≤ ws.length)
    (hvs : k + n ≤ vs.length) : ∃ r, testLoop ws vs k n rval = some r ∧
      ((r = setInter ∧ ∃ j, word ws j ≠ word vs j ∧ word ws j &&& word vs j ≠ 0#32) ∨
        (r = setDisj ∧ (∃ j, word ws j ≠ word vs j) ∧
          ∀ j, k ≤ j → j < k + n → word ws j ≠ word vs j → word ws j &&& word vs j = 0#32) ∨
        (r = rval ∧ ∀ j, k ≤ j → j < k + n → word ws j = word vs j)) := by
  induction n generalizing k rval with
  | zero => exact ⟨rval, rfl, .inr (.inr ⟨rfl, fun j hj hlt => by omega⟩)⟩
  | succ n ih =>
    have hstep : testLoop ws vs k (n + 1) rval = if word ws k ≠ word vs k then
        if word ws k &&& word vs k ≠ 0#32 then some setInter else testLoop ws vs (k + 1) n setDisj
        else testLoop ws vs (k + 1) n rval := by
      rw [testLoop, getElem?_eq_word (by omega), getElem?_eq_word (by omega)]
      rfl
    have hfrom : ∀ {p : ℕ → Prop}, p k → (∀ j, k + 1 ≤ j → j < k + 1 + n → p j) → ∀ j, k ≤ j →
        j < k + (n + 1) → p j := by
      intro p hk hlater j hj hlt
      by_cases hjk : j = k
      · rw [hjk]
        exact hk
      · exact hlater j (by omega) (by omega)
    rw [hstep]
    by_cases hne : word ws k ≠ word vs k
    · rw [if_pos hne]
      by_cases hand : word ws k &&& word vs k ≠ 0#32
      · rw [if_pos hand]
        exact ⟨setInter, rfl, .inl ⟨rfl, k, hne, hand⟩⟩
      · rw [if_neg hand]
        obtain ⟨r, hr, hinter | ⟨hdisj, hex, hall⟩ | ⟨hdisj, hall⟩⟩ :=
          ih (k + 1) setDisj (by omega) (by omega)
        · exact ⟨r, hr, .inl hinter⟩
        · exact ⟨r, hr, .inr (.inl ⟨hdisj, hex, hfrom (fun _ => not_not.mp hand) hall⟩)⟩
        · exact ⟨r, hr, .inr (.inl ⟨hdisj, ⟨k, hne⟩,
            hfrom (fun _ => not_not.mp hand) fun j hj hlt hjne => absurd (hall j hj hlt) hjne⟩)⟩
    · rw [if_neg hne]
      obtain ⟨r, hr, hinter | ⟨hdisj, hex, hall⟩ | ⟨hrval, hall⟩⟩ :=
        ih (k + 1) rval (by omega) (by omega)
      · exact ⟨r, hr, .inl hinter⟩
      · exact ⟨r, hr, .inr (.inl ⟨hdisj, hex, hfrom (fun hk => absurd hk hne) hall⟩)⟩
      · exact ⟨r, hr, .inr (.inr ⟨hrval, hfrom (not_not.mp hne) hall⟩)⟩

/-! ## The classification -/

/-- What the answers of `set_test` say of two sets of numbers. -/
structure Classifies (r : ℤ) (a b : Finset ℕ) : Prop where
  /-- `_SET_EQUIV`: the sets are equal. -/
  equiv : r = setEquiv ↔ a = b
  /-- `_SET_INTER`: the sets differ and share a member. -/
  inter : r = setInter ↔ a ≠ b ∧ (a ∩ b).Nonempty
  /-- `_SET_DISJ`: the sets differ and share no member. -/
  disj : r = setDisj ↔ a ≠ b ∧ a ∩ b = ∅

/-- If the sets differ and have a common member, then such a member stands in a word in which they
differ. -/
def Telling (a b : Finset ℕ) : Prop :=
  a = b ∨ a ∩ b = ∅ ∨ ∃ x ∈ a ∩ b, ∃ y ∈ symmDiff a b, x / 32 = y / 32

/-- The loop over all words classifies the sets if and only if one of the words tells. -/
lemma testLoop_classifies {ws vs : List SetType} (h : ws.length = vs.length) :
    ∃ r, testLoop ws vs 0 ws.length setEquiv = some r ∧
      (Classifies r (BitMap.toFinset ws) (BitMap.toFinset vs) ↔
      Telling (BitMap.toFinset ws) (BitMap.toFinset vs)) := by
  obtain ⟨r, hr, hcases⟩ := @testLoop_spec ws vs 0 ws.length setEquiv (by omega) (by omega)
  have hshort : ∀ j, ws.length ≤ j → word ws j = word vs j := fun j hj => by
    rw [word_of_le hj, word_of_le (h ▸ hj)]
  refine ⟨r, hr, ?_⟩
  unfold Telling
  rcases hcases with ⟨rfl, j, hne, hand⟩ | ⟨rfl, ⟨j, hne⟩, hall⟩ | ⟨rfl, hall⟩
  · have hdiff : BitMap.toFinset ws ≠ BitMap.toFinset vs :=
      fun heq => hne (toFinset_eq_iff.mp heq j)
    obtain ⟨y, hy, hyj⟩ := word_ne_iff.mp hne
    obtain ⟨x, hx, hxj⟩ := (word_and_ne_zero_iff (by decide)).mp hand
    have hinter : (BitMap.toFinset ws ∩ BitMap.toFinset vs).Nonempty := ⟨x, hx⟩
    refine iff_of_true ⟨?_, iff_of_true rfl ⟨hdiff, hinter⟩, ?_⟩
      (.inr (.inr ⟨x, hx, y, hy, hxj.trans hyj.symm⟩))
    · exact iff_of_false (by decide) hdiff
    · exact iff_of_false (by decide) fun hdisj => hinter.ne_empty hdisj.2
  · have hdiff : BitMap.toFinset ws ≠ BitMap.toFinset vs :=
      fun heq => hne (toFinset_eq_iff.mp heq j)
    constructor
    · intro hclass
      exact .inr (.inl (hclass.disj.mp rfl).2)
    · rintro (heq | hempty | ⟨x, hx, y, hy, hxy⟩)
      · exact absurd heq hdiff
      · refine ⟨iff_of_false (by decide) hdiff, iff_of_false (by decide) fun hinter =>
          ?_, iff_of_true rfl ⟨hdiff, hempty⟩⟩
        exact hinter.2.ne_empty hempty
      · have hyne : word ws (y / 32) ≠ word vs (y / 32) := word_ne_iff.mpr ⟨y, hy, rfl⟩
        have hlt : y / 32 < ws.length := by
          by_contra hle
          exact hyne (hshort _ (Nat.le_of_not_lt hle))
        exact absurd (hall (y / 32) (Nat.zero_le _) (by omega) hyne)
          ((word_and_ne_zero_iff (by decide)).mpr ⟨x, hx, hxy⟩)
  · have heq : BitMap.toFinset ws = BitMap.toFinset vs := by
      refine toFinset_congr fun j => ?_
      by_cases hj : j < ws.length
      · exact hall j (Nat.zero_le j) (by omega)
      · exact hshort j (Nat.le_of_not_lt hj)
    refine iff_of_true ⟨iff_of_true rfl heq, ?_, ?_⟩ (.inl heq)
    · exact iff_of_false (by decide) fun hinter => hinter.1 heq
    · exact iff_of_false (by decide) fun hdisj => hdisj.1 heq

/-! ## The sets afterwards -/

/-- The sets are those of before: none of them has lost a member or got a new one. -/
def SameMembers (σ σ' : Sets) : Prop :=
  σ'.length = σ.length ∧ ∀ (k : ℕ) (s : SetS), σ[k]? = some s →
    ∃ s', σ'[k]? = some s' ∧ s'.Ok ∧ s'.compl = s.compl ∧ ∀ x, setMEMBER s' x = setMEMBER s x

/-- Two changes one after the other that keep the members of all sets keep them together. -/
lemma SameMembers.trans {σ₁ σ₂ σ₃ : Sets} (h₁ : SameMembers σ₁ σ₂) (h₂ : SameMembers σ₂ σ₃) :
    SameMembers σ₁ σ₃ := by
  refine ⟨h₂.1.trans h₁.1, fun k s hk => ?_⟩
  obtain ⟨s', hk', -, hcompl, hmem⟩ := h₁.2 k s hk
  obtain ⟨s'', hk'', hok, hcompl', hmem'⟩ := h₂.2 k s' hk'
  exact ⟨s'', hk'', hok, hcompl'.trans hcompl, fun x => (hmem' x).trans (hmem x)⟩

/-- `enlarge` keeps the flag of the complement. -/
lemma compl_enlarge {need : ℕ} {s' : SetS} (h : enlarge s need = some s') : s'.compl = s.compl := by
  unfold enlarge at h
  by_cases hle : need ≤ s.nwords
  · rw [if_pos hle] at h
    cases h
    rfl
  · rw [if_neg hle] at h
    obtain ⟨ws, -, h⟩ := Option.bind_eq_some_iff.mp h
    cases h
    rfl

/-- `enlarge` keeps the members of the set and of all the others. -/
lemma update_enlarge (hσ : ∀ s ∈ σ, s.Ok) {i : ℕ} (hi : σ[i]? = some s) {n : ℕ} (hn : n ≤ 2 ^ 26) :
    ∃ s', update (enlarge · n) i σ = some (σ.set i s') ∧ s'.Ok ∧ s'.toFinset = s.toFinset ∧
      s'.nwords = max s.nwords n ∧ SameMembers σ (σ.set i s') := by
  have hs := hσ s (List.mem_of_getElem? hi)
  obtain ⟨s', hrun, hok, hword, hnwords⟩ := enlarge_spec hs hn
  have hset : s'.toFinset = s.toFinset := toFinset_congr hword
  refine ⟨s', ?_, hok, hset, hnwords, List.length_set, fun k t hk => ?_⟩
  · unfold update
    rw [hi]
    change (enlarge s n).bind _ = _
    rw [hrun]
    rfl
  · obtain ⟨hlt, -⟩ := List.getElem?_eq_some_iff.mp hi
    by_cases hki : k = i
    · subst hki
      obtain rfl : s = t := Option.some.inj (hi.symm.trans hk)
      refine ⟨s', List.getElem?_set_self hlt, hok, compl_enlarge hrun, fun x => ?_⟩
      rw [setMEMBER_spec hok, setMEMBER_spec hs, hset]
    · exact ⟨t, (List.getElem?_set_ne (Ne.symm hki)).trans hk, hσ t (List.mem_of_getElem? hk), rfl,
        fun _ => rfl⟩

/-- `set_test` keeps all sets as they are, and its answer is right if and only if the sets are
equal, have no common member, or have one in a word in which they differ. -/
theorem setTest_classifies_iff (hσ : ∀ s ∈ σ, s.Ok) {i j : ℕ} (hi : σ[i]? = some s)
    (hj : σ[j]? = some t) : ∃ r σ', setTest i j σ = some (r, σ') ∧ SameMembers σ σ' ∧
      (Classifies r s.toFinset t.toFinset ↔ Telling s.toFinset t.toFinset) := by
  obtain ⟨n, hn⟩ : ∃ n, n = max s.nwords t.nwords := ⟨_, rfl⟩
  have hs := (hσ s (List.mem_of_getElem? hi)).bound
  have ht := (hσ t (List.mem_of_getElem? hj)).bound
  obtain ⟨hlti, -⟩ := List.getElem?_eq_some_iff.mp hi
  obtain ⟨hltj, -⟩ := List.getElem?_eq_some_iff.mp hj
  obtain ⟨s₁, hrun₁, hok₁, hset₁, hnwords₁, hsame₁⟩ := update_enlarge hσ hi (n := n) (by omega)
  have hσ₁ : ∀ u ∈ σ.set i s₁, u.Ok := by
    intro u hu
    rcases List.mem_or_eq_of_mem_set hu with hu | rfl
    · exact hσ u hu
    · exact hok₁
  -- the second set, which may be the first one
  obtain ⟨t₁, hj₁, hset₂, hnwords₂⟩ : ∃ t₁, (σ.set i s₁)[j]? = some t₁ ∧ t₁.toFinset = t.toFinset ∧
      max t₁.nwords n = n := by
    by_cases hij : i = j
    · subst hij
      obtain rfl : s = t := Option.some.inj (hi.symm.trans hj)
      exact ⟨s₁, List.getElem?_set_self hlti, hset₁, by omega⟩
    · exact ⟨t, (List.getElem?_set_ne hij).trans hj, rfl, by omega⟩
  obtain ⟨t₂, hrun₂, hok₂, hset₂', hnwords₂', hsame₂⟩ := update_enlarge hσ₁ hj₁ (n := n) (by omega)
  have hj₂ : ((σ.set i s₁).set j t₂)[j]? = some t₂ :=
    List.getElem?_set_self (by rw [List.length_set]; exact hltj)
  obtain ⟨s₂, hi₂, hlen₂, hset₃⟩ : ∃ s₂, ((σ.set i s₁).set j t₂)[i]? = some s₂ ∧ s₂.map.length = n ∧
      s₂.toFinset = s.toFinset := by
    by_cases hij : i = j
    · subst hij
      obtain rfl : s = t := Option.some.inj (hi.symm.trans hj)
      exact ⟨t₂, hj₂, by rw [hok₂.map]; omega, hset₂'.trans hset₂⟩
    · refine ⟨s₁, ?_, by rw [hok₁.map]; omega, hset₁⟩
      rw [List.getElem?_set_ne (Ne.symm hij)]
      exact List.getElem?_set_self hlti
  obtain ⟨r, hr, hclass⟩ := @testLoop_classifies s₂.map t₂.map (by rw [hlen₂, hok₂.map]; omega)
  refine ⟨r, _, ?_, hsame₁.trans hsame₂, ?_⟩
  · unfold setTest
    rw [hi, hj]
    change (update (enlarge · (max s.nwords t.nwords)) i σ).bind _ = _
    rw [← hn, hrun₁, Option.bind_some]
    change (update (enlarge · n) j (σ.set i s₁)).bind _ = _
    rw [hrun₂, Option.bind_some]
    change (((σ.set i s₁).set j t₂)[i]?).bind _ = _
    rw [hi₂, Option.bind_some]
    change (((σ.set i s₁).set j t₂)[j]?).bind _ = _
    rw [hj₂, Option.bind_some, ← hlen₂]
    change (testLoop s₂.map t₂.map 0 s₂.map.length setEquiv).bind _ = _
    rw [hr]
    rfl
  · rw [← hset₃, ← hset₂, ← hset₂']
    exact hclass

/-- The calls that make the sets `{0, 40}` and `{0, 41}`. -/
def sharedWord : List SetCall := [.new, .new, .add 0 0, .add 0 40, .add 1 0, .add 1 41]

/-- The calls make two sets that are in order and have these members. -/
lemma exists_sharedWord : ∃ s t, execAll sharedWord = some [s, t] ∧ (∀ u ∈ [s, t], u.Ok) ∧
    s.toFinset = {0, 40} ∧ t.toFinset = {0, 41} := by
  have hdenote : denoteAll sharedWord = some [{0, 40}, {0, 41}] := by decide
  obtain ⟨σ, hrun, hσ, has⟩ :=
    execAll_spec (σ := []) (fun s hs => absurd hs List.not_mem_nil) hdenote
  obtain ⟨s, σ₁, rfl, hs, hσ₁⟩ := List.map_eq_cons_iff.mp has
  obtain ⟨t, rfl, ht⟩ := List.map_eq_singleton_iff.mp hσ₁
  exact ⟨s, t, hrun, hσ, hs, ht⟩

/-- No word of them tells, and the common member stays unnoticed. -/
theorem setTest_classifies_sharedWord : ∃ s t, execAll sharedWord = some [s, t] ∧
    ∃ r σ', setTest 0 1 [s, t] = some (r, σ') ∧ SameMembers [s, t] σ' ∧
      (Classifies r s.toFinset t.toFinset ↔ Telling s.toFinset t.toFinset) := by
  obtain ⟨s, t, hrun, hok, -, -⟩ := exists_sharedWord
  exact ⟨s, t, hrun, setTest_classifies_iff hok (i := 0) (j := 1) rfl rfl⟩

/-- The sets `{0, 40}` and `{0, 41}` have a common member, and the answer is that they have none:
`0` stands in a word that is the same in both sets. -/
theorem not_setTest_classifies : ¬ ∀ (calls : List SetCall) (σ : Sets), execAll calls = some σ →
    ∀ (i j : ℕ) (s t : SetS), σ[i]? = some s → σ[j]? = some t → s.compl = 0 → t.compl = 0 →
      ∃ r σ', setTest i j σ = some (r, σ') ∧ SameMembers σ σ' ∧
        Classifies r s.toFinset t.toFinset := by
  intro hall
  obtain ⟨s, t, hrun, -, hs, ht⟩ := exists_sharedWord
  have hanswer : (execAll sharedWord >>= setTest 0 1).map (fun r => r.1) = some setDisj := by decide
  have hcompl : (execAll sharedWord).map (fun σ => σ.map SetS.compl) = some [0, 0] := by decide
  rw [hrun] at hanswer hcompl
  simp only [Option.map_some, List.map_cons, List.map_nil, Option.some.injEq, List.cons.injEq,
    and_true] at hcompl
  obtain ⟨r, σ', hr, -, hclass⟩ := hall sharedWord [s, t] hrun 0 1 s t rfl rfl hcompl.1 hcompl.2
  have hdisj : r = setDisj := by
    change (setTest 0 1 [s, t]).map _ = _ at hanswer
    rw [hr] at hanswer
    exact Option.some.inj hanswer
  have hempty := (hclass.disj.mp hdisj).2
  rw [hs, ht] at hempty
  exact absurd hempty (by decide)

end Support
