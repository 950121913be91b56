import Mathlib.Data.Finset.Card
import Mathlib.Algebra.Order.BigOperators.Group.Finset
import Mathlib.Logic.Function.Basic
import Mathlib.Tactic.Linarith

/-!
# Repeat-until-stable loops

Fixed-point passes have one shape: run a body over the state, remember in a flag whether the body
changed anything, and repeat while it did.  `doWhile` is that loop, cut off after a number of passes
so that it is a total function.

The two rules below are all that a client needs.  `doWhile_spec` gives the state at loop exit
together with the fact that one more pass changes nothing.  `doWhile_returns` proves termination
from a measure that every changing pass increases and that stays bounded.

The second part treats passes that grow an indexed family of finite sets, the state of every
closure computation: `addTo` merges a set into one member and raises the flag when the member grew.

The last part has the rule for a single pass over a list whose visits can fail: `foldlM_returns`,
and `foldlM_invariant` for a pass that does not.
-/

namespace Loop

variable {σ : Type*}

/-- `do { (s, changed) = body s } while (changed)`, given up after `fuel` passes. -/
def doWhile (body : σ → σ × Bool) : ℕ → σ → Option σ
  | 0, _ => none
  | fuel + 1, s => if (body s).2 then doWhile body fuel (body s).1 else some (body s).1

/-- One pass, then the rest of the loop if the pass changed something. -/
lemma doWhile_succ (body : σ → σ × Bool) (fuel : ℕ) (s : σ) :
    doWhile body (fuel + 1) s =
      if (body s).2 then doWhile body fuel (body s).1 else some (body s).1 := rfl

/-- Exit rule: an invariant kept by every pass holds of the state before the last pass, and that
pass reported no change. -/
theorem doWhile_spec {body : σ → σ × Bool} (I : σ → Prop)
    (hstep : ∀ s, I s → I (body s).1) {fuel : ℕ} {s r : σ} (hs : I s)
    (h : doWhile body fuel s = some r) : ∃ s', I s' ∧ body s' = (r, false) := by
  induction fuel generalizing s with
  | zero => cases h
  | succ fuel ih =>
    rw [doWhile_succ] at h
    by_cases hc : (body s).2 = true
    · rw [if_pos hc] at h
      exact ih (hstep s hs) h
    · rw [if_neg hc, Option.some.injEq] at h
      refine ⟨s, hs, ?_⟩
      rw [← h]
      exact Prod.ext rfl (by simpa using hc)

/-- Termination rule: a measure bounded by `B` that every changing pass increases. -/
theorem doWhile_returns {body : σ → σ × Bool} (I : σ → Prop) (μ : σ → ℕ) (B : ℕ)
    (hstep : ∀ s, I s → I (body s).1) (hle : ∀ s, I s → μ s ≤ B)
    (hlt : ∀ s, I s → (body s).2 = true → μ s < μ (body s).1) {s : σ} (hs : I s) :
    ∀ fuel, B - μ s < fuel → ∃ r, doWhile body fuel s = some r := by
  intro fuel
  induction fuel generalizing s with
  | zero => omega
  | succ fuel ih =>
    intro hfuel
    rw [doWhile_succ]
    by_cases hc : (body s).2 = true
    · rw [if_pos hc]
      have h1 := hlt s hs hc
      have h2 := hle _ (hstep s hs)
      exact ih (hstep s hs) (by omega)
    · rw [if_neg hc]
      exact ⟨_, rfl⟩

/-! ## Growing an indexed family of finite sets -/

section Family

variable {ι α : Type*}

/-- A family grows in a pass when every member keeps its elements, and the flag goes up only if some
member gained one. -/
structure Grows (st st' : (ι → Finset α) × Bool) : Prop where
  /-- Every member keeps its elements. -/
  subset : ∀ j, st.1 j ⊆ st'.1 j
  /-- The flag is never lowered. -/
  flag : st.2 = true → st'.2 = true
  /-- A raised flag was raised before, or some member gained an element. -/
  changed : st'.2 = true → st.2 = true ∨ ∃ j, st.1 j ⊂ st'.1 j
  /-- A lowered flag means that the family is unchanged. -/
  eq_of_flag : st'.2 = false → st'.1 = st.1

/-- When nothing is done nothing has shrunk. -/
lemma Grows.refl (st : (ι → Finset α) × Bool) : Grows st st :=
  ⟨fun _ => subset_rfl, id, Or.inl, fun _ => rfl⟩

/-- Two growths one after the other are one growth. -/
lemma Grows.trans {a b c : (ι → Finset α) × Bool} (hab : Grows a b) (hbc : Grows b c) :
    Grows a c where
  subset j := (hab.subset j).trans (hbc.subset j)
  flag h := hbc.flag (hab.flag h)
  changed h := by
    rcases hbc.changed h with hb | ⟨j, hj⟩
    · rcases hab.changed hb with ha | ⟨j, hj⟩
      · exact Or.inl ha
      · exact Or.inr ⟨j, hj.trans_subset (hbc.subset j)⟩
    · exact Or.inr ⟨j, (hab.subset j).trans_ssubset hj⟩
  eq_of_flag h := by
    have hb : b.2 = false := by
      by_contra hb
      exact absurd (hbc.flag (by simpa using hb)) (by simp [h])
    rw [hbc.eq_of_flag h, hab.eq_of_flag hb]

/-- A pass that grows the family by `f a` for every `a` of a list grows it. -/
lemma grows_foldl {β : Type*} {f : (ι → Finset α) × Bool → β → (ι → Finset α) × Bool}
    (hf : ∀ st b, Grows st (f st b)) (l : List β) (st : (ι → Finset α) × Bool) :
    Grows st (l.foldl f st) := by
  induction l generalizing st with
  | nil => exact Grows.refl st
  | cons b l ih => exact (hf st b).trans (ih (f st b))

/-- After a pass that reports no change, every single step of it, taken from the initial family,
reports no change. -/
lemma foldl_step_of_flag {β : Type*} {f : (ι → Finset α) × Bool → β → (ι → Finset α) × Bool}
    (hf : ∀ st b, Grows st (f st b)) {l : List β} {st : (ι → Finset α) × Bool}
    (h : (l.foldl f st).2 = false) {b : β} (hb : b ∈ l) : (f st b).2 = false := by
  induction l generalizing st with
  | nil => simp at hb
  | cons c l ih =>
    rw [List.foldl_cons] at h
    have hc : (f st c).2 = false := by
      by_contra hc
      exact absurd ((grows_foldl hf l (f st c)).flag (by simpa using hc)) (by simp [h])
    have hst : f st c = st := by
      refine Prod.ext ((hf st c).eq_of_flag hc) ?_
      have hst2 : st.2 = false := by
        by_contra hst2
        exact absurd ((hf st c).flag (by simpa using hst2)) (by simp [hc])
      rw [hc, hst2]
    rcases List.mem_cons.mp hb with rfl | hb
    · exact hc
    · rw [hst] at h
      exact ih h hb

/-- A family whose members stay inside a finite universe and that changes only at finitely many
indices has a bounded total size that every real growth increases. -/
lemma sum_card_lt_of_grows {I : Finset ι} {W W' : ι → Finset α}
    (hsub : ∀ j, W j ⊆ W' j) (hout : ∀ j ∉ I, W' j = W j) (hne : ∃ j, W j ⊂ W' j) :
    ∑ j ∈ I, (W j).card < ∑ j ∈ I, (W' j).card := by
  obtain ⟨j, hj⟩ := hne
  have hjI : j ∈ I := by
    by_contra hjI
    exact (hout j hjI ▸ hj).ne rfl
  exact Finset.sum_lt_sum (fun k _ => Finset.card_le_card (hsub k))
    ⟨j, hjI, Finset.card_lt_card hj⟩

/-- The total size of a family inside a finite universe is bounded. -/
lemma sum_card_le {I : Finset ι} {W : ι → Finset α} {U : Finset α} (hU : ∀ j, W j ⊆ U) :
    ∑ j ∈ I, (W j).card ≤ I.card * U.card := by
  calc ∑ j ∈ I, (W j).card ≤ ∑ _j ∈ I, U.card :=
        Finset.sum_le_sum fun j _ => Finset.card_le_card (hU j)
    _ = I.card * U.card := by rw [Finset.sum_const_nat fun _ _ => rfl]

section Merge

variable [DecidableEq ι] [DecidableEq α]

/-- Merge `s` into the member `i` of the family; the flag is raised when the member grows. -/
def addTo (i : ι) (s : Finset α) (st : (ι → Finset α) × Bool) : (ι → Finset α) × Bool :=
  if s ⊆ st.1 i then st else (Function.update st.1 i (st.1 i ∪ s), true)

variable {i : ι} {s : Finset α} {st : (ι → Finset α) × Bool}

/-- Membership after merging: what was there, and the merged set at its index. -/
lemma mem_addTo {j : ι} {a : α} :
    a ∈ (addTo i s st).1 j ↔ a ∈ st.1 j ∨ (j = i ∧ a ∈ s) := by
  unfold addTo
  by_cases hs : s ⊆ st.1 i
  · rw [if_pos hs]
    constructor
    · exact Or.inl
    · rintro (h | ⟨rfl, h⟩)
      · exact h
      · exact hs h
  · rw [if_neg hs]
    by_cases hj : j = i
    · subst hj
      simp
    · simp [hj]

/-- Merging a set into a member of the family only adds elements. -/
lemma subset_addTo (j : ι) : st.1 j ⊆ (addTo i s st).1 j :=
  fun _ ha => mem_addTo.mpr (Or.inl ha)

/-- After the merge the set is contained in the member into which it was merged. -/
lemma subset_addTo_self : s ⊆ (addTo i s st).1 i :=
  fun _ ha => mem_addTo.mpr (Or.inr ⟨rfl, ha⟩)

/-- A lowered flag after merging means that nothing happened. -/
lemma addTo_snd_eq_false :
    (addTo i s st).2 = false ↔ st.2 = false ∧ s ⊆ st.1 i := by
  unfold addTo
  by_cases hs : s ⊆ st.1 i <;> simp [hs]

/-- When the merge reports no change, the family is the one before. -/
lemma addTo_eq_of_snd (h : (addTo i s st).2 = false) : addTo i s st = st := by
  rw [addTo, if_pos (addTo_snd_eq_false.mp h).2]

/-- Merging a set into a member makes the family grow, and the flag tells whether it did. -/
lemma grows_addTo (i : ι) (s : Finset α) (st : (ι → Finset α) × Bool) :
    Grows st (addTo i s st) where
  subset := subset_addTo
  flag h := by
    by_contra hf
    rw [Bool.not_eq_true, addTo_snd_eq_false] at hf
    rw [h] at hf
    exact absurd hf.1 (by simp)
  changed h := by
    by_cases hs : s ⊆ st.1 i
    · rw [addTo, if_pos hs] at h
      exact Or.inl h
    · refine Or.inr ⟨i, Finset.ssubset_iff_subset_ne.mpr ⟨subset_addTo i, fun he => hs ?_⟩⟩
      rw [he]
      exact subset_addTo_self
  eq_of_flag h := by rw [addTo_eq_of_snd h]

end Merge

end Family

/-! ## Passes that can fail -/

section Fails

variable {α : Type*} {f : σ → α → Option σ} {l : List α}

/-- The result satisfies `I`, and if there is none then `E` holds. -/
def Returns (I : σ → Prop) (E : Prop) : Option σ → Prop
  | some s => I s
  | none => E

/-- Pass rule: what every visit keeps holds after the pass, and what the failure of a visit means
the failure of the pass means too. -/
theorem foldlM_returns {I : σ → Prop} {E : Prop} (hstep : ∀ a ∈ l, ∀ s, I s → Returns I E (f s a))
    {s : σ} (hs : I s) : Returns I E (l.foldlM f s) := by
  induction l generalizing s with
  | nil => exact hs
  | cons a l ih =>
    have ha := hstep a List.mem_cons_self s hs
    rw [List.foldlM_cons]
    rcases hf : f s a with _ | t
    · rw [hf] at ha
      exact ha
    · rw [hf] at ha
      exact ih (fun b hb => hstep b (List.mem_cons_of_mem a hb)) ha

/-- What every visit keeps holds after a pass that does not fail. -/
theorem foldlM_invariant {I : σ → Prop} (hstep : ∀ a ∈ l, ∀ s s', I s → f s a = some s' → I s')
    {s s' : σ} (hs : I s) (h : l.foldlM f s = some s') : I s' := by
  have hreturns : Returns I True (l.foldlM f s) := by
    apply foldlM_returns _ hs
    intro a ha t ht
    rcases hf : f t a with _ | t'
    · exact trivial
    · exact hstep a ha t t' ht hf
  rw [h] at hreturns
  exact hreturns

end Fails

end Loop
