import Cgkits.Lib.Machine
import Mathlib.Data.Nat.Find
import Mathlib.Data.Set.Card

/-!
# Endless runs

A run that comes to no result is a sequence of states (`exists_endless`).  To show that there is
none, look at what must happen in the sequence again and again: a bounded quantity has a level to
which it comes back for ever and below which it is not found any more (`exists_level`), a quantity
that never grows is constant from some point on (`eventually_const`), and so is an element that
changes only along a relation without cycles (`eventually_const_of_acyclic`).
-/

namespace Machine

variable {σ ρ : Type*} {step : σ → σ ⊕ ρ}

/-- A run that never comes to a result is an infinite sequence of states, each the successor of the
one before. -/
theorem exists_endless {s : σ} (h : ¬ Stops step s) :
    ∃ f : ℕ → σ, f 0 = s ∧ ∀ n, step (f n) = .inl (f (n + 1)) := by
  -- the state behind a state of the run
  have hnext : ∀ t : {t // Reaches step s t}, ∃ u :
      {u // Reaches step s u}, step t.1 = .inl u.1 := by
    rintro ⟨t, ht⟩
    by_cases hstop : ∃ r, step t = .inr r
    · obtain ⟨r, hr⟩ := hstop
      obtain ⟨n, hn⟩ := ht.run hr
      exact absurd ⟨n, r, hn⟩ h
    · obtain ⟨u, hu⟩ : ∃ u, step t = .inl u := by
        rcases hstep : step t with u | r
        · exact ⟨u, rfl⟩
        · exact absurd ⟨r, hstep⟩ hstop
      exact ⟨⟨u, ht.trans (.single hu)⟩, hu⟩
  choose next hnext using hnext
  refine ⟨fun n => (next^[n] ⟨s, .refl s⟩).1, rfl, fun n => ?_⟩
  dsimp only
  rw [Function.iterate_succ_apply']
  exact hnext _

/-- A run has no result when there is always a next state with the invariant. -/
theorem run_eq_none (I : σ → Prop) (hstep : ∀ s, I s → ∃ s', step s = .inl s' ∧ I s') {s : σ}
    (hs : I s) (n : ℕ) : run step n s = none := by
  induction n generalizing s with
  | zero => exact run_zero s
  | succ n ih =>
    obtain ⟨s', hs', hI⟩ := hstep s hs
    rw [run_succ_inl hs']
    exact ih hI

end Machine

/-! ## What happens for ever -/

namespace Endless

/-- A bounded sequence has a level to which it always comes back and below which it does not fall
from some point on. -/
theorem exists_level {H : ℕ → ℕ} {B : ℕ} (hB : ∀ n, H n ≤ B) :
    ∃ h N, (∀ n, N ≤ n → h ≤ H n) ∧ ∀ m, ∃ n, m ≤ n ∧ H n = h := by
  classical
  have hex : ∃ h, ∀ m, ∃ n, m ≤ n ∧ H n ≤ h := ⟨B, fun m => ⟨m, Nat.le_refl m, hB m⟩⟩
  obtain ⟨N, hN⟩ : ∃ N, ∀ n, N ≤ n → Nat.find hex ≤ H n := by
    by_cases hzero : Nat.find hex = 0
    · exact ⟨0, fun n _ => hzero ▸ Nat.zero_le _⟩
    · have hlt : Nat.find hex - 1 < Nat.find hex := by omega
      have hmin := Nat.find_min hex hlt
      push Not at hmin
      obtain ⟨N, hN⟩ := hmin
      refine ⟨N, fun n hn => ?_⟩
      have hlt' := hN n hn
      omega
  refine ⟨Nat.find hex, N, hN, fun m => ?_⟩
  obtain ⟨n, hn, hle⟩ := Nat.find_spec hex (max m N)
  exact ⟨n, (Nat.le_max_left m N).trans hn,
    le_antisymm hle (hN n ((Nat.le_max_right m N).trans hn))⟩

/-- A quantity that never grows is constant from some point on. -/
theorem eventually_const {H : ℕ → ℕ} (hH : ∀ n, H (n + 1) ≤ H n) :
    ∃ N, ∀ n, N ≤ n → H (n + 1) = H n := by
  have hmono : Antitone H := antitone_nat_of_succ_le hH
  obtain ⟨h, N, hlow, hback⟩ := exists_level fun n => hmono (Nat.zero_le n)
  obtain ⟨m, hm, rfl⟩ := hback N
  have hconst : ∀ n, m ≤ n → H n = H m := fun n hn => le_antisymm (hmono hn) (hlow n (hm.trans hn))
  exact ⟨m, fun n hn => (hconst (n + 1) (hn.trans (Nat.le_succ n))).trans (hconst n hn).symm⟩

/-- An element that changes only along a relation without cycles, and takes finitely many values, is
constant from some point on. -/
theorem eventually_const_of_acyclic {α : Type*} {R : α → α → Prop}
    (hR : ∀ a, ¬ Relation.TransGen R a a) {S : Set α} (hS : S.Finite) {x : ℕ → α}
    (hx : ∀ n, x (n + 1) = x n ∨ (x (n + 1) ∈ S ∧ R (x n) (x (n + 1)))) :
    ∃ N, ∀ n, N ≤ n → x (n + 1) = x n := by
  classical
  -- the elements that can still come get fewer
  let ahead : α → Set α := fun a => {b | b ∈ S ∧ Relation.TransGen R a b}
  have hfin : ∀ a, (ahead a).Finite := fun a => hS.subset fun b hb => hb.1
  have hlt : ∀ a b, b ∈ S → R a b → (ahead b).ncard < (ahead a).ncard := by
    intro a b hb hab
    apply Set.ncard_lt_ncard _ (hfin a)
    refine ⟨fun c hc => ⟨hc.1, .head hab hc.2⟩, fun hsub => ?_⟩
    exact hR b (hsub (show b ∈ ahead a from ⟨hb, .single hab⟩)).2
  have hanti : ∀ n, (ahead (x (n + 1))).ncard ≤ (ahead (x n)).ncard := by
    intro n
    rcases hx n with heq | ⟨hmem, hstep⟩
    · rw [heq]
    · exact (hlt _ _ hmem hstep).le
  obtain ⟨N, hN⟩ := eventually_const (H := fun n => (ahead (x n)).ncard) hanti
  refine ⟨N, fun n hn => (hx n).resolve_right ?_⟩
  rintro ⟨hmem, hstep⟩
  exact absurd (hN n hn) (hlt _ _ hmem hstep).ne

end Endless
