import Mathlib.Logic.Relation
import Mathlib.Data.Nat.Notation
import Mathlib.Order.WellFounded
import Mathlib.Tactic.Basic

/-!
# Deterministic machines

A loop that ends from inside its body is a deterministic machine: `step` takes a state to the next
state or to a result.  `run` is the machine cut off after a number of steps, and `Reaches` is the
relation between a state and the states of its run.

The rules connect the two.  `run_spec` gives the last state of a run together with any invariant
that the steps keep, `run_map` compares two machines with the same states, `Reaches.run` turns a
path to a stopping state into a result, and `stops_of_measure` proves termination from a
well-founded measure.
-/

namespace Machine

variable {σ ρ : Type*} {step : σ → σ ⊕ ρ}

/-- The result of the run from `s`, if there is one within `n` steps. -/
def run (step : σ → σ ⊕ ρ) : ℕ → σ → Option ρ
  | 0, _ => none
  | n + 1, s =>
    match step s with
    | .inl s' => run step n s'
    | .inr r => some r

/-- `s'` is a state of the run from `s`, after any number of steps. -/
def Reaches (step : σ → σ ⊕ ρ) : σ → σ → Prop := Relation.ReflTransGen fun s s' => step s = .inl s'

/-- The run from `s` comes to a result after finitely many steps. -/
def Stops (step : σ → σ ⊕ ρ) (s : σ) : Prop := ∃ n r, run step n s = some r

/-- The states of the run from `s` in order, at most `n` of them. -/
def states (step : σ → σ ⊕ ρ) : ℕ → σ → List σ
  | 0, _ => []
  | n + 1, s => s :: match step s with
    | .inl s' => states step n s'
    | .inr _ => []

/-- Without any step there is no result yet. -/
@[simp] lemma run_zero (s : σ) : run step 0 s = none := rfl

/-- A run whose first step goes on is the run from the next state with one step less. -/
lemma run_succ_inl {n : ℕ} {s s' : σ} (h : step s = .inl s') :
    run step (n + 1) s = run step n s' := by
  rw [run, h]

/-- A run whose first step stops has the result of this step. -/
lemma run_succ_inr {n : ℕ} {s : σ} {r : ρ} (h : step s = .inr r) : run step (n + 1) s = some r := by
  rw [run, h]

/-- Every state is reached from itself, without a step. -/
lemma Reaches.refl (s : σ) : Reaches step s s := Relation.ReflTransGen.refl

/-- A state that is reached from a reached state is reached. -/
lemma Reaches.trans {s t u : σ} (hst : Reaches step s t) (htu : Reaches step t u) :
    Reaches step s u := Relation.ReflTransGen.trans hst htu

/-- The state behind one step is reached from the state in front of it. -/
lemma Reaches.single {s t : σ} (h : step s = .inl t) : Reaches step s t :=
  Relation.ReflTransGen.single h

/-- A step in front of a path makes a longer path. -/
lemma Reaches.head {s t u : σ} (h : step s = .inl t) (htu : Reaches step t u) : Reaches step s u :=
  Relation.ReflTransGen.head h htu

/-- Invariant rule: what every step keeps holds along the whole run. -/
theorem Reaches.invariant (I : σ → Prop) (hstep : ∀ s s', I s → step s = .inl s' → I s') {s s' : σ}
    (h : Reaches step s s') (hs : I s) : I s' := by
  induction h with
  | refl => exact hs
  | tail _ hlast ih => exact hstep _ _ ih hlast

/-- A run with a result reaches a state in which the next step gives this result. -/
theorem run_spec {n : ℕ} {s : σ} {r : ρ} (h : run step n s = some r) :
    ∃ s', Reaches step s s' ∧ step s' = .inr r := by
  induction n generalizing s with
  | zero => simp at h
  | succ n ih =>
    cases hs : step s with
    | inl s' =>
      rw [run_succ_inl hs] at h
      obtain ⟨t, ht, hr⟩ := ih h
      exact ⟨t, .head hs ht, hr⟩
    | inr r' =>
      rw [run_succ_inr hs, Option.some.injEq] at h
      subst h
      exact ⟨s, .refl s, hs⟩

/-- A path to a state that stops is a run with the result of that state. -/
theorem Reaches.run {s s' : σ} {r : ρ} (h : Reaches step s s') (hr : step s' = .inr r) :
    ∃ n, run step n s = some r := by
  induction h using Relation.ReflTransGen.head_induction_on with
  | refl => exact ⟨1, run_succ_inr hr⟩
  | head hs _ ih =>
    obtain ⟨n, hn⟩ := ih
    exact ⟨n + 1, (run_succ_inl hs).trans hn⟩

/-- A run that comes to a result comes to it from each of its states. -/
theorem Reaches.run_rest {n : ℕ} {s s' : σ} {r : ρ} (h : Reaches step s s')
    (hr : Machine.run step n s = some r) : ∃ m, Machine.run step m s' = some r := by
  induction h using Relation.ReflTransGen.head_induction_on generalizing n with
  | refl => exact ⟨n, hr⟩
  | head hs _ ih =>
    cases n with
    | zero => cases hr
    | succ n =>
      rw [run_succ_inl hs] at hr
      exact ih hr

/-- A run that comes to a result has no other states than these. -/
theorem Reaches.mem_states {n : ℕ} {s s' : σ} {r : ρ} (h : Reaches step s s')
    (hr : Machine.run step n s = some r) :
    s' ∈ states step n s := by
  induction h using Relation.ReflTransGen.head_induction_on generalizing n with
  | refl =>
    cases n with
    | zero => cases hr
    | succ n => exact List.mem_cons_self
  | head hs _ ih =>
    cases n with
    | zero => cases hr
    | succ n =>
      rw [run_succ_inl hs] at hr
      rw [states, hs]
      exact List.mem_cons_of_mem _ (ih hr)

/-- The states that are listed for a run are reached from its start. -/
theorem reaches_of_mem_states {n : ℕ} {s s' : σ} (h : s' ∈ states step n s) :
    Reaches step s s' := by
  induction n generalizing s with
  | zero => exact absurd h List.not_mem_nil
  | succ n ih =>
    rw [states] at h
    rcases List.mem_cons.mp h with rfl | h
    · exact .refl _
    · split at h
      · exact .head ‹_› (ih h)
      · exact absurd h List.not_mem_nil

/-- Termination rule with a bound: the number of steps is at most one more than a measure that every
step of a run with the invariant `I` decreases. -/
theorem run_of_measure (I : σ → Prop) (μ : σ → ℕ)
    (hstep : ∀ s s', I s → step s = .inl s' → I s' ∧ μ s' < μ s) {n : ℕ} {s : σ} (hs : I s)
    (hn : μ s < n) : ∃ r, run step n s = some r := by
  induction n generalizing s with
  | zero => omega
  | succ n ih =>
    cases h : step s with
    | inl s' =>
      obtain ⟨hs', hlt⟩ := hstep s s' hs h
      rw [run_succ_inl h]
      exact ih hs' (by omega)
    | inr r => exact ⟨r, run_succ_inr h⟩

/-- Termination rule: a measure that every step of a run with the invariant `I` decreases. -/
theorem stops_of_measure (I : σ → Prop) (μ : σ → ℕ)
    (hstep : ∀ s s', I s → step s = .inl s' → I s' ∧ μ s' < μ s) {s : σ} (hs : I s) :
    Stops step s := ⟨μ s + 1, run_of_measure I μ hstep hs (Nat.lt_succ_self _)⟩

/-- Two machines that differ in what they return only, as long as an invariant of their steps
holds. -/
theorem run_map {ρ' : Type*} {step' : σ → σ ⊕ ρ'} (f : ρ → ρ') (I : σ → Prop)
    (hstep : ∀ s s', I s → step s = .inl s' → I s') (hmap : ∀ s, I s → step' s = (step s).map id f)
    {s : σ} (hs : I s) (n : ℕ) : run step' n s = (run step n s).map f := by
  induction n generalizing s with
  | zero => rfl
  | succ n ih =>
    have hs' := hmap s hs
    cases h : step s with
    | inl t =>
      rw [h] at hs'
      rw [run_succ_inl h, run_succ_inl hs']
      exact ih (hstep s t hs h)
    | inr r =>
      rw [h] at hs'
      rw [run_succ_inr h, run_succ_inr hs']
      rfl

/-- A machine whose steps are those of another one, seen through a function on the states, as long
as an invariant holds. -/
theorem run_project {σ' ρ' α : Type*} {step' : σ' → σ' ⊕ ρ'} (f : σ → σ') (g : ρ → α) (g' : ρ' → α)
    (I : σ → Prop) (hstep : ∀ s s', I s → step s = .inl s' → I s')
    (hproject : ∀ s, I s → (step s).map f g = (step' (f s)).map id g') {s : σ} (hs : I s) (n : ℕ) :
    (run step n s).map g = (run step' n (f s)).map g' := by
  induction n generalizing s with
  | zero => rfl
  | succ n ih =>
    have hs' := hproject s hs
    rw [run, run]
    cases h : step s with
    | inl t =>
      rw [h] at hs'
      cases h' : step' (f s) with
      | inl t' =>
        rw [h'] at hs'
        obtain rfl : f t = t' := Sum.inl.inj hs'
        exact ih (hstep s t hs h)
      | inr r' =>
        rw [h'] at hs'
        cases hs'
    | inr r =>
      rw [h] at hs'
      cases h' : step' (f s) with
      | inl t' =>
        rw [h'] at hs'
        cases hs'
      | inr r' =>
        rw [h'] at hs'
        exact congrArg some (Sum.inr.inj hs')

/-- A result does not depend on the number of steps allowed. -/
theorem run_mono {m n : ℕ} (hmn : m ≤ n) {s : σ} {r : ρ} (h : run step m s = some r) :
    run step n s = some r := by
  induction m generalizing n s with
  | zero => simp at h
  | succ m ih =>
    obtain ⟨n, rfl⟩ : ∃ k, n = k + 1 := ⟨n - 1, by omega⟩
    cases hs : step s with
    | inl s' =>
      rw [run_succ_inl hs] at h ⊢
      exact ih (by omega) h
    | inr r' =>
      rw [run_succ_inr hs] at h ⊢
      exact h

/-- A run has at most one result, whatever the number of steps that it may take. -/
theorem run_unique {m n : ℕ} {s : σ} {r r' : ρ} (h : run step m s = some r)
    (h' : run step n s = some r') : r = r' := by
  have hm := run_mono (Nat.le_max_left m n) h
  have hn := run_mono (Nat.le_max_right m n) h'
  exact Option.some.inj (hm.symm.trans hn)

end Machine
