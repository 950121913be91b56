import Mathlib.Logic.Relation

/-!
# Labelled steps

`step i s t` says that a step with the label `i` leads from `s` to `t`, and `Trace step l s t` that
the steps with the labels of `l` lead there, one after another.  A label may be a call together with
its result, so a trace is what somebody sees who makes the calls.

There are two rules.  `Trace.invariant` is for what every step keeps.  `Trace.simulation` is for two
systems with the same labels: when every step of the first one can be followed in the second one, so
can every trace.
-/

variable {ι σ τ : Type*}

/-- The steps with the labels of the list lead from one state to another. -/
inductive Trace (step : ι → σ → σ → Prop) : List ι → σ → σ → Prop
  /-- No step is made, and the state stays. -/
  | nil (s : σ) : Trace step [] s s
  /-- One step is made, and then the others. -/
  | cons {i : ι} {l : List ι} {s t u : σ} (h : step i s t) (rest : Trace step l t u) :
    Trace step (i :: l) s u

namespace Trace

variable {step : ι → σ → σ → Prop} {step' : ι → τ → τ → Prop} {i : ι} {l l' : List ι} {s t u : σ}

/-- There is one empty trace, from a state to itself. -/
@[simp] lemma nil_iff : Trace step [] s t ↔ t = s := by
  constructor
  · rintro ⟨⟩
    rfl
  · rintro rfl
    exact .nil _

/-- A trace with a first input is a step with it and a trace from there. -/
@[simp] lemma cons_iff : Trace step (i :: l) s u ↔ ∃ t, step i s t ∧ Trace step l t u := by
  constructor
  · rintro (- | ⟨h, rest⟩)
    exact ⟨_, h, rest⟩
  · rintro ⟨t, h, rest⟩
    exact .cons h rest

/-- A trace on two lists of inputs is a trace on the first one and then a trace on the second
one. -/
lemma append_iff : Trace step (l ++ l') s u ↔ ∃ t, Trace step l s t ∧ Trace step l' t u := by
  induction l generalizing s with
  | nil => simp
  | cons i l ih =>
    rw [List.cons_append, cons_iff]
    simp only [ih, cons_iff]
    constructor
    · rintro ⟨t, h, v, hl, hl'⟩
      exact ⟨v, ⟨t, h, hl⟩, hl'⟩
    · rintro ⟨v, ⟨t, h, hl⟩, hl'⟩
      exact ⟨t, h, v, hl, hl'⟩

/-- Two traces, the second from where the first ends, are one trace. -/
lemma append (h : Trace step l s t) (h' : Trace step l' t u) : Trace step (l ++ l') s u :=
  append_iff.mpr ⟨t, h, h'⟩

/-- Invariant rule: what every step with a label of the list keeps holds at the end. -/
theorem invariant (I : σ → Prop) (hstep : ∀ i ∈ l, ∀ s t, I s → step i s t → I t)
    (h : Trace step l s t) (hs : I s) : I t := by
  induction h with
  | nil => exact hs
  | cons h _ ih =>
    exact ih (fun i hi => hstep i (List.mem_cons_of_mem _ hi)) (hstep _ List.mem_cons_self _ _ hs h)

/-- Simulation rule: when every step with a label of the list can be followed, the trace can. -/
theorem simulation (R : σ → τ → Prop)
    (hstep : ∀ i ∈ l, ∀ s t s', R s s' → step i s t → ∃ t', step' i s' t' ∧ R t t')
    (h : Trace step l s t) {s' : τ} (hs : R s s') : ∃ t', Trace step' l s' t' ∧ R t t' := by
  induction h generalizing s' with
  | nil => exact ⟨s', .nil s', hs⟩
  | cons h _ ih =>
    obtain ⟨t', h', ht⟩ := hstep _ List.mem_cons_self _ _ _ hs h
    obtain ⟨u', hrest, hu⟩ := ih (fun i hi => hstep i (List.mem_cons_of_mem _ hi)) ht
    exact ⟨u', .cons h' hrest, hu⟩

end Trace
