import Cgkits.Lex.Terp
import Mathlib.Order.Bounds.Basic

/-!
# The work stack of the epsilon closure (`terp.c`)

The stack of `e_closure` is an array with `NFA_MAX` entries, and nothing tests that it has room.
`eClosureIn` is the function with that array: a push on the full stack is a write behind it, and
there is no result.

A state is pushed only when it is added to the set, so the stack is never higher than the set is
large (`ClosureInv.stack_le`), and the writes stay in the array.  What the function leaves in the
set is the least closed set around the given one.
-/

namespace Lex

open Machine

/-- `*++tos = i`, which is a write outside of the array when the stack is full. -/
def Closure.pushTos (st : Closure) (i : ℕ) : Option Closure :=
  if st.stack.length < nfaMax then some { st with stack := i :: st.stack } else none

/-- `if (!SET_MEMBER(input, i)) { SET_ADD(input, i); *++tos = i; }`, for a pointer that is not
null. -/
def Closure.pushIn (st : Closure) : Option ℕ → Option Closure
  | none => some st
  | some i => if i ∈ st.set then some st else { st with set := insert i st.set }.pushTos i

/-- The loop body of `e_closure`, without a result when it writes behind the stack. -/
def closureStepIn (m : Nfa) (st : Closure) : Closure ⊕ Option Closure :=
  match st.stack with
  | [] => .inr (some st)
  | i :: stack =>
    let st := { st with stack := stack }.record i (m.node i)
    if (m.node i).edge = epsilon then
      match (st.pushIn (m.node i).next).bind fun st => st.pushIn (m.node i).next2 with
      | some st => .inl st
      | none => .inr none
    else .inl st

/-- `e_closure` with its stack of `NFA_MAX` entries: nothing when a push leaves the array. -/
def eClosureIn (m : Nfa) (input : Finset ℕ) (anchor : ℕ) : Option (Option Closure) :=
  match (members m input).foldlM Closure.pushTos ⟨input, [], none, none, anchor⟩ with
  | some st => run (closureStepIn m) (2 * nfaMax + 1) st
  | none => some none

variable {m : Nfa} {S : Finset ℕ} {st : Closure} {anchor : ℕ}

/-! ## The height of the stack -/

/-- The members of the set, and the states on the stack, are no more than the array has entries. -/
structure Closure.Roomy (m : Nfa) (st : Closure) : Prop where
  /-- The stack is not higher than the set is large. -/
  stack_le : st.stack.length ≤ st.set.card
  /-- The members of the set are states of the machine. -/
  lt : ∀ i ∈ st.set, i < m.nstates

/-- A set of states has at most `NFA_MAX` members. -/
lemma Closure.Roomy.card_le (h : st.Roomy m) : st.set.card ≤ nfaMax := by
  have hsub : st.set ⊆ Finset.range m.nstates := fun i hi => Finset.mem_range.mpr (h.lt i hi)
  have hcard := Finset.card_le_card hsub
  rw [Finset.card_range] at hcard
  exact hcard.trans m.le

/-- Pushing a state keeps the stack low, because the set grows with it. -/
lemma Closure.Roomy.push (h : st.Roomy m) {j : Option ℕ} (hj : ∀ i ∈ j, i < m.nstates) :
    (st.push j).Roomy m := by
  obtain ⟨hheight, hcard⟩ := push_card st j
  have hle := h.stack_le
  refine ⟨by omega, fun i hi => ?_⟩
  cases mem_push.mp hi with
  | inl hi => exact h.lt i hi
  | inr hi => exact hj i hi

/-- A state of the machine can be pushed into the array. -/
lemma Closure.Roomy.pushIn_eq (h : st.Roomy m) {j : Option ℕ} (hj : ∀ i ∈ j, i < m.nstates) :
    st.pushIn j = some (st.push j) := by
  cases j with
  | none => rfl
  | some j =>
    by_cases hmem : j ∈ st.set
    · rw [push_of_mem hmem]
      exact if_pos hmem
    · -- with the new state the set still fits, so there was room for one more entry
      have hpush := (h.push hj).card_le
      rw [push_of_notMem hmem] at hpush ⊢
      rw [Finset.card_insert_of_notMem hmem] at hpush
      have hroom : st.stack.length < nfaMax :=
        Nat.lt_of_le_of_lt h.stack_le (Nat.lt_of_succ_le hpush)
      rw [Closure.pushIn, if_neg hmem]
      exact if_pos hroom

/-- What is popped was a state, and the stack has room for it again. -/
lemma Closure.Roomy.pop (h : st.Roomy m) {i : ℕ} {stack : List ℕ} (hstack : st.stack = i :: stack)
    (p : Node) : ({ st with stack := stack }.record i p).Roomy m := by
  obtain ⟨hset, hrest⟩ := record_set { st with stack := stack } i p
  have hle := h.stack_le
  rw [hstack, List.length_cons] at hle
  refine ⟨?_, ?_⟩
  · rw [hset, hrest]
    exact Nat.le_of_succ_le hle
  · rw [hset]
    exact h.lt

/-- A body of the loop stays in the array and does what the body without the bound does. -/
lemma closureStepIn_eq (h : st.Roomy m) (hmem : ∀ i ∈ st.stack, i ∈ st.set) :
    closureStepIn m st = (closureStep m st).map id some := by
  unfold closureStepIn closureStep
  cases hstack : st.stack with
  | nil => rfl
  | cons i stack =>
    have hi : i < m.nstates := h.lt i (hmem i (hstack ▸ List.mem_cons_self))
    have hpop := h.pop hstack (m.node i)
    have hnext := hpop.pushIn_eq (m.next_lt i hi)
    have hnext2 := (hpop.push (m.next_lt i hi)).pushIn_eq (m.next2_lt i hi)
    dsimp only
    split
    · rw [hnext, Option.bind_some, hnext2]
      rfl
    · rfl

/-- A body of the loop keeps the stack so low that the next one stays in the array. -/
lemma Closure.Roomy.step {st' : Closure} (h : st.Roomy m) (hinv : ClosureInv m S st)
    (hstep : closureStep m st = .inl st') : st'.Roomy m := by
  obtain ⟨hheight, hcard⟩ := closureStep_card hstep
  have hle := h.stack_le
  exact ⟨by omega, (hinv.step hstep).lt⟩

/-- The members of the set fit into the array. -/
lemma foldlM_pushTos {l : List ℕ} (h : st.stack.length + l.length ≤ nfaMax) :
    l.foldlM Closure.pushTos st = some { st with stack := l.reverse ++ st.stack } := by
  induction l generalizing st with
  | nil => rfl
  | cons i l ih =>
    rw [List.length_cons] at h
    have hpush : st.pushTos i = some { st with stack := i :: st.stack } := if_pos (by omega)
    rw [List.foldlM_cons, hpush, Option.bind_eq_bind, Option.bind_some,
      ih (by rw [List.length_cons]; omega), List.reverse_cons, List.append_assoc]
    rfl

/-- The function with the array does what the one with an unbounded stack does. -/
theorem eClosureIn_eq (hS : ∀ i ∈ S, i < m.nstates) (anchor : ℕ) :
    eClosureIn m S anchor = (eClosure m S anchor).map some := by
  have hinit : Closure.Roomy m ⟨S, (members m S).reverse, none, none, anchor⟩ :=
    ⟨(List.length_reverse ..).trans_le (length_members_le S), hS⟩
  have hfit : (members m S).length ≤ nfaMax := (length_members_le S).trans hinit.card_le
  have hpush :=
    @foldlM_pushTos ⟨S, [], none, none, anchor⟩ (members m S)
      (by rwa [List.length_nil, Nat.zero_add])
  rw [List.append_nil] at hpush
  rw [eClosureIn, hpush]
  apply run_map some fun st => ClosureInv m S st ∧ st.Roomy m
  · exact fun st st' h hstep => ⟨h.1.step hstep, h.2.step h.1 hstep⟩
  · exact fun st h => closureStepIn_eq h.2 h.1.stack
  · exact ⟨ClosureInv.init hS anchor, hinit⟩

/-! ## The least closed set -/

/-- When nothing is recorded, no accepting state has been met and the anchor is the one before. -/
lemma record_anchor {i : ℕ} {p : Node} (h : (st.record i p).acceptNum = none) :
    (st.record i p).anchor = st.anchor ∧ st.acceptNum = none := by
  unfold Closure.record at h ⊢
  split at h
  · cases h
  · rename_i hc
    rw [if_neg hc]
    exact ⟨rfl, h⟩

/-- Without an accepting state `*anchor` is left as it was. -/
lemma anchor_step {st' : Closure} (hstep : closureStep m st = .inl st')
    (h : st.acceptNum = none → st.anchor = anchor) : st'.acceptNum = none →
    st'.anchor = anchor := by
  intro hnone
  unfold closureStep at hstep
  split at hstep
  · cases hstep
  · rename_i i stack hstack
    dsimp only at hstep
    split at hstep
    · cases hstep
      obtain ⟨hn₂, -, ha₂⟩ :=
        push_fields (({ st with stack := stack }.record i (m.node i)).push (m.node i).next)
          (m.node i).next2
      obtain ⟨hn₁, -, ha₁⟩ :=
        push_fields ({ st with stack := stack }.record i (m.node i)) (m.node i).next
      obtain ⟨ha, hn⟩ := record_anchor (hn₁.symm.trans (hn₂.symm.trans hnone))
      exact (ha₂.trans ha₁).trans (ha.trans (h hn))
    · cases hstep
      obtain ⟨ha, hn⟩ := record_anchor hnone
      exact ha.trans (h hn)

/-- `e_closure` ends without a write behind its stack.  What it leaves in the set is the least set
around the given one that is left only by reading, `*accept` and `*anchor` are those of the
accepting state with the lowest number in it, and without an accepting state `*accept` is null and
`*anchor` is left as it was. -/
theorem eClosureIn_spec (hS : ∀ i ∈ S, i < m.nstates) (anchor : ℕ) :
    ∃ st, eClosureIn m S anchor = some (some st) ∧ IsLeast {T | S ⊆ T ∧ Closed m T} st.set ∧
      Records m st.set st.accept st.anchor ∧ (st.accept = none → st.anchor = anchor) := by
  obtain ⟨st, hrun, hset, hclosed, hrecords⟩ := eClosure_spec hS anchor
  refine ⟨st, ?_, ⟨⟨fun i hi => (hset i).mpr ⟨i, hi, .refl i⟩, hclosed⟩, ?_⟩, hrecords, fun hnone =>
    ?_⟩
  · rw [eClosureIn_eq hS, hrun, Option.map_some]
  · -- a closed set around the given one contains all that is reached from there
    rintro T ⟨hST, hT⟩ j hj
    obtain ⟨i, hi, hpath⟩ := (hset j).mp hj
    exact hT.mem hpath rfl (hST hi)
  · obtain ⟨st', hreach, hstop⟩ := run_spec hrun
    have hst : st' = st := by
      unfold closureStep at hstop
      split at hstop
      · exact Sum.inr.inj hstop
      · dsimp only at hstop
        split at hstop <;> cases hstop
    subst hst
    have hinv :=
      hreach.invariant (ClosureInv m S) (fun _ _ h hs => h.step hs) (ClosureInv.init hS anchor)
    have hanchor := hreach.invariant (fun st => st.acceptNum = none → st.anchor = anchor)
      (fun _ _ h hs => anchor_step hs h) (fun _ => rfl)
    apply hanchor
    -- a recorded state has an accept string
    cases hnum : st'.acceptNum with
    | none => rfl
    | some k =>
      obtain ⟨-, hk, haccept, -⟩ := hinv.num k hnum
      exact absurd (haccept.symm.trans hnone) hk

/-- A machine whose start state leads to two accepting states. -/
def forkNfa : Nfa where
  node i := ⟨if i = 0 then epsilon else empty, ⟨∅, false⟩, if i = 0 then some 1 else none,
    if i = 0 then some 2 else none, if i = 0 then none else some i, 0⟩
  nstates := 3
  start := 0
  le := by decide
  start_lt := by decide
  next_lt := by decide
  next2_lt := by decide

/-- The closure of the start state of `forkNfa` is computed within the array. -/
theorem eClosureIn_spec_fork :
    (∀ i ∈ ({0} : Finset ℕ), i < forkNfa.nstates) ∧
      ∃ st, eClosureIn forkNfa {0} 0 = some (some st) ∧
        IsLeast {T | {0} ⊆ T ∧ Closed forkNfa T} st.set ∧
        Records forkNfa st.set st.accept st.anchor ∧ (st.accept = none → st.anchor = 0) :=
  ⟨by decide, eClosureIn_spec (by decide) 0⟩

end Lex
