import Cgkits.Lex.Dfa
import Cgkits.Lex.Thompson
import Cgkits.Lib.Machine
import Mathlib.Data.Finset.Card

/-!
# Running the machine (`terp.c`)

`eClosure` adds to a set of states all states that are reached without reading a character, and
finds the accepting state with the lowest number on the way.  It is a worklist loop.  `move` reads
one character.

`Path` is the meaning of the machine: the strings that lead from one state to another one.
`eClosure_spec` and `mem_move_iff` state what the two functions compute in terms of paths, and the
accept string and anchor that `eClosure` records are those of the lowest accepting state
(`Records`).
-/

namespace Lex

open Machine

/-- The machine, as `nfa` gets it from `thompson`: the states, their number, and the start. -/
structure Nfa where
  /-- `_nfa`, the states by their numbers. -/
  node : ℕ → Node
  /-- `_nstates`, the number of states in use. -/
  nstates : ℕ
  /-- The state where the machine starts. -/
  start : ℕ
  /-- The machine fits into the array. -/
  le : nstates ≤ nfaMax
  /-- The start state is a state. -/
  start_lt : start < nstates
  /-- The pointers lead to states. -/
  next_lt : ∀ i < nstates, ∀ j ∈ (node i).next, j < nstates
  /-- The same for the second pointers. -/
  next2_lt : ∀ i < nstates, ∀ j ∈ (node i).next2, j < nstates

/-- The edge of the state is labelled with the character, or with a class that it belongs to. -/
def Node.reads (p : Node) (c : Fin maxChars) : Bool :=
  p.edge = (c : ℕ) ∨ (p.edge = ccl ∧ p.bitset.test (c : ℕ))

/-- The variables of `e_closure`: the set, the stack, and what is known of the accepting state. -/
structure Closure where
  /-- `input`, the set of states that grows. -/
  set : Finset ℕ
  /-- `stack`, the states still to be looked at, top first. -/
  stack : List ℕ
  /-- `accept_num`, where `none` stands for `INT_MAX`. -/
  acceptNum : Option ℕ
  /-- `*accept`, the accept string found so far. -/
  accept : Option ℕ
  /-- `*anchor`, the anchor that belongs to it. -/
  anchor : ℕ

/-- Add a state to the closure and push it, if it is new. -/
def Closure.push (st : Closure) : Option ℕ → Closure
  | none => st
  | some j =>
    if j ∈ st.set then st else { st with set := insert j st.set, stack := j :: st.stack }

/-- Record the accept string of the state `i`, if it is an accepting state with a lower number than
those seen before. -/
def Closure.record (st : Closure) (i : ℕ) (p : Node) : Closure :=
  if p.accept ≠ none ∧ (∀ k ∈ st.acceptNum, i < k) then
    { st with acceptNum := some i, accept := p.accept, anchor := p.anchor }
  else st

/-- The loop body of `e_closure`: pop a state, record it if it accepts, and push what it leads to
without reading. -/
def closureStep (m : Nfa) (st : Closure) : Closure ⊕ Closure :=
  match st.stack with
  | [] => .inr st
  | i :: stack =>
    let st := { st with stack := stack }.record i (m.node i)
    if (m.node i).edge = epsilon then .inl ((st.push (m.node i).next).push (m.node i).next2)
    else .inl st

/-- The states of a set in the order of `set_next_member`. -/
def members (m : Nfa) (input : Finset ℕ) : List ℕ := (List.range m.nstates).filter (· ∈ input)

/-- `e_closure`; `anchor` is the value of `*anchor` before the call. -/
def eClosure (m : Nfa) (input : Finset ℕ) (anchor : ℕ) : Option Closure :=
  run (closureStep m) (2 * nfaMax + 1)
    ⟨input, (members m input).reverse, none, none, anchor⟩

/-- The state that the member `i` of `inpSet` contributes to `move`.  A state whose edge is a
character or a class has a next state. -/
def moveFrom (m : Nfa) (inpSet : Finset ℕ) (c : Fin maxChars) (i : ℕ) : Option ℕ :=
  if i ∈ inpSet ∧ (m.node i).reads c then (m.node i).next else none

/-- `move`: the states that the states of a set lead to with a character, if there are any. -/
def move (m : Nfa) (inpSet : Finset ℕ) (c : Fin maxChars) : Option (Finset ℕ) :=
  match (List.range m.nstates).reverse.filterMap (moveFrom m inpSet c) with
  | [] => none
  | outset => some outset.toFinset

/-! ## Paths -/

/-- The string leads from one state of the machine to another one. -/
inductive Path (m : Nfa) : ℕ → List (Fin maxChars) → ℕ → Prop
  /-- The empty path leads from a state to itself. -/
  | refl (i : ℕ) : Path m i [] i
  /-- A move to the next state without reading. -/
  | next {i j k : ℕ} {w : List (Fin maxChars)} : (m.node i).edge = epsilon →
      (m.node i).next = some j → Path m j w k → Path m i w k
  /-- A move to the other next state without reading. -/
  | next2 {i j k : ℕ} {w : List (Fin maxChars)} : (m.node i).edge = epsilon →
      (m.node i).next2 = some j → Path m j w k → Path m i w k
  /-- A path that reads a character first. -/
  | read {i j k : ℕ} {c : Fin maxChars} {w : List (Fin maxChars)} : (m.node i).reads c = true →
      (m.node i).next = some j → Path m j w k → Path m i (c :: w) k

variable {m : Nfa}

/-- Two paths, the second from the end of the first, make one path over both strings. -/
lemma Path.trans {i j k : ℕ} {u v : List (Fin maxChars)} (h : Path m i u j) (h' : Path m j v k) :
    Path m i (u ++ v) k := by
  induction h with
  | refl i => exact h'
  | next he hn _ ih => exact .next he hn (ih h')
  | next2 he hn _ ih => exact .next2 he hn (ih h')
  | read hr hn _ ih => exact .read hr hn (ih h')

/-- A path from a state of the machine leads to a state of the machine. -/
lemma Path.lt {i j : ℕ} {w : List (Fin maxChars)} (h : Path m i w j) (hi : i < m.nstates) :
    j < m.nstates := by
  induction h with
  | refl i => exact hi
  | next _ hn _ ih => exact ih (m.next_lt _ hi _ hn)
  | next2 _ hn _ ih => exact ih (m.next2_lt _ hi _ hn)
  | read _ hn _ ih => exact ih (m.next_lt _ hi _ hn)

/-- A set of states that is left only by reading a character. -/
def Closed (m : Nfa) (S : Finset ℕ) : Prop :=
  ∀ i ∈ S, (m.node i).edge = epsilon →
    (∀ j ∈ (m.node i).next, j ∈ S) ∧ ∀ j ∈ (m.node i).next2, j ∈ S

/-- A path that reads nothing stays in a closed set. -/
lemma Closed.mem {S : Finset ℕ} (hS : Closed m S) {i j : ℕ} {w : List (Fin maxChars)}
    (h : Path m i w j) (hw : w = []) (hi : i ∈ S) : j ∈ S := by
  induction h with
  | refl i => exact hi
  | next he hn _ ih => exact ih hw ((hS _ hi he).1 _ hn)
  | next2 he hn _ ih => exact ih hw ((hS _ hi he).2 _ hn)
  | read _ _ _ _ => cases hw

/-- A path from a closed set that reads a character does so in a state of the set. -/
lemma Closed.read {S : Finset ℕ} (hS : Closed m S) {i k : ℕ} {c : Fin maxChars}
    {v w : List (Fin maxChars)} (h : Path m i v k) (hv : v = c :: w) (hi : i ∈ S) :
    ∃ i' ∈ S, (m.node i').reads c = true ∧ ∃ j, (m.node i').next = some j ∧ Path m j w k := by
  induction h with
  | refl i => cases hv
  | next he hn _ ih => exact ih hv ((hS _ hi he).1 _ hn)
  | next2 he hn _ ih => exact ih hv ((hS _ hi he).2 _ hn)
  | read hr hn hp _ =>
    cases hv
    exact ⟨_, hi, hr, _, hn, hp⟩

/-! ## `e_closure` -/

/-- The accept string and the anchor are those of the accepting state of `S` with the lowest number;
without an accepting state there is no accept string. -/
def Records (m : Nfa) (S : Finset ℕ) (accept : Option ℕ) (anchor : ℕ) : Prop :=
  ((∀ i ∈ S, (m.node i).accept = none) ∧ accept = none) ∨
    ∃ k ∈ S, (m.node k).accept ≠ none ∧ (∀ i ∈ S, (m.node i).accept ≠ none → k ≤ i) ∧
      accept = (m.node k).accept ∧ anchor = (m.node k).anchor

/-- The invariant of the loop of `e_closure`, for the set `S` that it starts with. -/
structure ClosureInv (m : Nfa) (S : Finset ℕ) (st : Closure) : Prop where
  /-- The closure contains states only. -/
  lt : ∀ i ∈ st.set, i < m.nstates
  /-- The closure contains the given set. -/
  base : S ⊆ st.set
  /-- Every state of the closure is reached. -/
  sound : ∀ j ∈ st.set, ∃ i ∈ S, Path m i [] j
  /-- What is on the stack is in the closure. -/
  stack : ∀ i ∈ st.stack, i ∈ st.set
  /-- The successors of a state that is not on the stack are in the closure. -/
  closed : ∀ i ∈ st.set, i ∉ st.stack → (m.node i).edge = epsilon →
    (∀ j ∈ (m.node i).next, j ∈ st.set) ∧ ∀ j ∈ (m.node i).next2, j ∈ st.set
  /-- No accepting state that is not on the stack has a lower number. -/
  low : ∀ i ∈ st.set, i ∉ st.stack → (m.node i).accept ≠ none → ∃ k ∈ st.acceptNum, k ≤ i
  /-- The recorded state is an accepting state of the closure. -/
  num : ∀ k ∈ st.acceptNum, k ∈ st.set ∧ (m.node k).accept ≠ none ∧
    st.accept = (m.node k).accept ∧ st.anchor = (m.node k).anchor
  /-- Without a recorded state there is no accept string. -/
  unset : st.acceptNum = none → st.accept = none

/-- Pushing a state that the closure has leaves the closure as it is. -/
lemma push_of_mem {st : Closure} {j : ℕ} (hj : j ∈ st.set) : st.push (some j) = st := if_pos hj

/-- Pushing a new state adds it to the set and to the stack. -/
lemma push_of_notMem {st : Closure} {j : ℕ} (hj : j ∉ st.set) :
    st.push (some j) = { st with set := insert j st.set, stack := j :: st.stack } := if_neg hj

/-- Pushing adds the pushed state to the closure and no other one. -/
lemma mem_push {st : Closure} {j : Option ℕ} {x : ℕ} :
    x ∈ (st.push j).set ↔ x ∈ st.set ∨ x ∈ j := by
  cases j with
  | none => simp [Closure.push]
  | some j =>
    by_cases hj : j ∈ st.set
    · rw [push_of_mem hj, Option.mem_some_iff]
      constructor
      · exact Or.inl
      · rintro (hx | rfl)
        · exact hx
        · exact hj
    · rw [push_of_notMem hj, Option.mem_some_iff, Finset.mem_insert, or_comm, eq_comm]

/-- A state that is not on the stack after pushing was in the closure before and was not on the
stack. -/
lemma mem_of_notMem_push {st : Closure} {j : Option ℕ} {x : ℕ} (hx : x ∈ (st.push j).set)
    (hs : x ∉ (st.push j).stack) : x ∈ st.set ∧ x ∉ st.stack := by
  cases j with
  | none => exact ⟨hx, hs⟩
  | some j =>
    by_cases hj : j ∈ st.set
    · rw [push_of_mem hj] at hx hs
      exact ⟨hx, hs⟩
    · rw [push_of_notMem hj] at hx hs
      rw [List.mem_cons, not_or] at hs
      cases Finset.mem_insert.mp hx with
      | inl he => exact absurd he hs.1
      | inr hx => exact ⟨hx, hs.2⟩

/-- What is on the stack after pushing was there before or is in the closure. -/
lemma mem_stack_push {st : Closure} {j : Option ℕ} {x : ℕ} (hx : x ∈ (st.push j).stack) :
    x ∈ st.stack ∨ x ∈ (st.push j).set := by
  cases j with
  | none => exact Or.inl hx
  | some j =>
    by_cases hj : j ∈ st.set
    · rw [push_of_mem hj] at hx
      exact Or.inl hx
    · rw [push_of_notMem hj] at hx ⊢
      cases List.mem_cons.mp hx with
      | inl he => exact Or.inr (he ▸ Finset.mem_insert_self _ _)
      | inr hx => exact Or.inl hx

/-- Pushing does not change what has been recorded of the accepting state. -/
lemma push_fields (st : Closure) (j : Option ℕ) :
    (st.push j).acceptNum = st.acceptNum ∧ (st.push j).accept = st.accept ∧
      (st.push j).anchor = st.anchor := by
  cases j with
  | none => exact ⟨rfl, rfl, rfl⟩
  | some j =>
    by_cases hj : j ∈ st.set
    · rw [push_of_mem hj]
      exact ⟨rfl, rfl, rfl⟩
    · rw [push_of_notMem hj]
      exact ⟨rfl, rfl, rfl⟩

/-- Recording does not change the closure and the stack. -/
lemma record_set (st : Closure) (i : ℕ) (p : Node) :
    (st.record i p).set = st.set ∧ (st.record i p).stack = st.stack := by
  unfold Closure.record
  split <;> exact ⟨rfl, rfl⟩

/-- The recorded number after recording: the old one or that of the given accepting state. -/
lemma record_num {st : Closure} {i k : ℕ} {p : Node} (hk : k ∈ (st.record i p).acceptNum) :
    (k ∈ st.acceptNum ∧ (st.record i p).accept = st.accept ∧
        (st.record i p).anchor = st.anchor) ∨
      (k = i ∧ p.accept ≠ none ∧ (st.record i p).accept = p.accept ∧
        (st.record i p).anchor = p.anchor) := by
  unfold Closure.record at hk ⊢
  split at hk
  · rename_i hc
    rw [if_pos hc]
    exact Or.inr ⟨(Option.mem_some_iff.mp hk).symm, hc.1, rfl, rfl⟩
  · rename_i hc
    rw [if_neg hc]
    exact Or.inl ⟨hk, rfl, rfl⟩

/-- Recording a state never raises the number that is recorded. -/
lemma record_le {st : Closure} {i k : ℕ} {p : Node} (hk : k ∈ st.acceptNum) :
    ∃ k' ∈ (st.record i p).acceptNum, k' ≤ k := by
  unfold Closure.record
  split
  · rename_i hc
    exact ⟨i, rfl, (hc.2 k hk).le⟩
  · exact ⟨k, hk, le_rfl⟩

/-- After recording an accepting state, the recorded number is at most its number. -/
lemma record_self {st : Closure} {i : ℕ} {p : Node} (hp : p.accept ≠ none) :
    ∃ k ∈ (st.record i p).acceptNum, k ≤ i := by
  unfold Closure.record
  split
  · exact ⟨i, rfl, le_rfl⟩
  · rename_i hc
    have hk : ¬ ∀ k ∈ st.acceptNum, i < k := fun h => hc ⟨hp, h⟩
    push Not at hk
    exact hk

/-- Without a recorded state before and after, there is no accept string. -/
lemma record_unset {st : Closure} {i : ℕ} {p : Node} (hst : st.acceptNum = none → st.accept = none)
    (h : (st.record i p).acceptNum = none) : (st.record i p).accept = none := by
  unfold Closure.record at h ⊢
  split at h
  · cases h
  · rename_i hc
    rw [if_neg hc]
    exact hst h

/-- The invariant after the state `i` has been popped, for a new closure `st'` that records `i` and
contains the states that `i` leads to. -/
lemma ClosureInv.visit {S : Finset ℕ} {st st' : Closure} {i : ℕ} {stack : List ℕ}
    (h : ClosureInv m S st) (hstack : st.stack = i :: stack)
    (hset : ∀ x, x ∈ st'.set ↔ x ∈ st.set ∨ ((m.node i).edge = epsilon ∧
      (x ∈ (m.node i).next ∨ x ∈ (m.node i).next2)))
    (hpop : ∀ x ∈ st'.set, x ∉ st'.stack → x ∈ st.set ∧ x ∉ stack)
    (hpush : ∀ x ∈ st'.stack, x ∈ stack ∨ x ∈ st'.set)
    (hnum : st'.acceptNum = ({ st with stack := stack }.record i (m.node i)).acceptNum)
    (haccept : st'.accept = ({ st with stack := stack }.record i (m.node i)).accept)
    (hanchor : st'.anchor = ({ st with stack := stack }.record i (m.node i)).anchor) :
    ClosureInv m S st' := by
  have hi : i ∈ st.set := by
    apply h.stack
    rw [hstack]
    exact List.mem_cons_self
  have hsub : ∀ x ∈ st.set, x ∈ st'.set := fun x hx => (hset x).mpr (Or.inl hx)
  -- a state that is not on the new stack is `i`, or was not on the old stack
  have hold : ∀ x ∈ st'.set, x ∉ st'.stack → x = i ∨ (x ∈ st.set ∧ x ∉ st.stack) := by
    intro x hx hxs
    obtain ⟨hxset, hxstack⟩ := hpop x hx hxs
    by_cases hxi : x = i
    · exact Or.inl hxi
    · rw [hstack]
      exact Or.inr ⟨hxset, List.not_mem_cons_of_ne_of_not_mem hxi hxstack⟩
  constructor
  · intro x hx
    rcases (hset x).mp hx with hx | ⟨-, hx | hx⟩
    · exact h.lt x hx
    · exact m.next_lt i (h.lt i hi) x hx
    · exact m.next2_lt i (h.lt i hi) x hx
  · exact fun x hx => hsub x (h.base hx)
  · intro x hx
    obtain ⟨s, hs, hpath⟩ := h.sound i hi
    rcases (hset x).mp hx with hx | ⟨he, hx | hx⟩
    · exact h.sound x hx
    · exact ⟨s, hs, hpath.trans (.next he hx (.refl x))⟩
    · exact ⟨s, hs, hpath.trans (.next2 he hx (.refl x))⟩
  · intro x hx
    cases hpush x hx with
    | inl hx =>
      apply hsub
      apply h.stack
      rw [hstack]
      exact List.mem_cons_of_mem i hx
    | inr hx => exact hx
  · intro x hx hxs he
    rcases hold x hx hxs with rfl | ⟨hxset, hxstack⟩
    · exact ⟨fun j hj => (hset j).mpr (Or.inr ⟨he, Or.inl hj⟩),
        fun j hj => (hset j).mpr (Or.inr ⟨he, Or.inr hj⟩)⟩
    · obtain ⟨h₁, h₂⟩ := h.closed x hxset hxstack he
      exact ⟨fun j hj => hsub j (h₁ j hj), fun j hj => hsub j (h₂ j hj)⟩
  · intro x hx hxs hacc
    rw [hnum]
    rcases hold x hx hxs with rfl | ⟨hxset, hxstack⟩
    · exact record_self hacc
    · obtain ⟨k, hk, hkx⟩ := h.low x hxset hxstack hacc
      have hk₀ : k ∈ ({ st with stack := stack } : Closure).acceptNum := hk
      obtain ⟨k', hk', hle⟩ := record_le (p := m.node i) hk₀
      exact ⟨k', hk', hle.trans hkx⟩
  · intro k hk
    rw [hnum] at hk
    rw [haccept, hanchor]
    rcases record_num hk with ⟨hk, ha, hn⟩ | ⟨rfl, hp, ha, hn⟩
    · obtain ⟨hset, hp, ha', hn'⟩ := h.num k hk
      exact ⟨hsub k hset, hp, ha.trans ha', hn.trans hn'⟩
    · exact ⟨hsub k hi, hp, ha, hn⟩
  · intro hn
    rw [hnum] at hn
    rw [haccept]
    exact record_unset h.unset hn

/-- A step of `e_closure` keeps the invariant of the closure. -/
lemma ClosureInv.step {S : Finset ℕ} {st st' : Closure} (h : ClosureInv m S st)
    (hstep : closureStep m st = .inl st') : ClosureInv m S st' := by
  unfold closureStep at hstep
  split at hstep
  · cases hstep
  · rename_i i stack hstack
    have hrec := record_set { st with stack := stack } i (m.node i)
    dsimp only at hstep
    split at hstep
    · rename_i he
      cases hstep
      obtain ⟨hn₁, ha₁, hc₁⟩ :=
        push_fields ({ st with stack := stack }.record i (m.node i)) (m.node i).next
      obtain ⟨hn₂, ha₂, hc₂⟩ :=
        push_fields (({ st with stack := stack }.record i (m.node i)).push (m.node i).next)
          (m.node i).next2
      apply h.visit hstack
      · intro x
        rw [mem_push, mem_push, hrec.1, or_assoc]
        simp [he]
      · intro x hx hxs
        obtain ⟨hx, hxs⟩ := mem_of_notMem_push hx hxs
        obtain ⟨hx, hxs⟩ := mem_of_notMem_push hx hxs
        rw [hrec.1] at hx
        rw [hrec.2] at hxs
        exact ⟨hx, hxs⟩
      · intro x hx
        cases mem_stack_push hx with
        | inl hx =>
          cases mem_stack_push hx with
          | inl hx =>
            rw [hrec.2] at hx
            exact Or.inl hx
          | inr hx => exact Or.inr (mem_push.mpr (Or.inl hx))
        | inr hx => exact Or.inr hx
      · exact hn₂.trans hn₁
      · exact ha₂.trans ha₁
      · exact hc₂.trans hc₁
    · rename_i he
      cases hstep
      apply h.visit hstack
      · intro x
        rw [hrec.1]
        simp [he]
      · intro x hx hxs
        rw [hrec.1] at hx
        rw [hrec.2] at hxs
        exact ⟨hx, hxs⟩
      · intro x hx
        rw [hrec.2] at hx
        exact Or.inl hx
      · rfl
      · rfl
      · rfl

/-- `set_next_member` delivers the members of the set that are states of the machine. -/
lemma mem_members {S : Finset ℕ} {i : ℕ} : i ∈ members m S ↔ i < m.nstates ∧ i ∈ S := by
  simp [members]

/-- `set_next_member` delivers each member once. -/
lemma length_members_le (S : Finset ℕ) : (members m S).length ≤ S.card := by
  have hnodup : (members m S).Nodup := List.nodup_range.filter _
  rw [← List.toFinset_card_of_nodup hnodup]
  apply Finset.card_le_card
  intro i hi
  exact (mem_members.mp (List.mem_toFinset.mp hi)).2

/-- The invariant holds before the first step, when the set has been pushed. -/
lemma ClosureInv.init {S : Finset ℕ} (hS : ∀ i ∈ S, i < m.nstates) (anchor : ℕ) :
    ClosureInv m S ⟨S, (members m S).reverse, none, none, anchor⟩ := by
  have hmem : ∀ i, i ∈ (members m S).reverse ↔ i ∈ S := by
    intro i
    rw [List.mem_reverse, mem_members]
    exact ⟨fun h => h.2, fun h => ⟨hS i h, h⟩⟩
  constructor
  · exact hS
  · exact subset_rfl
  · exact fun j hj => ⟨j, hj, .refl j⟩
  · exact fun i hi => (hmem i).mp hi
  · exact fun i hi hn => absurd ((hmem i).mpr hi) hn
  · exact fun i hi hn => absurd ((hmem i).mpr hi) hn
  · rintro k ⟨⟩
  · exact fun _ => rfl

/-- Pushing enlarges the closure as it enlarges the stack. -/
lemma push_card (st : Closure) (j : Option ℕ) :
    (st.push j).stack.length + st.set.card = st.stack.length + (st.push j).set.card ∧
      st.set.card ≤ (st.push j).set.card := by
  cases j with
  | none => exact ⟨rfl, le_rfl⟩
  | some j =>
    by_cases hj : j ∈ st.set
    · rw [push_of_mem hj]
      exact ⟨rfl, le_rfl⟩
    · rw [push_of_notMem hj]
      dsimp only
      rw [Finset.card_insert_of_notMem hj, List.length_cons]
      omega

/-- A step pops one state, and pushes states only when it adds them to the closure. -/
lemma closureStep_card {st st' : Closure} (hstep : closureStep m st = .inl st') :
    st'.stack.length + 1 + st.set.card = st.stack.length + st'.set.card ∧
      st.set.card ≤ st'.set.card := by
  unfold closureStep at hstep
  split at hstep
  · cases hstep
  · rename_i i stack hstack
    obtain ⟨hset, hstk⟩ := record_set { st with stack := stack } i (m.node i)
    rw [hstack, List.length_cons]
    dsimp only at hstep
    split at hstep
    · cases hstep
      have h₁ := push_card ({ st with stack := stack }.record i (m.node i)) (m.node i).next
      have h₂ := push_card (({ st with stack := stack }.record i (m.node i)).push (m.node i).next)
        (m.node i).next2
      rw [hset, hstk] at h₁
      dsimp only at h₁
      omega
    · cases hstep
      rw [hset, hstk]
      dsimp only
      omega

/-- `e_closure` returns the states that are reached without reading, and records the lowest
accepting one. -/
theorem eClosure_spec {S : Finset ℕ} (hS : ∀ i ∈ S, i < m.nstates) (anchor : ℕ) :
    ∃ r, eClosure m S anchor = some r ∧ (∀ j, j ∈ r.set ↔ ∃ i ∈ S, Path m i [] j) ∧
      Closed m r.set ∧ Records m r.set r.accept r.anchor := by
  have hcard : ∀ T : Finset ℕ, (∀ i ∈ T, i < m.nstates) → T.card ≤ m.nstates := by
    intro T hT
    have hsub : T ⊆ Finset.range m.nstates := fun i hi => Finset.mem_range.mpr (hT i hi)
    simpa using Finset.card_le_card hsub
  have hle := m.le
  obtain ⟨r, hr⟩ : ∃ r, eClosure m S anchor = some r := by
    apply run_of_measure (ClosureInv m S)
      fun st => 2 * (m.nstates - st.set.card) + st.stack.length
    · intro st st' hst hstep
      have hst' := hst.step hstep
      refine ⟨hst', ?_⟩
      obtain ⟨h₁, h₂⟩ := closureStep_card hstep
      have h₃ := hcard _ hst'.lt
      omega
    · exact ClosureInv.init hS anchor
    · have h₁ := hcard S hS
      have h₂ := length_members_le (m := m) S
      rw [List.length_reverse]
      dsimp only
      omega
  refine ⟨r, hr, ?_⟩
  obtain ⟨st, hreach, hstop⟩ := run_spec hr
  have hinv : ClosureInv m S st :=
    hreach.invariant (ClosureInv m S) (fun _ _ h hs => h.step hs) (ClosureInv.init hS anchor)
  -- the loop stops with an empty stack
  obtain ⟨rfl, hempty⟩ : st = r ∧ st.stack = [] := by
    unfold closureStep at hstop
    split at hstop
    · rename_i hstack
      cases hstop
      exact ⟨rfl, hstack⟩
    · dsimp only at hstop
      split at hstop <;> cases hstop
  have hnil : ∀ i, i ∉ st.stack := by simp [hempty]
  have hclosed : Closed m st.set := fun i hi he => hinv.closed i hi (hnil i) he
  refine ⟨fun j => ⟨hinv.sound j, ?_⟩, hclosed, ?_⟩
  · rintro ⟨i, hi, hpath⟩
    exact hclosed.mem hpath rfl (hinv.base hi)
  · cases hnum : st.acceptNum with
    | none =>
      refine Or.inl ⟨?_, hinv.unset hnum⟩
      intro i hi
      by_contra ha
      obtain ⟨k, hk, -⟩ := hinv.low i hi (hnil i) ha
      rw [hnum] at hk
      cases hk
    | some k =>
      obtain ⟨hk, hacc, ha, hn⟩ := hinv.num k hnum
      refine Or.inr ⟨k, hk, hacc, ?_, ha, hn⟩
      intro i hi hia
      obtain ⟨k', hk', hle⟩ := hinv.low i hi (hnil i) hia
      rw [hnum, Option.mem_some_iff] at hk'
      rw [hk']
      exact hle

/-! ## `move` -/

/-- The states that `move` leads to are those that an edge with the character leads to. -/
lemma mem_move {S T : Finset ℕ} {c : Fin maxChars} (h : move m S c = some T) (j : ℕ) :
    j ∈ T ↔ ∃ i ∈ S, i < m.nstates ∧ (m.node i).reads c = true ∧ (m.node i).next = some j := by
  have hT : T = ((List.range m.nstates).reverse.filterMap (moveFrom m S c)).toFinset := by
    unfold move at h
    split at h
    · cases h
    · rename_i he
      cases h
      rfl
  rw [hT, List.mem_toFinset, List.mem_filterMap]
  constructor
  · rintro ⟨i, hi, hj⟩
    rw [List.mem_reverse, List.mem_range] at hi
    unfold moveFrom at hj
    split at hj
    · rename_i hc
      exact ⟨i, hc.1, hi, hc.2, hj⟩
    · cases hj
  · rintro ⟨i, hi, hlt, hr, hn⟩
    refine ⟨i, List.mem_reverse.mpr (List.mem_range.mpr hlt), ?_⟩
    rw [moveFrom, if_pos ⟨hi, hr⟩]
    exact hn

/-- `move` returns no set when no state of the set reads the character. -/
lemma move_eq_none {S : Finset ℕ} {c : Fin maxChars} (h : move m S c = none) {i j : ℕ} (hi : i ∈ S)
    (hlt : i < m.nstates) (hr : (m.node i).reads c = true) : (m.node i).next ≠ some j := by
  intro hn
  have hmem : j ∈ (List.range m.nstates).reverse.filterMap (moveFrom m S c) := by
    rw [List.mem_filterMap]
    refine ⟨i, List.mem_reverse.mpr (List.mem_range.mpr hlt), ?_⟩
    rw [moveFrom, if_pos ⟨hi, hr⟩]
    exact hn
  unfold move at h
  split at h
  · rename_i he
    rw [he] at hmem
    cases hmem
  · cases h

/-- `move` does not return an empty set, but nothing. -/
lemma move_nonempty {S T : Finset ℕ} {c : Fin maxChars} (h : move m S c = some T) : T.Nonempty := by
  unfold move at h
  split at h
  · cases h
  · rename_i l hl
    cases h
    cases hl' : (List.range m.nstates).reverse.filterMap (moveFrom m S c) with
    | nil => exact absurd hl' hl
    | cons j l => exact ⟨j, by simp⟩

end Lex
