import Cgkits.Parser.Tables
import Mathlib

/-!
# Reductions (`yystate.c`)

`reductions` visits the states and adds an action for each completed item and each of its
lookaheads.  A shift/reduce conflict is decided by the precedences of the production and the token,
a reduce/reduce conflict by the numbers of the productions, and both are counted.

The visits are one walk over the reductions of the states, in order (`reductions_eq`).  A walk that
records no conflict adds every reduction where there was no action before
(`foldl_reduceToken_spec`).
-/

namespace Parser

/-! ## The reductions of an item -/

/-- `PREC_TAB_S`: the precedence level of a token, `0` for none, and its associativity. -/
structure PrecTab where
  /-- The precedence level, 0 for none. -/
  level : ℕ
  /-- `'l'`, `'r'`, `'n'` or the null character. -/
  assoc : Char
deriving DecidableEq

/-- What `reductions` changes: the chains of actions and the numbers of conflicts. -/
structure Reduced where
  /-- `_actions`, the chains of actions by state. -/
  actions : ℕ → List Act
  /-- `_nshift_reduce`, the number of conflicts with a shift. -/
  nshiftReduce : ℕ
  /-- `_nreduce_reduce`, the number of conflicts without one. -/
  nreduceReduce : ℕ

/-- Write to the first entry for a symbol, if there is one. -/
def setDoThis (sym : ℕ) (doThis : ℤ) : List Act → List Act
  | [] => []
  | p :: l => if p.sym = sym then ⟨p.sym, doThis⟩ :: l else p :: setDoThis sym doThis l

/-- Change the first entry of a state for a symbol, where it is in the chain. -/
def Reduced.change (st : Reduced) (state token : ℕ) (doThis : ℤ) : Reduced :=
  { st with
    actions := Function.update st.actions state (setDoThis token doThis (st.actions state)) }

/-- `set_next_member`, until it returns `-1`: the members of a set in order. -/
def members (set : Finset ℕ) : List ℕ := (List.range (set.sup id + 1)).filter fun x => x ∈ set

/-- The body of the loop of `reduce_one_item`: the reduction by `prod` in a state, for a token. -/
def reduceToken (precedence : ℕ → PrecTab) (verbose : ℕ) (st : Reduced) (r : ℕ × Production × ℕ) :
    Reduced :=
  let (state, prod, token) := r
  let tprec := (precedence token).level
  let assoc := (precedence token).assoc
  match pAction st.actions state token with
  | none =>
    { st with
      actions := Function.update st.actions state (⟨token, -(prod.num : ℤ)⟩ :: st.actions state) }
  | some ap =>
    if ap.doThis ≤ 0 then
      { st.change state token (-(min (-ap.doThis) prod.num)) with
        nreduceReduce := st.nreduceReduce + 1 }
    else
      let resolved := prod.prec ≠ 0 ∧ tprec ≠ 0
      let st' := if resolved ∧ (tprec < prod.prec ∨ prod.prec = tprec ∧ assoc ≠ 'r') then
          st.change state token (-(prod.num : ℤ))
        else st
      if 1 < verbose ∨ ¬ resolved then { st' with nshiftReduce := st.nshiftReduce + 1 } else st'

/-- `reduce_one_item` adds a reduction for every lookahead of a completed item. -/
def reduceOneItem (precedence : ℕ → PrecTab) (verbose state : ℕ) (st : Reduced) (item : Item) :
    Reduced :=
  if (rightOfDot item.core).isSome then st
  else
    (members item.lookaheads).foldl (fun st token => reduceToken precedence verbose st
      (state, item.prod, token)) st

namespace Automaton

variable (A : Automaton)

/-- `add_reductions` adds the reductions of the kernel items and of the epsilon items. -/
def addReductions (precedence : ℕ → PrecTab) (verbose : ℕ) (st : Reduced) (state : ℕ) : Reduced :=
  (A.state state).epsilonItems.foldl (reduceOneItem precedence verbose state)
    ((A.state state).kernelItems.foldl (reduceOneItem precedence verbose state) st)

/-- `reductions`, when the states are visited in this order. -/
def reductions (precedence : ℕ → PrecTab) (verbose : ℕ) (order : List ℕ) : Reduced :=
  order.foldl (A.addReductions precedence verbose) ⟨A.actions, 0, 0⟩

/-- The reductions of an item in a state, one for each lookahead if it is completed. -/
def itemReductions (state : ℕ) (item : Item) : List (ℕ × Production × ℕ) :=
  if (rightOfDot item.core).isSome then [] else
    (members item.lookaheads).map fun token => (state, item.prod, token)

/-- The reductions of a state, those of its kernel items and of its epsilon items. -/
def stateReductions (state : ℕ) : List (ℕ × Production × ℕ) :=
  ((A.state state).kernelItems ++ (A.state state).epsilonItems).flatMap (itemReductions state)

end Automaton

/-! ## The reductions without conflicts -/

/-- The list of the members of a set has the members of the set. -/
@[simp] lemma mem_members {set : Finset ℕ} {x : ℕ} : x ∈ members set ↔ x ∈ set := by
  rw [members, List.mem_filter, decide_eq_true_eq, List.mem_range, Nat.lt_succ_iff]
  exact and_iff_right_of_imp fun hx => Finset.le_sup (f := id) hx

/-- The reductions of a state are reductions in this state. -/
lemma fst_of_mem_stateReductions {A : Automaton} {n m t : ℕ} {p : Production}
    (h : (n, p, t) ∈ A.stateReductions m) : n = m := by
  unfold Automaton.stateReductions at h
  obtain ⟨i, -, hi⟩ := List.mem_flatMap.mp h
  unfold Automaton.itemReductions at hi
  split at hi
  · cases hi
  · obtain ⟨token, -, heq⟩ := List.mem_map.mp hi
    exact (congrArg Prod.fst heq).symm

/-- A reduction of a state belongs to a completed item with the lookahead. -/
lemma mem_stateReductions {A : Automaton} {n t : ℕ} {p : Production} :
    (n, p, t) ∈ A.stateReductions n ↔ ∃ i ∈ (A.state n).kernelItems ++ (A.state n).epsilonItems,
      rightOfDot i.core = none ∧ i.prod = p ∧ t ∈ i.lookaheads := by
  unfold Automaton.stateReductions
  rw [List.mem_flatMap]
  apply exists_congr
  intro i
  apply and_congr_right
  intro _
  unfold Automaton.itemReductions
  cases hdot : rightOfDot i.core with
  | none =>
    rw [Option.isSome_none, if_neg (by decide), List.mem_map]
    constructor
    · rintro ⟨token, htoken, heq⟩
      rw [Prod.mk.injEq, Prod.mk.injEq] at heq
      obtain ⟨-, hp, ht⟩ := heq
      exact ⟨rfl, hp, ht ▸ mem_members.mp htoken⟩
    · rintro ⟨-, rfl, ht⟩
      exact ⟨t, mem_members.mpr ht, rfl⟩
  | some x =>
    rw [Option.isSome_some, if_pos rfl]
    constructor
    · intro h
      cases h
    · rintro ⟨h, -⟩
      cases h

/-- A loop over lists of steps is a loop over the steps. -/
lemma foldl_flatMap_eq {α β σ : Type*} {f : σ → β → σ} {g : σ → α → σ} {h : α → List β}
    (hg : ∀ st a, g st a = (h a).foldl f st) (l : List α) (st : σ) :
    l.foldl g st = (l.flatMap h).foldl f st := by
  induction l generalizing st with
  | nil => rfl
  | cons a l ih => rw [List.foldl_cons, List.flatMap_cons, List.foldl_append, hg, ih]

section Walk

variable {precedence : ℕ → PrecTab} {verbose : ℕ} {st : Reduced}

/-- `reduce_one_item` adds the reductions of the item. -/
lemma reduceOneItem_eq (state : ℕ) (st : Reduced) (item : Item) :
    reduceOneItem precedence verbose state st item =
      (Automaton.itemReductions state item).foldl (reduceToken precedence verbose) st := by
  unfold reduceOneItem Automaton.itemReductions
  split
  · rfl
  · rw [List.foldl_map]

/-- `add_reductions` adds the reductions of the state. -/
lemma addReductions_eq (A : Automaton) (st : Reduced) (state : ℕ) :
    A.addReductions precedence verbose st state =
      (A.stateReductions state).foldl (reduceToken precedence verbose) st := by
  unfold Automaton.addReductions Automaton.stateReductions
  rw [← List.foldl_append]
  exact foldl_flatMap_eq (reduceOneItem_eq state) _ st

/-- The visits of the states are one walk over their reductions. -/
lemma reductions_eq (A : Automaton) (order : List ℕ) :
    A.reductions precedence verbose order =
      (order.flatMap A.stateReductions).foldl (reduceToken precedence verbose) ⟨A.actions, 0, 0⟩ :=
  foldl_flatMap_eq (addReductions_eq A) order _

/-- The number of conflicts that have been counted, of both kinds. -/
def Reduced.conflicts (st : Reduced) : ℕ := st.nshiftReduce + st.nreduceReduce

variable (verbose st) in
/-- Without precedences a reduction is added where there is no action, or a conflict is recorded. -/
lemma reduceToken_cases (hprec : ∀ t, (precedence t).level = 0) (state token : ℕ)
    (prod : Production) :
    (pAction st.actions state token = none ∧
    reduceToken precedence verbose st (state, prod, token) =
      { st with
        actions :=
          Function.update st.actions state (⟨token, -(prod.num : ℤ)⟩ :: st.actions state) }) ∨
    st.conflicts < (reduceToken precedence verbose st (state, prod, token)).conflicts := by
  unfold reduceToken Reduced.conflicts
  dsimp only
  cases hap : pAction st.actions state token with
  | none => exact .inl ⟨rfl, rfl⟩
  | some ap =>
    right
    dsimp only
    have hresolved : ¬ (prod.prec ≠ 0 ∧ (precedence token).level ≠ 0) := fun h => h.2 (hprec token)
    by_cases hred : ap.doThis ≤ 0
    · rw [if_pos hred]
      simp [Reduced.change]
    · rw [if_neg hred, if_pos (Or.inr hresolved), if_neg fun h => hresolved h.1]
      simp

variable (verbose) in
/-- A walk over reductions does not take back a conflict. -/
lemma conflicts_le_foldl (hprec : ∀ t, (precedence t).level = 0) (l : List (ℕ × Production × ℕ))
    (st : Reduced) : st.conflicts ≤ (l.foldl (reduceToken precedence verbose) st).conflicts := by
  induction l generalizing st with
  | nil => exact le_rfl
  | cons r l ih =>
    obtain ⟨state, prod, token⟩ := r
    refine le_trans ?_ (ih _)
    rcases reduceToken_cases verbose st hprec state token prod with ⟨-, h⟩ | h
    · rw [h]
      rfl
    · exact h.le

/-- What a walk without conflicts leaves: the entries that were there, and an entry for every
reduction. -/
structure Added (l : List (ℕ × Production × ℕ)) (actions actions' : ℕ → List Act) : Prop where
  /-- The entries that were there. -/
  kept : ∀ n (t : ℕ) a, pAction actions n t = some a → pAction actions' n t = some a
  /-- Every reduction of the list is an action. -/
  added : ∀ n p t, (n, p, t) ∈ l → pAction actions' n t = some ⟨t, -(p.num : ℤ)⟩
  /-- There is no action from elsewhere. -/
  only : ∀ n (t : ℕ) a, pAction actions' n t = some a →
    pAction actions n t = some a ∨ ∃ p, (n, p, t) ∈ l ∧ a = ⟨t, -(p.num : ℤ)⟩

/-- A walk that records no conflict adds its reductions and changes no entry. -/
lemma foldl_reduceToken_spec (hprec : ∀ t, (precedence t).level = 0) {l : List (ℕ × Production × ℕ)}
    (h : (l.foldl (reduceToken precedence verbose) st).conflicts = st.conflicts) :
    Added l st.actions (l.foldl (reduceToken precedence verbose) st).actions := by
  induction l generalizing st with
  | nil =>
    exact ⟨fun _ _ _ => id, fun n p t hmem => absurd hmem List.not_mem_nil, fun _ _ _ => Or.inl⟩
  | cons r l ih =>
    obtain ⟨state, prod, token⟩ := r
    rw [List.foldl_cons] at h ⊢
    rcases reduceToken_cases verbose st hprec state token prod with ⟨hnone, hstep⟩ | hlt
    · have hconf : (reduceToken precedence verbose st (state, prod, token)).conflicts =
          st.conflicts := by
        rw [hstep]
        rfl
      have hrest := ih (h.trans hconf.symm)
      have hnew :
        ∀ n (t : ℕ), pAction (reduceToken precedence verbose st (state, prod, token)).actions n t =
          if n = state ∧ ((token : ℕ) : ℤ) = t then some ⟨token, -(prod.num : ℤ)⟩ else
            pAction st.actions n t := by
        intro n t
        rw [hstep]
        exact pAction_update st.actions state ⟨token, -(prod.num : ℤ)⟩ n t
      constructor
      · intro n t a ha
        apply hrest.kept
        rw [hnew, if_neg, ha]
        rintro ⟨rfl, ht⟩
        rw [← ht, hnone] at ha
        cases ha
      · intro n p t hmem
        rcases List.mem_cons.mp hmem with heq | hmem
        · obtain ⟨rfl, rfl, rfl⟩ : n = state ∧ p = prod ∧ t = token := by simpa using heq
          apply hrest.kept
          rw [hnew, if_pos ⟨rfl, rfl⟩]
        · exact hrest.added n p t hmem
      · intro n t a ha
        rcases hrest.only n t a ha with hold | ⟨p, hp, rfl⟩
        · rw [hnew] at hold
          by_cases heq : n = state ∧ ((token : ℕ) : ℤ) = t
          · rw [if_pos heq] at hold
            obtain ⟨rfl, ht⟩ := heq
            obtain rfl := Nat.cast_inj.mp ht
            exact .inr ⟨prod, List.mem_cons_self, (Option.some.inj hold).symm⟩
          · rw [if_neg heq] at hold
            exact .inl hold
        · exact .inr ⟨p, List.mem_cons_of_mem _ hp, rfl⟩
    · have hle := conflicts_le_foldl verbose hprec l
        (reduceToken precedence verbose st (state, prod, token))
      omega

/-- When `reductions` counts no conflict, its entries are the old ones and the reductions. -/
lemma reductions_spec {A : Automaton} (hprec : ∀ t, (precedence t).level = 0) {order : List ℕ}
    (h : (A.reductions precedence verbose order).conflicts = 0) :
    Added (order.flatMap A.stateReductions) A.actions
    (A.reductions precedence verbose order).actions := by
  rw [reductions_eq] at h ⊢
  exact foldl_reduceToken_spec hprec h

end Walk

end Parser
