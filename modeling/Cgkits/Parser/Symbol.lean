import Cgkits.Lib.ContextFree
import Mathlib.Order.Interval.Finset.Nat

/-!
# The symbol table of llama and occs (`parser.h`)

A symbol is known to every pass by its `val`: terminals are numbered from `minTerm`, nonterminals
from `minNonterm` and actions from `minAct`, and the three kinds are told apart by these ranges
alone. `epsilon` is the number after the last terminal, so that it can stand in a FIRST set beside
the terminals.

`Grammar` is the symbol table after a specification has been read without errors.  Its fields carry
what `acts.c` guarantees: the numbers of all symbols are inside the ranges of their kind, every
symbol of a right-hand side is in the table, and no two productions have one number.  The chain of
productions of a nonterminal is the sublist of `prods` with this left-hand side.

`Walk` is one order in which `hash_print_tab` may visit the table, and `Grammar.cfg` is the
context-free grammar that the table denotes, in which actions are invisible.
-/

namespace Parser

open ContextFree

/-- The token value of the end of the input, `_EOI_`. -/
def eoi : ℕ := 0

/-- The least value of a terminal, `MINTERM`. -/
def minTerm : ℕ := 1

/-- The least value of a nonterminal, `MINNONTERM`. -/
def minNonterm : ℕ := 256

/-- The least value of an action, `MINACT`. -/
def minAct : ℕ := 512

/-- The largest value of a terminal, which leaves one value for the marker. -/
def maxTerm : ℕ := minNonterm - 2

/-- The largest value of a nonterminal, `MAXNONTERM`. -/
def maxNonterm : ℕ := minAct - 1

/-- The maximum number of objects on a right-hand side. -/
def maxRhs : ℕ := 31

/-- The maximum number of productions in the input grammar. -/
def maxProd : ℕ := 512

/-- `ISTERM`: the value is that of a terminal. -/
def IsTerm (x : ℕ) : Prop := minTerm ≤ x ∧ x ≤ maxTerm

/-- `ISNONTERM`: the value is that of a nonterminal. -/
def IsNonterm (x : ℕ) : Prop := minNonterm ≤ x ∧ x ≤ maxNonterm

/-- `ISACT`: the value is that of an action. -/
def IsAct (x : ℕ) : Prop := minAct ≤ x

instance (x : ℕ) : Decidable (IsTerm x) := inferInstanceAs (Decidable (_ ∧ _))

instance (x : ℕ) : Decidable (IsNonterm x) := inferInstanceAs (Decidable (_ ∧ _))

instance (x : ℕ) : Decidable (IsAct x) := inferInstanceAs (Decidable (_ ≤ _))

/-- The values of the terminals, in numbers. -/
lemma isTerm_iff {x : ℕ} : IsTerm x ↔ 1 ≤ x ∧ x ≤ 254 := Iff.rfl

/-- The values of the nonterminals, in numbers. -/
lemma isNonterm_iff {x : ℕ} : IsNonterm x ↔ 256 ≤ x ∧ x ≤ 511 := Iff.rfl

/-- The values of the actions, in numbers. -/
lemma isAct_iff {x : ℕ} : IsAct x ↔ 512 ≤ x := Iff.rfl

/-- The value of a terminal is not that of an action. -/
lemma IsTerm.not_isAct {x : ℕ} (h : IsTerm x) : ¬ IsAct x := by
  rw [isTerm_iff] at h
  rw [isAct_iff]
  omega

/-- The value of a nonterminal is not that of an action. -/
lemma IsNonterm.not_isAct {x : ℕ} (h : IsNonterm x) : ¬ IsAct x := by
  rw [isNonterm_iff] at h
  rw [isAct_iff]
  omega

/-- The value of a nonterminal is not that of a terminal. -/
lemma IsNonterm.not_isTerm {x : ℕ} (h : IsNonterm x) : ¬ IsTerm x := by
  rw [isNonterm_iff] at h
  rw [isTerm_iff]
  omega

/-- A production (`PRODUCTION_S`): its number, its left-hand side, the symbols on its right-hand
side and its precedence level. -/
structure Production where
  /-- The number of the production. -/
  num : ℕ
  /-- The symbol of the left-hand side. -/
  lhs : ℕ
  /-- The right-hand side, actions included. -/
  rhs : List ℕ
  /-- Relative precedence, `0` for none. -/
  prec : ℕ := 0
deriving DecidableEq, Repr

/-- `non_acts`: the number of right-hand side elements that are not actions. -/
def Production.nonActs (p : Production) : ℕ := (p.rhs.filter fun x => ¬ IsAct x).length

/-- The symbol table of an accepted specification, as `first`, `lr` and the others find it. -/
structure Grammar where
  /-- The productions; those with one left-hand side form the chain of this nonterminal. -/
  prods : List Production
  /-- `g_currterm`: the value of the last terminal. -/
  currterm : ℕ
  /-- `g_currnonterm`: the value of the last nonterminal. -/
  currnonterm : ℕ
  /-- `g_curract`: the value of the last action. -/
  curract : ℕ
  /-- `g_goal_symbol`: the value of the start symbol. -/
  goalSymbol : ℕ
  /-- Terminals fit below `maxTerm`. -/
  currterm_le : currterm ≤ maxTerm
  /-- Nonterminals fit below `maxNonterm`. -/
  currnonterm_le : currnonterm ≤ maxNonterm
  /-- The start symbol is a nonterminal of the table. -/
  goalSymbol_mem : minNonterm ≤ goalSymbol ∧ goalSymbol ≤ currnonterm
  /-- No two productions share a number. -/
  nums_nodup : (prods.map Production.num).Nodup
  /-- Left-hand sides are nonterminals of the table. -/
  lhs_mem : ∀ p ∈ prods, minNonterm ≤ p.lhs ∧ p.lhs ≤ currnonterm
  /-- Right-hand sides consist of symbols of the table. -/
  rhs_mem : ∀ p ∈ prods, ∀ x ∈ p.rhs, (minTerm ≤ x ∧ x ≤ currterm) ∨
    (minNonterm ≤ x ∧ x ≤ currnonterm) ∨ (minAct ≤ x ∧ x ≤ curract)
  /-- Right-hand sides are not too long. -/
  rhs_length : ∀ p ∈ prods, p.rhs.length ≤ maxRhs

/-- The productions of a specification and the values of its last symbols, of which nothing is known
yet. -/
structure SymbolTable where
  /-- The productions, in any order. -/
  prods : List Production
  /-- `g_currterm`, the value of the last terminal. -/
  currterm : ℕ
  /-- `g_currnonterm`, the value of the last nonterminal. -/
  currnonterm : ℕ
  /-- `g_curract`, the value of the last action. -/
  curract : ℕ
  /-- `g_goal_symbol`, the value of the goal symbol. -/
  goalSymbol : ℕ

namespace SymbolTable

variable (T : SymbolTable)

/-- The symbol table is that of an accepted specification. -/
def Accepted : Prop :=
  (T.currterm ≤ maxTerm ∧ T.currnonterm ≤ maxNonterm) ∧
    (minNonterm ≤ T.goalSymbol ∧ T.goalSymbol ≤ T.currnonterm) ∧
    (T.prods.map Production.num).Nodup ∧
    (∀ p ∈ T.prods, minNonterm ≤ p.lhs ∧ p.lhs ≤ T.currnonterm) ∧
    (∀ p ∈ T.prods, ∀ x ∈ p.rhs, (minTerm ≤ x ∧ x ≤ T.currterm) ∨
    (minNonterm ≤ x ∧ x ≤ T.currnonterm) ∨
      (minAct ≤ x ∧ x ≤ T.curract)) ∧ ∀ p ∈ T.prods, p.rhs.length ≤ maxRhs

instance : Decidable T.Accepted :=
  inferInstanceAs (Decidable (_ ∧ _ ∧ _ ∧ _ ∧ _ ∧ _))

/-- The grammar of an accepted specification, with the proofs that it is one. -/
def grammar (h : T.Accepted) : Grammar where
  prods := T.prods
  currterm := T.currterm
  currnonterm := T.currnonterm
  curract := T.curract
  goalSymbol := T.goalSymbol
  currterm_le := h.1.1
  currnonterm_le := h.1.2
  goalSymbol_mem := h.2.1
  nums_nodup := h.2.2.1
  lhs_mem := h.2.2.2.1
  rhs_mem := h.2.2.2.2.1
  rhs_length := h.2.2.2.2.2

end SymbolTable

namespace Grammar

variable (G : Grammar)

/-- The chain of productions of a left-hand side. -/
def productions (A : ℕ) : List Production := G.prods.filter fun p => p.lhs = A

/-- `EPSILON`: the marker in FIRST sets, one more than the last terminal. -/
def epsilon : ℕ := G.currterm + 1

/-- The value belongs to a symbol of the table: a terminal, a nonterminal or an action. -/
def IsSymbol (x : ℕ) : Prop := (minTerm ≤ x ∧ x ≤ G.currterm) ∨
  (minNonterm ≤ x ∧ x ≤ G.currnonterm) ∨ (minAct ≤ x ∧ x ≤ G.curract)

/-- The nonterminals of the table, by their values. -/
def nonterms : Finset ℕ := Finset.Icc minNonterm G.currnonterm

/-- One order in which `hash_print_tab` may call its function for the symbols of the table: each
symbol exactly once. -/
structure Walk where
  /-- The symbols in the order of the visits. -/
  order : List ℕ
  /-- No symbol is visited twice. -/
  nodup : order.Nodup
  /-- Every symbol of the table is visited. -/
  mem_order : ∀ x, x ∈ order ↔ G.IsSymbol x

/-- The values of all symbols of the table in increasing order. -/
def symbolValues : List ℕ :=
  List.range' minTerm (G.currterm + 1 - minTerm) ++
    (List.range' minNonterm (G.currnonterm + 1 - minNonterm) ++ List.range' minAct
    (G.curract + 1 - minAct))

/-- `symbolValues` has exactly the values of the symbols. -/
lemma mem_symbolValues (x : ℕ) : x ∈ G.symbolValues ↔ G.IsSymbol x := by
  simp only [symbolValues, IsSymbol, List.mem_append, List.mem_range'_1, minTerm, minNonterm,
    minAct]
  omega

/-- Each symbol has a value of its own in `symbolValues`. -/
lemma nodup_symbolValues : G.symbolValues.Nodup := by
  have hterm := G.currterm_le
  have hnonterm := G.currnonterm_le
  unfold maxTerm minNonterm at hterm
  unfold maxNonterm minAct at hnonterm
  refine List.nodup_append.mpr
    ⟨List.nodup_range', List.nodup_append.mpr ⟨List.nodup_range', List.nodup_range', ?_⟩, ?_⟩
  · intro x hx y hy
    simp only [List.mem_range'_1, minNonterm, minAct] at hx hy
    omega
  · intro x hx y hy
    simp only [List.mem_append, List.mem_range'_1, minTerm, minNonterm, minAct] at hx hy
    omega

/-- The walk in which the symbols are visited in the order of their values. -/
def valueWalk : G.Walk where
  order := G.symbolValues
  nodup := G.nodup_symbolValues
  mem_order := G.mem_symbolValues

variable {G}

/-- The chain of `A` consists of the productions with left-hand side `A`. -/
lemma mem_productions {A : ℕ} {p : Production} :
    p ∈ G.productions A ↔ p ∈ G.prods ∧ p.lhs = A := by
  simp [productions]

/-- Two productions of a grammar with the same number are one production. -/
lemma eq_of_num_eq {p q : Production} (hp : p ∈ G.prods) (hq : q ∈ G.prods)
    (h : p.num = q.num) : p = q :=
  List.inj_on_of_nodup_map G.nums_nodup hp hq h

/-- The left-hand side of a production is a nonterminal. -/
lemma isNonterm_lhs {p : Production} (hp : p ∈ G.prods) : IsNonterm p.lhs := by
  have h := G.lhs_mem p hp
  have hle := G.currnonterm_le
  exact ⟨h.1, h.2.trans hle⟩

/-- The nonterminals of the table are those of a range. -/
lemma mem_nonterms {x : ℕ} : x ∈ G.nonterms ↔ minNonterm ≤ x ∧ x ≤ G.currnonterm :=
  Finset.mem_Icc

attribute [irreducible] nonterms

/-- The values of the nonterminals of the table are values of nonterminals. -/
lemma isNonterm_of_mem {x : ℕ} (h : x ∈ G.nonterms) : IsNonterm x := by
  have hle := G.currnonterm_le
  exact ⟨(mem_nonterms.mp h).1, (mem_nonterms.mp h).2.trans hle⟩

/-- The left-hand side of a production is a nonterminal of the table. -/
lemma lhs_mem_nonterms {p : Production} (hp : p ∈ G.prods) : p.lhs ∈ G.nonterms :=
  mem_nonterms.mpr (G.lhs_mem p hp)

/-- A nonterminal of the table is visited by every walk. -/
lemma Walk.mem_order_of_mem (w : G.Walk) {x : ℕ} (h : x ∈ G.nonterms) : x ∈ w.order :=
  (w.mem_order _).mpr (Or.inr (Or.inl (mem_nonterms.mp h)))

/-- The left-hand side of a production is visited by every walk. -/
lemma Walk.lhs_mem_order (w : G.Walk) {p : Production} (hp : p ∈ G.prods) : p.lhs ∈ w.order :=
  w.mem_order_of_mem (lhs_mem_nonterms hp)

/-- A nonterminal of a right-hand side is a nonterminal of the table. -/
lemma mem_nonterms_of_mem_rhs {p : Production} (hp : p ∈ G.prods) {x : ℕ} (hx : x ∈ p.rhs)
    (hnon : IsNonterm x) : x ∈ G.nonterms := by
  have hle := G.currterm_le
  rw [isNonterm_iff] at hnon
  rw [mem_nonterms]
  rcases G.rhs_mem p hp x hx with h | h | h
  · simp only [maxTerm, minNonterm] at hle
    omega
  · exact h
  · simp only [minAct] at h
    omega

/-- A symbol of a right-hand side is a terminal of the table, a nonterminal or an action. -/
lemma rhs_cases {p : Production} (hp : p ∈ G.prods) {x : ℕ} (hx : x ∈ p.rhs) :
    (IsTerm x ∧ x ≤ G.currterm) ∨ IsNonterm x ∨ IsAct x := by
  have hle := G.currterm_le
  have hle' := G.currnonterm_le
  rcases G.rhs_mem p hp x hx with h | h | h
  · exact Or.inl ⟨⟨h.1, h.2.trans hle⟩, h.2⟩
  · exact Or.inr (Or.inl ⟨h.1, h.2.trans hle'⟩)
  · exact Or.inr (Or.inr h.1)

/-- The value of a terminal of the table is not that of the marker. -/
lemma ne_epsilon_of_le {x : ℕ} (h : x ≤ G.currterm) : x ≠ G.epsilon := by
  unfold epsilon
  omega

end Grammar

/-! ## The grammar that the table denotes -/

/-- The grammar symbol of a table entry; actions denote nothing. -/
def toSymbol (x : ℕ) : Option (Symbol ℕ ℕ) :=
  if IsAct x then none else if IsTerm x then some (.terminal x) else some (.nonterminal x)

/-- The sentential form of a sequence of table symbols. -/
def form (γ : List ℕ) : List (Symbol ℕ ℕ) := γ.filterMap toSymbol

section Form

variable {x : ℕ} {γ δ : List ℕ}

/-- The form of the empty sequence is empty. -/
@[simp] lemma form_nil : form [] = [] := rfl

/-- An action in front is not seen in the form. -/
lemma form_cons_act (h : IsAct x) : form (x :: γ) = form γ := by
  simp [form, toSymbol, h]

/-- A terminal in front is a terminal in the form. -/
lemma form_cons_term (h : IsTerm x) : form (x :: γ) = .terminal x :: form γ := by
  simp [form, toSymbol, h, h.not_isAct]

/-- A nonterminal in front is a nonterminal in the form. -/
lemma form_cons_nonterm (h : IsNonterm x) : form (x :: γ) = .nonterminal x :: form γ := by
  simp [form, toSymbol, h.not_isAct, h.not_isTerm]

/-- The form of a concatenation is the concatenation of the forms. -/
@[simp] lemma form_append : form (γ ++ δ) = form γ ++ form δ := List.filterMap_append

end Form

/-- The rewriting rule of a production, whose actions are not seen. -/
def Production.rule (p : Production) : ContextFreeRule ℕ ℕ := ⟨p.lhs, form p.rhs⟩

/-- The context-free grammar denoted by the table. -/
@[reducible] def Grammar.cfg (G : Grammar) : ContextFreeGrammar ℕ where
  NT := ℕ
  initial := G.goalSymbol
  rules := (G.prods.map Production.rule).toFinset

/-- The rules of the grammar are those of the productions. -/
lemma Grammar.mem_rules {G : Grammar} {r : ContextFreeRule ℕ ℕ} :
    r ∈ G.cfg.rules ↔ ∃ p ∈ G.prods, p.rule = r := by
  simp

/-- A production of the table gives a rule of the grammar. -/
lemma Grammar.rule_mem {G : Grammar} {p : Production} (hp : p ∈ G.prods) :
    p.rule ∈ G.cfg.rules :=
  Grammar.mem_rules.mpr ⟨p, hp, rfl⟩

end Parser
