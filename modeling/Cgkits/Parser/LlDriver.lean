import Cgkits.Lib.Machine
import Cgkits.Parser.Select

/-!
# The LL(1) driver (`llama.m`)

The driver keeps a stack of symbols that starts with the goal symbol.  An action on top of the stack
is executed, a terminal is matched with the lookahead, and a nonterminal is replaced by the
right-hand side that the table gives for it and the lookahead; a mismatch goes to the error recovery
`yySynch`.

`LeftmostDerives` is a leftmost derivation over the symbols of the table, actions included.  The
driver keeps the invariant that what it has matched and executed, followed by its stack, is the last
form of a leftmost derivation with the productions applied (`LlInv`).  For the other direction a
derivation is followed by the driver (`reaches_of_yields`): the stack is `FollowClosed`, so the
production that a sentence needs is in the select set of the lookahead, and without conflicts the
table holds this production and no other.
-/

namespace Parser

open ContextFree Machine

/-- What the driver does, as far as it can be seen from outside. -/
inductive LlEvent
  /-- A production replaces its left-hand side on the stack. -/
  | replace (prod : ℕ)
  /-- A terminal is matched, and the input advances. -/
  | advance (t : ℕ)
  /-- An action of the user is executed. -/
  | action (act : ℕ)
  /-- The error recovery is entered. -/
  | synch
deriving DecidableEq, Repr

/-- The state of `yyparse`, and what it has done so far. -/
structure LlState where
  /-- `Yy_stack`, the top first. -/
  stack : List ℕ
  /-- The lookahead token, `yylex` having read it. -/
  lookahead : ℕ
  /-- The tokens that have not been read yet. -/
  rest : List ℕ
  /-- The number of errors seen so far. -/
  yynerrs : ℕ
  /-- What has happened so far. -/
  trace : List LlEvent

/-- How `yyparse` ends: it returns a code, or its stack overflows. -/
inductive LlResult
  /-- The parser returns a code. -/
  | returns (code : ℤ) (s : LlState)
  /-- The stack overflows and the program exits. -/
  | overflow

/-- What the generated file fixes besides the tables. -/
structure LlEnv where
  /-- `YYMAXDEPTH`, the size of the stack. -/
  yymaxdepth : ℕ
  /-- `YYMAXERR`, the maximum number of errors. -/
  yymaxerr : ℕ
  /-- The synchronization tokens of the specification, `g_synch`. -/
  synch : Finset ℕ
  /-- The code that an action returns.  It may depend on everything that has happened before. -/
  yyAct : List LlEvent → ℕ → ℤ

/-- `yylex`: the next token, `eoi` for ever at the end. -/
def yyNextToken : List ℕ → ℕ × List ℕ
  | [] => (eoi, [])
  | t :: rest => (t, rest)

/-- `Yy_synch`: the synchronization tokens and a final `-1`; the end of the input stands in for an
empty set. -/
def LlEnv.yySynchTab (env : LlEnv) : List ℤ :=
  (if env.synch = ∅ then [(eoi : ℤ)] else (env.synch.sort (· ≤ ·)).map (fun t : ℕ => (t : ℤ))) ++
    [-1]

/-- The loop of `yy_in_synch`: the symbol is among the synchronizing ones. -/
def yyInSynch (sym : ℕ) : List ℤ → Bool
  | [] => false
  | p :: tab => if p ≠ 0 ∧ 0 < p then (if p = sym then true else yyInSynch sym tab) else false

/-- Advance the input until the lookahead is `tok` or the end. -/
def skipTo (tok : ℕ) : ℕ → List ℕ → ℕ × List ℕ
  | lookahead, [] => if lookahead ≠ 0 ∧ lookahead ≠ tok then (eoi, []) else (lookahead, [])
  | lookahead, t :: rest =>
    if lookahead ≠ 0 ∧ lookahead ≠ tok then skipTo tok t rest else (lookahead, t :: rest)

/-- `yy_synch`: recover from an error.  The lookahead is `0` if this is impossible. -/
def yySynch (env : LlEnv) (s : LlState) : LlState :=
  let s := { s with yynerrs := s.yynerrs + 1, trace := s.trace ++ [LlEvent.synch] }
  if s.yynerrs > env.yymaxerr then { s with lookahead := 0 }
  else
    match s.stack.dropWhile fun x => !yyInSynch x env.yySynchTab with
    | [] => { s with stack := [], lookahead := 0 }
    | tok :: stack =>
      let (lookahead, rest) := skipTo tok s.lookahead s.rest
      { s with stack := tok :: stack, lookahead := lookahead, rest := rest }

/-- The loop that pushes a row of `Yy_pushtab`, with the overflow check of `yypush`. -/
def yyPushAll (yymaxdepth : ℕ) : List ℕ → List ℕ → Option (List ℕ)
  | [], stack => some stack
  | p :: row, stack =>
    if p = 0 then some stack
    else if yymaxdepth ≤ stack.length then none
    else yyPushAll yymaxdepth row (p :: stack)

/-- `make_pushtab`: a right-hand side, back to front, with a final `0`. -/
def Production.pushtab (p : Production) : List ℕ := p.rhs.reverse ++ [0]

namespace Grammar

variable (G : Grammar)

/-- `Yy_pushtab`: the row of a production, which is its right-hand side from the end. -/
def yyPushtab (prod : ℕ) : List ℕ :=
  ((G.prods.find? fun p => p.num = prod).map Production.pushtab).getD [0]

variable {G}

/-- `yy_next`: the production for a nonterminal and a lookahead, `-1` for failure. -/
def yyNext (w : G.Walk) (A lookahead : ℕ) : ℤ := (dtran w).cells.getD (G.cell A lookahead) (-1)

/-- An error: recover, or give up with code 1 at the end of the input. -/
def llError (env : LlEnv) (s : LlState) : LlState ⊕ LlResult :=
  let s := yySynch env s
  if s.lookahead = 0 then .inr (.returns 1 s) else .inl s

/-- One round of the loop of `yyparse`: an action, a match, or a replacement. -/
def llStep (w : G.Walk) (env : LlEnv) (s : LlState) : LlState ⊕ LlResult :=
  match s.stack with
  | [] => .inr (.returns 0 s)
  | tos :: stack =>
    if IsAct tos then
      let errcode := env.yyAct s.trace tos
      let s := { s with trace := s.trace ++ [.action tos] }
      if errcode ≠ 0 then .inr (.returns errcode s) else .inl { s with stack := stack }
    else if minTerm ≤ tos ∧ tos ≤ G.currterm then
      if tos ≠ s.lookahead then llError env s
      else
        let (lookahead, rest) := yyNextToken s.rest
        .inl { s with stack := stack, lookahead := lookahead, rest := rest,
                      trace := s.trace ++ [.advance tos] }
    else
      let prod := yyNext w tos s.lookahead
      if prod = -1 then llError env s
      else
        match yyPushAll env.yymaxdepth (G.yyPushtab prod.toNat) stack with
        | none => .inr .overflow
        | some stack => .inl { s with stack := stack, trace := s.trace ++ [.replace prod.toNat] }

variable (G) in
/-- A token of the grammar: a terminal that the table knows. -/
@[reducible] def Token : Type := { t : ℕ // minTerm ≤ t ∧ t ≤ G.currterm }

/-- The state in which the loop starts, with the goal symbol on the stack. -/
def llInit (input : List G.Token) : LlState :=
  let (lookahead, rest) := yyNextToken (input.map Subtype.val)
  ⟨[G.goalSymbol], lookahead, rest, 0, []⟩

/-- `yyparse` on the table of the grammar, cut off after `n` rounds. -/
def llParse (w : G.Walk) (env : LlEnv) (input : List G.Token) (n : ℕ) : Option LlResult :=
  if env.yymaxdepth ≤ 0 then some .overflow else run (llStep w env) n (llInit input)

end Grammar

/-! ## What a run has done -/

namespace LlState

/-- The productions that have been applied, in order. -/
def applied (s : LlState) : List ℕ :=
  s.trace.filterMap fun | .replace n => some n | _ => none

/-- The tokens that have been matched, in order. -/
def matched (s : LlState) : List ℕ :=
  s.trace.filterMap fun | .advance t => some t | _ => none

/-- The terminals matched and the actions executed, in order. -/
def consumed (s : LlState) : List ℕ :=
  s.trace.filterMap fun | .advance t => some t | .action a => some a | _ => none

/-- The tokens that have not been matched yet, with the lookahead in front. -/
def unread (s : LlState) : List ℕ := if s.lookahead = eoi then [] else s.lookahead :: s.rest

end LlState

namespace Grammar

variable {G : Grammar}

variable (G) in
/-- `LeftmostDerives γ ns δ`: the productions numbered `ns`, each applied to the leftmost
nonterminal, lead from `γ` to `δ`.  The forms consist of symbols of the table, actions included. -/
inductive LeftmostDerives (γ : List ℕ) : List ℕ → List ℕ → Prop
  /-- No production is applied. -/
  | refl : LeftmostDerives γ [] γ
  /-- One more production is applied to the leftmost nonterminal. -/
  | step {ns u δ : List ℕ} {p : Production} (h : LeftmostDerives γ ns (u ++ p.lhs :: δ))
      (hu : ∀ x ∈ u, ¬ IsNonterm x) (hp : p ∈ G.prods) :
      LeftmostDerives γ (ns ++ [p.num]) (u ++ p.rhs ++ δ)

/-! ## What a round does -/

section Rounds

variable {w : G.Walk} {env : LlEnv} {s s' : LlState}

/-- A round that goes on executes an action, matches a terminal, replaces a nonterminal, or recovers
from an error. -/
lemma llStep_cases (h : llStep w env s = .inl s') :
    (∃ a stack, s.stack = a :: stack ∧ IsAct a ∧
      s' = { s with stack := stack, trace := s.trace ++ [.action a] }) ∨
    (∃ stack, s.stack = s.lookahead :: stack ∧ ¬ IsAct s.lookahead ∧
      minTerm ≤ s.lookahead ∧ s.lookahead ≤ G.currterm ∧
      s' = { s with stack := stack, lookahead := (yyNextToken s.rest).1,
                    rest := (yyNextToken s.rest).2,
                    trace := s.trace ++ [.advance s.lookahead] }) ∨
    (∃ A stack stack', s.stack = A :: stack ∧ ¬ IsAct A ∧ ¬ (minTerm ≤ A ∧ A ≤ G.currterm) ∧
      yyNext w A s.lookahead ≠ -1 ∧
      yyPushAll env.yymaxdepth (G.yyPushtab (yyNext w A s.lookahead).toNat) stack = some stack' ∧
      s' = { s with stack := stack',
                    trace := s.trace ++ [.replace (yyNext w A s.lookahead).toNat] }) ∨
    s'.yynerrs = s.yynerrs + 1 := by
  have herror : ∀ {t : LlState}, llError env s = .inl t → t.yynerrs = s.yynerrs + 1 := by
    intro t ht
    simp only [llError] at ht
    split at ht
    · simp at ht
    · obtain rfl := Sum.inl.inj ht
      unfold yySynch
      dsimp only
      split
      · rfl
      · split <;> rfl
  rcases s with ⟨stack, lookahead, rest, yynerrs, trace⟩
  rcases stack with _ | ⟨tos, stack⟩
  · simp [llStep] at h
  · simp only [llStep] at h
    by_cases hact : IsAct tos
    · rw [if_pos hact] at h
      split at h
      · simp at h
      · exact Or.inl ⟨tos, stack, rfl, hact, (Sum.inl.inj h).symm⟩
    · rw [if_neg hact] at h
      by_cases hterm : minTerm ≤ tos ∧ tos ≤ G.currterm
      · rw [if_pos hterm] at h
        by_cases hla : tos = lookahead
        · subst hla
          rw [if_neg (by simp)] at h
          exact Or.inr (Or.inl ⟨stack, rfl, hact, hterm.1, hterm.2, (Sum.inl.inj h).symm⟩)
        · rw [if_pos hla] at h
          exact Or.inr (Or.inr (Or.inr (herror h)))
      · rw [if_neg hterm] at h
        by_cases hfail : yyNext w tos lookahead = -1
        · rw [if_pos hfail] at h
          exact Or.inr (Or.inr (Or.inr (herror h)))
        · rw [if_neg hfail] at h
          split at h
          · simp at h
          · exact Or.inr (Or.inr (Or.inl
              ⟨tos, stack, _, rfl, hact, hterm, hfail, ‹_›, (Sum.inl.inj h).symm⟩))

/-- The loop returns 0 only when the stack is empty. -/
lemma stack_of_returns_zero (h : llStep w env s = .inr (.returns 0 s')) :
    s.stack = [] ∧ s' = s := by
  have herror : ∀ {t : LlState}, llError env s ≠ .inr (.returns 0 t) := by
    intro t ht
    simp only [llError] at ht
    split at ht <;> simp at ht
  rcases hstack : s.stack with _ | ⟨tos, stack⟩
  · rw [llStep, hstack] at h
    simp only [Sum.inr.injEq, LlResult.returns.injEq, true_and] at h
    exact ⟨rfl, h.symm⟩
  · rw [llStep, hstack] at h
    simp only at h
    split at h
    · split at h
      · simp only [Sum.inr.injEq, LlResult.returns.injEq] at h
        exact absurd h.1 ‹_›
      · simp at h
    · split at h
      · split at h
        · exact absurd h herror
        · simp at h
      · split at h
        · exact absurd h herror
        · split at h <;> simp at h

end Rounds

/-! ## The tables of a grammar without conflicts -/

section Tables

variable {w : G.Walk}

/-- A row of `Yy_pushtab` pushes the right-hand side in order. -/
lemma yyPushAll_eq {n : ℕ} {rhs stack stack' : List ℕ} (hrhs : ∀ x ∈ rhs, x ≠ 0)
    (h : yyPushAll n (rhs ++ [0]) stack = some stack') : stack' = rhs.reverse ++ stack := by
  induction rhs generalizing stack with
  | nil => simpa [yyPushAll] using h.symm
  | cons x rhs ih =>
    rw [List.cons_append, yyPushAll, if_neg (hrhs x (by simp))] at h
    split at h
    · simp at h
    · rw [ih (fun y hy => hrhs y (by simp [hy])) h]
      simp

/-- The row of a production is its right-hand side from the end, with a zero behind it. -/
lemma yyPushtab_num {p : Production} (hp : p ∈ G.prods) :
    G.yyPushtab p.num = p.rhs.reverse ++ [0] := by
  have hfind : G.prods.find? (fun q => q.num = p.num) = some p := by
    rcases hq : G.prods.find? (fun q => q.num = p.num) with _ | q
    · have := List.find?_eq_none.mp hq p hp
      simp at this
    · have hnum : q.num = p.num := by simpa using List.find?_some hq
      rw [eq_of_num_eq (List.mem_of_find?_eq_some hq) hp hnum] at hq
      exact hq
  simp [yyPushtab, hfind, Production.pushtab]

/-- No symbol of a right-hand side is `0`. -/
lemma ne_zero_of_mem_rhs {p : Production} (hp : p ∈ G.prods) {x : ℕ} (hx : x ∈ p.rhs) : x ≠ 0 := by
  rcases G.rhs_mem p hp x hx with h | h | h <;> simp only [minTerm, minNonterm, minAct]
    at h <;> omega

/-- Pushing the row of a production puts its right-hand side on the stack. -/
lemma yyPushAll_yyPushtab {n : ℕ} {p : Production} (hp : p ∈ G.prods) {stack stack' : List ℕ}
    (h : yyPushAll n (G.yyPushtab p.num) stack = some stack') : stack' = p.rhs ++ stack := by
  rw [yyPushtab_num hp] at h
  have := yyPushAll_eq (fun x hx => ne_zero_of_mem_rhs hp (List.mem_reverse.mp hx)) h
  rwa [List.reverse_reverse] at this

/-- An entry of the table is the number of a production of the nonterminal that the lookahead
selects. -/
lemma exists_prod_of_yyNext (hc : (dtran w).conflicts = []) {A i : ℕ} (hA : A ∈ G.nonterms)
    (hi : i ≤ G.currterm) (h : yyNext w A i ≠ -1) :
    ∃ p ∈ G.prods, p.lhs = A ∧ yyNext w A i = p.num := by
  obtain ⟨hin, hout⟩ := makeDtran_getD w (fits_selectSets w) hc hA hi
  by_contra hnone
  refine h (hout fun p hp hlhs hsel => hnone ⟨p, hp, hlhs, hin p hp hlhs hsel⟩)

/-- A production that the lookahead selects is in the table. -/
lemma yyNext_of_selectBy (hc : (dtran w).conflicts = []) {p : Production} (hp : p ∈ G.prods) {i : ℕ}
    (hi : i ≤ G.currterm) (h : SelectBy (g := G.cfg) (ChainNull G.cfg) p.rule (look i)) :
    yyNext w p.lhs i = p.num :=
  (makeDtran_getD w (fits_selectSets w) hc (lhs_mem_nonterms hp) hi).1 p hp rfl
    ((mem_selectSets_iff w hp).mpr ⟨hi, h⟩)

end Tables

/-! ## Soundness -/

section Soundness

variable {w : G.Walk} {env : LlEnv} {s s' : LlState}

variable (G) in
/-- What holds in every round without an error: the tokens matched and the tokens unread are the
input, and what has been matched and executed, followed by the stack, is derived from the goal
symbol by the productions applied. -/
structure LlInv (input : List G.Token) (s : LlState) : Prop where
  /-- No token of the input has been lost. -/
  input_eq : s.matched ++ s.unread = input.map Subtype.val
  /-- The lookahead is a column of the table. -/
  lookahead_le : s.lookahead ≤ G.currterm
  /-- The unread tokens are tokens. -/
  rest_token : ∀ t ∈ s.rest, minTerm ≤ t ∧ t ≤ G.currterm
  /-- Nothing comes behind the end of the input. -/
  rest_eoi : s.lookahead = eoi → s.rest = []
  /-- The stack consists of symbols of the table. -/
  stack_symbol : ∀ x ∈ s.stack, G.IsSymbol x
  /-- The left part of the form consists of terminals and actions. -/
  consumed_visible : ∀ x ∈ s.consumed, IsTerm x ∨ IsAct x
  /-- The tokens matched are the terminals of the form. -/
  matched_eq : s.matched = s.consumed.filter fun x => IsTerm x
  /-- The form is derived by the productions applied. -/
  derives : LeftmostDerives G [G.goalSymbol] s.applied (s.consumed ++ s.stack)

/-- A symbol of the table that is neither an action nor one of its terminals is one of its
nonterminals. -/
lemma mem_nonterms_of_isSymbol {x : ℕ} (hx : G.IsSymbol x) (hact : ¬ IsAct x)
    (hterm : ¬ (minTerm ≤ x ∧ x ≤ G.currterm)) : x ∈ G.nonterms := by
  rcases hx with h | h | h
  · exact absurd h hterm
  · exact mem_nonterms.mpr h
  · exact absurd h.1 hact

/-- A terminal of the table is a terminal by its value. -/
lemma isTerm_of_le {x : ℕ} (h : minTerm ≤ x ∧ x ≤ G.currterm) : IsTerm x := by
  have hle := G.currterm_le
  exact ⟨h.1, h.2.trans hle⟩

/-- A list of terminals and actions contains no nonterminal. -/
lemma not_isNonterm_of_visible {γ : List ℕ} (h : ∀ x ∈ γ, IsTerm x ∨ IsAct x) :
    ∀ x ∈ γ, ¬ IsNonterm x := by
  intro x hx hn
  rcases h x hx with ht | ha
  · exact hn.not_isTerm ht
  · exact hn.not_isAct ha

/-- The next token is a terminal of the table or the end, and so are those behind it. -/
lemma yyNextToken_spec {l : List ℕ} (hl : ∀ t ∈ l, minTerm ≤ t ∧ t ≤ G.currterm) :
    (yyNextToken l).1 ≤ G.currterm ∧ (∀ t ∈ (yyNextToken l).2, minTerm ≤ t ∧ t ≤ G.currterm) ∧
      ((yyNextToken l).1 = eoi → (yyNextToken l).2 = []) ∧
      (if (yyNextToken l).1 = eoi then [] else (yyNextToken l).1 :: (yyNextToken l).2) = l := by
  rcases l with _ | ⟨t, l⟩
  · simp [yyNextToken, eoi]
  · have ht := hl t (by simp)
    have hne : t ≠ eoi := by
      have := ht.1
      unfold minTerm at this
      unfold eoi
      omega
    refine ⟨ht.2, fun u hu => hl u (by simp [show u ∈ l from hu]), fun h => absurd h hne, ?_⟩
    rw [if_neg (by exact hne)]
    rfl

/-- The invariant holds in the state in which the loop starts. -/
lemma llInv_init (input : List G.Token) : G.LlInv input (llInit input) := by
  have htok : ∀ t ∈ input.map Subtype.val, minTerm ≤ t ∧ t ≤ G.currterm := by
    intro t ht
    obtain ⟨u, -, rfl⟩ := List.mem_map.mp ht
    exact u.2
  obtain ⟨hle, hrest, heoi, heq⟩ := yyNextToken_spec htok
  have hgoal := G.goalSymbol_mem
  exact {
    input_eq := heq
    lookahead_le := hle
    rest_token := hrest
    rest_eoi := heoi
    stack_symbol := fun x hx => Or.inr (Or.inl (by rw [List.mem_singleton.mp hx]; exact hgoal))
    consumed_visible := fun x hx => by simp [llInit, LlState.consumed] at hx
    matched_eq := rfl
    derives := .refl }

/-- A round without an error keeps the invariant. -/
lemma LlInv.step (hc : (dtran w).conflicts = []) {input : List G.Token} (h : G.LlInv input s)
    (hstep : llStep w env s = .inl s') (herr : s'.yynerrs = s.yynerrs) : G.LlInv input s' := by
  rcases llStep_cases hstep with ⟨a, stack, hstack, hact, rfl⟩ |
    ⟨stack, hstack, hact, hmin, hmax, rfl⟩ |
    ⟨A, stack, stack', hstack, hact, hterm, hentry, hpush, rfl⟩ | hsynch
  · have hconsumed : LlState.consumed { s with stack := stack, trace := s.trace ++ [.action a] } =
        s.consumed ++ [a] := by simp [LlState.consumed]
    exact {
      input_eq := by simpa [LlState.matched, LlState.unread] using h.input_eq
      lookahead_le := h.lookahead_le
      rest_token := h.rest_token
      rest_eoi := h.rest_eoi
      stack_symbol := fun x hx => h.stack_symbol x (by rw [hstack]; exact List.mem_cons_of_mem _ hx)
      consumed_visible := by
        rw [hconsumed]
        intro x hx
        rcases List.mem_append.mp hx with hx | hx
        · exact h.consumed_visible x hx
        · rw [List.mem_singleton.mp hx]
          exact Or.inr hact
      matched_eq := by
        rw [hconsumed, List.filter_append]
        have : ¬ IsTerm a := fun ht => ht.not_isAct hact
        simpa [LlState.matched, this] using h.matched_eq
      derives := by
        have hd := h.derives
        rw [hstack] at hd
        rw [hconsumed]
        simpa [LlState.applied] using hd }
  · have hterm := isTerm_of_le ⟨hmin, hmax⟩
    obtain ⟨hle, hrest, heoi, heq⟩ := yyNextToken_spec h.rest_token
    have hne : s.lookahead ≠ eoi := by
      unfold minTerm at hmin
      unfold eoi
      omega
    have hconsumed : LlState.consumed { s with
        stack := stack, lookahead := (yyNextToken s.rest).1, rest := (yyNextToken s.rest).2,
        trace := s.trace ++ [.advance s.lookahead] } = s.consumed ++ [s.lookahead] := by
      simp [LlState.consumed]
    exact {
      input_eq := by
        have hin := h.input_eq
        rw [LlState.unread, if_neg hne] at hin
        rw [← hin]
        simp [LlState.matched, LlState.unread, heq]
      lookahead_le := hle
      rest_token := hrest
      rest_eoi := heoi
      stack_symbol := fun x hx => h.stack_symbol x (by rw [hstack]; exact List.mem_cons_of_mem _ hx)
      consumed_visible := by
        rw [hconsumed]
        intro x hx
        rcases List.mem_append.mp hx with hx | hx
        · exact h.consumed_visible x hx
        · rw [List.mem_singleton.mp hx]
          exact Or.inl hterm
      matched_eq := by
        rw [hconsumed, List.filter_append]
        simpa [LlState.matched, hterm] using h.matched_eq
      derives := by
        have hd := h.derives
        rw [hstack] at hd
        rw [hconsumed]
        simpa [LlState.applied] using hd }
  · have hA := mem_nonterms_of_isSymbol (h.stack_symbol A (by rw [hstack]; simp)) hact hterm
    obtain ⟨p, hp, rfl, hnum⟩ := exists_prod_of_yyNext hc hA h.lookahead_le hentry
    rw [hnum, Int.toNat_natCast] at hpush
    obtain rfl := yyPushAll_yyPushtab hp hpush
    have hconsumed : ∀ n, LlState.consumed { s with
        stack := p.rhs ++ stack, trace := s.trace ++ [.replace n] } = s.consumed := by
      simp [LlState.consumed]
    exact {
      input_eq := by simpa [LlState.matched, LlState.unread] using h.input_eq
      lookahead_le := h.lookahead_le
      rest_token := h.rest_token
      rest_eoi := h.rest_eoi
      stack_symbol := by
        intro x hx
        rcases List.mem_append.mp hx with hx | hx
        · exact G.rhs_mem p hp x hx
        · exact h.stack_symbol x (by rw [hstack]; exact List.mem_cons_of_mem _ hx)
      consumed_visible := by
        rw [hconsumed]
        exact h.consumed_visible
      matched_eq := by
        rw [hconsumed]
        simpa [LlState.matched] using h.matched_eq
      derives := by
        have hd := h.derives
        rw [hstack] at hd
        rw [hconsumed, hnum]
        have := hd.step (not_isNonterm_of_visible h.consumed_visible) hp
        simpa [LlState.applied] using this }
  · omega

/-- The error counter never goes down in a round. -/
lemma yynerrs_le (hstep : llStep w env s = .inl s') : s.yynerrs ≤ s'.yynerrs := by
  rcases llStep_cases hstep with ⟨_, _, _, _, rfl⟩ | ⟨_, _, _, _, _, rfl⟩ |
    ⟨_, _, _, _, _, _, _, _, rfl⟩ | hsynch
  · exact le_rfl
  · exact le_rfl
  · exact le_rfl
  · omega

/-- The invariant holds in every state of a run that has seen no error. -/
lemma LlInv.reaches (hc : (dtran w).conflicts = []) {input : List G.Token}
    (h : Reaches (llStep w env) (llInit input) s) : s.yynerrs = 0 → G.LlInv input s := by
  refine h.invariant (fun s => s.yynerrs = 0 → G.LlInv input s) (fun s s' hs hstep herr => ?_)
    fun _ => llInv_init input
  have hle := yynerrs_le hstep
  exact (hs (by omega)).step hc hstep (by omega)

end Soundness

/-! ## Completeness -/

section Completeness

variable {w : G.Walk} {env : LlEnv} {s : LlState}

/-- The head of the unread tokens is what the table is asked for. -/
lemma head?_unread : s.unread.head? = look s.lookahead := by
  unfold LlState.unread look
  split <;> rfl

/-- Actions on top of the stack are executed without reading a token. -/
lemma reaches_acts (hact : ∀ tr a, env.yyAct tr a = 0) {α σ : List ℕ} (hα : ∀ x ∈ α, IsAct x)
    (hs : s.stack = α ++ σ) : ∃ s', Reaches (llStep w env) s s' ∧ s'.stack = σ ∧
      s'.unread = s.unread ∧ s'.yynerrs = s.yynerrs := by
  induction α generalizing s with
  | nil => exact ⟨s, .refl s, hs, rfl, rfl⟩
  | cons a α ih =>
    have hstep : llStep w env s =
        .inl { s with stack := α ++ σ, trace := s.trace ++ [.action a] } := by
      rw [llStep, hs]
      simp [hα a (by simp), hact]
    obtain ⟨s', hreach, hstack, hunread, herr⟩ := ih
      (s := { s with stack := α ++ σ, trace := s.trace ++ [.action a] })
      (fun x hx => hα x (by simp [hx])) rfl
    exact ⟨s', .head hstep hreach, hstack, hunread, herr⟩

/-- A terminal on top of the stack is matched with itself. -/
lemma reaches_terminal {input : List G.Token} (hinv : G.LlInv input s) {t : ℕ} {σ v : List ℕ}
    (hs : s.stack = t :: σ) (hu : s.unread = t :: v) : ∃ s', Reaches (llStep w env) s s' ∧
      s'.stack = σ ∧ s'.unread = v ∧ s'.yynerrs = s.yynerrs := by
  have hne : s.lookahead ≠ eoi := by
    intro h
    rw [LlState.unread, if_pos h] at hu
    simp at hu
  rw [LlState.unread, if_neg hne, List.cons.injEq] at hu
  obtain ⟨rfl, rfl⟩ := hu
  have hterm : minTerm ≤ s.lookahead ∧ s.lookahead ≤ G.currterm := by
    refine ⟨?_, hinv.lookahead_le⟩
    unfold eoi at hne
    unfold minTerm
    omega
  obtain ⟨-, -, -, heq⟩ := yyNextToken_spec hinv.rest_token
  have hstep : llStep w env s = .inl { s with
      stack := σ, lookahead := (yyNextToken s.rest).1, rest := (yyNextToken s.rest).2,
      trace := s.trace ++ [.advance s.lookahead] } := by
    rw [llStep, hs]
    simp [(isTerm_of_le hterm).not_isAct, hterm]
  exact ⟨_, .single hstep, rfl, heq, rfl⟩

/-- A nonterminal on top of the stack is replaced by the right-hand side that the lookahead
selects. -/
lemma reaches_replace (hc : (dtran w).conflicts = []) {input : List G.Token}
    (hinv : G.LlInv input s) (hov : llStep w env s ≠ .inr .overflow) {p : Production}
    (hp : p ∈ G.prods) {σ : List ℕ} (hs : s.stack = p.lhs :: σ)
    (hsel : SelectBy (g := G.cfg) (ChainNull G.cfg) p.rule s.unread.head?) :
    ∃ s', Reaches (llStep w env) s s' ∧ s'.stack = p.rhs ++ σ ∧ s'.unread = s.unread ∧
      s'.yynerrs = s.yynerrs := by
  rw [head?_unread] at hsel
  have hentry := yyNext_of_selectBy hc hp hinv.lookahead_le hsel
  have hnon := isNonterm_lhs hp
  have hterm : ¬ (minTerm ≤ p.lhs ∧ p.lhs ≤ G.currterm) :=
    fun h => hnon.not_isTerm (isTerm_of_le h)
  have hne : ¬ ((p.num : ℤ) = -1) := by omega
  rcases hpush : yyPushAll env.yymaxdepth (G.yyPushtab p.num) σ with _ | stack
  · refine absurd ?_ hov
    rw [llStep, hs]
    simp [hnon.not_isAct, hterm, hentry, hne, hpush]
  · obtain rfl := yyPushAll_yyPushtab hp hpush
    have hstep : llStep w env s =
        .inl { s with stack := p.rhs ++ σ, trace := s.trace ++ [.replace p.num] } := by
      rw [llStep, hs]
      simp [hnon.not_isAct, hterm, hentry, hne, hpush]
    exact ⟨_, .single hstep, rfl, rfl, rfl⟩

/-- The driver follows a derivation: when the upper part of the stack yields the next tokens and the
rest of the stack yields the tokens behind them, the driver comes to the rest of the stack without
an error. -/
lemma reaches_of_yields (hc : (dtran w).conflicts = []) (hact : ∀ tr a, env.yyAct tr a = 0)
    {input : List G.Token}
    (hov : ∀ s, Reaches (llStep w env) (llInit input) s → llStep w env s ≠ .inr .overflow)
    {δ : List (Symbol ℕ G.cfg.NT)} {u : List ℕ} (hyield : Yields G.cfg δ u) {γ σ v : List ℕ}
    {s : LlState} (hδ : form γ = δ) (hreach : Reaches (llStep w env) (llInit input) s)
    (herr : s.yynerrs = 0) (hs : s.stack = γ ++ σ) (hu : s.unread = u ++ v)
    (hσ : Yields G.cfg (form σ) v)
    (hclosed : FollowClosed (g := G.cfg) (ChainNull G.cfg) (form (γ ++ σ))) :
    ∃ s', Reaches (llStep w env) s s' ∧ s'.stack = σ ∧ s'.unread = v ∧ s'.yynerrs = 0 := by
  induction hyield generalizing γ σ v s with
  | nil =>
    have hacts : ∀ x ∈ γ, IsAct x := by
      intro x hx
      have hnone := List.filterMap_eq_nil_iff.mp hδ x hx
      unfold toSymbol at hnone
      by_contra hact
      rw [if_neg hact] at hnone
      split at hnone <;> simp at hnone
    obtain ⟨s', hreach', hstack, hunread, herr'⟩ := reaches_acts hact hacts hs
    exact ⟨s', hreach', hstack, hunread.trans hu, herr'.trans herr⟩
  | @terminal t δ u _ ih =>
    obtain ⟨α, y, β, rfl, hα, hy, hβ⟩ := exists_of_form_eq_cons hδ
    obtain ⟨-, hterm, rfl⟩ := toSymbol_eq_terminal hy
    rw [List.append_assoc, List.cons_append] at hs
    obtain ⟨s₁, hreach₁, hstack₁, hunread₁, herr₁⟩ := reaches_acts hact hα hs
    have hinv := LlInv.reaches hc (hreach.trans hreach₁) (herr₁.trans herr)
    rw [hu] at hunread₁
    obtain ⟨s₂, hreach₂, hstack₂, hunread₂, herr₂⟩ := reaches_terminal hinv hstack₁ hunread₁
    have hclosed' : FollowClosed (g := G.cfg) (ChainNull G.cfg) (form (β ++ σ)) := by
      refine FollowClosed.of_append (α := form (α ++ [y])) ?_
      rw [← form_append]
      simpa using hclosed
    obtain ⟨s₃, hreach₃, h₃⟩ := ih hβ ((hreach.trans hreach₁).trans hreach₂)
      (herr₂.trans (herr₁.trans herr)) hstack₂ hunread₂ hσ hclosed'
    exact ⟨s₃, (hreach₁.trans hreach₂).trans hreach₃, h₃⟩
  | @rule r δ u₁ u₂ hr hyield₁ hyield₂ ih₁ ih₂ =>
    obtain ⟨p, hp, rfl⟩ := mem_rules.mp hr
    obtain ⟨α, y, β, rfl, hα, hy, hβ⟩ := exists_of_form_eq_cons hδ
    obtain ⟨-, -, hlhs⟩ := toSymbol_eq_nonterminal hy
    obtain rfl : y = p.lhs := hlhs
    rw [List.append_assoc, List.cons_append] at hs
    obtain ⟨s₁, hreach₁, hstack₁, hunread₁, herr₁⟩ := reaches_acts hact hα hs
    have hinv := LlInv.reaches hc (hreach.trans hreach₁) (herr₁.trans herr)
    have hyieldβ : Yields G.cfg (form (β ++ σ)) (u₂ ++ v) := by
      rw [form_append]
      exact (hβ ▸ hyield₂).append hσ
    have hclosed₁ : FollowClosed (g := G.cfg) (ChainNull G.cfg)
        (.nonterminal p.rule.input :: form (β ++ σ)) := by
      have hform : form (α ++ p.lhs :: β ++ σ) =
          form α ++ (.nonterminal p.rule.input :: form (β ++ σ)) := by
        rw [List.append_assoc, List.cons_append, form_append,
          form_cons_nonterm (isNonterm_lhs hp)]
        rfl
      rw [hform] at hclosed
      exact hclosed.of_append
    have hsel := hyield₁.selectBy nullClosed_chainNull hclosed₁ hyieldβ
    rw [← List.append_assoc, ← hu, ← hunread₁] at hsel
    obtain ⟨s₂, hreach₂, hstack₂, hunread₂, herr₂⟩ :=
      reaches_replace hc hinv (hov _ (hreach.trans hreach₁)) hp hstack₁ hsel
    have hclosed₂ : FollowClosed (g := G.cfg) (ChainNull G.cfg) (form (p.rhs ++ (β ++ σ))) := by
      rw [form_append]
      exact hclosed₁.expand hr
    have hreach' := (hreach.trans hreach₁).trans hreach₂
    obtain ⟨s₃, hreach₃, hstack₃, hunread₃, herr₃⟩ := ih₁ (γ := p.rhs) rfl hreach'
      (herr₂.trans (herr₁.trans herr)) hstack₂
      (by rw [hunread₂, hunread₁, hu, List.append_assoc]) hyieldβ hclosed₂
    have hclosed₃ : FollowClosed (g := G.cfg) (ChainNull G.cfg) (form (β ++ σ)) := by
      rw [form_append] at hclosed₂
      exact hclosed₂.of_append
    obtain ⟨s₄, hreach₄, h₄⟩ := ih₂ hβ (hreach'.trans hreach₃) herr₃ hstack₃ hunread₃ hσ hclosed₃
    exact ⟨s₄, ((hreach₁.trans hreach₂).trans hreach₃).trans hreach₄, h₄⟩

end Completeness

/-! ## The driver and the language -/

variable (G) in
/-- The run has been a leftmost derivation of the tokens matched: the productions applied lead from
the goal symbol to the sequence of the terminals matched and the actions executed. -/
structure LlParsed (s : LlState) : Prop where
  /-- The productions applied form a leftmost derivation. -/
  derives : LeftmostDerives G [G.goalSymbol] s.applied s.consumed
  /-- Its last form consists of terminals and actions. -/
  visible : ∀ x ∈ s.consumed, IsTerm x ∨ IsAct x
  /-- The tokens matched are the terminals of this form. -/
  matched_eq : s.matched = s.consumed.filter fun x => IsTerm x
  /-- The tokens matched form a sentence of the grammar. -/
  sentence : G.cfg.Derives [.nonterminal G.goalSymbol] (s.matched.map .terminal)

/-- A leftmost derivation is a derivation of the forms. -/
lemma LeftmostDerives.derives {γ ns δ : List ℕ} (h : LeftmostDerives G γ ns δ) :
    G.cfg.Derives (form γ) (form δ) := by
  induction h with
  | refl => exact .refl _
  | @step ns u δ p _ _ hp ih =>
    refine ih.trans_produces ⟨p.rule, rule_mem hp, ?_⟩
    rw [form_append, form_cons_nonterm (isNonterm_lhs hp), form_append, form_append]
    have := ContextFreeRule.Rewrites.input_output (r := p.rule)
    have h := (this.append_right (form δ)).append_left (form u)
    simpa [Production.rule] using h

/-- The form of terminals and actions is the word of the terminals. -/
lemma form_of_visible {γ : List ℕ} (h : ∀ x ∈ γ, IsTerm x ∨ IsAct x) :
    form γ = (γ.filter fun x => IsTerm x).map .terminal := by
  induction γ with
  | nil => rfl
  | cons x γ ih =>
    rw [List.forall_mem_cons] at h
    rcases h.1 with hterm | hact
    · rw [form_cons_term hterm, ih h.2, List.filter_cons_of_pos (by simpa using hterm),
        List.map_cons]
    · have hterm : ¬ IsTerm x := fun ht => ht.not_isAct hact
      rw [form_cons_act hact, ih h.2, List.filter_cons_of_neg (by simpa using hterm)]

/-- A state with an empty stack that the driver has reached without an error. -/
lemma LlInv.parsed {input : List G.Token} {s : LlState} (h : G.LlInv input s) (hs : s.stack = []) :
    G.LlParsed s ∧ s.matched <+: input.map Subtype.val := by
  have hd := h.derives
  rw [hs, List.append_nil] at hd
  refine ⟨⟨hd, h.consumed_visible, h.matched_eq, ?_⟩, s.unread, h.input_eq⟩
  have hder := hd.derives
  have hgoal : IsNonterm G.goalSymbol := isNonterm_of_mem (mem_nonterms.mpr G.goalSymbol_mem)
  rwa [form_of_visible h.consumed_visible, ← h.matched_eq, form_cons_nonterm hgoal, form_nil]
    at hder

/-- The LL(1) driver on a table without conflicts.  When it returns 0 without an error, the tokens
it has matched are a sentence that begins the input, and the run is a leftmost derivation of this
sentence with its actions executed in order.  When the whole input is a sentence, the driver returns
0 without an error and has matched all of it, unless the stack overflows. -/
theorem llParse_correct (G : Grammar) (w : G.Walk) (env : LlEnv) (hc : (dtran w).conflicts = [])
    (input : List G.Token) :
    (∀ n s, llParse w env input n = some (.returns 0 s) → s.yynerrs = 0 →
      G.LlParsed s ∧ s.matched <+: input.map Subtype.val) ∧
    ((∀ tr a, env.yyAct tr a = 0) →
      G.cfg.Derives [.nonterminal G.goalSymbol] (input.map fun t => .terminal t.1) →
      ∃ n r, llParse w env input n = some r ∧
        (r = .overflow ∨ ∃ s, r = .returns 0 s ∧ s.yynerrs = 0 ∧
          s.matched = input.map Subtype.val ∧ G.LlParsed s)) := by
  constructor
  · intro n s hn herr
    unfold llParse at hn
    split at hn
    · simp at hn
    · obtain ⟨s', hreach, hstop⟩ := run_spec hn
      obtain ⟨hstack, rfl⟩ := stack_of_returns_zero hstop
      exact (LlInv.reaches hc hreach herr).parsed hstack
  · intro hact hder
    by_cases hdepth : env.yymaxdepth ≤ 0
    · exact ⟨0, .overflow, by rw [llParse, if_pos hdepth], Or.inl rfl⟩
    simp only [llParse, if_neg hdepth]
    by_cases hov : ∀ s, Reaches (llStep w env) (llInit input) s → llStep w env s ≠ .inr .overflow
    · have hgoal : IsNonterm G.goalSymbol := isNonterm_of_mem (mem_nonterms.mpr G.goalSymbol_mem)
      have hinit := llInv_init input
      have hyield : Yields G.cfg [.nonterminal G.goalSymbol] (input.map Subtype.val) := by
        rw [yields_iff_derives, List.map_map]
        exact hder
      have hunread : (llInit input).unread = input.map Subtype.val := hinit.input_eq
      obtain ⟨s, hreach, hstack, hrest, herr⟩ := reaches_of_yields hc hact hov hyield
        (γ := [G.goalSymbol]) (σ := []) (v := []) (form_cons_nonterm hgoal) (.refl _) rfl rfl
        (by rw [hunread, List.append_nil]) .nil
        (by
          rw [List.append_nil, form_cons_nonterm hgoal]
          exact followClosed_initial _)
      have hstop : llStep w env s = .inr (.returns 0 s) := by
        rw [llStep, hstack]
      have hinv := LlInv.reaches hc hreach herr
      obtain ⟨n, hn⟩ := hreach.run hstop
      refine ⟨n, _, hn, Or.inr ⟨s, rfl, herr, ?_, (hinv.parsed hstack).1⟩⟩
      have := hinv.input_eq
      rwa [hrest, List.append_nil] at this
    · push Not at hov
      obtain ⟨s, hreach, hstop⟩ := hov
      obtain ⟨n, hn⟩ := hreach.run hstop
      exact ⟨n, _, hn, Or.inl rfl⟩

/-- `s : {0} X ;` with `X = 1`, `s = 256` and the action `512`. -/
def actionGrammar : Grammar := SymbolTable.grammar
  { prods := [⟨0, 256, [512, 1], 0⟩]
    currterm := 1
    currnonterm := 256
    curract := 512
    goalSymbol := 256 } (by decide)

/-- The symbol table of `actionGrammar`, walked by value. -/
def actionWalk : actionGrammar.Walk := actionGrammar.valueWalk

/-- A nonterminal with one production makes no conflict. -/
lemma actionGrammar_conflicts : (dtran actionWalk).conflicts = [] := by
  rw [dtran_conflicts_iff]
  intro p hp q hq hpq
  simp only [actionGrammar, SymbolTable.grammar, List.mem_singleton] at hp hq
  exact absurd (hp.trans hq.symm) hpq

/-- For the grammar of `s : {0} X ;` and the input `X` the driver accepts with the leftmost
derivation. -/
theorem llParse_correct_actionGrammar :
    (∀ n s, llParse actionWalk ⟨128, 25, ∅, fun _ _ => 0⟩ [⟨1, by decide⟩] n =
        some (.returns 0 s) → s.yynerrs = 0 → actionGrammar.LlParsed s ∧ s.matched <+: [1]) ∧
    ∃ n r, llParse actionWalk ⟨128, 25, ∅, fun _ _ => 0⟩ [⟨1, by decide⟩] n = some r ∧
      (r = .overflow ∨ ∃ s, r = .returns 0 s ∧ s.yynerrs = 0 ∧ s.matched = [1] ∧
        actionGrammar.LlParsed s) := by
  obtain ⟨hsound, hcomplete⟩ := llParse_correct actionGrammar actionWalk
    ⟨128, 25, ∅, fun _ _ => 0⟩ actionGrammar_conflicts [⟨1, by decide⟩]
  refine ⟨hsound, hcomplete (fun _ _ => rfl) ?_⟩
  have hyield : Yields actionGrammar.cfg [.nonterminal (256 : ℕ)] [1] :=
    .rule (g := actionGrammar.cfg) (r := ⟨(256 : ℕ), [.terminal 1]⟩) (by decide) (.terminal .nil)
      .nil
  exact yields_iff_derives.mp hyield

end Grammar

end Parser
