import Cgkits.Parser.LrParse

/-!
# Operators without associativity (`yystate.c`)

A production `e : e op e` that can be reached leads to a state that holds the completed production
with `op` as a lookahead (`exists_completed`).  The entry of this state for `op` is a shift or a
reduction and never an error, whatever has been declared for `op`: `reduce_one_item` takes an
operator that is declared with `%nonassoc` for one that is declared with `%left`.
-/

namespace Parser

open ContextFree Machine

namespace Grammar

variable {G : Grammar} {F : SetTable} {A : Automaton}

variable (G) in
/-- A nonterminal that can be reached from the goal symbol. -/
inductive Reachable : ℕ → Prop
  /-- The goal symbol is reached. -/
  | goal : Reachable G.goalSymbol
  /-- A nonterminal on the right-hand side of a reachable one. -/
  | rhs {p : Production} {x : ℕ} : Reachable p.lhs → p ∈ G.prods → x ∈ p.rhs → IsNonterm x →
    Reachable x

/-- A production in a closure is in a closure with the dot at each place. -/
lemma Built.exists_inClosure_dot (h : G.Built F A) {p : Production}
    (hp : ∃ n < A.nstates, G.InClosure (A.cores n) (p, 0)) {d : ℕ} (hd : d ≤ p.rhs.length) :
    ∃ n < A.nstates, G.InClosure (A.cores n) (p, d) := by
  induction d with
  | zero => exact hp
  | succ d ih =>
    obtain ⟨n, hn, hclos⟩ := ih (Nat.le_of_succ_le hd)
    have hdot : rightOfDot (p, d) = some p.rhs[d] := List.getElem?_eq_getElem hd
    obtain ⟨n', hn', -, -, hcores⟩ := h.lalr.transition n hn p.rhs[d] ⟨(p, d), hclos, hdot⟩
    exact ⟨n', hn', .kern ((hcores _).mpr ⟨(p, d), hclos, hdot, rfl⟩)⟩

/-- The productions of a reachable nonterminal are in closures. -/
lemma Built.exists_inClosure (h : G.Built F A) {x : ℕ} (hx : G.Reachable x) {p : Production}
    (hp : p ∈ G.productions x) : ∃ n < A.nstates, G.InClosure (A.cores n) (p, 0) := by
  induction hx generalizing p with
  | goal =>
    obtain ⟨q, hq, hcores⟩ := h.run.lrInv.start
    rw [hq, List.mem_singleton] at hp
    refine ⟨0, h.run.lrInv.pos, .kern ?_⟩
    rw [hcores, hp]
    exact List.mem_singleton_self _
  | @rhs q x _ hq hmem hnon ih =>
    obtain ⟨d, hd, hget⟩ := List.getElem_of_mem hmem
    obtain ⟨n, hn, hclos⟩ := h.exists_inClosure_dot (ih (mem_productions.mpr ⟨hq, rfl⟩)) hd.le
    have hdot : rightOfDot (q, d) = some x := hget ▸ List.getElem?_eq_getElem hd
    exact ⟨n, hn, .clos hclos hdot hnon hp⟩

/-- A completed item of a state is one of those that `add_reductions` visits. -/
lemma mem_completed_iff {n t : ℕ} {p : Production} : p ∈ A.completed n t ↔
    (n, p, t) ∈ A.stateReductions n := by
  rw [← prodsAt_stateReductions]
  unfold prodsAt
  constructor
  · intro hp
    obtain ⟨⟨m, q, u⟩, hr, rfl⟩ := List.mem_map.mp hp
    obtain ⟨hmem, hu⟩ := List.mem_filter.mp hr
    obtain rfl : u = t := of_decide_eq_true hu
    obtain rfl := fst_of_mem_stateReductions hmem
    exact hmem
  · intro hr
    exact List.mem_map.mpr ⟨_, List.mem_filter.mpr ⟨hr, decide_eq_true rfl⟩, rfl⟩

/-- The state behind `e op e` holds the completed production with `op` as a lookahead. -/
lemma Built.exists_completed (h : G.Built F A) {p : Production} (hp : p ∈ G.prods)
    (hreach : G.Reachable p.lhs) {op : ℕ} (hop : minTerm ≤ op ∧ op ≤ G.currterm)
    (hrhs : p.rhs = [p.lhs, op, p.lhs]) : ∃ n < A.nstates, p ∈ A.completed n op := by
  have hnon := G.isNonterm_lhs hp
  have hterm : IsTerm op := ⟨hop.1, hop.2.trans G.currterm_le⟩
  have hdot : ∀ d x, [p.lhs, op, p.lhs][d]? = some x → rightOfDot (p, d) = some x := by
    intro d x hx
    rw [← hrhs] at hx
    exact hx
  obtain ⟨n, hn, hclos⟩ := h.exists_inClosure hreach (mem_productions.mpr ⟨hp, rfl⟩)
  have ho : G.Occurs (A.cores n) (.clos p) :=
    mem_closureProds.mpr ⟨(p, 0), p.lhs, hclos, hdot 0 _ rfl, hnon, mem_productions.mpr ⟨hp, rfl⟩⟩
  -- the operator stands behind the first operand
  have hafter : op ∈ G.firstAfter F (p, 0) := by
    have hrest : afterDot (p, 0) = [op, p.lhs] := by
      unfold afterDot
      rw [hrhs]
      rfl
    unfold firstAfter
    rw [hrest, if_neg (List.cons_ne_nil _ _), Finset.mem_erase]
    refine ⟨ne_epsilon_of_le hop.2, ?_⟩
    unfold firstRhs
    rw [if_neg (by simp)]
    refine mem_firstScan.mpr
      (.inr ⟨op, ⟨hterm.not_isAct, [], [p.lhs], rfl, fun x hx => by cases hx⟩, ?_⟩)
    unfold FirstOf
    rw [if_pos hterm]
  have hlook : G.Look F A n (.clos p) op :=
    .first hn (ho.mem_occs (hdot 0 _ rfl)) (hdot 0 _ rfl) hnon (mem_productions.mpr ⟨hp, rfl⟩)
      hafter
  -- it is passed on behind `e`, behind `op` and behind the second `e`
  obtain ⟨n₁, k₁, htarget₁, ho₁, hlook₁⟩ := h.next hn ho (hdot 0 _ rfl)
  have hn₁ := (h.next_ne_zero hn (by rw [htarget₁]; exact List.mem_singleton_self _)).2.1
  obtain ⟨n₂, k₂, htarget₂, ho₂, hlook₂⟩ := h.next hn₁ ho₁ (hdot 1 _ rfl)
  have hn₂ := (h.next_ne_zero hn₁ (by rw [htarget₂]; exact List.mem_singleton_self _)).2.1
  obtain ⟨n₃, k₃, htarget₃, ho₃, hlook₃⟩ := h.next hn₂ ho₂ (hdot 2 _ rfl)
  have hn₃ := (h.next_ne_zero hn₂ (by rw [htarget₃]; exact List.mem_singleton_self _)).2.1
  have hend : rightOfDot (p, 3) = none := by
    unfold rightOfDot
    rw [hrhs]
    rfl
  refine ⟨n₃, hn₃, mem_completed_iff.mpr ?_⟩
  exact h.mem_stateReductions_of_look hn₃ ho₃ hend (hlook₃ op (hlook₂ op (hlook₁ op hlook)))

/-- An operator is an error behind a production of its own precedence. -/
def NonassocErrors (A : Automaton) (T : YyTables) (precedence : ℕ → PrecTab) (op : ℕ) : Prop :=
  ∀ n < A.nstates, ∀ p ∈ A.completed n op, p.prec = (precedence op).level →
    chainNext T.action n op = yyF

/-- An entry of the automaton, or one for a reduction, does not become an error. -/
lemma Built.chainNext_ne_yyF_of_entry (h : G.Built F A) {precedence : ℕ → PrecTab} {verbose : ℕ}
    {order : List ℕ} {n t : ℕ} (hn : n < A.nstates)
    (hentry : (∃ d, (⟨A.actions, 0, 0⟩ : Reduced).entry n t = some d) ∨
      ∃ p, (n, p, t) ∈ order.flatMap A.stateReductions) :
    chainNext (A.reductions precedence verbose order).actions n t ≠ yyF := by
  obtain ⟨d, hd⟩ := exists_entry_foldl precedence verbose ⟨A.actions, 0, 0⟩ hentry
  rw [← reductions_eq] at hd
  have hnext : chainNext (A.reductions precedence verbose order).actions n t = d := by
    unfold chainNext
    unfold Reduced.entry at hd
    rw [hd, Option.getD_some]
  rw [hnext]
  rw [reductions_eq] at hd
  rcases entry_foldl hd with hold | ⟨q, -, rfl⟩
  · obtain ⟨a, ha, rfl⟩ := Option.map_eq_some_iff.mp hold
    obtain ⟨n', -, htarget, hdo⟩ := h.shift_entry hn ha
    rw [hdo]
    exact h.ne_yyF (h.next_ne_zero hn htarget).2.1
  · unfold yyF
    omega

/-- Behind a completed production the entry for a lookahead is not an error. -/
lemma Built.chainNext_ne_yyF (h : G.Built F A) {precedence : ℕ → PrecTab} {verbose : ℕ}
    {order : List ℕ} (horder : order.Perm (List.range A.nstates)) {n op : ℕ} (hn : n < A.nstates)
    {p : Production} (hp : p ∈ A.completed n op) :
    chainNext (A.reductions precedence verbose order).actions n op ≠ yyF := by
  have hmem : (n, p, op) ∈ order.flatMap A.stateReductions :=
    List.mem_flatMap.mpr ⟨n, horder.mem_iff.mpr (List.mem_range.mpr hn), mem_completed_iff.mp hp⟩
  exact h.chainNext_ne_yyF_of_entry hn (.inr ⟨p, hmem⟩)

/-- A state that shifts a terminal has an entry for it that is not an error. -/
lemma Built.chainNext_ne_yyF_of_target (h : G.Built F A) {precedence : ℕ → PrecTab} {verbose : ℕ}
    {order : List ℕ} {n n' t : ℕ} (hn : n < A.nstates) (hterm : IsTerm t)
    (htarget : (n' : ℤ) ∈ A.targets n t) :
    chainNext (A.reductions precedence verbose order).actions n t ≠ yyF := by
  obtain ⟨-, -, hone, -⟩ := h.next_ne_zero hn htarget
  obtain ⟨a, ha, -⟩ := pAction_actions hterm hone
  exact h.chainNext_ne_yyF_of_entry hn (.inl ⟨a.doThis, Option.map_eq_some_iff.mpr ⟨a, ha, rfl⟩⟩)

/-- An operator that is declared with `%nonassoc` is an error behind a production of its own
precedence only when no state holds such a production with the operator as a lookahead.  So it never
is when `e : e op e` can be reached. -/
theorem nonassocErrors_iff (G : Grammar) (F : SetTable) {fuel verbose : ℕ} {A : Automaton}
    (ds : List LevelDirective) {order : List ℕ} (hlr : G.lr F fuel = some A)
    (horder : order.Perm (List.range A.nstates)) (op : ℕ) (hop : minTerm ≤ op ∧ op ≤ G.currterm) :
    (NonassocErrors A (G.yyTables A (A.reductions (precedenceOf ds) verbose order))
    (precedenceOf ds) op ↔
      ∀ n < A.nstates, ∀ p ∈ A.completed n op, p.prec ≠ (precedenceOf ds op).level) ∧
    ((∃ p ∈ G.prods, G.Reachable p.lhs ∧ p.rhs = [p.lhs, op, p.lhs] ∧
    p.prec = (precedenceOf ds op).level) →
      ¬ NonassocErrors A (G.yyTables A (A.reductions (precedenceOf ds) verbose order))
      (precedenceOf ds) op) := by
  have hbuilt := built_of_lr hlr
  have hiff :
      NonassocErrors A (G.yyTables A (A.reductions (precedenceOf ds) verbose order))
      (precedenceOf ds) op ↔
      ∀ n < A.nstates, ∀ p ∈ A.completed n op, p.prec ≠ (precedenceOf ds op).level := by
    constructor
    · intro herr n hn p hp hprec
      exact hbuilt.chainNext_ne_yyF horder hn hp (herr n hn p hp hprec)
    · intro hnone n hn p hp hprec
      exact absurd hprec (hnone n hn p hp)
  refine ⟨hiff, ?_⟩
  rintro ⟨p, hp, hreach, hrhs, hprec⟩ herr
  obtain ⟨n, hn, hcompleted⟩ := hbuilt.exists_completed hp hreach hop hrhs
  exact hiff.mp herr n hn p hcompleted hprec

/-- `s : e ; e : e OP e | NUM ;` with `OP = 1`, `NUM = 2`, `s = 256`, `e = 257`, behind
`%nonassoc OP`. -/
def chainGrammar : Grammar := SymbolTable.grammar
  { prods := [⟨0, 256, [257], 0⟩, ⟨1, 257, [257, 1, 257], 1⟩, ⟨2, 257, [2], 0⟩]
    currterm := 2
    currnonterm := 257
    curract := 511
    goalSymbol := 256 } (by decide)

/-- The symbol table of `chainGrammar`, walked by value. -/
def chainWalk : chainGrammar.Walk := chainGrammar.valueWalk

/-- The precedence levels of `chainGrammar`, whose operator does not associate. -/
def chainLevels : List LevelDirective := [.nonassoc [1]]

/-- The automaton that `lr` builds for `chainGrammar`. -/
def chainAutomaton : Automaton := (chainGrammar.lr (firstSets chainWalk) 10).getD .empty

/-- The tables that occs prints for `chainGrammar` with these precedence levels. -/
def chainTables : YyTables := chainGrammar.yyTables chainAutomaton
  (chainAutomaton.reductions (precedenceOf chainLevels) 0 (List.range chainAutomaton.nstates))

/-- `lr` builds the automaton of `chainGrammar` within ten visits of a state. -/
lemma lr_chainGrammar : chainGrammar.lr (firstSets chainWalk) 10 = some chainAutomaton := by
  have hsome : (chainGrammar.lr (firstSets chainWalk) 10).isSome := by decide +kernel
  obtain ⟨A, hA⟩ := Option.isSome_iff_exists.mp hsome
  rw [chainAutomaton, hA, Option.getD_some]

/-- For `chainGrammar` the entry for `OP` behind `e OP e` is not an error. -/
theorem nonassocErrors_chainGrammar :
    (NonassocErrors chainAutomaton chainTables (precedenceOf chainLevels) 1 ↔
      ∀ n < chainAutomaton.nstates, ∀ p ∈ chainAutomaton.completed n 1, p.prec ≠ 1) ∧
    ¬ NonassocErrors chainAutomaton chainTables (precedenceOf chainLevels) 1 := by
  obtain ⟨hiff, hnever⟩ :=
    nonassocErrors_iff chainGrammar (firstSets chainWalk) chainLevels lr_chainGrammar
    (List.Perm.refl _) 1 (by decide)
  exact ⟨hiff, hnever ⟨⟨1, 257, [257, 1, 257], 1⟩, by decide,
    .rhs (p := ⟨0, 256, [257], 0⟩) .goal (by decide) (by decide) (by decide), rfl, by decide⟩⟩

/-- The driver accepts `NUM OP NUM OP NUM` for `chainGrammar`, without an error: the entry behind
`e OP e` is a reduction. -/
theorem not_nonassocErrors_chainGrammar :
    precedenceOf chainLevels 1 = ⟨1, 'n'⟩ ∧
    ¬ NonassocErrors chainAutomaton chainTables (precedenceOf chainLevels) 1 ∧
    ∃ n s, lrParse chainTables occsEnv [2, 1, 2, 1, 2] n = some (.accept s) ∧
      .recover ∉ s.trace := by
  have hcompleted :
    (⟨1, 257, [257, 1, 257], 1⟩ : Production) ∈ chainAutomaton.completed 4 1 := by decide +kernel
  have hentry : chainNext chainTables.action 4 (1 : ℕ) = -1 := by decide +kernel
  refine ⟨by decide, ?_, ?_⟩
  · intro h
    have herr := h 4 (by decide +kernel) _ hcompleted (by decide)
    rw [hentry] at herr
    exact absurd herr (by decide)
  · have hrun : lrParse chainTables occsEnv [2, 1, 2, 1, 2] 20 = some (.accept ⟨[2, 0], 0, [], 0, 0,
        [.shift 2, .reduce 2, .shift 1, .shift 2, .reduce 2, .reduce 1, .shift 1, .shift 2,
        .reduce 2, .reduce 1]⟩) := by
      decide +kernel
    exact ⟨20, _, hrun, by decide⟩

end Grammar

end Parser
