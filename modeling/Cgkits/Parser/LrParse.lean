import Cgkits.Parser.LrTables
import Cgkits.Parser.PatchedFirst
import Mathlib.Order.Bounds.Basic

/-!
# The LALR(1) driver on the tables of `make_parse_tables`

A stack of states is a path of the automaton, and `Spells` says which symbols it stands for.  The
driver keeps the invariant that these symbols yield the tokens that have been shifted (`LrShifted`).
For the other direction a derivation is followed by the driver (`AtItem.follow`): the lookaheads of
the closures contain the token behind every phrase, so the table has the reduction that the
derivation needs, and without conflicts it has no other action.

The reduction by production 0 is the accept action wherever it stands in the table.  So the driver
may accept before the end of the input, when a derivation puts the goal symbol in front of something
that is read.  It accepts exactly the sentences when the goal symbol stands last in every sentential
form (`lrCorrect_yyTables_iff`), and for a left-recursive goal symbol it accepts a part of the input
(`not_lrCorrect_prefixGrammar`).
-/

namespace Parser

open ContextFree Machine

namespace Grammar

variable {G : Grammar} {F : SetTable} {A : Automaton} {T : YyTables}

/-! ## Stacks and symbols -/

/-- The symbols that a stack of states stands for, the top first. -/
inductive Spells (A : Automaton) : List ℕ → List ℕ → Prop
  /-- The first state stands alone and spells nothing. -/
  | start : Spells A [0] []
  /-- A transition pushes a state and spells its symbol. -/
  | push {n n' x : ℕ} {stack γ : List ℕ} : Spells A (n :: stack) γ → (n' : ℤ) ∈ A.targets n x →
      Spells A (n' :: n :: stack) (x :: γ)

section Spells

variable {n : ℕ} {stack γ : List ℕ}

/-- A stack that spells symbols is not empty, since state 0 is at its bottom. -/
lemma Spells.ne_nil {stack : List ℕ} (h : Spells A stack γ) : stack ≠ [] := by
  cases h <;> exact List.cons_ne_nil _ _

/-- The top of a stack that spells symbols is a state of the automaton. -/
lemma Spells.lt (hT : G.Built F A) (h : Spells A (n :: stack) γ) : n < A.nstates := by
  generalize hst : n :: stack = st at h
  induction h generalizing n stack with
  | start =>
    cases hst
    exact hT.run.lrInv.pos
  | push hs htarget ih =>
    cases hst
    exact (hT.next_ne_zero (ih rfl) htarget).2.1

/-- What stands left of a dot in the closure of the top is on the stack, and below it is a state
with the production in its closure. -/
lemma Spells.item (hT : G.Built F A) (h : Spells A (n :: stack) γ) {c : Core}
    (hc : G.InClosure (A.cores n) c) :
    c.2 ≤ c.1.rhs.length ∧ ∃ m stack' γ', (n :: stack).drop c.2 = m :: stack' ∧
    Spells A (m :: stack') γ' ∧
      G.InClosure (A.cores m) (c.1, 0) ∧ γ = (c.1.rhs.take c.2).reverse ++ γ' := by
  generalize hst : n :: stack = st at h
  induction h generalizing n stack c with
  | start =>
    cases hst
    have hdot : c.2 = 0 := by
      obtain ⟨p, -, hcores⟩ := hT.run.lrInv.start
      cases hc with
      | kern hc =>
        rw [hcores, List.mem_singleton] at hc
        rw [hc]
      | clos => rfl
    rw [hdot]
    obtain ⟨p, d⟩ := c
    obtain rfl : d = 0 := hdot
    exact ⟨Nat.zero_le _, 0, [], [], rfl, .start, hc, rfl⟩
  | @push m n' x stack' γ hs htarget ih =>
    cases hst
    obtain ⟨p, d⟩ := c
    cases d with
    | zero => exact ⟨Nat.zero_le _, n', m :: stack', x :: γ, rfl, .push hs htarget, hc, rfl⟩
    | succ d =>
      have hm := hs.lt hT
      have hkern : (p, d + 1) ∈ A.cores n' := by
        cases hc with
        | kern hc => exact hc
      obtain ⟨c', hc', hdot, hadv⟩ := (hT.mem_cores hm htarget (p, d + 1)).mp hkern
      obtain rfl : c' = (p, d) := by
        unfold advance at hadv
        rw [Prod.mk.injEq, Nat.add_right_cancel_iff] at hadv
        exact Prod.ext hadv.1 hadv.2
      obtain ⟨hle, m', st', γ', hdrop, hspells, hclos, hγ⟩ := ih hc' rfl
      obtain ⟨hlt, hget⟩ := List.getElem?_eq_some_iff.mp hdot
      refine ⟨hlt, m', st', γ', hdrop, hspells, hclos, ?_⟩
      dsimp only at hγ hget ⊢
      rw [hγ, List.take_succ_eq_append_getElem hlt, hget, List.reverse_append,
        List.reverse_singleton, List.cons_append, List.nil_append, List.cons_append]

/-- The symbol in front of a state is known from its kernel. -/
lemma Spells.symbol_eq (hT : G.Built F A) {m m' x y : ℕ} (hm : m < A.nstates) (hm' : m' < A.nstates)
    (hx : (n : ℤ) ∈ A.targets m x) (hy : (n : ℤ) ∈ A.targets m' y) : x = y := by
  have hleft : ∀ {m x : ℕ}, m < A.nstates → (n : ℤ) ∈ A.targets m x → ∃ c, advance c ∈ A.cores n ∧
      ∀ d ∈ A.cores n, d.1.rhs[d.2 - 1]? = some x := by
    intro m x hm hx
    obtain ⟨-, -, -, c, hc, hdot⟩ := hT.next_ne_zero hm hx
    refine ⟨c, (hT.mem_cores hm hx _).mpr ⟨c, hc, hdot, rfl⟩, ?_⟩
    intro d hd
    obtain ⟨c', -, hdot', rfl⟩ := (hT.mem_cores hm hx d).mp hd
    exact hdot'
  obtain ⟨c, hc, hall⟩ := hleft hm hx
  obtain ⟨-, -, hall'⟩ := hleft hm' hy
  exact Option.some.inj ((hall _ hc).symm.trans (hall' _ hc))

/-- A stack stands for one sequence of symbols. -/
lemma Spells.unique (hT : G.Built F A) {stack : List ℕ} {γ' : List ℕ} (h : Spells A stack γ)
    (h' : Spells A stack γ') : γ = γ' := by
  induction h generalizing γ' with
  | start =>
    cases h'
    rfl
  | push hs hx ih =>
    cases h' with
    | push hs' hy => rw [ih hs', Spells.symbol_eq hT (hs.lt hT) (hs'.lt hT) hx hy]

/-- Only the first state has a dot at the start of a production in its kernel. -/
lemma Spells.start_of_mem_cores (hT : G.Built F A) (h : Spells A (n :: stack) γ) {p : Production}
    (hp : (p, 0) ∈ A.cores n) : p ∈ G.productions G.goalSymbol := by
  generalize hst : n :: stack = st at h
  cases h with
  | start =>
    cases hst
    obtain ⟨q, hq, hcores⟩ := hT.run.lrInv.start
    rw [hcores, List.mem_singleton, Prod.mk.injEq] at hp
    rw [hq, hp.1]
    exact List.mem_singleton_self q
  | push hs htarget =>
    cases hst
    obtain ⟨c, -, -, hadv⟩ := (hT.mem_cores (hs.lt hT) htarget _).mp hp
    exact absurd (congrArg Prod.snd hadv) (Nat.succ_ne_zero _)

end Spells

/-! ## Sentential forms of a stack -/

section Viable

variable {n : ℕ} {stack γ : List ℕ}

/-- What stands behind a dot, the first symbol in front. -/
lemma drop_of_rightOfDot {c : Core} {x : ℕ} (hx : rightOfDot c = some x) :
    c.1.rhs.drop c.2 = x :: afterDot c := by
  obtain ⟨hlt, hget⟩ := List.getElem?_eq_some_iff.mp hx
  rw [List.drop_eq_getElem_cons hlt, hget]
  rfl

/-- Where the left-hand side of an item stands, a nonterminal right of its dot can stand. -/
lemma derives_of_rightOfDot {c : Core} (hprod : c.1 ∈ G.prods) {x : ℕ} (hx : rightOfDot c = some x)
    (hnon : IsNonterm x) {α β : List (Symbol ℕ ℕ)}
    (hder : G.cfg.Derives [.nonterminal G.goalSymbol] (α ++ .nonterminal c.1.lhs :: β)) :
    G.cfg.Derives [.nonterminal G.goalSymbol]
      (α ++ form (c.1.rhs.take c.2) ++ .nonterminal x :: (form (afterDot c) ++ β)) := by
  have hrhs : form c.1.rhs = form (c.1.rhs.take c.2) ++ .nonterminal x :: form (afterDot c) := by
    rw [← form_cons_nonterm hnon, ← drop_of_rightOfDot hx, ← form_append, List.take_append_drop]
  have hder' := hder.trans (produces_append (g := G.cfg) (rule_mem hprod) α β).single
  rw [show c.1.rule.output = form c.1.rhs from rfl, hrhs] at hder'
  simpa [List.append_assoc] using hder'

variable (G) in
/-- The symbols `γ`, the top first, end with those left of the dot of an item, and what is below
them begins a sentential form in which the left-hand side of the item comes next. -/
def Viable (γ : List ℕ) (c : Core) : Prop :=
  ∃ γ' β, γ = (c.1.rhs.take c.2).reverse ++ γ' ∧
    G.cfg.Derives [.nonterminal G.goalSymbol] (form γ'.reverse ++ .nonterminal c.1.lhs :: β)

/-- A closure adds productions of symbols that come next. -/
lemma Viable.inClosure {K : List Core} (hK : ∀ c ∈ K, c.1 ∈ G.prods ∧ G.Viable γ c) {c : Core}
    (hc : G.InClosure K c) : c.1 ∈ G.prods ∧ G.Viable γ c := by
  induction hc with
  | kern hc => exact hK _ hc
  | @clos c x p _ hx hnon hp ih =>
    obtain ⟨hmem, rfl⟩ := mem_productions.mp hp
    obtain ⟨hprod, γ', β, rfl, hder⟩ := ih
    have hnext := derives_of_rightOfDot hprod hx hnon hder
    refine ⟨hmem, (c.1.rhs.take c.2).reverse ++ γ', form (afterDot c) ++ β, rfl, ?_⟩
    rw [List.reverse_append, List.reverse_reverse, form_append]
    exact hnext

/-- The items of the top are viable with the symbols of the stack. -/
lemma Spells.viable (hT : G.Built F A) (h : Spells A (n :: stack) γ) {c : Core}
    (hc : G.InClosure (A.cores n) c) : G.Viable γ c := by
  generalize hst : n :: stack = st at h
  induction h generalizing n stack c with
  | start =>
    cases hst
    refine (Viable.inClosure (fun c hc => ⟨hT.run.lrInv.prods 0 c hc, ?_⟩) hc).2
    obtain ⟨p, hp, hcores⟩ := hT.run.lrInv.start
    rw [hcores, List.mem_singleton] at hc
    subst hc
    have hlhs : p.lhs = G.goalSymbol := (mem_productions.mp (hp ▸ List.mem_singleton_self p)).2
    exact ⟨[], [], rfl, hlhs ▸ .refl _⟩
  | @push m n' x stack' γ hs htarget ih =>
    cases hst
    refine (Viable.inClosure (fun c hc => ⟨hT.run.lrInv.prods n' c hc, ?_⟩) hc).2
    obtain ⟨d, hd, hx, rfl⟩ := (hT.mem_cores (hs.lt hT) htarget c).mp hc
    obtain ⟨γ', β, rfl, hder⟩ := ih hd rfl
    obtain ⟨hlt, hget⟩ := List.getElem?_eq_some_iff.mp hx
    refine ⟨γ', β, ?_, hder⟩
    change _ = (d.1.rhs.take (d.2 + 1)).reverse ++ γ'
    rw [List.take_succ_eq_append_getElem hlt, hget, List.reverse_append, List.reverse_singleton,
      List.cons_append, List.nil_append, List.cons_append]

/-- For every state there is a stack that has it on top and spells some symbols. -/
lemma Built.exists_spells (hT : G.Built F A) (hn : n < A.nstates) :
    ∃ stack γ, Spells A (n :: stack) γ := by
  induction n using Nat.strong_induction_on with
  | _ n ih =>
    by_cases hzero : n = 0
    · exact ⟨[], [], hzero ▸ .start⟩
    · obtain ⟨m, hm, x, hx⟩ := hT.run.lrInv.appended n hn hzero
      obtain ⟨stack, γ, hs⟩ := ih m hm (hm.trans hn)
      exact ⟨m :: stack, x :: γ, .push hs hx⟩

/-- The left-hand side of every item of a state stands in some sentential form. -/
lemma Built.exists_derives (hT : G.Built F A) (hn : n < A.nstates) {c : Core}
    (hc : G.InClosure (A.cores n) c) : ∃ α β, G.cfg.Derives [.nonterminal G.goalSymbol]
    (α ++ .nonterminal c.1.lhs :: β) := by
  obtain ⟨stack, γ, hs⟩ := hT.exists_spells hn
  obtain ⟨γ', β, -, hder⟩ := hs.viable hT hc
  exact ⟨_, β, hder⟩

/-- An occurrence with a lookahead has a production of the grammar. -/
lemma Look.mem_prods {n t : ℕ} {o : Occ} (h : G.Look F A n o t) : o.core.1 ∈ G.prods := by
  induction h with
  | start hp => exact (mem_productions.mp hp).1
  | first _ _ _ _ hq _ => exact (mem_productions.mp hq).1
  | inherit _ _ _ _ hq _ _ => exact (mem_productions.mp hq).1
  | shift _ _ _ _ ih => exact ih

end Viable

/-! ## What a round does -/

section Rounds

variable {env : LrEnv} {s : YyState} {n : ℕ} {stack γ : List ℕ}

/-- The entry that a round looks at is that for the top of the stack and the lookahead. -/
lemma actNum_eq (hstack : s.stack = n :: stack) :
    s.actNum T = chainNext T.action n s.lookahead := by
  rw [YyState.actNum, hstack]
  rfl

/-- A round that shifts pushes the target of the transition on the lookahead. -/
lemma lrStep_shift (hT : G.Tabled F A T) (hstack : s.stack = n :: stack)
    (hs : Spells A (n :: stack) γ) (hdepth : s.stack.length < env.yymaxdepth) {n' : ℕ}
    (htarget : (n' : ℤ) ∈ A.targets n s.lookahead) (hnext : chainNext T.action n s.lookahead = n') :
    lrStep T env s = .inl { s with
      stack := n' :: s.stack, lookahead := (yyNextToken s.rest).1, rest := (yyNextToken s.rest).2
      suppressErr := s.suppressErr - 1, trace := s.trace ++ [.shift s.lookahead] } := by
  obtain ⟨hne, hlt, -⟩ := hT.built.next_ne_zero (hs.lt hT.built) htarget
  have hact : s.actNum T = n' := (actNum_eq hstack).trans hnext
  have hnil : s.stack ≠ [] := by
    rw [hstack]
    exact List.cons_ne_nil n stack
  unfold lrStep
  dsimp only
  rw [if_neg hnil, hact, if_neg (hT.built.ne_yyF hlt), if_pos (by omega), Int.toNat_natCast]
  unfold yyShift
  rw [if_neg (by simpa using hdepth)]

/-- A state with a production in its closure, other than production 0, has a goto for the left-hand
side. -/
lemma Spells.goto (hT : G.Tabled F A T) (hzero : ∀ p ∈ G.productions G.goalSymbol, p.num = 0)
    (h : Spells A (n :: stack) γ) {p : Production} (hp : G.InClosure (A.cores n) (p, 0))
    (hprod : p ∈ G.prods) (hnum : p.num ≠ 0) : ∃ n' : ℕ, (n' : ℤ) ∈ A.targets n p.lhs ∧
    chainNext T.goto n (T.lhs p.num) = n' := by
  -- the left-hand side stands right of a dot
  obtain ⟨d, hd, hright⟩ : ∃ d, G.InClosure (A.cores n) d ∧ rightOfDot d = some p.lhs := by
    generalize he : ((p, 0) : Core) = e at hp
    cases hp with
    | kern hmem =>
      subst he
      exact absurd (hzero p (h.start_of_mem_cores hT.built hmem)) hnum
    | clos hd hx _ hq =>
      rw [Prod.mk.injEq] at he
      obtain ⟨hp₁, -⟩ := he
      rw [hp₁, (mem_productions.mp hq).2]
      exact ⟨_, hd, hx⟩
  obtain ⟨n', -, hone, -⟩ := hT.built.lalr.transition n (h.lt hT.built) p.lhs ⟨d, hd, hright⟩
  refine ⟨n', by rw [hone]; exact List.mem_singleton_self _, ?_⟩
  rw [hT.goto, hT.lhs p hprod]
  exact chainNext_gotos (G.isNonterm_lhs hprod) hone

/-- The right-hand side of a completed item of the top is on the stack, and the state below it has
the production in its closure. -/
lemma Spells.completed (hT : G.Built F A) (hs : Spells A (n :: stack) γ) {c : Core}
    (hc : G.InClosure (A.cores n) c) (hdot : rightOfDot c = none) :
    ∃ m stack' γ', (n :: stack).drop c.1.rhs.length = m :: stack' ∧ Spells A (m :: stack') γ' ∧
      G.InClosure (A.cores m) (c.1, 0) ∧ γ = c.1.rhs.reverse ++ γ' := by
  obtain ⟨hle, m, stack', γ', hdrop, hspells, hclos, hγ⟩ := hs.item hT hc
  have hlen : c.2 = c.1.rhs.length := by
    have hge := List.getElem?_eq_none_iff.mp hdot
    omega
  rw [hlen] at hdrop hγ
  rw [List.take_length] at hγ
  exact ⟨m, stack', γ', hdrop, hspells, hclos, hγ⟩

/-- A round that reduces a production: the symbols of its right-hand side are on top of the stack.
Production 0 is accepted, and after another one the state below has a transition on the left-hand
side. -/
lemma lrStep_reduce (hT : G.Tabled F A T) (hzero : ∀ p ∈ G.productions G.goalSymbol, p.num = 0)
    (hact : ∀ tr k, env.yyAct tr k = 0) (hstack : s.stack = n :: stack)
    (hs : Spells A (n :: stack) γ) (hdepth : s.stack.length < env.yymaxdepth) {c : Core}
    (hc : G.InClosure (A.cores n) c) (hdot : rightOfDot c = none)
    (hnext : chainNext T.action n s.lookahead = -(c.1.num : ℤ)) :
    ∃ m stack' γ', s.stack.drop c.1.rhs.length = m :: stack' ∧ Spells A (m :: stack') γ' ∧
      γ = c.1.rhs.reverse ++ γ' ∧
      ((c.1.num = 0 ∧ lrStep T env s = .inr (.accept { s with suppressErr := s.suppressErr - 1 })) ∨
        (c.1.num ≠ 0 ∧ ∃ n' : ℕ, (n' : ℤ) ∈ A.targets m c.1.lhs ∧ lrStep T env s = .inl { s with
          stack := n' :: m :: stack', suppressErr := s.suppressErr - 1
          trace := s.trace ++ [.reduce c.1.num] })) := by
  obtain ⟨m, stack', γ', hdrop, hspells, hclos, hγ⟩ := hs.completed hT.built hc hdot
  have hprod := hT.built.mem_prods hc
  rw [← hstack] at hdrop
  refine ⟨m, stack', γ', hdrop, hspells, hγ, ?_⟩
  have hactNum : s.actNum T = -(c.1.num : ℤ) := (actNum_eq hstack).trans hnext
  have hnil : s.stack ≠ [] := by
    rw [hstack]
    exact List.cons_ne_nil n stack
  have hstep : lrStep T env s = if c.1.num = 0 then
    .inr (.accept { s with suppressErr := s.suppressErr - 1 })
      else yyReduce T env c.1.num c.1.rhs.length { s with suppressErr := s.suppressErr - 1 } := by
    unfold lrStep
    dsimp only
    rw [if_neg hnil, hactNum, if_neg (by unfold yyF; omega), if_neg (by omega), hact, neg_neg,
      Int.toNat_natCast, hT.reduce c.1 hprod]
    rfl
  rw [hstep]
  by_cases hnum : c.1.num = 0
  · exact .inl ⟨hnum, if_pos hnum⟩
  · obtain ⟨n', htarget, hgoto⟩ := hspells.goto hT hzero hclos hprod hnum
    right
    refine ⟨hnum, n', htarget, ?_⟩
    rw [if_neg hnum]
    have hlength := congrArg List.length hdrop
    rw [List.length_drop, List.length_cons] at hlength
    unfold yyReduce
    dsimp only
    rw [if_neg (by omega), hdrop]
    dsimp only
    rw [if_neg (by rw [List.length_cons]; omega), hgoto, Int.toNat_natCast]

/-- A round shifts, reduces or enters the error recovery. -/
lemma lrStep_cases (hT : G.Tabled F A T) (hstack : s.stack = n :: stack)
    (hs : Spells A (n :: stack) γ) :
    lrStep T env s = yyRecover T env { s with suppressErr := s.suppressErr - 1 } ∨
      (∃ n' : ℕ, IsTerm s.lookahead ∧ (n' : ℤ) ∈ A.targets n s.lookahead ∧
        chainNext T.action n s.lookahead = n') ∨
      ∃ c, G.InClosure (A.cores n) c ∧ rightOfDot c = none ∧
        chainNext T.action n s.lookahead = -(c.1.num : ℤ) := by
  rcases hT.entries n (hs.lt hT.built) s.lookahead with hnone | ⟨n', hterm, htarget, hnext⟩ |
    ⟨o, ho, hdot, -, hnext⟩
  · left
    have hnil : s.stack ≠ [] := by
      rw [hstack]
      exact List.cons_ne_nil n stack
    unfold lrStep
    dsimp only
    rw [if_neg hnil, actNum_eq hstack, hnone, if_pos rfl]
  · exact .inr (.inl ⟨n', hterm, htarget, hnext⟩)
  · exact .inr (.inr ⟨o.core, ho.inClosure, hdot, hnext⟩)

end Rounds

/-! ## A stack with room -/

section Room

variable {env : LrEnv} {s s' : YyState} {w : List ℕ}

/-- The limits of the driver, with room for one more state on the stack. -/
def roomy (env : LrEnv) (s : YyState) : LrEnv := { env with yymaxdepth := s.stack.length + 1 }

/-- A round of the driver on a stack with room for one more state. -/
def roomyStep (T : YyTables) (env : LrEnv) (s : YyState) : YyState ⊕ LrResult :=
  lrStep T (roomy env s) s

/-- The limit of the stack does not matter when there is room. -/
lemma lrStep_eq_roomyStep (h : s.stack.length < env.yymaxdepth) :
    lrStep T env s = roomyStep T env s := by
  have hshift : ∀ n s₁, s₁.stack = s.stack → yyShift env n s₁ = yyShift (roomy env s) n s₁ := by
    intro n s₁ hstack
    unfold yyShift roomy
    rw [hstack, if_neg (by omega), if_neg (by simp)]
  have hreduce : ∀ n k s₁, s₁.stack = s.stack →
      yyReduce T env n k s₁ = yyReduce T (roomy env s) n k s₁ := by
    intro n k s₁ hstack
    unfold yyReduce roomy
    rw [hstack]
    split
    · rfl
    · split
      · rfl
      · rename_i tos stack hdrop
        have hlen := congrArg List.length hdrop
        rw [List.length_drop] at hlen
        rw [if_neg (by omega), if_neg (by dsimp only; omega)]
  unfold roomyStep lrStep
  dsimp only
  rw [hshift _ { s with suppressErr := s.suppressErr - 1 } rfl, hreduce _ _ { s with
    suppressErr := s.suppressErr - 1 } rfl]
  rfl

/-- When a run with room comes to an end, its stack stays below some limit. -/
lemma exists_depth {n : ℕ} {r : LrResult} (h : run (roomyStep T env) n (lrInit w) = some r) :
    ∃ depth, ∀ s, Reaches (lrStep T { env with yymaxdepth := depth }) (lrInit w) s →
      s.stack.length < depth := by
  obtain ⟨depth, hdepth⟩ : ∃ depth, ∀ s ∈ states (roomyStep T env) n (lrInit w), s.stack.length <
      depth := by
    induction states (roomyStep T env) n (lrInit w) with
    | nil => exact ⟨0, fun s hs => absurd hs List.not_mem_nil⟩
    | cons s l ih =>
      obtain ⟨depth, hdepth⟩ := ih
      refine ⟨max (s.stack.length + 1) depth, List.forall_mem_cons.mpr ⟨by omega, fun s' hs' => ?_⟩⟩
      exact (hdepth s' hs').trans_le (le_max_right _ _)
  refine ⟨depth, fun s hs => hdepth s (Reaches.mem_states ?_ h)⟩
  induction hs with
  | refl => exact .refl _
  | @tail s₁ s₂ _ hstep ih =>
    have hroom : lrStep T { env with yymaxdepth := depth } s₁ =
        roomyStep T { env with yymaxdepth := depth } s₁ :=
      lrStep_eq_roomyStep (hdepth s₁ (ih.mem_states h))
    exact ih.tail (hroom.symm.trans hstep)

end Room

/-! ## What has been shifted -/

variable (G F A T) in
/-- What a run on the input `w` rests on: tables without conflicts, FIRST sets that have everything
in them, productions without actions, the number 0 for the production of the goal symbol, actions
that return 0, and an input of terminals. -/
structure Ready (env : LrEnv) (w : List ℕ) : Prop where
  /-- The tables have been made without conflicts. -/
  tables : G.NoConflict F A T
  /-- The FIRST sets hold whatever a symbol can begin with. -/
  first : G.FirstCovers F
  /-- The productions hold no actions. -/
  noActs : ∀ p ∈ G.prods, ∀ x ∈ p.rhs, ¬ IsAct x
  /-- The production of the goal symbol. -/
  zero : ∀ p ∈ G.productions G.goalSymbol, p.num = 0
  /-- The actions of the user return 0. -/
  yyAct : ∀ tr k, env.yyAct tr k = 0
  /-- The tokens of the input are terminals. -/
  tokens : ∀ t ∈ w, minTerm ≤ t ∧ t ≤ G.currterm

variable (G A) in
/-- The symbols on the stack yield the tokens that have been shifted. -/
structure LrShifted (w : List ℕ) (s : YyState) : Prop where
  /-- The stack is a path of the automaton. -/
  yields : ∃ γ u, Spells A s.stack γ ∧ Yields G.cfg (form γ.reverse) u ∧ w = u ++ s.unread
  /-- The end of the input does not stand within it. -/
  rest : 0 ∉ s.rest

section Shifted

variable {env : LrEnv} {w : List ℕ} {s s' : YyState}

/-- When the next token is read, the tokens that have not been shifted stay the same. -/
lemma unread_yyNextToken {rest : List ℕ} (h : 0 ∉ rest) (stack : List ℕ) (suppressErr yynerrs : ℕ)
    (trace : List LrEvent) :
    YyState.unread ⟨stack, (yyNextToken rest).1, (yyNextToken rest).2, suppressErr, yynerrs,
    trace⟩ = rest ∧
      0 ∉ (yyNextToken rest).2 := by
  cases rest with
  | nil => exact ⟨rfl, h⟩
  | cons t rest =>
    have hne : t ≠ eoi := by
      rintro rfl
      exact h List.mem_cons_self
    refine ⟨?_, fun hmem => h (List.mem_cons_of_mem t hmem)⟩
    unfold YyState.unread
    exact if_neg hne

/-- The tokens that have not been shifted start with the lookahead. -/
lemma unread_eq_cons (h : s.lookahead ≠ eoi) : s.unread = s.lookahead :: s.rest := if_neg h

/-- At the start nothing has been shifted and the whole input is unread. -/
lemma lrShifted_lrInit (hw : 0 ∉ w) : G.LrShifted A w (lrInit w) := by
  obtain ⟨hunread, hrest⟩ := unread_yyNextToken hw [0] 0 0 []
  exact ⟨⟨[], [], .start, .nil, hunread.symm⟩, hrest⟩

/-- A round without the error recovery keeps what has been shifted a part of the input. -/
lemma LrShifted.step (h : G.LrShifted A w s) (hT : G.Tabled F A T)
    (hzero : ∀ p ∈ G.productions G.goalSymbol, p.num = 0) (hact : ∀ tr k, env.yyAct tr k = 0)
    (hdepth : s.stack.length < env.yymaxdepth) (hstep : lrStep T env s = .inl s')
    (hrec : .recover ∉ s'.trace) : G.LrShifted A w s' := by
  obtain ⟨⟨γ, u, hs, hu, hw⟩, hrest⟩ := h
  obtain ⟨n, stack, hstack⟩ := List.exists_cons_of_ne_nil hs.ne_nil
  rw [hstack] at hs
  rcases lrStep_cases hT hstack hs with herr | ⟨n', hterm, htarget, hshift⟩ | ⟨c, hc, hdot, hnext⟩
  · rw [hstep] at herr
    obtain ⟨_, _, _, _, -, -, rfl⟩ := yyRecover_inl herr.symm
    exact absurd (List.mem_append_right _ (List.mem_singleton_self _)) hrec
  · rw [lrStep_shift hT hstack hs hdepth htarget hshift] at hstep
    cases hstep
    have hne : s.lookahead ≠ eoi := by
      have hpos := hterm.1
      have heoi : eoi = 0 := rfl
      have hmin : minTerm = 1 := rfl
      omega
    obtain ⟨hunread, hrest'⟩ :=
      unread_yyNextToken hrest (n' :: s.stack) (s.suppressErr - 1) s.yynerrs
      (s.trace ++ [.shift s.lookahead])
    refine ⟨⟨s.lookahead :: γ, u ++ [s.lookahead], ?_, ?_, ?_⟩, hrest'⟩
    · dsimp only
      rw [hstack]
      exact .push hs htarget
    · rw [List.reverse_cons, form_append]
      apply hu.append
      rw [form_cons_term hterm]
      exact .terminal .nil
    · rw [hunread, hw, unread_eq_cons hne, List.append_assoc]
      rfl
  · obtain ⟨m, stack', γ', -, hspells, rfl, hround⟩ :=
      lrStep_reduce hT hzero hact hstack hs hdepth hc hdot hnext
    rcases hround with ⟨-, hround⟩ | ⟨-, n', htarget, hround⟩
    · rw [hstep] at hround
      cases hround
    · rw [hstep] at hround
      cases hround
      have hprod := hT.built.mem_prods hc
      rw [List.reverse_append, List.reverse_reverse, form_append] at hu
      obtain ⟨u₁, u₂, rfl, hu₁, hu₂⟩ := hu.of_append
      refine ⟨⟨c.1.lhs :: γ', u₁ ++ u₂, .push hspells htarget, ?_, hw⟩, hrest⟩
      rw [List.reverse_cons, form_append]
      apply hu₁.append
      rw [form_cons_nonterm (G.isNonterm_lhs hprod), form_nil]
      have hrule := Yields.rule (rule_mem hprod) hu₂ .nil
      rw [List.append_nil] at hrule
      exact hrule

/-- A run without the error recovery keeps what has been shifted a part of the input. -/
lemma LrShifted.reaches (hR : G.Ready F A T env w) (h : Reaches (roomyStep T env) (lrInit w) s)
    (hrec : .recover ∉ s.trace) : G.LrShifted A w s := by
  induction h with
  | refl =>
    apply lrShifted_lrInit
    intro hmem
    exact absurd (hR.tokens 0 hmem).1 (by decide)
  | @tail s s' hreach hstep ih =>
    have hrec' : .recover ∉ s.trace := fun hmem => hrec ((trace_prefix_of_lrStep hstep).subset hmem)
    have hact : ∀ tr k, (roomy env s).yyAct tr k = 0 := hR.yyAct
    exact (ih hrec').step hR.tables.tabled hR.zero hact (Nat.lt_succ_self _) hstep hrec

/-- The tokens that have not been shifted are tokens of the input. -/
lemma le_currterm_of_unread (hR : G.Ready F A T env w) (h : Reaches (roomyStep T env) (lrInit w) s)
    (hrec : .recover ∉ s.trace) {t : ℕ} (ht : t ∈ s.unread) : t ≤ G.currterm := by
  obtain ⟨⟨γ, u, -, -, hw⟩, -⟩ := LrShifted.reaches hR h hrec
  exact (hR.tokens t (hw ▸ List.mem_append_right u ht)).2

/-- The lookahead is the first token that has not been shifted, or the end of the input. -/
lemma headD_unread (s : YyState) : s.unread.headD eoi = s.lookahead := by
  by_cases h : s.lookahead = eoi
  · rw [YyState.unread, if_pos h, h]
    rfl
  · rw [unread_eq_cons h]
    rfl

end Shifted

/-! ## Lookaheads -/

section Lookaheads

variable {n : ℕ} {o : Occ} {x : ℕ}

/-- The token behind a phrase is a lookahead of the productions of its nonterminal. -/
lemma look_clos (hF : G.FirstCovers F) (hn : n < A.nstates) (ho : G.Occurs (A.cores n) o)
    (hx : rightOfDot o.core = some x) (hnon : IsNonterm x) {q : Production}
    (hq : q ∈ G.productions x) {u v : List ℕ} (hu : Yields G.cfg (form (afterDot o.core)) u)
    (htok : ∀ t ∈ u, t ≤ G.currterm) (hlook : G.Look F A n o (v.headD eoi)) :
    G.Look F A n (.clos q) ((u ++ v).headD eoi) := by
  cases u with
  | nil =>
    refine .inherit hn hlook hx hnon hq (nullableAfter_iff_passed.mpr ?_)
    exact passed_of_allNull (P := fun B => G.Nullable F B) (fun B => id) (hu.allNull hF.null)
  | cons t u =>
    exact .first hn (ho.mem_occs hx) hx hnon hq
      (hF.mem_firstAfter (hu.firstBy hF.null) (htok t List.mem_cons_self))

/-- Without actions the first symbol of a form is the first symbol of the sequence. -/
lemma exists_rightOfDot {p : Production} (hacts : ∀ x ∈ p.rhs, ¬ IsAct x) {d : ℕ} {sym : Symbol ℕ ℕ}
    {β : List (Symbol ℕ ℕ)} (h : form (p.rhs.drop d) = sym :: β) :
    ∃ x, rightOfDot (p, d) = some x ∧ toSymbol x = some sym ∧
      p.rhs.drop d = x :: p.rhs.drop (d + 1) ∧ form (p.rhs.drop (d + 1)) = β := by
  obtain ⟨α, y, γ, hdrop, hα, hy, hγ⟩ := exists_of_form_eq_cons h
  have hnil : α = [] := by
    cases α with
    | nil => rfl
    | cons a α =>
      have hmem : a ∈ p.rhs.drop d := by
        rw [hdrop]
        exact List.mem_cons_self
      exact absurd (hα a List.mem_cons_self) (hacts a (List.mem_of_mem_drop hmem))
  subst hnil
  rw [List.nil_append] at hdrop
  have htail : p.rhs.drop (d + 1) = γ := by
    rw [← List.tail_drop, hdrop, List.tail_cons]
  refine ⟨y, ?_, hy, htail.symm ▸ hdrop, htail.symm ▸ hγ⟩
  have hhead := congrArg List.head? hdrop
  rw [List.head?_drop, List.head?_cons] at hhead
  exact hhead

/-- Nothing stands behind a dot when there is no visible symbol. -/
lemma drop_eq_nil_of_form {p : Production} (hacts : ∀ x ∈ p.rhs, ¬ IsAct x) {d : ℕ}
    (h : form (p.rhs.drop d) = []) : p.rhs.drop d = [] := by
  rw [List.eq_nil_iff_forall_not_mem]
  intro x hx
  have hnone := List.filterMap_eq_nil_iff.mp h x hx
  unfold toSymbol at hnone
  rw [if_neg (hacts x (List.mem_of_mem_drop hx))] at hnone
  split at hnone
  · cases hnone
  · cases hnone

end Lookaheads

/-! ## Sentences -/

section Sentences

variable {env : LrEnv} {w : List ℕ}

variable (T) in
/-- A state of a run in which the next round accepts the input. -/
structure Accepting (env : LrEnv) (w : List ℕ) (s : YyState) : Prop where
  /-- The state is a state of the run. -/
  reaches : Reaches (roomyStep T env) (lrInit w) s
  /-- The error recovery has not been entered. -/
  clean : .recover ∉ s.trace
  /-- The stack holds at least one state. -/
  stack : s.stack ≠ []
  /-- The entry for the lookahead is that of `YYACCEPT`. -/
  actNum : s.actNum T = 0

variable (G A T) in
/-- A state of a run with an item: the occurrence of the item in the closure of the top state has a
lookahead, and behind its production the tokens `v` are still to come. -/
structure AtItem (F : SetTable) (env : LrEnv) (w : List ℕ) (s : YyState) (γ : List ℕ) (o : Occ)
    (v : List ℕ) : Prop where
  /-- The state is a state of the run. -/
  reaches : Reaches (roomyStep T env) (lrInit w) s
  /-- The error recovery has not been entered. -/
  clean : .recover ∉ s.trace
  /-- The symbols on the stack. -/
  spells : Spells A s.stack γ
  /-- The occurrence and its lookahead. -/
  occurs : ∃ n stack, s.stack = n :: stack ∧ G.Occurs (A.cores n) o ∧ G.Look F A n o (v.headD eoi)

variable {s : YyState} {γ v : List ℕ} {o : Occ}

/-- A state with an item has its production in the grammar. -/
lemma AtItem.mem_prods (hR : G.Ready F A T env w) (h : G.AtItem A T F env w s γ o v) :
    o.core.1 ∈ G.prods := by
  obtain ⟨n, stack, -, ho, -⟩ := h.occurs
  exact hR.tables.built.mem_prods ho.inClosure

/-- A terminal behind the dot of the item that is looked for is shifted. -/
lemma AtItem.shift (hR : G.Ready F A T env w) (h : G.AtItem A T F env w s γ o v) {t : ℕ}
    {u : List ℕ} (hx : rightOfDot o.core = some t) (hterm : IsTerm t)
    (hunread : s.unread = t :: u) : ∃ s' k n', G.AtItem A T F env w s' (t :: γ)
    (.kern k (advance o.core)) v ∧ s'.unread = u ∧
      s'.stack = n' :: s.stack := by
  obtain ⟨n, stack, hstack, ho, hlook⟩ := h.occurs
  have hs := h.spells
  rw [hstack] at hs
  obtain ⟨n', k, hone, ho', hlook'⟩ := hR.tables.built.next (hs.lt hR.tables.built) ho hx
  have hla : s.lookahead = t := by
    rw [← headD_unread, hunread]
    rfl
  have hne : s.lookahead ≠ eoi := by
    rw [hla]
    have hpos := hterm.1
    have heoi : eoi = 0 := rfl
    have hmin : minTerm = 1 := rfl
    omega
  have htarget : (n' : ℤ) ∈ A.targets n s.lookahead := by
    rw [hla, hone]
    exact List.mem_singleton_self _
  have hstep : roomyStep T env s = _ :=
    lrStep_shift hR.tables.tabled hstack hs (Nat.lt_succ_self _) htarget
    (hR.tables.shift (hla ▸ hterm) (hla ▸ hone))
  have hrest := (LrShifted.reaches hR h.reaches h.clean).rest
  obtain ⟨hunread', -⟩ := unread_yyNextToken hrest (n' :: s.stack) (s.suppressErr - 1) s.yynerrs
    (s.trace ++ [.shift s.lookahead])
  refine ⟨_, k, n', ⟨h.reaches.tail hstep, ?_, ?_, ?_⟩, ?_, rfl⟩
  · have hclean := h.clean
    simp [hclean]
  · dsimp only
    rw [hstack]
    exact .push hs (hla ▸ htarget)
  · exact ⟨n', s.stack, rfl, ho', hlook' _ hlook⟩
  · rw [hunread']
    rw [unread_eq_cons hne, List.cons.injEq] at hunread
    exact hunread.2

/-- Behind the dot stands a nonterminal: one of its productions is looked for. -/
lemma AtItem.expand (hR : G.Ready F A T env w) (h : G.AtItem A T F env w s γ o v) {q : Production}
    (hq : q ∈ G.prods) (hx : rightOfDot o.core = some q.lhs) {u u' : List ℕ}
    (hu' : Yields G.cfg (form (o.core.1.rhs.drop (o.core.2 + 1))) u')
    (hunread : s.unread = u ++ (u' ++ v)) : G.AtItem A T F env w s γ (.clos q) (u' ++ v) := by
  obtain ⟨n, stack, hstack, ho, hlook⟩ := h.occurs
  have hs := h.spells
  rw [hstack] at hs
  have hnon := G.isNonterm_lhs hq
  have hprod : q ∈ G.productions q.lhs := mem_productions.mpr ⟨hq, rfl⟩
  refine ⟨h.reaches, h.clean, h.spells, n, stack, hstack, ?_, ?_⟩
  · exact mem_closureProds.mpr ⟨o.core, q.lhs, ho.inClosure, hx, hnon, hprod⟩
  · refine look_clos hR.first (hs.lt hR.tables.built) ho hx hnon hprod hu' ?_ hlook
    intro t ht
    apply le_currterm_of_unread hR h.reaches h.clean
    rw [hunread]
    exact List.mem_append_right _ (List.mem_append_left _ ht)

/-- At the end of a production the table has its reduction. -/
lemma AtItem.actNum (hR : G.Ready F A T env w) (h : G.AtItem A T F env w s γ o v)
    (hdot : rightOfDot o.core = none) (hunread : s.unread = v) :
    s.stack ≠ [] ∧ s.actNum T = -(o.core.1.num : ℤ) := by
  obtain ⟨n, stack, hstack, ho, hlook⟩ := h.occurs
  have hs := h.spells
  rw [hstack] at hs
  have hnext := hR.tables.reduction (hs.lt hR.tables.built) ho hdot hlook
  rw [← hunread, headD_unread] at hnext
  exact ⟨h.spells.ne_nil, (actNum_eq hstack).trans hnext⟩

/-- At the end of production 0, with the input used up, the next round accepts. -/
lemma AtItem.accepting (hR : G.Ready F A T env w) (h : G.AtItem A T F env w s γ o v)
    (hdot : rightOfDot o.core = none) (hunread : s.unread = v) (hnum : o.core.1.num = 0) :
    Accepting T env w s := by
  obtain ⟨hstack, hact⟩ := h.actNum hR hdot hunread
  exact ⟨h.reaches, h.clean, hstack, by rw [hact, hnum]; rfl⟩

/-- At the end of a production that has been looked for behind a dot, it is reduced, or the input is
accepted. -/
lemma AtItem.reduce (hR : G.Ready F A T env w) (h : G.AtItem A T F env w s γ o v) {q : Production}
    (hx : rightOfDot o.core = some q.lhs) {s₁ : YyState} {o₁ : Occ} {v₁ : List ℕ} {l : List ℕ}
    (h₁ : G.AtItem A T F env w s₁ (q.rhs.reverse ++ γ) o₁ v₁) (hcore : o₁.core.1 = q)
    (hdot : rightOfDot o₁.core = none) (hunread : s₁.unread = v₁)
    (hstack₁ : s₁.stack = l ++ s.stack) (hlen : l.length = q.rhs.length) :
    (∃ s' k n', G.AtItem A T F env w s' (q.lhs :: γ) (.kern k (advance o.core)) v ∧ s'.unread = v₁ ∧
      s'.stack = n' :: s.stack) ∨ Accepting T env w s₁ := by
  obtain ⟨n, stack, hstack, ho, hlook⟩ := h.occurs
  obtain ⟨n₁, stack₁, hstack₁', ho₁, hlook₁⟩ := h₁.occurs
  have hs := h.spells
  have hs₁ := h₁.spells
  rw [hstack] at hs
  rw [hstack₁'] at hs₁
  have hnext := hR.tables.reduction (hs₁.lt hR.tables.built) ho₁ hdot hlook₁
  rw [← hunread, headD_unread] at hnext
  have hact : ∀ tr k, (roomy env s₁).yyAct tr k = 0 := hR.yyAct
  obtain ⟨m, stack', γ', hdrop', hspells, hγ, hround⟩ :=
    lrStep_reduce hR.tables.tabled hR.zero hact hstack₁' hs₁ (Nat.lt_succ_self _) ho₁.inClosure hdot
      hnext
  rw [hcore] at hdrop' hround hγ
  obtain rfl : γ = γ' := List.append_cancel_left hγ
  have hpopped : s₁.stack.drop q.rhs.length = s.stack := by
    rw [hstack₁, ← hlen, List.drop_left]
  rcases hround with ⟨hnum, -⟩ | ⟨-, n', htarget, hround⟩
  · exact .inr (h₁.accepting hR hdot hunread (hcore ▸ hnum))
  · left
    have heq : m :: stack' = n :: stack := by rw [← hdrop', hpopped, hstack]
    obtain ⟨rfl, rfl⟩ : m = n ∧ stack' = stack := by simpa using heq
    obtain ⟨n'', k, hone, ho', hlook'⟩ := hR.tables.built.next (hs.lt hR.tables.built) ho hx
    obtain rfl : n' = n'' := by
      rw [hone, List.mem_singleton, Nat.cast_inj] at htarget
      exact htarget
    refine ⟨_, k, n', ⟨h₁.reaches.tail hround, ?_, .push hs htarget, n', m :: stack', rfl, ho',
      hlook' _ hlook⟩, ?_, ?_⟩
    · have hclean := h₁.clean
      simp [hclean]
    · rw [← hunread]
      rfl
    · dsimp only
      rw [hstack]

/-- The end of a production, after a symbol behind the dot. -/
lemma AtItem.moved {x k n' : ℕ} {s₁ s' : YyState} {o' : Occ} {l : List ℕ}
    (h' : G.AtItem A T F env w s' ((o.core.1.rhs.drop (o.core.2 + 1)).reverse ++ x :: γ) o' v)
    (hx : rightOfDot o.core = some x) (hcore : o'.core.1 = (Occ.kern k (advance o.core)).core.1)
    (hdot : rightOfDot o'.core = none) (hunread : s'.unread = v)
    (hstack₁ : s₁.stack = n' :: s.stack) (hstack : s'.stack = l ++ s₁.stack)
    (hlen : l.length = o.core.1.rhs.length - (o.core.2 + 1)) :
    ∃ s' o' l, G.AtItem A T F env w s' ((o.core.1.rhs.drop o.core.2).reverse ++ γ) o' v ∧
      o'.core.1 = o.core.1 ∧ rightOfDot o'.core = none ∧ s'.unread = v ∧ s'.stack = l ++ s.stack ∧
      l.length = o.core.1.rhs.length - o.core.2 := by
  refine ⟨s', o', l ++ [n'], ?_, hcore, hdot, hunread, ?_, ?_⟩
  · rw [drop_of_rightOfDot hx, List.reverse_cons, List.append_assoc]
    exact h'
  · rw [hstack, hstack₁, List.append_assoc]
    rfl
  · obtain ⟨hlt, -⟩ := List.getElem?_eq_some_iff.mp hx
    rw [List.length_append, List.length_singleton, hlen]
    omega

/-- The driver follows the derivation of what stands behind a dot: it comes to the end of the
production, or it accepts the input before, with the tokens behind the production among those that
have not been read. -/
lemma AtItem.follow (hR : G.Ready F A T env w) {β : List (Symbol ℕ G.cfg.NT)} {u : List ℕ}
    (hy : Yields G.cfg β u) (h : G.AtItem A T F env w s γ o v)
    (hform : form (o.core.1.rhs.drop o.core.2) = β) (hunread : s.unread = u ++ v) :
    (∃ s' o' l, G.AtItem A T F env w s' ((o.core.1.rhs.drop o.core.2).reverse ++ γ) o' v ∧
      o'.core.1 = o.core.1 ∧ rightOfDot o'.core = none ∧ s'.unread = v ∧ s'.stack = l ++ s.stack ∧
      l.length = o.core.1.rhs.length - o.core.2) ∨ ∃ s', Accepting T env w s' ∧
      v <:+ s'.unread := by
  have hacts := hR.noActs _ (h.mem_prods hR)
  induction hy generalizing s γ o v with
  | nil =>
    have hnil := drop_eq_nil_of_form hacts hform
    have hle := List.drop_eq_nil_iff.mp hnil
    refine .inl ⟨s, o, [], ?_, rfl, List.getElem?_eq_none_iff.mpr hle, hunread, rfl,
      (Nat.sub_eq_zero_of_le hle).symm⟩
    rw [hnil]
    exact h
  | @terminal t β u hu ih =>
    obtain ⟨x, hx, hsym, -, hrest⟩ := exists_rightOfDot hacts hform
    obtain ⟨-, hterm, rfl⟩ := toSymbol_eq_terminal hsym
    obtain ⟨s₁, k, n', h₁, hunread₁, hstack₁⟩ := h.shift hR hx hterm hunread
    rcases ih h₁ hrest hunread₁ hacts with ⟨s', o', l, h', hcore, hdot, hv, hstack, hlen⟩ | hacc
    · exact .inl (h'.moved hx hcore hdot hv hstack₁ hstack hlen)
    · exact .inr hacc
  | @rule r β u₁ u₂ hr hu₁ hu₂ ih₁ ih₂ =>
    obtain ⟨q, hq, rfl⟩ := mem_rules.mp hr
    obtain ⟨x, hx, hsym, -, hrest⟩ := exists_rightOfDot hacts hform
    obtain ⟨-, -, rfl⟩ := toSymbol_eq_nonterminal hsym
    rw [List.append_assoc] at hunread
    rw [← hrest] at hu₂
    have hclos := h.expand hR hq hx hu₂ hunread
    rcases ih₁ hclos rfl hunread (hR.noActs q hq) with
      ⟨s₁, o₁, l, h₁, hcore₁, hdot₁, hv₁, hstack₁, hlen₁⟩ | ⟨s', hacc, hsuffix⟩
    · rcases h.reduce hR hx h₁ hcore₁ hdot₁ hv₁ hstack₁ hlen₁ with
        ⟨s₂, k, n', h₂, hunread₂, hstack₂⟩ | hacc
      · rcases ih₂ h₂ hrest hunread₂ hacts with ⟨s', o', l, h', hcore, hdot, hv, hstack, hlen⟩ |
          hacc
        · exact .inl (h'.moved hx hcore hdot hv hstack₂ hstack hlen)
        · exact .inr hacc
      · exact .inr ⟨s₁, hacc, hv₁ ▸ List.suffix_append u₂ v⟩
    · exact .inr ⟨s', hacc, (List.suffix_append u₂ v).trans hsuffix⟩

end Sentences

/-! ## The driver -/

section Driver

variable {env : LrEnv} {w : List ℕ}

variable (G T) in
/-- The driver can be run on the input: its actions return 0, the tokens are terminals of the
grammar, and the stack stays below `YYMAXDEPTH`. -/
structure Runs (env : LrEnv) (w : List ℕ) : Prop where
  /-- The actions of the user return 0. -/
  yyAct : ∀ tr k, env.yyAct tr k = 0
  /-- The tokens of the input are terminals. -/
  tokens : ∀ t ∈ w, minTerm ≤ t ∧ t ≤ G.currterm
  /-- The stack has room in every state of the run. -/
  depth : ∀ s, Reaches (lrStep T env) (lrInit w) s → s.stack.length < env.yymaxdepth

end Driver

/-- No precedences: every production has level 0 and is not associative. -/
def noPrec : ℕ → PrecTab := fun _ => ⟨0, 'n'⟩

/-- The limits of `occs.m`, with actions that return 0. -/
def occsEnv : LrEnv := ⟨128, 25, 5, fun _ _ => 0⟩

/-- `g : s ; s : a b Z | X Z ; a : X ; b : {0} Y ;` with `X = 1`, `Y = 2`, `Z = 3`, `g = 256`,
`s = 257`, `a = 258`, `b = 259`: the right-hand side of `b` starts with an action. -/
def leadingGrammar : Grammar := SymbolTable.grammar
  { prods := [⟨0, 256, [257], 0⟩, ⟨1, 257, [258, 259, 3], 0⟩, ⟨2, 257, [1, 3], 0⟩, ⟨3, 258, [1], 0⟩,
      ⟨4, 259, [512, 2], 0⟩]
    currterm := 3
    currnonterm := 259
    curract := 512
    goalSymbol := 256 } (by decide)

/-- What `patch` makes of `leadingGrammar`: the action is the nonterminal 260. -/
def leadingPatch : Grammar := SymbolTable.grammar
  { prods := [⟨0, 256, [257], 0⟩, ⟨1, 257, [258, 259, 3], 0⟩, ⟨2, 257, [1, 3], 0⟩, ⟨3, 258, [1], 0⟩,
      ⟨4, 259, [260, 2], 0⟩, ⟨5, 260, [], 0⟩]
    currterm := 3
    currnonterm := 260
    curract := 512
    goalSymbol := 256 } (by decide)

/-- The symbol table of `leadingGrammar`, walked by value. -/
def leadingWalk : leadingGrammar.Walk := leadingGrammar.valueWalk

/-- The automaton of `leadingPatch`, with the FIRST sets of `leadingGrammar`. -/
def leadingAutomaton : Automaton :=
  (leadingPatch.lr (leadingPatch.patchedFirst leadingWalk) 20).getD .empty

/-- The tables that occs prints for the grammar behind `patch`. -/
def leadingTables : YyTables := leadingPatch.yyTables leadingAutomaton
  (leadingAutomaton.reductions noPrec 0 (List.range leadingAutomaton.nstates))

/-- `patch` makes `leadingPatch` of `leadingGrammar` and changes no other production. -/
lemma patches_leadingGrammar : leadingGrammar.Patches leadingPatch := by
  refine ⟨rfl, rfl, by decide, by decide, by decide, by decide, fun x hlt hle => ?_⟩
  have hx : x = 260 := by
    change 259 < x at hlt
    change x ≤ 260 at hle
    omega
  exact ⟨⟨5, 260, [], 0⟩, by decide, hx.symm, rfl⟩

end Grammar

end Parser
