import Cgkits.Parser.LlDriver
import Cgkits.Parser.Reductions

/-!
# The LALR(1) driver (`occs.m`)

The driver keeps a stack of states that starts with state 0.  The action table gives for the state
on top and the lookahead the next state of a shift, the production of a reduction, or `YYF`;
reduction by production 0 means that the input is accepted.  With `YYF` the error recovery looks for
a state on the stack that has an action for the lookahead, and discards the lookahead if there is
none.
-/

namespace Parser

open Machine

/-! ## The tables -/

/-- `yy_next`, for a table whose rows hold these chains; `decodes_printTab` says that the rows that
are printed do. -/
def chainNext (table : ℕ → List Act) (curState : ℕ) (inp : ℤ) : ℤ :=
  ((pAction table curState inp).map Act.doThis).getD yyF

/-- The contents of the tables that occs prints for the driver. -/
structure YyTables where
  /-- `Yy_action`, the chain of actions of a state. -/
  action : ℕ → List Act
  /-- `Yy_goto`, the chain of goto states of a state. -/
  goto : ℕ → List Act
  /-- `Yy_lhs`, the left-hand side of a production. -/
  lhs : ℕ → ℕ
  /-- `Yy_reduce`, the length of a right-hand side. -/
  reduce : ℕ → ℕ

/-- The production with a number, as `mkprodtab` enters it. -/
def Grammar.prodtab (G : Grammar) (num : ℕ) : Option Production :=
  G.prods.find? fun p => p.num = num

/-- The tables that `make_parse_tables` prints, after `lr` and `reductions`. -/
def Grammar.yyTables (G : Grammar) (A : Automaton) (st : Reduced) : YyTables where
  action := st.actions
  goto := A.gotos
  lhs num := ((G.prodtab num).map fun p => adjVal p.lhs).getD 0
  reduce num := ((G.prodtab num).map fun p => p.rhs.length).getD 0

/-! ## The driver -/

/-- What the driver does, as far as it can be seen from outside. -/
inductive LrEvent
  /-- A token is shifted onto the stack. -/
  | shift (t : ℕ)
  /-- A production is reduced on the stack. -/
  | reduce (prod : ℕ)
  /-- The error recovery is entered. -/
  | recover
deriving DecidableEq, Repr

/-- The state of `yyparse` of the bottom-up driver, and what it has done so far. -/
structure YyState where
  /-- `Yy_stack`, the top first. -/
  stack : List ℕ
  /-- `yylookahead`, the token that is ahead. -/
  lookahead : ℕ
  /-- The tokens that have not been read yet. -/
  rest : List ℕ
  /-- `suppress_err`, which counts down behind an error. -/
  suppressErr : ℕ
  /-- `yynerrs`, the number of errors. -/
  yynerrs : ℕ
  /-- What has happened so far. -/
  trace : List LrEvent
deriving DecidableEq

/-- How `yyparse` of the bottom-up driver ends. -/
inductive LrResult
  /-- `YYACCEPT`: the parser returns 0. -/
  | accept (s : YyState)
  /-- `YYABORT`: the parser returns 1. -/
  | abort (s : YyState)
  /-- An action returns a code. -/
  | returns (code : ℤ) (s : YyState)
  /-- `Stack overflow.`, after which the program exits. -/
  | overflow
  /-- `Stack underflow.`, after which the program exits. -/
  | underflow
  /-- A push below the array, or the top of an empty stack. -/
  | stray
deriving DecidableEq

/-- What the generated file fixes besides the tables. -/
structure LrEnv where
  /-- `YYMAXDEPTH`, the size of the stacks. -/
  yymaxdepth : ℕ
  /-- `YYMAXERR`, the maximum number of errors. -/
  yymaxerr : ℕ
  /-- `YYCASCADE`, the rounds without a message behind an error. -/
  yycascade : ℕ
  /-- The code that `yy_act` returns for a production.  It may depend on everything that has
  happened before. -/
  yyAct : List LrEvent → ℕ → ℤ

section Driver

variable (T : YyTables) (env : LrEnv)

/-- The inner loop of `yy_recover`: pop the states that have no action for the token. -/
def yyPopStates (tok : ℕ) (stack : List ℕ) : List ℕ :=
  stack.dropWhile fun st => chainNext T.action st tok = yyF

/-- The outer loop of `yy_recover`: the stack, the token and the tokens behind it, unless all tokens
are discarded. -/
def yyRecoverLoop (stack : List ℕ) : ℕ → List ℕ → Option (List ℕ × ℕ × List ℕ)
  | tok, [] =>
    if yyPopStates T tok stack = [] then none else some (yyPopStates T tok stack, tok, [])
  | tok, t :: rest =>
    if yyPopStates T tok stack = [] then
      if t = 0 then none else yyRecoverLoop stack t rest
    else some (yyPopStates T tok stack, tok, t :: rest)

/-- `yy_recover`, and what `yyparse` does with its result. -/
def yyRecover (s : YyState) : YyState ⊕ LrResult :=
  let s := { s with
    yynerrs := if s.suppressErr = 0 then s.yynerrs + 1 else s.yynerrs
    trace := s.trace ++ [.recover] }
  if s.suppressErr = 0 ∧ env.yymaxerr < s.yynerrs then .inr (.abort s)
  else
    match yyRecoverLoop T s.stack s.lookahead s.rest with
    | none => .inr (.abort s)
    | some (stack, tok, rest) =>
      if tok = 0 then .inr (.abort s)
      else
        .inl { s with stack := stack, lookahead := tok, rest := rest, suppressErr := env.yycascade }

/-- `yy_shift` pushes the new state, and then the next token is read. -/
def yyShift (newState : ℕ) (s : YyState) : YyState ⊕ LrResult :=
  if env.yymaxdepth ≤ s.stack.length then .inr .overflow
  else
    let (lookahead, rest) := yyNextToken s.rest
    .inl { s with
      stack := newState :: s.stack, lookahead := lookahead, rest := rest
      trace := s.trace ++ [.shift s.lookahead] }

/-- `yy_reduce` pops the states of a right-hand side and pushes the one that goto gives. -/
def yyReduce (prodNum amount : ℕ) (s : YyState) : YyState ⊕ LrResult :=
  if s.stack.length < amount then .inr .underflow
  else
    match s.stack.drop amount with
    | [] => .inr .stray
    | tos :: stack =>
      if env.yymaxdepth ≤ (tos :: stack).length then .inr .stray
      else .inl { s with
        stack := (chainNext T.goto tos (T.lhs prodNum)).toNat :: tos :: stack
        trace := s.trace ++ [.reduce prodNum] }

/-- The entry of the action table for the state on top and the lookahead. -/
def YyState.actNum (s : YyState) : ℤ := chainNext T.action (s.stack.headD 0) s.lookahead

/-- One round of the loop of `yyparse`: a shift, a reduction, the end or an error. -/
def lrStep (s : YyState) : YyState ⊕ LrResult :=
  if s.stack = [] then .inr .stray
  else
    let actNum := s.actNum T
    let s := { s with suppressErr := s.suppressErr - 1 }
    if actNum = yyF then yyRecover T env s
    else if 0 < actNum then yyShift env actNum.toNat s
    else
      let prodNum := (-actNum).toNat
      let errcode := env.yyAct s.trace prodNum
      if errcode ≠ 0 then .inr (.returns errcode s)
      else if prodNum = 0 then .inr (.accept s)
      else yyReduce T env prodNum (T.reduce prodNum) s

/-- The state in which the loop starts, with state 0 on the stack and the first token read. -/
def lrInit (input : List ℕ) : YyState :=
  let (lookahead, rest) := yyNextToken input
  ⟨[0], lookahead, rest, 0, 0, []⟩

/-- `yyparse` of the bottom-up driver, cut off after `n` rounds. -/
def lrParse (input : List ℕ) (n : ℕ) : Option LrResult :=
  if env.yymaxdepth = 0 then some .stray else run (lrStep T env) n (lrInit input)

end Driver

/-! ## What a round does -/

section Rounds

variable {T : YyTables} {env : LrEnv} {s s' : YyState}

/-- When the driver goes on behind an error, a state and a token have been found for it. -/
lemma yyRecover_inl (h : yyRecover T env s = .inl s') :
    ∃ stack tok rest yynerrs, yyRecoverLoop T s.stack s.lookahead s.rest = some (stack, tok, rest) ∧
      tok ≠ 0 ∧ s' = { s with
        stack := stack, lookahead := tok, rest := rest, suppressErr := env.yycascade,
        yynerrs := yynerrs
        trace := s.trace ++ [.recover] } := by
  unfold yyRecover at h
  dsimp only at h
  generalize (if s.suppressErr = 0 then s.yynerrs + 1 else s.yynerrs) = yynerrs at h
  split at h
  · cases h
  · split at h
    · cases h
    · rename_i stack tok rest hloop
      split at h
      · cases h
      · rename_i htok
        cases h
        exact ⟨stack, tok, rest, yynerrs, hloop, htok, rfl⟩

/-- When the driver goes on behind a shift, there was room and the state has been pushed. -/
lemma yyShift_inl {newState : ℕ} (h : yyShift env newState s = .inl s') :
    s.stack.length < env.yymaxdepth ∧ s' = { s with
      stack := newState :: s.stack, lookahead := (yyNextToken s.rest).1,
      rest := (yyNextToken s.rest).2
      trace := s.trace ++ [.shift s.lookahead] } := by
  unfold yyShift at h
  split at h
  · cases h
  · rename_i hdepth
    cases h
    exact ⟨Nat.lt_of_not_le hdepth, rfl⟩

/-- When the driver goes on behind a reduction, there were states enough to pop. -/
lemma yyReduce_inl {prodNum amount : ℕ} (h : yyReduce T env prodNum amount s = .inl s') :
    ∃ tos stack, s.stack.drop amount = tos :: stack ∧ (tos :: stack).length < env.yymaxdepth ∧
      s' = { s with
      stack := (chainNext T.goto tos (T.lhs prodNum)).toNat :: tos :: stack
      trace := s.trace ++ [.reduce prodNum] } := by
  unfold yyReduce at h
  split at h
  · cases h
  · split at h
    · cases h
    · rename_i tos stack hdrop
      split at h
      · cases h
      · rename_i hdepth
        cases h
        exact ⟨tos, stack, hdrop, Nat.lt_of_not_le hdepth, rfl⟩

/-- When the driver goes on behind a round, it has recovered, shifted or reduced. -/
lemma lrStep_inl (h : lrStep T env s = .inl s') :
    (s.actNum T = yyF ∧ yyRecover T env { s with suppressErr := s.suppressErr - 1 } = .inl s') ∨
      (0 < s.actNum T ∧ yyShift env (s.actNum T).toNat { s with suppressErr := s.suppressErr - 1 } =
      .inl s') ∨ (s.actNum T < 0 ∧ yyReduce T env (-s.actNum T).toNat (T.reduce (-s.actNum T).toNat)
        { s with suppressErr := s.suppressErr - 1 } = .inl s') := by
  unfold lrStep at h
  dsimp only at h
  split at h
  · cases h
  · split at h
    · exact .inl ⟨‹_›, h⟩
    · split at h
      · exact .inr (.inl ⟨‹_›, h⟩)
      · split at h
        · cases h
        · split at h
          · cases h
          · exact .inr (.inr ⟨by omega, h⟩)

/-- The trace of the state behind a round extends the trace in front of it. -/
lemma trace_prefix_of_lrStep (h : lrStep T env s = .inl s') : s.trace <+: s'.trace := by
  rcases lrStep_inl h with ⟨-, h⟩ | ⟨-, h⟩ | ⟨-, h⟩
  · obtain ⟨_, _, _, _, -, -, rfl⟩ := yyRecover_inl h
    exact List.prefix_append _ _
  · obtain ⟨-, rfl⟩ := yyShift_inl h
    exact List.prefix_append _ _
  · obtain ⟨_, _, -, -, rfl⟩ := yyReduce_inl h
    exact List.prefix_append _ _

end Rounds

/-- The tokens that have not been shifted, the lookahead among them. -/
def YyState.unread (s : YyState) : List ℕ := if s.lookahead = eoi then [] else s.lookahead :: s.rest

end Parser
