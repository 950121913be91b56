import Cgkits.Parser.LrDriver
import Cgkits.Parser.YyStack
import Mathlib.Tactic.Ring

/-!
# The LALR(1) driver with its arrays (`occs.m`)

`lrStep` keeps the states in a list.  Here they are in the array `Yy_stack`, beside the array
`Yy_vstack` of the values of their symbols, each with a pointer; a write outside an array is a
result of its own.  `yyStep_toYyState` says that a round is a round of `lrStep` and that the two
pointers move together.

A shift looks whether the stack is full, but a reduction does not, since it frees the places of its
right-hand side.  A reduction by an empty right-hand side frees none (`yyParse_ne_strayWrite_iff`).
-/

namespace Parser

open Machine

/-- What the generated file fixes besides the tables: `yylval` for the lookahead and `yy_act`, which
reads the values from `Yy_vsp` on and `Yy_val`, and gives the code that it returns and the new
`Yy_val`. -/
structure YyEnv (V : Type) where
  /-- `YYMAXDEPTH`, the size of the stacks. -/
  yymaxdepth : ℕ
  /-- `YYMAXERR`, the maximum number of errors. -/
  yymaxerr : ℕ
  /-- `YYCASCADE`, the rounds without a message behind an error. -/
  yycascade : ℕ
  /-- `yylval`, the value of the token ahead. -/
  yylval : List LrEvent → ℕ → V
  /-- `yy_act`, with the values that it finds on the stack. -/
  yyAct : List LrEvent → ℕ → (ℕ → V) → V → ℤ × V

/-- The memory of `yyparse`: the two stacks, the lookahead and the counters. -/
structure YyMem (V : Type) where
  /-- `Yy_stack`, the array of states. -/
  yyStack : YyStack ℕ
  /-- The memory in and around `Yy_vstack`. -/
  yyVstack : ℤ → V
  /-- `Yy_vsp`, relative to `Yy_vstack`. -/
  yyVsp : ℤ
  /-- `Yy_val`, the value of `$$`. -/
  yyVal : V
  /-- `yylookahead`, the token that is ahead. -/
  lookahead : ℕ
  /-- The tokens that have not been read yet. -/
  rest : List ℕ
  /-- `suppress_err`, which counts down behind an error. -/
  suppressErr : ℕ
  /-- `yynerrs`, the number of errors. -/
  yynerrs : ℕ
  /-- What has happened so far. -/
  trace : List LrEvent

/-- How `yyparse` over the arrays ends. -/
inductive YyEnd (V : Type) where
  /-- `YYACCEPT`: the parser returns 0. -/
  | accept (m : YyMem V)
  /-- `YYABORT`: the parser returns 1. -/
  | abort (m : YyMem V)
  /-- An action returns a code. -/
  | returns (code : ℤ) (m : YyMem V)
  /-- `Stack overflow.`, after which the program exits. -/
  | overflow
  /-- `Stack underflow.`, after which the program exits. -/
  | underflow
  /-- A write outside `Yy_stack` or `Yy_vstack`. -/
  | strayWrite

/-- The run has ended with a write outside the arrays. -/
def YyEnd.isStrayWrite {V : Type} : Option (YyEnd V) → Bool
  | some .strayWrite => true
  | _ => false

/-- A result that is a stray write is this one end. -/
lemma YyEnd.eq_of_isStrayWrite {V : Type} {r : Option (YyEnd V)} (h : YyEnd.isStrayWrite r = true) :
    r = some .strayWrite := by
  unfold YyEnd.isStrayWrite at h
  split at h
  · rfl
  · cases h

namespace YyMem

variable {V : Type}

/-- `yypush_ (Yy_stack, x)`, if it stays within the array. -/
def pushState (x : ℕ) (m : YyMem V) : Option (YyMem V) :=
  if 0 ≤ m.yyStack.sp - 1 ∧ m.yyStack.sp - 1 < m.yyStack.size then
    some { m with yyStack := m.yyStack.push_ x }
  else none

/-- `*--Yy_vsp = v`, if the pointer stays within the array of values. -/
def pushValue (v : V) (m : YyMem V) : Option (YyMem V) :=
  if 0 ≤ m.yyVsp - 1 ∧ m.yyVsp - 1 < m.yyStack.size then
    some { m with yyVstack := Function.update m.yyVstack (m.yyVsp - 1) v, yyVsp := m.yyVsp - 1 }
  else none

section Functions

variable (T : YyTables) (env : YyEnv V)

/-- `yy_shift` pushes a state and the value of the token, or finds the stack full. -/
def yyShift (newState : ℕ) (m : YyMem V) : YyMem V ⊕ YyEnd V :=
  if m.yyStack.Full then .inr .overflow
  else
    match (m.pushState newState).bind (pushValue (env.yylval m.trace m.lookahead)) with
    | none => .inr .strayWrite
    | some m => .inl m

/-- `yy_reduce` pops the states and values of a right-hand side and pushes the new ones. -/
def yyReduce (prodNum amount : ℕ) (m : YyMem V) : YyMem V ⊕ YyEnd V :=
  if m.yyStack.ele < amount then .inr .underflow
  else
    let m := { m with yyStack := m.yyStack.popn_ amount, yyVsp := m.yyVsp + amount }
    match m.pushValue m.yyVal with
    | none => .inr .strayWrite
    | some m =>
      let nextState := (chainNext T.goto (m.yyStack.item 0) (T.lhs prodNum)).toNat
      match m.pushState nextState with
      | none => .inr .strayWrite
      | some m => .inl m

/-- The inner loop of `yy_recover`, for at most `n` states. -/
def popStates (tok : ℕ) : ℕ → YyStack ℕ → YyStack ℕ
  | 0, st => st
  | n + 1, st =>
    if ¬ st.Empty ∧ chainNext T.action (st.item 0) tok = yyF then popStates tok n st.pop_ else st

/-- One round of the outer loop of `yy_recover`: pop the states that have no action for the token,
and restore the pointer if no state is left. -/
def attempt (oldSp : ℤ) (tok : ℕ) (st : YyStack ℕ) : YyStack ℕ × Bool :=
  let st := popStates T tok st.ele.toNat st
  if ¬ st.Empty then (st, true) else ({ st with sp := oldSp }, false)

/-- The outer loop of `yy_recover`, which discards tokens until a state is found for one. -/
def recoverLoop (oldSp : ℤ) : ℕ → List ℕ → YyMem V → ℕ × YyMem V
  | tok, [], m =>
    let (st, found) := attempt T oldSp tok m.yyStack
    let m := { m with yyStack := st, rest := [] }
    if found then (tok, { m with yyVsp := st.size - st.ele }) else (0, m)
  | tok, t :: rest, m =>
    let (st, found) := attempt T oldSp tok m.yyStack
    let m := { m with yyStack := st, rest := t :: rest }
    if found then (tok, { m with yyVsp := st.size - st.ele })
    else if t = 0 then (0, { m with rest := rest })
    else recoverLoop oldSp t rest m

/-- `yy_recover` counts the error unless told not to, and gives up above the maximum. -/
def yyRecover (tok : ℕ) (suppress : Bool) (m : YyMem V) : ℕ × YyMem V :=
  let oldSp := m.yyStack.sp
  let m := if suppress then m else { m with yynerrs := m.yynerrs + 1 }
  if ¬ suppress ∧ env.yymaxerr < m.yynerrs then (0, m) else recoverLoop T oldSp tok m.rest m

/-- `act_num`, the entry of the table of actions for the top of the stack and the lookahead. -/
def actNum (m : YyMem V) : ℤ := chainNext T.action (m.yyStack.item 0) m.lookahead

/-- `yy_act`, with `Yy_val` set to the value of the first symbol of the right-hand side. -/
def act (prodNum : ℕ) (m : YyMem V) : ℤ × V :=
  let rhslen := T.reduce prodNum
  let val := m.yyVstack (m.yyVsp + (if rhslen ≠ 0 then rhslen - 1 else 0 : ℕ))
  env.yyAct m.trace prodNum (fun i => m.yyVstack (m.yyVsp + i)) val

/-- One round of the loop of `yyparse` over the arrays of states and values. -/
def yyStep (m : YyMem V) : YyMem V ⊕ YyEnd V :=
  let actNum := m.actNum T
  let m := { m with suppressErr := m.suppressErr - 1 }
  if actNum = yyF then
    let (tok, m) :=
      yyRecover T env m.lookahead (m.suppressErr ≠ 0) { m with
        trace := m.trace ++ [LrEvent.recover] }
    let m := { m with lookahead := tok }
    if tok = 0 then .inr (.abort m) else .inl { m with suppressErr := env.yycascade }
  else if 0 < actNum then
    match yyShift env actNum.toNat m with
    | .inr r => .inr r
    | .inl m =>
      let (lookahead, rest) := yyNextToken m.rest
      .inl { m with
        lookahead := lookahead, rest := rest, trace := m.trace ++ [LrEvent.shift m.lookahead] }
  else
    let prodNum := (-actNum).toNat
    let (errcode, val) := m.act T env prodNum
    let m := { m with yyVal := val }
    if errcode ≠ 0 then .inr (.returns errcode m)
    else if prodNum = 0 then .inr (.accept m)
    else
      match yyReduce T prodNum (T.reduce prodNum) m with
      | .inr r => .inr r
      | .inl m => .inl { m with trace := m.trace ++ [LrEvent.reduce prodNum] }

/-- What is in memory before `yy_init_stack`, about which nothing is assumed. -/
structure Garbage (V : Type) where
  /-- In and around `Yy_stack`. -/
  states : ℤ → ℕ
  /-- In and around `Yy_vstack`. -/
  values : ℤ → V
  /-- What `Yy_val` holds before the first reduction. -/
  val : V

/-- `yy_init_stack`, and the first token.  The push of state 0 is not checked. -/
def yyInit (g : Garbage V) (input : List ℕ) : YyMem V :=
  let (lookahead, rest) := yyNextToken input
  { yyStack := (YyStack.clear ⟨g.states, 0, env.yymaxdepth⟩).push_ 0
    yyVstack := g.values
    yyVsp := env.yymaxdepth - 1
    yyVal := g.val
    lookahead := lookahead
    rest := rest
    suppressErr := 0
    yynerrs := 0
    trace := [] }

/-- `yyparse` over the arrays of states and values, cut off after `n` rounds. -/
def yyParse (g : Garbage V) (input : List ℕ) (n : ℕ) : Option (YyEnd V) :=
  if env.yymaxdepth = 0 then some .strayWrite else run (yyStep T env) n (yyInit env g input)

end Functions

/-! ## The pointers -/

/-- The pointers move together within the arrays, and the stack is not empty. -/
structure Aligned (env : YyEnv V) (m : YyMem V) : Prop where
  /-- The length of the arrays. -/
  size : m.yyStack.size = env.yymaxdepth
  /-- The stack is not above its array. -/
  nonneg : 0 ≤ m.yyStack.sp
  /-- The stack of states is not empty. -/
  lt : m.yyStack.sp < m.yyStack.size
  /-- The pointer into the values. -/
  vsp : m.yyVsp = m.yyStack.sp

variable {T : YyTables} {env : YyEnv V} {m m' : YyMem V}

/-- At the start the stacks are aligned, with one element on each. -/
lemma aligned_yyInit (hdepth : 0 < env.yymaxdepth) (g : Garbage V) (input : List ℕ) :
    Aligned env (yyInit env g input) := by
  refine ⟨rfl, ?_, ?_, rfl⟩
  · change 0 ≤ (env.yymaxdepth : ℤ) - 1
    omega
  · change (env.yymaxdepth : ℤ) - 1 < env.yymaxdepth
    omega

/-- A shift writes within the arrays, or stops because the stack is full. -/
lemma Aligned.yyShift (h : Aligned env m) (newState : ℕ) :
    (m.yyStack.Full ∧ yyShift env newState m = .inr .overflow) ∨ ¬ m.yyStack.Full ∧
    yyShift env newState m = .inl { m with
      yyStack := m.yyStack.push_ newState
      yyVstack := Function.update m.yyVstack (m.yyVsp - 1) (env.yylval m.trace m.lookahead)
      yyVsp := m.yyVsp - 1 } := by
  obtain ⟨-, hnonneg, hlt, hvsp⟩ := h
  unfold YyMem.yyShift
  by_cases hfull : m.yyStack.Full
  · exact .inl ⟨hfull, if_pos hfull⟩
  · rw [if_neg hfull]
    unfold YyStack.Full at hfull
    have hstate : m.pushState newState = some { m with yyStack := m.yyStack.push_ newState } :=
      if_pos ⟨by omega, by omega⟩
    have hvalue :
        pushValue (env.yylval m.trace m.lookahead) { m with yyStack := m.yyStack.push_ newState } =
        some { m with
          yyStack := m.yyStack.push_ newState
          yyVstack := Function.update m.yyVstack (m.yyVsp - 1) (env.yylval m.trace m.lookahead)
          yyVsp := m.yyVsp - 1 } := by
      refine if_pos ⟨?_, ?_⟩
      · change 0 ≤ m.yyVsp - 1
        omega
      · change m.yyVsp - 1 < m.yyStack.size
        omega
    rw [hstate, Option.bind_some, hvalue]
    exact .inr ⟨hfull, rfl⟩

/-- A reduction writes within the arrays, unless the right-hand side is empty and the stack is
full. -/
lemma Aligned.yyReduce (h : Aligned env m) (prodNum amount : ℕ) :
    (m.yyStack.ele < amount ∧ yyReduce T prodNum amount m = .inr .underflow) ∨
    (m.yyStack.Full ∧ amount = 0 ∧ yyReduce T prodNum amount m = .inr .strayWrite) ∨
    (amount ≤ m.yyStack.ele ∧ ¬ (m.yyStack.Full ∧ amount = 0) ∧
    yyReduce T prodNum amount m = .inl { m with
      yyStack := (m.yyStack.popn_ amount).push_
        (chainNext T.goto ((m.yyStack.popn_ amount).item 0) (T.lhs prodNum)).toNat
      yyVstack := Function.update m.yyVstack (m.yyVsp + amount - 1) m.yyVal
      yyVsp := m.yyVsp + amount - 1 }) := by
  obtain ⟨-, hnonneg, hlt, hvsp⟩ := h
  unfold YyMem.yyReduce
  by_cases hele : m.yyStack.ele < amount
  · exact .inl ⟨hele, if_pos hele⟩
  · right
    rw [if_neg hele]
    dsimp only
    unfold YyStack.ele at hele
    unfold YyStack.Full YyStack.ele
    by_cases hfull : m.yyStack.sp ≤ 0 ∧ amount = 0
    · left
      refine ⟨hfull.1, hfull.2, ?_⟩
      have hnone :
          pushValue m.yyVal { m with
            yyStack := m.yyStack.popn_ amount, yyVsp := m.yyVsp + amount } = none := by
        refine if_neg ?_
        change ¬ (0 ≤ m.yyVsp + amount - 1 ∧ m.yyVsp + amount - 1 < m.yyStack.size)
        omega
      rw [hnone]
    · right
      refine ⟨by omega, hfull, ?_⟩
      have hvalue :
          pushValue m.yyVal { m with
            yyStack := m.yyStack.popn_ amount, yyVsp := m.yyVsp + amount } = some { m with
            yyStack := m.yyStack.popn_ amount
            yyVstack := Function.update m.yyVstack (m.yyVsp + amount - 1) m.yyVal
            yyVsp := m.yyVsp + amount - 1 } := by
        refine if_pos ?_
        change 0 ≤ m.yyVsp + amount - 1 ∧ m.yyVsp + amount - 1 < m.yyStack.size
        omega
      have hstate : ∀ (x : ℕ) (m' : YyMem V), m'.yyStack = m.yyStack.popn_ amount →
          m'.pushState x = some { m' with yyStack := m'.yyStack.push_ x } := by
        intro x m' hm'
        refine if_pos ?_
        rw [hm']
        change 0 ≤ m.yyStack.sp + amount - 1 ∧ m.yyStack.sp + amount - 1 < m.yyStack.size
        omega
      rw [hvalue]
      dsimp only
      rw [hstate _ _ rfl]

/-! ## Recoveries -/

variable {st : YyStack ℕ} {tok : ℕ}

/-- The loop pops the states that have no action for the token. -/
lemma popStates_spec (T : YyTables) (tok : ℕ) {n : ℕ} (hn : st.ele.toNat ≤ n) : ∃ k : ℕ,
    popStates T tok n st = st.popn_ k ∧
    (popStates T tok n st).toList = yyPopStates T tok st.toList := by
  induction n generalizing st with
  | zero =>
    have hempty : st.Empty := by
      unfold YyStack.ele at hn
      unfold YyStack.Empty
      omega
    refine ⟨0, ?_, ?_⟩
    · unfold popStates YyStack.popn_
      rw [Nat.cast_zero, add_zero]
    · rw [YyStack.toList_eq_nil hempty]
      exact YyStack.toList_eq_nil hempty
  | succ n ih =>
    unfold popStates
    by_cases hpop : ¬ st.Empty ∧ chainNext T.action (st.item 0) tok = yyF
    · obtain ⟨hempty, hact⟩ := hpop
      rw [if_pos ⟨hempty, hact⟩]
      have hele : st.pop_.ele.toNat ≤ n := by
        unfold YyStack.Empty at hempty
        unfold YyStack.ele at hn ⊢
        change (st.size - (st.sp + 1)).toNat ≤ n
        omega
      obtain ⟨k, hk, hlist⟩ := ih hele
      refine ⟨k + 1, ?_, ?_⟩
      · rw [hk]
        unfold YyStack.popn_ YyStack.pop_
        congr 1
        push_cast
        ring
      · rw [hlist, YyStack.toList_eq_cons hempty]
        unfold yyPopStates
        rw [List.dropWhile_cons_of_pos (by simpa using hact)]
    · rw [if_neg hpop]
      refine ⟨0, ?_, ?_⟩
      · unfold YyStack.popn_
        rw [Nat.cast_zero, add_zero]
      · by_cases hempty : st.Empty
        · rw [YyStack.toList_eq_nil hempty]
          rfl
        · have hact : ¬ chainNext T.action (st.item 0) tok = yyF := fun hact => hpop ⟨hempty, hact⟩
          rw [YyStack.toList_eq_cons hempty]
          unfold yyPopStates
          rw [List.dropWhile_cons_of_neg (by simpa using hact)]

/-- An attempt that fails leaves the stack as it is; another one cuts it. -/
lemma attempt_spec (T : YyTables) (tok : ℕ) (st : YyStack ℕ) :
    (yyPopStates T tok st.toList = [] ∧ attempt T st.sp tok st = (st, false)) ∨
      ∃ k : ℕ, ¬ (st.popn_ k).Empty ∧ (st.popn_ k).toList = yyPopStates T tok st.toList ∧
        attempt T st.sp tok st = (st.popn_ k, true) := by
  obtain ⟨k, hk, hlist⟩ := popStates_spec T tok (le_refl st.ele.toNat)
  rw [hk] at hlist
  unfold attempt
  dsimp only
  rw [hk]
  by_cases hempty : (st.popn_ k).Empty
  · rw [if_neg (not_not.mpr hempty)]
    exact .inl ⟨hlist.symm.trans (YyStack.toList_eq_nil hempty), rfl⟩
  · rw [if_pos hempty]
    exact .inr ⟨k, hempty, hlist, rfl⟩

/-- The loop over the tokens computes `yyRecoverLoop`, and sets the pointer into the values. -/
lemma recoverLoop_spec (T : YyTables) (tok : ℕ) (rest : List ℕ) (m : YyMem V) :
    (∃ (t k : ℕ) (rest' : List ℕ), ¬ (m.yyStack.popn_ k).Empty ∧
      yyRecoverLoop T m.yyStack.toList tok rest = some ((m.yyStack.popn_ k).toList, t, rest') ∧
      recoverLoop T m.yyStack.sp tok rest m =
        (t, { m with yyStack := m.yyStack.popn_ k, yyVsp := m.yyStack.sp + k, rest := rest' })) ∨
    (yyRecoverLoop T m.yyStack.toList tok rest = none ∧
      ∃ rest', recoverLoop T m.yyStack.sp tok rest m = (0, { m with rest := rest' })) := by
  have hvsp : ∀ k : ℕ, (m.yyStack.popn_ k).size - (m.yyStack.popn_ k).ele = m.yyStack.sp + k := by
    intro k
    change (m.yyStack.size : ℤ) - (m.yyStack.size - (m.yyStack.sp + k)) = _
    ring
  induction rest generalizing tok m with
  | nil =>
    unfold recoverLoop yyRecoverLoop
    rcases attempt_spec T tok m.yyStack with ⟨hnil, hattempt⟩ | ⟨k, hempty, hlist, hattempt⟩
    · rw [hattempt, if_pos hnil]
      exact .inr ⟨rfl, [], rfl⟩
    · rw [hattempt, ← hlist, if_neg fun h => hempty (YyStack.toList_eq_nil_iff.mp h)]
      refine .inl ⟨tok, k, [], hempty, rfl, ?_⟩
      dsimp only
      rw [if_pos rfl, hvsp]
  | cons t rest ih =>
    unfold recoverLoop yyRecoverLoop
    rcases attempt_spec T tok m.yyStack with ⟨hnil, hattempt⟩ | ⟨k, hempty, hlist, hattempt⟩
    · rw [hattempt, if_pos hnil]
      dsimp only
      rw [if_neg Bool.false_ne_true]
      by_cases ht : t = 0
      · rw [if_pos ht, if_pos ht]
        exact .inr ⟨rfl, rest, rfl⟩
      · rw [if_neg ht, if_neg ht]
        exact ih t { m with rest := t :: rest } hvsp
    · rw [hattempt, ← hlist, if_neg fun h => hempty (YyStack.toList_eq_nil_iff.mp h)]
      refine .inl ⟨tok, k, t :: rest, hempty, rfl, ?_⟩
      dsimp only
      rw [if_pos rfl, hvsp]

/-- `yy_recover` gives up at the limit of errors, or runs the loop over the tokens. -/
lemma yyRecover_eq (T : YyTables) (env : YyEnv V) (tok : ℕ) (suppress : Bool) (m : YyMem V) :
    ∃ yynerrs, yynerrs = (if suppress then m.yynerrs else m.yynerrs + 1) ∧
      yyRecover T env tok suppress m = if suppress = false ∧ env.yymaxerr < yynerrs then
        (0, { m with yynerrs := yynerrs })
        else recoverLoop T m.yyStack.sp tok m.rest { m with yynerrs := yynerrs } := by
  unfold yyRecover
  cases suppress with
  | false =>
    refine ⟨m.yynerrs + 1, rfl, ?_⟩
    exact if_congr (by simp) rfl rfl
  | true =>
    refine ⟨m.yynerrs, rfl, ?_⟩
    exact if_congr (by simp) rfl rfl

/-! ## Rounds -/

/-- The state of `lrStep` that the memory stands for. -/
def toYyState (m : YyMem V) : YyState :=
  ⟨m.yyStack.toList, m.lookahead, m.rest, m.suppressErr, m.yynerrs, m.trace⟩

/-- The environment of `lrStep`: the code that an action returns here. -/
def lrEnv (T : YyTables) (env : YyEnv V) (m : YyMem V) : LrEnv :=
  ⟨env.yymaxdepth, env.yymaxerr, env.yycascade, fun _ prodNum => (m.act T env prodNum).1⟩

/-- A stack that is aligned has a top element, since it is not empty. -/
lemma Aligned.toList_eq_cons (h : Aligned env m) :
    m.yyStack.toList = m.yyStack.item 0 :: m.yyStack.pop_.toList := by
  refine YyStack.toList_eq_cons ?_
  have := h.lt
  unfold YyStack.Empty
  omega

/-- The entry that `lrStep` looks at is that for the top of the array. -/
lemma Aligned.actNum_eq (h : Aligned env m) : m.toYyState.actNum T = m.actNum T := by
  unfold YyState.actNum toYyState
  dsimp only
  rw [h.toList_eq_cons]
  rfl

/-- The number of elements on an aligned stack is the size less the pointer. -/
lemma Aligned.length_toList (h : Aligned env m) :
    (m.yyStack.toList.length : ℤ) = env.yymaxdepth - m.yyStack.sp := by
  obtain ⟨hsize, hnonneg, hlt, -⟩ := h
  rw [YyStack.length_toList, ← hsize]
  omega

/-- A round that recovers is a round of `lrStep`, and pops as many values as states. -/
lemma Aligned.recover (h : Aligned env m) (herr : m.actNum T = yyF)
    (hstep : yyStep T env m = .inl m') : lrStep T (lrEnv T env m) m.toYyState = .inl m'.toYyState ∧
    Aligned env m' ∧
      ∃ k : ℕ, m'.yyStack = m.yyStack.popn_ k ∧ m'.yyVstack = m.yyVstack := by
  have hnil : m.toYyState.stack ≠ [] := by
    change m.yyStack.toList ≠ []
    rw [h.toList_eq_cons]
    exact List.cons_ne_nil _ _
  obtain ⟨m₁, hm₁⟩ : ∃ m₁ : YyMem V, m₁ = { m with
      suppressErr := m.suppressErr - 1, trace := m.trace ++ [LrEvent.recover] } := ⟨_, rfl⟩
  obtain ⟨yynerrs, hyynerrs, hrec⟩ := yyRecover_eq T env m.lookahead (m.suppressErr - 1 ≠ 0) m₁
  have hstep' : yyStep T env m = if (yyRecover T env m.lookahead (m.suppressErr - 1 ≠ 0) m₁).1 = 0
      then
      .inr (.abort { (yyRecover T env m.lookahead (m.suppressErr - 1 ≠ 0) m₁).2 with
        lookahead := (yyRecover T env m.lookahead (m.suppressErr - 1 ≠ 0) m₁).1 })
      else .inl { (yyRecover T env m.lookahead (m.suppressErr - 1 ≠ 0) m₁).2 with
        lookahead := (yyRecover T env m.lookahead (m.suppressErr - 1 ≠ 0) m₁).1,
        suppressErr := env.yycascade } := by
    unfold yyStep
    rw [herr, hm₁]
    rfl
  rw [hstep, hrec] at hstep'
  have hlist : lrStep T (lrEnv T env m) m.toYyState = Parser.yyRecover T (lrEnv T env m)
      { m.toYyState with suppressErr := m.suppressErr - 1 } := by
    unfold lrStep
    dsimp only
    rw [if_neg hnil, h.actNum_eq, herr, if_pos rfl]
    rfl
  have hyynerrs' : yynerrs = if m.suppressErr - 1 = 0 then m.yynerrs + 1 else m.yynerrs := by
    rw [hyynerrs, hm₁]
    by_cases hsup : m.suppressErr - 1 = 0 <;> simp [hsup]
  by_cases hlimit : decide (m.suppressErr - 1 ≠ 0) = false ∧ env.yymaxerr < yynerrs
  · rw [if_pos hlimit] at hstep'
    cases hstep'
  · rw [if_neg hlimit] at hstep'
    have hlimit' : ¬ (m.suppressErr - 1 = 0 ∧ env.yymaxerr < yynerrs) := fun hl =>
      hlimit ⟨by simpa using hl.1, hl.2⟩
    rcases recoverLoop_spec T m.lookahead m₁.rest { m₁ with yynerrs := yynerrs } with
      ⟨t, k, rest', hempty, hloop, heq⟩ | ⟨-, rest', heq⟩
    · have heq' : recoverLoop T m₁.yyStack.sp m.lookahead m₁.rest { m₁ with yynerrs := yynerrs } =
        _ := heq
      rw [heq'] at hstep'
      dsimp only at hstep'
      by_cases ht : t = 0
      · rw [if_pos ht] at hstep'
        cases hstep'
      · rw [if_neg ht, Sum.inl.injEq] at hstep'
        subst hm₁
        subst hstep'
        refine ⟨?_, ⟨h.size, ?_, ?_, rfl⟩, k, rfl, rfl⟩
        · rw [hlist]
          unfold Parser.yyRecover
          dsimp only
          rw [if_neg (by rw [hyynerrs'] at hlimit'; exact hlimit')]
          have hloop' : yyRecoverLoop T m.toYyState.stack m.toYyState.lookahead m.toYyState.rest =
            _ := hloop
          rw [hloop']
          dsimp only
          rw [if_neg ht, hyynerrs']
          rfl
        · change 0 ≤ m.yyStack.sp + k
          have := h.nonneg
          omega
        · change m.yyStack.sp + k < m.yyStack.size
          unfold YyStack.Empty at hempty
          exact Int.not_le.mp hempty
    · have heq' : recoverLoop T m₁.yyStack.sp m.lookahead m₁.rest { m₁ with yynerrs := yynerrs } =
        _ := heq
      rw [heq'] at hstep'
      cases hstep'

/-- The memory after a shift: a state and a value pushed, and the next token read. -/
def shifted (T : YyTables) (env : YyEnv V) (m : YyMem V) : YyMem V := { m with
  yyStack := m.yyStack.push_ (m.actNum T).toNat
  yyVstack := Function.update m.yyVstack (m.yyVsp - 1) (env.yylval m.trace m.lookahead)
  yyVsp := m.yyVsp - 1
  lookahead := (yyNextToken m.rest).1
  rest := (yyNextToken m.rest).2
  suppressErr := m.suppressErr - 1
  trace := m.trace ++ [LrEvent.shift m.lookahead] }

/-- The production that a round reduces, from the negative entry of the table. -/
def prodNum (T : YyTables) (m : YyMem V) : ℕ := (-m.actNum T).toNat

/-- The memory after a reduction: the right-hand side popped, and one state and value pushed. -/
def reduced (T : YyTables) (env : YyEnv V) (m : YyMem V) : YyMem V := { m with
  yyStack := (m.yyStack.popn_ (T.reduce (m.prodNum T))).push_
    (chainNext T.goto ((m.yyStack.popn_ (T.reduce (m.prodNum T))).item 0)
    (T.lhs (m.prodNum T))).toNat
  yyVstack :=
    Function.update m.yyVstack (m.yyVsp + T.reduce (m.prodNum T) - 1) (m.act T env (m.prodNum T)).2
  yyVsp := m.yyVsp + T.reduce (m.prodNum T) - 1
  yyVal := (m.act T env (m.prodNum T)).2
  suppressErr := m.suppressErr - 1
  trace := m.trace ++ [LrEvent.reduce (m.prodNum T)] }

/-- A round that shifts is a round of `lrStep` and keeps the stacks aligned. -/
lemma Aligned.shift (h : Aligned env m) (hne : m.actNum T ≠ yyF) (hpos : 0 < m.actNum T) :
    (m.yyStack.Full ∧ yyStep T env m = .inr .overflow) ∨
      ¬ m.yyStack.Full ∧ yyStep T env m = .inl (m.shifted T env) ∧ Aligned env (m.shifted T env) ∧
        lrStep T (lrEnv T env m) m.toYyState = .inl (m.shifted T env).toYyState := by
  have hm : Aligned env { m with suppressErr := m.suppressErr - 1 } :=
    ⟨h.size, h.nonneg, h.lt, h.vsp⟩
  unfold yyStep
  dsimp only
  rw [if_neg hne, if_pos hpos]
  rcases hm.yyShift (m.actNum T).toNat with ⟨hfull, hshift⟩ | ⟨hfull, hshift⟩
  · rw [hshift]
    exact .inl ⟨hfull, rfl⟩
  · rw [hshift]
    have hfull' : ¬ m.yyStack.Full := hfull
    unfold YyStack.Full at hfull'
    obtain ⟨hsize, hnonneg, hlt, hvsp⟩ := h
    refine .inr ⟨hfull, rfl, ⟨hsize, ?_, ?_, congrArg (· - 1) hvsp⟩, ?_⟩
    · change 0 ≤ m.yyStack.sp - 1
      omega
    · change m.yyStack.sp - 1 < m.yyStack.size
      omega
    · have h : Aligned env m := ⟨hsize, hnonneg, hlt, hvsp⟩
      have hlen := h.length_toList
      unfold lrStep
      dsimp only
      rw [if_neg
        (by change m.yyStack.toList ≠ []; rw [h.toList_eq_cons]; exact List.cons_ne_nil _ _),
        h.actNum_eq, if_neg hne, if_pos hpos]
      unfold Parser.yyShift
      dsimp only
      rw [if_neg (by change ¬ env.yymaxdepth ≤ m.yyStack.toList.length; omega)]
      unfold toYyState shifted
      dsimp only
      rw [YyStack.toList_push_ hlt.le]

/-- A round that reduces is a round of `lrStep` and keeps the stacks aligned. -/
lemma Aligned.reduce (h : Aligned env m) (hne : m.actNum T ≠ yyF) (hpos : ¬ 0 < m.actNum T) :
    ((m.act T env (m.prodNum T)).1 ≠ 0 ∧
    ∃ m', yyStep T env m = .inr (.returns (m.act T env (m.prodNum T)).1 m')) ∨
    ((m.act T env (m.prodNum T)).1 = 0 ∧ m.prodNum T = 0 ∧
    ∃ m', yyStep T env m = .inr (.accept m')) ∨
      ((m.act T env (m.prodNum T)).1 = 0 ∧ m.prodNum T ≠ 0 ∧
      ((m.yyStack.ele < T.reduce (m.prodNum T) ∧ yyStep T env m = .inr .underflow) ∨
      (m.yyStack.Full ∧ T.reduce (m.prodNum T) = 0 ∧ yyStep T env m = .inr .strayWrite) ∨
      (T.reduce (m.prodNum T) ≤ m.yyStack.ele ∧ ¬ (m.yyStack.Full ∧ T.reduce (m.prodNum T) = 0) ∧
        yyStep T env m = .inl (m.reduced T env) ∧ Aligned env (m.reduced T env)))) := by
  unfold yyStep
  dsimp only
  rw [if_neg hne, if_neg hpos]
  have hact : (act T env (-m.actNum T).toNat { m with suppressErr := m.suppressErr - 1 }) =
    m.act T env (m.prodNum T) := rfl
  rw [hact]
  by_cases hcode : (m.act T env (m.prodNum T)).1 ≠ 0
  · rw [if_pos hcode]
    exact .inl ⟨hcode, _, rfl⟩
  · rw [if_neg hcode]
    right
    rw [not_not] at hcode
    by_cases hnum : m.prodNum T = 0
    · have hnum' : (-m.actNum T).toNat = 0 := hnum
      rw [if_pos hnum']
      exact .inl ⟨hcode, hnum, _, rfl⟩
    · have hnum' : ¬ (-m.actNum T).toNat = 0 := hnum
      rw [if_neg hnum']
      refine .inr ⟨hcode, hnum, ?_⟩
      have hm :
          Aligned env { m with
            suppressErr := m.suppressErr - 1, yyVal := (m.act T env (m.prodNum T)).2 } :=
        ⟨h.size, h.nonneg, h.lt, h.vsp⟩
      have hcases := hm.yyReduce (T := T) (m.prodNum T) (T.reduce (m.prodNum T))
      change (_ ∧ YyMem.yyReduce T (-m.actNum T).toNat (T.reduce (-m.actNum T).toNat) _ = _) ∨
        _ at hcases
      rcases hcases with ⟨hele, hreduce⟩ | ⟨hfull, hamount, hreduce⟩ | ⟨hele, hfull, hreduce⟩
      · rw [hreduce]
        exact .inl ⟨hele, rfl⟩
      · have hreduce' : YyMem.yyReduce T (-m.actNum T).toNat (T.reduce (-m.actNum T).toNat) _ = _ :=
          hreduce
        rw [hreduce']
        exact .inr (.inl ⟨hfull, hamount, rfl⟩)
      · have hreduce' : YyMem.yyReduce T (-m.actNum T).toNat (T.reduce (-m.actNum T).toNat) _ = _ :=
          hreduce
        rw [hreduce']
        have hele' : (T.reduce (m.prodNum T) : ℤ) ≤ m.yyStack.size - m.yyStack.sp := hele
        have hfull' : ¬ (m.yyStack.sp ≤ 0 ∧ T.reduce (m.prodNum T) = 0) := hfull
        obtain ⟨hsize, hnonneg, hlt, hvsp⟩ := h
        refine .inr (.inr ⟨hele, hfull, rfl, hsize, ?_, ?_, ?_⟩)
        · change 0 ≤ m.yyStack.sp + T.reduce (m.prodNum T) - 1
          omega
        · change m.yyStack.sp + T.reduce (m.prodNum T) - 1 < m.yyStack.size
          omega
        · change m.yyVsp + T.reduce (m.prodNum T) - 1 = m.yyStack.sp + T.reduce (m.prodNum T) - 1
          rw [hvsp]

/-- A reduction that leaves a state on the stack is one of `lrStep`. -/
lemma Aligned.lrStep_reduce (h : Aligned env m) (hne : m.actNum T ≠ yyF) (hpos : ¬ 0 < m.actNum T)
    (hcode : (m.act T env (m.prodNum T)).1 = 0) (hnum : m.prodNum T ≠ 0)
    (hele : (T.reduce (m.prodNum T) : ℤ) < m.yyStack.ele)
    (hfull : ¬ (m.yyStack.Full ∧ T.reduce (m.prodNum T) = 0)) :
    lrStep T (lrEnv T env m) m.toYyState = .inl (m.reduced T env).toYyState := by
  have hlen := h.length_toList
  have hele' : (T.reduce (m.prodNum T) : ℤ) < m.yyStack.size - m.yyStack.sp := hele
  have hfull' : ¬ (m.yyStack.sp ≤ 0 ∧ T.reduce (m.prodNum T) = 0) := hfull
  have hsize := h.size
  have hnonneg := h.nonneg
  have hne' : ¬ (m.yyStack.popn_ (T.reduce (m.prodNum T))).Empty := by
    change ¬ (m.yyStack.size : ℤ) ≤ m.yyStack.sp + T.reduce (m.prodNum T)
    omega
  have hdrop := YyStack.toList_eq_cons hne'
  rw [YyStack.toList_popn_] at hdrop
  have hpush : (m.reduced T env).yyStack.toList =
      (chainNext T.goto ((m.yyStack.popn_ (T.reduce (m.prodNum T))).item 0)
      (T.lhs (m.prodNum T))).toNat ::
        (m.yyStack.popn_ (T.reduce (m.prodNum T))).toList := by
    refine YyStack.toList_push_ ?_ _
    change m.yyStack.sp + T.reduce (m.prodNum T) ≤ m.yyStack.size
    omega
  have hlen' := congrArg List.length hdrop
  rw [List.length_drop, List.length_cons] at hlen'
  unfold lrStep
  dsimp only
  rw [if_neg (by change m.yyStack.toList ≠ []; rw [h.toList_eq_cons]; exact List.cons_ne_nil _ _),
    h.actNum_eq, if_neg hne, if_neg hpos]
  change (if (m.act T env (m.prodNum T)).1 ≠ 0 then _ else if m.prodNum T = 0 then _
    else Parser.yyReduce T _ (m.prodNum T) (T.reduce (m.prodNum T)) _) = _
  rw [if_neg (not_not.mpr hcode), if_neg hnum]
  unfold Parser.yyReduce
  dsimp only
  have hstack : m.toYyState.stack = m.yyStack.toList := rfl
  rw [hstack, if_neg (by omega), hdrop]
  dsimp only
  rw [if_neg (by change ¬ env.yymaxdepth ≤ _; rw [List.length_cons]; omega)]
  unfold toYyState
  dsimp only
  rw [hpush, YyStack.toList_popn_, hdrop]
  rfl

/-- A round that goes on is a round of `lrStep`, as long as a reduction leaves a state on the stack
for the look-up in the goto table. -/
theorem Aligned.lrStep_eq (h : Aligned env m) (hstep : yyStep T env m = .inl m')
    (hele : m.actNum T ≠ yyF → ¬ 0 < m.actNum T → (T.reduce (m.prodNum T) : ℤ) < m.yyStack.ele) :
    lrStep T (lrEnv T env m) m.toYyState = .inl m'.toYyState := by
  by_cases hne : m.actNum T = yyF
  · exact (h.recover hne hstep).1
  by_cases hpos : 0 < m.actNum T
  · rcases h.shift hne hpos with ⟨-, hover⟩ | ⟨-, hshift, -, hlr⟩
    · rw [hover] at hstep
      cases hstep
    · rw [hshift] at hstep
      cases hstep
      exact hlr
  · rcases h.reduce hne hpos with ⟨-, m₁, hret⟩ | ⟨-, -, m₁, hacc⟩ | ⟨hcode, hnum, hred⟩
    · rw [hret] at hstep
      cases hstep
    · rw [hacc] at hstep
      cases hstep
    · rcases hred with ⟨-, hunder⟩ | ⟨-, -, hstray⟩ | ⟨-, hfull, hreduced, -⟩
      · rw [hunder] at hstep
        cases hstep
      · rw [hstray] at hstep
        cases hstep
      · rw [hreduced] at hstep
        cases hstep
        exact h.lrStep_reduce hne hpos hcode hnum (hele hne hpos) hfull

/-! ## Writes outside the arrays -/

/-- The round reduces a production whose right-hand side is empty while the stack is full. -/
def ReducesEmptyOnFull (T : YyTables) (env : YyEnv V) (m : YyMem V) : Prop :=
  m.yyStack.Full ∧ m.actNum T ≠ yyF ∧ m.actNum T < 0 ∧ T.reduce (m.prodNum T) = 0 ∧
    (m.act T env (m.prodNum T)).1 = 0

/-- The number of the production that a round reduces is not 0 exactly for a negative entry. -/
lemma prodNum_ne_zero (hpos : ¬ 0 < m.actNum T) : m.prodNum T ≠ 0 ↔ m.actNum T < 0 := by
  unfold prodNum
  omega

/-- A round writes within the arrays, except for this reduction. -/
lemma Aligned.step (h : Aligned env m) : (∀ m', yyStep T env m = .inl m' → Aligned env m') ∧
    (yyStep T env m = .inr .strayWrite ↔ m.ReducesEmptyOnFull T env) := by
  by_cases hne : m.actNum T = yyF
  · refine ⟨fun m' hstep => (h.recover hne hstep).2.1, fun hstep => ?_, fun hred =>
      absurd hne hred.2.1⟩
    unfold yyStep at hstep
    dsimp only at hstep
    rw [if_pos hne] at hstep
    split at hstep <;> cases hstep
  · by_cases hpos : 0 < m.actNum T
    · have hnot : ¬ m.ReducesEmptyOnFull T env := fun hred => absurd hpos hred.2.2.1.not_gt
      rcases h.shift hne hpos with ⟨-, hstep⟩ | ⟨-, hstep, halign, -⟩
      · rw [hstep]
        exact ⟨fun m' h => absurd h Sum.inr_ne_inl, fun h => (nomatch h), fun h => absurd h hnot⟩
      · rw [hstep]
        refine ⟨fun m' h => ?_, fun h => absurd h Sum.inl_ne_inr, fun h => absurd h hnot⟩
        cases h
        exact halign
    · rcases h.reduce hne hpos with ⟨hcode, m₁, hstep⟩ | ⟨-, hnum, m₁, hstep⟩ | ⟨hcode, hnum, hred⟩
      · rw [hstep]
        exact ⟨fun m' h => absurd h Sum.inr_ne_inl, fun h => (nomatch h),
          fun h => absurd h.2.2.2.2 hcode⟩
      · rw [hstep]
        refine ⟨fun m' h => absurd h Sum.inr_ne_inl, fun h => (nomatch h), fun h => ?_⟩
        exact absurd hnum ((prodNum_ne_zero hpos).mpr h.2.2.1)
      · rcases hred with ⟨hele, hstep⟩ | ⟨hfull, hamount, hstep⟩ | ⟨-, hfull, hstep, halign⟩
        · rw [hstep]
          refine ⟨fun m' h => absurd h Sum.inr_ne_inl, fun h => (nomatch h), fun hred => ?_⟩
          have hlt := h.lt
          rw [hred.2.2.2.1] at hele
          unfold YyStack.ele at hele
          omega
        · rw [hstep]
          exact ⟨fun m' h => absurd h Sum.inr_ne_inl,
            fun _ => ⟨hfull, hne, (prodNum_ne_zero hpos).mp hnum, hamount, hcode⟩, fun _ => rfl⟩
        · rw [hstep]
          refine ⟨fun m' h => ?_, fun h => absurd h Sum.inl_ne_inr, fun hred =>
            absurd ⟨hred.1, hred.2.2.2.1⟩ hfull⟩
          cases h
          exact halign

/-- The pointers move together in every state of a run. -/
lemma aligned_of_reaches (hdepth : 0 < env.yymaxdepth) {g : Garbage V} {input : List ℕ}
    (h : Reaches (yyStep T env) (yyInit env g input) m) : Aligned env m :=
  h.invariant (Aligned env) (fun _ _ hs hstep => hs.step.1 _ hstep) (aligned_yyInit hdepth g input)

/-- A run writes within the arrays if it never reduces a production whose right-hand side is empty
while the stack is full. -/
theorem yyParse_ne_strayWrite_iff (T : YyTables) (env : YyEnv V) (g : Garbage V) (input : List ℕ) :
    (∀ n, yyParse T env g input n ≠ some .strayWrite) ↔ 0 < env.yymaxdepth ∧
      ∀ m, Reaches (yyStep T env) (yyInit env g input) m → ¬ m.ReducesEmptyOnFull T env := by
  by_cases hdepth : env.yymaxdepth = 0
  · exact ⟨fun h => absurd (if_pos hdepth) (h 0), fun h => absurd hdepth h.1.ne'⟩
  · have hpos := Nat.pos_of_ne_zero hdepth
    have hparse : ∀ n, yyParse T env g input n = run (yyStep T env) n (yyInit env g input) :=
      fun n => if_neg hdepth
    constructor
    · refine fun hrun => ⟨hpos, fun m hm hred => ?_⟩
      obtain ⟨n, hn⟩ := hm.run ((aligned_of_reaches hpos hm).step.2.mpr hred)
      exact hrun n ((hparse n).trans hn)
    · rintro ⟨-, hall⟩ n hn
      obtain ⟨m, hm, hlast⟩ := run_spec ((hparse n).symm.trans hn)
      exact hall m hm ((aligned_of_reaches hpos hm).step.2.mp hlast)

end YyMem

namespace Grammar

/-- `s : a ; a : X a | ;` with `X = 1`, `s = 256`, `a = 257`. -/
def deepGrammar : Grammar := SymbolTable.grammar
  { prods := [⟨0, 256, [257], 0⟩, ⟨1, 257, [1, 257], 0⟩, ⟨2, 257, [], 0⟩]
    currterm := 1
    currnonterm := 257
    curract := 511
    goalSymbol := 256 } (by decide)

/-- The symbol table of `deepGrammar`, walked by value. -/
def deepWalk : deepGrammar.Walk := deepGrammar.valueWalk

/-- The automaton that `lr` builds for `deepGrammar`. -/
def deepAutomaton : Automaton := (deepGrammar.lr (firstSets deepWalk) 10).getD .empty

/-- The tables that occs prints for `deepGrammar`. -/
def deepTables : YyTables := deepGrammar.yyTables deepAutomaton
  (deepAutomaton.reductions (fun _ => ⟨0, 'n'⟩) 0 (List.range deepAutomaton.nstates))

/-- For `deepGrammar` and a stack of three elements the input `X X` fills the stack, and the
reduction of `a : ;` writes below the arrays. -/
theorem not_yyParse_deepGrammar : deepGrammar.lr (firstSets deepWalk) 10 = some deepAutomaton ∧
    ¬ ∀ n, YyMem.yyParse deepTables (⟨3, 25, 5, fun _ _ => (), fun _ _ _ _ => (0, ())⟩ : YyEnv Unit)
      ⟨fun _ => 0, fun _ => (), ()⟩ [1, 1] n ≠ some .strayWrite := by
  constructor
  · have hsome : (deepGrammar.lr (firstSets deepWalk) 10).isSome := by decide +kernel
    obtain ⟨A, hA⟩ := Option.isSome_iff_exists.mp hsome
    rw [deepAutomaton, hA, Option.getD_some]
  · have hstray : YyEnd.isStrayWrite (YyMem.yyParse deepTables
        (⟨3, 25, 5, fun _ _ => (), fun _ _ _ _ => (0, ())⟩ : YyEnv Unit)
        ⟨fun _ => 0, fun _ => (), ()⟩ [1, 1] 5) = true := by decide +kernel
    exact fun hall => hall 5 (YyEnd.eq_of_isStrayWrite hstray)

end Grammar

end Parser
