import Cgkits.Parser.LlDriver

/-!
# Error recovery of the LL(1) driver (`llama.m`)

The driver keeps a stack of values beside its stack of symbols; what a value is has no influence on
the parser, but the pointer `Yy_vsp` must follow the stack.  `LlMem` is the state of the driver with
this pointer, and `llmStep` is `llStep` with the changes that `yy_push` and `yy_pop` make to it
(`llmStep_toLlState`).

`synch` pops symbols until there is a synchronization token on top and then reads tokens until this
one is found.  So the next round matches a token, and the number of errors of a run is bounded
(`llRecovery`).
-/

namespace Parser

open Machine

/-- The state of `yyparse`, with the pointer into the stack of values. -/
structure LlMem extends LlState where
  /-- `Yy_vsp - Yy_vstack`, the index of the top value. -/
  vsp : ℤ

/-- The loop of `yy_synch` that calls `yy_pop`. -/
def synchPop (env : LlEnv) : List ℕ → ℤ → List ℕ × ℤ
  | [], vsp => ([], vsp)
  | tok :: stack, vsp =>
    if yyInSynch tok env.yySynchTab then (tok :: stack, vsp) else synchPop env stack (vsp + 1)

/-- `yy_synch` counts the error, pops to a symbol of the synchronization set and skips tokens. -/
def synch (env : LlEnv) (m : LlMem) : LlMem :=
  let m := { m with yynerrs := m.yynerrs + 1, trace := m.trace ++ [LlEvent.synch] }
  if m.yynerrs > env.yymaxerr then { m with lookahead := 0 }
  else
    match synchPop env m.stack m.vsp with
    | ([], vsp) => { m with stack := [], vsp := vsp, lookahead := 0 }
    | (tok :: stack, vsp) =>
      let (lookahead, rest) := skipTo tok m.lookahead m.rest
      { m with stack := tok :: stack, vsp := vsp, lookahead := lookahead, rest := rest }

/-- The loop that calls `yy_push` for every symbol of a row, up to the 0 that ends it. -/
def pushAll (yymaxdepth : ℕ) : List ℕ → List ℕ → ℤ → Option (List ℕ × ℤ)
  | [], stack, vsp => some (stack, vsp)
  | p :: row, stack, vsp =>
    if p = 0 then some (stack, vsp)
    else if yymaxdepth ≤ stack.length then none
    else pushAll yymaxdepth row (p :: stack) (vsp - 1)

namespace Grammar

variable {G : Grammar}

/-- An error: the parser recovers, or gives up and returns 1. -/
def llmError (env : LlEnv) (m : LlMem) : LlMem ⊕ LlResult :=
  let m := synch env m
  if m.lookahead = 0 then .inr (.returns 1 m.toLlState) else .inl m

/-- One round of the loop of `yyparse`: an action, an expansion, a match or an error. -/
def llmStep (w : G.Walk) (env : LlEnv) (m : LlMem) : LlMem ⊕ LlResult :=
  match m.stack with
  | [] => .inr (.returns 0 m.toLlState)
  | tos :: stack =>
    if IsAct tos then
      let errcode := env.yyAct m.trace tos
      let m := { m with trace := m.trace ++ [LlEvent.action tos] }
      if errcode ≠ 0 then .inr (.returns errcode m.toLlState) else
        .inl { m with stack := stack, vsp := m.vsp + 1 }
    else if minTerm ≤ tos ∧ tos ≤ G.currterm then
      if tos ≠ m.lookahead then llmError env m
      else
        let (lookahead, rest) := yyNextToken m.rest
        .inl { m with stack := stack, vsp := m.vsp + 1, lookahead := lookahead, rest := rest,
                      trace := m.trace ++ [LlEvent.advance tos] }
    else
      let prod := yyNext w tos m.lookahead
      if prod = -1 then llmError env m
      else
        match pushAll env.yymaxdepth (G.yyPushtab prod.toNat) stack (m.vsp + 1) with
        | none => .inr .overflow
        | some (stack, vsp) =>
          .inl { m with
            stack := stack, vsp := vsp, trace := m.trace ++ [LlEvent.replace prod.toNat] }

/-- The state in which the loop starts: the goal symbol has been pushed. -/
def llmInit (env : LlEnv) (input : List G.Token) : LlMem := ⟨llInit input, env.yymaxdepth - 1⟩

/-- `yyparse`, with the pointers to both stacks, cut off after `n` rounds. -/
def llmParse (w : G.Walk) (env : LlEnv) (input : List G.Token) (n : ℕ) : Option LlResult :=
  if env.yymaxdepth ≤ 0 then some .overflow else run (llmStep w env) n (llmInit env input)

end Grammar

/-! ## The pointer -/

/-- The stack and the stack of values have the same height. -/
def LlMem.Aligned (yymaxdepth : ℕ) (m : LlMem) : Prop := m.vsp + m.stack.length = yymaxdepth

/-- The symbols popped are those above the first that is in the set, one value with each. -/
lemma synchPop_eq (env : LlEnv) (stack : List ℕ) (vsp : ℤ) :
    (synchPop env stack vsp).1 = stack.dropWhile (fun x => !yyInSynch x env.yySynchTab) ∧
      (synchPop env stack vsp).2 + (synchPop env stack vsp).1.length = vsp + stack.length := by
  induction stack generalizing vsp with
  | nil => exact ⟨rfl, rfl⟩
  | cons tok stack ih =>
    unfold synchPop
    by_cases hin : yyInSynch tok env.yySynchTab
    · rw [if_pos hin, List.dropWhile_cons_of_neg (by simpa using hin)]
      exact ⟨rfl, rfl⟩
    · obtain ⟨hstack, hvsp⟩ := ih (vsp + 1)
      rw [if_neg hin, List.dropWhile_cons_of_pos (by simpa using hin)]
      refine ⟨hstack, ?_⟩
      rw [hvsp, List.length_cons]
      push_cast
      omega

/-- The symbols pushed are those of `yyPushAll`, one value with each. -/
lemma pushAll_eq (n : ℕ) (row stack : List ℕ) (vsp : ℤ) :
    (pushAll n row stack vsp).map Prod.fst = yyPushAll n row stack ∧
      ∀ stack' vsp', pushAll n row stack vsp = some (stack', vsp') →
        vsp' + stack'.length = vsp + stack.length := by
  induction row generalizing stack vsp with
  | nil =>
    refine ⟨rfl, ?_⟩
    intro stack' vsp' h
    cases h
    rfl
  | cons p row ih =>
    unfold pushAll yyPushAll
    by_cases hp : p = 0
    · rw [if_pos hp, if_pos hp]
      refine ⟨rfl, ?_⟩
      intro stack' vsp' h
      cases h
      rfl
    · rw [if_neg hp, if_neg hp]
      by_cases hfull : n ≤ stack.length
      · rw [if_pos hfull, if_pos hfull]
        refine ⟨rfl, ?_⟩
        intro stack' vsp' h
        cases h
      · obtain ⟨hmap, hvsp⟩ := ih (p :: stack) (vsp - 1)
        rw [if_neg hfull, if_neg hfull]
        refine ⟨hmap, ?_⟩
        intro stack' vsp' h
        rw [hvsp stack' vsp' h, List.length_cons]
        push_cast
        omega

/-- `synch` is `yySynch` with the pointer, which keeps its distance to the stack. -/
lemma synch_toLlState (env : LlEnv) (m : LlMem) :
    (synch env m).toLlState = yySynch env m.toLlState ∧
    (synch env m).vsp + (synch env m).stack.length = m.vsp + m.stack.length := by
  obtain ⟨hstack, hvsp⟩ := synchPop_eq env m.stack m.vsp
  unfold synch yySynch
  dsimp only
  by_cases herr : m.yynerrs + 1 > env.yymaxerr
  · rw [if_pos herr, if_pos herr]
    exact ⟨rfl, rfl⟩
  · rw [if_neg herr, if_neg herr]
    rw [← hstack]
    rcases hpop : synchPop env m.stack m.vsp with ⟨_ | ⟨tok, stack⟩, vsp⟩
    · rw [hpop] at hvsp
      exact ⟨rfl, hvsp⟩
    · rw [hpop] at hvsp
      exact ⟨rfl, hvsp⟩

namespace Grammar

variable {G : Grammar} {w : G.Walk} {env : LlEnv} {m m' : LlMem}

/-- An error is handled as in `llStep`, and the pointer keeps its distance to the stack. -/
lemma llmError_toLlState (env : LlEnv) (m : LlMem) :
    (∀ m', llmError env m = .inl m' → llError env m.toLlState = .inl m'.toLlState ∧
      m'.vsp + m'.stack.length = m.vsp + m.stack.length) ∧
    ∀ r, llmError env m = .inr r → llError env m.toLlState = .inr r := by
  obtain ⟨hsynch, hvsp⟩ := synch_toLlState env m
  unfold llmError llError
  dsimp only
  rw [← hsynch]
  split
  · exact ⟨fun m' h => absurd h Sum.inr_ne_inl, fun r h => congrArg Sum.inr (Sum.inr.inj h)⟩
  · refine ⟨fun m' h => ?_, fun r h => absurd h Sum.inl_ne_inr⟩
    cases h
    exact ⟨rfl, hvsp⟩

/-- A round of `llmStep` is a round of `llStep`, and the pointer follows the stack. -/
lemma llmStep_toLlState (w : G.Walk) (env : LlEnv) (m : LlMem) :
    (∀ m', llmStep w env m = .inl m' → llStep w env m.toLlState = .inl m'.toLlState ∧
      m'.vsp + m'.stack.length = m.vsp + m.stack.length) ∧
    ∀ r, llmStep w env m = .inr r → llStep w env m.toLlState = .inr r := by
  obtain ⟨herr, herr'⟩ := llmError_toLlState env m
  obtain ⟨⟨stack, lookahead, rest, yynerrs, trace⟩, vsp⟩ := m
  rcases stack with _ | ⟨tos, stack⟩
  · exact ⟨fun m' h => absurd h Sum.inr_ne_inl, fun r h => congrArg Sum.inr (Sum.inr.inj h)⟩
  · unfold llmStep llStep
    dsimp only
    by_cases hact : IsAct tos
    · rw [if_pos hact, if_pos hact]
      split
      · exact ⟨fun m' h => absurd h Sum.inr_ne_inl, fun r h => congrArg Sum.inr (Sum.inr.inj h)⟩
      · refine ⟨fun m' h => ?_, fun r h => absurd h Sum.inl_ne_inr⟩
        cases h
        refine ⟨rfl, ?_⟩
        dsimp only
        rw [List.length_cons]
        push_cast
        omega
    · rw [if_neg hact, if_neg hact]
      by_cases hterm : minTerm ≤ tos ∧ tos ≤ G.currterm
      · rw [if_pos hterm, if_pos hterm]
        split
        · exact ⟨herr, herr'⟩
        · refine ⟨fun m' h => ?_, fun r h => absurd h Sum.inl_ne_inr⟩
          cases h
          refine ⟨rfl, ?_⟩
          dsimp only
          rw [List.length_cons]
          push_cast
          omega
      · rw [if_neg hterm, if_neg hterm]
        split
        · exact ⟨herr, herr'⟩
        · obtain ⟨hmap, hvsp⟩ :=
            pushAll_eq env.yymaxdepth (G.yyPushtab (yyNext w tos lookahead).toNat) stack (vsp + 1)
          rw [← hmap]
          rcases hpush :
              pushAll env.yymaxdepth (G.yyPushtab (yyNext w tos lookahead).toNat) stack (vsp + 1)
              with
            _ | ⟨stack', vsp'⟩
          · exact ⟨fun m' h => absurd h Sum.inr_ne_inl, fun r h => congrArg Sum.inr (Sum.inr.inj h)⟩
          · refine ⟨fun m' h => ?_, fun r h => absurd h Sum.inl_ne_inr⟩
            cases h
            refine ⟨rfl, ?_⟩
            dsimp only
            rw [hvsp stack' vsp' hpush, List.length_cons]
            push_cast
            omega

end Grammar

/-! ## One recovery -/

/-- A symbol that `yy_in_synch` finds is a synchronization token. -/
lemma mem_synch_of_yyInSynch {env : LlEnv} {sym : ℕ} (h : yyInSynch sym env.yySynchTab) :
    sym ∈ env.synch := by
  have hmem : ∀ tab : List ℤ, yyInSynch sym tab → (sym : ℤ) ∈ tab ∧ 0 < sym := by
    intro tab
    induction tab with
    | nil =>
      intro h
      cases h
    | cons p tab ih =>
      intro h
      unfold yyInSynch at h
      split at h
      · split at h
        · exact ⟨by rw [← ‹p = (sym : ℤ)›]; exact List.mem_cons_self, by omega⟩
        · exact ⟨List.mem_cons_of_mem _ (ih h).1, (ih h).2⟩
      · cases h
  obtain ⟨htab, hpos⟩ := hmem _ h
  unfold LlEnv.yySynchTab at htab
  rcases List.mem_append.mp htab with htab | htab
  · split at htab
    · rw [List.mem_singleton, Nat.cast_inj] at htab
      rw [htab] at hpos
      exact absurd hpos (lt_irrefl _)
    · obtain ⟨t, ht, heq⟩ := List.mem_map.mp htab
      rw [← Nat.cast_inj.mp heq]
      exact (Finset.mem_sort _).mp ht
  · rw [List.mem_singleton] at htab
    omega

/-- Tokens are skipped until the lookahead is `tok`, and no token in front of it is kept. -/
lemma skipTo_spec (tok lookahead : ℕ) (rest : List ℕ) (h : (skipTo tok lookahead rest).1 ≠ 0) :
    (skipTo tok lookahead rest).1 = tok ∧
      ∃ dropped, lookahead :: rest = dropped ++ (skipTo tok lookahead rest).1 ::
        (skipTo tok lookahead rest).2 := by
  induction rest generalizing lookahead with
  | nil =>
    unfold skipTo at h ⊢
    split
    · rw [if_pos ‹_›] at h
      exact absurd rfl h
    · rw [if_neg ‹_›] at h
      exact ⟨by tauto, [], rfl⟩
  | cons t rest ih =>
    unfold skipTo at h ⊢
    split
    · rw [if_pos ‹_›] at h
      obtain ⟨htok, dropped, hdrop⟩ := ih t h
      exact ⟨htok, lookahead :: dropped, congrArg (lookahead :: ·) hdrop⟩
    · rw [if_neg ‹_›] at h
      exact ⟨by tauto, [], rfl⟩

/-- What a recovery does that returns a token: the token is a synchronization token and the top of
the stack, only a top part of the stack and a first part of the remaining tokens are dropped, and
the pointer follows the stack. -/
structure Synchronized (env : LlEnv) (m m' : LlMem) : Prop where
  /-- The lookahead is on top of the stack. -/
  top : ∃ stack, m'.stack = m'.lookahead :: stack
  /-- The lookahead is a synchronization token. -/
  mem_synch : m'.lookahead ∈ env.synch
  /-- What is left of the stack. -/
  stack : m'.stack <:+ m.stack
  /-- What is left of the tokens. -/
  rest : ∃ dropped, m.lookahead :: m.rest = dropped ++ m'.lookahead :: m'.rest
  /-- The pointer keeps its distance to the stack. -/
  vsp : m'.vsp + m'.stack.length = m.vsp + m.stack.length

/-- A recovery that returns a token has synchronized the stack with it. -/
lemma synchronized_synch {env : LlEnv} {m : LlMem} (h : (synch env m).lookahead ≠ 0) :
    Synchronized env m (synch env m) := by
  obtain ⟨hstate, hvsp⟩ := synch_toLlState env m
  obtain ⟨hstack, -⟩ := synchPop_eq env m.stack m.vsp
  have hsuffix : (synchPop env m.stack m.vsp).1 <:+ m.stack := hstack ▸ List.dropWhile_suffix _
  have hhead : ∀ tok stack, (synchPop env m.stack m.vsp).1 = tok :: stack → tok ∈ env.synch := by
    intro tok stack heq
    rw [hstack] at heq
    have hne : m.stack.dropWhile (fun x => !yyInSynch x env.yySynchTab) ≠ [] := by
      rw [heq]
      exact List.cons_ne_nil tok stack
    have hnot := List.head_dropWhile_not (fun x => !yyInSynch x env.yySynchTab) hne
    simp only [heq, List.head_cons, Bool.not_eq_false'] at hnot
    exact mem_synch_of_yyInSynch hnot
  unfold synch at h hvsp ⊢
  dsimp only at h hvsp ⊢
  split at h
  · exact absurd rfl h
  · rw [if_neg ‹_›] at hvsp ⊢
    rcases hpop : synchPop env m.stack m.vsp with ⟨_ | ⟨tok, stack⟩, vsp⟩
    · rw [hpop] at h
      exact absurd rfl h
    · rw [hpop] at h hvsp hsuffix hhead
      obtain ⟨htok, hrest⟩ := skipTo_spec tok m.lookahead m.rest h
      refine ⟨⟨stack, congrArg (· :: stack) htok.symm⟩, ?_, hsuffix, hrest, hvsp⟩
      change (skipTo tok m.lookahead m.rest).1 ∈ env.synch
      rw [htok]
      exact hhead tok stack rfl

/-- A recovery adds one event and one error, and goes on only within the maximum. -/
lemma synch_trace (env : LlEnv) (m : LlMem) : (synch env m).trace = m.trace ++ [.synch] ∧
    (synch env m).yynerrs = m.yynerrs + 1 ∧
    ((synch env m).lookahead ≠ 0 → m.yynerrs + 1 ≤ env.yymaxerr) := by
  unfold synch
  dsimp only
  split
  · exact ⟨rfl, rfl, fun h => absurd rfl h⟩
  · have hle : m.yynerrs + 1 ≤ env.yymaxerr := by omega
    split
    · exact ⟨rfl, rfl, fun h => absurd rfl h⟩
    · exact ⟨rfl, rfl, fun _ => hle⟩

/-! ## A whole run -/

/-- Behind a recovery comes the event of a match. -/
def Recovered (e e' : LlEvent) : Prop := e = .synch → ∃ t, e' = .advance t

namespace Grammar

variable {G : Grammar} {w : G.Walk} {env : LlEnv} {m m' : LlMem}

/-- When the lookahead is on top of the stack the round matches it and records that. -/
lemma llmStep_advance (w : G.Walk) (env : LlEnv) {stack : List ℕ}
    (htop : m.stack = m.lookahead :: stack)
    (hterm : minTerm ≤ m.lookahead ∧ m.lookahead ≤ G.currterm) : ∃ m', llmStep w env m = .inl m' ∧
    m'.trace = m.trace ++ [.advance m.lookahead] := by
  have hact : ¬ IsAct m.lookahead := (isTerm_of_le hterm).not_isAct
  unfold llmStep
  rw [htop]
  dsimp only
  rw [if_neg hact, if_pos hterm, if_neg (not_not.mpr rfl)]
  exact ⟨_, rfl, rfl⟩

/-- When an error lets the run go on, the state is that behind `synch`. -/
lemma llmError_inl (h : llmError env m = .inl m') : m' = synch env m ∧ m'.lookahead ≠ 0 := by
  unfold llmError at h
  dsimp only at h
  split at h
  · cases h
  · cases h
    exact ⟨rfl, ‹_›⟩

/-- A round that goes on is a recovery or adds another event. -/
lemma llmStep_inl (h : llmStep w env m = .inl m') : (m' = synch env m ∧ m'.lookahead ≠ 0) ∨
    ∃ e, e ≠ .synch ∧ m'.trace = m.trace ++ [e] ∧ m'.yynerrs = m.yynerrs := by
  unfold llmStep at h
  split at h
  · cases h
  · dsimp only at h
    split at h
    · split at h
      · cases h
      · cases h
        exact .inr ⟨_, LlEvent.noConfusion, rfl, rfl⟩
    · split at h
      · split at h
        · exact .inl (llmError_inl h)
        · cases h
          exact .inr ⟨_, LlEvent.noConfusion, rfl, rfl⟩
      · split at h
        · exact .inl (llmError_inl h)
        · split at h
          · cases h
          · cases h
            exact .inr ⟨_, LlEvent.noConfusion, rfl, rfl⟩

/-- The last round of a run has at most one more error. -/
lemma llmStep_inr {code : ℤ} {s : LlState} (h : llmStep w env m = .inr (.returns code s)) :
    s.trace.count .synch ≤ m.trace.count .synch + 1 := by
  have herr : llmError env m = .inr (.returns code s) →
      s.trace.count .synch ≤ m.trace.count .synch + 1 := by
    intro herr
    unfold llmError at herr
    dsimp only at herr
    split at herr
    · cases herr
      rw [(synch_trace env m).1, List.count_append, List.count_singleton_self]
    · cases herr
  unfold llmStep at h
  split at h
  · cases h
    exact Nat.le_succ _
  · dsimp only at h
    split at h
    · split at h
      · cases h
        simp
      · cases h
    · split at h
      · split at h
        · exact herr h
        · cases h
      · split at h
        · exact herr h
        · split at h <;> cases h

variable (G) in
/-- What holds in every state of a run: the pointer follows the stack, the errors are counted and
within the limit, and behind a recovery the token on top of the stack is the lookahead. -/
structure LlmInv (env : LlEnv) (m : LlMem) : Prop where
  /-- The pointer and the stack go together. -/
  aligned : m.Aligned env.yymaxdepth
  /-- The number of errors is that of the recoveries. -/
  count : m.trace.count .synch = m.yynerrs
  /-- The number of errors is within the limit. -/
  limit : m.yynerrs ≤ env.yymaxerr
  /-- Behind each recovery before, a token was matched. -/
  recovered : m.trace.IsChain Recovered
  /-- Behind the last recovery the lookahead is on top. -/
  last : m.trace.getLast? = some .synch →
    (∃ stack, m.stack = m.lookahead :: stack) ∧ minTerm ≤ m.lookahead ∧ m.lookahead ≤ G.currterm

/-- A round of the driver keeps the invariant of the recoveries. -/
lemma LlmInv.step (hsynch : ∀ t ∈ env.synch, minTerm ≤ t ∧ t ≤ G.currterm) (hm : G.LlmInv env m)
    (h : llmStep w env m = .inl m') : G.LlmInv env m' := by
  have halign : m'.Aligned env.yymaxdepth := ((llmStep_toLlState w env m).1 m' h).2.trans hm.aligned
  -- the event behind a recovery
  have hnext : ∀ e, m'.trace = m.trace ++ [e] → m.trace.getLast? = some .synch →
      ∃ t, e = .advance t := by
    intro e htrace hlast
    obtain ⟨⟨stack, htop⟩, hterm⟩ := hm.last hlast
    obtain ⟨m'', hstep, htrace'⟩ := llmStep_advance w env htop hterm
    rw [h] at hstep
    cases hstep
    have heq := List.append_cancel_left (htrace.symm.trans htrace')
    exact ⟨m.lookahead, List.singleton_inj.mp heq⟩
  have hchain : ∀ e, m'.trace = m.trace ++ [e] → m'.trace.IsChain Recovered := by
    intro e htrace
    rw [htrace, List.isChain_append]
    refine ⟨hm.recovered, List.isChain_singleton e, ?_⟩
    rintro x hx y hy rfl
    obtain rfl : e = y := by simpa using hy
    exact hnext e htrace hx
  rcases llmStep_inl h with ⟨rfl, hne⟩ | ⟨e, he, htrace, herrs⟩
  · obtain ⟨htrace, herrs, hlimit⟩ := synch_trace env m
    have hsync := synchronized_synch hne
    refine ⟨halign, ?_, ?_, hchain _ htrace, fun _ => ⟨hsync.top, hsynch _ hsync.mem_synch⟩⟩
    · rw [htrace, herrs, List.count_append, hm.count, List.count_singleton_self]
    · rw [herrs]
      exact hlimit hne
  · refine ⟨halign, ?_, herrs ▸ hm.limit, hchain e htrace, ?_⟩
    · rw [htrace, herrs, List.count_append, hm.count, List.count_singleton,
        if_neg (by simpa using he), Nat.add_zero]
    · intro hlast
      rw [htrace, List.getLast?_concat, Option.some.injEq] at hlast
      exact absurd hlast he

/-- Every state of a run satisfies the invariant, since the start does and every round keeps it. -/
lemma LlmInv.reaches (hsynch : ∀ t ∈ env.synch, minTerm ≤ t ∧ t ≤ G.currterm) {input : List G.Token}
    (h : Reaches (llmStep w env) (llmInit env input) m) : G.LlmInv env m := by
  refine h.invariant (G.LlmInv env) (fun s s' hs hstep => hs.step hsynch hstep) ?_
  refine ⟨?_, rfl, Nat.zero_le _, List.isChain_nil, fun hlast => by cases hlast⟩
  exact Int.sub_add_cancel _ 1

/-- The recovery from an error finds a synchronization token, and the next round matches it; a run
has at most `YYMAXERR + 1` errors. -/
theorem llRecovery (G : Grammar) (w : G.Walk) (env : LlEnv)
    (hsynch : ∀ t ∈ env.synch, minTerm ≤ t ∧ t ≤ G.currterm) (input : List G.Token) :
    (∀ m, (synch env m).lookahead ≠ 0 → Synchronized env m (synch env m) ∧
      ∃ m', llmStep w env (synch env m) = .inl m' ∧
        m'.trace = (synch env m).trace ++ [.advance (synch env m).lookahead]) ∧
    (∀ m, Reaches (llmStep w env) (llmInit env input) m → m.Aligned env.yymaxdepth ∧
      m.trace.count .synch ≤ env.yymaxerr ∧ m.trace.IsChain Recovered) ∧
    ∀ n code s, llmParse w env input n = some (.returns code s) →
      s.trace.count .synch ≤ env.yymaxerr + 1 := by
  refine ⟨?_, ?_, ?_⟩
  · intro m hne
    have hsync := synchronized_synch hne
    obtain ⟨stack, htop⟩ := hsync.top
    exact ⟨hsync, llmStep_advance w env htop (hsynch _ hsync.mem_synch)⟩
  · intro m hreach
    have hinv := LlmInv.reaches hsynch hreach
    exact ⟨hinv.aligned, hinv.count.trans_le hinv.limit, hinv.recovered⟩
  · intro n code s h
    unfold llmParse at h
    split at h
    · cases h
    · obtain ⟨m, hreach, hlast⟩ := run_spec h
      have hinv := LlmInv.reaches hsynch hreach
      exact (llmStep_inr hlast).trans (Nat.succ_le_succ (hinv.count.trans_le hinv.limit))

/-- The driver on `actionGrammar` with the synchronization token `X`. -/
theorem llRecovery_actionGrammar :
    (∀ m, (synch ⟨128, 25, {1}, fun _ _ => 0⟩ m).lookahead ≠ 0 →
      Synchronized ⟨128, 25, {1}, fun _ _ => 0⟩ m (synch ⟨128, 25, {1}, fun _ _ => 0⟩ m) ∧
      ∃ m', llmStep actionWalk ⟨128, 25, {1}, fun _ _ => 0⟩ (synch ⟨128, 25, {1}, fun _ _ => 0⟩ m) =
        .inl m' ∧ m'.trace = (synch ⟨128, 25, {1}, fun _ _ => 0⟩ m).trace ++
          [.advance (synch ⟨128, 25, {1}, fun _ _ => 0⟩ m).lookahead]) ∧
    (∀ m, Reaches (llmStep actionWalk ⟨128, 25, {1}, fun _ _ => 0⟩)
        (llmInit ⟨128, 25, {1}, fun _ _ => 0⟩ [(⟨1, by decide⟩ : actionGrammar.Token)]) m →
      m.Aligned 128 ∧ m.trace.count .synch ≤ 25 ∧ m.trace.IsChain Recovered) ∧
    ∀ n code s, llmParse actionWalk ⟨128, 25, {1}, fun _ _ => 0⟩ [⟨1, by decide⟩] n =
      some (.returns code s) → s.trace.count .synch ≤ 26 := by
  refine llRecovery actionGrammar actionWalk ⟨128, 25, {1}, fun _ _ => 0⟩ ?_ [⟨1, by decide⟩]
  intro t ht
  obtain rfl := Finset.mem_singleton.mp ht
  decide

end Grammar

end Parser
