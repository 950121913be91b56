import Cgkits.Lib.Machine
import Cgkits.Lib.Predictive
import Cgkits.Parser.Acts
import Cgkits.Parser.LlDriver
import Cgkits.Parser.Pairs

/-!
# A generated LL(1) parser (`llama.m`, `llcode.c`)

`Cgkits.Parser.LlDriver` runs the driver on the table that `fill_row` fills.  Here it runs on the
tables of a generated file: `Yyd` with its lookup, `Yy_pushtab`, and the constants of `code_header`.
Tokens have a text, and an action finds in `yytext` the text of the token that has been matched
last.

The rounds of the driver that see no error are the moves of a predictive parser (`exists_move`,
`exists_step`), so a run that returns 0 without an error is a parse of the library (`returns_iff`).
-/

namespace Parser

open Machine Predictive

/-- A token and its text, as `yylex` and `yytext` give them. -/
abbrev LlToken : Type := ℕ × Lexeme

/-- The tables of a generated file, in the types in which llama prints them. -/
structure LlTables where
  /-- `YY_MAXTERM`, the number of the last terminal. -/
  yyMaxterm : ℕ
  /-- `YY_START_STATE`, the number of the goal symbol. -/
  yyStartState : ℕ
  /-- The rows of `Yyd` hold all cells, and none is made of pairs. -/
  uncompressed : Bool
  /-- `Yyd`, the cells of its rows. -/
  yyd : List (Option (List ℤ))
  /-- `Yy_pushtab`, the right-hand sides, reversed. -/
  yyPushtab : List (List ℕ)
  /-- `Yy_synch`, the synchronization tokens and `-1`. -/
  yySynch : List ℤ

/-- The state of `yyparse` over printed tables, with the texts of the tokens. -/
structure LlRun where
  /-- `Yy_stack`, the top first. -/
  stack : List ℕ
  /-- The lookahead token and its text. -/
  lookahead : LlToken
  /-- The tokens that have not been read yet. -/
  rest : List LlToken
  /-- `ii_ptext`: the text of the token that has been matched last. -/
  ptext : Lexeme
  /-- The number of errors seen so far. -/
  yynerrs : ℕ
  /-- What has happened so far. -/
  trace : List LlEvent
  /-- The actions that have been executed, each with the text that it has found in `yytext`. -/
  acts : List LlToken

/-- How `yyparse` over printed tables ends. -/
inductive LlEnd
  /-- The parser returns a code. -/
  | returns (code : ℤ) (s : LlRun)
  /-- The stack overflows and the program exits. -/
  | overflow
  /-- A table is read behind its end. -/
  | outside

/-- `yylex`: the next token, `_EOI_` for ever at the end. -/
def yyNextText : List LlToken → LlToken × List LlToken
  | [] => ((eoi, []), [])
  | t :: rest => (t, rest)

/-- Advance the input until the lookahead is `tok` or the end. -/
def skipText (tok : ℕ) : LlToken → List LlToken → LlToken × List LlToken
  | lookahead, [] =>
    if lookahead.1 ≠ 0 ∧ lookahead.1 ≠ tok then ((eoi, []), []) else (lookahead, [])
  | lookahead, t :: rest =>
    if lookahead.1 ≠ 0 ∧ lookahead.1 ≠ tok then skipText tok t rest else (lookahead, t :: rest)

namespace LlTables

variable (T : LlTables) (env : LlEnv)

/-- `yy_synch`: recover from an error.  The lookahead is `0` if this is impossible. -/
def yySynchText (s : LlRun) : LlRun :=
  let s := { s with yynerrs := s.yynerrs + 1, trace := s.trace ++ [LlEvent.synch] }
  if s.yynerrs > env.yymaxerr then { s with lookahead := (eoi, []) }
  else
    match s.stack.dropWhile fun x => !yyInSynch x T.yySynch with
    | [] => { s with stack := [], lookahead := (eoi, []) }
    | tok :: stack =>
      let (lookahead, rest) := skipText tok s.lookahead s.rest
      { s with stack := tok :: stack, lookahead := lookahead, rest := rest }

/-- An error in a parser with texts: it recovers, or gives up and returns 1. -/
def error (s : LlRun) : LlRun ⊕ LlEnd :=
  let s := T.yySynchText env s
  if s.lookahead.1 = 0 then .inr (.returns 1 s) else .inl s

/-- `yy_next` on the row of a nonterminal: the routine that `sys_pnext` prints, or the macro that
`sys_print_defnext` defines. -/
def yyNext (A lookahead : ℕ) : Option ℤ :=
  if T.uncompressed then (T.yyd[A - minNonterm]?.bind id).bind fun row => row[lookahead]?
  else sysPnext T.yyd (A - minNonterm) lookahead

/-- One round of the loop of `yyparse` over printed tables, with the texts of the tokens. -/
def step (s : LlRun) : LlRun ⊕ LlEnd :=
  match s.stack with
  | [] => .inr (.returns 0 s)
  | tos :: stack =>
    if IsAct tos then
      let errcode := env.yyAct s.trace tos
      let s := { s with trace := s.trace ++ [.action tos], acts := s.acts ++ [(tos, s.ptext)] }
      if errcode ≠ 0 then .inr (.returns errcode s) else .inl { s with stack := stack }
    else if minTerm ≤ tos ∧ tos ≤ T.yyMaxterm then
      if tos ≠ s.lookahead.1 then T.error env s
      else
        let (lookahead, rest) := yyNextText s.rest
        .inl { s with stack := stack, lookahead := lookahead, rest := rest, ptext := s.lookahead.2,
                      trace := s.trace ++ [.advance tos] }
    else
      match T.yyNext tos s.lookahead.1 with
      | none => .inr .outside
      | some prod =>
        if prod = llamaF then T.error env s
        else
          match T.yyPushtab[prod.toNat]? with
          | none => .inr .outside
          | some row =>
            match yyPushAll env.yymaxdepth row stack with
            | none => .inr .overflow
            | some stack =>
              .inl { s with stack := stack, trace := s.trace ++ [.replace prod.toNat] }

/-- The state in which the loop starts, with the start symbol on the stack. -/
def init (input : List LlToken) : LlRun :=
  let (lookahead, rest) := yyNextText input
  ⟨[T.yyStartState], lookahead, rest, [], 0, [], []⟩

/-- `yyparse` over printed tables, cut off after `n` rounds. -/
def parse (input : List LlToken) (n : ℕ) : Option LlEnd :=
  if env.yymaxdepth ≤ 0 then some .overflow else run (T.step env) n (T.init input)

/-! ## The parser of the library -/

/-- The table of the library: a row of `Yy_pushtab` is a right-hand side, back to front. -/
def predictive : Table ℕ LlToken ℕ where
  kind x := if IsAct x then .action else if minTerm ≤ x ∧ x ≤ T.yyMaxterm then .terminal x else
    .nonterminal
  code := Prod.fst
  next A c := (T.yyNext A (c.getD eoi)).bind fun prod =>
    if prod = llamaF then none
    else T.yyPushtab[prod.toNat]?.map fun row => (row.takeWhile (· ≠ 0)).reverse

end LlTables

namespace LlRun

/-- The tokens not matched yet, the lookahead among them. -/
def unread (s : LlRun) : List LlToken := if s.lookahead.1 = eoi then [] else s.lookahead :: s.rest

/-- The text of the last token among what has been done, if there is one. -/
def textFrom : Lexeme → List (ℕ ⊕ LlToken) → Lexeme
  | text, [] => text
  | text, .inl _ :: es => textFrom text es
  | _, .inr t :: es => textFrom t.2 es

/-- The actions among what has been done, each with the text of the token in front of it. -/
def actsFrom : Lexeme → List (ℕ ⊕ LlToken) → List LlToken
  | _, [] => []
  | text, .inl a :: es => (a, text) :: actsFrom text es
  | _, .inr t :: es => actsFrom t.2 es

/-- The last text of two parts is that of the second, which starts with that of the first. -/
lemma textFrom_append (text : Lexeme) (es fs : List (ℕ ⊕ LlToken)) :
    textFrom text (es ++ fs) = textFrom (textFrom text es) fs := by
  induction es generalizing text with
  | nil => rfl
  | cons e es ih => cases e <;> exact ih _

/-- The actions of two parts are those of the first and then those of the second. -/
lemma actsFrom_append (text : Lexeme) (es fs : List (ℕ ⊕ LlToken)) :
    actsFrom text (es ++ fs) = actsFrom text es ++ actsFrom (textFrom text es) fs := by
  induction es generalizing text with
  | nil => rfl
  | cons e es ih =>
    cases e with
    | inl a => exact congrArg ((a, text) :: ·) (ih text)
    | inr t => exact ih t.2

/-- The state of the driver is the configuration of the predictive parser of the library. -/
structure Follows (s : LlRun) (c : Config ℕ LlToken) : Prop where
  /-- The stack is that of the library. -/
  stack : s.stack = c.stack
  /-- The tokens that have not been matched. -/
  unread : s.unread = c.input
  /-- The text of the last token. -/
  ptext : s.ptext = textFrom [] c.done
  /-- The actions executed are those of the library. -/
  acts : s.acts = actsFrom [] c.done
  /-- The tokens are no ends of the input. -/
  rest : ∀ t ∈ s.rest, t.1 ≠ eoi
  /-- Nothing comes behind the end of the input. -/
  rest_eoi : s.lookahead.1 = eoi → s.rest = []

end LlRun

open LlRun

/-! ## One round -/

/-- Of tokens without an end marker the next one is the end only if there is none, and none is
lost. -/
lemma yyNextText_spec {l : List LlToken} (hl : ∀ t ∈ l, t.1 ≠ eoi) :
    (∀ t ∈ (yyNextText l).2, t.1 ≠ eoi) ∧ ((yyNextText l).1.1 = eoi → (yyNextText l).2 = []) ∧
      (if (yyNextText l).1.1 = eoi then [] else (yyNextText l).1 :: (yyNextText l).2) = l := by
  rcases l with _ | ⟨t, l⟩
  · simp [yyNextText]
  · have ht : t.1 ≠ eoi := hl t List.mem_cons_self
    exact ⟨fun u hu => hl u (List.mem_cons_of_mem t hu), fun h => absurd h ht, if_neg ht⟩

/-- The loop that pushes a row comes to its end exactly when the stack has room. -/
lemma yyPushAll_eq_some_iff {n : ℕ} {row stack stack' : List ℕ} :
    yyPushAll n row stack = some stack' ↔ Room n (row.takeWhile (· ≠ 0)).reverse stack ∧
    stack' = (row.takeWhile (· ≠ 0)).reverse ++ stack := by
  induction row generalizing stack with
  | nil => simp [yyPushAll, Room, eq_comm]
  | cons p row ih =>
    rw [yyPushAll]
    by_cases hp : p = 0
    · simp [hp, Room, eq_comm]
    rw [if_neg hp, List.takeWhile_cons_of_pos (by simpa using hp), List.reverse_cons,
      List.append_assoc]
    by_cases hfull : n ≤ stack.length
    · rw [if_pos hfull]
      simp only [reduceCtorEq, false_iff, not_and]
      intro hroom
      exfalso
      unfold Room at hroom
      simp only [List.append_eq_nil_iff, List.cons_ne_self, and_false, false_or, List.length_append,
        List.length_cons, List.length_nil] at hroom
      omega
    · rw [if_neg hfull, ih]
      refine and_congr_left fun _ => ?_
      unfold Room
      simp only [List.append_eq_nil_iff, List.cons_ne_self, and_false, false_or, List.length_append,
        List.length_cons, List.length_nil, List.reverse_eq_nil_iff]
      constructor
      · rintro (h | h)
        · rw [h, List.length_reverse, List.length_nil]
          omega
        · omega
      · exact fun h => Or.inr (by omega)

namespace LlTables

variable {T : LlTables} {env : LlEnv} {s s' : LlRun} {c c' : Config ℕ LlToken}

/-- An error with which the run goes on is counted. -/
lemma yynerrs_error (h : T.error env s = .inl s') : s'.yynerrs = s.yynerrs + 1 := by
  unfold error at h
  dsimp only at h
  split at h
  · cases h
  · cases h
    unfold yySynchText
    dsimp only
    split
    · rfl
    · split <;> rfl

/-- After an error the parser does not return 0. -/
lemma error_ne_returns (s' : LlRun) : T.error env s ≠ .inr (.returns 0 s') := by
  intro h
  unfold error at h
  dsimp only at h
  split at h
  · cases h
  · cases h

/-- The number of errors never goes down in a round. -/
lemma yynerrs_le (h : T.step env s = .inl s') : s.yynerrs ≤ s'.yynerrs := by
  unfold step at h
  split at h
  · cases h
  split at h
  · dsimp only at h
    split at h
    · cases h
    · cases h
      exact Nat.le_refl _
  split at h
  · split at h
    · have := yynerrs_error h
      omega
    · cases h
      exact Nat.le_refl _
  split at h
  · cases h
  split at h
  · have := yynerrs_error h
    omega
  split at h
  · cases h
  split at h
  · cases h
  · cases h
    exact Nat.le_refl _

/-- The lookup of the library gives the right-hand side that `yyNext` selects. -/
lemma next_eq (A : ℕ) : T.predictive.next A (s.unread.head?.map T.predictive.code) =
    (T.yyNext A s.lookahead.1).bind fun prod =>
      if prod = llamaF then none
      else T.yyPushtab[prod.toNat]?.map fun row => (row.takeWhile (· ≠ 0)).reverse := by
  have hcode : (s.unread.head?.map T.predictive.code).getD eoi = s.lookahead.1 := by
    unfold LlRun.unread
    split
    · rename_i h
      exact h.symm
    · rfl
  unfold predictive at hcode ⊢
  simp only [hcode]

/-- A round without an error is a move of the library. -/
lemma exists_move (hs : s.Follows c) (h : T.step env s = .inl s') (herr : s'.yynerrs = s.yynerrs) :
    ∃ c', Predictive.Step T.predictive env.yymaxdepth c c' ∧ s'.Follows c' := by
  obtain ⟨stack, input, done⟩ := c
  obtain ⟨hstack, hunread, hptext, hacts, hrest, heoi⟩ := hs
  dsimp only at hstack hunread hptext hacts
  subst hstack hunread
  unfold step at h
  split at h
  · cases h
  rename_i tos stack hstack
  rw [hstack]
  split at h
  · rename_i hact
    dsimp only at h
    split at h
    · cases h
    · cases h
      have hkind : T.predictive.kind tos = .action := if_pos hact
      refine ⟨_, .action hkind, ⟨rfl, rfl, ?_, ?_, hrest, heoi⟩⟩
      · rw [textFrom_append]
        exact hptext
      · rw [actsFrom_append, ← hacts, ← hptext]
        rfl
  rename_i hact
  split at h
  · rename_i hterm
    split at h
    · have := yynerrs_error h
      omega
    · rename_i hlook
      have hlook : tos = s.lookahead.1 := not_ne_iff.mp hlook
      have hne : s.lookahead.1 ≠ eoi := by
        have hmin : minTerm = 1 := rfl
        have hzero : eoi = 0 := rfl
        omega
      cases h
      obtain ⟨hrest', heoi', hnext⟩ := yyNextText_spec hrest
      have hkind : T.predictive.kind tos = .terminal (T.predictive.code s.lookahead) := by
        change (if IsAct tos then Kind.action else if minTerm ≤ tos ∧
          tos ≤ T.yyMaxterm then .terminal tos
          else .nonterminal) = _
        rw [if_neg hact, if_pos hterm, hlook]
        rfl
      have hunread : s.unread = s.lookahead :: s.rest := if_neg hne
      rw [hunread]
      refine ⟨_, .terminal hkind, ⟨rfl, hnext, ?_, ?_, hrest', heoi'⟩⟩
      · rw [textFrom_append]
        rfl
      · rw [actsFrom_append]
        exact hacts.trans (List.append_nil _).symm
  rename_i hterm
  split at h
  · cases h
  rename_i prod hprod
  split at h
  · have := yynerrs_error h
    omega
  rename_i hfail
  split at h
  · cases h
  rename_i row hrow
  split at h
  · cases h
  rename_i stack' hpush
  cases h
  obtain ⟨hroom, rfl⟩ := yyPushAll_eq_some_iff.mp hpush
  have hkind : T.predictive.kind tos = .nonterminal := by
    change (if IsAct tos then Kind.action else if minTerm ≤ tos ∧
      tos ≤ T.yyMaxterm then .terminal tos
      else .nonterminal) = _
    rw [if_neg hact, if_neg hterm]
  have hnext : T.predictive.next tos (s.unread.head?.map T.predictive.code) =
      some (row.takeWhile (· ≠ 0)).reverse := by
    rw [next_eq, hprod]
    change (if prod = llamaF then none else _) = _
    rw [if_neg hfail, hrow]
    rfl
  exact ⟨_, .replace hkind hnext hroom, ⟨rfl, rfl, hptext, hacts, hrest, heoi⟩⟩

/-- A move of the library is a round without an error. -/
lemma exists_step (hact : ∀ tr a, env.yyAct tr a = 0) (hs : s.Follows c)
    (h : Predictive.Step T.predictive env.yymaxdepth c c') :
    ∃ s', T.step env s = .inl s' ∧ s'.Follows c' ∧ s'.yynerrs = s.yynerrs := by
  obtain ⟨hstack, hunread, hptext, hacts, hrest, heoi⟩ := hs
  have hkind : ∀ x, T.predictive.kind x = (if IsAct x then Kind.action
      else if minTerm ≤ x ∧ x ≤ T.yyMaxterm then .terminal x else .nonterminal) := fun _ => rfl
  cases h with
  | @action a γ u es ha =>
    have ha' : IsAct a := by
      by_contra hne
      rw [hkind, if_neg hne] at ha
      split at ha <;> cases ha
    refine ⟨{ s with
      stack := γ, trace := s.trace ++ [.action a], acts := s.acts ++ [(a, s.ptext)] }, ?_,
      ⟨rfl, hunread, ?_, ?_, hrest, heoi⟩, rfl⟩
    · unfold step
      rw [hstack]
      simp [ha', hact]
    · rw [textFrom_append]
      exact hptext
    · rw [actsFrom_append, ← hacts, ← hptext]
      rfl
  | @terminal x γ t u es hx =>
    have hact' : ¬ IsAct x := by
      intro hx'
      rw [hkind, if_pos hx'] at hx
      cases hx
    rw [hkind, if_neg hact'] at hx
    have hterm : minTerm ≤ x ∧ x ≤ T.yyMaxterm := by
      by_contra hne
      rw [if_neg hne] at hx
      cases hx
    rw [if_pos hterm] at hx
    obtain rfl : x = t.1 := Kind.terminal.inj hx
    have hne : s.lookahead.1 ≠ eoi := by
      intro he
      have hnil : s.unread = [] := if_pos he
      rw [hnil] at hunread
      cases hunread
    have hcons : s.unread = s.lookahead :: s.rest := if_neg hne
    rw [hcons, List.cons.injEq] at hunread
    obtain ⟨rfl, rfl⟩ := hunread
    obtain ⟨hrest', heoi', hnext⟩ := yyNextText_spec hrest
    refine ⟨{ s with
      stack := γ
      lookahead := (yyNextText s.rest).1
      rest := (yyNextText s.rest).2
      ptext := s.lookahead.2
      trace := s.trace ++ [.advance s.lookahead.1] }, ?_, ⟨rfl, hnext, ?_, ?_, hrest', heoi'⟩, rfl⟩
    · unfold step
      rw [hstack]
      simp [hact', hterm]
    · rw [textFrom_append]
      rfl
    · rw [actsFrom_append]
      exact hacts.trans (List.append_nil _).symm
  | @replace A γ δ u es hA hnext hroom =>
    have hact' : ¬ IsAct A := by
      intro hx'
      rw [hkind, if_pos hx'] at hA
      cases hA
    rw [hkind, if_neg hact'] at hA
    have hterm : ¬ (minTerm ≤ A ∧ A ≤ T.yyMaxterm) := by
      intro hx'
      rw [if_pos hx'] at hA
      cases hA
    have hinput : s.unread = u := hunread
    rw [← hinput, next_eq] at hnext
    obtain ⟨prod, hprod, hδ⟩ := Option.bind_eq_some_iff.mp hnext
    have hfail : prod ≠ llamaF := by
      intro he
      rw [if_pos he] at hδ
      cases hδ
    rw [if_neg hfail] at hδ
    obtain ⟨row, hrow, rfl⟩ := Option.map_eq_some_iff.mp hδ
    have hpush := yyPushAll_eq_some_iff.mpr ⟨hroom, rfl⟩
    refine ⟨{ s with
      stack := (row.takeWhile (· ≠ 0)).reverse ++ γ,
      trace := s.trace ++ [.replace prod.toNat] }, ?_,
      ⟨rfl, hunread, hptext, hacts, hrest, heoi⟩, rfl⟩
    unfold step
    rw [hstack]
    dsimp only
    rw [if_neg hact', if_neg hterm, hprod]
    dsimp only
    rw [if_neg hfail, hrow]
    dsimp only
    rw [hpush]

/-! ## Runs -/

/-- The state in which the loop starts is the first configuration of the library. -/
lemma follows_init {input : List LlToken} (hinput : ∀ t ∈ input, t.1 ≠ eoi) :
    (T.init input).Follows ⟨[T.yyStartState], input, []⟩ := by
  obtain ⟨hrest, heoi, hnext⟩ := yyNextText_spec hinput
  exact ⟨rfl, hnext, rfl, rfl, hrest, heoi⟩

/-- A run without errors consists of moves of the predictive parser of the library. -/
lemma exists_moves (hs : s.Follows c) (h : Reaches (T.step env) s s')
    (herr : s'.yynerrs = s.yynerrs) :
    ∃ c', Relation.ReflTransGen (Predictive.Step T.predictive env.yymaxdepth) c c' ∧
      s'.Follows c' := by
  have hle : s.yynerrs ≤ s'.yynerrs ∧ (s'.yynerrs = s.yynerrs → ∃ c',
      Relation.ReflTransGen (Predictive.Step T.predictive env.yymaxdepth) c c' ∧
      s'.Follows c') := by
    refine h.invariant (fun t => s.yynerrs ≤ t.yynerrs ∧ (t.yynerrs = s.yynerrs → ∃ c',
      Relation.ReflTransGen (Predictive.Step T.predictive env.yymaxdepth) c c' ∧ t.Follows c')) ?_
      ⟨Nat.le_refl _, fun _ => ⟨c, .refl, hs⟩⟩
    rintro t t' ⟨hle, ht⟩ hstep
    have hle' := yynerrs_le hstep
    refine ⟨Nat.le_trans hle hle', fun he => ?_⟩
    obtain ⟨c₁, hmoves, hfollows⟩ := ht (by omega)
    obtain ⟨c₂, hmove, hfollows'⟩ := exists_move hfollows hstep (by omega)
    exact ⟨c₂, hmoves.tail hmove, hfollows'⟩
  exact hle.2 herr

/-- Moves of the predictive parser of the library are a run without errors. -/
lemma exists_reaches (hact : ∀ tr a, env.yyAct tr a = 0) (hs : s.Follows c)
    (h : Relation.ReflTransGen (Predictive.Step T.predictive env.yymaxdepth) c c') :
    ∃ s', Reaches (T.step env) s s' ∧ s'.Follows c' ∧ s'.yynerrs = s.yynerrs := by
  induction h with
  | refl => exact ⟨s, .refl s, hs, rfl⟩
  | tail _ hmove ih =>
    obtain ⟨t, hreach, hfollows, herr⟩ := ih
    obtain ⟨t', hstep, hfollows', herr'⟩ := exists_step hact hfollows hmove
    exact ⟨t', hreach.trans (.single hstep), hfollows', herr'.trans herr⟩

/-- Only with an empty stack does the loop return 0. -/
lemma stack_of_returns (h : T.step env s = .inr (.returns 0 s')) : s.stack = [] ∧ s' = s := by
  unfold step at h
  split at h
  · cases h
    exact ⟨‹_›, rfl⟩
  split at h
  · dsimp only at h
    split at h
    · rename_i hcode
      exact absurd (LlEnd.returns.inj (Sum.inr.inj h)).1 hcode
    · cases h
  split at h
  · split at h
    · exact absurd h (error_ne_returns s')
    · cases h
  split at h
  · cases h
  split at h
  · exact absurd h (error_ne_returns s')
  split at h
  · cases h
  split at h <;> cases h

/-- The driver returns 0 without an error exactly when the library parses the input: the tokens that
it has not matched and the actions that it has executed, with their texts, are those of the
parse. -/
theorem returns_iff (hact : ∀ tr a, env.yyAct tr a = 0) (hdepth : 0 < env.yymaxdepth)
    {input v as : List LlToken} (hinput : ∀ t ∈ input, t.1 ≠ eoi) :
    (∃ n s, T.parse env input n = some (.returns 0 s) ∧ s.yynerrs = 0 ∧ s.unread = v ∧
    s.acts = as) ↔
      ∃ es, Parses T.predictive env.yymaxdepth [T.yyStartState] input v es ∧
        as = actsFrom [] es := by
  have hparse : ∀ n, T.parse env input n = run (T.step env) n (T.init input) :=
    fun n => if_neg (by omega)
  constructor
  · rintro ⟨n, s, hn, herr, rfl, rfl⟩
    rw [hparse] at hn
    obtain ⟨s', hreach, hstop⟩ := run_spec hn
    obtain ⟨hstack, rfl⟩ := stack_of_returns hstop
    obtain ⟨⟨stack, w, es⟩, hmoves, hfollows⟩ := exists_moves (follows_init hinput) hreach herr
    obtain rfl : stack = [] := hfollows.stack.symm.trans hstack
    obtain ⟨gs, hgs, hes⟩ := reaches_iff.mp hmoves
    rw [List.nil_append] at hes
    subst hes
    obtain rfl : s.unread = w := hfollows.unread
    exact ⟨es, hgs, hfollows.acts⟩
  · rintro ⟨es, hes, rfl⟩
    obtain ⟨s, hreach, hfollows, herr⟩ := exists_reaches hact (follows_init hinput) (hes.reaches [])
    have hstop : T.step env s = .inr (.returns 0 s) := by
      unfold step
      rw [hfollows.stack]
    obtain ⟨n, hn⟩ := hreach.run hstop
    exact ⟨n, s, (hparse n).trans hn, herr, hfollows.unread, hfollows.acts⟩

end LlTables

end Parser
