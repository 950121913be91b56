import Cgkits.Parser.LlOut

/-!
# The recursive-descent parser (`llpar.c`)

Before llama could make its own parser it was built with the parser of `llpar.c`, for "a very
stripped down llama" without fields, precedences and groups.  Where it sees no error it calls the
same functions of `acts.c`; behind an error it inserts a `:` or a `;`, or looks for the end of the
production.

It comes to an end on all tokens (`llPar_ends`), and sees no error exactly on the specifications in
the tokens of the stripped down grammar, and on directives alone (`llPar_iff`).  On these
specifications it makes the same calls as the tables of `llout.c` (`llPar_eq_llOut`).
-/

namespace Parser

/-! ## The parser -/

/-- An error that the parser reports with `lerror` and then recovers from. -/
inductive ParError
  /-- Ignoring illegal `<%s>` in definitions. -/
  | definition (yytext : Lexeme)
  /-- Illegal `<%s>`, nonterminal expected. -/
  | nonterminal (yytext : Lexeme)
  /-- Inserted missing `:` behind a left-hand side. -/
  | colon
  /-- Inserted missing semicolon. -/
  | semi
  /-- Illegal `<%s>`, ignoring rest of production. -/
  | production (yytext : Lexeme)
deriving DecidableEq

/-- The ways in which the parser does not return. -/
inductive ParFault
  /-- Unexpected end of file: the program exits. -/
  | endOfFile
  /-- The model has made too many rounds. -/
  | fuel
deriving DecidableEq

/-- The state of the parser: the tokens left, and the calls and errors so far. -/
structure LlPar where
  /-- The lookahead token and the tokens that `yylex` delivers behind it; at the end of the input
  there is none. -/
  unread : List LlToken
  /-- The calls of functions of `acts.c`. -/
  calls : List ActsCall
  /-- The errors reported so far, in order. -/
  errors : List ParError
deriving DecidableEq

namespace LlPar

/-- `_lookhead`, the code of the token ahead. -/
def lookhead (s : LlPar) : ℕ := ahead s.unread

/-- `yytext`, the text of the token ahead, which is empty at the end of the input. -/
def yytext (s : LlPar) : Lexeme := (s.unread.head?.map Prod.snd).getD []

/-- A function of `acts.c` is called, which is recorded in the list of calls. -/
def call (c : ActsCall) (s : LlPar) : LlPar := { s with calls := s.calls ++ [c] }

/-- `lerror(NONFATAL, ...)` reports an error, which is recorded in the list of errors. -/
def lerror (e : ParError) (s : LlPar) : LlPar := { s with errors := s.errors ++ [e] }

/-- `advance` reads the next token that is not white space. -/
def advance (s : LlPar) : LlPar :=
  if s.lookhead ≠ eoi then
    { s with unread := s.unread.tail.dropWhile fun t => t.1 = Tok.whitespace } else s

/-- `lookfor` reads tokens until one of `objs` is ahead, and exits at the end of the file; the walk
over its arguments is taken as on a machine that passes them all on the stack. -/
def lookfor (objs : List ℕ) : ℕ → LlPar → Except ParFault LlPar
  | 0, _ => .error .fuel
  | n + 1, s =>
    let s := s.advance
    if s.lookhead ∈ objs then .ok s
    else if s.lookhead = eoi then .error .endOfFile
    else lookfor objs n s

/-- The loops over the names behind `%synch` and `%term`. -/
def names (f : Lexeme → ActsCall) : ℕ → LlPar → Except ParFault LlPar
  | 0, _ => .error .fuel
  | n + 1, s =>
    let s := s.advance
    if s.lookhead = Tok.name then names f n (s.call (f s.yytext)) else .ok s

/-- The body of the loop of `definitions`: one directive, or one illegal token. -/
def definition (n : ℕ) (s : LlPar) : Except ParFault LlPar :=
  if s.lookhead = Tok.synch then names .addSynch n s
  else if s.lookhead = Tok.termSpec then names .makeTerm n s
  else if s.lookhead = Tok.codeBlock then .ok s.advance
  else .ok (s.lerror (.definition s.yytext)).advance

/-- `definitions` reads the directives up to the first `SEPARATOR` and this too. -/
def definitions : ℕ → LlPar → Except ParFault LlPar
  | 0, _ => .error .fuel
  | n + 1, s =>
    if s.lookhead ≠ Tok.separator ∧ s.lookhead ≠ eoi then definition (n + 1) s >>= definitions n
    else .ok s.advance

/-- The loop of `rhs` reads names and actions and adds them to the production. -/
def rhsLoop : ℕ → LlPar → Except ParFault LlPar
  | 0, _ => .error .fuel
  | n + 1, s =>
    if s.lookhead = Tok.name ∨ s.lookhead = Tok.action then
      rhsLoop n (s.call (.addToRhs s.yytext (s.lookhead = Tok.action))).advance
    else .ok s

/-- `rhs` reads a right-hand side, and looks for its end when something illegal is ahead. -/
def rhs (n : ℕ) (s : LlPar) : Except ParFault LlPar := do
  let s ← rhsLoop n s
  if s.lookhead ≠ Tok.or ∧ s.lookhead ≠ Tok.semi then
    lookfor [Tok.semi, Tok.separator, Tok.or] n (s.lerror (.production s.yytext))
  else .ok s

/-- The loop of `right_sides` reads a right-hand side behind every `OR`. -/
def orLoop : ℕ → LlPar → Except ParFault LlPar
  | 0, _ => .error .fuel
  | n + 1, s =>
    if s.lookhead = Tok.or then rhs (n + 1) (s.advance.call .newRhs) >>= orLoop n else .ok s

/-- `right_sides` reads all right-hand sides of a rule and the semicolon behind them. -/
def rightSides (n : ℕ) (s : LlPar) : Except ParFault LlPar := do
  let s ← rhs n (s.call .newRhs)
  let s ← orLoop n s
  .ok (if s.lookhead = Tok.semi then s.advance else s.lerror .semi)

/-- The body of the loop of `body`: one rule, or what stands in the place of one. -/
def rule (n : ℕ) (s : LlPar) : Except ParFault LlPar :=
  if s.lookhead = Tok.name then
    let s := (s.call (.newNonterm s.yytext true)).advance
    rightSides n (if s.lookhead = Tok.colon then s.advance else s.lerror .colon)
  else do
    let s ← lookfor [Tok.semi, Tok.separator] n (s.lerror (.nonterminal s.yytext))
    .ok (if s.lookhead = Tok.semi then s.advance else s)

/-- `yylex` behind the second `SEPARATOR`: the token is lost. -/
def skip (s : LlPar) : LlPar :=
  if s.lookhead = Tok.separator then { s with unread := s.unread.take 1 ++ s.unread.drop 2 } else s

/-- `body` reads the rules up to the second `SEPARATOR` or the end of the input. -/
def body : ℕ → LlPar → Except ParFault LlPar
  | 0, _ => .error .fuel
  | n + 1, s =>
    if s.lookhead ≠ Tok.separator ∧ s.lookhead ≠ eoi then rule (n + 1) s >>= body n else .ok s.skip

end LlPar

open LlPar

/-- `yyparse` reads the directives and the rules, and calls `first_sym` between them. -/
def llPar (n : ℕ) (tokens : List LlToken) : Except ParFault LlPar := do
  let s ← definitions n ⟨tokens, [], []⟩
  body n (s.call .firstSym)

/-! ## The parser comes to an end -/

namespace LlPar

variable {s s' : LlPar} {n : ℕ} {objs : List ℕ}

/-- When the lookahead is not `_EOI_` it is the first of the tokens not read yet. -/
lemma lookhead_ne_eoi (h : s.lookhead ≠ eoi) : ∃ t v, s.unread = t :: v ∧ t.1 = s.lookhead ∧
    t.2 = s.yytext := by
  unfold lookhead ahead yytext at *
  rcases hu : s.unread with _ | ⟨t, v⟩
  · rw [hu] at h
    exact absurd rfl h
  · exact ⟨t, v, rfl, rfl, rfl⟩

/-- `advance` reads at least one token when the input has not come to its end. -/
lemma length_advance (h : s.lookhead ≠ eoi) : s.advance.unread.length < s.unread.length := by
  obtain ⟨t, v, hu, -⟩ := lookhead_ne_eoi h
  unfold advance
  rw [if_pos h, hu]
  exact Nat.lt_succ_of_le (List.length_dropWhile_le _ v)

/-- `advance` adds no token to those that have not been read. -/
lemma length_advance_le (s : LlPar) : s.advance.unread.length ≤ s.unread.length := by
  by_cases h : s.lookhead ≠ eoi
  · exact (length_advance h).le
  · unfold advance
    rw [if_neg h]

/-- A computation comes to its end, or to the end of the file.  It adds no token, reads one if
`strict`, and keeps the errors. -/
def Ends (strict : Bool) (s : LlPar) (r : Except ParFault LlPar) : Prop :=
  r = .error .endOfFile ∨
    ∃ s', r = .ok s' ∧ s'.unread.length + strict.toNat ≤ s.unread.length ∧ s.errors <+: s'.errors

/-- A state that is returned with no more tokens and no fewer errors than it began with. -/
lemma ends_ok {b : Bool} (hlen : s'.unread.length + b.toNat ≤ s.unread.length)
    (herr : s.errors <+: s'.errors) : Ends b s (.ok s') := Or.inr ⟨s', rfl, hlen, herr⟩

/-- One computation behind another reads the tokens of both and keeps the errors of both. -/
lemma Ends.bind {b d c : Bool} {r : Except ParFault LlPar} {f : LlPar → Except ParFault LlPar}
    (h : Ends b s r) (hf : ∀ s', s'.unread.length + b.toNat ≤ s.unread.length → Ends d s' (f s'))
    (hle : c.toNat ≤ b.toNat + d.toNat) : Ends c s (r >>= f) := by
  rcases h with rfl | ⟨s₁, rfl, hlen₁, herr₁⟩
  · exact Or.inl rfl
  · rcases hf s₁ hlen₁ with heof | ⟨s₂, h₂, hlen₂, herr₂⟩
    · exact Or.inl heof
    · exact Or.inr ⟨s₂, h₂, by omega, herr₁.trans herr₂⟩

/-- A computation that starts later, with no more tokens and no fewer errors. -/
lemma Ends.mono {b c : Bool} {r : Except ParFault LlPar} {s₁ : LlPar} (h : Ends b s₁ r)
    (hle : s₁.unread.length + c.toNat ≤ s.unread.length + b.toNat) (herr : s.errors <+: s₁.errors) :
    Ends c s r := by
  rcases h with heof | ⟨s', hr, hlen, herr'⟩
  · exact Or.inl heof
  · exact Or.inr ⟨s', hr, by omega, herr.trans herr'⟩

/-- `advance` leaves the list of the errors as it is. -/
@[simp] lemma errors_advance (s : LlPar) : s.advance.errors = s.errors := by
  unfold advance
  split <;> rfl

/-- An error that is reported stands behind the errors reported before. -/
lemma errors_lerror (e : ParError) (s : LlPar) : s.errors <+: (s.lerror e).errors :=
  List.prefix_append _ _

/-- `lookfor` reads at least one token, or comes to the end of the file. -/
lemma ends_lookfor (hobjs : eoi ∉ objs) (hn : s.unread.length < n) :
    Ends true s (lookfor objs n s) := by
  induction n generalizing s with
  | zero => omega
  | succ n ih =>
    unfold lookfor
    dsimp only
    by_cases hs : s.lookhead = eoi
    · have hstay : s.advance = s := if_neg (not_not.mpr hs)
      rw [hstay, if_neg (hs ▸ hobjs), if_pos hs]
      exact Or.inl rfl
    have hlen := length_advance hs
    by_cases hobj : s.advance.lookhead ∈ objs
    · rw [if_pos hobj]
      exact ends_ok hlen (by simp)
    · rw [if_neg hobj]
      by_cases hend : s.advance.lookhead = eoi
      · rw [if_pos hend]
        exact Or.inl rfl
      · rw [if_neg hend]
        exact (ih (by omega)).mono (by omega) (by simp)

/-- A list of names takes at least the token in front of it, and comes to an end. -/
lemma ends_names {f : Lexeme → ActsCall} (hs : s.lookhead ≠ eoi) (hn : s.unread.length < n) :
    Ends true s (names f n s) := by
  induction n generalizing s with
  | zero => omega
  | succ n ih =>
    have hlen := length_advance hs
    unfold names
    dsimp only
    by_cases hname : s.advance.lookhead = Tok.name
    · rw [if_pos hname]
      have hcall : (s.advance.call (f s.advance.yytext)).lookhead ≠ eoi := by
        change s.advance.lookhead ≠ eoi
        rw [hname]
        decide
      refine (ih hcall ?_).mono ?_ ?_
      · change s.advance.unread.length < n
        omega
      · change s.advance.unread.length + _ ≤ _
        omega
      · change s.errors <+: s.advance.errors
        simp
    · rw [if_neg hname]
      exact ends_ok hlen (by simp)

/-- Every round of the loop of `definitions` reads at least one token. -/
lemma ends_definition (hs : s.lookhead ≠ eoi) (hn : s.unread.length < n) :
    Ends true s (definition n s) := by
  unfold definition
  split
  · exact ends_names hs hn
  split
  · exact ends_names hs hn
  split
  · exact ends_ok (length_advance hs) (by simp)
  · refine ends_ok (length_advance (s := s.lerror _) hs) ?_
    rw [errors_advance]
    exact errors_lerror _ s

/-- `definitions` comes to an end when it has a round for every token. -/
lemma ends_definitions (hn : s.unread.length < n) : Ends false s (definitions n s) := by
  induction n generalizing s with
  | zero => omega
  | succ n ih =>
    unfold definitions
    by_cases hs : s.lookhead ≠ Tok.separator ∧ s.lookhead ≠ eoi
    · rw [if_pos hs]
      refine (ends_definition hs.2 hn).bind (fun s' hlen => ih ?_) (Nat.zero_le _)
      change s'.unread.length + 1 ≤ _ at hlen
      omega
    · rw [if_neg hs]
      exact ends_ok (length_advance_le s) (by simp)

/-- The loop of `rhs` comes to an end when it has a round for every token. -/
lemma ends_rhsLoop (hn : s.unread.length < n) : Ends false s (rhsLoop n s) := by
  induction n generalizing s with
  | zero => omega
  | succ n ih =>
    unfold rhsLoop
    by_cases hs : s.lookhead = Tok.name ∨ s.lookhead = Tok.action
    · rw [if_pos hs]
      have hne : s.lookhead ≠ eoi := by
        rcases hs with h | h <;> rw [h] <;> decide
      have hlen := length_advance (s := s.call (.addToRhs s.yytext (s.lookhead = Tok.action))) hne
      change _ < s.unread.length at hlen
      refine (ih (by omega)).mono (by omega) ?_
      rw [errors_advance]
      exact List.prefix_rfl
    · rw [if_neg hs]
      exact ends_ok le_rfl List.prefix_rfl

/-- `rhs` comes to an end, also when it has to look for the end of the production. -/
lemma ends_rhs (hn : s.unread.length < n) : Ends false s (rhs n s) := by
  refine (ends_rhsLoop hn).bind (d := false) (fun s' hlen => ?_) (Nat.zero_le _)
  split
  · refine (ends_lookfor (s := s'.lerror _) (by decide) ?_).mono ?_ (errors_lerror _ s')
    · change s'.unread.length < n
      exact Nat.lt_of_le_of_lt hlen hn
    · change s'.unread.length + 0 ≤ s'.unread.length + 1
      omega
  · exact ends_ok le_rfl List.prefix_rfl

/-- The loop of `right_sides` comes to an end when it has a round for every token. -/
lemma ends_orLoop (hn : s.unread.length < n) : Ends false s (orLoop n s) := by
  induction n generalizing s with
  | zero => omega
  | succ n ih =>
    unfold orLoop
    by_cases hs : s.lookhead = Tok.or
    · rw [if_pos hs]
      have hne : s.lookhead ≠ eoi := by
        rw [hs]
        decide
      have hlen := length_advance hne
      have hcall : (s.advance.call .newRhs).unread.length < s.unread.length := hlen
      have hrun :
          Ends false (s.advance.call .newRhs) (rhs (n + 1) (s.advance.call .newRhs) >>=
          orLoop n) := by
        refine (ends_rhs (by omega)).bind (d := false) (fun s' hle => ih ?_) (Nat.zero_le _)
        change s'.unread.length + 0 ≤ _ at hle
        omega
      refine hrun.mono (by omega) ?_
      change s.errors <+: s.advance.errors
      simp
    · rw [if_neg hs]
      exact ends_ok le_rfl List.prefix_rfl

/-- The end of `right_sides` reads a semicolon or reports that it is missing. -/
lemma ends_semi (s : LlPar) :
    Ends false s (.ok (if s.lookhead = Tok.semi then s.advance else s.lerror .semi)) := by
  split
  · exact ends_ok (length_advance_le s) (by simp)
  · exact ends_ok le_rfl (errors_lerror _ s)

/-- `right_sides` comes to an end when it has a round for every token. -/
lemma ends_rightSides (hn : s.unread.length < n) : Ends false s (rightSides n s) := by
  have hrun : Ends false (s.call .newRhs) (rightSides n s) := by
    refine (ends_rhs (s := s.call .newRhs) hn).bind (d := false) (fun s₁ h₁ => ?_) (Nat.zero_le _)
    change s₁.unread.length + 0 ≤ s.unread.length at h₁
    exact (ends_orLoop (by omega)).bind (fun s₂ _ => ends_semi s₂) (Nat.zero_le _)
  exact hrun.mono le_rfl List.prefix_rfl

/-- A `:` is read or reported as missing, and no token is added in either case. -/
lemma ends_colon (s : LlPar) :
    (if s.lookhead = Tok.colon then s.advance else s.lerror .colon).unread.length ≤
    s.unread.length ∧
    s.errors <+: (if s.lookhead = Tok.colon then s.advance else s.lerror .colon).errors := by
  split
  · exact ⟨length_advance_le s, by simp⟩
  · exact ⟨le_rfl, errors_lerror _ s⟩

/-- The rest of a rule that has no left-hand side is ignored. -/
lemma ends_lookforSemi (hn : s.unread.length < n) :
    Ends true s (lookfor [Tok.semi, Tok.separator] n s >>= fun s =>
    .ok (if s.lookhead = Tok.semi then s.advance else s)) := by
  refine (ends_lookfor (by decide) hn).bind (d := false) (fun s₁ _ => ?_) le_rfl
  split
  · exact ends_ok (length_advance_le s₁) (by simp)
  · exact ends_ok le_rfl List.prefix_rfl

/-- Every round of the loop of `body` reads at least one token. -/
lemma ends_rule (hs : s.lookhead ≠ eoi) (hn : s.unread.length < n) : Ends true s (rule n s) := by
  unfold rule
  split
  · dsimp only
    have hlen := length_advance (s := s.call (.newNonterm s.yytext true)) hs
    have herr : s.errors <+: (s.call (.newNonterm s.yytext true)).advance.errors := by
      rw [errors_advance]
      exact List.prefix_rfl
    change _ < s.unread.length at hlen
    obtain ⟨hle, herr'⟩ := ends_colon (s.call (.newNonterm s.yytext true)).advance
    refine (ends_rightSides (by omega)).mono ?_ (herr.trans herr')
    change _ + 1 ≤ _ + 0
    omega
  · exact (ends_lookforSemi (s := s.lerror (.nonterminal s.yytext)) hn).mono le_rfl
      (errors_lerror _ s)

/-- `body` comes to an end when it has a round for every token. -/
lemma ends_body (hn : s.unread.length < n) : Ends false s (body n s) := by
  induction n generalizing s with
  | zero => omega
  | succ n ih =>
    unfold body
    by_cases hs : s.lookhead ≠ Tok.separator ∧ s.lookhead ≠ eoi
    · rw [if_pos hs]
      refine (ends_rule hs.2 hn).bind (fun s' hlen => ih ?_) (Nat.zero_le _)
      change s'.unread.length + 1 ≤ _ at hlen
      omega
    · rw [if_neg hs]
      unfold skip
      split
      · refine ends_ok ?_ List.prefix_rfl
        change (s.unread.take 1 ++ s.unread.drop 2).length ≤ s.unread.length
        rw [List.length_append, List.length_take, List.length_drop]
        omega
      · exact ends_ok le_rfl List.prefix_rfl

/-- A computation that sees no error consists of computations that see none. -/
lemma exists_of_bind {b d : Bool} {r : Except ParFault LlPar} {f : LlPar → Except ParFault LlPar}
    (hr : Ends b s r) (hf : ∀ s₁, s₁.unread.length + b.toNat ≤ s.unread.length → Ends d s₁ (f s₁))
    (h : r >>= f = .ok s') (herr : s'.errors = s.errors) : ∃ s₁, r = .ok s₁ ∧ s₁.errors = s.errors ∧
      s₁.unread.length + b.toNat ≤ s.unread.length ∧ f s₁ = .ok s' := by
  rcases hr with rfl | ⟨s₁, rfl, hlen, hpre⟩
  · cases h
  rcases hf s₁ hlen with heof | ⟨s₂, heq, -, hpre'⟩
  · exact absurd (heof.symm.trans h) (by simp)
  · obtain rfl : s' = s₂ := Except.ok.inj (h.symm.trans heq)
    rw [herr] at hpre'
    exact ⟨s₁, rfl, hpre'.eq_of_length_le hpre.length_le, hlen, h⟩

end LlPar

/-- The parser returns, or it ends because a token that it looks for does not come before the end of
the file. -/
theorem llPar_ends (tokens : List LlToken) {n : ℕ} (hn : tokens.length < n) :
    llPar n tokens = .error .endOfFile ∨ ∃ s, llPar n tokens = .ok s := by
  have hends : Ends false ⟨tokens, [], []⟩ (llPar n tokens) := by
    refine (ends_definitions hn).bind (fun s' hlen => (ends_body (s := s'.call .firstSym) ?_).mono
      le_rfl ?_) (Nat.zero_le _)
    · exact Nat.lt_of_le_of_lt hlen hn
    · exact List.prefix_rfl
  rcases hends with heof | ⟨s, hs, -⟩
  · exact Or.inl heof
  · exact Or.inr ⟨s, hs⟩

/-- Theorem `llPar_ends` for a rule without an end, which exits in `lookfor`. -/
theorem llPar_ends_rule :
    llPar 3 [(Tok.separator, ['%', '%']), (Tok.name, ['s'])] = .error .endOfFile ∨
    ∃ s, llPar 3 [(Tok.separator, ['%', '%']), (Tok.name, ['s'])] = .ok s :=
  llPar_ends _ (by decide)

/-! ## The tokens of a specification -/

/-- The tokens of the definitions and the rules in the stripped down grammar. -/
def smallToks : List ℕ :=
  [Tok.action, Tok.codeBlock, Tok.colon, Tok.name, Tok.or, Tok.semi, Tok.synch, Tok.termSpec]

/-- The token is one of the stripped down grammar that this parser reads. -/
def LlToken.Small (t : LlToken) : Prop := t.1 ∈ smallToks

instance (t : LlToken) : Decidable t.Small := inferInstanceAs (Decidable (t.1 ∈ smallToks))

/-- The tokens up to the second `SEPARATOR`, when `k` is one.  The parser reads one token behind it,
for nothing. -/
def front : ℕ → List LlToken → List LlToken
  | _, [] => []
  | k, t :: v =>
    t :: if t.1 = Tok.separator then (match k with | 0 => [] | k + 1 => front k v) else front k v

namespace LlPar

variable {n k : ℕ} {t : LlToken} {u v w : List LlToken} {c : List ActsCall} {e : List ParError}
  {s s' : LlPar} {text : Lexeme}

/-- The stripped down grammar has no fields, no precedences, no groups, and two kinds of lists of
names. -/
lemma smallToks_ne :
    ∀ n ∈ smallToks, n ∉ [eoi, Tok.field, Tok.prec, Tok.startOpt, Tok.percentUnion, Tok.type,
      Tok.left, Tok.right, Tok.nonassoc, Tok.start, Tok.whitespace, Tok.separator] := by decide

/-- A token is one of the stripped down grammar when its code is. -/
lemma small_mk {m : ℕ} (hm : m ∈ smallToks) : LlToken.Small (m, text) := hm

/-- The other tokens are not in the stripped down grammar. -/
lemma not_small {m : ℕ}
    (hm : m ∈ [eoi, Tok.field, Tok.prec, Tok.startOpt, Tok.percentUnion, Tok.type, Tok.left,
    Tok.right, Tok.nonassoc, Tok.start, Tok.whitespace, Tok.separator]) :
    ¬ LlToken.Small (m, text) :=
  fun h => smallToks_ne m h hm

@[simp] lemma lookhead_mk : (⟨v, c, e⟩ : LlPar).lookhead = ahead v := rfl

@[simp] lemma ahead_cons : ahead (t :: v) = t.1 := rfl

@[simp] lemma yytext_mk : (⟨t :: v, c, e⟩ : LlPar).yytext = t.2 := rfl

@[simp] lemma call_mk {x : ActsCall} : (⟨v, c, e⟩ : LlPar).call x = ⟨v, c ++ [x], e⟩ := rfl

/-- Behind tokens of the grammar there is white space only if it is ahead at their end. -/
lemma ahead_append (hw : ∀ t ∈ w, t.Small) (hv : ahead v ≠ Tok.whitespace) :
    ahead (w ++ v) ≠ Tok.whitespace := by
  rcases w with _ | ⟨t, w⟩
  · exact hv
  · intro h
    exact smallToks_ne t.1 (hw t List.mem_cons_self)
      (by rw [show t.1 = Tok.whitespace from h]; simp)

/-- `advance` reads one token when no white space is behind it. -/
lemma advance_cons (ht : t.1 ≠ eoi) (hv : ahead v ≠ Tok.whitespace) :
    (⟨t :: v, c, e⟩ : LlPar).advance = ⟨v, c, e⟩ := by
  have hdrop : v.dropWhile (fun t => t.1 = Tok.whitespace) = v := by
    rcases v with _ | ⟨t', v⟩
    · rfl
    · rw [List.dropWhile_cons_of_neg]
      simpa using hv
  refine (if_pos ht).trans ?_
  exact congrArg (fun w => (⟨w, c, e⟩ : LlPar)) hdrop

/-- `advance` reads one token of the grammar when no white space is behind it. -/
lemma advance_small (ht : t.Small) (hv : ahead v ≠ Tok.whitespace) :
    (⟨t :: v, c, e⟩ : LlPar).advance = ⟨v, c, e⟩ :=
  advance_cons (fun h => smallToks_ne t.1 ht (by rw [h]; simp)) hv

/-! ### The parser reads what is spelled -/

/-- The loop of `rhs` reads the elements of a right-hand side and makes their calls. -/
lemma rhsLoop_spelled {r : Rhs} (h : r.Spelled w) (hw : ∀ t ∈ w, t.Small)
    (hv : ahead v ≠ Tok.whitespace) (hends : ¬ (ahead v = Tok.name ∨ ahead v = Tok.action))
    (hn : (w ++ v).length < n) : rhsLoop n ⟨w ++ v, c, e⟩ = .ok ⟨v, c ++ r.calls, e⟩ := by
  have hstep : ∀ {t : LlToken} {u : List LlToken} {n : ℕ} {c : List ActsCall}, t.Small →
      ahead (u ++ v) ≠ Tok.whitespace → t.1 = Tok.name ∨ t.1 = Tok.action →
      rhsLoop (n + 1) ⟨t :: (u ++ v), c, e⟩ =
        rhsLoop n ⟨u ++ v, c ++ [.addToRhs t.2 (t.1 = Tok.action)], e⟩ := by
    intro t u n c ht hu hgo
    refine (if_pos hgo).trans ?_
    rw [call_mk, advance_small ht hu]
    rfl
  obtain ⟨n, rfl⟩ : ∃ k, n = k + 1 := ⟨n - 1, by omega⟩
  induction h generalizing n c with
  | nil =>
    refine (if_neg hends).trans ?_
    rw [Rhs.calls, List.append_nil]
    rfl
  | @name object rest u h ih | @action object rest u h ih =>
    obtain ⟨ht, hu⟩ := List.forall_mem_cons.mp hw
    rw [List.cons_append, List.length_cons] at hn
    obtain ⟨n, rfl⟩ : ∃ k, n = k + 1 := ⟨n - 1, by omega⟩
    have hgo := hstep (n := n + 1) (c := c) ht (ahead_append hu hv) (by simp)
    refine hgo.trans ((ih hu n (by omega)).trans ?_)
    rw [List.append_assoc]
    rfl
  | field | prec | opt => exact absurd (hw _ List.mem_cons_self) (not_small (by simp))

/-- `rhs` reads a right-hand side without an error and makes its calls. -/
lemma rhs_spelled {r : Rhs} (h : r.Spelled w) (hw : ∀ t ∈ w, t.Small)
    (hends : ahead v = Tok.or ∨ ahead v = Tok.semi) (hn : (w ++ v).length < n) :
    rhs n ⟨w ++ v, c, e⟩ = .ok ⟨v, c ++ r.calls, e⟩ := by
  have hv : ahead v ≠ Tok.whitespace ∧ ¬ (ahead v = Tok.name ∨ ahead v = Tok.action) := by
    rcases hends with h | h <;> rw [h] <;> decide
  unfold rhs
  rw [rhsLoop_spelled h hw hv.1 hv.2 hn]
  refine if_neg ?_
  rintro ⟨hor, hsemi⟩
  exact hends.elim hor hsemi

/-- The right-hand sides of a rule, up to the semicolon. -/
lemma orLoop_spelled {rs : List Rhs} (h : SidesSpelled rs w) (hw : ∀ t ∈ w, t.Small)
    (hn : (w ++ v).length < n) (hk : (w ++ v).length < k) :
    ∃ lex, (rhs n ⟨w ++ v, c ++ [.newRhs], e⟩ >>= orLoop k) =
      .ok ⟨(Tok.semi, lex) :: v, c ++ sidesCalls rs, e⟩ := by
  obtain ⟨k, rfl⟩ : ∃ j, k = j + 1 := ⟨k - 1, by omega⟩
  induction h generalizing n k c with
  | @last r u lex h =>
    rw [List.append_assoc] at hn ⊢
    refine ⟨lex, ?_⟩
    rw [rhs_spelled h (fun t ht => hw t (List.mem_append_left _ ht)) (Or.inr rfl) hn]
    change orLoop (k + 1) ⟨(Tok.semi, lex) :: v, _, e⟩ = _
    rw [orLoop, if_neg (by simp), List.append_assoc]
    simp [sidesCalls]
  | @or r rs u u' lex h hrs ih =>
    rw [List.append_assoc, List.cons_append] at hn hk ⊢
    rw [List.length_append, List.length_cons] at hn hk
    obtain ⟨k, rfl⟩ : ∃ j, k = j + 1 := ⟨k - 1, by omega⟩
    obtain ⟨hu, hu'⟩ := List.forall_mem_append.mp hw
    obtain ⟨hor, hu'⟩ := List.forall_mem_cons.mp hu'
    obtain ⟨lex', hrest⟩ :=
      ih (n := k + 1 + 1) (c := c ++ [.newRhs] ++ r.calls) hu' (by omega) k (by omega)
    have hgo : ahead (u' ++ v) ≠ Tok.whitespace :=
      fun h => absurd (ahead_sides (v := v) hrs) (by rw [h]; decide)
    refine ⟨lex', ?_⟩
    rw [rhs_spelled h hu (Or.inl rfl) (by rw [List.length_append, List.length_cons]; omega)]
    change orLoop (k + 1 + 1) ⟨(Tok.or, lex) :: (u' ++ v), _, e⟩ = _
    rw [orLoop, if_pos (by simp), advance_small hor hgo, call_mk, hrest]
    simp [sidesCalls]

/-- `right_sides` reads the right-hand sides of a rule without an error and makes their calls. -/
lemma rightSides_spelled {rs : List Rhs} (h : SidesSpelled rs w) (hw : ∀ t ∈ w, t.Small)
    (hv : ahead v ≠ Tok.whitespace) (hn : (w ++ v).length < n) :
    rightSides n ⟨w ++ v, c, e⟩ = .ok ⟨v, c ++ sidesCalls rs, e⟩ := by
  obtain ⟨lex, hrun⟩ := orLoop_spelled (c := c) (e := e) h hw hn hn
  have hsides : rightSides n ⟨w ++ v, c, e⟩ = (rhs n ⟨w ++ v, c ++ [.newRhs], e⟩ >>= orLoop n) >>=
      fun s =>
      .ok (if s.lookhead = Tok.semi then s.advance else s.lerror .semi) := by
    rw [bind_assoc]
    rfl
  rw [hsides, hrun]
  exact congrArg Except.ok ((if_pos rfl).trans (advance_cons (show Tok.semi ≠ eoi by decide) hv))

/-- A round of `body` reads a rule without an error and makes its calls. -/
lemma rule_spelled {q : Rule} (h : q.Spelled w) (hw : ∀ t ∈ w, t.Small)
    (hv : ahead v ≠ Tok.whitespace) (hn : (w ++ v).length < n) :
    rule n ⟨w ++ v, c, e⟩ = .ok ⟨v, c ++ q.calls, e⟩ := by
  cases h with
  | @name u lex h =>
    obtain ⟨hname, hw⟩ := List.forall_mem_cons.mp hw
    obtain ⟨hcolon, hu⟩ := List.forall_mem_cons.mp hw
    rw [List.cons_append, List.cons_append] at hn ⊢
    rw [List.length_cons, List.length_cons] at hn
    have hsides :=
      rightSides_spelled (n := n) (c := c ++ [.newNonterm q.lhs true]) (e := e) h hu hv (by omega)
    rw [List.append_assoc] at hsides
    unfold rule
    refine (if_pos (lookhead_mk.trans ahead_cons)).trans ?_
    dsimp only
    rw [yytext_mk, call_mk, advance_small hname (by simp), lookhead_mk, ahead_cons, if_pos rfl,
      advance_small hcolon (ahead_append hu hv), hsides]
    rfl
  | field => exact absurd (hw _ List.mem_cons_self) (not_small (by simp))

/-- `body` reads the rules without an error and makes their calls. -/
lemma body_spelled {rules : List Rule} (h : AllSpelled Rule.Spelled rules w) (hw : ∀ t ∈ w, t.Small)
    (hends : ahead v = Tok.separator ∨ ahead v = eoi) (hn : (w ++ v).length < n) :
    body n ⟨w ++ v, c, e⟩ = .ok (skip ⟨v, c ++ rules.flatMap Rule.calls, e⟩) := by
  obtain ⟨n, rfl⟩ : ∃ k, n = k + 1 := ⟨n - 1, by omega⟩
  have hv : ahead v ≠ Tok.whitespace := by
    rcases hends with h | h <;> rw [h] <;> decide
  induction h generalizing n c with
  | nil =>
    refine (if_neg ?_).trans ?_
    · rintro ⟨hsep, heoi⟩
      exact hends.elim hsep heoi
    · simp
  | @cons q rules u u' h hrules ih =>
    obtain ⟨hu, hu'⟩ := List.forall_mem_append.mp hw
    rw [List.append_assoc] at hn ⊢
    have hgo : ahead (u ++ (u' ++ v)) = Tok.name ∧ 0 < u.length := by
      cases h with
      | name => exact ⟨rfl, Nat.succ_pos _⟩
      | field => exact absurd (hu _ List.mem_cons_self) (not_small (by simp))
    refine (if_pos (show ahead _ ≠ Tok.separator ∧ ahead _ ≠ eoi by rw [hgo.1]; decide)).trans ?_
    rw [rule_spelled h hu (ahead_append hu' hv) hn]
    rw [List.length_append] at hn
    obtain ⟨n, rfl⟩ : ∃ k, n = k + 1 := ⟨n - 1, by omega⟩
    refine (ih hu' n (by omega)).trans ?_
    rw [List.flatMap_cons, List.append_assoc]

/-- A list of names is read to its end, with one call for each name. -/
lemma names_spelled {f : Lexeme → ActsCall} (l : List Lexeme) (ht : t.Small)
    (hname : ahead v ≠ Tok.name) (hv : ahead v ≠ Tok.whitespace) (hn : l.length < n) :
    names f n ⟨t :: (l.map (fun text => (Tok.name, text)) ++ v), c, e⟩ =
    .ok ⟨v, c ++ l.map f, e⟩ := by
  obtain ⟨n, rfl⟩ : ∃ k, n = k + 1 := ⟨n - 1, by omega⟩
  induction l generalizing t n c with
  | nil =>
    unfold names
    rw [List.map_nil, List.nil_append, advance_small ht hv]
    refine (if_neg hname).trans ?_
    rw [List.map_nil, List.append_nil]
  | cons text l ih =>
    rw [List.length_cons] at hn
    obtain ⟨n, rfl⟩ : ∃ k, n = k + 1 := ⟨n - 1, by omega⟩
    have hrest :=
      ih (t := (Tok.name, text)) (c := c ++ [f text]) (show Tok.name ∈ smallToks by decide) n
        (by omega)
    unfold names
    rw [List.map_cons, List.cons_append, advance_small ht (by simp)]
    refine (if_pos (lookhead_mk.trans ahead_cons)).trans ?_
    rw [yytext_mk, call_mk, hrest, List.append_assoc]
    rfl

/-- A round of `definitions` reads a directive without an error and makes its calls. -/
lemma definition_spelled {d : Directive} (h : d.Spelled w) (hw : ∀ t ∈ w, t.Small)
    (hname : ahead v ≠ Tok.name) (hv : ahead v ≠ Tok.whitespace) (hn : (w ++ v).length < n) :
    definition n ⟨w ++ v, c, e⟩ = .ok ⟨v, c ++ d.calls, e⟩ := by
  have hlen : w.length < n + 1 := by
    rw [List.length_append] at hn
    omega
  cases h with
  | synch lex snames =>
    refine (if_pos rfl).trans (names_spelled snames (hw _ List.mem_cons_self) hname hv ?_)
    simpa using hlen
  | termSpec lex tnames =>
    obtain ⟨hhead, htail⟩ := List.forall_mem_cons.mp hw
    obtain ⟨l, rfl⟩ : ∃ l : List Lexeme, tnames = l.map FieldName.name := by
      clear hn hlen hw
      induction tnames with
      | nil => exact ⟨[], rfl⟩
      | cons x tnames ih =>
        obtain ⟨hx, htnames⟩ := List.forall_mem_cons.mp htail
        obtain ⟨l, rfl⟩ := ih htnames
        cases x with
        | name text => exact ⟨text :: l, rfl⟩
        | field text => exact absurd hx (not_small (by simp))
    have hnames :=
      names_spelled (t := (Tok.termSpec, lex)) (f := .makeTerm) (n := n) (c := c) (e := e) l
      hhead hname hv (by simpa using hlen)
    rw [Directive.calls, List.map_map, List.map_map]
    exact (if_neg (show ¬ Tok.termSpec = Tok.synch by decide)).trans ((if_pos rfl).trans hnames)
  | codeBlock lex =>
    refine (if_neg (show ¬ Tok.codeBlock = Tok.synch by decide)).trans
      ((if_neg (show ¬ Tok.codeBlock = Tok.termSpec by decide)).trans ((if_pos rfl).trans ?_))
    rw [Directive.calls, List.append_nil]
    exact congrArg Except.ok (advance_small (hw _ List.mem_cons_self) hv)
  | percentUnion | type | left | right | nonassoc | start =>
    exact absurd (hw _ List.mem_cons_self) (not_small (by simp))

/-- A directive begins with one of the three tokens that `definitions` knows. -/
lemma ahead_directive {d : Directive} (h : d.Spelled w) (hw : ∀ t ∈ w, t.Small) :
    ahead (w ++ v) ∈ [Tok.synch, Tok.termSpec, Tok.codeBlock] ∧ 0 < w.length := by
  cases h with
  | synch | termSpec | codeBlock => exact ⟨by simp, Nat.succ_pos _⟩
  | percentUnion | type | left | right | nonassoc | start =>
    exact absurd (hw _ List.mem_cons_self) (not_small (by simp))

/-- `definitions` reads the directives without an error and makes their calls. -/
lemma definitions_spelled {defs : List Directive} (h : AllSpelled Directive.Spelled defs w)
    (hw : ∀ t ∈ w, t.Small) (hends : ahead v = Tok.separator ∨ ahead v = eoi)
    (hn : (w ++ v).length < n) :
    definitions n ⟨w ++ v, c, e⟩ = .ok (advance ⟨v, c ++ defs.flatMap Directive.calls, e⟩) := by
  obtain ⟨n, rfl⟩ : ∃ k, n = k + 1 := ⟨n - 1, by omega⟩
  have hv : ahead v ≠ Tok.name ∧ ahead v ≠ Tok.whitespace := by
    rcases hends with h | h <;> rw [h] <;> decide
  induction h generalizing n c with
  | nil =>
    refine (if_neg ?_).trans ?_
    · rintro ⟨hsep, heoi⟩
      exact hends.elim hsep heoi
    · simp
  | @cons d defs u u' h hdefs ih =>
    obtain ⟨hu, hu'⟩ := List.forall_mem_append.mp hw
    rw [List.append_assoc] at hn ⊢
    obtain ⟨hgo, hpos⟩ := ahead_directive (v := u' ++ v) h hu
    have hname : ahead (u' ++ v) ≠ Tok.name := by
      cases hdefs with
      | nil => exact hv.1
      | cons h' hdefs' =>
        rw [List.append_assoc]
        intro heq
        exact absurd (ahead_directive h' (List.forall_mem_append.mp hu').1).1 (by rw [heq]; decide)
    have hgo' : ahead (u ++ (u' ++ v)) ≠ Tok.separator ∧ ahead (u ++ (u' ++ v)) ≠ eoi := by
      constructor <;> intro heq <;> exact absurd hgo (by rw [heq]; decide)
    refine (if_pos hgo').trans ?_
    rw [definition_spelled h hu hname (ahead_append hu' hv.2) hn]
    rw [List.length_append] at hn
    obtain ⟨n, rfl⟩ : ∃ k, n = k + 1 := ⟨n - 1, by omega⟩
    refine (ih hu' n (by omega)).trans ?_
    rw [List.flatMap_cons, List.append_assoc]

/-! ### What is read without an error is spelled -/

/-- No token of the front is the end of the input or white space, which the lexical analyzer ignores
there. -/
def Dense (k : ℕ) (v : List LlToken) : Prop := ∀ t ∈ front k v, t.1 ≠ eoi ∧ t.1 ≠ Tok.whitespace

/-- A token in front that is no `SEPARATOR` belongs to the front. -/
lemma front_cons (ht : t.1 ≠ Tok.separator) : front k (t :: v) = t :: front k v := by
  rw [front.eq_def]
  simp only [if_neg ht]

/-- In a dense sequence of tokens no white space is ahead. -/
lemma Dense.ahead (h : Dense k v) : Parser.ahead v ≠ Tok.whitespace := by
  rcases v with _ | ⟨t, v⟩
  · exact show eoi ≠ Tok.whitespace by decide
  · exact (h t List.mem_cons_self).2

/-- The tokens behind tokens of the grammar are dense when all are. -/
lemma Dense.right (h : Dense k (w ++ v)) (hw : ∀ t ∈ w, t.Small) : Dense k v := by
  induction w with
  | nil => exact h
  | cons t w ih =>
    obtain ⟨ht, hw⟩ := List.forall_mem_cons.mp hw
    have hsep : t.1 ≠ Tok.separator := fun heq => smallToks_ne t.1 ht (by rw [heq]; simp)
    refine ih (fun t' ht' => h t' ?_) hw
    rw [List.cons_append, front_cons hsep]
    exact List.mem_cons_of_mem t ht'

/-- The tokens behind the first `SEPARATOR` are dense up to one `SEPARATOR` less. -/
lemma Dense.separator (h : Dense (k + 1) ((Tok.separator, text) :: v)) : Dense k v :=
  fun t ht => h t (List.mem_cons_of_mem _ ht)

/-- When the code ahead is not `_EOI_` there is a token with this code. -/
lemma exists_of_ahead {m : ℕ} (h : ahead v = m) (hm : m ≠ eoi) : ∃ lex x, v = (m, lex) :: x := by
  rcases v with _ | ⟨⟨code, lex⟩, x⟩
  · exact absurd h.symm hm
  · obtain rfl : code = m := h
    exact ⟨lex, x, rfl⟩

/-- The names ahead can be split off from the tokens behind them. -/
lemma exists_names (v : List LlToken) :
    ∃ (l : List Lexeme) (v' : List LlToken), v = l.map (fun text => (Tok.name, text)) ++ v' ∧
      ahead v' ≠ Tok.name := by
  induction v with
  | nil => exact ⟨[], [], rfl, show eoi ≠ Tok.name by decide⟩
  | cons t v ih =>
    by_cases ht : t.1 = Tok.name
    · obtain ⟨l, v', rfl, hv'⟩ := ih
      obtain ⟨code, text⟩ := t
      obtain rfl : code = Tok.name := ht
      exact ⟨text :: l, v', rfl, hv'⟩
    · exact ⟨[], t :: v, rfl, ht⟩

/-- The names and actions ahead can be split off as a right-hand side. -/
lemma exists_elements (v : List LlToken) : ∃ (r : Rhs) (w v' : List LlToken), r.Spelled w ∧
    (∀ t ∈ w, t.Small) ∧ v = w ++ v' ∧ ¬ (ahead v' = Tok.name ∨ ahead v' = Tok.action) := by
  induction v with
  | nil =>
    exact ⟨.nil, [], [], .nil, by simp, rfl, show ¬ (eoi = Tok.name ∨ eoi = Tok.action) by decide⟩
  | cons t v ih =>
    obtain ⟨code, text⟩ := t
    obtain ⟨r, w, v', hr, hw, rfl, hv'⟩ := ih
    by_cases hname : code = Tok.name
    · subst hname
      exact ⟨.name text r, _, v', .name hr, List.forall_mem_cons.mpr ⟨small_mk (by decide), hw⟩,
        rfl, hv'⟩
    by_cases haction : code = Tok.action
    · subst haction
      exact ⟨.action text r, _, v', .action hr, List.forall_mem_cons.mpr ⟨small_mk (by decide), hw⟩,
        rfl, hv'⟩
    · exact ⟨.nil, [], _, .nil, by simp, rfl, not_or.mpr ⟨hname, haction⟩⟩

/-- When an error has been reported the errors are not those from before. -/
lemma Ends.errors_ne {b : Bool} {x : ParError} (h : Ends b (s.lerror x) (.ok s')) :
    s'.errors ≠ s.errors := by
  rcases h with h | ⟨s₁, h, -, hpre⟩
  · cases h
  · obtain rfl := Except.ok.inj h
    intro heq
    have hlen := hpre.length_le
    rw [heq] at hlen
    simp [lerror] at hlen

/-- When `rhs` reports no error, its tokens spell a right-hand side and it made its calls. -/
lemma exists_rhs (hdense : Dense k v) (hn : v.length < n) (h : rhs n ⟨v, c, e⟩ = .ok s')
    (herr : s'.errors = e) : ∃ (r : Rhs) (w v' : List LlToken), r.Spelled w ∧ (∀ t ∈ w, t.Small) ∧
    v = w ++ v' ∧
      (ahead v' = Tok.or ∨ ahead v' = Tok.semi) ∧ s' = ⟨v', c ++ r.calls, e⟩ := by
  obtain ⟨r, w, v', hr, hw, rfl, hv'⟩ := exists_elements v
  refine ⟨r, w, v', hr, hw, rfl, ?_⟩
  unfold rhs at h
  rw [rhsLoop_spelled hr hw (hdense.right hw).ahead hv' hn] at h
  change (if ahead v' ≠ Tok.or ∧ ahead v' ≠ Tok.semi then _ else _) = _ at h
  split at h
  · have hends :
        Ends true (lerror (.production (yytext ⟨v', c ++ r.calls, e⟩)) ⟨v', c ++ r.calls, e⟩)
        (.ok s') := by
      rw [← h]
      rw [List.length_append] at hn
      exact ends_lookfor (by decide) (Nat.lt_of_le_of_lt (Nat.le_add_left _ _) hn)
    exact absurd herr hends.errors_ne
  · rename_i hends
    refine ⟨?_, (Except.ok.inj h).symm⟩
    rw [not_and_or, not_not, not_not] at hends
    exact hends

/-- When no error is reported, the tokens read spell right-hand sides up to a semicolon. -/
lemma exists_sides (hdense : Dense k v) {m : ℕ} (hn : v.length < n) (hm : v.length < m)
    (h : (rhs n ⟨v, c ++ [.newRhs], e⟩ >>= orLoop m) = .ok s') (herr : s'.errors = e) :
    ∃ (rs : List Rhs) (w : List LlToken) (lex : Lexeme) (x : List LlToken), SidesSpelled rs w ∧
      (∀ t ∈ w, t.Small) ∧ v = w ++ x ∧ s' = ⟨(Tok.semi, lex) :: x, c ++ sidesCalls rs, e⟩ := by
  induction m generalizing n v c with
  | zero => omega
  | succ m ih =>
    have hbind := exists_of_bind (s := ⟨v, c ++ [.newRhs], e⟩) (f := orLoop (m + 1)) (ends_rhs hn)
      (fun s₁ hlen => ends_orLoop (Nat.lt_of_le_of_lt hlen hm)) h herr
    obtain ⟨s₁, hrhs, herr₁, hlen, hrest⟩ := hbind
    obtain ⟨r, w, v', hr, hw, rfl, hends, rfl⟩ := exists_rhs hdense hn hrhs herr₁
    rcases hends with hor | hsemi
    · obtain ⟨lex, x, rfl⟩ := exists_of_ahead hor (by decide)
      have hx : Dense k x :=
        (hdense.right hw).right (w := [(Tok.or, lex)])
          (List.forall_mem_singleton.mpr (small_mk (by decide)))
      rw [orLoop, if_pos (by simp), advance_small (small_mk (by decide)) hx.ahead, call_mk] at hrest
      rw [List.length_append, List.length_cons] at hn hm
      obtain ⟨rs, w', lex', y, hrs, hw', rfl, rfl⟩ := ih hx (by omega) (by omega) hrest
      refine ⟨r :: rs, w ++ (Tok.or, lex) :: w', lex', y, .or lex hr hrs, ?_, by simp, ?_⟩
      · exact List.forall_mem_append.mpr ⟨hw, List.forall_mem_cons.mpr ⟨small_mk (by decide), hw'⟩⟩
      · simp [sidesCalls]
    · obtain ⟨lex, x, rfl⟩ := exists_of_ahead hsemi (by decide)
      rw [orLoop, if_neg (by simp)] at hrest
      obtain rfl := Except.ok.inj hrest
      refine ⟨[r], w ++ [(Tok.semi, lex)], lex, x, .last lex hr, ?_, by simp, ?_⟩
      · exact List.forall_mem_append.mpr ⟨hw, List.forall_mem_singleton.mpr (small_mk (by decide))⟩
      · simp [sidesCalls]

/-- The right-hand sides of a rule that are read without an error. -/
lemma exists_rightSides (hdense : Dense k v) (hn : v.length < n)
    (h : rightSides n ⟨v, c, e⟩ = .ok s') (herr : s'.errors = e) :
    ∃ (rs : List Rhs) (w v' : List LlToken), SidesSpelled rs w ∧ (∀ t ∈ w, t.Small) ∧
      v = w ++ v' ∧ s' = ⟨v', c ++ sidesCalls rs, e⟩ := by
  have hbind :=
    exists_of_bind (s := ⟨v, c ++ [.newRhs], e⟩) (r := rhs n ⟨v, c ++ [.newRhs], e⟩ >>= orLoop n)
    (f := fun s => .ok (if s.lookhead = Tok.semi then s.advance else s.lerror .semi))
    ((ends_rhs hn).bind (c := false) (fun s₁ hlen => ends_orLoop (Nat.lt_of_le_of_lt hlen hn))
      (Nat.zero_le _))
    (fun s₁ _ => ends_semi s₁) ?_ herr
  · obtain ⟨s₁, hsides, herr₁, -, hend⟩ := hbind
    obtain ⟨rs, w, lex, x, hrs, hw, rfl, rfl⟩ := exists_sides hdense hn hn hsides herr₁
    refine ⟨rs, w, x, hrs, hw, rfl, ?_⟩
    obtain rfl := Except.ok.inj hend
    exact (if_pos rfl).trans (advance_small (small_mk (by decide)) (hdense.right hw).ahead)
  · rw [bind_assoc]
    exact h

/-- When a round of `body` reports no error, its tokens spell a rule and it made its calls. -/
lemma exists_rule (hdense : Dense k v) (hn : v.length < n) (h : rule n ⟨v, c, e⟩ = .ok s')
    (herr : s'.errors = e) : ∃ (q : Rule) (w v' : List LlToken), q.Spelled w ∧ (∀ t ∈ w, t.Small) ∧
    v = w ++ v' ∧
      s' = ⟨v', c ++ q.calls, e⟩ := by
  by_cases hname : ahead v = Tok.name
  · obtain ⟨lhs, x, rfl⟩ := exists_of_ahead hname (by decide)
    have hx : Dense k x :=
      hdense.right (w := [(Tok.name, lhs)]) (List.forall_mem_singleton.mpr (small_mk (by decide)))
    rw [List.length_cons] at hn
    unfold rule at h
    rw [if_pos (lookhead_mk.trans ahead_cons)] at h
    dsimp only at h
    rw [yytext_mk, call_mk, advance_small (small_mk (by decide)) hx.ahead, lookhead_mk] at h
    by_cases hcolon : ahead x = Tok.colon
    · obtain ⟨lex, y, rfl⟩ := exists_of_ahead hcolon (by decide)
      have hy : Dense k y :=
        hx.right (w := [(Tok.colon, lex)]) (List.forall_mem_singleton.mpr (small_mk (by decide)))
      rw [List.length_cons] at hn
      rw [if_pos hcolon, advance_small (small_mk (by decide)) hy.ahead] at h
      obtain ⟨rs, w, v', hrs, hw, rfl, rfl⟩ := exists_rightSides hy (by omega) h herr
      obtain ⟨r, rs, rfl⟩ := List.exists_cons_of_ne_nil hrs.ne_nil
      refine ⟨⟨lhs, r, rs⟩, _, v', .name lex hrs, ?_, rfl, ?_⟩
      · exact List.forall_mem_cons.mpr ⟨small_mk (by decide), List.forall_mem_cons.mpr
          ⟨small_mk (by decide), hw⟩⟩
      · rw [List.append_assoc]
        rfl
    · rw [if_neg hcolon] at h
      have hends :=
        ends_rightSides (s := lerror .colon ⟨x, c ++ [.newNonterm lhs true], e⟩) (n := n)
        (show x.length < n by omega)
      rw [h] at hends
      exact absurd herr hends.errors_ne
  · rw [rule, lookhead_mk, if_neg hname] at h
    have hends :=
      ends_lookforSemi (s := lerror (.nonterminal (yytext ⟨v, c, e⟩)) ⟨v, c, e⟩) (n := n) hn
    rw [show (lookfor _ n _ >>= _) = .ok s' from h] at hends
    exact absurd herr hends.errors_ne

/-- When `body` reports no error, its tokens spell rules and it made their calls. -/
lemma exists_rules (hdense : Dense k v) (hn : v.length < n) (h : body n ⟨v, c, e⟩ = .ok s')
    (herr : s'.errors = e) :
    ∃ (rules : List Rule) (w v' : List LlToken), AllSpelled Rule.Spelled rules w ∧
      (∀ t ∈ w, t.Small) ∧ v = w ++ v' ∧ (ahead v' = Tok.separator ∨ ahead v' = eoi) ∧
      s' = skip ⟨v', c ++ rules.flatMap Rule.calls, e⟩ := by
  induction n generalizing v c with
  | zero => omega
  | succ n ih =>
    rw [body, lookhead_mk] at h
    by_cases hgo : ahead v ≠ Tok.separator ∧ ahead v ≠ eoi
    · rw [if_pos hgo] at h
      have hends : ∀ s₁ : LlPar, s₁.unread.length + true.toNat ≤ v.length →
          Ends false s₁ (body n s₁) := by
        intro s₁ hlen
        change s₁.unread.length + 1 ≤ v.length at hlen
        exact ends_body (by omega)
      obtain ⟨s₁, hrule, herr₁, hlen, hrest⟩ :=
        exists_of_bind (ends_rule (s := ⟨v, c, e⟩) hgo.2 hn) hends h herr
      obtain ⟨q, w, v', hq, hw, rfl, rfl⟩ := exists_rule hdense hn hrule herr₁
      change v'.length + 1 ≤ (w ++ v').length at hlen
      obtain ⟨rules, w', x, hrules, hw', rfl, hends, rfl⟩ := ih (hdense.right hw) (by omega) hrest
      refine ⟨q :: rules, w ++ w', x, .cons hq hrules, ?_, by simp, hends, ?_⟩
      · exact List.forall_mem_append.mpr ⟨hw, hw'⟩
      · rw [List.flatMap_cons, List.append_assoc]
    · rw [if_neg hgo] at h
      refine ⟨[], [], v, .nil, by simp, rfl, ?_, ?_⟩
      · rw [not_and_or, not_not, not_not] at hgo
        exact hgo
      · rw [← Except.ok.inj h]
        simp

/-- When a round of `definitions` reports no error, its tokens spell a directive. -/
lemma exists_definition (hdense : Dense k v) (hv : ahead v ≠ eoi) (hn : v.length < n)
    (h : definition n ⟨v, c, e⟩ = .ok s') (herr : s'.errors = e) :
    ∃ (d : Directive) (w v' : List LlToken),
      d.Spelled w ∧ (∀ t ∈ w, t.Small) ∧ v = w ++ v' ∧ s' = ⟨v', c ++ d.calls, e⟩ := by
  have hsmall : ∀ {m : ℕ} (lex : Lexeme) (l : List Lexeme), m ∈ smallToks →
      ∀ t ∈ (m, lex) :: l.map (fun text => (Tok.name, text)), LlToken.Small t := by
    intro m lex l hm
    refine List.forall_mem_cons.mpr ⟨small_mk hm, ?_⟩
    rw [List.forall_mem_map]
    exact fun text _ => small_mk (by decide)
  unfold definition at h
  rw [lookhead_mk] at h
  by_cases hsynch : ahead v = Tok.synch
  · obtain ⟨lex, x, rfl⟩ := exists_of_ahead hsynch (by decide)
    obtain ⟨l, v', rfl, hname⟩ := exists_names x
    have hw := hsmall (m := Tok.synch) lex l (by decide)
    rw [if_pos hsynch, names_spelled l (small_mk (by decide)) hname (hdense.right hw).ahead
      (by simp at hn; omega)] at h
    exact ⟨.synch l, _, v', .synch lex l, hw, rfl, (Except.ok.inj h).symm⟩
  rw [if_neg hsynch] at h
  by_cases hterm : ahead v = Tok.termSpec
  · obtain ⟨lex, x, rfl⟩ := exists_of_ahead hterm (by decide)
    obtain ⟨l, v', rfl, hname⟩ := exists_names x
    have hw := hsmall (m := Tok.termSpec) lex l (by decide)
    rw [if_pos hterm, names_spelled l (small_mk (by decide)) hname (hdense.right hw).ahead
      (by simp at hn; omega)] at h
    have hd := Directive.Spelled.termSpec lex (l.map FieldName.name)
    rw [List.map_map] at hd
    refine ⟨_, _, v', hd, hw, rfl, ?_⟩
    rw [Directive.calls, List.map_map]
    exact (Except.ok.inj h).symm
  rw [if_neg hterm] at h
  by_cases hcode : ahead v = Tok.codeBlock
  · obtain ⟨lex, x, rfl⟩ := exists_of_ahead hcode (by decide)
    have hw : ∀ t ∈ [(Tok.codeBlock, lex)], LlToken.Small t :=
      List.forall_mem_singleton.mpr (small_mk (by decide))
    rw [if_pos hcode, advance_small (small_mk (by decide)) (hdense.right hw).ahead] at h
    refine ⟨.codeBlock, _, x, .codeBlock lex, hw, rfl, ?_⟩
    rw [Directive.calls, List.append_nil]
    exact (Except.ok.inj h).symm
  rw [if_neg hcode] at h
  have hends : Ends false (lerror (.definition (yytext ⟨v, c, e⟩)) ⟨v, c, e⟩) (.ok s') :=
    ends_ok (by rw [← Except.ok.inj h]; exact length_advance_le _)
      (by rw [← Except.ok.inj h, errors_advance])
  exact absurd herr hends.errors_ne

/-- When `definitions` reports no error, its tokens spell directives and it made their calls. -/
lemma exists_definitions (hdense : Dense k v) (hn : v.length < n)
    (h : definitions n ⟨v, c, e⟩ = .ok s') (herr : s'.errors = e) :
    ∃ (defs : List Directive) (w v' : List LlToken), AllSpelled Directive.Spelled defs w ∧
      (∀ t ∈ w, t.Small) ∧ v = w ++ v' ∧ (ahead v' = Tok.separator ∨ ahead v' = eoi) ∧
      s' = advance ⟨v', c ++ defs.flatMap Directive.calls, e⟩ := by
  induction n generalizing v c with
  | zero => omega
  | succ n ih =>
    rw [definitions, lookhead_mk] at h
    by_cases hgo : ahead v ≠ Tok.separator ∧ ahead v ≠ eoi
    · rw [if_pos hgo] at h
      have hends : ∀ s₁ : LlPar, s₁.unread.length + true.toNat ≤ v.length →
          Ends false s₁ (definitions n s₁) := by
        intro s₁ hlen
        change s₁.unread.length + 1 ≤ v.length at hlen
        exact ends_definitions (by omega)
      obtain ⟨s₁, hdef, herr₁, hlen, hrest⟩ :=
        exists_of_bind (ends_definition (s := ⟨v, c, e⟩) hgo.2 hn) hends h herr
      obtain ⟨d, w, v', hd, hw, rfl, rfl⟩ := exists_definition hdense hgo.2 hn hdef herr₁
      change v'.length + 1 ≤ (w ++ v').length at hlen
      obtain ⟨defs, w', x, hdefs, hw', rfl, hends, rfl⟩ := ih (hdense.right hw) (by omega) hrest
      refine ⟨d :: defs, w ++ w', x, .cons hd hdefs, ?_, by simp, hends, ?_⟩
      · exact List.forall_mem_append.mpr ⟨hw, hw'⟩
      · rw [List.flatMap_cons, List.append_assoc]
    · rw [if_neg hgo] at h
      refine ⟨[], [], v, .nil, by simp, rfl, ?_, ?_⟩
      · rw [not_and_or, not_not, not_not] at hgo
        exact hgo
      · rw [← Except.ok.inj h]
        simp

end LlPar

/-- The tokens of a specification in the stripped down grammar, and the tokens behind a second
`SEPARATOR`.  Directives may stand alone. -/
inductive Spec.SmallSpelled : Spec → List LlToken → List LlToken → Prop
  /-- The rules end with the input. -/
  | whole {spec : Spec} {u u' : List LlToken} (lex : Lexeme)
      (hdefs : AllSpelled Directive.Spelled spec.defs u)
      (hrules : AllSpelled Rule.Spelled spec.rules u') (hu : ∀ t ∈ u, t.Small)
      (hu' : ∀ t ∈ u', t.Small) : SmallSpelled spec (u ++ (Tok.separator, lex) :: u') []
  /-- The rules end with a `SEPARATOR`. -/
  | tail {spec : Spec} {u u' : List LlToken} (lex lex' : Lexeme) (v : List LlToken)
      (hdefs : AllSpelled Directive.Spelled spec.defs u)
      (hrules : AllSpelled Rule.Spelled spec.rules u') (hu : ∀ t ∈ u, t.Small)
      (hu' : ∀ t ∈ u', t.Small) :
      SmallSpelled spec (u ++ (Tok.separator, lex) :: (u' ++ (Tok.separator, lex') :: v)) v
  /-- There are only directives, and no `SEPARATOR`. -/
  | defs {spec : Spec} {u : List LlToken} (hdefs : AllSpelled Directive.Spelled spec.defs u)
      (hrules : spec.rules = []) (hu : ∀ t ∈ u, t.Small) : SmallSpelled spec u []

section Specs

variable {n : ℕ} {tokens v : List LlToken} {s : LlPar}

/-- A specification that is read without an error. -/
lemma exists_smallSpelled (hdense : Dense 1 tokens) (hn : tokens.length < n)
    (h : llPar n tokens = .ok s) (herr : s.errors = []) :
    ∃ (spec : Spec) (v : List LlToken), spec.SmallSpelled tokens v ∧ s.calls = spec.calls ∧
      s.unread.tail = v.tail := by
  obtain ⟨s₁, hdefs', herr₁, -, hbody⟩ :=
    exists_of_bind (ends_definitions (s := ⟨tokens, [], []⟩) hn)
    (fun s₁ hlen => ends_body (s := s₁.call .firstSym) (Nat.lt_of_le_of_lt hlen hn)) h herr
  obtain ⟨defs, u, x, hdefs, hu, rfl, hends, rfl⟩ := exists_definitions hdense hn hdefs' herr₁
  have hx : Dense 1 x := hdense.right hu
  rcases x with _ | ⟨⟨code, lex⟩, x⟩
  · obtain ⟨n, rfl⟩ : ∃ k, n = k + 1 := ⟨n - 1, by omega⟩
    have hs : body (n + 1) ⟨[], defs.flatMap Directive.calls ++ [.firstSym], []⟩ = .ok s := hbody
    rw [body, if_neg (by simp [ahead])] at hs
    obtain rfl := Except.ok.inj hs
    rw [List.append_nil]
    exact ⟨⟨defs, []⟩, [], .defs hdefs rfl hu, by simp [LlPar.skip, Spec.calls, ahead], rfl⟩
  obtain rfl : code = Tok.separator := by
    rcases hends with h | h
    · exact h
    · exact absurd h (hx _ List.mem_cons_self).1
  have hx' : Dense 0 x := hx.separator
  rw [advance_cons (show Tok.separator ≠ eoi by decide) hx'.ahead] at hbody
  rw [List.length_append, List.length_cons] at hn
  obtain ⟨rules, u', y, hrules, hu', rfl, hends', rfl⟩ :=
    LlPar.exists_rules hx' (show x.length < n by omega) hbody herr
  rcases y with _ | ⟨⟨code, lex'⟩, y⟩
  · rw [List.append_nil]
    exact ⟨⟨defs, rules⟩, [],
      .whole lex hdefs hrules hu hu', by simp [LlPar.skip, Spec.calls, ahead], rfl⟩
  obtain rfl : code = Tok.separator := by
    rcases hends' with h | h
    · exact h
    · exact absurd h ((hx'.right hu') _ List.mem_cons_self).1
  exact ⟨⟨defs, rules⟩, y, .tail lex lex' y hdefs hrules hu hu', by simp [LlPar.skip, Spec.calls],
    by simp [LlPar.skip]⟩

/-- A specification of the stripped down grammar is read without an error, with its calls. -/
lemma Spec.SmallSpelled.llPar {spec : Spec} (h : spec.SmallSpelled tokens v)
    (hn : tokens.length < n) : ∃ s, Parser.llPar n tokens = .ok s ∧ s.errors = [] ∧
    s.calls = spec.calls ∧ s.unread.tail = v.tail := by
  have hrun : ∀ {u x y : List LlToken} {lex : Lexeme} {defs : List Directive} {rules : List Rule},
      AllSpelled Directive.Spelled defs u → AllSpelled Rule.Spelled rules x → (∀ t ∈ u, t.Small) →
      (∀ t ∈ x, t.Small) → (ahead y = Tok.separator ∨ ahead y = eoi) →
      (u ++ (Tok.separator, lex) :: (x ++ y)).length < n →
        Parser.llPar n (u ++ (Tok.separator, lex) :: (x ++ y)) =
          .ok
          (LlPar.skip ⟨y, defs.flatMap Directive.calls ++ [.firstSym] ++ rules.flatMap Rule.calls,
          []⟩) := by
    intro u x y lex defs rules hdefs hrules hu hx hends hn
    have hy : ahead y ≠ Tok.whitespace := by
      rcases hends with h | h <;> rw [h] <;> decide
    unfold Parser.llPar
    rw [definitions_spelled hdefs hu (Or.inl rfl) hn,
      advance_cons (show Tok.separator ≠ eoi by decide) (ahead_append hx hy)]
    rw [List.length_append, List.length_cons] at hn
    exact body_spelled hrules hx hends (by omega)
  cases h with
  | @whole u u' lex hdefs hrules hu hu' =>
    rw [← List.append_nil u'] at hn ⊢
    refine ⟨_, hrun hdefs hrules hu hu' (Or.inr rfl) hn, rfl, ?_, rfl⟩
    simp [LlPar.skip, Spec.calls, ahead]
  | @tail u u' lex lex' v hdefs hrules hu hu' =>
    refine ⟨_, hrun hdefs hrules hu hu' (Or.inl rfl) hn, ?_, ?_, ?_⟩
    · simp [LlPar.skip]
    · simp [LlPar.skip, Spec.calls]
    · simp [LlPar.skip]
  | defs hdefs hrules hu =>
    have hdefs' :=
      definitions_spelled (v := []) (n := n) (c := []) (e := []) hdefs hu (Or.inr rfl)
        (by simpa using hn)
    rw [List.append_nil] at hdefs'
    obtain ⟨n, rfl⟩ : ∃ k, n = k + 1 := ⟨n - 1, by omega⟩
    refine ⟨LlPar.skip ⟨[], spec.defs.flatMap Directive.calls ++ [.firstSym], []⟩, ?_, rfl, ?_, rfl⟩
    · unfold Parser.llPar
      rw [hdefs']
      rfl
    · simp [LlPar.skip, Spec.calls, hrules, ahead]

/-- The parser sees no error exactly on the specifications in the stripped down grammar and on
directives alone.  Then it has made the calls of the specification, and has lost the first token
behind the second `SEPARATOR`. -/
theorem llPar_iff (hdense : Dense 1 tokens) (hn : tokens.length < n) {calls : List ActsCall}
    {rest : List LlToken} :
    (∃ s, llPar n tokens = .ok s ∧ s.errors = [] ∧ s.calls = calls ∧ s.unread.tail = rest) ↔
      ∃ (spec : Spec) (v : List LlToken), spec.SmallSpelled tokens v ∧ calls = spec.calls ∧
        rest = v.tail := by
  constructor
  · rintro ⟨s, hs, herr, rfl, rfl⟩
    exact exists_smallSpelled hdense hn hs herr
  · rintro ⟨spec, v, hspec, rfl, rfl⟩
    exact hspec.llPar hn

/-- The tokens of a small specification with a second `SEPARATOR`. -/
def smallTokens : List LlToken :=
  [(Tok.termSpec, "%term".toList), (Tok.name, ['X']), (Tok.separator, ['%', '%']),
    (Tok.name, ['s']), (Tok.colon, [':']), (Tok.name, ['X']), (Tok.or, ['|']), (Tok.action,
    ['{', '}']), (Tok.semi, [';']), (Tok.separator, ['%', '%']), (Tok.whitespace, [' '])]

/-- The calls of `acts.c` that the small specification asks for. -/
def smallCalls : List ActsCall :=
  [.makeTerm ['X'], .firstSym, .newNonterm ['s'] true, .newRhs, .addToRhs ['X'] false, .newRhs,
    .addToRhs ['{', '}'] true]

/-- Theorem `llPar_iff` for the small specification, which the parser reads without an error. -/
theorem llPar_iff_smallTokens :
    ∃ (spec : Spec) (v : List LlToken), spec.SmallSpelled smallTokens v ∧ smallCalls = spec.calls ∧
      [] = v.tail := by
  have hdense : Dense 1 smallTokens := by
    unfold LlPar.Dense
    decide
  exact (llPar_iff (n := 12) hdense (by decide)).mp ⟨_, rfl, rfl, rfl, rfl⟩

end Specs

/-! ## The two parsers -/

section Same

variable {n : ℕ} {tokens u v w : List LlToken}

/-- Tokens that spell a right-hand side hold no `SEPARATOR`. -/
lemma Rhs.Spelled.ne_separator {r : Rhs} (h : r.Spelled w) : ∀ t ∈ w, t.1 ≠ Tok.separator := by
  induction h with
  | nil => simp
  | name h ih | field h ih | action h ih => exact List.forall_mem_cons.mpr ⟨by simp, ih⟩
  | prec lex h ih =>
    exact List.forall_mem_cons.mpr ⟨by simp, List.forall_mem_cons.mpr ⟨by simp, ih⟩⟩
  | opt lex lex' hbody h ihbody ih =>
    exact List.forall_mem_cons.mpr
      ⟨by simp, List.forall_mem_append.mpr ⟨ihbody, List.forall_mem_cons.mpr ⟨by simp, ih⟩⟩⟩

/-- Tokens that spell right-hand sides hold no `SEPARATOR`. -/
lemma SidesSpelled.ne_separator {rs : List Rhs} (h : SidesSpelled rs w) :
    ∀ t ∈ w, t.1 ≠ Tok.separator := by
  induction h with
  | last lex h =>
    exact List.forall_mem_append.mpr ⟨h.ne_separator, List.forall_mem_singleton.mpr (by simp)⟩
  | or lex h hrs ih =>
    exact List.forall_mem_append.mpr ⟨h.ne_separator, List.forall_mem_cons.mpr ⟨by simp, ih⟩⟩

/-- Tokens that spell a rule hold no `SEPARATOR`. -/
lemma Rule.Spelled.ne_separator {q : Rule} (h : q.Spelled w) : ∀ t ∈ w, t.1 ≠ Tok.separator := by
  cases h with
  | name lex h | field lex h =>
    exact List.forall_mem_cons.mpr ⟨by simp, List.forall_mem_cons.mpr ⟨by simp, h.ne_separator⟩⟩

/-- Tokens that spell a directive hold no `SEPARATOR`. -/
lemma Directive.Spelled.ne_separator {d : Directive} (h : d.Spelled w) :
    ∀ t ∈ w, t.1 ≠ Tok.separator := by
  have hfields : ∀ l : List FieldName, ∀ t ∈ l.map FieldName.token, t.1 ≠ Tok.separator := by
    intro l
    rw [List.forall_mem_map]
    rintro (text | text) - <;> simp [FieldName.token]
  cases h with
  | synch lex snames | start lex snames => exact List.forall_mem_cons.mpr ⟨by simp, by simp⟩
  | percentUnion | codeBlock => simp
  | type lex l | termSpec lex l | left lex l | right lex l | nonassoc lex l =>
    exact List.forall_mem_cons.mpr ⟨by simp, hfields l⟩

/-- Tokens that spell a list of parts hold no `SEPARATOR` when no part does. -/
lemma AllSpelled.ne_separator {α : Type} {spelled : α → List LlToken → Prop}
    (hone : ∀ {a w}, spelled a w → ∀ t ∈ w, t.1 ≠ Tok.separator) {l : List α}
    (h : AllSpelled spelled l w) : ∀ t ∈ w, t.1 ≠ Tok.separator := by
  induction h with
  | nil => simp
  | cons h hl ih => exact List.forall_mem_append.mpr ⟨hone h, ih⟩

/-- The front of a sequence that begins with other tokens begins with these. -/
lemma front_append {k : ℕ} (hw : ∀ t ∈ w, t.1 ≠ Tok.separator) :
    front k (w ++ v) = w ++ front k v := by
  induction w with
  | nil => rfl
  | cons t w ih =>
    obtain ⟨ht, hw⟩ := List.forall_mem_cons.mp hw
    rw [List.cons_append, front_cons ht, ih hw, List.cons_append]

/-- A specification whose tokens are of the stripped down grammar is one of that grammar. -/
lemma Spec.Spelled.smallSpelled {spec : Spec} (h : spec.Spelled tokens v)
    (hsmall : ∀ t ∈ front 1 tokens, t.1 = Tok.separator ∨ t.Small) :
    spec.SmallSpelled tokens v := by
  have hparts : ∀ {u x y : List LlToken} (lex : Lexeme), AllSpelled Directive.Spelled spec.defs u →
      AllSpelled Rule.Spelled spec.rules x →
      (∀ t ∈ front 1 (u ++ (Tok.separator, lex) :: (x ++ y)), t.1 = Tok.separator ∨ t.Small) →
        (∀ t ∈ u, t.Small) ∧ ∀ t ∈ x, t.Small := by
    intro u x y lex hdefs hrules hall
    have hu := hdefs.ne_separator fun h => h.ne_separator
    have hx := hrules.ne_separator fun h => h.ne_separator
    have hfront : front 1 (u ++ (Tok.separator, lex) :: (x ++ y)) = u ++ (Tok.separator, lex) ::
        (x ++ front 0 y) := by
      rw [front_append hu, ← front_append hx]
      rfl
    rw [hfront] at hall
    exact ⟨fun t ht => (hall t (by simp [ht])).resolve_left (hu t ht),
      fun t ht => (hall t (by simp [ht])).resolve_left (hx t ht)⟩
  cases h with
  | @whole u u' lex hdefs hrules =>
    obtain ⟨hu, hu'⟩ := hparts (y := []) lex hdefs hrules (by rwa [List.append_nil])
    exact .whole lex hdefs hrules hu hu'
  | @tail u u' lex lex' v hdefs hrules =>
    obtain ⟨hu, hu'⟩ := hparts lex hdefs hrules hsmall
    exact .tail lex lex' v hdefs hrules hu hu'

/-- A right-hand side without groups takes little room. -/
lemma Rhs.Spelled.height_le {r : Rhs} (h : r.Spelled w) (hw : ∀ t ∈ w, t.Small) : r.height ≤ 3 := by
  induction h with
  | nil => exact Nat.zero_le 3
  | name h ih | action h ih | field h ih =>
    exact Nat.max_le.mpr ⟨le_rfl, ih (List.forall_mem_cons.mp hw).2⟩
  | prec | opt => exact absurd (hw _ List.mem_cons_self) (not_small (by simp))

/-- Right-hand sides without groups take at most three places of the stack. -/
lemma SidesSpelled.height_le {rs : List Rhs} (h : SidesSpelled rs w) (hw : ∀ t ∈ w, t.Small) :
    ∀ r ∈ rs, r.height ≤ 3 := by
  induction h with
  | last lex h => exact List.forall_mem_singleton.mpr (h.height_le (List.forall_mem_append.mp hw).1)
  | or lex h hrs ih =>
    obtain ⟨hu, hu'⟩ := List.forall_mem_append.mp hw
    exact List.forall_mem_cons.mpr ⟨h.height_le hu, ih (List.forall_mem_cons.mp hu').2⟩

/-- The right-hand sides of rules without groups take at most three places of the stack. -/
lemma AllSpelled.height_le {rules : List Rule} (h : AllSpelled Rule.Spelled rules w)
    (hw : ∀ t ∈ w, t.Small) : ∀ q ∈ rules, ∀ r ∈ q.rhs :: q.alternatives, r.height ≤ 3 := by
  induction h with
  | nil => simp
  | cons h hl ih =>
    obtain ⟨hu, hu'⟩ := List.forall_mem_append.mp hw
    refine List.forall_mem_cons.mpr ⟨?_, ih hu'⟩
    cases h with
    | name lex h | field lex h => exact h.height_le fun t ht => hu t (by simp [ht])

/-- A specification with a `SEPARATOR` in the stripped down grammar. -/
lemma Spec.SmallSpelled.spelled {spec : Spec} (h : spec.SmallSpelled tokens v)
    (hsep : ∃ t ∈ tokens, t.1 = Tok.separator) : spec.Spelled tokens v ∧ spec.Fits := by
  have hfits : ∀ {x : List LlToken}, AllSpelled Rule.Spelled spec.rules x → (∀ t ∈ x, t.Small) →
      spec.Fits :=
    fun hrules hx q hq r hr => (Nat.add_le_add_right (hrules.height_le hx q hq r hr) 3).trans
      (by decide)
  cases h with
  | whole lex hdefs hrules hu hu' => exact ⟨.whole lex hdefs hrules, hfits hrules hu'⟩
  | tail lex lex' v hdefs hrules hu hu' => exact ⟨.tail lex lex' v hdefs hrules, hfits hrules hu'⟩
  | defs hdefs =>
    obtain ⟨t, ht, heq⟩ := hsep
    exact absurd heq (hdefs.ne_separator (fun h => h.ne_separator) t ht)

/-- On tokens of the stripped down grammar with a `SEPARATOR`, the recursive-descent parser sees no
error exactly when the parser of `llout.c` returns 0 without an error, and both make the same
calls. -/
theorem llPar_eq_llOut (htokens : ∀ t ∈ tokens, t.Valid)
    (hsmall : ∀ t ∈ front 1 tokens, t.1 = Tok.separator ∨ t.Small)
    (hsep : ∃ t ∈ tokens, t.1 = Tok.separator) (hn : tokens.length < n) {calls : List ActsCall} :
    (∃ s, llPar n tokens = .ok s ∧ s.errors = [] ∧ s.calls = calls) ↔
      ∃ m s, llOut.parse llOutEnv tokens m = some (.returns 0 s) ∧ s.yynerrs = 0 ∧
        actsCalls s.acts = calls := by
  have hdense : Dense 1 tokens := by
    intro t ht
    rcases hsmall t ht with heq | hkind
    · rw [heq]
      decide
    · exact ⟨fun heq => smallToks_ne t.1 hkind (by rw [heq]; simp), fun heq =>
        smallToks_ne t.1 hkind (by rw [heq]; simp)⟩
  constructor
  · rintro ⟨s, hs, herr, rfl⟩
    obtain ⟨spec, v, hspec, hcalls, -⟩ := exists_smallSpelled hdense hn hs herr
    obtain ⟨hspelled, hfits⟩ := hspec.spelled hsep
    obtain ⟨m, s', hm, herr', -, hcalls'⟩ :=
      (llOut_parse_iff htokens).mpr ⟨spec, hspelled, hfits, hcalls⟩
    exact ⟨m, s', hm, herr', hcalls'⟩
  · rintro ⟨m, s, hm, herr, rfl⟩
    obtain ⟨spec, hspec, -, hcalls⟩ := (llOut_parse_iff htokens).mp ⟨m, s, hm, herr, rfl, rfl⟩
    obtain ⟨s', hs', herr', hcalls', -⟩ := (hspec.smallSpelled hsmall).llPar hn
    exact ⟨s', hs', herr', hcalls'.trans hcalls.symm⟩

/-- Theorem `llPar_eq_llOut` for the small specification, which both parsers read. -/
theorem llPar_eq_llOut_smallTokens :
    ∃ m s, llOut.parse llOutEnv smallTokens m = some (.returns 0 s) ∧ s.yynerrs = 0 ∧
      actsCalls s.acts = smallCalls := by
  have hvalid : ∀ t ∈ smallTokens, t.Valid := by
    unfold LlToken.Valid
    decide
  exact (llPar_eq_llOut (n := 12) hvalid (by decide) ⟨(Tok.separator, ['%', '%']), by decide, rfl⟩
    (by decide)).mp ⟨_, rfl, rfl, rfl⟩

end Same

end Parser
