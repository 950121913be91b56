import Cgkits.Parser.Calls
import Cgkits.Parser.LlTables

/-!
# The parser of llama (`llout.c`)

`llout.c` is the parser that llama has generated from `parser.lma`, the grammar of its own input.
`llOut` has its tables as they stand in the file, and `llOutAct` its actions, each as the calls of
functions of `acts.c` that it makes.

`Spelled` says which tokens stand for a specification.  The driver returns 0 without an error
exactly on these, as long as the groups fit on its stack, and then it has made the calls of the
specification (`llOut_parse_iff`).
-/

namespace Parser

open Predictive LlRun

/-! ## Tokens (`llout.h`) -/

namespace Tok

/-- `ACTION`, the token of an action of the user in braces. -/
abbrev action : ℕ := 1

/-- `CODE_BLOCK`, the token of a block of code between the directives. -/
abbrev codeBlock : ℕ := 2

/-- `COLON`, the token between the left-hand side of a rule and its right-hand sides. -/
abbrev colon : ℕ := 3

/-- `END_OPT`, the token that ends an optional or a repeating part. -/
abbrev endOpt : ℕ := 4

/-- `FIELD`, the token of a name in angle brackets. -/
abbrev field : ℕ := 5

/-- `LEFT`, the token of the directive for left associative operators. -/
abbrev left : ℕ := 6

/-- `NAME`, the token of the name of a symbol. -/
abbrev name : ℕ := 7

/-- `NONASSOC`, the token of the directive for operators that do not associate. -/
abbrev nonassoc : ℕ := 8

/-- `OR`, the token between two right-hand sides of a rule. -/
abbrev or : ℕ := 9

/-- `OTHER`, the token of any other character. -/
abbrev other : ℕ := 10

/-- `PREC`, the token in front of the operator that gives a production its precedence. -/
abbrev prec : ℕ := 11

/-- `RIGHT`, the token of the directive for right associative operators. -/
abbrev right : ℕ := 12

/-- `SEMI`, the token behind the last right-hand side of a rule. -/
abbrev semi : ℕ := 13

/-- `SEPARATOR`, the token between the parts of a specification. -/
abbrev separator : ℕ := 14

/-- `START`, the token of the directive that names the goal symbol. -/
abbrev start : ℕ := 15

/-- `START_OPT`, the token that begins an optional or a repeating part. -/
abbrev startOpt : ℕ := 16

/-- `SYNCH`, the token of the directive that lists the synchronization tokens. -/
abbrev synch : ℕ := 17

/-- `TERM_SPEC`, the token of the directive that declares terminals. -/
abbrev termSpec : ℕ := 18

/-- `TYPE`, the token of the directive that gives nonterminals a field of the union. -/
abbrev type : ℕ := 19

/-- `PERCENT_UNION`, the token of the directive that declares the union of the values. -/
abbrev percentUnion : ℕ := 20

/-- `WHITESPACE`, the token of white space, which `advance` skips. -/
abbrev whitespace : ℕ := 21

end Tok

/-! ## Tables -/

/-- The cells of a row as values of an `unsigned char`, so that `-1` is stored as 255. -/
def uchars (row : List ℤ) : Option (List ℤ) := some (row.map (· % 256))

/-- `Yyd`, the rows of the transition table that `llout.c` prints, one for each nonterminal. -/
def llOutYyd : List (Option (List ℤ)) :=
  [uchars [0, -1, -1, 0, -1, -1, -1, 0, -1, 0, -1, -1, -1, 0, -1, 0, 0, -1, 0, 0, 0, 0, -1],
   uchars [0, -1, -1, 10, -1, -1, -1, 7, -1, 9, -1, -1, -1, 8, -1, 12, 11, -1, 3, 6, 5, 4, -1],
   uchars [4, 0, 27, 5, 26, 7, 26, 14, 27],
   uchars [2, 0, 2, 14, 1],
   uchars [0, -1, -1, 25, -1, -1, -1, 25, 24, 25, -1, -1, -1, 25, -1, 25, 25, -1, 25, 25, 25, 25,
   -1], uchars [0, -1, -1, 15, -1, -1, 14, 15, 13, 15, -1, -1, -1, 15, -1, 15, 15, -1, 15, 15, 15,
   15, -1], uchars [0, -1, -1, 18, -1, -1, 17, 18, 16, 18, -1, -1, -1, 18, -1, 18, 18, -1, 18, 18,
   18, 18, -1], uchars [0, -1, -1, 21, -1, -1, 20, 21, 19, 21, -1, -1, -1, 21, -1, 21, 21, -1, 21,
   21, 21, 21, -1], uchars [0, -1, -1, 23, -1, -1, -1, 23, 22, 23, -1, -1, -1, 23, -1, 23, 23, -1,
   23, 23, 23, 23, -1], uchars [2, 5, 29, 7, 28],
   uchars [0, -1, 30, -1, -1, -1, 30, -1, 30, -1, 30, -1, 30, -1, 30, -1, -1, 30, -1, -1, -1, -1,
   -1], uchars [0, -1, 35, -1, -1, 38, 34, -1, 33, -1, 38, -1, 36, -1, 38, -1, -1, 37, -1, -1, -1,
   -1, -1], uchars [2, 9, 31, 13, 32]]

/-- `Yy_pushtab`, the right-hand sides that `llout.c` prints, reversed and ended by 0. -/
def llOutPushtab : List (List ℕ) :=
  [[259, 258, 512, 14, 257, 0], [14, 513, 0], [0], [257, 260, 17, 0], [257, 514, 1, 20, 0],
   [257, 515, 261, 19, 0], [257, 517, 262, 516, 18, 0], [257, 519, 263, 518, 6, 0], [257, 521, 263,
   520, 12, 0], [257, 523, 263, 522, 8, 0], [257, 2, 0], [257, 264, 524, 15, 0], [0], [261, 525, 7,
   0], [261, 526, 5, 0], [0], [262, 527, 7, 0], [262, 528, 5, 0], [0], [263, 529, 7, 0], [263, 530,
   5, 0], [0], [264, 7, 0], [0], [260, 531, 7, 0], [0], [258, 265, 0], [0], [266, 3, 532, 7, 0],
   [266, 3, 533, 5, 0], [268, 267, 534, 0], [266, 9, 0], [13, 0], [267, 535, 7, 0], [267, 536, 5,
   0], [267, 537, 1, 0], [267, 538, 7, 11, 0], [267, 540, 4, 267, 539, 16, 0], [0]]

/-- The tables of `llout.c`, the parser of llama itself in the form llama generates it. -/
def llOut : LlTables where
  yyMaxterm := 21
  yyStartState := 256
  uncompressed := false
  yyd := llOutYyd
  yyPushtab := llOutPushtab
  yySynch := [Tok.or, Tok.semi, -1]

/-- `YYMAXDEPTH` and `YYMAXERR`.  Every action returns 0. -/
def llOutEnv : LlEnv := ⟨128, 25, {Tok.or, Tok.semi}, fun _ _ => 0⟩

/-- The second character of an `END_OPT` is a star, so that the part in brackets repeats. -/
def isStar (lex : Lexeme) : Bool := lex[1]? == some '*'

/-- `new_field` in llama only reports that a field needs occs, unless its name is empty. -/
def newFieldCalls (fieldName : Lexeme) : List ActsCall :=
  if fieldName = [] then [] else [.lerror .field]

/-- `new_lev` in llama only reports that a precedence level needs occs, unless it is 0. -/
def newLevCalls (how : ℕ) : List ActsCall := if how = 0 then [] else [.lerror .level]

/-- `yy_act`: the calls that an action makes, with the text that it finds in `yytext`. -/
def llOutAct (actnum : ℕ) (yytext : Lexeme) : List ActsCall :=
  match actnum with
  | 540 => [.endOpt (isStar yytext)]
  | 527 => [.makeTerm yytext]
  | 520 => newLevCalls 114
  | 528 => newFieldCalls yytext
  | 521 => newFieldCalls []
  | 532 => [.newNonterm yytext true]
  | 512 => [.firstSym]
  | 529 => []
  | 533 => [.newNonterm yytext true]
  | 513 => []
  | 530 => newFieldCalls yytext
  | 534 => [.newRhs]
  | 514 => [.lerror .percentUnion]
  | 531 => [.addSynch yytext]
  | 535 => [.addToRhs yytext false]
  | 522 => newLevCalls 110
  | 515 => newFieldCalls []
  | 536 => [.addToRhs yytext false]
  | 523 => newFieldCalls []
  | 516 => newLevCalls 0
  | 537 => [.addToRhs yytext true]
  | 524 => [.lerror .start]
  | 517 => newFieldCalls []
  | 538 => [.prec yytext]
  | 525 => [.newNonterm yytext false]
  | 518 => newLevCalls 108
  | 539 => [.startOpt]
  | 526 => newFieldCalls yytext
  | 519 => newFieldCalls []
  | _ => []

/-- The calls of actions that are executed one after another. -/
def actsCalls (acts : List LlToken) : List ActsCall := acts.flatMap fun x => llOutAct x.1 x.2

/-! ## The tokens of a specification -/

/-- The token of an element of a list of names is a `NAME` or a `FIELD` with its text. -/
def FieldName.token : FieldName → LlToken
  | .name text => (Tok.name, text)
  | .field text => (Tok.field, text)

/-- The tokens `w` spell a directive as the grammar of specifications has it. -/
inductive Directive.Spelled : Directive → List LlToken → Prop
  /-- `SYNCH snames`: the token and the names. -/
  | synch (lex : Lexeme) (snames : List Lexeme) :
      Spelled (.synch snames) ((Tok.synch, lex) :: snames.map fun text => (Tok.name, text))
  /-- `PERCENT_UNION ACTION`: the token and the union. -/
  | percentUnion (lex action : Lexeme) :
    Spelled .percentUnion [(Tok.percentUnion, lex), (Tok.action, action)]
  /-- `TYPE fnames`: the token and the names or fields. -/
  | type (lex : Lexeme) (fnames : List FieldName) :
      Spelled (.type fnames) ((Tok.type, lex) :: fnames.map FieldName.token)
  /-- `TERM_SPEC tnames`: the token and the names or fields. -/
  | termSpec (lex : Lexeme) (tnames : List FieldName) :
      Spelled (.termSpec tnames) ((Tok.termSpec, lex) :: tnames.map FieldName.token)
  /-- `LEFT pnames`: the token and the names or fields. -/
  | left (lex : Lexeme) (pnames : List FieldName) :
      Spelled (.level pnames) ((Tok.left, lex) :: pnames.map FieldName.token)
  /-- `RIGHT pnames`: the token and the names or fields. -/
  | right (lex : Lexeme) (pnames : List FieldName) :
      Spelled (.level pnames) ((Tok.right, lex) :: pnames.map FieldName.token)
  /-- `NONASSOC pnames`: the token and the names or fields. -/
  | nonassoc (lex : Lexeme) (pnames : List FieldName) :
      Spelled (.level pnames) ((Tok.nonassoc, lex) :: pnames.map FieldName.token)
  /-- `CODE_BLOCK`: the token alone. -/
  | codeBlock (lex : Lexeme) : Spelled .codeBlock [(Tok.codeBlock, lex)]
  /-- `START opt_names`: the token and the names. -/
  | start (lex : Lexeme) (names : List Lexeme) :
      Spelled .start ((Tok.start, lex) :: names.map fun text => (Tok.name, text))

/-- The tokens that spell a right-hand side. -/
inductive Rhs.Spelled : Rhs → List LlToken → Prop
  /-- Nothing is spelled by no token. -/
  | nil : Spelled .nil []
  /-- `NAME rhs`: a name in front of the rest. -/
  | name {object : Lexeme} {rest : Rhs} {u : List LlToken} (h : Spelled rest u) :
      Spelled (.name object rest) ((Tok.name, object) :: u)
  /-- `FIELD rhs`: a field in front of the rest, as a name. -/
  | field {object : Lexeme} {rest : Rhs} {u : List LlToken} (h : Spelled rest u) :
      Spelled (.name object rest) ((Tok.field, object) :: u)
  /-- `ACTION rhs`: an action in front of the rest. -/
  | action {object : Lexeme} {rest : Rhs} {u : List LlToken} (h : Spelled rest u) :
      Spelled (.action object rest) ((Tok.action, object) :: u)
  /-- `PREC NAME rhs`: a precedence in front of the rest. -/
  | prec (lex : Lexeme) {text : Lexeme} {rest : Rhs} {u : List LlToken} (h : Spelled rest u) :
      Spelled (.prec text rest) ((Tok.prec, lex) :: (Tok.name, text) :: u)
  /-- `START_OPT rhs END_OPT rhs`. -/
  | opt (lex lex' : Lexeme) {body rest : Rhs} {u u' : List LlToken} (hbody : Spelled body u)
      (h : Spelled rest u') :
      Spelled (.opt body (isStar lex') rest)
      ((Tok.startOpt, lex) :: (u ++ (Tok.endOpt, lex') :: u'))

/-- The tokens of the right-hand sides of a rule. -/
inductive SidesSpelled : List Rhs → List LlToken → Prop
  /-- `rhs SEMI`: the last right-hand side. -/
  | last {r : Rhs} {u : List LlToken} (lex : Lexeme) (h : r.Spelled u) :
    SidesSpelled [r] (u ++ [(Tok.semi, lex)])
  /-- `rhs OR right_sides`: one more right-hand side. -/
  | or {r : Rhs} {rs : List Rhs} {u u' : List LlToken} (lex : Lexeme) (h : r.Spelled u)
      (hrs : SidesSpelled rs u') : SidesSpelled (r :: rs) (u ++ (Tok.or, lex) :: u')

/-- The tokens that spell a rule. -/
inductive Rule.Spelled : Rule → List LlToken → Prop
  /-- `NAME COLON right_sides`. -/
  | name {q : Rule} {u : List LlToken} (lex : Lexeme)
      (h : SidesSpelled (q.rhs :: q.alternatives) u) :
      Spelled q ((Tok.name, q.lhs) :: (Tok.colon, lex) :: u)
  /-- `FIELD COLON right_sides`. -/
  | field {q : Rule} {u : List LlToken} (lex : Lexeme)
      (h : SidesSpelled (q.rhs :: q.alternatives) u) :
      Spelled q ((Tok.field, q.lhs) :: (Tok.colon, lex) :: u)

/-- The tokens of the elements of a list, one after the other. -/
inductive AllSpelled {α : Type} (spelled : α → List LlToken → Prop) : List α → List LlToken → Prop
  /-- No element is spelled by no token. -/
  | nil : AllSpelled spelled [] []
  /-- One more element stands in front of the others. -/
  | cons {a : α} {l : List α} {u u' : List LlToken} (h : spelled a u)
      (hl : AllSpelled spelled l u') : AllSpelled spelled (a :: l) (u ++ u')

/-- The tokens of a specification, and the tokens behind a second `SEPARATOR`. -/
inductive Spec.Spelled : Spec → List LlToken → List LlToken → Prop
  /-- The rules end with the input. -/
  | whole {spec : Spec} {u u' : List LlToken} (lex : Lexeme)
      (hdefs : AllSpelled Directive.Spelled spec.defs u)
      (hrules : AllSpelled Rule.Spelled spec.rules u') :
      Spelled spec (u ++ (Tok.separator, lex) :: u') []
  /-- The rules end with a `SEPARATOR`. -/
  | tail {spec : Spec} {u u' : List LlToken} (lex lex' : Lexeme) (v : List LlToken)
      (hdefs : AllSpelled Directive.Spelled spec.defs u)
      (hrules : AllSpelled Rule.Spelled spec.rules u') :
      Spelled spec (u ++ (Tok.separator, lex) :: (u' ++ (Tok.separator, lex') :: v)) v

/-- The number of symbols that the driver has on its stack for a right-hand side. -/
def Rhs.height : Rhs → ℕ
  | .nil => 0
  | .name _ rest => max 3 rest.height
  | .action _ rest => max 3 rest.height
  | .prec _ rest => max 4 rest.height
  | .opt body _ rest => max 6 (max (3 + body.height) rest.height)

/-- The groups of every right-hand side are so shallow that they fit on the stack of the driver. -/
def Spec.Fits (spec : Spec) : Prop :=
  ∀ q ∈ spec.rules, ∀ r ∈ q.rhs :: q.alternatives, r.height + 3 ≤ llOutEnv.yymaxdepth

/-! ## Lookups -/

/-- The token is one of `llout.h` and has a text, as `yylex` returns it. -/
def LlToken.Valid (t : LlToken) : Prop := 0 < t.1 ∧ t.1 ≤ 21 ∧ t.2 ≠ []

/-- The code of the token ahead, which is `_EOI_` at the end of the input. -/
def ahead (v : List LlToken) : ℕ := (v.head?.map Prod.fst).getD eoi

section Lookups

variable {u v : List LlToken} {δ : List ℕ} {A : ℕ}

/-- A lookup in the table sees the end of the input as the token `_EOI_`. -/
lemma next_ahead :
    llOut.predictive.next A (v.head?.map llOut.predictive.code) = llOut.predictive.next A
    (some (ahead v)) := by
  rcases v with _ | ⟨t, v⟩ <;> rfl

/-- The code ahead is a column of the table when the tokens of the input are valid. -/
lemma ahead_lt (hv : ∀ t ∈ v, t.Valid) : ahead v < 22 := by
  rcases v with _ | ⟨t, v⟩
  · decide
  · have h := (hv t List.mem_cons_self).2.1
    exact Nat.lt_succ_of_le h

/-- The input has come to its end exactly where the code ahead is `_EOI_`. -/
lemma ahead_eq_eoi (hv : ∀ t ∈ v, t.Valid) : ahead v = eoi ↔ v = [] := by
  rcases v with _ | ⟨t, v⟩
  · exact ⟨fun _ => rfl, fun _ => rfl⟩
  · have h := (hv t List.mem_cons_self).1
    refine ⟨fun he => ?_, fun he => absurd he (List.cons_ne_nil t v)⟩
    have he' : t.1 = eoi := he
    unfold eoi at he'
    omega

/-- The row of `rhs` has one production for each kind of element, and else the empty one. -/
lemma next_rhs : ∀ n < 22, ∀ δ ∈ llOut.predictive.next 267 (some n),
    (n = Tok.name ∧ δ = [Tok.name, 535, 267]) ∨ (n = Tok.field ∧ δ = [Tok.field, 536, 267]) ∨
      (n = Tok.action ∧ δ = [Tok.action, 537, 267]) ∨
      (n = Tok.prec ∧ δ = [Tok.prec, Tok.name, 538, 267]) ∨
      (n = Tok.startOpt ∧ δ = [Tok.startOpt, 539, 267, Tok.endOpt, 540, 267]) ∨
      ((n = Tok.endOpt ∨ n = Tok.or ∨ n = Tok.semi) ∧ δ = []) := by decide

end Lookups

/-! ## Parses -/

/-- The calls of the actions among what has been done. -/
def callsFrom (text : Lexeme) (es : List (ℕ ⊕ LlToken)) : List ActsCall :=
  actsCalls (actsFrom text es)

section Parses

variable {d x : ℕ} {γ : List ℕ} {u v : List LlToken} {es fs : List (ℕ ⊕ LlToken)} {text : Lexeme}

/-- Without an action and without a token no function of `acts.c` is called. -/
@[simp] lemma callsFrom_nil : callsFrom text [] = [] := rfl

/-- An action calls its functions with the text of the last token. -/
@[simp] lemma callsFrom_inl :
    callsFrom text (.inl x :: es) = llOutAct x text ++ callsFrom text es := rfl

/-- A token makes no call, and the actions behind it see its text. -/
@[simp] lemma callsFrom_inr {t : LlToken} : callsFrom text (.inr t :: es) = callsFrom t.2 es := rfl

/-- The calls of two parts are those of the first and then those of the second. -/
@[simp] lemma callsFrom_append :
    callsFrom text (es ++ fs) = callsFrom text es ++ callsFrom (textFrom text es) fs := by
  unfold callsFrom actsCalls
  rw [actsFrom_append, List.flatMap_append]

/-- When an action is on top of the stack it is run before anything else is parsed. -/
lemma parses_act (hx : IsAct x) :
    Parses llOut.predictive d (x :: γ) u v es ↔ ∃ fs, es = .inl x :: fs ∧
    Parses llOut.predictive d γ u v fs :=
  parses_action_iff (if_pos hx)

/-- When a terminal is on top of the stack it is matched with the token ahead. -/
lemma parses_tok (hx : 0 < x ∧ x ≤ 21) : Parses llOut.predictive d (x :: γ) u v es ↔
    ∃ lex w fs, u = (x, lex) :: w ∧ es = .inr (x, lex) :: fs ∧
      Parses llOut.predictive d γ w v fs := by
  have hact : ¬ IsAct x := by
    rw [isAct_iff]
    omega
  have hkind : llOut.predictive.kind x = .terminal x := (if_neg hact).trans (if_pos hx)
  rw [parses_terminal_iff hkind]
  constructor
  · rintro ⟨t, w, fs, rfl, rfl, rfl, h⟩
    exact ⟨t.2, w, fs, rfl, rfl, h⟩
  · rintro ⟨lex, w, fs, rfl, rfl, h⟩
    exact ⟨_, w, fs, rfl, rfl, rfl, h⟩

/-- A nonterminal on the stack is parsed as the right-hand side that the table gives for it. -/
lemma parses_nonterm (hx : 256 ≤ x ∧ x < 512) : Parses llOut.predictive d [x] u v es ↔
    ∃ δ, llOut.predictive.next x (some (ahead u)) = some δ ∧ δ.length ≤ d ∧
      Parses llOut.predictive d δ u v es := by
  have hact : ¬ IsAct x := by
    rw [isAct_iff]
    omega
  have hterm : ¬ (minTerm ≤ x ∧ x ≤ llOut.yyMaxterm) := by
    have : llOut.yyMaxterm = 21 := rfl
    omega
  rw [parses_single_iff ((if_neg hact).trans (if_neg hterm)), next_ahead]

end Parses

/-! ## Right-hand sides -/

/-- The token may follow a right-hand side: it ends a group, an alternative or the rule. -/
def EndsRhs (n : ℕ) : Prop := n = Tok.endOpt ∨ n = Tok.or ∨ n = Tok.semi

/-- The tokens that are parsed as a right-hand side stand for one. -/
lemma exists_rhs {d : ℕ} {u v : List LlToken} {es : List (ℕ ⊕ LlToken)} (hu : ∀ t ∈ u, t.Valid)
    (h : Parses llOut.predictive d [267] u v es) : ∃ (r : Rhs) (w : List LlToken), r.Spelled w ∧
    u = w ++ v ∧
      EndsRhs (ahead v) ∧ r.height ≤ d ∧ ∀ text, callsFrom text es = r.calls := by
  induction hn : es.length using Nat.strong_induction_on generalizing d u v es with
  | _ n ih =>
    obtain ⟨δ, hnext, hd, hδ⟩ := (parses_nonterm (by decide)).mp h
    clear h
    subst hn
    rcases next_rhs _ (ahead_lt hu) δ hnext with ⟨-, rfl⟩ | ⟨-, rfl⟩ | ⟨-, rfl⟩ | ⟨-, rfl⟩ |
      ⟨-, rfl⟩ | ⟨hends, rfl⟩
    · simp (disch := decide) only [parses_tok, parses_act] at hδ
      obtain ⟨object, u', _, rfl, rfl, fs, rfl, h⟩ := hδ
      obtain ⟨r, w, hr, rfl, hends, hheight, hcalls⟩ :=
        ih fs.length (by simp) (fun t ht => hu t (by simp [ht])) h rfl
      refine ⟨.name object r, _, .name hr, rfl, hends, max_le hd hheight, fun text => ?_⟩
      simp [hcalls, llOutAct, Rhs.calls]
    · simp (disch := decide) only [parses_tok, parses_act] at hδ
      obtain ⟨object, u', _, rfl, rfl, fs, rfl, h⟩ := hδ
      obtain ⟨r, w, hr, rfl, hends, hheight, hcalls⟩ :=
        ih fs.length (by simp) (fun t ht => hu t (by simp [ht])) h rfl
      refine ⟨.name object r, _, .field hr, rfl, hends, max_le hd hheight, fun text => ?_⟩
      simp [hcalls, llOutAct, Rhs.calls]
    · simp (disch := decide) only [parses_tok, parses_act] at hδ
      obtain ⟨object, u', _, rfl, rfl, fs, rfl, h⟩ := hδ
      obtain ⟨r, w, hr, rfl, hends, hheight, hcalls⟩ :=
        ih fs.length (by simp) (fun t ht => hu t (by simp [ht])) h rfl
      refine ⟨.action object r, _, .action hr, rfl, hends, max_le hd hheight, fun text => ?_⟩
      simp [hcalls, llOutAct, Rhs.calls]
    · simp (disch := decide) only [parses_tok, parses_act] at hδ
      obtain ⟨lex, _, _, rfl, rfl, text, u', _, rfl, rfl, fs, rfl, h⟩ := hδ
      obtain ⟨r, w, hr, rfl, hends, hheight, hcalls⟩ :=
        ih fs.length (by simp; omega) (fun t ht => hu t (by simp [ht])) h rfl
      refine ⟨.prec text r, _, .prec lex hr, rfl, hends, max_le hd hheight, fun text => ?_⟩
      simp [hcalls, llOutAct, Rhs.calls]
    · simp (disch := decide) only [parses_tok, parses_act] at hδ
      obtain ⟨lex, u', _, rfl, rfl, fs, rfl, h⟩ := hδ
      obtain ⟨m, es₁, es₂, hbody, hrest, rfl⟩ := parses_cons_iff.mp h
      simp (disch := decide) only [parses_tok, parses_act] at hrest
      obtain ⟨lex', u'', _, rfl, rfl, gs, rfl, hrest⟩ := hrest
      obtain ⟨body, w, hw, rfl, -, hbodyheight, hbodycalls⟩ :=
        ih es₁.length (by simp; omega) (fun t ht => hu t (by simp [ht])) hbody rfl
      obtain ⟨r, w', hr, rfl, hends, hheight, hcalls⟩ :=
        ih gs.length (by simp; omega) (fun t ht => hu t (by simp [ht])) hrest rfl
      refine ⟨.opt body (isStar lex') r, _, .opt lex lex' hw hr, ?_, hends, ?_, fun text => ?_⟩
      · simp
      · have hd' : 6 ≤ d := hd
        have hbody' : body.height ≤ d - 3 := hbodyheight
        exact max_le hd' (max_le (by omega) hheight)
      · simp [hcalls, hbodycalls, llOutAct, Rhs.calls]
    · obtain ⟨rfl, rfl⟩ := parses_nil_iff.mp hδ
      exact ⟨.nil, [], .nil, rfl, hends, Nat.zero_le d, fun text => rfl⟩

/-- The tokens of a right-hand side are parsed as one, and the actions make its calls. -/
lemma Rhs.Spelled.parses {r : Rhs} {w : List LlToken} (h : r.Spelled w) {d : ℕ} {v : List LlToken}
    (hends : EndsRhs (ahead v)) (hheight : r.height ≤ d) : ∃ es, Parses llOut.predictive d [267]
    (w ++ v) v es ∧
      ∀ text, callsFrom text es = r.calls := by
  induction h generalizing d v with
  | nil =>
    refine ⟨[], (parses_nonterm (by decide)).mpr ⟨[], ?_, Nat.zero_le d, .nil v⟩, fun text => rfl⟩
    rw [List.nil_append]
    rcases hends with h | h | h <;> rw [h] <;> decide
  | @name object rest u h ih =>
    obtain ⟨es, hes, hcalls⟩ := ih hends (le_of_max_le_right hheight)
    refine ⟨.inr (Tok.name, object) :: .inl 535 :: es, (parses_nonterm (by decide)).mpr
      ⟨[Tok.name, 535, 267], rfl, le_of_max_le_left hheight, ?_⟩, fun text => ?_⟩
    · simp (disch := decide) only [parses_tok, parses_act]
      exact ⟨_, _, _, rfl, rfl, _, rfl, hes⟩
    · simp [hcalls, llOutAct, Rhs.calls]
  | @field object rest u h ih =>
    obtain ⟨es, hes, hcalls⟩ := ih hends (le_of_max_le_right hheight)
    refine ⟨.inr (Tok.field, object) :: .inl 536 :: es, (parses_nonterm (by decide)).mpr
      ⟨[Tok.field, 536, 267], rfl, le_of_max_le_left hheight, ?_⟩, fun text => ?_⟩
    · simp (disch := decide) only [parses_tok, parses_act]
      exact ⟨_, _, _, rfl, rfl, _, rfl, hes⟩
    · simp [hcalls, llOutAct, Rhs.calls]
  | @action object rest u h ih =>
    obtain ⟨es, hes, hcalls⟩ := ih hends (le_of_max_le_right hheight)
    refine ⟨.inr (Tok.action, object) :: .inl 537 :: es, (parses_nonterm (by decide)).mpr
      ⟨[Tok.action, 537, 267], rfl, le_of_max_le_left hheight, ?_⟩, fun text => ?_⟩
    · simp (disch := decide) only [parses_tok, parses_act]
      exact ⟨_, _, _, rfl, rfl, _, rfl, hes⟩
    · simp [hcalls, llOutAct, Rhs.calls]
  | @prec lex text rest u h ih =>
    obtain ⟨es, hes, hcalls⟩ := ih hends (le_of_max_le_right hheight)
    refine ⟨.inr (Tok.prec, lex) :: .inr (Tok.name, text) :: .inl 538 :: es,
      (parses_nonterm (by decide)).mpr ⟨[Tok.prec, Tok.name, 538, 267], rfl,
      le_of_max_le_left hheight, ?_⟩, fun text => ?_⟩
    · simp (disch := decide) only [parses_tok, parses_act]
      exact ⟨_, _, _, rfl, rfl, _, _, _, rfl, rfl, _, rfl, hes⟩
    · simp [hcalls, llOutAct, Rhs.calls]
  | @opt lex lex' body rest u u' hbody h ihbody ih =>
    have hd : 6 ≤ d := le_of_max_le_left hheight
    have hbodyheight : 3 + body.height ≤ d := le_of_max_le_left (le_of_max_le_right hheight)
    obtain ⟨es, hes, hcalls⟩ := ih hends (le_of_max_le_right (le_of_max_le_right hheight))
    obtain ⟨fs, hfs, hbodycalls⟩ :=
      @ihbody (d - 3) ((Tok.endOpt, lex') :: u' ++ v) (Or.inl rfl) (by omega)
    have hclose : Parses llOut.predictive d [Tok.endOpt, 540, 267] ((Tok.endOpt, lex') :: u' ++ v) v
        (.inr (Tok.endOpt, lex') :: .inl 540 :: es) := by
      simp (disch := decide) only [parses_tok, parses_act]
      exact ⟨_, _, _, rfl, rfl, _, rfl, hes⟩
    have hgroup :
        Parses llOut.predictive d [267, Tok.endOpt, 540, 267] (u ++ ((Tok.endOpt, lex') :: u' ++ v))
        v (fs ++ .inr (Tok.endOpt, lex') :: .inl 540 :: es) := hfs.append hclose
    refine ⟨.inr (Tok.startOpt, lex) :: .inl 539 :: (fs ++ .inr (Tok.endOpt, lex') :: .inl 540 ::
      es), (parses_nonterm (by decide)).mpr
        ⟨[Tok.startOpt, 539, 267, Tok.endOpt, 540, 267], rfl, hd, ?_⟩, fun text => ?_⟩
    · simp (disch := decide) only [parses_tok, parses_act]
      refine ⟨_, _, _, rfl, rfl, _, rfl, ?_⟩
      simpa using hgroup
    · simp [hcalls, hbodycalls, llOutAct, Rhs.calls]

/-! ## Lists of names -/

/-- The nonterminal is replaced by a `NAME`, the actions `α` and itself, perhaps by a `FIELD`, the
actions `β` and itself, or by nothing. -/
structure NameList (X : ℕ) (α : List ℕ) (β : Option (List ℕ)) : Prop where
  /-- The symbol is a nonterminal of the table. -/
  nonterm : 256 ≤ X ∧ X < 512
  /-- The actions behind a `NAME`. -/
  acts : ∀ a ∈ α, IsAct a
  /-- The actions behind a `FIELD`. -/
  acts' : ∀ b ∈ β, ∀ a ∈ b, IsAct a
  /-- There are at most two actions. -/
  length_le : α.length ≤ 2 ∧ ∀ b ∈ β, b.length ≤ 2
  /-- The table goes on with a name, with a field or with nothing. -/
  cases :
    ∀ n < 22, ∀ δ ∈ llOut.predictive.next X (some n), (n = Tok.name ∧ δ = Tok.name :: (α ++ [X])) ∨
      (n = Tok.field ∧ ∃ b ∈ β, δ = Tok.field :: (b ++ [X])) ∨ δ = []
  /-- The replacement for a `NAME`. -/
  name : llOut.predictive.next X (some Tok.name) = some (Tok.name :: (α ++ [X]))
  /-- The replacement for a `FIELD`. -/
  field : ∀ b ∈ β, llOut.predictive.next X (some Tok.field) = some (Tok.field :: (b ++ [X]))

/-- `snames` is a list of names with action 531, in which no field stands. -/
lemma nameList_snames : NameList 260 [531] none := by constructor <;> decide

/-- `fnames` is a list of names whose names and fields have actions 525 and 526. -/
lemma nameList_fnames : NameList 261 [525] (some [526]) := by constructor <;> decide

/-- `tnames` is a list of names whose names and fields have actions 527 and 528. -/
lemma nameList_tnames : NameList 262 [527] (some [528]) := by constructor <;> decide

/-- `pnames` is a list of names whose names and fields have actions 529 and 530. -/
lemma nameList_pnames : NameList 263 [529] (some [530]) := by constructor <;> decide

/-- `opt_names` is a list of names without actions and without fields. -/
lemma nameList_optNames : NameList 264 [] none := by constructor <;> decide

/-- The calls of the actions `α` when each of them finds the same text in `yytext`. -/
def textCalls (α : List ℕ) (text : Lexeme) : List ActsCall := α.flatMap fun a => llOutAct a text

/-- The calls for an element of a list, by the actions for its names or for its fields. -/
def FieldName.calls (α : List ℕ) (β : Option (List ℕ)) : FieldName → List ActsCall
  | .name text => textCalls α text
  | .field text => textCalls (β.getD []) text

section Names

variable {d X : ℕ} {α γ : List ℕ} {β : Option (List ℕ)} {u v : List LlToken}
  {es : List (ℕ ⊕ LlToken)}

/-- When actions are on top of the stack they are all run before anything else is parsed. -/
lemma parses_acts (hα : ∀ a ∈ α, IsAct a) : Parses llOut.predictive d (α ++ γ) u v es ↔
    ∃ fs, es = α.map .inl ++ fs ∧ Parses llOut.predictive d γ u v fs := by
  induction α generalizing es with
  | nil => simp
  | cons a α ih =>
    rw [List.forall_mem_cons] at hα
    rw [List.cons_append, parses_act hα.1]
    simp only [ih hα.2]
    constructor
    · rintro ⟨_, rfl, fs, rfl, h⟩
      exact ⟨fs, rfl, h⟩
    · rintro ⟨fs, rfl, h⟩
      exact ⟨_, rfl, fs, rfl, h⟩

/-- The calls of actions in front are those that find the last text, and then the others. -/
lemma callsFrom_acts (text : Lexeme) (fs : List (ℕ ⊕ LlToken)) :
    callsFrom text (α.map .inl ++ fs) = textCalls α text ++ callsFrom text fs := by
  induction α with
  | nil => rfl
  | cons a α ih =>
    rw [List.map_cons, List.cons_append, callsFrom_inl, ih, ← List.append_assoc]
    rfl

/-- The tokens that are parsed as a list of names are the tokens of some list. -/
lemma NameList.exists_names (hX : NameList X α β) (hu : ∀ t ∈ u, t.Valid)
    (h : Parses llOut.predictive d [X] u v es) : ∃ l :
    List FieldName, (∀ text, .field text ∈ l → β.isSome) ∧ u = l.map FieldName.token ++ v ∧
      ∀ text, callsFrom text es = l.flatMap (FieldName.calls α β) := by
  induction hn : es.length using Nat.strong_induction_on generalizing d u v es with
  | _ n ih =>
    obtain ⟨δ, hnext, hd, hδ⟩ := (parses_nonterm hX.nonterm).mp h
    clear h
    subst hn
    rcases hX.cases _ (ahead_lt hu) δ hnext with ⟨-, rfl⟩ | ⟨-, b, hb, rfl⟩ | rfl
    · rw [parses_tok (by decide)] at hδ
      obtain ⟨text, w, fs, rfl, rfl, hacts⟩ := hδ
      obtain ⟨gs, rfl, h⟩ := (parses_acts hX.acts).mp hacts
      obtain ⟨l, hl, rfl, hcalls⟩ :=
        ih gs.length (by simp) (fun t ht => hu t (List.mem_cons_of_mem _ ht)) h rfl
      refine ⟨.name text :: l, fun text' h' => hl text' (by simpa using h'), rfl, fun text' => ?_⟩
      rw [callsFrom_inr, callsFrom_acts, hcalls]
      rfl
    · rw [parses_tok (by decide)] at hδ
      obtain ⟨text, w, fs, rfl, rfl, hacts⟩ := hδ
      obtain ⟨gs, rfl, h⟩ := (parses_acts (hX.acts' b hb)).mp hacts
      obtain ⟨l, hl, rfl, hcalls⟩ :=
        ih gs.length (by simp) (fun t ht => hu t (List.mem_cons_of_mem _ ht)) h rfl
      refine ⟨.field text :: l, fun _ _ => Option.isSome_of_mem hb, rfl, fun text' => ?_⟩
      rw [callsFrom_inr, callsFrom_acts, hcalls, Option.mem_def.mp hb]
      rfl
    · obtain ⟨rfl, rfl⟩ := parses_nil_iff.mp hδ
      exact ⟨[], fun _ h => absurd h List.not_mem_nil, rfl, fun text => rfl⟩

/-- The tokens of a list of names are parsed as one when the table ends the list behind them. -/
lemma NameList.parses (hX : NameList X α β) (hd : 4 ≤ d)
    (hv : llOut.predictive.next X (some (ahead v)) = some []) {l : List FieldName}
    (hl : ∀ text, .field text ∈ l → β.isSome) :
    ∃ es, Parses llOut.predictive d [X] (l.map FieldName.token ++ v) v es ∧
      ∀ text, callsFrom text es = l.flatMap (FieldName.calls α β) := by
  induction l with
  | nil =>
    exact ⟨[], (parses_nonterm hX.nonterm).mpr ⟨[], hv, Nat.zero_le d, .nil v⟩, fun text => rfl⟩
  | cons f l ih =>
    obtain ⟨es, hes, hcalls⟩ := ih fun text h => hl text (List.mem_cons_of_mem f h)
    cases f with
    | name text =>
      have hlen : (Tok.name :: (α ++ [X])).length ≤ d := by
        have := hX.length_le.1
        simp only [List.length_cons, List.length_append, List.length_nil]
        omega
      refine ⟨.inr (Tok.name, text) :: (α.map .inl ++ es),
        (parses_nonterm hX.nonterm).mpr ⟨_, hX.name, hlen, ?_⟩, fun text' => ?_⟩
      · exact (parses_tok (by decide)).mpr ⟨text, _, _, rfl, rfl, (parses_acts hX.acts).mpr
          ⟨es, rfl, hes⟩⟩
      · rw [callsFrom_inr, callsFrom_acts, hcalls]
        rfl
    | field text =>
      obtain ⟨b, hb⟩ := Option.isSome_iff_exists.mp (hl text List.mem_cons_self)
      have hlen : (Tok.field :: (b ++ [X])).length ≤ d := by
        have := hX.length_le.2 b hb
        simp only [List.length_cons, List.length_append, List.length_nil]
        omega
      refine ⟨.inr (Tok.field, text) :: (b.map .inl ++ es),
        (parses_nonterm hX.nonterm).mpr ⟨_, hX.field b hb, hlen, ?_⟩, fun text' => ?_⟩
      · exact (parses_tok (by decide)).mpr ⟨text, _, _, rfl, rfl, (parses_acts (hX.acts' b hb)).mpr
          ⟨es, rfl, hes⟩⟩
      · rw [callsFrom_inr, callsFrom_acts, hcalls]
        subst hb
        rfl

end Names

/-! ## Directives -/

/-- The production for a directive with a list of names. -/
structure ListRow where
  /-- The token of the directive. -/
  tok : ℕ
  /-- The actions in front of the list. -/
  before : List ℕ
  /-- The nonterminal of the list. -/
  names : ℕ
  /-- The actions behind a `NAME` of the list. -/
  onName : List ℕ
  /-- The actions behind a `FIELD` of the list. -/
  onField : Option (List ℕ)
  /-- The actions behind the list. -/
  after : List ℕ
deriving DecidableEq

/-- The directives with a list of names: their tokens, their actions and their lists. -/
def listRows : List ListRow :=
  [⟨Tok.synch, [], 260, [531], none, []⟩, ⟨Tok.type, [], 261, [525], some [526], [515]⟩,
    ⟨Tok.termSpec, [516], 262, [527], some [528], [517]⟩, ⟨Tok.left, [518], 263, [529], some [530],
    [519]⟩, ⟨Tok.right, [520], 263, [529], some [530], [521]⟩, ⟨Tok.nonassoc, [522], 263, [529],
    some [530], [523]⟩, ⟨Tok.start, [524], 264, [], none, []⟩]

/-- The right-hand side of the production: the token, the actions, the names and `defs`. -/
def ListRow.rhs (r : ListRow) : List ℕ := r.tok :: (r.before ++ r.names :: (r.after ++ [257]))

/-- The directive with the names `l`, which the token in front of them selects. -/
def ListRow.directive (r : ListRow) (l : List FieldName) : Directive :=
  match r.tok with
  | 17 => .synch (l.filterMap FieldName.text)
  | 19 => .type l
  | 18 => .termSpec l
  | 15 => .start
  | _ => .level l

/-- The row of `defs` has one production for each directive and the empty one at `SEPARATOR`. -/
lemma next_defs : ∀ n < 22, ∀ δ ∈ llOut.predictive.next 257 (some n), (∃ r ∈ listRows, n = r.tok ∧
    δ = r.rhs) ∨ (n = Tok.percentUnion ∧ δ = [Tok.percentUnion, Tok.action, 514, 257]) ∨
    (n = Tok.codeBlock ∧ δ = [Tok.codeBlock, 257]) ∨ (n = Tok.separator ∧ δ = []) := by decide

/-- The productions of the directives with names are in the table under their tokens. -/
lemma next_listRow :
    ∀ r ∈ listRows, llOut.predictive.next 257 (some r.tok) = some r.rhs := by decide

/-- The symbols of a production for a directive: a terminal, actions and a list of names. -/
lemma listRow_symbols : ∀ r ∈ listRows, (0 < r.tok ∧ r.tok ≤ 21) ∧ (∀ a ∈ r.before, IsAct a) ∧
    (∀ a ∈ r.after, IsAct a) ∧ r.rhs.length ≤ 5 ∧ r.after.length ≤ 1 := by decide

/-- The nonterminal of a production is one of the lists. -/
lemma listRow_nonterm : ∀ r ∈ listRows, r.names ∈ [260, 261, 262, 263, 264] := by decide

/-- The nonterminal of a production for a directive is a list of names with its actions. -/
lemma listRow_names {r : ListRow} (hr : r ∈ listRows) : NameList r.names r.onName r.onField := by
  simp only [listRows, List.mem_cons, List.not_mem_nil, or_false] at hr
  rcases hr with rfl | rfl | rfl | rfl | rfl | rfl | rfl
  · exact nameList_snames
  · exact nameList_fnames
  · exact nameList_tnames
  · exact nameList_pnames
  · exact nameList_pnames
  · exact nameList_pnames
  · exact nameList_optNames

/-- A list of names whose grammar has no `FIELD` consists of names alone. -/
lemma exists_names_of_none {l : List FieldName} (hl : ∀ text, .field text ∈ l →
    (none : Option (List ℕ)).isSome) : ∃ names : List Lexeme, l = names.map .name := by
  induction l with
  | nil => exact ⟨[], rfl⟩
  | cons f l ih =>
    obtain ⟨names, rfl⟩ := ih fun text h => hl text (List.mem_cons_of_mem f h)
    cases f with
    | name text => exact ⟨text :: names, rfl⟩
    | field text => exact absurd (hl text List.mem_cons_self) (by simp)

/-- The tokens of a list without fields are `NAME`s with the texts of the names. -/
lemma map_token (names : List Lexeme) :
    (names.map FieldName.name).map FieldName.token = names.map fun text => (Tok.name, text) := by
  rw [List.map_map]
  rfl

/-- The texts of a list without fields are the names themselves. -/
lemma filterMap_text (names : List Lexeme) :
    (names.map FieldName.name).filterMap FieldName.text = names := by
  rw [List.filterMap_map]
  exact List.filterMap_some

/-- The token of a directive and the tokens of its names stand for the directive. -/
lemma ListRow.spelled {r : ListRow} (hr : r ∈ listRows) (lex : Lexeme) {l : List FieldName}
    (hl : ∀ text, .field text ∈ l → r.onField.isSome) :
    (r.directive l).Spelled ((r.tok, lex) :: l.map FieldName.token) := by
  simp only [listRows, List.mem_cons, List.not_mem_nil, or_false] at hr
  rcases hr with rfl | rfl | rfl | rfl | rfl | rfl | rfl
  · obtain ⟨names, rfl⟩ := exists_names_of_none hl
    rw [map_token]
    unfold directive
    rw [filterMap_text]
    exact .synch lex names
  · exact .type lex l
  · exact .termSpec lex l
  · exact .left lex l
  · exact .right lex l
  · exact .nonassoc lex l
  · obtain ⟨names, rfl⟩ := exists_names_of_none hl
    rw [map_token]
    exact .start lex names

/-- The calls for the elements of a list can be given by one function of the element. -/
lemma flatMap_calls {α : List ℕ} {β : Option (List ℕ)} {l : List FieldName}
    {f : FieldName → List ActsCall} (hl : ∀ text, .field text ∈ l → text ≠ [])
    (hname : ∀ text, FieldName.calls α β (.name text) = f (.name text))
    (hfield : ∀ text, text ≠ [] → FieldName.calls α β (.field text) = f (.field text)) :
    l.flatMap (FieldName.calls α β) = l.flatMap f := by
  refine List.flatMap_congr fun x hx => ?_
  cases x with
  | name text => exact hname text
  | field text => exact hfield text (hl text hx)

/-- One call for each element is the list of these calls. -/
lemma flatMap_call {l : List FieldName} {f : Lexeme → ActsCall} :
    l.flatMap (fun x => [FieldName.call f x]) = l.map (FieldName.call f) := by
  induction l with
  | nil => rfl
  | cons x l ih => rw [List.flatMap_cons, ih, List.map_cons, List.singleton_append]

/-- `new_field` reports an error for every text that is not empty. -/
lemma newFieldCalls_of_ne {text : Lexeme} (h : text ≠ []) : newFieldCalls text = [.lerror .field] :=
  if_neg h

/-- The calls for the names of a precedence level are those of the directive. -/
lemma level_calls {l : List FieldName} (hl : ∀ text, .field text ∈ l → text ≠ []) :
    .lerror .level :: l.flatMap (FieldName.calls [529] (some [530])) =
    (Directive.level l).calls := by
  refine congrArg (ActsCall.lerror .level :: ·) (flatMap_calls hl (fun text => rfl) fun text h =>
    ?_)
  exact (List.append_nil _).trans (newFieldCalls_of_ne h)

/-- The actions in front of the names, at them and behind them make the calls of the directive. -/
lemma ListRow.calls {r : ListRow} (hr : r ∈ listRows) (lex last : Lexeme) {l : List FieldName}
    (hl : ∀ text, .field text ∈ l → r.onField.isSome) (htext : ∀ text, .field text ∈ l →
    text ≠ []) :
    textCalls r.before lex ++ (l.flatMap (FieldName.calls r.onName r.onField) ++ textCalls r.after
    last) =
      (r.directive l).calls := by
  have hfield : ∀ text, text ≠ [] → newFieldCalls text ++ [] = [.lerror .field] := fun text h =>
    (List.append_nil _).trans (newFieldCalls_of_ne h)
  simp only [listRows, List.mem_cons, List.not_mem_nil, or_false] at hr
  rcases hr with rfl | rfl | rfl | rfl | rfl | rfl | rfl
  · obtain ⟨names, rfl⟩ := exists_names_of_none hl
    have hcalls :
        (names.map FieldName.name).flatMap (FieldName.calls [531] none) = names.map .addSynch := by
      rw [List.flatMap_map, List.map_eq_flatMap]
      rfl
    unfold directive
    rw [hcalls, filterMap_text]
    exact List.append_nil _
  · have hcalls : l.flatMap (FieldName.calls [525] (some [526])) =
        l.flatMap fun x => [FieldName.call (fun text => .newNonterm text false) x] :=
      flatMap_calls htext (fun text => rfl) hfield
    rw [flatMap_call] at hcalls
    exact (List.append_nil _).trans hcalls
  · have hcalls : l.flatMap (FieldName.calls [527] (some [528])) = l.flatMap fun x =>
      [FieldName.call .makeTerm x] :=
      flatMap_calls htext (fun text => rfl) hfield
    rw [flatMap_call] at hcalls
    exact (List.append_nil _).trans hcalls
  · exact (congrArg _ (List.append_nil _)).trans (level_calls htext)
  · exact (congrArg _ (List.append_nil _)).trans (level_calls htext)
  · exact (congrArg _ (List.append_nil _)).trans (level_calls htext)
  · obtain ⟨names, rfl⟩ := exists_names_of_none hl
    have hcalls : (names.map FieldName.name).flatMap (FieldName.calls [] none) = [] := by
      rw [List.flatMap_map]
      exact List.flatMap_eq_nil_iff.mpr fun _ _ => rfl
    change ActsCall.lerror .start :: (_ ++ []) = [.lerror .start]
    rw [hcalls]
    rfl

/-- The codes of the tokens that may follow a directive. -/
def defsCodes : List ℕ :=
  [Tok.codeBlock, Tok.left, Tok.nonassoc, Tok.right, Tok.separator, Tok.start, Tok.synch,
    Tok.termSpec, Tok.type, Tok.percentUnion]

/-- A list of names ends in front of every token that can begin a directive or end them. -/
lemma next_names : ∀ n ∈ defsCodes, ∀ X ∈ [260, 261, 262, 263, 264],
    llOut.predictive.next X (some n) = some [] := by decide

/-- The directives of a text begin with one of these tokens, or there are none. -/
lemma ahead_defs {defs : List Directive} {w v : List LlToken}
    (h : AllSpelled Directive.Spelled defs w) (hv : ahead v = Tok.separator) :
    ahead (w ++ v) ∈ defsCodes := by
  cases h with
  | nil =>
    rw [List.nil_append, hv]
    decide
  | cons h _ =>
    have hcode : ∀ {n : ℕ} {text : Lexeme} {x y : List LlToken}, n ∈ defsCodes →
        ahead (((n, text) :: x ++ y) ++ v) ∈ defsCodes := fun hn => hn
    cases h <;> exact hcode (by decide)

section Defs

variable {d : ℕ} {u v : List LlToken} {es : List (ℕ ⊕ LlToken)}

/-- A directive with a list of names is on top of the stack. -/
lemma exists_directive {r : ListRow} (hr : r ∈ listRows) (hu : ∀ t ∈ u, t.Valid)
    (h : Parses llOut.predictive d r.rhs u v es) : ∃ (q : Directive) (w x : List LlToken)
    (fs : List (ℕ ⊕ LlToken))
      (last : Lexeme), q.Spelled w ∧ u = w ++ x ∧ Parses llOut.predictive d [257] x v fs ∧
      fs.length < es.length ∧
        ∀ text, callsFrom text es = q.calls ++ callsFrom last fs := by
  obtain ⟨htok, hbefore, hafter, -⟩ := listRow_symbols r hr
  obtain ⟨lex, w, _, rfl, rfl, hacts⟩ := (parses_tok htok).mp h
  obtain ⟨_, rfl, hnames⟩ := (parses_acts hbefore).mp hacts
  obtain ⟨m, es₁, es₂, hlist, hrest, rfl⟩ := parses_cons_iff.mp hnames
  obtain ⟨fs, rfl, hdefs⟩ := (parses_acts hafter).mp hrest
  obtain ⟨l, hl, rfl, hcalls⟩ :=
    (listRow_names hr).exists_names (fun t ht => hu t (List.mem_cons_of_mem _ ht)) hlist
  have htext : ∀ text, .field text ∈ l → text ≠ [] := by
    intro text hmem
    have hmem' : (Tok.field, text) ∈ l.map FieldName.token :=
      List.mem_map.mpr ⟨.field text, hmem, rfl⟩
    exact (hu _ (List.mem_cons_of_mem _ (List.mem_append_left m hmem'))).2.2
  refine ⟨r.directive l, _, m, fs, textFrom lex es₁, r.spelled hr lex hl, rfl, hdefs,
    ?_, fun text => ?_⟩
  · simp only [List.length_cons, List.length_append, List.length_map]
    omega
  · rw [callsFrom_inr, callsFrom_acts, callsFrom_append, hcalls, callsFrom_acts, 
      ← ListRow.calls hr lex (textFrom lex es₁) hl htext]
    simp only [List.append_assoc]

/-- The tokens that are parsed as directives stand for some. -/
lemma exists_defs (hu : ∀ t ∈ u, t.Valid) (h : Parses llOut.predictive d [257] u v es) :
    ∃ (defs : List Directive) (w : List LlToken), AllSpelled Directive.Spelled defs w ∧ u = w ++ v ∧
      ahead v = Tok.separator ∧ ∀ text, callsFrom text es = defs.flatMap Directive.calls := by
  induction hn : es.length using Nat.strong_induction_on generalizing d u v es with
  | _ n ih =>
    obtain ⟨δ, hnext, hd, hδ⟩ := (parses_nonterm (by decide)).mp h
    clear h
    subst hn
    rcases next_defs _ (ahead_lt hu) δ hnext with ⟨r, hr, -, rfl⟩ | ⟨-, rfl⟩ | ⟨-, rfl⟩ |
      ⟨hsep, rfl⟩
    · obtain ⟨q, w, x, fs, last, hq, rfl, hrest, hlt, hcalls⟩ := exists_directive hr hu hδ
      obtain ⟨defs, w', hdefs, rfl, hv, hdefscalls⟩ :=
        ih fs.length hlt (fun t ht => hu t (List.mem_append_right w ht)) hrest rfl
      refine ⟨q :: defs, w ++ w', .cons hq hdefs, (List.append_assoc w w' v).symm, hv, fun text =>
        ?_⟩
      rw [hcalls, hdefscalls, List.flatMap_cons]
    · simp (disch := decide) only [parses_tok, parses_act] at hδ
      obtain ⟨lex, _, _, rfl, rfl, action, x, _, rfl, rfl, fs, rfl, hrest⟩ := hδ
      obtain ⟨defs, w, hdefs, rfl, hv, hcalls⟩ :=
        ih fs.length (by simp; omega) (fun t ht => hu t (by simp [ht])) hrest rfl
      refine ⟨.percentUnion :: defs, _, .cons (.percentUnion lex action) hdefs, rfl, hv, fun text =>
        ?_⟩
      simp [hcalls, llOutAct, Directive.calls]
    · simp (disch := decide) only [parses_tok] at hδ
      obtain ⟨lex, x, fs, rfl, rfl, hrest⟩ := hδ
      obtain ⟨defs, w, hdefs, rfl, hv, hcalls⟩ :=
        ih fs.length (by simp) (fun t ht => hu t (by simp [ht])) hrest rfl
      refine ⟨.codeBlock :: defs, _, .cons (.codeBlock lex) hdefs, rfl, hv, fun text => ?_⟩
      simp [hcalls, Directive.calls]
    · obtain ⟨rfl, rfl⟩ := parses_nil_iff.mp hδ
      exact ⟨[], [], .nil, rfl, hsep, fun text => rfl⟩

/-- The tokens of a directive with a list of names are parsed, if those behind them are. -/
lemma ListRow.parses {r : ListRow} (hr : r ∈ listRows) (lex : Lexeme) {l : List FieldName}
    {x : List LlToken} {calls : List ActsCall} (hl : ∀ text, .field text ∈ l → r.onField.isSome)
    (htext : ∀ text, .field text ∈ l → text ≠ []) (hd : 6 ≤ d) (hx : ahead x ∈ defsCodes)
    (h : Parses llOut.predictive d [257] x v es) (hcalls : ∀ text, callsFrom text es = calls) :
    ∃ fs,
      Parses llOut.predictive d [257] ((r.tok, lex) :: (l.map FieldName.token ++ x)) v fs ∧
        ∀ text, callsFrom text fs = (r.directive l).calls ++ calls := by
  obtain ⟨htok, hbefore, hafter, hlen, hlen'⟩ := listRow_symbols r hr
  have hroom : 4 ≤ d - (r.after ++ [257]).length := by
    simp only [List.length_append, List.length_cons, List.length_nil]
    omega
  obtain ⟨gs, hgs, hgscalls⟩ :=
    (listRow_names hr).parses hroom (next_names _ hx _ (listRow_nonterm r hr)) hl
  have hrest : Parses llOut.predictive d (r.after ++ [257]) x v (r.after.map .inl ++ es) :=
    (parses_acts hafter).mpr ⟨es, rfl, h⟩
  have hnames :
      Parses llOut.predictive d (r.names :: (r.after ++ [257])) (l.map FieldName.token ++ x) v
      (gs ++ (r.after.map .inl ++ es)) := parses_cons_iff.mpr ⟨x, gs, _, hgs, hrest, rfl⟩
  refine ⟨.inr (r.tok, lex) :: (r.before.map .inl ++ (gs ++ (r.after.map .inl ++ es))),
    (parses_nonterm (by decide)).mpr ⟨r.rhs, next_listRow r hr, by omega, ?_⟩, fun text => ?_⟩
  · exact (parses_tok htok).mpr ⟨lex, _, _, rfl, rfl, (parses_acts hbefore).mpr ⟨_, rfl, hnames⟩⟩
  · rw [callsFrom_inr, callsFrom_acts, callsFrom_append, hgscalls, callsFrom_acts, hcalls,
      ← ListRow.calls hr lex (textFrom lex gs) hl htext]
    simp only [List.append_assoc]

/-- A directive has a list of names, or it is one of the other two. -/
lemma Directive.Spelled.exists_row {q : Directive} {w : List LlToken} (h : q.Spelled w) :
    (∃ r ∈ listRows, ∃ (lex : Lexeme) (l : List FieldName), (∀ text, .field text ∈ l →
    r.onField.isSome) ∧
      w = (r.tok, lex) :: l.map FieldName.token ∧ q = r.directive l) ∨
    (∃ lex action, w = [(Tok.percentUnion, lex), (Tok.action, action)] ∧ q = .percentUnion) ∨
    (∃ lex, w = [(Tok.codeBlock, lex)] ∧ q = .codeBlock) := by
  have hnames : ∀ (names : List Lexeme) (text : Lexeme), .field text ∈ names.map FieldName.name →
      (none : Option (List ℕ)).isSome := by simp
  cases h with
  | synch lex snames =>
    refine Or.inl ⟨⟨Tok.synch, [], 260, [531], none,
      []⟩, by decide, lex, snames.map .name, hnames snames, ?_, ?_⟩
    · rw [map_token]
    · exact congrArg Directive.synch (filterMap_text snames).symm
  | percentUnion lex action => exact Or.inr (Or.inl ⟨lex, action, rfl, rfl⟩)
  | type lex fnames =>
    exact Or.inl ⟨⟨Tok.type, [], 261, [525], some [526], [515]⟩, by
      decide, lex, fnames, fun _ _ => rfl, rfl, rfl⟩
  | termSpec lex tnames =>
    exact Or.inl
      ⟨⟨Tok.termSpec, [516], 262, [527], some [528], [517]⟩, by
        decide, lex, tnames, fun _ _ => rfl, rfl, rfl⟩
  | left lex pnames =>
    exact Or.inl ⟨⟨Tok.left, [518], 263, [529], some [530], [519]⟩, by
      decide, lex, pnames, fun _ _ => rfl, rfl, rfl⟩
  | right lex pnames =>
    exact Or.inl ⟨⟨Tok.right, [520], 263, [529], some [530], [521]⟩, by
      decide, lex, pnames, fun _ _ => rfl, rfl, rfl⟩
  | nonassoc lex pnames =>
    exact Or.inl
      ⟨⟨Tok.nonassoc, [522], 263, [529], some [530], [523]⟩, by
        decide, lex, pnames, fun _ _ => rfl, rfl, rfl⟩
  | codeBlock lex => exact Or.inr (Or.inr ⟨lex, rfl, rfl⟩)
  | start lex names =>
    refine Or.inl ⟨⟨Tok.start, [524], 264, [], none,
      []⟩, by decide, lex, names.map .name, hnames names, ?_, rfl⟩
    rw [map_token]

/-- The tokens of directives are parsed as `defs`, and the actions make their calls. -/
lemma AllSpelled.parses_defs {defs : List Directive} {w : List LlToken}
    (h : AllSpelled Directive.Spelled defs w) (hw : ∀ t ∈ w, t.Valid) (hd : 6 ≤ d)
    (hv : ahead v = Tok.separator) : ∃ es, Parses llOut.predictive d [257] (w ++ v) v es ∧
      ∀ text, callsFrom text es = defs.flatMap Directive.calls := by
  induction h with
  | nil =>
    refine ⟨[], (parses_nonterm (by decide)).mpr ⟨[], ?_, Nat.zero_le d, .nil v⟩, fun text => rfl⟩
    rw [List.nil_append, hv]
    decide
  | @cons q defs w w' hq hdefs ih =>
    obtain ⟨es, hes, hcalls⟩ := ih fun t ht => hw t (List.mem_append_right w ht)
    simp only [List.flatMap_cons, List.append_assoc]
    rcases hq.exists_row with ⟨r, hr, lex, l, hl, rfl, rfl⟩ | ⟨lex, action, rfl, rfl⟩ |
      ⟨lex, rfl, rfl⟩
    · refine ListRow.parses hr lex hl (fun text hmem => ?_) hd (ahead_defs hdefs hv) hes hcalls
      have hmem' : (Tok.field, text) ∈ l.map FieldName.token :=
        List.mem_map.mpr ⟨.field text, hmem, rfl⟩
      exact (hw _ (List.mem_append_left w' (List.mem_cons_of_mem _ hmem'))).2.2
    · refine ⟨.inr (Tok.percentUnion, lex) :: .inr (Tok.action, action) :: .inl 514 :: es,
        (parses_nonterm (by decide)).mpr
          ⟨[Tok.percentUnion, Tok.action, 514, 257], rfl, Nat.le_trans (by decide) hd, ?_⟩,
          fun text => ?_⟩
      · simp (disch := decide) only [parses_tok, parses_act]
        exact ⟨_, _, _, rfl, rfl, _, _, _, rfl, rfl, _, rfl, hes⟩
      · simp [hcalls, llOutAct, Directive.calls]
    · refine ⟨.inr (Tok.codeBlock, lex) :: es,
        (parses_nonterm (by decide)).mpr ⟨[Tok.codeBlock, 257], rfl, Nat.le_trans (by decide) hd,
        ?_⟩, fun text => ?_⟩
      · simp (disch := decide) only [parses_tok]
        exact ⟨_, _, _, rfl, rfl, hes⟩
      · simp [hcalls, Directive.calls]

end Defs

/-! ## Rules -/

/-- The tokens that may begin the right-hand sides of a rule. -/
def sidesCodes : List ℕ :=
  [Tok.name, Tok.field, Tok.action, Tok.prec, Tok.startOpt, Tok.or, Tok.semi]

/-- The row of `right_sides` has one production: a right-hand side and what ends it. -/
lemma next_sides :
    ∀ n < 22, ∀ δ ∈ llOut.predictive.next 266 (some n), δ = [534, 267, 268] := by decide

/-- The row of `right_sides` has its production at every token that may begin one. -/
lemma next_sidesCodes :
    ∀ n ∈ sidesCodes, llOut.predictive.next 266 (some n) = some [534, 267, 268] := by decide

/-- The row of `end_rhs` goes on with another right-hand side or ends the rule. -/
lemma next_endRhs : ∀ n < 22, ∀ δ ∈ llOut.predictive.next 268 (some n),
    δ = [Tok.or, 266] ∨ δ = [Tok.semi] := by decide

/-- The row of `rule` has its production at a `NAME` and at a `FIELD` as the left-hand side. -/
lemma next_rule : ∀ n < 22, ∀ δ ∈ llOut.predictive.next 265 (some n),
    δ = [Tok.name, 532, Tok.colon, 266] ∨ δ = [Tok.field, 533, Tok.colon, 266] := by decide

/-- The row of `rules` goes on with a rule, or ends at `_EOI_` or `SEPARATOR`. -/
lemma next_rules : ∀ n < 22, ∀ δ ∈ llOut.predictive.next 258 (some n),
    δ = [265, 258] ∨ ((n = eoi ∨ n = Tok.separator) ∧ δ = []) := by decide

/-- The row of `end` takes the end of the input or a `SEPARATOR`, at which it runs action 513. -/
lemma next_end : ∀ n < 22, ∀ δ ∈ llOut.predictive.next 259 (some n),
    (n = eoi ∧ δ = []) ∨ (n = Tok.separator ∧ δ = [513, Tok.separator]) := by decide

/-- The row of `spec` has one production: directives, `SEPARATOR`, rules and the end. -/
lemma next_spec : ∀ n < 22, ∀ δ ∈ llOut.predictive.next 256 (some n),
    δ = [257, Tok.separator, 512, 258, 259] := by decide

/-- The calls for right-hand sides: `new_rhs` and the calls of its elements for each. -/
def sidesCalls (rs : List Rhs) : List ActsCall := rs.flatMap fun rhs => .newRhs :: rhs.calls

/-- Tokens that spell right-hand sides spell at least one of them. -/
lemma SidesSpelled.ne_nil {rs : List Rhs} {w : List LlToken} (h : SidesSpelled rs w) : rs ≠ [] := by
  cases h <;> exact List.cons_ne_nil _ _

/-- The tokens of right-hand sides begin with a token at which the table has them. -/
lemma ahead_sides {rs : List Rhs} {w v : List LlToken} (h : SidesSpelled rs w) :
    ahead (w ++ v) ∈ sidesCodes := by
  have hrhs : ∀ {r : Rhs} {u x : List LlToken}, r.Spelled u → ahead x ∈ sidesCodes →
      ahead (u ++ x) ∈ sidesCodes := by
    intro r u x hr hx
    have hcode : ∀ {n : ℕ} {text : Lexeme} {y : List LlToken}, n ∈ sidesCodes →
        ahead (((n, text) :: y) ++ x) ∈ sidesCodes := fun hn => hn
    cases hr with
    | nil => exact hx
    | name | field | action | prec | opt => exact hcode (by decide)
  have hlast : ∀ {n : ℕ} {text : Lexeme} {y : List LlToken}, n ∈ sidesCodes →
      ahead ((n, text) :: y) ∈ sidesCodes := fun hn => hn
  cases h with
  | last lex h =>
    rw [List.append_assoc]
    exact hrhs h (hlast (by decide))
  | or lex h _ =>
    rw [List.append_assoc]
    exact hrhs h (hlast (by decide))

section Rules

variable {d : ℕ} {u v w : List LlToken} {es : List (ℕ ⊕ LlToken)}

/-- The tokens that are parsed as right-hand sides stand for some. -/
lemma exists_sides (hu : ∀ t ∈ u, t.Valid) (h : Parses llOut.predictive d [266] u v es) :
    ∃ (rs : List Rhs) (w : List LlToken), SidesSpelled rs w ∧ u = w ++ v ∧
      (∀ r ∈ rs, r.height + 1 ≤ d) ∧ ∀ text, callsFrom text es = sidesCalls rs := by
  induction hn : es.length using Nat.strong_induction_on generalizing u v es with
  | _ n ih =>
    obtain ⟨δ, hnext, hd, hδ⟩ := (parses_nonterm (by decide)).mp h
    clear h
    subst hn
    obtain rfl := next_sides _ (ahead_lt hu) δ hnext
    obtain ⟨_, rfl, hside⟩ := (parses_act (by decide)).mp hδ
    obtain ⟨m, es₁, es₂, hrhs, hend, rfl⟩ := parses_cons_iff.mp hside
    obtain ⟨r, w, hr, rfl, -, hheight, hcalls⟩ := exists_rhs hu hrhs
    have hm : ∀ t ∈ m, t.Valid := fun t ht => hu t (List.mem_append_right w ht)
    have hroom : r.height + 1 ≤ d := by
      have hheight' : r.height ≤ d - 1 := hheight
      have hd' : 3 ≤ d := hd
      omega
    obtain ⟨δ, hnext', -, hδ'⟩ := (parses_nonterm (by decide)).mp hend
    rcases next_endRhs _ (ahead_lt hm) δ hnext' with rfl | rfl
    · obtain ⟨lex, x, fs, rfl, rfl, hrest⟩ := (parses_tok (by decide)).mp hδ'
      obtain ⟨rs, w', hrs, rfl, hheights, hrscalls⟩ :=
        ih fs.length (by simp; omega) (fun t ht => hm t (List.mem_cons_of_mem _ ht)) hrest rfl
      refine ⟨r :: rs, _,
        .or lex hr hrs, by simp, List.forall_mem_cons.mpr ⟨hroom, hheights⟩, fun text => ?_⟩
      simp [hcalls, hrscalls, llOutAct, sidesCalls]
    · obtain ⟨lex, x, fs, rfl, rfl, hrest⟩ := (parses_tok (by decide)).mp hδ'
      obtain ⟨rfl, rfl⟩ := parses_nil_iff.mp hrest
      refine ⟨[r], _,
        .last lex hr, by simp, List.forall_mem_cons.mpr ⟨hroom, by simp⟩, fun text => ?_⟩
      simp [hcalls, llOutAct, sidesCalls]

/-- The tokens of right-hand sides are parsed as such, and the actions make their calls. -/
lemma SidesSpelled.parses {rs : List Rhs} (h : SidesSpelled rs w)
    (hheights : ∀ r ∈ rs, r.height + 1 ≤ d) (hd : 3 ≤ d) (v : List LlToken) :
    ∃ es, Parses llOut.predictive d [266] (w ++ v) v es ∧
      ∀ text, callsFrom text es = sidesCalls rs := by
  have hstart : ∀ {rs : List Rhs} {w : List LlToken} {es : List (ℕ ⊕ LlToken)}, SidesSpelled rs w →
      Parses llOut.predictive d [267, 268] (w ++ v) v es →
        Parses llOut.predictive d [266] (w ++ v) v (.inl 534 :: es) := by
    intro rs w es h hes
    refine (parses_nonterm (by decide)).mpr ⟨_, next_sidesCodes _ (ahead_sides h), hd, ?_⟩
    exact (parses_act (by decide)).mpr ⟨es, rfl, hes⟩
  induction h with
  | @last r u lex hr =>
    obtain ⟨hheight, -⟩ := List.forall_mem_cons.mp hheights
    have hroom : r.height ≤ d - 1 := by omega
    obtain ⟨es, hes, hcalls⟩ := hr.parses (v := (Tok.semi, lex) :: v) (Or.inr (Or.inr rfl)) hroom
    have hend : Parses llOut.predictive d [268] ((Tok.semi, lex) :: v) v [.inr (Tok.semi, lex)] :=
      (parses_nonterm (by decide)).mpr ⟨[Tok.semi], rfl, Nat.le_trans (by decide) hd,
        (parses_tok (by decide)).mpr ⟨lex, v, [], rfl, rfl, .nil v⟩⟩
    refine ⟨.inl 534 :: (es ++ [.inr (Tok.semi, lex)]), hstart (.last lex hr) ?_, fun text => ?_⟩
    · rw [List.append_assoc]
      exact hes.append hend
    · simp [hcalls, llOutAct, sidesCalls]
  | @or r rs u u' lex hr hrs ih =>
    obtain ⟨hheight, hheights'⟩ := List.forall_mem_cons.mp hheights
    have hroom : r.height ≤ d - 1 := by omega
    obtain ⟨fs, hfs, hrscalls⟩ := ih hheights'
    obtain ⟨es, hes, hcalls⟩ :=
      hr.parses (v := (Tok.or, lex) :: (u' ++ v)) (Or.inr (Or.inl rfl)) hroom
    have hend :
        Parses llOut.predictive d [268] ((Tok.or, lex) :: (u' ++ v)) v (.inr (Tok.or, lex) :: fs) :=
      (parses_nonterm (by decide)).mpr ⟨[Tok.or, 266], rfl, Nat.le_trans (by decide) hd,
        (parses_tok (by decide)).mpr ⟨lex, _, fs, rfl, rfl, hfs⟩⟩
    refine ⟨.inl 534 :: (es ++ .inr (Tok.or, lex) :: fs), hstart (.or lex hr hrs) ?_, fun text =>
      ?_⟩
    · rw [List.append_assoc]
      exact hes.append hend
    · simp [hcalls, hrscalls, llOutAct, sidesCalls]

/-- The tokens that are parsed as a rule stand for one. -/
lemma exists_rule (hu : ∀ t ∈ u, t.Valid) (h : Parses llOut.predictive d [265] u v es) :
    ∃ (q : Rule) (w : List LlToken), q.Spelled w ∧ u = w ++ v ∧
      (∀ r ∈ q.rhs :: q.alternatives, r.height + 1 ≤ d) ∧ 0 < es.length ∧
      ∀ text, callsFrom text es = q.calls := by
  obtain ⟨δ, hnext, hd, hδ⟩ := (parses_nonterm (by decide)).mp h
  rcases next_rule _ (ahead_lt hu) δ hnext with rfl | rfl
  all_goals
    simp (disch := decide) only [parses_tok, parses_act] at hδ
    obtain ⟨lhs, _, _, rfl, rfl, _, rfl, lex, x, fs, rfl, rfl, hsides⟩ := hδ
    obtain ⟨rs, w, hrs, rfl, hheights, hcalls⟩ :=
      exists_sides (fun t ht => hu t (by simp [ht])) hsides
    obtain ⟨r, rs, rfl⟩ := List.exists_cons_of_ne_nil hrs.ne_nil
  · refine ⟨⟨lhs, r, rs⟩, _, .name lex hrs, rfl, hheights, by simp, fun text => ?_⟩
    simp only [callsFrom_inr, callsFrom_inl, hcalls]
    rfl
  · refine ⟨⟨lhs, r, rs⟩, _, .field lex hrs, rfl, hheights, by simp, fun text => ?_⟩
    simp only [callsFrom_inr, callsFrom_inl, hcalls]
    rfl

/-- The tokens of a rule are parsed as `rule`, and the actions make its calls. -/
lemma Rule.Spelled.parses {q : Rule} (h : q.Spelled w)
    (hheights : ∀ r ∈ q.rhs :: q.alternatives, r.height + 1 ≤ d) (hd : 4 ≤ d) (v : List LlToken) :
    ∃ es, Parses llOut.predictive d [265] (w ++ v) v es ∧
      ∀ text, callsFrom text es = q.calls := by
  cases h with
  | @name u lex h =>
    obtain ⟨es, hes, hcalls⟩ := h.parses hheights (Nat.le_trans (by decide) hd) v
    refine ⟨.inr (Tok.name, q.lhs) :: .inl 532 :: .inr (Tok.colon, lex) :: es,
      (parses_nonterm (by decide)).mpr ⟨[Tok.name, 532, Tok.colon, 266], rfl, hd, ?_⟩, fun text =>
        ?_⟩
    · simp (disch := decide) only [parses_tok, parses_act]
      exact ⟨_, _, _, rfl, rfl, _, rfl, _, _, _, rfl, rfl, hes⟩
    · simp only [callsFrom_inr, callsFrom_inl, hcalls]
      rfl
  | @field u lex h =>
    obtain ⟨es, hes, hcalls⟩ := h.parses hheights (Nat.le_trans (by decide) hd) v
    refine ⟨.inr (Tok.field, q.lhs) :: .inl 533 :: .inr (Tok.colon, lex) :: es,
      (parses_nonterm (by decide)).mpr ⟨[Tok.field, 533, Tok.colon, 266], rfl, hd, ?_⟩, fun text =>
        ?_⟩
    · simp (disch := decide) only [parses_tok, parses_act]
      exact ⟨_, _, _, rfl, rfl, _, rfl, _, _, _, rfl, rfl, hes⟩
    · simp only [callsFrom_inr, callsFrom_inl, hcalls]
      rfl

/-- The tokens that are parsed as rules stand for some. -/
lemma exists_rules (hu : ∀ t ∈ u, t.Valid) (h : Parses llOut.predictive d [258] u v es) :
    ∃ (rules : List Rule) (w : List LlToken), AllSpelled Rule.Spelled rules w ∧ u = w ++ v ∧
      (ahead v = eoi ∨ ahead v = Tok.separator) ∧
      (∀ q ∈ rules, ∀ r ∈ q.rhs :: q.alternatives, r.height + 2 ≤ d) ∧
      ∀ text, callsFrom text es = rules.flatMap Rule.calls := by
  induction hn : es.length using Nat.strong_induction_on generalizing u v es with
  | _ n ih =>
    obtain ⟨δ, hnext, hd, hδ⟩ := (parses_nonterm (by decide)).mp h
    clear h
    subst hn
    rcases next_rules _ (ahead_lt hu) δ hnext with rfl | ⟨hends, rfl⟩
    · obtain ⟨m, es₁, es₂, hrule, hrest, rfl⟩ := parses_cons_iff.mp hδ
      obtain ⟨q, w, hq, rfl, hheight, hpos, hcalls⟩ := exists_rule hu hrule
      obtain ⟨rules, w', hrules, rfl, hends, hheights, hrulescalls⟩ :=
        ih es₂.length (by simp; omega) (fun t ht => hu t (List.mem_append_right w ht)) hrest rfl
      have hroom : ∀ r ∈ q.rhs :: q.alternatives, r.height + 2 ≤ d := by
        intro r hr
        have hheight' : r.height + 1 ≤ d - 1 := hheight r hr
        have hd' : 2 ≤ d := hd
        omega
      refine ⟨q :: rules, _, .cons hq hrules, (List.append_assoc w w' v).symm, hends,
        List.forall_mem_cons.mpr ⟨hroom, hheights⟩, fun text => ?_⟩
      rw [callsFrom_append, hcalls, hrulescalls, List.flatMap_cons]
    · obtain ⟨rfl, rfl⟩ := parses_nil_iff.mp hδ
      exact ⟨[], [], .nil, rfl, hends, by simp, fun text => rfl⟩

/-- The tokens of rules are parsed as `rules`, and the actions make their calls. -/
lemma AllSpelled.parses_rules {rules : List Rule} (h : AllSpelled Rule.Spelled rules w)
    (hheights : ∀ q ∈ rules, ∀ r ∈ q.rhs :: q.alternatives, r.height + 2 ≤ d) (hd : 5 ≤ d)
    (hv : ahead v = eoi ∨ ahead v = Tok.separator) : ∃ es, Parses llOut.predictive d [258]
    (w ++ v) v es ∧
      ∀ text, callsFrom text es = rules.flatMap Rule.calls := by
  induction h with
  | nil =>
    refine ⟨[], (parses_nonterm (by decide)).mpr ⟨[], ?_, Nat.zero_le d, .nil v⟩, fun text => rfl⟩
    rw [List.nil_append]
    rcases hv with hv | hv <;> rw [hv] <;> decide
  | @cons q rules w w' hq hrules ih =>
    obtain ⟨hheight, hheights'⟩ := List.forall_mem_cons.mp hheights
    obtain ⟨fs, hfs, hrulescalls⟩ := ih hheights'
    have hroom : ∀ r ∈ q.rhs :: q.alternatives, r.height + 1 ≤ d - 1 := fun r hr => by
      have := hheight r hr
      omega
    obtain ⟨es, hes, hcalls⟩ := hq.parses hroom (by omega) (w' ++ v)
    have hnext : llOut.predictive.next 258 (some (ahead (w ++ (w' ++ v)))) = some [265, 258] := by
      cases hq <;> rfl
    refine ⟨es ++ fs, (parses_nonterm (by decide)).mpr ⟨[265, 258], ?_, Nat.le_trans (by decide) hd,
      ?_⟩, fun text => ?_⟩
    · rw [List.append_assoc]
      exact hnext
    · rw [List.append_assoc]
      exact hes.append hfs
    · rw [callsFrom_append, hcalls, hrulescalls, List.flatMap_cons]

end Rules

/-! ## Specifications -/

section Specs

variable {u v tokens : List LlToken} {es : List (ℕ ⊕ LlToken)}

/-- The tokens that are parsed stand for a specification. -/
lemma exists_spec (hu : ∀ t ∈ u, t.Valid) (h : Parses llOut.predictive 128 [256] u v es) :
    ∃ spec : Spec, spec.Spelled u v ∧ spec.Fits ∧ ∀ text, callsFrom text es = spec.calls := by
  obtain ⟨δ, hnext, -, hδ⟩ := (parses_nonterm (by decide)).mp h
  obtain rfl := next_spec _ (ahead_lt hu) δ hnext
  obtain ⟨m, es₁, _, hdefs, hrest, rfl⟩ := parses_cons_iff.mp hδ
  obtain ⟨defs, w, hw, rfl, -, hdefscalls⟩ := exists_defs hu hdefs
  simp (disch := decide) only [parses_tok, parses_act] at hrest
  obtain ⟨lex, x, _, rfl, rfl, gs, rfl, hlast⟩ := hrest
  obtain ⟨y, es₂, es₃, hrules, hend, rfl⟩ := parses_cons_iff.mp hlast
  have hx : ∀ t ∈ x, LlToken.Valid t := fun t ht => hu t (by simp [ht])
  obtain ⟨rules, w', hw', rfl, hy, hheights, hrulescalls⟩ := exists_rules hx hrules
  have hfits : (Spec.mk defs rules).Fits := by
    intro q hq r hr
    have hheight : r.height + 2 ≤ 127 := hheights q hq r hr
    exact Nat.succ_le_succ hheight
  obtain ⟨δ, hnext', -, hδ'⟩ := (parses_nonterm (by decide)).mp hend
  have hyvalid : ∀ t ∈ y, t.Valid := fun t ht => hx t (List.mem_append_right w' ht)
  rcases next_end _ (ahead_lt hyvalid) δ hnext' with ⟨hsep, rfl⟩ | ⟨-, rfl⟩
  · obtain ⟨rfl, rfl⟩ := parses_nil_iff.mp hδ'
    obtain rfl := (ahead_eq_eoi hyvalid).mp hsep
    rw [List.append_nil]
    refine ⟨⟨defs, rules⟩, .whole lex hw hw', hfits, fun text => ?_⟩
    simp [hdefscalls, hrulescalls, llOutAct, Spec.calls]
  · simp (disch := decide) only [parses_tok, parses_act] at hδ'
    obtain ⟨_, rfl, lex', x, fs, rfl, rfl, hnil⟩ := hδ'
    obtain ⟨rfl, rfl⟩ := parses_nil_iff.mp hnil
    refine ⟨⟨defs, rules⟩, .tail lex lex' x hw hw', hfits, fun text => ?_⟩
    simp [hdefscalls, hrulescalls, llOutAct, Spec.calls]

/-- The directives and the rules are parsed, and what is left at the end. -/
lemma parses_spec {spec : Spec} {w w' x : List LlToken} {fs : List (ℕ ⊕ LlToken)} (lex : Lexeme)
    (hdefs : AllSpelled Directive.Spelled spec.defs w)
    (hrules : AllSpelled Rule.Spelled spec.rules w') (hw : ∀ t ∈ w, t.Valid) (hfits : spec.Fits)
    (hx : ahead x = eoi ∨ ahead x = Tok.separator) (hend : Parses llOut.predictive 128 [259] x v fs)
    (hcalls : ∀ text, callsFrom text fs = []) : ∃ es, Parses llOut.predictive 128 [256]
    (w ++ (Tok.separator, lex) :: (w' ++ x)) v es ∧
      ∀ text, callsFrom text es = spec.calls := by
  have hheights : ∀ q ∈ spec.rules, ∀ r ∈ q.rhs :: q.alternatives, r.height + 2 ≤ 127 := by
    intro q hq r hr
    exact Nat.le_of_succ_le_succ (hfits q hq r hr)
  obtain ⟨es₁, hes₁, hdefscalls⟩ :=
    hdefs.parses_defs (d := 124) (v := (Tok.separator, lex) :: (w' ++ x)) hw (by decide) rfl
  obtain ⟨es₂, hes₂, hrulescalls⟩ := hrules.parses_rules (d := 127) hheights (by decide) hx
  have hrest :
      Parses llOut.predictive 128 [Tok.separator, 512, 258, 259] ((Tok.separator, lex) :: (w' ++ x))
      v (.inr (Tok.separator, lex) :: .inl 512 :: (es₂ ++ fs)) := by
    simp (disch := decide) only [parses_tok, parses_act]
    exact ⟨_, _, _, rfl, rfl, _, rfl, hes₂.append hend⟩
  have hnext :
      ∀ n ∈ defsCodes, llOut.predictive.next 256 (some n) = some [257, Tok.separator, 512, 258,
        259] := by
    decide
  refine ⟨es₁ ++ .inr (Tok.separator, lex) :: .inl 512 :: (es₂ ++ fs),
    (parses_nonterm (by decide)).mpr
    ⟨_, hnext _ (ahead_defs hdefs rfl), by decide, hes₁.append hrest⟩, fun text => ?_⟩
  simp [hdefscalls, hrulescalls, hcalls, llOutAct, Spec.calls]

/-- The tokens of a specification are parsed from `spec`, and the actions make its calls. -/
lemma Spec.Spelled.parses {spec : Spec} (h : spec.Spelled u v) (hu : ∀ t ∈ u, t.Valid)
    (hfits : spec.Fits) : ∃ es, Parses llOut.predictive 128 [256] u v es ∧
    ∀ text, callsFrom text es = spec.calls := by
  cases h with
  | @whole w w' lex hdefs hrules =>
    have hend : Parses llOut.predictive 128 [259] [] [] [] :=
      (parses_nonterm (by decide)).mpr ⟨[], by decide, by decide, .nil []⟩
    have hspec :=
      parses_spec lex hdefs hrules (fun t ht => hu t (by simp [ht])) hfits (Or.inl rfl) hend
      fun text => rfl
    rw [List.append_nil] at hspec
    exact hspec
  | @tail w w' lex lex' v hdefs hrules =>
    have hend : Parses llOut.predictive 128 [259] ((Tok.separator, lex') :: v) v
        [.inl 513, .inr (Tok.separator, lex')] := by
      refine (parses_nonterm (by decide)).mpr ⟨[513, Tok.separator], rfl, by decide, ?_⟩
      simp (disch := decide) only [parses_tok, parses_act]
      exact ⟨_, rfl, lex', v, [], rfl, rfl, .nil v⟩
    exact parses_spec lex hdefs hrules (fun t ht => hu t (by simp [ht])) hfits (Or.inr rfl) hend
      fun text => rfl

/-- The parser of llama returns 0 without an error exactly on the tokens of a specification whose
groups fit on its stack. It has left the tokens behind the second `SEPARATOR`, and has made the
calls of the specification. -/
theorem llOut_parse_iff (htokens : ∀ t ∈ tokens, t.Valid) {calls : List ActsCall} :
    (∃ n s, llOut.parse llOutEnv tokens n = some (.returns 0 s) ∧ s.yynerrs = 0 ∧ s.unread = v ∧
      actsCalls s.acts = calls) ↔ ∃ spec : Spec, spec.Spelled tokens v ∧ spec.Fits ∧
      calls = spec.calls := by
  have heoi : ∀ t ∈ tokens, t.1 ≠ eoi := fun t ht => Nat.pos_iff_ne_zero.mp (htokens t ht).1
  have hreturns :
      ∀ as, (∃ n s, llOut.parse llOutEnv tokens n = some (.returns 0 s) ∧ s.yynerrs = 0 ∧
        s.unread = v ∧ s.acts = as) ↔ ∃ es, Parses llOut.predictive 128 [256] tokens v es ∧
        as = actsFrom [] es := fun as =>
    LlTables.returns_iff (fun _ _ => rfl) (by decide) heoi
  constructor
  · rintro ⟨n, s, hn, herr, hv, rfl⟩
    obtain ⟨es, hes, hacts⟩ := (hreturns s.acts).mp ⟨n, s, hn, herr, hv, rfl⟩
    obtain ⟨spec, hspec, hfits, hcalls⟩ := exists_spec htokens hes
    refine ⟨spec, hspec, hfits, ?_⟩
    rw [hacts]
    exact hcalls []
  · rintro ⟨spec, hspec, hfits, rfl⟩
    obtain ⟨es, hes, hcalls⟩ := hspec.parses htokens hfits
    obtain ⟨n, s, hn, herr, hv, hacts⟩ := (hreturns (actsFrom [] es)).mpr ⟨es, hes, rfl⟩
    refine ⟨n, s, hn, herr, hv, ?_⟩
    rw [hacts]
    exact hcalls []

end Specs

end Parser
