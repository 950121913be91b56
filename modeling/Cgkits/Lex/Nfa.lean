import Mathlib.Data.Finset.Basic
import Mathlib.Logic.Function.Basic

/-!
# Thompson's construction (`nfa.c`)

A recursive descent parser builds one machine for all rules.  Its states are elements of an array;
`new` takes a discarded state from a stack or the next unused one, and a concatenation copies the
start state of its second part over the end state of the first one and discards the original.  So
the number of a state says little about when the state was made.

The lexical analyzer is a parameter, since the construction only asks for the current token, its
lexeme and the text behind it.  The parser is written with the parser of parenthesized expressions
as an argument, and `expr` closes the recursion.  `machine` also returns the start and the end state
of every rule.
-/

namespace Lex

/-- `TOKEN`: the tokens of the regular expressions. -/
inductive Token where
  | eos | any | atBol | atEol | cclEnd | cclStart | closeCurly | closeParen | closrue | dash
  | endOfInput | l | openCurly | openParen | optional | or | plusClose
deriving DecidableEq, Repr

/-- `ERR_NUM`, with the meaning of the messages of `_errmsg`. -/
inductive ErrNum where
  /-- Malformed regular expression. -/
  | badexpr
  /-- Missing close parenthesis. -/
  | paren
  /-- Internal error: Discard stack full. -/
  | stack
  /-- Too many regular expressions or expression too long. -/
  | length
  /-- Missing [ in character class. -/
  | bracket
  /-- ^ must be at start of expression or after [. -/
  | bol
  /-- + ? or * must follow an expression or subexpression. -/
  | close
  /-- Too many characters in accept actions. -/
  | strings
  /-- Newline in quoted string. -/
  | newline
  /-- Missing } in macro expansion. -/
  | badmac
  /-- The macro to be expanded does not exist. -/
  | nomac
  /-- Macro expansions nested too deeply. -/
  | macdepth
deriving DecidableEq, Repr

/-- `WARN_NUM`.  A warning ends the program, as an error does. -/
inductive WarnNum where
  | startdash | enddash
deriving DecidableEq, Repr

/-- Why the construction has no result: an error, a warning, a missing value, or a cut-off. -/
inductive Fault where
  /-- The program exits through `parse_err`. -/
  | parseErr (type : ErrNum)
  /-- The program exits through `warning`. -/
  | warning (type : WarnNum)
  /-- A rule, a group or an alternative is empty: the program goes on with a pointer that was not
  set. -/
  | unset
  /-- The program reads memory that belongs to no string. -/
  | stray
  /-- The input is not finished within the given number of steps. -/
  | fuel
deriving DecidableEq, Repr

/-- A computation that has come to a result goes on with the next one. -/
@[simp] lemma ok_bind {α β : Type} (a : α) (f : α → Except Fault β) : (Except.ok a >>= f) = f a :=
  rfl

/-- A computation that has failed stays failed, whatever follows. -/
@[simp] lemma error_bind {α β : Type} (e : Fault) (f : α → Except Fault β) :
    (Except.error e >>= f) = .error e := rfl

/-- A computation with a fault as its failure succeeds through a result of its first part. -/
lemma bind_eq_ok {α β : Type} {x : Except Fault α} {f : α → Except Fault β} {b : β} :
    x >>= f = .ok b ↔ ∃ a, x = .ok a ∧ f a = .ok b := by
  cases x with
  | error e =>
    constructor
    · intro h
      cases h
    · rintro ⟨a, h, -⟩
      cases h
  | ok a =>
    constructor
    · intro h
      exact ⟨a, rfl, h⟩
    · rintro ⟨a', h, hf⟩
      cases h
      exact hf

/-! ## The states -/

/-- `EPSILON`: the edge of a state that is left without reading a character. -/
def epsilon : ℤ := -1

/-- `CCL`: the edge of a state that is left on a character of its class. -/
def ccl : ℤ := -2

/-- `EMPTY`: the edge of a state that has been discarded. -/
def empty : ℤ := -3

/-- `NFA_MAX`, the number of states for which there is memory. -/
def nfaMax : ℕ := 768

/-- `STR_MAX`, the number of bytes for the accept strings. -/
def strMax : ℕ := 10 * 1024

/-- `_SSIZE`, the size of the stack of discarded states. -/
def ssize : ℕ := 32

/-- A character class: a bit set and its complement flag. -/
structure CharClass where
  /-- The bit map, by the numbers of its members. -/
  map : Finset ℤ
  /-- Whether the set is complemented. -/
  compl : Bool
deriving DecidableEq

/-- `SET_ADD` puts a number into the class. -/
def CharClass.add (set : CharClass) (x : ℤ) : CharClass := { set with map := insert x set.map }

/-- `SET_ADD` for every number from `first` to `last`. -/
def CharClass.addRange (set : CharClass) (first last : ℤ) : CharClass :=
  (List.range (last + 1 - first).toNat).foldl (fun set k => set.add (first + (k : ℕ))) set

/-- `SET_TEST`: the number is in the class, which may be complemented. -/
def CharClass.test (set : CharClass) (x : ℤ) : Bool := if x ∈ set.map then !set.compl else set.compl

/-- `NFA`: a state.  Pointers to states are indices into the array, and the accept string is known
by its address. -/
structure Node where
  /-- The label of the edge: a character, `ccl`, `empty` or `epsilon`. -/
  edge : ℤ
  /-- The character class on the edge, if it has one. -/
  bitset : CharClass
  /-- The state that the first edge leads to. -/
  next : Option ℕ
  /-- Another next state if the edge is `epsilon`. -/
  next2 : Option ℕ
  /-- The accept string, where the state accepts. -/
  accept : Option ℕ
  /-- The anchor of the rule that ends here. -/
  anchor : ℕ
deriving DecidableEq

/-- A state whose memory has been cleared, as `new` finds it. -/
def Node.zero : Node := ⟨0, ⟨∅, false⟩, none, none, none, 0⟩

/-- `START`: the rule is anchored at the start of a line. -/
def anchorStart : ℕ := 1

/-- `END`: the rule is anchored at the end of a line. -/
def anchorEnd : ℕ := 2

/-- The variables of the construction: the states, their counters, and the accept strings. -/
structure States where
  /-- `_nfa_states`, the states by their numbers. -/
  node : ℕ → Node
  /-- `_nstates`, the number of states in use. -/
  nstates : ℕ
  /-- `_next_alloc`, the number of the next new state. -/
  nextAlloc : ℕ
  /-- `_stack`, the discarded states, top first. -/
  stack : List ℕ
  /-- `savep`: the place of the next accept string. -/
  savep : ℕ

/-- The variables before the construction, when no state is in use. -/
def States.init : States := ⟨fun _ => .zero, 0, 0, [], 0⟩

/-- Assign to fields of the state `i` and leave the others as they are. -/
def States.modify (m : States) (i : ℕ) (f : Node → Node) : States :=
  { m with node := Function.update m.node i (f (m.node i)) }

/-- `new`: take a discarded state from the stack, or the next one that has not been used. -/
def new (m : States) : Except Fault (ℕ × States) :=
  if nfaMax ≤ m.nstates + 1 then .error (.parseErr .length)
  else
    match m.stack with
    | [] =>
      .ok (m.nextAlloc, { m with nstates := m.nstates + 1, nextAlloc := m.nextAlloc + 1 }.modify
        m.nextAlloc fun p => { p with edge := epsilon })
    | p :: stack => .ok (p, { m with nstates := m.nstates + 1, stack := stack }.modify
        p fun p => { p with edge := epsilon })

/-- `discard`: clear a state and push it to the stack of discarded ones. -/
def discard (nfaToDiscard : ℕ) (m : States) : Except Fault States :=
  if ssize ≤ m.stack.length then .error (.parseErr .stack)
  else .ok ({ m with nstates := m.nstates - 1, stack := nfaToDiscard :: m.stack }.modify
    nfaToDiscard fun _ => { Node.zero with edge := empty })

/-- `save`: store an accept string and return its address.  The action `|` gets the address that the
next string will have. -/
def save (str : List ℕ) (m : States) : Except Fault (ℕ × States) :=
  if str.head? = some 124 then .ok (m.savep + 1, m)
  else if str ≠ [] ∧ strMax - 1 ≤ 4 * (m.savep + 1) + (str.length - 1) then
    .error (.parseErr .strings)
  else .ok (m.savep + 1, { m with savep := m.savep + 1 + (str.length + 4) / 4 })

/-! ## The parser -/

/-- The lexical analyzer, seen from the parser: its variables and `advance`. -/
structure Lexer (ι : Type) where
  /-- `_current_tok`, the token that was read last. -/
  tok : ι → Token
  /-- `_lexeme`, the value of this token. -/
  lexeme : ι → ℤ
  /-- The characters from `_input` to the end of the string. -/
  input : ι → List ℕ
  /-- `while(isspace(*_input)) _input++`. -/
  skipSpace : ι → ι
  /-- `advance`, which reads the next token. -/
  advance : ι → Except Fault ι

/-- What the functions of the parser pass on: the lexical analyzer and the states. -/
structure Parse (ι : Type) where
  /-- The state of the lexical analyzer. -/
  lex : ι
  /-- The variables of the construction. -/
  nfa : States

/-- A piece of the machine: its start state and its end state. -/
structure Frag where
  /-- `*startp`, the state where the machine starts. -/
  start : ℕ
  /-- `*endp`, the state where the machine ends. -/
  stop : ℕ

/-- A rule of the machine: where it starts and ends, and what it has been written with. -/
structure Rule where
  /-- The start state of the rule. -/
  start : ℕ
  /-- The end state of the rule, which accepts. -/
  stop : ℕ
  /-- The address of the accept string. -/
  accept : ℕ
  /-- The anchor of the rule, from `^` and `$`. -/
  anchor : ℕ
deriving DecidableEq

/-- `first_in_cat`: may the token begin another factor of a `cat_expr`. -/
def firstInCat : Token → Except Fault Bool
  | .closeParen | .atEol | .or | .eos => .ok false
  | .closrue | .plusClose | .optional => .error (.parseErr .close)
  | .cclEnd => .error (.parseErr .bracket)
  | .atBol => .error (.parseErr .bol)
  | _ => .ok true

section Parser

variable {ι : Type} (L : Lexer ι) (unix : Bool)

/-- `advance`, called in the middle of the construction. -/
def Parse.advance (P : Parse ι) : Except Fault (Parse ι) := do
  let lex ← L.advance P.lex
  .ok { P with lex := lex }

/-- The loop of `dodash`, which adds the characters of a class up to the closing bracket. -/
def dodashLoop : ℕ → ℤ → CharClass → ι → Except Fault (CharClass × ι)
  | 0, _, _, _ => .error .fuel
  | n + 1, first, set, s =>
    if L.tok s = .eos ∨ L.tok s = .cclEnd then .ok (set, s)
    else if L.tok s ≠ .dash then do
      let s' ← L.advance s
      dodashLoop n (L.lexeme s) (set.add (L.lexeme s)) s'
    else do
      let s ← L.advance s
      if L.tok s = .cclEnd then .error (.warning .enddash)
      else
        let s' ← L.advance s
        dodashLoop n (max first (L.lexeme s + 1)) (set.addRange first (L.lexeme s)) s'

/-- `dodash`.  A class does not start with a dash, so the first character is read before a range. -/
def dodash (n : ℕ) (set : CharClass) (s : ι) : Except Fault (CharClass × ι) :=
  if L.tok s = .dash then .error (.warning .startdash) else dodashLoop L n 0 set s

/-- The end-of-line characters of the system, complemented: what a dot stands for. -/
def notNewline : CharClass :=
  ⟨if unix then {10} else {10, 13}, true⟩

/-- The character class of `term`: `.` or a class in brackets, up to the closing bracket. -/
def charClass (n : ℕ) (s : ι) : Except Fault (CharClass × ι) :=
  if L.tok s = .any then .ok (notNewline unix, s)
  else do
    let s ← L.advance s
    if L.tok s = .atBol then
      let s ← L.advance s
      if L.tok s ≠ .cclEnd then dodash L n (notNewline unix) s
      else .ok ((notNewline unix).addRange 0 32, s)
    else if L.tok s ≠ .cclEnd then dodash L n ⟨∅, false⟩ s
    else .ok (CharClass.addRange ⟨∅, false⟩ 0 32, s)

/-- The part of `term` for a character or a class: two states. -/
def termChar (n : ℕ) (P : Parse ι) : Except Fault (Frag × Parse ι) := do
  let (start, m) ← new P.nfa
  let (stop, m) ← new m
  let m := m.modify start fun p => { p with next := some stop }
  if L.tok P.lex ≠ .any ∧ L.tok P.lex ≠ .cclStart then
    let m := m.modify start fun p => { p with edge := L.lexeme P.lex }
    let lex ← L.advance P.lex
    .ok (⟨start, stop⟩, ⟨lex, m⟩)
  else
    let (set, lex) ← charClass L unix n P.lex
    let m := m.modify start fun p => { p with edge := ccl, bitset := set }
    let lex ← L.advance lex
    .ok (⟨start, stop⟩, ⟨lex, m⟩)

variable (sub : Parse ι → Except Fault (Frag × Parse ι))

/-- `term`, with the parser of the expression in parentheses as an argument. -/
def term (n : ℕ) (P : Parse ι) : Except Fault (Frag × Parse ι) :=
  if L.tok P.lex = .openParen then do
    let P ← P.advance L
    let (f, P) ← sub P
    if L.tok P.lex = .closeParen then
      let P ← P.advance L
      .ok (f, P)
    else .error (.parseErr .paren)
  else termChar L unix n P

/-- The states that `factor` puts around a term with a closure. -/
def closeFrag (t : Token) (f : Frag) (m : States) : Except Fault (Frag × States) := do
  let (start, m) ← new m
  let (stop, m) ← new m
  let m := m.modify start fun p => { p with next := some f.start }
  let m := m.modify f.stop fun p => { p with next := some stop }
  let m := m.modify start fun p =>
    if t = .closrue ∨ t = .optional then { p with next2 := some stop } else p
  let m := m.modify f.stop fun p =>
    if t = .closrue ∨ t = .plusClose then { p with next2 := some f.start } else p
  .ok (⟨start, stop⟩, m)

/-- `factor`: a term, and a closure behind it. -/
def factor (n : ℕ) (P : Parse ι) : Except Fault (Frag × Parse ι) := do
  let (f, P) ← term L unix sub n P
  if L.tok P.lex = .closrue ∨ L.tok P.lex = .plusClose ∨ L.tok P.lex = .optional then
    let (f, m) ← closeFrag (L.tok P.lex) f P.nfa
    let P ← Parse.advance L ⟨P.lex, m⟩
    .ok (f, P)
  else .ok (f, P)

/-- The concatenation of two pieces: copy the start state of the second one and discard it. -/
def joinFrag (f g : Frag) (m : States) : Except Fault (Frag × States) := do
  let m := m.modify f.stop fun _ => m.node g.start
  let m ← discard g.start m
  .ok (⟨f.start, g.stop⟩, m)

/-- The loop of `cat_expr`, which appends factors as long as one can start. -/
def catLoop : ℕ → Frag → Parse ι → Except Fault (Frag × Parse ι)
  | 0, _, _ => .error .fuel
  | n + 1, f, P => do
    let more ← firstInCat (L.tok P.lex)
    if more then
      let (g, P) ← factor L unix sub n P
      let (f, m) ← joinFrag f g P.nfa
      catLoop n f ⟨P.lex, m⟩
    else .ok (f, P)

/-- `cat_expr`: one or more factors, whose machines are put one behind the other. -/
def catExpr (n : ℕ) (P : Parse ι) : Except Fault (Frag × Parse ι) := do
  let more ← firstInCat (L.tok P.lex)
  if more then
    let (f, P) ← factor L unix sub n P
    catLoop L unix sub n f P
  else .error .unset

/-- The alternative of two pieces, with a new start and a new end state. -/
def orFrag (f g : Frag) (m : States) : Except Fault (Frag × States) := do
  let (start, m) ← new m
  let m := m.modify start fun p => { p with next2 := some g.start, next := some f.start }
  let (stop, m) ← new m
  let m := m.modify f.stop fun p => { p with next := some stop }
  let m := m.modify g.stop fun p => { p with next := some stop }
  .ok (⟨start, stop⟩, m)

/-- The loop of `expr`, which reads alternatives behind bars. -/
def exprLoop : ℕ → Frag → Parse ι → Except Fault (Frag × Parse ι)
  | 0, _, _ => .error .fuel
  | n + 1, f, P =>
    if L.tok P.lex = .or then do
      let P ← P.advance L
      let (g, P) ← catExpr L unix sub n P
      let (f, m) ← orFrag f g P.nfa
      exprLoop n f ⟨P.lex, m⟩
    else .ok (f, P)

/-- `expr` reads one or more alternatives, with `|` between them. -/
def expr : ℕ → Parse ι → Except Fault (Frag × Parse ι)
  | 0, _ => .error .fuel
  | n + 1, P => do
    let (f, P) ← catExpr L unix (expr n) n P
    exprLoop L unix (expr n) n f P

/-- The expression of `rule`, with the state for `^` in front of it. -/
def ruleExpr (n : ℕ) (P : Parse ι) : Except Fault (Frag × ℕ × Parse ι) :=
  if L.tok P.lex = .atBol then do
    let (start, m) ← new P.nfa
    let m := m.modify start fun p => { p with edge := 10 }
    let P ← Parse.advance L ⟨P.lex, m⟩
    let (f, P) ← expr L unix n P
    let m := P.nfa.modify start fun p => { p with next := some f.start }
    .ok (⟨start, f.stop⟩, anchorStart, ⟨P.lex, m⟩)
  else do
    let (f, P) ← expr L unix n P
    .ok (f, 0, P)

/-- The end of the expression of `rule`, with the state for `$`. -/
def ruleEol (f : Frag) (anchor : ℕ) (P : Parse ι) : Except Fault (Frag × ℕ × Parse ι) :=
  if L.tok P.lex = .atEol then do
    let P ← P.advance L
    let (stop, m) ← new P.nfa
    let m := m.modify f.stop fun p =>
      { p with next := some stop, edge := ccl, bitset := ⟨(notNewline unix).map, false⟩ }
    .ok (⟨f.start, stop⟩, anchor ||| anchorEnd, ⟨P.lex, m⟩)
  else .ok (f, anchor, P)

/-- `rule`: an expression with its anchors and its action; the end state is a result as well. -/
def rule (n : ℕ) (P : Parse ι) : Except Fault (Rule × Parse ι) := do
  let (f, anchor, P) ← ruleExpr L unix n P
  let (f, anchor, P) ← ruleEol L unix f anchor P
  let lex := L.skipSpace P.lex
  let (accept, m) ← save (L.input lex) P.nfa
  let m := m.modify f.stop fun p => { p with accept := some accept, anchor := anchor }
  let lex ← L.advance lex
  .ok (⟨f.start, f.stop, accept, anchor⟩, ⟨lex, m⟩)

/-- The loop of `machine`; the state `p` leads to the rule just read. -/
def machineLoop : ℕ → ℕ → List Rule → Parse ι → Except Fault (List Rule × Parse ι)
  | 0, _, _, _ => .error .fuel
  | n + 1, p, rules, P =>
    if L.tok P.lex = .endOfInput then .ok (rules, P)
    else do
      let (q, m) ← new P.nfa
      let m := m.modify p fun s => { s with next2 := some q }
      let (r, P) ← rule L unix n ⟨P.lex, m⟩
      let m := P.nfa.modify q fun s => { s with next := some r.start }
      machineLoop n q (rules ++ [r]) ⟨P.lex, m⟩

/-- `machine`: the start state, and the rules in the order of the input. -/
def machine (n : ℕ) (P : Parse ι) : Except Fault (ℕ × List Rule × Parse ι) := do
  let (start, m) ← new P.nfa
  let (r, P) ← rule L unix n ⟨P.lex, m⟩
  let m := P.nfa.modify start fun s => { s with next := some r.start }
  let (rules, P) ← machineLoop L unix n start [r] ⟨P.lex, m⟩
  .ok (start, rules, P)

/-- `thompson`: the start state, the rules and the states, for the input that starts at `s`. -/
def thompson (n : ℕ) (s : ι) : Except Fault (ℕ × List Rule × States) := do
  let lex ← L.advance s
  let (start, rules, P) ← machine L unix n ⟨lex, .init⟩
  .ok (start, rules, P.nfa)

end Parser

end Lex
