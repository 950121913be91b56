import Cgkits.Parser.Follow
import Mathlib.Logic.Function.Basic

/-!
# Reading a specification (`acts.c`, `parser.lma`)

A specification is a list of directives and a list of rules.  The parser generated from `parser.lma`
calls the functions of `acts.c` in the order of the text, and these build the symbol table:
`makeTerm` and `newNonterm` make its entries, `newRhs` and `addToRhs` the productions.  A symbol is
known by its `val`, as in `Grammar`, and the table is the list of its entries, the newest in front,
which is the order in which a bucket of the hash table is searched.

The names of entries are cut off after `nameMax` characters and are looked up with the whole name,
so that a name that is longer is never found again.

`accepted_grammar` says that the table of an accepted specification with a rule is a `Grammar`.
`startState_eq_goalSymbol_iff` says when the fixed start state of `code_header` is its goal symbol.
-/

namespace Parser

/-! ## Specifications -/

/-- The text of a token, as a list of characters. -/
abbrev Lexeme : Type := List Char

/-- An element of the list behind `%type` or `%term`: a name or a field. -/
inductive FieldName
  /-- A `NAME` with its text. -/
  | name (text : Lexeme)
  /-- A `FIELD` with its text. -/
  | field (text : Lexeme)
deriving DecidableEq

/-- A directive in the first part of a specification (`defs`). -/
inductive Directive
  /-- `SYNCH snames`: the synchronization tokens. -/
  | synch (snames : List Lexeme)
  /-- `PERCENT_UNION ACTION`: the union of the values. -/
  | percentUnion
  /-- `TYPE fnames`: nonterminals with a field. -/
  | type (fnames : List FieldName)
  /-- `TERM_SPEC tnames`: terminals, and their field. -/
  | termSpec (tnames : List FieldName)
  /-- `LEFT pnames`, `RIGHT pnames` or `NONASSOC pnames`. -/
  | level (pnames : List FieldName)
  /-- `CODE_BLOCK`: code that is copied. -/
  | codeBlock
  /-- `START opt_names`: the goal symbol, which is not supported. -/
  | start
deriving DecidableEq

/-- A right-hand side of a rule, as a list of its elements (`rhs`). -/
inductive Rhs
  /-- The right-hand side has come to its end. -/
  | nil
  /-- `NAME rhs` or `FIELD rhs`. -/
  | name (object : Lexeme) (rest : Rhs)
  /-- `ACTION rhs`: an action in front of the rest. -/
  | action (object : Lexeme) (rest : Rhs)
  /-- `PREC NAME rhs`: a precedence in front of the rest. -/
  | prec (text : Lexeme) (rest : Rhs)
  /-- `START_OPT rhs END_OPT rhs`, where the `END_OPT` is `]*` or `]`. -/
  | opt (body : Rhs) (star : Bool) (rest : Rhs)
deriving DecidableEq

/-- A rule (`rule`): the left-hand side and its right-hand sides, of which there is at least one. -/
structure Rule where
  /-- The name of the left-hand side. -/
  lhs : Lexeme
  /-- The first right-hand side. -/
  rhs : Rhs
  /-- The right-hand sides behind each `OR`. -/
  alternatives : List Rhs
deriving DecidableEq

/-- A specification that llama reads: its directives and its rules (`spec`). -/
structure Spec where
  /-- The directives, in the order of the text. -/
  defs : List Directive
  /-- The rules, in the order of the text. -/
  rules : List Rule
deriving DecidableEq

/-! ## The symbol table -/

/-- The size of the array for the name of a symbol. -/
def nameMax : ℕ := 255

/-- The number of slots of the stack for the left-hand sides. -/
def ssize : ℕ := 8

/-- A symbol (`SYMBOL_S`); its productions are kept in `Acts.prods`. -/
structure Entry where
  /-- The name under which the symbol is found. -/
  name : Lexeme
  /-- Numeric value of the symbol. -/
  val : ℕ
  /-- Symbol used on a right-hand side (the line number is not 0). -/
  used : Bool
  /-- Symbol defined (the line number is not 0). -/
  set : Bool
deriving DecidableEq

/-- A nonfatal error, which is counted and reported. -/
inductive ActsError
  /-- Token names must be legitimate C identifiers. -/
  | identifier
  /-- Symbol on left-hand side must be nonterminal. -/
  | notNonterm
  /-- Illegal left recursion in productions. -/
  | leftRecursion
  /-- `%synch`: undeclared symbol. -/
  | synchUndeclared (name : Lexeme)
  /-- `%synch`: not a terminal symbol. -/
  | synchNotTerm (name : Lexeme)
  /-- `%left`, `%right` or `%nonassoc` not recognized. -/
  | level
  /-- `%prec` is not recognized, with the name behind it. -/
  | prec (name : Lexeme)
  /-- `%union` is not supported. -/
  | percentUnion
  /-- `<name>` is not supported. -/
  | field
  /-- `%start` is not supported. -/
  | start
deriving DecidableEq

/-- How the program ends before the specification has been read. -/
inductive ActsFault
  /-- Too many terminal symbols. -/
  | terms
  /-- Too many nonterminal symbols. -/
  | nonterms
  /-- There are too many productions. -/
  | prods
  /-- Right-hand side too long. -/
  | rhs
  /-- A null pointer, or a stack pointer below the stack. -/
  | crash
deriving DecidableEq

/-- An element of the stack (`CUR_SYM_S`): the rule that is being read. -/
structure CurSym where
  /-- The current left-hand side. -/
  lhs : Option ℕ
  /-- The number of the current production. -/
  rhs : Option ℕ
deriving DecidableEq

/-- The variables of `acts.c`, with the errors that have been counted. -/
structure Acts where
  /-- `g_symtab`, the newest symbol first. -/
  symtab : List Entry
  /-- `g_currterm`, the number of the last terminal. -/
  currterm : ℕ
  /-- `g_currnonterm`, the number of the last nonterminal. -/
  currnonterm : ℕ
  /-- `g_curract`, the number of the last action. -/
  curract : ℕ
  /-- `g_num_productons`, the number of productions made. -/
  numProductons : ℕ
  /-- All productions, the newest in front. -/
  prods : List Production
  /-- `g_goal_symbol`, once there is one. -/
  goalSymbol : Option ℕ
  /-- If true, the next nonterminal is the goal symbol. -/
  goalSymbolIsNext : Bool
  /-- The slots of the stack, by their numbers. -/
  stack : ℕ → CurSym
  /-- The slot that `_sp` points at. -/
  sp : ℕ
  /-- The number of the next option. -/
  num : ℕ
  /-- `g_synch`, the synchronization tokens. -/
  synch : List ℕ
  /-- The nonfatal errors reported. -/
  errors : List ActsError

/-- `init_acts`, with the initial values of the variables. -/
def initActs : Acts where
  symtab := []
  currterm := minTerm - 1
  currnonterm := minNonterm - 1
  curract := minAct - 1
  numProductons := 0
  prods := []
  goalSymbol := none
  goalSymbolIsNext := false
  stack _ := ⟨none, none⟩
  sp := ssize - 1
  num := 0
  synch := []
  errors := []

/-- `c_identifier`: letters, digits and underscores, with no digit in front. -/
def cIdentifier (name : Lexeme) : Bool :=
  (name.head?.all fun c => ! c.isDigit) && name.all fun c => c.isAlphanum || c == '_'

namespace Acts

/-- `hash_find_sym`: the last symbol that was made with the name. -/
def find (st : Acts) (name : Lexeme) : Option Entry := st.symtab.find? fun s => s.name = name

/-- `lerror` for an error that is not fatal, which is counted. -/
def lerror (st : Acts) (e : ActsError) : Acts := { st with errors := e :: st.errors }

/-- A new terminal with the next number, `p->val = ++g_currterm`. -/
def addTerm (st : Acts) (name : Lexeme) : Acts :=
  { st with
    symtab := ⟨name.take nameMax, st.currterm + 1, false, true⟩ :: st.symtab,
    currterm := st.currterm + 1 }

/-- A new nonterminal with the next number, `p->val = ++g_currnonterm`. -/
def addNonterm (st : Acts) (name : Lexeme) : Acts :=
  { st with symtab := ⟨name.take nameMax, st.currnonterm + 1, false, false⟩ :: st.symtab,
            currnonterm := st.currnonterm + 1 }

/-- A new action with the next number, `p->val = ++g_curract`. -/
def addAct (st : Acts) (name : Lexeme) : Acts :=
  { st with
    symtab := ⟨name.take nameMax, st.curract + 1, false, false⟩ :: st.symtab,
    curract := st.curract + 1 }

/-- A new production without elements, `p->num = g_num_productons++`. -/
def addProduction (st : Acts) (lhs : ℕ) : Acts :=
  { st with
    prods := ⟨st.numProductons, lhs, [], 0⟩ :: st.prods, numProductons := st.numProductons + 1 }

/-- The slot on top of the stack is overwritten. -/
def setTop (st : Acts) (c : CurSym) : Acts := { st with stack := Function.update st.stack st.sp c }

/-- The entry with the given value is marked as used. -/
def setUsed (st : Acts) (p : ℕ) : Acts :=
  { st with symtab := st.symtab.map fun s => if s.val = p then { s with used := true } else s }

/-- The entry with the given value is marked as defined. -/
def setSet (st : Acts) (p : ℕ) : Acts :=
  { st with symtab := st.symtab.map fun s => if s.val = p then { s with set := true } else s }

end Acts

open Acts

/-- `make_term`: make a terminal, unless the name has a symbol or is no identifier. -/
def makeTerm (name : Lexeme) (st : Acts) : Except ActsFault Acts :=
  if ! cIdentifier name then .ok (st.lerror .identifier)
  else if (st.find name).isSome then .ok st
  else if maxTerm ≤ st.currterm then .error .terms
  else .ok (st.addTerm name)

/-- The first part of `new_nonterm`: the nonterminal is found or made. -/
def getNonterm (name : Lexeme) (st : Acts) : Except ActsFault (Acts × Option ℕ) :=
  match st.find name with
  | some p => if IsNonterm p.val then .ok (st, some p.val) else .ok (st.lerror .notNonterm, none)
  | none =>
    if maxNonterm ≤ st.currnonterm then .error .nonterms
    else .ok (st.addNonterm name, some (st.currnonterm + 1))

/-- The nonterminal is the goal symbol if this is the next one. -/
def noteGoal (p : ℕ) (st : Acts) : Acts :=
  if st.goalSymbolIsNext then { st with goalSymbol := some p, goalSymbolIsNext := false } else st

/-- The second part of `new_nonterm`: the nonterminal may be the goal symbol, and may be a left-hand
side. -/
def noteNonterm (p : ℕ) (isLhs : Bool) (st : Acts) : Acts :=
  if isLhs then ((noteGoal p st).setTop ⟨some p, none⟩).setSet p else noteGoal p st

/-- `new_nonterm`: find or make the nonterminal with the name, and note it as the current left-hand
side. -/
def newNonterm (name : Lexeme) (isLhs : Bool) (st : Acts) : Except ActsFault (Acts × Option ℕ) := do
  let r ← getNonterm name st
  match r.2 with
  | none => return r
  | some p => return (noteNonterm p isLhs r.1, some p)

/-- `new_rhs`: start a production for the current left-hand side. -/
def newRhs (st : Acts) : Except ActsFault Acts :=
  match (st.stack st.sp).lhs with
  | none => .error .crash
  | some lhs =>
    if maxProd ≤ st.numProductons then .error .prods
    else .ok ((st.addProduction lhs).setTop ⟨some lhs, some st.numProductons⟩)

/-- The name of an action, `{DDD}`, which is made of its number. -/
def actName (n : ℕ) : Lexeme := '{' :: (Nat.toDigits 10 n ++ ['}'])

/-- The first part of `add_to_rhs`: the symbol is found or made. -/
def getObject (object : Lexeme) (isAnAction : Bool) (st : Acts) :
    Except ActsFault (Acts × Option ℕ) :=
  match st.find object with
  | some p => .ok (st, some p.val)
  | none =>
    if isAnAction then .ok (st.addAct (actName (st.curract + 1 - minAct)), some (st.curract + 1))
    else newNonterm object false st

/-- The second part of `add_to_rhs`: the symbol is added to the current production. -/
def appendRhs (p : ℕ) (st : Acts) : Except ActsFault Acts :=
  match st.prods.find? fun prod => some prod.num = (st.stack st.sp).rhs with
  | none => .error .crash
  | some prod =>
    if maxRhs ≤ prod.rhs.length then .error .rhs
    else
      let st := if prod.rhs = [] ∧ some p = (st.stack st.sp).lhs then st.lerror .leftRecursion else
        st
      .ok { st with prods := st.prods.map fun q =>
        if q.num = prod.num then { q with rhs := q.rhs ++ [p] } else q }

/-- `add_to_rhs`: add a symbol or an action to the current right-hand side. -/
def addToRhs (object : Lexeme) (isAnAction : Bool) (st : Acts) : Except ActsFault Acts := do
  let r ← getObject object isAnAction st
  match r.2 with
  | none => throw .crash
  | some p => appendRhs p (r.1.setUsed p)

/-- `first_sym`: the next left-hand side is the goal symbol. -/
def firstSym (st : Acts) : Acts := { st with goalSymbolIsNext := true }

/-- The name of an option: a blank and at least six digits. -/
def optName (n : ℕ) : Lexeme := ' ' :: (Nat.toDigits 10 n).leftpad 6 '0'

/-- `start_opt`: push a new nonterminal for a group in brackets. -/
def startOpt (st : Acts) : Except ActsFault Acts :=
  if st.sp = 0 then .error .crash
  else do
    let r ← newNonterm (optName st.num) true { st with sp := st.sp - 1, num := st.num + 1 }
    newRhs (← newRhs r.1)

/-- The symbol for the option at the end of its own right-hand side, for a `]*`. -/
def repeatOpt (star : Bool) (name : Lexeme) (st : Acts) : Except ActsFault Acts :=
  if star then addToRhs name false st else .ok st

/-- `end_opt`: close the group, repeat it for a star, and add its nonterminal to the outer
right-hand side. -/
def endOpt (star : Bool) (st : Acts) : Except ActsFault Acts :=
  match st.symtab.find? fun s => some s.val = (st.stack st.sp).lhs with
  | none => .error .crash
  | some lhs => do
    let st ← repeatOpt star lhs.name st
    addToRhs lhs.name false { st with sp := st.sp + 1 }

/-- `add_synch`: make a declared terminal a synchronizing token. -/
def addSynch (name : Lexeme) (st : Acts) : Acts :=
  match st.find name with
  | none => st.lerror (.synchUndeclared name)
  | some p =>
    if IsTerm p.val then { st with synch := p.val :: st.synch } else st.lerror (.synchNotTerm name)

/-! ## The parser -/

/-- `fnames`: an element of the list behind `%type`. -/
def fname (st : Acts) : FieldName → Except ActsFault Acts
  | .name text => return (← newNonterm text false st).1
  | .field _ => .ok (st.lerror .field)

/-- `tnames`: an element of the list behind `%term`. -/
def tname (st : Acts) : FieldName → Except ActsFault Acts
  | .name text => makeTerm text st
  | .field _ => .ok (st.lerror .field)

/-- `pnames`: an element of the list behind a directive for precedences. -/
def pname (st : Acts) : FieldName → Acts
  | .name _ => st
  | .field _ => st.lerror .field

/-- `defs`: what the parser does for one directive. -/
def directive (st : Acts) : Directive → Except ActsFault Acts
  | .synch snames => .ok (snames.foldl (fun st name => addSynch name st) st)
  | .percentUnion => .ok (st.lerror .percentUnion)
  | .type fnames => fnames.foldlM fname st
  | .termSpec tnames => tnames.foldlM tname st
  | .level pnames => .ok (pnames.foldl pname (st.lerror .level))
  | .codeBlock => .ok st
  | .start => .ok (st.lerror .start)

/-- `rhs`: what the parser does for the elements of a right-hand side. -/
def Rhs.read : Rhs → Acts → Except ActsFault Acts
  | .nil, st => .ok st
  | .name object rest, st => do rest.read (← addToRhs object false st)
  | .action object rest, st => do rest.read (← addToRhs object true st)
  | .prec text rest, st => rest.read (st.lerror (.prec text))
  | .opt body star rest, st => do
    let st ← startOpt st
    let st ← body.read st
    let st ← endOpt star st
    rest.read st

/-- `right_sides`: a new production with the elements of one alternative. -/
def rightSide (st : Acts) (r : Rhs) : Except ActsFault Acts := do r.read (← newRhs st)

/-- `rule`: the left-hand side and all alternatives of a rule. -/
def readRule (st : Acts) (r : Rule) : Except ActsFault Acts := do
  let q ← newNonterm r.lhs true st
  (r.rhs :: r.alternatives).foldlM rightSide q.1

/-- `spec`: the directives, and then the rules with the goal symbol in front. -/
def Spec.read (spec : Spec) : Except ActsFault Acts := do
  let st ← spec.defs.foldlM directive initActs
  spec.rules.foldlM readRule (firstSym st)

/-- `problems`: the symbols that are used or declared, but not defined. -/
def problems (st : Acts) : List Entry := st.symtab.filter fun s => ! s.set && ! decide (IsAct s.val)

/-- The specification is accepted without errors, with this symbol table. -/
def Spec.Accepted (spec : Spec) (st : Acts) : Prop :=
  spec.read = .ok st ∧ st.errors = [] ∧ problems st = []

/-- The numbers that `code_header` defines for the parser. -/
structure Header where
  /-- `YY_MINTERM`, the least number of a terminal. -/
  minTerm : ℕ
  /-- `YY_MAXTERM`, the number of the last terminal. -/
  maxTerm : ℕ
  /-- `YY_MINNONTERM`, the least number of a nonterminal. -/
  minNonterm : ℕ
  /-- `YY_MAXNONTERM`, the number of the last nonterminal. -/
  maxNonterm : ℕ
  /-- `YY_START_STATE`, the number of the goal symbol. -/
  startState : ℕ
  /-- `YY_MINACT`, the least number of an action. -/
  minAct : ℕ
deriving DecidableEq

/-- `code_header`, the numbers that it prints for the generated parser. -/
def codeHeader (st : Acts) : Header where
  minTerm := 1
  maxTerm := st.currterm
  minNonterm := Parser.minNonterm
  maxNonterm := st.currnonterm
  startState := Parser.minNonterm
  minAct := Parser.minAct

/-- The name of an element, unless it is a `<name>`. -/
def FieldName.text : FieldName → Option Lexeme
  | .name text => some text
  | .field _ => none

/-- The names behind a `%type`, in the order of the text. -/
def Directive.typeNames : Directive → List Lexeme
  | .type fnames => fnames.filterMap FieldName.text
  | _ => []

/-- The names behind the `%type` directives, in order. -/
def Spec.typeNames (spec : Spec) : List Lexeme := spec.defs.flatMap Directive.typeNames

/-- The first symbol with the name of the first left-hand side is the first nonterminal: there is no
`%type` name, or the first one is stored under this name and no later one that was cut off is. -/
def Spec.StartsFirst (spec : Spec) : Prop :=
  match spec.rules with
  | [] => False
  | r :: _ =>
    match spec.typeNames with
    | [] => True
    | name :: names =>
      name.take nameMax = r.lhs ∧ ∀ x ∈ names, x.take nameMax = r.lhs → x.length ≤ nameMax

/-! ## Runs -/

/-- A computation that goes on and returns has a first part that returns. -/
lemma bind_eq_ok {α β : Type} {x : Except ActsFault α} {f : α → Except ActsFault β} {b : β}
    (h : (x >>= f) = .ok b) : ∃ a, x = .ok a ∧ f a = .ok b := by
  rcases x with e | a
  · cases h
  · exact ⟨a, rfl, h⟩

/-- A relation between states that every operation respects. -/
structure Respected (R : Acts → Acts → Prop) : Prop where
  /-- The relation holds where nothing happens. -/
  refl : ∀ st, R st st
  /-- One operation after another. -/
  trans : ∀ {st st' st''}, R st st' → R st' st'' → R st st''
  /-- The relation holds where an error is reported. -/
  lerror : ∀ st e, R st (st.lerror e)
  /-- The relation holds where a terminal is made. -/
  makeTerm : ∀ {name st st'}, makeTerm name st = .ok st' → R st st'
  /-- The relation holds where a nonterminal is made or found. -/
  newNonterm : ∀ {name isLhs st r}, newNonterm name isLhs st = .ok r → R st r.1
  /-- The relation holds where a production is made. -/
  newRhs : ∀ {st st'}, newRhs st = .ok st' → R st st'
  /-- An element of a production. -/
  addToRhs : ∀ {object isAnAction st st'}, addToRhs object isAnAction st = .ok st' → R st st'
  /-- The stack pointer and the number of the next option. -/
  setSp : ∀ (st : Acts) (sp num : ℕ), R st { st with sp := sp, num := num }
  /-- The set of synchronizing tokens. -/
  setSynch : ∀ (st : Acts) (synch : List ℕ), R st { st with synch := synch }

section Fold

variable {α : Type} {R : Acts → Acts → Prop} (hrefl : ∀ st, R st st)
  (htrans : ∀ {st st' st''}, R st st' → R st' st'' → R st st'')

include hrefl htrans

/-- Operations one after another respect the relation when each of them does. -/
lemma foldlM_rel {f : Acts → α → Except ActsFault Acts} (hf : ∀ st a st', f st a = .ok st' →
    R st st') : ∀ (l : List α) {st st' : Acts}, l.foldlM f st = .ok st' → R st st'
  | [], st, st', h => by
    cases h
    exact hrefl st
  | a :: l, st, st', h => by
    rw [List.foldlM_cons] at h
    obtain ⟨st₁, h₁, h₂⟩ := bind_eq_ok h
    exact htrans (hf st a st₁ h₁) (foldlM_rel hf l h₂)

/-- Operations one after another that cannot fail respect the relation. -/
lemma foldl_rel {f : Acts → α → Acts} (hf : ∀ st a, R st (f st a)) :
    ∀ (l : List α) (st : Acts), R st (l.foldl f st)
  | [], st => hrefl st
  | a :: l, st => htrans (hf st a) (foldl_rel hf l (f st a))

end Fold

namespace Respected

variable {R : Acts → Acts → Prop} (hR : Respected R)

include hR

/-- A synchronizing token respects the relation. -/
lemma addSynch (name : Lexeme) (st : Acts) : R st (addSynch name st) := by
  unfold Parser.addSynch
  split
  · exact hR.lerror st _
  · split
    · exact hR.setSynch st _
    · exact hR.lerror st _

/-- What the parser does for a directive respects the relation. -/
lemma directive {st st' : Acts} {d : Directive} (h : directive st d = .ok st') : R st st' := by
  cases d with
  | synch snames =>
    cases h
    exact foldl_rel hR.refl hR.trans (fun st name => hR.addSynch name st) snames st
  | percentUnion =>
    cases h
    exact hR.lerror st _
  | type fnames =>
    refine foldlM_rel hR.refl hR.trans ?_ fnames h
    rintro st (text | text) st' h
    · obtain ⟨r, hr, h⟩ := bind_eq_ok h
      cases h
      exact hR.newNonterm hr
    · cases h
      exact hR.lerror st _
  | termSpec tnames =>
    refine foldlM_rel hR.refl hR.trans ?_ tnames h
    rintro st (text | text) st' h
    · exact hR.makeTerm h
    · cases h
      exact hR.lerror st _
  | level pnames =>
    cases h
    refine hR.trans (hR.lerror st _) (foldl_rel hR.refl hR.trans ?_ pnames _)
    rintro st (text | text)
    · exact hR.refl st
    · exact hR.lerror st _
  | codeBlock =>
    cases h
    exact hR.refl st
  | start =>
    cases h
    exact hR.lerror st _

/-- The start of an option respects the relation. -/
lemma startOpt {st st' : Acts} (h : startOpt st = .ok st') : R st st' := by
  unfold Parser.startOpt at h
  split at h
  · cases h
  · obtain ⟨r, hr, h⟩ := bind_eq_ok h
    obtain ⟨st₁, h₁, h⟩ := bind_eq_ok h
    exact hR.trans (hR.setSp st _ _)
      (hR.trans (hR.newNonterm hr) (hR.trans (hR.newRhs h₁) (hR.newRhs h)))

/-- The end of an option respects the relation. -/
lemma endOpt {star : Bool} {st st' : Acts} (h : endOpt star st = .ok st') : R st st' := by
  unfold Parser.endOpt at h
  split at h
  · cases h
  · obtain ⟨st₁, h₁, h⟩ := bind_eq_ok h
    refine hR.trans ?_ (hR.trans (hR.setSp st₁ _ _) (hR.addToRhs h))
    unfold repeatOpt at h₁
    split at h₁
    · exact hR.addToRhs h₁
    · cases h₁
      exact hR.refl st

/-- The elements of a right-hand side respect the relation. -/
lemma read {rhs : Rhs} : ∀ {st st' : Acts}, rhs.read st = .ok st' → R st st' := by
  induction rhs with
  | nil =>
    intro st st' h
    cases h
    exact hR.refl st
  | name object rest ih =>
    intro st st' h
    unfold Rhs.read at h
    obtain ⟨st₁, h₁, h⟩ := bind_eq_ok h
    exact hR.trans (hR.addToRhs h₁) (ih h)
  | action object rest ih =>
    intro st st' h
    unfold Rhs.read at h
    obtain ⟨st₁, h₁, h⟩ := bind_eq_ok h
    exact hR.trans (hR.addToRhs h₁) (ih h)
  | prec name rest ih =>
    intro st st' h
    unfold Rhs.read at h
    exact hR.trans (hR.lerror st _) (ih h)
  | opt body star rest ihbody ihrest =>
    intro st st' h
    unfold Rhs.read at h
    obtain ⟨st₁, h₁, h⟩ := bind_eq_ok h
    obtain ⟨st₂, h₂, h⟩ := bind_eq_ok h
    obtain ⟨st₃, h₃, h⟩ := bind_eq_ok h
    exact hR.trans (hR.startOpt h₁) (hR.trans (ihbody h₂) (hR.trans (hR.endOpt h₃) (ihrest h)))

/-- The right-hand sides of a rule respect the relation. -/
lemma rightSides {l : List Rhs} {st st' : Acts} (h : l.foldlM rightSide st = .ok st') :
    R st st' := by
  refine foldlM_rel hR.refl hR.trans ?_ l h
  intro st r st' h
  obtain ⟨st₁, h₁, h⟩ := bind_eq_ok h
  exact hR.trans (hR.newRhs h₁) (hR.read h)

/-- The directives of a specification respect the relation. -/
lemma directives {l : List Directive} {st st' : Acts} (h : l.foldlM Parser.directive st = .ok st') :
    R st st' :=
  foldlM_rel hR.refl hR.trans (fun _ _ _ h => hR.directive h) l h

/-- The rules of a specification respect the relation. -/
lemma readRules {l : List Rule} {st st' : Acts} (h : l.foldlM readRule st = .ok st') :
    R st st' := by
  refine foldlM_rel hR.refl hR.trans ?_ l h
  intro st r st' h
  obtain ⟨q, hq, h⟩ := bind_eq_ok h
  exact hR.trans (hR.newNonterm hq) (hR.rightSides h)

end Respected

/-! ## The goal symbol stays -/

/-- The cases of `new_nonterm`: the name has a nonterminal, has another symbol, or gets a new
nonterminal. -/
lemma newNonterm_cases {name : Lexeme} {isLhs : Bool} {st : Acts} {r : Acts × Option ℕ}
    (h : newNonterm name isLhs st = .ok r) :
    (∃ p, st.find name = some p ∧ IsNonterm p.val ∧ r = (noteNonterm p.val isLhs st, some p.val)) ∨
    (∃ p, st.find name = some p ∧ ¬ IsNonterm p.val ∧ r = (st.lerror .notNonterm, none)) ∨
    (st.find name = none ∧ st.currnonterm < maxNonterm ∧
      r = (noteNonterm (st.currnonterm + 1) isLhs (st.addNonterm name),
      some (st.currnonterm + 1))) := by
  obtain ⟨q, hq, h⟩ := bind_eq_ok h
  unfold getNonterm at hq
  split at hq
  · rename_i p hp
    split at hq
    · rename_i hnon
      cases hq
      cases h
      exact Or.inl ⟨p, hp, hnon, rfl⟩
    · rename_i hnon
      cases hq
      cases h
      exact Or.inr (Or.inl ⟨p, hp, hnon, rfl⟩)
  · rename_i hnone
    split at hq
    · cases hq
    · cases hq
      cases h
      exact Or.inr (Or.inr ⟨hnone, by omega, rfl⟩)

/-- What `new_rhs` needs and does when it returns. -/
lemma newRhs_cases {st st' : Acts} (h : newRhs st = .ok st') :
    ∃ lhs, (st.stack st.sp).lhs = some lhs ∧ st.numProductons < maxProd ∧
      st' = (st.addProduction lhs).setTop ⟨some lhs, some st.numProductons⟩ := by
  unfold newRhs at h
  split at h
  · cases h
  · rename_i lhs hlhs
    split at h
    · cases h
    · cases h
      exact ⟨lhs, hlhs, by omega, rfl⟩

/-- What the cases of the first part of `add_to_rhs` are. -/
lemma getObject_cases {object : Lexeme} {isAnAction : Bool} {st : Acts} {r : Acts × Option ℕ}
    (h : getObject object isAnAction st = .ok r) :
    (∃ p, st.find object = some p ∧ r = (st, some p.val)) ∨
    (∃ name, r = (st.addAct name, some (st.curract + 1))) ∨
    newNonterm object false st = .ok r := by
  unfold getObject at h
  split at h
  · rename_i p hp
    cases h
    exact Or.inl ⟨p, hp, rfl⟩
  · split at h
    · cases h
      exact Or.inr (Or.inl ⟨_, rfl⟩)
    · exact Or.inr (Or.inr h)

/-- What the cases of the second part of `add_to_rhs` are. -/
lemma appendRhs_cases {p : ℕ} {st st' : Acts} (h : appendRhs p st = .ok st') :
    ∃ prod ∈ st.prods, prod.rhs.length < maxRhs ∧
      ∃ errors, (errors = st.errors ∨ ∃ e, errors = e :: st.errors) ∧
        st' = { st with errors := errors, prods := st.prods.map fun q =>
        if q.num = prod.num then { q with rhs := q.rhs ++ [p] } else q } := by
  unfold appendRhs at h
  split at h
  · cases h
  · rename_i prod hprod
    split at h
    · cases h
    · refine ⟨prod, List.mem_of_find?_eq_some hprod, by omega, ?_⟩
      cases h
      split
      · exact ⟨_, Or.inr ⟨_, rfl⟩, rfl⟩
      · exact ⟨_, Or.inl rfl, rfl⟩

/-- The two steps of `add_to_rhs`: find the symbol, and append it to the right-hand side. -/
lemma addToRhs_cases {object : Lexeme} {isAnAction : Bool} {st st' : Acts}
    (h : addToRhs object isAnAction st = .ok st') :
    ∃ st₁ p, getObject object isAnAction st = .ok (st₁, some p) ∧
      appendRhs p (st₁.setUsed p) = .ok st' := by
  obtain ⟨⟨st₁, q⟩, hr, h⟩ := bind_eq_ok h
  rcases q with - | p
  · cases h
  · exact ⟨st₁, p, hr, h⟩

/-- The state is a later one: errors stay, and so does the goal symbol once it is known. -/
structure Later (st st' : Acts) : Prop where
  /-- Without errors in the end there were none before. -/
  errors : st'.errors = [] → st.errors = []
  /-- A goal symbol that has been chosen stays. -/
  goal : st.goalSymbolIsNext = false → st'.goalSymbolIsNext = false ∧ st'.goalSymbol = st.goalSymbol

/-- A state that differs in nothing that matters. -/
lemma Later.of_eq {st st' : Acts} (herr : st'.errors = st.errors)
    (hnext : st'.goalSymbolIsNext = st.goalSymbolIsNext) (hgoal : st'.goalSymbol = st.goalSymbol) :
    Later st st' :=
  ⟨fun h => herr ▸ h, fun h => ⟨hnext.trans h, hgoal⟩⟩

/-- What is later than a later state is later. -/
lemma Later.trans {st st' st'' : Acts} (h : Later st st') (h' : Later st' st'') : Later st st'' :=
  ⟨fun he => h.errors (h'.errors he), fun hn =>
    ⟨(h'.goal (h.goal hn).1).1, (h'.goal (h.goal hn).1).2.trans (h.goal hn).2⟩⟩

/-- Behind an error that is reported the state is later. -/
lemma Later.lerror (st : Acts) (e : ActsError) : Later st (st.lerror e) :=
  ⟨fun h => (List.cons_ne_nil _ _ h).elim, fun h => ⟨h, rfl⟩⟩

/-- When a nonterminal has been noted, the state is later. -/
lemma Later.noteNonterm (p : ℕ) (isLhs : Bool) (st : Acts) : Later st (noteNonterm p isLhs st) := by
  have hgoal : Later st (noteGoal p st) := by
    unfold noteGoal
    split
    · rename_i hnext
      exact ⟨fun h => h, fun h => by simp [h] at hnext⟩
    · exact .of_eq rfl rfl rfl
  unfold Parser.noteNonterm
  split
  · exact hgoal.trans (.of_eq rfl rfl rfl)
  · exact hgoal

/-- Behind `new_nonterm` the state is later. -/
lemma Later.newNonterm {name : Lexeme} {isLhs : Bool} {st : Acts} {r : Acts × Option ℕ}
    (h : newNonterm name isLhs st = .ok r) : Later st r.1 := by
  rcases newNonterm_cases h with ⟨p, -, -, rfl⟩ | ⟨p, -, -, rfl⟩ | ⟨-, -, rfl⟩
  · exact .noteNonterm _ _ _
  · exact .lerror _ _
  · exact (Later.of_eq rfl rfl rfl : Later st (st.addNonterm name)).trans (.noteNonterm _ _ _)

/-- Every operation makes a later state, in which nothing is forgotten. -/
lemma respected_later : Respected Later where
  refl _ := .of_eq rfl rfl rfl
  trans := .trans
  lerror := .lerror
  makeTerm {name st st'} h := by
    unfold makeTerm at h
    split at h
    · cases h
      exact .lerror _ _
    · split at h
      · cases h
        exact .of_eq rfl rfl rfl
      · split at h
        · cases h
        · cases h
          exact .of_eq rfl rfl rfl
  newNonterm := .newNonterm
  newRhs {st st'} h := by
    obtain ⟨lhs, -, -, rfl⟩ := newRhs_cases h
    exact .of_eq rfl rfl rfl
  addToRhs {object isAnAction st st'} h := by
    obtain ⟨st₁, p, hobject, happend⟩ := addToRhs_cases h
    have h₁ : Later st st₁ := by
      rcases getObject_cases hobject with ⟨q, -, hr⟩ | ⟨name, hr⟩ | hnew
      · cases hr
        exact .of_eq rfl rfl rfl
      · cases hr
        exact .of_eq rfl rfl rfl
      · exact .newNonterm hnew
    obtain ⟨prod, -, -, errors, herrors, rfl⟩ := appendRhs_cases happend
    refine h₁.trans ⟨?_, fun hn => ⟨hn, rfl⟩⟩
    intro he
    rcases herrors with rfl | ⟨e, rfl⟩
    · exact he
    · cases he
  setSp _ _ _ := .of_eq rfl rfl rfl
  setSynch _ _ := .of_eq rfl rfl rfl

/-! ## The table is a grammar -/

namespace Acts

/-- The value belongs to a symbol of the table. -/
def IsSymbol (st : Acts) (x : ℕ) : Prop := (minTerm ≤ x ∧ x ≤ st.currterm) ∨
  (minNonterm ≤ x ∧ x ≤ st.currnonterm) ∨ (minAct ≤ x ∧ x ≤ st.curract)

/-- The value belongs to a nonterminal of the table. -/
def IsSymbolNonterm (st : Acts) (x : ℕ) : Prop := minNonterm ≤ x ∧ x ≤ st.currnonterm

/-- The values of all symbols, and of all references to symbols, are inside the ranges of their
kind. -/
structure Inv (st : Acts) : Prop where
  /-- Terminals fit below `maxTerm`. -/
  currterm_le : st.currterm ≤ maxTerm
  /-- Nonterminals fit below `maxNonterm`. -/
  currnonterm_le : st.currnonterm ≤ maxNonterm
  /-- Nonterminals are numbered from `minNonterm`. -/
  le_currnonterm : minNonterm ≤ st.currnonterm + 1
  /-- Actions are numbered from `minAct`. -/
  le_curract : minAct ≤ st.curract + 1
  /-- The entries have values of symbols. -/
  symtab : ∀ s ∈ st.symtab, st.IsSymbol s.val
  /-- The current left-hand sides are nonterminals. -/
  stack : ∀ i, ∀ v ∈ (st.stack i).lhs, st.IsSymbolNonterm v
  /-- The goal symbol is a nonterminal. -/
  goal : ∀ v ∈ st.goalSymbol, st.IsSymbolNonterm v
  /-- No two productions share a number. -/
  nums_nodup : (st.prods.map Production.num).Nodup
  /-- The numbers of the productions have been given out. -/
  num_lt : ∀ p ∈ st.prods, p.num < st.numProductons
  /-- Left-hand sides are nonterminals of the table. -/
  lhs_mem : ∀ p ∈ st.prods, st.IsSymbolNonterm p.lhs
  /-- Right-hand sides consist of symbols of the table. -/
  rhs_mem : ∀ p ∈ st.prods, ∀ x ∈ p.rhs, st.IsSymbol x
  /-- Right-hand sides are not too long. -/
  rhs_length : ∀ p ∈ st.prods, p.rhs.length ≤ maxRhs

variable {st : Acts}

/-- The symbols of a table stay symbols when the counters grow. -/
lemma IsSymbol.mono {st' : Acts} {x : ℕ} (h : st.IsSymbol x) (hterm : st.currterm ≤ st'.currterm)
    (hnon : st.currnonterm ≤ st'.currnonterm) (hact : st.curract ≤ st'.curract) :
    st'.IsSymbol x := by
  unfold IsSymbol at *
  omega

/-- The nonterminals of a table stay nonterminals when their counter grows. -/
lemma IsSymbolNonterm.mono {st' : Acts} {x : ℕ} (h : st.IsSymbolNonterm x)
    (hnon : st.currnonterm ≤ st'.currnonterm) : st'.IsSymbolNonterm x := by
  unfold IsSymbolNonterm at *
  omega

/-- A new entry keeps the invariant, with the counters that it needs. -/
lemma Inv.cons (h : st.Inv) (e : Entry) {currterm currnonterm curract : ℕ}
    (hterm : st.currterm ≤ currterm) (hterm' : currterm ≤ maxTerm)
    (hnon : st.currnonterm ≤ currnonterm) (hnon' : currnonterm ≤ maxNonterm)
    (hact : st.curract ≤ curract)
    (he : Acts.IsSymbol
      { st with currterm := currterm, currnonterm := currnonterm, curract := curract } e.val) :
    Acts.Inv { st with symtab := e :: st.symtab, currterm := currterm,
                       currnonterm := currnonterm, curract := curract } where
  currterm_le := hterm'
  currnonterm_le := hnon'
  le_currnonterm := h.le_currnonterm.trans (by simpa using hnon)
  le_curract := h.le_curract.trans (by simpa using hact)
  symtab s hs := by
    rcases List.mem_cons.mp hs with rfl | hs
    · exact he
    · exact (h.symtab s hs).mono hterm hnon hact
  stack i v hv := (h.stack i v hv).mono hnon
  goal v hv := (h.goal v hv).mono hnon
  nums_nodup := h.nums_nodup
  num_lt := h.num_lt
  lhs_mem p hp := (h.lhs_mem p hp).mono hnon
  rhs_mem p hp x hx := (h.rhs_mem p hp x hx).mono hterm hnon hact
  rhs_length := h.rhs_length

/-- A new terminal keeps the invariant as long as there are numbers left. -/
lemma Inv.addTerm (h : st.Inv) (name : Lexeme) (hlt : st.currterm < maxTerm) :
    (st.addTerm name).Inv :=
  h.cons _ (Nat.le_succ _) hlt le_rfl h.currnonterm_le le_rfl
    (Or.inl ⟨Nat.le_add_left _ _, le_rfl⟩)

/-- A new nonterminal keeps the invariant as long as there are numbers left. -/
lemma Inv.addNonterm (h : st.Inv) (name : Lexeme) (hlt : st.currnonterm < maxNonterm) :
    (st.addNonterm name).Inv :=
  h.cons _ le_rfl h.currterm_le (Nat.le_succ _) hlt le_rfl
    (Or.inr (Or.inl ⟨h.le_currnonterm, le_rfl⟩))

/-- A new action with the next number keeps the invariant. -/
lemma Inv.addAct (h : st.Inv) (name : Lexeme) : (st.addAct name).Inv :=
  h.cons _ le_rfl h.currterm_le le_rfl h.currnonterm_le (Nat.le_succ _)
    (Or.inr (Or.inr ⟨h.le_curract, le_rfl⟩))

/-- Marks on entries keep the invariant, since the values stay. -/
lemma Inv.map (h : st.Inv) {f : Entry → Entry} (hf : ∀ s, (f s).val = s.val) :
    Acts.Inv { st with symtab := st.symtab.map f } :=
  { h with
    symtab := by
      intro s hs
      obtain ⟨s', hs', rfl⟩ := List.mem_map.mp hs
      rw [hf]
      exact h.symtab s' hs' }

/-- Marking a symbol as used keeps the invariant. -/
lemma Inv.setUsed (h : st.Inv) (p : ℕ) : (st.setUsed p).Inv :=
  h.map fun s => by split <;> rfl

/-- Marking a symbol as defined keeps the invariant. -/
lemma Inv.setSet (h : st.Inv) (p : ℕ) : (st.setSet p).Inv :=
  h.map fun s => by split <;> rfl

/-- A new element on the stack keeps the invariant if it belongs to a nonterminal. -/
lemma Inv.setTop (h : st.Inv) {p : ℕ} (hp : st.IsSymbolNonterm p) (rhs : Option ℕ) :
    (st.setTop ⟨some p, rhs⟩).Inv :=
  { h with
    stack := by
      intro i v hv
      by_cases hi : i = st.sp
      · have hstack : (st.setTop ⟨some p, rhs⟩).stack i = ⟨some p, rhs⟩ := by
          simp [Acts.setTop, hi]
        rw [hstack, Option.mem_some_iff] at hv
        exact hv ▸ hp
      · have hstack : (st.setTop ⟨some p, rhs⟩).stack i = st.stack i := by
          simp [Acts.setTop, Function.update_of_ne hi]
        rw [hstack] at hv
        exact h.stack i v hv }

/-- Noting the goal symbol keeps the invariant. -/
lemma Inv.noteGoal (h : st.Inv) {p : ℕ} (hp : st.IsSymbolNonterm p) : (noteGoal p st).Inv := by
  unfold Parser.noteGoal
  split
  · exact { h with goal := fun v hv => (Option.mem_some_iff.mp hv) ▸ hp }
  · exact h

/-- The symbols do not change when the goal symbol is noted. -/
lemma IsSymbol.noteGoal {x : ℕ} (h : st.IsSymbol x) (p : ℕ) : (noteGoal p st).IsSymbol x := by
  unfold Parser.noteGoal
  split <;> exact h

/-- The nonterminals do not change when the goal symbol is noted. -/
lemma IsSymbolNonterm.noteGoal {x : ℕ} (h : st.IsSymbolNonterm x) (p : ℕ) :
    (noteGoal p st).IsSymbolNonterm x := by
  unfold Parser.noteGoal
  split <;> exact h

/-- Noting a nonterminal keeps the invariant. -/
lemma Inv.noteNonterm (h : st.Inv) {p : ℕ} (hp : st.IsSymbolNonterm p) (isLhs : Bool) :
    (noteNonterm p isLhs st).Inv := by
  unfold Parser.noteNonterm
  split
  · exact ((h.noteGoal hp).setTop (hp.noteGoal p) none).setSet p
  · exact h.noteGoal hp

/-- Finding or making a nonterminal keeps the invariant. -/
lemma Inv.newNonterm (h : st.Inv) {name : Lexeme} {isLhs : Bool} {r : Acts × Option ℕ}
    (hr : newNonterm name isLhs st = .ok r) : r.1.Inv := by
  rcases newNonterm_cases hr with ⟨p, hp, hnon, rfl⟩ | ⟨p, -, -, rfl⟩ | ⟨-, hlt, rfl⟩
  · refine h.noteNonterm ?_ isLhs
    have hsym := h.symtab p (List.mem_of_find?_eq_some hp)
    have hle := h.currterm_le
    rw [isNonterm_iff] at hnon
    have hmax : maxTerm = 254 := rfl
    have hact : minAct = 512 := rfl
    rcases hsym with hsym | hsym | hsym
    · omega
    · exact hsym
    · omega
  · exact { h with }
  · exact (h.addNonterm name hlt).noteNonterm ⟨h.le_currnonterm, le_rfl⟩ isLhs

/-- Finding or making a symbol for a right-hand side keeps the invariant and returns a symbol of the
table. -/
lemma Inv.getObject (h : st.Inv) {object : Lexeme} {isAnAction : Bool} {st' : Acts} {p : ℕ}
    (hr : getObject object isAnAction st = .ok (st', some p)) : st'.Inv ∧ st'.IsSymbol p := by
  rcases getObject_cases hr with ⟨q, hq, hr⟩ | ⟨name, hr⟩ | hnew
  · cases hr
    exact ⟨h, h.symtab q (List.mem_of_find?_eq_some hq)⟩
  · cases hr
    exact ⟨h.addAct name, Or.inr (Or.inr ⟨h.le_curract, le_rfl⟩)⟩
  · refine ⟨h.newNonterm hnew, ?_⟩
    rcases newNonterm_cases hnew with ⟨q, hq, -, hr⟩ | ⟨q, -, -, hr⟩ | ⟨-, -, hr⟩
    · cases hr
      exact (h.symtab q (List.mem_of_find?_eq_some hq)).noteGoal _
    · cases hr
    · cases hr
      have hsym : (st.addNonterm object).IsSymbol (st.currnonterm + 1) :=
        Or.inr (Or.inl ⟨h.le_currnonterm, le_rfl⟩)
      exact hsym.noteGoal _

/-- Adding a symbol of the table to a right-hand side keeps the invariant. -/
lemma Inv.appendRhs (h : st.Inv) {p : ℕ} (hp : st.IsSymbol p) {st' : Acts}
    (hr : appendRhs p st = .ok st') : st'.Inv := by
  obtain ⟨prod, hprod, hlen, errors, -, rfl⟩ := appendRhs_cases hr
  have hmem : ∀ {q : Production}, q ∈ (st.prods.map fun q =>
      if q.num = prod.num then { q with rhs := q.rhs ++ [p] } else q) →
      ∃ q₀ ∈ st.prods, q.num = q₀.num ∧ q.lhs = q₀.lhs ∧
        (q.rhs = q₀.rhs ∨ (q.rhs = q₀.rhs ++ [p] ∧ q₀.num = prod.num)) := by
    intro q hq
    obtain ⟨q₀, hq₀, rfl⟩ := List.mem_map.mp hq
    refine ⟨q₀, hq₀, ?_⟩
    split
    · rename_i hnum
      exact ⟨rfl, rfl, Or.inr ⟨rfl, hnum⟩⟩
    · exact ⟨rfl, rfl, Or.inl rfl⟩
  refine { h with nums_nodup := ?_, num_lt := ?_, lhs_mem := ?_, rhs_mem := ?_, rhs_length := ?_ }
  · have hnums :
        (st.prods.map fun q => if q.num = prod.num then { q with rhs := q.rhs ++ [p] } else q).map
        Production.num = st.prods.map Production.num := by
      rw [List.map_map]
      apply List.map_congr_left
      intro q _
      simp only [Function.comp_apply]
      split <;> rfl
    change List.Nodup _
    rw [hnums]
    exact h.nums_nodup
  · intro q hq
    obtain ⟨q₀, hq₀, hnum, -⟩ := hmem hq
    rw [hnum]
    exact h.num_lt q₀ hq₀
  · intro q hq
    obtain ⟨q₀, hq₀, -, hlhs, -⟩ := hmem hq
    rw [hlhs]
    exact h.lhs_mem q₀ hq₀
  · intro q hq x hx
    obtain ⟨q₀, hq₀, -, -, hrhs | ⟨hrhs, -⟩⟩ := hmem hq
    · exact h.rhs_mem q₀ hq₀ x (hrhs ▸ hx)
    · rw [hrhs, List.mem_append, List.mem_singleton] at hx
      rcases hx with hx | rfl
      · exact h.rhs_mem q₀ hq₀ x hx
      · exact hp
  · intro q hq
    obtain ⟨q₀, hq₀, -, -, hrhs | ⟨hrhs, hnum⟩⟩ := hmem hq
    · rw [hrhs]
      exact h.rhs_length q₀ hq₀
    · obtain rfl : q₀ = prod := List.inj_on_of_nodup_map h.nums_nodup hq₀ hprod hnum
      rw [hrhs, List.length_append, List.length_singleton]
      exact hlen

/-- A new production of the current left-hand side keeps the invariant. -/
lemma Inv.newRhs (h : st.Inv) {st' : Acts} (hr : newRhs st = .ok st') : st'.Inv := by
  obtain ⟨lhs, hlhs, -, rfl⟩ := newRhs_cases hr
  have hnon : st.IsSymbolNonterm lhs := h.stack st.sp lhs hlhs
  have hprods : (st.addProduction lhs).Inv := by
    refine { h with nums_nodup := ?_, num_lt := ?_, lhs_mem := ?_, rhs_mem := ?_, rhs_length := ?_ }
    · refine List.nodup_cons.mpr ⟨?_, h.nums_nodup⟩
      intro hmem
      obtain ⟨q, hq, hnum⟩ := List.mem_map.mp hmem
      exact (h.num_lt q hq).ne hnum
    · refine List.forall_mem_cons.mpr ⟨Nat.lt_succ_self _, fun q hq => (h.num_lt q hq).trans
        (Nat.lt_succ_self _)⟩
    · exact List.forall_mem_cons.mpr ⟨hnon, h.lhs_mem⟩
    · exact List.forall_mem_cons.mpr ⟨by simp, h.rhs_mem⟩
    · exact List.forall_mem_cons.mpr ⟨Nat.zero_le _, h.rhs_length⟩
  exact hprods.setTop hnon _

/-- Every operation of `acts.c` keeps the invariant. -/
lemma respected_inv : Respected fun st st' => st.Inv → st'.Inv where
  refl _ h := h
  trans h h' h₀ := h' (h h₀)
  lerror _ _ h := { h with }
  makeTerm {name st st'} hr h := by
    unfold makeTerm at hr
    split at hr
    · cases hr
      exact { h with }
    · split at hr
      · cases hr
        exact h
      · split at hr
        · cases hr
        · cases hr
          exact h.addTerm name (by omega)
  newNonterm hr h := h.newNonterm hr
  newRhs hr h := h.newRhs hr
  addToRhs {object isAnAction st st'} hr h := by
    obtain ⟨st₁, p, hobject, happend⟩ := addToRhs_cases hr
    obtain ⟨h₁, hp⟩ := h.getObject hobject
    exact (h₁.setUsed p).appendRhs hp happend
  setSp _ _ _ h := { h with }
  setSynch _ _ h := { h with }

/-- The table of a specification that has been read, with its goal symbol. -/
def grammar (st : Acts) (h : st.Inv) {goal : ℕ} (hgoal : st.goalSymbol = some goal) : Grammar where
  prods := st.prods
  currterm := st.currterm
  currnonterm := st.currnonterm
  curract := st.curract
  goalSymbol := goal
  currterm_le := h.currterm_le
  currnonterm_le := h.currnonterm_le
  goalSymbol_mem := h.goal goal hgoal
  nums_nodup := h.nums_nodup
  lhs_mem := h.lhs_mem
  rhs_mem := h.rhs_mem
  rhs_length := h.rhs_length

/-- The empty table satisfies the invariant. -/
lemma inv_initActs : initActs.Inv where
  currterm_le := by decide
  currnonterm_le := by decide
  le_currnonterm := by decide
  le_curract := by decide
  symtab := by simp [initActs]
  stack := by simp [initActs]
  goal := by simp [initActs]
  nums_nodup := by simp [initActs]
  num_lt := by simp [initActs]
  lhs_mem := by simp [initActs]
  rhs_mem := by simp [initActs]
  rhs_length := by simp [initActs]

end Acts

section Accepted

variable {spec : Spec} {st : Acts}

/-- A specification that has been read leaves a table with the invariant. -/
lemma Spec.inv_read (h : spec.read = .ok st) : st.Inv := by
  obtain ⟨st₁, hdefs, hrules⟩ := bind_eq_ok h
  have h₁ : st₁.Inv := respected_inv.directives hdefs inv_initActs
  have hfirst : (firstSym st₁).Inv := { h₁ with }
  exact respected_inv.readRules hrules hfirst

/-- The steps that lead to the goal symbol of an accepted specification. -/
lemma Spec.Accepted.steps (h : spec.Accepted st) {r : Rule} {rules : List Rule}
    (hr : spec.rules = r :: rules) : ∃ st₁ goal st₂, spec.defs.foldlM directive initActs = .ok st₁ ∧
    st₁.errors = [] ∧
      newNonterm r.lhs true (firstSym st₁) = .ok (st₂, some goal) ∧ st.goalSymbol = some goal := by
  obtain ⟨hread, herr, -⟩ := h
  obtain ⟨st₁, hdefs, hrules⟩ := bind_eq_ok hread
  rw [hr, List.foldlM_cons] at hrules
  obtain ⟨st₃, hrule, hrules⟩ := bind_eq_ok hrules
  obtain ⟨⟨st₂, p⟩, hnew, hsides⟩ := bind_eq_ok hrule
  have hlater : Later st₂ st :=
    (respected_later.rightSides hsides).trans (respected_later.readRules hrules)
  have herr₂ : st₂.errors = [] := hlater.errors herr
  have herr₁ : st₁.errors = [] := (Later.newNonterm hnew).errors herr₂
  have hgoal : ∀ (q : ℕ) (st' : Acts), st'.goalSymbolIsNext = true →
      (noteNonterm q true st').goalSymbolIsNext = false ∧
      (noteNonterm q true st').goalSymbol = some q := by
    intro q st' hnext
    simp [noteNonterm, noteGoal, hnext, setSet, setTop]
  rcases newNonterm_cases hnew with ⟨q, -, -, heq⟩ | ⟨q, -, -, heq⟩ | ⟨-, -, heq⟩
  · cases heq
    obtain ⟨hnext, hsome⟩ := hgoal q.val (firstSym st₁) rfl
    exact ⟨st₁, q.val, _, hdefs, herr₁, hnew, (hlater.goal hnext).2.trans hsome⟩
  · cases heq
    exact absurd herr₂ (List.cons_ne_nil _ _)
  · cases heq
    obtain ⟨hnext, hsome⟩ := hgoal (st₁.currnonterm + 1) ((firstSym st₁).addNonterm r.lhs) rfl
    exact ⟨st₁, _, _, hdefs, herr₁, hnew, (hlater.goal hnext).2.trans hsome⟩

/-- The table of an accepted specification with a rule is a grammar, and the end of the input is in
the FOLLOW set of its goal symbol. -/
theorem Spec.Accepted.exists_grammar (h : spec.Accepted st) (hrules : spec.rules ≠ []) :
    ∃ G : Grammar, G.prods = st.prods ∧ G.currterm = st.currterm ∧ G.currnonterm = st.currnonterm ∧
      G.curract = st.curract ∧ st.goalSymbol = some G.goalSymbol ∧
      ∀ (w : G.Walk) (F : SetTable), eoi ∈ Grammar.followSets w F G.goalSymbol := by
  obtain ⟨r, rules, hr⟩ := List.exists_cons_of_ne_nil hrules
  obtain ⟨-, goal, -, -, -, -, hgoal⟩ := h.steps hr
  exact ⟨st.grammar (Spec.inv_read h.1) hgoal, rfl, rfl, rfl, rfl, hgoal,
    fun w F => (Grammar.followSets_spec w F).1.goal⟩

end Accepted

/-! ## The start state -/

/-- The nonterminals of the table, the newest in front. -/
def Acts.nonterms (st : Acts) : List Entry := st.symtab.filter fun s => IsNonterm s.val

/-- What `new_nonterm` does to the nonterminals when it is not called for a left-hand side. -/
def declare (tab : List Entry) (name : Lexeme) : List Entry :=
  if (tab.find? fun s => s.name = name).isSome then tab
  else ⟨name.take nameMax, minNonterm + tab.length, false, false⟩ :: tab

/-- The nonterminals have been numbered one after another. -/
def Acts.Counted (st : Acts) : Prop := st.currnonterm + 1 = minNonterm + st.nonterms.length

section Declare

variable {st st' : Acts}

/-- A symbol that is found among all is found among those of its kind. -/
lemma find?_nonterms {name : Lexeme} {p : Entry} (h : st.find name = some p)
    (hp : IsNonterm p.val) : (st.nonterms.find? fun s => s.name = name) = some p := by
  unfold Acts.find at h
  unfold Acts.nonterms
  generalize st.symtab = l at h
  induction l with
  | nil => cases h
  | cons s l ih =>
    by_cases hs : s.name = name
    · rw [List.find?_cons_of_pos (by simpa using hs), Option.some.injEq] at h
      subst h
      rw [List.filter_cons_of_pos (by simpa using hp), List.find?_cons_of_pos (by simpa using hs)]
    · rw [List.find?_cons_of_neg (by simpa using hs)] at h
      rw [List.filter_cons]
      split
      · rw [List.find?_cons_of_neg (by simpa using hs)]
        exact ih h
      · exact ih h

/-- A symbol that is not found among all is not found among those of its kind. -/
lemma find?_nonterms_eq_none {name : Lexeme} (h : st.find name = none) :
    (st.nonterms.find? fun s => s.name = name) = none := by
  unfold Acts.find at h
  rw [List.find?_eq_none] at h ⊢
  intro s hs
  exact h s (List.mem_filter.mp hs).1

/-- `new_nonterm` for a name behind `%type` declares this nonterminal, if it is new. -/
lemma nonterms_newNonterm {name : Lexeme} {r : Acts × Option ℕ}
    (h : newNonterm name false st = .ok r) (herr : r.1.errors = []) (hcount : st.Counted) :
    r.1.nonterms = declare st.nonterms name ∧ r.1.Counted := by
  have hnote : ∀ (p : ℕ) (st' : Acts), (noteNonterm p false st').symtab = st'.symtab ∧
      (noteNonterm p false st').currnonterm = st'.currnonterm := by
    intro p st'
    simp only [noteNonterm, noteGoal, Bool.false_eq_true, if_false]
    split <;> exact ⟨rfl, rfl⟩
  rcases newNonterm_cases h with ⟨p, hp, hnon, rfl⟩ | ⟨p, -, -, rfl⟩ | ⟨hnone, hlt, rfl⟩
  · obtain ⟨hsym, hcurr⟩ := hnote p.val st
    have hsame :
      (noteNonterm p.val false st).nonterms =
      st.nonterms := by rw [Acts.nonterms, hsym, Acts.nonterms]
    refine ⟨?_, ?_⟩
    · rw [hsame, declare, find?_nonterms hp hnon]
      rfl
    · unfold Acts.Counted
      rw [hcurr, hsame]
      exact hcount
  · exact absurd herr (List.cons_ne_nil _ _)
  · obtain ⟨hsym, hcurr⟩ := hnote (st.currnonterm + 1) (st.addNonterm name)
    have hnon : IsNonterm (st.currnonterm + 1) := ⟨by rw [hcount]; exact Nat.le_add_right _ _, hlt⟩
    have hnew : (noteNonterm (st.currnonterm + 1) false (st.addNonterm name)).nonterms =
        ⟨name.take nameMax, minNonterm + st.nonterms.length, false, false⟩ :: st.nonterms := by
      rw [Acts.nonterms, hsym, Acts.addNonterm, List.filter_cons_of_pos (by simpa using hnon),
        hcount]
      rfl
    refine ⟨?_, ?_⟩
    · rw [hnew, declare, find?_nonterms_eq_none hnone]
      rfl
    · unfold Acts.Counted
      rw [hcurr, hnew, List.length_cons]
      exact congrArg (· + 1) hcount

/-- The two states have the same nonterminals, with the same numbers. -/
def SameNonterms (st st' : Acts) : Prop :=
  st'.nonterms = st.nonterms ∧ st'.currnonterm = st.currnonterm

/-- When nothing happens, the nonterminals are the same. -/
lemma SameNonterms.refl (st : Acts) : SameNonterms st st := ⟨rfl, rfl⟩

/-- Two operations that make no nonterminal make none together. -/
lemma SameNonterms.trans {st'' : Acts} (h : SameNonterms st st') (h' : SameNonterms st' st'') :
    SameNonterms st st'' :=
  ⟨h'.1.trans h.1, h'.2.trans h.2⟩

/-- `make_term` makes no nonterminal and renumbers none. -/
lemma sameNonterms_makeTerm {name : Lexeme} (h : makeTerm name st = .ok st') :
    SameNonterms st st' := by
  unfold makeTerm at h
  split at h
  · cases h
    exact ⟨rfl, rfl⟩
  · split at h
    · cases h
      exact ⟨rfl, rfl⟩
    · split at h
      · cases h
      · rename_i hlt
        cases h
        refine ⟨?_, rfl⟩
        have hterm : ¬ IsNonterm (st.currterm + 1) := by
          rw [isNonterm_iff]
          have hmax : maxTerm = 254 := rfl
          omega
        unfold Acts.nonterms Acts.addTerm
        rw [List.filter_cons_of_neg (by simpa using hterm)]

/-- `add_synch` makes no nonterminal and renumbers none. -/
lemma sameNonterms_addSynch (name : Lexeme) (st : Acts) : SameNonterms st (addSynch name st) := by
  unfold addSynch
  split
  · exact ⟨rfl, rfl⟩
  · split <;> exact ⟨rfl, rfl⟩

/-- A directive declares the names behind its `%type`. -/
lemma nonterms_directive {d : Directive} (h : directive st d = .ok st') (herr : st'.errors = [])
    (hcount : st.Counted) : st'.nonterms = d.typeNames.foldl declare st.nonterms ∧ st'.Counted := by
  have hsame : SameNonterms st st' → d.typeNames = [] →
      st'.nonterms = d.typeNames.foldl declare st.nonterms ∧ st'.Counted := by
    intro h hnil
    rw [hnil]
    refine ⟨h.1, ?_⟩
    unfold Acts.Counted
    rw [h.1, h.2]
    exact hcount
  cases d with
  | synch snames =>
    cases h
    exact hsame (foldl_rel SameNonterms.refl SameNonterms.trans
      (fun st name => sameNonterms_addSynch name st) snames st) rfl
  | percentUnion =>
    cases h
    exact hsame ⟨rfl, rfl⟩ rfl
  | type fnames =>
    have hfnames : fnames.foldlM fname st = .ok st' := h
    clear h hsame
    induction fnames generalizing st with
    | nil =>
      cases hfnames
      exact ⟨rfl, hcount⟩
    | cons f fnames ih =>
      rw [List.foldlM_cons] at hfnames
      obtain ⟨st₁, h₁, hrest⟩ := bind_eq_ok hfnames
      have hlater : Later st₁ st' := respected_later.directive (d := .type fnames) hrest
      cases f with
      | name text =>
        obtain ⟨r, hr, heq⟩ := bind_eq_ok h₁
        cases heq
        obtain ⟨hnon, hcount₁⟩ := nonterms_newNonterm hr (hlater.errors herr) hcount
        obtain ⟨hnon', hcount'⟩ := ih hcount₁ hrest
        refine ⟨?_, hcount'⟩
        rw [hnon', hnon]
        rfl
      | field text =>
        cases h₁
        exact absurd (hlater.errors herr) (List.cons_ne_nil _ _)
  | termSpec tnames =>
    refine hsame (foldlM_rel SameNonterms.refl SameNonterms.trans ?_ tnames h) rfl
    rintro st (text | text) st' h
    · exact sameNonterms_makeTerm h
    · cases h
      exact ⟨rfl, rfl⟩
  | level pnames =>
    cases h
    refine hsame (@SameNonterms.trans _ (st.lerror .level) _ ⟨rfl, rfl⟩
      (foldl_rel SameNonterms.refl SameNonterms.trans ?_ pnames _)) rfl
    rintro st (text | text) <;> exact ⟨rfl, rfl⟩
  | codeBlock =>
    cases h
    exact hsame ⟨rfl, rfl⟩ rfl
  | start =>
    cases h
    exact hsame ⟨rfl, rfl⟩ rfl

/-- The directives declare the names behind all `%type`. -/
lemma nonterms_directives :
    ∀ {defs : List Directive} {st : Acts}, defs.foldlM directive st = .ok st' → st'.errors = [] →
      st.Counted → st'.nonterms = (defs.flatMap Directive.typeNames).foldl declare st.nonterms ∧
      st'.Counted
  | [], st, h, herr, hcount => by
    cases h
    exact ⟨rfl, hcount⟩
  | d :: defs, st, h, herr, hcount => by
    rw [List.foldlM_cons] at h
    obtain ⟨st₁, h₁, hrest⟩ := bind_eq_ok h
    obtain ⟨hnon, hcount₁⟩ :=
      nonterms_directive h₁ ((respected_later.directives hrest).errors herr) hcount
    obtain ⟨hnon', hcount'⟩ := nonterms_directives hrest herr hcount₁
    refine ⟨?_, hcount'⟩
    rw [hnon', hnon, List.flatMap_cons, List.foldl_append]

end Declare

/-- The nonterminals after the first one: the first one stays the last of the list, and one of the
others has its name exactly when it was cut off. -/
lemma foldl_declare (first : Entry) (hlen : first.name.length ≤ nameMax)
    (names : List Lexeme) :
    ∃ tab, names.foldl declare [first] = tab ++ [first] ∧
      (∀ e ∈ tab, minNonterm < e.val ∧ e.name.length ≤ nameMax) ∧
      ((∃ e ∈ tab, e.name = first.name) ↔ ∃ x ∈ names, x.take nameMax = first.name ∧
      nameMax < x.length) := by
  induction names using List.reverseRecOn with
  | nil => exact ⟨[], rfl, by simp, by simp⟩
  | append_singleton names x ih =>
    obtain ⟨tab, htab, hall, hiff⟩ := ih
    rw [List.foldl_append, htab, List.foldl_cons, List.foldl_nil, declare]
    have hmem : ∀ e ∈ tab ++ [first], e.name.length ≤ nameMax := by
      intro e he
      rcases List.mem_append.mp he with he | he
      · exact (hall e he).2
      · exact List.mem_singleton.mp he ▸ hlen
    split
    · -- the name is in the table, so it is short
      rename_i hsome
      obtain ⟨e, he⟩ := Option.isSome_iff_exists.mp hsome
      have hname : e.name = x := by simpa using List.find?_some he
      have hshort : x.length ≤ nameMax := hname ▸ hmem e (List.mem_of_find?_eq_some he)
      refine ⟨tab, rfl, hall, hiff.trans ⟨?_, ?_⟩⟩
      · rintro ⟨y, hy, h⟩
        exact ⟨y, List.mem_append_left _ hy, h⟩
      · rintro ⟨y, hy, h⟩
        rcases List.mem_append.mp hy with hy | hy
        · exact ⟨y, hy, h⟩
        · rw [List.mem_singleton] at hy
          exact absurd (hy ▸ h.2) (by omega)
    · rename_i hnone
      have hne : first.name ≠ x := by
        intro heq
        apply hnone
        rw [List.find?_isSome]
        exact ⟨first, by simp, by simpa using heq⟩
      refine ⟨⟨x.take nameMax, minNonterm + (tab ++ [first]).length, false, false⟩ :: tab, rfl,
        ?_, ?_⟩
      · refine List.forall_mem_cons.mpr ⟨⟨?_, ?_⟩, hall⟩
        · rw [List.length_append, List.length_singleton]
          exact Nat.lt_add_of_pos_right (Nat.succ_pos _)
        · exact List.length_take_le _ _
      · have hx : x.take nameMax = first.name → nameMax < x.length := by
          intro heq
          by_contra hle
          rw [List.take_of_length_le (by omega)] at heq
          exact hne heq.symm
        constructor
        · rintro ⟨e, he, heq⟩
          rcases List.mem_cons.mp he with rfl | he
          · exact ⟨x, by simp, heq, hx heq⟩
          · obtain ⟨y, hy, h⟩ := hiff.mp ⟨e, he, heq⟩
            exact ⟨y, List.mem_append_left _ hy, h⟩
        · rintro ⟨y, hy, h⟩
          rcases List.mem_append.mp hy with hy | hy
          · obtain ⟨e, he, heq⟩ := hiff.mpr ⟨y, hy, h⟩
            exact ⟨e, List.mem_cons_of_mem _ he, heq⟩
          · rw [List.mem_singleton] at hy
            subst hy
            exact ⟨_, List.mem_cons_self, h.1⟩

/-- A specification without rules has no goal symbol. -/
lemma Spec.Accepted.goalSymbol_eq_none {spec : Spec} {st : Acts} (h : spec.Accepted st)
    (hrules : spec.rules = []) : st.goalSymbol = none := by
  obtain ⟨st₁, hdefs, hread⟩ := bind_eq_ok h.1
  rw [hrules] at hread
  cases hread
  exact ((respected_later.directives hdefs).goal rfl).2

/-- The number of the first left-hand side, when a nonterminal has its name. -/
lemma val_eq_minNonterm_iff {names : List Lexeme} {lhs : Lexeme} {p : Entry}
    (h : ((names.foldl declare []).find? fun s => s.name = lhs) = some p) :
    p.val = minNonterm ↔ ∃ name rest, names = name :: rest ∧ name.take nameMax = lhs ∧
      ∀ x ∈ rest, x.take nameMax = lhs → x.length ≤ nameMax := by
  rcases names with - | ⟨name, names⟩
  · cases h
  obtain ⟨tab, htab, hall, hiff⟩ := foldl_declare ⟨name.take nameMax, minNonterm, false, false⟩
    (List.length_take_le _ _) names
  have hfirst : declare [] name = [⟨name.take nameMax, minNonterm, false, false⟩] := rfl
  rw [List.foldl_cons, hfirst, htab, List.find?_append] at h
  have hcond : (∃ name' rest, name :: names = name' :: rest ∧ name'.take nameMax = lhs ∧
      ∀ x ∈ rest, x.take nameMax = lhs → x.length ≤ nameMax) ↔
      name.take nameMax = lhs ∧ ¬ ∃ x ∈ names, x.take nameMax = name.take nameMax ∧
      nameMax < x.length := by
    constructor
    · rintro ⟨name', rest, heq, hname, hshort⟩
      cases heq
      refine ⟨hname, ?_⟩
      rintro ⟨x, hx, htake, hlt⟩
      exact absurd (hshort x hx (htake.trans hname)) (by omega)
    · rintro ⟨hname, hshort⟩
      refine ⟨name, names, rfl, hname, fun x hx htake => ?_⟩
      by_contra hle
      exact hshort ⟨x, hx, htake.trans hname.symm, by omega⟩
  rw [hcond, ← hiff]
  rcases hfind : tab.find? fun s => s.name = lhs with - | e
  · -- no later nonterminal has the name, so it is the first one
    rw [hfind, Option.none_or] at h
    have hp := List.mem_of_find?_eq_some h
    rw [List.mem_singleton] at hp
    have hname : p.name = lhs := by simpa using List.find?_some h
    subst hp
    refine iff_of_true rfl ⟨hname, ?_⟩
    rintro ⟨e, he, heq⟩
    rw [List.find?_eq_none] at hfind
    exact hfind e he (by simpa using heq.trans hname)
  · rw [hfind, Option.some_or, Option.some.injEq] at h
    subst h
    have he := List.mem_of_find?_eq_some hfind
    have hname : e.name = lhs := by simpa using List.find?_some hfind
    refine iff_of_false (hall e he).1.ne' ?_
    rintro ⟨htake, hnone⟩
    exact hnone ⟨e, he, hname.trans htake.symm⟩

/-- The nonterminals are numbered from the first `%type` name on. -/
lemma foldl_declare_eq_nil {names : List Lexeme} (h : names.foldl declare [] = []) :
    names = [] := by
  rcases names with - | ⟨name, names⟩
  · rfl
  · obtain ⟨tab, htab, -⟩ := foldl_declare ⟨name.take nameMax, minNonterm, false, false⟩
      (List.length_take_le _ _) names
    have hfirst : declare [] name = [⟨name.take nameMax, minNonterm, false, false⟩] := rfl
    rw [List.foldl_cons, hfirst, htab] at h
    simp at h

/-- The first nonterminal of the table is the goal symbol exactly when the first left-hand side was
the first nonterminal mentioned. -/
theorem startState_eq_goalSymbol_iff {spec : Spec} {st : Acts} (h : spec.Accepted st) :
    st.goalSymbol = some (codeHeader st).startState ↔ spec.StartsFirst := by
  have hstart : (codeHeader st).startState = minNonterm := rfl
  rw [hstart]
  rcases hrules : spec.rules with - | ⟨r, rules⟩
  · rw [h.goalSymbol_eq_none hrules, Spec.StartsFirst, hrules]
    simp
  obtain ⟨st₁, goal, st₂, hdefs, herr, hnew, hgoal⟩ := h.steps hrules
  have hcount₀ : initActs.Counted := rfl
  obtain ⟨hnon, hcount⟩ := nonterms_directives hdefs herr hcount₀
  have hnon' : st₁.nonterms = spec.typeNames.foldl declare [] := hnon
  have hstarts : spec.StartsFirst ↔ spec.typeNames = [] ∨
      ∃ name rest, spec.typeNames = name :: rest ∧ name.take nameMax = r.lhs ∧
        ∀ x ∈ rest, x.take nameMax = r.lhs → x.length ≤ nameMax := by
    unfold Spec.StartsFirst
    rw [hrules]
    rcases spec.typeNames with - | ⟨name, names⟩ <;> simp
  rw [hgoal, Option.some.injEq, hstarts]
  rcases newNonterm_cases hnew with ⟨p, hp, hpnon, heq⟩ | ⟨p, -, -, heq⟩ | ⟨hnone, -, heq⟩
  · -- the left-hand side is the name of a nonterminal
    obtain rfl : goal = p.val := by
      cases heq
      rfl
    have hfind := @find?_nonterms st₁ _ _ hp hpnon
    rw [hnon'] at hfind
    rw [val_eq_minNonterm_iff hfind]
    have hne : spec.typeNames ≠ [] := by
      intro hnil
      rw [hnil] at hfind
      cases hfind
    exact (or_iff_right hne).symm
  · cases heq
  · -- the left-hand side is new
    obtain rfl : goal = st₁.currnonterm + 1 := by
      cases heq
      rfl
    have hfind := @find?_nonterms_eq_none st₁ _ hnone
    rw [hcount]
    constructor
    · intro hzero
      refine Or.inl (foldl_declare_eq_nil ?_)
      rw [← hnon']
      exact List.eq_nil_of_length_eq_zero (by omega)
    · rintro (hnil | ⟨name, rest, heq, hname, -⟩)
      · rw [hnon', hnil]
        rfl
      · exfalso
        obtain ⟨tab, htab, -⟩ := foldl_declare ⟨name.take nameMax, minNonterm, false, false⟩
          (List.length_take_le _ _) rest
        have hfirst : declare [] name = [⟨name.take nameMax, minNonterm, false, false⟩] := rfl
        rw [hnon', heq, List.foldl_cons, hfirst, htab, List.find?_eq_none] at hfind
        exact hfind _ (List.mem_append_right _ (List.mem_singleton_self _)) (by simpa using hname)

/-- The specification `%term X`, `%type s` and `s : X ;`, which declares its goal symbol first. -/
def typedSpec : Spec :=
  ⟨[.termSpec [.name ['X']], .type [.name ['s']]], [⟨['s'], .name ['X'] .nil, []⟩]⟩

/-- For `typedSpec` the start state of the parser is the goal symbol, since this is declared
first. -/
theorem startState_eq_goalSymbol_iff_typedSpec : ∃ st, typedSpec.Accepted st ∧
    (st.goalSymbol = some (codeHeader st).startState ↔ typedSpec.StartsFirst) :=
  ⟨_, ⟨rfl, rfl, rfl⟩, startState_eq_goalSymbol_iff ⟨rfl, rfl, rfl⟩⟩

/-- The specification `%term X`, `%type b`, `s : b ;` and `b : X ;`, which declares another
nonterminal first. -/
def laterSpec : Spec :=
  ⟨[.termSpec [.name ['X']], .type [.name ['b']]],
    [⟨['s'], .name ['b'] .nil, []⟩, ⟨['b'], .name ['X'] .nil, []⟩]⟩

/-- The parser for `laterSpec` starts from `b` and not from the goal symbol `s`. -/
theorem not_startState_laterSpec : ¬ ∀ (spec : Spec) (st : Acts), spec.Accepted st →
    st.goalSymbol = some (codeHeader st).startState := by
  intro h
  have hstart := h laterSpec _ ⟨rfl, rfl, rfl⟩
  exact absurd hstart (by decide)

end Parser
