import Cgkits.Lex.Nfa

/-!
# The lexical analyzer of the rules (`nfa.c`)

`advance` delivers the tokens of a rule. It reads characters through a pointer, which points into
the line or, within a macro, into the text of the macro; the positions to return to are on a stack.
A pointer is modelled with the memory behind it: the characters of the string, the null character
and whatever follows, as far as it is known. Reading beyond is the fault `stray`. The line is a
static buffer, so a position in it is a number: when a new line is read while the stack is not
empty, the positions on the stack are positions of the new line. Characters are numbers, as with an
unsigned `char`.
-/

namespace Lex

/-! ## Characters -/

/-- `isspace` in the C locale: a blank, or one of the control characters from 9 to 13. -/
def isspace (c : ℕ) : Bool := c = 32 ∨ (9 ≤ c ∧ c ≤ 13)

/-- `toupper` for the letters of the alphabet. -/
def toupper (c : ℕ) : ℕ := if 97 ≤ c ∧ c ≤ 122 then c - 32 else c

/-- `isdigit`, for the codes of the decimal digits. -/
def isdigit (c : ℕ) : Bool := 48 ≤ c ∧ c ≤ 57

/-- `_IS_HEXDIGIT`, for digits and for letters up to `f` of both cases. -/
def isHexdigit (c : ℕ) : Bool := isdigit c ∨ (97 ≤ c ∧ c ≤ 102) ∨ (65 ≤ c ∧ c ≤ 70)

/-- `_IS_OCTDIGIT`, for the digits from 0 to 7. -/
def isOctdigit (c : ℕ) : Bool := 48 ≤ c ∧ c ≤ 55

/-- `hex2bin`, the value of a hexadecimal digit. -/
def hex2bin (c : ℕ) : ℕ := if isdigit c then c - 48 else (toupper c - 65 + 10) % 16

/-- `oct2bin`, the value of an octal digit. -/
def oct2bin (c : ℕ) : ℕ := (c - 48) % 8

/-- The string in front of the first null character in memory. -/
def str (mem : List ℕ) : List ℕ := mem.takeWhile (· ≠ 0)

/-- The character at a pointer, which is a stray access behind the end of the memory. -/
def deref : List ℕ → Except Fault ℕ
  | [] => .error .stray
  | c :: _ => .ok c

/-- At most `n` digits: the value, when `v` is that of the digits before, and the number of
digits. -/
def digits (isDigit : ℕ → Bool) (base : ℕ) (bin : ℕ → ℕ) : ℕ → ℕ → List ℕ → Except Fault (ℕ × ℕ)
  | 0, v, _ => .ok (v, 0)
  | _ + 1, _, [] => .error .stray
  | n + 1, v, c :: mem =>
    if isDigit c then do
      let (v, k) ← digits isDigit base bin n (v * base + bin c) mem
      .ok (v, k + 1)
    else .ok (v, 0)

/-- The part of `sys_esc` behind the backslash: the value, and the number of characters that are
passed. -/
def sysEscTail : List ℕ → Except Fault (ℤ × ℕ)
  | [] => .error .stray
  | c :: mem =>
    if c = 0 then .ok (92, 1)
    else if toupper c = 66 then .ok (8, 1)
    else if toupper c = 70 then .ok (12, 1)
    else if toupper c = 78 then .ok (10, 1)
    else if toupper c = 82 then .ok (13, 1)
    else if toupper c = 83 then .ok (32, 1)
    else if toupper c = 84 then .ok (9, 1)
    else if toupper c = 69 then .ok (27, 1)
    else if c = 94 then do
      let c ← deref mem
      .ok (toupper c - 64, 2)
    else if toupper c = 88 then do
      let (v, k) ← digits isHexdigit 16 hex2bin 3 0 mem
      .ok (v, k + 1)
    else if isOctdigit c then do
      let (v, k) ← digits isOctdigit 8 oct2bin 3 0 (c :: mem)
      .ok (v, k)
    else .ok (c, 1)

/-- `sys_esc`: the value, and the number of characters that the pointer passes. -/
def sysEsc : List ℕ → Except Fault (ℤ × ℕ)
  | [] => .error .stray
  | c :: mem =>
    if c ≠ 92 then .ok (c, 1)
    else do
      let (v, k) ← sysEscTail mem
      .ok (v, k + 1)

/-- The elements of `_tok_map`: the token of each character. -/
def tokMapAt : ℕ → Token
  | 36 => .atEol
  | 40 => .openParen
  | 41 => .closeParen
  | 42 => .closrue
  | 43 => .plusClose
  | 45 => .dash
  | 46 => .any
  | 63 => .optional
  | 91 => .cclStart
  | 93 => .cclEnd
  | 94 => .atBol
  | 123 => .openCurly
  | 124 => .or
  | 125 => .closeCurly
  | _ => .l

/-- `_tok_map[lexeme]`; the table has an element for each character from 0 to 126. -/
def tokMap (lexeme : ℤ) : Except Fault Token :=
  if 0 ≤ lexeme ∧ lexeme ≤ 126 then .ok (tokMapAt lexeme.toNat) else .error .stray

/-! ## Macros -/

/-- `MAC_NAME_MAX`, the size of the array for the name of a macro. -/
def macNameMax : ℕ := 34

/-- `MAC_TEXT_MAX`, the size of the array for the text of a macro. -/
def macTextMax : ℕ := 80

/-- `MACRO`: the two arrays of a macro, one behind the other. -/
structure Macro where
  /-- `name`, the name of the macro. -/
  name : List ℕ
  /-- `text`, the text that replaces it. -/
  text : List ℕ
deriving DecidableEq

/-- `strncpy`: the array of `n` characters afterwards. -/
def strncpy (s : List ℕ) (n : ℕ) : List ℕ := (s ++ List.replicate n 0).take n

/-- The loop of `new_macro` that looks for the last white space: the position `i`, whether the
character before it is white space, and the value of `edef`. -/
def edefLoop : List ℕ → ℕ → Bool → Option ℕ → Option ℕ
  | [], _, _, edef => edef
  | c :: def', i, run, edef =>
    if isspace c then edefLoop def' (i + 1) true (if run then edef else some i)
    else edefLoop def' (i + 1) false edef

/-- The name and the text of a macro in the line of its definition. -/
def splitDef (line : List ℕ) : List ℕ × List ℕ :=
  let name := line.takeWhile (! isspace ·)
  let text := ((line.drop name.length).tail).dropWhile isspace
  (name, match edefLoop text 0 false none with
    | none => text
    | some i => text.take i)

/-- `new_macro`: the name and the text of a line of definitions, cut off at the ends of the
arrays. -/
def newMacro (line : List ℕ) : Macro :=
  ⟨strncpy (splitDef line).1 macNameMax, strncpy (splitDef line).2 macTextMax⟩

/-- `hash_find_sym`, in the table of the macros; the last definition comes first. -/
def findMacro (macros : List Macro) (name : List ℕ) : Option Macro :=
  macros.find? fun mac => str (mac.name ++ mac.text) = name

/-! ## The state of the analyzer -/

/-- A pointer to characters: null, into the line, or into the text of a macro. -/
inductive Ptr
  /-- `NULL`, the pointer before a line is read. -/
  | null
  /-- A position in the line, as an index. -/
  | line (pos : ℕ)
  /-- A position in the text of a macro, with the memory from there on. -/
  | macroText (mem : List ℕ)
deriving DecidableEq

/-- The pointer that is `k` characters further on in the same string. -/
def Ptr.skip : Ptr → ℕ → Ptr
  | .null, _ => .null
  | .line pos, k => .line (pos + k)
  | .macroText mem, k => .macroText (mem.drop k)

/-- The variables of the lexical analyzer, with the lines that have not been read. -/
structure Reader where
  /-- `_current_tok`, the token that was read last. -/
  tok : Token
  /-- `_lexeme`, the value of this token. -/
  lexeme : ℤ
  /-- The characters of the line that is being read. -/
  buffer : List ℕ
  /-- The contents that the buffer gets by the next calls of `_input_func`. -/
  lines : List (List ℕ)
  /-- `_input`, the place of the next character. -/
  input : Ptr
  /-- `stack`, the places to return to, top first. -/
  stack : List Ptr
  /-- `inquote`: the text is within quotes. -/
  inquote : Bool
deriving DecidableEq

/-- The memory at a pointer, up to its end; nothing is known behind `NULL`. -/
def Reader.mem (s : Reader) : Ptr → List ℕ
  | .null => []
  | .line pos => s.buffer.drop pos
  | .macroText mem => mem

/-- The text from `_input` to the end of the string that it points into. -/
def Reader.text (s : Reader) : List ℕ := str (s.mem s.input)

/-- The end of the string, or the white space behind the expression. -/
def Reader.atEos (s : Reader) : Reader := { s with tok := .eos, lexeme := 0 }

/-- `while(isspace(*_input)) _input++`: white space is passed over. -/
def Reader.skipSpace (s : Reader) : Reader :=
  { s with input := s.input.skip ((s.mem s.input).takeWhile isspace).length }

/-- The loop of `advance` that reads the next line that is not blank. -/
def Reader.nextLine (s : Reader) : List (List ℕ) → Except Fault Reader
  | [] => .ok { s with tok := .endOfInput, input := .null, lines := [] }
  | buffer :: lines => do
    let blanks := (buffer.takeWhile isspace).length
    let c ← deref (buffer.drop blanks)
    if c = 0 then Reader.nextLine { s with buffer := buffer } lines
    else .ok { s with buffer := buffer, lines := lines, input := .line blanks }

/-- The loop of `advance` that returns from the macros that have been read. -/
def pops (mem : Ptr → List ℕ) : List Ptr → Ptr → Except Fault (Ptr × List Ptr)
  | [], input => do
    let _ ← deref (mem input)
    .ok (input, [])
  | p :: stack, input => do
    let c ← deref (mem input)
    if c = 0 then pops mem stack p else .ok (input, p :: stack)

/-- `get_macro`: the pointer to the text of the macro, and the pointer behind the name in braces. -/
def Reader.getMacro (macros : List Macro) (s : Reader) : Except Fault (Ptr × Ptr) :=
  let def' := str ((s.mem s.input).drop 1)
  let name := def'.takeWhile (· ≠ 125)
  if name = def' then .error (.parseErr .badmac)
  else
    match findMacro macros name with
    | none => .error (.parseErr .nomac)
    | some mac => .ok (.macroText mac.text, s.input.skip (name.length + 2))

/-- The loop of `advance` that opens the macros that start at `_input`. -/
def Reader.openMacros (macros : List Macro) : ℕ → Reader → Except Fault Reader
  | 0, _ => .error .fuel
  | n + 1, s => do
    let c ← deref (s.mem s.input)
    if c ≠ 123 then .ok s
    else
      let (body, next) ← s.getMacro macros
      if ssize ≤ s.stack.length then .error (.parseErr .macdepth)
      else Reader.openMacros macros n { s with input := body, stack := next :: s.stack }

/-- The character at `_input` inside or outside quotes: its value, and the number of characters that
are passed. -/
def charAt (inquote : Bool) (mem : List ℕ) : Except Fault (ℤ × ℕ) :=
  if inquote then do
    let c ← deref mem
    if c = 92 then
      let c' ← deref mem.tail
      if c' = 34 then .ok (34, 2) else .ok (c, 1)
    else .ok (c, 1)
  else sysEsc mem

/-- The token of a character: a literal inside quotes and behind a backslash. -/
def tokenOf (inquote sawEsc : Bool) (lexeme : ℤ) : Except Fault Token :=
  if inquote ∨ sawEsc then .ok .l else tokMap lexeme

/-- The end of `advance`: the lexeme and the token of the next character, or the end of the
expression. -/
def Reader.char (s : Reader) : Except Fault Reader := do
  let c ← deref (s.mem s.input)
  if s.inquote = false ∧ isspace c then .ok s.atEos
  else
    let (lexeme, k) ← charAt s.inquote (s.mem s.input)
    let tok ← tokenOf s.inquote (c = 92) lexeme
    .ok { s with tok := tok, lexeme := lexeme, input := s.input.skip k }

/-- A quote that turns the quotation on or off, and the character behind it. -/
def Reader.quote (s : Reader) : Except Fault Reader := do
  let c ← deref (s.mem s.input)
  if c = 34 then
    let s := { s with inquote := !s.inquote, input := s.input.skip 1 }
    let c ← deref (s.mem s.input)
    if c = 0 then .ok s.atEos else s.char
  else s.char

/-- `advance` within a line: leave the macros that have ended, enter a macro, and read a
character. -/
def Reader.scan (macros : List Macro) (s : Reader) : Except Fault Reader := do
  let (input, stack) ← pops s.mem s.stack s.input
  let s := { s with input := input, stack := stack }
  let c ← deref (s.mem s.input)
  if c = 0 then .ok s.atEos
  else
    let s ← if s.inquote then .ok s else s.openMacros macros (ssize + 2)
    s.quote

/-- `advance`: read the next line behind the end of an expression, and then a character. -/
def Reader.advance (macros : List Macro) (s : Reader) : Except Fault Reader :=
  if s.tok = .eos then
    if s.inquote then .error (.parseErr .newline)
    else do
      let s ← s.nextLine s.lines
      if s.tok = .endOfInput then .ok s else s.scan macros
  else s.scan macros

/-- The lexical analyzer, as the parser sees it. -/
def scanner (macros : List Macro) : Lexer Reader where
  tok := Reader.tok
  lexeme := Reader.lexeme
  input := Reader.text
  skipSpace := Reader.skipSpace
  advance := Reader.advance macros

end Lex
