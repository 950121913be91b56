import Cgkits.Lex.ActionScan
import Cgkits.Lex.Term
import Cgkits.Lib.Outcome
import Cgkits.Parser.Dollar

/-!
# The third part of the input file (`main.c`)

`tail` copies what stands behind the second `%%` to the output, without the carriage returns, and
replaces every `$` and what belongs to it by the text of `do_dollar`.  It reads with `ii_advance`,
and when the buffer is too full it forces a flush.

A reference is read to the first character behind it, which is given back with `ii_pushback`.  A
character is given back as well when there has been none behind the reference, and within a
reference an overflow of the buffer is not noticed: `c` is -1 then, and the reference ends.  A
strict run stops at such an overflow, and otherwise it is the run of the program (`tailRun_agree`).

`tail` always comes to an end: `Copying.tailLoop`.
-/

namespace Parser

open Lex (Buffer InputCall InputFault TermBuffer Tracks maxLexemeLen maxLookahead bufSize)
open Outcome

/-- A byte of the input as the character with its number. -/
def toChar (x : UInt8) : Char := Char.ofNat x.toNat

/-- What stops `tail` before the end of the file. -/
inductive TailFault
  /-- The input system exits with its message. -/
  | input (fault : InputFault)
  /-- `do_dollar` follows the pointer to a production that there is not. -/
  | noProduction
  /-- The text of `do_dollar` is a format with a `%` in it. -/
  | format
  /-- A number that no `int` can hold. -/
  | overflow
  /-- An overflow of the buffer within a reference.  It stops a strict run only, and the program is
  not strict. -/
  | missed
  /-- The fuel of the model has run out. -/
  | starved
deriving DecidableEq, Repr

/-- What `tail` reads besides the input: options, names and the current line. -/
structure TailEnv where
  /-- `fields_active()`: there is a `%union`. -/
  fieldsActive : Bool
  /-- `g_cmdopt.no_lines`: no line directive is printed. -/
  noLines : Bool
  /-- `g_input_file_name`, for the line directive. -/
  inputFileName : Lexeme
  /-- `yytext`, the text behind the last `%%`. -/
  yytext : Lexeme
  /-- `yylineno`, for the line directive. -/
  yylineno : ℤ

/-- The state of `tail`: the input, and the text printed so far. -/
structure TailState where
  /-- The input buffer, with its marks. -/
  inp : Buffer
  /-- The text that has been printed. -/
  out : Lexeme

/-- `do_dollar` follows the pointer to the production. -/
def usesProd (fieldsActive : Bool) (num rhsSize : ℤ) (fname : Lexeme) : Bool :=
  fieldsActive ∧ fname = [] ∧
    (num = dollarDollar ∨ (0 ≤ rhsSize - (if num < 0 then num + 1 else num) ∧ 0 ≤ rhsSize ∧
    0 < num))

namespace TailState

variable (env : TailEnv) (strict : Bool) (s : TailState)

/-- `ii_advance`, the next character of the file. -/
def advance : Except TailFault (ℤ × TailState) :=
  match s.inp.advanceBy .full with
  | .error fault => .error (.input fault)
  | .ok (c, b) => .ok (c, { s with inp := b })

/-- `ii_advance` within a reference, where a strict run stops when the buffer is full. -/
def next : Except TailFault (ℤ × TailState) := do
  let (c, s) ← s.advance
  if strict ∧ c = -1 then .error .missed else .ok (c, s)

/-- `ii_flush(1)` moves the text in the buffer to its front and fills the rest. -/
def flush : Except TailFault TailState :=
  match s.inp.flushBy .full true with
  | .error fault => .error (.input fault)
  | .ok (_, b) => .ok { s with inp := b }

/-- The loop that reads a name, and the last character that has been read. -/
def nameLoop : ℕ → List UInt8 → ℤ → TailState → Except TailFault ((ℤ × List UInt8) × TailState)
  | 0, name, c, s => .ok ((c, name), s)
  | i + 1, name, _, s => do
    let (c, s) ← s.next strict
    if c = 62 then .ok ((c, name), s) else nameLoop i (name ++ [UInt8.ofInt c]) c s

/-- The loop that reads the digits of a number as long as it fits into an `int`. -/
def digitLoop : ℕ → ℤ → ℤ → TailState → Except TailFault (ℤ × TailState)
  | 0, _, _, _ => .error .starved
  | fuel + 1, i, c, s =>
    if 48 ≤ c ∧ c ≤ 57 then
      if i * 10 + (c - 48) > 2 ^ 31 - 1 then .error .overflow
      else do
        let (c', s) ← s.next strict
        digitLoop fuel (i * 10 + (c - 48)) c' s
    else .ok (i, s)

/-- `output(do_dollar(num, -1, lineno, NULL, fname))`. -/
def dollar (num : ℤ) (lineno : ℕ) (fname : Lexeme) : Except TailFault TailState :=
  if usesProd env.fieldsActive num (-1) fname then .error .noProduction
  else
    let text := (doDollar ⟨env.fieldsActive, [], fun _ => []⟩ num (-1) lineno fname []).1
    if '%' ∈ text then .error .format else .ok { s with out := s.out ++ text }

/-- The name of a field, `<name>`, and the character behind it. -/
def field : Except TailFault ((ℤ × Lexeme) × TailState) := do
  let (c, s) ← s.next strict
  if c ≠ 60 then .ok ((c, []), s)
  else do
    let ((c, name), s) ← nameLoop strict 79 [] c s
    let fname := (name.takeWhile (· ≠ 0)).map toChar
    if c = 62 then do
      let (c, s) ← s.next strict
      .ok ((c, fname), s)
    else .ok ((c, fname), s)

/-- The sign of a number, and the character behind it. -/
def sign (c : ℤ) : Except TailFault ((ℤ × ℤ) × TailState) :=
  if c ≠ 45 then .ok ((1, c), s)
  else do
    let (c, s) ← s.next strict
    .ok ((-1, c), s)

/-- The number of a reference, which starts with the character `c`. -/
def number (fuel : ℕ) (c : ℤ) : Except TailFault (ℤ × TailState) := do
  let ((sign, c), s) ← s.sign strict c
  let (i, s) ← digitLoop strict fuel 0 c s
  .ok (i * sign, { s with inp := (s.inp.pushback 1).2 })

/-- A reference behind the `$`: a field, and then a second `$` or a number. -/
def reference (fuel : ℕ) : Except TailFault TailState := do
  let ((c, fname), s) ← field strict { s with inp := s.inp.markStart }
  if c = 36 then s.dollar env dollarDollar 0 fname
  else do
    let (num, s) ← s.number strict fuel c
    s.dollar env num s.inp.lineno.toNat fname

/-- A character of the text is copied, or begins a reference, or is dropped. -/
def copy (fuel : ℕ) (c : ℤ) : Except TailFault TailState :=
  if c = 36 then s.reference env strict fuel
  else if c ≠ 13 then .ok { s with out := s.out ++ [toChar (UInt8.ofInt c)] }
  else .ok s

/-- The loop of `tail` copies characters up to the end of the file. -/
def tailLoop : ℕ → TailState → Except TailFault TailState
  | 0, _ => .error .starved
  | fuel + 1, s => do
    let (c, s) ← s.advance
    if c = 0 then .ok s
    else if c = -1 then do
      let s ← s.flush
      tailLoop fuel s
    else do
      let s ← s.copy env strict fuel c
      tailLoop fuel s

end TailState

/-- What `tail` prints before it copies: the text behind the rules and a line directive. -/
def TailEnv.header (env : TailEnv) : Lexeme :=
  env.yytext ++ if env.noLines then [] else
    "\n#line ".toList ++ decimal env.yylineno ++ " \"".toList ++ env.inputFileName ++ "\"\n".toList

/-- `tail`, as a run that is strict about full buffers or as one that is not. -/
def tailRun (env : TailEnv) (strict : Bool) (fuel : ℕ) (input : TermBuffer) :
    Except TailFault TailState :=
  TailState.tailLoop env strict fuel ⟨input.unterm.buffer, env.header⟩

/-- `tail` copies the third part of the specification. -/
def tail (env : TailEnv) (fuel : ℕ) (input : TermBuffer) : Except TailFault TailState :=
  tailRun env false fuel input

variable {env : TailEnv} {s s' : TailState} {b b' : Buffer} {c : Cursor UInt8} {l n k fuel : ℕ}
  {strict : Bool}

/-! ## Copying -/

/-- A byte as an `int` and back is the byte. -/
lemma ofInt_toNat (x : UInt8) : UInt8.ofInt (x.toNat : ℤ) = x := by
  have hlt : x.toNat < 256 := x.toNat_lt
  have hmod : ((x.toNat : ℤ) % 2 ^ 8).toNat = x.toNat := by omega
  unfold UInt8.ofInt
  rw [hmod, UInt8.ofNat_toNat]

/-- An overflow: there is more of the file, but no room for it. -/
lemma room_of_overflow (hc : Tracks c b) (hover : b.advanceBy .full = .ok (-1, b')) :
    b.eofRead = false ∧ b.endBuf - maxLookahead ≤ b.next ∧ b.leftEdge < maxLexemeLen := by
  have hchar : ∀ {b₁ : Buffer}, (-1, b') = b₁.take → False := by
    intro b₁ htake
    have hx : (-1 : ℤ) = (b₁.startBuf b₁.next).toNat := congrArg Prod.fst htake
    omega
  obtain ⟨hx, -⟩ | ⟨-, -, hover⟩ | ⟨-, -, htake⟩ | ⟨-, -, got, b₁, -, htake⟩ :=
    Buffer.advanceBy_cases hc.called hc.end_le hover
  · cases hx
  · exact hover
  · exact (hchar htake).elim
  · exact (hchar htake).elim

/-- When there is no room the buffer is flushed by force, and then there is no overflow. -/
lemma flush_of_room (hc : Tracks c b) (hd : b.Drained) (heof : b.eofRead = false)
    (hroom : b.leftEdge < maxLexemeLen) : (∃ fault, b.flushBy .full true = .error fault) ∨
    ∃ b₁, b.flushBy .full true = .ok (1, b₁) ∧
      Tracks c.markStart.markPrev b₁ ∧ b₁.Drained ∧ ∀ b₂, b₁.advanceBy .full ≠ .ok (-1, b₂) := by
  have hbuf : bufSize = 3104 := rfl
  have hmax : maxLexemeLen = 1024 := rfl
  have hlook : maxLookahead = 16 := rfl
  have hforce : b.flushBy .full true = b.markStart.markPrev.refillBy .full b.next := by
    have hmore : b.noMoreChars = false := by simp [Buffer.noMoreChars, heof]
    unfold Buffer.flushBy
    simp [hmore, heof, hroom]
  rcases hflush : b.flushBy .full true with fault | ⟨r, b₁⟩
  · exact .inl ⟨fault, rfl⟩
  have hrefill : b.markStart.markPrev.refillBy .full b.next = .ok (r, b₁) :=
    hforce.symm.trans hflush
  obtain ⟨rfl, got, hshift⟩ := Buffer.refillBy_spec (b := b.markStart.markPrev) hc.end_le hrefill
  have hstep : InputCall.Step (.flush .full true, some 1) b b₁ :=
    InputCall.step_flush.mpr ⟨1, rfl, hflush⟩
  have hleft : b.markStart.markPrev.leftEdge = b.next := Nat.min_self _
  have htracks : Tracks c.markStart.markPrev b₁ :=
    hc.markStart.markPrev.shifted (hleft.symm ▸ hshift)
  refine .inr ⟨b₁, rfl, htracks, hc.drained hstep rfl hd, fun b₂ hagain => ?_⟩
  -- the next character is the first one of the buffer
  have hnext : b₁.next = 0 := hshift.next.trans (Nat.sub_self _)
  have hlong := (htracks.overflow hagain).2
  omega

/-- After an overflow the buffer is flushed by force, and then there is none. -/
lemma flush_of_overflow (hc : Tracks c b) (hd : b.Drained)
    (hover : b.advanceBy .full = .ok (-1, b')) : (∃ fault, b.flushBy .full true = .error fault) ∨
    ∃ b₁, b.flushBy .full true = .ok (1, b₁) ∧
      Tracks c.markStart.markPrev b₁ ∧ b₁.Drained ∧ ∀ b₂, b₁.advanceBy .full ≠ .ok (-1, b₂) := by
  obtain ⟨heof, -, hroom⟩ := room_of_overflow hc hover
  exact flush_of_room hc hd heof hroom

/-- A call of `ii_advance` stops, is at the end, finds the buffer full or reads a byte. -/
lemma advance_cases (hc : Tracks c s.inp) (hd : s.inp.Drained) :
    (∃ fault, s.advance = .error (.input fault)) ∨ (c.unread = [] ∧ s.advance = .ok (0, s)) ∨
      ((∃ b, s.inp.advanceBy .full = .ok (-1, b)) ∧ s.advance = .ok (-1, s)) ∨
      ∃ x rest b, c.unread = x :: rest ∧ c.skip.unread = rest ∧ Tracks c.skip b ∧ b.Drained ∧
        s.advance = .ok ((x.toNat : ℤ), { s with inp := b }) := by
  unfold TailState.advance
  rcases hadv : s.inp.advanceBy .full with fault | ⟨i, b⟩
  · exact .inl ⟨fault, rfl⟩
  have hstep : InputCall.Step (.advance .full, some i) s.inp b :=
    InputCall.step_advance.mpr ⟨i, rfl, hadv⟩
  have hdrained : b.Drained := hc.drained hstep rfl hd
  obtain ⟨⟨rfl, hno⟩ | rfl, hsame⟩ | ⟨b₁, hc₁, hlt, -, htake⟩ := hc.advance_cases hadv
  · rw [hsame]
    refine .inr (.inl ⟨?_, rfl⟩)
    simp only [Buffer.noMoreChars, Bool.and_eq_true, decide_eq_true_eq] at hno
    have hfile := hc.file
    rw [hd hno.1, eq_comm, List.drop_eq_nil_iff] at hfile
    have hle := c.next_le
    exact List.drop_eq_nil_of_le (by omega)
  · rw [hsame]
    exact .inr (.inr (.inl ⟨⟨s.inp, rfl⟩, rfl⟩))
  · obtain ⟨rfl, rfl⟩ := Prod.mk.inj htake
    have hlook := hc₁.byte_next hlt
    exact .inr (.inr (.inr ⟨_, _, _, Cursor.unread_skip hlook, rfl, hc₁.take hlt, hdrained, rfl⟩))

/-- When the input system stops, so does the call within a reference. -/
lemma next_error {fault : TailFault} (h : s.advance = .error fault) :
    s.next strict = .error fault := by
  unfold TailState.next
  rw [h]
  rfl

/-- A character that is read within a reference is that of the input system. -/
lemma next_ok {x : ℤ} (h : s.advance = .ok (x, s')) :
    s.next strict = if strict ∧ x = -1 then .error .missed else .ok (x, s') := by
  unfold TailState.next
  rw [h]
  rfl

/-- A turn of the loop of `tail`: it is at the end, or it flushes the buffer, or it copies the next
character. -/
lemma tailLoop_turn (env : TailEnv) (strict : Bool) (hc : Tracks c s.inp) (hd : s.inp.Drained)
    (fuel : ℕ) : (∃ fault, s.tailLoop env strict (fuel + 1) = .error (.input fault)) ∨
      (c.unread = [] ∧ s.tailLoop env strict (fuel + 1) = .ok s) ∨
      ((∃ b, s.inp.advanceBy .full = .ok (-1, b)) ∧
        s.tailLoop env strict (fuel + 1) = s.flush >>= TailState.tailLoop env strict fuel) ∨
      ∃ x rest b, c.unread = x :: rest ∧ c.skip.unread = rest ∧ Tracks c.skip b ∧ b.Drained ∧
        s.tailLoop env strict (fuel + 1) = if x = 0 then .ok { s with inp := b } else
          TailState.copy env strict { s with inp := b } fuel x.toNat >>= TailState.tailLoop env
              strict fuel := by
  unfold TailState.tailLoop
  obtain ⟨fault, hadv⟩ | ⟨hend, hadv⟩ | ⟨hover, hadv⟩ | ⟨x, rest, b, hx, hrest, hc', hd', hadv⟩ :=
    advance_cases hc hd
  · rw [hadv]
    exact .inl ⟨fault, rfl⟩
  · rw [hadv]
    exact .inr (.inl ⟨hend, rfl⟩)
  · rw [hadv]
    exact .inr (.inr (.inl ⟨hover, rfl⟩))
  · rw [hadv]
    refine .inr (.inr (.inr ⟨x, rest, b, hx, hrest, hc', hd', ?_⟩))
    have hzero : (x.toNat : ℤ) = 0 ↔ x = 0 := Lex.toNat_eq_iff x 0
    have hneg : ¬ (x.toNat : ℤ) = -1 := by omega
    simp only [Bind.bind, Except.bind, hzero, if_neg hneg]

/-- Some turns of the loop of `tail`, one when there is no overflow: it is at the end, or it copies
the next character. -/
lemma tailLoop_cases (env : TailEnv) (strict : Bool) (hc : Tracks c s.inp) (hd : s.inp.Drained)
    (fuel : ℕ) : (∃ fault, s.tailLoop env strict (fuel + 2) = .error (.input fault)) ∨
      (c.unread = [] ∧ ∃ b, s.tailLoop env strict (fuel + 2) = .ok { s with inp := b }) ∨
      ∃ x rest c' b j, (c.unread = x :: rest ∧ c'.unread = rest) ∧
        (c'.text = c.text ∧ c.pmark.getD c.smark ≤ c'.pmark.getD c'.smark) ∧ Tracks c' b ∧
        b.Drained ∧ fuel ≤ j ∧ s.tailLoop env strict (fuel + 2) = if x = 0 then
          .ok { s with inp := b } else
          TailState.copy env strict { s with inp := b } j x.toNat >>= TailState.tailLoop env strict
              j := by
  have hskip : ∀ {c : Cursor UInt8} {x : UInt8} {rest : List UInt8}, c.unread = x :: rest →
      c.skip.text = c.text ∧ c.skip.pmark.getD c.skip.smark = c.pmark.getD c.smark := by
    intro c x rest hx
    have hlook : c.look 1 = some x := by
      rw [Cursor.look_eq, hx]
      rfl
    rw [Cursor.skip_eq (Cursor.look_one_eq_some hlook)]
    exact ⟨rfl, rfl⟩
  obtain ⟨fault, hturn⟩ | ⟨hend, hturn⟩ | ⟨⟨b₀, hover⟩, hturn⟩ |
      ⟨x, rest, b, hx, hrest, hc', hd', hturn⟩ :=
    tailLoop_turn env strict hc hd (fuel + 1)
  · exact .inl ⟨fault, hturn⟩
  · exact .inr (.inl ⟨hend, s.inp, hturn⟩)
  · obtain ⟨fault, hflush⟩ | ⟨b₁, hflush, hc₁, hd₁, hno⟩ := flush_of_overflow hc hd hover
    · have hflush' : s.flush = .error (.input fault) := by
        unfold TailState.flush
        rw [hflush]
      rw [hturn, hflush']
      exact .inl ⟨fault, rfl⟩
    · have hflush' : s.flush = .ok { s with inp := b₁ } := by
        unfold TailState.flush
        rw [hflush]
      rw [hturn, hflush']
      change (∃ fault, TailState.tailLoop env strict (fuel + 1) { s with inp := b₁ } = _) ∨ _
      obtain ⟨fault, hturn'⟩ | ⟨hend, hturn'⟩ | ⟨⟨b₂, hover'⟩, -⟩ |
          ⟨x, rest, b, hx, hrest, hc', hd', hturn'⟩ :=
        tailLoop_turn env strict (s := { s with inp := b₁ }) hc₁ hd₁ fuel
      · exact .inl ⟨fault, hturn'⟩
      · exact .inr (.inl ⟨hend, b₁, hturn'⟩)
      · exact absurd hover' (hno b₂)
      · obtain ⟨htext, hleft⟩ := hskip hx
        have hle :
          c.pmark.getD c.smark ≤ c.markStart.markPrev.pmark.getD c.markStart.markPrev.smark :=
            c.pmark_getD_le
        exact .inr (.inr ⟨x, rest, _, b, fuel, ⟨hx, hrest⟩, ⟨htext, hleft ▸ hle⟩, hc', hd',
          Nat.le_refl _, hturn'⟩)
  · obtain ⟨htext, hleft⟩ := hskip hx
    have hle : c.pmark.getD c.smark ≤ c.skip.pmark.getD c.skip.smark := Nat.le_of_eq hleft.symm
    exact .inr (.inr ⟨x, rest, _, b, fuel + 1, ⟨hx, hrest⟩, ⟨htext, hle⟩, hc', hd', Nat.le_succ _,
      hturn⟩)

/-! ## Termination -/

/-- At most `n` characters of the text stand behind the start of the lexeme, at most `k` behind the
next character, and at most `l` behind the start of the previous lexeme. -/
structure Copying (l n k : ℕ) (s : TailState) : Prop where
  /-- The text is that of a cursor, and not too long. -/
  tracks : ∃ c, Tracks c s.inp ∧ c.text.length ≤ c.pmark.getD c.smark + l ∧
    c.text.length ≤ c.smark + n ∧ c.text.length ≤ c.next + k
  /-- At the end of the file nothing is left of it. -/
  drained : s.inp.Drained

/-- The run is not stopped because the fuel has run out, nor by an overflow if a text of `l`
characters is short. -/
structure Halts (l : ℕ) (fault : TailFault) : Prop where
  /-- The fault is not that the fuel has run out. -/
  starved : fault ≠ .starved
  /-- A character is missed only in a lexeme too long. -/
  missed : fault = .missed → maxLexemeLen < l

/-- What holds with `k` characters left holds with more room as well. -/
lemma Copying.mono {k' : ℕ} (h : Copying l n k s) (hk : k ≤ k') : Copying l n k' s := by
  obtain ⟨c, hc, hleft, hsmark, hnext⟩ := h.tracks
  exact ⟨⟨c, hc, hleft, hsmark, by omega⟩, h.drained⟩

/-- The lexeme starts at the next character, and the text left is as long as before. -/
lemma Copying.markStart (h : Copying l n k s) :
    Copying l k k { s with inp := s.inp.markStart } := by
  obtain ⟨c, hc, hleft, -, hnext⟩ := h.tracks
  have hle := c.pmark_getD_markStart
  exact ⟨⟨_, hc.markStart, Nat.le_trans hleft (Nat.add_le_add_right hle l), hnext, hnext⟩,
    h.drained⟩

/-- A pushback does not go behind the start of the lexeme. -/
lemma Copying.pushback (h : Copying l n k s) :
    Copying l n n { s with inp := (s.inp.pushback 1).2 } := by
  obtain ⟨c, hc, hleft, hsmark, -⟩ := h.tracks
  have hstep : InputCall.Step (.pushback 1, some (s.inp.pushback 1).1) s.inp (s.inp.pushback 1).2 :=
    rfl
  refine ⟨⟨_, hc.pushback 1, hleft, hsmark, ?_⟩, hc.drained hstep trivial h.drained⟩
  have hle : c.smark ≤ (c.pushback (1 : ℤ).toNat).next := Nat.le_max_left _ _
  exact Nat.le_trans hsmark (Nat.add_le_add_right hle n)

/-- A call of `ii_advance` within a reference leaves no more text than before. -/
lemma Copying.next (h : Copying l n k s) :
    Post (Halts l) (fun p => Copying l n k p.2 ∧ (48 ≤ p.1 → 0 < k ∧ Copying l n (k - 1) p.2))
    (s.next strict) := by
  obtain ⟨c, hc, hleft, hsmark, hnext⟩ := h.tracks
  obtain ⟨fault, hadv⟩ | ⟨-, hadv⟩ | ⟨⟨b, hover⟩, hadv⟩ | ⟨x, rest, b, hx, hrest, hc', hd', hadv⟩ :=
    advance_cases hc h.drained
  · rw [next_error hadv]
    exact ⟨nofun, nofun⟩
  · rw [next_ok hadv, if_neg fun hover => absurd hover.2 (by decide)]
    exact ⟨h, fun hle => absurd hle (by decide : ¬ (48 : ℤ) ≤ 0)⟩
  · rw [next_ok hadv]
    split_ifs
    · -- the overflow is one of the text that is kept
      refine ⟨nofun, fun _ => ?_⟩
      have hlong := (hc.overflow hover).2
      have hedge := hc.leftEdge_add
      have hend := c.next_le
      omega
    · exact ⟨h, fun hle => absurd hle (by decide : ¬ (48 : ℤ) ≤ -1)⟩
  · rw [next_ok hadv, if_neg (by omega)]
    have hlt : c.next < c.text.length := by
      by_contra hle
      rw [Cursor.unread, List.drop_eq_nil_of_le (Nat.le_of_not_lt hle)] at hx
      cases hx
    rw [Cursor.skip_eq hlt] at hc'
    have htaken : Copying l n (k - 1) { s with inp := b } := by
      refine ⟨⟨_, hc', hleft, hsmark, ?_⟩, hd'⟩
      change c.text.length ≤ c.next + 1 + (k - 1)
      omega
    exact ⟨htaken.mono (Nat.sub_le _ _), fun _ => ⟨by omega, htaken⟩⟩

/-- A name within a reference leaves no more text than before. -/
lemma Copying.nameLoop : ∀ {i : ℕ} {name : List UInt8} {x : ℤ} {s : TailState}, Copying l n k s →
    Post (Halts l) (fun p => Copying l n k p.2) (s.nameLoop strict i name x) := by
  intro i
  induction i with
  | zero =>
    intro name x s h
    exact h
  | succ i ih =>
    intro name x s h
    unfold TailState.nameLoop
    refine h.next.bind fun p hp => ?_
    obtain ⟨y, s⟩ := p
    dsimp only
    split_ifs
    · exact hp.1
    · exact ih hp.1

/-- The digits of a number.  One more turn finds that there are no more. -/
lemma Copying.digitLoop : ∀ {fuel k : ℕ} {i x : ℤ} {s : TailState}, Copying l n k s →
    (if 48 ≤ x then k + 2 ≤ fuel else 1 ≤ fuel) →
      Post (Halts l) (fun p => Copying l n k p.2) (s.digitLoop strict fuel i x) := by
  intro fuel
  induction fuel with
  | zero =>
    intro k i x s h hfuel
    split_ifs at hfuel <;> omega
  | succ fuel ih =>
    intro k i x s h hfuel
    unfold TailState.digitLoop
    by_cases hdigit : 48 ≤ x ∧ x ≤ 57
    · rw [if_pos hdigit.1] at hfuel
      rw [if_pos hdigit]
      split_ifs
      · exact ⟨nofun, nofun⟩
      · refine h.next.bind fun p hp => ?_
        obtain ⟨y, s⟩ := p
        dsimp only
        by_cases hy : 48 ≤ y
        · obtain ⟨hpos, hless⟩ := hp.2 hy
          have hturns : k - 1 + 2 ≤ fuel := by omega
          exact (ih hless (by rwa [if_pos hy])).imp (fun _ he => he) fun _ hs =>
            hs.mono (Nat.sub_le _ _)
        · exact ih hp.1 (by rw [if_neg hy]; omega)
    · rw [if_neg hdigit]
      exact h

/-- The text of a reference is printed, and no text is read for it. -/
lemma Copying.dollar (h : Copying l n k s) (num : ℤ) (lineno : ℕ) (fname : Lexeme) :
    Post (Halts l) (Copying l n k) (s.dollar env num lineno fname) := by
  unfold TailState.dollar
  dsimp only
  split_ifs
  · exact ⟨nofun, nofun⟩
  · exact ⟨nofun, nofun⟩
  · exact ⟨h.tracks, h.drained⟩

/-- The name of a field leaves no more text than before. -/
lemma Copying.field (h : Copying l n k s) : Post (Halts l) (fun p => Copying l n k p.2)
    (s.field strict) := by
  unfold TailState.field
  refine h.next.bind fun p hp => ?_
  obtain ⟨x, s₁⟩ := p
  dsimp only
  split_ifs
  · exact hp.1
  · refine hp.1.nameLoop.bind fun p hp => ?_
    obtain ⟨⟨y, name⟩, s₂⟩ := p
    dsimp only
    split_ifs
    · refine Post.bind (Copying.next hp) fun p hp => ?_
      exact hp.1
    · exact hp

/-- The sign of a number leaves no more text than before. -/
lemma Copying.sign (h : Copying l n k s) (x : ℤ) : Post (Halts l) (fun p => Copying l n k p.2)
    (s.sign strict x) := by
  unfold TailState.sign
  split_ifs
  · exact h
  · refine h.next.bind fun p hp => ?_
    exact hp.1

/-- The number of a reference leaves no more text than before, the last character given back. -/
lemma Copying.number (h : Copying l n k s) (hfuel : k + 2 ≤ fuel) (x : ℤ) :
    Post (Halts l) (fun p => Copying l n n p.2) (s.number strict fuel x) := by
  unfold TailState.number
  refine (h.sign x).bind fun p hp => ?_
  obtain ⟨⟨sign, y⟩, s₁⟩ := p
  have hturns : if 48 ≤ y then k + 2 ≤ fuel else 1 ≤ fuel := by split_ifs <;> omega
  refine (Copying.digitLoop hp hturns).bind fun p hp => ?_
  exact hp.pushback

/-- A reference leaves no more text than the `$` left. -/
lemma Copying.reference (h : Copying l n k s) (hfuel : k + 2 ≤ fuel) :
    Post (Halts l) (Copying l k k) (s.reference env strict fuel) := by
  unfold TailState.reference
  refine h.markStart.field.bind fun p hp => ?_
  obtain ⟨⟨x, fname⟩, s₁⟩ := p
  dsimp only
  split_ifs
  · exact Copying.dollar hp _ _ _
  · refine (Copying.number hp hfuel x).bind fun p hp => ?_
    exact hp.dollar _ _ _

/-- A character that is copied, or begins a reference, leaves no more text than before. -/
lemma Copying.copy (h : Copying l n k s) (hfuel : k + 2 ≤ fuel) (x : ℤ) :
    Post (Halts l) (fun s' => ∃ n', Copying l n' k s') (s.copy env strict fuel x) := by
  unfold TailState.copy
  split_ifs
  · exact (h.reference hfuel).imp (fun _ he => he) fun _ hs => ⟨k, hs⟩
  · exact ⟨n, h.tracks, h.drained⟩
  · exact ⟨n, h⟩

/-- The loop of `tail`, with two turns for each character and two more at the end. -/
lemma Copying.tailLoop : ∀ {k n fuel : ℕ} {s : TailState}, Copying l n k s → 2 * k + 2 ≤ fuel →
    Post (Halts l) (fun _ => True) (s.tailLoop env strict fuel) := by
  intro k
  induction k using Nat.strong_induction_on with
  | _ k ih =>
    intro n fuel s h hfuel
    obtain ⟨c, hc, hleft, -, hnext⟩ := h.tracks
    obtain ⟨fuel, rfl⟩ : ∃ fuel', fuel = fuel' + 2 := ⟨fuel - 2, by omega⟩
    obtain ⟨fault, hturns⟩ | ⟨-, b, hturns⟩ | ⟨x, rest, c', b, j, ⟨hx, hrest⟩, ⟨htext, hle⟩, hc',
        hd', hj, hturns⟩ :=
      tailLoop_cases env strict hc h.drained fuel
    · rw [hturns]
      exact ⟨nofun, nofun⟩
    · rw [hturns]
      exact trivial
    · rw [hturns]
      by_cases hzero : x = 0
      · rw [if_pos hzero]
        exact trivial
      rw [if_neg hzero]
      have hlen : c.text.length - c.next = rest.length + 1 := by
        rw [← List.length_drop]
        exact congrArg List.length hx
      have hlen' : c'.text.length - c'.next = rest.length := by
        rw [← List.length_drop]
        exact congrArg List.length hrest
      have hruns : Copying l c'.text.length (k - 1) { s with inp := b } :=
        ⟨⟨c', hc', by rw [htext]; omega, Nat.le_add_left _ _, by omega⟩, hd'⟩
      refine (hruns.copy (by omega : k - 1 + 2 ≤ j) x.toNat).bind fun s' hs' => ?_
      obtain ⟨n', hs'⟩ := hs'
      exact ih (k - 1) (by omega) hs' (by omega)

/-! ## Strict runs -/

/-- A call of `ii_advance` within a reference agrees with the call of a strict run. -/
lemma next_agree (s : TailState) : Agree .missed (s.next true) (s.next false) := by
  unfold TailState.next
  refine (Agree.refl _ _).bind fun p => ?_
  obtain ⟨x, s⟩ := p
  by_cases hover : x = -1
  · exact .inl (if_pos ⟨rfl, hover⟩)
  · refine .inr ((if_neg fun h => hover h.2).trans ?_)
    exact (if_neg fun h => hover h.2).symm

/-- A name is read as in a strict run, unless this stops. -/
lemma nameLoop_agree : ∀ (i : ℕ) (name : List UInt8) (x : ℤ) (s : TailState),
    Agree .missed (s.nameLoop true i name x) (s.nameLoop false i name x) := by
  intro i
  induction i with
  | zero =>
    intro name x s
    exact .refl _ _
  | succ i ih =>
    intro name x s
    refine (next_agree s).bind fun p => ?_
    obtain ⟨y, s⟩ := p
    dsimp only
    split_ifs
    · exact .refl _ _
    · exact ih _ _ _

/-- The digits of a number are read as in a strict run, unless this stops. -/
lemma digitLoop_agree : ∀ (fuel : ℕ) (i x : ℤ) (s : TailState),
    Agree .missed (s.digitLoop true fuel i x) (s.digitLoop false fuel i x) := by
  intro fuel
  induction fuel with
  | zero =>
    intro i x s
    exact .refl _ _
  | succ fuel ih =>
    intro i x s
    unfold TailState.digitLoop
    split_ifs
    · exact .refl _ _
    · refine (next_agree s).bind fun p => ?_
      exact ih _ _ _
    · exact .refl _ _

/-- The name of a field is read as in a strict run, unless this stops. -/
lemma field_agree (s : TailState) : Agree .missed (s.field true) (s.field false) := by
  unfold TailState.field
  refine (next_agree s).bind fun p => ?_
  obtain ⟨x, s₁⟩ := p
  dsimp only
  split_ifs
  · exact .refl _ _
  · refine (nameLoop_agree _ _ _ _).bind fun p => ?_
    obtain ⟨⟨y, name⟩, s₂⟩ := p
    dsimp only
    split_ifs
    · exact (next_agree s₂).bind fun p => .refl _ _
    · exact .refl _ _

/-- The sign of a number is read as in a strict run, unless this stops. -/
lemma sign_agree (s : TailState) (x : ℤ) : Agree .missed (s.sign true x) (s.sign false x) := by
  unfold TailState.sign
  split_ifs
  · exact .refl _ _
  · exact (next_agree s).bind fun p => .refl _ _

/-- The number of a reference is read as in a strict run, unless this stops. -/
lemma number_agree (s : TailState) (fuel : ℕ) (x : ℤ) : Agree .missed (s.number true fuel x)
    (s.number false fuel x) := by
  unfold TailState.number
  refine (sign_agree s x).bind fun p => ?_
  exact (digitLoop_agree _ _ _ _).bind fun p => .refl _ _

/-- A character is copied as in a strict run, unless this stops. -/
lemma copy_agree (s : TailState) (fuel : ℕ) (x : ℤ) :
    Agree .missed (s.copy env true fuel x) (s.copy env false fuel x) := by
  unfold TailState.copy TailState.reference
  split_ifs
  · refine (field_agree _).bind fun p => ?_
    obtain ⟨⟨y, fname⟩, s₁⟩ := p
    dsimp only
    split_ifs
    · exact .refl _ _
    · exact (number_agree _ _ _).bind fun p => .refl _ _
  · exact .refl _ _
  · exact .refl _ _

/-- The loop of `tail` runs as in a strict run, unless this stops. -/
lemma tailLoop_agree (env : TailEnv) : ∀ (fuel : ℕ) (s : TailState),
    Agree .missed (s.tailLoop env true fuel) (s.tailLoop env false fuel) := by
  intro fuel
  induction fuel with
  | zero =>
    intro s
    exact .refl _ _
  | succ fuel ih =>
    intro s
    unfold TailState.tailLoop
    refine (Agree.refl _ _).bind fun p => ?_
    obtain ⟨x, s₁⟩ := p
    dsimp only
    split_ifs
    · exact .refl _ _
    · exact (Agree.refl _ _).bind fun s₂ => ih s₂
    · exact (copy_agree _ _ _).bind fun s₂ => ih s₂

/-- A strict run stops at an overflow within a reference, or it is the run of the program. -/
lemma tailRun_agree (env : TailEnv) (fuel : ℕ) (input : TermBuffer) :
    Agree .missed (tailRun env true fuel input) (tail env fuel input) := tailLoop_agree _ _ _

end Parser
