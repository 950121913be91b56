import Mathlib.Data.List.Basic
import Mathlib.Logic.Function.Basic
import Mathlib.Data.Int.Notation
import Mathlib.Data.Nat.Notation
import Mathlib.Tactic.Basic

/-!
# The input buffer (`input.c`)

`advance` returns the characters of the input file through a buffer of fixed size.  When the next
character is close to the end of what has been read, `flush` moves the part of the buffer from the
left edge on to the front and `fillbuf` reads behind it, in multiples of `_MAX_LEXEME_LEN`.
Pointers into the buffer are distances from its start, and `file` is what `read` has not delivered
yet.

`Buffer.unread` is the part of the input in front of `_next`: the window of the buffer and the rest
of the file. A flush moves bytes from the file into the window and changes neither marks nor
`unread` otherwise (`flush_spec`).  The return value of `fillbuf` also says that the file had no
bytes left, which `flush` takes for a full buffer, so `input_fidelity_iff` has the condition that
every read finds some.
-/

namespace Lex

/-- `_MAX_LOOKAHEAD`, the number of characters that can always be looked at. -/
def maxLookahead : ℕ := 16

/-- `_MAX_LEXEME_LEN`, the length of lexemes for which there is always room. -/
def maxLexemeLen : ℕ := 1024

/-- `_BUFSIZE`, the size of the buffer: three lexemes and twice the lookahead. -/
def bufSize : ℕ := maxLexemeLen * 3 + 2 * maxLookahead

/-- The messages with which the input system ends the program. -/
inductive InputFault where
  /-- Bad read request starting addr. -/
  | badRequest
  /-- Buffer full, can't read: the program exits. -/
  | bufferFull
  /-- Can not read input file: the program exits. -/
  | cannotRead
deriving DecidableEq, Repr

/-- The variables of the input system, with the file that is still to be read. -/
structure Buffer where
  /-- `_start_buf`, the bytes in and around the buffer. -/
  startBuf : ℕ → UInt8
  /-- `_end_buf`: just past the last character. -/
  endBuf : ℕ
  /-- `_next`: the next input character. -/
  next : ℕ
  /-- `_smark`: the start of the current lexeme. -/
  smark : ℕ
  /-- `_emark`: the end of the current lexeme. -/
  emark : ℕ
  /-- `_pmark`: the start of the previous lexeme. -/
  pmark : Option ℕ
  /-- `_plineno`, the line number of the previous lexeme. -/
  plineno : ℤ
  /-- `_plength`, the length of the previous lexeme. -/
  plength : ℤ
  /-- `_lineno`, the number of the current line. -/
  lineno : ℤ
  /-- `_mline`, the line number at the end mark. -/
  mline : ℤ
  /-- `_eof_read`: the end of the file has been read. -/
  eofRead : Bool
  /-- `been_called` of `ii_advance`. -/
  beenCalled : Bool
  /-- The bytes of the file that have not been read. -/
  file : List UInt8

namespace Buffer

/-- The input system with a new file, as `ii_newfile` leaves it. -/
def newfile (content : List UInt8) : Buffer where
  startBuf _ := 0
  endBuf := bufSize
  next := bufSize
  smark := bufSize
  emark := bufSize
  pmark := none
  plineno := 0
  plength := 0
  lineno := 1
  mline := 1
  eofRead := false
  beenCalled := false
  file := content

variable (b : Buffer)

/-- `_NO_MORE_CHARS`: the file and the buffer are at their ends. -/
def noMoreChars : Bool := b.eofRead && b.endBuf ≤ b.next

/-- `ii_mark_start`: the lexeme starts and ends at the next character. -/
def markStart : Buffer := { b with mline := b.lineno, emark := b.next, smark := b.next }

/-- `ii_mark_end`: the lexeme ends at the next character. -/
def markEnd : Buffer := { b with mline := b.lineno, emark := b.next }

/-- `ii_move_start`: the lexeme loses its first character, if it has one. -/
def moveStart : Buffer := if b.emark ≤ b.smark then b else { b with smark := b.smark + 1 }

/-- `ii_mark_prev`: the current lexeme becomes the previous one. -/
def markPrev : Buffer :=
  { b with plineno := b.lineno, plength := b.emark - b.smark, pmark := some b.smark }

/-- `ii_fillbuf`, with a `read` that delivers as many bytes as it is asked for, or all that are
left. -/
def fillbuf (startingAt : ℕ) : Except InputFault (ℕ × Buffer) :=
  let need : ℤ := ((bufSize : ℤ) - startingAt).tdiv maxLexemeLen * maxLexemeLen
  if need < 0 then .error .badRequest
  else if need = 0 then .ok (0, b)
  else
    let got := min need.toNat b.file.length
    .ok (got,
      { b with
        startBuf := fun i =>
          if startingAt ≤ i ∧ i < startingAt + got then b.file.getD (i - startingAt) 0 else
            b.startBuf i
        endBuf := startingAt + got
        eofRead := if (got : ℤ) < need then true else b.eofRead
        file := b.file.drop got })

/-- The part of `ii_flush` that moves the buffer from the left edge on to the front and fills the
rest. -/
def refill (leftEdge : ℕ) : Except InputFault (ℤ × Buffer) := do
  let copyAmt := b.endBuf - leftEdge
  let moved : Buffer :=
    { b with startBuf := fun i => if i < copyAmt then b.startBuf (leftEdge + i) else b.startBuf i }
  let (got, b) ← moved.fillbuf copyAmt
  if got = 0 then .error .bufferFull
  else
    .ok (1,
      { b with
        pmark := b.pmark.map (· - leftEdge)
        smark := b.smark - leftEdge
        emark := b.emark - leftEdge
        next := b.next - leftEdge })

/-- `ii_flush`: move the part of the buffer that is still needed to its start and fill the rest from
the file. -/
def flush (force : Bool) : Except InputFault (ℤ × Buffer) :=
  if b.noMoreChars then .ok (0, b)
  else if b.eofRead then .ok (1, b)
  else if b.endBuf - maxLookahead ≤ b.next ∨ force then
    let leftEdge := (b.pmark.map (min b.smark)).getD b.smark
    if leftEdge < maxLexemeLen then
      if !force then .ok (-1, b)
      else b.markStart.markPrev.refill b.next
    else b.refill leftEdge
  else .ok (1, b)

/-- The first call of `ii_advance` puts a newline into the empty buffer. -/
def opened : Buffer :=
  if b.beenCalled then b
  else
    { b with
      next := bufSize - 1
      smark := bufSize - 1
      emark := bufSize - 1
      pmark := none
      startBuf := Function.update b.startBuf (bufSize - 1) 10
      lineno := b.lineno - 1
      mline := b.mline - 1
      beenCalled := true }

/-- The end of `ii_advance`: the next character of the buffer, with its line counted. -/
def take : ℤ × Buffer :=
  let c := b.startBuf b.next
  (c.toNat, { b with lineno := if c = 10 then b.lineno + 1 else b.lineno, next := b.next + 1 })

/-- `ii_advance`: fill the buffer when it is nearly empty, and return the next character. -/
def advance : Except InputFault (ℤ × Buffer) :=
  let b := b.opened
  if b.noMoreChars then .ok (0, b)
  else if b.eofRead then .ok b.take
  else do
    let (r, b) ← b.flush false
    if r < 0 then .ok (-1, b) else .ok b.take

end Buffer

/-! ## The consumer -/

/-- The calls of a consumer that change the marks but never go back in the input. -/
inductive Call where
  | advance | markStart | markEnd | moveStart
deriving DecidableEq, Repr

/-- Make a call.  There is a result for `ii_advance` only. -/
def Call.run (b : Buffer) : Call → Except InputFault (Option ℤ × Buffer)
  | .advance => b.advance.map fun p => (some p.1, p.2)
  | .markStart => .ok (none, b.markStart)
  | .markEnd => .ok (none, b.markEnd)
  | .moveStart => .ok (none, b.moveStart)

/-- The results of `ii_advance` in a sequence of calls. -/
def results : List Call → Buffer → Except InputFault (List ℤ)
  | [], _ => .ok []
  | c :: calls, b => do
    let (r, b) ← c.run b
    let rs ← results calls b
    .ok (r.toList ++ rs)

/-- `ii_mark_start` is called at least once per `_MAX_LEXEME_LEN` characters, where `k` characters
have been read since the last time. -/
def MarksOften : ℕ → List Call → Prop
  | _, [] => True
  | k, .advance :: calls => k < maxLexemeLen ∧ MarksOften (k + 1) calls
  | _, .markStart :: calls => MarksOften 0 calls
  | k, .markEnd :: calls => MarksOften k calls
  | k, .moveStart :: calls => MarksOften k calls

/-- The first `n` results that `ii_advance` should have: a newline, the bytes of the file, and then
zeros. -/
def expected : ℕ → List UInt8 → List ℤ
  | 0, _ => []
  | n + 1, [] => 0 :: expected n []
  | n + 1, c :: cs => c.toNat :: expected n cs

/-- The next call of `ii_advance` reads from the file. -/
def Buffer.Reads (b : Buffer) : Prop :=
  b.opened.eofRead = false ∧ b.opened.endBuf - maxLookahead ≤ b.opened.next

/-- Whenever `ii_advance` reads from the file, some bytes are left. -/
def ReadsBytes : List Call → Buffer → Prop
  | [], _ => True
  | c :: calls, b =>
    (c = .advance → b.Reads → b.file ≠ []) ∧
      ∀ r b', c.run b = .ok (r, b') → ReadsBytes calls b'

/-! ## A flush -/

namespace Buffer

variable {b b' : Buffer}

/-- The characters in the buffer that have not been returned. -/
def window (b : Buffer) : List UInt8 :=
  (List.range (b.endBuf - b.next)).map fun i => b.startBuf (b.next + i)

/-- The characters that have not been returned: those in the buffer and those in the file. -/
def unread (b : Buffer) : List UInt8 := b.window ++ b.file

/-- The invariant between two calls, after the first one: `k` characters have been returned since
the start of the lexeme was marked. -/
structure Ready (k : ℕ) (b : Buffer) : Prop where
  /-- There is no mark for a previous lexeme. -/
  pmark : b.pmark = none
  /-- The newline has been put into the buffer. -/
  called : b.beenCalled = true
  /-- The lexeme starts before the next character. -/
  smark_le : b.smark ≤ b.emark
  /-- The lexeme does not end behind the next character. -/
  emark_le : b.emark ≤ b.next
  /-- It is not longer than the number of characters returned. -/
  next_le : b.next ≤ b.smark + k
  /-- The next character is in the buffer. -/
  next_le_end : b.next ≤ b.endBuf
  /-- The buffer does not overflow. -/
  end_le : b.endBuf ≤ bufSize
  /-- At the end of the file nothing is left. -/
  eof : b.eofRead = true → b.file = []
  /-- Before the end of the file the next character is not in the danger zone, and the buffer is
  well filled. -/
  more : b.eofRead = false → b.next + maxLookahead ≤ b.endBuf ∧
    2 * maxLexemeLen + maxLookahead ≤ b.endBuf

/-- What `ii_advance` needs before it flushes: the lexeme is short, and the buffer has been well
filled. -/
structure Flushable (b : Buffer) : Prop where
  /-- There is no mark for a previous lexeme. -/
  pmark : b.pmark = none
  /-- The newline has been put into the buffer. -/
  called : b.beenCalled = true
  /-- The end of the file has not been read. -/
  eof : b.eofRead = false
  /-- The lexeme starts before the next character. -/
  smark_le : b.smark ≤ b.emark
  /-- The lexeme does not end behind the next character. -/
  emark_le : b.emark ≤ b.next
  /-- The lexeme is shorter than the longest that is kept. -/
  next_lt : b.next < b.smark + maxLexemeLen
  /-- The next character is in the buffer. -/
  next_lt_end : b.next < b.endBuf
  /-- The buffer does not overflow. -/
  end_le : b.endBuf ≤ bufSize
  /-- The next character is in the danger zone. -/
  danger : b.endBuf ≤ b.next + maxLookahead
  /-- The buffer is well filled. -/
  filled : 2 * maxLexemeLen + maxLookahead ≤ b.endBuf

/-- `ii_fillbuf` behind a short tail: it asks for as much as fits, in multiples of the length of a
lexeme. -/
lemma fillbuf_eq {s : ℕ} (hpos : 1 ≤ s) (hs : s < maxLexemeLen + maxLookahead) (b : Buffer) :
    ∃ need, 2 * maxLexemeLen ≤ need ∧ s + need ≤ bufSize ∧
      2 * maxLexemeLen + maxLookahead ≤ s + need ∧ b.fillbuf s = .ok (min need b.file.length,
        { b with
          startBuf := fun i =>
            if s ≤ i ∧ i < s + min need b.file.length then b.file.getD (i - s) 0 else b.startBuf i
          endBuf := s + min need b.file.length
          eofRead := if min need b.file.length < need then true else b.eofRead
          file := b.file.drop (min need b.file.length) }) := by
  have hlen : maxLexemeLen = 1024 := rfl
  have hlook : maxLookahead = 16 := rfl
  have hbuf : bufSize = 3104 := rfl
  have hneed : ((bufSize : ℤ) - s).tdiv maxLexemeLen * maxLexemeLen =
      ((bufSize - s) / maxLexemeLen * maxLexemeLen : ℕ) := by
    rw [Int.tdiv_eq_ediv_of_nonneg (by omega), hlen, hbuf]
    omega
  have hval : (bufSize - s) / maxLexemeLen * maxLexemeLen = (3104 - s) / 1024 * 1024 := by
    rw [hlen, hbuf]
  unfold fillbuf
  rw [hneed]
  generalize (bufSize - s) / maxLexemeLen * maxLexemeLen = need at *
  refine ⟨need, by omega, by omega, by omega, ?_⟩
  simp only [Int.toNat_natCast, Int.ofNat_lt]
  rw [if_neg (by omega), if_neg (by omega)]

/-- The bytes that a read puts behind the tail are the first ones of the file. -/
lemma map_getD_range (l : List UInt8) (n : ℕ) (hn : n ≤ l.length) :
    ((List.range n).map fun i => l.getD i 0) = l.take n := by
  apply List.ext_getElem
  · simp [hn]
  · intro i hi _
    rw [List.length_map, List.length_range] at hi
    simp [List.getD_eq_getElem?_getD, List.getElem?_eq_getElem (Nat.lt_of_lt_of_le hi hn)]

/-- Moving the buffer and reading behind it changes no character that has not been returned. -/
lemma unread_refill {s : ℕ} (got : ℕ) (hle : b.endBuf - b.next ≤ b.endBuf - s) (hs : s ≤ b.next)
    (hnext : b.next ≤ b.endBuf) (hgot : got ≤ b.file.length)
    (hbuf : ∀ i, b'.startBuf i = if b.endBuf - s ≤ i ∧ i < b.endBuf - s + got then
      b.file.getD (i - (b.endBuf - s)) 0 else if i < b.endBuf - s then b.startBuf (s + i) else
        b.startBuf i)
    (hend : b'.endBuf = b.endBuf - s + got) (hnext' : b'.next = b.next - s)
    (hfile : b'.file = b.file.drop got) : b'.unread = b.unread := by
  have hlen : b'.endBuf - b'.next = (b.endBuf - b.next) + got := by omega
  unfold unread window
  rw [hlen, List.range_add, List.map_append, List.map_map, hfile]
  have hold : ((List.range (b.endBuf - b.next)).map fun i => b'.startBuf (b'.next + i)) =
      (List.range (b.endBuf - b.next)).map fun i => b.startBuf (b.next + i) := by
    apply List.map_congr_left
    intro i hi
    rw [List.mem_range] at hi
    rw [hbuf, if_neg (by omega), if_pos (by omega)]
    congr 1
    omega
  have hnew : ((List.range got).map
      ((fun i => b'.startBuf (b'.next + i)) ∘ fun i => b.endBuf - b.next + i)) =
      b.file.take got := by
    rw [← map_getD_range b.file got hgot]
    apply List.map_congr_left
    intro i hi
    rw [List.mem_range] at hi
    rw [Function.comp_apply, hbuf, if_pos (by omega)]
    congr 1
    omega
  rw [hold, hnew, List.append_assoc, List.take_append_drop]

/-- A flush that finds bytes in the file changes no character that has not been returned. -/
lemma flush_of_file {k : ℕ} (h : b.Flushable) (hk : b.next ≤ b.smark + k) (hfile : b.file ≠ []) :
    ∃ b', b.flush false = .ok (1, b') ∧ b'.unread = b.unread ∧ b'.next < b'.endBuf ∧
      Ready (k + 1) b'.take.2 := by
  have hlen : maxLexemeLen = 1024 := rfl
  have hlook : maxLookahead = 16 := rfl
  obtain ⟨hpmark, hcalled, heof, hsmark, hemark, hnext, hlt, hend, hdanger, hfilled⟩ := h
  have hpos : 0 < b.file.length := List.length_pos_iff.mpr hfile
  have hmove : b.flush false = b.refill b.smark := by
    unfold flush noMoreChars
    rw [heof, hpmark]
    simp only [Bool.false_and, Bool.false_eq_true, if_false, or_false, Option.map_none,
      Option.getD_none]
    rw [if_pos (by omega), if_neg (by omega)]
  obtain ⟨need, hneed, hfit, hwell, hfill⟩ :=
    fillbuf_eq (s := b.endBuf - b.smark) (by omega) (by omega)
    { b with startBuf := fun i =>
      if i < b.endBuf - b.smark then b.startBuf (b.smark + i) else b.startBuf i }
  rw [hmove, refill, hfill]
  simp only [Bind.bind, Except.bind]
  rw [if_neg (by omega)]
  refine ⟨_, rfl, ?_, ?_, ?_⟩
  · apply unread_refill (s := b.smark) (min need b.file.length) (by omega) (by omega)
      (Nat.le_of_lt hlt) (Nat.min_le_right _ _)
    · intro i
      rfl
    · rfl
    · rfl
    · rfl
  · change b.next - b.smark < b.endBuf - b.smark + min need b.file.length
    omega
  · refine
      { pmark := by simp [take, hpmark]
        called := hcalled
        smark_le := ?_
        emark_le := ?_
        next_le := ?_
        next_le_end := ?_
        end_le := ?_
        eof := ?_
        more := ?_ }
    · change b.smark - b.smark ≤ b.emark - b.smark
      omega
    · change b.emark - b.smark ≤ b.next - b.smark + 1
      omega
    · change b.next - b.smark + 1 ≤ b.smark - b.smark + (k + 1)
      omega
    · change b.next - b.smark + 1 ≤ b.endBuf - b.smark + min need b.file.length
      omega
    · change b.endBuf - b.smark + min need b.file.length ≤ bufSize
      omega
    · intro he
      change (if min need b.file.length < need then true else b.eofRead) = true at he
      change b.file.drop (min need b.file.length) = []
      apply List.drop_eq_nil_of_le
      by_contra hmore
      rw [if_neg (by omega), heof] at he
      cases he
    · intro he
      change (if min need b.file.length < need then true else b.eofRead) = false at he
      change b.next - b.smark + 1 + maxLookahead ≤ b.endBuf - b.smark + min need b.file.length ∧
        2 * maxLexemeLen + maxLookahead ≤ b.endBuf - b.smark + min need b.file.length
      have hfull : ¬ min need b.file.length < need := by
        intro hlt
        rw [if_pos hlt] at he
        cases he
      omega

/-- A flush that finds the file at its end takes the buffer for full. -/
lemma flush_of_nil (h : b.Flushable) (hfile : b.file = []) :
    b.flush false = .error .bufferFull := by
  have hlen : maxLexemeLen = 1024 := rfl
  have hlook : maxLookahead = 16 := rfl
  obtain ⟨hpmark, hcalled, heof, hsmark, hemark, hnext, hlt, hend, hdanger, hfilled⟩ := h
  have hmove : b.flush false = b.refill b.smark := by
    unfold flush noMoreChars
    rw [heof, hpmark]
    simp only [Bool.false_and, Bool.false_eq_true, if_false, or_false, Option.map_none,
      Option.getD_none]
    rw [if_pos (by omega), if_neg (by omega)]
  obtain ⟨need, hneed, hfit, hwell, hfill⟩ :=
    fillbuf_eq (s := b.endBuf - b.smark) (by omega) (by omega)
    { b with startBuf := fun i =>
      if i < b.endBuf - b.smark then b.startBuf (b.smark + i) else b.startBuf i }
  rw [hmove, refill, hfill]
  simp only [Bind.bind, Except.bind]
  rw [if_pos (by simp [hfile])]

/-! ## One call -/

/-- The next character is the first one that has not been returned. -/
lemma unread_eq_cons (h : b.next < b.endBuf) : b.unread = b.startBuf b.next :: b.take.2.unread := by
  have hlen : b.endBuf - b.next = (b.endBuf - (b.next + 1)) + 1 := by omega
  have htail : b.take.2.window = (List.range (b.endBuf - (b.next + 1))).map
      fun i => b.startBuf (b.next + 1 + i) := rfl
  have hfile : b.take.2.file = b.file := rfl
  unfold unread
  rw [htail, hfile]
  unfold window
  rw [hlen, List.range_succ_eq_map, List.map_cons, List.map_map, Nat.add_zero, List.cons_append]
  congr 3
  funext i
  rw [Function.comp_apply]
  congr 1
  omega

/-- What `ii_advance` is expected to return is the next character and then what is expected of the
rest. -/
lemma expected_take (h : b.next < b.endBuf) (n : ℕ) :
    expected (n + 1) b.unread = b.take.1 :: expected n b.take.2.unread := by
  rw [unread_eq_cons h]
  rfl

/-- `ii_advance` when the next character is in the danger zone. -/
lemma advance_of_flushable {k : ℕ} (h : b.opened.Flushable)
    (hk : b.opened.next ≤ b.opened.smark + k) :
    (b.opened.file = [] → b.advance = .error .bufferFull) ∧
      (b.opened.file ≠ [] → ∃ r b', b.advance = .ok (r, b') ∧ Ready (k + 1) b' ∧
        ∀ n, expected (n + 1) b.opened.unread = r :: expected n b'.unread) := by
  have hmore : b.opened.noMoreChars = false := by
    unfold noMoreChars
    rw [h.eof]
    rfl
  unfold advance
  simp only [hmore, h.eof, Bool.false_eq_true, if_false]
  constructor
  · intro hfile
    rw [flush_of_nil h hfile]
    rfl
  · intro hfile
    obtain ⟨b', hflush, hunread, hlt, hready⟩ := flush_of_file h hk hfile
    refine ⟨b'.take.1, b'.take.2, ?_, hready, ?_⟩
    · rw [hflush]
      rfl
    · intro n
      rw [← hunread]
      exact expected_take hlt n

/-- A call after the first one is on the buffer as it is. -/
lemma Ready.opened {k : ℕ} (h : Ready k b) : b.opened = b := by
  unfold Buffer.opened
  rw [if_pos h.called]

/-- After `ii_advance` has returned the next character. -/
lemma Ready.take {k : ℕ} (h : Ready k b) (hlt : b.next < b.endBuf)
    (hmore : b.eofRead = false → b.next + 1 + maxLookahead ≤ b.endBuf) :
    Ready (k + 1) b.take.2 where
  pmark := h.pmark
  called := h.called
  smark_le := h.smark_le
  emark_le := Nat.le_succ_of_le h.emark_le
  next_le := Nat.succ_le_succ h.next_le
  next_le_end := hlt
  end_le := h.end_le
  eof := h.eof
  more he := ⟨hmore he, (h.more he).2⟩

/-- `ii_advance` after the first call returns the next character, or stops the program when a read
finds nothing. -/
lemma Ready.advance {k : ℕ} (h : Ready k b) (hk : k < maxLexemeLen) :
    (b.Reads → b.file = [] → b.advance = .error .bufferFull) ∧
      ((b.Reads → b.file ≠ []) → ∃ r b', b.advance = .ok (r, b') ∧ Ready (k + 1) b' ∧
        ∀ n, expected (n + 1) b.unread = r :: expected n b'.unread) := by
  have hlook : maxLookahead = 16 := rfl
  have hopened := h.opened
  by_cases hread : b.Reads
  · obtain ⟨heof, hdanger⟩ := id hread
    rw [hopened] at heof hdanger
    obtain ⟨hmore, hfilled⟩ := h.more heof
    have hflush : b.opened.Flushable := by
      rw [hopened]
      exact
        { pmark := h.pmark
          called := h.called
          eof := heof
          smark_le := h.smark_le
          emark_le := h.emark_le
          next_lt := Nat.lt_of_le_of_lt h.next_le (Nat.add_lt_add_left hk _)
          next_lt_end := by omega
          end_le := h.end_le
          danger := by omega
          filled := hfilled }
    obtain ⟨herr, hok⟩ := advance_of_flushable hflush (by rw [hopened]; exact h.next_le)
    rw [hopened] at herr hok
    exact ⟨fun _ => herr, fun hfile => hok (hfile hread)⟩
  · refine ⟨fun hr => absurd hr hread, fun _ => ?_⟩
    unfold Buffer.advance
    rw [hopened]
    unfold Reads at hread
    rw [hopened] at hread
    cases heof : b.eofRead with
    | true =>
      by_cases hend : b.endBuf ≤ b.next
      · -- nothing is left
        have hnil : b.unread = [] := by
          unfold unread window
          rw [h.eof heof, Nat.sub_eq_zero_of_le hend]
          rfl
        refine ⟨0, b, by simp [noMoreChars, heof, hend], ?_, fun n => by rw [hnil]; rfl⟩
        exact { h with next_le := Nat.le_succ_of_le h.next_le }
      · have hlt := Nat.lt_of_not_le hend
        refine ⟨b.take.1, b.take.2, ?_, ?_, expected_take hlt⟩
        · have hmore : b.noMoreChars = false := by simp [noMoreChars, hlt]
          simp only [hmore, heof, Bool.false_eq_true, if_false, if_true]
        · apply h.take hlt
          intro he
          rw [heof] at he
          cases he
    | false =>
      have hsafe : ¬ b.endBuf - maxLookahead ≤ b.next := fun hd => hread ⟨heof, hd⟩
      have hlt : b.next < b.endBuf := by omega
      refine ⟨b.take.1, b.take.2, ?_, h.take hlt fun _ => by omega, expected_take hlt⟩
      simp [noMoreChars, heof, flush, hsafe, Bind.bind, Except.bind]

/-- `ii_mark_start` makes room for a whole lexeme. -/
lemma Ready.markStart {k : ℕ} (h : Ready k b) : Ready 0 b.markStart where
  pmark := h.pmark
  called := h.called
  smark_le := Nat.le_refl _
  emark_le := Nat.le_refl _
  next_le := Nat.le_refl _
  next_le_end := h.next_le_end
  end_le := h.end_le
  eof := h.eof
  more := h.more

/-- `ii_mark_end` keeps the room that there is. -/
lemma Ready.markEnd {k : ℕ} (h : Ready k b) : Ready k b.markEnd where
  pmark := h.pmark
  called := h.called
  smark_le := Nat.le_trans h.smark_le h.emark_le
  emark_le := Nat.le_refl _
  next_le := h.next_le
  next_le_end := h.next_le_end
  end_le := h.end_le
  eof := h.eof
  more := h.more

/-- `ii_move_start` keeps the room that there is. -/
lemma Ready.moveStart {k : ℕ} (h : Ready k b) : Ready k b.moveStart := by
  unfold Buffer.moveStart
  split
  · exact h
  · rename_i hlt
    have hnext := h.next_le
    exact
      { h with
        smark_le := Nat.lt_of_not_le hlt
        next_le := by
          change b.next ≤ b.smark + 1 + k
          omega }

/-- `ii_move_start` leaves the unread characters as they are. -/
@[simp] lemma unread_moveStart : b.moveStart.unread = b.unread := by
  unfold moveStart
  split <;> rfl

/-- Before the first call of `ii_advance`, whatever the marks are. -/
structure Fresh (content : List UInt8) (b : Buffer) : Prop where
  /-- The newline has not been put into the buffer. -/
  called : b.beenCalled = false
  /-- The end of the file has not been read. -/
  eof : b.eofRead = false
  /-- The buffer is empty, as after `ii_newfile`. -/
  end_eq : b.endBuf = bufSize
  /-- Nothing of the file has been read. -/
  file : b.file = content

/-- The first call flushes a buffer that has only the newline in it. -/
lemma Fresh.opened {content : List UInt8} (h : Fresh content b) :
    b.opened.Flushable ∧ b.opened.next ≤ b.opened.smark + 0 ∧ b.opened.file = content ∧
      b.opened.unread = 10 :: content ∧ b.Reads := by
  have heq : b.opened =
      { b with
        next := bufSize - 1
        smark := bufSize - 1
        emark := bufSize - 1
        pmark := none
        startBuf := Function.update b.startBuf (bufSize - 1) 10
        lineno := b.lineno - 1
        mline := b.mline - 1
        beenCalled := true } := by
    unfold Buffer.opened
    rw [if_neg (by rw [h.called]; decide)]
  have hnext : b.opened.next = bufSize - 1 := congrArg Buffer.next heq
  have hsmark : b.opened.smark = bufSize - 1 := congrArg Buffer.smark heq
  have hemark : b.opened.emark = bufSize - 1 := congrArg Buffer.emark heq
  have hend : b.opened.endBuf = bufSize := (congrArg Buffer.endBuf heq).trans h.end_eq
  have hfile : b.opened.file = content := (congrArg Buffer.file heq).trans h.file
  have heof : b.opened.eofRead = false := (congrArg Buffer.eofRead heq).trans h.eof
  have hchar : b.opened.startBuf b.opened.next = 10 := by
    rw [hnext, heq]
    exact @Function.update_self ℕ (fun _ => UInt8) _ (bufSize - 1) 10 b.startBuf
  have hlt : b.opened.next < b.opened.endBuf := by
    rw [hnext, hend]
    decide
  have hwindow : b.opened.take.2.window = [] := by
    unfold window
    change (List.range (b.opened.endBuf - (b.opened.next + 1))).map _ = []
    rw [hend, hnext]
    simp [bufSize, maxLexemeLen, maxLookahead]
  have hdanger : b.opened.endBuf - maxLookahead ≤ b.opened.next := by
    rw [hend, hnext]
    decide
  refine ⟨?_, ?_, hfile, ?_, heof, hdanger⟩
  · exact
      { pmark := congrArg Buffer.pmark heq
        called := congrArg Buffer.beenCalled heq
        eof := heof
        smark_le := Nat.le_of_eq (hsmark.trans hemark.symm)
        emark_le := Nat.le_of_eq (hemark.trans hnext.symm)
        next_lt := by rw [hnext, hsmark]; decide
        next_lt_end := hlt
        end_le := Nat.le_of_eq hend
        danger := by rw [hend, hnext]; decide
        filled := by rw [hend]; decide }
  · exact Nat.le_of_eq (hnext.trans hsmark.symm)
  · rw [unread_eq_cons hlt, hchar]
    congr 1
    unfold unread
    rw [hwindow]
    exact hfile

end Buffer

/-! ## A sequence of calls -/

section Run

open Buffer

variable {b b' : Buffer} {c : Call} {calls : List Call} {r : Option ℤ}

/-- The results of a sequence of calls, the first of which succeeds. -/
lemma results_cons (h : c.run b = .ok (r, b')) :
    results (c :: calls) b = (results calls b').map (r.toList ++ ·) := by
  rw [results, h]
  simp only [Bind.bind, Except.bind]
  cases results calls b' <;> rfl

/-- The condition for a sequence of calls, the first of which succeeds. -/
lemma readsBytes_cons (h : c.run b = .ok (r, b')) :
    ReadsBytes (c :: calls) b ↔ (c = .advance → b.Reads → b.file ≠ []) ∧ ReadsBytes calls b' := by
  rw [ReadsBytes]
  refine and_congr_right fun _ => ⟨fun hall => hall r b' h, fun hb r₁ b₁ h₁ => ?_⟩
  rw [h, Except.ok.injEq, Prod.mk.injEq] at h₁
  rw [← h₁.2]
  exact hb

/-- A call that returns nothing does not change what the calls behind it return. -/
lemma results_silent {out : List ℤ} (h : c.run b = .ok (none, b')) (hc : c ≠ .advance)
    (hrest : results calls b' = .ok out ↔ ReadsBytes calls b') :
    results (c :: calls) b = .ok out ↔ ReadsBytes (c :: calls) b := by
  rw [results_cons h, readsBytes_cons h]
  have hmap : (results calls b').map (Option.toList none ++ ·) = results calls b' := by
    cases results calls b' <;> rfl
  rw [hmap, hrest]
  exact ⟨fun hb => ⟨fun he => absurd he hc, hb⟩, fun hb => hb.2⟩

/-- A call of `ii_advance` that reads when bytes are left returns what is expected, and so do the
calls behind it. -/
lemma results_advance {content content' : List UInt8} {x : ℤ} {n : ℕ}
    (h : b.advance = .ok (x, b')) (hread : b.Reads → b.file ≠ [])
    (hexp : ∀ n, expected (n + 1) content = x :: expected n content')
    (hrest : results calls b' = .ok (expected n content') ↔ ReadsBytes calls b') :
    results (.advance :: calls) b = .ok (expected (n + 1) content) ↔
      ReadsBytes (.advance :: calls) b := by
  have hrun : Call.run b .advance = .ok (some x, b') := by rw [Call.run, h]; rfl
  rw [results_cons hrun, readsBytes_cons hrun, hexp, ← hrest]
  have hmap : (results calls b').map ((some x).toList ++ ·) = .ok (x :: expected n content') ↔
      results calls b' = .ok (expected n content') := by
    cases results calls b' with
    | error e => simp [Except.map]
    | ok out => simp [Except.map]
  rw [hmap]
  exact ⟨fun hb => ⟨fun _ => hread, hb⟩, fun hb => hb.2⟩

/-- A call of `ii_advance` that finds the file at its end. -/
lemma results_advance_error {out : List ℤ} (h : b.advance = .error .bufferFull) (hread : b.Reads)
    (hfile : b.file = []) :
    results (.advance :: calls) b = .ok out ↔ ReadsBytes (.advance :: calls) b := by
  refine iff_of_false ?_ fun hb => hb.1 rfl hread hfile
  rw [results, Call.run, h]
  intro he
  cases he

/-- After the first call, the calls return the unread characters exactly when every read finds a
byte. -/
lemma Buffer.Ready.results {k : ℕ} (h : Ready k b) (hmarks : MarksOften k calls) :
    results calls b = .ok (expected (calls.count .advance) b.unread) ↔ ReadsBytes calls b := by
  induction calls generalizing k b with
  | nil => exact iff_of_true rfl trivial
  | cons c calls ih =>
    cases c with
    | advance =>
      obtain ⟨hk, hmarks⟩ := hmarks
      obtain ⟨herr, hok⟩ := h.advance hk
      rw [List.count_cons_self]
      by_cases hbad : b.Reads ∧ b.file = []
      · exact results_advance_error (herr hbad.1 hbad.2) hbad.1 hbad.2
      · have hread : b.Reads → b.file ≠ [] := fun hr hf => hbad ⟨hr, hf⟩
        obtain ⟨x, b', hadv, hready, hexp⟩ := hok hread
        exact results_advance hadv hread hexp (ih hready hmarks)
    | markStart => exact results_silent rfl (by decide) (ih h.markStart hmarks)
    | markEnd => exact results_silent rfl (by decide) (ih h.markEnd hmarks)
    | moveStart =>
      have hrest := ih h.moveStart hmarks
      rw [unread_moveStart] at hrest
      exact results_silent rfl (by decide) hrest

/-- From the first call on, the calls return a newline and the file exactly when every read finds a
byte. -/
lemma Buffer.Fresh.results {content : List UInt8} {k : ℕ} (h : Fresh content b)
    (hmarks : MarksOften k calls) :
    results calls b = .ok (expected (calls.count .advance) (10 :: content)) ↔
    ReadsBytes calls b := by
  induction calls generalizing k b with
  | nil => exact iff_of_true rfl trivial
  | cons c calls ih =>
    cases c with
    | advance =>
      obtain ⟨hk, hmarks⟩ := hmarks
      obtain ⟨hflush, hnext, hfile, hunread, hread⟩ := h.opened
      obtain ⟨herr, hok⟩ := advance_of_flushable (k := k) hflush (by omega)
      rw [hfile] at herr hok
      rw [List.count_cons_self]
      by_cases hnil : content = []
      · exact results_advance_error (herr hnil) hread (h.file.trans hnil)
      · obtain ⟨x, b', hadv, hready, hexp⟩ := hok hnil
        rw [hunread] at hexp
        exact results_advance hadv (fun _ => h.file ▸ hnil) hexp (hready.results hmarks)
    | markStart =>
      exact results_silent rfl (by decide) (ih ⟨h.called, h.eof, h.end_eq, h.file⟩ hmarks)
    | markEnd =>
      exact results_silent rfl (by decide) (ih ⟨h.called, h.eof, h.end_eq, h.file⟩ hmarks)
    | moveStart =>
      refine results_silent rfl (by decide) (ih ?_ hmarks)
      unfold Buffer.moveStart
      split
      · exact h
      · exact ⟨h.called, h.eof, h.end_eq, h.file⟩

/-- The results of `ii_advance` are a newline, the bytes of the file in order and then zeros, and no
call is fatal, exactly when every read finds some bytes. -/
theorem input_fidelity_iff (content : List UInt8) {calls : List Call}
    (hmarks : MarksOften 0 calls) :
    results calls (newfile content) = .ok (expected (calls.count .advance) (10 :: content)) ↔
      ReadsBytes calls (newfile content) :=
  Buffer.Fresh.results ⟨rfl, rfl, rfl, rfl⟩ hmarks

/-- On a file with one byte the calls return the newline, the byte and the end of the file. -/
theorem input_fidelity_iff_byte :
    results [.advance, .markStart, .advance, .advance] (newfile [97]) = .ok [10, 97, 0] ↔
      ReadsBytes [.advance, .markStart, .advance, .advance] (newfile [97]) :=
  @input_fidelity_iff [97] [.advance, .markStart, .advance, .advance]
    ⟨by decide, by decide, by decide, trivial⟩

/-- On an empty file the first call ends the program, so that not every file is delivered. -/
theorem not_input_fidelity_empty : ¬ ∀ content calls, MarksOften 0 calls →
    results calls (newfile content) = .ok (expected (calls.count .advance) (10 :: content)) := by
  intro h
  have hresults := h [] [.advance] ⟨by decide, trivial⟩
  have herror : results [.advance] (newfile []) = .error .bufferFull := by decide +kernel
  rw [herror] at hresults
  cases hresults

end Run

end Lex
