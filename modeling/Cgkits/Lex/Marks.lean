import Cgkits.Lex.InputBuffer
import Cgkits.Lib.Cursor
import Cgkits.Lib.Trace

/-!
# The marks of the input buffer (`input.c`)

The calls of the input system move five pointers: the scanner goes back as well as ahead, marks the
start and the end of a lexeme, and keeps the previous one.  A flush moves all of them by the
distance of the left edge from the start of the buffer, after it has moved the bytes.

To the outside the input system is a text with marks, a `Cursor`: `InputCall.Spec` says what a call
does to it.  `Tracks` relates the two, and `Tracks.run` is the step lemma: whatever a call does to
the buffer, the cursor does as well.  The flush is the one case with an argument in it, and
`Shifted` says all that it does.

A call of `read` may deliver less than what is left.  `Cgkits.Lex.InputBuffer` has the functions for
a `read` that does not.
-/

namespace Lex

/-- What a call of `read` does: it delivers all it can, less, or nothing. -/
inductive Delivery
  /-- It delivers as many bytes as it is asked for, or all that are left. -/
  | full
  /-- It delivers at most so many bytes. -/
  | atMost (n : ℕ)
  /-- The read fails, as when the file cannot be read. -/
  | failed
deriving DecidableEq, Repr

/-- The number of bytes that are delivered, when so many could be. -/
def Delivery.got : Delivery → ℕ → Option ℕ
  | full, available => some available
  | atMost n, available => some (min n available)
  | failed, _ => none

namespace Buffer

variable (b : Buffer)

/-- `ii_fillbuf`: read as many whole lexemes as fit into the buffer. -/
def fillbufBy (read : Delivery) (startingAt : ℕ) : Except InputFault (ℕ × Buffer) :=
  let need : ℤ := ((bufSize : ℤ) - startingAt).tdiv maxLexemeLen * maxLexemeLen
  if need < 0 then .error .badRequest
  else if need = 0 then .ok (0, b)
  else
    match read.got (min need.toNat b.file.length) with
    | none => .error .cannotRead
    | some got =>
      .ok (got,
        { b with
          startBuf := fun i =>
            if startingAt ≤ i ∧ i < startingAt + got then b.file.getD (i - startingAt) 0 else
              b.startBuf i
          endBuf := startingAt + got
          eofRead := if (got : ℤ) < need then true else b.eofRead
          file := b.file.drop got })

/-- The part of `ii_flush` that moves the buffer from the left edge on to the front and fills the
rest. -/
def refillBy (read : Delivery) (leftEdge : ℕ) : Except InputFault (ℤ × Buffer) := do
  let copyAmt := b.endBuf - leftEdge
  let moved : Buffer :=
    { b with startBuf := fun i => if i < copyAmt then b.startBuf (leftEdge + i) else b.startBuf i }
  let (got, b) ← moved.fillbufBy read copyAmt
  if got = 0 then .error .bufferFull
  else
    .ok (1,
      { b with
        pmark := b.pmark.map (· - leftEdge)
        smark := b.smark - leftEdge
        emark := b.emark - leftEdge
        next := b.next - leftEdge })

/-- `left_edge`: the smaller one of the two marks, in front of which nothing is needed. -/
def leftEdge : ℕ := (b.pmark.map (min b.smark)).getD b.smark

/-- `ii_flush`: move what is right of the left edge to the start of the buffer and fill the rest. -/
def flushBy (read : Delivery) (force : Bool) : Except InputFault (ℤ × Buffer) :=
  if b.noMoreChars then .ok (0, b)
  else if b.eofRead then .ok (1, b)
  else if b.endBuf - maxLookahead ≤ b.next ∨ force then
    if b.leftEdge < maxLexemeLen then
      if !force then .ok (-1, b)
      else b.markStart.markPrev.refillBy read b.next
    else b.refillBy read b.leftEdge
  else .ok (1, b)

/-- `ii_advance`: fill the buffer when it is nearly empty, and return the next character. -/
def advanceBy (read : Delivery) : Except InputFault (ℤ × Buffer) :=
  let b := b.opened
  if b.noMoreChars then .ok (0, b)
  else if b.eofRead then .ok b.take
  else do
    let (r, b) ← b.flushBy read false
    if r < 0 then .ok (-1, b) else .ok b.take

/-- The functions for a `read` that delivers all it can are those of `Cgkits.Lex.InputBuffer`. -/
lemma advanceBy_full : b.advanceBy .full = b.advance := rfl

/-- `ii_newfile`.  The file that has been opened is given by its descriptor and its content. -/
def newfileOf : Option (ℕ × List UInt8) → ℤ × Buffer
  | none => (-1, b)
  | some (fd, content) =>
    (fd,
      { b with
        file := content
        eofRead := false
        next := bufSize
        smark := bufSize
        pmark := none
        emark := bufSize
        endBuf := bufSize
        lineno := 1
        mline := 1 })

/-- `ii_look`: the `n`th character ahead or behind, and -1 behind the end of the file. -/
def look (n : ℤ) : ℤ :=
  if (b.endBuf : ℤ) - b.next < n then if b.eofRead then -1 else 0
  else if n - 1 < -(b.next : ℤ) then 0
  else (b.startBuf (b.next + (n - 1)).toNat).toNat

/-- `ii_move_back`: go back to the end of the lexeme. -/
def moveBack : Buffer := { b with lineno := b.mline, next := b.emark }

/-- The loop of `ii_pushback`, which goes back character by character and counts the lines. -/
def pushbackLoop : ℕ → Buffer → Buffer
  | 0, b => b
  | n + 1, b =>
    if b.smark < b.next then
      let c := b.startBuf (b.next - 1)
      pushbackLoop n { b with
        next := b.next - 1
        lineno := if c = 10 ∨ c = 0 then b.lineno - 1 else b.lineno }
    else b

/-- `ii_pushback`: go back by `n` characters, and tell whether some of the lexeme is left. -/
def pushback (n : ℤ) : ℤ × Buffer :=
  let b := pushbackLoop n.toNat b
  let b := if b.next < b.emark then { b with emark := b.next, mline := b.lineno } else b
  (if b.smark < b.next then 1 else 0, b)

/-- The `n` bytes of the buffer from `p` on, as a list. -/
def bytes (p n : ℕ) : List UInt8 := (List.range n).map fun i => b.startBuf (p + i)

/-- `ii_text` and `ii_length`: the bytes of the current lexeme. -/
def text : List UInt8 := b.bytes b.smark (b.emark - b.smark)

/-- `ii_ptext` and `ii_plength`: the bytes of the previous lexeme, if there is one. -/
def ptext : Option (List UInt8) := b.pmark.map fun p => b.bytes p b.plength.toNat

end Buffer

/-- The calls of the input system, with what the operating system does in them. -/
inductive InputCall
  | newfile (opened : Option (ℕ × List UInt8))
  | advance (read : Delivery)
  | look (n : ℤ)
  | pushback (n : ℤ)
  | markStart | markEnd | markPrev | moveStart | moveBack
  | flush (read : Delivery) (force : Bool)
deriving DecidableEq, Repr

namespace InputCall

/-- Make a call.  A call that returns a pointer returns one of the marks, so that its result is left
out. -/
def run (b : Buffer) : InputCall → Except InputFault (Option ℤ × Buffer)
  | newfile opened => .ok (some (b.newfileOf opened).1, (b.newfileOf opened).2)
  | advance read => (b.advanceBy read).map fun p => (some p.1, p.2)
  | look n => .ok (some (b.look n), b)
  | pushback n => .ok (some (b.pushback n).1, (b.pushback n).2)
  | markStart => .ok (none, b.markStart)
  | markEnd => .ok (none, b.markEnd)
  | markPrev => .ok (none, b.markPrev)
  | moveStart => .ok (none, b.moveStart)
  | moveBack => .ok (none, b.moveBack)
  | flush read force => (b.flushBy read force).map fun p => (some p.1, p.2)

/-- A call with its result leads from one buffer to another. -/
def Step (i : InputCall × Option ℤ) (b b' : Buffer) : Prop := i.1.run b = .ok (i.2, b')

/-- What a call with its result does to the cursor on the text. -/
def Spec (i : InputCall × Option ℤ) (c c' : Cursor UInt8) : Prop :=
  match i with
  | (newfile none, r) => r = some (-1) ∧ c' = c
  | (newfile (some (fd, content)), r) => r = some (fd : ℤ) ∧ c' = .start content
  | (advance _, r) =>
    (c' = c ∧ (r = some 0 ∨ r = some (-1))) ∨ ∃ x, c.look 1 = some x ∧ r = some (x.toNat : ℤ) ∧
      c' = c.skip
  | (look _, _) => c' = c
  | (pushback n, r) => r = some (if c'.smark < c'.next then 1 else 0) ∧ c' = c.pushback n.toNat
  | (markStart, _) => c' = c.markStart
  | (markEnd, _) => c' = c.markEnd
  | (markPrev, _) => c' = c.markPrev
  | (moveStart, _) => c' = c.moveStart
  | (moveBack, _) => c' = c.moveBack
  | (flush _ force, _) => c' = c ∨ (force = true ∧ c' = c.markStart.markPrev)

section Step

variable {b b' : Buffer} {read : Delivery} {r : Option ℤ}

/-- A computation whose value is changed succeeds exactly when it does, with the value changed. -/
private lemma map_eq_ok {x : Except InputFault (ℤ × Buffer)} :
    x.map (fun p => (some p.1, p.2)) = .ok (r, b') ↔ ∃ y, r = some y ∧ x = .ok (y, b') := by
  rcases x with e | ⟨y, b₁⟩
  · simp [Except.map]
  · simp [Except.map, eq_comm]

/-- A step of a call of `ii_advance` is a run of the function with its result. -/
lemma step_advance : Step (advance read, r) b b' ↔ ∃ x, r = some x ∧
    b.advanceBy read = .ok (x, b') := map_eq_ok

/-- A step of a call of `ii_flush` is a run of the function with its result. -/
lemma step_flush {force : Bool} :
    Step (flush read force, r) b b' ↔ ∃ x, r = some x ∧ b.flushBy read force = .ok (x, b') :=
  map_eq_ok

end Step

end InputCall

/-! ## A flush -/

namespace Buffer

variable {b b' : Buffer} {read : Delivery} {s got : ℕ}

/-- The buffer is moved by the distance `s` to the front, and `got` bytes have been read behind
it. -/
structure Shifted (read : Delivery) (s got : ℕ) (b b' : Buffer) : Prop where
  /-- Some bytes have been read. -/
  pos : 0 < got
  /-- The bytes read come from the file. -/
  got_le : got ≤ b.file.length
  /-- The bytes in the buffer are those shifted down and those read. -/
  startBuf : ∀ i, b'.startBuf i =
    if b.endBuf - s ≤ i ∧ i < b.endBuf - s + got then b.file.getD (i - (b.endBuf - s)) 0
    else if i < b.endBuf - s then b.startBuf (s + i) else b.startBuf i
  /-- The end of the bytes in the buffer. -/
  endBuf : b'.endBuf = b.endBuf - s + got
  /-- The next character is moved. -/
  next : b'.next = b.next - s
  /-- The start of the lexeme is moved. -/
  smark : b'.smark = b.smark - s
  /-- The end of the lexeme is moved. -/
  emark : b'.emark = b.emark - s
  /-- The previous lexeme is moved. -/
  pmark : b'.pmark = b.pmark.map (· - s)
  /-- The bytes that have not been read. -/
  file : b'.file = b.file.drop got
  /-- The buffer does not overflow. -/
  end_le : b'.endBuf ≤ bufSize
  /-- Before the end of the file the buffer is well filled. -/
  more : b'.eofRead = false → 2 * maxLexemeLen + maxLookahead ≤ b'.endBuf ∧ maxLexemeLen ≤ got
  /-- Before the end of the file only whole blocks have been read. -/
  whole : b'.eofRead = false → maxLexemeLen ∣ got ∧ b.eofRead = false
  /-- A `read` that delivers all it can finds the end of the file when nothing is left. -/
  eof : read = .full → b'.eofRead = true → b.eofRead = true ∨ b'.file = []
  /-- The lines are those of before. -/
  lineno : b'.lineno = b.lineno
  /-- The line of the mark stays. -/
  mline : b'.mline = b.mline
  /-- The length of the previous lexeme stays. -/
  plength : b'.plength = b.plength
  /-- The newline has been put into the buffer or not. -/
  called : b'.beenCalled = b.beenCalled

/-- `ii_fillbuf` puts the bytes that it finds behind those that have been kept. -/
lemma fillbufBy_spec {b' : Buffer} (hs : s ≤ bufSize) (h : b.fillbufBy read s = .ok (got, b'))
    (hpos : got ≠ 0) : ∃ need, maxLexemeLen ≤ need ∧ maxLexemeLen ∣ need ∧ s + need ≤ bufSize ∧
      2 * maxLexemeLen + maxLookahead ≤ s + need ∧
      got ≤ min need b.file.length ∧ (read = .full → got = min need b.file.length) ∧ b' =
      { b with
        startBuf := fun i => if s ≤ i ∧ i < s + got then b.file.getD (i - s) 0 else b.startBuf i
        endBuf := s + got
        eofRead := if got < need then true else b.eofRead
        file := b.file.drop got } := by
  have hlen : maxLexemeLen = 1024 := rfl
  have hlook : maxLookahead = 16 := rfl
  have hbuf : bufSize = 3104 := rfl
  have hneed : ((bufSize : ℤ) - s).tdiv maxLexemeLen * maxLexemeLen =
      ((bufSize - s) / maxLexemeLen * maxLexemeLen : ℕ) := by
    rw [Int.tdiv_eq_ediv_of_nonneg (by omega), hlen, hbuf]
    omega
  have hval : (bufSize - s) / maxLexemeLen * maxLexemeLen = (3104 - s) / 1024 * 1024 := by
    rw [hlen, hbuf]
  have hdvd : maxLexemeLen ∣ (bufSize - s) / maxLexemeLen * maxLexemeLen := Nat.dvd_mul_left _ _
  unfold fillbufBy at h
  rw [hneed] at h
  generalize (bufSize - s) / maxLexemeLen * maxLexemeLen = need at *
  simp only [Int.toNat_natCast, Int.ofNat_lt, Int.natCast_eq_zero] at h
  rw [if_neg (by omega)] at h
  by_cases hzero : need = 0
  · rw [if_pos hzero, Except.ok.injEq, Prod.mk.injEq] at h
    exact absurd h.1.symm hpos
  · rw [if_neg hzero] at h
    rcases read with - | n | -
    · simp only [Delivery.got, Except.ok.injEq, Prod.mk.injEq] at h
      obtain ⟨rfl, rfl⟩ := h
      exact ⟨need, by omega, hdvd, by omega, by omega, Nat.le_refl _, fun _ => rfl, rfl⟩
    · simp only [Delivery.got, Except.ok.injEq, Prod.mk.injEq] at h
      obtain ⟨rfl, rfl⟩ := h
      exact ⟨need, by omega, hdvd, by omega, by omega, Nat.min_le_right _ _, (by rintro ⟨⟩), rfl⟩
    · cases h

/-- The moving part of a flush returns 1 and has shifted the buffer by what was in front. -/
lemma refillBy_spec {r : ℤ} (hend : b.endBuf ≤ bufSize) (h : b.refillBy read s = .ok (r, b')) :
    r = 1 ∧ ∃ got, Shifted read s got b b' := by
  unfold refillBy at h
  simp only [Bind.bind, Except.bind] at h
  split at h
  · cases h
  · rename_i v hfill
    obtain ⟨got, b₁⟩ := v
    dsimp only at h
    by_cases hzero : got = 0
    · rw [if_pos hzero] at h
      cases h
    · rw [if_neg hzero, Except.ok.injEq, Prod.mk.injEq] at h
      obtain ⟨rfl, rfl⟩ := h
      obtain ⟨need, hneed, hdvd, hfit, hwell, hgot, hfull, rfl⟩ :=
        fillbufBy_spec (by omega) hfill hzero
      refine ⟨rfl, got, ?_⟩
      exact
        { pos := Nat.pos_of_ne_zero hzero
          got_le := Nat.le_trans hgot (Nat.min_le_right _ _)
          startBuf := fun i => rfl
          endBuf := rfl
          next := rfl
          smark := rfl
          emark := rfl
          pmark := rfl
          file := rfl
          end_le := by
            change b.endBuf - s + got ≤ bufSize
            omega
          more := by
            intro he
            dsimp only at he ⊢
            by_cases hlt : got < need
            · rw [if_pos hlt] at he
              cases he
            · omega
          whole := by
            intro he
            dsimp only at he
            by_cases hlt : got < need
            · rw [if_pos hlt] at he
              cases he
            · rw [if_neg hlt] at he
              have hall : got = need :=
                Nat.le_antisymm (Nat.le_trans hgot (Nat.min_le_left _ _)) (Nat.le_of_not_lt hlt)
              exact ⟨hall ▸ hdvd, he⟩
          eof := by
            intro hread he
            dsimp only at he ⊢
            by_cases hlt : got < need
            · right
              have hall := hfull hread
              dsimp only at hall
              exact List.drop_eq_nil_of_le (by omega)
            · rw [if_neg hlt] at he
              exact .inl he
          lineno := rfl
          mline := rfl
          plength := rfl
          called := rfl }

/-- `ii_flush` does nothing at the end of the file or far from it, shifts the buffer, or has no
room. -/
lemma flushBy_cases {force : Bool} {r : ℤ} (hend : b.endBuf ≤ bufSize)
    (h : b.flushBy read force = .ok (r, b')) : (r = 0 ∧ b' = b ∧ b.noMoreChars = true) ∨
    (r = 1 ∧ b' = b ∧ (b.eofRead = true ∨ b.next < b.endBuf - maxLookahead)) ∨
    (r = -1 ∧ b' = b ∧ b.eofRead = false ∧ b.endBuf - maxLookahead ≤ b.next ∧
    b.leftEdge < maxLexemeLen) ∨ (r = 1 ∧ b.eofRead = false ∧ maxLexemeLen ≤ b.leftEdge ∧
    ∃ got, Shifted read b.leftEdge got b b') ∨
      (r = 1 ∧ b.eofRead = false ∧ force = true ∧
      ∃ got, Shifted read b.next got b.markStart.markPrev b') := by
  unfold flushBy at h
  by_cases hmore : b.noMoreChars = true
  · rw [if_pos hmore, Except.ok.injEq, Prod.mk.injEq] at h
    exact .inl ⟨h.1.symm, h.2.symm, hmore⟩
  rw [if_neg hmore] at h
  by_cases heof : b.eofRead = true
  · rw [if_pos heof, Except.ok.injEq, Prod.mk.injEq] at h
    exact .inr (.inl ⟨h.1.symm, h.2.symm, .inl heof⟩)
  rw [if_neg heof] at h
  rw [Bool.not_eq_true] at heof
  by_cases hdanger : b.endBuf - maxLookahead ≤ b.next ∨ force = true
  · rw [if_pos hdanger] at h
    by_cases hroom : b.leftEdge < maxLexemeLen
    · rw [if_pos hroom] at h
      rcases force with - | -
      · simp only [Bool.not_false, if_true, Except.ok.injEq, Prod.mk.injEq] at h
        exact .inr (.inr (.inl ⟨h.1.symm, h.2.symm, heof, by simpa using hdanger, hroom⟩))
      · simp only [Bool.not_true, Bool.false_eq_true, if_false] at h
        obtain ⟨hr, hshift⟩ := refillBy_spec (b := b.markStart.markPrev) hend h
        exact .inr (.inr (.inr (.inr ⟨hr, heof, rfl, hshift⟩)))
    · rw [if_neg hroom] at h
      obtain ⟨hr, hshift⟩ := refillBy_spec hend h
      exact .inr (.inr (.inr (.inl ⟨hr, heof, Nat.le_of_not_lt hroom, hshift⟩)))
  · rw [if_neg hdanger, Except.ok.injEq, Prod.mk.injEq] at h
    rw [not_or, Nat.not_le] at hdanger
    exact .inr (.inl ⟨h.1.symm, h.2.symm, .inr hdanger.1⟩)

/-- `ii_advance` after the first call is at the end, finds no room, or returns the next character,
perhaps behind a flush. -/
lemma advanceBy_cases {r : ℤ} (hcalled : b.beenCalled = true) (hend : b.endBuf ≤ bufSize)
    (h : b.advanceBy read = .ok (r, b')) :
    (r = 0 ∧ b' = b ∧ b.noMoreChars = true) ∨
    (r = -1 ∧ b' = b ∧ b.eofRead = false ∧ b.endBuf - maxLookahead ≤ b.next ∧
    b.leftEdge < maxLexemeLen) ∨
    (b.noMoreChars = false ∧ (b.eofRead = true ∨ b.next < b.endBuf - maxLookahead) ∧
    (r, b') = b.take) ∨ (b.eofRead = false ∧ maxLexemeLen ≤ b.leftEdge ∧
    ∃ got b₁, Shifted read b.leftEdge got b b₁ ∧ (r, b') = b₁.take) := by
  have hopened : b.opened = b := if_pos hcalled
  unfold advanceBy at h
  rw [hopened] at h
  dsimp only at h
  by_cases hmore : b.noMoreChars = true
  · rw [if_pos hmore, Except.ok.injEq, Prod.mk.injEq] at h
    exact .inl ⟨h.1.symm, h.2.symm, hmore⟩
  rw [if_neg hmore] at h
  rw [Bool.not_eq_true] at hmore
  by_cases heof : b.eofRead = true
  · rw [if_pos heof, Except.ok.injEq] at h
    exact .inr (.inr (.inl ⟨hmore, .inl heof, h.symm⟩))
  rw [if_neg heof] at h
  simp only [Bind.bind, Except.bind] at h
  split at h
  · cases h
  · rename_i v hflush
    obtain ⟨r₁, b₁⟩ := v
    dsimp only at h
    obtain ⟨-, -, hno⟩ | ⟨rfl, rfl, hsafe⟩ | ⟨rfl, rfl, heof', hdanger, hroom⟩ |
      ⟨rfl, heof', hroom, got, hshift⟩ | ⟨-, -, hforce, -⟩ := flushBy_cases hend hflush
    · rw [hmore] at hno
      cases hno
    · rw [if_neg (by decide), Except.ok.injEq] at h
      exact .inr (.inr (.inl ⟨hmore, hsafe, h.symm⟩))
    · rw [if_pos (by decide), Except.ok.injEq, Prod.mk.injEq] at h
      exact .inr (.inl ⟨h.1.symm, h.2.symm, heof', hdanger, hroom⟩)
    · rw [if_neg (by decide), Except.ok.injEq] at h
      exact .inr (.inr (.inr ⟨heof', hroom, got, b₁, hshift, h.symm⟩))
    · cases hforce

end Buffer

/-! ## Going back -/

namespace Buffer

variable {b : Buffer}

/-- A character that `ii_pushback` takes for the end of a line. -/
def EndsLine (x : UInt8) : Prop := x = 10 ∨ x = 0

instance : DecidablePred EndsLine := fun _ => inferInstanceAs (Decidable (_ ∨ _))

/-- The line of the next character after the last `k` ones have been given back. -/
def lineBefore (b : Buffer) (k : ℕ) : ℤ := b.lineno - (b.bytes (b.next - k) k).countP (EndsLine ·)

/-- The bytes up to a place are those before it and the one at it. -/
lemma bytes_succ (b : Buffer) (p n : ℕ) :
    b.bytes p (n + 1) = b.bytes p n ++ [b.startBuf (p + n)] := by
  rw [bytes, List.range_succ, List.map_append]
  rfl

/-- The buffer after giving back the last character. -/
def back (b : Buffer) : Buffer := { b with next := b.next - 1, lineno := b.lineBefore 1 }

/-- Giving back one character goes back to the line before it, if the character ends a line. -/
lemma lineBefore_one (b : Buffer) :
    b.lineBefore 1 = if EndsLine (b.startBuf (b.next - 1)) then b.lineno - 1 else b.lineno := by
  by_cases hends : EndsLine (b.startBuf (b.next - 1))
  · rw [if_pos hends]
    simp [lineBefore, bytes, hends]
  · rw [if_neg hends]
    simp [lineBefore, bytes, hends]

/-- One round of the loop of `ii_pushback` gives back the last character. -/
lemma pushbackLoop_succ {n : ℕ} (hlt : b.smark < b.next) :
    b.pushbackLoop (n + 1) = b.back.pushbackLoop n := by
  have hline : b.lineBefore 1 =
      if b.startBuf (b.next - 1) = 10 ∨ b.startBuf (b.next - 1) = 0 then b.lineno - 1 else
        b.lineno :=
    b.lineBefore_one
  rw [pushbackLoop, if_pos hlt, back, hline]

/-- Giving back one character more comes to the line in front of it. -/
lemma lineBefore_back {k : ℕ} (hk : k < b.next) : b.back.lineBefore k = b.lineBefore (k + 1) := by
  have hbase : b.next - (k + 1) = b.next - 1 - k := by omega
  have hlast : b.next - 1 - k + k = b.next - 1 := by omega
  have hall :
      b.bytes (b.next - (k + 1)) (k + 1) = b.bytes (b.next - 1 - k) k ++ b.bytes
      (b.next - 1) 1 := by
    rw [bytes_succ, hbase, hlast]
    rfl
  have hback :
    b.back.lineBefore k = b.lineBefore 1 - ((b.bytes (b.next - 1 - k) k).countP (EndsLine ·) : ℤ) :=
      rfl
  rw [hback]
  unfold lineBefore
  rw [hall, List.countP_append]
  omega

/-- The loop of `ii_pushback` goes back by `n` characters, but not beyond the start of the
lexeme. -/
lemma pushbackLoop_eq (n : ℕ) : ∀ {b : Buffer}, b.smark ≤ b.next → b.pushbackLoop n =
    { b with
      next := b.next - min n (b.next - b.smark)
      lineno := b.lineBefore (min n (b.next - b.smark)) } := by
  induction n with
  | zero =>
    intro b _
    simp [pushbackLoop, lineBefore, bytes]
  | succ n ih =>
    intro b hle
    by_cases hlt : b.smark < b.next
    · have hmin : min (n + 1) (b.next - b.smark) = min n (b.next - 1 - b.smark) + 1 := by omega
      have hsub :
        b.next - (min n (b.next - 1 - b.smark) + 1) = b.next - 1 - min n
        (b.next - 1 - b.smark) := by omega
      have hback := ih (b := b.back) (Nat.le_sub_one_of_lt hlt)
      rw [pushbackLoop_succ hlt, hback, hmin, ← lineBefore_back (by omega), hsub]
      rfl
    · have hmin : min (n + 1) (b.next - b.smark) = 0 := by omega
      rw [pushbackLoop, if_neg hlt, hmin]
      simp [lineBefore, bytes]

/-- `ii_pushback` goes back by as many characters of the lexeme as there are, up to `n`. -/
lemma pushback_eq (n : ℤ) (hle : b.smark ≤ b.next) {k : ℕ}
    (hk : k = min n.toNat (b.next - b.smark)) :
    b.pushback n = (if b.smark < b.next - k then 1 else 0,
      { b with
        next := b.next - k
        lineno := b.lineBefore k
        emark := min b.emark (b.next - k)
        mline := if b.next - k < b.emark then b.lineBefore k else b.mline }) := by
  unfold pushback
  rw [pushbackLoop_eq _ hle, ← hk]
  dsimp only
  by_cases hlt : b.next - k < b.emark
  · rw [if_pos hlt, if_pos hlt, Nat.min_eq_right (Nat.le_of_lt hlt)]
  · rw [if_neg hlt, if_neg hlt, Nat.min_eq_left (Nat.le_of_not_lt hlt)]

end Buffer

/-! ## The cursor beside the buffer -/

/-- The buffer shows the text of the cursor from the left edge on, and its pointers stand where the
cursor says. -/
structure Tracks (c : Cursor UInt8) (b : Buffer) : Prop where
  /-- The newline has been put into the buffer. -/
  called : b.beenCalled = true
  /-- The start of the lexeme is at the same distance from the next character. -/
  smark : b.smark + c.next = c.smark + b.next
  /-- The end of the lexeme is at the same distance from the next character. -/
  emark : b.emark + c.next = c.emark + b.next
  /-- The start of the previous lexeme. -/
  pmark : b.pmark.map (· + c.next) = c.pmark.map (· + b.next)
  /-- The previous lexeme is in the buffer. -/
  plength : ∀ p ∈ b.pmark, 0 ≤ b.plength ∧ p + b.plength ≤ b.endBuf
  /-- The next character is in the buffer, or at the end of it. -/
  next_le : b.next ≤ b.endBuf
  /-- The buffer does not overflow. -/
  end_le : b.endBuf ≤ bufSize
  /-- The bytes from the left edge on are those of the text. -/
  byte : ∀ i, b.leftEdge ≤ i → i < b.endBuf → c.text[c.next + i - b.next]? = some (b.startBuf i)
  /-- The bytes that have not been read are the rest of the text. -/
  file : b.file = c.text.drop (c.next + b.endBuf - b.next)
  /-- Before the end of the file the buffer has been well filled. -/
  more : b.eofRead = false → 2 * maxLexemeLen + maxLookahead ≤ b.endBuf

namespace Tracks

variable {c : Cursor UInt8} {b b' : Buffer} {read : Delivery} {got : ℕ}

/-- The end of the lexeme is behind its start. -/
lemma smark_le (h : Tracks c b) : b.smark ≤ b.emark := by
  have hle := c.smark_le
  have hs := h.smark
  have he := h.emark
  omega

/-- The lexeme ends in front of the next character. -/
lemma emark_le (h : Tracks c b) : b.emark ≤ b.next := by
  have hle := c.emark_le
  have he := h.emark
  omega

/-- The mark of the previous lexeme is in front of the current one, at the place that the cursor has
for it. -/
lemma of_pmark (h : Tracks c b) {p : ℕ} (hp : p ∈ b.pmark) :
    p ≤ b.smark ∧ ∃ q, q ∈ c.pmark ∧ p + c.next = q + b.next := by
  have hpmark := h.pmark
  rw [Option.mem_def.mp hp, Option.map_some] at hpmark
  obtain ⟨q, hq, heq⟩ := Option.map_eq_some_iff.mp hpmark.symm
  have hle := c.pmark_le q hq
  have hs := h.smark
  exact ⟨by omega, q, hq, heq.symm⟩

/-- The left edge is the mark of the previous lexeme, if there is one. -/
lemma leftEdge_eq (h : Tracks c b) : b.leftEdge = b.pmark.getD b.smark := by
  unfold Buffer.leftEdge
  rcases hp : b.pmark with - | p
  · simp
  · simpa only [Option.map_some, Option.getD_some] using Nat.min_eq_right (h.of_pmark hp).1

/-- The left edge is where the previous lexeme starts in the text. -/
lemma leftEdge_add (h : Tracks c b) : b.leftEdge + c.next = c.pmark.getD c.smark + b.next := by
  have hpmark := h.pmark
  rw [h.leftEdge_eq]
  rcases hb : b.pmark with - | p
  · rw [hb] at hpmark
    rw [Option.map_eq_none_iff.mp hpmark.symm]
    exact h.smark
  · rw [hb] at hpmark
    obtain ⟨q, hq, hadd⟩ := Option.map_eq_some_iff.mp hpmark.symm
    rw [hq]
    exact hadd.symm

/-- The left edge is not right of the start of the lexeme. -/
lemma leftEdge_le (h : Tracks c b) : b.leftEdge ≤ b.smark := by
  rw [h.leftEdge_eq]
  rcases hp : b.pmark with - | p
  · exact Nat.le_refl _
  · exact (h.of_pmark hp).1

/-- The start of the lexeme is not behind the next character. -/
lemma smark_le_next (h : Tracks c b) : b.smark ≤ b.next := Nat.le_trans h.smark_le h.emark_le

/-- What is left of the left edge has been read. -/
lemma leftEdge_le_next (h : Tracks c b) : b.leftEdge ≤ b.next :=
  Nat.le_trans h.leftEdge_le h.smark_le_next

/-- The left edge of the buffer is a position of the text. -/
lemma next_le_leftEdge (h : Tracks c b) : b.next ≤ c.next + b.leftEdge := by
  rw [h.leftEdge_eq]
  rcases hp : b.pmark with - | p
  · have hs := h.smark
    simp only [Option.getD_none]
    omega
  · obtain ⟨-, q, -, heq⟩ := h.of_pmark hp
    simp only [Option.getD_some]
    omega

/-- A byte of the buffer after a flush, read from the text of before. -/
lemma byte_shifted (h : Tracks c b) (hshift : b.Shifted read b.leftEdge got b') {i : ℕ}
    (hi : i < b'.endBuf) : c.text[c.next + (b.leftEdge + i) - b.next]? = some (b'.startBuf i) := by
  have hle := h.leftEdge_le
  have hsmark := h.smark_le
  have hemark := h.emark_le
  have hnext := h.next_le
  have hpos := h.next_le_leftEdge
  have hgot := hshift.got_le
  rw [hshift.endBuf] at hi
  rw [hshift.startBuf]
  by_cases hnew : b.endBuf - b.leftEdge ≤ i
  · -- the byte comes from the file
    have hlt : i - (b.endBuf - b.leftEdge) < b.file.length := by omega
    have hbyte :
        c.text[c.next + (b.leftEdge + i) - b.next]? = b.file[i - (b.endBuf - b.leftEdge)]? := by
      rw [h.file, List.getElem?_drop]
      congr 1
      omega
    rw [if_pos ⟨hnew, hi⟩, List.getD_eq_getElem?_getD, hbyte, List.getElem?_eq_getElem hlt,
      Option.getD_some]
  · -- the byte was in the buffer
    rw [if_neg (fun hb => hnew hb.1), if_pos (by omega)]
    exact h.byte (b.leftEdge + i) (by omega) (by omega)

/-- A flush moves the buffer over the text and nothing else. -/
lemma shifted (h : Tracks c b) (hshift : b.Shifted read b.leftEdge got b') : Tracks c b' := by
  have hle := h.leftEdge_le
  have hsmark := h.smark_le
  have hemark := h.emark_le
  have hnext := h.next_le
  have hpos := h.next_le_leftEdge
  have hgot := hshift.got_le
  have hpmark_le : ∀ p ∈ b.pmark, b.leftEdge = p := by
    intro p hp
    rw [h.leftEdge_eq, Option.mem_def.mp hp, Option.getD_some]
  exact
    { called := hshift.called.trans h.called
      smark := by
        have hs := h.smark
        rw [hshift.smark, hshift.next]
        omega
      emark := by
        have he := h.emark
        rw [hshift.emark, hshift.next]
        omega
      pmark := by
        rw [hshift.pmark, hshift.next]
        rcases hp : b.pmark with - | p
        · have hq := h.pmark
          rw [hp] at hq
          rw [Option.map_none, Option.map_none] at *
          rw [Option.map_eq_none_iff.mp hq.symm, Option.map_none]
        · obtain ⟨hps, q, hq, heq⟩ := h.of_pmark hp
          rw [Option.mem_def.mp hq]
          have hpe := hpmark_le p hp
          simp only [Option.map_some, Option.some.injEq]
          omega
      plength := by
        intro p hp
        rw [hshift.pmark] at hp
        obtain ⟨p₀, hp₀, rfl⟩ := Option.map_eq_some_iff.mp hp
        obtain ⟨hnonneg, hbound⟩ := h.plength p₀ hp₀
        have hpe := hpmark_le p₀ hp₀
        rw [hshift.plength, hshift.endBuf]
        exact ⟨hnonneg, by omega⟩
      next_le := by
        rw [hshift.next, hshift.endBuf]
        omega
      end_le := hshift.end_le
      byte := by
        intro i _ hi
        rw [hshift.next, ← h.byte_shifted hshift hi]
        congr 1
        omega
      file := by
        rw [hshift.file, h.file, List.drop_drop, hshift.endBuf, hshift.next]
        congr 1
        omega
      more := fun he => (hshift.more he).1 }

/-- The next character in the buffer is that of the text. -/
lemma byte_next (h : Tracks c b) (hlt : b.next < b.endBuf) :
    c.look 1 = some (b.startBuf b.next) := by
  have hle : b.leftEdge ≤ b.next := h.leftEdge_le_next
  rw [← h.byte b.next hle hlt, Cursor.look]
  congr 1
  omega

/-- When the pointers of the lexeme and the next character move together with those of the cursor,
and the left edge does not move to the left, nothing else has to be looked at. -/
lemma move {c' : Cursor UInt8} (h : Tracks c b) (htext : c'.text = c.text)
    (hbuf : b'.startBuf = b.startBuf) (hend : b'.endBuf = b.endBuf) (heof : b'.eofRead = b.eofRead)
    (hfile : b'.file = b.file) (hcalled : b'.beenCalled = b.beenCalled)
    (hbase : b'.next + c.next = c'.next + b.next) (hnext : b'.next ≤ b.endBuf)
    (hsmark : b'.smark + c'.next = c'.smark + b'.next)
    (hemark : b'.emark + c'.next = c'.emark + b'.next)
    (hpmark : b'.pmark.map (· + c'.next) = c'.pmark.map (· + b'.next))
    (hplength : ∀ p ∈ b'.pmark, 0 ≤ b'.plength ∧ p + b'.plength ≤ b.endBuf)
    (hleft : b.leftEdge ≤ b'.leftEdge) : Tracks c' b' where
  called := hcalled.trans h.called
  smark := hsmark
  emark := hemark
  pmark := hpmark
  plength := hend.symm ▸ hplength
  next_le := hend.symm ▸ hnext
  end_le := hend.symm ▸ h.end_le
  byte := by
    intro i hi hlast
    rw [hend] at hlast
    rw [htext, hbuf, ← h.byte i (Nat.le_trans hleft hi) hlast]
    congr 1
    omega
  file := by
    rw [hfile, htext, hend, h.file]
    congr 1
    omega
  more := by
    rw [heof, hend]
    exact h.more

/-- The mark of the previous lexeme does not depend on where the next character is. -/
lemma pmark_of_add (h : Tracks c b) {x y : ℕ} (hbase : y + c.next = x + b.next) :
    b.pmark.map (· + x) = c.pmark.map (· + y) := by
  rcases hp : b.pmark with - | p
  · have hq := h.pmark
    rw [hp, Option.map_none] at hq
    rw [Option.map_eq_none_iff.mp hq.symm, Option.map_none, Option.map_none]
  · obtain ⟨-, q, hq, heq⟩ := h.of_pmark hp
    rw [Option.mem_def.mp hq]
    simp only [Option.map_some, Option.some.injEq]
    omega

/-- Returning the next character moves the cursor by one place. -/
lemma take (h : Tracks c b) (hlt : b.next < b.endBuf) : Tracks c.skip b.take.2 := by
  have hs := h.smark
  have he := h.emark
  have hbase : b.next + 1 + c.next = c.next + 1 + b.next := by omega
  rw [Cursor.skip_eq (Cursor.look_one_eq_some (h.byte_next hlt))]
  refine h.move rfl rfl rfl rfl rfl rfl hbase hlt ?_ ?_ (h.pmark_of_add hbase) h.plength
    (Nat.le_refl _)
  · change b.smark + (c.next + 1) = c.smark + (b.next + 1)
    omega
  · change b.emark + (c.next + 1) = c.emark + (b.next + 1)
    omega

/-- `ii_mark_start` does to the buffer what the cursor does. -/
lemma markStart (h : Tracks c b) : Tracks c.markStart b.markStart := by
  have hs := h.smark
  refine h.move rfl rfl rfl rfl rfl rfl (Nat.add_comm _ _) h.next_le (Nat.add_comm _ _)
    (Nat.add_comm _ _) h.pmark h.plength ?_
  have hle : b.smark ≤ b.next := h.smark_le_next
  have hleft := h.leftEdge_le
  rw [Buffer.leftEdge, Buffer.leftEdge] at *
  change _ ≤ (b.pmark.map (min b.next)).getD b.next
  rcases b.pmark with - | p
  · exact hle
  · simp only [Option.map_some, Option.getD_some]
    omega

/-- `ii_mark_end` does to the buffer what the cursor does. -/
lemma markEnd (h : Tracks c b) : Tracks c.markEnd b.markEnd :=
  h.move rfl rfl rfl rfl rfl rfl (Nat.add_comm _ _) h.next_le h.smark (Nat.add_comm _ _) h.pmark
    h.plength (Nat.le_refl _)

/-- `ii_mark_prev` does to the buffer what the cursor does. -/
lemma markPrev (h : Tracks c b) : Tracks c.markPrev b.markPrev := by
  have hle := h.smark_le
  have hemark := h.emark_le
  have hnext := h.next_le
  refine h.move rfl rfl rfl rfl rfl rfl (Nat.add_comm _ _) h.next_le h.smark h.emark ?_ ?_ ?_
  · change some (b.smark + c.next) = some (c.smark + b.next)
    rw [h.smark]
  · intro p hp
    obtain rfl := Option.mem_some.mp hp
    change (0 : ℤ) ≤ b.emark - b.smark ∧ (b.smark : ℤ) + (b.emark - b.smark) ≤ b.endBuf
    omega
  · change _ ≤ min b.smark b.smark
    rw [Nat.min_self]
    exact h.leftEdge_le

/-- `ii_move_start` does to the buffer what the cursor does. -/
lemma moveStart (h : Tracks c b) : Tracks c.moveStart b.moveStart := by
  have hs := h.smark
  have he := h.emark
  unfold Buffer.moveStart Cursor.moveStart
  by_cases hlt : c.smark < c.emark
  · rw [if_neg (by omega), dif_pos hlt]
    refine h.move rfl rfl rfl rfl rfl rfl (Nat.add_comm _ _) h.next_le ?_ h.emark h.pmark h.plength
      ?_
    · change b.smark + 1 + c.next = c.smark + 1 + b.next
      omega
    · have hleft := h.leftEdge_le
      rw [Buffer.leftEdge, Buffer.leftEdge] at *
      change _ ≤ (b.pmark.map (min (b.smark + 1))).getD (b.smark + 1)
      rcases b.pmark with - | p
      · exact Nat.le_succ _
      · simp only [Option.map_some, Option.getD_some]
        omega
  · rw [if_pos (by omega), dif_neg hlt]
    exact h

/-- `ii_move_back` does to the buffer what the cursor does. -/
lemma moveBack (h : Tracks c b) : Tracks c.moveBack b.moveBack := by
  have hs := h.smark
  have he := h.emark
  refine h.move rfl rfl rfl rfl rfl rfl he (Nat.le_trans h.emark_le h.next_le) ?_ (Nat.add_comm _ _)
    (h.pmark_of_add he) h.plength (Nat.le_refl _)
  change b.smark + c.emark = c.smark + b.emark
  omega

/-- `ii_pushback` does to the buffer what the cursor does. -/
lemma pushback (h : Tracks c b) (n : ℤ) : Tracks (c.pushback n.toNat) (b.pushback n).2 := by
  have hs := h.smark
  have he := h.emark
  have hsmark := h.smark_le
  have hemark := h.emark_le
  have hpos := h.next_le_leftEdge
  have hleft := h.leftEdge_le
  obtain ⟨k, hk⟩ : ∃ k, k = min n.toNat (b.next - b.smark) := ⟨_, rfl⟩
  have hnext : max c.smark (c.next - n.toNat) = c.next - k := by omega
  have hbase : b.next - k + c.next = c.next - k + b.next := by omega
  rw [Buffer.pushback_eq n (Nat.le_trans hsmark hemark) hk]
  refine h.move rfl rfl rfl rfl rfl rfl ?_ (Nat.le_trans (Nat.sub_le _ _) h.next_le) ?_ ?_ ?_
    h.plength (Nat.le_refl _)
  · change b.next - k + c.next = max c.smark (c.next - n.toNat) + b.next
    rw [hnext, hbase]
  · change b.smark + max c.smark (c.next - n.toNat) = c.smark + (b.next - k)
    omega
  · change min b.emark (b.next - k) + max c.smark (c.next - n.toNat) =
      min c.emark (max c.smark (c.next - n.toNat)) + (b.next - k)
    omega
  · change b.pmark.map (· + max c.smark (c.next - n.toNat)) = c.pmark.map (· + (b.next - k))
    rw [hnext]
    exact h.pmark_of_add hbase

/-- `ii_newfile` starts a new text when the file is opened. -/
lemma newfile (h : Tracks c b) (fd : ℕ) (content : List UInt8) :
    Tracks (.start content) (b.newfileOf (some (fd, content))).2 where
  called := h.called
  smark := Nat.add_comm _ _
  emark := Nat.add_comm _ _
  pmark := rfl
  plength p hp := by cases hp
  next_le := Nat.le_refl _
  end_le := Nat.le_refl _
  byte i hi hlt := absurd hlt (Nat.not_lt.mpr hi)
  file := by
    change content = content.drop (0 + bufSize - bufSize)
    simp
  more _ := by
    change 2 * maxLexemeLen + maxLookahead ≤ bufSize
    decide

/-- At first the buffer has the newline in front of the file, and the cursor is at its start. -/
lemma opened (content : List UInt8) :
    Tracks (.start (10 :: content)) (Buffer.newfile content).opened where
  called := rfl
  smark := Nat.add_comm _ _
  emark := Nat.add_comm _ _
  pmark := rfl
  plength p hp := by cases hp
  next_le := Nat.sub_le bufSize 1
  end_le := Nat.le_refl _
  byte i hi hlt := by
    have hle : bufSize - 1 ≤ i := hi
    have hlt' : i < bufSize := hlt
    obtain rfl : i = bufSize - 1 := by omega
    change (10 :: content)[0 + (bufSize - 1) - (bufSize - 1)]? =
      some (Function.update (fun _ => (0 : UInt8)) (bufSize - 1) 10 (bufSize - 1))
    rw [Function.update_self, Nat.zero_add, Nat.sub_self, List.getElem?_cons_zero]
  file := by
    change content = (10 :: content).drop (0 + bufSize - (bufSize - 1))
    rw [show 0 + bufSize - (bufSize - 1) = 1 from rfl, List.drop_one, List.tail_cons]
  more _ := by
    change 2 * maxLexemeLen + maxLookahead ≤ bufSize
    decide

/-- `ii_flush` leaves the cursor as it is, or a forced one gives up the lexemes. -/
lemma flush {force : Bool} {r : ℤ} (h : Tracks c b) (hr : b.flushBy read force = .ok (r, b')) :
    Tracks c b' ∨ (force = true ∧ Tracks c.markStart.markPrev b') := by
  obtain ⟨-, rfl, -⟩ | ⟨-, rfl, -⟩ | ⟨-, rfl, -⟩ | ⟨-, -, -, got, hshift⟩ |
      ⟨-, -, hforce, got, hshift⟩ :=
    Buffer.flushBy_cases h.end_le hr
  · exact .inl h
  · exact .inl h
  · exact .inl h
  · exact .inl (h.shifted hshift)
  · have hleft : b.markStart.markPrev.leftEdge = b.next := Nat.min_self _
    rw [← hleft] at hshift
    exact .inr ⟨hforce, h.markStart.markPrev.shifted hshift⟩

/-- `ii_advance` reports that there is no next character or an overflow, or it takes the next
character of a buffer that shows the same. -/
lemma advance_cases {r : ℤ} (h : Tracks c b) (hr : b.advanceBy read = .ok (r, b')) :
    ((r = 0 ∧ b.noMoreChars = true ∨ r = -1) ∧ b' = b) ∨
      ∃ b₁, Tracks c b₁ ∧ b₁.next < b₁.endBuf ∧ b₁.lineno = b.lineno ∧ (r, b') = b₁.take := by
  have hnext := h.next_le
  obtain ⟨rfl, rfl, hno⟩ | ⟨rfl, rfl, -⟩ | ⟨hmore, hsafe, htake⟩ | ⟨-, -, got, b₁, hshift, htake⟩ :=
    Buffer.advanceBy_cases h.called h.end_le hr
  · exact .inl ⟨.inl ⟨rfl, hno⟩, rfl⟩
  · exact .inl ⟨.inr rfl, rfl⟩
  · refine .inr ⟨b, h, ?_, rfl, htake⟩
    rcases hsafe with heof | hsafe
    · unfold Buffer.noMoreChars at hmore
      simpa [heof] using hmore
    · omega
  · refine .inr ⟨b₁, h.shifted hshift, ?_, hshift.lineno, htake⟩
    have hpos := hshift.pos
    have hleft := h.leftEdge_le_next
    rw [hshift.next, hshift.endBuf]
    omega

/-- `ii_advance` returns the next character and moves the cursor, or returns 0 or -1 and changes
nothing. -/
lemma advance {r : ℤ} (h : Tracks c b) (hr : b.advanceBy read = .ok (r, b')) :
    ((r = 0 ∨ r = -1) ∧ b' = b) ∨ ∃ x, c.look 1 = some x ∧ r = x.toNat ∧ Tracks c.skip b' := by
  obtain ⟨hx, rfl⟩ | ⟨b₁, h₁, hlt, -, htake⟩ := h.advance_cases hr
  · exact .inl ⟨hx.imp_left And.left, rfl⟩
  · obtain ⟨rfl, rfl⟩ := Prod.mk.inj htake
    exact .inr ⟨_, h₁.byte_next hlt, rfl, h₁.take hlt⟩

/-- Step lemma: whatever a call does to the buffer, the cursor does as well. -/
lemma run {i : InputCall × Option ℤ} (h : Tracks c b) (hr : InputCall.Step i b b') :
    ∃ c', InputCall.Spec i c c' ∧ Tracks c' b' := by
  obtain ⟨call, r⟩ := i
  unfold InputCall.Spec
  rcases call with opened | read | n | n | - | - | - | - | - | ⟨read, force⟩
  · obtain ⟨rfl, rfl⟩ := Prod.mk.inj (Except.ok.inj hr)
    rcases opened with - | ⟨fd, content⟩
    · exact ⟨c, ⟨rfl, rfl⟩, h⟩
    · exact ⟨_, ⟨rfl, rfl⟩, h.newfile fd content⟩
  · obtain ⟨x, rfl, hadv⟩ := InputCall.step_advance.mp hr
    obtain ⟨hx, rfl⟩ | ⟨y, hlook, rfl, htracks⟩ := h.advance hadv
    · refine ⟨c, .inl ⟨rfl, ?_⟩, h⟩
      rcases hx with rfl | rfl
      · exact .inl rfl
      · exact .inr rfl
    · exact ⟨_, .inr ⟨y, hlook, rfl, rfl⟩, htracks⟩
  · obtain ⟨rfl, rfl⟩ := Prod.mk.inj (Except.ok.inj hr)
    exact ⟨c, rfl, h⟩
  · obtain ⟨rfl, rfl⟩ := Prod.mk.inj (Except.ok.inj hr)
    have htracks := h.pushback n
    refine ⟨_, ⟨?_, rfl⟩, htracks⟩
    have hsmark := htracks.smark
    have hle := htracks.smark_le_next
    have hval : (b.pushback n).1 = if (b.pushback n).2.smark < (b.pushback n).2.next then 1 else
      0 := rfl
    rw [hval]
    by_cases hlt : (b.pushback n).2.smark < (b.pushback n).2.next
    · rw [if_pos hlt, if_pos (by omega)]
    · rw [if_neg hlt, if_neg (by omega)]
  · obtain ⟨rfl, rfl⟩ := Prod.mk.inj (Except.ok.inj hr)
    exact ⟨_, rfl, h.markStart⟩
  · obtain ⟨rfl, rfl⟩ := Prod.mk.inj (Except.ok.inj hr)
    exact ⟨_, rfl, h.markEnd⟩
  · obtain ⟨rfl, rfl⟩ := Prod.mk.inj (Except.ok.inj hr)
    exact ⟨_, rfl, h.markPrev⟩
  · obtain ⟨rfl, rfl⟩ := Prod.mk.inj (Except.ok.inj hr)
    exact ⟨_, rfl, h.moveStart⟩
  · obtain ⟨rfl, rfl⟩ := Prod.mk.inj (Except.ok.inj hr)
    exact ⟨_, rfl, h.moveBack⟩
  · obtain ⟨x, rfl, hflush⟩ := InputCall.step_flush.mp hr
    obtain htracks | ⟨hforce, htracks⟩ := h.flush hflush
    · exact ⟨_, .inl rfl, htracks⟩
    · exact ⟨_, .inr ⟨hforce, rfl⟩, htracks⟩

end Tracks

/-! ## A sequence of calls -/

section Run

open InputCall

variable {c : Cursor UInt8} {b b' : Buffer} {content : List UInt8} {read : Delivery}
  {l : List (InputCall × Option ℤ)}

/-- The order of the marks.  The distance of a mark from the start of the buffer is a natural
number; that no subtraction is cut off there is part of `Tracks`. -/
structure Buffer.Ordered (b : Buffer) : Prop where
  /-- The lexeme does not end before its start. -/
  smark_le : b.smark ≤ b.emark
  /-- The lexeme has been read. -/
  emark_le : b.emark ≤ b.next
  /-- The next character is in the buffer, or at the end of it. -/
  next_le : b.next ≤ b.endBuf
  /-- The buffer does not overflow. -/
  end_le : b.endBuf ≤ bufSize
  /-- The previous lexeme starts before the lexeme. -/
  pmark_le : ∀ p ∈ b.pmark, p ≤ b.smark

/-- The marks of a buffer that tracks a cursor are in the order of the cursor. -/
lemma Tracks.ordered (h : Tracks c b) : b.Ordered where
  smark_le := h.smark_le
  emark_le := h.emark_le
  next_le := h.next_le
  end_le := h.end_le
  pmark_le _ hp := (h.of_pmark hp).1

/-- The cursor follows a sequence of calls, step by step. -/
lemma Tracks.trace (h : Tracks c b) (hl : Trace Step l b b') :
    ∃ c', Trace Spec l c c' ∧ Tracks c' b' := by
  have hsim : ∀ i ∈ l, ∀ b b' c, Tracks c b → Step i b b' → ∃ c', Spec i c c' ∧ Tracks c' b' :=
    fun _ _ _ _ _ hc hstep => hc.run hstep
  exact hl.simulation (fun b c => Tracks c b) hsim h

/-- The calls with their results, the first of which is an `ii_advance` on the first file, lead to
the buffer. -/
def Session (content : List UInt8) (l : List (InputCall × Option ℤ)) (b : Buffer) : Prop :=
  (∃ read r, l.head? = some (advance read, r)) ∧ Trace Step l (Buffer.newfile content) b

/-- The first call of `ii_advance` is on the buffer with the newline in it. -/
lemma session_iff : Session content l b ↔
    (∃ read r, l.head? = some (advance read, r)) ∧
    Trace Step l (Buffer.newfile content).opened b := by
  refine and_congr_right ?_
  rintro ⟨read, r, hhead⟩
  rcases l with - | ⟨i, l⟩
  · cases hhead
  · obtain rfl : i = (advance read, r) := by simpa using hhead
    rw [Trace.cons_iff, Trace.cons_iff]
    exact Iff.rfl

/-- The cursor follows a session from the start of its file. -/
lemma Session.exists_tracks (h : Session content l b) :
    ∃ c, Trace Spec l (.start (10 :: content)) c ∧ Tracks c b :=
  (Tracks.opened content).trace (session_iff.mp h).2

/-- The bytes that a flush moves stay the same at their new places. -/
lemma Buffer.Shifted.bytes {s got p n : ℕ} (h : b.Shifted read s got b') (hp : s ≤ p)
    (hn : p + n ≤ b.endBuf) : b'.bytes (p - s) n = b.bytes p n := by
  refine List.map_congr_left fun i hi => ?_
  rw [List.mem_range] at hi
  rw [h.startBuf, if_neg (by omega), if_pos (by omega)]
  congr 1
  omega

/-- A flush that is not forced leaves the lexemes as they are. -/
lemma Tracks.texts (h : Tracks c b) {x : ℤ} (hr : b.flushBy read false = .ok (x, b')) :
    b'.text = b.text ∧ b'.ptext = b.ptext := by
  obtain ⟨-, rfl, -⟩ | ⟨-, rfl, -⟩ | ⟨-, rfl, -⟩ | ⟨-, -, -, got, hshift⟩ | ⟨-, -, hforce, -⟩ :=
    Buffer.flushBy_cases h.end_le hr
  · exact ⟨rfl, rfl⟩
  · exact ⟨rfl, rfl⟩
  · exact ⟨rfl, rfl⟩
  · have hleft := h.leftEdge_le
    have hsmark := h.smark_le
    have hemark := h.emark_le
    have hnext := h.next_le
    constructor
    · unfold Buffer.text
      rw [hshift.smark, hshift.emark, ← hshift.bytes hleft (by omega)]
      congr 1
      omega
    · unfold Buffer.ptext
      rw [hshift.pmark, hshift.plength]
      rcases hp : b.pmark with - | p
      · rfl
      · obtain ⟨hnonneg, hbound⟩ := h.plength p hp
        have hle : b.leftEdge ≤ p := Nat.le_of_eq (by rw [h.leftEdge_eq, hp, Option.getD_some])
        simp only [Option.map_some, Option.some.injEq]
        exact hshift.bytes hle (by omega)
  · cases hforce

/-- After any sequence of calls the marks are in order, the buffer shows the text of the cursor that
has followed the calls from the left edge on, and a flush that is not forced leaves the lexemes as
they are. -/
theorem marks_spec (h : Session content l b) :
    b.Ordered ∧ (∃ c, Trace Spec l (.start (10 :: content)) c ∧ Tracks c b) ∧
      ∀ read b', b.flushBy read false = .ok (1, b') → b'.text = b.text ∧ b'.ptext = b.ptext := by
  obtain ⟨c, hspec, htracks⟩ := h.exists_tracks
  exact ⟨htracks.ordered, ⟨c, hspec, htracks⟩, fun read b' hr => htracks.texts hr⟩

/-- After the first call on a file with one byte, the marks are in order. -/
theorem marks_spec_byte : ∃ b, Session [97] [(advance .full, some 10)] b ∧ b.Ordered := by
  have hok : ∃ b, Step (advance .full, some 10) (Buffer.newfile [97]) b := ⟨_, rfl⟩
  obtain ⟨b, hb⟩ := hok
  have hsession : Session [97] [(advance .full, some 10)] b :=
    ⟨⟨.full, some 10, rfl⟩, .cons hb (.nil b)⟩
  exact ⟨b, hsession, (marks_spec hsession).1⟩

end Run

end Lex
