import Cgkits.Lex.Pushback

/-!
# The terminator in the input buffer (`input.c`)

`ii_term` writes a NUL over the next character, so that the lexeme is a string, and `_termchar`
keeps the character. It also says whether there is a terminator at all: `ii_unterm`, `ii_input`,
`ii_unput` and `ii_lookahead` test it for zero.  `TermBuffer.unterm` is the buffer behind the
terminator, and `Buffer.Held` says that it is one as in `Cgkits.Lex.Marks`, whatever calls have been
made.

The character that `ii_term` saves may come from behind the end of the buffer: `lookahead_term_iff`.
`ii_unput` writes its character only if `ii_pushback` says that one more could be given back:
`unput_iff`.
-/

namespace Lex

open InputCall

/-- The buffer with `_termchar`, the character that the NUL behind the lexeme hides. -/
structure TermBuffer where
  /-- The buffer, with the NUL in place or not. -/
  buffer : Buffer
  /-- `_termchar`, the character that the NUL replaces. -/
  termchar : UInt8

/-- `*_next = x`, a write at the place of the next character. -/
def Buffer.put (b : Buffer) (x : UInt8) : Buffer :=
  { b with startBuf := Function.update b.startBuf b.next x }

namespace TermBuffer

variable (s : TermBuffer)

/-- `ii_term`: hide the next character behind a NUL. -/
def term : TermBuffer := ⟨s.buffer.put 0, s.buffer.startBuf s.buffer.next⟩

/-- `ii_unterm`: write the hidden character back, if there is one. -/
def unterm : TermBuffer := if s.termchar ≠ 0 then ⟨s.buffer.put s.termchar, 0⟩ else s

/-- `ii_input`: read a character into the lexeme, with the NUL moved behind it. -/
def input (read : Delivery) : Except InputFault (ℤ × TermBuffer) :=
  if s.termchar ≠ 0 then do
    let (rval, b) ← s.unterm.buffer.advanceBy read
    .ok (rval, TermBuffer.term ⟨b.markEnd, s.unterm.termchar⟩)
  else do
    let (rval, b) ← s.buffer.advanceBy read
    .ok (rval, ⟨b.markEnd, s.termchar⟩)

/-- The pushback and the write of `ii_unput`, on a lexeme without a NUL. -/
def unputPlain (c : UInt8) : TermBuffer :=
  let (more, b) := s.buffer.pushback 1
  ⟨if more ≠ 0 then b.put c else b, s.termchar⟩

/-- `ii_unput`: put a character back in front of what is read next. -/
def unput (c : UInt8) : TermBuffer := if s.termchar ≠ 0 then (s.unterm.unputPlain c).term else
    s.unputPlain c

/-- `ii_lookahead`: look at a character ahead, which may be the hidden one. -/
def lookahead (n : ℤ) : ℤ := if n = 1 ∧ s.termchar ≠ 0 then s.termchar.toNat else s.buffer.look n

/-- `ii_flushbuf`: a forced flush, in front of which the hidden character is written back. -/
def flushbuf (read : Delivery) : Except InputFault (ℤ × TermBuffer) := do
  let s := if s.termchar ≠ 0 then s.unterm else s
  let (rval, b) ← s.buffer.flushBy read true
  .ok (rval, ⟨b, s.termchar⟩)

end TermBuffer

/-- The calls of the input system, with those that know the terminator. -/
inductive TermCall
  | plain (call : InputCall)
  | term | unterm
  | input (read : Delivery)
  | unput (c : UInt8)
  | lookahead (n : ℤ)
  | flushbuf (read : Delivery)
deriving DecidableEq, Repr

/-- The call leaves the next character where it is, and the bytes of the buffer as well. -/
def InputCall.Marks : InputCall → Prop
  | markStart | markEnd | markPrev | moveStart | look _ => True
  | _ => False

namespace TermCall

/-- Make a call of a client, and return its result with the buffer. -/
def run (s : TermBuffer) : TermCall → Except InputFault (Option ℤ × TermBuffer)
  | plain call => (call.run s.buffer).map fun p => (p.1, ⟨p.2, s.termchar⟩)
  | term => .ok (none, s.term)
  | unterm => .ok (none, s.unterm)
  | input read => (s.input read).map fun p => (some p.1, p.2)
  | unput c => .ok (none, s.unput c)
  | lookahead n => .ok (some (s.lookahead n), s)
  | flushbuf read => (s.flushbuf read).map fun p => (some p.1, p.2)

/-- While there is a terminator, it is not written again, and the next character is moved only by
the functions that know it. -/
def Allowed (s : TermBuffer) : TermCall → Prop
  | plain call => s.termchar = 0 ∨ call.Marks
  | term => s.termchar = 0
  | _ => True

/-- A call with its result leads from one buffer to another. -/
def Step (i : TermCall × Option ℤ) (s s' : TermBuffer) : Prop :=
  i.1.Allowed s ∧ i.1.run s = .ok (i.2, s')

end TermCall

/-- A sequence of calls, the first of which is an `ii_advance` on the first file. -/
def TermSession (content : List UInt8) (l : List (TermCall × Option ℤ)) (s : TermBuffer) : Prop :=
  ∃ l₀ b₀, Session content l₀ b₀ ∧ Trace TermCall.Step l ⟨b₀, 0⟩ s

variable {s s' : TermBuffer} {b b' : Buffer} {c : Cursor UInt8} {x : UInt8} {content : List UInt8}
  {l : List (TermCall × Option ℤ)} {r : Option ℤ} {read : Delivery}

/-! ## The terminator -/

/-- The second of two bytes that are written to the same place stays. -/
lemma Buffer.put_put (b : Buffer) (x y : UInt8) : (b.put x).put y = b.put y := by
  unfold Buffer.put
  rw [Function.update_idem]

/-- Writing a byte over itself changes nothing. -/
lemma Buffer.put_self (b : Buffer) : b.put (b.startBuf b.next) = b := by
  unfold Buffer.put
  rw [Function.update_eq_self]

/-- `ii_unterm` leaves a buffer without a terminator as it is. -/
lemma unterm_of_zero (h : s.termchar = 0) : s.unterm = s := if_neg fun hne => hne h

/-- `ii_unterm` writes the hidden character of a buffer with a terminator back. -/
lemma unterm_of_ne_zero (h : s.termchar ≠ 0) : s.unterm = ⟨s.buffer.put s.termchar, 0⟩ := if_pos h

/-- Behind `ii_unterm` no character is hidden. -/
lemma termchar_unterm (s : TermBuffer) : s.unterm.termchar = 0 := by
  by_cases h : s.termchar = 0
  · rw [unterm_of_zero h, h]
  · rw [unterm_of_ne_zero h]

/-- `ii_unterm` after `ii_term` restores the buffer. -/
lemma unterm_term (s : TermBuffer) : s.term.unterm = ⟨s.buffer, 0⟩ := by
  by_cases h : s.buffer.startBuf s.buffer.next = 0
  · have hself := s.buffer.put_self
    rw [h] at hself
    rw [unterm_of_zero h]
    unfold TermBuffer.term
    rw [hself, h]
  · rw [unterm_of_ne_zero h]
    unfold TermBuffer.term
    rw [Buffer.put_put, Buffer.put_self]

/-- The pointers are those of the buffer behind the terminator. -/
lemma buffer_unterm (s : TermBuffer) : ∃ y, s.unterm.buffer = s.buffer.put y := by
  by_cases h : s.termchar = 0
  · rw [unterm_of_zero h]
    exact ⟨_, s.buffer.put_self.symm⟩
  · rw [unterm_of_ne_zero h]
    exact ⟨_, rfl⟩

/-- `ii_look` at another character than the next one does not see a write to the next one. -/
lemma look_put (b : Buffer) (x : UInt8) {n : ℤ} (hn : n ≠ 1) : (b.put x).look n = b.look n := by
  unfold Buffer.look
  change (if (b.endBuf : ℤ) - b.next < n then _ else if n - 1 < -(b.next : ℤ) then 0
    else ((Function.update b.startBuf b.next x (b.next + (n - 1)).toNat).toNat : ℤ)) = _
  by_cases hend : (b.endBuf : ℤ) - b.next < n
  · rw [if_pos hend, if_pos hend]
    rfl
  · rw [if_neg hend, if_neg hend]
    by_cases hfront : n - 1 < -(b.next : ℤ)
    · rw [if_pos hfront, if_pos hfront]
    · rw [if_neg hfront, if_neg hfront, Function.update_of_ne (by omega)]

/-- `ii_look` at the next character shows it, or tells that the file is at its end. -/
lemma look_one (b : Buffer) : b.look 1 =
    if b.next < b.endBuf then ((b.startBuf b.next).toNat : ℤ) else if b.eofRead then -1 else 0 := by
  unfold Buffer.look
  by_cases hlt : b.next < b.endBuf
  · rw [if_neg (by omega), if_neg (by omega), if_pos hlt]
    rfl
  · rw [if_pos (by omega), if_neg hlt]

/-- `ii_lookahead` at the next character shows the one that is hidden. -/
lemma lookahead_one_term (s : TermBuffer) :
    s.term.lookahead 1 = if s.buffer.startBuf s.buffer.next ≠ 0
    then ((s.buffer.startBuf s.buffer.next).toNat : ℤ) else (s.buffer.put 0).look 1 := by
  unfold TermBuffer.lookahead TermBuffer.term
  dsimp only
  by_cases h : s.buffer.startBuf s.buffer.next = 0
  · rw [if_neg fun hne => hne.2 h, if_neg fun hne => hne h]
  · rw [if_pos ⟨rfl, h⟩, if_pos h]

/-- `ii_unterm` after `ii_term` restores every byte, and `ii_lookahead` after `ii_term` shows what
`ii_look` has shown before it if and only if the next character is in the buffer or the byte behind
the end of the buffer is a NUL. -/
theorem lookahead_term_iff (s : TermBuffer) : s.term.unterm.buffer = s.buffer ∧
    ((∀ n, s.term.lookahead n = s.buffer.look n) ↔
      s.buffer.next < s.buffer.endBuf ∨ s.buffer.startBuf s.buffer.next = 0) := by
  refine ⟨by rw [unterm_term], ?_⟩
  constructor
  · intro hall
    by_contra hnot
    push Not at hnot
    have hlook := hall 1
    rw [lookahead_one_term, if_pos hnot.2, look_one, if_neg (Nat.not_lt_of_le hnot.1)] at hlook
    have hpos : (s.buffer.startBuf s.buffer.next).toNat ≠ 0 :=
      fun h => hnot.2 (UInt8.toNat_inj.mp h)
    split at hlook <;> omega
  · intro hcond n
    by_cases hn : n = 1
    · subst hn
      rw [lookahead_one_term]
      by_cases h : s.buffer.startBuf s.buffer.next = 0
      · have hself := s.buffer.put_self
        rw [h] at hself
        rw [if_neg fun hne => hne h, hself]
      · rw [if_pos h, look_one, if_pos (hcond.resolve_right h)]
    · have hlook : s.term.lookahead n = (s.buffer.put 0).look n := if_neg fun h => hn h.1
      rw [hlook, look_put _ _ hn]

/-- A byte of the first file stands behind the end of the second one. -/
theorem not_lookahead_term : ¬ ∀ content l s, TermSession content l s →
    s.term.unterm.buffer = s.buffer ∧ ∀ n, s.term.lookahead n = s.buffer.look n := by
  intro hall
  obtain ⟨b, hb, hfirst⟩ : ∃ b, InputCall.Step (advance .full, some 10) (Buffer.newfile [97]) b ∧
      ∃ b', InputCall.Step (advance .full, some 98) (b.newfileOf (some (3, [98]))).2 b' ∧
        b'.look 1 = -1 ∧ (TermBuffer.term ⟨b', 0⟩).lookahead 1 = 97 :=
          ⟨_, rfl, _, rfl, by decide, by decide⟩
  obtain ⟨b', hb', hlook, hterm⟩ := hfirst
  have hsession : Session [97]
      [(advance .full, some 10), (newfile (some (3, [98])), some 3), (advance .full, some 98)] b' :=
    ⟨⟨_, _, rfl⟩, .cons hb (.cons rfl (.cons hb' (.nil b')))⟩
  have hsame := (hall [97] [] ⟨b', 0⟩ ⟨_, b', hsession, .nil _⟩).2 1
  rw [hterm, hlook] at hsame
  exact absurd hsame (by decide)

/-! ## The buffer behind the terminator -/

/-- If characters have been read since the start of the lexeme, those that a scanner may look at are
in the buffer. -/
def Buffer.Covered (b : Buffer) : Prop := b.smark < b.next → b.Ahead

/-- The buffer shows a text: some cursor follows it and the next character is covered. -/
def Buffer.Held (b : Buffer) : Prop := ∃ c, Tracks c b ∧ b.Covered

/-- An empty lexeme stays empty, or the characters ahead are in the buffer. -/
lemma Tracks.covered {call : InputCall} (h : Tracks c b) (hr : InputCall.Step (call, r) b b')
    (hb : b.Covered) : b'.Covered := by
  by_cases hahead : b.Ahead
  · by_cases hstays : call.Stays
    · exact fun _ => h.ahead hr hstays hahead
    · rcases call with (_ | p) | _ | _ | _ | - | - | - | - | - | _
      case newfile.some =>
        obtain ⟨-, rfl⟩ := Prod.mk.inj (Except.ok.inj hr)
        exact fun hlt => absurd hlt (Nat.lt_irrefl _)
      all_goals exact absurd trivial hstays
  · have heq : b.smark = b.next :=
      Nat.le_antisymm h.smark_le_next (Nat.le_of_not_lt fun hlt => hahead (hb hlt))
    have hempty : b.emark = b.next := Nat.le_antisymm h.emark_le (heq ▸ h.smark_le)
    have hsame : ∀ {b'' : Buffer}, b''.smark = b''.next → b''.Covered :=
      fun he hlt => absurd (he ▸ hlt) (Nat.lt_irrefl _)
    rcases call with opened | read | n | n | - | - | - | - | - | ⟨read, force⟩
    · obtain ⟨-, rfl⟩ := Prod.mk.inj (Except.ok.inj hr)
      rcases opened with - | p
      · exact hsame heq
      · exact hsame rfl
    · obtain ⟨x, -, hadv⟩ := step_advance.mp hr
      by_cases hx : x = -1
      · rcases h.advance hadv with ⟨-, rfl⟩ | ⟨y, -, hy, -⟩
        · exact hsame heq
        · omega
      · exact fun _ => h.ahead_of_advance hadv hx
    · obtain ⟨-, rfl⟩ := Prod.mk.inj (Except.ok.inj hr)
      exact hsame heq
    · obtain ⟨-, rfl⟩ := Prod.mk.inj (Except.ok.inj hr)
      rw [Buffer.pushback_eq n h.smark_le_next rfl]
      refine hsame ?_
      change b.smark = b.next - min n.toNat (b.next - b.smark)
      omega
    · obtain ⟨-, rfl⟩ := Prod.mk.inj (Except.ok.inj hr)
      exact hsame rfl
    · obtain ⟨-, rfl⟩ := Prod.mk.inj (Except.ok.inj hr)
      exact hsame heq
    · obtain ⟨-, rfl⟩ := Prod.mk.inj (Except.ok.inj hr)
      exact hsame heq
    · obtain ⟨-, rfl⟩ := Prod.mk.inj (Except.ok.inj hr)
      unfold Buffer.moveStart
      rw [if_pos (by omega)]
      exact hsame heq
    · obtain ⟨-, rfl⟩ := Prod.mk.inj (Except.ok.inj hr)
      exact hsame (heq.trans hempty.symm)
    · obtain ⟨x, -, hflush⟩ := step_flush.mp hr
      obtain ⟨-, rfl, -⟩ | ⟨-, rfl, -⟩ | ⟨-, rfl, -⟩ | ⟨-, -, -, got, hshift⟩ |
          ⟨-, -, -, got, hshift⟩ :=
        Buffer.flushBy_cases h.end_le hflush
      · exact hsame heq
      · exact hsame heq
      · exact hsame heq
      · refine hsame ?_
        rw [hshift.smark, hshift.next, heq]
      · refine hsame ?_
        rw [hshift.smark, hshift.next]
        rfl

/-- A call on the buffer that shows a text leaves one that shows a text. -/
lemma Buffer.Held.step {call : InputCall} (h : b.Held) (hr : InputCall.Step (call, r) b b') :
    b'.Held := by
  obtain ⟨c, hc, hcovered⟩ := h
  obtain ⟨c', -, hc'⟩ := hc.run hr
  exact ⟨c', hc', hc.covered hr hcovered⟩

/-- When a character is written over the next one, the buffer shows the text with this character. -/
lemma Tracks.put (h : Tracks c b) (hlt : b.next < b.endBuf) (x : UInt8) :
    ∃ c', Tracks c' (b.put x) := by
  have hleft := h.leftEdge_le_next
  have hpos := h.next_le_leftEdge
  have hnext := c.next_le
  refine ⟨{ c with text := c.text.set c.next x, next_le := by rw [List.length_set]; exact hnext },
    ?_⟩
  refine ⟨h.called, h.smark, h.emark, h.pmark, h.plength, h.next_le, h.end_le, fun i hi hi' =>
    ?_, ?_, h.more⟩
  · have hleft' : b.leftEdge ≤ i := hi
    change (c.text.set c.next x)[c.next + i - b.next]? =
      some (Function.update b.startBuf b.next x i)
    by_cases heq : i = b.next
    · have hlen : c.next < c.text.length := Cursor.look_one_eq_some (h.byte_next hlt)
      rw [heq, Function.update_self, Nat.add_sub_cancel, List.getElem?_set_self hlen]
    · rw [Function.update_of_ne heq, List.getElem?_set_ne (by omega)]
      exact h.byte i hleft' hi'
  · change b.file = (c.text.set c.next x).drop (c.next + b.endBuf - b.next)
    rw [List.drop_set_of_lt (by omega)]
    exact h.file

/-- The pushback and the write of `ii_unput`, when a character has been read since the start of the
lexeme. -/
lemma unputPlain_eq (hlt : s.buffer.smark < s.buffer.next) (x : UInt8) : s.unputPlain x =
    ⟨if s.buffer.smark + 1 < s.buffer.next then (s.buffer.pushback 1).2.put x
    else (s.buffer.pushback 1).2,
      s.termchar⟩ := by
  unfold TermBuffer.unputPlain
  have hmore : (s.buffer.pushback 1).1 = if s.buffer.smark + 1 < s.buffer.next then 1 else 0 := by
    rw [Buffer.pushback_eq 1 (Nat.le_of_lt hlt) rfl]
    have hmin : min (1 : ℤ).toNat (s.buffer.next - s.buffer.smark) = 1 := by
      have hone : (1 : ℤ).toNat = 1 := rfl
      omega
    rw [hmin]
    exact if_congr (by omega) rfl rfl
  dsimp only
  rw [hmore]
  by_cases hlong : s.buffer.smark + 1 < s.buffer.next
  · rw [if_pos hlong, if_pos hlong, if_pos (by decide)]
  · rw [if_neg hlong, if_neg hlong, if_neg (by decide)]

/-- `ii_input` is `ii_advance` and `ii_mark_end` on the buffer behind the terminator. -/
lemma input_eq (s : TermBuffer) (read : Delivery) :
    s.input read = (s.unterm.buffer.advanceBy read).map fun p =>
    (p.1, if s.termchar ≠ 0 then TermBuffer.term ⟨p.2.markEnd, 0⟩ else ⟨p.2.markEnd, 0⟩) := by
  unfold TermBuffer.input
  by_cases h : s.termchar ≠ 0
  · rw [if_pos h, termchar_unterm]
    simp only [if_pos h]
    cases s.unterm.buffer.advanceBy read <;> rfl
  · rw [if_neg h, not_not.mp h]
    simp only [unterm_of_zero (not_not.mp h)]
    cases s.buffer.advanceBy read <;> rfl

/-- `ii_flushbuf` is a forced `ii_flush` on the buffer behind the terminator. -/
lemma flushbuf_eq (s : TermBuffer) (read : Delivery) :
    s.flushbuf read = (s.unterm.buffer.flushBy read true).map fun p => (p.1, ⟨p.2, 0⟩) := by
  have hsame : (if s.termchar ≠ 0 then s.unterm else s) = s.unterm := by
    by_cases h : s.termchar = 0
    · rw [if_neg fun hne => hne h, unterm_of_zero h]
    · rw [if_pos h]
  unfold TermBuffer.flushbuf
  dsimp only
  rw [hsame, termchar_unterm]
  cases s.unterm.buffer.flushBy read true <;> rfl

/-- Whether there is a terminator or not, the buffer behind it is the same. -/
lemma unterm_ite (p : Prop) [Decidable p] (b : Buffer) :
    (if p then TermBuffer.term ⟨b, 0⟩ else ⟨b, 0⟩ : TermBuffer).unterm.buffer = b := by
  by_cases h : p
  · rw [if_pos h, unterm_term]
  · rw [if_neg h, unterm_of_zero rfl]

/-- `ii_unput` works on the buffer behind the terminator. -/
lemma unput_eq (s : TermBuffer) (x : UInt8) : s.unput x =
    if s.termchar ≠ 0 then TermBuffer.term ⟨(s.unterm.unputPlain x).buffer, 0⟩ else
      ⟨(s.unterm.unputPlain x).buffer, 0⟩ := by
  have hzero : (s.unterm.unputPlain x).termchar = 0 := termchar_unterm s
  unfold TermBuffer.unput
  by_cases h : s.termchar ≠ 0
  · rw [if_pos h, if_pos h, ← hzero]
  · rw [if_neg h, if_neg h, ← hzero, unterm_of_zero (not_not.mp h)]

/-- The pushback and the write of `ii_unput` keep a buffer that shows a text. -/
lemma Buffer.Held.unputPlain (h : b.Held) (x : UInt8) :
    (TermBuffer.unputPlain ⟨b, 0⟩ x).buffer.Held := by
  obtain ⟨c, hc, -⟩ := id h
  have hstep : InputCall.Step (.pushback 1, some (b.pushback 1).1) b (b.pushback 1).2 := rfl
  have hback := h.step hstep
  by_cases hlt : b.smark < b.next
  · rw [unputPlain_eq hlt]
    by_cases hlong : b.smark + 1 < b.next
    · obtain ⟨c', hc', hcovered'⟩ := hback
      have hnext : (b.pushback 1).2.next < (b.pushback 1).2.endBuf := by
        have hle := hc.next_le
        rw [Buffer.pushback_eq 1 (Nat.le_of_lt hlt) rfl]
        change b.next - min (1 : ℤ).toNat (b.next - b.smark) < b.endBuf
        have hone : (1 : ℤ).toNat = 1 := rfl
        omega
      obtain ⟨c'', hc''⟩ := hc'.put hnext x
      change (if b.smark + 1 < b.next then (b.pushback 1).2.put x else (b.pushback 1).2).Held
      rw [if_pos hlong]
      exact ⟨c'', hc'', hcovered'⟩
    · change (if b.smark + 1 < b.next then (b.pushback 1).2.put x else (b.pushback 1).2).Held
      rw [if_neg hlong]
      exact hback
  · have hmore : (b.pushback 1).1 = 0 := by
      rw [Buffer.pushback_eq 1 hc.smark_le_next rfl]
      exact if_neg (by omega)
    unfold TermBuffer.unputPlain
    dsimp only
    rw [hmore, if_neg (by decide)]
    exact hback

/-- A call that leaves the next character where it is does not depend on it. -/
lemma InputCall.Step.put {call : InputCall} (hr : InputCall.Step (call, r) b b')
    (hmarks : call.Marks) (x : UInt8) : ∃ r', InputCall.Step (call, r') (b.put x) (b'.put x) := by
  rcases call with _ | _ | n | _ | _ | _ | _ | _ | _ | _
  all_goals first | exact absurd hmarks id | obtain ⟨-, rfl⟩ := Prod.mk.inj (Except.ok.inj hr)
  case moveStart =>
    refine ⟨none, congrArg (fun q => Except.ok (none, q)) ?_⟩
    unfold Buffer.moveStart
    by_cases hle : b.emark ≤ b.smark
    · rw [if_pos hle]
      exact if_pos hle
    · rw [if_neg hle]
      exact if_neg hle
  case look => exact ⟨some ((b.put x).look n), rfl⟩
  all_goals exact ⟨none, rfl⟩

/-- A computation whose value is changed comes from a computation with a value. -/
lemma exists_of_map_eq_ok {α β : Type} {f : α → β} {e : Except InputFault α} {y : β}
    (h : e.map f = .ok y) : ∃ z, e = .ok z ∧ f z = y := by
  cases e with
  | error fault => cases h
  | ok z => exact ⟨z, rfl, Except.ok.inj h⟩

/-- Step lemma: behind the terminator there is always a buffer that shows a text. -/
lemma TermCall.Step.held {i : TermCall × Option ℤ} (hr : TermCall.Step i s s')
    (h : s.unterm.buffer.Held) : s'.unterm.buffer.Held := by
  obtain ⟨call, r⟩ := i
  obtain ⟨hallowed, hrun⟩ := hr
  rcases call with call | - | - | read | x | n | read
  · obtain ⟨p, hcall, hp⟩ := exists_of_map_eq_ok hrun
    obtain ⟨rfl, rfl⟩ := Prod.mk.inj hp
    by_cases hzero : s.termchar = 0
    · rw [unterm_of_zero hzero] at h
      rw [unterm_of_zero (s := ⟨p.2, s.termchar⟩) hzero]
      exact h.step (r := p.1) hcall
    · rw [unterm_of_ne_zero hzero] at h
      rw [unterm_of_ne_zero (s := ⟨p.2, s.termchar⟩) hzero]
      obtain ⟨r', hr'⟩ :=
        InputCall.Step.put (r := p.1) hcall (hallowed.resolve_left hzero) s.termchar
      exact h.step hr'
  · obtain ⟨-, rfl⟩ := Prod.mk.inj (Except.ok.inj hrun)
    have hzero : s.termchar = 0 := hallowed
    rw [unterm_of_zero hzero] at h
    rw [unterm_term]
    exact h
  · obtain ⟨-, rfl⟩ := Prod.mk.inj (Except.ok.inj hrun)
    rw [unterm_of_zero (termchar_unterm s)]
    exact h
  · obtain ⟨p, hinput, hp⟩ := exists_of_map_eq_ok hrun
    obtain ⟨-, rfl⟩ := Prod.mk.inj hp
    rw [input_eq] at hinput
    obtain ⟨⟨y, b'⟩, hadv, rfl⟩ := exists_of_map_eq_ok hinput
    have hnext : b'.Held := h.step (step_advance.mpr ⟨y, rfl, hadv⟩)
    rw [unterm_ite]
    have hmark : InputCall.Step (.markEnd, none) b' b'.markEnd := rfl
    exact hnext.step hmark
  · obtain ⟨-, rfl⟩ := Prod.mk.inj (Except.ok.inj hrun)
    rw [unput_eq, unterm_ite]
    have hzero : s.unterm = ⟨s.unterm.buffer, 0⟩ := by rw [← termchar_unterm s]
    rw [hzero]
    exact h.unputPlain x
  · obtain ⟨-, rfl⟩ := Prod.mk.inj (Except.ok.inj hrun)
    exact h
  · obtain ⟨p, hflush, hp⟩ := exists_of_map_eq_ok hrun
    obtain ⟨-, rfl⟩ := Prod.mk.inj hp
    rw [flushbuf_eq] at hflush
    obtain ⟨⟨y, b'⟩, hflush', rfl⟩ := exists_of_map_eq_ok hflush
    exact h.step (step_flush.mpr ⟨y, rfl, hflush'⟩)

/-! ## A character that is given back -/

/-- The character that is the next one after `ii_unput`. -/
def Buffer.unputChar (b : Buffer) (x : UInt8) : UInt8 := if b.smark + 1 < b.next then x else
    b.startBuf (b.next - 1)

/-- `ii_unput` has put its character in front of the input. -/
structure TermBuffer.Unput (s : TermBuffer) (x : UInt8) : Prop where
  /-- `ii_lookahead(1)` returns the character that was put back. -/
  lookahead : (s.unput x).lookahead 1 = x.toNat
  /-- `ii_input` returns it, and the rest of the input is what it has been. -/
  input : ∀ read, ∃ s', (s.unput x).input read = .ok ((x.toNat : ℤ), s') ∧
    s'.unterm.buffer.unread = s.unterm.buffer.unread

/-- The pushback and the write of `ii_unput` are a pushback and a write of the byte that is there or
of the character. -/
lemma buffer_unputPlain (hlt : b.smark < b.next) (x : UInt8) :
    (TermBuffer.unputPlain ⟨b, 0⟩ x).buffer = (b.pushback 1).2.put (b.unputChar x) := by
  rw [unputPlain_eq hlt]
  change (if b.smark + 1 < b.next then (b.pushback 1).2.put x else (b.pushback 1).2) = _
  unfold Buffer.unputChar
  by_cases hlong : b.smark + 1 < b.next
  · rw [if_pos hlong, if_pos hlong]
  · have hmin : min (1 : ℤ).toNat (b.next - b.smark) = 1 := by
      have hone : (1 : ℤ).toNat = 1 := rfl
      omega
    have hself := (b.pushback 1).2.put_self
    have hbyte : (b.pushback 1).2.startBuf (b.pushback 1).2.next = b.startBuf (b.next - 1) := by
      rw [Buffer.pushback_eq 1 (Nat.le_of_lt hlt) hmin.symm]
    rw [if_neg hlong, if_neg hlong, ← hbyte, hself]

/-- `ii_lookahead` at a character that is in the buffer. -/
lemma lookahead_one_ite (p : Prop) [Decidable p] (hlt : b.next < b.endBuf) :
    (if p then TermBuffer.term ⟨b, 0⟩ else ⟨b, 0⟩ : TermBuffer).lookahead 1 =
    ((b.startBuf b.next).toNat : ℤ) := by
  by_cases hp : p
  · rw [if_pos hp, lookahead_one_term]
    by_cases hzero : b.startBuf b.next = 0
    · have hself := b.put_self
      rw [hzero] at hself
      rw [if_neg fun hne => hne hzero, hself, look_one, if_pos hlt]
    · rw [if_pos hzero]
  · rw [if_neg hp]
    change (if (1 : ℤ) = 1 ∧ (0 : UInt8) ≠ 0 then _ else b.look 1) = _
    rw [if_neg fun h => h.2 rfl, look_one, if_pos hlt]

/-- Behind a character that is written over the last one that has been returned, the input is what
it has been. -/
lemma unread_unputPlain (hlt : b.smark < b.next) (x : UInt8) :
    ((b.pushback 1).2.put x).take.2.unread = b.unread := by
  have hmin : min (1 : ℤ).toNat (b.next - b.smark) = 1 := by
    have hone : (1 : ℤ).toNat = 1 := rfl
    omega
  rw [Buffer.pushback_eq 1 (Nat.le_of_lt hlt) hmin.symm]
  have hback : b.next - 1 + 1 = b.next := by omega
  change ((List.range (b.endBuf - (b.next - 1 + 1))).map
    fun i : ℕ => Function.update b.startBuf (b.next - 1) x (b.next - 1 + 1 + i)) ++ b.file =
    b.unread
  rw [hback]
  unfold Buffer.unread Buffer.window
  congr 1
  refine List.map_congr_left fun i _ => ?_
  rw [Function.update_of_ne (by omega)]

/-- In front of the input there is the character that was there, or the one that has been given
back. -/
lemma Buffer.Held.unput (h : s.unterm.buffer.Held) (hlt : s.buffer.smark < s.buffer.next)
    (x : UInt8) : (s.unput x).lookahead 1 = (s.unterm.buffer.unputChar x).toNat ∧
      ∀ read, ∃ s', (s.unput x).input read = .ok (((s.unterm.buffer.unputChar x).toNat : ℤ), s') ∧
        s'.unterm.buffer.unread = s.unterm.buffer.unread := by
  obtain ⟨y, hy⟩ := buffer_unterm s
  have hlt' : s.unterm.buffer.smark < s.unterm.buffer.next := by
    rw [hy]
    exact hlt
  have hzero : s.unterm = ⟨s.unterm.buffer, 0⟩ := by rw [← termchar_unterm s]
  set b := s.unterm.buffer with hb
  obtain ⟨c, hc, hcovered⟩ := h
  have hahead : b.Ahead := hcovered hlt'
  have hmin : min (1 : ℤ).toNat (b.next - b.smark) = 1 := by
    have hone : (1 : ℤ).toNat = 1 := rfl
    omega
  have hback := Buffer.pushback_eq 1 (Nat.le_of_lt hlt') hmin.symm
  obtain ⟨b', hb'⟩ : ∃ b', b' = (b.pushback 1).2.put (b.unputChar x) := ⟨_, rfl⟩
  have hunput : s.unput x = if s.termchar ≠ 0 then TermBuffer.term ⟨b', 0⟩ else ⟨b', 0⟩ := by
    rw [unput_eq, hzero, buffer_unputPlain hlt', hb']
  have hnext : b'.next = b.next - 1 := by rw [hb', hback]; rfl
  have hend : b'.endBuf = b.endBuf := by rw [hb', hback]; rfl
  have heof : b'.eofRead = b.eofRead := by rw [hb', hback]; rfl
  have hcalled : b'.beenCalled = true := by
    rw [hb', hback]
    exact hc.called
  have hbyte : b'.startBuf b'.next = b.unputChar x := by
    rw [hb']
    exact Function.update_self _ _ _
  have hle := hc.next_le
  have hbefore : b'.next < b'.endBuf := by omega
  have hunread : b'.take.2.unread = b.unread := by
    rw [hb']
    exact unread_unputPlain hlt' _
  refine ⟨?_, fun read => ?_⟩
  · rw [hunput, lookahead_one_ite _ hbefore, hbyte]
  · have hadv : b'.advanceBy read = .ok b'.take := by
      refine advanceBy_of_safe hcalled hbefore fun hnot => ?_
      have hbound := hahead (heof ▸ hnot)
      omega
    have hinput : (s.unput x).input read = .ok ((b.unputChar x).toNat, if (s.unput x).termchar ≠ 0
        then TermBuffer.term ⟨b'.take.2.markEnd, 0⟩ else ⟨b'.take.2.markEnd, 0⟩) := by
      have hbuffer : (s.unput x).unterm.buffer = b' := by rw [hunput, unterm_ite]
      rw [input_eq, hbuffer, hadv, ← hbyte]
      rfl
    refine ⟨_, hinput, ?_⟩
    rw [unterm_ite]
    exact hunread

/-- Run lemma: in every session there is always a buffer that shows a text behind the terminator. -/
lemma TermSession.held (h : TermSession content l s) : s.unterm.buffer.Held := by
  obtain ⟨l₀, b₀, hsession, htrace⟩ := h
  refine htrace.invariant (fun s => s.unterm.buffer.Held)
    (fun i _ s s' hs hr => TermCall.Step.held hr hs) ?_
  rw [unterm_of_zero rfl]
  refine (session_iff.mp hsession).2.invariant Buffer.Held (fun i _ b b' hb hr => hb.step hr) ?_
  exact ⟨_, .opened content, fun hlt => absurd hlt (Nat.lt_irrefl _)⟩

/-- After `ii_unput` in a lexeme that is not empty, `ii_lookahead` and `ii_input` give its character
and the input behind it is unchanged if and only if two characters have been read since the start of
the lexeme, or the last one that has been read is this character already. -/
theorem unput_iff (h : TermSession content l s) (hlex : s.buffer.smark < s.buffer.emark) :
    s.Unput x ↔ s.buffer.smark + 1 < s.buffer.next ∨ s.unterm.buffer.startBuf (s.buffer.next - 1) =
    x := by
  obtain ⟨y, hy⟩ := buffer_unterm s
  have hheld := h.held
  have hlt : s.buffer.smark < s.buffer.next := by
    obtain ⟨c, hc, -⟩ := hheld
    have hle := hc.emark_le
    rw [hy] at hle
    exact Nat.lt_of_lt_of_le hlex hle
  obtain ⟨hlook, hinput⟩ := hheld.unput hlt x
  have hchar : s.unterm.buffer.unputChar x = x ↔
      s.buffer.smark + 1 < s.buffer.next ∨ s.unterm.buffer.startBuf (s.buffer.next - 1) = x := by
    rw [hy]
    unfold Buffer.unputChar
    change (if s.buffer.smark + 1 < s.buffer.next then x else _) = x ↔ _
    by_cases hlong : s.buffer.smark + 1 < s.buffer.next
    · rw [if_pos hlong]
      exact iff_of_true rfl (.inl hlong)
    · rw [if_neg hlong]
      exact ⟨.inr, fun hor => hor.resolve_left hlong⟩
  rw [← hchar]
  constructor
  · intro hunput
    have hsame := hlook.symm.trans hunput.lookahead
    exact UInt8.toNat_inj.mp (by exact_mod_cast hsame)
  · intro hsame
    rw [hsame] at hlook hinput
    exact ⟨hlook, hinput⟩

/-- A lexeme with one character can be read, so that the buffer has room before the next
character. -/
lemma exists_lexeme : ∃ l s, TermSession [97] l s ∧ s.termchar = 0 ∧
    s.buffer.smark < s.buffer.emark ∧ s.buffer.smark + 1 = s.buffer.next ∧
    s.buffer.startBuf (s.buffer.next - 1) = 97 := by
  obtain ⟨b₀, hb₀, hfirst⟩ :
      ∃ b₀, InputCall.Step (advance .full, some 10) (Buffer.newfile [97]) b₀ ∧
        ∃ s, (TermBuffer.input ⟨b₀.markStart, 0⟩ .full) = .ok (97, s) ∧ s.termchar = 0 ∧
        s.buffer.smark < s.buffer.emark ∧ s.buffer.smark + 1 = s.buffer.next ∧
        s.buffer.startBuf (s.buffer.next - 1) = 97 := ⟨_, rfl, _, rfl, rfl, by decide, rfl, rfl⟩
  obtain ⟨s, hs, hfacts⟩ := hfirst
  refine ⟨[(.plain .markStart, none), (.input .full, some 97)], s, ?_, hfacts⟩
  refine ⟨[(advance .full, some 10)], b₀, ⟨⟨_, _, rfl⟩, .cons hb₀ (.nil b₀)⟩, ?_⟩
  have hinput : TermCall.Step (.input .full, some 97) ⟨b₀.markStart, 0⟩ s :=
    ⟨trivial, congrArg (Except.map fun p : ℤ × TermBuffer => (some p.1, p.2)) hs⟩
  exact .cons ⟨.inl rfl, rfl⟩ (.cons hinput (.nil s))

/-- When the only character of a lexeme is given back, the buffer is as before. -/
theorem unput_iff_same : ∃ l s, TermSession [97] l s ∧ s.buffer.smark < s.buffer.emark ∧
    s.Unput 97 := by
  obtain ⟨l, s, hsession, hzero, hlex, -, hbyte⟩ := exists_lexeme
  refine ⟨l, s, hsession, hlex, (unput_iff hsession hlex).mpr (.inr ?_)⟩
  rw [unterm_of_zero hzero]
  exact hbyte

/-- The only character of a lexeme is not replaced by another one. -/
theorem not_unput : ¬ ∀ content l s x, TermSession content l s → s.buffer.smark < s.buffer.emark →
    x ≠ 0 → s.Unput x := by
  intro hall
  obtain ⟨l, s, hsession, hzero, hlex, hone, hbyte⟩ := exists_lexeme
  have hunput := hall _ _ _ 98 hsession hlex (by decide)
  have hlook := (hsession.held.unput (by omega) 98).1
  have hchar : s.unterm.buffer.unputChar 98 = 97 := by
    rw [unterm_of_zero hzero]
    unfold Buffer.unputChar
    rw [if_neg (by omega), hbyte]
  rw [hchar, hunput.lookahead] at hlook
  exact absurd hlook (by decide)

end Lex
