import Cgkits.Lex.Driver

/-!
# What the loop finds in the buffer (`lex.m`)

`ii_look` can only show what is in the buffer.  The loop of the scanner relies on more than the
order of the marks: the next `_MAX_LOOKAHEAD` characters have to be in the buffer, or the end of the
file has been read.

This holds in every state of a run (`Run.supplied`), when `read` delivers all that it can and the
actions stay in the file that is being read.  `yy_wrap` may open another file, as the driver calls
`ii_advance` behind it.
-/

namespace Lex

open InputCall

variable {s s' : TermBuffer} {b b' : Buffer} {c c' : Cursor UInt8} {content : List UInt8}
  {r : Option ℤ} {call : InputCall}

/-! ## The calls of the code of the user -/

/-- If characters are kept in front of the next one, those that a scanner may look at are in the
buffer. -/
def Buffer.Kept (b : Buffer) : Prop := b.leftEdge < b.next → b.Ahead

/-- When all marks of the cursor are at the next character, a call that does not advance leaves them
there. -/
lemma InputCall.Spec.marks (h : InputCall.Spec (call, r) c c') (hc : c.pmark.getD c.smark = c.next)
    (hcall : ∀ read, call ≠ .advance read) : c'.pmark.getD c'.smark = c'.next := by
  have hle := c.smark_le
  have hle' := c.emark_le
  have hpmark := c.pmark_le
  have hsmark : c.smark = c.next := by
    rcases hp : c.pmark with - | p
    · rw [hp] at hc
      exact hc
    · rw [hp, Option.getD_some] at hc
      have hmark := hpmark p hp
      omega
  have hstart : c.markStart.pmark.getD c.markStart.smark = c.markStart.next := by
    change c.pmark.getD c.next = c.next
    rw [← hsmark, hc, hsmark]
  unfold InputCall.Spec at h
  rcases call with (- | ⟨fd, file⟩) | read | n | n | - | - | - | - | - | ⟨read, force⟩
  case newfile.none | newfile.some =>
    obtain ⟨-, rfl⟩ := h
    first | exact hc | rfl
  case advance => exact absurd rfl (hcall read)
  case pushback =>
    obtain ⟨-, rfl⟩ := h
    change c.pmark.getD c.smark = max c.smark (c.next - n.toNat)
    omega
  case flush =>
    rcases h with rfl | ⟨-, rfl⟩
    · exact hc
    · rfl
  all_goals obtain rfl := h
  case look | markEnd => exact hc
  case markStart => exact hstart
  case markPrev => exact hsmark
  case moveStart =>
    unfold Cursor.moveStart
    rw [dif_neg (by omega)]
    exact hc
  case moveBack =>
    change c.pmark.getD c.smark = c.emark
    omega

/-- A call keeps that what a scanner may look at is in the buffer, unless nothing is kept in front
of the next character. -/
lemma Tracks.kept (h : Tracks c b) (hr : InputCall.Step (call, r) b b') (hb : b.Kept) :
    b'.Kept := by
  by_cases hahead : b.Ahead
  · by_cases hstays : call.Stays
    · exact fun _ => h.ahead hr hstays hahead
    · rcases call with (- | p) | _ | _ | _ | _ | _ | _ | _ | _ | _
      case newfile.some =>
        obtain ⟨-, rfl⟩ := Prod.mk.inj (Except.ok.inj hr)
        exact fun hlt => absurd hlt (Nat.lt_irrefl _)
      all_goals exact absurd trivial hstays
  · by_cases hcall : ∃ read, call = .advance read
    · obtain ⟨read, rfl⟩ := hcall
      obtain ⟨x, -, hadvance⟩ := step_advance.mp hr
      by_cases hx : x = -1
      · rcases h.advance hadvance with ⟨-, rfl⟩ | ⟨y, -, hy, -⟩
        · exact hb
        · omega
      · exact fun _ => h.ahead_of_advance hadvance hx
    · -- all marks are at the next character, and stay there
      have hedge : b.leftEdge = b.next :=
        Nat.le_antisymm h.leftEdge_le_next (Nat.le_of_not_lt fun hlt => hahead (hb hlt))
      have hadd := h.leftEdge_add
      have hcursor : c.pmark.getD c.smark = c.next := by omega
      obtain ⟨c', hspec, hc'⟩ := h.run hr
      have hmarks := hspec.marks hcursor fun read heq => hcall ⟨read, heq⟩
      have hadd' := hc'.leftEdge_add
      exact fun hlt => absurd hlt (by omega)

/-- The calls of the input system that a call makes which knows the terminator. -/
def TermCall.Uses (P : InputCall → Prop) : TermCall → Prop
  | plain call => P call
  | input read => P (.advance read) ∧ P .markEnd
  | unput _ => P (.pushback 1)
  | flushbuf read => P (.flush read true)
  | _ => True

/-- Step lemma: what the calls of the input system keep of the buffer behind the terminator, and
what does not depend on the next byte, is kept by the calls that know the terminator. -/
lemma TermCall.Step.keeps {P : InputCall → Prop} {Q : Buffer → Prop} {i : TermCall × Option ℤ}
    (hstep : ∀ call r b b', P call → b.Held → Q b → InputCall.Step (call, r) b b' → Q b')
    (hput : ∀ b x, Q b ↔ Q (b.put x)) (hcalls : i.1.Uses P) (hr : TermCall.Step i s s')
    (hheld : s.unterm.buffer.Held) (h : Q s.unterm.buffer) : Q s'.unterm.buffer := by
  have hbehind : ∀ s : TermBuffer, Q s.unterm.buffer ↔ Q s.buffer := by
    intro s
    obtain ⟨y, hy⟩ := buffer_unterm s
    rw [hy, ← hput]
  obtain ⟨call, r⟩ := i
  obtain ⟨hallowed, hrun⟩ := hr
  rcases call with call | - | - | read | x | n | read
  · obtain ⟨p, hcall, hp⟩ := exists_of_map_eq_ok hrun
    obtain ⟨rfl, rfl⟩ := Prod.mk.inj hp
    rw [hbehind]
    by_cases hzero : s.termchar = 0
    · rw [unterm_of_zero hzero] at h hheld
      exact hstep call p.1 _ _ hcalls hheld h hcall
    · rw [unterm_of_ne_zero hzero] at h hheld
      obtain ⟨r', hr'⟩ :=
        InputCall.Step.put (r := p.1) hcall (hallowed.resolve_left hzero) s.termchar
      exact (hput _ _).mpr (hstep call r' _ _ hcalls hheld h hr')
  · obtain ⟨-, rfl⟩ := Prod.mk.inj (Except.ok.inj hrun)
    rw [hbehind] at h ⊢
    exact (hput _ _).mp h
  · obtain ⟨-, rfl⟩ := Prod.mk.inj (Except.ok.inj hrun)
    rw [hbehind]
    exact h
  · obtain ⟨p, hinput, hp⟩ := exists_of_map_eq_ok hrun
    obtain ⟨-, rfl⟩ := Prod.mk.inj hp
    rw [input_eq] at hinput
    obtain ⟨⟨y, b'⟩, hadvance, rfl⟩ := exists_of_map_eq_ok hinput
    rw [unterm_ite]
    have hadv : InputCall.Step (.advance read, some y) s.unterm.buffer b' :=
      step_advance.mpr ⟨y, rfl, hadvance⟩
    have hmark : InputCall.Step (.markEnd, none) b' b'.markEnd := rfl
    exact hstep _ _ _ _ hcalls.2 (hheld.step hadv) (hstep _ _ _ _ hcalls.1 hheld h hadv) hmark
  · obtain ⟨-, rfl⟩ := Prod.mk.inj (Except.ok.inj hrun)
    rw [unput_eq, unterm_ite]
    have hback : InputCall.Step (.pushback 1, some (s.unterm.buffer.pushback 1).1) s.unterm.buffer
        (s.unterm.buffer.pushback 1).2 := rfl
    have hpushed := hstep _ _ _ _ hcalls hheld h hback
    unfold TermBuffer.unputPlain
    dsimp only
    split
    · exact (hput _ _).mp hpushed
    · exact hpushed
  · obtain ⟨-, rfl⟩ := Prod.mk.inj (Except.ok.inj hrun)
    exact h
  · obtain ⟨p, hflush, hp⟩ := exists_of_map_eq_ok hrun
    obtain ⟨-, rfl⟩ := Prod.mk.inj hp
    rw [flushbuf_eq] at hflush
    obtain ⟨⟨y, b'⟩, hflush', rfl⟩ := exists_of_map_eq_ok hflush
    have hstepped : InputCall.Step (.flush read true, some y) s.unterm.buffer b' :=
      step_flush.mpr ⟨y, rfl, hflush'⟩
    rw [unterm_of_zero rfl]
    exact hstep _ _ _ _ hcalls hheld h hstepped

/-- Run lemma: what the calls keep is kept by a sequence of calls, and the buffer still shows a
text. -/
lemma TermCall.keeps {P : InputCall → Prop} {Q : Buffer → Prop} {l : List (TermCall × Option ℤ)}
    (hstep : ∀ call r b b', P call → b.Held → Q b → InputCall.Step (call, r) b b' → Q b')
    (hput : ∀ b x, Q b ↔ Q (b.put x)) (hcalls : ∀ i ∈ l, i.1.Uses P)
    (hr : Trace TermCall.Step l s s') (hheld : s.unterm.buffer.Held) (h : Q s.unterm.buffer) :
    s'.unterm.buffer.Held ∧ Q s'.unterm.buffer := by
  refine hr.invariant (fun s => s.unterm.buffer.Held ∧ Q s.unterm.buffer) ?_ ⟨hheld, h⟩
  rintro i hi s s' ⟨hheld, h⟩ hcall
  exact ⟨TermCall.Step.held hcall hheld, TermCall.Step.keeps hstep hput (hcalls i hi) hcall hheld h⟩

/-! ## The states of a run -/

/-- The buffer shows a text, the characters that a scanner may look at are in it, and at the end of
the file nothing of the file is left. -/
structure Buffer.Supplied (b : Buffer) : Prop where
  /-- The buffer shows a text that goes on in the file. -/
  held : b.Held
  /-- What a scanner may look at is in the buffer. -/
  ahead : b.Ahead
  /-- At the end of the file nothing is left of it. -/
  drained : b.Drained

/-- The call stays in the file, and `read` delivers all that it can. -/
def InputCall.Quiet (call : InputCall) : Prop := call.Stays ∧ call.Full

/-- A call that stays in the file keeps the buffer supplied. -/
lemma Buffer.Supplied.step (h : b.Supplied) (call : InputCall) (hcall : call.Quiet)
    (hr : InputCall.Step (call, r) b b') : b'.Supplied := by
  obtain ⟨c, hc, -⟩ := id h.held
  exact ⟨h.held.step hr, hc.ahead hr hcall.1 h.ahead, hc.drained hr hcall.2 h.drained⟩

/-- `ii_mark_start` keeps the buffer supplied as well. -/
lemma Buffer.Supplied.markStart (h : b.Supplied) : b.markStart.Supplied :=
  h.step .markStart ⟨trivial, trivial⟩ (r := none) rfl

/-- `ii_mark_end` keeps the buffer supplied as well. -/
lemma Buffer.Supplied.markEnd (h : b.Supplied) : b.markEnd.Supplied :=
  h.step .markEnd ⟨trivial, trivial⟩ (r := none) rfl

/-- `ii_pushback` keeps the buffer supplied as well. -/
lemma Buffer.Supplied.pushback (h : b.Supplied) (n : ℤ) : (b.pushback n).2.Supplied :=
  h.step (.pushback n) ⟨trivial, trivial⟩ (r := some (b.pushback n).1) rfl

/-- So does `ii_advance`, if `read` delivers all that it can. -/
lemma Buffer.Supplied.advanceBy {x : ℤ} (h : b.Supplied) (hr : b.advanceBy .full = .ok (x, b')) :
    b'.Supplied :=
  h.step (.advance .full) ⟨trivial, rfl⟩ (step_advance.mpr ⟨x, rfl, hr⟩)

namespace Yylex

variable {t : ScanTables} {s s' s₀ : Yylex} {i : Label} {l : List (Yylex × Label)}

/-- Every `read` delivers all that it can, and the code of the user opens no file but in
`yy_wrap`. -/
def Label.Quiet : Label → Prop
  | .turn read => read = .full
  | .action calls => ∀ i ∈ calls, i.1.Uses InputCall.Quiet
  | .wrap calls read => (∀ i ∈ calls, i.1.Uses InputCall.Full) ∧ read = .full

/-- Trimming the lexeme for its anchors keeps the buffer supplied. -/
lemma supplied_trim {inp : Buffer} (h : inp.Supplied) (yyanchor : ℕ) :
    (trim yyanchor inp).Supplied := by
  have hback : inp.moveBack.Supplied := h.step .moveBack ⟨trivial, trivial⟩ (r := none) rfl
  have hpushed :
      Buffer.Supplied (if yyanchor &&& 2 ≠ 0 then (inp.moveBack.pushback 1).2
      else inp.moveBack) := by
    split
    · exact hback.pushback 1
    · exact hback
  unfold trim
  dsimp only
  split
  · exact hpushed.step .moveStart ⟨trivial, trivial⟩ (r := none) rfl
  · exact hpushed

/-- The end of the loop keeps the buffer supplied. -/
lemma supplied_again (h : s.inp.Supplied) : s.again.inp.Supplied := by
  unfold again
  split
  · exact h.markStart
  · exact h

/-- `ii_advance` with its forced flush keeps the buffer supplied. -/
lemma supplied_advance {inp inp' : Buffer} (h : inp.Supplied) (hr : advance .full inp = .ok inp') :
    inp'.Supplied := by
  unfold advance at hr
  simp only [Bind.bind, Except.bind] at hr
  split at hr
  · cases hr
  rename_i p hfirst
  have hp : p.2.Supplied := h.advanceBy hfirst
  split at hr
  · split at hr
    · cases hr
    · rename_i q hflush
      obtain rfl := Except.ok.inj hr
      exact hp.step (.flush .full true) ⟨trivial, rfl⟩ (step_flush.mpr ⟨q.1, rfl, hflush⟩)
  · obtain rfl := Except.ok.inj hr
    exact hp

/-- The code of the user keeps the buffer supplied, when it stays in the file. -/
lemma Acts.supplied {calls : List (TermCall × Option ℤ)} {inp : TermBuffer} {inp' : Buffer}
    (h : Acts calls inp inp') (hcalls : ∀ i ∈ calls, i.1.Uses InputCall.Quiet)
    (hinp : inp.unterm.buffer.Supplied) : inp'.Supplied := by
  obtain ⟨s, htrace, rfl⟩ := h
  have hstep : ∀ call r b b', InputCall.Quiet call → b.Held → b.Ahead ∧ b.Drained →
      InputCall.Step (call, r) b b' → b'.Ahead ∧ b'.Drained := by
    rintro call r b b' ⟨hstays, hfull⟩ ⟨c, hc, -⟩ ⟨hahead, hdrained⟩ hr
    exact ⟨hc.ahead hr hstays hahead, hc.drained hr hfull hdrained⟩
  obtain ⟨hheld, hahead, hdrained⟩ :=
    TermCall.keeps (Q := fun b => b.Ahead ∧ b.Drained) hstep (fun _ _ => Iff.rfl)
    hcalls htrace hinp.held ⟨hinp.ahead, hinp.drained⟩
  exact ⟨hheld, hahead, hdrained⟩

/-- Behind `yy_wrap`, whatever file it has opened, `ii_advance` supplies the buffer. -/
lemma supplied_wrap {inp file inp' : Buffer} {r : ℤ} {calls : List (TermCall × Option ℤ)}
    (h : inp.Supplied) (hcalls : Trace TermCall.Step calls ⟨inp, 0⟩ ⟨file, 0⟩)
    (hfull : ∀ i ∈ calls, i.1.Uses InputCall.Full) (hr : file.advanceBy .full = .ok (r, inp')) :
    inp'.Supplied := by
  have hstep : ∀ call r b b', InputCall.Full call → b.Held → b.Kept ∧ b.Drained →
      InputCall.Step (call, r) b b' → b'.Kept ∧ b'.Drained := by
    rintro call r b b' hfull ⟨c, hc, -⟩ ⟨hkept, hdrained⟩ hr
    exact ⟨hc.kept hr hkept, hc.drained hr hfull hdrained⟩
  obtain ⟨hheld, hkept, hdrained⟩ :=
    TermCall.keeps (Q := fun b => b.Kept ∧ b.Drained) hstep (fun _ _ => Iff.rfl)
    hfull hcalls h.held ⟨fun _ => h.ahead, h.drained⟩
  rw [unterm_of_zero rfl] at hheld hkept hdrained
  obtain ⟨c, hc, -⟩ := id hheld
  have hadvance : InputCall.Step (.advance .full, some r) file inp' := step_advance.mpr ⟨r, rfl, hr⟩
  refine ⟨hheld.step hadvance, ?_, hc.drained hadvance rfl hdrained⟩
  by_cases hx : r = -1
  · -- an overflow: then characters are kept in front of the next one
    subst hx
    obtain ⟨rfl, hlong⟩ := hc.overflow hr
    exact hkept (by omega)
  · exact hc.ahead_of_advance hr hx

/-- Step lemma: a step in which only `yy_wrap` opens a file keeps the buffer supplied. -/
lemma Step.supplied (h : Step t i s s') (hi : i.Quiet) (hs : s.inp.Supplied) : s'.inp.Supplied := by
  have hbehind : ∀ b : Buffer, (TermBuffer.term ⟨b, 0⟩).unterm.buffer = b :=
    fun b => by rw [unterm_term]
  cases h with
  | go h =>
    obtain rfl : _ = Delivery.full := hi
    obtain ⟨-, inp, hadvance, rfl⟩ := turn_eq_inl h
    have hinp := supplied_advance hs hadvance
    unfold goTo
    dsimp only
    split
    · exact hinp.markEnd
    · exact hinp
  | badInput h =>
    obtain rfl : _ = Delivery.full := hi
    obtain ⟨-, -, r, hadvance⟩ := turn_eq_badInput h
    exact supplied_again (hs.advanceBy hadvance)
  | action more h hcalls =>
    obtain ⟨-, -, -, -, rfl⟩ := turn_eq_action h
    refine supplied_again (hcalls.supplied hi ?_)
    rw [hbehind]
    exact supplied_trim hs _
  | returns yyprev yyanchor h hcalls =>
    obtain ⟨-, -, -, -, rfl⟩ := turn_eq_action h
    refine (hcalls.supplied hi ?_).markStart
    rw [hbehind]
    exact supplied_trim hs _
  | wrap h hcalls hadvance =>
    obtain ⟨hfull, rfl⟩ := hi
    exact (supplied_wrap hs hcalls hfull hadvance).pushback 1
  | finish yyprev yyanchor h hcalls =>
    refine (hcalls.supplied hi ?_).markStart
    rw [unterm_of_zero rfl]
    exact hs

/-- The first call supplies the buffer with the start of the file. -/
lemma Starts.supplied (h : Starts content .full s₀) : s₀.inp.Supplied := by
  cases h with
  | @first r inp yyprev yyanchor hadvance =>
    have hopened : (Buffer.newfile content).opened.advanceBy .full = .ok (r, inp) := hadvance
    have htracks := Tracks.opened content
    have hheld : (Buffer.newfile content).opened.Held :=
      ⟨_, htracks, fun hlt => absurd hlt (Nat.lt_irrefl _)⟩
    have hstep : InputCall.Step (.advance .full, some r) (Buffer.newfile content).opened inp :=
      step_advance.mpr ⟨r, rfl, hopened⟩
    have hahead : inp.Ahead := by
      by_cases hx : r = -1
      · subst hx
        obtain ⟨-, hlong⟩ := htracks.overflow hopened
        have hempty : maxLexemeLen < bufSize - 1 - (bufSize - 1) := hlong
        exact absurd hempty (by decide)
      · exact htracks.ahead_of_advance hopened hx
    have hinp : inp.Supplied :=
      ⟨hheld.step hstep, hahead, htracks.drained hstep rfl fun he => by cases he⟩
    exact (hinp.pushback 1).markStart

/-- Run lemma: in every state of a run in which only `yy_wrap` opens a file the buffer is
supplied. -/
lemma Run.supplied (h : Run t l s₀ s) (hl : ∀ p ∈ l, p.2.Quiet) (hs : s₀.inp.Supplied) :
    s.inp.Supplied := by
  refine h.invariant (fun s => s.inp.Supplied) ?_ hs
  rintro p hp s s' hs ⟨-, hstep⟩
  exact hstep.supplied (hl p hp) hs

end Yylex

end Lex
