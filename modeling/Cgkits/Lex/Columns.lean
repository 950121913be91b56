import Cgkits.Lex.Driver

/-!
# The columns of the printed table (`lex.m`)

`yylex` asks its table for the row of the current state and the column of the byte that `ii_look`
shows.  The rows are those of the table, since its cells are; the column is the byte, whatever it
is, and the table has 128 columns.

What `ii_look` shows comes from the files that are opened, from the characters that actions give
back, or it is the newline or the NUL that the input system itself writes.  So as long as the files
and the actions bring 7-bit characters only, every cell that is asked for is one of the table
(`tableIndex_of_ascii`).
-/

namespace Lex

/-! ## 7-bit characters -/

/-- The character has a column in the table, which is as wide as the 7-bit characters. -/
def IsAscii (x : UInt8) : Prop := x.toNat < maxChars

/-- All bytes of the buffer, and those of the file that have not been read, have a column. -/
structure Buffer.Ascii (b : Buffer) : Prop where
  /-- The bytes of the buffer are 7-bit characters. -/
  startBuf : ∀ i, IsAscii (b.startBuf i)
  /-- The bytes that have not been read. -/
  file : ∀ x ∈ b.file, IsAscii x

/-- The call brings no byte from 128 on, since a file that it opens has none. -/
def InputCall.Ascii : InputCall → Prop
  | newfile (some (_, content)) => ∀ x ∈ content, IsAscii x
  | _ => True

/-- The call brings no byte from 128 on into the buffer. -/
def TermCall.Ascii : TermCall → Prop
  | plain call => call.Ascii
  | unput c => IsAscii c
  | _ => True

/-- The code of the user opens only files of 7-bit characters in the step, and gives back only such
characters. -/
def Yylex.Label.Ascii : Yylex.Label → Prop
  | .turn _ => True
  | .action calls => ∀ i ∈ calls, i.1.Ascii
  | .wrap calls _ => ∀ i ∈ calls, i.1.Ascii

namespace Buffer.Ascii

variable {b b' : Buffer} {read : Delivery} {r : ℤ}

/-- A change of the pointers alone does not bring new bytes into the buffer. -/
lemma of_eq (h : b.Ascii) (hbuf : b'.startBuf = b.startBuf) (hfile : b'.file = b.file) :
    b'.Ascii where
  startBuf := hbuf ▸ h.startBuf
  file := hfile ▸ h.file

/-- A byte that is written into the buffer is the only one that has to be looked at. -/
lemma update (h : b.Ascii) (p : ℕ) {x : UInt8} (hx : IsAscii x) :
    Buffer.Ascii { b with startBuf := Function.update b.startBuf p x } where
  startBuf i := by
    change IsAscii (Function.update b.startBuf p x i)
    by_cases hi : i = p
    · rw [hi, Function.update_self]
      exact hx
    · rw [Function.update_of_ne hi]
      exact h.startBuf i
  file := h.file

/-- The newline that the first call of `ii_advance` writes has a column. -/
lemma opened (h : b.Ascii) : b.opened.Ascii := by
  unfold Buffer.opened
  split
  · exact h
  · have hnewline : IsAscii 10 := show (10 : ℕ) < 128 by decide
    exact (h.update (bufSize - 1) hnewline).of_eq rfl rfl

/-- `ii_fillbuf` brings bytes of the file only. -/
lemma fillbufBy {s got : ℕ} (h : b.Ascii) (hr : b.fillbufBy read s = .ok (got, b')) : b'.Ascii := by
  unfold Buffer.fillbufBy at hr
  dsimp only at hr
  split at hr
  · cases hr
  split at hr
  · obtain ⟨-, rfl⟩ := Prod.mk.inj (Except.ok.inj hr)
    exact h
  split at hr
  · cases hr
  rename_i n hn
  obtain ⟨-, rfl⟩ := Prod.mk.inj (Except.ok.inj hr)
  refine ⟨fun i => ?_, fun x hx => h.file x (List.mem_of_mem_drop hx)⟩
  change IsAscii (if s ≤ i ∧ i < s + n then b.file.getD (i - s) 0 else b.startBuf i)
  split
  · rw [List.getD_eq_getElem?_getD]
    rcases hbyte : b.file[i - s]? with - | x
    · exact show (0 : ℕ) < 128 by decide
    · exact h.file x (List.mem_of_getElem? hbyte)
  · exact h.startBuf i

/-- The rest of a flush, which reads again, brings bytes of the file only. -/
lemma refillBy {s : ℕ} (h : b.Ascii) (hr : b.refillBy read s = .ok (r, b')) : b'.Ascii := by
  unfold Buffer.refillBy at hr
  simp only [Bind.bind, Except.bind] at hr
  split at hr
  · cases hr
  rename_i p hfill
  split at hr
  · cases hr
  obtain ⟨-, rfl⟩ := Prod.mk.inj (Except.ok.inj hr)
  have hmoved :
      Buffer.Ascii { b with
        startBuf := fun i => if i < b.endBuf - s then b.startBuf (s + i) else b.startBuf i } := by
    refine ⟨fun i => ?_, h.file⟩
    change IsAscii (if i < b.endBuf - s then b.startBuf (s + i) else b.startBuf i)
    split
    · exact h.startBuf _
    · exact h.startBuf _
  have hfilled : p.2.Ascii := hmoved.fillbufBy hfill
  exact hfilled.of_eq rfl rfl

/-- `ii_flush` brings bytes of the file only. -/
lemma flushBy {force : Bool} (h : b.Ascii) (hr : b.flushBy read force = .ok (r, b')) :
    b'.Ascii := by
  unfold Buffer.flushBy at hr
  split at hr
  · obtain ⟨-, rfl⟩ := Prod.mk.inj (Except.ok.inj hr)
    exact h
  split at hr
  · obtain ⟨-, rfl⟩ := Prod.mk.inj (Except.ok.inj hr)
    exact h
  split at hr
  · split at hr
    · split at hr
      · obtain ⟨-, rfl⟩ := Prod.mk.inj (Except.ok.inj hr)
        exact h
      · have hmarked : b.markStart.markPrev.Ascii := h.of_eq rfl rfl
        exact hmarked.refillBy hr
    · exact h.refillBy hr
  · obtain ⟨-, rfl⟩ := Prod.mk.inj (Except.ok.inj hr)
    exact h

/-- `ii_advance` brings the newline and bytes of the file only. -/
lemma advanceBy (h : b.Ascii) (hr : b.advanceBy read = .ok (r, b')) : b'.Ascii := by
  have hopened := h.opened
  unfold Buffer.advanceBy at hr
  dsimp only at hr
  split at hr
  · obtain ⟨-, rfl⟩ := Prod.mk.inj (Except.ok.inj hr)
    exact hopened
  split at hr
  · obtain ⟨-, rfl⟩ := Prod.mk.inj (Except.ok.inj hr)
    exact hopened.of_eq rfl rfl
  simp only [Bind.bind, Except.bind] at hr
  split at hr
  · cases hr
  rename_i p hflush
  have hflushed : p.2.Ascii := hopened.flushBy hflush
  split at hr
  · obtain ⟨-, rfl⟩ := Prod.mk.inj (Except.ok.inj hr)
    exact hflushed
  · obtain ⟨-, rfl⟩ := Prod.mk.inj (Except.ok.inj hr)
    exact hflushed.of_eq rfl rfl

/-- Going back in the buffer changes no byte. -/
lemma pushbackLoop (n : ℕ) (h : b.Ascii) : (b.pushbackLoop n).Ascii := by
  induction n generalizing b with
  | zero => exact h
  | succ n ih =>
    rw [Buffer.pushbackLoop]
    split
    · exact ih (h.of_eq rfl rfl)
    · exact h

/-- `ii_pushback` moves the pointer back and changes no byte. -/
lemma pushback (h : b.Ascii) (n : ℤ) : (b.pushback n).2.Ascii := by
  have hloop := h.pushbackLoop n.toNat
  unfold Buffer.pushback
  dsimp only
  split
  · exact hloop.of_eq rfl rfl
  · exact hloop

/-- `ii_move_start` moves a mark and changes no byte. -/
lemma moveStart (h : b.Ascii) : b.moveStart.Ascii := by
  unfold Buffer.moveStart
  split
  · exact h
  · exact h.of_eq rfl rfl

/-- Step lemma: a call of the input system brings no byte from 128 on, unless it opens a file that
has one. -/
lemma step {call : InputCall} {r : Option ℤ} (h : b.Ascii) (hcall : call.Ascii)
    (hr : InputCall.Step (call, r) b b') : b'.Ascii := by
  rcases call with (- | ⟨fd, content⟩) | read | n | n | - | - | - | - | - | ⟨read, force⟩
  case advance =>
    obtain ⟨x, -, hadvance⟩ := InputCall.step_advance.mp hr
    exact h.advanceBy hadvance
  case flush =>
    obtain ⟨x, -, hflush⟩ := InputCall.step_flush.mp hr
    exact h.flushBy hflush
  all_goals obtain ⟨-, rfl⟩ := Prod.mk.inj (Except.ok.inj hr)
  case newfile.some => exact ⟨h.startBuf, hcall⟩
  case pushback => exact h.pushback n
  case moveStart => exact h.moveStart
  all_goals exact h.of_eq rfl rfl

end Buffer.Ascii

/-- The bytes of the buffer have a column, and so has the one that the terminator hides. -/
structure TermBuffer.Ascii (s : TermBuffer) : Prop where
  /-- The buffer holds 7-bit characters only. -/
  buffer : s.buffer.Ascii
  /-- `_termchar` is a 7-bit character. -/
  termchar : IsAscii s.termchar

section Terminator

variable {s s' : TermBuffer} {b : Buffer} {l : List (TermCall × Option ℤ)}

/-- The terminator is a NUL, which has a column in the table. -/
lemma isAscii_zero : IsAscii 0 := show (0 : ℕ) < 128 by decide

/-- Writing over the next character brings this byte only. -/
lemma Buffer.Ascii.put (h : b.Ascii) {x : UInt8} (hx : IsAscii x) : (b.put x).Ascii :=
  h.update b.next hx

namespace TermBuffer.Ascii

/-- `ii_term` keeps the byte that it hides behind the NUL. -/
lemma term (h : s.Ascii) : s.term.Ascii := ⟨h.buffer.put isAscii_zero, h.buffer.startBuf _⟩

/-- `ii_unterm` writes the byte that was hidden back. -/
lemma unterm (h : s.Ascii) : s.unterm.Ascii := by
  unfold TermBuffer.unterm
  split
  · exact ⟨h.buffer.put h.termchar, isAscii_zero⟩
  · exact h

/-- `ii_input` brings what `ii_advance` brings, which are bytes of the file. -/
lemma input {read : Delivery} {r : ℤ} (h : s.Ascii) (hr : s.input read = .ok (r, s')) :
    s'.Ascii := by
  unfold TermBuffer.input at hr
  simp only [Bind.bind, Except.bind] at hr
  split at hr
  · split at hr
    · cases hr
    · rename_i p hadvance
      obtain ⟨-, rfl⟩ := Prod.mk.inj (Except.ok.inj hr)
      have hmarked : p.2.markEnd.Ascii := (h.unterm.buffer.advanceBy hadvance).of_eq rfl rfl
      have hbehind : TermBuffer.Ascii ⟨p.2.markEnd, s.unterm.termchar⟩ :=
        ⟨hmarked, h.unterm.termchar⟩
      exact hbehind.term
  · split at hr
    · cases hr
    · rename_i p hadvance
      obtain ⟨-, rfl⟩ := Prod.mk.inj (Except.ok.inj hr)
      exact ⟨(h.buffer.advanceBy hadvance).of_eq rfl rfl, h.termchar⟩

/-- The pushback and the write of `ii_unput` bring its character. -/
lemma unputPlain (h : s.Ascii) {c : UInt8} (hc : IsAscii c) : (s.unputPlain c).Ascii := by
  unfold TermBuffer.unputPlain
  dsimp only
  split
  · exact ⟨(h.buffer.pushback 1).put hc, h.termchar⟩
  · exact ⟨h.buffer.pushback 1, h.termchar⟩

/-- `ii_unput` brings the character that it is called with. -/
lemma unput (h : s.Ascii) {c : UInt8} (hc : IsAscii c) : (s.unput c).Ascii := by
  unfold TermBuffer.unput
  split
  · exact (h.unterm.unputPlain hc).term
  · exact h.unputPlain hc

/-- `ii_flushbuf` brings bytes of the file only. -/
lemma flushbuf {read : Delivery} {r : ℤ} (h : s.Ascii) (hr : s.flushbuf read = .ok (r, s')) :
    s'.Ascii := by
  rw [flushbuf_eq] at hr
  obtain ⟨p, hflush, hp⟩ := exists_of_map_eq_ok hr
  obtain ⟨-, rfl⟩ := Prod.mk.inj hp
  exact ⟨h.unterm.buffer.flushBy hflush, isAscii_zero⟩

/-- Step lemma: the calls that know the terminator bring no byte from 128 on, unless `ii_unput`
gives one back or `ii_newfile` opens a file that has one. -/
lemma step {i : TermCall × Option ℤ} (h : s.Ascii) (hcall : i.1.Ascii) (hr : TermCall.Step i s s') :
    s'.Ascii := by
  obtain ⟨call, r⟩ := i
  obtain ⟨-, hrun⟩ := hr
  rcases call with call | - | - | read | c | n | read
  · obtain ⟨p, hstep, hp⟩ := exists_of_map_eq_ok hrun
    obtain ⟨-, rfl⟩ := Prod.mk.inj hp
    exact ⟨h.buffer.step (r := p.1) hcall hstep, h.termchar⟩
  · obtain ⟨-, rfl⟩ := Prod.mk.inj (Except.ok.inj hrun)
    exact h.term
  · obtain ⟨-, rfl⟩ := Prod.mk.inj (Except.ok.inj hrun)
    exact h.unterm
  · obtain ⟨p, hinput, hp⟩ := exists_of_map_eq_ok hrun
    obtain ⟨-, rfl⟩ := Prod.mk.inj hp
    exact h.input hinput
  · obtain ⟨-, rfl⟩ := Prod.mk.inj (Except.ok.inj hrun)
    exact h.unput hcall
  · obtain ⟨-, rfl⟩ := Prod.mk.inj (Except.ok.inj hrun)
    exact h
  · obtain ⟨p, hflush, hp⟩ := exists_of_map_eq_ok hrun
    obtain ⟨-, rfl⟩ := Prod.mk.inj hp
    exact h.flushbuf hflush

/-- Run lemma: what a call does not bring, a sequence of calls does not bring. -/
lemma trace (h : s.Ascii) (hl : ∀ i ∈ l, i.1.Ascii) (hr : Trace TermCall.Step l s s') : s'.Ascii :=
  hr.invariant TermBuffer.Ascii (fun i hi _ _ hs hstep => hs.step (hl i hi) hstep) h

end TermBuffer.Ascii

end Terminator

/-! ## The cells that the loop asks for -/

namespace Yylex

variable {t : ScanTables} {d : Dfa} {outside : ℕ → UInt8} {s s' s₀ : Yylex} {content : List UInt8}
  {read : Delivery} {i : Label} {l : List (Yylex × Label)}

/-- When the table is asked, it is asked for a cell that it has: the state has a row and the
character a column. -/
def InTable (d : Dfa) (s : Yylex) : Prop :=
  s.inp.look 1 ≠ -1 → s.yystate < d.nstates ∧ s.inp.look 1 < (maxChars : ℤ)

/-- Trimming the lexeme for its anchors moves the marks and brings no byte. -/
lemma ascii_trim {inp : Buffer} (h : inp.Ascii) (yyanchor : ℕ) : (trim yyanchor inp).Ascii := by
  have hback : inp.moveBack.Ascii := h.of_eq rfl rfl
  have hpushed :
      Buffer.Ascii (if yyanchor &&& 2 ≠ 0 then (inp.moveBack.pushback 1).2 else inp.moveBack) := by
    split
    · exact hback.pushback 1
    · exact hback
  unfold trim
  dsimp only
  split
  · exact hpushed.moveStart
  · exact hpushed

/-- The end of the loop moves the marks and brings no byte. -/
lemma ascii_again (h : s.inp.Ascii) : s.again.inp.Ascii := by
  unfold again
  split
  · exact h.of_eq rfl rfl
  · exact h

/-- The code of the user brings the bytes that its own calls bring, and bytes of the file. -/
lemma Acts.ascii {calls : List (TermCall × Option ℤ)} {inp : TermBuffer} {inp' : Buffer}
    (h : Acts calls inp inp') (hcalls : ∀ i ∈ calls, i.1.Ascii) (hinp : inp.Ascii) :
    inp'.Ascii := by
  obtain ⟨s, htrace, rfl⟩ := h
  exact (hinp.trace hcalls htrace).unterm.buffer

/-- Step lemma: a step brings what the code of the user brings. -/
lemma Step.ascii (h : Step t i s s') (hi : i.Ascii) (hs : s.inp.Ascii) : s'.inp.Ascii := by
  cases h with
  | go h =>
    obtain ⟨-, inp, hadvance, rfl⟩ := turn_eq_inl h
    have hinp : inp.Ascii := by
      unfold advance at hadvance
      simp only [Bind.bind, Except.bind] at hadvance
      split at hadvance
      · cases hadvance
      rename_i p hfirst
      have hp : p.2.Ascii := hs.advanceBy hfirst
      split at hadvance
      · split at hadvance
        · cases hadvance
        · rename_i q hflush
          obtain rfl := Except.ok.inj hadvance
          exact hp.flushBy hflush
      · obtain rfl := Except.ok.inj hadvance
        exact hp
    unfold goTo
    dsimp only
    split
    · exact hinp.of_eq rfl rfl
    · exact hinp
  | badInput h =>
    obtain ⟨-, -, r, hadvance⟩ := turn_eq_badInput h
    exact ascii_again (hs.advanceBy hadvance)
  | action more h hcalls =>
    obtain ⟨-, -, -, -, rfl⟩ := turn_eq_action h
    exact ascii_again (hcalls.ascii hi (TermBuffer.Ascii.mk (ascii_trim hs _) isAscii_zero).term)
  | returns yyprev yyanchor h hcalls =>
    obtain ⟨-, -, -, -, rfl⟩ := turn_eq_action h
    exact (hcalls.ascii hi (TermBuffer.Ascii.mk (ascii_trim hs _) isAscii_zero).term).of_eq rfl rfl
  | wrap h hcalls hadvance =>
    exact (((TermBuffer.Ascii.mk hs isAscii_zero).trace hi hcalls).buffer.advanceBy
      hadvance).pushback 1
  | finish yyprev yyanchor h hcalls => exact (hcalls.ascii hi ⟨hs, isAscii_zero⟩).of_eq rfl rfl

/-- What `ii_look` shows has a column, if the bytes of the buffer have one. -/
lemma look_lt {inp : Buffer} (h : inp.Ascii) : inp.look 1 < (maxChars : ℤ) := by
  have hmax : maxChars = 128 := rfl
  unfold Buffer.look
  split
  · split <;> omega
  split
  · omega
  · have hlt : (inp.startBuf (inp.next + ((1 : ℤ) - 1)).toNat).toNat < maxChars := h.startBuf _
    omega

/-- The states that the driver remembers are rows of the table. -/
structure Rows (d : Dfa) (s : Yylex) : Prop where
  /-- The current state is a row of the table. -/
  yystate : s.yystate < d.nstates
  /-- The state before the accepting state that has been seen. -/
  yyprev : s.yylastaccept ≠ 0 → s.yyprev < d.nstates
  /-- `yymore` has not been executed. -/
  yymoreflg : s.yymoreflg = false

/-- A cell of the printed table is that of the DFA. -/
lemma yyNext_tables {q c : ℕ} (hq : q < d.nstates) (hc : c < maxChars) :
    (d.tables outside).yyNext q c = UInt8.ofInt (d.dtran q ⟨c, hc⟩) := by
  have hlt : q * maxChars + c < d.nstates * maxChars := by
    have hrow : (q + 1) * maxChars ≤ d.nstates * maxChars := Nat.mul_le_mul_right _ hq
    rw [Nat.succ_mul] at hrow
    omega
  have hdiv : (q * maxChars + c) / maxChars = q := by
    rw [Nat.mul_comm, Nat.mul_add_div (by decide), Nat.div_eq_of_lt hc, Nat.add_zero]
  have hmod : (q * maxChars + c) % maxChars = c := by
    rw [Nat.mul_comm, Nat.mul_add_mod, Nat.mod_eq_of_lt hc]
  change (if q * maxChars + c < d.nstates * maxChars then
    UInt8.ofInt (d.dtran ((q * maxChars + c) / maxChars) ⟨(q * maxChars + c) % maxChars, _⟩) else
      _) = _
  rw [if_pos hlt, hdiv]
  congr 2
  exact Fin.ext hmod

/-- The number of a state of the table fits in a cell of one byte. -/
lemma toNat_ofInt_natCast {u : ℕ} (hu : u < d.nstates) : (UInt8.ofInt (u : ℤ)).toNat = u := by
  have hle := d.le
  have hmax : dfaMax = 254 := rfl
  rw [UInt8.ofInt, UInt8.toNat_ofNat']
  omega

/-- A cell of the printed table that is not the failure mark is the number of a row. -/
lemma yyNext_lt {q c : ℕ} (hq : q < d.nstates) (hc : c < maxChars)
    (hne : (d.tables outside).yyNext q c ≠ yyf) :
    ((d.tables outside).yyNext q c).toNat < d.nstates := by
  rw [yyNext_tables hq hc] at hne ⊢
  rcases d.entry q hq ⟨c, hc⟩ with hfail | ⟨u, hu, htrans⟩
  · rw [hfail] at hne
    exact absurd rfl hne
  · rw [htrans, toNat_ofInt_natCast hu]
    exact hu

/-- Step lemma: from a row, with a 7-bit character ahead, a step leads to a row again. -/
lemma Step.rows (h : Step (d.tables outside) i s s') (hs : Rows d s)
    (hcolumn : s.inp.look 1 < (maxChars : ℤ)) : Rows d s' := by
  have hfalse := hs.yymoreflg
  cases h with
  | go h =>
    obtain ⟨⟨hlook, hnext⟩, inp, -, rfl⟩ := turn_eq_inl h
    have hrow : (s.yynstate (d.tables outside)).toNat < d.nstates := by
      refine yyNext_lt hs.yystate ?_ hnext
      have hmax : maxChars = 128 := rfl
      omega
    by_cases hzero : (d.tables outside).yyaccept (s.yynstate (d.tables outside)).toNat = 0
    · rw [goTo_of_eq hzero]
      exact ⟨hrow, hs.yyprev, hfalse⟩
    · rw [goTo_of_ne hzero]
      exact ⟨hrow, fun _ => hs.yystate, hfalse⟩
  | @badInput s read inp h =>
    have hagain :
        again { s with inp := inp } = { s with
          yylastaccept := 0, yystate := 0, inp := inp.markStart } := by
      unfold again
      simp [hfalse]
    rw [hagain]
    exact ⟨d.pos, fun hne => absurd rfl hne, hfalse⟩
  | action more h =>
    rcases more with - | -
    · exact ⟨d.pos, fun hne => absurd rfl hne, rfl⟩
    · exact ⟨hs.yyprev (turn_eq_action h).2.1, fun hne => absurd rfl hne, rfl⟩
  | returns => exact ⟨d.pos, fun hne => absurd rfl hne, rfl⟩
  | wrap => exact ⟨hs.yystate, hs.yyprev, hfalse⟩
  | finish => exact ⟨d.pos, fun hne => absurd rfl hne, rfl⟩

/-- Run lemma: as long as the code of the user brings 7-bit characters only, the states are rows and
the bytes have columns. -/
lemma Run.inTable (h : Run (d.tables outside) l s₀ s) (hl : ∀ p ∈ l, p.2.Ascii) (hrows : Rows d s₀)
    (hascii : s₀.inp.Ascii) : (∀ p ∈ l, InTable d p.1) ∧ InTable d s := by
  induction h with
  | nil s =>
    exact ⟨fun p hp => absurd hp List.not_mem_nil, fun _ => ⟨hrows.yystate, look_lt hascii⟩⟩
  | @cons p l s s' u hstep _ ih =>
    obtain ⟨rfl, hstep⟩ := hstep
    obtain ⟨hp, hrest⟩ := List.forall_mem_cons.mp hl
    obtain ⟨hall, hlast⟩ := ih hrest (hstep.rows hrows (look_lt hascii)) (hstep.ascii hp hascii)
    exact ⟨List.forall_mem_cons.mpr ⟨fun _ => ⟨hrows.yystate, look_lt hascii⟩, hall⟩, hlast⟩

/-- In every state of a run on a file of 7-bit characters, in which the code of the user opens only
such files and gives back only such characters, the table is asked for a cell that it has. -/
theorem tableIndex_of_ascii (h : Starts content read s₀) (hcontent : ∀ x ∈ content, IsAscii x)
    (hrun : Run (d.tables outside) l s₀ s) (hl : ∀ p ∈ l, p.2.Ascii) :
    (∀ p ∈ l, InTable d p.1) ∧ InTable d s := by
  obtain ⟨yyprev, yyanchor, hadvance⟩ := h
  have hfile : (Buffer.newfile content).Ascii := ⟨fun _ => isAscii_zero, hcontent⟩
  refine hrun.inTable hl ⟨d.pos, fun hne => absurd rfl hne, rfl⟩ ?_
  exact ((hfile.advanceBy hadvance).pushback 1).of_eq rfl rfl

/-- A byte from 128 on that is ahead has no column in the table. -/
lemma not_inTable {x : UInt8} (hx : ¬ IsAscii x) (hlook : s.inp.look 1 = x.toNat) :
    ¬ InTable d s := by
  intro hin
  obtain ⟨-, hlt⟩ := hin (by omega)
  unfold IsAscii at hx
  omega

/-- A table with one state that fails on all characters. -/
def failTable : Dfa where
  nstates := 1
  dtran _ _ := fail
  accept _ := ⟨none, 0⟩
  pos := starDfa.pos
  le := starDfa.le
  entry _ _ _ := .inl rfl

/-- The newline in front of the file is skipped as bad input. -/
lemma exists_skipped {x : UInt8} (hx : x = 97 ∨ x = 200) : ∃ s₀ inp, Starts [x] .full s₀ ∧
    turn (failTable.tables fun _ => 0) .full s₀ = .inr (.badInput inp) ∧ s₀.yymoreflg = false ∧
      inp.markStart.look 1 = x.toNat := by
  obtain ⟨r, inp, hfirst, hrest⟩ : ∃ r inp, (Buffer.newfile [x]).advanceBy .full = .ok (r, inp) ∧
      ∃ inp', turn (failTable.tables fun _ => 0) .full (enter 0 0 (inp.pushback 1).2) =
        .inr (.badInput inp') ∧ inp'.markStart.look 1 = x.toNat := by
    rcases hx with rfl | rfl
    · exact ⟨_, _, rfl, _, rfl, rfl⟩
    · exact ⟨_, _, rfl, _, rfl, rfl⟩
  obtain ⟨inp', hturn, hlook⟩ := hrest
  exact ⟨_, inp', .first 0 0 hfirst, hturn, rfl, hlook⟩

/-- The letter of a file with one letter is asked for in the column that it has. -/
theorem tableIndex_of_ascii_letter : ∃ s₀ l s, Starts [97] .full s₀ ∧
    Run (failTable.tables fun _ => 0) l s₀ s ∧ l.length = 1 ∧ (∀ p ∈ l, InTable failTable p.1) ∧
    InTable failTable s := by
  obtain ⟨s₀, inp, hstart, hturn, -⟩ := exists_skipped (.inl rfl)
  have hrun :
      Run (failTable.tables fun _ => 0) [(s₀, .turn .full)] s₀ (again { s₀ with inp := inp }) :=
    .cons ⟨rfl, .badInput hturn⟩ (.nil _)
  refine ⟨s₀, _, _, hstart, hrun, rfl, tableIndex_of_ascii hstart (fun x hx => ?_) hrun fun p hp =>
    ?_⟩
  · obtain rfl := List.mem_singleton.mp hx
    exact show (97 : ℕ) < 128 by decide
  · obtain rfl := List.mem_singleton.mp hp
    trivial

/-- A byte from 128 on behind the newline is asked for in a column that the table does not have. -/
theorem not_tableIndex : ¬ ∀ (d : Dfa) outside content read s₀ l s, Starts content read s₀ →
    Run (d.tables outside) l s₀ s → InTable d s := by
  intro hall
  obtain ⟨s₀, inp, hstart, hturn, hmore, hlook⟩ := exists_skipped (.inr rfl)
  have hrun :
      Run (failTable.tables fun _ => 0) [(s₀, .turn .full)] s₀ (again { s₀ with inp := inp }) :=
    .cons ⟨rfl, .badInput hturn⟩ (.nil _)
  have hagain :
      again { s₀ with inp := inp } = { s₀ with
        yylastaccept := 0, yystate := 0, inp := inp.markStart } := by
    unfold again
    simp [hmore]
  have hbyte : ¬ IsAscii 200 := show ¬ (200 : ℕ) < 128 by decide
  rw [hagain] at hrun
  exact not_inTable hbyte hlook (hall _ _ _ _ _ _ _ hstart hrun)

end Yylex

end Lex
