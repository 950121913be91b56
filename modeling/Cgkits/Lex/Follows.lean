import Cgkits.Lex.Columns
import Cgkits.Lex.Scanner
import Cgkits.Lex.Supply

/-!
# The scanner on the buffer follows the scanner on the text (`lex.m`, `input.c`)

`Cgkits.Lex.Yylex` and `Cgkits.Lex.Scanner` run the scanner on a text with positions, where every
character is there.  The real one works on a buffer: `ii_advance` flushes it and reads, and in doing
so it can end the program, or find the buffer full.  `Mirrors` relates the two, and `related_turn`
is the step lemma: a turn of the loop on the buffer does what it does on the text, as long as the
buffer is `Smooth`, that is, when `ii_advance` has to read, the lexeme leaves room for it and bytes
of the file are left.

So one scanning step is maximal munch exactly when the lexeme does not lead back to the start state
and the calls of `ii_advance` find what they need (`maximalMunch_iff`), and a whole file is cut into
its lexemes (`scan_iff`).
-/

namespace Lex

open Machine Munch

/-! ## The text that the buffer shows -/

/-- The byte that stands for a character of the table in the file. -/
def byte (c : Fin maxChars) : UInt8 := UInt8.ofNat c

/-- The text with positions is what the cursor shows from the start of the lexeme on, and the cursor
is beside the buffer. -/
structure Mirrors (inp : Input) (c : Cursor UInt8) (b : Buffer) : Prop where
  /-- The cursor is beside the buffer. -/
  tracks : Tracks c b
  /-- The characters from the start of the lexeme on. -/
  text : c.text.drop c.smark = (inp.text.drop inp.smark).map byte
  /-- The next character is at the same distance from the lexeme. -/
  next : c.next + inp.smark = inp.next + c.smark
  /-- The end of the lexeme is at the same distance from its start. -/
  emark : c.emark + inp.smark = inp.emark + c.smark
  /-- The line numbers are the same. -/
  lineno : b.lineno = inp.lineno
  /-- The line number at the last mark. -/
  mline : b.mline = inp.mline

/-- When `ii_advance` has to read, the lexeme leaves room for it, and bytes of the file are left. -/
def Buffer.Smooth (b : Buffer) : Prop := b.Reads → maxLexemeLen ≤ b.leftEdge ∧ b.file ≠ []

/-- The next calls of `ii_advance`, so many of them, find what they need. -/
def Buffer.Delivers : ℕ → Buffer → Prop
  | 0, _ => True
  | n + 1, b => b.Smooth ∧ ∀ r b', b.advanceBy .full = .ok (r, b') → Delivers n b'

section Characters

variable {x y : Fin maxChars}

/-- The number of a character is the number of its byte. -/
lemma toNat_byte (x : Fin maxChars) : (byte x).toNat = x := by
  have hlt := x.isLt
  have hmax : maxChars = 128 := rfl
  rw [byte, UInt8.toNat_ofNat']
  omega

/-- Two characters with the same byte are the same character. -/
lemma byte_inj : byte x = byte y ↔ x = y := by
  refine ⟨fun h => Fin.ext ?_, congrArg byte⟩
  rw [← toNat_byte, ← toNat_byte, h]

/-- The newline of the text is the newline of the file. -/
lemma byte_newline : byte Input.newline = 10 := rfl

/-- The NUL of the text is the NUL of the file. -/
lemma byte_zero : byte 0 = 0 := rfl

end Characters

namespace Mirrors

variable {inp : Input} {c : Cursor UInt8} {b b' : Buffer}

/-- The marks of the text are in order: the lexeme starts in front of its end, which has been
read. -/
lemma le (h : Mirrors inp c b) : inp.smark ≤ inp.emark ∧ inp.emark ≤ inp.next := by
  have hs := c.smark_le
  have he := c.emark_le
  have hnext := h.next
  have hemark := h.emark
  omega

/-- The characters behind a position of the lexeme are the same in the text and beside the
buffer. -/
lemma drop (h : Mirrors inp c b) {p q : ℕ} (hp : c.smark ≤ p) (hpq : p + inp.smark = q + c.smark) :
    c.text.drop p = (inp.text.drop q).map byte := by
  have hsplit : p = c.smark + (p - c.smark) := by omega
  have hsplit' : q = inp.smark + (p - c.smark) := by omega
  rw [hsplit, ← List.drop_drop, h.text, ← List.map_drop, List.drop_drop, ← hsplit']

/-- The unread characters of the cursor are those of the text, as bytes. -/
lemma unread (h : Mirrors inp c b) : c.unread = inp.unread.map byte :=
  h.drop (Nat.le_trans c.smark_le c.emark_le) h.next

/-- A character behind the start of the lexeme is the same in the text and beside the buffer. -/
lemma getElem? (h : Mirrors inp c b) {p q : ℕ} (hp : c.smark ≤ p)
    (hpq : p + inp.smark = q + c.smark) : c.text[p]? = inp.text[q]?.map byte := by
  have hdrop := congrArg List.head? (h.drop hp hpq)
  rw [List.head?_drop, List.head?_map, List.head?_drop] at hdrop
  exact hdrop

/-- `ii_look` shows the next character of the text, or the end of the file. -/
lemma look (h : Mirrors inp c b) (hb : b.Supplied) :
    b.look 1 = (inp.look 1).elim (-1) fun x => ((x : ℕ) : ℤ) := by
  have hlook := h.tracks.look_eq hb.ahead hb.drained (Nat.le_refl 1) (by decide)
  have hchar : c.look 1 = (inp.look 1).map byte :=
    h.getElem? (Nat.le_trans c.smark_le c.emark_le) h.next
  rw [Nat.cast_one, hchar] at hlook
  rw [hlook]
  rcases inp.look 1 with - | x
  · rfl
  · change ((byte x).toNat : ℤ) = ((x : ℕ) : ℤ)
    rw [toNat_byte]

/-- `ii_mark_start` does the same to the text and to the buffer. -/
lemma markStart (h : Mirrors inp c b) : Mirrors inp.markStart c.markStart b.markStart where
  tracks := h.tracks.markStart
  text := h.unread
  next := Nat.add_comm _ _
  emark := Nat.add_comm _ _
  lineno := h.lineno
  mline := h.lineno

/-- `ii_mark_end` does the same to the text and to the buffer. -/
lemma markEnd (h : Mirrors inp c b) : Mirrors inp.markEnd c.markEnd b.markEnd where
  tracks := h.tracks.markEnd
  text := h.text
  next := h.next
  emark := h.next
  lineno := h.lineno
  mline := h.lineno

/-- `ii_move_back` does the same to the text and to the buffer. -/
lemma moveBack (h : Mirrors inp c b) : Mirrors inp.moveBack c.moveBack b.moveBack where
  tracks := h.tracks.moveBack
  text := h.text
  next := h.emark
  emark := h.emark
  lineno := h.mline
  mline := h.mline

/-- `ii_move_start` does the same to the text and to the buffer. -/
lemma moveStart (h : Mirrors inp c b) : Mirrors inp.moveStart c.moveStart b.moveStart := by
  have hemark := h.emark
  have hnext := h.next
  have hs := h.tracks.smark
  have he := h.tracks.emark
  by_cases hlt : c.smark < c.emark
  · have hinp : inp.moveStart = { inp with smark := inp.smark + 1 } := if_neg (by omega)
    have hc : c.moveStart.smark = c.smark + 1 ∧ c.moveStart.text = c.text ∧
        c.moveStart.next = c.next ∧ c.moveStart.emark = c.emark := by
      unfold Cursor.moveStart
      rw [dif_pos hlt]
      exact ⟨rfl, rfl, rfl, rfl⟩
    have hb : b.moveStart = { b with smark := b.smark + 1 } := if_neg (by omega)
    obtain ⟨hsmark', htext', hnext', hemark'⟩ := hc
    refine ⟨h.tracks.moveStart, ?_, ?_, ?_, ?_, ?_⟩
    · rw [htext', hsmark', hinp]
      exact h.drop (Nat.le_succ _) (by dsimp only; omega)
    · rw [hnext', hsmark', hinp]
      dsimp only
      omega
    · rw [hemark', hsmark', hinp]
      dsimp only
      omega
    · rw [hb, hinp]
      exact h.lineno
    · rw [hb, hinp]
      exact h.mline
  · have hinp : inp.moveStart = inp := if_pos (by omega)
    have hc : c.moveStart = c := dif_neg hlt
    have hb : b.moveStart = b := if_pos (by omega)
    rw [hinp, hc, hb]
    exact h

/-- The line number in front of the last character, as the buffer computes it from its bytes, is
what the text says of that character. -/
lemma lineBefore_one (h : Mirrors inp c b) (hlt : c.smark < c.next) : ∃ x,
    inp.text[inp.next - 1]? = some x ∧
      b.lineBefore 1 = if x = Input.newline ∨ x = 0 then inp.lineno - 1 else inp.lineno := by
  have hnext := h.next
  have hs := h.tracks.smark
  have hle := h.le
  have hchar : c.text[c.next - 1]? = inp.text[inp.next - 1]?.map byte :=
    h.getElem? (by omega) (by omega)
  have hbyte := h.tracks.byte (b.next - 1)
    (Nat.le_trans h.tracks.leftEdge_le (by omega))
    (Nat.lt_of_lt_of_le (by omega) h.tracks.next_le)
  have hidx : c.next + (b.next - 1) - b.next = c.next - 1 := by omega
  rw [hidx, hchar] at hbyte
  obtain ⟨x, hx, hxb⟩ := Option.map_eq_some_iff.mp hbyte
  have hends : Buffer.EndsLine (byte x) ↔ x = Input.newline ∨ x = 0 := by
    unfold Buffer.EndsLine
    rw [← byte_newline, ← byte_zero, byte_inj, byte_inj]
  refine ⟨x, hx, ?_⟩
  rw [Buffer.lineBefore_one, ← hxb, ← h.lineno]
  exact if_congr hends rfl rfl

/-- `ii_pushback` of one character on the text, with the line number that the buffer computes. -/
lemma text_pushback_of_lt (h : Mirrors inp c b) (hlt : c.smark < c.next) : inp.pushback 1 =
    { inp with
      next := inp.next - 1
      lineno := b.lineBefore 1
      emark := min inp.emark (inp.next - 1)
      mline := if inp.next - 1 < inp.emark then b.lineBefore 1 else inp.mline } := by
  obtain ⟨x, hx, hline⟩ := h.lineBefore_one hlt
  have hnext := h.next
  have hinp : inp.smark < inp.next := by omega
  have hloop :
      Input.pushbackLoop 1 inp = { inp with next := inp.next - 1, lineno := b.lineBefore 1 } := by
    rw [Input.pushbackLoop, if_pos hinp, hx, hline]
    simp only [Input.pushbackLoop, Option.some.injEq]
  unfold Input.pushback
  rw [hloop]
  dsimp only
  by_cases hem : inp.next - 1 < inp.emark
  · rw [if_pos hem, if_pos hem, Nat.min_eq_right (Nat.le_of_lt hem)]
  · rw [if_neg hem, if_neg hem, Nat.min_eq_left (Nat.le_of_not_lt hem)]

/-- When a character of the lexeme has been read, `ii_pushback` gives it back on both sides. -/
lemma pushback_of_lt (h : Mirrors inp c b) (hlt : c.smark < c.next) :
    Mirrors (inp.pushback 1) (c.pushback 1) (b.pushback 1).2 := by
  have hinp := h.text_pushback_of_lt hlt
  have hnext := h.next
  have hemark := h.emark
  have hle := h.le
  have hs := h.tracks.smark
  have he := h.tracks.emark
  have hone : min (1 : ℤ).toNat (b.next - b.smark) = 1 := by
    have hint : (1 : ℤ).toNat = 1 := rfl
    omega
  have hb := Buffer.pushback_eq 1 (Nat.le_of_lt (show b.smark < b.next by omega)) hone.symm
  refine ⟨h.tracks.pushback 1, ?_, ?_, ?_, ?_, ?_⟩
  · rw [hinp]
    exact h.text
  · rw [hinp]
    change max c.smark (c.next - 1) + inp.smark = inp.next - 1 + c.smark
    omega
  · rw [hinp]
    change min c.emark (max c.smark (c.next - 1)) + inp.smark =
      min inp.emark (inp.next - 1) + c.smark
    omega
  · rw [hinp, hb]
  · rw [hinp, hb]
    dsimp only
    rw [h.mline]
    by_cases hem : inp.next - 1 < inp.emark
    · rw [if_pos hem, if_pos (by omega)]
    · rw [if_neg hem, if_neg (by omega)]

/-- When nothing of the lexeme has been read, `ii_pushback` gives nothing back on either side. -/
lemma pushback_of_not_lt (h : Mirrors inp c b) (hlt : ¬ c.smark < c.next) :
    Mirrors (inp.pushback 1) (c.pushback 1) (b.pushback 1).2 := by
  have hnext := h.next
  have hemark := h.emark
  have hle := h.le
  have hs := h.tracks.smark
  have he := h.tracks.emark
  have hsmark := c.smark_le
  have hsmark' := c.emark_le
  have hinp : inp.pushback 1 = inp := by
    have hloop : Input.pushbackLoop 1 inp = inp := if_neg (by omega)
    unfold Input.pushback
    rw [hloop]
    exact if_neg (by omega)
  have hzero : 0 = min (1 : ℤ).toNat (b.next - b.smark) := by omega
  have hb := Buffer.pushback_eq 1 (show b.smark ≤ b.next by omega) hzero
  have hbytes : b.lineBefore 0 = b.lineno := by simp [Buffer.lineBefore, Buffer.bytes]
  refine ⟨h.tracks.pushback 1, ?_, ?_, ?_, ?_, ?_⟩
  · rw [hinp]
    exact h.text
  · rw [hinp]
    change max c.smark (c.next - 1) + inp.smark = inp.next + c.smark
    omega
  · rw [hinp]
    change min c.emark (max c.smark (c.next - 1)) + inp.smark = inp.emark + c.smark
    omega
  · rw [hinp, hb, ← h.lineno]
    exact hbytes
  · rw [hinp, hb, ← h.mline]
    exact if_neg (by omega)

/-- `ii_pushback` of one character keeps the text and the buffer in step. -/
lemma pushback (h : Mirrors inp c b) : Mirrors (inp.pushback 1) (c.pushback 1)
    (b.pushback 1).2 := by
  by_cases hlt : c.smark < c.next
  · exact h.pushback_of_lt hlt
  · exact h.pushback_of_not_lt hlt

/-- The lexeme that is marked in the buffer is that of the text. -/
lemma lexeme (h : Mirrors inp c b) : b.text = inp.lexeme.map byte := by
  have hs := h.tracks.smark
  have he := h.tracks.emark
  have hsmark := c.smark_le
  have hemark := h.emark
  have hleft := h.tracks.leftEdge_le
  have hle := h.tracks.emark_le
  have hend := h.tracks.next_le
  have htext : b.text = (c.text.drop c.smark).take (b.emark - b.smark) := by
    refine List.ext_getElem? fun i => ?_
    by_cases hi : i < b.emark - b.smark
    · have hbyte := h.tracks.byte (b.smark + i) (by omega) (by omega)
      have hidx : c.next + (b.smark + i) - b.next = c.smark + i := by omega
      rw [hidx] at hbyte
      rw [List.getElem?_take_of_lt hi, List.getElem?_drop, hbyte]
      simp [Buffer.text, Buffer.bytes, hi]
    · have hlen : b.text.length = b.emark - b.smark := by simp [Buffer.text, Buffer.bytes]
      rw [List.getElem?_eq_none (Nat.le_of_not_lt (hlen.symm ▸ hi)), List.getElem?_take_eq_none
        (Nat.le_of_not_lt hi)]
  have hlen : b.emark - b.smark = inp.emark - inp.smark := by omega
  rw [htext, h.text, hlen, ← List.map_take]
  rfl

end Mirrors

/-! ## The calls of `ii_advance` -/

section Advance

variable {inp : Input} {c : Cursor UInt8} {b b' : Buffer}

/-- The part of a flush that reads ends the program exactly when nothing is left of the file, if the
left edge leaves room. -/
lemma refillBy_full {s : ℕ} (hs : maxLexemeLen ≤ s) (hend : b.endBuf ≤ bufSize) :
    (b.file = [] → b.refillBy .full s = .error .bufferFull) ∧
      (b.file ≠ [] → ∃ b', b.refillBy .full s = .ok (1, b')) := by
  have hlen : maxLexemeLen = 1024 := rfl
  have hbuf : bufSize = 3104 := rfl
  have hneed : ((bufSize : ℤ) - ↑(b.endBuf - s)).tdiv maxLexemeLen * maxLexemeLen =
      ((bufSize - (b.endBuf - s)) / maxLexemeLen * maxLexemeLen : ℕ) := by
    rw [Int.tdiv_eq_ediv_of_nonneg (by omega), hlen, hbuf]
    omega
  have hpos : (bufSize - (b.endBuf - s)) / maxLexemeLen * maxLexemeLen ≠ 0 := by
    rw [hlen, hbuf]
    omega
  unfold Buffer.refillBy Buffer.fillbufBy
  simp only [Bind.bind, Except.bind, Delivery.got, hneed]
  generalize (bufSize - (b.endBuf - s)) / maxLexemeLen * maxLexemeLen = need at *
  rw [if_neg (by omega), if_neg (by omega), Int.toNat_natCast]
  dsimp only
  constructor
  · intro hfile
    rw [hfile]
    exact if_pos (Nat.min_zero need)
  · intro hfile
    have hlength := List.length_pos_of_ne_nil hfile
    exact ⟨_, if_neg (by omega)⟩

/-- When `ii_advance` has to read, in the words of the fields. -/
lemma Tracks.reads_iff (h : Tracks c b) : b.Reads ↔ b.eofRead = false ∧
    b.endBuf - maxLookahead ≤ b.next := by
  have hopened : b.opened = b := if_pos h.called
  unfold Buffer.Reads
  rw [hopened]

/-- `ii_advance` in a buffer that does not have to be read into. -/
lemma Tracks.advanceBy_of_not_reads (h : Tracks c b) (hreads : ¬ b.Reads) :
    b.advanceBy .full = .ok (if b.noMoreChars then (0, b) else b.take) := by
  have hopened : b.opened = b := if_pos h.called
  rw [h.reads_iff] at hreads
  unfold Buffer.advanceBy
  rw [hopened]
  by_cases hmore : b.noMoreChars = true
  · rw [if_pos hmore, if_pos hmore]
  rw [if_neg hmore, if_neg hmore]
  by_cases heof : b.eofRead = true
  · rw [if_pos heof]
  · rw [if_neg heof]
    have hsafe : ¬ b.endBuf - maxLookahead ≤ b.next :=
      fun hle => hreads ⟨Bool.eq_false_iff.mpr heof, hle⟩
    have hflush : b.flushBy .full false = .ok (1, b) := by
      unfold Buffer.flushBy
      rw [if_neg hmore, if_neg heof, if_neg (by simpa using hsafe)]
    rw [hflush]
    rfl

/-- `ii_advance` in a buffer that has to be read into is a flush and the next character. -/
lemma Tracks.advanceBy_of_reads (h : Tracks c b) (hreads : b.Reads) :
    (b.leftEdge < maxLexemeLen → b.advanceBy .full = .ok (-1, b)) ∧
      (maxLexemeLen ≤ b.leftEdge → b.advanceBy .full = (b.refillBy .full b.leftEdge).map fun p =>
        p.2.take) := by
  have hopened : b.opened = b := if_pos h.called
  obtain ⟨heof, hdanger⟩ := h.reads_iff.mp hreads
  have hmore : b.noMoreChars = false := by simp [Buffer.noMoreChars, heof]
  unfold Buffer.advanceBy
  rw [hopened]
  simp only [hmore, heof, Bool.false_eq_true, if_false, Bind.bind, Except.bind, Buffer.flushBy]
  rw [if_pos (.inl hdanger)]
  constructor
  · intro hroom
    rw [if_pos hroom]
    rfl
  · intro hroom
    rw [if_neg (Nat.not_lt.mpr hroom)]
    rcases hrefill : b.refillBy .full b.leftEdge with fault | ⟨r, b'⟩
    · rfl
    · obtain ⟨rfl, -⟩ := Buffer.refillBy_spec h.end_le hrefill
      rfl

/-- When the characters of the buffer are those of the text, `ii_advance` takes the same character
in both, and counts a newline in both. -/
lemma Mirrors.take {x : Fin maxChars} (h : Mirrors inp c b) (hx : inp.look 1 = some x)
    (hb' : Tracks c b') (hlt : b'.next < b'.endBuf) (hlineno : b'.lineno = b.lineno)
    (hmline : b'.mline = b.mline) : b'.take.1 = ((x : ℕ) : ℤ) ∧
    Mirrors inp.advance c.skip b'.take.2 := by
  have hhead : inp.text[inp.next]? = some x := hx
  have hchar : c.look 1 = some (byte x) := by
    change c.text[c.next]? = some (byte x)
    rw [h.getElem? (Nat.le_trans c.smark_le c.emark_le) h.next, hhead]
    rfl
  have hbyte : b'.startBuf b'.next = byte x :=
    Option.some.inj ((hb'.byte_next hlt).symm.trans hchar)
  have hskip := Cursor.skip_eq (Cursor.look_one_eq_some hchar)
  have hadv : inp.advance =
      { inp with
        next := inp.next + 1
        lineno := if x = Input.newline then inp.lineno + 1 else inp.lineno } := by
    unfold Input.advance
    rw [hhead]
  have hnext := h.next
  refine ⟨?_, hb'.take hlt, ?_, ?_, ?_, ?_, ?_⟩
  · change ((b'.startBuf b'.next).toNat : ℤ) = _
    rw [hbyte, toNat_byte]
  · rw [hskip, hadv]
    exact h.text
  · rw [hskip, hadv]
    dsimp only
    omega
  · rw [hskip, hadv]
    exact h.emark
  · rw [hadv]
    change (if b'.startBuf b'.next = 10 then b'.lineno + 1 else b'.lineno) = _
    rw [hbyte, hlineno, h.lineno, ← byte_newline]
    exact if_congr byte_inj rfl rfl
  · rw [hadv]
    exact hmline.trans h.mline

/-- When `ii_advance` has to read, the left edge leaves room and the file is not at its end, it
takes the next character behind a flush. -/
lemma Mirrors.advanceBy_of_reads {x : Fin maxChars} (h : Mirrors inp c b) (hreads : b.Reads)
    (hsmooth : b.Smooth) (hx : inp.look 1 = some x) :
    ∃ b', b.advanceBy .full = .ok (((x : ℕ) : ℤ), b') ∧ Mirrors inp.advance c.skip b' := by
  obtain ⟨hroom, hfile⟩ := hsmooth hreads
  obtain ⟨b₁, hrefill⟩ := (refillBy_full hroom h.tracks.end_le).2 hfile
  obtain ⟨-, got, hshift⟩ := Buffer.refillBy_spec h.tracks.end_le hrefill
  have hlt : b₁.next < b₁.endBuf := by
    have hpos := hshift.pos
    have hle := h.tracks.next_le
    have hleft := h.tracks.leftEdge_le_next
    rw [hshift.next, hshift.endBuf]
    omega
  obtain ⟨hval, hfollows⟩ := h.take hx (h.tracks.shifted hshift) hlt hshift.lineno hshift.mline
  refine ⟨b₁.take.2, ?_, hfollows⟩
  rw [(h.tracks.advanceBy_of_reads hreads).2 hroom, hrefill, ← hval]
  rfl

/-- In a smooth buffer `ii_advance` takes the next character, from the buffer or behind a flush. -/
lemma Mirrors.advanceBy {x : Fin maxChars} (h : Mirrors inp c b) (hb : b.Supplied)
    (hsmooth : b.Smooth) (hx : inp.look 1 = some x) :
    ∃ b', b.advanceBy .full = .ok (((x : ℕ) : ℤ), b') ∧ Mirrors inp.advance c.skip b' := by
  by_cases hreads : b.Reads
  · exact h.advanceBy_of_reads hreads hsmooth hx
  have hlook := h.look hb
  rw [hx] at hlook
  have hlt : b.next < b.endBuf := by
    by_contra hend
    unfold Buffer.look at hlook
    rw [if_pos (by omega)] at hlook
    by_cases heof : b.eofRead = true
    · rw [if_pos heof] at hlook
      change (-1 : ℤ) = ((x : ℕ) : ℤ) at hlook
      omega
    · have hbound := hb.ahead (Bool.eq_false_iff.mpr heof)
      have hlookahead : maxLookahead = 16 := rfl
      omega
  have hmore : b.noMoreChars = false := by simp [Buffer.noMoreChars, hlt]
  obtain ⟨hval, hfollows⟩ := h.take hx h.tracks hlt rfl rfl
  refine ⟨b.take.2, ?_, hfollows⟩
  rw [h.tracks.advanceBy_of_not_reads hreads, hmore, ← hval]
  rfl

end Advance

/-! ## One turn of the loop -/

namespace Yylex

/-- The next turn takes a character with `ii_advance`: there is a transition on it, or it is
skipped. -/
def Takes (t : ScanTables) (y : Yylex) : Prop :=
  y.inp.look 1 ≠ -1 ∧ (y.yynstate t ≠ yyf ∨ y.yylastaccept = 0)

end Yylex

open Yylex

/-- The loop on the text and the driver on the buffer are at the same point. -/
structure Level (s : Scan) (y : Yylex) : Prop where
  /-- The machine is in the same state. -/
  yystate : y.yystate = s.yystate
  /-- The last accepting state. -/
  yylastaccept : y.yylastaccept = s.yylastaccept
  /-- The anchors, when an accepting state has been seen. -/
  yyanchor : s.yylastaccept ≠ 0 → y.yyanchor = s.yyanchor
  /-- The buffer follows the input by positions. -/
  follows : ∃ c, Mirrors s.inp c y.inp
  /-- Whatever is to be read next is in the buffer or in the file. -/
  supplied : y.inp.Supplied

/-- A round of the loop on the text and a turn of the loop on the buffer end in the same way. -/
inductive Related : Scan ⊕ Outcome → Yylex ⊕ Stop → Prop
  | go {s : Scan} {y : Yylex} (h : Level s y) : Related (.inl s) (.inl y)
  | action {q : ℕ} {marked trimmed : Input} {marked' trimmed' : Buffer}
      (hmarked : ∃ c, Mirrors marked c marked') (htrimmed : ∃ c, Mirrors trimmed c trimmed')
      (hsupplied : trimmed'.Supplied) :
      Related (.inr (.action q marked trimmed)) (.inr (.action q marked' trimmed'))
  | badInput {inp : Input} {inp' : Buffer} (hinp : ∃ c, Mirrors inp c inp')
      (hsupplied : inp'.Supplied) : Related (.inr (.badInput inp)) (.inr (.badInput inp'))
  | eof (inp : Input) : Related (.inr (.eof inp)) (.inr .eof)

/-- The anchors are those of rules: none, the start or the end of a line, or both. -/
def Dfa.RuleAnchors (d : Dfa) : Prop :=
  ∀ q < d.nstates, Accepting d q → (d.accept q).anchor ≤ 3

section Turn

variable {d : Dfa} {outside : ℕ → UInt8} {s : Scan} {y : Yylex}

/-- The number that is printed for a state fits in its cell. -/
lemma toNat_yyaccept (outside : ℕ → UInt8) (hanchor : d.RuleAnchors) {q : ℕ} (hq : q < d.nstates) :
    ((d.tables outside).yyaccept q).toNat = yyAccept d q := by
  have hsmall : yyAccept d q < 256 := by
    unfold yyAccept
    rcases hstring : (d.accept q).string with - | a
    · exact Nat.zero_lt_succ 255
    · have hle := hanchor q hq (by rw [Accepting, hstring]; exact Option.some_ne_none a)
      dsimp only
      split <;> omega
  change (UInt8.ofNat (yyAccept d q)).toNat = yyAccept d q
  rw [UInt8.toNat_ofNat']
  omega

/-- The anchors are trimmed from the text as they are from the buffer. -/
lemma Mirrors.trim {inp : Input} {c : Cursor UInt8} {b : Buffer} (h : Mirrors inp c b)
    (anchor : ℕ) : ∃ c', Mirrors
      (let inp := if anchor &&& 2 ≠ 0 then inp.moveBack.pushback 1 else inp.moveBack
      if anchor &&& 1 ≠ 0 then inp.moveStart else inp) c' (Yylex.trim anchor b) := by
  have hback := h.moveBack
  have hpushed :
      ∃ c', Mirrors (if anchor &&& 2 ≠ 0 then inp.moveBack.pushback 1 else inp.moveBack) c'
        (if anchor &&& 2 ≠ 0 then (b.moveBack.pushback 1).2 else b.moveBack) := by
    split
    · exact ⟨_, hback.pushback⟩
    · exact ⟨_, hback⟩
  obtain ⟨c', hpushed⟩ := hpushed
  unfold Yylex.trim
  dsimp only
  split
  · exact ⟨_, hpushed.moveStart⟩
  · exact ⟨_, hpushed⟩

/-- Without a transition the two loops do the same, if the character that is skipped can be
taken. -/
lemma Level.related_failed (h : Level s y)
    (hskip : s.yylastaccept = 0 → y.inp.Smooth ∧ ∃ x, s.inp.look 1 = some x) :
    Related (.inr (yylexFail s)) (failed .full y) := by
  obtain ⟨c, hc⟩ := h.follows
  unfold yylexFail failed
  rw [h.yylastaccept]
  by_cases hlast : s.yylastaccept = 0
  · obtain ⟨hsmooth, x, hx⟩ := hskip hlast
    obtain ⟨b', hadvance, hfollows⟩ := hc.advanceBy h.supplied hsmooth hx
    rw [if_pos hlast, if_pos hlast, hadvance]
    exact .badInput ⟨_, hfollows⟩ (h.supplied.advanceBy hadvance)
  · rw [if_neg hlast, if_neg hlast, h.yyanchor hlast]
    exact .action ⟨_, hc.moveBack⟩ (hc.trim s.yyanchor) (supplied_trim h.supplied _)

/-- A character of the text is ahead in the buffer, and the printed table is asked for its cell. -/
lemma Level.yynstate_eq (h : Level s y) (outside : ℕ → UInt8) (hs : s.yystate < d.nstates)
    {x : Fin maxChars} (hx : s.inp.look 1 = some x) :
    y.inp.look 1 ≠ -1 ∧ y.yynstate (d.tables outside) = UInt8.ofInt (d.dtran s.yystate x) := by
  obtain ⟨c, hc⟩ := h.follows
  have hlook := hc.look h.supplied
  rw [hx] at hlook
  have hchar : y.inp.look 1 = ((x : ℕ) : ℤ) := hlook
  refine ⟨by omega, ?_⟩
  unfold yynstate
  rw [h.yystate, hchar, Int.toNat_natCast, yyNext_tables hs x.isLt]

/-- A transition of the DFA is one of the printed table. -/
lemma Level.goes (h : Level s y) (outside : ℕ → UInt8) (hs : s.yystate < d.nstates)
    {x : Fin maxChars} (hx : s.inp.look 1 = some x) {q : ℕ} (hq : q < d.nstates)
    (htrans : d.dtran s.yystate x = q) : y.Goes (d.tables outside) ∧
    (y.yynstate (d.tables outside)).toNat = q := by
  obtain ⟨hne, hcell⟩ := h.yynstate_eq outside hs hx
  have hnstate : (y.yynstate (d.tables outside)).toNat = q := by
    rw [hcell, htrans, toNat_ofInt_natCast hq]
  refine ⟨⟨hne, fun heq => ?_⟩, hnstate⟩
  have hval : (255 : ℕ) = q := by
    rw [← hnstate, heq]
    rfl
  have hle := d.le
  have hmax : dfaMax = 254 := rfl
  omega

/-- In a smooth buffer `ii_advance` takes the character ahead, and there is no overflow. -/
lemma Level.advance (h : Level s y) (hsmooth : y.inp.Smooth) {x : Fin maxChars}
    (hx : s.inp.look 1 = some x) : ∃ b' c, y.inp.advanceBy .full = .ok (((x : ℕ) : ℤ), b') ∧
    Yylex.advance .full y.inp = .ok b' ∧ b'.Supplied ∧
      Tracks c y.inp ∧ c.next < c.text.length ∧ Mirrors s.inp.advance c.skip b' := by
  obtain ⟨c, hc⟩ := h.follows
  obtain ⟨b', hadvance, hfollows⟩ := hc.advanceBy h.supplied hsmooth hx
  have hchar := hc.getElem? (Nat.le_trans c.smark_le c.emark_le) hc.next
  rw [show s.inp.text[s.inp.next]? = some x from hx] at hchar
  refine ⟨b', c, hadvance, ?_, h.supplied.advanceBy hadvance, hc.tracks,
    (List.getElem?_eq_some_iff.mp hchar).1, hfollows⟩
  unfold Yylex.advance
  rw [hadvance]
  simp only [Bind.bind, Except.bind]
  rw [if_neg (by omega)]
  rfl

/-- Step lemma: a turn of the loop on the buffer does what a round of the loop on the text does, as
long as the buffer is smooth when a character is taken. -/
theorem related_turn (outside : ℕ → UInt8) (hanchor : d.RuleAnchors) (h : Level s y)
    (hs : s.yystate < d.nstates) (hsmooth : y.Takes (d.tables outside) → y.inp.Smooth) :
    Related (yylexStep d s) (turn (d.tables outside) .full y) := by
  obtain ⟨c, hc⟩ := h.follows
  have hlook := hc.look h.supplied
  rcases hx : s.inp.look 1 with - | x
  · -- the end of the file
    rw [hx] at hlook
    have hend : y.inp.look 1 = -1 := hlook
    unfold yylexStep turn
    rw [hx, if_neg (not_not.mpr hend), h.yylastaccept]
    by_cases hlast : s.yylastaccept = 0
    · rw [if_neg (not_not.mpr hlast)]
      dsimp only
      rw [if_neg (not_not.mpr hlast)]
      exact .eof _
    · rw [if_pos hlast]
      dsimp only
      rw [if_pos hlast]
      exact h.related_failed fun hzero => absurd hzero hlast
  · obtain ⟨hne, hcell⟩ := h.yynstate_eq outside hs hx
    rcases d.entry s.yystate hs x with hfail | ⟨q, hq, htrans⟩
    · -- no transition
      have hnot : ¬ y.Goes (d.tables outside) := fun hgoes => hgoes.2 (by rw [hcell, hfail]; rfl)
      obtain ⟨-, hend, -⟩ | ⟨hturn, -⟩ := turn_of_not_goes .full hnot
      · exact absurd hend hne
      · unfold yylexStep
        rw [hturn, hx]
        dsimp only
        rw [if_neg (not_not.mpr hfail)]
        exact h.related_failed fun hlast => ⟨hsmooth ⟨hne, .inr (h.yylastaccept.trans hlast)⟩, x,
          hx⟩
    · -- a transition
      obtain ⟨hgoes, hnstate⟩ := h.goes outside hs hx hq htrans
      obtain ⟨b', c', -, hadvance, hsupplied, -, -, hfollows⟩ :=
        h.advance (hsmooth ⟨hne, .inl hgoes.2⟩) hx
      have haccept := toNat_yyaccept outside hanchor hq
      unfold yylexStep
      rw [turn_of_goes hgoes, hadvance, hnstate, hx]
      dsimp only
      rw [htrans, if_pos (natCast_ne_fail q), Int.toNat_natCast]
      unfold goTo
      rw [haccept]
      by_cases hacc : yyAccept d q = 0
      · rw [if_neg (not_not.mpr hacc), if_neg (not_not.mpr hacc)]
        refine .go ⟨rfl, h.yylastaccept, fun hlast => ?_, ⟨_, hfollows⟩, hsupplied⟩
        rfl
      · rw [if_pos hacc, if_pos hacc]
        exact .go ⟨rfl, rfl, fun _ => rfl, ⟨_, hfollows.markEnd⟩, hsupplied.markEnd⟩

end Turn

end Lex
