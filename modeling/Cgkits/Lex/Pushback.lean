import Cgkits.Lex.Lookahead
import Mathlib.Algebra.Order.Ring.Int
import Mathlib.Data.List.ReduceOption

/-!
# Giving characters back (`input.c`)

`ii_pushback` undoes calls of `ii_advance`.  Both count lines, the one up and the other down, but by
different tests: `ii_advance` counts newlines, and `ii_pushback` counts a NUL as well.

Between `ii_mark_start` and the pushback a scanner may also mark the end of the lexeme, make it the
previous one, or flush the buffer.  `Taking` has these calls and those of `ii_advance` that succeed,
and `exists_taken` says what a sequence of them does: the cursor moves over the characters that are
returned, and the line number grows by their newlines.  With what `ii_pushback` takes off again the
two agree exactly when no NUL is given back (`pushback_undoes_iff`).
-/

namespace Lex

open InputCall

/-- A call of `ii_advance` that returns the character, or a call that leaves the next character and
the start of the lexeme where they are. -/
def Taking : Option UInt8 → Buffer → Buffer → Prop
  | some x, b, b' => b.noMoreChars = false ∧ ∃ read, b.advanceBy read = .ok (x.toNat, b')
  | none, b, b' => b' = b.markEnd ∨ b' = b.markPrev ∨ ∃ read r, b.flushBy read false = .ok (r, b')

/-- The calls of `ii_advance` that return the characters again. -/
def again (reads : List Delivery) (cs : List UInt8) : List (InputCall × Option ℤ) :=
  List.zipWith (fun read x => (advance read, some (x.toNat : ℤ))) reads cs

/-- After a pushback the buffer is as it was before the characters `cs` were taken, which are there
to be taken again.  In front of them the characters `before` have been taken since the start of the
lexeme. -/
structure Undoes (before cs : List UInt8) (b b' : Buffer) : Prop where
  /-- The lexeme has the characters in front, so that it is empty when there are none. -/
  next_eq : b'.next = b'.smark + before.length
  /-- The next character is that of before. -/
  unread : b'.unread = b.unread
  /-- The line is that of before. -/
  lineno : b'.lineno = b.lineno
  /-- The characters are returned again. -/
  again : ∀ reads : List Delivery, reads.length = cs.length →
    ∃ b'', Trace Step (again reads cs) b' b''
  /-- The marks are in the order of the text. -/
  ordered : b'.Ordered

variable {c : Cursor UInt8} {b b' b₀ b₁ b₂ : Buffer} {content : List UInt8} {x : UInt8}
  {cs : List UInt8} {l : List (InputCall × Option ℤ)} {l' l₁ l₂ : List (Option UInt8)}

/-! ## Taking characters -/

/-- The cursor has moved over the characters, and the lines have been counted. -/
structure Taken (cs : List UInt8) (c c' : Cursor UInt8) (b b' : Buffer) : Prop where
  /-- The cursor is beside the buffer. -/
  tracks : Tracks c' b'
  /-- The cursor is in the same text as before. -/
  text : c'.text = c.text
  /-- The lexeme has the same start. -/
  smark : c'.smark = c.smark
  /-- It has moved over the characters. -/
  next : c'.next = c.next + cs.length
  /-- They are the next ones of the text. -/
  chars : c.unread.take cs.length = cs
  /-- The newlines have been counted. -/
  lineno : b'.lineno = b.lineno + cs.count 10
  /-- When there are any, the characters ahead are in the buffer. -/
  ahead : cs ≠ [] ∨ b.Ahead → b'.Ahead

/-- When no character has been given back the text is where it was. -/
lemma Taken.of_eq (h : Tracks c b') {c₀ : Cursor UInt8} (htext : c.text = c₀.text)
    (hsmark : c.smark = c₀.smark) (hnext : c.next = c₀.next) (hline : b'.lineno = b.lineno)
    (hahead : b.Ahead → b'.Ahead) : Taken [] c₀ c b b' where
  tracks := h
  text := htext
  smark := hsmark
  next := hnext
  chars := rfl
  lineno := by simpa using hline
  ahead hb := hahead (hb.resolve_left fun hne => hne rfl)

/-- What is taken by one call and then by others is taken one behind the other. -/
lemma Taken.trans {c₁ c₂ c₃ : Cursor UInt8} {b₃ : Buffer} {cs' : List UInt8}
    (h : Taken cs c₁ c₂ b₁ b₂) (h' : Taken cs' c₂ c₃ b₂ b₃) : Taken (cs ++ cs') c₁ c₃ b₁ b₃ where
  tracks := h'.tracks
  text := h'.text.trans h.text
  smark := h'.smark.trans h.smark
  next := by rw [h'.next, h.next, List.length_append, Nat.add_assoc]
  chars := by
    have hrest : c₂.unread = c₁.unread.drop cs.length := by
      rw [Cursor.unread, Cursor.unread, h.text, h.next, List.drop_drop]
    have hchars' := h'.chars
    rw [hrest] at hchars'
    rw [List.length_append, List.take_add, h.chars, hchars']
  lineno := by
    rw [h'.lineno, h.lineno, List.count_append]
    omega
  ahead hb := by
    by_cases hnil : cs' = []
    · rw [hnil, List.append_nil] at hb
      exact h'.ahead (.inr (h.ahead hb))
    · exact h'.ahead (.inl hnil)

/-- A call that returns the next character takes it. -/
lemma Tracks.taken (h : Tracks c b) (hlt : b.next < b.endBuf) (hx : ((x.toNat : ℤ), b') = b.take)
    (hline : b₁.lineno = b.lineno) (hahead : b'.Ahead) : Taken [x] c c.skip b₁ b' := by
  obtain ⟨hval, rfl⟩ := Prod.mk.inj hx
  obtain rfl : x = b.startBuf b.next := UInt8.toNat_inj.mp (Int.natCast_inj.mp hval)
  have hlook := h.byte_next hlt
  have hskip := Cursor.skip_eq (Cursor.look_one_eq_some hlook)
  exact
    { tracks := h.take hlt
      text := by rw [hskip]
      smark := by rw [hskip]
      next := by rw [hskip]; rfl
      chars := by
        rw [Cursor.look_eq] at hlook
        exact List.take_one.trans (by rw [List.head?_eq_getElem?, hlook]; rfl)
      lineno := by
        change (if b.startBuf b.next = 10 then b.lineno + 1 else b.lineno) = _
        rw [hline, List.count_singleton]
        by_cases hten : b.startBuf b.next = 10 <;> simp [hten]
      ahead := fun _ => hahead }

/-- A call of `ii_advance` that returns a character takes this character. -/
lemma Tracks.taking_some (h : Tracks c b) (hr : Taking (some x) b b') :
    Taken [x] c c.skip b b' := by
  obtain ⟨hmore, read, hadv⟩ := hr
  have hahead := h.ahead_of_advance hadv (by omega)
  obtain ⟨⟨-, hno⟩ | hx, -⟩ | ⟨b₁, h₁, hlt, hline, htake⟩ := h.advance_cases hadv
  · rw [hmore] at hno
    cases hno
  · omega
  · exact h₁.taken hlt htake hline.symm hahead

/-- A call that returns no character takes none. -/
lemma Tracks.taking_none (h : Tracks c b) (hr : Taking none b b') : ∃ c', Taken [] c c' b b' := by
  rcases hr with rfl | rfl | ⟨read, r, hflush⟩
  · exact ⟨_, .of_eq h.markEnd rfl rfl rfl rfl fun ha => ha⟩
  · exact ⟨_, .of_eq h.markPrev rfl rfl rfl rfl fun ha => ha⟩
  · have hstep : Step (InputCall.flush read false, some r) b b' := step_flush.mpr ⟨r, rfl, hflush⟩
    have hline : b'.lineno = b.lineno := by
      obtain ⟨-, rfl, -⟩ | ⟨-, rfl, -⟩ | ⟨-, rfl, -⟩ | ⟨-, -, -, got, hshift⟩ | ⟨-, -, hforce, -⟩ :=
        Buffer.flushBy_cases h.end_le hflush
      · exact rfl
      · exact rfl
      · exact rfl
      · exact hshift.lineno
      · cases hforce
    rcases h.flush hflush with htracks | ⟨hforce, -⟩
    · exact ⟨c, .of_eq htracks rfl rfl rfl hline (h.ahead hstep trivial)⟩
    · cases hforce

/-- A sequence of these calls takes the characters that it returns. -/
lemma exists_taken (hl : Trace Taking l' b b') (h : Tracks c b) :
    ∃ c', Taken l'.reduceOption c c' b b' := by
  induction hl generalizing c with
  | nil s => exact ⟨c, .of_eq h rfl rfl rfl rfl fun ha => ha⟩
  | @cons i l s t u hstep _ ih =>
    rcases i with - | x
    · obtain ⟨c₁, h₁⟩ := h.taking_none hstep
      obtain ⟨c', h'⟩ := ih h₁.tracks
      exact ⟨c', h₁.trans h'⟩
    · have h₁ := h.taking_some hstep
      obtain ⟨c', h'⟩ := ih h₁.tracks
      exact ⟨c', h₁.trans h'⟩

/-! ## Giving them back -/

/-- The last characters that have been taken are in the buffer. -/
lemma Taken.bytes {c' : Cursor UInt8} (h : Taken cs c c' b b') (hs : c.smark ≤ c.next) :
    b'.bytes (b'.next - cs.length) cs.length = cs := by
  have hsmark := h.tracks.smark
  have hle := h.tracks.next_le
  have hleft := h.tracks.leftEdge_le
  have hpos := h.smark
  have hnext := h.next
  have hlen :
    (b'.bytes (b'.next - cs.length) cs.length).length = cs.length := by simp [Buffer.bytes]
  refine List.ext_getElem? fun i => ?_
  by_cases hi : i < cs.length
  · have hbyte := h.tracks.byte (b'.next - cs.length + i) (by omega) (by omega)
    have hidx : c'.next + (b'.next - cs.length + i) - b'.next = c.next + i := by omega
    rw [hidx, h.text] at hbyte
    have hchar : cs[i]? = c.text[c.next + i]? := by
      have htake := congrArg (fun l => l[i]?) h.chars
      rw [← htake, List.getElem?_take_of_lt hi, Cursor.unread, List.getElem?_drop]
    rw [hchar, hbyte]
    simp [Buffer.bytes, hi]
  · rw [List.getElem?_eq_none (Nat.le_of_not_lt (hlen.symm ▸ hi)),
      List.getElem?_eq_none (Nat.le_of_not_lt hi)]

/-- The characters that are not returned are those of the text. -/
lemma Tracks.unread (h : Tracks c b) : b.unread = c.unread := by
  have hnext := h.next_le
  have hleft := h.leftEdge_le_next
  have hwindow : b.window = c.unread.take (b.endBuf - b.next) := by
    refine List.ext_getElem? fun i => ?_
    by_cases hi : i < b.endBuf - b.next
    · have hbyte := h.byte (b.next + i) (by omega) (by omega)
      have hidx : c.next + (b.next + i) - b.next = c.next + i := by omega
      rw [hidx] at hbyte
      rw [List.getElem?_take_of_lt hi, Cursor.unread, List.getElem?_drop, hbyte]
      simp [Buffer.window, hi]
    · have hlen : b.window.length = b.endBuf - b.next := by simp [Buffer.window]
      rw [List.getElem?_eq_none (Nat.le_of_not_lt (hlen.symm ▸ hi)), List.getElem?_take_eq_none
        (Nat.le_of_not_lt hi)]
  have hfile : b.file = c.unread.drop (b.endBuf - b.next) := by
    rw [h.file, Cursor.unread, List.drop_drop]
    congr 1
    omega
  rw [Buffer.unread, hwindow, hfile, List.take_append_drop]

/-- The characters that are in the buffer are returned without a flush. -/
lemma exists_again (cs : List UInt8) :
    ∀ {b : Buffer} {reads : List Delivery}, reads.length = cs.length → b.beenCalled = true →
    b.next + cs.length ≤ b.endBuf →
    (cs ≠ [] → b.eofRead = false → b.next + cs.length + maxLookahead ≤ b.endBuf) →
    b.bytes b.next cs.length = cs → ∃ b', Trace Step (again reads cs) b b' := by
  induction cs with
  | nil =>
    intro b reads hlen _ _ _ _
    obtain rfl := List.length_eq_zero_iff.mp hlen
    exact ⟨b, .nil b⟩
  | cons x cs ih =>
    intro b reads hlen hcalled hle hsafe hbytes
    rcases reads with - | ⟨read, reads⟩
    · cases hlen
    · rw [List.length_cons] at hle hsafe
      have hcons :
          b.bytes b.next (cs.length + 1) = b.startBuf b.next :: b.take.2.bytes
          (b.next + 1) cs.length := by
        rw [Buffer.bytes, List.range_succ_eq_map, List.map_cons, List.map_map]
        congr 1
        refine List.map_congr_left fun i _ => ?_
        rw [Function.comp_apply, Nat.succ_eq_add_one, Nat.add_comm i 1, ← Nat.add_assoc]
        rfl
      rw [List.length_cons, hcons] at hbytes
      obtain ⟨rfl, hrest⟩ := List.cons.inj hbytes
      have hstep : Step (advance read, _) b b.take.2 := step_of_safe hcalled (by omega) fun he => by
        have hbound := hsafe (List.cons_ne_nil _ _) he
        omega
      obtain ⟨b', hb'⟩ := ih (b := b.take.2) (Nat.succ.inj hlen) hcalled
        (by
          change b.next + 1 + cs.length ≤ b.endBuf
          omega)
        (fun _ he => by
          have hbound := hsafe (List.cons_ne_nil _ _) he
          change b.next + 1 + cs.length + maxLookahead ≤ b.endBuf
          omega) hrest
      exact ⟨b', .cons hstep hb'⟩

/-- The line after a pushback: the NULs have been taken for newlines. -/
lemma Taken.lineBefore {c' : Cursor UInt8} (h : Taken cs c c' b b') (hs : c.smark ≤ c.next) :
    b'.lineBefore cs.length = b.lineno - cs.count 0 := by
  have hcount : ∀ l : List UInt8, l.countP (Buffer.EndsLine ·) = l.count 10 + l.count 0 := by
    intro l
    induction l with
    | nil => rfl
    | cons x l ih =>
      rw [List.countP_cons, ih, List.count_cons, List.count_cons]
      by_cases hten : x = 10
      · simp [Buffer.EndsLine, hten]
        omega
      · by_cases hzero : x = 0
        · simp [Buffer.EndsLine, hzero]
          omega
        · simp [Buffer.EndsLine, hten, hzero]
  rw [Buffer.lineBefore, h.bytes hs, h.lineno, hcount]
  omega

/-- Giving back the last characters that have been taken since the start of the lexeme undoes the
calls that have taken them, exactly when no NUL is among them. -/
theorem pushback_undoes_iff (h₀ : Session content l b₀) (h₁ : Trace Taking l₁ b₀.markStart b₁)
    (h₂ : Trace Taking l₂ b₁ b₂) :
    Undoes l₁.reduceOption l₂.reduceOption b₁ (b₂.pushback l₂.reduceOption.length).2 ↔
    0 ∉ l₂.reduceOption := by
  obtain ⟨c₀, -, hc₀⟩ := h₀.exists_tracks
  obtain ⟨c₁, ht₁⟩ := exists_taken h₁ hc₀.markStart
  obtain ⟨c₂, ht₂⟩ := exists_taken h₂ ht₁.tracks
  generalize l₁.reduceOption = cs₁ at *
  generalize l₂.reduceOption = cs₂ at *
  have hstart : c₁.smark = c₀.next := ht₁.smark
  have hnext₁ : c₁.next = c₀.next + cs₁.length := ht₁.next
  have hnext₂ := ht₂.next
  have hsmark₂ := ht₂.smark
  have hs : c₁.smark ≤ c₁.next := by omega
  have hc₂ := ht₂.tracks
  have hbase := hc₂.smark
  have hle := hc₂.smark_le_next
  have hk : cs₂.length = min (cs₂.length : ℤ).toNat (b₂.next - b₂.smark) := by omega
  have hpush := hc₂.pushback cs₂.length
  have heq := Buffer.pushback_eq cs₂.length hle hk
  have hlineno : (b₂.pushback cs₂.length).2.lineno = b₁.lineno - cs₂.count 0 := by
    rw [heq]
    exact ht₂.lineBefore hs
  constructor
  · intro hundo
    have hline := hundo.lineno
    rw [hlineno] at hline
    exact List.count_eq_zero.mp (by omega)
  · intro hzero
    exact
      { next_eq := by
          rw [heq]
          change b₂.next - cs₂.length = b₂.smark + cs₁.length
          omega
        unread := by
          rw [hpush.unread, ht₁.tracks.unread, Cursor.unread, Cursor.unread]
          change c₂.text.drop (max c₂.smark (c₂.next - _)) = _
          rw [ht₂.text]
          congr 1
          omega
        lineno := by
          rw [hlineno, List.count_eq_zero.mpr hzero]
          omega
        again := by
          intro reads hlen
          have hbytes := ht₂.bytes hs
          refine exists_again cs₂ hlen hpush.called ?_ ?_ ?_
          · rw [heq]
            have hend := hc₂.next_le
            change b₂.next - cs₂.length + cs₂.length ≤ b₂.endBuf
            omega
          · rw [heq]
            intro hne he
            have hahead := ht₂.ahead (.inl hne) he
            change b₂.next - cs₂.length + cs₂.length + maxLookahead ≤ b₂.endBuf
            omega
          · rw [heq]
            exact hbytes
        ordered := hpush.ordered }

/-- A session with a long file, and one character that is taken after the start of the lexeme has
been marked. -/
lemma exists_takes (x : UInt8) : ∃ b₀ b₁, Session (List.replicate bufSize x)
    [(advance .full, some 10)] b₀ ∧ Taking (some x) b₀.markStart b₁ := by
  obtain ⟨b₀, hfirst, hnext, hcalled, heof, hend⟩ :=
    exists_first (Nat.le_of_eq (@List.length_replicate _ bufSize (x : UInt8)).symm)
  have hlen : maxLexemeLen = 1024 := rfl
  have hsession : Session (List.replicate bufSize x) [(advance .full, some 10)] b₀ :=
    ⟨⟨.full, some 10, rfl⟩, .cons hfirst (.nil b₀)⟩
  obtain ⟨c₀, hspec, hc₀⟩ := hsession.exists_tracks
  obtain ⟨c₁, hskip, hnil⟩ := Trace.cons_iff.mp hspec
  obtain rfl := Trace.nil_iff.mp hnil
  have hchar : b₀.startBuf b₀.next = x := by
    rcases hskip with ⟨-, hzero | hone⟩ | ⟨y, -, -, rfl⟩
    · cases hzero
    · cases hone
    · have hlook := hc₀.byte_next (by omega)
      rw [Cursor.skip_eq (Nat.succ_pos _)] at hlook
      have hsome : (List.replicate bufSize x)[0]? = some (b₀.startBuf b₀.next) := hlook
      rw [List.getElem?_replicate, if_pos (by decide)] at hsome
      exact (Option.some.inj hsome).symm
  have hmore : b₀.markStart.noMoreChars = false := by
    have heof' : b₀.markStart.eofRead = false := heof
    simp [Buffer.noMoreChars, heof']
  have hadv : b₀.markStart.advanceBy .full = .ok b₀.markStart.take :=
    advanceBy_of_safe hcalled (by change b₀.next < b₀.endBuf; omega) fun _ => by
      change b₀.next + maxLookahead < b₀.endBuf
      omega
  refine ⟨b₀, b₀.markStart.take.2, hsession, hmore, .full, ?_⟩
  rw [hadv]
  have htake : b₀.markStart.take.1 = x.toNat := by
    change ((b₀.startBuf b₀.next).toNat : ℤ) = _
    rw [hchar]
  rw [← htake]

/-- A letter that has been read is given back, and the buffer is as before. -/
theorem pushback_undoes_iff_letter : ∃ b₀ b₁ : Buffer, Session (List.replicate bufSize 97)
    [(advance .full, some 10)] b₀ ∧ Undoes [] [97] b₀.markStart (b₁.pushback 1).2 := by
  obtain ⟨b₀, b₁, hsession, htake⟩ := exists_takes 97
  exact ⟨b₀, b₁, hsession,
    (pushback_undoes_iff hsession (.nil b₀.markStart) (.cons htake (.nil b₁))).mpr (by decide)⟩

/-- A NUL is given back, and the line number is too small. -/
theorem not_pushback_undoes_nul : ¬ ∀ content l b₀ l₁ b₁ l₂ b₂, Session content l b₀ →
    Trace Taking l₁ b₀.markStart b₁ → Trace Taking l₂ b₁ b₂ →
    Undoes l₁.reduceOption l₂.reduceOption b₁ (b₂.pushback l₂.reduceOption.length).2 := by
  intro hall
  obtain ⟨b₀, b₁, hsession, htake⟩ := exists_takes 0
  have hline := (hall _ _ _ _ _ _ _ hsession (.nil b₀.markStart) (.cons htake (.nil b₁))).lineno
  obtain ⟨c₀, -, hc₀⟩ := hsession.exists_tracks
  have htaken := hc₀.markStart.taking_some htake
  have hsmark := htaken.tracks.smark
  have hnext := htaken.next
  have hstart := htaken.smark
  have hle := htaken.tracks.smark_le_next
  have hstart' : c₀.markStart.smark = c₀.markStart.next := rfl
  have hk : 1 = min (1 : ℤ).toNat (b₁.next - b₁.smark) := by
    rw [List.length_singleton] at hnext
    have hone : (1 : ℤ).toNat = 1 := rfl
    omega
  have hback := htaken.lineBefore (Nat.le_refl _)
  have heq : (b₁.pushback 1).2.lineno = b₁.lineBefore 1 := by rw [Buffer.pushback_eq 1 hle hk]
  have hline' : (b₁.pushback 1).2.lineno = b₀.markStart.lineno := hline
  have hone : b₁.lineBefore 1 = b₀.markStart.lineno - 1 := hback
  omega

end Lex
