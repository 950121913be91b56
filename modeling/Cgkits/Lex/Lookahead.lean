import Cgkits.Lex.Marks

/-!
# What a scanner may look at (`input.c`)

`ii_look` returns `0` for a byte that has not been loaded.  It does not come to this as long as a
scanner looks at no more than `_MAX_LOOKAHEAD` characters: after an `ii_advance` that succeeds, this
many are in the buffer, or all that are left of the file (`look_spec`).  The invariant is `Ahead`,
which says so for a buffer that is still being filled.  Only `ii_newfile` breaks it, until the next
`ii_advance`.

`ii_advance` reports an overflow when there is too little room in front of the left edge.  The left
edge is the start of the previous lexeme, if that has been marked, so the text that has been skipped
since then counts as well (`advance_overflow`).
-/

namespace Lex

open InputCall

/-- The call reads with a `read` that delivers as many bytes as it is asked for, or all that are
left. -/
def InputCall.Full : InputCall → Prop
  | advance read => read = .full
  | flush read _ => read = .full
  | _ => True

/-- The call opens no other file, so that the text is the same. -/
def InputCall.Stays : InputCall → Prop
  | newfile (some _) => False
  | _ => True

/-- The characters that a scanner may look at are in the buffer, unless the file is at its end. -/
def Buffer.Ahead (b : Buffer) : Prop := b.eofRead = false → b.next + maxLookahead ≤ b.endBuf

/-- At the end of the file nothing is left of it. -/
def Buffer.Drained (b : Buffer) : Prop := b.eofRead = true → b.file = []

variable {c : Cursor UInt8} {b b' : Buffer} {content : List UInt8} {read : Delivery}
  {call : InputCall} {r : Option ℤ} {l l₁ l₂ : List (InputCall × Option ℤ)}

/-! ## Lookahead -/

/-- After a flush that has moved the buffer, and after one more character has been returned. -/
lemma Buffer.Shifted.ahead {s got : ℕ} (h : b.Shifted read s got b') (hs : s ≤ b.next)
    (hnext : b.next ≤ b.endBuf) : (b'.eofRead = false → b'.next + 1 + maxLookahead ≤ b'.endBuf) ∧
      (read = .full → b.eofRead = false → b'.Drained) := by
  have hlen : maxLexemeLen = 1024 := rfl
  have hlook : maxLookahead = 16 := rfl
  constructor
  · intro he
    have hgot := (h.more he).2
    rw [h.next, h.endBuf]
    omega
  · intro hread hb he
    rcases h.eof hread he with hb' | hfile
    · rw [hb] at hb'
      cases hb'
    · exact hfile

/-- After an `ii_advance` that reports no overflow the characters ahead are in the buffer. -/
lemma Tracks.ahead_of_advance {x : ℤ} (h : Tracks c b) (hr : b.advanceBy read = .ok (x, b'))
    (hx : x ≠ -1) : b'.Ahead := by
  obtain ⟨-, rfl, hmore⟩ | ⟨hx', -⟩ | ⟨-, hsafe, htake⟩ | ⟨-, -, got, b₁, hshift, htake⟩ :=
    Buffer.advanceBy_cases h.called h.end_le hr
  · intro he
    unfold Buffer.noMoreChars at hmore
    rw [he] at hmore
    cases hmore
  · exact absurd hx' hx
  · obtain ⟨-, rfl⟩ := Prod.mk.inj htake
    intro he
    change b.next + 1 + maxLookahead ≤ b.endBuf
    rcases hsafe with heof | hsafe
    · have he' : b.eofRead = false := he
      rw [heof] at he'
      cases he'
    · omega
  · obtain ⟨-, rfl⟩ := Prod.mk.inj htake
    exact (hshift.ahead h.leftEdge_le_next h.next_le).1

/-- What a call does to the end of the buffer: it opens another file, or leaves the end where it is
and moves the next character back or by one, or fills the buffer. -/
lemma Tracks.step_cases (h : Tracks c b) (hr : Step (call, r) b b') :
    (¬ call.Stays ∧ b'.eofRead = false) ∨
    (b'.eofRead = b.eofRead ∧ b'.endBuf = b.endBuf ∧ b'.file = b.file ∧ (b'.next ≤ b.next ∨
      (b'.next = b.next + 1 ∧ (b.eofRead = true ∨ b.next < b.endBuf - maxLookahead)))) ∨
    (b'.Ahead ∧ (call.Full → b'.Drained)) := by
  have hle : b.leftEdge ≤ b.next := h.leftEdge_le_next
  rcases call with opened | read | n | n | - | - | - | - | - | ⟨read, force⟩
  · obtain ⟨-, rfl⟩ := Prod.mk.inj (Except.ok.inj hr)
    rcases opened with - | p
    · exact .inr (.inl ⟨rfl, rfl, rfl, .inl (Nat.le_refl _)⟩)
    · exact .inl ⟨id, rfl⟩
  · obtain ⟨x, -, hadv⟩ := step_advance.mp hr
    obtain ⟨-, rfl, -⟩ | ⟨-, rfl, -⟩ | ⟨-, hsafe, htake⟩ | ⟨heof, -, got, b₁, hshift, htake⟩ :=
      Buffer.advanceBy_cases h.called h.end_le hadv
    · exact .inr (.inl ⟨rfl, rfl, rfl, .inl (Nat.le_refl _)⟩)
    · exact .inr (.inl ⟨rfl, rfl, rfl, .inl (Nat.le_refl _)⟩)
    · obtain ⟨-, rfl⟩ := Prod.mk.inj htake
      exact .inr (.inl ⟨rfl, rfl, rfl, .inr ⟨rfl, hsafe⟩⟩)
    · obtain ⟨-, rfl⟩ := Prod.mk.inj htake
      obtain ⟨hahead, hdrained⟩ := hshift.ahead hle h.next_le
      exact .inr (.inr ⟨hahead, fun hfull => hdrained hfull heof⟩)
  · obtain ⟨-, rfl⟩ := Prod.mk.inj (Except.ok.inj hr)
    exact .inr (.inl ⟨rfl, rfl, rfl, .inl (Nat.le_refl _)⟩)
  · obtain ⟨-, rfl⟩ := Prod.mk.inj (Except.ok.inj hr)
    refine .inr (.inl ?_)
    rw [Buffer.pushback_eq n h.smark_le_next rfl]
    exact ⟨rfl, rfl, rfl, .inl (Nat.sub_le _ _)⟩
  · obtain ⟨-, rfl⟩ := Prod.mk.inj (Except.ok.inj hr)
    exact .inr (.inl ⟨rfl, rfl, rfl, .inl (Nat.le_refl _)⟩)
  · obtain ⟨-, rfl⟩ := Prod.mk.inj (Except.ok.inj hr)
    exact .inr (.inl ⟨rfl, rfl, rfl, .inl (Nat.le_refl _)⟩)
  · obtain ⟨-, rfl⟩ := Prod.mk.inj (Except.ok.inj hr)
    exact .inr (.inl ⟨rfl, rfl, rfl, .inl (Nat.le_refl _)⟩)
  · obtain ⟨-, rfl⟩ := Prod.mk.inj (Except.ok.inj hr)
    refine .inr (.inl ?_)
    unfold Buffer.moveStart
    split <;> exact ⟨rfl, rfl, rfl, .inl (Nat.le_refl _)⟩
  · obtain ⟨-, rfl⟩ := Prod.mk.inj (Except.ok.inj hr)
    exact .inr (.inl ⟨rfl, rfl, rfl, .inl h.emark_le⟩)
  · obtain ⟨x, -, hflush⟩ := step_flush.mp hr
    obtain ⟨-, rfl, -⟩ | ⟨-, rfl, -⟩ | ⟨-, rfl, -⟩ | ⟨-, heof, -, got, hshift⟩ |
        ⟨-, heof, -, got, hshift⟩ :=
      Buffer.flushBy_cases h.end_le hflush
    · exact .inr (.inl ⟨rfl, rfl, rfl, .inl (Nat.le_refl _)⟩)
    · exact .inr (.inl ⟨rfl, rfl, rfl, .inl (Nat.le_refl _)⟩)
    · exact .inr (.inl ⟨rfl, rfl, rfl, .inl (Nat.le_refl _)⟩)
    · obtain ⟨hahead, hdrained⟩ := hshift.ahead hle h.next_le
      exact .inr (.inr ⟨fun he => Nat.le_trans (Nat.add_le_add_right (Nat.le_succ _) _) (hahead he),
        fun hfull => hdrained hfull heof⟩)
    · obtain ⟨hahead, hdrained⟩ := hshift.ahead (Nat.le_refl _) h.next_le
      exact .inr (.inr ⟨fun he => Nat.le_trans (Nat.add_le_add_right (Nat.le_succ _) _) (hahead he),
        fun hfull => hdrained hfull heof⟩)

/-- The calls keep as many characters ahead in the buffer as can be looked at. -/
lemma Tracks.ahead (h : Tracks c b) (hr : Step (call, r) b b') (hstays : call.Stays)
    (hahead : b.Ahead) : b'.Ahead := by
  obtain ⟨hnew, -⟩ | ⟨heof, hend, -, hnext⟩ | ⟨hfilled, -⟩ := h.step_cases hr
  · exact absurd hstays hnew
  · intro he
    rw [heof] at he
    have hbound := hahead he
    rw [hend]
    rcases hnext with hnext | ⟨hnext, heof' | hsafe⟩
    · omega
    · rw [he] at heof'
      cases heof'
    · omega
  · exact hfilled

/-- When the buffer believes that the file has ended, the file has ended. -/
lemma Tracks.drained (h : Tracks c b) (hr : Step (call, r) b b') (hfull : call.Full)
    (hdrained : b.Drained) : b'.Drained := by
  obtain ⟨-, heof⟩ | ⟨heof, -, hfile, -⟩ | ⟨-, hfilled⟩ := h.step_cases hr
  · intro he
    rw [heof] at he
    cases he
  · intro he
    rw [hfile]
    exact hdrained (heof ▸ he)
  · exact hfilled hfull

/-- `ii_look` shows the characters of the text that are ahead. -/
lemma Tracks.look_eq (h : Tracks c b) (hahead : b.Ahead) (hdrained : b.Drained) {n : ℕ}
    (hpos : 1 ≤ n) (hle : n ≤ maxLookahead) :
    b.look n = (c.look n).elim (-1) fun x => (x.toNat : ℤ) := by
  have hnext := h.next_le
  have hleft : b.leftEdge ≤ b.next := h.leftEdge_le_next
  have hstart := h.next_le_leftEdge
  unfold Buffer.look
  by_cases hend : b.endBuf < b.next + n
  · -- the text is at its end
    rw [if_pos (by omega)]
    have heof : b.eofRead = true := by
      by_contra hne
      have hbound := hahead (Bool.eq_false_iff.mpr hne)
      omega
    have hlen : c.text.length ≤ c.next + b.endBuf - b.next :=
      List.drop_eq_nil_iff.mp (h.file ▸ hdrained heof)
    rw [if_pos heof, Cursor.look, List.getElem?_eq_none (by omega)]
    rfl
  · have hidx : ((b.next : ℤ) + (n - 1)).toNat = b.next + (n - 1) := by omega
    have hbyte := h.byte (b.next + (n - 1)) (by omega) (by omega)
    have hpos' : c.next + (b.next + (n - 1)) - b.next = c.next + (n - 1) := by omega
    rw [hpos'] at hbyte
    rw [if_neg (by omega), if_neg (by omega), hidx, Cursor.look, hbyte]
    rfl

/-- In a session whose reads deliver all they can, the buffer does not end before the file. -/
lemma Session.drained (h : Session content l b) (hfull : ∀ i ∈ l, i.1.Full) : b.Drained := by
  have hinv : (∃ c, Tracks c b) ∧ b.Drained := by
    refine (session_iff.mp h).2.invariant (fun b => (∃ c, Tracks c b) ∧ b.Drained) ?_
      ⟨⟨_, Tracks.opened content⟩, fun he => by cases he⟩
    rintro ⟨call, r⟩ hi b b' ⟨⟨c, hc⟩, hb⟩ hstep
    obtain ⟨c', -, hc'⟩ := hc.run hstep
    exact ⟨⟨c', hc'⟩, hc.drained hstep (hfull _ hi) hb⟩
  exact hinv.2

/-- After an `ii_advance` that reports no overflow, and whatever calls follow it on the same file,
`ii_look` shows the characters that are ahead in the text, and the end of the file behind them. -/
theorem look_spec (h : Session content (l₁ ++ (advance read, r) :: l₂) b)
    (hfull : ∀ i ∈ l₁ ++ (advance read, r) :: l₂, i.1.Full) (hr : r ≠ some (-1))
    (hstays : ∀ i ∈ l₂, i.1.Stays) : ∃ c, Trace Spec (l₁ ++ (advance read, r) :: l₂)
    (.start (10 :: content)) c ∧
      ∀ n : ℕ, 1 ≤ n → n ≤ maxLookahead →
        b.look n = (c.look n).elim (-1) fun x => (x.toNat : ℤ) := by
  obtain ⟨b₁, h₁, h₂⟩ := Trace.append_iff.mp (session_iff.mp h).2
  obtain ⟨b₂, hadv, h₂⟩ := Trace.cons_iff.mp h₂
  obtain ⟨c₁, -, hc₁⟩ := (Tracks.opened content).trace h₁
  obtain ⟨c₂, -, hc₂⟩ := hc₁.run hadv
  have hahead : b₂.Ahead := by
    obtain ⟨x, rfl, hx⟩ := step_advance.mp hadv
    exact hc₁.ahead_of_advance hx fun he => hr (by rw [he])
  have hinv : (∃ c, Tracks c b) ∧ b.Ahead := by
    refine h₂.invariant (fun b => (∃ c, Tracks c b) ∧ b.Ahead) ?_ ⟨⟨c₂, hc₂⟩, hahead⟩
    rintro ⟨call, r⟩ hi b b' ⟨⟨c, hc⟩, hb⟩ hstep
    obtain ⟨c', -, hc'⟩ := hc.run hstep
    exact ⟨⟨c', hc'⟩, hc.ahead hstep (hstays _ hi) hb⟩
  obtain ⟨c, hspec, hc⟩ := h.exists_tracks
  exact ⟨c, hspec, fun n hpos hle => hc.look_eq hinv.2 (h.drained hfull) hpos hle⟩

/-- After the first call on a file with one byte, `ii_look` shows this byte and then the end. -/
theorem look_spec_byte : ∃ b c, Session [97] [(advance .full, some 10)] b ∧
    Trace Spec [(advance .full, some 10)] (.start [10, 97]) c ∧
      ∀ n : ℕ, 1 ≤ n → n ≤ maxLookahead →
        b.look n = (c.look n).elim (-1) fun x => (x.toNat : ℤ) := by
  have hok : ∃ b, Step (advance .full, some 10) (Buffer.newfile [97]) b := ⟨_, rfl⟩
  obtain ⟨b, hb⟩ := hok
  have hsession : Session [97] ([] ++ (advance .full, some 10) :: []) b :=
    ⟨⟨.full, some 10, rfl⟩, .cons hb (.nil b)⟩
  obtain ⟨c, hspec, hlook⟩ := look_spec hsession (fun i hi => by
    obtain rfl := List.mem_singleton.mp hi
    exact rfl) (by decide) (fun i hi => by cases hi)
  exact ⟨b, c, hsession, hspec, hlook⟩

/-! ## Overflow -/

/-- An overflow is reported when the text from the left edge on is long. -/
lemma Tracks.overflow (h : Tracks c b) (hr : b.advanceBy read = .ok (-1, b')) :
    b' = b ∧ maxLexemeLen < b.next - b.leftEdge := by
  have hlen : maxLexemeLen = 1024 := rfl
  have hlook : maxLookahead = 16 := rfl
  have hchar : ∀ {b₁ : Buffer}, (-1, b') = b₁.take → False := by
    intro b₁ htake
    have hx : (-1 : ℤ) = (b₁.startBuf b₁.next).toNat := congrArg Prod.fst htake
    omega
  obtain ⟨hx, -, -⟩ | ⟨-, rfl, heof, hdanger, hroom⟩ | ⟨-, -, htake⟩ | ⟨-, -, got, b₁, -, htake⟩ :=
    Buffer.advanceBy_cases h.called h.end_le hr
  · cases hx
  · have hmore := h.more heof
    exact ⟨rfl, by omega⟩
  · exact (hchar htake).elim
  · exact (hchar htake).elim

/-- The last call of a session, on the buffer before it. -/
lemma Session.last (h : Session content (l ++ [(advance read, r)]) b) :
    ∃ b₀ c, Tracks c b₀ ∧ Step (advance read, r) b₀ b := by
  obtain ⟨b₀, hl, hlast⟩ := Trace.append_iff.mp (session_iff.mp h).2
  obtain ⟨b₁, hstep, hnil⟩ := Trace.cons_iff.mp hlast
  obtain rfl := Trace.nil_iff.mp hnil
  obtain ⟨c, -, hc⟩ := (Tracks.opened content).trace hl
  exact ⟨b₀, c, hc, hstep⟩

/-- `ii_advance` outside of the danger zone returns the next character without a read. -/
lemma advanceBy_of_safe (hcalled : b.beenCalled = true) (hlt : b.next < b.endBuf)
    (hsafe : b.eofRead = false → b.next + maxLookahead < b.endBuf) :
    b.advanceBy read = .ok b.take := by
  have hopened : b.opened = b := if_pos hcalled
  have hmore : b.noMoreChars = false := by simp [Buffer.noMoreChars, hlt]
  unfold Buffer.advanceBy
  rw [hopened]
  by_cases heof : b.eofRead = true
  · simp [hmore, heof]
  · rw [Bool.not_eq_true] at heof
    have hbound := hsafe heof
    have hdanger : ¬ b.endBuf - maxLookahead ≤ b.next := by omega
    simp [hmore, heof, Buffer.flushBy, hdanger, Bind.bind, Except.bind]

/-- Outside of the danger zone the call of `ii_advance` is the step that takes the next
character. -/
lemma step_of_safe (hcalled : b.beenCalled = true) (hlt : b.next < b.endBuf)
    (hsafe : b.eofRead = false → b.next + maxLookahead < b.endBuf) :
    Step (advance read, some ((b.startBuf b.next).toNat : ℤ)) b b.take.2 :=
  step_advance.mpr ⟨_, rfl, advanceBy_of_safe hcalled hlt hsafe⟩

/-- The calls that return so many characters from a buffer that has them. -/
lemma exists_advances (n : ℕ) : ∀ {b : Buffer}, b.beenCalled = true → b.eofRead = false →
    b.next + n + maxLookahead ≤ b.endBuf → ∃ l b', Trace Step l b b' ∧ b'.next = b.next + n ∧
    b'.smark = b.smark ∧
      b'.emark = b.emark ∧ b'.pmark = b.pmark ∧ b'.endBuf = b.endBuf ∧ b'.eofRead = false ∧
      b'.beenCalled = true := by
  induction n with
  | zero =>
    intro b hcalled heof _
    exact ⟨[], b, .nil b, rfl, rfl, rfl, rfl, rfl, heof, hcalled⟩
  | succ n ih =>
    intro b hcalled heof hle
    have hstep : Step (advance .full, _) b b.take.2 :=
      step_of_safe hcalled (by omega) fun _ => (by omega : b.next + maxLookahead < b.endBuf)
    obtain ⟨l, b', htrace, hnext, hsmark, hemark, hpmark, hend, heof', hcalled'⟩ :=
      ih (b := b.take.2) hcalled heof (by
      change b.next + 1 + n + maxLookahead ≤ b.endBuf
      omega)
    refine ⟨_, b', .cons hstep htrace, ?_, hsmark, hemark, hpmark, hend, heof', hcalled'⟩
    rw [hnext]
    change b.next + 1 + n = b.next + (n + 1)
    omega

/-- In a file that is long enough a flush fills the buffer. -/
lemma exists_shifted {s : ℕ} (hpos : s < b.endBuf) (hs : b.endBuf - s < maxLexemeLen + maxLookahead)
    (hlen : bufSize ≤ b.file.length) :
    ∃ b', b.refillBy .full s = .ok (1, b') ∧ b'.eofRead = b.eofRead := by
  have hone : maxLexemeLen = 1024 := rfl
  obtain ⟨need, hneed, hfit, -, hfill⟩ := Buffer.fillbuf_eq (s := b.endBuf - s) (by omega) hs
    { b with startBuf := fun i => if i < b.endBuf - s then b.startBuf (s + i) else b.startBuf i }
  have hgot : min need b.file.length = need := by omega
  dsimp only at hfill
  rw [hgot] at hfill
  have hfill' : Buffer.fillbufBy _ .full _ = _ := hfill
  unfold Buffer.refillBy
  simp only [hfill', Bind.bind, Except.bind]
  rw [if_neg (by omega)]
  exact ⟨_, rfl, if_neg (Nat.lt_irrefl _)⟩

/-- The first call on a long file fills the buffer and returns the newline. -/
lemma exists_first (hlen : bufSize ≤ content.length) :
    ∃ b, Step (advance .full, some 10) (Buffer.newfile content) b ∧ b.next = 1 ∧
      b.beenCalled = true ∧ b.eofRead = false ∧ 2 * maxLexemeLen + maxLookahead ≤ b.endBuf := by
  obtain ⟨b₁, hrefill, heof⟩ :=
    exists_shifted (b := (Buffer.newfile content).opened) (s := bufSize - 1)
    (by change bufSize - 1 < bufSize; decide) (by change bufSize - (bufSize - 1) < _; decide) hlen
  obtain ⟨-, got, hshift⟩ := Buffer.refillBy_spec (Nat.le_refl bufSize) hrefill
  have hchar : b₁.startBuf 0 = 10 := by
    rw [hshift.startBuf, if_neg, if_pos]
    · exact @Function.update_self ℕ (fun _ => UInt8) _ (bufSize - 1) 10 fun _ => 0
    · change 0 < bufSize - (bufSize - 1)
      decide
    · rintro ⟨hle, -⟩
      exact absurd hle (by change ¬ bufSize - (bufSize - 1) ≤ 0; decide)
  have hnext : b₁.next = 0 := hshift.next.trans (Nat.sub_self _)
  refine ⟨b₁.take.2,
    ?_, by rw [← Nat.zero_add 1, ← hnext]; rfl, hshift.called, heof, (hshift.more heof).1⟩
  have hadv : (Buffer.newfile content).advanceBy .full = .ok b₁.take := by
    have hflush : (Buffer.newfile content).opened.flushBy .full false = .ok (1, b₁) := hrefill
    have hmore : (Buffer.newfile content).opened.noMoreChars = false := rfl
    have heof₀ : (Buffer.newfile content).opened.eofRead = false := rfl
    unfold Buffer.advanceBy
    simp [hmore, heof₀, hflush, Bind.bind, Except.bind]
  have htake : b₁.take.1 = 10 := by
    change ((b₁.startBuf b₁.next).toNat : ℤ) = 10
    rw [hnext, hchar]
    rfl
  exact step_advance.mpr ⟨b₁.take.1, by rw [htake], hadv⟩

/-- A session in which the text behind the previous lexeme is skipped. -/
lemma exists_overflow : ∃ l b, Session (List.replicate bufSize 97)
    (l ++ [(advance .full, some (-1))]) b ∧ b.next = b.smark := by
  have hlen : maxLexemeLen = 1024 := rfl
  have hlook : maxLookahead = 16 := rfl
  obtain ⟨b₁, hfirst, hnext, hcalled, heof, hend⟩ :=
    exists_first (Nat.le_of_eq (@List.length_replicate _ bufSize (97 : UInt8)).symm)
  -- the lexeme that starts here becomes the previous one, and the rest of the buffer is skipped
  obtain ⟨l, b₂, hskip, hnext₂, -, -, hpmark, hend₂, heof₂, hcalled₂⟩ :=
    exists_advances (b₁.endBuf - maxLookahead - 1) (b := b₁.markStart.markPrev) hcalled heof (by
      change b₁.next + (b₁.endBuf - maxLookahead - 1) + maxLookahead ≤ b₁.endBuf
      omega)
  have hskipped : b₂.next = b₁.next + (b₁.endBuf - maxLookahead - 1) := hnext₂
  have hend' : b₂.endBuf = b₁.endBuf := hend₂
  have hover : Step (advance .full, some (-1)) b₂.markStart b₂.markStart := by
    have hleft : b₂.markStart.leftEdge = min b₂.next b₁.next := by
      have hpm : b₂.markStart.pmark = some b₁.next := hpmark
      rw [Buffer.leftEdge, hpm]
      rfl
    have hopened : b₂.markStart.opened = b₂.markStart := if_pos hcalled₂
    have heof' : b₂.markStart.eofRead = false := heof₂
    have hmore : b₂.markStart.noMoreChars = false := by simp [Buffer.noMoreChars, heof']
    have hdanger : b₂.markStart.endBuf - maxLookahead ≤ b₂.markStart.next := by
      change b₂.endBuf - maxLookahead ≤ b₂.next
      omega
    have hroom : b₂.markStart.leftEdge < maxLexemeLen := by omega
    have hadv : b₂.markStart.advanceBy .full = .ok (-1, b₂.markStart) := by
      unfold Buffer.advanceBy
      rw [hopened]
      simp [hmore, heof', Buffer.flushBy, hdanger, hroom, Bind.bind, Except.bind]
    exact step_advance.mpr ⟨-1, rfl, hadv⟩
  have hsession : Session (List.replicate bufSize 97)
      (((advance .full, some 10) :: (markStart, none) :: (markPrev, none) ::
      (l ++ [(markStart, none)])) ++
        [(advance .full, some (-1))]) b₂.markStart := by
    refine ⟨⟨.full, some 10, rfl⟩, .cons hfirst (.cons rfl (.cons rfl ?_))⟩
    have hmark : Step (markStart, none) b₂ b₂.markStart := rfl
    exact (hskip.append (.cons hmark (.nil _))).append (.cons hover (.nil _))
  exact ⟨_, _, hsession, rfl⟩

/-- `ii_advance` reports an overflow only if the text from the start of the previous lexeme to the
next character is longer than `_MAX_LEXEME_LEN`, or the text from the start of the lexeme when no
previous one has been marked. -/
theorem advance_overflow (h : Session content (l ++ [(advance read, some (-1))]) b) :
    maxLexemeLen < b.next - b.pmark.getD b.smark := by
  obtain ⟨b₀, c, hc, hstep⟩ := h.last
  obtain ⟨x, hval, hx⟩ := step_advance.mp hstep
  obtain rfl : -1 = x := Option.some.inj hval
  obtain ⟨rfl, hlong⟩ := hc.overflow hx
  rw [← hc.leftEdge_eq]
  exact hlong

/-- Behind a previous lexeme that is kept the buffer overflows though the lexeme itself would
fit. -/
theorem advance_overflow_skipped : ∃ l b, Session (List.replicate bufSize 97)
    (l ++ [(advance .full, some (-1))]) b ∧ maxLexemeLen < b.next - b.pmark.getD b.smark := by
  obtain ⟨l, b, hsession, -⟩ := exists_overflow
  exact ⟨l, b, hsession, advance_overflow hsession⟩

/-- With a previous lexeme that is far away an overflow is reported for an empty lexeme. -/
theorem not_advance_overflow_lexeme :
    ¬ ∀ content l read b, Session content (l ++ [(advance read, some (-1))]) b →
    maxLexemeLen < b.next - b.smark := by
  intro hall
  obtain ⟨l, b, hsession, heq⟩ := exists_overflow
  have hlong := hall _ _ _ _ hsession
  rw [heq, Nat.sub_self] at hlong
  exact absurd hlong (Nat.not_lt_zero _)

end Lex
