import Cgkits.Lex.Follows

/-!
# One scanning step (`lex.m`, `input.c`)

A scanning step of `yylex` is the part of its loop from the start of a lexeme to the action.  It
should mark the longest accepted prefix of the unread input and select its action.

Three things can go wrong.  The lexeme may lead back to the start state, whose number also says that
no accepting state has been seen.  A call of `ii_advance` may have to read when nothing of the file
is left, and end the program.  Or it may have to read when the lexeme leaves no room in the buffer;
then the start of the lexeme is moved, and what is marked is shorter than what has been read.
Otherwise the step is maximal munch (`maximalMunch_iff`).
-/

namespace Lex

open Machine Yylex

/-! ## The calls of `ii_advance` in a step -/

section Delivers

variable {c : Cursor UInt8} {b b' : Buffer} {read : Delivery}

/-- What suffices for some calls of `ii_advance` suffices for fewer. -/
lemma Buffer.Delivers.mono {m n : ℕ} (hle : m ≤ n) (h : b.Delivers n) : b.Delivers m := by
  induction m generalizing n b with
  | zero => trivial
  | succ m ih =>
    obtain ⟨n, rfl⟩ : ∃ k, n = k + 1 := ⟨n - 1, by omega⟩
    exact ⟨h.1, fun r b' hadvance => ih (by omega) (h.2 r b' hadvance)⟩

/-- Where the lexeme ends does not matter for the part of a flush that reads. -/
lemma refillBy_mark (b : Buffer) (s e : ℕ) (l : ℤ) :
    ({ b with emark := e, mline := l } : Buffer).refillBy read s = (b.refillBy read s).map fun p =>
      (p.1, { p.2 with emark := e - s, mline := l }) := by
  unfold Buffer.refillBy Buffer.fillbufBy
  simp only [Bind.bind, Except.bind]
  split_ifs
  · rfl
  · rfl
  · rcases read.got _ with - | got
    · rfl
    · dsimp only
      split_ifs <;> rfl

/-- Where the lexeme ends does not matter for `ii_advance`. -/
lemma exists_advanceBy_mark (read : Delivery) {b₁ : Buffer} (hcalled : b.beenCalled = true) {e : ℕ}
    {l : ℤ} (hb : b₁ = { b with emark := e, mline := l }) : ∃ e',
      b₁.advanceBy read = (b.advanceBy read).map fun p =>
        (p.1, { p.2 with emark := e', mline := l }) := by
  have hopened : b.opened = b := if_pos hcalled
  have hopened₁ : b₁.opened = b₁ := if_pos (by rw [hb]; exact hcalled)
  have hmore : b₁.noMoreChars = b.noMoreChars := by rw [hb]; rfl
  have heof : b₁.eofRead = b.eofRead := by rw [hb]
  have hnext : b₁.next = b.next := by rw [hb]
  have hend : b₁.endBuf = b.endBuf := by rw [hb]
  have hedge : b₁.leftEdge = b.leftEdge := by rw [hb]; rfl
  have hflush : ∃ e', b₁.flushBy read false =
      (b.flushBy read false).map fun p => (p.1, { p.2 with emark := e', mline := l }) := by
    unfold Buffer.flushBy
    rw [hmore, heof, hnext, hend, hedge]
    simp only [Bool.not_false, if_true]
    split_ifs
    · exact ⟨e, by rw [hb]; rfl⟩
    · exact ⟨e, by rw [hb]; rfl⟩
    · exact ⟨e, by rw [hb]; rfl⟩
    · exact ⟨e - b.leftEdge, by rw [hb]; exact refillBy_mark b b.leftEdge e l⟩
    · exact ⟨e, by rw [hb]; rfl⟩
  obtain ⟨e', hflush⟩ := hflush
  unfold Buffer.advanceBy
  rw [hopened, hopened₁]
  dsimp only
  rw [hmore, heof, hflush]
  split_ifs
  · exact ⟨e, by rw [hb]; rfl⟩
  · exact ⟨e, by rw [hb]; rfl⟩
  · refine ⟨e', ?_⟩
    rcases b.flushBy read false with fault | ⟨r, b₂⟩
    · rfl
    · simp only [Except.map, Bind.bind, Except.bind]
      by_cases hr : r < 0
      · rw [if_pos hr, if_pos hr]
      · rw [if_neg hr, if_neg hr]
        rfl

/-- Where the lexeme ends does not matter for what the calls of `ii_advance` find. -/
lemma Tracks.delivers_mark (h : Tracks c b) (n e : ℕ) (l : ℤ) :
    ({ b with emark := e, mline := l } : Buffer).Delivers n ↔ b.Delivers n := by
  induction n generalizing c b e with
  | zero => exact Iff.rfl
  | succ n ih =>
    have hopened : b.opened = b := if_pos h.called
    have hopened' :
      ({ b with emark := e, mline := l } : Buffer).opened = { b with emark := e, mline := l } :=
        if_pos h.called
    obtain ⟨e', hmark⟩ := exists_advanceBy_mark .full (e := e) (l := l) h.called rfl
    have hsmooth : ({ b with emark := e, mline := l } : Buffer).Smooth ↔ b.Smooth := by
      unfold Buffer.Smooth Buffer.Reads
      rw [hopened, hopened']
      exact Iff.rfl
    have hnext : ∀ r b', b.advanceBy .full = .ok (r, b') → ∃ c', Tracks c' b' := by
      intro r b' hadvance
      obtain ⟨-, rfl⟩ | ⟨-, -, -, hc'⟩ := h.advance hadvance
      · exact ⟨c, h⟩
      · exact ⟨_, hc'⟩
    unfold Buffer.Delivers
    rw [hsmooth, hmark]
    refine and_congr_right fun _ => ⟨fun hall r b' hadvance => ?_, fun hall r b' hadvance => ?_⟩
    · obtain ⟨c', hc'⟩ := hnext r b' hadvance
      rw [hadvance] at hall
      exact (ih hc' e').mp (hall r _ rfl)
    · obtain ⟨p, hp, hpair⟩ := exists_of_map_eq_ok hadvance
      obtain ⟨rfl, rfl⟩ := Prod.mk.inj hpair
      obtain ⟨c', hc'⟩ := hnext p.1 p.2 hp
      exact (ih hc' e').mpr (hall p.1 p.2 hp)

/-- As long as the lexeme is not longer than `_MAX_LEXEME_LEN`, the calls of `ii_advance` find what
they need if and only if bytes are left whenever they read. -/
lemma Tracks.delivers_iff (h : Tracks c b) (n : ℕ)
    (hfits : b.next - b.leftEdge + n ≤ maxLexemeLen) :
    b.Delivers n ↔ ReadsBytes (List.replicate n .advance) b := by
  induction n generalizing c b with
  | zero => exact Iff.rfl
  | succ n ih =>
    have hroom : b.Reads → maxLexemeLen ≤ b.leftEdge := by
      intro hreads
      by_contra hnot
      obtain ⟨-, hlong⟩ := h.overflow ((h.advanceBy_of_reads hreads).1 (Nat.lt_of_not_le hnot))
      omega
    have hrest : ∀ r b', b.advanceBy .full = .ok (r, b') →
        (b'.Delivers n ↔ ReadsBytes (List.replicate n .advance) b') := by
      intro r b' hadvance
      obtain ⟨-, rfl⟩ | ⟨x, hx, -, hc'⟩ := h.advance hadvance
      · exact ih h (by omega)
      · have hedge := h.leftEdge_add
        have hedge' := hc'.leftEdge_add
        rw [Cursor.skip_eq (Cursor.look_one_eq_some hx)] at hedge'
        dsimp only at hedge'
        have hle := h.leftEdge_le_next
        have hle' := hc'.leftEdge_le_next
        exact ih hc' (by omega)
    rw [List.replicate_succ, ReadsBytes]
    unfold Buffer.Delivers
    refine and_congr ⟨fun hsmooth _ hreads => (hsmooth hreads).2, fun hbytes hreads =>
      ⟨hroom hreads, hbytes rfl hreads⟩⟩ ⟨fun hall r b' hcall => ?_, fun hall r b' hadvance => ?_⟩
    · obtain ⟨p, hadvance, hpair⟩ :=
        exists_of_map_eq_ok (show (b.advanceBy .full).map _ = _ from hcall)
      obtain ⟨-, rfl⟩ := Prod.mk.inj hpair
      exact (hrest p.1 p.2 hadvance).mp (hall p.1 p.2 hadvance)
    · refine (hrest r b' hadvance).mpr (hall (some r) b' ?_)
      rw [Buffer.advanceBy_full] at hadvance
      unfold Call.run
      rw [hadvance]
      rfl

end Delivers

/-! ## The turns of a step -/

section Lockstep

variable {d : Dfa} {outside : ℕ → UInt8} {inp : Input} {s s' : Scan} {y y₀ y' : Yylex}
  {u : List (Fin maxChars)} {c : Cursor UInt8} {b : Buffer} {read : Delivery}

/-- After `n` characters the buffer is as the calls of `ii_advance` for them have left it. -/
structure Beside (y₀ y : Yylex) (n : ℕ) : Prop where
  /-- What the next calls of `ii_advance` find. -/
  delivers : ∀ m, y.inp.Delivers m ↔ y₀.inp.Delivers (n + m)
  /-- What is kept in front of the next character. -/
  kept : y.inp.next - y.inp.leftEdge = y₀.inp.next - y₀.inp.leftEdge + n
  /-- A previous lexeme is not marked on the way. -/
  pmark : y₀.inp.pmark = none → y.inp.pmark = none

/-- When the round of the loop on the text goes on, there is a character ahead and a transition on
it. -/
lemma Consumed.goes (outside : ℕ → UInt8) (hs : Consumed d inp u s) (h : yylexStep d s = .inl s')
    (hlevel : Level s y) : y.Goes (d.tables outside) ∧ (∃ x, s.inp.look 1 = some x) ∧
    ∃ x, Consumed d inp (u ++ [x]) s' := by
  obtain ⟨x, w, q, hw, hq, htrans, -, hs'⟩ := hs.go h
  have hx : s.inp.look 1 = some x := by
    rw [Input.look_one, hw]
    rfl
  exact ⟨(hlevel.goes outside (run_lt d.pos hs.run) hx hq htrans).1, ⟨x, hx⟩, x, hs'⟩

/-- In a smooth buffer the turn follows the round of the loop on the text, and the buffer stays
beside the calls of `ii_advance`. -/
lemma Beside.go (outside : ℕ → UInt8) (hanchor : d.RuleAnchors) (hs : Consumed d inp u s)
    (h : yylexStep d s = .inl s') (hlevel : Level s y) (hbeside : Beside y₀ y u.length)
    (hsmooth : y.inp.Smooth) : ∃ y', turn (d.tables outside) .full y = .inl y' ∧ Level s' y' ∧
    Beside y₀ y' (u.length + 1) := by
  obtain ⟨hgoes, ⟨x, hx⟩, -⟩ := hs.goes outside h hlevel
  have hrelated := related_turn outside hanchor hlevel (run_lt d.pos hs.run) fun _ => hsmooth
  obtain ⟨b', c, hadvance, hadv, -, hc, hlt, hfollows⟩ := hlevel.advance hsmooth hx
  rw [turn_of_goes hgoes, hadv, h] at hrelated
  rw [turn_of_goes hgoes, hadv]
  dsimp only at hrelated ⊢
  generalize hy' : goTo (d.tables outside) (y.yynstate (d.tables outside)).toNat y b' = y' at *
  have hlevel' : Level s' y' := by
    cases hrelated with
    | go hlevel' => exact hlevel'
  -- the new state marks the end of the lexeme or not
  have hinp : ∃ e l, y'.inp = { b' with emark := e, mline := l } := by
    rw [← hy']
    unfold goTo
    dsimp only
    split
    · exact ⟨b'.next, b'.lineno, rfl⟩
    · exact ⟨b'.emark, b'.mline, rfl⟩
  obtain ⟨e, l, hinp⟩ := hinp
  have hc' := hfollows.tracks
  have hskip := Cursor.skip_eq hlt
  refine ⟨y', rfl, hlevel', fun m => ?_, ?_, fun hnone => ?_⟩
  · have hmark : y'.inp.Delivers m ↔ b'.Delivers m := by
      rw [hinp]
      exact hc'.delivers_mark m e l
    have hone : y.inp.Delivers (m + 1) ↔ b'.Delivers m := by
      refine ⟨fun hdelivers => hdelivers.2 _ b' hadvance, fun hdelivers =>
        ⟨hsmooth, fun r b'' hadvance' => ?_⟩⟩
      rw [hadvance] at hadvance'
      obtain ⟨-, rfl⟩ := Prod.mk.inj (Except.ok.inj hadvance')
      exact hdelivers
    have hsum : u.length + 1 + m = u.length + (m + 1) := by omega
    rw [hmark, ← hone, hbeside.delivers, hsum]
  · have hedge := hc.leftEdge_add
    have hedge' := hc'.leftEdge_add
    have hle := hc.leftEdge_le_next
    have hle' := hc'.leftEdge_le_next
    have hkept := hbeside.kept
    rw [hskip] at hedge'
    dsimp only at hedge'
    have hsame : y'.inp.next - y'.inp.leftEdge = b'.next - b'.leftEdge := by
      rw [hinp]
      rfl
    omega
  · have hpmark := hc.pmark
    have hpmark' := hc'.pmark
    have hcursor : c.skip.pmark = c.pmark := by rw [hskip]
    rw [hbeside.pmark hnone] at hpmark
    rw [hcursor, Option.map_eq_none_iff.mp hpmark.symm, Option.map_none] at hpmark'
    rw [hinp]
    exact Option.map_eq_none_iff.mp hpmark'

/-- The loop on the buffer follows the loop on the text, up to the first character that has a
transition and for which the buffer is not smooth. -/
lemma exists_lockstep (outside : ℕ → UInt8) (hanchor : d.RuleAnchors)
    (hlevel₀ : Level (scanStart inp) y₀) (hreach : Reaches (yylexStep d) (scanStart inp) s) :
    (∃ u y, Consumed d inp u s ∧ Reaches (turn (d.tables outside) .full) y₀ y ∧ Level s y ∧
    Beside y₀ y u.length) ∨
      ∃ u x s' y, Consumed d inp u s' ∧ d.Alive (u ++ [x]) ∧ u ++ [x] <+: inp.unread ∧
        Reaches (turn (d.tables outside) .full) y₀ y ∧ Level s' y ∧ Beside y₀ y u.length ∧
        y.Goes (d.tables outside) ∧ ¬ y.inp.Smooth := by
  induction hreach with
  | refl =>
    refine .inl ⟨[], y₀, consumed_scanStart d inp, .refl y₀, hlevel₀, fun m => ?_, rfl, fun hnone =>
      hnone⟩
    rw [List.length_nil, Nat.zero_add]
  | @tail s s' _ hstep ih =>
    obtain ⟨u, y, hs, hreach, hlevel, hbeside⟩ | hlost := ih
    · obtain ⟨hgoes, -, x, hs'⟩ := hs.goes outside hstep hlevel
      by_cases hsmooth : y.inp.Smooth
      · obtain ⟨y', hturn, hlevel', hbeside'⟩ := hbeside.go outside hanchor hs hstep hlevel hsmooth
        refine .inl ⟨u ++ [x], y', hs', hreach.trans (.single hturn), hlevel', ?_⟩
        rw [List.length_append, List.length_singleton]
        exact hbeside'
      · exact .inr ⟨u, x, s, y, hs, ⟨_, hs'.run⟩, ⟨_, hs'.unread.symm⟩, hreach, hlevel, hbeside,
          hgoes, hsmooth⟩
    · exact .inr hlost

/-- A turn leaves the text behind the start of the lexeme, but a forced flush may move the start. -/
lemma turn_tracks (h : turn (d.tables outside) read y = .inl y') (hc : Tracks c y.inp) :
    ∃ c', Tracks c' y'.inp ∧ c'.text = c.text ∧ c.smark ≤ c'.smark := by
  obtain ⟨-, inp, hadvance, rfl⟩ := turn_eq_inl h
  have hskip : c.skip.text = c.text ∧ c.skip.smark = c.smark := by
    unfold Cursor.skip
    split <;> exact ⟨rfl, rfl⟩
  have hinp : ∃ c', Tracks c' inp ∧ c'.text = c.text ∧ c.smark ≤ c'.smark := by
    unfold Yylex.advance at hadvance
    simp only [Bind.bind, Except.bind] at hadvance
    split at hadvance
    · cases hadvance
    rename_i p hfirst
    obtain ⟨c₁, hc₁, htext, hsmark⟩ : ∃ c₁, Tracks c₁ p.2 ∧ c₁.text = c.text ∧
        c₁.smark = c.smark := by
      obtain ⟨x, b⟩ := p
      obtain ⟨-, hb⟩ | ⟨-, -, -, hc'⟩ := hc.advance hfirst
      · exact ⟨c, hb ▸ hc, rfl, rfl⟩
      · exact ⟨_, hc', hskip⟩
    split at hadvance
    · split at hadvance
      · cases hadvance
      · rename_i q hflush
        obtain rfl := Except.ok.inj hadvance
        obtain ⟨x, b⟩ := q
        obtain hc₂ | ⟨-, hc₂⟩ := hc₁.flush hflush
        · exact ⟨c₁, hc₂, htext, Nat.le_of_eq hsmark.symm⟩
        · exact ⟨_, hc₂, htext, hsmark ▸ Nat.le_trans c₁.smark_le c₁.emark_le⟩
    · obtain rfl := Except.ok.inj hadvance
      exact ⟨c₁, hc₁, htext, Nat.le_of_eq hsmark.symm⟩
  obtain ⟨c', hc', hfacts⟩ := hinp
  unfold goTo
  dsimp only
  split
  · exact ⟨_, hc'.markEnd, hfacts⟩
  · exact ⟨_, hc', hfacts⟩

/-- The lexeme that is marked and the characters behind it are what is behind the start of the
lexeme. -/
lemma Tracks.length_marked (h : Tracks c y.inp) :
    y.inp.moveBack.text.length + y.inp.moveBack.unread.length = c.text.length - c.smark := by
  have hs := h.smark
  have he := h.emark
  have hsmark := c.smark_le
  have hemark := c.emark_le
  have hnext := c.next_le
  rw [h.moveBack.unread]
  change ((List.range (y.inp.emark - y.inp.smark)).map _).length + (c.text.drop c.emark).length = _
  rw [List.length_map, List.length_range, List.length_drop]
  omega

/-- A step that comes to an action marks no more than what is behind the start of the lexeme. -/
lemma length_le_of_action {n q : ℕ} {marked trimmed : Buffer} (hc : Tracks c y.inp)
    (h : run (turn (d.tables outside) .full) n y = some (.action q marked trimmed)) :
    marked.text.length + marked.unread.length ≤ c.text.length - c.smark := by
  obtain ⟨y', hreach, hlast⟩ := run_spec h
  obtain ⟨c', hc', htext, hle⟩ :=
    hreach.invariant (fun y => ∃ c', Tracks c' y.inp ∧ c'.text = c.text ∧ c.smark ≤ c'.smark)
    (by
      rintro y y' ⟨c₁, hc₁, htext, hle⟩ hturn
      obtain ⟨c₂, hc₂, htext', hle'⟩ := turn_tracks hturn hc₁
      exact ⟨c₂, hc₂, htext'.trans htext, Nat.le_trans hle hle'⟩) ⟨c, hc, rfl, Nat.le_refl _⟩
  obtain ⟨-, -, -, rfl, -⟩ := turn_eq_action hlast
  rw [hc'.length_marked, htext]
  omega

/-- When the lexeme leaves no room for a read, `ii_advance` refuses, and the driver flushes the
buffer by force: the lexeme now starts at the next character. -/
lemma Tracks.advance_of_overflow (hc : Tracks c b) (hreads : b.Reads)
    (hedge : b.leftEdge < maxLexemeLen) : Yylex.advance .full b =
      (b.markStart.markPrev.refillBy .full b.next).map Prod.snd := by
  have hadvance := (hc.advanceBy_of_reads hreads).1 hedge
  obtain ⟨heof, -⟩ := hc.reads_iff.mp hreads
  have hmore : b.noMoreChars = false := by simp [Buffer.noMoreChars, heof]
  have hflush : b.flushBy .full true = b.markStart.markPrev.refillBy .full b.next := by
    unfold Buffer.flushBy
    simp only [hmore, heof, Bool.false_eq_true, if_false]
    rw [if_pos (.inr trivial), if_pos hedge]
    rfl
  unfold Yylex.advance
  rw [hadvance]
  simp only [Bind.bind, Except.bind]
  rw [if_pos (by decide), hflush]
  rcases b.markStart.markPrev.refillBy .full b.next with fault | p
  · rfl
  · rfl

/-- When nothing is left of the file, a call of `ii_advance` that reads ends the program. -/
lemma Tracks.advance_of_end (hc : Tracks c b) (hreads : b.Reads)
    (hedge : maxLexemeLen ≤ b.leftEdge) (hfile : b.file = []) :
    Yylex.advance .full b = .error .bufferFull := by
  have hadvance := (hc.advanceBy_of_reads hreads).2 hedge
  rw [(refillBy_full hedge hc.end_le).1 hfile] at hadvance
  unfold Yylex.advance
  rw [hadvance]
  rfl

/-- When the start of the lexeme is moved in front of a transition, the step marks less than what is
behind it. -/
lemma length_lt_of_overflow {n q : ℕ} {marked trimmed : Buffer} (hc : Tracks c y.inp)
    (hgoes : y.Goes (d.tables outside)) (hreads : y.inp.Reads)
    (hedge : y.inp.leftEdge < maxLexemeLen) (hstart : y.inp.smark < y.inp.next)
    (h : run (turn (d.tables outside) .full) (n + 1) y = some (.action q marked trimmed)) :
    marked.text.length + marked.unread.length < c.text.length - c.smark := by
  have hturn : turn (d.tables outside) .full y = _ := turn_of_goes hgoes
  have hadv := hc.advance_of_overflow hreads hedge
  rcases hrefill : y.inp.markStart.markPrev.refillBy .full y.inp.next with fault | p
  · rw [hadv, hrefill] at hturn
    rw [run_succ_inr hturn] at h
    cases h
  · obtain ⟨-, got, hshift⟩ := Buffer.refillBy_spec (b := y.inp.markStart.markPrev) hc.end_le
      (show y.inp.markStart.markPrev.refillBy .full y.inp.next = .ok (p.1, p.2) from hrefill)
    have hleft : y.inp.markStart.markPrev.leftEdge = y.inp.next := Nat.min_self _
    rw [← hleft] at hshift
    have hmoved := hc.markStart.markPrev.shifted hshift
    rw [hrefill] at hadv
    rw [show Yylex.advance .full y.inp = .ok p.2 from hadv] at hturn
    rw [run_succ_inl hturn] at h
    have hsmark := hc.smark
    have hnext := c.next_le
    have hinp :
        ∃ c', Tracks c' (goTo (d.tables outside) (y.yynstate (d.tables outside)).toNat y
          p.2).inp ∧ c'.text = c.text ∧ c'.smark = c.next := by
      unfold goTo
      dsimp only
      split
      · exact ⟨_, hmoved.markEnd, rfl, rfl⟩
      · exact ⟨_, hmoved, rfl, rfl⟩
    obtain ⟨c', hc', htext, hsmark'⟩ := hinp
    have hle := length_le_of_action hc' h
    rw [htext, hsmark'] at hle
    omega

/-- When the buffer is not smooth in front of a transition, the step does not come to an action, or
it marks less than what is behind the start of the lexeme. -/
lemma length_lt_of_action {n q : ℕ} {marked trimmed : Buffer} (hc : Tracks c y.inp)
    (hgoes : y.Goes (d.tables outside)) (hsmooth : ¬ y.inp.Smooth)
    (hroom : y.inp.leftEdge < maxLexemeLen → y.inp.smark < y.inp.next)
    (h : run (turn (d.tables outside) .full) n y = some (.action q marked trimmed)) :
    marked.text.length + marked.unread.length < c.text.length - c.smark := by
  have hreads : y.inp.Reads := by
    by_contra hnot
    exact hsmooth fun hreads => absurd hreads hnot
  rcases n with - | n
  · cases h
  by_cases hedge : y.inp.leftEdge < maxLexemeLen
  · exact length_lt_of_overflow hc hgoes hreads hedge (hroom hedge) h
  · have hfile : y.inp.file = [] := by
      by_contra hne
      exact hsmooth fun _ => ⟨Nat.le_of_not_lt hedge, hne⟩
    have hturn : turn (d.tables outside) .full y = _ := turn_of_goes hgoes
    rw [hc.advance_of_end hreads (Nat.le_of_not_lt hedge) hfile] at hturn
    rw [run_succ_inr hturn] at h
    cases h

end Lockstep

/-! ## The longest match -/

section Munch

variable {d : Dfa} {outside : ℕ → UInt8} {y s₀ : Yylex} {w : List (Fin maxChars)}
  {content : List UInt8} {l : List (Yylex × Label)}

/-- The loop is at the start of a lexeme, and nothing has been seen of it. -/
structure Yylex.Rests (y : Yylex) : Prop where
  /-- The machine is in the start state. -/
  yystate : y.yystate = 0
  /-- No accepting state has been seen. -/
  yylastaccept : y.yylastaccept = 0
  /-- The lexeme starts at the next character. -/
  marked : y.inp.markStart = y.inp

/-- The scanning step from `y` on the unread characters `w` is maximal munch: when some nonempty
prefix of them is accepted, the step marks the longest one and selects the action of the state that
it reaches. -/
def MaximalMunch (d : Dfa) (outside : ℕ → UInt8) (y : Yylex) (w : List (Fin maxChars)) : Prop :=
  ∀ k q, LongestAccept d w k q → ∃ n marked trimmed,
    run (turn (d.tables outside) .full) n y = some (.action q marked trimmed) ∧
      marked.text = (w.take k).map byte ∧ marked.unread = (w.drop k).map byte

/-- The text that stands for the unread characters, read from its start. -/
def Buffer.asInput (b : Buffer) (w : List (Fin maxChars)) : Input :=
  ⟨w, 0, 0, 0, b.lineno, b.lineno⟩

/-- At the start of a lexeme the two loops are at the same point. -/
lemma Yylex.Rests.level (h : y.Rests) (hsupplied : y.inp.Supplied)
    (hw : y.inp.unread = w.map byte) : Level (scanStart (y.inp.asInput w)) y := by
  obtain ⟨c, hc, -⟩ := id hsupplied.held
  have hsmark : y.inp.smark = y.inp.next := by rw [← h.marked]; rfl
  have hemark : y.inp.emark = y.inp.next := by rw [← h.marked]; rfl
  have hmline : y.inp.mline = y.inp.lineno := by rw [← h.marked]; rfl
  have hs := hc.smark
  have he := hc.emark
  have hstart : c.smark = c.next := by omega
  have hend : c.emark = c.next := by omega
  refine ⟨h.yystate, h.yylastaccept, fun hne => absurd rfl hne, ⟨c, hc, ?_, ?_, ?_, rfl, hmline⟩,
    hsupplied⟩
  · rw [hstart]
    exact (hc.unread.symm.trans hw).trans (by rfl)
  · exact (Nat.add_zero _).trans (hstart.symm.trans (Nat.zero_add _).symm)
  · exact (Nat.add_zero _).trans ((hend.trans hstart.symm).trans (Nat.zero_add _).symm)

/-- An action is selected by the loop on the text only without a transition. -/
lemma yylexStep_eq_action {s : Scan} {q : ℕ} {marked trimmed : Input}
    (h : yylexStep d s = .inr (.action q marked trimmed)) :
    s.yylastaccept ≠ 0 ∧ ∀ x, s.inp.look 1 = some x → d.dtran s.yystate x = fail := by
  have hlast : ∀ {o}, (.inr (yylexFail s) : Scan ⊕ Outcome) = .inr o →
      o = .action q marked trimmed → s.yylastaccept ≠ 0 := by
    rintro o ho rfl hzero
    have heq := Sum.inr.inj ho
    unfold yylexFail at heq
    rw [if_pos hzero] at heq
    cases heq
  unfold yylexStep at h
  rcases hx : s.inp.look 1 with - | x
  · rw [hx] at h
    dsimp only at h
    split at h
    · exact ⟨hlast h rfl, fun x hx => by cases hx⟩
    · cases h
  · rw [hx] at h
    dsimp only at h
    split at h
    · split at h <;> cases h
    · rename_i hfail
      refine ⟨hlast h rfl, fun x' hx' => ?_⟩
      obtain rfl := Option.some.inj hx'
      exact not_not.mp hfail

/-- When nothing goes wrong, the step is maximal munch. -/
lemma maximalMunch_of (hanchor : d.RuleAnchors) (hsupplied : y.inp.Supplied) (hrest : y.Rests)
    (hw : y.inp.unread = w.map byte) {k q : ℕ} (hlong : LongestAccept d w k q) (hq : q ≠ 0)
    (hdelivers : ∀ u, u <+: w → d.Alive u → y.inp.Delivers u.length) : ∃ n marked trimmed,
      run (turn (d.tables outside) .full) n y = some (.action q marked trimmed) ∧
        marked.text = (w.take k).map byte ∧ marked.unread = (w.drop k).map byte := by
  have hunread : (y.inp.asInput w).unread = w := rfl
  obtain ⟨-, s, o, hreach, -, hlast, hout⟩ := exists_yylex d (y.inp.asInput w)
  obtain ⟨marked, trimmed, rfl, htext, hsmark, hemark, hnext⟩ :=
    (hout k q (hunread.symm ▸ hlong)).2 hq
  obtain ⟨u, y', hs, hreach', hlevel, -⟩ | ⟨u, x, s', y', hs, halive, hpre, -, -, hbeside, -,
      hsmooth⟩ :=
    exists_lockstep outside hanchor (hrest.level hsupplied hw) hreach
  · obtain ⟨hne, hfail⟩ := yylexStep_eq_action hlast
    have htakes : ¬ y'.Takes (d.tables outside) := by
      rintro ⟨hlook, hnext | hzero⟩
      · obtain ⟨c, hc⟩ := hlevel.follows
        rcases hx : s.inp.look 1 with - | x
        · have hend := hc.look hlevel.supplied
          rw [hx] at hend
          exact hlook hend
        · rw [(hlevel.yynstate_eq outside (run_lt d.pos hs.run) hx).2, hfail x hx] at hnext
          exact hnext rfl
      · exact hne (hlevel.yylastaccept.symm.trans hzero)
    have hrelated :=
      related_turn outside hanchor hlevel (run_lt d.pos hs.run) fun h => absurd h htakes
    rw [hlast] at hrelated
    generalize hturn : turn (d.tables outside) .full y' = r at hrelated
    cases hrelated with
    | @action _ _ _ marked' trimmed' hmarked htrimmed =>
      obtain ⟨n, hn⟩ := hreach'.run hturn
      obtain ⟨c, hc⟩ := hmarked
      refine ⟨n, marked', trimmed', hn, ?_, ?_⟩
      · rw [hc.lexeme, Input.lexeme, htext, hsmark, hemark]
        rw [Nat.add_sub_cancel_left]
        rfl
      · rw [hc.tracks.unread, hc.unread, Input.unread, htext, hnext]
        change (w.drop (0 + k)).map byte = _
        rw [Nat.zero_add]
  · have hall := hdelivers (u ++ [x]) hpre halive
    rw [List.length_append, List.length_singleton, ← hbeside.delivers] at hall
    exact absurd hall.1 hsmooth

/-- When the step is maximal munch, the calls of `ii_advance` have found what they need. -/
lemma delivers_of_munch (hanchor : d.RuleAnchors) (hsupplied : y.inp.Supplied) (hrest : y.Rests)
    (hw : y.inp.unread = w.map byte)
    (hprev : ∀ p ∈ y.inp.pmark, ∀ u, u <+: w → d.Alive u → y.inp.next - p + u.length ≤ maxLexemeLen)
    {n q : ℕ} {marked trimmed : Buffer}
    (hrun : run (turn (d.tables outside) .full) n y = some (.action q marked trimmed))
    (hlength : marked.text.length + marked.unread.length = w.length) {u : List (Fin maxChars)}
    (hu : u <+: w) (halive : d.Alive u) : y.inp.Delivers u.length := by
  obtain ⟨-, s, o, hreach, -, hlast, -⟩ := exists_yylex d (y.inp.asInput w)
  obtain ⟨v, y', hs, -, -, hbeside⟩ | ⟨v, x, s', y', hs, halive', hpre, hreach', hlevel, hbeside,
      hgoes, hsmooth⟩ :=
    exists_lockstep outside hanchor (hrest.level hsupplied hw) hreach
  · exact Buffer.Delivers.mono (hs.le_of_stop hlast hu halive) ((hbeside.delivers 0).mp trivial)
  · -- the buffer is not smooth: too little is marked
    exfalso
    obtain ⟨m, hm⟩ := hreach'.run_rest hrun
    obtain ⟨c, hc⟩ := hlevel.follows
    obtain ⟨c₀, hc₀, -⟩ := id hsupplied.held
    have hreads : y'.inp.Reads := by
      by_contra hnot
      exact hsmooth fun hreads => absurd hreads hnot
    have hroom : y'.inp.leftEdge < maxLexemeLen → y'.inp.smark < y'.inp.next := by
      intro hedge
      obtain ⟨-, hlong⟩ := hc.tracks.overflow ((hc.tracks.advanceBy_of_reads hreads).1 hedge)
      rcases hp : y.inp.pmark with - | p
      · have hsmark := hc.tracks.leftEdge_eq
        rw [hbeside.pmark hp, Option.getD_none] at hsmark
        omega
      · have hfits := hprev p hp (v ++ [x]) hpre halive'
        have hedge₀ := hc₀.leftEdge_eq
        rw [hp, Option.getD_some] at hedge₀
        have hkept := hbeside.kept
        rw [List.length_append, List.length_singleton] at hfits
        omega
    have hlt := length_lt_of_action hc.tracks hgoes hsmooth hroom hm
    have hbehind := congrArg List.length hc.text
    rw [List.length_map, hs.text, hs.smark, List.length_drop] at hbehind
    change _ = (w.drop 0).length at hbehind
    rw [List.drop_zero] at hbehind
    omega

/-- In every run in which the input system is supplied, a scanning step on 7-bit characters is
maximal munch when the longest accepted prefix does not lead back to the start state and the calls
of `ii_advance`, one for each character that the table reads, find what they need.  The converse
holds as well, if a previous lexeme that is marked fits in the buffer together with the lexeme. -/
theorem maximalMunch_iff (hanchor : d.RuleAnchors) (h : Starts content .full s₀)
    (hrun : Run (d.tables outside) l s₀ y) (hl : ∀ p ∈ l, p.2.Quiet) (hrest : y.Rests)
    (hw : y.inp.unread = w.map byte) :
    ((∀ k q, LongestAccept d w k q →
      q ≠ 0 ∧ ∀ u, u <+: w → d.Alive u → y.inp.Delivers u.length) → MaximalMunch d outside y w) ∧
    ((∀ p ∈ y.inp.pmark, ∀ u, u <+: w → d.Alive u → y.inp.next - p + u.length ≤ maxLexemeLen) →
      MaximalMunch d outside y w → ∀ k q, LongestAccept d w k q →
        q ≠ 0 ∧ ∀ u, u <+: w → d.Alive u → y.inp.Delivers u.length) := by
  have hsupplied := hrun.supplied hl h.supplied
  constructor
  · intro hcond k q hlong
    obtain ⟨hq, hdelivers⟩ := hcond k q hlong
    exact maximalMunch_of hanchor hsupplied hrest hw hlong hq hdelivers
  · intro hprev hmunch k q hlong
    obtain ⟨n, marked, trimmed, hn, htext, hunread⟩ := hmunch k q hlong
    obtain ⟨y', -, hlast⟩ := run_spec hn
    obtain ⟨-, hne, rfl, -⟩ := turn_eq_action hlast
    refine ⟨hne, fun u hu halive =>
      delivers_of_munch hanchor hsupplied hrest hw hprev hn ?_ hu halive⟩
    rw [htext, hunread, List.length_map, List.length_map, List.length_take, List.length_drop]
    omega

end Munch

/-! ## A file with one letter -/

section Letter

/-- The letter `a`, as a character of the table. -/
def letterA : Fin maxChars := ⟨97, a_lt_maxChars⟩

/-- When the end of the file has been read, the calls of `ii_advance` find what they need. -/
lemma delivers_of_eofRead {b : Buffer} (hcalled : b.beenCalled = true) (heof : b.eofRead = true)
    (n : ℕ) : b.Delivers n := by
  induction n generalizing b with
  | zero => trivial
  | succ n ih =>
    have hopened : b.opened = b := if_pos hcalled
    refine ⟨fun hreads => ?_, fun r b' hadvance => ?_⟩
    · unfold Buffer.Reads at hreads
      rw [hopened, heof] at hreads
      exact absurd hreads.1.symm Bool.false_ne_true
    · unfold Buffer.advanceBy at hadvance
      rw [hopened] at hadvance
      dsimp only at hadvance
      rw [if_pos heof] at hadvance
      split at hadvance
      · obtain ⟨-, rfl⟩ := Prod.mk.inj (Except.ok.inj hadvance)
        exact ih hcalled heof
      · obtain ⟨-, rfl⟩ := Prod.mk.inj (Except.ok.inj hadvance)
        exact ih hcalled heof

/-- The first call on the file `a` is at the newline that the input system puts in front of it. -/
lemma exists_starts_letter : ∃ s₀, Starts [97] .full s₀ ∧ s₀.Rests ∧
    s₀.inp.unread = [Input.newline, letterA].map byte ∧ s₀.inp.pmark = none ∧
    s₀.inp.eofRead = true ∧ s₀.inp.beenCalled = true := by
  obtain ⟨r, inp, hfirst, hunread, hpmark, heof, hcalled⟩ :
      ∃ r inp, (Buffer.newfile [97]).advanceBy .full = .ok (r, inp) ∧
        (enter 0 0 (inp.pushback 1).2).inp.unread = [Input.newline, letterA].map byte ∧
        (inp.pushback 1).2.pmark = none ∧
          (inp.pushback 1).2.eofRead = true ∧ (inp.pushback 1).2.beenCalled = true :=
    ⟨_, _, rfl, rfl, rfl, rfl, rfl⟩
  exact ⟨_, .first 0 0 hfirst, ⟨rfl, rfl, rfl⟩, hunread, hpmark, heof, hcalled⟩

/-- The table for the rules `a` and newline has no anchors. -/
lemma ruleAnchors_letterTable : letterTable.RuleAnchors := by
  intro q _ _
  change (if q = 1 then (⟨some 0, 0⟩ : Accept) else ⟨none, 0⟩).anchor ≤ 3
  split <;> exact Nat.zero_le 3

/-- With the rules `a` and newline the first step on the file `a` is maximal munch. -/
theorem maximalMunch_iff_letterTable : ∃ s₀, Starts [97] .full s₀ ∧
    MaximalMunch letterTable (fun _ => 0) s₀ [Input.newline, letterA] := by
  obtain ⟨s₀, hstart, hrest, hunread, -, heof, hcalled⟩ := exists_starts_letter
  refine ⟨s₀, hstart, (maximalMunch_iff ruleAnchors_letterTable hstart (.nil s₀)
    (fun p hp => absurd hp List.not_mem_nil) hrest hunread).1 fun k q hlong => ⟨?_, fun u _ _ =>
      delivers_of_eofRead hcalled heof u.length⟩⟩
  rintro rfl
  exact absurd hlong.accepting (by decide)

/-- With the rule `a*` the letter is not taken as a lexeme. -/
theorem not_maximalMunch_starDfa : ¬ ∀ (d : Dfa) outside content s₀ l y w, d.RuleAnchors →
    Starts content .full s₀ → Run (d.tables outside) l s₀ y → (∀ p ∈ l, p.2.Quiet) → y.Rests →
    y.inp.unread = w.map byte → MaximalMunch d outside y w := by
  intro hall
  obtain ⟨s₀, inp, hstart, hturn, hrest, hunread, hrun⟩ : ∃ s₀ inp, Starts [97] .full s₀ ∧
      turn (starDfa.tables fun _ => 0) .full s₀ = .inr (.badInput inp) ∧
        (Yylex.again { s₀ with inp := inp }).Rests ∧
          (Yylex.again { s₀ with inp := inp }).inp.unread = [letterA].map byte ∧
            run (turn (starDfa.tables fun _ => 0) .full) 2 (Yylex.again { s₀ with inp := inp }) =
            some .eof :=
    ⟨_, _, .first 0 0 rfl, rfl, ⟨rfl, rfl, rfl⟩, rfl, rfl⟩
  have hskip :
      Run (starDfa.tables fun _ => 0) [(s₀, .turn .full)] s₀ (Yylex.again { s₀ with inp := inp }) :=
    .cons ⟨rfl, .badInput hturn⟩ (.nil _)
  have hlong : LongestAccept starDfa [letterA] 1 0 := longest_eq_some_iff.mp (by decide)
  obtain ⟨n, marked, trimmed, hn, -⟩ :=
    hall starDfa _ _ _ _ _ _ (fun _ _ _ => Nat.zero_le 3) hstart hskip
    (fun p hp => List.mem_singleton.mp hp ▸ rfl) hrest hunread 1 0 hlong
  cases run_unique hn hrun

end Letter

end Lex
