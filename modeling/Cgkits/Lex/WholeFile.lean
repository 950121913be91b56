import Cgkits.Lex.LongestMatch

/-!
# A file through the buffer (`lex.m`, `input.c`)

`Yylex.scan` is the scanner on a file, from the first call of `ii_advance` to the end of the file,
with actions that leave the input alone.  It is a run of the driver (`exists_run`), and it ends with
the pieces that it has taken, or with an exit of the input system.

A file is `Readable` when none of these exits can happen and no lexeme is cut: it is read by the
first `read`, or it does not end with a block of `_MAX_LEXEME_LEN` bytes and the table never goes on
over more characters than that.  Then the loop on the buffer is abreast of the loop on the text, so
that the scanner comes to the end of the file and has cut it into the longest lexemes (`scan_iff`).
-/

namespace Lex

open Machine Munch

/-! ## The scanner on a file -/

/-- The piece with a function applied to its characters. -/
def Piece.map {α β : Type} (f : α → β) (p : Piece α) : Piece β := ⟨p.state, p.text.map f, p.lineno⟩

/-- The bytes that have been read since the start of the lexeme. -/
def Buffer.taken (b : Buffer) : List UInt8 := b.bytes b.smark (b.next - b.smark)

namespace Yylex

/-- The loop of `yylex`, and the calls of `yylex` one after another.  An action leaves the input as
it is, so it does not matter whether it returns. -/
def scanLoop (t : ScanTables) : Yylex × List (Piece UInt8) →
    (Yylex × List (Piece UInt8)) ⊕ Except InputFault (List (Piece UInt8))
  | (y, pieces) =>
    match turn t .full y with
    | .inl y' => .inl (y', pieces)
    | .inr (.action state _ inp) =>
      .inl (again { y with inp := inp }, pieces ++ [⟨some state, inp.text, inp.lineno⟩])
    | .inr (.badInput inp) =>
      .inl (again { y with inp := inp }, pieces ++ [⟨none, inp.taken, inp.lineno⟩])
    | .inr .eof => .inr (.ok pieces)
    | .inr (.exit fault) => .inr (.error fault)

/-- The scanner on a file with the given content, as far as it comes in `n` rounds. -/
def scan (t : ScanTables) (n : ℕ) (content : List UInt8) :
    Option (Except InputFault (List (Piece UInt8))) :=
  match (Buffer.newfile content).advanceBy .full with
  | .error fault => some (.error fault)
  | .ok (_, inp) => run (scanLoop t) n (enter 0 0 (inp.pushback 1).2, [])

section Runs

variable {t : ScanTables} {y y' : Yylex} {pieces pieces' : List (Piece UInt8)}
  {content : List UInt8}

/-- A round of the scanner is a step of the driver, in which the code of the user makes no call. -/
lemma step_of_scanLoop (hmore : y.yymoreflg = false)
    (h : scanLoop t (y, pieces) = .inl (y', pieces')) : y'.yymoreflg = false ∧ ∃ i :
    Label, i.Quiet ∧ Step t i y y' := by
  unfold scanLoop at h
  dsimp only at h
  have hagain : ∀ inp, (again { y with inp := inp }).yymoreflg = false := by
    intro inp
    unfold again
    split
    · exact hmore
    · rfl
  split at h
  · rename_i y₁ hturn
    obtain ⟨rfl, -⟩ := Prod.mk.inj (Sum.inl.inj h)
    obtain ⟨-, inp, -, hgo⟩ := turn_eq_inl hturn
    refine ⟨?_, .turn .full, rfl, .go hturn⟩
    rw [hgo]
    unfold goTo
    dsimp only
    split <;> exact hmore
  · rename_i state marked inp hturn
    obtain ⟨rfl, -⟩ := Prod.mk.inj (Sum.inl.inj h)
    have hacts : Acts [] (TermBuffer.term ⟨inp, 0⟩) inp := ⟨_, .nil _, by rw [unterm_term]⟩
    have hstep := Step.action false hturn hacts
    have hsame :
      ({ y with yymoreflg := false, inp := inp } : Yylex) = { y with inp := inp } := by rw [← hmore]
    rw [hsame] at hstep
    exact ⟨hagain inp, .action [], fun i hi => absurd hi List.not_mem_nil, hstep⟩
  · rename_i inp hturn
    obtain ⟨rfl, -⟩ := Prod.mk.inj (Sum.inl.inj h)
    exact ⟨hagain inp, .turn .full, rfl, .badInput hturn⟩
  · cases h
  · cases h

/-- A run of the scanner over a file is a run of the driver in which no code of the user does
anything. -/
theorem exists_run {p p' : Yylex × List (Piece UInt8)} (hmore : p.1.yymoreflg = false)
    (h : Reaches (scanLoop t) p p') : ∃ l, Run t l p.1 p'.1 ∧ ∀ i ∈ l, i.2.Quiet := by
  have hkeep : p'.1.yymoreflg = false ∧ ∃ l, Run t l p.1 p'.1 ∧ ∀ i ∈ l, i.2.Quiet := by
    induction h with
    | refl => exact ⟨hmore, [], .nil _, fun i hi => absurd hi List.not_mem_nil⟩
    | @tail q q' _ hstep ih =>
      obtain ⟨hq, l, hrun, hquiet⟩ := ih
      obtain ⟨hq', i, hi, hstep⟩ := step_of_scanLoop hq hstep
      refine ⟨hq', l ++ [(q.1, i)], hrun.append (.cons ⟨rfl, hstep⟩ (.nil _)), fun i' hi' => ?_⟩
      rcases List.mem_append.mp hi' with hmem | hmem
      · exact hquiet i' hmem
      · obtain rfl := List.mem_singleton.mp hmem
        exact hi
  exact hkeep.2

end Runs

end Yylex

/-! ## Files without a premature end -/

/-- The file is not empty and is read by the first `read`, or it does not end with a whole block and
the table does not go on over more than `_MAX_LEXEME_LEN` of its characters. -/
def Readable (alive : List (Fin maxChars) → Prop) (file : List (Fin maxChars)) : Prop :=
  file ≠ [] ∧ file.length < 3 * maxLexemeLen ∨
    ¬ maxLexemeLen ∣ file.length ∧ ∀ u, u <:+: Input.newline :: file → alive u →
    u.length ≤ maxLexemeLen

/-- No previous lexeme is marked, and as long as the end of the file has not been read, `P` holds
and the bytes that are left do not end with a whole block. -/
structure Buffer.Lasts (P : Prop) (b : Buffer) : Prop where
  /-- There is no mark for a previous lexeme. -/
  pmark : b.pmark = none
  /-- Until the end has been read, the bytes left do not end with a whole block. -/
  left : b.eofRead = false → P ∧ ¬ maxLexemeLen ∣ b.file.length

namespace Buffer.Lasts

variable {P : Prop} {b b' : Buffer} {c : Cursor UInt8} {inp : Input} {r : ℤ}

/-- A flush reads whole blocks, unless it comes to the end of the file. -/
lemma shifted {s got : ℕ} (h : b.Lasts P) (hshift : b.Shifted .full s got b') : b'.Lasts P := by
  refine ⟨by rw [hshift.pmark, h.pmark]; rfl, fun heof => ?_⟩
  obtain ⟨hdvd, hbefore⟩ := hshift.whole heof
  obtain ⟨hP, hleft⟩ := h.left hbefore
  have hle := hshift.got_le
  refine ⟨hP, fun hfile => hleft ?_⟩
  rw [hshift.file, List.length_drop] at hfile
  exact (Nat.dvd_sub_iff_left hle hdvd).mp hfile

/-- `ii_advance` reads whole blocks, unless it comes to the end of the file. -/
lemma advanceBy (h : b.Lasts P) (hc : Tracks c b) (hr : b.advanceBy .full = .ok (r, b')) :
    b'.Lasts P := by
  obtain ⟨-, rfl, -⟩ | ⟨-, rfl, -⟩ | ⟨-, -, htake⟩ | ⟨-, -, got, b₁, hshift, htake⟩ :=
    Buffer.advanceBy_cases hc.called hc.end_le hr
  · exact h
  · exact h
  · obtain ⟨-, rfl⟩ := Prod.mk.inj htake
    exact ⟨h.pmark, h.left⟩
  · obtain ⟨-, rfl⟩ := Prod.mk.inj htake
    have h₁ := h.shifted hshift
    exact ⟨h₁.pmark, h₁.left⟩

/-- `ii_pushback` only moves the marks, so that what lasts in the buffer lasts. -/
lemma pushback (h : b.Lasts P) (hle : b.smark ≤ b.next) : (b.pushback 1).2.Lasts P := by
  rw [Buffer.pushback_eq 1 hle rfl]
  exact ⟨h.pmark, h.left⟩

/-- `ii_move_start` only moves the mark, so that what lasts in the buffer lasts. -/
lemma moveStart (h : b.Lasts P) : b.moveStart.Lasts P := by
  unfold Buffer.moveStart
  split
  · exact h
  · exact ⟨h.pmark, h.left⟩

/-- Trimming the lexeme for its anchors only moves the marks, so that what lasts in the buffer
lasts. -/
lemma trim (h : b.Lasts P) (hc : Tracks c b) (yyanchor : ℕ) : (Yylex.trim yyanchor b).Lasts P := by
  have hback : b.moveBack.Lasts P := ⟨h.pmark, h.left⟩
  have hpushed :
      Buffer.Lasts P (if yyanchor &&& 2 ≠ 0 then (b.moveBack.pushback 1).2 else b.moveBack) := by
    split
    · exact hback.pushback hc.smark_le
    · exact hback
  unfold Yylex.trim
  dsimp only
  split
  · exact hpushed.moveStart
  · exact hpushed

end Buffer.Lasts

section Start

variable {alive : List (Fin maxChars) → Prop} {file : List (Fin maxChars)} {P : Prop}

end Start

/-! ## The two loops side by side -/

open Yylex (turn goTo turn_eq_inl turn_eq_action turn_eq_badInput)

/-- The loop on the buffer is abreast of the loop on the text, in a file that is readable. -/
structure Abreast (P : Prop) (d : Dfa) (text : List (Fin maxChars)) (s : Scan) (y : Yylex) :
    Prop where
  /-- The two loops are at the same point. -/
  level : Level s y
  /-- `yymore` has not been executed. -/
  yymoreflg : y.yymoreflg = false
  /-- The bytes that are left can be read to the end of the file. -/
  lasts : y.inp.Lasts P
  /-- The characters that have been read of the lexeme. -/
  consumed : ∃ inp u, Consumed d inp u s ∧ inp.text = text

section Loops

variable {d : Dfa} {outside : ℕ → UInt8} {file text : List (Fin maxChars)} {s s' : Scan}
  {y y' : Yylex} {P : Prop} {pieces : List (Piece (Fin maxChars))}

/-- The bytes that have been read since the start of the lexeme are the characters of the text. -/
lemma Mirrors.taken {inp : Input} {c : Cursor UInt8} {b : Buffer} (h : Mirrors inp c b) :
    b.taken = inp.taken.map byte := h.markEnd.lexeme

/-- The buffer is smooth as long as the two loops are abreast. -/
lemma Abreast.smooth (h : Abreast (∀ u, u <:+: text → d.Alive u → u.length ≤ maxLexemeLen) d text s
    y) : y.inp.Smooth := by
  intro hreads
  obtain ⟨c, hc⟩ := h.level.follows
  obtain ⟨inp, u, hs, htext⟩ := h.consumed
  obtain ⟨hshort, hleft⟩ := h.lasts.left (hc.tracks.reads_iff.mp hreads).1
  refine ⟨?_, fun hnil => hleft (by rw [hnil]; exact dvd_zero _)⟩
  by_contra hroom
  obtain ⟨-, hlong⟩ :=
    hc.tracks.overflow ((hc.tracks.advanceBy_of_reads hreads).1 (Nat.lt_of_not_le hroom))
  have hinfix : u <:+: text := by
    refine ⟨inp.text.take inp.next, s.inp.unread, ?_⟩
    rw [List.append_assoc, ← hs.unread, Input.unread, List.take_append_drop, htext]
  have hlength := hshort u hinfix ⟨_, hs.run⟩
  have hedge := hc.tracks.leftEdge_eq
  rw [h.lasts.pmark, Option.getD_none] at hedge
  have hnext := hs.next
  have hsmark := hs.smark
  have hmirror := hc.next
  have hmark := hc.tracks.smark
  omega

/-- The state of the loop on the text is one of the table. -/
lemma Abreast.yystate_lt (h : Abreast P d text s y) : s.yystate < d.nstates := by
  obtain ⟨inp, u, hs, -⟩ := h.consumed
  exact run_lt d.pos hs.run

/-- At the end of the loop both go on with the next lexeme. -/
lemma Abreast.again (h : Abreast P d text s y) {inp : Input} {b : Buffer}
    (hb : ∃ c, Mirrors inp c b) (hsupplied : b.Supplied) (hlasts : b.Lasts P)
    (htext : inp.text = text) :
    Abreast P d text (scanStart inp) (Yylex.again { y with inp := b }) := by
  obtain ⟨c, hc⟩ := hb
  have hagain :
      Yylex.again { y with inp := b } = { y with
        yylastaccept := 0, yystate := 0, inp := b.markStart } := by
    unfold Yylex.again
    simp [h.yymoreflg]
  rw [hagain]
  exact ⟨⟨rfl, rfl, fun hne => absurd rfl hne, ⟨_, hc.markStart⟩, hsupplied.markStart⟩, h.yymoreflg,
    ⟨hlasts.pmark, hlasts.left⟩, inp, [], consumed_scanStart d inp, htext⟩

/-- Step lemma: a turn of the loop on the buffer that goes on keeps what lasts in the file. -/
lemma Abreast.go (h : Abreast P d text s y) (hsmooth : y.inp.Smooth) (hs : yylexStep d s = .inl s')
    (hy : turn (d.tables outside) .full y = .inl y') (hlevel : Level s' y') :
    Abreast P d text s' y' := by
  obtain ⟨inp, u, hconsumed, htext⟩ := h.consumed
  obtain ⟨x, w, q, hw, -, -, -, hconsumed'⟩ := hconsumed.go hs
  have hx : s.inp.look 1 = some x := by
    rw [Input.look_one, hw]
    rfl
  obtain ⟨b', c, hadvance, hadv, -, hc, -⟩ := h.level.advance hsmooth hx
  obtain ⟨-, b, hb, rfl⟩ := turn_eq_inl hy
  rw [hadv] at hb
  obtain rfl := Except.ok.inj hb
  have hlasts := h.lasts.advanceBy hc hadvance
  refine ⟨hlevel, ?_, ?_, inp, _, hconsumed', htext⟩
  · unfold goTo
    dsimp only
    split <;> exact h.yymoreflg
  · unfold goTo
    dsimp only
    split
    · exact ⟨hlasts.pmark, hlasts.left⟩
    · exact hlasts

/-- The input that is left when a scanning step has ended. -/
def Outcome.rest : Outcome → Input
  | .action _ _ trimmed => trimmed
  | .badInput inp => inp
  | .eof inp => inp

/-- The end of a scanning step moves the position and the marks, and leaves the text as it is. -/
lemma text_rest {o : Outcome} (h : yylexStep d s = .inr o) : o.rest.text = s.inp.text := by
  have hadvance : s.inp.advance.text = s.inp.text := by
    unfold Input.advance
    split <;> rfl
  have hback : ∀ inp : Input, (inp.pushback 1).text = inp.text := by
    intro inp
    unfold Input.pushback Input.pushbackLoop Input.pushbackLoop
    dsimp only
    split_ifs <;> rfl
  have hstart : ∀ inp : Input, inp.moveStart.text = inp.text := by
    intro inp
    unfold Input.moveStart
    split <;> rfl
  have hfail : (yylexFail s).rest.text = s.inp.text := by
    have hpushed : ∀ anchor : ℕ, Input.text
        (if anchor &&& 2 ≠ 0 then s.inp.moveBack.pushback 1 else s.inp.moveBack) = s.inp.text := by
      intro anchor
      split
      · exact hback _
      · rfl
    unfold yylexFail
    split
    · exact hadvance
    · change Input.text (if _ then _ else _) = _
      split
      · rw [hstart, hpushed]
      · exact hpushed _
  unfold yylexStep at h
  split at h
  · split at h
    · exact Sum.inr.inj h ▸ hfail
    · exact Sum.inr.inj h ▸ rfl
  · dsimp only at h
    split at h
    · split at h <;> cases h
    · exact Sum.inr.inj h ▸ hfail

/-- What lasts in the file lasts in the input that a turn leaves. -/
lemma Abreast.lasts_stop (h : Abreast P d text s y) (outside : ℕ → UInt8) :
    (∀ q marked b, turn (d.tables outside) .full y = .inr (.action q marked b) → b.Lasts P) ∧
      ∀ b, turn (d.tables outside) .full y = .inr (.badInput b) → b.Lasts P := by
  obtain ⟨c, hc⟩ := h.level.follows
  refine ⟨fun q marked b hturn => ?_, fun b hturn => ?_⟩
  · obtain ⟨-, -, -, -, rfl⟩ := turn_eq_action hturn
    exact h.lasts.trim hc.tracks y.yyanchor
  · obtain ⟨-, -, r, hadvance⟩ := turn_eq_badInput hturn
    exact h.lasts.advanceBy hc.tracks hadvance

/-- Step lemma: the scanner on the buffer goes on as the scanner on the text does, and takes the
same pieces. -/
lemma Abreast.step (outside : ℕ → UInt8) (hanchor : d.RuleAnchors)
    {pieces' : List (Piece (Fin maxChars))}
    (h : Abreast (∀ u, u <:+: text → d.Alive u → u.length ≤ maxLexemeLen) d text s y)
    (hs : scanLoop d (s, pieces) = .inl (s', pieces')) : ∃ y', Yylex.scanLoop (d.tables outside)
    (y, pieces.map (Piece.map byte)) = .inl (y', pieces'.map (Piece.map byte)) ∧
      Abreast (∀ u, u <:+: text → d.Alive u → u.length ≤ maxLexemeLen) d text s' y' := by
  obtain ⟨inp, u, hconsumed, htext⟩ := id h.consumed
  have hrelated := related_turn outside hanchor h.level h.yystate_lt fun _ => h.smooth
  obtain ⟨hlastsAction, hlastsBad⟩ := h.lasts_stop outside
  unfold Yylex.scanLoop
  dsimp only
  generalize hr : yylexStep d s = r at hrelated
  generalize hr' : turn (d.tables outside) .full y = r' at hrelated
  rw [scanLoop_eq hr] at hs
  cases hrelated with
  | go hlevel =>
    obtain ⟨rfl, rfl⟩ := Prod.mk.inj (Sum.inl.inj hs)
    exact ⟨_, rfl, h.go h.smooth hr hr' hlevel⟩
  | @action q marked trimmed marked' trimmed' hmarked htrimmed hsupplied =>
    obtain ⟨rfl, rfl⟩ := Prod.mk.inj (Sum.inl.inj hs)
    have hrest : trimmed.text = text := (text_rest hr).trans (hconsumed.text.trans htext)
    refine ⟨_, ?_, h.again htrimmed hsupplied (hlastsAction _ _ _ hr') hrest⟩
    obtain ⟨c, hc⟩ := htrimmed
    rw [List.map_append, List.map_singleton]
    dsimp only
    rw [hc.lexeme, hc.lineno]
    rfl
  | @badInput inp' b hb hsupplied =>
    obtain ⟨rfl, rfl⟩ := Prod.mk.inj (Sum.inl.inj hs)
    have hrest : inp'.text = text := (text_rest hr).trans (hconsumed.text.trans htext)
    refine ⟨_, ?_, h.again hb hsupplied (hlastsBad _ hr') hrest⟩
    obtain ⟨c, hc⟩ := hb
    rw [List.map_append, List.map_singleton]
    dsimp only
    rw [hc.taken, hc.lineno]
    rfl
  | eof inp' => cases hs

/-- At the end of the text the scanner on the buffer is at the end of the file. -/
lemma Abreast.stop (hanchor : d.RuleAnchors) {pieces' : List (Piece (Fin maxChars))}
    (h : Abreast (∀ u, u <:+: text → d.Alive u → u.length ≤ maxLexemeLen) d text s y)
    (hs : scanLoop d (s, pieces) = .inr pieces') :
    Yylex.scanLoop (d.tables outside) (y, pieces.map (Piece.map byte)) =
    .inr (.ok (pieces'.map (Piece.map byte))) := by
  have hrelated := related_turn outside hanchor h.level h.yystate_lt fun _ => h.smooth
  unfold Yylex.scanLoop
  dsimp only
  generalize hr : yylexStep d s = r at hrelated
  generalize turn (d.tables outside) .full y = r' at hrelated
  rw [scanLoop_eq hr] at hs
  cases hrelated with
  | go | action | badInput => cases hs
  | eof =>
    obtain rfl := Sum.inr.inj hs
    rfl

end Loops

end Lex
