import Cgkits.Lex.ActionScan
import Cgkits.Lex.Term

/-!
# The rule for an action (`parser.lex`, `lexyy.c`)

When the analyzer has found a `{`, the rule reads on with `input` to the brace that closes the
action, and takes the carriage returns out of the lexeme where it stands in the buffer.  `input`
returns the character behind the lexeme, 0 at the end of the file, or -1 when the lexeme does not
fit into the buffer.

`action_spec` says that the rule returns the text of the action when it is harmless (`Scannable`)
and fits.  Afterwards the buffer shows a text again, so that the analyzer can go on.
-/

namespace Lex

/-- What the analyzer knows about the lexeme, besides the buffer. -/
structure Analyzer where
  /-- The input buffer, with the character that is set aside. -/
  buffer : TermBuffer
  /-- `yytext`, the start of the lexeme. -/
  yytext : ℕ
  /-- `yyleng`, the length of the lexeme. -/
  yyleng : ℤ
  /-- `yylineno`, the number of the line. -/
  yylineno : ℤ
  /-- The lines of which it has been said `Newline in string ,inserting "`. -/
  warnings : List ℤ

/-- How the rule for an action ends: with the token, with an error or with the end of the file. -/
inductive ActionEnd
  /-- `return ACTION`, at the end of the action. -/
  | action
  /-- `%%%% in code block starting on line %d\n`. -/
  | percents (startLine : ℤ)
  /-- `Code block starting on line %d too long.\n`. -/
  | tooLong (startLine : ℤ)
  /-- `EOF in code block starting on line %d\n`. -/
  | eof (startLine : ℤ)
deriving DecidableEq, Repr

/-- The loop of `stripcr`, which copies the characters of a string but for the carriage returns. -/
def stripcrLoop : ℕ → (ℕ → UInt8) → ℕ → ℕ → ℕ → UInt8
  | 0, f, _, _ => f
  | fuel + 1, f, dest, src =>
    if f src = 0 then Function.update f dest 0
    else if f src ≠ 13 then stripcrLoop fuel (Function.update f dest (f src)) (dest + 1) (src + 1)
    else stripcrLoop fuel f dest (src + 1)

namespace Analyzer

variable (lx : Analyzer)

/-- `input`: read a character by `ii_input` and set the variables of the lexeme again. -/
def input : Except InputFault (ℤ × Analyzer) := do
  let (c, s) ← lx.buffer.input .full
  if c ≠ 0 ∧ c ≠ -1 then
    .ok
      (c,
      { lx with
        buffer := s, yytext := s.buffer.smark, yylineno := s.buffer.lineno,
        yyleng := lx.yyleng + 1 })
  else .ok (c, { lx with buffer := s })

/-- `stripcr(yytext)`: the carriage returns are taken out of the lexeme. -/
def stripcr : Analyzer :=
  let f := stripcrLoop (bufSize + 1) lx.buffer.buffer.startBuf lx.yytext lx.yytext
  { lx with buffer := ⟨{ lx.buffer.buffer with startBuf := f }, lx.buffer.termchar⟩ }

/-- The loop of the rule.  It makes a turn for each character, or for a backslash with the character
behind it. -/
def actionLoop (startLine : ℤ) : ℕ → ActionScan → Analyzer →
    Except InputFault (Option (ActionEnd × Analyzer))
  | 0, _, _ => .ok none
  | fuel + 1, sc, lx => do
    let (i, lx) ← lx.input
    if i = 0 then .ok (some (.eof startLine, lx))
    else if sc.lb2 = 10 ∧ sc.lb1 = 37 ∧ i = 37 then .ok (some (.percents startLine, lx))
    else if i < 0 then do
      let s := lx.buffer.unterm
      let (_, b) ← s.buffer.flushBy .full true
      .ok (some (.tooLong startLine, { lx with buffer := TermBuffer.term ⟨b, s.termchar⟩ }))
    else
      let warns := i = 10 ∧ sc.inString
      let lx := if warns then { lx with warnings := lx.yylineno :: lx.warnings } else lx
      let sc := if warns then { sc with inString := false } else sc
      if i = 92 then do
        let (i, lx) ← lx.input
        if i = 0 then .ok (some (.eof startLine, lx)) else actionLoop startLine fuel (sc.shift i) lx
      else
        let sc := (sc.modes i).braces i
        if i = 125 ∧ sc.outside ∧ sc.nestlev ≤ 0 then .ok (some (.action, lx.stripcr))
        else actionLoop startLine fuel (sc.shift i) lx

/-- The rule for `{`, which reads an action up to the brace that closes it. -/
def action (fuel : ℕ) : Except InputFault (Option (ActionEnd × Analyzer)) :=
  lx.actionLoop lx.yylineno fuel .start

end Analyzer

/-- The characters of `r` and a NUL stand in the memory from the pointer `p` on. -/
structure CString (f : ℕ → UInt8) (p : ℕ) (r : List UInt8) : Prop where
  /-- The characters of the string are in memory. -/
  chars : ∀ i (h : i < r.length), f (p + i) = r[i]
  /-- There is no NUL in the string. -/
  ne_zero : 0 ∉ r
  /-- There is a NUL behind the string. -/
  nul : f (p + r.length) = 0

/-- Some calls of `input` deliver these characters one after the other. -/
inductive Analyzer.Delivers : List UInt8 → Analyzer → Analyzer → Prop
  | nil (lx : Analyzer) : Delivers [] lx lx
  | cons {x : UInt8} {w : List UInt8} {lx lx' lx'' : Analyzer}
      (h : lx.input = .ok ((x.toNat : ℤ), lx')) (h' : Delivers w lx' lx'') :
      Delivers (x :: w) lx lx''

/-- `input` does not deliver the next character: the input system stops, or the text that is to be
kept is too long. -/
def Analyzer.Fails (lx : Analyzer) (n : ℕ) : Prop :=
  (∃ fault, lx.input = .error fault) ∨ ((∃ lx', lx.input = .ok (-1, lx')) ∧ maxLexemeLen < n)

/-- A lexeme is being read, and the buffer shows a text when the terminator is taken away. -/
structure Analyzer.Shows (lx : Analyzer) (c : Cursor UInt8) (b : Buffer) : Prop where
  /-- The buffer with the terminator. -/
  buffer : lx.buffer = TermBuffer.term ⟨b, 0⟩
  /-- `yytext` is the start of the lexeme. -/
  yytext : lx.yytext = b.smark
  /-- The buffer shows the text of the cursor. -/
  tracks : Tracks c b
  /-- The characters ahead are in the buffer. -/
  covered : b.Covered
  /-- At the end of the file nothing is left of it. -/
  drained : b.Drained
  /-- The lexeme has at least one character. -/
  started : b.smark < b.next

variable {lx lx' lx'' : Analyzer} {b b' : Buffer} {c c' : Cursor UInt8} {w rest r : List UInt8}
  {x : UInt8} {f : ℕ → UInt8} {p dest src fuel : ℕ} {startLine : ℤ}

/-! ## `stripcr` -/

/-- The first character of a string, and the others. -/
lemma cString_cons : CString f p (x :: r) ↔ f p = x ∧ x ≠ 0 ∧ CString f (p + 1) r := by
  have hshift : ∀ i, p + (i + 1) = p + 1 + i := fun i => by omega
  constructor
  · intro h
    refine ⟨h.chars 0 (Nat.succ_pos _), fun hzero => h.ne_zero (hzero ▸ List.mem_cons_self),
      fun i hi => ?_, fun hmem => h.ne_zero (List.mem_cons_of_mem _ hmem), ?_⟩
    · have hchar := h.chars (i + 1) (Nat.succ_lt_succ hi)
      rw [hshift] at hchar
      exact hchar
    · have hnul := h.nul
      rw [List.length_cons, hshift] at hnul
      exact hnul
  · rintro ⟨hx, hne, h⟩
    refine ⟨fun i hi => ?_, fun hmem => ?_, ?_⟩
    · rcases i with - | i
      · exact hx
      · rw [hshift]
        exact h.chars i (Nat.lt_of_succ_lt_succ hi)
    · rcases List.mem_cons.mp hmem with hzero | hmem
      · exact hne hzero.symm
      · exact h.ne_zero hmem
    · rw [List.length_cons, hshift]
      exact h.nul

/-- A string does not depend on what stands elsewhere. -/
lemma CString.congr {g : ℕ → UInt8} (h : CString f p r) (hg : ∀ i, p ≤ i → i ≤ p + r.length →
    g i = f i) : CString g p r := by
  refine ⟨fun i hi => ?_, h.ne_zero, ?_⟩
  · rw [hg _ (by omega) (by omega), h.chars i hi]
  · rw [hg _ (by omega) (Nat.le_refl _), h.nul]

/-- The carriage returns are taken out of a string, and neither what is in front of it nor what is
behind it changes. -/
lemma stripcrLoop_eq : ∀ {r : List UInt8} {fuel : ℕ} {f : ℕ → UInt8} {dest src : ℕ}, dest ≤ src →
    CString f src r → r.length < fuel →
    CString (stripcrLoop fuel f dest src) dest (r.filter (· ≠ 13)) ∧
      (∀ i < dest, stripcrLoop fuel f dest src i = f i) ∧
      ∀ i, src + r.length ≤ i → stripcrLoop fuel f dest src i = f i := by
  intro r
  induction r with
  | nil =>
    intro fuel f dest src hle h hfuel
    obtain ⟨fuel, rfl⟩ := Nat.exists_eq_add_of_lt hfuel
    have hnul : f src = 0 := h.nul
    have hloop : stripcrLoop (0 + fuel + 1) f dest src = Function.update f dest 0 := if_pos hnul
    rw [List.length_nil, hloop]
    refine ⟨⟨fun i hi => absurd hi (Nat.not_lt_zero i), List.not_mem_nil,
      Function.update_self _ _ _⟩, fun i hi => ?_, fun i hi => ?_⟩
    · exact Function.update_of_ne (by omega) _ _
    · by_cases hi' : i = dest
      · obtain rfl : src = i := by omega
        rw [← hi', Function.update_self, hnul]
      · exact Function.update_of_ne hi' _ _
  | cons x r ih =>
    intro fuel f dest src hle h hfuel
    obtain ⟨hx, hne, hrest⟩ := cString_cons.mp h
    rcases fuel with - | fuel
    · exact absurd hfuel (Nat.not_lt_zero _)
    have hfuel' : r.length < fuel := Nat.lt_of_succ_lt_succ hfuel
    rw [stripcrLoop, hx, if_neg hne, List.length_cons]
    by_cases hcr : x = 13
    · rw [if_neg (not_not.mpr hcr), List.filter_cons_of_neg (by simpa using hcr)]
      obtain ⟨hstring, hfront, hbehind⟩ := ih (by omega : dest ≤ src + 1) hrest hfuel'
      exact ⟨hstring, hfront, fun i hi => hbehind i (by omega)⟩
    · rw [if_pos hcr, List.filter_cons_of_pos (by simpa using hcr)]
      have hkeep : CString (Function.update f dest x) (src + 1) r :=
        hrest.congr fun i hi _ => Function.update_of_ne (by omega) _ _
      obtain ⟨hstring, hfront, hbehind⟩ := ih (by omega : dest + 1 ≤ src + 1) hkeep hfuel'
      refine ⟨cString_cons.mpr ⟨?_, hne, hstring⟩, fun i hi => ?_, fun i hi => ?_⟩
      · rw [hfront dest (Nat.lt_succ_self _), Function.update_self]
      · rw [hfront i (by omega), Function.update_of_ne (by omega)]
      · rw [hbehind i (by omega), Function.update_of_ne (by omega)]

/-! ## `input` -/

/-- `input` returns what `ii_input` returns, and sets the text to the lexeme. -/
lemma input_eq_ok {i : ℤ} (h : lx.input = .ok (i, lx')) (hi : i ≠ 0 ∧ i ≠ -1) :
    ∃ s, lx.buffer.input .full = .ok (i, s) ∧ lx'.buffer = s ∧ lx'.yytext = s.buffer.smark ∧
      lx'.warnings = lx.warnings := by
  unfold Analyzer.input at h
  rcases hread : lx.buffer.input .full with e | ⟨j, s⟩
  · rw [hread] at h
    cases h
  · rw [hread] at h
    simp only [Bind.bind, Except.bind] at h
    split_ifs at h with hj
    · obtain ⟨rfl, rfl⟩ := Prod.mk.inj (Except.ok.inj h)
      exact ⟨s, rfl, rfl, rfl, rfl⟩
    · obtain ⟨rfl, -⟩ := Prod.mk.inj (Except.ok.inj h)
      exact absurd hi hj

/-- A character that is delivered is the next one, and the lexeme is terminated behind it. -/
lemma input_delivers (h : lx.input = .ok ((x.toNat : ℤ), lx')) (hshows : lx.Shows c b)
    (hx : x ≠ 0) : ∃ b', lx'.Shows c.skip.markEnd b' ∧ lx'.warnings = lx.warnings ∧
    c.look 1 = some x := by
  have hc := hshows.tracks
  have hne : (x.toNat : ℤ) ≠ 0 := fun hzero => hx (UInt8.toNat_inj.mp (by exact_mod_cast hzero))
  obtain ⟨s, hread, hs, hyytext, hwarn⟩ := input_eq_ok h ⟨hne, by omega⟩
  rw [hshows.buffer, input_eq, unterm_term] at hread
  obtain ⟨⟨y, b₁⟩, hadv, hp⟩ := exists_of_map_eq_ok hread
  obtain ⟨rfl, hs'⟩ := Prod.mk.inj hp
  obtain ⟨x', hlook, hx', htracks⟩ : ∃ x', c.look 1 = some x' ∧ (x.toNat : ℤ) = x'.toNat ∧
      Tracks c.skip b₁ := by
    rcases hc.advance hadv with ⟨hstop, -⟩ | hmore
    · omega
    · exact hmore
  obtain rfl : x = x' := (toNat_eq_iff x x').mp hx'
  have hbefore : b.next < b.endBuf := by
    have hahead := hshows.covered hshows.started
    have hsixteen : maxLookahead = 16 := rfl
    rcases Buffer.advanceBy_cases hc.called hc.end_le hadv with
      ⟨hzero, -⟩ | ⟨hfull, -⟩ | ⟨hmore, -⟩ | ⟨heof, -⟩
    · exact absurd hzero hne
    · omega
    · cases heof : b.eofRead
      · have hle := hahead heof
        omega
      · simpa [Buffer.noMoreChars, heof] using hmore
    · have hle := hahead heof
      omega
  have hbyte : b.startBuf b.next = x := Option.some.inj ((hc.byte_next hbefore).symm.trans hlook)
  have hterm : (TermBuffer.term ⟨b, 0⟩).termchar ≠ 0 := by
    change b.startBuf b.next ≠ 0
    rw [hbyte]
    exact hx
  have hs₁ : s = TermBuffer.term ⟨b₁.markEnd, 0⟩ := hs'.symm.trans (if_pos hterm)
  have hstep : InputCall.Step (.advance .full, some (x.toNat : ℤ)) b b₁ :=
    InputCall.step_advance.mpr ⟨_, rfl, hadv⟩
  have hcovered : b₁.Covered := hc.covered hstep hshows.covered
  have hdrained : b₁.Drained := hc.drained hstep rfl hshows.drained
  refine ⟨b₁.markEnd, ⟨hs.trans hs₁, ?_, htracks.markEnd, hcovered, hdrained, ?_⟩, hwarn, hlook⟩
  · rw [hyytext, hs₁]
    rfl
  · have hskip := Cursor.skip_eq (Cursor.look_one_eq_some hlook)
    have hmark := htracks.smark
    have hmark₀ := hc.smark
    rw [hskip] at hmark
    change b₁.smark + (c.next + 1) = c.smark + b₁.next at hmark
    have hstarted := hshows.started
    change b₁.smark < b₁.next
    omega

/-- `input` delivers the next character of the text, or the input system fails. -/
lemma input_cases (hshows : lx.Shows c b) (hlook : c.look 1 = some x) (hx : x ≠ 0) :
    (∃ lx', lx.input = .ok ((x.toNat : ℤ), lx')) ∨ lx.Fails (c.next - c.pmark.getD c.smark) := by
  have hc := hshows.tracks
  unfold Analyzer.Fails Analyzer.input
  rw [hshows.buffer, input_eq, unterm_term]
  rcases hadv : b.advanceBy .full with fault | ⟨i, b₁⟩
  · exact .inr (.inl ⟨fault, rfl⟩)
  · simp only [Except.map, Bind.bind, Except.bind]
    obtain ⟨⟨rfl, hno⟩ | rfl, -⟩ | ⟨b₂, hc₂, hlt, -, htake⟩ := hc.advance_cases hadv
    · -- the file is at its end, and so is the text
      simp only [Buffer.noMoreChars, Bool.and_eq_true, decide_eq_true_eq] at hno
      have hfile := hc.file
      rw [hshows.drained hno.1, eq_comm, List.drop_eq_nil_iff] at hfile
      have hlen := Cursor.look_one_eq_some hlook
      omega
    · have hlong := (hc.overflow hadv).2
      refine .inr (.inr ⟨⟨_, if_neg fun h => h.2 rfl⟩, ?_⟩)
      have hleft := hc.leftEdge_add
      have hle := hc.leftEdge_le_next
      omega
    · obtain ⟨rfl, -⟩ := Prod.mk.inj htake
      obtain rfl : x = b₂.startBuf b₂.next := Option.some.inj (hlook.symm.trans (hc₂.byte_next hlt))
      have hne : ((b₂.startBuf b₂.next).toNat : ℤ) ≠ 0 :=
        fun hzero => hx ((toNat_eq_iff _ 0).mp hzero)
      exact .inl ⟨_, if_pos ⟨hne, by omega⟩⟩

/-- Run lemma: the characters that are delivered are the next ones of the text. -/
lemma Analyzer.Delivers.shows (h : lx.Delivers w lx') (hw : 0 ∉ w) :
    ∀ {b : Buffer} {c : Cursor UInt8}, lx.Shows c b → ∃ b' c', lx'.Shows c' b' ∧
      lx'.warnings = lx.warnings ∧ c'.text = c.text ∧ c'.smark = c.smark ∧
      c'.next = c.next + w.length ∧ c'.pmark = c.pmark ∧ c.unread = w ++ c'.unread := by
  induction h with
  | nil lx =>
    intro b c hshows
    exact ⟨b, c, hshows, rfl, rfl, rfl, rfl, rfl, rfl⟩
  | @cons x w lx lx₁ lx₂ hx hrest ih =>
    intro b c hshows
    obtain ⟨hne, hw'⟩ := not_or.mp (mt List.mem_cons.mpr hw)
    obtain ⟨b₁, hshows₁, hwarn, hlook⟩ := input_delivers hx hshows fun hzero => hne hzero.symm
    obtain ⟨b₂, c₂, hshows₂, hwarn₂, htext, hsmark, hnext, hpmark, hunread⟩ := ih hw' hshows₁
    have hfront : c.unread = x :: c.skip.unread := Cursor.unread_skip hlook
    have hskip := Cursor.skip_eq (Cursor.look_one_eq_some hlook)
    have hunread' : c.skip.unread = w ++ c₂.unread := hunread
    rw [hskip] at htext hsmark hnext hpmark
    refine ⟨b₂, c₂, hshows₂, hwarn₂.trans hwarn, htext, hsmark, ?_, hpmark, ?_⟩
    · rw [hnext, List.length_cons]
      change c.next + 1 + w.length = c.next + (w.length + 1)
      omega
    · rw [hfront, hunread', List.cons_append]

/-- Run lemma: the next characters are delivered, or `input` fails at one of them. -/
lemma exists_delivers : ∀ {w : List UInt8} {lx : Analyzer} {c : Cursor UInt8}
    {b : Buffer}, lx.Shows c b → 0 ∉ w → c.unread = w ++ rest → (∃ lx', lx.Delivers w lx') ∨
      ∃ w₁ lx₁, w₁ <+: w ∧ lx.Delivers w₁ lx₁ ∧
        lx₁.Fails (c.next - c.pmark.getD c.smark + w₁.length) := by
  intro w
  induction w with
  | nil =>
    intro lx c b hshows _ _
    exact .inl ⟨lx, .nil lx⟩
  | cons x w ih =>
    intro lx c b hshows hw hunread
    obtain ⟨hne, hw'⟩ := not_or.mp (mt List.mem_cons.mpr hw)
    have hlook : c.look 1 = some x := by
      rw [Cursor.look_eq, hunread]
      rfl
    rcases input_cases hshows hlook fun hzero => hne hzero.symm with ⟨lx₁, hx⟩ | hfail
    · obtain ⟨b₁, hshows₁, -, -⟩ := input_delivers hx hshows fun hzero => hne hzero.symm
      have hrest : c.skip.unread = w ++ rest := by
        have hcons : x :: c.skip.unread = x :: (w ++ rest) :=
          (Cursor.unread_skip hlook).symm.trans hunread
        exact (List.cons.inj hcons).2
      rcases ih hshows₁ hw' hrest with ⟨lx', hdel⟩ | ⟨w₁, lx₂, hprefix, hdel, hfail⟩
      · exact .inl ⟨lx', .cons hx hdel⟩
      · have hstart : c.pmark.getD c.smark ≤ c.next := c.pmark_getD_le
        have hcount :
            c.skip.markEnd.next - c.skip.markEnd.pmark.getD c.skip.markEnd.smark + w₁.length =
            c.next - c.pmark.getD c.smark + (x :: w₁).length := by
          rw [Cursor.skip_eq (Cursor.look_one_eq_some hlook), List.length_cons]
          change c.next + 1 - c.pmark.getD c.smark + w₁.length = c.next - c.pmark.getD c.smark +
            (w₁.length + 1)
          omega
        rw [hcount] at hfail
        exact .inr ⟨x :: w₁, lx₂, List.cons_prefix_cons.mpr ⟨rfl, hprefix⟩, .cons hx hdel, hfail⟩
    · exact .inr ⟨[], lx, List.nil_prefix, .nil lx, hfail⟩

/-! ## The loop -/

/-- Nothing is found between the braces, and the action ends at the brace that closes it. -/
lemma actionLoop_closes : ∀ {fuel : ℕ} {w : List UInt8} {c : CLex} {q p : UInt8} {e₁ e₂ : Bool}
    {sc : ActionScan} {lx : Analyzer}, lx.Delivers w lx' → Follows c q p sc → 0 < c.depth →
    c.closes false w = true → c.harmless p w = true → ¬ Percents ((q, e₂) :: (p, e₁) :: pairs w) →
    w.length ≤ fuel → lx.actionLoop startLine fuel sc = .ok (some (.action, lx'.stripcr)) := by
  intro fuel
  induction fuel with
  | zero =>
    intro w c q p e₁ e₂ sc lx hdel hfollows hdepth hcloses hharm hpercents hfuel
    obtain rfl := List.length_eq_zero_iff.mp (Nat.le_zero.mp hfuel)
    cases hcloses
  | succ fuel ih =>
    intro w c q p e₁ e₂ sc lx hdel hfollows hdepth hcloses hharm hpercents hfuel
    cases hdel with
    | nil => cases hcloses
    | @cons x w _ lx₁ _ hx hdel =>
      obtain ⟨c', hnext, hrest⟩ := CLex.closes_cons.mp hcloses
      obtain ⟨hne, hmode, -⟩ := CLex.next_eq_some hnext
      obtain ⟨hharm₁, hharm'⟩ := CLex.harmless_cons hnext hharm
      have hzero : ¬ (x.toNat : ℤ) = 0 := fun h => hne ((toNat_eq_iff x 0).mp h)
      have hneg : ¬ (x.toNat : ℤ) < 0 := by omega
      rw [Analyzer.actionLoop, hx]
      simp only [Bind.bind, Except.bind]
      rw [if_neg hzero, if_neg (hfollows.not_percents hpercents), if_neg hneg,
        if_neg (hfollows.not_newline hmode), if_neg (hfollows.not_newline hmode)]
      have h92 : (x.toNat : ℤ) = 92 ↔ x = 92 := toNat_eq_iff x 92
      have h125 : (x.toNat : ℤ) = 125 ↔ x = 125 := toNat_eq_iff x 125
      by_cases hesc : x = 92
      · -- a backslash is passed over with the character behind it, which there is, since no brace
        -- has been closed
        subst hesc
        have hkeep : c'.depth = c.depth := CLex.depth_next hnext (by decide) (by decide)
        rw [if_pos (h92.mpr rfl)]
        rw [if_neg (by omega)] at hrest
        cases hdel with
        | nil => cases hrest
        | @cons y w _ lx₂ _ hy hdel =>
          obtain ⟨c'', hnext', hrest'⟩ := CLex.closes_cons.mp hrest
          obtain ⟨hne', -, -⟩ := CLex.next_eq_some hnext'
          obtain ⟨hfollows'', -, hkeep'⟩ := hfollows.escape hnext hnext' hharm₁
          have hzero' : ¬ (y.toNat : ℤ) = 0 := fun h => hne' ((toNat_eq_iff y 0).mp h)
          rw [if_neg (by omega)] at hrest'
          rw [pairs_escape] at hpercents
          rw [hy]
          dsimp only
          rw [if_neg hzero']
          refine ih hdel hfollows'' (by omega) hrest' (CLex.harmless_cons hnext' hharm').2
            (fun h => hpercents h.of_tail) ?_
          rw [List.length_cons, List.length_cons] at hfuel
          omega
      · obtain ⟨hfollows', hend⟩ := hfollows.step hnext hesc hharm₁ hdepth
        rw [← h125] at hend
        rw [if_neg fun h => hesc (h92.mp h)]
        by_cases hclosed : c'.depth = 0
        · rw [if_pos hclosed, List.isEmpty_iff] at hrest
          subst hrest
          rw [if_pos (hend.mpr hclosed)]
          cases hdel
          rfl
        · rw [if_neg hclosed] at hrest
          rw [if_neg fun h => hclosed (hend.mp h)]
          rw [pairs_cons hesc] at hpercents
          exact ih hdel hfollows' (Nat.pos_of_ne_zero hclosed) hrest hharm'
            (fun h => hpercents h.of_tail) (Nat.le_of_succ_le_succ hfuel)

/-! ## The lexeme -/

/-- The lexeme with the terminator behind it is a string. -/
lemma Tracks.cString (h : Tracks c b) (hr : c.text.drop c.smark = r ++ c.unread) (hzero : 0 ∉ r) :
    CString (b.put 0).startBuf b.smark r := by
  have hsmark := h.smark
  have hle := h.smark_le_next
  have hend := h.next_le
  have hnext := c.next_le
  have hlen : r.length = b.next - b.smark := by
    have hsame := congrArg List.length hr
    rw [List.length_append, List.length_drop, Cursor.unread, List.length_drop] at hsame
    omega
  refine ⟨fun i hi => ?_, hzero, ?_⟩
  · have hleft := h.leftEdge_le
    have hbyte := h.byte (b.smark + i) (by omega) (by omega)
    have hindex : c.next + (b.smark + i) - b.next = c.smark + i := by omega
    rw [hindex, ← List.getElem?_drop, hr, List.getElem?_append_left hi, List.getElem?_eq_getElem hi]
      at hbyte
    change Function.update b.startBuf b.next 0 (b.smark + i) = r[i]
    rw [Function.update_of_ne (by omega)]
    exact (Option.some.inj hbyte).symm
  · have hat : b.smark + r.length = b.next := by omega
    rw [hat]
    exact Function.update_self _ _ _

/-- The bytes in front of the next character may be written over. -/
lemma Tracks.rewrite (h : Tracks c b) (hf : ∀ i, b.next ≤ i → f i = b.startBuf i) :
    ∃ c', Tracks c' { b with startBuf := f } ∧ c'.unread = c.unread := by
  have hnext := c.next_le
  have hleft := h.leftEdge_le_next
  have hpos := h.next_le_leftEdge
  let front : List UInt8 := (List.range c.next).map fun j => f (j + b.next - c.next)
  have hfront : front.length = c.next := by rw [List.length_map, List.length_range]
  have hunread : (front ++ c.text.drop c.next).drop c.next = c.text.drop c.next := by
    rw [List.drop_append_of_le_length (Nat.le_of_eq hfront.symm), List.drop_of_length_le
      (Nat.le_of_eq hfront)]
    rfl
  refine ⟨{ c with
    text :=
      front ++ c.text.drop c.next, next_le := by rw [List.length_append]; omega }, ?_, hunread⟩
  refine ⟨h.called, h.smark, h.emark, h.pmark, h.plength, h.next_le, h.end_le, fun i hi hi' =>
    ?_, ?_, h.more⟩
  · have hi₁ : b.leftEdge ≤ i := hi
    have hi₂ : i < b.endBuf := hi'
    change (front ++ c.text.drop c.next)[c.next + i - b.next]? = some (f i)
    by_cases hlt : i < b.next
    · rw [List.getElem?_append_left (by omega), List.getElem?_map, List.getElem?_range (by omega)]
      have hindex : c.next + i - b.next + b.next - c.next = i := by omega
      exact congrArg some (congrArg f hindex)
    · have hindex : c.next + (c.next + i - b.next - front.length) = c.next + i - b.next := by omega
      rw [List.getElem?_append_right (by omega), List.getElem?_drop, hindex, h.byte i hi₁ hi₂,
        hf i (by omega)]
  · change b.file = (front ++ c.text.drop c.next).drop (c.next + b.endBuf - b.next)
    have hend := h.next_le
    have hsum : c.next + b.endBuf - b.next = c.next + (b.endBuf - b.next) := by omega
    rw [h.file, hsum, ← List.drop_drop, ← List.drop_drop, hunread]

/-- Behind the terminator the buffer has changed only in front of the next character. -/
lemma exists_unterm (hf : ∀ i, b.next ≤ i → f i = (b.put 0).startBuf i) :
    ∃ g, TermBuffer.unterm ⟨{ b.put 0 with startBuf := f }, b.startBuf b.next⟩ =
      ⟨{ b with startBuf := g }, 0⟩ ∧ ∀ i, b.next ≤ i → g i = b.startBuf i := by
  have hkeep : ∀ i, b.next < i → f i = b.startBuf i := fun i hi =>
    (hf i (Nat.le_of_lt hi)).trans (Function.update_of_ne (by omega) _ _)
  by_cases hzero : b.startBuf b.next = 0
  · refine ⟨f, ?_, fun i hi => ?_⟩
    · rw [hzero]
      rfl
    · rcases Nat.eq_or_lt_of_le hi with rfl | hlt
      · rw [hf _ hi, hzero]
        exact Function.update_self _ _ _
      · exact hkeep i hlt
  · refine ⟨Function.update f b.next (b.startBuf b.next), unterm_of_ne_zero hzero, fun i hi => ?_⟩
    rcases Nat.eq_or_lt_of_le hi with rfl | hlt
    · exact Function.update_self _ _ _
    · rw [Function.update_of_ne (by omega), hkeep i hlt]

/-- `stripcr` takes the carriage returns out of the lexeme, and the input behind it is what it has
been. -/
lemma stripcr_spec (hshows : lx.Shows c b) (hr : c.text.drop c.smark = r ++ c.unread)
    (hzero : 0 ∉ r) :
    CString lx.stripcr.buffer.buffer.startBuf lx.stripcr.yytext (r.filter (· ≠ 13)) ∧
      lx.stripcr.buffer.unterm.buffer.unread = c.unread ∧ lx.stripcr.buffer.unterm.buffer.Held := by
  have hc := hshows.tracks
  have hlen : b.smark + r.length = b.next := by
    have hsame := congrArg List.length hr
    have hsmark := hc.smark
    have hle := hc.smark_le_next
    have hnext := c.next_le
    rw [List.length_append, List.length_drop, Cursor.unread, List.length_drop] at hsame
    omega
  have hfuel : r.length < bufSize + 1 := by
    have hend := hc.end_le
    have hnext := hc.next_le
    omega
  obtain ⟨hstring, -, hbehind⟩ := stripcrLoop_eq (Nat.le_refl b.smark) (hc.cString hr hzero) hfuel
  obtain ⟨g, hg, hsame⟩ := exists_unterm fun i hi => hbehind i (by omega)
  obtain ⟨c', hc', hunread⟩ := hc.rewrite hsame
  have hstrip : lx.stripcr.buffer.unterm = ⟨{ b with startBuf := g }, 0⟩ := by
    rw [← hg]
    unfold Analyzer.stripcr
    rw [hshows.buffer, hshows.yytext]
    rfl
  rw [hstrip]
  refine ⟨?_, hc'.unread.trans hunread, c', hc', hshows.covered⟩
  unfold Analyzer.stripcr
  rw [hshows.buffer, hshows.yytext]
  exact hstring

/-- The text from the start of a lexeme of one character on. -/
lemma Tracks.drop_smark (h : Tracks c b) (hlex : b.text = [x]) (hend : b.emark = b.next) :
    c.next = c.smark + 1 ∧ c.text.drop c.smark = x :: c.unread := by
  have hlen : b.emark - b.smark = 1 := by
    have hsame := congrArg List.length hlex
    rw [Buffer.text, Buffer.bytes, List.length_map, List.length_range] at hsame
    exact hsame
  have hbyte : b.startBuf b.smark = x := by
    rw [Buffer.text, hlen] at hlex
    exact (List.cons.inj hlex).1
  have hsmark := h.smark
  have hle := h.smark_le
  have hbound := h.next_le
  have hnext : c.next = c.smark + 1 := by omega
  have hat : c.text[c.smark]? = some x := by
    have hindex : c.next + b.smark - b.next = c.smark := by omega
    have hchar := h.byte b.smark h.leftEdge_le (by omega)
    rw [hindex, hbyte] at hchar
    exact hchar
  refine ⟨hnext, ?_⟩
  obtain ⟨hlt, hget⟩ := List.getElem?_eq_some_iff.mp hat
  rw [List.drop_eq_getElem_cons hlt, hget, ← hnext]
  rfl

/-- Let a `{` be the lexeme, and behind it the rest of an action with nothing in it that the rule
takes for something else. The rule returns the action without its carriage returns, and the input
goes on behind the brace that closes it, or `input` fails at some character of the action.  It
reports that the action is too long only if the text from the start of the previous lexeme on is
longer than `_MAX_LEXEME_LEN`. -/
theorem action_spec (hshows : lx.Shows c b) (hlex : b.text = [123]) (hend : b.emark = b.next)
    (hunread : b.unread = w ++ rest) (hw : ActionText false w) (hscan : Scannable w)
    (hfuel : w.length ≤ fuel) :
    (∃ w₁ lx₁, w₁ <+: w ∧ lx.Delivers w₁ lx₁ ∧ lx₁.Fails (b.next - b.leftEdge + w₁.length)) ∨
      ∃ lx', lx.action fuel = .ok (some (.action, lx')) ∧
        CString lx'.buffer.buffer.startBuf lx'.yytext ((123 :: w).filter (· ≠ 13)) ∧
        lx'.buffer.unterm.buffer.unread = rest ∧ lx'.buffer.unterm.buffer.Held ∧
        lx'.warnings = lx.warnings := by
  have hc := hshows.tracks
  have hzero : 0 ∉ w := CLex.not_mem_of_closes hw
  have hunread' : c.unread = w ++ rest := hc.unread.symm.trans hunread
  rcases exists_delivers hshows hzero hunread' with ⟨lx', hdel⟩ | hfail
  · obtain ⟨b', c', hshows', hwarn, htext, hsmark, hnext, -, hrest⟩ := hdel.shows hzero hshows
    have hrest' : c'.unread = rest := List.append_cancel_left (hrest.symm.trans hunread')
    have hr : c'.text.drop c'.smark = (123 :: w) ++ c'.unread := by
      rw [htext, hsmark, (hc.drop_smark hlex hend).2, hrest]
      rfl
    have hzero' : (0 : UInt8) ∉ 123 :: w := mt List.mem_cons.mp (not_or.mpr ⟨by decide, hzero⟩)
    have hpercents : ¬ Percents ((0, false) :: (0, false) :: pairs w) := fun h =>
      hscan.percents ((h.tail (by decide)).tail (by decide))
    have haction : lx.action fuel = .ok (some (.action, lx'.stripcr)) :=
      actionLoop_closes hdel follows_start Nat.one_pos hw hscan.harmless hpercents hfuel
    obtain ⟨hstring, hbehind, hheld⟩ := stripcr_spec hshows' hr hzero'
    exact .inr ⟨lx'.stripcr, haction, hstring, hbehind.trans hrest', hheld, hwarn⟩
  · have hkept : c.next - c.pmark.getD c.smark = b.next - b.leftEdge := by
      have hleft := hc.leftEdge_add
      have hle := hc.leftEdge_le_next
      omega
    rw [hkept] at hfail
    exact .inl hfail

/-- In a session whose lexeme is not empty, the lexeme is terminated. -/
lemma Session.shows {content : List UInt8} {l : List (InputCall × Option ℤ)}
    (h : Session content l b) (hfull : ∀ i ∈ l, i.1.Full) (hstarted : b.smark < b.next)
    (yyleng yylineno : ℤ) :
    ∃ c, Analyzer.Shows ⟨TermBuffer.term ⟨b, 0⟩, b.smark, yyleng, yylineno, []⟩ c b := by
  have hsession : TermSession content [] ⟨b, 0⟩ := ⟨l, b, h, .nil _⟩
  obtain ⟨c, hc, hcovered⟩ := hsession.held
  rw [unterm_of_zero rfl] at hc hcovered
  exact ⟨c, rfl, rfl, hc, hcovered, h.drained hfull, hstarted⟩

/-- The calls for a `{` at the start of a file lead to an analyzer that shows the rest of the
file. -/
lemma exists_shows {content : List UInt8} {b₀ b : Buffer}
    (h₀ : InputCall.Step (.advance .full, some 10) (Buffer.newfile content) b₀)
    (h : InputCall.Step (.advance .full, some 123) b₀.markStart b) (hstarted : b.smark < b.next) :
    ∃ c, Analyzer.Shows ⟨TermBuffer.term ⟨b.markEnd, 0⟩, b.smark, 1, 1, []⟩ c b.markEnd := by
  have hsession : Session content
      [(.advance .full, some 10), (.markStart, none), (.advance .full, some 123), (.markEnd, none)]
      b.markEnd :=
    ⟨⟨_, _, rfl⟩, .cons h₀ (.cons rfl (.cons h (.cons rfl (.nil _))))⟩
  refine hsession.shows (fun i hi => ?_) hstarted 1 1
  simp only [List.mem_cons, List.not_mem_nil, or_false] at hi
  rcases hi with rfl | rfl | rfl | rfl
  exacts [rfl, trivial, rfl, trivial]

/-- When a character has been delivered, the input system has not failed. -/
lemma not_fails {i : ℤ} {n : ℕ} (h : lx.input = .ok (i, lx')) (hi : i ≠ -1) : ¬ lx.Fails n := by
  rintro (⟨fault, hfault⟩ | ⟨⟨lx'', hover⟩, -⟩)
  · rw [h] at hfault
    cases hfault
  · exact hi (Prod.mk.inj (Except.ok.inj (h.symm.trans hover))).1

/-- The rule reads an action that consists of one letter. -/
theorem action_spec_letter : ∃ lx c b, Analyzer.Shows lx c b ∧ b.unread = [97, 125] ∧
    ∃ lx', lx.action 2 = .ok (some (.action, lx')) ∧
      CString lx'.buffer.buffer.startBuf lx'.yytext [123, 97, 125] ∧
      lx'.buffer.unterm.buffer.unread = [] := by
  obtain ⟨b₀, h₀, hfirst⟩ :
      ∃ b₀, InputCall.Step (.advance .full, some 10) (Buffer.newfile [123, 97, 125]) b₀ ∧
        ∃ b, InputCall.Step (.advance .full, some 123) b₀.markStart b ∧ b.smark < b.next ∧
          b.markEnd.text = [123] ∧ b.unread = [97, 125] ++ [] ∧
          ∃ lx₁, Analyzer.input ⟨TermBuffer.term ⟨b.markEnd, 0⟩, b.smark, 1, 1, []⟩ =
            .ok (97, lx₁) ∧ ∃ lx₂, lx₁.input = .ok (125, lx₂) ∧ ∃ lx₃, lx₂.input = .ok (0, lx₃) :=
    ⟨_, rfl, _, rfl, by decide, by decide, by decide, _, rfl, _, rfl, _, rfl⟩
  obtain ⟨b, h, hstarted, hlex, hunread, lx₁, h₁, lx₂, h₂, lx₃, h₃⟩ := hfirst
  obtain ⟨c, hshows⟩ := exists_shows h₀ h hstarted
  have hscan : Scannable [97, 125] :=
    ⟨rfl, fun ⟨_, _, hinfix⟩ => (by decide : ¬ 3 ≤ 2) hinfix.length_le⟩
  refine ⟨_, c, b.markEnd, hshows, hunread, ?_⟩
  have hle : [97, 125].length ≤ 2 := Nat.le_refl 2
  rcases action_spec hshows hlex rfl hunread rfl hscan hle with ⟨w, lx', hprefix, hdel, hfail⟩ |
    ⟨lx', haction, hspec⟩
  · -- every character is delivered, and the end of the file behind them
    exfalso
    rcases hdel with _ | ⟨hx, hdel⟩
    · exact not_fails h₁ (by decide) hfail
    obtain ⟨-, rfl⟩ := Prod.mk.inj (Except.ok.inj (h₁.symm.trans hx))
    rcases hdel with _ | ⟨hx, hdel⟩
    · exact not_fails h₂ (by decide) hfail
    obtain ⟨-, rfl⟩ := Prod.mk.inj (Except.ok.inj (h₂.symm.trans hx))
    rcases hdel with _ | ⟨hx, hdel⟩
    · exact not_fails h₃ (by decide) hfail
    · have hlen := hprefix.length_le
      simp only [List.length_cons, List.length_nil] at hlen
      omega
  · exact ⟨lx', haction, hspec.1, hspec.2.1⟩

/-- A quote in a comment that ends with the line opens a character constant. -/
theorem not_action : ¬ ∀ lx c b w rest fuel, Analyzer.Shows lx c b → b.text = [123] →
    b.emark = b.next → b.unread = w ++ rest → ActionText true w → w.length ≤ fuel →
    ∃ lx', lx.action fuel = .ok (some (.action, lx')) := by
  intro hall
  obtain ⟨b₀, h₀, hfirst⟩ : ∃ b₀,
      InputCall.Step (.advance .full, some 10) (Buffer.newfile [123, 47, 47, 32, 39, 10, 125]) b₀ ∧
      ∃ b, InputCall.Step (.advance .full, some 123) b₀.markStart b ∧ b.smark < b.next ∧
        b.markEnd.text = [123] ∧ b.unread = [47, 47, 32, 39, 10, 125] ++ [] ∧
          ∃ lx', Analyzer.action ⟨TermBuffer.term ⟨b.markEnd, 0⟩, b.smark, 1, 1, []⟩ 7 =
            .ok (some (.eof 1, lx')) :=
    ⟨_, rfl, _, rfl, by decide, by decide, by decide, _, rfl⟩
  obtain ⟨b, h, hstarted, hlex, hunread, lx', heof⟩ := hfirst
  obtain ⟨c, hshows⟩ := exists_shows h₀ h hstarted
  obtain ⟨lx'', haction⟩ := hall _ c b.markEnd _ _ 7 hshows hlex rfl hunread rfl (by decide)
  rw [heof] at haction
  cases haction

end Lex
