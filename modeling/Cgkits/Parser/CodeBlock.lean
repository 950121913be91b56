import Cgkits.Lex.Action
import Cgkits.Parser.Tail
import Mathlib.Algebra.Group.Nat.Even
import Mathlib.Data.List.DropRight

/-!
# Code blocks (`parser.lex`)

The rule for `%{` copies the input to the output, up to the next `%}` and without the carriage
returns.  It reads with `input`, and when the buffer is too full it forces a flush.

The loop keeps a flag for a `%` that it has not written yet.  When there is another `%` behind it,
both are written and the flag is taken away, so that of a run of `%` every second one is taken for
the first character of a `%}`.  `codeBlock_iff` says which code blocks are copied as they stand.
-/

namespace Parser

open Lex (Analyzer Buffer InputCall InputFault Tracks TermBuffer)

/-- What the loop does with a character: it ends, or it goes on with `looking_for_brace` and the
output. -/
def codeChar (lookingForBrace : Bool) (out : Lexeme) (c : ℤ) : Option (Bool × Lexeme) :=
  if c ≠ 13 then
    if lookingForBrace then
      if c = 125 then none else some (false, out ++ ['%', toChar (UInt8.ofInt c)])
    else if c = 37 then some (true, out)
    else some (lookingForBrace, out ++ [toChar (UInt8.ofInt c)])
  else some (lookingForBrace, out)

/-- The loop of the rule for `%{`, which copies characters up to `%}`. -/
def codeLoop : ℕ → Bool → Lexeme → Analyzer → Except InputFault (Option (Lexeme × Analyzer))
  | 0, _, _, _ => .ok none
  | fuel + 1, lookingForBrace, out, lx => do
    let (c, lx) ← lx.input
    if c = 0 then .ok (some (out, lx))
    else if c = -1 then do
      let (_, s) ← lx.buffer.flushbuf .full
      codeLoop fuel lookingForBrace out { lx with buffer := s }
    else match codeChar lookingForBrace out c with
      | none => .ok (some (out, lx))
      | some (lookingForBrace, out) => codeLoop fuel lookingForBrace out lx

/-- What the rule prints before it copies: a `#line` directive, unless it is turned off. -/
def blockHeader (noLines : Bool) (inputFileName : Lexeme) (yylineno : ℤ) : Lexeme :=
  if noLines then [] else "\n #line ".toList ++ decimal yylineno ++ " \"".toList ++ inputFileName ++
    "\"".toList

/-- The rule for `%{`, which copies a block of code. -/
def codeBlock (noLines : Bool) (inputFileName : Lexeme) (fuel : ℕ) (lx : Analyzer) :
    Except InputFault (Option (Lexeme × Analyzer)) :=
  codeLoop fuel false (blockHeader noLines inputFileName lx.yylineno) lx

/-- What the loop makes of a text: the output, and what is left of the text. -/
def codeScan : Bool → Lexeme → List UInt8 → Lexeme × List UInt8
  | _, out, [] => (out, [])
  | looking, out, x :: w =>
    if x = 0 then (out, w)
    else match codeChar looking out x.toNat with
      | none => (out, w)
      | some (looking, out) => codeScan looking out w

/-- A blank of the pattern for `%{`: a space or a tab. -/
def IsBlank (x : UInt8) : Prop := x = 32 ∨ x = 9

/-- The rule for `%{` has been found, and `text` is what stands behind the `%{`. -/
def AtCodeBlock (lx : Analyzer) (text : List UInt8) : Prop :=
  ∃ c b blanks, lx.Shows c b ∧ b.text = 37 :: 123 :: blanks ∧ b.emark = b.next ∧
    (∀ x ∈ blanks, IsBlank x) ∧ (∀ x ∈ b.unread.head?, ¬ IsBlank x) ∧ text = blanks ++ b.unread

/-- The number of `%` characters at the end of a text. -/
def percents (w : List UInt8) : ℕ := (w.rtakeWhile (· = 37)).length

/-- The text does not start with a blank, there is no NUL in it, and when the carriage returns are
taken out, the number of `%` in front of each `}` and at the end is even. -/
structure Copied (w : List UInt8) : Prop where
  /-- The blanks at the start belong to the lexeme. -/
  start : ∀ x ∈ w.head?, ¬ IsBlank x
  /-- A NUL is taken for the end of the file. -/
  ne_zero : 0 ∉ w
  /-- No `%` is waiting for a brace in front of a brace. -/
  brace : ∀ u v, w.filter (· ≠ 13) = u ++ 125 :: v → Even (percents u)
  /-- No `%` is waiting for a brace at the end. -/
  end_ : Even (percents (w.filter (· ≠ 13)))

/-- The buffer shows a text, and at the end of the file nothing is left of it. -/
structure AtText (lx : Analyzer) (c : Cursor UInt8) : Prop where
  /-- The buffer shows the text of the cursor. -/
  tracks : Tracks c lx.buffer.unterm.buffer
  /-- Nothing of the text is left in the file at its end. -/
  drained : lx.buffer.unterm.buffer.Drained

variable {lx lx' : Analyzer} {c : Cursor UInt8} {w u rest : List UInt8} {x : UInt8} {out : Lexeme}
  {looking : Bool} {fuel : ℕ}

/-! ## Runs of `%` -/

/-- The flag behind a character: a `%` has been read that may begin `%}`. -/
def nextFlag (looking : Bool) (x : UInt8) : Bool := !looking && x = 37

/-- The number of `%` at the end is even if and only if the flag is not set there. -/
lemma even_percents_iff : Even (percents w) ↔ w.foldl nextFlag false = false := by
  induction w using List.reverseRecOn with
  | nil => exact ⟨fun _ => rfl, fun _ => Even.zero⟩
  | append_singleton w x ih =>
    rw [List.foldl_append]
    change Even ((w ++ [x]).rtakeWhile (· = 37)).length ↔
      (!w.foldl nextFlag false && decide (x = 37)) = false
    by_cases hx : x = 37
    · rw [List.rtakeWhile_concat_pos _ _ _ (by simpa using hx), List.length_append,
        List.length_singleton, Nat.even_add_one]
      change ¬ Even (percents w) ↔ _
      rw [ih]
      simp [hx]
    · rw [List.rtakeWhile_concat_neg _ _ _ (by simpa using hx)]
      simp [hx]

/-- The loop does not end within a text: the flag is not set in front of a brace. -/
def Passes (looking : Bool) (w : List UInt8) : Prop :=
  ∀ u v, w = u ++ 125 :: v → u.foldl nextFlag looking = false

/-- A text passes the scan if its first character does not end it and the rest passes. -/
lemma passes_cons : Passes looking (x :: w) ↔ (x = 125 → looking = false) ∧
    Passes (nextFlag looking x) w := by
  constructor
  · intro h
    exact ⟨fun hx => h [] w (by rw [hx]; rfl), fun u v huv => h (x :: u) v (by rw [huv]; rfl)⟩
  · rintro ⟨hx, h⟩ u v huv
    rcases u with - | ⟨y, u⟩
    · exact hx (List.cons.inj huv).1
    · obtain ⟨rfl, htail⟩ := List.cons.inj huv
      exact h u v htail

/-! ## The loop on a text -/

/-- The `%` that has been read but not been written yet. -/
def pending (looking : Bool) : Lexeme := if looking then ['%'] else []

/-- The loop takes at least one character of the text. -/
lemma length_codeScan_le : ∀ {w : List UInt8} {x : UInt8} {looking : Bool} {out : Lexeme},
    (codeScan looking out (x :: w)).2.length ≤ w.length := by
  intro w
  induction w with
  | nil =>
    intro x looking out
    unfold codeScan
    split_ifs
    · exact Nat.le_refl _
    · rcases codeChar looking out x.toNat with - | p
      · exact Nat.le_refl _
      · exact Nat.le_refl _
  | cons y w ih =>
    intro x looking out
    rw [codeScan]
    split_ifs
    · exact Nat.le_refl _
    · rcases codeChar looking out x.toNat with - | p
      · exact Nat.le_refl _
      · exact Nat.le_succ_of_le ih

/-- When the loop leaves what stands behind a `%}`, it has ended there, or it has taken all and
there has been nothing behind it. -/
lemma codeScan_eq_iff : ∀ {w : List UInt8} {looking : Bool} {out text : Lexeme},
    codeScan looking out (w ++ 37 :: 125 :: rest) = (text, rest) ↔
      0 ∉ w ∧ Passes looking (w.filter (· ≠ 13)) ∧
        ((w.filter (· ≠ 13)).foldl nextFlag looking = false ∧
            text = out ++ pending looking ++ (w.filter (· ≠ 13)).map toChar ∨
          (w.filter (· ≠ 13)).foldl nextFlag looking = true ∧ rest = [] ∧
            text = out ++ pending looking ++ (w.filter (· ≠ 13)).map toChar ++ ['%', '}']) := by
  have hshort : ∀ {w : List UInt8} {p q : Lexeme}, (p, w ++ 37 :: 125 :: rest) ≠ (q, rest) := by
    intro w p q heq
    have hlen := congrArg List.length (Prod.mk.inj heq).2
    simp only [List.length_append, List.length_cons] at hlen
    omega
  intro w
  induction w with
  | nil =>
    intro looking out text
    have hpasses : Passes looking [] := fun u v huv => absurd huv (by simp)
    rw [List.filter_nil, List.foldl_nil, and_iff_right List.not_mem_nil, and_iff_right hpasses]
    rcases looking with - | -
    · simp [codeScan, codeChar, pending, eq_comm]
    · -- both of them are written, and the brace
      change codeScan false (out ++ ['%', toChar 37] ++ [toChar 125]) rest = _ ↔ _
      rcases rest with - | ⟨y, rest⟩
      · simp [codeScan, pending, toChar, eq_comm]
      · refine ⟨fun heq => ?_, fun h => ?_⟩
        · have hle := @length_codeScan_le rest y false (out ++ ['%', toChar 37] ++ [toChar 125])
          rw [heq] at hle
          exact absurd hle (Nat.not_succ_le_self _)
        · obtain ⟨hfalse, -⟩ | ⟨-, hnil, -⟩ := h
          · cases hfalse
          · cases hnil
  | cons x w ih =>
    intro looking out text
    rw [List.cons_append, codeScan, List.mem_cons, not_or, and_assoc]
    by_cases hzero : x = 0
    · rw [if_pos hzero]
      exact ⟨fun heq => absurd heq hshort, fun h => absurd hzero.symm h.1⟩
    rw [if_neg hzero, and_iff_right (Ne.symm hzero)]
    have hint : UInt8.ofInt x.toNat = x := ofInt_toNat x
    have h13 : (x.toNat : ℤ) = 13 ↔ x = 13 := Lex.toNat_eq_iff x 13
    have h37 : (x.toNat : ℤ) = 37 ↔ x = 37 := Lex.toNat_eq_iff x 37
    have h125 : (x.toNat : ℤ) = 125 ↔ x = 125 := Lex.toNat_eq_iff x 125
    unfold codeChar
    rw [hint, if_congr h125 rfl rfl, if_congr h37 rfl rfl, if_congr (not_congr h13) rfl rfl]
    by_cases hcr : x = 13
    · rw [if_neg (not_not.mpr hcr), List.filter_cons_of_neg (by simpa using hcr)]
      exact ih
    rw [if_pos hcr, List.filter_cons_of_pos (by simpa using hcr), passes_cons, List.map_cons,
      List.foldl_cons]
    rcases looking with - | -
    · rw [if_neg Bool.false_ne_true, and_iff_right fun _ => rfl]
      by_cases hpercent : x = 37
      · -- the `%` is kept
        subst hpercent
        have hkeep : ∀ l :
            Lexeme, out ++ pending false ++ toChar 37 :: l = out ++ pending true ++ l := fun l => by
          simp [pending, toChar]
        rw [if_pos rfl, hkeep]
        exact ih
      · have hkeep : ∀ l :
            Lexeme, out ++ pending false ++ toChar x :: l = out ++ [toChar x] ++ pending false ++
            l :=
          fun l => by simp [pending]
        have hflag : nextFlag false x = false := by simp [nextFlag, hpercent]
        rw [if_neg hpercent, hkeep, hflag]
        exact ih
    · rw [if_pos rfl]
      by_cases hbrace : x = 125
      · rw [if_pos hbrace]
        exact ⟨fun heq => absurd heq hshort, fun h => absurd (h.2.1.1 hbrace) (by decide)⟩
      · have hkeep : ∀ l : Lexeme,
            out ++ pending true ++ toChar x :: l = out ++ ['%', toChar x] ++ pending false ++ l :=
              fun l => by
          simp [pending]
        rw [if_neg hbrace, hkeep, and_iff_right fun h => absurd h hbrace]
        exact ih

/-- What is copied is the text behind the blanks, so that nothing has been left out if and only if
there are none. -/
lemma codeScan_iff {blanks : List UInt8} (hblanks : ∀ x ∈ blanks, IsBlank x) :
    codeScan false out (w ++ 37 :: 125 :: rest) =
    (out ++ ((blanks ++ w).filter (· ≠ 13)).map toChar, rest) ↔
      blanks = [] ∧ 0 ∉ w ∧ Passes false (w.filter (· ≠ 13)) ∧
      Even (percents (w.filter (· ≠ 13))) := by
  have hpending : out ++ pending false = out := List.append_nil out
  have hkept : blanks.filter (· ≠ 13) = blanks :=
    List.filter_eq_self.mpr fun x hx => by rcases hblanks x hx with rfl | rfl <;> rfl
  have hnone : (blanks.map toChar).count '}' = 0 := by
    refine List.count_eq_zero.mpr fun hmem => ?_
    obtain ⟨x, hx, hbrace⟩ := List.mem_map.mp hmem
    rcases hblanks x hx with rfl | rfl
    · exact absurd hbrace (by decide)
    · exact absurd hbrace (by decide)
  rw [codeScan_eq_iff, List.filter_append, hkept, List.map_append, hpending, even_percents_iff]
  constructor
  · rintro ⟨hzero, hpasses, ⟨hflag, htext⟩ | ⟨-, -, htext⟩⟩
    · have hlen := congrArg List.length htext
      simp only [List.length_append, List.length_map] at hlen
      exact ⟨List.length_eq_zero_iff.mp (by omega), hzero, hpasses, hflag⟩
    · -- there is no brace in the blanks
      have hcount := congrArg (List.count '}') htext
      simp only [List.count_append, hnone] at hcount
      have hone : ['%', '}'].count '}' = 1 := by decide
      omega
  · rintro ⟨rfl, hzero, hpasses, hflag⟩
    exact ⟨hzero, hpasses, .inl ⟨hflag, rfl⟩⟩

/-! ## The loop on the input -/

/-- When the input system stops, the rule stops with the same fault. -/
lemma input_of_error {fault : InputFault}
    (h : lx.buffer.unterm.buffer.advanceBy .full = .error fault) : lx.input = .error fault := by
  unfold Analyzer.input
  rw [Lex.input_eq, h]
  rfl

/-- `input` returns what `ii_advance` returns on the buffer behind the terminator. -/
lemma input_of_advance {i : ℤ} {b : Buffer}
    (h : lx.buffer.unterm.buffer.advanceBy .full = .ok (i, b)) : ∃ lx', lx.input = .ok (i, lx') ∧
    lx'.buffer.unterm.buffer = b.markEnd := by
  have hsame := Lex.unterm_ite (lx.buffer.termchar ≠ 0) b.markEnd
  unfold Analyzer.input
  rw [Lex.input_eq, h]
  simp only [Except.map, Bind.bind, Except.bind]
  by_cases hi : i ≠ 0 ∧ i ≠ -1
  · exact ⟨_, if_pos hi, hsame⟩
  · exact ⟨_, if_neg hi, hsame⟩

/-- The cases of `input`.  After an overflow `ii_flushbuf` makes room. -/
lemma input_turn (h : AtText lx c) :
    (∃ fault, lx.input = .error fault) ∨
      (∃ lx', lx.input = .ok (0, lx') ∧ c.unread = [] ∧ AtText lx' c.markEnd) ∨
      (∃ lx', lx.input = .ok (-1, lx') ∧ ((∃ fault, lx'.buffer.flushbuf .full = .error fault) ∨
        ∃ s, lx'.buffer.flushbuf .full = .ok (1, s) ∧
          AtText { lx' with buffer := s } c.markEnd.markStart.markPrev ∧
          ∀ lx'', Analyzer.input { lx' with buffer := s } ≠ .ok (-1, lx''))) ∨
      ∃ x lx', c.unread = x :: c.skip.unread ∧ lx.input = .ok ((x.toNat : ℤ), lx') ∧
        AtText lx' c.skip.markEnd := by
  obtain ⟨hc, hd⟩ := h
  rcases hadv : lx.buffer.unterm.buffer.advanceBy .full with fault | ⟨i, b⟩
  · exact .inl ⟨fault, input_of_error hadv⟩
  obtain ⟨lx', hinput, hbuffer⟩ := input_of_advance hadv
  have hstep : InputCall.Step (.advance .full, some i) lx.buffer.unterm.buffer b :=
    InputCall.step_advance.mpr ⟨i, rfl, hadv⟩
  have hdrained : b.Drained := hc.drained hstep rfl hd
  obtain ⟨⟨rfl, hno⟩ | rfl, rfl⟩ | ⟨b₁, hc₁, hlt, -, htake⟩ := hc.advance_cases hadv
  · refine .inr (.inl
      ⟨lx', hinput, ?_, by rw [hbuffer]; exact hc.markEnd, by rw [hbuffer]; exact hdrained⟩)
    simp only [Buffer.noMoreChars, Bool.and_eq_true, decide_eq_true_eq] at hno
    have hfile := hc.file
    rw [hd hno.1, eq_comm, List.drop_eq_nil_iff] at hfile
    have hle := c.next_le
    exact List.drop_eq_nil_of_le (by omega)
  · refine .inr (.inr (.inl ⟨lx', hinput, ?_⟩))
    obtain ⟨heof, -, hroom⟩ := room_of_overflow hc hadv
    rw [Lex.flushbuf_eq, hbuffer]
    obtain ⟨fault, hflush⟩ | ⟨b₁, hflush, hc₁, hd₁, hno⟩ :=
      flush_of_room hc.markEnd hdrained heof hroom
    · rw [hflush]
      exact .inl ⟨fault, rfl⟩
    · rw [hflush]
      refine .inr ⟨⟨b₁, 0⟩, rfl, ⟨hc₁, hd₁⟩, fun lx'' hover => ?_⟩
      rcases hagain : b₁.advanceBy .full with fault | ⟨j, b₂⟩
      · rw [@input_of_error { lx' with buffer := ⟨b₁, 0⟩ } fault hagain] at hover
        cases hover
      · obtain ⟨lx₂, hinput₂, -⟩ := @input_of_advance { lx' with buffer := ⟨b₁, 0⟩ } j b₂ hagain
        obtain ⟨rfl, -⟩ := Prod.mk.inj (Except.ok.inj (hinput₂.symm.trans hover))
        exact hno b₂ hagain
  · obtain ⟨rfl, rfl⟩ := Prod.mk.inj htake
    have hlook := hc₁.byte_next hlt
    refine .inr (.inr (.inr ⟨_, lx', Cursor.unread_skip hlook, hinput, ?_, ?_⟩))
    · rw [hbuffer]
      exact (hc₁.take hlt).markEnd
    · rw [hbuffer]
      exact hdrained

/-- Some turns of the loop, one when there is no overflow: it is at the end, or the next character
has been read. -/
lemma codeLoop_turn (h : AtText lx c) (fuel : ℕ) (looking : Bool) (out : Lexeme) :
    (∃ fault, codeLoop (fuel + 2) looking out lx = .error fault) ∨
      (c.unread = [] ∧ ∃ lx' c', codeLoop (fuel + 2) looking out lx = .ok (some (out, lx')) ∧
      AtText lx' c' ∧
        c'.unread = []) ∨
      ∃ x rest lx' c' j, c.unread = x :: rest ∧ c'.unread = rest ∧ AtText lx' c' ∧ fuel ≤ j ∧
        codeLoop (fuel + 2) looking out lx = if x = 0 then .ok (some (out, lx')) else
          match codeChar looking out x.toNat with
          | none => .ok (some (out, lx'))
          | some (looking, out) => codeLoop j looking out lx' := by
  -- the turn in which a character is read
  have hread : ∀ {lx lx' : Analyzer} {x : UInt8} {j : ℕ}, lx.input = .ok ((x.toNat : ℤ), lx') →
      codeLoop (j + 1) looking out lx = if x = 0 then .ok (some (out, lx')) else
        match codeChar looking out x.toNat with
        | none => .ok (some (out, lx'))
        | some (looking, out) => codeLoop j looking out lx' := by
    intro lx lx' x j hinput
    rw [codeLoop, hinput]
    exact if_congr (Lex.toNat_eq_iff x 0) rfl (if_neg (by omega))
  have herror : ∀ {lx : Analyzer} {fault : InputFault} {j : ℕ}, lx.input = .error fault →
      codeLoop (j + 1) looking out lx = .error fault := by
    intro lx fault j hinput
    rw [codeLoop, hinput]
    rfl
  have hend : ∀ {lx lx' : Analyzer} {j : ℕ}, lx.input = .ok (0, lx') →
      codeLoop (j + 1) looking out lx = .ok (some (out, lx')) := by
    intro lx lx' j hinput
    rw [codeLoop, hinput]
    rfl
  obtain ⟨fault, hinput⟩ | ⟨lx', hinput, hnil, hat⟩ | ⟨lx', hinput, hflush⟩ |
    ⟨x, lx', hx, hinput, hat⟩ := input_turn h
  · exact .inl ⟨fault, herror hinput⟩
  · exact .inr (.inl ⟨hnil, lx', _, hend hinput, hat, hnil⟩)
  · have hturn : codeLoop (fuel + 2) looking out lx = (lx'.buffer.flushbuf .full >>= fun p =>
        codeLoop (fuel + 1) looking out { lx' with buffer := p.2 }) := by
      rw [codeLoop, hinput]
      rfl
    rw [hturn]
    obtain ⟨fault, hflush⟩ | ⟨s, hflush, hat, hno⟩ := hflush
    · rw [hflush]
      exact .inl ⟨fault, rfl⟩
    · rw [hflush]
      change (∃ fault, codeLoop (fuel + 1) looking out { lx' with buffer := s } = _) ∨ _
      obtain ⟨fault, hinput⟩ | ⟨lx₂, hinput, hnil, hat'⟩ | ⟨lx₂, hinput, -⟩ |
          ⟨x, lx₂, hx, hinput, hat'⟩ :=
        input_turn hat
      · exact .inl ⟨fault, herror hinput⟩
      · exact .inr (.inl ⟨hnil, lx₂, _, hend hinput, hat', hnil⟩)
      · exact absurd hinput (hno lx₂)
      · refine .inr (.inr ⟨x, _, lx₂, c.markEnd.markStart.markPrev.skip.markEnd, fuel, hx, rfl,
          hat', ?_, hread hinput⟩)
        exact Nat.le_refl fuel
  · exact .inr (.inr ⟨x, _, lx', c.skip.markEnd, fuel + 1, hx, rfl, hat, Nat.le_succ _,
      hread hinput⟩)

/-- Run lemma: the loop does with the input what it does with the text. -/
lemma codeLoop_eq : ∀ {w : List UInt8} {lx : Analyzer} {c : Cursor UInt8} {fuel : ℕ}
    {looking : Bool} {out : Lexeme}, AtText lx c → c.unread = w → 2 * w.length + 2 ≤ fuel →
      (∃ fault, codeLoop fuel looking out lx = .error fault) ∨
        ∃ lx', codeLoop fuel looking out lx = .ok (some ((codeScan looking out w).1, lx')) ∧
          lx'.buffer.unterm.buffer.unread = (codeScan looking out w).2 := by
  intro w
  induction w with
  | nil =>
    intro lx c fuel looking out h hw hfuel
    obtain ⟨fuel, rfl⟩ := Nat.exists_eq_add_of_le' hfuel
    obtain hfault | ⟨-, lx', c', hloop, hat, hnil⟩ | ⟨x, rest, -, -, -, hx, -⟩ :=
      codeLoop_turn h fuel looking out
    · exact .inl hfault
    · exact .inr ⟨lx', hloop, hat.tracks.unread.trans hnil⟩
    · rw [hw] at hx
      cases hx
  | cons x w ih =>
    intro lx c fuel looking out h hw hfuel
    rw [List.length_cons] at hfuel
    obtain ⟨fuel, rfl⟩ := Nat.exists_eq_add_of_le' (Nat.le_trans (Nat.le_add_left 2 _) hfuel)
    obtain hfault | ⟨hnil, -⟩ | ⟨y, rest, lx', c', j, hy, hrest, hat, hj, hloop⟩ :=
      codeLoop_turn h fuel looking out
    · exact .inl hfault
    · rw [hw] at hnil
      cases hnil
    · obtain ⟨rfl, rfl⟩ := List.cons.inj (hw.symm.trans hy)
      rw [hloop, codeScan]
      by_cases hzero : x = 0
      · rw [if_pos hzero, if_pos hzero]
        exact .inr ⟨lx', rfl, hat.tracks.unread.trans hrest⟩
      · rw [if_neg hzero, if_neg hzero]
        rcases codeChar looking out x.toNat with - | ⟨looking', out'⟩
        · exact .inr ⟨lx', rfl, hat.tracks.unread.trans hrest⟩
        · exact ih hat hrest (by omega)

/-! ## Code blocks -/

/-- The blanks that belong to the lexeme stand in front of the `%}`. -/
lemma exists_of_blanks {blanks text : List UInt8} (hblanks : ∀ x ∈ blanks, IsBlank x)
    (h : w ++ 37 :: rest = blanks ++ text) : ∃ w', w = blanks ++ w' ∧ text = w' ++ 37 :: rest := by
  obtain ⟨a, hblank, htext⟩ | ⟨a, hw, htext⟩ := List.append_eq_append_iff.mp h
  · rcases a with - | ⟨y, a⟩
    · exact ⟨[], by simpa using hblank.symm, htext.symm⟩
    · obtain ⟨rfl, -⟩ := List.cons.inj htext
      have hmem : 37 ∈ blanks := hblank ▸ List.mem_append_right w List.mem_cons_self
      rcases hblanks 37 hmem with heq | heq
      · exact absurd heq (by decide)
      · exact absurd heq (by decide)
  · exact ⟨a, hw, htext⟩

/-- A block is copied as it is exactly if it starts with no blank, has no NUL, and passes the
scan. -/
lemma copied_iff {blanks : List UInt8} (hblanks : ∀ x ∈ blanks, IsBlank x)
    (hw : ∀ x ∈ w.head?, ¬ IsBlank x) : Copied (blanks ++ w) ↔
      blanks = [] ∧ 0 ∉ w ∧ Passes false (w.filter (· ≠ 13)) ∧
      Even (percents (w.filter (· ≠ 13))) := by
  constructor
  · intro h
    rcases blanks with - | ⟨x, blanks⟩
    · exact ⟨rfl, h.ne_zero, fun u v huv => even_percents_iff.mp (h.brace u v huv), h.end_⟩
    · exact absurd (hblanks x List.mem_cons_self) (h.start x rfl)
  · rintro ⟨rfl, hzero, hpasses, heven⟩
    exact ⟨hw, hzero, fun u v huv => even_percents_iff.mpr (hpasses u v huv), heven⟩

/-- Let a `%}` stand in what follows a `%{`.  Unless the input system stops, the rule copies what
stands in front of the `%}` without its carriage returns, and leaves what stands behind it, if and
only if that text is one that is copied as it stands. -/
theorem codeBlock_iff (noLines : Bool) (inputFileName : Lexeme)
    (h : AtCodeBlock lx (w ++ 37 :: 125 :: rest))
    (hfuel : 2 * (w ++ 37 :: 125 :: rest).length + 2 ≤ fuel) :
    (∃ fault, codeBlock noLines inputFileName fuel lx = .error fault) ∨
      ((∃ lx', codeBlock noLines inputFileName fuel lx =
            .ok
            (some (blockHeader noLines inputFileName lx.yylineno ++ (w.filter (· ≠ 13)).map toChar,
            lx')) ∧
          lx'.buffer.unterm.buffer.unread = rest) ↔ Copied w) := by
  obtain ⟨c, b, blanks, hshows, -, -, hblanks, hstart, htext⟩ := h
  obtain ⟨w, rfl, hunread⟩ := exists_of_blanks hblanks htext
  have hbuffer : lx.buffer.unterm.buffer = b := by rw [hshows.buffer, Lex.unterm_term]
  have hat : AtText lx c := ⟨hbuffer ▸ hshows.tracks, hbuffer ▸ hshows.drained⟩
  have hw : c.unread = w ++ 37 :: 125 :: rest := hshows.tracks.unread.symm.trans hunread
  have hhead : ∀ x ∈ w.head?, ¬ IsBlank x := by
    intro x hx
    refine hstart x ?_
    rw [hunread, List.head?_append, Option.mem_def.mp hx]
    rfl
  have hfuel' : 2 * (w ++ 37 :: 125 :: rest).length + 2 ≤ fuel := by
    simp only [List.length_append] at hfuel ⊢
    omega
  rw [copied_iff hblanks hhead]
  obtain hfault | ⟨lx', hloop, hrest⟩ :=
    @codeLoop_eq _ lx c fuel false (blockHeader noLines inputFileName lx.yylineno) hat hw hfuel'
  · exact .inl hfault
  · refine .inr ?_
    rw [← @codeScan_iff w rest (blockHeader noLines inputFileName lx.yylineno) blanks hblanks]
    unfold codeBlock
    rw [hloop]
    constructor
    · rintro ⟨lx₂, heq, hrest₂⟩
      obtain ⟨hout, rfl⟩ := Prod.mk.inj (Option.some.inj (Except.ok.inj heq))
      exact Prod.ext hout (hrest.symm.trans hrest₂)
    · intro hscan
      rw [hscan] at hrest ⊢
      exact ⟨lx', rfl, hrest⟩

/-- The calls for a `%{` at the start of a file lead to an analyzer at a block of code. -/
lemma exists_atCodeBlock {content text : List UInt8} {b₀ b₁ b : Buffer}
    (h₀ : InputCall.Step (.advance .full, some 10) (Buffer.newfile content) b₀)
    (h₁ : InputCall.Step (.advance .full, some 37) b₀.markStart b₁)
    (h : InputCall.Step (.advance .full, some 123) b₁ b) (hstarted : b.smark < b.next)
    (hlex : b.markEnd.text = [37, 123]) (hunread : b.unread = text)
    (hstart : ∀ x ∈ text.head?, ¬ IsBlank x) :
    AtCodeBlock ⟨TermBuffer.term ⟨b.markEnd, 0⟩, b.smark, 2, 1, []⟩ text := by
  have hsession :
      Lex.Session content [(.advance .full, some 10), (.markStart, none), (.advance .full, some 37),
      (.advance .full, some 123), (.markEnd, none)] b.markEnd :=
    ⟨⟨_, _, rfl⟩, .cons h₀ (.cons rfl (.cons h₁ (.cons h (.cons rfl (.nil _)))))⟩
  have hfull :
      ∀ i ∈ [((.advance .full, some 10) : InputCall × Option ℤ), (.markStart, none),
        (.advance .full, some 37), (.advance .full, some 123), (.markEnd, none)], i.1.Full := by
    intro i hi
    simp only [List.mem_cons, List.not_mem_nil, or_false] at hi
    rcases hi with rfl | rfl | rfl | rfl | rfl
    exacts [rfl, trivial, rfl, rfl, trivial]
  obtain ⟨c, hshows⟩ := hsession.shows hfull hstarted 2 1
  have hsame : b.markEnd.unread = text := hunread
  refine ⟨c, b.markEnd, [], hshows, hlex, rfl, fun x hx => absurd hx List.not_mem_nil,
    ?_, hsame.symm⟩
  rw [hsame]
  exact hstart

/-- The code block `%{a%}` is copied, and nothing is left of the text. -/
theorem codeBlock_iff_letter : ∃ lx, AtCodeBlock lx [97, 37, 125] ∧ ∃ lx',
    codeBlock true [] 8 lx = .ok (some (['a'], lx')) ∧ lx'.buffer.unterm.buffer.unread = [] := by
  obtain ⟨b₀, h₀, hfirst⟩ : ∃ b₀,
      InputCall.Step (.advance .full, some 10) (Buffer.newfile [37, 123, 97, 37, 125]) b₀ ∧
      ∃ b₁, InputCall.Step (.advance .full, some 37) b₀.markStart b₁ ∧
        ∃ b, InputCall.Step (.advance .full, some 123) b₁ b ∧ b.smark < b.next ∧
          b.markEnd.text = [37, 123] ∧ b.unread = [97, 37, 125] ∧
          ∃ p, codeBlock true [] 8 ⟨TermBuffer.term ⟨b.markEnd, 0⟩, b.smark, 2, 1, []⟩ = .ok p :=
    ⟨_, rfl, _, rfl, _, rfl, by decide, by decide, by decide, _, rfl⟩
  obtain ⟨b₁, h₁, b, h, hstarted, hlex, hunread, p, hrun⟩ := hfirst
  have hblank : ∀ x ∈ [97, 37, 125].head?, ¬ IsBlank x := by
    rintro x hx (rfl | rfl)
    · exact absurd hx (by decide)
    · exact absurd hx (by decide)
  have hat := exists_atCodeBlock h₀ h₁ h hstarted hlex hunread hblank
  refine ⟨_, hat, ?_⟩
  obtain ⟨fault, hfault⟩ | hiff := @codeBlock_iff _ [97] [] 8 true [] hat (by decide)
  · rw [hrun] at hfault
    cases hfault
  · have hcopied : Copied [97] := by
      refine ⟨?_, by decide, fun u v huv => ?_, by decide⟩
      · rintro x hx (rfl | rfl)
        · exact absurd hx (by decide)
        · exact absurd hx (by decide)
      · have hmem : (125 : UInt8) ∈ [97].filter (· ≠ 13) :=
          huv ▸ List.mem_append_right u List.mem_cons_self
        exact absurd hmem (by decide)
    exact hiff.mpr hcopied

/-- With two `%` in front of a `}` the block does not end there. -/
theorem not_codeBlock :
    ¬ ∀ lx w rest noLines inputFileName fuel, AtCodeBlock lx (w ++ 37 :: 125 :: rest) →
    ¬ [37, 125] <:+: w → 2 * (w ++ 37 :: 125 :: rest).length + 2 ≤ fuel →
    (∃ fault, codeBlock noLines inputFileName fuel lx = .error fault) ∨
      ∃ lx', codeBlock noLines inputFileName fuel lx =
          .ok
          (some (blockHeader noLines inputFileName lx.yylineno ++ (w.filter (· ≠ 13)).map toChar,
          lx')) ∧
        lx'.buffer.unterm.buffer.unread = rest := by
  intro hall
  obtain ⟨b₀, h₀, hfirst⟩ : ∃ b₀,
      InputCall.Step (.advance .full, some 10) (Buffer.newfile [37, 123, 37, 37, 125]) b₀ ∧
      ∃ b₁, InputCall.Step (.advance .full, some 37) b₀.markStart b₁ ∧
        ∃ b, InputCall.Step (.advance .full, some 123) b₁ b ∧ b.smark < b.next ∧
          b.markEnd.text = [37, 123] ∧ b.unread = [37, 37, 125] ∧
          ∃ lx', codeBlock true [] 8 ⟨TermBuffer.term ⟨b.markEnd, 0⟩, b.smark, 2, 1, []⟩ =
            .ok (some (['%', '%', '}'], lx')) :=
    ⟨_, rfl, _, rfl, _, rfl, by decide, by decide, by decide, _, rfl⟩
  obtain ⟨b₁, h₁, b, h, hstarted, hlex, hunread, lx', hrun⟩ := hfirst
  have hblank : ∀ x ∈ [37, 37, 125].head?, ¬ IsBlank x := by
    rintro x hx (rfl | rfl)
    · exact absurd hx (by decide)
    · exact absurd hx (by decide)
  have hat := exists_atCodeBlock h₀ h₁ h hstarted hlex hunread hblank
  have hinfix : ¬ [37, 125] <:+: [(37 : UInt8)] := fun hin => (by decide : ¬ 2 ≤ 1) hin.length_le
  obtain ⟨fault, hfault⟩ | ⟨lx₂, hcopy, -⟩ := hall _ [37] [] true [] 8 hat hinfix (by decide)
  · rw [hrun] at hfault
    cases hfault
  · rw [hrun] at hcopy
    have hout : ['%', '%', '}'] = ['%'] := (Prod.mk.inj (Option.some.inj (Except.ok.inj hcopy))).1
    exact absurd hout (by decide)

end Parser
