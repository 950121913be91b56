import Cgkits.Lex.Advance
import Cgkits.Lex.Regular

/-!
# Character classes (`dodash`, `term`)

A bracket expression is a list of characters and ranges. A character may be written plain, behind a
backslash or inside quotes, and only a plain `-`, `^` or `]` has a meaning of its own. `Bracket` is
the expression with its rules as fields, `Bracket.chars` the class it denotes, and `ShowsAll` says
that the text at a pointer shows it.

`dodash` says in its comments that a dash at either end of the class is taken literally, but before
it does so it calls `warning`, which ends the program. So the class is read, with exactly the
characters it denotes, if no dash is at an end; if, moreover, a DEL is not plain, since `_tok_map`
has no element for it, and if `[]` denotes what the code puts into it (`charClass_iff`).
-/

namespace Lex

/-! ## Bracket expressions -/

/-- How a character is written: plain, behind a backslash, or within quotes. -/
inductive Style where
  | plain | escaped | quoted
deriving DecidableEq, Repr

/-- A character of a bracket expression, with the way it is written. -/
structure ClassChar where
  /-- The code that the character has in the table. -/
  code : Fin maxChars
  /-- How the character is written in the rule. -/
  style : Style
deriving DecidableEq

namespace ClassChar

/-- The character `-`, written plain, which is a dash to the lexical analyzer. -/
def dash : ClassChar := ⟨⟨45, by decide⟩, .plain⟩

/-- The character `^`, written plain, which anchors a rule or complements a class. -/
def caret : ClassChar := ⟨⟨94, by decide⟩, .plain⟩

/-- The character `[`, written plain, which opens a class. -/
def start : ClassChar := ⟨⟨91, by decide⟩, .plain⟩

/-- The character `]`, written plain, which closes a class. -/
def close : ClassChar := ⟨⟨93, by decide⟩, .plain⟩

/-- The character DEL, written plain, whose index is behind the end of `_tok_map`. -/
def del : ClassChar := ⟨⟨127, by decide⟩, .plain⟩

/-- The token that `advance` makes of the character: that of a letter if it is not plain. -/
def tok (c : ClassChar) : Except Fault Token := if c.style = .plain then tokMap (c.code : ℕ) else
    .ok .l

end ClassChar

open ClassChar

/-- A part of a bracket expression: a character or a range. -/
inductive ClassPart where
  /-- One character `x`. -/
  | one (x : ClassChar)
  /-- The range `x-y`, both ends included. -/
  | range (x y : ClassChar) (hle : x.code ≤ y.code)

namespace ClassPart

/-- The first character of a part of a class, alone or in front of the dash. -/
def first : ClassPart → ClassChar
  | one x => x
  | range x _ _ => x

/-- The characters of a part of a class, without the dash of a range. -/
def ends : ClassPart → List ClassChar
  | one x => [x]
  | range x y _ => [x, y]

/-- The characters of a part of a class as they stand in the text. -/
def written : ClassPart → List ClassChar
  | one x => [x]
  | range x y _ => [x, dash, y]

/-- The characters that a part of a class stands for, as one item. -/
def item : ClassPart → ClassItem
  | one x => ⟨(x.code : ℕ), []⟩
  | range x y _ => ⟨(x.code : ℕ), [((y.code : ℕ) : ℤ)]⟩

end ClassPart

/-- Only the last part starts with a dash, and it is nothing but the dash. -/
def DashLast (parts : List ClassPart) : Prop :=
  ∀ l part l', parts = l ++ part :: l' → part.first = dash → part = .one dash ∧ l' = []

/-- A bracket expression, without the brackets, whose parts can be told apart in the text. -/
structure Bracket where
  /-- The bracket starts with `^`. -/
  neg : Bool
  /-- The parts of the class, in order. -/
  parts : List ClassPart
  /-- No part has a closing bracket. -/
  closed : ∀ part ∈ parts, ∀ c ∈ part.ends, c ≠ close
  /-- A literal dash stands at the beginning or at the end. -/
  dashes : DashLast parts.tail
  /-- The `^` is not taken for a character. -/
  caret : neg = false → ∀ part ∈ parts.head?, part.first ≠ caret

namespace Bracket

/-- The characters behind the opening bracket. -/
def written (e : Bracket) : List ClassChar :=
  (if e.neg then [ClassChar.caret] else []) ++ (e.parts.flatMap ClassPart.written ++ [close])

/-- The class. The brackets without a part, `[]` or `[^]`, stand for the characters `B`. -/
def chars (unix : Bool) (B : ℤ → Prop) (e : Bracket) : Set (Fin maxChars) :=
  classChars unix e.neg (if e.parts = [] then B else fun x => ∃ part ∈ e.parts, part.item.Has x)

/-- No part of the expression starts with a dash, and no DEL is plain. -/
def Readable (e : Bracket) : Prop := ∀ part ∈ e.parts, part.first ≠ dash ∧ ∀ c ∈ part.ends, c ≠ del

end Bracket

/-! ## Their texts -/

/-- The characters at a pointer, inside or outside quotes, begin with `c`, in so many characters. -/
inductive Writes : Bool → ClassChar → List ℕ → ℕ → Prop
  /-- A plain character, which stands for itself. -/
  | plain {c : Fin maxChars} {mem : List ℕ} : isspace c = false → (c : ℕ) ∉ [0, 34, 92, 123] →
      Writes false ⟨c, .plain⟩ ((c : ℕ) :: mem) 1
  /-- A backslash and what follows it. -/
  | escaped {c : Fin maxChars} {mem : List ℕ} {k : ℕ} : mem.head? ≠ some 0 →
      sysEsc (92 :: mem) = .ok (((c : ℕ) : ℤ), k) → Writes false ⟨c, .escaped⟩ (92 :: mem) k
  /-- A character within quotes, which stands for itself. -/
  | quoted {c : Fin maxChars} {d : ℕ} {mem : List ℕ} {k : ℕ} : d ≠ 0 → d ≠ 34 →
      charAt true (d :: mem) = .ok (((c : ℕ) : ℤ), k) → Writes true ⟨c, .quoted⟩ (d :: mem) k

/-- The same, with a quote before the character or without it. -/
inductive Shows : Bool → ClassChar → List ℕ → Bool → ℕ → Prop
  /-- There is no quote in front of the character. -/
  | here {q : Bool} {c : ClassChar} {mem : List ℕ} {k : ℕ} : Writes q c mem k → Shows q c mem q k
  /-- A quote in front of the character begins or ends a quotation. -/
  | quote {q : Bool} {c : ClassChar} {mem : List ℕ} {k : ℕ} : Writes (!q) c mem k →
    Shows q c (34 :: mem) (!q) (k + 1)

/-- The text shows the characters and ends outside quotes. -/
inductive ShowsAll : Bool → List ClassChar → List ℕ → ℕ → Prop
  /-- There are no more characters. -/
  | nil {mem : List ℕ} : ShowsAll false [] mem 0
  /-- One more character behind those that are there. -/
  | cons {q q' : Bool} {c : ClassChar} {cs : List ClassChar} {mem : List ℕ} {k k' : ℕ} :
      Shows q c mem q' k → ShowsAll q' cs (mem.drop k) k' → ShowsAll q (c :: cs) mem (k + k')

/-! ## The tokens -/

/-- A property of all characters that are plain or not. -/
lemma ClassChar.tok_cases (c : ClassChar) : c.style = .plain ∧ c.tok = tokMap (c.code : ℕ) ∨
    c.style ≠ .plain ∧ c.tok = .ok .l := by
  unfold ClassChar.tok
  by_cases h : c.style = .plain
  · exact .inl ⟨h, if_pos h⟩
  · exact .inr ⟨h, if_neg h⟩

/-- A token that is no literal is the one of a plain character. -/
lemma ClassChar.tok_eq_iff {t : Token} {x : Fin maxChars} (hl : t ≠ .l)
    (hx : ∀ y : Fin maxChars, tokMap (y : ℕ) = .ok t ↔ y = x) (c : ClassChar) :
    c.tok = .ok t ↔ c = ⟨x, .plain⟩ := by
  rcases c with ⟨y, style⟩
  rcases ClassChar.tok_cases ⟨y, style⟩ with ⟨hs, htok⟩ | ⟨hs, htok⟩
  · rw [htok, hx]
    simp only [ClassChar.mk.injEq]
    exact ⟨fun h => ⟨h, hs⟩, fun h => h.1⟩
  · rw [htok]
    simp only [Except.ok.injEq, ClassChar.mk.injEq]
    exact ⟨fun h => absurd h.symm hl, fun h => absurd h.2 hs⟩

/-- Only a plain `]` has the token that ends a class. -/
lemma ClassChar.tok_eq_cclEnd (c : ClassChar) : c.tok = .ok .cclEnd ↔ c = close :=
  tok_eq_iff (by decide) (by decide) c

/-- Only a plain `-` has the token of a dash. -/
lemma ClassChar.tok_eq_dash (c : ClassChar) : c.tok = .ok .dash ↔ c = dash :=
  tok_eq_iff (by decide) (by decide) c

/-- Only a plain `^` has the token of the beginning of a line. -/
lemma ClassChar.tok_eq_atBol (c : ClassChar) : c.tok = .ok .atBol ↔ c = ClassChar.caret :=
  tok_eq_iff (by decide) (by decide) c

/-- Only a plain DEL has no token, and no character is the end of the line. -/
lemma ClassChar.tok_of_ne_del {c : ClassChar} (h : c ≠ del) : ∃ t, c.tok = .ok t ∧ t ≠ .eos := by
  have hmap : ∀ y : Fin maxChars, (y : ℕ) ≠ 127 → ∃ t, tokMap (y : ℕ) = .ok t ∧ t ≠ .eos := by
    intro y hy
    have hat : ∀ y : Fin maxChars, tokMapAt (y : ℕ) ≠ .eos := by decide
    refine ⟨tokMapAt y, ?_, hat y⟩
    have hlt : (y : ℕ) < 128 := y.isLt
    rw [tokMap, if_pos (by omega), Int.toNat_natCast]
  rcases c with ⟨y, style⟩
  rcases ClassChar.tok_cases ⟨y, style⟩ with ⟨hs, htok⟩ | ⟨hs, htok⟩
  · rw [htok]
    refine hmap y fun hy => h ?_
    subst hs
    exact congrArg (ClassChar.mk · Style.plain) (Fin.ext hy)
  · exact ⟨.l, htok, by decide⟩

/-- A plain DEL has no token, since its entry lies behind `_tok_map`. -/
lemma ClassChar.tok_del : del.tok = .error .stray := by decide

/-! ## The lexical analyzer reads the text -/

/-- The memory behind a pointer that has passed some characters. -/
lemma Reader.mem_skip (s : Reader) (p : Ptr) (k : ℕ) : s.mem (p.skip k) = (s.mem p).drop k := by
  rcases p with _ | pos | mem
  · simp [Ptr.skip, Reader.mem]
  · simp [Ptr.skip, Reader.mem, List.drop_drop]
  · simp [Ptr.skip, Reader.mem]

/-- Passing some characters and then others is passing them all at once. -/
lemma Ptr.skip_skip (p : Ptr) (k k' : ℕ) : (p.skip k).skip k' = p.skip (k + k') := by
  rcases p with _ | pos | mem
  · simp [Ptr.skip]
  · simp [Ptr.skip, Nat.add_assoc]
  · simp [Ptr.skip, List.drop_drop]

/-- Passing no character leaves the pointer where it is. -/
lemma Ptr.skip_zero (p : Ptr) : p.skip 0 = p := by
  rcases p with _ | pos | mem <;> simp [Ptr.skip]

/-- The variables of the analyzer when a character has been read. -/
def Reader.takes (s : Reader) (t : Token) (c : ClassChar) (q : Bool) (k : ℕ) : Reader :=
  { s with tok := t, lexeme := (c.code : ℕ), inquote := q, input := s.input.skip k }

/-- What `advance` looks at in the text of a character. -/
lemma Writes.head {q : Bool} {c : ClassChar} {mem : List ℕ} {k : ℕ} (h : Writes q c mem k) :
    ∃ d mem', mem = d :: mem' ∧ d ≠ 0 ∧ d ≠ 34 ∧ (q = false → d ≠ 123 ∧ isspace d = false) ∧
      charAt q mem = .ok (((c.code : ℕ) : ℤ), k) ∧
        tokenOf q (d = 92) (((c.code : ℕ) : ℤ)) = c.tok := by
  rcases h with @⟨c, mem, hsp, hc⟩ | @⟨c, mem, k, hmem, hesc⟩ | @⟨c, d, mem, k, hd, hd', hat⟩
  · simp only [List.mem_cons, List.not_mem_nil, or_false, not_or] at hc
    refine ⟨c, mem, rfl, hc.1, hc.2.1, fun _ => ⟨hc.2.2.2, hsp⟩, ?_, ?_⟩
    · simp [charAt, sysEsc, hc.2.2.1]
    · simp [tokenOf, ClassChar.tok, hc.2.2.1]
  · refine ⟨92, mem, rfl, by decide, by decide, fun _ => ⟨by decide, by decide⟩, ?_, ?_⟩
    · simpa [charAt] using hesc
    · simp [tokenOf, ClassChar.tok]
  · refine ⟨d, mem, rfl, hd, hd', fun hq => absurd hq (by decide), hat, ?_⟩
    simp [tokenOf, ClassChar.tok]

/-- The last part of `advance`, at the text of a character. -/
lemma Reader.char_eq {s : Reader} {c : ClassChar} {k : ℕ}
    (h : Writes s.inquote c (s.mem s.input) k) :
    s.char = c.tok.bind fun t => .ok (s.takes t c s.inquote k) := by
  obtain ⟨d, mem', hmem, -, -, hq, hat, htok⟩ := h.head
  have hsp : ¬ (s.inquote = false ∧ isspace d = true) := by
    rintro ⟨hin, hd⟩
    rw [(hq hin).2] at hd
    exact absurd hd (by decide)
  rw [hmem] at hat
  unfold Reader.char
  rw [hmem]
  change (if s.inquote = false ∧ isspace d = true then _ else _) = _
  rw [if_neg hsp, hat, ← htok]
  rfl

/-- `advance` reads a character, after a quote or not. -/
lemma Reader.quote_eq {s : Reader} {c : ClassChar} {q : Bool} {k : ℕ}
    (h : Shows s.inquote c (s.mem s.input) q k) :
    s.quote = c.tok.bind fun t => .ok (s.takes t c q k) := by
  generalize hmem : s.mem s.input = mem at h
  cases h with
  | here h =>
    obtain ⟨d, mem', hmem', -, hd, -⟩ := h.head
    unfold Reader.quote
    rw [hmem, hmem']
    change (if d = 34 then _ else _) = _
    rw [if_neg hd]
    exact Reader.char_eq (hmem ▸ h)
  | @quote mem k h =>
    obtain ⟨d, mem', hmem', hd, -⟩ := h.head
    have hskip : s.mem (s.input.skip 1) = mem := by
      rw [Reader.mem_skip, hmem, List.drop_one, List.tail_cons]
    unfold Reader.quote
    rw [hmem]
    change (do let c ← deref (s.mem (s.input.skip 1)); if c = 0 then _ else _) = _
    rw [hskip, hmem']
    change (if d = 0 then _ else _) = _
    rw [if_neg hd, Reader.char_eq (s := { s with inquote := !s.inquote, input := s.input.skip 1 })
      (c := c) (k := k)]
    · simp only [Reader.takes, Ptr.skip_skip, Nat.add_comm 1 k]
    · exact hskip ▸ h

/-- A text that shows a character begins with some character that is not null and begins no
macro. -/
lemma Shows.head {q q' : Bool} {c : ClassChar} {mem : List ℕ} {k : ℕ} (h : Shows q c mem q' k) :
    ∃ d mem', mem = d :: mem' ∧ d ≠ 0 ∧ (q = false → d ≠ 123) := by
  cases h with
  | here h =>
    obtain ⟨d, mem', hmem, hd, -, hq, -⟩ := h.head
    exact ⟨d, mem', hmem, hd, fun hin => (hq hin).1⟩
  | quote h => exact ⟨34, _, rfl, by decide, fun _ => by decide⟩

/-- `advance` reads a character of a class and sets the variables to its token and its code. -/
lemma Reader.advance_eq (macros : List Macro) {s : Reader} {c : ClassChar} {q : Bool} {k : ℕ}
    (htok : s.tok ≠ .eos) (h : Shows s.inquote c (s.mem s.input) q k) :
    s.advance macros = c.tok.bind fun t => .ok (s.takes t c q k) := by
  obtain ⟨d, mem', hmem, hd, hq⟩ := h.head
  have hpops : pops s.mem s.stack s.input = .ok (s.input, s.stack) := by
    rcases hst : s.stack with _ | ⟨p, stack⟩
    · unfold pops
      rw [hmem]
      rfl
    · unfold pops
      rw [hmem]
      change (if d = 0 then _ else _) = _
      rw [if_neg hd]
  rw [Reader.advance, if_neg htok, Reader.scan, hpops]
  change (do
    let c ← deref (s.mem s.input)
    if c = 0 then .ok s.atEos
    else
      let s ← if s.inquote then .ok s else s.openMacros macros (ssize + 2)
      s.quote) = _
  rw [hmem]
  change (if d = 0 then _ else _) = _
  rw [if_neg hd]
  by_cases hin : s.inquote = true
  · rw [if_pos hin]
    exact Reader.quote_eq h
  · rw [if_neg hin, Reader.openMacros, hmem]
    change (if d ≠ 123 then Except.ok s else _).bind _ = _
    rw [if_pos (hq (by simpa using hin))]
    exact Reader.quote_eq h

/-- The analyzer has read the first one of the characters, and the others follow. -/
inductive Reader.At : Reader → List ClassChar → ℕ → Prop
  /-- The current token is that of `c`. -/
  | mk {s : Reader} {c : ClassChar} {cs : List ClassChar} {k : ℕ} : c.tok = .ok s.tok →
      s.lexeme = (c.code : ℕ) → ShowsAll s.inquote cs (s.mem s.input) k → At s (c :: cs) k

/-- The variables at the closing bracket of the class. -/
def Reader.closed (s : Reader) (k : ℕ) : Reader :=
  { s with tok := .cclEnd, lexeme := 93, inquote := false, input := s.input.skip k }

namespace Reader.At

variable {s s' : Reader} {c c' : ClassChar} {cs : List ClassChar} {k : ℕ}

/-- The current token is the one of the character that has been read. -/
lemma tok_eq_iff (h : s.At (c :: cs) k) (t : Token) : s.tok = t ↔ c.tok = .ok t := by
  cases h with
  | mk htok _ _ =>
    rw [htok]
    exact Except.ok.injEq _ _ ▸ Iff.rfl

/-- The current lexeme is the code of the character that has been read. -/
lemma lexeme_eq (h : s.At (c :: cs) k) : s.lexeme = (c.code : ℕ) := by
  cases h with
  | mk _ hlex _ => exact hlex

/-- A character that has been read is no plain DEL. -/
lemma ne_del (h : s.At (c :: cs) k) : c ≠ del := by
  rintro rfl
  have htok := (h.tok_eq_iff s.tok).mp rfl
  rw [ClassChar.tok_del] at htok
  cases htok

/-- While characters of the class are left, the line has not ended. -/
lemma tok_ne_eos (h : s.At (c :: cs) k) : s.tok ≠ .eos := by
  intro heos
  obtain ⟨t, ht, hne⟩ := ClassChar.tok_of_ne_del h.ne_del
  exact hne (((h.tok_eq_iff t).mpr ht).symm.trans heos)

/-- The next character of the class is read if it has a token. -/
lemma advance_eq (macros : List Macro) (h : s.At (c :: c' :: cs) k) :
    ∃ q k₁ k', s.advance macros = c'.tok.bind (fun t => .ok (s.takes t c' q k₁)) ∧
      ∀ t, c'.tok = .ok t → (s.takes t c' q k₁).At (c' :: cs) k' ∧
        (s.takes t c' q k₁).closed k' = s.closed k := by
  have heos := h.tok_ne_eos
  cases h with
  | mk _ _ hcs =>
    generalize hq : s.inquote = q at hcs
    cases hcs with
    | @cons _ q' _ _ _ k k' hc hcs =>
      subst hq
      refine ⟨q', k, k', Reader.advance_eq macros heos hc, ?_⟩
      intro t ht
      refine ⟨.mk ht rfl ?_, ?_⟩
      · change ShowsAll q' cs (s.mem (s.input.skip k)) k'
        rw [Reader.mem_skip]
        exact hcs
      · simp only [Reader.takes, Reader.closed, Ptr.skip_skip]

/-- A next character that is no plain DEL is read. -/
lemma advance_ok (macros : List Macro) (h : s.At (c :: c' :: cs) k) (hc' : c' ≠ del) :
    ∃ s' k', s.advance macros = .ok s' ∧ s'.At (c' :: cs) k' ∧ s'.closed k' = s.closed k := by
  obtain ⟨q, k₁, k', hadv, hat⟩ := h.advance_eq macros
  obtain ⟨t, ht, -⟩ := ClassChar.tok_of_ne_del hc'
  rw [ht] at hadv
  exact ⟨s.takes t c' q k₁, k', hadv, hat t ht⟩

/-- What has been read by `advance` is the next character of the class. -/
lemma of_advance {macros : List Macro} (h : s.At (c :: c' :: cs) k)
    (hadv : s.advance macros = .ok s') : ∃ k', s'.At (c' :: cs) k' := by
  obtain ⟨q, k₁, k', hadv', hat⟩ := h.advance_eq macros
  rw [hadv] at hadv'
  rcases htok : c'.tok with e | t
  · rw [htok] at hadv'
    cases hadv'
  · rw [htok] at hadv'
    cases hadv'
    exact ⟨k', (hat t htok).1⟩

/-- As long as the character is no plain `]`, the class goes on. -/
lemma tok_ne_cclEnd (h : s.At (c :: cs) k) (hc : c ≠ close) : s.tok ≠ .cclEnd := fun ht =>
  hc ((ClassChar.tok_eq_cclEnd c).mp ((h.tok_eq_iff _).mp ht))

/-- A character that is no plain dash does not have the token of a dash. -/
lemma tok_ne_dash (h : s.At (c :: cs) k) (hc : c ≠ dash) : s.tok ≠ .dash := fun ht =>
  hc ((ClassChar.tok_eq_dash c).mp ((h.tok_eq_iff _).mp ht))

/-- When a plain dash has been read the current token is that of a dash. -/
lemma tok_dash (h : s.At (dash :: cs) k) : s.tok = .dash :=
  (h.tok_eq_iff _).mpr ((ClassChar.tok_eq_dash dash).mpr rfl)

/-- The closing bracket has the token that ends a class. -/
lemma tok_close (h : s.At (close :: cs) k) : s.tok = .cclEnd :=
  (h.tok_eq_iff _).mpr ((ClassChar.tok_eq_cclEnd close).mpr rfl)

/-- At the closing bracket the analyzer is in the state in which the class has been read. -/
lemma eq_closed (h : s.At [close] k) : s.closed k = s := by
  have htok := h.tok_close
  cases h with
  | mk _ hlex hcs =>
    generalize hq : s.inquote = q at hcs
    cases hcs with
    | nil =>
      rcases s with ⟨tok, lexeme, buffer, lines, input, stack, inquote⟩
      subst htok hq hlex
      simp only [Reader.closed, Ptr.skip_zero, close]
      rfl

end Reader.At

/-! ## The class is read -/

/-- What follows in the text: the remaining parts and the closing bracket. -/
def following (parts : List ClassPart) : List ClassChar :=
  parts.flatMap ClassPart.written ++ [close]

/-- What follows a part of a class begins with the first character of the part. -/
lemma exists_following (part : ClassPart) (parts : List ClassPart) :
    ∃ cs, following (part :: parts) = part.first :: cs := by
  rcases part with x | ⟨x, y, hle⟩
  · exact ⟨following parts, rfl⟩
  · exact ⟨dash :: y :: following parts, rfl⟩

/-- What follows begins with the first character of a part or with the closing bracket. -/
lemma following_cons (parts : List ClassPart) : ∃ c cs, following parts = c :: cs ∧
    (c = close ∨ ∃ part ∈ parts, c = part.first) := by
  rcases parts with _ | ⟨part, parts⟩
  · exact ⟨close, [], rfl, .inl rfl⟩
  · obtain ⟨cs, hcs⟩ := exists_following part parts
    exact ⟨part.first, cs, hcs, .inr ⟨part, List.mem_cons_self .., rfl⟩⟩

/-- The first character of a part is one of its characters. -/
lemma ClassPart.first_mem_ends (part : ClassPart) : part.first ∈ part.ends := by
  rcases part with x | ⟨x, y, hle⟩ <;> simp [ClassPart.first, ClassPart.ends]

/-- The parts of a class are derived if no part starts with a dash and no DEL is plain. -/
lemma derivesItems (macros : List Macro) (parts : List ClassPart)
    (hparts : ∀ part ∈ parts, part.first ≠ dash ∧ ∀ c ∈ part.ends, c ≠ close ∧ c ≠ del) (s : Reader)
    (k : ℕ) (h : s.At (following parts) k) :
    DerivesItems (scanner macros) s (parts.map ClassPart.item) (s.closed k) := by
  induction parts generalizing s k with
  | nil =>
    rw [Reader.At.eq_closed h]
    exact .nil h.tok_close
  | cons part parts ih =>
    have hrest := fun p hp => hparts p (List.mem_cons_of_mem part hp)
    obtain ⟨hdash, hends⟩ := hparts part (List.mem_cons_self ..)
    obtain ⟨c, cs, hfoll, hc⟩ := following_cons parts
    have hdel : c ≠ del := by
      rcases hc with rfl | ⟨p, hp, rfl⟩
      · decide
      · exact ((hrest p hp).2 p.first p.first_mem_ends).2
    rcases part with x | ⟨x, y, hle⟩
    · have hat : s.At (x :: c :: cs) k := hfoll ▸ h
      obtain ⟨s₁, k₁, hadv, hat₁, hclosed⟩ := hat.advance_ok macros hdel
      have hitems := ih hrest s₁ k₁ (hfoll ▸ hat₁)
      rw [hclosed] at hitems
      have hcons := DerivesItems.cons (L := scanner macros) hat.tok_ne_eos
        (hat.tok_ne_cclEnd (hends x (by simp [ClassPart.ends])).1) (hat.tok_ne_dash hdash) hadv .nil
        hitems
      have hlex : (scanner macros).lexeme s = (x.code : ℕ) := hat.lexeme_eq
      rw [hlex] at hcons
      exact hcons
    · have hat : s.At (x :: dash :: y :: c :: cs) k := hfoll ▸ h
      obtain ⟨s₁, k₁, hadv₁, hat₁, hclosed₁⟩ := hat.advance_ok macros (by decide)
      obtain ⟨s₂, k₂, hadv₂, hat₂, hclosed₂⟩ :=
        hat₁.advance_ok macros (hends y (by simp [ClassPart.ends])).2
      obtain ⟨s₃, k₃, hadv₃, hat₃, hclosed₃⟩ := hat₂.advance_ok macros hdel
      have hitems := ih hrest s₃ k₃ (hfoll ▸ hat₃)
      rw [hclosed₃, hclosed₂, hclosed₁] at hitems
      have hrange := DerivesEnds.cons (L := scanner macros) ⟨hat₁.tok_dash, hadv₂⟩
        (hat₂.tok_ne_cclEnd (hends y (by simp [ClassPart.ends])).1)
        hat₂.tok_ne_eos hadv₃ .nil
      have hcons := DerivesItems.cons (L := scanner macros) hat.tok_ne_eos
        (hat.tok_ne_cclEnd (hends x (by simp [ClassPart.ends])).1) (hat.tok_ne_dash hdash) hadv₁
        hrange hitems
      have hlex : (scanner macros).lexeme s = (x.code : ℕ) := hat.lexeme_eq
      have hlex₂ : (scanner macros).lexeme s₂ = (y.code : ℕ) := hat₂.lexeme_eq
      rw [hlex, hlex₂] at hcons
      exact hcons

section Loop

variable {ι : Type} {L : Lexer ι} {n : ℕ} {first : ℤ} {set : CharClass} {s : ι} {r : CharClass × ι}

/-- If the loop of `dodash` gets to the end from a character, then it does so from the next one. -/
lemma dodashLoop_char_ok (heos : L.tok s ≠ .eos) (hccl : L.tok s ≠ .cclEnd)
    (hdash : L.tok s ≠ .dash) (hr : dodashLoop L n first set s = .ok r) :
    ∃ n' first' set' s', L.advance s = .ok s' ∧ dodashLoop L n' first' set' s' = .ok r := by
  rcases n with _ | n
  · cases hr
  · rw [dodashLoop, if_neg (not_or.mpr ⟨heos, hccl⟩), if_pos hdash, bind_eq_ok] at hr
    obtain ⟨s', hadv, hr⟩ := hr
    exact ⟨n, _, _, s', hadv, hr⟩

/-- If the loop of `dodash` gets to the end from a dash, then the dash is not the last character,
and it does so behind the next one. -/
lemma dodashLoop_dash_ok (hdash : L.tok s = .dash) (hr : dodashLoop L n first set s = .ok r) :
    ∃ n' first' set' s₁ s₂, L.advance s = .ok s₁ ∧ L.tok s₁ ≠ .cclEnd ∧ L.advance s₁ = .ok s₂ ∧
      dodashLoop L n' first' set' s₂ = .ok r := by
  rcases n with _ | n
  · cases hr
  · rw [dodashLoop, hdash, if_neg (by decide), if_neg (by decide), bind_eq_ok] at hr
    obtain ⟨s₁, hadv₁, hr⟩ := hr
    by_cases hccl : L.tok s₁ = .cclEnd
    · rw [if_pos hccl] at hr
      cases hr
    · rw [if_neg hccl, bind_eq_ok] at hr
      obtain ⟨s₂, hadv₂, hr⟩ := hr
      exact ⟨n, _, _, s₁, s₂, hadv₁, hccl, hadv₂, hr⟩

/-- If the class has been read, then so have its parts. -/
lemma charClass_ok {unix : Bool} (htok : L.tok s = .cclStart) (hr : charClass L unix n s = .ok r) :
    ∃ s₁, L.advance s = .ok s₁ ∧
      (L.tok s₁ = .atBol → ∃ s₂, L.advance s₁ = .ok s₂ ∧
        (L.tok s₂ ≠ .cclEnd → dodash L n (notNewline unix) s₂ = .ok r)) ∧
      (L.tok s₁ ≠ .atBol → L.tok s₁ ≠ .cclEnd → dodash L n ⟨∅, false⟩ s₁ = .ok r) := by
  rw [charClass, htok, if_neg (by decide), bind_eq_ok] at hr
  obtain ⟨s₁, hadv₁, hr⟩ := hr
  refine ⟨s₁, hadv₁, ?_, ?_⟩
  · intro hbol
    rw [if_pos hbol, bind_eq_ok] at hr
    obtain ⟨s₂, hadv₂, hr⟩ := hr
    refine ⟨s₂, hadv₂, fun hccl => ?_⟩
    rwa [if_pos hccl] at hr
  · intro hbol hccl
    rwa [if_neg hbol, if_pos hccl] at hr

end Loop

/-- If the loop of `dodash` gets to the end, then no part starts with a dash and no DEL is plain. -/
lemma readable_of_dodashLoop {macros : List Macro} {parts : List ClassPart}
    (hclosed : ∀ part ∈ parts, ∀ c ∈ part.ends, c ≠ close) (hlast : DashLast parts) {n : ℕ}
    {first : ℤ} {set : CharClass} {s : Reader} {k : ℕ} {r : CharClass × Reader}
    (h : s.At (following parts) k) (hr : dodashLoop (scanner macros) n first set s = .ok r) :
    ∀ part ∈ parts, part.first ≠ dash ∧ ∀ c ∈ part.ends, c ≠ del := by
  induction parts generalizing n first set s k with
  | nil => simp
  | cons part parts ih =>
    have hrest := fun p hp => hclosed p (List.mem_cons_of_mem part hp)
    have hlast' : DashLast parts :=
      fun l p l' hl => hlast (part :: l) p l' (by rw [hl, List.cons_append])
    obtain ⟨c, cs, hfoll, -⟩ := following_cons parts
    rcases part with x | ⟨x, y, hle⟩
    · have hat : s.At (x :: c :: cs) k := hfoll ▸ h
      by_cases hdash : x = dash
      · -- A dash is the last part, so the closing bracket follows it.
        subst hdash
        obtain ⟨-, rfl⟩ := hlast [] (.one dash) parts rfl rfl
        obtain ⟨n', first', set', s₁, s₂, hadv, hccl, -⟩ := dodashLoop_dash_ok hat.tok_dash hr
        obtain ⟨k₁, hat₁⟩ := hat.of_advance hadv
        exact absurd (Reader.At.tok_close (hfoll ▸ hat₁)) hccl
      · obtain ⟨n', first', set', s₁, hadv, hr⟩ := dodashLoop_char_ok hat.tok_ne_eos
          (hat.tok_ne_cclEnd (hclosed _ (List.mem_cons_self ..) x (by simp [ClassPart.ends])))
          (hat.tok_ne_dash hdash) hr
        obtain ⟨k₁, hat₁⟩ := hat.of_advance hadv
        refine List.forall_mem_cons.mpr ⟨⟨hdash, ?_⟩, ih hrest hlast' (hfoll ▸ hat₁) hr⟩
        simpa [ClassPart.ends] using hat.ne_del
    · have hat : s.At (x :: dash :: y :: c :: cs) k := hfoll ▸ h
      have hdash : x ≠ dash := by
        intro hx
        obtain ⟨hpart, -⟩ := hlast [] _ parts rfl hx
        cases hpart
      obtain ⟨n₁, first₁, set₁, s₁, hadv₁, hr₁⟩ := dodashLoop_char_ok hat.tok_ne_eos
        (hat.tok_ne_cclEnd (hclosed _ (List.mem_cons_self ..) x (by simp [ClassPart.ends])))
        (hat.tok_ne_dash hdash) hr
      obtain ⟨k₁, hat₁⟩ := hat.of_advance hadv₁
      obtain ⟨n₂, first₂, set₂, s₂, s₃, hadv₂, -, hadv₃, hr₂⟩ :=
        dodashLoop_dash_ok hat₁.tok_dash hr₁
      obtain ⟨k₂, hat₂⟩ := hat₁.of_advance hadv₂
      obtain ⟨k₃, hat₃⟩ := hat₂.of_advance hadv₃
      refine List.forall_mem_cons.mpr ⟨⟨hdash, ?_⟩, ih hrest hlast' (hfoll ▸ hat₃) hr₂⟩
      simpa [ClassPart.ends] using ⟨hat.ne_del, hat₂.ne_del⟩

/-- If the first part starts with no dash, then a dash can only be the last part. -/
lemma Bracket.dashLast (e : Bracket) (h : ∀ part ∈ e.parts.head?, part.first ≠ dash) :
    DashLast e.parts := by
  intro l part l' hl hdash
  rcases l with _ | ⟨p, l⟩
  · rw [hl] at h
    exact absurd hdash (h part rfl)
  · exact e.dashes l part l' (by rw [hl]; rfl) hdash

/-- The characters of an expression with parts do not depend on the reading of the empty
brackets. -/
lemma Bracket.chars_of_ne_nil {e : Bracket} (h : e.parts ≠ []) (unix : Bool) (B : ℤ → Prop) :
    e.chars unix B = classChars unix e.neg fun x => ∃ item ∈ e.parts.map ClassPart.item, item.Has
    x := by
  rw [Bracket.chars, if_neg h]
  simp only [List.mem_map, exists_exists_and_eq_and]

section Read

variable {macros : List Macro} {unix : Bool} {e : Bracket} {s s' : Reader} {k : ℕ}

/-- The first character behind the brackets is no plain DEL. -/
lemma Bracket.Readable.following_ne_del (hr : e.Readable) {c : ClassChar} {cs : List ClassChar}
    (h : following e.parts = c :: cs) : c ≠ del := by
  obtain ⟨c', cs', h', hc⟩ := following_cons e.parts
  cases h.symm.trans h'
  rcases hc with rfl | ⟨part, hpart, rfl⟩
  · decide
  · exact (hr part hpart).2 part.first part.first_mem_ends

/-- The parts of a readable expression are derived from the text as the items of a class. -/
lemma Bracket.Readable.derivesItems (macros : List Macro) (hr : e.Readable)
    (h : s.At (following e.parts) k) : DerivesItems (scanner macros) s (e.parts.map ClassPart.item)
    (s.closed k) :=
  Lex.derivesItems macros e.parts (fun part hpart => ⟨(hr part hpart).1, fun c hc =>
    ⟨e.closed part hpart c hc, (hr part hpart).2 c hc⟩⟩) s k h

/-- If `dodash` reads the parts to the end, then the expression is readable. -/
lemma readable_of_dodash {n : ℕ} {set : CharClass} {r : CharClass × Reader}
    (h : s.At (following e.parts) k) (hr : dodash (scanner macros) n set s = .ok r) :
    e.Readable := by
  have hdash : (scanner macros).tok s ≠ .dash := by
    intro htok
    rw [dodash, if_pos htok] at hr
    cases hr
  rw [dodash, if_neg hdash] at hr
  refine readable_of_dodashLoop e.closed (e.dashLast ?_) h hr
  rcases hparts : e.parts with _ | ⟨part, parts⟩
  · simp
  · rintro _ ⟨⟩ hfirst
    obtain ⟨cs, hcs⟩ := exists_following part parts
    rw [hparts, hcs, hfirst] at h
    exact hdash h.tok_dash

/-- The current token is neither `^` nor `]` at the first part of an expression that is not
complemented. -/
lemma Reader.At.first_tok (h : s.At (following e.parts) k) (hne : e.parts ≠ []) :
    s.tok ≠ .cclEnd ∧ (e.neg = false → s.tok ≠ .atBol) := by
  obtain ⟨part, parts, hparts⟩ := List.exists_cons_of_ne_nil hne
  have hclosed := e.closed part (by simp [hparts]) part.first part.first_mem_ends
  have hcaret := fun hneg => e.caret hneg part (by simp [hparts])
  obtain ⟨cs, hcs⟩ := exists_following part parts
  rw [hparts, hcs] at h
  exact ⟨h.tok_ne_cclEnd hclosed, fun hneg ht =>
    hcaret hneg ((ClassChar.tok_eq_atBol part.first).mp ((h.tok_eq_iff _).mp ht))⟩

/-- A readable expression is read, where the empty brackets stand for the characters from 0 to the
space. -/
lemma Bracket.Readable.classOk (macros : List Macro) (unix : Bool) (hr : e.Readable)
    (h : s.At (start :: e.written) k) :
    ClassOk (scanner macros) unix s (s.closed k) (e.chars unix codeBlank) := by
  have htok : s.tok = .cclStart := (h.tok_eq_iff _).mpr (by decide)
  obtain ⟨c, cs, hcs, -⟩ := following_cons e.parts
  rcases hneg : e.neg with _ | _
  · have hat : s.At (start :: c :: cs) k := by
      rw [Bracket.written, hneg] at h
      exact hcs ▸ h
    obtain ⟨s₁, k₁, hadv, hat₁, hclosed⟩ := hat.advance_ok macros (hr.following_ne_del hcs)
    have hat₁ : s₁.At (following e.parts) k₁ := hcs ▸ hat₁
    by_cases hne : e.parts = []
    · rw [hne] at hat₁
      rw [← hclosed, Reader.At.eq_closed hat₁, Bracket.chars, if_pos hne, hneg]
      exact classOk_blank ⟨htok, hadv⟩ (Reader.At.tok_close hat₁)
    · rw [chars_of_ne_nil hne, hneg, ← hclosed]
      exact classOk_cls ⟨htok, hadv⟩ ((hat₁.first_tok hne).2 hneg) (hat₁.first_tok hne).1
        (hr.derivesItems macros hat₁)
  · have hat : s.At (start :: ClassChar.caret :: c :: cs) k := by
      rw [Bracket.written, hneg] at h
      exact hcs ▸ h
    obtain ⟨s₁, k₁, hadv₁, hat₁, hclosed₁⟩ := hat.advance_ok macros (by decide)
    obtain ⟨s₂, k₂, hadv₂, hat₂, hclosed₂⟩ := hat₁.advance_ok macros (hr.following_ne_del hcs)
    have hat₂ : s₂.At (following e.parts) k₂ := hcs ▸ hat₂
    have hbol : s₁.tok = .atBol := (hat₁.tok_eq_iff _).mpr (by decide)
    by_cases hne : e.parts = []
    · rw [hne] at hat₂
      rw [← hclosed₁, ← hclosed₂, Reader.At.eq_closed hat₂, Bracket.chars, if_pos hne, hneg]
      exact classOk_blankNeg ⟨htok, hadv₁⟩ ⟨hbol, hadv₂⟩ (Reader.At.tok_close hat₂)
    · rw [chars_of_ne_nil hne, hneg, ← hclosed₁, ← hclosed₂]
      exact classOk_clsNeg ⟨htok, hadv₁⟩ ⟨hbol, hadv₂⟩ (hat₂.first_tok hne).1
        (hr.derivesItems macros hat₂)

/-- An expression that the parser has read as a class is readable. -/
lemma readable_of_charClass {n : ℕ} {r : CharClass × Reader} (h : s.At (start :: e.written) k)
    (hr : charClass (scanner macros) unix n s = .ok r) : e.Readable := by
  by_cases hne : e.parts = []
  · simp [Bracket.Readable, hne]
  have htok : s.tok = .cclStart := (h.tok_eq_iff _).mpr (by decide)
  obtain ⟨c, cs, hcs, -⟩ := following_cons e.parts
  obtain ⟨s₁, hadv₁, hneg', hpos'⟩ := charClass_ok (L := scanner macros) htok hr
  rcases hneg : e.neg with _ | _
  · have hat : s.At (start :: c :: cs) k := by
      rw [Bracket.written, hneg] at h
      exact hcs ▸ h
    obtain ⟨k₁, hat₁⟩ := hat.of_advance hadv₁
    have hat₁ : s₁.At (following e.parts) k₁ := hcs ▸ hat₁
    exact readable_of_dodash hat₁ (hpos' ((hat₁.first_tok hne).2 hneg) (hat₁.first_tok hne).1)
  · have hat : s.At (start :: ClassChar.caret :: c :: cs) k := by
      rw [Bracket.written, hneg] at h
      exact hcs ▸ h
    obtain ⟨k₁, hat₁⟩ := hat.of_advance hadv₁
    obtain ⟨s₂, hadv₂, hr⟩ := hneg' ((hat₁.tok_eq_iff _).mpr (by decide))
    obtain ⟨k₂, hat₂⟩ := hat₁.of_advance hadv₂
    have hat₂ : s₂.At (following e.parts) k₂ := hcs ▸ hat₂
    exact readable_of_dodash hat₂ (hr (hat₂.first_tok hne).1)

end Read

/-- The parser reads a text as at most one class. -/
lemma ClassOk.unique {ι : Type} {L : Lexer ι} {unix : Bool} {s s' : ι} {C C' : Set (Fin maxChars)}
    (h : ClassOk L unix s s' C) (h' : ClassOk L unix s s' C') : C = C' := by
  obtain ⟨N, h⟩ := h
  obtain ⟨N', h'⟩ := h'
  obtain ⟨set, hrun, hset⟩ := h (max N N') (le_max_left _ _)
  obtain ⟨set', hrun', hset'⟩ := h' (max N N') (le_max_right _ _)
  rw [hrun] at hrun'
  cases hrun'
  ext x
  rw [← hset, hset']

/-- At a bracket expression, the parser goes on behind it with the characters that it denotes if and
only if no part starts with a dash, no DEL is plain, and the empty brackets, if it is one of them,
denote what is denoted by the characters from 0 to the space. -/
theorem charClass_iff (macros : List Macro) (unix : Bool) (B : ℤ → Prop) (e : Bracket) {s : Reader}
    {k : ℕ} (h : s.At (start :: e.written) k) :
    ClassOk (scanner macros) unix s (s.closed k) (e.chars unix B) ↔
      e.Readable ∧ (e.parts = [] → e.chars unix B = e.chars unix codeBlank) := by
  constructor
  · intro hok
    have hr : e.Readable := by
      obtain ⟨N, hN⟩ := hok
      obtain ⟨set, hrun, -⟩ := hN N le_rfl
      exact readable_of_charClass h hrun
    exact ⟨hr, fun _ => hok.unique (hr.classOk macros unix h)⟩
  · rintro ⟨hr, hblank⟩
    have hchars : e.chars unix B = e.chars unix codeBlank := by
      by_cases hne : e.parts = []
      · exact hblank hne
      · rw [Bracket.chars_of_ne_nil hne, Bracket.chars_of_ne_nil hne]
    rw [hchars]
    exact hr.classOk macros unix h

/-- The variables behind the opening bracket of a class, with the text of the class and what follows
it. -/
def atClass (text : List ℕ) : Reader := ⟨.cclStart, 91, 91 :: text, [], .line 1, [], false⟩

/-- The expression `[a-c"]"]`, with a quoted bracket in it. -/
def quotedBracket : Bracket where
  neg := false
  parts :=
    [.range ⟨⟨97, by decide⟩, .plain⟩ ⟨⟨99, by decide⟩, .plain⟩ (by decide),
      .one ⟨⟨93, by decide⟩, .quoted⟩]
  closed := by decide
  dashes := by
    rintro l part l' hl hdash
    rcases l with _ | ⟨p, _ | ⟨p', l⟩⟩
    · cases hl
      exact absurd hdash (by decide)
    · cases hl
    · cases hl
  caret := by
    rintro - part ⟨⟩
    decide

/-- The analyzer stands at the text of `[a-c"]"]`. -/
lemma at_quotedBracket :
    (atClass [97, 45, 99, 34, 93, 34, 93, 0]).At (start :: quotedBracket.written) 7 := by
  have hshows : ShowsAll false quotedBracket.written [97, 45, 99, 34, 93, 34, 93, 0]
      (1 + (1 + (1 + ((1 + 1) + ((1 + 1) + 0))))) :=
    .cons (.here (.plain (by decide) (by decide))) (.cons (.here (.plain (by decide) (by decide)))
      (.cons (.here (.plain (by decide) (by decide)))
      (.cons (.quote (.quoted (by decide) (by decide) (by decide)))
        (.cons (.quote (.plain (by decide) (by decide))) .nil))))
  exact .mk (by decide) (by decide) hshows

/-- The expression `[a-c"]"]` is read as the class of its characters. -/
theorem charClass_iff_quotedBracket :
    ClassOk (scanner []) true (atClass [97, 45, 99, 34, 93, 34, 93, 0])
        ((atClass [97, 45, 99, 34, 93, 34, 93, 0]).closed 7) (quotedBracket.chars true docBlank) ↔
      quotedBracket.Readable ∧
        (quotedBracket.parts = [] →
        quotedBracket.chars true docBlank = quotedBracket.chars true codeBlank) :=
  charClass_iff [] true docBlank quotedBracket at_quotedBracket

/-- The expression `[-a]`, which starts with a dash. -/
def dashBracket : Bracket where
  neg := false
  parts := [.one dash, .one ⟨⟨97, by decide⟩, .plain⟩]
  closed := by decide
  dashes := by
    rintro l part l' hl hdash
    rcases l with _ | ⟨p, l⟩
    · cases hl
      exact absurd hdash (by decide)
    · simp at hl
  caret := by
    rintro - part ⟨⟩
    decide

/-- `[-a]` is not read: the warning about the dash ends the program. -/
theorem not_charClass_dashBracket :
    (atClass [45, 97, 93, 0]).At (start :: dashBracket.written) 3 ∧
      ¬ ClassOk (scanner []) true (atClass [45, 97, 93, 0]) ((atClass [45, 97, 93, 0]).closed 3)
        (dashBracket.chars true docBlank) := by
  constructor
  · have hshows : ShowsAll false dashBracket.written [45, 97, 93, 0] (1 + (1 + (1 + 0))) :=
      .cons (.here (.plain (by decide) (by decide))) (.cons (.here (.plain (by decide) (by decide)))
        (.cons (.here (.plain (by decide) (by decide))) .nil))
    exact .mk (by decide) (by decide) hshows
  · rintro ⟨N, hN⟩
    obtain ⟨set, hrun, -⟩ := hN N le_rfl
    have hwarn :
      charClass (scanner []) true N (atClass [45, 97, 93, 0]) = .error (.warning .startdash) := rfl
    rw [hwarn] at hrun
    cases hrun

end Lex
