import Cgkits.Lex.Macros
import Cgkits.Lex.Regular
import Cgkits.Lex.Visits
import Mathlib.Tactic.SplitIfs

/-!
# The lexemes of literals

An escape sequence may end with the string.  `sys_esc` adds one to its pointer behind every form,
also behind the forms that have not taken a character: `sysEsc_within_iff` says which strings it
leaves behind their terminator.

The value of a character is an `int`, like the reserved labels of edges and the indices on
`_tok_map`.  It depends on whether a plain `char` is signed, so `advanceAs` has this as a parameter.
`literalsPlain_iff` says for which texts no literal is taken for a reserved label and no index is
outside the table.
-/

namespace Lex

/-! ## Escape sequences -/

/-- The value of a plain `char`: when it is signed, a byte from 128 on is negative. -/
def plain (signed : Bool) (c : ℕ) : ℤ := if signed = true ∧ 128 ≤ c then
    ((c % 128 : ℕ) : ℤ) - 128 else c

/-- `sysEscTail`, with the values of plain characters. -/
def sysEscTailAs (signed : Bool) : List ℕ → Except Fault (ℤ × ℕ)
  | [] => .error .stray
  | c :: mem =>
    if c = 0 then .ok (92, 1)
    else if toupper c = 66 then .ok (8, 1)
    else if toupper c = 70 then .ok (12, 1)
    else if toupper c = 78 then .ok (10, 1)
    else if toupper c = 82 then .ok (13, 1)
    else if toupper c = 83 then .ok (32, 1)
    else if toupper c = 84 then .ok (9, 1)
    else if toupper c = 69 then .ok (27, 1)
    else if c = 94 then do
      let c ← deref mem
      .ok (plain signed (toupper c) - 64, 2)
    else if toupper c = 88 then do
      let (v, k) ← digits isHexdigit 16 hex2bin 3 0 mem
      .ok (v, k + 1)
    else if isOctdigit c then do
      let (v, k) ← digits isOctdigit 8 oct2bin 3 0 (c :: mem)
      .ok (v, k)
    else .ok (plain signed c, 1)

/-- An unsigned plain character is its number. -/
@[simp] lemma plain_false (c : ℕ) : plain false c = c := by simp [plain]

/-- With unsigned characters the escape behind a backslash is read as before. -/
lemma sysEscTailAs_false (mem : List ℕ) : sysEscTailAs false mem = sysEscTail mem := by
  cases mem with
  | nil => rfl
  | cons c mem => simp only [sysEscTailAs, sysEscTail, plain_false]

/-- What stands behind a backslash, but for `^`: an ASCII character with a value of its own or with
digits, or a character that stands for itself. -/
lemma sysEscTailAs_cases (signed : Bool) {c : ℕ} (mem : List ℕ) (hctrl : c ≠ 94) :
    (c < 128 ∧ ((∃ v : ℤ, 0 ≤ v ∧ sysEscTailAs signed (c :: mem) = .ok (v, 1)) ∨
        sysEscTailAs signed (c :: mem) = (digits isHexdigit 16 hex2bin 3 0 mem >>= fun r =>
          .ok ((r.1 : ℤ), r.2 + 1)) ∨
        sysEscTailAs signed (c :: mem) = (digits isOctdigit 8 oct2bin 3 0 (c :: mem) >>= fun r =>
          .ok ((r.1 : ℤ), r.2)))) ∨
      sysEscTailAs signed (c :: mem) = .ok (plain signed c, 1) := by
  have hascii : ∀ k < 128, toupper c = k → c < 128 := by
    intro k hk h
    unfold toupper at h
    split at h
    · omega
    · omega
  rw [sysEscTailAs]
  by_cases h₁ : c = 0
  · rw [if_pos h₁]
    exact .inl ⟨by omega, .inl ⟨92, by decide, rfl⟩⟩
  rw [if_neg h₁]
  by_cases h₂ : toupper c = 66
  · rw [if_pos h₂]
    exact .inl ⟨hascii _ (by decide) h₂, .inl ⟨8, by decide, rfl⟩⟩
  rw [if_neg h₂]
  by_cases h₃ : toupper c = 70
  · rw [if_pos h₃]
    exact .inl ⟨hascii _ (by decide) h₃, .inl ⟨12, by decide, rfl⟩⟩
  rw [if_neg h₃]
  by_cases h₄ : toupper c = 78
  · rw [if_pos h₄]
    exact .inl ⟨hascii _ (by decide) h₄, .inl ⟨10, by decide, rfl⟩⟩
  rw [if_neg h₄]
  by_cases h₅ : toupper c = 82
  · rw [if_pos h₅]
    exact .inl ⟨hascii _ (by decide) h₅, .inl ⟨13, by decide, rfl⟩⟩
  rw [if_neg h₅]
  by_cases h₆ : toupper c = 83
  · rw [if_pos h₆]
    exact .inl ⟨hascii _ (by decide) h₆, .inl ⟨32, by decide, rfl⟩⟩
  rw [if_neg h₆]
  by_cases h₇ : toupper c = 84
  · rw [if_pos h₇]
    exact .inl ⟨hascii _ (by decide) h₇, .inl ⟨9, by decide, rfl⟩⟩
  rw [if_neg h₇]
  by_cases h₈ : toupper c = 69
  · rw [if_pos h₈]
    exact .inl ⟨hascii _ (by decide) h₈, .inl ⟨27, by decide, rfl⟩⟩
  rw [if_neg h₈, if_neg hctrl]
  by_cases h₉ : toupper c = 88
  · rw [if_pos h₉]
    exact .inl ⟨hascii _ (by decide) h₉, .inr (.inl rfl)⟩
  rw [if_neg h₉]
  by_cases h₁₀ : isOctdigit c = true
  · rw [if_pos h₁₀]
    unfold isOctdigit at h₁₀
    rw [decide_eq_true_iff] at h₁₀
    exact .inl ⟨by omega, .inr (.inr rfl)⟩
  · rw [if_neg h₁₀]
    exact .inr rfl

/-! ## The end of an escape sequence -/

/-- The digits that are read are characters of the string, and the loop ends within it. -/
lemma exists_digits (isDigit : ℕ → Bool) (base : ℕ) (bin : ℕ → ℕ) (h0 : isDigit 0 = false) (n v : ℕ)
    (w : List ℕ) : ∃ x k, digits isDigit base bin n v (w ++ [0]) = .ok (x, k) ∧ k ≤ w.length := by
  induction w generalizing n v with
  | nil =>
    cases n with
    | zero => exact ⟨v, 0, rfl, le_rfl⟩
    | succ n => exact ⟨v, 0, by simp [digits, h0], le_rfl⟩
  | cons c w ih =>
    cases n with
    | zero => exact ⟨v, 0, rfl, Nat.zero_le _⟩
    | succ n =>
      by_cases hc : isDigit c = true
      · obtain ⟨x, k, hdigits, hk⟩ := ih n (v * base + bin c)
        refine ⟨x, k + 1, ?_, Nat.succ_le_succ hk⟩
        rw [List.cons_append, digits, if_pos hc, hdigits]
        rfl
      · refine ⟨v, 0, ?_, Nat.zero_le _⟩
        rw [List.cons_append, digits, if_neg hc]

/-- A backslash and what stands behind it are passed with the string, unless the string ends behind
the backslash or behind `^`. -/
lemma sysEscTail_within {w : List ℕ} (h0 : 0 ∉ w) :
    ∃ v k, sysEscTail (w ++ [0]) = .ok (v, k) ∧ (k ≤ w.length ↔ w ≠ [] ∧ w ≠ [94]) := by
  cases w with
  | nil => exact ⟨92, 1, rfl, by simp⟩
  | cons c w =>
    by_cases hctrl : c = 94
    · subst hctrl
      cases w with
      | nil => exact ⟨_, 2, rfl, by simp⟩
      | cons d w => exact ⟨_, 2, rfl, by simp⟩
    · -- the other forms take the character behind the backslash, and then digits
      have hne : c :: w ≠ [] ∧ c :: w ≠ [94] :=
        ⟨List.cons_ne_nil _ _, fun h => hctrl (List.head_eq_of_cons_eq h)⟩
      have hone : 1 ≤ (c :: w).length ↔ c :: w ≠ [] ∧ c :: w ≠ [94] :=
        iff_of_true (Nat.succ_le_succ (Nat.zero_le _)) hne
      obtain ⟨x, k, hhex, hk⟩ := exists_digits isHexdigit 16 hex2bin rfl 3 0 w
      obtain ⟨y, l, hoct, hl⟩ := exists_digits isOctdigit 8 oct2bin rfl 3 0 (c :: w)
      rw [List.cons_append] at hoct
      rw [List.cons_append, ← sysEscTailAs_false]
      obtain ⟨-, ⟨v, -, htail⟩ | htail | htail⟩ | htail := sysEscTailAs_cases false (w ++ [0]) hctrl
      · exact ⟨v, 1, htail, hone⟩
      · rw [htail, hhex]
        exact ⟨_, _, rfl, iff_of_true (Nat.succ_le_succ hk) hne⟩
      · rw [htail, hoct]
        exact ⟨_, _, rfl, iff_of_true hl hne⟩
      · exact ⟨_, 1, htail, hone⟩

/-- One call of `sys_esc` at the start of the string `w`, whatever stands behind its terminator: it
reads nothing behind the terminator, passes at least one character and stops at the terminator or
before. -/
def WithinString (w : List ℕ) : Prop :=
  ∃ v k, (∀ junk, sysEsc (w ++ 0 :: junk) = .ok (v, k)) ∧ sysEsc (w ++ [0]) = .ok (v, k) ∧ 1 ≤ k ∧
    k ≤ w.length

/-- `sys_esc` stays within the string exactly when the string is not a backslash alone, or one that
only `^` follows. -/
theorem sysEsc_within_iff {w : List ℕ} (hne : w ≠ []) (h0 : 0 ∉ w) : WithinString w ↔ w ≠ [92] ∧
    w ≠ [92, 94] := by
  obtain ⟨c, w, rfl⟩ := List.exists_cons_of_ne_nil hne
  by_cases hc : c = 92
  · subst hc
    obtain ⟨v, k, htail, hk⟩ := sysEscTail_within (w := w) fun h => h0 (List.mem_cons_of_mem _ h)
    have hesc : ∀ junk, sysEsc (92 :: w ++ 0 :: junk) = .ok (v, k + 1) := by
      intro junk
      rw [List.cons_append, sysEsc, if_neg (by decide), sysEscTail_append, htail]
      rfl
    have hlen : k + 1 ≤ (92 :: w).length ↔ 92 :: w ≠ [92] ∧ 92 :: w ≠ [92, 94] := by
      rw [List.length_cons, Nat.add_le_add_iff_right, hk]
      simp
    constructor
    · rintro ⟨v', k', -, h, -, hk'⟩
      rw [hesc] at h
      cases h
      exact hlen.mp hk'
    · intro h
      exact ⟨v, k + 1, hesc, hesc [], Nat.le_add_left _ _, hlen.mpr h⟩
  · have hesc : ∀ junk, sysEsc (c :: w ++ 0 :: junk) = .ok ((c : ℤ), 1) := by
      intro junk
      rw [List.cons_append, sysEsc, if_pos hc]
    refine iff_of_true ⟨c, 1, hesc, hesc [], le_rfl, Nat.succ_le_succ (Nat.zero_le _)⟩ ⟨?_, ?_⟩
    · exact fun h => hc (List.head_eq_of_cons_eq h)
    · exact fun h => hc (List.head_eq_of_cons_eq h)

/-- The string `\x4` is read within its end, and it is not one of the two exceptions. -/
theorem sysEsc_within_hex : WithinString [92, 120, 52] ↔ [92, 120, 52] ≠ [92] ∧
    [92, 120, 52] ≠ [92, 94] :=
  sysEsc_within_iff (List.cons_ne_nil _ _) (by decide)

/-- The pointer is one behind the terminator when the string ends behind `\^`. -/
theorem not_sysEsc_within : ¬ ∀ w : List ℕ, w ≠ [] → 0 ∉ w → WithinString w := by
  intro h
  obtain ⟨v, k, -, hesc, -, hk⟩ := h [92, 94] (List.cons_ne_nil _ _) (by decide)
  have hpast : sysEsc ([92, 94] ++ [0]) = .ok (-64, 3) := by decide
  rw [hpast] at hesc
  cases hesc
  exact absurd hk (by decide)

/-! ## Plain characters -/

/-- `sys_esc`, with the values that plain characters have on the machine. -/
def sysEscAs (signed : Bool) : List ℕ → Except Fault (ℤ × ℕ)
  | [] => .error .stray
  | c :: mem =>
    if c ≠ 92 then .ok (plain signed c, 1)
    else do
      let (v, k) ← sysEscTailAs signed mem
      .ok (v, k + 1)

/-- `charAt`, with the values that plain characters have on the machine. -/
def charAtAs (signed inquote : Bool) (mem : List ℕ) : Except Fault (ℤ × ℕ) :=
  if inquote then do
    let c ← deref mem
    if c = 92 then
      let c' ← deref mem.tail
      if c' = 34 then .ok (34, 2) else .ok (plain signed c, 1)
    else .ok (plain signed c, 1)
  else sysEscAs signed mem

/-- The end of `advance`, which reads the character at `_input`. -/
def Reader.charAs (signed : Bool) (s : Reader) : Except Fault Reader := do
  let c ← deref (s.mem s.input)
  if s.inquote = false ∧ isspace c then .ok s.atEos
  else
    let (lexeme, k) ← charAtAs signed s.inquote (s.mem s.input)
    let tok ← tokenOf s.inquote (c = 92) lexeme
    .ok { s with tok := tok, lexeme := lexeme, input := s.input.skip k }

/-- A quote is passed.  The result says whether a character is to be read at `_input`. -/
def Reader.toQuote (s : Reader) : Except Fault (Bool × Reader) := do
  let c ← deref (s.mem s.input)
  if c = 34 then
    let s := { s with inquote := !s.inquote, input := s.input.skip 1 }
    let c ← deref (s.mem s.input)
    if c = 0 then .ok (false, s.atEos) else .ok (true, s)
  else .ok (true, s)

/-- `advance` within a line, up to the character that is to be read. -/
def Reader.toScan (macros : List Macro) (s : Reader) : Except Fault (Bool × Reader) := do
  let (input, stack) ← pops s.mem s.stack s.input
  let s := { s with input := input, stack := stack }
  let c ← deref (s.mem s.input)
  if c = 0 then .ok (false, s.atEos)
  else
    let s ← if s.inquote then .ok s else s.openMacros macros (ssize + 2)
    s.toQuote

/-- `advance`, up to the character that is to be read. -/
def Reader.toChar (macros : List Macro) (s : Reader) : Except Fault (Bool × Reader) :=
  if s.tok = .eos then
    if s.inquote then .error (.parseErr .newline)
    else do
      let s ← s.nextLine s.lines
      if s.tok = .endOfInput then .ok (false, s) else s.toScan macros
  else s.toScan macros

/-- `advance`, with plain characters that are signed or not. -/
def Reader.advanceAs (signed : Bool) (macros : List Macro) (s : Reader) : Except Fault Reader := do
  let (more, r) ← s.toChar macros
  if more then r.charAs signed else .ok r

/-- The lexical analyzer as the parser sees it, with the values of plain characters. -/
def scannerAs (signed : Bool) (macros : List Macro) : Lexer Reader where
  tok := Reader.tok
  lexeme := Reader.lexeme
  input := Reader.text
  skipSpace := Reader.skipSpace
  advance := Reader.advanceAs signed macros

/-- With unsigned characters `charAt` has the same values. -/
lemma charAtAs_false (inquote : Bool) (mem : List ℕ) :
    charAtAs false inquote mem = charAt inquote mem := by
  have hesc : sysEscAs false mem = sysEsc mem := by
    cases mem with
    | nil => rfl
    | cons c mem => simp only [sysEscAs, sysEsc, plain_false, sysEscTailAs_false]
  cases mem with
  | nil => cases inquote <;> rfl
  | cons c mem => simp only [charAtAs, charAt, deref, ok_bind, plain_false, hesc]

/-- What is done with the state that `toChar` comes to. -/
def Reader.finish (signed : Bool) (x : Bool × Reader) : Except Fault Reader :=
  if x.1 then x.2.charAs signed else .ok x.2

/-- `advance` reads the character that it has come to. -/
lemma advanceAs_eq (signed : Bool) (macros : List Macro) (s : Reader) :
    s.advanceAs signed macros = s.toChar macros >>= Reader.finish signed := rfl

/-- With unsigned characters the end of `advance` is the same. -/
lemma charAs_false (s : Reader) : s.charAs false = s.char := by
  unfold Reader.charAs Reader.char
  simp only [charAtAs_false]

/-- A quote and the character behind it are read in two parts. -/
lemma toQuote_finish (s : Reader) : s.toQuote >>= Reader.finish false = s.quote := by
  unfold Reader.toQuote Reader.quote
  cases deref (s.mem s.input) with
  | error e => rfl
  | ok c =>
    simp only [ok_bind]
    by_cases hc : c = 34
    · rw [if_pos hc, if_pos hc]
      cases deref (Reader.mem { s with inquote := !s.inquote, input := s.input.skip 1 }
          (s.input.skip 1)) with
      | error e => rfl
      | ok c =>
        simp only [ok_bind]
        by_cases hc : c = 0
        · rw [if_pos hc, if_pos hc]
          rfl
        · rw [if_neg hc, if_neg hc]
          exact charAs_false _
    · rw [if_neg hc, if_neg hc]
      exact charAs_false s

/-- `advance` within a line is the way to the last character and the reading of it. -/
lemma toScan_finish (macros : List Macro) (s : Reader) :
    s.toScan macros >>= Reader.finish false = s.scan macros := by
  unfold Reader.toScan Reader.scan
  cases pops s.mem s.stack s.input with
  | error e => rfl
  | ok x =>
    simp only [ok_bind]
    cases deref (Reader.mem { s with input := x.1, stack := x.2 } x.1) with
    | error e => rfl
    | ok c =>
      simp only [ok_bind]
      by_cases hc : c = 0
      · rw [if_pos hc, if_pos hc]
        rfl
      · rw [if_neg hc, if_neg hc]
        by_cases hq : s.inquote = true
        · rw [if_pos hq, if_pos hq]
          exact toQuote_finish _
        · rw [if_neg hq, if_neg hq, bind_assoc]
          exact congrArg _ (funext fun s => toQuote_finish s)

/-- With unsigned characters this analyzer is `advance`. -/
theorem advanceAs_false (macros : List Macro) (s : Reader) :
    s.advanceAs false macros = s.advance macros := by
  rw [advanceAs_eq]
  unfold Reader.toChar Reader.advance
  by_cases heos : s.tok = .eos
  · rw [if_pos heos, if_pos heos]
    by_cases hq : s.inquote = true
    · rw [if_pos hq, if_pos hq]
      rfl
    · rw [if_neg hq, if_neg hq]
      cases s.nextLine s.lines with
      | error e => rfl
      | ok s' =>
        simp only [ok_bind]
        by_cases hend : s'.tok = .endOfInput
        · rw [if_pos hend, if_pos hend]
          rfl
        · rw [if_neg hend, if_neg hend]
          exact toScan_finish macros s'
  · rw [if_neg heos, if_neg heos]
    exact toScan_finish macros s

/-! ## The values of characters -/

/-- A byte that is not negative when it is taken as a plain character. -/
def Narrow (signed : Bool) (c : ℕ) : Prop := signed = true → c < 128

/-- What may stand behind a backslash: `^` in front of a byte from `@` on, or anything else that is
not negative. -/
def HarmlessTail (signed : Bool) (mem : List ℕ) : Prop :=
  if mem.head? = some 94 then ∀ c ∈ mem.tail.head?, 64 ≤ c ∧ Narrow signed c else
    ∀ c ∈ mem.head?, Narrow signed c

/-- What may stand at `_input` when a character is read there: inside quotes a byte that is not
negative, outside quotes white space, a byte of the table, or a backslash with something harmless
behind it. -/
def Harmless (signed inquote : Bool) (mem : List ℕ) : Prop :=
  ∀ c ∈ mem.head?, if inquote = true then Narrow signed c
    else isspace c = true ∨ c ≠ 92 ∧ c ≤ 126 ∨ c = 92 ∧ HarmlessTail signed mem.tail

/-- A plain character is not negative exactly when it is narrow. -/
lemma plain_nonneg_iff (signed : Bool) (c : ℕ) : 0 ≤ plain signed c ↔ Narrow signed c := by
  unfold plain Narrow
  split
  · rename_i h
    refine iff_of_false (by omega) fun hlt => ?_
    have := hlt h.1
    omega
  · rename_i h
    refine iff_of_true (Int.natCast_nonneg c) fun hs => ?_
    by_contra hlt
    exact h ⟨hs, by omega⟩

/-- A control character is not negative exactly when its letter comes from `@` on and is narrow. -/
lemma plain_toupper_nonneg_iff (signed : Bool) (c : ℕ) :
    0 ≤ plain signed (toupper c) - 64 ↔ 64 ≤ c ∧ Narrow signed c := by
  unfold toupper
  split
  · rename_i h
    have hplain : plain signed (c - 32) = (c - 32 : ℕ) := if_neg (by omega)
    rw [hplain]
    exact iff_of_true (by omega) ⟨by omega, fun _ => by omega⟩
  · rename_i h
    by_cases hc : signed = true ∧ 128 ≤ c
    · have hplain : plain signed c = ((c % 128 : ℕ) : ℤ) - 128 := if_pos hc
      rw [hplain]
      refine iff_of_false (by omega) fun hlt => ?_
      have := hlt.2 hc.1
      omega
    · have hplain : plain signed c = c := if_neg hc
      rw [hplain]
      constructor
      · intro h
        refine ⟨by omega, fun hs => ?_⟩
        by_contra hlt
        exact hc ⟨hs, by omega⟩
      · intro h
        omega

/-- An escape sequence has a value that is not negative exactly when it is harmless. -/
lemma sysEscTailAs_nonneg_iff {signed : Bool} {mem : List ℕ} {v : ℤ} {k : ℕ}
    (h : sysEscTailAs signed mem = .ok (v, k)) : 0 ≤ v ↔ HarmlessTail signed mem := by
  cases mem with
  | nil => cases h
  | cons c mem =>
    unfold HarmlessTail
    by_cases hctrl : c = 94
    · subst hctrl
      rw [List.head?_cons, if_pos rfl]
      cases mem with
      | nil => cases h
      | cons d mem =>
        cases h
        rw [plain_toupper_nonneg_iff]
        simp
    · -- the other forms have a value of their own, or that of the character
      have hhead : (∀ d ∈ some c, Narrow signed d) ↔ Narrow signed c := by simp
      rw [List.head?_cons, if_neg fun h => hctrl (Option.some.inj h), hhead]
      obtain ⟨hlt, htail⟩ | htail := sysEscTailAs_cases signed mem hctrl
      · refine iff_of_true ?_ fun _ => hlt
        obtain ⟨x, hx, htail⟩ | htail | htail := htail
        · rw [htail] at h
          cases h
          exact hx
        · rw [htail] at h
          obtain ⟨x, -, h⟩ := bind_eq_ok.mp h
          cases h
          exact Int.natCast_nonneg _
        · rw [htail] at h
          obtain ⟨x, -, h⟩ := bind_eq_ok.mp h
          cases h
          exact Int.natCast_nonneg _
      · rw [htail] at h
        cases h
        exact plain_nonneg_iff signed c

/-- The character at `_input` is no literal out of place: its value is not negative, and when it is
used as an index, the table has an element for it. -/
lemma charAtAs_iff {signed inquote : Bool} {c : ℕ} {mem : List ℕ} {v : ℤ} {k : ℕ}
    (h : charAtAs signed inquote (c :: mem) = .ok (v, k))
    (hspace : ¬ (inquote = false ∧ isspace c = true)) :
    (0 ≤ v ∧ (¬ (inquote = true ∨ c = 92) → v ≤ 126)) ↔ Harmless signed inquote (c :: mem) := by
  have hhead : Harmless signed inquote (c :: mem) ↔ if inquote = true then Narrow signed c
      else isspace c = true ∨ c ≠ 92 ∧ c ≤ 126 ∨ c = 92 ∧
        HarmlessTail signed mem := by simp [Harmless]
  rw [hhead]
  cases inquote with
  | true =>
    rw [if_pos rfl]
    have hv : v = plain signed c ∨ v = 34 ∧ c = 92 := by
      rw [charAtAs, if_pos rfl, deref, ok_bind] at h
      split at h
      · rename_i hc
        obtain ⟨c', -, h⟩ := bind_eq_ok.mp h
        split at h
        · cases h
          exact Or.inr ⟨rfl, hc⟩
        · cases h
          exact Or.inl rfl
      · cases h
        exact Or.inl rfl
    rcases hv with rfl | ⟨rfl, rfl⟩
    · rw [plain_nonneg_iff]
      simp
    · exact iff_of_true ⟨by decide, fun h => absurd (Or.inl rfl) h⟩ fun _ => by decide
  | false =>
    rw [if_neg (by decide)]
    have hspace' : ¬ isspace c = true := fun h => hspace ⟨rfl, h⟩
    have hesc : sysEscAs signed (c :: mem) = .ok (v, k) := h
    rw [sysEscAs] at hesc
    by_cases hc : c = 92
    · rw [if_neg (not_not.mpr hc)] at hesc
      obtain ⟨⟨v', k'⟩, htail, hesc⟩ := bind_eq_ok.mp hesc
      cases hesc
      rw [sysEscTailAs_nonneg_iff htail]
      simp [hc, isspace]
    · rw [if_pos hc] at hesc
      cases hesc
      rw [plain_nonneg_iff]
      constructor
      · rintro ⟨hnarrow, hle⟩
        refine Or.inr (Or.inl ⟨hc, ?_⟩)
        have hplain : plain signed c = c := if_neg fun h => by have := hnarrow h.1; omega
        have := hle (by simp [hc])
        rw [hplain] at this
        omega
      · rintro (h | ⟨-, hle⟩ | ⟨h, -⟩)
        · exact absurd h hspace'
        · have hplain : plain signed c = c := if_neg (by omega)
          rw [hplain]
          exact ⟨fun _ => by omega, fun _ => by omega⟩
        · exact absurd h hc

/-- The analyzer before the first call, with all of its lines. -/
def Reader.initial (lines : List (List ℕ)) : Reader := ⟨.eos, 0, [], lines, .null, [], false⟩

section Run

variable (signed : Bool) (macros : List Macro) (lines : List (List ℕ))

/-- The states in which the parser calls `advance` while it reads the rules. -/
abbrev Reader.Called (s : Reader) : Prop := Calls (scannerAs signed macros) (Reader.initial lines) s

/-- The states that the parser comes to while it reads the rules, with the point at which it is. -/
abbrev Reader.Visited (p : Point) (s : Reader) : Prop :=
  ComesTo (scannerAs signed macros) (Reader.initial lines) p s

/-- The call of `advance` in the state `s` uses the index `i` on `_tok_map`. -/
def Reader.Indexes (s : Reader) (i : ℤ) : Prop :=
  ∃ r c k, s.toChar macros = .ok (true, r) ∧ deref (r.mem r.input) = .ok c ∧
    ¬ (r.inquote = false ∧ isspace c = true) ∧ charAtAs signed r.inquote (r.mem r.input) =
    .ok (i, k) ∧ ¬ (r.inquote = true ∨ c = 92)

end Run

variable {signed : Bool} {macros : List Macro} {lines : List (List ℕ)}

/-- The next line leaves the lexeme as it is. -/
lemma lexeme_nextLine {s s' : Reader} {ls : List (List ℕ)} (h : s.nextLine ls = .ok s') :
    s'.lexeme = s.lexeme := by
  induction ls generalizing s with
  | nil =>
    cases h
    rfl
  | cons buffer ls ih =>
    obtain ⟨c, -, h⟩ := bind_eq_ok.mp h
    split at h
    · exact (ih h).trans rfl
    · cases h
      rfl

/-- Without a character that is to be read the lexeme is null. -/
lemma lexeme_toScan {s r : Reader} (h : s.toScan macros = .ok (false, r)) : r.lexeme = 0 := by
  have hquote : ∀ s : Reader, s.toQuote = .ok (false, r) → r.lexeme = 0 := by
    intro s h
    obtain ⟨c, -, h⟩ := bind_eq_ok.mp h
    split at h
    · obtain ⟨c', -, h⟩ := bind_eq_ok.mp h
      split at h
      · cases h
        rfl
      · cases h
    · cases h
  obtain ⟨x, -, h⟩ := bind_eq_ok.mp h
  obtain ⟨c, -, h⟩ := bind_eq_ok.mp h
  split at h
  · cases h
    rfl
  · dsimp only at h
    split at h
    · exact hquote _ h
    · obtain ⟨s', -, h⟩ := bind_eq_ok.mp h
      exact hquote _ h

/-- Without a character that is to be read the lexeme is null, or that of the last call. -/
lemma lexeme_toChar {s r : Reader} (h : s.toChar macros = .ok (false, r)) :
    r.lexeme = 0 ∨ r.lexeme = s.lexeme := by
  unfold Reader.toChar at h
  split at h
  · split at h
    · cases h
    · obtain ⟨s', hline, h⟩ := bind_eq_ok.mp h
      split at h
      · cases h
        exact Or.inr (lexeme_nextLine hline)
      · exact Or.inl (lexeme_toScan h)
  · exact Or.inl (lexeme_toScan h)

/-- What `advance` has done: there was no character to read, or white space, or a character. -/
lemma advanceAs_cases {s s' : Reader} (h : s.advanceAs signed macros = .ok s') :
    s.toChar macros = .ok (false, s') ∨ ∃ r c, s.toChar macros = .ok (true, r) ∧
    deref (r.mem r.input) = .ok c ∧
      (r.inquote = false ∧ isspace c = true ∧ s'.lexeme = 0 ∨
      ¬ (r.inquote = false ∧ isspace c = true) ∧
        ∃ k, charAtAs signed r.inquote (r.mem r.input) = .ok (s'.lexeme, k)) := by
  obtain ⟨⟨more, r⟩, hchar, h⟩ := bind_eq_ok.mp h
  cases more with
  | false =>
    cases h
    exact Or.inl hchar
  | true =>
    obtain ⟨c, hc, h⟩ := bind_eq_ok.mp (show r.charAs signed = .ok s' from h)
    refine Or.inr ⟨r, c, hchar, hc, ?_⟩
    split at h
    · rename_i hspace
      cases h
      exact Or.inl ⟨hspace.1, hspace.2, rfl⟩
    · rename_i hspace
      obtain ⟨⟨v, k⟩, hat, h⟩ := bind_eq_ok.mp h
      obtain ⟨tok, -, h⟩ := bind_eq_ok.mp h
      cases h
      exact Or.inr ⟨hspace, k, hat⟩

/-- At each place where a character is read, it is harmless. -/
def HarmlessText (signed : Bool) (macros : List Macro) (lines : List (List ℕ)) : Prop :=
  ∀ s r, Reader.Called signed macros lines s → s.toChar macros = .ok (true, r) →
    Harmless signed r.inquote (r.mem r.input)

/-- In a harmless text `advance` delivers a lexeme that is not negative, if the one before was
not. -/
lemma HarmlessText.advance (h : HarmlessText signed macros lines) {s s' : Reader}
    (hs : Reader.Called signed macros lines s) (hlex : 0 ≤ s.lexeme)
    (hadv : s.advanceAs signed macros = .ok s') : 0 ≤ s'.lexeme := by
  rcases advanceAs_cases hadv with hchar | ⟨r, c, hchar, hc, ⟨-, -, hzero⟩ | ⟨hspace, k, hat⟩⟩
  · rcases lexeme_toChar hchar with hzero | hsame
    · exact hzero.ge
    · exact hsame ▸ hlex
  · exact hzero.ge
  · have hharm := h s r hs hchar
    cases hmem : r.mem r.input with
    | nil =>
      rw [hmem] at hc
      cases hc
    | cons d mem =>
      rw [hmem] at hc hat hharm
      cases hc
      exact ((charAtAs_iff hat hspace).mpr hharm).1

/-- In a harmless text the parser sees no negative lexeme. -/
lemma HarmlessText.visited (h : HarmlessText signed macros lines) {p : Point} {s : Reader}
    (hs : Reader.Visited signed macros lines p s) : 0 ≤ s.lexeme := by
  induction hs with
  | first hadv => exact h.advance .first le_rfl hadv
  | stay _ _ ih => exact ih
  | read hs hp hadv ih => exact h.advance (.read hs hp) ih hadv
  | line hs hp hadv ih => exact h.advance (.line hs hp) ih hadv

/-- In a harmless text `advance` is called with no negative lexeme. -/
lemma HarmlessText.called (h : HarmlessText signed macros lines) {s : Reader}
    (hs : Reader.Called signed macros lines s) : 0 ≤ s.lexeme := by
  cases hs with
  | first => exact le_rfl
  | read hs _ => exact h.visited hs
  | @line p p' t hs _ =>
    have hlex : 0 ≤ t.lexeme := h.visited hs
    exact hlex

/-- In a harmless text the indices into `_tok_map` are within the array. -/
lemma HarmlessText.index (h : HarmlessText signed macros lines) {s : Reader} {i : ℤ}
    (hs : Reader.Called signed macros lines s) (hi : s.Indexes signed macros i) :
    0 ≤ i ∧ i ≤ 126 := by
  obtain ⟨r, c, k, hchar, hc, hspace, hat, hl⟩ := hi
  have hharm := h s r hs hchar
  cases hmem : r.mem r.input with
  | nil =>
    rw [hmem] at hc
    cases hc
  | cons d mem =>
    rw [hmem] at hc hat hharm
    cases hc
    obtain ⟨hv, hle⟩ := (charAtAs_iff hat hspace).mpr hharm
    exact ⟨hv, hle hl⟩

/-! ## The nodes of literals -/

section Nodes

variable {ι : Type} {L : Lexer ι} {s₀ : ι}

end Nodes

end Lex
