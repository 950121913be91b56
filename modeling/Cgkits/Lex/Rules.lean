import Cgkits.Lex.Advance
import Cgkits.Lib.Lines
import Mathlib.Data.List.GetD

/-!
# Reading the rules (`src/compiler/lex/input.c`)

`get_expr` puts the next rule into `g_input_buffer`: a line, together with the lines behind it that
start with white space. It is written with `get_line`, and both functions keep a character of
lookahead between two calls.  A write outside of the buffer is the fault `outside`; `tooLong` is the
exit in `lerror`.

The text of a file is seen as its lines.  A call of `get_expr` reads a group of them
(`Cgkits.Lib.Lines`), in which an empty line continues the one before it as well; the logical rules
are the groups in which it does not.  `rules_iff` says when the results are the logical rules and
`NULL` behind them.
-/

namespace Lex

/-- `MAX_RULE_SIZE`, the size of the buffer for a rule. -/
def maxRuleSize : ℕ := 20480

/-- The ways in which the reading of a rule does not return. -/
inductive RuleFault
  /-- A write outside of the buffer. -/
  | outside
  /-- `lerror(1, "Rule too long.\n")`. -/
  | tooLong
  /-- The loop has made more turns than it should. -/
  | endless
deriving DecidableEq, Repr

/-- The input file and the static data of the functions that read it. -/
structure RuleInput where
  /-- `g_input_buffer`, the memory that the lines are read into. -/
  inputBuffer : ℕ → UInt8
  /-- What is left of `g_ifile`. -/
  file : List UInt8
  /-- `lookhead` of `get_line`. -/
  lineLookhead : ℤ
  /-- `lookhead` of `get_expr`. -/
  exprLookhead : ℤ
  /-- `g_lineno`, the number of the line that is read. -/
  lineno : ℤ
  /-- `g_actual_lineno`, the number of the line where a rule begins. -/
  actualLineno : ℤ

namespace RuleInput

variable (s : RuleInput)

/-- `lookhead = getc(stream)`, the next character of the file or `EOF`. -/
def getc : RuleInput :=
  match s.file with
  | [] => { s with lineLookhead := -1 }
  | x :: w => { s with lineLookhead := x.toNat, file := w }

/-- A write into the buffer, which is an error outside of it. -/
def write (i : ℕ) (x : UInt8) : Except RuleFault RuleInput :=
  if i < maxRuleSize then .ok { s with inputBuffer := Function.update s.inputBuffer i x } else
    .error .outside

/-- The loop of `get_line`, in which `n` is one more than the number of turns that are left: `n`,
`str` and the data. -/
def lineLoop : ℕ → ℕ → RuleInput → Except RuleFault (ℕ × ℕ × RuleInput)
  | 0, str, s => .ok (0, str, s)
  | k + 1, str, s => do
    let s ← s.write str (UInt8.ofInt s.lineLookhead)
    let s := s.getc
    if s.inputBuffer str = 10 ∨ s.inputBuffer str = 255 then .ok (k + 1, str, s) else
      lineLoop k (str + 1) s

/-- The first statement of `get_line`: read a character ahead when there is none. -/
def prime : RuleInput := if s.lineLookhead = 0 then s.getc else s

/-- `get_line`: read a line into the string that `stringp` points at; the result, `*stringp` and the
data. -/
def getLine (stringp : ℕ) (n : ℤ) : Except RuleFault (ℤ × ℕ × RuleInput) :=
  let s := s.prime
  if 0 < n ∧ s.lineLookhead ≠ -1 then do
    let (n, str, s) ← lineLoop (n - 1).toNat stringp s
    let s ← s.write str 0
    .ok (if n = 0 then 0 else s.lineLookhead, str, s)
  else .ok (if n ≤ 0 then 0 else s.lineLookhead, stringp, s)

/-- The loop of `get_expr`, which reads a line and the lines that continue it. -/
def exprLoop : ℕ → ℕ → ℤ → RuleInput → Except RuleFault RuleInput
  | 0, _, _, _ => .error .endless
  | fuel + 1, p, spaceLeft, s => do
    let (lookhead, p, s) ← s.getLine p (spaceLeft - 1)
    let s := { s with exprLookhead := lookhead }
    if lookhead = -1 then .ok s
    else if lookhead = 0 then .error .tooLong
    else
      let s := { s with actualLineno := s.actualLineno + 1 }
      if s.inputBuffer 0 = 0 then exprLoop fuel p spaceLeft s
      else
        let spaceLeft := (maxRuleSize : ℤ) - p
        if isspace lookhead.toNat then do
          let s ← s.write p 10
          exprLoop fuel (p + 1) spaceLeft s
        else .ok s

/-- `get_expr`: read the next rule into the buffer; whether the result is not `NULL`. -/
def getExpr : Except RuleFault (Bool × RuleInput) :=
  if s.exprLookhead = 37 then .ok (false, s)
  else do
    let s ← exprLoop (s.file.length + 2) 0 maxRuleSize { s with lineno := s.actualLineno }
    .ok (s.exprLookhead ≠ 0, s)

/-- The string that stands in the buffer, up to its NUL. -/
def text : List UInt8 := ((List.range maxRuleSize).map s.inputBuffer).takeWhile (· ≠ 0)

/-- The results of so many calls of `get_expr`, each with the text in the buffer at that time. -/
def exprs : ℕ → RuleInput → Except RuleFault (List (Option (List UInt8)))
  | 0, _ => .ok []
  | n + 1, s => do
    let (found, s) ← s.getExpr
    let results ← exprs n s
    .ok ((if found then some s.text else none) :: results)

/-- The data before the first call, with any contents of the buffer. -/
def start (inputBuffer : ℕ → UInt8) (file : List UInt8) (actualLineno : ℤ) : RuleInput :=
  ⟨inputBuffer, file, 0, 0, actualLineno, actualLineno⟩

end RuleInput

open Lines

/-- A line with none of the characters that `get_line` takes for something else. -/
def PlainLine (l : List UInt8) : Prop := ∀ x ∈ l, x ≠ 0 ∧ x ≠ 255

/-- The line starts with white space, so that it continues the line in front of it. -/
def startsWithSpace (l : List UInt8) : Bool := l.head?.any fun x => isspace x.toNat

/-- The lines of the rules section, which ends at a line that starts with `%`. -/
def ruleSection (t : List UInt8) : List (List UInt8) := (lines 10 t).takeWhile (·.head? ≠ some 37)

/-- The logical rules: each line that is not empty with the lines directly behind it that start with
white space. -/
def logicalRules (t : List UInt8) : List (List UInt8) :=
  (groups startsWithSpace (ruleSection t)).map (joined 10)

/-- The text of the group fits into the buffer, with its newline and its null character. -/
def FitsRule (g : List (List UInt8)) : Prop :=
  (joined 10 g).length + 3 ≤ maxRuleSize ∨ (1 < g.length ∧ (joined 10 g).length + 2 ≤ maxRuleSize)

/-- The text has a form in which `get_expr` can read it. -/
structure ReadableRules (t : List UInt8) : Prop where
  /-- The section ends at a line that starts with `%`. -/
  closed : ∃ l ∈ lines 10 t, l.head? = some 37
  /-- There is a rule in the section of rules. -/
  found : ∃ l ∈ ruleSection t, l ≠ []
  /-- There is no empty line behind the first line that is not empty. -/
  noBlank : [] ∉ (ruleSection t).dropWhile (·.isEmpty)
  /-- Every rule fits into the buffer. -/
  fits : ∀ g ∈ groups startsWithSpace (ruleSection t), FitsRule g

/-- The computation returns a result, or it exits because the rule is too long. -/
def Ends {α : Type} (e : Except RuleFault α) : Prop := (∃ x, e = .ok x) ∨ e = .error .tooLong

/-- The line continues the one before it, for `get_expr`. -/
def continues (l : List UInt8) : Bool := l.isEmpty || startsWithSpace l

/-- The first character of a text, or `EOF` when there is none. -/
def firstChar : List UInt8 → ℤ
  | [] => -1
  | x :: _ => x.toNat

/-- The buffer in which some characters have been written from `p` on. -/
def lay (f : ℕ → UInt8) (p : ℕ) (w : List UInt8) : ℕ → UInt8 :=
  fun i => if p ≤ i ∧ i < p + w.length then w.getD (i - p) 0 else f i

/-- The text has not been read yet: it is what a character ahead and the file make up. -/
def RuleInput.Pending (s : RuleInput) (t : List UInt8) : Prop :=
  s.prime = { s with lineLookhead := firstChar t, file := t.tail }

variable {s s' : RuleInput} {t w : List UInt8} {f : ℕ → UInt8} {k p : ℕ} {n : ℤ}

/-! ## The buffer -/

/-- Laying one character is a write to one place. -/
lemma lay_singleton (f : ℕ → UInt8) (p : ℕ) (x : UInt8) : lay f p [x] = Function.update f p x := by
  funext i
  unfold lay
  by_cases hi : i = p
  · subst hi
    rw [Function.update_self, if_pos (by simp), Nat.sub_self]
    rfl
  · rw [Function.update_of_ne hi, if_neg (by rw [List.length_singleton]; omega)]

/-- Laying two texts one behind the other is laying them as one. -/
lemma lay_lay (f : ℕ → UInt8) (p : ℕ) (w w' : List UInt8) :
    lay (lay f p w) (p + w.length) w' = lay f p (w ++ w') := by
  funext i
  unfold lay
  rw [List.length_append]
  by_cases hsecond : p + w.length ≤ i ∧ i < p + w.length + w'.length
  · rw [if_pos hsecond, if_pos (by omega), List.getD_append_right _ _ _ _ (by omega), Nat.sub_sub]
  · rw [if_neg hsecond]
    by_cases hfirst : p ≤ i ∧ i < p + w.length
    · rw [if_pos hfirst, if_pos (by omega), List.getD_append _ _ _ _ (by omega)]
    · rw [if_neg hfirst, if_neg (by omega)]

/-- When the last character is overwritten, the text with another last character has been laid. -/
lemma lay_overwrite (f : ℕ → UInt8) (p : ℕ) (w : List UInt8) (x y : UInt8) :
    Function.update (lay f p (w ++ [x])) (p + w.length) y = lay f p (w ++ [y]) := by
  rw [← lay_lay, ← lay_lay, lay_singleton, lay_singleton, Function.update_idem]

/-- The characters that have been laid stand at their places. -/
lemma lay_apply {i : ℕ} (hi : i < w.length) : lay f p w (p + i) = w[i] := by
  unfold lay
  rw [if_pos (by omega), Nat.add_sub_cancel_left, List.getD_eq_getElem _ _ hi]

/-! ## `get_line` -/

/-- `getc` takes the first character of the file, or returns `EOF`. -/
lemma getc_eq (s : RuleInput) :
    s.getc = { s with lineLookhead := firstChar s.file, file := s.file.tail } := by
  obtain ⟨buffer, file, line, expr, lineno, actual⟩ := s
  rcases file with - | ⟨x, w⟩ <;> rfl

/-- The character that is written for the first character of a text. -/
lemma ofInt_firstChar (t : List UInt8) : UInt8.ofInt (firstChar t) = t.head?.getD 255 := by
  rcases t with - | ⟨x, w⟩
  · rfl
  · change UInt8.ofNat ((x.toNat : ℤ) % 2 ^ 8).toNat = x
    have hlt := x.toNat_lt
    have hmod : ((x.toNat : ℤ) % 2 ^ 8).toNat = x.toNat := by omega
    rw [hmod, UInt8.ofNat_toNat]

/-- A turn of the loop of `get_line` writes the character that is ahead, or ends at a newline. -/
lemma lineLoop_succ (hline : s.lineLookhead = firstChar t) (hfile : s.file = t.tail)
    (hp : p < maxRuleSize) : s.lineLoop (k + 1) p =
      let s' : RuleInput := { s with
        inputBuffer := lay s.inputBuffer p [t.head?.getD 255]
        lineLookhead := firstChar t.tail
        file := t.tail.tail }
      if t.head?.getD 255 = 10 ∨ t.head?.getD 255 = 255 then .ok (k + 1, p, s') else
        s'.lineLoop k (p + 1) := by
  rw [RuleInput.lineLoop, RuleInput.write, if_pos hp, hline, ofInt_firstChar, ← lay_singleton]
  simp only [Bind.bind, Except.bind, getc_eq, hfile]
  rw [lay_singleton, Function.update_self]

/-- The loop of `get_line` reads a line that there is room for. -/
lemma lineLoop_eq : ∀ {k p : ℕ} {t : List UInt8} {s : RuleInput}, s.lineLookhead = firstChar t →
    s.file = t.tail → (∀ x ∈ t.takeWhile (· ≠ 10), x ≠ 255) → (t.takeWhile (· ≠ 10)).length < k →
    p + k ≤ maxRuleSize →
    ∃ x, s.lineLoop k p = .ok (k - (t.takeWhile (· ≠ 10)).length, p + (t.takeWhile (· ≠ 10)).length,
      { s with
        inputBuffer := lay s.inputBuffer p (t.takeWhile (· ≠ 10) ++ [x])
        lineLookhead := firstChar (dropLine 10 t)
        file := (dropLine 10 t).tail }) := by
  intro k
  induction k with
  | zero =>
    intro p t s _ _ _ hk _
    exact absurd hk (Nat.not_lt_zero _)
  | succ k ih =>
    intro p t s hline hfile hplain hk hp
    rw [lineLoop_succ hline hfile (by omega)]
    rcases t with - | ⟨x, w⟩
    · exact ⟨255, if_pos (.inr rfl)⟩
    · by_cases hx : x = 10
      · subst hx
        exact ⟨10, if_pos (.inl rfl)⟩
      · have htake : (x :: w).takeWhile (· ≠ 10) = x :: w.takeWhile (· ≠ 10) :=
          List.takeWhile_cons_of_pos (by simpa using hx)
        have hdrop : dropLine 10 (x :: w) = dropLine 10 w := by simp [dropLine, hx]
        rw [htake] at hplain hk ⊢
        rw [hdrop]
        rw [List.length_cons] at hk ⊢
        obtain ⟨y, hy⟩ := ih (p := p + 1) (t := w) (s := { s with
          inputBuffer := lay s.inputBuffer p [x], lineLookhead := firstChar w, file := w.tail })
          rfl rfl (fun c hc => hplain c (List.mem_cons_of_mem _ hc)) (by omega) (by omega)
        refine ⟨y, ?_⟩
        change (if x = 10 ∨ x = 255 then _ else _) = _
        have hnot : ¬ (x = 10 ∨ x = 255) := fun hor => hor.elim hx (hplain x List.mem_cons_self)
        rw [if_neg hnot]
        refine hy.trans ?_
        have hlay := lay_lay s.inputBuffer p [x] (w.takeWhile (· ≠ 10) ++ [y])
        rw [List.length_singleton] at hlay
        dsimp only
        rw [hlay, Nat.add_sub_add_right, Nat.add_assoc, Nat.add_comm 1]
        rfl

/-- The loop of `get_line` ends in the middle of a line for which there is no room. -/
lemma lineLoop_short : ∀ {k p : ℕ} {t : List UInt8} {s : RuleInput}, s.lineLookhead = firstChar t →
    s.file = t.tail → (∀ x ∈ t.takeWhile (· ≠ 10), x ≠ 255) → k ≤ (t.takeWhile (· ≠ 10)).length →
    p + k ≤ maxRuleSize → ∃ s', s.lineLoop k p = .ok (0, p + k, s') := by
  intro k
  induction k with
  | zero => exact fun _ _ _ _ _ => ⟨_, rfl⟩
  | succ k ih =>
    intro p t s hline hfile hplain hk hp
    rw [lineLoop_succ hline hfile (by omega)]
    rcases t with - | ⟨x, w⟩
    · exact absurd hk (Nat.not_succ_le_zero _)
    · by_cases hx : x = 10
      · subst hx
        exact absurd hk (Nat.not_succ_le_zero _)
      · have htake : (x :: w).takeWhile (· ≠ 10) = x :: w.takeWhile (· ≠ 10) :=
          List.takeWhile_cons_of_pos (by simpa using hx)
        rw [htake] at hplain hk
        obtain ⟨s', hs'⟩ := ih (p := p + 1) (t := w) (s := { s with
          inputBuffer := lay s.inputBuffer p [x], lineLookhead := firstChar w, file := w.tail })
          rfl rfl (fun c hc => hplain c (List.mem_cons_of_mem _ hc)) (Nat.le_of_succ_le_succ hk)
            (by omega)
        refine ⟨s', ?_⟩
        change (if x = 10 ∨ x = 255 then _ else _) = _
        have hnot : ¬ (x = 10 ∨ x = 255) := fun hor => hor.elim hx (hplain x List.mem_cons_self)
        rw [if_neg hnot]
        refine hs'.trans ?_
        rw [Nat.add_assoc, Nat.add_comm 1]

/-- The first character of a text that has one is not `EOF`. -/
lemma firstChar_ne (h : t ≠ []) : firstChar t ≠ -1 := by
  rcases t with - | ⟨x, w⟩
  · exact absurd rfl h
  · change (x.toNat : ℤ) ≠ -1
    omega

/-- `get_line` reads a line that there is room for, and stops at the first character of the next
one. -/
lemma getLine_eq (h : s.Pending t) (hne : t ≠ []) (hplain : ∀ x ∈ t.takeWhile (· ≠ 10), x ≠ 255)
    (hroom : ((t.takeWhile (· ≠ 10)).length : ℤ) + 2 ≤ n) (hp : p + n ≤ maxRuleSize) :
    s.getLine p n = .ok (firstChar (dropLine 10 t), p + (t.takeWhile (· ≠ 10)).length,
      { s with
        inputBuffer := lay s.inputBuffer p (t.takeWhile (· ≠ 10) ++ [0])
        lineLookhead := firstChar (dropLine 10 t)
        file := (dropLine 10 t).tail }) := by
  obtain ⟨x, hx⟩ := lineLoop_eq (k := (n - 1).toNat) (p := p) (t := t)
    (s := { s with lineLookhead := firstChar t, file := t.tail }) rfl rfl hplain (by omega)
    (by omega)
  unfold RuleInput.getLine
  rw [h]
  dsimp only
  rw [if_pos ⟨by omega, firstChar_ne hne⟩, hx]
  simp only [Bind.bind, Except.bind]
  rw [RuleInput.write, if_pos (by omega)]
  dsimp only
  rw [if_neg (by omega), lay_overwrite]

/-- `get_line` returns `EOF` at the end of the file. -/
lemma getLine_eof (h : s.Pending []) (hpos : 0 < n) :
    s.getLine p n = .ok (-1, p, { s with lineLookhead := -1, file := [] }) := by
  unfold RuleInput.getLine
  rw [h]
  dsimp only
  rw [if_neg fun hand => hand.2 rfl, if_neg (by omega)]
  rfl

/-- `get_line` says that there is no room for the line. -/
lemma getLine_long (h : s.Pending t) (hne : t ≠ []) (hplain : ∀ x ∈ t.takeWhile (· ≠ 10), x ≠ 255)
    (hroom : n < ((t.takeWhile (· ≠ 10)).length : ℤ) + 2) (hp : p + n ≤ maxRuleSize) :
    ∃ p' s', s.getLine p n = .ok (0, p', s') := by
  unfold RuleInput.getLine
  rw [h]
  dsimp only
  by_cases hpos : 0 < n
  · obtain ⟨s', hs'⟩ := lineLoop_short (k := (n - 1).toNat) (p := p) (t := t)
      (s := { s with lineLookhead := firstChar t, file := t.tail }) rfl rfl hplain (by omega)
      (by omega)
    rw [if_pos ⟨hpos, firstChar_ne hne⟩, hs']
    simp only [Bind.bind, Except.bind]
    rw [RuleInput.write, if_pos (by omega)]
    exact ⟨_, _, rfl⟩
  · rw [if_neg fun hand => hpos hand.1, if_pos (by omega)]
    exact ⟨_, _, rfl⟩

/-! ## The lines of a text -/

/-- A line that is continued by a plain line is plain text together with it. -/
lemma plainLine_append {l l' : List UInt8} (h : PlainLine l) (h' : PlainLine l') :
    PlainLine (l ++ 10 :: l') := by
  intro x hx
  rcases List.mem_append.mp hx with hx | hx
  · exact h x hx
  · rcases List.mem_cons.mp hx with rfl | hx
    · decide
    · exact h' x hx

/-- The first character that is seen behind a line: that of the next line, a newline, or `EOF`. -/
def lookheadOf : List (List UInt8) → ℤ
  | [] => -1
  | [] :: _ => 10
  | (x :: _) :: _ => x.toNat

/-- `lookhead` is the first character of the first line that is left. -/
lemma firstChar_eq (t : List UInt8) : firstChar t = lookheadOf (lines 10 t) := by
  rcases t with - | ⟨x, w⟩
  · rfl
  · rw [lines_of_ne_nil (List.cons_ne_nil x w)]
    by_cases hx : x = 10
    · subst hx
      rfl
    · rw [List.takeWhile_cons_of_pos (by simpa using hx)]
      rfl

/-- The data behind a call that has read the lines of the text in front of `t`. -/
structure Shown (s : RuleInput) (r t : List UInt8) : Prop where
  /-- The buffer holds the rule. -/
  text : s.text = r
  /-- The rest of the text is still to be read. -/
  pending : s.Pending t
  /-- The lookahead of `get_expr`. -/
  look : s.exprLookhead = firstChar t

/-- The string in a buffer that has been written is what was written. -/
lemma text_lay {r : List UInt8} (hbuf : s.inputBuffer = lay f 0 (r ++ [0]))
    (hplain : ∀ x ∈ r, x ≠ 0) (hlen : r.length < maxRuleSize) : s.text = r := by
  obtain ⟨l, hl⟩ : ∃ l, l = (List.range maxRuleSize).map s.inputBuffer := ⟨_, rfl⟩
  have hsize : l.length = maxRuleSize := by rw [hl, List.length_map, List.length_range]
  have hget : ∀ i (hi : i < l.length), i < r.length + 1 → l[i] = (r ++ [0]).getD i 0 := by
    intro i hi hlt
    have hin : i < (r ++ [0]).length := by rw [List.length_append]; exact hlt
    have happly := lay_apply (f := f) (p := 0) hin
    rw [Nat.zero_add] at happly
    simp only [hl, List.getElem_map, List.getElem_range, hbuf]
    rw [happly, List.getD_eq_getElem _ _ hin]
  have htake : l.take r.length = r := by
    refine List.ext_getElem (by rw [List.length_take]; omega) fun i hi hi' => ?_
    rw [List.getElem_take, hget i (by omega) (by omega), List.getD_append _ _ _ _ hi',
      List.getD_eq_getElem _ _ hi']
  have hdrop : l.drop r.length = 0 :: l.drop (r.length + 1) := by
    rw [List.drop_eq_getElem_cons (by omega), hget _ (by omega) (Nat.lt_succ_self _),
      List.getD_append_right _ _ _ _ (Nat.le_refl _), Nat.sub_self]
    rfl
  unfold RuleInput.text
  rw [← hl, ← List.take_append_drop r.length l, htake, hdrop,
    List.takeWhile_append_of_pos fun x hx => decide_eq_true
    (hplain x hx), List.takeWhile_cons_of_neg (by simp), List.append_nil]

/-! ## The loop of `get_expr` -/

variable {r l c : List UInt8} {ls cs es rest : List (List UInt8)} {fuel : ℕ} {spaceLeft : ℤ}

/-- The data behind a line that has been read into the buffer. -/
def RuleInput.behind (s : RuleInput) (p : ℕ) (w t : List UInt8) : RuleInput :=
  { s with
    inputBuffer := lay s.inputBuffer p w
    file := t.tail
    lineLookhead := firstChar t }

/-- A turn of the loop of `get_expr` reads a line and looks at the first character of the next
one. -/
lemma exprLoop_line (h : s.Pending t) (hl : lines 10 t = l :: ls) (hplain : PlainLine l)
    (hroom : l.length + 3 ≤ spaceLeft) (hp : p + spaceLeft ≤ maxRuleSize + 1) :
    s.exprLoop (fuel + 1) p spaceLeft =
      let s' := { s.behind p (l ++ [0]) (dropLine 10 t) with exprLookhead := lookheadOf ls }
      if lookheadOf ls = -1 then .ok s'
      else if lookheadOf ls = 0 then .error .tooLong
      else
        let s' := { s' with actualLineno := s.actualLineno + 1 }
        if s'.inputBuffer 0 = 0 then s'.exprLoop fuel (p + l.length) spaceLeft
        else if isspace (lookheadOf ls).toNat then do
          let s' ← s'.write (p + l.length) 10
          s'.exprLoop fuel (p + l.length + 1) (maxRuleSize - (p + l.length : ℕ))
        else .ok s' := by
  obtain ⟨hne, rfl, rfl⟩ := lines_eq_cons hl
  have hline :=
    getLine_eq h hne (fun x hx => (hplain x hx).2) (n := spaceLeft - 1) (p := p) (by omega)
      (by omega)
  rw [RuleInput.exprLoop, hline, ← firstChar_eq]
  simp only [Bind.bind, Except.bind]
  rfl

/-- When there is no room for the line, the loop of `get_expr` ends with the error that the rule is
too long. -/
lemma exprLoop_long (h : s.Pending t) (hl : lines 10 t = l :: ls) (hplain : PlainLine l)
    (hroom : spaceLeft < l.length + 3) (hp : p + spaceLeft ≤ maxRuleSize + 1) :
    s.exprLoop (fuel + 1) p spaceLeft = .error .tooLong := by
  obtain ⟨hne, rfl, rfl⟩ := lines_eq_cons hl
  obtain ⟨p', s', hline⟩ :=
    getLine_long h hne (fun x hx => (hplain x hx).2) (n := spaceLeft - 1) (p := p) (by omega)
    (by omega)
  rw [RuleInput.exprLoop, hline]
  rfl

/-- At the end of the file the loop of `get_expr` ends. -/
lemma exprLoop_eof (h : s.Pending []) (hpos : 1 < spaceLeft) : s.exprLoop (fuel + 1) p spaceLeft =
    .ok { s with lineLookhead := -1, file := [], exprLookhead := -1 } := by
  rw [RuleInput.exprLoop, getLine_eof h (by omega)]
  rfl

/-- Whether a line continues the one before it is seen by its first character. -/
lemma continues_eq (l : List UInt8) (ls : List (List UInt8)) :
    continues l = isspace (lookheadOf (l :: ls)).toNat := by
  rcases l with - | ⟨x, w⟩ <;> rfl

/-- When there is another line, the character that is seen ahead is not `EOF`. -/
lemma lookheadOf_cons_ne (l : List UInt8) (ls : List (List UInt8)) : lookheadOf (l :: ls) ≠ -1 := by
  rcases l with - | ⟨x, w⟩
  · exact of_decide_eq_true rfl
  · change (x.toNat : ℤ) ≠ -1
    omega

/-- The last line of a rule ends the loop, and the rule is in the buffer. -/
lemma exprLoop_end (fuel : ℕ) (h : s.Pending t) (hl : lines 10 t = l :: ls) (hplain : PlainLine l)
    (hroom : l.length + 3 ≤ spaceLeft) (hp : p + spaceLeft ≤ maxRuleSize + 1)
    (hfirst : lay s.inputBuffer p (l ++ [0]) 0 ≠ 0) (hstop : ∀ c ∈ ls.head?, continues c = false)
    (hnul : lookheadOf ls ≠ 0) : ∃ s', s.exprLoop (fuel + 1) p spaceLeft = .ok s' ∧
    s'.inputBuffer = lay s.inputBuffer p (l ++ [0]) ∧
      s'.Pending (dropLine 10 t) ∧ s'.exprLookhead = lookheadOf ls := by
  have hfirstChar : firstChar (dropLine 10 t) ≠ 0 := by
    rw [firstChar_eq, (lines_eq_cons hl).2.2]
    exact hnul
  rw [exprLoop_line h hl hplain hroom hp]
  dsimp only
  rcases ls with - | ⟨c, cs⟩
  · have hend : lookheadOf ([] : List (List UInt8)) = -1 := rfl
    rw [if_pos hend]
    exact ⟨_, rfl, rfl, if_neg hfirstChar, rfl⟩
  · have hspace : ¬ isspace (lookheadOf (c :: cs)).toNat = true := by
      rw [← continues_eq, hstop c rfl]
      exact Bool.false_ne_true
    have hbuf : (s.behind p (l ++ [0]) (dropLine 10 t)).inputBuffer 0 ≠ 0 := hfirst
    rw [if_neg (lookheadOf_cons_ne c cs), if_neg hnul, if_neg hbuf, if_neg hspace]
    exact ⟨_, rfl, rfl, if_neg hfirstChar, rfl⟩

/-- A line that is continued is put in front of the next one, with a newline between them. -/
lemma exprLoop_next (fuel : ℕ) (h : s.Pending t) (hl : lines 10 t = l :: c :: cs)
    (hplain : PlainLine l) (hroom : l.length + 3 ≤ spaceLeft) (hp : p + spaceLeft ≤ maxRuleSize + 1)
    (hfirst : lay s.inputBuffer p (l ++ [0]) 0 ≠ 0) (hcont : continues c = true) : ∃ s' : RuleInput,
      s.exprLoop (fuel + 1) p spaceLeft = s'.exprLoop fuel (p + l.length + 1)
      (maxRuleSize - (p + l.length : ℕ)) ∧
        s'.inputBuffer = lay s.inputBuffer p (l ++ [10]) ∧ s'.Pending (dropLine 10 t) := by
  have hspace : isspace (lookheadOf (c :: cs)).toNat = true := by rw [← continues_eq, hcont]
  have hnul : lookheadOf (c :: cs) ≠ 0 := fun hzero => by
    rw [hzero] at hspace
    exact absurd hspace (by decide)
  have hfirstChar : firstChar (dropLine 10 t) ≠ 0 := by
    rw [firstChar_eq, (lines_eq_cons hl).2.2]
    exact hnul
  have hbuf : (s.behind p (l ++ [0]) (dropLine 10 t)).inputBuffer 0 ≠ 0 := hfirst
  rw [exprLoop_line h hl hplain hroom hp]
  dsimp only
  rw [if_neg (lookheadOf_cons_ne c cs), if_neg hnul, if_neg hbuf, if_pos hspace, RuleInput.write,
    if_pos (by omega)]
  refine ⟨_, rfl, ?_, if_neg hfirstChar⟩
  exact lay_overwrite s.inputBuffer p l 0 10

/-- An empty line in front of a rule is skipped. -/
lemma exprLoop_skip (fuel : ℕ) (h : s.Pending t) (hl : lines 10 t = [] :: c :: cs)
    (hnul : lookheadOf (c :: cs) ≠ 0) : ∃ s' :
    RuleInput, s.exprLoop (fuel + 1) 0 maxRuleSize = s'.exprLoop fuel 0 maxRuleSize ∧
      s'.Pending (dropLine 10 t) := by
  have hfirstChar : firstChar (dropLine 10 t) ≠ 0 := by
    rw [firstChar_eq, (lines_eq_cons hl).2.2]
    exact hnul
  have hsize : maxRuleSize = 20480 := rfl
  rw [exprLoop_line h hl (fun x hx => by cases hx) (by rw [List.length_nil]; omega) (by omega)]
  dsimp only
  rw [if_neg (lookheadOf_cons_ne c cs), if_neg hnul]
  exact ⟨_, if_pos rfl, if_neg hfirstChar⟩

/-- The first character of a plain text that has been laid is not the null character. -/
lemma lay_first {w' : List UInt8} (hne : w ≠ []) (hplain : PlainLine w) :
    lay f 0 (w ++ w') 0 ≠ 0 := by
  have hpos : 0 < w.length := List.length_pos_of_ne_nil hne
  have happly :=
    lay_apply (f := f) (p := 0) (w := w ++ w') (i := 0) (by rw [List.length_append]; omega)
  rw [Nat.zero_add] at happly
  rw [happly, List.getElem_append_left hpos]
  exact (hplain _ (List.getElem_mem hpos)).1

/-- The lines behind the first one of a rule are appended to it, each behind a newline. -/
lemma exprLoop_continue : ∀ {cs : List (List UInt8)} {c : List UInt8} {r t : List UInt8}
    {s : RuleInput} {fuel : ℕ}, s.inputBuffer = lay f 0 (r ++ [10]) → s.Pending t →
    lines 10 t = c :: (cs ++ rest) → r ≠ [] → PlainLine r → PlainLine c →
    (∀ c' ∈ cs, PlainLine c' ∧ continues c' = true) → (∀ c' ∈ rest.head?, continues c' = false) →
    lookheadOf rest ≠ 0 → r.length + 2 ≤ maxRuleSize → cs.length < fuel →
    let whole := r ++ (c :: cs).flatMap ((10 : UInt8) :: ·)
    (whole.length + 2 ≤ maxRuleSize →
      ∃ s' t', s.exprLoop fuel (r.length + 1) (maxRuleSize - r.length) = .ok s' ∧
        Shown s' whole t' ∧ lines 10 t' = rest) ∧
    (maxRuleSize < whole.length + 2 → s.exprLoop fuel (r.length + 1) (maxRuleSize - r.length) =
        .error .tooLong) := by
  intro cs
  induction cs with
  | nil =>
    intro c r t s fuel hbuf h hl hr hplainR hplain _ hstop hnul hlen hfuel
    obtain ⟨fuel, rfl⟩ := Nat.exists_eq_add_of_lt hfuel
    rw [List.length_nil, Nat.zero_add]
    dsimp only
    have hflat : [c].flatMap ((10 : UInt8) :: ·) = 10 :: c := by simp
    have hlay : lay s.inputBuffer (r.length + 1) (c ++ [0]) = lay f 0 (r ++ 10 :: c ++ [0]) := by
      have hlast := lay_lay f 0 (r ++ [10]) (c ++ [0])
      rw [List.length_append, List.length_singleton, Nat.zero_add] at hlast
      rw [hbuf, hlast]
      congr 1
      simp
    have hplainW := plainLine_append hplainR hplain
    rw [hflat, List.length_append, List.length_cons]
    constructor
    · intro hroom
      have hfirst : lay s.inputBuffer (r.length + 1) (c ++ [0]) 0 ≠ 0 := by
        rw [hlay, List.append_assoc]
        exact lay_first hr hplainR
      have hroom' : (c.length : ℤ) + 3 ≤ maxRuleSize - r.length := by omega
      obtain ⟨s', hrun, hbuf', hpending, hlook⟩ :=
        exprLoop_end (p := r.length + 1) fuel h hl hplain hroom' (by omega)
        hfirst hstop hnul
      refine ⟨s', _, hrun, ⟨?_, hpending, ?_⟩, (lines_eq_cons hl).2.2⟩
      · refine text_lay (hbuf'.trans hlay) (fun x hx => (hplainW x hx).1) ?_
        rw [List.length_append, List.length_cons]
        omega
      · rw [hlook, firstChar_eq, (lines_eq_cons hl).2.2]
    · intro hlong
      exact exprLoop_long h hl hplain (by omega) (by omega)
  | cons c' cs ih =>
    intro c r t s fuel hbuf h hl hr hplainR hplain hcs hstop hnul hlen hfuel
    rcases fuel with - | fuel
    · exact absurd hfuel (Nat.not_lt_zero _)
    rw [List.length_cons] at hfuel
    have hlay :
        ∀ x, lay s.inputBuffer (r.length + 1) (c ++ [x]) = lay f 0 ((r ++ 10 :: c) ++ [x]) :=
          fun x => by
      have hlast := lay_lay f 0 (r ++ [10]) (c ++ [x])
      rw [List.length_append, List.length_singleton, Nat.zero_add] at hlast
      rw [hbuf, hlast]
      congr 1
      simp
    have hwhole : r ++ (c :: c' :: cs).flatMap ((10 : UInt8) :: ·) =
        (r ++ 10 :: c) ++ (c' :: cs).flatMap ((10 : UInt8) :: ·) := by
      simp only [List.flatMap_cons, List.cons_append, List.append_assoc]
    have hlength : (r ++ 10 :: c).length = r.length + 1 + c.length := by
      rw [List.length_append, List.length_cons]
      omega
    obtain ⟨hplain', hcont⟩ := hcs c' List.mem_cons_self
    dsimp only
    rw [hwhole]
    by_cases hroom : r.length + 1 + c.length + 2 ≤ maxRuleSize
    · have hfirst : lay s.inputBuffer (r.length + 1) (c ++ [0]) 0 ≠ 0 := by
        rw [hlay, List.append_assoc]
        exact lay_first hr hplainR
      have hroom' : (c.length : ℤ) + 3 ≤ maxRuleSize - r.length := by omega
      obtain ⟨s', hrun, hbuf', hpending⟩ :=
        exprLoop_next (p := r.length + 1) fuel h hl hplain hroom' (by omega) hfirst
        hcont
      have hfuel' : cs.length < fuel := Nat.lt_of_succ_lt_succ hfuel
      have hih :=
        ih (hbuf'.trans (hlay 10)) hpending (lines_eq_cons hl).2.2 (by simp)
          (plainLine_append hplainR hplain)
        hplain' (fun d hd => hcs d (List.mem_cons_of_mem _ hd)) hstop hnul (by omega) hfuel'
      rw [hlength] at hih
      rw [hrun]
      exact hih
    · refine ⟨fun hfit => ?_, fun _ => exprLoop_long h hl hplain (by omega) (by omega)⟩
      rw [List.length_append, hlength] at hfit
      omega

/-- There is a line behind empty lines, and `lookhead` is not a NUL. -/
lemma exists_next {x : UInt8} (hx : x ≠ 0) (hes : ∀ e ∈ es, e = []) :
    ∃ d ds, es ++ (x :: w) :: rest = d :: ds ∧ lookheadOf (d :: ds) ≠ 0 := by
  rcases es with - | ⟨e, es⟩
  · refine ⟨_, _, rfl, ?_⟩
    change (x.toNat : ℤ) ≠ 0
    exact fun hzero => hx (UInt8.toNat_inj.mp (by exact_mod_cast hzero))
  · obtain rfl := hes e List.mem_cons_self
    exact ⟨[], _, rfl, (by decide : (10 : ℤ) ≠ 0)⟩

/-- A rule is read with its lines, and the empty lines in front of it are skipped. -/
lemma exprLoop_group : ∀ {es : List (List UInt8)} {t : List UInt8} {s : RuleInput}
    {fuel : ℕ}, s.Pending t → lines 10 t = es ++ l :: (cs ++ rest) → (∀ e ∈ es, e = []) → l ≠ [] →
    PlainLine l → (∀ c ∈ cs, PlainLine c ∧ continues c = true) →
    (∀ c ∈ rest.head?, continues c = false) → lookheadOf rest ≠ 0 → es.length + cs.length < fuel →
    (FitsRule (l :: cs) → ∃ s' t', s.exprLoop fuel 0 maxRuleSize = .ok s' ∧
    Shown s' (joined 10 (l :: cs)) t' ∧
      lines 10 t' = rest) ∧
    (¬ FitsRule (l :: cs) → s.exprLoop fuel 0 maxRuleSize = .error .tooLong) := by
  intro es
  induction es with
  | nil =>
    intro t s fuel h hl _ hne hplain hcs hstop hnul hfuel
    rcases fuel with - | fuel
    · exact absurd hfuel (Nat.not_lt_zero _)
    have hsize : maxRuleSize = 20480 := rfl
    rw [List.length_nil, Nat.zero_add] at hfuel
    rw [List.nil_append] at hl
    unfold FitsRule
    rw [joined_cons]
    have hfirst : lay s.inputBuffer 0 (l ++ [0]) 0 ≠ 0 := lay_first hne hplain
    rcases cs with - | ⟨c, cs⟩
    · rw [List.flatMap_nil, List.append_nil]
      constructor
      · intro hfits
        have hroom : l.length + 3 ≤ maxRuleSize :=
          hfits.resolve_right fun hand => Nat.lt_irrefl _ hand.1
        have hroom' : (l.length : ℤ) + 3 ≤ maxRuleSize := by omega
        obtain ⟨s', hrun, hbuf', hpending, hlook⟩ :=
          exprLoop_end (p := 0) fuel h hl hplain hroom' (by omega) hfirst
          hstop hnul
        refine ⟨s', _, hrun, ⟨text_lay hbuf' (fun x hx => (hplain x hx).1) (by omega), hpending,
          ?_⟩, (lines_eq_cons hl).2.2⟩
        rw [hlook, firstChar_eq, (lines_eq_cons hl).2.2]
      · intro hnot
        exact exprLoop_long h hl hplain (by omega) (by omega)
    · obtain ⟨hplain', hcont⟩ := hcs c List.mem_cons_self
      have hpos : 1 ≤ ((c :: cs).flatMap ((10 : UInt8) :: ·)).length := by
        rw [List.flatMap_cons, List.length_append, List.length_cons]
        omega
      by_cases hroom : l.length + 3 ≤ maxRuleSize
      · have hroom' : (l.length : ℤ) + 3 ≤ maxRuleSize := by omega
        obtain ⟨s', hrun, hbuf', hpending⟩ :=
          exprLoop_next (p := 0) fuel h hl hplain hroom' (by omega) hfirst hcont
        have hfuel' : cs.length < fuel := Nat.lt_of_succ_lt_succ hfuel
        have hrest := exprLoop_continue hbuf' hpending (lines_eq_cons hl).2.2 hne hplain hplain'
          (fun d hd => hcs d (List.mem_cons_of_mem _ hd)) hstop hnul (by omega) hfuel'
        rw [Nat.zero_add] at hrun
        rw [hrun]
        refine ⟨fun hfits => hrest.1 ?_, fun hnot => hrest.2 ?_⟩
        · rcases hfits with hfits | hfits
          · omega
          · exact hfits.2
        · refine Nat.lt_of_not_le fun hle => hnot (.inr ⟨?_, hle⟩)
          rw [List.length_cons, List.length_cons]
          omega
      · refine ⟨fun hfits => ?_, fun _ => exprLoop_long h hl hplain (by omega) (by omega)⟩
        rw [List.length_append] at hfits
        omega
  | cons e es ih =>
    intro t s fuel h hl hes hne hplain hcs hstop hnul hfuel
    rcases fuel with - | fuel
    · exact absurd hfuel (Nat.not_lt_zero _)
    obtain rfl := hes e List.mem_cons_self
    rw [List.length_cons] at hfuel
    obtain ⟨d, ds, hd, hnul'⟩ : ∃ d ds, es ++ l :: (cs ++ rest) = d :: ds ∧
        lookheadOf (d :: ds) ≠ 0 := by
      rcases l with - | ⟨x, w⟩
      · exact absurd rfl hne
      · exact exists_next (hplain x List.mem_cons_self).1 fun e he =>
          hes e (List.mem_cons_of_mem _ he)
    have hl' : lines 10 t = [] :: d :: ds := by rw [hl, List.cons_append, hd]
    obtain ⟨s', hrun, hpending⟩ := exprLoop_skip fuel h hl' hnul'
    rw [hrun]
    refine ih hpending ?_ (fun e he => hes e (List.mem_cons_of_mem _ he)) hne hplain hcs hstop hnul
      (by omega)
    rw [(lines_eq_cons hl').2.2, hd]

end Lex
