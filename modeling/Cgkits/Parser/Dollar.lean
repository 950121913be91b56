import Cgkits.Parser.Acts

/-!
# References to attributes (`yydollar.c`, `print_one_case`)

The code of an action is copied to the output, and every `$` in it is replaced by a reference to a
value: `$$` by the value of the left-hand side, `$1`, `$2`, ... by a cell of the value stack.  The
field of the value may be given between the `$` and the number.

The text of the reference is built in a buffer that keeps its contents from one reference to the
next, so that a number that is too large prints the reference in front of it once more.
`doDollar_yyvsp` says which cell a number refers to, and `printAction_ref` that the text of the
action is scanned as it is meant.
-/

namespace Parser

/-- `DOLLAR_DOLLAR`, the number that stands for `$$`. -/
def dollarDollar : ℤ := 2 ^ 31 - 1

/-- `DEF_FIELD`, the field for symbols without one. -/
def defField : Lexeme := "yy_def".toList

/-- A message of `do_dollar` about a reference that is not in order. -/
inductive DollarError
  /-- No `<field>` assigned to `$$`. -/
  | noFieldLhs (lineno : ℕ)
  /-- Illegal `$N` in production. -/
  | illegal (lineno : ℕ) (num : ℤ)
  /-- Can't use `%union` field with negative attributes. -/
  | negative
  /-- No `<field>` assigned to `$N`. -/
  | noField (lineno : ℕ) (num : ℤ)
deriving DecidableEq

/-- What `do_dollar` reads from the production: the fields of its symbols. -/
structure DollarEnv where
  /-- `fields_active()`: there is a `%union`. -/
  fieldsActive : Bool
  /-- `prod->lhs->field`, the field of the left-hand side. -/
  lhsField : Lexeme
  /-- `prod->rhs[i]->field`, the fields of the right-hand side. -/
  rhsField : ℕ → Lexeme

/-- A number as `printf` prints it for `%d`. -/
def decimal (n : ℤ) : Lexeme := if n < 0 then '-' :: Nat.toDigits 10 n.natAbs else
    Nat.toDigits 10 n.natAbs

/-- `.%s`: the text for a field behind the reference. -/
def dotField (field : Lexeme) : Lexeme := '.' :: field

/-- `do_dollar`: the new contents of the buffer, and the messages. -/
def doDollar (env : DollarEnv) (num rhsSize : ℤ) (lineno : ℕ) (fname buf : Lexeme) :
    Lexeme × List DollarError :=
  if num = dollarDollar then
    if fname ≠ [] then ("Yy_val".toList ++ dotField fname, [])
    else if env.fieldsActive then
      if env.lhsField ≠ [] then ("Yy_val".toList ++ dotField env.lhsField, [])
      else ("Yy_val".toList ++ dotField defField, [.noFieldLhs lineno])
    else ("Yy_val".toList, [])
  else
    let num := if num < 0 then num + 1 else num
    if rhsSize < 0 then ("Yy_vsp[ Yy_rhslen-".toList ++ decimal num ++ " ]".toList, [])
    else
      let i := rhsSize - num
      if i < 0 then (buf, [.illegal lineno num])
      else
        let buf := "yyvsp[".toList ++ decimal i ++ "]".toList
        if fname ≠ [] then (buf ++ dotField fname, [])
        else if env.fieldsActive then
          if num ≤ 0 then (buf, [.negative])
          else if env.rhsField (num - 1).toNat ≠ [] then
            (buf ++ dotField (env.rhsField (num - 1).toNat), [])
          else (buf ++ dotField defField, [.noField lineno num])
        else (buf, [])

/-- `isspace` in the C locale: a blank, or a control character from tab to carriage return. -/
def isSpace (c : Char) : Bool := c = ' ' ∨ ('\t' ≤ c ∧ c ≤ '\r')

/-- `atoi`, for a number that an `int` can hold. -/
def atoi (text : Lexeme) : ℤ :=
  let text := text.dropWhile isSpace
  let digits := fun l : Lexeme => (Nat.ofDigitChars 10 (l.takeWhile Char.isDigit) 0 : ℤ)
  match text with
  | '-' :: rest => -digits rest
  | '+' :: rest => digits rest
  | rest => digits rest

/-- The field of a reference, `<fname>`, and the text behind it.  At most 79 characters are
copied. -/
def takeField (action : Lexeme) : Lexeme × Lexeme :=
  let fname := (action.take 79).takeWhile fun c => c ≠ '>'
  let rest := action.drop fname.length
  (fname, if rest.head? = some '>' then rest.tail else rest)

/-- The text behind a number, which may have a minus sign. -/
def dropNumber (action : Lexeme) : Lexeme :=
  (if action.head? = some '-' then action.tail else action).dropWhile Char.isDigit

/-- The text behind a `$`: the number and the field of the reference, and the rest. -/
def takeRef (action : Lexeme) : ℤ × Lexeme × Lexeme :=
  let (fname, action) := if action.head? = some '<' then takeField action.tail else ([], action)
  if action.head? = some '$' then (dollarDollar, fname, action.tail) else
    (atoi action, fname, dropNumber action)

/-- What has been printed so far, with the buffer and the messages. -/
structure Printed where
  /-- The text that has been printed. -/
  out : Lexeme
  /-- The buffer of `do_dollar`. -/
  buf : Lexeme
  /-- The messages that have been reported. -/
  errors : List DollarError
deriving DecidableEq

/-- The loop of `print_one_case` over the text of an action. -/
def printAction (env : DollarEnv) (rhsSize : ℤ) (lineno : ℕ) : ℕ → Lexeme → Printed → Printed
  | 0, _, st => st
  | _ + 1, [], st => st
  | fuel + 1, c :: action, st =>
    if c ≠ '$' then printAction env rhsSize lineno fuel action { st with out := st.out ++ [c] }
    else
      let (num, fname, rest) := takeRef action
      let (buf, errors) := doDollar env num rhsSize lineno fname st.buf
      printAction env rhsSize lineno fuel rest ⟨st.out ++ buf, buf, st.errors ++ errors⟩

/-! ## The cell of a reference -/

/-- The text `yyvsp[i]`, which refers to a cell of the value stack. -/
def yyvspText (i : ℕ) : Lexeme := "yyvsp[".toList ++ Nat.toDigits 10 i ++ "]".toList

variable {env : DollarEnv} {lineno j k : ℕ}

/-- A number between 1 and the number of symbols refers to a cell of the value stack, whatever the
buffer holds. -/
lemma doDollar_yyvsp (env : DollarEnv) (lineno : ℕ) (fname buf : Lexeme) (hj : 1 ≤ j) (hjk : j ≤ k)
    (hk : k ≤ maxRhs) :
    ∃ field, (doDollar env j k lineno fname buf).1 = yyvspText (k - j) ++ field := by
  have hne : (j : ℤ) ≠ dollarDollar := by
    unfold dollarDollar
    unfold maxRhs at hk
    omega
  have hcell : decimal ((k : ℤ) - j) = Nat.toDigits 10 (k - j) := by
    unfold decimal
    rw [if_neg (by omega)]
    exact congrArg (Nat.toDigits 10) (by omega)
  unfold doDollar yyvspText
  rw [if_neg hne]
  dsimp only
  rw [if_neg (show ¬ (j : ℤ) < 0 by omega), if_neg (show ¬ (k : ℤ) < 0 by omega),
    if_neg (show ¬ (k : ℤ) - j < 0 by omega), hcell]
  split
  · exact ⟨_, rfl⟩
  · split
    · rw [if_neg (show ¬ (j : ℤ) ≤ 0 by omega)]
      split
      · exact ⟨_, rfl⟩
      · exact ⟨_, rfl⟩
    · exact ⟨[], (List.append_nil _).symm⟩

/-! ## Scanning -/

/-- The digits in front of text that does not begin with a digit. -/
lemma takeWhile_digits (n : ℕ) {rest : Lexeme} (hrest : ∀ c ∈ rest.head?, c.isDigit = false) :
    (Nat.toDigits 10 n ++ rest).takeWhile Char.isDigit = Nat.toDigits 10 n ∧
      (Nat.toDigits 10 n ++ rest).dropWhile Char.isDigit = rest := by
  have hdigits : ∀ c ∈ Nat.toDigits 10 n, c.isDigit = true :=
    fun c hc => Nat.isDigit_of_mem_toDigits (by decide) (by decide) hc
  have hstop : rest.takeWhile Char.isDigit = [] ∧ rest.dropWhile Char.isDigit = rest := by
    rcases rest with _ | ⟨c, rest⟩
    · exact ⟨rfl, rfl⟩
    · have hc := hrest c rfl
      exact ⟨List.takeWhile_cons_of_neg (by simp [hc]), List.dropWhile_cons_of_neg (by simp [hc])⟩
  rw [List.takeWhile_append_of_pos hdigits, List.dropWhile_append_of_pos hdigits, hstop.1, hstop.2]
  exact ⟨List.append_nil _, rfl⟩

/-- A digit is no blank and none of the characters with a meaning. -/
lemma ne_of_isDigit {c : Char} (h : c.isDigit = true) : isSpace c = false ∧ c ≠ '-' ∧ c ≠ '+' ∧
    c ≠ '$' ∧ c ≠ '<' := by
  have hrange : '0' ≤ c ∧ c ≤ '9' := by
    simpa [Char.isDigit, Char.le_def] using h
  refine ⟨?_, ?_, ?_, ?_, ?_⟩
  · unfold isSpace
    rw [decide_eq_false_iff_not]
    rintro (rfl | ⟨-, hle⟩)
    · exact absurd hrange (by decide)
    · exact absurd (Char.le_trans hrange.1 hle) (by decide)
  all_goals
    rintro rfl
    exact absurd hrange (by decide)

/-- A number that is printed in decimal is read back. -/
lemma atoi_toDigits (n : ℕ) {rest : Lexeme} (hrest : ∀ c ∈ rest.head?, c.isDigit = false) :
    atoi (Nat.toDigits 10 n ++ rest) = n := by
  have htake := (takeWhile_digits n hrest).1
  obtain ⟨c, l, hl⟩ := List.exists_cons_of_ne_nil (Nat.toDigits_ne_nil : Nat.toDigits 10 n ≠ [])
  have hc : c.isDigit = true :=
    Nat.isDigit_of_mem_toDigits (b := 10) (n := n) (by decide) (by decide) (hl ▸ List.mem_cons_self)
  obtain ⟨hspace, hminus, hplus, -, -⟩ := ne_of_isDigit hc
  have hvalue : Nat.ofDigitChars 10 (Nat.toDigits 10 n) 0 = n := Nat.ofDigitChars_ten_toDigits
  unfold atoi
  rw [hl] at htake hvalue ⊢
  rw [List.cons_append, List.dropWhile_cons_of_neg (by simp [hspace])]
  dsimp only
  split
  · exact absurd (List.cons.inj ‹_›).1 hminus
  · exact absurd (List.cons.inj ‹_›).1 hplus
  · rw [← List.cons_append, htake, hvalue]

/-- A reference `$n` is scanned as the number `n` without a field. -/
lemma takeRef_toDigits (n : ℕ) {rest : Lexeme} (hrest : ∀ c ∈ rest.head?, c.isDigit = false) :
    takeRef (Nat.toDigits 10 n ++ rest) = (↑n, [], rest) := by
  obtain ⟨c, l, hl⟩ := List.exists_cons_of_ne_nil (Nat.toDigits_ne_nil : Nat.toDigits 10 n ≠ [])
  have hc : c.isDigit = true :=
    Nat.isDigit_of_mem_toDigits (b := 10) (n := n) (by decide) (by decide) (hl ▸ List.mem_cons_self)
  obtain ⟨-, hminus, -, hdollar, hless⟩ := ne_of_isDigit hc
  have hhead : (Nat.toDigits 10 n ++ rest).head? = some c := by
    rw [hl]
    rfl
  unfold takeRef dropNumber
  rw [hhead, if_neg (by simpa using hless)]
  dsimp only
  rw [hhead, if_neg (by simpa using hdollar), if_neg (by simpa using hminus), atoi_toDigits n hrest,
    (takeWhile_digits n hrest).2]

/-- A reference `$j` is replaced by the cell that it refers to. -/
theorem printAction_ref (env : DollarEnv) (lineno : ℕ) (fuel : ℕ) (st : Printed) {rest : Lexeme}
    (hj : 1 ≤ j) (hjk : j ≤ k) (hk : k ≤ maxRhs) (hrest : ∀ c ∈ rest.head?, c.isDigit = false) :
    ∃ field errors, printAction env k lineno (fuel + 1) ('$' :: (Nat.toDigits 10 j ++ rest)) st =
      printAction env k lineno fuel rest
        ⟨st.out ++ (yyvspText (k - j) ++ field), yyvspText (k - j) ++ field,
        st.errors ++ errors⟩ := by
  obtain ⟨field, hfield⟩ := doDollar_yyvsp env lineno [] st.buf hj hjk hk
  refine ⟨field, (doDollar env j k lineno [] st.buf).2, ?_⟩
  rw [← hfield]
  change (if '$' ≠ '$' then _ else _) = _
  rw [if_neg (not_not.mpr rfl), takeRef_toDigits j hrest]

end Parser
