import Cgkits.Lex.Advance
import Mathlib.Data.List.TakeWhile

/-!
# The expansion of macros

`expand` replaces the macros of a text by their bodies.  The analyzer does not do this: it reads the
bodies one after the other, with a stack of the positions to return to.  The result is the same as
long as nothing that belongs together is divided by the end of a body: a quote and the character
behind it, an escape sequence, the white space that ends the expression and the action behind it.
`Reader.Clean` is this condition on the state before a call, and `agree_calls` follows a run of the
analyzer whose calls meet it.
-/

namespace Lex

/-! ## Strings in memory -/

/-- Memory with a null character is a string, the null character and something else. -/
lemma exists_junk {mem : List ℕ} (h : 0 ∈ mem) : ∃ junk, mem = str mem ++ 0 :: junk := by
  induction mem with
  | nil => simp at h
  | cons c mem ih =>
    by_cases hc : c = 0
    · exact ⟨mem, by simp [str, hc]⟩
    · obtain ⟨junk, hj⟩ := ih ((List.mem_cons.mp h).resolve_left (Ne.symm hc))
      refine ⟨junk, ?_⟩
      have hstr : str (c :: mem) = c :: str mem := by simp [str, hc]
      rw [hstr, List.cons_append, ← hj]

/-- The string of a text that is followed by a null character. -/
lemma str_append {cur junk : List ℕ} (h : 0 ∉ cur) : str (cur ++ 0 :: junk) = cur := by
  unfold str
  rw [List.takeWhile_append_of_pos]
  · simp
  · intro c hc
    simpa using ne_of_mem_of_not_mem hc h

/-- A string ends in front of its null character and has none in it. -/
lemma zero_notMem_str (mem : List ℕ) : 0 ∉ str mem := by
  intro h
  simpa using List.mem_takeWhile_imp h

/-- The string behind some of its characters is what is left of it. -/
lemma str_drop {mem : List ℕ} {k : ℕ} (h : 0 ∈ mem) (hk : k ≤ (str mem).length) :
    str (mem.drop k) = (str mem).drop k ∧ 0 ∈ mem.drop k := by
  obtain ⟨junk, hj⟩ := exists_junk h
  have hdrop : mem.drop k = (str mem).drop k ++ 0 :: junk := by
    conv_lhs => rw [hj]
    rw [List.drop_append_of_le_length hk]
  rw [hdrop]
  exact ⟨str_append fun hmem => zero_notMem_str mem (List.mem_of_mem_drop hmem), by simp⟩

/-- The digits of a number end at the null character, whatever stands behind it. -/
lemma digits_append (isDigit : ℕ → Bool) (base : ℕ) (bin : ℕ → ℕ) (h0 : isDigit 0 = false) (n v : ℕ)
    (cur junk : List ℕ) :
    digits isDigit base bin n v (cur ++ 0 :: junk) = digits isDigit base bin n v (cur ++ [0]) := by
  induction cur generalizing n v with
  | nil =>
    cases n with
    | zero => rfl
    | succ n => simp [digits, h0]
  | cons c cur ih =>
    cases n with
    | zero => rfl
    | succ n => simp only [List.cons_append, digits, ih]

/-- An escape sequence ends at the null character, whatever stands behind it. -/
lemma sysEscTail_append (cur junk : List ℕ) :
    sysEscTail (cur ++ 0 :: junk) = sysEscTail (cur ++ [0]) := by
  cases cur with
  | nil => simp [sysEscTail]
  | cons c cur =>
    have hderef : deref (cur ++ 0 :: junk) = deref (cur ++ [0]) := by cases cur <;> rfl
    have hoct := digits_append isOctdigit 8 oct2bin rfl 3 0 (c :: cur) junk
    rw [List.cons_append, List.cons_append] at hoct
    simp only [List.cons_append, sysEscTail, hderef, digits_append isHexdigit 16 hex2bin rfl, hoct]

/-- Inside quotes a character is itself, but for a backslash in front of a quote. -/
lemma charAt_true (c : ℕ) (mem : List ℕ) :
    charAt true (c :: mem) = if c = 92 then deref mem >>= fun c' => if c' = 34 then .ok (34, 2) else
      .ok ((c : ℤ), 1)
      else .ok ((c : ℤ), 1) := rfl

/-- Outside quotes a character is read by `sys_esc`. -/
lemma charAt_false (mem : List ℕ) : charAt false mem = sysEsc mem := rfl

/-- A character ends at the null character, whatever stands behind it. -/
lemma charAt_append (inquote : Bool) {cur : List ℕ} (hne : cur ≠ []) (junk : List ℕ) :
    charAt inquote (cur ++ 0 :: junk) = charAt inquote (cur ++ [0]) := by
  obtain ⟨c, cur, rfl⟩ := List.exists_cons_of_ne_nil hne
  have hderef : deref (cur ++ 0 :: junk) = deref (cur ++ [0]) := by cases cur <;> rfl
  cases inquote with
  | true => rw [List.cons_append, List.cons_append, charAt_true, charAt_true, hderef]
  | false => simp only [charAt_false, List.cons_append, sysEsc, sysEscTail_append]

/-- Reading a character passes at least one place. -/
lemma charAt_pos {inquote : Bool} {mem : List ℕ} {x : ℤ} {k : ℕ}
    (h : charAt inquote mem = .ok (x, k)) : 1 ≤ k := by
  cases mem with
  | nil => cases inquote <;> cases h
  | cons c mem =>
    cases inquote with
    | true =>
      rw [charAt_true] at h
      split at h
      · obtain ⟨c', -, h⟩ := bind_eq_ok.mp h
        split at h <;> cases h <;> decide
      · cases h
        decide
    | false =>
      rw [charAt_false, sysEsc] at h
      split at h
      · cases h
        decide
      · obtain ⟨y, -, h⟩ := bind_eq_ok.mp h
        cases h
        omega

/-! ## What continues an escape sequence -/

/-- The character `c` behind an escape sequence would be read as a part of it: a further digit, or a
quote behind a backslash inside quotes. -/
def Continues (inquote : Bool) (esc : List ℕ) (c : ℕ) : Prop :=
  if inquote then esc = [92] ∧ c = 34
  else
    match esc with
    | 92 :: d :: ds =>
      if toupper d = 88 then ds.length < 3 ∧ isHexdigit c = true
      else isOctdigit d = true ∧ ds.length < 2 ∧ isOctdigit c = true
    | _ => False

/-- Digits that end with the string are the same digits in front of a character that is no digit. -/
lemma digits_of_alone {isDigit : ℕ → Bool} {base : ℕ} {bin : ℕ → ℕ} (h0 : isDigit 0 = false)
    {n v v' : ℕ} {ds : List ℕ} (h : digits isDigit base bin n v (ds ++ [0]) = .ok (v', ds.length))
    {c : ℕ} {w : List ℕ} (hc : ds.length < n → isDigit c = false) :
    digits isDigit base bin n v (ds ++ c :: w) = .ok (v', ds.length) := by
  induction ds generalizing n v v' with
  | nil =>
    cases n with
    | zero => exact h
    | succ n =>
      simp only [List.nil_append, digits, h0, hc (by simp)] at h ⊢
      exact h
  | cons d ds ih =>
    cases n with
    | zero => cases h
    | succ n =>
      simp only [List.cons_append, digits] at h ⊢
      split at h
      · rename_i hd
        obtain ⟨⟨u, k⟩, hu, h⟩ := bind_eq_ok.mp h
        obtain ⟨rfl, hk⟩ := Prod.mk.inj (Except.ok.inj h)
        obtain rfl : k = ds.length := Nat.succ_inj.mp hk
        rw [if_pos hd, ih hu fun hlt => hc (Nat.succ_lt_succ hlt)]
        rfl
      · cases h

/-- What stands behind a backslash: a character with a value of its own, a control character, or
digits. -/
lemma sysEscTail_cases (d : ℕ) : (∃ v, ∀ mem, sysEscTail (d :: mem) = .ok (v, 1)) ∨
    (d = 94 ∧ ∀ mem, sysEscTail (d :: mem) = deref mem >>= fun c => .ok ((toupper c : ℤ) - 64, 2)) ∨
    (toupper d = 88 ∧ ∀ mem, sysEscTail (d :: mem) =
      digits isHexdigit 16 hex2bin 3 0 mem >>= fun r => .ok ((r.1 : ℤ), r.2 + 1)) ∨
    (toupper d ≠ 88 ∧ isOctdigit d = true ∧ ∀ mem, sysEscTail (d :: mem) =
      digits isOctdigit 8 oct2bin 3 0 (d :: mem) >>= fun r => .ok ((r.1 : ℤ), r.2)) := by
  by_cases h₁ : d = 0
  · exact .inl ⟨92, fun mem => by simp [sysEscTail, h₁]⟩
  by_cases h₂ : toupper d = 66
  · exact .inl ⟨8, fun mem => by simp [sysEscTail, h₁, h₂]⟩
  by_cases h₃ : toupper d = 70
  · exact .inl ⟨12, fun mem => by simp [sysEscTail, h₁, h₃]⟩
  by_cases h₄ : toupper d = 78
  · exact .inl ⟨10, fun mem => by simp [sysEscTail, h₁, h₄]⟩
  by_cases h₅ : toupper d = 82
  · exact .inl ⟨13, fun mem => by simp [sysEscTail, h₁, h₅]⟩
  by_cases h₆ : toupper d = 83
  · exact .inl ⟨32, fun mem => by simp [sysEscTail, h₁, h₆]⟩
  by_cases h₇ : toupper d = 84
  · exact .inl ⟨9, fun mem => by simp [sysEscTail, h₁, h₇]⟩
  by_cases h₈ : toupper d = 69
  · exact .inl ⟨27, fun mem => by simp [sysEscTail, h₁, h₈]⟩
  by_cases h₉ : d = 94
  · exact .inr (.inl ⟨h₉, fun mem => by subst h₉; rfl⟩)
  by_cases h₁₀ : toupper d = 88
  · exact .inr (.inr (.inl ⟨h₁₀, fun mem => by simp [sysEscTail, h₁, h₉, h₁₀]⟩))
  by_cases h₁₁ : isOctdigit d = true
  · refine .inr (.inr (.inr ⟨h₁₀, h₁₁, fun mem => ?_⟩))
    simp [sysEscTail, h₁, h₂, h₃, h₄, h₅, h₆, h₇, h₈, h₉, h₁₀, h₁₁]
  · refine .inl ⟨d, fun mem => ?_⟩
    simp [sysEscTail, h₁, h₂, h₃, h₄, h₅, h₆, h₇, h₈, h₉, h₁₀, h₁₁]

/-- An escape sequence that ends with the string is the same in front of a character that does not
continue it. -/
lemma sysEscTail_of_alone {esc : List ℕ} {x : ℤ} (h : sysEscTail (esc ++ [0]) = .ok (x, esc.length))
    {c : ℕ} (hc : ¬ Continues false (92 :: esc) c) (w : List ℕ) :
    sysEscTail (esc ++ c :: w) = .ok (x, esc.length) := by
  rcases esc with _ | ⟨d, ds⟩
  · cases h
  obtain ⟨v, htail⟩ | ⟨-, htail⟩ | ⟨hhex, htail⟩ | ⟨hhex, hoct, htail⟩ := sysEscTail_cases d
  · rw [List.cons_append, htail] at h ⊢
    exact h
  · rw [List.cons_append, htail] at h ⊢
    rcases ds with _ | ⟨e, ds⟩
    · cases h
    · exact h
  · rw [List.cons_append, htail] at h ⊢
    obtain ⟨⟨v, k⟩, hdigits, h⟩ := bind_eq_ok.mp h
    obtain ⟨rfl, hk⟩ := Prod.mk.inj (Except.ok.inj h)
    obtain rfl : k = ds.length := Nat.succ_inj.mp hk
    have hnot : ds.length < 3 → isHexdigit c = false := by
      intro hlt
      by_contra hdigit
      exact hc (by simp [Continues, hhex, hlt, hdigit])
    rw [digits_of_alone rfl hdigits hnot]
    rfl
  · rw [List.cons_append, htail] at h ⊢
    obtain ⟨⟨v, k⟩, hdigits, h⟩ := bind_eq_ok.mp h
    obtain ⟨rfl, hk⟩ := Prod.mk.inj (Except.ok.inj h)
    obtain rfl : k = (d :: ds).length := hk
    have hnot : (d :: ds).length < 3 → isOctdigit c = false := by
      intro hlt
      have hlt' : ds.length < 2 := Nat.lt_of_succ_lt_succ hlt
      by_contra hdigit
      refine hc ?_
      simp only [Continues, Bool.false_eq_true, if_false, if_neg hhex]
      exact ⟨hoct, hlt', eq_true_of_ne_false hdigit⟩
    rw [← List.cons_append] at hdigits ⊢
    rw [digits_of_alone rfl hdigits hnot]
    rfl

/-- A character that ends with the string is the same in front of one that does not continue it. -/
lemma charAt_of_alone {inquote : Bool} {esc : List ℕ} {x : ℤ}
    (h : charAt inquote (esc ++ [0]) = .ok (x, esc.length)) {c : ℕ} (hc : ¬ Continues inquote esc c)
    (w : List ℕ) : charAt inquote (esc ++ c :: w) = .ok (x, esc.length) := by
  rcases esc with _ | ⟨e, esc⟩
  · exact absurd (charAt_pos h) (by simp)
  rw [List.cons_append] at h ⊢
  by_cases he : e = 92
  · subst he
    cases inquote with
    | true =>
      rw [charAt_true, if_pos rfl] at h ⊢
      rcases esc with _ | ⟨d, esc⟩
      · have hquote : c ≠ 34 := fun hquote => hc (by simp [Continues, hquote])
        exact (if_neg hquote).trans h
      · exact h
    | false =>
      rw [charAt_false, sysEsc, if_neg (not_not.mpr rfl)] at h ⊢
      obtain ⟨⟨y, k⟩, htail, h⟩ := bind_eq_ok.mp h
      obtain ⟨rfl, hk⟩ := Prod.mk.inj (Except.ok.inj h)
      obtain rfl : k = esc.length := Nat.succ_inj.mp hk
      rw [sysEscTail_of_alone htail hc]
      rfl
  · cases inquote with
    | true =>
      rw [charAt_true, if_neg he] at h ⊢
      exact h
    | false =>
      rw [charAt_false, sysEsc, if_pos he] at h ⊢
      exact h

/-- A character that ends with the string is the same in front of a text that does not continue
it. -/
lemma charAt_append_of_alone {inquote : Bool} {esc t : List ℕ} {x : ℤ}
    (h : charAt inquote (esc ++ [0]) = .ok (x, esc.length))
    (ht : ∀ c ∈ t.head?, ¬ Continues inquote esc c) :
    charAt inquote (esc ++ t ++ [0]) = .ok (x, esc.length) := by
  rw [List.append_assoc]
  cases t with
  | nil => exact h
  | cons c t => exact charAt_of_alone h (ht c rfl) (t ++ [0])

/-! ## The expanded text -/

/-- The body of a macro; the last definition comes first. -/
def bodyOf (defs : List (List ℕ × List ℕ)) (name : List ℕ) : Option (List ℕ) :=
  (defs.find? fun d => d.1 = name).map Prod.snd

/-- The text of a rule in which every macro outside quotes is replaced, up to the white space in
front of the action. The arguments are the maximal number of steps, whether the character before is
a quote, and whether the text is inside quotes; the character behind a quote is no quote. -/
def expand (defs : List (List ℕ × List ℕ)) : ℕ → Bool → Bool → List ℕ → Option (List ℕ)
  | 0, _, _, _ => none
  | _ + 1, _, _, [] => some []
  | n + 1, quoted, inquote, c :: t =>
    if inquote = false ∧ c = 123 then
      let name := t.takeWhile (· ≠ 125)
      if name = t then none
      else
        (bodyOf defs name).bind fun body => expand defs n quoted inquote
          (body ++ t.drop (name.length + 1))
    else if quoted = false ∧ c = 34 then (expand defs n true (!inquote) t).map (c :: ·)
    else if inquote = false ∧ isspace c then some (c :: t)
    else
      match charAt inquote (c :: t ++ [0]) with
      | .error _ => none
      | .ok (_, k) => (expand defs n false inquote ((c :: t).drop k)).map ((c :: t).take k ++ ·)

/-- A body that is found is one of those that are defined. -/
lemma mem_of_bodyOf {defs : List (List ℕ × List ℕ)} {name body : List ℕ}
    (h : bodyOf defs name = some body) : ∃ d ∈ defs, d.2 = body := by
  obtain ⟨d, hd, hbody⟩ := Option.map_eq_some_iff.mp h
  exact ⟨d, List.mem_of_find?_eq_some hd, hbody⟩

/-- The expanded text has no null character when the bodies have none. -/
lemma zero_notMem_expand {defs : List (List ℕ × List ℕ)} (hdefs : ∀ d ∈ defs, 0 ∉ d.2) {n : ℕ}
    {quoted inquote : Bool} {t out : List ℕ} (ht : 0 ∉ t)
    (h : expand defs n quoted inquote t = some out) : 0 ∉ out := by
  induction n generalizing quoted inquote t out with
  | zero => cases h
  | succ n ih =>
    cases t with
    | nil =>
      rw [expand, Option.some.injEq] at h
      exact h ▸ ht
    | cons c t =>
      have ht' : 0 ∉ t := fun hmem => ht (List.mem_cons_of_mem c hmem)
      unfold expand at h
      dsimp only at h
      split at h
      · -- a macro
        split at h
        · cases h
        · obtain ⟨body, hbody, h⟩ := Option.bind_eq_some_iff.mp h
          obtain ⟨d, hd, rfl⟩ := mem_of_bodyOf hbody
          refine ih (fun hmem => ?_) h
          rcases List.mem_append.mp hmem with hmem | hmem
          · exact hdefs d hd hmem
          · exact ht' (List.mem_of_mem_drop hmem)
      · split at h
        · obtain ⟨u, hu, rfl⟩ := Option.map_eq_some_iff.mp h
          intro hmem
          rcases List.mem_cons.mp hmem with rfl | hmem
          · exact ht List.mem_cons_self
          · exact ih ht' hu hmem
        · split at h
          · cases h
            exact ht
          · split at h
            · cases h
            · obtain ⟨u, hu, rfl⟩ := Option.map_eq_some_iff.mp h
              intro hmem
              rcases List.mem_append.mp hmem with hmem | hmem
              · exact ht (List.mem_of_mem_take hmem)
              · exact ih (fun hmem => ht (List.mem_of_mem_drop hmem)) hu hmem

/-- The text behind the macro at `_input`, up to the end of the rule. -/
def Reader.behind (s : Reader) : List ℕ := (s.stack.map fun p => str (s.mem p)).flatten

/-- The text from `_input` to the end of the rule, through all macros that are open. -/
def Reader.rest (s : Reader) : List ℕ := s.text ++ s.behind

/-! ## The calls that agree -/

section Clean

variable (macros : List Macro) (defs : List (List ℕ × List ℕ))

/-- The character at `_input` is whole: it ends with the macro or before, and what stands behind it,
expanded or not, does not continue it. -/
def Reader.Whole (s : Reader) : Prop :=
  ∃ esc t x, s.text = esc ++ t ∧ charAt s.inquote (esc ++ [0]) = .ok (x, esc.length) ∧
    (∀ c ∈ (t ++ s.behind).head?, ¬ Continues s.inquote esc c) ∧
    ∀ n out, expand defs n false s.inquote (t ++ s.behind) = some out →
      ∀ c ∈ out.head?, ¬ Continues s.inquote esc c

/-- The expression does not end within a macro, and the character is whole. -/
def Reader.CharClean (s : Reader) : Prop :=
  ∀ c, s.text.head? = some c →
    if s.inquote = false ∧ isspace c then s.stack = [] else s.Whole defs

/-- A macro is not empty, it does not end with a quote, and no macro follows a closing quote. -/
def Reader.QuoteClean (s : Reader) : Prop :=
  match s.text with
  | [] => False
  | c :: t =>
    if c = 34 then
      if t = [] then s.stack = []
      else (s.inquote = true → t.head? ≠ some 123) ∧
        Reader.CharClean defs { s with inquote := !s.inquote, input := s.input.skip 1 }
    else s.CharClean defs

/-- The macros that start at `_input` are opened, and the table has their bodies. -/
inductive Opens : Reader → Reader → Prop
  /-- No macro starts here, so that the text is taken as it is. -/
  | done {s : Reader} : s.text.head? ≠ some 123 → Opens s s
  /-- A macro starts here and is replaced by its text. -/
  | step {s s' : Reader} {name after : List ℕ} {mac : Macro} :
      s.text = 123 :: (name ++ 125 :: after) → 125 ∉ name → findMacro macros name = some mac →
      0 ∈ mac.text → bodyOf defs name = some (str mac.text) → s.stack.length < ssize →
      Opens { s with
        input := .macroText mac.text, stack := s.input.skip (name.length + 2) :: s.stack } s' →
      Opens s s'

/-- The condition on the state within a line. -/
def Reader.ScanClean (s : Reader) : Prop :=
  ∀ input stack, pops s.mem s.stack s.input = .ok (input, stack) →
    Reader.text { s with input := input, stack := stack } ≠ [] →
    if s.inquote then Reader.QuoteClean defs { s with input := input, stack := stack }
    else ∃ s', Opens macros defs { s with input := input, stack := stack } s' ∧ s'.QuoteClean defs

/-- The condition on the state before a call: what it reads is read the same when it is expanded. -/
def Reader.Clean (s : Reader) : Prop :=
  if s.tok = .eos then ∀ s', s.nextLine s.lines = .ok s' → s'.tok ≠ .endOfInput →
    s'.ScanClean macros defs
  else s.ScanClean macros defs

end Clean

/-- The state `s` within the macros, and the state `r` in the expanded text. -/
structure Expands (defs : List (List ℕ × List ℕ)) (quoted : Bool) (s r : Reader) : Prop where
  /-- The pointers point to strings. -/
  input : 0 ∈ s.mem s.input
  /-- The same for the positions on the stack. -/
  stack : ∀ p ∈ s.stack, 0 ∈ s.mem p
  /-- The stack has not overflowed. -/
  room : s.stack.length ≤ ssize
  /-- The same in the expanded text. -/
  input' : 0 ∈ r.mem r.input
  /-- No macro is open in the expanded text. -/
  stack' : r.stack = []
  /-- Both are inside quotes or outside. -/
  inquote : r.inquote = s.inquote
  /-- The text behind is the expansion. -/
  text : ∃ n, expand defs n quoted s.inquote s.rest = some r.text

/-- What is the same after a call: the token and its lexeme, and at the end of the expression also
the text of the action, with no macro left open. -/
def Agree (defs : List (List ℕ × List ℕ)) (x y : Except Fault Reader) : Prop :=
  match x, y with
  | .ok s, .ok r => s.tok = r.tok ∧ s.lexeme = r.lexeme ∧
      if s.tok = .eos then s.text = r.text ∧ s.stack = [] ∧ s.inquote = r.inquote else
        Expands defs false s r
  | .error e, .error e' => e = e'
  | _, _ => False

/-- The memory behind a pointer that has passed some characters. -/
@[simp] lemma mem_skip (s : Reader) (p : Ptr) (k : ℕ) : s.mem (p.skip k) = (s.mem p).drop k := by
  cases p with
  | null => simp [Ptr.skip, Reader.mem]
  | line pos => simp [Ptr.skip, Reader.mem, List.drop_drop]
  | macroText mem => rfl

/-- The first character of the text is the one that `_input` points at. -/
lemma deref_mem {s : Reader} {c : ℕ} {t : List ℕ} (hmem : 0 ∈ s.mem s.input) (h : s.text = c :: t) :
    deref (s.mem s.input) = .ok c := by
  obtain ⟨junk, hj⟩ := exists_junk hmem
  have htext : str (s.mem s.input) = c :: t := h
  rw [hj, htext]
  rfl

/-- At the end of the string `_input` points at the null character. -/
lemma deref_mem_nil {s : Reader} (hmem : 0 ∈ s.mem s.input) (h : s.text = []) :
    deref (s.mem s.input) = .ok 0 := by
  obtain ⟨junk, hj⟩ := exists_junk hmem
  have htext : str (s.mem s.input) = [] := h
  rw [hj, htext]
  rfl

section Steps

variable {macros : List Macro} {defs : List (List ℕ × List ℕ)} {s r : Reader} {c : ℕ} {t : List ℕ}

/-- The part of `expand` for the character `c` at the start of `t`, which is no macro and no
quote. -/
def expandChar (defs : List (List ℕ × List ℕ)) (n : ℕ) (inquote : Bool) (c : ℕ) (t : List ℕ) :
    Option (List ℕ) :=
  if inquote = false ∧ isspace c then some t
  else
    match charAt inquote (t ++ [0]) with
    | .error _ => none
    | .ok (_, k) => (expand defs n false inquote (t.drop k)).map (t.take k ++ ·)

/-- The expansion of a text that does not start with a macro or a quote. -/
lemma expand_char {n : ℕ} {quoted inquote : Bool} (hmac : ¬ (inquote = false ∧ c = 123))
    (hquote : ¬ (quoted = false ∧ c = 34)) :
    expand defs (n + 1) quoted inquote (c :: t) = expandChar defs n inquote c (c :: t) := by
  rw [expand, if_neg hmac, if_neg hquote]
  rfl

/-- When some characters are passed, the text loses these characters. -/
lemma text_skip {k : ℕ} (hmem : 0 ∈ s.mem s.input) (hk : k ≤ s.text.length) (tok : Token) (x : ℤ) :
    Reader.text { s with tok := tok, lexeme := x, input := s.input.skip k } = s.text.drop k ∧
      0 ∈ s.mem (s.input.skip k) := by
  rw [mem_skip]
  obtain ⟨htext, hzero⟩ := str_drop hmem hk
  refine ⟨?_, hzero⟩
  change str (s.mem (s.input.skip k)) = _
  rw [mem_skip, htext]
  rfl

/-- What `Reader.char` does with a character that is not white space. -/
lemma char_eq {x : ℤ} {k : ℕ} (hmem : 0 ∈ s.mem s.input) (htext : s.text = c :: t)
    (hspace : ¬ (s.inquote = false ∧ isspace c))
    (hchar : charAt s.inquote (s.text ++ [0]) = .ok (x, k)) :
    s.char = tokenOf s.inquote (c = 92) x >>= fun tok =>
      .ok { s with tok := tok, lexeme := x, input := s.input.skip k } := by
  obtain ⟨junk, hj⟩ := exists_junk hmem
  have hne : s.text ≠ [] := by
    rw [htext]
    exact List.cons_ne_nil c t
  have hchar' : charAt s.inquote (s.mem s.input) = .ok (x, k) := by
    have htext' : str (s.mem s.input) = s.text := rfl
    rw [hj, htext', charAt_append s.inquote hne, hchar]
  rw [Reader.char, deref_mem hmem htext]
  change (if s.inquote = false ∧ isspace c then _ else _) = _
  rw [if_neg hspace, hchar']
  rfl

/-- No character has the token of the end of the expression. -/
lemma tokMapAt_ne_eos (c : ℕ) : tokMapAt c ≠ .eos := by
  unfold tokMapAt
  split <;> decide

/-- The token of a character is not the end of the string. -/
lemma tokenOf_ne_eos {inquote sawEsc : Bool} {x : ℤ} {tok : Token}
    (h : tokenOf inquote sawEsc x = .ok tok) : tok ≠ .eos := by
  unfold tokenOf at h
  split at h
  · cases h
    decide
  · unfold tokMap at h
    split at h
    · cases h
      exact tokMapAt_ne_eos _
    · cases h

/-- A whole character is the same when it is read in the macro, with what stands behind the macro,
and with the expansion of this. -/
lemma Reader.Whole.charAt_eq (h : s.Whole defs) :
    ∃ x k, charAt s.inquote (s.text ++ [0]) = .ok (x, k) ∧ k ≤ s.text.length ∧
    charAt s.inquote (s.rest ++ [0]) = .ok (x, k) ∧
    ∀ n out, expand defs n false s.inquote (s.text.drop k ++ s.behind) = some out →
      charAt s.inquote (s.text.take k ++ out ++ [0]) = .ok (x, k) := by
  obtain ⟨esc, t, x, htext, halone, hbehind, hout⟩ := h
  have hhead : ∀ c ∈ t.head?, ¬ Continues s.inquote esc c := by
    intro c hc
    refine hbehind c ?_
    obtain ⟨t', rfl⟩ := List.head?_eq_some_iff.mp hc
    rfl
  have hrest : s.rest = esc ++ (t ++ s.behind) := by rw [Reader.rest, htext, List.append_assoc]
  refine ⟨x, esc.length, ?_, ?_, ?_, fun n out hexp => ?_⟩
  · rw [htext]
    exact charAt_append_of_alone halone hhead
  · rw [htext, List.length_append]
    omega
  · rw [hrest]
    exact charAt_append_of_alone halone hbehind
  · rw [htext, List.drop_left] at hexp
    rw [htext, List.take_left]
    exact charAt_append_of_alone halone (hout n out hexp)

/-- The last part of a call agrees with the call on the expanded text. -/
lemma agree_char {n : ℕ} {quoted : Bool} (h : Expands defs quoted s r) (htext : s.text = c :: t)
    (hclean : s.CharClean defs) (hexp : expandChar defs n s.inquote c s.rest = some r.text) :
    Agree defs s.char r.char := by
  have hc := hclean c (by rw [htext]; rfl)
  obtain ⟨hin, hst, hroom, hin', hst', hq, -⟩ := h
  unfold expandChar at hexp
  by_cases hspace : s.inquote = false ∧ isspace c
  · rw [if_pos hspace] at hc
    rw [if_pos hspace, Option.some.injEq] at hexp
    have hrest : s.rest = s.text := by
      simp [Reader.rest, Reader.behind, hc]
    have htext' : r.text = c :: t := by rw [← hexp, hrest, htext]
    have hs : s.char = .ok s.atEos := by
      rw [Reader.char, deref_mem hin htext]
      change (if s.inquote = false ∧ isspace c then _ else _) = _
      rw [if_pos hspace]
    have hr : r.char = .ok r.atEos := by
      rw [Reader.char, deref_mem hin' htext']
      change (if r.inquote = false ∧ isspace c then _ else _) = _
      rw [hq, if_pos hspace]
    rw [hs, hr]
    refine ⟨rfl, rfl, ?_⟩
    rw [if_pos (show s.atEos.tok = .eos from rfl)]
    exact ⟨htext.trans htext'.symm, hc, hq.symm⟩
  · rw [if_neg hspace] at hc hexp
    obtain ⟨x, k, hchar, hk, hrest, hout⟩ := hc.charAt_eq
    rw [hrest] at hexp
    obtain ⟨out, hexp, hr⟩ := Option.map_eq_some_iff.mp hexp
    have htake : s.rest.take k = s.text.take k := List.take_append_of_le_length hk
    have hdrop : s.rest.drop k = s.text.drop k ++ s.behind := List.drop_append_of_le_length hk
    rw [htake] at hr
    rw [hdrop] at hexp
    have hpos := charAt_pos hchar
    obtain ⟨u, hu⟩ : ∃ u, r.text = c :: u := by
      obtain ⟨k, rfl⟩ := Nat.exists_eq_add_of_le' hpos
      rw [← hr, htext, List.take_succ_cons, List.cons_append]
      exact ⟨_, rfl⟩
    have hchar' : charAt r.inquote (r.text ++ [0]) = .ok (x, k) := by
      rw [← hr, hq]
      exact hout n out hexp
    have hspace' : ¬ (r.inquote = false ∧ isspace c) := by rwa [hq]
    have htoken : tokenOf r.inquote (c = 92) x = tokenOf s.inquote (c = 92) x := by rw [hq]
    rw [char_eq hin htext hspace hchar, char_eq hin' hu hspace' hchar', htoken]
    -- both have the same token
    cases htok : tokenOf s.inquote (c = 92) x with
    | error e => rfl
    | ok tok =>
      have heos : tok ≠ .eos := tokenOf_ne_eos htok
      have hlen : k ≤ r.text.length := by
        rw [← hr, List.length_append, List.length_take, Nat.min_eq_left hk]
        omega
      obtain ⟨hnew, hzero⟩ := text_skip hin hk tok x
      obtain ⟨hnew', hzero'⟩ := text_skip hin' hlen tok x
      refine ⟨rfl, rfl, ?_⟩
      rw [if_neg heos]
      refine ⟨hzero, hst, hroom, hzero', hst', hq, n, ?_⟩
      rw [Reader.rest, hnew, hnew', ← hr,
        List.drop_left' (by rw [List.length_take, Nat.min_eq_left hk])]
      exact hexp

/-- The expansion of a text that starts with a character starts with this character. -/
lemma expandChar_head {n : ℕ} {inquote : Bool} {u : List ℕ}
    (h : expandChar defs n inquote c (c :: t) = some u) : ∃ u', u = c :: u' := by
  unfold expandChar at h
  split at h
  · exact ⟨t, (Option.some.inj h).symm⟩
  · split at h
    · cases h
    · rename_i x k hchar
      obtain ⟨out, -, rfl⟩ := Option.map_eq_some_iff.mp h
      obtain ⟨k, rfl⟩ := Nat.exists_eq_add_of_le' (charAt_pos hchar)
      exact ⟨_, rfl⟩

/-- The text behind a quote is the text without the quote. -/
lemma text_quote (hmem : 0 ∈ s.mem s.input) (htext : s.text = c :: t) :
    Reader.text { s with inquote := !s.inquote, input := s.input.skip 1 } = t ∧
    0 ∈ s.mem (s.input.skip 1) := by
  have hlen : 1 ≤ s.text.length := by
    rw [htext, List.length_cons]
    omega
  obtain ⟨htext₁, hmem₁⟩ := text_skip hmem hlen s.tok s.lexeme
  refine ⟨?_, hmem₁⟩
  rw [htext, List.drop_one, List.tail_cons] at htext₁
  exact htext₁

/-- When a quote is passed, the character behind it is read or the line ends. -/
lemma quote_eq (hmem : 0 ∈ s.mem s.input) (htext : s.text = 34 :: t) :
    s.quote = if t = [] then
      .ok (Reader.atEos { s with inquote := !s.inquote, input := s.input.skip 1 })
      else Reader.char { s with inquote := !s.inquote, input := s.input.skip 1 } := by
  obtain ⟨htext₁, hmem₁⟩ := text_quote hmem htext
  unfold Reader.quote
  rw [deref_mem hmem htext, ok_bind, if_pos rfl]
  dsimp only
  cases t with
  | nil => rw [deref_mem_nil hmem₁ htext₁, ok_bind, if_pos rfl, if_pos rfl]
  | cons c t =>
    have hc : c ≠ 0 := by
      rintro rfl
      exact zero_notMem_str _ (show 0 ∈ Reader.text _ from htext₁ ▸ List.mem_cons_self)
    rw [deref_mem hmem₁ htext₁, ok_bind, if_neg hc, if_neg (List.cons_ne_nil c t)]

/-- A character that is no quote is read as it is. -/
lemma quote_eq_char (hmem : 0 ∈ s.mem s.input) (htext : s.text = c :: t) (hc : c ≠ 34) :
    s.quote = s.char := by
  unfold Reader.quote
  rw [deref_mem hmem htext, ok_bind, if_neg hc]

/-- The part of a call behind the macros agrees with the call on the expanded text. -/
lemma agree_quote (h : Expands defs false s r) (hclean : s.QuoteClean defs)
    (hmac : s.inquote = false → s.text.head? ≠ some 123) : Agree defs s.quote r.quote := by
  obtain ⟨n, hexp⟩ := h.text
  unfold Reader.QuoteClean at hclean
  split at hclean
  · exact hclean.elim
  rename_i c t htext
  have hrest : s.rest = c :: (t ++ s.behind) := by rw [Reader.rest, htext, List.cons_append]
  have hmac' : ¬ (s.inquote = false ∧ c = 123) := by
    rintro ⟨hq, rfl⟩
    exact hmac hq (by rw [htext]; rfl)
  obtain ⟨n, rfl⟩ : ∃ n', n = n' + 1 := by
    cases n with
    | zero => cases hexp
    | succ n => exact ⟨n, rfl⟩
  rw [hrest] at hexp
  split at hclean
  · rename_i hc
    subst hc
    rw [expand, if_neg hmac', if_pos ⟨rfl, rfl⟩] at hexp
    obtain ⟨u, hexp, hr⟩ := Option.map_eq_some_iff.mp hexp
    rw [quote_eq h.input htext, quote_eq h.input' hr.symm]
    obtain ⟨htext₁, hmem₁⟩ := text_quote h.input htext
    obtain ⟨htext₁', hmem₁'⟩ := text_quote h.input' hr.symm
    obtain ⟨n, rfl⟩ : ∃ n', n = n' + 1 := by
      cases n with
      | zero => cases hexp
      | succ n => exact ⟨n, rfl⟩
    cases t with
    | nil =>
      rw [if_pos rfl] at hclean
      have hbehind : s.behind = [] := by simp [Reader.behind, hclean]
      rw [hbehind, List.append_nil, expand, Option.some.injEq] at hexp
      subst hexp
      rw [if_pos rfl, if_pos rfl]
      refine ⟨rfl, rfl, ?_⟩
      rw [if_pos (show (Reader.atEos _).tok = .eos from rfl)]
      exact ⟨htext₁.trans htext₁'.symm, hclean, congrArg (! ·) h.inquote.symm⟩
    | cons c' t =>
      rw [if_neg (List.cons_ne_nil c' t)] at hclean
      obtain ⟨hbrace, hchar⟩ := hclean
      have hmac₁ : ¬ ((!s.inquote) = false ∧ c' = 123) := by
        rintro ⟨hq, rfl⟩
        exact hbrace (by simpa using hq) rfl
      have hquote₁ : ¬ (true = false ∧ c' = 34) := by
        rintro ⟨h, -⟩
        cases h
      have hexp₁ := hexp
      rw [List.cons_append, expand_char hmac₁ hquote₁] at hexp₁
      obtain ⟨u', rfl⟩ := expandChar_head hexp₁
      rw [if_neg (List.cons_ne_nil c' t), if_neg (List.cons_ne_nil c' u')]
      have hrest₁ : Reader.rest { s with inquote := !s.inquote, input := s.input.skip 1 } =
          c' :: (t ++ s.behind) := by
        rw [Reader.rest, htext₁]
        rfl
      have h₁ : Expands defs true { s with inquote := !s.inquote, input := s.input.skip 1 }
          { r with inquote := !r.inquote, input := r.input.skip 1 } := by
        refine ⟨hmem₁, h.stack, h.room, hmem₁', h.stack', congrArg (! ·) h.inquote, n + 1, ?_⟩
        rw [hrest₁, htext₁']
        exact hexp
      refine agree_char (n := n) h₁ htext₁ hchar ?_
      rw [hrest₁, htext₁']
      exact hexp₁
  · rename_i hc
    rw [expand_char hmac' fun h => hc h.2] at hexp
    obtain ⟨u, hu⟩ := expandChar_head hexp
    rw [quote_eq_char h.input htext hc, quote_eq_char h.input' hu hc]
    exact agree_char h htext hclean (hrest ▸ hexp)

/-- The expansion of a text that does not start with a macro starts with its first character. -/
lemma expand_head {n : ℕ} {quoted inquote : Bool} {u : List ℕ}
    (hmac : ¬ (inquote = false ∧ c = 123)) (h : expand defs n quoted inquote (c :: t) = some u) :
    ∃ u', u = c :: u' := by
  cases n with
  | zero => cases h
  | succ n =>
    by_cases hquote : quoted = false ∧ c = 34
    · rw [expand, if_neg hmac, if_pos hquote] at h
      obtain ⟨u', -, rfl⟩ := Option.map_eq_some_iff.mp h
      exact ⟨u', rfl⟩
    · rw [expand_char hmac hquote] at h
      exact expandChar_head h

/-- When no macro is open, none is left. -/
lemma pops_nil {mem : Ptr → List ℕ} {input : Ptr} (hin : 0 ∈ mem input) :
    pops mem [] input = .ok (input, []) := by
  obtain ⟨junk, hj⟩ := exists_junk hin
  unfold pops
  rw [hj]
  cases str (mem input) <;> rfl

/-- Returning from macros does not change the text behind. -/
lemma pops_spec {mem : Ptr → List ℕ} {stack : List Ptr} {input : Ptr} (hin : 0 ∈ mem input)
    (hst : ∀ p ∈ stack, 0 ∈ mem p) :
    ∃ input' stack', pops mem stack input = .ok (input', stack') ∧ 0 ∈ mem input' ∧
      stack' <:+ stack ∧ str (mem input') ++ (stack'.map fun p => str (mem p)).flatten =
        str (mem input) ++ (stack.map fun p => str (mem p)).flatten ∧
      (str (mem input') = [] → stack' = []) := by
  induction stack generalizing input with
  | nil =>
    exact ⟨input, [], pops_nil hin, hin, List.suffix_rfl, rfl, fun _ => rfl⟩
  | cons p stack ih =>
    obtain ⟨junk, hj⟩ := exists_junk hin
    unfold pops
    cases htext : str (mem input) with
    | nil =>
      obtain ⟨input', stack', hpops, hin', hsuff, hrest, hnil⟩ := ih (hst p List.mem_cons_self)
        fun q hq => hst q (List.mem_cons_of_mem p hq)
      refine ⟨input', stack', ?_, hin', hsuff.trans (List.suffix_cons p stack), ?_, hnil⟩
      · rw [hj, htext]
        exact hpops
      · rw [hrest, List.map_cons, List.flatten_cons, List.nil_append]
    | cons c t =>
      have hc : c ≠ 0 := by
        rintro rfl
        exact zero_notMem_str (mem input) (htext ▸ List.mem_cons_self)
      refine ⟨input, p :: stack, ?_, hin, List.suffix_rfl, by rw [htext], fun h => ?_⟩
      · rw [hj, htext]
        change (if c = 0 then _ else _) = _
        rw [if_neg hc]
      · rw [htext] at h
        cases h

/-- The name of a macro ends at the closing brace. -/
lemma takeWhile_name {name after : List ℕ} (h : 125 ∉ name) :
    (name ++ 125 :: after).takeWhile (· ≠ 125) = name := by
  rw [List.takeWhile_append_of_pos]
  · simp
  · intro c hc
    simpa using ne_of_mem_of_not_mem hc h

/-- The name of a macro is not all of the text behind the brace. -/
lemma name_ne {name after : List ℕ} : name ≠ name ++ 125 :: after := by
  intro h
  have hlen := congrArg List.length h
  rw [List.length_append, List.length_cons] at hlen
  omega

/-- `get_macro` finds a macro of the table and points behind its braces. -/
lemma getMacro_eq {name after : List ℕ} {mac : Macro} (hmem : 0 ∈ s.mem s.input)
    (htext : s.text = 123 :: (name ++ 125 :: after)) (hname : 125 ∉ name)
    (hfind : findMacro macros name = some mac) :
    s.getMacro macros = .ok (.macroText mac.text, s.input.skip (name.length + 2)) := by
  have hlen : 1 ≤ (str (s.mem s.input)).length := by
    change 1 ≤ s.text.length
    rw [htext, List.length_cons]
    omega
  have hdef : str ((s.mem s.input).drop 1) = name ++ 125 :: after := by
    rw [(str_drop hmem hlen).1]
    change s.text.drop 1 = _
    rw [htext, List.drop_one, List.tail_cons]
  unfold Reader.getMacro
  simp only [hdef, takeWhile_name hname]
  rw [if_neg name_ne, hfind]

/-- The expansion of a text that starts with a macro is that of its body and of the rest. -/
lemma expand_macro {n : ℕ} {quoted : Bool} {name after : List ℕ} (hname : 125 ∉ name) :
    expand defs (n + 1) quoted false (123 :: (name ++ 125 :: after)) =
      (bodyOf defs name).bind fun body => expand defs n quoted false (body ++ after) := by
  have hdrop : (name ++ 125 :: after).drop (name.length + 1) = after := by
    rw [List.drop_length_add_append, List.drop_succ_cons, List.drop_zero]
  rw [expand, if_pos ⟨rfl, rfl⟩]
  dsimp only
  rw [takeWhile_name hname, if_neg name_ne, hdrop]

/-- The loop that opens the macros: the text behind is the same, expanded, and no macro starts at
the end. -/
lemma opens_spec {s' : Reader} (h : Opens macros defs s s') (hq : s.inquote = false)
    (hin : 0 ∈ s.mem s.input) (hst : ∀ p ∈ s.stack, 0 ∈ s.mem p) (hroom : s.stack.length ≤ ssize) :
    (s'.inquote = false ∧ 0 ∈ s'.mem s'.input ∧ (∀ p ∈ s'.stack, 0 ∈ s'.mem p) ∧
    s'.stack.length ≤ ssize) ∧
      s'.text.head? ≠ some 123 ∧ (s' = s ∨ s'.stack ≠ []) ∧
      (∀ n quoted out, expand defs n quoted false s.rest = some out →
        ∃ n', expand defs n' quoted false s'.rest = some out) ∧
      ∀ n, ssize + 2 ≤ n + s.stack.length → s.openMacros macros n = .ok s' := by
  induction h with
  | @done s hhead =>
    refine ⟨⟨hq, hin, hst, hroom⟩, hhead, .inl rfl, fun n quoted out h => ⟨n, h⟩, fun n hn => ?_⟩
    obtain ⟨n, rfl⟩ : ∃ n', n = n' + 1 := Nat.exists_eq_add_of_le' (by omega)
    unfold Reader.openMacros
    cases htext : s.text with
    | nil => rw [deref_mem_nil hin htext, ok_bind, if_pos (by decide)]
    | cons c t =>
      rw [deref_mem hin htext, ok_bind, if_pos]
      rintro rfl
      exact hhead (by rw [htext, List.head?_cons])
  | @step s s' name after mac htext hname hfind hzero hbody hlt hopens ih =>
    -- the state in the text of the macro
    have hlen : name.length + 2 ≤ s.text.length := by
      rw [htext, List.length_cons, List.length_append, List.length_cons]
      omega
    obtain ⟨hafter, hmem⟩ := text_skip hin hlen s.tok s.lexeme
    have hdrop : s.text.drop (name.length + 2) = after := by
      rw [htext, List.drop_succ_cons, List.drop_length_add_append, List.drop_succ_cons,
        List.drop_zero]
    rw [hdrop] at hafter
    have hst₁ : ∀ p ∈ s.input.skip (name.length + 2) :: s.stack, 0 ∈ s.mem p := by
      intro p hp
      rcases List.mem_cons.mp hp with rfl | hp
      · exact hmem
      · exact hst p hp
    obtain ⟨hvalid, hhead, hstack, hexp, hopen⟩ := ih hq hzero hst₁ hlt
    refine ⟨hvalid, hhead, .inr ?_, ?_, ?_⟩
    · rcases hstack with rfl | hstack
      · exact List.cons_ne_nil _ _
      · exact hstack
    · intro n quoted out h
      obtain ⟨n, rfl⟩ : ∃ n', n = n' + 1 := by
        cases n with
        | zero => cases h
        | succ n => exact ⟨n, rfl⟩
      refine hexp n quoted out ?_
      have hrest : s.rest = 123 :: (name ++ 125 :: (after ++ s.behind)) := by
        rw [Reader.rest, htext, List.cons_append, List.append_assoc, List.cons_append]
      rw [hrest, expand_macro hname, hbody, Option.bind_some] at h
      rw [Reader.rest, Reader.behind, List.map_cons, List.flatten_cons]
      have hafter' : str (s.mem (s.input.skip (name.length + 2))) = after := hafter
      exact hafter'.symm ▸ h
    · intro n hn
      obtain ⟨n, rfl⟩ : ∃ n', n = n' + 1 := Nat.exists_eq_add_of_le' (by omega)
      unfold Reader.openMacros
      rw [deref_mem hin htext, ok_bind, if_neg (by decide), getMacro_eq hin htext hname hfind,
        ok_bind]
      dsimp only
      rw [if_neg (by omega)]
      refine hopen n ?_
      rw [List.length_cons]
      omega

/-- A character that starts no escape sequence is whole. -/
lemma whole_of_plain (htext : s.text = c :: t) (hc : c ≠ 92) : s.Whole defs := by
  have hchar : charAt s.inquote ([c] ++ [0]) = .ok ((c : ℤ), 1) := by
    cases s.inquote with
    | true => rw [List.cons_append, charAt_true, if_neg hc]
    | false => rw [List.cons_append, charAt_false, sysEsc, if_pos hc]
  have hnot : ∀ d, ¬ Continues s.inquote [c] d := by
    intro d
    unfold Continues
    split
    · rintro ⟨h, -⟩
      exact hc (List.singleton_inj.mp h)
    · simp
  exact ⟨[c], t, c, htext, hchar, fun d _ => hnot d, fun n out _ d _ => hnot d⟩

/-- A character that is no quote, starts no escape sequence and does not end the expression meets
the condition. -/
lemma quoteClean_of_plain (htext : s.text = c :: t) (hquote : c ≠ 34) (hesc : c ≠ 92)
    (hspace : ¬ (s.inquote = false ∧ isspace c)) : s.QuoteClean defs := by
  unfold Reader.QuoteClean
  rw [htext]
  dsimp only
  rw [if_neg hquote]
  intro d hd
  rw [htext, List.head?_cons, Option.some.injEq] at hd
  subst hd
  rw [if_neg hspace]
  exact whole_of_plain htext hesc

/-- A blank outside of quotes and macros ends the expression as it does in the expanded text. -/
lemma quoteClean_of_space (htext : s.text = c :: t) (hq : s.inquote = false)
    (hspace : isspace c = true) (hstack : s.stack = []) : s.QuoteClean defs := by
  have hquote : c ≠ 34 := by
    rintro rfl
    exact absurd hspace (by decide)
  unfold Reader.QuoteClean
  rw [htext]
  dsimp only
  rw [if_neg hquote]
  intro d hd
  rw [htext, List.head?_cons, Option.some.injEq] at hd
  subst hd
  rw [if_pos ⟨hq, hspace⟩]
  exact hstack

/-- The expanded text is not empty where the text of a macro is not. -/
lemma Expands.text_eq (h : Expands defs false s r) (htext : s.text = c :: t)
    (hmac : ¬ (s.inquote = false ∧ c = 123)) : ∃ u, r.text = c :: u := by
  obtain ⟨n, hexp⟩ := h.text
  rw [Reader.rest, htext, List.cons_append] at hexp
  exact expand_head hmac hexp

/-- When the text starts with no brace, no macro is opened. -/
lemma openMacros_eq {n : ℕ} (hmem : 0 ∈ s.mem s.input) (htext : s.text = c :: t) (hc : c ≠ 123) :
    s.openMacros macros (n + 1) = .ok s := by
  unfold Reader.openMacros
  rw [deref_mem hmem htext, ok_bind, if_pos hc]

/-- A call within a line, when the next characters are in `s` behind the macros that have been
read. -/
lemma scan_eq {input : Ptr} {stack : List Ptr}
    (hpops : pops s.mem s.stack s.input = .ok (input, stack)) (hmem : 0 ∈ s.mem input) :
    s.scan macros = if Reader.text { s with input := input, stack := stack } = [] then
        .ok (Reader.atEos { s with input := input, stack := stack })
      else if s.inquote then Reader.quote { s with input := input, stack := stack }
      else Reader.openMacros macros (ssize + 2) { s with input := input, stack := stack } >>=
          Reader.quote := by
  unfold Reader.scan
  rw [hpops, ok_bind]
  dsimp only
  cases htext : Reader.text { s with input := input, stack := stack } with
  | nil =>
    rw [deref_mem_nil hmem htext, ok_bind, if_pos rfl, if_pos rfl]
  | cons c t =>
    have hc : c ≠ 0 := by
      rintro rfl
      exact zero_notMem_str _ (show 0 ∈ Reader.text _ from htext ▸ List.mem_cons_self)
    rw [deref_mem hmem htext, ok_bind, if_neg hc, if_neg (List.cons_ne_nil c t)]
    cases s.inquote <;> rfl

/-- The end of the rule comes at the same place in the expanded text. -/
lemma agree_eos (h : Expands defs false s r) (htext : s.text = []) (hstack : s.stack = []) :
    r.text = [] ∧ Agree defs (.ok s.atEos) (.ok r.atEos) := by
  obtain ⟨n, hexp⟩ := h.text
  have hrest : s.rest = [] := by simp [Reader.rest, Reader.behind, htext, hstack]
  have htext' : r.text = [] := by
    cases n with
    | zero => cases hexp
    | succ n =>
      rw [hrest, expand, Option.some.injEq] at hexp
      exact hexp.symm
  refine ⟨htext', rfl, rfl, ?_⟩
  rw [if_pos (show s.atEos.tok = .eos from rfl)]
  exact ⟨htext.trans htext'.symm, hstack, h.inquote.symm⟩

/-- A call that opens macros agrees with the call on the expanded text. -/
lemma agree_open {s' : Reader} (h : Expands defs false s r) (hq : s.inquote = false)
    (hopens : Opens macros defs s s') (hclean : s'.QuoteClean defs) :
    r.text ≠ [] ∧ Agree defs (s.openMacros macros (ssize + 2) >>= Reader.quote)
      (r.openMacros macros (ssize + 2) >>= Reader.quote) := by
  obtain ⟨⟨hq', hin, hst, hroom⟩, hhead, -, hexp, hopen⟩ :=
    opens_spec hopens hq h.input h.stack h.room
  have h' : Expands defs false s' r := by
    obtain ⟨n, hn⟩ := h.text
    rw [hq] at hn
    obtain ⟨n', hn'⟩ := hexp n false r.text hn
    exact ⟨hin, hst, hroom, h.input', h.stack', by rw [hq', h.inquote, hq], n', hq'.symm ▸ hn'⟩
  obtain ⟨c, t, htext⟩ : ∃ c t, s'.text = c :: t := by
    unfold Reader.QuoteClean at hclean
    split at hclean
    · exact hclean.elim
    · exact ⟨_, _, ‹_›⟩
  have hc : c ≠ 123 := by
    rintro rfl
    exact hhead (by rw [htext, List.head?_cons])
  obtain ⟨u, hu⟩ := h'.text_eq htext fun h => hc h.2
  constructor
  · rw [hu]
    exact List.cons_ne_nil c u
  · rw [hopen (ssize + 2) (by omega), openMacros_eq h.input' hu hc]
    exact agree_quote h' hclean fun _ => hhead

/-- A call within a line agrees with the call on the expanded text. -/
lemma agree_scan (h : Expands defs false s r) (hclean : s.ScanClean macros defs) :
    Agree defs (s.scan macros) (r.scan macros) := by
  obtain ⟨input, stack, hpops, hmem, hsuff, hrest, hnil⟩ := pops_spec h.input h.stack
  have hr : ({ r with input := r.input, stack := [] } : Reader) = r := by rw [← h.stack']
  have hpops' :
    pops r.mem r.stack r.input = .ok (r.input, []) := by rw [h.stack', pops_nil h.input']
  have h₁ : Expands defs false { s with input := input, stack := stack } r := by
    obtain ⟨n, hexp⟩ := h.text
    refine ⟨hmem, fun p hp => h.stack p (hsuff.mem hp), hsuff.length_le.trans h.room, h.input',
      h.stack', h.inquote, n, ?_⟩
    rw [← hexp]
    exact congrArg (expand defs n false s.inquote) hrest
  rw [scan_eq hpops hmem, scan_eq hpops' h.input', hr, h.inquote]
  by_cases htext : Reader.text { s with input := input, stack := stack } = []
  · obtain ⟨htext', hagree⟩ := agree_eos h₁ htext (hnil htext)
    rw [if_pos htext, if_pos htext']
    exact hagree
  · have hclean₁ := hclean input stack hpops htext
    rw [if_neg htext]
    by_cases hq : s.inquote = true
    · rw [if_pos hq] at hclean₁
      obtain ⟨c, t, hct⟩ := List.exists_cons_of_ne_nil htext
      obtain ⟨u, hu⟩ := h₁.text_eq hct (by simp [hq])
      have hne : r.text ≠ [] := by
        rw [hu]
        exact List.cons_ne_nil c u
      rw [if_pos hq, if_neg hne, if_pos hq]
      exact agree_quote h₁ hclean₁ (by simp [hq])
    · rw [if_neg hq] at hclean₁
      obtain ⟨s', hopens, hclean'⟩ := hclean₁
      obtain ⟨hne, hagree⟩ := agree_open h₁ (by simpa using hq) hopens hclean'
      rw [if_neg hq, if_neg hne, if_neg hq]
      exact hagree

/-- A rule starts with a character that is not white space, also when it is expanded. -/
lemma expand_start {s' : Reader} {n : ℕ} {out : List ℕ} (hq : s.inquote = false)
    (hin : 0 ∈ s.mem s.input) (hstack : s.stack = []) (hspace : ∀ c, s.text.head? = some c →
    isspace c = false) (hopens : Opens macros defs s s') (hclean : s'.QuoteClean defs)
    (h : expand defs n false false s.rest = some out) :
    ∃ c u, out = c :: u ∧ isspace c = false := by
  obtain ⟨⟨hq', -, -, -⟩, hhead, hsame, hexp, -⟩ :=
    opens_spec hopens hq hin (by simp [hstack]) (by simp [hstack])
  obtain ⟨n', hn'⟩ := hexp n false out h
  unfold Reader.QuoteClean at hclean
  split at hclean
  · exact hclean.elim
  rename_i c t htext
  have hc : c ≠ 123 := by
    rintro rfl
    exact hhead (by rw [htext, List.head?_cons])
  rw [Reader.rest, htext, List.cons_append] at hn'
  obtain ⟨u, hu⟩ := expand_head (fun h => hc h.2) hn'
  refine ⟨c, u, hu, ?_⟩
  by_contra hcontra
  have hsp : isspace c = true := by simpa using hcontra
  have hc34 : c ≠ 34 := by
    rintro rfl
    exact absurd hsp (by decide)
  rw [if_neg hc34] at hclean
  have hclean' := hclean c (by rw [htext, List.head?_cons])
  rw [if_pos ⟨hq', hsp⟩] at hclean'
  rcases hsame with rfl | hne
  · exact hcontra (hspace c (by rw [htext, List.head?_cons]))
  · exact hne hclean'

/-- A line with a rule is read into the buffer, and the blanks in front of the rule are skipped. -/
lemma nextLine_eq (s : Reader) {blanks text : List ℕ} (junk : List ℕ) (lines : List (List ℕ))
    (hblanks : ∀ c ∈ blanks, isspace c = true) (htext : ∃ c t, text = c :: t ∧ isspace c = false)
    (hzero : 0 ∉ text) : s.nextLine ((blanks ++ text ++ 0 :: junk) :: lines) = .ok
      { s with
        buffer := blanks ++ text ++ 0 :: junk, lines := lines, input := .line blanks.length } := by
  obtain ⟨c, t, rfl, hc⟩ := htext
  have htake : (blanks ++ (c :: t) ++ 0 :: junk).takeWhile isspace = blanks := by
    rw [List.append_assoc, List.takeWhile_append_of_pos hblanks, List.cons_append,
      List.takeWhile_cons]
    simp [hc]
  have hne : c ≠ 0 := by
    rintro rfl
    exact hzero List.mem_cons_self
  have hdrop : (blanks ++ (c :: t) ++ 0 :: junk).drop blanks.length = c :: (t ++ 0 :: junk) := by
    rw [List.append_assoc, List.drop_left, List.cons_append]
  unfold Reader.nextLine
  dsimp only
  rw [htake, hdrop]
  change (if c = 0 then _ else _) = _
  rw [if_neg hne]

end Steps

/-! ## Runs -/

/-- The pairs that `k` calls of `advance` deliver, up to the end of the expression, and the state
behind them. -/
def calls (macros : List Macro) : ℕ → Reader → Except Fault (List (Token × ℤ) × Reader)
  | 0, s => .ok ([], s)
  | k + 1, s => do
    let s ← s.advance macros
    if s.tok = .eos then .ok ([(s.tok, s.lexeme)], s)
    else
      let (l, s') ← calls macros k s
      .ok ((s.tok, s.lexeme) :: l, s')

/-- The calls of a run are made in a state that meets the condition. -/
def CleanCalls (macros : List Macro) (defs : List (List ℕ × List ℕ)) : ℕ → Reader → Prop
  | 0, _ => True
  | k + 1, s => s.Clean macros defs ∧
      ∀ s', s.advance macros = .ok s' → s'.tok ≠ .eos → CleanCalls macros defs k s'

/-- Two runs that deliver the same pairs and, at the end of the expression, leave the same text of
the action behind, with no macro open. -/
def CallsAgree (x y : Except Fault (List (Token × ℤ) × Reader)) : Prop :=
  match x, y with
  | .ok (l, s), .ok (l', r) =>
    l = l' ∧ (s.tok = .eos → s.text = r.text ∧ s.stack = [] ∧ s.inquote = r.inquote)
  | .error e, .error e' => e = e'
  | _, _ => False

section Runs

variable {macros : List Macro} {defs : List (List ℕ × List ℕ)} {s r : Reader}

/-- A pair is put in front of the pairs of two runs that agree. -/
lemma CallsAgree.cons {x y : Except Fault (List (Token × ℤ) × Reader)} (h : CallsAgree x y)
    (p : Token × ℤ) : CallsAgree (x >>= fun ls => .ok (p :: ls.1, ls.2))
    (y >>= fun ls => .ok (p :: ls.1, ls.2)) := by
  rcases x with e | ⟨l, s⟩ <;> rcases y with e' | ⟨l', r⟩
  · exact h
  · exact h.elim
  · exact h.elim
  · obtain ⟨rfl, hend⟩ := h
    exact ⟨rfl, hend⟩

/-- A run agrees with another one when the first calls and the runs behind them agree. -/
lemma callsAgree_succ {k : ℕ} (h : Agree defs (s.advance macros) (r.advance macros))
    (hrun : ∀ s' r', s.advance macros = .ok s' → s'.tok ≠ .eos → s'.tok = r'.tok →
    Expands defs false s' r' →
      CallsAgree (calls macros k s') (calls macros k r')) :
    CallsAgree (calls macros (k + 1) s) (calls macros (k + 1) r) := by
  unfold calls
  cases hs : s.advance macros with
  | error e =>
    cases hr : r.advance macros with
    | error e' =>
      rw [hs, hr] at h
      exact h
    | ok r' =>
      rw [hs, hr] at h
      exact h.elim
  | ok s' =>
    cases hr : r.advance macros with
    | error e' =>
      rw [hs, hr] at h
      exact h.elim
    | ok r' =>
      rw [hs, hr] at h
      obtain ⟨htok, hlex, hagree⟩ := h
      rw [ok_bind, ok_bind]
      by_cases heos : s'.tok = .eos
      · rw [if_pos heos] at hagree
        rw [if_pos heos, if_pos (htok ▸ heos), htok, hlex]
        exact ⟨rfl, fun _ => hagree⟩
      · rw [if_neg heos] at hagree
        rw [if_neg heos, if_neg (htok ▸ heos)]
        have hrest := (hrun s' r' hs heos htok hagree).cons (s'.tok, s'.lexeme)
        rw [htok, hlex] at hrest ⊢
        exact hrest

/-- The calls within a line agree with the calls on the expanded text. -/
lemma agree_calls {k : ℕ} (h : Expands defs false s r) (htok : s.tok ≠ .eos) (htok' : s.tok = r.tok)
    (hclean : CleanCalls macros defs k s) : CallsAgree (calls macros k s) (calls macros k r) := by
  induction k generalizing s r with
  | zero => exact ⟨rfl, fun heos => absurd heos htok⟩
  | succ k ih =>
    obtain ⟨hstep, hrun⟩ := hclean
    rw [Reader.Clean, if_neg htok] at hstep
    refine callsAgree_succ ?_ fun s' r' hs heos htok'' hexp => ih hexp heos htok'' (hrun s' hs heos)
    rw [Reader.advance, if_neg htok, Reader.advance, if_neg (htok' ▸ htok)]
    exact agree_scan h hstep

/-- The text of a macro is a part of the line of its definition. -/
lemma splitDef_sublist (line : List ℕ) : (splitDef line).2.Sublist line := by
  have htext : (((line.drop (splitDef line).1.length).tail).dropWhile isspace).Sublist line :=
    ((List.dropWhile_sublist isspace).trans (List.tail_sublist _)).trans (List.drop_sublist _ _)
  unfold splitDef
  dsimp only
  split
  · exact htext
  · exact (List.take_sublist _ _).trans htext

/-- The text of a line behind the white space at its start. -/
lemma str_line (blanks : List ℕ) {text : List ℕ} (junk : List ℕ) (hzero : 0 ∉ text) :
    str ((blanks ++ text ++ 0 :: junk).drop blanks.length) = text ∧
      0 ∈ (blanks ++ text ++ 0 :: junk).drop blanks.length := by
  rw [List.append_assoc, List.drop_left]
  exact ⟨str_append hzero, by simp⟩

/-- The first call, which reads the line, agrees with the call on the expanded text. -/
lemma agree_advance {blanks text junk out junk' : List ℕ} {lines lines' : List (List ℕ)} {n : ℕ}
    (hs : s.tok = .eos ∧ s.inquote = false ∧ s.stack = []) (hr : r.tok = .eos ∧ r.inquote = false ∧
    r.stack = []) (hblanks : ∀ c ∈ blanks, isspace c = true)
    (htext : ∃ c t, text = c :: t ∧ isspace c = false) (hzero : 0 ∉ text) (hzero' : 0 ∉ out)
    (hexp : expand defs n false false text = some out)
    (hlines : s.lines = (blanks ++ text ++ 0 :: junk) :: lines)
    (hlines' : r.lines = (blanks ++ out ++ 0 :: junk') :: lines') (hclean : s.Clean macros defs) :
    Agree defs (s.advance macros) (r.advance macros) := by
  obtain ⟨htok, hq, hstack⟩ := hs
  obtain ⟨htok', hq', hstack'⟩ := hr
  have hnext := nextLine_eq s junk lines hblanks htext hzero
  obtain ⟨hstr, hmem⟩ := str_line blanks junk hzero
  obtain ⟨hstr', hmem'⟩ := str_line blanks junk' hzero'
  obtain ⟨c, t, hct, hc⟩ := id htext
  rw [Reader.Clean, if_pos htok, hlines] at hclean
  rw [Reader.advance, if_pos htok, if_neg (by simp [hq]), hlines, hnext, ok_bind,
    if_neg (by rw [htok]; decide)]
  have hscan := hclean _ hnext (by rw [htok]; decide)
  generalize hs₁ : ({ s with
    buffer := blanks ++ text ++ 0 :: junk, lines := lines, input := .line blanks.length } :
      Reader) = s₁ at hscan ⊢
  have hin : 0 ∈ s₁.mem s₁.input := hs₁ ▸ hmem
  have htext₁ : s₁.text = text := hs₁ ▸ hstr
  have hq₁ : s₁.inquote = false := hs₁ ▸ hq
  have hstack₁ : s₁.stack = [] := hs₁ ▸ hstack
  have hexp₁ : expand defs n false false s₁.rest = some out := by
    rw [Reader.rest, Reader.behind, hstack₁, htext₁, List.map_nil, List.flatten_nil,
      List.append_nil, hexp]
  -- the expanded text is no blank line either
  obtain ⟨s', hopens, hquote⟩ : ∃ s', Opens macros defs s₁ s' ∧ s'.QuoteClean defs := by
    have hsame : ({ s₁ with input := s₁.input, stack := [] } : Reader) = s₁ := by rw [← hstack₁]
    have h := hscan s₁.input [] (by rw [hstack₁, pops_nil hin])
    rw [hsame, htext₁, hq₁] at h
    exact h (by rw [hct]; exact List.cons_ne_nil c t)
  have hspace : ∀ c, s₁.text.head? = some c → isspace c = false := by
    intro d hd
    rw [htext₁, hct, List.head?_cons, Option.some.injEq] at hd
    exact hd ▸ hc
  have hout := expand_start hq₁ hin hstack₁ hspace hopens hquote hexp₁
  have hnext' := nextLine_eq r junk' lines' hblanks hout hzero'
  rw [Reader.advance, if_pos htok', if_neg (by simp [hq']), hlines', hnext', ok_bind,
    if_neg (by rw [htok']; decide)]
  refine agree_scan ⟨hin, by simp [hstack₁], by simp [hstack₁], hmem', hstack', ?_, n, ?_⟩ hscan
  · rw [hq₁]
    exact hq'
  · rw [hq₁, hexp₁]
    exact congrArg some hstr'.symm

end Runs

/-! ## The table of the macros -/

/-- A string that fits is copied whole, with a null character behind it. -/
lemma str_strncpy {x : List ℕ} {n : ℕ} (hzero : 0 ∉ x) (hlen : x.length < n) (mem : List ℕ) :
    str (strncpy x n ++ mem) = x ∧ 0 ∈ strncpy x n := by
  have hcopy : strncpy x n = x ++ 0 :: List.replicate (n - x.length - 1) 0 := by
    unfold strncpy
    rw [List.take_append, List.take_of_length_le hlen.le, List.take_replicate,
      Nat.min_eq_left (Nat.sub_le _ _)]
    obtain ⟨m, hm⟩ : ∃ m, n - x.length = m + 1 := Nat.exists_eq_add_of_le' (by omega)
    rw [hm, Nat.add_sub_cancel, List.replicate_succ]
  rw [hcopy, List.append_assoc, List.cons_append]
  exact ⟨str_append hzero, by simp⟩

/-- The table has the bodies of the macros whose names and texts fit into the arrays. -/
theorem findMacro_newMacro {definitions : List (List ℕ)} (hdefs : ∀ line ∈ definitions, 0 ∉ line)
    (hname : ∀ line ∈ definitions, (splitDef line).1.length < macNameMax)
    (htext : ∀ line ∈ definitions, (splitDef line).2.length < macTextMax) (name : List ℕ) :
    (findMacro (definitions.map newMacro) name).map (fun mac => str mac.text) =
      bodyOf (definitions.map splitDef) name := by
  induction definitions with
  | nil => rfl
  | cons line definitions ih =>
    have hzero := hdefs line List.mem_cons_self
    have hname' : str ((newMacro line).name ++ (newMacro line).text) = (splitDef line).1 :=
      (str_strncpy (fun h => hzero ((List.takeWhile_sublist _).subset h))
        (hname line List.mem_cons_self) _).1
    have htext' : str (newMacro line).text = (splitDef line).2 := by
      have h :=
        str_strncpy (fun h => hzero ((splitDef_sublist line).subset h))
          (htext line List.mem_cons_self) []
      rw [List.append_nil] at h
      exact h.1
    have ih' := ih (fun l hl => hdefs l (List.mem_cons_of_mem line hl))
      (fun l hl => hname l (List.mem_cons_of_mem line hl)) fun l hl =>
        htext l (List.mem_cons_of_mem line hl)
    unfold findMacro bodyOf at ih' ⊢
    rw [List.map_cons, List.map_cons, List.find?_cons, List.find?_cons, hname']
    by_cases h : (splitDef line).1 = name
    · simp [h, htext']
    · simp only [h, decide_false]
      exact ih'

/-! ## Transparency -/

/-- The state before the first rule, with the text of a rule in the first line. -/
def Reader.start (text : List ℕ) : Reader :=
  { tok := .eos, lexeme := 0, buffer := [], lines := [text ++ [0]], input := .null, stack := [],
    inquote := false }

/-- The calls for the rule `{D}c x`, where `d` is the body of the macro `D`. -/
lemma cleanCalls_digit :
    CleanCalls (List.map newMacro [[68, 32, 100]]) (List.map splitDef [[68, 32, 100]]) 3
      (Reader.start [123, 68, 125, 99, 32, 120]) := by
  refine ⟨?_, fun s' h _ => ?_⟩
  · rw [Reader.Clean, if_pos (by decide)]
    intro s' h _ input stack hpops _
    cases h
    cases hpops
    refine ⟨_, @Opens.step _ _ _ _ [68] [99, 32, 120] (newMacro [68, 32, 100]) rfl (by decide)
      (by decide) (by decide) (by decide) (by decide) (.done (by decide)), ?_⟩
    exact quoteClean_of_plain (c := 100) (t := []) rfl (by decide) (by decide) (by decide)
  · cases h
    refine ⟨?_, fun s' h _ => ?_⟩
    · rw [Reader.Clean, if_neg (by decide)]
      intro input stack hpops _
      cases hpops
      exact ⟨_, .done (by decide), quoteClean_of_plain (c := 99) (t := [32, 120]) rfl (by decide)
        (by decide) (by decide)⟩
    · cases h
      refine ⟨?_, fun _ _ _ => trivial⟩
      rw [Reader.Clean, if_neg (by decide)]
      intro input stack hpops _
      cases hpops
      exact ⟨_, .done (by decide), quoteClean_of_space (c := 32) (t := [120]) rfl rfl
        (by decide) rfl⟩

/-- As long as the calls meet the condition, the analyzer delivers for a rule what it delivers for
the rule in which the macros are replaced: the same pairs of a token and a lexeme, the same text of
the action, the same error.  At the end of the rule no macro is open. -/
theorem calls_agree {definitions : List (List ℕ)} (hdefs : ∀ line ∈ definitions, 0 ∉ line)
    {s : Reader} (blanks text junk out junk' : List ℕ) (lines lines' : List (List ℕ)) {n k : ℕ}
    (hs : s.tok = .eos ∧ s.inquote = false ∧ s.stack = [])
    (hblanks : ∀ c ∈ blanks, isspace c = true) (htext : ∃ c t, text = c :: t ∧ isspace c = false)
    (hzero : 0 ∉ text) (hlines : s.lines = (blanks ++ text ++ 0 :: junk) :: lines)
    (hexp : expand (definitions.map splitDef) n false false text = some out)
    (hclean : CleanCalls (definitions.map newMacro) (definitions.map splitDef) k s) :
    CallsAgree (calls (definitions.map newMacro) k s)
      (calls (definitions.map newMacro) k { s with
        lines := (blanks ++ out ++ 0 :: junk') :: lines' }) := by
  have hbodies : ∀ d ∈ definitions.map splitDef, 0 ∉ d.2 := by
    intro d hd hmem
    obtain ⟨line, hline, rfl⟩ := List.mem_map.mp hd
    exact hdefs line hline ((splitDef_sublist line).subset hmem)
  cases k with
  | zero => exact ⟨rfl, fun _ => ⟨rfl, hs.2.2, rfl⟩⟩
  | succ k =>
    obtain ⟨hstep, hrun⟩ := hclean
    refine callsAgree_succ ?_ fun s' r' hs' heos htok h => agree_calls h heos htok
      (hrun s' hs' heos)
    exact agree_advance (r := { s with lines := (blanks ++ out ++ 0 :: junk') :: lines' }) hs hs
      hblanks htext hzero (zero_notMem_expand hbodies hzero hexp) hexp hlines rfl hstep

/-- The rule `{D}c x`, where `D` stands for `d`, is read as `dc x` is. -/
theorem calls_agree_digit :
    CallsAgree
    (calls (List.map newMacro [[68, 32, 100]]) 3 (Reader.start [123, 68, 125, 99, 32, 120]))
      (calls (List.map newMacro [[68, 32, 100]]) 3 (Reader.start [100, 99, 32, 120])) :=
  calls_agree (by decide) [] [123, 68, 125, 99, 32, 120] [] [100, 99, 32, 120] [] [] []
    ⟨rfl, rfl, rfl⟩ (by decide) ⟨123, _, rfl, by decide⟩ (by decide) rfl
    (by decide : expand _ 10 _ _ _ = _) cleanCalls_digit

/-- With the macro `S`, whose body is `"b"`, the expression of the rule `{S}c x` ends behind the
`b`: the closing quote is the last character of the body.  The position behind the macro stays on
the stack. -/
theorem not_callsAgree_quote :
    expand (List.map splitDef [[83, 32, 34, 98, 34]]) 10 false false [123, 83, 125, 99, 32, 120] =
        some [34, 98, 34, 99, 32, 120] ∧
      (calls (List.map newMacro [[83, 32, 34, 98, 34]]) 3
      (Reader.start [123, 83, 125, 99, 32, 120])).map
        (fun run => (run.1, run.2.stack.length)) = .ok ([(.l, 98), (.eos, 0)], 1) ∧
      (calls (List.map newMacro [[83, 32, 34, 98, 34]]) 3
      (Reader.start [34, 98, 34, 99, 32, 120])).map
        (fun run => (run.1, run.2.stack.length)) = .ok ([(.l, 98), (.l, 99), (.eos, 0)], 0) ∧
      ¬ CallsAgree (calls (List.map newMacro [[83, 32, 34, 98, 34]]) 3
      (Reader.start [123, 83, 125, 99, 32, 120]))
        (calls (List.map newMacro [[83, 32, 34, 98, 34]]) 3
        (Reader.start [34, 98, 34, 99, 32, 120])) := by
  refine ⟨by decide, by decide, by decide, ?_⟩
  intro h
  exact absurd h.1 (by decide)

end Lex
