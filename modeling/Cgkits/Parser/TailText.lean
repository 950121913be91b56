import Cgkits.Parser.Tail
import Mathlib.Data.List.TakeWhile

/-!
# What the third part of the input file becomes (`main.c`)

`Expands` says what a text becomes when its references are replaced by the texts of `do_dollar` and
its carriage returns are left out.  A `$` is a reference to the number that follows it, and to 0
when there is none.  `tail_spec` says that `tail` prints this text behind its header.

Left out are the references that `tail` does not read as they are meant: a number at the very end of
the file, the last character of which is given back though no other one has been read, a name that
does not fit into the array, and a number that is no `int` or is the one that stands for `$$`.  Left
out are also those for which `do_dollar` has no text that can be printed: `$$` without a field when
there are fields, since there is no production, and `$$` with a `%` in its field.
-/

namespace Parser

open Lex (Buffer InputCall TermBuffer Tracks maxLexemeLen)
open Outcome

/-- What a reference refers to: the left-hand side or a symbol by its number. -/
inductive RefTarget
  /-- `$$`, the left-hand side. -/
  | lhs
  /-- A number, with a sign or without. -/
  | symbol (negative : Bool) (digits : List UInt8)

/-- A reference of the user's code: what stands behind a `$`. -/
structure Reference where
  /-- The field `<field>`, if the reference has one. -/
  field : Option (List UInt8)
  /-- What the reference refers to, behind the field. -/
  target : RefTarget

namespace RefTarget

/-- How the target of a reference is written: `$`, or a sign and digits. -/
def spelling : RefTarget → List UInt8
  | lhs => [36]
  | symbol negative digits => (if negative then [45] else []) ++ digits

/-- The number that `do_dollar` is called with for the reference. -/
def num : RefTarget → ℤ
  | lhs => dollarDollar
  | symbol negative digits => Nat.ofDigitChars 10 (digits.map toChar) 0 * if negative then -1 else 1

end RefTarget

namespace Reference

variable (r : Reference)

/-- The name of the field, which is empty when the reference has none. -/
def name : List UInt8 := r.field.getD []

/-- How the field is written: its name in angle brackets, or nothing. -/
def fieldSpelling : List UInt8 := r.field.elim [] fun name => 60 :: (name ++ [62])

/-- How the reference is written behind the `$`: its field and its target. -/
def spelling : List UInt8 := r.fieldSpelling ++ r.target.spelling

/-- The text that `do_dollar` returns for the reference. -/
def text (fieldsActive : Bool) : Lexeme :=
  (doDollar ⟨fieldsActive, [], fun _ => []⟩ r.target.num (-1) 0 (r.name.map toChar) []).1

end Reference

/-- The text goes on with a character that is not a part of the number, nor of another reference if
there are no digits. -/
def RefTarget.EndsBefore (hasField : Bool) (rest : List UInt8) : RefTarget → Prop
  | .lhs => True
  | .symbol negative digits => ∃ y rest', rest = y :: rest' ∧ ¬ (48 ≤ y.toNat ∧ y.toNat ≤ 57) ∧
      (digits = [] → negative = false → y ≠ 36 ∧ y ≠ 45 ∧ (hasField = false → y ≠ 60))

/-- The text of `do_dollar` can be printed as a format, with no `%` in it. -/
def RefTarget.Printable (fieldsActive : Bool) (name : List UInt8) : RefTarget → Prop
  | .lhs => (name = [] → fieldsActive = false) ∧ 37 ∉ name
  | .symbol _ digits => (∀ x ∈ digits, 48 ≤ x.toNat ∧ x.toNat ≤ 57) ∧
      Nat.ofDigitChars 10 (digits.map toChar) 0 < 2 ^ 31 - 1

/-- The reference in front of the text `rest` is read as it is meant, and there is a text for it. -/
structure Reference.Replaceable (r : Reference) (fieldsActive : Bool) (rest : List UInt8) :
    Prop where
  /-- The name of the field fits into the array. -/
  field : ∀ name ∈ r.field, name.length < 79 ∧ 0 ∉ name ∧ 62 ∉ name
  /-- There is a character behind the number. -/
  ends : r.target.EndsBefore r.field.isSome rest
  /-- There is a text for the reference. -/
  printable : r.target.Printable fieldsActive r.name

/-- What a text becomes when the references are replaced. It ends at a NUL. -/
inductive Expands (fieldsActive : Bool) : List UInt8 → Lexeme → Prop
  | eof : Expands fieldsActive [] []
  | nul (text : List UInt8) : Expands fieldsActive (0 :: text) []
  | cr {text : List UInt8} {out : Lexeme} (h : Expands fieldsActive text out) :
    Expands fieldsActive (13 :: text) out
  | char {x : UInt8} {text : List UInt8} {out : Lexeme} (hx : x ∉ [0, 13, 36])
    (h : Expands fieldsActive text out) : Expands fieldsActive (x :: text) (toChar x :: out)
  | ref {r : Reference} {text : List UInt8} {out : Lexeme} (hr : r.Replaceable fieldsActive text)
      (h : Expands fieldsActive text out) :
      Expands fieldsActive (36 :: (r.spelling ++ text)) (r.text fieldsActive ++ out)

variable {env : TailEnv} {s s' : TailState} {fuel : ℕ} {x y : UInt8}
  {name rest text digits : List UInt8} {r : Reference}

/-! ## The texts of `do_dollar` -/

/-- In the third part of the input file, the text depends neither on the line nor on the previous
reference. -/
lemma doDollar_tail {env : DollarEnv} {num : ℤ} {fname : Lexeme}
    (huses : usesProd env.fieldsActive num (-1) fname = false) (lineno : ℕ) (buf : Lexeme) :
    doDollar env num (-1) lineno fname buf = doDollar env num (-1) 0 fname [] := by
  unfold usesProd at huses
  rw [decide_eq_false_iff_not] at huses
  unfold doDollar
  by_cases hnum : num = dollarDollar
  · rw [if_pos hnum, if_pos hnum]
    by_cases hfield : fname ≠ []
    · rw [if_pos hfield, if_pos hfield]
    · have hfields : ¬ env.fieldsActive = true := fun h => huses ⟨h, not_not.mp hfield, .inl hnum⟩
      rw [if_neg hfield, if_neg hfield, if_neg hfields, if_neg hfields]
  · have htail : (-1 : ℤ) < 0 := by decide
    simp only [if_neg hnum, if_pos htail]

/-- A character of the input has the number of its byte. -/
lemma toNat_toChar (x : UInt8) : (toChar x).toNat = x.toNat := by
  have hlt : x.toNat < 256 := x.toNat_lt
  have hvalid : x.toNat.isValidChar := .inl (by omega)
  unfold toChar Char.ofNat
  rw [dif_pos hvalid]
  rfl

/-- There is no `%` in the digits of a number. -/
lemma not_mem_decimal (n : ℤ) : '%' ∉ decimal n := by
  have hdigits : '%' ∉ Nat.toDigits 10 n.natAbs := fun h =>
    absurd (Nat.isDigit_of_mem_toDigits (by decide) (by decide) h) (by decide)
  unfold decimal
  split_ifs
  · exact mt List.mem_cons.mp (not_or.mpr ⟨by decide, hdigits⟩)
  · exact hdigits

/-- There is no `%` in a name that has none among its bytes. -/
lemma not_mem_map_toChar (h : 37 ∉ name) : '%' ∉ name.map toChar := by
  intro hmem
  obtain ⟨x, hx, hchar⟩ := List.mem_map.mp hmem
  have hnum : x.toNat = (37 : UInt8).toNat := by
    rw [← toNat_toChar, hchar]
    rfl
  obtain rfl := UInt8.toNat_inj.mp hnum
  exact h hx

namespace Reference.Replaceable

variable {fieldsActive : Bool}

/-- The number of a symbol is not the one that stands for `$$`. -/
lemma num_ne {negative : Bool} (h : r.Replaceable fieldsActive rest)
    (ht : r.target = .symbol negative digits) : r.target.num ≠ dollarDollar := by
  have hprint := h.printable
  rw [ht] at hprint ⊢
  have hlt := hprint.2
  unfold RefTarget.num dollarDollar
  cases negative
  · simp only [Bool.false_eq_true, if_false]
    omega
  · simp only [if_true]
    omega

/-- No production is needed for the text of a replaceable reference. -/
lemma not_usesProd (h : r.Replaceable fieldsActive rest) :
    usesProd fieldsActive r.target.num (-1) (r.name.map toChar) = false := by
  unfold usesProd
  rw [decide_eq_false_iff_not]
  rintro ⟨hactive, hname, hnum | ⟨-, hneg, -⟩⟩
  · cases ht : r.target with
    | lhs =>
      have hprint := h.printable
      rw [ht] at hprint
      rw [hprint.1 (List.map_eq_nil_iff.mp hname)] at hactive
      cases hactive
    | symbol negative digits => exact h.num_ne ht hnum
  · exact absurd hneg (by decide)

/-- The text of a replaceable reference is no format. -/
lemma not_percent (h : r.Replaceable fieldsActive rest) : '%' ∉ r.text fieldsActive := by
  unfold Reference.text doDollar
  cases ht : r.target with
  | lhs =>
    have hprint := h.printable
    rw [ht] at hprint
    have hlhs : RefTarget.lhs.num = dollarDollar := rfl
    rw [if_pos hlhs]
    by_cases hname : r.name.map toChar = []
    · have hactive : ¬ fieldsActive = true := by simp [hprint.1 (List.map_eq_nil_iff.mp hname)]
      simp only [hname, ne_eq, not_true_eq_false, if_false, if_neg hactive]
      decide
    · rw [if_pos hname]
      refine mt List.mem_append.mp (not_or.mpr ⟨by decide, ?_⟩)
      exact mt List.mem_cons.mp (not_or.mpr ⟨by decide, not_mem_map_toChar hprint.2⟩)
  | symbol negative digits =>
    have htail : (-1 : ℤ) < 0 := by decide
    rw [← ht, if_neg (h.num_ne ht)]
    dsimp only
    rw [if_pos htail]
    refine mt List.mem_append.mp (not_or.mpr ⟨?_, by decide⟩)
    exact mt List.mem_append.mp (not_or.mpr ⟨by decide, not_mem_decimal _⟩)

end Reference.Replaceable

/-! ## Reading a reference -/

/-- The text `text` is what is left to be read. -/
structure TailState.At (s : TailState) (text : List UInt8) : Prop where
  /-- The text is that behind the cursor. -/
  tracks : ∃ c, Tracks c s.inp ∧ c.unread = text
  /-- At the end of the file nothing is left of it. -/
  drained : s.inp.Drained

/-- The character `x` has been read, and the text `rest` is to be read. -/
structure TailState.Took (s : TailState) (x : UInt8) (rest : List UInt8) : Prop where
  /-- The text is that of a cursor in front of `x`. -/
  tracks : ∃ c : Cursor UInt8, Tracks c.skip s.inp ∧ c.unread = x :: rest
  /-- At the end of the file nothing is left of it. -/
  drained : s.inp.Drained

/-- A strict run has been stopped by the input system or by an overflow within a reference. -/
def Ruined (fault : TailFault) : Prop := fault = .missed ∨ ∃ stop, fault = .input stop

/-- Behind a character that has been read, the rest of the text is left. -/
lemma TailState.Took.at (h : s.Took x rest) : s.At rest := by
  obtain ⟨c, hc, hunread⟩ := h.tracks
  have hlook : c.look 1 = some x := by
    rw [Cursor.look_eq, hunread]
    rfl
  refine ⟨⟨c.skip, hc, ?_⟩, h.drained⟩
  exact (List.cons.inj ((Cursor.unread_skip hlook).symm.trans hunread)).2

/-- When the last character is given back, it is left to be read again. -/
lemma TailState.Took.pushback (h : s.Took x rest) :
    TailState.At { s with inp := (s.inp.pushback 1).2 } (x :: rest) := by
  obtain ⟨c, hc, hunread⟩ := h.tracks
  have hlook : c.look 1 = some x := by
    rw [Cursor.look_eq, hunread]
    rfl
  have hstep : InputCall.Step (.pushback 1, some (s.inp.pushback 1).1) s.inp (s.inp.pushback 1).2 :=
    rfl
  refine ⟨⟨_, hc.pushback 1, ?_⟩, hc.drained hstep trivial h.drained⟩
  have hsmark := Nat.le_trans c.smark_le c.emark_le
  rw [Cursor.skip_eq (Cursor.look_one_eq_some hlook), ← hunread]
  change c.text.drop (max c.smark (c.next + 1 - 1)) = c.text.drop c.next
  rw [Nat.add_sub_cancel, Nat.max_eq_right hsmark]

/-- The next character within a reference is the next of the text, unless the run stops. -/
lemma next_strict (hat : s.At (x :: rest)) :
    Post Ruined (fun p => p.1 = (x.toNat : ℤ) ∧ p.2.Took x rest ∧ p.2.out = s.out)
    (s.next true) := by
  obtain ⟨c, hc, hunread⟩ := hat.tracks
  obtain ⟨fault, hadv⟩ | ⟨hend, hadv⟩ | ⟨-, hadv⟩ | ⟨y, rest', b, hy, -, hc', hd', hadv⟩ :=
    advance_cases hc hat.drained
  · rw [next_error hadv]
    exact .inr ⟨fault, rfl⟩
  · rw [hend] at hunread
    cases hunread
  · rw [next_ok hadv, if_pos ⟨rfl, rfl⟩]
    exact .inl rfl
  · obtain ⟨rfl, rfl⟩ := List.cons.inj (hunread.symm.trans hy)
    rw [next_ok hadv, if_neg (by omega)]
    exact ⟨rfl, ⟨⟨c, hc', hunread⟩, hd'⟩, rfl⟩

/-- The name of a field is read to the `>`, unless the run stops. -/
lemma nameLoop_strict : ∀ {f name : List UInt8} {i : ℕ} {z : ℤ}
    {s : TailState}, s.At (f ++ 62 :: rest) → 62 ∉ f → f.length < i →
    Post Ruined (fun p => p.1 = (62, name ++ f) ∧ p.2.Took 62 rest ∧ p.2.out = s.out)
      (s.nameLoop true i name z) := by
  intro f
  induction f with
  | nil =>
    intro name i z s hat _ hlen
    obtain ⟨i, rfl⟩ := Nat.exists_eq_add_one_of_ne_zero (Nat.ne_of_gt hlen)
    unfold TailState.nameLoop
    refine (next_strict hat).bind fun p hp => ?_
    obtain ⟨y, s₁⟩ := p
    obtain ⟨rfl, htook, hout⟩ := hp
    exact ⟨by simp, htook, hout⟩
  | cons x f ih =>
    intro name i z s hat hno hlen
    obtain ⟨hne, hno⟩ := not_or.mp (mt List.mem_cons.mpr hno)
    obtain ⟨i, rfl⟩ := Nat.exists_eq_add_one_of_ne_zero (Nat.ne_of_gt (Nat.zero_lt_of_lt hlen))
    unfold TailState.nameLoop
    refine (next_strict hat).bind fun p hp => ?_
    obtain ⟨y, s₁⟩ := p
    obtain ⟨rfl, htook, hout⟩ := hp
    have hchar : ¬ (x.toNat : ℤ) = 62 := fun h => hne ((Lex.toNat_eq_iff x 62).mp h).symm
    dsimp only
    rw [if_neg hchar, ofInt_toNat]
    refine (ih htook.at hno (Nat.lt_of_succ_lt_succ hlen)).imp (fun _ he => he) fun p hp => ?_
    obtain ⟨hval, htook', hout'⟩ := hp
    exact ⟨hval.trans (by simp), htook', hout'.trans hout⟩

/-- A field is read with the character behind it, unless the run stops. -/
lemma field_strict (hat : s.At (r.fieldSpelling ++ y :: rest))
    (hname : ∀ name ∈ r.field, name.length < 79 ∧ 0 ∉ name ∧ 62 ∉ name)
    (hy : r.field = none → y ≠ 60) : Post Ruined
      (fun p => p.1 = ((y.toNat : ℤ), r.name.map toChar) ∧ p.2.Took y rest ∧ p.2.out = s.out)
      (s.field true) := by
  unfold TailState.field
  unfold Reference.fieldSpelling at hat
  unfold Reference.name
  cases hfield : r.field with
  | none =>
    rw [hfield] at hat
    refine (next_strict hat).bind fun p hp => ?_
    obtain ⟨z, s₁⟩ := p
    obtain ⟨rfl, htook, hout⟩ := hp
    have hchar : (y.toNat : ℤ) ≠ 60 := fun h => hy hfield ((Lex.toNat_eq_iff y 60).mp h)
    dsimp only
    rw [if_pos hchar]
    exact ⟨rfl, htook, hout⟩
  | some f =>
    obtain ⟨hlen, hzero, hgt⟩ := hname f hfield
    rw [hfield] at hat
    have hat' : s.At (60 :: (f ++ 62 :: y :: rest)) := by simpa using hat
    refine (next_strict hat').bind fun p hp => ?_
    obtain ⟨z, s₁⟩ := p
    obtain ⟨rfl, htook, hout⟩ := hp
    dsimp only
    rw [if_neg (by decide)]
    refine (nameLoop_strict htook.at hgt hlen).bind fun p hp => ?_
    obtain ⟨⟨z, g⟩, s₂⟩ := p
    obtain ⟨hval, htook₂, hout₂⟩ := hp
    obtain ⟨rfl, hg⟩ := Prod.mk.inj hval
    dsimp only
    rw [if_pos rfl]
    refine (next_strict htook₂.at).bind fun p hp => ?_
    obtain ⟨z, s₃⟩ := p
    obtain ⟨rfl, htook₃, hout₃⟩ := hp
    have hstring : f.takeWhile (· ≠ 0) = f := by
      rw [List.takeWhile_eq_self_iff]
      intro x hx
      exact decide_eq_true fun h => hzero (h ▸ hx)
    refine ⟨?_, htook₃, hout₃.trans (hout₂.trans hout)⟩
    rw [hg, List.nil_append, hstring]
    rfl

/-- The sign of a number is read with the character behind it, unless the run stops. -/
lemma sign_strict {negative : Bool} (htook : s.Took x rest)
    (hspell : x :: rest = (if negative then [45] else []) ++ y :: digits)
    (hy : negative = false → y ≠ 45) : Post Ruined
      (fun p => p.1 = ((if negative then -1 else 1), (y.toNat : ℤ)) ∧ p.2.Took y digits ∧
      p.2.out = s.out) (s.sign true x.toNat) := by
  unfold TailState.sign
  cases negative with
  | false =>
    obtain ⟨rfl, rfl⟩ := List.cons.inj hspell
    have hchar : (x.toNat : ℤ) ≠ 45 := fun h => hy rfl ((Lex.toNat_eq_iff x 45).mp h)
    rw [if_pos hchar]
    exact ⟨rfl, htook, rfl⟩
  | true =>
    obtain ⟨rfl, rfl⟩ := List.cons.inj hspell
    have hchar : ¬ ((45 : UInt8).toNat : ℤ) ≠ 45 := by decide
    rw [if_neg hchar]
    refine (next_strict htook.at).bind fun p hp => ?_
    obtain ⟨z, s₁⟩ := p
    obtain ⟨rfl, htook₁, hout₁⟩ := hp
    exact ⟨rfl, htook₁, hout₁⟩

/-- More digits make a number at least as great. -/
lemma le_ofDigitChars (l : List Char) : ∀ i, i ≤ Nat.ofDigitChars 10 l i := by
  induction l with
  | nil =>
    intro i
    rw [Nat.ofDigitChars_nil]
  | cons d l ih =>
    intro i
    rw [Nat.ofDigitChars_cons]
    exact Nat.le_trans (by omega) (ih _)

/-- The digits of a number are read to the character behind them, unless the run stops. -/
lemma digitLoop_strict : ∀ {digits : List UInt8} {fuel i : ℕ} {x : UInt8} {rest : List UInt8}
    {s : TailState}, s.Took x rest → x :: rest = digits ++ y :: text →
    (∀ z ∈ digits, 48 ≤ z.toNat ∧ z.toNat ≤ 57) → ¬ (48 ≤ y.toNat ∧ y.toNat ≤ 57) →
    Nat.ofDigitChars 10 (digits.map toChar) i < 2 ^ 31 - 1 → digits.length < fuel →
      Post Ruined (fun p => p.1 = (Nat.ofDigitChars 10 (digits.map toChar) i : ℤ) ∧
      p.2.Took y text ∧ p.2.out = s.out)
        (s.digitLoop true fuel i x.toNat) := by
  intro digits
  induction digits with
  | nil =>
    intro fuel i x rest s htook hspell _ hy _ hfuel
    obtain ⟨fuel, rfl⟩ := Nat.exists_eq_add_one_of_ne_zero (Nat.ne_of_gt hfuel)
    obtain ⟨rfl, rfl⟩ := List.cons.inj hspell
    unfold TailState.digitLoop
    rw [if_neg (by omega)]
    exact ⟨by simp, htook, rfl⟩
  | cons d digits ih =>
    intro fuel i x rest s htook hspell hdigits hy hlt hfuel
    obtain ⟨fuel, rfl⟩ := Nat.exists_eq_add_one_of_ne_zero (Nat.ne_of_gt (Nat.zero_lt_of_lt hfuel))
    obtain ⟨rfl, rfl⟩ := List.cons.inj hspell
    obtain ⟨hdigit, hdigits⟩ := List.forall_mem_cons.mp hdigits
    have hzero : '0'.toNat = 48 := rfl
    have hstep : Nat.ofDigitChars 10 ((x :: digits).map toChar) i =
        Nat.ofDigitChars 10 (digits.map toChar) (10 * i + (x.toNat - 48)) := by
      rw [List.map_cons, Nat.ofDigitChars_cons, toNat_toChar, hzero]
    rw [hstep] at hlt ⊢
    have hle := le_ofDigitChars (digits.map toChar) (10 * i + (x.toNat - 48))
    have hacc :
      (i : ℤ) * 10 + ((x.toNat : ℤ) - 48) = ((10 * i + (x.toNat - 48) : ℕ) : ℤ) := by omega
    unfold TailState.digitLoop
    rw [if_pos (by omega), if_neg (by omega)]
    obtain ⟨x', rest', hrest⟩ : ∃ x' rest', x' :: rest' = digits ++ y :: text := by
      cases digits with
      | nil => exact ⟨_, _, rfl⟩
      | cons d digits => exact ⟨_, _, rfl⟩
    have hat : s.At (x' :: rest') := by
      rw [hrest]
      exact htook.at
    refine (next_strict hat).bind fun p hp => ?_
    obtain ⟨z, s₁⟩ := p
    obtain ⟨rfl, htook₁, hout₁⟩ := hp
    dsimp only
    rw [hacc]
    refine (ih htook₁ hrest hdigits hy hlt (Nat.lt_of_succ_lt_succ hfuel)).imp (fun _ he => he)
      fun p hp => ?_
    exact ⟨hp.1, hp.2.1, hp.2.2.trans hout₁⟩

/-- The number of a reference is read and the character behind it given back. -/
lemma number_strict {negative : Bool} (htook : s.Took x rest)
    (hspell : x :: rest = (RefTarget.symbol negative digits).spelling ++ y :: text)
    (hdigits : ∀ z ∈ digits, 48 ≤ z.toNat ∧ z.toNat ≤ 57) (hy : ¬ (48 ≤ y.toNat ∧ y.toNat ≤ 57))
    (hsign : digits = [] → negative = false → y ≠ 45)
    (hlt : Nat.ofDigitChars 10 (digits.map toChar) 0 < 2 ^ 31 - 1) (hfuel : digits.length < fuel) :
    Post Ruined
      (fun p => p.1 = (RefTarget.symbol negative digits).num ∧ p.2.At (y :: text) ∧ p.2.out = s.out)
      (s.number true fuel x.toNat) := by
  obtain ⟨z, rest', hz⟩ : ∃ z rest', z :: rest' = digits ++ y :: text := by
    cases digits with
    | nil => exact ⟨_, _, rfl⟩
    | cons d digits => exact ⟨_, _, rfl⟩
  have hspell' : x :: rest = (if negative then [45] else []) ++ z :: rest' := by
    rw [hspell, hz]
    exact List.append_assoc _ _ _
  have hnot : negative = false → z ≠ 45 := by
    intro hneg
    cases digits with
    | nil =>
      obtain ⟨rfl, -⟩ := List.cons.inj hz
      exact hsign rfl hneg
    | cons d digits =>
      obtain ⟨rfl, -⟩ := List.cons.inj hz
      rintro rfl
      exact absurd (hdigits 45 List.mem_cons_self).1 (by decide)
  unfold TailState.number
  refine (sign_strict htook hspell' hnot).bind fun p hp => ?_
  obtain ⟨⟨sign, v⟩, s₁⟩ := p
  obtain ⟨hval, htook₁, hout₁⟩ := hp
  obtain ⟨rfl, rfl⟩ := Prod.mk.inj hval
  refine (digitLoop_strict (i := 0) htook₁ hz hdigits hy hlt hfuel).bind fun p hp => ?_
  obtain ⟨i, s₂⟩ := p
  obtain ⟨rfl, htook₂, hout₂⟩ := hp
  exact ⟨rfl, htook₂.pushback, hout₂.trans hout₁⟩

/-- The text of a replaceable reference is printed behind the output. -/
lemma dollar_eq (hr : r.Replaceable env.fieldsActive rest) (lineno : ℕ) :
    s.dollar env r.target.num lineno (r.name.map toChar) = .ok { s with
      out := s.out ++ r.text env.fieldsActive } := by
  have huses := hr.not_usesProd
  have htext :
      (doDollar ⟨env.fieldsActive, [], fun _ => []⟩ r.target.num (-1) lineno (r.name.map toChar)
      []).1 = r.text env.fieldsActive :=
    congrArg Prod.fst (@doDollar_tail ⟨env.fieldsActive, [], fun _ => []⟩ _ _ huses lineno [])
  unfold TailState.dollar
  rw [huses, htext]
  exact (if_neg (by simp)).trans (if_neg hr.not_percent)

/-- The first character behind the field belongs to a number. -/
lemma exists_first {negative : Bool} {hasField : Bool}
    (hends : (RefTarget.symbol negative digits).EndsBefore hasField text)
    (hdigits : ∀ z ∈ digits, 48 ≤ z.toNat ∧ z.toNat ≤ 57) : ∃ z rest,
      (RefTarget.symbol negative digits).spelling ++ text = z :: rest ∧ z ≠ 36 ∧
      (hasField = false → z ≠ 60) := by
  obtain ⟨y, rest', rfl, -, hfirst⟩ := hends
  cases negative with
  | true => exact ⟨45, digits ++ y :: rest', rfl, by decide, fun _ => by decide⟩
  | false =>
    cases digits with
    | nil =>
      obtain ⟨h36, -, h60⟩ := hfirst rfl rfl
      exact ⟨y, rest', rfl, h36, h60⟩
    | cons d digits =>
      have hdigit := hdigits d List.mem_cons_self
      refine ⟨d, digits ++ y :: rest', rfl, ?_, fun _ => ?_⟩
      · rintro rfl
        exact absurd hdigit.1 (by decide)
      · rintro rfl
        exact absurd hdigit.2 (by decide)

/-- A replaceable reference is read and its text is printed, unless the run stops. -/
lemma reference_strict (hat : s.At (r.spelling ++ text)) (hr : r.Replaceable env.fieldsActive text)
    (hfuel : (r.spelling ++ text).length ≤ fuel) : Post Ruined
      (fun s' => s'.At text ∧ s'.out = s.out ++ r.text env.fieldsActive)
      (s.reference env true fuel) := by
  have hmark : TailState.At { s with inp := s.inp.markStart } (r.spelling ++ text) := by
    obtain ⟨c, hc, hunread⟩ := hat.tracks
    exact ⟨⟨_, hc.markStart, hunread⟩, hat.drained⟩
  have hends := hr.ends
  have hprint := hr.printable
  unfold TailState.reference
  unfold Reference.spelling at hmark hfuel
  cases ht : r.target with
  | lhs =>
    rw [ht] at hmark
    have hmark' :
        TailState.At { s with inp := s.inp.markStart } (r.fieldSpelling ++ 36 :: text) := by
      rw [List.append_assoc] at hmark
      exact hmark
    refine (field_strict hmark' hr.field fun _ => by decide).bind fun p hp => ?_
    obtain ⟨⟨z, fname⟩, s₁⟩ := p
    obtain ⟨hval, htook, hout⟩ := hp
    obtain ⟨rfl, rfl⟩ := Prod.mk.inj hval
    have hdollar := dollar_eq (s := s₁) hr 0
    rw [ht] at hdollar
    have hlhs : RefTarget.lhs.num = dollarDollar := rfl
    have h36 : ((36 : UInt8).toNat : ℤ) = 36 := rfl
    dsimp only
    rw [if_pos h36, ← hlhs, hdollar, hout]
    exact ⟨⟨htook.at.tracks, htook.at.drained⟩, rfl⟩
  | symbol negative digits =>
    rw [ht] at hmark hends hprint hfuel
    obtain ⟨hdigits, hlt⟩ := hprint
    obtain ⟨z, rest, hz, h36, h60⟩ := exists_first hends hdigits
    rw [List.append_assoc, hz] at hmark
    have hfield : r.field = none → z ≠ 60 := fun hnone => h60 (by rw [hnone]; rfl)
    refine (field_strict hmark hr.field hfield).bind fun p hp => ?_
    obtain ⟨⟨v, fname⟩, s₁⟩ := p
    obtain ⟨hval, htook, hout⟩ := hp
    obtain ⟨rfl, rfl⟩ := Prod.mk.inj hval
    have hchar : ¬ (z.toNat : ℤ) = 36 := fun h => h36 ((Lex.toNat_eq_iff z 36).mp h)
    dsimp only
    rw [if_neg hchar]
    obtain ⟨y, rest', rfl, hy, hfirst⟩ := hends
    have hlen : digits.length < fuel := by
      simp only [RefTarget.spelling, List.length_append, List.length_cons] at hfuel
      omega
    refine (number_strict htook hz.symm hdigits hy (fun hnil hneg => (hfirst hnil hneg).2.1) hlt
      hlen).bind fun p hp => ?_
    obtain ⟨num, s₂⟩ := p
    obtain ⟨rfl, hat₂, hout₂⟩ := hp
    have hdollar := dollar_eq (s := s₂) hr s₂.inp.lineno.toNat
    rw [ht] at hdollar
    dsimp only
    rw [hdollar, hout₂, hout]
    exact ⟨⟨hat₂.tracks, hat₂.drained⟩, rfl⟩

/-- The loop of `tail` in front of a character makes room for it, unless the run stops. -/
lemma tailLoop_cons (env : TailEnv) (hat : s.At (x :: rest))
    (hfuel : 2 * (x :: rest).length + 2 ≤ fuel) :
    (∃ fault, s.tailLoop env true fuel = .error (.input fault)) ∨
      ∃ b j, TailState.At { s with inp := b } rest ∧ 2 * rest.length + 2 ≤ j ∧
        s.tailLoop env true fuel = if x = 0 then .ok { s with inp := b } else
          TailState.copy env true { s with inp := b } j x.toNat >>= TailState.tailLoop env true
              j := by
  obtain ⟨c, hc, hunread⟩ := hat.tracks
  rw [List.length_cons] at hfuel
  obtain ⟨fuel, rfl⟩ : ∃ fuel', fuel = fuel' + 2 := ⟨fuel - 2, by omega⟩
  obtain ⟨fault, hturns⟩ | ⟨hend, -⟩ | ⟨y, rest', c', b, j, ⟨hy, hrest⟩, -, hc', hd', hj, hturns⟩ :=
    tailLoop_cases env true hc hat.drained fuel
  · exact .inl ⟨fault, hturns⟩
  · rw [hend] at hunread
    cases hunread
  · obtain ⟨rfl, rfl⟩ := List.cons.inj (hunread.symm.trans hy)
    exact .inr ⟨b, j, ⟨⟨c', hc', hrest⟩, hd'⟩, by omega, hturns⟩

/-- Run lemma: the loop of `tail` prints what the text becomes. -/
lemma tailLoop_strict {out : Lexeme} (h : Expands env.fieldsActive text out) :
    ∀ {fuel : ℕ} {s : TailState}, s.At text → 2 * text.length + 2 ≤ fuel →
      Post Ruined (fun s' => s'.out = s.out ++ out) (s.tailLoop env true fuel) := by
  induction h with
  | eof =>
    intro fuel s hat hfuel
    obtain ⟨c, hc, hunread⟩ := hat.tracks
    obtain ⟨fuel, rfl⟩ : ∃ fuel', fuel = fuel' + 2 := ⟨fuel - 2, by omega⟩
    obtain ⟨fault, hturns⟩ | ⟨-, b, hturns⟩ | ⟨x, rest, c', b, j, ⟨hx, -⟩, -⟩ :=
      tailLoop_cases env true hc hat.drained fuel
    · rw [hturns]
      exact .inr ⟨fault, rfl⟩
    · rw [hturns]
      exact (List.append_nil _).symm
    · rw [hunread] at hx
      cases hx
  | nul text =>
    intro fuel s hat hfuel
    obtain ⟨fault, hturns⟩ | ⟨b, j, -, -, hturns⟩ := tailLoop_cons env hat hfuel
    · rw [hturns]
      exact .inr ⟨fault, rfl⟩
    · rw [hturns, if_pos rfl]
      exact (List.append_nil _).symm
  | cr h ih =>
    intro fuel s hat hfuel
    obtain ⟨fault, hturns⟩ | ⟨b, j, hat', hj, hturns⟩ := tailLoop_cons env hat hfuel
    · rw [hturns]
      exact .inr ⟨fault, rfl⟩
    · have hcopy : TailState.copy env true { s with inp := b } j ((13 : UInt8).toNat : ℤ) =
        .ok { s with inp := b } := rfl
      rw [hturns, if_neg (by decide), hcopy]
      exact ih hat' hj
  | @char x text out hx h ih =>
    intro fuel s hat hfuel
    have hzero : x ≠ 0 := fun h => hx (by simp [h])
    have hcr : (x.toNat : ℤ) ≠ 13 := fun h => hx (by simp [(Lex.toNat_eq_iff x 13).mp h])
    have hdollar : ¬ (x.toNat : ℤ) = 36 := fun h => hx (by simp [(Lex.toNat_eq_iff x 36).mp h])
    obtain ⟨fault, hturns⟩ | ⟨b, j, hat', hj, hturns⟩ := tailLoop_cons env hat hfuel
    · rw [hturns]
      exact .inr ⟨fault, rfl⟩
    · have hcopy : TailState.copy env true { s with inp := b } j (x.toNat : ℤ) =
          .ok { s with inp := b, out := s.out ++ [toChar x] } := by
        unfold TailState.copy
        rw [if_neg hdollar, if_pos hcr, ofInt_toNat]
      rw [hturns, if_neg hzero, hcopy]
      have hat'' : TailState.At { s with inp := b, out := s.out ++ [toChar x] } text :=
        ⟨hat'.tracks, hat'.drained⟩
      refine (ih hat'' hj).imp (fun _ he => he) fun s' hs' => hs'.trans ?_
      exact List.append_assoc _ _ _
  | @ref r text out hr h ih =>
    intro fuel s hat hfuel
    obtain ⟨fault, hturns⟩ | ⟨b, j, hat', hj, hturns⟩ := tailLoop_cons env hat hfuel
    · rw [hturns]
      exact .inr ⟨fault, rfl⟩
    · rw [hturns, if_neg (by decide)]
      refine (reference_strict hat' hr (by omega)).bind fun s' hs' => ?_
      have hlen : 2 * text.length + 2 ≤ j := by
        rw [List.length_append] at hj
        omega
      refine (ih hs'.1 hlen).imp (fun _ he => he) fun s'' hs'' => ?_
      rw [hs'', hs'.2]
      exact List.append_assoc _ _ _

/-- `tail` comes to an end.  If it knows what to do with all references, it prints its header and
what the text becomes, or the input system stops it, unless an overflow of the buffer is reported
within a reference.  That happens only if the text from the start of the previous lexeme on is
longer than `_MAX_LEXEME_LEN`. -/
theorem tail_spec {input : TermBuffer} {b : Buffer} (hb : input.unterm.buffer = b) (hheld : b.Held)
    (hdrained : b.Drained) (hfuel : 2 * b.unread.length + 2 ≤ fuel) :
    tail env fuel input ≠ .error .starved ∧
      (tailRun env true fuel input = .error .missed →
      maxLexemeLen < b.next - b.leftEdge + b.unread.length) ∧
      ∀ out, Expands env.fieldsActive b.unread out → tailRun env true fuel input ≠ .error .missed →
        (∃ stop, tail env fuel input = .error (.input stop)) ∨
          ∃ s, tail env fuel input = .ok s ∧ s.out = env.header ++ out := by
  obtain ⟨c, hc, -⟩ := hheld
  have hunread := hc.unread
  have hlen : b.unread.length = c.text.length - c.next := by
    rw [hunread, Cursor.unread, List.length_drop]
  have hruns : Copying (b.next - b.leftEdge + b.unread.length) c.text.length b.unread.length
      ⟨b, env.header⟩ := by
    refine ⟨⟨c, hc, ?_, Nat.le_add_left _ _, by omega⟩, hdrained⟩
    have hleft := hc.leftEdge_add
    have hle := hc.leftEdge_le_next
    omega
  have hat : TailState.At ⟨b, env.header⟩ b.unread := ⟨⟨c, hc, hunread.symm⟩, hdrained⟩
  unfold tail tailRun
  rw [hb]
  refine ⟨fun hstarved => ?_, fun hmissed => ?_, fun out hout hnot => ?_⟩
  · have hpost :
      Post (Halts _) (fun _ => True) (TailState.tailLoop env false fuel ⟨b, env.header⟩) :=
        hruns.tailLoop hfuel
    rw [hstarved] at hpost
    exact hpost.starved rfl
  · have hpost :
      Post (Halts _) (fun _ => True) (TailState.tailLoop env true fuel ⟨b, env.header⟩) :=
        hruns.tailLoop hfuel
    rw [hmissed] at hpost
    exact hpost.missed rfl
  · have hpost := tailLoop_strict hout hat hfuel
    rcases tailLoop_agree env fuel ⟨b, env.header⟩ with hmissed | hsame
    · exact absurd hmissed hnot
    · rw [hsame] at hpost hnot
      rcases hrun : TailState.tailLoop env false fuel ⟨b, env.header⟩ with fault | s
      · rw [hrun] at hpost hnot
        rcases hpost with rfl | ⟨stop, rfl⟩
        · exact absurd rfl hnot
        · exact .inl ⟨stop, rfl⟩
      · rw [hrun] at hpost
        exact .inr ⟨s, rfl, hpost⟩

/-- The first call of `ii_advance` on a file leaves a buffer that holds the text. -/
lemma held_of_first {content : List UInt8} {b : Buffer}
    (h : InputCall.Step (.advance .full, some 10) (Buffer.newfile content) b) :
    b.Held ∧ b.Drained := by
  have hsession : Lex.Session content [(.advance .full, some 10)] b :=
    ⟨⟨_, _, rfl⟩, .cons h (.nil b)⟩
  have hterm : Lex.TermSession content [] ⟨b, 0⟩ := ⟨_, b, hsession, .nil _⟩
  refine ⟨hterm.held, hsession.drained fun i hi => ?_⟩
  obtain rfl := List.mem_singleton.mp hi
  rfl

/-- Theorem `tail_spec` for the text `a$1;` with a carriage return behind it. -/
theorem tail_spec_number : ∃ b s, InputCall.Step (.advance .full, some 10)
    (Buffer.newfile [97, 36, 49, 59, 13]) b ∧ tail ⟨false, true, [], [], 1⟩ 12 ⟨b, 0⟩ = .ok s ∧
    s.out = "aYy_vsp[ Yy_rhslen-1 ];".toList := by
  obtain ⟨b, hb, hunread, hedge, s, hs⟩ : ∃ b,
      InputCall.Step (.advance .full, some 10) (Buffer.newfile [97, 36, 49, 59, 13]) b ∧
        b.unread = [97, 36, 49, 59, 13] ∧ b.next - b.leftEdge = 1 ∧
          ∃ s, tail ⟨false, true, [], [], 1⟩ 12 ⟨b, 0⟩ = .ok s :=
            ⟨_, rfl, by decide, by decide, _, rfl⟩
  obtain ⟨hheld, hdrained⟩ := held_of_first hb
  have hdigits : ∀ x ∈ ([49] : List UInt8), 48 ≤ x.toNat ∧ x.toNat ≤ 57 := by
    intro x hx
    obtain rfl := List.mem_singleton.mp hx
    decide
  have hr : Reference.Replaceable ⟨none, .symbol false [49]⟩ false [59, 13] :=
    { field := nofun
      ends := ⟨59, [13], rfl, by decide, nofun⟩
      printable := ⟨hdigits, by decide⟩ }
  have htext : toChar 97 :: (Reference.text ⟨none, .symbol false [49]⟩ false ++ [toChar 59]) =
      "aYy_vsp[ Yy_rhslen-1 ];".toList := by decide
  have hexpands : Expands false b.unread
      (toChar 97 :: (Reference.text ⟨none, .symbol false [49]⟩ false ++ [toChar 59])) := by
    rw [hunread]
    exact .char (by simp) (.ref hr (.char (by simp) (.cr .eof)))
  rw [htext] at hexpands
  have hlen : b.unread.length = 5 := by
    rw [hunread]
    rfl
  obtain ⟨-, hshort, hout⟩ :=
    @tail_spec ⟨false, true, [], [], 1⟩ 12 ⟨b, 0⟩ b rfl hheld hdrained (by omega)
  have hmax : maxLexemeLen = 1024 := rfl
  have hnot : tailRun ⟨false, true, [], [], 1⟩ true 12 ⟨b, 0⟩ ≠ .error .missed := fun hmissed => by
    have hlong := hshort hmissed
    omega
  refine ⟨b, s, hb, hs, ?_⟩
  rcases hout _ hexpands hnot with ⟨stop, hstop⟩ | ⟨s', hs', hsame⟩
  · rw [hs] at hstop
    cases hstop
  · rw [hs] at hs'
    obtain rfl := Except.ok.inj hs'
    exact hsame

/-- One of the references `$$`, `$N` and `$-N`, with a field or without. -/
def Reference.Proper (r : Reference) : Prop :=
  match r.target with
  | .lhs => True
  | .symbol _ digits => digits ≠ [] ∧ ∀ x ∈ digits, 48 ≤ x.toNat ∧ x.toNat ≤ 57

/-- A proper reference does not start with a letter. -/
lemma Reference.Proper.head_ne (h : r.Proper) (rest : List UInt8) :
    r.spelling ++ rest ≠ 120 :: text := by
  obtain ⟨field, target⟩ := r
  rcases field with - | f
  · rcases target with - | ⟨negative, digits⟩
    · exact fun heq => absurd (List.cons.inj heq).1 (by decide)
    · obtain ⟨hne, hdigits⟩ := h
      obtain ⟨d, digits, rfl⟩ := List.exists_cons_of_ne_nil hne
      cases negative with
      | true => exact fun heq => absurd (List.cons.inj heq).1 (by decide)
      | false =>
        intro heq
        obtain rfl : d = 120 := (List.cons.inj heq).1
        exact absurd (hdigits 120 List.mem_cons_self).2 (by decide)
  · exact fun heq => absurd (List.cons.inj heq).1 (by decide)

/-- A `$` in front of a letter is a reference to the number 0. -/
theorem not_tail : ¬ ∀ (env : TailEnv) fuel (input : TermBuffer) (b : Buffer), input.unterm.buffer =
    b → b.Held → b.Drained → 2 * b.unread.length + 2 ≤ fuel → 0 ∉ b.unread → 13 ∉ b.unread →
    (∀ (r : Reference) u v, r.Proper → b.unread ≠ u ++ 36 :: (r.spelling ++ v)) →
    ∃ s, tail env fuel input = .ok s ∧ s.out = env.header ++ b.unread.map toChar := by
  intro hall
  obtain ⟨b, hb, hunread, s, hs, hout⟩ :
      ∃ b, InputCall.Step (.advance .full, some 10) (Buffer.newfile [36, 120]) b ∧
        b.unread = [36, 120] ∧ ∃ s, tail ⟨false, true, [], [], 1⟩ 6 ⟨b, 0⟩ = .ok s ∧
        s.out = "Yy_vsp[ Yy_rhslen-0 ]x".toList := ⟨_, rfl, by decide, _, rfl, by decide⟩
  obtain ⟨hheld, hdrained⟩ := held_of_first hb
  have hnone : ∀ (r : Reference) u v, r.Proper → b.unread ≠ u ++ 36 :: (r.spelling ++ v) := by
    intro r u v hproper heq
    rw [hunread] at heq
    rcases u with - | ⟨y, u⟩
    · exact hproper.head_ne v (List.cons.inj heq).2.symm
    · have hlast := (List.cons.inj heq).2
      rcases u with - | ⟨z, u⟩
      · exact absurd (List.cons.inj hlast).1 (by decide)
      · have hnil : [] = u ++ 36 :: (r.spelling ++ v) := (List.cons.inj hlast).2
        exact absurd hnil (by simp)
  obtain ⟨s', hs', hsame⟩ :=
    hall ⟨false, true, [], [], 1⟩ 6 ⟨b, 0⟩ b rfl hheld hdrained (by rw [hunread]; decide)
    (by rw [hunread]; decide) (by rw [hunread]; decide) hnone
  rw [hs] at hs'
  obtain rfl := Except.ok.inj hs'
  rw [hunread, hout] at hsame
  exact absurd hsame (by decide)

end Parser
