import Cgkits.Lex.Advance
import Mathlib.Data.List.TakeWhile
import Mathlib.Data.Nat.Digits.Lemmas

/-!
# Numerals (`syslib.c`)

`sys_stoul` reads a numeral: decimal, hexadecimal behind `0x`, or octal behind any other `0`.  It
has a loop for each base.  `readNumeral` says what a numeral is without loops: its first characters
select a base, and it goes on as long as there are digits of that base.

`sys_stol` reads a minus sign and leaves the rest to `sys_stoul`.  It makes the result a `long`
before it changes the sign, so the numeral of the smallest `long` is not read: its negation is no
`long`.

A pointer into a string is modelled with the memory behind it, as in the lexical analyzer.
-/

namespace Support

open Lex (isspace isdigit isHexdigit isOctdigit toupper)

/-- What goes wrong in a conversion of a text to a number. -/
inductive NumeralFault where
  /-- The memory behind what is known is read. -/
  | stray
  /-- The result of an operation is no `long`. -/
  | overflow
deriving DecidableEq

/-! ## The functions -/

/-- `while(isspace(*str)) ++str`, which passes white space over. -/
def skipSpace : List ℕ → Except NumeralFault (List ℕ)
  | [] => .error .stray
  | c :: str => if isspace c then skipSpace str else .ok (c :: str)

/-- A loop over digits: `num` and the pointer behind the last one.  An `unsigned long` has `w`
bits. -/
def digitLoop (w : ℕ) (isDigit : ℕ → Bool) (base : ℕ) (bin : ℕ → ℕ) :
    ℕ → List ℕ → Except NumeralFault (ℕ × List ℕ)
  | _, [] => .error .stray
  | num, c :: str =>
    if isDigit c then digitLoop w isDigit base bin ((num * base + bin c) % 2 ^ w) str else
      .ok (num, c :: str)

/-- `isdigit(*str) ? (*str - '0') : toupper(*str) - 'A' + 10`. -/
def xdigit2bin (c : ℕ) : ℕ := if isdigit c then c - 48 else toupper c - 65 + 10

/-- `sys_stoul`: the result, and what `*instr` points at. -/
def sysStoul (w : ℕ) (instr : List ℕ) : Except NumeralFault (ℕ × List ℕ) := do
  match ← skipSpace instr with
  | [] => .error .stray
  | c :: str =>
    if c ≠ 48 then digitLoop w isdigit 10 (· - 48) 0 (c :: str)
    else match str with
      | [] => .error .stray
      | x :: str =>
        if x = 88 ∨ x = 120 then digitLoop w isHexdigit 16 xdigit2bin 0 str
        else digitLoop w isOctdigit 8 (· - 48) 0 (x :: str)

/-- The conversion of an `unsigned long` with `w` bits to `long`, which wraps around. -/
def toLong (w num : ℕ) : ℤ := (num : ℤ).bmod (2 ^ w)

/-- The negation of a `long` with `w` bits, which is undefined for the least one. -/
def negLong (w : ℕ) (x : ℤ) : Except NumeralFault ℤ := if -x ≤ 2 ^ (w - 1) - 1 then .ok (-x) else
    .error .overflow

/-- `sys_stol`: the result, and what `*instr` points at. -/
def sysStol (w : ℕ) (instr : List ℕ) : Except NumeralFault (ℤ × List ℕ) := do
  match ← skipSpace instr with
  | [] => .error .stray
  | c :: str =>
    if c ≠ 45 then do
      let (num, str) ← sysStoul w (c :: str)
      .ok (toLong w num, str)
    else do
      let (num, str) ← sysStoul w str
      let x ← negLong w (toLong w num)
      .ok (x, str)

/-! ## Numerals -/

/-- The value of a character as a digit of a base up to 16, if it is one. -/
def digitVal (c : ℕ) : Option ℕ :=
  if 48 ≤ c ∧ c ≤ 57 then some (c - 48)
  else if 97 ≤ c ∧ c ≤ 102 then some (c - 87)
  else if 65 ≤ c ∧ c ≤ 70 then some (c - 55)
  else none

/-- The character is a digit of the base. -/
def IsDigit (base c : ℕ) : Bool := (digitVal c).any (· < base)

/-- The base that the first characters of a text select, and the text behind these characters. -/
def selectBase : List ℕ → ℕ × List ℕ
  | 48 :: 88 :: text => (16, text)
  | 48 :: 120 :: text => (16, text)
  | 48 :: text => (8, text)
  | text => (10, text)

/-- The value of the longest numeral at the beginning of a text, and the text behind the numeral. -/
def readNumeral (text : List ℕ) : ℕ × List ℕ :=
  let (base, text) := selectBase text
  (Nat.ofDigits base ((text.takeWhile (IsDigit base)).filterMap digitVal).reverse,
    text.dropWhile (IsDigit base))

/-- The same with an optional minus sign in front of the numeral. -/
def readSigned : List ℕ → ℤ × List ℕ
  | 45 :: text =>
    (-((readNumeral (text.dropWhile isspace)).1 : ℤ), (readNumeral (text.dropWhile isspace)).2)
  | text => ((readNumeral text).1, (readNumeral text).2)

/-- The ways to print a number that `stoul` understands. -/
inductive Form where
  /-- `%lu`, a decimal number. -/
  | decimal
  /-- `0%lo`, an octal number with a 0 in front. -/
  | octal
  /-- `0x%lx`, or `0X%lX` with upper case letters. -/
  | hexadecimal (upper : Bool)
deriving DecidableEq

/-- The character of a digit, with upper or lower case letters from ten on. -/
def digitChar (upper : Bool) (d : ℕ) : ℕ := if d < 10 then 48 + d else if upper then 55 + d else
    87 + d

/-- The digits of a number as `printf` prints them, with at least one digit. -/
def printDigits (upper : Bool) (base n : ℕ) : List ℕ :=
  if n = 0 then [48] else (Nat.digits base n).reverse.map (digitChar upper)

/-- The characters of a number that is printed in one of the forms. -/
def printNumeral (n : ℕ) : Form → List ℕ
  | .decimal => printDigits false 10 n
  | .octal => 48 :: printDigits false 8 n
  | .hexadecimal upper => 48 :: (if upper then 88 else 120) :: printDigits upper 16 n

/-- The string has a minus sign, and the number behind it is the one whose negation is no `long`. -/
def MinLong (w : ℕ) (s : List ℕ) : Prop :=
  ∃ text, s.dropWhile isspace = 45 :: text ∧ (readNumeral (text.dropWhile isspace)).1 % 2 ^ w =
    2 ^ (w - 1)

/-! ## The loops -/

variable {w base num n : ℕ} {isDigit : ℕ → Bool} {bin : ℕ → ℕ} {c : ℕ} {s text m str : List ℕ}

/-- White space in front of a string is skipped, and what stands behind the string stays. -/
lemma skipSpace_append (s m : List ℕ) :
    skipSpace (s ++ 0 :: m) = .ok (s.dropWhile isspace ++ 0 :: m) := by
  induction s with
  | nil => rfl
  | cons c s ih =>
    rw [List.cons_append, skipSpace, List.dropWhile_cons]
    cases isspace c with
    | false => rfl
    | true => exact ih

/-- White space that has been skipped is skipped again. -/
lemma dropWhile_idem (p : ℕ → Bool) (s : List ℕ) : (s.dropWhile p).dropWhile p = s.dropWhile p := by
  induction s with
  | nil => rfl
  | cons c s ih =>
    cases hc : p c with
    | true =>
      rw [List.dropWhile_cons_of_pos hc]
      exact ih
    | false =>
      rw [List.dropWhile_cons_of_neg (by rw [hc]; exact Bool.false_ne_true)]
      exact List.dropWhile_cons_of_neg (by rw [hc]; exact Bool.false_ne_true)

/-- A loop that reads digits stops at the first other character and computes the value of the
digits. -/
structure ReadsDigits (base : ℕ) (isDigit : ℕ → Bool) (bin : ℕ → ℕ) : Prop where
  /-- The loop stops at the first character that is no digit of the base. -/
  isDigit_eq : ∀ c, IsDigit base c = isDigit c
  /-- The digits have their values. -/
  val_eq : ∀ c, isDigit c = true → digitVal c = some (bin c)

/-- The first loop of `sys_stoul` reads decimal digits. -/
lemma readsDigits_decimal : ReadsDigits 10 isdigit (· - 48) := by
  constructor
  · intro c
    rw [Bool.eq_iff_iff]
    unfold IsDigit digitVal isdigit
    split_ifs <;> simp <;> omega
  · intro c hc
    exact if_pos (of_decide_eq_true hc)

/-- The second loop of `sys_stoul` reads hexadecimal digits. -/
lemma readsDigits_hexadecimal : ReadsDigits 16 isHexdigit xdigit2bin := by
  constructor
  · intro c
    rw [Bool.eq_iff_iff]
    unfold IsDigit digitVal isHexdigit isdigit
    split_ifs <;> simp <;> omega
  · intro c hc
    unfold isHexdigit isdigit at hc
    unfold digitVal xdigit2bin isdigit toupper
    split_ifs <;> simp at * <;> omega

/-- The third loop of `sys_stoul` reads octal digits. -/
lemma readsDigits_octal : ReadsDigits 8 isOctdigit (· - 48) := by
  constructor
  · intro c
    rw [Bool.eq_iff_iff]
    unfold IsDigit digitVal isOctdigit
    split_ifs <;> simp <;> omega
  · intro c hc
    have hrange := of_decide_eq_true hc
    exact if_pos ⟨hrange.1, by omega⟩

/-- One more digit in front of the others counts with the power that their number gives. -/
lemma ofDigits_reverse_cons (base d : ℕ) (l : List ℕ) :
    Nat.ofDigits base (d :: l).reverse = d * base ^ l.length + Nat.ofDigits base l.reverse := by
  rw [List.reverse_cons, Nat.ofDigits_append, List.length_reverse, Nat.ofDigits_singleton,
    Nat.mul_comm, Nat.add_comm]

/-- The digits of a text, as a number behind the number `num` of the digits before. -/
def appendDigits (base num : ℕ) (text : List ℕ) : ℕ :=
  num * base ^ ((text.takeWhile (IsDigit base)).filterMap digitVal).length +
    Nat.ofDigits base ((text.takeWhile (IsDigit base)).filterMap digitVal).reverse

/-- A loop reads as many digits as there are, and computes modulo `2 ^ w`. -/
lemma digitLoop_append (h : ReadsDigits base isDigit bin) (num : ℕ) (s m : List ℕ) :
    digitLoop w isDigit base bin (num % 2 ^ w) (s ++ 0 :: m) =
      .ok (appendDigits base num s % 2 ^ w, s.dropWhile (IsDigit base) ++ 0 :: m) := by
  induction s generalizing num with
  | nil =>
    have hstop : isDigit 0 = false := by
      rw [← h.isDigit_eq]
      rfl
    rw [List.nil_append, digitLoop, hstop, if_neg Bool.false_ne_true]
    simp [appendDigits]
  | cons c s ih =>
    rw [List.cons_append, digitLoop]
    cases hc : isDigit c with
    | false =>
      have hneg : ¬ IsDigit base c = true := by
        rw [h.isDigit_eq, hc]
        exact Bool.false_ne_true
      rw [if_neg Bool.false_ne_true, List.dropWhile_cons_of_neg hneg, appendDigits,
        List.takeWhile_cons_of_neg hneg]
      simp
    | true =>
      have hpos : IsDigit base c = true := (h.isDigit_eq c).trans hc
      have hmod : (num % 2 ^ w * base + bin c) % 2 ^ w = (num * base + bin c) % 2 ^ w := by
        rw [Nat.add_mod, Nat.mod_mul_mod, ← Nat.add_mod]
      have hvalue : appendDigits base (num * base + bin c) s = appendDigits base num (c :: s) := by
        unfold appendDigits
        rw [List.takeWhile_cons_of_pos hpos, List.filterMap_cons_some (h.val_eq c hc),
          ofDigits_reverse_cons, List.length_cons, Nat.pow_succ]
        ring
      rw [if_pos rfl, hmod, ih, hvalue, List.dropWhile_cons_of_pos hpos]

/-- A loop that starts with no digits reads the value of the numeral. -/
lemma digitLoop_zero (h : ReadsDigits base isDigit bin) (s m : List ℕ) :
    digitLoop w isDigit base bin 0 (s ++ 0 :: m) =
      .ok (Nat.ofDigits base ((s.takeWhile (IsDigit base)).filterMap digitVal).reverse % 2 ^ w,
        s.dropWhile (IsDigit base) ++ 0 :: m) := by
  have hloop := digitLoop_append (w := w) h 0 s m
  rw [Nat.zero_mod, appendDigits, Nat.zero_mul, Nat.zero_add] at hloop
  exact hloop

/-- Behind the white space `sys_stoul` reads a numeral. -/
lemma sysStoul_of_skipSpace (h : skipSpace str = .ok (text ++ 0 :: m)) :
    sysStoul w str = .ok ((readNumeral text).1 % 2 ^ w, (readNumeral text).2 ++ 0 :: m) := by
  unfold sysStoul
  rw [h]
  match text with
  | [] => exact digitLoop_zero readsDigits_decimal [] m
  | c :: text =>
    by_cases h48 : c = 48
    · subst h48
      match text with
      | [] => exact digitLoop_zero readsDigits_octal [] m
      | x :: text =>
        by_cases hx : x = 88 ∨ x = 120
        · rcases hx with rfl | rfl
          · exact digitLoop_zero readsDigits_hexadecimal text m
          · exact digitLoop_zero readsDigits_hexadecimal text m
        · have hselect : selectBase (48 :: x :: text) = (8, x :: text) := by
            unfold selectBase
            split <;> simp_all
          unfold readNumeral
          rw [hselect]
          exact (if_neg hx).trans (digitLoop_zero readsDigits_octal (x :: text) m)
    · have hselect : selectBase (c :: text) = (10, c :: text) := by
        unfold selectBase
        split <;> simp_all
      unfold readNumeral
      rw [hselect]
      exact (if_pos h48).trans (digitLoop_zero readsDigits_decimal (c :: text) m)

/-- `sys_stoul` skips white space and reads a numeral. -/
lemma sysStoul_append (w : ℕ) (s m : List ℕ) : sysStoul w (s ++ 0 :: m) =
    .ok ((readNumeral (s.dropWhile isspace)).1 % 2 ^ w, (readNumeral (s.dropWhile isspace)).2 ++
    0 :: m) :=
  sysStoul_of_skipSpace (skipSpace_append s m)

/-! ## The sign -/

/-- The conversion to `long` depends on the number modulo `2 ^ w` only. -/
lemma toLong_mod (w n : ℕ) : toLong w (n % 2 ^ w) = (n : ℤ).bmod (2 ^ w) := by
  unfold toLong
  rw [Int.natCast_emod, Nat.cast_pow]
  exact Int.emod_bmod n (2 ^ w)

/-- A `long` has a negation, unless it is the smallest one. -/
lemma negLong_toLong (w n : ℕ) : negLong w (toLong w (n % 2 ^ w)) =
    if n % 2 ^ w = 2 ^ (w - 1) then .error .overflow else .ok ((-(n : ℤ)).bmod (2 ^ w)) := by
  have hneg : (-(n : ℤ)).bmod (2 ^ w) = (-toLong w (n % 2 ^ w)).bmod (2 ^ w) := by
    rw [toLong_mod]
    exact Int.bmod_neg_bmod.symm
  rw [hneg]
  cases w with
  | zero => simp [negLong, toLong, Nat.mod_one]
  | succ k =>
    have hlt : n % 2 ^ (k + 1) < 2 * 2 ^ k := by
      rw [← Nat.pow_succ']
      exact Nat.mod_lt n (Nat.two_pow_pos _)
    have hpow : ((2 ^ (k + 1) : ℕ) : ℤ) = 2 * ((2 ^ k : ℕ) : ℤ) := by
      rw [Nat.pow_succ']
      exact Nat.cast_mul 2 _
    have hcast : ((2 : ℤ) ^ k) = ((2 ^ k : ℕ) : ℤ) := (Nat.cast_pow 2 k).symm
    rw [negLong, Nat.add_sub_cancel, hcast]
    unfold toLong
    generalize n % 2 ^ (k + 1) = r at hlt
    have hbmod : (r : ℤ).bmod (2 ^ (k + 1)) = if r < 2 ^ k then (r : ℤ) else
      r - 2 * (2 ^ k : ℕ) := by
      rw [Int.bmod_def, hpow, Int.emod_eq_of_lt (Int.natCast_nonneg r) (by omega)]
      split_ifs <;> omega
    by_cases hr : r = 2 ^ k
    · have hmin : (r : ℤ).bmod (2 ^ (k + 1)) = -(2 ^ k : ℕ) := by
        rw [hbmod, if_neg (by omega), hr]
        omega
      rw [if_pos hr, hmin]
      exact if_neg (by omega)
    · rw [if_neg hr, if_pos (by rw [hbmod]; split_ifs <;> omega)]
      have hself :
          (-(r : ℤ).bmod (2 ^ (k + 1))).bmod (2 ^ (k + 1)) = -(r : ℤ).bmod (2 ^ (k + 1)) := by
        apply Int.bmod_eq_of_le
        · rw [hpow, hbmod]
          split_ifs <;> omega
        · rw [hpow, hbmod]
          split_ifs <;> omega
      rw [hself]

/-- Behind a minus sign `sys_stol` returns the negative value of the numeral, and is undefined for
the least `long`. -/
lemma sysStol_minus (h : skipSpace str = .ok (45 :: (text ++ 0 :: m))) : sysStol w str =
    if (readNumeral (text.dropWhile isspace)).1 % 2 ^ w = 2 ^ (w - 1) then .error .overflow
    else .ok ((readSigned (45 :: text)).1.bmod (2 ^ w), (readSigned (45 :: text)).2 ++ 0 :: m) := by
  have hneg := negLong_toLong w (readNumeral (text.dropWhile isspace)).1
  unfold sysStol
  rw [h]
  change ((sysStoul w (text ++ 0 :: m)) >>= fun r => negLong w (toLong w r.1) >>= fun x =>
    Except.ok (x, r.2)) = _
  rw [sysStoul_append]
  change (negLong w (toLong w _) >>= fun x => Except.ok (x, _)) = _
  rw [hneg]
  split_ifs <;> rfl

/-- A text without a minus sign is read as the numeral that stands at its beginning. -/
lemma readSigned_plain (h : text.head? ≠ some 45) :
    readSigned text = (((readNumeral text).1 : ℤ), (readNumeral text).2) := by
  unfold readSigned
  split
  · exact absurd rfl h
  · rfl

/-- Without a minus sign `sys_stol` returns the value of the numeral, wrapped around to a `long`. -/
lemma sysStol_plain (h : skipSpace str = .ok (text ++ 0 :: m))
    (htext : text.dropWhile isspace = text) (hsign : text.head? ≠ some 45) :
    sysStol w str = .ok ((readSigned text).1.bmod (2 ^ w), (readSigned text).2 ++ 0 :: m) := by
  have hstoul := sysStoul_append w text m
  rw [htext] at hstoul
  rw [readSigned_plain hsign, ← toLong_mod]
  unfold sysStol
  rw [h]
  cases text with
  | nil =>
    change ((sysStoul w (0 :: m)) >>= fun r => Except.ok (toLong w r.1, r.2)) = _
    rw [List.nil_append] at hstoul
    rw [hstoul]
    rfl
  | cons c text =>
    have hc : c ≠ 45 := fun hc => hsign (congrArg some hc)
    change (if c ≠ 45 then (sysStoul w (c :: text ++ 0 :: m)) >>= fun r =>
      Except.ok (toLong w r.1, r.2) else _) = _
    rw [if_pos hc, hstoul]
    rfl

/-- `sys_stol` reads a numeral with an optional minus sign, unless the result is no `long`. -/
lemma sysStol_append (w : ℕ) (s m : List ℕ) :
    (MinLong w s → sysStol w (s ++ 0 :: m) = .error .overflow) ∧
    (¬ MinLong w s → sysStol w (s ++ 0 :: m) =
      .ok ((readSigned (s.dropWhile isspace)).1.bmod (2 ^ w),
      (readSigned (s.dropWhile isspace)).2 ++ 0 :: m)) := by
  have hskip := skipSpace_append s m
  have hidem := dropWhile_idem isspace s
  by_cases hsign : (s.dropWhile isspace).head? = some 45
  · obtain ⟨text, htext⟩ := List.head?_eq_some_iff.mp hsign
    have hmin : MinLong w s ↔ (readNumeral (text.dropWhile isspace)).1 % 2 ^ w = 2 ^ (w - 1) := by
      constructor
      · rintro ⟨text', htext', hvalue⟩
        obtain ⟨-, rfl⟩ := List.cons.inj (htext.symm.trans htext')
        exact hvalue
      · exact fun hvalue => ⟨text, htext, hvalue⟩
    rw [htext] at hskip
    rw [hmin, htext, sysStol_minus hskip]
    exact ⟨fun h => if_pos h, fun h => if_neg h⟩
  · refine ⟨fun ⟨text, htext, _⟩ => absurd (by rw [htext]; rfl) hsign, fun _ => ?_⟩
    exact sysStol_plain hskip hidem hsign

example :
    sysStol 64 ("  -0033fd".toList.map Char.toNat ++ [0]) =
    .ok (-27, "fd".toList.map Char.toNat ++ [0]) := by
  decide +kernel

/-! ## Printed numerals -/

/-- The character that is printed for a digit has the value of the digit. -/
lemma digitVal_digitChar (upper : Bool) {d : ℕ} (hd : d < 16) :
    digitVal (digitChar upper d) = some d := by
  revert d
  cases upper <;> decide

/-- The character that is printed for a digit below the base is a digit of the base. -/
lemma isDigit_digitChar (upper : Bool) {d : ℕ} (hbase : base ≤ 16) (hd : d < base) :
    IsDigit base (digitChar upper d) = true := by
  unfold IsDigit
  rw [digitVal_digitChar upper (Nat.lt_of_lt_of_le hd hbase)]
  exact decide_eq_true hd

/-- A text of digits behind the characters that select the base is a numeral. -/
lemma readNumeral_of_selectBase (upper : Bool) {l : List ℕ} (hbase : base ≤ 16)
    (hl : ∀ d ∈ l, d < base) (h : selectBase text = (base, l.map (digitChar upper))) :
    readNumeral text = (Nat.ofDigits base l.reverse, []) := by
  have hdigit : ∀ c ∈ l.map (digitChar upper), IsDigit base c = true := by
    intro c hc
    obtain ⟨d, hd, rfl⟩ := List.mem_map.mp hc
    exact isDigit_digitChar upper hbase (hl d hd)
  have hval : ∀ d ∈ l, (digitVal ∘ digitChar upper) d = some d :=
    fun d hd => digitVal_digitChar upper (Nat.lt_of_lt_of_le (hl d hd) hbase)
  unfold readNumeral
  rw [h]
  dsimp only
  rw [List.takeWhile_eq_self_iff.mpr hdigit, List.dropWhile_eq_nil_iff.mpr hdigit,
    List.filterMap_map, List.filterMap_congr hval, List.filterMap_some]

/-- What `printf` prints are the characters of digits of the number. -/
lemma exists_digits (upper : Bool) (n : ℕ) (hbase : 1 < base) :
    ∃ l, l ≠ [] ∧ printDigits upper base n = l.map (digitChar upper) ∧ (∀ d ∈ l, d < base) ∧
      Nat.ofDigits base l.reverse = n ∧ (n ≠ 0 → l.head? ≠ some 0) := by
  unfold printDigits
  by_cases hn : n = 0
  · subst hn
    refine ⟨[0], List.cons_ne_nil _ _, rfl, ?_, by simp, fun h => absurd rfl h⟩
    intro d hd
    rw [List.mem_singleton.mp hd]
    exact Nat.zero_lt_of_lt hbase
  · have hne : Nat.digits base n ≠ [] := Nat.digits_ne_nil_iff_ne_zero.mpr hn
    refine ⟨(Nat.digits base n).reverse, fun h => hne (List.reverse_eq_nil_iff.mp h), if_neg hn,
      ?_, ?_, ?_⟩
    · intro d hd
      exact Nat.digits_lt_base hbase (List.mem_reverse.mp hd)
    · rw [List.reverse_reverse]
      exact Nat.ofDigits_digits base n
    · intro _ hhead
      rw [List.head?_reverse, List.getLast?_eq_some_getLast hne] at hhead
      exact Nat.getLast_digit_ne_zero base hn (Option.some.inj hhead)

/-- The character of a digit other than zero is not `0`, and that of a decimal digit is no
letter. -/
lemma digitChar_ne {d : ℕ} (hd : d < 10) : (d ≠ 0 → digitChar false d ≠ 48) ∧
    digitChar false d ≠ 88 ∧ digitChar false d ≠ 120 := by
  unfold digitChar
  rw [if_pos hd]
  omega

/-- A number that is printed in any of the forms is read back, and nothing is left of the text. -/
lemma readNumeral_printNumeral (n : ℕ) (form : Form) :
    readNumeral (printNumeral n form) = (n, []) := by
  cases form with
  | decimal =>
    obtain ⟨l, hne, hprint, hlt, hvalue, hhead⟩ := exists_digits false n (show 1 < 10 by decide)
    by_cases hn : n = 0
    · subst hn
      rfl
    obtain ⟨d, l, rfl⟩ := List.exists_cons_of_ne_nil hne
    have hd : digitChar false d ≠ 48 :=
      (digitChar_ne (hlt d List.mem_cons_self)).1 fun hd => hhead hn (congrArg some hd)
    have hselect : selectBase (printNumeral n .decimal) = (10, (d :: l).map (digitChar false)) := by
      rw [printNumeral, hprint, List.map_cons]
      unfold selectBase
      split <;> simp_all
    rw [readNumeral_of_selectBase false (by decide) hlt hselect, hvalue]
  | octal =>
    obtain ⟨l, hne, hprint, hlt, hvalue, -⟩ := exists_digits false n (show 1 < 8 by decide)
    obtain ⟨d, l, rfl⟩ := List.exists_cons_of_ne_nil hne
    have hd := (digitChar_ne (Nat.lt_trans (hlt d List.mem_cons_self) (by decide))).2
    have hselect : selectBase (printNumeral n .octal) = (8, (d :: l).map (digitChar false)) := by
      rw [printNumeral, hprint, List.map_cons]
      unfold selectBase
      split <;> simp_all
    rw [readNumeral_of_selectBase false (by decide) hlt hselect, hvalue]
  | hexadecimal upper =>
    obtain ⟨l, -, hprint, hlt, hvalue, -⟩ := exists_digits upper n (show 1 < 16 by decide)
    have hselect :
        selectBase (printNumeral n (.hexadecimal upper)) = (16, l.map (digitChar upper)) := by
      rw [printNumeral, hprint]
      cases upper <;> rfl
    rw [readNumeral_of_selectBase upper (Nat.le_refl 16) hlt hselect, hvalue]

/-- A printed number has no white space and no sign in front. -/
lemma head_printNumeral (n : ℕ) (form : Form) :
    (printNumeral n form).dropWhile isspace = printNumeral n form ∧
    (printNumeral n form).head? ≠ some 45 := by
  obtain ⟨c, text, hprint, hspace, hsign⟩ : ∃ c text, printNumeral n form = c :: text ∧
      isspace c = false ∧ c ≠ 45 := by
    cases form with
    | decimal =>
      obtain ⟨l, hne, hprint, hlt, -⟩ := exists_digits false n (show 1 < 10 by decide)
      obtain ⟨d, l, rfl⟩ := List.exists_cons_of_ne_nil hne
      have hd := hlt d List.mem_cons_self
      refine ⟨digitChar false d, l.map (digitChar false), hprint, ?_⟩
      unfold digitChar isspace
      rw [if_pos hd]
      refine ⟨decide_eq_false ?_, ?_⟩ <;> omega
    | octal => exact ⟨48, _, rfl, rfl, by decide⟩
    | hexadecimal upper => exact ⟨48, _, rfl, rfl, by decide⟩
  rw [hprint]
  refine ⟨List.dropWhile_cons_of_neg (by rw [hspace]; exact Bool.false_ne_true),
    fun h => hsign (Option.some.inj h)⟩

/-! ## What the functions do -/

/-- `sys_stoul` skips white space, reads the longest numeral and stops behind it, for every string.
`sys_stol` does the same with an optional minus sign, exactly when this is no minus sign in front of
the number whose negation is no `long`. A number that is printed is read back. -/
theorem sysStol_iff (w : ℕ) :
    (∀ s m, sysStoul w (s ++ 0 :: m) =
      .ok ((readNumeral (s.dropWhile isspace)).1 % 2 ^ w, (readNumeral (s.dropWhile isspace)).2 ++
      0 :: m)) ∧
    (∀ s m, sysStol w (s ++ 0 :: m) =
      .ok ((readSigned (s.dropWhile isspace)).1.bmod (2 ^ w),
      (readSigned (s.dropWhile isspace)).2 ++ 0 :: m) ↔
        ¬ MinLong w s) ∧
    ∀ n < 2 ^ w, ∀ form m, sysStoul w (printNumeral n form ++ 0 :: m) = .ok (n, 0 :: m) ∧
      sysStol w (printNumeral n form ++ 0 :: m) = .ok (toLong w n, 0 :: m) := by
  refine ⟨sysStoul_append w, fun s m => ⟨fun h hmin => ?_, (sysStol_append w s m).2⟩,
    fun n hn form m => ?_⟩
  · rw [(sysStol_append w s m).1 hmin] at h
    cases h
  · obtain ⟨hskip, hsign⟩ := head_printNumeral n form
    have hread := readNumeral_printNumeral n form
    have hstoul := sysStoul_append w (printNumeral n form) m
    have hstol :=
      sysStol_plain (w := w) (skipSpace_append (printNumeral n form) m |>.trans (by rw [hskip]))
        hskip hsign
    rw [hskip, hread, Nat.mod_eq_of_lt hn] at hstoul
    rw [readSigned_plain hsign, hread] at hstol
    exact ⟨hstoul, hstol⟩

/-- The number 42, printed in hexadecimal with upper case letters, is read back by both
functions. -/
theorem sysStol_iff_hex : 42 < 2 ^ 64 ∧
    sysStoul 64 (printNumeral 42 (.hexadecimal true) ++ [0]) = .ok (42, [0]) ∧
      sysStol 64 (printNumeral 42 (.hexadecimal true) ++ [0]) = .ok (toLong 64 42, [0]) :=
  ⟨by norm_num, (sysStol_iff 64).2.2 42 (by norm_num) (.hexadecimal true) []⟩

/-- The numeral of the smallest `long` of 64 bits is not read by `sys_stol`. -/
theorem not_sysStol : ¬ ∀ w s m, sysStol w (s ++ 0 :: m) =
    .ok ((readSigned (s.dropWhile isspace)).1.bmod (2 ^ w), (readSigned (s.dropWhile isspace)).2 ++
    0 :: m) := by
  intro h
  have hmin := h 64 ("-9223372036854775808".toList.map Char.toNat) []
  revert hmin
  decide +kernel

end Support
