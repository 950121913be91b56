import Mathlib.Data.List.Infix
import Mathlib.Data.Nat.Notation
import Mathlib.Order.Basic
import Mathlib.Tactic.Basic
import Mathlib.Tactic.SplitIfs

/-!
# The scan of an action (`parser.lex`)

The rule for `{` reads the code of an action up to the brace that closes it.  It has a counter for
the braces, the last two characters and three flags: whether it is in a string, in a character
constant or in a comment.  A backslash is passed over together with the character behind it.

`CMode` is the lexical structure of C, with string and character constants, escapes, comments and,
since C99, comments that begin with `//`.  The rule does not know the last ones, so that quotes,
braces and backslashes in them count.  Without them, and as long as the text is harmless, the flags
say in which of the modes the text is (`Follows.step`, `Follows.escape`). What is not harmless: the
rule takes the end of a comment for the beginning of another one, and the beginning for the end,
when they have a character in common, and it looks for the beginning of a comment in a character
constant as well.
-/

namespace Lex

/-- The variables of the rule for `{`, with the flags of constants and comments. -/
structure ActionScan where
  /-- The number of braces that are open. -/
  nestlev : ℤ
  /-- The previous character, as `lb1` holds it. -/
  lb1 : ℤ
  /-- The character before that. -/
  lb2 : ℤ
  /-- Processing a string constant. -/
  inString : Bool
  /-- Processing a character constant. -/
  inCharConst : Bool
  /-- A comment is being read. -/
  inComment : Bool

namespace ActionScan

variable (sc : ActionScan)

/-- The variables of the rule for an action in front of its loop, with one brace open. -/
def start : ActionScan := ⟨1, 0, 0, false, false, false⟩

/-- The tests of the quotes and of the comments, which set and clear the flags. -/
def modes (i : ℤ) : ActionScan :=
  if i = 34 ∧ !(sc.inCharConst || sc.inComment) then { sc with inString := !sc.inString }
  else if i = 39 ∧ !(sc.inString || sc.inComment) then { sc with inCharConst := !sc.inCharConst }
  else if sc.lb1 = 47 ∧ i = 42 ∧ !sc.inString then { sc with inComment := true }
  else if sc.lb1 = 42 ∧ i = 47 ∧ sc.inComment then { sc with inComment := false }
  else sc

/-- The test in front of the braces: the text is outside of constants and comments. -/
def outside : Bool := !(sc.inString || sc.inCharConst || sc.inComment)

/-- The tests of the braces, which count how many are open. -/
def braces (i : ℤ) : ActionScan :=
  if sc.outside then
    if i = 123 then { sc with nestlev := sc.nestlev + 1 }
    else if i = 125 then { sc with nestlev := sc.nestlev - 1 }
    else sc
  else sc

/-- The step of the loop: the character becomes the previous one. -/
def shift (i : ℤ) : ActionScan := { sc with lb2 := sc.lb1, lb1 := i }

end ActionScan

/-! ## The lexical structure of C -/

/-- Where a character of a C text is: in code, in a constant, or in a comment. -/
inductive CMode
  /-- Outside of constants and comments. -/
  | code
  /-- Behind a slash, which may begin a comment. -/
  | slash
  /-- Behind a backslash outside of constants and comments, in front of a newline. -/
  | splice
  /-- In a string constant, between double quotes. -/
  | string
  /-- In a string constant, behind a backslash. -/
  | stringEsc
  /-- In a character constant, between single quotes. -/
  | char
  /-- In a character constant, behind a backslash. -/
  | charEsc
  /-- In a comment, before a star that may end it. -/
  | block
  /-- In a comment, behind a star, which may end it. -/
  | blockStar
  /-- In a comment that ends with the line. -/
  | line
deriving DecidableEq, Repr

namespace CMode

/-- Behind a character outside of constants and comments. -/
def ofCode (x : UInt8) : CMode :=
  if x = 34 then string else if x = 39 then char else if x = 47 then slash else if x = 92 then
    splice else code

/-- Behind a character, where `lines` says whether two slashes begin a comment. -/
def next (lines : Bool) (x : UInt8) : CMode → Option CMode
  | code => some (ofCode x)
  | slash => some (if x = 42 then block else if x = 47 ∧ lines then line else ofCode x)
  | splice => if x = 10 then some code else none
  | string =>
    if x = 10 then none else some (if x = 34 then code else if x = 92 then stringEsc else string)
  | stringEsc => some string
  | char =>
    if x = 10 then none else some (if x = 39 then code else if x = 92 then charEsc else char)
  | charEsc => some char
  | block => some (if x = 42 then blockStar else block)
  | blockStar => some (if x = 47 then code else if x = 42 then blockStar else block)
  | line => some (if x = 10 then code else line)

/-- The character after `p` is none that the rule takes for something else: the end of a comment is
not the beginning of another one, and the beginning not the end, and no comment begins in a
character constant. -/
def harmless (p x : UInt8) : CMode → Bool
  | code => ¬ (p = 47 ∧ x = 42)
  | char => ¬ (p = 47 ∧ x = 42)
  | block => ¬ (p = 42 ∧ x = 47)
  | _ => true

/-- A comment that begins with `//` has no quotes, braces and backslashes in it, and no beginning of
another comment. -/
def quiet (p x : UInt8) : CMode → Bool
  | line => x ∉ [34, 39, 92, 123, 125] ∧ ¬ (p = 47 ∧ x = 42)
  | _ => true

/-- Where the character after `p` is when two slashes do not begin a comment. -/
def plain (p : UInt8) : CMode → CMode
  | line => if p = 47 then slash else code
  | m => m

/-- The flags of the rule for strings, character constants and comments in each mode. -/
def flags : CMode → Bool × Bool × Bool
  | string | stringEsc => (true, false, false)
  | char | charEsc => (false, true, false)
  | block | blockStar => (false, false, true)
  | _ => (false, false, false)

/-- The character is not one behind a backslash, and there are no comments that begin with `//`. -/
def settled : CMode → Bool
  | splice | stringEsc | charEsc | line => false
  | _ => true

end CMode

/-- Where a character of a C text is, and how many braces are open. -/
structure CLex where
  /-- Where in the text of C the lexer is. -/
  mode : CMode
  /-- The number of braces that are open. -/
  depth : ℕ
deriving DecidableEq, Repr

namespace CLex

variable (c : CLex)

/-- Behind a character.  There are no NULs in a text. -/
def next (lines : Bool) (x : UInt8) : Option CLex :=
  if x = 0 then none
  else (c.mode.next lines x).map fun m =>
    if c.mode = .code ∨ c.mode = .slash then
      if x = 123 then ⟨m, c.depth + 1⟩ else if x = 125 then ⟨m, c.depth - 1⟩ else ⟨m, c.depth⟩
    else ⟨m, c.depth⟩

/-- The braces that are open are closed by the text, and the last of them by its last character. -/
def closes (lines : Bool) : CLex → List UInt8 → Bool
  | _, [] => false
  | c, x :: w =>
    match c.next lines x with
    | none => false
    | some c' => if c'.depth = 0 then w.isEmpty else c'.closes lines w

/-- All characters of the text, which stands behind `p`, are harmless.  Two slashes do not begin a
comment. -/
def harmless : CLex → UInt8 → List UInt8 → Bool
  | _, _, [] => true
  | c, p, x :: w =>
    c.mode.harmless p x &&
      match c.next false x with
      | none => true
      | some c' => c'.harmless x w

/-- In the text, which stands behind `p`, the comments that begin with `//` are quiet. -/
def quiet : CLex → UInt8 → List UInt8 → Bool
  | _, _, [] => true
  | c, p, x :: w =>
    c.mode.quiet p x &&
      match c.next true x with
      | none => true
      | some c' => c'.quiet x w

end CLex

/-- The text without the backslashes that stand in front of another character, and whether there has
been one. -/
def pairs : List UInt8 → List (UInt8 × Bool)
  | [] => []
  | [x] => [(x, false)]
  | x :: y :: w => if x = 92 then (y, true) :: pairs w else (x, false) :: pairs (y :: w)

/-- The text has a line that starts with `%%`, where a character behind a backslash is not seen. -/
def Percents (l : List (UInt8 × Bool)) : Prop := ∃ a b, [(10, a), (37, b), (37, false)] <:+: l

/-- The rest of an action: the characters behind the brace, up to the one that closes it. -/
def ActionText (lines : Bool) (w : List UInt8) : Prop := CLex.closes lines ⟨.code, 1⟩ w

/-- There is nothing in the text that the rule takes for something else. -/
structure Scannable (w : List UInt8) : Prop where
  /-- The characters are harmless. -/
  harmless : CLex.harmless ⟨.code, 1⟩ 0 w = true
  /-- No line starts with `%%`, whatever backslashes are passed over. -/
  percents : ¬ Percents (pairs w)

/-! ## The flags -/

variable {lines : Bool} {c c' c'' : CLex} {m m' : CMode} {p q x y : UInt8} {sc : ActionScan}
  {w : List UInt8}

/-- The variables of the rule say where the next character is, behind the characters `q` and `p`. -/
structure Follows (c : CLex) (q p : UInt8) (sc : ActionScan) : Prop where
  /-- The braces that are open. -/
  nestlev : sc.nestlev = c.depth
  /-- `lb1` is the previous character. -/
  lb1 : sc.lb1 = p.toNat
  /-- The character before that. -/
  lb2 : sc.lb2 = q.toNat
  /-- The flags are those of the mode. -/
  flags : (sc.inString, sc.inCharConst, sc.inComment) = c.mode.flags
  /-- A backslash is passed over with the character behind it, and two slashes do not begin a
  comment. -/
  settled : c.mode.settled = true
  /-- Behind a slash the previous character is one. -/
  slash : c.mode = .slash → p = 47
  /-- Behind a star of a comment the previous character is one. -/
  star : c.mode = .blockStar → p = 42

/-- Two characters are the same when they are the same number. -/
lemma toNat_eq_iff (x k : UInt8) : (x.toNat : ℤ) = (k.toNat : ℤ) ↔ x = k := by
  rw [Int.ofNat_inj, UInt8.toNat_inj]

/-- In the beginning the rule follows the text, with one open brace and no flag. -/
lemma follows_start : Follows ⟨.code, 1⟩ 0 0 .start where
  nestlev := rfl
  lb1 := rfl
  lb2 := rfl
  flags := rfl
  settled := rfl
  slash h := by cases h
  star h := by cases h

/-- The tests of the quotes and of the comments change the flags only. -/
lemma modes_eq (sc : ActionScan) (i : ℤ) :
    (sc.modes i).nestlev = sc.nestlev ∧ (sc.modes i).lb1 = sc.lb1 ∧ (sc.modes i).lb2 = sc.lb2 := by
  unfold ActionScan.modes
  split_ifs <;> exact ⟨rfl, rfl, rfl⟩

/-- The tests of the braces change the number of braces only. -/
lemma braces_eq (sc : ActionScan) (i : ℤ) : (sc.braces i).lb1 = sc.lb1 ∧
    (sc.braces i).lb2 = sc.lb2 ∧ (sc.braces i).inString = sc.inString ∧
    (sc.braces i).inCharConst = sc.inCharConst ∧
      (sc.braces i).inComment = sc.inComment := by
  unfold ActionScan.braces
  split_ifs <;> exact ⟨rfl, rfl, rfl, rfl, rfl⟩

/-- The tests of the quotes and of the comments, when the flags are known. -/
lemma modes_flags (sc : ActionScan) (hlb : sc.lb1 = p.toNat) :
    ((sc.modes x.toNat).inString, (sc.modes x.toNat).inCharConst, (sc.modes x.toNat).inComment) =
      if x = 34 ∧ !(sc.inCharConst || sc.inComment) then
        (!sc.inString, sc.inCharConst, sc.inComment)
      else if x = 39 ∧ !(sc.inString || sc.inComment) then
        (sc.inString, !sc.inCharConst, sc.inComment)
      else if p = 47 ∧ x = 42 ∧ !sc.inString then (sc.inString, sc.inCharConst, true)
      else if p = 42 ∧ x = 47 ∧ sc.inComment then (sc.inString, sc.inCharConst, false)
      else (sc.inString, sc.inCharConst, sc.inComment) := by
  have h34 : (x.toNat : ℤ) = 34 ↔ x = 34 := toNat_eq_iff x 34
  have h39 : (x.toNat : ℤ) = 39 ↔ x = 39 := toNat_eq_iff x 39
  have h42 : (x.toNat : ℤ) = 42 ↔ x = 42 := toNat_eq_iff x 42
  have h47 : (x.toNat : ℤ) = 47 ↔ x = 47 := toNat_eq_iff x 47
  have hstar : (p.toNat : ℤ) = 42 ↔ p = 42 := toNat_eq_iff p 42
  have hslash : (p.toNat : ℤ) = 47 ↔ p = 47 := toNat_eq_iff p 47
  unfold ActionScan.modes
  simp only [hlb, h34, h39, h42, h47, hstar, hslash]
  split_ifs <;> rfl

/-- The flags behind a character that opens no constant. -/
lemma flags_ofCode (h34 : x ≠ 34) (h39 : x ≠ 39) :
    (CMode.ofCode x).flags = (false, false, false) := by
  unfold CMode.ofCode
  rw [if_neg h34, if_neg h39]
  split_ifs <;> rfl

/-- The flags follow a character that is harmless and no backslash. -/
lemma Follows.modes (h : Follows c q p sc) (hnext : c.mode.next false x = some m') (hne : x ≠ 92)
    (hharm : c.mode.harmless p x = true) :
    ((sc.modes x.toNat).inString, (sc.modes x.toNat).inCharConst, (sc.modes x.toNat).inComment) =
    m'.flags := by
  have hslash := h.slash
  have hstar := h.star
  have hsettled := h.settled
  have hflags := h.flags
  rw [modes_flags sc h.lb1]
  obtain ⟨nestlev, lb1, lb2, inString, inCharConst, inComment⟩ := sc
  obtain ⟨mode, depth⟩ := c
  cases mode with
  | splice | stringEsc | charEsc | line => cases hsettled
  | code =>
    -- the slash that has ended a comment does not begin another one
    obtain ⟨rfl, rfl, rfl⟩ : inString = false ∧ inCharConst = false ∧ inComment = false := by
      simpa [CMode.flags] using hflags
    obtain rfl := Option.some.inj hnext
    have hno : ¬ (p = 47 ∧ x = 42) := of_decide_eq_true hharm
    by_cases h34 : x = 34
    · subst h34
      rfl
    by_cases h39 : x = 39
    · subst h39
      rfl
    rw [flags_ofCode h34 h39, if_neg fun h => h34 h.1, if_neg fun h => h39 h.1, if_neg fun h =>
      hno ⟨h.1, h.2.1⟩,
      if_neg fun h => Bool.false_ne_true h.2.2]
  | slash =>
    obtain ⟨rfl, rfl, rfl⟩ : inString = false ∧ inCharConst = false ∧ inComment = false := by
      simpa [CMode.flags] using hflags
    obtain rfl := Option.some.inj hnext
    obtain rfl : p = 47 := hslash rfl
    by_cases h34 : x = 34
    · subst h34
      rfl
    by_cases h39 : x = 39
    · subst h39
      rfl
    by_cases h42 : x = 42
    · subst h42
      rfl
    have hm :
        (if x = 42 then CMode.block else if x = 47 ∧ false = true then .line else CMode.ofCode x) =
        CMode.ofCode x := (if_neg h42).trans (if_neg fun h => Bool.false_ne_true h.2)
    rw [if_neg fun h => h34 h.1, if_neg fun h => h39 h.1, if_neg fun h => h42 h.2.1,
      if_neg fun h => Bool.false_ne_true h.2.2]
    exact (flags_ofCode h34 h39).symm.trans (congrArg CMode.flags hm.symm)
  | string =>
    obtain ⟨rfl, rfl, rfl⟩ : inString = true ∧ inCharConst = false ∧ inComment = false := by
      simpa [CMode.flags] using hflags
    have hline : x ≠ 10 := fun h10 => by
      rw [h10] at hnext
      cases hnext
    have hm : m' = if x = 34 then .code else .string := by
      simpa [CMode.next, hline, hne, eq_comm] using hnext
    rw [hm]
    split_ifs <;> simp_all [CMode.flags]
  | char =>
    -- no comment begins in the constant
    obtain ⟨rfl, rfl, rfl⟩ : inString = false ∧ inCharConst = true ∧ inComment = false := by
      simpa [CMode.flags] using hflags
    have hline : x ≠ 10 := fun h10 => by
      rw [h10] at hnext
      cases hnext
    have hm : m' = if x = 39 then .code else .char := by
      simpa [CMode.next, hline, hne, eq_comm] using hnext
    have hno : ¬ (p = 47 ∧ x = 42) := of_decide_eq_true hharm
    rw [hm]
    split_ifs <;> simp_all [CMode.flags]
  | block =>
    -- the star that has begun the comment does not end it
    obtain ⟨rfl, rfl, rfl⟩ : inString = false ∧ inCharConst = false ∧ inComment = true := by
      simpa [CMode.flags] using hflags
    obtain rfl := Option.some.inj hnext
    have hno : ¬ (p = 42 ∧ x = 47) := of_decide_eq_true hharm
    split_ifs <;> simp_all [CMode.flags]
  | blockStar =>
    obtain ⟨rfl, rfl, rfl⟩ : inString = false ∧ inCharConst = false ∧ inComment = true := by
      simpa [CMode.flags] using hflags
    obtain rfl := Option.some.inj hnext
    obtain rfl : p = 42 := hstar rfl
    split_ifs <;> simp_all [CMode.flags]

/-- A brace that is neither in a constant nor in a comment stands in code. -/
lemma code_of_brace (hnext : m.next false x = some m') (hharm : m.harmless p x = true)
    (hsettled : m.settled = true) (hout : m'.flags = (false, false, false))
    (hx : x = 123 ∨ x = 125) : m = .code ∨ m = .slash := by
  cases m with
  | code => exact .inl rfl
  | slash => exact .inr rfl
  | splice | stringEsc | charEsc | line => cases hsettled
  | string | char | block | blockStar =>
    rcases hx with rfl | rfl
    all_goals
      obtain rfl := Option.some.inj hnext
      cases hout

/-- Behind a brace in code there is code again. -/
lemma next_of_brace (hm : m = .code ∨ m = .slash) (hnext : m.next false x = some m')
    (hx : x = 123 ∨ x = 125) : m' = .code := by
  rcases hm with rfl | rfl <;> rcases hx with rfl | rfl <;> exact (Option.some.inj hnext).symm

/-- Behind a character that is no backslash the mode is settled, and slashes and stars are what they
seem. -/
lemma next_settled (hsettled : m.settled = true) (hnext : m.next false x = some m') (hne : x ≠ 92) :
    m'.settled = true ∧ (m' = .slash → x = 47) ∧ (m' = .blockStar → x = 42) := by
  cases m with
  | splice | stringEsc | charEsc | line => cases hsettled
  | code | slash =>
    obtain rfl := Option.some.inj hnext
    unfold CMode.ofCode
    split_ifs <;> simp_all [CMode.settled]
  | block | blockStar =>
    obtain rfl := Option.some.inj hnext
    split_ifs <;> simp_all [CMode.settled]
  | string | char =>
    unfold CMode.next at hnext
    split_ifs at hnext
    all_goals
      obtain rfl := Option.some.inj hnext
      simp_all [CMode.settled]

/-- The mode and the number of open braces behind a character of the text. -/
lemma CLex.next_eq_some (hnext : c.next lines x = some c') :
    x ≠ 0 ∧ c.mode.next lines x = some c'.mode ∧ c'.depth = if c.mode = .code ∨ c.mode = .slash then
      if x = 123 then c.depth + 1 else if x = 125 then c.depth - 1 else c.depth else c.depth := by
  unfold CLex.next at hnext
  by_cases hx : x = 0
  · rw [if_pos hx] at hnext
    cases hnext
  · rw [if_neg hx] at hnext
    obtain ⟨m', hm', rfl⟩ := Option.map_eq_some_iff.mp hnext
    rw [hm']
    refine ⟨hx, ?_, ?_⟩ <;> split_ifs <;> rfl

/-- A character that is no brace does not change the number of open braces. -/
lemma CLex.depth_next (hnext : c.next lines x = some c') (hopen : x ≠ 123) (hclose : x ≠ 125) :
    c'.depth = c.depth := by
  obtain ⟨-, -, hbraces⟩ := CLex.next_eq_some hnext
  rw [hbraces, if_neg hopen, if_neg hclose, ite_self]

/-- The first character of a text that closes the braces. -/
lemma CLex.closes_cons :
    c.closes lines (x :: w) = true ↔
      ∃ c', c.next lines x = some c' ∧ (if c'.depth = 0 then w.isEmpty else c'.closes lines w) =
        true := by
  rw [CLex.closes]
  cases c.next lines x with
  | none => simp
  | some c' => simp

/-- There is no NUL in a text that closes its braces. -/
lemma CLex.not_mem_of_closes : ∀ {w : List UInt8} {c : CLex}, c.closes lines w = true → 0 ∉ w := by
  intro w
  induction w with
  | nil =>
    intro c _
    exact List.not_mem_nil
  | cons x w ih =>
    intro c h
    obtain ⟨c', hnext, hrest⟩ := CLex.closes_cons.mp h
    refine mt List.mem_cons.mp
      (not_or.mpr ⟨fun hzero => (CLex.next_eq_some hnext).1 hzero.symm, ?_⟩)
    by_cases hdepth : c'.depth = 0
    · rw [if_pos hdepth, List.isEmpty_iff] at hrest
      rw [hrest]
      exact List.not_mem_nil
    · rw [if_neg hdepth] at hrest
      exact ih hrest

/-- The first character of a harmless text is harmless, and so is what follows. -/
lemma CLex.harmless_cons (hnext : c.next false x = some c') (h : c.harmless p (x :: w) = true) :
    c.mode.harmless p x = true ∧ c'.harmless x w = true := by
  rw [CLex.harmless, hnext] at h
  exact Bool.and_eq_true_iff.mp h

/-- Step lemma: the variables follow a character that is harmless and no backslash. -/
lemma Follows.step (h : Follows c q p sc) (hnext : c.next false x = some c') (hne : x ≠ 92)
    (hharm : c.mode.harmless p x = true) (hdepth : 0 < c.depth) :
    Follows c' p x (((sc.modes x.toNat).braces x.toNat).shift x.toNat) ∧
      ((x = 125 ∧ ((sc.modes x.toNat).braces x.toNat).outside = true ∧
      ((sc.modes x.toNat).braces x.toNat).nestlev ≤ 0) ↔
        c'.depth = 0) := by
  obtain ⟨-, hmode, hbraces⟩ := CLex.next_eq_some hnext
  have hflags := h.modes hmode hne hharm
  obtain ⟨hnest, hlb1, hlb2⟩ := modes_eq sc x.toNat
  obtain ⟨hlb1', hlb2', hstring, hchar, hcomment⟩ := braces_eq (sc.modes x.toNat) x.toNat
  obtain ⟨hsettled, hslash, hstar⟩ := next_settled h.settled hmode hne
  have hout : ∀ sc' : ActionScan, (sc'.inString, sc'.inCharConst, sc'.inComment) = c'.mode.flags →
      (sc'.outside = true ↔ c'.mode.flags = (false, false, false)) := by
    intro sc' hsame
    rw [← hsame]
    simp [ActionScan.outside, and_assoc]
  have hcode : x = 123 ∨ x = 125 → (c'.mode.flags = (false, false, false) ↔ c.mode = .code ∨
      c.mode = .slash) := by
    intro hx
    refine ⟨fun hfff => code_of_brace hmode hharm h.settled hfff hx, fun hm => ?_⟩
    rw [next_of_brace hm hmode hx]
    rfl
  have hdepth' : ((sc.modes x.toNat).braces x.toNat).nestlev = c'.depth := by
    have h123 : (x.toNat : ℤ) = 123 ↔ x = 123 := toNat_eq_iff x 123
    have h125 : (x.toNat : ℤ) = 125 ↔ x = 125 := toNat_eq_iff x 125
    rw [hbraces]
    unfold ActionScan.braces
    by_cases hopen : x = 123
    · rw [if_pos hopen, if_pos (h123.mpr hopen)]
      by_cases hm : c.mode = .code ∨ c.mode = .slash
      · rw [if_pos ((hout _ hflags).mpr ((hcode (.inl hopen)).mpr hm)), if_pos hm]
        change (sc.modes x.toNat).nestlev + 1 = _
        rw [hnest, h.nestlev]
        rfl
      · rw [if_neg fun ho => hm ((hcode (.inl hopen)).mp ((hout _ hflags).mp ho)), if_neg hm, hnest,
          h.nestlev]
    · rw [if_neg hopen, if_neg fun ho => hopen (h123.mp ho)]
      by_cases hclose : x = 125
      · rw [if_pos hclose, if_pos (h125.mpr hclose)]
        by_cases hm : c.mode = .code ∨ c.mode = .slash
        · rw [if_pos ((hout _ hflags).mpr ((hcode (.inr hclose)).mpr hm)), if_pos hm]
          change (sc.modes x.toNat).nestlev - 1 = _
          rw [hnest, h.nestlev]
          omega
        · rw [if_neg fun ho => hm ((hcode (.inr hclose)).mp ((hout _ hflags).mp ho)), if_neg hm,
            hnest, h.nestlev]
      · rw [if_neg hclose, if_neg fun ho => hclose (h125.mp ho)]
        split_ifs <;> rw [hnest, h.nestlev]
  refine ⟨⟨hdepth', rfl, ?_, ?_, hsettled, hslash, hstar⟩, ?_⟩
  · change ((sc.modes x.toNat).braces x.toNat).lb1 = p.toNat
    rw [hlb1', hlb1, h.lb1]
  · rw [← hflags]
    exact Prod.ext hstring (Prod.ext hchar hcomment)
  · have hout' :=
      hout ((sc.modes x.toNat).braces x.toNat) (by rw [hstring, hchar, hcomment, hflags])
    rw [hdepth', hout']
    constructor
    · rintro ⟨-, -, hle⟩
      omega
    · intro hzero
      have hclose : x = 125 ∧ (c.mode = .code ∨ c.mode = .slash) := by
        rw [hzero] at hbraces
        split_ifs at hbraces with hm hopen hclose
        · exact ⟨hclose, hm⟩
        · omega
        · omega
      refine ⟨hclose.1, (hcode (.inr hclose.1)).mpr hclose.2, ?_⟩
      omega

/-- A backslash and the character behind it leave the flags as they are. -/
lemma mode_escape {m'' : CMode} (hsettled : m.settled = true) (hnext : m.next false 92 = some m')
    (hnext' : m'.next false y = some m'') (hharm : m.harmless p 92 = true) :
    m''.flags = m.flags ∧ m''.settled = true ∧ (m'' = .slash → y = 47) ∧
      (m'' = .blockStar → y = 42) ∧ ¬ (m' = .code ∨ m' = .slash) := by
  cases m with
  | splice | stringEsc | charEsc | line => cases hsettled
  | code | slash =>
    obtain rfl : CMode.splice = m' := Option.some.inj hnext
    by_cases hy : y = 10
    · subst hy
      obtain rfl : CMode.code = m'' := Option.some.inj hnext'
      decide
    · change (if y = 10 then some CMode.code else none) = some m'' at hnext'
      rw [if_neg hy] at hnext'
      cases hnext'
  | string =>
    obtain rfl : CMode.stringEsc = m' := Option.some.inj hnext
    obtain rfl : CMode.string = m'' := Option.some.inj hnext'
    exact ⟨rfl, rfl, nofun, nofun, by decide⟩
  | char =>
    obtain rfl : CMode.charEsc = m' := Option.some.inj hnext
    obtain rfl : CMode.char = m'' := Option.some.inj hnext'
    exact ⟨rfl, rfl, nofun, nofun, by decide⟩
  | block | blockStar =>
    obtain rfl : CMode.block = m' := Option.some.inj hnext
    obtain rfl : (if y = 42 then CMode.blockStar else CMode.block) = m'' := Option.some.inj hnext'
    by_cases hy : y = 42
    · rw [if_pos hy]
      exact ⟨rfl, rfl, nofun, fun _ => hy, by decide⟩
    · rw [if_neg hy]
      exact ⟨rfl, rfl, nofun, nofun, by decide⟩

/-- Step lemma: the variables follow a backslash and the character behind it. -/
lemma Follows.escape (h : Follows c q p sc) (hnext : c.next false 92 = some c')
    (hnext' : c'.next false y = some c'') (hharm : c.mode.harmless p 92 = true) :
    Follows c'' p y (sc.shift y.toNat) ∧ c'.depth = c.depth ∧ c''.depth = c.depth := by
  obtain ⟨-, hmode, -⟩ := CLex.next_eq_some hnext
  obtain ⟨-, hmode', hbraces'⟩ := CLex.next_eq_some hnext'
  obtain ⟨hflags, hsettled, hslash, hstar, hcode⟩ := mode_escape h.settled hmode hmode' hharm
  have hdepth : c'.depth = c.depth := CLex.depth_next hnext (by decide) (by decide)
  have hdepth' : c''.depth = c.depth := by rw [hbraces', if_neg hcode, hdepth]
  exact ⟨⟨h.nestlev.trans (by rw [hdepth']), rfl, h.lb1, h.flags.trans hflags.symm, hsettled,
    hslash, hstar⟩, hdepth, hdepth'⟩

/-! ## A line that starts with `%%` -/

/-- A line with `%%` in the rest of a text is one in the whole text. -/
lemma Percents.of_tail {e : UInt8 × Bool} {l : List (UInt8 × Bool)} (h : Percents l) :
    Percents (e :: l) := by
  obtain ⟨a, b, hl⟩ := h
  exact ⟨a, b, hl.trans (List.suffix_cons e l).isInfix⟩

/-- A character that is no newline does not begin the line. -/
lemma Percents.tail {a : Bool} {l : List (UInt8 × Bool)} (h : Percents ((x, a) :: l))
    (hx : x ≠ 10) : Percents l := by
  obtain ⟨d, e, hl⟩ := h
  rcases List.infix_cons_iff.mp hl with hprefix | hl
  · exact absurd (congrArg Prod.fst (List.cons_prefix_cons.mp hprefix).1).symm hx
  · exact ⟨d, e, hl⟩

/-- A backslash is not seen, and the character behind it is marked as escaped. -/
lemma pairs_escape (y : UInt8) (w : List UInt8) : pairs (92 :: y :: w) = (y, true) :: pairs w :=
  if_pos rfl

/-- A character that is no backslash is seen as it is. -/
lemma pairs_cons (hne : x ≠ 92) (w : List UInt8) : pairs (x :: w) = (x, false) :: pairs w := by
  rcases w with - | ⟨y, w⟩
  · rfl
  · exact if_neg hne

/-- The rule finds no `%%` at the start of a line if there is none. -/
lemma Follows.not_percents {e₁ e₂ : Bool} (h : Follows c q p sc)
    (hpercents : ¬ Percents ((q, e₂) :: (p, e₁) :: pairs (x :: w))) :
    ¬ (sc.lb2 = 10 ∧ sc.lb1 = 37 ∧ (x.toNat : ℤ) = 37) := by
  rintro ⟨h10, h37, hx⟩
  rw [h.lb2] at h10
  rw [h.lb1] at h37
  obtain rfl : q = 10 := (toNat_eq_iff q 10).mp h10
  obtain rfl : p = 37 := (toNat_eq_iff p 37).mp h37
  obtain rfl : x = 37 := (toNat_eq_iff x 37).mp hx
  refine hpercents ⟨e₂, e₁, ?_⟩
  rw [pairs_cons (by decide)]
  exact List.prefix_append [(10, e₂), (37, e₁), (37, false)] (pairs w) |>.isInfix

/-- There is no newline in a string constant that the rule reads. -/
lemma Follows.not_newline (h : Follows c q p sc) (hnext : c.mode.next false x = some m') :
    ¬ ((x.toNat : ℤ) = 10 ∧ sc.inString = true) := by
  rintro ⟨h10, hstring⟩
  obtain rfl : x = 10 := (toNat_eq_iff x 10).mp h10
  have hsettled := h.settled
  have hflags : c.mode.flags.1 = true := by rw [← h.flags, hstring]
  cases hmode : c.mode with
  | string =>
    rw [hmode] at hnext
    cases hnext
  | stringEsc =>
    rw [hmode] at hsettled
    cases hsettled
  | _ =>
    rw [hmode] at hflags
    cases hflags

/-! ## Comments that begin with `//` -/

/-- Behind a character outside of constants and comments there is no comment that ends with the
line. -/
lemma plain_ofCode (p x : UInt8) : (CMode.ofCode x).plain p = CMode.ofCode x := by
  unfold CMode.ofCode
  split_ifs <;> rfl

/-- A comment that is quiet may be read as code, and leads to the same mode. -/
lemma CMode.next_plain (hnext : m.next true x = some m') (hquiet : m.quiet p x = true) :
    (m.plain p).next false x = some (m'.plain x) := by
  cases m with
  | line =>
    obtain ⟨hquotes, hstar⟩ : x ∉ [34, 39, 92, 123, 125] ∧ ¬ (p = 47 ∧ x = 42) :=
      of_decide_eq_true hquiet
    obtain rfl := Option.some.inj hnext
    have hcode : CMode.ofCode x = if x = 47 then .slash else .code := by
      simp only [List.mem_cons, List.not_mem_nil, not_or] at hquotes
      unfold CMode.ofCode
      rw [if_neg hquotes.1, if_neg hquotes.2.1, if_neg hquotes.2.2.1]
    have hplain : (if x = 10 then CMode.code else .line).plain x = CMode.ofCode x := by
      rw [hcode]
      by_cases h10 : x = 10
      · subst h10
        rfl
      · rw [if_neg h10]
        rfl
    rw [hplain]
    unfold CMode.plain
    by_cases hp : p = 47
    · have hx : x ≠ 42 := fun h => hstar ⟨hp, h⟩
      rw [if_pos hp]
      exact congrArg some ((if_neg hx).trans (if_neg fun h => absurd h.2 (by decide)))
    · rw [if_neg hp]
      rfl
  | code =>
    obtain rfl := Option.some.inj hnext
    exact congrArg some (plain_ofCode x x).symm
  | slash =>
    obtain rfl := Option.some.inj hnext
    by_cases h42 : x = 42
    · subst h42
      rfl
    by_cases h47 : x = 47
    · subst h47
      rfl
    rw [if_neg h42, if_neg fun h => h47 h.1, plain_ofCode]
    exact congrArg some ((if_neg h42).trans (if_neg fun h => h47 h.1))
  | splice | stringEsc | charEsc | block | blockStar | string | char =>
    have hsame : m'.plain x = m' := by
      unfold CMode.next at hnext
      try split_ifs at hnext
      all_goals
        obtain rfl := Option.some.inj hnext
        rfl
    rw [hsame]
    exact hnext

/-- The next character of a text whose comments are quiet. -/
lemma CLex.next_plain (hnext : c.next true x = some c') (hquiet : c.mode.quiet p x = true) :
    CLex.next ⟨c.mode.plain p, c.depth⟩ false x = some ⟨c'.mode.plain x, c'.depth⟩ := by
  obtain ⟨hne, hmode, hdepth⟩ := CLex.next_eq_some hnext
  have hcode : c.mode.plain p = .code ∨ c.mode.plain p = .slash ↔ c.mode = .code ∨ c.mode = .slash ∨
      c.mode = .line := by
    cases c.mode
    case line =>
      unfold CMode.plain
      split_ifs <;> simp
    all_goals simp [CMode.plain]
  unfold CLex.next
  rw [if_neg hne, CMode.next_plain hmode hquiet, hdepth]
  simp only [Option.map_some, hcode]
  by_cases hline : c.mode = .line
  · rw [hline] at hquiet
    have hquotes : x ∉ [34, 39, 92, 123, 125] := (of_decide_eq_true hquiet).1
    have hopen : x ≠ 123 := by
      rintro rfl
      exact absurd (by decide) hquotes
    have hclose : x ≠ 125 := by
      rintro rfl
      exact absurd (by decide) hquotes
    simp only [if_neg hopen, if_neg hclose, ite_self]
  · have hsame : c.mode = .code ∨ c.mode = .slash ∨ c.mode = .line ↔ c.mode = .code ∨
        c.mode = .slash := by
      simp only [hline, or_false]
    simp only [hsame]
    split_ifs <;> rfl

/-- The braces that are open are closed by a text whose comments are quiet. -/
lemma CLex.closes_plain : ∀ {w : List UInt8} {c : CLex} {p : UInt8}, c.closes true w = true →
    c.quiet p w = true → CLex.closes false ⟨c.mode.plain p, c.depth⟩ w = true := by
  intro w
  induction w with
  | nil =>
    intro c p h _
    cases h
  | cons x w ih =>
    intro c p h hquiet
    obtain ⟨c', hnext, hrest⟩ := CLex.closes_cons.mp h
    rw [CLex.quiet, hnext] at hquiet
    obtain ⟨hquiet₁, hquiet⟩ := Bool.and_eq_true_iff.mp hquiet
    refine CLex.closes_cons.mpr ⟨_, CLex.next_plain hnext hquiet₁, ?_⟩
    by_cases hdepth : c'.depth = 0
    · rw [if_pos hdepth] at hrest
      exact (if_pos hdepth).trans hrest
    · rw [if_neg hdepth] at hrest
      exact (if_neg hdepth).trans (ih hrest hquiet)

/-- An action whose comments are quiet is an action when two slashes do not begin a comment. -/
theorem actionText_of_quiet (h : ActionText true w) (hquiet : CLex.quiet ⟨.code, 1⟩ 0 w = true) :
    ActionText false w :=
  CLex.closes_plain h hquiet

end Lex
