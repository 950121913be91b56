import Mathlib.Data.List.Basic
import Mathlib.Data.Nat.Notation
import Mathlib.Tactic.Basic

/-!
# A text that is read with marks

A `Cursor` is a text with the position of the next character and the marks that a scanner needs: the
start and the end of the lexeme that is being read, and the start of the lexeme before it.  All of
them are positions in the text, and the fields of the structure keep them in order.  How much of the
text is in memory is no matter here.

The operations are those of a scanner: it takes characters, gives some of them back, and moves the
marks to the position where it is.
-/

/-- A text, the position of the next character, and the marks. -/
structure Cursor (α : Type*) where
  /-- The whole text, read and unread. -/
  text : List α
  /-- The position of the next character. -/
  next : ℕ
  /-- The position where the lexeme starts. -/
  smark : ℕ
  /-- The position where the lexeme ends. -/
  emark : ℕ
  /-- The start of the previous lexeme. -/
  pmark : Option ℕ
  /-- The lexeme does not end before its start. -/
  smark_le : smark ≤ emark
  /-- The lexeme has been read. -/
  emark_le : emark ≤ next
  /-- The next character is one of the text, or the end of it. -/
  next_le : next ≤ text.length
  /-- The previous lexeme starts before the lexeme. -/
  pmark_le : ∀ p ∈ pmark, p ≤ smark

namespace Cursor

variable {α : Type*}

/-- The cursor at the start of a text, with empty lexemes. -/
def start (text : List α) : Cursor α where
  text := text
  next := 0
  smark := 0
  emark := 0
  pmark := none
  smark_le := Nat.le_refl _
  emark_le := Nat.le_refl _
  next_le := Nat.zero_le _
  pmark_le _ h := by cases h

variable (c : Cursor α)

/-- The characters of the text that have not been taken yet. -/
def unread : List α := c.text.drop c.next

/-- The `n`th character ahead of the cursor, for `n` at least 1, if the text has that many. -/
def look (n : ℕ) : Option α := c.text[c.next + (n - 1)]?

/-- Take the next character, if there is one; at the end of the text nothing changes. -/
def skip : Cursor α :=
  if h : c.next < c.text.length then
    { c with
      next := c.next + 1
      emark_le := Nat.le_succ_of_le c.emark_le
      next_le := h }
  else c

/-- Give back the last `n` characters, but none in front of the start of the lexeme. -/
def pushback (n : ℕ) : Cursor α where
  text := c.text
  next := max c.smark (c.next - n)
  smark := c.smark
  emark := min c.emark (max c.smark (c.next - n))
  pmark := c.pmark
  smark_le := Nat.le_min.mpr ⟨c.smark_le, Nat.le_max_left _ _⟩
  emark_le := Nat.min_le_right _ _
  next_le := Nat.max_le.mpr
    ⟨Nat.le_trans c.smark_le (Nat.le_trans c.emark_le c.next_le),
    Nat.le_trans (Nat.sub_le _ _) c.next_le⟩
  pmark_le := c.pmark_le

/-- The lexeme starts at the next character, and is empty at first. -/
def markStart : Cursor α :=
  { c with
    smark := c.next
    emark := c.next
    smark_le := Nat.le_refl _
    emark_le := Nat.le_refl _
    pmark_le := fun p h => Nat.le_trans (c.pmark_le p h) (Nat.le_trans c.smark_le c.emark_le) }

/-- The lexeme ends in front of the next character. -/
def markEnd : Cursor α :=
  { c with
    emark := c.next
    smark_le := Nat.le_trans c.smark_le c.emark_le
    emark_le := Nat.le_refl _ }

/-- The current lexeme becomes the previous one. -/
def markPrev : Cursor α :=
  { c with
    pmark := some c.smark
    pmark_le := fun p h => by
      obtain rfl := Option.mem_some.mp h
      exact Nat.le_refl _ }

/-- The lexeme loses its first character, if it has one. -/
def moveStart : Cursor α :=
  if h : c.smark < c.emark then
    { c with
      smark := c.smark + 1
      smark_le := h
      pmark_le := fun p hp => Nat.le_succ_of_le (c.pmark_le p hp) }
  else c

/-- Go back to the end of the lexeme, so that what was read behind it is read again. -/
def moveBack : Cursor α :=
  { c with
    next := c.emark
    emark_le := Nat.le_refl _
    next_le := Nat.le_trans c.emark_le c.next_le }

variable {c}

/-- The character ahead is the first one that has not been taken. -/
lemma look_eq (n : ℕ) : c.look n = c.unread[n - 1]? := by
  rw [look, unread, List.getElem?_drop]

/-- There is a character ahead exactly in front of the end of the text. -/
lemma look_one_eq_some {x : α} (h : c.look 1 = some x) : c.next < c.text.length :=
  (List.getElem?_eq_some_iff.mp h).1

/-- Taking a character moves the cursor by one place and nothing else. -/
lemma skip_eq (h : c.next < c.text.length) : c.skip =
    { c with
      next := c.next + 1
      emark_le := Nat.le_succ_of_le c.emark_le
      next_le := h } := dif_pos h

/-- What has not been taken is the next character followed by what is left when it has been
taken. -/
lemma unread_skip {x : α} (h : c.look 1 = some x) : c.unread = x :: c.skip.unread := by
  have hlt := look_one_eq_some h
  rw [skip_eq hlt, unread, List.drop_eq_getElem_cons hlt]
  congr 1
  exact Option.some.inj ((List.getElem?_eq_getElem hlt).symm.trans h)

/-- The previous and the current lexeme start in front of the cursor. -/
lemma pmark_getD_le (c : Cursor α) : c.pmark.getD c.smark ≤ c.next := by
  have hsmark := Nat.le_trans c.smark_le c.emark_le
  rcases hp : c.pmark with - | p
  · exact hsmark
  · exact Nat.le_trans (c.pmark_le p hp) hsmark

/-- Starting a new lexeme never moves the beginning of the text that is still marked to the left. -/
lemma pmark_getD_markStart (c : Cursor α) :
    c.pmark.getD c.smark ≤ c.markStart.pmark.getD c.markStart.smark := by
  change c.pmark.getD c.smark ≤ c.pmark.getD c.next
  rcases hp : c.pmark with - | p
  · exact Nat.le_trans c.smark_le c.emark_le
  · exact Nat.le_refl p

end Cursor
