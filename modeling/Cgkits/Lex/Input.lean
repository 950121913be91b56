import Cgkits.Lex.Dfa

/-!
# The input system (`input.c`)

The input system keeps the current position, the marks of the current lexeme and the line number.
Here they are positions in the text itself, which consists of the newline that the first
`ii_advance` puts in front of the file and of the characters of the file: `text[next]` is the
character that `*_next` is.

This is the abstract view, in which every character is there.  `Cgkits.Lex.InputBuffer` and
`Cgkits.Lex.Marks` are about the buffer that holds a window of the text, with the flushes and the
exits of `ii_advance`, and `Cgkits.Lex.Follows` says when the buffer does what is done here.
-/

namespace Lex

/-- The state of an input system that has the whole text, with positions for its pointers. -/
structure Input where
  /-- The characters of the input. -/
  text : List (Fin maxChars)
  /-- `_next`: the next input character. -/
  next : ℕ
  /-- `_smark`: the start of the current lexeme. -/
  smark : ℕ
  /-- `_emark`: the end of the current lexeme. -/
  emark : ℕ
  /-- `_lineno`: the current line number. -/
  lineno : ℤ
  /-- `_mline`: the line number at the last mark. -/
  mline : ℤ

namespace Input

/-- The character `'\n'`, as a character of the table. -/
def newline : Fin maxChars := ⟨10, by decide⟩

variable (inp : Input)

/-- `ii_look`: the `n`th character ahead, for `n` at least 1; `none` stands for `EOF`. -/
def look (n : ℕ) : Option (Fin maxChars) := inp.text[inp.next + (n - 1)]?

/-- `ii_mark_start`: the lexeme starts and ends at the next character. -/
def markStart : Input := { inp with mline := inp.lineno, emark := inp.next, smark := inp.next }

/-- `ii_mark_end`: the lexeme ends at the next character. -/
def markEnd : Input := { inp with mline := inp.lineno, emark := inp.next }

/-- `ii_move_start`: the lexeme loses its first character, if it has one. -/
def moveStart : Input := if inp.emark ≤ inp.smark then inp else { inp with smark := inp.smark + 1 }

/-- `ii_move_back`: go back to the end of the lexeme. -/
def moveBack : Input := { inp with lineno := inp.mline, next := inp.emark }

/-- `ii_advance`.  At the end of the input nothing happens. -/
def advance : Input :=
  match inp.text[inp.next]? with
  | none => inp
  | some c =>
    { inp with next := inp.next + 1, lineno := if c = newline then inp.lineno + 1 else inp.lineno }

/-- The loop of `ii_pushback`, which goes back character by character and counts the lines. -/
def pushbackLoop : ℕ → Input → Input
  | 0, inp => inp
  | n + 1, inp =>
    if inp.smark < inp.next then
      let c := inp.text[inp.next - 1]?
      pushbackLoop n { inp with
        next := inp.next - 1
        lineno := if c = some newline ∨ c = some 0 then inp.lineno - 1 else inp.lineno }
    else inp

/-- `ii_pushback`: go back by `n` characters, and move the end of the lexeme when it is passed. -/
def pushback (n : ℕ) : Input :=
  let inp := pushbackLoop n inp
  if inp.next < inp.emark then { inp with emark := inp.next, mline := inp.lineno } else inp

/-- The characters of the text that have not been read yet. -/
def unread : List (Fin maxChars) := inp.text.drop inp.next

variable {inp}

/-- The character ahead is the first one of the unread ones. -/
lemma look_one : inp.look 1 = inp.unread.head? := by
  simp [look, unread, List.head?_drop]

/-- Advancing over the first of the unread characters moves the position and counts its line. -/
lemma advance_of_unread {c : Fin maxChars} {w : List (Fin maxChars)} (h : inp.unread = c :: w) :
    inp.advance = { inp with
      next := inp.next + 1
      lineno := if c = newline then inp.lineno + 1 else inp.lineno } := by
  have hc : inp.text[inp.next]? = some c := by
    rw [← List.head?_drop, show inp.text.drop inp.next = c :: w from h]
    rfl
  simp only [advance, hc]

/-- After advancing over a character the ones behind it are unread. -/
lemma unread_advance {c : Fin maxChars} {w : List (Fin maxChars)} (h : inp.unread = c :: w) :
    inp.advance.unread = w := by
  rw [advance_of_unread h]
  unfold unread at h ⊢
  simp only [← List.drop_drop, h, List.drop_one, List.tail_cons]

end Input

end Lex
