import Mathlib

/-!
# DFA tables (`dfa.h`)

A DFA is a table with one row for each state and one column for each of the 128 characters, together
with an array that gives every state its accept string and anchor.  An entry of the table is `fail`
or the number of a state.

`Dfa` is such a table with the fact that its entries are valid.  `Dfa.run` runs it on a string and
reports where it fails.
-/

namespace Lex

/-- `DFA_MAX`: the maximum number of states of a DFA. -/
def dfaMax : ℕ := 254

/-- `MAX_CHARS`: the width of a row of the table, one cell for each character. -/
def maxChars : ℕ := 128

instance : NeZero maxChars := ⟨by decide⟩

/-- `F`: the number that marks failure transitions in the table. -/
def fail : ℤ := -1

/-- `ROW`: the next state for each character. -/
abbrev Row : Type := Fin maxChars → ℤ

/-- `ACCEPT`: the accept string of a state, known by its address (`none` for `NULL`), and the
anchor. -/
structure Accept where
  /-- The address of the accept string. -/
  string : Option ℕ
  /-- The anchor point, if any. -/
  anchor : ℕ
deriving DecidableEq, Repr

/-- A table of a deterministic machine whose entries are states or failures. -/
structure Dfa where
  /-- The number of states of the machine. -/
  nstates : ℕ
  /-- The transition table, one row for a state. -/
  dtran : ℕ → Row
  /-- The accept array, one element for a state. -/
  accept : ℕ → Accept
  /-- There is a start state, with the number 0. -/
  pos : 0 < nstates
  /-- There are not too many states. -/
  le : nstates ≤ dfaMax
  /-- Every entry marks failure or is the number of a state. -/
  entry : ∀ s < nstates, ∀ c, dtran s c = fail ∨ ∃ t < nstates, dtran s c = t

/-- Run a table from the state `s` on a string.  The result is the position of the character on
which it fails, where the string starts at position `i`, or the last state. -/
def runFrom (dtran : ℕ → Row) : ℕ → ℕ → List (Fin maxChars) → Except ℕ ℕ
  | s, _, [] => .ok s
  | s, i, c :: w => if dtran s c = fail then .error i else runFrom dtran (dtran s c).toNat (i + 1) w

/-- Run a DFA on a string from its start state. -/
def Dfa.run (d : Dfa) (w : List (Fin maxChars)) : Except ℕ ℕ := runFrom d.dtran 0 0 w

/-- The number of a state is never the mark of a failure. -/
@[simp] lemma natCast_ne_fail (t : ℕ) : (t : ℤ) ≠ fail := by
  unfold fail
  omega

/-- On the empty string the machine stays in the state in which it starts. -/
@[simp] lemma runFrom_nil (dtran : ℕ → Row) (s i : ℕ) : runFrom dtran s i [] = .ok s := rfl

/-- At a character without a transition the run ends at its position. -/
lemma runFrom_cons_fail {dtran : ℕ → Row} {s i : ℕ} {c : Fin maxChars} {w : List (Fin maxChars)}
    (h : dtran s c = fail) : runFrom dtran s i (c :: w) = .error i := by
  rw [runFrom, if_pos h]

/-- At a character with a transition the run goes on from the next state. -/
lemma runFrom_cons {dtran : ℕ → Row} {s t i : ℕ} {c : Fin maxChars} {w : List (Fin maxChars)}
    (h : dtran s c = t) : runFrom dtran s i (c :: w) = runFrom dtran t (i + 1) w := by
  rw [runFrom, h, if_neg (natCast_ne_fail t), Int.toNat_natCast]

/-- Reaching a state does not depend on where the string starts. -/
lemma runFrom_ok {dtran : ℕ → Row} {s t i j : ℕ} {w : List (Fin maxChars)}
    (h : runFrom dtran s i w = .ok t) : runFrom dtran s j w = .ok t := by
  induction w generalizing s i j with
  | nil => simpa using h
  | cons c w ih =>
    rw [runFrom] at h ⊢
    split at h
    · simp at h
    · rw [if_neg ‹_›]
      exact ih h

end Lex
