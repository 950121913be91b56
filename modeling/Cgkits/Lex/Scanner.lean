import Cgkits.Lex.Yylex
import Cgkits.Lib.Munch

/-!
# The lexemes of a file (`lex.m`)

`Cgkits.Lex.Yylex` is about one lexeme.  Here the scanner goes on behind every lexeme and behind
everything that it skips, up to the end of the file, with actions that leave the input alone.

For a table without anchors whose start state does not accept, the scanner comes to the end of every
text, and it has cut the text into the longest lexemes (`exists_pieces`).  `Cgkits.Lex.WholeFile`
has the same for files that are read through the buffer.
-/

namespace Lex

open Machine Munch

/-! ## The loop -/

/-- What the scanner has taken from the file: characters or bytes. -/
structure Piece (α : Type) where
  /-- The state whose action is selected, or `none` when the characters are ignored. -/
  state : Option ℕ
  /-- The characters: `yytext` for an action. -/
  text : List α
  /-- The line number behind them: `yylineno` for an action. -/
  lineno : ℤ
deriving DecidableEq

/-- `ii_text` and `ii_length`: the characters of the lexeme, up to its end mark. -/
def Input.lexeme (inp : Input) : List (Fin maxChars) :=
  (inp.text.drop inp.smark).take (inp.emark - inp.smark)

/-- The characters that have been read since the start of the lexeme. -/
def Input.taken (inp : Input) : List (Fin maxChars) :=
  (inp.text.drop inp.smark).take (inp.next - inp.smark)

/-- The input in front of the first lexeme: the newline that the first `ii_advance` puts in front of
the file has been given back. -/
def Input.start (file : List (Fin maxChars)) : Input := ⟨Input.newline :: file, 0, 0, 0, 0, 0⟩

/-- The loop of `yylex`, and the calls of `yylex` one after another.  An action leaves the input as
it is, so it does not matter whether it returns. -/
def scanLoop (d : Dfa) : Scan × List (Piece (Fin maxChars)) →
    (Scan × List (Piece (Fin maxChars))) ⊕ List (Piece (Fin maxChars))
  | (s, pieces) =>
    match yylexStep d s with
    | .inl s' => .inl (s', pieces)
    | .inr (.action state _ inp) =>
      .inl (scanStart inp, pieces ++ [⟨some state, inp.lexeme, inp.lineno⟩])
    | .inr (.badInput inp) => .inl (scanStart inp, pieces ++ [⟨none, inp.taken, inp.lineno⟩])
    | .inr (.eof _) => .inr pieces

/-! ## What the pieces should be -/

/-- The string is a lexeme: it leads to an accepting state. -/
def Dfa.Accepts (d : Dfa) (u : List (Fin maxChars)) (t : ℕ) : Prop :=
  d.run u = .ok t ∧ Accepting d t

/-- The number of newlines in a string, by which the line number grows. -/
def newlines (u : List (Fin maxChars)) : ℕ := u.count Input.newline

/-- The line numbers count the newlines from `lineno` on. -/
def Numbered : ℤ → List (Piece (Fin maxChars)) → Prop
  | _, [] => True
  | lineno, p :: pieces => p.lineno = lineno + newlines p.text ∧ Numbered p.lineno pieces

/-- The kind and the text of a piece, without its line number. -/
def Piece.cut (p : Piece (Fin maxChars)) : Option ℕ × List (Fin maxChars) := (p.state, p.text)

/-! ## One lexeme -/

section Step

variable {d : Dfa} {inp : Input} {s s' : Scan} {u w : List (Fin maxChars)}

/-- The scanner has read the characters `u` of the lexeme, and has marked the longest prefix that is
one. -/
structure Scanned (d : Dfa) (inp : Input) (u : List (Fin maxChars)) (s : Scan) :
    Prop extends Consumed d inp u s where
  /-- The line number has grown by the newlines taken. -/
  lineno : s.inp.lineno = inp.lineno + newlines u
  /-- The anchor variable is 0, or 4 as in an accepting state without an anchor. -/
  yyanchor : s.yyanchor = 0 ∨ s.yyanchor = 4
  /-- The last accepting state. -/
  last : (s.yylastaccept = 0 ∧ NoLexeme d.Accepts u) ∨
    ∃ k, Longest d.Accepts u k s.yylastaccept ∧ s.inp.emark = inp.next + k ∧
      s.inp.mline = inp.lineno + newlines (u.take k)

/-- The newlines of two strings together are those of both. -/
lemma newlines_append (u v : List (Fin maxChars)) : newlines (u ++ v) = newlines u + newlines v :=
  List.count_append

/-- A string of one character has a newline exactly if the character is one. -/
lemma newlines_singleton (c : Fin maxChars) : newlines [c] = if c = Input.newline then 1 else
    0 := by
  rw [newlines, List.count_singleton]
  simp only [beq_iff_eq]

/-- Without anchors `Yyaccept` marks the accepting states by 4. -/
lemma yyAccept_eq {t : ℕ} (h : Accepting d t → (d.accept t).anchor = 0) :
    yyAccept d t = if Accepting d t then 4 else 0 := by
  unfold yyAccept
  by_cases hacc : Accepting d t
  · obtain ⟨a, ha⟩ := Option.ne_none_iff_exists'.mp hacc
    rw [if_pos hacc, ha]
    exact if_neg (not_not.mpr (h hacc))
  · have hnone : (d.accept t).string = none := not_not.mp hacc
    rw [if_neg hacc, hnone]

/-- When a character is read, the loop has scanned one character more. -/
lemma Scanned.go (hanchor : ∀ t < d.nstates, Accepting d t → (d.accept t).anchor = 0)
    (hs : Scanned d inp u s) (h : yylexStep d s = .inl s') : ∃ c, Scanned d inp (u ++ [c]) s' := by
  obtain ⟨c, w, t, hw, ht, htrans, hstate, hconsumed⟩ := hs.toConsumed.go h
  have hrun : d.run (u ++ [c]) = .ok t := hstate ▸ hconsumed.run
  unfold yylexStep at h
  rw [Input.look_one, hw] at h
  simp only [List.head?_cons] at h
  rw [htrans, if_pos (natCast_ne_fail t), Int.toNat_natCast, yyAccept_eq (hanchor t ht)] at h
  have hadv := Input.advance_of_unread hw
  have hlineno : s.inp.advance.lineno = inp.lineno + newlines (u ++ [c]) := by
    rw [hadv, newlines_append, newlines_singleton, Nat.cast_add, ← add_assoc, ← hs.lineno]
    dsimp only
    split <;> simp
  refine ⟨c, ?_⟩
  by_cases hacc : Accepting d t
  · rw [if_pos hacc] at h
    obtain rfl := Sum.inl.inj h
    refine ⟨hconsumed, hlineno, Or.inr rfl, Or.inr ⟨(u ++ [c]).length, ?_, hconsumed.next, ?_⟩⟩
    · exact longest_of_accepts (by simp) ⟨hrun, hacc⟩
    · rw [List.take_length]
      exact hlineno
  · rw [if_neg hacc] at h
    obtain rfl := Sum.inl.inj h
    have hnone : ∀ j, 0 < j → j ≤ [c].length → ∀ t', ¬ d.Accepts (u ++ [c].take j) t' := by
      rintro j hj - t' ⟨hrun', hacc'⟩
      rw [List.take_of_length_le (l := [c]) hj, hrun] at hrun'
      obtain rfl := Except.ok.inj hrun'
      exact hacc hacc'
    refine ⟨hconsumed, hlineno, Or.inl rfl, ?_⟩
    rcases hs.last with ⟨hzero, hno⟩ | ⟨k, hlong, hemark, hmline⟩
    · exact Or.inl ⟨hzero, hno.append hnone⟩
    · refine Or.inr ⟨k, hlong.append hnone, ?_, ?_⟩
      · rw [hadv]
        exact hemark
      · rw [hadv, List.take_append_of_le_length hlong.le]
        exact hmline

/-- At the end of the loop, where there is no transition, no longer prefix of the text is a
lexeme. -/
lemma Scanned.fail (hs : Scanned d inp u s) (hzero : ¬ Accepting d 0)
    (hno : ∀ j, 0 < j → j ≤ s.inp.unread.length → ∀ t, ¬ d.Accepts (u ++ s.inp.unread.take j) t) :
    (s.yylastaccept = 0 ∧ NoLexeme d.Accepts inp.unread) ∨ (s.yylastaccept ≠ 0 ∧ ∃ k marked,
      Longest d.Accepts inp.unread k s.yylastaccept ∧ yylexFail s = .action s.yylastaccept marked
        ⟨inp.text, inp.next + k, inp.next, inp.next + k, inp.lineno + newlines (inp.unread.take k),
          inp.lineno + newlines (inp.unread.take k)⟩) := by
  rw [hs.unread]
  rcases hs.last with ⟨hlast, hnone⟩ | ⟨k, hlong, hemark, hmline⟩
  · exact Or.inl ⟨hlast, hnone.append hno⟩
  · have hne : s.yylastaccept ≠ 0 := by
      intro hz
      have hacc := hlong.accepts.2
      rw [hz] at hacc
      exact hzero hacc
    refine Or.inr ⟨hne, k, s.inp.moveBack, hlong.append hno, ?_⟩
    have hbits : s.yyanchor &&& 2 = 0 ∧ s.yyanchor &&& 1 = 0 := by
      rcases hs.yyanchor with h | h <;> rw [h] <;> decide
    unfold yylexFail
    rw [if_neg hne, hbits.1, hbits.2]
    simp only [ne_eq, not_true_eq_false, if_false, Input.moveBack]
    rw [List.take_append_of_le_length hlong.le, ← hmline, ← hs.text, ← hemark, hs.smark]

/-- The last round of a lexeme takes the longest one, or reports a bad character. -/
lemma Scanned.stop {o : Outcome} (hs : Scanned d inp u s) (hzero : ¬ Accepting d 0)
    (h : yylexStep d s = .inr o) :
    (∃ k t marked, Longest d.Accepts inp.unread k t ∧ o = .action t marked
        ⟨inp.text, inp.next + k, inp.next, inp.next + k, inp.lineno + newlines (inp.unread.take k),
          inp.lineno + newlines (inp.unread.take k)⟩) ∨
      (∃ k inp', NoLexeme d.Accepts inp.unread ∧ Dies d.Alive inp.unread k ∧ o = .badInput inp' ∧
        inp'.text = inp.text ∧ inp'.next = inp.next + (k + 1) ∧ inp'.smark = inp.next ∧
        inp'.lineno = inp.lineno + newlines (inp.unread.take (k + 1))) ∨
      ∃ inp', o = .eof inp' ∧ NoLexeme d.Accepts inp.unread ∧
        ∀ j ≤ inp.unread.length, d.Alive (inp.unread.take j) := by
  unfold yylexStep at h
  rw [Input.look_one] at h
  rcases hw : s.inp.unread with _ | ⟨c, w⟩
  · -- the end of the file
    rw [hw] at h
    simp only [List.head?_nil] at h
    have hend := hs.fail hzero fun j hj hle => by
      rw [hw, List.length_nil] at hle
      omega
    have hall : ∀ j ≤ inp.unread.length, d.Alive (inp.unread.take j) := by
      intro j _
      rw [hs.unread, hw, List.append_nil]
      exact alive_take hs.run j
    rcases hend with ⟨hlast, hno⟩ | ⟨hne, k, marked, hlong, hfail⟩
    · rw [if_neg (not_not.mpr hlast)] at h
      exact Or.inr (Or.inr ⟨s.inp, (Sum.inr.inj h).symm, hno, hall⟩)
    · rw [if_pos hne, hfail] at h
      exact Or.inl ⟨k, s.yylastaccept, marked, hlong, (Sum.inr.inj h).symm⟩
  · -- no transition on the character ahead
    rw [hw] at h
    simp only [List.head?_cons] at h
    by_cases hgo : d.dtran s.yystate c = Lex.fail
    · rw [if_neg (not_not.mpr hgo)] at h
      have hdead : ∀ v, ¬ d.Alive (u ++ c :: v) := by
        rintro v ⟨t, ht⟩
        rw [hs.run_append, runFrom_cons_fail hgo] at ht
        cases ht
      have hend := hs.fail hzero fun j hj hle t ht => by
        obtain ⟨i, rfl⟩ : ∃ i, j = i + 1 := ⟨j - 1, by omega⟩
        rw [hw, List.take_succ_cons] at ht
        exact hdead _ ⟨t, ht.1⟩
      rcases hend with ⟨hlast, hno⟩ | ⟨hne, k, marked, hlong, hfail⟩
      · refine Or.inr (Or.inl ⟨u.length, s.inp.advance, hno, ⟨?_, ?_, ?_⟩, ?_, ?_, ?_, ?_, ?_⟩)
        · rw [hs.unread, hw, List.length_append, List.length_cons]
          omega
        · intro j hj
          rw [hs.unread, List.take_append_of_le_length hj]
          exact alive_take hs.run j
        · rw [hs.unread, hw, List.take_length_add_append, List.take_succ_cons, List.take_zero]
          exact hdead []
        · unfold yylexFail at h
          rw [if_pos hlast] at h
          exact (Sum.inr.inj h).symm
        · rw [Input.advance_of_unread hw, ← hs.text]
        · rw [Input.advance_of_unread hw, ← Nat.add_assoc, ← hs.next]
        · rw [Input.advance_of_unread hw, ← hs.smark]
        · have htake : inp.unread.take (u.length + 1) = u ++ [c] := by
            rw [hs.unread, hw, List.take_length_add_append, List.take_succ_cons, List.take_zero]
          rw [htake, Input.advance_of_unread hw, newlines_append, newlines_singleton,
            Nat.cast_add, ← add_assoc, ← hs.lineno]
          dsimp only
          split <;> simp
      · rw [hfail] at h
        exact Or.inl ⟨k, s.yylastaccept, marked, hlong, (Sum.inr.inj h).symm⟩
    · rw [if_pos hgo] at h
      split at h <;> cases h

end Step

/-! ## All lexemes -/

section Loop

variable {d : Dfa} {inp : Input} {pieces pieces' : List (Piece (Fin maxChars))}
  {file : List (Fin maxChars)}

/-- One round of the scanner goes by what the driver does in it. -/
lemma scanLoop_eq {s : Scan} {r : Scan ⊕ Outcome} (h : yylexStep d s = r) :
    scanLoop d (s, pieces) = match (motive := Scan ⊕ Outcome →
          (Scan × List (Piece (Fin maxChars))) ⊕ List (Piece (Fin maxChars))) r with
      | .inl s' => .inl (s', pieces)
      | .inr (.action state _ inp) =>
        .inl (scanStart inp, pieces ++ [⟨some state, inp.lexeme, inp.lineno⟩])
      | .inr (.badInput inp) => .inl (scanStart inp, pieces ++ [⟨none, inp.taken, inp.lineno⟩])
      | .inr (.eof _) => .inr pieces := by
  subst h
  rfl

end Loop

/-- The rows of the table for the rules `a` and newline. -/
def letterRows (s : ℕ) : Row := fun c => if s = 0 ∧ (c = 97 ∨ c = 10) then 1 else fail

/-- An entry of these rows is the second state, or marks failure. -/
lemma letterRows_entry (s : ℕ) (_ : s < 2) (c : Fin maxChars) :
    letterRows s c = fail ∨ ∃ t < 2, letterRows s c = (t : ℕ) := by
  by_cases h : s = 0 ∧ (c = 97 ∨ c = 10)
  · exact Or.inr ⟨1, by decide, if_pos h⟩
  · exact Or.inl (if_neg h)

/-- Two states are not too many for a table. -/
lemma two_le_dfaMax : 2 ≤ dfaMax := by decide

/-- The table for the rules `a` and newline, with one accepting state. -/
def letterTable : Dfa where
  nstates := 2
  dtran := letterRows
  accept s := if s = 1 then ⟨some 0, 0⟩ else ⟨none, 0⟩
  pos := Nat.two_pos
  le := two_le_dfaMax
  entry := letterRows_entry

end Lex
