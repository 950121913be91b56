import Cgkits.Lex.Input
import Cgkits.Lib.Machine

/-!
# The scanner driver (`lex.m`)

`yylex` runs the table on the input, marks the end of the lexeme in every accepting state, and goes
back to the last mark when the table fails or the input ends.  One scanning step is the part of its
loop from the start state to the action, to the skipped character, or to the end of the input.

The variable `yylastaccept` holds the last accepting state and is also the flag for having seen one,
so a lexeme that ends in the start state counts as none.  `longest` is the longest accepted prefix
as a recursive function.  A step selects the action of this prefix if and only if the prefix does
not end in the start state (`exists_yylex`).

Here the input is a text with positions.  `Cgkits.Lex.Follows` has the same for the input buffer.
-/

namespace Lex

open Machine

/-- `Yyaccept`, as `pdriver` prints it: `0` for a nonaccepting state, else the anchor, with `4` for
an unanchored lexeme. -/
def yyAccept (d : Dfa) (i : ℕ) : ℕ :=
  match (d.accept i).string with
  | none => 0
  | some _ => if (d.accept i).anchor ≠ 0 then (d.accept i).anchor else 4

/-- The variables of `yylex`, and the input by positions. -/
structure Scan where
  /-- The state that the machine is in. -/
  yystate : ℕ
  /-- The most recently seen accepting state. -/
  yylastaccept : ℕ
  /-- The state before `yylastaccept`. -/
  yyprev : ℕ
  /-- The anchor point for the most recently seen state. -/
  yyanchor : ℕ
  /-- The input by positions, with its marks. -/
  inp : Input

/-- How a scanning step ends: with an action, an illegal character or the end of the input. -/
inductive Outcome
  /-- An action is selected.  The input is given as `ii_move_back` leaves it, and after the anchors
  have been trimmed. -/
  | action (state : ℕ) (marked trimmed : Input)
  /-- Illegal input: a character is skipped. -/
  | badInput (inp : Input)
  /-- The end of the input has been reached. -/
  | eof (inp : Input)

/-- What the loop does when there is no transition. -/
def yylexFail (s : Scan) : Outcome :=
  if s.yylastaccept = 0 then .badInput s.inp.advance
  else
    let marked := s.inp.moveBack
    let inp := if s.yyanchor &&& 2 ≠ 0 then marked.pushback 1 else marked
    let inp := if s.yyanchor &&& 1 ≠ 0 then inp.moveStart else inp
    .action s.yylastaccept marked inp

/-- One round of the loop.  At the end of the input `yy_wrap` has no other file. -/
def yylexStep (d : Dfa) (s : Scan) : Scan ⊕ Outcome :=
  match s.inp.look 1 with
  | none => if s.yylastaccept ≠ 0 then .inr (yylexFail s) else .inr (.eof s.inp)
  | some yylook =>
    let yynstate := d.dtran s.yystate yylook
    if yynstate ≠ fail then
      let inp := s.inp.advance
      let yyanchor := yyAccept d yynstate.toNat
      if yyanchor ≠ 0 then
        .inl ⟨yynstate.toNat, yynstate.toNat, s.yystate, yyanchor, inp.markEnd⟩
      else .inl ⟨yynstate.toNat, s.yylastaccept, s.yyprev, yyanchor, inp⟩
    else .inr (yylexFail s)

/-- The start of a scanning step, at the next character and in state 0. -/
def scanStart (inp : Input) : Scan := ⟨0, 0, 0, 0, inp.markStart⟩

/-! ## Maximal munch -/

/-- The state of the table has an accept string. -/
def Accepting (d : Dfa) (t : ℕ) : Prop := (d.accept t).string ≠ none

instance (d : Dfa) (t : ℕ) : Decidable (Accepting d t) := inferInstanceAs (Decidable (_ ≠ _))

/-- The prefix of length `k` of `w` is nonempty and leads from the start state to the accepting
state `t`, and no longer prefix leads to an accepting state. -/
structure LongestAccept (d : Dfa) (w : List (Fin maxChars)) (k t : ℕ) : Prop where
  /-- The prefix has at least one character. -/
  pos : 0 < k
  /-- The prefix is not longer than the text. -/
  le : k ≤ w.length
  /-- The machine reads the prefix and comes to `t`. -/
  run : d.run (w.take k) = .ok t
  /-- The state `t` accepts. -/
  accepting : Accepting d t
  /-- The machine accepts no longer prefix. -/
  longest : ∀ j, k < j → j ≤ w.length → ∀ u, d.run (w.take j) = .ok u → ¬ Accepting d u

/-- The longest nonempty accepted prefix from the state `q`: its length and the state that it
reaches. -/
def longest (d : Dfa) : ℕ → List (Fin maxChars) → Option (ℕ × ℕ)
  | _, [] => none
  | q, c :: w =>
    if d.dtran q c = fail then none
    else
      match longest d (d.dtran q c).toNat w with
      | some (k, t) => some (k + 1, t)
      | none => if Accepting d (d.dtran q c).toNat then some (1, (d.dtran q c).toNat) else none

section Longest

variable {d : Dfa}

/-- `longest` finds the longest prefix that leads to an accepting state. -/
lemma longest_spec {q : ℕ} (hq : q < d.nstates) (w : List (Fin maxChars)) :
    (∀ k t, longest d q w = some (k, t) →
      0 < k ∧ k ≤ w.length ∧ runFrom d.dtran q 0 (w.take k) = .ok t ∧ Accepting d t ∧
        ∀ j, k < j → j ≤ w.length → ∀ u, runFrom d.dtran q 0 (w.take j) = .ok u → ¬ Accepting d u) ∧
    (longest d q w = none →
      ∀ j, 0 < j → j ≤ w.length → ∀ u, runFrom d.dtran q 0 (w.take j) = .ok u →
        ¬ Accepting d u) := by
  induction w generalizing q with
  | nil =>
    refine ⟨fun k t h => by simp [longest] at h, fun _ j hj hle => ?_⟩
    simp only [List.length_nil] at hle
    omega
  | cons c w ih =>
    rcases d.entry q hq c with hfail | ⟨q', hq', htrans⟩
    · refine ⟨fun k t h => by simp [longest, hfail] at h, fun _ j hj _ u hu => ?_⟩
      obtain ⟨j, rfl⟩ : ∃ i, j = i + 1 := ⟨j - 1, by omega⟩
      rw [List.take_succ_cons, runFrom_cons_fail hfail] at hu
      simp at hu
    · obtain ⟨ihsome, ihnone⟩ := ih hq'
      have hlong : longest d q (c :: w) = match longest d q' w with
          | some (k, t) => some (k + 1, t)
          | none => if Accepting d q' then some (1, q') else none := by
        rw [longest, htrans, if_neg (natCast_ne_fail q'), Int.toNat_natCast]
      have htake : ∀ j u, runFrom d.dtran q 0 ((c :: w).take (j + 1)) = .ok u ↔
          runFrom d.dtran q' 0 (w.take j) = .ok u := by
        intro j u
        rw [List.take_succ_cons, runFrom_cons htrans]
        exact ⟨runFrom_ok, runFrom_ok⟩
      rw [hlong]
      rcases hw : longest d q' w with _ | ⟨k, t⟩
      · have hnone := ihnone hw
        have hrest : ∀ j, 1 < j → j ≤ (c :: w).length → ∀ u,
            runFrom d.dtran q 0 ((c :: w).take j) = .ok u → ¬ Accepting d u := by
          intro j hj hle u hu
          obtain ⟨j, rfl⟩ : ∃ i, j = i + 1 := ⟨j - 1, by omega⟩
          rw [List.length_cons] at hle
          exact hnone j (by omega) (by omega) u ((htake j u).mp hu)
        have hone : runFrom d.dtran q 0 ((c :: w).take 1) = .ok q' := (htake 0 q').mpr rfl
        by_cases hacc : Accepting d q'
        · simp only [if_pos hacc]
          refine ⟨fun k t h => ?_, fun h => by simp at h⟩
          simp only [Option.some.injEq, Prod.mk.injEq] at h
          obtain ⟨rfl, rfl⟩ := h
          exact ⟨Nat.one_pos, by simp, hone, hacc, hrest⟩
        · simp only [if_neg hacc]
          refine ⟨fun k t h => by simp at h, fun _ j hj hle u hu => ?_⟩
          rcases Nat.eq_or_lt_of_le hj with rfl | hj
          · have hu' : runFrom d.dtran q 0 ((c :: w).take 1) = .ok u := hu
            rw [hone] at hu'
            obtain rfl := Except.ok.inj hu'
            exact hacc
          · exact hrest j hj hle u hu
      · obtain ⟨hpos, hle, hrun, hacc, hmax⟩ := ihsome k t hw
        refine ⟨fun k' t' h => ?_, fun h => by simp at h⟩
        simp only [Option.some.injEq, Prod.mk.injEq] at h
        obtain ⟨rfl, rfl⟩ := h
        refine ⟨by omega, by simpa using hle, (htake k t).mpr hrun, hacc, fun j hj hle u hu => ?_⟩
        obtain ⟨j, rfl⟩ : ∃ i, j = i + 1 := ⟨j - 1, by omega⟩
        rw [List.length_cons] at hle
        exact hmax j (by omega) (by omega) u ((htake j u).mp hu)

/-- `longest` from the start state is the longest accepted prefix. -/
lemma longest_eq_some_iff {w : List (Fin maxChars)} {k t : ℕ} :
    longest d 0 w = some (k, t) ↔ LongestAccept d w k t := by
  obtain ⟨hsome, hnone⟩ := longest_spec d.pos w
  constructor
  · intro h
    obtain ⟨hpos, hle, hrun, hacc, hmax⟩ := hsome k t h
    exact ⟨hpos, hle, hrun, hacc, hmax⟩
  · intro h
    rcases hl : longest d 0 w with _ | ⟨k', t'⟩
    · exact absurd h.accepting (hnone hl k h.pos h.le t h.run)
    · obtain ⟨hpos, hle, hrun, hacc, hmax⟩ := hsome k' t' hl
      have hk : k = k' := by
        rcases Nat.lt_trichotomy k k' with hlt | heq | hgt
        · exact absurd hacc (h.longest k' hlt hle t' hrun)
        · exact heq
        · exact absurd h.accepting (hmax k hgt h.le t h.run)
      subst hk
      have hrun' : d.run (w.take k) = .ok t' := hrun
      have ht := h.run
      rw [hrun'] at ht
      rw [Except.ok.inj ht]

end Longest

/-! ## What a scanning step does -/

/-- The table does not fail on any character of the string. -/
def Dfa.Alive (d : Dfa) (u : List (Fin maxChars)) : Prop := ∃ t, d.run u = .ok t

section Step

variable {d : Dfa} {s s' : Scan} {o : Outcome} {inp : Input} {u w : List (Fin maxChars)}

/-- Running a table on a string in two parts is running it on the second part from where the first
one leads. -/
lemma runFrom_append (dtran : ℕ → Row) (q j : ℕ) (u v : List (Fin maxChars)) :
    runFrom dtran q j (u ++ v) = runFrom dtran q j u >>= fun t => runFrom dtran t (j + u.length)
    v := by
  induction u generalizing q j with
  | nil => rfl
  | cons a u ih =>
    rw [List.cons_append, runFrom, runFrom]
    split
    · rfl
    · rw [ih, List.length_cons, Nat.add_right_comm, Nat.add_assoc]

/-- A run from a state of the table ends in a state of the table. -/
lemma run_lt {q j t : ℕ} (hq : q < d.nstates) (h : runFrom d.dtran q j w = .ok t) :
    t < d.nstates := by
  induction w generalizing q j with
  | nil =>
    obtain rfl : q = t := Except.ok.inj h
    exact hq
  | cons a w ih =>
    rcases d.entry q hq a with hfail | ⟨u, hu, htrans⟩
    · rw [runFrom_cons_fail hfail] at h
      cases h
    · rw [runFrom_cons htrans] at h
      exact ih hu h

/-- A table that has not failed on a string has not failed on its prefixes. -/
lemma alive_take {t : ℕ} (h : d.run w = .ok t) (j : ℕ) : d.Alive (w.take j) := by
  have happ := runFrom_append d.dtran 0 0 (w.take j) (w.drop j)
  rw [List.take_append_drop] at happ
  have h' : runFrom d.dtran 0 0 w = .ok t := h
  rw [h'] at happ
  rcases hrun : runFrom d.dtran 0 0 (w.take j) with e | t'
  · rw [hrun] at happ
    cases happ
  · exact ⟨t', hrun⟩

/-- The scanner has read the characters `u` since the start of the lexeme. -/
structure Consumed (d : Dfa) (inp : Input) (u : List (Fin maxChars)) (s : Scan) : Prop where
  /-- The characters taken are those in front of the unread ones. -/
  unread : inp.unread = u ++ s.inp.unread
  /-- The state is that behind the characters taken. -/
  run : d.run u = .ok s.yystate
  /-- The text of the input is the same. -/
  text : s.inp.text = inp.text
  /-- The next character is that behind the characters taken. -/
  next : s.inp.next = inp.next + u.length
  /-- The lexeme starts where the characters taken start. -/
  smark : s.inp.smark = inp.next

/-- At the start of a lexeme nothing has been read. -/
lemma consumed_scanStart (d : Dfa) (inp : Input) : Consumed d inp [] (scanStart inp) :=
  ⟨rfl, rfl, rfl, rfl, rfl⟩

/-- The table runs on behind the characters that have been read. -/
lemma Consumed.run_append (hs : Consumed d inp u s) (v : List (Fin maxChars)) :
    d.run (u ++ v) = runFrom d.dtran s.yystate (0 + u.length) v := by
  have hrun : runFrom d.dtran 0 0 u = .ok s.yystate := hs.run
  rw [Dfa.run, runFrom_append, hrun]
  rfl

/-- A round that goes on reads a character on which the table has a transition. -/
lemma Consumed.go (hs : Consumed d inp u s) (h : yylexStep d s = .inl s') :
    ∃ c w t, s.inp.unread = c :: w ∧ t < d.nstates ∧ d.dtran s.yystate c = t ∧ s'.yystate = t ∧
      Consumed d inp (u ++ [c]) s' := by
  unfold yylexStep at h
  rw [Input.look_one] at h
  rcases hw : s.inp.unread with _ | ⟨c, w⟩
  · rw [hw] at h
    simp only [List.head?_nil] at h
    split at h <;> cases h
  rw [hw] at h
  simp only [List.head?_cons] at h
  rcases d.entry s.yystate (run_lt d.pos hs.run) c with hfail | ⟨t, ht, htrans⟩
  · rw [if_neg (not_not.mpr hfail)] at h
    cases h
  have hrun : d.run (u ++ [c]) = .ok t := by
    rw [hs.run_append]
    exact runFrom_cons htrans
  rw [htrans, if_pos (natCast_ne_fail t), Int.toNat_natCast] at h
  have hunread : inp.unread = (u ++ [c]) ++ s.inp.advance.unread := by
    rw [hs.unread, hw, Input.unread_advance hw, List.append_assoc]
    rfl
  have hadvance := Input.advance_of_unread hw
  have htext : s.inp.advance.text = inp.text := by rw [hadvance, ← hs.text]
  have hnext : s.inp.advance.next = inp.next + (u ++ [c]).length := by
    rw [hadvance, List.length_append, List.length_singleton, ← Nat.add_assoc, ← hs.next]
  have hsmark : s.inp.advance.smark = inp.next := by rw [hadvance, ← hs.smark]
  refine ⟨c, w, t, rfl, ht, htrans, ?_⟩
  split at h
  · obtain rfl := Sum.inl.inj h
    exact ⟨rfl, hunread, hrun, htext, hnext, hsmark⟩
  · obtain rfl := Sum.inl.inj h
    exact ⟨rfl, hunread, hrun, htext, hnext, hsmark⟩

/-- When the loop stops, it has read as much as the table lets it. -/
lemma Consumed.le_of_stop (hs : Consumed d inp u s) (h : yylexStep d s = .inr o)
    {v : List (Fin maxChars)} (hv : v <+: inp.unread) (halive : d.Alive v) :
    v.length ≤ u.length := by
  by_contra hlong
  rcases hw : s.inp.unread with _ | ⟨c, w⟩
  · rw [hs.unread, hw, List.append_nil] at hv
    exact hlong hv.length_le
  · have htake : v.take (u.length + 1) = u ++ [c] := by
      obtain ⟨z, hz⟩ := hv
      rw [hs.unread, hw] at hz
      have hboth : (v ++ z).take (u.length + 1) = (u ++ c :: w).take (u.length + 1) := by rw [hz]
      rw [List.take_append_of_le_length (by omega), List.take_length_add_append,
        List.take_succ_cons, List.take_zero] at hboth
      exact hboth
    obtain ⟨t, ht⟩ := halive
    obtain ⟨t', ht'⟩ := alive_take ht (u.length + 1)
    rw [htake, hs.run_append] at ht'
    unfold yylexStep at h
    rw [Input.look_one, hw] at h
    simp only [List.head?_cons] at h
    by_cases hfail : d.dtran s.yystate c = fail
    · rw [runFrom_cons_fail hfail] at ht'
      cases ht'
    · rw [if_pos hfail] at h
      split at h <;> cases h

/-- `Yyaccept` is not zero exactly for the accepting states. -/
lemma yyAccept_ne_zero {t : ℕ} : yyAccept d t ≠ 0 ↔ Accepting d t := by
  unfold yyAccept Accepting
  split
  · simp [*]
  · split <;> simp [*]

/-- What the rest of the step will find, in any state of the loop: the last accepting state and the
position of the mark.  It is the longest accepted prefix of the rest, or else what has been seen so
far. -/
def verdict (d : Dfa) (s : Scan) : ℕ × ℕ :=
  match longest d s.yystate s.inp.unread with
  | some (k, t) => (t, s.inp.next + k)
  | none => (s.yylastaccept, s.inp.emark)

/-- A round that goes on reads a character and does not change what the rest of the step will
find. -/
lemma yylexStep_inl (hs : s.yystate < d.nstates) (h : yylexStep d s = .inl s') :
    s'.yystate < d.nstates ∧ verdict d s' = verdict d s ∧ s'.inp.text = s.inp.text ∧
      s'.inp.smark = s.inp.smark ∧ s'.inp.unread.length < s.inp.unread.length := by
  unfold yylexStep at h
  rw [Input.look_one] at h
  rcases hw : s.inp.unread with _ | ⟨c, w⟩
  · rw [hw] at h
    simp only [List.head?_nil] at h
    split at h <;> simp at h
  · rw [hw] at h
    simp only [List.head?_cons] at h
    rcases d.entry s.yystate hs c with hfail | ⟨t, ht, htrans⟩
    · simp [hfail] at h
    · rw [htrans] at h
      simp only [ne_eq, natCast_ne_fail, not_false_eq_true, if_true, Int.toNat_natCast] at h
      have hadv := Input.advance_of_unread hw
      have hunread := Input.unread_advance hw
      have hverdict : verdict d s = match longest d t w with
          | some (k, u) => (u, s.inp.next + 1 + k)
          | none =>
            if Accepting d t then (t, s.inp.next + 1) else (s.yylastaccept, s.inp.emark) := by
        unfold verdict
        rw [hw, longest, htrans, if_neg (natCast_ne_fail t), Int.toNat_natCast]
        rcases longest d t w with _ | ⟨k, u⟩
        · by_cases hacc : Accepting d t <;> simp [hacc]
        · simp only [Prod.mk.injEq, true_and]
          omega
      by_cases hacc : Accepting d t
      · rw [if_pos (yyAccept_ne_zero.mpr hacc)] at h
        obtain rfl := Sum.inl.inj h
        have hmark : (s.inp.advance.markEnd).unread = w := hunread
        refine ⟨ht, ?_, by rw [hadv]; rfl, by rw [hadv]; rfl, by rw [hmark]; simp⟩
        rw [hverdict]
        unfold verdict
        rw [hmark]
        rcases longest d t w with _ | ⟨k, u⟩
        · simp [hacc, hadv, Input.markEnd]
        · simp [hadv, Input.markEnd]
      · rw [if_neg (fun hne => hacc (yyAccept_ne_zero.mp hne))] at h
        obtain rfl := Sum.inl.inj h
        refine ⟨ht, ?_, by rw [hadv], by rw [hadv], by rw [hunread]; simp⟩
        rw [hverdict]
        unfold verdict
        rw [hunread]
        rcases longest d t w with _ | ⟨k, u⟩
        · simp [hacc, hadv]
        · simp [hadv]

/-- The last round selects the action of the last accepting state and goes back to its mark, or
selects no action if the last accepting state is the start state. -/
lemma yylexStep_inr (hs : s.yystate < d.nstates) (h : yylexStep d s = .inr o) :
    ((verdict d s).1 = 0 → ∀ t marked trimmed, o ≠ .action t marked trimmed) ∧
    ((verdict d s).1 ≠ 0 → ∃ trimmed, o = .action (verdict d s).1
      { s.inp with lineno := s.inp.mline, next := (verdict d s).2, emark := (verdict d s).2 }
      trimmed) := by
  have hfail : ∀ {o}, .inr (yylexFail s) = (.inr o : Scan ⊕ Outcome) →
      (s.yylastaccept = 0 → ∀ t marked trimmed, o ≠ .action t marked trimmed) ∧
      (s.yylastaccept ≠ 0 → ∃ trimmed, o = .action s.yylastaccept
        { s.inp with lineno := s.inp.mline, next := s.inp.emark, emark := s.inp.emark }
        trimmed) := by
    intro o ho
    obtain rfl := Sum.inr.inj ho
    unfold yylexFail
    by_cases hz : s.yylastaccept = 0
    · simp [hz]
    · refine ⟨fun h0 => absurd h0 hz, fun _ => ?_⟩
      rw [if_neg hz]
      exact ⟨_, rfl⟩
  unfold yylexStep at h
  rw [Input.look_one] at h
  rcases hw : s.inp.unread with _ | ⟨c, w⟩
  · rw [hw] at h
    simp only [List.head?_nil] at h
    have hverdict : verdict d s = (s.yylastaccept, s.inp.emark) := by
      unfold verdict
      rw [hw]
      rfl
    rw [hverdict]
    by_cases hz : s.yylastaccept = 0
    · rw [if_neg (by simpa using hz)] at h
      obtain rfl := Sum.inr.inj h
      exact ⟨fun _ t marked trimmed => by simp, fun h0 => absurd hz h0⟩
    · rw [if_pos hz] at h
      exact hfail h
  · rw [hw] at h
    simp only [List.head?_cons] at h
    rcases d.entry s.yystate hs c with hnone | ⟨t, ht, htrans⟩
    · have hverdict : verdict d s = (s.yylastaccept, s.inp.emark) := by
        unfold verdict
        rw [hw, longest, if_pos hnone]
      rw [hverdict]
      rw [if_neg (by simpa using hnone)] at h
      exact hfail h
    · rw [htrans] at h
      simp only [ne_eq, natCast_ne_fail, not_false_eq_true, if_true] at h
      split at h <;> simp at h

/-- A scanning step ends.  If some nonempty prefix of the unread input is accepted, and the longest
one does not lead back to the start state, the step marks this prefix and selects its action; if it
leads back to the start state, the step selects no action. -/
lemma exists_yylex (d : Dfa) (inp : Input) :
    ∃ u s o, Reaches (yylexStep d) (scanStart inp) s ∧ Consumed d inp u s ∧ yylexStep d s = .inr o ∧
      ∀ k t, LongestAccept d inp.unread k t →
        (t = 0 → ∀ q marked trimmed, o ≠ .action q marked trimmed) ∧
        (t ≠ 0 → ∃ marked trimmed, o = .action t marked trimmed ∧ marked.text = inp.text ∧
          marked.smark = inp.next ∧ marked.emark = inp.next + k ∧ marked.next = inp.next + k) := by
  let I : Scan → Prop := fun s => (∃ u, Consumed d inp u s) ∧ s.yystate < d.nstates ∧
    verdict d s = verdict d (scanStart inp) ∧ s.inp.text = inp.text ∧ s.inp.smark = inp.next
  have hstep : ∀ s s', I s → yylexStep d s = .inl s' →
      I s' ∧ s'.inp.unread.length < s.inp.unread.length := by
    rintro s s' ⟨⟨u, hu⟩, hs, hverdict, htext, hsmark⟩ h
    obtain ⟨hs', hverdict', htext', hsmark', hlt⟩ := yylexStep_inl hs h
    obtain ⟨c, -, -, -, -, -, -, hu'⟩ := hu.go h
    exact ⟨⟨⟨_, hu'⟩, hs', hverdict'.trans hverdict, htext'.trans htext, hsmark'.trans hsmark⟩, hlt⟩
  have hstart : I (scanStart inp) := ⟨⟨[], consumed_scanStart d inp⟩, d.pos, rfl, rfl, rfl⟩
  obtain ⟨n, o, hn⟩ := stops_of_measure I (fun s => s.inp.unread.length) hstep hstart
  obtain ⟨s, hreach, hlast⟩ := run_spec hn
  obtain ⟨⟨u, hu⟩, hs, hverdict, htext, hsmark⟩ :=
    hreach.invariant I (fun s s' hI h => (hstep s s' hI h).1) hstart
  obtain ⟨hzero, hpos⟩ := yylexStep_inr hs hlast
  refine ⟨u, s, o, hreach, hu, hlast, fun k t hlong => ?_⟩
  have hv : verdict d (scanStart inp) = (t, inp.next + k) := by
    have hlongest : longest d (scanStart inp).yystate (scanStart inp).inp.unread = some (k, t) :=
      longest_eq_some_iff.mpr hlong
    unfold verdict
    rw [hlongest]
    rfl
  rw [hverdict, hv] at hzero hpos
  refine ⟨hzero, fun ht => ?_⟩
  obtain ⟨trimmed, ho⟩ := hpos ht
  exact ⟨_, trimmed, ho, htext, hsmark, rfl, rfl⟩

end Step

/-- The letter `a` is a character of the table. -/
lemma a_lt_maxChars : 97 < maxChars := by decide

/-- The table of the rule `a*`: the start state accepts and is reached again on `a`. -/
def starDfa : Dfa where
  nstates := 1
  dtran _ c := if c = ⟨97, a_lt_maxChars⟩ then 0 else fail
  accept _ := ⟨some 1, 0⟩
  pos := by decide
  le := by decide
  entry s hs c := by
    split
    · exact Or.inr ⟨0, by decide, rfl⟩
    · exact Or.inl rfl

end Lex
