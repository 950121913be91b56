import Cgkits.Lex.Term
import Cgkits.Lex.Yylex

/-!
# The loop of the scanner (`lex.m`)

`yylex` runs its table on the input buffer.  `Cgkits.Lex.Yylex` is about the loop on a text with
positions; this module has it on the buffer of the input system, with the exits of `ii_advance`,
with the actions, which may call the input system themselves, ask for more with `yymore`, or return,
and with the function `yy_wrap` that opens another file.

`turn` is what the loop does from one test for the end of the file to the next one, or up to the
place where code of the user is called.  `Step` goes on behind that code.  All that the code of the
user can do to the input are calls of the input system, so a step carries them as its label, and a
run is a sequence of steps with the states in front of them.  Both are about any table pair, as the
driver does not know how the tables have been made.

The loop remembers the state that has accepted last, and beside it the anchors of the state that it
has entered last.  They are those of the same state until the scanner passes on to a state that does
not accept (`anchored_iff`).
-/

namespace Lex

/-! ## The driver -/

/-- `YYF`: the failure transition, as it stands in a cell. -/
def yyf : UInt8 := UInt8.ofInt (-1)

/-- The tables of a scanner, as its template looks them up. -/
structure ScanTables where
  /-- `yy_next`, the lookup in the transition table. -/
  yyNext : ℕ → ℕ → UInt8
  /-- `Yyaccept`, the array of the accepting states. -/
  yyaccept : ℕ → UInt8

/-- The variables of `yylex`, and the input system. -/
structure Yylex where
  /-- The state that the machine is in. -/
  yystate : ℕ
  /-- The most recently seen accepting state. -/
  yylastaccept : ℕ
  /-- The state before `yylastaccept`. -/
  yyprev : ℕ
  /-- The anchor point for the most recently seen state. -/
  yyanchor : ℕ
  /-- Set when `yymore` is executed. -/
  yymoreflg : Bool
  /-- The input buffer, with its marks. -/
  inp : Buffer

/-- The tables of a DFA as they are printed: the array has a row of `MAX_CHARS` cells for each
state, so that a column beyond its end is a cell of the next row.  What is in memory behind the
array is `outside`. -/
def Dfa.tables (d : Dfa) (outside : ℕ → UInt8) : ScanTables where
  yyNext state c :=
    let i := state * maxChars + c
    if i < d.nstates * maxChars then
      UInt8.ofInt (d.dtran (i / maxChars) ⟨i % maxChars, Nat.mod_lt _ (by decide)⟩)
    else outside i
  yyaccept state := UInt8.ofNat (yyAccept d state)

namespace Yylex

/-- How a turn of the loop ends when the loop does not go on by itself. -/
inductive Stop
  /-- The action of a state is called.  The input is given as `ii_move_back` leaves it, and after
  the anchors have been trimmed. -/
  | action (state : ℕ) (marked trimmed : Buffer)
  /-- Illegal input: a character has been skipped. -/
  | badInput (inp : Buffer)
  /-- The end of the file: `yy_wrap` is called. -/
  | eof
  /-- The input system ends the program. -/
  | exit (fault : InputFault)

/-- The top of `yylex`.  The variables that it does not initialise have any value. -/
def enter (yyprev yyanchor : ℕ) (inp : Buffer) : Yylex :=
  ⟨0, 0, yyprev, yyanchor, false, inp.markStart⟩

/-- `ii_advance`, with a forced flush when the buffer is full. -/
def advance (read : Delivery) (inp : Buffer) : Except InputFault Buffer := do
  let (r, inp) ← inp.advanceBy read
  if r < 0 then
    let (_, inp) ← inp.flushBy read true
    return inp
  else return inp

/-- A transition, after the character has been read: the state is remembered if it accepts. -/
def goTo (t : ScanTables) (yynstate : ℕ) (s : Yylex) (inp : Buffer) : Yylex :=
  let yyanchor := (t.yyaccept yynstate).toNat
  if yyanchor ≠ 0 then
    { s with
      yystate := yynstate
      yylastaccept := yynstate
      yyprev := s.yystate
      yyanchor := yyanchor
      inp := inp.markEnd }
  else { s with yystate := yynstate, yyanchor := yyanchor, inp := inp }

/-- The input in front of the action: back at the end of the lexeme, without what the anchors stand
for. -/
def trim (yyanchor : ℕ) (inp : Buffer) : Buffer :=
  let inp := inp.moveBack
  let inp := if yyanchor &&& 2 ≠ 0 then (inp.pushback 1).2 else inp
  if yyanchor &&& 1 ≠ 0 then inp.moveStart else inp

/-- What the loop does when there is no transition: it takes an accepted lexeme or reports a bad
character. -/
def failed (read : Delivery) (s : Yylex) : Yylex ⊕ Stop :=
  if s.yylastaccept = 0 then
    match s.inp.advanceBy read with
    | .error fault => .inr (.exit fault)
    | .ok (_, inp) => .inr (.badInput inp)
  else .inr (.action s.yylastaccept s.inp.moveBack (trim s.yyanchor s.inp))

/-- From one test for the end of the file to the next one, or to the code of the user. -/
def turn (t : ScanTables) (read : Delivery) (s : Yylex) : Yylex ⊕ Stop :=
  let yylook := s.inp.look 1
  if yylook ≠ -1 then
    let yynstate := t.yyNext s.yystate yylook.toNat
    if yynstate ≠ yyf then
      match advance read s.inp with
      | .error fault => .inr (.exit fault)
      | .ok inp => .inl (goTo t yynstate.toNat s inp)
    else failed read s
  else if s.yylastaccept ≠ 0 then failed read s
  else .inr .eof

/-- The end of the loop: the next lexeme starts, unless the action wants more of this one. -/
def again (s : Yylex) : Yylex :=
  if !s.yymoreflg then { s with yylastaccept := 0, yystate := 0, inp := s.inp.markStart }
  else { s with yylastaccept := 0, yystate := s.yyprev, yymoreflg := false }

/-- The code of the user finds the buffer with or without a terminator, makes calls of the input
system, and `ii_unterm` leaves the given buffer. -/
def Acts (l : List (TermCall × Option ℤ)) (inp : TermBuffer) (inp' : Buffer) : Prop :=
  ∃ s, Trace TermCall.Step l inp s ∧ inp' = s.unterm.buffer

/-- What happens outside of the driver in a step: what the calls of `read` deliver, and which calls
of the input system the code of the user makes. -/
inductive Label
  /-- A turn of the loop, without code of the user. -/
  | turn (read : Delivery)
  /-- The calls in an action, and from there to the next call of `yylex`. -/
  | action (calls : List (TermCall × Option ℤ))
  /-- The calls in `yy_wrap`, and the `read` of the driver behind it. -/
  | wrap (calls : List (TermCall × Option ℤ)) (read : Delivery)

/-- From one test for the end of the file to the next one, with the code of the user between
them. -/
inductive Step (t : ScanTables) : Label → Yylex → Yylex → Prop
  /-- A transition with which the loop goes on. -/
  | go {s s' : Yylex} {read : Delivery} (h : turn t read s = .inl s') : Step t (.turn read) s s'
  /-- A character that no rule takes. -/
  | badInput {s : Yylex} {read : Delivery} {inp : Buffer}
      (h : turn t read s = .inr (.badInput inp)) :
      Step t (.turn read) s (again { s with inp := inp })
  /-- An action that does not return.  It finds the lexeme with a terminator. -/
  | action {s : Yylex} {read : Delivery} {state : ℕ} {marked trimmed inp : Buffer}
      {calls : List (TermCall × Option ℤ)} (more : Bool)
      (h : turn t read s = .inr (.action state marked trimmed))
      (hcalls : Acts calls (TermBuffer.term ⟨trimmed, 0⟩) inp) :
      Step t (.action calls) s (again { s with yymoreflg := more, inp := inp })
  /-- An action that returns, and the next call. -/
  | returns {s : Yylex} {read : Delivery} {state : ℕ} {marked trimmed inp : Buffer}
      {calls : List (TermCall × Option ℤ)} (yyprev yyanchor : ℕ)
      (h : turn t read s = .inr (.action state marked trimmed))
      (hcalls : Acts calls (TermBuffer.term ⟨trimmed, 0⟩) inp) :
      Step t (.action calls) s (enter yyprev yyanchor inp)
  /-- The end of the file, where `yy_wrap` opens another one and leaves no terminator. -/
  | wrap {s : Yylex} {read read' : Delivery} {r : ℤ} {file inp : Buffer}
      {calls : List (TermCall × Option ℤ)} (h : turn t read s = .inr .eof)
      (hcalls : Trace TermCall.Step calls ⟨s.inp, 0⟩ ⟨file, 0⟩) (hadvance : file.advanceBy read' =
      .ok (r, inp)) : Step t (.wrap calls read') s { s with inp := (inp.pushback 1).2 }
  /-- The end of the input, and the next call. -/
  | finish {s : Yylex} {read : Delivery} {inp : Buffer} {calls : List (TermCall × Option ℤ)}
      (yyprev yyanchor : ℕ) (h : turn t read s = .inr .eof) (hcalls : Acts calls ⟨s.inp, 0⟩ inp) :
      Step t (.action calls) s (enter yyprev yyanchor inp)

/-- The first call, on a file with the given content. -/
inductive Starts (content : List UInt8) : Delivery → Yylex → Prop
  | first {read : Delivery} {r : ℤ} {inp : Buffer} (yyprev yyanchor : ℕ)
      (h : (Buffer.newfile content).advanceBy read = .ok (r, inp)) :
      Starts content read (enter yyprev yyanchor (inp.pushback 1).2)

/-- A run of the loop: its steps, each with the state in front of it and its label. -/
def Run (t : ScanTables) : List (Yylex × Label) → Yylex → Yylex → Prop :=
  Trace fun p s s' => s = p.1 ∧ Step t p.2 s s'

/-- The next state for the character that is ahead. -/
def yynstate (t : ScanTables) (s : Yylex) : UInt8 := t.yyNext s.yystate (s.inp.look 1).toNat

/-- A character is ahead, and there is a transition on it. -/
def Goes (t : ScanTables) (s : Yylex) : Prop := s.inp.look 1 ≠ -1 ∧ s.yynstate t ≠ yyf

section Turn

variable {t : ScanTables} {s s' : Yylex} {read : Delivery} {inp : Buffer}

/-- A transition to an accepting state marks the end of the lexeme, and remembers the state and its
anchors. -/
lemma goTo_of_ne {n : ℕ} (h : t.yyaccept n ≠ 0) : goTo t n s inp =
    { s with
      yystate := n
      yylastaccept := n
      yyprev := s.yystate
      yyanchor := (t.yyaccept n).toNat
      inp := inp.markEnd } :=
  if_pos fun hz => h (UInt8.toNat_inj.mp hz)

/-- A transition to a state that does not accept leaves the marks, but it sets the anchors to
zero. -/
lemma goTo_of_eq {n : ℕ} (h : t.yyaccept n = 0) :
    goTo t n s inp = { s with yystate := n, yyanchor := 0, inp := inp } := by
  unfold goTo
  rw [h]
  rfl

/-- With a character ahead that has a transition, the turn is a call of `ii_advance`. -/
lemma turn_of_goes (h : s.Goes t) : turn t read s =
    match (motive := Except InputFault Buffer → Yylex ⊕ Stop) advance read s.inp with
    | .error fault => .inr (.exit fault)
    | .ok inp => .inl (goTo t (s.yynstate t).toNat s inp) := by
  unfold turn
  rw [if_pos h.1]
  exact if_pos h.2

/-- Without a transition the turn ends outside of the loop, at the end of the file or as `failed`
says. -/
lemma turn_of_not_goes (read : Delivery) (h : ¬ s.Goes t) : turn t read s = .inr .eof ∧
    s.inp.look 1 = -1 ∧ s.yylastaccept = 0 ∨ turn t read s = failed read s ∧
    (s.inp.look 1 = -1 → s.yylastaccept ≠ 0) := by
  unfold turn
  by_cases hlook : s.inp.look 1 = -1
  · rw [if_neg (not_not.mpr hlook)]
    by_cases hlast : s.yylastaccept = 0
    · exact .inl ⟨if_neg (not_not.mpr hlast), hlook, hlast⟩
    · exact .inr ⟨if_pos hlast, fun _ => hlast⟩
  · rw [if_pos hlook]
    exact .inr ⟨if_neg fun hne => h ⟨hlook, hne⟩, fun heq => absurd heq hlook⟩

/-- The loop goes on by itself only with a transition. -/
lemma turn_eq_inl (h : turn t read s = .inl s') :
    s.Goes t ∧ ∃ inp, advance read s.inp = .ok inp ∧ s' = goTo t (s.yynstate t).toNat s inp := by
  by_cases hgoes : s.Goes t
  · rw [turn_of_goes hgoes] at h
    rcases hinp : advance read s.inp with fault | inp
    · rw [hinp] at h
      cases h
    · rw [hinp] at h
      exact ⟨hgoes, inp, rfl, (Sum.inl.inj h).symm⟩
  · obtain ⟨heq, -⟩ | ⟨heq, -⟩ := turn_of_not_goes read hgoes
    · rw [heq] at h
      cases h
    · rw [heq] at h
      unfold failed at h
      split at h
      · split at h <;> cases h
      · cases h

/-- An action is selected only without a transition.  It is that of the last accepting state, and it
gets the input that the anchors leave. -/
lemma turn_eq_action {state : ℕ} {marked trimmed : Buffer}
    (h : turn t read s = .inr (.action state marked trimmed)) : ¬ s.Goes t ∧ s.yylastaccept ≠ 0 ∧
    state = s.yylastaccept ∧ marked = s.inp.moveBack ∧
      trimmed = trim s.yyanchor s.inp := by
  by_cases hgoes : s.Goes t
  · rw [turn_of_goes hgoes] at h
    split at h <;> cases h
  · obtain ⟨heq, -⟩ | ⟨heq, -⟩ := turn_of_not_goes read hgoes
    · rw [heq] at h
      cases h
    · rw [heq] at h
      unfold failed at h
      split at h
      · split at h <;> cases h
      · rename_i hlast
        obtain ⟨rfl, rfl, rfl⟩ := Stop.action.inj (Sum.inr.inj h)
        exact ⟨hgoes, hlast, rfl, rfl, rfl⟩

/-- A character is skipped only without a transition and before any accepting state. -/
lemma turn_eq_badInput (h : turn t read s = .inr (.badInput inp)) :
    ¬ s.Goes t ∧ s.yylastaccept = 0 ∧ ∃ r, s.inp.advanceBy read = .ok (r, inp) := by
  by_cases hgoes : s.Goes t
  · rw [turn_of_goes hgoes] at h
    split at h <;> cases h
  · obtain ⟨heq, -⟩ | ⟨heq, -⟩ := turn_of_not_goes read hgoes
    · rw [heq] at h
      cases h
    · rw [heq] at h
      unfold failed at h
      split at h
      · rename_i hlast
        split at h
        · cases h
        · rename_i hadvance
          obtain rfl := Stop.badInput.inj (Sum.inr.inj h)
          exact ⟨hgoes, hlast, _, hadvance⟩
      · cases h

/-- The end of the file is seen only without a character ahead and before any accepting state. -/
lemma turn_eq_eof (h : turn t read s = .inr .eof) : s.inp.look 1 = -1 ∧ s.yylastaccept = 0 := by
  by_cases hgoes : s.Goes t
  · rw [turn_of_goes hgoes] at h
    split at h <;> cases h
  · obtain ⟨-, heof⟩ | ⟨heq, -⟩ := turn_of_not_goes read hgoes
    · exact heof
    · rw [heq] at h
      unfold failed at h
      split at h
      · split at h <;> cases h
      · cases h

/-- At the end of the loop no accepting state has been seen. -/
@[simp] lemma yylastaccept_again (s : Yylex) : s.again.yylastaccept = 0 := by
  unfold again
  split <;> rfl

/-- A step is a transition, or it ends in a state in which no accepting state has been seen. -/
lemma Step.go_or_none {i : Label} (h : Step t i s s') :
    (s.Goes t ∧ ∃ inp, s' = goTo t (s.yynstate t).toNat s inp) ∨
    (¬ s.Goes t ∧ s'.yylastaccept = 0) := by
  cases h with
  | go h =>
    obtain ⟨hgoes, inp, -, rfl⟩ := turn_eq_inl h
    exact .inl ⟨hgoes, inp, rfl⟩
  | badInput h => exact .inr ⟨(turn_eq_badInput h).1, yylastaccept_again _⟩
  | action more h => exact .inr ⟨(turn_eq_action h).1, yylastaccept_again _⟩
  | returns _ _ h => exact .inr ⟨(turn_eq_action h).1, rfl⟩
  | wrap h =>
    obtain ⟨hlook, hlast⟩ := turn_eq_eof h
    exact .inr ⟨fun hgoes => hgoes.1 hlook, hlast⟩
  | finish _ _ h => exact .inr ⟨fun hgoes => hgoes.1 (turn_eq_eof h).1, rfl⟩

end Turn

/-! ## The anchors -/

section Anchors

variable {t : ScanTables} {s s' s₀ : Yylex} {content : List UInt8} {read : Delivery} {i : Label}
  {l : List (Yylex × Label)}

/-- The anchors are those of the accepting state that has been seen, and an action that is selected
finds the input that the anchors of its own state leave. -/
def Anchored (t : ScanTables) (s : Yylex) : Prop := s.yylastaccept ≠ 0 →
  s.yyanchor = (t.yyaccept s.yylastaccept).toNat ∧ ∀ read state marked trimmed,
    turn t read s = .inr (.action state marked trimmed) →
    trimmed = trim (t.yyaccept state).toNat s.inp

/-- The next transition leads from behind an accepting state to one that does not accept. -/
def Drifts (t : ScanTables) (s : Yylex) : Prop :=
  s.yylastaccept ≠ 0 ∧ s.Goes t ∧ t.yyaccept (s.yynstate t).toNat = 0

/-- The state that has been seen last as an accepting one accepts. -/
def Seen (t : ScanTables) (s : Yylex) : Prop := s.yylastaccept ≠ 0 → t.yyaccept s.yylastaccept ≠ 0

/-- The value of `yyanchor` decides whether the anchors are right. -/
lemma anchored_of_eq (h : s.yyanchor = (t.yyaccept s.yylastaccept).toNat) : Anchored t s := by
  refine fun _ => ⟨h, fun read state marked trimmed hturn => ?_⟩
  obtain ⟨-, -, rfl, -, rfl⟩ := turn_eq_action hturn
  rw [h]

/-- A step keeps that the state that has been seen accepts. -/
lemma Step.seen (h : Step t i s s') (hs : Seen t s) : Seen t s' := by
  obtain ⟨-, inp, rfl⟩ | ⟨-, hnone⟩ := h.go_or_none
  · by_cases hzero : t.yyaccept (s.yynstate t).toNat = 0
    · rw [goTo_of_eq hzero]
      exact hs
    · rw [goTo_of_ne hzero]
      exact fun _ => hzero
  · exact fun hne => absurd hnone hne

/-- Behind a step the anchors are right, exactly when the step does not drift. -/
lemma Step.keeps_anchors_iff (h : Step t i s s') (hseen : Seen t s) :
    Anchored t s' ↔ ¬ Drifts t s := by
  obtain ⟨hgoes, inp, rfl⟩ | ⟨hnot, hnone⟩ := h.go_or_none
  · by_cases hzero : t.yyaccept (s.yynstate t).toNat = 0
    · rw [goTo_of_eq hzero]
      by_cases hlast : s.yylastaccept = 0
      · exact iff_of_true (fun hne => absurd hlast hne) fun hdrift => hdrift.1 hlast
      · refine iff_of_false (fun hanchored => ?_) (not_not.mpr ⟨hlast, hgoes, hzero⟩)
        exact hseen hlast (UInt8.toNat_inj.mp (hanchored hlast).1.symm)
    · rw [goTo_of_ne hzero]
      exact iff_of_true (anchored_of_eq rfl) fun hdrift => hzero hdrift.2.2
  · exact iff_of_true (fun hne => absurd hnone hne) fun hdrift => hnot hdrift.2.1

/-- In a run from a state with right anchors all states have them, exactly when no step drifts. -/
lemma Run.keeps_anchors_iff (h : Run t l s₀ s) (hseen : Seen t s₀) (hstart : Anchored t s₀) :
    ((∀ p ∈ l, Anchored t p.1) ∧ Anchored t s) ↔ ∀ p ∈ l, ¬ Drifts t p.1 := by
  induction h with
  | nil s => simp [hstart]
  | @cons p l s s' u hstep _ ih =>
    obtain ⟨rfl, hstep⟩ := hstep
    have hnext := hstep.keeps_anchors_iff hseen
    rw [List.forall_mem_cons, List.forall_mem_cons, ← hnext]
    constructor
    · rintro ⟨⟨-, hall⟩, hlast⟩
      have hs' : Anchored t s' := by
        rcases l with - | ⟨q, l⟩
        · obtain rfl := Trace.nil_iff.mp ‹Trace _ [] s' u›
          exact hlast
        · obtain ⟨-, ⟨rfl, -⟩, -⟩ := Trace.cons_iff.mp ‹Trace _ (q :: l) s' u›
          exact hall q List.mem_cons_self
      exact ⟨hs', (ih (hstep.seen hseen) hs').mp ⟨hall, hlast⟩⟩
    · rintro ⟨hs', hall⟩
      obtain ⟨hrest, hlast⟩ := (ih (hstep.seen hseen) hs').mpr hall
      exact ⟨⟨hstart, hrest⟩, hlast⟩

/-- In every state of a run the anchors are those of the accepting state that has been seen, exactly
when no step of the run drifts. -/
theorem anchored_iff (h : Starts content read s₀) (hrun : Run t l s₀ s) :
    ((∀ p ∈ l, Anchored t p.1) ∧ Anchored t s) ↔ ∀ p ∈ l, ¬ Drifts t p.1 := by
  have hnone : s₀.yylastaccept = 0 := by
    obtain ⟨yyprev, yyanchor, -⟩ := h
    rfl
  exact hrun.keeps_anchors_iff (fun hne => absurd hnone hne) fun hne => absurd hnone hne

/-- A table with an end anchor: the newline leads to an accepting state, and a letter behind it to
one that does not accept. -/
def anchorTables : ScanTables where
  yyNext s c := if s = 0 ∧ c = 10 then 1 else if s = 1 ∧ c = 97 then 2 else yyf
  yyaccept s := if s = 1 then 2 else 0

/-- On the letter behind the newline the scanner passes on from the accepting state. -/
lemma exists_drift : ∃ s₀ s₁ s₂, Starts [97] .full s₀ ∧ turn anchorTables .full s₀ = .inl s₁ ∧
    turn anchorTables .full s₁ = .inl s₂ ∧ s₂.yylastaccept = 1 ∧ s₂.yyanchor = 0 := by
  obtain ⟨r, inp, hfirst, hrest⟩ : ∃ r inp, (Buffer.newfile [97]).advanceBy .full = .ok (r, inp) ∧
      ∃ s₁ s₂, turn anchorTables .full (enter 0 0 (inp.pushback 1).2) = .inl s₁ ∧
        turn anchorTables .full s₁ = .inl s₂ ∧ s₂.yylastaccept = 1 ∧ s₂.yyanchor = 0 :=
    ⟨_, _, rfl, _, _, rfl, rfl, rfl, rfl⟩
  obtain ⟨s₁, s₂, hstep₁, hstep₂, hfacts⟩ := hrest
  exact ⟨_, s₁, s₂, .first 0 0 hfirst, hstep₁, hstep₂, hfacts⟩

/-- The two transitions on the newline and on the letter. -/
theorem anchored_iff_letter : ∃ s₀ l s, Starts [97] .full s₀ ∧ Run anchorTables l s₀ s ∧
    l.length = 2 ∧ (((∀ p ∈ l, Anchored anchorTables p.1) ∧ Anchored anchorTables s) ↔
    ∀ p ∈ l, ¬ Drifts anchorTables p.1) := by
  obtain ⟨s₀, s₁, s₂, hstart, hstep₁, hstep₂, -⟩ := exists_drift
  have hrun : Run anchorTables [(s₀, .turn .full), (s₁, .turn .full)] s₀ s₂ :=
    .cons ⟨rfl, .go hstep₁⟩ (.cons ⟨rfl, .go hstep₂⟩ (.nil s₂))
  exact ⟨s₀, _, s₂, hstart, hrun, rfl, anchored_iff hstart hrun⟩

/-- Behind the letter the anchors of the accepted state are lost. -/
theorem not_anchored_drift : ¬ ∀ t content read s₀ l s, Starts content read s₀ → Run t l s₀ s →
    Anchored t s := by
  intro hall
  obtain ⟨s₀, s₁, s₂, hstart, hstep₁, hstep₂, hlast, hanchor⟩ := exists_drift
  have hrun : Run anchorTables [(s₀, .turn .full), (s₁, .turn .full)] s₀ s₂ :=
    .cons ⟨rfl, .go hstep₁⟩ (.cons ⟨rfl, .go hstep₂⟩ (.nil s₂))
  obtain ⟨heq, -⟩ := hall _ _ _ _ _ _ hstart hrun (by rw [hlast]; exact Nat.one_ne_zero)
  rw [hlast, hanchor] at heq
  cases heq

end Anchors

end Yylex

end Lex
