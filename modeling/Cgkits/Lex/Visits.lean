import Cgkits.Lex.Regex

/-!
# The calls of `advance`

The parser reads the tokens of a text one after the other.  `Point` are the points of the parser,
with the number of open parentheses where it matters, and `Point.step` says what the parser does
there with the current token: it looks at it again at another point, it calls `advance`, or it skips
white space and then calls `advance`, which only `rule` does behind an expression.

`ComesTo` are the points and the states of the analyzer that the parser comes to with a given text,
and `Calls` are the states in which it calls `advance`.  `thompson_congr` says that these are all
its calls: another analyzer that agrees in them with the given one leads to the same machine.
-/

namespace Lex

variable {ι : Type}

/-! ## The points of the parser -/

/-- A point of the parser; `d` is the number of parentheses that are open. -/
inductive Point
  /-- `rule` is called, at the first token of a rule. -/
  | rule
  /-- `cat_expr` is called within `d` parentheses. -/
  | cat (d : ℕ)
  /-- A `cat_expr` goes on, behind a factor. -/
  | more (d : ℕ)
  /-- `term` is called within `d` parentheses. -/
  | term (d : ℕ)
  /-- Behind the bracket of a class. -/
  | ccl (d : ℕ)
  /-- Behind `[^`, before the class is looked at. -/
  | cclNeg (d : ℕ)
  /-- `dodash` is called within `d` parentheses. -/
  | dodash (d : ℕ)
  /-- The loop of `dodash` looks at a token. -/
  | cls (d : ℕ)
  /-- Behind a dash in a class. -/
  | dash (d : ℕ)
  /-- Behind a term, where a closure may stand. -/
  | factor (d : ℕ)
  /-- Behind a `cat_expr`, where an `|` may stand. -/
  | expr (d : ℕ)
  /-- Behind the expression of a rule. -/
  | eol
  /-- Behind the `$` of a rule, if there is one. -/
  | ruleEnd
  /-- Behind a rule, where another may start. -/
  | machine
deriving DecidableEq

/-- What the parser does with the current token. -/
inductive Move
  /-- It looks at the token at another point. -/
  | stay (p : Point)
  /-- It calls `advance` and comes to another point. -/
  | read (p : Point)
  /-- It skips white space, calls `advance`, and comes to another point. -/
  | line (p : Point)
  /-- The parser reads no more tokens. -/
  | halt
deriving DecidableEq

/-- What the parser does at a point with the current token `t`.  Behind a `cat_expr` that is empty
the program goes on with pointers that were not set: as far as it does not crash, it reads what
follows as behind any other `cat_expr`. -/
def Point.step : Point → Token → Move
  | .rule, t => if t = .atBol then .read (.cat 0) else .stay (.cat 0)
  | .cat d, t | .more d, t =>
    match firstInCat t with
    | .ok true => .stay (.term d)
    | .ok false => .stay (.expr d)
    | .error _ => .halt
  | .term d, t =>
    if t = .openParen then .read (.cat (d + 1)) else if t = .cclStart then .read (.ccl d) else
      .read (.factor d)
  | .ccl d, t =>
    if t = .atBol then .read (.cclNeg d) else if t = .cclEnd then .read (.factor d) else
      .stay (.dodash d)
  | .cclNeg d, t => if t = .cclEnd then .read (.factor d) else .stay (.dodash d)
  | .dodash d, t => if t = .dash then .halt else .stay (.cls d)
  | .cls d, t =>
    if t = .eos ∨ t = .cclEnd then .read (.factor d) else if t = .dash then .read (.dash d) else
      .read (.cls d)
  | .dash d, t => if t = .cclEnd then .halt else .read (.cls d)
  | .factor d, t =>
    if t = .closrue ∨ t = .plusClose ∨ t = .optional then .read (.more d) else .stay (.more d)
  | .expr 0, t => if t = .or then .read (.cat 0) else .stay .eol
  | .expr (d + 1), t =>
    if t = .or then .read (.cat (d + 1)) else if t = .closeParen then .read (.factor d) else .halt
  | .eol, t => if t = .atEol then .read .ruleEnd else .stay .ruleEnd
  | .ruleEnd, _ => .line .machine
  | .machine, t => if t = .endOfInput then .halt else .stay .rule

section ComesTo

variable (L : Lexer ι) (s₀ : ι)

/-- The points that the parser comes to, with the state of the analyzer, when the text starts in the
state `s₀`. -/
inductive ComesTo : Point → ι → Prop
  /-- The first rule, behind the call of `advance` in `thompson`. -/
  | first {s : ι} : L.advance s₀ = .ok s → ComesTo .rule s
  /-- The same token at another point. -/
  | stay {p p' : Point} {s : ι} : ComesTo p s → p.step (L.tok s) = .stay p' → ComesTo p' s
  /-- The next token is read and the parser goes on. -/
  | read {p p' : Point} {s s' : ι} : ComesTo p s → p.step (L.tok s) = .read p' →
    L.advance s = .ok s' → ComesTo p' s'
  /-- The next token behind white space. -/
  | line {p p' : Point} {s s' : ι} : ComesTo p s → p.step (L.tok s) = .line p' →
      L.advance (L.skipSpace s) = .ok s' → ComesTo p' s'

/-- The states in which the parser calls `advance`. -/
inductive Calls : ι → Prop
  /-- The first call of `advance` is made in `thompson`. -/
  | first : Calls s₀
  /-- The call is made where the parser reads a token. -/
  | read {p p' : Point} {s : ι} : ComesTo L s₀ p s → p.step (L.tok s) = .read p' → Calls s
  /-- The token is read behind white space. -/
  | line {p p' : Point} {s : ι} : ComesTo L s₀ p s → p.step (L.tok s) = .line p' →
    Calls (L.skipSpace s)

end ComesTo

/-! ## The parser follows the points -/

/-- Two computations are the same, and their result has the property `Q`. -/
def Same {α : Type} (r r' : Except Fault α) (Q : α → Prop) : Prop := r = r' ∧ ∀ a, r = .ok a → Q a

section Same

variable {α β : Type} {r r' : Except Fault α} {Q Q' : α → Prop} {R : β → Prop}

/-- Computations that are the same, and what is done with their results. -/
lemma Same.bind {f f' : α → Except Fault β} (h : Same r r' Q)
    (hf : ∀ a, Q a → Same (f a) (f' a) R) : Same (r >>= f) (r' >>= f') R := by
  obtain ⟨rfl, hQ⟩ := h
  cases r with
  | error e => exact ⟨rfl, fun _ h => by cases h⟩
  | ok a => exact hf a (hQ a rfl)

/-- A computation that does not read is the same with both analyzers. -/
lemma Same.rfl_true : Same r r fun _ => True := ⟨rfl, fun _ _ => trivial⟩

/-- Two equal results with the property are the same. -/
lemma Same.ok {a : α} (h : Q a) : Same (.ok a) (.ok a) Q :=
  ⟨rfl, fun _ heq => Except.ok.inj heq ▸ h⟩

/-- Two computations that end with the same error are the same. -/
lemma Same.error {e : Fault} : Same (.error e) (.error e) Q := ⟨rfl, fun _ h => by cases h⟩

/-- The property of the common result may be weakened. -/
lemma Same.mono (h : Same r r' Q) (hQ : ∀ a, Q a → Q' a) : Same r r' Q' :=
  ⟨h.1, fun a ha => hQ a (h.2 a ha)⟩

end Same

section Congr

variable {L : Lexer ι} {s₀ : ι} {adv : ι → Except Fault ι} {unix : Bool}

variable (L s₀ adv) in
/-- The other analyzer agrees with the given one where the parser calls `advance`. -/
def Agrees : Prop := ∀ s, Calls L s₀ s → L.advance s = adv s

/-- The analyzer with another `advance`, but the same tokens. -/
def Lexer.withAdvance (L : Lexer ι) (adv : ι → Except Fault ι) : Lexer ι :=
  { L with advance := adv }

/-- A token is read by both analyzers, and the parser comes to the next point. -/
lemma Agrees.read (h : Agrees L s₀ adv) {p q : Point} {s : ι} (hs : ComesTo L s₀ p s)
    (hp : p.step (L.tok s) = .read q) : Same (L.advance s) (adv s) (ComesTo L s₀ q) :=
  ⟨h s (.read hs hp), fun _ hadv => .read hs hp hadv⟩

/-- In the middle of the construction the two analyzers read the same. -/
lemma Agrees.parseRead (h : Agrees L s₀ adv) {p q : Point} {s : ι} {m : States}
    (hs : ComesTo L s₀ p s) (hp : p.step (L.tok s) = .read q) :
    Same (Parse.advance L ⟨s, m⟩) (Parse.advance (L.withAdvance adv) ⟨s, m⟩) fun P =>
      ComesTo L s₀ q P.lex :=
  (h.read hs hp).bind fun _ hs' => .ok hs'

/-- The loop of `dodash` does the same with both analyzers, and ends where a class ends. -/
lemma Agrees.dodashLoop (h : Agrees L s₀ adv) (n d : ℕ) (first : ℤ) (set : CharClass) {s : ι}
    (hs : ComesTo L s₀ (.cls d) s) :
    Same (dodashLoop L n first set s) (dodashLoop (L.withAdvance adv) n first set s) fun x =>
      ComesTo L s₀ (.cls d) x.2 ∧ (L.tok x.2 = .eos ∨ L.tok x.2 = .cclEnd) := by
  induction n generalizing first set s with
  | zero => exact .error
  | succ n ih =>
    unfold Lex.dodashLoop
    change Same (if L.tok s = .eos ∨ L.tok s = .cclEnd then _ else if L.tok s ≠ .dash then _ else _)
      (if L.tok s = .eos ∨ L.tok s = .cclEnd then _ else if L.tok s ≠ .dash then _ else _) _
    by_cases hend : L.tok s = .eos ∨ L.tok s = .cclEnd
    · rw [if_pos hend, if_pos hend]
      exact .ok ⟨hs, hend⟩
    rw [if_neg hend, if_neg hend]
    by_cases hdash : L.tok s = .dash
    · rw [if_neg (not_not.mpr hdash), if_neg (not_not.mpr hdash)]
      refine (h.read (q := .dash d) hs ?_).bind fun s₁ hs₁ => ?_
      · simp [Point.step, hdash]
      change Same (if L.tok s₁ = .cclEnd then _ else _) (if L.tok s₁ = .cclEnd then _ else _) _
      by_cases hend₁ : L.tok s₁ = .cclEnd
      · rw [if_pos hend₁, if_pos hend₁]
        exact .error
      · rw [if_neg hend₁, if_neg hend₁]
        exact (h.read (q := .cls d) hs₁ (if_neg hend₁)).bind fun s₂ hs₂ => ih _ _ hs₂
    · rw [if_pos hdash, if_pos hdash]
      refine (h.read (q := .cls d) hs ?_).bind fun s₁ hs₁ => ih _ _ hs₁
      simp [Point.step, hend, hdash]

/-- `dodash` does the same with both analyzers, and ends where a class ends. -/
lemma Agrees.dodash (h : Agrees L s₀ adv) (n d : ℕ) (set : CharClass) {s : ι}
    (hs : ComesTo L s₀ (.dodash d) s) :
    Same (dodash L n set s) (dodash (L.withAdvance adv) n set s) fun x =>
      ComesTo L s₀ (.cls d) x.2 ∧ (L.tok x.2 = .eos ∨ L.tok x.2 = .cclEnd) := by
  unfold Lex.dodash
  change Same (if L.tok s = .dash then _ else _) (if L.tok s = .dash then _ else _) _
  by_cases hdash : L.tok s = .dash
  · rw [if_pos hdash, if_pos hdash]
    exact .error
  · rw [if_neg hdash, if_neg hdash]
    exact h.dodashLoop n d 0 set (.stay hs (if_neg hdash))

/-- The class of a term is the same with both analyzers, and ends where it ends. -/
lemma Agrees.charClass (h : Agrees L s₀ adv) (n d : ℕ) {s : ι} (hs : ComesTo L s₀ (.term d) s)
    (htok : ¬ (L.tok s ≠ .any ∧ L.tok s ≠ .cclStart)) :
    Same (charClass L unix n s) (charClass (L.withAdvance adv) unix n s) fun x =>
      ∃ p, ComesTo L s₀ p x.2 ∧ p.step (L.tok x.2) = .read (.factor d) := by
  have hdodash : ∀ (set : CharClass) {s : ι}, ComesTo L s₀ (.dodash d) s →
      Same (Lex.dodash L n set s) (Lex.dodash (L.withAdvance adv) n set s) fun x =>
        ∃ p, ComesTo L s₀ p x.2 ∧ p.step (L.tok x.2) = .read (.factor d) := fun set s hs =>
    (h.dodash n d set hs).mono fun x hx => ⟨.cls d, hx.1, if_pos hx.2⟩
  unfold Lex.charClass
  change Same (if L.tok s = .any then _ else _) (if L.tok s = .any then _ else _) _
  by_cases hany : L.tok s = .any
  · rw [if_pos hany, if_pos hany]
    exact .ok ⟨.term d, hs, by simp [Point.step, hany]⟩
  have hccl : L.tok s = .cclStart := by
    by_contra hccl
    exact htok ⟨hany, hccl⟩
  rw [if_neg hany, if_neg hany]
  refine (h.read (q := .ccl d) hs (by simp [Point.step, hccl])).bind fun s₁ hs₁ => ?_
  change Same (if L.tok s₁ = .atBol then _ else if L.tok s₁ ≠ .cclEnd then _ else _)
    (if L.tok s₁ = .atBol then _ else if L.tok s₁ ≠ .cclEnd then _ else _) _
  by_cases hbol : L.tok s₁ = .atBol
  · rw [if_pos hbol, if_pos hbol]
    refine (h.read (q := .cclNeg d) hs₁ (if_pos hbol)).bind fun s₂ hs₂ => ?_
    change Same (if L.tok s₂ ≠ .cclEnd then _ else _) (if L.tok s₂ ≠ .cclEnd then _ else _) _
    by_cases hend : L.tok s₂ = .cclEnd
    · rw [if_neg (not_not.mpr hend), if_neg (not_not.mpr hend)]
      exact .ok ⟨.cclNeg d, hs₂, if_pos hend⟩
    · rw [if_pos hend, if_pos hend]
      exact hdodash _ (.stay hs₂ (if_neg hend))
  · rw [if_neg hbol, if_neg hbol]
    by_cases hend : L.tok s₁ = .cclEnd
    · rw [if_neg (not_not.mpr hend), if_neg (not_not.mpr hend)]
      exact .ok ⟨.ccl d, hs₁, (if_neg hbol).trans (if_pos hend)⟩
    · rw [if_pos hend, if_pos hend]
      exact hdodash _ (.stay hs₁ ((if_neg hbol).trans (if_neg hend)))

/-- A term that is no group is parsed in the same way with both analyzers. -/
lemma Agrees.termChar (h : Agrees L s₀ adv) (n d : ℕ) {P : Parse ι}
    (hs : ComesTo L s₀ (.term d) P.lex) (hparen : L.tok P.lex ≠ .openParen) :
    Same (termChar L unix n P) (termChar (L.withAdvance adv) unix n P) fun x =>
      ComesTo L s₀ (.factor d) x.2.lex := by
  unfold Lex.termChar
  refine Same.rfl_true.bind fun x _ => Same.rfl_true.bind fun y _ => ?_
  dsimp only
  change Same (if L.tok P.lex ≠ .any ∧ L.tok P.lex ≠ .cclStart then _ else _)
    (if L.tok P.lex ≠ .any ∧ L.tok P.lex ≠ .cclStart then _ else _) _
  by_cases htok : L.tok P.lex ≠ .any ∧ L.tok P.lex ≠ .cclStart
  · rw [if_pos htok, if_pos htok]
    exact (h.read hs ((if_neg hparen).trans (if_neg htok.2))).bind fun s' hs' => .ok hs'
  · rw [if_neg htok, if_neg htok]
    refine (h.charClass n d hs htok).bind fun z hz => ?_
    obtain ⟨p, hp, hstep⟩ := hz
    exact (h.read hp hstep).bind fun s' hs' => .ok hs'

variable (L s₀ adv) in
/-- Two parsers of an expression inside `d` parentheses are the same, and they come to its end. -/
def SameExpr (d : ℕ) (sub sub' : Parse ι → Except Fault (Frag × Parse ι)) : Prop :=
  ∀ P, ComesTo L s₀ (.cat d) P.lex →
    Same (sub P) (sub' P) fun x => ComesTo L s₀ (.expr d) x.2.lex ∧ L.tok x.2.lex ≠ .or

variable {sub sub' : Parse ι → Except Fault (Frag × Parse ι)}

/-- A term is parsed in the same way with both analyzers, if groups are. -/
lemma Agrees.term (h : Agrees L s₀ adv) {d : ℕ} (hsub : SameExpr L s₀ (d + 1) sub sub') (n : ℕ)
    {P : Parse ι} (hs : ComesTo L s₀ (.term d) P.lex) :
    Same (term L unix sub n P) (term (L.withAdvance adv) unix sub' n P) fun x =>
      ComesTo L s₀ (.factor d) x.2.lex := by
  unfold Lex.term
  change Same (if L.tok P.lex = .openParen then _ else _) (if L.tok P.lex = .openParen then _
    else _) _
  by_cases hparen : L.tok P.lex = .openParen
  · rw [if_pos hparen, if_pos hparen]
    refine (h.parseRead (q := .cat (d + 1)) hs (if_pos hparen)).bind fun P₁ hs₁ =>
      (hsub P₁ hs₁).bind fun x hx => ?_
    change Same (if L.tok x.2.lex = .closeParen then _ else _) (if L.tok x.2.lex = .closeParen
      then _ else _) _
    by_cases hclose : L.tok x.2.lex = .closeParen
    · rw [if_pos hclose, if_pos hclose]
      exact (h.parseRead hx.1 ((if_neg hx.2).trans (if_pos hclose))).bind fun P₃ hs₃ => .ok hs₃
    · rw [if_neg hclose, if_neg hclose]
      exact .error
  · rw [if_neg hparen, if_neg hparen]
    exact h.termChar n d hs hparen

/-- A factor is parsed in the same way with both analyzers, if groups are. -/
lemma Agrees.factor (h : Agrees L s₀ adv) {d : ℕ} (hsub : SameExpr L s₀ (d + 1) sub sub') (n : ℕ)
    {P : Parse ι} (hs : ComesTo L s₀ (.term d) P.lex) :
    Same (factor L unix sub n P) (factor (L.withAdvance adv) unix sub' n P) fun x =>
      ComesTo L s₀ (.more d) x.2.lex := by
  unfold Lex.factor
  refine (h.term hsub n hs).bind fun x hx => ?_
  change Same (if L.tok x.2.lex = .closrue ∨ L.tok x.2.lex = .plusClose ∨
    L.tok x.2.lex = .optional then _ else
      _) (if L.tok x.2.lex = .closrue ∨ L.tok x.2.lex = .plusClose ∨
        L.tok x.2.lex = .optional then _ else _) _
  by_cases htok : L.tok x.2.lex = .closrue ∨ L.tok x.2.lex = .plusClose ∨ L.tok x.2.lex = .optional
  · rw [if_pos htok, if_pos htok]
    exact Same.rfl_true.bind fun y _ => (h.parseRead hx (if_pos htok)).bind fun P₂ hs₂ => .ok hs₂
  · rw [if_neg htok, if_neg htok]
    exact .ok (.stay hx (if_neg htok))

/-- What the parser does with the answer of `first_in_cat`. -/
lemma Point.step_more {p : Point} {d : ℕ} (hp : p = .cat d ∨ p = .more d) {t : Token} {b : Bool}
    (ht : firstInCat t = .ok b) : p.step t = .stay (if b then .term d else .expr d) := by
  rcases hp with rfl | rfl <;> cases b <;> simp [Point.step, ht]

/-- The loop of `cat_expr` does the same with both analyzers, if groups are parsed in the same
way. -/
lemma Agrees.catLoop (h : Agrees L s₀ adv) {d : ℕ} (hsub : SameExpr L s₀ (d + 1) sub sub') (n : ℕ)
    {f : Frag} {P : Parse ι} (hs : ComesTo L s₀ (.more d) P.lex) :
    Same (catLoop L unix sub n f P) (catLoop (L.withAdvance adv) unix sub' n f P) fun x =>
      ComesTo L s₀ (.expr d) x.2.lex := by
  induction n generalizing f P with
  | zero => exact .error
  | succ n ih =>
    unfold Lex.catLoop
    change Same (firstInCat (L.tok P.lex) >>= _) (firstInCat (L.tok P.lex) >>= _) _
    cases hmore : firstInCat (L.tok P.lex) with
    | error e => exact .error
    | ok more =>
      have hstep := Point.step_more (Or.inr rfl) (d := d) hmore
      cases more with
      | false => exact .ok (.stay hs hstep)
      | true =>
        refine (h.factor hsub n (P := P) (.stay hs hstep)).bind fun x hx => Same.rfl_true.bind
          fun y _ => ?_
        exact ih (P := ⟨x.2.lex, y.2⟩) hx

/-- `cat_expr` does the same with both analyzers, if groups are parsed in the same way. -/
lemma Agrees.catExpr (h : Agrees L s₀ adv) {d : ℕ} (hsub : SameExpr L s₀ (d + 1) sub sub') (n : ℕ)
    {P : Parse ι} (hs : ComesTo L s₀ (.cat d) P.lex) :
    Same (catExpr L unix sub n P) (catExpr (L.withAdvance adv) unix sub' n P) fun x =>
      ComesTo L s₀ (.expr d) x.2.lex := by
  unfold Lex.catExpr
  change Same (firstInCat (L.tok P.lex) >>= _) (firstInCat (L.tok P.lex) >>= _) _
  cases hmore : firstInCat (L.tok P.lex) with
  | error e => exact .error
  | ok more =>
    cases more with
    | false => exact .error
    | true =>
      have hterm : ComesTo L s₀ (.term d) P.lex := .stay hs (Point.step_more (Or.inl rfl) hmore)
      exact (h.factor hsub n hterm).bind fun x hx => h.catLoop hsub n hx

/-- The loop of `expr` does the same with both analyzers, if groups are parsed in the same way. -/
lemma Agrees.exprLoop (h : Agrees L s₀ adv) {d : ℕ} (hsub : SameExpr L s₀ (d + 1) sub sub') (n : ℕ)
    {f : Frag} {P : Parse ι} (hs : ComesTo L s₀ (.expr d) P.lex) :
    Same (exprLoop L unix sub n f P) (exprLoop (L.withAdvance adv) unix sub' n f P) fun x =>
      ComesTo L s₀ (.expr d) x.2.lex ∧ L.tok x.2.lex ≠ .or := by
  induction n generalizing f P with
  | zero => exact .error
  | succ n ih =>
    unfold Lex.exprLoop
    change Same (if L.tok P.lex = .or then _ else _) (if L.tok P.lex = .or then _ else _) _
    by_cases hor : L.tok P.lex = .or
    · rw [if_pos hor, if_pos hor]
      have hstep : (Point.expr d).step (L.tok P.lex) = .read (.cat d) := by
        cases d <;> exact if_pos hor
      refine (h.parseRead hs hstep).bind fun P₁ hs₁ => (h.catExpr hsub n hs₁).bind fun x hx => ?_
      exact Same.rfl_true.bind fun y _ => ih (P := ⟨x.2.lex, y.2⟩) hx
    · rw [if_neg hor, if_neg hor]
      exact .ok ⟨hs, hor⟩

/-- `expr` does the same with both analyzers, inside any number of parentheses. -/
lemma Agrees.expr (h : Agrees L s₀ adv) (n d : ℕ) :
    SameExpr L s₀ d (expr L unix n) (expr (L.withAdvance adv) unix n) := by
  induction n generalizing d with
  | zero => exact fun P _ => .error
  | succ n ih =>
    exact fun P hs => (h.catExpr (ih (d + 1)) n hs).bind fun x hx => h.exprLoop (ih (d + 1)) n hx

/-- The expression of a rule is parsed in the same way with both analyzers. -/
lemma Agrees.ruleExpr (h : Agrees L s₀ adv) (n : ℕ) {P : Parse ι} (hs : ComesTo L s₀ .rule P.lex) :
    Same (ruleExpr L unix n P) (ruleExpr (L.withAdvance adv) unix n P) fun x =>
      ComesTo L s₀ .eol x.2.2.lex := by
  have hexpr : ∀ P, ComesTo L s₀ (.cat 0) P.lex →
      Same (Lex.expr L unix n P) (Lex.expr (L.withAdvance adv) unix n P) fun x =>
        ComesTo L s₀ .eol x.2.lex :=
    fun P hs => (h.expr n 0 P hs).mono fun x hx => .stay hx.1 (if_neg hx.2)
  unfold Lex.ruleExpr
  change Same (if L.tok P.lex = .atBol then _ else _) (if L.tok P.lex = .atBol then _ else _) _
  by_cases hbol : L.tok P.lex = .atBol
  · rw [if_pos hbol, if_pos hbol]
    refine Same.rfl_true.bind fun y _ => (h.parseRead hs (if_pos hbol)).bind fun P₁ hs₁ => ?_
    exact (hexpr P₁ hs₁).bind fun x hx => .ok hx
  · rw [if_neg hbol, if_neg hbol]
    exact (hexpr P (.stay hs (if_neg hbol))).bind fun x hx => .ok hx

/-- The end of the expression of a rule is parsed in the same way with both analyzers. -/
lemma Agrees.ruleEol (h : Agrees L s₀ adv) {f : Frag} {anchor : ℕ} {P : Parse ι}
    (hs : ComesTo L s₀ .eol P.lex) :
    Same (ruleEol L unix f anchor P) (ruleEol (L.withAdvance adv) unix f anchor P) fun x =>
      ComesTo L s₀ .ruleEnd x.2.2.lex := by
  unfold Lex.ruleEol
  change Same (if L.tok P.lex = .atEol then _ else _) (if L.tok P.lex = .atEol then _ else _) _
  by_cases heol : L.tok P.lex = .atEol
  · rw [if_pos heol, if_pos heol]
    exact (h.parseRead hs (if_pos heol)).bind fun P₁ hs₁ => Same.rfl_true.bind fun y _ => .ok hs₁
  · rw [if_neg heol, if_neg heol]
    exact .ok (.stay hs (if_neg heol))

/-- A rule is parsed in the same way with both analyzers. -/
lemma Agrees.rule (h : Agrees L s₀ adv) (n : ℕ) {s : ι} {m : States} (hs : ComesTo L s₀ .rule s) :
    Same (rule L unix n ⟨s, m⟩) (rule (L.withAdvance adv) unix n ⟨s, m⟩) fun x =>
      ComesTo L s₀ .machine x.2.lex := by
  unfold Lex.rule
  refine (h.ruleExpr n (P := ⟨s, m⟩) hs).bind fun x hx => (h.ruleEol hx).bind fun y hy => ?_
  have hline :
      Same (L.advance (L.skipSpace y.2.2.lex)) (adv (L.skipSpace y.2.2.lex))
      (ComesTo L s₀ .machine) :=
    ⟨h _ (.line hy rfl), fun _ hadv => .line hy rfl hadv⟩
  exact Same.rfl_true.bind fun z _ => hline.bind fun s' hs' => .ok hs'

/-- The loop of `machine` does the same with both analyzers. -/
lemma Agrees.machineLoop (h : Agrees L s₀ adv) (n p : ℕ) (rules : List Rule) {s : ι} {m : States}
    (hs : ComesTo L s₀ .machine s) :
    Same (machineLoop L unix n p rules ⟨s, m⟩)
    (machineLoop (L.withAdvance adv) unix n p rules ⟨s, m⟩) fun _ => True := by
  induction n generalizing p rules s m with
  | zero => exact .error
  | succ n ih =>
    unfold Lex.machineLoop
    change Same (if L.tok s = .endOfInput then _ else _) (if L.tok s = .endOfInput then _ else _) _
    by_cases hend : L.tok s = .endOfInput
    · rw [if_pos hend, if_pos hend]
      exact .ok trivial
    · rw [if_neg hend, if_neg hend]
      have hrule : ComesTo L s₀ .rule s := .stay hs (if_neg hend)
      exact Same.rfl_true.bind fun y _ => (h.rule n hrule).bind fun x hx => ih _ _ hx

end Congr

/-- The parser calls `advance` in no other states: an analyzer with the same tokens that agrees in
them with the given one leads to the same result. -/
theorem thompson_congr {L : Lexer ι} {s₀ : ι} {adv : ι → Except Fault ι}
    (h : ∀ s, Calls L s₀ s → L.advance s = adv s) (unix : Bool) (n : ℕ) :
    thompson L unix n s₀ = thompson (L.withAdvance adv) unix n s₀ := by
  have hagrees : Agrees L s₀ adv := h
  have hfirst : Same (L.advance s₀) (adv s₀) (ComesTo L s₀ .rule) :=
    ⟨h s₀ .first, fun _ hadv => .first hadv⟩
  have hmachine : ∀ s, ComesTo L s₀ .rule s →
      Same (machine L unix n ⟨s, .init⟩) (machine (L.withAdvance adv) unix n ⟨s, .init⟩) fun _ =>
        True := by
    intro s hs
    refine Same.rfl_true.bind fun y _ => (hagrees.rule n hs).bind fun x hx => ?_
    exact (hagrees.machineLoop n y.1 _ hx).bind fun z _ => .ok trivial
  exact (hfirst.bind fun s hs => (hmachine s hs).bind fun x _ => Same.rfl_true).1

end Lex
