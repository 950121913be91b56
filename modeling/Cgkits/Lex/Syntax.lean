import Cgkits.Lex.Languages
import Cgkits.Lex.Unambiguous

/-!
# What the parser accepts

`At` are the places of a text at which the parser looks at the current token, described by the
grammar: what stands before the place has been derived.  At some places the parser does not ask for
the token that the grammar wants.  An `expr` ends at any token that cannot continue it, and `rule`
takes it for the end of the line.  `cat_expr` returns without a result when nothing can start it,
`term` takes the end of the input for a character, and a class ends with the line.

When no place has such a token, the parser reports an error, or every rule that it accepts has been
derived (`Checked.thompson`).  Otherwise the text cannot be derived (`DerivesRules.checked`), and
what the parser accepts nevertheless is something else.
-/

namespace Lex

open Relation

variable {ι : Type} {L : Lexer ι} {unix : Bool}

/-! ## The places of a text -/

/-- Every number is a character that may be written. -/
def anyChar (_ : ℤ) : Prop := True

/-- The kinds of places in a text at which the parser looks at a token. -/
inductive Place
  /-- Where a rule starts, at its first token. -/
  | rule
  /-- Where a `cat_expr` starts. -/
  | catExpr
  /-- A `cat_expr` goes on or ends. -/
  | cat
  /-- Where a term starts. -/
  | term
  /-- Where a class goes on or ends. -/
  | cls
  /-- Behind the dash in a class. -/
  | dash
  /-- Where a rule ends, in front of its action. -/
  | ruleEnd
deriving DecidableEq

/-- The places of the text whose first rule starts at `s₀`. -/
inductive At (L : Lexer ι) (s₀ : ι) : Place → ι → Prop
  /-- The first rule starts with the first token. -/
  | first : At L s₀ .rule s₀
  /-- The next rule starts behind a rule. -/
  | next {s s' : ι} {r : RuleText} : At L s₀ .rule s → DerivesRule L anyChar s r s' →
      L.tok s' ≠ .endOfInput → At L s₀ .rule s'
  /-- Behind `^` a `cat_expr` starts. -/
  | bol {s s' : ι} : At L s₀ .rule s → Reads L .atBol s s' → At L s₀ .catExpr s'
  /-- A rule without `^` starts with a `cat_expr`. -/
  | expr {s : ι} : At L s₀ .rule s → L.tok s ≠ .atBol → At L s₀ .catExpr s
  /-- Behind `|` another `cat_expr` starts. -/
  | or {s s₁ s₂ : ι} {e : Regex} : At L s₀ .catExpr s → Derives L anyChar .catExpr s e s₁ →
      Reads L .or s₁ s₂ → At L s₀ .catExpr s₂
  /-- Behind `(` a `cat_expr` starts. -/
  | group {s s' : ι} : At L s₀ .term s → Reads L .openParen s s' → At L s₀ .catExpr s'
  /-- The first term of a `cat_expr`. -/
  | start {s : ι} : At L s₀ .catExpr s → firstInCat (L.tok s) = .ok true → At L s₀ .term s
  /-- Behind a factor another one may start. -/
  | factor {s s' : ι} {e : Regex} : At L s₀ .term s → Derives L anyChar .factor s e s' →
      ¬ (L.tok s').IsClosure → At L s₀ .cat s'
  /-- The next term of a `cat_expr`. -/
  | more {s : ι} : At L s₀ .cat s → firstInCat (L.tok s) = .ok true → At L s₀ .term s
  /-- Behind `[` a class goes on or ends. -/
  | cls {s s' : ι} : At L s₀ .term s → Reads L .cclStart s s' → L.tok s' ≠ .atBol →
      L.tok s' ≠ .cclEnd → At L s₀ .cls s'
  /-- Behind `[^` a class goes on or ends. -/
  | clsNeg {s s₁ s₂ : ι} : At L s₀ .term s → Reads L .cclStart s s₁ → Reads L .atBol s₁ s₂ →
      L.tok s₂ ≠ .cclEnd → At L s₀ .cls s₂
  /-- Behind a character of a class. -/
  | item {s s' : ι} : At L s₀ .cls s → L.tok s ≠ .eos → L.tok s ≠ .cclEnd → L.tok s ≠ .dash →
      L.advance s = .ok s' → At L s₀ .cls s'
  /-- Behind a dash in a class. -/
  | dash {s s' : ι} : At L s₀ .cls s → Reads L .dash s s' → At L s₀ .dash s'
  /-- Behind the end of a range the class goes on or ends. -/
  | range {s s' : ι} : At L s₀ .dash s → L.tok s ≠ .cclEnd → L.tok s ≠ .eos → L.advance s = .ok s' →
    At L s₀ .cls s'
  /-- The end of a rule without `$`. -/
  | stop {s s₁ s₂ : ι} {bol : Bool} {e : Regex} : At L s₀ .rule s → ReadsIf L bol .atBol s s₁ →
      Derives L anyChar .expr s₁ e s₂ → L.tok s₂ = .closeParen ∨ L.tok s₂ = .eos →
      At L s₀ .ruleEnd s₂
  /-- Behind `$` the rule ends. -/
  | eol {s s₁ s₂ s₃ : ι} {bol : Bool} {e : Regex} : At L s₀ .rule s → ReadsIf L bol .atBol s s₁ →
      Derives L anyChar .expr s₁ e s₂ → Reads L .atEol s₂ s₃ → At L s₀ .ruleEnd s₃

/-- The tokens that the parser lets pass at a place, although the grammar wants other ones. -/
def Place.Slips : Place → Token → Prop
  | .rule, _ | .cat, _ => False
  | .catExpr, t => firstInCat t = .ok false
  | .term, t => t = .endOfInput
  | .cls, t | .dash, t => t = .eos
  | .ruleEnd, t => t ≠ .eos

/-- The parser goes on behind the current token.  At the end of a line `rule` skips the white space
in front of the action first. -/
def Lexer.next (L : Lexer ι) (s : ι) : Except Fault ι :=
  L.advance (if L.tok s = .eos then L.skipSpace s else s)

/-- The states in which the parser of a text that starts at `s₀` calls `advance`, one after the
other, up to the line behind which the input ends. -/
inductive Read (L : Lexer ι) (s₀ : ι) : ι → Prop
  /-- The first token has been read at the start. -/
  | first : Read L s₀ s₀
  /-- The token behind another one. -/
  | next {s s' : ι} : Read L s₀ s → L.next s = .ok s' → (L.tok s = .eos → L.tok s' ≠ .endOfInput) →
    Read L s₀ s'

/-- The program reports an error, or it has not finished within the given number of steps. -/
def Reported (e : Fault) : Prop := (∃ t, e = .parseErr t) ∨ (∃ t, e = .warning t) ∨ e = .fuel

/-- No place of the text has a token that slips through, and where `advance` fails on the text it
reports an error. -/
structure Checked (L : Lexer ι) (s₀ : ι) : Prop where
  /-- The tokens at the places. -/
  slips : ∀ p s, At L s₀ p s → ¬ p.Slips (L.tok s)
  /-- The failures of `advance`. -/
  reports : ∀ s, Read L s₀ s → ∀ e, L.next s = .error e → Reported e

/-! ## The tokens that are read -/

/-- The parser reads a token inside a line, not at the end of a rule. -/
def Lexer.Step (L : Lexer ι) (s s' : ι) : Prop := L.tok s ≠ .eos ∧ L.advance s = .ok s'

section Steps

variable {s₀ s s' : ι} {lit : ℤ → Prop}

/-- Inside a line the parser goes on with `advance`. -/
lemma Lexer.next_eq (hne : L.tok s ≠ .eos) : L.next s = L.advance s := by
  unfold Lexer.next
  rw [if_neg hne]

/-- The token behind one that is read inside a line is read too. -/
lemma Read.step (h : Read L s₀ s) (hstep : L.Step s s') : Read L s₀ s' :=
  .next h ((Lexer.next_eq hstep.1).trans hstep.2) fun heos => absurd heos hstep.1

/-- What stands behind a token that the parser reads is read as well, up to the end of the line. -/
lemma Read.steps (h : Read L s₀ s) (hsteps : ReflTransGen L.Step s s') : Read L s₀ s' := by
  induction hsteps with
  | refl => exact h
  | tail _ hstep ih => exact ih.step hstep

/-- A token that is not the end of a line is read with one step. -/
lemma Reads.step {t : Token} (h : Reads L t s s') (ht : t ≠ .eos) : L.Step s s' :=
  ⟨h.1.trans_ne ht, h.2⟩

/-- An anchor is read with a step, or with none when it is not there. -/
lemma ReadsIf.steps {b : Bool} {t : Token} (h : ReadsIf L b t s s') (ht : t ≠ .eos) :
    ReflTransGen L.Step s s' := by
  cases b with
  | false =>
    obtain rfl : s' = s := h
    exact .refl
  | true => exact .single (Reads.step h ht)

/-- The token of a character is not the end of a line. -/
lemma Token.IsChar.ne_eos {t : Token} (h : t.IsChar) : t ≠ .eos := by
  rintro rfl
  rcases h with h | h | h | h <;> cases h

/-- The token behind the items of a class is its closing bracket. -/
lemma DerivesItems.tok_end {items : List ClassItem} (h : DerivesItems L s items s') :
    L.tok s' = .cclEnd := by
  induction h with
  | nil hend => exact hend
  | cons _ _ _ _ _ _ ih => exact ih

/-- The ranges behind a character are read inside a line. -/
lemma DerivesEnds.steps {ends : List ℤ} (h : DerivesEnds L s ends s') :
    ReflTransGen L.Step s s' := by
  induction h with
  | nil => exact .refl
  | cons hdash _ heos hadv _ ih => exact .head (hdash.step (by decide)) (.head ⟨heos, hadv⟩ ih)

/-- The parts of a class are read inside one line. -/
lemma DerivesItems.steps {items : List ClassItem} (h : DerivesItems L s items s') :
    ReflTransGen L.Step s s' := by
  induction h with
  | nil => exact .refl
  | cons heos _ _ hadv hends _ ih => exact .head ⟨heos, hadv⟩ (hends.steps.trans ih)

/-- Everything that the grammar derives is read inside a line. -/
lemma Derives.steps {nt : Nonterminal} {e : Regex} (h : Derives L lit nt s e s') :
    ReflTransGen L.Step s s' := by
  induction h with
  | char hchar _ hadv => exact .single ⟨hchar.ne_eos, hadv⟩
  | any hread => exact .single (hread.step (by decide))
  | cls hstart _ _ hitems hadv =>
    exact .head (hstart.step (by decide))
      (hitems.steps.tail (Reads.step ⟨hitems.tok_end, hadv⟩ (by decide)))
  | clsNeg hstart hbol _ hitems hadv =>
    exact .head (hstart.step (by decide)) (.head (hbol.step (by decide))
      (hitems.steps.tail (Reads.step ⟨hitems.tok_end, hadv⟩ (by decide))))
  | blank hstart hend => exact .head (hstart.step (by decide)) (.single (hend.step (by decide)))
  | blankNeg hstart hbol hend =>
    exact .head (hstart.step (by decide))
      (.head (hbol.step (by decide)) (.single (hend.step (by decide))))
  | group hopen _ hclose ih =>
    exact .head (hopen.step (by decide)) (ih.tail (hclose.step (by decide)))
  | factor _ ih => exact ih
  | star _ hread ih | plus _ hread ih | opt _ hread ih => exact ih.tail (hread.step (by decide))
  | catNil | exprNil => exact .refl
  | catExpr _ _ ih ih' | catCons _ _ ih ih' | expr _ _ ih ih' => exact ih.trans ih'
  | exprCons hor _ _ ih ih' => exact .head (hor.step (by decide)) (ih.trans ih')

/-- A rule is read up to its end, and the last step crosses the action. -/
lemma DerivesRule.steps {r : RuleText} (h : DerivesRule L lit s r s') :
    ∃ t, ReflTransGen L.Step s t ∧ L.tok t = .eos ∧ L.next t = .ok s' := by
  obtain ⟨hbol, hexpr, heol, heos, hadv⟩ := h
  refine ⟨_, (hbol.steps (by decide)).trans (hexpr.steps.trans (heol.steps (by decide))), heos, ?_⟩
  unfold Lexer.next
  rw [if_pos heos]
  exact hadv

/-- The parser reads the token of every place at which it comes to look. -/
lemma At.read {p : Place} (h : At L s₀ p s) : Read L s₀ s := by
  induction h with
  | first => exact .first
  | next _ hrule hne ih =>
    obtain ⟨t, hsteps, -, hnext⟩ := hrule.steps
    exact .next (ih.steps hsteps) hnext fun _ => hne
  | bol _ hread ih => exact ih.step (hread.step (by decide))
  | clsNeg _ hread hbol _ ih =>
    exact (ih.step (hread.step (by decide))).step (hbol.step (by decide))
  | expr _ _ ih | start _ _ ih | more _ _ ih => exact ih
  | or _ hcat hread ih => exact (ih.steps hcat.steps).step (hread.step (by decide))
  | group _ hread ih | cls _ hread _ _ ih | dash _ hread ih =>
    exact ih.step (hread.step (by decide))
  | factor _ hfactor _ ih => exact ih.steps hfactor.steps
  | item _ heos _ _ hadv ih => exact ih.step ⟨heos, hadv⟩
  | range _ _ heos hadv ih => exact ih.step ⟨heos, hadv⟩
  | stop _ hbol hexpr _ ih => exact ih.steps ((hbol.steps (by decide)).trans hexpr.steps)
  | eol _ hbol hexpr hread ih =>
    exact (ih.steps ((hbol.steps (by decide)).trans hexpr.steps)).step (hread.step (by decide))

end Steps

/-! ## The parser on a checked text -/

/-- The computation reports an error, or it has a result with the property `Q`. -/
def Yields {α : Type} (r : Except Fault α) (Q : α → Prop) : Prop :=
  (∃ e, r = .error e ∧ Reported e) ∨ ∃ a, r = .ok a ∧ Q a

section Yields

variable {α β : Type} {r : Except Fault α} {Q Q' : α → Prop} {R : β → Prop}

/-- The rule for a computation and what is done with its result. -/
lemma Yields.bind {fn : α → Except Fault β} (h : Yields r Q) (hfn : ∀ a, Q a → Yields (fn a) R) :
    Yields (r >>= fn) R := by
  rcases h with ⟨e, rfl, he⟩ | ⟨a, rfl, ha⟩
  · exact Or.inl ⟨e, rfl, he⟩
  · exact hfn a ha

/-- A result with the property is what was asked for. -/
lemma Yields.ok {a : α} (h : Q a) : Yields (.ok a) Q := Or.inr ⟨a, rfl, h⟩

/-- An error that the parser reports is no obstacle. -/
lemma Yields.error (t : ErrNum) : Yields (.error (.parseErr t)) Q :=
  Or.inl ⟨_, rfl, Or.inl ⟨t, rfl⟩⟩

/-- The property of the result may be weakened. -/
lemma Yields.mono (h : Yields r Q) (hQ : ∀ a, Q a → Q' a) : Yields r Q' :=
  h.imp_right fun ⟨a, hr, ha⟩ => ⟨a, hr, hQ a ha⟩

/-- `new` returns a state or reports an error. -/
lemma yields_new (m : States) : Yields (new m) fun _ => True := by
  rcases new_cases m with h | ⟨p, m', h⟩ <;> rw [h]
  · exact .error _
  · exact .ok trivial

/-- The states around a term are made, or an error is reported. -/
lemma yields_closeFrag (t : Token) (f : Frag) (m : States) :
    Yields (closeFrag t f m) fun _ => True := by
  rcases closeFrag_cases t f m with h | ⟨g, m', h⟩ <;> rw [h]
  · exact .error _
  · exact .ok trivial

/-- A concatenation is made, or an error is reported. -/
lemma yields_joinFrag (f g : Frag) (m : States) : Yields (joinFrag f g m) fun _ => True := by
  rcases joinFrag_cases f g m with h | ⟨g, m', h⟩ <;> rw [h]
  · exact .error _
  · exact .ok trivial

/-- An alternative is made, or an error is reported. -/
lemma yields_orFrag (f g : Frag) (m : States) : Yields (orFrag f g m) fun _ => True := by
  rcases orFrag_cases f g m with h | ⟨g, m', h⟩ <;> rw [h]
  · exact .error _
  · exact .ok trivial

/-- `save` returns a pointer or reports an error. -/
lemma yields_save (str : List ℕ) (m : States) : Yields (save str m) fun _ => True := by
  rcases save_cases str m with h | ⟨a, v, h⟩ <;> rw [h]
  · exact .error _
  · exact .ok trivial

/-- `first_in_cat` answers for the token or reports an error. -/
lemma yields_firstInCat (t : Token) : Yields (firstInCat t) fun b => firstInCat t = .ok b := by
  cases t <;> first | exact .ok rfl | exact .error _

end Yields

section Checked

variable {s₀ : ι}

/-- Where a checked text is read on, the next state comes, or an error is reported. -/
lemma Checked.next (hc : Checked L s₀) {s : ι} (hs : Read L s₀ s) :
    Yields (L.next s) fun s' => L.next s = .ok s' := by
  cases h : L.next s with
  | error e => exact Or.inl ⟨e, rfl, hc.reports s hs e h⟩
  | ok s' => exact .ok rfl

/-- Where a token of a checked text is read inside a line, the next one comes, or an error is
reported. -/
lemma Checked.advance (hc : Checked L s₀) {s : ι} (hs : Read L s₀ s) (hne : L.tok s ≠ .eos) :
    Yields (L.advance s) fun s' => L.advance s = .ok s' := Lexer.next_eq hne ▸ hc.next hs

/-- Where the end of a line of a checked text is crossed, the next line comes, or an error is
reported. -/
lemma Checked.advanceLine (hc : Checked L s₀) {s : ι} (hs : Read L s₀ s) (heos : L.tok s = .eos) :
    Yields (L.advance (L.skipSpace s)) fun s' => L.advance (L.skipSpace s) = .ok s' := by
  have hnext : L.next s = L.advance (L.skipSpace s) := by
    unfold Lexer.next
    rw [if_pos heos]
  exact hnext ▸ hc.next hs

/-- In the middle of the construction `advance` reads a token of the checked text. -/
lemma Checked.parseAdvance (hc : Checked L s₀) {s : ι} {m : States} (hs : Read L s₀ s)
    (hne : L.tok s ≠ .eos) : Yields (Parse.advance L ⟨s, m⟩) fun P' => L.advance s = .ok P'.lex :=
  (hc.advance hs hne).bind fun _ hadv => .ok hadv

/-- A token with which a factor can start is not the end of a line. -/
lemma ne_eos_of_starts {t : Token} (h : firstInCat t = .ok true) : t ≠ .eos := by
  rintro rfl
  cases h

/-- The loop of `dodash` reads the ranges behind a character, and the parts of a class. -/
lemma Checked.dodashLoop (hc : Checked L s₀) (n : ℕ) (first : ℤ) (set : CharClass) {s : ι}
    (hs : At L s₀ .cls s) : Yields (dodashLoop L n first set s) fun x =>
      ∃ ends s₁ items, DerivesEnds L s ends s₁ ∧ DerivesItems L s₁ items x.2 := by
  induction n generalizing first set s with
  | zero => exact Or.inl ⟨_, rfl, Or.inr (Or.inr rfl)⟩
  | succ n ih =>
    have heos : L.tok s ≠ .eos := hc.slips .cls s hs
    unfold Lex.dodashLoop
    by_cases hend : L.tok s = .cclEnd
    · rw [if_pos (Or.inr hend)]
      exact .ok ⟨[], s, [], .nil, .nil hend⟩
    rw [if_neg (not_or.mpr ⟨heos, hend⟩)]
    by_cases hdash : L.tok s = .dash
    · rw [if_neg (not_not.mpr hdash)]
      refine (hc.advance hs.read heos).bind fun s₁ hadv => ?_
      have hs₁ : At L s₀ .dash s₁ := .dash hs ⟨hdash, hadv⟩
      have heos₁ : L.tok s₁ ≠ .eos := hc.slips .dash s₁ hs₁
      by_cases hend₁ : L.tok s₁ = .cclEnd
      · rw [if_pos hend₁]
        exact Or.inl ⟨_, rfl, Or.inr (Or.inl ⟨_, rfl⟩)⟩
      · rw [if_neg hend₁]
        refine (hc.advance hs₁.read heos₁).bind fun s₂ hadv₁ => ?_
        refine (ih _ _ (.range hs₁ hend₁ heos₁ hadv₁)).mono ?_
        rintro x ⟨ends, s₃, items, hends, hitems⟩
        exact ⟨_, s₃, items, .cons ⟨hdash, hadv⟩ hend₁ heos₁ hadv₁ hends, hitems⟩
    · rw [if_pos hdash]
      refine (hc.advance hs.read heos).bind fun s₁ hadv => ?_
      refine (ih _ _ (.item hs heos hend hdash hadv)).mono ?_
      rintro x ⟨ends, s₃, items, hends, hitems⟩
      exact ⟨[], s, _, .nil, .cons heos hend hdash hadv hends hitems⟩

/-- `dodash` reads the parts of a class up to its bracket. -/
lemma Checked.dodash (hc : Checked L s₀) (n : ℕ) (set : CharClass) {s : ι} (hs : At L s₀ .cls s) :
    Yields (dodash L n set s) fun x => ∃ items, DerivesItems L s items x.2 := by
  unfold Lex.dodash
  by_cases hdash : L.tok s = .dash
  · rw [if_pos hdash]
    exact Or.inl ⟨_, rfl, Or.inr (Or.inl ⟨_, rfl⟩)⟩
  · rw [if_neg hdash]
    refine (hc.dodashLoop n 0 set hs).mono ?_
    rintro x ⟨ends, s₁, items, hends, hitems⟩
    cases hends with
    | nil => exact ⟨items, hitems⟩
    | cons h => exact absurd h.1 hdash

/-- `term` for a character or a class derives it from a checked text. -/
lemma Checked.termChar (hc : Checked L s₀) (n : ℕ) {P : Parse ι} (hs : At L s₀ .term P.lex)
    (hstart : firstInCat (L.tok P.lex) = .ok true) (hparen : L.tok P.lex ≠ .openParen) :
    Yields (termChar L unix n P) fun x => ∃ e, Derives L anyChar .term P.lex e x.2.lex := by
  have hne : L.tok P.lex ≠ .eos := ne_eos_of_starts hstart
  unfold Lex.termChar
  refine (yields_new _).bind fun _ _ => ?_
  refine (yields_new _).bind fun _ _ => ?_
  dsimp only
  by_cases htok : L.tok P.lex ≠ .any ∧ L.tok P.lex ≠ .cclStart
  · rw [if_pos htok]
    refine (hc.advance hs.read hne).bind fun s' hadv => .ok ?_
    have hchar : (L.tok P.lex).IsChar := by
      have hend : L.tok P.lex ≠ .endOfInput := hc.slips .term _ hs
      unfold Token.IsChar
      cases h : L.tok P.lex <;> simp_all [firstInCat]
    exact ⟨_, .char hchar trivial hadv⟩
  · rw [if_neg htok]
    unfold charClass
    by_cases hany : L.tok P.lex = .any
    · rw [if_pos hany, ok_bind]
      exact (hc.advance hs.read hne).bind fun s' hadv => .ok ⟨_, .any ⟨hany, hadv⟩⟩
    have hccl : L.tok P.lex = .cclStart := by
      by_contra hccl
      exact htok ⟨hany, hccl⟩
    rw [if_neg hany, bind_assoc]
    refine (hc.advance hs.read hne).bind fun s₁ hadv => ?_
    have hs₁ : Read L s₀ s₁ := hs.read.step ⟨hne, hadv⟩
    by_cases hbol : L.tok s₁ = .atBol
    · rw [if_pos hbol, bind_assoc]
      refine (hc.advance hs₁ (hbol.trans_ne (by decide))).bind fun s₂ hadv₁ => ?_
      have hs₂ : Read L s₀ s₂ := hs₁.step (Reads.step ⟨hbol, hadv₁⟩ (by decide))
      by_cases hend : L.tok s₂ = .cclEnd
      · rw [if_neg (not_not.mpr hend), ok_bind]
        exact (hc.advance hs₂ (hend.trans_ne (by decide))).bind fun s₃ hadv₂ =>
          .ok ⟨_, .blankNeg ⟨hccl, hadv⟩ ⟨hbol, hadv₁⟩ ⟨hend, hadv₂⟩⟩
      · rw [if_pos hend]
        refine (hc.dodash n _ (.clsNeg hs ⟨hccl, hadv⟩ ⟨hbol, hadv₁⟩ hend)).bind ?_
        rintro ⟨set, s₃⟩ ⟨items, hitems⟩
        exact (hc.advance (hs₂.steps hitems.steps) (hitems.tok_end.trans_ne (by decide))).bind
            fun s₄ hadv₂ =>
          .ok ⟨_, .clsNeg ⟨hccl, hadv⟩ ⟨hbol, hadv₁⟩ hend hitems hadv₂⟩
    · rw [if_neg hbol]
      by_cases hend : L.tok s₁ = .cclEnd
      · rw [if_neg (not_not.mpr hend), ok_bind]
        exact (hc.advance hs₁ (hend.trans_ne (by decide))).bind fun s₃ hadv₂ =>
          .ok ⟨_, .blank ⟨hccl, hadv⟩ ⟨hend, hadv₂⟩⟩
      · rw [if_pos hend]
        refine (hc.dodash n _ (.cls hs ⟨hccl, hadv⟩ hbol hend)).bind ?_
        rintro ⟨set, s₃⟩ ⟨items, hitems⟩
        exact (hc.advance (hs₁.steps hitems.steps) (hitems.tok_end.trans_ne (by decide))).bind
            fun s₄ hadv₂ =>
          .ok ⟨_, .cls ⟨hccl, hadv⟩ hbol hend hitems hadv₂⟩

/-- What the parser of `expr` does on a checked text: it derives an expression or reports an
error. -/
def ParsesExpr (L : Lexer ι) (s₀ : ι) (sub : Parse ι → Except Fault (Frag × Parse ι)) : Prop :=
  ∀ P, At L s₀ .catExpr P.lex →
    Yields (sub P) fun x => ∃ e, Derives L anyChar .expr P.lex e x.2.lex ∧
    firstInCat (L.tok x.2.lex) = .ok false ∧ L.tok x.2.lex ≠ .or

variable {sub : Parse ι → Except Fault (Frag × Parse ι)}

/-- `term` derives a term from a checked text, or reports an error. -/
lemma Checked.term (hc : Checked L s₀) (hsub : ParsesExpr L s₀ sub) (n : ℕ) {P : Parse ι}
    (hs : At L s₀ .term P.lex) (hstart : firstInCat (L.tok P.lex) = .ok true) :
    Yields (term L unix sub n P) fun x => ∃ e, Derives L anyChar .term P.lex e x.2.lex := by
  unfold Lex.term
  by_cases hparen : L.tok P.lex = .openParen
  · rw [if_pos hparen]
    refine (hc.parseAdvance hs.read (ne_eos_of_starts hstart)).bind fun P₁ hadv => ?_
    have hs₁ : At L s₀ .catExpr P₁.lex := .group hs ⟨hparen, hadv⟩
    refine (hsub P₁ hs₁).bind ?_
    rintro ⟨f, P₂⟩ ⟨e, hexpr, -⟩
    dsimp only
    by_cases hclose : L.tok P₂.lex = .closeParen
    · rw [if_pos hclose]
      exact (hc.parseAdvance (hs₁.read.steps hexpr.steps) (hclose.trans_ne (by decide))).bind
          fun P₃ hadv₂ =>
        .ok ⟨e, .group ⟨hparen, hadv⟩ hexpr ⟨hclose, hadv₂⟩⟩
    · rw [if_neg hclose]
      exact .error _
  · rw [if_neg hparen]
    exact hc.termChar n hs hstart hparen

/-- `factor`; a second closure is reported by the next call of `first_in_cat`. -/
lemma Checked.factor (hc : Checked L s₀) (hsub : ParsesExpr L s₀ sub) (n : ℕ) {P : Parse ι}
    (hs : At L s₀ .term P.lex) (hstart : firstInCat (L.tok P.lex) = .ok true) :
    Yields (factor L unix sub n P) fun x => ∃ e, Derives L anyChar .factor P.lex e x.2.lex := by
  unfold Lex.factor
  refine (hc.term hsub n hs hstart).bind ?_
  rintro ⟨f, P₁⟩ ⟨e, hterm⟩
  dsimp only at hterm ⊢
  by_cases htok : L.tok P₁.lex = .closrue ∨ L.tok P₁.lex = .plusClose ∨ L.tok P₁.lex = .optional
  · rw [if_pos htok]
    refine (yields_closeFrag _ _ _).bind fun y _ => ?_
    have hne : L.tok P₁.lex ≠ .eos := by
      rcases htok with htok | htok | htok <;> rw [htok] <;> decide
    refine (hc.parseAdvance (hs.read.steps hterm.steps) hne).bind fun P₂ hadv => .ok ?_
    rcases htok with htok | htok | htok
    · exact ⟨_, .star hterm ⟨htok, hadv⟩⟩
    · exact ⟨_, .plus hterm ⟨htok, hadv⟩⟩
    · exact ⟨_, .opt hterm ⟨htok, hadv⟩⟩
  · rw [if_neg htok]
    exact .ok ⟨e, .factor hterm⟩

/-- Behind a factor the token that `first_in_cat` accepts is no closure. -/
lemma not_isClosure_of_ok {t : Token} {b : Bool} (h : firstInCat t = .ok b) : ¬ t.IsClosure := by
  rintro (rfl | rfl | rfl) <;> cases h

/-- The loop of `cat_expr` derives a `cat_expr` from the factor in front and what follows. -/
lemma Checked.catLoop (hc : Checked L s₀) (hsub : ParsesExpr L s₀ sub) (n : ℕ) {f : Frag}
    {P : Parse ι} {s : ι} {e : Regex} (hs : At L s₀ .term s)
    (hfactor : Derives L anyChar .factor s e P.lex) (acc : Regex) :
    Yields (catLoop L unix sub n f P) fun x => ∃ e', Derives L anyChar (.catExpr' acc) P.lex e'
    x.2.lex ∧
      firstInCat (L.tok x.2.lex) = .ok false := by
  induction n generalizing f P s e acc with
  | zero => exact Or.inl ⟨_, rfl, Or.inr (Or.inr rfl)⟩
  | succ n ih =>
    unfold Lex.catLoop
    refine (yields_firstInCat _).bind fun more hmore => ?_
    cases more with
    | false => exact .ok ⟨acc, .catNil, hmore⟩
    | true =>
      rw [if_pos rfl]
      have hterm : At L s₀ .term P.lex :=
        .more (.factor hs hfactor (not_isClosure_of_ok hmore)) hmore
      refine (hc.factor hsub n hterm hmore).bind ?_
      rintro ⟨g, P₁⟩ ⟨e', hfactor'⟩
      refine (yields_joinFrag _ _ _).bind fun y _ => ?_
      refine (ih (P := ⟨P₁.lex, y.2⟩) hterm hfactor' (.cat acc e')).mono ?_
      rintro x ⟨e'', hrest, hend⟩
      exact ⟨e'', .catCons hfactor' hrest, hend⟩

/-- `cat_expr` derives a `cat_expr` from a checked text, or reports an error. -/
lemma Checked.catExpr (hc : Checked L s₀) (hsub : ParsesExpr L s₀ sub) (n : ℕ) {P : Parse ι}
    (hs : At L s₀ .catExpr P.lex) :
    Yields (catExpr L unix sub n P) fun x => ∃ e, Derives L anyChar .catExpr P.lex e x.2.lex ∧
      firstInCat (L.tok x.2.lex) = .ok false := by
  unfold Lex.catExpr
  refine (yields_firstInCat _).bind fun more hmore => ?_
  cases more with
  | false => exact absurd hmore (hc.slips .catExpr _ hs)
  | true =>
    rw [if_pos rfl]
    have hterm : At L s₀ .term P.lex := .start hs hmore
    refine (hc.factor hsub n hterm hmore).bind ?_
    rintro ⟨f, P₁⟩ ⟨e, hfactor⟩
    refine (hc.catLoop hsub n hterm hfactor e).mono ?_
    rintro x ⟨e', hrest, hend⟩
    exact ⟨e', .catExpr hfactor hrest, hend⟩

/-- The loop of `expr` derives an `expr` from the `cat_expr` in front and what follows. -/
lemma Checked.exprLoop (hc : Checked L s₀) (hsub : ParsesExpr L s₀ sub) (n : ℕ) {f : Frag}
    {P : Parse ι} {s : ι} {e : Regex} (hs : At L s₀ .catExpr s)
    (hcat : Derives L anyChar .catExpr s e P.lex) (hend : firstInCat (L.tok P.lex) = .ok false)
    (acc : Regex) :
    Yields (exprLoop L unix sub n f P) fun x => ∃ e', Derives L anyChar (.expr' acc) P.lex e'
    x.2.lex ∧
      firstInCat (L.tok x.2.lex) = .ok false ∧ L.tok x.2.lex ≠ .or := by
  induction n generalizing f P s e acc with
  | zero => exact Or.inl ⟨_, rfl, Or.inr (Or.inr rfl)⟩
  | succ n ih =>
    unfold Lex.exprLoop
    by_cases hor : L.tok P.lex = .or
    · rw [if_pos hor]
      refine (hc.parseAdvance (hs.read.steps hcat.steps) (hor.trans_ne (by decide))).bind
        fun P₁ hadv => ?_
      have hs₁ : At L s₀ .catExpr P₁.lex := .or hs hcat ⟨hor, hadv⟩
      refine (hc.catExpr hsub n hs₁).bind ?_
      rintro ⟨g, P₂⟩ ⟨e', hcat', hend'⟩
      refine (yields_orFrag _ _ _).bind fun y _ => ?_
      refine (ih (P := ⟨P₂.lex, y.2⟩) hs₁ hcat' hend' (.alt acc e')).mono ?_
      rintro x ⟨e'', hrest, hstop⟩
      exact ⟨e'', .exprCons ⟨hor, hadv⟩ hcat' hrest, hstop⟩
    · rw [if_neg hor]
      exact .ok ⟨acc, .exprNil, hend, hor⟩

/-- `expr` derives an expression from a checked text, or reports an error. -/
lemma Checked.expr (hc : Checked L s₀) (n : ℕ) : ParsesExpr L s₀ (expr L unix n) := by
  induction n with
  | zero => exact fun P _ => Or.inl ⟨_, rfl, Or.inr (Or.inr rfl)⟩
  | succ n ih =>
    intro P hs
    unfold Lex.expr
    refine (hc.catExpr ih n hs).bind ?_
    rintro ⟨f, P₁⟩ ⟨e, hcat, hend⟩
    refine (hc.exprLoop ih n hs hcat hend e).mono ?_
    rintro x ⟨e', hrest, hstop⟩
    exact ⟨e', .expr hcat hrest, hstop⟩

/-- The number that stands for the anchors of a rule. -/
def RuleText.anchor (r : RuleText) : ℕ := (if r.bol then anchorStart else 0) ||| if r.eol then
    anchorEnd else 0

/-- The expression of a rule is derived, with the anchor at its start and the number for it. -/
lemma Checked.ruleExpr (hc : Checked L s₀) (n : ℕ) {P : Parse ι} (hs : At L s₀ .rule P.lex) :
    Yields (ruleExpr L unix n P) fun x => ∃ bol s₁ e, ReadsIf L bol .atBol P.lex s₁ ∧
      Derives L anyChar .expr s₁ e x.2.2.lex ∧ firstInCat (L.tok x.2.2.lex) = .ok false ∧
      L.tok x.2.2.lex ≠ .or ∧ x.2.1 = if bol then anchorStart else 0 := by
  unfold Lex.ruleExpr
  by_cases hbol : L.tok P.lex = .atBol
  · rw [if_pos hbol]
    refine (yields_new _).bind fun y _ => ?_
    refine (hc.parseAdvance hs.read (hbol.trans_ne (by decide))).bind fun P₁ hadv => ?_
    refine (hc.expr n P₁ (.bol hs ⟨hbol, hadv⟩)).bind ?_
    rintro ⟨f, P₂⟩ ⟨e, hexpr, hstop⟩
    exact .ok ⟨true, P₁.lex, e, ⟨hbol, hadv⟩, hexpr, hstop.1, hstop.2, rfl⟩
  · rw [if_neg hbol]
    refine (hc.expr n P (.expr hs hbol)).bind ?_
    rintro ⟨f, P₂⟩ ⟨e, hexpr, hstop⟩
    exact .ok ⟨false, P.lex, e, rfl, hexpr, hstop.1, hstop.2, rfl⟩

/-- The tokens that end an expression: a `$`, a closing parenthesis, or the end of the line. -/
lemma stop_cases {t : Token} (h : firstInCat t = .ok false) (hor : t ≠ .or) :
    t = .atEol ∨ t = .closeParen ∨ t = .eos := by
  cases t <;> simp_all [firstInCat]

/-- The end of a rule is derived, with the anchor there and the number for both. -/
lemma Checked.ruleEol (hc : Checked L s₀) {f : Frag} {anchor : ℕ} {P : Parse ι} {s s₁ : ι}
    {bol : Bool} {e : Regex} (hs : At L s₀ .rule s) (hbol : ReadsIf L bol .atBol s s₁)
    (hexpr : Derives L anyChar .expr s₁ e P.lex) (hend : firstInCat (L.tok P.lex) = .ok false)
    (hor : L.tok P.lex ≠ .or) :
    Yields (ruleEol L unix f anchor P) fun x => ∃ eol, ReadsIf L eol .atEol P.lex x.2.2.lex ∧
      L.tok x.2.2.lex = .eos ∧ x.2.1 = anchor ||| if eol then anchorEnd else 0 := by
  unfold Lex.ruleEol
  rcases stop_cases hend hor with heol | hstop
  · rw [if_pos heol]
    have hread : Read L s₀ P.lex := hs.read.steps ((hbol.steps (by decide)).trans hexpr.steps)
    refine (hc.parseAdvance hread (heol.trans_ne (by decide))).bind fun P₁ hadv => ?_
    refine (yields_new _).bind fun y _ => .ok ⟨true, ⟨heol, hadv⟩, ?_, rfl⟩
    exact not_not.mp (hc.slips .ruleEnd _ (.eol hs hbol hexpr ⟨heol, hadv⟩))
  · have heol : L.tok P.lex ≠ .atEol := by
      rcases hstop with h | h <;> rw [h] <;> decide
    rw [if_neg heol]
    refine .ok ⟨false, rfl, not_not.mp (hc.slips .ruleEnd _ (.stop hs hbol hexpr hstop)), ?_⟩
    exact (Nat.or_zero anchor).symm

/-- `rule` derives the rule from the text and stores the number of its anchors. -/
lemma Checked.rule (hc : Checked L s₀) (n : ℕ) {P : Parse ι} (hs : At L s₀ .rule P.lex) :
    Yields (rule L unix n P) fun x => ∃ r, DerivesRule L anyChar P.lex r x.2.lex ∧
    x.1.anchor = r.anchor := by
  unfold Lex.rule
  refine (hc.ruleExpr n hs).bind ?_
  rintro ⟨f, anchor, P₁⟩ ⟨bol, s₁, e, hbol, hexpr, hend, hor, hanchor⟩
  refine (hc.ruleEol hs hbol hexpr hend hor).bind ?_
  rintro ⟨g, anchor', P₂⟩ ⟨eol, heol, heos, hanchor'⟩
  refine (yields_save _ _).bind fun y _ => ?_
  have hread : Read L s₀ P₂.lex :=
    hs.read.steps ((hbol.steps (by decide)).trans (hexpr.steps.trans (heol.steps (by decide))))
  refine (hc.advanceLine hread heos).bind fun s' hadv => .ok ?_
  refine ⟨_, .mk hbol hexpr heol heos hadv, ?_⟩
  dsimp only at hanchor hanchor'
  rw [hanchor', hanchor]
  rfl

/-- The loop of `machine` gives the anchors of the rules. -/
lemma Checked.machineLoop (hc : Checked L s₀) (n p : ℕ) (rules : List Rule) {P : Parse ι}
    (hs : L.tok P.lex ≠ .endOfInput → At L s₀ .rule P.lex) :
    Yields (machineLoop L unix n p rules P) fun x => ∃ qs texts, x.1 = rules ++ qs ∧
      List.Forall₂ (fun q r => q.anchor = r.anchor) qs texts ∧
      (L.tok P.lex = .endOfInput ∧ texts = [] ∨ DerivesRules L anyChar P.lex texts) := by
  induction n generalizing p rules P with
  | zero => exact Or.inl ⟨_, rfl, Or.inr (Or.inr rfl)⟩
  | succ n ih =>
    unfold Lex.machineLoop
    by_cases hend : L.tok P.lex = .endOfInput
    · rw [if_pos hend]
      exact .ok ⟨[], [], (List.append_nil _).symm, .nil, Or.inl ⟨hend, rfl⟩⟩
    · rw [if_neg hend]
      refine (yields_new _).bind fun y _ => ?_
      refine (hc.rule n (P := ⟨P.lex, y.2.modify p fun s => { s with next2 := some y.1 }⟩)
        (hs hend)).bind ?_
      rintro ⟨q, P₁⟩ ⟨r, hrule, hanchor⟩
      refine (ih (P := ⟨P₁.lex, P₁.nfa.modify y.1 fun s => { s with next := some q.start }⟩) y.1
        (rules ++ [q]) fun hne => .next (hs hend) hrule hne).mono ?_
      rintro x ⟨qs, texts, heq, hanchors, hcase⟩
      refine ⟨q :: qs, r :: texts, ?_, .cons hanchor hanchors, Or.inr ?_⟩
      · rw [heq, List.append_assoc]
        rfl
      · rcases hcase with ⟨hend', rfl⟩ | hrest
        · exact .last hrule hend'
        · exact .cons hrule hrest

end Checked

/-- On a checked text the parser reports an error, or its rules have been derived one by one and
have their anchors. -/
theorem Checked.thompson (unix : Bool) {s lex : ι} (hadv : L.advance s = .ok lex)
    (hc : Checked L lex) (n : ℕ) :
    Yields (thompson L unix n s) fun x => ∃ texts, DerivesRules L anyChar lex texts ∧
      List.Forall₂ (fun q r => q.anchor = r.anchor) x.2.1 texts := by
  unfold Lex.thompson machine
  rw [hadv, ok_bind, bind_assoc]
  refine (yields_new _).bind fun y _ => ?_
  dsimp only
  rw [bind_assoc]
  refine (hc.rule n (P := ⟨lex, y.2⟩) .first).bind ?_
  rintro ⟨q, P₁⟩ ⟨r, hrule, hanchor⟩
  dsimp only
  rw [bind_assoc]
  refine (hc.machineLoop (P := ⟨P₁.lex, P₁.nfa.modify y.1 fun s => { s with next := some q.start }⟩)
    n y.1 [q] fun hne => .next .first hrule hne).bind ?_
  rintro x ⟨qs, texts, heq, hanchors, hcase⟩
  refine .ok ⟨r :: texts, ?_, ?_⟩
  · rcases hcase with ⟨hend, rfl⟩ | hrest
    · exact .last hrule hend
    · exact .cons hrule hrest
  · rw [heq]
    exact .cons hanchor hanchors

/-! ## A text that can be derived is checked -/

/-- What stands behind a place in a text that can be derived. -/
def Completes (L : Lexer ι) : Place → ι → Prop
  | .rule, s => ∃ texts, DerivesRules L anyChar s texts
  | .catExpr, s => ∃ acc e e' s₁ s', Derives L anyChar .catExpr s e s₁ ∧
      Derives L anyChar (.expr' acc) s₁ e' s' ∧ Nonterminal.expr.Ends (L.tok s')
  | .cat, s =>
    ∃ acc e s', Derives L anyChar (.catExpr' acc) s e s' ∧ firstInCat (L.tok s') = .ok false
  | .term, s => ∃ acc e e' s₁ s', Derives L anyChar .factor s e s₁ ∧
      Derives L anyChar (.catExpr' acc) s₁ e' s' ∧ firstInCat (L.tok s') = .ok false
  | .cls, s => ∃ ends s₁ items s', DerivesEnds L s ends s₁ ∧ DerivesItems L s₁ items s'
  | .dash, s =>
    L.tok s ≠ .eos ∧ ∃ ends s₁ s₂ items s', L.advance s = .ok s₁ ∧ DerivesEnds L s₁ ends s₂ ∧
      DerivesItems L s₂ items s'
  | .ruleEnd, s => L.tok s = .eos

/-- A list of rules starts with a rule, behind which the text ends or goes on with rules. -/
lemma DerivesRules.head {s : ι} {texts : List RuleText} (h : DerivesRules L anyChar s texts) :
    ∃ r s', DerivesRule L anyChar s r s' ∧
      (L.tok s' = .endOfInput ∨ ∃ rest, DerivesRules L anyChar s' rest) := by
  cases h with
  | last hrule hend => exact ⟨_, _, hrule, Or.inl hend⟩
  | cons hrule hrest => exact ⟨_, _, hrule, Or.inr ⟨_, hrest⟩⟩

/-- A rule in front of which the anchor has been read, or that has none. -/
lemma completes_expr {s s₁ : ι} (bol : Bool) {texts : List RuleText}
    (h : DerivesRules L anyChar s texts) (hbol : bol = false → L.tok s ≠ .atBol)
    (hread : ReadsIf L bol .atBol s s₁) : Completes L .catExpr s₁ := by
  obtain ⟨r, s', ⟨hbol', hexpr, heol, heos, -⟩, -⟩ := h.head
  rename_i t₁ t₂ t₃ bol' eol e
  have hsame : t₁ = s₁ := by
    cases bol with
    | false =>
      have hs : s₁ = s := hread
      subst hs
      cases bol' with
      | false => exact hbol'
      | true => exact absurd (show Reads L .atBol s₁ t₁ from hbol').1 (hbol rfl)
    | true =>
      have hread' : Reads L .atBol s s₁ := hread
      cases bol' with
      | false =>
        have hs : t₁ = s := hbol'
        subst hs
        exact absurd hread'.1 (Token.StartsTerm.spec hexpr.starts).2.2.1
      | true => exact advance_unique hread'.2 (show Reads L .atBol s t₁ from hbol').2
  subst hsame
  cases hexpr with
  | expr hcat hrest =>
    exact ⟨_, _, _, _, _, hcat, hrest, expr_ends ((ends_of_eol heol heos).imp_right Or.inr)⟩

/-- A factor that can be derived starts with a term. -/
lemma Derives.exists_term {lit : ℤ → Prop} {s s' : ι} {e : Regex}
    (h : Derives L lit .factor s e s') : ∃ e t, Derives L lit .term s e t := by
  cases h with
  | factor h | star h | plus h | opt h => exact ⟨_, _, h⟩

/-- What follows the bracket of a class, and the `^` behind it, is the first part of the class. -/
lemma DerivesClass.completes {neg : Bool} {s s₁ s' : ι} {e : Regex} (h : DerivesClass L s e s')
    (hneg : neg = false → L.tok s ≠ .atBol) (hread : ReadsIf L neg .atBol s s₁)
    (hend : L.tok s₁ ≠ .cclEnd) : Completes L .cls s₁ := by
  obtain ⟨neg', t, hread', hneg', hcls⟩ := h
  have hsame : t = s₁ := by
    cases neg with
    | false =>
      have hs : s₁ = s := hread
      subst hs
      cases neg' with
      | false => exact hread'
      | true => exact absurd (show Reads L .atBol s₁ t from hread').1 (hneg rfl)
    | true =>
      have hbol : Reads L .atBol s s₁ := hread
      cases neg' with
      | false => exact absurd hbol.1 (hneg' rfl)
      | true => exact advance_unique hbol.2 (show Reads L .atBol s t from hread').2
  subst hsame
  rcases hcls with ⟨h, -⟩ | ⟨-, items, s₂, hitems, -⟩
  · exact absurd h.1 hend
  · exact ⟨[], t, items, s₂, .nil, hitems⟩

/-- In a text that can be derived every place is completed. -/
lemma At.completes {s₀ s : ι} {p : Place} {texts : List RuleText}
    (h₀ : DerivesRules L anyChar s₀ texts) (h : At L s₀ p s) : Completes L p s := by
  induction h with
  | first => exact ⟨texts, h₀⟩
  | next _ hrule hne ih =>
    obtain ⟨texts', hrules⟩ := ih
    obtain ⟨r, s', hrule', hrest⟩ := hrules.head
    obtain ⟨rfl, rfl⟩ := hrule.unique hrule'
    exact hrest.resolve_left hne
  | bol _ hread ih =>
    obtain ⟨texts', hrules⟩ := ih
    exact completes_expr true hrules (fun h => absurd h (by decide)) hread
  | expr _ hbol ih =>
    obtain ⟨texts', hrules⟩ := ih
    exact completes_expr false hrules (fun _ => hbol) rfl
  | @or s t₁ t₂ _ _ hcat hread ih =>
    obtain ⟨acc, e, e', s₁, s', hcat', hrest, hend⟩ := ih
    have hor : firstInCat (L.tok t₁) = .ok false := by
      rw [hread.1]
      rfl
    obtain ⟨rfl, rfl⟩ := hcat.unique hor hcat' (hrest.firstInCat_eq hend.1)
    cases hrest with
    | exprNil => exact absurd hread.1 hend.2
    | exprCons hread' hcat'' hrest' =>
      obtain rfl := advance_unique hread.2 hread'.2
      exact ⟨_, _, _, _, _, hcat'', hrest', hend⟩
  | group _ hread ih =>
    obtain ⟨acc, e, e', s₁, s', hfactor, -⟩ := ih
    obtain ⟨e, t, hterm⟩ := hfactor.exists_term
    obtain ⟨s₂, hexpr, hclose⟩ := hterm.group_cases hread
    cases hexpr with
    | expr hcat hrest => exact ⟨_, _, _, _, _, hcat, hrest, expr_ends (Or.inr (Or.inl hclose.1))⟩
  | start _ _ ih =>
    obtain ⟨acc, e, e', s₁, s', hcat, hrest, hend⟩ := ih
    cases hcat with
    | catExpr hfactor hcat' => exact ⟨_, _, _, _, _, hfactor, hcat', hrest.firstInCat_eq hend.1⟩
  | factor _ hfactor hclosure ih =>
    obtain ⟨acc, e, e', s₁, s', hfactor', hrest, hend⟩ := ih
    obtain ⟨rfl, rfl⟩ := hfactor.unique hclosure hfactor' (hrest.not_isClosure hend)
    exact ⟨_, _, _, hrest, hend⟩
  | more _ hmore ih =>
    obtain ⟨acc, e, s', hrest, hend⟩ := ih
    cases hrest with
    | catNil => exact absurd (hmore.symm.trans hend) (by decide)
    | catCons hfactor hrest' => exact ⟨_, _, _, _, _, hfactor, hrest', hend⟩
  | @cls s u _ hread hbol hcls ih =>
    obtain ⟨acc, e, e', s₁, s', hfactor, -⟩ := ih
    obtain ⟨e, t, hterm⟩ := hfactor.exists_term
    have hread₁ : ReadsIf L false .atBol u u := rfl
    exact (hterm.class_cases hread).completes (fun _ => hbol) hread₁ hcls
  | clsNeg _ hread hread₁ hcls ih =>
    obtain ⟨acc, e, e', s₁, s', hfactor, -⟩ := ih
    obtain ⟨e, t, hterm⟩ := hfactor.exists_term
    have hread₁' : ReadsIf L true .atBol _ _ := hread₁
    exact (hterm.class_cases hread).completes (fun h => absurd h (by decide)) hread₁' hcls
  | item _ _ hend hdash hadv ih =>
    obtain ⟨ends, s₁, items, s', hends, hitems⟩ := ih
    cases hends with
    | cons h => exact absurd h.1 hdash
    | nil =>
      cases hitems with
      | nil h => exact absurd h hend
      | cons _ _ _ hadv' hends' hitems' =>
        obtain rfl := advance_unique hadv hadv'
        exact ⟨_, _, _, _, hends', hitems'⟩
  | dash _ hread ih =>
    obtain ⟨ends, s₁, items, s', hends, hitems⟩ := ih
    cases hends with
    | nil => exact absurd hread.1 hitems.tok_ne_dash
    | cons h _ heos hadv hends' =>
      obtain rfl := advance_unique hread.2 h.2
      exact ⟨heos, _, _, _, _, _, hadv, hends', hitems⟩
  | range _ _ _ hadv ih =>
    obtain ⟨-, ends, s₁, s₂, items, s', hadv', hends, hitems⟩ := ih
    obtain rfl := advance_unique hadv hadv'
    exact ⟨_, _, _, _, hends, hitems⟩
  | stop _ hbol hexpr hstop ih =>
    obtain ⟨texts', hrules⟩ := ih
    obtain ⟨r, s', ⟨hbol', hexpr', heol, heos, -⟩, -⟩ := hrules.head
    obtain ⟨rfl, rfl⟩ := hbol'.bol_unique hexpr' hbol hexpr
    obtain ⟨rfl, rfl⟩ := hexpr'.unique (expr_ends ((ends_of_eol heol heos).imp_right Or.inr)) hexpr
      (expr_ends (Or.inr hstop))
    rcases hstop with h | h
    · rcases ends_of_eol heol heos with h' | h' <;> exact absurd (h.symm.trans h') (by decide)
    · exact h
  | eol _ hbol hexpr hread ih =>
    obtain ⟨texts', hrules⟩ := ih
    obtain ⟨r, s', ⟨hbol', hexpr', heol, heos, -⟩, -⟩ := hrules.head
    obtain ⟨rfl, rfl⟩ := hbol'.bol_unique hexpr' hbol hexpr
    obtain ⟨rfl, rfl⟩ := hexpr'.unique (expr_ends ((ends_of_eol heol heos).imp_right Or.inr)) hexpr
      (expr_ends (Or.inl hread.1))
    exact heol.tok_of_atEol heos hread

/-- The text is read to its end from here: the last step is at the end of a line behind which the
input ends. -/
inductive ReadsOut (L : Lexer ι) : ι → Prop
  /-- The end of the last line. -/
  | last {s s' : ι} : L.tok s = .eos → L.next s = .ok s' → L.tok s' = .endOfInput → ReadsOut L s
  /-- A token with others behind it. -/
  | next {s s' : ι} : L.next s = .ok s' → ReadsOut L s' → ReadsOut L s

/-- What is read to its end from a token is read to its end from the tokens in front. -/
lemma ReadsOut.steps {s s' : ι} (h : ReadsOut L s') (hsteps : ReflTransGen L.Step s s') :
    ReadsOut L s := by
  induction hsteps using ReflTransGen.head_induction_on with
  | refl => exact h
  | head hstep _ ih => exact .next ((Lexer.next_eq hstep.1).trans hstep.2) ih

/-- A text that can be derived is read to its end. -/
lemma DerivesRules.readsOut {lit : ℤ → Prop} {s : ι} {texts : List RuleText}
    (h : DerivesRules L lit s texts) : ReadsOut L s := by
  induction h with
  | last hrule hend =>
    obtain ⟨t, hsteps, heos, hnext⟩ := hrule.steps
    exact ReadsOut.steps (.last heos hnext hend) hsteps
  | cons hrule _ ih =>
    obtain ⟨t, hsteps, -, hnext⟩ := hrule.steps
    exact ReadsOut.steps (.next hnext ih) hsteps

/-- A text that is read to its end is read to its end from every token, so `advance` fails
nowhere. -/
lemma Read.readsOut {s₀ s : ι} (hs : Read L s₀ s) (h : ReadsOut L s₀) : ReadsOut L s := by
  induction hs with
  | first => exact h
  | next _ hnext hne ih =>
    cases ih with
    | last heos hnext' hend =>
      obtain rfl := Except.ok.inj (hnext.symm.trans hnext')
      exact absurd hend (hne heos)
    | next hnext' hrest =>
      obtain rfl := Except.ok.inj (hnext.symm.trans hnext')
      exact hrest

/-- In a text that can be derived no token slips through. -/
lemma At.not_slips {s₀ s : ι} {p : Place} {texts : List RuleText}
    (h : DerivesRules L anyChar s₀ texts) (hs : At L s₀ p s) : ¬ p.Slips (L.tok s) := by
  have hcomp := hs.completes h
  cases p with
  | rule | cat => exact id
  | catExpr =>
    obtain ⟨acc, e, e', s₁, s', hcat, -⟩ := hcomp
    intro hslip
    exact absurd ((Token.StartsTerm.spec hcat.starts).1.symm.trans hslip) (by decide)
  | term =>
    obtain ⟨acc, e, e', s₁, s', hfactor, -⟩ := hcomp
    exact (Token.StartsTerm.spec hfactor.starts).2.2.2
  | cls =>
    obtain ⟨ends, s₁, items, s', hends, hitems⟩ := hcomp
    intro hslip
    cases hends with
    | nil =>
      cases hitems with
      | nil hend => exact absurd (hslip.symm.trans hend) (by decide)
      | cons heos => exact heos hslip
    | cons hdash => exact absurd (hslip.symm.trans hdash.1) (by decide)
  | dash => exact hcomp.1
  | ruleEnd => exact not_not.mpr hcomp

/-- A text that can be derived has been checked. -/
theorem DerivesRules.checked {s₀ : ι} {texts : List RuleText}
    (h : DerivesRules L anyChar s₀ texts) : Checked L s₀ := by
  refine ⟨fun p s hs => hs.not_slips h, fun s hs e he => ?_⟩
  cases hs.readsOut h.readsOut with
  | last _ hnext _ => exact absurd (he.symm.trans hnext) (by simp)
  | next hnext _ => exact absurd (he.symm.trans hnext) (by simp)

/-- When the parser does not report an error, it comes to an end with rules that have been derived
exactly when the text is checked: on a text that is not checked it accepts something else, or it
follows a pointer that leads nowhere. -/
theorem thompson_derives_iff {s lex : ι} {n : ℕ} (hadv : L.advance s = .ok lex)
    (hreport : ∀ e, thompson L unix n s = .error e → ¬ Reported e) :
    (∃ x texts, thompson L unix n s = .ok x ∧ DerivesRules L anyChar lex texts ∧
    x.2.1.length = texts.length) ↔
      Checked L lex := by
  constructor
  · rintro ⟨x, texts, -, hrules, -⟩
    exact hrules.checked
  · intro hc
    rcases hc.thompson unix hadv n with ⟨e, he, hrep⟩ | ⟨x, hx, texts, hrules, hanchors⟩
    · exact absurd hrep (hreport e he)
    · exact ⟨x, texts, hx, hrules, hanchors.length_eq⟩

/-- The rules `^a+$` and `[]` are parsed with a derivation exactly because their text is checked. -/
theorem thompson_derives_iff_blankRules :
    (∃ x texts, thompson tokens true 20 blankRules = .ok x ∧
    DerivesRules tokens anyChar blankRules.tail texts ∧
      x.2.1.length = texts.length) ↔ Checked tokens blankRules.tail := by
  have hok : (thompson tokens true 20 blankRules).toBool = true := by decide +kernel
  refine thompson_derives_iff rfl ?_
  intro e he
  rw [he] at hok
  cases hok

/-- The tokens of the line `a)b c`: the expression ends at the parenthesis. -/
def strayParen : List (Token × ℤ × List ℕ) :=
  [(.eos, 0, []), (.l, 97, [41, 98, 32, 99]), (.closeParen, 41, [98, 32, 99]), (.l, 98, [32, 99]),
    (.eos, 0, [99])]

/-- The parser takes the line `a)b c` for two rules: `a` with the action `b c` and `b` with the
action `c`. -/
theorem not_derives_strayParen :
    (∃ x, thompson tokens true 20 strayParen = .ok x ∧ x.2.1.length = 2) ∧
      ¬ ∃ texts, DerivesRules tokens anyChar strayParen.tail texts := by
  constructor
  · have h : ((thompson tokens true 20 strayParen).toOption.map fun x => x.2.1.length) =
      some 2 := by decide +kernel
    cases hx : thompson tokens true 20 strayParen with
    | error e =>
      rw [hx] at h
      cases h
    | ok x =>
      rw [hx] at h
      exact ⟨x, rfl, Option.some.inj h⟩
  · rintro ⟨texts, hrules⟩
    have hexpr : Derives tokens anyChar .expr strayParen.tail (.char 97) (strayParen.drop 2) :=
      .expr (.catExpr (.factor (.char (Or.inl rfl) trivial rfl)) .catNil) .exprNil
    have hbol : ReadsIf tokens false .atBol strayParen.tail strayParen.tail := rfl
    have hend := hrules.checked.slips .ruleEnd _ (.stop .first hbol hexpr (Or.inl rfl))
    exact hend (show Token.closeParen ≠ .eos by decide)

end Lex
