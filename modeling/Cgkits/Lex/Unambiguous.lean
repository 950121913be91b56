import Cgkits.Lex.Regular

/-!
# The grammar of the rules is unambiguous

One token decides which production of the grammar goes on, so a text is derived in one way only.  A
nonterminal that may go on ends where the token behind does not continue it; `Nonterminal.Ends` are
those tokens.
-/

namespace Lex

variable {ι : Type} {L : Lexer ι} {lit : ℤ → Prop}

/-! ## Classes -/

/-- A token is read in one way only, since `advance` is a function. -/
lemma advance_unique {s s₁ s₂ : ι} (h₁ : L.advance s = .ok s₁) (h₂ : L.advance s = .ok s₂) :
    s₂ = s₁ :=
  Except.ok.inj (h₂.symm.trans h₁)

/-- The ranges behind a character end where no dash follows. -/
lemma DerivesEnds.unique {s s₁ s₂ : ι} {ends ends₂ : List ℤ} (h : DerivesEnds L s ends s₁)
    (hd : L.tok s₁ ≠ .dash) (h₂ : DerivesEnds L s ends₂ s₂) (hd₂ : L.tok s₂ ≠ .dash) :
    ends₂ = ends ∧ s₂ = s₁ := by
  induction h generalizing ends₂ with
  | nil =>
    cases h₂ with
    | nil => exact ⟨rfl, rfl⟩
    | cons h => exact absurd h.1 hd
  | cons h _ _ hadv _ ih =>
    cases h₂ with
    | nil => exact absurd h.1 hd₂
    | cons h' _ _ hadv' hrest =>
      obtain rfl := advance_unique h.2 h'.2
      obtain rfl := advance_unique hadv hadv'
      obtain ⟨rfl, rfl⟩ := ih hd hrest
      exact ⟨rfl, rfl⟩

/-- The parts of a class are determined by the text. -/
lemma DerivesItems.unique {s s₁ s₂ : ι} {items items₂ : List ClassItem}
    (h : DerivesItems L s items s₁) (h₂ : DerivesItems L s items₂ s₂) :
    items₂ = items ∧ s₂ = s₁ := by
  induction h generalizing items₂ with
  | nil hend =>
    cases h₂ with
    | nil => exact ⟨rfl, rfl⟩
    | cons _ hne => exact absurd hend hne
  | cons _ hne _ hadv hends hrest ih =>
    cases h₂ with
    | nil hend => exact absurd hend hne
    | cons _ _ _ hadv' hends' hrest' =>
      obtain rfl := advance_unique hadv hadv'
      obtain ⟨rfl, rfl⟩ := hends.unique hrest.tok_ne_dash hends' hrest'.tok_ne_dash
      obtain ⟨rfl, rfl⟩ := ih hrest'
      exact ⟨rfl, rfl⟩

/-- A class behind its opening bracket, with or without `^` and with or without parts. -/
def DerivesClass (L : Lexer ι) (s : ι) (e : Regex) (s' : ι) : Prop :=
  ∃ neg s₁, ReadsIf L neg .atBol s s₁ ∧ (neg = false → L.tok s ≠ .atBol) ∧
    (Reads L .cclEnd s₁ s' ∧ e = .blank neg ∨
      L.tok s₁ ≠ .cclEnd ∧ ∃ items s₂, DerivesItems L s₁ items s₂ ∧ L.advance s₂ = .ok s' ∧
      e = .cls neg items)

/-- A class is read in one way only, with one expression and one end. -/
lemma DerivesClass.unique {s s₁ s₂ : ι} {e e₂ : Regex} (h : DerivesClass L s e s₁)
    (h₂ : DerivesClass L s e₂ s₂) : e₂ = e ∧ s₂ = s₁ := by
  obtain ⟨neg, t, hread, hneg, hcls⟩ := h
  obtain ⟨neg₂, t₂, hread₂, hneg₂, hcls₂⟩ := h₂
  have hsame : neg₂ = neg ∧ t₂ = t := by
    cases neg with
    | false =>
      cases neg₂ with
      | false => exact ⟨rfl, hread₂.trans hread.symm⟩
      | true => exact absurd (show Reads L .atBol s t₂ from hread₂).1 (hneg rfl)
    | true =>
      have hbol : Reads L .atBol s t := hread
      cases neg₂ with
      | false => exact absurd hbol.1 (hneg₂ rfl)
      | true => exact ⟨rfl, advance_unique hbol.2 (show Reads L .atBol s t₂ from hread₂).2⟩
  obtain ⟨rfl, rfl⟩ := hsame
  rcases hcls with ⟨hend, rfl⟩ | ⟨hend, items, u, hitems, hadv, rfl⟩
  · rcases hcls₂ with ⟨hend₂, rfl⟩ | ⟨hend₂, -⟩
    · exact ⟨rfl, advance_unique hend.2 hend₂.2⟩
    · exact absurd hend.1 hend₂
  · rcases hcls₂ with ⟨hend₂, -⟩ | ⟨-, items₂, u₂, hitems₂, hadv₂, rfl⟩
    · exact absurd hend₂.1 hend
    · obtain ⟨rfl, rfl⟩ := hitems.unique hitems₂
      exact ⟨rfl, advance_unique hadv hadv₂⟩

/-! ## Expressions -/

/-- What a term is can be told by its first token. -/
lemma Derives.term_cases {s s' : ι} {e : Regex} (h : Derives L lit .term s e s') :
    (L.tok s).IsChar ∧ e = .char (L.lexeme s) ∧ L.advance s = .ok s' ∨
    L.tok s = .any ∧ e = .any ∧ L.advance s = .ok s' ∨
    L.tok s = .cclStart ∧ (∃ s₁, L.advance s = .ok s₁ ∧ DerivesClass L s₁ e s') ∨
    L.tok s = .openParen ∧ ∃ s₁ s₂, L.advance s = .ok s₁ ∧ Derives L lit .expr s₁ e s₂ ∧
      Reads L .closeParen s₂ s' := by
  cases h with
  | char hc _ hadv => exact Or.inl ⟨hc, rfl, hadv⟩
  | any h => exact Or.inr (Or.inl ⟨h.1, rfl, h.2⟩)
  | cls hstart hbol hend hitems hadv =>
    exact Or.inr (Or.inr (Or.inl ⟨hstart.1, _, hstart.2, false, _, rfl, fun _ => hbol,
      Or.inr ⟨hend, _, _, hitems, hadv, rfl⟩⟩))
  | clsNeg hstart hbol hend hitems hadv =>
    exact Or.inr (Or.inr
      (Or.inl ⟨hstart.1, _, hstart.2, true, _, hbol, fun h => absurd h (by decide),
      Or.inr ⟨hend, _, _, hitems, hadv, rfl⟩⟩))
  | blank hstart hend =>
    refine Or.inr (Or.inr
      (Or.inl ⟨hstart.1, _, hstart.2, false, _, rfl, fun _ => ?_, Or.inl ⟨hend, rfl⟩⟩))
    rw [hend.1]
    decide
  | blankNeg hstart hbol hend =>
    exact Or.inr (Or.inr
      (Or.inl ⟨hstart.1, _, hstart.2, true, _, hbol, fun h => absurd h (by decide),
      Or.inl ⟨hend, rfl⟩⟩))
  | group hopen hexpr hclose =>
    exact Or.inr (Or.inr (Or.inr ⟨hopen.1, _, _, hopen.2, hexpr, hclose⟩))

/-- The tokens behind a nonterminal that do not continue it. -/
def Nonterminal.Ends : Nonterminal → Token → Prop
  | .term, _ => True
  | .factor, t => ¬ t.IsClosure
  | .catExpr, t | .catExpr' _, t => firstInCat t = .ok false
  | .expr, t | .expr' _, t => firstInCat t = .ok false ∧ t ≠ .or

/-- A term with an opening parenthesis is a group. -/
lemma Derives.group_cases {s s₁ s' : ι} {e : Regex} (h : Derives L lit .term s e s')
    (hopen : Reads L .openParen s s₁) : ∃ s₂, Derives L lit .expr s₁ e s₂ ∧
    Reads L .closeParen s₂ s' := by
  rcases h.term_cases with ⟨hc, -⟩ | ⟨hany, -⟩ | ⟨hccl, -⟩ | ⟨-, t₁, s₂, hadv, hexpr, hclose⟩
  · rw [hopen.1] at hc
    rcases hc with h | h | h | h <;> cases h
  · rw [hopen.1] at hany
    cases hany
  · rw [hopen.1] at hccl
    cases hccl
  · obtain rfl := advance_unique hopen.2 hadv
    exact ⟨s₂, hexpr, hclose⟩

/-- A term with an opening bracket is a class. -/
lemma Derives.class_cases {s s₁ s' : ι} {e : Regex} (h : Derives L lit .term s e s')
    (hopen : Reads L .cclStart s s₁) : DerivesClass L s₁ e s' := by
  rcases h.term_cases with ⟨hc, -⟩ | ⟨hany, -⟩ | ⟨-, t₁, hadv, hcls⟩ | ⟨hparen, -⟩
  · rw [hopen.1] at hc
    rcases hc with h | h | h | h <;> cases h
  · rw [hopen.1] at hany
    cases hany
  · obtain rfl := advance_unique hopen.2 hadv
    exact hcls
  · rw [hopen.1] at hparen
    cases hparen

/-- The grammar is unambiguous: an expression is derived from a text in one way only. -/
theorem Derives.unique {nt : Nonterminal} {s s' : ι} {e : Regex} (h : Derives L lit nt s e s')
    (hend : nt.Ends (L.tok s')) {e₂ : Regex} {s₂ : ι} (h₂ : Derives L lit nt s e₂ s₂)
    (hend₂ : nt.Ends (L.tok s₂)) : e₂ = e ∧ s₂ = s' := by
  induction h generalizing e₂ s₂ with
  | @char s s' hc _ hadv =>
    rcases h₂.term_cases with ⟨-, rfl, hadv₂⟩ | ⟨ht, -⟩ | ⟨ht, -⟩ | ⟨ht, -⟩
    · exact ⟨rfl, advance_unique hadv hadv₂⟩
    all_goals
      rw [ht] at hc
      rcases hc with h | h | h | h <;> cases h
  | any h =>
    rcases h₂.term_cases with ⟨hc, -⟩ | ⟨-, rfl, hadv₂⟩ | ⟨ht, -⟩ | ⟨ht, -⟩
    · rw [h.1] at hc
      rcases hc with h | h | h | h <;> cases h
    · exact ⟨rfl, advance_unique h.2 hadv₂⟩
    all_goals
      rw [h.1] at ht
      cases ht
  | cls hstart hbol hcls hitems hadv =>
    exact (Derives.class_cases (.cls hstart hbol hcls hitems hadv : Derives L lit .term _ _ _)
      hstart).unique (h₂.class_cases hstart)
  | clsNeg hstart hbol hcls hitems hadv =>
    exact (Derives.class_cases (.clsNeg hstart hbol hcls hitems hadv : Derives L lit .term _ _ _)
      hstart).unique (h₂.class_cases hstart)
  | blank hstart hcls =>
    exact (Derives.class_cases (.blank hstart hcls : Derives L lit .term _ _ _) hstart).unique
      (h₂.class_cases hstart)
  | blankNeg hstart hbol hcls =>
    exact (Derives.class_cases (.blankNeg hstart hbol hcls : Derives L lit .term _ _ _)
      hstart).unique (h₂.class_cases hstart)
  | group hopen _ hclose ih =>
    obtain ⟨t, hexpr, hclose₂⟩ := h₂.group_cases hopen
    have hparen : ∀ {u u' : ι}, Reads L .closeParen u u' → Nonterminal.expr.Ends (L.tok u) := by
      intro u u' hu
      rw [hu.1]
      exact ⟨rfl, by decide⟩
    obtain ⟨rfl, rfl⟩ := ih (hparen hclose) hexpr (hparen hclose₂)
    exact ⟨rfl, advance_unique hclose.2 hclose₂.2⟩
  | factor _ ih =>
    cases h₂ with
    | factor hterm => exact ih trivial hterm trivial
    | star hterm hread | plus hterm hread | opt hterm hread =>
      obtain ⟨rfl, rfl⟩ := ih trivial hterm trivial
      exact absurd (by rw [hread.1]; decide) hend
  | star _ hread ih =>
    cases h₂ with
    | factor hterm =>
      obtain ⟨rfl, rfl⟩ := ih trivial hterm trivial
      exact absurd (by rw [hread.1]; decide) hend₂
    | star hterm hread₂ =>
      obtain ⟨rfl, rfl⟩ := ih trivial hterm trivial
      exact ⟨rfl, advance_unique hread.2 hread₂.2⟩
    | plus hterm hread₂ | opt hterm hread₂ =>
      obtain ⟨rfl, rfl⟩ := ih trivial hterm trivial
      exact absurd (hread.1.symm.trans hread₂.1) (by decide)
  | plus _ hread ih =>
    cases h₂ with
    | factor hterm =>
      obtain ⟨rfl, rfl⟩ := ih trivial hterm trivial
      exact absurd (by rw [hread.1]; decide) hend₂
    | plus hterm hread₂ =>
      obtain ⟨rfl, rfl⟩ := ih trivial hterm trivial
      exact ⟨rfl, advance_unique hread.2 hread₂.2⟩
    | star hterm hread₂ | opt hterm hread₂ =>
      obtain ⟨rfl, rfl⟩ := ih trivial hterm trivial
      exact absurd (hread.1.symm.trans hread₂.1) (by decide)
  | opt _ hread ih =>
    cases h₂ with
    | factor hterm =>
      obtain ⟨rfl, rfl⟩ := ih trivial hterm trivial
      exact absurd (by rw [hread.1]; decide) hend₂
    | opt hterm hread₂ =>
      obtain ⟨rfl, rfl⟩ := ih trivial hterm trivial
      exact ⟨rfl, advance_unique hread.2 hread₂.2⟩
    | star hterm hread₂ | plus hterm hread₂ =>
      obtain ⟨rfl, rfl⟩ := ih trivial hterm trivial
      exact absurd (hread.1.symm.trans hread₂.1) (by decide)
  | catExpr _ hrest ih ih' =>
    cases h₂ with
    | catExpr hfactor hrest₂ =>
      obtain ⟨rfl, rfl⟩ := ih (hrest.not_isClosure hend) hfactor (hrest₂.not_isClosure hend₂)
      exact ih' hend hrest₂ hend₂
  | catNil =>
    cases h₂ with
    | catNil => exact ⟨rfl, rfl⟩
    | catCons hfactor =>
      have htrue : firstInCat _ = .ok true := (Token.StartsTerm.spec hfactor.starts).1
      exact absurd (htrue.symm.trans hend) (by decide)
  | catCons hfactor hrest ih ih' =>
    cases h₂ with
    | catNil =>
      have htrue : firstInCat _ = .ok true := (Token.StartsTerm.spec hfactor.starts).1
      exact absurd (htrue.symm.trans hend₂) (by decide)
    | catCons hfactor₂ hrest₂ =>
      obtain ⟨rfl, rfl⟩ := ih (hrest.not_isClosure hend) hfactor₂ (hrest₂.not_isClosure hend₂)
      exact ih' hend hrest₂ hend₂
  | expr _ hrest ih ih' =>
    cases h₂ with
    | expr hcat hrest₂ =>
      obtain ⟨rfl, rfl⟩ := ih (hrest.firstInCat_eq hend.1) hcat (hrest₂.firstInCat_eq hend₂.1)
      exact ih' hend hrest₂ hend₂
  | exprNil =>
    cases h₂ with
    | exprNil => exact ⟨rfl, rfl⟩
    | exprCons hread => exact absurd hread.1 hend.2
  | exprCons hread _ hrest ih ih' =>
    cases h₂ with
    | exprNil => exact absurd hread.1 hend₂.2
    | exprCons hread₂ hcat₂ hrest₂ =>
      obtain rfl := advance_unique hread.2 hread₂.2
      obtain ⟨rfl, rfl⟩ := ih (hrest.firstInCat_eq hend.1) hcat₂ (hrest₂.firstInCat_eq hend₂.1)
      exact ih' hend hrest₂ hend₂

/-! ## Rules -/

/-- The expression of a rule ends in front of the `$` or the end of the line. -/
lemma ends_of_eol {eol : Bool} {s s' : ι} (heol : ReadsIf L eol .atEol s s')
    (heos : L.tok s' = .eos) : L.tok s = .atEol ∨ L.tok s = .eos := by
  cases eol with
  | false =>
    have hs : s' = s := heol
    exact Or.inr (hs ▸ heos)
  | true =>
    have hread : Reads L .atEol s s' := heol
    exact Or.inl hread.1

/-- Behind the `$` of a rule, if it has one, the line ends. -/
lemma ReadsIf.tok_of_atEol {eol : Bool} {s s' s₁ : ι} (h : ReadsIf L eol .atEol s s')
    (heos : L.tok s' = .eos) (hread : Reads L .atEol s s₁) : L.tok s₁ = .eos := by
  cases eol with
  | false =>
    have hs : s' = s := h
    subst hs
    exact absurd (hread.1.symm.trans heos) (by decide)
  | true =>
    obtain rfl := advance_unique (show Reads L .atEol s s' from h).2 hread.2
    exact heos

/-- An expression may end at a `$`, at a closing parenthesis, or at the end of the line. -/
lemma expr_ends {t : Token} (h : t = .atEol ∨ t = .closeParen ∨ t = .eos) :
    Nonterminal.expr.Ends t := by
  rcases h with rfl | rfl | rfl <;> exact ⟨rfl, by decide⟩

/-- Whether there is an anchor at the start of a rule is determined by the text. -/
lemma ReadsIf.bol_unique {bol bol₂ : Bool} {s s₁ s₂ s₃ t₃ : ι} {e e₂ : Regex}
    (h : ReadsIf L bol .atBol s s₁) (hexpr : Derives L lit .expr s₁ e s₃)
    (h₂ : ReadsIf L bol₂ .atBol s s₂) (hexpr₂ : Derives L lit .expr s₂ e₂ t₃) :
    bol₂ = bol ∧ s₂ = s₁ := by
  have hne : ∀ {u u' : ι} {e : Regex}, Derives L lit .expr u e u' → L.tok u ≠ .atBol :=
    fun h => (Token.StartsTerm.spec h.starts).2.2.1
  cases bol with
  | false =>
    have hs : s₁ = s := h
    subst hs
    cases bol₂ with
    | false => exact ⟨rfl, h₂⟩
    | true => exact absurd (show Reads L .atBol _ s₂ from h₂).1 (hne hexpr)
  | true =>
    have hread : Reads L .atBol s s₁ := h
    cases bol₂ with
    | false =>
      have hs : s₂ = s := h₂
      subst hs
      exact absurd hread.1 (hne hexpr₂)
    | true => exact ⟨rfl, advance_unique hread.2 (show Reads L .atBol s s₂ from h₂).2⟩

/-- Whether there is an anchor at the end of a rule is determined by the text. -/
lemma ReadsIf.eol_unique {eol eol₂ : Bool} {s s₁ s₂ : ι} (h : ReadsIf L eol .atEol s s₁)
    (heos : L.tok s₁ = .eos) (h₂ : ReadsIf L eol₂ .atEol s s₂) (heos₂ : L.tok s₂ = .eos) :
    eol₂ = eol ∧ s₂ = s₁ := by
  cases eol with
  | false =>
    have hs : s₁ = s := h
    subst hs
    cases eol₂ with
    | false => exact ⟨rfl, h₂⟩
    | true => exact absurd (heos.symm.trans (show Reads L .atEol _ s₂ from h₂).1) (by decide)
  | true =>
    have hread : Reads L .atEol s s₁ := h
    cases eol₂ with
    | false =>
      have hs : s₂ = s := h₂
      subst hs
      exact absurd (hread.1.symm.trans heos₂) (by decide)
    | true => exact ⟨rfl, advance_unique hread.2 (show Reads L .atEol s s₂ from h₂).2⟩

/-- A rule is read in one way only, with one result and one end. -/
theorem DerivesRule.unique {s s₁ s₂ : ι} {r r₂ : RuleText} (h : DerivesRule L lit s r s₁)
    (h₂ : DerivesRule L lit s r₂ s₂) : r₂ = r ∧ s₂ = s₁ := by
  obtain ⟨hbol, hexpr, heol, heos, hadv⟩ := h
  obtain ⟨hbol₂, hexpr₂, heol₂, heos₂, hadv₂⟩ := h₂
  obtain ⟨rfl, rfl⟩ := hbol.bol_unique hexpr hbol₂ hexpr₂
  obtain ⟨rfl, rfl⟩ := hexpr.unique (expr_ends ((ends_of_eol heol heos).imp_right Or.inr)) hexpr₂
    (expr_ends ((ends_of_eol heol₂ heos₂).imp_right Or.inr))
  obtain ⟨rfl, rfl⟩ := heol.eol_unique heos heol₂ heos₂
  exact ⟨rfl, advance_unique hadv hadv₂⟩

end Lex
