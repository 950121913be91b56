import Cgkits.Lex.Pieces
import Cgkits.Lex.Priority

/-!
# Regular expressions and the grammar of a rules text

`Regex` is the syntax tree of a regular expression and `Regex.lang` its language.  `Derives` is the
grammar in the comments of `nfa.c`, with the tokens that the lexical analyzer delivers; its
nonterminals `catExpr'` and `expr'` carry the tree of what stands before them, as the loops of
`cat_expr` and `expr` do.

The comment of `term` says that `[]` matches a space, tab, formfeed or newline but no carriage
return, and the code makes a class of all characters from 0 to the space.  So the characters of `[]`
are a parameter of the language.
-/

namespace Lex

open Labelled Computability

/-! ## Languages -/

/-- A part of a character class: a character, and the ends of the ranges that start with it. -/
structure ClassItem where
  /-- The character in front of a dash, or alone. -/
  first : ℤ
  /-- The ends of the ranges that start there. -/
  ends : List ℤ
deriving DecidableEq

/-- The character belongs to the part of a class. -/
def ClassItem.Has (item : ClassItem) (x : ℤ) : Prop :=
  x = item.first ∨ ∃ e ∈ item.ends, item.first ≤ x ∧ x ≤ e

/-- A regular expression, as the rules of a specification write it. -/
inductive Regex
  /-- A character that stands for itself. -/
  | char (c : ℤ)
  /-- `.`, any character but a newline. -/
  | any
  /-- `[...]` or `[^...]`, a class with members. -/
  | cls (neg : Bool) (items : List ClassItem)
  /-- `[]` or `[^]`, a class that names no member. -/
  | blank (neg : Bool)
  /-- `|`, one expression or the other. -/
  | alt (e e' : Regex)
  /-- One expression after the other. -/
  | cat (e e' : Regex)
  /-- `*`, any number of times. -/
  | star (e : Regex)
  /-- `+`, at least once. -/
  | plus (e : Regex)
  /-- `?`, at most once. -/
  | opt (e : Regex)

/-- The characters that end a line, which `.` and a complemented class leave out. -/
def newline (unix : Bool) : Finset ℤ := (notNewline unix).map

/-- The characters of a class with the given members; a complemented class has no end-of-line
character. -/
def classChars (unix neg : Bool) (P : ℤ → Prop) : Set (Fin maxChars) :=
  {x | if neg then ((x : ℕ) : ℤ) ∉ newline unix ∧ ¬ P (x : ℕ) else P (x : ℕ)}

/-- What `[]` matches according to the comment of `term`: a space, tab, formfeed or newline. -/
def docBlank (x : ℤ) : Prop := x = 32 ∨ x = 9 ∨ x = 12 ∨ x = 10

/-- The characters that `term` puts into the class of `[]`. -/
def codeBlank (x : ℤ) : Prop := 0 ≤ x ∧ x ≤ 32

/-- The language of a regular expression, where `B` are the characters of `[]`, so that `[^]` is the
class of the others. -/
def Regex.lang (unix : Bool) (B : ℤ → Prop) : Regex → Language (Fin maxChars)
  | .char c => Fragment.letters {x : Fin maxChars | ((x : ℕ) : ℤ) = c}
  | .any => Fragment.letters (classChars unix true fun _ => False)
  | .cls neg items => Fragment.letters (classChars unix neg fun x => ∃ item ∈ items, item.Has x)
  | .blank neg => Fragment.letters (classChars unix neg B)
  | .alt e e' => e.lang unix B + e'.lang unix B
  | .cat e e' => e.lang unix B * e'.lang unix B
  | .star e => (e.lang unix B)∗
  | .plus e => e.lang unix B * (e.lang unix B)∗
  | .opt e => e.lang unix B + 1

/-- A rule without its action: the expression, perhaps with `^` before it or `$` behind it. -/
structure RuleText where
  /-- There is a `^` in front of the expression. -/
  bol : Bool
  /-- The expression between the anchors. -/
  body : Regex
  /-- There is a `$` behind the expression. -/
  eol : Bool

/-- The language of a rule: after a newline for `^`, and with an end-of-line character behind it for
`$`. -/
def RuleText.lang (unix : Bool) (B : ℤ → Prop) (r : RuleText) : Language (Fin maxChars) :=
  (if r.bol then Fragment.letters {x : Fin maxChars | ((x : ℕ) : ℤ) = 10} else 1) * r.body.lang unix
    B *
    if r.eol then Fragment.letters {x : Fin maxChars | ((x : ℕ) : ℤ) ∈ newline unix} else 1

/-! ## The grammar -/

/-- The number is the code of a character of the machine. -/
def inChars (c : ℤ) : Prop := 0 ≤ c ∧ c < maxChars

/-- The tokens that stand for a character outside of a class. -/
def Token.IsChar (t : Token) : Prop := t = .l ∨ t = .dash ∨ t = .openCurly ∨ t = .closeCurly

/-- The nonterminals of the grammar of expressions, with the rests of the two loops. -/
inductive Nonterminal
  | term | factor | catExpr | expr
  /-- What follows the first factors of a `catExpr`. -/
  | catExpr' (acc : Regex)
  /-- What follows the first alternatives of an `expr`. -/
  | expr' (acc : Regex)

section Grammar

variable {ι : Type} (L : Lexer ι) (lit : ℤ → Prop)

/-- The current token is `t`, and `advance` leads behind it. -/
def Reads (t : Token) (s s' : ι) : Prop := L.tok s = t ∧ L.advance s = .ok s'

/-- The ends of the ranges behind a character in a class. -/
inductive DerivesEnds : ι → List ℤ → ι → Prop
  /-- There is no dash, so that no range ends here. -/
  | nil {s : ι} : DerivesEnds s [] s
  /-- A dash and the end of a range. -/
  | cons {s s₁ s₂ s₃ : ι} {ends : List ℤ} : Reads L .dash s s₁ → L.tok s₁ ≠ .cclEnd →
      L.tok s₁ ≠ .eos → L.advance s₁ = .ok s₂ → DerivesEnds s₂ ends s₃ →
      DerivesEnds s (L.lexeme s₁ :: ends) s₃

/-- The parts of a class, up to the closing bracket. -/
inductive DerivesItems : ι → List ClassItem → ι → Prop
  /-- The closing bracket ends the class. -/
  | nil {s : ι} : L.tok s = .cclEnd → DerivesItems s [] s
  /-- A character, perhaps with ranges. -/
  | cons {s s₁ s₂ s₃ : ι} {ends : List ℤ} {items : List ClassItem} :
      L.tok s ≠ .eos → L.tok s ≠ .cclEnd → L.tok s ≠ .dash → L.advance s = .ok s₁ →
      DerivesEnds L s₁ ends s₂ → DerivesItems s₂ items s₃ →
      DerivesItems s (⟨L.lexeme s, ends⟩ :: items) s₃

/-- The productions of `expr`, `cat_expr`, `factor` and `term`, from the state of the lexical
analyzer at the first token to the state at the token behind the last one.  A literal stands for a
character that satisfies `lit`. -/
inductive Derives : Nonterminal → ι → Regex → ι → Prop
  /-- A character that is no operator. -/
  | char {s s' : ι} : (L.tok s).IsChar → lit (L.lexeme s) → L.advance s = .ok s' →
      Derives .term s (.char (L.lexeme s)) s'
  /-- `.` alone is a term. -/
  | any {s s' : ι} : Reads L .any s s' → Derives .term s .any s'
  /-- `[...]`, a class with members. -/
  | cls {s s₁ s₂ s₃ : ι} {items : List ClassItem} : Reads L .cclStart s s₁ → L.tok s₁ ≠ .atBol →
      L.tok s₁ ≠ .cclEnd → DerivesItems L s₁ items s₂ → L.advance s₂ = .ok s₃ →
      Derives .term s (.cls false items) s₃
  /-- `[^...]`, the complement of a class with members. -/
  | clsNeg {s s₁ s₂ s₃ s₄ : ι} {items : List ClassItem} : Reads L .cclStart s s₁ →
      Reads L .atBol s₁ s₂ → L.tok s₂ ≠ .cclEnd → DerivesItems L s₂ items s₃ →
      L.advance s₃ = .ok s₄ → Derives .term s (.cls true items) s₄
  /-- `[]`, the class that names no member. -/
  | blank {s s₁ s₂ : ι} : Reads L .cclStart s s₁ → Reads L .cclEnd s₁ s₂ →
    Derives .term s (.blank false) s₂
  /-- `[^]`, the complement of the class that names no member. -/
  | blankNeg {s s₁ s₂ s₃ : ι} : Reads L .cclStart s s₁ → Reads L .atBol s₁ s₂ →
      Reads L .cclEnd s₂ s₃ → Derives .term s (.blank true) s₃
  /-- `(expr)`, an expression in parentheses. -/
  | group {s s₁ s₂ s₃ : ι} {e : Regex} : Reads L .openParen s s₁ → Derives .expr s₁ e s₂ →
      Reads L .closeParen s₂ s₃ → Derives .term s e s₃
  /-- `term` with no closure behind it. -/
  | factor {s s' : ι} {e : Regex} : Derives .term s e s' → Derives .factor s e s'
  /-- `term*`, a term with a star behind it. -/
  | star {s s₁ s₂ : ι} {e : Regex} : Derives .term s e s₁ → Reads L .closrue s₁ s₂ →
    Derives .factor s (.star e) s₂
  /-- `term+`, a term with a plus behind it. -/
  | plus {s s₁ s₂ : ι} {e : Regex} : Derives .term s e s₁ → Reads L .plusClose s₁ s₂ →
    Derives .factor s (.plus e) s₂
  /-- `term?`, a term with a question mark behind it. -/
  | opt {s s₁ s₂ : ι} {e : Regex} : Derives .term s e s₁ → Reads L .optional s₁ s₂ →
    Derives .factor s (.opt e) s₂
  /-- `factor catExpr'`, a factor and those behind it. -/
  | catExpr {s s₁ s₂ : ι} {e e' : Regex} : Derives .factor s e s₁ → Derives (.catExpr' e) s₁ e' s₂ →
      Derives .catExpr s e' s₂
  /-- No more factors can be put behind the others. -/
  | catNil {s : ι} {e : Regex} : Derives (.catExpr' e) s e s
  /-- One more factor is put behind the others. -/
  | catCons {s s₁ s₂ : ι} {e e' e'' : Regex} : Derives .factor s e' s₁ →
      Derives (.catExpr' (.cat e e')) s₁ e'' s₂ → Derives (.catExpr' e) s e'' s₂
  /-- `catExpr expr'`, an alternative and those behind it. -/
  | expr {s s₁ s₂ : ι} {e e' : Regex} : Derives .catExpr s e s₁ → Derives (.expr' e) s₁ e' s₂ →
      Derives .expr s e' s₂
  /-- No more alternatives stand behind the others. -/
  | exprNil {s : ι} {e : Regex} : Derives (.expr' e) s e s
  /-- One more alternative stands behind the others. -/
  | exprCons {s s₁ s₂ s₃ : ι} {e e' e'' : Regex} : Reads L .or s s₁ → Derives .catExpr s₁ e' s₂ →
      Derives (.expr' (.alt e e')) s₂ e'' s₃ → Derives (.expr' e) s e'' s₃

/-- An anchor that may be there is read if it is. -/
def ReadsIf (b : Bool) (t : Token) (s s' : ι) : Prop := if b then Reads L t s s' else s' = s

/-- A rule, up to the first token of the next one; `advance` crosses the action. -/
inductive DerivesRule : ι → RuleText → ι → Prop
  /-- `expr EOS action`, with or without anchors. -/
  | mk {s s₁ s₂ s₃ s₄ : ι} {bol eol : Bool} {e : Regex} : ReadsIf L bol .atBol s s₁ →
      Derives L lit .expr s₁ e s₂ → ReadsIf L eol .atEol s₂ s₃ → L.tok s₃ = .eos →
      L.advance (L.skipSpace s₃) = .ok s₄ → DerivesRule s ⟨bol, e, eol⟩ s₄

/-- A list of rules up to the end of the input. -/
inductive DerivesRules : ι → List RuleText → Prop
  /-- `rule END_OF_INPUT`, the last rule. -/
  | last {s s' : ι} {r : RuleText} : DerivesRule L lit s r s' → L.tok s' = .endOfInput →
    DerivesRules s [r]
  /-- `rule machine`, one more rule in front of the others. -/
  | cons {s s' : ι} {r : RuleText} {rules : List RuleText} : DerivesRule L lit s r s' →
      DerivesRules s' rules → DerivesRules s (r :: rules)

end Grammar

end Lex
