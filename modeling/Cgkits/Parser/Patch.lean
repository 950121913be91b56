import Cgkits.Lib.Erase
import Cgkits.Parser.Dollar
import Cgkits.Support.Hash
import Mathlib.Order.Bounds.Defs

/-!
# Actions become nonterminals (`yypatch.c`)

An action that stands at the end of a right-hand side is executed when the production is reduced,
and its code is printed under the number of the production.  An action that stands in front of
another symbol gets a production of its own: `patch` makes a nonterminal of it, in place, with an
empty right-hand side, and prints its code under the number of the new production.

The table is modelled by addresses: `PatchTab.sym` and `PatchTab.prod` are the contents of the
memory, and the pointers of a right-hand side, of a chain and of the hash table are addresses of
symbols and productions.  The names of the symbols are never written and are kept outside of the
table.  `visited` records the calls of `dopatch`.
-/

namespace Parser

open Support ContextFree

/-! ## The table -/

/-- How the program ends in `patch`, with an error or by a null pointer. -/
inductive PatchFault
  /-- Too many nonterminals and actions. -/
  | nonterms
  /-- A null pointer is followed and the program crashes. -/
  | crash
deriving DecidableEq

/-- A production (`PRODUCTION_S`), with the addresses of its symbols. -/
structure TabProd where
  /-- The number of the production. -/
  num : ℕ
  /-- The symbol of the left-hand side. -/
  lhs : ℕ
  /-- The cells of the right-hand side. -/
  rhs : ℕ → Option ℕ
  /-- Number of elements in the `rhs` array. -/
  rhsLen : ℕ
  /-- The relative precedence of the production. -/
  prec : ℕ

/-- A symbol (`SYMBOL_S`), without its name. -/
structure TabSym where
  /-- Numeric value of the symbol. -/
  val : ℕ
  /-- `%type <field>`, the field of a nonterminal. -/
  field : Lexeme
  /-- Input line number of `string`. -/
  lineno : ℕ
  /-- The code of an action, if the symbol is one. -/
  string : Option Lexeme
  /-- The chain of the right-hand sides of a nonterminal, by the addresses of the productions. -/
  productions : List ℕ
  /-- The FIRST set of the symbol. -/
  first : Finset ℕ

/-- The arguments of `print_one_case`, which decide what is printed. -/
structure CaseArgs where
  /-- The number behind `case`. -/
  caseVal : ℕ
  /-- The code of the action, as it was written. -/
  action : Lexeme
  /-- The number of symbols to the left of the action. -/
  rhsSize : ℕ
  /-- The line number of the action. -/
  lineno : ℕ
  /-- The production that the action is in. -/
  prod : ℕ
deriving DecidableEq

/-- A case of `yy_act`: the arguments that it was printed for, and its code. -/
structure Case extends CaseArgs where
  /-- The code behind the label. -/
  body : Lexeme

/-- The variables of `yypatch.c` and the memory that it works on. -/
structure PatchTab where
  /-- `g_symtab`, the hash table of symbols. -/
  symtab : HashTab ℕ Lexeme
  /-- The symbols, by their addresses. -/
  sym : ℕ → TabSym
  /-- The productions, by their addresses. -/
  prod : ℕ → TabProd
  /-- The address of the next production that is allocated. -/
  brk : ℕ
  /-- `g_terms`, the symbols by their numbers. -/
  terms : ℕ → Option ℕ
  /-- `g_currterm`, the number of the last terminal. -/
  currterm : ℕ
  /-- `g_currnonterm`, the number of the last nonterminal. -/
  currnonterm : ℕ
  /-- `g_num_productons`, the number of productions made. -/
  numProductons : ℕ
  /-- The cases of `yy_act` that have been printed. -/
  output : List Case
  /-- The buffer of `do_dollar`. -/
  buf : Lexeme
  /-- The messages of `do_dollar`. -/
  errors : List DollarError
  /-- The symbols that `dopatch` has been called for. -/
  visited : List ℕ

/-- The options that `patch` depends on, from the command line and the specification. -/
structure PatchOpt where
  /-- `g_cmdopt.make_actions`: the actions are printed. -/
  makeActions : Bool
  /-- `fields_active()`: there is a `%union`. -/
  fieldsActive : Bool

namespace PatchTab

/-- `EPSILON`, the number behind that of the last terminal. -/
def epsilon (s : PatchTab) : ℕ := s.currterm + 1

/-- The cell of a symbol is overwritten, and nothing else. -/
def setSym (s : PatchTab) (a : ℕ) (x : TabSym) : PatchTab :=
  { s with sym := Function.update s.sym a x }

/-- The cell of a production is overwritten, and nothing else. -/
def setProd (s : PatchTab) (p : ℕ) (x : TabProd) : PatchTab :=
  { s with prod := Function.update s.prod p x }

/-- The fields of the symbols of a production, which `do_dollar` looks at. -/
def dollarEnv (opt : PatchOpt) (p : ℕ) (s : PatchTab) : DollarEnv where
  fieldsActive := opt.fieldsActive
  lhsField := (s.sym (s.prod p).lhs).field
  rhsField i := ((s.prod p).rhs i).elim [] fun a => (s.sym a).field

end PatchTab

open PatchTab

/-- `print_one_case` prints the case of an action, if actions are printed at all. -/
def printOneCase (opt : PatchOpt) (caseVal : ℕ) (action : Option Lexeme) (rhsSize lineno p : ℕ)
    (s : PatchTab) : Except (Halt PatchFault) PatchTab :=
  if opt.makeActions then
    match action with
    | none => .error (.stopped .crash)
    | some text =>
      let r := printAction (s.dollarEnv opt p) rhsSize lineno text.length text ⟨[], s.buf, []⟩
      .ok { s with
                   output := s.output ++ [⟨⟨caseVal, text, rhsSize, lineno, p⟩, r.out⟩],
                   buf := r.buf,
                   errors := s.errors ++ r.errors }
  else .ok s

/-- `hash_del_sym(g_symtab, cur)` takes a symbol out of the symbol table. -/
def delSym (cur : ℕ) (s : PatchTab) : Except (Halt PatchFault) PatchTab :=
  match hashDelSym s.symtab cur with
  | none => .error (.stopped .crash)
  | some t => .ok { s with symtab := t }

/-- The action at the end of a right-hand side is printed and removed. -/
def trail (opt : PatchOpt) (p cur : ℕ) (s : PatchTab) : Except (Halt PatchFault) PatchTab := do
  let len := (s.prod p).rhsLen - 1
  let s := s.setProd p { s.prod p with rhsLen := len }
  let s ← printOneCase opt (s.prod p).num (s.sym cur).string len (s.sym cur).lineno p s
  let s ← delSym cur s
  return s.setProd p { s.prod p with rhs := Function.update (s.prod p).rhs len none }

/-- The action in the cell `i` becomes a nonterminal with an empty production. -/
def embed (opt : PatchOpt) (p i cur : ℕ) (s : PatchTab) : Except (Halt PatchFault) PatchTab := do
  let val := s.currnonterm + 1
  let q := s.brk
  let s :=
    { s with currnonterm := val, terms := Function.update s.terms val (some cur), brk := q + 1 }
  let s := s.setSym cur { s.sym cur with val := val, productions := [q] }
  let s ← printOneCase opt s.numProductons (s.sym cur).string i (s.sym cur).lineno p s
  let s := s.setProd q ⟨s.numProductons, cur, fun _ => none, 0, 0⟩
  let s := { s with numProductons := s.numProductons + 1 }
  return s.setSym cur { s.sym cur with string := none, first := {s.epsilon} }

/-- The body of the loop over a right-hand side: an action in it becomes a nonterminal. -/
def patchCell (opt : PatchOpt) (p i : ℕ) (s : PatchTab) : Except (Halt PatchFault) PatchTab :=
  match (s.prod p).rhs i with
  | none => .ok s
  | some cur =>
    if ¬ IsAct (s.sym cur).val then .ok s
    else if maxNonterm ≤ s.currnonterm then .error (.stopped .nonterms)
    else embed opt p i cur s

/-- The loop over the first cells of a right-hand side, from right to left. -/
def patchLoop (opt : PatchOpt) (p : ℕ) : ℕ → PatchTab → Except (Halt PatchFault) PatchTab
  | 0, s => .ok s
  | i + 1, s => do
    let s ← patchCell opt p i s
    patchLoop opt p i s

/-- The body of the loop over the productions: an action at the end, then the others. -/
def patchProd (opt : PatchOpt) (p : ℕ) (s : PatchTab) : Except (Halt PatchFault) PatchTab :=
  let len := (s.prod p).rhsLen
  if len = 0 then .ok s
  else
    match (s.prod p).rhs (len - 1) with
    | none => patchLoop opt p len s
    | some cur =>
      if IsAct (s.sym cur).val then do
        let s ← trail opt p cur s
        patchLoop opt p (len - 1) s
      else patchLoop opt p len s

/-- `dopatch` edits the productions of one nonterminal, unless it is a new one. -/
def dopatch (opt : PatchOpt) (lastRealNonterm sym : ℕ) (s : PatchTab) :
    Except (Halt PatchFault) PatchTab :=
  if ¬ IsNonterm (s.sym sym).val ∨ lastRealNonterm < (s.sym sym).val then .ok s
  else (s.sym sym).productions.foldlM (fun s p => patchProd opt p s) s

/-- The call of `dopatch` by `hash_print_tab`, which is recorded. -/
def visit (opt : PatchOpt) (lastRealNonterm sym : ℕ) (s : PatchTab) :
    Except (Halt PatchFault) PatchTab :=
  dopatch opt lastRealNonterm sym { s with visited := s.visited ++ [sym] }

/-- `patch` edits the productions of all nonterminals, in the order of the symbol table. -/
def patch (opt : PatchOpt) (fuel : ℕ) (s : PatchTab) : Except (Halt PatchFault) PatchTab :=
  walkTab PatchTab.symtab (visit opt s.currnonterm) fuel { s with output := [], visited := [] }

/-! ## Well-formed tables -/

/-- The symbols of a right-hand side, those in its cells up to its length. -/
def TabProd.symbols (p : TabProd) : List ℕ := (List.range p.rhsLen).filterMap p.rhs

/-- A symbol table: the symbols `live` are in it, `rhsLen` is the index of the first null pointer of
a right-hand side, and every production is in the chain of its left-hand side. -/
structure PatchTab.Ok (s : PatchTab) (name : ℕ → Lexeme) (live : List ℕ) : Prop where
  /-- The symbols are those in the hash table. -/
  table : s.symtab.Live name live
  /-- The number of the last nonterminal. -/
  currnonterm : minNonterm ≤ s.currnonterm + 1 ∧ s.currnonterm ≤ maxNonterm
  /-- There is no nonterminal behind the last one. -/
  nonterm_le : ∀ a ∈ live, IsNonterm (s.sym a).val → (s.sym a).val ≤ s.currnonterm
  /-- Nonterminals are known by their numbers. -/
  nonterm_inj : ∀ a ∈ live, ∀ b ∈ live, IsNonterm (s.sym a).val → (s.sym a).val = (s.sym b).val →
    a = b
  /-- The chain of a nonterminal. -/
  chain : ∀ a ∈ live, IsNonterm (s.sym a).val → ∀ p, p ∈ (s.sym a).productions ↔ p < s.brk ∧
    (s.prod p).lhs = a
  /-- An action has the code that was written. -/
  string : ∀ a ∈ live, IsAct (s.sym a).val → (s.sym a).string ≠ none
  /-- Left-hand sides are nonterminals. -/
  lhs : ∀ p < s.brk, (s.prod p).lhs ∈ live ∧ IsNonterm (s.sym (s.prod p).lhs).val
  /-- `rhsLen` is the index of the first null pointer. -/
  rhs : ∀ p < s.brk, IsLeast {i | (s.prod p).rhs i = none} (s.prod p).rhsLen
  /-- The array is long enough. -/
  rhsLen_le : ∀ p < s.brk, (s.prod p).rhsLen ≤ maxRhs
  /-- The symbols of a right-hand side are in the table. -/
  rhs_mem : ∀ p < s.brk, ∀ i < (s.prod p).rhsLen, ∀ a, (s.prod p).rhs i = some a → a ∈ live
  /-- Each number is used once. -/
  nums : ((List.range s.brk).map fun p => (s.prod p).num).Perm (List.range s.numProductons)

/-- The action `a` is the symbol in the cell `i` of the production `p`. -/
structure PatchTab.ActCell (s : PatchTab) (p i a : ℕ) : Prop where
  /-- The production is one of the table. -/
  lt_brk : p < s.brk
  /-- The position is one of the right-hand side. -/
  lt_rhsLen : i < (s.prod p).rhsLen
  /-- The symbol stands at the position. -/
  cell : (s.prod p).rhs i = some a
  /-- The symbol is an action. -/
  isAct : IsAct (s.sym a).val

/-- An action symbol occurs once, in one place of one production. -/
def PatchTab.ActsOnce (s : PatchTab) : Prop := ∀ p i q j a, s.ActCell p i a → s.ActCell q j a →
    p = q ∧ i = j

/-- The action is at the end of the right-hand side, where it does not become a nonterminal. -/
def PatchTab.Trailing (s : PatchTab) (p i : ℕ) : Prop := i + 1 = (s.prod p).rhsLen

instance (s : PatchTab) (p i : ℕ) : Decidable (s.Trailing p i) :=
  inferInstanceAs (Decidable (_ = _))

/-- The actions that are not at the end of a right-hand side. -/
def PatchTab.embedded (s : PatchTab) : List ℕ :=
  (List.range s.brk).flatMap fun p =>
    (List.range ((s.prod p).rhsLen - 1)).filterMap fun i => ((s.prod p).rhs i).filter fun a =>
      IsAct (s.sym a).val

/-- The grammar symbol of a symbol; actions denote nothing. -/
def PatchTab.toSymbol (s : PatchTab) (a : ℕ) : Option (Symbol ℕ ℕ) :=
  if IsAct (s.sym a).val then none else if IsTerm (s.sym a).val then some (.terminal a) else
    some (.nonterminal a)

/-- The rewriting rule of a production of the table. -/
def PatchTab.rule (s : PatchTab) (p : ℕ) : ContextFreeRule ℕ ℕ :=
  ⟨(s.prod p).lhs, (s.prod p).symbols.filterMap s.toSymbol⟩

/-- The context-free grammar of the table, with the start symbol `a`. -/
@[reducible] def PatchTab.cfg (s : PatchTab) (a : ℕ) : ContextFreeGrammar ℕ where
  NT := ℕ
  initial := a
  rules := ((List.range s.brk).map s.rule).toFinset

/-! ## Cells -/

/-- The number of cells in front of the first null pointer. -/
lemma length_filterMap_range {f : ℕ → Option ℕ} {n : ℕ} (h : ∀ i < n, f i ≠ none) :
    ((List.range n).filterMap f).length = n := by
  induction n with
  | zero => rfl
  | succ n ih =>
    obtain ⟨a, ha⟩ := Option.ne_none_iff_exists'.mp (h n (Nat.lt_succ_self n))
    rw [List.range_succ, List.filterMap_append, List.length_append, ih fun i hi =>
      h i (Nat.lt_succ_of_lt hi)]
    simp [ha]

/-- The cells in front of the first null pointer, one by one. -/
lemma getElem?_filterMap_range {f : ℕ → Option ℕ} {n i : ℕ} (h : ∀ i < n, f i ≠ none) (hi : i < n) :
    ((List.range n).filterMap f)[i]? = f i := by
  induction n with
  | zero => exact absurd hi (Nat.not_lt_zero i)
  | succ n ih =>
    have hlen := length_filterMap_range fun i hi => h i (Nat.lt_succ_of_lt hi)
    obtain ⟨a, ha⟩ := Option.ne_none_iff_exists'.mp (h n (Nat.lt_succ_self n))
    rw [List.range_succ, List.filterMap_append]
    rcases Nat.lt_succ_iff_lt_or_eq.mp hi with hi | rfl
    · rw [List.getElem?_append_left (hlen.symm ▸ hi)]
      exact ih (fun i hi => h i (Nat.lt_succ_of_lt hi)) hi
    · rw [List.getElem?_append_right hlen.le, hlen, Nat.sub_self]
      simp [ha]

namespace TabProd

variable {x : TabProd} {a : ℕ}

/-- The cells in front of the first null pointer hold symbols. -/
lemma exists_rhs (h : IsLeast {i | x.rhs i = none} x.rhsLen) {i : ℕ} (hi : i < x.rhsLen) :
    ∃ a, x.rhs i = some a :=
  Option.ne_none_iff_exists'.mp fun hnone => absurd (h.2 hnone) (Nat.not_le.mpr hi)

/-- The first symbols of a right-hand side are those in its first cells. -/
lemma take_symbols (h : IsLeast {i | x.rhs i = none} x.rhsLen) {n : ℕ} (hn : n ≤ x.rhsLen) :
    x.symbols.take n = (List.range n).filterMap x.rhs := by
  have hlen : ((List.range n).filterMap x.rhs).length = n :=
    length_filterMap_range fun i hi hnone => absurd (h.2 hnone) (Nat.not_le.mpr (hi.trans_le hn))
  obtain ⟨k, hk⟩ := Nat.exists_eq_add_of_le hn
  unfold symbols
  rw [hk, List.range_add, List.filterMap_append, List.take_left' hlen]

/-- The symbols of a right-hand side end with the one in its last cell. -/
lemma symbols_eq_append {n : ℕ} (hlen : x.rhsLen = n + 1) (ha : x.rhs n = some a) :
    x.symbols = (List.range n).filterMap x.rhs ++ [a] := by
  unfold symbols
  rw [hlen, List.range_succ, List.filterMap_append]
  simp [ha]

/-- The production without its last symbol, as an action at the end is cut off. -/
def cut (x : TabProd) : TabProd :=
  { x with rhs := Function.update x.rhs (x.rhsLen - 1) none, rhsLen := x.rhsLen - 1 }

/-- The cells that are left when the last symbol is cut off hold what they held. -/
lemma cut_rhs {i : ℕ} (hi : i < x.cut.rhsLen) : x.cut.rhs i = x.rhs i :=
  Function.update_of_ne (Nat.ne_of_lt hi) _ _

/-- The first null pointer is where the last symbol was. -/
lemma isLeast_cut (h : IsLeast {i | x.rhs i = none} x.rhsLen) :
    IsLeast {i | x.cut.rhs i = none} x.cut.rhsLen := by
  refine ⟨Function.update_self _ _ _, fun i hi => Nat.le_of_not_lt fun hlt => ?_⟩
  have hle : x.cut.rhsLen ≤ x.rhsLen := Nat.sub_le _ _
  obtain ⟨a, ha⟩ := exists_rhs h (hlt.trans_le hle)
  have hnone : x.cut.rhs i = none := hi
  rw [cut_rhs hlt, ha] at hnone
  cases hnone

/-- The symbols that are left when the last one is cut off are those in front of it. -/
lemma symbols_cut {n : ℕ} (hlen : x.rhsLen = n + 1) :
    x.cut.symbols = (List.range n).filterMap x.rhs := by
  have hn : x.cut.rhsLen = n := by
    change x.rhsLen - 1 = n
    omega
  unfold symbols
  rw [hn]
  refine List.filterMap_congr fun i hi => cut_rhs ?_
  rw [hn]
  exact List.mem_range.mp hi

end TabProd

/-! ## Single steps -/

/-- The case that is printed for an action, if actions are printed. -/
def PatchOpt.printed (opt : PatchOpt) (c : CaseArgs) : List CaseArgs :=
  if opt.makeActions then [c] else []

/-- `print_one_case` writes only output, and reports errors only. -/
lemma printOneCase_spec (opt : PatchOpt) (n : ℕ) {action : Option Lexeme} (haction : action ≠ none)
    (rhsSize lineno p : ℕ) (s : PatchTab) : ∃ out buf errors,
      printOneCase opt n action rhsSize lineno p s = .ok { s with
        output := out, buf := buf, errors := errors } ∧
      out.map Case.toCaseArgs =
        s.output.map Case.toCaseArgs ++ opt.printed ⟨n, action.getD [], rhsSize, lineno, p⟩ := by
  obtain ⟨text, rfl⟩ := Option.ne_none_iff_exists'.mp haction
  unfold printOneCase PatchOpt.printed
  split
  · refine ⟨_, _, _, rfl, ?_⟩
    rw [List.map_append]
    rfl
  · exact ⟨s.output, s.buf, s.errors, rfl, (List.append_nil _).symm⟩

/-- The action at the end of a right-hand side is removed. -/
lemma trail_spec (opt : PatchOpt) {p a : ℕ} {s : PatchTab} {t : HashTab ℕ Lexeme}
    (hstring : (s.sym a).string ≠ none) (hdel : hashDelSym s.symtab a = some t) :
    ∃ out buf errors, trail opt p a s = .ok { s with
        prod := Function.update s.prod p (s.prod p).cut, symtab := t, output := out,
        buf := buf, errors := errors } ∧
      out.map Case.toCaseArgs = s.output.map Case.toCaseArgs ++ opt.printed
        ⟨(s.prod p).num, (s.sym a).string.getD [], (s.prod p).rhsLen - 1, (s.sym a).lineno, p⟩ := by
  obtain ⟨out, buf, errors, hprint, houtput⟩ :=
    printOneCase_spec opt (s.prod p).num hstring ((s.prod p).rhsLen - 1)
    (s.sym a).lineno p (s.setProd p { s.prod p with rhsLen := (s.prod p).rhsLen - 1 })
  refine ⟨out, buf, errors, ?_, houtput⟩
  have hprod : (s.setProd p { s.prod p with rhsLen := (s.prod p).rhsLen - 1 }).prod p =
      { s.prod p with rhsLen := (s.prod p).rhsLen - 1 } := Function.update_self _ _ _
  unfold trail
  dsimp only
  rw [hprod]
  change (printOneCase opt (s.prod p).num (s.sym a).string _ (s.sym a).lineno p _).bind _ = _
  rw [hprint]
  change (delSym a _).bind _ = _
  unfold delSym
  dsimp only
  rw [show (s.setProd p _).symtab = s.symtab from rfl, hdel]
  change Except.ok _ = _
  unfold PatchTab.setProd TabProd.cut
  dsimp only
  rw [Function.update_idem, Function.update_self]

/-- The action in a cell becomes a nonterminal with an empty production of its own. -/
lemma embed_spec (opt : PatchOpt) {p i a : ℕ} {s : PatchTab} (hstring : (s.sym a).string ≠ none) :
    ∃ out buf errors, embed opt p i a s = .ok { s with
        currnonterm := s.currnonterm + 1
        terms := Function.update s.terms (s.currnonterm + 1) (some a)
        brk := s.brk + 1
        numProductons := s.numProductons + 1
        sym := Function.update s.sym a { s.sym a with
          val := s.currnonterm + 1, productions := [s.brk], string := none, first := {s.epsilon} }
        prod := Function.update s.prod s.brk ⟨s.numProductons, a, fun _ => none, 0, 0⟩
        output := out, buf := buf, errors := errors } ∧
      out.map Case.toCaseArgs = s.output.map Case.toCaseArgs ++
        opt.printed ⟨s.numProductons, (s.sym a).string.getD [], i, (s.sym a).lineno, p⟩ := by
  obtain ⟨s₁, hs₁⟩ : ∃ s₁, s₁ = { s with
      currnonterm := s.currnonterm + 1
      terms := Function.update s.terms (s.currnonterm + 1) (some a)
      brk := s.brk + 1
      sym :=
        Function.update s.sym a { s.sym a with
          val := s.currnonterm + 1, productions := [s.brk] } } := ⟨_, rfl⟩
  have hsym : s₁.sym a = { s.sym a with val := s.currnonterm + 1, productions := [s.brk] } := by
    rw [hs₁]
    exact Function.update_self _ _ _
  obtain ⟨out, buf, errors, hprint, houtput⟩ :=
    printOneCase_spec opt s.numProductons hstring i (s.sym a).lineno p s₁
  refine ⟨out, buf, errors, ?_, by rw [houtput, hs₁]⟩
  unfold embed PatchTab.setSym PatchTab.setProd PatchTab.epsilon
  dsimp only
  rw [← hs₁, Function.update_self]
  change (printOneCase opt s.numProductons _ _ _ p s₁).bind _ = _
  rw [hprint]
  change Except.ok _ = _
  dsimp only
  rw [hsym, hs₁]
  dsimp only
  rw [Function.update_idem]

end Parser
