import Mathlib.Data.Nat.Digits.Defs
import Cgkits.Lib.Attributed
import Cgkits.Parser.Dollar
import Cgkits.Parser.LlTables

/-!
# Attributes in a generated LL(1) parser (`llama.m`, `lldollar.c`)

`yy_push` also pushes on a stack of values, and the code of an action refers to it: `$$` is
`Yy_vsp->left`, and `$n` is `Yy_vsp[n].right`.  `valStep` is a round of the driver with this stack
and with the code of the actions.

When every action refers only to symbols behind it on its own right-hand side, the parser evaluates
attributes that are handed down: a nonterminal is a call with its value, and its right-hand side
starts with this value (`evaluates_iff`).
-/

namespace Parser

open Machine Predictive Attributed LlRun

/-! ## The driver -/

/-- `do_dollar` of llama: the text that a reference is replaced by. -/
def llDoDollar (num : ℤ) : Lexeme :=
  if num = dollarDollar then "Yy_vsp->left".toList else
    "(Yy_vsp[".toList ++ decimal num ++ "].right)".toList

/-- The text of a reference fits into `buf`, whatever the number is. -/
lemma length_llDoDollar {num : ℤ} (hlow : -2 ^ 31 ≤ num) (hhigh : num < 2 ^ 31) :
    (llDoDollar num).length < 32 := by
  have hdigits : (Nat.toDigits 10 num.natAbs).length ≤ 10 :=
    Nat.toDigits_length 10 _ 10 (by decide) (by omega)
  have hdecimal : (decimal num).length ≤ 11 := by
    unfold decimal
    split
    · rw [List.length_cons]
      omega
    · omega
  unfold llDoDollar
  split
  · decide
  · simp only [List.length_append, String.length_toList]
    have hfront : "(Yy_vsp[".length = 8 := rfl
    have hback : "].right)".length = 8 := rfl
    omega

/-- What the code of an action does: what it returns, and the values that it sets. -/
structure LlEffect (V S : Type) where
  /-- What `yy_act` returns, 0 to go on. -/
  errcode : ℤ
  /-- The variables of the user. -/
  user : S
  /-- `$$`, the value of the left-hand side. -/
  left : V
  /-- `$n`, the values of the right-hand side. -/
  right : ℤ → V

/-- The code of the actions, with `yytext`, the variables of the user, `$$` and `$n`. -/
abbrev LlCode (V S : Type) : Type := ℕ → Lexeme → S → V → (ℤ → V) → LlEffect V S

/-- The state of `yyparse`, with the stack of values and the variables of the user. -/
structure LlVal (V S : Type) extends LlRun where
  /-- The variables of the user. -/
  user : S
  /-- `Yy_vsp - Yy_vstack`, the index of the top value. -/
  vsp : ℤ
  /-- `Yy_vstack`: the values `left` and `right` of a cell. -/
  vstack : ℤ → V × V

/-- How `yyparse` with values ends. -/
inductive LlValEnd (V S : Type)
  /-- The parser returns a code. -/
  | returns (code : ℤ) (m : LlVal V S)
  /-- The stack overflows and the program exits. -/
  | overflow
  /-- A table is read behind its end. -/
  | outside

variable {V S : Type}

/-- The code of an action has been executed. -/
def LlVal.execute (m : LlVal V S) (a : ℕ) (e : LlEffect V S) : LlVal V S :=
  { m with
    trace := m.trace ++ [.action a]
    acts := m.acts ++ [(a, m.ptext)]
    user := e.user
    vstack := fun i => (if i = m.vsp then e.left else (m.vstack i).1, e.right (i - m.vsp)) }

/-- The loop that calls `yy_push` with one value for each symbol of a row. -/
def pushVals (yymaxdepth : ℕ) (val : V) : List ℕ → List ℕ → ℤ → (ℤ → V × V) →
    Option (List ℕ × ℤ × (ℤ → V × V))
  | [], stack, vsp, vstack => some (stack, vsp, vstack)
  | p :: row, stack, vsp, vstack =>
    if p = 0 then some (stack, vsp, vstack)
    else if yymaxdepth ≤ stack.length then none
    else
      pushVals yymaxdepth val row (p :: stack) (vsp - 1)
        (Function.update vstack (vsp - 1) (val, val))

/-- The loop of `yy_synch` that calls `yy_pop` until a synchronizing symbol is on top. -/
def popSynch (tab : List ℤ) : List ℕ → ℤ → List ℕ × ℤ
  | [], vsp => ([], vsp)
  | tok :: stack, vsp =>
    if yyInSynch tok tab then (tok :: stack, vsp) else popSynch tab stack (vsp + 1)

namespace LlTables

variable (T : LlTables) (env : LlEnv)

/-- `yy_synch`: recover from an error.  The lookahead is `0` if this is impossible. -/
def yySynchVal (m : LlVal V S) : LlVal V S :=
  let m := { m with yynerrs := m.yynerrs + 1, trace := m.trace ++ [LlEvent.synch] }
  if m.yynerrs > env.yymaxerr then { m with lookahead := (eoi, []) }
  else
    match popSynch T.yySynch m.stack m.vsp with
    | ([], vsp) => { m with stack := [], vsp := vsp, lookahead := (eoi, []) }
    | (tok :: stack, vsp) =>
      let (lookahead, rest) := skipText tok m.lookahead m.rest
      { m with stack := tok :: stack, vsp := vsp, lookahead := lookahead, rest := rest }

/-- An error: recover, or give up with code 1 at the end of the input. -/
def valError (m : LlVal V S) : LlVal V S ⊕ LlValEnd V S :=
  let m := T.yySynchVal env m
  if m.lookahead.1 = 0 then .inr (.returns 1 m) else .inl m

/-- One round of the loop of `yyparse`, with the values. -/
def valStep (code : LlCode V S) (m : LlVal V S) : LlVal V S ⊕ LlValEnd V S :=
  match m.stack with
  | [] => .inr (.returns 0 m)
  | tos :: stack =>
    if IsAct tos then
      let e := code tos m.ptext m.user (m.vstack m.vsp).1 fun n => (m.vstack (m.vsp + n)).2
      let m := m.execute tos e
      if e.errcode ≠ 0 then .inr (.returns e.errcode m) else
        .inl { m with stack := stack, vsp := m.vsp + 1 }
    else if minTerm ≤ tos ∧ tos ≤ T.yyMaxterm then
      if tos ≠ m.lookahead.1 then T.valError env m
      else
        let (lookahead, rest) := yyNextText m.rest
        .inl { m with
                      stack := stack, vsp := m.vsp + 1, lookahead := lookahead,
                      rest := rest, ptext := m.lookahead.2,
                      trace := m.trace ++ [.advance tos] }
    else
      match T.yyNext tos m.lookahead.1 with
      | none => .inr .outside
      | some prod =>
        if prod = llamaF then T.valError env m
        else
          match T.yyPushtab[prod.toNat]? with
          | none => .inr .outside
          | some row =>
            match pushVals env.yymaxdepth (m.vstack m.vsp).2 row stack (m.vsp + 1) m.vstack with
            | none => .inr .overflow
            | some (stack, vsp, vstack) =>
              .inl { m with
                stack := stack, vsp := vsp, vstack := vstack,
                trace := m.trace ++ [.replace prod.toNat] }

/-- The start state on the stack, with a value that lies behind the stack, as the argument of the
macro `yy_push` is evaluated when `Yy_vsp` has been decremented. -/
def startCell (vstack : ℤ → V × V) : V × V :=
  ((vstack (env.yymaxdepth - 2)).1, (vstack (env.yymaxdepth - 2)).1)

/-- The state in which the loop starts.  `yy_init_llama` may change the value of the start state and
the variables of the user. -/
def valInit (yyInitLlama : V × V → S → (V × V) × S) (vstack : ℤ → V × V) (user : S)
    (input : List LlToken) : LlVal V S :=
  let (cell, user) := yyInitLlama (startCell env vstack) user
  ⟨T.init input, user, env.yymaxdepth - 1, Function.update vstack (env.yymaxdepth - 1) cell⟩

/-- `yyparse` with the values, cut off after `n` rounds. -/
def valParse (code : LlCode V S) (yyInitLlama : V × V → S → (V × V) × S) (vstack : ℤ → V × V)
    (user : S) (input : List LlToken) (n : ℕ) : Option (LlValEnd V S) :=
  if env.yymaxdepth ≤ 0 then some .overflow
  else run (T.valStep env code) n (T.valInit env yyInitLlama vstack user input)

end LlTables

/-! ## What the texts of the references name -/

section Texts

/-- The number that a decimal constant stands for, with a minus sign or without one. -/
def constValue : Lexeme → ℤ
  | '-' :: digits => -(Nat.ofDigitChars 10 digits 0)
  | digits => Nat.ofDigitChars 10 digits 0

/-- The value of an expression of the kinds that `do_dollar` prints: the field `left` of the top
cell of the stack of values, or the field `right` of the cell that a constant counts from there. -/
def LlVal.value (m : LlVal V S) (text : Lexeme) : Option V :=
  if text = "Yy_vsp->left".toList then some (m.vstack m.vsp).1
  else if "(Yy_vsp[".toList <+: text ∧ "].right)".toList <:+ text then
    some (m.vstack (m.vsp + constValue ((text.drop 8).take (text.length - 16)))).2
  else none

/-- The constant that is printed for a number stands for this number. -/
lemma constValue_decimal (n : ℤ) : constValue (decimal n) = n := by
  unfold decimal
  split
  · change -((Nat.ofDigitChars 10 (Nat.toDigits 10 n.natAbs) 0 : ℕ) : ℤ) = n
    rw [Nat.ofDigitChars_ten_toDigits]
    omega
  · have hdigits : ∀ c ∈ Nat.toDigits 10 n.natAbs, c ≠ '-' := by
      rintro c hc rfl
      have hdigit := Nat.isDigit_of_mem_toDigits (by decide) (by decide) hc
      exact absurd hdigit (by decide)
    have hread :
        constValue (Nat.toDigits 10 n.natAbs) = Nat.ofDigitChars 10 (Nat.toDigits 10 n.natAbs)
        0 := by
      unfold constValue
      split
      · rename_i digits heq
        exact absurd rfl (hdigits '-' (heq ▸ List.mem_cons_self))
      · rfl
    rw [hread, Nat.ofDigitChars_ten_toDigits]
    omega

/-- What `do_dollar` prints for `$$` is the field `left` of the top cell, and for another number the
field `right` of the cell with this number. -/
lemma LlVal.value_llDoDollar (m : LlVal V S) (num : ℤ) :
    m.value (llDoDollar num) = some (if num = dollarDollar then (m.vstack m.vsp).1
    else (m.vstack (m.vsp + num)).2) := by
  unfold llDoDollar
  by_cases hnum : num = dollarDollar
  · rw [if_pos hnum, if_pos hnum]
    rfl
  · rw [if_neg hnum, if_neg hnum]
    have hne : "(Yy_vsp[".toList ++ decimal num ++ "].right)".toList ≠ "Yy_vsp->left".toList := by
      intro h
      exact absurd (congrArg List.head? h) (by simp)
    have hshape : "(Yy_vsp[".toList <+: "(Yy_vsp[".toList ++ decimal num ++ "].right)".toList ∧
        "].right)".toList <:+ "(Yy_vsp[".toList ++ decimal num ++ "].right)".toList :=
      ⟨⟨_, (List.append_assoc _ _ _).symm⟩, ⟨_, rfl⟩⟩
    have hconst : (("(Yy_vsp[".toList ++ decimal num ++ "].right)".toList).drop 8).take
        (("(Yy_vsp[".toList ++ decimal num ++ "].right)".toList).length - 16) = decimal num := by
      have hlength : ("(Yy_vsp[".toList ++ decimal num ++ "].right)".toList).length - 16 =
          (decimal num).length := by
        simp
      rw [hlength, List.append_assoc]
      have hdrop : ("(Yy_vsp[".toList ++ (decimal num ++ "].right)".toList)).drop 8 =
          decimal num ++ "].right)".toList := List.drop_left' rfl
      rw [hdrop]
      exact List.take_left
    unfold LlVal.value
    rw [if_neg hne, if_pos hshape, hconst, constValue_decimal]

/-- The code of an action gets the values of the texts that `do_dollar` has put into it for `$$` and
for the numbers, and behind the action these texts have the values that the code has assigned to
them. -/
theorem LlTables.valStep_texts (T : LlTables) (env : LlEnv) (code : LlCode V S) {m : LlVal V S}
    {a : ℕ} {stack : List ℕ} (hstack : m.stack = a :: stack) (ha : IsAct a) : ∃ (l : V) (r : ℤ → V),
    (m.value (llDoDollar dollarDollar) = some l ∧ ∀ n ≠ dollarDollar, m.value (llDoDollar n) =
    some (r n)) ∧
      let e := code a m.ptext m.user l r
      let m' := m.execute a e
      (T.valStep env code m =
        if e.errcode ≠ 0 then .inr (.returns e.errcode m') else
          .inl { m' with stack := stack, vsp := m'.vsp + 1 }) ∧
        m'.value (llDoDollar dollarDollar) = some e.left ∧
        ∀ n ≠ dollarDollar, m'.value (llDoDollar n) = some (e.right n) := by
  refine ⟨(m.vstack m.vsp).1, fun n => (m.vstack (m.vsp + n)).2, ⟨?_, fun n hn => ?_⟩,
    ?_, ?_, fun n hn => ?_⟩
  · rw [LlVal.value_llDoDollar, if_pos rfl]
  · rw [LlVal.value_llDoDollar, if_neg hn]
  · unfold LlTables.valStep
    rw [hstack]
    exact if_pos ha
  · rw [LlVal.value_llDoDollar, if_pos rfl]
    simp [LlVal.execute]
  · rw [LlVal.value_llDoDollar, if_neg hn]
    simp [LlVal.execute]

end Texts

/-! ## What the code refers to -/

/-- Actions that refer to `$$` and to the values of the symbols behind them. -/
structure LlAttrs (V S : Type) where
  /-- The number of the symbols behind an action on its right-hand side. -/
  arity : ℕ → ℕ
  /-- What an action does to the variables of the user and to these values. -/
  run : ℕ → Lexeme → S → V → List V → S × List V
  /-- There are as many values as before. -/
  length_run : ∀ a text s l rs, (run a text s l rs).2.length = rs.length

/-- The code returns 0, and it reads and changes nothing but the variables of the user, `$$`, and
the values `$1` to `$k` of the symbols behind the action. -/
def LlCode.Refers (code : LlCode V S) (A : LlAttrs V S) : Prop :=
  ∀ a text s l (r : ℤ → V), let e := code a text s l r
    let x := A.run a text s l ((List.range (A.arity a)).map fun i : ℕ => r (i + 1))
    e.errcode = 0 ∧ e.user = x.1 ∧ (∀ i (hi : i < x.2.length), e.right (i + 1) = x.2[i]) ∧
      ∀ n : ℤ, n < 1 ∨ A.arity a < n → e.right n = r n

/-- The actions of the rows stand in front of the symbols that they refer to. -/
def LlTables.Placed (T : LlTables) (A : LlAttrs V S) : Prop :=
  ∀ row ∈ T.yyPushtab, ∀ γ a δ, (row.takeWhile (· ≠ 0)).reverse = γ ++ a :: δ → IsAct a →
    A.arity a = δ.length

/-- The parser of the library: its state is that of the user, with the text of the last token. -/
def LlTables.scheme (T : LlTables) (A : LlAttrs V S) : Scheme ℕ LlToken ℕ V (S × Lexeme) where
  toTable := T.predictive
  arity := A.arity
  act a l rs s := (((A.run a s.2 s.1 l rs).1, s.2), (A.run a s.2 s.1 l rs).2)
  length_act a l rs s := A.length_run a s.2 s.1 l rs
  shift t s := (s.1, t.2)

/-! ## The stack of values -/

/-- The cells of the stack are in memory from the stack pointer on. -/
def Holds (vstack : ℤ → V × V) : ℤ → List (Cell ℕ V) → Prop
  | _, [] => True
  | vsp, c :: γ => vstack vsp = (c.left, c.right) ∧ Holds vstack (vsp + 1) γ

section Holds

variable {vstack vstack' : ℤ → V × V} {vsp : ℤ} {γ : List (Cell ℕ V)}

/-- What is in front of the stack in memory does not matter. -/
lemma Holds.congr (h : Holds vstack vsp γ) (heq : ∀ i ≥ vsp, vstack' i = vstack i) :
    Holds vstack' vsp γ := by
  induction γ generalizing vsp with
  | nil => trivial
  | cons c γ ih => exact ⟨(heq vsp le_rfl).trans h.1, ih h.2 fun i hi => heq i (by omega)⟩

/-- The right values in the first cells of memory are those of the first cells of the stack. -/
lemma Holds.rights (h : Holds vstack vsp γ) {k : ℕ} (hk : k ≤ γ.length) :
    ((List.range k).map fun i : ℕ => (vstack (vsp + i)).2) = (γ.take k).map Cell.right := by
  induction k generalizing vsp γ with
  | zero => rfl
  | succ k ih =>
    rcases γ with _ | ⟨c, γ⟩
    · exact absurd hk (Nat.not_succ_le_zero k)
    · have hrest := ih h.2 (Nat.le_of_succ_le_succ hk)
      rw [List.range_succ_eq_map, List.map_cons, List.take_succ_cons, List.map_cons, ← hrest,
        List.map_map]
      congr 1
      · rw [Nat.cast_zero, add_zero, h.1]
      · refine List.map_congr_left fun i _ => ?_
        change (vstack (vsp + ((i + 1 : ℕ) : ℤ))).2 = _
        rw [Nat.cast_succ, add_comm (i : ℤ) 1, ← add_assoc]

/-- When the right values of the first cells change in memory, they change on the stack. -/
lemma Holds.setRights (h : Holds vstack vsp γ) {rs : List V} (hlen : rs.length ≤ γ.length)
    (hleft : ∀ i ≥ vsp, (vstack' i).1 = (vstack i).1)
    (hright : ∀ i (hi : i < rs.length), (vstack' (vsp + i)).2 = rs[i])
    (hbehind : ∀ i ≥ vsp + rs.length, (vstack' i).2 = (vstack i).2) :
    Holds vstack' vsp (Attributed.setRights γ rs) := by
  induction rs generalizing vsp γ with
  | nil =>
    have hnil : Attributed.setRights γ [] = γ := by simp [Attributed.setRights]
    rw [hnil]
    refine h.congr fun i hi => Prod.ext (hleft i hi) (hbehind i ?_)
    rwa [List.length_nil, Nat.cast_zero, add_zero]
  | cons r rs ih =>
    rcases γ with _ | ⟨c, γ⟩
    · exact absurd hlen (Nat.not_succ_le_zero _)
    · have hhead : vstack' vsp = (c.left, r) := by
        refine Prod.ext ((hleft vsp le_rfl).trans (by rw [h.1])) ?_
        have hzero := hright 0 (Nat.succ_pos _)
        rwa [Nat.cast_zero, add_zero] at hzero
      refine ⟨hhead, ih h.2 (Nat.le_of_succ_le_succ hlen) (fun i hi => hleft i (by omega))
        (fun i hi => ?_) ?_⟩
      · have hnext := hright (i + 1) (Nat.succ_lt_succ hi)
        rw [Nat.cast_succ, add_comm (i : ℤ) 1, ← add_assoc] at hnext
        exact hnext
      · intro i hi
        refine hbehind i ?_
        rw [List.length_cons]
        push_cast
        omega

/-- The loop that pushes a row puts a cell with the value for each symbol on the stack. -/
lemma Holds.pushVals {n : ℕ} {val : V} {row stack : List ℕ} {vsp' : ℤ} (h : Holds vstack vsp γ)
    (hpush : Parser.pushVals n val row (γ.map Cell.sym) vsp vstack = some (stack, vsp', vstack')) :
    Room n (row.takeWhile (· ≠ 0)).reverse (γ.map Cell.sym) ∧
      stack = (cells val (inherit (row.takeWhile (· ≠ 0)).reverse val) ++ γ).map Cell.sym ∧
      Holds vstack' vsp' (cells val (inherit (row.takeWhile (· ≠ 0)).reverse val) ++ γ) := by
  induction row generalizing γ vsp vstack with
  | nil =>
    cases hpush
    exact ⟨Or.inl rfl, rfl, h⟩
  | cons p row ih =>
    rw [Parser.pushVals] at hpush
    by_cases hp : p = 0
    · rw [if_pos hp] at hpush
      cases hpush
      rw [List.takeWhile_cons_of_neg (by simpa using hp)]
      exact ⟨Or.inl rfl, rfl, h⟩
    rw [if_neg hp] at hpush
    by_cases hfull : n ≤ (γ.map Cell.sym).length
    · rw [if_pos hfull] at hpush
      cases hpush
    rw [if_neg hfull] at hpush
    have hcell :
        Holds (Function.update vstack (vsp - 1) (val, val)) (vsp - 1) (⟨p, val, val⟩ :: γ) := by
      refine ⟨Function.update_self .., ?_⟩
      rw [sub_add_cancel]
      exact h.congr fun i hi => Function.update_of_ne (by omega) ..
    obtain ⟨hroom, hstack, hholds⟩ := ih hcell hpush
    rw [List.takeWhile_cons_of_pos (by simpa using hp), List.reverse_cons]
    have hcells : cells val (inherit ((row.takeWhile (· ≠ 0)).reverse ++ [p]) val) ++ γ =
        cells val (inherit (row.takeWhile (· ≠ 0)).reverse val) ++ ⟨p, val, val⟩ :: γ := by
      simp [cells, inherit]
    rw [hcells]
    refine ⟨Or.inr ?_, hstack, hholds⟩
    rcases hroom with hnil | hlen
    · rw [hnil, List.nil_append, List.singleton_append, List.length_cons]
      omega
    · rw [List.append_assoc]
      exact hlen

end Holds

/-! ## The driver without values -/

/-- The limits of the driver, with actions that return 0. -/
def LlEnv.silent (env : LlEnv) : LlEnv := { env with yyAct := fun _ _ => 0 }

@[simp] lemma LlEnv.silent_yyAct (env : LlEnv) (tr : List LlEvent) (a : ℕ) :
    env.silent.yyAct tr a = 0 := rfl

@[simp] lemma LlEnv.silent_yymaxdepth (env : LlEnv) : env.silent.yymaxdepth = env.yymaxdepth := rfl

/-- The end of a run, when the values are forgotten. -/
def LlValEnd.plain : LlValEnd V S → LlEnd
  | .returns code m => .returns code m.toLlRun
  | .overflow => .overflow
  | .outside => .outside

/-- The symbols that are left when the loop has popped are those from the synchronizing one on. -/
lemma popSynch_fst (tab : List ℤ) (stack : List ℕ) (vsp : ℤ) :
    (popSynch tab stack vsp).1 = stack.dropWhile fun x => !yyInSynch x tab := by
  induction stack generalizing vsp with
  | nil => rfl
  | cons tok stack ih =>
    unfold popSynch
    by_cases hin : yyInSynch tok tab
    · rw [if_pos hin, List.dropWhile_cons_of_neg (by simpa using hin)]
    · rw [if_neg hin, List.dropWhile_cons_of_pos (by simpa using hin), ih]

/-- The symbols that the loop pushes are those of the row. -/
lemma pushVals_fst (n : ℕ) (val : V) (row stack : List ℕ) (vsp : ℤ) (vstack : ℤ → V × V) :
    (pushVals n val row stack vsp vstack).map Prod.fst = yyPushAll n row stack := by
  induction row generalizing stack vsp vstack with
  | nil => rfl
  | cons p row ih =>
    unfold pushVals yyPushAll
    by_cases hp : p = 0
    · rw [if_pos hp, if_pos hp]
      rfl
    rw [if_neg hp, if_neg hp]
    by_cases hfull : n ≤ stack.length
    · rw [if_pos hfull, if_pos hfull]
      rfl
    · rw [if_neg hfull, if_neg hfull, ih]

namespace LlTables

variable {T : LlTables} {env : LlEnv} {code : LlCode V S} {A : LlAttrs V S} {m m' : LlVal V S}

/-- When the values are forgotten, the error recovery is that of the parser without values. -/
lemma yySynchVal_toLlRun (m : LlVal V S) :
    (T.yySynchVal env m).toLlRun = T.yySynchText env m.toLlRun := by
  unfold yySynchVal yySynchText
  dsimp only
  by_cases herr : m.yynerrs + 1 > env.yymaxerr
  · rw [if_pos herr, if_pos herr]
  rw [if_neg herr, if_neg herr]
  have hpop := popSynch_fst T.yySynch m.stack m.vsp
  rcases hsynch : popSynch T.yySynch m.stack m.vsp with ⟨_ | ⟨tok, stack⟩, vsp⟩
  · rw [hsynch] at hpop
    rw [← hpop]
  · rw [hsynch] at hpop
    rw [← hpop]

/-- When the values are forgotten, an error does what it does without values. -/
lemma valError_project (m : LlVal V S) :
    (T.valError env m).map LlVal.toLlRun LlValEnd.plain = (T.error env m.toLlRun).map id id := by
  unfold valError error
  dsimp only
  rw [← yySynchVal_toLlRun]
  by_cases hlook : (T.yySynchVal env m).lookahead.1 = 0
  · rw [if_pos hlook, if_pos hlook]
    rfl
  · rw [if_neg hlook, if_neg hlook]
    rfl

/-- An error is counted by the parser with values. -/
lemma yynerrs_valError (h : T.valError env m = .inl m') : m'.yynerrs = m.yynerrs + 1 := by
  have hproject : (T.valError env m).map LlVal.toLlRun LlValEnd.plain = _ := valError_project m
  rw [h] at hproject
  rcases herr : T.error env m.toLlRun with s | s
  · rw [herr] at hproject
    have hs : m'.toLlRun = s := Sum.inl.inj hproject
    rw [hs]
    exact yynerrs_error herr
  · rw [herr] at hproject
    cases hproject

/-- When the values are forgotten, a round is one of the parser without values. -/
lemma valStep_project (hcode : code.Refers A) (m : LlVal V S) :
    (T.valStep env code m).map LlVal.toLlRun LlValEnd.plain = (T.step env.silent m.toLlRun).map id
    id := by
  unfold valStep step
  rcases m.stack with _ | ⟨tos, stack⟩
  · rfl
  dsimp only
  by_cases hact : IsAct tos
  · rw [if_pos hact, if_pos hact, if_neg (not_not.mpr (hcode tos m.ptext m.user _ _).1),
      LlEnv.silent_yyAct, if_neg (not_not.mpr rfl)]
    rfl
  rw [if_neg hact, if_neg hact]
  by_cases hterm : minTerm ≤ tos ∧ tos ≤ T.yyMaxterm
  · rw [if_pos hterm, if_pos hterm]
    by_cases hlook : tos ≠ m.lookahead.1
    · rw [if_pos hlook, if_pos hlook]
      exact valError_project m
    · rw [if_neg hlook, if_neg hlook]
      rfl
  rw [if_neg hterm, if_neg hterm]
  rcases T.yyNext tos m.lookahead.1 with _ | prod
  · rfl
  dsimp only
  by_cases hfail : prod = llamaF
  · rw [if_pos hfail, if_pos hfail]
    exact valError_project m
  rw [if_neg hfail, if_neg hfail]
  rcases T.yyPushtab[prod.toNat]? with _ | row
  · rfl
  dsimp only
  have hpush := pushVals_fst env.yymaxdepth (m.vstack m.vsp).2 row stack (m.vsp + 1) m.vstack
  rw [LlEnv.silent_yymaxdepth, ← hpush]
  rcases pushVals env.yymaxdepth (m.vstack m.vsp).2 row stack (m.vsp + 1) m.vstack with
    _ | ⟨stack', vsp, vstack⟩ <;> rfl

/-- When the values are forgotten, the parser is the one without values. -/
lemma valParse_project (hcode : code.Refers A) (yyInitLlama : V × V → S → (V × V) × S)
    (vstack : ℤ → V × V) (user : S) (input : List LlToken) (n : ℕ) :
    (T.valParse env code yyInitLlama vstack user input n).map LlValEnd.plain =
      (T.parse env.silent input n).map id := by
  unfold valParse parse
  rw [LlEnv.silent_yymaxdepth]
  by_cases hdepth : env.yymaxdepth ≤ 0
  · rw [if_pos hdepth, if_pos hdepth]
    rfl
  · rw [if_neg hdepth, if_neg hdepth]
    exact run_project LlVal.toLlRun LlValEnd.plain id (fun _ => True) (fun _ _ _ _ => trivial)
      (fun m _ => valStep_project hcode m) trivial n

end LlTables

/-! ## The moves of the library -/

/-- The state of the driver is that of the attributed parser of the library. -/
structure LlVal.Follows (m : LlVal V S) (c : Attributed.Config ℕ LlToken V (S × Lexeme)) :
    Prop where
  /-- The symbols on the stack are those of the cells. -/
  stack : m.stack = c.stack.map Cell.sym
  /-- The values on the stack are those of the cells. -/
  values : Holds m.vstack m.vsp c.stack
  /-- The tokens that have not been matched. -/
  unread : m.unread = c.input
  /-- The variables of the user and the text of the last token. -/
  state : c.state = (m.user, m.ptext)
  /-- The tokens are no ends of the input. -/
  rest : ∀ t ∈ m.rest, t.1 ≠ eoi
  /-- Nothing comes behind the end of the input. -/
  rest_eoi : m.lookahead.1 = eoi → m.rest = []

namespace LlTables

variable {T : LlTables} {env : LlEnv} {code : LlCode V S} {A : LlAttrs V S} {m m' : LlVal V S}
  {c c' : Attributed.Config ℕ LlToken V (S × Lexeme)}

/-- The kind of a symbol: an action, a terminal of the table or a nonterminal. -/
lemma kind_scheme (x : ℕ) : (T.scheme A).kind x = (if IsAct x then Kind.action
    else if minTerm ≤ x ∧ x ≤ T.yyMaxterm then .terminal x else .nonterminal) := rfl

/-- Every right-hand side has its actions in their places. -/
lemma placed_next (hplaced : T.Placed A) {x : ℕ} {k : Option ℕ} {δ : List ℕ}
    (h : (T.scheme A).next x k = some δ) : Attributed.Placed (T.scheme A) δ := by
  obtain ⟨prod, -, hprod⟩ := Option.bind_eq_some_iff.mp h
  by_cases hfail : prod = llamaF
  · rw [if_pos hfail] at hprod
    cases hprod
  rw [if_neg hfail] at hprod
  obtain ⟨row, hrow, rfl⟩ := Option.map_eq_some_iff.mp hprod
  have hmem := List.mem_of_getElem? hrow
  have hsuffix : ∀ γ δ, (row.takeWhile (· ≠ 0)).reverse = γ ++ δ →
      Attributed.Placed (T.scheme A) δ := by
    intro γ δ hδ
    induction δ generalizing γ with
    | nil => trivial
    | cons a δ ih =>
      refine ⟨fun ha => hplaced row hmem γ a δ hδ ?_, ih (γ ++ [a])
        (by rw [hδ, List.append_assoc]; rfl)⟩
      by_contra hact
      rw [kind_scheme, if_neg hact] at ha
      split at ha <;> cases ha
  exact hsuffix [] _ rfl

/-- A round that executes an action does what the attributed parser does. -/
lemma follows_action (hcode : code.Refers A) (hm : m.Follows c) {a : ℕ} {stack : List ℕ}
    (hstack : m.stack = a :: stack) (hact : IsAct a) (harity : A.arity a ≤ stack.length)
    (h : T.valStep env code m = .inl m') : ∃ c', Attributed.Step (T.scheme A) env.yymaxdepth c c' ∧
    m'.Follows c' := by
  obtain ⟨γ, input, s⟩ := c
  obtain ⟨hsyms, hvalues, hunread, hs, hrest, heoi⟩ := hm
  dsimp only at hsyms hvalues hunread hs
  rcases γ with _ | ⟨⟨x, l, r⟩, γ⟩
  · rw [hstack] at hsyms
    cases hsyms
  obtain ⟨rfl, rfl⟩ : a = x ∧ stack = γ.map Cell.sym := List.cons.inj (hstack.symm.trans hsyms)
  obtain ⟨hcode, huser, hright, hbehind⟩ :=
    hcode a m.ptext m.user (m.vstack m.vsp).1 fun n => (m.vstack (m.vsp + n)).2
  obtain ⟨hcell, hbelow⟩ := hvalues
  rw [List.length_map] at harity
  have hread : ((List.range (A.arity a)).map fun i : ℕ => (m.vstack (m.vsp + (i + 1))).2) =
      (γ.take (A.arity a)).map Cell.right := by
    rw [← hbelow.rights harity]
    refine List.map_congr_left fun i _ => ?_
    rw [add_comm (i : ℤ) 1, add_assoc]
  have hleft : (m.vstack m.vsp).1 = l := by rw [hcell]
  rw [hread, hleft] at huser hright
  rw [hleft] at hcode hbehind
  unfold valStep at h
  rw [hstack] at h
  dsimp only at h
  rw [if_pos hact, hleft, if_neg (not_not.mpr hcode)] at h
  cases h
  have hlen : (A.run a m.ptext m.user l ((γ.take (A.arity a)).map Cell.right)).2.length =
      A.arity a := by
    rw [A.length_run, List.length_map, List.length_take, Nat.min_eq_left harity]
  have hholds :
      Holds (m.execute a (code a m.ptext m.user l fun n => (m.vstack (m.vsp + n)).2)).vstack
      (m.vsp + 1)
      (Attributed.setRights γ
      (A.run a m.ptext m.user l ((γ.take (A.arity a)).map Cell.right)).2) := by
    refine hbelow.setRights (hlen.le.trans harity) (fun i hi => if_neg (by omega)) (fun i hi => ?_)
      fun i hi => ?_
    · refine Eq.trans ?_ (hright i hi)
      exact congrArg (code a m.ptext m.user l fun n => (m.vstack (m.vsp + n)).2).right (by ring)
    · rw [hlen] at hi
      refine (hbehind (i - m.vsp) (Or.inr (by omega))).trans ?_
      rw [add_sub_cancel]
  have hstep : Attributed.Step (T.scheme A) env.yymaxdepth ⟨⟨a, l, r⟩ :: γ, input, s⟩ _ :=
    .action (if_pos hact)
  rw [hs] at hstep ⊢
  exact ⟨_, hstep, (map_sym_setRights γ _).symm, hholds, hunread, congrArg (·, m.ptext) huser.symm,
    hrest, heoi⟩

/-- A round without an error is a move of the library. -/
lemma exists_valMove (hcode : code.Refers A) (hm : m.Follows c)
    (hframed : Framed (T.scheme A) (c.stack.map Cell.sym)) (h : T.valStep env code m = .inl m')
    (herr : m'.yynerrs = m.yynerrs) : ∃ c', Attributed.Step (T.scheme A) env.yymaxdepth c c' ∧
    m'.Follows c' := by
  have hm' := hm
  obtain ⟨γ, input, s⟩ := c
  obtain ⟨hsyms, hvalues, hunread, hs, hrest, heoi⟩ := hm
  dsimp only at hsyms hvalues hunread hs
  rcases γ with _ | ⟨⟨x, l, r⟩, γ⟩
  · unfold valStep at h
    rw [hsyms] at h
    cases h
  have hstack : m.stack = x :: γ.map Cell.sym := hsyms
  by_cases hact : IsAct x
  · exact follows_action hcode hm' hstack hact (hframed.arity_le (if_pos hact)) h
  unfold valStep at h
  rw [hstack] at h
  dsimp only at h
  rw [if_neg hact] at h
  by_cases hterm : minTerm ≤ x ∧ x ≤ T.yyMaxterm
  · rw [if_pos hterm] at h
    by_cases hlook : x ≠ m.lookahead.1
    · rw [if_pos hlook] at h
      exact absurd (yynerrs_valError h) (by omega)
    rw [if_neg hlook] at h
    cases h
    have hlook : x = m.lookahead.1 := not_ne_iff.mp hlook
    have hne : m.lookahead.1 ≠ eoi := by
      have hmin : minTerm = 1 := rfl
      have hzero : eoi = 0 := rfl
      omega
    obtain ⟨hrest', heoi', hnext⟩ := yyNextText_spec hrest
    have hinput : input = m.lookahead :: m.rest := hunread.symm.trans (if_neg hne)
    have hkind : (T.scheme A).kind x = .terminal ((T.scheme A).code m.lookahead) := by
      rw [kind_scheme, if_neg hact, if_pos hterm, hlook]
      rfl
    rw [hinput]
    refine ⟨_, .terminal hkind, rfl, hvalues.2, hnext, ?_, hrest', heoi'⟩
    rw [hs]
    rfl
  rw [if_neg hterm] at h
  rcases hprod : T.yyNext x m.lookahead.1 with _ | prod
  · rw [hprod] at h
    cases h
  rw [hprod] at h
  dsimp only at h
  by_cases hfail : prod = llamaF
  · rw [if_pos hfail] at h
    exact absurd (yynerrs_valError h) (by omega)
  rw [if_neg hfail] at h
  rcases hrow : T.yyPushtab[prod.toNat]? with _ | row
  · rw [hrow] at h
    cases h
  rw [hrow] at h
  dsimp only at h
  rcases hpush :
      pushVals env.yymaxdepth (m.vstack m.vsp).2 row (γ.map Cell.sym) (m.vsp + 1) m.vstack with
    _ | ⟨stack', vsp', vstack'⟩
  · rw [hpush] at h
    cases h
  rw [hpush] at h
  cases h
  obtain ⟨hcell, hbelow⟩ := hvalues
  rw [show (m.vstack m.vsp).2 = r by rw [hcell]] at hpush
  obtain ⟨hroom, rfl, hholds⟩ := hbelow.pushVals hpush
  have hkind : (T.scheme A).kind x = .nonterminal := by rw [kind_scheme, if_neg hact, if_neg hterm]
  have hnext :
      (T.scheme A).next x (input.head?.map (T.scheme A).code) =
      some (row.takeWhile (· ≠ 0)).reverse := by
    rw [← hunread]
    refine next_eq x |>.trans ?_
    rw [hprod, Option.bind_some, if_neg hfail, hrow]
    rfl
  exact ⟨_, .replace hkind hnext hroom, rfl, hholds, hunread, hs, hrest, heoi⟩

/-! ## Runs -/

/-- A round that goes on is one that goes on without values. -/
lemma step_of_valStep (hcode : code.Refers A) (h : T.valStep env code m = .inl m') :
    T.step env.silent m.toLlRun = .inl m'.toLlRun := by
  have hproject : (T.valStep env code m).map LlVal.toLlRun LlValEnd.plain = _ :=
    valStep_project hcode m
  rw [h] at hproject
  rcases hstep : T.step env.silent m.toLlRun with s | s
  · rw [hstep] at hproject
    rw [show m'.toLlRun = s from Sum.inl.inj hproject]
  · rw [hstep] at hproject
    cases hproject

/-- A run without errors consists of moves of the attributed parser. -/
lemma exists_valMoves (hcode : code.Refers A) (hplaced : T.Placed A) (hm : m.Follows c)
    (hframed : Framed (T.scheme A) (c.stack.map Cell.sym)) (h : Reaches (T.valStep env code) m m')
    (herr : m'.yynerrs = m.yynerrs) :
    ∃ c', Relation.ReflTransGen (Attributed.Step (T.scheme A) env.yymaxdepth) c c' ∧
      m'.Follows c' := by
  have hrun : m.yynerrs ≤ m'.yynerrs ∧ (m'.yynerrs = m.yynerrs → ∃ c',
      Relation.ReflTransGen (Attributed.Step (T.scheme A) env.yymaxdepth) c c' ∧ m'.Follows c' ∧
        Framed (T.scheme A) (c'.stack.map Cell.sym)) := by
    refine h.invariant (fun m' => m.yynerrs ≤ m'.yynerrs ∧ (m'.yynerrs = m.yynerrs → ∃ c',
      Relation.ReflTransGen (Attributed.Step (T.scheme A) env.yymaxdepth) c c' ∧ m'.Follows c' ∧
        Framed (T.scheme A) (c'.stack.map Cell.sym))) ?_
        ⟨Nat.le_refl _, fun _ => ⟨c, .refl, hm, hframed⟩⟩
    rintro m₁ m₂ ⟨hle, hm₁⟩ hstep
    have hle' : m₁.yynerrs ≤ m₂.yynerrs := yynerrs_le (step_of_valStep hcode hstep)
    refine ⟨Nat.le_trans hle hle', fun he => ?_⟩
    obtain ⟨c₁, hmoves, hfollows, hframed₁⟩ := hm₁ (by omega)
    obtain ⟨c₂, hmove, hfollows'⟩ := exists_valMove hcode hfollows hframed₁ hstep (by omega)
    exact ⟨c₂, hmoves.tail hmove, hfollows', hmove.framed (fun _ _ _ => placed_next hplaced)
      hframed₁⟩
  obtain ⟨c', hmoves, hfollows, -⟩ := hrun.2 herr
  exact ⟨c', hmoves, hfollows⟩

/-- Only with an empty stack does the loop return 0. -/
lemma stack_of_valReturns (hcode : code.Refers A)
    (h : T.valStep env code m = .inr (.returns 0 m')) : m.stack = [] ∧ m' = m := by
  have hproject : (T.valStep env code m).map LlVal.toLlRun LlValEnd.plain = _ :=
    valStep_project hcode m
  rw [h] at hproject
  rcases hstep : T.step env.silent m.toLlRun with s | s
  · rw [hstep] at hproject
    cases hproject
  · rw [hstep] at hproject
    have hs : LlEnd.returns 0 m'.toLlRun = s := Sum.inr.inj hproject
    obtain ⟨hstack, -⟩ := stack_of_returns (hstep.trans (congrArg Sum.inr hs.symm))
    refine ⟨hstack, ?_⟩
    unfold valStep at h
    rw [hstack] at h
    cases h
    rfl

/-- The state in which the loop starts is the first one of the attributed parser. -/
lemma follows_valInit (yyInitLlama : V × V → S → (V × V) × S) (vstack : ℤ → V × V) (user : S)
    {input : List LlToken} (hinput : ∀ t ∈ input, t.1 ≠ eoi) :
    (T.valInit env yyInitLlama vstack user input).Follows
      ⟨cells (yyInitLlama (startCell env vstack) user).1.1
        [(T.yyStartState, (yyInitLlama (startCell env vstack) user).1.2)], input,
        ((yyInitLlama (startCell env vstack) user).2, [])⟩ := by
  obtain ⟨hrest, heoi, hnext⟩ := yyNextText_spec hinput
  exact ⟨rfl, ⟨Function.update_self .., trivial⟩, hnext, rfl, hrest, heoi⟩

/-- The start symbol is no action, so that the actions of the first stack stand where they
belong. -/
lemma placed_start (hstart : ¬ IsAct T.yyStartState) (r : V) :
    Attributed.Placed (T.scheme A) ([(T.yyStartState, r)].map Prod.fst) := by
  refine ⟨fun hkind => ?_, trivial⟩
  rw [kind_scheme, if_neg hstart] at hkind
  split at hkind <;> cases hkind

/-- A run that returns 0 without an error is an evaluation. -/
lemma evals_of_valParse (hcode : code.Refers A) (hplaced : T.Placed A)
    (hstart : ¬ IsAct T.yyStartState) (hdepth : 0 < env.yymaxdepth)
    {yyInitLlama : V × V → S → (V × V) × S} {vstack : ℤ → V × V} {user : S} {input : List LlToken}
    (hinput : ∀ t ∈ input, t.1 ≠ eoi) {n : ℕ}
    (hn : T.valParse env code yyInitLlama vstack user input n = some (.returns 0 m))
    (herr : m.yynerrs = 0) :
    Evals (T.scheme A) env.yymaxdepth (yyInitLlama (startCell env vstack) user).1.1
      [(T.yyStartState, (yyInitLlama (startCell env vstack) user).1.2)] input m.unread
      ((yyInitLlama (startCell env vstack) user).2, []) (m.user, m.ptext) := by
  unfold valParse at hn
  rw [if_neg (by omega)] at hn
  obtain ⟨m', hreach, hstop⟩ := run_spec hn
  obtain ⟨hstack, rfl⟩ := stack_of_valReturns hcode hstop
  obtain ⟨⟨γ, w, s⟩, hmoves, hfollows⟩ :=
    exists_valMoves hcode hplaced (follows_valInit yyInitLlama vstack user hinput)
    (.cons (placed_start hstart (yyInitLlama (startCell env vstack) user).1.2) .nil) hreach herr
  obtain rfl : γ = [] := List.map_eq_nil_iff.mp (hfollows.stack.symm.trans hstack)
  obtain rfl : m.unread = w := hfollows.unread
  obtain rfl : s = (m.user, m.ptext) := hfollows.state
  exact (reaches_iff_evals (fun _ _ _ => placed_next hplaced) (placed_start hstart _)).mp hmoves

/-- When the code of every action returns 0 and refers only to symbols behind it, the parser returns
0 without an error exactly when the input can be evaluated from the start state, and then the
variables of the user are those of the evaluation. -/
theorem evaluates_iff (hcode : code.Refers A) (hplaced : T.Placed A)
    (hstart : ¬ IsAct T.yyStartState) (hdepth : 0 < env.yymaxdepth)
    {yyInitLlama : V × V → S → (V × V) × S} {vstack : ℤ → V × V} {user user' : S}
    {input v : List LlToken} (hinput : ∀ t ∈ input, t.1 ≠ eoi) :
    (∃ n m, T.valParse env code yyInitLlama vstack user input n = some (.returns 0 m) ∧
    m.yynerrs = 0 ∧ m.unread = v ∧
      m.user = user') ↔
      ∃ text, Evals (T.scheme A) env.yymaxdepth (yyInitLlama (startCell env vstack) user).1.1
        [(T.yyStartState, (yyInitLlama (startCell env vstack) user).1.2)] input v
        ((yyInitLlama (startCell env vstack) user).2, []) (user', text) := by
  have hplaced' : ∀ x k δ, (T.scheme A).next x k = some δ → Attributed.Placed (T.scheme A) δ :=
    fun _ _ _ => placed_next hplaced
  constructor
  · rintro ⟨n, m, hn, herr, rfl, rfl⟩
    exact ⟨m.ptext, evals_of_valParse hcode hplaced hstart hdepth hinput hn herr⟩
  · rintro ⟨text, hevals⟩
    -- without values the parser returns 0, so with values it does too, and its result is the only
    -- one
    have hmoves := (reaches_iff_evals hplaced' (placed_start hstart _)).mpr hevals
    obtain ⟨es, hes⟩ := reaches_erase hmoves []
    obtain ⟨s, hreach, hfollows, herr⟩ : ∃ s, Reaches (T.step env.silent) (T.init input) s ∧
        s.Follows ⟨[], v, es⟩ ∧ s.yynerrs = 0 :=
          exists_reaches (fun _ _ => rfl) (follows_init hinput) hes
    have hstop : T.step env.silent s = .inr (.returns 0 s) := by
      unfold step
      rw [hfollows.stack]
    obtain ⟨n, hn⟩ := hreach.run hstop
    have hparse : T.parse env.silent input n = some (.returns 0 s) :=
      (if_neg (by simpa using hdepth.ne')).trans hn
    have hproject : (T.valParse env code yyInitLlama vstack user input n).map LlValEnd.plain = _ :=
      valParse_project hcode yyInitLlama vstack user input n
    rw [hparse] at hproject
    obtain ⟨r, hr, hplain⟩ := Option.map_eq_some_iff.mp hproject
    cases r with
    | overflow | outside => cases hplain
    | returns k m =>
      obtain ⟨rfl, rfl⟩ := LlEnd.returns.inj hplain
      have hevals' := evals_of_valParse hcode hplaced hstart hdepth hinput hr herr
      have hmoves' := (reaches_iff_evals hplaced' (placed_start hstart _)).mpr hevals'
      obtain ⟨hunread, hstate⟩ := unique_of_reaches hmoves' hmoves
      exact ⟨n, m, hr, herr, hunread, congrArg Prod.fst hstate⟩

end LlTables

/-- Tables for `s : { $1 = $$ + 5; } t ;` and `t : X { result = $$; } ;`. -/
def inheritTables : LlTables where
  yyMaxterm := 1
  yyStartState := 256
  uncompressed := true
  yyd := [some [255, 0], some [255, 1]]
  yyPushtab := [[257, 512, 0], [513, 1, 0]]
  yySynch := [-1]

/-- The code of the actions for `inheritTables`, which pass a value to the right. -/
def inheritCode : LlCode ℤ ℤ := fun a _ s l r =>
  if a = 512 then ⟨0, s, l, Function.update r 1 (l + 5)⟩ else ⟨0, l, l, r⟩

/-- What they do to the value behind them and to `result`. -/
def inheritRun (a : ℕ) (s l : ℤ) (rs : List ℤ) : ℤ × List ℤ :=
  if a = 512 then (s, rs.map fun _ => l + 5) else (l, rs)

/-- An action for `inheritTables` leaves as many values as there were. -/
lemma length_inheritRun (a : ℕ) (_ : Lexeme) (s l : ℤ) (rs : List ℤ) :
    (inheritRun a s l rs).2.length = rs.length := by
  unfold inheritRun
  split <;> simp

/-- The actions of `inheritTables`, as functions of values. -/
def inheritAttrs : LlAttrs ℤ ℤ where
  arity a := if a = 512 then 1 else 0
  run a _ s l rs := inheritRun a s l rs
  length_run := length_inheritRun

/-- The code of these actions refers only to the symbols behind them. -/
lemma refers_inheritCode : inheritCode.Refers inheritAttrs := by
  intro a text s l r
  by_cases ha : a = 512
  · subst ha
    refine ⟨rfl, rfl, ?_, ?_⟩
    · intro i hi
      obtain rfl : i = 0 := Nat.lt_one_iff.mp hi
      rfl
    · intro n hn
      have harity : inheritAttrs.arity 512 = 1 := rfl
      rw [harity] at hn
      exact Function.update_of_ne (by omega) ..
  · simp [inheritCode, inheritAttrs, inheritRun, ha]

/-- The actions of `inheritTables` stand in front of the symbols that they refer to. -/
lemma placed_inheritTables : inheritTables.Placed inheritAttrs := by
  intro row hrow γ a δ heq hact
  have hrows : row = [257, 512, 0] ∨ row = [513, 1, 0] := by simpa [inheritTables] using hrow
  have hcases : ∀ x y : ℕ, [x, y] = γ ++ a :: δ → ¬ IsAct y → a = x ∧ δ = [y] := by
    intro x y h hy
    rcases γ with _ | ⟨z, _ | ⟨z', γ⟩⟩
    · obtain ⟨rfl, rfl⟩ := List.cons.inj h
      exact ⟨rfl, rfl⟩
    · obtain ⟨rfl, -⟩ := List.cons.inj (List.cons.inj h).2
      exact absurd hact hy
    · simp at h
  rcases hrows with rfl | rfl
  · obtain ⟨rfl, rfl⟩ := hcases 512 257 heq (by decide)
    rfl
  · rcases γ with _ | ⟨z, _ | ⟨z', γ⟩⟩
    · obtain ⟨rfl, -⟩ := List.cons.inj (show [1, 513] = a :: δ from heq)
      exact absurd hact (by decide)
    · obtain ⟨rfl, rfl⟩ := List.cons.inj (List.cons.inj (show [1, 513] = z :: a :: δ from heq)).2
      rfl
    · simp at heq

/-- The parser runs on the token `X`, with 7 behind the stack. -/
theorem evaluates_iff_inheritTables :
    ∃ text, Evals (inheritTables.scheme inheritAttrs) 128 7 [(256, 7)] [(1, ['X'])] [] (0, [])
      (12, text) := by
  have hrun :
      ∃ n m, inheritTables.valParse ⟨128, 25, ∅, fun _ _ => 0⟩ inheritCode (fun cell s => (cell, s))
        (fun _ => (7, 7)) 0 [(1, ['X'])] n = some (.returns 0 m) ∧ m.yynerrs = 0 ∧ m.unread = [] ∧
        m.user = 12 :=
    ⟨6, _, rfl, rfl, rfl, rfl⟩
  exact (LlTables.evaluates_iff refers_inheritCode placed_inheritTables (by decide)
    (Nat.succ_pos 127) (by decide)).mp hrun

end Parser
