import Cgkits.Lib.Denotation
import Cgkits.Parser.Acts

/-!
# Optional and repeated groups (`acts.c`)

`startOpt` and `endOpt` read a `[B]` or a `[B]*` on a right-hand side: the group becomes a
nonterminal of its own with two productions, and the right-hand side around it waits on the stack.
The functions are compiled twice.  For llama they are those of `Cgkits.Parser.Acts`; occs reports no
left recursion, gives a production the level of its last terminal, and moves the symbol that repeats
a group to the front.

This module has the functions for both programs and what each of them does to the table and to the
productions.  The specifications say at the same time that a function never follows a null pointer:
`Runs x P` leaves only the fatal errors that `lerror` reports.
-/

namespace Parser

/-! ## The two programs -/

/-- The program that reads the specification, which decides how repeated groups are written. -/
inductive Tool
  /-- llama, which prints a top-down parser. -/
  | llama
  /-- occs, with the levels that its directives have put into `g_precedence`. -/
  | occs (level : ℕ → ℕ)

/-- `memmove` and the assignment behind it in `end_opt`: the last symbol becomes the first. -/
def rotate (rhs : List ℕ) : List ℕ :=
  match rhs[rhs.length - 1]? with
  | none => rhs
  | some p => p :: rhs.take (rhs.length - 1)

/-- The current production gets another right-hand side and level. -/
def Acts.editRhs (st : Acts) (f : Production → Production) : Acts :=
  { st with prods := st.prods.map fun q => if some q.num = (st.stack st.sp).rhs then f q else q }

namespace Tool

/-- The second part of `add_to_rhs`: the symbol is added to the current production. -/
def appendRhs : Tool → ℕ → Acts → Except ActsFault Acts
  | llama, p, st => Parser.appendRhs p st
  | occs level, p, st =>
    match st.prods.find? fun prod => some prod.num = (st.stack st.sp).rhs with
    | none => .error .crash
    | some prod =>
      if maxRhs ≤ prod.rhs.length then .error .rhs
      else .ok (st.editRhs fun q =>
        { q with rhs := q.rhs ++ [p], prec := if IsTerm p then level p else q.prec })

/-- `add_to_rhs`: find or make the symbol and append it to the current right-hand side. -/
def addToRhs (tool : Tool) (object : Lexeme) (isAnAction : Bool) (st : Acts) :
    Except ActsFault Acts := do
  let r ← getObject object isAnAction st
  match r.2 with
  | none => throw .crash
  | some p => tool.appendRhs p (r.1.setUsed p)

/-- `prec`.  A name that occs does not know, or that is no terminal, is an error of the `%prec` as
well. -/
def prec : Tool → Lexeme → Acts → Acts
  | llama, name, st => st.lerror (.prec name)
  | occs level, name, st =>
    if name.head?.any Char.isDigit then
      st.editRhs fun q => { q with prec := Nat.ofDigitChars 10 (name.takeWhile Char.isDigit) 0 }
    else
      match st.find name with
      | none => st.lerror (.prec name)
      | some p =>
        if IsTerm p.val then st.editRhs fun q => { q with prec := level p.val } else
          st.lerror (.prec name)

/-- The symbol for the option in its own right-hand side, for a `]*`. -/
def repeatOpt : Tool → Bool → Lexeme → Acts → Except ActsFault Acts
  | llama, star, name, st => Parser.repeatOpt star name st
  | occs level, star, name, st =>
    if star then do
      let st ← (occs level).addToRhs name false st
      return st.editRhs fun q => { q with rhs := rotate q.rhs }
    else .ok st

/-- `end_opt`: close the group, with a production for its repetition and an empty one. -/
def endOpt (tool : Tool) (star : Bool) (st : Acts) : Except ActsFault Acts :=
  match st.symtab.find? fun s => some s.val = (st.stack st.sp).lhs with
  | none => .error .crash
  | some lhs => do
    let st ← tool.repeatOpt star lhs.name st
    tool.addToRhs lhs.name false { st with sp := st.sp + 1 }

/-- `rhs`: read the elements of a right-hand side. -/
def read (tool : Tool) : Rhs → Acts → Except ActsFault Acts
  | .nil, st => .ok st
  | .name object rest, st => do tool.read rest (← tool.addToRhs object false st)
  | .action object rest, st => do tool.read rest (← tool.addToRhs object true st)
  | .prec text rest, st => tool.read rest (tool.prec text st)
  | .opt body star rest, st => do
    let st ← startOpt st
    let st ← tool.read body st
    let st ← tool.endOpt star st
    tool.read rest st

/-- `right_sides`: read one alternative into a new production. -/
def rightSide (tool : Tool) (st : Acts) (r : Rhs) : Except ActsFault Acts :=
  do tool.read r (← newRhs st)

/-- What llama reads is what `Rhs.read` says. -/
lemma llama_read (r : Rhs) : llama.read r = r.read := by
  induction r with
  | nil => rfl
  | name object rest ih =>
    funext st
    rw [read, ih, Rhs.read]
    rfl
  | action object rest ih =>
    funext st
    rw [read, ih, Rhs.read]
    rfl
  | prec text rest ih =>
    funext st
    rw [read, ih, Rhs.read]
    rfl
  | opt body star rest ihbody ihrest =>
    funext st
    rw [read, ihbody, ihrest, Rhs.read]
    rfl

end Tool

/-! ## Computations that end -/

/-- The computation ends with a result that has the property, or with a fatal error that is
reported. -/
def Runs {α : Type} (x : Except ActsFault α) (P : α → Prop) : Prop :=
  match x with
  | .ok a => P a
  | .error e => e ≠ .crash

section Runs

variable {α β : Type} {x : Except ActsFault α} {P Q : α → Prop}

/-- A computation with a result runs well if the result has the property. -/
@[simp] lemma runs_ok {a : α} : Runs (.ok a) P ↔ P a := Iff.rfl

/-- A computation with a fatal error runs well unless it crashes. -/
@[simp] lemma runs_error {e : ActsFault} : Runs (.error e) P ↔ e ≠ .crash := Iff.rfl

/-- The rule for one computation after another. -/
lemma Runs.bind {f : α → Except ActsFault β} {Q : β → Prop} (hx : Runs x P)
    (hf : ∀ a, P a → Runs (f a) Q) : Runs (x >>= f) Q := by
  rcases x with e | a
  · exact hx
  · exact hf a hx

/-- The property of the result may be weakened. -/
lemma Runs.mono (hx : Runs x P) (h : ∀ a, P a → Q a) : Runs x Q := by
  rcases x with e | a
  · exact hx
  · exact h a hx

/-- The result of a computation that runs well has the property. -/
lemma Runs.of_eq_ok {a : α} (hx : Runs x P) (h : x = .ok a) : P a := by
  subst h
  exact hx

end Runs

/-! ## The texts of the tokens -/

/-- The text of a `NAME` or a `FIELD`: the lexer takes no blank and no brace for its first
character. -/
def IsName (object : Lexeme) : Prop := object.head? ≠ some ' ' ∧ object.head? ≠ some '{'

/-- The text of an `ACTION`, which starts with a brace. -/
def IsAction (object : Lexeme) : Prop := object.head? = some '{'

/-- The text of an element of a right-hand side: a name, or an action in braces. -/
def IsObject : Bool → Lexeme → Prop
  | false, object => IsName object
  | true, object => IsAction object

instance (object : Lexeme) : Decidable (IsName object) := inferInstanceAs (Decidable (_ ∧ _))

instance (object : Lexeme) : Decidable (IsAction object) := inferInstanceAs (Decidable (_ = _))

/-- The texts on a right-hand side are those of their tokens. -/
def Rhs.Lexed : Rhs → Prop
  | .nil => True
  | .name object rest => IsName object ∧ rest.Lexed
  | .action object rest => IsAction object ∧ rest.Lexed
  | .prec _ rest => rest.Lexed
  | .opt body _ rest => body.Lexed ∧ rest.Lexed

/-- How deep the groups of a right-hand side are nested. -/
def Rhs.depth : Rhs → ℕ
  | .nil => 0
  | .name _ rest => rest.depth
  | .action _ rest => rest.depth
  | .prec _ rest => rest.depth
  | .opt body _ rest => max (body.depth + 1) rest.depth

/-- The first character stays when a name is cut off. -/
lemma head?_take_nameMax (name : Lexeme) : (name.take nameMax).head? = name.head? := by
  cases name <;> rfl

/-- The name of an option starts with a blank. -/
@[simp] lemma head?_optName (n : ℕ) : (optName n).head? = some ' ' := rfl

/-- The name of an action starts with a brace. -/
@[simp] lemma head?_actName (n : ℕ) : (actName n).head? = some '{' := rfl

/-- The names of different options are different. -/
lemma optName_injective : Function.Injective optName := by
  intro m n h
  have hvalue : ∀ k, Nat.ofDigitChars 10 (optName k).tail 0 = k := by
    intro k
    rw [optName, List.tail_cons, List.leftpad, Nat.ofDigitChars_append,
      Nat.ofDigitChars_replicate_zero, mul_zero, Nat.ofDigitChars_ten_toDigits]
  rw [← hvalue m, h, hvalue n]

/-- The name of an option is short enough for the table. -/
lemma take_optName {n : ℕ} (h : n < 10 ^ 6) : (optName n).take nameMax = optName n := by
  have hlen : (Nat.toDigits 10 n).length ≤ 6 :=
    (Nat.length_toDigits_le_iff (by omega) (by omega)).mpr h
  refine List.take_of_length_le ?_
  rw [optName, List.length_cons, List.length_leftpad]
  have hmax : nameMax = 255 := rfl
  omega

/-! ## The table -/

namespace Acts

/-- The symbols of the table with their names, the last one that was made first. -/
def names (st : Acts) : List (ℕ × Lexeme) := st.symtab.map fun e => (e.val, e.name)

/-- The production with the given number, left-hand side and right-hand side is recorded. -/
def Has (st : Acts) (k A : ℕ) (γ : List ℕ) : Prop :=
  ∃ q ∈ st.prods, q.num = k ∧ q.lhs = A ∧ q.rhs = γ

/-- What the functions keep: a value belongs to one symbol, the first character of a name tells
options, actions and other symbols apart, options have different names, and productions have
different numbers. -/
structure Sound (st : Acts) : Prop where
  /-- Terminals fit below `maxTerm`. -/
  currterm_le : st.currterm ≤ maxTerm
  /-- Nonterminals fit below `maxNonterm`. -/
  currnonterm_le : st.currnonterm ≤ maxNonterm
  /-- Actions are numbered from `minAct`. -/
  le_curract : minAct ≤ st.curract + 1
  /-- The symbols have values that have been given out. -/
  isSymbol : ∀ x ∈ st.names, st.IsSymbol x.1
  /-- No two symbols share a value. -/
  vals_nodup : (st.names.map Prod.fst).Nodup
  /-- The names fit into the table. -/
  length_le : ∀ x ∈ st.names, x.2.length ≤ nameMax
  /-- Actions have a brace in front. -/
  act_iff : ∀ x ∈ st.names, x.2.head? = some '{' ↔ IsAct x.1
  /-- Options have a blank in front. -/
  opt : ∀ x ∈ st.names, x.2.head? = some ' ' → IsNonterm x.1 ∧ ∃ n < st.num, x.2 = optName n
  /-- No two options share a name. -/
  opt_inj : ∀ x ∈ st.names, ∀ y ∈ st.names, x.2.head? = some ' ' → x.2 = y.2 → x.1 = y.1
  /-- Every option is a nonterminal. -/
  num_le : st.num + minNonterm ≤ st.currnonterm + 1
  /-- No two productions share a number. -/
  nums_nodup : (st.prods.map Production.num).Nodup
  /-- The numbers of the productions have been given out. -/
  num_lt : ∀ q ∈ st.prods, q.num < st.numProductons
  /-- Left-hand sides are nonterminals of the table. -/
  lhs_mem : ∀ q ∈ st.prods, st.IsSymbolNonterm q.lhs

/-- The table has new symbols and nothing else happens. -/
structure Extends (st st' : Acts) : Prop where
  /-- The symbols stay in the table. -/
  names : st.names ⊆ st'.names
  /-- New nonterminals may be made. -/
  currnonterm_le : st.currnonterm ≤ st'.currnonterm
  /-- The productions stay as they are. -/
  prods : st'.prods = st.prods
  /-- The number of the productions stays. -/
  numProductons : st'.numProductons = st.numProductons
  /-- The stack pointer stays where it is. -/
  sp : st'.sp = st.sp
  /-- The slots of the stack stay as they are. -/
  stack : st'.stack = st.stack

/-- The right-hand side of the production `k` is changed by `f` and nothing else happens. -/
structure Edited (k : ℕ) (f : List ℕ → List ℕ) (st st' : Acts) : Prop where
  /-- The symbols stay as they are. -/
  names : st'.names = st.names
  /-- No terminal is made by the edit. -/
  currterm : st'.currterm = st.currterm
  /-- No nonterminal is made by the edit. -/
  currnonterm : st'.currnonterm = st.currnonterm
  /-- No action is made by the edit. -/
  curract : st'.curract = st.curract
  /-- No option is started by the edit. -/
  num : st'.num = st.num
  /-- No production is made by the edit. -/
  numProductons : st'.numProductons = st.numProductons
  /-- The stack pointer stays where it is. -/
  sp : st'.sp = st.sp
  /-- The slots of the stack stay as they are. -/
  stack : st'.stack = st.stack
  /-- The other productions stay. -/
  prods : ∃ F : Production → Production, st'.prods = st.prods.map F ∧
    ∀ q, (F q).num = q.num ∧ (F q).lhs = q.lhs ∧ (F q).rhs = if q.num = k then f q.rhs else q.rhs

/-- The production `k` of `A` is the current one and has the right-hand side `γ`. -/
structure Building (st : Acts) (k A : ℕ) (γ : List ℕ) : Prop where
  /-- The table is sound while the production is built. -/
  sound : st.Sound
  /-- It is the current production. -/
  top : st.stack st.sp = ⟨some A, some k⟩
  /-- The right-hand side so far is `γ`. -/
  has : st.Has k A γ

variable {st st' st'' : Acts} {name : Lexeme} {k A B j p : ℕ} {γ δ : List ℕ}
  {f f' : List ℕ → List ℕ}

/-- A symbol that is found has the name in the table. -/
lemma find_some {e : Entry} (h : st.find name = some e) : (e.val, name) ∈ st.names := by
  have hname : e.name = name := by simpa using List.find?_some h
  exact List.mem_map.mpr ⟨e, List.mem_of_find?_eq_some h, by rw [hname]⟩

/-- A name that is not found is the name of no symbol. -/
lemma find_none (h : st.find name = none) {x : ℕ × Lexeme} (hx : x ∈ st.names) : x.2 ≠ name := by
  obtain ⟨e, he, rfl⟩ := List.mem_map.mp hx
  exact fun heq => (List.find?_eq_none.mp h) e he (by simpa using heq)

/-- A symbol that is in the table is found, and a symbol with its name is. -/
lemma exists_find (h : (p, name) ∈ st.names) : ∃ e, st.find name = some e := by
  rcases hfind : st.find name with - | e
  · exact absurd rfl (find_none hfind h)
  · exact ⟨e, rfl⟩

/-- Marks on the entries do not change the symbols and their names. -/
lemma names_map {g : Entry → Entry} (hg : ∀ e, (g e).val = e.val ∧ (g e).name = e.name) :
    (st.symtab.map g).map (fun e => (e.val, e.name)) = st.names := by
  rw [List.map_map]
  exact List.map_congr_left fun e _ => by simp [(hg e).1, (hg e).2]

/-- Marking a symbol as used does not change the names. -/
@[simp] lemma names_setUsed (p : ℕ) : (st.setUsed p).names = st.names :=
  names_map fun e => by split <;> exact ⟨rfl, rfl⟩

/-- Marking a symbol as defined does not change the names. -/
@[simp] lemma names_setSet (p : ℕ) : (st.setSet p).names = st.names :=
  names_map fun e => by split <;> exact ⟨rfl, rfl⟩

/-- The table is sound when it has the same symbols, counters and productions. -/
lemma Sound.congr (h : st.Sound) (hnames : st'.names = st.names)
    (hterm : st'.currterm = st.currterm) (hnon : st'.currnonterm = st.currnonterm)
    (hact : st'.curract = st.curract) (hnum : st'.num = st.num) (hprods : st'.prods = st.prods)
    (hcount : st'.numProductons = st.numProductons) : st'.Sound where
  currterm_le := hterm ▸ h.currterm_le
  currnonterm_le := hnon ▸ h.currnonterm_le
  le_curract := hact ▸ h.le_curract
  isSymbol x hx := (h.isSymbol x (hnames ▸ hx)).mono hterm.ge hnon.ge hact.ge
  vals_nodup := hnames ▸ h.vals_nodup
  length_le x hx := h.length_le x (hnames ▸ hx)
  act_iff x hx := h.act_iff x (hnames ▸ hx)
  opt x hx := hnum ▸ h.opt x (hnames ▸ hx)
  opt_inj x hx y hy := h.opt_inj x (hnames ▸ hx) y (hnames ▸ hy)
  num_le := by rw [hnum, hnon]; exact h.num_le
  nums_nodup := hprods ▸ h.nums_nodup
  num_lt q hq := hcount ▸ h.num_lt q (hprods ▸ hq)
  lhs_mem q hq := (h.lhs_mem q (hprods ▸ hq)).mono hnon.ge

/-- A production is known by its number in a sound table. -/
lemma Sound.has_unique (h : st.Sound) (hA : st.Has k A γ) (hB : st.Has k B δ) : A = B ∧ γ = δ := by
  obtain ⟨q, hq, hnum, rfl, rfl⟩ := hA
  obtain ⟨q', hq', hnum', rfl, rfl⟩ := hB
  obtain rfl : q = q' := List.inj_on_of_nodup_map h.nums_nodup hq hq' (hnum.trans hnum'.symm)
  exact ⟨rfl, rfl⟩

/-- The number of a production of the table has been given out. -/
lemma Sound.lt_of_has (h : st.Sound) (hA : st.Has k A γ) : k < st.numProductons := by
  obtain ⟨q, hq, rfl, -, -⟩ := hA
  exact h.num_lt q hq

/-- The left-hand side of a production is a nonterminal of the table. -/
lemma Sound.le_of_has (h : st.Sound) (hA : st.Has k A γ) : A ≤ st.currnonterm := by
  obtain ⟨q, hq, -, rfl, -⟩ := hA
  exact (h.lhs_mem q hq).2

/-- A symbol of the table is known by its value. -/
lemma Sound.name_unique (h : st.Sound) {x y : ℕ × Lexeme} (hx : x ∈ st.names) (hy : y ∈ st.names)
    (heq : x.1 = y.1) : x = y :=
  List.inj_on_of_nodup_map h.vals_nodup hx hy heq

namespace Edited

/-- The productions behind a change are those in front of it, with the one changed. -/
lemma has_iff (h : Edited k f st st') :
    st'.Has j B δ ↔ ∃ δ₀, st.Has j B δ₀ ∧ δ = if j = k then f δ₀ else δ₀ := by
  obtain ⟨F, hF, hq⟩ := h.prods
  unfold Has
  rw [hF]
  constructor
  · rintro ⟨q', hq', rfl, rfl, rfl⟩
    obtain ⟨q, hmem, rfl⟩ := List.mem_map.mp hq'
    obtain ⟨hnum, hlhs, hrhs⟩ := hq q
    rw [hnum, hlhs, hrhs]
    exact ⟨q.rhs, ⟨q, hmem, rfl, rfl, rfl⟩, rfl⟩
  · rintro ⟨-, ⟨q, hmem, rfl, rfl, rfl⟩, rfl⟩
    exact ⟨F q, List.mem_map_of_mem hmem, hq q⟩

/-- A change of one production keeps the table sound. -/
lemma sound (h : Edited k f st st') (hs : st.Sound) : st'.Sound := by
  obtain ⟨F, hF, hq⟩ := h.prods
  have hbase : ({ st' with prods := st.prods } : Acts).Sound :=
    hs.congr h.names h.currterm h.currnonterm h.curract h.num rfl h.numProductons
  refine { hbase with nums_nodup := ?_, num_lt := ?_, lhs_mem := ?_ }
  · rw [hF, List.map_map]
    have hnums : st.prods.map (Production.num ∘ F) = st.prods.map Production.num :=
      List.map_congr_left fun q _ => (hq q).1
    rw [hnums]
    exact hs.nums_nodup
  · intro q' hq'
    rw [hF] at hq'
    obtain ⟨q, hmem, rfl⟩ := List.mem_map.mp hq'
    rw [(hq q).1]
    exact hbase.num_lt q hmem
  · intro q' hq'
    rw [hF] at hq'
    obtain ⟨q, hmem, rfl⟩ := List.mem_map.mp hq'
    rw [(hq q).2.1]
    exact hbase.lhs_mem q hmem

/-- Two changes of the same production are one change. -/
lemma trans (h : Edited k f st st') (h' : Edited k f' st' st'') : Edited k (f' ∘ f) st st'' where
  names := h'.names.trans h.names
  currterm := h'.currterm.trans h.currterm
  currnonterm := h'.currnonterm.trans h.currnonterm
  curract := h'.curract.trans h.curract
  num := h'.num.trans h.num
  numProductons := h'.numProductons.trans h.numProductons
  sp := h'.sp.trans h.sp
  stack := h'.stack.trans h.stack
  prods := by
    obtain ⟨F, hF, hq⟩ := h.prods
    obtain ⟨F', hF', hq'⟩ := h'.prods
    refine ⟨F' ∘ F, by rw [hF', hF, List.map_map], fun q => ?_⟩
    obtain ⟨hnum, hlhs, hrhs⟩ := hq q
    obtain ⟨hnum', hlhs', hrhs'⟩ := hq' (F q)
    refine ⟨hnum'.trans hnum, hlhs'.trans hlhs, ?_⟩
    rw [Function.comp_apply, hrhs', hnum, hrhs]
    split <;> rfl

/-- The current production is the one that has been changed. -/
lemma building (h : Edited k f st st') (hb : st.Building k A γ) : st'.Building k A (f γ) where
  sound := h.sound hb.sound
  top := by rw [h.stack, h.sp, hb.top]
  has := h.has_iff.mpr ⟨γ, hb.has, (if_pos rfl).symm⟩

end Edited

/-- Editing the production that is on top of the stack is a change of this production. -/
lemma edited_editRhs (htop : (st.stack st.sp).rhs = some k) {F : Production → Production}
    (hF : ∀ q, (F q).num = q.num ∧ (F q).lhs = q.lhs ∧ (F q).rhs = f q.rhs) :
    Edited k f st (st.editRhs F) where
  names := rfl
  currterm := rfl
  currnonterm := rfl
  curract := rfl
  num := rfl
  numProductons := rfl
  sp := rfl
  stack := rfl
  prods := by
    refine ⟨_, rfl, fun q => ?_⟩
    by_cases hnum : q.num = k
    · simpa [htop, hnum] using hF q
    · simp [htop, hnum]

/-! ## New symbols -/

/-- A table extends itself, with no symbol made. -/
lemma Extends.refl (st : Acts) : Extends st st := ⟨List.Subset.refl _, le_rfl, rfl, rfl, rfl, rfl⟩

/-- A new symbol keeps the table sound if its value and its name are new. -/
lemma Sound.cons (h : st.Sound) {x : ℕ × Lexeme} (hnames : st'.names = x :: st.names)
    (hterm : st.currterm ≤ st'.currterm) (hterm' : st'.currterm ≤ maxTerm)
    (hnon : st.currnonterm ≤ st'.currnonterm) (hnon' : st'.currnonterm ≤ maxNonterm)
    (hact : st.curract ≤ st'.curract) (hnum : st.num ≤ st'.num)
    (hnum' : st'.num + minNonterm ≤ st'.currnonterm + 1) (hprods : st'.prods = st.prods)
    (hcount : st'.numProductons = st.numProductons) (hsym : st'.IsSymbol x.1)
    (hfresh : ∀ y ∈ st.names, y.1 ≠ x.1) (hlen : x.2.length ≤ nameMax)
    (hbrace : x.2.head? = some '{' ↔ IsAct x.1) (hblank : x.2.head? = some ' ' →
      (IsNonterm x.1 ∧ ∃ n < st'.num, x.2 = optName n) ∧ ∀ y ∈ st.names, y.2 ≠ x.2) :
      st'.Sound where
  currterm_le := hterm'
  currnonterm_le := hnon'
  le_curract := h.le_curract.trans (Nat.succ_le_succ hact)
  isSymbol := by
    rw [hnames]
    exact List.forall_mem_cons.mpr ⟨hsym, fun y hy => (h.isSymbol y hy).mono hterm hnon hact⟩
  vals_nodup := by
    rw [hnames, List.map_cons, List.nodup_cons]
    refine ⟨fun hmem => ?_, h.vals_nodup⟩
    obtain ⟨y, hy, heq⟩ := List.mem_map.mp hmem
    exact hfresh y hy heq
  length_le := by
    rw [hnames]
    exact List.forall_mem_cons.mpr ⟨hlen, h.length_le⟩
  act_iff := by
    rw [hnames]
    exact List.forall_mem_cons.mpr ⟨hbrace, h.act_iff⟩
  opt := by
    rw [hnames]
    refine List.forall_mem_cons.mpr ⟨fun hx => (hblank hx).1, fun y hy hy' => ?_⟩
    obtain ⟨hy₁, n, hn, heq⟩ := h.opt y hy hy'
    exact ⟨hy₁, n, hn.trans_le hnum, heq⟩
  opt_inj := by
    rw [hnames]
    intro y hy z hz hy' heq
    rcases List.mem_cons.mp hy with rfl | hy₁ <;> rcases List.mem_cons.mp hz with rfl | hz₁
    · rfl
    · exact absurd heq.symm ((hblank hy').2 z hz₁)
    · exact absurd heq ((hblank (heq ▸ hy')).2 y hy₁)
    · exact h.opt_inj y hy₁ z hz₁ hy' heq
  num_le := hnum'
  nums_nodup := hprods ▸ h.nums_nodup
  num_lt q hq := hcount ▸ h.num_lt q (hprods ▸ hq)
  lhs_mem q hq := (h.lhs_mem q (hprods ▸ hq)).mono hnon

/-- The next value of a nonterminal is not the value of a symbol of the table. -/
lemma Sound.ne_nonterm (h : st.Sound) (hlt : st.currnonterm < maxNonterm) {y : ℕ × Lexeme}
    (hy : y ∈ st.names) : y.1 ≠ st.currnonterm + 1 := by
  have hterm := h.currterm_le
  have hnum := h.num_le
  have hsym := h.isSymbol y hy
  have hmax : maxTerm = 254 := rfl
  have hmax' : maxNonterm = 511 := rfl
  have hmin : minNonterm = 256 := rfl
  have hact : minAct = 512 := rfl
  unfold IsSymbol at hsym
  omega

/-- The next value of an action is not the value of a symbol of the table. -/
lemma Sound.ne_act (h : st.Sound) {y : ℕ × Lexeme} (hy : y ∈ st.names) : y.1 ≠ st.curract + 1 := by
  have hterm := h.currterm_le
  have hnon := h.currnonterm_le
  have hcurr := h.le_curract
  have hsym := h.isSymbol y hy
  have hmax : maxTerm = 254 := rfl
  have hmax' : maxNonterm = 511 := rfl
  have hact : minAct = 512 := rfl
  unfold IsSymbol at hsym
  omega

/-- The next value of a nonterminal is the value of a nonterminal. -/
lemma Sound.isNonterm_succ (h : st.Sound) (hlt : st.currnonterm < maxNonterm) :
    IsNonterm (st.currnonterm + 1) :=
  ⟨(Nat.le_add_left _ _).trans h.num_le, hlt⟩

/-- A new nonterminal for a name keeps the table sound. -/
lemma Sound.addNonterm (h : st.Sound) (hlt : st.currnonterm < maxNonterm) (hname : IsName name) :
    (st.addNonterm name).Sound := by
  refine h.cons (x := (st.currnonterm + 1, name.take nameMax)) rfl le_rfl h.currterm_le
    (Nat.le_succ _) hlt le_rfl le_rfl (h.num_le.trans (Nat.le_succ _)) rfl rfl ?_
    (fun y hy => h.ne_nonterm hlt hy) (List.length_take_le _ _) ?_ ?_
  · exact Or.inr (Or.inl ⟨(h.isNonterm_succ hlt).1, le_rfl⟩)
  · rw [head?_take_nameMax]
    exact iff_of_false hname.2 (h.isNonterm_succ hlt).not_isAct
  · rw [head?_take_nameMax]
    exact fun hblank => absurd hblank hname.1

/-- A new action with the next number keeps the table sound. -/
lemma Sound.addAct (h : st.Sound) (n : ℕ) : (st.addAct (actName n)).Sound := by
  refine h.cons (x := (st.curract + 1, (actName n).take nameMax)) rfl le_rfl h.currterm_le le_rfl
    h.currnonterm_le (Nat.le_succ _) le_rfl h.num_le rfl rfl
    (Or.inr (Or.inr ⟨h.le_curract, le_rfl⟩)) (fun y hy => h.ne_act hy) (List.length_take_le _ _) ?_
    ?_
  · rw [head?_take_nameMax]
    exact iff_of_true (head?_actName n) h.le_curract
  · rw [head?_take_nameMax, head?_actName]
    exact fun hblank => absurd hblank (by decide)

/-- The goal symbol may be noted, and nothing else happens. -/
lemma noteGoal_eq (p : ℕ) (st : Acts) : ∃ goal next, noteGoal p st =
    { st with goalSymbol := goal, goalSymbolIsNext := next } := by
  unfold noteGoal
  split
  · exact ⟨_, _, rfl⟩
  · exact ⟨_, _, rfl⟩

/-- The symbol stands for the object on a right-hand side: it is an action, or a terminal or
nonterminal with this name. -/
def Stands (st : Acts) (object : Lexeme) (isAnAction : Bool) (p : ℕ) : Prop :=
  if isAnAction then IsAct p else (p, object.take nameMax) ∈ st.names ∧ ¬ IsAct p

/-- The symbol for a name, which is made when there is none. -/
lemma runs_newNonterm (h : st.Sound) (hnone : st.find name = none) (hname : IsName name) :
    Runs (newNonterm name false st) fun r =>
      ∃ p, r.2 = some p ∧ r.1.Sound ∧ Extends st r.1 ∧ r.1.Stands name false p := by
  unfold newNonterm getNonterm
  rw [hnone]
  by_cases hlt : maxNonterm ≤ st.currnonterm
  · rw [if_pos hlt]
    exact fun heq => by cases heq
  · rw [if_neg hlt]
    obtain ⟨goal, next, hgoal⟩ := noteGoal_eq (st.currnonterm + 1) (st.addNonterm name)
    have hsound := h.addNonterm (not_le.mp hlt) hname
    refine ⟨_, rfl, ?_, ?_, ?_⟩
    · change (noteGoal _ _).Sound
      rw [hgoal]
      exact hsound.congr rfl rfl rfl rfl rfl rfl rfl
    · change Extends st (noteGoal _ _)
      rw [hgoal]
      exact ⟨List.subset_cons_self _ _, Nat.le_succ _, rfl, rfl, rfl, rfl⟩
    · change Stands (noteGoal _ _) _ _ _
      rw [hgoal]
      exact ⟨List.mem_cons_self, (h.isNonterm_succ (not_le.mp hlt)).not_isAct⟩

/-- The symbol for an element of a right-hand side is found or made. -/
lemma runs_getObject (h : st.Sound) {isAnAction : Bool} (hobject : IsObject isAnAction name) :
    Runs (getObject name isAnAction st) fun r =>
      ∃ p, r.2 = some p ∧ r.1.Sound ∧ Extends st r.1 ∧ r.1.Stands name isAnAction p := by
  unfold getObject
  rcases hfind : st.find name with - | e
  · cases isAnAction with
    | true =>
      exact ⟨_, rfl, h.addAct _, ⟨List.subset_cons_self _ _, le_rfl, rfl, rfl, rfl, rfl⟩,
        h.le_curract⟩
    | false => exact runs_newNonterm h hfind hobject
  · have hmem := find_some hfind
    refine ⟨e.val, rfl, h, .refl st, ?_⟩
    cases isAnAction with
    | true => exact (h.act_iff _ hmem).mp hobject
    | false =>
      refine ⟨?_, fun hact => hobject.2 ((h.act_iff _ hmem).mpr hact)⟩
      rw [List.take_of_length_le (h.length_le _ hmem)]
      exact hmem

/-! ## Elements of the current production -/

/-- The symbol is added to the current production, which has room for it. -/
lemma edited_appendRhs {tool : Tool} (h : tool.appendRhs p st = .ok st') :
    ∃ k, (st.stack st.sp).rhs = some k ∧ (∃ q ∈ st.prods, q.num = k ∧ q.rhs.length < maxRhs) ∧
      Edited k (· ++ [p]) st st' := by
  rcases hfind : st.prods.find? fun prod => some prod.num = (st.stack st.sp).rhs with - | prod
  · cases tool <;> simp [Tool.appendRhs, Parser.appendRhs, hfind] at h
  have hk : (st.stack st.sp).rhs = some prod.num := by simpa [eq_comm] using List.find?_some hfind
  refine ⟨prod.num, hk, ?_⟩
  cases tool with
  | llama =>
    simp only [Tool.appendRhs, Parser.appendRhs, hfind] at h
    by_cases hlen : maxRhs ≤ prod.rhs.length
    · simp [hlen] at h
    simp only [if_neg hlen, Except.ok.injEq] at h
    subst h
    refine ⟨⟨prod, List.mem_of_find?_eq_some hfind, rfl, not_le.mp hlen⟩, ?_⟩
    have hprods : ∃ F : Production → Production,
        st.prods.map (fun q => if q.num = prod.num then { q with rhs := q.rhs ++ [p] } else q) =
        st.prods.map F ∧
          ∀ q, (F q).num = q.num ∧ (F q).lhs = q.lhs ∧
            (F q).rhs = if q.num = prod.num then q.rhs ++ [p] else q.rhs := by
      refine ⟨_, rfl, fun q => ?_⟩
      by_cases hnum : q.num = prod.num
      · simp [hnum]
      · simp [hnum]
    split
    · exact ⟨rfl, rfl, rfl, rfl, rfl, rfl, rfl, rfl, hprods⟩
    · exact ⟨rfl, rfl, rfl, rfl, rfl, rfl, rfl, rfl, hprods⟩
  | occs level =>
    simp only [Tool.appendRhs, hfind] at h
    by_cases hlen : maxRhs ≤ prod.rhs.length
    · simp [hlen] at h
    simp only [if_neg hlen, Except.ok.injEq] at h
    subst h
    exact ⟨⟨prod, List.mem_of_find?_eq_some hfind, rfl, not_le.mp hlen⟩, edited_editRhs hk fun q =>
      ⟨rfl, rfl, rfl⟩⟩

/-- Appending a symbol to the current right-hand side changes just this production. -/
lemma runs_appendRhs (tool : Tool) (hb : st.Building k A γ) (p : ℕ) :
    Runs (tool.appendRhs p st) (Edited k (· ++ [p]) st) := by
  have hrhs : (st.stack st.sp).rhs = some k := by rw [hb.top]
  obtain ⟨q, hq, hnum, -, -⟩ := hb.has
  rcases hr : tool.appendRhs p st with e | st'
  · rintro rfl
    -- A null pointer would mean that the current production is not among the productions.
    have hfind : ∃ prod, (st.prods.find? fun prod => some prod.num = (st.stack st.sp).rhs) =
        some prod := by
      rw [← Option.isSome_iff_exists, List.find?_isSome]
      exact ⟨q, hq, by simp [hrhs, hnum]⟩
    obtain ⟨prod, hfind⟩ := hfind
    cases tool with
    | llama =>
      simp only [Tool.appendRhs, Parser.appendRhs, hfind] at hr
      split at hr <;> cases hr
    | occs level =>
      simp only [Tool.appendRhs, hfind] at hr
      split at hr <;> cases hr
  · obtain ⟨k', hk', -, hedit⟩ := edited_appendRhs hr
    rw [hrhs] at hk'
    cases hk'
    exact hedit

/-- What one part of a right-hand side does: the production `k` is the current one before and after
it, and all other productions stay except for those of new nonterminals. -/
structure Builds (k : ℕ) (st st' : Acts) : Prop where
  /-- The symbols stay in the table. -/
  names : st.names ⊆ st'.names
  /-- New nonterminals may be made. -/
  currnonterm_le : st.currnonterm ≤ st'.currnonterm
  /-- New productions may be made. -/
  numProductons_le : st.numProductons ≤ st'.numProductons
  /-- The stack pointer is where it was. -/
  sp : st'.sp = st.sp
  /-- The stack from the stack pointer on stays. -/
  stack : ∀ i, st.sp ≤ i → st'.stack i = st.stack i
  /-- The left-hand side of the current production stays. -/
  current : ∀ B δ, st'.Has k B δ → ∃ δ₀, st.Has k B δ₀
  /-- The other productions stay. -/
  old : ∀ j, j < st.numProductons → j ≠ k → ∀ B δ, st'.Has j B δ ↔ st.Has j B δ
  /-- New productions are those of new nonterminals. -/
  new : ∀ j B δ, st.numProductons ≤ j → st'.Has j B δ → st.currnonterm < B

namespace Builds

/-- A production is built on when nothing happens. -/
lemma refl (hs : st.Sound) (k : ℕ) : Builds k st st :=
  ⟨List.Subset.refl _, le_rfl, le_rfl, rfl, fun _ _ => rfl, fun _ δ h => ⟨δ, h⟩, fun _ _ _ _ _ =>
    Iff.rfl,
    fun _ _ _ hle h => absurd (hs.lt_of_has h) (not_lt.mpr hle)⟩

/-- Building in two parts one after the other is building. -/
lemma trans (h : Builds k st st') (h' : Builds k st' st'') (hk : k < st.numProductons) :
    Builds k st st'' where
  names := List.Subset.trans h.names h'.names
  currnonterm_le := h.currnonterm_le.trans h'.currnonterm_le
  numProductons_le := h.numProductons_le.trans h'.numProductons_le
  sp := h'.sp.trans h.sp
  stack i hi := (h'.stack i (h.sp ▸ hi)).trans (h.stack i hi)
  current B δ hB := by
    obtain ⟨δ₁, hB₁⟩ := h'.current B δ hB
    exact h.current B δ₁ hB₁
  old j hj hne B δ := (h'.old j (hj.trans_le h.numProductons_le) hne B δ).trans (h.old j hj hne B δ)
  new j B δ hj hB := by
    by_cases hlt : j < st'.numProductons
    · exact h.new j B δ hj ((h'.old j hlt (by omega) B δ).mp hB)
    · exact h.currnonterm_le.trans_lt (h'.new j B δ (not_lt.mp hlt) hB)

/-- New symbols alone build nothing in the production. -/
lemma of_extends (h : Extends st st') (hs : st.Sound) (k : ℕ) : Builds k st st' := by
  have hhas : ∀ j B δ, st'.Has j B δ ↔ st.Has j B δ := by
    intro j B δ
    unfold Has
    rw [h.prods]
  refine ⟨h.names, h.currnonterm_le, h.numProductons.ge, h.sp, fun i _ => by rw [h.stack],
    fun B δ hB => ⟨δ, (hhas k B δ).mp hB⟩, fun j _ _ B δ => hhas j B δ, fun j B δ hle hB => ?_⟩
  exact absurd (hs.lt_of_has ((hhas j B δ).mp hB)) (not_lt.mpr hle)

/-- A change of the current production builds it further. -/
lemma of_edited (h : Edited k f st st') (hs : st.Sound) : Builds k st st' := by
  refine ⟨h.names ▸ List.Subset.refl _, h.currnonterm.ge, h.numProductons.ge, h.sp,
    fun i _ => by rw [h.stack], ?_, ?_, ?_⟩
  · intro B δ hB
    obtain ⟨δ₀, hB₀, -⟩ := h.has_iff.mp hB
    exact ⟨δ₀, hB₀⟩
  · intro j _ hne B δ
    rw [h.has_iff]
    constructor
    · rintro ⟨δ₀, hB, rfl⟩
      rwa [if_neg hne]
    · exact fun hB => ⟨δ, hB, (if_neg hne).symm⟩
  · intro j B δ hle hB
    obtain ⟨δ₀, hB₀, -⟩ := h.has_iff.mp hB
    exact absurd (hs.lt_of_has hB₀) (not_lt.mpr hle)

end Builds

/-- A symbol goes on standing for the object when symbols are added. -/
lemma Stands.mono {isAnAction : Bool} (h : st.Stands name isAnAction p)
    (hnames : st.names ⊆ st'.names) : st'.Stands name isAnAction p := by
  cases isAnAction with
  | true => exact h
  | false => exact ⟨hnames h.1, h.2⟩

/-- A mark on a symbol does not change a production. -/
lemma Edited.of_setUsed (h : Edited k f (st.setUsed p) st') : Edited k f st st' :=
  ⟨h.names.trans (names_setUsed p), h.currterm, h.currnonterm, h.curract, h.num, h.numProductons,
    h.sp, h.stack, h.prods⟩

/-- A mark on a symbol keeps the current production. -/
lemma Building.setUsed (h : st.Building k A γ) (p : ℕ) : (st.setUsed p).Building k A γ :=
  ⟨h.sound.congr (names_setUsed p) rfl rfl rfl rfl rfl rfl, h.top, h.has⟩

/-- New symbols keep the current production. -/
lemma Building.of_extends (hb : st.Building k A γ) (h : Extends st st') (hs : st'.Sound) :
    st'.Building k A γ := by
  obtain ⟨q, hq, hhas⟩ := hb.has
  refine ⟨hs, ?_, q, h.prods ▸ hq, hhas⟩
  rw [h.stack, h.sp]
  exact hb.top

/-- The element of a right-hand side that stands for a name or an action. -/
lemma runs_addToRhs (tool : Tool) (hb : st.Building k A γ) {isAnAction : Bool}
    (hobject : IsObject isAnAction name) :
    Runs (tool.addToRhs name isAnAction st) fun st' =>
      ∃ p, Builds k st st' ∧ st'.Building k A (γ ++ [p]) ∧ st'.Stands name isAnAction p := by
  refine (runs_getObject hb.sound hobject).bind ?_
  rintro ⟨st₁, -⟩ ⟨p, rfl, hs, hext, hstands⟩
  have hb₁ : st₁.Building k A γ := hb.of_extends hext hs
  refine (runs_appendRhs tool (hb₁.setUsed p) p).mono fun st' hedit => ?_
  refine ⟨p, ?_, hedit.of_setUsed.building hb₁, hstands.mono ?_⟩
  · exact (Builds.of_extends hext hb.sound k).trans (.of_edited hedit.of_setUsed hs)
      (hb.sound.lt_of_has hb.has)
  · rw [hedit.of_setUsed.names]
    exact List.Subset.refl _

/-- The symbol of an option is found by its name and added to the current production. -/
lemma runs_addToRhs_option (tool : Tool) (hb : st.Building k A γ) (hmem : (p, name) ∈ st.names)
    (hblank : name.head? = some ' ') :
    Runs (tool.addToRhs name false st) (Edited k (· ++ [p]) st) := by
  obtain ⟨e, hfind⟩ := exists_find hmem
  have hval : e.val = p := hb.sound.opt_inj _ (find_some hfind) _ hmem hblank rfl
  have hobject : getObject name false st = .ok (st, some p) := by
    unfold getObject
    rw [hfind, ← hval]
  unfold Tool.addToRhs
  rw [hobject]
  exact (runs_appendRhs tool (hb.setUsed p) p).mono fun st' hedit => hedit.of_setUsed

/-- `%prec` changes at most the level of the current production. -/
lemma edited_prec (tool : Tool) (hb : st.Building k A γ) (name : Lexeme) :
    Edited k id st (tool.prec name st) := by
  have hrhs : (st.stack st.sp).rhs = some k := by rw [hb.top]
  have hlerror : Edited k id st (st.lerror (.prec name)) :=
    ⟨rfl, rfl, rfl, rfl, rfl, rfl, rfl, rfl, id, (List.map_id _).symm,
      fun q => ⟨rfl, rfl, by split <;> rfl⟩⟩
  have hedit : ∀ n, Edited k id st (st.editRhs fun q => { q with prec := n }) :=
    fun n => edited_editRhs hrhs fun q => ⟨rfl, rfl, rfl⟩
  cases tool with
  | llama => exact hlerror
  | occs level =>
    simp only [Tool.prec]
    split
    · exact hedit _
    · split
      · exact hlerror
      · split
        · exact hedit _
        · exact hlerror

/-! ## Groups -/

/-- The result of `new_rhs`: a new production of `A` without elements is the current one. -/
structure Opens (A : ℕ) (st st' : Acts) : Prop where
  /-- It is the current production. -/
  building : st'.Building st.numProductons A []
  /-- The symbols stay as they are. -/
  names : st'.names = st.names
  /-- No nonterminal is made where a production begins. -/
  currnonterm : st'.currnonterm = st.currnonterm
  /-- One production is made, with the next number. -/
  numProductons : st'.numProductons = st.numProductons + 1
  /-- The stack pointer stays where it is. -/
  sp : st'.sp = st.sp
  /-- The rest of the stack stays. -/
  stack : ∀ i, i ≠ st.sp → st'.stack i = st.stack i
  /-- The other productions stay. -/
  has : ∀ j B δ, st'.Has j B δ ↔ st.Has j B δ ∨ (j = st.numProductons ∧ B = A ∧ δ = [])

/-- A new production of the current left-hand side. -/
lemma runs_newRhs (hs : st.Sound) (hlhs : (st.stack st.sp).lhs = some A)
    (hA : st.IsSymbolNonterm A) : Runs (newRhs st) (Opens A st) := by
  unfold newRhs
  rw [hlhs]
  by_cases hlen : maxProd ≤ st.numProductons
  · simp only [if_pos hlen]
    exact fun heq => by cases heq
  simp only [if_neg hlen]
  have hhas : ∀ j B δ, (st.addProduction A).Has j B δ ↔ st.Has j B δ ∨
      (j = st.numProductons ∧ B = A ∧ δ = []) := by
    intro j B δ
    constructor
    · rintro ⟨q, hq, rfl, rfl, rfl⟩
      rcases List.mem_cons.mp hq with rfl | hmem
      · exact Or.inr ⟨rfl, rfl, rfl⟩
      · exact Or.inl ⟨q, hmem, rfl, rfl, rfl⟩
    · rintro (⟨q, hq, hhas⟩ | ⟨rfl, rfl, rfl⟩)
      · exact ⟨q, List.mem_cons_of_mem _ hq, hhas⟩
      · exact ⟨_, List.mem_cons_self, rfl, rfl, rfl⟩
  have hsound : (st.addProduction A).Sound := by
    refine { currterm_le := hs.currterm_le, currnonterm_le := hs.currnonterm_le,
             le_curract := hs.le_curract, isSymbol := hs.isSymbol, vals_nodup := hs.vals_nodup,
             length_le := hs.length_le, act_iff := hs.act_iff, opt := hs.opt,
             opt_inj := hs.opt_inj, num_le := hs.num_le, nums_nodup := ?_, num_lt := ?_,
             lhs_mem := ?_ }
    · refine List.nodup_cons.mpr ⟨fun hmem => ?_, hs.nums_nodup⟩
      obtain ⟨q, hq, hnum⟩ := List.mem_map.mp hmem
      exact (hs.num_lt q hq).ne hnum
    · exact List.forall_mem_cons.mpr
        ⟨Nat.lt_succ_self _, fun q hq => (hs.num_lt q hq).trans (Nat.lt_succ_self _)⟩
    · exact List.forall_mem_cons.mpr ⟨hA, hs.lhs_mem⟩
  refine ⟨⟨hsound.congr rfl rfl rfl rfl rfl rfl rfl, Function.update_self _ _ _, ?_⟩, rfl, rfl, rfl,
    rfl, fun i hi => Function.update_of_ne hi _ _, hhas⟩
  exact (hhas _ _ _).mpr (Or.inr ⟨rfl, rfl, rfl⟩)

/-- The result of `start_opt`: a new nonterminal has two productions without elements, and the
second of them is the current one. -/
structure Opened (st st' : Acts) : Prop where
  /-- The second one is the current production. -/
  building : st'.Building (st.numProductons + 1) (st.currnonterm + 1) []
  /-- The old symbols stay in the table. -/
  names : st.names ⊆ st'.names
  /-- The new nonterminal has the name of the option. -/
  option : (st.currnonterm + 1, optName st.num) ∈ st'.names
  /-- One nonterminal is made, for the group. -/
  currnonterm : st'.currnonterm = st.currnonterm + 1
  /-- Two productions are made. -/
  numProductons : st'.numProductons = st.numProductons + 2
  /-- The next slot of the stack is used. -/
  sp : st'.sp + 1 = st.sp
  /-- The rest of the stack stays. -/
  stack : ∀ i, st.sp ≤ i → st'.stack i = st.stack i
  /-- The other productions stay. -/
  has : ∀ j B δ, st'.Has j B δ ↔ st.Has j B δ ∨
    ((j = st.numProductons ∨ j = st.numProductons + 1) ∧ B = st.currnonterm + 1 ∧ δ = [])

/-- The nonterminal of a group is made, and it is the current left-hand side. -/
lemma runs_newNonterm_option (hs : st.Sound) (hsp : st.sp ≠ 0) :
    Runs (newNonterm (optName st.num) true { st with sp := st.sp - 1, num := st.num + 1 }) fun r =>
      r.1.Sound ∧ r.1.names = (st.currnonterm + 1, optName st.num) :: st.names ∧
        (r.1.stack r.1.sp).lhs = some (st.currnonterm + 1) ∧ r.1.currnonterm = st.currnonterm + 1 ∧
        r.1.numProductons = st.numProductons ∧ r.1.sp + 1 = st.sp ∧
        (∀ i, st.sp ≤ i → r.1.stack i = st.stack i) ∧ r.1.prods = st.prods := by
  have hnone : st.find (optName st.num) = none := by
    rcases hfind : st.find (optName st.num) with - | e
    · rfl
    · obtain ⟨-, n, hn, heq⟩ := hs.opt _ (find_some hfind) (head?_optName _)
      exact absurd (optName_injective heq) hn.ne'
  have hfind : Acts.find { st with sp := st.sp - 1, num := st.num + 1 } (optName st.num) = none :=
    hnone
  unfold newNonterm getNonterm
  rw [hfind]
  by_cases hlt : maxNonterm ≤ st.currnonterm
  · simp only [if_pos hlt]
    exact fun heq => by cases heq
  simp only [if_neg hlt]
  set base : Acts :=
    Acts.addNonterm { st with sp := st.sp - 1, num := st.num + 1 } (optName st.num) with hbase
  obtain ⟨goal, next, hgoal⟩ := noteGoal_eq (st.currnonterm + 1) base
  have hnote : noteNonterm (st.currnonterm + 1) true base =
      (Acts.setTop { base with goalSymbol := goal, goalSymbolIsNext := next }
      ⟨some (st.currnonterm + 1), none⟩).setSet
        (st.currnonterm + 1) := by
    unfold noteNonterm
    rw [if_pos rfl, hgoal]
  have hnum : st.num < 10 ^ 6 := by
    have hle := hs.num_le
    have hmax : maxNonterm = 511 := rfl
    omega
  change Sound (noteNonterm _ true base) ∧ _ ∧ _ ∧ _ ∧ _ ∧ _ ∧ _ ∧ _
  have hnames : (noteNonterm (st.currnonterm + 1) true base).names =
      (st.currnonterm + 1, optName st.num) :: st.names := by
    rw [hnote, names_setSet]
    change (_, (optName st.num).take nameMax) :: st.names = _
    rw [take_optName hnum]
  refine ⟨?_, hnames, ?_⟩
  · have hlen : (optName st.num).length ≤ nameMax := by
      rw [← take_optName hnum]
      exact List.length_take_le _ _
    rw [hnote] at hnames ⊢
    refine hs.cons hnames le_rfl hs.currterm_le (Nat.le_succ _) (not_le.mp hlt) le_rfl
      (Nat.le_succ _) ?_ rfl rfl ?_ (fun y hy => hs.ne_nonterm (not_le.mp hlt) hy) hlen ?_ ?_
    · have hle := hs.num_le
      change st.num + 1 + minNonterm ≤ st.currnonterm + 1 + 1
      omega
    · exact Or.inr (Or.inl ⟨(hs.isNonterm_succ (not_le.mp hlt)).1, le_rfl⟩)
    · exact iff_of_false (by rw [head?_optName]; decide)
        (hs.isNonterm_succ (not_le.mp hlt)).not_isAct
    · exact fun _ => ⟨⟨hs.isNonterm_succ (not_le.mp hlt), st.num, Nat.lt_succ_self _, rfl⟩,
        fun y hy => find_none hnone hy⟩
  · rw [hnote]
    have htop : (Function.update base.stack base.sp ⟨some (st.currnonterm + 1), none⟩) base.sp =
        ⟨some (st.currnonterm + 1), none⟩ := Function.update_self _ _ _
    refine ⟨congrArg CurSym.lhs htop, rfl, rfl, Nat.succ_pred hsp, fun i hi => ?_, rfl⟩
    refine Function.update_of_ne ?_ _ _
    change i ≠ st.sp - 1
    omega

/-- A group starts with a new nonterminal on the stack and a production for it. -/
lemma runs_startOpt (hs : st.Sound) (hsp : st.sp ≠ 0) : Runs (startOpt st) (Opened st) := by
  unfold startOpt
  rw [if_neg hsp]
  refine (runs_newNonterm_option hs hsp).bind ?_
  rintro ⟨st₁, q⟩ ⟨hs₁, hnames₁, hlhs₁, hnon₁, hcount₁, hsp₁, hstack₁, hprods₁⟩
  dsimp only at hs₁ hnames₁ hlhs₁ hnon₁ hcount₁ hsp₁ hstack₁ hprods₁ ⊢
  have hA : st₁.IsSymbolNonterm (st.currnonterm + 1) :=
    ⟨(Nat.le_add_left _ _).trans hs.num_le, hnon₁.ge⟩
  refine (runs_newRhs hs₁ hlhs₁ hA).bind fun st₂ h₂ => ?_
  have hlhs₂ : (st₂.stack st₂.sp).lhs = some (st.currnonterm + 1) := by rw [h₂.building.top]
  have hA₂ : st₂.IsSymbolNonterm (st.currnonterm + 1) := ⟨hA.1, by rw [h₂.currnonterm]; exact hA.2⟩
  refine (runs_newRhs h₂.building.sound hlhs₂ hA₂).mono fun st₃ h₃ => ?_
  have hcount₂ : st₂.numProductons = st.numProductons + 1 := by rw [h₂.numProductons, hcount₁]
  have hnames₃ : st₃.names = (st.currnonterm + 1, optName st.num) :: st.names := by
    rw [h₃.names, h₂.names, hnames₁]
  refine ⟨hcount₂ ▸ h₃.building, ?_, ?_, ?_, ?_, ?_, ?_, ?_⟩
  · rw [hnames₃]
    exact List.subset_cons_self _ _
  · rw [hnames₃]
    exact List.mem_cons_self
  · rw [h₃.currnonterm, h₂.currnonterm, hnon₁]
  · rw [h₃.numProductons, hcount₂]
  · rw [h₃.sp, h₂.sp, hsp₁]
  · intro i hi
    rw [h₃.stack i (by rw [h₂.sp]; omega), h₂.stack i (by omega), hstack₁ i hi]
  · intro j B δ
    have hhas₁ : st₁.Has j B δ ↔ st.Has j B δ := by
      unfold Has
      rw [hprods₁]
    rw [h₃.has, h₂.has, hhas₁, hcount₁, hcount₂]
    tauto

/-- When nothing is changed, the production is as before. -/
lemma Edited.refl (k : ℕ) (st : Acts) : Edited k id st st :=
  ⟨rfl, rfl, rfl, rfl, rfl, rfl, rfl, rfl, id, (List.map_id _).symm,
    fun q => ⟨rfl, rfl, by split <;> rfl⟩⟩

end Acts

/-- The right-hand side of a group with the elements `β`, for a `]` and for a `]*`. -/
def Tool.close : Tool → Bool → ℕ → List ℕ → List ℕ
  | _, false, _, β => β
  | llama, true, g, β => β ++ [g]
  | occs _, true, g, β => g :: β

/-- Rotating makes the last symbol the first one. -/
lemma rotate_append (γ : List ℕ) (p : ℕ) : rotate (γ ++ [p]) = p :: γ := by
  simp [rotate]

namespace Acts

variable {st : Acts} {name : Lexeme} {k l A g : ℕ} {β γ : List ℕ}

/-- A repeated group has its own symbol at the end, or in front. -/
lemma runs_repeatOpt (tool : Tool) (star : Bool) (hb : st.Building l g β)
    (hmem : (g, name) ∈ st.names) (hblank : name.head? = some ' ') :
    Runs (tool.repeatOpt star name st) (Edited l (tool.close star g) st) := by
  cases star with
  | false => cases tool <;> exact Edited.refl l st
  | true =>
    cases tool with
    | llama => exact runs_addToRhs_option .llama hb hmem hblank
    | occs level =>
      refine (runs_addToRhs_option (.occs level) hb hmem hblank).bind fun st₁ h₁ => ?_
      have htop : (st₁.stack st₁.sp).rhs = some l := by rw [(h₁.building hb).top]
      have hrot : Edited l rotate st₁ (st₁.editRhs fun q => { q with rhs := rotate q.rhs }) :=
        edited_editRhs htop fun q => ⟨rfl, rfl, rfl⟩
      have hfun : rotate ∘ (· ++ [g]) = Tool.close (.occs level) true g :=
        funext fun γ => rotate_append γ g
      exact hfun ▸ h₁.trans hrot

/-- The result of `end_opt`: the production `l` of the group `g` is closed, and the group is added
to the production `k` around it. -/
structure Ended (tool : Tool) (star : Bool) (g l k : ℕ) (st st' : Acts) : Prop where
  /-- The table is sound behind the group. -/
  sound : st'.Sound
  /-- The symbols stay as they are. -/
  names : st'.names = st.names
  /-- No nonterminal is made where a group ends. -/
  currnonterm : st'.currnonterm = st.currnonterm
  /-- No production is made where a group ends. -/
  numProductons : st'.numProductons = st.numProductons
  /-- The slot of the group is left. -/
  sp : st'.sp = st.sp + 1
  /-- The slots of the stack stay as they are. -/
  stack : st'.stack = st.stack
  /-- The productions afterwards. -/
  has : ∀ j B δ, st'.Has j B δ ↔ ∃ δ₀, st.Has j B δ₀ ∧
    δ = if j = k then δ₀ ++ [g] else if j = l then tool.close star g δ₀ else δ₀

/-- Both changes of `end_opt`, one after the other, end the group. -/
lemma Ended.of_edited {tool : Tool} {star : Bool} {st₁ st' : Acts} (hs : st.Sound)
    (h : Edited l (tool.close star g) st st₁)
    (h' : Edited k (· ++ [g]) { st₁ with sp := st₁.sp + 1 } st') (hne : k ≠ l) :
    Ended tool star g l k st st' where
  sound := h'.sound ((h.sound hs).congr rfl rfl rfl rfl rfl rfl rfl)
  names := h'.names.trans h.names
  currnonterm := h'.currnonterm.trans h.currnonterm
  numProductons := h'.numProductons.trans h.numProductons
  sp := h'.sp.trans (congrArg (· + 1) h.sp)
  stack := h'.stack.trans h.stack
  has j B δ := by
    rw [h'.has_iff]
    change (∃ δ₀, st₁.Has j B δ₀ ∧ _) ↔ _
    constructor
    · rintro ⟨δ₁, hδ₁, rfl⟩
      obtain ⟨δ₀, hδ₀, rfl⟩ := h.has_iff.mp hδ₁
      refine ⟨δ₀, hδ₀, ?_⟩
      by_cases hj : j = k
      · rw [if_pos hj, if_pos hj, if_neg (fun hl => hne (hj.symm.trans hl))]
      · rw [if_neg hj, if_neg hj]
    · rintro ⟨δ₀, hδ₀, rfl⟩
      refine ⟨_, h.has_iff.mpr ⟨δ₀, hδ₀, rfl⟩, ?_⟩
      by_cases hj : j = k
      · rw [if_pos hj, if_pos hj, if_neg (fun hl => hne (hj.symm.trans hl))]
      · rw [if_neg hj, if_neg hj]

/-- A group ends with its nonterminal on the outer right-hand side and its productions in the
table. -/
lemma runs_endOpt (tool : Tool) (star : Bool) (hb : st.Building l g β) (hmem : (g, name) ∈ st.names)
    (hblank : name.head? = some ' ') (htop : st.stack (st.sp + 1) = ⟨some A, some k⟩) (hne : k ≠ l)
    (hhas : st.Has k A γ) :
    Runs (tool.endOpt star st) (Ended tool star g l k st) := by
  have hlhs : (st.stack st.sp).lhs = some g := by rw [hb.top]
  obtain ⟨e₀, he₀, heq₀⟩ := List.mem_map.mp hmem
  obtain ⟨hval₀, -⟩ := Prod.mk.inj heq₀
  unfold Tool.endOpt
  rcases hfind : st.symtab.find? fun s => some s.val = (st.stack st.sp).lhs with - | e
  · refine absurd ((List.find?_eq_none.mp hfind) e₀ he₀) ?_
    simp [hlhs, hval₀]
  have hval : e.val = g := by simpa [hlhs] using List.find?_some hfind
  have hename : e.name = name := by
    have hpair :=
      hb.sound.name_unique (List.mem_map.mpr ⟨e, List.mem_of_find?_eq_some hfind, rfl⟩) hmem hval
    exact congrArg Prod.snd hpair
  rw [hfind]
  dsimp only
  rw [hename]
  refine (runs_repeatOpt tool star hb hmem hblank).bind fun st₁ h₁ => ?_
  have hhas₁ : st₁.Has k A γ := h₁.has_iff.mpr ⟨γ, hhas, (if_neg hne).symm⟩
  have hs₁ : ({ st₁ with sp := st₁.sp + 1 } : Acts).Sound :=
    (h₁.sound hb.sound).congr rfl rfl rfl rfl rfl rfl rfl
  have hb₁ : ({ st₁ with sp := st₁.sp + 1 } : Acts).Building k A γ := by
    refine ⟨hs₁, ?_, hhas₁⟩
    change st₁.stack (st₁.sp + 1) = _
    rw [h₁.stack, h₁.sp, htop]
  have hmem₁ : (g, name) ∈ ({ st₁ with sp := st₁.sp + 1 } : Acts).names := by
    change (g, name) ∈ st₁.names
    rw [h₁.names]
    exact hmem
  exact (runs_addToRhs_option tool hb₁ hmem₁ hblank).mono fun st' h' =>
    .of_edited hb.sound h₁ h' hne

end Acts

end Parser
