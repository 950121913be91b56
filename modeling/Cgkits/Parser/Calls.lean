import Cgkits.Lib.Trace
import Cgkits.Parser.Groups

/-!
# The calls of the parser (`parser.lma`)

The parser does nothing with a specification but call the functions of `acts.c`, in the order of the
text. `ActsCall` is such a call, and `Rhs.calls`, `Rule.calls` and `Directive.calls` are those for a
part of a specification. To read the specification is to make its calls one after another
(`Spec.read_eq`, `Tool.read_eq`), so what holds for every list of calls holds while any
specification is read, and also when a fatal error ends it.

The calls for a group are `startOpt` and `endOpt`, which move the pointer `_sp` of the stack down
and up again. Nothing checks it against the array, so it stays in the array exactly as long as no
group starts inside seven others (`guarded_iff`).
-/

namespace Parser

/-! ## Calls -/

/-- A call of a function of `acts.c`, with its arguments. -/
inductive ActsCall
  /-- `make_term`, for a name behind `%term`. -/
  | makeTerm (name : Lexeme)
  /-- `new_nonterm`, for a left-hand side or a name. -/
  | newNonterm (name : Lexeme) (isLhs : Bool)
  /-- `first_sym`, in front of the rules. -/
  | firstSym
  /-- `new_rhs`, in front of a right-hand side. -/
  | newRhs
  /-- `add_to_rhs`, for a name or an action. -/
  | addToRhs (object : Lexeme) (isAnAction : Bool)
  /-- `start_opt`, where a group starts. -/
  | startOpt
  /-- `end_opt`, where a group ends. -/
  | endOpt (star : Bool)
  /-- `prec`, for the name behind `%prec`. -/
  | prec (name : Lexeme)
  /-- `add_synch`, for a name behind `%synch`. -/
  | addSynch (name : Lexeme)
  /-- `lerror`, by a function that does nothing else. -/
  | lerror (e : ActsError)
deriving DecidableEq

/-- What a call does to the variables of `acts.c`, in llama or in occs. -/
def ActsCall.run (tool : Tool) : ActsCall → Acts → Except ActsFault Acts
  | makeTerm name, st => Parser.makeTerm name st
  | newNonterm name isLhs, st => do return (← Parser.newNonterm name isLhs st).1
  | firstSym, st => .ok (Parser.firstSym st)
  | newRhs, st => Parser.newRhs st
  | addToRhs object isAnAction, st => tool.addToRhs object isAnAction st
  | startOpt, st => Parser.startOpt st
  | endOpt star, st => tool.endOpt star st
  | prec name, st => .ok (tool.prec name st)
  | addSynch name, st => .ok (Parser.addSynch name st)
  | lerror e, st => .ok (st.lerror e)

/-- A call that returns, with the states before and behind it. -/
def Tool.Calls (tool : Tool) (c : ActsCall) (st st' : Acts) : Prop := c.run tool st = .ok st'

/-- The calls for a right-hand side, in the order in which the parser makes them. -/
def Rhs.calls : Rhs → List ActsCall
  | .nil => []
  | .name object rest => .addToRhs object false :: rest.calls
  | .action object rest => .addToRhs object true :: rest.calls
  | .prec text rest => .prec text :: rest.calls
  | .opt body star rest => .startOpt :: (body.calls ++ .endOpt star :: rest.calls)

/-- The calls for a rule: its left-hand side, and each of its right-hand sides. -/
def Rule.calls (r : Rule) : List ActsCall :=
  .newNonterm r.lhs true :: (r.rhs :: r.alternatives).flatMap fun rhs => .newRhs :: rhs.calls

/-- The call for an element of the list behind `%type` or `%term`. -/
def FieldName.call (f : Lexeme → ActsCall) : FieldName → ActsCall
  | .name text => f text
  | .field _ => .lerror .field

/-- The calls of functions of `acts.c` for a directive in llama. -/
def Directive.calls : Directive → List ActsCall
  | .synch snames => snames.map .addSynch
  | .percentUnion => [.lerror .percentUnion]
  | .type fnames => fnames.map (FieldName.call fun text => .newNonterm text false)
  | .termSpec tnames => tnames.map (FieldName.call .makeTerm)
  | .level pnames => .lerror .level :: pnames.flatMap fun
    | .name _ => []
    | .field _ => [.lerror .field]
  | .codeBlock => []
  | .start => [.lerror .start]

/-- The calls for a specification in llama: those of its directives, `first_sym`, and those of its
rules. -/
def Spec.calls (spec : Spec) : List ActsCall :=
  spec.defs.flatMap Directive.calls ++ .firstSym :: spec.rules.flatMap Rule.calls

/-- Make the calls of a list, one after the other. -/
def Tool.runCalls (tool : Tool) (calls : List ActsCall) (st : Acts) : Except ActsFault Acts :=
  calls.foldlM (fun st c => c.run tool st) st

namespace Tool

variable {tool : Tool} {calls calls' : List ActsCall} {c : ActsCall} {st st' : Acts}

/-- Making the calls of a list is making the first one and then the others. -/
lemma runCalls_cons : tool.runCalls (c :: calls) st = (c.run tool st >>= tool.runCalls calls) :=
  List.foldlM_cons

/-- Making the calls of two lists is making those of the first and then those of the second. -/
lemma runCalls_append :
    tool.runCalls (calls ++ calls') st = (tool.runCalls calls st >>= tool.runCalls calls') :=
  List.foldlM_append

/-- A trace of calls is a run of them in which all return. -/
lemma trace_iff : Trace tool.Calls calls st st' ↔ tool.runCalls calls st = .ok st' := by
  induction calls generalizing st with
  | nil =>
    rw [Trace.nil_iff]
    change st' = st ↔ Except.ok st = .ok st'
    rw [Except.ok.injEq, eq_comm]
  | cons c calls ih =>
    rw [Trace.cons_iff, runCalls_cons]
    constructor
    · rintro ⟨st₁, hc, htrace⟩
      rw [show c.run tool st = .ok st₁ from hc]
      exact ih.mp htrace
    · intro h
      obtain ⟨st₁, hc, hcalls⟩ := bind_eq_ok h
      exact ⟨st₁, hc, ih.mpr hcalls⟩

/-- Reading a right-hand side is making its calls. -/
lemma read_eq (r : Rhs) (st : Acts) : tool.read r st = tool.runCalls r.calls st := by
  induction r generalizing st with
  | nil => rfl
  | name object rest ih =>
    rw [Rhs.calls, runCalls_cons, Tool.read]
    exact congrArg (tool.addToRhs object false st >>= ·) (funext ih)
  | action object rest ih =>
    rw [Rhs.calls, runCalls_cons, Tool.read]
    exact congrArg (tool.addToRhs object true st >>= ·) (funext ih)
  | prec text rest ih =>
    rw [Rhs.calls, runCalls_cons, Tool.read, ih]
    rfl
  | opt body star rest ihbody ihrest =>
    rw [Rhs.calls, runCalls_cons, Tool.read]
    refine congrArg (Parser.startOpt st >>= ·) (funext fun st₁ => ?_)
    rw [runCalls_append, ← ihbody]
    refine congrArg (tool.read body st₁ >>= ·) (funext fun st₂ => ?_)
    rw [runCalls_cons]
    exact congrArg (tool.endOpt star st₂ >>= ·) (funext ihrest)

/-- When reading an element is making calls, reading a list is making the calls of its elements. -/
lemma runCalls_flatMap {α : Type} {f : Acts → α → Except ActsFault Acts} {g : α → List ActsCall}
    (hf : ∀ a st, f st a = tool.runCalls (g a) st) (l : List α) (st : Acts) :
    l.foldlM f st = tool.runCalls (l.flatMap g) st := by
  induction l generalizing st with
  | nil => rfl
  | cons a l ih =>
    rw [List.foldlM_cons, List.flatMap_cons, runCalls_append, hf]
    exact congrArg (tool.runCalls (g a) st >>= ·) (funext ih)

/-- When reading an element is making one call, reading a list is making a call for each element. -/
lemma runCalls_map {α : Type} {f : Acts → α → Except ActsFault Acts} {g : α → ActsCall}
    (hf : ∀ a st, f st a = (g a).run tool st) (l : List α) (st : Acts) :
    l.foldlM f st = tool.runCalls (l.map g) st := by
  rw [runCalls, List.foldlM_map]
  exact congrArg (l.foldlM · st) (funext fun st => funext fun a => hf a st)

end Tool

/-- Reading a directive is making its calls. -/
lemma directive_eq (d : Directive) (st : Acts) :
    directive st d = Tool.llama.runCalls d.calls st := by
  cases d with
  | synch snames =>
    refine (List.foldlM_pure ..).symm.trans (Tool.runCalls_map ?_ snames st)
    exact fun name st => rfl
  | percentUnion => rfl
  | type fnames =>
    refine Tool.runCalls_map ?_ fnames st
    rintro (text | text) st <;> rfl
  | termSpec tnames =>
    refine Tool.runCalls_map ?_ tnames st
    rintro (text | text) st <;> rfl
  | level pnames =>
    refine (List.foldlM_pure ..).symm.trans (Tool.runCalls_flatMap ?_ pnames (st.lerror .level))
    rintro (text | text) st <;> rfl
  | codeBlock => rfl
  | start => rfl

/-- Reading a rule is making its calls, one after the other. -/
lemma readRule_eq (r : Rule) (st : Acts) : readRule st r = Tool.llama.runCalls r.calls st := by
  have hside : ∀ rhs st, rightSide st rhs = Tool.llama.runCalls (.newRhs :: rhs.calls) st := by
    intro rhs st
    rw [Tool.runCalls_cons, rightSide, ← Tool.llama_read]
    exact congrArg (newRhs st >>= ·) (funext (Tool.read_eq rhs))
  rw [Rule.calls, Tool.runCalls_cons, readRule]
  rcases hnew : newNonterm r.lhs true st with e | q
  · simp only [ActsCall.run, hnew]
    rfl
  · simp only [ActsCall.run, hnew]
    exact Tool.runCalls_flatMap hside _ q.1

/-- Reading a specification is making its calls, from the empty table on. -/
theorem Spec.read_eq (spec : Spec) : spec.read = Tool.llama.runCalls spec.calls initActs := by
  rw [Spec.read, Spec.calls, Tool.runCalls_append, Tool.runCalls_flatMap directive_eq]
  refine congrArg (Tool.llama.runCalls _ initActs >>= ·) (funext fun st => ?_)
  rw [Tool.runCalls_cons]
  exact Tool.runCalls_flatMap readRule_eq spec.rules (firstSym st)

/-! ## What the functions change -/

namespace Acts

variable {tool : Tool} {st st' : Acts} {name object : Lexeme} {p : ℕ}

/-- The function may make one symbol with the name, which is no action, and changes nothing else of
interest. -/
structure Named (name : Lexeme) (st st' : Acts) : Prop where
  /-- The stack pointer stays where it is. -/
  sp : st'.sp = st.sp
  /-- No action is made by the call. -/
  curract : st'.curract = st.curract
  /-- The productions stay as they are. -/
  prods : st'.prods = st.prods
  /-- The number of productions stays as it is. -/
  numProductons : st'.numProductons = st.numProductons
  /-- The table gets at most one symbol, with its name cut off. -/
  names : st'.names = st.names ∨ ∃ p < minAct, st'.names = (p, name.take nameMax) :: st.names

/-- A call that makes no symbol and changes no production is named. -/
lemma Named.of_names (hsp : st'.sp = st.sp) (hact : st'.curract = st.curract)
    (hprods : st'.prods = st.prods) (hnum : st'.numProductons = st.numProductons)
    (hnames : st'.names = st.names) : Named name st st' :=
  ⟨hsp, hact, hprods, hnum, .inl hnames⟩

/-- `make_term` may make a terminal for the name, and changes nothing else of the names. -/
lemma named_makeTerm (h : makeTerm name st = .ok st') : Named name st st' := by
  unfold makeTerm at h
  split at h
  · cases h
    exact .of_names rfl rfl rfl rfl rfl
  split at h
  · cases h
    exact .of_names rfl rfl rfl rfl rfl
  split at h
  · cases h
  · rename_i hlt
    cases h
    refine ⟨rfl, rfl, rfl, rfl, .inr ⟨st.currterm + 1, ?_, rfl⟩⟩
    have hmax : maxTerm = 254 := rfl
    have hact : minAct = 512 := rfl
    omega

/-- Noting a nonterminal makes no symbol and no production. -/
lemma noteNonterm_same (p : ℕ) (isLhs : Bool) (st : Acts) :
    (noteNonterm p isLhs st).sp = st.sp ∧ (noteNonterm p isLhs st).curract = st.curract ∧
      (noteNonterm p isLhs st).prods = st.prods ∧ (noteNonterm p isLhs st).numProductons =
      st.numProductons ∧
        (noteNonterm p isLhs st).names = st.names := by
  obtain ⟨goal, next, hgoal⟩ := noteGoal_eq p st
  unfold noteNonterm
  rw [hgoal]
  split
  · exact ⟨rfl, rfl, rfl, rfl, names_setSet p⟩
  · exact ⟨rfl, rfl, rfl, rfl, rfl⟩

/-- `new_nonterm` may make a nonterminal for the name, and changes nothing else of the names. -/
lemma named_newNonterm {isLhs : Bool} {r : Acts × Option ℕ} (h : newNonterm name isLhs st = .ok r) :
    Named name st r.1 := by
  rcases newNonterm_cases h with ⟨p, -, -, rfl⟩ | ⟨p, -, -, rfl⟩ | ⟨-, hlt, rfl⟩
  · obtain ⟨hsp, hact, hprods, hnum, hnames⟩ := noteNonterm_same p.val isLhs st
    exact .of_names hsp hact hprods hnum hnames
  · exact .of_names rfl rfl rfl rfl rfl
  · obtain ⟨hsp, hact, hprods, hnum, hnames⟩ :=
      noteNonterm_same (st.currnonterm + 1) isLhs (st.addNonterm name)
    exact ⟨hsp, hact, hprods, hnum, .inr ⟨st.currnonterm + 1, Nat.succ_lt_succ hlt, hnames⟩⟩

/-- `new_rhs` makes a production without elements, and no symbol. -/
lemma newRhs_same (h : newRhs st = .ok st') : st'.sp = st.sp ∧ st'.curract = st.curract ∧
    st'.names = st.names ∧ st'.numProductons = st.numProductons + 1 ∧ st.numProductons < maxProd ∧
      ∃ A, st'.prods = ⟨st.numProductons, A, [], 0⟩ :: st.prods := by
  obtain ⟨A, -, hlt, rfl⟩ := newRhs_cases h
  exact ⟨rfl, rfl, rfl, rfl, hlt, A, rfl⟩

/-- The first part of `add_to_rhs` for a name may make a nonterminal. -/
lemma named_getObject {r : Acts × Option ℕ} (h : getObject object false st = .ok r) :
    Named object st r.1 := by
  unfold getObject at h
  split at h
  · cases h
    exact .of_names rfl rfl rfl rfl rfl
  · exact named_newNonterm h

/-- The first part of `add_to_rhs` leaves the stack pointer and the productions. -/
lemma getObject_same {isAnAction : Bool} {r : Acts × Option ℕ}
    (h : getObject object isAnAction st = .ok r) : r.1.sp = st.sp ∧ r.1.prods = st.prods ∧
    r.1.numProductons = st.numProductons := by
  rcases getObject_cases h with ⟨p, -, rfl⟩ | ⟨name, rfl⟩ | h
  · exact ⟨rfl, rfl, rfl⟩
  · exact ⟨rfl, rfl, rfl⟩
  · have hnamed := named_newNonterm h
    exact ⟨hnamed.sp, hnamed.prods, hnamed.numProductons⟩

/-- `add_to_rhs` finds or makes a symbol and changes a production that has room for it. -/
lemma edited_addToRhs {isAnAction : Bool} (h : tool.addToRhs object isAnAction st = .ok st') :
    ∃ st₁ p k, getObject object isAnAction st = .ok (st₁, some p) ∧
      (st₁.stack st₁.sp).rhs = some k ∧ (∃ q ∈ st₁.prods, q.num = k ∧ q.rhs.length < maxRhs) ∧
      Edited k (· ++ [p]) st₁ st' := by
  obtain ⟨⟨st₁, q⟩, hobj, h⟩ := bind_eq_ok h
  rcases q with - | p
  · cases h
  · obtain ⟨k, hk, hroom, hedit⟩ := edited_appendRhs h
    exact ⟨st₁, p, k, hobj, hk, hroom, hedit.of_setUsed⟩

/-- `add_to_rhs` leaves the stack pointer as it is. -/
lemma addToRhs_sp {isAnAction : Bool} (h : tool.addToRhs object isAnAction st = .ok st') :
    st'.sp = st.sp := by
  obtain ⟨st₁, p, k, hobj, -, -, hedit⟩ := edited_addToRhs h
  exact hedit.sp.trans (getObject_same hobj).1

/-- `start_opt` makes a nonterminal with two productions. -/
lemma startOpt_cases (h : startOpt st = .ok st') : st.sp ≠ 0 ∧ ∃ st₁ st₂ name,
    Named name { st with sp := st.sp - 1, num := st.num + 1 } st₁ ∧ newRhs st₁ = .ok st₂ ∧
    newRhs st₂ = .ok st' ∧
      name.head? = some ' ' := by
  unfold startOpt at h
  split at h
  · cases h
  · rename_i hsp
    obtain ⟨r, hr, h⟩ := bind_eq_ok h
    obtain ⟨st₂, h₂, h⟩ := bind_eq_ok h
    exact ⟨hsp, r.1, st₂, _, named_newNonterm hr, h₂, h, head?_optName st.num⟩

/-- `end_opt` adds the nonterminal of the group to two productions or to one. -/
lemma endOpt_cases {star : Bool} (h : tool.endOpt star st = .ok st') : ∃ (lhs : Entry) (st₁ : Acts),
    (lhs.val, lhs.name) ∈ st.names ∧ (st₁ = st ∨ ∃ st₀, tool.addToRhs lhs.name false st = .ok st₀ ∧
      (st₁ = st₀ ∨ st₁ = st₀.editRhs fun q => { q with rhs := rotate q.rhs })) ∧
    tool.addToRhs lhs.name false { st₁ with sp := st₁.sp + 1 } = .ok st' := by
  unfold Tool.endOpt at h
  split at h
  · cases h
  · rename_i lhs hfind
    obtain ⟨st₁, h₁, h⟩ := bind_eq_ok h
    refine ⟨lhs, st₁, List.mem_map.mpr ⟨lhs, List.mem_of_find?_eq_some hfind, rfl⟩, ?_, h⟩
    cases star with
    | false =>
      cases tool <;> cases h₁ <;> exact .inl rfl
    | true =>
      cases tool with
      | llama => exact .inr ⟨st₁, h₁, .inl rfl⟩
      | occs level =>
        obtain ⟨st₀, h₀, h₁⟩ := bind_eq_ok h₁
        cases h₁
        exact .inr ⟨st₀, h₀, .inr rfl⟩

/-- `prec` leaves the stack pointer as it is. -/
lemma prec_sp (tool : Tool) (name : Lexeme) (st : Acts) : (tool.prec name st).sp = st.sp := by
  cases tool with
  | llama => rfl
  | occs level =>
    simp only [Tool.prec]
    split
    · rfl
    · split
      · rfl
      · split <;> rfl

/-- `add_synch` leaves the stack pointer as it is. -/
lemma addSynch_sp (name : Lexeme) (st : Acts) : (addSynch name st).sp = st.sp := by
  unfold addSynch
  split
  · rfl
  · split <;> rfl

end Acts

/-! ## Groups in groups -/

/-- How a call changes the number of the groups that have been opened and not closed. -/
def ActsCall.shift : ActsCall → ℤ
  | startOpt => 1
  | endOpt _ => -1
  | _ => 0

/-- The number of the groups that have been opened and not closed. -/
def nest (calls : List ActsCall) : ℤ := (calls.map ActsCall.shift).sum

section Nest

variable {tool : Tool} {calls calls' pre : List ActsCall} {c : ActsCall} {st st' : Acts}

/-- Without a call no group is open, so that none is to be closed. -/
@[simp] lemma nest_nil : nest [] = 0 := rfl

/-- One more call in front opens or closes what this call does. -/
@[simp] lemma nest_cons : nest (c :: calls) = c.shift + nest calls := by
  rw [nest, List.map_cons, List.sum_cons]
  rfl

/-- The groups that two lists of calls leave open are those of both. -/
@[simp] lemma nest_append : nest (calls ++ calls') = nest calls + nest calls' := by
  rw [nest, List.map_append, List.sum_append]
  rfl

/-- A call moves the stack pointer by one slot for a group. -/
lemma ActsCall.run_sp (h : c.run tool st = .ok st') : (st'.sp : ℤ) + c.shift = st.sp := by
  have hsame : st'.sp = st.sp → c.shift = 0 → (st'.sp : ℤ) + c.shift = st.sp := by
    intro hsp hshift
    rw [hsp, hshift, add_zero]
  cases c with
  | makeTerm name => exact hsame (Acts.named_makeTerm h).sp rfl
  | newNonterm name isLhs =>
    obtain ⟨r, hr, h⟩ := bind_eq_ok h
    cases h
    exact hsame (Acts.named_newNonterm hr).sp rfl
  | firstSym =>
    cases h
    exact hsame rfl rfl
  | newRhs => exact hsame (Acts.newRhs_same h).1 rfl
  | addToRhs object isAnAction => exact hsame (Acts.addToRhs_sp h) rfl
  | startOpt =>
    obtain ⟨hsp, st₁, st₂, name, h₁, h₂, h₃, -⟩ := Acts.startOpt_cases h
    rw [(Acts.newRhs_same h₃).1, (Acts.newRhs_same h₂).1, h₁.sp]
    change ((st.sp - 1 : ℕ) : ℤ) + 1 = st.sp
    omega
  | endOpt star =>
    obtain ⟨lhs, st₁, -, h₁, h₂⟩ := Acts.endOpt_cases h
    have hsp₁ : st₁.sp = st.sp := by
      rcases h₁ with rfl | ⟨st₀, h₀, rfl | rfl⟩
      · rfl
      · exact Acts.addToRhs_sp h₀
      · have hsp₀ := Acts.addToRhs_sp h₀
        exact hsp₀
    rw [Acts.addToRhs_sp h₂]
    change ((st₁.sp + 1 : ℕ) : ℤ) + -1 = st.sp
    omega
  | prec name =>
    cases h
    exact hsame (Acts.prec_sp tool name st) rfl
  | addSynch name =>
    cases h
    exact hsame (Acts.addSynch_sp name st) rfl
  | lerror e =>
    cases h
    exact hsame rfl rfl

/-- After a list of calls the stack pointer has moved down by the number of groups that are open. -/
lemma sp_add_nest (h : Trace tool.Calls calls st st') : (st'.sp : ℤ) + nest calls = st.sp := by
  induction h with
  | nil st => simp
  | cons hc _ ih =>
    have hsp := ActsCall.run_sp hc
    rw [nest_cons]
    omega

/-- The calls open and close groups in pairs, and at most `d` groups are open at a time. -/
structure Balanced (d : ℕ) (calls : List ActsCall) : Prop where
  /-- Every group that is opened is closed. -/
  nest_eq : nest calls = 0
  /-- The number of the open groups. -/
  nest_mem : ∀ pre post, calls = pre ++ post → 0 ≤ nest pre ∧ nest pre ≤ d

namespace Balanced

variable {d d' : ℕ}

/-- No call at all is balanced at every depth. -/
lemma nil (d : ℕ) : Balanced d [] := by
  refine ⟨nest_nil, fun pre post h => ?_⟩
  obtain ⟨rfl, -⟩ := List.append_eq_nil_iff.mp h.symm
  simp

/-- Calls that are balanced within a depth are so within a greater depth. -/
lemma mono (h : Balanced d calls) (hle : d ≤ d') : Balanced d' calls :=
  ⟨h.nest_eq, fun pre post heq => ⟨(h.nest_mem pre post heq).1, (h.nest_mem pre post heq).2.trans
    (by omega)⟩⟩

/-- Balanced calls followed by balanced calls are balanced. -/
lemma append (h : Balanced d calls) (h' : Balanced d calls') : Balanced d (calls ++ calls') := by
  refine ⟨by rw [nest_append, h.nest_eq, h'.nest_eq, add_zero], fun pre post heq => ?_⟩
  rcases List.append_eq_append_iff.mp heq with ⟨a, rfl, ha⟩ | ⟨a, ha, -⟩
  · rw [nest_append, h.nest_eq, zero_add]
    exact h'.nest_mem a post ha
  · exact h.nest_mem pre a ha

/-- A call that is for no group is balanced. -/
lemma singleton (hc : c.shift = 0) (d : ℕ) : Balanced d [c] := by
  refine ⟨by simp [hc], fun pre post heq => ?_⟩
  rcases List.singleton_eq_append_iff.mp heq with ⟨rfl, -⟩ | ⟨rfl, -⟩ <;> simp [hc]

/-- A call that is for no group in front of balanced calls leaves them balanced. -/
lemma cons (hc : c.shift = 0) (h : Balanced d calls) : Balanced d (c :: calls) :=
  (singleton hc d).append h

/-- A group of balanced calls is balanced, and one deeper. -/
lemma group (h : Balanced d calls) (star : Bool) :
    Balanced (d + 1) (.startOpt :: (calls ++ [.endOpt star])) := by
  have hpair : ∀ n : ℤ, n + -1 + 1 = n := fun n => by omega
  refine ⟨by simp [h.nest_eq, ActsCall.shift], fun pre post heq => ?_⟩
  rcases pre with _ | ⟨c, pre⟩
  · simp
    omega
  obtain ⟨rfl, htail⟩ := List.cons.inj heq
  rw [nest_cons]
  rcases List.append_eq_append_iff.mp htail with ⟨a, rfl, ha⟩ | ⟨a, ha, -⟩
  · rw [nest_append, h.nest_eq]
    rcases List.singleton_eq_append_iff.mp ha with ⟨rfl, -⟩ | ⟨rfl, -⟩
    · simp [ActsCall.shift]
    · simp [ActsCall.shift]
      omega
  · have hpre := h.nest_mem pre a ha
    change 0 ≤ 1 + nest pre ∧ 1 + nest pre ≤ ((d + 1 : ℕ) : ℤ)
    omega

/-- The calls for the elements of a list are balanced when those for each element are. -/
lemma flatMap {α : Type} {g : α → List ActsCall} {l : List α} (h : ∀ a ∈ l, Balanced d (g a)) :
    Balanced d (l.flatMap g) := by
  induction l with
  | nil => exact .nil d
  | cons a l ih =>
    obtain ⟨ha, hl⟩ := List.forall_mem_cons.mp h
    exact ha.append (ih hl)

end Balanced

/-- The calls for a right-hand side are balanced within its depth. -/
lemma Rhs.balanced (r : Rhs) : Balanced r.depth r.calls := by
  induction r with
  | nil => exact .nil 0
  | name object rest ih => exact .cons rfl ih
  | action object rest ih => exact .cons rfl ih
  | prec text rest ih => exact .cons rfl ih
  | opt body star rest ihbody ihrest =>
    have happend :=
      ((ihbody.group star).mono (le_max_left _ rest.depth)).append (ihrest.mono (le_max_right _ _))
    simpa [Rhs.calls, Rhs.depth] using happend

/-- The calls for rules whose groups are nested at most `d` deep. -/
lemma balanced_rules {d : ℕ} {rules : List Rule}
    (h : ∀ q ∈ rules, ∀ r ∈ q.rhs :: q.alternatives, r.depth ≤ d) :
    Balanced d (rules.flatMap Rule.calls) :=
  .flatMap fun q hq => .cons rfl (.flatMap fun r hr => .cons rfl (r.balanced.mono (h q hq r hr)))

/-- Inside every group there is one that starts while all those around it are open. -/
lemma Rhs.exists_startOpt {d : ℕ} (r : Rhs) (h : d < r.depth) :
    ∃ pre post, r.calls = pre ++ .startOpt :: post ∧ nest pre = d := by
  induction r generalizing d with
  | nil => exact absurd h (Nat.not_lt_zero d)
  | name object rest ih =>
    obtain ⟨pre, post, hcalls, hnest⟩ := ih h
    exact ⟨_ :: pre, post, congrArg _ hcalls, by rw [nest_cons, hnest]; exact zero_add _⟩
  | action object rest ih =>
    obtain ⟨pre, post, hcalls, hnest⟩ := ih h
    exact ⟨_ :: pre, post, congrArg _ hcalls, by rw [nest_cons, hnest]; exact zero_add _⟩
  | prec text rest ih =>
    obtain ⟨pre, post, hcalls, hnest⟩ := ih h
    exact ⟨_ :: pre, post, congrArg _ hcalls, by rw [nest_cons, hnest]; exact zero_add _⟩
  | opt body star rest ihbody ihrest =>
    rcases lt_max_iff.mp h with hbody | hrest
    · rcases d with _ | d
      · exact ⟨[], _, rfl, nest_nil⟩
      · obtain ⟨pre, post, hcalls, hnest⟩ := ihbody (Nat.lt_of_succ_lt_succ hbody)
        refine ⟨.startOpt :: pre, post ++ .endOpt star :: rest.calls, ?_, ?_⟩
        · simp [Rhs.calls, hcalls]
        · rw [nest_cons, hnest]
          change 1 + (d : ℤ) = ((d + 1 : ℕ) : ℤ)
          omega
    · obtain ⟨pre, post, hcalls, hnest⟩ := ihrest hrest
      refine ⟨.startOpt :: (body.calls ++ .endOpt star :: pre), post, ?_, ?_⟩
      · simp [Rhs.calls, hcalls]
      · simp [hnest, body.balanced.nest_eq, ActsCall.shift]

/-- The stack pointer is in the array whenever the call uses it: `start_opt` moves it down before it
does so, and `end_opt` moves it up. -/
def ActsCall.Inside (c : ActsCall) (st : Acts) : Prop :=
  st.sp < ssize ∧ (c = startOpt → 0 < st.sp) ∧ ∀ star, c = endOpt star → st.sp + 1 < ssize

/-- The stack pointer stays in the array, as far as the calls are made, and it is back when all
groups are closed. -/
structure Guarded (tool : Tool) (calls : List ActsCall) : Prop where
  /-- It is in the array at every call. -/
  inside : ∀ pre c post st, calls = pre ++ c :: post → Trace tool.Calls pre initActs st →
    c.Inside st
  /-- Behind whole rules the stack pointer is back. -/
  back : ∀ pre post st, calls = pre ++ post → nest pre = 0 → Trace tool.Calls pre initActs st →
    st.sp = ssize - 1

/-- The groups of the rules are nested at most so deep. -/
lemma exists_depth (rules : List Rule) :
    ∃ d, ∀ q ∈ rules, ∀ r ∈ q.rhs :: q.alternatives, r.depth ≤ d := by
  refine ⟨((rules.flatMap fun q => q.rhs :: q.alternatives).map Rhs.depth).sum, fun q hq r hr => ?_⟩
  exact List.le_sum_of_mem (List.mem_map_of_mem (List.mem_flatMap.mpr ⟨q, hq, hr⟩))

/-- The calls for the directives and the rules of a specification are balanced within the depth of
the rules. -/
lemma balanced_spec {defs : List ActsCall} (hdefs : ∀ c ∈ defs, c.shift = 0) {d : ℕ}
    {rules : List Rule} (h : ∀ q ∈ rules, ∀ r ∈ q.rhs :: q.alternatives, r.depth ≤ d) :
    Balanced d (defs ++ rules.flatMap Rule.calls) := by
  refine .append ?_ (balanced_rules h)
  induction defs with
  | nil => exact .nil d
  | cons c defs ih =>
    obtain ⟨hc, hdefs⟩ := List.forall_mem_cons.mp hdefs
    exact .cons hc (ih hdefs)

/-- The stack pointer when some calls have been made from the start. -/
lemma sp_of_trace (h : Trace tool.Calls pre initActs st) : (st.sp : ℤ) + nest pre + 1 = ssize := by
  have hsp := sp_add_nest h
  have hinit : ((initActs.sp : ℕ) : ℤ) + 1 = ssize := rfl
  omega

/-- A specification that is read to its end has no group inside seven others. -/
lemma depth_lt_of_trace {defs : List ActsCall} (hdefs : ∀ c ∈ defs, c.shift = 0) {rules : List Rule}
    (h : Trace tool.Calls (defs ++ rules.flatMap Rule.calls) initActs st) {q : Rule}
    (hq : q ∈ rules) {r : Rhs} (hr : r ∈ q.rhs :: q.alternatives) : r.depth < ssize := by
  by_contra hdepth
  have hlt : ssize - 1 < r.depth := (Nat.sub_one_lt (by decide)).trans_le (not_lt.mp hdepth)
  obtain ⟨pre, post, hcalls, hnest⟩ := r.exists_startOpt hlt
  obtain ⟨l, l', rfl⟩ := List.append_of_mem hq
  obtain ⟨m, m', hsides⟩ := List.append_of_mem hr
  have hdefs₀ : nest defs = 0 := by
    have hbal : Balanced 0 (defs ++ ([] : List Rule).flatMap Rule.calls) :=
      balanced_spec hdefs (by simp)
    simpa using hbal.nest_eq
  obtain ⟨d, hd⟩ := exists_depth l
  have hl := (balanced_rules hd).nest_eq
  have hm : nest (m.flatMap fun r => .newRhs :: r.calls) = 0 :=
    (Balanced.flatMap (d := (m.map Rhs.depth).sum) fun r hr =>
      .cons rfl (r.balanced.mono (List.le_sum_of_mem (List.mem_map_of_mem hr)))).nest_eq
  have hsplit : defs ++ (l ++ q :: l').flatMap Rule.calls =
      (defs ++ (l.flatMap Rule.calls ++ .newNonterm q.lhs true ::
      (m.flatMap (fun r => .newRhs :: r.calls) ++
        .newRhs :: pre))) ++ .startOpt :: (post ++ (m'.flatMap (fun r => .newRhs :: r.calls) ++
          l'.flatMap Rule.calls)) := by
    simp [Rule.calls, hsides, hcalls]
  rw [hsplit, Trace.append_iff] at h
  obtain ⟨st₁, h₁, h₂⟩ := h
  obtain ⟨st₂, hstart, -⟩ := Trace.cons_iff.mp h₂
  have hsp := sp_of_trace h₁
  simp only [nest_append, nest_cons, hdefs₀, hl, hm, hnest] at hsp
  change ((st₁.sp : ℕ) : ℤ) + (0 + (0 + (0 + (0 + (0 + ((7 : ℕ) : ℤ)))))) + 1 = ((8 : ℕ) : ℤ) at hsp
  exact (Acts.startOpt_cases hstart).1 (by omega)

/-- The directives of llama open no group, so the calls for a specification are those of
`guarded_iff`. -/
lemma Spec.calls_eq (spec : Spec) :
    ∃ defs, (∀ c ∈ defs, c.shift = 0) ∧ spec.calls = defs ++ spec.rules.flatMap Rule.calls := by
  refine ⟨spec.defs.flatMap Directive.calls ++ [.firstSym], ?_, by simp [Spec.calls]⟩
  intro c hc
  rcases List.mem_append.mp hc with hc | hc
  · obtain ⟨d, -, hc⟩ := List.mem_flatMap.mp hc
    have hfield : ∀ f : Lexeme → ActsCall, (∀ text, (f text).shift = 0) → ∀ x :
        FieldName, (x.call f).shift = 0 := by
      rintro f hf (text | text)
      · exact hf text
      · rfl
    cases d with
    | synch snames =>
      obtain ⟨text, -, rfl⟩ := List.mem_map.mp hc
      rfl
    | type fnames =>
      obtain ⟨x, -, rfl⟩ := List.mem_map.mp hc
      exact hfield _ (fun _ => rfl) x
    | termSpec tnames =>
      obtain ⟨x, -, rfl⟩ := List.mem_map.mp hc
      exact hfield _ (fun _ => rfl) x
    | level pnames =>
      rcases List.mem_cons.mp hc with rfl | hc
      · rfl
      · obtain ⟨x | x, -, hc⟩ := List.mem_flatMap.mp hc
        · cases hc
        · rw [List.mem_singleton.mp hc]
          rfl
    | codeBlock => cases hc
    | percentUnion =>
      rw [List.mem_singleton.mp hc]
      rfl
    | start =>
      rw [List.mem_singleton.mp hc]
      rfl
  · rw [List.mem_singleton.mp hc]
    rfl

/-- The stack pointer stays in the array, and it is back behind every right-hand side, if and only
if no group starts inside seven others, as far as the specification is read. -/
theorem guarded_iff (tool : Tool) {defs : List ActsCall} (hdefs : ∀ c ∈ defs, c.shift = 0)
    (rules : List Rule) : Guarded tool (defs ++ rules.flatMap Rule.calls) ↔
      ∀ pre post st, defs ++ rules.flatMap Rule.calls = pre ++ .startOpt :: post →
        Trace tool.Calls pre initActs st → nest pre + 1 < ssize := by
  constructor
  · intro h pre post st hcalls htrace
    have hsp := sp_of_trace htrace
    have hpos := (h.inside pre .startOpt post st hcalls htrace).2.1 rfl
    omega
  · intro h
    obtain ⟨d, hd⟩ := exists_depth rules
    have hbal := balanced_spec hdefs hd
    refine ⟨fun pre c post st hcalls htrace => ?_, fun pre post st hcalls hnest htrace => ?_⟩
    · have hsp := sp_of_trace htrace
      have hpre := (hbal.nest_mem pre (c :: post) hcalls).1
      refine ⟨by omega, ?_, ?_⟩
      · rintro rfl
        have hlt := h pre post st hcalls htrace
        omega
      · rintro star rfl
        -- The group that is closed is one of those that are open.
        have hclose := (hbal.nest_mem (pre ++ [.endOpt star]) post (by simpa using hcalls)).1
        rw [nest_append] at hclose
        change 0 ≤ nest pre + -1 at hclose
        omega
    · have hsp := sp_of_trace htrace
      omega

/-- The rule `s : [ x ] ;`, with one group on its right-hand side. -/
def optionRule : Rule := ⟨['s'], .opt (.name ['x'] .nil) false .nil, []⟩

/-- The stack pointer stays in the array while `s : [ x ] ;` is read. -/
theorem guarded_iff_optionRule :
    Guarded .llama ([.firstSym] ++ [optionRule].flatMap Rule.calls) ↔
      ∀ pre post st, [.firstSym] ++ [optionRule].flatMap Rule.calls = pre ++ .startOpt :: post →
        Trace Tool.llama.Calls pre initActs st → nest pre + 1 < ssize :=
  guarded_iff .llama (by simp [ActsCall.shift]) [optionRule]

/-- A symbol in so many groups, one inside the other. -/
def nestedRhs : ℕ → Rhs
  | 0 => .name ['x'] .nil
  | n + 1 => .opt (nestedRhs n) false .nil

/-- The stack pointer leaves the array when `s : [[[[[[[[ x ]]]]]]]] ;` is read. -/
theorem not_guarded_nestedRhs :
    ¬ Guarded .llama ([.firstSym] ++ [⟨['s'], nestedRhs 8, []⟩].flatMap Rule.calls) := by
  intro h
  have hrun : ∃ st, Tool.llama.runCalls (.firstSym :: .newNonterm ['s'] true :: .newRhs ::
      List.replicate 7 .startOpt) initActs = .ok st := ⟨_, rfl⟩
  obtain ⟨st, hst⟩ := hrun
  have htrace := Tool.trace_iff.mpr hst
  have hsp := sp_of_trace htrace
  have hpos := (h.inside _ .startOpt _ st rfl htrace).2.1 rfl
  change ((st.sp : ℕ) : ℤ) + 7 + 1 = ((8 : ℕ) : ℤ) at hsp
  omega

end Nest

end Parser
