import Cgkits.Lex.Syntax

/-!
# The stack of discarded states (`nfa.c`)

A concatenation discards a state, and the next states that are made are taken from the stack of the
discarded ones.  In nested groups the states are made on the way in and discarded on the way out, so
that the stack grows with the depth of the groups.

The construction does with its counters what the demands of the rules say (`thompson_counts`): it
takes states, it discards states, and it stores accept strings.  For an expression the stack ends at
a height that is the larger one of two: what is left of the stack as it was before, and what the
expression leaves when the stack is empty before (`Regex.left`). So an expression raises the stack
to its own peak only (`Regex.peak`), whatever has been parsed before it, and `thompson_stack_iff`
says that the stack holds all discarded states if and only if it holds those of each expression.
-/

namespace Lex

/-! ## Demands -/

/-- What the construction does with its memory, as a sequence of calls. -/
inductive Demand
  /-- A call of `new`, which takes a state. -/
  | new
  /-- A call of `discard`, which gives a state back. -/
  | discard
  /-- A call of `save`, which stores an action. -/
  | save (str : List ℕ)

/-- What the construction of the machine counts, while the expressions are parsed. -/
structure Counters where
  /-- The discarded states on the stack. -/
  discarded : ℕ
  /-- `_nstates`, the number of states taken. -/
  live : ℕ
  /-- `savep`, the number of the next free `int` of the pool. -/
  savep : ℕ

/-- The counters of the construction, as its variables have them. -/
def States.counters (m : States) : Counters := ⟨m.stack.length, m.nstates, m.savep⟩

/-- The cursor `savep` behind an accept string, or the error that the string does not fit. -/
def savepAfter (savep : ℕ) (str : List ℕ) : Except Fault ℕ :=
  if str.head? = some 124 then .ok savep
  else if str ≠ [] ∧ strMax - 1 ≤ 4 * (savep + 1) + (str.length - 1) then
    .error (.parseErr .strings)
  else .ok (savep + 1 + (str.length + 4) / 4)

/-- What a demand does to the counters, which fail where the construction does. -/
def Counters.step (c : Counters) : Demand → Except Fault Counters
  | .new =>
    if nfaMax ≤ c.live + 1 then .error (.parseErr .length) else
      .ok ⟨c.discarded - 1, c.live + 1, c.savep⟩
  | .discard =>
    if ssize ≤ c.discarded then .error (.parseErr .stack) else
      .ok ⟨c.discarded + 1, c.live - 1, c.savep⟩
  | .save str => (savepAfter c.savep str).map fun v => ⟨c.discarded, c.live, v⟩

/-- What some demands one after the other do to the counters. -/
def Counters.run : List Demand → Counters → Except Fault Counters
  | [], c => .ok c
  | d :: l, c => c.step d >>= run l

/-- The demands of an expression, in the order in which the parser makes them. -/
def Regex.demands : Regex → List Demand
  | .alt e e' => e.demands ++ e'.demands ++ [.new, .new]
  | .cat e e' => e.demands ++ e'.demands ++ [.discard]
  | .star e | .plus e | .opt e => e.demands ++ [.new, .new]
  | _ => [.new, .new]

/-- The demands of a rule with its action, in the order in which they are made. -/
def RuleText.demands (r : RuleText) (action : List ℕ) : List Demand :=
  (if r.bol then [.new] else []) ++ r.body.demands ++ (if r.eol then [.new] else []) ++
    [.save action]

/-- The demands of a list of rules.  Each of them starts with the state that leads to it. -/
def demands (texts : List (RuleText × List ℕ)) : List Demand :=
  texts.flatMap fun p => .new :: p.1.demands p.2

/-- The number of live states after some demands. -/
def liveAfter (live : ℕ) (l : List Demand) : ℕ :=
  l.foldl (fun live d => match d with
    | .new => live + 1
    | .discard => live - 1
    | .save _ => live) live

/-- Fewer than `NFA_MAX` states are live after any of the demands. -/
def Roomy (live : ℕ) (l : List Demand) : Prop := ∀ l', l' <+: l → liveAfter live l' < nfaMax

/-! ## Expressions -/

/-- The number of states that the machine of an expression has. -/
def Regex.states : Regex → ℕ
  | .alt e e' => e.states + e'.states + 2
  | .cat e e' => e.states + e'.states - 1
  | .star e | .plus e | .opt e => e.states + 2
  | _ => 2

/-- The discarded states that an expression leaves on an empty stack. -/
def Regex.left : Regex → ℕ
  | .alt e e' => max e'.left (e.left - e'.states) - 2
  | .cat e e' => max e'.left (e.left - e'.states) + 1
  | .star e | .plus e | .opt e => e.left - 2
  | _ => 0

/-- The height to which an expression raises an empty stack. -/
def Regex.peak : Regex → ℕ
  | .alt e e' => max e.peak e'.peak
  | .cat e e' => max (max e.peak e'.peak) (max e'.left (e.left - e'.states) + 1)
  | .star e | .plus e | .opt e => e.peak
  | _ => 0

/-- The rules up to the first one whose action does not fit. -/
def readRules : ℕ → List (RuleText × List ℕ) → List RuleText
  | _, [] => []
  | savep, (r, action) :: texts =>
    r :: match savepAfter savep action with
      | .error _ => []
      | .ok savep => readRules savep texts

section Grammar

variable {ι : Type} (L : Lexer ι) (lit : ℤ → Prop)

/-- A rule with its action, up to the first token of the next one. -/
inductive DerivesAction : ι → RuleText → List ℕ → ι → Prop
  /-- `expr EOS action`, with or without anchors. -/
  | mk {s s₁ s₂ s₃ s₄ : ι} {bol eol : Bool} {e : Regex} : ReadsIf L bol .atBol s s₁ →
      Derives L lit .expr s₁ e s₂ → ReadsIf L eol .atEol s₂ s₃ → L.tok s₃ = .eos →
      L.advance (L.skipSpace s₃) = .ok s₄ →
      DerivesAction s ⟨bol, e, eol⟩ (L.input (L.skipSpace s₃)) s₄

/-- A list of rules with their actions up to the end of the input. -/
inductive DerivesActions : ι → List (RuleText × List ℕ) → Prop
  /-- `rule END_OF_INPUT`, the last rule and its action. -/
  | last {s s' : ι} {r : RuleText} {action : List ℕ} : DerivesAction L lit s r action s' →
      L.tok s' = .endOfInput → DerivesActions s [(r, action)]
  /-- `rule machine`, one more rule and its action. -/
  | cons {s s' : ι} {r : RuleText} {action : List ℕ} {texts : List (RuleText × List ℕ)} :
      DerivesAction L lit s r action s' → DerivesActions s' texts →
      DerivesActions s ((r, action) :: texts)

end Grammar

variable {ι : Type} {L : Lexer ι} {lit : ℤ → Prop} {unix : Bool}

/-- A rule is derived exactly when it is derived with some action. -/
lemma derivesRule_iff {s s' : ι} {r : RuleText} :
    DerivesRule L lit s r s' ↔ ∃ action, DerivesAction L lit s r action s' := by
  constructor
  · rintro ⟨hbol, hexpr, heol, heos, hadv⟩
    exact ⟨_, hbol, hexpr, heol, heos, hadv⟩
  · rintro ⟨_, hbol, hexpr, heol, heos, hadv⟩
    exact ⟨hbol, hexpr, heol, heos, hadv⟩

/-- The rules that are derived from a text are those that are derived together with their
actions. -/
theorem derivesRules_iff {s : ι} {texts : List RuleText} :
    DerivesRules L lit s texts ↔ ∃ l, DerivesActions L lit s l ∧ l.map Prod.fst = texts := by
  constructor
  · intro h
    induction h with
    | last hrule hend =>
      obtain ⟨action, haction⟩ := derivesRule_iff.mp hrule
      exact ⟨_, .last haction hend, rfl⟩
    | cons hrule _ ih =>
      obtain ⟨action, haction⟩ := derivesRule_iff.mp hrule
      obtain ⟨l, hl, rfl⟩ := ih
      exact ⟨_, .cons haction hl, rfl⟩
  · rintro ⟨l, h, rfl⟩
    induction h with
    | last haction hend => exact .last (derivesRule_iff.mpr ⟨_, haction⟩) hend
    | cons haction _ ih => exact .cons (derivesRule_iff.mpr ⟨_, haction⟩) ih

/-! ## The run of the counters -/

/-- Running some demands and some more is running the first and then the others. -/
lemma Counters.run_append (l l' : List Demand) (c : Counters) :
    Counters.run (l ++ l') c = Counters.run l c >>= Counters.run l' := by
  induction l generalizing c with
  | nil => rfl
  | cons d l ih =>
    change (c.step d >>= fun c => Counters.run (l ++ l') c) = (c.step d >>= Counters.run l) >>=
      Counters.run l'
    rcases c.step d with e | c'
    · rfl
    · exact ih c'

/-- The live states after some demands and some more are those after the second on top of the
first. -/
lemma liveAfter_append (live : ℕ) (l l' : List Demand) :
    liveAfter live (l ++ l') = liveAfter (liveAfter live l) l' := List.foldl_append

/-- A computation ends as the counters do: with their fault, or with a result that belongs to
them. -/
def Counts {α : Type} (r : Except Fault α) (c : Except Fault Counters) (Q : α → Counters → Prop) :
    Prop :=
  match c with
  | .error e => r = .error e
  | .ok c => ∃ x, r = .ok x ∧ Q x c

section Counts

variable {α β : Type} {r : Except Fault α} {c : Except Fault Counters} {Q : α → Counters → Prop}
  {R : β → Counters → Prop}

/-- When two computations count, doing one after the other counts. -/
lemma Counts.bind {fn : α → Except Fault β} {g : Counters → Except Fault Counters}
    (h : Counts r c Q) (hfn : ∀ x c', Q x c' → Counts (fn x) (g c') R) :
    Counts (r >>= fn) (c >>= g) R := by
  rcases c with e | c
  · have hr : r = .error e := h
    rw [hr]
    exact rfl
  · obtain ⟨x, rfl, hx⟩ := h
    exact hfn x c hx

/-- What is done with a result without memory leaves the counters as they are. -/
lemma Counts.map {fn : α → Except Fault β} (h : Counts r c Q)
    (hfn : ∀ x c', Q x c' → ∃ y, fn x = .ok y ∧ R y c') : Counts (r >>= fn) c R := by
  rcases c with e | c
  · have hr : r = .error e := h
    rw [hr]
    exact rfl
  · obtain ⟨x, rfl, hx⟩ := h
    exact hfn x c hx

end Counts

/-- A call of `new` counts as the demand for one state. -/
lemma new_counts (m : States) :
    Counts (new m) (m.counters.step .new) fun x c => x.2.counters = c := by
  unfold Counters.step new
  by_cases hroom : nfaMax ≤ m.nstates + 1
  · have hroom' : nfaMax ≤ m.counters.live + 1 := hroom
    rw [if_pos hroom, if_pos hroom']
    exact rfl
  · have hroom' : ¬ nfaMax ≤ m.counters.live + 1 := hroom
    rw [if_neg hroom, if_neg hroom']
    rcases hstack : m.stack with - | ⟨p, stack⟩
    · refine ⟨_, rfl, ?_⟩
      simp [States.counters, States.modify, hstack]
    · refine ⟨_, rfl, ?_⟩
      simp [States.counters, States.modify, hstack]

/-- `discard`.  It fails when there is no element of the stack left. -/
lemma discard_counts (q : ℕ) (m : States) :
    Counts (discard q m) (m.counters.step .discard) fun m' c => m'.counters = c := by
  unfold Counters.step discard
  by_cases hfull : ssize ≤ m.stack.length
  · have hfull' : ssize ≤ m.counters.discarded := hfull
    rw [if_pos hfull, if_pos hfull']
    exact rfl
  · have hfull' : ¬ ssize ≤ m.counters.discarded := hfull
    rw [if_neg hfull, if_neg hfull']
    exact ⟨_, rfl, rfl⟩

/-- `save` counts as the demand for one accept string. -/
lemma save_counts (str : List ℕ) (m : States) :
    Counts (save str m) (m.counters.step (.save str)) fun x c => x.2.counters = c := by
  have hsave :
      save str m = (savepAfter m.savep str).map fun v => (m.savep + 1, { m with savep := v }) := by
    unfold save savepAfter
    split_ifs
    · rfl
    · rfl
    · rfl
  have hstep : m.counters.step (.save str) = (savepAfter m.savep str).map fun v =>
    ⟨m.stack.length, m.nstates, v⟩ := rfl
  rw [hsave, hstep]
  rcases savepAfter m.savep str with e | v
  · exact rfl
  · exact ⟨_, rfl, rfl⟩

/-- `factor` puts two states around a piece, and counts as two demands. -/
lemma closeFrag_counts (t : Token) (f : Frag) (m : States) :
    Counts (closeFrag t f m) (Counters.run [.new, .new] m.counters) fun x c => x.2.counters =
    c := by
  refine (new_counts m).bind fun x c hx => ?_
  obtain rfl := hx
  refine (new_counts x.2).bind fun y c hy => ?_
  exact ⟨_, rfl, hy⟩

/-- A concatenation discards a state, and counts as this demand. -/
lemma joinFrag_counts (f g : Frag) (m : States) :
    Counts (joinFrag f g m) (Counters.run [.discard] m.counters) fun x c => x.2.counters = c :=
  (discard_counts g.start (m.modify f.stop fun _ => m.node g.start)).bind fun _ _ hm => ⟨_, rfl, hm⟩

/-- An alternative makes two states, and counts as these two demands. -/
lemma orFrag_counts (f g : Frag) (m : States) :
    Counts (orFrag f g m) (Counters.run [.new, .new] m.counters) fun x c => x.2.counters = c := by
  refine (new_counts m).bind fun x c hx => ?_
  obtain rfl := hx
  refine (new_counts
    (x.2.modify x.1 fun p => { p with next2 := some g.start, next := some f.start })).bind
    fun y c hy => ?_
  exact ⟨_, rfl, hy⟩

/-! ## The parser -/

/-- A parser of a piece has come to `s'`, with its counters. -/
def Comes (s' : ι) (x : Frag × Parse ι) (c : Counters) : Prop := x.2.lex = s' ∧ x.2.nfa.counters = c

/-- `term` for a character makes two states and comes behind the character. -/
lemma termChar_counts {s s' : ι} (hc : (L.tok s).IsChar) (hadv : L.advance s = .ok s') (n : ℕ)
    (m : States) : Counts (termChar L unix n ⟨s, m⟩) (Counters.run [.new, .new] m.counters)
    (Comes s') := by
  have htok : L.tok s ≠ .any ∧ L.tok s ≠ .cclStart := by
    rcases hc with h | h | h | h <;> rw [h] <;> decide
  refine (new_counts m).bind fun x c hx => ?_
  obtain rfl := hx
  refine (new_counts x.2).bind fun y c hy => ?_
  dsimp only
  rw [if_pos htok, hadv]
  exact ⟨_, rfl, rfl, hy⟩

/-- `term` for a class makes two states and comes behind the class. -/
lemma termClass_counts {s s₁ s' : ι} {C : Set (Fin maxChars)}
    (htok : L.tok s = .any ∨ L.tok s = .cclStart) (hclass : ClassOk L unix s s₁ C)
    (hadv : L.advance s₁ = .ok s') : ∃ N, ∀ k ≥ N, ∀ n ≥ N, ∀ m : States,
      Counts (term L unix (expr L unix k) n ⟨s, m⟩) (Counters.run [.new, .new] m.counters)
      (Comes s') := by
  obtain ⟨N, hN⟩ := hclass
  refine ⟨N, fun k _ n hn m => ?_⟩
  obtain ⟨set, hset, -⟩ := hN n hn
  have hparen : L.tok s ≠ .openParen := by
    rcases htok with h | h <;> rw [h] <;> decide
  have htok' : ¬ (L.tok s ≠ .any ∧ L.tok s ≠ .cclStart) := by
    rintro ⟨h₁, h₂⟩
    exact htok.elim h₁ h₂
  rw [term, if_neg hparen]
  refine (new_counts m).bind fun x c hx => ?_
  obtain rfl := hx
  refine (new_counts x.2).bind fun y c hy => ?_
  dsimp only
  rw [if_neg htok', hset, ok_bind]
  dsimp only
  rw [hadv]
  exact ⟨_, rfl, rfl, hy⟩

/-- What the parser of a nonterminal does to the counters on a text that is derived from it, given
that the token behind can follow.  The number of steps has to be large enough. -/
def Nonterminal.Counts (L : Lexer ι) (unix : Bool) (nt : Nonterminal) (s : ι) (e : Regex) (s' : ι) :
    Prop :=
  match nt with
  | .term => ∃ N, ∀ k ≥ N, ∀ n ≥ N, ∀ m : States,
      Lex.Counts (Lex.term L unix (Lex.expr L unix k) n ⟨s, m⟩) (Counters.run e.demands m.counters)
      (Comes s')
  | .factor => ¬ (L.tok s').IsClosure → ∃ N, ∀ k ≥ N, ∀ n ≥ N, ∀ m : States,
      Lex.Counts (Lex.factor L unix (Lex.expr L unix k) n ⟨s, m⟩)
      (Counters.run e.demands m.counters) (Comes s')
  | .catExpr => firstInCat (L.tok s') = .ok false → ∃ N, ∀ k ≥ N, ∀ n ≥ N, ∀ m : States,
      Lex.Counts (Lex.catExpr L unix (Lex.expr L unix k) n ⟨s, m⟩)
      (Counters.run e.demands m.counters) (Comes s')
  | .catExpr' acc => firstInCat (L.tok s') = .ok false → ∃ l, e.demands = acc.demands ++ l ∧
      ∃ N, ∀ k ≥ N, ∀ n ≥ N, ∀ (m : States) (f : Frag),
      Lex.Counts (catLoop L unix (Lex.expr L unix k) n f ⟨s, m⟩) (Counters.run l m.counters)
      (Comes s')
  | .expr => firstInCat (L.tok s') = .ok false → L.tok s' ≠ .or → ∃ N, ∀ n ≥ N, ∀ m : States,
      Lex.Counts (Lex.expr L unix n ⟨s, m⟩) (Counters.run e.demands m.counters) (Comes s')
  | .expr' acc =>
    firstInCat (L.tok s') = .ok false → L.tok s' ≠ .or → ∃ l, e.demands = acc.demands ++ l ∧
      ∃ N, ∀ k ≥ N, ∀ n ≥ N, ∀ (m : States) (f : Frag),
      Lex.Counts (exprLoop L unix (Lex.expr L unix k) n f ⟨s, m⟩) (Counters.run l m.counters)
      (Comes s')

/-- `factor` for a term with a closure makes the states of the term and two more. -/
lemma closure_counts {s s₁ s₂ : ι} {e e' : Regex} {t : Token} (ht : t.IsClosure)
    (ih : Nonterminal.Counts L unix .term s e s₁) (hread : Reads L t s₁ s₂)
    (hdemands : e'.demands = e.demands ++ [.new, .new]) :
    Nonterminal.Counts L unix .factor s e' s₂ := by
  intro _
  have htok : t = .closrue ∨ t = .plusClose ∨ t = .optional := ht
  obtain ⟨N, hN⟩ := ih
  refine ⟨N, fun k hk n hn m => ?_⟩
  rw [hdemands, Counters.run_append]
  refine (hN k hk n hn m).bind fun x c hx => ?_
  obtain ⟨f, ⟨s', m₁⟩⟩ := x
  obtain ⟨hlex, hm⟩ : s' = s₁ ∧ m₁.counters = c := hx
  subst hlex hm
  change Counts (if L.tok s' = .closrue ∨ L.tok s' = .plusClose ∨
    L.tok s' = .optional then _ else _) _ _
  rw [hread.1, if_pos htok]
  refine (closeFrag_counts t f m₁).map fun y c' hy => ?_
  dsimp only
  rw [advance_eq hread.2, ok_bind]
  exact ⟨_, rfl, rfl, hy⟩

/-- The parser does to the counters what the demands of the expression do. -/
lemma Derives.counts (unix : Bool) {nt : Nonterminal} {s s' : ι} {e : Regex}
    (h : Derives L lit nt s e s') : nt.Counts L unix s e s' := by
  induction h with
  | @char s s' hc _ hadv =>
    refine ⟨0, fun k _ n _ m => ?_⟩
    have hparen : L.tok s ≠ .openParen := by
      rcases hc with h | h | h | h <;> rw [h] <;> decide
    rw [term, if_neg hparen]
    exact termChar_counts hc hadv n m
  | any h => exact termClass_counts (Or.inl h.1) (classOk_any h.1) h.2
  | cls hstart hbol hend hitems hadv =>
    exact termClass_counts (Or.inr hstart.1) (classOk_cls hstart hbol hend hitems) hadv
  | clsNeg hstart hbol hend hitems hadv =>
    exact termClass_counts (Or.inr hstart.1) (classOk_clsNeg hstart hbol hend hitems) hadv
  | blank hstart hend =>
    exact termClass_counts (Or.inr hstart.1) (classOk_blank hstart hend.1) hend.2
  | blankNeg hstart hbol hend =>
    exact termClass_counts (Or.inr hstart.1) (classOk_blankNeg hstart hbol hend.1) hend.2
  | @group s s₁ s₂ s₃ e hopen _ hclose ih =>
    obtain ⟨N, hN⟩ := ih (by rw [hclose.1]; rfl) (by rw [hclose.1]; decide)
    refine ⟨N, fun k hk n _ m => ?_⟩
    rw [term, if_pos hopen.1, advance_eq hopen.2, ok_bind]
    refine (hN k hk m).map fun x c hx => ?_
    obtain ⟨f, ⟨s', m₁⟩⟩ := x
    obtain ⟨rfl, rfl⟩ := hx
    dsimp only
    rw [if_pos hclose.1, advance_eq hclose.2, ok_bind]
    exact ⟨_, rfl, rfl, rfl⟩
  | @factor s s' e _ ih =>
    intro hclosure
    have htok : ¬ (L.tok s' = .closrue ∨ L.tok s' = .plusClose ∨ L.tok s' = .optional) := hclosure
    obtain ⟨N, hN⟩ := ih
    refine ⟨N, fun k hk n hn m => ?_⟩
    refine (hN k hk n hn m).map fun x c hx => ?_
    obtain ⟨f, ⟨s₁, m₁⟩⟩ := x
    obtain ⟨rfl, rfl⟩ := hx
    dsimp only
    rw [if_neg htok]
    exact ⟨_, rfl, rfl, rfl⟩
  | star _ hread ih => exact closure_counts (Or.inl rfl) ih hread rfl
  | plus _ hread ih => exact closure_counts (Or.inr (Or.inl rfl)) ih hread rfl
  | opt _ hread ih => exact closure_counts (Or.inr (Or.inr rfl)) ih hread rfl
  | @catExpr s s₁ s₂ e e' hfactor hrest ih ih' =>
    intro hend
    obtain ⟨N, hN⟩ := ih (hrest.not_isClosure hend)
    obtain ⟨l, hl, N', hN'⟩ := ih' hend
    refine ⟨max N N', fun k hk n hn m => ?_⟩
    have hstart : firstInCat (L.tok s) = .ok true := (Token.StartsTerm.spec hfactor.starts).1
    rw [Lex.catExpr, hstart, ok_bind, if_pos rfl, hl, Counters.run_append]
    refine (hN k (by omega) n (by omega) m).bind fun x c hx => ?_
    obtain ⟨f, ⟨s', m₁⟩⟩ := x
    obtain ⟨rfl, rfl⟩ := hx
    exact hN' k (by omega) n (by omega) m₁ f
  | @catNil s e =>
    intro hend
    refine ⟨[], (List.append_nil _).symm, 1, fun k _ n hn m f => ?_⟩
    obtain ⟨n, rfl⟩ := Nat.exists_eq_add_of_le' hn
    rw [catLoop, hend, ok_bind, if_neg (by decide)]
    exact ⟨_, rfl, rfl, rfl⟩
  | @catCons s s₁ s₂ e e' e'' hfactor hrest ih ih' =>
    intro hend
    obtain ⟨N, hN⟩ := ih (hrest.not_isClosure hend)
    obtain ⟨l, hl, N', hN'⟩ := ih' hend
    refine ⟨e'.demands ++ ([.discard] ++ l), ?_, max N N' + 1, fun k hk n hn m f => ?_⟩
    · simp only [hl, Regex.demands, List.append_assoc]
    obtain ⟨n, rfl⟩ : ∃ n', n = n' + 1 := ⟨n - 1, by omega⟩
    have hstart : firstInCat (L.tok s) = .ok true := (Token.StartsTerm.spec hfactor.starts).1
    rw [catLoop, hstart, ok_bind, if_pos rfl, Counters.run_append]
    refine (hN k (by omega) n (by omega) m).bind fun x c hx => ?_
    obtain ⟨g, ⟨s', m₁⟩⟩ := x
    obtain ⟨rfl, rfl⟩ := hx
    dsimp only
    rw [Counters.run_append]
    refine (joinFrag_counts f g m₁).bind fun y c' hy => ?_
    obtain rfl := hy
    exact hN' k (by omega) n (by omega) y.2 y.1
  | @expr s s₁ s₂ e e' hcat hrest ih ih' =>
    intro hend hor
    obtain ⟨N, hN⟩ := ih (hrest.firstInCat_eq hend)
    obtain ⟨l, hl, N', hN'⟩ := ih' hend hor
    refine ⟨max N N' + 1, fun n hn m => ?_⟩
    obtain ⟨n, rfl⟩ : ∃ n', n = n' + 1 := ⟨n - 1, by omega⟩
    rw [Lex.expr, hl, Counters.run_append]
    refine (hN n (by omega) n (by omega) m).bind fun x c hx => ?_
    obtain ⟨f, ⟨s', m₁⟩⟩ := x
    obtain ⟨rfl, rfl⟩ := hx
    exact hN' n (by omega) n (by omega) m₁ f
  | @exprNil s e =>
    intro _ hor
    refine ⟨[], (List.append_nil _).symm, 1, fun k _ n hn m f => ?_⟩
    obtain ⟨n, rfl⟩ := Nat.exists_eq_add_of_le' hn
    rw [exprLoop, if_neg hor]
    exact ⟨_, rfl, rfl, rfl⟩
  | @exprCons s s₁ s₂ s₃ e e' e'' hread hcat hrest ih ih' =>
    intro hend hor
    obtain ⟨N, hN⟩ := ih (hrest.firstInCat_eq hend)
    obtain ⟨l, hl, N', hN'⟩ := ih' hend hor
    refine ⟨e'.demands ++ ([.new, .new] ++ l), ?_, max N N' + 1, fun k hk n hn m f => ?_⟩
    · simp only [hl, Regex.demands, List.append_assoc]
    obtain ⟨n, rfl⟩ : ∃ n', n = n' + 1 := ⟨n - 1, by omega⟩
    rw [exprLoop, if_pos hread.1, advance_eq hread.2, ok_bind, Counters.run_append]
    refine (hN k (by omega) n (by omega) m).bind fun x c hx => ?_
    obtain ⟨g, ⟨s', m₁⟩⟩ := x
    obtain ⟨rfl, rfl⟩ := hx
    dsimp only
    rw [Counters.run_append]
    refine (orFrag_counts f g m₁).bind fun y c' hy => ?_
    obtain rfl := hy
    exact hN' k (by omega) n (by omega) y.2 y.1

/-! ## Rules -/

/-- The expression of a rule makes its states, and one more for a `^` in front of it. -/
lemma ruleExpr_counts (unix : Bool) {bol : Bool} {e : Regex} {s s' s'' : ι}
    (hbol : ReadsIf L bol .atBol s s') (hexpr : Derives L lit .expr s' e s'')
    (hend : firstInCat (L.tok s'') = .ok false) (hor : L.tok s'' ≠ .or) : ∃ N, ∀ n ≥ N, ∀ m :
    States, Counts (ruleExpr L unix n ⟨s, m⟩)
      (Counters.run ((if bol then [.new] else []) ++ e.demands) m.counters)
      fun x c => x.2.2.lex = s'' ∧ x.2.2.nfa.counters = c := by
  obtain ⟨N, hN⟩ := hexpr.counts unix hend hor
  refine ⟨N, fun n hn m => ?_⟩
  rcases bol with - | -
  · have hs : s' = s := hbol
    subst hs
    have htok : L.tok s' ≠ .atBol := (Token.StartsTerm.spec hexpr.starts).2.2.1
    rw [ruleExpr, if_neg htok]
    exact (hN n hn m).map fun x c hx => ⟨_, rfl, hx⟩
  · have hread : Reads L .atBol s s' := hbol
    rw [ruleExpr, if_pos hread.1, if_pos rfl]
    change Counts _ (m.counters.step .new >>= Counters.run e.demands) _
    refine (new_counts m).bind fun x c hx => ?_
    obtain rfl := hx
    dsimp only
    rw [advance_eq hread.2, ok_bind]
    exact (hN n hn (x.2.modify x.1 fun p => { p with edge := 10 })).map fun y c hy => ⟨_, rfl, hy⟩

/-- The end of the expression of a rule, with the state for `$`. -/
lemma ruleEol_counts (unix : Bool) {eol : Bool} {s s' : ι} (heol : ReadsIf L eol .atEol s s')
    (heos : L.tok s' = .eos) (f : Frag) (anchor : ℕ) (m : States) :
    Counts (ruleEol L unix f anchor ⟨s, m⟩)
      (Counters.run (if eol then [.new] else []) m.counters) fun x c => x.2.2.lex = s' ∧
      x.2.2.nfa.counters = c := by
  rcases eol with - | -
  · have hs : s' = s := heol
    subst hs
    have htok : L.tok s' ≠ .atEol := by
      rw [heos]
      decide
    rw [ruleEol, if_neg htok]
    exact ⟨_, rfl, rfl, rfl⟩
  · have hread : Reads L .atEol s s' := heol
    rw [ruleEol, if_pos hread.1, advance_eq hread.2, ok_bind]
    refine (new_counts m).bind fun x c hx => ?_
    exact ⟨_, rfl, rfl, hx⟩

/-- A rule counts as the demands of its expression, its anchors and its action. -/
lemma rule_counts (unix : Bool) {s s' : ι} {r : RuleText} {action : List ℕ}
    (h : DerivesAction L lit s r action s') : ∃ N, ∀ n ≥ N, ∀ m :
    States, Counts (rule L unix n ⟨s, m⟩) (Counters.run (r.demands action) m.counters)
      fun x c => x.2.lex = s' ∧ x.2.nfa.counters = c := by
  obtain ⟨hbol, hexpr, heol, heos, hadv⟩ := h
  rename_i s₁ s₂ s₃ bol eol e
  obtain ⟨hend, hor⟩ : Nonterminal.expr.Ends (L.tok s₂) :=
    expr_ends ((ends_of_eol heol heos).imp_right Or.inr)
  obtain ⟨N, hN⟩ := ruleExpr_counts unix hbol hexpr hend hor
  refine ⟨N, fun n hn m => ?_⟩
  unfold rule RuleText.demands
  rw [List.append_assoc, Counters.run_append]
  refine (hN n hn m).bind fun x c hx => ?_
  obtain ⟨f, anchor, ⟨s', m₁⟩⟩ := x
  obtain ⟨rfl, rfl⟩ := hx
  rw [Counters.run_append]
  refine (ruleEol_counts unix heol heos f anchor m₁).bind fun x c hx => ?_
  obtain ⟨g, anchor', ⟨s', m₂⟩⟩ := x
  obtain ⟨rfl, rfl⟩ := hx
  refine (save_counts (L.input (L.skipSpace s')) m₂).bind fun x c hx => ?_
  dsimp only
  rw [hadv, ok_bind]
  exact ⟨_, rfl, rfl, hx⟩

/-- A rule with an action starts with no end of the input. -/
lemma DerivesActions.tok_ne {s : ι} {texts : List (RuleText × List ℕ)}
    (h : DerivesActions L lit s texts) : L.tok s ≠ .endOfInput :=
  (derivesRules_iff.mpr ⟨texts, h, rfl⟩).tok_ne

/-- The rules of a text count as the demands of each of them, in order. -/
lemma machineRest_counts (unix : Bool) {s : ι} {texts : List (RuleText × List ℕ)}
    (h : DerivesActions L lit s texts) : ∃ N, ∀ n ≥ N, ∀ (m : States) (q : ℕ)
    (rules : List Rule), Counts (machineRest L unix n q rules ⟨s, m⟩)
      (Counters.run (demands texts).tail m.counters) fun x c => x.2.nfa.counters = c := by
  induction h with
  | @last s s' r action hrule hend =>
    obtain ⟨N, hN⟩ := rule_counts unix hrule
    refine ⟨N + 1, fun n hn m q rules => ?_⟩
    obtain ⟨n, rfl⟩ : ∃ n', n = n' + 1 := ⟨n - 1, by omega⟩
    have htail : (demands [(r, action)]).tail = r.demands action := List.append_nil _
    rw [htail]
    refine (hN (n + 1) (by omega) m).map fun x c hx => ?_
    obtain ⟨q', ⟨s', m₁⟩⟩ := x
    obtain ⟨rfl, rfl⟩ := hx
    dsimp only
    rw [machineLoop, if_pos hend]
    exact ⟨_, rfl, rfl⟩
  | @cons s s' r action texts hrule hrules ih =>
    obtain ⟨N, hN⟩ := rule_counts unix hrule
    obtain ⟨N', hN'⟩ := ih
    refine ⟨max N N' + 1, fun n hn m q rules => ?_⟩
    obtain ⟨n, rfl⟩ : ∃ n', n = n' + 1 := ⟨n - 1, by omega⟩
    have hne : texts ≠ [] := by
      rcases hrules with ⟨_, _⟩ | ⟨_, _⟩ <;> exact List.cons_ne_nil _ _
    have htail :
        (demands ((r, action) :: texts)).tail = r.demands action ++
        ([.new] ++ (demands texts).tail) := by
      obtain ⟨p, texts, rfl⟩ := List.exists_cons_of_ne_nil hne
      rfl
    rw [htail, Counters.run_append]
    refine (hN (n + 1) (by omega) m).bind fun x c hx => ?_
    obtain ⟨q', ⟨s', m₁⟩⟩ := x
    obtain ⟨rfl, rfl⟩ := hx
    dsimp only
    rw [machineLoop, if_neg hrules.tok_ne]
    change Counts _ (m₁.counters.step .new >>= Counters.run (demands texts).tail) _
    refine (new_counts (m₁.modify q fun s => { s with next := some q'.start })).bind fun y c hy =>
      ?_
    obtain rfl := hy
    exact hN' n (by omega) (y.2.modify q fun s => { s with next2 := some y.1 }) y.1 (rules ++ [q'])

/-! ## The stack -/

section Stack

variable {live : ℕ} {l l' : List Demand} {c : Counters}

/-- When there is room for some demands, there is room for the first of them. -/
lemma Roomy.left (h : Roomy live (l ++ l')) : Roomy live l :=
  fun _ hpre => h _ (hpre.trans (List.prefix_append l l'))

/-- There is room for the demands behind the first ones. -/
lemma Roomy.right (h : Roomy live (l ++ l')) : Roomy (liveAfter live l) l' := by
  intro l₁ hpre
  rw [← liveAfter_append]
  exact h _ ((List.prefix_append_right_inj l).mpr hpre)

/-- When there is room for a state, one more is made and none is missing. -/
lemma Roomy.step_new (h : Roomy c.live [.new]) :
    c.step .new = .ok ⟨c.discarded - 1, c.live + 1, c.savep⟩ := by
  have hlt : c.live + 1 < nfaMax := h _ (List.prefix_refl _)
  exact if_neg (Nat.not_le_of_lt hlt)

/-- When there is room for two states, two more are made. -/
lemma Roomy.run_new_new (h : Roomy c.live [.new, .new]) :
    Counters.run [.new, .new] c = .ok ⟨c.discarded - 2, c.live + 2, c.savep⟩ := by
  have hfirst : Roomy c.live [.new] := @Roomy.left _ [.new] [.new] h
  have hsecond : Roomy (c.live + 1) [.new] := @Roomy.right _ [.new] [.new] h
  change (c.step .new >>= Counters.run [.new]) = _
  rw [hfirst.step_new]
  change (Counters.step ⟨c.discarded - 1, c.live + 1, c.savep⟩ .new >>= Counters.run []) = _
  rw [Roomy.step_new hsecond]
  rfl

/-- Some demands make `states` states more than they discard.  On an empty stack they leave `left`
discarded states, and they raise it to `peak`.  On a stack that is not empty they leave what they
leave on an empty one, or what is left of the stack, and there is no room on it if and only if there
is none on an empty one. -/
structure Raises (l : List Demand) (left peak states : ℕ) : Prop where
  /-- More states are made than discarded. -/
  pos : 0 < states
  /-- What is left on an empty stack has been on it. -/
  left_le : left ≤ peak
  /-- The number of live states rises by `states`. -/
  live : ∀ live, liveAfter live l = live + states
  /-- The counters go through where there is room for the peak. -/
  run : ∀ c : Counters, c.discarded ≤ ssize → Roomy c.live l →
      Counters.run l c = if peak ≤ ssize then
    .ok ⟨max left (c.discarded - states), c.live + states, c.savep⟩ else .error (.parseErr .stack)

/-- Two calls of `new` raise the number of live states by two and discard nothing. -/
lemma raises_new_new : Raises [.new, .new] 0 0 2 := by
  refine ⟨Nat.two_pos, Nat.le_refl 0, fun live => rfl, fun c _ hroom => ?_⟩
  rw [hroom.run_new_new, if_pos (Nat.zero_le _), Nat.zero_max]

/-- The bounds of some demands and some more come from the bounds of both. -/
lemma Raises.append {left peak states left' peak' states' : ℕ} (h : Raises l left peak states)
    (h' : Raises l' left' peak' states') :
    Raises (l ++ l') (max left' (left - states')) (max peak peak') (states + states') := by
  have hle := h.left_le
  have hle' := h'.left_le
  refine ⟨Nat.add_pos_left h.pos _, by omega, fun live => ?_, fun c hc hroom => ?_⟩
  · rw [liveAfter_append, h.live, h'.live, Nat.add_assoc]
  have hroom' : Roomy (c.live + states) l' := h.live c.live ▸ hroom.right
  rw [Counters.run_append, h.run c hc hroom.left]
  by_cases hpeak : peak ≤ ssize
  · rw [if_pos hpeak]
    change Counters.run l' ⟨max left (c.discarded - states), c.live + states, c.savep⟩ = _
    have hc' : max left (c.discarded - states) ≤ ssize := by omega
    rw [h'.run _ hc' hroom']
    have hleft : max left' (max left (c.discarded - states) - states') =
        max (max left' (left - states')) (c.discarded - (states + states')) := by omega
    have hboth : max peak peak' ≤ ssize ↔ peak' ≤ ssize := by omega
    rw [if_congr hboth rfl rfl, hleft, Nat.add_assoc]
  · rw [if_neg hpeak, if_neg (by omega)]
    rfl

/-- When a state is discarded behind some demands, one more is left on the stack. -/
lemma Raises.discard {left peak states : ℕ} (h : Raises l left peak states) (hstates : 1 < states) :
    Raises (l ++ [.discard]) (left + 1) (max peak (left + 1)) (states - 1) := by
  refine ⟨by omega, Nat.le_max_right _ _, fun live => ?_, fun c hc hroom => ?_⟩
  · rw [liveAfter_append, h.live]
    change live + states - 1 = live + (states - 1)
    omega
  rw [Counters.run_append, h.run c hc hroom.left]
  by_cases hpeak : peak ≤ ssize
  · rw [if_pos hpeak]
    change ((if ssize ≤ max left (c.discarded - states) then _ else _) >>= Counters.run []) = _
    have hpos : 0 < ssize := Nat.succ_pos 31
    by_cases hfull : ssize ≤ max left (c.discarded - states)
    · rw [if_pos hfull, if_neg (by omega)]
      rfl
    · have hleft :
        max left (c.discarded - states) + 1 = max (left + 1) (c.discarded - (states - 1)) := by
          omega
      have hlive : c.live + states - 1 = c.live + (states - 1) := by omega
      rw [if_neg hfull, if_pos (by omega), ← hleft, ← hlive]
      rfl
  · rw [if_neg hpeak, if_neg (by omega)]
    rfl

/-- The bounds of an expression are those that are computed from it. -/
lemma Regex.raises (e : Regex) : Raises e.demands e.left e.peak e.states := by
  induction e with
  | alt e e' ih ih' =>
    have h := (ih.append ih').append raises_new_new
    rwa [Nat.zero_max, Nat.max_zero] at h
  | cat e e' ih ih' =>
    have hpos := ih.pos
    have hpos' := ih'.pos
    exact (ih.append ih').discard (by omega)
  | star e ih | plus e ih | opt e ih =>
    have h := ih.append raises_new_new
    rwa [Nat.zero_max, Nat.max_zero] at h
  | char | any | cls | blank => exact raises_new_new

/-- A state that is made only for an anchor is made when there is room. -/
lemma Roomy.run_if (b : Bool) (h : Roomy c.live (if b then [.new] else [])) :
    ∃ d ≤ c.discarded, Counters.run (if b then [.new] else []) c =
      .ok ⟨d, liveAfter c.live (if b then [.new] else []), c.savep⟩ := by
  rcases b with - | -
  · exact ⟨c.discarded, Nat.le_refl _, rfl⟩
  · refine ⟨c.discarded - 1, Nat.sub_le _ 1, ?_⟩
    rw [if_pos rfl] at h ⊢
    change (c.step .new >>= Counters.run []) = _
    rw [h.step_new]
    rfl

/-- A rule, with the state that leads to it, leaves the counters within their bounds. -/
lemma RuleText.run_demands (r : RuleText) (action : List ℕ) (hc : c.discarded ≤ ssize)
    (hroom : Roomy c.live (.new :: r.demands action)) :
    ∃ d ≤ ssize, Counters.run (.new :: r.demands action) c =
      if r.body.peak ≤ ssize then
        (savepAfter c.savep action).map fun v => ⟨d, liveAfter c.live (.new :: r.demands action), v⟩
      else .error (.parseErr .stack) := by
  have hsplit : .new :: r.demands action = [.new] ++ ((if r.bol then [.new] else []) ++
      (r.body.demands ++ ((if r.eol then [.new] else []) ++ [.save action]))) := by
    simp only [RuleText.demands, List.append_assoc, List.singleton_append]
  rw [hsplit] at hroom ⊢
  have hroom₁ := hroom.right
  have hroom₂ := hroom₁.right
  have hroom₃ := hroom₂.right
  obtain ⟨d₁, hd₁, hrun₁⟩ := Roomy.run_if (c := c) true hroom.left
  obtain ⟨d₂, hd₂, hrun₂⟩ :=
    Roomy.run_if (c := ⟨d₁, liveAfter c.live [.new], c.savep⟩) r.bol hroom₁.left
  have hd : d₂ ≤ ssize := Nat.le_trans hd₂ (Nat.le_trans hd₁ hc)
  have hrun₃ :=
    r.body.raises.run ⟨d₂, liveAfter (liveAfter c.live [.new]) (if r.bol then [.new] else []),
      c.savep⟩ hd
    hroom₂.left
  rw [if_pos rfl] at hrun₁
  rw [Counters.run_append, hrun₁, ok_bind, Counters.run_append, hrun₂, ok_bind, Counters.run_append,
    hrun₃]
  by_cases hpeak : r.body.peak ≤ ssize
  · rw [if_pos hpeak, ok_bind, Counters.run_append]
    have hle := r.body.raises.left_le
    rw [r.body.raises.live] at hroom₃
    obtain ⟨d₃, hd₃, hrun₄⟩ := Roomy.run_if (c := ⟨max r.body.left (d₂ - r.body.states),
      liveAfter (liveAfter c.live [.new]) (if r.bol then [.new] else []) + r.body.states, c.savep⟩)
      r.eol hroom₃.left
    have hd' : max r.body.left (d₂ - r.body.states) ≤ ssize := by omega
    rw [hrun₄, ok_bind]
    refine ⟨d₃, Nat.le_trans hd₃ hd', ?_⟩
    rw [if_pos hpeak, liveAfter_append, liveAfter_append, liveAfter_append, liveAfter_append,
      r.body.raises.live]
    change ((savepAfter c.savep action).map _ >>= Counters.run []) = _
    rcases savepAfter c.savep action with e | v
    · rfl
    · rfl
  · rw [if_neg hpeak]
    refine ⟨d₂, hd, ?_⟩
    rw [if_neg hpeak]
    rfl

/-- An accept string that does not fit is the only failure of `savep`. -/
lemma savepAfter_error {savep : ℕ} {str : List ℕ} {e : Fault}
    (h : savepAfter savep str = .error e) : e = .parseErr .strings := by
  unfold savepAfter at h
  split_ifs at h
  exact (Except.error.inj h).symm

/-- The stack is full in one of the rules that are read. -/
lemma run_demands_iff : ∀ {texts : List (RuleText × List ℕ)} {c : Counters}, c.discarded ≤ ssize →
    Roomy c.live (demands texts) → (Counters.run (demands texts) c ≠ .error (.parseErr .stack) ↔
      ∀ r ∈ readRules c.savep texts, r.body.peak ≤ ssize) := by
  intro texts
  induction texts with
  | nil =>
    intro c _ _
    exact ⟨fun _ r hr => absurd hr List.not_mem_nil, fun _ => nofun⟩
  | cons p texts ih =>
    obtain ⟨r, action⟩ := p
    intro c hc hroom
    have hsplit : demands ((r, action) :: texts) = (.new :: r.demands action) ++ demands texts :=
      rfl
    rw [hsplit] at hroom ⊢
    obtain ⟨d, hd, hrun⟩ := r.run_demands action hc hroom.left
    rw [Counters.run_append, hrun, readRules, List.forall_mem_cons]
    by_cases hpeak : r.body.peak ≤ ssize
    · rw [if_pos hpeak, and_iff_right hpeak]
      rcases hsave : savepAfter c.savep action with e | v
      · refine ⟨fun _ r hr => absurd hr List.not_mem_nil, fun _ h => ?_⟩
        rw [savepAfter_error hsave] at h
        change (Except.error (.parseErr .strings) : Except Fault Counters) = _ at h
        cases h
      · exact @ih ⟨d, liveAfter c.live (.new :: r.demands action), v⟩ hd hroom.right
    · rw [if_neg hpeak]
      exact ⟨fun h => absurd rfl h, fun h => absurd h.1 hpeak⟩

end Stack

/-! ## Thompson's construction -/

/-- The construction ends with a machine or a fault as the counters do. -/
lemma thompson_counts (unix : Bool) {s lex : ι} {texts : List (RuleText × List ℕ)}
    (hadv : L.advance s = .ok lex) (h : DerivesActions L lit lex texts) :
    ∃ N, ∀ n ≥ N, Counts (thompson L unix n s)
      (Counters.run (demands texts) ⟨0, 0, 0⟩) fun x c => x.2.2.counters = c := by
  obtain ⟨N, hN⟩ := machineRest_counts unix h
  refine ⟨N, fun n hn => ?_⟩
  have hfirst : demands texts = .new :: (demands texts).tail := by
    rcases h with ⟨_, _⟩ | ⟨_, _⟩
    · rfl
    · rfl
  rw [thompson_eq hadv, hfirst]
  change Counts _ (States.init.counters.step .new >>= Counters.run (demands texts).tail) _
  refine (new_counts .init).bind fun x c hx => ?_
  obtain rfl := hx
  exact (hN n hn x.2 x.1 []).map fun y c' hy => ⟨_, rfl, hy⟩

/-- When the counters fail, it is with a message of the parser. -/
lemma Counters.run_error {l : List Demand} {e : Fault} :
    ∀ {c : Counters}, Counters.run l c = .error e → ∃ type, e = .parseErr type := by
  induction l with
  | nil => exact fun {c} h => by cases h
  | cons d l ih =>
    intro c h
    change (c.step d >>= Counters.run l) = _ at h
    rcases hstep : c.step d with e' | c'
    · rw [hstep] at h
      obtain rfl : e' = e := Except.error.inj h
      rcases d with - | - | str
      · change (if nfaMax ≤ c.live + 1 then .error (.parseErr .length) else .ok _) = Except.error e'
          at hstep
        split_ifs at hstep
        exact ⟨_, (Except.error.inj hstep).symm⟩
      · change (if ssize ≤ c.discarded then .error (.parseErr .stack) else .ok _) = Except.error e'
          at hstep
        split_ifs at hstep
        exact ⟨_, (Except.error.inj hstep).symm⟩
      · change (savepAfter c.savep str).map _ = _ at hstep
        rcases hsave : savepAfter c.savep str with e | v
        · rw [hsave] at hstep
          obtain rfl : e = e' := Except.error.inj hstep
          exact ⟨_, savepAfter_error hsave⟩
        · rw [hsave] at hstep
          cases hstep
    · rw [hstep] at h
      exact ih h

/-- With enough steps the construction comes to an end, and it reports that the stack is full if the
counters do. -/
lemma thompson_ends (unix : Bool) {s lex : ι} {texts : List (RuleText × List ℕ)}
    (hadv : L.advance s = .ok lex) (h : DerivesActions L lit lex texts) :
    ∃ N, ∀ n ≥ N, thompson L unix n s ≠ .error .fuel ∧
      (thompson L unix n s ≠ .error (.parseErr .stack) ↔
        Counters.run (demands texts) ⟨0, 0, 0⟩ ≠ .error (.parseErr .stack)) := by
  obtain ⟨N, hN⟩ := thompson_counts unix hadv h
  refine ⟨N, fun n hn => ?_⟩
  have hcounts := hN n hn
  rcases hrun : Counters.run (demands texts) ⟨0, 0, 0⟩ with e | c
  · rw [hrun] at hcounts
    have hresult : thompson L unix n s = .error e := hcounts
    obtain ⟨type, rfl⟩ := Counters.run_error hrun
    rw [hresult]
    refine ⟨nofun, not_congr ⟨fun heq => ?_, fun heq => ?_⟩⟩
    · rw [Except.error.inj heq]
    · rw [Except.error.inj heq]
  · rw [hrun] at hcounts
    obtain ⟨x, hresult, -⟩ := hcounts
    rw [hresult]
    exact ⟨nofun, fun _ => nofun, fun _ => nofun⟩

/-- Let a list of rules be derived, and let fewer than `NFA_MAX` states be live at any time.  With
enough steps the construction comes to an end, and it does not report that the stack of the
discarded states is full if and only if no expression that is read would fill an empty one. -/
theorem thompson_stack_iff (unix : Bool) {s lex : ι} {texts : List (RuleText × List ℕ)}
    (hadv : L.advance s = .ok lex) (h : DerivesActions L lit lex texts)
    (hroom : Roomy 0 (demands texts)) : ∃ N, ∀ n ≥ N, thompson L unix n s ≠ .error .fuel ∧
      (thompson L unix n s ≠ .error (.parseErr .stack) ↔
      ∀ r ∈ readRules 0 texts, r.body.peak ≤ ssize) := by
  obtain ⟨N, hN⟩ := thompson_ends unix hadv h
  have hiff := @run_demands_iff texts ⟨0, 0, 0⟩ (Nat.zero_le _) hroom
  exact ⟨N, fun n hn => ⟨(hN n hn).1, (hN n hn).2.trans hiff⟩⟩

/-! ## Nested groups -/

/-- The tokens of `x(x(...x...))` with `k` groups in front of the others. -/
def nest : ℕ → List (Token × ℤ × List ℕ) → List (Token × ℤ × List ℕ)
  | 0, rest => (.l, 120, []) :: rest
  | k + 1, rest => (.l, 120, []) :: (.openParen, 40, []) :: nest k ((.closeParen, 41, []) :: rest)

/-- The expression `x(x(...x...))` with `k` groups. -/
def nestExpr : ℕ → Regex
  | 0 => .char 120
  | k + 1 => .cat (.char 120) (nestExpr k)

/-- The rule with the expression `x(x(...x...))` and an action of one letter. -/
def nestTexts (k : ℕ) : List (RuleText × List ℕ) := [(⟨false, nestExpr k, false⟩, [97])]

/-- The tokens of the rule with `k` groups and its action. -/
def nestRule (k : ℕ) : List (Token × ℤ × List ℕ) := (.eos, 0, []) :: nest k [(.eos, 0, [97])]

/-- The expression with `k` groups is derived from its tokens. -/
lemma derives_nest : ∀ (k : ℕ) (rest : List (Token × ℤ × List ℕ)),
    Derives tokens anyChar .expr (nest k rest) (nestExpr k) rest
  | 0, _ => .expr (.catExpr (.factor (.char (Or.inl rfl) trivial rfl)) .catNil) .exprNil
  | k + 1, rest => .expr (.catExpr (.factor (.char (Or.inl rfl) trivial rfl))
      (.catCons
      (.factor (.group ⟨rfl, rfl⟩ (derives_nest k ((.closeParen, 41, []) :: rest)) ⟨rfl, rfl⟩))
      .catNil)) .exprNil

/-- The rule with `k` groups is derived from its tokens. -/
lemma derives_nestRule (k : ℕ) : DerivesActions tokens anyChar (nestRule k).tail (nestTexts k) := by
  have hno : ∀ t s, ReadsIf tokens false t s s := fun _ _ => rfl
  exact .last (.mk (hno .atBol _) (derives_nest k [(.eos, 0, [97])]) (hno .atEol _) rfl rfl) rfl

/-- Every group leaves a discarded state, which is also the peak. -/
lemma left_nestExpr (k : ℕ) : (nestExpr k).left = k ∧ (nestExpr k).peak = k := by
  induction k with
  | zero => exact ⟨rfl, rfl⟩
  | succ k ih =>
    change max (nestExpr k).left (0 - (nestExpr k).states) + 1 = k + 1 ∧
      max (max 0 (nestExpr k).peak) (max (nestExpr k).left (0 - (nestExpr k).states) + 1) = k + 1
    omega

/-- A demand makes at most one live state more than there were. -/
lemma liveAfter_le (l : List Demand) : ∀ live, liveAfter live l ≤ live + l.length := by
  induction l with
  | nil => exact fun live => Nat.le_refl live
  | cons d l ih =>
    intro live
    rw [List.length_cons]
    rcases d with - | - | str
    · have hle : liveAfter (live + 1) l ≤ live + 1 + l.length := ih (live + 1)
      change liveAfter (live + 1) l ≤ _
      omega
    · have hle : liveAfter (live - 1) l ≤ live - 1 + l.length := ih (live - 1)
      change liveAfter (live - 1) l ≤ _
      omega
    · exact Nat.le_succ_of_le (ih live)

/-- There is room for the rule unless there are too many groups. -/
lemma roomy_nestTexts {k : ℕ} (hk : k ≤ 200) : Roomy 0 (demands (nestTexts k)) := by
  have hlen : ∀ k, (nestExpr k).demands.length = 3 * k + 2 := by
    intro k
    induction k with
    | zero => rfl
    | succ k ih =>
      change ([.new, .new] ++ (nestExpr k).demands ++ [.discard] : List Demand).length = _
      rw [List.length_append, List.length_append, ih]
      change 2 + (3 * k + 2) + 1 = 3 * (k + 1) + 2
      omega
  intro l hpre
  have hle := hpre.length_le
  have hlive := liveAfter_le l 0
  have hall : (demands (nestTexts k)).length = 3 * k + 4 := by
    simp [demands, nestTexts, RuleText.demands, hlen]
  have hmax : nfaMax = 768 := rfl
  omega

/-- The stack of discarded states is large enough for the rule with one group. -/
theorem thompson_stack_iff_nest : ∃ N, ∀ n ≥ N, thompson tokens true n (nestRule 1) ≠ .error .fuel ∧
    thompson tokens true n (nestRule 1) ≠ .error (.parseErr .stack) := by
  have hroom : Roomy 0 (demands (nestTexts 1)) := roomy_nestTexts (by decide)
  obtain ⟨N, hN⟩ := thompson_stack_iff true (L := tokens) rfl (derives_nestRule 1) hroom
  refine ⟨N, fun n hn => ⟨(hN n hn).1, (hN n hn).2.mpr fun r hr => ?_⟩⟩
  have hpeak : (nestExpr 1).peak ≤ ssize := by decide
  rcases List.mem_singleton.mp hr with rfl
  exact hpeak

/-- For the rule with 33 groups there is no room on the stack of discarded states. -/
theorem not_thompson_stack : ¬ ∀ (s lex : List (Token × ℤ × List ℕ))
    (texts : List (RuleText × List ℕ)), tokens.advance s = .ok lex →
    DerivesActions tokens anyChar lex texts → Roomy 0 (demands texts) →
    ∃ N, ∀ n ≥ N, thompson tokens true n s ≠ .error (.parseErr .stack) := by
  intro hall
  have hroom : Roomy 0 (demands (nestTexts 33)) := roomy_nestTexts (by decide)
  obtain ⟨N, hN⟩ := hall (nestRule 33) _ (nestTexts 33) rfl (derives_nestRule 33) hroom
  obtain ⟨N', hN'⟩ := thompson_ends true (L := tokens) rfl (derives_nestRule 33)
  have hrun := (hN' (max N N') (Nat.le_max_right N N')).2.mp (hN (max N N') (Nat.le_max_left N N'))
  have hpeak :=
    (run_demands_iff (Nat.zero_le ssize) hroom).mp hrun ⟨false, nestExpr 33, false⟩
      List.mem_cons_self
  rw [(left_nestExpr 33).2] at hpeak
  exact absurd hpeak (by decide)

end Lex
