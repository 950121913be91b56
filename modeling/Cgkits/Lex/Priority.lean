import Cgkits.Lex.Subset

/-!
# Which rule wins

Several rules can match one string.  `eClosure` decides between them by the numbers of their end
states. `exists_lowest` says that the action recorded for the state reached on a string is that of
the matching rule whose end state has the lowest number, and `rulePriority_iff` that this is the
first matching rule of the input exactly when that rule has the same action and anchor.  The numbers
do not follow the order of the input, since a rule can be built from states that an earlier rule has
discarded.
-/

namespace Lex

variable {ι : Type} {L : Lexer ι} {unix : Bool}

/-- `nfa`: the machine for the input that starts at `s`, and its rules. -/
def nfa (L : Lexer ι) (unix : Bool) (n : ℕ) (s : ι) : Except Fault (List Rule × Nfa) :=
  match h : thompson L unix n s with
  | .error e => .error e
  | .ok (start, rules, m) =>
    .ok (rules,
      { node := m.node
        nstates := m.nextAlloc
        start := start
        le := (thompson_spec h).1.ok.lt.le
        start_lt := (thompson_spec h).2.1
        next_lt := fun i _ => (thompson_spec h).1.ok.next_lt i
        next2_lt := fun i _ => (thompson_spec h).1.ok.next2_lt i })

/-- The accepting states of the machine are the end states of its rules. -/
structure Nfa.Accepts (m : Nfa) (rules : List Rule) : Prop where
  /-- The end states are different. -/
  nodup : (rules.map Rule.stop).Nodup
  /-- The end state of a rule has the accept string and the anchor of the rule. -/
  accept : ∀ r ∈ rules, (m.node r.stop).accept = some r.accept ∧ (m.node r.stop).anchor = r.anchor
  /-- Only the end states of the rules accept. -/
  only : ∀ i, (m.node i).accept ≠ none → ∃ r ∈ rules, r.stop = i

/-- The machine that `nfa` builds accepts exactly in the end states of its rules. -/
lemma accepts_nfa {n : ℕ} {s : ι} {rules : List Rule} {m : Nfa}
    (h : nfa L unix n s = .ok (rules, m)) : m.Accepts rules := by
  unfold nfa at h
  split at h
  · cases h
  · rename_i hth
    cases h
    have hrules := (thompson_spec hth).1
    exact ⟨hrules.nodup, hrules.accept, hrules.only⟩

/-- The rule matches the string: its end state is reached. -/
def Matches (m : Nfa) (r : Rule) (w : List (Fin maxChars)) : Prop := Path m m.start w r.stop

/-- The rule `r` is the first of at least two rules that match the string. -/
def FirstOfMany (m : Nfa) (rules : List Rule) (w : List (Fin maxChars)) (r : Rule) : Prop :=
  ∃ before after, rules = before ++ r :: after ∧ (∀ q ∈ before, ¬ Matches m q w) ∧
    Matches m r w ∧ ∃ q ∈ after, Matches m q w

/-- The matching rule `q` has the end state with the lowest number. -/
def Lowest (m : Nfa) (rules : List Rule) (w : List (Fin maxChars)) (q : Rule) : Prop :=
  q ∈ rules ∧ Matches m q w ∧ ∀ p ∈ rules, Matches m p w → q.stop ≤ p.stop

/-- The DFA state reached on the string has the accept string and the anchor of the rule. -/
def Selects (ds : List DState) (dtran : ℕ → Row) (w : List (Fin maxChars)) (r : Rule) : Prop :=
  ∃ t d, runFrom dtran 0 0 w = .ok t ∧ ds[t]? = some d ∧ d.accept = some r.accept ∧
    d.anchor = r.anchor

/-- Of several rules that match a string, the first one wins. -/
def RulePriority (m : Nfa) (rules : List Rule) (ds : List DState) (dtran : ℕ → Row)
    (w : List (Fin maxChars)) : Prop :=
  ∀ r, FirstOfMany m rules w r → Selects ds dtran w r

section

variable {m : Nfa} {rules : List Rule} {anchor : ℕ} {ds : List DState} {dtran : ℕ → Row}
  {w : List (Fin maxChars)}

/-- Of the rules that match, the one with the lowest end state is selected. -/
theorem exists_lowest (hm : m.Accepts rules) (hdfa : makeTrans m anchor = some (ds, dtran))
    {r : Rule} (hr : r ∈ rules) (hmatch : Matches m r w) :
    ∃ q, Lowest m rules w q ∧ Selects ds dtran w q := by
  rcases runFrom_makeTrans hdfa w with ⟨-, hno⟩ | ⟨t, d, hrun, hget, hok, hset⟩
  · exact absurd hmatch (hno r.stop)
  · rcases hok.records with ⟨hnone, -⟩ | ⟨k, hk, hacc, hlow, ha, hn⟩
    · have hs := hnone r.stop ((hset _).mpr hmatch)
      rw [(hm.accept r hr).1] at hs
      cases hs
    · obtain ⟨q, hq, rfl⟩ := hm.only k hacc
      obtain ⟨hqa, hqn⟩ := hm.accept q hq
      refine ⟨q, ⟨hq, (hset _).mp hk, ?_⟩, t, d, hrun, hget, ha.trans hqa, hn.trans hqn⟩
      intro p hp hpmatch
      apply hlow p.stop ((hset _).mpr hpmatch)
      rw [(hm.accept p hp).1]
      simp

/-- There is one matching rule with the lowest end state. -/
lemma Lowest.unique (hm : m.Accepts rules) {p q : Rule} (hp : Lowest m rules w p)
    (hq : Lowest m rules w q) : p = q :=
  List.inj_on_of_nodup_map hm.nodup hp.1 hq.1
    (le_antisymm (hp.2.2 q hq.1 hq.2.1) (hq.2.2 p hp.1 hp.2.1))

/-- The first of several matching rules is a matching rule. -/
lemma FirstOfMany.mem {r : Rule} (h : FirstOfMany m rules w r) : r ∈ rules ∧ Matches m r w := by
  obtain ⟨before, after, rfl, -, hmatch, -⟩ := h
  exact ⟨List.mem_append_right _ List.mem_cons_self, hmatch⟩

/-- When the numbers of the end states follow the order of the input, the first matching rule
wins. -/
theorem rulePriority_of_pairwise (hm : m.Accepts rules)
    (hdfa : makeTrans m anchor = some (ds, dtran))
    (hsort : rules.Pairwise fun r q => r.stop < q.stop) : RulePriority m rules ds dtran w := by
  intro r hr
  obtain ⟨q, ⟨hq, hqmatch, hlow⟩, hsel⟩ := exists_lowest hm hdfa hr.mem.1 hr.mem.2
  have hle := hlow r hr.mem.1 hr.mem.2
  obtain ⟨before, after, rfl, hbefore, -, -⟩ := hr
  rw [List.pairwise_append, List.pairwise_cons] at hsort
  rcases List.mem_append.mp hq with hq | hq
  · exact absurd hqmatch (hbefore q hq)
  · cases List.mem_cons.mp hq with
    | inl he => exact he ▸ hsel
    | inr hq => exact absurd (hsort.2.1.1 q hq) (not_lt.mpr hle)

end

/-- The first of several matching rules wins exactly when the matching rule with the lowest end
state has its action and anchor. -/
theorem rulePriority_iff {n : ℕ} {s : ι} {rules : List Rule} {m : Nfa} {anchor : ℕ}
    {ds : List DState} {dtran : ℕ → Row} (hnfa : nfa L unix n s = .ok (rules, m))
    (hdfa : makeTrans m anchor = some (ds, dtran)) (w : List (Fin maxChars)) :
    RulePriority m rules ds dtran w ↔
      ∀ r q, FirstOfMany m rules w r → Lowest m rules w q → q.accept = r.accept ∧
        q.anchor = r.anchor := by
  have hm := accepts_nfa hnfa
  constructor
  · intro h r q hr hq
    obtain ⟨q', hq', t', d', hrun', hget', ha', hn'⟩ := exists_lowest hm hdfa hr.mem.1 hr.mem.2
    obtain ⟨t, d, hrun, hget, ha, hn⟩ := h r hr
    rw [hq.unique hm hq']
    rw [hrun', Except.ok.injEq] at hrun
    subst hrun
    rw [hget', Option.some.injEq] at hget
    subst hget
    rw [ha', Option.some.injEq] at ha
    exact ⟨ha, hn'.symm.trans hn⟩
  · intro h r hr
    obtain ⟨q, hq, t, d, hrun, hget, ha, hn⟩ := exists_lowest hm hdfa hr.mem.1 hr.mem.2
    obtain ⟨hacc, hanchor⟩ := h r q hr hq
    exact ⟨t, d, hrun, hget, hacc ▸ ha, hanchor ▸ hn⟩

/-! ## Two rules in the wrong order -/

/-- The rules, and the DFA state that a string leads to, for the input that starts at `s`. -/
def reached (L : Lexer ι) (unix : Bool) (n : ℕ) (s : ι) (w : List (Fin maxChars)) :
    Option (List Rule × DState) :=
  match nfa L unix n s with
  | .error _ => none
  | .ok (rules, m) => do
    let (ds, dtran) ← makeTrans m 0
    match runFrom dtran 0 0 w with
    | .error _ => none
    | .ok t => (ds[t]?).map fun d => (rules, d)

/-- The machine, the table and the state behind `reached`. -/
lemma reached_spec {n : ℕ} {s : ι} {w : List (Fin maxChars)} {rules : List Rule} {d : DState}
    (h : reached L unix n s w = some (rules, d)) :
    ∃ m ds dtran t, nfa L unix n s = .ok (rules, m) ∧ makeTrans m 0 = some (ds, dtran) ∧
      runFrom dtran 0 0 w = .ok t ∧ ds[t]? = some d ∧ ∀ k, k ∈ d.set ↔ Path m m.start w k := by
  unfold reached at h
  split at h
  · cases h
  · rename_i rules' m hnfa
    rw [Option.bind_eq_bind, Option.bind_eq_some_iff] at h
    obtain ⟨⟨ds, dtran⟩, hdfa, h⟩ := h
    dsimp only at h
    split at h
    · cases h
    · rename_i t hrun
      obtain ⟨d', hget, he⟩ := Option.map_eq_some_iff.mp h
      cases he
      refine ⟨m, ds, dtran, t, hnfa, hdfa, hrun, hget, ?_⟩
      rcases runFrom_makeTrans hdfa w with ⟨⟨i, herr⟩, -⟩ | ⟨t', d', hrun', hget', -, hset⟩
      · rw [hrun] at herr
        cases herr
      · rw [hrun, Except.ok.injEq] at hrun'
        subst hrun'
        rw [hget, Option.some.injEq] at hget'
        subst hget'
        exact hset

/-- A lexical analyzer that delivers the tokens of a list: each with its lexeme and the text behind
it. -/
def tokens : Lexer (List (Token × ℤ × List ℕ)) where
  tok s := (s.head?.map fun t => t.1).getD .endOfInput
  lexeme s := (s.head?.map fun t => t.2.1).getD 0
  input s := (s.head?.map fun t => t.2.2).getD []
  skipSpace s := s
  advance s := .ok s.tail

/-- The tokens of the rules `a(b?(c?d?))` and `a` with their actions. -/
def twoRules : List (Token × ℤ × List ℕ) :=
  [(.eos, 0, []),
   (.l, 97, []), (.openParen, 40, []), (.l, 98, []), (.optional, 63, []), (.openParen, 40, []),
   (.l, 99, []), (.optional, 63, []), (.l, 100, []), (.optional, 63, []), (.closeParen, 41, []),
   (.closeParen, 41, []), (.eos, 0, [120]),
   (.l, 97, []), (.eos, 0, [121])]

/-- The second rule is built from the states that the first one has discarded: its end state has the
number 13, that of the first rule has the number 14. -/
lemma reached_twoRules : ∃ d, reached tokens true 30 twoRules [97] =
    some ([⟨1, 14, 1, 0⟩, ⟨9, 13, 3, 0⟩], d) ∧ d.accept = some 3 ∧ 14 ∈ d.set ∧ 13 ∈ d.set := by
  have h : (reached tokens true 30 twoRules [97]).map
      (fun p => (p.1, p.2.accept, decide (14 ∈ p.2.set), decide (13 ∈ p.2.set))) =
      some ([⟨1, 14, 1, 0⟩, ⟨9, 13, 3, 0⟩], some 3, true, true) := by
    decide +kernel
  obtain ⟨⟨rules, d⟩, hd, he⟩ := Option.map_eq_some_iff.mp h
  simp only [Prod.mk.injEq, decide_eq_true_eq] at he
  obtain ⟨rfl, haccept, h14, h13⟩ := he
  exact ⟨d, hd, haccept, h14, h13⟩

/-- For the two rules and the string `a` the priority holds exactly when the end states are in the
right order. -/
theorem rulePriority_iff_twoRules :
    ∃ rules m ds dtran, nfa tokens true 30 twoRules = .ok (rules, m) ∧
      makeTrans m 0 = some (ds, dtran) ∧ (RulePriority m rules ds dtran [97] ↔
      ∀ r q, FirstOfMany m rules [97] r → Lowest m rules [97] q →
        q.accept = r.accept ∧ q.anchor = r.anchor) := by
  obtain ⟨d, hd, -⟩ := reached_twoRules
  obtain ⟨m, ds, dtran, t, hnfa, hdfa, -⟩ := reached_spec hd
  exact ⟨_, m, ds, dtran, hnfa, hdfa, rulePriority_iff hnfa hdfa [97]⟩

/-- On the string `a`, which both rules match, the second of the rules `a(b?(c?d?))` and `a`
wins. -/
theorem not_rulePriority_twoRules :
    ∃ rules m ds dtran, nfa tokens true 30 twoRules = .ok (rules, m) ∧
      makeTrans m 0 = some (ds, dtran) ∧ ¬ RulePriority m rules ds dtran [97] := by
  obtain ⟨d, hd, haccept, h14, h13⟩ := reached_twoRules
  obtain ⟨m, ds, dtran, t, hnfa, hdfa, hrun, hget, hset⟩ := reached_spec hd
  refine ⟨_, m, ds, dtran, hnfa, hdfa, ?_⟩
  intro h
  have hfirst : FirstOfMany m [⟨1, 14, 1, 0⟩, ⟨9, 13, 3, 0⟩] [97] ⟨1, 14, 1, 0⟩ := by
    refine ⟨[], [⟨9, 13, 3, 0⟩], rfl, ?_, (hset 14).mp h14, _, List.mem_cons_self, (hset 13).mp h13⟩
    intro q hq
    cases hq
  obtain ⟨t', d', hrun', hget', ha, -⟩ := h _ hfirst
  rw [hrun, Except.ok.injEq] at hrun'
  subst hrun'
  rw [hget, Option.some.injEq] at hget'
  subst hget'
  rw [haccept] at ha
  cases ha

end Lex
