import Cgkits.Lex.Regular

/-!
# The machine of a rules text and the languages of its rules

`machine` links the pieces of the rules by a chain of states, and a path from its start state to the
end state of a rule goes through the piece of this rule only.  So the strings that lead to the end
state of a rule are those of its language, where `[]` stands for the characters of `codeBlank`
(`machine_matches`).

The comment of `term` describes `[]` by the characters of `docBlank`, without the carriage return.
The rules have the languages that the comments describe exactly when it makes no difference
(`matches_docBlank_iff`), and it does for the rule `[]` itself.
-/

namespace Lex

open Labelled Computability

variable {ι : Type} {L : Lexer ι} {unix : Bool}

/-- There is no room for the machine, or none for the accept strings. -/
def Fault.NoRoom (e : Fault) : Prop := e.NoStates ∨ e = .parseErr .strings

/-! ## One rule -/

/-- The rule `r` has been built from new states, and `K` is its language. -/
structure RuleSpells (m m' : States) (r : Rule) (K : Language (Fin maxChars)) : Prop where
  /-- The invariant of the array. -/
  ok : m'.Ok
  /-- The states that are not in use have no pointers. -/
  blank : m'.Blank
  /-- What was in use stays in use. -/
  live : ∀ i, m.Live i → m'.Live i
  /-- What was in use stays unchanged. -/
  frame : ∀ i, m.Live i → m'.node i = m.node i
  /-- The start state is in use. -/
  start : m'.Live r.start
  /-- The end state of the rule is new. -/
  stop : Own m m' r.stop
  /-- No edge leaves the end state. -/
  stop_edge : ∀ a j, ¬ m'.Edge r.stop a j
  /-- The piece is a fragment of the graph. -/
  fragment : ∃ I : Set ℕ, (∀ i ∈ I, Own m m' i) ∧ Fragment m'.Edge I r.start r.stop K

section Rule

variable {m₀ m m' : States} {s s' s'' : ι} {f g : Frag} {K M : Language (Fin maxChars)}

/-- A state without a label and without pointers has no edges. -/
lemma not_edge_of_bare {p : Node} (he : p.edge = epsilon) (hb : p.Bare) (a : Option (Fin maxChars))
    (j : ℕ) : ¬ p.Edge a j := by
  rw [Node.edge_iff_of_epsilon he, hb.1, hb.2]
  rintro ⟨-, h | h⟩ <;> cases h

/-- Setting a label does not disturb a state that is in use. -/
lemma States.Ok.modify_char {start : ℕ} {c : ℤ} (h : m.Ok) (hlive : m.Live start) :
    (m.modify start fun p => { p with edge := c }).Ok := by
  apply h.modify
  · intro hn
    exact absurd hlive hn
  · exact h.next_lt start
  · exact h.next2_lt start

/-- The expression of a rule, with the state for `^`, builds a piece of the language of the
expression, or there is no room. -/
lemma ruleExpr_builds (unix : Bool) {bol : Bool} {e : Regex} (hbol : ReadsIf L bol .atBol s s')
    (hexpr : Derives L inChars .expr s' e s'') (hend : firstInCat (L.tok s'') = .ok false)
    (hor : L.tok s'' ≠ .or) : ∃ N, ∀ n ≥ N, ∀ m : States, m.Ok → m.Blank →
      (∃ e, e.NoStates ∧ ruleExpr L unix n ⟨s, m⟩ = .error e) ∨
        ∃ f anchor m', ruleExpr L unix n ⟨s, m⟩ = .ok (f, anchor, ⟨s'', m'⟩) ∧
          Spells m m' f
          ((if bol then Fragment.letters {x : Fin maxChars | ((x : ℕ) : ℤ) = 10} else 1) *
            e.lang unix codeBlank) := by
  obtain ⟨N, hN⟩ := hexpr.builds unix hend hor
  refine ⟨N, fun n hn m hok hblank => ?_⟩
  have hbuilds : ∀ f anchor P', ruleExpr L unix n ⟨s, m⟩ = .ok (f, anchor, P') → Built m P'.nfa f :=
    fun f anchor P' h => built_ruleExpr hok h
  cases bol with
  | false =>
    have hs : s' = s := hbol
    subst hs
    have htok : L.tok s' ≠ .atBol := (Token.StartsTerm.spec hexpr.starts).2.2.1
    rw [ruleExpr, if_neg htok]
    rcases hN n hn m hok hblank with ⟨e, he, hrun⟩ | ⟨f, m', hrun, hf⟩
    · rw [hrun]
      exact Or.inl ⟨e, he, rfl⟩
    · rw [hrun]
      refine Or.inr ⟨f, 0, m', rfl, ?_⟩
      rwa [if_neg (by decide), one_mul]
  | true =>
    have hread : Reads L .atBol s s' := hbol
    rw [ruleExpr, if_pos hread.1] at hbuilds ⊢
    rcases new_cases m with h₁ | ⟨start, m₁, h₁⟩
    · rw [h₁]
      exact Or.inl ⟨_, Or.inl rfl, rfl⟩
    obtain ⟨hext₁, hstart⟩ := new_spec hok h₁
    obtain ⟨-, -, -, hblank₁⟩ := new_node hok hblank h₁
    rw [h₁, ok_bind] at hbuilds ⊢
    dsimp only at hbuilds ⊢
    rw [advance_eq hread.2, ok_bind] at hbuilds ⊢
    rcases hN n hn _ (hext₁.ok.modify_char hstart.2) (hblank₁.modify hstart.2) with
      ⟨e, he, hrun⟩ | ⟨f, m', hrun, hf⟩
    · rw [hrun]
      exact Or.inl ⟨e, he, rfl⟩
    · rw [hrun, ok_bind] at hbuilds ⊢
      refine Or.inr ⟨_, _, _, rfl, ?_⟩
      rw [if_pos rfl]
      refine hf.bol hok h₁ ?_ (reads_char (by decide)) (hbuilds _ _ _ rfl)
      intro p
      change (10 : ℤ) ≠ -1
      decide

/-- The end of the expression of a rule, with the state for `$`. -/
lemma ruleEol_builds (unix : Bool) {eol : Bool} (hf : Spells m₀ m f K)
    (heol : ReadsIf L eol .atEol s s') (heos : L.tok s' = .eos) (anchor : ℕ) :
    (∃ e, e.NoStates ∧ ruleEol L unix f anchor ⟨s, m⟩ = .error e) ∨
      ∃ g anchor' m', ruleEol L unix f anchor ⟨s, m⟩ = .ok (g, anchor', ⟨s', m'⟩) ∧
        Spells m₀ m' g
        (K * if eol then Fragment.letters {x : Fin maxChars | ((x : ℕ) : ℤ) ∈ newline unix}
        else 1) := by
  have hbuilds : ∀ g anchor' P', ruleEol L unix f anchor ⟨s, m⟩ = .ok (g, anchor', P') →
      Built m₀ P'.nfa g :=
    fun g anchor' P' h => Built.ruleEol (P := ⟨s, m⟩) hf.built h
  cases eol with
  | false =>
    have hs : s' = s := heol
    subst hs
    have htok : L.tok s' ≠ .atEol := by
      rw [heos]
      decide
    rw [ruleEol, if_neg htok]
    refine Or.inr ⟨f, anchor, m, rfl, ?_⟩
    rwa [if_neg (by decide), mul_one]
  | true =>
    have hread : Reads L .atEol s s' := heol
    rw [ruleEol, if_pos hread.1, advance_eq hread.2, ok_bind] at hbuilds ⊢
    dsimp only at hbuilds ⊢
    rcases new_cases m with h₁ | ⟨stop, m₁, h₁⟩
    · rw [h₁]
      exact Or.inl ⟨_, Or.inl rfl, rfl⟩
    · rw [h₁, ok_bind] at hbuilds ⊢
      refine Or.inr ⟨_, _, _, rfl, ?_⟩
      rw [if_pos rfl]
      refine hf.eol h₁ ?_ (fun _ => rfl) (reads_ccl ?_) (hbuilds _ _ _ rfl)
      · intro p
        change ccl ≠ epsilon
        decide
      · intro x
        simp [CharClass.test, newline]

/-- Storing an accept string does not touch the states. -/
lemma save_cases (str : List ℕ) (m : States) :
    save str m = .error (.parseErr .strings) ∨
    ∃ a v, save str m = .ok (a, { m with savep := v }) := by
  unfold save
  split
  · exact Or.inr ⟨_, m.savep, rfl⟩
  · split
    · exact Or.inl rfl
    · exact Or.inr ⟨_, _, rfl⟩

/-- A rule builds a chain from its start to its end state that spells its language, or there is no
room. -/
lemma rule_builds (unix : Bool) {r : RuleText} (h : DerivesRule L inChars s r s') :
    ∃ N, ∀ n ≥ N, ∀ m : States, m.Ok → m.Blank → (∃ e, e.NoRoom ∧ rule L unix n ⟨s, m⟩ = .error e) ∨
      ∃ q m', rule L unix n ⟨s, m⟩ = .ok (q, ⟨s', m'⟩) ∧
        RuleSpells m m' q (r.lang unix codeBlank) := by
  obtain ⟨hbol, hexpr, heol, heos, hadv⟩ := h
  rename_i s₁ s₂ s₃ bol eol e
  have hend : firstInCat (L.tok s₂) = .ok false ∧ L.tok s₂ ≠ .or := by
    cases eol with
    | false =>
      have hs : s₃ = s₂ := heol
      rw [← hs, heos]
      exact ⟨rfl, by decide⟩
    | true =>
      have hread : Reads L .atEol s₂ s₃ := heol
      rw [hread.1]
      exact ⟨rfl, by decide⟩
  obtain ⟨N, hN⟩ := ruleExpr_builds unix hbol hexpr hend.1 hend.2
  refine ⟨N, fun n hn m hok hblank => ?_⟩
  unfold rule
  rcases hN n hn m hok hblank with ⟨e, he, hrun⟩ | ⟨f, anchor, m₁, hrun, hf⟩
  · rw [hrun]
    exact Or.inl ⟨e, Or.inl he, rfl⟩
  rw [hrun, ok_bind]
  dsimp only
  rcases ruleEol_builds unix hf heol heos anchor with ⟨e, he, hrun⟩ | ⟨g, anchor', m₂, hrun, hg⟩
  · rw [hrun]
    exact Or.inl ⟨e, Or.inl he, rfl⟩
  rw [hrun, ok_bind]
  dsimp only
  rcases save_cases (L.input (L.skipSpace s₃)) m₂ with hsave | ⟨a, v, hsave⟩
  · rw [hsave]
    exact Or.inl ⟨_, Or.inr rfl, rfl⟩
  obtain ⟨hext, hlive⟩ := hg.built.ext.save hsave
  rw [hsave, ok_bind]
  dsimp only
  rw [hadv, ok_bind]
  refine Or.inr ⟨_, _, rfl, ?_⟩
  have hstop : Own m { m₂ with savep := v } g.stop := hg.built.stop
  obtain ⟨I, hI, hfrag⟩ := hg.fragment
  refine ⟨?_, ?_, hext.live, ?_, hg.built.start.2, hstop, ?_, I, hI, hfrag.congr ?_⟩
  · apply hext.ok.modify
    · intro hi
      exact absurd hstop.2 hi
    · exact hext.ok.next_lt _
    · exact hext.ok.next2_lt _
  · have hblank : ({ m₂ with savep := v } : States).Blank := hg.blank
    exact hblank.modify hstop.2
  · intro i hi
    have hne : i ≠ g.stop := by
      rintro rfl
      exact hstop.1 hi
    rw [States.node_modify_of_ne hne, hext.frame i hi]
  · intro b j
    unfold States.Edge
    rw [States.node_modify_self]
    exact not_edge_of_bare (p := { m₂.node g.stop with accept := some a, anchor := anchor' })
      hg.stop_edge hg.stop_bare b j
  · intro i hi b j
    unfold States.Edge
    rw [States.node_modify_of_ne (ne_of_mem_of_not_mem hi hfrag.stop_notMem)]

end Rule

/-! ## The machine -/

/-- What `machine` does with the rules from the one after the state `q` on. -/
def machineRest (L : Lexer ι) (unix : Bool) (n q : ℕ) (rules : List Rule) (P : Parse ι) :
    Except Fault (List Rule × Parse ι) := do
  let (r, P) ← rule L unix n P
  let m := P.nfa.modify q fun s => { s with next := some r.start }
  machineLoop L unix n q (rules ++ [r]) ⟨P.lex, m⟩

/-- `thompson` makes a start state, and the rules behind it. -/
lemma thompson_eq {n : ℕ} {s lex : ι} (hadv : L.advance s = .ok lex) : thompson L unix n s =
    new .init >>= fun x => machineRest L unix n x.1 [] ⟨lex, x.2⟩ >>= fun y =>
      .ok (x.1, y.1, y.2.nfa) := by
  rw [thompson, hadv, ok_bind, machine]
  rcases new .init with e | ⟨start, m⟩
  · rfl
  simp only [ok_bind]
  unfold machineRest
  cases rule L unix n ⟨lex, m⟩ with
  | error e => rfl
  | ok x =>
    simp only [ok_bind, List.nil_append]
    cases machineLoop L unix n start [x.1] _ with
    | error e => rfl
    | ok y => rfl

/-- The rules have been built behind the state `q`, with their end states and their languages. -/
structure Chained (m m' : States) (q : ℕ) (rs : List Rule) (Ks : List (Language (Fin maxChars))) :
    Prop where
  /-- What was in use stays in use. -/
  live : ∀ i, m.Live i → m'.Live i
  /-- What was in use stays unchanged, but for the state `q`. -/
  frame : ∀ i, m.Live i → i ≠ q → m'.node i = m.node i
  /-- The start states of the rules make a chain. -/
  spine : ∃ J : Set ℕ, (∀ i ∈ J, i = q ∨ Own m m' i) ∧ Spine m'.Edge J q (rs.map Rule.stop) Ks

section Machine

variable {m m₁ m' : States} {s s' : ι} {q q' : ℕ} {r : Rule} {rs : List Rule}
  {K : Language (Fin maxChars)} {Ks : List (Language (Fin maxChars))}

/-- A rule starts with an anchor or with a term. -/
lemma DerivesRule.tok_ne {lit : ℤ → Prop} {text : RuleText} (h : DerivesRule L lit s text s') :
    L.tok s ≠ .endOfInput := by
  obtain ⟨hbol, hexpr, -, -, -⟩ := h
  rename_i s₁ s₂ s₃ bol eol e
  cases bol with
  | false =>
    have hs : s₁ = s := hbol
    rw [← hs]
    exact (Token.StartsTerm.spec hexpr.starts).2.2.2
  | true =>
    have hread : Reads L .atBol s s₁ := hbol
    rw [hread.1]
    decide

/-- A list of rules starts with a rule, and not with the end of the input. -/
lemma DerivesRules.tok_ne {lit : ℤ → Prop} {texts : List RuleText}
    (h : DerivesRules L lit s texts) : L.tok s ≠ .endOfInput := by
  rcases h with ⟨h, -⟩ | ⟨h, -⟩
  · exact h.tok_ne
  · exact h.tok_ne

/-- The state before a rule gets the pointer to it, and the rule spells the same. -/
lemma RuleSpells.link (h : RuleSpells m m₁ r K) (hq : m.Live q) :
    (m₁.modify q fun s => { s with next := some r.start }).Ok ∧
      (m₁.modify q fun s => { s with next := some r.start }).Blank := by
  refine ⟨?_, h.blank.modify (h.live q hq)⟩
  apply h.ok.modify
  · intro hn
    exact absurd (h.live q hq) hn
  · rintro j ⟨⟩
    exact h.start.1
  · exact h.ok.next2_lt q

/-- The last rule of a list makes a chain that ends with it. -/
lemma RuleSpells.chained (h : RuleSpells m m₁ r K) (hq : m.Live q)
    (hedge : (m.node q).edge = epsilon) (hbare : (m.node q).Bare) :
    Chained m (m₁.modify q fun s => { s with next := some r.start }) q [r] [K] := by
  obtain ⟨I, hI, hfrag⟩ := h.fragment
  have hqI : q ∉ I := fun hmem => (hI q hmem).1 hq
  have hqstop : q ≠ r.stop := by
    rintro rfl
    exact h.stop.1 hq
  refine ⟨h.live, ?_, I ∪ {q, r.stop}, ?_, ?_⟩
  · intro i hi hne
    rw [States.node_modify_of_ne hne, h.frame i hi]
  · rintro i (hi | rfl | rfl)
    · exact Or.inr (hI i hi)
    · exact Or.inl rfl
    · exact Or.inr h.stop
  · refine .last (s := r.start) (hfrag.congr ?_) hqI hqstop ?_ ?_
    · intro i hi a j
      unfold States.Edge
      rw [States.node_modify_of_ne (ne_of_mem_of_not_mem hi hqI)]
    · intro a j
      unfold States.Edge
      rw [States.node_modify_self, h.frame q hq]
      have he : ({ m.node q with next := some r.start } : Node).edge = epsilon := hedge
      rw [Node.edge_iff_of_epsilon he, hbare.2, Option.some.injEq, @eq_comm _ r.start]
      simp
    · intro a j
      unfold States.Edge
      rw [States.node_modify_of_ne hqstop.symm]
      exact h.stop_edge a j

/-- A rule before other rules makes a chain with the chain of the others. -/
lemma RuleSpells.chained_cons {m₂ : States} (h : RuleSpells m m₁ r K) (hq : m.Live q)
    (hedge : (m.node q).edge = epsilon)
    (hnew : new (m₁.modify q fun s => { s with next := some r.start }) = .ok (q', m₂))
    (hrest : Chained (m₂.modify q fun s => { s with next2 := some q' }) m' q' rs Ks) :
    Chained m m' q (r :: rs) (K :: Ks) := by
  obtain ⟨hok₁, hblank₁⟩ := h.link hq
  obtain ⟨hext, hq'⟩ := new_spec hok₁ hnew
  obtain ⟨hnode, -, -, -⟩ := new_node hok₁ hblank₁ hnew
  obtain ⟨I, hI, hfrag⟩ := h.fragment
  obtain ⟨J, hJ, hspine⟩ := hrest.spine
  have hqI : q ∉ I := fun hmem => (hI q hmem).1 hq
  have hqstop : q ≠ r.stop := by
    rintro rfl
    exact h.stop.1 hq
  have hne : ∀ i, m₁.Live i → i ≠ q' := fun i hi => (hq'.ne hi).symm
  have hlive₂ : ∀ i, m₁.Live i → m₂.Live i := hext.live
  have hframe : ∀ i, m₁.Live i → i ≠ q → m'.node i = m₁.node i := by
    intro i hi hiq
    rw [hrest.frame i (hlive₂ i hi) (hne i hi), States.node_modify_of_ne hiq, hnode i (hne i hi),
      States.node_modify_of_ne hiq]
  have hnodeq : (m'.node q).edge = epsilon ∧ (m'.node q).next = some r.start ∧
      (m'.node q).next2 = some q' := by
    rw [hrest.frame q (hlive₂ q (h.live q hq)) (hne q (h.live q hq)), States.node_modify_self,
      hnode q (hne q (h.live q hq)), States.node_modify_self, h.frame q hq]
    exact ⟨hedge, rfl, rfl⟩
  have hold : ∀ i ∈ I ∪ {q, r.stop}, m₁.Live i := by
    rintro i (hi | rfl | rfl)
    · exact (hI i hi).2
    · exact h.live i hq
    · exact h.stop.2
  refine ⟨?_, ?_, I ∪ {q, r.stop} ∪ J, ?_, ?_⟩
  · intro i hi
    exact hrest.live i (hlive₂ i (h.live i hi))
  · intro i hi hiq
    rw [hframe i (h.live i hi) hiq, h.frame i hi]
  · have hlive' : ∀ i, m₁.Live i → m'.Live i := fun i hi => hrest.live i (hlive₂ i hi)
    rintro i ((hi | rfl | rfl) | hi)
    · exact Or.inr ⟨(hI i hi).1, hlive' i (hI i hi).2⟩
    · exact Or.inl rfl
    · exact Or.inr ⟨h.stop.1, hlive' _ h.stop.2⟩
    · rcases hJ i hi with rfl | hi
      · exact Or.inr ⟨fun hm => hq'.1 (h.live _ hm), hrest.live _ hq'.2⟩
      · exact Or.inr ⟨fun hm => hi.1 (hlive₂ i (h.live i hm)), hi.2⟩
  · refine .cons (s := r.start) (q := q') (hfrag.congr ?_) hqI hqstop ?_ ?_ hspine ?_
    · intro i hi a j
      unfold States.Edge
      rw [hframe i (hI i hi).2 (ne_of_mem_of_not_mem hi hqI)]
    · intro a j
      unfold States.Edge
      rw [Node.edge_iff_of_epsilon hnodeq.1, hnodeq.2.1, hnodeq.2.2, Option.some.injEq,
        Option.some.injEq, @eq_comm _ r.start, @eq_comm _ q']
    · intro a j
      unfold States.Edge
      rw [hframe _ h.stop.2 hqstop.symm]
      exact h.stop_edge a j
    · intro i hi hiJ
      rcases hJ i hiJ with rfl | hi'
      · exact hne i (hold i hi) rfl
      · exact hi'.1 (hlive₂ i (hold i hi))

/-- The rules of a text build a chain with their languages, or there is no room. -/
lemma machineRest_builds (unix : Bool) {texts : List RuleText}
    (h : DerivesRules L inChars s texts) : ∃ N, ∀ n ≥ N, ∀ (m : States) (q : ℕ)
    (rules : List Rule), m.Ok → m.Blank → m.Live q →
      (m.node q).edge = epsilon → (m.node q).Bare →
      (∃ e, e.NoRoom ∧ machineRest L unix n q rules ⟨s, m⟩ = .error e) ∨
        ∃ rs P, machineRest L unix n q rules ⟨s, m⟩ = .ok (rules ++ rs, P) ∧
          Chained m P.nfa q rs (texts.map fun r => r.lang unix codeBlank) := by
  induction h with
  | @last s s' text hrule hend =>
    obtain ⟨N, hN⟩ := rule_builds unix hrule
    refine ⟨N + 1, fun n hn m q rules hok hblank hq hedge hbare => ?_⟩
    obtain ⟨n, rfl⟩ : ∃ n', n = n' + 1 := ⟨n - 1, by omega⟩
    unfold machineRest
    rcases hN (n + 1) (by omega) m hok hblank with ⟨e, he, hrun⟩ | ⟨r, m₁, hrun, hr⟩
    · rw [hrun]
      exact Or.inl ⟨e, he, rfl⟩
    · rw [hrun, ok_bind]
      dsimp only
      rw [machineLoop, if_pos hend]
      exact Or.inr ⟨[r], _, rfl, hr.chained hq hedge hbare⟩
  | @cons s s' text texts hrule hrules ih =>
    obtain ⟨N, hN⟩ := rule_builds unix hrule
    obtain ⟨N', hN'⟩ := ih
    refine ⟨max N N' + 1, fun n hn m q rules hok hblank hq hedge hbare => ?_⟩
    obtain ⟨n, rfl⟩ : ∃ n', n = n' + 1 := ⟨n - 1, by omega⟩
    unfold machineRest
    rcases hN (n + 1) (by omega) m hok hblank with ⟨e, he, hrun⟩ | ⟨r, m₁, hrun, hr⟩
    · rw [hrun]
      exact Or.inl ⟨e, he, rfl⟩
    rw [hrun, ok_bind]
    dsimp only
    rw [machineLoop, if_neg hrules.tok_ne]
    obtain ⟨hok₁, hblank₁⟩ := hr.link hq
    rcases new_cases (m₁.modify q fun s => { s with next := some r.start }) with
      hnew | ⟨q', m₂, hnew⟩
    · dsimp only
      rw [hnew]
      exact Or.inl ⟨_, Or.inl (Or.inl rfl), rfl⟩
    dsimp only
    rw [hnew, ok_bind]
    obtain ⟨hext, hq'⟩ := new_spec hok₁ hnew
    obtain ⟨-, hedge', hbare', hblank₂⟩ := new_node hok₁ hblank₁ hnew
    have hq₂ : m₂.Live q := hext.live q (hr.live q hq)
    have hne : q' ≠ q := hq'.ne (hr.live q hq)
    have hok₂ : (m₂.modify q fun s => { s with next2 := some q' }).Ok := by
      apply hext.ok.modify
      · intro hn
        exact absurd hq₂ hn
      · exact hext.ok.next_lt q
      · rintro j ⟨⟩
        exact hq'.2.1
    have hrest :=
      hN' n (by omega) (m₂.modify q fun s => { s with next2 := some q' }) q' (rules ++ [r]) hok₂
      (hblank₂.modify hq₂) hq'.2 (by rwa [States.node_modify_of_ne hne])
        (by rwa [States.node_modify_of_ne hne])
    rcases hrest with ⟨e, he, hrun⟩ | ⟨rs, P, hrun, hrs⟩
    · exact Or.inl ⟨e, he, hrun⟩
    · refine Or.inr ⟨r :: rs, P, ?_, hr.chained_cons hq hedge hnew hrs⟩
      rw [← List.append_cons] at hrun
      exact hrun

end Machine

/-! ## The strings that lead to the end of a rule -/

/-- A path is a walk through the graph of the machine. -/
lemma path_iff_run {m : Nfa} {i j : ℕ} {w : List (Fin maxChars)} :
    Path m i w j ↔ Run (fun i => (m.node i).Edge) Set.univ i w j := by
  constructor
  · intro h
    induction h with
    | refl i => exact .refl i
    | @next i j k w he hn _ ih => exact Run.step (a := none) (Set.mem_univ i) ⟨he, Or.inl hn⟩ ih
    | @next2 i j k w he hn _ ih => exact Run.step (a := none) (Set.mem_univ i) ⟨he, Or.inr hn⟩ ih
    | @read i j k c w hr hn _ ih => exact Run.step (a := some c) (Set.mem_univ i) ⟨hr, hn⟩ ih
  · intro h
    induction h with
    | refl i => exact .refl i
    | @step i j k a w _ he _ ih =>
      cases a with
      | none =>
        rcases he with ⟨he, hn | hn⟩
        · exact .next he hn ih
        · exact .next2 he hn ih
      | some c => exact .read he.1 he.2 ih

/-- The languages of the rules, for a text that can be derived: the strings that lead to the end
state of a rule. -/
def RulesMatch (unix : Bool) (B : ℤ → Prop) (m : Nfa) (rules : List Rule) (texts : List RuleText) :
    Prop :=
  List.Forall₂ (fun r text => ∀ w, Matches m r w ↔ w ∈ text.lang unix B) rules texts

/-- The machine of a text that can be derived has the languages of the rules, or there is no room
for it. -/
theorem nfa_builds (unix : Bool) {s lex : ι} {texts : List RuleText} (hadv : L.advance s = .ok lex)
    (h : DerivesRules L inChars lex texts) :
    ∃ N, ∀ n ≥ N, (∃ e, e.NoRoom ∧ nfa L unix n s = .error e) ∨
      ∃ rules m, nfa L unix n s = .ok (rules, m) ∧ RulesMatch unix codeBlank m rules texts := by
  obtain ⟨N, hN⟩ := machineRest_builds unix h
  have hinit : States.init.Blank := fun _ _ => ⟨rfl, rfl⟩
  refine ⟨N, fun n hn => ?_⟩
  obtain ⟨start, m₁, hnew⟩ : ∃ start m₁, new States.init = .ok (start, m₁) := ⟨_, _, rfl⟩
  obtain ⟨hext, hstart⟩ := new_spec States.ok_init hnew
  obtain ⟨-, hedge, hbare, hblank⟩ := new_node States.ok_init hinit hnew
  have hmachine : thompson L unix n s = machineRest L unix n start [] ⟨lex, m₁⟩ >>= fun x =>
      .ok (start, x.1, x.2.nfa) := by
    rw [thompson_eq hadv, hnew, ok_bind]
  rcases hN n hn m₁ start [] hext.ok hblank hstart.2 hedge hbare with
    ⟨e, he, hrun⟩ | ⟨rs, P, hrun, hrs⟩
  · rw [hrun] at hmachine
    refine Or.inl ⟨e, he, ?_⟩
    unfold nfa
    split
    · rename_i e' heq
      rw [hmachine] at heq
      cases heq
      rfl
    · rename_i heq
      rw [hmachine] at heq
      cases heq
  · rw [hrun, ok_bind] at hmachine
    obtain ⟨J, -, hspine⟩ := hrs.spine
    refine Or.inr ?_
    unfold nfa
    split
    · rename_i heq
      rw [hmachine] at heq
      cases heq
    · rename_i heq
      rw [hmachine] at heq
      cases heq
      refine ⟨_, _, rfl, ?_⟩
      have hruns := hspine.run_iff
      rw [List.forall₂_map_left_iff, List.forall₂_map_right_iff] at hruns
      refine hruns.imp ?_
      intro r text hr w
      rw [← hr w]
      exact path_iff_run

/-! ## What `[]` matches -/

/-- The expression uses neither `[]` nor `[^]`, whose readings differ. -/
def Regex.Plain : Regex → Prop
  | .char _ | .any | .cls _ _ => True
  | .blank _ => False
  | .alt e e' | .cat e e' => e.Plain ∧ e'.Plain
  | .star e | .plus e | .opt e => e.Plain

/-- Without `[]` and `[^]` the language of an expression does not depend on how the empty brackets
are read. -/
lemma Regex.Plain.lang_eq {e : Regex} (h : e.Plain) (B B' : ℤ → Prop) :
    e.lang unix B = e.lang unix B' := by
  induction e with
  | char | any | cls => rfl
  | blank neg => exact h.elim
  | alt e e' ih ih' => rw [lang, lang, ih h.1, ih' h.2]
  | cat e e' ih ih' => rw [lang, lang, ih h.1, ih' h.2]
  | star e ih => rw [lang, lang, ih h]
  | plus e ih => rw [lang, lang, ih h]
  | opt e ih => rw [lang, lang, ih h]

/-- The rules of a machine have only one list of languages. -/
lemma RulesMatch.iff_lang_eq {B B' : ℤ → Prop} {m : Nfa} {rules : List Rule} {texts : List RuleText}
    (h : RulesMatch unix B m rules texts) :
    RulesMatch unix B' m rules texts ↔ ∀ text ∈ texts, text.lang unix B = text.lang unix B' := by
  induction h with
  | nil => exact ⟨fun _ text ht => absurd ht List.not_mem_nil, fun _ => .nil⟩
  | @cons r text rules texts hr _ ih =>
    rw [List.forall_mem_cons, ← ih, RulesMatch, List.forall₂_cons]
    refine and_congr_left fun _ => ?_
    constructor
    · intro hr'
      ext w
      rw [← hr w, hr' w]
    · intro heq w
      rw [hr w, heq]

/-- Without `[]` and `[^]` the rules have the languages that the comments describe. -/
theorem nfa_builds_plain {s lex : ι} {texts : List RuleText} (hadv : L.advance s = .ok lex)
    (h : DerivesRules L inChars lex texts) (hplain : ∀ text ∈ texts, text.body.Plain) :
    ∃ N, ∀ n ≥ N, (∃ e, e.NoRoom ∧ nfa L unix n s = .error e) ∨
      ∃ rules m, nfa L unix n s = .ok (rules, m) ∧ RulesMatch unix docBlank m rules texts := by
  obtain ⟨N, hN⟩ := nfa_builds unix hadv h
  refine ⟨N, fun n hn => (hN n hn).imp_right ?_⟩
  rintro ⟨rules, m, hnfa, hmatch⟩
  refine ⟨rules, m, hnfa, hmatch.iff_lang_eq.mpr fun text ht => ?_⟩
  unfold RuleText.lang
  rw [(hplain text ht).lang_eq codeBlank docBlank]

/-- The rules of a text have the languages that the comments describe exactly when these are the
same whichever way the empty brackets are read, in `[]` and in `[^]`. -/
theorem nfa_matches_iff {s lex : ι} {texts : List RuleText} (hadv : L.advance s = .ok lex)
    (h : DerivesRules L inChars lex texts) :
    ∃ N, ∀ n ≥ N, (∃ e, e.NoRoom ∧ nfa L unix n s = .error e) ∨
      ∃ rules m, nfa L unix n s = .ok (rules, m) ∧ (RulesMatch unix docBlank m rules texts ↔
        ∀ text ∈ texts, text.lang unix codeBlank = text.lang unix docBlank) := by
  obtain ⟨N, hN⟩ := nfa_builds unix hadv h
  refine ⟨N, fun n hn => (hN n hn).imp_right ?_⟩
  rintro ⟨rules, m, hnfa, hmatch⟩
  exact ⟨rules, m, hnfa, hmatch.iff_lang_eq⟩

/-- The tokens of the rules `^a+$` and `[]` with their actions. -/
def blankRules : List (Token × ℤ × List ℕ) :=
  [(.eos, 0, []),
   (.atBol, 94, []), (.l, 97, []), (.plusClose, 43, []), (.atEol, 36, []), (.eos, 0, [120]),
   (.cclStart, 91, []), (.cclEnd, 93, []), (.eos, 0, [121])]

/-- What the two rules `^a+$` and `[]` say, as they are derived. -/
def blankTexts : List RuleText := [⟨true, .plus (.char 97), true⟩, ⟨false, .blank false, false⟩]

/-- The two rules are derived from their tokens. -/
lemma derives_blankTexts : DerivesRules tokens inChars blankRules.tail blankTexts := by
  have hchar : Derives tokens inChars .term (blankRules.drop 2) (.char 97) (blankRules.drop 3) :=
    .char (Or.inl rfl) ⟨by decide, by decide⟩ rfl
  have hplus :
      Derives tokens inChars .expr (blankRules.drop 2) (.plus (.char 97)) (blankRules.drop 4) :=
    .expr (.catExpr (.plus hchar ⟨rfl, rfl⟩) .catNil) .exprNil
  have hblank :
      Derives tokens inChars .expr (blankRules.drop 6) (.blank false) (blankRules.drop 8) :=
    .expr (.catExpr (.factor (.blank ⟨rfl, rfl⟩ ⟨rfl, rfl⟩)) .catNil) .exprNil
  have hbol : ReadsIf tokens true .atBol blankRules.tail (blankRules.drop 2) := ⟨rfl, rfl⟩
  have heol : ReadsIf tokens true .atEol (blankRules.drop 4) (blankRules.drop 5) := ⟨rfl, rfl⟩
  have hno : ∀ t s, ReadsIf tokens false t s s := fun _ _ => rfl
  exact .cons (.mk hbol hplus heol rfl rfl)
    (.last (.mk (hno .atBol _) hblank (hno .atEol _) rfl rfl) rfl)

/-- The machine of the rules `^a+$` and `[]` matches what they describe exactly when the readings of
`[]` agree. -/
theorem nfa_matches_iff_blankRules :
    ∃ N, ∀ n ≥ N, (∃ e, e.NoRoom ∧ nfa tokens true n blankRules = .error e) ∨
      ∃ rules m, nfa tokens true n blankRules = .ok (rules, m) ∧
        (RulesMatch true docBlank m rules blankTexts ↔
        ∀ text ∈ blankTexts, text.lang true codeBlank = text.lang true docBlank) :=
  nfa_matches_iff rfl derives_blankTexts

/-- The string of a carriage return leads to the end state of the rule `[]`. -/
theorem not_rulesMatch_blankRules :
    DerivesRules tokens inChars blankRules.tail blankTexts ∧
    ∃ rules m, nfa tokens true 20 blankRules = .ok (rules, m) ∧
      ¬ RulesMatch true docBlank m rules blankTexts := by
  refine ⟨derives_blankTexts, ?_⟩
  have h : (reached tokens true 20 blankRules [13]).map (fun p => (p.1, decide (9 ∈ p.2.set))) =
      some ([⟨1, 6, 1, 3⟩, ⟨8, 9, 3, 0⟩], true) := by
    decide +kernel
  obtain ⟨⟨rules, d⟩, hd, he⟩ := Option.map_eq_some_iff.mp h
  simp only [Prod.mk.injEq, decide_eq_true_eq] at he
  obtain ⟨rfl, h9⟩ := he
  obtain ⟨m, -, -, -, hnfa, -, -, -, hset⟩ := reached_spec hd
  refine ⟨_, m, hnfa, ?_⟩
  intro hmatch
  rw [blankTexts, RulesMatch, List.forall₂_cons, List.forall₂_cons] at hmatch
  have hmem := (hmatch.2.1 [13]).mp ((hset 9).mp h9)
  have hmem' : [13] ∈ Fragment.letters (classChars true false docBlank) := by
    simpa [RuleText.lang, Regex.lang] using hmem
  obtain ⟨x, hx, heq⟩ := hmem'
  obtain rfl := List.singleton_inj.mp heq
  revert hx
  change ¬ docBlank 13
  unfold docBlank
  decide

end Lex
