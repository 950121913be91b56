import Cgkits.Parser.Reductions
import Mathlib.Algebra.BigOperators.Group.Finset.Piecewise

/-!
# Precedences and conflicts (`acts.c`, `yystate.c`)

The directives `%left`, `%right` and `%nonassoc` start a new precedence level and give it to the
tokens behind them. `reductions` decides a conflict in place, when the action of a reduction is
already there, so that a reduction sees the outcome of those before it.

What one reduction does is a function of the entry that it finds (`resolve`).  So the entry of a
token depends on the reductions for this token only, although the items are visited one after the
other with all their lookaheads (`Resolved`).

The third associativity is not told apart from the first: a token that is declared with `%nonassoc`
gets a reduction where an error is meant (`nonassocErrors_iff`).
-/

namespace Parser

/-! ## Directives -/

/-- A directive that may change the precedence level or the associativity. -/
inductive LevelDirective
  /-- `TERM_SPEC`: the tokens behind it get no level. -/
  | termSpec
  /-- `LEFT pnames`; the names are known by their values. -/
  | left (pnames : List ℕ)
  /-- `RIGHT pnames`: the operators associate to the right. -/
  | right (pnames : List ℕ)
  /-- `NONASSOC pnames`: the operators do not associate. -/
  | nonassoc (pnames : List ℕ)
deriving DecidableEq

/-- The variables of `acts.c` for the precedence levels. -/
structure Levels where
  /-- `_associativity`: `'l'`, `'r'`, `'n'` or the null character. -/
  associativity : Char
  /-- `_prec_lev`, the current level. -/
  precLev : ℕ
  /-- `g_precedence`, the level of each token. -/
  precedence : ℕ → PrecTab

/-- The null character, which stands for no associativity. -/
def nul : Char := Char.ofNat 0

/-- The levels before the first directive: level 0, and no token with a precedence. -/
def initLevels : Levels := ⟨nul, 0, fun _ => ⟨0, nul⟩⟩

/-- `new_lev` sets the associativity, and begins a new level unless it is called with 0. -/
def newLev (how : Char) (st : Levels) : Levels :=
  { st with associativity := how, precLev := if how ≠ nul then st.precLev + 1 else st.precLev }

/-- `prec_list`, for a symbol that has been found or made.  The level is kept in an
`unsigned char`. -/
def precList (st : Levels) (sym : ℕ) : Levels :=
  if ¬ IsTerm sym then st
  else
    { st with precedence := Function.update st.precedence sym ⟨st.precLev % 256, st.associativity⟩ }

/-- `defs`, for these directives: a new level, and the names of the directive in it. -/
def readLevel (st : Levels) : LevelDirective → Levels
  | .termSpec => newLev nul st
  | .left pnames => pnames.foldl precList (newLev 'l' st)
  | .right pnames => pnames.foldl precList (newLev 'r' st)
  | .nonassoc pnames => pnames.foldl precList (newLev 'n' st)

/-- The precedences of the tokens behind all directives. -/
def precedenceOf (ds : List LevelDirective) : ℕ → PrecTab :=
  (ds.foldl readLevel initLevels).precedence

/-- A token with a level has been declared with `%left`, `%right` or `%nonassoc`. -/
def Levels.Declared (st : Levels) : Prop :=
  ∀ t, (st.precedence t).level ≠ 0 → (st.precedence t).assoc = 'l' ∨ (st.precedence t).assoc = 'r' ∨
    (st.precedence t).assoc = 'n'

/-- The names behind a directive get its level and its associativity. -/
lemma declared_foldl_precList (st : Levels) (h : st.Declared)
    (hassoc : st.associativity = 'l' ∨ st.associativity = 'r' ∨ st.associativity = 'n')
    (pnames : List ℕ) : (pnames.foldl precList st).Declared := by
  induction pnames generalizing st with
  | nil => exact h
  | cons sym pnames ih =>
    rw [List.foldl_cons]
    unfold precList
    by_cases hterm : IsTerm sym
    · rw [if_neg (not_not.mpr hterm)]
      refine ih _ ?_ hassoc
      intro t ht
      by_cases heq : t = sym
      · subst heq
        dsimp only
        rw [Function.update_self]
        exact hassoc
      · dsimp only at ht ⊢
        rw [Function.update_of_ne heq] at ht ⊢
        exact h t ht
    · rw [if_pos hterm]
      exact ih st h hassoc

/-- A token with a level has been declared with one of the three directives. -/
lemma declared_precedenceOf (ds : List LevelDirective) :
    (ds.foldl readLevel initLevels).Declared := by
  have hrun : ∀ (ds : List LevelDirective) (st : Levels), st.Declared →
      (ds.foldl readLevel st).Declared := by
    intro ds
    induction ds with
    | nil => exact fun st h => h
    | cons d ds ih =>
      intro st h
      refine ih _ ?_
      rcases d with - | pnames | pnames | pnames
      · exact h
      · exact declared_foldl_precList (newLev 'l' st) h (.inl rfl) pnames
      · exact declared_foldl_precList (newLev 'r' st) h (.inr (.inl rfl)) pnames
      · exact declared_foldl_precList (newLev 'n' st) h (.inr (.inr rfl)) pnames
  exact hrun ds initLevels fun t ht => absurd rfl ht

/-! ## One reduction -/

/-- The entry of a state for a token, if there is one. -/
def Reduced.entry (st : Reduced) (state token : ℕ) : Option ℤ :=
  (pAction st.actions state token).map Act.doThis

/-- What a reduction makes of the entry that it finds: the new entry and what is added to
`_nreduce_reduce` and to `_nshift_reduce`. -/
def resolve (prec : PrecTab) (verbose : ℕ) (prod : Production) : Option ℤ → ℤ × ℕ × ℕ
  | none => (-(prod.num : ℤ), 0, 0)
  | some doThis =>
    if doThis ≤ 0 then (-(min (-doThis) prod.num), 1, 0)
    else
      let resolved := prod.prec ≠ 0 ∧ prec.level ≠ 0
      (if resolved ∧ (prec.level < prod.prec ∨ prod.prec = prec.level ∧ prec.assoc ≠ 'r')
        then -(prod.num : ℤ)
        else doThis,
        0, if 1 < verbose ∨ ¬ resolved then 1 else 0)

/-- At an entry of a reduction the production with the lower number is taken. -/
lemma resolve_reduce (prec : PrecTab) (verbose : ℕ) (prod : Production) {doThis : ℤ}
    (h : doThis ≤ 0) :
    resolve prec verbose prod (some doThis) = (-(min (-doThis) prod.num), 1, 0) := if_pos h

/-- At an entry of a shift the precedences decide between it and the reduction. -/
lemma resolve_shift (prec : PrecTab) (verbose : ℕ) (prod : Production) {doThis : ℤ}
    (h : ¬ doThis ≤ 0) : resolve prec verbose prod (some doThis) =
      (if (prod.prec ≠ 0 ∧ prec.level ≠ 0) ∧ (prec.level < prod.prec ∨ prod.prec = prec.level ∧
      prec.assoc ≠ 'r') then
        -(prod.num : ℤ) else doThis,
        0, if 1 < verbose ∨ ¬ (prod.prec ≠ 0 ∧ prec.level ≠ 0) then 1 else 0) := if_neg h

/-- Behind a write to the entry of a symbol the first entry of this symbol is the new one. -/
lemma find?_setDoThis (l : List Act) (sym : ℕ) (doThis : ℤ) (x : ℤ) :
    (setDoThis sym doThis l).find? (fun p => (p.sym : ℤ) = x) =
      if (sym : ℤ) = x then (l.find? fun p => (p.sym : ℤ) = x).map fun p => ⟨p.sym, doThis⟩
      else l.find? fun p => (p.sym : ℤ) = x := by
  induction l with
  | nil => simp [setDoThis]
  | cons a l ih =>
    unfold setDoThis
    by_cases hsym : a.sym = sym
    · rw [if_pos hsym, ← hsym]
      by_cases hx : (a.sym : ℤ) = x
      · simp [hx]
      · simp [hx]
    · rw [if_neg hsym]
      by_cases hx : (a.sym : ℤ) = x
      · have hne : (sym : ℤ) ≠ x := fun h => hsym (Nat.cast_inj.mp (hx.trans h.symm))
        simp [hx, hne]
      · rw [List.find?_cons_of_neg (by simpa using hx), ih, List.find?_cons_of_neg
          (by simpa using hx)]

section Step

variable {precedence : ℕ → PrecTab} {verbose : ℕ}

/-- An entry that is changed is the new one, and the other entries are as before. -/
lemma entry_change (st : Reduced) (state token : ℕ) (doThis : ℤ) {ap : Act}
    (h : pAction st.actions state token = some ap) (m u : ℕ) :
    (st.change state token doThis).entry m u = if m = state ∧ u = token then some doThis else
      st.entry m u := by
  unfold Reduced.entry Reduced.change pAction
  dsimp only
  by_cases hm : m = state
  · subst hm
    rw [Function.update_self, find?_setDoThis]
    unfold pAction at h
    by_cases hu : u = token
    · subst hu
      rw [if_pos rfl, if_pos ⟨rfl, rfl⟩, h]
      rfl
    · rw [if_neg fun heq => hu (Nat.cast_inj.mp heq).symm, if_neg fun heq => hu heq.2]
  · rw [Function.update_of_ne hm, if_neg fun heq => hm heq.1]

/-- A change of an entry leaves the chains of the other states as they are. -/
lemma actions_change (st : Reduced) (state token : ℕ) (doThis : ℤ) {m : ℕ} (hm : m ≠ state) :
    (st.change state token doThis).actions m = st.actions m := Function.update_of_ne hm _ _

/-- A reduction for a token without an action adds an entry at the front. -/
lemma reduceToken_none (st : Reduced) {state token : ℕ} (prod : Production)
    (h : pAction st.actions state token = none) :
    reduceToken precedence verbose st (state, prod, token) =
      { st with
        actions :=
          Function.update st.actions state (⟨token, -(prod.num : ℤ)⟩ :: st.actions state) } := by
  unfold reduceToken
  dsimp only
  rw [h]

/-- A reduction for a token with another reduction is counted as a conflict. -/
lemma reduceToken_reduce (st : Reduced) {state token : ℕ} (prod : Production) {ap : Act}
    (h : pAction st.actions state token = some ap) (hred : ap.doThis ≤ 0) :
    reduceToken precedence verbose st (state, prod, token) =
      { st.change state token (-(min (-ap.doThis) prod.num)) with
        nreduceReduce := st.nreduceReduce + 1 } := by
  unfold reduceToken
  dsimp only
  rw [h]
  exact if_pos hred

/-- A reduction for a token with a shift is resolved by the precedences. -/
lemma reduceToken_shift (st : Reduced) {state token : ℕ} (prod : Production) {ap : Act}
    (h : pAction st.actions state token = some ap) (hred : ¬ ap.doThis ≤ 0) :
    let resolved := prod.prec ≠ 0 ∧ (precedence token).level ≠ 0
    let st' := if resolved ∧ ((precedence token).level < prod.prec ∨
        prod.prec = (precedence token).level ∧ (precedence token).assoc ≠ 'r') then
        st.change state token (-(prod.num : ℤ)) else st
    reduceToken precedence verbose st (state, prod, token) =
      if 1 < verbose ∨ ¬ resolved then { st' with nshiftReduce := st.nshiftReduce + 1 } else
        st' := by
  unfold reduceToken
  dsimp only
  rw [h]
  exact if_neg hred

variable (precedence verbose) in
/-- A reduction for a token writes one entry, as `resolve` says, and counts the conflicts. -/
lemma reduceToken_spec (st : Reduced) (state token : ℕ) (prod : Production) :
    (∀ m u, (reduceToken precedence verbose st (state, prod, token)).entry m u = if m = state ∧
    u = token then
      some (resolve (precedence token) verbose prod (st.entry state token)).1 else st.entry m u) ∧
    (reduceToken precedence verbose st (state, prod, token)).nreduceReduce =
      st.nreduceReduce + (resolve (precedence token) verbose prod (st.entry state token)).2.1 ∧
    (reduceToken precedence verbose st (state, prod, token)).nshiftReduce =
      st.nshiftReduce + (resolve (precedence token) verbose prod (st.entry state token)).2.2 ∧
    ∀ m, m ≠ state → (reduceToken precedence verbose st (state, prod, token)).actions m =
        st.actions m := by
  rcases hap : pAction st.actions state token with _ | ap
  · have hentry : st.entry state token = none := by rw [Reduced.entry, hap, Option.map_none]
    rw [hentry, reduceToken_none st prod hap]
    refine ⟨?_, rfl, rfl, fun m hm => Function.update_of_ne hm _ _⟩
    intro m u
    unfold Reduced.entry
    dsimp only
    rw [pAction_update]
    by_cases hmu : m = state ∧ u = token
    · rw [if_pos ⟨hmu.1, congrArg Nat.cast hmu.2.symm⟩, if_pos hmu]
      rfl
    · rw [if_neg fun h => hmu ⟨h.1, (Nat.cast_inj.mp h.2).symm⟩, if_neg hmu]
  · have hentry :
      st.entry state token = some ap.doThis := by rw [Reduced.entry, hap, Option.map_some]
    by_cases hred : ap.doThis ≤ 0
    · rw [hentry, reduceToken_reduce st prod hap hred, resolve_reduce _ _ _ hred]
      exact ⟨entry_change st state token _ hap, rfl, rfl, fun m hm => actions_change st state token
        _ hm⟩
    · rw [hentry, reduceToken_shift st prod hap hred, resolve_shift _ _ _ hred]
      dsimp only
      by_cases hchange : (prod.prec ≠ 0 ∧ (precedence token).level ≠ 0) ∧
        ((precedence token).level < prod.prec ∨ prod.prec = (precedence token).level ∧
        (precedence token).assoc ≠ 'r')
      · rw [if_pos hchange, if_pos hchange]
        refine ⟨?_, ?_, ?_, ?_⟩
        · intro m u
          rw [← entry_change st state token _ hap m u]
          split <;> rfl
        · split <;> rfl
        · split <;> rfl
        · intro m hm
          rw [← actions_change st state token (-(prod.num : ℤ)) hm]
          split <;> rfl
      · rw [if_neg hchange, if_neg hchange]
        refine ⟨?_, ?_, ?_, ?_⟩
        · intro m u
          by_cases hmu : m = state ∧ u = token
          · rw [if_pos hmu, hmu.1, hmu.2, ← hentry]
            split <;> rfl
          · rw [if_neg hmu]
            split <;> rfl
        · split <;> rfl
        · split <;> rfl
        · intro m hm
          split <;> rfl

end Step

/-! ## The reductions of a state -/

/-- What reductions for one token make of an entry, one after the other, and what they add to the
counters. -/
def resolveAll (prec : PrecTab) (verbose : ℕ) : List Production → Option ℤ → Option ℤ × ℕ × ℕ
  | [], entry => (entry, 0, 0)
  | prod :: prods, entry =>
    let r := resolve prec verbose prod entry
    let q := resolveAll prec verbose prods (some r.1)
    (q.1, r.2.1 + q.2.1, r.2.2 + q.2.2)

/-- The productions that are reduced for a token, in the order of the list. -/
def prodsAt (l : List (ℕ × Production × ℕ)) (token : ℕ) : List Production :=
  (l.filter fun r => r.2.2 = token).map fun r => r.2.1

/-- The productions of the completed items of a state that have the token as a lookahead, in the
order of the visits. -/
def Automaton.completed (A : Automaton) (state token : ℕ) : List Production :=
  (((A.state state).kernelItems ++ (A.state state).epsilonItems).filter fun i =>
    rightOfDot i.core = none ∧ token ∈ i.lookaheads).map Item.prod

/-- The lookaheads of the completed items of a state. -/
def Automaton.reductionTokens (A : Automaton) (state : ℕ) : Finset ℕ :=
  ((A.stateReductions state).map fun r => r.2.2).toFinset

/-- The visits of a state for one token only. -/
def Automaton.reduceTokenOnly (A : Automaton) (precedence : ℕ → PrecTab) (verbose : ℕ)
    (st : Reduced) (state token : ℕ) : Reduced :=
  (A.completed state token).foldl (fun st prod => reduceToken precedence verbose st
    (state, prod, token)) st

section Walk

variable {precedence : ℕ → PrecTab} {verbose : ℕ}

/-- A step of `resolveAll` for the token of the first reduction, and none for another token. -/
lemma resolveAll_prodsAt_cons (state token t : ℕ) (prod : Production)
    (l : List (ℕ × Production × ℕ)) (entry : Option ℤ) :
    resolveAll (precedence t) verbose (prodsAt ((state, prod, token) :: l) t) entry =
      if token = t then
        let r := resolve (precedence t) verbose prod entry
        let q := resolveAll (precedence t) verbose (prodsAt l t) (some r.1)
        (q.1, r.2.1 + q.2.1, r.2.2 + q.2.2)
      else resolveAll (precedence t) verbose (prodsAt l t) entry := by
  unfold prodsAt
  by_cases ht : token = t
  · rw [if_pos ht, List.filter_cons_of_pos (by simpa using ht), List.map_cons]
    rfl
  · rw [if_neg ht, List.filter_cons_of_neg (by simpa using ht)]

variable (precedence verbose) in
/-- The reductions of a state, with their lookaheads in any order: each token has its own entry, and
the counters grow by what the tokens add. -/
lemma foldl_reduceToken_resolveAll (state : ℕ) (T : Finset ℕ) (l : List (ℕ × Production × ℕ))
    (hl : ∀ r ∈ l, r.1 = state ∧ r.2.2 ∈ T) (st : Reduced) :
    (∀ t, (l.foldl (reduceToken precedence verbose) st).entry state t =
      (resolveAll (precedence t) verbose (prodsAt l t) (st.entry state t)).1) ∧
    (l.foldl (reduceToken precedence verbose) st).nreduceReduce = st.nreduceReduce +
      ∑ t ∈ T, (resolveAll (precedence t) verbose (prodsAt l t) (st.entry state t)).2.1 ∧
    (l.foldl (reduceToken precedence verbose) st).nshiftReduce = st.nshiftReduce +
      ∑ t ∈ T, (resolveAll (precedence t) verbose (prodsAt l t) (st.entry state t)).2.2 ∧
    ∀ m, m ≠ state → (l.foldl (reduceToken precedence verbose) st).actions m = st.actions m := by
  induction l generalizing st with
  | nil => simp [prodsAt, resolveAll]
  | cons r l ih =>
    obtain ⟨n, prod, token⟩ := r
    obtain ⟨rfl, htoken⟩ := hl _ List.mem_cons_self
    obtain ⟨hentry, hrr, hsr, hother⟩ := reduceToken_spec precedence verbose st n token prod
    obtain ⟨ihentry, ihrr, ihsr, ihother⟩ := ih (fun r hr => hl r (List.mem_cons_of_mem _ hr))
      (reduceToken precedence verbose st (n, prod, token))
    set r := resolve (precedence token) verbose prod (st.entry n token) with hr
    set q := fun t => resolveAll (precedence t) verbose (prodsAt l t)
      ((reduceToken precedence verbose st (n, prod, token)).entry n t) with hq
    have hcons :
        ∀ t, resolveAll (precedence t) verbose (prodsAt ((n, prod, token) :: l) t) (st.entry n t) =
          ((q t).1, (if token = t then r.2.1 else 0) + (q t).2.1, (if token = t then r.2.2 else 0) +
          (q t).2.2) := by
      intro t
      rw [resolveAll_prodsAt_cons, hq]
      dsimp only
      rw [hentry]
      by_cases ht : token = t
      · subst ht
        rw [if_pos rfl, if_pos ⟨rfl, rfl⟩, if_pos rfl, if_pos rfl]
      · rw [if_neg ht, if_neg fun h => ht h.2.symm, if_neg ht, if_neg ht, zero_add, zero_add]
    refine ⟨?_, ?_, ?_, ?_⟩
    · intro t
      rw [List.foldl_cons, ihentry, hcons]
    · rw [List.foldl_cons, ihrr, hrr]
      simp only [hcons]
      rw [Finset.sum_add_distrib, Finset.sum_ite_eq, if_pos htoken, Nat.add_assoc]
    · rw [List.foldl_cons, ihsr, hsr]
      simp only [hcons]
      rw [Finset.sum_add_distrib, Finset.sum_ite_eq, if_pos htoken, Nat.add_assoc]
    · intro m hm
      rw [List.foldl_cons, ihother m hm, hother m hm]

/-- In the list of the members of a set each member occurs once. -/
lemma filter_members (set : Finset ℕ) (x : ℕ) :
    (members set).filter (fun y => y = x) = if x ∈ set then [x] else [] := by
  have hnodup : (members set).Nodup := List.nodup_range.filter _
  rw [List.filter_eq, List.Nodup.count hnodup]
  by_cases hx : x ∈ set
  · rw [if_pos (mem_members.mpr hx), if_pos hx]
    rfl
  · rw [if_neg (mt mem_members.mp hx), if_neg hx]
    rfl

/-- The new entry is the old one or the reduction of the production. -/
lemma resolve_fst (prec : PrecTab) (prod : Production) (entry : Option ℤ) :
    some (resolve prec verbose prod entry).1 = entry ∨
    (resolve prec verbose prod entry).1 = -(prod.num : ℤ) := by
  rcases entry with _ | d
  · exact .inr rfl
  · by_cases hd : d ≤ 0
    · rw [resolve_reduce prec verbose prod hd]
      dsimp only
      rcases min_choice (-d) (prod.num : ℤ) with h | h
      · exact .inl (by rw [h, neg_neg])
      · exact .inr (by rw [h])
    · rw [resolve_shift prec verbose prod hd]
      dsimp only
      split
      · exact .inr rfl
      · exact .inl rfl

/-- An entry behind a walk was there before, or it is one of the reductions. -/
lemma entry_foldl {l : List (ℕ × Production × ℕ)} {st : Reduced} {n t : ℕ} {d : ℤ}
    (h : (l.foldl (reduceToken precedence verbose) st).entry n t = some d) :
    st.entry n t = some d ∨ ∃ p, (n, p, t) ∈ l ∧ d = -(p.num : ℤ) := by
  induction l generalizing st with
  | nil => exact .inl h
  | cons r l ih =>
    obtain ⟨state, prod, token⟩ := r
    rcases ih h with hstep | ⟨p, hp, hd⟩
    · rw [(reduceToken_spec precedence verbose st state token prod).1] at hstep
      by_cases heq : n = state ∧ t = token
      · obtain ⟨rfl, rfl⟩ := heq
        rw [if_pos ⟨rfl, rfl⟩] at hstep
        rcases resolve_fst (precedence t) prod (st.entry n t) with hold | hnew
        · exact .inl (hold.symm.trans hstep)
        · exact .inr ⟨prod, List.mem_cons_self, (Option.some.inj hstep).symm.trans hnew⟩
      · rw [if_neg heq] at hstep
        exact .inl hstep
    · exact .inr ⟨p, List.mem_cons_of_mem _ hp, hd⟩

variable (precedence verbose) in
/-- A walk leaves an entry where there was one and where there is a reduction. -/
lemma exists_entry_foldl {l : List (ℕ × Production × ℕ)} (st : Reduced) {n t : ℕ}
    (h : (∃ d, st.entry n t = some d) ∨ ∃ p, (n, p, t) ∈ l) :
    ∃ d, (l.foldl (reduceToken precedence verbose) st).entry n t = some d := by
  induction l generalizing st with
  | nil =>
    rcases h with h | ⟨p, hp⟩
    · exact h
    · cases hp
  | cons r l ih =>
    obtain ⟨state, prod, token⟩ := r
    apply ih
    rw [(reduceToken_spec precedence verbose st state token prod).1]
    by_cases heq : n = state ∧ t = token
    · rw [if_pos heq]
      exact .inl ⟨_, rfl⟩
    · rw [if_neg heq]
      rcases h with h | ⟨p, hp⟩
      · exact .inl h
      · rcases List.mem_cons.mp hp with hhead | htail
        · rw [Prod.mk.injEq, Prod.mk.injEq] at hhead
          exact absurd ⟨hhead.1, hhead.2.2⟩ heq
        · exact .inr ⟨p, htail⟩

/-- Each completed item with the token as a lookahead gives one reduction. -/
lemma prodsAt_stateReductions (A : Automaton) (state token : ℕ) :
    prodsAt (A.stateReductions state) token = A.completed state token := by
  unfold prodsAt Automaton.stateReductions Automaton.completed
  generalize (A.state state).kernelItems ++ (A.state state).epsilonItems = items
  induction items with
  | nil => rfl
  | cons i items ih =>
    rw [List.flatMap_cons, List.filter_append, List.map_append, ih]
    unfold Automaton.itemReductions
    rcases hdot : rightOfDot i.core with _ | x
    · rw [Option.isSome_none, if_neg (by decide), List.filter_map, List.map_map]
      have hcomp :
          ((fun r : ℕ × Production × ℕ => decide (r.2.2 = token)) ∘ fun t => (state, i.prod, t)) =
          fun y => decide (y = token) := rfl
      rw [hcomp, filter_members]
      by_cases htoken : token ∈ i.lookaheads
      · rw [if_pos htoken, List.filter_cons_of_pos (by simp [hdot, htoken])]
        rfl
      · rw [if_neg htoken, List.filter_cons_of_neg (by simp [htoken])]
        rfl
    · rw [Option.isSome_some, if_pos rfl, List.filter_cons_of_neg (by simp [hdot])]
      rfl

variable (precedence verbose) in
/-- The visits of a state for one token resolve its completed items one after another. -/
lemma reduceTokenOnly_spec (A : Automaton) (st : Reduced) (state token : ℕ) :
    (A.reduceTokenOnly precedence verbose st state token).nreduceReduce = st.nreduceReduce +
      (resolveAll (precedence token) verbose (A.completed state token) (st.entry state token)).2.1 ∧
    (A.reduceTokenOnly precedence verbose st state token).nshiftReduce = st.nshiftReduce +
      (resolveAll (precedence token) verbose (A.completed state token)
      (st.entry state token)).2.2 := by
  unfold Automaton.reduceTokenOnly
  generalize A.completed state token = ps
  have hfold : ps.foldl (fun st prod => reduceToken precedence verbose st (state, prod, token)) st =
      (ps.map fun prod => (state, prod, token)).foldl (reduceToken precedence verbose) st := by
    rw [List.foldl_map]
  have hprods : prodsAt (ps.map fun prod => (state, prod, token)) token = ps := by
    unfold prodsAt
    rw [List.filter_eq_self.mpr, List.map_map]
    · exact List.map_id ps
    · intro r hr
      obtain ⟨prod, -, rfl⟩ := List.mem_map.mp hr
      exact decide_eq_true rfl
  have hmem : ∀ r ∈ ps.map fun prod => (state, prod, token), r.1 = state ∧
      r.2.2 ∈ ({token} : Finset ℕ) := by
    intro r hr
    obtain ⟨prod, -, rfl⟩ := List.mem_map.mp hr
    exact ⟨rfl, Finset.mem_singleton_self token⟩
  obtain ⟨-, hrr, hsr, -⟩ := foldl_reduceToken_resolveAll precedence verbose
    state {token} _ hmem st
  rw [hfold, hrr, hsr, Finset.sum_singleton, Finset.sum_singleton, hprods]
  exact ⟨rfl, rfl⟩

end Walk

/-! ## The outcome -/

/-- Reductions where there is one already: the production with the smallest number is chosen. -/
lemma resolveAll_reduce (prec : PrecTab) (verbose : ℕ) (prods : List Production) (k : ℕ) :
    ∃ j : ℕ, resolveAll prec verbose prods (some (-(k : ℤ))) = (some (-(j : ℤ)), prods.length, 0) ∧
      j ≤ k ∧ (∀ p ∈ prods, j ≤ p.num) ∧ (j = k ∨ ∃ p ∈ prods, p.num = j) := by
  induction prods generalizing k with
  | nil => exact ⟨k, rfl, le_rfl, fun p hp => absurd hp List.not_mem_nil, .inl rfl⟩
  | cons prod prods ih =>
    obtain ⟨j, hj, hle, hall, hmem⟩ := ih (min k prod.num)
    have hres :
        resolve prec verbose prod (some (-(k : ℤ))) = (-((min k prod.num : ℕ) : ℤ), 1, 0) := by
      rw [resolve_reduce _ _ _ (by omega), neg_neg, Nat.cast_min]
    refine ⟨j, ?_, hle.trans (Nat.min_le_left _ _), ?_, ?_⟩
    · unfold resolveAll
      rw [hres]
      dsimp only
      rw [hj, List.length_cons]
      simp [Nat.add_comm]
    · intro p hp
      rcases List.mem_cons.mp hp with rfl | hp
      · exact hle.trans (Nat.min_le_right _ _)
      · exact hall p hp
    · rcases hmem with rfl | ⟨p, hp, rfl⟩
      · rcases Nat.le_total k prod.num with h | h
        · exact .inl (Nat.min_eq_left h)
        · exact .inr ⟨prod, List.mem_cons_self, (Nat.min_eq_right h).symm⟩
      · exact .inr ⟨p, List.mem_cons_of_mem _ hp, rfl⟩

/-- Reductions where there is no action: the production with the smallest number is chosen. -/
lemma resolveAll_none (prec : PrecTab) (verbose : ℕ) {prods : List Production} (hne : prods ≠ []) :
    ∃ p ∈ prods, (∀ q ∈ prods, p.num ≤ q.num) ∧
      resolveAll prec verbose prods none = (some (-(p.num : ℤ)), prods.length - 1, 0) := by
  obtain ⟨prod, prods, rfl⟩ := List.exists_cons_of_ne_nil hne
  obtain ⟨j, hj, hle, hall, hmem⟩ := resolveAll_reduce prec verbose prods prod.num
  have hres :
      resolveAll prec verbose (prod :: prods) none = (some (-(j : ℤ)), prods.length, 0) := by
    unfold resolveAll resolve
    dsimp only
    rw [hj]
    simp
  obtain ⟨p, hp, rfl⟩ : ∃ p ∈ prod :: prods, p.num = j := by
    rcases hmem with rfl | ⟨p, hp, rfl⟩
    · exact ⟨prod, List.mem_cons_self, rfl⟩
    · exact ⟨p, List.mem_cons_of_mem _ hp, rfl⟩
  refine ⟨p, hp, ?_, hres⟩
  intro q hq
  rcases List.mem_cons.mp hq with rfl | hq
  · exact hle
  · exact hall q hq

/-- What `add_reductions` leaves in a state: the entry for a token is that of the smallest
production number, or is decided between a shift and a reduction by the precedences; the counters
grow by what the tokens add; entries for other tokens and other states are not touched. -/
structure Resolved (A : Automaton) (precedence : ℕ → PrecTab) (verbose : ℕ) (st : Reduced)
    (state : ℕ) : Prop where
  /-- Where there is no shift, the reduction of the lowest number is the entry. -/
  noShift : ∀ t, st.entry state t = none → A.completed state t ≠ [] →
    ∃ p ∈ A.completed state t, (∀ q ∈ A.completed state t, p.num ≤ q.num) ∧
      (A.addReductions precedence verbose st state).entry state t = some (-(p.num : ℤ)) ∧
      (A.reduceTokenOnly precedence verbose st state t).nreduceReduce =
        st.nreduceReduce + ((A.completed state t).length - 1) ∧
      (A.reduceTokenOnly precedence verbose st state t).nshiftReduce = st.nshiftReduce
  /-- There is a shift, and one reduction. -/
  shift : ∀ t next p, st.entry state t = some next → 0 < next → (precedence t).assoc ≠ 'n' →
    A.completed state t = [p] →
    (A.addReductions precedence verbose st state).entry state t = some
      (if p.prec ≠ 0 ∧ (precedence t).level ≠ 0 ∧ ((precedence t).level < p.prec ∨
        p.prec = (precedence t).level ∧ (precedence t).assoc = 'l') then -(p.num : ℤ) else next) ∧
      (verbose ≤ 1 → (A.reduceTokenOnly precedence verbose st state t).nshiftReduce =
        st.nshiftReduce + if p.prec = 0 ∨ (precedence t).level = 0 then 1 else 0) ∧
      (A.reduceTokenOnly precedence verbose st state t).nreduceReduce = st.nreduceReduce
  /-- The tokens do not touch the entries of each other. -/
  otherTokens : ∀ t, A.completed state t = [] →
    (A.addReductions precedence verbose st state).entry state t = st.entry state t
  /-- Other states are not touched. -/
  otherStates : ∀ m, m ≠ state → (A.addReductions precedence verbose st state).actions m =
    st.actions m
  /-- `_nreduce_reduce` grows by what the tokens add. -/
  nreduceReduce : (A.addReductions precedence verbose st state).nreduceReduce = st.nreduceReduce +
    ∑ t ∈ A.reductionTokens state,
      ((A.reduceTokenOnly precedence verbose st state t).nreduceReduce - st.nreduceReduce)
  /-- `_nshift_reduce` grows by what the tokens add. -/
  nshiftReduce : (A.addReductions precedence verbose st state).nshiftReduce = st.nshiftReduce +
    ∑ t ∈ A.reductionTokens state,
      ((A.reduceTokenOnly precedence verbose st state t).nshiftReduce - st.nshiftReduce)

/-- Conflicts are decided by the precedences that have been declared and by the numbers of the
productions. -/
theorem addReductions_resolved (ds : List LevelDirective) (A : Automaton) (verbose : ℕ)
    (st : Reduced) (state : ℕ) : Resolved A (precedenceOf ds) verbose st state := by
  have hmem : ∀ r ∈ A.stateReductions state, r.1 = state ∧ r.2.2 ∈ A.reductionTokens state := by
    intro r hr
    refine ⟨fst_of_mem_stateReductions hr, ?_⟩
    exact List.mem_toFinset.mpr (List.mem_map.mpr ⟨r, hr, rfl⟩)
  obtain ⟨hentry, hrr, hsr, hother⟩ := foldl_reduceToken_resolveAll (precedenceOf ds) verbose state
    (A.reductionTokens state) (A.stateReductions state) hmem st
  rw [← addReductions_eq] at hentry hrr hsr
  simp only [← addReductions_eq] at hother
  simp only [prodsAt_stateReductions] at hentry hrr hsr
  constructor
  · intro t hnone hne
    obtain ⟨p, hp, hmin, hres⟩ := resolveAll_none (precedenceOf ds t) verbose hne
    obtain ⟨hrr', hsr'⟩ := reduceTokenOnly_spec (precedenceOf ds) verbose A st state t
    rw [hnone, hres] at hrr' hsr'
    exact ⟨p, hp, hmin, by rw [hentry, hnone, hres], hrr', hsr'⟩
  · intro t next p hnext hpos hassoc hone
    obtain ⟨hrr', hsr'⟩ := reduceTokenOnly_spec (precedenceOf ds) verbose A st state t
    have hres : resolveAll (precedenceOf ds t) verbose [p] (some next) = _ :=
      congrArg (fun r : ℤ × ℕ × ℕ => (some r.1, r.2.1 + 0, r.2.2 + 0))
        (resolve_shift (precedenceOf ds t) verbose p (Int.not_le.mpr hpos))
    rw [hnext, hone, hres] at hrr' hsr'
    refine ⟨?_, ?_, hrr'⟩
    · rw [hentry, hnext, hone, hres]
      refine congrArg some (if_congr ?_ rfl rfl)
      rw [and_assoc]
      refine and_congr_right fun _ => and_congr_right fun hlevel => or_congr_right
        (and_congr_right fun _ => ?_)
      -- the third associativity is excluded
      rcases declared_precedenceOf ds t hlevel with h | h | h
      · exact ⟨fun _ => h, fun _ hr => absurd (h.symm.trans hr) (by decide)⟩
      · exact ⟨fun hr => absurd h hr, fun hl => absurd (h.symm.trans hl) (by decide)⟩
      · exact absurd h hassoc
    · intro hverbose
      rw [hsr']
      refine congrArg (st.nshiftReduce + ·) (if_congr ?_ rfl rfl)
      rw [or_iff_right (Nat.not_lt.mpr hverbose), not_and_or, not_not, not_not]
  · intro t hnil
    rw [hentry, hnil]
    rfl
  · exact hother
  · rw [hrr]
    refine congrArg (st.nreduceReduce + ·) (Finset.sum_congr rfl fun t _ => ?_)
    rw [(reduceTokenOnly_spec (precedenceOf ds) verbose A st state t).1, Nat.add_sub_cancel_left]
  · rw [hsr]
    refine congrArg (st.nshiftReduce + ·) (Finset.sum_congr rfl fun t _ => ?_)
    rw [(reduceTokenOnly_spec (precedenceOf ds) verbose A st state t).2, Nat.add_sub_cancel_left]

end Parser
