import Cgkits.Parser.LrHover
import Cgkits.Parser.Nonassoc

/-!
# The LALR(1) driver comes to an end (`occs.m`)

At the level above which a run without an end hovers, only an empty right-hand side can be reduced.
The lookahead of this reduction is justified in the state: the driver is led to a shift, or to a
reduction that goes below the level (`Settled.exists_leaving`).  So there is no such run
(`Settled.not_hovers`).

Three things can go wrong.  A conflict can be decided for a circle of symbols.  A conflict can be
decided for a production that derives the empty word, so that the driver is led away from what
justifies the lookahead, finds an error, and pops the states that it has just pushed.  And a
lookahead need not be justified, when the FIRST sets have too much in them.
-/

namespace Parser

open ContextFree Machine

namespace Grammar

variable {G : Grammar} {F : SetTable} {A : Automaton} {T : YyTables}

/-! ## What the tables must not do -/

variable (G A T) in
/-- No conflict is decided for a production that derives the empty word. -/
def NoErasure : Prop :=
  ∀ n < A.nstates, ∀ t : ℕ, ∀ p ∈ A.completed n t, G.Erasable p.rhs →
    chainNext T.action n t = -(p.num : ℤ) → (∀ q ∈ A.completed n t, q = p) ∧
    (IsTerm t → A.targets n t = [])

variable (G F A T) in
/-- What the end of a run rests on: the tables of an automaton in which something is done wherever
something can be done, exact FIRST sets, productions without actions, the number 0 for the
production of the goal symbol, and no harm from the conflicts. -/
structure Settled : Prop where
  /-- The tables are those of the automaton. -/
  tabled : G.Tabled F A T
  /-- Behind a completed production the entry for a lookahead is not an error. -/
  completed : ∀ n < A.nstates, ∀ t : ℕ, ∀ p ∈ A.completed n t, chainNext T.action n t ≠ yyF
  /-- In front of a terminal its entry is not an error. -/
  shift : ∀ n < A.nstates, ∀ t n' : ℕ, IsTerm t → (n' : ℤ) ∈ A.targets n t →
    chainNext T.action n t ≠ yyF
  /-- The FIRST sets have all that they must have. -/
  first : G.FirstCovers F
  /-- The FIRST sets have nothing else. -/
  firstExact : G.FirstExact F
  /-- The productions hold no actions. -/
  noActs : ∀ p ∈ G.prods, ∀ x ∈ p.rhs, ¬ IsAct x
  /-- The production of the goal symbol. -/
  zero : ∀ p ∈ G.productions G.goalSymbol, p.num = 0
  /-- The symbols are not replaced in a circle. -/
  noCircle : G.NoCircle A T
  /-- The conflicts are not decided for erasures. -/
  noErasure : G.NoErasure A T

variable (G A T) in
/-- In the state the lookahead is shifted, or a production is reduced that does not derive the empty
word. -/
def Leaves (t n : ℕ) : Prop :=
  (∃ n' < A.nstates, n' ≠ 0 ∧ chainNext T.action n t = n') ∨
    ∃ p ∈ G.prods, chainNext T.action n t = -(p.num : ℤ) ∧ ¬ G.Erasable p.rhs

section Settled

variable {t q n : ℕ} {o : Occ}

/-- A production with a completed item and a lookahead can be reduced. -/
lemma Built.mem_completed (hB : G.Built F A) (hn : n < A.nstates) (ho : G.Occurs (A.cores n) o)
    (hdot : rightOfDot o.core = none) (hlook : G.Look F A n o t) : o.core.1 ∈ A.completed n t :=
  mem_completed_iff.mpr (hB.mem_stateReductions_of_look hn ho hdot hlook)

/-- Two productions with one number in the table of actions are one production. -/
lemma eq_of_entry_eq {p p' : Production} (hp : p ∈ G.prods) (hp' : p' ∈ G.prods) {d : ℤ}
    (h : d = -(p.num : ℤ)) (h' : d = -(p'.num : ℤ)) : p = p' := eq_of_num_eq hp hp' (by omega)

/-- A completed item is reduced, or the driver leaves. -/
lemma Settled.reducesUnless (hS : G.Settled F A T) (t : ℕ) :
    G.ReducesUnless F A T (G.Leaves A T t) t := by
  intro n hn o ho hdot hlook
  have hB := hS.tabled.built
  have hmem := hB.mem_completed hn ho hdot hlook
  rcases hS.tabled.entries n hn t with hnone | ⟨n', -, htarget, hnext⟩ |
    ⟨o', ho', hdot', hlook', hnext⟩
  · exact absurd hnone (hS.completed n hn t _ hmem)
  · obtain ⟨hne, hlt, -⟩ := hB.next_ne_zero hn htarget
    exact .inl (.inl ⟨n', hlt, hne, hnext⟩)
  · by_cases herase : G.Erasable o'.core.1.rhs
    · obtain ⟨hall, -⟩ := hS.noErasure n hn t _ (hB.mem_completed hn ho' hdot' hlook') herase hnext
      rw [hall _ hmem]
      exact .inr hnext
    · exact .inl (.inr ⟨_, hB.mem_prods ho'.inClosure, hnext, herase⟩)

/-- In front of the lookahead that the driver leaves, the automaton shifts. -/
lemma Settled.shiftsOn (hS : G.Settled F A T) (t : ℕ) : ShiftsOn A (G.Leaves A T t) t := by
  intro n hn n' htarget hterm
  have hB := hS.tabled.built
  rcases hS.tabled.entries n hn t with hnone | ⟨m, -, htarget', hnext⟩ |
    ⟨o', ho', hdot', hlook', hnext⟩
  · exact absurd hnone (hS.shift n hn t n' hterm htarget)
  · obtain ⟨hne, hlt, -⟩ := hB.next_ne_zero hn htarget'
    exact .inl ⟨m, hlt, hne, hnext⟩
  · refine .inr ⟨_, hB.mem_prods ho'.inClosure, hnext, fun herase => ?_⟩
    obtain ⟨-, hnil⟩ := hS.noErasure n hn t _ (hB.mem_completed hn ho' hdot' hlook') herase hnext
    rw [hnil hterm] at htarget
    cases htarget

variable (G A T) in
/-- With `k` symbols above a state the driver comes to an end, shifts the lookahead, or reduces a
production that does not derive the empty word or that reaches below the symbols. -/
def LeavesBy (t k n : ℕ) : Prop :=
  (∃ n' < A.nstates, n' ≠ 0 ∧ chainNext T.action n t = n') ∨
    ∃ p ∈ G.prods, chainNext T.action n t = -(p.num : ℤ) ∧
      (p.num = 0 ∨ ¬ G.Erasable p.rhs ∨ k < p.rhs.length)

/-- From a state with an erasure and its lookahead the driver is led to where it leaves. -/
lemma Settled.exists_leaving (hS : G.Settled F A T) {stack γ : List ℕ}
    (hs : Spells A (q :: stack) γ) (hdot : rightOfDot o.core = none) (hlook : G.Look F A q o t) :
    ∃ l ν, G.Climbs A T t q l ν ∧ G.Erasable ν ∧ G.LeavesBy A T t ν.length (l.headD q) := by
  have hB := hS.tabled.built
  have hred := hS.reducesUnless t
  have hq := hs.lt hB
  have hcomes : G.ComesTo A T (G.Leaves A T t) t q →
      ∃ l ν, G.Climbs A T t q l ν ∧ G.Erasable ν ∧ G.LeavesBy A T t ν.length (l.headD q) := by
    rintro ⟨l, ν, hclimb, hν, hleave⟩
    refine ⟨l, ν, hclimb, hν, hleave.imp_right ?_⟩
    rintro ⟨p, hp, hnext, herase⟩
    exact ⟨p, hp, hnext, .inr (.inl herase)⟩
  have hnil : o.core.1.rhs.drop o.core.2 = [] :=
    List.drop_eq_nil_of_le (List.getElem?_eq_none_iff.mp hdot)
  have hvan : G.Erasable (o.core.1.rhs.drop o.core.2) := by
    rw [hnil]
    exact fun x hx => absurd hx List.not_mem_nil
  rcases comesTo_or_kernel hB hS.first hS.firstExact hS.noActs hred (hS.shiftsOn t) hlook hvan with
    hto | ⟨k, c, hkern, hrest⟩
  · exact hcomes hto
  · -- the production of the item in the kernel is completed above `q`
    have hocc := (hkern.occurs hB).2
    have hprod := hB.mem_prods hocc.inClosure
    have hacts : ∀ x ∈ c.1.rhs.drop c.2, ¬ IsAct x :=
      fun x hx => hS.noActs _ hprod x (List.mem_of_mem_drop hx)
    rcases climbs_of_yields hB hS.first hS.noActs hred ((erasable_iff_yields hacts).mp hrest) rfl hq
        hocc hkern rfl with
      hto | ⟨l, o', hcomp⟩
    · exact hcomes hto
    · rcases hred _ (hcomp.climbs.trail.lt hB hq) o' hcomp.occurs hcomp.dot hcomp.look with
        hleave | hnext
      · exact hcomes ⟨l, _, hcomp.climbs, fun x hx => hrest x (List.mem_reverse.mp hx), hleave⟩
      · refine ⟨l, _, hcomp.climbs, fun x hx => hrest x (List.mem_reverse.mp hx),
          .inr ⟨c.1, hprod, ?_, ?_⟩⟩
        · rw [hcomp.prod] at hnext
          exact hnext
        · -- the dot stands behind a symbol, except in the kernel of the first state
          obtain ⟨p, d⟩ := c
          rcases d with _ | d
          · left
            have hcore : (p, 0) ∈ A.cores q := List.mem_of_getElem? hocc
            exact hS.zero p (hs.start_of_mem_cores hB hcore)
          · right
            right
            have hle : d + 1 ≤ p.rhs.length := (hs.item hB hocc.inClosure).1
            change (p.rhs.drop (d + 1)).reverse.length < p.rhs.length
            rw [List.length_reverse, List.length_drop]
            omega

/-- A reduction that leaves the level as it is does not reach down to it. -/
lemma Settled.length_le (hS : G.Settled F A T) {p : Production} (hp : p ∈ G.prods) {n : ℕ}
    (hn : n < A.nstates) (hnext : chainNext T.action n t = -(p.num : ℤ)) {γ₁ β : List ℕ}
    (hβ : G.Above (p.rhs.reverse ++ γ₁) β) (hβ' : G.Above (p.lhs :: γ₁) β) :
    β.length ≤ γ₁.length := by
  obtain ⟨ν', hγ', -⟩ := hβ'
  rcases ν' with _ | ⟨y, ν'⟩
  · exfalso
    obtain ⟨ν, hγ, hν⟩ := hβ
    rw [List.nil_append] at hγ'
    rw [← hγ', ← List.singleton_append, ← List.append_assoc, List.append_left_inj] at hγ
    refine hS.noCircle p.lhs
      (.single ⟨p, hp, rfl, ⟨ν.reverse, ?_, fun z hz => hν z (List.mem_reverse.mp hz)⟩, n, hn, t,
      hnext⟩)
    rw [← List.reverse_reverse p.rhs, hγ, List.reverse_append]
    exact List.singleton_append
  · obtain ⟨-, hγ₁⟩ := List.cons.inj hγ'
    exact hγ₁ ▸ (List.suffix_append ν' β).length_le

section NotHovers

variable {env : LrEnv} {f : ℕ → YyState} {γ : ℕ → List ℕ} {g : ℕ}

/-- At the level the round reduces an empty right-hand side, which has the lookahead. -/
lemma Hovers.exists_look (hT : G.Tabled F A T) (h : G.Hovers A T env f γ t g)
    (hlevel : (γ n).length = g) {stack : List ℕ} (hstack : (f n).stack = q :: stack) :
    ∃ o, rightOfDot o.core = none ∧ G.Look F A q o t := by
  have hs := h.spells n
  rw [hstack] at hs
  have hF : yyF = 32767 := rfl
  rcases h.round n with ⟨p, -, γ₁, hnum, hact, -⟩ | ⟨-, π, hπ, hγ⟩
  · rw [actNum_eq hstack, h.lookahead n] at hact
    rcases hT.entries q (hs.lt hT.built) t with hnone | ⟨n', -, -, hnext⟩ | ⟨o, -, hdot, hlook, -⟩
    · omega
    · omega
    · exact ⟨o, hdot, hlook⟩
  · -- states would be popped below the level
    have hlow := h.level (n + 1)
    have hsum := congrArg List.length hγ
    rw [List.length_append, hlevel] at hsum
    have hpos := List.length_pos_iff.mpr hπ
    omega

/-- No run hovers above a level, because each of its reductions goes on upwards. -/
lemma Settled.not_hovers (hS : G.Settled F A T) (h : G.Hovers A T env f γ t g)
    (hstart : (γ 0).length = g) : False := by
  have hT := hS.tabled
  have hF : yyF = 32767 := rfl
  obtain ⟨N, β, hlen, hβ⟩ := h.exists_above hS.noActs hS.noCircle hstart
  -- a round at the level
  obtain ⟨n, hn, hlevel⟩ := h.back N
  obtain ⟨q, stack, hstack⟩ := List.exists_cons_of_ne_nil (h.spells n).ne_nil
  have hs := h.spells n
  rw [hstack] at hs
  obtain ⟨o, hdot, hlook⟩ := h.exists_look hT hlevel hstack
  -- the driver is led to where it leaves
  obtain ⟨l, ν, hclimb, hν, hleave⟩ := hS.exists_leaving hs hdot hlook
  have hruns : Relation.ReflTransGen (G.Reduces A T t) (f n).stack (l ++ q :: stack) := by
    rw [hstack]
    exact hclimb.runs stack
  obtain ⟨m, hm, htop⟩ := h.follows hT hruns
  have hspells := h.spells m
  rw [htop] at hspells
  have hγm : γ m = ν ++ γ n := hspells.unique hT.built (hclimb.trail.spells hs)
  obtain ⟨rest, hrest⟩ := append_cons_eq l q stack
  have hact := actNum_eq (T := T) (htop.trans hrest)
  rw [h.lookahead m] at hact
  rcases h.round m with ⟨p, hp, γ₁, hnum, hp', hγ, hγ', n', hn', hnext'⟩ | ⟨herr, -⟩
  · rcases hleave with ⟨k, -, -, hshift⟩ | ⟨p₁, hp₁, hred, hwhy⟩
    · omega
    · obtain rfl := eq_of_entry_eq hp₁ hp (hact.trans hred) hp'
      rw [h.lookahead m] at hnext'
      -- what is reduced is above the level, so it is among the symbols that have been put there
      have habove := hβ (m + 1) ((hn.trans hm).trans (Nat.le_succ m))
      rw [hγ'] at habove
      have hle := hS.length_le hp hn' hnext' (hγ ▸ hβ m (hn.trans hm)) habove
      rw [hlen, ← hlevel] at hle
      have heq := hγ.symm.trans hγm
      have hsum := congrArg List.length heq
      rw [List.length_append, List.length_append, List.length_reverse] at hsum
      rcases hwhy with hzero | herase | hlong
      · exact hnum hzero
      · refine herase fun x hx => hν x ?_
        have hprefix : p₁.rhs.reverse <+: ν := by
          refine List.prefix_of_prefix_length_le (heq ▸ List.prefix_append p₁.rhs.reverse γ₁)
            (List.prefix_append ν (γ n)) ?_
          rw [List.length_reverse]
          omega
        exact hprefix.subset (List.mem_reverse.mpr hx)
      · omega
  · rcases hleave with ⟨k, hk, -, hshift⟩ | ⟨p₁, -, hred, -⟩
    · exact hT.built.ne_yyF hk (hshift.symm.trans (hact.symm.trans herr))
    · omega

end NotHovers

end Settled

/-! ## How a run ends -/

/-- How `yyparse` can end: not with an underflow of the stack, and with a push below the array only
when the stack is full. -/
def LrEnds (T : YyTables) (env : LrEnv) (w : List ℕ) (r : LrResult) : Prop :=
  r ≠ .underflow ∧ (r = .stray → env.yymaxdepth = 0 ∨
    ∃ s, Reaches (lrStep T env) (lrInit w) s ∧ s.stack.length = env.yymaxdepth)

section Ends

variable {env : LrEnv} {w : List ℕ} {s : YyState} {r : LrResult}

/-- A round that ends the run and is no reduction ends it in another way. -/
lemma lrStep_inr (hne : s.stack ≠ []) (h : lrStep T env s = .inr r) :
    (r ≠ .underflow ∧ r ≠ .stray) ∨ (s.actNum T ≤ 0 ∧ yyReduce T env (-s.actNum T).toNat
      (T.reduce (-s.actNum T).toNat) { s with suppressErr := s.suppressErr - 1 } = .inr r) := by
  unfold lrStep at h
  dsimp only at h
  rw [if_neg hne] at h
  split at h
  · left
    unfold yyRecover at h
    dsimp only at h
    generalize (if s.suppressErr - 1 = 0 then s.yynerrs + 1 else s.yynerrs) = yynerrs at h
    split at h
    · cases h
      exact ⟨LrResult.noConfusion, LrResult.noConfusion⟩
    · split at h
      · cases h
        exact ⟨LrResult.noConfusion, LrResult.noConfusion⟩
      · split at h
        · cases h
          exact ⟨LrResult.noConfusion, LrResult.noConfusion⟩
        · cases h
  · split at h
    · left
      unfold yyShift at h
      split at h
      · cases h
        exact ⟨LrResult.noConfusion, LrResult.noConfusion⟩
      · cases h
    · split at h
      · cases h
        exact .inl ⟨LrResult.noConfusion, LrResult.noConfusion⟩
      · split at h
        · cases h
          exact .inl ⟨LrResult.noConfusion, LrResult.noConfusion⟩
        · exact .inr ⟨by omega, h⟩

/-- A round on a path of the automaton does not end the run with an underflow, and with a push below
the array only when the stack is full. -/
lemma lrStep_ends (hT : G.Tabled F A T) {γ : List ℕ} (hs : Spells A s.stack γ)
    (hle : s.stack.length ≤ env.yymaxdepth) (h : lrStep T env s = .inr r) :
    r ≠ .underflow ∧ (r = .stray → s.stack.length = env.yymaxdepth) := by
  obtain ⟨n, stack, hstack⟩ := List.exists_cons_of_ne_nil hs.ne_nil
  have hact := actNum_eq (T := T) hstack
  rcases lrStep_inr hs.ne_nil h with ⟨hunder, hstray⟩ | ⟨hneg, hreduce⟩
  · exact ⟨hunder, fun heq => absurd heq hstray⟩
  · -- the right-hand side is on the stack
    rw [hstack] at hs
    have hn := hs.lt hT.built
    have hF : yyF = 32767 := rfl
    rcases hT.entries n hn s.lookahead with hnone | ⟨n', -, htarget, hnext⟩ |
      ⟨o, ho, hdot, -, hnext⟩
    · omega
    · have hpos := (hT.built.next_ne_zero hn htarget).1
      omega
    · obtain ⟨m, stack', γ', hdrop, -⟩ := hs.completed hT.built ho.inClosure hdot
      have hnat : (-s.actNum T).toNat = o.core.1.num := by omega
      rw [hnat, hT.reduce _ (hT.built.mem_prods ho.inClosure)] at hreduce
      rw [← hstack] at hdrop
      have hlen := congrArg List.length hdrop
      rw [List.length_drop, List.length_cons] at hlen
      unfold yyReduce at hreduce
      dsimp only at hreduce
      rw [if_neg (by omega), hdrop] at hreduce
      dsimp only at hreduce
      split at hreduce
      · rename_i hfull
        cases hreduce
        rw [List.length_cons] at hfull
        exact ⟨LrResult.noConfusion, fun _ => by omega⟩
      · cases hreduce

/-- The states of a run are paths of the automaton that fit into the array. -/
lemma spells_of_reaches (hT : G.Tabled F A T) (hzero : ∀ p ∈ G.productions G.goalSymbol, p.num = 0)
    (hdepth : env.yymaxdepth ≠ 0) (h : Reaches (lrStep T env) (lrInit w) s) :
    (∃ γ, Spells A s.stack γ) ∧ s.stack.length ≤ env.yymaxdepth := by
  refine h.invariant (fun s => (∃ γ, Spells A s.stack γ) ∧ s.stack.length ≤ env.yymaxdepth) ?_ ?_
  · rintro s s' ⟨⟨γ, hγ⟩, hle⟩ hstep
    obtain ⟨γ', hγ', -⟩ := lrStep_round hT hzero hγ hstep
    exact ⟨⟨γ', hγ'⟩, length_stack_le hle hstep⟩
  · exact ⟨⟨[], .start⟩, Nat.pos_of_ne_zero hdepth⟩

/-- Every run of the driver over settled tables comes to an end. -/
lemma Settled.stops (hS : G.Settled F A T) (hdepth : env.yymaxdepth ≠ 0) :
    Stops (lrStep T env) (lrInit w) := by
  by_contra hnever
  obtain ⟨f, hstart, hf⟩ := exists_endless hnever
  obtain ⟨hspells, hle⟩ := spells_of_reaches (w := w) hS.tabled hS.zero hdepth (.refl _)
  rw [← hstart] at hspells hle
  obtain ⟨m, γ, t, g, hover, hlevel⟩ := exists_hovers hS.tabled hS.zero hf hspells hle
  exact hS.not_hovers hover hlevel

/-- `yyparse` comes to one result with enough rounds, and this is an end of the run. -/
lemma Settled.lrParse (hS : G.Settled F A T) :
    ∃ N r, (∀ n, N ≤ n → lrParse T env w n = some r) ∧ LrEnds T env w r := by
  by_cases hdepth : env.yymaxdepth = 0
  · exact ⟨0, .stray, fun n _ => if_pos hdepth, LrResult.noConfusion, fun _ => .inl hdepth⟩
  · obtain ⟨N, r, hrun⟩ := hS.stops (w := w) hdepth
    refine ⟨N, r, fun n hn => (if_neg hdepth).trans (run_mono hn hrun), ?_⟩
    obtain ⟨s, hreach, hstep⟩ := run_spec hrun
    obtain ⟨⟨γ, hγ⟩, hle⟩ := spells_of_reaches hS.tabled hS.zero hdepth hreach
    obtain ⟨hunder, hstray⟩ := lrStep_ends hS.tabled hγ hle hstep
    exact ⟨hunder, fun heq => .inr ⟨s, hreach, hstray heq⟩⟩

end Ends

/-- What `make_parse_tables` prints is settled when the FIRST sets are right and the conflicts do no
harm. -/
lemma settled_yyTables {G₀ : Grammar} (walk : G₀.Walk) (hpatch : G₀.Patches G) {fuel verbose : ℕ}
    {precedence : ℕ → PrecTab} {order : List ℕ} (hlr : G.lr (G.patchedFirst walk) fuel = some A)
    (hzero : ∀ p ∈ G.productions G.goalSymbol, p.num = 0)
    (horder : order.Perm (List.range A.nstates)) (hfront : G₀.FrontNullable)
    (hcircle : G.NoCircle A (G.yyTables A (A.reductions precedence verbose order)))
    (herasure : G.NoErasure A (G.yyTables A (A.reductions precedence verbose order))) :
    G.Settled (G.patchedFirst walk) A (G.yyTables A (A.reductions precedence verbose order)) where
  tabled := tabled_yyTables hlr
  completed _ hn _ _ hp := (built_of_lr hlr).chainNext_ne_yyF horder hn hp
  shift _ hn _ _ hterm htarget := (built_of_lr hlr).chainNext_ne_yyF_of_target hn hterm htarget
  first := firstCovers_patchedFirst walk hpatch
  firstExact := firstExact_patchedFirst walk hpatch hfront
  noActs := hpatch.noActs
  zero := hzero
  noCircle := hcircle
  noErasure := herasure

/-- The tables of a grammar without conflicts decide none for an erasure. -/
lemma NoConflict.noErasure (h : G.NoConflict F A T) : G.NoErasure A T := by
  have hcompleted : ∀ n < A.nstates, ∀ t : ℕ, ∀ p ∈ A.completed n t,
      p ∈ G.prods ∧ chainNext T.action n t = -(p.num : ℤ) := by
    intro n hn t p hp
    obtain ⟨o, ho, hdot, hlook, rfl⟩ := h.built.exists_occurs hn (mem_completed_iff.mp hp)
    exact ⟨h.built.mem_prods ho.inClosure, h.reduction hn ho hdot hlook⟩
  intro n hn t p hp _ hnext
  obtain ⟨hprod, -⟩ := hcompleted n hn t p hp
  refine ⟨fun q hq => ?_, fun hterm => ?_⟩
  · obtain ⟨hprod', hnext'⟩ := hcompleted n hn t q hq
    exact eq_of_entry_eq hprod' hprod hnext' hnext
  · by_contra hne
    have hdot : ∃ c, G.InClosure (A.cores n) c ∧ rightOfDot c = some t := by
      by_contra hno
      exact hne (h.built.lalr.no_transition n hn t hno)
    obtain ⟨n', -, hone, -⟩ := h.built.lalr.transition n hn t hdot
    have hpos := (h.built.next_ne_zero hn (hone ▸ List.mem_singleton_self _)).1
    have hshift := h.shift hterm hone
    omega

/-- `yyparse` comes to one result on every sequence of tokens when no right-hand side of the
specification starts with a nonterminal that derives the empty word without deriving it, the tables
do not replace symbols in a circle, and no conflict is decided for a production that derives the
empty word. -/
theorem lrParse_ends_yyTables {G₀ G : Grammar} (walk : G₀.Walk) (hpatch : G₀.Patches G)
    {fuel verbose : ℕ} {A : Automaton} {precedence : ℕ → PrecTab} {order : List ℕ}
    (hlr : G.lr (G.patchedFirst walk) fuel = some A)
    (hzero : ∀ p ∈ G.productions G.goalSymbol, p.num = 0)
    (horder : order.Perm (List.range A.nstates)) (hfront : G₀.FrontNullable)
    (hcircle : G.NoCircle A (G.yyTables A (A.reductions precedence verbose order)))
    (herasure : G.NoErasure A (G.yyTables A (A.reductions precedence verbose order))) (env : LrEnv)
    (w : List ℕ) :
    ∃ N r, (∀ n, N ≤ n → lrParse (G.yyTables A (A.reductions precedence verbose order)) env w n =
      some r) ∧ LrEnds (G.yyTables A (A.reductions precedence verbose order)) env w r :=
  (settled_yyTables walk hpatch hlr hzero horder hfront hcircle herasure).lrParse

/-- The driver for `leadingGrammar`, where a right-hand side starts with an action, comes to an end
on `X X`. -/
theorem lrParse_ends_leadingGrammar :
    ∃ N r, (∀ n, N ≤ n → lrParse leadingTables occsEnv [1, 1] n = some r) ∧
      LrEnds leadingTables occsEnv [1, 1] r := by
  have hlr :
      leadingPatch.lr (leadingPatch.patchedFirst leadingWalk) 20 = some leadingAutomaton := by
    have hsome :
      (leadingPatch.lr (leadingPatch.patchedFirst leadingWalk) 20).isSome := by decide +kernel
    obtain ⟨A, hA⟩ := Option.isSome_iff_exists.mp hsome
    rw [leadingAutomaton, hA, Option.getD_some]
  -- nothing derives the empty word
  have hfront : leadingGrammar.FrontNullable := by
    intro p hp B γ _ hB
    have hclosed : NullClosed (g := leadingGrammar.cfg) fun _ => False := by
      intro r hr hnull
      obtain ⟨q, hq, rfl⟩ := mem_rules.mp hr
      have hne : ∀ q ∈ leadingGrammar.prods, form q.rhs ≠ [] := by decide
      obtain ⟨sym, hsym⟩ := List.exists_mem_of_ne_nil _ (hne q hq)
      obtain ⟨-, -, hfalse⟩ := hnull sym hsym
      exact hfalse
    exact (ContextFree.Nullable.of_nullClosed hclosed hB).elim
  -- a symbol is replaced by one with a smaller number, unless it is a terminal
  have hcircle : leadingPatch.NoCircle leadingAutomaton leadingTables := by
    have hlt : ∀ x y, Relation.TransGen (leadingPatch.Renames leadingAutomaton leadingTables) x y →
        (if x < 256 then 0 else 1000 - x) < if y < 256 then 0 else 1000 - y := by
      have hone : ∀ x y, leadingPatch.Renames leadingAutomaton leadingTables x y →
          (if x < 256 then 0 else 1000 - x) < if y < 256 then 0 else 1000 - y := by
        rintro x y ⟨p, hp, rfl, ⟨α, hrhs, -⟩, -⟩
        have hall : ∀ p ∈ leadingPatch.prods, ∀ x ∈ p.rhs.head?,
            (if x < 256 then 0 else 1000 - x) < if p.lhs < 256 then 0 else 1000 - p.lhs := by decide
        exact hall p hp x (by rw [hrhs]; rfl)
      intro x y h
      induction h with
      | single h => exact hone _ _ h
      | tail _ h ih => exact ih.trans (hone _ _ h)
    exact fun x hx => Nat.lt_irrefl _ (hlt x x hx)
  have hconf :
      (leadingAutomaton.reductions noPrec 0 (List.range leadingAutomaton.nstates)).conflicts =
      0 := by
    decide +kernel
  exact lrParse_ends_yyTables leadingWalk patches_leadingGrammar hlr (by decide) (List.Perm.refl _)
    hfront hcircle (noConflict_yyTables hlr (fun _ => rfl) (List.Perm.refl _) hconf).noErasure
    occsEnv [1, 1]

/-! ## Runs without an end -/

section Loops

variable {env : LrEnv} {w : List ℕ} {s s₁ : YyState}

/-- A state without the record of what has happened so far. -/
def forget (s : YyState) : YyState := { s with trace := [] }

/-- The error recovery does not depend on what has happened so far. -/
lemma yyRecover_forget (tr : List LrEvent) (h : yyRecover T env { s with trace := [] } = .inl s₁) :
    ∃ s', yyRecover T env { s with trace := tr } = .inl s' ∧ forget s' = forget s₁ := by
  unfold yyRecover at h ⊢
  dsimp only at h ⊢
  generalize (if s.suppressErr = 0 then s.yynerrs + 1 else s.yynerrs) = yynerrs at h ⊢
  split at h
  · cases h
  · rename_i herrs
    rw [if_neg herrs]
    rcases hloop : yyRecoverLoop T s.stack s.lookahead s.rest with _ | ⟨stack, tok, rest⟩
    · rw [hloop] at h
      cases h
    · rw [hloop] at h
      dsimp only at h ⊢
      split at h
      · cases h
      · rename_i htok
        cases h
        exact ⟨_, if_neg htok, .refl _⟩

/-- A shift does not look at what has happened so far either. -/
lemma yyShift_forget (tr : List LrEvent) {newState : ℕ}
    (h : yyShift env newState { s with trace := [] } = .inl s₁) :
    ∃ s', yyShift env newState { s with trace := tr } = .inl s' ∧ forget s' = forget s₁ := by
  unfold yyShift at h ⊢
  split at h
  · cases h
  · rename_i hdepth
    cases h
    exact ⟨_, if_neg hdepth, .refl _⟩

/-- A reduction does not look at what has happened so far either. -/
lemma yyReduce_forget (tr : List LrEvent) {prodNum amount : ℕ}
    (h : yyReduce T env prodNum amount { s with trace := [] } = .inl s₁) :
    ∃ s', yyReduce T env prodNum amount { s with trace := tr } = .inl s' ∧
      forget s' = forget s₁ := by
  unfold yyReduce at h ⊢
  dsimp only at h ⊢
  split at h
  · cases h
  · rename_i hlen
    rw [if_neg hlen]
    rcases hdrop : s.stack.drop amount with _ | ⟨tos, stack⟩
    · rw [hdrop] at h
      cases h
    · rw [hdrop] at h
      dsimp only at h ⊢
      split at h
      · cases h
      · rename_i hdepth
        cases h
        exact ⟨_, if_neg hdepth, .refl _⟩

/-- What a round does to the stack and the input does not depend on what has happened so far, unless
the actions do. -/
lemma lrStep_forget (hact : ∀ tr k, env.yyAct tr k = 0) (h : lrStep T env (forget s) = .inl s₁) :
    ∃ s', lrStep T env s = .inl s' ∧ forget s' = forget s₁ := by
  have hnum : (forget s).actNum T = s.actNum T := .refl _
  have hstep : ∀ s : YyState, lrStep T env s = if s.stack = [] then .inr .stray
      else if s.actNum T = yyF then yyRecover T env { s with suppressErr := s.suppressErr - 1 }
      else if 0 < s.actNum T then
        yyShift env (s.actNum T).toNat { s with suppressErr := s.suppressErr - 1 }
      else if (-s.actNum T).toNat = 0 then
        .inr (.accept { s with suppressErr := s.suppressErr - 1 })
      else yyReduce T env (-s.actNum T).toNat (T.reduce (-s.actNum T).toNat)
        { s with suppressErr := s.suppressErr - 1 } := by
    intro s
    unfold lrStep
    dsimp only
    rw [hact]
    rfl
  rw [hstep] at h ⊢
  rw [hnum] at h
  change (if s.stack = [] then _ else _) = _ at h
  split at h
  · cases h
  · rename_i hne
    rw [if_neg hne]
    split at h
    · rename_i herr
      rw [if_pos herr]
      exact yyRecover_forget (s := { s with suppressErr := s.suppressErr - 1 }) s.trace h
    · rename_i herr
      rw [if_neg herr]
      split at h
      · rename_i hpos
        rw [if_pos hpos]
        exact yyShift_forget (s := { s with suppressErr := s.suppressErr - 1 }) s.trace h
      · rename_i hpos
        rw [if_neg hpos]
        split at h
        · cases h
        · rename_i hzero
          rw [if_neg hzero]
          exact yyReduce_forget (s := { s with suppressErr := s.suppressErr - 1 }) s.trace h

variable (T env) in
/-- Every state of the list is followed by one of the list. -/
def staysIn (l : List YyState) : Bool :=
  l.all fun c =>
    match lrStep T env c with
    | .inl s => decide (forget s ∈ l)
    | .inr _ => false

/-- A run that stays in a finite list of states has no end, with any number of rounds. -/
lemma lrParse_eq_none {l : List YyState} (hact : ∀ tr k, env.yyAct tr k = 0)
    (hdepth : env.yymaxdepth ≠ 0) (hstart : forget (lrInit w) ∈ l) (hl : staysIn T env l = true)
    (n : ℕ) : lrParse T env w n = none := by
  refine (if_neg hdepth).trans (run_eq_none (fun s => forget s ∈ l) (fun s hs => ?_) hstart n)
  have hc := List.all_eq_true.mp hl _ hs
  split at hc
  · rename_i s₁ hstep
    obtain ⟨s', hs', hforget⟩ := lrStep_forget hact hstep
    exact ⟨s', hs', hforget ▸ of_decide_eq_true hc⟩
  · cases hc

end Loops

/-- `s : b ; a : a ; a : Y ; b : a ;` with `Y = 1`, `s = 256`, `b = 257`, `a = 258`: behind `a` the
conflict is decided for `a : a`. -/
def circleGrammar : Grammar := SymbolTable.grammar
  { prods := [⟨0, 256, [257], 0⟩, ⟨1, 258, [258], 0⟩, ⟨2, 258, [1], 0⟩, ⟨3, 257, [258], 0⟩]
    currterm := 1
    currnonterm := 258
    curract := 511
    goalSymbol := 256 } (by decide)

/-- The symbol table of `circleGrammar`, walked by value. -/
def circleWalk : circleGrammar.Walk := circleGrammar.valueWalk

/-- The automaton that `lr` builds for `circleGrammar`. -/
def circleAutomaton : Automaton :=
  (circleGrammar.lr (circleGrammar.patchedFirst circleWalk) 10).getD .empty

/-- The tables that occs prints for `circleGrammar`. -/
def circleTables : YyTables := circleGrammar.yyTables circleAutomaton
  (circleAutomaton.reductions noPrec 0 (List.range circleAutomaton.nstates))

/-- `g : s ; s : X d T | X b U | Z b T | Z d V ; b : a c ; c : ; d : a e ; e : ; a : ;` with
`X = 1`, `T = 2`, `U = 3`, `Z = 4`, `V = 5` and the nonterminals from 256 on: behind `a` the
conflict is decided for `c`. -/
def erasureGrammar : Grammar := SymbolTable.grammar
  { prods := [⟨0, 256, [257], 0⟩, ⟨1, 257, [1, 258, 2], 0⟩, ⟨2, 257, [1, 259, 3], 0⟩,
      ⟨3, 257, [4, 259, 2], 0⟩,
      ⟨4, 257, [4, 258, 5], 0⟩, ⟨5, 259, [260, 261], 0⟩, ⟨6, 261, [], 0⟩, ⟨7, 258, [260, 262], 0⟩,
      ⟨8, 262, [], 0⟩, ⟨9, 260, [], 0⟩]
    currterm := 5
    currnonterm := 262
    curract := 511
    goalSymbol := 256 } (by decide)

/-- The symbol table of `erasureGrammar`, walked by value. -/
def erasureWalk : erasureGrammar.Walk := erasureGrammar.valueWalk

/-- The automaton that `lr` builds for `erasureGrammar`. -/
def erasureAutomaton : Automaton :=
  (erasureGrammar.lr (erasureGrammar.patchedFirst erasureWalk) 30).getD .empty

/-- The tables that occs prints for `erasureGrammar`. -/
def erasureTables : YyTables := erasureGrammar.yyTables erasureAutomaton
  (erasureAutomaton.reductions noPrec 0 (List.range erasureAutomaton.nstates))

/-- `g : p X ; p : b s ; b : ; s : a T ; a : ;` with `X = 1`, `T = 2` and the nonterminals from 256
on: `s` is marked as one that derives the empty word. -/
def markedGrammar : Grammar := SymbolTable.grammar
  { prods := [⟨0, 256, [257, 1], 0⟩, ⟨1, 257, [258, 259], 0⟩, ⟨2, 258, [], 0⟩,
      ⟨3, 259, [260, 2], 0⟩, ⟨4, 260, [], 0⟩]
    currterm := 2
    currnonterm := 260
    curract := 511
    goalSymbol := 256 } (by decide)

/-- The symbol table of `markedGrammar`, walked by value. -/
def markedWalk : markedGrammar.Walk := markedGrammar.valueWalk

/-- The automaton that `lr` builds for `markedGrammar`. -/
def markedAutomaton : Automaton :=
  (markedGrammar.lr (markedGrammar.patchedFirst markedWalk) 20).getD .empty

/-- The tables that occs prints for `markedGrammar`. -/
def markedTables : YyTables := markedGrammar.yyTables markedAutomaton
  (markedAutomaton.reductions noPrec 0 (List.range markedAutomaton.nstates))

/-- The tables of these grammars drive `yyparse` round for ever, for `circleGrammar` on `Y` and for
`erasureGrammar` on `X T`.  So do those of `markedGrammar` on `X`, which have no conflict. -/
theorem lrParse_eq_none_circleGrammar :
    (circleGrammar.lr (circleGrammar.patchedFirst circleWalk) 10 = some circleAutomaton ∧
      ∀ n, lrParse circleTables occsEnv [1] n = none) ∧
    (erasureGrammar.lr (erasureGrammar.patchedFirst erasureWalk) 30 = some erasureAutomaton ∧
      ∀ n, lrParse erasureTables occsEnv [1, 2] n = none) ∧
    (markedGrammar.lr (markedGrammar.patchedFirst markedWalk) 20 = some markedAutomaton ∧
      (markedAutomaton.reductions noPrec 0 (List.range markedAutomaton.nstates)).conflicts = 0 ∧
      ∀ n, lrParse markedTables occsEnv [1] n = none) := by
  have hget : ∀ o : Option Automaton, o.isSome = true → o = some (o.getD .empty) := by
    intro o ho
    obtain ⟨A, rfl⟩ := Option.isSome_iff_exists.mp ho
    exact .refl _
  refine ⟨⟨hget _ (by decide +kernel), ?_⟩, ⟨hget _ (by decide +kernel), ?_⟩,
    ⟨hget _ (by decide +kernel), by decide +kernel, ?_⟩⟩
  · exact lrParse_eq_none (l := (states (lrStep circleTables occsEnv) 4 (lrInit [1])).map forget)
      (fun _ _ => .refl _) (by decide) (by decide +kernel) (by decide +kernel)
  · exact lrParse_eq_none (l := (states (lrStep erasureTables occsEnv) 12 (lrInit [1, 2])).map
      forget) (fun _ _ => .refl _) (by decide) (by decide +kernel) (by decide +kernel)
  · exact lrParse_eq_none (l := (states (lrStep markedTables occsEnv) 12 (lrInit [1])).map forget)
      (fun _ _ => .refl _) (by decide) (by decide +kernel) (by decide +kernel)

end Grammar

end Parser
