import Cgkits.Parser.LrMachine
import Cgkits.Parser.LrParse
import Cgkits.Parser.Patched

/-!
# The values that actions refer to (`occs.m`, `yypatch.c`, `yydollar.c`)

`do_dollar` translates `$j` to a cell of the value stack, counted from the top, from the number of
symbols to the left of the action.  For this number `patch` gives the length of the right-hand side
if the action stands at its end, and the position of the action if it has become a nonterminal.

`recordStep` is a round of the driver that also records which symbols stand on the stack and which
values have been pushed for them, and `Recorded` says that the states and the values in memory are
those of the record.  A new nonterminal stands on one right-hand side only, so that the symbols to
the left of it are on top of the stack when its production is reduced: `attributes`.
-/

namespace Parser

open Machine

namespace YyMem

variable {V : Type} (T : YyTables) (env : YyEnv V)

/-- What is on the stack after a round, the top first: symbols with the values that have been pushed
when they were shifted or reduced. -/
def record (m m' : YyMem V) (pushed : List (ℕ × V)) : List (ℕ × V) :=
  if m.actNum T = yyF then pushed.drop (m'.yyStack.sp - m.yyStack.sp).toNat
  else if 0 < m.actNum T then (m.lookahead, env.yylval m.trace m.lookahead) :: pushed
  else (T.lhs (m.prodNum T) + minNonterm, (m.act T env (m.prodNum T)).2) :: pushed.drop
    (T.reduce (m.prodNum T))

/-- A round of the parser that records the symbol and the value that it pushes. -/
def recordStep (s : YyMem V × List (ℕ × V)) : (YyMem V × List (ℕ × V)) ⊕ YyEnd V :=
  match yyStep T env s.1 with
  | .inl m => .inl (m, record T env s.1 m s.2)
  | .inr r => .inr r

variable {T env}

/-- A round with a record is a round without it, and the record is made of what it pushes. -/
lemma recordStep_inl {m m' : YyMem V} {pushed pushed' : List (ℕ × V)}
    (h : recordStep T env (m, pushed) = .inl (m', pushed')) :
    yyStep T env m = .inl m' ∧ pushed' = record T env m m' pushed := by
  unfold recordStep at h
  split at h
  · cases h
    exact ⟨‹_›, rfl⟩
  · cases h

/-- Every state that is reached has a record of what has been pushed. -/
lemma exists_record {m m' : YyMem V} (h : Reaches (yyStep T env) m m') (pushed : List (ℕ × V)) :
    ∃ pushed', Reaches (recordStep T env) (m, pushed) (m', pushed') := by
  induction h with
  | refl => exact ⟨pushed, .refl _⟩
  | @tail m₁ m₂ _ hstep ih =>
    obtain ⟨pushed₁, hreach⟩ := ih
    refine ⟨record T env m₁ m₂ pushed₁, hreach.tail ?_⟩
    unfold recordStep
    rw [hstep]

end YyMem

namespace Grammar

open YyMem

variable {V : Type} {G : Grammar} {F : SetTable} {A : Automaton} {T : YyTables} {env : YyEnv V}

/-- The states below the top stand for the symbols below the top. -/
lemma Spells.drop {stack γ : List ℕ} (h : Spells A stack γ) {k : ℕ} (hk : k < stack.length) :
    Spells A (stack.drop k) (γ.drop k) := by
  induction h generalizing k with
  | start =>
    obtain rfl : k = 0 := Nat.lt_one_iff.mp hk
    exact .start
  | push hs htarget ih =>
    rcases k with _ | k
    · exact .push hs htarget
    · exact ih (Nat.lt_of_succ_lt_succ hk)

variable (A env) in
/-- The memory is as the record says: the states lead along its symbols, and its values are in the
cells. -/
structure Recorded (m : YyMem V) (pushed : List (ℕ × V)) : Prop where
  /-- The pointers of the two stacks go together. -/
  aligned : Aligned env m
  /-- The states spell the symbols that were pushed. -/
  spells : Spells A m.yyStack.toList (pushed.map Prod.fst)
  /-- The values are those that were pushed. -/
  values : ∀ (i : ℕ) x v, pushed[i]? = some (x, v) → m.yyVstack (m.yyVsp + i) = v

variable {m m' : YyMem V} {pushed pushed' : List (ℕ × V)}

/-- At the start nothing has been pushed, and the record is right. -/
lemma recorded_yyInit (hdepth : 0 < env.yymaxdepth) (g : Garbage V) (input : List ℕ) :
    Recorded A env (yyInit env g input) [] := by
  refine ⟨aligned_yyInit hdepth g input, ?_, fun i x v hi => absurd hi (by simp)⟩
  have hlist : (yyInit env g input).yyStack.toList = [0] := by
    refine (YyStack.toList_push_ le_rfl 0).trans (congrArg (List.cons 0) (YyStack.toList_eq_nil ?_))
    exact le_rfl (a := (env.yymaxdepth : ℤ))
  rw [hlist]
  exact .start

/-- The stack of states stands for the symbols that have been recorded, with its top in front. -/
lemma Recorded.spells_cons (h : Recorded A env m pushed) :
    Spells A (m.yyStack.item 0 :: m.yyStack.pop_.toList) (pushed.map Prod.fst) := by
  rw [← h.aligned.toList_eq_cons]
  exact h.spells

/-- A round that recovers cuts the stacks in the same place. -/
lemma Recorded.recover (h : Recorded A env m pushed) (herr : m.actNum T = yyF)
    (hstep : yyStep T env m = .inl m') : Recorded A env m' (record T env m m' pushed) := by
  obtain ⟨-, halign, k, hstack, hvstack⟩ := h.aligned.recover herr hstep
  have hsp : m'.yyStack.sp = m.yyStack.sp + k := by
    rw [hstack]
    rfl
  have hrecord : record T env m m' pushed = pushed.drop k := by
    unfold record
    rw [if_pos herr, hsp]
    congr 1
    omega
  rw [hrecord]
  have hlist : m'.yyStack.toList = m.yyStack.toList.drop k := by
    rw [hstack, YyStack.toList_popn_]
  refine ⟨halign, ?_, fun i x v hi => ?_⟩
  · have hne : m.yyStack.toList.drop k ≠ [] := by
      rw [← hlist, halign.toList_eq_cons]
      exact List.cons_ne_nil _ _
    rw [hlist, List.map_drop]
    exact h.spells.drop (Nat.lt_of_not_le fun hle => hne (List.drop_eq_nil_of_le hle))
  · rw [List.getElem?_drop] at hi
    rw [hvstack, halign.vsp, hsp, ← h.values _ x v hi, h.aligned.vsp]
    congr 1
    push_cast
    ring

/-- A round that shifts pushes a state and a value, and the record stays right. -/
lemma Recorded.shift (h : Recorded A env m pushed) (hT : G.Tabled F A T) (hne : m.actNum T ≠ yyF)
    (hpos : 0 < m.actNum T) (hstep : yyStep T env m = .inl m') :
    Recorded A env m' (record T env m m' pushed) := by
  have hrecord :
      record T env m m' pushed = (m.lookahead, env.yylval m.trace m.lookahead) :: pushed := by
    unfold record
    rw [if_neg hne, if_pos hpos]
  rw [hrecord]
  rcases h.aligned.shift hne hpos with ⟨-, hover⟩ | ⟨-, hshift, halign, -⟩
  · rw [hstep] at hover
    cases hover
  · rw [hstep] at hshift
    obtain rfl := Sum.inl.inj hshift
    refine ⟨halign, ?_, fun i x v hi => ?_⟩
    · have hlist : (m.shifted T env).yyStack.toList = (m.actNum T).toNat :: m.yyStack.toList :=
        YyStack.toList_push_ h.aligned.lt.le _
      have htop := h.spells_cons
      rw [hlist, h.aligned.toList_eq_cons]
      rcases hT.entries _ (htop.lt hT.built) m.lookahead with hnone | ⟨n', -, htarget, hnext⟩ |
        ⟨o, -, -, -, hnext⟩
      · exact absurd hnone hne
      · have hact : m.actNum T = n' := hnext
        rw [hact, Int.toNat_natCast]
        exact .push htop htarget
      · have hact : m.actNum T = -(o.core.1.num : ℤ) := hnext
        omega
    · change Function.update m.yyVstack (m.yyVsp - 1) (env.yylval m.trace m.lookahead)
        (m.yyVsp - 1 + i) = v
      rcases i with _ | i
      · obtain ⟨-, rfl⟩ := Prod.mk.inj (Option.some.inj hi)
        rw [Nat.cast_zero, add_zero, Function.update_self]
      · rw [List.getElem?_cons_succ] at hi
        rw [Function.update_of_ne (by omega), ← h.values i x v hi]
        congr 1
        push_cast
        ring

/-- A round that reduces does so by an item of the state whose right-hand side is on the stack. -/
lemma Recorded.exists_item (h : Recorded A env m pushed) (hT : G.Tabled F A T)
    (hne : m.actNum T ≠ yyF) (hpos : ¬ 0 < m.actNum T) :
    ∃ c, G.InClosure (A.cores (m.yyStack.item 0)) c ∧ rightOfDot c = none ∧
      m.prodNum T = c.1.num := by
  rcases hT.entries _ (h.spells_cons.lt hT.built) m.lookahead with hnone | ⟨n', -, htarget, hnext⟩ |
    ⟨o, ho, hdot, -, hnext⟩
  · exact absurd hnone hne
  · obtain ⟨hzero, -⟩ := hT.built.next_ne_zero (h.spells_cons.lt hT.built) htarget
    have hact : m.actNum T = n' := hnext
    omega
  · refine ⟨o.core, ho.inClosure, hdot, ?_⟩
    have hact : m.actNum T = -(o.core.1.num : ℤ) := hnext
    unfold prodNum
    rw [hact, neg_neg, Int.toNat_natCast]

/-- A round that reduces replaces the symbols of a right-hand side. -/
lemma Recorded.reduce (h : Recorded A env m pushed) (hT : G.Tabled F A T)
    (hzero : ∀ p ∈ G.productions G.goalSymbol, p.num = 0) (hne : m.actNum T ≠ yyF)
    (hpos : ¬ 0 < m.actNum T) (hstep : yyStep T env m = .inl m') :
    Recorded A env m' (record T env m m' pushed) := by
  obtain ⟨c, hc, hdot, hnum⟩ := h.exists_item hT hne hpos
  have hprod := hT.built.mem_prods hc
  have hrecord : record T env m m' pushed =
      (c.1.lhs, (m.act T env (m.prodNum T)).2) :: pushed.drop c.1.rhs.length := by
    have hnonterm := (G.lhs_mem c.1 hprod).1
    unfold record
    rw [if_neg hne, if_neg hpos, hnum, hT.reduce c.1 hprod, hT.lhs c.1 hprod]
    unfold adjVal
    rw [Nat.sub_add_cancel hnonterm]
  rw [hrecord]
  rcases h.aligned.reduce hne hpos with ⟨-, m₁, hend⟩ | ⟨-, -, m₁, hend⟩ | ⟨-, hnz, hred⟩
  · rw [hstep] at hend
    cases hend
  · rw [hstep] at hend
    cases hend
  · rcases hred with ⟨-, hend⟩ | ⟨-, -, hend⟩ | ⟨-, -, hreduce, halign⟩
    · rw [hstep] at hend
      cases hend
    · rw [hstep] at hend
      cases hend
    · rw [hstep] at hreduce
      obtain rfl := Sum.inl.inj hreduce
      obtain ⟨hle, n, stack', γ', hdrop, hspells, hclos, hγ⟩ := h.spells_cons.item hT.built hc
      have hlen : c.2 = c.1.rhs.length := le_antisymm hle (List.getElem?_eq_none_iff.mp hdot)
      rw [hlen, ← h.aligned.toList_eq_cons] at hdrop
      rw [hlen, List.take_length] at hγ
      rw [hnum] at hnz
      obtain ⟨n', htarget, hgoto⟩ := hspells.goto hT hzero hclos hprod hnz
      have hpop : (m.yyStack.popn_ c.1.rhs.length).toList = n :: stack' := by
        rw [YyStack.toList_popn_, hdrop]
      have hnotempty : ¬ (m.yyStack.popn_ c.1.rhs.length).Empty := by
        intro hempty
        rw [YyStack.toList_eq_nil hempty] at hpop
        cases hpop
      have htop : (m.yyStack.popn_ c.1.rhs.length).item 0 = n := by
        rw [YyStack.toList_eq_cons hnotempty] at hpop
        exact (List.cons.inj hpop).1
      refine ⟨halign, ?_, fun i x v hi => ?_⟩
      · have hlist : (m.reduced T env).yyStack.toList = n' :: n :: stack' := by
          unfold reduced
          dsimp only
          rw [hnum, hT.reduce c.1 hprod, htop, hgoto, Int.toNat_natCast]
          unfold YyStack.Empty at hnotempty
          rw [YyStack.toList_push_ (Int.not_le.mp hnotempty).le, hpop]
        have hmap : (pushed.drop c.1.rhs.length).map Prod.fst = γ' := by
          rw [List.map_drop, hγ, List.drop_left' List.length_reverse]
        rw [hlist, List.map_cons, hmap]
        exact .push hspells htarget
      · change Function.update m.yyVstack (m.yyVsp + T.reduce (m.prodNum T) - 1)
          (m.act T env (m.prodNum T)).2 (m.yyVsp + T.reduce (m.prodNum T) - 1 + i) = v
        rw [hnum, hT.reduce c.1 hprod]
        rcases i with _ | i
        · obtain ⟨-, rfl⟩ := Prod.mk.inj (Option.some.inj hi)
          rw [Nat.cast_zero, add_zero, Function.update_self, hnum]
        · rw [List.getElem?_cons_succ, List.getElem?_drop] at hi
          rw [Function.update_of_ne (by omega), ← h.values _ x v hi]
          congr 1
          push_cast
          ring

/-- A round of the driver keeps the record of the values right. -/
lemma Recorded.step (h : Recorded A env m pushed) (hT : G.Tabled F A T)
    (hzero : ∀ p ∈ G.productions G.goalSymbol, p.num = 0)
    (hstep : recordStep T env (m, pushed) = .inl (m', pushed')) : Recorded A env m' pushed' := by
  obtain ⟨hround, rfl⟩ := recordStep_inl hstep
  by_cases hne : m.actNum T = yyF
  · exact h.recover hne hround
  · by_cases hpos : 0 < m.actNum T
    · exact h.shift hT hne hpos hround
    · exact h.reduce hT hzero hne hpos hround

/-- The record is right in every state of a run. -/
lemma recorded_of_reaches (hT : G.Tabled F A T)
    (hzero : ∀ p ∈ G.productions G.goalSymbol, p.num = 0) (hdepth : 0 < env.yymaxdepth)
    {g : Garbage V} {input : List ℕ}
    (h : Reaches (recordStep T env) (yyInit env g input, []) (m, pushed)) :
    Recorded A env m pushed :=
  h.invariant (fun s => Recorded A env s.1 s.2) (fun _ _ hs hstep => hs.step hT hzero hstep)
    (recorded_yyInit hdepth g input)

end Grammar

/-! ## The symbols to the left of an action -/

namespace Grammar

open YyMem

variable {V : Type} {G : Grammar} {F : SetTable} {A : Automaton} {T : YyTables} {env : YyEnv V}
  {m : YyMem V} {pushed : List (ℕ × V)} {opt : PatchOpt} {name : ℕ → Lexeme} {live live' : List ℕ}
  {s s' : PatchTab} {p i a : ℕ}

/-- The first symbols of a right-hand side that `patch` has left. -/
lemma take_rhs (hp : s.Patched opt name live live' s') (hlt : p < s.brk)
    (hi : i ≤ (s'.prod p).rhsLen) :
    (s'.production p).rhs.take i = ((List.range i).filterMap (s.prod p).rhs).map fun a =>
      (s'.sym a).val := by
  unfold PatchTab.production
  dsimp only
  rw [← List.map_take, TabProd.take_symbols (hp.ok.rhs p (hlt.trans_le hp.brk_le)) hi]
  refine congrArg _ (List.filterMap_congr fun j hj => ?_)
  exact (hp.rhs_eq hlt ((List.mem_range.mp hj).trans_le hi)).2

/-- A new nonterminal stands on the right-hand side of its action only. -/
lemma cell_of_rightOfDot (hp : s.Patched opt name live live' s') (honce : s.ActsOnce) (hG : G.Of s')
    (hcell : s.ActCell p i a) (htrail : ¬ s.Trailing p i) {d : Core} (hd : d.1 ∈ G.prods)
    (hright : rightOfDot d = some (s'.sym a).val) :
    d.1 = s'.production p ∧ d.2 = i ∧ i < (s'.prod p).rhsLen := by
  obtain ⟨-, hnon, -, q, hge, hq, -, hlhs, -, -⟩ := hp.embedded p i a hcell htrail
  have ha : a ∈ live' := hlhs ▸ (hp.ok.lhs q hq).1
  obtain ⟨r, hr, hprod⟩ := (hG _).mp hd
  unfold rightOfDot at hright
  rw [← hprod] at hright
  obtain ⟨hlt, hget⟩ := List.getElem?_eq_some_iff.mp hright
  have hfilled : ∀ j < (s'.prod r).rhsLen, (s'.prod r).rhs j ≠ none :=
    fun j hj hnone => absurd ((hp.ok.rhs r hr).2 hnone) (Nat.not_le.mpr hj)
  have hlen : d.2 < (s'.prod r).rhsLen := by
    unfold PatchTab.production TabProd.symbols at hlt
    rw [List.length_map, length_filterMap_range hfilled] at hlt
    exact hlt
  obtain ⟨b, hb⟩ := TabProd.exists_rhs (hp.ok.rhs r hr) hlen
  have hval : (s'.sym b).val = (s'.sym a).val := by
    unfold PatchTab.production TabProd.symbols at hright
    rw [List.getElem?_map, getElem?_filterMap_range hfilled hlen, hb] at hright
    exact Option.some.inj hright
  have hb' := hp.ok.rhs_mem r hr d.2 hlen b hb
  obtain rfl : b = a := hp.ok.nonterm_inj b hb' a ha (hval ▸ hnon) hval
  have hold : r < s.brk := by
    refine Nat.lt_of_not_le fun hge => ?_
    rw [hp.new_empty r hge hr] at hlen
    exact absurd hlen (Nat.not_lt_zero _)
  obtain ⟨hlen₀, hrhs⟩ := hp.rhs_eq hold hlen
  rw [hrhs] at hb
  obtain ⟨rfl, rfl⟩ := honce _ _ _ _ _ ⟨hold, hlen₀, hb, hcell.isAct⟩ hcell
  exact ⟨hprod.symm, rfl, hlen⟩

/-- When the production of a case is reduced, the symbols to the left of its action are on top of
the stack. -/
lemma Recorded.left_of_action (h : Recorded A env m pushed) (hT : G.Tabled F A T)
    (hzero : ∀ p ∈ G.productions G.goalSymbol, p.num = 0) (hok : s.Ok name live)
    (honce : s.ActsOnce) (hp : s.Patched opt name live live' s') (hG : G.Of s')
    (hne : m.actNum T ≠ yyF) (hpos : ¬ 0 < m.actNum T) {c : Case} (hc : c ∈ s'.output)
    (hnum : m.prodNum T = c.caseVal) : ∃ γ, pushed.map Prod.fst =
      (((List.range c.rhsSize).filterMap (s.prod c.prod).rhs).map fun a =>
        (s'.sym a).val).reverse ++ γ := by
  obtain ⟨e, he, hdot, hnum'⟩ := h.exists_item hT hne hpos
  have hprod := hT.built.mem_prods he
  obtain ⟨q, hq, hprod'⟩ := (hG _).mp hprod
  have hqnum : (s'.prod q).num = c.caseVal := by
    rw [← hnum, hnum', ← hprod']
    rfl
  obtain ⟨a, hcell, hcase⟩ := hp.of_case c hc
  have hlt := hcell.lt_brk
  split at hcase
  · -- the action stood at the end of the right-hand side
    rename_i htrail
    have hcut := (hp.trailing _ _ a hcell htrail).1
    obtain rfl : q = c.prod := by
      refine hp.ok.num_inj hq (hlt.trans_le hp.brk_le) ?_
      rw [hqnum, hcase, hp.num_eq hlt]
    obtain ⟨hle, -, -, γ, -, -, -, hγ⟩ := h.spells_cons.item hT.built he
    have hlen : e.2 = e.1.rhs.length := le_antisymm hle (List.getElem?_eq_none_iff.mp hdot)
    have hrhsLen : (s'.prod c.prod).rhsLen = c.rhsSize := by
      rw [hcut]
      change (s.prod c.prod).rhsLen - 1 = _
      rw [← htrail, Nat.add_sub_cancel]
    have hall := take_rhs hp hlt hrhsLen.ge
    rw [hprod', List.take_of_length_le] at hall
    · refine ⟨γ, ?_⟩
      rw [hγ, hlen, List.take_length, hall]
    · rw [← hprod', ← hrhsLen]
      unfold PatchTab.production
      dsimp only
      rw [List.length_map]
      unfold TabProd.symbols
      refine (List.length_filterMap_le _ _).trans_eq List.length_range
  · -- the action has become a nonterminal
    rename_i htrail
    obtain ⟨q', hproductions, hq'num⟩ := hcase
    obtain ⟨-, hnon, -, q'', hge, hq'', hproductions', hlhs, hempty, -⟩ :=
      hp.embedded _ _ a hcell htrail
    obtain rfl : q' = q'' := by
      rw [hproductions] at hproductions'
      exact (List.cons.inj hproductions').1
    obtain rfl : q = q' := hp.ok.num_inj hq hq'' (hqnum.trans hq'num.symm)
    have helhs : e.1.lhs = (s'.sym a).val := by
      rw [← hprod', ← hlhs]
      rfl
    have hdot₀ : e.2 = 0 := by
      obtain ⟨hle, -⟩ := h.spells_cons.item hT.built he
      rw [← hprod'] at hle
      unfold PatchTab.production TabProd.symbols at hle
      rw [hempty] at hle
      exact Nat.le_zero.mp hle
    obtain ⟨d, hd, hright⟩ : ∃ d, G.InClosure (A.cores (m.yyStack.item 0)) d ∧
        rightOfDot d = some (s'.sym a).val := by
      generalize he' : e = e' at he
      cases he with
      | kern hmem =>
        obtain ⟨p, i⟩ := e
        obtain rfl : i = 0 := hdot₀
        rw [← he'] at hmem
        have hnum₀ := hzero p (h.spells_cons.start_of_mem_cores hT.built hmem)
        rw [show p = s'.production q from hprod'.symm] at hnum₀
        exact absurd hnum₀ (hp.num_ne_zero hok (Nat.zero_lt_of_lt hlt) hge hq)
      | clos hd hx _ hmem =>
        rw [he'] at helhs
        rw [← helhs, (mem_productions.mp hmem).2]
        exact ⟨_, hd, hx⟩
    obtain ⟨hd₁, hd₂, hlen⟩ :=
      cell_of_rightOfDot hp honce hG hcell htrail (hT.built.mem_prods hd) hright
    obtain ⟨-, -, -, γ, -, -, -, hγ⟩ := h.spells_cons.item hT.built hd
    refine ⟨γ, ?_⟩
    rw [hγ, hd₁, hd₂, take_rhs hp hlt hlen.le]

/-- In every state of a run the two stacks have the same height, and when `yy_act` is called for an
action, the cell that `do_dollar` prints for `$j` holds the value that has been pushed for the
symbol number `j` of its right-hand side. -/
theorem attributes (opt : PatchOpt) (hok : s.Ok name live) (honce : s.ActsOnce) {fuel : ℕ}
    (hfuel : live.length ≤ fuel) (hpatch : patch opt fuel s = .ok s') (hG : G.Of s')
    (hzero : ∀ p ∈ G.productions G.goalSymbol, p.num = 0) {rounds verbose : ℕ}
    {precedence : ℕ → PrecTab} {order : List ℕ} (hlr : G.lr F rounds = some A)
    (hT : T = G.yyTables A (A.reductions precedence verbose order)) (hdepth : 0 < env.yymaxdepth)
    (g : Garbage V) (input : List ℕ)
    (hreach : Reaches (recordStep T env) (yyInit env g input, []) (m, pushed)) :
    m.yyStack.ele = env.yymaxdepth - m.yyVsp ∧ ∀ c ∈ s'.output, m.actNum T ≠ yyF → m.actNum T ≤ 0 →
    m.prodNum T = c.caseVal →
      (∃ b, s.ActCell c.prod c.rhsSize b) ∧ ∀ j, 1 ≤ j → j ≤ c.rhsSize →
      ∃ a v, (s.prod c.prod).rhs (j - 1) = some a ∧
        pushed[c.rhsSize - j]? = some ((s'.sym a).val, v) ∧
        m.yyVstack (m.yyVsp + (c.rhsSize - j : ℕ)) = v ∧ ∀ (denv : DollarEnv) (lineno : ℕ)
        (fname buf : Lexeme), ∃ field,
          (doDollar denv j c.rhsSize lineno fname buf).1 = yyvspText (c.rhsSize - j) ++ field := by
  have hTabled : G.Tabled F A T := hT ▸ tabled_yyTables hlr
  have hrec := recorded_of_reaches hTabled hzero hdepth hreach
  obtain ⟨live', hp⟩ : ∃ live', s.Patched opt name live live' s' := by
    rcases Patching.patch_outcome hok honce opt hfuel with ⟨s₁, hrun, vs, es, h, hvs, hmem, hall⟩ |
      ⟨hrun, -⟩
    · obtain rfl : s₁ = s' := Except.ok.inj (hrun.symm.trans hpatch)
      exact ⟨_, h.patched hok honce hvs hmem hall⟩
    · rw [hrun] at hpatch
      cases hpatch
  refine ⟨?_, fun c hc hne hpos hnum => ⟨?_, fun j hj hjk => ?_⟩⟩
  · unfold YyStack.ele
    rw [hrec.aligned.size, hrec.aligned.vsp]
  · obtain ⟨b, hcell, -⟩ := hp.of_case c hc
    exact ⟨b, hcell⟩
  · obtain ⟨γ, hγ⟩ :=
      hrec.left_of_action hTabled hzero hok honce hp hG hne (not_lt.mpr hpos) hc hnum
    obtain ⟨b, hcell, -⟩ := hp.of_case c hc
    have hle := hcell.lt_rhsLen
    have hfilled : ∀ i < c.rhsSize, (s.prod c.prod).rhs i ≠ none :=
      fun i hi hnone => absurd ((hok.rhs _ hcell.lt_brk).2 hnone) (Nat.not_le.mpr (hi.trans hle))
    obtain ⟨a, ha⟩ := Option.ne_none_iff_exists'.mp (hfilled (j - 1) (by omega))
    have hlen :
        (((List.range c.rhsSize).filterMap (s.prod c.prod).rhs).map fun a =>
          (s'.sym a).val).length = c.rhsSize := by
      rw [List.length_map, length_filterMap_range hfilled]
    have htop : (pushed.map Prod.fst)[c.rhsSize - j]? = some (s'.sym a).val := by
      rw [hγ, List.getElem?_append_left (by rw [List.length_reverse, hlen]; omega),
        List.getElem?_reverse (by rw [hlen]; omega), hlen, show c.rhsSize - 1 - (c.rhsSize - j) =
        j - 1 by omega, List.getElem?_map, getElem?_filterMap_range hfilled (by omega), ha]
      rfl
    rw [List.getElem?_map] at htop
    obtain ⟨⟨x, v⟩, hpushed, hx⟩ := Option.map_eq_some_iff.mp htop
    obtain rfl : x = (s'.sym a).val := hx
    refine ⟨a, v, ha, hpushed, hrec.values _ _ _ hpushed, fun denv lineno fname buf => ?_⟩
    exact doDollar_yyvsp denv lineno fname buf hj hjk (hle.le.trans (hok.rhsLen_le _ hcell.lt_brk))

/-! ## A run with two actions -/

/-- What `patch` makes of `actionTab`, with one production more. -/
def actionPatched : PatchTab := (patch ⟨true, false⟩ 4 actionTab).toOption.getD actionTab

/-- Its grammar, `s : x t ; x : ;` with `t = 1`, `s = 256`, `x = 257`. -/
def embeddedGrammar : Grammar := SymbolTable.grammar
  { prods := [⟨0, 256, [257, 1], 0⟩, ⟨1, 257, [], 0⟩]
    currterm := 1
    currnonterm := 257
    curract := 513
    goalSymbol := 256 } (by decide)

/-- The symbol table of `embeddedGrammar`, walked by value. -/
def embeddedWalk : embeddedGrammar.Walk := embeddedGrammar.valueWalk

/-- The automaton of `embeddedGrammar`, for the sets that `first` computes. -/
def embeddedAutomaton : Automaton := (embeddedGrammar.lr (firstSets embeddedWalk) 10).getD .empty

/-- The tables that are printed for `embeddedGrammar`. -/
def embeddedTables : YyTables := embeddedGrammar.yyTables embeddedAutomaton
  (embeddedAutomaton.reductions (fun _ => ⟨0, 'n'⟩) 0 (List.range embeddedAutomaton.nstates))

/-- Every token has the value 7, and every action gives 5. -/
def embeddedEnv : YyEnv ℕ := ⟨8, 25, 5, fun _ _ => 7, fun _ _ _ _ => (0, 5)⟩

/-- What is in the arrays at the start, before anything has been written to them. -/
def embeddedGarbage : Garbage ℕ := ⟨fun _ => 0, fun _ => 0, 0⟩

/-- The grammar is that of the table behind `patch`. -/
lemma of_actionPatched : embeddedGrammar.Of actionPatched := by
  have hbrk : actionPatched.brk = 2 := by decide +kernel
  have hprods :
    (List.range 2).map actionPatched.production = embeddedGrammar.prods := by decide +kernel
  intro p
  rw [← hprods, hbrk, List.mem_map]
  simp only [List.mem_range]

/-- When the input `t` has been read, the production of `s` is reduced, and its action has two
symbols to its left: the cell for `$1` holds the value of the first action, and the cell for `$2`
holds the value of the token. -/
theorem attributes_actionTab : ∃ m pushed,
    Reaches (recordStep embeddedTables embeddedEnv) (yyInit embeddedEnv embeddedGarbage [1], [])
    (m, pushed) ∧ pushed = [(1, 7), (257, 5)] ∧ m.prodNum embeddedTables = 0 ∧
    m.yyStack.ele = 8 - m.yyVsp ∧ ∀ j, 1 ≤ j → j ≤ 2 →
    ∃ a v, (actionTab.prod 0).rhs (j - 1) = some a ∧
      pushed[2 - j]? = some ((actionPatched.sym a).val, v) ∧
      m.yyVstack (m.yyVsp + (2 - j : ℕ)) = v ∧ ∀ (denv : DollarEnv) (lineno : ℕ)
      (fname buf : Lexeme), ∃ field,
        (doDollar denv j 2 lineno fname buf).1 = yyvspText (2 - j) ++ field := by
  -- the third state of the run
  have hstates :
      (states (recordStep embeddedTables embeddedEnv) 3 (yyInit embeddedEnv embeddedGarbage [1],
      [])).map (fun s => (s.1.actNum embeddedTables, s.2)) =
      [(-1, []), (2, [(257, 5)]), (0, [(1, 7), (257, 5)])] := by
    decide +kernel
  obtain ⟨⟨m, pushed⟩, hmem, hs⟩ := List.mem_map.mp
    (hstates ▸
    (by
      decide :
        ((0 : ℤ), [(1, 7), (257, 5)]) ∈ [(-1, []), (2, [(257, 5)]), (0, [(1, 7), (257, 5)])]))
  obtain ⟨hact, rfl⟩ := Prod.mk.inj hs
  have hact : m.actNum embeddedTables = 0 := hact
  have hreach := reaches_of_mem_states hmem
  -- the automaton and the table
  have hsome : (embeddedGrammar.lr (firstSets embeddedWalk) 10).isSome := by decide +kernel
  obtain ⟨A, hA⟩ := Option.isSome_iff_exists.mp hsome
  have hautomaton : embeddedAutomaton = A := by
    rw [embeddedAutomaton, hA, Option.getD_some]
  have hpatch : patch ⟨true, false⟩ 4 actionTab = .ok actionPatched := by
    have hisOk : (patch ⟨true, false⟩ 4 actionTab).toBool = true := by decide +kernel
    unfold actionPatched
    generalize patch ⟨true, false⟩ 4 actionTab = r at hisOk ⊢
    rcases r with e | s
    · cases hisOk
    · rfl
  have hcases : actionPatched.output.map (fun c => (c.caseVal, c.rhsSize, c.prod)) =
      [(0, 2, 0), (1, 0, 0)] := by
    decide +kernel
  obtain ⟨c, hc, hargs⟩ := List.mem_map.mp (hcases ▸ List.mem_cons_self)
  obtain ⟨hval, hargs⟩ := Prod.mk.inj hargs
  obtain ⟨hsize, hprod⟩ := Prod.mk.inj hargs
  have hnum : m.prodNum embeddedTables = 0 := by
    unfold prodNum
    rw [hact]
    rfl
  obtain ⟨hele, hall⟩ := attributes ⟨true, false⟩ ok_actionTab actsOnce_actionTab
    (show [3, 2, 1, 0].length ≤ 4 by decide) hpatch of_actionPatched (by decide) (hautomaton ▸ hA)
    (show embeddedTables = _ from rfl) (show 0 < embeddedEnv.yymaxdepth by decide) embeddedGarbage
    [1] hreach
  have hc' := (hall c hc (by rw [hact]; decide) hact.le (hnum.trans hval.symm)).2
  rw [hsize, hprod] at hc'
  exact ⟨m, _, hreach, rfl, hnum, hele, hc'⟩

end Grammar

end Parser
