import Cgkits.Lib.Endless
import Cgkits.Parser.LrClimb
import Cgkits.Parser.LrRecovery

/-!
# Runs of the LALR(1) driver without an end

A run without an end would at some point read nothing any more, since the recovery from an error
puts no token back. Then its rounds reduce productions and pop states (`Round`), the stack hovers
above a level, and it comes back to this level again and again (`Hovers`).

What lies above the level derives the empty word, so the symbol at the level is replaced only by a
symbol that derives it (`Renames`).  When the tables do not do this in a circle, the level does not
change any more from some point on (`Hovers.exists_above`).
-/

namespace Parser

open ContextFree Machine

/-- How much there is to be read: twice the tokens behind the lookahead, and the lookahead. -/
def YyState.ahead (s : YyState) : ℕ := 2 * s.rest.length + if s.lookahead = eoi then 0 else 1

/-- The lookahead counts for less than a token behind it. -/
lemma YyState.ahead_bounds (s : YyState) : 2 * s.rest.length ≤ s.ahead ∧
    s.ahead ≤ 2 * s.rest.length + 1 := by
  unfold YyState.ahead
  split
  · omega
  · omega

namespace Grammar

variable {G : Grammar} {F : SetTable} {A : Automaton} {T : YyTables}

/-! ## A round that reads nothing -/

section Rounds

variable {env : LrEnv} {s s' : YyState} {γ γ' : List ℕ}

variable (G A T) in
/-- What a round does to the symbols on the stack when it reads nothing: it reduces a production, or
pops some of them. -/
def Round (s : YyState) (γ γ' : List ℕ) : Prop :=
  (∃ p ∈ G.prods, ∃ γ₁, p.num ≠ 0 ∧ s.actNum T = -(p.num : ℤ) ∧ γ = p.rhs.reverse ++ γ₁ ∧
    γ' = p.lhs :: γ₁ ∧ ∃ n < A.nstates, chainNext T.action n s.lookahead = -(p.num : ℤ)) ∨
  (s.actNum T = yyF ∧ ∃ π, π ≠ [] ∧ γ = π ++ γ')

/-- A stack is one longer than the sequence of its symbols. -/
lemma Spells.length_eq {stack : List ℕ} (h : Spells A stack γ) : stack.length = γ.length + 1 := by
  induction h with
  | start => rfl
  | push _ _ ih => rw [List.length_cons, ih, List.length_cons]

/-- When states are popped from a stack, so are the symbols that they stand for. -/
lemma Spells.of_append {popped : List ℕ} {n : ℕ} {stack : List ℕ}
    (h : Spells A (popped ++ n :: stack) γ) : ∃ π γ', γ = π ++ γ' ∧ π.length = popped.length ∧
    Spells A (n :: stack) γ' := by
  induction popped generalizing γ with
  | nil => exact ⟨[], γ, rfl, rfl, h⟩
  | cons m popped ih =>
    obtain ⟨m', rest, hrest⟩ :=
      List.exists_cons_of_ne_nil
        (List.append_ne_nil_of_right_ne_nil popped (List.cons_ne_nil n stack))
    rw [List.cons_append, hrest] at h
    generalize hst : m :: m' :: rest = st at h
    rcases h with _ | ⟨hs, htarget⟩
    · cases hst
    · obtain ⟨-, htail⟩ := List.cons.inj hst
      obtain ⟨π, γ', hγ, hlen, hs'⟩ := ih (hrest ▸ htail ▸ hs)
      exact ⟨_ :: π,
        γ', by rw [hγ, List.cons_append], by rw [List.length_cons, List.length_cons, hlen], hs'⟩

/-- A shift of a token makes less to be read. -/
lemma ahead_lt_of_yyShift {n : ℕ} (hne : s.lookahead ≠ eoi) (h : yyShift env n s = .inl s') :
    s'.ahead < s.ahead := by
  have hahead : s.ahead = 2 * s.rest.length + 1 := by
    unfold YyState.ahead
    rw [if_neg hne]
  obtain ⟨-, hs'⟩ := yyShift_inl h
  have hrest : s'.rest = (yyNextToken s.rest).2 := by rw [hs']
  have hla : s'.lookahead = (yyNextToken s.rest).1 := by rw [hs']
  obtain ⟨-, hle⟩ := s'.ahead_bounds
  rcases hr : s.rest with _ | ⟨t, rest⟩
  · rw [hr] at hrest hla hahead
    have hzero : s'.ahead = 0 := by
      unfold YyState.ahead
      rw [hrest, hla]
      rfl
    omega
  · rw [hr] at hrest hahead
    rw [hrest] at hle
    rw [List.length_cons] at hahead
    dsimp only [yyNextToken] at hle
    omega

/-- A round that reduces a completed item replaces its right-hand side on the stack. -/
lemma lrStep_reduce_inl (hT : G.Tabled F A T) (hzero : ∀ p ∈ G.productions G.goalSymbol, p.num = 0)
    {n : ℕ} {stack : List ℕ} (hstack : s.stack = n :: stack) (hs : Spells A (n :: stack) γ)
    {c : Core} (hc : G.InClosure (A.cores n) c) (hdot : rightOfDot c = none)
    (hnext : chainNext T.action n s.lookahead = -(c.1.num : ℤ)) (h : lrStep T env s = .inl s') :
    ∃ γ', Spells A s'.stack γ' ∧ s'.lookahead = s.lookahead ∧ s'.rest = s.rest ∧
      G.Round A T s γ γ' := by
  obtain ⟨m, stack', γ₁, hdrop, hspells, hclos, hγ⟩ := hs.completed hT.built hc hdot
  have hprod := hT.built.mem_prods hc
  have hact : s.actNum T = -(c.1.num : ℤ) := (actNum_eq hstack).trans hnext
  have hF : yyF = 32767 := rfl
  rcases lrStep_inl h with ⟨herr, -⟩ | ⟨hpos, -⟩ | ⟨hneg, hreduce⟩
  · omega
  · omega
  · have hnum : c.1.num ≠ 0 := by omega
    have hnat : (-s.actNum T).toNat = c.1.num := by omega
    rw [hnat, hT.reduce c.1 hprod] at hreduce
    obtain ⟨tos, rest, hdrop', -, rfl⟩ := yyReduce_inl hreduce
    change s.stack.drop c.1.rhs.length = tos :: rest at hdrop'
    rw [hstack, hdrop] at hdrop'
    obtain ⟨rfl, rfl⟩ := List.cons.inj hdrop'
    obtain ⟨n', htarget, hgoto⟩ := hspells.goto hT hzero hclos hprod hnum
    refine ⟨c.1.lhs :: γ₁, ?_, rfl, rfl, .inl ⟨c.1, hprod, γ₁, hnum, hact, hγ, rfl, n,
      hs.lt hT.built, hnext⟩⟩
    dsimp only
    rw [hgoto, Int.toNat_natCast]
    exact .push hspells htarget

/-- A round that shifts puts the token on the stack and makes less to be read. -/
lemma lrStep_shift_inl (hB : G.Built F A) {n : ℕ} {stack : List ℕ} (hstack : s.stack = n :: stack)
    (hs : Spells A (n :: stack) γ) (hterm : IsTerm s.lookahead) {n' : ℕ}
    (htarget : (n' : ℤ) ∈ A.targets n s.lookahead) (hnext : chainNext T.action n s.lookahead = n')
    (h : lrStep T env s = .inl s') : ∃ γ', Spells A s'.stack γ' ∧ s'.ahead < s.ahead := by
  have hact : s.actNum T = n' := (actNum_eq hstack).trans hnext
  have hn' := (hB.next_ne_zero (hs.lt hB) htarget).2.1
  rcases lrStep_inl h with ⟨herr, -⟩ | ⟨-, hshift⟩ | ⟨hneg, -⟩
  · exact absurd (hact.symm.trans herr) (hB.ne_yyF hn')
  · have hne : s.lookahead ≠ eoi := by
      have hpos := hterm.1
      have heoi : eoi = 0 := rfl
      have hmin : minTerm = 1 := rfl
      omega
    have hlt := ahead_lt_of_yyShift (s := { s with suppressErr := s.suppressErr - 1 }) hne hshift
    obtain ⟨-, rfl⟩ := yyShift_inl hshift
    refine ⟨s.lookahead :: γ, ?_, hlt⟩
    dsimp only
    rw [hact, Int.toNat_natCast, hstack]
    exact .push hs htarget
  · omega

/-- A round that recovers from an error: states are popped, and tokens may be discarded. -/
lemma lrStep_recover_inl (hs : Spells A s.stack γ) (hact : s.actNum T = yyF)
    (h : lrStep T env s = .inl s') : ∃ γ', Spells A s'.stack γ' ∧
      (s'.ahead < s.ahead ∨ (s'.lookahead = s.lookahead ∧ s'.rest = s.rest ∧
      G.Round A T s γ γ')) := by
  have hrec : yyRecover T env { s with suppressErr := s.suppressErr - 1 } = .inl s' := by
    unfold lrStep at h
    dsimp only at h
    rw [if_neg hs.ne_nil, if_pos hact] at h
    exact h
  obtain ⟨stack', tok, rest, yynerrs, hloop, -, rfl⟩ := yyRecover_inl hrec
  dsimp only at hloop ⊢
  obtain ⟨dropped, hprefix, -, hrest, hpop, hqual⟩ := yyRecoverLoop_some hloop
  obtain ⟨popped, st, stack'', hsplit, hpop', -, hst⟩ := exists_popped hqual
  rw [hpop'] at hpop
  obtain ⟨π, γ', hγ, hlen, hspells⟩ := Spells.of_append (hsplit ▸ hs)
  refine ⟨γ', hpop ▸ hspells, ?_⟩
  rcases dropped with _ | ⟨d, dropped⟩
  · -- the same token is tried again, so a state has been popped
    right
    obtain ⟨rfl, -⟩ := List.cons_prefix_cons.mp hprefix
    refine ⟨rfl, hrest, .inr ⟨hact, π, ?_, hγ⟩⟩
    rintro rfl
    obtain rfl := List.length_eq_zero_iff.mp hlen.symm
    exact hst ((actNum_eq hsplit).symm.trans hact)
  · left
    have hlong := hprefix.length_le
    have htake := (List.takeWhile_prefix (fun t => decide (t ≠ 0)) (l := s.rest)).length_le
    rw [List.cons_append, List.length_cons, List.length_cons, List.length_append,
      List.length_singleton] at hlong
    have hrestlen := congrArg List.length hrest
    rw [List.length_drop, List.length_cons] at hrestlen
    refine Nat.lt_of_le_of_lt (YyState.ahead_bounds _).2 (Nat.lt_of_lt_of_le ?_ s.ahead_bounds.1)
    dsimp only at hrestlen ⊢
    omega

/-- What a round does: it reads something, or it does not change what is to be read. -/
lemma lrStep_round (hT : G.Tabled F A T) (hzero : ∀ p ∈ G.productions G.goalSymbol, p.num = 0)
    (hs : Spells A s.stack γ) (h : lrStep T env s = .inl s') :
    ∃ γ', Spells A s'.stack γ' ∧
      (s'.ahead < s.ahead ∨ (s'.lookahead = s.lookahead ∧ s'.rest = s.rest ∧
      G.Round A T s γ γ')) := by
  obtain ⟨n, stack, hstack⟩ := List.exists_cons_of_ne_nil hs.ne_nil
  have hs' := hs
  rw [hstack] at hs'
  rcases hT.entries n (hs'.lt hT.built) s.lookahead with hnone | ⟨n', hterm, htarget, hnext⟩ |
    ⟨o, ho, hdot, -, hnext⟩
  · exact lrStep_recover_inl hs ((actNum_eq hstack).trans hnone) h
  · obtain ⟨γ', hspells, hlt⟩ := lrStep_shift_inl hT.built hstack hs' hterm htarget hnext h
    exact ⟨γ', hspells, .inl hlt⟩
  · obtain ⟨γ', hspells, hlook, hrest, hround⟩ :=
      lrStep_reduce_inl hT hzero hstack hs' ho.inClosure hdot hnext h
    exact ⟨γ', hspells, .inr ⟨hlook, hrest, hround⟩⟩

/-- The stack does not get longer than its array in a round. -/
lemma length_stack_le (hle : s.stack.length ≤ env.yymaxdepth) (h : lrStep T env s = .inl s') :
    s'.stack.length ≤ env.yymaxdepth := by
  rcases lrStep_inl h with ⟨-, h⟩ | ⟨-, h⟩ | ⟨-, h⟩
  · obtain ⟨stack, tok, rest, _, hloop, -, rfl⟩ := yyRecover_inl h
    obtain ⟨-, -, -, -, hpop, -⟩ := yyRecoverLoop_some hloop
    dsimp only at hpop ⊢
    rw [hpop]
    exact (List.dropWhile_suffix _).length_le.trans hle
  · obtain ⟨hlt, rfl⟩ := yyShift_inl h
    exact hlt
  · obtain ⟨tos, rest, -, hlt, rfl⟩ := yyReduce_inl h
    exact hlt

end Rounds

/-! ## Symbols that are replaced -/

variable (G A T) in
/-- The tables have a reduction that replaces `x` by `y`: the right-hand side is `x` and symbols
that derive the empty word. -/
def Renames (x y : ℕ) : Prop :=
  ∃ p ∈ G.prods, p.lhs = y ∧ (∃ α, p.rhs = x :: α ∧ G.Erasable α) ∧
    ∃ n < A.nstates, ∃ t : ℕ, chainNext T.action n t = -(p.num : ℤ)

variable (G A T) in
/-- No symbol is replaced by itself in the end when symbols are renamed one after another. -/
def NoCircle : Prop := ∀ x, ¬ Relation.TransGen (G.Renames A T) x x

/-! ## A run that hovers above a level -/

section Hovers

variable {env : LrEnv} {f : ℕ → YyState} {γ : ℕ → List ℕ} {t g : ℕ}

variable (G A T) in
/-- A run that reads nothing, whose stack never has fewer than `g` symbols, and which comes back to
`g` symbols again and again. -/
structure Hovers (env : LrEnv) (f : ℕ → YyState) (γ : ℕ → List ℕ) (t g : ℕ) : Prop where
  /-- Every round goes on with the next state. -/
  step : ∀ n, lrStep T env (f n) = .inl (f (n + 1))
  /-- The symbols on the stack. -/
  spells : ∀ n, Spells A (f n).stack (γ n)
  /-- The lookahead stays the same in all states. -/
  lookahead : ∀ n, (f n).lookahead = t
  /-- Every round reduces a production or pops some symbols. -/
  round : ∀ n, G.Round A T (f n) (γ n) (γ (n + 1))
  /-- The stack is not below the level. -/
  level : ∀ n, g ≤ (γ n).length
  /-- The run comes back to the level again and again. -/
  back : ∀ m, ∃ n, m ≤ n ∧ (γ n).length = g

/-- A run without an end hovers above some level from some round on. -/
lemma exists_hovers (hT : G.Tabled F A T) (hzero : ∀ p ∈ G.productions G.goalSymbol, p.num = 0)
    (hf : ∀ n, lrStep T env (f n) = .inl (f (n + 1))) (hstart : ∃ γ, Spells A (f 0).stack γ)
    (hdepth : (f 0).stack.length ≤ env.yymaxdepth) :
    ∃ m γ t g, G.Hovers A T env (fun n => f (m + n)) γ t g ∧ (γ 0).length = g := by
  have hspells : ∀ n, ∃ γ, Spells A (f n).stack γ := by
    intro n
    induction n with
    | zero => exact hstart
    | succ n ih =>
      obtain ⟨γ, hγ⟩ := ih
      obtain ⟨γ', hγ', -⟩ := lrStep_round hT hzero hγ (hf n)
      exact ⟨γ', hγ'⟩
  choose γ hγ using hspells
  have hround : ∀ n, (f (n + 1)).ahead < (f n).ahead ∨ ((f (n + 1)).lookahead = (f n).lookahead ∧
      (f (n + 1)).rest = (f n).rest ∧ G.Round A T (f n) (γ n) (γ (n + 1))) := by
    intro n
    obtain ⟨γ', hγ', hround⟩ := lrStep_round hT hzero (hγ n) (hf n)
    rw [hγ'.unique hT.built (hγ (n + 1))] at hround
    exact hround
  -- nothing is read from some point on
  have hahead : ∀ n, (f (n + 1)).ahead ≤ (f n).ahead := by
    intro n
    rcases hround n with hlt | ⟨hla, hrest, -⟩
    · exact hlt.le
    · unfold YyState.ahead
      rw [hla, hrest]
  obtain ⟨N, hN⟩ := Endless.eventually_const (H := fun n => (f n).ahead) hahead
  have hquiet : ∀ n, N ≤ n → (f (n + 1)).lookahead = (f n).lookahead ∧
      G.Round A T (f n) (γ n) (γ (n + 1)) := by
    intro n hn
    rcases hround n with hlt | ⟨hla, -, hr⟩
    · exact absurd (hN n hn) hlt.ne
    · exact ⟨hla, hr⟩
  -- the stack is in the array
  have hlen : ∀ n, (f n).stack.length ≤ env.yymaxdepth := by
    intro n
    induction n with
    | zero => exact hdepth
    | succ n ih => exact length_stack_le ih (hf n)
  have hbound : ∀ n, (γ n).length ≤ env.yymaxdepth := by
    intro n
    have hle := hlen n
    rw [(hγ n).length_eq] at hle
    exact (Nat.le_succ _).trans hle
  obtain ⟨g, M, hlow, hback⟩ := Endless.exists_level hbound
  obtain ⟨m, hm, hg⟩ := hback (max N M)
  have hle : ∀ n, N ≤ m + n :=
    fun n => ((Nat.le_max_left N M).trans hm).trans (Nat.le_add_right m n)
  refine ⟨m, fun n => γ (m + n), (f m).lookahead, g,
    ⟨fun n => hf (m + n), fun n => hγ (m + n), fun n => ?_, fun n => (hquiet (m + n) (hle n)).2,
    fun n => ?_, fun k => ?_⟩, hg⟩
  · induction n with
    | zero => exact congrArg YyState.lookahead (congrArg f (Nat.add_zero m))
    | succ n ih => exact ((hquiet (m + n) (hle n)).1).trans ih
  · exact hlow (m + n) (((Nat.le_max_right N M).trans hm).trans (Nat.le_add_right m n))
  · obtain ⟨n, hn, hlevel⟩ := hback (m + k)
    obtain ⟨d, rfl⟩ := Nat.exists_eq_add_of_le hn
    exact ⟨k + d, Nat.le_add_right k d, (Nat.add_assoc m k d).symm ▸ hlevel⟩

variable (G) in
/-- The sequence is `β` with symbols above it that derive the empty word. -/
def Above (γ β : List ℕ) : Prop := ∃ ν, γ = ν ++ β ∧ G.Erasable ν

/-- What a round leaves of what lies above the level: the symbols at the level stay, or the first
one is renamed. -/
lemma Round.above {s : YyState} {γ γ' β : List ℕ} (h : G.Round A T s γ γ') (hβ : G.Above γ β)
    (hle : β.length ≤ γ'.length) (hacts : ∀ p ∈ G.prods, ∀ x ∈ p.rhs, ¬ IsAct x) :
    G.Above γ' β ∨ ∃ x y δ, β = x :: δ ∧ γ' = y :: δ ∧ G.Renames A T x y := by
  obtain ⟨ν, rfl, hν⟩ := hβ
  rcases h with ⟨p, hp, γ₁, -, -, hγ, rfl, n, hn, hnext⟩ | ⟨-, π, -, hγ⟩
  · rcases List.append_eq_append_iff.mp hγ with ⟨α, hrhs, hβ⟩ | ⟨α, hν', rfl⟩
    · -- the right-hand side reaches down to the level, or below it
      rw [hβ, List.length_append, List.length_cons] at hle
      rcases α with _ | ⟨x, α⟩
      · left
        rw [List.append_nil] at hrhs
        rw [List.nil_append] at hβ
        refine ⟨[p.lhs], by rw [hβ, List.singleton_append], ?_⟩
        rw [Erasable, List.forall_mem_singleton]
        refine nullable_lhs hp ((erasable_iff_yields (hacts p hp)).mp fun x hx => ?_)
        exact hν x (hrhs ▸ List.mem_reverse.mpr hx)
      · right
        rw [List.length_cons] at hle
        obtain rfl : α = [] := List.length_eq_zero_iff.mp (by omega)
        refine ⟨x, p.lhs, γ₁, hβ, rfl, p, hp, rfl,
          ⟨ν.reverse, ?_, fun z hz => hν z (List.mem_reverse.mp hz)⟩, n, hn, _, hnext⟩
        rw [← List.reverse_reverse p.rhs, hrhs, List.reverse_append]
        rfl
    · left
      refine ⟨p.lhs :: α, rfl, fun x hx => ?_⟩
      rcases List.mem_cons.mp hx with rfl | hx
      · refine nullable_lhs hp ((erasable_iff_yields (hacts p hp)).mp fun x hx => ?_)
        exact hν x (hν' ▸ List.mem_append_left α (List.mem_reverse.mpr hx))
      · exact hν x (hν' ▸ List.mem_append_right _ hx)
  · left
    rcases List.append_eq_append_iff.mp hγ with ⟨α, rfl, hβ⟩ | ⟨α, rfl, rfl⟩
    · rw [hβ, List.length_append] at hle
      obtain rfl : α = [] := List.length_eq_zero_iff.mp (by omega)
      exact ⟨[], hβ.symm, fun x hx => absurd hx List.not_mem_nil⟩
    · exact ⟨α, rfl, fun x hx => hν x (List.mem_append_right π hx)⟩

/-- What lies above a level is determined by its length. -/
lemma Above.unique {γ β β' : List ℕ} (h : G.Above γ β) (h' : G.Above γ β')
    (hlen : β.length = β'.length) : β = β' := by
  obtain ⟨ν, rfl, -⟩ := h
  obtain ⟨ν', hγ, -⟩ := h'
  exact (List.append_inj' hγ hlen).2

/-- What lies at the level does not change any more from some point on, and what is above it derives
the empty word. -/
lemma Hovers.exists_above (hacts : ∀ p ∈ G.prods, ∀ x ∈ p.rhs, ¬ IsAct x) (hcircle : G.NoCircle A T)
    (h : G.Hovers A T env f γ t g) (hstart : (γ 0).length = g) :
    ∃ N β, β.length = g ∧ ∀ n, N ≤ n → G.Above (γ n) β := by
  have hstep : ∀ n β, β.length = g → G.Above (γ n) β → G.Above (γ (n + 1)) β ∨
      ∃ x y δ, β = x :: δ ∧ γ (n + 1) = y :: δ ∧ G.Renames A T x y :=
    fun n β hlen hβ => (h.round n).above hβ (hlen ▸ h.level (n + 1)) hacts
  have hself : ∀ β, G.Above β β := fun β => ⟨[], rfl, fun x hx => absurd hx List.not_mem_nil⟩
  have hall : ∀ n, ∃ β, β.length = g ∧ G.Above (γ n) β := by
    intro n
    induction n with
    | zero => exact ⟨γ 0, hstart, hself _⟩
    | succ n ih =>
      obtain ⟨β, hlen, hβ⟩ := ih
      rcases hstep n β hlen hβ with hkept | ⟨x, y, δ, rfl, hγ, -⟩
      · exact ⟨β, hlen, hkept⟩
      · exact ⟨y :: δ, hlen, hγ ▸ hself _⟩
  choose β hlen hβ using hall
  -- the first symbol at the level is renamed, or nothing changes there
  have hnext : ∀ n, β (n + 1) = β n ∨ ∃ x y δ, β n = x :: δ ∧ β (n + 1) = y :: δ ∧
      G.Renames A T x y := by
    intro n
    rcases hstep n (β n) (hlen n) (hβ n) with hkept | ⟨x, y, δ, hx, hγ, hren⟩
    · exact .inl ((hβ (n + 1)).unique hkept ((hlen (n + 1)).trans (hlen n).symm))
    · refine .inr ⟨x, y, δ, hx, (hβ (n + 1)).unique (hγ ▸ hself _) ?_, hren⟩
      rw [hlen (n + 1), ← hlen n, hx, List.length_cons, List.length_cons]
  have hsymbol : ∀ n, (β (n + 1)).headD 0 = (β n).headD 0 ∨
      ((β (n + 1)).headD 0 ∈ {x | x ∈ G.prods.map Production.lhs} ∧
      G.Renames A T ((β n).headD 0) ((β (n + 1)).headD 0)) := by
    intro n
    rcases hnext n with heq | ⟨x, y, δ, hx, hy, hren⟩
    · exact .inl (congrArg (List.headD · 0) heq)
    · right
      rw [hx, hy]
      obtain ⟨p, hp, hlhs, -⟩ := id hren
      exact ⟨List.mem_map.mpr ⟨p, hp, hlhs⟩, hren⟩
  obtain ⟨N, hN⟩ := Endless.eventually_const_of_acyclic (x := fun n => (β n).headD 0) hcircle
    (List.finite_toSet (G.prods.map Production.lhs)) hsymbol
  refine ⟨N, β N, hlen N, fun n hn => ?_⟩
  have hconst : β n = β N := by
    induction n, hn using Nat.le_induction with
    | base => exact .refl _
    | succ n hn ih =>
      rcases hnext n with heq | ⟨x, y, δ, hx, hy, hren⟩
      · exact heq.trans ih
      · have hsame := hN n hn
        rw [hx, hy] at hsame
        obtain rfl : y = x := hsame
        exact absurd (.single hren) (hcircle y)
  exact hconst ▸ hβ n

/-- The driver does the reduction that the automaton can do, when the run hovers. -/
lemma Hovers.follow (hT : G.Tabled F A T) (h : G.Hovers A T env f γ t g) {n : ℕ} {stack' : List ℕ}
    (hred : G.Reduces A T t (f n).stack stack') : (f (n + 1)).stack = stack' := by
  generalize hst : (f n).stack = st at hred
  obtain ⟨hp, hnext, hdrop, htarget⟩ := hred
  rename_i p q m n' stack rest
  have hact : (f n).actNum T = -(p.num : ℤ) := by
    rw [actNum_eq hst, h.lookahead n]
    exact hnext
  have hF : yyF = 32767 := rfl
  rcases lrStep_inl (h.step n) with ⟨herr, -⟩ | ⟨hpos, -⟩ | ⟨-, hreduce⟩
  · omega
  · omega
  · have hnat : (-(f n).actNum T).toNat = p.num := by omega
    rw [hnat, hT.reduce p hp] at hreduce
    obtain ⟨tos, rest', hdrop', -, hs'⟩ := yyReduce_inl hreduce
    change (f n).stack.drop p.rhs.length = tos :: rest' at hdrop'
    rw [hst, hdrop] at hdrop'
    obtain ⟨rfl, rfl⟩ := List.cons.inj hdrop'
    -- the state below the right-hand side is one of the automaton
    have hs := h.spells n
    rw [hst, ← List.take_append_drop p.rhs.length (q :: stack), hdrop] at hs
    obtain ⟨-, γ', -, -, hbelow⟩ := Spells.of_append hs
    obtain ⟨-, -, hone, -⟩ := hT.built.next_ne_zero (hbelow.lt hT.built) htarget
    have hgoto : chainNext T.goto m (T.lhs p.num) = n' := by
      rw [hT.goto, hT.lhs p hp]
      exact chainNext_gotos (G.isNonterm_lhs hp) hone
    rw [hs']
    dsimp only
    rw [hgoto, Int.toNat_natCast]

/-- The driver does the reductions that can be done one after the other. -/
lemma Hovers.follows (hT : G.Tabled F A T) (h : G.Hovers A T env f γ t g) {n : ℕ} {stack' : List ℕ}
    (hred : Relation.ReflTransGen (G.Reduces A T t) (f n).stack stack') :
    ∃ m, n ≤ m ∧ (f m).stack = stack' := by
  induction hred with
  | refl => exact ⟨n, Nat.le_refl n, .refl _⟩
  | tail _ hlast ih =>
    obtain ⟨m, hm, rfl⟩ := ih
    exact ⟨m + 1, hm.trans (Nat.le_succ m), h.follow hT hlast⟩

end Hovers

end Grammar

end Parser
