import Cgkits.Parser.LrParse
import Mathlib.Logic.Relator

/-!
# Rounds of the LALR(1) driver that read nothing

Between two shifts the driver works on the stack under one lookahead `t`.  `Reduces` is a reduction
seen from the stack alone, and `Climbs` a run of reductions that only puts states on top of a state
`q`; such a run does not depend on what lies below `q`.

The lookaheads of the closures are justified in the state above which a run climbs.  Where an item
has the lookahead `t` and the symbols behind its dot vanish, the driver puts these symbols on the
stack (`climbs_of_yields`), and where `t` can come next behind a dot, it comes to a state in which
it is shifted (`comesTo_of_firstBy`).  In both cases the run may end before in a state with the
property `H`, in which the table has another action.  For an item that vanishes, its lookahead comes
from one of these two kinds of items (`comesTo_or_kernel`).
-/

namespace Parser

open ContextFree Machine

namespace Grammar

variable {G : Grammar} {F : SetTable} {A : Automaton} {T : YyTables}

/-! ## Symbols that vanish -/

variable (G) in
/-- Every symbol of the sequence derives the empty word. -/
def Erasable (γ : List ℕ) : Prop := ∀ x ∈ γ, ContextFree.Nullable G.cfg x

/-- A symbol that derives the empty word does so by a production. -/
lemma exists_prod_of_nullable {x : ℕ} (h : ContextFree.Nullable G.cfg x) :
    ∃ p ∈ G.prods, p.lhs = x ∧ Yields G.cfg (form p.rhs) [] := by
  have hy : Yields G.cfg [.nonterminal x] [] := yields_iff_derives.mpr h
  generalize hγ : ([.nonterminal x] : List (Symbol ℕ G.cfg.NT)) = γ at hy
  generalize hw : ([] : List ℕ) = w at hy
  cases hy with
  | nil => cases hγ
  | terminal => cases hγ
  | @rule r γ u v hr hu hv =>
    obtain ⟨hx, -⟩ := List.cons.inj hγ
    obtain ⟨p, hp, rfl⟩ := mem_rules.mp hr
    obtain ⟨rfl, rfl⟩ := List.append_eq_nil_iff.mp hw.symm
    exact ⟨p, hp, (Symbol.nonterminal.inj hx).symm, hu⟩

/-- A symbol from which the empty string is derived is a nonterminal. -/
lemma isNonterm_of_nullable {x : ℕ} (h : ContextFree.Nullable G.cfg x) : IsNonterm x := by
  obtain ⟨p, hp, rfl, -⟩ := exists_prod_of_nullable h
  exact G.isNonterm_lhs hp

/-- A left-hand side derives the empty word when its right-hand side does. -/
lemma nullable_lhs {p : Production} (hp : p ∈ G.prods) (h : Yields G.cfg (form p.rhs) []) :
    ContextFree.Nullable G.cfg p.lhs :=
  (show G.cfg.Produces _ _ from ⟨p.rule, rule_mem hp, .input_output⟩).single.trans
    (yields_iff_derives.mp h)

/-- Without actions the sequence derives the empty word exactly when its symbols do. -/
lemma erasable_iff_yields {γ : List ℕ} (hacts : ∀ x ∈ γ, ¬ IsAct x) :
    G.Erasable γ ↔ Yields G.cfg (form γ) [] := by
  constructor
  · intro h
    have hall : AllNull (ContextFree.Nullable G.cfg) (form γ) := by
      intro sym hsym
      obtain ⟨x, hx, hto⟩ := List.mem_filterMap.mp hsym
      have hnon := isNonterm_of_nullable (h x hx)
      unfold toSymbol at hto
      rw [if_neg hnon.not_isAct, if_neg hnon.not_isTerm, Option.some.injEq] at hto
      exact ⟨x, hto.symm, h x hx⟩
    exact yields_iff_derives.mpr (allNull_nullable_iff.mp hall)
  · intro h x hx
    have hall := h.allNull nullClosed_nullable
    have hto : ∃ sym, toSymbol x = some sym := by
      unfold toSymbol
      rw [if_neg (hacts x hx)]
      split
      · exact ⟨_, rfl⟩
      · exact ⟨_, rfl⟩
    obtain ⟨sym, hsym⟩ := hto
    obtain ⟨B, rfl, hB⟩ := hall sym (List.mem_filterMap.mpr ⟨x, hx, hsym⟩)
    obtain ⟨-, -, rfl⟩ := toSymbol_eq_nonterminal hsym
    exact hB

/-- Without actions the sequence derives the empty word when its form does. -/
lemma erasable_of_allNull {γ : List ℕ} (hacts : ∀ x ∈ γ, ¬ IsAct x)
    (h : AllNull (ContextFree.Nullable G.cfg) (form γ)) : G.Erasable γ :=
  (erasable_iff_yields hacts).mpr (yields_iff_derives.mpr (allNull_nullable_iff.mp h))

/-! ## Reductions under one lookahead -/

variable (G A T) in
/-- A round that reduces under the lookahead `t`, seen from the stack. -/
inductive Reduces (t : ℕ) : List ℕ → List ℕ → Prop
  /-- The right-hand side is popped, and the state below it has a transition on the left-hand
  side. -/
  | intro {p : Production} {n m n' : ℕ} {stack stack' : List ℕ} : p ∈ G.prods →
      chainNext T.action n t = -(p.num : ℤ) → (n :: stack).drop p.rhs.length = m :: stack' →
      (n' : ℤ) ∈ A.targets m p.lhs → Reduces t (n :: stack) (n' :: m :: stack')

/-- The states on top of the state `q`, the top first, and the symbols of the transitions between
them. -/
inductive Trail (A : Automaton) (q : ℕ) : List ℕ → List ℕ → Prop
  /-- Nothing lies on top of `q`. -/
  | base : Trail A q [] []
  /-- One more state is pushed by a transition. -/
  | push {n x : ℕ} {l ν : List ℕ} : Trail A q l ν → (n : ℤ) ∈ A.targets (l.headD q) x →
    Trail A q (n :: l) (x :: ν)

variable (G A T) in
/-- The driver puts the states `l` on top of the state `q`, and does not look below `q` for this. -/
structure Climbs (t q : ℕ) (l ν : List ℕ) : Prop where
  /-- The states and their symbols. -/
  trail : Trail A q l ν
  /-- The driver can push `l` by reductions alone. -/
  runs : ∀ stack, Relation.ReflTransGen (G.Reduces A T t) (q :: stack) (l ++ q :: stack)

section Climbs

variable {q n t x : ℕ} {l l' ν ν' stack γ : List ℕ}

/-- A trail has a state for each of its symbols. -/
lemma Trail.length_eq (h : Trail A q l ν) : l.length = ν.length := by
  induction h with
  | base => exact List.length_nil
  | push _ _ ih => rw [List.length_cons, List.length_cons, ih]

/-- The top of a stack with a trail on it is a state of the automaton. -/
lemma Trail.lt (hB : G.Built F A) (hq : q < A.nstates) (h : Trail A q l ν) :
    l.headD q < A.nstates := by
  induction h with
  | base => exact hq
  | push _ htarget ih => exact (hB.next_ne_zero ih htarget).2.1

/-- A trail from the top of another is a trail from where the other began. -/
lemma Trail.trans (h : Trail A q l ν) (h' : Trail A (l.headD q) l' ν') :
    Trail A q (l' ++ l) (ν' ++ ν) := by
  induction h' with
  | base => exact h
  | @push n x l' ν' hl' htarget ih =>
    refine .push ih ?_
    rcases l' with _ | ⟨m, l'⟩
    · exact htarget
    · exact htarget

/-- A stack with a trail on it spells the symbols of both. -/
lemma Trail.spells (h : Trail A q l ν) (hs : Spells A (q :: stack) γ) :
    Spells A (l ++ q :: stack) (ν ++ γ) := by
  induction h with
  | base => exact hs
  | @push n x l ν hl htarget ih =>
    rcases l with _ | ⟨m, l⟩
    · exact .push ih htarget
    · exact .push ih htarget

/-- A stack with a trail on it has its top in front. -/
lemma append_cons_eq (l : List ℕ) (q : ℕ) (stack : List ℕ) :
    ∃ rest, l ++ q :: stack = l.headD q :: rest := by
  rcases l with _ | ⟨m, l⟩
  · exact ⟨stack, rfl⟩
  · exact ⟨l ++ q :: stack, rfl⟩

/-- A climb in which nothing is done reaches the state it began in. -/
lemma Climbs.refl (t q : ℕ) : G.Climbs A T t q [] [] := ⟨.base, fun _ => .refl⟩

/-- One climb after the other is a climb over the symbols of both. -/
lemma Climbs.trans (h : G.Climbs A T t q l ν) (h' : G.Climbs A T t (l.headD q) l' ν') :
    G.Climbs A T t q (l' ++ l) (ν' ++ ν) := by
  refine ⟨h.trail.trans h'.trail, fun stack => (h.runs stack).trans ?_⟩
  obtain ⟨rest, hrest⟩ := append_cons_eq l q stack
  rw [List.append_assoc, hrest]
  exact h'.runs rest

/-- The right-hand side of a production is on top, and is reduced. -/
lemma Climbs.reduce {p : Production} (h : G.Climbs A T t q l p.rhs.reverse) (hp : p ∈ G.prods)
    (hnext : chainNext T.action (l.headD q) t = -(p.num : ℤ))
    (htarget : (n : ℤ) ∈ A.targets q p.lhs) : G.Climbs A T t q [n] [p.lhs] := by
  refine ⟨.push .base htarget, fun stack => (h.runs stack).tail ?_⟩
  have hlen := h.trail.length_eq
  rw [List.length_reverse] at hlen
  obtain ⟨rest, hrest⟩ := append_cons_eq l q stack
  have hdrop : (l ++ q :: stack).drop p.rhs.length = q :: stack := by rw [← hlen, List.drop_left]
  rw [hrest] at hdrop ⊢
  exact .intro hp hnext hdrop htarget

end Climbs

/-! ## What stands behind a dot -/

variable (G A T) in
/-- The run from `q` comes to a state with the property `H`, with symbols on top of `q` that
vanish. -/
def ComesTo (H : ℕ → Prop) (t q : ℕ) : Prop :=
  ∃ l ν, G.Climbs A T t q l ν ∧ G.Erasable ν ∧ H (l.headD q)

variable (G F A T) in
/-- In a state with a completed item and its lookahead the table has the reduction of this item,
unless the state has the property `H`. -/
def ReducesUnless (H : ℕ → Prop) (t : ℕ) : Prop :=
  ∀ n < A.nstates, ∀ o, G.Occurs (A.cores n) o → rightOfDot o.core = none → G.Look F A n o t →
    H n ∨ chainNext T.action n t = -(o.core.1.num : ℤ)

section Behind

variable {H : ℕ → Prop} {t q : ℕ} {o : Occ}

/-- A climb over symbols that can be erased comes before the state that is looked for. -/
lemma ComesTo.of_climbs {l ν : List ℕ} (h : G.Climbs A T t q l ν) (hν : G.Erasable ν)
    (hto : G.ComesTo A T H t (l.headD q)) : G.ComesTo A T H t q := by
  obtain ⟨l', ν', hl', hν', hH⟩ := hto
  refine ⟨l' ++ l, ν' ++ ν, h.trans hl', ?_, ?_⟩
  · intro x hx
    rcases List.mem_append.mp hx with hx | hx
    · exact hν' x hx
    · exact hν x hx
  · rcases l' with _ | ⟨n, l'⟩
    · exact hH
    · exact hH

variable (G F A T) in
/-- The symbols behind the dot of `o` have been put on top of `q`, and the item is completed
there. -/
structure Completes (t q : ℕ) (o : Occ) (l : List ℕ) (o' : Occ) : Prop where
  /-- The driver climbs over the symbols behind the dot. -/
  climbs : G.Climbs A T t q l (o.core.1.rhs.drop o.core.2).reverse
  /-- The item is completed on top. -/
  occurs : G.Occurs (A.cores (l.headD q)) o'
  /-- It is an item of the same production. -/
  prod : o'.core.1 = o.core.1
  /-- There is nothing behind its dot. -/
  dot : rightOfDot o'.core = none
  /-- The item that is reached has the lookahead. -/
  look : G.Look F A (l.headD q) o' t

/-- A production that vanishes and has been looked for behind a dot is completed and reduced. -/
lemma Completes.reduce (hB : G.Built F A) (hred : G.ReducesUnless F A T H t) (hq : q < A.nstates)
    {p : Production} (hp : p ∈ G.prods) (hvan : G.Erasable p.rhs) {l : List ℕ} {o' : Occ}
    (h : G.Completes F A T t q (.clos p) l o') {n : ℕ} (htarget : (n : ℤ) ∈ A.targets q p.lhs) :
    G.ComesTo A T H t q ∨ G.Climbs A T t q [n] [p.lhs] := by
  rcases hred _ (h.climbs.trail.lt hB hq) o' h.occurs h.dot h.look with hH | hnext
  · left
    refine ⟨l, _, h.climbs, ?_, hH⟩
    intro x hx
    exact hvan x (List.mem_reverse.mp hx)
  · right
    rw [h.prod] at hnext
    exact h.climbs.reduce hp hnext htarget

/-- The driver puts the symbols behind a dot on the stack when they derive the empty word and the
item has the lookahead. -/
lemma climbs_of_yields (hB : G.Built F A) (hF : G.FirstCovers F)
    (hacts : ∀ p ∈ G.prods, ∀ x ∈ p.rhs, ¬ IsAct x) (hred : G.ReducesUnless F A T H t)
    {β : List (Symbol ℕ G.cfg.NT)} {u : List ℕ} (hy : Yields G.cfg β u) (hu : u = [])
    (hq : q < A.nstates) (ho : G.Occurs (A.cores q) o) (hlook : G.Look F A q o t)
    (hform : form (o.core.1.rhs.drop o.core.2) = β) :
    G.ComesTo A T H t q ∨ ∃ l o', G.Completes F A T t q o l o' := by
  have hprod := hB.mem_prods ho.inClosure
  induction hy generalizing q o with
  | nil =>
    have hnil := drop_eq_nil_of_form (hacts _ hprod) hform
    refine .inr ⟨[], o, ?_, ho, rfl, List.getElem?_eq_none_iff.mpr (List.drop_eq_nil_iff.mp hnil),
      hlook⟩
    rw [hnil]
    exact .refl t q
  | terminal => cases hu
  | @rule r β u₁ u₂ hr hu₁ hu₂ ih₁ ih₂ =>
    obtain ⟨rfl, rfl⟩ := List.append_eq_nil_iff.mp hu
    obtain ⟨p, hp, rfl⟩ := mem_rules.mp hr
    obtain ⟨x, hx, hsym, hdrop, hrest⟩ := exists_rightOfDot (hacts _ hprod) hform
    obtain ⟨-, -, rfl⟩ := toSymbol_eq_nonterminal hsym
    have hmem : p ∈ G.productions p.lhs := mem_productions.mpr ⟨hp, rfl⟩
    have hnon := G.isNonterm_lhs hp
    have hclos : G.Occurs (A.cores q) (.clos p) :=
      mem_closureProds.mpr ⟨o.core, p.lhs, ho.inClosure, hx, hnon, hmem⟩
    have hlook' : G.Look F A q (.clos p) t := by
      rw [← hrest] at hu₂
      exact look_clos (v := [t]) hF hq ho hx hnon hmem hu₂ (fun s hs => absurd hs List.not_mem_nil)
        hlook
    obtain ⟨n, k, hone, hnext, hlooks⟩ := hB.next hq ho hx
    have htarget : (n : ℤ) ∈ A.targets q p.lhs := hone ▸ List.mem_singleton_self _
    have hvan : G.Erasable p.rhs := (erasable_iff_yields (hacts p hp)).mpr hu₁
    rcases ih₁ rfl hq hclos hlook' rfl hp with hto | ⟨l₁, o₁, h₁⟩
    · exact .inl hto
    · rcases h₁.reduce hB hred hq hp hvan htarget with hto | hclimb
      · exact .inl hto
      · have hlt : n < A.nstates := (hB.next_ne_zero hq htarget).2.1
        rcases ih₂ rfl hlt hnext (hlooks t hlook) hrest hprod with hto | ⟨l₂, o₂, h₂⟩
        · left
          refine hto.of_climbs (l := [n]) hclimb ?_
          rw [Erasable, List.forall_mem_singleton]
          exact nullable_lhs hp hu₁
        · right
          have hhead : (l₂ ++ [n]).headD q = l₂.headD n := by
            rcases l₂ with _ | ⟨m, l₂⟩
            · rfl
            · rfl
          refine ⟨l₂ ++ [n], o₂, ?_, hhead ▸ h₂.occurs, h₂.prod, h₂.dot, hhead ▸ h₂.look⟩
          rw [hdrop, List.reverse_cons]
          exact hclimb.trans h₂.climbs

/-- The production of a symbol behind a dot is looked for. -/
lemma occurs_clos {x : ℕ} (ho : G.Occurs (A.cores q) o) (hx : rightOfDot o.core = some x)
    {p : Production} (hp : p ∈ G.productions x) : G.Occurs (A.cores q) (.clos p) := by
  obtain ⟨hmem, rfl⟩ := mem_productions.mp hp
  exact mem_closureProds.mpr ⟨o.core, p.lhs, ho.inClosure, hx, G.isNonterm_lhs hmem, hp⟩

variable (A) in
/-- In a state with a transition on the lookahead `t` the table has an action with the property
`H`. -/
def ShiftsOn (H : ℕ → Prop) (t : ℕ) : Prop := ∀ n < A.nstates, ∀ n' : ℕ, (n' : ℤ) ∈ A.targets n t →
    IsTerm t → H n

/-- Where the lookahead can come next behind a dot, the driver comes to a state in which it is
shifted. -/
lemma comesTo_of_firstBy (hB : G.Built F A) (hF : G.FirstCovers F)
    (hacts : ∀ p ∈ G.prods, ∀ x ∈ p.rhs, ¬ IsAct x) (hred : G.ReducesUnless F A T H t)
    (hshift : ShiftsOn A H t) (ht : t ≤ G.currterm) {β : List (Symbol ℕ G.cfg.NT)}
    (h : FirstBy (ContextFree.Nullable G.cfg) β t) (hq : q < A.nstates)
    (ho : G.Occurs (A.cores q) o) (hform : form (o.core.1.rhs.drop o.core.2) = β) :
    G.ComesTo A T H t q := by
  have hprod := hB.mem_prods ho.inClosure
  induction h generalizing q o with
  | terminal t β =>
    obtain ⟨x, hx, hsym, -, -⟩ := exists_rightOfDot (hacts _ hprod) hform
    obtain ⟨-, hterm, rfl⟩ := toSymbol_eq_terminal hsym
    obtain ⟨n, k, hone, -, -⟩ := hB.next hq ho hx
    have htarget : (n : ℤ) ∈ A.targets q x := hone ▸ List.mem_singleton_self _
    exact ⟨[], [], .refl x q, fun y hy => absurd hy List.not_mem_nil, hshift q hq n htarget hterm⟩
  | @skip B β t hB' h ih =>
    obtain ⟨x, hx, hsym, hdrop, hrest⟩ := exists_rightOfDot (hacts _ hprod) hform
    obtain ⟨-, -, rfl⟩ := toSymbol_eq_nonterminal hsym
    obtain ⟨p, hp, rfl, hy⟩ := exists_prod_of_nullable hB'
    have hmem : p ∈ G.productions p.lhs := mem_productions.mpr ⟨hp, rfl⟩
    have hclos := occurs_clos ho hx hmem
    obtain ⟨n, k, hone, hnext, -⟩ := hB.next hq ho hx
    have htarget : (n : ℤ) ∈ A.targets q p.lhs := hone ▸ List.mem_singleton_self _
    have hlook : G.Look F A q (.clos p) t := by
      refine .first hq (ho.mem_occs hx) hx (G.isNonterm_lhs hp) hmem (hF.mem_firstAfter ?_ ht)
      have hmono := h.mono (Q := fun B => G.Nullable F B) fun B hB => hB.of_nullClosed hF.null
      rw [← hrest] at hmono
      exact hmono
    have hvan : G.Erasable p.rhs := (erasable_iff_yields (hacts p hp)).mpr hy
    rcases climbs_of_yields hB hF hacts hred hy rfl hq hclos hlook rfl with hto | ⟨l, o', hcomp⟩
    · exact hto
    · rcases hcomp.reduce hB hred hq hp hvan htarget with hto | hclimb
      · exact hto
      · have hlt : n < A.nstates := (hB.next_ne_zero hq htarget).2.1
        refine ComesTo.of_climbs (l := [n]) hclimb ?_ (ih hred hshift ht hlt hnext hrest hprod)
        rw [Erasable, List.forall_mem_singleton]
        exact hB'
  | @rule r β t hr h ih =>
    obtain ⟨x, hx, hsym, -, -⟩ := exists_rightOfDot (hacts _ hprod) hform
    obtain ⟨-, -, rfl⟩ := toSymbol_eq_nonterminal hsym
    obtain ⟨p, hp, rfl⟩ := mem_rules.mp hr
    exact ih hred hshift ht hq (occurs_clos ho hx (mem_productions.mpr ⟨hp, rfl⟩)) rfl hp

/-! ## Where a lookahead comes from -/

/-- What is among the occurrences of a kernel occurs in the closure. -/
lemma occurs_of_mem_occs {n : ℕ} (ho : o ∈ G.occs (A.cores n)) : G.Occurs (A.cores n) o := by
  rcases o with p | ⟨k, c⟩
  · exact clos_mem_occs.mp ho
  · exact (kern_mem_occs.mp ho).1

/-- An item that has a lookahead in a state occurs in its closure. -/
lemma Look.occurs (hB : G.Built F A) (h : G.Look F A q o t) :
    q < A.nstates ∧ G.Occurs (A.cores q) o := by
  induction h with
  | @start p hp =>
    obtain ⟨r, hr, hcores⟩ := hB.run.lrInv.start
    rw [hr, List.mem_singleton] at hp
    subst hp
    refine ⟨hB.run.lrInv.pos, ?_⟩
    change (A.cores 0)[0]? = _
    rw [hcores]
    rfl
  | first hn ho hx _ hp _ => exact ⟨hn, occurs_clos (occurs_of_mem_occs ho) hx hp⟩
  | inherit hn _ hx _ hp _ ih => exact ⟨hn, occurs_clos ih.2 hx hp⟩
  | @shift n n' x k t o hn _ hk htarget ih =>
    obtain ⟨-, -, hone, hx⟩ := hB.next_ne_zero hn htarget
    obtain ⟨m, hm, hone', hcores, -⟩ := hB.lalr.transition n hn x hx
    rw [hone, List.cons.injEq, Nat.cast_inj] at hone'
    obtain ⟨rfl, -⟩ := hone'
    refine ⟨hm, ?_⟩
    change (A.cores n')[k]? = _
    rw [hcores, List.getElem?_map, hk]
    rfl

/-- When the symbols behind the dot vanish, the lookahead comes from what can follow in the state,
and then the driver comes to a state in which it is shifted, or it comes from the kernel. -/
lemma comesTo_or_kernel (hB : G.Built F A) (hF : G.FirstCovers F) (hexact : G.FirstExact F)
    (hacts : ∀ p ∈ G.prods, ∀ x ∈ p.rhs, ¬ IsAct x) (hred : G.ReducesUnless F A T H t)
    (hshift : ShiftsOn A H t) (h : G.Look F A q o t)
    (hvan : G.Erasable (o.core.1.rhs.drop o.core.2)) :
    G.ComesTo A T H t q ∨ ∃ k c, G.Look F A q (.kern k c) t ∧ G.Erasable (c.1.rhs.drop c.2) := by
  induction h with
  | @start p hp => exact .inr ⟨0, (p, 0), .start hp, hvan⟩
  | @first n x t o p hn ho hx hnon hp ht =>
    obtain ⟨hmem, rfl⟩ := mem_productions.mp hp
    have hocc : G.Occurs (A.cores n) o := occurs_of_mem_occs ho
    obtain ⟨hle, hby⟩ := hexact.first o.core (hB.mem_prods hocc.inClosure) t ht
    have hnull := nullable_lhs hmem ((erasable_iff_yields (hacts p hmem)).mp hvan)
    left
    refine comesTo_of_firstBy hB hF hacts hred hshift hle ?_ hn hocc rfl
    rw [drop_of_rightOfDot hx, form_cons_nonterm hnon]
    exact .skip hnull hby
  | @inherit n x t o p hn hlook hx hnon hp hnull ih =>
    obtain ⟨hmem, rfl⟩ := mem_productions.mp hp
    apply ih hred hshift
    rw [drop_of_rightOfDot hx]
    intro y hy
    rcases List.mem_cons.mp hy with rfl | hy
    · exact nullable_lhs hmem ((erasable_iff_yields (hacts p hmem)).mp hvan)
    · have hnoacts : ∀ z ∈ afterDot o.core, ¬ IsAct z :=
        fun z hz => hacts _ hlook.mem_prods z (List.mem_of_mem_drop hz)
      exact erasable_of_allNull hnoacts (hexact.null o.core hnull) y hy
  | @shift n n' x k t o hn hlook hk htarget => exact .inr ⟨k, _, .shift hn hlook hk htarget, hvan⟩

end Behind

end Grammar

end Parser
