import Cgkits.Parser.Closure
import Mathlib.Logic.Relation
import Mathlib.Data.Finset.Card

/-!
# The LALR(1) state machine (`yystate.c`)

An `Automaton` holds the states, the chains of shift and goto transitions and the set of unfinished
states. `visit` is one turn of the loop of `lr`: it computes the closure of a state, stores the
items of empty productions in the state, and forms or finds the state behind every symbol that
stands right of a dot.  A state that is new or whose lookaheads have grown becomes unfinished.

`lr` visits the unfinished state with the smallest number first, as `get_unfinished` does.  `LrStep`
leaves this choice open: a run of `LrStep` may visit the unfinished states in any order.

The size limits and the internal errors of the source end a run with `none`.
-/

namespace Parser

open Grammar

/-- `MAXSTATE`: the maximum number of states of the automaton. -/
def maxState : ℕ := 1024

/-- `MAXKERNEL`: the maximum number of kernel items in a state. -/
def maxKernel : ℕ := 64

/-- `MAXEPSILON`: the maximum number of items of empty productions in a state. -/
def maxEpsilon : ℕ := 16

/-- `MAXUNFINISHED`: the number of nodes for the tree of unfinished states. -/
def maxUnfinished : ℕ := 257

/-- `ACT_S` and `GOTO`: an entry of a chain of actions or gotos. -/
structure Act where
  /-- The action is given this input symbol. -/
  sym : ℕ
  /-- Do this: `> 0` shift, `≤ 0` reduce. -/
  doThis : ℤ
deriving DecidableEq

/-- `STATE_S`, a state of the automaton with its items. -/
structure LrState where
  /-- The items of the kernel, in order. -/
  kernelItems : List Item
  /-- The items of empty productions. -/
  epsilonItems : List Item
  /-- The state has been visited. -/
  closed : Bool
deriving DecidableEq

/-- A state that does not exist yet, with no items. -/
def LrState.none : LrState := ⟨[], [], false⟩

/-- The static variables of `yystate.c`: the states, their chains of actions and gotos, and the
unfinished ones. -/
structure Automaton where
  /-- `_nstates`, the number of states. -/
  nstates : ℕ
  /-- The states, by their numbers. -/
  state : ℕ → LrState
  /-- `_actions`: the chains of actions. -/
  actions : ℕ → List Act
  /-- `_gotos`: the chains of gotos. -/
  gotos : ℕ → List Act
  /-- The numbers in the tree `_unfinised`. -/
  unfinished : Finset ℕ

/-- The return values of `newstate`, which say what has been found. -/
inductive NewState where
  /-- `NEW`: the state has just been made. -/
  | new
  /-- `UNCLOSED`: the state is there and not closed. -/
  | unclosed
  /-- `CLOSED`: the state is there and closed. -/
  | closed
deriving DecidableEq

/-- The numbers by which `state_cmp` compares items. -/
def Item.key (i : Item) : ℕ × ℕ := (i.prod.num, i.dotPosn)

/-- `movedot`: the item with its dot one place further to the right. -/
def Item.movedot (i : Item) : Item := { i with dotPosn := i.dotPosn + 1 }

/-- `SET_UNION` of the lookaheads of two items with the same core. -/
def Item.union (d s : Item) : Item := { d with lookaheads := d.lookaheads ∪ s.lookaheads }

/-- `ADJ_VAL`: the number of a nonterminal counted from zero. -/
def adjVal (x : ℕ) : ℕ := x - minNonterm

/-- Sort the items of the closure by the symbols right of their dots. -/
def sortItems (items : List Item) : List Item :=
  ShellSort.shellSort (fun i j => coreLe i.core j.core) items

/-- `merge_lookaheads`: the merged items, and whether anything has been added. -/
def mergeLookaheads : List Item → List Item → Option (List Item × Bool)
  | d :: dst, s :: src =>
    if d.prod ≠ s.prod ∨ d.dotPosn ≠ s.dotPosn then none
    else (mergeLookaheads dst src).map fun r =>
      if s.lookaheads ⊆ d.lookaheads then (d :: r.1, r.2)
      else (d.union s :: r.1, true)
  | dst, _ => some (dst, false)

/-- `move_eps`: the items of empty productions stored in the state afterwards, and the other
items. -/
def moveEps (epsItems closureItems : List Item) : Option (List Item × List Item) :=
  let eps := closureItems.takeWhile fun i => i.prod.rhs = []
  if maxEpsilon < eps.length then none
  else some
    (if eps = [] then epsItems
      else if epsItems = [] then eps
      else List.zipWith Item.union epsItems eps,
    closureItems.drop eps.length)

/-- The groups of items with one symbol right of the dot.  Every group has an item, so the length of
the list is enough fuel. -/
def groups : ℕ → List Item → List (ℕ × List Item)
  | n + 1, i :: items =>
    (rodVal i.core, i :: items.takeWhile fun j => rodVal j.core = rodVal i.core) ::
      groups n (items.dropWhile fun j => rodVal j.core = rodVal i.core)
  | _, _ => []

namespace Automaton

variable (A : Automaton)

/-- The items of the kernel of a state, with their lookaheads. -/
def kernel (n : ℕ) : List Item := (A.state n).kernelItems

/-- The items of the kernel of a state without their lookaheads. -/
def cores (n : ℕ) : List Core := (A.kernel n).map Item.core

/-- The entries of a state for a symbol: of the actions for a terminal, of the gotos for a
nonterminal. -/
def targets (n x : ℕ) : List ℤ :=
  if IsTerm x then ((A.actions n).filter fun a => a.sym = x).map Act.doThis
  else ((A.gotos n).filter fun a => a.sym + minNonterm = x).map Act.doThis

/-- The automaton without any states, in front of the first one. -/
def empty : Automaton := ⟨0, fun _ => .none, fun _ => [], fun _ => [], ∅⟩

/-- Append a state with these items as its kernel. -/
def addState (items : List Item) : Automaton :=
  { A with
    nstates := A.nstates + 1
    state := Function.update A.state A.nstates ⟨items, [], false⟩ }

/-- `newstate`: the state with the same kernel if there is one, or a new state. -/
def newstate (items : List Item) : Option (Automaton × ℕ × NewState) :=
  if maxKernel < items.length then none
  else
    match (List.range A.nstates).find? fun n =>
      (A.state n).kernelItems.map Item.key = items.map Item.key with
    | some n => some (A, n, if (A.state n).closed then .closed else .unclosed)
    | none =>
      if maxState ≤ A.nstates then none
      else some (A.addState items, A.nstates, .new)

/-- `add_unfinished`: the state has to be visited, and there is no room for too many. -/
def addUnfinished (n : ℕ) : Option Automaton :=
  if n ∈ A.unfinished then some A
  else if maxUnfinished ≤ A.unfinished.card then none
  else some { A with unfinished := insert n A.unfinished }

/-- `get_unfinished`: the unfinished state with the smallest number is deleted from the tree. -/
def getUnfinished : Option (ℕ × Automaton) :=
  ((List.range A.nstates).find? fun n => n ∈ A.unfinished).map fun n =>
    (n, { A with unfinished := A.unfinished.erase n })

/-- `add_action`: put an action in front of the chain of a state. -/
def addAction (n sym : ℕ) (doThis : ℤ) : Automaton :=
  { A with actions := Function.update A.actions n (⟨sym, doThis⟩ :: A.actions n) }

/-- `add_goto`: put a goto in front of the chain of a state. -/
def addGoto (n nonterminal : ℕ) (goHere : ℤ) : Automaton :=
  { A with gotos := Function.update A.gotos n (⟨adjVal nonterminal, goHere⟩ :: A.gotos n) }

/-- Replace the items of the kernel of a state. -/
def setKernel (n : ℕ) (items : List Item) : Automaton :=
  { A with state := Function.update A.state n { A.state n with kernelItems := items } }

/-- Replace the items of empty productions of a state. -/
def setEpsilon (n : ℕ) (items : List Item) : Automaton :=
  { A with state := Function.update A.state n { A.state n with epsilonItems := items } }

/-- Note that the state `n` has been visited, so that it is closed. -/
def setClosed (n : ℕ) : Automaton :=
  { A with state := Function.update A.state n { A.state n with closed := true } }

/-- Add the transition of a state on a symbol, unless the state has been visited before. -/
def link (cur val next : ℕ) : Automaton :=
  if (A.state cur).closed then A
  else if IsTerm val then A.addAction cur val next
  else A.addGoto cur val next

/-- The transition of the state `cur` on the symbol with the value `val`, when `items` are the items
with the dot moved. -/
def transition (cur val : ℕ) (items : List Item) : Option Automaton := do
  let (A₁, next, isnew) ← A.newstate items
  let A₂ := A₁.link cur val next
  if isnew = .new then A₂.addUnfinished next
  else
    let (kernel, didSomething) ← mergeLookaheads (A₂.state next).kernelItems items
    if didSomething then (A₂.setKernel next kernel).addUnfinished next
    else some (A₂.setKernel next kernel)

end Automaton

namespace Grammar

variable (G : Grammar) (F : SetTable)

/-- The visit of the state `cur` in `lr`: its closure, its empty productions, and its
transitions. -/
def visit (fuel : ℕ) (A : Automaton) (cur : ℕ) : Option Automaton := do
  let items ← G.closure F fuel (A.state cur).kernelItems
  let items ← kclosure (A.state cur).kernelItems items
  let (eps, rest) ← moveEps (A.state cur).epsilonItems (sortItems items)
  let A' ← (groups rest.length rest).foldlM
    (fun B g => B.transition cur g.1 (g.2.map Item.movedot)) (A.setEpsilon cur eps)
  some (A'.setClosed cur)

/-- The loop of `lr`: visit unfinished states until there is none. -/
def lrLoop (fuel : ℕ) : ℕ → Automaton → Option Automaton
  | 0, _ => none
  | n + 1, A =>
    match A.getUnfinished with
    | none => some A
    | some (cur, A) => (G.visit F fuel A cur).bind (lrLoop fuel n)

/-- The initial state of `make_parse_tables`, unfinished as at the start of `lr`. -/
def startState : Option Automaton :=
  match G.productions G.goalSymbol with
  | [startProd] =>
    (Automaton.empty.newstate [⟨startProd, 0, {eoi}⟩]).bind fun r => r.1.addUnfinished r.2.1
  | _ => none

/-- `lr`, called by `make_parse_tables`: the start state, and the loop from there. -/
def lr (fuel : ℕ) : Option Automaton := G.startState.bind (G.lrLoop F fuel fuel)

/-- One turn of the loop of `lr`, whichever unfinished state is visited. -/
inductive LrStep : Automaton → Automaton → Prop
  /-- The state `cur` is deleted from the tree of unfinished states and visited. -/
  | visit {A A' : Automaton} {cur fuel : ℕ} : cur ∈ A.unfinished →
      G.visit F fuel { A with unfinished := A.unfinished.erase cur } cur = some A' → LrStep A A'

/-- The loop of `lr` can come from the initial state to `A`. -/
def LrRun (A : Automaton) : Prop :=
  ∃ A₀, G.startState = some A₀ ∧ Relation.ReflTransGen (G.LrStep F) A₀ A

variable {G F}

/-- The state that `get_unfinished` returns is unfinished. -/
lemma getUnfinished_some {A A' : Automaton} {cur : ℕ} (h : A.getUnfinished = some (cur, A')) :
    cur ∈ A.unfinished ∧ A' = { A with unfinished := A.unfinished.erase cur } := by
  unfold Automaton.getUnfinished at h
  rw [Option.map_eq_some_iff] at h
  obtain ⟨n, hn, he⟩ := h
  cases he
  have hmem := List.find?_some hn
  exact ⟨of_decide_eq_true hmem, rfl⟩

/-- `get_unfinished` finds an unfinished state if there is one. -/
lemma getUnfinished_none {A : Automaton} (hA : ∀ n ∈ A.unfinished, n < A.nstates)
    (h : A.getUnfinished = none) : A.unfinished = ∅ := by
  unfold Automaton.getUnfinished at h
  rw [Option.map_eq_none_iff, List.find?_eq_none] at h
  rw [Finset.eq_empty_iff_forall_notMem]
  intro n hn
  exact h n (List.mem_range.mpr (hA n hn)) (decide_eq_true hn)

/-- The loop of `lr` is a sequence of steps; it ends when no state is unfinished. -/
lemma lrLoop_steps {fuel n : ℕ} {A A' : Automaton} (h : G.lrLoop F fuel n A = some A') :
    Relation.ReflTransGen (G.LrStep F) A A' ∧ A'.getUnfinished = none := by
  induction n generalizing A with
  | zero => cases h
  | succ n ih =>
    unfold lrLoop at h
    cases hget : A.getUnfinished with
    | none =>
      rw [hget] at h
      cases h
      exact ⟨.refl, hget⟩
    | some r =>
      obtain ⟨cur, A₁⟩ := r
      rw [hget] at h
      obtain ⟨hcur, rfl⟩ := getUnfinished_some hget
      obtain ⟨A₂, hvisit, h⟩ := Option.bind_eq_some_iff.mp h
      obtain ⟨hsteps, hend⟩ := ih h
      exact ⟨.head (.visit hcur hvisit) hsteps, hend⟩

/-- What `lr` returns is reached by a run, and no state is unfinished. -/
theorem lr_run {fuel : ℕ} {A : Automaton} (h : G.lr F fuel = some A) :
    G.LrRun F A ∧ A.getUnfinished = none := by
  obtain ⟨A₀, hstart, h⟩ := Option.bind_eq_some_iff.mp h
  obtain ⟨hsteps, hend⟩ := lrLoop_steps h
  exact ⟨⟨A₀, hstart, hsteps⟩, hend⟩

end Grammar

/-! ## The items of a visit -/

/-- In a list in which the elements with a property stand in front, taking the elements in front is
filtering. -/
lemma takeWhile_eq_filter {α : Type*} {f : α → Bool} {l : List α}
    (h : l.Pairwise fun x y => f y = true → f x = true) :
    l.takeWhile f = l.filter f ∧ l.dropWhile f = l.filter fun x => !f x := by
  induction l with
  | nil => exact ⟨rfl, rfl⟩
  | cons x l ih =>
    obtain ⟨hx, hl⟩ := List.pairwise_cons.mp h
    cases hfx : f x with
    | true =>
      obtain ⟨htake, hdrop⟩ := ih hl
      simp [hfx, htake, hdrop]
    | false =>
      have hfy : ∀ y ∈ l, f y = false := by
        intro y hy
        cases hfy : f y with
        | true => rw [hx y hy hfy] at hfx; cases hfx
        | false => rfl
      constructor
      · rw [List.takeWhile_cons_of_neg (by rw [hfx]; decide), eq_comm, List.filter_eq_nil_iff]
        intro y hy
        cases List.mem_cons.mp hy with
        | inl he => rw [he, hfx]; decide
        | inr hy => rw [hfy y hy]; decide
      · rw [List.dropWhile_cons_of_neg (by rw [hfx]; decide), eq_comm, List.filter_eq_self]
        intro y hy
        cases List.mem_cons.mp hy with
        | inl he => rw [he, hfx]; rfl
        | inr hy => rw [hfy y hy]; rfl

/-- The groups of a list sorted by the symbol right of the dot: a group consists of all items with
this symbol, no symbol has two groups, and every item is in a group. -/
lemma groups_spec {n : ℕ} {l : List Item} (hn : l.length ≤ n)
    (hl : l.Pairwise fun i j => rodVal i.core ≤ rodVal j.core) :
    (∀ g ∈ groups n l, g.2 = l.filter (fun i => rodVal i.core = g.1) ∧ g.2 ≠ []) ∧
      ((groups n l).map Prod.fst).Nodup ∧ ∀ i ∈ l, rodVal i.core ∈ (groups n l).map Prod.fst := by
  induction n generalizing l with
  | zero =>
    obtain rfl := List.length_eq_zero_iff.mp (Nat.le_zero.mp hn)
    simp [groups]
  | succ n ih =>
    cases l with
    | nil => simp [groups]
    | cons i l =>
      obtain ⟨hi, hl⟩ := List.pairwise_cons.mp hl
      -- the items with the first symbol stand in front
      have hfront : l.Pairwise fun j k => decide (rodVal k.core = rodVal i.core) = true →
          decide (rodVal j.core = rodVal i.core) = true := by
        apply hl.imp_of_mem
        intro j k hj _ hjk hk
        have hij := hi j hj
        rw [decide_eq_true_eq] at hk ⊢
        omega
      obtain ⟨htake, hdrop⟩ := takeWhile_eq_filter hfront
      have hlen : (l.filter fun j => !decide (rodVal j.core = rodVal i.core)).length ≤ n :=
        (List.length_filter_le _ l).trans (Nat.le_of_succ_le_succ hn)
      obtain ⟨hgroup, hnodup, hmem⟩ := ih hlen (hl.filter _)
      unfold groups
      rw [htake, hdrop]
      have hne : ∀ g ∈ groups n (l.filter fun j => !decide (rodVal j.core = rodVal i.core)),
          g.1 ≠ rodVal i.core := by
        intro g hg he
        obtain ⟨hg₂, hg₃⟩ := hgroup g hg
        obtain ⟨j, hj⟩ := List.exists_mem_of_ne_nil _ hg₃
        rw [hg₂, List.mem_filter, List.mem_filter, he] at hj
        simp only [Bool.not_eq_true', decide_eq_false_iff_not, decide_eq_true_eq] at hj
        exact hj.1.2 hj.2
      refine ⟨?_, ?_, ?_⟩
      · intro g hg
        cases List.mem_cons.mp hg with
        | inl he =>
          subst he
          exact ⟨by simp, List.cons_ne_nil _ _⟩
        | inr hg =>
          obtain ⟨hg₂, hg₃⟩ := hgroup g hg
          refine ⟨?_, hg₃⟩
          rw [hg₂, List.filter_filter, List.filter_cons_of_neg]
          · apply List.filter_congr
            intro j _
            by_cases hj : rodVal j.core = g.1
            · simp [hj, hne g hg]
            · simp [hj]
          · have hne' := hne g hg
            simp [Ne.symm hne']
      · rw [List.map_cons, List.nodup_cons]
        refine ⟨?_, hnodup⟩
        rw [List.mem_map]
        rintro ⟨g, hg, he⟩
        exact hne g hg he
      · intro j hj
        rw [List.map_cons, List.mem_cons]
        cases List.mem_cons.mp hj with
        | inl he => rw [he]; exact Or.inl rfl
        | inr hj =>
          by_cases hji : rodVal j.core = rodVal i.core
          · exact Or.inl hji
          · apply Or.inr
            apply hmem
            rw [List.mem_filter]
            simp [hj, hji]

namespace Grammar

variable (G : Grammar) (F : SetTable)

/-- The occurrences in the order in which `lr` has them after sorting. -/
def sortedOccs (K : List Core) : List Occ :=
  ShellSort.shellSort (fun o o' => coreLe o.core o'.core) (G.occs K)

/-- The occurrences with the symbol `x` right of the dot. -/
def dotBefore (K : List Core) (x : ℕ) : List Occ :=
  (G.sortedOccs K).filter fun o => rightOfDot o.core = some x

/-- The empty productions of the closure, as they come behind the sort. -/
def emptyOccs (K : List Core) : List Occ :=
  (G.sortedOccs K).filter fun o => rightOfDot o.core = none

variable {G F}

/-- Sorting only moves the occurrences of items. -/
lemma mem_sortedOccs {K : List Core} {o : Occ} : o ∈ G.sortedOccs K ↔ o ∈ G.occs K :=
  (ShellSort.shellSort_perm _ _).mem_iff

/-- The occurrences with the symbol `x` right of the dot. -/
lemma mem_dotBefore {K : List Core} {x : ℕ} {o : Occ} :
    o ∈ G.dotBefore K x ↔ o ∈ G.occs K ∧ rightOfDot o.core = some x := by
  unfold dotBefore
  rw [List.mem_filter, mem_sortedOccs, decide_eq_true_eq]

/-- The empty productions of the closure are the occurrences without a symbol right of the dot. -/
lemma mem_emptyOccs {K : List Core} {o : Occ} :
    o ∈ G.emptyOccs K ↔ o ∈ G.occs K ∧ rightOfDot o.core = none := by
  unfold emptyOccs
  rw [List.mem_filter, mem_sortedOccs, decide_eq_true_eq]

/-- The occurrences with a symbol right of the dot are the items of the closure. -/
lemma exists_mem_occs {K : List Core} {c : Core} {x : ℕ} :
    (∃ o ∈ G.occs K, o.core = c ∧ rightOfDot o.core = some x) ↔
      G.InClosure K c ∧ rightOfDot c = some x := by
  constructor
  · rintro ⟨o, ho, rfl, hx⟩
    refine ⟨?_, hx⟩
    cases o with
    | clos p =>
      obtain ⟨c, y, hc, hy, hn, hp⟩ := mem_closureProds.mp (clos_mem_occs.mp ho)
      exact .clos hc hy hn hp
    | kern k c => exact .kern (List.mem_of_getElem? (kern_mem_occs.mp ho).1)
  · rintro ⟨hc, hx⟩
    cases hc with
    | kern hc =>
      obtain ⟨k, hk⟩ := List.mem_iff_getElem?.mp hc
      exact ⟨.kern k c, kern_mem_occs.mpr ⟨hk, Option.isSome_iff_exists.mpr ⟨x, hx⟩⟩, rfl, hx⟩
    | @clos d y p hd hy hn hp =>
      exact ⟨.clos p, clos_mem_occs.mpr (mem_closureProds.mpr ⟨d, y, hd, hy, hn, hp⟩), rfl, hx⟩

/-- An occurrence is an item of a production of the grammar. -/
lemma prod_mem_of_mem_occs {K : List Core} (hK : ∀ c ∈ K, c.1 ∈ G.prods) {o : Occ}
    (ho : o ∈ G.occs K) : o.core.1 ∈ G.prods := by
  cases o with
  | clos p => exact mem_prods_of_mem_closureProds (clos_mem_occs.mp ho)
  | kern k c => exact hK c (List.mem_of_getElem? (kern_mem_occs.mp ho).1)

/-- The symbols of right-hand sides are not `0`. -/
lemma rodVal_pos {c : Core} (hc : c.1 ∈ G.prods) {x : ℕ} (hx : rightOfDot c = some x) : 0 < x := by
  rcases G.rhs_mem c.1 hc x (List.mem_of_getElem? hx) with h | h | h
  · exact h.1
  · exact lt_of_lt_of_le (by decide) h.1
  · exact lt_of_lt_of_le (by decide) h.1

/-- The value of the symbol right of the dot tells which symbol it is. -/
lemma rightOfDot_eq_some_iff {c : Core} (hc : c.1 ∈ G.prods) {x : ℕ} :
    rightOfDot c = some x ↔ rodVal c = x ∧ x ≠ 0 := by
  unfold rodVal
  constructor
  · intro hx
    rw [hx]
    exact ⟨rfl, (rodVal_pos hc hx).ne'⟩
  · rintro ⟨hx, hne⟩
    cases hr : rightOfDot c with
    | none => rw [hr] at hx; exact absurd hx.symm hne
    | some y => rw [hr] at hx; exact congrArg some hx

/-- The value `0` stands for no symbol right of the dot. -/
lemma rightOfDot_eq_none_iff {c : Core} (hc : c.1 ∈ G.prods) :
    rightOfDot c = none ↔ rodVal c = 0 := by
  unfold rodVal
  cases hr : rightOfDot c with
  | none => simp
  | some y => simp [(rodVal_pos hc hr).ne']

/-- Only the items of empty productions have nothing right of the dot. -/
lemma rhs_eq_nil_iff {K : List Core} {o : Occ} (ho : o ∈ G.occs K) :
    o.core.1.rhs = [] ↔ rightOfDot o.core = none := by
  cases o with
  | clos p => simp [Occ.core, rightOfDot]
  | kern k c =>
    obtain ⟨x, hx⟩ := Option.isSome_iff_exists.mp (kern_mem_occs.mp ho).2
    change c.1.rhs = [] ↔ rightOfDot c = none
    rw [hx]
    simp only [reduceCtorEq, iff_false]
    intro hnil
    simp [rightOfDot, hnil] at hx

/-- The occurrences are sorted by the symbol right of the dot. -/
lemma pairwise_sortedOccs (K : List Core) :
    (G.sortedOccs K).Pairwise fun o o' => rodVal o.core ≤ rodVal o'.core := by
  have htotal : ∀ o o' : Occ, coreLe o.core o'.core = true ∨ coreLe o'.core o.core = true := by
    intro o o'
    unfold coreLe
    split_ifs <;> simp only [decide_eq_true_eq] <;> omega
  have htrans : ∀ o₁ o₂ o₃ : Occ, coreLe o₁.core o₂.core = true → coreLe o₂.core o₃.core = true →
      coreLe o₁.core o₃.core = true := by
    intro o₁ o₂ o₃
    unfold coreLe
    split_ifs <;> simp only [decide_eq_true_eq] <;> omega
  apply (ShellSort.pairwise_shellSort htrans htotal _).imp
  intro o o' hle
  unfold coreLe at hle
  split_ifs at hle <;> simp only [decide_eq_true_eq] at hle <;> omega

end Grammar

/-! ## What a visit does with the items -/

/-- The item of an occurrence, when `kernel` are the items of the kernel and `cl` those of the
closure. -/
def itemAt (kernel cl : List Item) : Occ → Item
  | .clos p => ⟨p, 0, closLook cl p⟩
  | .kern k c => ⟨c.1, c.2, (kernel[k]?.map Item.lookaheads).getD ∅⟩

/-- The item of an occurrence is an item of the same production with the same dot. -/
@[simp] lemma core_itemAt (kernel cl : List Item) (o : Occ) :
    (itemAt kernel cl o).core = o.core := by
  cases o <;> rfl

/-- The item at position `k` of the list has the lookahead `t`. -/
def Slot (items : List Item) (k t : ℕ) : Prop := ∃ i, items[k]? = some i ∧ t ∈ i.lookaheads

namespace Grammar

variable {G : Grammar} {F : SetTable} {kernel cl items : List Item}

/-- The lookaheads of an item of the kernel are those that the kernel has. -/
lemma occLook_kern {k t : ℕ} {c : Core} :
    G.OccLook F kernel (.kern k c) t ↔ (kernel.map Item.core)[k]? = some c ∧ Slot kernel k t := by
  rw [List.getElem?_map, Option.map_eq_some_iff]
  constructor
  · intro h
    cases h with
    | kern hk ht => exact ⟨⟨_, hk, rfl⟩, _, hk, ht⟩
  · rintro ⟨⟨i, hi, rfl⟩, j, hj, ht⟩
    rw [hi] at hj
    cases hj
    exact .kern hi ht

/-- With more lookaheads in the kernel there are more lookaheads in the closure. -/
lemma OccLook.mono {kernel' : List Item} (hcore : kernel'.map Item.core = kernel.map Item.core)
    (hslot : ∀ k t, Slot kernel k t → Slot kernel' k t) {o : Occ} {t : ℕ}
    (h : G.OccLook F kernel o t) : G.OccLook F kernel' o t := by
  induction h with
  | @kern k i t hi ht =>
    rw [occLook_kern, hcore, List.getElem?_map, hi]
    exact ⟨rfl, hslot k t ⟨i, hi, ht⟩⟩
  | first ho hx hn hp ht => exact .first (hcore ▸ ho) hx hn hp ht
  | inherit _ hx hn hp hnull ih => exact .inherit ih hx hn hp hnull

/-- The items of a visit have just the lookaheads that their occurrences must have. -/
lemma mem_lookaheads_itemAt {fuel : ℕ} (hcl : G.closure F fuel kernel = some cl) {o : Occ} {t : ℕ}
    (ho : o ∈ G.occs (kernel.map Item.core)) :
    t ∈ (itemAt kernel cl o).lookaheads ↔ G.OccLook F kernel o t := by
  obtain ⟨hprods, -, hlook⟩ := closure_spec hcl
  cases o with
  | clos p =>
    have hnodup : (cl.map Item.prod).Nodup := hprods ▸ nodup_closureProds _
    rw [← hlook]
    exact mem_closLook hnodup
  | kern k c =>
    obtain ⟨hk, -⟩ := kern_mem_occs.mp ho
    rw [occLook_kern]
    rw [List.getElem?_map, Option.map_eq_some_iff] at hk ⊢
    obtain ⟨i, hi, rfl⟩ := hk
    simp only [itemAt, Slot, hi, Option.map_some, Option.getD_some]
    constructor
    · intro ht
      exact ⟨⟨i, rfl, rfl⟩, i, rfl, ht⟩
    · rintro ⟨-, j, hj, ht⟩
      cases hj
      exact ht

/-- The lookaheads that are found for a production are those of its item. -/
lemma closLook_of_mem (hnodup : (cl.map Item.prod).Nodup) {i : Item} (hi : i ∈ cl) :
    closLook cl i.prod = i.lookaheads := by
  ext t
  rw [mem_closLook hnodup]
  constructor
  · rintro ⟨j, hj, hji, ht⟩
    rw [List.inj_on_of_nodup_map hnodup hi hj hji.symm]
    exact ht
  · exact fun ht => ⟨i, hi, rfl, ht⟩

/-- The items that `closure` and `kclosure` put into the array are those of the occurrences. -/
lemma kclosure_eq {fuel : ℕ} (hcl : G.closure F fuel kernel = some cl)
    (h : kclosure kernel cl = some items) :
    items = (G.occs (kernel.map Item.core)).map (itemAt kernel cl) := by
  obtain ⟨hprods, hzero, -⟩ := closure_spec hcl
  have hnodup : (cl.map Item.prod).Nodup := hprods ▸ nodup_closureProds _
  unfold kclosure at h
  dsimp only at h
  split at h
  · cases h
  · cases h
    unfold occs
    rw [List.map_append, ← hprods, List.map_map, List.map_map, List.map_map]
    congr 1
    · conv_lhs => rw [← List.map_id cl]
      apply List.map_congr_left
      intro i hi
      dsimp only [Function.comp, itemAt, id]
      rw [closLook_of_mem hnodup hi, ← hzero i hi]
    · rw [List.zipIdx_map, List.filter_map, List.map_map]
      have hfst : kernel = kernel.zipIdx.map Prod.fst := (List.zipIdx_map_fst 0 kernel).symm
      conv_lhs => rw [hfst]
      rw [List.filter_map]
      apply List.map_congr_left
      rintro ⟨i, k⟩ hik
      have hk := List.mem_zipIdx_iff_getElem?.mp (List.mem_of_mem_filter hik)
      simp only at hk
      simp [itemAt, Item.core, hk]

/-- The items of a visit behind the sort are those of the occurrences, in their order. -/
lemma sortItems_eq {fuel : ℕ} (hcl : G.closure F fuel kernel = some cl)
    (h : kclosure kernel cl = some items) :
    sortItems items = (G.sortedOccs (kernel.map Item.core)).map (itemAt kernel cl) := by
  rw [kclosure_eq hcl h]
  unfold sortItems sortedOccs
  apply ShellSort.map_shellSort
  intro o o'
  rw [core_itemAt, core_itemAt]

section Visit

variable {K : List Core} {f : Occ → Item}

/-- Adding lookaheads keeps the productions and the dots. -/
lemma map_core_zipWith {old new : List Item} (hlen : old.length = new.length) :
    (List.zipWith Item.union old new).map Item.core = old.map Item.core := by
  apply List.ext_getElem?
  intro k
  rw [List.getElem?_map, List.getElem?_map, List.getElem?_zipWith]
  by_cases hk : k < old.length
  · rw [List.getElem?_eq_getElem hk, List.getElem?_eq_getElem (hlen ▸ hk)]
    rfl
  · rw [List.getElem?_eq_none (Nat.le_of_not_lt hk)]

/-- Adding lookaheads position by position gives each item those of both lists. -/
lemma slot_zipWith {old new : List Item} (hlen : old.length = new.length) {k t : ℕ} :
    Slot (List.zipWith Item.union old new) k t ↔ Slot old k t ∨ Slot new k t := by
  unfold Slot
  rw [List.getElem?_zipWith]
  by_cases hk : k < old.length
  · rw [List.getElem?_eq_getElem hk, List.getElem?_eq_getElem (hlen ▸ hk)]
    simp [Item.union]
  · rw [List.getElem?_eq_none (Nat.le_of_not_lt hk),
      List.getElem?_eq_none (hlen ▸ Nat.le_of_not_lt hk)]
    simp

/-- The items of empty productions stand in front of the sorted items. -/
lemma takeWhile_sortedOccs (hK : ∀ c ∈ K, c.1 ∈ G.prods) (hf : ∀ o, (f o).core = o.core) :
    ((G.sortedOccs K).map f).takeWhile (fun i => i.prod.rhs = []) = (G.emptyOccs K).map f ∧
      ((G.sortedOccs K).map f).dropWhile (fun i => i.prod.rhs = []) =
        ((G.sortedOccs K).filter fun o => (rightOfDot o.core).isSome).map f := by
  have hprod : ∀ o, (f o).prod = o.core.1 := fun o => congrArg Prod.fst (hf o)
  have hempty : ∀ o ∈ G.sortedOccs K,
      decide ((f o).prod.rhs = []) = decide (rightOfDot o.core = none) := by
    intro o ho
    rw [decide_eq_decide, hprod, rhs_eq_nil_iff (mem_sortedOccs.mp ho)]
  have hfront : (G.sortedOccs K).Pairwise fun o o' =>
      decide ((f o').prod.rhs = []) = true → decide ((f o).prod.rhs = []) = true := by
    apply (pairwise_sortedOccs K).imp_of_mem
    intro o o' ho ho' hle h
    rw [hempty o' ho', decide_eq_true_eq,
      rightOfDot_eq_none_iff (prod_mem_of_mem_occs hK (mem_sortedOccs.mp ho'))] at h
    rw [hempty o ho, decide_eq_true_eq,
      rightOfDot_eq_none_iff (prod_mem_of_mem_occs hK (mem_sortedOccs.mp ho))]
    omega
  obtain ⟨htake, hdrop⟩ := takeWhile_eq_filter hfront
  rw [List.takeWhile_map, List.dropWhile_map]
  constructor
  · refine congrArg (List.map f) (htake.trans ?_)
    exact List.filter_congr hempty
  · refine congrArg (List.map f) (hdrop.trans ?_)
    apply List.filter_congr
    intro o ho
    rw [hempty o ho]
    cases rightOfDot o.core <;> rfl

/-- What `move_eps` does: the items of empty productions are those of the closure, their lookaheads
are merged into the old ones, and the items with a symbol right of the dot are left. -/
lemma moveEps_spec (hK : ∀ c ∈ K, c.1 ∈ G.prods) (hf : ∀ o, (f o).core = o.core)
    {old eps rest : List Item}
    (hold : old = [] ∨ old.map Item.core = (G.emptyOccs K).map Occ.core)
    (h : moveEps old ((G.sortedOccs K).map f) = some (eps, rest)) :
    eps.map Item.core = (G.emptyOccs K).map Occ.core ∧
      (∀ k t, Slot eps k t ↔ Slot old k t ∨ Slot ((G.emptyOccs K).map f) k t) ∧
      rest = ((G.sortedOccs K).filter fun o => (rightOfDot o.core).isSome).map f := by
  obtain ⟨htake, hdrop⟩ := takeWhile_sortedOccs hK hf
  have hcore : ((G.emptyOccs K).map f).map Item.core = (G.emptyOccs K).map Occ.core := by
    rw [List.map_map]
    exact List.map_congr_left fun o _ => hf o
  have hsplit := List.takeWhile_append_dropWhile (p := fun i : Item => decide (i.prod.rhs = []))
    (l := (G.sortedOccs K).map f)
  rw [htake, hdrop] at hsplit
  have hrest : ((G.sortedOccs K).map f).drop ((G.emptyOccs K).map f).length =
      ((G.sortedOccs K).filter fun o => (rightOfDot o.core).isSome).map f := by
    conv_lhs => rw [← hsplit]
    exact List.drop_left
  unfold moveEps at h
  dsimp only at h
  rw [htake, hrest] at h
  split at h
  · cases h
  · obtain ⟨rfl, rfl⟩ := Prod.mk.inj (Option.some.inj h)
    -- where items are merged, the old ones are those of the closure
    have hlen : old ≠ [] → old.length = ((G.emptyOccs K).map f).length := by
      intro hne
      have hlen := congrArg List.length (hold.resolve_left hne)
      rwa [List.length_map, List.length_map, ← List.length_map (f := f)] at hlen
    refine ⟨?_, ?_, rfl⟩
    · split
      · rename_i hnil
        rw [List.map_eq_nil_iff] at hnil
        rcases hold with rfl | hold
        · rw [hnil]
          rfl
        · exact hold
      · split
        · exact hcore
        · rename_i hne
          rw [map_core_zipWith (hlen hne)]
          exact hold.resolve_left hne
    · intro k t
      split
      · rename_i hnil
        simp [hnil, Slot]
      · split
        · rename_i hnil
          simp [hnil, Slot]
        · rename_i hne
          exact slot_zipWith (hlen hne)

/-- The groups of the items with a symbol right of the dot. -/
lemma groups_sortedOccs (hK : ∀ c ∈ K, c.1 ∈ G.prods) (hf : ∀ o, (f o).core = o.core)
    {rest : List Item}
    (hrest : rest = ((G.sortedOccs K).filter fun o => (rightOfDot o.core).isSome).map f) :
    (∀ g ∈ groups rest.length rest, g.2 = (G.dotBefore K g.1).map f ∧ G.dotBefore K g.1 ≠ []) ∧
      ((groups rest.length rest).map Prod.fst).Nodup ∧
      ∀ x, G.dotBefore K x ≠ [] → x ∈ (groups rest.length rest).map Prod.fst := by
  have hsorted : rest.Pairwise fun i j => rodVal i.core ≤ rodVal j.core := by
    rw [hrest, List.pairwise_map]
    apply ((pairwise_sortedOccs K).filter _).imp
    intro o o' hle
    rwa [hf, hf]
  have hmem : ∀ i, i ∈ rest ↔ ∃ o ∈ G.occs K, (rightOfDot o.core).isSome ∧ f o = i := by
    intro i
    simp only [hrest, List.mem_map, List.mem_filter, mem_sortedOccs, and_assoc]
  obtain ⟨hgroup, hnodup, hall⟩ := groups_spec le_rfl hsorted
  refine ⟨?_, hnodup, ?_⟩
  · intro g hg
    obtain ⟨hg₂, hne⟩ := hgroup g hg
    -- the symbol of a group is not `0`
    have hx : g.1 ≠ 0 := by
      obtain ⟨i, hi⟩ := List.exists_mem_of_ne_nil _ hne
      rw [hg₂, List.mem_filter, decide_eq_true_eq] at hi
      obtain ⟨o, ho, hsome, rfl⟩ := (hmem i).mp hi.1
      obtain ⟨x, hx⟩ := Option.isSome_iff_exists.mp hsome
      have hpos := rodVal_pos (prod_mem_of_mem_occs hK ho) hx
      rw [rightOfDot_eq_some_iff (prod_mem_of_mem_occs hK ho)] at hx
      rw [← hi.2, hf, hx.1]
      omega
    have heq : g.2 = (G.dotBefore K g.1).map f := by
      rw [hg₂, hrest, List.filter_map, List.filter_filter]
      refine congrArg (List.map f) (List.filter_congr ?_)
      intro o ho
      have hiff := rightOfDot_eq_some_iff (prod_mem_of_mem_occs hK (mem_sortedOccs.mp ho))
        (x := g.1)
      dsimp only [Function.comp]
      rw [hf]
      by_cases hr : rightOfDot o.core = some g.1
      · simp [hr, (hiff.mp hr).1]
      · have hval : rodVal o.core ≠ g.1 := fun hval => hr (hiff.mpr ⟨hval, hx⟩)
        simp [hr, hval]
    refine ⟨heq, ?_⟩
    intro hnil
    rw [hnil] at heq
    exact hne heq
  · intro x hx
    obtain ⟨o, ho⟩ := List.exists_mem_of_ne_nil _ hx
    obtain ⟨ho, hox⟩ := mem_dotBefore.mp ho
    have hi := hall (f o) ((hmem _).mpr ⟨o, ho, by rw [hox]; rfl, rfl⟩)
    rwa [hf, ((rightOfDot_eq_some_iff (prod_mem_of_mem_occs hK ho)).mp hox).1] at hi

end Visit

variable (G F) in
/-- The moved items of a group: the symbol, and the items that `lr` passes on to the state behind
it. -/
structure Moving (kernel : List Item) (g : ℕ × List Item) : Prop where
  /-- The symbol stands right of a dot. -/
  ne_nil : G.dotBefore (kernel.map Item.core) g.1 ≠ []
  /-- The dots have been moved. -/
  core : g.2.map Item.core = (G.dotBefore (kernel.map Item.core) g.1).map fun o => advance o.core
  /-- The lookaheads are those of the closure. -/
  slot : ∀ k t, Slot g.2 k t ↔
    ∃ o, (G.dotBefore (kernel.map Item.core) g.1)[k]? = some o ∧ G.OccLook F kernel o t

/-- What a visit does: it stores the items of empty productions, makes the transitions of the
groups, one for every symbol right of a dot, and marks the state as closed. -/
lemma visit_spec {fuel cur : ℕ} {A A' : Automaton} (h : G.visit F fuel A cur = some A')
    (hK : ∀ c ∈ A.cores cur, c.1 ∈ G.prods)
    (hold : (A.state cur).epsilonItems = [] ∨ (A.state cur).epsilonItems.map Item.core =
      (G.emptyOccs (A.cores cur)).map Occ.core) :
    ∃ (eps : List Item) (gs : List (ℕ × List Item)) (A₁ : Automaton),
      eps.map Item.core = (G.emptyOccs (A.cores cur)).map Occ.core ∧
      (∀ k t, Slot eps k t ↔ Slot (A.state cur).epsilonItems k t ∨
        ∃ o, (G.emptyOccs (A.cores cur))[k]? = some o ∧
          G.OccLook F (A.kernel cur) o t) ∧
      (∀ g ∈ gs, G.Moving F (A.kernel cur) g) ∧ (gs.map Prod.fst).Nodup ∧
      (∀ x, G.dotBefore (A.cores cur) x ≠ [] → x ∈ gs.map Prod.fst) ∧
      gs.foldlM (fun B g => B.transition cur g.1 g.2) (A.setEpsilon cur eps) = some A₁ ∧
      A' = A₁.setClosed cur := by
  unfold visit at h
  simp only [Option.bind_eq_bind, Option.bind_eq_some_iff] at h
  obtain ⟨cl, hcl, items, hitems, ⟨eps, rest⟩, hmove, A₁, hfold, h⟩ := h
  cases h
  rw [sortItems_eq hcl hitems] at hmove
  obtain ⟨hcore, hslot, hrest⟩ := moveEps_spec hK (core_itemAt _ _) hold hmove
  obtain ⟨hgroup, hnodup, hall⟩ := groups_sortedOccs hK (core_itemAt _ _) hrest
  have hfst : ((groups rest.length rest).map fun g => (g.1, g.2.map Item.movedot)).map Prod.fst =
      (groups rest.length rest).map Prod.fst := by
    rw [List.map_map]
    rfl
  refine ⟨eps, (groups rest.length rest).map fun g => (g.1, g.2.map Item.movedot), A₁, hcore,
    ?_, ?_, ?_, ?_, ?_, rfl⟩
  · intro k t
    rw [hslot]
    apply or_congr_right
    unfold Slot
    simp only [List.getElem?_map, Option.map_eq_some_iff, exists_exists_and_eq_and]
    apply exists_congr
    intro o
    apply and_congr_right
    intro ho
    exact mem_lookaheads_itemAt hcl (mem_emptyOccs.mp (List.mem_of_getElem? ho)).1
  · intro g' hg'
    obtain ⟨g, hg, rfl⟩ := List.mem_map.mp hg'
    obtain ⟨heq, hne⟩ := hgroup g hg
    refine ⟨hne, ?_, ?_⟩
    · dsimp only
      rw [heq, List.map_map, List.map_map]
      apply List.map_congr_left
      intro o _
      exact congrArg advance (core_itemAt _ _ o)
    · intro k t
      dsimp only
      rw [heq, List.map_map]
      unfold Slot
      simp only [List.getElem?_map, Option.map_eq_some_iff, exists_exists_and_eq_and]
      apply exists_congr
      intro o
      apply and_congr_right
      intro ho
      exact mem_lookaheads_itemAt hcl (mem_dotBefore.mp (List.mem_of_getElem? ho)).1
  · rw [hfst]
    exact hnodup
  · rw [hfst]
    exact hall
  · rw [List.foldlM_map]
    exact hfold

end Grammar

/-! ## What a transition does -/

namespace Automaton

variable {G : Grammar} {A A' : Automaton}

/-- In `newstate` items are compared by numbers, which is as good as comparing productions. -/
lemma map_key_eq_iff {l l' : List Item} (hl : ∀ c ∈ l.map Item.core, c.1 ∈ G.prods)
    (hl' : ∀ c ∈ l'.map Item.core, c.1 ∈ G.prods) :
    l.map Item.key = l'.map Item.key ↔ l.map Item.core = l'.map Item.core := by
  constructor
  · intro h
    induction l generalizing l' with
    | nil =>
      cases l' with
      | nil => rfl
      | cons i' l' => cases h
    | cons i l ih =>
      cases l' with
      | nil => cases h
      | cons i' l' =>
        rw [List.map_cons, List.map_cons, List.cons.injEq] at h ⊢
        rw [List.map_cons, List.forall_mem_cons] at hl hl'
        refine ⟨?_, ih hl.2 hl'.2 h.2⟩
        obtain ⟨hnum, hdot⟩ := Prod.mk.inj h.1
        exact Prod.ext (eq_of_num_eq hl.1 hl'.1 hnum) hdot
  · intro h
    have hkey : Item.key = (fun c : Core => (c.1.num, c.2)) ∘ Item.core := rfl
    rw [hkey, ← List.map_map, ← List.map_map, h]

/-- The two cases of `newstate`: the state is appended, or it exists. -/
lemma newstate_cases {items : List Item} {next : ℕ} {isnew : NewState}
    (h : A.newstate items = some (A', next, isnew)) :
    (isnew = .new ∧ next = A.nstates ∧
        (∀ m < A.nstates, (A.kernel m).map Item.key ≠ items.map Item.key) ∧
        A' = A.addState items) ∨
      (isnew ≠ .new ∧ next < A.nstates ∧ (A.kernel next).map Item.key = items.map Item.key ∧
        A' = A) := by
  unfold newstate at h
  split at h
  · cases h
  · split at h
    · rename_i n hn
      have hmem := List.mem_range.mp (List.mem_of_find?_eq_some hn)
      have hkey := List.find?_some hn
      cases h
      refine Or.inr ⟨?_, hmem, of_decide_eq_true hkey, rfl⟩
      split <;> decide
    · rename_i hnone
      split at h
      · cases h
      · cases h
        refine Or.inl ⟨rfl, rfl, ?_, rfl⟩
        intro m hm hkey
        exact List.find?_eq_none.mp hnone m (List.mem_range.mpr hm) (decide_eq_true hkey)

/-- A state that has been made unfinished is added to the set, and nothing else changes. -/
lemma addUnfinished_eq {n : ℕ} (h : A.addUnfinished n = some A') :
    A' = { A with unfinished := insert n A.unfinished } := by
  unfold addUnfinished at h
  split at h
  · rename_i hmem
    cases h
    rw [Finset.insert_eq_of_mem hmem]
  · split at h
    · cases h
    · cases h
      rfl

/-- Adding a transition does not change the states. -/
@[simp] lemma state_link (cur val next : ℕ) : (A.link cur val next).state = A.state := by
  unfold link
  split_ifs <;> rfl

/-- Adding a transition does not add a state. -/
@[simp] lemma nstates_link (cur val next : ℕ) : (A.link cur val next).nstates = A.nstates := by
  unfold link
  split_ifs <;> rfl

/-- Adding a transition does not change which states are unfinished. -/
@[simp] lemma unfinished_link (cur val next : ℕ) :
    (A.link cur val next).unfinished = A.unfinished := by
  unfold link
  split_ifs <;> rfl

/-- The entries behind a new transition are those in front of it, and the new one. -/
lemma targets_link {cur val next : ℕ} (hval : IsTerm val ∨ minNonterm ≤ val) (m y : ℕ) :
    (A.link cur val next).targets m y =
      if m = cur ∧ y = val ∧ (A.state cur).closed = false then (next : ℤ) :: A.targets m y
      else A.targets m y := by
  unfold link
  cases hclosed : (A.state cur).closed with
  | true => simp
  | false =>
    by_cases hm : m = cur
    · subst hm
      by_cases hterm : IsTerm val
      · by_cases hy : y = val
        · simp [hterm, hy, targets, addAction]
        · by_cases hyterm : IsTerm y
          · simp [hterm, hy, hyterm, targets, addAction, Ne.symm hy]
          · simp [hterm, hy, hyterm, targets, addAction]
      · have hadj : adjVal val + minNonterm = val := Nat.sub_add_cancel (hval.resolve_left hterm)
        by_cases hy : y = val
        · simp [hterm, hy, targets, addGoto, hadj]
        · by_cases hyterm : IsTerm y
          · simp [hterm, hy, hyterm, targets, addGoto]
          · simp [hterm, hy, hyterm, targets, addGoto, hadj, Ne.symm hy]
    · by_cases hterm : IsTerm val
      · simp [hm, hterm, targets, addAction]
      · simp [hm, hterm, targets, addGoto]

/-- Entries of the chain of actions belong to terminals. -/
lemma actions_link {cur val next m : ℕ} {a : Act} (h : a ∈ (A.link cur val next).actions m) :
    a ∈ A.actions m ∨ IsTerm a.sym := by
  unfold link at h
  split_ifs at h with hclosed hterm
  · exact Or.inl h
  · unfold addAction at h
    dsimp only at h
    by_cases hm : m = cur
    · subst hm
      rw [Function.update_self] at h
      cases List.mem_cons.mp h with
      | inl he => rw [he]; exact Or.inr hterm
      | inr h => exact Or.inl h
    · rw [Function.update_of_ne hm] at h
      exact Or.inl h
  · exact Or.inl h

/-- What `merge_lookaheads` does with items that differ in their lookaheads only. -/
lemma mergeLookaheads_spec {dst src : List Item} {r : List Item × Bool}
    (hcore : dst.map Item.core = src.map Item.core) (h : mergeLookaheads dst src = some r) :
    r.1.map Item.core = dst.map Item.core ∧ (∀ k t, Slot r.1 k t ↔ Slot dst k t ∨ Slot src k t) ∧
      (r.2 = false → r.1 = dst) := by
  induction dst generalizing src r with
  | nil =>
    rw [List.map_nil, eq_comm, List.map_eq_nil_iff] at hcore
    subst hcore
    cases h
    simp [Slot]
  | cons d dst ih =>
    cases src with
    | nil => cases hcore
    | cons s src =>
      rw [List.map_cons, List.map_cons, List.cons.injEq] at hcore
      unfold mergeLookaheads at h
      split at h
      · cases h
      · obtain ⟨r', hr', rfl⟩ := Option.map_eq_some_iff.mp h
        obtain ⟨hr₁, hr₂, hr₃⟩ := ih hcore.2 hr'
        have htail : ∀ (i : Item) (k t : ℕ), Slot (i :: r'.1) (k + 1) t ↔
            Slot (d :: dst) (k + 1) t ∨ Slot (s :: src) (k + 1) t := fun i k t => hr₂ k t
        by_cases hsub : s.lookaheads ⊆ d.lookaheads
        · rw [if_pos hsub]
          refine ⟨by rw [List.map_cons, hr₁, List.map_cons], ?_, ?_⟩
          · intro k t
            cases k with
            | zero => simpa [Slot] using @hsub t
            | succ k => exact htail d k t
          · intro hflag
            rw [hr₃ hflag]
        · rw [if_neg hsub]
          refine ⟨by rw [List.map_cons, hr₁, List.map_cons]; rfl, ?_, ?_⟩
          · intro k t
            cases k with
            | zero => simp [Slot, Item.union]
            | succ k => exact htail _ k t
          · intro hflag
            cases hflag

/-- What a transition from a state does to the automaton. -/
structure Moved (A A' : Automaton) (cur x : ℕ) (items : List Item) (next : ℕ) : Prop where
  /-- States are never removed. -/
  nstates_le : A.nstates ≤ A'.nstates
  /-- The transition leads to a state. -/
  next_lt : next < A'.nstates
  /-- No other state is appended. -/
  lt_or_eq : ∀ m < A'.nstates, m < A.nstates ∨ m = next
  /-- The kernels keep their productions and dots. -/
  cores : ∀ m < A.nstates, A'.cores m = A.cores m
  /-- The kernel of the next state consists of the items. -/
  next_cores : A'.cores next = items.map Item.core
  /-- The lookaheads of the items are merged into the kernel of the next state. -/
  slot : ∀ m k t, Slot (A'.kernel m) k t ↔ Slot (A.kernel m) k t ∨ (m = next ∧ Slot items k t)
  /-- States that are not unfinished have not changed. -/
  kept : ∀ m < A'.nstates, m ∉ A'.unfinished →
    m < A.nstates ∧ m ∉ A.unfinished ∧ A'.kernel m = A.kernel m
  /-- Only states become unfinished. -/
  unfinished_subset : A'.unfinished ⊆ insert next A.unfinished
  /-- Nothing happens to the items of empty productions. -/
  epsilonItems : ∀ m, (A'.state m).epsilonItems = (A.state m).epsilonItems
  /-- No state is marked as closed. -/
  closed : ∀ m, (A'.state m).closed = (A.state m).closed
  /-- The transition is added unless the state is closed. -/
  targets : ∀ m y, A'.targets m y =
    if m = cur ∧ y = x ∧ (A.state cur).closed = false then (next : ℤ) :: A.targets m y
    else A.targets m y
  /-- The chain of actions has entries for terminals. -/
  actions : ∀ m, ∀ a ∈ A'.actions m, a ∈ A.actions m ∨ IsTerm a.sym
  /-- There is nothing behind the states. -/
  fresh : ∀ m, A'.nstates ≤ m → A'.state m = A.state m
  /-- A state is appended only if no other state has these items. -/
  distinct : A.nstates ≤ next → ∀ m < A.nstates, A.cores m ≠ items.map Item.core

/-- A transition changes the kernel of the next state, appends this state if it is new, and may add
to the unfinished states. -/
lemma moved_of_update {cur x next : ℕ} {items K : List Item}
    (hstate : A'.state = Function.update A.state next { A.state next with kernelItems := K })
    (hnstates : (A'.nstates = A.nstates ∧ next < A.nstates ∧ A.cores next = items.map Item.core) ∨
      (A'.nstates = A.nstates + 1 ∧ next = A.nstates ∧
        ∀ m < A.nstates, A.cores m ≠ items.map Item.core))
    (hcore : K.map Item.core = items.map Item.core)
    (hslot : ∀ k t, Slot K k t ↔ Slot (A.kernel next) k t ∨ Slot items k t)
    (hunf : A'.unfinished = insert next A.unfinished ∨
      (A'.unfinished = A.unfinished ∧ next < A.nstates ∧ K = A.kernel next))
    (htargets : ∀ m y, A'.targets m y =
      if m = cur ∧ y = x ∧ (A.state cur).closed = false then (next : ℤ) :: A.targets m y
      else A.targets m y)
    (hactions : ∀ m, ∀ a ∈ A'.actions m, a ∈ A.actions m ∨ IsTerm a.sym) :
    Moved A A' cur x items next := by
  have hne : ∀ m, m ≠ next → A'.state m = A.state m := by
    intro m hm
    rw [hstate, Function.update_of_ne hm]
  have hnext : A'.state next = { A.state next with kernelItems := K } := by
    rw [hstate, Function.update_self]
  have hnextCores : A'.cores next = items.map Item.core := by
    rw [← hcore, Automaton.cores, kernel, hnext]
  refine ⟨?_, ?_, ?_, ?_, hnextCores, ?_, ?_, ?_, ?_, ?_, htargets, hactions, ?_, ?_⟩
  · omega
  · omega
  · omega
  · intro m hm
    by_cases he : m = next
    · subst he
      rcases hnstates with ⟨-, -, hc⟩ | ⟨-, hlt, -⟩
      · rw [hnextCores, hc]
      · omega
    · rw [Automaton.cores, Automaton.cores, kernel, kernel, hne m he]
  · intro m k t
    by_cases he : m = next
    · subst he
      have hk : A'.kernel m = K := by rw [kernel, hnext]
      rw [hk, hslot]
      simp
    · have hk : A'.kernel m = A.kernel m := by rw [kernel, kernel, hne m he]
      rw [hk]
      simp [he]
  · intro m hm hnot
    rcases hunf with hunf | ⟨hunf, hlt, hK⟩
    · rw [hunf, Finset.mem_insert, not_or] at hnot
      refine ⟨?_, hnot.2, ?_⟩
      · have hm' := hnot.1
        omega
      · rw [kernel, kernel, hne m hnot.1]
    · rw [hunf] at hnot
      refine ⟨by omega, hnot, ?_⟩
      by_cases he : m = next
      · subst he
        rw [kernel, hnext, ← hK]
      · rw [kernel, kernel, hne m he]
  · rcases hunf with hunf | ⟨hunf, -, -⟩
    · rw [hunf]
    · rw [hunf]
      exact Finset.subset_insert _ _
  · intro m
    by_cases he : m = next
    · rw [he, hnext]
    · rw [hne m he]
  · intro m
    by_cases he : m = next
    · rw [he, hnext]
    · rw [hne m he]
  · intro m hm
    apply hne
    omega
  · intro hle m hm
    rcases hnstates with ⟨-, hlt, -⟩ | ⟨-, -, hdistinct⟩
    · omega
    · exact hdistinct m hm

/-- `transition` adds one transition and changes the kernel behind it, as `Moved` says. -/
lemma transition_spec {cur x : ℕ} {items : List Item} (hcur : cur < A.nstates)
    (hfresh : ∀ m, A.nstates ≤ m → A.state m = .none)
    (hA : ∀ m, ∀ c ∈ A.cores m, c.1 ∈ G.prods) (hitems : ∀ c ∈ items.map Item.core, c.1 ∈ G.prods)
    (hx : IsTerm x ∨ minNonterm ≤ x) (h : A.transition cur x items = some A') :
    ∃ next, Moved A A' cur x items next := by
  have hkey : ∀ m, (A.kernel m).map Item.key = items.map Item.key ↔
      A.cores m = items.map Item.core :=
    fun m => map_key_eq_iff (hA m) hitems
  unfold transition at h
  simp only [Option.bind_eq_bind, Option.bind_eq_some_iff] at h
  obtain ⟨⟨A₁, next, isnew⟩, hnew, h⟩ := h
  refine ⟨next, ?_⟩
  rcases newstate_cases hnew with ⟨rfl, hnext, hkeys, rfl⟩ | ⟨hne, hnext, hkeys, rfl⟩
  · -- a new state
    rw [if_pos rfl] at h
    have hA' := addUnfinished_eq h
    subst hnext
    have hnone := hfresh A.nstates le_rfl
    have hclosed : ((A.addState items).state cur).closed = (A.state cur).closed := by
      unfold addState
      dsimp only
      rw [Function.update_of_ne hcur.ne]
    have hchain : ∀ m, ∀ a ∈ ((A.addState items).link cur x A.nstates).actions m,
        a ∈ A.actions m ∨ IsTerm a.sym := fun m a => actions_link (A := A.addState items)
    apply moved_of_update (K := items)
    · rw [hA', hnone]
      exact state_link _ _ _
    · refine Or.inr ⟨?_, rfl, fun m hm he => hkeys m hm ((hkey m).mpr he)⟩
      rw [hA']
      exact nstates_link _ _ _
    · rfl
    · intro k t
      rw [kernel, hnone]
      simp [Slot, LrState.none]
    · rw [hA']
      exact Or.inl (congrArg (insert A.nstates) (unfinished_link _ _ _))
    · intro m y
      rw [hA']
      refine (targets_link hx m y).trans ?_
      rw [hclosed]
      rfl
    · rw [hA']
      exact hchain
  · -- an old state
    rw [if_neg hne] at h
    simp only [Option.bind_eq_some_iff, state_link] at h
    obtain ⟨r, hr, h⟩ := h
    obtain ⟨hr₁, hr₂, hr₃⟩ := mergeLookaheads_spec ((hkey next).mp hkeys) hr
    have hA' : A' = { (A₁.link cur x next).setKernel next r.1 with
        unfinished := if r.2 then insert next A₁.unfinished else A₁.unfinished } := by
      cases hflag : r.2 with
      | true =>
        rw [hflag, if_pos rfl] at h
        rw [addUnfinished_eq h, if_pos rfl, setKernel, unfinished_link]
      | false =>
        rw [hflag, if_neg (by decide)] at h
        cases h
        rw [if_neg (by decide), setKernel, unfinished_link]
    have hstate : A'.state =
        Function.update A₁.state next { A₁.state next with kernelItems := r.1 } := by
      rw [hA', setKernel, state_link]
    have hchain : ∀ m, ∀ a ∈ (A₁.link cur x next).actions m, a ∈ A₁.actions m ∨ IsTerm a.sym :=
      fun m a => actions_link
    apply moved_of_update hstate
    · refine Or.inl ⟨?_, hnext, (hkey next).mp hkeys⟩
      rw [hA', setKernel, nstates_link]
    · rw [hr₁]
      exact (hkey next).mp hkeys
    · exact hr₂
    · cases hflag : r.2 with
      | true =>
        rw [hA', hflag]
        exact Or.inl rfl
      | false =>
        rw [hA', hflag]
        exact Or.inr ⟨rfl, hnext, hr₃ hflag⟩
    · intro m y
      rw [hA']
      exact targets_link hx m y
    · rw [hA']
      exact hchain

end Automaton

end Parser
