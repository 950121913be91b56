import Cgkits.Lib.ShellSort
import Cgkits.Parser.First
import Mathlib.Logic.Function.Iterate

/-!
# LR(1) closure (`yystate.c`)

An item is a production with a dot and a set of lookaheads; without the lookaheads it is a `Core`.
`closure` adds the productions of the nonterminals right of a dot, each production once, and merges
lookaheads into the items until a pass changes nothing.  `kclosure` adds the items of the kernel
that have a symbol right of the dot.

The productions come in an order that does not depend on the lookaheads.  `closureProds` is this
order, and `occs` lists the items of `closure` and `kclosure` as occurrences: of a production in the
closure, or of an item of the kernel.  `OccLook` says which lookaheads an occurrence must have.
`closure_spec` states that `closure` returns the productions of `closureProds` with exactly these
lookaheads.
-/

namespace Parser

open Grammar

/-- `MAXCLOSE`: the maximum number of closure items in a state. -/
def maxClose : ℕ := 256

/-- An item without its lookaheads: the production and the position of the dot. -/
abbrev Core : Type := Production × ℕ

/-- `ITEM_S`: a production with a dot and its lookaheads. -/
structure Item where
  /-- The production of the item. -/
  prod : Production
  /-- The offset of the dot from the start of the production. -/
  dotPosn : ℕ
  /-- The set of lookahead symbols. -/
  lookaheads : Finset ℕ
deriving DecidableEq

/-- The production and the dot of an item, without its lookaheads. -/
def Item.core (i : Item) : Core := (i.prod, i.dotPosn)

/-- `right_of_dot`: the symbol behind the dot, if there is one. -/
def rightOfDot (c : Core) : Option ℕ := c.1.rhs[c.2]?

/-- The symbols behind the one that stands right of the dot. -/
def afterDot (c : Core) : List ℕ := c.1.rhs.drop (c.2 + 1)

/-- `RIGH_OF_DOT`: the value of the symbol right of the dot, `0` if there is none. -/
def rodVal (c : Core) : ℕ := (rightOfDot c).getD 0

/-- `movedot`: the item with the dot one place further to the right. -/
def advance (c : Core) : Core := (c.1, c.2 + 1)

/-- `add_lookahead`: the merged set, and whether anything has been added. -/
def addLookahead (dst src : Finset ℕ) : Finset ℕ × Bool :=
  if src ≠ ∅ ∧ ¬ src ⊆ dst then (dst ∪ src, true) else (dst, false)

/-- The lookaheads of the item of a production among the closure items. -/
def closLook (items : List Item) (prod : Production) : Finset ℕ :=
  ((items.find? fun i => i.prod = prod).map Item.lookaheads).getD ∅

/-- Replace the lookaheads of the item of a production. -/
def setLook (items : List Item) (prod : Production) (set : Finset ℕ) : List Item :=
  items.map fun i => if i.prod = prod then { i with lookaheads := set } else i

namespace Grammar

variable (G : Grammar) (F : SetTable)

/-- What `do_close` adds to the lookaheads of the productions of the symbol right of the dot. -/
def contribution (c : Core) (look : Finset ℕ) : Finset ℕ :=
  if afterDot c = [] then look
  else
    let (set, rhsIsNullable) := G.firstRhs F ∅ (afterDot c)
    if rhsIsNullable then set.erase G.epsilon ∪ look else set.erase G.epsilon

/-- The visit of one production by `do_close`, with the flag that tells whether anything was done.
The lookaheads of the item are read from the closure items, since they can grow meanwhile. -/
def closeProd (c : Core) (look : List Item → Finset ℕ) (st : List Item × Bool) (prod : Production) :
    Option (List Item × Bool) :=
  if ∃ i ∈ st.1, i.prod = prod then
    match addLookahead (closLook st.1 prod) (G.contribution F c (look st.1)) with
    | (set, true) => some (setLook st.1 prod set, true)
    | (_, false) => some st
  else if maxClose ≤ st.1.length then none
  else some (st.1 ++ [⟨prod, 0, (addLookahead ∅ (G.contribution F c (look st.1))).1⟩], true)

/-- `do_close`: add the productions of the nonterminal right of the dot, with their lookaheads. -/
def doClose (c : Core) (look : List Item → Finset ℕ) (st : List Item × Bool) :
    Option (List Item × Bool) :=
  match rightOfDot c with
  | none => some st
  | some x =>
    if IsNonterm x then (G.productions x).foldlM (G.closeProd F c look) st else some st

/-- The first step of `closure`: the items of the kernel. -/
def kernelPass (kernel : List Item) : Option (List Item × Bool) :=
  kernel.foldlM (fun st i => G.doClose F i.core (fun _ => i.lookaheads) st) ([], false)

/-- A pass over the closure items that there are when it begins. -/
def closePass (items : List Item) : Option (List Item × Bool) :=
  items.foldlM (fun st i => G.doClose F i.core (fun items => closLook items i.prod) st)
    (items, false)

/-- The loop of `closure`: passes as long as something has been done. -/
def closeLoop : ℕ → List Item × Bool → Option (List Item)
  | 0, _ => none
  | n + 1, (items, didSomething) =>
    if didSomething then (G.closePass F items).bind (closeLoop n) else some items

/-- `closure`: the closure items of a kernel, with their lookaheads. -/
def closure (fuel : ℕ) (kernel : List Item) : Option (List Item) :=
  (G.kernelPass F kernel).bind (G.closeLoop F fuel)

end Grammar

/-- `kclosure`: add the items of the kernel with a symbol right of the dot. -/
def kclosure (kernel closureItems : List Item) : Option (List Item) :=
  let items := closureItems ++ kernel.filter fun i => (rightOfDot i.core).isSome
  if maxClose < items.length then none else some items

/-- `item_cmp`, as the question whether the first item may stand before the second one. -/
def coreLe (c d : Core) : Bool :=
  if rodVal c ≠ rodVal d then rodVal c ≤ rodVal d
  else if c.1.num ≠ d.1.num then c.1.num ≤ d.1.num
  else c.2 ≤ d.2

/-! ## The productions of a closure -/

namespace Grammar

variable (G : Grammar) (F : SetTable)

/-- Add a production that is not there yet, behind the others. -/
def addProd (prods : List Production) (prod : Production) : List Production :=
  if prod ∈ prods then prods else prods ++ [prod]

/-- Add the productions of the symbol right of the dot. -/
def expand (c : Core) (prods : List Production) : List Production :=
  match rightOfDot c with
  | none => prods
  | some x => if IsNonterm x then (G.productions x).foldl addProd prods else prods

/-- Expand the productions that there are when the pass begins. -/
def expandAll (prods : List Production) : List Production :=
  prods.foldl (fun ps p => G.expand (p, 0) ps) prods

/-- The productions of the closure of a kernel, in the order in which `closure` finds them. -/
def closureProds (K : List Core) : List Production :=
  G.expandAll^[G.prods.length] (K.foldl (fun ps c => G.expand c ps) [])

/-- The closure of a kernel without lookaheads, as a set of items. -/
inductive InClosure (K : List Core) : Core → Prop
  /-- An item of the kernel is in the closure. -/
  | kern {c : Core} : c ∈ K → InClosure K c
  /-- A production of the nonterminal right of a dot. -/
  | clos {c : Core} {x : ℕ} {p : Production} : InClosure K c → rightOfDot c = some x → IsNonterm x →
      p ∈ G.productions x → InClosure K (p, 0)

variable {G F}

/-- A production is among the others and the one that has been added. -/
lemma mem_addProd {ps : List Production} {p q : Production} : q ∈ addProd ps p ↔
    q ∈ ps ∨ q = p := by
  unfold addProd
  split
  · constructor
    · exact Or.inl
    · rintro (h | rfl)
      · exact h
      · assumption
  · simp

/-- Adding a production keeps the productions different. -/
lemma nodup_addProd {ps : List Production} (h : ps.Nodup) (p : Production) :
    (addProd ps p).Nodup := by
  unfold addProd
  split
  · exact h
  · rename_i hp
    rw [List.nodup_append]
    refine ⟨h, List.nodup_singleton p, ?_⟩
    rintro q hq _ hq' rfl
    exact hp (List.mem_singleton.mp hq' ▸ hq)

/-- Adding a production keeps the ones that are there, in front of it. -/
lemma prefix_addProd (ps : List Production) (p : Production) : ps <+: addProd ps p := by
  unfold addProd
  split
  · exact List.prefix_rfl
  · exact List.prefix_append _ _

/-- Adding several productions adds these and no others, behind those that are there, and none
twice. -/
lemma foldl_addProd (l ps : List Production) :
    (∀ q, q ∈ l.foldl addProd ps ↔ q ∈ ps ∨ q ∈ l) ∧ ps <+: l.foldl addProd ps ∧
      (ps.Nodup → (l.foldl addProd ps).Nodup) := by
  induction l generalizing ps with
  | nil => simp
  | cons p l ih =>
    obtain ⟨hmem, hpre, hnodup⟩ := ih (addProd ps p)
    rw [List.foldl_cons]
    refine ⟨?_, (prefix_addProd ps p).trans hpre, fun h => hnodup (nodup_addProd h p)⟩
    intro q
    rw [hmem, mem_addProd, List.mem_cons, or_assoc]

/-- Expanding an item adds the productions of the nonterminal right of its dot. -/
lemma expand_spec (c : Core) (ps : List Production) :
    (∀ q, q ∈ G.expand c ps ↔ q ∈ ps ∨
        ∃ x, rightOfDot c = some x ∧ IsNonterm x ∧ q ∈ G.productions x) ∧
      ps <+: G.expand c ps ∧ (ps.Nodup → (G.expand c ps).Nodup) := by
  unfold expand
  cases hx : rightOfDot c with
  | none => simp
  | some x =>
    dsimp only
    split
    · rename_i hn
      obtain ⟨hmem, hpre, hnodup⟩ := foldl_addProd (G.productions x) ps
      refine ⟨?_, hpre, hnodup⟩
      intro q
      rw [hmem]
      simp [hn]
    · rename_i hn
      simp [hn]

/-- Expanding several items adds the productions of all the nonterminals right of their dots. -/
lemma foldl_expand {α : Type*} (f : α → Core) (l : List α) (ps : List Production) :
    (∀ q, q ∈ l.foldl (fun ps a => G.expand (f a) ps) ps ↔ q ∈ ps ∨
        ∃ a ∈ l, ∃ x, rightOfDot (f a) = some x ∧ IsNonterm x ∧ q ∈ G.productions x) ∧
      ps <+: l.foldl (fun ps a => G.expand (f a) ps) ps ∧
      (ps.Nodup → (l.foldl (fun ps a => G.expand (f a) ps) ps).Nodup) := by
  induction l generalizing ps with
  | nil => simp
  | cons a l ih =>
    obtain ⟨hmem, hpre, hnodup⟩ := ih (G.expand (f a) ps)
    obtain ⟨hmem', hpre', hnodup'⟩ := expand_spec (G := G) (f a) ps
    rw [List.foldl_cons]
    refine ⟨?_, hpre'.trans hpre, fun h => hnodup (hnodup' h)⟩
    intro q
    rw [hmem, hmem']
    simp only [List.mem_cons, exists_eq_or_imp, or_assoc]

/-- The productions of the first step belong to the closure. -/
lemma mem_foldl_expand_kernel {K : List Core} {p : Production} :
    p ∈ K.foldl (fun ps c => G.expand c ps) [] ↔
      ∃ c ∈ K, ∃ x, rightOfDot c = some x ∧ IsNonterm x ∧ p ∈ G.productions x := by
  have h := (foldl_expand (G := G) id K []).1 p
  simpa using h

/-- The productions that have been found after some passes. -/
def closureIter (G : Grammar) (K : List Core) (n : ℕ) : List Production :=
  G.expandAll^[n] (K.foldl (fun ps c => G.expand c ps) [])

/-- One more pass expands the productions that have been found. -/
lemma closureIter_succ (K : List Core) (n : ℕ) :
    closureIter G K (n + 1) = G.expandAll (closureIter G K n) := Function.iterate_succ_apply' _ _ _

/-- A pass adds the productions of the nonterminals that productions start with. -/
lemma expandAll_spec (ps : List Production) :
    (∀ q, q ∈ G.expandAll ps ↔ q ∈ ps ∨
        ∃ p ∈ ps, ∃ x, rightOfDot (p, 0) = some x ∧ IsNonterm x ∧ q ∈ G.productions x) ∧
      ps <+: G.expandAll ps ∧ (ps.Nodup → (G.expandAll ps).Nodup) :=
  foldl_expand (fun p => (p, 0)) ps ps

/-- The productions found are different productions of the grammar that belong to the closure. -/
lemma closureIter_spec (K : List Core) (n : ℕ) :
    (closureIter G K n).Nodup ∧ ∀ p ∈ closureIter G K n, p ∈ G.prods ∧
      ∃ c x, G.InClosure K c ∧ rightOfDot c = some x ∧ IsNonterm x ∧ p ∈ G.productions x := by
  induction n with
  | zero =>
    refine ⟨(foldl_expand (G := G) id K []).2.2 List.nodup_nil, ?_⟩
    intro p hp
    obtain ⟨c, hc, x, hx, hn, hpx⟩ := mem_foldl_expand_kernel.mp hp
    exact ⟨(mem_productions.mp hpx).1, c, x, .kern hc, hx, hn, hpx⟩
  | succ n ih =>
    obtain ⟨hmem, -, hnodup⟩ := expandAll_spec (G := G) (closureIter G K n)
    rw [closureIter_succ]
    refine ⟨hnodup ih.1, ?_⟩
    intro q hq
    rcases (hmem q).mp hq with hq | ⟨p, hp, x, hx, hn, hqx⟩
    · exact ih.2 q hq
    · obtain ⟨-, c, y, hc, hy, hny, hpy⟩ := ih.2 p hp
      exact ⟨(mem_productions.mp hqx).1, (p, 0), x, .clos hc hy hny hpy, hx, hn, hqx⟩

/-- A pass that finds nothing is followed by passes that find nothing. -/
lemma closureIter_eq_of_fixed {K : List Core} {m n : ℕ} (hmn : m ≤ n)
    (h : G.expandAll (closureIter G K m) = closureIter G K m) :
    closureIter G K n = closureIter G K m := by
  induction n, hmn using Nat.le_induction with
  | base => rfl
  | succ n _ ih => rw [closureIter_succ, ih, h]

/-- As long as a pass finds something, the number of productions grows. -/
lemma fixed_or_le_length (K : List Core) (n : ℕ) :
    G.expandAll (closureIter G K n) = closureIter G K n ∨
    n + 1 ≤ (closureIter G K (n + 1)).length := by
  induction n with
  | zero =>
    by_cases h : G.expandAll (closureIter G K 0) = closureIter G K 0
    · exact Or.inl h
    · have hpre := (expandAll_spec (G := G) (closureIter G K 0)).2.1
      have hlt : (closureIter G K 0).length < (G.expandAll (closureIter G K 0)).length := by
        apply lt_of_le_of_ne hpre.length_le
        intro he
        exact h (hpre.eq_of_length he).symm
      rw [closureIter_succ]
      exact Or.inr (by omega)
  | succ n ih =>
    by_cases h : G.expandAll (closureIter G K (n + 1)) = closureIter G K (n + 1)
    · exact Or.inl h
    · rcases ih with hfix | hlen
      · rw [closureIter_succ, hfix] at h
        exact absurd hfix h
      · have hpre := (expandAll_spec (G := G) (closureIter G K (n + 1))).2.1
        have hlt :
            (closureIter G K (n + 1)).length < (G.expandAll (closureIter G K (n + 1))).length := by
          apply lt_of_le_of_ne hpre.length_le
          intro he
          exact h (hpre.eq_of_length he).symm
        rw [closureIter_succ K (n + 1)]
        exact Or.inr (by omega)

/-- There are at most as many productions in a closure as in the grammar. -/
lemma length_closureIter_le (K : List Core) (n : ℕ) :
    (closureIter G K n).length ≤ G.prods.length := by
  obtain ⟨hnodup, hmem⟩ := closureIter_spec (G := G) K n
  exact (List.subperm_of_subset hnodup fun p hp => (hmem p hp).1).length_le

/-- The productions of a closure are complete: another pass finds nothing. -/
lemma expandAll_closureProds (K : List Core) :
    G.expandAll (G.closureProds K) = G.closureProds K := by
  rcases fixed_or_le_length (G := G) K G.prods.length with h | h
  · exact h
  · have hle := length_closureIter_le (G := G) K (G.prods.length + 1)
    omega

/-- A state of the passes in which another pass finds nothing is the end of the passes. -/
lemma closureIter_eq_closureProds {K : List Core} {n : ℕ}
    (h : G.expandAll (closureIter G K n) = closureIter G K n) :
    closureIter G K n = G.closureProds K := by
  change closureIter G K n = closureIter G K G.prods.length
  rcases Nat.le_total n G.prods.length with hle | hle
  · exact (closureIter_eq_of_fixed hle h).symm
  · exact closureIter_eq_of_fixed hle (expandAll_closureProds K)

/-- The productions of a closure are different from each other. -/
lemma nodup_closureProds (K : List Core) : (G.closureProds K).Nodup := (closureIter_spec K _).1

/-- The productions of a closure are productions of the grammar. -/
lemma mem_prods_of_mem_closureProds {K : List Core} {p : Production} (h : p ∈ G.closureProds K) :
    p ∈ G.prods := ((closureIter_spec K _).2 p h).1

/-- The productions of a closure are those of the nonterminals right of a dot in it. -/
theorem mem_closureProds {K : List Core} {p : Production} :
    p ∈ G.closureProds K ↔
      ∃ c x, G.InClosure K c ∧ rightOfDot c = some x ∧ IsNonterm x ∧ p ∈ G.productions x := by
  constructor
  · intro h
    exact ((closureIter_spec K _).2 p h).2
  · rintro ⟨c, x, hc, hx, hn, hp⟩
    induction hc generalizing x p with
    | kern hc =>
      have hfirst := mem_foldl_expand_kernel.mpr ⟨_, hc, x, hx, hn, hp⟩
      have hpre : ∀ n, closureIter G K 0 <+: closureIter G K n := by
        intro n
        induction n with
        | zero => exact List.prefix_rfl
        | succ n ih =>
          rw [closureIter_succ]
          exact ih.trans (expandAll_spec _).2.1
      exact (hpre _).mem hfirst
    | clos hc hy hny hq ih =>
      have hmem := ih _ hy hny hq
      rw [← expandAll_closureProds, (expandAll_spec _).1]
      exact Or.inr ⟨_, hmem, x, hx, hn, hp⟩

/-! ## The lookaheads of a closure -/

variable (G F) in
/-- The terminals that can follow the symbol right of the dot inside the production. -/
def firstAfter (c : Core) : Finset ℕ :=
  if afterDot c = [] then ∅ else (G.firstRhs F ∅ (afterDot c)).1.erase G.epsilon

variable (G F) in
/-- What follows the symbol right of the dot can vanish. -/
def NullableAfter (c : Core) : Prop :=
  afterDot c = [] ∨ (G.firstRhs F ∅ (afterDot c)).2 = true

/-- What an item contributes: what can follow inside the production, and its own lookaheads if the
rest can vanish. -/
lemma mem_contribution {c : Core} {look : Finset ℕ} {t : ℕ} :
    t ∈ G.contribution F c look ↔ t ∈ G.firstAfter F c ∨ (G.NullableAfter F c ∧ t ∈ look) := by
  unfold contribution firstAfter NullableAfter
  by_cases hnil : afterDot c = []
  · simp [hnil]
  · simp only [hnil, if_false, false_or]
    by_cases hnull : (G.firstRhs F ∅ (afterDot c)).2 = true
    · simp [hnull]
    · simp [hnull]

end Grammar

/-- An occurrence of an item among the items of `closure` and `kclosure`. -/
inductive Occ where
  /-- A production of the closure. -/
  | clos (p : Production)
  /-- The item of the kernel at position `k`. -/
  | kern (k : ℕ) (c : Core)
deriving DecidableEq

/-- The item that occurs, in the closure or in the kernel. -/
def Occ.core : Occ → Core
  | .clos p => (p, 0)
  | .kern _ c => c

namespace Grammar

variable (G : Grammar) (F : SetTable)

/-- The occurrences in the order in which `closure` and `kclosure` put them into the array. -/
def occs (K : List Core) : List Occ :=
  (G.closureProds K).map .clos ++
    (K.zipIdx.filter fun ck => (rightOfDot ck.1).isSome).map fun ck => .kern ck.2 ck.1

/-- The lookaheads that the occurrences of an item in a closure must have. -/
inductive OccLook (kernel : List Item) : Occ → ℕ → Prop
  /-- The lookaheads of an item of the kernel. -/
  | kern {k : ℕ} {i : Item} {t : ℕ} : kernel[k]? = some i → t ∈ i.lookaheads →
      OccLook kernel (.kern k i.core) t
  /-- What can follow the symbol right of the dot inside the production. -/
  | first {o : Occ} {x : ℕ} {p : Production} {t : ℕ} : o ∈ G.occs (kernel.map Item.core) →
      rightOfDot o.core = some x → IsNonterm x → p ∈ G.productions x → t ∈ G.firstAfter F o.core →
      OccLook kernel (.clos p) t
  /-- What can follow the production. -/
  | inherit {o : Occ} {x : ℕ} {p : Production} {t : ℕ} : OccLook kernel o t →
      rightOfDot o.core = some x → IsNonterm x → p ∈ G.productions x → G.NullableAfter F o.core →
      OccLook kernel (.clos p) t

variable {G F}

/-- A production of the closure is among the occurrences, and no other is. -/
lemma clos_mem_occs {K : List Core} {p : Production} : .clos p ∈ G.occs K ↔
    p ∈ G.closureProds K := by
  simp [occs]

/-- An item of the kernel with a symbol right of the dot occurs. -/
lemma kern_mem_occs {K : List Core} {k : ℕ} {c : Core} :
    .kern k c ∈ G.occs K ↔ K[k]? = some c ∧ (rightOfDot c).isSome := by
  simp [occs, List.mem_zipIdx_iff_getElem?]

/-- What an item of the kernel contributes must be there. -/
lemma occLook_of_mem_kernel {kernel : List Item} {i : Item} {x : ℕ} {p : Production} {t : ℕ}
    (hi : i ∈ kernel) (hx : rightOfDot i.core = some x) (hn : IsNonterm x)
    (hp : p ∈ G.productions x) (ht : t ∈ G.contribution F i.core i.lookaheads) :
    G.OccLook F kernel (.clos p) t := by
  obtain ⟨k, hk⟩ := List.mem_iff_getElem?.mp hi
  rcases mem_contribution.mp ht with ht | ⟨hnull, ht⟩
  · apply OccLook.first (o := .kern k i.core) _ hx hn hp ht
    rw [kern_mem_occs, List.getElem?_map, hk]
    exact ⟨rfl, Option.isSome_iff_exists.mpr ⟨x, hx⟩⟩
  · exact .inherit (.kern hk ht) hx hn hp hnull

/-- What a production of the closure contributes must be there, if its lookaheads must. -/
lemma occLook_of_mem_closureProds {kernel : List Item} {q p : Production} {look : Finset ℕ}
    {x t : ℕ} (hlook : ∀ s ∈ look, G.OccLook F kernel (.clos q) s) (hx : rightOfDot (q, 0) = some x)
    (hn : IsNonterm x) (hp : p ∈ G.productions x) (ht : t ∈ G.contribution F (q, 0) look)
    (hq : q ∈ G.closureProds (kernel.map Item.core)) : G.OccLook F kernel (.clos p) t := by
  rcases mem_contribution.mp ht with ht | ⟨hnull, ht⟩
  · exact .first (o := .clos q) (clos_mem_occs.mpr hq) hx hn hp ht
  · exact .inherit (hlook t ht) hx hn hp hnull

/-- The item of the production `p` among the closure items has the lookahead `t`. -/
def Has (items : List Item) (p : Production) (t : ℕ) : Prop :=
  ∃ i ∈ items, i.prod = p ∧ t ∈ i.lookaheads

/-- The lookaheads that are read for a production are those that its item has. -/
lemma mem_closLook {items : List Item} (h : (items.map Item.prod).Nodup) {p : Production} {t : ℕ} :
    t ∈ closLook items p ↔ Has items p t := by
  unfold closLook Has
  cases hf : items.find? fun i => i.prod = p with
  | none =>
    rw [List.find?_eq_none] at hf
    constructor
    · intro ht
      simp at ht
    · rintro ⟨i, hi, hp, -⟩
      exact absurd (decide_eq_true hp) (hf i hi)
  | some j =>
    have hj := List.mem_of_find?_eq_some hf
    have hjp : j.prod = p := by
      have hd := List.find?_some hf
      exact of_decide_eq_true hd
    change t ∈ j.lookaheads ↔ _
    constructor
    · intro ht
      exact ⟨j, hj, hjp, ht⟩
    · rintro ⟨i, hi, hp, ht⟩
      rw [List.inj_on_of_nodup_map h hj hi (hjp.trans hp.symm)]
      exact ht

/-- Replacing lookaheads keeps the productions and their order. -/
lemma map_prod_setLook (items : List Item) (p : Production) (set : Finset ℕ) :
    (setLook items p set).map Item.prod = items.map Item.prod := by
  unfold setLook
  rw [List.map_map]
  apply List.map_congr_left
  intro i _
  dsimp only [Function.comp]
  split <;> rfl

/-- Adding lookaheads to a production among the closure items. -/
lemma has_setLook {items : List Item} {p q : Production} {s : Finset ℕ} {t : ℕ}
    (h : (items.map Item.prod).Nodup) (hp : ∃ i ∈ items, i.prod = p) :
    Has (setLook items p (closLook items p ∪ s)) q t ↔ Has items q t ∨ (q = p ∧ t ∈ s) := by
  unfold setLook
  constructor
  · rintro ⟨i', hi', hq, ht⟩
    obtain ⟨i, hi, rfl⟩ := List.mem_map.mp hi'
    by_cases hip : i.prod = p
    · rw [if_pos hip] at hq ht
      change i.prod = q at hq
      rw [← hq, hip]
      rcases Finset.mem_union.mp ht with ht | ht
      · exact Or.inl ((mem_closLook h).mp ht)
      · exact Or.inr ⟨rfl, ht⟩
    · rw [if_neg hip] at hq ht
      exact Or.inl ⟨i, hi, hq, ht⟩
  · rintro (⟨i, hi, hq, ht⟩ | ⟨rfl, ht⟩)
    · refine ⟨_, List.mem_map_of_mem hi, ?_, ?_⟩
      · split <;> exact hq
      · split
        · rename_i hip
          exact Finset.mem_union_left _ ((mem_closLook h).mpr ⟨i, hi, hip, ht⟩)
        · exact ht
    · obtain ⟨i, hi, hip⟩ := hp
      refine ⟨_, List.mem_map_of_mem hi, ?_, ?_⟩
      · split <;> exact hip
      · rw [if_pos hip]
        exact Finset.mem_union_right _ ht

/-- The invariant of the closure items: no production twice, the dots at the start, and no lookahead
that does not satisfy `P`. -/
structure ClosInv (P : Production → ℕ → Prop) (items : List Item) : Prop where
  /-- No production occurs twice. -/
  nodup : (items.map Item.prod).Nodup
  /-- The dots are at the start. -/
  zero : ∀ i ∈ items, i.dotPosn = 0
  /-- The lookaheads are justified. -/
  sound : ∀ p t, Has items p t → P p t

/-- What a part of `closure` does to the closure items and the flag. -/
structure Grown (st st' : List Item × Bool) : Prop where
  /-- Lookaheads are never removed. -/
  mono : ∀ p t, Has st.1 p t → Has st'.1 p t
  /-- Without the flag nothing has changed. -/
  unchanged : st'.2 = false → st' = st

/-- The closure items have not shrunk when nothing is done. -/
lemma Grown.refl (st : List Item × Bool) : Grown st st := ⟨fun _ _ => id, fun _ => rfl⟩

/-- What grows in two parts one after the other grows in both together. -/
lemma Grown.trans {a b c : List Item × Bool} (hab : Grown a b) (hbc : Grown b c) : Grown a c where
  mono p t h := hbc.mono p t (hab.mono p t h)
  unchanged h := by
    have hcb := hbc.unchanged h
    rw [hcb]
    apply hab.unchanged
    rw [← hcb]
    exact h

/-- Lookaheads are merged exactly when there is a new one, and then a change is reported. -/
lemma addLookahead_eq (dst src : Finset ℕ) :
    addLookahead dst src = if src ⊆ dst then (dst, false) else (dst ∪ src, true) := by
  unfold addLookahead
  by_cases hsub : src ⊆ dst
  · rw [if_neg fun h => h.2 hsub, if_pos hsub]
  · have hne : src ≠ ∅ := by
      rintro rfl
      exact hsub (Finset.empty_subset dst)
    rw [if_pos ⟨hne, hsub⟩, if_neg hsub]

/-- Into the lookaheads of a new item everything is merged. -/
lemma addLookahead_empty (src : Finset ℕ) : (addLookahead ∅ src).1 = src := by
  rw [addLookahead_eq]
  split
  · exact (Finset.subset_empty.mp ‹_›).symm
  · exact Finset.empty_union src

/-- What a visit of a production by `do_close` can do: nothing, if the item has the lookaheads
already, merge them, or append an item for the production. -/
lemma closeProd_cases {c : Core} {look : List Item → Finset ℕ} {st st' : List Item × Bool}
    {p : Production} (h : G.closeProd F c look st p = some st') :
    ((∃ i ∈ st.1, i.prod = p) ∧ G.contribution F c (look st.1) ⊆ closLook st.1 p ∧ st' = st) ∨
      ((∃ i ∈ st.1, i.prod = p) ∧ ¬ G.contribution F c (look st.1) ⊆ closLook st.1 p ∧
        st' = (setLook st.1 p (closLook st.1 p ∪ G.contribution F c (look st.1)), true)) ∨
      ((¬ ∃ i ∈ st.1, i.prod = p) ∧ st.1.length < maxClose ∧
        st' = (st.1 ++ [⟨p, 0, G.contribution F c (look st.1)⟩], true)) := by
  unfold closeProd at h
  rw [addLookahead_eq, addLookahead_empty] at h
  by_cases hex : ∃ i ∈ st.1, i.prod = p
  · rw [if_pos hex] at h
    by_cases hsub : G.contribution F c (look st.1) ⊆ closLook st.1 p
    · rw [if_pos hsub] at h
      exact Or.inl ⟨hex, hsub, (Option.some.inj h).symm⟩
    · rw [if_neg hsub] at h
      exact Or.inr (Or.inl ⟨hex, hsub, (Option.some.inj h).symm⟩)
  · rw [if_neg hex] at h
    by_cases hlen : maxClose ≤ st.1.length
    · rw [if_pos hlen] at h
      cases h
    · rw [if_neg hlen] at h
      exact Or.inr (Or.inr ⟨hex, Nat.lt_of_not_le hlen, (Option.some.inj h).symm⟩)

/-- When an item is appended, its lookaheads are added for its production. -/
lemma has_append {items : List Item} {p q : Production} {n : ℕ} {s : Finset ℕ} {t : ℕ} :
    Has (items ++ [⟨p, n, s⟩]) q t ↔ Has items q t ∨ (q = p ∧ t ∈ s) := by
  simp only [Has, List.mem_append, List.mem_singleton, or_and_right, exists_or, exists_eq_left]
  rw [eq_comm (a := p)]

/-- The visit of one production by `do_close` adds its item or merges the lookaheads of the one that
is there. -/
lemma closeProd_spec {P : Production → ℕ → Prop} {c : Core} {look : List Item → Finset ℕ}
    {st st' : List Item × Bool} {p : Production} (hst : ClosInv P st.1)
    (hP : ∀ t ∈ G.contribution F c (look st.1), P p t)
    (h : G.closeProd F c look st p = some st') :
    ClosInv P st'.1 ∧ Grown st st' ∧ st'.1.map Item.prod = addProd (st.1.map Item.prod) p ∧
      ∀ t ∈ G.contribution F c (look st.1), Has st'.1 p t := by
  have hmem : (∃ i ∈ st.1, i.prod = p) ↔ p ∈ st.1.map Item.prod := by simp
  -- the lookaheads that come in are justified
  have hsound : ∀ items, (∀ q t, Has items q t ↔
      Has st.1 q t ∨ (q = p ∧ t ∈ G.contribution F c (look st.1))) → ∀ q t, Has items q t →
      P q t := by
    intro items hhas q t hq
    rcases (hhas q t).mp hq with hq | ⟨rfl, ht⟩
    · exact hst.sound q t hq
    · exact hP t ht
  rcases closeProd_cases h with ⟨hex, hsub, rfl⟩ | ⟨hex, -, rfl⟩ | ⟨hex, -, rfl⟩
  · refine ⟨hst, Grown.refl _, (if_pos (hmem.mp hex)).symm, ?_⟩
    intro t ht
    exact (mem_closLook hst.nodup).mp (hsub ht)
  · have hmap := map_prod_setLook st.1 p (closLook st.1 p ∪ G.contribution F c (look st.1))
    have hhas := fun q t => has_setLook (s := G.contribution F c (look st.1)) (q := q) (t := t)
      hst.nodup hex
    refine ⟨⟨hmap ▸ hst.nodup, ?_, hsound _ hhas⟩,
      ⟨fun q t hq => (hhas q t).mpr (Or.inl hq), fun hf => by cases hf⟩, ?_,
      fun t ht => (hhas p t).mpr (Or.inr ⟨rfl, ht⟩)⟩
    · intro i' hi'
      obtain ⟨i, hi, rfl⟩ := List.mem_map.mp hi'
      split <;> exact hst.zero i hi
    · rw [hmap, addProd, if_pos (hmem.mp hex)]
  · have hprods : addProd (st.1.map Item.prod) p = st.1.map Item.prod ++ [p] :=
      if_neg fun hp => hex (hmem.mpr hp)
    refine ⟨⟨?_, ?_, hsound _ fun _ _ => has_append⟩,
      ⟨fun q t hq => has_append.mpr (Or.inl hq), fun hf => by cases hf⟩, ?_,
      fun t ht => has_append.mpr (Or.inr ⟨rfl, ht⟩)⟩
    · rw [List.map_append, List.map_singleton, ← hprods]
      exact nodup_addProd hst.nodup p
    · intro i hi
      rcases List.mem_append.mp hi with hi | hi
      · exact hst.zero i hi
      · rw [List.mem_singleton.mp hi]
    · rw [List.map_append, List.map_singleton, hprods]

/-- The loop of `do_close` over some productions keeps the invariant and adds their items. -/
lemma foldlM_closeProd_spec {P : Production → ℕ → Prop} {c : Core} {look : List Item → Finset ℕ}
    {ps : List Production} {st st' : List Item × Bool} (hst : ClosInv P st.1)
    (hmono : ∀ items items', ClosInv P items → ClosInv P items' →
      (∀ p t, Has items p t → Has items' p t) → look items ⊆ look items')
    (hP : ∀ items, ClosInv P items → ∀ p ∈ ps, ∀ t ∈ G.contribution F c (look items), P p t)
    (h : ps.foldlM (G.closeProd F c look) st = some st') :
    ClosInv P st'.1 ∧ Grown st st' ∧ st'.1.map Item.prod = ps.foldl addProd (st.1.map Item.prod) ∧
      ∀ p ∈ ps, ∀ t ∈ G.contribution F c (look st.1), Has st'.1 p t := by
  induction ps generalizing st with
  | nil =>
    cases h
    exact ⟨hst, Grown.refl _, rfl, fun p hp => by cases hp⟩
  | cons p ps ih =>
    rw [List.foldlM_cons, Option.bind_eq_bind, Option.bind_eq_some_iff] at h
    obtain ⟨st₁, h₁, h⟩ := h
    obtain ⟨hinv, hgrown, hprods, hdone⟩ :=
      closeProd_spec hst (hP st.1 hst p List.mem_cons_self) h₁
    obtain ⟨hinv', hgrown', hprods', hdone'⟩ :=
      ih hinv (fun items hitems q hq => hP items hitems q (List.mem_cons_of_mem p hq)) h
    refine ⟨hinv', hgrown.trans hgrown', ?_, ?_⟩
    · rw [hprods', hprods, List.foldl_cons]
    · intro q hq t ht
      cases List.mem_cons.mp hq with
      | inl he =>
        rw [he]
        exact hgrown'.mono p t (hdone t ht)
      | inr hq =>
        apply hdone' q hq
        rw [mem_contribution] at ht ⊢
        exact ht.imp_right fun ht => ⟨ht.1, hmono st.1 st₁.1 hst hinv hgrown.mono ht.2⟩

/-- What `do_close` does for one item: the productions right of its dot get the lookaheads behind
it. -/
lemma doClose_spec {P : Production → ℕ → Prop} {c : Core} {look : List Item → Finset ℕ}
    {st st' : List Item × Bool} (hst : ClosInv P st.1)
    (hmono : ∀ items items', ClosInv P items → ClosInv P items' →
      (∀ p t, Has items p t → Has items' p t) → look items ⊆ look items')
    (hP : ∀ items, ClosInv P items → ∀ x p, rightOfDot c = some x → IsNonterm x →
      p ∈ G.productions x → ∀ t ∈ G.contribution F c (look items), P p t)
    (h : G.doClose F c look st = some st') :
    ClosInv P st'.1 ∧ Grown st st' ∧ st'.1.map Item.prod = G.expand c (st.1.map Item.prod) ∧
      ∀ x p, rightOfDot c = some x → IsNonterm x → p ∈ G.productions x →
        ∀ t ∈ G.contribution F c (look st.1), Has st'.1 p t := by
  unfold doClose at h
  unfold expand
  cases hx : rightOfDot c with
  | none =>
    rw [hx] at h
    cases h
    refine ⟨hst, Grown.refl _, rfl, ?_⟩
    intro x p hx
    cases hx
  | some x =>
    rw [hx] at h
    dsimp only at h ⊢
    by_cases hn : IsNonterm x
    · rw [if_pos hn] at h ⊢
      obtain ⟨hinv, hgrown, hprods, hdone⟩ := foldlM_closeProd_spec hst hmono
        (fun items hitems p hp => hP items hitems x p hx hn hp) h
      refine ⟨hinv, hgrown, hprods, ?_⟩
      rintro y p ⟨⟩ - hp t ht
      exact hdone p hp t ht
    · rw [if_neg hn] at h ⊢
      cases h
      refine ⟨hst, Grown.refl _, rfl, ?_⟩
      rintro y p ⟨⟩ hny
      exact absurd hny hn

/-- The first step of `closure` adds what the items of the kernel ask for. -/
lemma foldlM_kernel_spec {P : Production → ℕ → Prop} {kernel : List Item}
    {st st' : List Item × Bool} (hst : ClosInv P st.1)
    (hP : ∀ i ∈ kernel, ∀ x p, rightOfDot i.core = some x → IsNonterm x → p ∈ G.productions x →
      ∀ t ∈ G.contribution F i.core i.lookaheads, P p t)
    (h : kernel.foldlM (fun st i => G.doClose F i.core (fun _ => i.lookaheads) st) st = some st') :
    ClosInv P st'.1 ∧ Grown st st' ∧
      st'.1.map Item.prod = kernel.foldl (fun ps i => G.expand i.core ps) (st.1.map Item.prod) ∧
      ∀ i ∈ kernel, ∀ x p, rightOfDot i.core = some x → IsNonterm x → p ∈ G.productions x →
        ∀ t ∈ G.contribution F i.core i.lookaheads, Has st'.1 p t := by
  induction kernel generalizing st with
  | nil =>
    cases h
    exact ⟨hst, Grown.refl _, rfl, fun i hi => by cases hi⟩
  | cons i kernel ih =>
    rw [List.foldlM_cons, Option.bind_eq_bind, Option.bind_eq_some_iff] at h
    obtain ⟨st₁, h₁, h⟩ := h
    obtain ⟨hinv, hgrown, hprods, hdone⟩ := doClose_spec hst (fun _ _ _ _ _ => subset_rfl)
      (fun _ _ => hP i List.mem_cons_self) h₁
    obtain ⟨hinv', hgrown', hprods', hdone'⟩ :=
      ih hinv (fun j hj => hP j (List.mem_cons_of_mem i hj)) h
    refine ⟨hinv', hgrown.trans hgrown', ?_, ?_⟩
    · rw [hprods', hprods, List.foldl_cons]
    · intro j hj x p hx hn hp t ht
      cases List.mem_cons.mp hj with
      | inl he =>
        subst he
        exact hgrown'.mono p t (hdone x p hx hn hp t ht)
      | inr hj => exact hdone' j hj x p hx hn hp t ht

/-- A pass over closure items: when it changes nothing, the contribution of each item is there. -/
lemma foldlM_items_spec {P : Production → ℕ → Prop} {items : List Item} {st st' : List Item × Bool}
    (hst : ClosInv P st.1)
    (hP : ∀ cl, ClosInv P cl → ∀ i ∈ items, ∀ x p, rightOfDot i.core = some x → IsNonterm x →
      p ∈ G.productions x → ∀ t ∈ G.contribution F i.core (closLook cl i.prod), P p t)
    (h : items.foldlM (fun st i => G.doClose F i.core (fun cl => closLook cl i.prod) st) st =
      some st') :
    ClosInv P st'.1 ∧ Grown st st' ∧
      st'.1.map Item.prod = items.foldl (fun ps i => G.expand i.core ps) (st.1.map Item.prod) ∧
      (st'.2 = false → ∀ i ∈ items, ∀ x p, rightOfDot i.core = some x → IsNonterm x →
        p ∈ G.productions x →
        ∀ t ∈ G.contribution F i.core (closLook st.1 i.prod), Has st.1 p t) := by
  induction items generalizing st with
  | nil =>
    cases h
    exact ⟨hst, Grown.refl _, rfl, fun _ i hi => by cases hi⟩
  | cons i items ih =>
    rw [List.foldlM_cons, Option.bind_eq_bind, Option.bind_eq_some_iff] at h
    obtain ⟨st₁, h₁, h⟩ := h
    have hmono : ∀ cl cl' : List Item, ClosInv P cl → ClosInv P cl' →
        (∀ p t, Has cl p t → Has cl' p t) → closLook cl i.prod ⊆ closLook cl' i.prod := by
      intro cl cl' hcl hcl' hsub t ht
      exact (mem_closLook hcl'.nodup).mpr (hsub _ t ((mem_closLook hcl.nodup).mp ht))
    obtain ⟨hinv, hgrown, hprods, hdone⟩ := doClose_spec hst hmono
      (fun cl hcl => hP cl hcl i List.mem_cons_self) h₁
    obtain ⟨hinv', hgrown', hprods', hdone'⟩ :=
      ih hinv (fun cl hcl j hj => hP cl hcl j (List.mem_cons_of_mem i hj)) h
    refine ⟨hinv', hgrown.trans hgrown', ?_, ?_⟩
    · rw [hprods', hprods, List.foldl_cons]
    · intro hflag j hj x p hx hn hp t ht
      have hst' : st' = st₁ := hgrown'.unchanged hflag
      have hst₁ : st₁ = st := hgrown.unchanged (hst' ▸ hflag)
      subst hst₁
      cases List.mem_cons.mp hj with
      | inl he =>
        subst he
        exact hdone x p hx hn hp t ht
      | inr hj => exact hdone' hflag j hj x p hx hn hp t ht

/-- The productions found are productions of the closure. -/
lemma closureIter_subset (K : List Core) (n : ℕ) : closureIter G K n ⊆ G.closureProds K :=
  fun p hp => mem_closureProds.mpr ((closureIter_spec K n).2 p hp).2

/-- What holds of the closure items between the passes. -/
structure BetweenPasses (G : Grammar) (F : SetTable) (kernel items : List Item) : Prop where
  /-- Every lookahead of an item has an origin. -/
  inv : ClosInv (fun p => G.OccLook F kernel (.clos p)) items
  /-- The productions come in the order of `closureProds`. -/
  iter : ∃ n, items.map Item.prod = closureIter G (kernel.map Item.core) n
  /-- The contributions of the kernel are there. -/
  kernel : ∀ i ∈ kernel, ∀ x p, rightOfDot i.core = some x → IsNonterm x → p ∈ G.productions x →
    ∀ t ∈ G.contribution F i.core i.lookaheads, Has items p t

/-- The closure items are closed: another pass over them changes nothing. -/
structure ClosedItems (G : Grammar) (F : SetTable) (items : List Item) : Prop where
  /-- Another pass finds no production. -/
  fixed : G.expandAll (items.map Item.prod) = items.map Item.prod
  /-- The contributions of the items are there. -/
  done : ∀ i ∈ items, ∀ x p, rightOfDot i.core = some x → IsNonterm x → p ∈ G.productions x →
    ∀ t ∈ G.contribution F i.core (closLook items i.prod), Has items p t

/-- Behind the first step of `closure` the items are those between two passes. -/
lemma kernelPass_spec {kernel : List Item} {st : List Item × Bool}
    (h : G.kernelPass F kernel = some st) : BetweenPasses G F kernel st.1 ∧
    (st.2 = false → ClosedItems G F st.1) := by
  have hP : ∀ i ∈ kernel, ∀ x p, rightOfDot i.core = some x → IsNonterm x → p ∈ G.productions x →
      ∀ t ∈ G.contribution F i.core i.lookaheads, G.OccLook F kernel (.clos p) t := by
    intro i hi x p hx hn hp t ht
    exact occLook_of_mem_kernel hi hx hn hp ht
  have hempty : ClosInv (fun p => G.OccLook F kernel (.clos p)) ([] : List Item) := by
    refine ⟨List.nodup_nil, ?_, ?_⟩
    · intro i hi
      cases hi
    · rintro p t ⟨i, hi, -⟩
      cases hi
  obtain ⟨hinv, hgrown, hprods, hdone⟩ := foldlM_kernel_spec hempty hP h
  refine ⟨⟨hinv, ⟨0, ?_⟩, hdone⟩, ?_⟩
  · rw [hprods]
    unfold closureIter
    rw [Function.iterate_zero_apply, List.foldl_map]
    rfl
  · intro hflag
    rw [hgrown.unchanged hflag]
    refine ⟨rfl, ?_⟩
    intro i hi
    cases hi

/-- A pass of `closure` keeps the invariant between passes, and the items are closed if it changes
nothing. -/
lemma closePass_spec {kernel items : List Item} {st : List Item × Bool}
    (hitems : BetweenPasses G F kernel items) (h : G.closePass F items = some st) :
    BetweenPasses G F kernel st.1 ∧ (st.2 = false → ClosedItems G F st.1) := by
  obtain ⟨hinv, ⟨n, hn⟩, hkernel⟩ := hitems
  have hcore : ∀ i ∈ items, i.core = (i.prod, 0) := by
    intro i hi
    rw [Item.core, hinv.zero i hi]
  have hP : ∀ cl, ClosInv (fun p => G.OccLook F kernel (.clos p)) cl → ∀ i ∈ items, ∀ x p,
      rightOfDot i.core = some x → IsNonterm x → p ∈ G.productions x →
      ∀ t ∈ G.contribution F i.core (closLook cl i.prod), G.OccLook F kernel (.clos p) t := by
    intro cl hcl i hi x p hx hnx hp t ht
    rw [hcore i hi] at hx ht
    apply occLook_of_mem_closureProds _ hx hnx hp ht
    · apply closureIter_subset _ n
      rw [← hn]
      exact List.mem_map_of_mem hi
    · exact fun s hs => hcl.sound _ _ ((mem_closLook hcl.nodup).mp hs)
  obtain ⟨hinv', hgrown, hprods, hdone⟩ :=
    @foldlM_items_spec _ _ _ _ (items, false) _ hinv hP h
  -- the productions after the pass
  have hexpand : st.1.map Item.prod = G.expandAll (items.map Item.prod) := by
    rw [hprods, expandAll, List.foldl_map]
    apply List.foldl_ext
    intro ps i hi
    rw [hcore i hi]
  refine ⟨⟨hinv', ⟨n + 1, ?_⟩, ?_⟩, ?_⟩
  · rw [hexpand, closureIter_succ, hn]
  · intro i hi x p hx hnx hp t ht
    exact hgrown.mono p t (hkernel i hi x p hx hnx hp t ht)
  · intro hflag
    have hst : st.1 = items := congrArg Prod.fst (hgrown.unchanged hflag)
    rw [hst]
    refine ⟨?_, hdone hflag⟩
    rw [← hexpand, hst]

/-- The loop of `closure` ends with closed items. -/
lemma closeLoop_spec {kernel cl : List Item} {n : ℕ} {st : List Item × Bool}
    (hst : BetweenPasses G F kernel st.1) (hclosed : st.2 = false → ClosedItems G F st.1)
    (h : G.closeLoop F n st = some cl) : BetweenPasses G F kernel cl ∧ ClosedItems G F cl := by
  induction n generalizing st with
  | zero => cases h
  | succ n ih =>
    obtain ⟨items, flag⟩ := st
    unfold closeLoop at h
    cases flag with
    | true =>
      obtain ⟨st', hst', h⟩ := Option.bind_eq_some_iff.mp h
      obtain ⟨hbetween, hclosed'⟩ := closePass_spec hst hst'
      exact ih hbetween hclosed' h
    | false =>
      cases h
      exact ⟨hst, hclosed rfl⟩

/-- `closure` returns each production of the closure once, in the order of `closureProds`, with the
dot at the start and exactly the lookaheads that it must have. -/
theorem closure_spec {fuel : ℕ} {kernel cl : List Item} (h : G.closure F fuel kernel = some cl) :
    cl.map Item.prod = G.closureProds (kernel.map Item.core) ∧ (∀ i ∈ cl, i.dotPosn = 0) ∧
      ∀ p t, Has cl p t ↔ G.OccLook F kernel (.clos p) t := by
  obtain ⟨st, hst, h⟩ := Option.bind_eq_some_iff.mp h
  obtain ⟨hbetween, hclosed⟩ := kernelPass_spec hst
  obtain ⟨⟨hinv, ⟨n, hn⟩, hkernel⟩, ⟨hfixed, hdone⟩⟩ := closeLoop_spec hbetween hclosed h
  have hprods : cl.map Item.prod = G.closureProds (kernel.map Item.core) := by
    rw [hn] at hfixed ⊢
    exact closureIter_eq_closureProds hfixed
  refine ⟨hprods, hinv.zero, fun p t => ⟨hinv.sound p t, ?_⟩⟩
  -- an item of the closure passes on what it has
  have hpass : ∀ q x p t, q ∈ G.closureProds (kernel.map Item.core) → rightOfDot (q, 0) = some x →
      IsNonterm x → p ∈ G.productions x → t ∈ G.contribution F (q, 0) (closLook cl q) →
      Has cl p t := by
    intro q x p t hq hx hnx hp ht
    rw [← hprods] at hq
    obtain ⟨i, hi, rfl⟩ := List.mem_map.mp hq
    have hcore : i.core = (i.prod, 0) := by rw [Item.core, hinv.zero i hi]
    rw [← hcore] at hx ht
    exact hdone i hi x p hx hnx hp t ht
  suffices hall : ∀ o, G.OccLook F kernel o t → ∀ p, o = .clos p → Has cl p t from
    fun hocc => hall _ hocc p rfl
  intro o hocc
  induction hocc with
  | kern hk ht =>
    intro p hp
    cases hp
  | @first o x p t ho hx hnx hp ht =>
    rintro _ ⟨⟩
    cases o with
    | clos q =>
      exact hpass q x p t (clos_mem_occs.mp ho) hx hnx hp (mem_contribution.mpr (Or.inl ht))
    | kern k c =>
      have hk := (kern_mem_occs.mp ho).1
      rw [List.getElem?_map] at hk
      obtain ⟨i, hi, rfl⟩ := Option.map_eq_some_iff.mp hk
      exact hkernel i (List.mem_of_getElem? hi) x p hx hnx hp t (mem_contribution.mpr (Or.inl ht))
  | @inherit o x p t hocc hx hnx hp hnull ih =>
    rintro _ ⟨⟩
    cases o with
    | clos q =>
      have hq := ih q rfl
      have hmem : q ∈ G.closureProds (kernel.map Item.core) := by
        obtain ⟨i, hi, rfl, -⟩ := hq
        rw [← hprods]
        exact List.mem_map_of_mem hi
      exact hpass q x p t hmem hx hnx hp
        (mem_contribution.mpr (Or.inr ⟨hnull, (mem_closLook hinv.nodup).mpr hq⟩))
    | kern k c =>
      cases hocc with
      | kern hk ht =>
        exact hkernel _ (List.mem_of_getElem? hk) x p hx hnx hp t
          (mem_contribution.mpr (Or.inr ⟨hnull, ht⟩))

end Grammar

end Parser
