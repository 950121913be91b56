import Cgkits.Lib.SearchTree
import Cgkits.Lib.Trace
import Cgkits.Parser.Lalr
import Mathlib.Data.Finset.Card

/-!
# The queue of unfinished states (`yystate.c`)

The unfinished states are kept in a search tree whose nodes come from the array `_heap`.  Nodes that
have been taken out of the tree are kept in a list that is linked through their left pointers, and
`add_unfinished` takes a node from there before it takes a new one.

`Unfinished.add` and `Unfinished.get` are the two functions with their pointers.  `Unfinished.Holds`
is the invariant: the tree is ordered by the state numbers, and the nodes of the tree and of the
list are those that have been handed out. Each function does to the set of the pending states what
`PendingStep` says.
-/

namespace Parser

open SearchTree (Pointer Mem IsTree IsList inorder hole minPointer nodes_node)

/-- The nodes and the static variables of the queue of unfinished states. -/
structure Unfinished (σ : Type*) where
  /-- The fields of the nodes of `_heap`, and `_unfinised`. -/
  mem : Mem ℕ σ
  /-- `_available`, the head of the list of free nodes. -/
  available : Option ℕ
  /-- `_next_alloc_tnode`, the next node that was never used. -/
  nextAlloc : ℕ

/-- What goes wrong in the queue: there is no node, or a loop or pointer goes astray. -/
inductive UnfinishedFault where
  /-- `Insufficient memory for unfinished state.` -/
  | insufficient
  /-- The loop of the model does not end. -/
  | endless
  /-- A null pointer is followed. -/
  | null
deriving DecidableEq

namespace Unfinished

variable {σ : Type*}

/-- The static variables before the first call. -/
def init : Unfinished σ := ⟨⟨fun _ => none, fun _ => none⟩, none, 0⟩

/-- `cmp = state->num - root->state->num`: the difference of two unsigned numbers becomes an
`int`. -/
def numCmp (state root : ℕ) : ℤ := ((state : ℤ) - root).bmod (2 ^ 32)

/-- The loop of `add_unfinished`: the pointer to `root`, and `root`, when the state has been found
or the tree ends. -/
def walk (num : σ → ℕ) (q : Unfinished σ) (state : σ) :
    ℕ → Pointer ℕ → Option ℕ → Except UnfinishedFault (Pointer ℕ × Option ℕ)
  | _, parent, none => .ok (parent, none)
  | 0, _, some _ => .error .endless
  | fuel + 1, parent, some root =>
    match q.mem.val root with
    | none => .error .null
    | some s =>
      if numCmp (num state) (num s) = 0 then .ok (parent, some root)
      else if numCmp (num state) (num s) < 0 then
        walk num q state fuel (.left root) (q.mem.cell (.left root))
      else walk num q state fuel (.right root) (q.mem.cell (.right root))

/-- `(*parent)->state = state; (*parent)->left = (*parent)->right = NULL`. -/
def fill (q : Unfinished σ) (parent : Pointer ℕ) (state : σ) :
    Except UnfinishedFault (Unfinished σ) :=
  match q.mem.cell parent with
  | none => .error .null
  | some n => .ok { q with mem := q.mem.fill n state }

/-- `add_unfinished` hangs a state into the tree, unless it is there. -/
def add (num : σ → ℕ) (q : Unfinished σ) (state : σ) : Except UnfinishedFault (Unfinished σ) :=
  match q.walk num state maxUnfinished .root (q.mem.cell .root) with
  | .error fault => .error fault
  | .ok (_, some _) => .ok q
  | .ok (parent, none) =>
    match q.available with
    | some n =>
      let q := { q with mem := q.mem.set parent (some n) }
      let q := { q with available := q.mem.cell (.left n) }
      q.fill parent state
    | none =>
      if maxUnfinished ≤ q.nextAlloc then .error .insufficient
      else { q with mem := q.mem.set parent (some q.nextAlloc), nextAlloc := q.nextAlloc + 1 }.fill
        parent state

/-- The loop of `get_unfinished`: the pointer to `root`, and `root`, when there is nothing on the
left. -/
def leftmost (q : Unfinished σ) : ℕ → Pointer ℕ → ℕ → Except UnfinishedFault (Pointer ℕ × ℕ)
  | 0, _, _ => .error .endless
  | fuel + 1, parent, root =>
    match q.mem.cell (.left root) with
    | none => .ok (parent, root)
    | some left => leftmost q fuel (.left root) left

/-- `get_unfinished` takes the state with the least number out of the tree. -/
def get (q : Unfinished σ) : Except UnfinishedFault (Option σ × Unfinished σ) :=
  match q.mem.cell .root with
  | none => .ok (none, q)
  | some root =>
    match q.leftmost maxUnfinished .root root with
    | .error fault => .error fault
    | .ok (parent, root) =>
      let q := { q with mem := q.mem.set parent (q.mem.cell (.right root)) }
      let q := { q with mem := q.mem.set (.left root) q.available, available := some root }
      .ok (q.mem.val root, q)

/-- A call of `add_unfinished` or of `get_unfinished`. -/
inductive Call (σ : Type*) where
  /-- `add_unfinished(state)`, which hangs in a state. -/
  | add (state : σ)
  /-- `get_unfinished()`, which takes out a state. -/
  | get

/-- A call of one of the functions, with what it returns. -/
def call (num : σ → ℕ) (q : Unfinished σ) :
    Call σ → Except UnfinishedFault (Option σ × Unfinished σ)
  | .add state => (q.add num state).map fun q => (none, q)
  | .get => q.get

/-- A sequence of calls, each with the state that it returns. -/
def calls (num : σ → ℕ) : List (Call σ) → Unfinished σ →
    Except UnfinishedFault (List (Call σ × Option σ) × Unfinished σ)
  | [], q => .ok ([], q)
  | c :: l, q =>
    match q.call num c with
    | .error fault => .error fault
    | .ok (ret, q) => (calls num l q).map fun r => ((c, ret) :: r.1, r.2)

/-- The invariant, for the list of the pending states in the order of their numbers. -/
structure Holds (num : σ → ℕ) (q : Unfinished σ) (l : List σ) (t : BinaryTree (ℕ × σ))
    (free : List ℕ) : Prop where
  /-- The nodes in use make a search tree. -/
  tree : IsTree q.mem .root t
  /-- The free nodes make a list. -/
  list : IsList q.mem q.available free
  /-- The nodes in the tree and the free nodes are those that have been handed out, each once. -/
  nodes : (SearchTree.nodes t ++ free).Perm (List.range q.nextAlloc)
  /-- The nodes come from the array. -/
  le : q.nextAlloc ≤ maxUnfinished
  /-- The states in the tree are those of `l`, in order. -/
  states : (inorder t).map Prod.snd = l
  /-- The states are ordered by their numbers. -/
  sorted : l.Pairwise (num · < num ·)
  /-- The numbers fit into an `int`. -/
  small : ∀ s ∈ l, num s < 2 ^ 31

end Unfinished

/-- What a call does to the set of the pending states, where the states are keyed by their
numbers. -/
def PendingStep {σ : Type*} [DecidableEq σ] (num : σ → ℕ) : Unfinished.Call σ × Option σ →
    Finset σ → Finset σ → Prop
  | (.add state, ret), P, P' => ret = none ∧
    ((∃ s ∈ P, num s = num state) ∧ P' = P ∨ (∀ s ∈ P, num s ≠ num state) ∧
    P' = Insert.insert state P)
  | (.get, none), P, P' => P = ∅ ∧ P' = ∅
  | (.get, some s), P, P' => s ∈ P ∧ (∀ s' ∈ P, num s ≤ num s') ∧ P' = P.erase s

namespace Unfinished

variable {σ : Type*} {num : σ → ℕ} {q q' : Unfinished σ} {l : List σ} {t : BinaryTree (ℕ × σ)}
  {free : List ℕ}

/-! ## The loops -/

/-- The difference of numbers that fit into an `int` is their difference. -/
lemma numCmp_eq {a b : ℕ} (ha : a < 2 ^ 31) (hb : b < 2 ^ 31) : numCmp a b = (a : ℤ) - b := by
  apply Int.bmod_eq_of_le <;> omega

/-- The walk to a state ends where it is, or where it would be hung. -/
lemma walk_eq {state : σ} (hstate : num state < 2 ^ 31) {fuel : ℕ} {p : Pointer ℕ}
    (h : IsTree q.mem p t) (hfuel : (inorder t).length ≤ fuel)
    (hsort : (inorder t).Pairwise fun x y => num x.2 < num y.2)
    (hsmall : ∀ x ∈ inorder t, num x.2 < 2 ^ 31) :
    (∃ parent root, q.walk num state fuel p (q.mem.cell p) = .ok (parent, some root) ∧
        ∃ x ∈ inorder t, num x.2 = num state) ∨
      q.walk num state fuel p (q.mem.cell p) = .ok (hole num (num state) p t, none) ∧
        ∀ x ∈ inorder t, num x.2 ≠ num state := by
  induction t generalizing fuel p with
  | nil =>
    have hcell : q.mem.cell p = none := h
    rw [hcell, hole]
    exact .inr ⟨by cases fuel <;> rfl, fun _ hx => absurd hx List.not_mem_nil⟩
  | node x l r ihl ihr =>
    obtain ⟨a, s⟩ := x
    obtain ⟨hcell, hval, hl, hr⟩ := h
    rw [inorder, List.length_append, List.length_cons] at hfuel
    rw [inorder, List.pairwise_append, List.pairwise_cons] at hsort
    obtain ⟨hsl, ⟨har, hsr⟩, hlar⟩ := hsort
    obtain ⟨fuel, rfl⟩ : ∃ n, fuel = n + 1 := ⟨fuel - 1, by omega⟩
    rw [hcell, walk, hval, hole, inorder]
    dsimp only
    have hs : num s < 2 ^ 31 := hsmall (a, s) (List.mem_append_right _ List.mem_cons_self)
    have hcmp := numCmp_eq hstate hs
    have hsmalll : ∀ x ∈ inorder l, num x.2 < 2 ^ 31 :=
      fun x hx => hsmall x (List.mem_append_left _ hx)
    have hsmallr : ∀ x ∈ inorder r, num x.2 < 2 ^ 31 := fun x hx =>
      hsmall x (List.mem_append_right _ (List.mem_cons_of_mem _ hx))
    by_cases heq : num state = num s
    · rw [if_pos (by omega)]
      exact .inl ⟨p, a, rfl, (a, s), by simp, heq.symm⟩
    · rw [if_neg (by omega)]
      by_cases hlt : num state < num s
      · -- what is on the right has a greater number
        rw [if_pos (by omega), if_pos hlt]
        rcases @ihl fuel _ hl (by omega) hsl hsmalll with ⟨parent, root, hwalk, x, hx, hxs⟩ |
          ⟨hwalk, hne⟩
        · exact .inl ⟨parent, root, hwalk, x, List.mem_append_left _ hx, hxs⟩
        · refine .inr ⟨hwalk, fun x hx => ?_⟩
          rcases List.mem_append.mp hx with hx | hx
          · exact hne x hx
          · rcases List.mem_cons.mp hx with rfl | hx
            · exact fun he => heq he.symm
            · have hsx := har x hx
              dsimp only at hsx
              omega
      · rw [if_neg (by omega), if_neg hlt]
        rcases @ihr fuel _ hr (by omega) hsr hsmallr with ⟨parent, root, hwalk, x, hx, hxs⟩ |
          ⟨hwalk, hne⟩
        · exact .inl ⟨parent, root, hwalk, x, List.mem_append_right _ (List.mem_cons_of_mem _ hx),
            hxs⟩
        · refine .inr ⟨hwalk, fun x hx => ?_⟩
          rcases List.mem_append.mp hx with hx | hx
          · have hxs := hlar x hx (a, s) List.mem_cons_self
            dsimp only at hxs
            omega
          · rcases List.mem_cons.mp hx with rfl | hx
            · exact fun he => heq he.symm
            · exact hne x hx

/-- The way to the left ends at the first element of the tree. -/
lemma leftmost_eq {fuel : ℕ} {p : Pointer ℕ} {a : ℕ} (h : IsTree q.mem p t)
    (hfuel : (inorder t).length ≤ fuel) (ha : q.mem.cell p = some a) :
    ∃ root, q.leftmost fuel p a = .ok (minPointer p t, root) ∧
      (SearchTree.nodes t).head? = some root := by
  induction p, t using SearchTree.minPointer.induct generalizing fuel a with
  | case1 p => exact absurd (h.symm.trans ha) (Option.some_ne_none a).symm
  | case2 p x r =>
    obtain ⟨b, s⟩ := x
    obtain ⟨hcell, -, hl, -⟩ := h
    have hba : b = a := Option.some.inj (hcell.symm.trans ha)
    subst hba
    rw [inorder, List.length_append, List.length_cons] at hfuel
    obtain ⟨fuel, rfl⟩ : ∃ n, fuel = n + 1 := ⟨fuel - 1, by omega⟩
    have hnone : q.mem.cell (.left b) = none := hl
    refine ⟨b, ?_, rfl⟩
    rw [leftmost, hnone, minPointer]
  | case3 p b s x l r r' ih =>
    obtain ⟨x, s'⟩ := x
    obtain ⟨hcell, -, hl, -⟩ := h
    have hba : b = a := Option.some.inj (hcell.symm.trans ha)
    subst hba
    rw [inorder, List.length_append, List.length_cons] at hfuel
    obtain ⟨fuel, rfl⟩ : ∃ n, fuel = n + 1 := ⟨fuel - 1, by omega⟩
    obtain ⟨root, hleft, hroot⟩ := @ih fuel x hl (by omega) hl.1
    have hne : SearchTree.nodes (.node (x, s') l r) ≠ [] := by simp
    refine ⟨root, ?_, ?_⟩
    · rw [leftmost, hl.1, minPointer]
      exact hleft
    · rw [nodes_node, List.head?_append_of_ne_nil _ hne]
      exact hroot

/-! ## The two functions -/

/-- The nodes in the tree and the free nodes are no more than have been handed out. -/
lemma Holds.length_eq (h : Holds num q l t free) :
    (inorder t).length + free.length = q.nextAlloc := by
  have hlen := h.nodes.length_eq
  rw [List.length_append, List.length_range, SearchTree.nodes, List.length_map] at hlen
  exact hlen

/-- The loops have enough turns for every path in the tree. -/
lemma Holds.length_le (h : Holds num q l t free) : (inorder t).length ≤ maxUnfinished := by
  have hlen := h.length_eq
  have hle := h.le
  omega

/-- The states of the tree are in the order of their numbers. -/
lemma Holds.pairwise (h : Holds num q l t free) :
    (inorder t).Pairwise fun x y => num x.2 < num y.2 := by
  have hsort := h.sorted
  rw [← h.states, List.pairwise_map] at hsort
  exact hsort

/-- No node is in the tree and free, or twice in one of them. -/
lemma Holds.nodup (h : Holds num q l t free) : (SearchTree.nodes t ++ free).Nodup :=
  h.nodes.nodup_iff.mpr List.nodup_range

/-- A node that is not in the tree is hung into it in the order of the numbers. -/
lemma Holds.hang {state : σ} {n : ℕ} (h : Holds num q l t free) (hn : n ∉ SearchTree.nodes t)
    (hnew : ∀ x ∈ inorder t, num x.2 ≠ num state) :
    ∃ t' l', IsTree ((q.mem.set (hole num (num state) .root t) (some n)).fill n state) .root t' ∧
      (SearchTree.nodes t').Perm (n :: SearchTree.nodes t) ∧ (inorder t').map Prod.snd = l' ∧
      l'.Pairwise (num · < num ·) ∧ l'.Perm (state :: l) := by
  have hperm := SearchTree.perm_insert (fun x : ℕ × σ => num x.2) (n, state) t
  have hsort :=
    SearchTree.pairwise_insert (fun x : ℕ × σ => num x.2) (a := (n, state)) h.pairwise hnew
  refine ⟨SearchTree.insert (fun x => num x.2) (n, state) t, _, ?_, ?_, rfl,
    List.pairwise_map.mpr hsort, ?_⟩
  · exact h.tree.insert h.nodup.of_append_left
      (fun a _ => ⟨Pointer.root_ne_left, Pointer.root_ne_right⟩) hn state
  · exact hperm.map Prod.fst
  · rw [← h.states]
    exact hperm.map Prod.snd

/-- The list of the free nodes is not touched when another node is hung into the tree. -/
lemma isList_hang {p : Option ℕ} {n : ℕ} {state : σ} (h : IsList q.mem p free) (hn : n ∉ free)
    (hdisj : ∀ a ∈ free, a ∉ SearchTree.nodes t) :
    IsList ((q.mem.set (hole num (num state) .root t) (some n)).fill n state) p free := by
  refine h.congr fun a ha => ?_
  have han : Pointer.left a ≠ .left n := fun he => hn (Pointer.left.inj he ▸ ha)
  have hhole : Pointer.left a ≠ hole num (num state) .root t :=
    SearchTree.ne_hole Pointer.root_ne_left.symm (Pointer.outside_left (hdisj a ha))
  rw [Mem.fill_cell_of_ne han Pointer.left_ne_right, Mem.set_cell_of_ne hhole]

/-- `add_unfinished` finds the state in the tree, hangs it there or has no node for it. -/
theorem add_spec (h : Holds num q l t free) {state : σ} (hstate : num state < 2 ^ 31) :
    (∃ s ∈ l, num s = num state) ∧ q.add num state = .ok q ∨
      (∀ s ∈ l, num s ≠ num state) ∧
      (l.length = maxUnfinished ∧ q.add num state = .error .insufficient ∨
        ∃ q' l' t' free', q.add num state = .ok q' ∧ l'.Perm (state :: l) ∧
          Holds num q' l' t' free') := by
  have hmem : ∀ x ∈ inorder t, x.2 ∈ l := fun x hx => h.states ▸ List.mem_map_of_mem hx
  have hsmall : ∀ x ∈ inorder t, num x.2 < 2 ^ 31 := fun x hx => h.small x.2 (hmem x hx)
  rcases walk_eq hstate h.tree h.length_le h.pairwise hsmall with
    ⟨parent, root, hwalk, x, hx, heq⟩ | ⟨hwalk, hnew⟩
  · left
    refine ⟨⟨x.2, hmem x hx, heq⟩, ?_⟩
    rw [add, hwalk]
  · right
    have hnew' : ∀ s ∈ l, num s ≠ num state := by
      rw [← h.states]
      intro s hs
      obtain ⟨x, hx, rfl⟩ := List.mem_map.mp hs
      exact hnew x hx
    refine ⟨hnew', ?_⟩
    have hsmall' : ∀ l' : List σ, l'.Perm (state :: l) → ∀ s ∈ l', num s < 2 ^ 31 := by
      intro l' hperm s hs
      rcases List.mem_cons.mp (hperm.mem_iff.mp hs) with rfl | hs
      · exact hstate
      · exact h.small s hs
    have hnodup := h.nodup
    have hlist := h.list
    rw [add, hwalk]
    dsimp only
    cases free with
    | cons n free =>
      -- a node that has been given back is used again
      obtain ⟨havail, hlist⟩ := hlist
      have hn : n ∉ SearchTree.nodes t :=
        fun hn => List.disjoint_of_nodup_append hnodup hn List.mem_cons_self
      have hnf : n ∉ free := (List.nodup_cons.mp hnodup.of_append_right).1
      have hdisj : ∀ a ∈ free, a ∉ SearchTree.nodes t := fun a ha hat =>
        List.disjoint_of_nodup_append hnodup hat (List.mem_cons_of_mem n ha)
      have hleft : Pointer.left n ≠ hole num (num state) .root t :=
        SearchTree.ne_hole Pointer.root_ne_left.symm (Pointer.outside_left hn)
      obtain ⟨t', l', htree, hnodes, hstates, hsort, hperm⟩ := h.hang hn hnew
      right
      rw [havail]
      dsimp only
      rw [fill, Mem.set_cell_self, Mem.set_cell_of_ne hleft]
      refine ⟨_, l', t', free, rfl, hperm, htree, isList_hang hlist hnf hdisj, ?_, h.le, hstates,
        hsort, hsmall' l' hperm⟩
      exact ((hnodes.append_right free).trans List.perm_middle.symm).trans h.nodes
    | nil =>
      have havail : q.available = none := hlist
      have hlen := h.length_eq
      rw [havail]
      dsimp only
      split
      · left
        refine ⟨?_, rfl⟩
        rw [← h.states, List.length_map]
        have hle := h.le
        rw [List.length_nil] at hlen
        omega
      · -- the next node of the array
        right
        rename_i hlt
        have hrange := h.nodes
        rw [List.append_nil] at hrange
        have hn : q.nextAlloc ∉ SearchTree.nodes t := fun hn =>
          absurd (List.mem_range.mp (hrange.mem_iff.mp hn)) (Nat.lt_irrefl _)
        obtain ⟨t', l', htree, hnodes, hstates, hsort, hperm⟩ := h.hang hn hnew
        rw [fill, Mem.set_cell_self]
        refine ⟨_, l', t', [], rfl, hperm, htree, rfl, ?_, Nat.lt_of_not_le hlt, hstates, hsort,
          hsmall' l' hperm⟩
        rw [List.append_nil, List.range_succ]
        exact (hnodes.trans (hrange.cons _)).trans (List.perm_append_singleton _ _).symm

/-- `get_unfinished` finds the tree empty, or takes out the first state. -/
theorem get_spec (h : Holds num q l t free) :
    l = [] ∧ q.get = .ok (none, q) ∨
      ∃ s l' q' t' free', l = s :: l' ∧ q.get = .ok (some s, q') ∧ Holds num q' l' t' free' := by
  have hnodup := h.nodup
  cases ht : inorder t with
  | nil =>
    have hl : l = [] := by rw [← h.states, ht, List.map_nil]
    have hroot : q.mem.cell .root = none := by
      cases t with
      | nil => exact h.tree
      | node x tl tr => exact absurd ht (by simp [inorder])
    left
    refine ⟨hl, ?_⟩
    rw [get, hroot]
  | cons x rest =>
    obtain ⟨root, s⟩ := x
    have hnodes :
      SearchTree.nodes t = root :: rest.map Prod.fst := by rw [SearchTree.nodes, ht, List.map_cons]
    obtain ⟨a, hcell⟩ : ∃ a, q.mem.cell .root = some a := by
      cases t with
      | nil => cases ht
      | node y tl tr => exact ⟨_, h.tree.cell_eq⟩
    obtain ⟨root', hleft, hroot⟩ := leftmost_eq h.tree h.length_le hcell
    have hdel :=
      h.tree.deleteMin hnodup.of_append_left
        (fun a _ => ⟨Pointer.root_ne_left, Pointer.root_ne_right⟩) hroot
    rw [hnodes, List.head?_cons] at hroot
    cases hroot
    have hval : q.mem.val root = some s := h.tree.val_eq (x := (root, s)) (ht ▸ List.mem_cons_self)
    -- the first node is not in the rest of the tree, and the free nodes are others
    rw [hnodes] at hnodup
    have hrest : root ∉ SearchTree.nodes (SearchTree.deleteMin t) := by
      rw [SearchTree.nodes_deleteMin, hnodes, List.tail_cons]
      exact (List.nodup_cons.mp hnodup.of_append_left).1
    have hrf : root ∉ free := fun hf => List.disjoint_of_nodup_append hnodup List.mem_cons_self hf
    have hdisj : ∀ a ∈ free, a ∉ SearchTree.nodes t := fun a ha hat =>
      List.disjoint_of_nodup_append hnodup (hnodes ▸ hat) ha
    right
    have hl : l = s :: rest.map Prod.snd := by rw [← h.states, ht, List.map_cons]
    have hget : q.get = .ok (some s, { q with
        mem :=
          (q.mem.set (minPointer .root t) (q.mem.cell (.right root))).set (.left root) q.available
        available := some root }) := by
      rw [get, hcell]
      dsimp only
      rw [hleft]
      dsimp only
      rw [Mem.set_val, Mem.set_val, hval]
    refine ⟨s, rest.map Prod.snd, _, SearchTree.deleteMin t, root :: free, hl, hget, ?_, ⟨rfl, ?_⟩,
      ?_, h.le, ?_, ?_, ?_⟩
    · exact hdel.set Pointer.root_ne_left (Pointer.outside_left hrest) _
    · rw [Mem.set_cell_self]
      refine h.list.congr fun a ha => ?_
      have har : Pointer.left a ≠ .left root := fun he => hrf (Pointer.left.inj he ▸ ha)
      have hmin : Pointer.left a ≠ minPointer .root t :=
        SearchTree.ne_minPointer Pointer.root_ne_left.symm (Pointer.outside_left (hdisj a ha))
      rw [Mem.set_cell_of_ne har, Mem.set_cell_of_ne hmin]
    · rw [SearchTree.nodes_deleteMin, hnodes, List.tail_cons]
      have hperm := h.nodes
      rw [hnodes] at hperm
      exact List.perm_middle.trans hperm
    · rw [SearchTree.inorder_deleteMin, ht, List.tail_cons]
    · have hsort := h.sorted
      rw [hl] at hsort
      exact hsort.of_cons
    · exact fun s' hs' => h.small s' (hl ▸ List.mem_cons_of_mem s hs')

/-- States in the order of their numbers are different. -/
lemma nodup_of_sorted (h : l.Pairwise (num · < num ·)) : l.Nodup :=
  h.imp fun hlt => ne_of_apply_ne num (Nat.ne_of_lt hlt)

/-! ## The pending states -/

section Pending

variable [DecidableEq σ]

/-- The pending states of a queue for which the invariant holds. -/
def Pending (num : σ → ℕ) (q : Unfinished σ) (P : Finset σ) : Prop :=
  ∃ l t free, Holds num q l t free ∧ l.toFinset = P

/-- Before the first call no state is pending. -/
lemma pending_init : (init : Unfinished σ).Pending num ∅ :=
  ⟨[], .nil, [], ⟨rfl, rfl, .refl _, Nat.zero_le _, rfl, .nil, nofun⟩, rfl⟩

/-- A call does to the pending states what it should, as long as there are not too many of them. -/
lemma Pending.call {P : Finset σ} (h : q.Pending num P) (c : Call σ)
    (hnum : ∀ s, c = .add s → num s < 2 ^ 31) (hle : ∀ ret P', PendingStep num (c, ret) P P' →
    P'.card ≤ maxUnfinished) : ∃ ret q' P', q.call num c = .ok (ret, q') ∧
    PendingStep num (c, ret) P P' ∧ q'.Pending num P' := by
  obtain ⟨l, t, free, h, rfl⟩ := h
  cases c with
  | add state =>
    rcases add_spec h (hnum state rfl) with
      ⟨⟨s, hs, heq⟩, hadd⟩ | ⟨hnew, ⟨hlen, -⟩ | ⟨q', l', t', free', hadd, hperm, h'⟩⟩
    · refine ⟨none, q, l.toFinset, ?_, ⟨rfl, .inl ⟨⟨s, List.mem_toFinset.mpr hs, heq⟩, rfl⟩⟩, l, t,
        free, h, rfl⟩
      rw [Unfinished.call, hadd]
      rfl
    · -- one state more would be too many
      have hstate : state ∉ l.toFinset := fun hs => hnew state (List.mem_toFinset.mp hs) rfl
      have hcard := hle none (Insert.insert state l.toFinset)
        ⟨rfl, .inr ⟨fun s hs => hnew s (List.mem_toFinset.mp hs), rfl⟩⟩
      rw [Finset.card_insert_of_notMem hstate, List.toFinset_card_of_nodup
        (nodup_of_sorted h.sorted)] at hcard
      omega
    · refine ⟨none, q', l'.toFinset,
        ?_, ⟨rfl, .inr ⟨fun s hs => hnew s (List.mem_toFinset.mp hs), ?_⟩⟩, l', t', free', h', rfl⟩
      · rw [Unfinished.call, hadd]
        rfl
      · rw [List.toFinset_eq_of_perm _ _ hperm, List.toFinset_cons]
  | get =>
    rcases get_spec h with ⟨rfl, hget⟩ | ⟨s, l', q', t', free', rfl, hget, h'⟩
    · exact ⟨none, q, ∅, hget, ⟨rfl, rfl⟩, [], t, free, h, rfl⟩
    · have hsort := List.pairwise_cons.mp h.sorted
      have hs : s ∉ l'.toFinset :=
        (List.nodup_cons.mp (nodup_of_sorted h.sorted)).1 ∘ List.mem_toFinset.mp
      refine ⟨some s, q', l'.toFinset, hget, ⟨?_, fun s' hs' => ?_, ?_⟩, l', t', free', h', rfl⟩
      · exact List.mem_toFinset.mpr List.mem_cons_self
      · rcases List.mem_cons.mp (List.mem_toFinset.mp hs') with rfl | hs'
        · exact Nat.le_refl _
        · exact Nat.le_of_lt (hsort.1 s' hs')
      · rw [List.toFinset_cons, Finset.erase_insert hs]

/-- The calls from a queue for which the invariant holds. -/
lemma Pending.calls {P : Finset σ} (h : q.Pending num P) (cs : List (Call σ))
    (hnum : ∀ s, .add s ∈ cs → num s < 2 ^ 31)
    (hle : ∀ log P', log.map Prod.fst <+: cs → Trace (PendingStep num) log P P' →
    P'.card ≤ maxUnfinished) : ∃ log q' P', Unfinished.calls num cs q = .ok (log, q') ∧
    log.map Prod.fst = cs ∧
      Trace (PendingStep num) log P P' ∧ q'.Pending num P' := by
  induction cs generalizing q P with
  | nil => exact ⟨[], q, P, rfl, rfl, .nil P, h⟩
  | cons c cs ih =>
    obtain ⟨ret, q₁, P₁, hcall, hstep, h₁⟩ :=
      h.call c (fun s hs => hnum s (hs ▸ List.mem_cons_self)) fun ret P' hstep =>
      hle [(c, ret)] P' (List.prefix_append [c] cs) (.cons hstep (.nil P'))
    obtain ⟨log, q', P', hcalls, hlog, htrace, h'⟩ :=
      ih h₁ (fun s hs => hnum s (List.mem_cons_of_mem c hs)) fun log P' hpre htrace =>
      hle ((c, ret) :: log) P' (List.cons_prefix_cons.mpr ⟨rfl, hpre⟩) (.cons hstep htrace)
    refine ⟨(c, ret) :: log, q', P', ?_, ?_, .cons hstep htrace, h'⟩
    · rw [Unfinished.calls, hcall]
      dsimp only
      rw [hcalls]
      rfl
    · rw [List.map_cons, hlog]

/-- The queue behaves as a set of states with different numbers.  As long as no more than
`MAXUNFINISHED` of them are pending at a time, every sequence of calls returns, each call does what
`PendingStep` says, and afterwards the tree is ordered, its states are the pending ones, and its
nodes and the free ones are those that have been handed out. -/
theorem calls_spec (num : σ → ℕ) (cs : List (Call σ)) (hnum : ∀ s, .add s ∈ cs → num s < 2 ^ 31)
    (hle : ∀ log P, log.map Prod.fst <+: cs → Trace (PendingStep num) log ∅ P →
    P.card ≤ maxUnfinished) : ∃ log q P, Unfinished.calls num cs init = .ok (log, q) ∧
    log.map Prod.fst = cs ∧
      Trace (PendingStep num) log ∅ P ∧ q.Pending num P :=
  pending_init.calls cs hnum hle

/-- A call adds one pending state at most, so that a run adds as many as it has calls. -/
lemma card_le_of_trace {log : List (Call σ × Option σ)} {P P' : Finset σ}
    (h : Trace (PendingStep num) log P P') : P'.card ≤ P.card + log.length := by
  induction h with
  | nil P => exact Nat.le_refl _
  | @cons c log P P₁ P' hstep _ ih =>
    have hstep : P₁.card ≤ P.card + 1 := by
      obtain ⟨call, ret⟩ := c
      cases call with
      | add state =>
        obtain ⟨-, ⟨-, rfl⟩ | ⟨-, rfl⟩⟩ := hstep
        · exact Nat.le_succ _
        · exact Finset.card_insert_le ..
      | get =>
        cases ret with
        | none =>
          obtain ⟨-, rfl⟩ := hstep
          exact Nat.zero_le _
        | some s =>
          obtain ⟨-, -, rfl⟩ := hstep
          exact (Finset.card_erase_le ..).trans (Nat.le_succ _)
    rw [List.length_cons]
    omega

/-- Six calls, with a state that is added twice and a node that is used again. -/
def sixCalls : List (Call ℕ) := [.add 3, .add 1, .add 3, .get, .add 2, .get]

/-- Theorem `calls_spec` for six calls, behind which the queue has what is pending. -/
theorem calls_spec_six :
    (∀ s, .add s ∈ sixCalls → id s < 2 ^ 31) ∧
      (∀ log P, log.map Prod.fst <+: sixCalls → Trace (PendingStep id) log ∅ P →
      P.card ≤ maxUnfinished) ∧ ∃ log q P, Unfinished.calls id sixCalls init = .ok (log, q) ∧
      log.map Prod.fst = sixCalls ∧
        Trace (PendingStep id) log ∅ P ∧ q.Pending id P := by
  have hsmall : ∀ s, .add s ∈ sixCalls → id s < 2 ^ 31 := by
    intro s hs
    simp only [sixCalls, List.mem_cons, Call.add.injEq, reduceCtorEq, List.not_mem_nil, or_false,
      false_or] at hs
    simp only [id]
    omega
  have hfew : ∀ log P, log.map Prod.fst <+: sixCalls → Trace (PendingStep id) log ∅ P →
      P.card ≤ maxUnfinished := by
    intro log P hpre htrace
    have hcard := card_le_of_trace htrace
    have hlen := hpre.length_le
    rw [List.length_map] at hlen
    have hsix : sixCalls.length ≤ maxUnfinished := by decide
    rw [Finset.card_empty] at hcard
    omega
  exact ⟨hsmall, hfew, calls_spec id sixCalls hsmall hfew⟩

end Pending

/-! ## The set of unfinished states of `lr` -/

variable {A : Automaton} {q : Unfinished ℕ}

/-- `add_unfinished` does to the set of the automaton what it does to the queue. -/
theorem addUnfinished_queue (h : q.Pending id A.unfinished) {n : ℕ} (hn : n < 2 ^ 31) :
    match A.addUnfinished n with
    | none => q.add id n = .error .insufficient
    | some A' => ∃ q', q.add id n = .ok q' ∧ q'.Pending id A'.unfinished := by
  obtain ⟨l, t, free, h, hl⟩ := h
  rw [Automaton.addUnfinished, ← hl]
  have hnum : id n < 2 ^ 31 := hn
  rcases add_spec h hnum with ⟨⟨s, hs, hsn⟩, hadd⟩ | ⟨hnew, hadd⟩
  · have hsn : s = n := hsn
    subst hsn
    rw [if_pos (List.mem_toFinset.mpr hs)]
    exact ⟨q, hadd, l, t, free, h, hl⟩
  · have hnl : n ∉ l.toFinset := fun hn => hnew n (List.mem_toFinset.mp hn) rfl
    have hcard := List.toFinset_card_of_nodup (nodup_of_sorted h.sorted)
    rw [if_neg hnl, hcard]
    rcases hadd with ⟨hlen, hadd⟩ | ⟨q', l', t', free', hadd, hperm, h'⟩
    · rw [if_pos hlen.ge]
      exact hadd
    · -- there was a node for one more state
      have hlen' := h'.length_le
      have hlen := hperm.length_eq
      rw [← h'.states, List.length_map, List.length_cons] at hlen
      rw [if_neg (by omega)]
      refine ⟨q', hadd, l', t', free', h', ?_⟩
      rw [List.toFinset_eq_of_perm _ _ hperm, List.toFinset_cons, hl]

/-- `get_unfinished` returns the state that the set of the model gives. -/
theorem getUnfinished_queue (h : q.Pending id A.unfinished)
    (hA : ∀ n ∈ A.unfinished, n < A.nstates) :
    ∃ q', q.get = .ok (A.getUnfinished.map Prod.fst, q') ∧
      ∀ r, A.getUnfinished = some r → q'.Pending id r.2.unfinished := by
  obtain ⟨l, t, free, h, hl⟩ := h
  rcases get_spec h with ⟨rfl, hget⟩ | ⟨s, l', q', t', free', rfl, hget, h'⟩
  · have hnone : A.getUnfinished = none := by
      rw [Automaton.getUnfinished, Option.map_eq_none_iff, List.find?_eq_none]
      intro n _
      rw [← hl]
      simp
    exact ⟨q, by rw [hget, hnone]; rfl, fun r hr => absurd (hnone.symm.trans hr) nofun⟩
  · have hsort := List.pairwise_cons.mp h.sorted
    have hs : s ∉ l'.toFinset :=
      (List.nodup_cons.mp (nodup_of_sorted h.sorted)).1 ∘ List.mem_toFinset.mp
    have hmem : s ∈ A.unfinished := hl ▸ List.mem_toFinset.mpr List.mem_cons_self
    have hfind : (List.range A.nstates).find? (fun n => n ∈ A.unfinished) = some s := by
      rw [List.find?_range_eq_some]
      refine ⟨decide_eq_true hmem, List.mem_range.mpr (hA s hmem), fun j hj => ?_⟩
      -- the first state of the list has the smallest number
      have hjl : j ∉ A.unfinished := by
        rw [← hl, List.mem_toFinset]
        intro hjl
        rcases List.mem_cons.mp hjl with rfl | hjl
        · exact Nat.lt_irrefl _ hj
        · exact Nat.lt_asymm hj (hsort.1 j hjl)
      simp [hjl]
    have hsome : A.getUnfinished = some (s, { A with unfinished := A.unfinished.erase s }) := by
      rw [Automaton.getUnfinished, hfind, Option.map_some]
    refine ⟨q', by rw [hget, hsome]; rfl, fun r hr => ?_⟩
    cases hsome.symm.trans hr
    refine ⟨l', t', free', h', ?_⟩
    rw [← hl, List.toFinset_cons, Finset.erase_insert hs]

end Unfinished

end Parser
