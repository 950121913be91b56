import Mathlib

/-!
# Search trees that are linked through pointers

The trees are unbalanced.  `insert` adds a leaf and `deleteMin` takes out the first element; what
they do is said about the elements from left to right (`inorder`): they stay sorted.

`IsTree m p t` says that following the pointers from the pointer variable `p` gives the tree `t`.  A
new leaf is hung into the variable `hole`, and the first element is spliced out of the variable
`minPointer`; `IsTree.insert` and `IsTree.deleteMin` are the rules for these writes.  Nodes that are
not in the tree may form a list through their left pointers (`IsList`).
-/

namespace SearchTree

/-! ## Trees -/

section Trees

variable {γ β : Type*}

/-- The elements of the tree from left to right. -/
def inorder : BinaryTree γ → List γ
  | .nil => []
  | .node a l r => inorder l ++ a :: inorder r

/-- The tree without its first element, whose right subtree takes its place. -/
def deleteMin : BinaryTree γ → BinaryTree γ
  | .nil => .nil
  | .node _ .nil r => r
  | .node a (.node b l' r') r => .node a (deleteMin (.node b l' r')) r

/-- Deleting the first element leaves the others in their order. -/
lemma inorder_deleteMin (t : BinaryTree γ) : inorder (deleteMin t) = (inorder t).tail := by
  induction t using deleteMin.induct with
  | case1 => rfl
  | case2 a r => rfl
  | case3 a b l' r' r ih =>
    have hne : inorder (.node b l' r') ≠ [] := by simp [inorder]
    change inorder (deleteMin (.node b l' r')) ++ a :: inorder r =
      (inorder (.node b l' r') ++ a :: inorder r).tail
    rw [ih, List.tail_append_of_ne_nil hne]

variable [LinearOrder β] (key : γ → β)

/-- The tree with a new element, which becomes a leaf at the place that the keys determine. -/
def insert (a : γ) : BinaryTree γ → BinaryTree γ
  | .nil => .node a .nil .nil
  | .node b l r => if key a < key b then .node b (insert a l) r else .node b l (insert a r)

/-- The elements of the new tree are those of the old one and the new one. -/
lemma perm_insert (a : γ) (t : BinaryTree γ) :
    (inorder (insert key a t)).Perm (a :: inorder t) := by
  induction t with
  | nil => exact .refl _
  | node b l r ihl ihr =>
    rw [insert]
    split
    · exact ihl.append_right _
    · exact ((ihr.cons b).trans (.swap a b _)).append_left _ |>.trans List.perm_middle

/-- Inserting an element whose key is new keeps the elements sorted by their keys. -/
lemma pairwise_insert {a : γ} {t : BinaryTree γ} (ht : (inorder t).Pairwise (key · < key ·))
    (ha : ∀ b ∈ inorder t, key b ≠ key a) :
    (inorder (insert key a t)).Pairwise (key · < key ·) := by
  induction t with
  | nil => exact List.pairwise_singleton _ _
  | node b l r ihl ihr =>
    rw [inorder, List.pairwise_append, List.pairwise_cons] at ht
    obtain ⟨hl, ⟨hbr, hr⟩, hlbr⟩ := ht
    rw [insert]
    split
    · rename_i hlt
      rw [inorder, List.pairwise_append, List.pairwise_cons]
      refine ⟨ihl hl fun x hx => ha x (List.mem_append_left _ hx), ⟨hbr, hr⟩, fun x hx y hy => ?_⟩
      rcases List.mem_cons.mp ((perm_insert key a l).mem_iff.mp hx) with rfl | hx
      · -- the new element comes before the root and what is behind it
        rcases List.mem_cons.mp hy with rfl | hy
        · exact hlt
        · exact lt_trans hlt (hbr y hy)
      · exact hlbr x hx y hy
    · rename_i hlt
      have hba : key b < key a :=
        lt_of_le_of_ne (not_lt.mp hlt) (ha b (List.mem_append_right _ List.mem_cons_self))
      rw [inorder, List.pairwise_append, List.pairwise_cons]
      refine ⟨hl,
        ⟨fun y hy => ?_, ihr hr fun y hy =>
          ha y (List.mem_append_right _ (List.mem_cons_of_mem _ hy))⟩, fun x hx y hy => ?_⟩
      · rcases List.mem_cons.mp ((perm_insert key a r).mem_iff.mp hy) with rfl | hy
        · exact hba
        · exact hbr y hy
      · rcases List.mem_cons.mp hy with rfl | hy
        · exact hlbr x hx y List.mem_cons_self
        · rcases List.mem_cons.mp ((perm_insert key a r).mem_iff.mp hy) with rfl | hy
          · exact lt_trans (hlbr x hx b List.mem_cons_self) hba
          · exact hlbr x hx y (List.mem_cons_of_mem _ hy)

end Trees

/-! ## Linked trees -/

variable {α σ β : Type*}

/-- A pointer variable: the root of the tree or a field of a node. -/
inductive Pointer (α : Type*) where
  /-- The pointer to the root of the tree. -/
  | root
  /-- The field `left` of a node. -/
  | left (a : α)
  /-- The field `right` of a node. -/
  | right (a : α)
deriving DecidableEq

/-- The left and the right pointer of nodes are different variables. -/
lemma Pointer.left_ne_right {a b : α} : Pointer.left a ≠ .right b := nofun

/-- The root variable is not the left field of a node. -/
lemma Pointer.root_ne_left {a : α} : Pointer.root ≠ .left a := by simp

/-- The root variable is not the right field of a node. -/
lemma Pointer.root_ne_right {a : α} : Pointer.root ≠ .right a := by simp

/-- The memory of a tree: the contents of the pointer variables and the elements of the nodes. -/
structure Mem (α σ : Type*) where
  /-- The contents of the pointer variables. -/
  cell : Pointer α → Option α
  /-- The element of a node, if it has been filled. -/
  val : α → Option σ

section Writes

variable [DecidableEq α]

/-- The memory behind a write to a pointer variable. -/
def Mem.set (m : Mem α σ) (p : Pointer α) (q : Option α) : Mem α σ :=
  { m with cell := Function.update m.cell p q }

/-- The memory in which the node `n` holds the element `s` and has no subtrees. -/
def Mem.fill (m : Mem α σ) (n : α) (s : σ) : Mem α σ :=
  { (m.set (.right n) none).set (.left n) none with val := Function.update m.val n (some s) }

end Writes

/-- The nodes of a tree, from left to right, without their elements. -/
def nodes (t : BinaryTree (α × σ)) : List α := (inorder t).map Prod.fst

/-- The pointer variable is not a field of a node of the list. -/
def Pointer.Outside (p : Pointer α) (l : List α) : Prop := ∀ a ∈ l, p ≠ .left a ∧ p ≠ .right a

/-- The left field of a node that is not in the list is outside of the list. -/
lemma Pointer.outside_left {b : α} {l : List α} (h : b ∉ l) : (Pointer.left b).Outside l :=
  fun _ ha => ⟨fun he => h (Pointer.left.inj he ▸ ha), Pointer.left_ne_right⟩

/-- The right field of a node that is not in the list is outside of the list. -/
lemma Pointer.outside_right {b : α} {l : List α} (h : b ∉ l) : (Pointer.right b).Outside l :=
  fun _ ha => ⟨Pointer.left_ne_right.symm, fun he => h (Pointer.right.inj he ▸ ha)⟩

/-- The memory holds the tree that hangs in a pointer variable, with its elements. -/
def IsTree (m : Mem α σ) : Pointer α → BinaryTree (α × σ) → Prop
  | p, .nil => m.cell p = none
  | p, .node (a, s) l r =>
    m.cell p = some a ∧ m.val a = some s ∧ IsTree m (.left a) l ∧ IsTree m (.right a) r

/-- The nodes from a pointer on, linked through their left pointers. -/
def IsList (m : Mem α σ) : Option α → List α → Prop
  | p, [] => p = none
  | p, a :: l => p = some a ∧ IsList m (m.cell (.left a)) l

/-- The pointer variable in which a new element with the key `k` is hung. -/
def hole [LinearOrder β] (key : σ → β) (k : β) : Pointer α → BinaryTree (α × σ) → Pointer α
  | p, .nil => p
  | _, .node (b, s) l r => if k < key s then hole key k (.left b) l else hole key k (.right b) r

/-- The pointer variable in which the leftmost node of a tree hangs. -/
def minPointer : Pointer α → BinaryTree (α × σ) → Pointer α
  | p, .nil => p
  | p, .node _ .nil _ => p
  | _, .node (a, _) (.node b l r) _ => minPointer (.left a) (.node b l r)

variable {m m' : Mem α σ} {p : Pointer α} {t l r : BinaryTree (α × σ)} {a n : α} {s : σ}

/-- The nodes of a tree are those on the left, the root, and those on the right. -/
@[simp] lemma nodes_node : nodes (.node (a, s) l r) = nodes l ++ a :: nodes r := by
  rw [nodes, inorder, List.map_append, List.map_cons, nodes, nodes]

/-- The variable in which a tree hangs points to its root. -/
lemma IsTree.cell_eq (h : IsTree m p (.node (a, s) l r)) : m.cell p = some a := h.1

/-- The nodes that are left when the first element is taken out. -/
lemma nodes_deleteMin (t : BinaryTree (α × σ)) : nodes (deleteMin t) = (nodes t).tail := by
  rw [nodes, inorder_deleteMin, List.map_tail, nodes]

/-- A tree depends on the pointer to its root and on its own pointer variables and elements only. -/
lemma IsTree.congr {p' : Pointer α} (h : IsTree m p t) (hp : m'.cell p' = m.cell p)
    (hcell : ∀ a ∈ nodes t, m'.cell (.left a) = m.cell (.left a) ∧
    m'.cell (.right a) = m.cell (.right a)) (hval : ∀ a ∈ nodes t, m'.val a = m.val a) :
    IsTree m' p' t := by
  induction t generalizing p p' with
  | nil => exact hp.trans h
  | node x l r ihl ihr =>
    obtain ⟨a, s⟩ := x
    obtain ⟨hcellp, hs, hl, hr⟩ := h
    simp only [nodes_node, List.mem_append, List.mem_cons] at hcell hval
    obtain ⟨hleft, hright⟩ := hcell a (.inr (.inl rfl))
    refine ⟨hp.trans hcellp, (hval a (.inr (.inl rfl))).trans hs,
      ihl hl hleft ?_ ?_, ihr hr hright ?_ ?_⟩
    · exact fun b hb => hcell b (.inl hb)
    · exact fun b hb => hval b (.inl hb)
    · exact fun b hb => hcell b (.inr (.inr hb))
    · exact fun b hb => hval b (.inr (.inr hb))

/-- Every node of a tree holds the element that the tree has there. -/
lemma IsTree.val_eq (h : IsTree m p t) {x : α × σ} (hx : x ∈ inorder t) : m.val x.1 = some x.2 := by
  induction t generalizing p with
  | nil => cases hx
  | node y l r ihl ihr =>
    obtain ⟨a, s⟩ := y
    obtain ⟨-, hval, hl, hr⟩ := h
    rcases List.mem_append.mp hx with hx | hx
    · exact ihl hl hx
    · rcases List.mem_cons.mp hx with rfl | hx
      · exact hval
      · exact ihr hr hx

/-- A list depends on the left pointers of its own nodes only. -/
lemma IsList.congr {q : Option α} {free : List α} (h : IsList m q free)
    (hcell : ∀ a ∈ free, m'.cell (.left a) = m.cell (.left a)) : IsList m' q free := by
  induction free generalizing q with
  | nil => exact h
  | cons a free ih =>
    obtain ⟨hq, hfree⟩ := h
    refine ⟨hq, ?_⟩
    rw [hcell a List.mem_cons_self]
    exact ih hfree fun b hb => hcell b (List.mem_cons_of_mem _ hb)

/-- A new element is hung into the tree or into a field of its nodes. -/
lemma hole_mem [LinearOrder β] {key : σ → β} {k : β} (p : Pointer α) (t : BinaryTree (α × σ)) :
    hole key k p t = p ∨ ∃ a ∈ nodes t, hole key k p t = .left a ∨ hole key k p t = .right a := by
  induction t generalizing p with
  | nil => exact .inl rfl
  | node x l r ihl ihr =>
    obtain ⟨b, s⟩ := x
    rw [hole, nodes_node]
    right
    split
    · rcases ihl (.left b) with h | ⟨a, ha, h⟩
      · exact ⟨b, by simp, .inl h⟩
      · exact ⟨a, List.mem_append_left _ ha, h⟩
    · rcases ihr (.right b) with h | ⟨a, ha, h⟩
      · exact ⟨b, by simp, .inr h⟩
      · exact ⟨a, by simp [ha], h⟩

/-- The hole in which a new element is hung is not a field of a node outside of the tree. -/
lemma hole_outside [LinearOrder β] {key : σ → β} {k : β} {l' : List α} (hp : p.Outside l')
    (hl' : ∀ a ∈ nodes t, a ∉ l') : (hole key k p t).Outside l' := by
  have hmem : hole key k p t = p ∨ ∃ a ∈ nodes t, hole key k p t = .left a ∨
    hole key k p t = .right a := hole_mem p t
  rcases hmem with h | ⟨b, hb, h | h⟩
  · rw [h]
    exact hp
  · rw [h]
    exact Pointer.outside_left (hl' b hb)
  · rw [h]
    exact Pointer.outside_right (hl' b hb)

/-- A variable outside of the tree is not the hole in which a new element is hung. -/
lemma ne_hole [LinearOrder β] {key : σ → β} {k : β} {p' : Pointer α} (hne : p' ≠ p)
    (hp' : p'.Outside (nodes t)) : p' ≠ hole key k p t := by
  have hmem : hole key k p t = p ∨ ∃ a ∈ nodes t, hole key k p t = .left a ∨
    hole key k p t = .right a := hole_mem p t
  rcases hmem with h | ⟨b, hb, h | h⟩
  · rw [h]
    exact hne
  · rw [h]
    exact (hp' b hb).1
  · rw [h]
    exact (hp' b hb).2

/-- The first element hangs in the given variable or in a field of a node. -/
lemma minPointer_mem (p : Pointer α) (t : BinaryTree (α × σ)) :
    minPointer p t = p ∨ ∃ a ∈ (nodes t).tail, minPointer p t = .left a := by
  induction p, t using minPointer.induct with
  | case1 p => exact .inl rfl
  | case2 p a r => exact .inl rfl
  | case3 p a s b l r r' ih =>
    obtain ⟨b, s'⟩ := b
    have hne : nodes (.node (b, s') l r) ≠ [] := by simp
    rw [minPointer, nodes_node, List.tail_append_of_ne_nil hne]
    right
    rcases ih with h | ⟨c, hc, h⟩
    · exact ⟨a, by simp, h⟩
    · exact ⟨c, List.mem_append_left _ hc, h⟩

/-- The first element does not hang in a field of other nodes. -/
lemma minPointer_outside {l' : List α} (hp : p.Outside l') (hl' : ∀ a ∈ nodes t, a ∉ l') :
    (minPointer p t).Outside l' := by
  rcases minPointer_mem p t with h | ⟨b, hb, h⟩
  · rw [h]
    exact hp
  · rw [h]
    exact Pointer.outside_left (hl' b (List.mem_of_mem_tail hb))

/-- A variable outside of the tree is not the one in which the first element hangs. -/
lemma ne_minPointer {p' : Pointer α} (hne : p' ≠ p) (hp' : p'.Outside (nodes t)) :
    p' ≠ minPointer p t := by
  rcases minPointer_mem p t with h | ⟨b, hb, h⟩
  · rw [h]
    exact hne
  · rw [h]
    exact (hp' b (List.mem_of_mem_tail hb)).1

/-! ## The rules for the writes -/

section Rules

variable [DecidableEq α]

/-- A pointer variable holds what has been written to it. -/
@[simp] lemma Mem.set_cell_self (m : Mem α σ) (p : Pointer α) (q : Option α) :
    (m.set p q).cell p = q :=
  Function.update_self ..

/-- A write leaves the other pointer variables as they are. -/
lemma Mem.set_cell_of_ne {p' : Pointer α} (h : p' ≠ p) (q : Option α) :
    (m.set p q).cell p' = m.cell p' :=
  Function.update_of_ne h ..

/-- A write to a pointer variable leaves the elements of the nodes as they are. -/
@[simp] lemma Mem.set_val (m : Mem α σ) (p : Pointer α) (q : Option α) : (m.set p q).val = m.val :=
  rfl

/-- A node that has been filled has the element and no subtrees. -/
lemma Mem.fill_self (m : Mem α σ) (n : α) (s : σ) :
    (m.fill n s).cell (.left n) = none ∧ (m.fill n s).cell (.right n) = none ∧
    (m.fill n s).val n = some s := by
  refine ⟨Function.update_self .., ?_, Function.update_self ..⟩
  change ((m.set (.right n) none).set (.left n) none).cell (.right n) = none
  rw [Mem.set_cell_of_ne Pointer.left_ne_right.symm, Mem.set_cell_self]

/-- Filling a node leaves the pointer variables outside of it as they are. -/
lemma Mem.fill_cell_of_ne (hl : p ≠ .left n) (hr : p ≠ .right n) (s : σ) :
    (m.fill n s).cell p = m.cell p :=
  (Function.update_of_ne hl ..).trans (Function.update_of_ne hr ..)

/-- Filling a node leaves the elements of the other nodes as they are. -/
lemma Mem.fill_val_of_ne (h : a ≠ n) (s : σ) : (m.fill n s).val a = m.val a :=
  Function.update_of_ne h ..

/-- A subtree is not touched by a write to a variable outside of it. -/
lemma IsTree.set (h : IsTree m p t) {p' : Pointer α} (hp : p ≠ p') (hp' : p'.Outside (nodes t))
    (q : Option α) : IsTree (m.set p' q) p t :=
  h.congr (Mem.set_cell_of_ne hp q)
    (fun a ha => ⟨Mem.set_cell_of_ne (hp' a ha).1.symm q, Mem.set_cell_of_ne (hp' a ha).2.symm q⟩)
    fun _ _ => rfl

/-- A tree is not touched when a node outside of it is filled. -/
lemma IsTree.fill (h : IsTree m p t) (hp : p ≠ .left n ∧ p ≠ .right n) (hn : n ∉ nodes t) (s : σ) :
    IsTree (m.fill n s) p t := by
  have hne : ∀ a ∈ nodes t, a ≠ n := fun a ha han => hn (han ▸ ha)
  refine h.congr (Mem.fill_cell_of_ne hp.1 hp.2 s) (fun a ha => ⟨?_, ?_⟩) fun a ha =>
    Mem.fill_val_of_ne (hne a ha) s
  · exact Mem.fill_cell_of_ne (fun he => hne a ha (Pointer.left.inj he)) Pointer.left_ne_right s
  · exact Mem.fill_cell_of_ne Pointer.left_ne_right.symm (fun he => hne a ha (Pointer.right.inj he))
      s

/-- What is outside of the variable in which a new node is hung is not touched. -/
lemma IsTree.hang {q : Pointer α} (h : IsTree m p t) (hpq : p ≠ q) (hq : q.Outside (nodes t))
    (hp : p ≠ .left n ∧ p ≠ .right n) (hn : n ∉ nodes t) (s : σ) :
    IsTree ((m.set q (some n)).fill n s) p t :=
  (h.set hpq hq _).fill hp hn s

/-- A new node that is filled and hung into the hole makes the tree with its element inserted. -/
theorem IsTree.insert [LinearOrder β] {key : σ → β} (h : IsTree m p t) (hnodup : (nodes t).Nodup)
    (hp : p.Outside (n :: nodes t)) (hn : n ∉ nodes t) (s : σ) :
    IsTree ((m.set (hole key (key s) p t) (some n)).fill n s) p
    (SearchTree.insert (fun x => key x.2) (n, s) t) := by
  have hpn := hp n List.mem_cons_self
  induction t generalizing p with
  | nil =>
    obtain ⟨hl, hr, hval⟩ := Mem.fill_self (m.set p (some n)) n s
    exact ⟨(Mem.fill_cell_of_ne hpn.1 hpn.2 s).trans (Mem.set_cell_self ..), hval, hl, hr⟩
  | node x l r ihl ihr =>
    obtain ⟨b, s'⟩ := x
    obtain ⟨hcell, hval, hl, hr⟩ := h
    rw [nodes_node] at hnodup hp hn
    -- the root, the subtrees and the new node are apart
    have hbl : b ∉ nodes l := fun hb => List.disjoint_of_nodup_append hnodup hb List.mem_cons_self
    have hbr : b ∉ nodes r := (List.nodup_cons.mp hnodup.of_append_right).1
    have hlr : ∀ a ∈ nodes l, a ∉ nodes r := fun a ha har =>
      List.disjoint_of_nodup_append hnodup ha (List.mem_cons_of_mem b har)
    have hnl : n ∉ nodes l := fun ha => hn (List.mem_append_left _ ha)
    have hnb : n ≠ b := fun he => hn (List.mem_append_right _ (he ▸ List.mem_cons_self))
    have hnr : n ∉ nodes r := fun ha => hn (List.mem_append_right _ (List.mem_cons_of_mem b ha))
    have hbn : ∀ l', b ∉ l' → b ∉ n :: l' :=
      fun l' h => List.not_mem_cons_of_ne_of_not_mem hnb.symm h
    have hpb := hp b (List.mem_cons_of_mem n (List.mem_append_right _ List.mem_cons_self))
    have hpl : p.Outside (nodes l) :=
      fun a ha => hp a (List.mem_cons_of_mem n (List.mem_append_left _ ha))
    have hpr : p.Outside (nodes r) := fun a ha =>
      hp a (List.mem_cons_of_mem n (List.mem_append_right _ (List.mem_cons_of_mem b ha)))
    have hleft := (Pointer.outside_left (hbn _ hbl)) n List.mem_cons_self
    have hright := (Pointer.outside_right (hbn _ hbr)) n List.mem_cons_self
    rw [hole, SearchTree.insert]
    split
    · -- the new node goes into the left subtree
      refine ⟨?_, (Mem.fill_val_of_ne hnb.symm s).trans hval, ?_, ?_⟩
      · exact (Mem.fill_cell_of_ne hpn.1 hpn.2 s).trans
          ((Mem.set_cell_of_ne (ne_hole hpb.1 hpl) _).trans hcell)
      · exact ihl hl hnodup.of_append_left (Pointer.outside_left (hbn _ hbl)) hnl hleft
      · exact hr.hang (ne_hole Pointer.left_ne_right.symm (Pointer.outside_right hbl))
          (hole_outside (Pointer.outside_left hbr) hlr) hright hnr s
    · refine ⟨?_, (Mem.fill_val_of_ne hnb.symm s).trans hval, ?_, ?_⟩
      · exact (Mem.fill_cell_of_ne hpn.1 hpn.2 s).trans
          ((Mem.set_cell_of_ne (ne_hole hpb.2 hpr) _).trans hcell)
      · exact hl.hang (ne_hole Pointer.left_ne_right (Pointer.outside_left hbr))
          (hole_outside (Pointer.outside_right hbl) fun a har hal => hlr a hal har) hleft hnl s
      · exact ihr hr hnodup.of_append_right.of_cons (Pointer.outside_right (hbn _ hbr)) hnr hright

/-- The first element is taken out: its right subtree hangs where it hung. -/
theorem IsTree.deleteMin (h : IsTree m p t) (hnodup : (nodes t).Nodup) (hp : p.Outside (nodes t))
    (ha : (nodes t).head? = some a) :
    IsTree (m.set (minPointer p t) (m.cell (.right a))) p (SearchTree.deleteMin t) := by
  induction p, t using minPointer.induct with
  | case1 p => cases ha
  | case2 p x r =>
    obtain ⟨b, s⟩ := x
    obtain ⟨-, -, -, hr⟩ := h
    have hpr : ∀ c ∈ nodes r, p ≠ .left c ∧ p ≠ .right c :=
      fun c hc => hp c (List.mem_cons_of_mem b hc)
    cases Option.some.inj ha
    exact hr.congr (Mem.set_cell_self ..)
      (fun c hc => ⟨Mem.set_cell_of_ne (hpr c hc).1.symm _, Mem.set_cell_of_ne (hpr c hc).2.symm _⟩)
      fun _ _ => rfl
  | case3 p b s x l r r' ih =>
    obtain ⟨x, s'⟩ := x
    obtain ⟨hcell, hval, hl, hr⟩ := h
    rw [nodes_node] at hnodup hp ha
    have hbl : b ∉ nodes (.node (x, s') l r) := fun hb =>
      List.disjoint_of_nodup_append hnodup hb List.mem_cons_self
    have hbr : b ∉ nodes r' := (List.nodup_cons.mp hnodup.of_append_right).1
    have hlr : ∀ c ∈ nodes (.node (x, s') l r), c ∉ nodes r' := fun c hc hcr =>
      List.disjoint_of_nodup_append hnodup hc (List.mem_cons_of_mem b hcr)
    have hpb := hp b (List.mem_append_right _ List.mem_cons_self)
    have hpl : p.Outside (nodes (.node (x, s') l r)) := fun c hc => hp c (List.mem_append_left _ hc)
    have hne : nodes (.node (x, s') l r) ≠ [] := by simp
    rw [List.head?_append_of_ne_nil _ hne] at ha
    refine ⟨?_, hval, ?_, ?_⟩
    · exact (Mem.set_cell_of_ne (ne_minPointer hpb.1 hpl) _).trans hcell
    · exact ih hl hnodup.of_append_left (Pointer.outside_left hbl) ha
    · exact hr.set (ne_minPointer Pointer.left_ne_right.symm (Pointer.outside_right hbl))
        (minPointer_outside (Pointer.outside_left hbr) hlr) _

end Rules

end SearchTree
