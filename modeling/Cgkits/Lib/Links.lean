import Mathlib.Data.List.Nodup
import Mathlib.Data.List.Basic
import Mathlib.Logic.Function.Basic
import Mathlib.Tactic.Basic

/-!
# Chains that are linked through pointers to pointers

A family of singly linked chains whose nodes also know where they hang: the back pointer of a node
is the address of the pointer that points at it, which is the head of a chain or the `next` field of
the node before.  So a node can be unlinked without a search, and without knowing its chain.

`IsChain m p l` says that following the pointers from `p` gives the nodes `l`, with all back
pointers right.  `Holds` says this of the whole family; `Holds.push` and `Holds.unlink` are the
rules for inserting a node at the head of a chain and for taking one out.
-/

namespace Links

variable {ι α : Type*}

/-- A pointer variable: the head of a chain or the `next` field of a node. -/
inductive Slot (ι α : Type*) where
  /-- The head of the chain with the number `i`. -/
  | head (i : ι)
  /-- The `next` field of a node. -/
  | next (n : α)
deriving DecidableEq

/-- The pointer variables and the back pointers. -/
structure Mem (ι α : Type*) where
  /-- The contents of the pointer variables. -/
  cell : Slot ι α → Option α
  /-- The back pointers, to the slot in front. -/
  prev : α → Option (Slot ι α)

/-- The memory in which nothing is linked, with all pointers null. -/
def Mem.empty : Mem ι α := ⟨fun _ => none, fun _ => none⟩

section Operations

variable [DecidableEq ι] [DecidableEq α]

/-- The memory after a write to the pointer variable `p`. -/
def Mem.setCell (m : Mem ι α) (p : Slot ι α) (a : Option α) : Mem ι α :=
  { m with cell := Function.update m.cell p a }

/-- The memory after a write to the back pointer of the node `n`. -/
def Mem.setPrev (m : Mem ι α) (n : α) (p : Option (Slot ι α)) : Mem ι α :=
  { m with prev := Function.update m.prev n p }

/-- The node that a pointer points at gets a back pointer, if there is one. -/
def Mem.setPrevOf (m : Mem ι α) (a : Option α) (p : Option (Slot ι α)) : Mem ι α :=
  match a with
  | some n => m.setPrev n p
  | none => m

/-- Put the node `n` in front of the chain `i`, with all back pointers. -/
def Mem.push (m : Mem ι α) (i : ι) (n : α) : Mem ι α :=
  let tmp := m.cell (.head i)
  (((m.setCell (.head i) (some n)).setPrev n (some (.head i))).setCell (.next n) tmp).setPrevOf tmp
    (some (.next n))

/-- Take the node `n` out of its chain; the result is nothing when `n` has no back pointer. -/
def Mem.unlink (m : Mem ι α) (n : α) : Option (Mem ι α) := do
  let p ← m.prev n
  let next := m.cell (.next n)
  some ((m.setCell p next).setPrevOf next (m.prev n))

end Operations

/-- The nodes from a pointer on, each with a back pointer to the pointer that points at it. -/
def IsChain (m : Mem ι α) : Slot ι α → List α → Prop
  | p, [] => m.cell p = none
  | p, n :: l => m.cell p = some n ∧ m.prev n = some p ∧ IsChain m (.next n) l

variable {m m' : Mem ι α} {p : Slot ι α} {l l₁ l₂ : List α} {n a : α}

/-! ## One chain -/

/-- A pointer to a chain points to its first node. -/
lemma IsChain.cell_eq (h : IsChain m p l) : m.cell p = l.head? := by
  rcases l with _ | ⟨n, l⟩
  · exact h
  · exact h.1

/-- The link of a node of a chain points to the rest of the chain. -/
lemma IsChain.of_append (h : IsChain m p (l₁ ++ n :: l₂)) : IsChain m (.next n) l₂ := by
  induction l₁ generalizing p with
  | nil => exact h.2.2
  | cons a l₁ ih => exact ih h.2.2

/-- A chain does not depend on pointers that are not its own. -/
lemma IsChain.congr (h : IsChain m p l) (hp : m'.cell p = m.cell p)
    (hl : ∀ n ∈ l, m'.cell (.next n) = m.cell (.next n) ∧ m'.prev n = m.prev n) :
    IsChain m' p l := by
  induction l generalizing p with
  | nil => exact hp.trans h
  | cons n l ih =>
    obtain ⟨hcell, hprev, hrest⟩ := h
    obtain ⟨hn, hl⟩ := List.forall_mem_cons.mp hl
    exact ⟨hp.trans hcell, hn.2.trans hprev, ih hrest hn.1 hl⟩

/-- The back pointer of a node is one of the pointers of the chain, and it points at the node. -/
lemma IsChain.exists_prev (h : IsChain m p l) (hn : n ∈ l) :
    ∃ q, m.prev n = some q ∧ m.cell q = some n ∧ (q = p ∨ ∃ a ∈ l, q = .next a) := by
  induction l generalizing p with
  | nil => exact absurd hn List.not_mem_nil
  | cons a l ih =>
    obtain ⟨hcell, hprev, hrest⟩ := h
    rcases List.mem_cons.mp hn with rfl | hn
    · exact ⟨p, hprev, hcell, .inl rfl⟩
    · obtain ⟨q, hq, hqn, rfl | ⟨b, hb, rfl⟩⟩ := ih hrest hn
      · exact ⟨_, hq, hqn, .inr ⟨a, List.mem_cons_self, rfl⟩⟩
      · exact ⟨_, hq, hqn, .inr ⟨b, List.mem_cons_of_mem a hb, rfl⟩⟩

/-- The node that a node of the chain is linked to is on the chain, too. -/
lemma IsChain.mem_of_next (h : IsChain m p l) (hn : n ∈ l) (ha : m.cell (.next n) = some a) :
    a ∈ l := by
  induction l generalizing p with
  | nil => exact absurd hn List.not_mem_nil
  | cons b l ih =>
    obtain ⟨-, -, hrest⟩ := h
    rcases List.mem_cons.mp hn with rfl | hn
    · rw [hrest.cell_eq] at ha
      exact List.mem_cons_of_mem n (List.mem_of_mem_head? ha)
    · exact List.mem_cons_of_mem b (ih hrest hn)

variable [DecidableEq α]

/-- Setting the back pointer of what is pointed at changes only this node's back pointer. -/
lemma Mem.setPrevOf_prev (m : Mem ι α) (b : Option α) (q : Option (Slot ι α)) (n : α) :
    (m.setPrevOf b q).prev n = if b = some n then q else m.prev n := by
  rcases b with _ | b
  · rfl
  · by_cases hb : b = n
    · subst hb
      rw [if_pos rfl]
      exact Function.update_self b q m.prev
    · rw [if_neg fun h => hb (Option.some.inj h)]
      exact Function.update_of_ne (Ne.symm hb) q m.prev

/-- Setting a back pointer leaves all the other pointers as they are. -/
@[simp] lemma Mem.setPrevOf_cell (m : Mem ι α) (b : Option α) (q : Option (Slot ι α)) :
    (m.setPrevOf b q).cell = m.cell := by
  rcases b <;> rfl

variable [DecidableEq ι]

/-- A push changes the head of the chain and the link of the new node, and no other pointer. -/
lemma Mem.push_cell (m : Mem ι α) (i : ι) (n : α) (q : Slot ι α) : (m.push i n).cell q =
    if q = .next n then m.cell (.head i) else if q = .head i then some n else m.cell q := by
  unfold Mem.push
  dsimp only
  rw [Mem.setPrevOf_cell]
  unfold Mem.setCell Mem.setPrev
  dsimp only
  rw [Function.update_apply, Function.update_apply]

/-- A push changes the back pointers of the new node and of the node that was first, and no other
one. -/
lemma Mem.push_prev (m : Mem ι α) (i : ι) (n b : α) : (m.push i n).prev b =
    if m.cell (.head i) = some b then some (.next n) else if b = n then some (.head i) else
      m.prev b := by
  unfold Mem.push
  dsimp only
  rw [Mem.setPrevOf_prev]
  unfold Mem.setCell Mem.setPrev
  dsimp only
  rw [Function.update_apply]

/-- Pushing a node to a chain puts it in front of the nodes of the chain. -/
lemma IsChain.push {i : ι} (h : IsChain m (.head i) l) (hn : n ∉ l) (hl : l.Nodup) :
    IsChain (m.push i n) (.head i) (n :: l) := by
  have hhead := h.cell_eq
  have hprev : (m.push i n).prev n = some (.head i) := by
    rw [Mem.push_prev, if_neg, if_pos rfl]
    intro hfirst
    exact hn (List.mem_of_mem_head? (hhead.symm.trans hfirst))
  refine ⟨by rw [Mem.push_cell, if_neg (by simp), if_pos rfl], hprev, ?_⟩
  have hcell : (m.push i n).cell (.next n) = l.head? := by rw [Mem.push_cell, if_pos rfl, hhead]
  rcases l with _ | ⟨a, l⟩
  · exact hcell
  · have hna : n ≠ a := fun h => hn (h ▸ List.mem_cons_self)
    refine ⟨hcell, (Mem.push_prev m i n a).trans (if_pos h.1), h.2.2.congr ?_ ?_⟩
    · rw [Mem.push_cell, if_neg (by simpa using hna.symm), if_neg (by simp)]
    · intro b hb
      have hbn : b ≠ n := fun h => hn (h ▸ List.mem_cons_of_mem a hb)
      have hab : a ≠ b := fun h => (List.nodup_cons.mp hl).1 (h ▸ hb)
      rw [Mem.push_cell, if_neg (by simpa using hbn), if_neg (by simp), Mem.push_prev, h.1,
        if_neg (by simpa using hab), if_neg hbn]
      exact ⟨rfl, rfl⟩

/-- Pushing a node to one chain leaves the other chains as they are. -/
lemma IsChain.push_of_ne {i j : ι} (h : IsChain m (.head j) l) (hij : j ≠ i) (hn : n ∉ l)
    (hfirst : ∀ a, m.cell (.head i) = some a → a ∉ l) : IsChain (m.push i n) (.head j) l := by
  refine h.congr ?_ ?_
  · rw [Mem.push_cell, if_neg (by simp), if_neg (by simpa using hij)]
  · intro b hb
    have hbn : b ≠ n := fun h => hn (h ▸ hb)
    rw [Mem.push_cell, if_neg (by simpa using hbn), if_neg (by simp), Mem.push_prev,
      if_neg fun h => hfirst b h hb, if_neg hbn]
    exact ⟨rfl, rfl⟩

/-- Unlinking a node redirects the pointer that points to it and the back pointer of the node behind
it. -/
lemma Mem.unlink_eq (m : Mem ι α) {n : α} {q : Slot ι α} (hq : m.prev n = some q) :
    ∃ m', m.unlink n = some m' ∧ (∀ r, m'.cell r = if r = q then m.cell (.next n) else m.cell r) ∧
    ∀ b, m'.prev b = if m.cell (.next n) = some b then some q else m.prev b := by
  unfold Mem.unlink
  rw [hq]
  refine ⟨_, rfl, fun r => ?_, fun b => ?_⟩
  · rw [Mem.setPrevOf_cell]
    exact Function.update_apply m.cell q _ r
  · rw [Mem.setPrevOf_prev]
    rfl

/-- Unlinking a node of a chain takes this node out of the chain and leaves the others in their
order. -/
lemma IsChain.unlink (h : IsChain m p l) (hl : l.Nodup) (hp : ∀ a ∈ l, p ≠ .next a) (hn : n ∈ l)
    (hm : m.unlink n = some m') : IsChain m' p (l.erase n) := by
  induction l generalizing p with
  | nil => exact absurd hn List.not_mem_nil
  | cons a l ih =>
    obtain ⟨hcell, hprev, hrest⟩ := h
    obtain ⟨ha, hl⟩ := List.nodup_cons.mp hl
    obtain ⟨hpa, hpl⟩ := List.forall_mem_cons.mp hp
    by_cases han : a = n
    · subst han
      obtain ⟨m'', hm'', hcell', hprev'⟩ := m.unlink_eq hprev
      obtain rfl : m'' = m' := Option.some.inj (hm''.symm.trans hm)
      rw [List.erase_cons_head]
      rcases l with _ | ⟨b, l⟩
      · exact (hcell' p).trans ((if_pos rfl).trans hrest)
      · obtain ⟨hb, hprevb, hrest⟩ := hrest
        refine ⟨(hcell' p).trans ((if_pos rfl).trans hb), (hprev' b).trans (if_pos hb),
          hrest.congr ?_ ?_⟩
        · rw [hcell', if_neg (Ne.symm (hpl b List.mem_cons_self))]
        · intro c hc
          have hbc : b ≠ c := fun h => (List.nodup_cons.mp hl).1 (h ▸ hc)
          rw [hcell', if_neg (Ne.symm (hpl c (List.mem_cons_of_mem b hc))), hprev', hb,
            if_neg (by simpa using hbc)]
          exact ⟨rfl, rfl⟩
    · have hn : n ∈ l := (List.mem_cons.mp hn).resolve_left (Ne.symm han)
      obtain ⟨q, hq, -, hqmem⟩ := hrest.exists_prev hn
      obtain ⟨m'', hm'', hcell', hprev'⟩ := m.unlink_eq hq
      obtain rfl : m'' = m' := Option.some.inj (hm''.symm.trans hm)
      have hqp : p ≠ q := by
        rcases hqmem with rfl | ⟨b, hb, rfl⟩
        · exact hpa
        · exact hpl b hb
      have hnext : m.cell (.next n) ≠ some a := fun h => ha (hrest.mem_of_next hn h)
      rw [List.erase_cons_tail (by simpa using han)]
      refine ⟨(hcell' p).trans ((if_neg hqp).trans hcell),
        (hprev' a).trans ((if_neg hnext).trans hprev), ?_⟩
      refine ih hrest hl ?_ hn
      intro b hb heq
      exact ha (Slot.next.inj heq ▸ hb)

/-! ## A family of chains -/

/-- The memory holds a family of chains that have no node in common. -/
structure Holds (m : Mem ι α) (chains : ι → List α) : Prop where
  /-- The chain with each number is what `chains` says. -/
  chain : ∀ i, IsChain m (.head i) (chains i)
  /-- A node is in a chain once. -/
  nodup : ∀ i, (chains i).Nodup
  /-- A node is in one chain only. -/
  disjoint : ∀ i j n, n ∈ chains i → n ∈ chains j → i = j

variable {chains : ι → List α}

omit [DecidableEq ι] [DecidableEq α] in
/-- The empty memory holds the empty chains. -/
lemma holds_empty : Holds (Mem.empty : Mem ι α) (fun _ => []) :=
  ⟨fun _ => rfl, fun _ => List.nodup_nil, fun _ _ _ h => absurd h List.not_mem_nil⟩

/-- A new node that is pushed to a chain is added in front of it, and the family keeps its shape. -/
theorem Holds.push (h : Holds m chains) (i : ι) (hn : ∀ j, n ∉ chains j) :
    Holds (m.push i n) (Function.update chains i (n :: chains i)) := by
  have hmem : ∀ j b, b ∈ Function.update chains i (n :: chains i) j → (j = i ∧ b = n) ∨
      b ∈ chains j := by
    intro j b hb
    by_cases hj : j = i
    · subst hj
      rw [Function.update_self, List.mem_cons] at hb
      exact hb.imp (fun h => ⟨rfl, h⟩) id
    · rw [Function.update_of_ne hj] at hb
      exact .inr hb
  refine ⟨fun j => ?_, fun j => ?_, fun j k b hj hk => ?_⟩
  · by_cases hj : j = i
    · subst hj
      rw [Function.update_self]
      exact (h.chain j).push (hn j) (h.nodup j)
    · rw [Function.update_of_ne hj]
      refine (h.chain j).push_of_ne hj (hn j) fun a ha hmem => hj ?_
      rw [(h.chain i).cell_eq] at ha
      exact h.disjoint j i a hmem (List.mem_of_mem_head? ha)
  · by_cases hj : j = i
    · subst hj
      rw [Function.update_self]
      exact List.nodup_cons.mpr ⟨hn j, h.nodup j⟩
    · rw [Function.update_of_ne hj]
      exact h.nodup j
  · rcases hmem j b hj with ⟨rfl, rfl⟩ | hbj <;> rcases hmem k b hk with ⟨rfl, hb⟩ | hbk
    · rfl
    · exact absurd hbk (hn k)
    · exact absurd (hb ▸ hbj) (hn j)
    · exact h.disjoint j k b hbj hbk

/-- A node of a chain can be unlinked, and the family loses just this node. -/
theorem Holds.unlink (h : Holds m chains) {i : ι} (hn : n ∈ chains i) :
    ∃ m', m.unlink n = some m' ∧ Holds m' (Function.update chains i ((chains i).erase n)) := by
  obtain ⟨q, hq, -, hqmem⟩ := (h.chain i).exists_prev hn
  obtain ⟨m', hm', hcell, hprev⟩ := m.unlink_eq hq
  have hsub : ∀ j b, b ∈ Function.update chains i ((chains i).erase n) j → b ∈ chains j := by
    intro j b hb
    by_cases hj : j = i
    · subst hj
      rw [Function.update_self] at hb
      exact List.mem_of_mem_erase hb
    · rw [Function.update_of_ne hj] at hb
      exact hb
  refine ⟨m', hm', fun j => ?_, fun j => ?_, fun j k b hj hk => h.disjoint j k b (hsub j b hj)
    (hsub k b hk)⟩
  · by_cases hj : j = i
    · subst hj
      rw [Function.update_self]
      exact (h.chain j).unlink (h.nodup j) (fun a _ => by simp) hn hm'
    · rw [Function.update_of_ne hj]
      refine (h.chain j).congr ?_ fun b hb => ?_
      · rw [hcell, if_neg]
        rintro rfl
        rcases hqmem with hq | ⟨a, -, ha⟩
        · exact hj (Slot.head.inj hq)
        · cases ha
      · rw [hcell, if_neg, hprev, if_neg]
        · exact ⟨rfl, rfl⟩
        · exact fun hnext => hj (h.disjoint j i b hb ((h.chain i).mem_of_next hn hnext))
        · rintro rfl
          rcases hqmem with hq | ⟨a, ha, hba⟩
          · cases hq
          · exact hj (h.disjoint j i b hb (Slot.next.inj hba ▸ ha))
  · by_cases hj : j = i
    · subst hj
      rw [Function.update_self]
      exact (h.nodup j).erase n
    · rw [Function.update_of_ne hj]
      exact h.nodup j

end Links
