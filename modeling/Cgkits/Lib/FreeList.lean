import Mathlib.Data.List.Nodup
import Mathlib.Tactic.Basic

/-!
# Free lists that are threaded through a field of their nodes

Nodes that are not in use form a list: one field of a free node, which means something else in a
node that is in use, is the pointer to the next free node.  `next a` is this pointer when the node
`a` has one there.

`IsList next p l` says that following the pointers from `p` gives the nodes `l`.  Such a list ends,
so no node is on it twice (`IsList.nodup`).  Only the fields of its own nodes matter
(`IsList.congr`), so it stays as it is when other nodes are written.
-/

namespace FreeList

variable {α : Type*} {next next' : α → Option (Option α)} {p q : Option α} {a : α} {l l' : List α}

/-- The nodes that are linked from a pointer on, up to the null pointer. -/
def IsList (next : α → Option (Option α)) : Option α → List α → Prop
  | p, [] => p = none
  | p, a :: l => p = some a ∧ ∃ q, next a = some q ∧ IsList next q l

/-- From the null pointer on there are no nodes. -/
lemma isList_none_iff : IsList next none l ↔ l = [] := by
  cases l with
  | nil => exact iff_of_true rfl rfl
  | cons a l => exact iff_of_false (fun h => nomatch h.1) (List.cons_ne_nil a l)

/-- The nodes of a list are determined by the pointer to the first one. -/
lemma IsList.unique (h : IsList next p l) (h' : IsList next p l') : l = l' := by
  induction l generalizing p l' with
  | nil =>
    obtain rfl : p = none := h
    exact (isList_none_iff.mp h').symm
  | cons a l ih =>
    obtain ⟨rfl, q, hq, hl⟩ := h
    cases l' with
    | nil => cases h'
    | cons b l' =>
      obtain ⟨hb, q', hq', hl'⟩ := h'
      obtain rfl := Option.some.inj hb
      obtain rfl := Option.some.inj (hq.symm.trans hq')
      rw [ih hl hl']

/-- A list that is followed from one of its nodes on is the part of the list from there. -/
lemma IsList.suffix {l₁ : List α} (h : IsList next p (l₁ ++ a :: l)) :
    IsList next (some a) (a :: l) := by
  induction l₁ generalizing p with
  | nil =>
    obtain rfl : p = some a := h.1
    exact h
  | cons b l₁ ih =>
    obtain ⟨-, q, -, hl⟩ := h
    exact ih hl

/-- No node is on a list twice, since the list comes to an end. -/
lemma IsList.nodup (h : IsList next p l) : l.Nodup := by
  induction l generalizing p with
  | nil => exact List.nodup_nil
  | cons a l ih =>
    obtain ⟨rfl, q, hq, hl⟩ := h
    refine List.nodup_cons.mpr ⟨fun ha => ?_, ih hl⟩
    -- the list behind the second occurrence would be the same list
    obtain ⟨l₁, l₂, rfl⟩ := List.append_of_mem ha
    have heq :=
      hl.suffix.unique (show IsList next (some a) (a :: (l₁ ++ a :: l₂)) from ⟨rfl, q, hq, hl⟩)
    have hlen := congrArg List.length heq
    simp only [List.length_cons, List.length_append] at hlen
    omega

/-- A list depends only on the links of the nodes that are on it. -/
lemma IsList.congr (h : IsList next p l) (heq : ∀ a ∈ l, next' a = next a) : IsList next' p l := by
  induction l generalizing p with
  | nil => exact h
  | cons a l ih =>
    obtain ⟨rfl, q, hq, hl⟩ := h
    exact ⟨rfl, q, (heq a List.mem_cons_self).trans hq, ih hl fun b hb =>
      heq b (List.mem_cons_of_mem a hb)⟩

/-- A node with the pointer to the list is put in front of it. -/
lemma IsList.push (h : IsList next p l) (ha : next a = some p) : IsList next (some a) (a :: l) :=
  ⟨rfl, p, ha, h⟩

/-- A list that starts with a node is that node followed by the list that its link points to. -/
lemma IsList.pop (h : IsList next (some a) l) : ∃ q l', l = a :: l' ∧ next a = some q ∧
    IsList next q l' := by
  cases l with
  | nil => cases h
  | cons b l =>
    obtain ⟨hb, q, hq, hl⟩ := h
    obtain rfl := Option.some.inj hb
    exact ⟨q, l, rfl, hq, hl⟩

end FreeList
