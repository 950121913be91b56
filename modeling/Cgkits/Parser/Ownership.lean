import Cgkits.Parser.ItemStore

/-!
# Who owns the items (`yystate.c`)

An item is on the free list, in the live part of `closure_items`, in a state, or it is in nobody's
hands: it is just being made or freed, or it has been left behind.  `Owns` gives every item at most
one owner, so that nothing that has been freed is still in use and nothing that is in use is handed
out by `newitem`.

The lemmas say what the writes of `lr` do to the owners.  An item that is `Idle` has no owner;
`newitem` returns such an item, and `freeitem` expects one.
-/

namespace Parser

/-- Who has an item: the free list, the array of closure items or a state. -/
inductive Owner where
  /-- The item is on the free list. -/
  | free
  /-- It is in the live part of `closure_items`. -/
  | closure
  /-- It is in a slot of a state. -/
  | state (n : ℕ)
deriving DecidableEq

/-- An item as it stands in memory while it is in use. -/
def Item.cell (i : Item) : ItemCell :=
  ⟨i.prod.num, .prod i.prod, rightOfDot i.core, i.dotPosn, i.lookaheads⟩

namespace ItemStore

open Watched (Keeps read write stop)

/-! ## Owners -/

/-- The field `prod` of an item, when it is a pointer to the next item of the free list. -/
def next (s : ItemStore) (item : ℕ) : Option (Option ℕ) :=
  match s.heap item with
  | none => none
  | some c => match c.prod with
    | .prod _ => none
    | .next q => some q

/-- An item whose cell holds the link of the free list has this link as its next item. -/
lemma next_eq_some {item : ℕ} {s : ItemStore} {q : Option ℕ} :
    s.next item = some q ↔ ∃ c, s.heap item = some c ∧ c.prod = .next q := by
  unfold next
  constructor
  · intro h
    split at h
    · cases h
    · rename_i c hc
      split at h
      · cases h
      · rename_i q' hq'
        exact ⟨c, hc, hq'.trans (congrArg ProdField.next (Option.some.inj h))⟩
  · rintro ⟨c, hc, hq⟩
    rw [hc]
    dsimp only
    rw [hq]

/-- The items of a state, those of its kernel and then its epsilon items. -/
def slots (s : ItemStore) (n : ℕ) : List ℕ := (s.state n).kernelItems ++ (s.state n).epsilonItems

/-- The owners of the items, so that each item is in the hands of one owner at most. -/
structure Owns (s : ItemStore) (own : ℕ → Option Owner) (free : List ℕ) : Prop where
  /-- The free list is linked through the cells of its items. -/
  list : FreeList.IsList s.next s.recycledItems free
  /-- The items on the free list. -/
  free : ∀ a ∈ free, own a = some .free
  /-- The live part of `closure_items`. -/
  live : ∀ a ∈ s.closureItems, own a = some .closure
  /-- The items of a state are owned by this state. -/
  slot : ∀ n, ∀ a ∈ s.slots n, own a = some (.state n)
  /-- No item is twice in `closure_items`. -/
  nodup_live : s.closureItems.Nodup
  /-- No item is twice in a state. -/
  nodup_slots : ∀ n, (s.slots n).Nodup
  /-- What has not been allocated has no owner. -/
  fresh : ∀ a, s.brk ≤ a → own a = none

/-- Every item has at most one owner, for some choice of the owners. -/
def Owned (s : ItemStore) : Prop := ∃ own free, s.Owns own free

/-- The items are owned as before, and the item `a`, which exists, has no owner. -/
def Idle (s : ItemStore) (a : ℕ) : Prop := ∃ own free, s.Owns own free ∧ own a = none ∧ a < s.brk

variable {s t : ItemStore} {own : ℕ → Option Owner} {free l items : List ℕ} {a b n : ℕ}
  {c : ItemCell}

/-- The link of an item whose cell has not been written is the same. -/
lemma next_congr (h : t.heap a = s.heap a) : t.next a = s.next a := by
  unfold next
  rw [h]

/-- The items are owned when one of them has no owner. -/
lemma Idle.owned (h : s.Idle a) : s.Owned := by
  obtain ⟨own, free, hown, -⟩ := h
  exact ⟨own, free, hown⟩

/-- An item without an owner is not in the live part of `closure_items`. -/
lemma Idle.notMem_live (h : s.Idle a) : a ∉ s.closureItems := by
  obtain ⟨own, free, hown, hnone, -⟩ := h
  intro ha
  rw [hown.live a ha] at hnone
  cases hnone

/-- An item without an owner is in no state. -/
lemma Idle.notMem_slots (h : s.Idle a) (n : ℕ) : a ∉ s.slots n := by
  obtain ⟨own, free, hown, hnone, -⟩ := h
  intro ha
  rw [hown.slot n a ha] at hnone
  cases hnone

/-- An item in the live part of `closure_items` is in no state. -/
lemma Owned.notMem_slots (h : s.Owned) (ha : a ∈ s.closureItems) (n : ℕ) : a ∉ s.slots n := by
  obtain ⟨own, free, hown⟩ := h
  intro ha'
  have heq := (hown.live a ha).symm.trans (hown.slot n a ha')
  cases heq

/-- No item is twice in the live part of `closure_items`. -/
lemma Owned.nodup_live (h : s.Owned) : s.closureItems.Nodup := by
  obtain ⟨own, free, hown⟩ := h
  exact hown.nodup_live

/-- No item is twice in the slots of a state. -/
lemma Owned.nodup_slots (h : s.Owned) (n : ℕ) : (s.slots n).Nodup := by
  obtain ⟨own, free, hown⟩ := h
  exact hown.nodup_slots n

/-- No item is in the slots of two states. -/
lemma Owned.eq_of_mem_slots (h : s.Owned) {m : ℕ} (hm : a ∈ s.slots m) (hn : a ∈ s.slots n) :
    m = n := by
  obtain ⟨own, free, hown⟩ := h
  have heq := (hown.slot m a hm).symm.trans (hown.slot n a hn)
  cases heq
  rfl

/-! ## Writes -/

/-- A write to the memory of an item that is not on the free list. -/
lemma Owns.setHeap (h : s.Owns own free) (ha : own a ≠ some .free) (o : Option ItemCell) :
    ({ s with heap := Function.update s.heap a o } : ItemStore).Owns own free where
  list :=
    h.list.congr fun b hb =>
      next_congr (Function.update_of_ne (by rintro rfl; exact ha (h.free b hb)) _ _)
  free := h.free
  live := h.live
  slot := h.slot
  nodup_live := h.nodup_live
  nodup_slots := h.nodup_slots
  fresh := h.fresh

/-- A write to an item that is not on the free list leaves all owners as they are. -/
lemma Owns.setCell (h : s.Owns own free) (ha : own a ≠ some .free) (c : ItemCell) :
    (s.setCell a c).Owns own free :=
  h.setHeap ha (some c)

/-- When the memory of an item without an owner is freed, the items are owned as before. -/
lemma Idle.release (h : s.Idle a) :
    ({ s with heap := Function.update s.heap a none } : ItemStore).Owned := by
  obtain ⟨own, free, hown, hnone, -⟩ := h
  exact ⟨own, free, hown.setHeap (by rw [hnone]; simp) none⟩

/-- A write to an item without an owner leaves the item without one. -/
lemma Idle.setCell (h : s.Idle a) (c : ItemCell) : (s.setCell a c).Idle a := by
  obtain ⟨own, free, hown, hnone, hlt⟩ := h
  exact ⟨own, free, hown.setCell (by rw [hnone]; simp) c, hnone, hlt⟩

/-- A write to a live item leaves all items with their owners. -/
lemma Owned.setCell_live (h : s.Owned) (ha : a ∈ s.closureItems) (c : ItemCell) :
    (s.setCell a c).Owned := by
  obtain ⟨own, free, hown⟩ := h
  exact ⟨own, free, hown.setCell (by rw [hown.live a ha]; simp) c⟩

/-- A write to an item of a state leaves all items with their owners. -/
lemma Owned.setCell_slot (h : s.Owned) (ha : a ∈ s.slots n) (c : ItemCell) :
    (s.setCell a c).Owned := by
  obtain ⟨own, free, hown⟩ := h
  exact ⟨own, free, hown.setCell (by rw [hown.slot n a ha]; simp) c⟩

/-- An item that has an owner has been allocated. -/
lemma Owns.lt_brk (h : s.Owns own free) (ha : own a ≠ none) : a < s.brk := by
  by_contra hle
  exact ha (h.fresh a (Nat.le_of_not_lt hle))

/-- Items with another owner keep it when an item loses its owner. -/
lemma owner_erase {r : Owner} {o : Option Owner} (ha : own a = some r) (hb : own b = o)
    (hne : o ≠ some r) : Function.update own a none b = o := by
  have hba : b ≠ a := by
    rintro rfl
    exact hne (hb.symm.trans ha)
  rw [Function.update_of_ne hba, hb]

/-- The first item is taken off the free list, and then it has no owner. -/
lemma Owned.pop (h : s.Owned) (hs : s.recycledItems = some a) :
    ∃ q, s.next a = some q ∧ ({ s with recycledItems := q } : ItemStore).Idle a := by
  obtain ⟨own, free, hown⟩ := h
  have hlist := hown.list
  rw [hs] at hlist
  obtain ⟨q, l, rfl, hq, hl⟩ := hlist.pop
  have hnodup := hown.list.nodup
  have hfree := hown.free a List.mem_cons_self
  refine ⟨q, hq, Function.update own a none, l, ⟨hl, ?_, ?_, ?_, hown.nodup_live, hown.nodup_slots,
    ?_⟩, Function.update_self _ _ _, hown.lt_brk (by rw [hfree]; simp)⟩
  · intro b hb
    have hne : b ≠ a := fun hba => (List.nodup_cons.mp hnodup).1 (hba ▸ hb)
    rw [Function.update_of_ne hne]
    exact hown.free b (List.mem_cons_of_mem a hb)
  · exact fun b hb => owner_erase hfree (hown.live b hb) (by simp)
  · exact fun m b hb => owner_erase hfree (hown.slot m b hb) (by simp)
  · exact fun b hb => owner_erase hfree (hown.fresh b hb) (by simp)

/-- A new item from the memory has no owner. -/
lemma Owned.alloc (h : s.Owned) (c : ItemCell) :
    ({ s with heap := Function.update s.heap s.brk (some c), brk := s.brk + 1 } : ItemStore).Idle
    s.brk := by
  obtain ⟨own, free, hown⟩ := h
  have hnone := hown.fresh s.brk (Nat.le_refl _)
  refine ⟨own, free, ⟨?_, hown.free, hown.live, hown.slot, hown.nodup_live, hown.nodup_slots, ?_⟩,
    hnone, Nat.lt_succ_self _⟩
  · refine hown.list.congr fun b hb => next_congr (Function.update_of_ne (fun hba => ?_) _ _)
    have hfree := hown.free b hb
    rw [hba, hnone] at hfree
    cases hfree
  · intro b hb
    exact hown.fresh b (Nat.le_of_succ_le hb)

/-- Items that have an owner keep it when another item gets one. -/
lemma owner_update (hnone : own a = none) (o : Option Owner) {r : Owner} (hb : own b = some r) :
    Function.update own a o b = some r := by
  have hne : b ≠ a := by
    rintro rfl
    rw [hnone] at hb
    cases hb
  rw [Function.update_of_ne hne, hb]

/-- An item without an owner becomes a closure item. -/
lemma Idle.push (h : s.Idle a) :
    ({ s with closureItems := s.closureItems ++ [a] } : ItemStore).Owned := by
  have hnot := h.notMem_live
  obtain ⟨own, free, hown, hnone, hlt⟩ := h
  refine ⟨Function.update own a (some .closure), free, hown.list, ?_, ?_, ?_, ?_, hown.nodup_slots,
    ?_⟩
  · exact fun b hb => owner_update hnone _ (hown.free b hb)
  · intro b hb
    rcases List.mem_append.mp hb with hb | hb
    · exact owner_update hnone _ (hown.live b hb)
    · rw [List.mem_singleton.mp hb]
      exact Function.update_self _ _ _
  · exact fun m b hb => owner_update hnone _ (hown.slot m b hb)
  · exact List.nodup_append.mpr ⟨hown.nodup_live, List.nodup_singleton a,
      fun x hx y hy hxy => hnot (List.mem_singleton.mp hy ▸ hxy ▸ hx)⟩
  · intro b hb
    have hne : b ≠ a := fun hba => absurd hlt (Nat.not_lt_of_le (hba ▸ hb))
    rw [Function.update_of_ne hne]
    exact hown.fresh b hb

/-- An item without an owner is put on the free list. -/
lemma Idle.recycle (h : s.Idle a) (ha : s.next a = some s.recycledItems) :
    ({ s with recycledItems := some a } : ItemStore).Owned := by
  obtain ⟨own, free, hown, hnone, hlt⟩ := h
  refine ⟨Function.update own a (some .free), a :: free, hown.list.push ha,
    ?_, ?_, ?_, hown.nodup_live, hown.nodup_slots, ?_⟩
  · intro b hb
    rcases List.mem_cons.mp hb with rfl | hb
    · exact Function.update_self _ _ _
    · exact owner_update hnone _ (hown.free b hb)
  · exact fun b hb => owner_update hnone _ (hown.live b hb)
  · exact fun m b hb => owner_update hnone _ (hown.slot m b hb)
  · intro b hb
    have hne : b ≠ a := fun hba => absurd hlt (Nat.not_lt_of_le (hba ▸ hb))
    rw [Function.update_of_ne hne]
    exact hown.fresh b hb

/-- The live part gets other items out of the same ones. -/
lemma Owned.live (h : s.Owned) (hl : ∀ a ∈ l, a ∈ s.closureItems) (hnodup : l.Nodup) :
    ({ s with closureItems := l } : ItemStore).Owned := by
  obtain ⟨own, free, hown⟩ := h
  exact ⟨own, free, hown.list, hown.free, fun a ha => hown.live a (hl a ha), hown.slot, hnodup,
    hown.nodup_slots, hown.fresh⟩

/-- The first live item leaves `closure_items`, and then it has no owner. -/
lemma Owned.tail (h : s.Owned) (hl : s.closureItems = a :: l) :
    ({ s with closureItems := l } : ItemStore).Idle a := by
  obtain ⟨own, free, hown⟩ := h
  have hlive := hown.live
  have hnodup := hown.nodup_live
  rw [hl] at hlive hnodup
  have hclosure := hlive a List.mem_cons_self
  refine ⟨Function.update own a none, free, ⟨hown.list, ?_, ?_, ?_, (List.nodup_cons.mp hnodup).2,
    hown.nodup_slots, ?_⟩, Function.update_self _ _ _, hown.lt_brk (by rw [hclosure]; simp)⟩
  · exact fun b hb => owner_erase hclosure (hown.free b hb) (by simp)
  · intro b hb
    have hne : b ≠ a := fun hba => (List.nodup_cons.mp hnodup).1 (hba ▸ hb)
    rw [Function.update_of_ne hne]
    exact hlive b (List.mem_cons_of_mem a hb)
  · exact fun m b hb => owner_erase hclosure (hown.slot m b hb) (by simp)
  · exact fun b hb => owner_erase hclosure (hown.fresh b hb) (by simp)

/-- The items of the states when one of them is written. -/
lemma slots_update (s : ItemStore) (n : ℕ) (st : StateCell) (k : ℕ) (l : List ℕ) (m : ℕ) :
    ({ s with nstates := k, state := Function.update s.state n st, closureItems := l } :
    ItemStore).slots m =
      if m = n then st.kernelItems ++ st.epsilonItems else s.slots m := by
  unfold slots
  by_cases hm : m = n
  · subst hm
    rw [if_pos rfl]
    dsimp only
    rw [Function.update_self]
  · rw [if_neg hm]
    dsimp only
    rw [Function.update_of_ne hm]

/-- A state is written and keeps its items, so that they keep their owners. -/
lemma Owned.setState (h : s.Owned) (n : ℕ) (st : StateCell)
    (hst : st.kernelItems ++ st.epsilonItems = s.slots n) :
    ({ s with state := Function.update s.state n st } : ItemStore).Owned := by
  have hslots : ∀ m, ({ s with state := Function.update s.state n st } : ItemStore).slots m =
      s.slots m := by
    intro m
    rw [slots_update s n st s.nstates s.closureItems m]
    split
    · rename_i hm
      rw [hst, hm]
    · rfl
  obtain ⟨own, free, hown⟩ := h
  exact ⟨own, free, hown.list, hown.free, hown.live, fun m a ha => hown.slot m a (hslots m ▸ ha),
    hown.nodup_live, fun m => (hslots m).symm ▸ hown.nodup_slots m, hown.fresh⟩

/-- A state takes items over that are live or in nobody's hands. -/
lemma Owns.adopt (h : s.Owns own free) (n : ℕ) (st : StateCell) (items : List ℕ)
    (hitems : ∀ a ∈ items, own a = some .closure ∨ (own a = none ∧ a < s.brk))
    (hst : ∀ a ∈ st.kernelItems ++ st.epsilonItems, a ∈ s.slots n ∨ a ∈ items)
    (hnodup : (st.kernelItems ++ st.epsilonItems).Nodup)
    (hl : ∀ a ∈ l, a ∈ s.closureItems ∧ a ∉ items) (hlnodup : l.Nodup) (k : ℕ) :
    ({ s with nstates := k, state := Function.update s.state n st, closureItems := l } :
    ItemStore).Owned := by
  have hkeep : ∀ b, b ∉ items → (if b ∈ items then some (Owner.state n) else own b) = own b :=
    fun b hb => if_neg hb
  have hnot : ∀ b, own b ≠ none → own b ≠ some .closure → b ∉ items := by
    intro b hnone hclosure hb
    rcases hitems b hb with heq | ⟨heq, -⟩
    · exact hclosure heq
    · exact hnone heq
  refine ⟨fun b => if b ∈ items then some (.state n) else own b, free, h.list, ?_, ?_, ?_, hlnodup,
    ?_, ?_⟩
  · intro b hb
    have hfree := h.free b hb
    rw [hkeep b (hnot b (by rw [hfree]; simp) (by rw [hfree]; simp))]
    exact hfree
  · intro b hb
    rw [hkeep b (hl b hb).2]
    exact h.live b (hl b hb).1
  · intro m b hb
    rw [slots_update] at hb
    by_cases hm : m = n
    · rw [if_pos hm] at hb
      by_cases hmem : b ∈ items
      · exact (if_pos hmem).trans (by rw [hm])
      · rw [hkeep b hmem, hm]
        exact h.slot n b ((hst b hb).resolve_right hmem)
    · rw [if_neg hm] at hb
      have hslot := h.slot m b hb
      rw [hkeep b (hnot b (by rw [hslot]; simp) (by rw [hslot]; simp))]
      exact hslot
  · intro m
    rw [slots_update]
    split
    · exact hnodup
    · exact h.nodup_slots m
  · intro b hb
    have hmem : b ∉ items := by
      intro hmem
      have hnone := h.fresh b hb
      rcases hitems b hmem with heq | ⟨-, hlt⟩
      · rw [hnone] at heq
        cases heq
      · exact absurd hlt (Nat.not_lt_of_le hb)
    rw [hkeep b hmem]
    exact h.fresh b hb

/-! ## Making and freeing items -/

/-- The item at a pointer is read when the pointer is that of an item. -/
lemma fetch_run (h : s.heap a = some c) : fetch a s = ([], .ok (c, s)) := by
  have heq : fetch a s = (match s.heap a with
    | none => stop ItemFault.dangling
    | some c => (pure c : LrM ItemCell)) s := rfl
  rw [heq, h]
  rfl

/-- A write to an item keeps the owners when the memory behind the write has them. -/
lemma update_keeps {E : ItemFault → Prop} {Q : PUnit → ItemStore → Prop} {f : ItemCell → ItemCell}
    (h : s.heap a = some c) (hI : (s.setCell a (f c)).Owned) (hQ : Q ⟨⟩ (s.setCell a (f c))) :
    Keeps Owned E Q (update a f) s :=
  Keeps.silent (fetch_run h) (.write hI hQ)

/-- The item `a` has been made and has no owner yet; nothing else has been written. -/
structure Made (s : ItemStore) (a : ℕ) (c : ItemCell) (t : ItemStore) : Prop where
  /-- The new item has no owner yet. -/
  idle : t.Idle a
  /-- The new item holds the cell `c`. -/
  cell : t.heap a = some c
  /-- The other items are as they were. -/
  heap : ∀ b, b ≠ a → t.heap b = s.heap b
  /-- The other variables are as they were. -/
  frame : t = { s with heap := t.heap, brk := t.brk, recycledItems := t.recycledItems }

/-- A write to an item that is being made changes what the item holds. -/
lemma Made.update {E : ItemFault → Prop} (h : s.Made a c t) (f : ItemCell → ItemCell) :
    Keeps Owned E (fun _ u => s.Made a (f c) u) (update a f) t := by
  have hidle := h.idle.setCell (f c)
  refine update_keeps h.cell hidle.owned ⟨hidle, Function.update_self _ _ _, fun b hb => ?_, ?_⟩
  · exact (Function.update_of_ne hb _ _).trans (h.heap b hb)
  · rw [h.frame]
    rfl

/-- The memory for a new item comes from the free list or from the allocator, without an owner. -/
lemma takeItem_keeps (h : s.Owned) :
    Keeps Owned (fun _ => False) (fun a t => ∃ c, c.lookaheads = ∅ ∧ s.Made a c t) takeItem s := by
  refine Keeps.silent (m := read) rfl ?_
  cases hs : s.recycledItems with
  | none =>
    have hidle := h.alloc ⟨0, .next none, none, 0, ∅⟩
    refine Keeps.bind (.write hidle.owned ?_) fun _ t ht => Keeps.pure ht
    refine ⟨_, rfl, hidle, Function.update_self _ _ _, fun b hb => Function.update_of_ne hb _ _,
      rfl⟩
  | some a =>
    obtain ⟨q, hq, hidle⟩ := h.pop hs
    obtain ⟨c, hc, hprod⟩ := next_eq_some.mp hq
    refine Keeps.silent (fetch_run hc) ?_
    rw [hprod]
    have hmade : s.Made a c { s with recycledItems := q } := ⟨hidle, hc, fun _ _ => rfl, rfl⟩
    refine Keeps.bind (P := fun _ t => s.Made a c t) (.write hidle.owned hmade) fun _ t ht => ?_
    exact Keeps.bind (ht.update _) fun _ u hu => .pure ⟨_, rfl, hu⟩

/-- `newitem` returns an item that nobody has, with the dot in front and no lookaheads. -/
lemma newitem_keeps (h : s.Owned) (prod : Production) :
    Keeps Owned (fun _ => False) (fun a t => s.Made a (Item.cell ⟨prod, 0, ∅⟩) t)
    (newitem prod) s := by
  refine Keeps.bind (takeItem_keeps h) ?_
  rintro a t ⟨c, hempty, hmade⟩
  refine Keeps.bind (hmade.update _) fun _ t ht => ?_
  refine Keeps.bind (ht.update _) fun _ t ht => ?_
  refine Keeps.bind (ht.update _) fun _ t ht => ?_
  refine Keeps.bind (ht.update _) fun _ t ht => Keeps.pure ?_
  rw [hempty] at ht
  exact ht

/-- `freeitem` takes an item that nobody has; nothing else is written. -/
lemma freeitem_keeps (h : s.Idle a) (hc : s.heap a = some c) :
    Keeps Owned (fun _ => False) (fun _ t => t.Owned ∧ (∀ b, b ≠ a → t.heap b = s.heap b) ∧
      t = { s with heap := t.heap, recycledItems := t.recycledItems }) (freeitem a) s := by
  refine Keeps.silent (m := read) rfl ?_
  have hidle := h.setCell { c with prod := .next s.recycledItems }
  refine Keeps.bind (P := fun _ t => t = s.setCell a { c with prod := .next s.recycledItems }) ?_ ?_
  · exact update_keeps hc hidle.owned rfl
  · rintro _ t rfl
    have howned := hidle.recycle (next_eq_some.mpr ⟨_, Function.update_self _ _ _, rfl⟩)
    exact .write howned ⟨howned, fun b hb => Function.update_of_ne hb _ _, rfl⟩

end ItemStore

end Parser
