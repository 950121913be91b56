import Cgkits.Parser.Ownership

/-!
# The state machine in memory and by value (`yystate.c`)

`Rep s A items` says that the memory `s` has the states of the automaton `A` and that the live part
of `closure_items` has the items `items`.  Every function of `ItemStore` is compared with the
function of the model that has items by value: it keeps the owners at every point, it stops exactly
when that function has no result, and else the memory represents the result.  So the reuse of items
is never seen.
-/

namespace Parser

/-- What stops a run in which no wrong pointer is followed: the program itself, or the model that
gives a loop up. -/
def ItemFault.Fatal : ItemFault → Prop
  | .dangling | .recycled | .inUse | .beyond | .null => False
  | _ => True

namespace ItemStore

open Watched (Keeps Simulates read write stop)
open ItemFault (Fatal)
open List (Forall₂)

variable {s t : ItemStore} {A : Automaton} {G : Grammar} {F : SetTable} {l : List ℕ}
  {items items' : List Item} {i j : Item} {a b n cur fuel : ℕ} {c : ItemCell}

/-! ## Representation -/

/-- The memory has the item `i` at the pointer `a`. -/
def Holds (s : ItemStore) (a : ℕ) (i : Item) : Prop := s.heap a = some i.cell

/-- The memory has the states of the automaton, and `items` in the live part of `closure_items`. -/
structure Rep (s : ItemStore) (A : Automaton) (items : List Item) : Prop where
  /-- The live part of `closure_items`. -/
  live : Forall₂ s.Holds s.closureItems items
  /-- `_nstates` is the same in both. -/
  nstates : s.nstates = A.nstates
  /-- `kernel_items` points to the kernel items. -/
  kernel : ∀ n, Forall₂ s.Holds (s.state n).kernelItems (A.state n).kernelItems
  /-- `epsilon_items` points to the epsilon items. -/
  epsilon : ∀ n, Forall₂ s.Holds (s.state n).epsilonItems (A.state n).epsilonItems
  /-- `closed` is the same in both. -/
  closed : ∀ n, (s.state n).closed = (A.state n).closed
  /-- `_actions` is the same in both. -/
  actions : s.actions = A.actions
  /-- `_gotos` is the same in both. -/
  gotos : s.gotos = A.gotos
  /-- The unfinished states are the same in both. -/
  unfinished : s.unfinished = A.unfinished

/-- There is one item at a pointer. -/
lemma Holds.unique (hi : s.Holds a i) (hj : s.Holds a j) : i = j := by
  have heq := Option.some.inj (hi.symm.trans hj)
  obtain ⟨p, d, look⟩ := i
  obtain ⟨q, e, look'⟩ := j
  unfold Item.cell at heq
  injection heq with _ hprod _ hdot hlook
  injection hprod with hprod
  dsimp only at hprod hdot hlook
  rw [hprod, hdot, hlook]

/-- Items that have not been written are still there. -/
lemma holds_congr (h : Forall₂ s.Holds l items) (heq : ∀ a ∈ l, t.heap a = s.heap a) :
    Forall₂ t.Holds l items := by
  induction h with
  | nil => exact .nil
  | cons ha _ ih =>
    exact .cons ((heq _ List.mem_cons_self).trans ha)
      (ih fun b hb => heq b (List.mem_cons_of_mem _ hb))

/-- A memory in which only items have been written that are not live and in no state. -/
lemma Rep.of_frame (h : s.Rep A items) (hheap : ∀ a, a ∈ s.closureItems ∨ (∃ n, a ∈ s.slots n) →
    t.heap a = s.heap a)
    (hframe : t = { s with heap := t.heap, brk := t.brk, recycledItems := t.recycledItems }) :
    t.Rep A items := by
  have hslot : ∀ n, ∀ a ∈ s.slots n, t.heap a = s.heap a := fun n a ha => hheap a (.inr ⟨n, ha⟩)
  rw [hframe]
  rw [hframe] at hheap
  constructor
  · exact holds_congr h.live fun a ha => hheap a (.inl ha)
  · exact h.nstates
  · exact fun n => holds_congr (h.kernel n) fun a ha => hslot n a (List.mem_append_left _ ha)
  · exact fun n => holds_congr (h.epsilon n) fun a ha => hslot n a (List.mem_append_right _ ha)
  · exact h.closed
  · exact h.actions
  · exact h.gotos
  · exact h.unfinished

/-- While an item is being made, everything else is represented. -/
lemma Made.rep (h : s.Made a c t) (hrep : s.Rep A items) : t.Rep A items := by
  have hlive := h.idle.notMem_live
  have hslots := h.idle.notMem_slots
  have hframe := h.frame
  refine hrep.of_frame (fun b hb => h.heap b ?_) hframe
  rintro rfl
  rw [hframe] at hlive hslots
  rcases hb with hb | ⟨n, hb⟩
  · exact hlive hb
  · exact hslots n hb

/-- An item that has been made becomes the last closure item. -/
lemma Made.push (h : s.Made a i.cell t) (hrep : s.Rep A items) :
    ({ t with closureItems := t.closureItems ++ [a] } : ItemStore).Owned ∧
      ({ t with closureItems := t.closureItems ++ [a] } : ItemStore).Rep A (items ++ [i]) := by
  have hrep := h.rep hrep
  exact ⟨h.idle.push, List.rel_append hrep.live (.cons h.cell .nil), hrep.nstates, hrep.kernel,
    hrep.epsilon, hrep.closed, hrep.actions, hrep.gotos, hrep.unfinished⟩

/-! ## Closure -/

/-- The memory while `closure` runs: the closure items are items of different productions, those
that were there at some time stay where they are, and the states have the items that they had
before. -/
structure Closing (st : ℕ → StateCell) (A : Automaton) (first : List (ℕ × Core)) (s : ItemStore)
    (items : List Item) : Prop where
  /-- Every item has one owner at most. -/
  owned : s.Owned
  /-- The items in memory are those of the model. -/
  rep : s.Rep A items
  /-- The states keep their items. -/
  state : s.state = st
  /-- The closure items that were there before. -/
  prefix_zip : first <+: s.closureItems.zip (items.map Item.core)
  /-- The productions are different. -/
  nodup : (items.map Item.prod).Nodup
  /-- The items fit into the array. -/
  length_le : items.length ≤ maxClose

variable {st : ℕ → StateCell} {first : List (ℕ × Core)} {did : Bool} {prod : Production}

/-- The fields `prod` of the cells are the productions of the items. -/
lemma map_prod_eq (h : Forall₂ s.Holds l items) :
    l.map (fun a => (s.heap a).map ItemCell.prod) = (items.map Item.prod).map fun p =>
      some (.prod p) := by
  induction h with
  | nil => rfl
  | cons ha _ ih =>
    rw [List.map_cons, List.map_cons, List.map_cons, ih, ha]
    rfl

/-- A closure item is determined by its production. -/
lemma Closing.eq_of_prod (h : Closing st A first s items) (ha : a ∈ s.closureItems)
    (hb : b ∈ s.closureItems) (hi : s.Holds a i) (hj : s.Holds b j) (heq : i.prod = j.prod) :
    a = b := by
  have hnodup : (s.closureItems.map fun a => (s.heap a).map ItemCell.prod).Nodup := by
    rw [map_prod_eq h.rep.live]
    refine h.nodup.map fun p q hpq => ?_
    injection hpq with hpq
    injection hpq
  refine List.inj_on_of_nodup_map hnodup ha hb ?_
  rw [hi, hj]
  exact congrArg (fun p => some (ProdField.prod p)) heq

/-- Writing the lookaheads of one item changes this item in the list. -/
lemma holds_setLook (h : Forall₂ s.Holds l items) (hb : s.Holds b i)
    (hiff : ∀ a ∈ l, ∀ j, s.Holds a j → (a = b ↔ j.prod = i.prod)) (set : Finset ℕ) :
    Forall₂ (s.setCell b { i.cell with lookaheads := set }).Holds l (setLook items i.prod set) := by
  induction h with
  | nil => exact .nil
  | @cons a j l items ha _ ih =>
    refine .cons ?_ (ih fun a ha => hiff a (List.mem_cons_of_mem _ ha))
    by_cases hab : a = b
    · subst hab
      obtain rfl := ha.unique hb
      exact (Function.update_self _ _ _).trans (by dsimp only; rw [if_pos rfl]; rfl)
    · have hne : ¬ j.prod = i.prod := fun hj => hab ((hiff a List.mem_cons_self j ha).mpr hj)
      dsimp only
      rw [if_neg hne]
      exact (Function.update_of_ne hab _ _).trans ha

/-- Replacing lookaheads keeps the productions and the dots. -/
lemma map_core_setLook (items : List Item) (p : Production) (set : Finset ℕ) :
    (Parser.setLook items p set).map Item.core = items.map Item.core := by
  unfold Parser.setLook
  rw [List.map_map]
  refine List.map_congr_left fun i _ => ?_
  dsimp only [Function.comp]
  split <;> rfl

/-- A write to the lookaheads of a closure item keeps the closure items in order. -/
lemma Closing.setLook (h : Closing st A first s items) (hb : b ∈ s.closureItems) (hi : s.Holds b i)
    (set : Finset ℕ) : Closing st A first (s.setCell b { i.cell with lookaheads := set })
    (setLook items i.prod set) := by
  have hother : ∀ n, ∀ a ∈ s.slots n, (s.setCell b { i.cell with lookaheads := set }).heap a =
      s.heap a := by
    intro n a ha
    refine Function.update_of_ne ?_ _ _
    rintro rfl
    exact h.owned.notMem_slots hb n ha
  have hcore := map_core_setLook items i.prod set
  have hprod := Grammar.map_prod_setLook items i.prod set
  refine ⟨h.owned.setCell_live hb _, ⟨?_, h.rep.nstates, ?_, ?_, h.rep.closed, h.rep.actions,
    h.rep.gotos, h.rep.unfinished⟩, h.state, hcore.symm ▸ h.prefix_zip, hprod.symm ▸
    h.nodup, (List.length_map _).trans_le h.length_le⟩
  · refine holds_setLook h.rep.live hi (fun a ha j hj => ⟨?_, h.eq_of_prod ha hb hj hi⟩) set
    rintro rfl
    rw [hj.unique hi]
  · exact fun n => holds_congr (h.rep.kernel n) fun a ha => hother n a (List.mem_append_left _ ha)
  · exact fun n => holds_congr (h.rep.epsilon n) fun a ha => hother n a (List.mem_append_right _ ha)

/-- Looking for the closure item of a production finds the one that there is, or nothing. -/
lemma inClosureItems_run (h : Forall₂ s.Holds l items) (prod : Production) :
    (inClosureItems prod l s = ([], .ok (none, s)) ∧ ∀ i ∈ items, i.prod ≠ prod) ∨
      ∃ b i, inClosureItems prod l s = ([], .ok (some b, s)) ∧ b ∈ l ∧ s.Holds b i ∧ i ∈ items ∧
        i.prod = prod ∧ closLook items prod = i.lookaheads := by
  induction h with
  | nil => exact .inl ⟨rfl, fun _ hi => absurd hi List.not_mem_nil⟩
  | @cons a j l items ha _ ih =>
    have hrun : inClosureItems prod (a :: l) s =
        (if j.prod = prod then pure (some a) else inClosureItems prod l : LrM (Option ℕ)) s := by
      rw [inClosureItems, Watched.bind_of_run (fetch_run ha)]
      rfl
    by_cases hj : j.prod = prod
    · refine .inr ⟨a, j, ?_, List.mem_cons_self, ha, List.mem_cons_self, hj, ?_⟩
      · rw [hrun, if_pos hj]
        rfl
      · simp [closLook, hj]
    · rw [hrun, if_neg hj]
      rcases ih with ⟨hnone, hne⟩ | ⟨b, i, hsome, hb, hi, hmem, hprod, hlook⟩
      · exact .inl ⟨hnone, List.forall_mem_cons.mpr ⟨hj, hne⟩⟩
      · refine .inr ⟨b, i, hsome, List.mem_cons_of_mem _ hb, hi, List.mem_cons_of_mem _ hmem, hprod,
          ?_⟩
        rw [← hlook]
        simp [closLook, hj]

/-- `add_lookahead` for a closure item merges the lookaheads and tells whether there is a new
one. -/
lemma addLookahead_keeps (h : Closing st A first s items) (hb : b ∈ s.closureItems)
    (hi : s.Holds b i) (src : Finset ℕ) :
    Keeps Owned (fun _ => False) (fun did t => did = (Parser.addLookahead i.lookaheads src).2 ∧
      Closing st A first t
      (if did then Parser.setLook items i.prod (Parser.addLookahead i.lookaheads src).1 else items))
      (addLookahead b src) s := by
  refine Keeps.silent (fetch_run hi) ?_
  have hlook : i.cell.lookaheads = i.lookaheads := rfl
  rw [hlook]
  cases Parser.addLookahead i.lookaheads src with
  | mk set flag =>
    cases flag with
    | false => exact Keeps.pure ⟨rfl, h⟩
    | true =>
      have hset := h.setLook hb hi set
      refine Keeps.bind (P := fun _ t => Closing st A first t (Parser.setLook items i.prod set)) ?_
        fun _ t ht => ?_
      · exact update_keeps hi hset.owned hset
      · exact Keeps.pure ⟨rfl, ht⟩

/-- The lookaheads of the item `a` are those of `look` while `closure` runs. -/
def Looks (st : ℕ → StateCell) (A : Automaton) (first : List (ℕ × Core)) (a : ℕ) (c : Core)
    (look : List Item → Finset ℕ) : Prop :=
  ∀ t items, Closing st A first t items → t.Holds a ⟨c.1, c.2, look items⟩ ∧
    ∀ j, look (items ++ [j]) = look items

/-- A production that has no item yet gets one, when there is room. -/
lemma closeItem_keeps (h : Closing st A first s items)
    (hrun : inClosureItems prod s.closureItems s = ([], .ok (none, s)))
    (hne : ∀ i ∈ items, i.prod ≠ prod) : Keeps Owned (fun e => maxClose ≤ items.length ∧ e.Fatal)
    (fun r t => ¬ maxClose ≤ items.length ∧ r.2 = true ∧
      Closing st A first t (items ++ [⟨prod, 0, ∅⟩]) ∧ r.1 ∈ t.closureItems ∧
      t.Holds r.1 ⟨prod, 0, ∅⟩) (closeItem prod) s := by
  refine Keeps.silent (m := read) rfl (Keeps.silent hrun ?_)
  rw [h.rep.live.length_eq]
  dsimp only
  split
  · rename_i hfull
    exact Keeps.stop ⟨hfull, trivial⟩
  · rename_i hroom
    refine Keeps.bind ((newitem_keeps h.owned prod).total fun _ _ ht => ht) fun b t hmade => ?_
    obtain ⟨howned, hrep⟩ := hmade.push h.rep
    refine Keeps.bind (P := fun _ u => u = { t with closureItems := t.closureItems ++ [b] })
      (.write howned rfl) ?_
    rintro _ u rfl
    have hframe := hmade.frame
    have hstate : t.state = s.state := by rw [hframe]
    have hlive : t.closureItems = s.closureItems := by rw [hframe]
    refine Keeps.pure ⟨hroom, rfl, ⟨howned, hrep, hstate.trans h.state, ?_, ?_, ?_⟩, ?_, hmade.cell⟩
    · rw [hlive, List.map_append,
        List.zip_append (by rw [List.length_map]; exact h.rep.live.length_eq)]
      exact h.prefix_zip.trans (List.prefix_append _ _)
    · rw [List.map_append, List.nodup_append]
      refine ⟨h.nodup, List.nodup_singleton _, ?_⟩
      intro p hp q hq hpq
      obtain ⟨i, hi, rfl⟩ := List.mem_map.mp hp
      exact hne i hi (hpq.trans (List.mem_singleton.mp hq))
    · rw [List.length_append, List.length_singleton]
      exact Nat.lt_of_not_le hroom
    · exact List.mem_append_right _ (List.mem_singleton_self b)

/-- The visit of a production by `do_close` does on the memory what it does by value. -/
lemma closeProd_simulates {core : Core} {look : List Item → Finset ℕ}
    (hlook : Looks st A first a core look) (h : Closing st A first s items) (f : Bool) :
    Simulates Owned Fatal (fun did t r => Closing st A first t r.1 ∧ r.2 = (f || did))
    (closeProd G F a did prod)
      (G.closeProd F core look (items, f || did) prod) s := by
  have hitem := (hlook s items h).1
  unfold closeProd Grammar.closeProd
  rcases inClosureItems_run h.rep.live prod with
    ⟨hrun, hne⟩ | ⟨b, i, hrun, hb, hi, hmem, rfl, hclos⟩
  · -- the production has no item yet
    have hnot : ¬ ∃ i ∈ items, i.prod = prod := by
      rintro ⟨i, hi, heq⟩
      exact hne i hi heq
    dsimp only
    rw [if_neg hnot]
    refine Keeps.bind
      (Keeps.imp (closeItem_keeps h hrun hne) (fun _ hfull => ⟨if_pos hfull.1, hfull.2⟩)
      fun _ _ ht => ht) ?_
    rintro ⟨b, d⟩ t ⟨hroom, rfl, hclosing, hb, hi⟩
    rw [if_neg hroom]
    have hitem := (hlook t _ hclosing).1
    rw [(hlook s items h).2] at hitem
    refine Simulates.silent (fetch_run hitem) (Simulates.silent rfl ?_)
    refine Simulates.seq (addLookahead_keeps hclosing hb hi (G.contribution F core (look items))) ?_
    rintro did' t ⟨rfl, ht⟩
    have hset :
        ∀ set, Parser.setLook (items ++ [⟨prod, 0, ∅⟩]) prod set = items ++ [⟨prod, 0, set⟩] := by
      intro set
      have hself : Parser.setLook items prod set = items := by
        conv_rhs => rw [← List.map_id items]
        exact List.map_congr_left fun j hj => if_neg (hne j hj)
      unfold Parser.setLook at hself ⊢
      rw [List.map_append, hself, List.map_singleton, if_pos rfl]
    cases hadd : Parser.addLookahead ∅ (G.contribution F core (look items)) with
    | mk set flag =>
      rw [hadd] at ht
      cases flag with
      | false =>
        obtain rfl : set = ∅ := by
          unfold Parser.addLookahead at hadd
          split at hadd
          · cases hadd
          · exact (congrArg Prod.fst hadd).symm
        exact Simulates.pure ⟨ht, by simp⟩
      | true =>
        rw [if_pos rfl, hset] at ht
        exact Simulates.pure ⟨ht, by simp⟩
  · have hclose : closeItem i.prod s = ([], .ok ((b, false), s)) := by
      unfold closeItem
      rw [Watched.bind_of_run (m := read) rfl, Watched.bind_of_run hrun]
      rfl
    have hex : ∃ j ∈ items, j.prod = i.prod := ⟨i, hmem, rfl⟩
    refine Simulates.silent hclose (Simulates.silent (fetch_run hitem) (Simulates.silent rfl ?_))
    dsimp only
    rw [if_pos hex, hclos]
    refine Simulates.seq (addLookahead_keeps h hb hi (G.contribution F core (look items))) ?_
    rintro did' t ⟨rfl, ht⟩
    cases hadd : Parser.addLookahead i.lookaheads (G.contribution F core (look items)) with
    | mk set flag =>
      rw [hadd] at ht
      cases flag with
      | false => exact Simulates.pure ⟨ht, by simp⟩
      | true => exact Simulates.pure ⟨ht, by simp⟩

/-- `do_close` does on the memory what it does by value, and every item stays owned. -/
lemma doClose_simulates {core : Core} {look : List Item → Finset ℕ}
    (hlook : Looks st A first a core look) (h : Closing st A first s items) (f : Bool) :
    Simulates Owned Fatal (fun did t r => Closing st A first t r.1 ∧ r.2 = (f || did))
    (doClose G F a)
      (G.doClose F core look (items, f)) s := by
  have hnothing :
      Simulates Owned Fatal (fun did t (r : List Item × Bool) => Closing st A first t r.1 ∧
      r.2 = (f || did)) (pure false : LrM Bool) (some (items, f)) s :=
        Simulates.pure ⟨h, (Bool.or_false f).symm⟩
  unfold doClose Grammar.doClose
  refine Simulates.silent (fetch_run (hlook s items h).1) ?_
  have hdot : (Item.cell ⟨core.1, core.2, look items⟩).rightOfDot = rightOfDot core := rfl
  rw [hdot]
  cases rightOfDot core with
  | none => exact hnothing
  | some x =>
    dsimp only
    split
    · refine Simulates.foldlM (V := Eq) 
        (R := fun did t (r : List Item × Bool) => Closing st A first t r.1 ∧ r.2 = (f || did))
        (List.forall₂_same.mpr fun _ _ => rfl) ?_ ⟨h, (Bool.or_false f).symm⟩
      rintro p _ did t ⟨items, _⟩ rfl ⟨ht, rfl⟩
      exact closeProd_simulates hlook ht f
    · exact hnothing

/-- A pass of `closure` over items does on the memory what it does by value. -/
lemma closeItems_simulates (look : Item → List Item → Finset ℕ)
    (hl : Forall₂ (fun a i => Looks st A first a i.core (look i)) l items')
    (h : Closing st A first s items) :
    Simulates Owned Fatal (fun did t r => Closing st A first t r.1 ∧ r.2 = did) (closeItems G F l)
      (items'.foldlM (fun st i => G.doClose F i.core (look i) st) (items, false)) s := by
  refine Simulates.foldlM 
    (R := fun did t (r : List Item × Bool) => Closing st A first t r.1 ∧ r.2 = did) hl ?_ ⟨h, rfl⟩
  rintro a i _ t ⟨items, did⟩ hlook ⟨ht, rfl⟩
  exact Simulates.map (doClose_simulates hlook ht did) fun _ _ _ hr => hr

/-- The items of a state do not change while `closure` runs. -/
lemma looks_kernel (h : s.Rep A items) (hstate : s.state = st) (cur : ℕ) :
    Forall₂ (fun a i => Looks st A first a i.core fun _ => i.lookaheads) (st cur).kernelItems
      (A.state cur).kernelItems := by
  refine List.forall₂_iff_zip.mpr ⟨hstate ▸ (h.kernel cur).length_eq, fun hmem t items ht =>
    ⟨?_, fun _ => rfl⟩⟩
  have hkernel := ht.rep.kernel cur
  rw [ht.state] at hkernel
  exact List.forall₂_zip hkernel hmem

/-- A closure item keeps its production and its dot while `closure` runs. -/
lemma looks_live (h : Closing st A first s items) :
    Forall₂ (fun a i => Looks st A (s.closureItems.zip (items.map Item.core)) a i.core
      fun items => closLook items i.prod) s.closureItems items := by
  refine List.forall₂_iff_zip.mpr ⟨h.rep.live.length_eq, fun {a i} hmem t items' ht => ?_⟩
  have hcore : (a, i.core) ∈ s.closureItems.zip (items.map Item.core) := by
    rw [List.zip_map_right]
    exact List.mem_map.mpr ⟨_, hmem, rfl⟩
  have hmem' := ht.prefix_zip.mem hcore
  rw [List.zip_map_right] at hmem'
  obtain ⟨⟨b, j⟩, hzip, heq⟩ := List.mem_map.mp hmem'
  obtain ⟨rfl, hcore'⟩ := Prod.mk.inj heq
  have hj : j ∈ items' := (List.of_mem_zip hzip).2
  have hprod : j.prod = i.prod := congrArg Prod.fst hcore'
  have hdot : j.dotPosn = i.dotPosn := congrArg Prod.snd hcore'
  have hfound : closLook items' i.prod = j.lookaheads := hprod ▸ Grammar.closLook_of_mem ht.nodup hj
  refine ⟨?_, fun x => ?_⟩
  · have hholds : t.Holds b j := List.forall₂_zip ht.rep.live hzip
    change t.Holds b ⟨i.prod, i.dotPosn, closLook items' i.prod⟩
    rw [hfound, ← hprod, ← hdot]
    exact hholds
  · unfold closLook
    dsimp only
    have hsome : (items'.find? fun k => k.prod = i.prod).isSome := by
      rw [List.find?_isSome]
      exact ⟨j, hj, decide_eq_true hprod⟩
    rw [List.find?_append, Option.or_of_isSome hsome]

/-- The loop of `closure` over the closure items does on the memory what it does by value. -/
lemma closeLoop_simulates (h : Closing st A first s items) :
    Simulates Owned Fatal (fun _ t items => Closing st A [] t items) (closeLoop G F fuel did)
      (G.closeLoop F fuel (items, did)) s := by
  induction fuel generalizing s items did first with
  | zero => exact Simulates.stop trivial
  | succ n ih =>
    unfold closeLoop Grammar.closeLoop
    cases did with
    | false => exact Simulates.pure ⟨h.owned, h.rep, h.state, List.nil_prefix, h.nodup, h.length_le⟩
    | true =>
      refine Simulates.silent (m := read) rfl ?_
      have hclosing : Closing st A (s.closureItems.zip (items.map Item.core)) s items :=
        ⟨h.owned, h.rep, h.state, List.prefix_rfl, h.nodup, h.length_le⟩
      refine Simulates.bind (closeItems_simulates (fun i items => closLook items i.prod)
        (looks_live h) hclosing) ?_
      rintro did t ⟨items, _⟩ ⟨ht, rfl⟩
      exact ih ht

/-- `closure` does on the memory what it does by value, and every item stays owned. -/
lemma closure_simulates (howned : s.Owned) (hrep : s.Rep A []) :
    Simulates Owned Fatal (fun _ t items => Closing s.state A [] t items) (closure G F fuel cur)
      (G.closure F fuel (A.state cur).kernelItems) s := by
  have hclosing : Closing s.state A [] s [] :=
    ⟨howned, hrep, rfl, List.nil_prefix, List.nodup_nil, Nat.zero_le _⟩
  refine Simulates.silent (m := read) rfl ?_
  refine Simulates.bind (closeItems_simulates (fun i _ => i.lookaheads) (looks_kernel hrep rfl cur)
    hclosing) ?_
  rintro did t ⟨items, _⟩ ⟨ht, rfl⟩
  exact closeLoop_simulates ht

/-- The visit of one item of the kernel by `kclosure`. -/
lemma kcloseItem_keeps (howned : s.Owned) (hrep : s.Rep A items) (ha : s.Holds a i) :
    Keeps Owned (fun e => (rightOfDot i.core).isSome ∧ maxClose ≤ items.length ∧ e.Fatal)
      (fun _ t => t.Owned ∧ t.state = s.state ∧ if (rightOfDot i.core).isSome then
        ¬ maxClose ≤ items.length ∧ t.Rep A (items ++ [i]) else
          t.Rep A items) (kcloseItem a) s := by
  refine Keeps.silent (fetch_run ha) ?_
  change Keeps _ _ _ (if (rightOfDot i.core).isSome then _ else _) s
  by_cases hsome : (rightOfDot i.core).isSome
  · rw [if_pos hsome]
    refine Keeps.silent (m := prodOf i.cell) rfl ?_
    refine Keeps.bind ((newitem_keeps howned i.prod).total fun _ _ ht => ht) fun b t ht => ?_
    refine Keeps.bind (ht.update _) fun _ t ht => ?_
    refine Keeps.bind (ht.update _) fun _ t ht => ?_
    refine Keeps.bind (ht.update _) fun _ t ht => ?_
    refine Keeps.silent (m := read) rfl ?_
    rw [(ht.rep hrep).live.length_eq]
    by_cases hfull : maxClose ≤ items.length
    · rw [if_pos hfull]
      exact Keeps.stop ⟨hsome, hfull, trivial⟩
    · rw [if_neg hfull]
      have hmade : s.Made b i.cell t := ht
      obtain ⟨howned', hrep'⟩ := hmade.push hrep
      have hstate : t.state = s.state := by rw [ht.frame]
      refine Keeps.write howned' ⟨howned', hstate, ?_⟩
      rw [if_pos hsome]
      exact ⟨hfull, hrep'⟩
  · rw [if_neg hsome]
    refine Keeps.pure ⟨howned, rfl, ?_⟩
    rw [if_neg hsome]
    exact hrep

/-- The loop of `kclosure` appends copies of the kernel items that are not at their ends. -/
lemma kcloseItems_keeps
    (hl : Forall₂ (fun a i => ∀ (t : ItemStore) items, t.Rep A items → t.state = st →
    t.Holds a i) l items') (howned : s.Owned) (hrep : s.Rep A items) (hstate : s.state = st)
    (hlen : items.length ≤ maxClose) : Keeps Owned
      (fun e => maxClose < (items ++ items'.filter fun i => (rightOfDot i.core).isSome).length ∧
      e.Fatal) (fun _ t => t.Owned ∧ t.state = st ∧
      t.Rep A (items ++ items'.filter fun i => (rightOfDot i.core).isSome) ∧
        (items ++ items'.filter fun i => (rightOfDot i.core).isSome).length ≤ maxClose)
      (l.foldlM (fun _ item => kcloseItem item) ⟨⟩) s := by
  induction hl generalizing s items with
  | nil =>
    rw [List.filter_nil, List.append_nil]
    exact Keeps.pure ⟨howned, hstate, hrep, hlen⟩
  | @cons a i l items' hi _ ih =>
    rw [List.foldlM_cons, List.filter_cons]
    refine Keeps.bind (Keeps.imp (kcloseItem_keeps howned hrep (hi s items hrep hstate)) ?_
      fun _ _ ht => ht) ?_
    · rintro e ⟨hsome, hfull, he⟩
      rw [if_pos hsome, List.length_append, List.length_cons]
      exact ⟨by omega, he⟩
    · rintro _ t ⟨howned', hstate', ht⟩
      by_cases hsome : (rightOfDot i.core).isSome
      · rw [if_pos hsome] at ht ⊢
        rw [List.append_cons]
        refine ih howned' ht.2 (hstate'.trans hstate) ?_
        rw [List.length_append, List.length_singleton]
        exact Nat.lt_of_not_le ht.1
      · rw [if_neg hsome] at ht ⊢
        exact ih howned' ht (hstate'.trans hstate) hlen

/-- `kclosure` does on the memory what it does by value, and every item stays owned. -/
lemma kclosure_simulates (h : Closing st A first s items) (cur : ℕ) :
    Simulates Owned Fatal (fun _ t items => t.Owned ∧ t.Rep A items) (kclosure cur)
      (Parser.kclosure (A.state cur).kernelItems items) s := by
  refine Simulates.silent (m := read) rfl ?_
  have hkernel : Forall₂ (fun a i => ∀ (t : ItemStore) items, t.Rep A items → t.state = st →
      t.Holds a i) (s.state cur).kernelItems (A.state cur).kernelItems := by
    refine List.forall₂_iff_zip.mpr ⟨(h.rep.kernel cur).length_eq, fun hmem t items ht hstate => ?_⟩
    have hslots := ht.kernel cur
    rw [hstate, ← h.state] at hslots
    exact List.forall₂_zip hslots hmem
  refine Keeps.imp (kcloseItems_keeps hkernel h.owned h.rep h.state h.length_le) ?_ ?_
  · rintro e ⟨hlt, he⟩
    exact ⟨if_pos hlt, he⟩
  · rintro _ t ⟨howned, hstate, hrep, hle⟩
    exact ⟨_, if_neg (Nat.not_lt_of_le hle), howned, hrep⟩

end ItemStore

end Parser
