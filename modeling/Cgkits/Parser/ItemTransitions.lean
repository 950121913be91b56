import Cgkits.Parser.ItemMoves

/-!
# Transitions in memory (`yystate.c`)

`lr` takes the closure items group by group: it moves the dots of a group, and then the group
becomes the kernel of a new state, or it is merged into the kernel of an old one and freed.  In both
cases the group leaves the live part of `closure_items`, so that the groups behind it are all that
is left.
-/

namespace Parser

namespace ItemStore

open Watched (Keeps Simulates read write stop)
open ItemFault (Fatal)
open List (Forall₂)

variable {s t : ItemStore} {A : Automaton} {l l' l₁ l₂ : List ℕ} {items items' pre rest : List Item}
  {i j : Item} {a b n cur val next : ℕ}

/-! ## Groups -/

/-- `movedot` moves the dot of the live item, and every item stays owned. -/
lemma movedot_keeps (howned : s.Owned) (hrep : s.Rep A (pre ++ i :: items))
    (hlive : s.closureItems = l₁ ++ a :: l) (hlen : l₁.length = pre.length) (ha : s.Holds a i) :
    Keeps Owned (fun _ => False)
      (fun _ t => t.Owned ∧ t.closureItems = s.closureItems ∧ t.Rep A (pre ++ i.movedot :: items))
      (movedot a) s := by
  have hmem : a ∈ s.closureItems := hlive ▸ List.mem_append_right _ List.mem_cons_self
  have howned' := howned.setCell_live hmem i.movedot.cell
  have hrep' := hrep.write_live howned hlive hlen i.movedot
  refine Keeps.silent (fetch_run ha) (Keeps.silent (m := prodOf i.cell) rfl ?_)
  exact update_keeps ha howned' ⟨howned', rfl, hrep'⟩

/-- The items of a group are collected and their dots are moved. -/
lemma collect_keeps (howned : s.Owned) (hrep : s.Rep A (pre ++ i :: items))
    (hlive : s.closureItems = l₁ ++ a :: l) (hlen : l₁.length = pre.length) :
    Keeps Owned (fun _ => False)
      (fun n t => t.Owned ∧ t.closureItems = s.closureItems ∧
        n = (i :: items.takeWhile fun j => rodVal j.core = val).length ∧
        t.Rep A (pre ++ ((i :: items.takeWhile fun j => rodVal j.core = val).map Item.movedot ++
          items.dropWhile fun j => rodVal j.core = val))) (collect val (a :: l)) s := by
  induction items generalizing s pre i l₁ a l with
  | nil =>
    obtain ⟨ha, hl⟩ := List.forall₂_cons.mp (hrep.live_drop hlive hlen)
    obtain rfl := List.forall₂_nil_right_iff.mp hl
    refine Keeps.bind (movedot_keeps howned hrep hlive hlen ha) ?_
    rintro _ t ⟨howned', hsame, hrep'⟩
    exact Keeps.pure ⟨howned', hsame, rfl, hrep'⟩
  | cons j items ih =>
    obtain ⟨ha, hl⟩ := List.forall₂_cons.mp (hrep.live_drop hlive hlen)
    obtain ⟨b, l, hb, -, rfl⟩ := List.forall₂_cons_right_iff.mp hl
    refine Keeps.bind (movedot_keeps howned hrep hlive hlen ha) ?_
    rintro _ t ⟨howned', hsame, hrep'⟩
    have hlive' :
      t.closureItems = (l₁ ++ [a]) ++ b ::
      l := by rw [hsame, hlive, List.append_assoc, List.singleton_append]
    have hlen' : (l₁ ++ [a]).length = (pre ++ [i.movedot]).length := by
      rw [List.length_append, List.length_append, hlen]
      rfl
    rw [List.append_cons] at hrep'
    obtain ⟨hb', -⟩ := List.forall₂_cons.mp (hrep'.live_drop hlive' hlen')
    refine Keeps.silent (fetch_run hb') ?_
    change Keeps _ _ _ (if rodVal j.core = val then _ else _) t
    by_cases hval : rodVal j.core = val
    · rw [if_pos hval, List.takeWhile_cons, List.dropWhile_cons, if_pos (decide_eq_true hval),
        if_pos (decide_eq_true hval)]
      refine Keeps.bind (ih howned' hrep' hlive' hlen') ?_
      rintro n u ⟨howned'', hsame', hn, hrep''⟩
      refine Keeps.pure ⟨howned'', hsame'.trans hsame, congrArg Nat.succ hn, ?_⟩
      rw [List.append_assoc] at hrep''
      exact hrep''
    · have hne : ¬ decide (rodVal j.core = val) = true := fun h => hval (of_decide_eq_true h)
      rw [if_neg hval, List.takeWhile_cons, List.dropWhile_cons, if_neg hne, if_neg hne]
      refine Keeps.pure ⟨howned', hsame, rfl, ?_⟩
      rw [List.append_assoc] at hrep'
      exact hrep'

/-! ## New and old states -/

/-- The numbers of the items at the pointers are those of the items by value. -/
lemma keys_eq (h : Forall₂ s.Holds l items) : s.keys l = (items.map Item.key).map some := by
  induction h with
  | nil => rfl
  | cons ha _ ih =>
    unfold keys at ih ⊢
    rw [List.map_cons, List.map_cons, List.map_cons, ih, ha]
    rfl

/-- Live items that become the kernel of a new state have a new owner. -/
lemma Owned.adopt (h : s.Owned) (hlive : s.closureItems = l ++ l') (n k : ℕ) :
    ({ s with
      nstates := k
      state := Function.update s.state n ⟨l, [], false⟩
      closureItems := l' } : ItemStore).Owned := by
  obtain ⟨own, free, hown⟩ := id h
  obtain ⟨hl, hl', hdisjoint⟩ := List.nodup_append.mp (hlive ▸ h.nodup_live)
  refine hown.adopt n ⟨l, [], false⟩ l ?_ ?_ ?_ ?_ hl' k
  · exact fun a ha => .inl (hown.live a (hlive ▸ List.mem_append_left _ ha))
  · exact fun a ha => .inr (List.append_nil l ▸ ha)
  · exact (List.append_nil l).symm ▸ hl
  · exact fun a ha => ⟨hlive ▸ List.mem_append_right _ ha, fun ha' => hdisjoint a ha' a ha rfl⟩

/-- `newstate` does on the memory what it does by value, and every item stays owned. -/
lemma newstate_simulates (howned : s.Owned) (hrep : s.Rep A (items ++ rest))
    (hlive : s.closureItems = l ++ l') (hlen : l.length = items.length) :
    Simulates Owned Fatal (fun r t c => r = c.2 ∧ t.Owned ∧
      ((c.2.2 = .new ∧ t.Rep c.1 rest) ∨
        (c.2.2 ≠ .new ∧ t = s ∧ c.1 = A ∧ (A.state c.2.1).kernelItems.length = items.length)))
      (newstate l) (A.newstate items) s := by
  obtain ⟨hitems, hrest⟩ := holds_append (hlive ▸ hrep.live) hlen
  unfold newstate Automaton.newstate
  rw [hlen]
  by_cases hlarge : maxKernel < items.length
  · rw [if_pos hlarge, if_pos hlarge]
    exact Simulates.stop trivial
  · rw [if_neg hlarge, if_neg hlarge]
    refine Simulates.silent (m := read) rfl ?_
    have hkeys : (fun n => decide (s.keys (s.state n).kernelItems = s.keys l)) =
        fun n => decide ((A.state n).kernelItems.map Item.key = items.map Item.key) := by
      funext n
      refine decide_eq_decide.mpr ?_
      rw [keys_eq (hrep.kernel n), keys_eq hitems]
      exact (List.map_injective_iff.mpr (Option.some_injective _)).eq_iff
    rw [hkeys, hrep.nstates]
    cases hfind : (List.range A.nstates).find? fun n => (A.state n).kernelItems.map Item.key =
        items.map Item.key with
    | some n =>
      dsimp only
      rw [hrep.closed n]
      have hkey := List.find?_some hfind
      have hlength := congrArg List.length (of_decide_eq_true hkey)
      rw [List.length_map, List.length_map] at hlength
      refine Simulates.pure ⟨rfl, howned, .inr ⟨?_, rfl, rfl, hlength⟩⟩
      dsimp only
      split <;> simp
    | none =>
      dsimp only
      by_cases hmany : maxState ≤ A.nstates
      · rw [if_pos hmany, if_pos hmany]
        exact Simulates.stop trivial
      · rw [if_neg hmany, if_neg hmany]
        have howned' := howned.adopt hlive s.nstates (s.nstates + 1)
        have hrep' :=
          hrep.write_state ⟨l, [], false⟩ ⟨items, [], false⟩ hitems .nil rfl hrest s.nstates
          (congrArg Nat.succ hrep.nstates)
        have hadd : A.addState items = { A with
            nstates := A.nstates.succ,
            state := Function.update A.state s.nstates ⟨items, [], false⟩ } := by
          rw [hrep.nstates]
          rfl
        have hdrop : s.closureItems.drop items.length = l' := by rw [hlive, ← hlen, List.drop_left]
        rw [← hadd] at hrep'
        rw [← hdrop] at howned' hrep'
        refine Keeps.bind (P := fun _ t => t.Owned ∧ t.Rep (A.addState items) rest) ?_ ?_
        · exact Keeps.write howned' ⟨howned', hrep'⟩
        · rintro _ t ⟨howned', hrep'⟩
          exact Simulates.pure ⟨rfl, howned', .inl ⟨rfl, hrep'⟩⟩

/-! ## The transition -/

/-- Transitions and unfinished states have nothing to do with the owners. -/
lemma Owned.chains (h : s.Owned) (actions gotos : ℕ → List Act) (unfinished : Finset ℕ) :
    ({ s with actions := actions, gotos := gotos, unfinished := unfinished } :
    ItemStore).Owned := by
  obtain ⟨own, free, hown⟩ := h
  exact ⟨own, free, hown.list, hown.free, hown.live, hown.slot, hown.nodup_live, hown.nodup_slots,
    hown.fresh⟩

/-- Adding a transition does on the memory what it does by value. -/
lemma link_keeps (howned : s.Owned) (hrep : s.Rep A items) (cur val next : ℕ) :
    Keeps Owned (fun _ => False)
      (fun _ t => t.Owned ∧ t.closureItems = s.closureItems ∧ t.Rep (A.link cur val next) items)
      (link cur val next) s := by
  refine Keeps.silent (m := read) rfl ?_
  unfold Automaton.link
  rw [hrep.closed cur]
  split
  · exact Keeps.pure ⟨howned, rfl, hrep⟩
  · split
    · have howned' :=
        howned.chains (Function.update s.actions cur (⟨val, next⟩ :: s.actions cur)) s.gotos
          s.unfinished
      refine Keeps.write howned' ⟨howned', rfl, hrep.live, hrep.nstates, hrep.kernel, hrep.epsilon,
        hrep.closed, ?_, hrep.gotos, hrep.unfinished⟩
      rw [hrep.actions]
      rfl
    · have howned' :=
        howned.chains s.actions (Function.update s.gotos cur (⟨adjVal val, next⟩ :: s.gotos cur))
          s.unfinished
      refine Keeps.write howned' ⟨howned', rfl, hrep.live, hrep.nstates, hrep.kernel, hrep.epsilon,
        hrep.closed, hrep.actions, ?_, hrep.unfinished⟩
      rw [hrep.gotos]
      rfl

/-- `add_unfinished` does on the memory what it does by value. -/
lemma addUnfinished_simulates (howned : s.Owned) (hrep : s.Rep A items) (n : ℕ) :
    Simulates Owned Fatal (fun _ t B => t.Owned ∧ t.closureItems = s.closureItems ∧ t.Rep B items)
    (addUnfinished n)
      (A.addUnfinished n) s := by
  refine Simulates.silent (m := read) rfl ?_
  unfold Automaton.addUnfinished
  rw [hrep.unfinished]
  split
  · exact Simulates.pure ⟨howned, rfl, hrep⟩
  · split
    · exact Simulates.stop trivial
    · have howned' := howned.chains s.actions s.gotos (insert n s.unfinished)
      refine Keeps.write howned' ⟨_, rfl, howned', rfl, hrep.live, hrep.nstates, hrep.kernel,
        hrep.epsilon, hrep.closed, hrep.actions, hrep.gotos, ?_⟩
      rw [hrep.unfinished]

/-- The items of the kernel of a state are replaced twice. -/
lemma setKernel_setKernel (A : Automaton) (n : ℕ) (items items' : List Item) :
    (A.setKernel n items).setKernel n items' = A.setKernel n items' := by
  simp [Automaton.setKernel]

/-- The items of the kernel of a state that has got them. -/
lemma kernelItems_setKernel (A : Automaton) (n : ℕ) (items : List Item) :
    (A.setKernel n items).state n = { A.state n with kernelItems := items } := by
  simp [Automaton.setKernel]

/-- The lookaheads of a live item are merged into an item of the kernel of a state. -/
lemma Rep.merge_kernel (h : s.Rep (A.setKernel n (pre ++ i :: items')) items) (howned : s.Owned)
    (hslots : (s.state n).kernelItems = l₁ ++ a :: l₂) (hlen : l₁.length = pre.length) (j : Item) :
    (s.setCell a j.cell).Owned ∧
    (s.setCell a j.cell).Rep (A.setKernel n (pre ++ j :: items')) items := by
  have hmem : a ∈ (s.state n).kernelItems := hslots ▸ List.mem_append_right _ List.mem_cons_self
  have hslot : a ∈ s.slots n := List.mem_append_left _ hmem
  obtain ⟨hnodup, -, hdisjoint⟩ := List.nodup_append.mp (howned.nodup_slots n)
  have hkernel := h.kernel n
  have hepsilon := h.epsilon n
  rw [kernelItems_setKernel] at hkernel hepsilon
  refine ⟨howned.setCell_slot hslot _, ?_⟩
  rw [← setKernel_setKernel A n (pre ++ i :: items'), Automaton.setKernel, kernelItems_setKernel]
  refine h.write_slot howned hslot ?_ ?_ ?_
  · rw [hslots] at hkernel hnodup ⊢
    exact holds_write hkernel hlen hnodup j
  · exact holds_congr hepsilon fun b hb => Function.update_of_ne
      (fun hba => hdisjoint a hmem b hb hba.symm) _ _
  · rw [kernelItems_setKernel]

/-- A turn of the loop of `merge_lookaheads` does on the memory what it does by value. -/
lemma mergeItem_simulates {dst : List Item} (howned : s.Owned)
    (hrep : s.Rep (A.setKernel n (pre ++ i :: dst)) items)
    (hslots : (s.state n).kernelItems = l₁ ++ a :: l₂) (hlen : l₁.length = pre.length)
    (ha : s.Holds a i) (hb : s.Holds b j) : Simulates Owned Fatal
      (fun did t r => did = r.2 ∧ t.Owned ∧ t.closureItems = s.closureItems ∧ t.state = s.state ∧
        (∀ c ∈ s.closureItems, t.heap c = s.heap c) ∧
        t.Rep (A.setKernel n (pre ++ r.1 :: dst)) items)
      (mergeItem a b)
      (if i.prod ≠ j.prod ∨ i.dotPosn ≠ j.dotPosn then none
        else if j.lookaheads ⊆ i.lookaheads then some (i, false) else
          some (i.union j, true)) s := by
  refine Simulates.silent (fetch_run ha) (Simulates.silent (fetch_run hb) ?_)
  refine Simulates.silent (m := prodOf i.cell) rfl (Simulates.silent (m := prodOf j.cell) rfl ?_)
  change Simulates _ _ _ (if i.prod ≠ j.prod ∨ i.dotPosn ≠ j.dotPosn then _
    else if j.lookaheads ⊆ i.lookaheads then _ else _) _ s
  by_cases hdiff : i.prod ≠ j.prod ∨ i.dotPosn ≠ j.dotPosn
  · rw [if_pos hdiff, if_pos hdiff]
    exact Simulates.stop trivial
  · rw [if_neg hdiff, if_neg hdiff]
    by_cases hsub : j.lookaheads ⊆ i.lookaheads
    · rw [if_pos hsub, if_pos hsub]
      exact Simulates.pure ⟨rfl, howned, rfl, rfl, fun _ _ => rfl, hrep⟩
    · rw [if_neg hsub, if_neg hsub]
      obtain ⟨howned', hrep'⟩ := hrep.merge_kernel howned hslots hlen (i.union j)
      refine Keeps.bind (P := fun _ t => t = s.setCell a (i.union j).cell)
        (update_keeps ha howned' rfl) ?_
      rintro _ t rfl
      refine Simulates.pure ⟨rfl, howned', rfl, rfl, fun c hc => Function.update_of_ne ?_ _ _,
        hrep'⟩
      rintro rfl
      exact howned.notMem_slots hc n
        (List.mem_append_left _ (hslots ▸ List.mem_append_right _ List.mem_cons_self))

/-- The first turn of `merge_lookaheads` by value merges the first items or ends the loop. -/
lemma mergeLookaheads_cons (i j : Item) (dst src : List Item) :
    Parser.mergeLookaheads (i :: dst) (j :: src) =
      (if i.prod ≠ j.prod ∨ i.dotPosn ≠ j.dotPosn then none
        else if j.lookaheads ⊆ i.lookaheads then some (i, false) else
          some (i.union j, true)).bind fun x =>
        (Parser.mergeLookaheads dst src).bind fun r => some (x.1 :: r.1, x.2 || r.2) := by
  rw [Parser.mergeLookaheads]
  by_cases hdiff : i.prod ≠ j.prod ∨ i.dotPosn ≠ j.dotPosn
  · rw [if_pos hdiff, if_pos hdiff]
    rfl
  · rw [if_neg hdiff, if_neg hdiff, Option.map_eq_bind]
    by_cases hsub : j.lookaheads ⊆ i.lookaheads
    · simp [hsub]
    · simp [hsub]

/-- `merge_lookaheads` does on the memory what it does by value. -/
lemma mergeLookaheads_simulates {dst src : List Item} (howned : s.Owned)
    (hrep : s.Rep (A.setKernel n (pre ++ dst)) items) (hslots : (s.state n).kernelItems = l₁ ++ l₂)
    (hlen : l₁.length = pre.length) (hsrc : Forall₂ s.Holds l src)
    (hlive : ∀ a ∈ l, a ∈ s.closureItems) (hlength : dst.length = src.length) :
    Simulates Owned Fatal
      (fun did t r => did = r.2 ∧ t.Owned ∧ t.closureItems = s.closureItems ∧
      t.Rep (A.setKernel n (pre ++ r.1)) items) (mergeLookaheads l₂ l)
      (Parser.mergeLookaheads dst src) s := by
  have hkernel := hrep.kernel n
  rw [kernelItems_setKernel, hslots] at hkernel
  have hdst := (holds_append hkernel hlen).2
  induction dst generalizing s pre l₁ l₂ l src with
  | nil =>
    obtain rfl := List.length_eq_zero_iff.mp hlength.symm
    obtain rfl := List.forall₂_nil_right_iff.mp hsrc
    obtain rfl := List.forall₂_nil_right_iff.mp hdst
    exact Simulates.pure ⟨rfl, howned, rfl, hrep⟩
  | cons i dst ih =>
    cases src with
    | nil => cases hlength
    | cons j src =>
      obtain ⟨a, l₂, ha, -, rfl⟩ := List.forall₂_cons_right_iff.mp hdst
      obtain ⟨b, l, hb, hl, rfl⟩ := List.forall₂_cons_right_iff.mp hsrc
      rw [mergeLookaheads_cons]
      refine Simulates.bind (mergeItem_simulates howned hrep hslots hlen ha hb) ?_
      rintro did t ⟨k, _⟩ ⟨rfl, howned', hsame, hstate, hheap, hrep'⟩
      rw [List.append_cons] at hrep'
      have hslots' :
        (t.state n).kernelItems = (l₁ ++ [a]) ++ l₂ := by rw [hstate, hslots, List.append_cons]
      have hlen' : (l₁ ++ [a]).length = (pre ++ [k]).length := by
        rw [List.length_append, List.length_append, hlen]
        rfl
      have hl' : Forall₂ t.Holds l src :=
        holds_congr hl fun c hc => hheap c (hlive c (List.mem_cons_of_mem _ hc))
      have hlive' : ∀ c ∈ l, c ∈ t.closureItems :=
        fun c hc => hsame ▸ hlive c (List.mem_cons_of_mem _ hc)
      have hkernel' := hrep'.kernel n
      rw [kernelItems_setKernel, hslots'] at hkernel'
      refine Simulates.bind (ih howned' hrep' hslots' hlen' hl' hlive' (Nat.succ.inj hlength)
        hkernel' (holds_append hkernel' hlen').2) ?_
      rintro did' u r ⟨rfl, howned'', hsame', hrep''⟩
      rw [List.append_assoc, List.singleton_append] at hrep''
      exact Simulates.pure ⟨rfl, howned'', hsame'.trans hsame, hrep''⟩

/-- A state whose lookaheads have grown becomes unfinished. -/
lemma requeue_simulates (howned : s.Owned) (hrep : s.Rep A items) (n : ℕ) (did : Bool) :
    Simulates Owned Fatal (fun _ t B => t.Owned ∧ t.closureItems = s.closureItems ∧ t.Rep B items)
    (requeue n did)
      (if did then A.addUnfinished n else some A) s := by
  cases did with
  | true => exact addUnfinished_simulates howned hrep n
  | false => exact Simulates.pure ⟨howned, rfl, hrep⟩

/-- Freeing the items of a group puts them on the free list, and every item stays owned. -/
lemma freeItems_keeps (howned : s.Owned) (hrep : s.Rep A (items ++ rest))
    (hlive : s.closureItems = l ++ l') (hlen : l.length = items.length) :
    Keeps Owned (fun _ => False) (fun _ t => t.Owned ∧ t.Rep A rest) (freeItems l) s := by
  induction items generalizing s l with
  | nil =>
    obtain rfl := List.length_eq_zero_iff.mp hlen
    exact Keeps.pure ⟨howned, hrep⟩
  | cons i items ih =>
    cases l with
    | nil => cases hlen
    | cons a l =>
      rw [List.cons_append] at hlive
      have ha := (List.forall₂_cons.mp (hlive ▸ hrep.live)).1
      have hidle := howned.tail hlive
      have hrep' := hrep.tail hlive
      have htail : s.closureItems.tail = l ++ l' := by rw [hlive, List.tail_cons]
      rw [freeItems]
      refine Keeps.bind (P := fun _ t => t = { s with closureItems := l ++ l' }) ?_ ?_
      · rw [← htail] at hidle ⊢
        exact Keeps.write hidle.owned rfl
      · rintro _ t rfl
        refine Keeps.bind (freeitem_keeps hidle ha) ?_
        rintro _ t ⟨howned', hheap, hframe⟩
        have hlive' : t.closureItems = l ++ l' := by rw [hframe]
        refine ih howned' (hrep'.of_frame (fun b hb => hheap b ?_) ?_) hlive' (Nat.succ.inj hlen)
        · rintro rfl
          rcases hb with hb | ⟨n, hb⟩
          · exact hidle.notMem_live hb
          · exact hidle.notMem_slots n hb
        · rw [hframe]

/-- The transition with the items of a group, whose dots have been moved. -/
lemma transition_simulates (howned : s.Owned) (hrep : s.Rep A (items ++ rest))
    (hlive : s.closureItems = l ++ l') (hlen : l.length = items.length) (cur val : ℕ) :
    Simulates Owned Fatal (fun _ t B => t.Owned ∧ t.Rep B rest) (transition cur val l)
    (A.transition cur val items) s := by
  unfold transition Automaton.transition
  simp only [Option.bind_eq_bind]
  refine Simulates.bind (newstate_simulates howned hrep hlive hlen) ?_
  rintro _ t ⟨B, next, isnew⟩ ⟨rfl, howned', hcase⟩
  dsimp only at hcase ⊢
  rcases hcase with ⟨rfl, hrep'⟩ | ⟨hold, rfl, rfl, hlength⟩
  · refine Simulates.seq (link_keeps howned' hrep' cur val next) ?_
    rintro _ u ⟨howned'', -, hrep''⟩
    rw [if_pos rfl, if_pos rfl]
    exact (addUnfinished_simulates howned'' hrep'' next).imp fun _ _ _ h => ⟨h.1, h.2.2⟩
  · refine Simulates.seq (link_keeps howned' hrep cur val next) ?_
    rintro _ u ⟨howned'', hsame, hrep''⟩
    rw [if_neg hold, if_neg hold]
    refine Simulates.silent (m := read) rfl ?_
    have hself : ∀ C : Automaton, C.setKernel next ([] ++ (C.state next).kernelItems) = C := by
      intro C
      rw [List.nil_append, Automaton.setKernel, Function.update_eq_self]
    rw [← hself (Automaton.link _ cur val next)] at hrep''
    have hlive' : u.closureItems = l ++ l' := hsame.trans hlive
    refine Simulates.bind (mergeLookaheads_simulates howned'' hrep'' (List.nil_append _).symm rfl
      (holds_append (hlive' ▸ hrep''.live) hlen).1 (fun a ha => hlive' ▸ List.mem_append_left _ ha)
      ?_) ?_
    · rw [Automaton.state_link]
      exact hlength
    · rintro did v ⟨kernel, _⟩ ⟨rfl, howned₃, hsame', hrep₃⟩
      rw [List.nil_append] at hrep₃
      dsimp only
      refine Keeps.bind (requeue_simulates howned₃ hrep₃ next did) ?_
      rintro _ w ⟨C, hC, howned₄, hsame₄, hrep₄⟩
      have hlive₄ : w.closureItems = l ++ l' := (hsame₄.trans hsame').trans hlive'
      exact (freeItems_keeps howned₄ hrep₄ hlive₄ hlen).total fun _ _ h => ⟨C, hC, h⟩

/-- The transitions of a state are made group by group, on the memory as by value. -/
lemma transitions_simulates (howned : s.Owned) (hrep : s.Rep A items)
    (hsome : ∀ i ∈ items, (rightOfDot i.core).isSome) (hlen : items.length ≤ n) (cur : ℕ) :
    Simulates Owned Fatal (fun _ t B => t.Owned ∧ t.Rep B []) (transitions cur n)
      ((groups n items).foldlM (fun B g => B.transition cur g.1 (g.2.map Item.movedot)) A) s := by
  induction n generalizing s A items with
  | zero =>
    obtain rfl := List.length_eq_zero_iff.mp (Nat.le_zero.mp hlen)
    refine Simulates.silent (m := read) rfl ?_
    rw [List.forall₂_nil_right_iff.mp hrep.live]
    exact Simulates.pure ⟨howned, hrep⟩
  | succ n ih =>
    refine Simulates.silent (m := read) rfl ?_
    cases items with
    | nil =>
      rw [List.forall₂_nil_right_iff.mp hrep.live]
      exact Simulates.pure ⟨howned, hrep⟩
    | cons i items =>
      obtain ⟨a, l, ha, -, hlive⟩ := List.forall₂_cons_right_iff.mp hrep.live
      obtain ⟨val, hval⟩ := Option.isSome_iff_exists.mp (hsome i List.mem_cons_self)
      have hrod : rodVal i.core = val := by rw [rodVal, hval, Option.getD_some]
      rw [hlive, groups, List.foldlM_cons, hrod]
      refine Simulates.silent (fetch_run ha) ?_
      have hdot : i.cell.rightOfDot = some val := hval
      rw [hdot]
      have hrep₀ : s.Rep A ([] ++ i :: items) := hrep
      have hlive₀ : s.closureItems = [] ++ a :: l := hlive
      refine Simulates.seq (collect_keeps howned hrep₀ hlive₀ rfl) ?_
      rintro k t ⟨howned', hsame, hk, hrep'⟩
      rw [List.nil_append] at hrep'
      have hlive' : t.closureItems = (a :: l).take k ++ (a :: l).drop k := by
        rw [List.take_append_drop, hsame, hlive]
      have htake : ((a :: l).take k).length =
          ((i :: items.takeWhile fun j => rodVal j.core = val).map Item.movedot).length := by
        have hlength := hrep.live.length_eq
        rw [hlive] at hlength
        rw [List.length_map, List.length_take, ← hk, hlength]
        refine Nat.min_eq_left ?_
        rw [hk]
        exact Nat.succ_le_succ (List.takeWhile_prefix _).length_le
      refine Simulates.bind (transition_simulates howned' hrep' hlive' htake cur val) ?_
      rintro _ u B ⟨howned'', hrep''⟩
      refine ih howned'' hrep'' ?_ ?_
      · exact fun j hj => hsome j (List.mem_cons_of_mem i ((List.dropWhile_suffix _).mem hj))
      · exact (List.dropWhile_suffix _).length_le.trans (Nat.le_of_succ_le_succ hlen)

end ItemStore

end Parser
