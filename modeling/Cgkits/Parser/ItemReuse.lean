import Cgkits.Parser.ItemTransitions

/-!
# The items of the state machine are reused safely (`yystate.c`)

`lr` in memory is compared with `lr` by value.  The two do the same, whatever items are taken from
the free list (`lr_simulates`); no wrong pointer is followed, and the program stops in the same
cases.

At every point of the run every item has at most one owner.  So an item on the free list is in no
state and not in the live part of `closure_items`, and `newitem` never hands out an item that is in
use.
-/

namespace Parser

namespace ItemStore

open Watched (Keeps Simulates read write stop)
open ItemFault (Fatal)
open List (Forall₂)

variable {s : ItemStore} {A : Automaton} {G : Grammar} {F : SetTable} {free : List ℕ}
  {items cl : List Item} {i : Item} {a n cur fuel : ℕ}

/-! ## Visits -/

/-- The sorted items of a closure are as `move_eps` needs them. -/
lemma emptyFirst_of_lrRun (h : G.LrRun F A) (hcur : cur ∈ A.unfinished)
    (hcl : G.closure F fuel (A.kernel cur) = some cl)
    (hitems : Parser.kclosure (A.kernel cur) cl = some items) (hne : items ≠ []) :
    EmptyFirst (A.state cur).epsilonItems (sortItems items) := by
  obtain ⟨hK, hopen, hclosed⟩ := h.stored hcur
  obtain ⟨item, rest, hsplit, hrest⟩ := Grammar.sortItems_append hK hcl hitems hne
  refine ⟨_, item, rest, hsplit, fun i hi => ?_, hrest, ?_⟩
  · obtain ⟨o, ho, rfl⟩ := List.mem_map.mp hi
    obtain ⟨ho, hnone⟩ := Grammar.mem_emptyOccs.mp ho
    have hprod : (itemAt (A.kernel cur) cl o).prod = o.core.1 :=
      congrArg Prod.fst (core_itemAt (A.kernel cur) cl o)
    rw [hprod]
    exact (Grammar.rhs_eq_nil_iff ho).mpr hnone
  · cases hc : (A.state cur).closed with
    | false => exact .inl (hopen hc)
    | true =>
      have hlength := congrArg List.length (hclosed hc)
      rw [List.length_map, List.length_map] at hlength
      refine .inr ?_
      rw [List.length_map]
      exact hlength

/-- The visit of a state does on the memory what it does by value. -/
lemma visit_simulates (howned : s.Owned) (hrep : s.Rep A [])
    (hfront : ∀ cl items, G.closure F fuel (A.kernel cur) = some cl →
    Parser.kclosure (A.kernel cur) cl = some items →
      items ≠ [] → EmptyFirst (A.state cur).epsilonItems (sortItems items)) :
    Simulates Owned Fatal (fun _ t B => t.Owned ∧ t.Rep B []) (visit G F fuel cur)
    (G.visit F fuel A cur) s := by
  unfold visit Grammar.visit
  simp only [Option.bind_eq_bind]
  refine Simulates.bind (closure_simulates howned hrep).with_result ?_
  rintro _ t cl ⟨hcl, hclosing⟩
  refine Simulates.bind (kclosure_simulates hclosing cur).with_result ?_
  rintro _ t items ⟨hitems, howned, hrep⟩
  refine Simulates.bind (emptyItems_simulates howned hrep (hfront cl items hcl hitems)) ?_
  rintro _ t ⟨eps, rest⟩ ⟨howned, hrep, hsome⟩
  refine Simulates.silent (m := read) rfl ?_
  rw [hrep.live.length_eq]
  refine Simulates.bind (transitions_simulates howned hrep hsome (Nat.le_refl _) cur) ?_
  rintro _ t B ⟨howned, hrep⟩
  have hrep' :=
    hrep.write_state { t.state cur with closed := true } { B.state cur with closed := true }
      (hrep.kernel cur)
    (hrep.epsilon cur) rfl hrep.live cur hrep.nstates
  have howned' := howned.setState cur { t.state cur with closed := true } rfl
  exact Keeps.write howned' ⟨_, rfl, howned', hrep'⟩

/-! ## The loop -/

/-- The loop of `lr` does on the memory what it does by value. -/
lemma lrLoop_simulates (howned : s.Owned) (hrep : s.Rep A []) (hrun : G.LrRun F A) :
    Simulates Owned Fatal (fun _ t B => t.Owned ∧ t.Rep B []) (lrLoop G F fuel n)
    (G.lrLoop F fuel n A) s := by
  induction n generalizing s A with
  | zero => exact Simulates.stop trivial
  | succ n ih =>
    unfold lrLoop Grammar.lrLoop Automaton.getUnfinished
    refine Simulates.silent (m := read) rfl ?_
    rw [hrep.nstates, hrep.unfinished]
    cases hfind : (List.range A.nstates).find? fun n => n ∈ A.unfinished with
    | none => exact Simulates.pure ⟨howned, hrep⟩
    | some cur =>
      have hmem := List.find?_some hfind
      have hcur : cur ∈ A.unfinished := of_decide_eq_true hmem
      dsimp only [Option.map_some]
      have howned' := howned.chains s.actions s.gotos (s.unfinished.erase cur)
      have hrep' : ({ s with unfinished := s.unfinished.erase cur } : ItemStore).Rep
          { A with unfinished := A.unfinished.erase cur } [] :=
        ⟨hrep.live, hrep.nstates, hrep.kernel, hrep.epsilon, hrep.closed, hrep.actions, hrep.gotos,
          congrArg (fun u => u.erase cur) hrep.unfinished⟩
      refine Simulates.seq (P := fun _ t => t = _) (.write howned' rfl) ?_
      rintro _ t rfl
      refine Simulates.bind (visit_simulates howned' hrep' ?_).with_result ?_
      · exact fun cl items => emptyFirst_of_lrRun (A := A) hrun hcur
      · rintro _ t B ⟨hvisit, howned, hrep⟩
        obtain ⟨A₀, hstart, hsteps⟩ := hrun
        exact ih howned hrep ⟨A₀, hstart, hsteps.tail (.visit hcur hvisit)⟩

/-! ## The function `lr` -/

/-- The free list is not longer than the memory that has been allocated. -/
lemma Owns.length_le {own : ℕ → Option Owner} (h : s.Owns own free) : free.length ≤ s.brk := by
  have hsub : free ⊆ List.range s.brk :=
    fun a ha => List.mem_range.mpr (h.lt_brk (by rw [h.free a ha]; simp))
  have hle := (List.subperm_of_subset h.list.nodup hsub).length_le
  rwa [List.length_range] at hle

/-- The loop of `free_recycled_items` comes to the end of the free list. -/
lemma freeRecycledItems_keeps (howned : s.Owned) (hrep : s.Rep A items)
    (hlist : FreeList.IsList s.next s.recycledItems free) (hlen : free.length ≤ n) :
    Keeps Owned (fun _ => False) (fun _ t => t.Owned ∧ t.Rep A items ∧ t.recycledItems = none)
    (freeRecycledItems n) s := by
  induction n generalizing s free with
  | zero =>
    obtain rfl := List.length_eq_zero_iff.mp (Nat.le_zero.mp hlen)
    have hnone : s.recycledItems = none := hlist
    refine Keeps.silent (m := read) rfl ?_
    rw [hnone]
    exact Keeps.pure ⟨howned, hrep, hnone⟩
  | succ n ih =>
    refine Keeps.silent (m := read) rfl ?_
    cases hs : s.recycledItems with
    | none => exact Keeps.pure ⟨howned, hrep, hs⟩
    | some a =>
      have hnodup := hlist.nodup
      rw [hs] at hlist
      obtain ⟨q, l, rfl, hq, hl⟩ := hlist.pop
      obtain ⟨q', hq', hidle⟩ := howned.pop hs
      obtain rfl := Option.some.inj (hq.symm.trans hq')
      obtain ⟨c, hc, hprod⟩ := next_eq_some.mp hq
      refine Keeps.silent (fetch_run hc) ?_
      rw [hprod]
      refine Keeps.bind (P := fun _ t => t = { s with recycledItems := q }) (.write hidle.owned rfl)
        ?_
      rintro _ t rfl
      have howned' := hidle.release
      refine Keeps.bind
        (P := fun _ t => t = { s with recycledItems := q, heap := Function.update s.heap a none })
        (.write howned' rfl) ?_
      rintro _ t rfl
      refine ih howned' (hrep.of_frame (fun b hb => Function.update_of_ne ?_ _ _) rfl)
        (hl.congr fun b hb => ?_) (Nat.le_of_succ_le_succ hlen)
      · rintro rfl
        rcases hb with hb | ⟨m, hb⟩
        · exact hidle.notMem_live hb
        · exact hidle.notMem_slots m hb
      · refine next_congr (Function.update_of_ne ?_ _ _)
        rintro rfl
        exact (List.nodup_cons.mp hnodup).1 hb

/-- The initial state gets its item from `newitem`, and its start item is the one by value. -/
lemma newstate_start (hidle : s.Idle a) (hi : s.Holds a i) (hrep : s.Rep Automaton.empty []) :
    Simulates Owned Fatal (fun r t c => r = c.2 ∧ t.Owned ∧ t.Rep c.1 []) (newstate [a])
    (Automaton.empty.newstate [i])
      s := by
  have hnstates : s.nstates = 0 := hrep.nstates
  have hlive : s.closureItems = [] := List.forall₂_nil_right_iff.mp hrep.live
  have howned' : ({ s with
      nstates := s.nstates + 1
      state := Function.update s.state s.nstates ⟨[a], [], false⟩
      closureItems := s.closureItems.drop 1 } : ItemStore).Owned := by
    obtain ⟨own, free, hown, hnone, hlt⟩ := hidle
    refine hown.adopt s.nstates ⟨[a], [], false⟩ [a] ?_ (fun b hb => .inr hb)
      (List.nodup_singleton a) ?_ ?_ _
    · intro b hb
      rw [List.mem_singleton.mp hb]
      exact .inr ⟨hnone, hlt⟩
    · rw [hlive]
      exact fun _ hb => absurd hb List.not_mem_nil
    · rw [hlive]
      exact List.nodup_nil
  have hrep' :=
    hrep.write_state ⟨[a], [], false⟩ ⟨[i], [], false⟩ (.cons hi .nil) .nil rfl hrep.live s.nstates
    (congrArg Nat.succ hrep.nstates)
  have hdrop : s.closureItems = s.closureItems.drop 1 := by rw [hlive, List.drop_nil]
  rw [hdrop] at hrep'
  have hnew : Automaton.empty.newstate [i] = some (Automaton.empty.addState [i], 0, .new) := rfl
  have hadd : { Automaton.empty with
      nstates := Automaton.empty.nstates.succ
      state :=
        Function.update Automaton.empty.state s.nstates ⟨[i], [], false⟩ } =
            Automaton.empty.addState [i] := by
    rw [hnstates]
    rfl
  rw [hadd] at hrep'
  rw [hnew]
  unfold newstate
  rw [List.length_singleton, if_neg (by decide : ¬ maxKernel < 1)]
  refine Simulates.silent (m := read) rfl ?_
  rw [hnstates, List.range_zero, List.find?_nil]
  dsimp only
  rw [if_neg (by decide : ¬ maxState ≤ 0)]
  refine Simulates.seq (P := fun _ t => t = _) (.write howned' rfl) ?_
  rintro _ t rfl
  exact Simulates.pure ⟨rfl, howned', hrep'⟩

/-- At first there are no items, and each is owned. -/
lemma owned_empty : empty.Owned :=
  ⟨fun _ => none, [], rfl, fun _ h => absurd h List.not_mem_nil, fun _ h =>
    absurd h List.not_mem_nil,
    fun _ _ h => absurd h List.not_mem_nil, List.nodup_nil, fun _ => List.nodup_nil, fun _ _ => rfl⟩

/-- `lr` in memory does what `lr` by value does.  It stops in the same cases, and no wrong pointer
is followed. -/
theorem lr_simulates (G : Grammar) (F : SetTable) (fuel : ℕ) :
    Simulates Owned Fatal (fun _ t A => t.Owned ∧ t.Rep A [] ∧ t.recycledItems = none) (lr G F fuel)
    (G.lr F fuel)
      empty := by
  have howned := owned_empty
  have hrep : empty.Rep Automaton.empty [] :=
    ⟨.nil, rfl, fun _ => .nil, fun _ => .nil, fun _ => rfl, rfl, rfl, rfl⟩
  unfold lr Grammar.lr
  rcases hprods : G.productions G.goalSymbol with _ | ⟨p, _ | ⟨q, l⟩⟩
  · rw [Grammar.startState, hprods]
    exact Simulates.stop trivial
  · have hstart : G.startState =
        (Automaton.empty.newstate [⟨p, 0, {eoi}⟩]).bind fun r => r.1.addUnfinished r.2.1 := by
      rw [Grammar.startState, hprods]
    rw [hstart, Option.bind_assoc]
    refine Simulates.seq (newitem_keeps howned p) ?_
    rintro a s hmade
    refine Simulates.seq (hmade.update _) ?_
    rintro _ s hmade
    have hi : s.Holds a ⟨p, 0, {eoi}⟩ := hmade.cell
    refine Simulates.bind (newstate_start hmade.idle hi (hmade.rep hrep)).with_result ?_
    rintro _ t c ⟨hc, rfl, howned, hrep⟩
    refine Simulates.bind (addUnfinished_simulates howned hrep c.2.1).with_result ?_
    rintro _ t A ⟨hA, howned, -, hrep⟩
    have hrun : G.LrRun F A := ⟨A, by rw [hstart, hc]; exact hA, .refl⟩
    refine Keeps.bind (lrLoop_simulates howned hrep hrun) ?_
    rintro _ t ⟨B, hB, howned, hrep⟩
    refine Keeps.silent (m := read) rfl ?_
    obtain ⟨own, free, hown⟩ := id howned
    exact (freeRecycledItems_keeps howned hrep hown.list hown.length_le).total fun _ _ h =>
      ⟨B, hB, h⟩
  · rw [Grammar.startState, hprods]
    exact Simulates.stop trivial

/-! ## The items that are in use -/

/-- Items that are free are not in use, and items that are in use are in one place. -/
structure Separate (s : ItemStore) : Prop where
  /-- An item on the free list is in no state and not in the live part of `closure_items`, and it is
  on the list once. -/
  free : ∃ free, FreeList.IsList s.next s.recycledItems free ∧ free.Nodup ∧ ∀ a ∈ free,
    (∀ n, a ∉ (s.state n).kernelItems ∧ a ∉ (s.state n).epsilonItems) ∧ a ∉ s.closureItems
  /-- No item belongs to two states. -/
  states : ∀ a m n, a ∈ s.slots m → a ∈ s.slots n → m = n
  /-- `newitem` returns an item that is not in use, and it writes no other item. -/
  newitem : ∀ prod, ∃ a t, (newitem prod).result s = .ok (a, t) ∧ (∀ n, a ∉ s.slots n) ∧
    a ∉ s.closureItems ∧ ∀ b, b ≠ a → t.heap b = s.heap b

/-- When every item has at most one owner, the items are separate. -/
lemma Owned.separate (h : s.Owned) : s.Separate := by
  constructor
  · obtain ⟨own, free, hown⟩ := h
    refine ⟨free, hown.list, hown.list.nodup, fun a ha => ?_⟩
    have hfree := hown.free a ha
    have hslots : ∀ n, a ∉ s.slots n := by
      intro n hn
      cases hfree.symm.trans (hown.slot n a hn)
    refine ⟨fun n => ⟨fun hn => hslots n (List.mem_append_left _ hn), fun hn =>
      hslots n (List.mem_append_right _ hn)⟩,
      fun hlive => ?_⟩
    cases hfree.symm.trans (hown.live a hlive)
  · exact fun a m n => h.eq_of_mem_slots
  · intro prod
    have hresult := (newitem_keeps h prod).result
    cases hrun : (newitem prod).result s with
    | error e =>
      rw [hrun] at hresult
      exact hresult.elim
    | ok r =>
      obtain ⟨a, t⟩ := r
      rw [hrun] at hresult
      have hmade : s.Made a (Item.cell ⟨prod, 0, ∅⟩) t := hresult
      have hslots := hmade.idle.notMem_slots
      have hlive := hmade.idle.notMem_live
      rw [hmade.frame] at hslots hlive
      exact ⟨a, t, rfl, hslots, hlive, hmade.heap⟩

/-- At every point of `lr` the items on the free list are not in use, no item belongs to two states,
and `newitem` does not overwrite an item that is in use. -/
theorem lr_separate (G : Grammar) (F : SetTable) (fuel : ℕ) :
    ∀ s ∈ empty :: (lr G F fuel).states empty, s.Separate := by
  intro s hs
  refine Owned.separate ?_
  rcases List.mem_cons.mp hs with rfl | hs
  · exact owned_empty
  · exact (lr_simulates G F fuel).states s hs

/-- A grammar in which a state is found again: a list of symbols `1` that ends with `2`. -/
def rightGrammar : Grammar := SymbolTable.grammar
  { prods := [⟨0, 256, [257], 0⟩, ⟨1, 257, [1, 257], 0⟩, ⟨2, 257, [2], 0⟩]
    currterm := 2
    currnonterm := 257
    curract := 511
    goalSymbol := 256 } (by decide)

/-- `rightGrammar` at a point at which items have been freed and others are live. -/
theorem lr_separate_right :
    ∃ s ∈ empty :: (lr rightGrammar (fun x => if IsTerm x then {x} else {1, 2}) 10).states
      empty, s.recycledItems.isSome ∧ s.closureItems ≠ [] ∧ s.Separate := by
  have hsome :
      ((empty :: (lr rightGrammar (fun x => if IsTerm x then {x} else {1, 2}) 10).states
      empty).find? fun s =>
      s.recycledItems.isSome ∧ s.closureItems ≠ []).isSome = true := by decide +kernel
  obtain ⟨s, hs⟩ := Option.isSome_iff_exists.mp hsome
  have hmem := List.mem_of_find?_eq_some hs
  have hfound := List.find?_some hs
  obtain ⟨hfree, hlive⟩ := of_decide_eq_true hfound
  exact ⟨s, hmem, hfree, hlive, lr_separate _ _ _ s hmem⟩

end ItemStore

end Parser
