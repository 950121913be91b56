import Cgkits.Parser.ItemRuns

/-!
# The ways out of `closure_items` (`yystate.c`)

A closure item becomes an item of a state, or its lookaheads are merged into an item of a state:
`move_eps` does one or the other with the items of empty productions, and a transition does one or
the other with the items of a group.  What has been merged by a transition is freed; what has been
merged by `move_eps` is left behind.

Each function is compared with the function that has items by value.
-/

namespace Parser

namespace ItemStore

open Watched (Keeps Simulates read write stop)
open ItemFault (Fatal)
open List (Forall₂)

variable {s t : ItemStore} {A : Automaton} {l l' l₁ l₂ : List ℕ}
  {items items' pre old new rest : List Item} {i j : Item} {a b n cur nitems : ℕ}

/-! ## Writes to what is represented -/

/-- The items in front of an item and those behind it. -/
lemma holds_split (h : Forall₂ s.Holds l (items ++ i :: items')) :
    ∃ l₁ a l₂, l = l₁ ++ a :: l₂ ∧ l₁.length = items.length ∧ s.Holds a i ∧
      Forall₂ s.Holds l₂ items' := by
  have htake := List.forall₂_take_append _ _ _ h
  obtain ⟨a, l₂, ha, hl₂, hdrop⟩ :=
    List.forall₂_cons_right_iff.mp (List.forall₂_drop_append _ _ _ h)
  refine ⟨l.take items.length, a, l₂, ?_, htake.length_eq, ha, hl₂⟩
  rw [← hdrop, List.take_append_drop]

/-- The items at the pointers in front and at those behind. -/
lemma holds_append (h : Forall₂ s.Holds (l₁ ++ l₂) (items ++ items'))
    (hlen : l₁.length = items.length) : Forall₂ s.Holds l₁ items ∧ Forall₂ s.Holds l₂ items' := by
  have hfront := List.forall₂_take_append _ _ _ h
  have hback := List.forall₂_drop_append _ _ _ h
  rw [← hlen, List.take_left] at hfront
  rw [← hlen, List.drop_left] at hback
  exact ⟨hfront, hback⟩

/-- Writing the item at one pointer changes the item of this place in the list. -/
lemma holds_write (h : Forall₂ s.Holds (l₁ ++ a :: l₂) (items ++ i :: items'))
    (hlen : l₁.length = items.length) (hnodup : (l₁ ++ a :: l₂).Nodup) (j : Item) :
    Forall₂ (s.setCell a j.cell).Holds (l₁ ++ a :: l₂) (items ++ j :: items') := by
  obtain ⟨hfront, hback⟩ := holds_append h hlen
  obtain ⟨-, hfresh, hdisjoint⟩ := List.nodup_append.mp hnodup
  refine List.rel_append ?_ (.cons (Function.update_self _ _ _) ?_)
  · refine holds_congr hfront fun b hb => Function.update_of_ne ?_ _ _
    exact hdisjoint b hb a List.mem_cons_self
  · refine holds_congr (List.forall₂_cons.mp hback).2 fun b hb => Function.update_of_ne ?_ _ _
    rintro rfl
    exact (List.nodup_cons.mp hfresh).1 hb

/-- The live items behind some pointers are those of the rest of the list. -/
lemma Rep.live_drop (h : s.Rep A (items ++ items')) (hlive : s.closureItems = l₁ ++ l₂)
    (hlen : l₁.length = items.length) : Forall₂ s.Holds l₂ items' :=
  (holds_append (hlive ▸ h.live) hlen).2

/-- When a live item is written, the rest of the memory still stands for the same automaton. -/
lemma Rep.write_live (h : s.Rep A (pre ++ i :: items)) (howned : s.Owned)
    (hlive : s.closureItems = l₁ ++ a :: l₂) (hlen : l₁.length = pre.length) (j : Item) :
    (s.setCell a j.cell).Rep A (pre ++ j :: items) := by
  have hmem : a ∈ s.closureItems := hlive ▸ List.mem_append_right _ List.mem_cons_self
  have hother : ∀ n, ∀ b ∈ s.slots n, (s.setCell a j.cell).heap b = s.heap b := by
    intro n b hb
    refine Function.update_of_ne ?_ _ _
    rintro rfl
    exact howned.notMem_slots hmem n hb
  refine ⟨?_, h.nstates, ?_, ?_, h.closed, h.actions, h.gotos, h.unfinished⟩
  · have hitems := h.live
    have hnodup := howned.nodup_live
    change Forall₂ _ s.closureItems _
    rw [hlive] at hitems hnodup ⊢
    exact holds_write hitems hlen hnodup j
  · exact fun n => holds_congr (h.kernel n) fun b hb => hother n b (List.mem_append_left _ hb)
  · exact fun n => holds_congr (h.epsilon n) fun b hb => hother n b (List.mem_append_right _ hb)

/-- A relation between the states, when one of them is written. -/
lemma rel_update {R : StateCell → LrState → Prop} {f : ℕ → StateCell} {g : ℕ → LrState}
    {st : StateCell} {st' : LrState} (hn : R st st') (h : ∀ m, m ≠ n → R (f m) (g m)) (m : ℕ) :
    R (Function.update f n st m) (Function.update g n st' m) := by
  by_cases hm : m = n
  · rw [hm, Function.update_self, Function.update_self]
    exact hn
  · rw [Function.update_of_ne hm, Function.update_of_ne hm]
    exact h m hm

/-- When an item of a state is written, only the items of this state change. -/
lemma Rep.write_slot (h : s.Rep A items) (howned : s.Owned) (ha : a ∈ s.slots n) {c : ItemCell}
    {st : LrState} (hkernel : Forall₂ (s.setCell a c).Holds (s.state n).kernelItems st.kernelItems)
    (hepsilon : Forall₂ (s.setCell a c).Holds (s.state n).epsilonItems st.epsilonItems)
    (hclosed : st.closed = (A.state n).closed) :
    (s.setCell a c).Rep { A with state := Function.update A.state n st } items := by
  have hother : ∀ m, m ≠ n → ∀ b ∈ s.slots m, (s.setCell a c).heap b = s.heap b := by
    intro m hm b hb
    refine Function.update_of_ne ?_ _ _
    rintro rfl
    exact hm (howned.eq_of_mem_slots hb ha)
  have hstate : (s.setCell a c).state = Function.update s.state n (s.state n) :=
    (Function.update_eq_self n s.state).symm
  constructor
  · refine holds_congr h.live fun b hb => Function.update_of_ne ?_ _ _
    rintro rfl
    exact howned.notMem_slots hb n ha
  · exact h.nstates
  · rw [hstate]
    exact rel_update (R := fun st st' => Forall₂ _ st.kernelItems st'.kernelItems) hkernel
        fun m hm =>
      holds_congr (h.kernel m) fun b hb => hother m hm b (List.mem_append_left _ hb)
  · rw [hstate]
    exact rel_update (R := fun st st' => Forall₂ _ st.epsilonItems st'.epsilonItems) hepsilon
        fun m hm =>
      holds_congr (h.epsilon m) fun b hb => hother m hm b (List.mem_append_right _ hb)
  · rw [hstate]
    exact rel_update (R := fun st st' => st.closed = st'.closed) ((h.closed n).trans hclosed.symm)
      fun m _ => h.closed m
  · exact h.actions
  · exact h.gotos
  · exact h.unfinished

/-- A state is written, and the live part of `closure_items`. -/
lemma Rep.write_state (h : s.Rep A items) (st : StateCell) (st' : LrState)
    (hkernel : Forall₂ s.Holds st.kernelItems st'.kernelItems)
    (hepsilon : Forall₂ s.Holds st.epsilonItems st'.epsilonItems) (hclosed : st.closed = st'.closed)
    (hlive : Forall₂ s.Holds l items') (n : ℕ) {k k' : ℕ} (hk : k = k') :
    ({ s with nstates := k, state := Function.update s.state n st, closureItems := l } :
    ItemStore).Rep
      { A with nstates := k', state := Function.update A.state n st' } items' := by
  constructor
  · exact hlive
  · exact hk
  · exact rel_update (R := fun st st' => Forall₂ _ st.kernelItems st'.kernelItems) hkernel
      fun m _ => h.kernel m
  · exact rel_update (R := fun st st' => Forall₂ _ st.epsilonItems st'.epsilonItems) hepsilon
      fun m _ => h.epsilon m
  · exact rel_update (R := fun st st' => st.closed = st'.closed) hclosed fun m _ => h.closed m
  · exact h.actions
  · exact h.gotos
  · exact h.unfinished

/-! ## Sorting -/

/-- Fetching the pointers of a list returns the items that they point at. -/
lemma fetchAll_run (h : Forall₂ s.Holds l items) :
    fetchAll l s = ([], .ok ((l.zip items).map (Prod.map id Item.cell), s)) := by
  induction h with
  | nil => rfl
  | cons ha _ ih =>
    rw [fetchAll, Watched.bind_of_run (fetch_run ha), Watched.bind_of_run ih]
    rfl

/-- The call of `sys_ssort` keeps every item owned and sorts the live ones. -/
lemma sort_keeps (howned : s.Owned) (hrep : s.Rep A items) :
    Keeps Owned (fun _ => False) (fun _ t => t.Owned ∧ t.Rep A (sortItems items)) sort s := by
  refine Keeps.silent (m := read) rfl (Keeps.silent (fetchAll_run hrep.live) ?_)
  have hlen := hrep.live.length_eq
  -- pointers and items are sorted together
  have hperm :=
    ShellSort.shellSort_perm (fun x y : ℕ × Item => coreLe x.2.core y.2.core)
      (s.closureItems.zip items)
  have hcells :
      ShellSort.shellSort (fun x y => x.2.le y.2)
      ((s.closureItems.zip items).map (Prod.map id Item.cell)) =
      (ShellSort.shellSort (fun x y => coreLe x.2.core y.2.core) (s.closureItems.zip items)).map
      (Prod.map id Item.cell) :=
    ShellSort.map_shellSort (fun _ _ => rfl) _
  have hitems :
      ShellSort.shellSort (fun x y => coreLe x.core y.core)
      ((s.closureItems.zip items).map Prod.snd) =
      (ShellSort.shellSort (fun x y => coreLe x.2.core y.2.core) (s.closureItems.zip items)).map
      Prod.snd :=
    ShellSort.map_shellSort (fun _ _ => rfl) _
  have hfst : Prod.fst ∘ Prod.map (id : ℕ → ℕ) Item.cell = Prod.fst := rfl
  rw [List.map_snd_zip hlen.ge] at hitems
  rw [hcells, List.map_map, hfst]
  have hpointers := hperm.map Prod.fst
  rw [List.map_fst_zip hlen.le] at hpointers
  have howned' :=
    howned.live (fun a ha => hpointers.mem_iff.mp ha) (hpointers.nodup_iff.mpr howned.nodup_live)
  refine Keeps.write howned' ⟨howned', ?_, hrep.nstates, hrep.kernel, hrep.epsilon, hrep.closed,
    hrep.actions, hrep.gotos, hrep.unfinished⟩
  change Forall₂ s.Holds _ (sortItems items)
  rw [sortItems, hitems, List.forall₂_map_left_iff, List.forall₂_map_right_iff, List.forall₂_same]
  exact fun x hx => List.forall₂_zip hrep.live (hperm.mem_iff.mp hx)

/-! ## The items of empty productions -/

/-- A live item that becomes an item of a state has a new owner. -/
lemma Owned.store (h : s.Owned) (hlive : s.closureItems = a :: l) (n : ℕ) :
    ({ s with
      state :=
        Function.update s.state n { s.state n with epsilonItems := (s.state n).epsilonItems ++ [a] }
      closureItems := l } : ItemStore).Owned := by
  obtain ⟨own, free, hown⟩ := id h
  have hmem : ∀ b ∈ a :: l, b ∈ s.closureItems := fun b hb => hlive ▸ hb
  have hnodup : (a :: l).Nodup := hlive ▸ hown.nodup_live
  obtain ⟨hnot, hnodup⟩ := List.nodup_cons.mp hnodup
  have hslots : (s.state n).kernelItems ++ ((s.state n).epsilonItems ++ [a]) = s.slots n ++ [a] :=
    (List.append_assoc _ _ _).symm
  refine hown.adopt n _ [a] ?_ ?_ ?_ ?_ hnodup s.nstates
  · intro b hb
    rw [List.mem_singleton.mp hb]
    exact .inl (hown.live a (hmem a List.mem_cons_self))
  · intro b hb
    rw [hslots] at hb
    exact List.mem_append.mp hb
  · rw [hslots]
    refine List.nodup_append.mpr ⟨hown.nodup_slots n, List.nodup_singleton a, fun x hx y hy hxy =>
      ?_⟩
    rw [hxy, List.mem_singleton.mp hy] at hx
    exact h.notMem_slots (hmem a List.mem_cons_self) n hx
  · intro b hb
    refine ⟨hmem b (List.mem_cons_of_mem _ hb), fun hba => ?_⟩
    rw [List.mem_singleton.mp hba] at hb
    exact hnot hb

/-- The items of empty productions of a state are replaced twice. -/
lemma setEpsilon_setEpsilon (A : Automaton) (n : ℕ) (items items' : List Item) :
    (A.setEpsilon n items).setEpsilon n items' = A.setEpsilon n items' := by
  simp [Automaton.setEpsilon]

/-- The items of empty productions of a state that has got them. -/
lemma epsilonItems_setEpsilon (A : Automaton) (n : ℕ) (items : List Item) :
    (A.setEpsilon n items).state n = { A.state n with epsilonItems := items } := by
  simp [Automaton.setEpsilon]

/-- Storing a live item in a state adds it to the empty productions of the state. -/
lemma Rep.store {old : List Item} (h : s.Rep (A.setEpsilon cur old) (i :: items))
    (hlive : s.closureItems = a :: l) : ({ s with
      state :=
        Function.update s.state cur { s.state cur with
          epsilonItems := (s.state cur).epsilonItems ++ [a] }
      closureItems := l } : ItemStore).Rep (A.setEpsilon cur (old ++ [i])) items := by
  have hitems := h.live
  have hkernel := h.kernel cur
  have hepsilon := h.epsilon cur
  have hclosed := h.closed cur
  rw [hlive] at hitems
  rw [epsilonItems_setEpsilon] at hkernel hepsilon hclosed
  obtain ⟨ha, hitems⟩ := List.forall₂_cons.mp hitems
  have hwrite :=
    h.write_state { s.state cur with epsilonItems := (s.state cur).epsilonItems ++ [a] }
    { A.state cur with epsilonItems := old ++ [i] } hkernel
      (List.rel_append hepsilon (.cons ha .nil)) hclosed hitems cur
    h.nstates
  rw [← setEpsilon_setEpsilon A cur old (old ++ [i])]
  rw [Automaton.setEpsilon, epsilonItems_setEpsilon]
  exact hwrite

/-- The lookaheads of a live item are merged into an item of a state. -/
lemma Rep.merge {old : List Item} (h : s.Rep (A.setEpsilon cur (pre ++ i :: old)) items)
    (howned : s.Owned) (hslots : (s.state cur).epsilonItems = l₁ ++ a :: l₂)
    (hlen : l₁.length = pre.length) (j : Item) : (s.setCell a j.cell).Owned ∧
    (s.setCell a j.cell).Rep (A.setEpsilon cur (pre ++ j :: old)) items := by
  have hmem : a ∈ (s.state cur).epsilonItems := hslots ▸ List.mem_append_right _ List.mem_cons_self
  have hslot : a ∈ s.slots cur := List.mem_append_right _ hmem
  obtain ⟨-, hnodup, hdisjoint⟩ := List.nodup_append.mp (howned.nodup_slots cur)
  have hkernel := h.kernel cur
  have hepsilon := h.epsilon cur
  have hclosed := h.closed cur
  rw [epsilonItems_setEpsilon] at hkernel hepsilon hclosed
  refine ⟨howned.setCell_slot hslot _, ?_⟩
  rw [← setEpsilon_setEpsilon A cur (pre ++ i :: old), Automaton.setEpsilon,
    epsilonItems_setEpsilon]
  refine h.write_slot howned hslot ?_ ?_ ?_
  · exact holds_congr hkernel fun b hb => Function.update_of_ne (hdisjoint b hb a hmem) _ _
  · rw [hslots] at hepsilon hnodup ⊢
    exact holds_write hepsilon hlen hnodup j
  · rw [epsilonItems_setEpsilon]

/-- The live part may lose its first item to a state. -/
lemma Rep.tail (h : s.Rep A (i :: items)) (hlive : s.closureItems = a :: l) :
    ({ s with closureItems := l } : ItemStore).Rep A items := by
  have hitems := h.live
  rw [hlive] at hitems
  exact ⟨(List.forall₂_cons.mp hitems).2, h.nstates, h.kernel, h.epsilon, h.closed, h.actions,
    h.gotos, h.unfinished⟩

/-- The loop of `move_eps` stores the items of empty productions, or merges them one by one into
those that are stored. -/
lemma moveEpsLoop_keeps {item : Item} {done : List Item} (hnew : ∀ i ∈ new, i.prod.rhs = [])
    (hitem : item.prod.rhs ≠ []) (hold : nitems = 0 → old = [])
    (hlen : nitems ≠ 0 → old.length = new.length) (howned : s.Owned)
    (hrep : s.Rep (A.setEpsilon cur (done ++ old)) (new ++ item :: rest)) :
    Keeps Owned (fun e => new ≠ [] ∧ maxEpsilon < done.length + new.length ∧ e.Fatal)
      (fun moved t => moved = done.length + new.length ∧ (new ≠ [] → moved ≤ maxEpsilon) ∧ t.Owned ∧
        t.Rep
        (A.setEpsilon cur (done ++ if nitems = 0 then new else List.zipWith Item.union old new))
        (item :: rest))
      (moveEpsLoop cur nitems s.closureItems done.length) s := by
  induction new generalizing s done old with
  | nil =>
    have hnil : old = [] := by
      by_cases hn : nitems = 0
      · exact hold hn
      · exact List.length_eq_zero_iff.mp (hlen hn)
    obtain ⟨a, l, ha, -, hlive⟩ := List.forall₂_cons_right_iff.mp hrep.live
    rw [hlive, moveEpsLoop]
    refine Keeps.silent (fetch_run ha) (Keeps.silent (m := prodOf item.cell) rfl ?_)
    rw [if_neg fun h => hitem (List.length_eq_zero_iff.mp h)]
    refine Keeps.pure ⟨rfl, fun h => absurd rfl h, howned, ?_⟩
    rw [hnil] at hrep ⊢
    rw [List.zipWith_nil_left, ite_self]
    exact hrep
  | cons x new ih =>
    obtain ⟨a, l, ha, -, hlive⟩ := List.forall₂_cons_right_iff.mp hrep.live
    have hx : x.prod.rhs.length = 0 := List.length_eq_zero_iff.mpr (hnew x List.mem_cons_self)
    have hnew' : ∀ i ∈ new, i.prod.rhs = [] := fun i hi => hnew i (List.mem_cons_of_mem x hi)
    have hcons : (x :: new).length = new.length + 1 := List.length_cons
    rw [hlive, moveEpsLoop]
    refine Keeps.silent (fetch_run ha) (Keeps.silent (m := prodOf x.cell) rfl ?_)
    rw [if_pos hx]
    by_cases hmany : maxEpsilon < done.length + 1
    · rw [if_pos hmany]
      exact Keeps.stop ⟨List.cons_ne_nil _ _, by omega, trivial⟩
    · rw [if_neg hmany]
      -- the items that are still to be moved are counted from the next one on
      have hcount : ∀ {m : LrM ℕ} {t : ItemStore} {Q : ItemStore → Prop},
          Keeps Owned (fun e => new ≠ [] ∧ maxEpsilon < done.length + 1 + new.length ∧ e.Fatal)
            (fun moved t => moved = done.length + 1 + new.length ∧ (new ≠ [] → moved ≤ maxEpsilon) ∧
            Q t) m t →
          Keeps Owned (fun e => x :: new ≠ [] ∧ maxEpsilon < done.length + (x :: new).length ∧
          e.Fatal)
            (fun moved t => moved = done.length + (x :: new).length ∧
            (x :: new ≠ [] → moved ≤ maxEpsilon) ∧ Q t) m t := by
        intro m t Q hstep
        refine Keeps.imp hstep ?_ ?_
        · rintro e ⟨-, hlt, he⟩
          exact ⟨List.cons_ne_nil _ _, by omega, he⟩
        · rintro moved u ⟨hmoved, hle, hu⟩
          refine ⟨by omega, fun _ => ?_, hu⟩
          by_cases hnil : new = []
          · rw [hmoved, hnil, List.length_nil]
            omega
          · exact hle hnil
      have hlength : ∀ y : Item, (done ++ [y]).length = done.length + 1 := fun y => by
        rw [List.length_append, List.length_singleton]
      by_cases hn : nitems = 0
      · -- the first visit: the item is stored
        rw [if_neg (not_not.mpr hn)]
        rw [hold hn, List.append_nil] at hrep
        have howned' := howned.store hlive cur
        have hrep' := hrep.store hlive
        refine Keeps.bind (P := fun _ t => t = _) (.write howned' rfl) ?_
        rintro _ t rfl
        rw [← List.append_nil (done ++ [x])] at hrep'
        have hstep := ih hnew' (fun _ => rfl) (fun h => absurd hn h) howned' hrep'
        rw [hlength, if_pos hn, List.append_assoc, List.singleton_append] at hstep
        rw [if_pos hn]
        exact hcount hstep
      · -- the item is merged into the stored one with its position
        rw [if_pos hn]
        cases old with
        | nil => exact absurd (hlen hn) (Nat.succ_ne_zero _).symm
        | cons d old =>
          have hepsilon := hrep.epsilon cur
          rw [epsilonItems_setEpsilon] at hepsilon
          obtain ⟨l₁, b, l₂, hslots, hlen₁, hb, -⟩ := holds_split hepsilon
          have hget : (s.state cur).epsilonItems[done.length]? = some b := by
            rw [hslots, ← hlen₁, List.getElem?_append_right (Nat.le_refl _), Nat.sub_self,
              List.getElem?_cons_zero]
          refine Keeps.silent (m := read) rfl ?_
          rw [hget]
          obtain ⟨howned', hrep'⟩ := hrep.merge howned hslots hlen₁ (d.union x)
          refine Keeps.bind (P := fun _ t => t = s.setCell b (d.union x).cell)
            (update_keeps hb howned' rfl) ?_
          rintro _ t rfl
          have hlive' : (s.setCell b (d.union x).cell).closureItems = a :: l := hlive
          have howned'' := howned'.live (fun c hc => hlive' ▸ List.mem_cons_of_mem _ hc)
            (List.nodup_cons.mp (hlive' ▸ howned'.nodup_live)).2
          have hrep'' := hrep'.tail hlive'
          refine Keeps.bind (P := fun _ t => t = _) (.write howned'' rfl) ?_
          rintro _ t rfl
          rw [List.append_cons] at hrep''
          have hstep :=
            ih hnew' (fun h => absurd h hn) (fun _ => Nat.succ.inj (hlen hn)) howned'' hrep''
          rw [hlength, if_neg hn, List.append_assoc, List.singleton_append] at hstep
          rw [if_neg hn, List.zipWith_cons_cons]
          exact hcount hstep

/-- The sorted items of a closure: in front those of empty productions, as many as have been stored,
if any; behind them at least one item, and all of these have a symbol to the right of the dot. -/
def EmptyFirst (old l : List Item) : Prop :=
  ∃ new item rest, l = new ++ item :: rest ∧ (∀ i ∈ new, i.prod.rhs = []) ∧
    (∀ i ∈ item :: rest, (rightOfDot i.core).isSome) ∧ (old = [] ∨ old.length = new.length)

/-- `move_eps` by value, when the items of empty productions stand in front. -/
lemma moveEps_append {item : Item} (hnew : ∀ i ∈ new, i.prod.rhs = [])
    (hitem : item.prod.rhs ≠ []) :
    Parser.moveEps old (new ++ item :: rest) = if maxEpsilon < new.length then none else
      some (if new = [] then old else if old = [] then new else List.zipWith Item.union old new,
          item :: rest) := by
  rw [Parser.moveEps, takeWhile_append_empty hnew hitem, List.drop_left]

/-- `move_eps` on the memory does what it does by value, and every item stays owned. -/
lemma moveEps_simulates (howned : s.Owned) (hrep : s.Rep A items)
    (hfront : EmptyFirst (A.state cur).epsilonItems items) :
    Simulates Owned Fatal (fun _ t r => t.Owned ∧ t.Rep (A.setEpsilon cur r.1) r.2 ∧
    ∀ i ∈ r.2, (rightOfDot i.core).isSome)
      (moveEps cur) (Parser.moveEps (A.state cur).epsilonItems items) s := by
  obtain ⟨new, item, rest, rfl, hnew, hrest, hold⟩ := hfront
  have hitem := Grammar.rhs_ne_nil (hrest item List.mem_cons_self)
  have hlen := (hrep.epsilon cur).length_eq
  have hrep' :
      s.Rep (A.setEpsilon cur ([] ++ (A.state cur).epsilonItems)) (new ++ item :: rest) := by
    rw [List.nil_append, Automaton.setEpsilon, Function.update_eq_self]
    exact hrep
  rw [moveEps_append hnew hitem]
  refine Simulates.silent (m := read) rfl ?_
  refine Keeps.bind (Keeps.imp (moveEpsLoop_keeps hnew hitem ?_ ?_ howned hrep') ?_ fun _ _ ht =>
    ht) ?_
  · rw [hlen]
    exact List.length_eq_zero_iff.mp
  · rw [hlen]
    exact fun hne => hold.resolve_left fun hnil => hne (by rw [hnil, List.length_nil])
  · rintro e ⟨-, hlt, he⟩
    rw [List.length_nil, Nat.zero_add] at hlt
    exact ⟨if_pos hlt, he⟩
  · rintro moved t ⟨hmoved, hle, howned', ht⟩
    rw [List.length_nil, Nat.zero_add] at hmoved
    rw [List.nil_append, hlen] at ht
    have hlength := (ht.epsilon cur).length_eq
    rw [epsilonItems_setEpsilon, length_stored hold, ← hmoved] at hlength
    rw [stored_eq hold] at ht
    have hfull : ¬ maxEpsilon < new.length := by
      by_cases hnil : new = []
      · rw [hnil]
        exact Nat.not_lt_zero _
      · rw [← hmoved]
        exact Nat.not_lt_of_le (hle hnil)
    rw [if_neg hfull]
    by_cases hnil : new = []
    · rw [hnil, List.length_nil] at hmoved
      rw [hmoved]
      exact Simulates.pure ⟨howned', ht, hrest⟩
    · have hne : moved ≠ 0 := fun h => hnil (List.length_eq_zero_iff.mp (hmoved.symm.trans h))
      -- as many have been moved as are stored
      have htake := List.take_of_length_le hlength.le
      have hsame : { t with
          state := Function.update t.state cur
            { t.state cur with epsilonItems := (t.state cur).epsilonItems.take moved } } = t := by
        rw [htake, Function.update_eq_self]
      dsimp only
      rw [if_pos hne]
      refine Keeps.write ?_ ⟨_, rfl, ?_⟩
      · rw [hsame]
        exact howned'
      · rw [hsame]
        exact ⟨howned', ht, hrest⟩

/-- Storing the empty productions of a closure does on the memory what it does by value. -/
lemma emptyItems_simulates (howned : s.Owned) (hrep : s.Rep A items)
    (hfront : items ≠ [] → EmptyFirst (A.state cur).epsilonItems (sortItems items)) :
    Simulates Owned Fatal (fun _ t r => t.Owned ∧ t.Rep (A.setEpsilon cur r.1) r.2 ∧
    ∀ i ∈ r.2, (rightOfDot i.core).isSome)
      (emptyItems cur) (Parser.moveEps (A.state cur).epsilonItems (sortItems items)) s := by
  refine Simulates.silent (m := read) rfl ?_
  by_cases hnil : items = []
  · have hlive := hrep.live
    rw [hnil] at hrep hlive ⊢
    rw [if_pos (List.forall₂_nil_right_iff.mp hlive)]
    have hself : A.setEpsilon cur (A.state cur).epsilonItems = A := by
      rw [Automaton.setEpsilon, Function.update_eq_self]
    have hmove :
      Parser.moveEps (A.state cur).epsilonItems (sortItems []) = some ((A.state cur).epsilonItems,
      []) := rfl
    rw [hmove]
    refine Simulates.pure ⟨howned, ?_, fun _ hi => absurd hi List.not_mem_nil⟩
    rw [hself]
    exact hrep
  · have hne : s.closureItems ≠ [] := by
      intro h
      have hlive := hrep.live
      rw [h] at hlive
      exact hnil (List.forall₂_nil_left_iff.mp hlive)
    rw [if_neg hne]
    refine Simulates.seq (sort_keeps howned hrep) ?_
    rintro _ t ⟨howned', hrep'⟩
    exact moveEps_simulates howned' hrep' (hfront hnil)

end ItemStore

end Parser
