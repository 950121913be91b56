import Cgkits.Parser.Lalr
import Mathlib.Order.Bounds.Basic

/-!
# The LALR(1) automaton and its lookaheads

`Look A n o t` is the least family of lookaheads over the states of `A` and the occurrences of items
in their closures: the start item has `_EOI_`, closures are closed, and a transition passes the
lookaheads of the items that it moves.

A run of `lr` keeps three kinds of facts, whatever the order of the visits: a state has either no
transitions yet or those of its closure (`Linked`); a lookahead in a kernel belongs to the family
(`Base.sound`); and the lookaheads of a state that is not unfinished have been passed on
(`PassedOn`).  `Visiting` says what holds in the middle of a visit.  When no state is unfinished,
the lookaheads are those of the family.
-/

namespace Parser

open Grammar

namespace Grammar

variable (G : Grammar) (F : SetTable) (A A' : Automaton)

/-- A family of lookaheads: of the occurrences of items in the closures of the states. -/
structure LookFamily (Λ : ℕ → Occ → ℕ → Prop) : Prop where
  /-- The start item has `_EOI_`. -/
  start : ∀ p ∈ G.productions G.goalSymbol, Λ 0 (.kern 0 (p, 0)) eoi
  /-- Closures are closed: what can follow the symbol right of a dot inside the production. -/
  first : ∀ n < A.nstates, ∀ o ∈ G.occs (A.cores n), ∀ x p, rightOfDot o.core = some x →
    IsNonterm x → p ∈ G.productions x → ∀ t ∈ G.firstAfter F o.core, Λ n (.clos p) t
  /-- Closures are closed: what can follow the production, if nothing needs to follow the symbol
  inside it. -/
  inherit : ∀ n < A.nstates, ∀ o x p, rightOfDot o.core = some x → IsNonterm x →
    p ∈ G.productions x → G.NullableAfter F o.core → ∀ t, Λ n o t → Λ n (.clos p) t
  /-- The lookaheads are propagated along every transition. -/
  shift : ∀ n < A.nstates, ∀ x k o, (G.dotBefore (A.cores n) x)[k]? = some o →
    ∀ n' : ℕ, (n' : ℤ) ∈ A.targets n x → ∀ t, Λ n o t → Λ n' (.kern k (advance o.core)) t

/-- The least family of lookaheads of the items of an automaton. -/
inductive Look : ℕ → Occ → ℕ → Prop
  /-- The start item has `_EOI_`. -/
  | start {p : Production} : p ∈ G.productions G.goalSymbol → Look 0 (.kern 0 (p, 0)) eoi
  /-- What can follow the symbol right of a dot inside the production. -/
  | first {n x t : ℕ} {o : Occ} {p : Production} : n < A.nstates → o ∈ G.occs (A.cores n) →
      rightOfDot o.core = some x → IsNonterm x → p ∈ G.productions x → t ∈ G.firstAfter F o.core →
      Look n (.clos p) t
  /-- What can follow the production. -/
  | inherit {n x t : ℕ} {o : Occ} {p : Production} : n < A.nstates → Look n o t →
      rightOfDot o.core = some x → IsNonterm x → p ∈ G.productions x → G.NullableAfter F o.core →
      Look n (.clos p) t
  /-- What a transition passes on. -/
  | shift {n n' x k t : ℕ} {o : Occ} : n < A.nstates → Look n o t →
      (G.dotBefore (A.cores n) x)[k]? = some o → (n' : ℤ) ∈ A.targets n x →
      Look n' (.kern k (advance o.core)) t

/-- `Look` is the least family of lookaheads of the items of the automaton. -/
lemma look_isLeast : IsLeast {Λ | G.LookFamily F A Λ} (G.Look F A) := by
  refine ⟨⟨?_, ?_, ?_, ?_⟩, ?_⟩
  · intro p hp
    exact .start hp
  · intro n hn o ho x p hx hnx hp t ht
    exact .first hn ho hx hnx hp ht
  · intro n hn o x p hx hnx hp hnull t ht
    exact .inherit hn ht hx hnx hp hnull
  · intro n hn x k o ho n' hn' t ht
    exact .shift hn ht ho hn'
  · intro Λ hΛ n o t h
    induction h with
    | start hp => exact hΛ.start _ hp
    | first hn ho hx hnx hp ht => exact hΛ.first _ hn _ ho _ _ hx hnx hp _ ht
    | inherit hn _ hx hnx hp hnull ih => exact hΛ.inherit _ hn _ _ _ hx hnx hp hnull _ ih
    | shift hn _ ho hn' ih => exact hΛ.shift _ hn _ _ _ ho _ hn' _ ih

variable {G F A A'}

/-- A larger automaton has all the lookaheads of a smaller one, and perhaps more. -/
lemma Look.mono (hn : A.nstates ≤ A'.nstates) (hcores : ∀ m < A.nstates, A'.cores m = A.cores m)
    (htargets : ∀ m x n, n ∈ A.targets m x → n ∈ A'.targets m x) {n t : ℕ} {o : Occ}
    (h : G.Look F A n o t) : G.Look F A' n o t := by
  induction h with
  | start hp => exact .start hp
  | first hm ho hx hnx hp ht =>
    exact .first (hm.trans_le hn) (by rwa [hcores _ hm]) hx hnx hp ht
  | inherit hm _ hx hnx hp hnull ih => exact .inherit (hm.trans_le hn) ih hx hnx hp hnull
  | shift hm _ ho hn' ih =>
    exact .shift (hm.trans_le hn) ih (by rwa [hcores _ hm]) (htargets _ _ _ hn')

/-- Lookaheads computed from a kernel whose lookaheads belong to the family belong to the family. -/
lemma look_of_occLook {kernel : List Item} {n : ℕ} (hn : n < A.nstates)
    (hcore : kernel.map Item.core = A.cores n)
    (h : ∀ k c t, (A.cores n)[k]? = some c → Slot kernel k t → G.Look F A n (.kern k c) t)
    {o : Occ} {t : ℕ} (ho : G.OccLook F kernel o t) : G.Look F A n o t := by
  induction ho with
  | @kern k i t hi ht =>
    apply h k i.core t
    · rw [← hcore, List.getElem?_map, hi]
      rfl
    · exact ⟨i, hi, ht⟩
  | first ho hx hnx hp ht => exact .first hn (hcore ▸ ho) hx hnx hp ht
  | inherit _ hx hnx hp hnull ih => exact .inherit hn ih hx hnx hp hnull

/-! ## The invariant of a run -/

variable (G F A)

/-- The transition of a state on a symbol is the one of its closure. -/
def Linked (n x : ℕ) : Prop :=
  (G.dotBefore (A.cores n) x = [] → A.targets n x = []) ∧
    (G.dotBefore (A.cores n) x ≠ [] → ∃ n' < A.nstates, A.targets n x = [(n' : ℤ)] ∧
      A.cores n' = (G.dotBefore (A.cores n) x).map fun o => advance o.core)

/-- The lookaheads that the closure of a kernel gives have been passed on to the next state on a
symbol. -/
def PassedOn (kernel : List Item) (n x : ℕ) : Prop :=
  ∀ n' : ℕ, (n' : ℤ) ∈ A.targets n x → ∀ k o t, (G.dotBefore (A.cores n) x)[k]? = some o →
    G.OccLook F kernel o t → Slot (A.kernel n') k t

/-- The items of empty productions in a state are those of the closure of a kernel. -/
structure Emptied (kernel : List Item) (n : ℕ) : Prop where
  /-- The empty productions of the closure. -/
  core : (A.state n).epsilonItems.map Item.core = (G.emptyOccs (A.cores n)).map Occ.core
  /-- The lookaheads of the items are those of the occurrences. -/
  slot : ∀ k t, Slot (A.state n).epsilonItems k t ↔
    ∃ o, (G.emptyOccs (A.cores n))[k]? = some o ∧ G.OccLook F kernel o t

/-- What holds of the automaton as a whole, at any time in a run of `lr`. -/
structure Base : Prop where
  /-- There is a state, the one of the start. -/
  pos : 0 < A.nstates
  /-- The kernel of the first state is the start item. -/
  start : ∃ p, G.productions G.goalSymbol = [p] ∧ A.cores 0 = [(p, 0)]
  /-- The start item has the lookahead `_EOI_`. -/
  startLook : Slot (A.kernel 0) 0 eoi
  /-- The items are items of productions of the grammar. -/
  prods : ∀ m, ∀ c ∈ A.cores m, c.1 ∈ G.prods
  /-- No two states have the same kernel. -/
  distinct : ∀ m < A.nstates, ∀ n < A.nstates, A.cores m = A.cores n → m = n
  /-- There is nothing behind the states. -/
  fresh : ∀ m, A.nstates ≤ m → A.state m = .none
  /-- There are no transitions behind the states. -/
  freshTargets : ∀ m, A.nstates ≤ m → ∀ x, A.targets m x = []
  /-- A state other than the first one has been appended by a transition from a state before it. -/
  appended : ∀ m < A.nstates, m ≠ 0 → ∃ n < m, ∃ x, (m : ℤ) ∈ A.targets n x
  /-- Only states are unfinished. -/
  unfinished : ∀ m ∈ A.unfinished, m < A.nstates
  /-- The chains of actions have entries for terminals. -/
  actions : ∀ m, ∀ a ∈ A.actions m, IsTerm a.sym
  /-- The lookaheads belong to the family. -/
  sound : ∀ m < A.nstates, ∀ k c t, (A.cores m)[k]? = some c → Slot (A.kernel m) k t →
    G.Look F A m (.kern k c) t

/-- What holds of a state between the visits. -/
structure StateOk (n : ℕ) : Prop where
  /-- A state that has not been visited is unfinished and has no transitions. -/
  unclosed : (A.state n).closed = false →
    n ∈ A.unfinished ∧ (A.state n).epsilonItems = [] ∧ ∀ x, A.targets n x = []
  /-- A state that has been visited has the transitions of its closure. -/
  linked : (A.state n).closed = true → ∀ x, G.Linked A n x
  /-- A state that has been visited has the empty productions of its closure, with lookaheads that
  were right at the last visit. -/
  emptied : (A.state n).closed = true → ∃ kernel, kernel.map Item.core = A.cores n ∧
    (∀ k t, Slot kernel k t → Slot (A.kernel n) k t) ∧ G.Emptied F A kernel n
  /-- The lookaheads of a state that is not unfinished have been passed on. -/
  passed : n ∉ A.unfinished → (∀ x, G.PassedOn F A (A.kernel n) n x) ∧ G.Emptied F A (A.kernel n) n

/-- The invariant of a run of `lr` between the visits of two states. -/
structure LrInv : Prop extends Base G F A where
  /-- Every state is right. -/
  states : ∀ n < A.nstates, G.StateOk F A n

/-- What holds in the middle of the visit of the state `cur`, when `kernel` was its kernel at the
start and the transitions on the symbols of `D` have been made. -/
structure Visiting (cur : ℕ) (kernel : List Item) (D : List ℕ) : Prop extends Base G F A where
  /-- The state that is visited is a state. -/
  cur_lt : cur < A.nstates
  /-- Every other state is right. -/
  others : ∀ n < A.nstates, n ≠ cur → G.StateOk F A n
  /-- The kernel had the same items. -/
  core : kernel.map Item.core = A.cores cur
  /-- The kernel may have got more lookaheads. -/
  slot : ∀ k t, Slot kernel k t → Slot (A.kernel cur) k t
  /-- If it has, the state has become unfinished again. -/
  kept : cur ∉ A.unfinished → A.kernel cur = kernel
  /-- The items of empty productions have been stored. -/
  emptied : G.Emptied F A kernel cur
  /-- The transitions that have been made. -/
  linked : ∀ x ∈ D, G.Linked A cur x ∧ G.PassedOn F A kernel cur x
  /-- The transitions that have not been made. -/
  unlinked : ∀ x ∉ D, (A.state cur).closed = false → A.targets cur x = []
  /-- The transitions of a former visit. -/
  relinked : (A.state cur).closed = true → ∀ x, G.Linked A cur x


/-! ## A transition keeps the invariant -/

variable {G F A}

section Transition

variable {cur x next : ℕ} {kernel items : List Item} {D : List ℕ}

/-- A state of an automaton that has grown has the transitions of its closure if it had them. -/
lemma Linked.of_moved (hM : A.Moved A' cur x items next) {n y : ℕ} (hn : n < A.nstates)
    (htargets : A'.targets n y = A.targets n y) (h : G.Linked A n y) : G.Linked A' n y := by
  unfold Linked
  rw [hM.cores n hn, htargets]
  refine ⟨h.1, ?_⟩
  intro hne
  obtain ⟨n', hn', ht, hc⟩ := h.2 hne
  exact ⟨n', hn'.trans_le hM.nstates_le, ht, by rw [hM.cores n' hn', hc]⟩

/-- Lookaheads that have been passed on are still there when another state has been moved. -/
lemma PassedOn.of_moved (hM : A.Moved A' cur x items next) {n y : ℕ} (hn : n < A.nstates)
    (htargets : A'.targets n y = A.targets n y) (h : G.PassedOn F A kernel n y) :
    G.PassedOn F A' kernel n y := by
  intro n' hn' k o t ho ht
  rw [htargets] at hn'
  rw [hM.cores n hn] at ho
  exact (hM.slot n' k t).mpr (Or.inl (h n' hn' k o t ho ht))

/-- Nothing happens to the items of empty productions. -/
lemma Emptied.of_moved (hM : A.Moved A' cur x items next) {n : ℕ} (hn : n < A.nstates)
    (h : G.Emptied F A kernel n) : G.Emptied F A' kernel n := by
  refine ⟨?_, ?_⟩
  · rw [hM.epsilonItems, hM.cores n hn]
    exact h.core
  · rw [hM.epsilonItems, hM.cores n hn]
    exact h.slot

/-- A transition from the current state leaves the other states in order. -/
lemma StateOk.of_moved (hM : A.Moved A' cur x items next) (hA : G.Base F A)
    (hothers : ∀ n < A.nstates, n ≠ cur → G.StateOk F A n) {n : ℕ} (hn : n < A'.nstates)
    (hne : n ≠ cur) : G.StateOk F A' n := by
  have htargets : ∀ y, A'.targets n y = A.targets n y := by
    intro y
    rw [hM.targets, if_neg fun h => hne h.1]
  by_cases hlt : n < A.nstates
  · have h := hothers n hlt hne
    refine ⟨?_, ?_, ?_, ?_⟩
    · intro hclosed
      rw [hM.closed] at hclosed
      obtain ⟨hunf, heps, hnil⟩ := h.unclosed hclosed
      refine ⟨?_, by rw [hM.epsilonItems, heps], fun y => by rw [htargets, hnil]⟩
      by_contra hnot
      exact (hM.kept n hn hnot).2.1 hunf
    · intro hclosed y
      rw [hM.closed] at hclosed
      exact (h.linked hclosed y).of_moved hM hlt (htargets y)
    · intro hclosed
      rw [hM.closed] at hclosed
      obtain ⟨kernel, hcore, hslot, hempty⟩ := h.emptied hclosed
      refine ⟨kernel, by rw [hcore, hM.cores n hlt], ?_, hempty.of_moved hM hlt⟩
      intro k t hk
      exact (hM.slot n k t).mpr (Or.inl (hslot k t hk))
    · intro hnot
      obtain ⟨-, hnot', hkernel⟩ := hM.kept n hn hnot
      obtain ⟨hpassed, hempty⟩ := h.passed hnot'
      rw [hkernel]
      exact ⟨fun y => (hpassed y).of_moved hM hlt (htargets y), hempty.of_moved hM hlt⟩
  · -- the state is new
    have hge := Nat.le_of_not_lt hlt
    have hunf : n ∈ A'.unfinished := by
      by_contra hnot
      exact hlt (hM.kept n hn hnot).1
    have hopen : (A'.state n).closed ≠ true := by
      rw [hM.closed, hA.fresh n hge]
      decide
    refine ⟨?_, fun hclosed => absurd hclosed hopen, fun hclosed => absurd hclosed hopen,
      fun hnot => absurd hunf hnot⟩
    intro _
    refine ⟨hunf, ?_, fun y => by rw [htargets, hA.freshTargets n hge]⟩
    rw [hM.epsilonItems, hA.fresh n hge]
    rfl

/-- The transition that has been made leads to the next state, and only there. -/
lemma Visiting.targets_eq (hV : G.Visiting F A cur kernel D) (hmove : G.Moving F kernel (x, items))
    (hx : x ∉ D) (hM : A.Moved A' cur x items next) : A'.targets cur x = [(next : ℤ)] := by
  rw [hM.targets]
  cases hclosed : (A.state cur).closed with
  | false => rw [if_pos ⟨rfl, rfl, rfl⟩, hV.unlinked x hx hclosed]
  | true =>
    rw [if_neg fun h => Bool.noConfusion h.2.2]
    have hne := hmove.ne_nil
    rw [hV.core] at hne
    obtain ⟨n', hn', htargets, hcores⟩ := (hV.relinked hclosed x).2 hne
    have hitems : A.cores n' = items.map Item.core := by
      rw [hcores, ← hV.core]
      exact hmove.core.symm
    have hnext : next < A.nstates := by
      by_contra hge
      exact hM.distinct (Nat.le_of_not_lt hge) n' hn' hitems
    have heq : n' = next := by
      apply hV.distinct n' hn' next hnext
      rw [hitems, ← hM.cores next hnext, hM.next_cores]
    rw [htargets, heq]

/-- A transition appends a state only when no state has its kernel. -/
lemma Visiting.distinct_moved (hV : G.Visiting F A cur kernel D)
    (hM : A.Moved A' cur x items next) :
    ∀ m < A'.nstates, ∀ n < A'.nstates, A'.cores m = A'.cores n → m = n := by
  have hnew : ∀ m < A.nstates, ∀ n < A'.nstates, ¬ n < A.nstates → A'.cores m ≠ A'.cores n := by
    intro m hm n hn hge
    obtain rfl := (hM.lt_or_eq n hn).resolve_left hge
    rw [hM.cores m hm, hM.next_cores]
    exact hM.distinct (Nat.le_of_not_lt hge) m hm
  intro m hm n hn h
  by_cases hm' : m < A.nstates
  · by_cases hn' : n < A.nstates
    · rw [hM.cores m hm', hM.cores n hn'] at h
      exact hV.distinct m hm' n hn' h
    · exact absurd h (hnew m hm' n hn hn')
  · by_cases hn' : n < A.nstates
    · exact absurd h.symm (hnew n hn' m hm hm')
    · rw [(hM.lt_or_eq m hm).resolve_left hm', (hM.lt_or_eq n hn).resolve_left hn']

/-- The lookaheads that a transition stores belong to the family. -/
lemma Visiting.sound_moved (hV : G.Visiting F A cur kernel D)
    (hmove : G.Moving F kernel (x, items)) (hx : x ∉ D) (hM : A.Moved A' cur x items next) :
    ∀ m < A'.nstates, ∀ k c t, (A'.cores m)[k]? = some c → Slot (A'.kernel m) k t →
      G.Look F A' m (.kern k c) t := by
  have hcores := hM.cores
  have hmono : ∀ n t o, G.Look F A n o t → G.Look F A' n o t := by
    intro n t o
    apply Look.mono hM.nstates_le hcores
    intro m y n' hn'
    rw [hM.targets]
    split
    · exact List.mem_cons_of_mem _ hn'
    · exact hn'
  have hcur := hV.cur_lt
  intro m hm k c t hc hslot
  rcases (hM.slot m k t).mp hslot with hslot | ⟨rfl, hslot⟩
  · by_cases hm' : m < A.nstates
    · rw [hcores m hm'] at hc
      exact hmono _ _ _ (hV.sound m hm' k c t hc hslot)
    · rw [Automaton.kernel, hV.fresh m (Nat.le_of_not_lt hm')] at hslot
      obtain ⟨i, hi, -⟩ := hslot
      cases hi
  · obtain ⟨o, ho, ht⟩ := (hmove.slot k t).mp hslot
    rw [hM.next_cores, hmove.core, List.getElem?_map, ho] at hc
    cases hc
    have hlook : G.Look F A' cur o t := by
      apply look_of_occLook (hcur.trans_le hM.nstates_le) (by rw [hcores cur hcur, hV.core]) _ ht
      intro k c t hc hk
      rw [hcores cur hcur] at hc
      exact hmono _ _ _ (hV.sound cur hcur k c t hc (hV.slot k t hk))
    apply Look.shift (x := x) (hcur.trans_le hM.nstates_le) hlook
    · rw [hcores cur hcur, ← hV.core]
      exact ho
    · rw [hV.targets_eq hmove hx hM]
      exact List.mem_singleton_self _

/-- A transition keeps the general part of the invariant. -/
lemma Visiting.base (hV : G.Visiting F A cur kernel D) (hmove : G.Moving F kernel (x, items))
    (hx : x ∉ D) (hM : A.Moved A' cur x items next) : G.Base F A' := by
  have hcores := hM.cores
  have hcur := hV.cur_lt
  refine ⟨hV.pos.trans_le hM.nstates_le, ?_, ?_, ?_, ?_, ?_, ?_, ?_, ?_, ?_, ?_⟩
  · obtain ⟨p, hp, hc⟩ := hV.start
    exact ⟨p, hp, by rw [hcores 0 hV.pos, hc]⟩
  · exact (hM.slot 0 0 eoi).mpr (Or.inl hV.startLook)
  · intro m c hc
    by_cases hm : m < A.nstates
    · rw [hcores m hm] at hc
      exact hV.prods m c hc
    · by_cases hm' : m < A'.nstates
      · obtain rfl := (hM.lt_or_eq m hm').resolve_left hm
        rw [hM.next_cores, hmove.core] at hc
        obtain ⟨o, ho, rfl⟩ := List.mem_map.mp hc
        rw [hV.core] at ho
        exact prod_mem_of_mem_occs (hV.prods cur) (mem_dotBefore.mp ho).1
      · rw [Automaton.cores, Automaton.kernel, hM.fresh m (Nat.le_of_not_lt hm'),
          hV.fresh m (Nat.le_of_not_lt hm)] at hc
        cases hc
  · exact hV.distinct_moved hM
  · intro m hm
    rw [hM.fresh m hm]
    exact hV.fresh m (hM.nstates_le.trans hm)
  · intro m hm y
    have hmcur : m ≠ cur := by
      have hle := hM.nstates_le
      omega
    rw [hM.targets, if_neg fun h => hmcur h.1]
    exact hV.freshTargets m (hM.nstates_le.trans hm) y
  · intro m hm hne
    by_cases hm' : m < A.nstates
    · obtain ⟨n, hn, y, hy⟩ := hV.appended m hm' hne
      refine ⟨n, hn, y, ?_⟩
      rw [hM.targets]
      split
      · exact List.mem_cons_of_mem _ hy
      · exact hy
    · obtain rfl := (hM.lt_or_eq m hm).resolve_left hm'
      refine ⟨cur, by omega, x, ?_⟩
      rw [hV.targets_eq hmove hx hM]
      exact List.mem_singleton_self _
  · intro m hm
    cases Finset.mem_insert.mp (hM.unfinished_subset hm) with
    | inl he => exact he ▸ hM.next_lt
    | inr hm => exact (hV.unfinished m hm).trans_le hM.nstates_le
  · intro m a ha
    exact (hM.actions m a ha).elim (hV.actions m a) id
  · exact hV.sound_moved hmove hx hM

/-- A transition keeps what holds in the middle of a visit. -/
lemma Visiting.transition (hV : G.Visiting F A cur kernel D)
    (hmove : G.Moving F kernel (x, items)) (hx : x ∉ D) (hM : A.Moved A' cur x items next) :
    G.Visiting F A' cur kernel (x :: D) := by
  have hcur := hV.cur_lt
  have hcur' := hcur.trans_le hM.nstates_le
  have heq := hV.targets_eq hmove hx hM
  have hcores := hM.cores cur hcur
  have htargets : ∀ y, y ≠ x → A'.targets cur y = A.targets cur y := by
    intro y hy
    rw [hM.targets, if_neg fun h => hy h.2.1]
  have hnext : A'.cores next = (G.dotBefore (A'.cores cur) x).map fun o => advance o.core := by
    rw [hM.next_cores, hcores, ← hV.core]
    exact hmove.core
  refine ⟨hV.base hmove hx hM, hcur', ?_, by rw [hcores, hV.core], ?_, ?_,
    hV.emptied.of_moved hM hcur, ?_, ?_, ?_⟩
  · intro n hn hne
    exact StateOk.of_moved hM hV.toBase hV.others hn hne
  · intro k t hk
    exact (hM.slot cur k t).mpr (Or.inl (hV.slot k t hk))
  · intro hnot
    obtain ⟨-, hnot', hkernel⟩ := hM.kept cur hcur' hnot
    rw [hkernel, hV.kept hnot']
  · intro y hy
    by_cases hyx : y = x
    · subst hyx
      refine ⟨⟨?_, fun _ => ⟨next, hM.next_lt, heq, hnext⟩⟩, ?_⟩
      · intro hnil
        rw [hcores, ← hV.core] at hnil
        exact absurd hnil hmove.ne_nil
      · intro n' hn' k o t ho ht
        rw [heq, List.mem_singleton, Nat.cast_inj] at hn'
        rw [hcores, ← hV.core] at ho
        subst hn'
        exact (hM.slot n' k t).mpr (Or.inr ⟨rfl, (hmove.slot k t).mpr ⟨o, ho, ht⟩⟩)
    · obtain ⟨hlinked, hpassed⟩ := hV.linked y ((List.mem_cons.mp hy).resolve_left hyx)
      exact ⟨hlinked.of_moved hM hcur (htargets y hyx), hpassed.of_moved hM hcur (htargets y hyx)⟩
  · intro y hy hclosed
    rw [List.mem_cons, not_or] at hy
    rw [hM.closed] at hclosed
    rw [htargets y hy.1, hV.unlinked y hy.2 hclosed]
  · intro hclosed y
    rw [hM.closed] at hclosed
    apply (hV.relinked hclosed y).of_moved hM hcur
    rw [hM.targets, if_neg]
    rw [hclosed]
    exact fun h => Bool.noConfusion h.2.2

end Transition

/-! ## A visit keeps the invariant -/

section Same

/-- `A'` has the states, the kernels and the transitions of `A`. -/
structure Same (A A' : Automaton) : Prop where
  /-- The number of states is the same. -/
  nstates : A'.nstates = A.nstates
  /-- The kernels of the states are the same. -/
  kernel : ∀ m, A'.kernel m = A.kernel m
  /-- The transitions of the states are the same. -/
  targets : ∀ m x, A'.targets m x = A.targets m x
  /-- The chains of actions are the same. -/
  actions : ∀ m, A'.actions m = A.actions m

variable {kernel : List Item} {n x : ℕ}

/-- The kernels without lookaheads are the same. -/
lemma Same.cores (h : Same A A') (m : ℕ) : A'.cores m = A.cores m := by
  rw [Automaton.cores, Automaton.cores, h.kernel]

/-- The transitions of a state in the same automaton lead where they led before. -/
lemma Same.linked (h : Same A A') (hl : G.Linked A n x) : G.Linked A' n x := by
  unfold Linked
  simp only [h.cores, h.targets, h.nstates]
  exact hl

/-- The lookaheads that have been passed on in the same automaton are still passed on. -/
lemma Same.passedOn (h : Same A A') (hp : G.PassedOn F A kernel n x) :
    G.PassedOn F A' kernel n x := by
  unfold PassedOn
  simp only [h.cores, h.targets, h.kernel]
  exact hp

/-- The items of empty productions are those of the closure. -/
lemma Same.emptied (h : Same A A') (heps : (A'.state n).epsilonItems = (A.state n).epsilonItems)
    (he : G.Emptied F A kernel n) : G.Emptied F A' kernel n := by
  refine ⟨?_, ?_⟩
  · rw [heps, h.cores]
    exact he.core
  · rw [heps, h.cores]
    exact he.slot

/-- The general part of the invariant carries over to the same automaton. -/
lemma Same.base (h : Same A A') (hfresh : ∀ m, A.nstates ≤ m → A'.state m = A.state m)
    (hunf : A'.unfinished ⊆ A.unfinished) (hA : G.Base F A) : G.Base F A' := by
  have hmono : ∀ n o t, G.Look F A n o t → G.Look F A' n o t := by
    intro n o t
    apply Look.mono h.nstates.ge fun m _ => h.cores m
    intro m x n' hn'
    rw [h.targets]
    exact hn'
  refine ⟨?_, ?_, ?_, ?_, ?_, ?_, ?_, ?_, ?_, ?_, ?_⟩
  · rw [h.nstates]
    exact hA.pos
  · simp only [h.cores]
    exact hA.start
  · rw [h.kernel]
    exact hA.startLook
  · simp only [h.cores]
    exact hA.prods
  · simp only [h.cores, h.nstates]
    exact hA.distinct
  · intro m hm
    rw [h.nstates] at hm
    rw [hfresh m hm, hA.fresh m hm]
  · simp only [h.targets, h.nstates]
    exact hA.freshTargets
  · simp only [h.targets, h.nstates]
    exact hA.appended
  · intro m hm
    rw [h.nstates]
    exact hA.unfinished m (hunf hm)
  · simp only [h.actions]
    exact hA.actions
  · intro m hm k c t hc hk
    rw [h.nstates] at hm
    rw [h.cores] at hc
    rw [h.kernel] at hk
    exact hmono _ _ _ (hA.sound m hm k c t hc hk)

/-- A state that is the same, and unfinished as before. -/
lemma Same.stateOk (h : Same A A') (hstate : A'.state n = A.state n)
    (hunf : n ∈ A'.unfinished ↔ n ∈ A.unfinished) (hA : G.StateOk F A n) : G.StateOk F A' n := by
  refine ⟨?_, ?_, ?_, ?_⟩
  · simp only [hstate, hunf, h.targets]
    exact hA.unclosed
  · intro hclosed y
    rw [hstate] at hclosed
    exact h.linked (hA.linked hclosed y)
  · intro hclosed
    rw [hstate] at hclosed
    obtain ⟨kernel, hcore, hslot, hempty⟩ := hA.emptied hclosed
    refine ⟨kernel, by rw [hcore, h.cores], ?_, h.emptied (by rw [hstate]) hempty⟩
    rw [h.kernel]
    exact hslot
  · intro hnot
    rw [hunf] at hnot
    obtain ⟨hpassed, hempty⟩ := hA.passed hnot
    rw [h.kernel]
    exact ⟨fun y => h.passedOn (hpassed y), h.emptied (by rw [hstate]) hempty⟩

end Same

section Visit

variable {cur : ℕ} {kernel eps : List Item} {D : List ℕ}

/-- The start of a visit: the state is no longer unfinished, and the items of empty productions are
stored. -/
lemma LrInv.visiting (hA : G.LrInv F A) (hcur : cur < A.nstates)
    (hcore : eps.map Item.core = (G.emptyOccs (A.cores cur)).map Occ.core)
    (hslot : ∀ k t, Slot eps k t ↔
      ∃ o, (G.emptyOccs (A.cores cur))[k]? = some o ∧ G.OccLook F (A.kernel cur) o t) :
    G.Visiting F (Automaton.setEpsilon { A with unfinished := A.unfinished.erase cur } cur eps) cur
      (A.kernel cur) [] := by
  have hne : ∀ m, m ≠ cur →
      (Automaton.setEpsilon { A with unfinished := A.unfinished.erase cur } cur eps).state m =
        A.state m := fun m hm => Function.update_of_ne hm _ _
  have hself : (Automaton.setEpsilon { A with unfinished := A.unfinished.erase cur } cur eps).state
      cur = { A.state cur with epsilonItems := eps } := Function.update_self _ _ _
  have hsame : Same A
      (Automaton.setEpsilon { A with unfinished := A.unfinished.erase cur } cur eps) := by
    refine ⟨rfl, ?_, fun _ _ => rfl, fun _ => rfl⟩
    intro m
    by_cases hm : m = cur
    · rw [hm, Automaton.kernel, hself, Automaton.kernel]
    · rw [Automaton.kernel, hne m hm, Automaton.kernel]
  have hA' := hA.states cur hcur
  refine ⟨?_, hcur, ?_, (hsame.cores cur).symm, ?_, fun _ => hsame.kernel cur, ?_, ?_, ?_, ?_⟩
  · apply hsame.base _ (Finset.erase_subset _ _) hA.toBase
    intro m hm
    exact hne m (by omega)
  · intro n hn hncur
    apply hsame.stateOk (hne n hncur) _ (hA.states n hn)
    change n ∈ A.unfinished.erase cur ↔ _
    rw [Finset.mem_erase]
    exact and_iff_right hncur
  · intro k t hk
    rwa [hsame.kernel]
  · refine ⟨?_, ?_⟩
    · rw [hself, hsame.cores]
      exact hcore
    · rw [hself, hsame.cores]
      exact hslot
  · intro x hx
    cases hx
  · intro x _ hclosed
    rw [hself] at hclosed
    exact (hA'.unclosed hclosed).2.2 x
  · intro hclosed x
    rw [hself] at hclosed
    exact hsame.linked (hA'.linked hclosed x)

/-- The loop over the groups of the closure visits each symbol and keeps the invariant. -/
lemma Visiting.foldlM {gs : List (ℕ × List Item)} (hV : G.Visiting F A cur kernel D)
    (hmove : ∀ g ∈ gs, G.Moving F kernel g) (hnodup : (gs.map Prod.fst).Nodup)
    (hD : ∀ x ∈ gs.map Prod.fst, x ∉ D)
    (h : gs.foldlM (fun B g => Automaton.transition B cur g.1 g.2) A = some A') :
    ∃ D', (∀ x ∈ gs.map Prod.fst, x ∈ D') ∧ D ⊆ D' ∧ G.Visiting F A' cur kernel D' := by
  induction gs generalizing A D with
  | nil =>
    cases h
    exact ⟨D, ⟨List.forall_mem_nil _, List.Subset.refl D, hV⟩⟩
  | cons g gs ih =>
    obtain ⟨x, items⟩ := g
    rw [List.foldlM_cons, Option.bind_eq_bind, Option.bind_eq_some_iff] at h
    obtain ⟨A₁, htrans, h⟩ := h
    rw [List.map_cons, List.nodup_cons] at hnodup
    rw [List.map_cons, List.forall_mem_cons] at hD
    have hg := hmove _ List.mem_cons_self
    have hbefore : ∀ o ∈ G.dotBefore (kernel.map Item.core) x, o.core.1 ∈ G.prods := by
      intro o ho
      rw [hV.core] at ho
      exact prod_mem_of_mem_occs (hV.prods cur) (mem_dotBefore.mp ho).1
    have hitems : ∀ c ∈ items.map Item.core, c.1 ∈ G.prods := by
      intro c hc
      rw [hg.core] at hc
      obtain ⟨o, ho, rfl⟩ := List.mem_map.mp hc
      exact hbefore o ho
    have hsym : IsTerm x ∨ minNonterm ≤ x := by
      obtain ⟨o, ho⟩ := List.exists_mem_of_ne_nil _ hg.ne_nil
      rcases rhs_cases (hbefore o ho) (List.mem_of_getElem? (mem_dotBefore.mp ho).2) with
        hx | hx | hx
      · exact Or.inl hx.1
      · exact Or.inr hx.1
      · exact Or.inr (le_trans (by decide) hx)
    obtain ⟨next, hM⟩ := Automaton.transition_spec hV.cur_lt hV.fresh hV.prods hitems hsym htrans
    have hV₁ := hV.transition hg hD.1 hM
    have hD₁ : ∀ y ∈ gs.map Prod.fst, y ∉ x :: D := by
      intro y hy hyD
      cases List.mem_cons.mp hyD with
      | inl he => exact hnodup.1 (he ▸ hy)
      | inr hyD => exact hD.2 y hy hyD
    obtain ⟨D', hD', hsub, hV'⟩ :=
      ih hV₁ (fun g hg => hmove g (List.mem_cons_of_mem _ hg)) hnodup.2 hD₁ h
    refine ⟨D', ?_, fun y hy => hsub (List.mem_cons_of_mem x hy), hV'⟩
    rw [List.map_cons, List.forall_mem_cons]
    exact ⟨hsub List.mem_cons_self, hD'⟩

/-- The end of a visit, when the transitions on all symbols right of a dot have been made. -/
lemma Visiting.lrInv (hV : G.Visiting F A cur kernel D)
    (hD : ∀ x, G.dotBefore (kernel.map Item.core) x ≠ [] → x ∈ D) :
    G.LrInv F (A.setClosed cur) := by
  have hcur := hV.cur_lt
  have hne : ∀ m, m ≠ cur → (A.setClosed cur).state m = A.state m :=
    fun m hm => Function.update_of_ne hm _ _
  have hself : (A.setClosed cur).state cur = { A.state cur with closed := true } :=
    Function.update_self _ _ _
  have hsame : Same A (A.setClosed cur) := by
    refine ⟨rfl, ?_, fun _ _ => rfl, fun _ => rfl⟩
    intro m
    by_cases hm : m = cur
    · rw [hm, Automaton.kernel, hself, Automaton.kernel]
    · rw [Automaton.kernel, hne m hm, Automaton.kernel]
  rw [hV.core] at hD
  have hlinked : ∀ x, G.Linked A cur x := by
    intro x
    by_cases hx : x ∈ D
    · exact (hV.linked x hx).1
    · have hnil : G.dotBefore (A.cores cur) x = [] := by
        by_contra hnil
        exact hx (hD x hnil)
      cases hclosed : (A.state cur).closed with
      | true => exact hV.relinked hclosed x
      | false => exact ⟨fun _ => hV.unlinked x hx hclosed, fun h => absurd hnil h⟩
  refine ⟨?_, ?_⟩
  · apply hsame.base _ (Finset.Subset.refl _) hV.toBase
    intro m hm
    exact hne m (by omega)
  · intro n hn
    by_cases hncur : n = cur
    · subst hncur
      refine ⟨?_, fun _ x => hsame.linked (hlinked x), ?_, ?_⟩
      · intro hclosed
        rw [hself] at hclosed
        cases hclosed
      · intro _
        refine ⟨kernel, by rw [hV.core, hsame.cores], ?_, hsame.emptied (by rw [hself]) hV.emptied⟩
        rw [hsame.kernel]
        exact hV.slot
      · intro hnot
        have hkernel := hV.kept hnot
        rw [hsame.kernel, hkernel]
        refine ⟨?_, hsame.emptied (by rw [hself]) hV.emptied⟩
        intro x
        by_cases hx : x ∈ D
        · exact hsame.passedOn (hV.linked x hx).2
        · intro n' _ k o t ho
          have hnil : G.dotBefore (A.cores n) x = [] := by
            by_contra hnil
            exact hx (hD x hnil)
          rw [hsame.cores, hnil] at ho
          cases ho
    · exact hsame.stateOk (hne n hncur) Iff.rfl (hV.others n hn hncur)

/-- A turn of the loop of `lr` keeps the invariant. -/
lemma LrInv.step (hA : G.LrInv F A) (h : G.LrStep F A A') : G.LrInv F A' := by
  cases h with
  | @visit cur fuel hcur h =>
    have hlt := hA.unfinished cur hcur
    have hstate := hA.states cur hlt
    -- the items of empty productions of the last visit
    have hold : (A.state cur).epsilonItems = [] ∨ (A.state cur).epsilonItems.map Item.core =
        (G.emptyOccs (A.cores cur)).map Occ.core := by
      cases hclosed : (A.state cur).closed with
      | false => exact Or.inl (hstate.unclosed hclosed).2.1
      | true =>
        obtain ⟨kernel, -, -, hempty⟩ := hstate.emptied hclosed
        exact Or.inr hempty.core
    have hsub : ∀ k t, Slot (A.state cur).epsilonItems k t →
        ∃ o, (G.emptyOccs (A.cores cur))[k]? = some o ∧ G.OccLook F (A.kernel cur) o t := by
      intro k t hk
      cases hclosed : (A.state cur).closed with
      | false =>
        rw [(hstate.unclosed hclosed).2.1] at hk
        obtain ⟨i, hi, -⟩ := hk
        cases hi
      | true =>
        obtain ⟨kernel, hcore, hslot, hempty⟩ := hstate.emptied hclosed
        obtain ⟨o, ho, ht⟩ := (hempty.slot k t).mp hk
        exact ⟨o, ho, ht.mono hcore.symm hslot⟩
    obtain ⟨eps, gs, A₁, hcore, hslot, hmove, hnodup, hall, hfold, rfl⟩ :=
      visit_spec h (hA.prods cur) hold
    have hslot' : ∀ k t, Slot eps k t ↔
        ∃ o, (G.emptyOccs (A.cores cur))[k]? = some o ∧ G.OccLook F (A.kernel cur) o t := by
      intro k t
      rw [hslot]
      exact or_iff_right_of_imp (hsub k t)
    obtain ⟨D, hD, -, hV⟩ := (hA.visiting hlt hcore hslot').foldlM hmove hnodup
      (fun x _ hx => by cases hx) hfold
    exact hV.lrInv fun x hx => hD x (hall x hx)

end Visit

/-! ## Runs -/

/-- What `lr` starts with: one unfinished state, whose kernel is the start item with the lookahead
`_EOI_`, and no transitions. -/
lemma startState_spec (h : G.startState = some A) : ∃ p, G.productions G.goalSymbol = [p] ∧
    A.nstates = 1 ∧ A.unfinished = {0} ∧ A.state 0 = ⟨[⟨p, 0, {eoi}⟩], [], false⟩ ∧
    (∀ m, 1 ≤ m → A.state m = .none) ∧ (∀ m x, A.targets m x = []) ∧ ∀ m, A.actions m = [] := by
  unfold startState at h
  split at h
  swap
  · cases h
  rename_i p hp
  obtain rfl : A = { Automaton.empty.addState [⟨p, 0, {eoi}⟩] with unfinished := {0} } := by
    have hnew : Automaton.empty.newstate [⟨p, 0, {eoi}⟩] =
        some (Automaton.empty.addState [⟨p, 0, {eoi}⟩], 0, .new) := rfl
    rw [hnew] at h
    exact Automaton.addUnfinished_eq h
  refine ⟨p, hp, rfl, rfl, Function.update_self 0 _ Automaton.empty.state, ?_, ?_, fun m => rfl⟩
  · intro m hm
    exact Function.update_of_ne (Nat.one_le_iff_ne_zero.mp hm) _ Automaton.empty.state
  · intro m x
    rw [Automaton.targets]
    split <;> rfl

/-- The invariant holds at the start of `lr`. -/
lemma lrInv_startState (h : G.startState = some A) : G.LrInv F A := by
  obtain ⟨p, hp, hn, hunf, hzero, hne, htargets, hactions⟩ := startState_spec h
  have hprod : p ∈ G.prods := by
    have hmem : p ∈ G.productions G.goalSymbol := by
      rw [hp]
      exact List.mem_singleton_self p
    exact (mem_productions.mp hmem).1
  have hcores : ∀ m, 1 ≤ m → A.cores m = [] := by
    intro m hm
    rw [Automaton.cores, Automaton.kernel, hne m hm]
    rfl
  have hcores0 : A.cores 0 = [(p, 0)] := by
    rw [Automaton.cores, Automaton.kernel, hzero]
    rfl
  have hslot : ∀ k t, Slot (A.kernel 0) k t → k = 0 ∧ t = eoi := by
    rintro k t ⟨i, hi, ht⟩
    rw [Automaton.kernel, hzero, List.getElem?_singleton] at hi
    split at hi
    · rename_i hk
      cases hi
      exact ⟨hk, Finset.mem_singleton.mp ht⟩
    · cases hi
  have hpos : 0 < A.nstates := by omega
  refine ⟨⟨hpos, ⟨p, hp, hcores0⟩, ?_, ?_, ?_, ?_, fun m _ x => htargets m x,
    fun m hm hne => ?_, ?_, ?_, ?_⟩, ?_⟩
  · rw [Automaton.kernel, hzero]
    exact ⟨_, rfl, Finset.mem_singleton_self _⟩
  · intro m c hc
    cases m with
    | zero =>
      rw [hcores0, List.mem_singleton] at hc
      rw [hc]
      exact hprod
    | succ m =>
      rw [hcores (m + 1) (Nat.succ_pos m)] at hc
      cases hc
  · intro m hm n hn' _
    omega
  · intro m hm
    exact hne m (by omega)
  · exact absurd (by omega) hne
  · intro m hm
    rw [hunf, Finset.mem_singleton] at hm
    omega
  · intro m a ha
    rw [hactions m] at ha
    cases ha
  · intro m hm k c t hc hk
    obtain rfl : m = 0 := by omega
    obtain ⟨rfl, rfl⟩ := hslot k t hk
    rw [hcores0] at hc
    cases hc
    apply Look.start
    rw [hp]
    exact List.mem_singleton_self p
  · intro n hn'
    obtain rfl : n = 0 := by omega
    have hmem : 0 ∈ A.unfinished := by
      rw [hunf]
      exact Finset.mem_singleton_self 0
    have hopen : (A.state 0).closed ≠ true := by
      rw [hzero]
      exact Bool.false_ne_true
    refine ⟨fun _ => ⟨hmem, by rw [hzero], htargets 0⟩, fun hc => absurd hc hopen,
      fun hc => absurd hc hopen, fun hnot => absurd hmem hnot⟩

/-- The invariant holds in every run, whatever the order in which the states are taken. -/
theorem LrRun.lrInv (h : G.LrRun F A) : G.LrInv F A := by
  obtain ⟨A₀, hstart, hsteps⟩ := h
  induction hsteps with
  | refl => exact lrInv_startState hstart
  | tail _ hstep ih => exact ih.step hstep

/-! ## The finished automaton -/

variable (G F A)

/-- The LALR(1) automaton of a grammar, with its transitions and lookaheads. -/
structure LalrAutomaton : Prop where
  /-- For each symbol right of a dot in the closure of its kernel a state has exactly one entry: an
  action for a terminal, a goto for a nonterminal.  The kernel of the next state consists of the
  items with the dot moved. -/
  transition : ∀ n < A.nstates, ∀ x, (∃ c, G.InClosure (A.cores n) c ∧ rightOfDot c = some x) →
    ∃ n' < A.nstates, A.targets n x = [(n' : ℤ)] ∧
      A.cores n' = (G.dotBefore (A.cores n) x).map (fun o => advance o.core) ∧
      ∀ d, d ∈ A.cores n' ↔
        ∃ c, G.InClosure (A.cores n) c ∧ rightOfDot c = some x ∧ advance c = d
  /-- There is no entry for another symbol. -/
  no_transition : ∀ n < A.nstates, ∀ x,
    (¬ ∃ c, G.InClosure (A.cores n) c ∧ rightOfDot c = some x) → A.targets n x = []
  /-- The chains of actions have entries for terminals. -/
  actions_term : ∀ n, ∀ a ∈ A.actions n, IsTerm a.sym
  /-- No two states have the same kernel. -/
  distinct : ∀ m < A.nstates, ∀ n < A.nstates, A.cores m = A.cores n → m = n
  /-- The items of empty productions are those of the closure. -/
  empties : ∀ n < A.nstates, ∀ c, c ∈ (A.state n).epsilonItems.map Item.core ↔
    ∃ p, c = (p, 0) ∧ p ∈ G.closureProds (A.cores n) ∧ p.rhs = []
  /-- The lookaheads of the items are those of the least family. -/
  lookaheads : ∃ Λ, IsLeast {Λ | G.LookFamily F A Λ} Λ ∧ ∀ n < A.nstates,
    (∀ k i, (A.state n).kernelItems[k]? = some i →
      ∀ t, t ∈ i.lookaheads ↔ Λ n (.kern k i.core) t) ∧
    ∀ i ∈ (A.state n).epsilonItems, ∀ t, t ∈ i.lookaheads ↔ Λ n (.clos i.prod) t

variable {G F A}

/-- When no state is unfinished, every state has been visited. -/
lemma LrInv.closed (h : G.LrInv F A) (hend : A.unfinished = ∅) {n : ℕ} (hn : n < A.nstates) :
    (A.state n).closed = true := by
  cases hclosed : (A.state n).closed with
  | true => rfl
  | false =>
    have hmem := ((h.states n hn).unclosed hclosed).1
    rw [hend] at hmem
    exact absurd hmem (Finset.notMem_empty n)

/-- When no state is unfinished, the lookaheads are those of the family. -/
lemma LrInv.occLook_iff (h : G.LrInv F A) (hend : A.unfinished = ∅) {n : ℕ} (hn : n < A.nstates)
    {o : Occ} {t : ℕ} : G.OccLook F (A.kernel n) o t ↔ G.Look F A n o t := by
  constructor
  · exact look_of_occLook hn rfl (h.sound n hn)
  · intro hlook
    induction hlook with
    | start hp =>
      obtain ⟨p, hp', hcores⟩ := h.start
      rw [hp', List.mem_singleton] at hp
      subst hp
      rw [occLook_kern]
      refine ⟨?_, h.startLook⟩
      change (A.cores 0)[0]? = _
      rw [hcores]
      rfl
    | first _ ho hx hnx hp ht => exact .first ho hx hnx hp ht
    | inherit hm _ hx hnx hp hnull ih => exact .inherit (ih hm) hx hnx hp hnull
    | @shift m n' x k t o hm _ ho hn' ih =>
      have hnot : m ∉ A.unfinished := by
        rw [hend]
        exact Finset.notMem_empty m
      have hslot := ((h.states m hm).passed hnot).1 x n' hn' k o t ho (ih hm)
      have hne : G.dotBefore (A.cores m) x ≠ [] := by
        intro hnil
        rw [hnil] at ho
        cases ho
      obtain ⟨n'', -, htargets, hcores⟩ := ((h.states m hm).linked (h.closed hend hm) x).2 hne
      rw [htargets, List.mem_singleton, Nat.cast_inj] at hn'
      subst hn'
      rw [occLook_kern]
      refine ⟨?_, hslot⟩
      change (A.cores n')[k]? = _
      rw [hcores, List.getElem?_map, ho]
      rfl

/-- A symbol stands right of a dot in the closure if an occurrence has it there. -/
lemma dotBefore_ne_nil_iff {K : List Core} {x : ℕ} :
    G.dotBefore K x ≠ [] ↔ ∃ c, G.InClosure K c ∧ rightOfDot c = some x := by
  constructor
  · intro hne
    obtain ⟨o, ho⟩ := List.exists_mem_of_ne_nil _ hne
    obtain ⟨ho, hx⟩ := mem_dotBefore.mp ho
    exact ⟨o.core, exists_mem_occs.mp ⟨o, ho, rfl, hx⟩⟩
  · rintro ⟨c, hc⟩ hnil
    obtain ⟨o, ho, rfl, hx⟩ := exists_mem_occs.mpr hc
    have hmem := mem_dotBefore.mpr ⟨ho, hx⟩
    rw [hnil] at hmem
    cases hmem

/-- The invariant and no unfinished state make the LALR(1) automaton. -/
lemma LrInv.lalrAutomaton (h : G.LrInv F A) (hend : A.unfinished = ∅) : G.LalrAutomaton F A := by
  have hlinked : ∀ n < A.nstates, ∀ x, G.Linked A n x :=
    fun n hn => (h.states n hn).linked (h.closed hend hn)
  refine ⟨?_, ?_, h.actions, h.distinct, ?_, ?_⟩
  · intro n hn x hx
    obtain ⟨n', hn', htargets, hcores⟩ := (hlinked n hn x).2 (dotBefore_ne_nil_iff.mpr hx)
    refine ⟨n', hn', htargets, hcores, ?_⟩
    intro d
    rw [hcores, List.mem_map]
    constructor
    · rintro ⟨o, ho, rfl⟩
      obtain ⟨ho, hox⟩ := mem_dotBefore.mp ho
      obtain ⟨hc, -⟩ := exists_mem_occs.mp ⟨o, ho, rfl, hox⟩
      exact ⟨o.core, hc, hox, rfl⟩
    · rintro ⟨c, hc, hcx, rfl⟩
      obtain ⟨o, ho, rfl, -⟩ := exists_mem_occs.mpr ⟨hc, hcx⟩
      exact ⟨o, mem_dotBefore.mpr ⟨ho, hcx⟩, rfl⟩
  · intro n hn x hx
    apply (hlinked n hn x).1
    by_contra hne
    exact hx (dotBefore_ne_nil_iff.mp hne)
  · intro n hn c
    have hnot : n ∉ A.unfinished := by
      rw [hend]
      exact Finset.notMem_empty n
    rw [((h.states n hn).passed hnot).2.core, List.mem_map]
    constructor
    · rintro ⟨o, ho, rfl⟩
      obtain ⟨ho, hnone⟩ := mem_emptyOccs.mp ho
      cases o with
      | clos p => exact ⟨p, rfl, clos_mem_occs.mp ho, (rhs_eq_nil_iff ho).mpr hnone⟩
      | kern k c =>
        obtain ⟨x, hx⟩ := Option.isSome_iff_exists.mp (kern_mem_occs.mp ho).2
        exact absurd (hnone.symm.trans hx) (by simp)
    · rintro ⟨p, rfl, hp, hnil⟩
      have ho : Occ.clos p ∈ G.occs (A.cores n) := clos_mem_occs.mpr hp
      exact ⟨.clos p, mem_emptyOccs.mpr ⟨ho, (rhs_eq_nil_iff ho).mp hnil⟩, rfl⟩
  · refine ⟨G.Look F A, look_isLeast G F A, ?_⟩
    intro n hn
    have hnot : n ∉ A.unfinished := by
      rw [hend]
      exact Finset.notMem_empty n
    constructor
    · intro k i hi t
      rw [← h.occLook_iff hend hn, occLook_kern]
      have hcore : ((A.kernel n).map Item.core)[k]? = some i.core := by
        rw [List.getElem?_map, Automaton.kernel, hi]
        rfl
      constructor
      · intro ht
        exact ⟨hcore, i, hi, ht⟩
      · rintro ⟨-, j, hj, ht⟩
        rw [Automaton.kernel, hi] at hj
        cases hj
        exact ht
    · intro i hi t
      obtain ⟨hcore, hslot⟩ := ((h.states n hn).passed hnot).2
      obtain ⟨k, hk⟩ := List.mem_iff_getElem?.mp hi
      -- the item is that of the `k`-th empty production
      have hcore' := congrArg (fun l : List Core => l[k]?) hcore
      rw [List.getElem?_map, hk, List.getElem?_map, eq_comm] at hcore'
      obtain ⟨o, ho, hoi⟩ := Option.map_eq_some_iff.mp hcore'
      have hclos : o = .clos i.prod := by
        obtain ⟨hmem, hnone⟩ := mem_emptyOccs.mp (List.mem_of_getElem? ho)
        cases o with
        | clos p => exact congrArg Occ.clos (congrArg Prod.fst hoi)
        | kern k c =>
          obtain ⟨x, hx⟩ := Option.isSome_iff_exists.mp (kern_mem_occs.mp hmem).2
          exact absurd (hnone.symm.trans hx) (by simp)
      subst hclos
      rw [← h.occLook_iff hend hn]
      constructor
      · intro ht
        obtain ⟨o', ho', ht'⟩ := (hslot k t).mp ⟨i, hk, ht⟩
        rw [ho] at ho'
        cases ho'
        exact ht'
      · intro ht
        obtain ⟨j, hj, ht'⟩ := (hslot k t).mpr ⟨_, ho, ht⟩
        rw [hk] at hj
        cases hj
        exact ht'

/-- `lr` builds the LALR(1) automaton, relative to the FIRST sets: what it returns is the end of a
run, and a run that has no unfinished state left has built the automaton, whichever states were
visited first. -/
theorem lr_lalrAutomaton (G : Grammar) (F : SetTable) :
    (∀ fuel A, G.lr F fuel = some A → G.LrRun F A ∧ A.unfinished = ∅) ∧
      ∀ A, G.LrRun F A → A.unfinished = ∅ → G.LalrAutomaton F A := by
  constructor
  · intro fuel A h
    obtain ⟨hrun, hend⟩ := lr_run h
    exact ⟨hrun, getUnfinished_none hrun.lrInv.unfinished hend⟩
  · intro A hrun hend
    exact hrun.lrInv.lalrAutomaton hend

/-- The grammar `s : e ; e : e X | ;`, whose nonterminal `e` derives lists. -/
def listGrammar : Grammar := SymbolTable.grammar
  { prods := [⟨0, 256, [257], 0⟩, ⟨1, 257, [257, 1], 0⟩, ⟨2, 257, [], 0⟩]
    currterm := 1
    currnonterm := 257
    curract := 511
    goalSymbol := 256 } (by decide)

/-- The FIRST sets for `listGrammar`, which the automaton is built with. -/
def listFirst : SetTable := fun x => if IsTerm x then {x} else {1, listGrammar.epsilon}

/-- `lr` returns for `listGrammar`, and what it returns is the LALR(1) automaton. -/
theorem lr_lalrAutomaton_listGrammar :
    ∃ A, listGrammar.lr listFirst 10 = some A ∧ listGrammar.LalrAutomaton listFirst A := by
  have hsome : (listGrammar.lr listFirst 10).isSome = true := by decide +kernel
  obtain ⟨A, hA⟩ := Option.isSome_iff_exists.mp hsome
  obtain ⟨hrun, hend⟩ := (lr_lalrAutomaton listGrammar listFirst).1 10 A hA
  exact ⟨A, hA, (lr_lalrAutomaton listGrammar listFirst).2 A hrun hend⟩

end Grammar

end Parser
