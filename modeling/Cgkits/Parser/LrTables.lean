import Cgkits.Parser.Family
import Cgkits.Parser.LrDriver
import Cgkits.Parser.Precedence

/-!
# The tables of a grammar without conflicts

When `reductions` records no conflict, the tables hold the automaton: the action of a state for a
terminal is the shift of the automaton, if there is one, and its action for a lookahead of a
completed item is the reduction of this item.  `NoConflict` says so for the automaton that `lr` has
built, and the lemmas behind it read the entries of the tables off the closures of the states.
-/

namespace Parser

open Grammar

/-! ## The number of states -/

namespace Automaton

variable {A A' : Automaton}

/-- `newstate` keeps to the maximum number of states. -/
lemma nstates_newstate {items : List Item} {next : ℕ} {isnew : NewState}
    (h : A.newstate items = some (A', next, isnew)) (hA : A.nstates ≤ maxState) :
    A'.nstates ≤ maxState := by
  unfold newstate at h
  split at h
  · cases h
  · split at h
    · cases h
      exact hA
    · split at h
      · cases h
      · rename_i hlt
        cases h
        exact Nat.lt_of_not_le hlt

/-- A transition of a visit keeps to the maximum number of states. -/
lemma nstates_transition {cur val : ℕ} {items : List Item}
    (h : A.transition cur val items = some A') (hA : A.nstates ≤ maxState) :
    A'.nstates ≤ maxState := by
  unfold transition at h
  simp only [Option.bind_eq_bind, Option.bind_eq_some_iff] at h
  obtain ⟨⟨A₁, next, isnew⟩, hnew, h⟩ := h
  have hA₁ := nstates_newstate hnew hA
  dsimp only at h
  split at h
  · rw [addUnfinished_eq h]
    exact (nstates_link (A := A₁) cur val next).le.trans hA₁
  · obtain ⟨r, -, h⟩ := Option.bind_eq_some_iff.mp h
    split at h
    · rw [addUnfinished_eq h]
      exact (nstates_link (A := A₁) cur val next).le.trans hA₁
    · cases h
      exact (nstates_link (A := A₁) cur val next).le.trans hA₁

end Automaton

namespace Grammar

variable {G : Grammar} {F : SetTable} {A A' : Automaton}

/-- A visit of a state keeps to the maximum number of states. -/
lemma nstates_visit {fuel cur : ℕ} (h : G.visit F fuel A cur = some A')
    (hA : A.nstates ≤ maxState) : A'.nstates ≤ maxState := by
  unfold visit at h
  simp only [Option.bind_eq_bind, Option.bind_eq_some_iff] at h
  obtain ⟨cl, -, items, -, ⟨eps, rest⟩, -, A₁, hfold, h⟩ := h
  cases h
  have hfold' : ∀ (gs : List (ℕ × List Item)) (B B' : Automaton), B.nstates ≤ maxState →
      gs.foldlM (fun B g => B.transition cur g.1 (g.2.map Item.movedot)) B = some B' →
      B'.nstates ≤ maxState := by
    intro gs
    induction gs with
    | nil =>
      intro B B' hB h
      cases h
      exact hB
    | cons g gs ih =>
      intro B B' hB h
      obtain ⟨B₁, hB₁, h⟩ := Option.bind_eq_some_iff.mp h
      exact ih B₁ B' (Automaton.nstates_transition hB₁ hB) h
  exact hfold' _ (A.setEpsilon cur eps) A₁ hA hfold

/-- The automaton at the end of a run of `lr` keeps to the maximum number of states. -/
lemma LrRun.nstates_le (h : G.LrRun F A) : A.nstates ≤ maxState := by
  obtain ⟨A₀, hstart, hsteps⟩ := h
  induction hsteps with
  | refl =>
    unfold startState at hstart
    split at hstart
    · obtain ⟨⟨A₁, next, isnew⟩, hnew, h⟩ := Option.bind_eq_some_iff.mp hstart
      have hle :=
        Automaton.nstates_newstate hnew (show Automaton.empty.nstates ≤ maxState from Nat.zero_le _)
      rw [Automaton.addUnfinished_eq h]
      exact hle
    · cases hstart
  | tail _ hstep ih =>
    cases hstep with
    | visit _ hvisit => exact nstates_visit hvisit ih

/-! ## The entries of the tables -/

variable (G F A) in
/-- `lr` has built the automaton to its end, with no state left unfinished. -/
structure Built : Prop where
  /-- The automaton is the end of a run. -/
  run : G.LrRun F A
  /-- No state is left unfinished. -/
  finished : A.unfinished = ∅

/-- An automaton that `lr` returns has been built to its end. -/
lemma built_of_lr {fuel : ℕ} (h : G.lr F fuel = some A) : G.Built F A := by
  obtain ⟨hrun, hend⟩ := lr_run h
  exact ⟨hrun, getUnfinished_none hrun.lrInv.unfinished hend⟩

variable (G F A) in
/-- The tables of a finished automaton, when no conflict has been recorded. -/
structure NoConflict (T : YyTables) : Prop where
  /-- `lr` has built the automaton. -/
  run : G.LrRun F A
  /-- No state is left unfinished. -/
  finished : A.unfinished = ∅
  /-- The reductions of the states have been added to the actions. -/
  added : ∃ l, Added l A.actions T.action ∧ ∀ n p t, (n, p, t) ∈ l ↔ n < A.nstates ∧
    (n, p, t) ∈ A.stateReductions n
  /-- The table of gotos is that of the automaton. -/
  goto : T.goto = A.gotos
  /-- The left-hand sides are those of the productions. -/
  lhs : ∀ p ∈ G.prods, T.lhs p.num = adjVal p.lhs
  /-- The lengths of the right-hand sides. -/
  reduce : ∀ p ∈ G.prods, T.reduce p.num = p.rhs.length

/-- A production is found in the table by its number. -/
lemma prodtab_num {p : Production} (hp : p ∈ G.prods) : G.prodtab p.num = some p := by
  unfold prodtab
  cases hfind : G.prods.find? fun q => q.num = p.num with
  | none =>
    rw [List.find?_eq_none] at hfind
    exact absurd (decide_eq_true rfl) (hfind p hp)
  | some q =>
    have hnum : q.num = p.num := by simpa using List.find?_some hfind
    rw [eq_of_num_eq (List.mem_of_find?_eq_some hfind) hp hnum]

/-- The tables of `make_parse_tables`, after `lr` has returned and `reductions` has recorded no
conflict. -/
lemma noConflict_yyTables {fuel verbose : ℕ} {precedence : ℕ → PrecTab} {order : List ℕ}
    (hlr : G.lr F fuel = some A) (hprec : ∀ t, (precedence t).level = 0)
    (horder : order.Perm (List.range A.nstates))
    (hconf : (A.reductions precedence verbose order).conflicts = 0) :
    G.NoConflict F A (G.yyTables A (A.reductions precedence verbose order)) := by
  have hbuilt := built_of_lr hlr
  refine ⟨hbuilt.run, hbuilt.finished, ⟨_, reductions_spec hprec hconf, ?_⟩, rfl, ?_, ?_⟩
  · intro n p t
    rw [List.mem_flatMap]
    constructor
    · rintro ⟨m, hm, hmem⟩
      obtain rfl := fst_of_mem_stateReductions hmem
      exact ⟨List.mem_range.mp (horder.mem_iff.mp hm), hmem⟩
    · rintro ⟨hn, hmem⟩
      exact ⟨n, horder.mem_iff.mpr (List.mem_range.mpr hn), hmem⟩
  · intro p hp
    simp only [yyTables, prodtab_num hp, Option.map_some, Option.getD_some]
  · intro p hp
    simp only [yyTables, prodtab_num hp, Option.map_some, Option.getD_some]

/-- An occurrence of an item in the closure of a kernel, completed or not. -/
def Occurs (G : Grammar) (K : List Core) : Occ → Prop
  | .clos p => p ∈ G.closureProds K
  | .kern k c => K[k]? = some c

/-- What occurs in a state is in the closure of its kernel. -/
lemma Occurs.inClosure {K : List Core} {o : Occ} (h : G.Occurs K o) : G.InClosure K o.core := by
  cases o with
  | clos p =>
    obtain ⟨c, x, hc, hx, hn, hp⟩ := mem_closureProds.mp h
    exact .clos hc hx hn hp
  | kern k c => exact .kern (List.mem_of_getElem? h)

/-- An occurrence with a symbol right of the dot is among the occurrences `lr` moves. -/
lemma Occurs.mem_occs {K : List Core} {o : Occ} {x : ℕ} (h : G.Occurs K o)
    (hx : rightOfDot o.core = some x) : o ∈ G.occs K := by
  cases o with
  | clos p => exact clos_mem_occs.mpr h
  | kern k c => exact kern_mem_occs.mpr ⟨h, Option.isSome_iff_exists.mpr ⟨x, hx⟩⟩

/-- The entry of a chain that is the only one for its symbol. -/
lemma find?_of_filter {l : List Act} {f : Act → Bool} {d : ℤ}
    (h : (l.filter f).map Act.doThis = [d]) : ∃ a, l.find? f = some a ∧ a.doThis = d := by
  have hhead := congrArg List.head? h
  rw [List.head?_map, List.head?_filter, List.head?_cons] at hhead
  exact Option.map_eq_some_iff.mp hhead

section Entries

variable {T : YyTables} {n t x : ℕ}

/-- The entries of the actions are those of the automaton, for a terminal. -/
lemma pAction_actions {n' : ℕ} (hterm : IsTerm t) (h : A.targets n t = [(n' : ℤ)]) :
    ∃ a, pAction A.actions n t = some a ∧ a.doThis = n' := by
  unfold Automaton.targets at h
  rw [if_pos hterm] at h
  obtain ⟨a, ha, hdo⟩ := find?_of_filter h
  refine ⟨a, ?_, hdo⟩
  unfold pAction
  simpa using ha

/-- The entries of the gotos are those of the automaton, for a nonterminal. -/
lemma chainNext_gotos {n' : ℕ} (hnon : IsNonterm x) (h : A.targets n x = [(n' : ℤ)]) :
    chainNext A.gotos n (adjVal x) = n' := by
  unfold Automaton.targets at h
  rw [if_neg hnon.not_isTerm] at h
  obtain ⟨a, ha, hdo⟩ := find?_of_filter h
  have hfind : pAction A.gotos n (adjVal x) = some a := by
    rw [← ha]
    unfold pAction
    congr 1
    funext b
    have hadj : adjVal x + minNonterm = x := Nat.sub_add_cancel hnon.1
    rw [decide_eq_decide]
    omega
  rw [chainNext, hfind]
  exact hdo

/-- The automaton of tables without conflicts has been built to its end. -/
lemma NoConflict.built (h : G.NoConflict F A T) : G.Built F A := ⟨h.run, h.finished⟩

/-- The closures of the states, and what belongs to their items. -/
lemma Built.lalr (h : G.Built F A) : G.LalrAutomaton F A := h.run.lrInv.lalrAutomaton h.finished

/-- The entry for a terminal that stands right of a dot is the shift. -/
lemma NoConflict.shift (h : G.NoConflict F A T) (hterm : IsTerm t) {n' : ℕ}
    (htargets : A.targets n t = [(n' : ℤ)]) : chainNext T.action n t = n' := by
  obtain ⟨l, hadd, -⟩ := h.added
  obtain ⟨a, ha, hdo⟩ := pAction_actions hterm htargets
  rw [chainNext, hadd.kept n t a ha]
  exact hdo

/-- A lookahead of a completed item is among the reductions of its state. -/
lemma Built.mem_stateReductions_of_look (h : G.Built F A) (hn : n < A.nstates) {o : Occ}
    (ho : G.Occurs (A.cores n) o) (hdot : rightOfDot o.core = none) (hlook : G.Look F A n o t) :
    (n, o.core.1, t) ∈ A.stateReductions n := by
  obtain ⟨Λ, hleast, hitems⟩ := h.lalr.lookaheads
  obtain rfl := hleast.unique (look_isLeast G F A)
  obtain ⟨hkern, heps⟩ := hitems n hn
  rw [mem_stateReductions]
  cases o with
  | kern k c =>
    obtain ⟨i, hi, rfl⟩ : ∃ i, (A.state n).kernelItems[k]? = some i ∧ i.core = c := by
      have hget : ((A.kernel n).map Item.core)[k]? = some c := ho
      rw [List.getElem?_map] at hget
      exact Option.map_eq_some_iff.mp hget
    exact ⟨i, List.mem_append_left _ (List.mem_of_getElem? hi), hdot, rfl,
      (hkern k i hi t).mpr hlook⟩
  | clos p =>
    have hnil : p.rhs = [] := by simpa [Occ.core, rightOfDot] using hdot
    have hcore := (h.lalr.empties n hn (p, 0)).mpr ⟨p, rfl, ho, hnil⟩
    obtain ⟨i, hi, hic⟩ := List.mem_map.mp hcore
    have hprod : i.prod = p := congrArg Prod.fst hic
    refine ⟨i, List.mem_append_right _ hi, hic ▸ hdot, hprod, (heps i hi t).mpr ?_⟩
    rw [hprod]
    exact hlook

/-- The entry for a lookahead of a completed item is its reduction. -/
lemma NoConflict.reduction (h : G.NoConflict F A T) (hn : n < A.nstates) {o : Occ}
    (ho : G.Occurs (A.cores n) o) (hdot : rightOfDot o.core = none) (hlook : G.Look F A n o t) :
    chainNext T.action n t = -(o.core.1.num : ℤ) := by
  obtain ⟨l, hadd, hl⟩ := h.added
  have hmem := (hl _ _ _).mpr ⟨hn, h.built.mem_stateReductions_of_look hn ho hdot hlook⟩
  rw [chainNext, hadd.added n _ t hmem]
  rfl

/-- A reduction of a state belongs to a completed item with this lookahead. -/
lemma Built.exists_occurs (h : G.Built F A) (hn : n < A.nstates) {p : Production}
    (hmem : (n, p, t) ∈ A.stateReductions n) :
    ∃ o, G.Occurs (A.cores n) o ∧ rightOfDot o.core = none ∧ G.Look F A n o t ∧ o.core.1 = p := by
  obtain ⟨Λ, hleast, hitems⟩ := h.lalr.lookaheads
  obtain rfl := hleast.unique (look_isLeast G F A)
  obtain ⟨hkern, heps⟩ := hitems n hn
  obtain ⟨i, hi, hdot, rfl, ht⟩ := mem_stateReductions.mp hmem
  rcases List.mem_append.mp hi with hi | hi
  · obtain ⟨k, hk⟩ := List.mem_iff_getElem?.mp hi
    refine ⟨.kern k i.core, ?_, hdot, (hkern k i hk t).mp ht, rfl⟩
    change ((A.kernel n).map Item.core)[k]? = some i.core
    rw [List.getElem?_map]
    exact congrArg (Option.map Item.core) hk
  · obtain ⟨p, hp, hclos, hnil⟩ := (h.lalr.empties n hn i.core).mp (List.mem_map_of_mem hi)
    have hprod : i.prod = p := congrArg Prod.fst hp
    refine ⟨.clos p, hclos, ?_, hprod ▸ (heps i hi t).mp ht, hprod.symm⟩
    simp [Occ.core, rightOfDot, hnil]

/-- The items of the closures are items of productions of the grammar. -/
lemma Built.mem_prods (h : G.Built F A) {c : Core} (hc : G.InClosure (A.cores n) c) :
    c.1 ∈ G.prods := by
  cases hc with
  | kern hc => exact h.run.lrInv.prods n c hc
  | clos _ _ _ hp => exact (mem_productions.mp hp).1

/-- The kernel of another state has a symbol left of its dots. -/
lemma Built.next_ne_zero (h : G.Built F A) {n' : ℕ} (hn : n < A.nstates)
    (htargets : (n' : ℤ) ∈ A.targets n x) : n' ≠ 0 ∧ n' < A.nstates ∧ A.targets n x = [(n' : ℤ)] ∧
      ∃ c, G.InClosure (A.cores n) c ∧ rightOfDot c = some x := by
  by_cases hx : ∃ c, G.InClosure (A.cores n) c ∧ rightOfDot c = some x
  · obtain ⟨m, hm, hone, -, hcores⟩ := h.lalr.transition n hn x hx
    rw [hone, List.mem_singleton, Nat.cast_inj] at htargets
    subst htargets
    refine ⟨?_, hm, hone, hx⟩
    rintro rfl
    obtain ⟨c, hc, hdot⟩ := hx
    obtain ⟨p, -, hstart⟩ := h.run.lrInv.start
    have hmem := (hcores (advance c)).mpr ⟨c, hc, hdot, rfl⟩
    rw [hstart, List.mem_singleton] at hmem
    exact Nat.succ_ne_zero _ (congrArg Prod.snd hmem)
  · rw [h.lalr.no_transition n hn x hx] at htargets
    cases htargets

/-- The kernel behind a transition holds the items moved over its symbol, and no others. -/
lemma Built.mem_cores (h : G.Built F A) {n' : ℕ} (hn : n < A.nstates)
    (htarget : (n' : ℤ) ∈ A.targets n x) (d : Core) :
    d ∈ A.cores n' ↔ ∃ c, G.InClosure (A.cores n) c ∧ rightOfDot c = some x ∧ advance c = d := by
  obtain ⟨-, -, -, hx⟩ := h.next_ne_zero hn htarget
  obtain ⟨m, -, hone, -, hcores⟩ := h.lalr.transition n hn x hx
  rw [hone, List.mem_singleton, Nat.cast_inj] at htarget
  rw [htarget]
  exact hcores d

/-- The occurrence behind a transition, with the lookaheads of the one before it. -/
lemma Built.next (h : G.Built F A) {o : Occ} (hn : n < A.nstates) (ho : G.Occurs (A.cores n) o)
    (hx : rightOfDot o.core = some x) : ∃ n' k, A.targets n x = [((n' : ℕ) : ℤ)] ∧
      G.Occurs (A.cores n') (.kern k (advance o.core)) ∧
      ∀ t, G.Look F A n o t → G.Look F A n' (.kern k (advance o.core)) t := by
  obtain ⟨n', -, hone, hcores, -⟩ := h.lalr.transition n hn x ⟨o.core, ho.inClosure, hx⟩
  obtain ⟨k, hk⟩ := List.mem_iff_getElem?.mp (mem_dotBefore.mpr ⟨ho.mem_occs hx, hx⟩)
  refine ⟨n', k, hone, ?_, fun t ht => .shift hn ht hk
    (by rw [hone]; exact List.mem_singleton_self _)⟩
  change (A.cores n')[k]? = _
  rw [hcores, List.getElem?_map, hk]
  rfl

/-- An entry of the automaton is the shift of a terminal that stands right of a dot. -/
lemma Built.shift_entry (h : G.Built F A) (hn : n < A.nstates) {a : Act}
    (ha : pAction A.actions n t = some a) : ∃ n' : ℕ, IsTerm t ∧ (n' : ℤ) ∈ A.targets n t ∧
    a.doThis = n' := by
  have hsym : a.sym = t := by
    have hs := List.find?_some ha
    simpa using hs
  have hmem := List.mem_of_find?_eq_some ha
  have hterm : IsTerm t := hsym ▸ h.lalr.actions_term n a hmem
  have htarget : a.doThis ∈ A.targets n t := by
    unfold Automaton.targets
    rw [if_pos hterm]
    exact List.mem_map_of_mem (List.mem_filter.mpr ⟨hmem, by simpa using hsym⟩)
  have hdot : ∃ c, G.InClosure (A.cores n) c ∧ rightOfDot c = some t := by
    by_contra hno
    rw [h.lalr.no_transition n hn t hno] at htarget
    cases htarget
  obtain ⟨n', -, hone, -⟩ := h.lalr.transition n hn t hdot
  have hdo : a.doThis = n' := by
    rw [hone, List.mem_singleton] at htarget
    exact htarget
  exact ⟨n', hterm, hdo ▸ htarget, hdo⟩

variable (G F A) in
/-- The tables of a finished automaton, with conflicts or without. -/
structure Tabled (T : YyTables) : Prop where
  /-- The automaton has been built to its end. -/
  built : G.Built F A
  /-- An entry of the action table is an error, the shift of a terminal that stands right of a dot,
  or the reduction of a completed item. -/
  entries : ∀ n < A.nstates, ∀ t : ℕ, chainNext T.action n t = yyF ∨
    (∃ n' : ℕ, IsTerm t ∧ (n' : ℤ) ∈ A.targets n t ∧ chainNext T.action n t = n') ∨
    ∃ o, G.Occurs (A.cores n) o ∧ rightOfDot o.core = none ∧ G.Look F A n o t ∧
      chainNext T.action n t = -(o.core.1.num : ℤ)
  /-- The table of gotos is that of the automaton. -/
  goto : T.goto = A.gotos
  /-- The left-hand sides are those of the productions. -/
  lhs : ∀ p ∈ G.prods, T.lhs p.num = adjVal p.lhs
  /-- The lengths of the right-hand sides. -/
  reduce : ∀ p ∈ G.prods, T.reduce p.num = p.rhs.length

/-- The tables of `make_parse_tables`, after `lr` has returned. -/
lemma tabled_yyTables {fuel verbose : ℕ} {precedence : ℕ → PrecTab} {order : List ℕ}
    (hlr : G.lr F fuel = some A) :
    G.Tabled F A (G.yyTables A (A.reductions precedence verbose order)) := by
  have hbuilt := built_of_lr hlr
  refine ⟨hbuilt, ?_, rfl, ?_, ?_⟩
  · intro n hn t
    have hnext : chainNext (G.yyTables A (A.reductions precedence verbose order)).action n t =
        ((A.reductions precedence verbose order).entry n t).getD yyF := rfl
    rw [hnext]
    rcases hentry : (A.reductions precedence verbose order).entry n t with _ | d
    · exact .inl rfl
    · right
      rw [reductions_eq] at hentry
      rcases entry_foldl hentry with hold | ⟨p, hp, rfl⟩
      · obtain ⟨a, ha, rfl⟩ := Option.map_eq_some_iff.mp hold
        obtain ⟨n', hterm, htarget, hdo⟩ := hbuilt.shift_entry hn ha
        exact .inl ⟨n', hterm, htarget, hdo⟩
      · obtain ⟨m, -, hmem⟩ := List.mem_flatMap.mp hp
        obtain rfl := fst_of_mem_stateReductions hmem
        obtain ⟨o, ho, hdot, hlook, rfl⟩ := hbuilt.exists_occurs hn hmem
        exact .inr ⟨o, ho, hdot, hlook, rfl⟩
  · intro p hp
    simp only [yyTables, prodtab_num hp, Option.map_some, Option.getD_some]
  · intro p hp
    simp only [yyTables, prodtab_num hp, Option.map_some, Option.getD_some]

/-- Tables without conflicts do in every state what its items and lookaheads say. -/
lemma NoConflict.tabled (h : G.NoConflict F A T) : G.Tabled F A T := by
  refine ⟨h.built, ?_, h.goto, h.lhs, h.reduce⟩
  intro n hn t
  obtain ⟨l, hadd, hl⟩ := h.added
  rcases hentry : pAction T.action n t with _ | a
  · left
    rw [chainNext, hentry]
    rfl
  · right
    have hnext : chainNext T.action n t = a.doThis := by
      rw [chainNext, hentry]
      rfl
    rcases hadd.only n t a hentry with hold | ⟨p, hp, rfl⟩
    · obtain ⟨n', hterm, htarget, hdo⟩ := h.built.shift_entry hn hold
      exact .inl ⟨n', hterm, htarget, hnext.trans hdo⟩
    · obtain ⟨o, ho, hdot, hlook, rfl⟩ := h.built.exists_occurs hn ((hl n p t).mp hp).2
      exact .inr ⟨o, ho, hdot, hlook, hnext⟩

/-- The number of a state is not the mark of an error. -/
lemma Built.ne_yyF (h : G.Built F A) (hn : n < A.nstates) : (n : ℤ) ≠ yyF := by
  have hle := h.run.nstates_le
  have hmax : maxState = 1024 := rfl
  unfold yyF
  omega

end Entries

end Grammar

end Parser
