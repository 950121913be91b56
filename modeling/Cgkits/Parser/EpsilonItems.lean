import Cgkits.Parser.ItemSort

/-!
# The items of empty productions (`yystate.c`)

`move_eps` goes through the sorted items of a closure as long as they are items of empty
productions.  It tests the item before it counts down, so it could look at an entry behind those
that `lr` has collected; and when a state is visited again, it merges lookaheads by position only.

`moveEpsIn` is the function with its array and its counters.  `Aligned` says that neither of the two
does harm: the leading run of items ends at another item, and the stored items are those of the same
productions.
-/

namespace Parser

/-- What goes wrong in `move_eps`: an entry outside of one of the arrays, or too many items. -/
inductive MoveEpsFault where
  /-- An entry of `closure_items` behind the last one is read. -/
  | beyond
  /-- `Too many epsilon production in state`. -/
  | tooMany
  /-- An entry of `epsilon_items` that has not been set is used. -/
  | unset
deriving DecidableEq

/-- The loop of `move_eps`: `p` are the entries from `*p` on, `epsItems` the entries of
`epsilon_items`. -/
def moveEpsLoop (nitems : ℕ) : List Item → ℤ → ℕ → List Item → Except MoveEpsFault (List Item × ℕ)
  | [], _, _, _ => .error .beyond
  | item :: p, nclose, moved, epsItems =>
    if item.prod.rhs.length = 0 ∧ 0 ≤ nclose - 1 then
      if maxEpsilon < moved + 1 then .error .tooMany
      else if nitems ≠ 0 then
        match epsItems[moved]? with
        | none => .error .unset
        | some eps =>
          moveEpsLoop nitems p (nclose - 1) (moved + 1) (epsItems.set moved (eps.union item))
      else moveEpsLoop nitems p (nclose - 1) (moved + 1) (epsItems ++ [item])
    else .ok (epsItems, moved)

/-- `move_eps`: the items that the state has stored afterwards, and the items that are left in
`closure_items`. -/
def moveEpsIn (epsItems closureItems : List Item) : Except MoveEpsFault (List Item × List Item) :=
  (moveEpsLoop epsItems.length closureItems closureItems.length 0 epsItems).map fun r =>
    (if r.2 ≠ 0 then r.1.take r.2 else r.1, closureItems.drop r.2)

/-- Some item of the production has the lookahead. -/
def Has (items : List Item) (p : Production) (t : ℕ) : Prop :=
  ∃ i ∈ items, i.prod = p ∧ t ∈ i.lookaheads

/-- What holds of the sorted items `l` of a closure when the state `st` is visited. -/
structure Aligned (st : LrState) (l : List Item) : Prop where
  /-- The items of empty productions are a leading run, which another item follows. -/
  run : ∃ m, m < l.length ∧ ∀ (k : ℕ) x, l[k]? = some x → (k < m ↔ x.prod.rhs = [])
  /-- No entry behind the last one is read, and no entry that has not been set is used. -/
  reads : moveEpsIn st.epsilonItems l ≠ .error .beyond ∧ moveEpsIn st.epsilonItems l ≠ .error .unset
  /-- When the state has been visited before, its stored items are those of the same productions. -/
  again : st.closed = true →
    st.epsilonItems.map Item.prod = (l.takeWhile fun i => i.prod.rhs = []).map Item.prod
  /-- Lookaheads are merged into the item of their production. -/
  merged : ∀ eps rest, moveEpsIn st.epsilonItems l = .ok (eps, rest) → ∀ p t,
    Has eps p t ↔ Has st.epsilonItems p t ∨ Has (l.takeWhile fun i => i.prod.rhs = []) p t

/-! ## The loop -/

/-- The loop stores the items of empty productions, or merges them one by one into those that are
stored. -/
lemma moveEpsLoop_eq {nitems : ℕ} {new p done old : List Item} {nclose : ℤ} {item : Item}
    (hnew : ∀ i ∈ new, i.prod.rhs = []) (hitem : item.prod.rhs ≠ []) (hold : nitems = 0 → old = [])
    (hlen : nitems ≠ 0 → old.length = new.length) (hclose : new.length < nclose) :
    moveEpsLoop nitems (new ++ item :: p) nclose done.length (done ++ old) =
      if done.length + new.length ≤ maxEpsilon ∨ new = [] then
        .ok (done ++ (if nitems = 0 then new else List.zipWith Item.union old new),
          done.length + new.length)
      else .error .tooMany := by
  induction new generalizing done old nclose with
  | nil =>
    have hnil : old = [] := by
      by_cases hn : nitems = 0
      · exact hold hn
      · exact List.length_eq_zero_iff.mp (hlen hn)
    have hrhs : ¬ (item.prod.rhs.length = 0 ∧ 0 ≤ nclose - 1) :=
      fun h => hitem (List.length_eq_zero_iff.mp h.1)
    rw [List.nil_append, moveEpsLoop, if_neg hrhs, if_pos (Or.inr rfl), hnil, List.zipWith_nil_left,
      ite_self]
    rfl
  | cons x new ih =>
    have hx : x.prod.rhs.length = 0 ∧ 0 ≤ nclose - 1 := by
      rw [List.length_cons] at hclose
      exact ⟨List.length_eq_zero_iff.mpr (hnew x List.mem_cons_self), by omega⟩
    rw [List.cons_append, moveEpsLoop, if_pos hx]
    by_cases hmany : maxEpsilon < done.length + 1
    · have hcond : ¬ (done.length + (x :: new).length ≤ maxEpsilon ∨ x :: new = []) := by
        rw [List.length_cons]
        rintro (h | h)
        · omega
        · cases h
      rw [if_pos hmany, if_neg hcond]
    · have hcond : (done.length + 1 + new.length ≤ maxEpsilon ∨ new = []) ↔
          (done.length + (x :: new).length ≤ maxEpsilon ∨ x :: new = []) := by
        rw [List.length_cons]
        constructor
        · rintro (h | rfl)
          · left
            omega
          · left
            rw [List.length_nil]
            omega
        · rintro (h | h)
          · left
            omega
          · cases h
      have hnew' : ∀ i ∈ new, i.prod.rhs = [] := fun i hi => hnew i (List.mem_cons_of_mem x hi)
      have hclose' : (new.length : ℤ) < nclose - 1 := by
        rw [List.length_cons] at hclose
        omega
      have hlength : ∀ y : Item, (done ++ [y]).length = done.length + 1 := fun y => by
        rw [List.length_append, List.length_singleton]
      have hsum : done.length + 1 + new.length = done.length + (x :: new).length := by
        rw [List.length_cons, Nat.add_assoc, Nat.add_comm 1]
      rw [if_neg hmany]
      by_cases hn : nitems = 0
      · -- the first visit: the item is stored
        have hstep :=
          @ih (done ++ [x]) [] (nclose - 1) hnew' (fun _ => rfl) (fun h => absurd hn h) hclose'
        rw [hlength, List.append_nil, if_pos hn] at hstep
        rw [if_neg (not_not.mpr hn), hold hn, List.append_nil, hstep,
          if_pos hn, ← if_congr hcond rfl rfl, hsum, List.append_assoc, List.singleton_append]
      · -- the item is merged into the stored one with its position
        cases old with
        | nil => exact absurd (hlen hn) (Nat.succ_ne_zero _).symm
        | cons d old =>
          have hget : (done ++ d :: old)[done.length]? = some d := by
            rw [List.getElem?_append_right (Nat.le_refl _), Nat.sub_self, List.getElem?_cons_zero]
          have hset :
              (done ++ d :: old).set done.length (d.union x) = done ++ [d.union x] ++ old := by
            rw [List.set_append_right _ _ (Nat.le_refl _), Nat.sub_self, List.set_cons_zero,
              List.append_assoc, List.singleton_append]
          have hstep := @ih (done ++ [d.union x]) old (nclose - 1) hnew' (fun h => absurd h hn)
            (fun _ => Nat.succ.inj (hlen hn)) hclose'
          rw [hlength, if_neg hn] at hstep
          rw [if_pos hn, hget]
          dsimp only
          rw [hset, hstep, if_neg hn, ← if_congr hcond rfl rfl, hsum, List.zipWith_cons_cons,
            List.append_assoc, List.singleton_append]

/-- The items of empty productions in front of another item. -/
lemma takeWhile_append_empty {new p : List Item} {item : Item} (hnew : ∀ i ∈ new, i.prod.rhs = [])
    (hitem : item.prod.rhs ≠ []) :
    (new ++ item :: p).takeWhile (fun i => i.prod.rhs = []) = new := by
  rw [List.takeWhile_append_of_pos fun i hi => decide_eq_true (hnew i hi)]
  rw [List.takeWhile_cons_of_neg (by simpa using hitem), List.append_nil]

/-- As many items are stored as have been moved, when there were none or as many. -/
lemma length_stored {old new : List Item} (hold : old = [] ∨ old.length = new.length) :
    (if old.length = 0 then new else List.zipWith Item.union old new).length = new.length := by
  split
  · rfl
  · rename_i hne
    have hlen := hold.resolve_left fun hnil => hne (by rw [hnil, List.length_nil])
    rw [List.length_zipWith, hlen, Nat.min_self]

/-- The loop tells the first visit by the number of stored items. -/
lemma stored_eq {old new : List Item} (hold : old = [] ∨ old.length = new.length) :
    (if old.length = 0 then new else List.zipWith Item.union old new) =
      if new = [] then old else if old = [] then new else List.zipWith Item.union old new := by
  by_cases hnil : old = []
  · subst hnil
    by_cases hnew : new = [] <;> simp [hnew]
  · have hne : old.length ≠ 0 := fun h => hnil (List.length_eq_zero_iff.mp h)
    have hnew : new ≠ [] := fun h => hne (by rw [hold.resolve_left hnil, h, List.length_nil])
    rw [if_neg hne, if_neg hnew, if_neg hnil]

/-- The function does what the model of `lr` does, when the items of empty productions are followed
by another item and as many have been stored, if any. -/
theorem moveEpsIn_eq {old new p : List Item} {item : Item} (hnew : ∀ i ∈ new, i.prod.rhs = [])
    (hitem : item.prod.rhs ≠ []) (hold : old = [] ∨ old.length = new.length) :
    moveEpsIn old (new ++ item :: p) = match moveEps old (new ++ item :: p) with
      | none => .error .tooMany
      | some r => .ok r := by
  have htake := takeWhile_append_empty (p := p) hnew hitem
  have hloop :=
    @moveEpsLoop_eq old.length new p [] old ((new ++ item :: p).length : ℕ) item hnew hitem
    List.length_eq_zero_iff.mp (fun h => hold.resolve_left fun hnil =>
      h (by rw [hnil, List.length_nil]))
    (by rw [List.length_append, List.length_cons]; omega)
  rw [List.nil_append, List.nil_append, List.length_nil, Nat.zero_add] at hloop
  rw [moveEpsIn, hloop, moveEps, htake]
  by_cases hmany : maxEpsilon < new.length
  · have hne : ¬ (new.length ≤ maxEpsilon ∨ new = []) := by
      rintro (hle | rfl)
      · omega
      · exact absurd hmany (Nat.not_lt_zero _)
    rw [if_neg hne, if_pos hmany]
    rfl
  · rw [if_pos (Or.inl (Nat.le_of_not_lt hmany)), if_neg hmany]
    have hstored : (if new.length ≠ 0 then
          (if old.length = 0 then new else List.zipWith Item.union old new).take new.length
        else if old.length = 0 then new else List.zipWith Item.union old new) =
        if new = [] then old else if old = [] then new else List.zipWith Item.union old new := by
      rw [List.take_of_length_le (length_stored hold).le, ite_self, stored_eq hold]
    exact congrArg (fun eps => Except.ok (eps, (new ++ item :: p).drop new.length)) hstored

/-! ## The merged lookaheads -/

/-- A list with one more item in front has the lookaheads of this item as well. -/
lemma has_cons {i : Item} {items : List Item} {p : Production} {t : ℕ} :
    Has (i :: items) p t ↔ (i.prod = p ∧ t ∈ i.lookaheads) ∨ Has items p t :=
  List.exists_mem_cons_iff ..

/-- Items of the same productions are merged item by item. -/
lemma has_zipWith {old new : List Item} (h : old.map Item.prod = new.map Item.prod) (p : Production)
    (t : ℕ) : Has (List.zipWith Item.union old new) p t ↔ Has old p t ∨ Has new p t := by
  induction old generalizing new with
  | nil =>
    cases new with
    | nil => simp [Has]
    | cons s new => cases h
  | cons d old ih =>
    cases new with
    | nil => cases h
    | cons s new =>
      obtain ⟨hprod, htail⟩ := List.cons.inj h
      rw [List.zipWith_cons_cons, has_cons, has_cons, has_cons, ih htail]
      have hunion : (d.union s).prod = p ∧ t ∈ (d.union s).lookaheads ↔
          (d.prod = p ∧ t ∈ d.lookaheads) ∨ (s.prod = p ∧ t ∈ s.lookaheads) := by
        rw [← hprod, ← and_or_left]
        exact and_congr_right fun _ => Finset.mem_union
      rw [hunion]
      exact or_or_or_comm ..

/-- Where `move_eps` ends, the items that are stored have the lookaheads that were there and those
of the closure. -/
lemma has_of_moveEps {old new l eps rest : List Item}
    (htake : l.takeWhile (fun i => i.prod.rhs = []) = new)
    (hold : old = [] ∨ old.map Item.prod = new.map Item.prod) (h : moveEps old l = some (eps, rest))
    (p : Production) (t : ℕ) : Has eps p t ↔ Has old p t ∨ Has new p t := by
  rw [moveEps, htake] at h
  have hnone : ¬ Has [] p t := by simp [Has]
  split at h
  · cases h
  · obtain ⟨rfl, -⟩ := Prod.mk.inj (Option.some.inj h)
    by_cases hnil : new = []
    · rw [if_pos hnil, hnil, or_iff_left hnone]
    · rw [if_neg hnil]
      by_cases hold' : old = []
      · rw [if_pos hold', hold', or_iff_right hnone]
      · rw [if_neg hold']
        exact has_zipWith (hold.resolve_left hold') p t

namespace Grammar

variable {G : Grammar} {F : SetTable} {A : Automaton} {kernel cl items : List Item} {fuel cur : ℕ}

/-- When a closure has items, one of them has a symbol right of the dot. -/
lemma exists_isSome_rightOfDot {K : List Core} (h : G.occs K ≠ []) :
    ∃ o ∈ G.occs K, (rightOfDot o.core).isSome := by
  obtain ⟨o, ho⟩ := List.exists_mem_of_ne_nil _ h
  cases o with
  | kern k c => exact ⟨_, ho, (kern_mem_occs.mp ho).2⟩
  | clos p =>
    -- the production has been added for a symbol right of a dot
    obtain ⟨c, x, hc, hx, -, -⟩ := mem_closureProds.mp (clos_mem_occs.mp ho)
    obtain ⟨o', ho', -, hx'⟩ := exists_mem_occs.mpr ⟨hc, hx⟩
    exact ⟨o', ho', hx' ▸ rfl⟩

/-- A production with a symbol right of the dot is not empty. -/
lemma rhs_ne_nil {i : Item} (h : (rightOfDot i.core).isSome) : i.prod.rhs ≠ [] := by
  intro hnil
  have hnone : rightOfDot i.core = none := by
    change i.prod.rhs[i.dotPosn]? = none
    rw [hnil, List.getElem?_nil]
  rw [hnone] at h
  cases h

/-- The sorted items are those of empty productions, followed by at least one item with a symbol
right of the dot and by no others. -/
lemma sortItems_append (hK : ∀ i ∈ kernel, i.prod ∈ G.prods)
    (hcl : G.closure F fuel kernel = some cl) (hitems : kclosure kernel cl = some items)
    (hne : items ≠ []) :
    ∃ item p, sortItems items = (G.emptyOccs (kernel.map Item.core)).map (itemAt kernel cl) ++
      item :: p ∧ ∀ i ∈ item :: p, (rightOfDot i.core).isSome := by
  have hcores : ∀ c ∈ kernel.map Item.core, c.1 ∈ G.prods := List.forall_mem_map.mpr hK
  obtain ⟨htake, hdrop⟩ := takeWhile_sortedOccs hcores (core_itemAt kernel cl)
  have hsplit := List.takeWhile_append_dropWhile (p := fun i : Item => decide (i.prod.rhs = []))
    (l := (G.sortedOccs (kernel.map Item.core)).map (itemAt kernel cl))
  rw [htake, hdrop, ← sortItems_eq hcl hitems] at hsplit
  have hoccs : G.occs (kernel.map Item.core) ≠ [] := by
    intro hnil
    apply hne
    rw [kclosure_eq hcl hitems, hnil, List.map_nil]
  obtain ⟨o, ho, hsome⟩ := exists_isSome_rightOfDot hoccs
  have hmem :
      o ∈ (G.sortedOccs (kernel.map Item.core)).filter fun o => (rightOfDot o.core).isSome :=
    List.mem_filter.mpr ⟨mem_sortedOccs.mpr ho, hsome⟩
  cases hrest :
      (G.sortedOccs (kernel.map Item.core)).filter fun o => (rightOfDot o.core).isSome with
  | nil =>
    rw [hrest] at hmem
    cases hmem
  | cons o' rest =>
    rw [hrest, List.map_cons] at hsplit
    refine ⟨_, _, hsplit.symm, fun i hi => ?_⟩
    rw [← List.map_cons, ← hrest] at hi
    obtain ⟨o, ho, rfl⟩ := List.mem_map.mp hi
    rw [core_itemAt]
    exact (List.mem_filter.mp ho).2

/-- The state is a state of the automaton, so its items are items of productions of the grammar, and
its stored items are those of its closure. -/
lemma LrRun.stored (h : G.LrRun F A) (hcur : cur ∈ A.unfinished) :
    (∀ i ∈ A.kernel cur, i.prod ∈ G.prods) ∧
      ((A.state cur).closed = false → (A.state cur).epsilonItems = []) ∧
      ((A.state cur).closed = true →
        (A.state cur).epsilonItems.map Item.core = (G.emptyOccs (A.cores cur)).map Occ.core) := by
  have hinv := h.lrInv
  have hstate := hinv.states cur (hinv.unfinished cur hcur)
  refine ⟨fun i hi => hinv.prods cur i.core (List.mem_map_of_mem hi), fun hopen =>
    (hstate.unclosed hopen).2.1,
    fun hclosed => ?_⟩
  obtain ⟨kernel, -, -, hempty⟩ := hstate.emptied hclosed
  exact hempty.core

/-- In every turn of the loop of `lr`, whichever unfinished state is visited: when the closure has
items, those of empty productions are a leading run that another item follows, `move_eps` does not
look behind the items, and it merges lookaheads into the items of the same productions. -/
theorem aligned_of_lrRun (h : G.LrRun F A) (hcur : cur ∈ A.unfinished)
    (hcl : G.closure F fuel (A.kernel cur) = some cl)
    (hitems : kclosure (A.kernel cur) cl = some items) (hne : items ≠ []) :
    Aligned (A.state cur) (sortItems items) := by
  obtain ⟨hK, hopen, hclosed⟩ := h.stored hcur
  obtain ⟨item, p, hsplit, hsome⟩ := sortItems_append hK hcl hitems hne
  have hitem := rhs_ne_nil (hsome item List.mem_cons_self)
  have hrun : ∀ (k : ℕ) x, (sortItems items)[k]? = some x →
      (k < ((G.emptyOccs (A.cores cur)).map (itemAt (A.kernel cur) cl)).length ↔
      x.prod.rhs = []) := by
    intro k x hx
    rw [List.length_map]
    exact lt_length_emptyOccs_iff hK hcl hitems hx
  have hcores : ((G.emptyOccs (A.cores cur)).map (itemAt (A.kernel cur) cl)).map Item.core =
      (G.emptyOccs (A.cores cur)).map Occ.core := by
    rw [List.map_map]
    exact List.map_congr_left fun o _ => core_itemAt (A.kernel cur) cl o
  change sortItems items = (G.emptyOccs (A.cores cur)).map (itemAt (A.kernel cur) cl) ++ item :: p
    at hsplit
  generalize (G.emptyOccs (A.cores cur)).map (itemAt (A.kernel cur) cl) = new at hsplit hrun hcores
  have hnew : ∀ i ∈ new, i.prod.rhs = [] := by
    intro i hi
    obtain ⟨k, hk⟩ := List.mem_iff_getElem?.mp hi
    have hlt := (List.getElem?_eq_some_iff.mp hk).1
    exact (hrun k i (by rw [hsplit, List.getElem?_append_left hlt, hk])).mp hlt
  have hprods : (A.state cur).closed = true →
      (A.state cur).epsilonItems.map Item.prod = new.map Item.prod := by
    intro hc
    have hfst := congrArg (List.map Prod.fst) ((hclosed hc).trans hcores.symm)
    rw [List.map_map, List.map_map] at hfst
    exact hfst
  have hold : (A.state cur).epsilonItems = [] ∨ (A.state cur).epsilonItems.map Item.prod =
      new.map Item.prod := by
    cases hc : (A.state cur).closed with
    | false => exact .inl (hopen hc)
    | true => exact .inr (hprods hc)
  have hmove := moveEpsIn_eq (p := p) hnew hitem (hold.imp_right fun h => by
    rw [← List.length_map Item.prod, h, List.length_map])
  have htake := takeWhile_append_empty (p := p) hnew hitem
  constructor
  · refine ⟨new.length, ?_, hrun⟩
    rw [hsplit, List.length_append, List.length_cons]
    omega
  · rw [hsplit, hmove]
    cases moveEps (A.state cur).epsilonItems (new ++ item :: p) with
    | none => exact ⟨nofun, nofun⟩
    | some r => exact ⟨nofun, nofun⟩
  · intro hc
    rw [hsplit, htake]
    exact hprods hc
  · intro eps rest hok q t
    rw [hsplit] at hok ⊢
    rw [hmove] at hok
    rw [htake]
    cases hm : moveEps (A.state cur).epsilonItems (new ++ item :: p) with
    | none =>
      rw [hm] at hok
      cases hok
    | some r =>
      rw [hm] at hok
      cases hok
      exact has_of_moveEps htake hold hm q t

/-- The first turn for `listGrammar`, whose closure has an empty production. -/
theorem aligned_of_lrRun_list : ∃ A cl items, listGrammar.LrRun listFirst A ∧ 0 ∈ A.unfinished ∧
    listGrammar.closure listFirst 10 (A.kernel 0) = some cl ∧
    kclosure (A.kernel 0) cl = some items ∧ items ≠ [] ∧
      Aligned (A.state 0) (sortItems items) := by
  have hsome :
      (listGrammar.startState.bind fun A => (listGrammar.closure listFirst 10 (A.kernel 0)).bind
      fun cl =>
      (kclosure (A.kernel 0) cl).bind fun items =>
        if 0 ∈ A.unfinished ∧ items ≠ [] then some items else
          none).isSome = true := by decide +kernel
  obtain ⟨items', h⟩ := Option.isSome_iff_exists.mp hsome
  obtain ⟨A, hA, h⟩ := Option.bind_eq_some_iff.mp h
  obtain ⟨cl, hcl, h⟩ := Option.bind_eq_some_iff.mp h
  obtain ⟨items, hitems, h⟩ := Option.bind_eq_some_iff.mp h
  have hcond : 0 ∈ A.unfinished ∧ items ≠ [] := by
    by_contra hc
    rw [if_neg hc] at h
    cases h
  have hrun : listGrammar.LrRun listFirst A := ⟨A, hA, .refl⟩
  exact ⟨A, cl, items, hrun, hcond.1, hcl, hitems, hcond.2, aligned_of_lrRun hrun hcond.1 hcl hitems
    hcond.2⟩

end Grammar

end Parser
