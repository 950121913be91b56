import Cgkits.Parser.Follow
import Mathlib.Data.Finset.Sort

/-!
# Select sets and the LL(1) table (`llselect.c`, `llcode.c`)

`llselect` gives every production its select set: FIRST of the right-hand side, and FOLLOW of the
left-hand side when `first_rhs` reports a nullable right-hand side.  `fillRow` writes the number of
the production into the cells of its select set, and a cell that is written twice is reported as a
conflict.

The table is filled by a sequence of writes, and `fillCells_conflicts_iff`, `fillCells_getD` say
what any such sequence does.  They reduce the conflicts to overlapping select sets.  The select sets
are those of the textbook rules with chains of first symbols in the place of nullability
(`mem_select_iff`), so the passes report a conflict exactly when the grammar is not LL(1) in this
reading. `conflicts_correct_iff` compares this with the textbook definition.
-/

namespace Parser

open ContextFree

namespace Grammar

variable (G : Grammar)

/-- What `find_select_set` does for one production, whose set is found by FIRST and FOLLOW. -/
def selectProd (F W : SetTable) (lhs : ℕ) (sel : SetTable) (prod : Production) : SetTable :=
  let (dest, nullable) := G.firstRhs F (sel prod.num) prod.rhs
  let dest := if nullable then dest ∪ W lhs else dest
  Function.update sel prod.num (dest.erase G.epsilon)

/-- `find_select_set`: the visit of one symbol.  Select sets are kept by production number. -/
def findSelectSet (F W : SetTable) (lhs : ℕ) (sel : SetTable) : SetTable :=
  (G.productions lhs).foldl (G.selectProd F W lhs) sel

variable {G} in
/-- `llselect` finds the select sets of the productions of all nonterminals. -/
def llselect (w : G.Walk) (F W : SetTable) : SetTable :=
  w.order.foldl (fun sel lhs => G.findSelectSet F W lhs sel) fun _ => ∅

/-- `USED_TERMS`: the number of terminals in use, 0 when there is none (`currterm` starts below
`minTerm`). -/
def usedTerms : ℕ := G.currterm + 1 - minTerm

/-- `USED_NONTERMS`, the number of the rows of the table. -/
def usedNonterms : ℕ := G.currnonterm - minNonterm + 1

/-- The row size: one column for each terminal and one for the end of the input. -/
def rowsize : ℕ := G.usedTerms + 1

end Grammar

/-- The table under construction, `_dtran`, and the left-hand sides for which a conflict has been
reported. -/
structure Dtran where
  /-- The cells, row after row; `-1` is an error transition. -/
  cells : List ℤ
  /-- The conflicts that were reported, by production. -/
  conflicts : List ℕ

/-- Write one cell for the production `prod`, unless it is in use. -/
def fillCell (prod : Production) (k : ℕ) (st : Dtran) : Dtran :=
  if st.cells.getD k (-1) = -1 then { st with cells := st.cells.set k prod.num }
  else { st with conflicts := st.conflicts ++ [prod.lhs] }

/-- The writes for one production: the cells of its select set, in increasing order. -/
def fillProd (sel : SetTable) (row : ℕ) (st : Dtran) (prod : Production) : Dtran :=
  ((sel prod.num).sort (· ≤ ·)).foldl (fun st i => fillCell prod (row + i) st) st

namespace Grammar

variable (G : Grammar)

/-- `fill_row`: the visit of one symbol fills the row of a nonterminal. -/
def fillRow (sel : SetTable) (lhs : ℕ) (st : Dtran) : Dtran :=
  if ¬ IsNonterm lhs then st
  else (G.productions lhs).foldl (fillProd sel ((lhs - minNonterm) * G.rowsize)) st

variable {G} in
/-- The table that `make_yy_dtran` fills, with the conflicts it reports. -/
def makeDtran (w : G.Walk) (sel : SetTable) : Dtran :=
  w.order.foldl (fun st lhs => G.fillRow sel lhs st)
    ⟨List.replicate ((G.usedTerms + 1) * G.usedNonterms) (-1), []⟩

end Grammar

/-! ## A sequence of writes -/

/-- The writes of a list of cells, each with its production. -/
def fillCells (l : List (ℕ × Production)) (st : Dtran) : Dtran :=
  l.foldl (fun st x => fillCell x.2 x.1 st) st

/-- A write into a free cell sets it to the number of the production. -/
lemma fillCell_free {prod : Production} {k : ℕ} {st : Dtran} (h : st.cells.getD k (-1) = -1) :
    fillCell prod k st = { st with cells := st.cells.set k prod.num } := if_pos h

/-- A write into a used cell leaves it as it is and records a conflict. -/
lemma fillCell_used {prod : Production} {k : ℕ} {st : Dtran} (h : ¬ st.cells.getD k (-1) = -1) :
    fillCell prod k st = { st with conflicts := st.conflicts ++ [prod.lhs] } := if_neg h

/-- A write into a cell does not change the size of the table. -/
@[simp] lemma length_cells_fillCell (prod : Production) (k : ℕ) (st : Dtran) :
    (fillCell prod k st).cells.length = st.cells.length := by
  unfold fillCell
  split <;> simp

/-- Reading a cell after a write inside the table gives the value that was written. -/
lemma getD_set_cells {cells : List ℤ} {k j : ℕ} {v : ℤ} (hk : k < cells.length) :
    (cells.set k v).getD j (-1) = if j = k then v else cells.getD j (-1) := by
  simp only [List.getD_eq_getElem?_getD, List.getElem?_set]
  by_cases hjk : k = j
  · subst hjk
    simp [hk]
  · simp [hjk, Ne.symm hjk]

/-- No write reports a conflict exactly when none did before, the cells are different, and all of
them are free at the start. -/
lemma fillCells_conflicts_iff {l : List (ℕ × Production)} {st : Dtran}
    (hl : ∀ x ∈ l, x.1 < st.cells.length) :
    (fillCells l st).conflicts = [] ↔
      st.conflicts = [] ∧ (l.map Prod.fst).Nodup ∧ ∀ x ∈ l, st.cells.getD x.1 (-1) = -1 := by
  induction l generalizing st with
  | nil => simp [fillCells]
  | cons x l ih =>
    have hlen : ∀ y ∈ l, y.1 < (fillCell x.2 x.1 st).cells.length := by
      intro y hy
      rw [length_cells_fillCell]
      exact hl y (by simp [hy])
    have hx := hl x (by simp)
    rw [show fillCells (x :: l) st = fillCells l (fillCell x.2 x.1 st) from rfl, ih hlen]
    by_cases hfree : st.cells.getD x.1 (-1) = -1
    · rw [fillCell_free hfree]
      simp only [List.map_cons, List.nodup_cons, List.forall_mem_cons, hfree, true_and]
      have hcell : ∀ y ∈ l, (st.cells.set x.1 (x.2.num : ℤ)).getD y.1 (-1) = -1 ↔
          y.1 ≠ x.1 ∧ st.cells.getD y.1 (-1) = -1 := by
        intro y _
        rw [getD_set_cells hx]
        by_cases hyx : y.1 = x.1
        · rw [if_pos hyx]
          have : ¬ (x.2.num : ℤ) = -1 := by omega
          simp [hyx, this]
        · simp [hyx]
      constructor
      · rintro ⟨hc, hnd, hall⟩
        refine ⟨hc, ⟨fun hmem => ?_, hnd⟩, fun y hy => ((hcell y hy).mp (hall y hy)).2⟩
        obtain ⟨y, hy, hyx⟩ := List.mem_map.mp hmem
        exact ((hcell y hy).mp (hall y hy)).1 hyx
      · rintro ⟨hc, ⟨hnot, hnd⟩, hall⟩
        refine ⟨hc, hnd, fun y hy => (hcell y hy).mpr ⟨fun hyx => hnot ?_, hall y hy⟩⟩
        exact List.mem_map.mpr ⟨y, hy, hyx⟩
    · rw [fillCell_used hfree]
      constructor
      · rintro ⟨hc, -⟩
        simp at hc
      · rintro ⟨-, -, hall⟩
        exact absurd (hall x (by simp)) hfree

/-- What the cells hold after writes without a conflict: the production that was written there. -/
lemma fillCells_getD {l : List (ℕ × Production)} {st : Dtran}
    (hl : ∀ x ∈ l, x.1 < st.cells.length) (hc : (fillCells l st).conflicts = []) (k : ℕ) :
    (∀ p, (k, p) ∈ l → (fillCells l st).cells.getD k (-1) = p.num) ∧
      (k ∉ l.map Prod.fst → (fillCells l st).cells.getD k (-1) = st.cells.getD k (-1)) := by
  induction l generalizing st with
  | nil => simp [fillCells]
  | cons x l ih =>
    obtain ⟨hst, hnd, hfree⟩ := (fillCells_conflicts_iff hl).mp hc
    have hx := hl x (by simp)
    have hlen : ∀ y ∈ l, y.1 < (fillCell x.2 x.1 st).cells.length := by
      intro y hy
      rw [length_cells_fillCell]
      exact hl y (by simp [hy])
    have ih' := ih hlen hc
    have hstep : fillCells (x :: l) st = fillCells l (fillCell x.2 x.1 st) := rfl
    have hcell : fillCell x.2 x.1 st = { st with cells := st.cells.set x.1 x.2.num } :=
      fillCell_free (hfree x (by simp))
    rw [List.map_cons, List.nodup_cons] at hnd
    refine ⟨fun p hp => ?_, fun hk => ?_⟩
    · rcases List.mem_cons.mp hp with rfl | hp
      · rw [hstep, ih'.2 hnd.1, hcell, getD_set_cells hx, if_pos rfl]
      · rw [hstep]
        exact ih'.1 p hp
    · rw [List.map_cons, List.mem_cons, not_or] at hk
      rw [hstep, ih'.2 hk.2, hcell, getD_set_cells hx, if_neg hk.1]

namespace Grammar

variable {G : Grammar}

/-! ## Every production is visited once -/

/-- The productions in the order in which the walk visits them. -/
def visits (w : G.Walk) : List Production := w.order.flatMap G.productions

/-- Every production of the grammar is visited by the walk. -/
lemma mem_visits (w : G.Walk) {p : Production} : p ∈ visits w ↔ p ∈ G.prods := by
  simp only [visits, List.mem_flatMap, mem_productions]
  constructor
  · rintro ⟨A, -, hp, -⟩
    exact hp
  · exact fun hp => ⟨p.lhs, w.lhs_mem_order hp, hp, rfl⟩

/-- No production is visited twice by the walk. -/
lemma nodup_visits (w : G.Walk) : (visits w).Nodup := by
  refine List.nodup_flatMap.mpr ⟨fun A _ => ?_, ?_⟩
  · exact (List.Nodup.of_map _ G.nums_nodup).filter _
  · refine w.nodup.imp fun hAB p hpA hpB => hAB ?_
    rw [← (mem_productions.mp hpA).2, (mem_productions.mp hpB).2]

/-! ## Select sets -/

/-- Visiting the chains of all symbols is visiting the productions in this order. -/
lemma foldl_visits {σ : Type*} (w : G.Walk) (f : σ → Production → σ) (s : σ) :
    w.order.foldl (fun s A => (G.productions A).foldl f s) s = (visits w).foldl f s := by
  rw [visits, List.foldl_flatMap]

/-! ## Select sets -/

variable (G) in
/-- The select set of a production: FIRST of its symbols, and FOLLOW if they can vanish. -/
def selectOf (F W : SetTable) (p : Production) : Finset ℕ :=
  (if (G.firstRhs F ∅ p.rhs).2 then (G.firstRhs F ∅ p.rhs).1 ∪ W p.lhs
    else (G.firstRhs F ∅ p.rhs).1).erase G.epsilon

section Select

variable {F W : SetTable}

/-- A visit of another production keeps the select set of a production. -/
lemma foldl_selectProd_of_notMem {l : List Production} (hl : ∀ q ∈ l, q ∈ G.prods)
    {sel : SetTable} {p : Production} (hp : p ∈ G.prods) (hpl : p ∉ l) :
    l.foldl (fun sel q => G.selectProd F W q.lhs sel q) sel p.num = sel p.num := by
  induction l generalizing sel with
  | nil => rfl
  | cons q l ih =>
    rw [List.mem_cons, not_or] at hpl
    rw [List.foldl_cons, ih (fun q hq => hl q (by simp [hq])) hpl.2]
    have hne : p.num ≠ q.num := fun h => hpl.1 (eq_of_num_eq hp (hl q (by simp)) h)
    simp only [selectProd, Function.update_of_ne hne]

/-- The visits give every production its select set. -/
lemma foldl_selectProd {l : List Production} (hl : ∀ q ∈ l, q ∈ G.prods) (hnd : l.Nodup)
    {sel : SetTable} {p : Production} (hp : p ∈ l) (hsel : sel p.num = ∅) :
    l.foldl (fun sel q => G.selectProd F W q.lhs sel q) sel p.num = G.selectOf F W p := by
  induction l generalizing sel with
  | nil => simp at hp
  | cons q l ih =>
    rw [List.nodup_cons] at hnd
    have hl' : ∀ q ∈ l, q ∈ G.prods := fun q hq => hl q (by simp [hq])
    rw [List.foldl_cons]
    by_cases hpq : p = q
    · subst hpq
      rw [foldl_selectProd_of_notMem hl' (hl p hp) hnd.1]
      simp only [selectProd, Function.update_self, hsel, selectOf]
    · have hpl : p ∈ l := (List.mem_cons.mp hp).resolve_left hpq
      refine ih hl' hnd.2 hpl ?_
      have hne : p.num ≠ q.num := fun h => hpq (eq_of_num_eq (hl p hp) (hl q (by simp)) h)
      simp only [selectProd, Function.update_of_ne hne, hsel]

/-- The result of `llselect` is the select set of every production. -/
lemma llselect_eq (w : G.Walk) {p : Production} (hp : p ∈ G.prods) :
    llselect w F W p.num = G.selectOf F W p := by
  have hchain : ∀ (sel : SetTable) (A : ℕ), G.findSelectSet F W A sel =
      (G.productions A).foldl (fun sel q => G.selectProd F W q.lhs sel q) sel := by
    intro sel A
    refine List.foldl_ext _ _ _ fun sel q hq => ?_
    rw [(mem_productions.mp hq).2]
  rw [llselect]
  simp only [hchain]
  rw [foldl_visits w (fun sel q => G.selectProd F W q.lhs sel q)]
  exact foldl_selectProd (fun q hq => (mem_visits w).mp hq) (nodup_visits w)
    ((mem_visits w).mpr hp) rfl

end Select

/-! ## The table -/

variable (G) in
/-- The cell of a nonterminal and an input symbol in the table. -/
def cell (A i : ℕ) : ℕ := (A - minNonterm) * G.rowsize + i

variable (G) in
/-- The select sets name columns of the table only. -/
def Fits (sel : SetTable) : Prop := ∀ p ∈ G.prods, ∀ i ∈ sel p.num, i ≤ G.currterm

/-- Columns up to the last terminal fit into a row of the table. -/
lemma lt_rowsize {i : ℕ} (h : i ≤ G.currterm) : i < G.rowsize := by
  unfold rowsize usedTerms minTerm
  omega

/-- A cell determines its nonterminal and its input symbol. -/
lemma cell_inj {A B i j : ℕ} (hA : A ∈ G.nonterms) (hB : B ∈ G.nonterms) (hi : i ≤ G.currterm)
    (hj : j ≤ G.currterm) (h : G.cell A i = G.cell B j) : A = B ∧ i = j := by
  have hi' := lt_rowsize hi
  have hj' := lt_rowsize hj
  have hpos : 0 < G.rowsize := by omega
  unfold cell at h
  have hdiv := congrArg (· / G.rowsize) h
  have hmod := congrArg (· % G.rowsize) h
  simp only [Nat.mul_add_mod_self_right, Nat.mod_eq_of_lt hi', Nat.mod_eq_of_lt hj'] at hmod
  simp only [Nat.mul_comm _ G.rowsize, Nat.mul_add_div hpos, Nat.div_eq_of_lt hi',
    Nat.div_eq_of_lt hj', Nat.add_zero] at hdiv
  rw [mem_nonterms] at hA hB
  omega

/-- The cells of the nonterminals and the terminals are inside the table. -/
lemma cell_lt {A i : ℕ} (hA : A ∈ G.nonterms) (hi : i ≤ G.currterm) :
    G.cell A i < (G.usedTerms + 1) * G.usedNonterms := by
  have hi' := lt_rowsize hi
  rw [mem_nonterms] at hA
  have hrow : A - minNonterm + 1 ≤ G.usedNonterms := by
    unfold usedNonterms
    omega
  calc G.cell A i < (A - minNonterm) * G.rowsize + G.rowsize := Nat.add_lt_add_left hi' _
    _ = (A - minNonterm + 1) * G.rowsize := by rw [Nat.add_mul, Nat.one_mul]
    _ ≤ G.usedNonterms * G.rowsize := Nat.mul_le_mul_right _ hrow
    _ = (G.usedTerms + 1) * G.usedNonterms := Nat.mul_comm _ _

variable (G) in
/-- The writes for one production, one for each member of its select set. -/
def prodCells (sel : SetTable) (p : Production) : List (ℕ × Production) :=
  ((sel p.num).sort (· ≤ ·)).map fun i => (G.cell p.lhs i, p)

/-- The table is filled by the writes for all productions. -/
lemma makeDtran_eq (w : G.Walk) (sel : SetTable) :
    makeDtran w sel = fillCells ((visits w).flatMap (G.prodCells sel))
      ⟨List.replicate ((G.usedTerms + 1) * G.usedNonterms) (-1), []⟩ := by
  have hrow : ∀ (st : Dtran) (A : ℕ), G.fillRow sel A st = (G.productions A).foldl
      (fun st p => fillCells (G.prodCells sel p) st) st := by
    intro st A
    have hprod : ∀ (st : Dtran), ∀ p ∈ G.productions A,
        fillProd sel ((A - minNonterm) * G.rowsize) st p = fillCells (G.prodCells sel p) st := by
      intro st p hp
      rw [fillProd, fillCells, prodCells, List.foldl_map, (mem_productions.mp hp).2]
      rfl
    unfold fillRow
    split
    · have hnil : G.productions A = [] := by
        refine List.eq_nil_iff_forall_not_mem.mpr fun p hp => ?_
        obtain ⟨hp', rfl⟩ := mem_productions.mp hp
        exact ‹¬ IsNonterm p.lhs› (isNonterm_lhs hp')
      rw [hnil]
      rfl
    · exact List.foldl_ext _ _ _ hprod
  rw [makeDtran]
  simp only [hrow]
  rw [foldl_visits w (fun st p => fillCells (G.prodCells sel p) st)]
  simp only [fillCells, List.foldl_flatMap]

section Table

variable {sel : SetTable} (w : G.Walk)

/-- The cells that are written are those of the select sets of the productions. -/
lemma mem_writes {k : ℕ} {p : Production} :
    (k, p) ∈ (visits w).flatMap (G.prodCells sel) ↔
      p ∈ G.prods ∧ ∃ i ∈ sel p.num, k = G.cell p.lhs i := by
  simp only [List.mem_flatMap, mem_visits, prodCells, List.mem_map, Finset.mem_sort, Prod.mk.injEq]
  constructor
  · rintro ⟨q, hq, i, hi, rfl, rfl⟩
    exact ⟨hq, i, hi, rfl⟩
  · rintro ⟨hp, i, hi, rfl⟩
    exact ⟨p, hp, i, hi, rfl, rfl⟩

/-- Every write of `fill_row` is inside the table. -/
lemma writes_lt (hsel : G.Fits sel) : ∀ x ∈ (visits w).flatMap (G.prodCells sel),
    x.1 < (List.replicate ((G.usedTerms + 1) * G.usedNonterms) (-1 : ℤ)).length := by
  rintro ⟨k, p⟩ hx
  obtain ⟨hp, i, hi, rfl⟩ := (mem_writes w).mp hx
  rw [List.length_replicate]
  exact cell_lt (lhs_mem_nonterms hp) (hsel p hp i hi)

/-- No cell is written twice exactly when the select sets of different productions of a nonterminal
are disjoint. -/
lemma nodup_writes_iff (hsel : G.Fits sel) :
    (((visits w).flatMap (G.prodCells sel)).map Prod.fst).Nodup ↔
      ∀ p ∈ G.prods, ∀ q ∈ G.prods, p ≠ q → p.lhs = q.lhs → Disjoint (sel p.num) (sel q.num) := by
  have hkeys : ∀ p : Production, (G.prodCells sel p).map Prod.fst =
      ((sel p.num).sort (· ≤ ·)).map (G.cell p.lhs) := by
    intro p
    rw [prodCells, List.map_map]
    rfl
  rw [List.map_flatMap, List.nodup_flatMap]
  simp only [hkeys]
  constructor
  · rintro ⟨-, hpair⟩ p hp q hq hpq hlhs
    refine Finset.disjoint_left.mpr fun i hip hiq => ?_
    have hsymm : Std.Symm (Function.onFun List.Disjoint fun p : Production =>
        ((sel p.num).sort (· ≤ ·)).map (G.cell p.lhs)) := ⟨fun _ _ h => List.Disjoint.symm h⟩
    have hdis := hpair.forall ((mem_visits w).mpr hp) ((mem_visits w).mpr hq) hpq
    exact hdis (List.mem_map.mpr ⟨i, (Finset.mem_sort _).mpr hip, rfl⟩)
      (List.mem_map.mpr ⟨i, (Finset.mem_sort _).mpr hiq, by rw [hlhs]⟩)
  · intro h
    refine ⟨fun p hp => ?_, ?_⟩
    · have hp' := (mem_visits w).mp hp
      refine List.Nodup.map_on (fun i hi j hj hij => ?_) (Finset.sort_nodup _ _)
      rw [Finset.mem_sort] at hi hj
      exact (cell_inj (lhs_mem_nonterms hp') (lhs_mem_nonterms hp') (hsel p hp' i hi)
        (hsel p hp' j hj) hij).2
    · refine (nodup_visits w).imp_of_mem fun {p q} hp hq hpq k hkp hkq => ?_
      have hp' := (mem_visits w).mp hp
      have hq' := (mem_visits w).mp hq
      obtain ⟨i, hi, rfl⟩ := List.mem_map.mp hkp
      obtain ⟨j, hj, hij⟩ := List.mem_map.mp hkq
      rw [Finset.mem_sort] at hi hj
      obtain ⟨hlhs, rfl⟩ := cell_inj (lhs_mem_nonterms hq') (lhs_mem_nonterms hp')
        (hsel q hq' j hj) (hsel p hp' i hi) hij
      exact Finset.disjoint_left.mp (h p hp' q hq' hpq hlhs.symm) hi hj

/-- Conflicts are reported exactly for overlapping select sets. -/
theorem makeDtran_conflicts_iff (hsel : G.Fits sel) :
    (makeDtran w sel).conflicts = [] ↔
      ∀ p ∈ G.prods, ∀ q ∈ G.prods, p ≠ q → p.lhs = q.lhs → Disjoint (sel p.num) (sel q.num) := by
  rw [makeDtran_eq, fillCells_conflicts_iff (writes_lt w hsel), ← nodup_writes_iff w hsel]
  refine ⟨fun h => h.2.1, fun h => ⟨rfl, h, fun x hx => ?_⟩⟩
  rw [List.getD_eq_getElem?_getD, List.getElem?_replicate]
  split <;> rfl

/-- Without conflicts the cell of a nonterminal and an input symbol holds the production whose
select set contains the symbol. -/
theorem makeDtran_getD (hsel : G.Fits sel) (hc : (makeDtran w sel).conflicts = []) {A i : ℕ}
    (hA : A ∈ G.nonterms) (hi : i ≤ G.currterm) :
    (∀ p ∈ G.prods, p.lhs = A → i ∈ sel p.num →
        (makeDtran w sel).cells.getD (G.cell A i) (-1) = p.num) ∧
      ((∀ p ∈ G.prods, p.lhs = A → i ∉ sel p.num) →
        (makeDtran w sel).cells.getD (G.cell A i) (-1) = -1) := by
  rw [makeDtran_eq] at hc ⊢
  obtain ⟨hin, hout⟩ := fillCells_getD (writes_lt w hsel) hc (G.cell A i)
  constructor
  · rintro p hp rfl hip
    exact hin p ((mem_writes w).mpr ⟨hp, i, hip, rfl⟩)
  · intro h
    rw [hout, List.getD_eq_getElem?_getD, List.getElem?_replicate]
    · split <;> rfl
    · intro hmem
      obtain ⟨⟨k, p⟩, hx, rfl⟩ := List.mem_map.mp hmem
      obtain ⟨hp, j, hj, hk⟩ := (mem_writes w).mp hx
      obtain ⟨rfl, rfl⟩ := cell_inj hA (lhs_mem_nonterms hp) hi (hsel p hp j hj) hk
      exact h p hp rfl hj

end Table

/-! ## The passes together -/

section Passes

variable (w : G.Walk)

/-- The select sets after `first`, `follow` and `llselect`. -/
def selectSets : SetTable := llselect w (firstSets w) (followSets w (firstSets w))

/-- The table after `first`, `follow`, `llselect` and `make_yy_dtran`. -/
def dtran : Dtran := makeDtran w (selectSets w)

/-- The select sets are those of the textbook rules, with chains of first symbols in the place of
nullability. -/
theorem mem_selectSets_iff {p : Production} (hp : p ∈ G.prods) {i : ℕ} :
    i ∈ selectSets w p.num ↔
      i ≤ G.currterm ∧ SelectBy (g := G.cfg) (ChainNull G.cfg) p.rule (look i) := by
  have hmem : i ∈ selectSets w p.num ↔ i ≠ G.epsilon ∧
      (i ∈ (G.firstRhs (firstSets w) ∅ p.rhs).1 ∨
        ((G.firstRhs (firstSets w) ∅ p.rhs).2 = true ∧
          i ∈ followSets w (firstSets w) p.lhs)) := by
    rw [selectSets, llselect_eq w hp, selectOf, Finset.mem_erase]
    split
    · simp [*]
    · simp [*]
  rw [hmem, firstRhs_snd_iff, mem_followSets_iff]
  constructor
  · rintro ⟨hne, hfirst | ⟨hnull, hle, hfollow⟩⟩
    · have hle := (le_currterm_of_mem_firstRhs w hp hfirst).resolve_right hne
      have hby := (mem_firstRhs_iff w hle).mp hfirst
      exact ⟨hle, Or.inl ⟨i, look_of_isTerm (isTerm_of_firstBy hby rfl), hby⟩⟩
    · exact ⟨hle, Or.inr ⟨hnull, hfollow⟩⟩
  · rintro ⟨hle, ⟨s, hs, hby⟩ | ⟨hnull, hfollow⟩⟩
    · obtain rfl : i = s := by
        unfold look at hs
        split at hs
        · simp at hs
        · simpa using hs
      exact ⟨ne_epsilon_of_le hle, Or.inl ((mem_firstRhs_iff w hle).mpr hby)⟩
    · exact ⟨ne_epsilon_of_le hle, Or.inr ⟨hnull, hle, hfollow⟩⟩

/-- The select sets name columns of the table when FIRST and FOLLOW do. -/
lemma fits_selectSets : G.Fits (selectSets w) :=
  fun _ hp _ hi => ((mem_selectSets_iff w hp).mp hi).1

end Passes

/-! ## The LL(1) property -/

variable (G) in
/-- No two productions of a nonterminal are selected by one lookahead, where `P` is read as
nullability. -/
def LL1By (P : G.cfg.NT → Prop) : Prop :=
  ∀ p ∈ G.prods, ∀ q ∈ G.prods, p ≠ q → p.lhs = q.lhs →
    ∀ t, ¬ (SelectBy (g := G.cfg) P p.rule t ∧ SelectBy (g := G.cfg) P q.rule t)

variable (G) in
/-- FIRST of a right-hand side, extended with FOLLOW of the left-hand side when the right-hand side
derives the empty string. -/
def InSelect (p : Production) (t : Option ℕ) : Prop :=
  (∃ s δ, t = some s ∧ G.cfg.Derives (form p.rhs) (.terminal s :: δ)) ∨
    (G.cfg.Derives (form p.rhs) [] ∧
      FollowBy (g := G.cfg) (ContextFree.Nullable G.cfg) p.lhs t)

variable (G) in
/-- The grammar is LL(1): the sets of different productions of one nonterminal do not intersect. -/
def IsLL1 : Prop :=
  ∀ p ∈ G.prods, ∀ q ∈ G.prods, p ≠ q → p.lhs = q.lhs → ∀ t, ¬ (G.InSelect p t ∧ G.InSelect q t)

/-- The textbook sets are those of the rules at true nullability. -/
lemma inSelect_iff {p : Production} {t : Option ℕ} :
    G.InSelect p t ↔ SelectBy (g := G.cfg) (ContextFree.Nullable G.cfg) p.rule t := by
  unfold InSelect SelectBy
  refine or_congr ?_ (and_congr_left' ?_)
  · simp only [firstBy_nullable_iff, exists_and_left]
    rfl
  · rw [allNull_nullable_iff]
    rfl

/-- A terminal of a right-hand side of the table is a terminal of the table. -/
lemma le_currterm_of_mem_rhs {p : Production} (hp : p ∈ G.prods) {x : ℕ} (hx : x ∈ p.rhs)
    (hterm : IsTerm x) : x ≤ G.currterm := by
  rcases rhs_cases hp hx with h | h | h
  · exact h.2
  · exact absurd hterm h.not_isTerm
  · exact absurd h hterm.not_isAct

/-- What begins the form of symbols of the table is a terminal of the table. -/
lemma le_currterm_of_firstBy {P : G.cfg.NT → Prop} {δ : List (Symbol ℕ G.cfg.NT)} {t : ℕ}
    (h : FirstBy (g := G.cfg) P δ t) {γ : List ℕ} (hδ : form γ = δ)
    (hγ : ∀ x ∈ γ, IsTerm x → x ≤ G.currterm) : t ≤ G.currterm := by
  induction h generalizing γ with
  | terminal s δ =>
    obtain ⟨α, y, β, rfl, -, hy, -⟩ := exists_of_form_eq_cons hδ
    obtain ⟨-, hterm, rfl⟩ := toSymbol_eq_terminal hy
    exact hγ y (by simp) hterm
  | skip hA _ ih =>
    obtain ⟨α, y, β, rfl, -, -, hβ⟩ := exists_of_form_eq_cons hδ
    exact ih hβ fun x hx => hγ x (by simp [hx])
  | rule hr _ ih =>
    obtain ⟨p, hp, rfl⟩ := mem_rules.mp hr
    exact ih (γ := p.rhs) rfl fun x hx hterm => le_currterm_of_mem_rhs hp hx hterm

/-- What begins the form of a part of a right-hand side is a column of the table. -/
lemma exists_look_of_firstBy {P : G.cfg.NT → Prop} {p : Production} (hp : p ∈ G.prods)
    {γ : List ℕ} (hγ : ∀ x ∈ γ, x ∈ p.rhs) {s : ℕ} (h : FirstBy (g := G.cfg) P (form γ) s) :
    ∃ i, i ≤ G.currterm ∧ look i = some s :=
  ⟨s, le_currterm_of_firstBy h rfl fun x hx => le_currterm_of_mem_rhs hp (hγ x hx),
    look_of_isTerm (isTerm_of_firstBy h rfl)⟩

/-- What follows a nonterminal is a column of the table. -/
lemma exists_look_of_followBy {P : G.cfg.NT → Prop} {A : G.cfg.NT} {t : Option ℕ}
    (h : FollowBy (g := G.cfg) P A t) : ∃ i, i ≤ G.currterm ∧ look i = t := by
  induction h with
  | start => exact ⟨eoi, Nat.zero_le _, rfl⟩
  | next hr ho ht =>
    obtain ⟨q, hq, rfl⟩ := mem_rules.mp hr
    obtain ⟨α', y, β', hqrhs, -, -, rfl⟩ := exists_of_form_eq_append_cons ho
    exact exists_look_of_firstBy hq (fun x hx => by rw [hqrhs]; simp [hx]) ht
  | last _ _ _ _ ih => exact ih

/-- A lookahead that selects a production is a column of the table. -/
lemma exists_look_of_selectBy {P : G.cfg.NT → Prop} {p : Production} (hp : p ∈ G.prods)
    {t : Option ℕ} (h : SelectBy (g := G.cfg) P p.rule t) :
    ∃ i, i ≤ G.currterm ∧ look i = t := by
  rcases h with ⟨s, rfl, hs⟩ | ⟨-, hf⟩
  · exact exists_look_of_firstBy hp (fun _ hx => hx) hs
  · exact exists_look_of_followBy hf

/-- The passes report a conflict exactly when the grammar is not LL(1) with chains of first symbols
read as nullability. -/
lemma dtran_conflicts_iff (w : G.Walk) :
    (dtran w).conflicts = [] ↔ G.LL1By (ChainNull G.cfg) := by
  rw [dtran, makeDtran_conflicts_iff w (fits_selectSets w)]
  refine forall₂_congr fun p hp => forall₂_congr fun q hq => forall₂_congr fun _ _ => ?_
  rw [Finset.disjoint_left]
  constructor
  · rintro h t ⟨htp, htq⟩
    obtain ⟨i, hi, rfl⟩ := exists_look_of_selectBy hp htp
    exact h ((mem_selectSets_iff w hp).mpr ⟨hi, htp⟩) ((mem_selectSets_iff w hq).mpr ⟨hi, htq⟩)
  · intro h i hip hiq
    exact h (look i) ⟨((mem_selectSets_iff w hp).mp hip).2, ((mem_selectSets_iff w hq).mp hiq).2⟩

/-- A grammar that is LL(1) with chains read as nullability is LL(1). -/
lemma LL1By.isLL1 (h : G.LL1By (ChainNull G.cfg)) : G.IsLL1 := by
  rintro p hp q hq hpq hlhs t ⟨htp, htq⟩
  exact h p hp q hq hpq hlhs t ⟨(inSelect_iff.mp htp).mono fun _ => ContextFree.Nullable.chainNull,
    (inSelect_iff.mp htq).mono fun _ => ContextFree.Nullable.chainNull⟩

/-- Conflicts are reported exactly for the grammars that are not LL(1), as long as an LL(1) grammar
stays LL(1) when every nonterminal that starts a chain of first symbols ending in an empty
right-hand side counts as nullable. -/
theorem conflicts_correct_iff (G : Grammar) (w : G.Walk) :
    ((dtran w).conflicts ≠ [] ↔ ¬ G.IsLL1) ↔ (G.IsLL1 → G.LL1By (ChainNull G.cfg)) := by
  rw [Ne, dtran_conflicts_iff, not_iff_not]
  exact ⟨fun h => h.mpr, fun h => ⟨LL1By.isLL1, h⟩⟩

/-- `s : a Y | Y ; a : b T ; b : ;` with `T = 1`, `Y = 2`, `s = 256`, `a = 257`, `b = 258`. -/
def selectGrammar : Grammar := SymbolTable.grammar
  { prods := [⟨0, 256, [257, 2], 0⟩, ⟨1, 256, [2], 0⟩, ⟨2, 257, [258, 1], 0⟩, ⟨3, 258, [], 0⟩]
    currterm := 2
    currnonterm := 258
    curract := 511
    goalSymbol := 256 } (by decide)

/-- The symbol table of `selectGrammar`, walked by value. -/
def selectWalk : selectGrammar.Walk := selectGrammar.valueWalk

/-- The first symbol of `s : a Y` is passed over although it is not nullable, so `Y` selects both
productions of `s`. -/
lemma selectGrammar_conflicts : (dtran selectWalk).conflicts ≠ [] := by
  rw [Ne, dtran_conflicts_iff]
  intro h
  have hb : ChainNull selectGrammar.cfg (258 : ℕ) :=
    .empty (g := selectGrammar.cfg) (r := ⟨(258 : ℕ), []⟩) (by decide) rfl
  have ha : ChainNull selectGrammar.cfg (257 : ℕ) :=
    .chain (g := selectGrammar.cfg) (r := ⟨(257 : ℕ), [.nonterminal (258 : ℕ), .terminal 1]⟩)
      (by decide) rfl hb
  refine h ⟨0, 256, [257, 2], 0⟩ (by decide) ⟨1, 256, [2], 0⟩ (by decide) (by decide) rfl
    (some 2) ⟨Or.inl ⟨2, rfl, ?_⟩, Or.inl ⟨2, rfl, ?_⟩⟩
  · exact .skip ha (.terminal 2 [])
  · exact .terminal 2 []

/-- In `selectGrammar` only the nonterminal `b` is nullable. -/
lemma eq_of_nullable_selectGrammar {A : ℕ} (h : ContextFree.Nullable selectGrammar.cfg A) :
    A = 258 := by
  refine ContextFree.Nullable.of_nullClosed (g := selectGrammar.cfg) (P := fun A => A = 258) ?_ h
  intro r hr hn
  obtain ⟨p, hp, rfl⟩ := mem_rules.mp hr
  simp only [selectGrammar, SymbolTable.grammar, List.mem_cons, List.not_mem_nil, or_false] at hp
  rcases hp with rfl | rfl | rfl | rfl
  · obtain ⟨A, hA, -⟩ := hn (.terminal 2) (by decide)
    simp at hA
  · obtain ⟨A, hA, -⟩ := hn (.terminal 2) (by decide)
    simp at hA
  · obtain ⟨A, hA, -⟩ := hn (.terminal 1) (by decide)
    simp at hA
  · rfl

/-- The rules of `selectGrammar`, one for each production. -/
lemma rules_selectGrammar {r : ContextFreeRule ℕ ℕ} (hr : r ∈ selectGrammar.cfg.rules) :
    r = ⟨256, [.nonterminal 257, .terminal 2]⟩ ∨ r = ⟨256, [.terminal 2]⟩ ∨
      r = ⟨257, [.nonterminal 258, .terminal 1]⟩ ∨ r = ⟨258, []⟩ := by
  obtain ⟨p, hp, rfl⟩ := mem_rules.mp hr
  simp only [selectGrammar, SymbolTable.grammar, List.mem_cons, List.not_mem_nil, or_false] at hp
  rcases hp with rfl | rfl | rfl | rfl
  · exact Or.inl rfl
  · exact Or.inr (Or.inl rfl)
  · exact Or.inr (Or.inr (Or.inl rfl))
  · exact Or.inr (Or.inr (Or.inr rfl))

/-- Every string that `a` derives in `selectGrammar` begins with `T`. -/
lemma firstBy_selectGrammar {t : ℕ}
    (h : FirstBy (g := selectGrammar.cfg) (fun A => A = (258 : ℕ)) [.nonterminal (257 : ℕ)] t) :
    t = 1 := by
  obtain ⟨r, hr, hin, h⟩ := firstBy_singleton_nonterminal.mp h
  rcases rules_selectGrammar hr with rfl | rfl | rfl | rfl
  · simp at hin
  · simp at hin
  · rcases firstBy_cons_nonterminal.mp h with h | ⟨-, h⟩
    · obtain ⟨r, hr, hin, h⟩ := firstBy_singleton_nonterminal.mp h
      rcases rules_selectGrammar hr with rfl | rfl | rfl | rfl
      · simp at hin
      · simp at hin
      · simp at hin
      · exact absurd h not_firstBy_nil
    · exact firstBy_cons_terminal.mp h
  · simp at hin

/-- `selectGrammar` is LL(1): the first production of `s` is selected by `T`, the second by `Y`, and
the other nonterminals have one production. -/
lemma isLL1_selectGrammar : selectGrammar.IsLL1 := by
  have hterm : ∀ {r : ContextFreeRule ℕ ℕ} {s : ℕ} {t : Option ℕ}, .terminal s ∈ r.output →
      SelectBy (g := selectGrammar.cfg) (fun A => A = (258 : ℕ)) r t →
      ∃ s, t = some s ∧ FirstBy (g := selectGrammar.cfg) (fun A => A = (258 : ℕ)) r.output s := by
    rintro r s t hmem (h | ⟨hn, -⟩)
    · exact h
    · obtain ⟨A, hA, -⟩ := hn _ hmem
      simp at hA
  have hone : ∀ t, ¬ (selectGrammar.InSelect ⟨0, 256, [257, 2], 0⟩ t ∧
      selectGrammar.InSelect ⟨1, 256, [2], 0⟩ t) := by
    rintro t ⟨h₀, h₁⟩
    have h₀' := (inSelect_iff.mp h₀).mono fun _ => eq_of_nullable_selectGrammar
    have h₁' := (inSelect_iff.mp h₁).mono fun _ => eq_of_nullable_selectGrammar
    obtain ⟨s, rfl, hs₀⟩ := hterm (s := 2) (by decide) h₀'
    obtain ⟨s', hs', hs₁⟩ := hterm (s := 2) (by decide) h₁'
    obtain rfl : s' = 2 := firstBy_cons_terminal.mp hs₁
    obtain rfl : s = 2 := Option.some.inj hs'
    rcases firstBy_cons_nonterminal.mp hs₀ with h | ⟨h, -⟩
    · simpa using firstBy_selectGrammar h
    · simp at h
  intro p hp q hq hpq hlhs t
  simp only [selectGrammar, SymbolTable.grammar, List.mem_cons, List.not_mem_nil, or_false] at hp hq
  rcases hp with rfl | rfl | rfl | rfl <;> rcases hq with rfl | rfl | rfl | rfl <;>
    first | exact absurd rfl hpq | exact absurd hlhs (by decide) | exact hone t |
      exact fun h => hone t h.symm

/-- `selectGrammar` is LL(1), and a conflict is reported for it. -/
theorem not_conflicts_correct_selectGrammar :
    ¬ ((dtran selectWalk).conflicts ≠ [] ↔ ¬ selectGrammar.IsLL1) :=
  fun h => h.mp selectGrammar_conflicts isLL1_selectGrammar

end Grammar

end Parser
