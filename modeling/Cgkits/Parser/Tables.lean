import Cgkits.Parser.Lalr
import Mathlib.Data.Finset.Basic
import Mathlib.Data.List.Nodup

/-!
# Compressed LALR(1) tables (`print_tab`, `yy_next`)

`printTab` prints the chains of actions or gotos as one array for each row and an array of pointers
to the rows. Equal rows are printed once: the first pass makes the table element of a later row
point at the element of the row that it duplicates and marks it as redundant, and the other passes
decode that pointer.

A table element is a chain or such a pointer (`TabEntry`), and the text is a list of array
declarations (`Listing`). `Listing.table` is what a C program gets from the text, where every cell
is converted to the type of the cells. The invariant `Marked` says that an element is its chain, or
is marked and points at an unmarked equal row before it.
-/

namespace Parser

/-! ## The text -/

/-- The name of a row array: a common part and a number. -/
abbrev RowName : Type := String × ℕ

/-- The declaration of a row array, where `κ` is the type of constants. -/
structure RowArray (κ : Type) where
  /-- The name under which the row is declared. -/
  name : RowName
  /-- The constants that the row is initialized with. -/
  cells : List κ
deriving DecidableEq

/-- The text of a table: the row arrays, and the index array. -/
structure Listing (κ : Type) where
  /-- The row arrays, in the order of the text. -/
  rows : List (RowArray κ)
  /-- The name of the index array. -/
  index : String
  /-- The declared size of the index array. -/
  size : ℤ
  /-- The row that each element of the index array points at, or `none` for `NULL`. -/
  entries : List (Option RowName)

/-- What an element of the index array points at; there is no result when the row array is not
declared. -/
def Listing.row {κ : Type} (conv : κ → ℤ) (out : Listing κ) :
    Option RowName → Option (Option (List ℤ))
  | none => some none
  | some name => ((out.rows.find? fun r => r.name = name).map fun r => r.cells.map conv).map some

/-- The index array with the given name, as a C program gets it, where `conv` converts a constant to
the type of the cells. -/
def Listing.table {κ : Type} (conv : κ → ℤ) (out : Listing κ) (name : String) :
    Option (List (Option (List ℤ))) :=
  if out.index = name ∧ (out.entries.length : ℤ) ≤ out.size then
    out.entries.mapM (out.row conv) else none

/-! ## The chains -/

/-- `p_action`; also `p_goto`, for an adjusted nonterminal. -/
def pAction (table : ℕ → List Act) (state : ℕ) (inputSym : ℤ) : Option Act :=
  (table state).find? fun p => (p.sym : ℤ) = inputSym

/-- `add_action` and `add_goto` put an entry in front of those that were there. -/
lemma pAction_update (table : ℕ → List Act) (state : ℕ) (p : Act) (s : ℕ) (x : ℤ) :
    pAction (Function.update table state (p :: table state)) s x =
      if s = state ∧ (p.sym : ℤ) = x then some p else pAction table s x := by
  unfold pAction
  by_cases hs : s = state
  · subst hs
    rw [Function.update_self, List.find?_cons]
    by_cases hx : (p.sym : ℤ) = x
    · simp [hx]
    · simp [hx]
  · rw [Function.update_of_ne hs, if_neg fun h => hs h.1]

/-! ## `print_tab` -/

/-- An element of `table`: a pointer to a chain, or in the place of one a pointer to the element
that it duplicates. -/
inductive TabEntry where
  | chain (l : List Act)
  | dup (elep : ℕ)
deriving DecidableEq

/-- `table` and `redundant`, with the rows found to be copies of others. -/
structure Rows where
  /-- `table`, with a mark at the rows that are copies. -/
  table : ℕ → TabEntry
  /-- `redundant`, the rows that are copies. -/
  redundant : Finset ℕ

/-- The comparison of two chains, entry by entry. -/
def sameChain : List Act → List Act → Bool
  | [], [] => true
  | ele :: l, e :: l' => if ele.doThis ≠ e.doThis ∨ ele.sym ≠ e.sym then false else sameChain l l'
  | _, _ => false

/-- The first pass for the row `j`, compared with the row `i`. -/
def markRow (i : ℕ) (st : Rows) (j : ℕ) : Rows :=
  if j ∈ st.redundant then st
  else
    match st.table i, st.table j with
    | .chain ele, .chain e =>
      if e = [] ∨ ele = [] then st
      else if sameChain ele e then ⟨Function.update st.table j (.dup i), insert j st.redundant⟩
      else st
    | _, _ => st

/-- The first pass for the row `i`, compared with the rows after it. -/
def markRows (nstates : ℕ) (st : Rows) (i : ℕ) : Rows :=
  if i ∈ st.redundant then st
  else (List.range' (i + 1) (nstates - (i + 1))).foldl (markRow i) st

/-- The first pass marks every row whose chain is that of an earlier row. -/
def mark (nstates : ℕ) (table : ℕ → List Act) : Rows :=
  (List.range nstates).foldl (markRows nstates) ⟨fun i => .chain (table i), ∅⟩

/-- The cells of a row array: the number of pairs, and the pairs. -/
def rowCells (l : List Act) : List ℤ := l.length :: l.flatMap fun ele => [(ele.sym : ℤ), ele.doThis]

/-- The second pass prints the row `i`, unless it is empty or a copy. -/
def printRow (rowName : String) (st : Rows) (i : ℕ) : Option (RowArray ℤ) :=
  if i ∈ st.redundant then none
  else
    match st.table i with
    | .chain [] => none
    | .chain l => some ⟨(rowName, i), rowCells l⟩
    | .dup _ => none

/-- The third pass prints the element of the index array for the row `i`. -/
def printIndex (rowName : String) (st : Rows) (i : ℕ) : Option RowName :=
  if i ∈ st.redundant then
    match st.table i with
    | .dup elep => some (rowName, elep)
    | .chain _ => none
  else
    match st.table i with
    | .chain [] => none
    | _ => some (rowName, i)

/-- The table that `print_tab` prints: of actions or of goto states. -/
inductive Tab where
  | action | goto
deriving DecidableEq, Repr

/-- `row_name`, with which the names of the rows begin. -/
def Tab.rowName : Tab → String
  | .action => "Yya"
  | .goto => "Yyg"

/-- `col_name`, the name of the index array. -/
def Tab.colName : Tab → String
  | .action => "Yy_action"
  | .goto => "Yy_goto"

/-- `print_tab`.  A public index array is declared with the format `*s[%d]`: its name is `s`, and
the number printed as its size is the address of the string `col_name`. -/
def printTab (tab : Tab) (priv : Bool) (address : ℤ) (nstates : ℕ) (table : ℕ → List Act) :
    Listing ℤ :=
  let st := mark nstates table
  { rows := (List.range nstates).filterMap (printRow tab.rowName st)
    index := if priv then tab.colName else "s"
    size := if priv then nstates else address
    entries := (List.range nstates).map (printIndex tab.rowName st) }

/-! ## `yy_next` -/

/-- `YYF` of occs, the result of a lookup that finds nothing. -/
def yyF : ℤ := 32767

/-- The conversion of an `int` to `YY_TTYPE`, which is `short`. -/
def toShort (n : ℤ) : ℤ := n.bmod (2 ^ 16)

/-- The search for a symbol in the pairs of a row; there is no result when it reads behind the
row. -/
def pairLoop (yyf inp : ℤ) : ℕ → List ℤ → Option ℤ
  | 0, _ => some yyf
  | i + 1, s :: a :: p => if inp = s then some a else pairLoop yyf inp i p
  | _ + 1, _ => none

/-- `yy_next`, the lookup of a symbol in the row of a state. -/
def yyNext (table : List (Option (List ℤ))) (curState inp : ℤ) : Option ℤ :=
  match table[(toShort curState).toNat]? with
  | none => none
  | some none => some yyF
  | some (some []) => none
  | some (some (i :: p)) => pairLoop yyF inp i.toNat p

/-- The listing is a table for the chains: `yy_next` returns what the first entry for a symbol says,
or `YYF` if there is none, and every row array that the index array names is declared exactly
once. -/
def Decodes (nstates : ℕ) (table : ℕ → List Act) (out : Listing ℤ) (name : String) : Prop :=
  ∃ tab, out.table toShort name = some tab ∧
    (∀ s < nstates, ∀ x, yyNext tab s x = some (((pAction table s x).map Act.doThis).getD yyF)) ∧
    ∀ r, some r ∈ out.entries → (out.rows.map RowArray.name).count r = 1

/-! ## The row arrays -/

section Rows

variable {κ : Type} {base : String} {f : ℕ → Option (RowArray κ)} {n i : ℕ}

/-- A list all of whose elements have a result has the list of the results. -/
lemma mapM_eq_some {α β : Type} {f : α → Option β} {g : α → β} {l : List α}
    (h : ∀ a ∈ l, f a = some (g a)) : l.mapM f = some (l.map g) := by
  induction l with
  | nil => rfl
  | cons a l ih =>
    rw [List.mapM_cons, h a List.mem_cons_self, ih fun x hx => h x (List.mem_cons_of_mem a hx)]
    rfl

/-- Among the row arrays of the rows below `n`, the one of the row `i` is found by its name. -/
lemma find?_rows (hf : ∀ i r, f i = some r → r.name = (base, i)) (hi : i < n) :
    ((List.range n).filterMap f).find? (fun r => r.name = (base, i)) = f i := by
  have hany : ∀ j, (f j).any (fun r => r.name = (base, i)) = true ↔ j = i ∧ (f i).isSome := by
    intro j
    cases hj : f j with
    | none =>
      constructor
      · intro h
        cases h
      · rintro ⟨rfl, h⟩
        rw [hj] at h
        cases h
    | some r =>
      rw [Option.any_some, decide_eq_true_eq, hf j r hj, Prod.mk.injEq]
      constructor
      · rintro ⟨-, rfl⟩
        exact ⟨rfl, by rw [hj]; rfl⟩
      · rintro ⟨rfl, -⟩
        exact ⟨rfl, rfl⟩
  rw [List.find?_filterMap]
  cases hfi : f i with
  | none =>
    have hnone : (List.range n).find? (fun j => (f j).any fun r => r.name = (base, i)) = none := by
      rw [List.find?_eq_none]
      intro j _ hj
      have hsome := ((hany j).mp hj).2
      rw [hfi] at hsome
      cases hsome
    rw [hnone]
    rfl
  | some r =>
    have hsome : (List.range n).find? (fun j => (f j).any fun r => r.name = (base, i)) =
        some i := by
      rw [List.find?_range_eq_some]
      refine ⟨(hany i).mpr ⟨rfl, by rw [hfi]; rfl⟩, List.mem_range.mpr hi, ?_⟩
      intro j hj
      rw [Bool.not_eq_true', ← Bool.not_eq_true, hany]
      exact fun h => hj.ne h.1
    rw [hsome]
    exact hfi

/-- No name of a row is declared twice. -/
lemma nodup_rows (hf : ∀ i r, f i = some r → r.name = (base, i)) (n : ℕ) :
    (((List.range n).filterMap f).map RowArray.name).Nodup := by
  rw [List.Nodup, List.pairwise_map, List.pairwise_filterMap]
  refine List.nodup_range.imp ?_
  intro j k hjk r hr r' hr' he
  rw [hf j r hr, hf k r' hr', Prod.mk.injEq] at he
  exact hjk he.2

/-- A row array that is printed is declared once. -/
lemma count_rows (hf : ∀ i r, f i = some r → r.name = (base, i)) (hi : i < n) {r : RowArray κ}
    (hr : f i = some r) : (((List.range n).filterMap f).map RowArray.name).count (base, i) = 1 := by
  apply List.count_eq_one_of_mem (nodup_rows hf n)
  rw [← hf i r hr]
  exact List.mem_map_of_mem (List.mem_filterMap.mpr ⟨i, List.mem_range.mpr hi, hr⟩)

end Rows

/-! ## The first pass -/

/-- The comparison of two chains says whether they are equal. -/
lemma sameChain_iff (l l' : List Act) : sameChain l l' = true ↔ l = l' := by
  induction l generalizing l' with
  | nil => cases l' <;> simp [sameChain]
  | cons ele l ih =>
    cases l' with
    | nil => simp [sameChain]
    | cons e l' =>
      rw [sameChain]
      by_cases h : ele.doThis ≠ e.doThis ∨ ele.sym ≠ e.sym
      · rw [if_pos h]
        constructor
        · intro hf
          cases hf
        · intro he
          rw [List.cons.injEq] at he
          rw [he.1] at h
          simp at h
      · rw [if_neg h, ih, List.cons.injEq]
        push Not at h
        have he : ele = e := by
          cases ele
          cases e
          rw [Act.mk.injEq]
          exact ⟨h.2, h.1⟩
        exact (and_iff_right he).symm

/-- The rows below `k` have been compared with those after them: an element is its chain, or it is
marked and points at an unmarked equal row before it. -/
structure Marked (nstates : ℕ) (table : ℕ → List Act) (k : ℕ) (st : Rows) : Prop where
  /-- An element that is not marked is its chain. -/
  chain : ∀ i, i ∉ st.redundant → st.table i = .chain (table i)
  /-- A marked element points at an equal row. -/
  dup : ∀ i ∈ st.redundant, i < nstates ∧ table i ≠ [] ∧
    ∃ r < k, r < i ∧ st.table i = .dup r ∧ r ∉ st.redundant ∧ table r = table i

section Mark

variable {nstates : ℕ} {table : ℕ → List Act} {k : ℕ} {st : Rows}

/-- The comparison of the row `i` with the row `j`. -/
lemma Marked.markRow {i j : ℕ} (h : Marked nstates table (i + 1) st) (hi : i ∉ st.redundant)
    (hij : i < j) (hj : j < nstates) :
    Marked nstates table (i + 1) (markRow i st j) ∧ i ∉ (Parser.markRow i st j).redundant := by
  unfold Parser.markRow
  by_cases hmem : j ∈ st.redundant
  · rw [if_pos hmem]
    exact ⟨h, hi⟩
  · rw [if_neg hmem, h.chain i hi, h.chain j hmem]
    dsimp only
    by_cases hnil : table j = [] ∨ table i = []
    · rw [if_pos hnil]
      exact ⟨h, hi⟩
    · rw [if_neg hnil]
      by_cases hsame : sameChain (table i) (table j) = true
      · rw [if_pos hsame]
        rw [sameChain_iff] at hsame
        have hne : i ∉ insert j st.redundant := by simp [hij.ne, hi]
        refine ⟨⟨?_, ?_⟩, hne⟩
        · intro q hq
          rw [Finset.mem_insert, not_or] at hq
          dsimp only
          rw [Function.update_of_ne hq.1]
          exact h.chain q hq.2
        · intro q hq
          dsimp only at hq ⊢
          by_cases hqj : q = j
          · subst hqj
            refine ⟨hj, fun hn => hnil (Or.inl hn), i, Nat.lt_succ_self i, hij, ?_, hne, hsame⟩
            rw [Function.update_self]
          · obtain ⟨hqn, hqne, r, hrk, hrq, hr, hrm, heq⟩ :=
              h.dup q (Finset.mem_of_mem_insert_of_ne hq hqj)
            have hrj : r ≠ j := by omega
            refine ⟨hqn, hqne, r, hrk, hrq, ?_, by simp [hrj, hrm], heq⟩
            rw [Function.update_of_ne hqj]
            exact hr
      · rw [if_neg hsame]
        exact ⟨h, hi⟩

/-- The comparison of the row `i` with the rows of a list. -/
lemma Marked.foldl_markRow {i : ℕ} {js : List ℕ} (h : Marked nstates table (i + 1) st)
    (hi : i ∉ st.redundant) (hjs : ∀ j ∈ js, i < j ∧ j < nstates) :
    Marked nstates table (i + 1) (js.foldl (Parser.markRow i) st) := by
  induction js generalizing st with
  | nil => exact h
  | cons j js ih =>
    obtain ⟨hij, hj⟩ := hjs j List.mem_cons_self
    obtain ⟨h', hi'⟩ := h.markRow hi hij hj
    exact ih h' hi' fun q hq => hjs q (List.mem_cons_of_mem j hq)

/-- The comparison of the row `k` with the rows after it. -/
lemma Marked.markRows (h : Marked nstates table k st) :
    Marked nstates table (k + 1) (Parser.markRows nstates st k) := by
  have hsucc : Marked nstates table (k + 1) st := by
    refine ⟨h.chain, ?_⟩
    intro i hi
    obtain ⟨hin, hne, r, hrk, hrest⟩ := h.dup i hi
    exact ⟨hin, hne, r, Nat.lt_succ_of_lt hrk, hrest⟩
  unfold Parser.markRows
  by_cases hk : k ∈ st.redundant
  · rw [if_pos hk]
    exact hsucc
  · rw [if_neg hk]
    apply hsucc.foldl_markRow hk
    intro j hj
    rw [List.mem_range'_1] at hj
    omega

/-- The first pass leaves the rows marked as `Marked` says. -/
lemma marked_mark (nstates : ℕ) (table : ℕ → List Act) (k : ℕ) :
    Marked nstates table k
      ((List.range k).foldl (markRows nstates) ⟨fun i => .chain (table i), ∅⟩) := by
  induction k with
  | zero => exact ⟨fun _ _ => rfl, fun i hi => absurd hi (Finset.notMem_empty i)⟩
  | succ k ih =>
    rw [List.range_succ, List.foldl_append, List.foldl_cons, List.foldl_nil]
    exact ih.markRows

/-- The second pass prints the rows that are neither marked nor empty. -/
lemma Marked.printRow (h : Marked nstates table k st) (rowName : String) (i : ℕ) :
    Parser.printRow rowName st i =
      if i ∈ st.redundant ∨ table i = [] then none else
        some ⟨(rowName, i), rowCells (table i)⟩ := by
  unfold Parser.printRow
  by_cases hi : i ∈ st.redundant
  · rw [if_pos hi, if_pos (Or.inl hi)]
  · rw [if_neg hi, h.chain i hi]
    cases htab : table i with
    | nil => simp
    | cons p l => simp [hi]

/-- The third pass names the printed row that is equal to the row `i`, unless that is empty. -/
lemma Marked.printIndex (h : Marked nstates table k st) (rowName : String) (i : ℕ) :
    (table i = [] ∧ Parser.printIndex rowName st i = none) ∨
      (table i ≠ [] ∧ ∃ r ≤ i, Parser.printIndex rowName st i = some (rowName, r) ∧
        r ∉ st.redundant ∧ table r = table i) := by
  unfold Parser.printIndex
  by_cases hi : i ∈ st.redundant
  · obtain ⟨-, hne, r, -, hri, hr, hrm, heq⟩ := h.dup i hi
    rw [if_pos hi, hr]
    exact Or.inr ⟨hne, r, hri.le, rfl, hrm, heq⟩
  · rw [if_neg hi, h.chain i hi]
    cases htab : table i with
    | nil => exact Or.inl ⟨rfl, rfl⟩
    | cons p l => exact Or.inr ⟨List.cons_ne_nil p l, i, le_rfl, rfl, hi, htab⟩

end Mark

/-! ## Decoding -/

/-- A number in the range of `short` is stored as it is. -/
lemma toShort_eq {n : ℤ} (hl : -2 ^ 15 ≤ n) (hu : n < 2 ^ 15) : toShort n = n := by
  unfold toShort
  apply Int.bmod_eq_of_le <;> omega

/-- The search looks at the first `n` pairs and finds the first one with the symbol. -/
lemma pairLoop_eq (yyf x : ℤ) (ps : List (ℤ × ℤ)) {n : ℕ} (hn : n ≤ ps.length) :
    pairLoop yyf x n (ps.flatMap fun p => [p.1, p.2]) =
      some ((((ps.take n).find? fun p => p.1 = x).map Prod.snd).getD yyf) := by
  induction n generalizing ps with
  | zero => rfl
  | succ n ih =>
    cases ps with
    | nil => cases hn
    | cons p ps =>
      rw [List.flatMap_cons, List.cons_append, List.cons_append, List.nil_append, pairLoop,
        List.take_succ_cons, List.find?_cons]
      by_cases hx : x = p.1
      · simp [hx]
      · rw [if_neg hx, ih ps (Nat.le_of_succ_le_succ hn)]
        simp [Ne.symm hx]

/-- The search in the row of a chain gives the first entry for the symbol, or `YYF`. -/
lemma pairLoop_chain (x : ℤ) (l : List Act) :
    pairLoop yyF x l.length (l.flatMap fun ele => [(ele.sym : ℤ), ele.doThis]) =
      some (((l.find? fun p => (p.sym : ℤ) = x).map Act.doThis).getD yyF) := by
  have h :=
    pairLoop_eq yyF x (l.map fun ele => ((ele.sym : ℤ), ele.doThis)) (n := l.length) (by simp)
  rw [List.flatMap_map, List.take_of_length_le (by simp), List.find?_map, Option.map_map] at h
  exact h

/-- A row array as a C program gets it has its own cells when they fit into a `short`. -/
lemma map_toShort_rowCells {l : List Act} (h : ∀ v ∈ rowCells l, -2 ^ 15 ≤ v ∧ v < 2 ^ 15) :
    (rowCells l).map toShort = rowCells l := by
  conv_rhs => rw [← List.map_id (rowCells l)]
  apply List.map_congr_left
  intro v hv
  exact toShort_eq (h v hv).1 (h v hv).2

/-- What `print_tab` prints for a private index array. -/
lemma decodes_printTab (tab : Tab) (address : ℤ) {nstates : ℕ} {table : ℕ → List Act}
    (hn : nstates ≤ maxState)
    (hrange : ∀ s < nstates, ∀ v ∈ rowCells (table s), -2 ^ 15 ≤ v ∧ v < 2 ^ 15) :
    Decodes nstates table (printTab tab true address nstates table) tab.colName := by
  have hmark : Marked nstates table nstates (mark nstates table) :=
    marked_mark nstates table nstates
  have hname : ∀ i r, printRow tab.rowName (mark nstates table) i = some r →
      r.name = (tab.rowName, i) := by
    intro i r hr
    rw [hmark.printRow] at hr
    split at hr
    · cases hr
    · cases hr
      rfl
  have hprinted : ∀ r, r ∉ (mark nstates table).redundant → table r ≠ [] →
      printRow tab.rowName (mark nstates table) r =
      some ⟨(tab.rowName, r), rowCells (table r)⟩ := by
    intro r hr hne
    rw [hmark.printRow, if_neg (not_or.mpr ⟨hr, hne⟩)]
  -- the elements of the index array
  have hrow : ∀ i < nstates, (printTab tab true address nstates table).row toShort
      (printIndex tab.rowName (mark nstates table) i) =
        some (if table i = [] then none else some (rowCells (table i))) := by
    intro i hi
    rcases hmark.printIndex tab.rowName i with ⟨hnil, hindex⟩ | ⟨hne, r, hri, hindex, hr, heq⟩
    · rw [hindex, if_pos hnil]
      rfl
    · have hrn := hri.trans_lt hi
      have hfind := find?_rows hname hrn
      rw [hprinted r hr (heq ▸ hne)] at hfind
      rw [hindex, if_neg hne]
      change ((((List.range nstates).filterMap (printRow tab.rowName (mark nstates table))).find?
        fun q => q.name = (tab.rowName, r)).map fun q => q.cells.map toShort).map some = _
      rw [hfind, Option.map_some, Option.map_some, map_toShort_rowCells (hrange r hrn), heq]
  have hlen : (printTab tab true address nstates table).entries.length = nstates := by
    simp [printTab]
  refine ⟨(List.range nstates).map fun i => if table i = [] then none
    else some (rowCells (table i)), ?_, ?_, ?_⟩
  · unfold Listing.table
    rw [if_pos ⟨rfl, by rw [hlen]; exact le_rfl⟩]
    change ((List.range nstates).map (printIndex tab.rowName (mark nstates table))).mapM _ = _
    rw [List.mapM_map]
    apply mapM_eq_some
    intro i hi
    exact hrow i (List.mem_range.mp hi)
  · intro s hs x
    have hshort : toShort (s : ℤ) = s := by
      apply toShort_eq
      · omega
      · have hmax : maxState = 1024 := rfl
        omega
    unfold yyNext
    rw [hshort, Int.toNat_natCast, List.getElem?_map, List.getElem?_range hs, Option.map_some]
    unfold pAction
    by_cases hnil : table s = []
    · rw [if_pos hnil, hnil]
      rfl
    · rw [if_neg hnil]
      exact pairLoop_chain x (table s)
  · intro r hr
    obtain ⟨i, hi, hindex⟩ := List.mem_map.mp hr
    rw [List.mem_range] at hi
    rcases hmark.printIndex tab.rowName i with ⟨-, hnone⟩ | ⟨hne, q, hqi, hsome, hq, heq⟩
    · rw [hnone] at hindex
      cases hindex
    · rw [hsome, Option.some.injEq] at hindex
      rw [← hindex]
      exact count_rows hname (hqi.trans_lt hi) (hprinted q hq (heq ▸ hne))

/-- The text is a table for the chains exactly when the index array is private: a public one is
declared with a wrong name and size. -/
theorem printTab_decodes_iff (tab : Tab) (priv : Bool) (address : ℤ) {nstates : ℕ}
    {table : ℕ → List Act} (hn : nstates ≤ maxState)
    (hrange : ∀ s < nstates, ∀ v ∈ rowCells (table s), -2 ^ 15 ≤ v ∧ v < 2 ^ 15) :
    Decodes nstates table (printTab tab priv address nstates table) tab.colName ↔ priv = true := by
  cases priv with
  | true => exact iff_of_true (decodes_printTab tab address hn hrange) rfl
  | false =>
    refine iff_of_false ?_ (by decide)
    rintro ⟨t, ht, -⟩
    have hname : "s" ≠ tab.colName := by cases tab <;> decide
    have hindex : (printTab tab false address nstates table).index = "s" := rfl
    unfold Listing.table at ht
    rw [hindex, if_neg fun h => hname h.1] at ht
    cases ht

/-- Theorem `printTab_decodes_iff` for two states with the same chain. -/
theorem printTab_decodes_iff_shared :
    Decodes 2 (fun _ => [⟨1, 5⟩]) (printTab .action true 0 2 fun _ => [⟨1, 5⟩]) "Yy_action" ↔
    true = true :=
  printTab_decodes_iff .action true 0 (by decide) (by decide)

/-- The tables that are printed into a file of their own have no index array with the name that the
parser uses. -/
theorem not_decodes_public : ¬ ∀ (tab : Tab) (priv : Bool) (address : ℤ) (nstates : ℕ)
    (table : ℕ → List Act), nstates ≤ maxState →
    (∀ s < nstates, ∀ v ∈ rowCells (table s), -2 ^ 15 ≤ v ∧ v < 2 ^ 15) →
    Decodes nstates table (printTab tab priv address nstates table) tab.colName := by
  intro h
  obtain ⟨t, ht, -⟩ := h .action false 4096 1 (fun _ => [⟨1, 5⟩]) (by decide) (by decide)
  unfold Listing.table at ht
  rw [if_neg (by decide)] at ht
  cases ht

end Parser
