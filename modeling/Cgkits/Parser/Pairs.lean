import Cgkits.Parser.Tables

/-!
# Pair-compressed tables (`sys_pairs`, `sys_pnext`)

`sysPairs` prints a table row by row: a row with many transitions as an array behind a zero, one
with few as pairs of a column and an entry behind their number, and an empty row not at all.
`sysPnext` is the routine that llama prints for looking up an entry.  Llama stores all cells as
unsigned characters.

`sysPairs_decodes_iff` says when the lookup gives the table back.  It does not when the last row is
empty, since the index array names that row all the same; when an entry is 255 or more; and when the
number of pairs or a column of one does not fit into a cell (`PairsFit`).
-/

namespace Parser

/-! ## Constants -/

/-- A constant in the text: a number, or the characters between two single quotes. -/
inductive Const where
  | num (n : ℤ)
  | chr (s : List ℕ)
deriving DecidableEq

/-- An octal number with three digits, as `printf` writes it for `%03o`. -/
def octal (c : ℕ) : List ℕ := [48 + c / 64 % 8, 48 + c / 8 % 8, 48 + c % 8]

/-- The character of a hexadecimal digit, as `printf` writes it for `%x`. -/
def hexDigit (d : ℕ) : ℕ := if d < 10 then 48 + d else 87 + d

/-- `sys_bin_to_ascii`, the text of a byte in a character constant of C. -/
def binToAscii (c : ℕ) (useHex : Bool) : List ℕ :=
  let c := c % 256
  if 32 ≤ c ∧ c < 127 ∧ c ≠ 39 ∧ c ≠ 92 then [c]
  else
    match c with
    | 92 => [92, 92]
    | 39 => [92, 39]
    | 8 => [92, 98]
    | 12 => [92, 102]
    | 9 => [92, 116]
    | 13 => [92, 114]
    | 10 => [92, 110]
    | _ => if useHex then [92, 120, 48, hexDigit (c / 16), hexDigit (c % 16)] else 92 :: octal c

/-- The value of a character constant in C; a character is signed. -/
def charConst : List ℕ → Option ℤ
  | [92, 92] => some 92
  | [92, 39] => some 39
  | [92, 98] => some 8
  | [92, 102] => some 12
  | [92, 116] => some 9
  | [92, 114] => some 13
  | [92, 110] => some 10
  | [92, a, b, c] =>
    if (48 ≤ a ∧ a < 52) ∧ (48 ≤ b ∧ b < 56) ∧ 48 ≤ c ∧ c < 56 then
      some ((((a - 48) * 64 + (b - 48) * 8 + (c - 48) : ℕ) : ℤ).bmod 256)
    else none
  | [c] => if c ≠ 39 ∧ c ≠ 92 ∧ c < 128 then some c else none
  | _ => none

/-- The conversion of a constant to `YY_TTYPE`, which is `unsigned char`. -/
def Const.toUChar : Const → ℤ
  | .num n => n % 256
  | .chr s => ((charConst s).getD 0) % 256

/-- The character constant for a column is the column, as far as it fits into a cell. -/
lemma toUChar_binToAscii (c : ℕ) : (Const.chr (binToAscii c false)).toUChar = (c % 256 : ℕ) := by
  have h : ∀ c < 256, (Const.chr (binToAscii c false)).toUChar = (c : ℤ) := by decide +kernel
  have hc := h (c % 256) (Nat.mod_lt c (by decide))
  rwa [show binToAscii (c % 256) false = binToAscii c false by
    unfold binToAscii
    rw [Nat.mod_mod]] at hc

/-! ## `sys_pairs` -/

section Pairs

variable (array : ℕ → ℤ) (ncols : ℕ)

/-- The entry of a row and a column in the array, which is stored row by row. -/
def cell (i j : ℕ) : ℤ := array (i * ncols + j)

/-- `ntransitions` of a row, the number of its entries that are not `-1`. -/
def ntransitions (i : ℕ) : ℕ := (List.range ncols).countP fun j => cell array ncols i j ≠ -1

/-- The text of the row `i`: none, a row of all cells, or a list of pairs. -/
def pairsRow (name : String) (threshold : ℤ) (numbers : Bool) (i : ℕ) : Option (RowArray Const) :=
  if ntransitions array ncols i = 0 then none
  else if (ntransitions array ncols i : ℤ) > threshold then
    some ⟨(name, i), .num 0 :: (List.range ncols).map fun j => .num (cell array ncols i j)⟩
  else
    some ⟨(name, i), .num (ntransitions array ncols i) :: (List.range ncols).flatMap fun j =>
      if cell array ncols i j ≠ -1 then
        [if numbers then .num j else .chr (binToAscii j false), .num (cell array ncols i j)]
      else []⟩

/-- The element of the index array for a row that is not the last one. -/
def pairsIndex (name : String) (i : ℕ) : Option RowName :=
  if ntransitions array ncols i ≠ 0 then some (name, i) else none

/-- `sys_pairs`.  The last element of the index array is printed apart from the others. -/
def sysPairs (nrows : ℕ) (name : String) (threshold : ℤ) (numbers : Bool) : Listing Const where
  rows := (List.range nrows).filterMap (pairsRow array ncols name threshold numbers)
  index := name
  size := nrows
  entries := (List.range (nrows - 1)).map (pairsIndex array ncols name) ++ [some (name, nrows - 1)]

end Pairs

/-! ## `sys_pnext` -/

/-- `YYF` of llama, the entry of a table for an error. -/
def llamaF : ℤ := 255

/-- The body of the routine that `sys_pnext` prints; there is no result when it reads behind the
row. -/
def pnextRow (c : ℕ) : Option (List ℤ) → Option ℤ
  | none => some llamaF
  | some [] => none
  | some (i :: p) => if i = 0 then p[c]? else pairLoop llamaF c i.toNat p

/-- The routine that `sys_pnext` prints, which looks up a pair or a cell of a row. -/
def sysPnext (table : List (Option (List ℤ))) (curState c : ℕ) : Option ℤ :=
  table[curState]?.bind (pnextRow c)

/-- The result of a lookup is the entry, and `YYF` exactly for an entry `-1`. -/
def LooksUp (result : Option ℤ) (entry : ℤ) : Prop :=
  ∃ v, result = some v ∧ (entry ≠ -1 → v = entry) ∧ (v = llamaF ↔ entry = -1)

/-- The listing gives the table back: the lookup of every entry gives the entry, and `YYF` exactly
for an entry `-1`, and every row array in the index array is declared. -/
def PairsDecode (array : ℕ → ℤ) (nrows ncols : ℕ) (out : Listing Const) (name : String) : Prop :=
  ∃ tab, out.table Const.toUChar name = some tab ∧
    (∀ i < nrows, ∀ j < ncols, LooksUp (sysPnext tab i j) (cell array ncols i j)) ∧
    ∀ r, some r ∈ out.entries → r ∈ out.rows.map RowArray.name

/-- The pairs of a row, one after the other, in cells. -/
def pairCells (array : ℕ → ℤ) (ncols i : ℕ) : List ℤ :=
  (List.range ncols).flatMap fun j =>
    if cell array ncols i j ≠ -1 then [((j % 256 : ℕ) : ℤ), cell array ncols i j % 256] else []

/-- The table fits into llama's cells.  When the number of pairs is a multiple of 256, the row is
read as an array: the pairs have to be the row by chance. -/
structure PairsFit (array : ℕ → ℤ) (nrows ncols : ℕ) (threshold : ℤ) : Prop where
  /-- The last row has a transition. -/
  last : ntransitions array ncols (nrows - 1) ≠ 0
  /-- The entries are less than `YYF`. -/
  lt : ∀ i < nrows, ∀ j < ncols, cell array ncols i j < llamaF
  /-- The columns of the transitions fit into a cell, and so does the number of pairs. -/
  pairs : ∀ i < nrows, ntransitions array ncols i ≠ 0 →
    (ntransitions array ncols i : ℤ) ≤ threshold →
    (¬ 256 ∣ ntransitions array ncols i ∧ ∀ j < ncols, 256 ≤ j → cell array ncols i j = -1) ∨
      (256 ∣ ntransitions array ncols i ∧ ∀ j < ncols, (pairCells array ncols i)[j]? =
        some (if cell array ncols i j = -1 then llamaF else cell array ncols i j))

/-! ## One row -/

section Row

variable {array : ℕ → ℤ} {ncols i : ℕ}

/-- The transitions of a row, as pairs of a column and an entry in cells. -/
def transitions (array : ℕ → ℤ) (ncols i : ℕ) : List (ℤ × ℤ) :=
  ((List.range ncols).filter fun j => cell array ncols i j ≠ -1).map fun j =>
    (((j % 256 : ℕ) : ℤ), cell array ncols i j % 256)

/-- There are as many pairs of a column and an entry as transitions of the row. -/
lemma length_transitions : (transitions array ncols i).length = ntransitions array ncols i := by
  rw [transitions, List.length_map, ntransitions, List.countP_eq_length_filter]

/-- There are at most as many transitions as columns that fit into cells. -/
lemma ntransitions_le (hcols : ∀ j < ncols, 256 ≤ j → cell array ncols i j = -1) :
    ntransitions array ncols i ≤ 256 := by
  rw [ntransitions, List.countP_eq_length_filter]
  have hsub : (List.range ncols).filter (fun j => decide (cell array ncols i j ≠ -1)) ⊆
      List.range 256 := by
    intro j hj
    rw [List.mem_filter, List.mem_range, decide_eq_true_eq] at hj
    rw [List.mem_range]
    by_contra hge
    exact hj.2 (hcols j hj.1 (not_lt.mp hge))
  have hle := (List.nodup_range.filter _).subperm hsub |>.length_le
  rwa [List.length_range] at hle

/-- The pairs, one after the other, are the cells that a row of pairs holds. -/
lemma flatMap_transitions :
    ((transitions array ncols i).flatMap fun p => [p.1, p.2]) = pairCells array ncols i := by
  unfold transitions pairCells
  rw [List.flatMap_map]
  generalize List.range ncols = js
  induction js with
  | nil => rfl
  | cons j js ih =>
    rw [List.filter_cons, List.flatMap_cons]
    by_cases h : cell array ncols i j ≠ -1
    · rw [if_pos (decide_eq_true h), if_pos h, List.flatMap_cons, ih]
    · rw [if_neg (by simpa using h), if_neg h, ih]
      rfl

/-- A column without a transition has none with its number in a cell either, when the columns fit
into cells. -/
lemma find?_transitions_none {j : ℕ} (hcols : ∀ k < ncols, 256 ≤ k → cell array ncols i k = -1)
    (hj : cell array ncols i j = -1) :
    (transitions array ncols i).find? (fun p => p.1 = (j : ℤ)) = none := by
  rw [List.find?_eq_none]
  intro p hp
  obtain ⟨k, hk, rfl⟩ := List.mem_map.mp hp
  rw [List.mem_filter, List.mem_range, decide_eq_true_eq] at hk
  rw [decide_eq_true_eq]
  intro he
  have hlt : k < 256 := by
    by_contra hge
    exact hk.2 (hcols k hk.1 (not_lt.mp hge))
  rw [Nat.mod_eq_of_lt hlt, Nat.cast_inj] at he
  exact hk.2 (he ▸ hj)

/-- A column with a transition is found among the pairs of the row, with its entry as a byte. -/
lemma find?_transitions_some {j : ℕ} (hcols : ∀ k < ncols, 256 ≤ k → cell array ncols i k = -1)
    (hjn : j < ncols) (hj : cell array ncols i j ≠ -1) :
    (transitions array ncols i).find? (fun p => p.1 = (j : ℤ)) =
      some ((j : ℤ), cell array ncols i j % 256) := by
  have hfind : (List.range ncols).find? (fun k => decide (cell array ncols i k ≠ -1 ∧
      ((k % 256 : ℕ) : ℤ) = (j : ℤ))) = some j := by
    have hlt : ∀ k < ncols, cell array ncols i k ≠ -1 → k < 256 := by
      intro k hk hne
      by_contra hge
      exact hne (hcols k hk (not_lt.mp hge))
    rw [List.find?_range_eq_some]
    refine ⟨?_, List.mem_range.mpr hjn, ?_⟩
    · rw [Nat.mod_eq_of_lt (hlt j hjn hj)]
      simp [hj]
    · intro k hk
      by_cases hne : cell array ncols i k = -1
      · simp [hne]
      · rw [Nat.mod_eq_of_lt (hlt k (hk.trans hjn) hne)]
        simp [hk.ne]
  unfold transitions
  rw [List.find?_map, List.find?_filter]
  simp only [Function.comp_apply, decide_eq_true_eq]
  rw [hfind, Option.map_some]
  have hlt : j < 256 := by
    by_contra hge
    exact hj (hcols j hjn (not_lt.mp hge))
  rw [Nat.mod_eq_of_lt hlt]

/-- The cells of a row as a C program gets them, whose elements are bytes. -/
def rowOf (array : ℕ → ℤ) (ncols : ℕ) (threshold : ℤ) (i : ℕ) : Option (List ℤ) :=
  if ntransitions array ncols i = 0 then none
  else if (ntransitions array ncols i : ℤ) > threshold then
    some (0 :: (List.range ncols).map fun j => cell array ncols i j % 256)
  else some ((ntransitions array ncols i : ℤ) % 256 :: pairCells array ncols i)

/-- The text of a row, as a C program gets it, has the cells of the row as bytes. -/
lemma pairsRow_cells (array : ℕ → ℤ) (ncols i : ℕ) (name : String) (threshold : ℤ)
    (numbers : Bool) :
    (pairsRow array ncols name threshold numbers i).map (fun r => r.cells.map Const.toUChar) =
      rowOf array ncols threshold i := by
  unfold pairsRow rowOf
  by_cases hzero : ntransitions array ncols i = 0
  · rw [if_pos hzero, if_pos hzero]
    rfl
  · rw [if_neg hzero, if_neg hzero]
    by_cases hgt : (ntransitions array ncols i : ℤ) > threshold
    · rw [if_pos hgt, if_pos hgt, Option.map_some, List.map_cons, List.map_map]
      rfl
    · rw [if_neg hgt, if_neg hgt, Option.map_some, List.map_cons]
      have hcells : ((List.range ncols).flatMap fun j =>
          if cell array ncols i j ≠ -1 then
            [if numbers then .num j else .chr (binToAscii j false), .num (cell array ncols i j)]
          else []).map Const.toUChar = pairCells array ncols i := by
        unfold pairCells
        rw [List.map_flatMap]
        congr 1
        funext j
        by_cases h : cell array ncols i j ≠ -1
        · rw [if_pos h, if_pos h, List.map_cons, List.map_singleton]
          cases numbers with
          | true => rfl
          | false =>
            rw [if_neg Bool.false_ne_true, toUChar_binToAscii]
            rfl
        · rw [if_neg h, if_neg h]
          rfl
      rw [hcells]
      rfl

/-- The name of the text of a row is made of the name of the table and the number of the row. -/
lemma pairsRow_name {name : String} {threshold : ℤ} {numbers : Bool} {r : RowArray Const}
    (h : pairsRow array ncols name threshold numbers i = some r) : r.name = (name, i) := by
  unfold pairsRow at h
  split at h
  · cases h
  · split at h <;> cases h <;> rfl

/-- A lookup is right when it gives the entry, or `YYF` for no entry, and the entry is not `YYF`. -/
lemma looksUp_iff {result : Option ℤ} {entry : ℤ} : LooksUp result entry ↔
    result = some (if entry = -1 then llamaF else entry) ∧ entry ≠ llamaF := by
  unfold LooksUp
  by_cases he : entry = -1
  · rw [if_pos he, he]
    constructor
    · rintro ⟨v, hv, -, hf⟩
      exact ⟨hv.trans (congrArg some (hf.mpr rfl)), by decide⟩
    · rintro ⟨hr, -⟩
      exact ⟨llamaF, hr, fun hne => absurd rfl hne, iff_of_true rfl rfl⟩
  · rw [if_neg he]
    constructor
    · rintro ⟨v, hv, hve, hf⟩
      rw [hve he] at hv hf
      exact ⟨hv, fun h => he (hf.mp h)⟩
    · rintro ⟨hr, hne⟩
      exact ⟨entry, hr, fun _ => rfl, iff_of_false hne he⟩

/-- The numbers in the pairs are bytes, so that none is above `YYF`. -/
lemma mem_pairCells {v : ℤ} (h : v ∈ pairCells array ncols i) : v ≤ llamaF := by
  have hmax : llamaF = 255 := rfl
  obtain ⟨j, -, hv⟩ := List.mem_flatMap.mp h
  split at hv
  · simp only [List.mem_cons, List.not_mem_nil, or_false] at hv
    omega
  · cases hv

/-- The result of a search is a cell of the row, or `YYF`. -/
lemma pairLoop_le {c : ℤ} {n : ℕ} {p : List ℤ} {v : ℤ} (hp : ∀ x ∈ p, x ≤ llamaF)
    (h : pairLoop llamaF c n p = some v) : v ≤ llamaF := by
  induction n generalizing p with
  | zero =>
    rw [pairLoop, Option.some.injEq] at h
    exact h.ge
  | succ n ih =>
    rcases p with _ | ⟨s, _ | ⟨a, p⟩⟩
    · cases h
    · cases h
    · rw [pairLoop] at h
      split at h
      · cases h
        exact hp _ (by simp)
      · exact ih (fun x hx => hp x (by simp [hx])) h

/-- The result of a lookup is a byte, so that it is not above `YYF`. -/
lemma pnextRow_le {threshold : ℤ} {j : ℕ} {v : ℤ}
    (h : pnextRow j (rowOf array ncols threshold i) = some v) : v ≤ llamaF := by
  have hmax : llamaF = 255 := rfl
  unfold rowOf at h
  split at h
  · cases h
    exact le_rfl
  · split at h
    · rw [pnextRow, if_pos rfl] at h
      obtain ⟨k, -, rfl⟩ := List.mem_map.mp (List.mem_of_getElem? h)
      omega
    · rw [pnextRow] at h
      split at h
      · exact mem_pairCells (List.mem_of_getElem? h)
      · exact pairLoop_le (fun x hx => mem_pairCells hx) h

/-- The lookups in a row whose entries fit into cells. -/
lemma looksUp_row_iff {threshold : ℤ} (hge : ∀ j < ncols, -1 ≤ cell array ncols i j)
    (hlt : ∀ j < ncols, cell array ncols i j < llamaF) :
    (∀ j < ncols, LooksUp (pnextRow j (rowOf array ncols threshold i)) (cell array ncols i j)) ↔
      (ntransitions array ncols i ≠ 0 → (ntransitions array ncols i : ℤ) ≤ threshold →
        (¬ 256 ∣ ntransitions array ncols i ∧ ∀ j < ncols, 256 ≤ j → cell array ncols i j = -1) ∨
          (256 ∣ ntransitions array ncols i ∧ ∀ j < ncols, (pairCells array ncols i)[j]? =
            some (if cell array ncols i j = -1 then llamaF else cell array ncols i j))) := by
  have hmax : llamaF = 255 := rfl
  have hmod : ∀ j < ncols, cell array ncols i j % 256 =
      if cell array ncols i j = -1 then llamaF else cell array ncols i j := by
    intro j hj
    have h₁ := hge j hj
    have h₂ := hlt j hj
    split <;> omega
  have hup : ∀ j < ncols, ∀ result, (LooksUp result (cell array ncols i j) ↔
      result = some (if cell array ncols i j = -1 then llamaF else cell array ncols i j)) := by
    intro j hj result
    rw [looksUp_iff]
    exact and_iff_left (hlt j hj).ne
  unfold rowOf
  by_cases hzero : ntransitions array ncols i = 0
  · -- an empty row
    rw [if_pos hzero]
    refine iff_of_true (fun j hj => ?_) fun hne => absurd hzero hne
    have hnone : cell array ncols i j = -1 := by
      have hall := List.countP_eq_zero.mp hzero j (List.mem_range.mpr hj)
      simpa using hall
    rw [hup j hj, if_pos hnone]
    rfl
  · rw [if_neg hzero]
    by_cases hgt : (ntransitions array ncols i : ℤ) > threshold
    · -- an array
      rw [if_pos hgt]
      refine iff_of_true (fun j hj => ?_) fun _ hle => absurd hle (not_le.mpr hgt)
      rw [hup j hj, pnextRow, if_pos rfl, List.getElem?_map, List.getElem?_range hj,
        Option.map_some, hmod j hj]
    · rw [if_neg hgt]
      have hle := not_lt.mp hgt
      have hguard : ∀ p : Prop, (ntransitions array ncols i ≠ 0 →
          (ntransitions array ncols i : ℤ) ≤ threshold → p) ↔ p :=
        fun p => ⟨fun h => h hzero hle, fun h _ _ => h⟩
      rw [hguard]
      by_cases hdvd : 256 ∣ ntransitions array ncols i
      · -- the number of pairs is stored as zero
        have hcount : (ntransitions array ncols i : ℤ) % 256 = 0 := by omega
        simp only [hdvd, not_true_eq_false, false_and, false_or, true_and]
        rw [hcount]
        refine forall_congr' fun j => forall_congr' fun hj => ?_
        rw [hup j hj, pnextRow, if_pos rfl]
      · have hcount : (ntransitions array ncols i : ℤ) % 256 ≠ 0 := by omega
        have hnat : ((ntransitions array ncols i : ℤ) % 256).toNat = ntransitions array ncols i %
            256 := by
          omega
        have hlook : ∀ j, pnextRow j (some ((ntransitions array ncols i : ℤ) % 256 ::
            pairCells array ncols i)) =
            some (((((transitions array ncols i).take (ntransitions array ncols i % 256)).find?
              fun p => p.1 = (j : ℤ)).map Prod.snd).getD llamaF) := by
          intro j
          rw [pnextRow, if_neg hcount, hnat, ← flatMap_transitions]
          apply pairLoop_eq
          rw [length_transitions]
          exact Nat.mod_le _ _
        simp only [hdvd, not_false_eq_true, true_and, false_and, or_false]
        constructor
        · -- a column that does not fit is not found
          intro hall j hj hbig
          by_contra hne
          have hj' := hall j hj
          rw [hup j hj, hlook, if_neg hne, Option.some.injEq] at hj'
          have hnone : ((transitions array ncols i).take (ntransitions array ncols i % 256)).find?
              (fun p => p.1 = (j : ℤ)) = none := by
            rw [List.find?_eq_none]
            intro p hp
            obtain ⟨k, -, rfl⟩ := List.mem_map.mp (List.mem_of_mem_take hp)
            rw [decide_eq_true_eq]
            intro he
            have := Nat.mod_lt k (show 0 < 256 by decide)
            omega
          rw [hnone] at hj'
          exact (hlt j hj).ne hj'.symm
        · intro hcols j hj
          have hsmall : ntransitions array ncols i % 256 = (transitions array ncols i).length := by
            rw [length_transitions]
            apply Nat.mod_eq_of_lt
            refine lt_of_le_of_ne (ntransitions_le hcols) ?_
            intro he
            rw [he] at hdvd
            exact hdvd (Nat.dvd_refl 256)
          rw [hup j hj, hlook, hsmall, List.take_length]
          by_cases hne : cell array ncols i j = -1
          · rw [find?_transitions_none hcols hne, if_pos hne]
            rfl
          · rw [find?_transitions_some hcols hj hne, ← hmod j hj]
            rfl

end Row

/-! ## The whole table -/

section Table

variable {array : ℕ → ℤ} {nrows ncols : ℕ} {name : String} {threshold : ℤ} {numbers : Bool}

/-- The element of the index array for a row leads to the cells of this row. -/
lemma row_pairsIndex {i : ℕ} (hi : i < nrows) :
    (sysPairs array ncols nrows name threshold numbers).row Const.toUChar
      (pairsIndex array ncols name i) = some (rowOf array ncols threshold i) := by
  have hcells := pairsRow_cells array ncols i name threshold numbers
  unfold pairsIndex
  by_cases hzero : ntransitions array ncols i = 0
  · rw [if_neg (not_not.mpr hzero), rowOf, if_pos hzero]
    rfl
  · rw [if_pos hzero]
    change ((((List.range nrows).filterMap (pairsRow array ncols name threshold numbers)).find?
      fun r => r.name = (name, i)).map fun r => r.cells.map Const.toUChar).map some = _
    rw [find?_rows (fun _ _ h => pairsRow_name h) hi, hcells]
    unfold rowOf
    rw [if_neg hzero]
    split <;> rfl

/-- The table that a C program gets when the last row is not empty. -/
lemma table_sysPairs (hpos : 0 < nrows) (hlast : ntransitions array ncols (nrows - 1) ≠ 0) :
    (sysPairs array ncols nrows name threshold numbers).table Const.toUChar name =
      some ((List.range nrows).map (rowOf array ncols threshold)) := by
  have hentries : (sysPairs array ncols nrows name threshold numbers).entries =
      (List.range nrows).map (pairsIndex array ncols name) := by
    obtain ⟨k, rfl⟩ : ∃ k, nrows = k + 1 := ⟨nrows - 1, by omega⟩
    rw [Nat.add_sub_cancel] at hlast
    rw [List.range_succ, List.map_append, List.map_singleton]
    unfold sysPairs pairsIndex
    rw [if_pos hlast, Nat.add_sub_cancel]
  unfold Listing.table
  rw [if_pos ⟨rfl, by rw [hentries, List.length_map, List.length_range]; exact le_rfl⟩, hentries,
    List.mapM_map]
  apply mapM_eq_some
  intro i hi
  exact row_pairsIndex (List.mem_range.mp hi)

/-- There is no table when the last row is empty: the index array names an array that is not
declared. -/
lemma last_of_table {tab : List (Option (List ℤ))} (hpos : 0 < nrows)
    (h : (sysPairs array ncols nrows name threshold numbers).table Const.toUChar name = some tab) :
    ntransitions array ncols (nrows - 1) ≠ 0 := by
  intro hzero
  have hrow : (sysPairs array ncols nrows name threshold numbers).row Const.toUChar
      (some (name, nrows - 1)) = none := by
    have hcells := pairsRow_cells array ncols (nrows - 1) name threshold numbers
    change ((((List.range nrows).filterMap (pairsRow array ncols name threshold numbers)).find?
      fun r => r.name = (name, nrows - 1)).map fun r => r.cells.map Const.toUChar).map some = _
    rw [find?_rows (fun _ _ h => pairsRow_name h) (Nat.sub_lt hpos Nat.one_pos), hcells, rowOf,
      if_pos hzero]
    rfl
  unfold Listing.table at h
  split at h
  · change (((List.range (nrows - 1)).map (pairsIndex array ncols name)) ++
      [some (name, nrows - 1)]).mapM _ = some tab at h
    rw [List.mapM_append] at h
    obtain ⟨l, -, h⟩ := Option.bind_eq_some_iff.mp h
    obtain ⟨l', h', -⟩ := Option.bind_eq_some_iff.mp h
    rw [List.mapM_cons, hrow] at h'
    cases h'
  · cases h

/-- The text gives the table back exactly when the table fits into llama's cells. -/
theorem sysPairs_decodes_iff (array : ℕ → ℤ) {nrows ncols : ℕ} (name : String) (threshold : ℤ)
    (numbers : Bool) (hpos : 0 < nrows)
    (hentry : ∀ i < nrows, ∀ j < ncols, -1 ≤ cell array ncols i j ∧
    cell array ncols i j < maxProd) :
    PairsDecode array nrows ncols (sysPairs array ncols nrows name threshold numbers) name ↔
      PairsFit array nrows ncols threshold := by
  have hmax : llamaF = 255 := rfl
  have hlookup : ∀ i < nrows, ∀ j,
      sysPnext ((List.range nrows).map (rowOf array ncols threshold)) i j =
        pnextRow j (rowOf array ncols threshold i) := by
    intro i hi j
    unfold sysPnext
    rw [List.getElem?_map, List.getElem?_range hi]
    rfl
  constructor
  · rintro ⟨tab, htab, hall, -⟩
    have hlast := last_of_table hpos htab
    rw [table_sysPairs hpos hlast, Option.some.injEq] at htab
    subst htab
    have hlt : ∀ i < nrows, ∀ j < ncols, cell array ncols i j < llamaF := by
      intro i hi j hj
      obtain ⟨v, hv, hne, hf⟩ := hall i hi j hj
      rw [hlookup i hi j] at hv
      have hle := pnextRow_le hv
      by_cases he : cell array ncols i j = -1
      · omega
      · have hv' := hne he
        have hvf : v ≠ llamaF := fun h => he (hf.mp h)
        omega
    refine ⟨hlast, hlt, ?_⟩
    intro i hi
    refine (looksUp_row_iff (fun j hj => (hentry i hi j hj).1) (hlt i hi)).mp ?_
    intro j hj
    rw [← hlookup i hi j]
    exact hall i hi j hj
  · rintro ⟨hlast, hlt, hpairs⟩
    refine ⟨_, table_sysPairs hpos hlast, ?_, ?_⟩
    · intro i hi j hj
      rw [hlookup i hi j]
      exact (looksUp_row_iff (fun j hj => (hentry i hi j hj).1) (hlt i hi)).mpr (hpairs i hi) j hj
    · intro r hr
      have hname : ∀ i < nrows, ntransitions array ncols i ≠ 0 →
          (name, i) ∈ (sysPairs array ncols nrows name threshold numbers).rows.map
          RowArray.name := by
        intro i hi hne
        obtain ⟨q, hq⟩ : ∃ q, pairsRow array ncols name threshold numbers i = some q := by
          unfold pairsRow
          rw [if_neg hne]
          split <;> exact ⟨_, rfl⟩
        rw [← pairsRow_name hq]
        exact List.mem_map_of_mem (List.mem_filterMap.mpr ⟨i, List.mem_range.mpr hi, hq⟩)
      rcases List.mem_append.mp hr with hr | hr
      · obtain ⟨i, hi, hindex⟩ := List.mem_map.mp hr
        rw [List.mem_range] at hi
        unfold pairsIndex at hindex
        split at hindex
        · rename_i hne
          cases hindex
          exact hname i (by omega) hne
        · cases hindex
      · rw [List.mem_singleton, Option.some.injEq] at hr
        rw [hr]
        exact hname _ (Nat.sub_lt hpos Nat.one_pos) hlast

/-- Theorem `sysPairs_decodes_iff` for a table with one row that is stored as a pair. -/
theorem sysPairs_decodes_iff_one :
    PairsDecode (fun j => if j = 1 then 7 else -1) 1 3
        (sysPairs (fun j => if j = 1 then 7 else -1) 3 1 "Yyd" 4 true) "Yyd" ↔
      PairsFit (fun j => if j = 1 then 7 else -1) 1 3 4 :=
  sysPairs_decodes_iff (fun j => if j = 1 then 7 else -1) "Yyd" 4 true (by decide) (by decide)

/-- A table with one empty row: the index array names a row array that is not declared. -/
theorem not_pairsDecode_empty : ¬ ∀ (array : ℕ → ℤ) (nrows ncols : ℕ) (name : String)
    (threshold : ℤ) (numbers : Bool), 0 < nrows → 0 < ncols →
    (∀ i < nrows, ∀ j < ncols, -1 ≤ cell array ncols i j ∧ cell array ncols i j < maxProd) →
    PairsDecode array nrows ncols (sysPairs array ncols nrows name threshold numbers) name := by
  intro h
  obtain ⟨tab, -, -, hrows⟩ := h (fun _ => -1) 1 1 "Yyd" 4 true (by decide) (by decide) (by decide)
  have hmem := hrows ("Yyd", 0) (by decide)
  revert hmem
  decide

end Table

end Parser
