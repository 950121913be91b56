import Cgkits.Parser.Family
import Cgkits.Support.Sort
import Mathlib.Data.List.TakeWhile

/-!
# Sorting the items of a closure (`yystate.c`)

`lr` sorts the items of a closure with `sys_ssort` and `item_cmp`.  `elems_sysSsort` states that
this is `sortItems` of the model of `lr`.  Then the items with the same symbol right of the dot are
together, and the items of empty productions come first (`Arranged`).
-/

namespace Parser

open Grammar (listGrammar listFirst)
open Support (PreorderCmp SortsArrays sysSsort elems intMax)

/-- `item_cmp`.  The numbers are far below `2 ^ 31`, so the differences of unsigned numbers are
those of the integers. -/
def itemCmp (item1 item2 : Item) : ℤ :=
  let rval : ℤ := rodVal item1.core - rodVal item2.core
  if rval = 0 then
    let rval : ℤ := item1.prod.num - item2.prod.num
    if rval = 0 then item1.dotPosn - item2.dotPosn else rval
  else rval

/-- How `lr` needs its items: those with the same symbol right of the dot stand together. -/
structure Arranged (l : List Item) : Prop where
  /-- Between two items with the same symbol right of the dot there are only such items. -/
  together : ∀ (i j k : ℕ) x y z, i < j → j < k → l[i]? = some x → l[j]? = some y → l[k]? = some z →
    rightOfDot x.core = rightOfDot z.core → rightOfDot y.core = rightOfDot x.core
  /-- The items of empty productions are a leading run. -/
  first : ∃ m, ∀ (k : ℕ) x, l[k]? = some x → (k < m ↔ x.prod.rhs = [])

/-! ## The comparison -/

/-- Two items may stay where they are if the model of `lr` says so. -/
lemma mayStay_itemCmp (i j : Item) : Support.mayStay itemCmp i j = coreLe i.core j.core := by
  rw [Bool.eq_iff_iff, Support.mayStay, decide_eq_true_iff, itemCmp, coreLe]
  dsimp only [Item.core]
  split_ifs <;> grind

/-- `sys_ssort` with the comparison of `lr` sorts the items as the model by value does. -/
theorem elems_sysSsort {r : Region Item} (h : 3 * (r.size : ℤ) + 1 ≤ intMax) :
    ∃ r', sysSsort itemCmp r.size r = .ok r' ∧ elems r' = sortItems (elems r) := by
  refine ⟨_, Support.sysSsort_eq h, ?_⟩
  have hle : Support.mayStay itemCmp = fun i j => coreLe i.core j.core := by
    funext i j
    exact mayStay_itemCmp i j
  rw [hle]
  exact ShellSort.toList_sortArray_eq

/-! ## The order -/

namespace Grammar

variable {G : Grammar} {F : SetTable} {kernel cl items : List Item} {fuel : ℕ}

/-- The value of the symbol right of the dot tells which symbol it is, if any. -/
lemma rightOfDot_eq_of_rodVal_eq {c d : Core} (hc : c.1 ∈ G.prods) (hd : d.1 ∈ G.prods)
    (h : rodVal c = rodVal d) : rightOfDot c = rightOfDot d := by
  cases hx : rightOfDot c with
  | none =>
    rw [rightOfDot_eq_none_iff hc, h] at hx
    exact ((rightOfDot_eq_none_iff hd).mpr hx).symm
  | some x =>
    rw [rightOfDot_eq_some_iff hc, h] at hx
    exact ((rightOfDot_eq_some_iff hd).mpr hx).symm

/-- The elements in front that have a property are those with positions below their number, if none
of the others has it. -/
lemma lt_length_takeWhile_iff {α : Type*} {f : α → Bool} {l : List α}
    (h : ∀ x ∈ l.dropWhile f, f x = false) {k : ℕ} {x : α} (hx : l[k]? = some x) :
    k < (l.takeWhile f).length ↔ f x = true := by
  rw [← List.takeWhile_append_dropWhile (p := f) (l := l)] at hx
  constructor
  · intro hk
    rw [List.getElem?_append_left hk] at hx
    exact List.mem_takeWhile_imp (List.mem_of_getElem? hx)
  · intro hfx
    by_contra hk
    rw [List.getElem?_append_right (Nat.le_of_not_lt hk)] at hx
    exact absurd (hfx.symm.trans (h x (List.mem_of_getElem? hx))) nofun

/-- The items of empty productions are a leading run of the sorted items of a closure. -/
lemma lt_length_emptyOccs_iff (hK : ∀ i ∈ kernel, i.prod ∈ G.prods)
    (hcl : G.closure F fuel kernel = some cl) (hitems : kclosure kernel cl = some items) {k : ℕ}
    {x : Item} (hx : (sortItems items)[k]? = some x) :
    k < (G.emptyOccs (kernel.map Item.core)).length ↔ x.prod.rhs = [] := by
  have hcores : ∀ c ∈ kernel.map Item.core, c.1 ∈ G.prods := List.forall_mem_map.mpr hK
  obtain ⟨htake, hdrop⟩ := takeWhile_sortedOccs hcores (core_itemAt kernel cl)
  rw [← sortItems_eq hcl hitems] at htake hdrop
  have hrest :
      ∀ y ∈ (sortItems items).dropWhile (fun i => i.prod.rhs = []), decide (y.prod.rhs = []) =
        false := by
    intro y hy
    rw [hdrop] at hy
    obtain ⟨o, ho, rfl⟩ := List.mem_map.mp hy
    obtain ⟨ho, hsome⟩ := List.mem_filter.mp ho
    have hprod : (itemAt kernel cl o).prod = o.core.1 := congrArg Prod.fst (core_itemAt kernel cl o)
    rw [decide_eq_false_iff_not, hprod, rhs_eq_nil_iff (mem_sortedOccs.mp ho)]
    intro hnone
    rw [hnone] at hsome
    cases hsome
  rw [← List.length_map (itemAt kernel cl), ← htake, lt_length_takeWhile_iff hrest hx,
    decide_eq_true_iff]

/-- The sorted items of a closure are arranged as `lr` needs them. -/
theorem arranged_sortItems (hK : ∀ i ∈ kernel, i.prod ∈ G.prods)
    (hcl : G.closure F fuel kernel = some cl) (hitems : kclosure kernel cl = some items) :
    Arranged (sortItems items) := by
  have hcores : ∀ c ∈ kernel.map Item.core, c.1 ∈ G.prods := List.forall_mem_map.mpr hK
  have heq := sortItems_eq hcl hitems
  refine ⟨?_, _, fun k x hx => lt_length_emptyOccs_iff hK hcl hitems hx⟩
  have hsorted : (sortItems items).Pairwise fun i j => rodVal i.core ≤ rodVal j.core := by
    rw [heq, List.pairwise_map]
    apply (pairwise_sortedOccs (kernel.map Item.core)).imp
    intro o o' hle
    rwa [core_itemAt, core_itemAt]
  have hprods : ∀ x ∈ sortItems items, x.core.1 ∈ G.prods := by
    intro x hx
    rw [heq] at hx
    obtain ⟨o, ho, rfl⟩ := List.mem_map.mp hx
    rw [core_itemAt]
    exact prod_mem_of_mem_occs hcores (mem_sortedOccs.mp ho)
  intro i j k x y z hij hjk hx hy hz hxz
  obtain ⟨hi, rfl⟩ := List.getElem?_eq_some_iff.mp hx
  obtain ⟨hj, rfl⟩ := List.getElem?_eq_some_iff.mp hy
  obtain ⟨hk, rfl⟩ := List.getElem?_eq_some_iff.mp hz
  have hle := List.pairwise_iff_getElem.mp hsorted i j hi hj hij
  have hle' := List.pairwise_iff_getElem.mp hsorted j k hj hk hjk
  have hval : rodVal (sortItems items)[i].core = rodVal (sortItems items)[k].core := by
    unfold rodVal
    rw [hxz]
  exact rightOfDot_eq_of_rodVal_eq (hprods _ (List.getElem_mem hj)) (hprods _ (List.getElem_mem hi))
    (by omega)

end Grammar

/-- `sys_ssort` sorts every array for every total preorder, and no element outside of the array is
touched.  With `item_cmp` the items that `lr` has collected for a state are arranged: those with the
same symbol right of the dot are together, and those of empty productions are a leading run. -/
theorem sysSsort_spec :
    (∀ (α : Type) (cmp : α → α → ℤ), PreorderCmp cmp → SortsArrays cmp) ∧
      ∀ (G : Grammar) (F : SetTable) (fuel : ℕ)
        (kernel cl items : List Item), (∀ i ∈ kernel, i.prod ∈ G.prods) →
        G.closure F fuel kernel = some cl → kclosure kernel cl = some items → ∀ r :
        Region Item, elems r = items → ∃ r', sysSsort itemCmp r.size r = .ok r' ∧
        (elems r').Perm items ∧
          Arranged (elems r') := by
  refine ⟨fun α cmp h => Support.sorts_of_preorderCmp h, ?_⟩
  rintro G F fuel kernel cl items hK hcl hitems r rfl
  have hlen :
    (elems r).length = r.size := by rw [elems, ShellSort.toList, List.length_map, List.length_range]
  have hmax : r.size ≤ maxClose := by
    have hitems := hitems
    unfold kclosure at hitems
    dsimp only at hitems
    split at hitems
    · cases hitems
    · rename_i hle
      rw [Option.some.injEq] at hitems
      rw [hitems, hlen] at hle
      exact Nat.le_of_not_lt hle
  have hfit : 3 * (r.size : ℤ) + 1 ≤ intMax := by
    have hint : 3 * (maxClose : ℤ) + 1 ≤ intMax := by decide
    omega
  obtain ⟨r', hrun, helems⟩ := elems_sysSsort hfit
  refine ⟨r', hrun, ?_, ?_⟩
  · rw [helems]
    exact ShellSort.shellSort_perm _ _
  · rw [helems]
    exact Grammar.arranged_sortItems hK hcl hitems

/-- Integers are sorted by their difference, and the items of the first state of `listGrammar` are
arranged. -/
theorem sysSsort_spec_list :
    SortsArrays (fun x y : ℤ => x - y) ∧ ∃ cl items,
      listGrammar.closure listFirst 10 [⟨⟨0, 256, [257], 0⟩, 0, {eoi}⟩] = some cl ∧
      kclosure [⟨⟨0, 256, [257], 0⟩, 0, {eoi}⟩] cl = some items ∧
      ∀ r : Region Item, elems r = items → ∃ r', sysSsort itemCmp r.size r = .ok r' ∧
        (elems r').Perm items ∧ Arranged (elems r') := by
  have hint : PreorderCmp fun x y : ℤ => x - y := by
    constructor
    · intro x y
      omega
    · intro x y z hxy hyz
      omega
  have hsome : ((listGrammar.closure listFirst 10 [⟨⟨0, 256, [257], 0⟩, 0, {eoi}⟩]).bind
      (kclosure [⟨⟨0, 256, [257], 0⟩, 0, {eoi}⟩])).isSome = true := by decide +kernel
  obtain ⟨items, h⟩ := Option.isSome_iff_exists.mp hsome
  obtain ⟨cl, hcl, hitems⟩ := Option.bind_eq_some_iff.mp h
  exact ⟨sysSsort_spec.1 ℤ _ hint, cl, items, hcl, hitems,
    sysSsort_spec.2 listGrammar listFirst 10 _ cl items (by decide) hcl hitems⟩

end Parser
