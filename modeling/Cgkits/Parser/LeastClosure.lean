import Cgkits.Lib.Loop
import Cgkits.Lib.Machine
import Cgkits.Parser.Closure
import Mathlib.Data.Set.Card
import Mathlib.Order.Bounds.Defs

/-!
# The closure is the least one (`yystate.c`)

`closure_spec` says what `closure` returns when it returns.  This file adds that the loop comes to
an end, and states the result without the loop.

The loop of `closure` is a machine: a pass leads to the next state, to the fatal error of
`do_close`, or to the end.  `closureRun` keeps the fatal error and a run that is cut off apart,
which `closure` does not.  What carries termination is the size of the array, one for each item and
one for each lookahead: a pass that sets the flag `did_something` makes it grow (`Progress`), and it
is bounded, since there are at most `maxClose` items and the lookaheads come from the grammar and
from the kernel (`Contained`).

The rule for the lookaheads is `LookClosed`.  It speaks of the symbols behind the nonterminal that
the dot stands in front of: `Leads` are the terminals that can come first there, and `Vanishes` says
that all of them can be passed.  Both are relative to the FIRST sets in the table.
`closure_isLeast` states that the closure items have the least family of lookahead sets with this
rule.
-/

namespace Parser

namespace Grammar

variable (G : Grammar) (F : SetTable)

/-! ## The rule -/

/-- `FIRST` of a sequence without the marker: the terminals to which the scan of the sequence
leads. -/
def Leads (γ : List ℕ) (t : ℕ) : Prop := t ≠ G.epsilon ∧ ∃ y, G.Front F γ y ∧ FirstOf F y t

/-- The sequence is empty, or all its symbols can be passed. -/
def Vanishes (γ : List ℕ) : Prop := ∀ x ∈ γ, G.Passed F x

/-- What an item with the lookaheads `L` gives to the productions of the nonterminal right of its
dot. -/
def gives (c : Core) (L : Set ℕ) : Set ℕ :=
  {t | G.Leads F (afterDot c) t ∨ (G.Vanishes F (afterDot c) ∧ t ∈ L)}

/-- The production belongs to a nonterminal that stands right of a dot in the closure. -/
def Demanded (K : List Core) (p : Production) : Prop :=
  ∃ c x, G.InClosure K c ∧ rightOfDot c = some x ∧ IsNonterm x ∧ p ∈ G.productions x

/-- A family of lookahead sets that is closed under what the items of the kernel and the productions
of the closure give. -/
structure LookClosed (kernel : List Item) (look : Production → Set ℕ) : Prop where
  /-- The look-ahead that an item of the kernel gives. -/
  kern : ∀ i ∈ kernel, ∀ x p, rightOfDot i.core = some x → IsNonterm x → p ∈ G.productions x →
    G.gives F i.core i.lookaheads ⊆ look p
  /-- A production of the closure. -/
  clos : ∀ q, G.Demanded (kernel.map Item.core) q → ∀ x p, rightOfDot (q, 0) = some x →
    IsNonterm x → p ∈ G.productions x → G.gives F (q, 0) (look q) ⊆ look p

variable {G F}

/-- The scan of what follows finds the terminals that can come first. -/
lemma mem_firstAfter {c : Core} {t : ℕ} : t ∈ G.firstAfter F c ↔ G.Leads F (afterDot c) t := by
  unfold firstAfter Leads firstRhs
  by_cases hnil : afterDot c = []
  · simp [hnil]
  · have hlen : ¬ (afterDot c).length ≤ 0 := by simpa using hnil
    rw [if_neg hnil, if_neg hlen, Finset.mem_erase, mem_firstScan]
    simp

/-- The scan of what follows comes to the end when everything can be passed. -/
lemma nullableAfter_iff {c : Core} : G.NullableAfter F c ↔ G.Vanishes F (afterDot c) := by
  unfold NullableAfter Vanishes firstRhs
  by_cases hnil : afterDot c = []
  · simp [hnil]
  · have hlen : ¬ (afterDot c).length ≤ 0 := by simpa using hnil
    rw [if_neg hlen, firstScan_snd]
    simp [hnil]

/-- `do_close` contributes what the item gives to the least closure. -/
lemma coe_contribution (c : Core) (look : Finset ℕ) :
    (G.contribution F c look : Set ℕ) = G.gives F c look := by
  ext t
  rw [Finset.mem_coe, mem_contribution, mem_firstAfter, nullableAfter_iff]
  rfl

/-- What the occurrences must have is closed under the rule. -/
lemma lookClosed_occLook (kernel : List Item) :
    G.LookClosed F kernel fun p => {t | G.OccLook F kernel (.clos p) t} where
  kern i hi x p hx hn hp := by
    rw [← coe_contribution]
    exact fun t ht => occLook_of_mem_kernel hi hx hn hp ht
  clos q hq x p hx hn hp := by
    rintro t (ht | ⟨hvan, ht⟩)
    · have hmem := mem_closureProds.mpr hq
      exact .first (o := .clos q) (clos_mem_occs.mpr hmem) hx hn hp (mem_firstAfter.mpr ht)
    · exact .inherit ht hx hn hp (nullableAfter_iff.mpr hvan)

/-- A production of the closure belongs to the closure with the dot at the start. -/
lemma Demanded.inClosure {K : List Core} {p : Production} (h : G.Demanded K p) :
    G.InClosure K (p, 0) := by
  obtain ⟨c, x, hc, hx, hn, hp⟩ := h
  exact .clos hc hx hn hp

/-- A family that is closed under the rule has what the occurrences must have. -/
lemma LookClosed.mem_of_occLook {kernel : List Item} {look : Production → Set ℕ}
    (hlook : G.LookClosed F kernel look) {o : Occ} {t : ℕ} (h : G.OccLook F kernel o t) :
    match o with
    | .clos p => G.Demanded (kernel.map Item.core) p ∧ t ∈ look p
    | .kern _ c => ∃ i ∈ kernel, i.core = c ∧ t ∈ i.lookaheads := by
  -- an item of the kernel belongs to the closure
  have hkern : ∀ i ∈ kernel, G.InClosure (kernel.map Item.core) i.core :=
    fun i hi => .kern (List.mem_map_of_mem hi)
  induction h with
  | @kern k i t hk ht => exact ⟨i, List.mem_of_getElem? hk, rfl, ht⟩
  | @first o x p t ho hx hn hp ht =>
    have hlead : G.Leads F (afterDot o.core) t := mem_firstAfter.mp ht
    rcases o with q | ⟨k, c⟩
    · have hq : G.Demanded (kernel.map Item.core) q := mem_closureProds.mp (clos_mem_occs.mp ho)
      exact ⟨⟨_, x, hq.inClosure, hx, hn, hp⟩, hlook.clos q hq x p hx hn hp (Or.inl hlead)⟩
    · have hk := (kern_mem_occs.mp ho).1
      rw [List.getElem?_map] at hk
      obtain ⟨i, hi, rfl⟩ := Option.map_eq_some_iff.mp hk
      have hmem := List.mem_of_getElem? hi
      exact ⟨⟨_, x, hkern i hmem, hx, hn, hp⟩, hlook.kern i hmem x p hx hn hp (Or.inl hlead)⟩
  | @inherit o x p t hocc hx hn hp hnull ih =>
    have hvan : G.Vanishes F (afterDot o.core) := nullableAfter_iff.mp hnull
    rcases o with q | ⟨k, c⟩
    · obtain ⟨hq, hqt⟩ := ih
      exact ⟨⟨_, x, hq.inClosure, hx, hn, hp⟩, hlook.clos q hq x p hx hn hp (Or.inr ⟨hvan, hqt⟩)⟩
    · obtain ⟨i, hi, rfl, hti⟩ := ih
      exact ⟨⟨_, x, hkern i hi, hx, hn, hp⟩, hlook.kern i hi x p hx hn hp (Or.inr ⟨hvan, hti⟩)⟩

/-- What the occurrences must have is the least family that is closed under the rule. -/
lemma isLeast_occLook (kernel : List Item) :
    IsLeast {look | G.LookClosed F kernel look} fun p => {t | G.OccLook F kernel (.clos p) t} := by
  refine ⟨lookClosed_occLook kernel, ?_⟩
  intro look hlook p t ht
  exact (hlook.mem_of_occLook ht).2

/-! ## The end of the loop -/

variable (G F) in
/-- The loop of `closure` as a machine: a pass leads to the next state or to the fatal error, and
without the flag the loop ends. -/
def closeStep : List Item × Bool → (List Item × Bool) ⊕ Option (List Item)
  | (items, true) =>
    match G.closePass F items with
    | none => .inr none
    | some st => .inl st
  | (items, false) => .inr (some items)

variable (G F) in
/-- `closure`, with the fatal error as a result of its own: `some none`. -/
def closureRun (fuel : ℕ) (kernel : List Item) : Option (Option (List Item)) :=
  match G.kernelPass F kernel with
  | none => some none
  | some st => Machine.run (G.closeStep F) fuel st

/-- The loop of `closure` is the run of the machine that makes one pass in each step. -/
lemma closeLoop_eq_run (n : ℕ) (st : List Item × Bool) :
    G.closeLoop F n st = (Machine.run (G.closeStep F) n st).join := by
  induction n generalizing st with
  | zero => rfl
  | succ n ih =>
    obtain ⟨items, flag⟩ := st
    rcases flag with _ | _
    · rfl
    · rw [closeLoop, if_pos rfl, Machine.run, closeStep]
      rcases G.closePass F items with _ | st
      · rfl
      · exact ih st

/-- `closure` has the items of `closureRun`, when that has any. -/
theorem closure_eq_closureRun (fuel : ℕ) (kernel : List Item) :
    G.closure F fuel kernel = (G.closureRun F fuel kernel).join := by
  unfold closure closureRun
  rcases G.kernelPass F kernel with _ | st
  · rfl
  · exact closeLoop_eq_run fuel st

variable (G F) in
/-- The lookaheads that can occur in the closure of a kernel. -/
def spread (kernel : List Item) : Finset ℕ :=
  kernel.toFinset.biUnion (fun i => i.lookaheads ∪ G.firstAfter F i.core) ∪
    (G.closureProds (kernel.map Item.core)).toFinset.biUnion fun p => G.firstAfter F (p, 0)

variable (G F) in
/-- The bounds of the closure items: productions of the closure, lookaheads that can occur, and no
more items than fit into the array. -/
structure Contained (kernel items : List Item) : Prop where
  /-- No production twice, the dots at the start, and lookaheads that can occur. -/
  inv : ClosInv (fun _ t => t ∈ G.spread F kernel) items
  /-- Productions of the closure. -/
  mem : ∀ i ∈ items, i.prod ∈ G.closureProds (kernel.map Item.core)
  /-- The items fit into the array. -/
  length_le : items.length ≤ maxClose

/-- The size of the array: one for each item and one for each lookahead. -/
def weight (items : List Item) : ℕ := (items.map fun i => i.lookaheads.card + 1).sum

/-- The array does not shrink, and it grows when the flag is set. -/
structure Progress (st st' : List Item × Bool) : Prop where
  /-- No lookahead is lost in a pass. -/
  le : weight st.1 ≤ weight st'.1
  /-- The flag was set before, or something is new. -/
  lt : st'.2 = true → st.2 = true ∨ weight st.1 < weight st'.1

/-- The lookaheads have not shrunk when nothing is done. -/
lemma Progress.refl (st : List Item × Bool) : Progress st st := ⟨Nat.le_refl _, Or.inl⟩

/-- Progress in one part and then in the other is progress. -/
lemma Progress.trans {a b c : List Item × Bool} (hab : Progress a b) (hbc : Progress b c) :
    Progress a c where
  le := hab.le.trans hbc.le
  lt h := by
    rcases hbc.lt h with hb | hlt
    · rcases hab.lt hb with ha | hlt
      · exact Or.inl ha
      · exact Or.inr (hlt.trans_le hbc.le)
    · exact Or.inr (hab.le.trans_lt hlt)

/-- Merging a new lookahead into an item makes the array grow. -/
lemma weight_lt_setLook {items : List Item} {p : Production} {s : Finset ℕ}
    (hnodup : (items.map Item.prod).Nodup) (hex : ∃ i ∈ items, i.prod = p)
    (hs : ¬ s ⊆ closLook items p) :
    weight items < weight (setLook items p (closLook items p ∪ s)) := by
  have hlook : ∀ i ∈ items, i.prod = p → i.lookaheads = closLook items p := by
    rintro i hi rfl
    ext t
    rw [mem_closLook hnodup]
    constructor
    · exact fun ht => ⟨i, hi, rfl, ht⟩
    · rintro ⟨j, hj, hji, ht⟩
      exact List.inj_on_of_nodup_map hnodup hj hi hji ▸ ht
  unfold weight setLook
  rw [List.map_map]
  apply List.sum_lt_sum
  · intro i hi
    dsimp only [Function.comp]
    split
    · rename_i hip
      rw [hlook i hi hip]
      exact Nat.succ_le_succ (Finset.card_le_card Finset.subset_union_left)
    · exact Nat.le_refl _
  · obtain ⟨i, hi, hip⟩ := hex
    refine ⟨i, hi, ?_⟩
    dsimp only [Function.comp]
    rw [if_pos hip, hlook i hi hip]
    apply Nat.succ_lt_succ
    apply Finset.card_lt_card
    rw [Finset.ssubset_iff_subset_ne]
    refine ⟨Finset.subset_union_left, ?_⟩
    intro he
    exact hs (he ▸ Finset.subset_union_right)

/-- The visit of one production makes progress, or changes nothing. -/
lemma progress_closeProd {c : Core} {look : List Item → Finset ℕ} {st st' : List Item × Bool}
    {p : Production} (hnodup : (st.1.map Item.prod).Nodup)
    (h : G.closeProd F c look st p = some st') : Progress st st' := by
  rcases closeProd_cases h with ⟨-, -, rfl⟩ | ⟨hex, hsub, rfl⟩ | ⟨-, -, rfl⟩
  · exact Progress.refl _
  · have hlt := weight_lt_setLook hnodup hex hsub
    exact ⟨hlt.le, fun _ => Or.inr hlt⟩
  · have hlt : weight st.1 < weight (st.1 ++ [⟨p, 0, G.contribution F c (look st.1)⟩]) := by
      simp [weight]
    exact ⟨hlt.le, fun _ => Or.inr hlt⟩

/-- What a part of `closure` comes to: the array stays inside the bounds and makes progress, or
there are more productions in the closure than fit into it. -/
abbrev Comes (G : Grammar) (F : SetTable) (kernel : List Item) (st : List Item × Bool) :
    Option (List Item × Bool) → Prop :=
  Loop.Returns (fun st' => G.Contained F kernel st'.1 ∧ Progress st st')
    (maxClose < (G.closureProds (kernel.map Item.core)).length)

section Bounds

variable {kernel : List Item} {st : List Item × Bool} {c : Core} {look : List Item → Finset ℕ}

/-- The visit of a production of the closure stays within what can occur, or the array is full. -/
lemma comes_closeProd {p : Production} (hp : p ∈ G.closureProds (kernel.map Item.core))
    (hcon : G.contribution F c (look st.1) ⊆ G.spread F kernel) (hst : G.Contained F kernel st.1) :
    Comes G F kernel st (G.closeProd F c look st p) := by
  have hsub : st.1.map Item.prod ⊆ G.closureProds (kernel.map Item.core) := by
    intro q hq
    obtain ⟨i, hi, rfl⟩ := List.mem_map.mp hq
    exact hst.mem i hi
  rcases hr : G.closeProd F c look st p with _ | st'
  · -- the array is full, and the production is not in it
    unfold closeProd at hr
    split at hr
    · split at hr <;> cases hr
    · rename_i hex
      split at hr
      · have hnot : p ∉ st.1.map Item.prod := by simpa using hex
        have hnodup : (p :: st.1.map Item.prod).Nodup := List.nodup_cons.mpr ⟨hnot, hst.inv.nodup⟩
        have hlen := (List.subperm_of_subset hnodup (List.cons_subset.mpr ⟨hp, hsub⟩)).length_le
        rw [List.length_cons, List.length_map] at hlen
        change maxClose < (G.closureProds (kernel.map Item.core)).length
        omega
      · cases hr
  · have hinv := (closeProd_spec hst.inv (fun t ht => hcon ht) hr).1
    refine ⟨⟨hinv, ?_, ?_⟩, progress_closeProd hst.inv.nodup hr⟩
    · have hprods := (closeProd_spec hst.inv (fun t ht => hcon ht) hr).2.2.1
      intro i hi
      have hmem : i.prod ∈ addProd (st.1.map Item.prod) p := hprods ▸ List.mem_map_of_mem hi
      rcases mem_addProd.mp hmem with hq | hq
      · exact hsub hq
      · rw [hq]
        exact hp
    · rcases closeProd_cases hr with ⟨-, -, rfl⟩ | ⟨-, -, rfl⟩ | ⟨-, hlen, rfl⟩
      · exact hst.length_le
      · rw [setLook, List.length_map]
        exact hst.length_le
      · rw [List.length_append, List.length_singleton]
        exact hlen

/-- A pass whose visits come to something good comes to something good. -/
lemma comes_foldlM {α : Type*} {f : List Item × Bool → α → Option (List Item × Bool)} {l : List α}
    (hstep : ∀ a ∈ l, ∀ st, G.Contained F kernel st.1 → Comes G F kernel st (f st a))
    (hst : G.Contained F kernel st.1) : Comes G F kernel st (l.foldlM f st) := by
  apply Loop.foldlM_returns _ ⟨hst, Progress.refl st⟩
  rintro a ha st' ⟨hst', hprogress⟩
  have hcomes := hstep a ha st' hst'
  rcases hf : f st' a with _ | st''
  · rw [hf] at hcomes
    exact hcomes
  · rw [hf] at hcomes
    exact ⟨hcomes.1, hprogress.trans hcomes.2⟩

/-- `do_close` for an item of the closure stays within what can occur, or the array is full. -/
lemma comes_doClose (hc : G.InClosure (kernel.map Item.core) c)
    (hcon : ∀ items, G.Contained F kernel items →
    G.contribution F c (look items) ⊆ G.spread F kernel) (hst : G.Contained F kernel st.1) :
    Comes G F kernel st (G.doClose F c look st) := by
  unfold doClose
  rcases hx : rightOfDot c with _ | x
  · exact ⟨hst, Progress.refl st⟩
  · dsimp only
    split
    · rename_i hn
      apply comes_foldlM _ hst
      intro p hp st' hst'
      exact comes_closeProd (mem_closureProds.mpr ⟨c, x, hc, hx, hn, hp⟩) (hcon st'.1 hst') hst'
    · exact ⟨hst, Progress.refl st⟩

/-- What an item of the kernel contributes can occur. -/
lemma contribution_kernel_subset {i : Item} (hi : i ∈ kernel) :
    G.contribution F i.core i.lookaheads ⊆ G.spread F kernel := by
  intro t ht
  apply Finset.mem_union_left
  rw [Finset.mem_biUnion]
  refine ⟨i, List.mem_toFinset.mpr hi, ?_⟩
  rcases mem_contribution.mp ht with ht | ⟨-, ht⟩
  · exact Finset.mem_union_right _ ht
  · exact Finset.mem_union_left _ ht

/-- What a production of the closure contributes can occur, if its lookaheads can. -/
lemma contribution_prod_subset {p : Production} {s : Finset ℕ}
    (hp : p ∈ G.closureProds (kernel.map Item.core)) (hs : s ⊆ G.spread F kernel) :
    G.contribution F (p, 0) s ⊆ G.spread F kernel := by
  intro t ht
  rcases mem_contribution.mp ht with ht | ⟨-, ht⟩
  · apply Finset.mem_union_right
    rw [Finset.mem_biUnion]
    exact ⟨p, List.mem_toFinset.mpr hp, ht⟩
  · exact hs ht

/-- The first step of `closure` stays within what can occur, or the array is full. -/
lemma comes_kernelPass (kernel : List Item) :
    Comes G F kernel ([], false) (G.kernelPass F kernel) := by
  have hempty : G.Contained F kernel ([] : List Item) := by
    refine ⟨⟨List.nodup_nil, by simp, ?_⟩, by simp, Nat.zero_le _⟩
    rintro p t ⟨i, hi, -⟩
    exact absurd hi List.not_mem_nil
  apply comes_foldlM _ hempty
  intro i hi st hst
  exact comes_doClose (.kern (List.mem_map_of_mem hi)) (fun _ _ => contribution_kernel_subset hi)
    hst

/-- A pass of `closure` stays within what can occur, or the array is full. -/
lemma comes_closePass {items : List Item} (hitems : G.Contained F kernel items) :
    Comes G F kernel (items, false) (G.closePass F items) := by
  apply comes_foldlM _ hitems
  intro i hi st hst
  have hcore : i.core = (i.prod, 0) := by rw [Item.core, hitems.inv.zero i hi]
  have hmem := hitems.mem i hi
  rw [hcore]
  apply comes_doClose (Demanded.inClosure (mem_closureProds.mp hmem)) _ hst
  intro cl hcl
  apply contribution_prod_subset hmem
  intro t ht
  exact hcl.inv.sound _ t ((mem_closLook hcl.inv.nodup).mp ht)

/-- The number of items and lookaheads in the array is bounded. -/
lemma Contained.weight_le {items : List Item} (h : G.Contained F kernel items) :
    weight items ≤ maxClose * ((G.spread F kernel).card + 1) := by
  have hcard : ∀ n ∈ items.map fun i => i.lookaheads.card + 1, n ≤ (G.spread F kernel).card +
      1 := by
    intro n hn
    obtain ⟨i, hi, rfl⟩ := List.mem_map.mp hn
    have hsub : i.lookaheads ⊆ G.spread F kernel :=
      fun t ht => h.inv.sound i.prod t ⟨i, hi, rfl, ht⟩
    exact Nat.succ_le_succ (Finset.card_le_card hsub)
  have hsum : weight items ≤ items.length * ((G.spread F kernel).card + 1) := by
    simpa [weight] using List.sum_le_card_nsmul _ _ hcard
  exact hsum.trans (Nat.mul_le_mul_right _ h.length_le)

/-- What a step of the loop can do: a pass, with or without the fatal error, or nothing. -/
lemma closeStep_cases {items : List Item} {flag : Bool}
    {r : (List Item × Bool) ⊕ Option (List Item)} (h : G.closeStep F (items, flag) = r) :
    (∃ st', flag = true ∧ G.closePass F items = some st' ∧ r = .inl st') ∨
      (flag = true ∧ G.closePass F items = none ∧ r = .inr none) ∨
      (flag = false ∧ r = .inr (some items)) := by
  rcases flag with _ | _
  · exact Or.inr (Or.inr ⟨rfl, h.symm⟩)
  · rw [closeStep] at h
    rcases hp : G.closePass F items with _ | st'
    · rw [hp] at h
      exact Or.inr (Or.inl ⟨rfl, rfl, h.symm⟩)
    · rw [hp] at h
      exact Or.inl ⟨st', rfl, rfl, h.symm⟩

/-- A step of the loop stays inside the bounds, and there are fewer and fewer steps left. -/
lemma closeStep_inl {st' : List Item × Bool} (hst : G.Contained F kernel st.1)
    (h : G.closeStep F st = .inl st') :
    G.Contained F kernel st'.1 ∧
      2 * (maxClose * ((G.spread F kernel).card + 1) - weight st'.1) + st'.2.toNat <
        2 * (maxClose * ((G.spread F kernel).card + 1) - weight st.1) + st.2.toNat := by
  rcases closeStep_cases h with ⟨st'', hflag, hp, hr⟩ | ⟨-, -, hr⟩ | ⟨-, hr⟩
  · obtain rfl := Sum.inl.inj hr
    have hcomes := comes_closePass hst
    rw [hp] at hcomes
    obtain ⟨hst', hle, hlt⟩ := hcomes
    have hbound := hst'.weight_le
    refine ⟨hst', ?_⟩
    dsimp only at hle hlt
    rw [hflag, Bool.toNat_true]
    rcases hnew : st'.2 with _ | _
    · rw [Bool.toNat_false]
      omega
    · rcases hlt hnew with hf | hlt
      · cases hf
      · rw [Bool.toNat_true]
        omega
  · cases hr
  · cases hr

/-- The fatal error means that there are more productions in the closure than fit into the array. -/
lemma lt_length_of_closeStep (hst : G.Contained F kernel st.1) (h : G.closeStep F st = .inr none) :
    maxClose < (G.closureProds (kernel.map Item.core)).length := by
  rcases closeStep_cases h with ⟨st'', -, -, hr⟩ | ⟨-, hp, -⟩ | ⟨-, hr⟩
  · cases hr
  · have hcomes := comes_closePass hst
    rw [hp] at hcomes
    exact hcomes
  · cases hr

/-- The items at the end of the loop are those of the last state. -/
lemma closeStep_inr_some {cl : List Item} (h : G.closeStep F st = .inr (some cl)) : st.1 = cl := by
  rcases closeStep_cases h with ⟨st'', -, -, hr⟩ | ⟨-, -, hr⟩ | ⟨-, hr⟩
  · cases hr
  · cases hr
  · exact (Option.some.inj (Sum.inr.inj hr)).symm

end Bounds

/-- The loop of `closure` comes to an end after finitely many passes. -/
lemma exists_closureRun (kernel : List Item) : ∃ N r, ∀ n, N ≤ n →
    G.closureRun F n kernel = some r := by
  have hcomes := comes_kernelPass (G := G) (F := F) kernel
  unfold closureRun
  rcases hk : G.kernelPass F kernel with _ | st
  · exact ⟨0, none, fun _ _ => rfl⟩
  · rw [hk] at hcomes
    obtain ⟨N, r, hr⟩ := Machine.stops_of_measure
      (fun st : List Item × Bool => G.Contained F kernel st.1) _ (fun _ _ => closeStep_inl) hcomes.1
    exact ⟨N, r, fun n hn => Machine.run_mono hn hr⟩

/-- How the loop of `closure` ends: with items that fit into the array, or with the fatal error when
there are too many productions. -/
lemma closureRun_spec {kernel : List Item} {n : ℕ} {r : Option (List Item)}
    (h : G.closureRun F n kernel = some r) :
    (∀ cl, r = some cl → cl.length ≤ maxClose) ∧
      (r = none → maxClose < (G.closureProds (kernel.map Item.core)).length) := by
  have hcomes := comes_kernelPass (G := G) (F := F) kernel
  unfold closureRun at h
  rcases hk : G.kernelPass F kernel with _ | st
  · rw [hk] at h hcomes
    obtain rfl := Option.some.inj h
    refine ⟨?_, fun _ => hcomes⟩
    intro cl hcl
    cases hcl
  · rw [hk] at h hcomes
    obtain ⟨st', hreach, hend⟩ := Machine.run_spec h
    have hst' := hreach.invariant (fun st : List Item × Bool => G.Contained F kernel st.1)
      (fun _ _ hs hstep => (closeStep_inl hs hstep).1) hcomes.1
    constructor
    · rintro cl rfl
      exact closeStep_inr_some hend ▸ hst'.length_le
    · rintro rfl
      exact lt_length_of_closeStep hst' hend

/-- The number of productions that a closure demands is that of the productions it has. -/
lemma ncard_demanded (K : List Core) : {p | G.Demanded K p}.ncard = (G.closureProds K).length := by
  have hset : {p | G.Demanded K p} = ((G.closureProds K).toFinset : Set Production) := by
    ext p
    rw [Finset.mem_coe, List.mem_toFinset]
    exact mem_closureProds.symm
  rw [hset, Set.ncard_coe_finset, List.toFinset_card_of_nodup (nodup_closureProds K)]

variable (G F) in
/-- `closure` always comes to an end, with the fatal error exactly when there are more than
`maxClose` productions in the closure.  Otherwise the items are the productions of the nonterminals
right of a dot, each once and with the dot at the start, and their lookaheads are the least that are
closed under the rule. -/
theorem closure_isLeast (kernel : List Item) :
    ∃ r : Option (List Item), (∃ N, ∀ n, N ≤ n → G.closureRun F n kernel = some r) ∧
      (r = none ↔ maxClose < {p | G.Demanded (kernel.map Item.core) p}.ncard) ∧
      ∀ cl, r = some cl →
        (cl.map Item.prod).Nodup ∧
        (∀ p, p ∈ cl.map Item.prod ↔ G.Demanded (kernel.map Item.core) p) ∧
        (∀ i ∈ cl, i.dotPosn = 0) ∧
        IsLeast {look | G.LookClosed F kernel look} fun p => {t | Has cl p t} := by
  obtain ⟨N, r, hr⟩ := exists_closureRun (G := G) (F := F) kernel
  obtain ⟨hsmall, hfatal⟩ := closureRun_spec (hr N (Nat.le_refl N))
  -- the items are those of `closure`
  have hspec : ∀ cl, r = some cl → cl.map Item.prod = G.closureProds (kernel.map Item.core) ∧
      (∀ i ∈ cl, i.dotPosn = 0) ∧ ∀ p t, Has cl p t ↔ G.OccLook F kernel (.clos p) t := by
    rintro cl rfl
    have hclosure : G.closure F N kernel = some cl := by
      rw [closure_eq_closureRun, hr N (Nat.le_refl N), Option.join_some]
    exact closure_spec hclosure
  refine ⟨r, ⟨N, hr⟩, ?_, ?_⟩
  · rw [ncard_demanded]
    refine ⟨hfatal, ?_⟩
    intro hlt
    rcases r with _ | cl
    · rfl
    · have hlen := hsmall cl rfl
      rw [← (hspec cl rfl).1, List.length_map] at hlt
      omega
  · intro cl hcl
    obtain ⟨hprods, hzero, hhas⟩ := hspec cl hcl
    refine ⟨hprods ▸ nodup_closureProds _, ?_, hzero, ?_⟩
    · intro p
      rw [hprods]
      exact mem_closureProds
    · have hfun : (fun p => {t | Has cl p t}) = fun p => {t | G.OccLook F kernel (.clos p) t} := by
        funext p
        ext t
        exact hhas p t
      rw [hfun]
      exact isLeast_occLook kernel

end Grammar

end Parser
