import Cgkits.Lib.Loop
import Cgkits.Parser.Symbol

/-!
# FIRST sets (`first.c`)

`first` visits every symbol of the table again and again and merges into the FIRST set of a
nonterminal what the right-hand sides of its productions contribute, until a pass changes nothing.
The marker `epsilon` shares the set with the terminals and stands for nullability.

Merging `FIRST(Y)` for the first visible symbol `Y` of a right-hand side copies the marker along
with the terminals, whatever comes after `Y`.  So the marker spreads along chains of first symbols
(`ContextFree.ChainNull`) instead of along nullable right-hand sides, and the sets computed are
those of the textbook rules with this predicate in the place of nullability:
`epsilon_mem_firstSets_iff`, `mem_firstSets_iff`.  They are the FIRST sets of the grammar exactly
when the two predicates agree, `firstSets_correct_iff`.
-/

namespace Parser

open ContextFree

/-- A table of symbol sets, one for each symbol value. -/
abbrev SetTable := ℕ → Finset ℕ

namespace Grammar

variable (G : Grammar)

/-- `NULLABLE`: a nonterminal with the marker in its FIRST set. -/
def Nullable (F : SetTable) (x : ℕ) : Prop := IsNonterm x ∧ G.epsilon ∈ F x

instance (F : SetTable) (x : ℕ) : Decidable (G.Nullable F x) := inferInstanceAs (Decidable (_ ∧ _))

/-- The scan of a right-hand side that `first_closure` and `first_rhs` share: FIRST of the symbols
is added to `dest` up to the first visible symbol that is not nullable.  The flag tells whether the
scan has come to the end. -/
def firstScan (F : SetTable) : List ℕ → Finset ℕ → Finset ℕ × Bool
  | [], dest => (dest, true)
  | y :: rhs, dest =>
    if IsAct y then firstScan F rhs dest
    else
      let dest := if IsTerm y then insert y dest else dest ∪ F y
      if G.Nullable F y then firstScan F rhs dest else (dest, false)

/-- `first_rhs`: FIRST of a sequence of symbols, added to `dest`. -/
def firstRhs (F : SetTable) (dest : Finset ℕ) (rhs : List ℕ) : Finset ℕ × Bool :=
  if rhs.length ≤ 0 then (insert G.epsilon dest, true) else G.firstScan F rhs dest

/-- What `first_closure` adds to `set` for one production. -/
def firstProd (F : SetTable) (set : Finset ℕ) (prod : Production) : Finset ℕ :=
  if prod.nonActs ≤ 0 then insert G.epsilon set else (G.firstScan F prod.rhs set).1

/-- `first_closure`: the visit of one symbol, with the flag `_did_somthing`. -/
def firstClosure (lhs : ℕ) (st : SetTable × Bool) : SetTable × Bool :=
  if ¬ IsNonterm lhs then st
  else
    let set := (G.productions lhs).foldl (G.firstProd st.1) (st.1 lhs)
    if set = st.1 lhs then st else (Function.update st.1 lhs set, true)

variable {G}

/-- One pass of `first` over the whole table, in the order in which the walk visits the symbols. -/
def firstPass (w : G.Walk) (F : SetTable) : SetTable × Bool :=
  w.order.foldl (fun st lhs => G.firstClosure lhs st) (F, false)

variable (G) in
/-- A number of passes of `first` that is always enough. -/
def firstFuel : ℕ := G.nonterms.card * (G.epsilon + 1) + 1

/-- `first`: passes over the table until one changes nothing. -/
def first (w : G.Walk) : Option SetTable :=
  Loop.doWhile (firstPass w) G.firstFuel fun _ => ∅

/-! ## The visible front of a right-hand side -/

variable (G) in
/-- The scan goes on behind an action or a nullable symbol. -/
def Passed (F : SetTable) (x : ℕ) : Prop := IsAct x ∨ G.Nullable F x

variable (G) in
/-- `Front F γ y`: the scan of `γ` comes to the visible symbol `y`. -/
def Front (F : SetTable) (γ : List ℕ) (y : ℕ) : Prop :=
  ¬ IsAct y ∧ ∃ α β, γ = α ++ y :: β ∧ ∀ x ∈ α, G.Passed F x

section Front

variable {F : SetTable} {γ : List ℕ} {x y t : ℕ}

/-- A scan of an empty sequence comes to no symbol. -/
@[simp] lemma not_front_nil : ¬ G.Front F [] y := by
  rintro ⟨-, α, β, h, -⟩
  simp at h

/-- The scan comes to the first symbol if it is visible, and to the front of the rest if the first
symbol is passed. -/
lemma front_cons :
    G.Front F (x :: γ) y ↔ (¬ IsAct x ∧ y = x) ∨ (G.Passed F x ∧ G.Front F γ y) := by
  constructor
  · rintro ⟨hy, α, β, h, hα⟩
    rcases α with _ | ⟨a, α⟩
    · obtain ⟨rfl, -⟩ := List.cons.inj h
      exact Or.inl ⟨hy, rfl⟩
    · obtain ⟨rfl, rfl⟩ := List.cons.inj h
      exact Or.inr ⟨hα x (by simp), hy, α, β, rfl, fun a ha => hα a (by simp [ha])⟩
  · rintro (⟨hx, rfl⟩ | ⟨hx, hy, α, β, rfl, hα⟩)
    · exact ⟨hx, [], γ, rfl, by simp⟩
    · exact ⟨hy, x :: α, β, rfl, by simpa using ⟨hx, hα⟩⟩

variable (G) in
/-- FIRST of a single visible symbol: the terminal itself, or what the table has for the
nonterminal. -/
def FirstOf (F : SetTable) (y t : ℕ) : Prop := if IsTerm y then t = y else t ∈ F y

/-- What a scan adds: FIRST of the symbols that it comes to. -/
lemma mem_firstScan {dest : Finset ℕ} :
    t ∈ (G.firstScan F γ dest).1 ↔ t ∈ dest ∨ ∃ y, G.Front F γ y ∧ FirstOf F y t := by
  induction γ generalizing dest with
  | nil => simp [firstScan]
  | cons x γ ih =>
    simp only [firstScan, front_cons, or_and_right, exists_or]
    by_cases hx : IsAct x
    · simp [hx, ih, Passed]
    · have hadd : t ∈ (if IsTerm x then insert x dest else dest ∪ F x) ↔
          t ∈ dest ∨ FirstOf F x t := by
        unfold FirstOf
        split <;> simp [or_comm]
      have hone : (∃ y, (¬ IsAct x ∧ y = x) ∧ FirstOf F y t) ↔ FirstOf F x t := by
        simp [hx]
      rw [if_neg hx, hone]
      by_cases hn : G.Nullable F x
      · rw [if_pos hn, ih, hadd]
        simp only [Passed, hn, or_true, true_and, or_assoc]
      · rw [if_neg hn, hadd]
        simp only [Passed, hn, hx, or_self, false_and, exists_false, or_false]

/-- The scan comes to the end when every symbol is passed. -/
lemma firstScan_snd {dest : Finset ℕ} :
    (G.firstScan F γ dest).2 = true ↔ ∀ x ∈ γ, G.Passed F x := by
  induction γ generalizing dest with
  | nil => simp [firstScan]
  | cons x γ ih =>
    simp only [firstScan, List.forall_mem_cons]
    by_cases hx : IsAct x
    · simp [hx, ih, Passed]
    · by_cases hn : G.Nullable F x <;> simp [hx, hn, ih, Passed]

end Front

/-! ## What a scan means in the grammar -/

/-- A sequence whose form starts with a symbol: invisible symbols, then the symbol. -/
lemma exists_of_form_eq_cons {γ : List ℕ} {s : Symbol ℕ ℕ} {δ : List (Symbol ℕ ℕ)}
    (h : form γ = s :: δ) :
    ∃ α y β, γ = α ++ y :: β ∧ (∀ x ∈ α, IsAct x) ∧ toSymbol y = some s ∧ form β = δ := by
  obtain ⟨α, y, β, rfl, hα, hy, hβ⟩ := List.filterMap_eq_cons_iff.mp h
  refine ⟨α, y, β, rfl, fun x hx => ?_, hy, hβ⟩
  have hnone := hα x hx
  unfold toSymbol at hnone
  by_contra hact
  rw [if_neg hact] at hnone
  split at hnone <;> simp at hnone

/-- The terminal that a table entry stands for is the entry itself. -/
lemma toSymbol_eq_terminal {y t : ℕ} (h : toSymbol y = some (.terminal t)) :
    ¬ IsAct y ∧ IsTerm y ∧ y = t := by
  unfold toSymbol at h
  split at h
  · simp at h
  · split at h
    · exact ⟨‹_›, ‹_›, by simpa using h⟩
    · simp at h

/-- The nonterminal that a table entry stands for is the entry itself. -/
lemma toSymbol_eq_nonterminal {y A : ℕ} (h : toSymbol y = some (.nonterminal A)) :
    ¬ IsAct y ∧ ¬ IsTerm y ∧ y = A := by
  unfold toSymbol at h
  split at h
  · simp at h
  · split at h
    · simp at h
    · exact ⟨‹_›, ‹_›, by simpa using h⟩

/-- A split of a form at a symbol comes from a split of the sequence. -/
lemma exists_of_form_eq_append_cons {γ : List ℕ} {s : Symbol ℕ ℕ} {δ ε : List (Symbol ℕ ℕ)}
    (h : form γ = δ ++ s :: ε) :
    ∃ α y β, γ = α ++ y :: β ∧ form α = δ ∧ toSymbol y = some s ∧ form β = ε := by
  obtain ⟨α, γ', rfl, rfl, hγ'⟩ := List.filterMap_eq_append_iff.mp h
  obtain ⟨α', y, β, rfl, hα', hy, rfl⟩ := exists_of_form_eq_cons hγ'
  refine ⟨α ++ α', y, β, by simp, ?_, hy, rfl⟩
  have hnil : form α' = [] :=
    List.filterMap_eq_nil_iff.mpr fun x hx => by simp [toSymbol, hα' x hx]
  rw [form_append, hnil, List.append_nil]
  rfl

/-- What begins the form of a sequence of symbols is a terminal of the table. -/
lemma isTerm_of_firstBy {P : G.cfg.NT → Prop} {δ : List (Symbol ℕ G.cfg.NT)} {t : ℕ}
    (h : FirstBy (g := G.cfg) P δ t) {γ : List ℕ} (hδ : form γ = δ) : IsTerm t := by
  induction h generalizing γ with
  | terminal s δ =>
    obtain ⟨α, y, β, -, -, hy, -⟩ := exists_of_form_eq_cons hδ
    obtain ⟨-, hterm, rfl⟩ := toSymbol_eq_terminal hy
    exact hterm
  | skip hA _ ih =>
    obtain ⟨α, y, β, -, -, -, hβ⟩ := exists_of_form_eq_cons hδ
    exact ih hβ
  | rule hr _ ih =>
    obtain ⟨p, -, rfl⟩ := mem_rules.mp hr
    exact ih (γ := p.rhs) rfl

section Meaning

variable {F : SetTable} {γ : List ℕ} {t : ℕ}

/-- Passed symbols can be left out, for any predicate that covers the marked nonterminals. -/
lemma allNull_of_passed {P : G.cfg.NT → Prop} (hP : ∀ A, G.epsilon ∈ F A → P A)
    (h : ∀ x ∈ γ, G.Passed F x) : AllNull (g := G.cfg) P (form γ) := by
  induction γ with
  | nil => exact allNull_nil
  | cons x γ ih =>
    rw [List.forall_mem_cons] at h
    rcases h.1 with hact | hnull
    · rw [form_cons_act hact]
      exact ih h.2
    · rw [form_cons_nonterm hnull.1]
      exact allNull_cons_nonterminal.mpr ⟨hP _ hnull.2, ih h.2⟩

/-- A sequence whose form consists of nonterminals that are marked as nullable is passed by the
scan. -/
lemma passed_of_allNull {P : G.cfg.NT → Prop} (hF : ∀ A, P A → G.Nullable F A)
    (h : AllNull (g := G.cfg) P (form γ)) : ∀ x ∈ γ, G.Passed F x := by
  intro x hx
  by_cases hact : IsAct x
  · exact Or.inl hact
  · obtain ⟨s, hs⟩ : ∃ s, toSymbol x = some s := by
      unfold toSymbol
      rw [if_neg hact]
      split <;> simp
    obtain ⟨A, rfl, hA⟩ := h s (List.mem_filterMap.mpr ⟨x, hx, hs⟩)
    obtain ⟨-, -, rfl⟩ := toSymbol_eq_nonterminal hs
    exact Or.inr (hF _ hA)

/-- The scan of a form with a first letter comes to a symbol with this letter in its FIRST, when the
table contains the marks `P` and the productions pass the letter on. -/
lemma front_of_firstBy {P : G.cfg.NT → Prop} (hF : ∀ A, P A → G.Nullable F A)
    (hclosed : ∀ p ∈ G.prods, ∀ y, G.Front F p.rhs y → FirstOf F y t → t ∈ F p.lhs)
    {δ : List (Symbol ℕ G.cfg.NT)} (h : FirstBy (g := G.cfg) P δ t) (hδ : form γ = δ) :
    ∃ y, G.Front F γ y ∧ FirstOf F y t := by
  induction h generalizing γ with
  | terminal s δ =>
    obtain ⟨α, y, β, rfl, hα, hy, -⟩ := exists_of_form_eq_cons hδ
    obtain ⟨hact, hterm, rfl⟩ := toSymbol_eq_terminal hy
    exact ⟨y, ⟨hact, α, β, rfl, fun x hx => Or.inl (hα x hx)⟩, by simp [FirstOf, hterm]⟩
  | @skip A δ s hA _ ih =>
    obtain ⟨α, y, β, rfl, hα, hy, hβ⟩ := exists_of_form_eq_cons hδ
    obtain ⟨hact, hterm, rfl⟩ := toSymbol_eq_nonterminal hy
    obtain ⟨z, ⟨hz, α', β', rfl, hα'⟩, ht⟩ := ih hclosed hβ
    refine ⟨z, ⟨hz, α ++ y :: α', β', by simp, fun x hx => ?_⟩, ht⟩
    rcases List.mem_append.mp hx with hx | hx
    · exact Or.inl (hα x hx)
    · rcases List.mem_cons.mp hx with rfl | hx
      · exact Or.inr (hF _ hA)
      · exact hα' x hx
  | @rule r δ s hr _ ih =>
    obtain ⟨α, y, β, rfl, hα, hy, -⟩ := exists_of_form_eq_cons hδ
    obtain ⟨hact, hterm, rfl⟩ := toSymbol_eq_nonterminal hy
    obtain ⟨p, hp, rfl⟩ := mem_rules.mp hr
    obtain ⟨z, hz, hs⟩ := ih hclosed (γ := p.rhs) rfl
    refine ⟨p.lhs, ⟨hact, α, β, rfl, fun x hx => Or.inl (hα x hx)⟩, ?_⟩
    unfold FirstOf
    rw [if_neg (G.isNonterm_lhs hp).not_isTerm]
    exact hclosed p hp z hz hs

end Meaning

/-! ## Soundness of every pass -/

variable (G) in
/-- `FirstElem A t`: the element `t` belongs to the FIRST set of `A` by the textbook rules, read
with chains of first symbols in the place of nullability. -/
def FirstElem (A t : ℕ) : Prop :=
  (t = G.epsilon ∧ ChainNull G.cfg A) ∨
    (t ≤ G.currterm ∧ FirstBy (ChainNull G.cfg) [.nonterminal A] t)

variable (G) in
/-- Every element of a table of FIRST sets belongs where it is. -/
def FirstSound (F : SetTable) : Prop := ∀ A, ∀ t ∈ F A, G.FirstElem A t

/-- A nonterminal with a nonempty FIRST set has a production. -/
lemma FirstElem.exists_prod {A t : ℕ} (h : G.FirstElem A t) : ∃ p ∈ G.prods, p.lhs = A := by
  have hrule : ∀ r ∈ G.cfg.rules, ∃ p ∈ G.prods, p.lhs = r.input := by
    intro r hr
    obtain ⟨p, hp, rfl⟩ := mem_rules.mp hr
    exact ⟨p, hp, rfl⟩
  rcases h with ⟨-, hnull⟩ | ⟨-, hfirst⟩
  · obtain ⟨r, hr, rfl⟩ := hnull.exists_rule
    exact hrule r hr
  · obtain ⟨r, hr, rfl, -⟩ := firstBy_singleton_nonterminal.mp hfirst
    exact hrule r hr

/-- The marker stands for a chain of first symbols that ends in nothing. -/
lemma firstElem_epsilon {A : ℕ} : G.FirstElem A G.epsilon ↔ ChainNull G.cfg A := by
  have : ¬ G.epsilon ≤ G.currterm := by
    unfold epsilon
    omega
  simp [FirstElem, this]

/-- A terminal of the table stands for itself: a chain of first symbols leads to it. -/
lemma firstElem_of_le {A t : ℕ} (h : t ≤ G.currterm) :
    G.FirstElem A t ↔ FirstBy (ChainNull G.cfg) [.nonterminal A] t := by
  simp [FirstElem, h, ne_epsilon_of_le h]

section Sound

variable {F : SetTable} {p : Production} {t y : ℕ}

/-- In a sound table the nonterminals with the marker start such chains. -/
lemma FirstSound.chainNull (hF : G.FirstSound F) {A : ℕ} (hA : G.epsilon ∈ F A) :
    ChainNull G.cfg A :=
  firstElem_epsilon.mp (hF A _ hA)

/-- A visible nonterminal with a chain that is reached by a scan gives the left-hand side a chain:
the first visible symbol of the right-hand side is this nonterminal or a marked one. -/
lemma FirstSound.chainNull_lhs (hF : G.FirstSound F) (hp : p ∈ G.prods) (hy : G.Front F p.rhs y)
    (hterm : ¬ IsTerm y) (hnull : ChainNull G.cfg y) : ChainNull G.cfg p.lhs := by
  obtain ⟨hact, α, β, hrhs, hα⟩ := hy
  have hall := allNull_of_passed (P := ChainNull G.cfg) (fun A hA => hF.chainNull hA) hα
  have hform : form p.rhs = form α ++ .nonterminal y :: form β := by
    rw [hrhs, form_append]
    congr 1
    simp [form, toSymbol, hact, hterm]
  rcases hα' : form α with _ | ⟨s, δ⟩
  · exact .chain (r := p.rule) (rule_mem hp) (by rw [Production.rule, hform, hα']; rfl) hnull
  · obtain ⟨B, rfl, hB⟩ := hall s (by rw [hα']; simp)
    exact .chain (r := p.rule) (rule_mem hp) (by rw [Production.rule, hform, hα']; rfl) hB

/-- What a scan of a right-hand side comes to belongs to the FIRST set of the left-hand side. -/
lemma FirstSound.front (hF : G.FirstSound F) (hp : p ∈ G.prods) (hy : G.Front F p.rhs y)
    (ht : FirstOf F y t) : G.FirstElem p.lhs t := by
  obtain ⟨hact, α, β, hrhs, hα⟩ := id hy
  have hall := allNull_of_passed (P := ChainNull G.cfg) (fun A hA => hF.chainNull hA) hα
  have hfirst : FirstBy (g := G.cfg) (ChainNull G.cfg) (form (y :: β)) t →
      FirstBy (ChainNull G.cfg) [.nonterminal p.lhs] t := by
    intro h
    refine firstBy_singleton_nonterminal.mpr ⟨p.rule, rule_mem hp, rfl, ?_⟩
    rw [Production.rule, hrhs, form_append]
    exact firstBy_append.mpr (Or.inr ⟨hall, h⟩)
  unfold FirstOf at ht
  by_cases hterm : IsTerm y
  · rw [if_pos hterm] at ht
    subst ht
    have hle : t ≤ G.currterm := by
      rcases rhs_cases hp (x := t) (by rw [hrhs]; simp) with h | h | h
      · exact h.2
      · exact absurd hterm h.not_isTerm
      · exact absurd h hact
    refine Or.inr ⟨hle, hfirst ?_⟩
    rw [form_cons_term hterm]
    exact .terminal _ _
  · rw [if_neg hterm] at ht
    rcases hF y t ht with ⟨rfl, hnull⟩ | ⟨hle, hby⟩
    · exact Or.inl ⟨rfl, hF.chainNull_lhs hp hy hterm hnull⟩
    · refine Or.inr ⟨hle, hfirst ?_⟩
      obtain ⟨q, hq, rfl⟩ := (hF y t ht).exists_prod
      rw [form_cons_nonterm (G.isNonterm_lhs hq)]
      exact firstBy_cons_nonterminal.mpr (Or.inl hby)

/-- A right-hand side without visible symbols has the empty form. -/
lemma form_eq_nil_iff {p : Production} : form p.rhs = [] ↔ p.nonActs ≤ 0 := by
  unfold form Production.nonActs toSymbol
  rw [Nat.le_zero, List.length_eq_zero_iff, List.filterMap_eq_nil_iff, List.filter_eq_nil_iff]
  refine forall₂_congr fun x _ => ?_
  by_cases hact : IsAct x
  · simp [hact]
  · by_cases hterm : IsTerm x <;> simp [hact, hterm]

/-- The productions of a chain add elements that belong to the left-hand side. -/
lemma FirstSound.foldl (hF : G.FirstSound F) {A : ℕ} {l : List Production}
    (hl : ∀ p ∈ l, p ∈ G.prods ∧ p.lhs = A) {set : Finset ℕ} (hset : ∀ t ∈ set, G.FirstElem A t) :
    ∀ t ∈ l.foldl (G.firstProd F) set, G.FirstElem A t := by
  induction l generalizing set with
  | nil => exact hset
  | cons p l ih =>
    refine ih (fun q hq => hl q (by simp [hq])) fun t ht => ?_
    obtain ⟨hp, rfl⟩ := hl p (by simp)
    unfold firstProd at ht
    by_cases hvis : p.nonActs ≤ 0
    · rw [if_pos hvis, Finset.mem_insert] at ht
      rcases ht with rfl | ht
      · have hnull : ChainNull G.cfg p.rule.input := .empty (rule_mem hp) (form_eq_nil_iff.mpr hvis)
        exact firstElem_epsilon.mpr hnull
      · exact hset t ht
    · rw [if_neg hvis, mem_firstScan] at ht
      rcases ht with ht | ⟨y, hy, ht⟩
      · exact hset t ht
      · exact hF.front hp hy ht

/-- The productions of a symbol only add to its set. -/
lemma subset_foldl_firstProd {l : List Production} {set : Finset ℕ} :
    set ⊆ l.foldl (G.firstProd F) set := by
  induction l generalizing set with
  | nil => exact subset_rfl
  | cons p l ih =>
    refine subset_trans (fun t ht => ?_) ih
    unfold firstProd
    split
    · exact Finset.mem_insert_of_mem ht
    · exact mem_firstScan.mpr (Or.inl ht)

/-- Every production of a chain makes its contribution. -/
lemma subset_foldl_of_mem {l : List Production} {set : Finset ℕ} (hp : p ∈ l) :
    G.firstProd F ∅ p ⊆ l.foldl (G.firstProd F) set := by
  induction l generalizing set with
  | nil => simp at hp
  | cons q l ih =>
    rcases List.mem_cons.mp hp with rfl | hp
    · refine subset_trans (fun t ht => ?_) (subset_foldl_firstProd (l := l))
      unfold firstProd at ht ⊢
      split at ht
      · rw [if_pos ‹_›]
        exact Finset.insert_subset_insert _ (Finset.empty_subset _) ht
      · rw [if_neg ‹_›]
        rw [mem_firstScan] at ht ⊢
        simp only [Finset.notMem_empty, false_or] at ht
        exact Or.inr ht
    · exact ih hp

end Sound

/-- The visit of a symbol merges the contributions of its chain into its set. -/
lemma firstClosure_eq_addTo (lhs : ℕ) (st : SetTable × Bool) :
    G.firstClosure lhs st = if IsNonterm lhs then
      Loop.addTo lhs ((G.productions lhs).foldl (G.firstProd st.1) (st.1 lhs)) st else st := by
  have hsub : st.1 lhs ⊆ (G.productions lhs).foldl (G.firstProd st.1) (st.1 lhs) :=
    subset_foldl_firstProd
  unfold firstClosure Loop.addTo
  by_cases hlhs : IsNonterm lhs
  · simp only [hlhs, not_true, if_false, if_true, Finset.union_eq_right.mpr hsub]
    by_cases heq : (G.productions lhs).foldl (G.firstProd st.1) (st.1 lhs) = st.1 lhs
    · rw [if_pos heq, if_pos heq.subset]
    · rw [if_neg heq, if_neg fun h => heq (h.antisymm hsub)]
  · simp only [hlhs, not_false_iff, if_true, if_false]

/-- A visit of a symbol makes the table grow, and tells whether it did. -/
lemma grows_firstClosure (lhs : ℕ) (st : SetTable × Bool) :
    Loop.Grows st (G.firstClosure lhs st) := by
  rw [firstClosure_eq_addTo]
  split
  · exact Loop.grows_addTo _ _ _
  · exact Loop.Grows.refl st

/-- A visit of a symbol keeps the table sound. -/
lemma FirstSound.firstClosure {st : SetTable × Bool} (h : G.FirstSound st.1) (lhs : ℕ) :
    G.FirstSound (G.firstClosure lhs st).1 := by
  rw [firstClosure_eq_addTo]
  split
  · intro A t ht
    rcases Loop.mem_addTo.mp ht with ht | ⟨rfl, ht⟩
    · exact h A t ht
    · exact h.foldl (fun p hp => mem_productions.mp hp) (h A) t ht
  · exact h

/-- A pass over all symbols keeps the table sound. -/
lemma FirstSound.firstPass {F : SetTable} (h : G.FirstSound F) (w : G.Walk) :
    G.FirstSound (firstPass w F).1 := by
  have hfold : ∀ (l : List ℕ) (st : SetTable × Bool), G.FirstSound st.1 →
      G.FirstSound (l.foldl (fun st lhs => G.firstClosure lhs st) st).1 := by
    intro l
    induction l with
    | nil => exact fun st hst => hst
    | cons x l ih => exact fun st hst => ih _ (hst.firstClosure x)
  exact hfold w.order (F, false) h

/-! ## The table when `first` returns -/

variable (G) in
/-- The table is closed under the rules that `first_closure` applies. -/
structure FirstClosed (F : SetTable) : Prop where
  /-- A right-hand side without visible symbols marks its left-hand side. -/
  empty : ∀ p ∈ G.prods, p.nonActs ≤ 0 → G.epsilon ∈ F p.lhs
  /-- FIRST of what a scan comes to is contained in FIRST of the left-hand side. -/
  front : ∀ p ∈ G.prods, ∀ y, G.Front F p.rhs y → ∀ t, FirstOf F y t → t ∈ F p.lhs

/-- A pass that changes nothing leaves a closed table. -/
lemma firstClosed_of_firstPass {w : G.Walk} {F F' : SetTable} (h : firstPass w F = (F', false)) :
    G.FirstClosed F' := by
  have hflag : (firstPass w F).2 = false := by rw [h]
  have hsame : (firstPass w F).1 = F :=
    (Loop.grows_foldl (fun st lhs => G.grows_firstClosure lhs st) w.order (F, false)).eq_of_flag
      hflag
  obtain rfl : F' = F := by rw [← hsame, h]
  have hprod : ∀ p ∈ G.prods, G.firstProd F' ∅ p ⊆ F' p.lhs := by
    intro p hp
    have hstep := Loop.foldl_step_of_flag (fun st lhs => G.grows_firstClosure lhs st) hflag
      (w.lhs_mem_order hp)
    rw [firstClosure_eq_addTo, if_pos (G.isNonterm_lhs hp), Loop.addTo_snd_eq_false] at hstep
    exact (subset_foldl_of_mem (mem_productions.mpr ⟨hp, rfl⟩)).trans hstep.2
  constructor
  · intro p hp hvis
    apply hprod p hp
    rw [firstProd, if_pos hvis]
    exact Finset.mem_insert_self _ _
  · intro p hp y hy t ht
    have hvis : ¬ p.nonActs ≤ 0 := by
      rw [← form_eq_nil_iff]
      intro hnil
      obtain ⟨hact, α, β, hrhs, -⟩ := hy
      have hsome : ∃ s, toSymbol y = some s := by
        unfold toSymbol
        rw [if_neg hact]
        split <;> simp
      obtain ⟨s, hs⟩ := hsome
      have := List.filterMap_eq_nil_iff.mp hnil y (by rw [hrhs]; simp)
      rw [hs] at this
      simp at this
    apply hprod p hp
    rw [firstProd, if_neg hvis]
    exact mem_firstScan.mpr (Or.inr ⟨y, hy, ht⟩)

/-- The elements of a sound table are inside a finite universe. -/
lemma FirstSound.subset_range {F : SetTable} (hF : G.FirstSound F) (A : ℕ) :
    F A ⊆ Finset.range (G.epsilon + 1) := by
  intro t ht
  rw [Finset.mem_range]
  rcases hF A t ht with ⟨rfl, -⟩ | ⟨hle, -⟩
  · omega
  · unfold epsilon
    omega

/-- A sound table is empty outside the nonterminals of the symbol table. -/
lemma FirstSound.eq_empty {F : SetTable} (hF : G.FirstSound F) {A : ℕ}
    (hA : A ∉ G.nonterms) : F A = ∅ := by
  rw [Finset.eq_empty_iff_forall_notMem]
  intro t ht
  obtain ⟨p, hp, rfl⟩ := (hF A t ht).exists_prod
  exact hA (lhs_mem_nonterms hp)

/-- The empty table is sound, since no element is in it. -/
lemma firstSound_empty : G.FirstSound fun _ => ∅ := fun _ _ ht => by simp at ht

/-- `first` returns: every pass but the last one adds an element, and there is room for finitely
many only. -/
theorem first_isSome (w : G.Walk) : (first w).isSome := by
  rw [Option.isSome_iff_exists]
  refine Loop.doWhile_returns G.FirstSound (fun F => ∑ A ∈ G.nonterms, (F A).card)
    (G.nonterms.card * (G.epsilon + 1)) (fun F hF => hF.firstPass w) (fun F hF => ?_)
    (fun F hF hflag => ?_) firstSound_empty _ (by unfold firstFuel; omega)
  · simpa using Loop.sum_card_le (I := G.nonterms) hF.subset_range
  · have hgrow := Loop.grows_foldl (fun st lhs => G.grows_firstClosure lhs st) w.order (F, false)
    refine Loop.sum_card_lt_of_grows hgrow.subset (fun A hA => ?_) ?_
    · rw [(hF.firstPass w).eq_empty hA, hF.eq_empty hA]
    · rcases hgrow.changed hflag with h | h
      · simp at h
      · exact h

/-- The FIRST sets in the symbol table when `first` has returned. -/
def firstSets (w : G.Walk) : SetTable := (first w).get (first_isSome w)

section FirstSets

variable (w : G.Walk)

/-- The table that `first` leaves is sound and closed. -/
lemma firstSets_spec : G.FirstSound (firstSets w) ∧ G.FirstClosed (firstSets w) := by
  have hsome : first w = some (firstSets w) := by simp [firstSets]
  obtain ⟨F, hF, hpass⟩ :=
    Loop.doWhile_spec G.FirstSound (fun F hF => hF.firstPass w) firstSound_empty hsome
  have hsound := hF.firstPass w
  rw [hpass] at hsound
  exact ⟨hsound, firstClosed_of_firstPass hpass⟩

/-- The marker is in the FIRST set of exactly the nonterminals that start a chain of first symbols
ending in an empty right-hand side. -/
theorem epsilon_mem_firstSets_iff {A : G.cfg.NT} :
    G.epsilon ∈ firstSets w A ↔ ChainNull G.cfg A := by
  obtain ⟨hsound, hclosed⟩ := firstSets_spec w
  refine ⟨hsound.chainNull, fun h => ?_⟩
  induction h with
  | empty hr ho =>
    obtain ⟨p, hp, rfl⟩ := mem_rules.mp hr
    exact hclosed.empty p hp (form_eq_nil_iff.mp ho)
  | chain hr ho _ ih =>
    obtain ⟨p, hp, rfl⟩ := mem_rules.mp hr
    obtain ⟨α, y, β, hrhs, hα, hy, -⟩ := exists_of_form_eq_cons ho
    obtain ⟨hact, hterm, rfl⟩ := toSymbol_eq_nonterminal hy
    refine hclosed.front p hp y ⟨hact, α, β, hrhs, fun x hx => Or.inl (hα x hx)⟩ _ ?_
    simpa [FirstOf, hterm] using ih

/-- The symbols that `first` marks as nullable are those that start a chain. -/
lemma nullable_firstSets_iff {A : ℕ} : G.Nullable (firstSets w) A ↔ ChainNull G.cfg A := by
  unfold Nullable
  rw [epsilon_mem_firstSets_iff]
  refine ⟨And.right, fun h => ⟨?_, h⟩⟩
  obtain ⟨p, hp, rfl⟩ := (firstElem_epsilon.mpr h).exists_prod
  exact G.isNonterm_lhs hp

/-- What a scan over the final table finds, as a relation on forms. -/
lemma exists_front_firstSets_iff {γ : List ℕ} {t : ℕ} (ht : t ≤ G.currterm) :
    (∃ y, G.Front (firstSets w) γ y ∧ FirstOf (firstSets w) y t) ↔
      FirstBy (g := G.cfg) (ChainNull G.cfg) (form γ) t := by
  obtain ⟨hsound, hclosed⟩ := firstSets_spec w
  constructor
  · rintro ⟨y, ⟨hact, α, β, rfl, hα⟩, hy⟩
    have hall := allNull_of_passed (P := ChainNull G.cfg) (fun A hA => hsound.chainNull hA) hα
    rw [form_append]
    refine firstBy_append.mpr (Or.inr ⟨hall, ?_⟩)
    unfold FirstOf at hy
    by_cases hterm : IsTerm y
    · rw [if_pos hterm] at hy
      rw [form_cons_term hterm, hy]
      exact .terminal _ _
    · rw [if_neg hterm] at hy
      obtain ⟨p, hp, rfl⟩ := (hsound y t hy).exists_prod
      rw [form_cons_nonterm (G.isNonterm_lhs hp)]
      exact firstBy_cons_nonterminal.mpr (Or.inl ((firstElem_of_le ht).mp (hsound _ t hy)))
  · intro h
    exact front_of_firstBy (fun A hA => (nullable_firstSets_iff w).mpr hA)
      (fun p hp y hy hyt => hclosed.front p hp y hy t hyt) h rfl

/-- The terminals of the FIRST sets are those of the textbook rules, with chains of first symbols in
the place of nullability. -/
theorem mem_firstSets_iff {A t : ℕ} (ht : t ≤ G.currterm) :
    t ∈ firstSets w A ↔ FirstBy (g := G.cfg) (ChainNull G.cfg) [.nonterminal A] t := by
  obtain ⟨hsound, hclosed⟩ := firstSets_spec w
  refine ⟨fun h => (firstElem_of_le ht).mp (hsound A t h), fun h => ?_⟩
  obtain ⟨r, hr, rfl, hby⟩ := firstBy_singleton_nonterminal.mp h
  obtain ⟨p, hp, rfl⟩ := mem_rules.mp hr
  obtain ⟨y, hy, hyt⟩ := (exists_front_firstSets_iff w ht).mpr hby
  exact hclosed.front p hp y hy t hyt

/-- `first_rhs` on the final table finds the terminals that chains of first symbols lead to. -/
lemma mem_firstRhs_iff {γ : List ℕ} {t : ℕ} (ht : t ≤ G.currterm) :
    t ∈ (G.firstRhs (firstSets w) ∅ γ).1 ↔
      FirstBy (g := G.cfg) (ChainNull G.cfg) (form γ) t := by
  rw [← exists_front_firstSets_iff w ht]
  rcases γ with _ | ⟨x, γ⟩
  · simp [firstRhs, ne_epsilon_of_le ht]
  · simp [firstRhs, mem_firstScan]

/-- `first_rhs` on the final table finds terminals of the table and the marker. -/
lemma le_currterm_of_mem_firstRhs {p : Production} (hp : p ∈ G.prods) {t : ℕ}
    (ht : t ∈ (G.firstRhs (firstSets w) ∅ p.rhs).1) : t ≤ G.currterm ∨ t = G.epsilon := by
  have hscan : (∃ y, G.Front (firstSets w) p.rhs y ∧ FirstOf (firstSets w) y t) ∨
      t = G.epsilon := by
    rcases hrhs : p.rhs with _ | ⟨x, γ⟩
    · rw [hrhs] at ht
      exact Or.inr (by simpa [firstRhs] using ht)
    · rw [hrhs] at ht
      exact Or.inl (by simpa [firstRhs, mem_firstScan] using ht)
  rcases hscan with ⟨y, hy, hyt⟩ | rfl
  · rcases (firstSets_spec w).1.front hp hy hyt with ⟨rfl, -⟩ | ⟨hle, -⟩
    · exact Or.inr rfl
    · exact Or.inl hle
  · exact Or.inr rfl

/-- `first_rhs` on the final table passes to the end exactly if all symbols start chains. -/
lemma firstRhs_snd_iff {γ : List ℕ} :
    (G.firstRhs (firstSets w) ∅ γ).2 = true ↔
      AllNull (g := G.cfg) (ChainNull G.cfg) (form γ) := by
  have hpassed : (∀ x ∈ γ, G.Passed (firstSets w) x) ↔
      AllNull (g := G.cfg) (ChainNull G.cfg) (form γ) :=
    ⟨allNull_of_passed fun A hA => (epsilon_mem_firstSets_iff w).mp hA,
      passed_of_allNull fun A hA => (nullable_firstSets_iff w).mpr hA⟩
  rw [← hpassed]
  rcases γ with _ | ⟨x, γ⟩
  · simp [firstRhs]
  · simp [firstRhs, firstScan_snd]

end FirstSets

/-! ## The FIRST sets of the grammar -/

variable (G) in
/-- The table holds the FIRST sets of the grammar: a terminal is in the set of `A` when `A` derives
a string that begins with it, and the marker when `A` derives the empty string. -/
def FirstCorrect (F : SetTable) : Prop :=
  ∀ A, IsNonterm A →
    (∀ t, IsTerm t → t ≤ G.currterm →
      (t ∈ F A ↔ ∃ β, G.cfg.Derives [.nonterminal A] (.terminal t :: β))) ∧
    (G.epsilon ∈ F A ↔ G.cfg.Derives [.nonterminal A] [])

variable (G) in
/-- Whenever the first visible symbol of a right-hand side is a nonterminal that derives the empty
string, so does the left-hand side. -/
def FrontNullable : Prop :=
  ∀ p ∈ G.prods, ∀ B γ, form p.rhs = .nonterminal B :: γ →
    G.cfg.Derives [.nonterminal B] [] → G.cfg.Derives [.nonterminal p.lhs] []

/-- Chains of first symbols say the truth about nullability exactly when no right-hand side starts
with a nullable nonterminal without being nullable. -/
lemma chainNull_iff_frontNullable :
    (∀ A, ChainNull G.cfg A ↔ ContextFree.Nullable G.cfg A) ↔ G.FrontNullable := by
  rw [chainNull_iff_nullable_iff]
  constructor
  · intro h p hp B γ ho hB
    exact h p.rule (rule_mem hp) B γ ho hB
  · intro h r hr B γ ho hB
    obtain ⟨p, hp, rfl⟩ := mem_rules.mp hr
    exact h p hp B γ ho hB

/-- `first` leaves the FIRST sets of the grammar exactly when the first visible symbol of a
right-hand side never is nullable without the left-hand side being nullable. -/
theorem firstSets_correct_iff (G : Grammar) (w : G.Walk) :
    G.FirstCorrect (firstSets w) ↔ G.FrontNullable := by
  rw [← chainNull_iff_frontNullable]
  constructor
  · intro h A
    refine ⟨fun hA => ?_, ContextFree.Nullable.chainNull⟩
    have hnull := (nullable_firstSets_iff w).mpr hA
    exact (h A hnull.1).2.mp hnull.2
  · intro h A _
    refine ⟨fun t _ ht => ?_, (epsilon_mem_firstSets_iff w).trans (h A)⟩
    have hpred : ChainNull G.cfg = ContextFree.Nullable G.cfg := funext fun B => propext (h B)
    rw [mem_firstSets_iff w ht, hpred]
    exact firstBy_nullable_iff

/-- `s : b T ; b : ;` with `T = 1`, `s = 256`, `b = 257`. -/
def frontGrammar : Grammar := SymbolTable.grammar
  { prods := [⟨0, 256, [257, 1], 0⟩, ⟨1, 257, [], 0⟩]
    currterm := 1
    currnonterm := 257
    curract := 511
    goalSymbol := 256 } (by decide)

/-- The symbol table of `frontGrammar`, walked by value. -/
def frontWalk : frontGrammar.Walk := frontGrammar.valueWalk

/-- For `frontGrammar` the sets are wrong: `s` is marked and derives no empty string. -/
theorem not_firstCorrect_frontGrammar : ¬ frontGrammar.FirstCorrect (firstSets frontWalk) := by
  intro h
  have hb : ChainNull frontGrammar.cfg (257 : ℕ) :=
    .empty (g := frontGrammar.cfg) (r := ⟨(257 : ℕ), []⟩) (by decide) rfl
  have hs : ChainNull frontGrammar.cfg (256 : ℕ) :=
    .chain (g := frontGrammar.cfg) (r := ⟨(256 : ℕ), [.nonterminal (257 : ℕ), .terminal 1]⟩)
      (by decide) rfl hb
  have hder := (h 256 (by decide)).2.mp ((epsilon_mem_firstSets_iff frontWalk).mpr hs)
  -- everything that is nullable is `b`
  have hclosed : NullClosed (g := frontGrammar.cfg) (fun A => A = 257) := by
    intro r hr hn
    obtain ⟨p, hp, rfl⟩ := mem_rules.mp hr
    simp only [frontGrammar, SymbolTable.grammar, List.mem_cons, List.not_mem_nil, or_false] at hp
    rcases hp with rfl | rfl
    · obtain ⟨A, hA, -⟩ := hn (.terminal 1) (by decide)
      simp at hA
    · rfl
  have := ContextFree.Nullable.of_nullClosed hclosed hder
  simp at this

end Grammar

end Parser
