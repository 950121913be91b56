import Mathlib.Computability.Language

/-!
# Fragments of a labelled graph

A graph has edges that are labelled with a letter or, for `none`, with nothing.  A fragment of it is
a set of states with a start state inside and a stop state outside: no edge enters the start state
from inside, and every edge that leaves the set leads to the stop state.  Its language is the set of
the words that are read on the way from the start state to the stop state.

The lemmas about `Fragment` are the ways of putting fragments together: one after the other (`cat`),
side by side (`alt`), and around a loop (`loop`).  Since a fragment depends on the edges of its own
states only, it stays a fragment when the rest of the graph changes (`congr`), and its start state
may be replaced by a copy (`move`).
-/

namespace Labelled

open Computability

variable {σ α : Type*}

/-! ## Walks -/

/-- A walk through the graph `E` that leaves only states of `I`, with the word that is read on the
way. -/
inductive Run (E : σ → Option α → σ → Prop) (I : Set σ) : σ → List α → σ → Prop
  /-- The empty walk leads from a state to itself. -/
  | refl (i : σ) : Run E I i [] i
  /-- An edge, and a walk from its end. -/
  | step {i j k : σ} {a : Option α} {w : List α} : i ∈ I → E i a j → Run E I j w k →
    Run E I i (a.toList ++ w) k

variable {E E' : σ → Option α → σ → Prop} {I J : Set σ} {i j k s t u : σ} {v w : List α}
  {K M : Language α}

/-- Two walks, the second from the end of the first, make one walk over both words. -/
lemma Run.trans (h : Run E I i v j) (h' : Run E I j w k) : Run E I i (v ++ w) k := by
  induction h with
  | refl i => exact h'
  | step hi he _ ih =>
    rw [List.append_assoc]
    exact .step hi he (ih h')

/-- A single edge from an inside state is a run that reads the letter of the edge. -/
lemma Run.edge {a : Option α} (hi : i ∈ I) (he : E i a j) : Run E I i a.toList j := by
  have h := Run.step hi he (Run.refl j)
  rwa [List.append_nil] at h

/-- A walk stays a walk when the graph grows and more states may be left. -/
lemma Run.mono (h : Run E I i w j) (hI : I ⊆ J) (hE : ∀ i ∈ I, ∀ a j, E i a j → E' i a j) :
    Run E' J i w j := by
  induction h with
  | refl i => exact .refl i
  | step hi he _ ih => exact .step (hI hi) (hE _ hi _ _ he) ih

/-- A walk from a state that may not be left is empty and ends where it starts. -/
lemma Run.eq_nil (h : Run E I i w j) (hi : i ∉ I) : w = [] ∧ j = i := by
  rcases h with - | ⟨hi', -, -⟩
  · exact ⟨rfl, rfl⟩
  · exact absurd hi' hi

/-- A family of languages that is closed under the edges backwards contains what is read on every
walk. -/
lemma Run.mem_of_closed (ρ : σ → Language α) (hstep : ∀ i ∈ I, ∀ a j, E i a j →
    ∀ w ∈ ρ j, a.toList ++ w ∈ ρ i) (h : Run E I i w t) (ht : [] ∈ ρ t) : w ∈ ρ i := by
  induction h with
  | refl => exact ht
  | step hi he _ ih => exact hstep _ hi _ _ he _ (ih ht)

/-- The words that are read on the walks from a state to `t`. -/
def rest (E : σ → Option α → σ → Prop) (I : Set σ) (t i : σ) : Language α := {w | Run E I i w t}

/-- An edge in front of a rest of a run gives a rest that reads the letter of the edge first. -/
lemma mem_rest_of_edge {a : Option α} (hi : i ∈ I) (he : E i a j) (hw : w ∈ rest E I t j) :
    a.toList ++ w ∈ rest E I t i :=
  Run.step hi he hw

/-- The empty word leads from a state to itself. -/
lemma nil_mem_rest : [] ∈ rest E I t t := Run.refl t

/-! ## Fragments -/

/-- A fragment of an automaton between `s` and `t` that reads exactly the words of the language
`K`. -/
structure Fragment (E : σ → Option α → σ → Prop) (I : Set σ) (s t : σ) (K : Language α) : Prop where
  /-- The start state is inside. -/
  start_mem : s ∈ I
  /-- The stop state is outside. -/
  stop_notMem : t ∉ I
  /-- The stop state is the only way out. -/
  closed : ∀ i ∈ I, ∀ a j, E i a j → j ∈ I ∨ j = t
  /-- No edge from inside enters the start state. -/
  fresh : ∀ i ∈ I, ∀ a, ¬ E i a s
  /-- The strings of the walks to the end are those of `K`. -/
  rest_eq : rest E I t s = K

namespace Fragment

/-- The start and the end of a fragment are different states. -/
lemma ne (h : Fragment E I s t K) : s ≠ t := by
  rintro rfl
  exact h.stop_notMem h.start_mem

/-- A fragment depends only on the edges of its own states. -/
lemma congr (h : Fragment E I s t K) (hE : ∀ i ∈ I, ∀ a j, E' i a j ↔ E i a j) :
    Fragment E' I s t K where
  start_mem := h.start_mem
  stop_notMem := h.stop_notMem
  closed i hi a j he := h.closed i hi a j ((hE i hi a j).mp he)
  fresh i hi a he := h.fresh i hi a ((hE i hi a s).mp he)
  rest_eq := by
    rw [← h.rest_eq]
    ext w
    exact ⟨fun hr => Run.mono hr subset_rfl fun i hi a j => (hE i hi a j).mp,
      fun hr => Run.mono hr subset_rfl fun i hi a j => (hE i hi a j).mpr⟩

/-- The words that consist of one letter from the set `C`. -/
def letters (C : Set α) : Language α := {w | ∃ x ∈ C, w = [x]}

/-- Two states with edges from one to the other, labelled with the letters of a set. -/
lemma letter {C : Set α} (hne : s ≠ t) (hE : ∀ a j, E s a j ↔ j = t ∧ ∃ x ∈ C, a = some x) :
    Fragment E {s} s t (letters C) where
  start_mem := rfl
  stop_notMem := hne.symm
  closed i hi a j he := by
    rw [Set.mem_singleton_iff.mp hi] at he
    exact Or.inr ((hE a j).mp he).1
  fresh i hi a he := by
    rw [Set.mem_singleton_iff.mp hi] at he
    exact hne ((hE a s).mp he).1
  rest_eq := by
    have ht : t ∉ ({s} : Set σ) := fun h => hne (Set.mem_singleton_iff.mp h).symm
    ext w
    constructor
    · intro h
      cases h with
      | refl => exact absurd rfl hne
      | step _ he h =>
        obtain ⟨rfl, x, hx, rfl⟩ := (hE _ _).mp he
        obtain ⟨rfl, -⟩ := h.eq_nil ht
        exact ⟨x, hx, rfl⟩
    · rintro ⟨x, hx, rfl⟩
      have hr : Run E {s} s (some x).toList t :=
        Run.edge rfl ((hE (some x) t).mpr ⟨rfl, x, hx, rfl⟩)
      exact hr

open Classical in
/-- The start state of a fragment may be replaced by a copy of it, while the language stays. -/
lemma move (h : Fragment E J s u K) {s' : σ} (hs' : s' ∉ J) (hne : s' ≠ u)
    (hE : ∀ i ∈ J, i ≠ s → ∀ a j, E' i a j ↔ E i a j) (hE' : ∀ a j, E' s' a j ↔ E s a j) :
    Fragment E' (insert s' (J \ {s})) s' u K := by
  have hout : ∀ i ∈ J, ∀ a j, E i a j → j ≠ s ∧ j ≠ s' ∧ (j ∈ J ∨ j = u) := by
    intro i hi a j he
    refine ⟨?_, ?_, h.closed i hi a j he⟩
    · rintro rfl
      exact h.fresh i hi a he
    · rintro rfl
      rcases h.closed i hi a j he with hj | hj
      · exact hs' hj
      · exact hne hj
  -- an edge of the copy is an edge of the original
  have hback : ∀ i ∈ insert s' (J \ {s}), ∀ a j, E' i a j → ∃ i₀ ∈ J, E i₀ a j ∧
      (i = s' ∧ i₀ = s ∨ i ≠ s' ∧ i₀ = i) := by
    rintro i (rfl | ⟨hi, his⟩) a j he
    · exact ⟨s, h.start_mem, (hE' a j).mp he, Or.inl ⟨rfl, rfl⟩⟩
    · refine ⟨i, hi, (hE i hi his a j).mp he, Or.inr ⟨?_, rfl⟩⟩
      rintro rfl
      exact hs' hi
  refine ⟨Set.mem_insert _ _, ?_, ?_, ?_, ?_⟩
  · rintro (heq | ⟨hu, -⟩)
    · exact hne heq.symm
    · exact h.stop_notMem hu
  · intro i hi a j he
    obtain ⟨i₀, hi₀, he₀, -⟩ := hback i hi a j he
    obtain ⟨hjs, -, hj | hj⟩ := hout i₀ hi₀ a j he₀
    · exact Or.inl (Or.inr ⟨hj, hjs⟩)
    · exact Or.inr hj
  · intro i hi a he
    obtain ⟨i₀, hi₀, he₀, -⟩ := hback i hi a s' he
    exact (hout i₀ hi₀ a s' he₀).2.1 rfl
  · rw [← h.rest_eq]
    ext w
    constructor
    · intro hr
      have hclosed :=
        Run.mem_of_closed (fun i => if i = s' then rest E J u s else rest E J u i) ?_ hr ?_
      · simpa using hclosed
      · intro i hi a j he w hw
        obtain ⟨i₀, hi₀, he₀, hcase⟩ := hback i hi a j he
        rw [if_neg (hout i₀ hi₀ a j he₀).2.1] at hw
        rcases hcase with ⟨rfl, rfl⟩ | ⟨his, rfl⟩
        · rw [if_pos rfl]
          exact mem_rest_of_edge hi₀ he₀ hw
        · rw [if_neg his]
          exact mem_rest_of_edge hi₀ he₀ hw
      · rw [if_neg hne.symm]
        exact nil_mem_rest
    · intro hr
      have hclosed := Run.mem_of_closed (fun i => if i = s then rest E' (insert s' (J \ {s})) u s'
        else rest E' (insert s' (J \ {s})) u i) ?_ hr ?_
      · simpa using hclosed
      · intro i hi a j he w hw
        rw [if_neg (hout i hi a j he).1] at hw
        by_cases his : i = s
        · subst his
          rw [if_pos rfl]
          exact mem_rest_of_edge (Set.mem_insert _ _) ((hE' a j).mpr he) hw
        · rw [if_neg his]
          exact mem_rest_of_edge (Or.inr ⟨hi, his⟩) ((hE i hi his a j).mpr he) hw
      · rw [if_neg h.ne.symm]
        exact nil_mem_rest

open Classical in
/-- One fragment after the other: the stop state of the first one is the start state of the second
one. -/
lemma cat (h : Fragment E I s t K) (h' : Fragment E J t u M) (hd : ∀ i ∈ I, i ∉ J) (hu : u ∉ I) :
    Fragment E (I ∪ J) s u (K * M) where
  start_mem := Or.inl h.start_mem
  stop_notMem := by
    rintro (hI | hJ)
    · exact hu hI
    · exact h'.stop_notMem hJ
  closed := by
    rintro i (hi | hi) a j he
    · rcases h.closed i hi a j he with hj | rfl
      · exact Or.inl (Or.inl hj)
      · exact Or.inl (Or.inr h'.start_mem)
    · rcases h'.closed i hi a j he with hj | hj
      · exact Or.inl (Or.inr hj)
      · exact Or.inr hj
  fresh := by
    rintro i (hi | hi) a he
    · exact h.fresh i hi a he
    · rcases h'.closed i hi a s he with hs | hs
      · exact hd s h.start_mem hs
      · exact hu (hs ▸ h.start_mem)
  rest_eq := by
    rw [← h.rest_eq, ← h'.rest_eq]
    ext w
    constructor
    · intro hr
      have hclosed :=
        Run.mem_of_closed (fun i => if i ∈ I then rest E I t i * rest E J u t else rest E J u i) ?_
          hr ?_
      · simpa [h.start_mem] using hclosed
      · rintro i (hi | hi) a j he w hw
        · rw [if_pos hi]
          rcases h.closed i hi a j he with hj | rfl
          · rw [if_pos hj] at hw
            obtain ⟨x, hx, y, hy, rfl⟩ := Language.mem_mul.mp hw
            exact Language.mem_mul.mpr ⟨a.toList ++ x, mem_rest_of_edge hi he hx, y, hy, by simp⟩
          · rw [if_neg h.stop_notMem] at hw
            exact Language.mem_mul.mpr ⟨a.toList, Run.edge hi he, w, hw, rfl⟩
        · have hni : ∀ i ∈ J, i ∉ I := fun i hi hi' => hd i hi' hi
          rw [if_neg (hni i hi)]
          have hj : j ∉ I := by
            rcases h'.closed i hi a j he with hj | rfl
            · exact hni j hj
            · exact hu
          rw [if_neg hj] at hw
          exact mem_rest_of_edge hi he hw
      · rw [if_neg hu]
        exact nil_mem_rest
    · intro hr
      obtain ⟨x, hx, y, hy, rfl⟩ := Language.mem_mul.mp hr
      exact Run.trans (Run.mono hx Set.subset_union_left fun _ _ _ _ => id)
        (Run.mono hy Set.subset_union_right fun _ _ _ _ => id)

open Classical in
/-- Two fragments side by side: a new start state leads to both of them, and both lead to a new stop
state. -/
lemma alt {I' : Set σ} {s₁ t₁ s₂ t₂ : σ} (h : Fragment E I s₁ t₁ K) (h' : Fragment E I' s₂ t₂ M)
    (hd : ∀ i ∈ I, i ∉ I') (ht₁ : t₁ ∉ I') (ht₂ : t₂ ∉ I)
    (hs : s ∉ I ∧ s ∉ I' ∧ s ≠ t₁ ∧ s ≠ t₂ ∧ s ≠ t) (ht : t ∉ I ∧ t ∉ I' ∧ t ≠ t₁ ∧ t ≠ t₂)
    (hE : ∀ a j, E s a j ↔ a = none ∧ (j = s₁ ∨ j = s₂)) (hE₁ : ∀ a j, E t₁ a j ↔ a = none ∧ j = t)
    (hE₂ : ∀ a j, E t₂ a j ↔ a = none ∧ j = t) :
    Fragment E (I ∪ I' ∪ {s, t₁, t₂}) s t (K + M) := by
  obtain ⟨hsI, hsI', hst₁, hst₂, hst⟩ := hs
  obtain ⟨htI, htI', htt₁, htt₂⟩ := ht
  -- where the edges of the new fragment lead to
  have hout : ∀ i ∈ I ∪ I' ∪ {s, t₁, t₂}, ∀ a j, E i a j →
      (i ∈ I ∧ (j ∈ I ∨ j = t₁)) ∨ (i ∈ I' ∧ (j ∈ I' ∨ j = t₂)) ∨
      (i = s ∧ a = none ∧ (j = s₁ ∨ j = s₂)) ∨ ((i = t₁ ∨ i = t₂) ∧ a = none ∧ j = t) := by
    rintro i ((hi | hi) | rfl | rfl | rfl) a j he
    · exact Or.inl ⟨hi, h.closed i hi a j he⟩
    · exact Or.inr (Or.inl ⟨hi, h'.closed i hi a j he⟩)
    · exact Or.inr (Or.inr (Or.inl ⟨rfl, (hE a j).mp he⟩))
    · exact Or.inr (Or.inr (Or.inr ⟨Or.inl rfl, (hE₁ a j).mp he⟩))
    · exact Or.inr (Or.inr (Or.inr ⟨Or.inr rfl, (hE₂ a j).mp he⟩))
  have hs₁ := h.start_mem
  have hs₂ := h'.start_mem
  refine ⟨by simp, ?_, ?_, ?_, ?_⟩
  · rintro ((hi | hi) | rfl | rfl | rfl)
    · exact htI hi
    · exact htI' hi
    · exact hst rfl
    · exact htt₁ rfl
    · exact htt₂ rfl
  · intro i hi a j he
    rcases hout i hi a j he with ⟨-, hj | rfl⟩ | ⟨-, hj | rfl⟩ | ⟨-, -, rfl | rfl⟩ | ⟨-, -, rfl⟩
    · exact Or.inl (Or.inl (Or.inl hj))
    · exact Or.inl (Or.inr (by simp))
    · exact Or.inl (Or.inl (Or.inr hj))
    · exact Or.inl (Or.inr (by simp))
    · exact Or.inl (Or.inl (Or.inl hs₁))
    · exact Or.inl (Or.inl (Or.inr hs₂))
    · exact Or.inr rfl
  · intro i hi a he
    rcases hout i hi a s he with ⟨-, hj | hj⟩ | ⟨-, hj | hj⟩ | ⟨-, -, hj | hj⟩ | ⟨-, -, hj⟩
    · exact hsI hj
    · exact hst₁ hj
    · exact hsI' hj
    · exact hst₂ hj
    · exact hsI (hj ▸ hs₁)
    · exact hsI' (hj ▸ hs₂)
    · exact hst hj
  · rw [← h.rest_eq, ← h'.rest_eq]
    ext w
    rw [Language.mem_add]
    have ht₁I := h.stop_notMem
    have ht₂I' := h'.stop_notMem
    have hni : ∀ i ∈ I', i ∉ I := fun i hi hi' => hd i hi' hi
    constructor
    · intro hr
      have hclosed := Run.mem_of_closed (fun i => if i = s then rest E I t₁ s₁ + rest E I' t₂ s₂
        else if i ∈ I then rest E I t₁ i else if i ∈ I' then rest E I' t₂ i else 1) ?_ hr ?_
      · rw [if_pos rfl] at hclosed
        exact hclosed
      · intro i hi a j he w hw
        rcases hout i hi a j he with ⟨hiI, hj⟩ | ⟨hiI', hj⟩ | ⟨rfl, rfl, hj⟩ | ⟨hit, rfl, rfl⟩
        · have his : i ≠ s := fun h => hsI (h ▸ hiI)
          rw [if_neg his, if_pos hiI]
          refine mem_rest_of_edge hiI he ?_
          rcases hj with hj | rfl
          · rwa [if_neg (ne_of_mem_of_not_mem hj hsI), if_pos hj] at hw
          · rw [if_neg hst₁.symm, if_neg ht₁I, if_neg ht₁, Language.mem_one] at hw
            exact hw ▸ nil_mem_rest
        · have his : i ≠ s := fun h => hsI' (h ▸ hiI')
          rw [if_neg his, if_neg (hni i hiI'), if_pos hiI']
          refine mem_rest_of_edge hiI' he ?_
          rcases hj with hj | rfl
          · rwa [if_neg (ne_of_mem_of_not_mem hj hsI'), if_neg (hni j hj), if_pos hj] at hw
          · rw [if_neg hst₂.symm, if_neg ht₂, if_neg ht₂I', Language.mem_one] at hw
            exact hw ▸ nil_mem_rest
        · rw [if_pos rfl, Language.mem_add]
          rcases hj with rfl | rfl
          · rw [if_neg (ne_of_mem_of_not_mem hs₁ hsI), if_pos hs₁] at hw
            exact Or.inl hw
          · rw [if_neg (ne_of_mem_of_not_mem hs₂ hsI'), if_neg (hni _ hs₂), if_pos hs₂] at hw
            exact Or.inr hw
        · rw [if_neg hst.symm, if_neg htI, if_neg htI', Language.mem_one] at hw
          subst hw
          rcases hit with rfl | rfl
          · rw [if_neg hst₁.symm, if_neg ht₁I, if_neg ht₁]
            exact Language.nil_mem_one
          · rw [if_neg hst₂.symm, if_neg ht₂, if_neg ht₂I']
            exact Language.nil_mem_one
      · rw [if_neg hst.symm, if_neg htI, if_neg htI']
        exact Language.nil_mem_one
    · have hlast : ∀ {i v}, (i = t₁ ∨ i = t₂) → Run E (I ∪ I' ∪ {s, t₁, t₂}) s v i →
          Run E (I ∪ I' ∪ {s, t₁, t₂}) s v t := by
        intro i v hi hr
        have he : E i none t := by
          rcases hi with rfl | rfl
          · exact (hE₁ none t).mpr ⟨rfl, rfl⟩
          · exact (hE₂ none t).mpr ⟨rfl, rfl⟩
        have hlast := hr.trans (Run.edge (by rcases hi with rfl | rfl <;> simp) he)
        rwa [Option.toList_none, List.append_nil] at hlast
      rintro (hr | hr)
      · have hr' : Run E (I ∪ I' ∪ {s, t₁, t₂}) s₁ w t₁ :=
          Run.mono hr (fun i hi => Or.inl (Or.inl hi)) fun _ _ _ _ => id
        exact hlast (Or.inl rfl) (Run.step (by simp) ((hE none s₁).mpr ⟨rfl, Or.inl rfl⟩) hr')
      · have hr' : Run E (I ∪ I' ∪ {s, t₁, t₂}) s₂ w t₂ :=
          Run.mono hr (fun i hi => Or.inl (Or.inr hi)) fun _ _ _ _ => id
        exact hlast (Or.inr rfl) (Run.step (by simp) ((hE none s₂).mpr ⟨rfl, Or.inr rfl⟩) hr')

/-- A fragment between two new states: with an edge that passes it when `skip` holds, and with an
edge back to its start state when `again` holds. -/
lemma loop {s₁ t₁ : σ} {skip again : Prop} [Decidable skip] [Decidable again]
    (h : Fragment E I s₁ t₁ K) (hs : s ∉ I ∧ s ≠ t₁ ∧ s ≠ t) (ht : t ∉ I ∧ t ≠ t₁)
    (hE : ∀ a j, E s a j ↔ a = none ∧ (j = s₁ ∨ skip ∧ j = t))
    (hE₁ : ∀ a j, E t₁ a j ↔ a = none ∧ (j = t ∨ again ∧ j = s₁)) :
    Fragment E (I ∪ {s, t₁}) s t (K * (if again then K∗ else 1) + if skip then 1 else 0) := by
  classical
  obtain ⟨hsI, hst₁, hst⟩ := hs
  obtain ⟨htI, htt₁⟩ := ht
  have hout : ∀ i ∈ I ∪ {s, t₁}, ∀ a j, E i a j →
      (i ∈ I ∧ (j ∈ I ∨ j = t₁)) ∨ (i = s ∧ a = none ∧ (j = s₁ ∨ skip ∧ j = t)) ∨
      (i = t₁ ∧ a = none ∧ (j = t ∨ again ∧ j = s₁)) := by
    rintro i (hi | rfl | rfl) a j he
    · exact Or.inl ⟨hi, h.closed i hi a j he⟩
    · exact Or.inr (Or.inl ⟨rfl, (hE a j).mp he⟩)
    · exact Or.inr (Or.inr ⟨rfl, (hE₁ a j).mp he⟩)
  have hs₁ := h.start_mem
  have ht₁I := h.stop_notMem
  refine ⟨by simp, ?_, ?_, ?_, ?_⟩
  · rintro (hi | rfl | rfl)
    · exact htI hi
    · exact hst rfl
    · exact htt₁ rfl
  · intro i hi a j he
    rcases hout i hi a j he with ⟨-, hj | rfl⟩ | ⟨-, -, rfl | ⟨-, rfl⟩⟩ | ⟨-, -, rfl | ⟨-, rfl⟩⟩
    · exact Or.inl (Or.inl hj)
    · exact Or.inl (Or.inr (by simp))
    · exact Or.inl (Or.inl hs₁)
    · exact Or.inr rfl
    · exact Or.inr rfl
    · exact Or.inl (Or.inl hs₁)
  · intro i hi a he
    rcases hout i hi a s he with ⟨-, hj | hj⟩ | ⟨-, -, hj | ⟨-, hj⟩⟩ | ⟨-, -, hj | ⟨-, hj⟩⟩
    · exact hsI hj
    · exact hst₁ hj
    · exact hsI (hj ▸ hs₁)
    · exact hst hj
    · exact hst hj
    · exact hsI (hj ▸ hs₁)
  · rw [← h.rest_eq]
    ext w
    -- what may be read after the fragment has been passed once
    set T : Language α := if again then (rest E I t₁ s₁)∗ else 1 with hT
    have hnil : [] ∈ T := by
      rw [hT]
      split
      · exact Language.nil_mem_kstar _
      · exact Language.nil_mem_one
    constructor
    · intro hr
      have hclosed :=
        Run.mem_of_closed (fun i => if i = s then rest E I t₁ s₁ * T + (if skip then 1 else 0)
        else if i = t₁ then T else if i ∈ I then rest E I t₁ i * T else 1) ?_ hr ?_
      · rw [if_pos rfl] at hclosed
        exact hclosed
      · have hs₁s : s₁ ≠ s := fun h => hsI (h ▸ hs₁)
        have hs₁t₁ : s₁ ≠ t₁ := h.ne
        intro i hi a j he w hw
        rcases hout i hi a j he with ⟨hiI, hj⟩ | ⟨rfl, rfl, hj⟩ | ⟨rfl, rfl, hj⟩
        · rw [if_neg (ne_of_mem_of_not_mem hiI hsI), if_neg (ne_of_mem_of_not_mem hiI ht₁I),
            if_pos hiI]
          rcases hj with hj | rfl
          · rw [if_neg (ne_of_mem_of_not_mem hj hsI), if_neg (ne_of_mem_of_not_mem hj ht₁I),
              if_pos hj] at hw
            obtain ⟨x, hx, y, hy, rfl⟩ := Language.mem_mul.mp hw
            exact Language.mem_mul.mpr ⟨a.toList ++ x, mem_rest_of_edge hiI he hx, y, hy, by simp⟩
          · rw [if_neg hst₁.symm, if_pos rfl] at hw
            exact Language.mem_mul.mpr ⟨a.toList, Run.edge hiI he, w, hw, rfl⟩
        · rw [if_pos rfl, Language.mem_add]
          rcases hj with rfl | ⟨hskip, rfl⟩
          · rw [if_neg hs₁s, if_neg hs₁t₁, if_pos hs₁] at hw
            exact Or.inl hw
          · rw [if_neg hst.symm, if_neg htt₁, if_neg htI] at hw
            rw [if_pos hskip]
            exact Or.inr hw
        · rw [if_neg hst₁.symm, if_pos rfl]
          rcases hj with rfl | ⟨hagain, rfl⟩
          · rw [if_neg hst.symm, if_neg htt₁, if_neg htI, Language.mem_one] at hw
            exact hw ▸ hnil
          · rw [if_neg hs₁s, if_neg hs₁t₁, if_pos hs₁, hT, if_pos hagain] at hw
            rw [hT, if_pos hagain]
            exact (mul_kstar_le_kstar : rest E I i j * (rest E I i j)∗ ≤ _) hw
      · rw [if_neg hst.symm, if_neg htt₁, if_neg htI]
        exact Language.nil_mem_one
    · -- from the old stop state every word of `T` leads to the new one
      have hlast : ∀ v ∈ T, Run E (I ∪ {s, t₁}) t₁ v t := by
        have hexit : Run E (I ∪ {s, t₁}) t₁ [] t :=
          Run.edge (by simp) ((hE₁ none t).mpr ⟨rfl, Or.inl rfl⟩)
        intro v hv
        rw [hT] at hv
        split at hv
        · rename_i hagain
          obtain ⟨l, rfl, hl⟩ := Language.mem_kstar.mp hv
          induction l with
          | nil => exact hexit
          | cons x l ih =>
            rw [List.forall_mem_cons] at hl
            have hx : Run E (I ∪ {s, t₁}) s₁ x t₁ :=
              Run.mono hl.1 Set.subset_union_left fun _ _ _ _ => id
            have hrest := ih hl.2
            rw [List.flatten_cons]
            exact Run.step (by simp) ((hE₁ none s₁).mpr ⟨rfl, Or.inr ⟨hagain, rfl⟩⟩)
              (hx.trans (hrest (Language.join_mem_kstar hl.2)))
        · rw [Language.mem_one] at hv
          exact hv ▸ hexit
      rw [Language.mem_add]
      rintro (hr | hr)
      · obtain ⟨x, hx, y, hy, rfl⟩ := Language.mem_mul.mp hr
        have hx' : Run E (I ∪ {s, t₁}) s₁ x t₁ :=
          Run.mono hx Set.subset_union_left fun _ _ _ _ => id
        exact Run.step (by simp) ((hE none s₁).mpr ⟨rfl, Or.inl rfl⟩) (hx'.trans (hlast y hy))
      · split at hr
        · rename_i hskip
          rw [Language.mem_one] at hr
          subst hr
          exact Run.edge (by simp) ((hE none t).mpr ⟨rfl, Or.inr ⟨hskip, rfl⟩⟩)
        · exact absurd hr (Language.notMem_zero _)

end Fragment

/-! ## Walks through the whole graph -/

/-- A walk from a set that no edge leaves stays in the set. -/
lemma Run.mem_of_no_exit (hI : ∀ i ∈ I, ∀ a j, E i a j → j ∈ I) (h : Run E Set.univ i w j)
    (hi : i ∈ I) : j ∈ I := by
  induction h with
  | refl => exact hi
  | step _ he _ ih => exact ih (hI _ hi _ _ he)

/-- When no edge leaves the stop state, the walks through the whole graph are those of the
fragment. -/
lemma Fragment.run_iff (h : Fragment E I s t K) (ht : ∀ a j, ¬ E t a j) : Run E Set.univ s w t ↔
    w ∈ K := by
  rw [← h.rest_eq]
  constructor
  · intro hr
    have hinside : ∀ {i j w}, Run E Set.univ i w j → i ∈ I → j = t → Run E I i w t := by
      intro i j w hr
      induction hr with
      | refl =>
        rintro hi rfl
        exact absurd hi h.stop_notMem
      | step _ he hrest ih =>
        rintro hi rfl
        rcases h.closed _ hi _ _ he with hj | rfl
        · exact .step hi he (ih hj rfl)
        · cases hrest with
          | refl => exact .step hi he (.refl _)
          | step _ he' _ => exact absurd he' (ht _ _)
    exact hinside hr h.start_mem rfl
  · intro hr
    exact Run.mono hr (Set.subset_univ I) fun _ _ _ _ => id

/-- A chain of states, each with an edge to a fragment and an edge to the next state of the chain.
The lists are the stop states of the fragments and their languages. -/
inductive Spine (E : σ → Option α → σ → Prop) : Set σ → σ → List σ → List (Language α) → Prop
  /-- The last state of the chain. -/
  | last {p s t : σ} {I : Set σ} {K : Language α} : Fragment E I s t K → p ∉ I → p ≠ t →
      (∀ a j, E p a j ↔ a = none ∧ j = s) → (∀ a j, ¬ E t a j) → Spine E (I ∪ {p, t}) p [t] [K]
  /-- A state of the chain before another one. -/
  | cons {p q s t : σ} {I J : Set σ} {K : Language α} {ts : List σ} {Ks : List (Language α)} :
      Fragment E I s t K → p ∉ I → p ≠ t → (∀ a j, E p a j ↔ a = none ∧ (j = s ∨ j = q)) →
      (∀ a j, ¬ E t a j) → Spine E J q ts Ks → (∀ i ∈ I ∪ {p, t}, i ∉ J) →
      Spine E (I ∪ {p, t} ∪ J) p (t :: ts) (K :: Ks)

namespace Spine

variable {p : σ} {ts : List σ} {Ks : List (Language α)}

/-- The chain starts inside its set of states. -/
lemma start_mem (h : Spine E J p ts Ks) : p ∈ J := by
  rcases h with - | - <;> simp

/-- The stop states of the alternatives of a chain are inside the chain. -/
lemma stop_mem (h : Spine E J p ts Ks) : ∀ t ∈ ts, t ∈ J := by
  induction h with
  | last => simp
  | cons _ _ _ _ _ _ _ ih =>
    intro t ht
    rcases List.mem_cons.mp ht with rfl | ht
    · simp
    · exact Or.inr (ih t ht)

/-- No edge leaves a fragment together with its stop state. -/
lemma exit_of_fragment (h : Fragment E I s t K) (ht : ∀ a j, ¬ E t a j) :
    ∀ i ∈ I ∪ {t}, ∀ a j, E i a j → j ∈ I ∪ {t} := by
  rintro i (hi | rfl) a j he
  · exact h.closed i hi a j he
  · exact absurd he (ht a j)

/-- No edge leaves a chain, since its stop states have none. -/
lemma no_exit (h : Spine E J p ts Ks) : ∀ i ∈ J, ∀ a j, E i a j → j ∈ J := by
  induction h with
  | @last p s t I K hfrag hp hpt hE ht =>
    have hexit := exit_of_fragment hfrag ht
    rintro i (hi | rfl | rfl) a j he
    · rcases hexit i (Or.inl hi) a j he with hj | rfl
      · exact Or.inl hj
      · exact Or.inr (by simp)
    · rw [((hE a j).mp he).2]
      exact Or.inl hfrag.start_mem
    · exact absurd he (ht a j)
  | @cons p q s t I J K ts Ks hfrag hp hpt hE ht hrest hd ih =>
    have hexit := exit_of_fragment hfrag ht
    rintro i ((hi | rfl | rfl) | hi) a j he
    · rcases hexit i (Or.inl hi) a j he with hj | rfl
      · exact Or.inl (Or.inl hj)
      · exact Or.inl (Or.inr (by simp))
    · rcases ((hE a j).mp he).2 with rfl | rfl
      · exact Or.inl (Or.inl hfrag.start_mem)
      · exact Or.inr hrest.start_mem
    · exact absurd he (ht a j)
    · exact Or.inr (ih i hi a j he)

/-- What is read on the walks from the start of a chain to a stop state is the language of its
fragment. -/
theorem run_iff (h : Spine E J p ts Ks) :
    List.Forall₂ (fun t K => ∀ w, Run E Set.univ p w t ↔ w ∈ K) ts Ks := by
  induction h with
  | @last p s t I K hfrag hp hpt hE ht =>
    refine .cons (fun w => ?_) .nil
    rw [← hfrag.run_iff ht]
    constructor
    · intro hr
      cases hr with
      | refl => exact absurd rfl hpt
      | step _ he hr =>
        obtain ⟨rfl, rfl⟩ := (hE _ _).mp he
        exact hr
    · intro hr
      exact Run.step (Set.mem_univ p) ((hE none s).mpr ⟨rfl, rfl⟩) hr
  | @cons p q s t I J K ts Ks hfrag hp hpt hE ht hrest hd ih =>
    refine .cons (fun w => ?_) ?_
    · rw [← hfrag.run_iff ht]
      constructor
      · intro hr
        cases hr with
        | refl => exact absurd rfl hpt
        | step _ he hr =>
          obtain ⟨rfl, rfl | rfl⟩ := (hE _ _).mp he
          · exact hr
          · exact absurd (hr.mem_of_no_exit hrest.no_exit hrest.start_mem) (hd t (by simp))
      · intro hr
        exact Run.step (Set.mem_univ p) ((hE none s).mpr ⟨rfl, Or.inl rfl⟩) hr
    · rw [List.forall₂_iff_get] at ih ⊢
      refine ⟨ih.1, fun i hi hi' w => ?_⟩
      rw [← ih.2 i hi hi' w]
      have hmem := hrest.stop_mem (ts.get ⟨i, hi⟩) (List.get_mem ts ⟨i, hi⟩)
      generalize ts.get ⟨i, hi⟩ = t' at hmem
      constructor
      · intro hr
        cases hr with
        | refl => exact absurd hmem (hd _ (by simp))
        | step _ he hr =>
          obtain ⟨rfl, rfl | rfl⟩ := (hE _ _).mp he
          · have hin := hr.mem_of_no_exit (exit_of_fragment hfrag ht) (Or.inl hfrag.start_mem)
            exact absurd hmem (hd _ (by rcases hin with hin | hin <;> simp_all))
          · exact hr
      · intro hr
        exact Run.step (Set.mem_univ p) ((hE none q).mpr ⟨rfl, Or.inr rfl⟩) hr

end Spine

end Labelled
