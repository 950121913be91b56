import Cgkits.Lib.Fragment
import Cgkits.Lex.Terp

/-!
# The pieces of the machine and their languages

The edges of the states make a labelled graph, and a piece of the machine is a fragment of this
graph whose states are new (`Spells`).  The end state of a piece has no edges, and a state that is
not in use has no pointers.  Each way of putting pieces together in `nfa.c` is a way of putting
fragments together; the concatenation copies the start state of the second piece over the end state
of the first one, which is sound since no edge enters a start state.
-/

namespace Lex

open Labelled Computability

/-! ## The graph -/

/-- The edges that leave a state: two without a label, or one that reads characters. -/
def Node.Edge (p : Node) : Option (Fin maxChars) → ℕ → Prop
  | none, j => p.edge = epsilon ∧ (p.next = some j ∨ p.next2 = some j)
  | some c, j => p.reads c = true ∧ p.next = some j

/-- The graph of the machine, with the labels of its edges. -/
def States.Edge (m : States) (i : ℕ) : Option (Fin maxChars) → ℕ → Prop := (m.node i).Edge

/-- The state has no pointers to other states. -/
def Node.Bare (p : Node) : Prop := p.next = none ∧ p.next2 = none

/-- The states that are not in use have no pointers. -/
def States.Blank (m : States) : Prop := ∀ i, ¬ m.Live i → (m.node i).Bare

/-- A state with a label that is no `epsilon` has edges to the next state. -/
lemma Node.edge_iff_of_ne {p : Node} {j : ℕ} (he : p.edge ≠ epsilon) (hn : p.next = some j)
    (a : Option (Fin maxChars)) (k : ℕ) :
    p.Edge a k ↔ k = j ∧ ∃ x ∈ {c | p.reads c = true}, a = some x := by
  cases a with
  | none => simp [Node.Edge, he]
  | some c =>
    constructor
    · rintro ⟨hr, hk⟩
      rw [hn, Option.some.injEq] at hk
      exact ⟨hk.symm, c, hr, rfl⟩
    · rintro ⟨rfl, x, hx, hc⟩
      cases hc
      exact ⟨hx, hn⟩

/-- A state without a label reads no character. -/
lemma Node.not_reads_of_epsilon {p : Node} (he : p.edge = epsilon) (c : Fin maxChars) :
    p.reads c = false := by
  have hc : ((c : ℕ) : ℤ) ≠ -1 := by omega
  simp [Node.reads, he, epsilon, ccl, hc.symm]

/-- A state without a label has edges to its two next states. -/
lemma Node.edge_iff_of_epsilon {p : Node} (he : p.edge = epsilon) (a : Option (Fin maxChars))
    (k : ℕ) : p.Edge a k ↔ a = none ∧ (p.next = some k ∨ p.next2 = some k) := by
  cases a with
  | none => simp [Node.Edge, he]
  | some c => simp [Node.Edge, Node.not_reads_of_epsilon he]

/-- `new` makes a state without a label and without pointers. -/
lemma new_node {m m' : States} {p : ℕ} (h : m.Ok) (hb : m.Blank) (hnew : new m = .ok (p, m')) :
    (∀ i, i ≠ p → m'.node i = m.node i) ∧ (m'.node p).edge = epsilon ∧ (m'.node p).Bare ∧
    m'.Blank := by
  obtain ⟨hext, hown⟩ := new_spec h hnew
  have hnode : m'.node = Function.update m.node p { m.node p with edge := epsilon } := by
    unfold new at hnew
    split at hnew
    · cases hnew
    · split at hnew
      · cases hnew
        rfl
      · cases hnew
        rfl
  have hne : ∀ i, i ≠ p → m'.node i = m.node i := by
    intro i hi
    rw [hnode, Function.update_of_ne hi]
  refine ⟨hne, ?_, ?_, ?_⟩
  · rw [hnode, Function.update_self]
  · rw [hnode, Function.update_self]
    exact hb p hown.1
  · intro i hi
    have hip : i ≠ p := by
      rintro rfl
      exact hi hown.2
    rw [hne i hip]
    exact hb i fun hm => hi (hext.live i hm)

/-- Assigning to a state in use keeps the other states without pointers. -/
lemma States.Blank.modify {m : States} {i : ℕ} {f : Node → Node} (h : m.Blank) (hi : m.Live i) :
    (m.modify i f).Blank := by
  intro j hj
  have hji : j ≠ i := by
    rintro rfl
    exact hj hi
  rw [States.node_modify_of_ne hji]
  exact h j hj

/-- When a state is discarded, it has no pointers, and the other blank states stay so. -/
lemma States.Blank.discard {m m' : States} {q : ℕ} (h : m.Blank) (hdis : discard q m = .ok m') :
    m'.Blank := by
  unfold Lex.discard at hdis
  split at hdis
  · cases hdis
  · cases hdis
    intro i hi
    by_cases hiq : i = q
    · subst hiq
      rw [States.node_modify_self]
      exact ⟨rfl, rfl⟩
    · rw [States.node_modify_of_ne hiq]
      apply h i
      rintro ⟨hlt, hmem⟩
      exact hi ⟨hlt, List.not_mem_cons_of_ne_of_not_mem hiq hmem⟩

/-- Discarding a state leaves the other states as they are. -/
lemma discard_node {m m' : States} {q i : ℕ} (hdis : discard q m = .ok m') (hi : i ≠ q) :
    m'.node i = m.node i := by
  unfold Lex.discard at hdis
  split at hdis
  · cases hdis
  · cases hdis
    exact States.node_modify_of_ne hi

/-! ## Pieces with their languages -/

/-- The piece `f` has been built from new states, and `K` is its language. -/
structure Spells (m₀ m : States) (f : Frag) (K : Language (Fin maxChars)) : Prop where
  /-- The piece has been built. -/
  built : Built m₀ m f
  /-- The states that are not in use have no pointers. -/
  blank : m.Blank
  /-- The end state has no label. -/
  stop_edge : (m.node f.stop).edge = epsilon
  /-- The end state has no pointers. -/
  stop_bare : (m.node f.stop).Bare
  /-- The piece is a fragment of the graph. -/
  fragment : ∃ I : Set ℕ, (∀ i ∈ I, Own m₀ m i) ∧ Fragment m.Edge I f.start f.stop K

variable {m₀ m m' m'' : States} {f g k : Frag} {K M : Language (Fin maxChars)}

/-- What was in use before a piece is no part of it. -/
lemma Own.ne {i j : ℕ} (hi : Own m m' i) (hj : m.Live j) : i ≠ j := by
  rintro rfl
  exact hi.1 hj

/-- The edges of a state with a second pointer under a condition. -/
lemma pointers_iff {x y j : ℕ} {c : Prop} [Decidable c] :
    (some x = some j ∨ (if c then some y else none) = some j) ↔ j = x ∨ c ∧ j = y := by
  rw [Option.some.injEq, Option.ite_none_right_eq_some, Option.some.injEq, @eq_comm _ x,
    @eq_comm _ y]

/-- `factor` puts two states around a piece, which then spells the closure of its language. -/
lemma Spells.closeFrag {t : Token} (hf : Spells m₀ m f K) (h : closeFrag t f m = .ok (g, m')) :
    Spells m₀ m' g (K * (if t = .closrue ∨ t = .plusClose then K∗ else 1) +
      if t = .closrue ∨ t = .optional then 1 else 0) := by
  have hbuilt := hf.built.closeFrag h
  obtain ⟨⟨start, m₁⟩, h₁, h⟩ := bind_eq_ok.mp h
  obtain ⟨⟨stop, m₂⟩, h₂, h⟩ := bind_eq_ok.mp h
  obtain ⟨hext₁, hstep₁, hstart⟩ := hf.built.ext.new h₁
  obtain ⟨hext₂, hstep₂, hstop⟩ := hext₁.new h₂
  obtain ⟨hnode₁, hedge₁, hbare₁, hblank₁⟩ := new_node hf.built.ext.ok hf.blank h₁
  obtain ⟨hnode₂, hedge₂, hbare₂, hblank₂⟩ := new_node hext₁.ok hblank₁ h₂
  cases h
  have hfstart := hf.built.start
  have hfstop := hf.built.stop
  have hne₁ : start ≠ f.stop := hstart.ne hfstop.2
  have hne₂ : stop ≠ f.stop := hstop.ne (hstep₁.live _ hfstop.2)
  have hne₃ : stop ≠ start := hstop.ne hstart.2
  have hlive₁ : m₂.Live start := hstep₂.live _ hstart.2
  have hlive₂ : m₂.Live f.stop := hstep₂.live _ (hstep₁.live _ hfstop.2)
  obtain ⟨I, hI, hfrag⟩ := hf.fragment
  have hIne : ∀ i ∈ I, i ≠ start ∧ i ≠ stop ∧ i ≠ f.stop := by
    intro i hi
    refine ⟨fun he => hstart.1 (he ▸ (hI i hi).2), fun he =>
      hstop.1 (he ▸ hstep₁.live _ (hI i hi).2), ?_⟩
    rintro rfl
    exact hfrag.stop_notMem hi
  -- the states after all assignments
  generalize hm :
      (((m₂.modify start fun p => { p with next := some f.start }).modify f.stop fun p =>
    { p with next := some stop }).modify start fun p =>
      if t = .closrue ∨ t = .optional then { p with next2 := some stop } else
        p).modify f.stop (fun p =>
        if t = .closrue ∨ t = .plusClose then { p with next2 := some f.start } else p) = m'
  have hnode_of_ne : ∀ i, i ≠ start → i ≠ f.stop → m'.node i = m₂.node i := by
    intro i hi₁ hi₂
    simp [← hm, States.node_modify_of_ne, hi₁, hi₂]
  have hnodestart : (m'.node start).edge = epsilon ∧ (m'.node start).next = some f.start ∧
      (m'.node start).next2 = if t = .closrue ∨ t = .optional then some stop else none := by
    rw [← hm, States.node_modify_of_ne hne₁, States.node_modify_self, States.node_modify_of_ne hne₁,
      States.node_modify_self, hnode₂ start hne₃.symm]
    split
    · exact ⟨hedge₁, rfl, rfl⟩
    · exact ⟨hedge₁, rfl, hbare₁.2⟩
  have hnodestop : (m'.node f.stop).edge = epsilon ∧ (m'.node f.stop).next = some stop ∧
      (m'.node f.stop).next2 = if t = .closrue ∨ t = .plusClose then some f.start else none := by
    rw [← hm, States.node_modify_self, States.node_modify_of_ne hne₁.symm, States.node_modify_self,
      States.node_modify_of_ne hne₁.symm, hnode₂ _ hne₂.symm, hnode₁ _ hne₁.symm]
    split
    · exact ⟨hf.stop_edge, rfl, rfl⟩
    · exact ⟨hf.stop_edge, rfl, hf.stop_bare.2⟩
  refine ⟨hm ▸ hbuilt, ?_, ?_, ?_, I ∪ {start, f.stop}, ?_, ?_⟩
  · rw [← hm]
    exact (((hblank₂.modify hlive₁).modify hlive₂).modify hlive₁).modify hlive₂
  · rw [hnode_of_ne stop hne₃ hne₂]
    exact hedge₂
  · rw [hnode_of_ne stop hne₃ hne₂]
    exact hbare₂
  · have hlive : ∀ i, m₂.Live i → m'.Live i := by
      intro i hi
      rw [← hm]
      exact hi
    rintro i (hi | rfl | rfl)
    · exact ⟨(hI i hi).1, hlive _ (hstep₂.live _ (hstep₁.live _ (hI i hi).2))⟩
    · exact ⟨fun h => hstart.1 (hf.built.ext.live _ h), hlive _ hlive₁⟩
    · exact ⟨hfstop.1, hlive _ hlive₂⟩
  · refine Fragment.loop (hfrag.congr ?_) ⟨?_, hne₁, hne₃.symm⟩ ⟨?_, hne₂⟩ ?_ ?_
    · intro i hi a j
      obtain ⟨hi₁, hi₂, hi₃⟩ := hIne i hi
      unfold States.Edge
      rw [hnode_of_ne i hi₁ hi₃, hnode₂ i hi₂, hnode₁ i hi₁]
    · intro hi
      exact (hIne start hi).1 rfl
    · intro hi
      exact (hIne stop hi).2.1 rfl
    · intro a j
      unfold States.Edge
      rw [Node.edge_iff_of_epsilon hnodestart.1, hnodestart.2.1, hnodestart.2.2, pointers_iff]
    · intro a j
      unfold States.Edge
      rw [Node.edge_iff_of_epsilon hnodestop.1, hnodestop.2.1, hnodestop.2.2, pointers_iff]

/-- The concatenation of two pieces spells the product of their languages. -/
lemma Spells.joinFrag (hf : Spells m₀ m f K) (hg : Spells m m' g M)
    (h : joinFrag f g m' = .ok (k, m'')) : Spells m₀ m'' k (K * M) := by
  have hbuilt := hf.built.joinFrag hg.built h
  obtain ⟨m₁, h₁, h⟩ := bind_eq_ok.mp h
  cases h
  have hfstop := hf.built.stop
  have hgstart := hg.built.start
  have hgstop := hg.built.stop
  have hne₁ : g.start ≠ f.stop := hgstart.ne hfstop.2
  have hne₂ : g.stop ≠ f.stop := hgstop.ne hfstop.2
  have hne₃ : g.stop ≠ g.start := hg.built.ne.symm
  -- the end state of the first piece is a copy, the start state of the second one is discarded
  have hnode : ∀ i, i ≠ f.stop → i ≠ g.start → m''.node i = m'.node i := by
    intro i hi₁ hi₂
    rw [discard_node h₁ hi₂, States.node_modify_of_ne hi₁]
  have hcopy : m''.node f.stop = m'.node g.start := by
    rw [discard_node h₁ hne₁.symm, States.node_modify_self]
  have hlive : ∀ i, i ≠ g.start → m'.Live i → m''.Live i := by
    intro i hi hm
    have hlive' : (m'.modify f.stop fun _ => m'.node g.start).Live i := hm
    unfold discard at h₁
    split at h₁
    · cases h₁
    · cases h₁
      exact ⟨hlive'.1, List.not_mem_cons_of_ne_of_not_mem hi hlive'.2⟩
  obtain ⟨I, hI, hfrag⟩ := hf.fragment
  obtain ⟨J, hJ, hfrag'⟩ := hg.fragment
  have hfstopJ : f.stop ∉ J := fun hmem => (hJ _ hmem).1 hfstop.2
  have hIne : ∀ i ∈ I, i ≠ f.stop ∧ i ≠ g.start := by
    intro i hi
    exact ⟨ne_of_mem_of_not_mem hi hfrag.stop_notMem, (hgstart.ne (hI i hi).2).symm⟩
  have hfirst : Fragment m''.Edge I f.start f.stop K := by
    refine hfrag.congr ?_
    intro i hi a j
    unfold States.Edge
    rw [hnode i (hIne i hi).1 (hIne i hi).2, hg.built.ext.frame i (hI i hi).2]
  have hsecond : Fragment m''.Edge (insert f.stop (J \ {g.start})) f.stop g.stop M := by
    refine hfrag'.move hfstopJ hne₂.symm ?_ ?_
    · intro i hi his a j
      unfold States.Edge
      rw [hnode i (ne_of_mem_of_not_mem hi hfstopJ) his]
    · intro a j
      unfold States.Edge
      rw [hcopy]
  refine ⟨hbuilt, ?_, ?_, ?_, I ∪ insert f.stop (J \ {g.start}), ?_, ?_⟩
  · exact (hg.blank.modify (hg.built.ext.live _ hfstop.2)).discard h₁
  · rw [hnode g.stop hne₂ hne₃]
    exact hg.stop_edge
  · rw [hnode g.stop hne₂ hne₃]
    exact hg.stop_bare
  · rintro i (hi | rfl | ⟨hi, his⟩)
    · exact ⟨(hI i hi).1, hlive i (hIne i hi).2 (hg.built.ext.live i (hI i hi).2)⟩
    · exact ⟨hfstop.1, hlive _ hne₁.symm (hg.built.ext.live _ hfstop.2)⟩
    · exact ⟨(hf.built.ext.own (hJ i hi)).1, hlive i his (hJ i hi).2⟩
  · refine hfirst.cat hsecond ?_ ?_
    · rintro i hi (rfl | ⟨hi', -⟩)
      · exact hfrag.stop_notMem hi
      · exact (hJ i hi').1 (hI i hi).2
    · intro hmem
      exact hgstop.1 (hI _ hmem).2

/-- The alternative of two pieces spells the sum of their languages. -/
lemma Spells.orFrag (hf : Spells m₀ m f K) (hg : Spells m m' g M)
    (h : orFrag f g m' = .ok (k, m'')) : Spells m₀ m'' k (K + M) := by
  have hbuilt := hf.built.orFrag hg.built h
  obtain ⟨⟨start, m₁⟩, h₁, h⟩ := bind_eq_ok.mp h
  obtain ⟨⟨stop, m₂⟩, h₂, h⟩ := bind_eq_ok.mp h
  obtain ⟨hext₁, hstart⟩ := new_spec hg.built.ext.ok h₁
  obtain ⟨hnode₁, hedge₁, hbare₁, hblank₁⟩ := new_node hg.built.ext.ok hg.blank h₁
  have hfstop : m'.Live f.stop := hg.built.ext.live _ hf.built.stop.2
  have hgstop := hg.built.stop
  have hok₁ :
      (m₁.modify start fun p => { p with next2 := some g.start, next := some f.start }).Ok := by
    apply hext₁.ok.modify
    · intro hn
      exact absurd hstart.2 hn
    · rintro j ⟨⟩
      exact (hext₁.live _ (hg.built.ext.live _ hf.built.start.2)).1
    · rintro j ⟨⟩
      exact (hext₁.live _ hg.built.start.2).1
  obtain ⟨hext₂, hstop⟩ := new_spec hok₁ h₂
  obtain ⟨hnode₂, hedge₂, hbare₂, hblank₂⟩ := new_node hok₁ (hblank₁.modify hstart.2) h₂
  cases h
  have hne₁ : start ≠ f.stop := hstart.ne hfstop
  have hne₂ : start ≠ g.stop := hstart.ne hgstop.2
  have hne₃ : stop ≠ f.stop := hstop.ne (hext₁.live _ hfstop)
  have hne₄ : stop ≠ g.stop := hstop.ne (hext₁.live _ hgstop.2)
  have hne₅ : stop ≠ start := hstop.ne hstart.2
  have hne₆ : g.stop ≠ f.stop := hgstop.ne hf.built.stop.2
  have hlive₁ : m₂.Live f.stop := hext₂.live _ (hext₁.live _ hfstop)
  have hlive₂ : m₂.Live g.stop := hext₂.live _ (hext₁.live _ hgstop.2)
  -- the states after all assignments
  generalize hm : (m₂.modify f.stop fun p => { p with next := some stop }).modify g.stop
    (fun p => { p with next := some stop }) = m''
  have hnode_of_ne : ∀ i, i ≠ start → i ≠ stop → i ≠ f.stop → i ≠ g.stop →
      m''.node i = m'.node i := by
    intro i hi₁ hi₂ hi₃ hi₄
    rw [← hm, States.node_modify_of_ne hi₄, States.node_modify_of_ne hi₃, hnode₂ i hi₂,
      States.node_modify_of_ne hi₁, hnode₁ i hi₁]
  have hnodestart : (m''.node start).edge = epsilon ∧ (m''.node start).next = some f.start ∧
      (m''.node start).next2 = some g.start := by
    rw [← hm, States.node_modify_of_ne hne₂, States.node_modify_of_ne hne₁, hnode₂ start hne₅.symm,
      States.node_modify_self]
    exact ⟨hedge₁, rfl, rfl⟩
  have hnodestop : m''.node stop = m₂.node stop := by
    rw [← hm, States.node_modify_of_ne hne₄, States.node_modify_of_ne hne₃]
  have hfnode : (m''.node f.stop).edge = epsilon ∧ (m''.node f.stop).next = some stop ∧
      (m''.node f.stop).next2 = none := by
    rw [← hm, States.node_modify_of_ne hne₆.symm, States.node_modify_self, hnode₂ _ hne₃.symm,
      States.node_modify_of_ne hne₁.symm, hnode₁ _ hne₁.symm, hg.built.ext.frame _ hf.built.stop.2]
    exact ⟨hf.stop_edge, rfl, hf.stop_bare.2⟩
  have hgnode : (m''.node g.stop).edge = epsilon ∧ (m''.node g.stop).next = some stop ∧
      (m''.node g.stop).next2 = none := by
    rw [← hm, States.node_modify_self, States.node_modify_of_ne hne₆, hnode₂ _ hne₄.symm,
      States.node_modify_of_ne hne₂.symm, hnode₁ _ hne₂.symm]
    exact ⟨hg.stop_edge, rfl, hg.stop_bare.2⟩
  obtain ⟨I, hI, hfrag⟩ := hf.fragment
  obtain ⟨J, hJ, hfrag'⟩ := hg.fragment
  have hIlive : ∀ i ∈ I, m'.Live i := fun i hi => hg.built.ext.live i (hI i hi).2
  have hout : ∀ i, m'.Live i → i ≠ start ∧ i ≠ stop :=
    fun i hi => ⟨(hstart.ne hi).symm, (hstop.ne (hext₁.live i hi)).symm⟩
  have hgstopI : g.stop ∉ I := fun hmem => hgstop.1 (hI _ hmem).2
  have hfstopJ : f.stop ∉ J := fun hmem => (hJ _ hmem).1 hf.built.stop.2
  refine ⟨hm ▸ hbuilt, ?_, ?_, ?_, I ∪ J ∪ {start, f.stop, g.stop}, ?_, ?_⟩
  · rw [← hm]
    exact (hblank₂.modify hlive₁).modify hlive₂
  · rw [hnodestop]
    exact hedge₂
  · rw [hnodestop]
    exact hbare₂
  · have hlive : ∀ i, m'.Live i → m''.Live i := by
      intro i hi
      rw [← hm]
      exact hext₂.live i (hext₁.live i hi)
    rintro i ((hi | hi) | rfl | rfl | rfl)
    · exact ⟨(hI i hi).1, hlive i (hIlive i hi)⟩
    · exact ⟨(hf.built.ext.own (hJ i hi)).1, hlive i (hJ i hi).2⟩
    · refine ⟨fun h => hstart.1 (hg.built.ext.live _ (hf.built.ext.live _ h)), ?_⟩
      rw [← hm]
      exact hext₂.live _ hstart.2
    · exact ⟨hf.built.stop.1, hlive _ hfstop⟩
    · exact ⟨(hf.built.ext.own hgstop).1, hlive _ hgstop.2⟩
  · refine Fragment.alt (hfrag.congr ?_) (hfrag'.congr ?_) ?_ hfstopJ hgstopI ?_ ?_ ?_ ?_ ?_
    · intro i hi a j
      have hio := hout i (hIlive i hi)
      unfold States.Edge
      rw [hnode_of_ne i hio.1 hio.2 (ne_of_mem_of_not_mem hi hfrag.stop_notMem)
        (ne_of_mem_of_not_mem hi hgstopI), hg.built.ext.frame i (hI i hi).2]
    · intro i hi a j
      have hio := hout i (hJ i hi).2
      unfold States.Edge
      rw [hnode_of_ne i hio.1 hio.2 (ne_of_mem_of_not_mem hi hfstopJ)
        (ne_of_mem_of_not_mem hi hfrag'.stop_notMem)]
    · intro i hi hi'
      exact (hJ i hi').1 (hI i hi).2
    · refine ⟨?_, ?_, hne₁, hne₂, hne₅.symm⟩
      · intro hmem
        exact hstart.1 (hIlive _ hmem)
      · intro hmem
        exact hstart.1 (hJ _ hmem).2
    · refine ⟨?_, ?_, hne₃, hne₄⟩
      · intro hmem
        exact hstop.1 (hext₁.live _ (hIlive _ hmem))
      · intro hmem
        exact hstop.1 (hext₁.live _ (hJ _ hmem).2)
    · intro a j
      unfold States.Edge
      rw [Node.edge_iff_of_epsilon hnodestart.1, hnodestart.2.1, hnodestart.2.2, Option.some.injEq,
        Option.some.injEq, @eq_comm _ f.start, @eq_comm _ g.start]
    · intro a j
      unfold States.Edge
      rw [Node.edge_iff_of_epsilon hfnode.1, hfnode.2.1, hfnode.2.2, Option.some.injEq,
        @eq_comm _ stop]
      simp
    · intro a j
      unfold States.Edge
      rw [Node.edge_iff_of_epsilon hgnode.1, hgnode.2.1, hgnode.2.2, Option.some.injEq,
        @eq_comm _ stop]
      simp

/-- `term` makes two states for a character or a class. -/
lemma spells_letters {start stop : ℕ} {m₁ m₂ : States} {C : Set (Fin maxChars)} {fn : Node → Node}
    (hok : m.Ok) (hblank : m.Blank) (h₁ : new m = .ok (start, m₁)) (h₂ : new m₁ = .ok (stop, m₂))
    (hedge : ∀ p, (fn p).edge ≠ epsilon) (hnext : ∀ p, (fn p).next = p.next)
    (hreads : ∀ p c, (fn p).reads c = true ↔ c ∈ C)
    (hbuilt : Built m ((m₂.modify start fun p => { p with next := some stop }).modify start fn)
    ⟨start, stop⟩) :
    Spells m ((m₂.modify start fun p => { p with next := some stop }).modify start fn) ⟨start, stop⟩
      (Fragment.letters C) := by
  obtain ⟨hext₁, hstart⟩ := new_spec hok h₁
  obtain ⟨hext₂, hstop⟩ := new_spec hext₁.ok h₂
  obtain ⟨-, -, -, hblank₁⟩ := new_node hok hblank h₁
  obtain ⟨-, hedge₂, hbare₂, hblank₂⟩ := new_node hext₁.ok hblank₁ h₂
  have hne : start ≠ stop := (hstop.ne hstart.2).symm
  have hlive : m₂.Live start := hext₂.live _ hstart.2
  refine ⟨hbuilt, (hblank₂.modify hlive).modify hlive, ?_, ?_, {start}, ?_, ?_⟩
  · rw [States.node_modify_of_ne hne.symm, States.node_modify_of_ne hne.symm]
    exact hedge₂
  · rw [States.node_modify_of_ne hne.symm, States.node_modify_of_ne hne.symm]
    exact hbare₂
  · intro i hi
    rw [Set.mem_singleton_iff.mp hi]
    exact hbuilt.start
  · apply Fragment.letter hne
    intro a j
    unfold States.Edge
    rw [States.node_modify_self, States.node_modify_self, Node.edge_iff_of_ne (hedge _) (hnext _)]
    have hset : ∀ x, x ∈ {c | (fn { m₂.node start with next := some stop }).reads c = true} ↔
        x ∈ C :=
      fun x => hreads _ x
    simp only [hset]

/-- `rule` puts a state with a label before a piece, which then reads the label first. -/
lemma Spells.bol {start : ℕ} {m₁ : States} {C : Set (Fin maxChars)} {fn : Node → Node} (hok : m.Ok)
    (h₁ : new m = .ok (start, m₁)) (hf : Spells (m₁.modify start fn) m' f K)
    (hedge : ∀ p, (fn p).edge ≠ epsilon) (hreads : ∀ p c, (fn p).reads c = true ↔ c ∈ C)
    (hbuilt : Built m (m'.modify start fun p => { p with next := some f.start }) ⟨start, f.stop⟩) :
    Spells m (m'.modify start fun p => { p with next := some f.start }) ⟨start, f.stop⟩
      (Fragment.letters C * K) := by
  obtain ⟨hext₁, hstart⟩ := new_spec hok h₁
  have hlive : m'.Live start := hf.built.ext.live _ hstart.2
  have hnode : m'.node start = fn (m₁.node start) := by
    rw [hf.built.ext.frame start hstart.2, States.node_modify_self]
  obtain ⟨I, hI, hfrag⟩ := hf.fragment
  have hstartI : start ∉ I := fun hmem => (hI _ hmem).1 hstart.2
  have hne : start ≠ f.stop := hbuilt.ne
  refine ⟨hbuilt, hf.blank.modify hlive, ?_, ?_, {start} ∪ I, ?_, ?_⟩
  · rw [States.node_modify_of_ne hne.symm]
    exact hf.stop_edge
  · rw [States.node_modify_of_ne hne.symm]
    exact hf.stop_bare
  · rintro i (rfl | hi)
    · exact hbuilt.start
    · exact ⟨fun hm => (hI i hi).1 (hext₁.live i hm), (hI i hi).2⟩
  · refine Fragment.cat (t := f.start) ?_ (hfrag.congr ?_) ?_ ?_
    · apply Fragment.letter (ne_of_mem_of_not_mem hfrag.start_mem hstartI).symm
      intro a j
      unfold States.Edge
      rw [States.node_modify_self, hnode]
      have he : ({ fn (m₁.node start) with next := some f.start } : Node).edge ≠ epsilon := hedge _
      rw [Node.edge_iff_of_ne he rfl]
      have hset :
          ∀ x, x ∈ {c | ({ fn (m₁.node start) with next := some f.start } : Node).reads c = true} ↔
            x ∈ C := fun x => hreads _ x
      simp only [hset]
    · intro i hi a j
      unfold States.Edge
      rw [States.node_modify_of_ne (ne_of_mem_of_not_mem hi hstartI)]
    · intro i hi hi'
      rw [Set.mem_singleton_iff.mp hi] at hi'
      exact hstartI hi'
    · intro hmem
      exact hne (Set.mem_singleton_iff.mp hmem).symm

/-- `rule` puts a state with a label behind a piece, which then reads the label last. -/
lemma Spells.eol {stop : ℕ} {m₁ : States} {C : Set (Fin maxChars)} {fn : Node → Node}
    (hf : Spells m₀ m f K) (h₁ : new m = .ok (stop, m₁)) (hedge : ∀ p, (fn p).edge ≠ epsilon)
    (hnext : ∀ p, (fn p).next = some stop) (hreads : ∀ p c, (fn p).reads c = true ↔ c ∈ C)
    (hbuilt : Built m₀ (m₁.modify f.stop fn) ⟨f.start, stop⟩) :
    Spells m₀ (m₁.modify f.stop fn) ⟨f.start, stop⟩ (K * Fragment.letters C) := by
  obtain ⟨hext₁, hstop⟩ := new_spec hf.built.ext.ok h₁
  obtain ⟨hnode₁, hedge₁, hbare₁, hblank₁⟩ := new_node hf.built.ext.ok hf.blank h₁
  have hne : stop ≠ f.stop := hstop.ne hf.built.stop.2
  obtain ⟨I, hI, hfrag⟩ := hf.fragment
  refine ⟨hbuilt, hblank₁.modify (hext₁.live _ hf.built.stop.2), ?_, ?_, I ∪ {f.stop}, ?_, ?_⟩
  · rw [States.node_modify_of_ne hne]
    exact hedge₁
  · rw [States.node_modify_of_ne hne]
    exact hbare₁
  · rintro i (hi | rfl)
    · exact ⟨(hI i hi).1, hext₁.live _ (hI i hi).2⟩
    · exact ⟨hf.built.stop.1, hext₁.live _ hf.built.stop.2⟩
  · refine Fragment.cat (t := f.stop) (hfrag.congr ?_) ?_ ?_ ?_
    · intro i hi a j
      unfold States.Edge
      rw [States.node_modify_of_ne (ne_of_mem_of_not_mem hi hfrag.stop_notMem),
        hnode₁ i (hstop.ne (hI i hi).2).symm]
    · apply Fragment.letter hne.symm
      intro a j
      unfold States.Edge
      rw [States.node_modify_self, Node.edge_iff_of_ne (hedge _) (hnext _)]
      have hset : ∀ x, x ∈ {c | (fn (m₁.node f.stop)).reads c = true} ↔ x ∈ C := fun x => hreads _ x
      simp only [hset]
    · intro i hi hi'
      rw [Set.mem_singleton_iff.mp hi'] at hi
      exact hfrag.stop_notMem hi
    · intro hmem
      exact hstop.1 (hI _ hmem).2

end Lex
