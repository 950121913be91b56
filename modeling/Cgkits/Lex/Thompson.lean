import Cgkits.Lex.Nfa
import Mathlib.Data.Finset.Card
import Mathlib.Data.List.Nodup

/-!
# The accepting states of the machine

`Extends` says what building a piece of the machine does to the array: the states in use stay in use
and unchanged, and no new state accepts.  `Built` adds that the two ends of the piece are new.  Each
way of putting pieces together keeps this, so every parser of pieces has it.  A rule then makes the
end state of its piece accept, and `HasRules` holds along the whole construction: however states
have been recycled, the accepting states are the end states of the rules, and they are different.
-/

namespace Lex

/-! ## What building a piece does to the array -/

/-- The state `i` is in use: it has been taken from the array and is not on the stack. -/
def States.Live (m : States) (i : ℕ) : Prop := i < m.nextAlloc ∧ i ∉ m.stack

/-- The invariant of the array: what is discarded is known, and what is in use is not discarded. -/
structure States.Ok (m : States) : Prop where
  /-- No state is discarded twice. -/
  nodup : m.stack.Nodup
  /-- A discarded state has been taken from the array. -/
  stack_lt : ∀ i ∈ m.stack, i < m.nextAlloc
  /-- The states taken from the array are in use or discarded. -/
  count : m.nextAlloc = m.nstates + m.stack.length
  /-- The array does not overflow. -/
  lt : m.nextAlloc < nfaMax
  /-- A state that is not in use is blank. -/
  blank : ∀ i, ¬ m.Live i → (m.node i).accept = none
  /-- A pointer leads to a state that has been taken from the array. -/
  next_lt : ∀ i, ∀ j ∈ (m.node i).next, j < m.nextAlloc
  /-- The same for the second pointer. -/
  next2_lt : ∀ i, ∀ j ∈ (m.node i).next2, j < m.nextAlloc

/-- From `m` to `m'` a piece of the machine has been built. -/
structure Extends (m m' : States) : Prop where
  /-- The invariant of the table holds again. -/
  ok : m'.Ok
  /-- States in use stay in use. -/
  live : ∀ i, m.Live i → m'.Live i
  /-- States in use stay unchanged. -/
  frame : ∀ i, m.Live i → m'.node i = m.node i
  /-- No state accepts that is not among the old ones. -/
  accept : ∀ i, ¬ m.Live i → (m'.node i).accept = none

/-- The state `i` is not in use in `m` and is in use in `m'`. -/
def Own (m m' : States) (i : ℕ) : Prop := ¬ m.Live i ∧ m'.Live i

/-- The array before the construction is in order. -/
lemma States.ok_init : States.init.Ok where
  nodup := List.nodup_nil
  stack_lt i h := by simp [init] at h
  count := rfl
  lt := by decide
  blank _ _ := rfl
  next_lt i j h := by simp [init, Node.zero] at h
  next2_lt i j h := by simp [init, Node.zero] at h

/-- Two pieces that are built one after the other extend the array together. -/
lemma Extends.trans {m m' m'' : States} (h : Extends m m') (h' : Extends m' m'') :
    Extends m m'' where
  ok := h'.ok
  live i hi := h'.live i (h.live i hi)
  frame i hi := (h'.frame i (h.live i hi)).trans (h.frame i hi)
  accept i hi := by
    by_cases hi' : m'.Live i
    · rw [h'.frame i hi']
      exact h.accept i hi
    · exact h'.accept i hi'

/-- A state that was new before is new after the next piece. -/
lemma Own.trans {m m' m'' : States} {i : ℕ} (h : Own m m' i) (h' : Extends m' m'') : Own m m'' i :=
  ⟨h.1, h'.live i h.2⟩

/-- A state of the second piece is new from the beginning. -/
lemma Extends.own {m m' m'' : States} {i : ℕ} (h : Extends m m') (hi : Own m' m'' i) :
    Own m m'' i :=
  ⟨fun hm => hi.1 (h.live i hm), hi.2⟩

/-- The state that has been assigned to has its new fields. -/
@[simp] lemma States.node_modify_self {m : States} {i : ℕ} {f : Node → Node} :
    (m.modify i f).node i = f (m.node i) := Function.update_self _ _ _

/-- The other states keep their fields in an assignment. -/
lemma States.node_modify_of_ne {m : States} {i j : ℕ} {f : Node → Node} (h : j ≠ i) :
    (m.modify i f).node j = m.node j := Function.update_of_ne h _ _

/-- Assigning to the fields of a state keeps the invariant when the pointers are valid. -/
lemma States.Ok.modify {m : States} {i : ℕ} {f : Node → Node} (h : m.Ok)
    (haccept : ¬ m.Live i → (f (m.node i)).accept = none)
    (hnext : ∀ j ∈ (f (m.node i)).next, j < m.nextAlloc)
    (hnext2 : ∀ j ∈ (f (m.node i)).next2, j < m.nextAlloc) : (m.modify i f).Ok where
  nodup := h.nodup
  stack_lt := h.stack_lt
  count := h.count
  lt := h.lt
  blank := by
    intro j hj
    by_cases hji : j = i
    · subst hji
      rw [States.node_modify_self]
      exact haccept hj
    · rw [States.node_modify_of_ne hji]
      exact h.blank j hj
  next_lt := by
    intro k j hj
    by_cases hk : k = i
    · subst hk
      rw [States.node_modify_self] at hj
      exact hnext j hj
    · rw [States.node_modify_of_ne hk] at hj
      exact h.next_lt k j hj
  next2_lt := by
    intro k j hj
    by_cases hk : k = i
    · subst hk
      rw [States.node_modify_self] at hj
      exact hnext2 j hj
    · rw [States.node_modify_of_ne hk] at hj
      exact h.next2_lt k j hj

/-- Assigning to a new state is part of building a piece. -/
lemma Extends.modify {m m' : States} {i : ℕ} {f : Node → Node} (h : Extends m m') (hi : Own m m' i)
    (haccept : (f (m'.node i)).accept = none)
    (hnext : ∀ j ∈ (f (m'.node i)).next, j < m'.nextAlloc)
    (hnext2 : ∀ j ∈ (f (m'.node i)).next2, j < m'.nextAlloc) : Extends m (m'.modify i f) where
  ok := h.ok.modify (fun _ => haccept) hnext hnext2
  live := h.live
  frame j hj := by
    have hne : j ≠ i := by
      rintro rfl
      exact hi.1 hj
    rw [States.node_modify_of_ne hne]
    exact h.frame j hj
  accept j hj := by
    by_cases hji : j = i
    · subst hji
      rw [States.node_modify_self]
      exact haccept
    · rw [States.node_modify_of_ne hji]
      exact h.accept j hj

/-- Assigning to the edge of a new state leaves the old states as they are. -/
lemma Extends.modify_edge {m m' : States} {i : ℕ} {e : ℤ} {set : CharClass} (h : Extends m m')
    (hi : Own m m' i) :
    Extends m (m'.modify i fun p => { p with edge := e, bitset := set }) := by
  apply h.modify hi
  · exact h.accept i hi.1
  · exact h.ok.next_lt i
  · exact h.ok.next2_lt i

/-- A state is taken from the unused part of the array. -/
lemma extends_alloc {m : States} (h : m.Ok) (hlen : m.nstates + 1 < nfaMax) (hs : m.stack = []) :
    let m' := { m with nstates := m.nstates + 1, nextAlloc := m.nextAlloc + 1 }
    Extends m m' ∧ Own m m' m.nextAlloc := by
  intro m'
  have hcount : m.nextAlloc = m.nstates := by
    have hc := h.count
    rw [hs, List.length_nil] at hc
    exact hc
  have hlive : ∀ i, m.Live i → m'.Live i := fun i hi => ⟨Nat.lt_succ_of_lt hi.1, hi.2⟩
  refine ⟨⟨?_, hlive, fun _ _ => rfl, h.blank⟩, ?_⟩
  · exact
      { nodup := h.nodup
        stack_lt := fun i hi => Nat.lt_succ_of_lt (h.stack_lt i hi)
        count := by
          have hc := h.count
          change m.nextAlloc + 1 = m.nstates + 1 + m.stack.length
          omega
        lt := by
          change m.nextAlloc + 1 < nfaMax
          omega
        blank := fun i hi => h.blank i fun hm => hi (hlive i hm)
        next_lt := fun i j hj => Nat.lt_succ_of_lt (h.next_lt i j hj)
        next2_lt := fun i j hj => Nat.lt_succ_of_lt (h.next2_lt i j hj) }
  · constructor
    · intro hm
      exact absurd hm.1 (lt_irrefl _)
    · refine ⟨Nat.lt_succ_self _, ?_⟩
      change m.nextAlloc ∉ m.stack
      rw [hs]
      simp

/-- A state that is taken from the stack extends the array by a state that was not in use. -/
lemma extends_pop {m : States} (h : m.Ok) {p : ℕ} {stack : List ℕ} (hs : m.stack = p :: stack) :
    let m' := { m with nstates := m.nstates + 1, stack := stack }
    Extends m m' ∧ Own m m' p := by
  intro m'
  have hnodup := h.nodup
  rw [hs, List.nodup_cons] at hnodup
  have hlive : ∀ i, m.Live i → m'.Live i := by
    intro i hi
    refine ⟨hi.1, fun hmem => hi.2 ?_⟩
    rw [hs]
    exact List.mem_cons_of_mem p hmem
  refine ⟨⟨?_, hlive, fun _ _ => rfl, h.blank⟩, ?_⟩
  · exact
      { nodup := hnodup.2
        stack_lt := by
          intro i hi
          apply h.stack_lt
          rw [hs]
          exact List.mem_cons_of_mem p hi
        count := by
          have hc := h.count
          rw [hs, List.length_cons] at hc
          change m.nextAlloc = m.nstates + 1 + stack.length
          omega
        lt := h.lt
        blank := fun i hi => h.blank i fun hm => hi (hlive i hm)
        next_lt := h.next_lt
        next2_lt := h.next2_lt }
  · constructor
    · intro hm
      apply hm.2
      rw [hs]
      exact List.mem_cons_self
    · refine ⟨h.stack_lt p ?_, hnodup.1⟩
      rw [hs]
      exact List.mem_cons_self

/-- `new` takes a state that was not in use. -/
lemma new_spec {m m' : States} {p : ℕ} (h : m.Ok) (hnew : new m = .ok (p, m')) :
    Extends m m' ∧ Own m m' p := by
  unfold new at hnew
  split at hnew
  · cases hnew
  · rename_i hlen
    split at hnew
    · rename_i hs
      cases hnew
      obtain ⟨hext, hown⟩ := extends_alloc h (not_le.mp hlen) hs
      exact ⟨hext.modify_edge hown, hown⟩
    · rename_i q stack hs
      cases hnew
      obtain ⟨hext, hown⟩ := extends_pop h hs
      exact ⟨hext.modify_edge hown, hown⟩

/-- `new` in the middle of a piece takes a state that belongs to neither part. -/
lemma Extends.new {m m' m'' : States} {p : ℕ} (h : Extends m m') (hnew : new m' = .ok (p, m'')) :
    Extends m m'' ∧ Extends m' m'' ∧ Own m' m'' p := by
  obtain ⟨hext, hown⟩ := new_spec h.ok hnew
  exact ⟨h.trans hext, hext, hown⟩

/-- `discard` of a new state is part of building a piece; the other states in use stay in use. -/
lemma Extends.discard {m m' m'' : States} {q : ℕ} (h : Extends m m') (hq : Own m m' q)
    (hdis : discard q m' = .ok m'') :
    Extends m m'' ∧ ∀ i, i ≠ q → m'.Live i → m''.Live i := by
  unfold Lex.discard at hdis
  split at hdis
  · cases hdis
  · cases hdis
    have hlive : ∀ i, i ≠ q → m'.Live i → i < m'.nextAlloc ∧ i ∉ q :: m'.stack := by
      intro i hi hm
      exact ⟨hm.1, List.not_mem_cons_of_ne_of_not_mem hi hm.2⟩
    have hne : ∀ i, m.Live i → i ≠ q := by
      rintro i hi rfl
      exact hq.1 hi
    refine ⟨⟨?_, fun i hi => hlive i (hne i hi) (h.live i hi), ?_, ?_⟩, hlive⟩
    · refine
        { nodup := List.nodup_cons.mpr ⟨hq.2.2, h.ok.nodup⟩
          stack_lt := ?_
          count := ?_
          lt := h.ok.lt
          blank := ?_
          next_lt := ?_
          next2_lt := ?_ }
      · intro i hi
        cases List.mem_cons.mp hi with
        | inl hi =>
          rw [hi]
          exact hq.2.1
        | inr hi => exact h.ok.stack_lt i hi
      · -- a state is in use, so the counter is positive
        have hc := h.ok.count
        have hpos : m'.stack.length < m'.nextAlloc := by
          have hsub : (q :: m'.stack).toFinset ⊆ Finset.range m'.nextAlloc := by
            intro i hi
            rw [List.mem_toFinset, List.mem_cons] at hi
            rw [Finset.mem_range]
            cases hi with
            | inl hi =>
              rw [hi]
              exact hq.2.1
            | inr hi => exact h.ok.stack_lt i hi
          have hcard := Finset.card_le_card hsub
          rw [List.toFinset_card_of_nodup (List.nodup_cons.mpr ⟨hq.2.2, h.ok.nodup⟩),
            Finset.card_range, List.length_cons] at hcard
          exact hcard
        change m'.nextAlloc = m'.nstates - 1 + (m'.stack.length + 1)
        omega
      · intro i hi
        by_cases hiq : i = q
        · subst hiq
          rw [States.node_modify_self]
          rfl
        · rw [States.node_modify_of_ne hiq]
          exact h.ok.blank i fun hm => hi (hlive i hiq hm)
      · intro i j hj
        by_cases hiq : i = q
        · subst hiq
          rw [States.node_modify_self] at hj
          cases hj
        · rw [States.node_modify_of_ne hiq] at hj
          exact h.ok.next_lt i j hj
      · intro i j hj
        by_cases hiq : i = q
        · subst hiq
          rw [States.node_modify_self] at hj
          cases hj
        · rw [States.node_modify_of_ne hiq] at hj
          exact h.ok.next2_lt i j hj
    · intro i hi
      rw [States.node_modify_of_ne (hne i hi)]
      exact h.frame i hi
    · intro i hi
      by_cases hiq : i = q
      · subst hiq
        rw [States.node_modify_self]
        rfl
      · rw [States.node_modify_of_ne hiq]
        exact h.accept i hi

/-- `save` stores a string and does not touch the states. -/
lemma Extends.save {m m' m'' : States} {str : List ℕ} {a : ℕ} (h : Extends m m')
    (hsave : save str m' = .ok (a, m'')) : Extends m m'' ∧ ∀ i, m'.Live i → m''.Live i := by
  unfold Lex.save at hsave
  split at hsave
  · cases hsave
    exact ⟨h, fun _ => id⟩
  · split at hsave
    · cases hsave
    · cases hsave
      have hok := h.ok
      exact ⟨⟨⟨hok.nodup, hok.stack_lt, hok.count, hok.lt, hok.blank, hok.next_lt, hok.next2_lt⟩,
        h.live, h.frame, h.accept⟩, fun _ => id⟩

/-! ## The pieces -/

/-- The piece `f` has been built: its ends are two new states. -/
structure Built (m m' : States) (f : Frag) : Prop where
  /-- What was there is unchanged. -/
  ext : Extends m m'
  /-- The start state of the fragment is new. -/
  start : Own m m' f.start
  /-- The end state of the fragment is new. -/
  stop : Own m m' f.stop
  /-- The start state and the end state are two states. -/
  ne : f.start ≠ f.stop

/-- The next state of a new state becomes a state in use. -/
lemma Extends.modify_next {m m' : States} {i j : ℕ} (h : Extends m m') (hi : Own m m' i)
    (hj : m'.Live j) : Extends m (m'.modify i fun p => { p with next := some j }) := by
  apply h.modify hi
  · exact h.accept i hi.1
  · rintro k ⟨⟩
    exact hj.1
  · exact h.ok.next2_lt i

/-- The second next state of a new state becomes a state in use, under a condition. -/
lemma Extends.modify_next2 {m m' : States} {i j : ℕ} {c : Prop} [Decidable c] (h : Extends m m')
    (hi : Own m m' i) (hj : m'.Live j) :
    Extends m (m'.modify i fun p => if c then { p with next2 := some j } else p) := by
  apply h.modify hi
  · split <;> exact h.accept i hi.1
  · split <;> exact h.ok.next_lt i
  · split
    · rintro k ⟨⟩
      exact hj.1
    · exact h.ok.next2_lt i

/-- `factor` puts two new states around a piece, which stays built from new states. -/
lemma Built.closeFrag {m₀ m m' : States} {t : Token} {f g : Frag} (hf : Built m₀ m f)
    (h : closeFrag t f m = .ok (g, m')) : Built m₀ m' g := by
  obtain ⟨⟨start, m₁⟩, h₁, h⟩ := bind_eq_ok.mp h
  obtain ⟨⟨stop, m₂⟩, h₂, h⟩ := bind_eq_ok.mp h
  obtain ⟨hext₁, hstep₁, hstart⟩ := hf.ext.new h₁
  obtain ⟨hext₂, hstep₂, hstop⟩ := hext₁.new h₂
  -- the states that are assigned to are new, the states that are pointed to are in use
  have hstart₂ : Own m₀ m₂ start := hf.ext.own (hstart.trans hstep₂)
  have hstop₂ : Own m₀ m₂ stop := hext₁.own hstop
  have hfstart : m₂.Live f.start := hstep₂.live _ (hstep₁.live _ hf.start.2)
  have hfstop : Own m₀ m₂ f.stop := (hf.stop.trans hstep₁).trans hstep₂
  have hext₃ := (hext₂.modify_next hstart₂ hfstart).modify_next hfstop hstop₂.2
  have hne : start ≠ stop := by
    rintro rfl
    exact hstop.1 hstart.2
  cases h
  exact ⟨(hext₃.modify_next2 hstart₂ hstop₂.2).modify_next2 hfstop hfstart, hstart₂, hstop₂, hne⟩

/-- The concatenation of two pieces is built from the states of both. -/
lemma Built.joinFrag {m₀ m m' m'' : States} {f g k : Frag} (hf : Built m₀ m f) (hg : Built m m' g)
    (h : joinFrag f g m' = .ok (k, m'')) : Built m₀ m'' k := by
  obtain ⟨m₁, h₁, h⟩ := bind_eq_ok.mp h
  cases h
  have hext : Extends m₀ m' := hf.ext.trans hg.ext
  have hcopy : Extends m₀ (m'.modify f.stop fun _ => m'.node g.start) := by
    apply hext.modify (hf.stop.trans hg.ext)
    · exact hg.ext.accept _ hg.start.1
    · exact hg.ext.ok.next_lt _
    · exact hg.ext.ok.next2_lt _
  obtain ⟨hdis, hlive⟩ := hcopy.discard (hf.ext.own hg.start) h₁
  -- the start state of the first piece is older than the discarded one
  have hne : f.start ≠ g.start := by
    intro he
    exact hg.start.1 (he ▸ hf.start.2)
  refine ⟨hdis, ⟨hf.start.1, hlive _ hne (hg.ext.live _ hf.start.2)⟩,
    ⟨(hf.ext.own hg.stop).1, hlive _ hg.ne.symm hg.stop.2⟩, ?_⟩
  intro he
  exact hg.stop.1 (he ▸ hf.start.2)

/-- The alternative of two pieces is built from the states of both and two new ones. -/
lemma Built.orFrag {m₀ m m' m'' : States} {f g k : Frag} (hf : Built m₀ m f) (hg : Built m m' g)
    (h : orFrag f g m' = .ok (k, m'')) : Built m₀ m'' k := by
  obtain ⟨⟨start, m₁⟩, h₁, h⟩ := bind_eq_ok.mp h
  obtain ⟨⟨stop, m₂⟩, h₂, h⟩ := bind_eq_ok.mp h
  cases h
  have hext : Extends m₀ m' := hf.ext.trans hg.ext
  obtain ⟨hext₁, hstep₁, hstart⟩ := hext.new h₁
  have hstart₁ : Own m₀ m₁ start := hext.own hstart
  have hmod : Extends m₀ (m₁.modify start fun p =>
      { p with next2 := some g.start, next := some f.start }) := by
    apply hext₁.modify hstart₁
    · exact hext₁.accept _ hstart₁.1
    · rintro j ⟨⟩
      exact (hstep₁.live _ (hg.ext.live _ hf.start.2)).1
    · rintro j ⟨⟩
      exact (hstep₁.live _ hg.start.2).1
  obtain ⟨hext₂, hstep₂, hstop⟩ := hmod.new h₂
  have hfstop : Own m₀ m₂ f.stop :=
    ⟨hf.stop.1, hstep₂.live _ (hstep₁.live _ (hg.ext.live _ hf.stop.2))⟩
  have hgstop : Own m₀ m₂ g.stop :=
    ⟨(hf.ext.own hg.stop).1, hstep₂.live _ (hstep₁.live _ hg.stop.2)⟩
  have hstop₂ : Own m₀ m₂ stop := hmod.own hstop
  have hne : start ≠ stop := by
    rintro rfl
    exact hstop.1 hstart₁.2
  exact ⟨(hext₂.modify_next hfstop hstop₂.2).modify_next hgstop hstop₂.2,
    ⟨hstart₁.1, hstep₂.live _ hstart₁.2⟩, hstop₂, hne⟩

section Parser

variable {ι : Type} {L : Lexer ι} {unix : Bool}

/-- What a parser of a piece guarantees: the piece is built from new states. -/
def Builds (parser : Parse ι → Except Fault (Frag × Parse ι)) : Prop :=
  ∀ P P' f, P.nfa.Ok → parser P = .ok (f, P') → Built P.nfa P'.nfa f

/-- `advance` reads a token and does not touch the states. -/
lemma advance_nfa {P P' : Parse ι} (h : P.advance L = .ok P') : P'.nfa = P.nfa := by
  obtain ⟨lex, -, h⟩ := bind_eq_ok.mp h
  cases h
  rfl

/-- `term` for a character or a class builds a piece from new states. -/
lemma builds_termChar (n : ℕ) : Builds (termChar L unix n) := by
  intro P P' f hok h
  obtain ⟨⟨start, m₁⟩, h₁, h⟩ := bind_eq_ok.mp h
  obtain ⟨⟨stop, m₂⟩, h₂, h⟩ := bind_eq_ok.mp h
  obtain ⟨hext₁, hstart⟩ := new_spec hok h₁
  obtain ⟨hext₂, hstep₂, hstop⟩ := hext₁.new h₂
  have hstart₂ : Own P.nfa m₂ start := hstart.trans hstep₂
  have hext₃ := hext₂.modify_next hstart₂ hstop.2
  have hne : start ≠ stop := by
    rintro rfl
    exact hstop.1 hstart.2
  dsimp only at h
  split at h
  · obtain ⟨lex, -, h⟩ := bind_eq_ok.mp h
    cases h
    exact ⟨hext₃.modify_edge hstart₂, hstart₂, hext₁.own hstop, hne⟩
  · obtain ⟨⟨set, lex⟩, -, h⟩ := bind_eq_ok.mp h
    obtain ⟨lex', -, h⟩ := bind_eq_ok.mp h
    cases h
    exact ⟨hext₃.modify_edge hstart₂, hstart₂, hext₁.own hstop, hne⟩

variable {sub : Parse ι → Except Fault (Frag × Parse ι)}

/-- `term` builds a piece from new states if the parser of groups does. -/
lemma builds_term (hsub : Builds sub) (n : ℕ) : Builds (term L unix sub n) := by
  intro P P' f hok h
  unfold term at h
  split at h
  · obtain ⟨P₁, h₁, h⟩ := bind_eq_ok.mp h
    obtain ⟨⟨g, P₂⟩, h₂, h⟩ := bind_eq_ok.mp h
    dsimp only at h
    split at h
    · obtain ⟨P₃, h₃, h⟩ := bind_eq_ok.mp h
      cases h
      have hbuilt := hsub P₁ P₂ f (advance_nfa h₁ ▸ hok) h₂
      rwa [advance_nfa h₁, ← advance_nfa h₃] at hbuilt
    · cases h
  · exact builds_termChar n P P' f hok h

/-- `factor` builds a piece from new states if the parser of groups does. -/
lemma builds_factor (hsub : Builds sub) (n : ℕ) : Builds (factor L unix sub n) := by
  intro P P' f hok h
  obtain ⟨⟨g, P₁⟩, h₁, h⟩ := bind_eq_ok.mp h
  have hg := builds_term hsub n P P₁ g hok h₁
  dsimp only at h
  split at h
  · obtain ⟨⟨k, m⟩, hk, h⟩ := bind_eq_ok.mp h
    obtain ⟨P₂, h₂, h⟩ := bind_eq_ok.mp h
    cases h
    rw [advance_nfa h₂]
    exact hg.closeFrag hk
  · cases h
    exact hg

/-- The loop of `cat_expr` builds a piece from new states, with the factor in front of it. -/
lemma built_catLoop (hsub : Builds sub) {m₀ : States} {n : ℕ} {f f' : Frag} {P P' : Parse ι}
    (hf : Built m₀ P.nfa f) (h : catLoop L unix sub n f P = .ok (f', P')) : Built m₀ P'.nfa f' := by
  induction n generalizing f P with
  | zero => cases h
  | succ n ih =>
    obtain ⟨more, -, h⟩ := bind_eq_ok.mp h
    cases more with
    | true =>
      obtain ⟨⟨g, P₁⟩, hg, h⟩ := bind_eq_ok.mp h
      obtain ⟨⟨k, m⟩, hk, h⟩ := bind_eq_ok.mp h
      have hbuilt := builds_factor hsub n P P₁ g hf.ext.ok hg
      exact ih (hf.joinFrag hbuilt hk) h
    | false =>
      cases h
      exact hf

/-- `cat_expr` builds a piece from new states if the parser of groups does. -/
lemma builds_catExpr (hsub : Builds sub) (n : ℕ) : Builds (catExpr L unix sub n) := by
  intro P P' f hok h
  obtain ⟨more, -, h⟩ := bind_eq_ok.mp h
  cases more with
  | true =>
    obtain ⟨⟨g, P₁⟩, hg, h⟩ := bind_eq_ok.mp h
    exact built_catLoop hsub (builds_factor hsub n P P₁ g hok hg) h
  | false => cases h

/-- The loop of `expr` builds a piece from new states, with the alternative in front of it. -/
lemma built_exprLoop (hsub : Builds sub) {m₀ : States} {n : ℕ} {f f' : Frag} {P P' : Parse ι}
    (hf : Built m₀ P.nfa f) (h : exprLoop L unix sub n f P = .ok (f', P')) :
    Built m₀ P'.nfa f' := by
  induction n generalizing f P with
  | zero => cases h
  | succ n ih =>
    unfold exprLoop at h
    split at h
    · obtain ⟨P₁, h₁, h⟩ := bind_eq_ok.mp h
      obtain ⟨⟨g, P₂⟩, hg, h⟩ := bind_eq_ok.mp h
      obtain ⟨⟨k, m⟩, hk, h⟩ := bind_eq_ok.mp h
      rw [← advance_nfa h₁] at hf
      have hbuilt := builds_catExpr hsub n P₁ P₂ g hf.ext.ok hg
      exact ih (hf.orFrag hbuilt hk) h
    · cases h
      exact hf

/-- `expr`: the recursion through the parentheses is on the number of steps. -/
lemma builds_expr (n : ℕ) : Builds (expr L unix n) := by
  induction n with
  | zero =>
    intro P P' f hok h
    cases h
  | succ n ih =>
    intro P P' f hok h
    obtain ⟨⟨g, P₁⟩, hg, h⟩ := bind_eq_ok.mp h
    exact built_exprLoop ih (builds_catExpr ih n P P₁ g hok hg) h

/-- The expression of `rule` is built from new states, with the one for `^`. -/
lemma built_ruleExpr {n anchor : ℕ} {P P' : Parse ι} {f : Frag} (hok : P.nfa.Ok)
    (h : ruleExpr L unix n P = .ok (f, anchor, P')) : Built P.nfa P'.nfa f := by
  unfold ruleExpr at h
  split at h
  · obtain ⟨⟨start, m⟩, h₁, h⟩ := bind_eq_ok.mp h
    obtain ⟨P₁, h₂, h⟩ := bind_eq_ok.mp h
    obtain ⟨⟨g, P₂⟩, hg, h⟩ := bind_eq_ok.mp h
    cases h
    obtain ⟨hext, hstart⟩ := new_spec hok h₁
    have hext₁ : Extends P.nfa (m.modify start fun p => { p with edge := 10 }) :=
      hext.modify_edge hstart
    have hnfa : P₁.nfa = m.modify start fun p => { p with edge := 10 } := advance_nfa h₂
    have hbuilt := builds_expr n P₁ P₂ g (hnfa ▸ hext₁.ok) hg
    rw [hnfa] at hbuilt
    have hstart₂ : Own P.nfa P₂.nfa start := ⟨hstart.1, hbuilt.ext.live _ hstart.2⟩
    have hne : start ≠ g.stop := by
      rintro rfl
      exact hbuilt.stop.1 hstart.2
    exact ⟨(hext₁.trans hbuilt.ext).modify_next hstart₂ hbuilt.start.2, hstart₂,
      hext₁.own hbuilt.stop, hne⟩
  · obtain ⟨⟨g, P₁⟩, hg, h⟩ := bind_eq_ok.mp h
    cases h
    exact builds_expr n P P' f hok hg

/-- The end of the expression of `rule` is built from new states, with the one for `$`. -/
lemma Built.ruleEol {m₀ : States} {anchor anchor' : ℕ} {P P' : Parse ι} {f g : Frag}
    (hf : Built m₀ P.nfa f) (h : ruleEol L unix f anchor P = .ok (g, anchor', P')) :
    Built m₀ P'.nfa g := by
  unfold Lex.ruleEol at h
  split at h
  · obtain ⟨P₁, h₁, h⟩ := bind_eq_ok.mp h
    obtain ⟨⟨stop, m⟩, h₂, h⟩ := bind_eq_ok.mp h
    cases h
    rw [← advance_nfa h₁] at hf
    obtain ⟨hext, hstep, hstop⟩ := hf.ext.new h₂
    have hfstop : Own m₀ m f.stop := hf.stop.trans hstep
    have hne : f.start ≠ stop := by
      rintro rfl
      exact hstop.1 hf.start.2
    have hstart : Own m₀ m f.start := hf.start.trans hstep
    have hmod : Extends m₀ (m.modify f.stop fun p =>
        { p with next := some stop, edge := ccl, bitset := ⟨(notNewline unix).map, false⟩ }) := by
      apply hext.modify hfstop
      · exact hext.accept _ hfstop.1
      · rintro j ⟨⟩
        exact hstop.2.1
      · exact hext.ok.next2_lt _
    exact ⟨hmod, hstart, hf.ext.own hstop, hne⟩
  · cases h
    exact hf

/-! ## The rules -/

/-- The states accept at the end states of the rules and nowhere else. -/
structure HasRules (m : States) (rules : List Rule) : Prop where
  /-- The invariant of the array. -/
  ok : m.Ok
  /-- The end states are in use. -/
  live : ∀ r ∈ rules, m.Live r.stop
  /-- The end states are different. -/
  nodup : (rules.map Rule.stop).Nodup
  /-- The end state of a rule has the accept string and the anchor of the rule. -/
  accept : ∀ r ∈ rules, (m.node r.stop).accept = some r.accept ∧ (m.node r.stop).anchor = r.anchor
  /-- Only the end states of the rules accept. -/
  only : ∀ i, (m.node i).accept ≠ none → ∃ r ∈ rules, r.stop = i

/-- Before the first rule there are no rules and no accepting states. -/
lemma HasRules.init : HasRules States.init [] where
  ok := States.ok_init
  live r h := by simp at h
  nodup := List.nodup_nil
  accept r h := by simp at h
  only i h := by simp [States.init, Node.zero] at h

/-- Building a piece leaves the end states of the rules as they are. -/
lemma HasRules.extends {m m' : States} {rules : List Rule} (h : HasRules m rules)
    (hext : Extends m m') : HasRules m' rules where
  ok := hext.ok
  live r hr := hext.live _ (h.live r hr)
  nodup := h.nodup
  accept r hr := by
    rw [hext.frame _ (h.live r hr)]
    exact h.accept r hr
  only i hi := by
    by_cases hm : m.Live i
    · rw [hext.frame i hm] at hi
      exact h.only i hi
    · exact absurd (hext.accept i hm) hi

/-- Setting a pointer of a state of the machine to a state in use. -/
lemma HasRules.modify {m : States} {rules : List Rule} {i : ℕ} {f : Node → Node}
    (h : HasRules m rules) (haccept : ∀ p, (f p).accept = p.accept)
    (hanchor : ∀ p, (f p).anchor = p.anchor)
    (hnext : ∀ j ∈ (f (m.node i)).next, j < m.nextAlloc)
    (hnext2 : ∀ j ∈ (f (m.node i)).next2, j < m.nextAlloc) : HasRules (m.modify i f) rules := by
  have hnode : ∀ j, ((m.modify i f).node j).accept = (m.node j).accept ∧
      ((m.modify i f).node j).anchor = (m.node j).anchor := by
    intro j
    by_cases hj : j = i
    · subst hj
      rw [States.node_modify_self]
      exact ⟨haccept _, hanchor _⟩
    · rw [States.node_modify_of_ne hj]
      exact ⟨rfl, rfl⟩
  refine ⟨h.ok.modify (fun hi => (haccept _).trans (h.ok.blank i hi)) hnext hnext2, h.live, h.nodup,
    ?_, ?_⟩
  · intro r hr
    rw [(hnode r.stop).1, (hnode r.stop).2]
    exact h.accept r hr
  · intro j hj
    rw [(hnode j).1] at hj
    exact h.only j hj

/-- `rule` adds a rule; its start state is in use, and what was in use stays in use. -/
lemma HasRules.rule {rules : List Rule} {n : ℕ} {P P' : Parse ι} {r : Rule}
    (h : HasRules P.nfa rules) (hrule : rule L unix n P = .ok (r, P')) :
    HasRules P'.nfa (rules ++ [r]) ∧ P'.nfa.Live r.start ∧ ∀ i, P.nfa.Live i → P'.nfa.Live i := by
  obtain ⟨⟨f, anchor, P₁⟩, h₁, hrule⟩ := bind_eq_ok.mp hrule
  obtain ⟨⟨g, anchor', P₂⟩, h₂, hrule⟩ := bind_eq_ok.mp hrule
  obtain ⟨⟨a, m⟩, h₃, hrule⟩ := bind_eq_ok.mp hrule
  obtain ⟨lex, -, hrule⟩ := bind_eq_ok.mp hrule
  cases hrule
  have hg : Built P.nfa P₂.nfa g := (built_ruleExpr h.ok h₁).ruleEol h₂
  obtain ⟨hext, hlive⟩ := hg.ext.save h₃
  have hrules := h.extends hext
  have hstop : m.Live g.stop := hlive _ hg.stop.2
  have hnew : ∀ r ∈ rules, r.stop ≠ g.stop := by
    intro r hr he
    exact hg.stop.1 (he ▸ h.live r hr)
  have hok : (m.modify g.stop fun p => { p with accept := some a, anchor := anchor' }).Ok := by
    apply hext.ok.modify
    · intro hi
      exact absurd hstop hi
    · exact hext.ok.next_lt _
    · exact hext.ok.next2_lt _
  refine ⟨⟨hok, ?_, ?_, ?_, ?_⟩, hlive _ hg.start.2, hext.live⟩
  · intro s hs
    cases List.mem_append.mp hs with
    | inl hs => exact hrules.live s hs
    | inr hs =>
      rw [List.mem_singleton.mp hs]
      exact hstop
  · rw [List.map_append, List.nodup_append]
    refine ⟨h.nodup, List.nodup_singleton _, ?_⟩
    intro i hi j hj
    obtain ⟨s, hs, rfl⟩ := List.mem_map.mp hi
    rw [List.map_singleton, List.mem_singleton] at hj
    rw [hj]
    exact hnew s hs
  · intro s hs
    cases List.mem_append.mp hs with
    | inl hs =>
      rw [States.node_modify_of_ne (hnew s hs)]
      exact hrules.accept s hs
    | inr hs =>
      rw [List.mem_singleton.mp hs, States.node_modify_self]
      exact ⟨rfl, rfl⟩
  · intro i hi
    by_cases hig : i = g.stop
    · exact ⟨_, List.mem_append_right _ List.mem_cons_self, hig.symm⟩
    · rw [States.node_modify_of_ne hig] at hi
      obtain ⟨s, hs, he⟩ := hrules.only i hi
      exact ⟨s, List.mem_append_left _ hs, he⟩

/-- The loop of `machine` keeps an end state for each of the rules. -/
lemma HasRules.machineLoop {rules rules' : List Rule} {n p : ℕ} {P P' : Parse ι}
    (h : HasRules P.nfa rules) (hloop : machineLoop L unix n p rules P = .ok (rules', P')) :
    HasRules P'.nfa rules' ∧ ∀ i, P.nfa.Live i → P'.nfa.Live i := by
  induction n generalizing p rules P with
  | zero => cases hloop
  | succ n ih =>
    unfold Lex.machineLoop at hloop
    split at hloop
    · cases hloop
      exact ⟨h, fun _ => id⟩
    · obtain ⟨⟨q, m⟩, h₁, hloop⟩ := bind_eq_ok.mp hloop
      obtain ⟨⟨r, P₁⟩, h₂, hloop⟩ := bind_eq_ok.mp hloop
      obtain ⟨hext, hq⟩ := new_spec h.ok h₁
      have hm : HasRules (m.modify p fun s => { s with next2 := some q }) rules := by
        apply (h.extends hext).modify
        · intro s
          rfl
        · intro s
          rfl
        · exact hext.ok.next_lt p
        · rintro j ⟨⟩
          exact hq.2.1
      obtain ⟨hr, hstart, hlive⟩ := hm.rule h₂
      have hm' : HasRules (P₁.nfa.modify q fun s => { s with next := some r.start })
          (rules ++ [r]) := by
        apply hr.modify
        · intro s
          rfl
        · intro s
          rfl
        · rintro j ⟨⟩
          exact hstart.1
        · exact hr.ok.next2_lt q
      obtain ⟨hrules, hlive'⟩ := ih hm' hloop
      exact ⟨hrules, fun i hi => hlive' i (hlive i (hext.live i hi))⟩

/-- The machine that `thompson` returns accepts at the end states of the rules, and its start state
is in use. -/
theorem thompson_spec {n start : ℕ} {s : ι} {rules : List Rule} {m : States}
    (h : thompson L unix n s = .ok (start, rules, m)) : HasRules m rules ∧ m.Live start := by
  obtain ⟨lex, -, h⟩ := bind_eq_ok.mp h
  obtain ⟨⟨start', rules', P⟩, hmachine, h⟩ := bind_eq_ok.mp h
  cases h
  obtain ⟨⟨p, m₁⟩, h₁, hmachine⟩ := bind_eq_ok.mp hmachine
  obtain ⟨⟨r, P₁⟩, h₂, hmachine⟩ := bind_eq_ok.mp hmachine
  obtain ⟨⟨rules'', P₂⟩, h₃, hmachine⟩ := bind_eq_ok.mp hmachine
  cases hmachine
  obtain ⟨hext, hp⟩ := new_spec States.ok_init h₁
  have hrules : HasRules m₁ [] := HasRules.init.extends hext
  obtain ⟨hr, hstart, hlive⟩ := hrules.rule h₂
  have hm : HasRules (P₁.nfa.modify start fun s => { s with next := some r.start }) [r] := by
    apply hr.modify
    · intro s
      rfl
    · intro s
      rfl
    · rintro j ⟨⟩
      exact hstart.1
    · exact hr.ok.next2_lt start
  obtain ⟨hall, hlive'⟩ := hm.machineLoop h₃
  exact ⟨hall, hlive' start (hlive start hp.2)⟩

end Parser

end Lex
