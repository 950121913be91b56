import Cgkits.Parser.First

/-!
# FOLLOW sets (`llfollow.c`)

`follow` fills the FOLLOW sets in three steps.  `init` adds what does not change any more: the end
of the input for the goal symbol, and FIRST of what stands behind a nonterminal in a right-hand
side. `followClosure` then copies the FOLLOW set of a left-hand side to the nonterminals from which
the rest of the right-hand side can vanish, until a pass changes nothing.  `removeEpsilon` drops the
marker, which the copied FIRST sets have brought along.

The FIRST sets are a parameter: the result is the least family closed under the textbook rules read
with these sets (`FollowRules`), whatever they hold and in whatever order the table is walked.
-/

namespace Parser

open ContextFree

namespace Grammar

variable (G : Grammar)

/-- The scan of `init` behind a nonterminal `x`: FIRST of the symbols is added to FOLLOW(x) up to
the first visible symbol that is not nullable. -/
def followScan (F : SetTable) : List ℕ → Finset ℕ → Finset ℕ
  | [], dest => dest
  | y :: rest, dest =>
    if IsAct y then followScan F rest dest
    else if IsTerm y then insert y dest
    else
      let dest := dest ∪ F y
      if ¬ G.Nullable F y then dest else followScan F rest dest

/-- What `init` does for one right-hand side: each nonterminal gets what can stand behind it
there. -/
def initRhs (F : SetTable) : List ℕ → SetTable → SetTable
  | [], W => W
  | x :: rest, W =>
    initRhs F rest (if IsNonterm x then Function.update W x (G.followScan F rest (W x)) else W)

/-- `init` at the visit of one symbol: the end marker for the goal symbol, and its right-hand
sides. -/
def init (F : SetTable) (lhs : ℕ) (W : SetTable) : SetTable :=
  if ¬ IsNonterm lhs then W
  else
    let W := if lhs = G.goalSymbol then Function.update W lhs (insert eoi (W lhs)) else W
    (G.productions lhs).foldl (fun W prod => G.initRhs F prod.rhs W) W

/-- What `follow_closure` does for one right-hand side, which it reads from the end.  The flag is
`_did_something`. -/
def closureRhs (F : SetTable) (lhs : ℕ) : List ℕ → SetTable × Bool → SetTable × Bool
  | [], st => st
  | x :: rest, st =>
    if IsAct x then closureRhs F lhs rest st
    else if IsTerm x then st
    else
      let st := if ¬ st.1 lhs ⊆ st.1 x then (Function.update st.1 x (st.1 x ∪ st.1 lhs), true) else
        st
      if ¬ G.Nullable F x then st else closureRhs F lhs rest st

/-- `follow_closure` at the visit of one symbol: its set is merged into those at the ends of its
right-hand sides. -/
def followClosure (F : SetTable) (lhs : ℕ) (st : SetTable × Bool) : SetTable × Bool :=
  if IsAct lhs ∨ IsTerm lhs then st
  else (G.productions lhs).foldl (fun st prod => G.closureRhs F lhs prod.rhs.reverse st) st

/-- `remove_epsilon` at the visit of one symbol: the marker is taken out of its set. -/
def removeEpsilon (lhs : ℕ) (W : SetTable) : SetTable :=
  if IsNonterm lhs then Function.update W lhs ((W lhs).erase G.epsilon) else W

variable {G}

/-- The FOLLOW sets behind `init`, in front of the closure. -/
def followInit (w : G.Walk) (F : SetTable) : SetTable :=
  w.order.foldl (fun W lhs => G.init F lhs W) fun _ => ∅

/-- One pass of the closure over the whole table, in the order in which the walk visits the
symbols. -/
def followPass (w : G.Walk) (F : SetTable) (W : SetTable) : SetTable × Bool :=
  w.order.foldl (fun st lhs => G.followClosure F lhs st) (W, false)

variable (G) in
/-- A finite set that contains every FOLLOW set. -/
def followUniverse (F : SetTable) : Finset ℕ :=
  insert eoi (Finset.range (G.currterm + 1) ∪ G.nonterms.biUnion F)

variable (G) in
/-- A number of passes of the closure that is always enough. -/
def followFuel (F : SetTable) : ℕ := G.nonterms.card * (G.followUniverse F).card + 1

/-- `follow`: initialize, close, and remove the marker. -/
def follow (w : G.Walk) (F : SetTable) : Option SetTable :=
  (Loop.doWhile (followPass w F) (G.followFuel F) (followInit w F)).map fun W =>
    w.order.foldl (fun W lhs => G.removeEpsilon lhs W) W

/-! ## The textbook rules -/

variable (G) in
/-- The textbook rules for FOLLOW sets, read with the FIRST sets `F`. -/
structure FollowRules (F W : SetTable) : Prop where
  /-- The end of the input follows the goal symbol. -/
  goal : eoi ∈ W G.goalSymbol
  /-- FIRST of a symbol `y` behind `x`, without the marker, follows `x` when the symbols in between
  are nullable or actions. -/
  next : ∀ p ∈ G.prods, ∀ α x β y, p.rhs = α ++ x :: β → IsNonterm x → G.Front F β y →
    ∀ t, FirstOf F y t → t ≠ G.epsilon → t ∈ W x
  /-- What follows the left-hand side follows `x` when the symbols behind `x` are nullable or
  actions. -/
  last : ∀ p ∈ G.prods, ∀ α x β, p.rhs = α ++ x :: β → IsNonterm x →
    (∀ z ∈ β, G.Passed F z) → W p.lhs ⊆ W x

/-! ## What the scans do -/

section Scans

variable {F : SetTable} {t : ℕ}

/-- The scan of `init` adds FIRST of the symbols that it comes to. -/
lemma mem_followScan {γ : List ℕ} {dest : Finset ℕ} :
    t ∈ G.followScan F γ dest ↔ t ∈ dest ∨ ∃ y, G.Front F γ y ∧ FirstOf F y t := by
  induction γ generalizing dest with
  | nil => simp [followScan]
  | cons x γ ih =>
    simp only [followScan, front_cons, or_and_right, exists_or]
    by_cases hx : IsAct x
    · simp [hx, ih, Passed]
    · have hone : (∃ y, (¬ IsAct x ∧ y = x) ∧ FirstOf F y t) ↔ FirstOf F x t := by
        simp [hx]
      rw [if_neg hx, hone]
      by_cases hterm : IsTerm x
      · have hpass : ¬ G.Passed F x := by
          rintro (h | h)
          · exact hx h
          · exact h.1.not_isTerm hterm
        simp [hterm, hpass, FirstOf, or_comm]
      · by_cases hn : G.Nullable F x
        · simp [hterm, hn, ih, Passed, FirstOf, or_assoc]
        · simp [hterm, hn, hx, Passed, FirstOf]

/-- `init` for one right-hand side adds to a nonterminal FIRST of what stands behind it. -/
lemma mem_initRhs {γ : List ℕ} {W : SetTable} {x : ℕ} :
    t ∈ G.initRhs F γ W x ↔ t ∈ W x ∨ (IsNonterm x ∧
      ∃ α β, γ = α ++ x :: β ∧ ∃ y, G.Front F β y ∧ FirstOf F y t) := by
  induction γ generalizing W with
  | nil => simp [initRhs]
  | cons z γ ih =>
    have hsplit : (∃ α β, z :: γ = α ++ x :: β ∧ ∃ y, G.Front F β y ∧ FirstOf F y t) ↔
        (z = x ∧ ∃ y, G.Front F γ y ∧ FirstOf F y t) ∨
          ∃ α β, γ = α ++ x :: β ∧ ∃ y, G.Front F β y ∧ FirstOf F y t := by
      constructor
      · rintro ⟨α, β, h, hy⟩
        rcases α with _ | ⟨a, α⟩
        · obtain ⟨rfl, rfl⟩ := List.cons.inj h
          exact Or.inl ⟨rfl, hy⟩
        · obtain ⟨rfl, rfl⟩ := List.cons.inj h
          exact Or.inr ⟨α, β, rfl, hy⟩
      · rintro (⟨rfl, hy⟩ | ⟨α, β, rfl, hy⟩)
        · exact ⟨[], γ, rfl, hy⟩
        · exact ⟨z :: α, β, rfl, hy⟩
    rw [initRhs, ih, hsplit]
    by_cases hz : IsNonterm z
    · by_cases hxz : x = z
      · subst hxz
        rw [if_pos hz, Function.update_self, mem_followScan]
        simp only [hz, true_and, or_assoc]
      · simp only [if_pos hz, Function.update_of_ne hxz, Ne.symm hxz, false_and, false_or]
    · have hzx : IsNonterm x → z ≠ x := by
        rintro hx rfl
        exact hz hx
      rw [if_neg hz]
      exact or_congr_right (and_congr_right fun hx => (or_iff_right fun h => hzx hx h.1).symm)

/-- `init` for several productions adds what each of them has behind a nonterminal. -/
lemma mem_foldl_initRhs {l : List Production} {W : SetTable} {x : ℕ} :
    t ∈ l.foldl (fun W prod => G.initRhs F prod.rhs W) W x ↔ t ∈ W x ∨ ∃ p ∈ l, IsNonterm x ∧
      ∃ α β, p.rhs = α ++ x :: β ∧ ∃ y, G.Front F β y ∧ FirstOf F y t := by
  induction l generalizing W with
  | nil => simp
  | cons p l ih =>
    rw [List.foldl_cons, ih, mem_initRhs]
    simp only [List.mem_cons, exists_eq_or_imp, or_assoc]

/-- The initial FOLLOW sets: the end of the input for the goal symbol, and FIRST of what stands
behind a nonterminal. -/
lemma mem_followInit (w : G.Walk) {x : ℕ} :
    t ∈ followInit w F x ↔ (x = G.goalSymbol ∧ t = eoi) ∨ ∃ p ∈ G.prods, IsNonterm x ∧
      ∃ α β, p.rhs = α ++ x :: β ∧ ∃ y, G.Front F β y ∧ FirstOf F y t := by
  have hfold : ∀ (l : List ℕ) (W : SetTable),
      t ∈ l.foldl (fun W lhs => G.init F lhs W) W x ↔ t ∈ W x ∨
        ∃ lhs ∈ l, IsNonterm lhs ∧ ((lhs = G.goalSymbol ∧ x = lhs ∧ t = eoi) ∨
          ∃ p ∈ G.prods, p.lhs = lhs ∧ IsNonterm x ∧
            ∃ α β, p.rhs = α ++ x :: β ∧ ∃ y, G.Front F β y ∧ FirstOf F y t) := by
    intro l
    induction l with
    | nil => simp
    | cons lhs l ih =>
      intro W
      rw [List.foldl_cons, ih]
      simp only [List.mem_cons, exists_eq_or_imp, ← or_assoc]
      refine or_congr_left ?_
      unfold init
      by_cases hlhs : IsNonterm lhs
      · simp only [hlhs, not_true, if_false, mem_foldl_initRhs, mem_productions, and_assoc]
        rw [true_and, ← or_assoc]
        refine or_congr_left ?_
        by_cases hgoal : lhs = G.goalSymbol
        · rw [if_pos hgoal]
          by_cases hx : x = lhs
          · subst hx
            simp [hgoal, or_comm]
          · simp only [Function.update_of_ne hx, hx, false_and, and_false, or_false]
        · simp [hgoal]
      · simp [hlhs]
  have hgoal := G.goalSymbol_mem
  have hle := G.currnonterm_le
  rw [followInit, hfold]
  simp only [Finset.notMem_empty, false_or]
  constructor
  · rintro ⟨lhs, -, -, ⟨rfl, rfl, rfl⟩ | ⟨p, hp, -, h⟩⟩
    · exact Or.inl ⟨rfl, rfl⟩
    · exact Or.inr ⟨p, hp, h⟩
  · rintro (⟨rfl, rfl⟩ | ⟨p, hp, h⟩)
    · exact ⟨_, (w.mem_order _).mpr (Or.inr (Or.inl hgoal)), ⟨hgoal.1, hgoal.2.trans hle⟩,
        Or.inl ⟨rfl, rfl, rfl⟩⟩
    · exact ⟨p.lhs, w.lhs_mem_order hp, G.isNonterm_lhs hp, Or.inr ⟨p, hp, rfl, h⟩⟩

end Scans

/-! ## The closing passes -/

section Closure

variable {F : SetTable} {lhs : ℕ}

/-- The closing scan of a right-hand side from its end, written with the merging of sets. -/
lemma closureRhs_cons (x : ℕ) (rest : List ℕ) (st : SetTable × Bool) :
    G.closureRhs F lhs (x :: rest) st =
      if IsAct x then G.closureRhs F lhs rest st
      else if IsTerm x then st
      else if G.Nullable F x then G.closureRhs F lhs rest (Loop.addTo x (st.1 lhs) st)
      else Loop.addTo x (st.1 lhs) st := by
  simp only [closureRhs, Loop.addTo, ite_not]

/-- A closing scan of a right-hand side makes the table grow. -/
lemma grows_closureRhs (l : List ℕ) (st : SetTable × Bool) :
    Loop.Grows st (G.closureRhs F lhs l st) := by
  induction l generalizing st with
  | nil => exact Loop.Grows.refl st
  | cons x l ih =>
    rw [closureRhs_cons]
    split
    · exact ih st
    · split
      · exact Loop.Grows.refl st
      · split
        · exact (Loop.grows_addTo _ _ _).trans (ih _)
        · exact Loop.grows_addTo _ _ _

/-- The visit of a symbol makes the table grow. -/
lemma grows_followClosure (lhs : ℕ) (st : SetTable × Bool) :
    Loop.Grows st (G.followClosure F lhs st) := by
  unfold followClosure
  split
  · exact Loop.Grows.refl st
  · exact Loop.grows_foldl (fun st (p : Production) => grows_closureRhs p.rhs.reverse st) _ st

/-- A pass over all symbols makes the table grow. -/
lemma grows_followPass (w : G.Walk) (W : SetTable) : Loop.Grows (W, false) (followPass w F W) :=
  Loop.grows_foldl (fun st lhs => grows_followClosure lhs st) _ _

variable (G) in
/-- A property of tables that survives every merge that a closing pass may make. -/
def MergeStable (F : SetTable) (Q : SetTable → Prop) : Prop :=
  ∀ p ∈ G.prods, ∀ α x β, p.rhs = α ++ x :: β → IsNonterm x → (∀ z ∈ β, G.Passed F z) →
    ∀ st : SetTable × Bool, Q st.1 → Q (Loop.addTo x (st.1 p.lhs) st).1

variable {Q : SetTable → Prop}

/-- A closing scan keeps a merge-stable property.  The scan has passed `β` and has `l`, read
backwards, in front of it. -/
lemma MergeStable.closureRhs (hQ : G.MergeStable F Q) {p : Production} (hp : p ∈ G.prods)
    {l β : List ℕ} (hrhs : p.rhs = l.reverse ++ β) (hβ : ∀ z ∈ β, G.Passed F z)
    {st : SetTable × Bool} (hst : Q st.1) : Q (G.closureRhs F p.lhs l st).1 := by
  induction l generalizing β st with
  | nil => exact hst
  | cons x l ih =>
    have hrhs' : p.rhs = l.reverse ++ x :: β := by
      rw [hrhs, List.reverse_cons, List.append_assoc, List.singleton_append]
    rw [closureRhs_cons]
    split
    · exact ih hrhs' (by simpa using ⟨Or.inl ‹_›, hβ⟩) hst
    · split
      · exact hst
      · have hx : IsNonterm x := by
          rcases rhs_cases hp (x := x) (by rw [hrhs']; simp) with h | h | h
          · exact absurd h.1 ‹_›
          · exact h
          · exact absurd h ‹_›
        have hmerge := hQ p hp _ x β hrhs' hx hβ st hst
        split
        · exact ih hrhs' (by simpa using ⟨Or.inr ‹_›, hβ⟩) hmerge
        · exact hmerge

/-- A property that every merge keeps is kept by a pass. -/
lemma MergeStable.followPass (hQ : G.MergeStable F Q) (w : G.Walk) {W : SetTable} (hW : Q W) :
    Q (followPass w F W).1 := by
  have hchain : ∀ (l : List Production) (A : ℕ) (st : SetTable × Bool),
      (∀ p ∈ l, p ∈ G.prods ∧ p.lhs = A) → Q st.1 →
      Q (l.foldl (fun st prod => G.closureRhs F A prod.rhs.reverse st) st).1 := by
    intro l A
    induction l with
    | nil => exact fun st _ hst => hst
    | cons p l ih =>
      intro st hl hst
      obtain ⟨hp, rfl⟩ := hl p (by simp)
      refine ih _ (fun q hq => hl q (by simp [hq])) ?_
      exact hQ.closureRhs hp (l := p.rhs.reverse) (β := []) (by simp) (by simp) hst
  have hfold : ∀ (l : List ℕ) (st : SetTable × Bool), Q st.1 →
      Q (l.foldl (fun st lhs => G.followClosure F lhs st) st).1 := by
    intro l
    induction l with
    | nil => exact fun st hst => hst
    | cons A l ih =>
      intro st hst
      refine ih _ ?_
      change Q (G.followClosure F A st).1
      unfold followClosure
      split
      · exact hst
      · exact hchain _ A st (fun p hp => mem_productions.mp hp) hst
  exact hfold w.order (W, false) hW

/-- A closing scan that reports no change has found every inclusion it looks for. -/
lemma subset_of_closureRhs {α l : List ℕ} {x : ℕ} {st : SetTable × Bool}
    (h : (G.closureRhs F lhs (α ++ x :: l) st).2 = false) (hx : IsNonterm x)
    (hα : ∀ z ∈ α, G.Passed F z) : st.1 lhs ⊆ st.1 x := by
  induction α generalizing st with
  | nil =>
    rw [List.nil_append, closureRhs_cons, if_neg hx.not_isAct, if_neg hx.not_isTerm] at h
    have hmerge : (Loop.addTo x (st.1 lhs) st).2 = false := by
      by_contra hflag
      rw [Bool.not_eq_false] at hflag
      split at h
      · rw [(grows_closureRhs l _).flag hflag] at h
        simp at h
      · rw [hflag] at h
        simp at h
    exact (Loop.addTo_snd_eq_false.mp hmerge).2
  | cons z α ih =>
    rw [List.cons_append, closureRhs_cons] at h
    rw [List.forall_mem_cons] at hα
    by_cases hact : IsAct z
    · rw [if_pos hact] at h
      exact ih h hα.2
    · have hnull : G.Nullable F z := hα.1.resolve_left hact
      rw [if_neg hact, if_neg hnull.1.not_isTerm, if_pos hnull] at h
      have hmerge : (Loop.addTo z (st.1 lhs) st).2 = false := by
        by_contra hflag
        rw [Bool.not_eq_false] at hflag
        rw [(grows_closureRhs _ _).flag hflag] at h
        simp at h
      rw [Loop.addTo_eq_of_snd hmerge] at h
      exact ih h hα.2

/-- A pass that changes nothing leaves a table that is closed under the last rule. -/
lemma subset_of_followPass {w : G.Walk} {W W' : SetTable} (h : followPass w F W = (W', false))
    {p : Production} (hp : p ∈ G.prods) {α β : List ℕ} {x : ℕ} (hrhs : p.rhs = α ++ x :: β)
    (hx : IsNonterm x) (hβ : ∀ z ∈ β, G.Passed F z) : W' p.lhs ⊆ W' x := by
  have hflag : (followPass w F W).2 = false := by rw [h]
  have hsame : (followPass w F W).1 = W := (grows_followPass w W).eq_of_flag hflag
  obtain rfl : W' = W := by rw [← hsame, h]
  have hvisit := Loop.foldl_step_of_flag (fun st lhs => grows_followClosure lhs st) hflag
    (w.lhs_mem_order hp)
  have hlhs := G.isNonterm_lhs hp
  rw [followClosure, if_neg (by simp [hlhs.not_isAct, hlhs.not_isTerm])] at hvisit
  have hscan :=
    Loop.foldl_step_of_flag (fun st (q : Production) => grows_closureRhs q.rhs.reverse st) hvisit
    (mem_productions.mpr ⟨hp, rfl⟩)
  rw [hrhs, List.reverse_append, List.reverse_cons, List.append_assoc] at hscan
  exact subset_of_closureRhs hscan hx (by simpa using hβ)

end Closure

/-! ## Termination -/

section Returns

variable {F : SetTable}

variable (G) in
/-- The table stays inside the finite universe and inside the nonterminals of the symbol table. -/
structure FollowBounded (F W : SetTable) : Prop where
  /-- FOLLOW sets are parts of the universe. -/
  subset : ∀ A, W A ⊆ G.followUniverse F
  /-- Other symbols have no FOLLOW set. -/
  eq_empty : ∀ A, A ∉ G.nonterms → W A = ∅

/-- What `init` adds to the FOLLOW sets is in the universe. -/
lemma followBounded_init (w : G.Walk) : G.FollowBounded F (followInit w F) := by
  constructor
  · intro x t ht
    rcases (mem_followInit w).mp ht with ⟨-, rfl⟩ | ⟨p, hp, hx, α, β, hrhs, y, hy, hyt⟩
    · exact Finset.mem_insert_self _ _
    · have hmem : y ∈ p.rhs := by
        obtain ⟨-, α', β', rfl, -⟩ := hy
        rw [hrhs]
        simp
      refine Finset.mem_insert_of_mem (Finset.mem_union.mpr ?_)
      unfold FirstOf at hyt
      rcases rhs_cases hp hmem with h | h | h
      · rw [if_pos h.1] at hyt
        exact Or.inl (Finset.mem_range.mpr (by omega))
      · rw [if_neg h.not_isTerm] at hyt
        exact Or.inr (Finset.mem_biUnion.mpr ⟨y, mem_nonterms_of_mem_rhs hp hmem h, hyt⟩)
      · exact absurd h hy.1
  · intro x hx
    rw [Finset.eq_empty_iff_forall_notMem]
    intro t ht
    rcases (mem_followInit w).mp ht with ⟨rfl, -⟩ | ⟨p, hp, hnon, α, β, hrhs, -⟩
    · exact hx (mem_nonterms.mpr G.goalSymbol_mem)
    · exact hx (mem_nonterms_of_mem_rhs hp (by rw [hrhs]; simp) hnon)

/-- Merging the sets of a table keeps the bounds of the table. -/
lemma mergeStable_followBounded : G.MergeStable F (G.FollowBounded F) := by
  intro p hp α x β hrhs hx _ st hst
  constructor
  · intro A t ht
    rcases Loop.mem_addTo.mp ht with ht | ⟨-, ht⟩
    · exact hst.subset A ht
    · exact hst.subset _ ht
  · intro A hA
    rw [Finset.eq_empty_iff_forall_notMem]
    intro t ht
    rcases Loop.mem_addTo.mp ht with ht | ⟨rfl, -⟩
    · simp [hst.eq_empty A hA] at ht
    · exact hA (mem_nonterms_of_mem_rhs hp (by rw [hrhs]; simp) hx)

/-- The closing loop returns: every pass but the last one adds an element. -/
lemma exists_doWhile_followPass (w : G.Walk) (F : SetTable) :
    ∃ W, Loop.doWhile (followPass w F) (G.followFuel F) (followInit w F) = some W := by
  refine Loop.doWhile_returns (G.FollowBounded F) (fun W => ∑ A ∈ G.nonterms, (W A).card)
    (G.nonterms.card * (G.followUniverse F).card)
    (fun W hW => mergeStable_followBounded.followPass w hW) (fun W hW => ?_)
    (fun W hW hflag => ?_) (followBounded_init w) _ (by unfold followFuel; omega)
  · exact Loop.sum_card_le hW.subset
  · have hgrow := grows_followPass (F := F) w W
    refine Loop.sum_card_lt_of_grows hgrow.subset (fun A hA => ?_) ?_
    · rw [(mergeStable_followBounded.followPass w hW).eq_empty A hA, hW.eq_empty A hA]
    · rcases hgrow.changed hflag with h | h
      · simp at h
      · exact h

end Returns

/-! ## The result -/

/-- Removing the marker from the sets of the visited nonterminals. -/
lemma foldl_removeEpsilon (l : List ℕ) (W : SetTable) (x : ℕ) :
    l.foldl (fun W lhs => G.removeEpsilon lhs W) W x =
      if x ∈ l ∧ IsNonterm x then (W x).erase G.epsilon else W x := by
  induction l generalizing W with
  | nil => simp
  | cons z l ih =>
    rw [List.foldl_cons, ih]
    unfold removeEpsilon
    by_cases hz : IsNonterm z
    · by_cases hxz : x = z
      · subst hxz
        simp [hz]
      · simp [hz, hxz]
    · by_cases hxz : x = z
      · subst hxz
        simp [hz]
      · simp [hz, hxz]

variable (G) in
/-- What holds in every closing pass: the initial sets are kept, the bounds hold, and every family
that satisfies the textbook rules contains the table up to the marker. -/
structure FollowInv (W₀ F W : SetTable) : Prop where
  /-- The initial sets are kept. -/
  init : ∀ A, W₀ A ⊆ W A
  /-- The table is bounded by the symbols of the grammar. -/
  bounded : G.FollowBounded F W
  /-- The table is contained in every family that satisfies the rules. -/
  least : ∀ W', G.FollowRules F W' → ∀ A, ∀ t ∈ W A, t ≠ G.epsilon → t ∈ W' A

/-- The initial table satisfies the invariant. -/
lemma followInv_init (w : G.Walk) (F : SetTable) :
    G.FollowInv (followInit w F) F (followInit w F) where
  init _ := subset_rfl
  bounded := followBounded_init w
  least W' hW' A t ht hne := by
    rcases (mem_followInit w).mp ht with ⟨rfl, rfl⟩ | ⟨p, hp, hx, α, β, hrhs, y, hy, hyt⟩
    · exact hW'.goal
    · exact hW'.next p hp α A β y hrhs hx hy t hyt hne

/-- Every merge keeps the invariant of the closure. -/
lemma mergeStable_followInv (W₀ F : SetTable) : G.MergeStable F (G.FollowInv W₀ F) := by
  intro p hp α x β hrhs hx hβ st hst
  refine ⟨fun A => (hst.init A).trans (Loop.subset_addTo A),
    mergeStable_followBounded p hp α x β hrhs hx hβ st hst.bounded, fun W' hW' A t ht hne => ?_⟩
  rcases Loop.mem_addTo.mp ht with ht | ⟨rfl, ht'⟩
  · exact hst.least W' hW' A t ht hne
  · exact hW'.last p hp α A β hrhs hx hβ (hst.least W' hW' _ t ht' hne)

/-- `follow` returns the least family that satisfies the textbook rules. -/
lemma exists_follow (w : G.Walk) (F : SetTable) :
    ∃ W, follow w F = some W ∧ G.FollowRules F W ∧
      (∀ W', G.FollowRules F W' → ∀ A, W A ⊆ W' A) ∧ ∀ A, G.epsilon ∉ W A := by
  obtain ⟨V, hV⟩ := exists_doWhile_followPass w F
  have hI := mergeStable_followInv (G := G) (followInit w F) F
  obtain ⟨U, hU, hpass⟩ :=
    Loop.doWhile_spec _ (fun W hW => hI.followPass w hW) (followInv_init w F) hV
  have hVI := hI.followPass w hU
  rw [hpass] at hVI
  have hmem : ∀ A t, t ∈ w.order.foldl (fun W lhs => G.removeEpsilon lhs W) V A ↔
      t ∈ V A ∧ t ≠ G.epsilon := by
    intro A t
    rw [foldl_removeEpsilon]
    by_cases hA : A ∈ G.nonterms
    · rw [if_pos ⟨w.mem_order_of_mem hA, isNonterm_of_mem hA⟩, Finset.mem_erase, and_comm]
    · have hempty : V A = ∅ := hVI.bounded.eq_empty A hA
      simp [hempty]
  refine ⟨_, by rw [follow, hV]; rfl, ⟨?_, ?_, ?_⟩, ?_, ?_⟩
  · refine (hmem _ _).mpr ⟨hVI.init _ ((mem_followInit w).mpr (Or.inl ⟨rfl, rfl⟩)), ?_⟩
    unfold eoi epsilon
    omega
  · intro p hp α x β y hrhs hx hy t hyt hne
    exact (hmem _ _).mpr
      ⟨hVI.init _ ((mem_followInit w).mpr (Or.inr ⟨p, hp, hx, α, β, hrhs, y, hy, hyt⟩)), hne⟩
  · intro p hp α x β hrhs hx hβ t ht
    obtain ⟨ht, hne⟩ := (hmem _ _).mp ht
    exact (hmem _ _).mpr ⟨subset_of_followPass hpass hp hrhs hx hβ ht, hne⟩
  · exact fun W' hW' A t ht => hVI.least W' hW' A t ((hmem _ _).mp ht).1 ((hmem _ _).mp ht).2
  · exact fun A h => ((hmem _ _).mp h).2 rfl

/-- The FOLLOW sets in the symbol table when `follow` has returned. -/
def followSets (w : G.Walk) (F : SetTable) : SetTable :=
  (follow w F).get (by obtain ⟨W, hW, -⟩ := exists_follow w F; simp [hW])

/-- The FOLLOW sets are the least family that satisfies the textbook rules. -/
lemma followSets_spec (w : G.Walk) (F : SetTable) : G.FollowRules F (followSets w F) ∧
    ∀ W', G.FollowRules F W' → ∀ A, followSets w F A ⊆ W' A := by
  obtain ⟨W, hW, hrules, hleast, -⟩ := exists_follow w F
  have heq : followSets w F = W := by simp [followSets, hW]
  rw [heq]
  exact ⟨hrules, hleast⟩

/-- `follow` returns, for every table of FIRST sets, the least family that satisfies the textbook
rules read with these sets; no member contains the marker, and every walk gives the same family. -/
theorem follow_least (G : Grammar) (w : G.Walk) (F : SetTable) :
    ∃ W, follow w F = some W ∧ G.FollowRules F W ∧
      (∀ W', G.FollowRules F W' → ∀ A, W A ⊆ W' A) ∧ (∀ A, G.epsilon ∉ W A) ∧
      ∀ w' : G.Walk, follow w' F = some W := by
  obtain ⟨W, hW, hrules, hleast, heps⟩ := exists_follow w F
  refine ⟨W, hW, hrules, hleast, heps, fun w' => ?_⟩
  obtain ⟨W', hW', hrules', hleast', -⟩ := exists_follow w' F
  rw [hW', Option.some.injEq]
  exact funext fun A => (hleast' W hrules A).antisymm (hleast W' hrules' A)

/-! ## FOLLOW sets on top of `first` -/

end Grammar

/-- The lookahead of a token value: a terminal, or the end of the input. -/
def look (t : ℕ) : Option ℕ := if t = eoi then none else some t

/-- A terminal stands for itself as a lookahead. -/
lemma look_of_isTerm {t : ℕ} (h : IsTerm t) : look t = some t := by
  have : t ≠ eoi := by
    rw [isTerm_iff] at h
    unfold eoi
    omega
  simp [look, this]

namespace Grammar

section FollowSets

variable {G : Grammar} (w : G.Walk)

open Classical in
/-- The relation `FollowBy`, cut off behind the last terminal, as a family of sets. -/
noncomputable def followFamily (G : Grammar) : SetTable := fun A =>
  (Finset.range (G.currterm + 1)).filter fun t =>
    FollowBy (g := G.cfg) (ChainNull G.cfg) A (look t)

/-- A terminal is in the FOLLOW set of a nonterminal exactly when some form has it there. -/
lemma mem_followFamily {A t : ℕ} : t ∈ G.followFamily A ↔
    t ≤ G.currterm ∧ FollowBy (g := G.cfg) (ChainNull G.cfg) A (look t) := by
  simp only [followFamily, Finset.mem_filter, Finset.mem_range, Nat.lt_succ_iff]

/-- The form of a right-hand side around a nonterminal. -/
lemma form_append_nonterm {α β : List ℕ} {x : ℕ} (hx : IsNonterm x) :
    form (α ++ x :: β) = form α ++ .nonterminal x :: form β := by
  rw [form_append, form_cons_nonterm hx]

/-- The family satisfies the textbook rules read with the sets of `first`. -/
lemma followRules_followFamily : G.FollowRules (firstSets w) G.followFamily := by
  have hsound := (firstSets_spec w).1
  refine ⟨mem_followFamily.mpr ⟨Nat.zero_le _, .start⟩, ?_, ?_⟩
  · intro p hp α x β y hrhs hx hy t hyt hne
    have hle : t ≤ G.currterm := by
      unfold FirstOf at hyt
      have hmem : y ∈ p.rhs := by
        obtain ⟨-, α', β', rfl, -⟩ := hy
        rw [hrhs]
        simp
      by_cases hterm : IsTerm y
      · rw [if_pos hterm] at hyt
        subst hyt
        rcases rhs_cases hp hmem with h | h | h
        · exact h.2
        · exact absurd hterm h.not_isTerm
        · exact absurd h hy.1
      · rw [if_neg hterm] at hyt
        rcases hsound y t hyt with ⟨rfl, -⟩ | ⟨hle, -⟩
        · exact absurd rfl hne
        · exact hle
    have hby := (exists_front_firstSets_iff w hle).mp ⟨y, hy, hyt⟩
    rw [mem_followFamily, look_of_isTerm (isTerm_of_firstBy hby rfl)]
    exact ⟨hle, .next (r := p.rule) (α := form α) (rule_mem hp)
      (by rw [Production.rule, hrhs, form_append_nonterm hx]) hby⟩
  · intro p hp α x β hrhs hx hβ t ht
    obtain ⟨hle, hby⟩ := mem_followFamily.mp ht
    have hnull := allNull_of_passed (P := ChainNull G.cfg) (fun A hA => hsound.chainNull hA) hβ
    exact mem_followFamily.mpr ⟨hle, .last (r := p.rule) (α := form α) (rule_mem hp)
      (by rw [Production.rule, hrhs, form_append_nonterm hx]) hnull hby⟩

/-- The FOLLOW sets that `follow` computes from the sets of `first`: the textbook rules, with chains
of first symbols in the place of nullability. -/
theorem mem_followSets_iff {A : G.cfg.NT} {t : ℕ} :
    t ∈ followSets w (firstSets w) A ↔
      t ≤ G.currterm ∧ FollowBy (g := G.cfg) (ChainNull G.cfg) A (look t) := by
  obtain ⟨hrules, hleast⟩ := followSets_spec w (firstSets w)
  refine ⟨fun h => mem_followFamily.mp (hleast _ (followRules_followFamily w) A h), ?_⟩
  rintro ⟨hle, h⟩
  generalize ho : look t = o at h
  -- a split of a rule at a nonterminal is a split of the production
  have hsplit : ∀ {r : ContextFreeRule ℕ ℕ} {α β : List (Symbol ℕ ℕ)} {A : ℕ},
      r ∈ G.cfg.rules → r.output = α ++ .nonterminal A :: β →
      ∃ p ∈ G.prods, p.rule = r ∧ IsNonterm A ∧ ∃ α' β', p.rhs = α' ++ A :: β' ∧ form β' = β := by
    intro r α β A hr ho
    obtain ⟨p, hp, rfl⟩ := mem_rules.mp hr
    obtain ⟨α', y, β', hrhs, -, hy, hβ⟩ := exists_of_form_eq_append_cons ho
    obtain ⟨hact, hterm, rfl⟩ := toSymbol_eq_nonterminal hy
    refine ⟨p, hp, rfl, ?_, α', β', hrhs, hβ⟩
    rcases rhs_cases hp (x := y) (by rw [hrhs]; simp) with h | h | h
    · exact absurd h.1 hterm
    · exact h
    · exact absurd h hact
  induction h with
  | start =>
    have : t = eoi := by
      by_contra hne
      simp [look, hne] at ho
    rw [this]
    exact hrules.goal
  | @next r α β A s hr hout hby =>
    obtain ⟨p, hp, rfl, hA, α', β', hrhs, rfl⟩ := hsplit hr hout
    have hterm := isTerm_of_firstBy hby (γ := β') rfl
    obtain rfl : t = s := by
      unfold look at ho
      split at ho
      · simp at ho
      · simpa using ho
    obtain ⟨y, hy, hyt⟩ := (exists_front_firstSets_iff w hle).mpr hby
    exact hrules.next p hp α' A β' y hrhs hA hy t hyt (ne_epsilon_of_le hle)
  | @last r α β A s hr hout hnull _ ih =>
    obtain ⟨p, hp, rfl, hA, α', β', hrhs, rfl⟩ := hsplit hr hout
    exact hrules.last p hp α' A β' hrhs hA
      (passed_of_allNull (fun B hB => (nullable_firstSets_iff w).mpr hB) hnull) (ih ho)

end FollowSets

end Grammar

end Parser
