import Cgkits.Lex.MinDfa

/-!
# When the minimized table is minimal

While a group is scanned, members are moved to a new group one by one, and the numbers in `_ingroup`
change at once.  A member whose transition leads back into the group can therefore be compared with
other numbers than an equivalent member before it.  Then one of them is moved and the other one is
not, and they are never joined again.

`Compares` lists the comparisons that `minimize` makes, each with the groups at that moment.  A
comparison is `Consistent` if it treats the member like the equivalent members before it.
`minimal_iff` states that the new table is minimal exactly when all comparisons are consistent.
-/

namespace Lex

/-! ## Equivalent states -/

namespace Dfa

variable (d : Dfa)

/-- What a string leads to from the state `s`: the accept string of a state (which may be none), or
failure. -/
def verdict (s : ℕ) (w : List (Fin maxChars)) : Option (Option ℕ) :=
  match runFrom d.dtran s 0 w with
  | .ok q => some (d.accept q).string
  | .error _ => none

/-- Two states agree on failing and on the accept string reached, for every string. -/
def Equivalent (s t : ℕ) : Prop := ∀ w, d.verdict s w = d.verdict t w

/-- No two states of the table are equivalent. -/
def Minimal : Prop := ∀ s < d.nstates, ∀ t < d.nstates, s ≠ t → ¬ d.Equivalent s t

variable {d}

/-- Equivalent states have the same accept string. -/
lemma Equivalent.string_eq {s t : ℕ} (h : d.Equivalent s t) :
    (d.accept s).string = (d.accept t).string := Option.some.inj (h [])

/-- The equivalence of states is symmetric. -/
lemma Equivalent.symm {s t : ℕ} (h : d.Equivalent s t) : d.Equivalent t s := fun w => (h w).symm

end Dfa

/-! ## The comparisons of `minimize` -/

/-- `minimize` comes to the groups `st` and is about to visit the group `current`, in a pass that
has started with `old` groups. -/
inductive Visits (d : Dfa) : ℕ → Groups → ℕ → Prop
  /-- The first pass begins with the groups by accept string. -/
  | start {st : Groups} : initGroups d.nstates d.accept = some st → Visits d st.ngroups st 0
  /-- The next group of a pass. -/
  | next {old current : ℕ} {st st' : Groups} : Visits d old st current → current < st.ngroups →
      splitGroup d.dtran current st = some st' → Visits d old st' (current + 1)
  /-- Another pass, when the last one has created a group. -/
  | again {old current : ℕ} {st : Groups} : Visits d old st current → ¬ current < st.ngroups →
      old ≠ st.ngroups → Visits d st.ngroups st 0

/-- `minimize` compares the member `next` of the group `current` with the first member, at a moment
at which the groups are `st`. -/
def Compares (d : Dfa) (st : Groups) (current first next : ℕ) : Prop :=
  ∃ old st₀ before after, Visits d old st₀ current ∧ current < st₀.ngroups ∧
    (st₀.groups current).sort (· ≤ ·) = first :: (before ++ next :: after) ∧
    before.foldlM (splitMember d.dtran current first)
      { st₀ with groups := Function.update st₀.groups st₀.ngroups ∅ } = some st

/-- The comparison treats the member like the equivalent members before it: it differs from the
first member if they have been moved to the new group, and does not differ if they are still in the
group. -/
def Consistent (d : Dfa) (st : Groups) (current first next : ℕ) : Prop :=
  ∀ s < next, (s ∈ st.groups current ∨ s ∈ st.groups st.ngroups) → d.Equivalent s next →
    (differ d.dtran st.ingroup first next = true ↔ s ∈ st.groups st.ngroups)

/-- A comparison of the larger one of two states with the first member of their group separates
them: it differs although the smaller one is still in the group, or it does not although the smaller
one has been moved. -/
def Separated (d : Dfa) (s next : ℕ) : Prop :=
  ∃ st current first, Compares d st current first next ∧
    (s ∈ st.groups current ∨ s ∈ st.groups st.ngroups) ∧
    ¬ (differ d.dtran st.ingroup first next = true ↔ s ∈ st.groups st.ngroups)

/-- Equivalent states of the table are in one group. -/
def Saturated (d : Dfa) (st : Groups) : Prop :=
  ∀ s < d.nstates, ∀ t < d.nstates, d.Equivalent s t → st.ingroup s = st.ingroup t

/-! ## One group -/

section Split

variable {d : Dfa} {st st' : Groups} {n current : ℕ} {dtran : ℕ → Row} {accept : ℕ → Accept}

/-- The scan of a group with its first member and the others: the members `D` are moved to a new
group, if there are any. -/
lemma splitGroup_cases (dtran : ℕ → Row) (h : Partition n accept st) (hn : n ≤ dfaMax)
    (hcur : current < st.ngroups) :
    ∃ first rest D, (st.groups current).sort (· ≤ ·) = first :: rest ∧
      (first :: rest).Pairwise (· < ·) ∧ (∀ s, s ∈ first :: rest ↔ s ∈ st.groups current) ∧
      rest.foldlM (splitMember dtran current first) (st.moved current ∅) =
        some (st.moved current D) ∧
      (∀ s ∈ D, s ∈ rest) ∧
      ∃ st', splitGroup dtran current st = some st' ∧
        st'.ingroup = (st.moved current D).ingroup := by
  have hmem : ∀ s, s ∈ (st.groups current).sort (· ≤ ·) ↔ s ∈ st.groups current :=
    fun s => Finset.mem_sort _
  have hsorted := Finset.sortedLT_sort (st.groups current)
  have hempty : (st.moved current ∅).ingroup = st.ingroup := by simp [Groups.moved]
  unfold splitGroup
  rcases hl : (st.groups current).sort (· ≤ ·) with _ | ⟨x, _ | ⟨y, l⟩⟩
  · obtain ⟨s, hs⟩ := h.nonempty current hcur
    rw [← hmem, hl] at hs
    cases hs
  · rw [hl] at hmem
    exact ⟨x, [], ∅, rfl, List.pairwise_singleton _ _, hmem, rfl,
      fun s hs => by simp at hs, st, rfl, hempty.symm⟩
  · rw [hl] at hmem hsorted
    have hpair := hsorted.pairwise
    have hnd := hpair.imp fun hab => ne_of_lt hab
    have hlt := h.ngroups_lt hcur ((hmem x).mp (by simp)) ((hmem y).mp (by simp))
      (List.rel_of_pairwise_cons hpair List.mem_cons_self).ne
    have hbound : ∀ s ∈ y :: l, s < dfaMax := by
      intro s hs
      have hsn := ((h.mem_iff current hcur s).mp ((hmem s).mp (List.mem_cons_of_mem x hs))).1
      omega
    obtain ⟨D, hfold, -, hD, -⟩ :=
      exists_foldlM_splitMember dtran x _ (D := ∅) hcur (by omega) hbound
      (List.Pairwise.of_cons hnd) (fun s _ => by simp)
    have hD' : ∀ s ∈ D, s ∈ y :: l := fun s hs => (hD s hs).resolve_left (Finset.notMem_empty s)
    refine ⟨x, y :: l, D, rfl, hpair, hmem, hfold, hD', ?_⟩
    simp only [write_of_lt (show st.ngroups < dfaMax by omega), Option.bind_eq_bind,
      Option.bind_some, st.moved_empty current, hfold]
    refine ⟨_, rfl, ?_⟩
    split <;> rfl

/-- States in different groups stay in different groups. -/
lemma splitGroup_ne (h : Partition n accept st) (hn : n ≤ dfaMax) (hcur : current < st.ngroups)
    (hsplit : splitGroup dtran current st = some st') {s t : ℕ} (hs : s < n) (ht : t < n)
    (hne : st.ingroup s ≠ st.ingroup t) : st'.ingroup s ≠ st'.ingroup t := by
  obtain ⟨first, rest, D, -, -, hmem, -, hD, st'', hsplit', hin⟩ :=
    splitGroup_cases dtran h hn hcur
  rw [hsplit'] at hsplit
  cases hsplit
  have hgroup : ∀ q ∈ D, st.ingroup q = current := by
    intro q hq
    exact ((h.mem_iff current hcur q).mp ((hmem q).mp (List.mem_cons_of_mem first (hD q hq)))).2
  have hs' := h.ingroup_lt s hs
  have ht' := h.ingroup_lt t ht
  rw [hin]
  simp only [Groups.moved]
  by_cases hsD : s ∈ D
  · by_cases htD : t ∈ D
    · exact absurd ((hgroup s hsD).trans (hgroup t htD).symm) hne
    · rw [if_pos hsD, if_neg htD]
      exact ht'.ne'
  · by_cases htD : t ∈ D
    · rw [if_neg hsD, if_pos htD]
      exact hs'.ne
    · rw [if_neg hsD, if_neg htD]
      exact hne

/-- Whether a scan keeps two members together is decided by the comparison of the larger one with
the first member. -/
lemma splitGroup_ingroup_eq_iff (h : Partition d.nstates d.accept st) (hcur : current < st.ngroups)
    {first next : ℕ} {before after : List ℕ} {st₁ : Groups}
    (hl : (st.groups current).sort (· ≤ ·) = first :: (before ++ next :: after))
    (hfold : before.foldlM (splitMember d.dtran current first)
      { st with groups := Function.update st.groups st.ngroups ∅ } = some st₁)
    {s : ℕ} (hlt : s < next) (hs : s ∈ st₁.groups current ∨ s ∈ st₁.groups st₁.ngroups) :
    s ∈ st.groups current ∧ next ∈ st.groups current ∧
      ∃ st', splitGroup d.dtran current st = some st' ∧ (st'.ingroup s = st'.ingroup next ↔
        (differ d.dtran st₁.ingroup first next = true ↔ s ∈ st₁.groups st₁.ngroups)) := by
  obtain ⟨first', rest, D', hl', hsorted, hmem, hfold', hD', st', hsplit, hin⟩ :=
    splitGroup_cases d.dtran h d.le hcur
  rw [hl, List.cons.injEq] at hl'
  obtain ⟨rfl, rfl⟩ := hl'
  have hmem' : ∀ q ∈ first :: (before ++ next :: after), q < d.nstates := by
    intro q hq
    exact ((h.mem_iff current hcur q).mp ((hmem q).mp hq)).1
  have hn := h.ngroups_lt hcur ((hmem first).mp (by simp)) ((hmem next).mp (by simp))
    (List.rel_of_pairwise_cons hsorted (by simp)).ne
  have hle := d.le
  have hnd := (List.Pairwise.of_cons hsorted).imp fun hab => ne_of_lt hab
  have hbound : ∀ q ∈ before ++ next :: after, q < dfaMax := by
    intro q hq
    have hq' := hmem' q (List.mem_cons_of_mem first hq)
    omega
  -- the members moved before this comparison
  obtain ⟨D, hD, -, hDmem, -⟩ := exists_foldlM_splitMember d.dtran first before (D := ∅)
    hcur (by omega) (fun q hq => hbound q (List.mem_append_left _ hq))
    (List.pairwise_append.mp hnd).1 (fun q _ => by simp)
  rw [st.moved_empty current, hD, Option.some.injEq] at hfold
  subst hfold
  have hnew : (st.moved current D).groups (st.moved current D).ngroups = D := by
    simp [Groups.moved]
  rw [hnew] at hs ⊢
  have hDbefore : ∀ q ∈ D, q ∈ before := fun q hq =>
    (hDmem q hq).resolve_left (Finset.notMem_empty q)
  have hdisj := (List.pairwise_append.mp hnd).2.2
  have hnextD : next ∉ D := fun h => hdisj next (hDbefore next h) next (by simp) rfl
  -- this comparison and those after it
  rw [List.foldlM_append, hD] at hfold'
  simp only [Option.bind_eq_bind, Option.bind_some, List.foldlM_cons] at hfold'
  rw [splitMember_moved hcur (by omega) (hbound next (by simp)), Option.bind_some] at hfold'
  obtain ⟨D₁, hD₁, hD₁mem⟩ : ∃ D₁, (if differ d.dtran (st.moved current D).ingroup first next then
      st.moved current (insert next D) else st.moved current D) = st.moved current D₁ ∧
      ∀ q, q ∈ D₁ ↔ q ∈ D ∨
        (q = next ∧ differ d.dtran (st.moved current D).ingroup first next = true) := by
    by_cases hdiff : differ d.dtran (st.moved current D).ingroup first next = true
    · exact ⟨insert next D, by rw [if_pos hdiff], fun q => by simp [hdiff, or_comm]⟩
    · exact ⟨D, by rw [if_neg hdiff], fun q => by simp [hdiff]⟩
  rw [hD₁] at hfold'
  have hafter : after.Nodup := (List.nodup_cons.mp (List.pairwise_append.mp hnd).2.1).2
  have hnextafter : next ∉ after := (List.nodup_cons.mp (List.pairwise_append.mp hnd).2.1).1
  obtain ⟨D₂, hD₂, hsub, hD₂mem, -⟩ := exists_foldlM_splitMember d.dtran first after
    (D := D₁) hcur (by omega) (fun q hq => hbound q (by simp [hq])) hafter (by
      intro q hq hqD
      rcases (hD₁mem q).mp hqD with hqD | ⟨rfl, -⟩
      · exact hdisj q (hDbefore q hqD) q (by simp [hq]) rfl
      · exact hnextafter hq)
  rw [hfold', Option.some.injEq] at hD₂
  have hDD : D' = D₂ := by
    have hg := congrArg (fun q : Groups => q.groups st.ngroups) hD₂
    simpa [Groups.moved] using hg
  -- so whether `s` and `next` are moved in the scan is decided by now
  have hsafter : s ∉ after := by
    intro hsa
    have hpair := (List.pairwise_append.mp (List.Pairwise.of_cons hsorted)).2.1
    exact lt_asymm hlt (List.rel_of_pairwise_cons hpair hsa)
  have hsD : s ∈ D' ↔ s ∈ D := by
    rw [hDD]
    constructor
    · intro h
      rcases (hD₁mem s).mp ((hD₂mem s h).resolve_right hsafter) with h | ⟨rfl, -⟩
      · exact h
      · exact absurd hlt (lt_irrefl s)
    · intro h
      exact hsub ((hD₁mem s).mpr (Or.inl h))
  have hnD : next ∈ D' ↔ differ d.dtran (st.moved current D).ingroup first next = true := by
    rw [hDD]
    constructor
    · intro h
      rcases (hD₁mem next).mp ((hD₂mem next h).resolve_right hnextafter) with h | ⟨-, h⟩
      · exact absurd h hnextD
      · exact h
    · intro h
      exact hsub ((hD₁mem next).mpr (Or.inr ⟨rfl, h⟩))
  have hsgroup : s ∈ st.groups current := by
    rcases hs with hs | hs
    · simp only [Groups.moved, if_neg hcur.ne, if_true] at hs
      exact (Finset.mem_sdiff.mp hs).1
    · exact (hmem s).mp (by simp [hDbefore s hs])
  have hngroup : next ∈ st.groups current := (hmem next).mp (by simp)
  refine ⟨hsgroup, hngroup, st', hsplit, ?_⟩
  rw [← hnD, ← hsD, hin]
  have hsg := ((h.mem_iff current hcur s).mp hsgroup).2
  have hng := ((h.mem_iff current hcur next).mp hngroup).2
  have hcn := hcur.ne
  simp only [Groups.moved, hsg, hng]
  by_cases hsD' : s ∈ D' <;> by_cases hnD' : next ∈ D' <;> simp [hsD', hnD', hcn, hcn.symm]

/-- The scan of a group compares the larger one of two members with the first member. -/
lemma exists_scan (h : Partition d.nstates d.accept st) (hcur : current < st.ngroups) {s next : ℕ}
    (hs : s ∈ st.groups current) (hnext : next ∈ st.groups current) (hlt : s < next) :
    ∃ first before after st₁,
      (st.groups current).sort (· ≤ ·) = first :: (before ++ next :: after) ∧
      before.foldlM (splitMember d.dtran current first)
        { st with groups := Function.update st.groups st.ngroups ∅ } = some st₁ ∧
      (s ∈ st₁.groups current ∨ s ∈ st₁.groups st₁.ngroups) := by
  obtain ⟨first, rest, -, hl, hsorted, hmem, -⟩ :=
    splitGroup_cases d.dtran h d.le hcur
  have hrest : next ∈ rest := by
    rcases List.mem_cons.mp ((hmem next).mpr hnext) with rfl | hrest
    · rcases List.mem_cons.mp ((hmem s).mpr hs) with rfl | hs'
      · exact absurd hlt (lt_irrefl s)
      · exact absurd (List.rel_of_pairwise_cons hsorted hs') (lt_asymm hlt)
    · exact hrest
  obtain ⟨before, after, rfl⟩ := List.append_of_mem hrest
  have hn := h.ngroups_lt hcur hs hnext hlt.ne
  have hle := d.le
  have hnd := (List.Pairwise.of_cons hsorted).imp fun hab => ne_of_lt hab
  obtain ⟨D, hD, -, hDmem, -⟩ := exists_foldlM_splitMember d.dtran first before (D := ∅)
    hcur (by omega) (by
      intro q hq
      have hq' := ((h.mem_iff current hcur q).mp ((hmem q).mp (by simp [hq]))).1
      omega) (List.pairwise_append.mp hnd).1 (fun q _ => by simp)
  refine ⟨first, before, after, st.moved current D,
    hl, by rw [st.moved_empty current]; exact hD, ?_⟩
  by_cases hsD : s ∈ D
  · right
    simpa [Groups.moved] using hsD
  · left
    simp [Groups.moved, hcur.ne, hs, hsD]

end Split

/-! ## The whole run -/

section Run

variable {d : Dfa} {st st' : Groups} {old current : ℕ}

/-- The inner loop of `init_groups` misses no earlier state with the same accept string. -/
lemma sameAccept_none {accept : ℕ → Accept} {i j : ℕ} (h : sameAccept accept i j = none) :
    ∀ k < j, (accept i).string ≠ (accept k).string := by
  induction j with
  | zero =>
    intro k hk
    exact absurd hk (Nat.not_lt_zero k)
  | succ j ih =>
    rw [sameAccept] at h
    split at h
    · cases h
    · rename_i hne
      intro k hk
      by_cases hkj : k = j
      · rw [hkj]
        exact hne
      · exact ih h k (by omega)

/-- States with the same accept string start in the same group. -/
lemma initGroups_saturated (accept : ℕ → Accept) {n : ℕ} (hn : n ≤ dfaMax)
    (h : initGroups n accept = some st) :
    ∀ s < n, ∀ t < n, (accept s).string = (accept t).string → st.ingroup s = st.ingroup t := by
  induction n generalizing st with
  | zero =>
    intro s hs
    exact absurd hs (Nat.not_lt_zero s)
  | succ i ih =>
    obtain ⟨st₀, hst₀, hpart⟩ := exists_initGroups accept (show i ≤ dfaMax by omega)
    have hih := ih (by omega) hst₀
    have hle := hpart.ngroups_le
    unfold initGroups at h hst₀
    rw [List.range_succ, List.foldlM_append, hst₀] at h
    simp only [Option.bind_eq_bind, Option.bind_some, List.foldlM_cons, List.foldlM_nil] at h
    -- the state `i` goes to the group of a state with its accept string, if there is one
    obtain ⟨g, hin, hg⟩ : ∃ g, st.ingroup = Function.update st₀.ingroup i g ∧
        ∀ s < i, (accept i).string = (accept s).string → st₀.ingroup s = g := by
      unfold initState at h
      cases hsame : sameAccept accept i i with
      | none =>
        simp only [hsame, write_of_lt (show st₀.ngroups < dfaMax by omega),
          write_of_lt (show i < dfaMax by omega), Option.bind_eq_bind, Option.bind_some] at h
        cases h
        refine ⟨_, rfl, ?_⟩
        intro s hs heq
        exact absurd heq (sameAccept_none hsame s hs)
      | some j =>
        obtain ⟨hj, hstring⟩ := sameAccept_some hsame
        have hlt := hpart.ingroup_lt j hj
        simp only [hsame, write_of_lt (show st₀.ingroup j < dfaMax by omega),
          write_of_lt (show i < dfaMax by omega), Option.bind_eq_bind, Option.bind_some] at h
        cases h
        refine ⟨_, rfl, ?_⟩
        intro s hs heq
        exact hih s hs j hj (heq.symm.trans hstring)
    have hold : ∀ s, s ≠ i → st.ingroup s = st₀.ingroup s := by
      intro s hs
      rw [hin, Function.update_of_ne hs]
    have hself : st.ingroup i = g := by rw [hin, Function.update_self]
    intro s hs t ht heq
    by_cases hsi : s = i
    · by_cases hti : t = i
      · rw [hsi, hti]
      · rw [hsi] at heq ⊢
        rw [hself, hold t hti]
        exact (hg t (by omega) heq).symm
    · by_cases hti : t = i
      · rw [hti] at heq ⊢
        rw [hself, hold s hsi]
        exact hg s (by omega) heq.symm
      · rw [hold s hsi, hold t hti]
        exact hih s (by omega) t (by omega) heq

/-- The groups are a partition at every visit of the loop. -/
lemma Visits.partition (h : Visits d old st current) : Partition d.nstates d.accept st := by
  induction h with
  | start hinit =>
    obtain ⟨st, hst, hpart⟩ := exists_initGroups d.accept d.le
    rw [hinit] at hst
    cases hst
    exact hpart
  | next _ hcur hsplit ih =>
    obtain ⟨st', hst', hpart, -⟩ := exists_splitGroup d.dtran ih d.le hcur
    rw [hsplit] at hst'
    cases hst'
    exact hpart
  | again _ _ _ ih => exact ih

/-- The rest of the run from a visit on leads to the result of `minimize`. -/
lemma Visits.rest (h : Visits d old st current) : ∃ f₁ f₂,
    ((minPass d.dtran f₁ current st).bind fun st' =>
      if old ≠ st'.ngroups then minLoop d.dtran f₂ st' else some st') = minGroups d := by
  obtain ⟨final, hfinal, -⟩ := exists_minGroups d
  induction h with
  | start hinit =>
    refine ⟨dfaMax + 1, dfaMax, ?_⟩
    rw [minGroups, hinit]
    rfl
  | @next old current st st' _ hcur hsplit ih =>
    obtain ⟨f₁, f₂, hrest⟩ := ih
    cases f₁ with
    | zero =>
      rw [hfinal] at hrest
      cases hrest
    | succ f₁ =>
      rw [minPass, if_pos hcur, hsplit] at hrest
      exact ⟨f₁, f₂, hrest⟩
  | @again old current st _ hcur hold ih =>
    obtain ⟨f₁, f₂, hrest⟩ := ih
    cases f₁ with
    | zero =>
      rw [hfinal] at hrest
      cases hrest
    | succ f₁ =>
      rw [minPass, if_neg hcur, Option.bind_some, if_pos hold] at hrest
      cases f₂ with
      | zero =>
        rw [hfinal] at hrest
        cases hrest
      | succ f₂ => exact ⟨dfaMax + 1, f₂, hrest⟩

/-- A pass never puts states of different groups together. -/
lemma minPass_ne {f : ℕ} (hpart : Partition d.nstates d.accept st)
    (h : minPass d.dtran f current st = some st') {s t : ℕ} (hs : s < d.nstates)
    (ht : t < d.nstates) (hne : st.ingroup s ≠ st.ingroup t) :
    Partition d.nstates d.accept st' ∧ st'.ingroup s ≠ st'.ingroup t := by
  induction f generalizing current st with
  | zero => cases h
  | succ f ih =>
    rw [minPass] at h
    split at h
    · rename_i hcur
      obtain ⟨st₁, hsplit, h⟩ := Option.bind_eq_some_iff.mp h
      obtain ⟨st₂, hst₂, hpart₂, -⟩ := exists_splitGroup d.dtran hpart d.le hcur
      rw [hsplit] at hst₂
      cases hst₂
      exact ih hpart₂ h (splitGroup_ne hpart d.le hcur hsplit hs ht hne)
    · cases h
      exact ⟨hpart, hne⟩

/-- The passes never put states of different groups together. -/
lemma minLoop_ne {f : ℕ} (hpart : Partition d.nstates d.accept st)
    (h : minLoop d.dtran f st = some st') {s t : ℕ} (hs : s < d.nstates) (ht : t < d.nstates)
    (hne : st.ingroup s ≠ st.ingroup t) : st'.ingroup s ≠ st'.ingroup t := by
  induction f generalizing st with
  | zero => cases h
  | succ f ih =>
    rw [minLoop] at h
    obtain ⟨st₁, hpass, h⟩ := Option.bind_eq_some_iff.mp h
    obtain ⟨hpart₁, hne₁⟩ := minPass_ne hpart hpass hs ht hne
    split at h
    · exact ih hpart₁ h hne₁
    · cases h
      exact hne₁

/-- States that are in different groups at a visit end in different groups. -/
lemma Visits.ne (h : Visits d old st current) (hfinal : minGroups d = some st') {s t : ℕ}
    (hs : s < d.nstates) (ht : t < d.nstates) (hne : st.ingroup s ≠ st.ingroup t) :
    st'.ingroup s ≠ st'.ingroup t := by
  obtain ⟨f₁, f₂, hrest⟩ := h.rest
  rw [hfinal] at hrest
  obtain ⟨st₁, hpass, hrest⟩ := Option.bind_eq_some_iff.mp hrest
  obtain ⟨hpart₁, hne₁⟩ := minPass_ne h.partition hpass hs ht hne
  split at hrest
  · exact minLoop_ne hpart₁ hrest hs ht hne₁
  · cases hrest
    exact hne₁

/-- A pass ends with a visit behind the last group. -/
lemma Visits.minPass {f : ℕ} (h : Visits d old st current)
    (hpass : minPass d.dtran f current st = some st') :
    ∃ current', Visits d old st' current' ∧ ¬ current' < st'.ngroups := by
  induction f generalizing current st with
  | zero => cases hpass
  | succ f ih =>
    rw [Lex.minPass] at hpass
    split at hpass
    · rename_i hcur
      obtain ⟨st₁, hsplit, hpass⟩ := Option.bind_eq_some_iff.mp hpass
      exact ih (.next h hcur hsplit) hpass
    · rename_i hcur
      cases hpass
      exact ⟨current, h, hcur⟩

/-- The result of the passes is what there is at the last visit. -/
lemma Visits.minLoop {f : ℕ} (h : Visits d st.ngroups st 0)
    (hloop : minLoop d.dtran f st = some st') : ∃ old' current', Visits d old' st' current' := by
  induction f generalizing st with
  | zero => cases hloop
  | succ f ih =>
    rw [Lex.minLoop] at hloop
    obtain ⟨st₁, hpass, hloop⟩ := Option.bind_eq_some_iff.mp hloop
    obtain ⟨current', hvisit, hcur⟩ := h.minPass hpass
    split at hloop
    · rename_i hne
      exact ih (.again hvisit hcur hne) hloop
    · cases hloop
      exact ⟨_, _, hvisit⟩

/-- The result of `minimize` is what there is at some visit. -/
lemma exists_visits (h : minGroups d = some st) : ∃ old current, Visits d old st current := by
  obtain ⟨st₀, hinit, hloop⟩ := Option.bind_eq_some_iff.mp h
  exact Visits.minLoop (.start hinit) hloop

/-- States that no comparison separates are in one group at every visit. -/
lemma Visits.ingroup_eq (h : Visits d old st current) {s t : ℕ} (ht : t < d.nstates)
    (hlt : s < t) (hstring : (d.accept s).string = (d.accept t).string) (hsep : ¬ Separated d s t) :
    st.ingroup s = st.ingroup t := by
  induction h with
  | start hinit => exact initGroups_saturated d.accept d.le hinit s (hlt.trans ht) t ht hstring
  | again _ _ _ ih => exact ih
  | @next old current st st' hvisit hcur hsplit ih =>
    have hpart := hvisit.partition
    have hmem : ∀ q < d.nstates, (q ∈ st.groups current ↔ st.ingroup q = current) := by
      intro q hq
      rw [hpart.mem_iff current hcur q]
      exact and_iff_right hq
    by_cases hsg : st.ingroup s = current
    · have hs := (hmem s (hlt.trans ht)).mpr hsg
      have ht' := (hmem t ht).mpr (ih ▸ hsg)
      obtain ⟨first, before, after, st₁, hl, hfold, hin⟩ := exists_scan hpart hcur hs ht' hlt
      obtain ⟨-, -, st'', hst'', hiff⟩ := splitGroup_ingroup_eq_iff hpart hcur hl hfold hlt hin
      rw [hsplit, Option.some.injEq] at hst''
      subst hst''
      rw [hiff]
      by_contra hne
      exact hsep ⟨st₁, current, first, ⟨old, st, before, after, hvisit, hcur, hl, hfold⟩, hin, hne⟩
    · -- the scan does not visit them
      obtain ⟨first, rest, D, -, -, hin, -, hD, st'', hst'', hst⟩ :=
        splitGroup_cases d.dtran hpart d.le hcur
      rw [hsplit, Option.some.injEq] at hst''
      subst hst''
      have hnot : ∀ q < d.nstates, st.ingroup q ≠ current → q ∉ D := by
        intro q hq hne hqD
        exact hne ((hmem q hq).mp ((hin q).mp (List.mem_cons_of_mem first (hD q hqD))))
      rw [hst]
      simp only [Groups.moved, if_neg (hnot s (hlt.trans ht) hsg), if_neg (hnot t ht (ih ▸ hsg)),
        ih]

/-- Two states with one accept string end in different groups exactly when a comparison separates
them. -/
lemma ingroup_ne_iff (hfinal : minGroups d = some st) {s t : ℕ} (ht : t < d.nstates) (hlt : s < t)
    (hstring : (d.accept s).string = (d.accept t).string) :
    st.ingroup s ≠ st.ingroup t ↔ Separated d s t := by
  constructor
  · intro hne
    obtain ⟨old, current, hvisit⟩ := exists_visits hfinal
    by_contra hsep
    exact hne (hvisit.ingroup_eq ht hlt hstring hsep)
  · rintro ⟨st₁, current, first, ⟨old, st₀, before, after, hvisit, hcur, hl, hfold⟩, hs, hne⟩
    obtain ⟨-, -, st', hsplit, hiff⟩ :=
      splitGroup_ingroup_eq_iff hvisit.partition hcur hl hfold hlt hs
    rw [← hiff] at hne
    exact Visits.ne (.next hvisit hcur hsplit) hfinal (hlt.trans ht) ht hne

/-- When all comparisons of a run are consistent, equivalent states end in one group, and conversely
a comparison that is not consistent separates equivalent states. -/
lemma saturated_iff (hfinal : minGroups d = some st) : Saturated d st ↔
    ∀ st current first next, Compares d st current first next →
      Consistent d st current first next := by
  constructor
  · intro hsat st₁ current first next hcomp s hlt hs heq
    by_contra hne
    have hnext : next < d.nstates := by
      obtain ⟨old, st₀, before, after, hvisit, hcur, hl, -⟩ := hcomp
      have hmem : next ∈ (st₀.groups current).sort (· ≤ ·) := by simp [hl]
      rw [Finset.mem_sort] at hmem
      exact ((hvisit.partition.mem_iff current hcur next).mp hmem).1
    have hsep :=
      (ingroup_ne_iff hfinal hnext hlt heq.string_eq).mpr ⟨st₁, current, first, hcomp, hs, hne⟩
    exact hsep (hsat s (hlt.trans hnext) next hnext heq)
  · intro hcons
    have hin : ∀ s t, s < t → t < d.nstates → d.Equivalent s t → st.ingroup s = st.ingroup t := by
      intro s t hlt ht heq
      by_contra hne
      obtain ⟨st₁, current, first, hcomp, hs, hdiff⟩ :=
        (ingroup_ne_iff hfinal ht hlt heq.string_eq).mp hne
      exact hdiff (hcons st₁ current first t hcomp s hlt hs heq)
    intro s hs t ht heq
    rcases lt_trichotomy s t with hlt | rfl | hlt
    · exact hin s t hlt ht heq
    · rfl
    · exact (hin t s hlt hs heq.symm).symm

/-- The verdicts of the new table are those of the old one. -/
lemma verdict_fixDtran (hpart : Partition d.nstates d.accept st)
    (hstable : ∀ g < st.ngroups, Stable d.dtran st g) {s : ℕ} (hs : s < d.nstates)
    (w : List (Fin maxChars)) :
    (fixDtran d st hpart).verdict (st.ingroup s) w = d.verdict s w := by
  obtain ⟨herr, hok⟩ := runFrom_fixRow hpart hstable w (i := 0) hs
  have hrun : (fixDtran d st hpart).dtran = fixRow d.dtran st := rfl
  unfold Dfa.verdict
  rw [hrun]
  cases h : runFrom d.dtran s 0 w with
  | error k => rw [herr k h]
  | ok t =>
    obtain ⟨htn, ht⟩ := hok t h
    have hg := hpart.ingroup_lt t htn
    have hmem := (hpart.mem_iff _ hg t).mpr ⟨htn, rfl⟩
    rw [ht]
    exact congrArg some (hpart.string_eq _ hg _ (hpart.first_mem hg).1 t hmem)

/-- The result of `minimize` is the table that `fix_dtran` builds. -/
lemma minimize_eq (hfinal : minGroups d = some st) (hpart : Partition d.nstates d.accept st)
    {d' : Dfa} (h : minimize d = some (d'.dtran, d'.accept, d'.nstates)) :
    d' = fixDtran d st hpart := by
  have hfix : minimize d = some ((fixDtran d st hpart).dtran, (fixDtran d st hpart).accept,
      (fixDtran d st hpart).nstates) := by
    simp [minimize, hfinal, fixDtran]
  rw [h, Option.some.injEq, Prod.mk.injEq, Prod.mk.injEq] at hfix
  cases d'
  obtain ⟨rfl, rfl, rfl⟩ := hfix
  rfl

/-- The new table is minimal if equivalent states are in one group. -/
lemma minimal_fixDtran_iff (hpart : Partition d.nstates d.accept st)
    (hstable : ∀ g < st.ngroups, Stable d.dtran st g) :
    (fixDtran d st hpart).Minimal ↔ Saturated d st := by
  constructor
  · intro hmin s hs t ht heq
    by_contra hne
    apply hmin _ (hpart.ingroup_lt s hs) _ (hpart.ingroup_lt t ht) hne
    intro w
    rw [verdict_fixDtran hpart hstable hs, verdict_fixDtran hpart hstable ht]
    exact heq w
  · intro hsat g hg h hh hne heq
    obtain ⟨hgn, hgin⟩ := (hpart.mem_iff g hg _).mp (hpart.first_mem hg).1
    obtain ⟨hhn, hhin⟩ := (hpart.mem_iff h hh _).mp (hpart.first_mem hh).1
    apply hne
    rw [← hgin, ← hhin]
    apply hsat _ hgn _ hhn
    intro w
    rw [← verdict_fixDtran hpart hstable hgn, ← verdict_fixDtran hpart hstable hhn, hgin, hhin]
    exact heq w

/-- The table that `minimize` leaves has no two equivalent states exactly when every comparison of a
member with the first member of its group treats the member like the equivalent members before
it. -/
theorem minimize_minimal_iff (d : Dfa) :
    ∃ d' : Dfa, minimize d = some (d'.dtran, d'.accept, d'.nstates) ∧
      (d'.Minimal ↔ ∀ st current first next, Compares d st current first next →
        Consistent d st current first next) := by
  obtain ⟨st, hmin, hpart, hstable⟩ := exists_minGroups d
  refine ⟨fixDtran d st hpart, by simp [minimize, hmin, fixDtran], ?_⟩
  rw [minimal_fixDtran_iff hpart hstable]
  exact saturated_iff hmin

end Run

/-! ## A table that does not become minimal -/

/-- A table whose states `1` and `3` have the same row.  All states have one accept string. -/
def twinDfa : Dfa where
  nstates := 4
  dtran s c := if c = 0 then (if s = 0 then 0 else if s = 2 then fail else 2) else fail
  accept _ := ⟨some 0, 0⟩
  pos := by decide
  le := by decide
  entry := by decide

/-- On the character `0` the states `1` and `3` of `twinDfa` lead to `2`, while `0` leads to
itself. -/
lemma differ_twinDfa (ingroup : ℕ → ℕ) {s : ℕ} (hs : s = 1 ∨ s = 3) :
    differ twinDfa.dtran ingroup 0 s = true ↔ ingroup 0 ≠ ingroup 2 := by
  have hrow : ∀ c, twinDfa.dtran s c = if c = 0 then 2 else fail := by
    intro c
    rcases hs with rfl | rfl <;> rfl
  have hrow0 : ∀ c, twinDfa.dtran 0 c = if c = 0 then 0 else fail := fun _ => rfl
  unfold differ
  rw [List.any_eq_true]
  constructor
  · rintro ⟨c, -, hc⟩
    rw [decide_eq_true_eq, hrow, hrow0] at hc
    by_cases h0 : c = 0
    · simpa [h0, fail] using hc
    · simp [h0] at hc
  · intro hne
    refine ⟨0, by simp, ?_⟩
    rw [decide_eq_true_eq, hrow, hrow0]
    simpa [fail] using hne

/-- On the character `0` the state `2` of `twinDfa` fails and `0` does not. -/
lemma differ_twinDfa_two (ingroup : ℕ → ℕ) : differ twinDfa.dtran ingroup 0 2 = true := by
  unfold differ
  rw [List.any_eq_true]
  refine ⟨0, by simp, ?_⟩
  simp [twinDfa, fail]

/-- While the only group of `twinDfa` is scanned, the state `1` is compared with `0` before `2` is
moved, and the state `3` after it. -/
lemma compares_twinDfa : ∃ st : Groups, Compares twinDfa st 0 0 3 ∧ 1 ∈ st.groups 0 ∧
    1 ∉ st.groups st.ngroups ∧ st.ingroup 0 ≠ st.ingroup 2 := by
  obtain ⟨st, hinit, hpart⟩ := exists_initGroups twinDfa.accept twinDfa.le
  have hin : ∀ s < 4, st.ingroup s = 0 := by
    intro s hs
    rw [initGroups_saturated twinDfa.accept twinDfa.le hinit s hs 0 (by decide) rfl, hpart.zero]
  have hpos : 0 < st.ngroups := (Nat.zero_le _).trans_lt (hpart.ingroup_lt 0 (by decide))
  have hgroup : st.groups 0 = Finset.range 4 := by
    ext s
    rw [hpart.mem_iff 0 hpos, Finset.mem_range]
    exact ⟨fun h => h.1, fun h => ⟨h, hin s h⟩⟩
  have hlt : st.ngroups < dfaMax := by
    have hle := hpart.ngroups_le
    exact lt_of_le_of_lt hle (by decide)
  have hsort : (st.groups 0).sort (· ≤ ·) = 0 :: ([1, 2] ++ 3 :: []) := by
    rw [hgroup]
    exact Finset.sort_range 4
  have hone : differ twinDfa.dtran (st.moved 0 ∅).ingroup 0 1 ≠ true := by
    rw [ne_eq, differ_twinDfa _ (Or.inl rfl)]
    simp [Groups.moved, hin]
  have hfold : [1, 2].foldlM (splitMember twinDfa.dtran 0 0)
      { st with groups := Function.update st.groups st.ngroups ∅ } = some (st.moved 0 {2}) := by
    rw [st.moved_empty 0]
    simp only [List.foldlM_cons, List.foldlM_nil, Option.bind_eq_bind]
    rw [splitMember_moved hpos hlt (by decide), if_neg hone, Option.bind_some,
      splitMember_moved hpos hlt (by decide), if_pos (differ_twinDfa_two _)]
    rfl
  refine ⟨st.moved 0 {2}, ⟨st.ngroups, st, [1, 2], [], .start hinit, hpos, hsort, hfold⟩,
    ?_, ?_, ?_⟩
  · simp [Groups.moved, hpos.ne, hgroup]
  · simp [Groups.moved]
  · simp [Groups.moved, hin, hpos.ne]

/-- The states `1` and `3` of `twinDfa` are equivalent, but `minimize` separates them. -/
theorem not_minimal_twinDfa :
    ¬ ∃ d' : Dfa, minimize twinDfa = some (d'.dtran, d'.accept, d'.nstates) ∧ d'.Minimal := by
  rintro ⟨d', hd', hmin⟩
  obtain ⟨st, hgroups, hpart, hstable⟩ := exists_minGroups twinDfa
  rw [minimize_eq hgroups hpart hd', minimal_fixDtran_iff hpart hstable, saturated_iff hgroups]
    at hmin
  obtain ⟨st₁, hcomp, hmem, hnot, hne⟩ := compares_twinDfa
  have hrow : twinDfa.dtran 1 = twinDfa.dtran 3 := rfl
  have heq : twinDfa.Equivalent 1 3 := by
    intro w
    cases w with
    | nil => rfl
    | cons c w =>
      unfold Dfa.verdict runFrom
      rw [hrow]
  have hiff := hmin st₁ 0 0 3 hcomp 1 (by decide) (Or.inl hmem) heq
  exact hnot (hiff.mp ((differ_twinDfa _ (Or.inr rfl)).mpr hne))

end Lex
