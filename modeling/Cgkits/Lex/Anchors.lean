import Cgkits.Lex.Minimal
import Cgkits.Lex.Priority

/-!
# Anchors and minimization

`init_groups` starts from groups of states with one accept string, whatever their anchors, and
`fix_dtran` keeps the accept string and the anchor of the first member of each group.  A rule with
the action `|` has the accept string of the next rule but an anchor of its own, so states with one
accept string can have different anchors.

`anchors_survive_iff` states that every string keeps its anchor exactly when equivalent states with
different anchors are always separated in a scan, which by `ingroup_ne_iff` only a comparison with
group numbers that change during the scan can do.
-/

namespace Lex

/-! ## The table of the rules -/

section Table

variable {m : Nfa}

/-- `make_trans` for one character does not exceed the table. -/
lemma transOn_length {S : Finset ℕ} {st st' : Trans} {c : Fin maxChars}
    (hle : st.dstates.length ≤ dfaMax) (h : transOn m S st c = some st') :
    st'.dstates.length ≤ dfaMax := by
  unfold transOn at h
  split at h
  · cases h
    exact hle
  · rw [Option.bind_eq_bind, Option.bind_eq_some_iff] at h
    obtain ⟨r, -, h⟩ := h
    split at h
    · cases h
      exact hle
    · split at h
      · cases h
      · rename_i hlt
        cases h
        rw [List.length_append, List.length_singleton]
        have hmax : dfaMax = dfaMax - 1 + 1 := rfl
        omega

/-- The loop over the characters does not exceed the table. -/
lemma foldlM_transOn_length {S : Finset ℕ} {cs : List (Fin maxChars)} {st st' : Trans}
    (hle : st.dstates.length ≤ dfaMax) (h : cs.foldlM (transOn m S) st = some st') :
    st'.dstates.length ≤ dfaMax :=
  Loop.foldlM_invariant (I := fun st => st.dstates.length ≤ dfaMax)
    (fun _ _ _ _ hst hstep => transOn_length hst hstep) hle h

/-- The loop of `make_trans` does not exceed the table. -/
lemma transLoop_length {n current anchor : ℕ} {ds ds' : List DState} {dtran dtran' : ℕ → Row}
    (hle : ds.length ≤ dfaMax) (h : transLoop m n current ds anchor dtran = some (ds', dtran')) :
    ds'.length ≤ dfaMax := by
  induction n generalizing current ds anchor dtran with
  | zero => cases h
  | succ n ih =>
    unfold transLoop at h
    split at h
    · cases h
      exact hle
    · rw [Option.bind_eq_bind, Option.bind_eq_some_iff] at h
      obtain ⟨st, hst, h⟩ := h
      exact ih (foldlM_transOn_length hle hst) h

/-- The table that `make_trans` returns has at most `DFA_MAX` states. -/
lemma makeTrans_length {anchor : ℕ} {ds : List DState} {dtran : ℕ → Row}
    (h : makeTrans m anchor = some (ds, dtran)) : ds.length ≤ dfaMax := by
  unfold makeTrans at h
  rw [Option.bind_eq_bind, Option.bind_eq_some_iff] at h
  obtain ⟨r, -, h⟩ := h
  refine transLoop_length ?_ h
  rw [List.length_singleton]
  decide

/-- What the accept array has for a state: its accept string and its anchors. -/
def acceptOf (ds : List DState) (s : ℕ) : Accept :=
  match ds[s]? with
  | some d => ⟨d.accept, d.anchor⟩
  | none => ⟨none, 0⟩

/-- `dfa`: the states of `make_trans`, and the table with the accept array. -/
def dfa (m : Nfa) (anchor : ℕ) : Option (List DState × Dfa) :=
  match h : makeTrans m anchor with
  | none => none
  | some (ds, dtran) =>
    some (ds,
      { nstates := ds.length
        dtran := dtran
        accept := acceptOf ds
        pos := by
          obtain ⟨-, -, d, hd, -⟩ := makeTrans_spec h
          exact (List.getElem?_eq_some_iff.mp hd).1
        le := makeTrans_length h
        entry := by
          intro s hs c
          obtain ⟨-, hrows, -⟩ := makeTrans_spec h
          rcases hrows s hs ds[s] (List.getElem?_eq_getElem hs) c with
            ⟨hfail, -⟩ | ⟨t, d, ht, hd, -⟩
          · exact Or.inl hfail
          · exact Or.inr ⟨t, (List.getElem?_eq_some_iff.mp hd).1, ht⟩ })

/-- The table that `dfa` makes consists of the transitions of `make_trans` and the accept array. -/
lemma dfa_spec {anchor : ℕ} {ds : List DState} {d : Dfa} (h : dfa m anchor = some (ds, d)) :
    makeTrans m anchor = some (ds, d.dtran) ∧ d.nstates = ds.length ∧ d.accept = acceptOf ds := by
  unfold dfa at h
  split at h
  · cases h
  · rename_i hmake
    cases h
    exact ⟨hmake, rfl, rfl⟩

end Table

/-! ## Every state is reached -/

section Reached

variable {m : Nfa}

/-- The states from `k` on have an entry that leads to them, in a row of the table before them. -/
def Entered (ds : List DState) (k : ℕ) (dtran : ℕ → Row) : Prop :=
  ∀ t, k ≤ t → t < ds.length → ∃ s < t, ∃ c, dtran s c = (t : ℕ)

/-- A character adds at most one state, with an entry that leads to it. -/
lemma transOn_entered {S : Finset ℕ} {st st' : Trans} {c : Fin maxChars}
    (h : transOn m S st c = some st') :
    (∀ c', c' ≠ c → st'.row c' = st.row c') ∧
      ∀ t, st.dstates.length ≤ t → t < st'.dstates.length → st'.row c = (t : ℕ) := by
  have hrow : ∀ (x : ℤ) c', c' ≠ c → Function.update st.row c x c' = st.row c' :=
    fun x c' hc => Function.update_of_ne hc x st.row
  unfold transOn at h
  split at h
  · cases h
    exact ⟨hrow fail, fun t hle hlt => absurd hlt (not_lt.mpr hle)⟩
  · rw [Option.bind_eq_bind, Option.bind_eq_some_iff] at h
    obtain ⟨r, -, h⟩ := h
    split at h
    · cases h
      exact ⟨hrow _, fun t hle hlt => absurd hlt (not_lt.mpr hle)⟩
    · split at h
      · cases h
      · cases h
        refine ⟨hrow _, fun t hle hlt => ?_⟩
        rw [List.length_append, List.length_singleton] at hlt
        have ht : t = st.dstates.length := by omega
        rw [ht]
        exact Function.update_self _ _ _

/-- The row of a state has an entry for every state that the row adds. -/
lemma foldlM_transOn_entered {S : Finset ℕ} {cs : List (Fin maxChars)} {st st' : Trans}
    (hnd : cs.Nodup) (h : cs.foldlM (transOn m S) st = some st') :
    (∀ c ∉ cs, st'.row c = st.row c) ∧
      ∀ t, st.dstates.length ≤ t → t < st'.dstates.length → ∃ c, st'.row c = (t : ℕ) := by
  induction cs generalizing st with
  | nil =>
    cases h
    exact ⟨fun _ _ => rfl, fun t hle hlt => absurd hlt (not_lt.mpr hle)⟩
  | cons c cs ih =>
    rw [List.foldlM_cons, Option.bind_eq_bind, Option.bind_eq_some_iff] at h
    obtain ⟨st₁, h₁, h⟩ := h
    rw [List.nodup_cons] at hnd
    obtain ⟨hkeep, hnew⟩ := transOn_entered h₁
    obtain ⟨hkeep', hnew'⟩ := ih hnd.2 h
    constructor
    · intro c' hc'
      rw [List.mem_cons, not_or] at hc'
      rw [hkeep' c' hc'.2, hkeep c' hc'.1]
    · intro t hle hlt
      by_cases ht : t < st₁.dstates.length
      · exact ⟨c, by rw [hkeep' c hnd.1, hnew t hle ht]⟩
      · exact hnew' t (not_lt.mp ht) hlt

/-- The loop of `make_trans` adds only states that an entry leads to. -/
lemma transLoop_entered {n current anchor : ℕ} {ds ds' : List DState} {dtran dtran' : ℕ → Row}
    (hds : ∀ t, 0 < t → t < ds.length → ∃ s < t, s < current ∧ ∃ c, dtran s c = (t : ℕ))
    (h : transLoop m n current ds anchor dtran = some (ds', dtran')) : Entered ds' 1 dtran' := by
  induction n generalizing current ds anchor dtran with
  | zero => cases h
  | succ n ih =>
    unfold transLoop at h
    split at h
    · cases h
      intro t ht hlt
      obtain ⟨s, hs, -, c, hc⟩ := hds t ht hlt
      exact ⟨s, hs, c, hc⟩
    · rename_i d hd
      have hcur := (List.getElem?_eq_some_iff.mp hd).1
      rw [Option.bind_eq_bind, Option.bind_eq_some_iff] at h
      obtain ⟨st, hst, h⟩ := h
      obtain ⟨-, hnew⟩ :=
        foldlM_transOn_entered (List.nodup_reverse.mpr (List.nodup_finRange _)) hst
      refine ih ?_ h
      intro t ht hlt
      by_cases hold : t < ds.length
      · obtain ⟨s, hs, hsc, c, hc⟩ := hds t ht hold
        refine ⟨s, hs, hsc.trans (Nat.lt_succ_self _), c, ?_⟩
        rw [Function.update_of_ne hsc.ne]
        exact hc
      · obtain ⟨c, hc⟩ := hnew t (not_lt.mp hold) hlt
        refine ⟨current, hcur.trans_le (not_lt.mp hold), Nat.lt_succ_self _, c, ?_⟩
        rw [Function.update_self]
        exact hc

/-- A run of a table on a string goes on with one more character when there is a transition. -/
lemma runFrom_concat {dtran : ℕ → Row} {s i t u : ℕ} {w : List (Fin maxChars)} {c : Fin maxChars}
    (h : runFrom dtran s i w = .ok t) (hc : dtran t c = (u : ℕ)) :
    runFrom dtran s i (w ++ [c]) = .ok u := by
  induction w generalizing s i with
  | nil =>
    cases h
    exact runFrom_cons hc
  | cons a w ih =>
    rw [runFrom] at h
    rw [List.cons_append, runFrom]
    split at h
    · cases h
    · rw [if_neg ‹_›]
      exact ih h

/-- Every state of the table is reached by a string. -/
lemma exists_run {anchor : ℕ} {ds : List DState} {dtran : ℕ → Row}
    (h : makeTrans m anchor = some (ds, dtran)) {t : ℕ} (ht : t < ds.length) :
    ∃ w, runFrom dtran 0 0 w = .ok t := by
  unfold makeTrans at h
  rw [Option.bind_eq_bind, Option.bind_eq_some_iff] at h
  obtain ⟨r, -, h⟩ := h
  have henter := transLoop_entered (fun t ht hlt => by
    rw [List.length_singleton] at hlt
    omega) h
  induction t using Nat.strong_induction_on with
  | _ t ih =>
    by_cases h0 : t = 0
    · exact ⟨[], by rw [h0]; rfl⟩
    · obtain ⟨s, hs, c, hc⟩ := henter t (Nat.pos_of_ne_zero h0) ht
      obtain ⟨w, hw⟩ := ih s hs (hs.trans ht)
      exact ⟨w ++ [c], runFrom_concat hw hc⟩

end Reached

/-! ## The anchor of a string -/

/-- For every string that the machine accepts, the anchor of the state reached in the minimized
table is the one that `e_closure` has recorded for the state reached in the table before. -/
def AnchorsSurvive (ds : List DState) (d d' : Dfa) : Prop :=
  ∀ w t x, d.run w = .ok t → ds[t]? = some x → x.accept ≠ none →
    ∃ g, d'.run w = .ok g ∧ (d'.accept g).anchor = x.anchor

section Survive

variable {m : Nfa} {anchor : ℕ} {ds : List DState} {d : Dfa}

/-- The anchors survive if no group has accepting members with different anchors. -/
lemma anchorsSurvive_fixDtran_iff {st : Groups}
    (hdfa : dfa m anchor = some (ds, d)) (hpart : Partition d.nstates d.accept st)
    (hstable : ∀ g < st.ngroups, Stable d.dtran st g) :
    AnchorsSurvive ds d (fixDtran d st hpart) ↔ ∀ s t, s < t → t < d.nstates →
      st.ingroup s = st.ingroup t → (d.accept s).string ≠ none →
      (d.accept s).anchor = (d.accept t).anchor := by
  obtain ⟨hmake, hn, haccept⟩ := dfa_spec hdfa
  have hx : ∀ t x, ds[t]? = some x → t < d.nstates ∧ d.accept t = ⟨x.accept, x.anchor⟩ := by
    intro t x hget
    refine ⟨hn ▸ (List.getElem?_eq_some_iff.mp hget).1, ?_⟩
    rw [haccept, acceptOf, hget]
  have hrun : ∀ w t, d.run w = .ok t → (fixDtran d st hpart).run w = .ok (st.ingroup t) := by
    intro w t ht
    have hok := ((runFrom_fixRow hpart hstable w (i := 0) d.pos).2 t ht).2
    rw [hpart.zero] at hok
    exact hok
  constructor
  · intro hsurvive
    -- every member of a group has the anchor of the first one
    have hfirst : ∀ t < d.nstates, (d.accept t).string ≠ none →
        (d.accept (st.first (st.ingroup t))).anchor = (d.accept t).anchor := by
      intro t ht hstring
      obtain ⟨w, hw⟩ := exists_run hmake (hn ▸ ht)
      have hget := List.getElem?_eq_getElem (hn ▸ ht : t < ds.length)
      rw [(hx t _ hget).2] at hstring ⊢
      obtain ⟨g, hg, hanchor⟩ := hsurvive w t _ hw hget hstring
      rw [hrun w t hw, Except.ok.injEq] at hg
      rw [hg]
      exact hanchor
    intro s t hlt ht hin hstring
    have hs := hlt.trans ht
    have hg := hpart.ingroup_lt s hs
    have hmems := (hpart.mem_iff _ hg s).mpr ⟨hs, rfl⟩
    have hmemt := (hpart.mem_iff _ hg t).mpr ⟨ht, hin.symm⟩
    have hstring' : (d.accept t).string ≠ none :=
      hpart.string_eq _ hg s hmems t hmemt ▸ hstring
    rw [← hfirst s hs hstring, ← hfirst t ht hstring', hin]
  · intro hgroup w t x hw hget hstring
    obtain ⟨ht, hacc⟩ := hx t x hget
    refine ⟨st.ingroup t, hrun w t hw, ?_⟩
    have hg := hpart.ingroup_lt t ht
    have hmem := (hpart.mem_iff _ hg t).mpr ⟨ht, rfl⟩
    obtain ⟨hfmem, hfle⟩ := hpart.first_mem hg
    have hf := (hpart.mem_iff _ hg _).mp hfmem
    change (d.accept (st.first (st.ingroup t))).anchor = x.anchor
    have hxa : x.anchor = (d.accept t).anchor := by rw [hacc]
    rw [hxa]
    rcases Nat.eq_or_lt_of_le (hfle t hmem) with he | hlt
    · rw [he]
    · apply hgroup _ _ hlt ht hf.2
      rw [hpart.string_eq _ hg _ hfmem t hmem, hacc]
      exact hstring

/-- Every accepted string keeps its anchor exactly when a comparison separates every two equivalent
accepting states with different anchors. -/
theorem anchors_survive_iff
    (hdfa : dfa m anchor = some (ds, d)) :
    ∃ d' : Dfa, minimize d = some (d'.dtran, d'.accept, d'.nstates) ∧
      (AnchorsSurvive ds d d' ↔ ∀ s t, s < t → t < d.nstates → d.Equivalent s t →
        (d.accept s).string ≠ none → (d.accept s).anchor ≠ (d.accept t).anchor →
        Separated d s t) := by
  obtain ⟨st, hmin, hpart, hstable⟩ := exists_minGroups d
  refine ⟨fixDtran d st hpart, by simp [minimize, hmin, fixDtran], ?_⟩
  rw [anchorsSurvive_fixDtran_iff hdfa hpart hstable]
  constructor
  · intro hgroup s t hlt ht heq hstring hanchor
    rw [← ingroup_ne_iff hmin ht hlt heq.string_eq]
    intro hin
    exact hanchor (hgroup s t hlt ht hin hstring)
  · intro hsep s t hlt ht hin hstring
    by_contra hanchor
    have heq : d.Equivalent s t := by
      intro w
      rw [← verdict_fixDtran hpart hstable (hlt.trans ht), ← verdict_fixDtran hpart hstable ht, hin]
    exact (ingroup_ne_iff hmin ht hlt heq.string_eq).mpr (hsep s t hlt ht heq hstring hanchor) hin

/-- No comparison separates two states with one row if no state before them has their accept
string. -/
lemma not_separated_of_row {s t : ℕ} (hlt : s < t) (hrow : d.dtran s = d.dtran t)
    (hleast : ∀ q < s, (d.accept q).string ≠ (d.accept s).string) : ¬ Separated d s t := by
  rintro ⟨st₁, current, first, ⟨old, st, before, after, hvisit, hcur, hl, hfold⟩, hs, hne⟩
  have hpart := hvisit.partition
  obtain ⟨hsg, htg, -⟩ := splitGroup_ingroup_eq_iff hpart hcur hl hfold hlt hs
  -- the smaller one is the first member of the group
  have hfirst : first = s := by
    obtain ⟨hmem, hle⟩ := hpart.first_mem hcur
    rw [show st.first current = first by simp [Groups.first, hl]] at hmem hle
    rcases Nat.eq_or_lt_of_le (hle s hsg) with he | hfs
    · exact he
    · exact absurd (hpart.string_eq current hcur first hmem s hsg) (hleast first hfs)
  subst hfirst
  have hdiff : differ d.dtran st₁.ingroup first t = false := by
    unfold differ
    rw [hrow]
    exact differ_self _ _
  -- so it is not moved either
  have hnd := Finset.sort_nodup (st.groups current) (· ≤ ·)
  rw [hl, List.nodup_cons] at hnd
  have hn := hpart.ngroups_lt hcur hsg htg hlt.ne
  have hle := d.le
  obtain ⟨D, hD, -, hDmem, -⟩ := exists_foldlM_splitMember d.dtran first before (D := ∅)
    hcur (by omega) (by
      intro q hq
      have hmem : q ∈ (st.groups current).sort (· ≤ ·) := by simp [hl, hq]
      have hlt := ((hpart.mem_iff current hcur q).mp ((Finset.mem_sort _).mp hmem)).1
      omega) (List.nodup_append.mp hnd.2).1 (fun q _ => by simp)
  rw [st.moved_empty current, hD, Option.some.injEq] at hfold
  subst hfold
  apply hne
  rw [hdiff]
  refine iff_of_false (by simp) ?_
  intro hmem
  have hfD : first ∈ D := by simpa [Groups.moved] using hmem
  exact hnd.1 (List.mem_append_left _ ((hDmem first hfD).resolve_left (Finset.notMem_empty first)))

end Survive

/-! ## A rule that takes the anchor of another one -/

/-- The tokens of the rules `a$` and `b`; the action of the first one is `|`. -/
def sharedAction : List (Token × ℤ × List ℕ) :=
  [(.eos, 0, []),
   (.l, 97, []), (.atEol, 36, []), (.eos, 0, [124]),
   (.l, 98, []), (.eos, 0, [120])]

/-- The states and the table for the input that starts at `s`. -/
def table {ι : Type} (L : Lexer ι) (unix : Bool) (n : ℕ) (s : ι) : Option (List DState × Dfa) :=
  match nfa L unix n s with
  | .error _ => none
  | .ok (_, m) => dfa m 0

/-- The table comes from the machine that `thompson` builds. -/
lemma table_spec {ι : Type} {L : Lexer ι} {unix : Bool} {n : ℕ} {s : ι} {ds : List DState} {d : Dfa}
    (h : table L unix n s = some (ds, d)) :
    ∃ rules m, nfa L unix n s = .ok (rules, m) ∧ dfa m 0 = some (ds, d) := by
  unfold table at h
  split at h
  · cases h
  · rename_i rules m hnfa
    exact ⟨rules, m, hnfa, h⟩

/-- In the table of the two rules the state `1`, for `b`, and the state `3`, for `a` and the end of
the line, have one accept string and no transitions, but different anchors. -/
lemma table_sharedAction : ∃ ds d, table tokens true 30 sharedAction = some (ds, d) ∧
    d.nstates = 4 ∧ d.run [97, 10] = .ok 3 ∧ d.accept 0 = ⟨none, 0⟩ ∧ d.accept 1 = ⟨some 1, 0⟩ ∧
    d.accept 3 = ⟨some 1, 2⟩ ∧ ∀ c, d.dtran 1 c = fail ∧ d.dtran 3 c = fail := by
  have h : (table tokens true 30 sharedAction).map (fun p => (p.2.nstates, p.2.run [97, 10],
      p.2.accept 0, p.2.accept 1, p.2.accept 3,
      decide (∀ c, p.2.dtran 1 c = fail ∧ p.2.dtran 3 c = fail))) =
      some (4, .ok 3, ⟨none, 0⟩, ⟨some 1, 0⟩, ⟨some 1, 2⟩, true) := by
    decide +kernel
  obtain ⟨⟨ds, d⟩, hd, he⟩ := Option.map_eq_some_iff.mp h
  simp only [Prod.mk.injEq, decide_eq_true_eq] at he
  exact ⟨ds, d, hd, he⟩

/-- The anchors of the two rules survive the minimization exactly when no equivalent states differ
in them. -/
theorem anchors_survive_iff_sharedAction :
    ∃ ds d, table tokens true 30 sharedAction = some (ds, d) ∧ ∃ d' :
      Dfa, minimize d = some (d'.dtran, d'.accept, d'.nstates) ∧
      (AnchorsSurvive ds d d' ↔ ∀ s t, s < t → t < d.nstates → d.Equivalent s t →
        (d.accept s).string ≠ none → (d.accept s).anchor ≠ (d.accept t).anchor →
        Separated d s t) := by
  obtain ⟨ds, d, htable, -⟩ := table_sharedAction
  obtain ⟨rules, m, -, hdfa⟩ := table_spec htable
  exact ⟨ds, d, htable, anchors_survive_iff hdfa⟩

/-- The minimized table of the two rules loses the anchor of the first rule. -/
theorem not_anchorsSurvive_sharedAction : ∃ ds d, table tokens true 30 sharedAction = some (ds, d) ∧
    ¬ ∃ d' : Dfa, minimize d = some (d'.dtran, d'.accept, d'.nstates) ∧ AnchorsSurvive ds d d' := by
  obtain ⟨ds, d, htable, hn, hrun, h0, h1, h3, hfail⟩ := table_sharedAction
  obtain ⟨rules, m, -, hdfa⟩ := table_spec htable
  refine ⟨ds, d, htable, ?_⟩
  rintro ⟨d', hd', hsurvive⟩
  obtain ⟨st, hgroups, hpart, hstable⟩ := exists_minGroups d
  rw [minimize_eq hgroups hpart hd'] at hsurvive
  have hsep : ¬ Separated d 1 3 := by
    apply not_separated_of_row (by decide)
    · funext c
      rw [(hfail c).1, (hfail c).2]
    · intro q hq
      rw [Nat.lt_one_iff.mp hq, h0, h1]
      decide
  have hin : st.ingroup 1 = st.ingroup 3 := by
    by_contra hne
    exact hsep ((ingroup_ne_iff hgroups (by omega) (by decide) (by rw [h1, h3])).mp hne)
  have hanchor :=
    (anchorsSurvive_fixDtran_iff hdfa hpart hstable).mp hsurvive 1 3 (by decide) (by omega)
    hin (by rw [h1]; decide)
  rw [h1, h3] at hanchor
  cases hanchor

end Lex
