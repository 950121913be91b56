import Cgkits.Lex.Terp
import Cgkits.Lib.Loop

/-!
# Subset construction (`dfa.c`)

`makeTrans` turns the machine into a DFA whose states stand for sets of states of the machine.  The
states are expanded in the order in which they were made: `move` and `eClosure` give the set reached
on each character, and the set is looked up among the states made so far before a new one is added.

A DFA state is kept together with what `eClosure` recorded for it (`DState.Ok`), and the rows that
are finished lead to the right sets (`Row.Ok`).  Both survive the addition of states, so at the end
the state that a string leads to stands for the states of the machine that the string leads to
(`run_makeTrans`).
-/

namespace Lex

/-- `DFA_STATE`.  A state is marked when its number is below that of the current one. -/
structure DState where
  /-- The set of states of the machine that the state stands for. -/
  set : Finset ℕ
  /-- The accept string of the lowest accepting state. -/
  accept : Option ℕ
  /-- The anchor that belongs to the accept string. -/
  anchor : ℕ

/-- What `make_trans` has computed: `_dstates`, the variable `anchor` and the row of the current
state. -/
structure Trans where
  /-- `_dstates`, the states of the machine made so far. -/
  dstates : List DState
  /-- The variable that `e_closure` leaves the anchor in. -/
  anchor : ℕ
  /-- The row of the current state. -/
  row : Row

/-- `in_dstates`, the number of the state with the given set, if there is one. -/
def inDstates (dstates : List DState) (nfaSet : Finset ℕ) : Option ℕ :=
  dstates.findIdx? fun d => d.set = nfaSet

/-- `make_trans` for one character: the entry of the row, and a new state if there is none for the
set. There is no result when there are too many states. -/
def transOn (m : Nfa) (current : Finset ℕ) (st : Trans) (c : Fin maxChars) : Option Trans :=
  match move m current c with
  | none => some { st with row := Function.update st.row c fail }
  | some nfaSet => do
    let r ← eClosure m nfaSet st.anchor
    match inDstates st.dstates r.set with
    | some nextstate => some ⟨st.dstates, r.anchor, Function.update st.row c nextstate⟩
    | none =>
      if dfaMax - 1 < st.dstates.length then none
      else some ⟨st.dstates ++ [⟨r.set, r.accept, r.anchor⟩], r.anchor,
        Function.update st.row c st.dstates.length⟩

/-- The outer loop of `make_trans` from the state `current` on. -/
def transLoop (m : Nfa) : ℕ → ℕ → List DState → ℕ → (ℕ → Row) → Option (List DState × (ℕ → Row))
  | 0, _, _, _, _ => none
  | n + 1, current, dstates, anchor, dtran =>
    match dstates[current]? with
    | none => some (dstates, dtran)
    | some d => do
      let st ← (List.finRange maxChars).reverse.foldlM (transOn m d.set)
        ⟨dstates, anchor, dtran current⟩
      transLoop m n (current + 1) st.dstates st.anchor (Function.update dtran current st.row)

/-- `make_trans`: the DFA states and the table; `anchor` is the initial value of its variable. -/
def makeTrans (m : Nfa) (anchor : ℕ) : Option (List DState × (ℕ → Row)) := do
  let r ← eClosure m {m.start} 0
  transLoop m (dfaMax + 1) 0 [⟨r.set, r.accept, r.anchor⟩] anchor fun _ _ => fail

/-! ## One character -/

variable {m : Nfa}

/-- A DFA state stands for a closed set of states, with what `e_closure` records for it. -/
structure DState.Ok (m : Nfa) (d : DState) : Prop where
  /-- The set contains states of the machine. -/
  lt : ∀ i ∈ d.set, i < m.nstates
  /-- The set of the state is closed under empty edges. -/
  closed : Closed m d.set
  /-- The accept string and the anchor are those of the lowest accepting state. -/
  records : Records m d.set d.accept d.anchor

/-- The entry `x` for the character `c` of a state that stands for `S`: failure when no state of the
set reads the character, else the number of the state that stands for the set reached. -/
def EntryOk (m : Nfa) (dstates : List DState) (S : Finset ℕ) (c : Fin maxChars) (x : ℤ) : Prop :=
  (x = fail ∧ ∀ i ∈ S, (m.node i).reads c = true → ∀ j, (m.node i).next ≠ some j) ∨
    ∃ t d, x = (t : ℕ) ∧ dstates[t]? = some d ∧
      ∀ k, k ∈ d.set ↔ ∃ i ∈ S, (m.node i).reads c = true ∧
        ∃ j, (m.node i).next = some j ∧ Path m j [] k

/-- An entry of the table stays right when states are added behind the others. -/
lemma EntryOk.mono {ds ds' : List DState} {S : Finset ℕ} {c : Fin maxChars} {x : ℤ}
    (h : EntryOk m ds S c x) (hds : ds <+: ds') : EntryOk m ds' S c x := by
  rcases h with h | ⟨t, d, hx, hd, hset⟩
  · exact Or.inl h
  · obtain ⟨l, rfl⟩ := hds
    refine Or.inr ⟨t, d, hx, ?_, hset⟩
    rw [List.getElem?_append_left (List.getElem?_eq_some_iff.mp hd).1]
    exact hd

/-- The states made so far: all are right, and no two stand for one set. -/
structure DstatesOk (m : Nfa) (ds : List DState) : Prop where
  /-- Every state of the table is right. -/
  ok : ∀ d ∈ ds, d.Ok m
  /-- No two states stand for one set. -/
  nodup : (ds.map DState.set).Nodup

/-- What one character does: states are added at the end, and only its entry of the row changes. -/
lemma transOn_spec {S : Finset ℕ} {st st' : Trans} {c : Fin maxChars}
    (hS : ∀ i ∈ S, i < m.nstates) (hst : DstatesOk m st.dstates)
    (h : transOn m S st c = some st') :
    DstatesOk m st'.dstates ∧ st.dstates <+: st'.dstates ∧
      ∃ x, st'.row = Function.update st.row c x ∧ EntryOk m st'.dstates S c x := by
  unfold transOn at h
  split at h
  · rename_i hmove
    cases h
    refine ⟨hst, List.prefix_rfl, fail, rfl, Or.inl ⟨rfl, ?_⟩⟩
    intro i hi hr j
    exact move_eq_none hmove hi (hS i hi) hr
  · rename_i T hmove
    have hT : ∀ i ∈ T, i < m.nstates := by
      intro j hj
      obtain ⟨i, -, hlt, -, hn⟩ := (mem_move hmove j).mp hj
      exact m.next_lt i hlt j hn
    obtain ⟨r, hr, hset, hclosed, hrec⟩ := eClosure_spec hT st.anchor
    -- the set of the closure in terms of the current set
    have hset' : ∀ k, k ∈ r.set ↔ ∃ i ∈ S, (m.node i).reads c = true ∧
        ∃ j, (m.node i).next = some j ∧ Path m j [] k := by
      intro k
      rw [hset]
      constructor
      · rintro ⟨j, hj, hpath⟩
        obtain ⟨i, hi, -, hread, hn⟩ := (mem_move hmove j).mp hj
        exact ⟨i, hi, hread, j, hn, hpath⟩
      · rintro ⟨i, hi, hread, j, hn, hpath⟩
        exact ⟨j, (mem_move hmove j).mpr ⟨i, hi, hS i hi, hread, hn⟩, hpath⟩
    rw [hr, Option.bind_eq_bind, Option.bind_some] at h
    split at h
    · rename_i t ht
      cases h
      obtain ⟨hlt, he, -⟩ := List.findIdx?_eq_some_iff_getElem.mp ht
      refine ⟨hst, List.prefix_rfl, t, rfl, Or.inr ⟨t, st.dstates[t], rfl, ?_, ?_⟩⟩
      · exact List.getElem?_eq_getElem hlt
      · rw [of_decide_eq_true he]
        exact hset'
    · rename_i hnone
      split at h
      · cases h
      · cases h
        refine ⟨⟨?_, ?_⟩, List.prefix_append _ _, st.dstates.length, rfl,
          Or.inr ⟨st.dstates.length, ⟨r.set, r.accept, r.anchor⟩, rfl, by simp, hset'⟩⟩
        · intro d hd
          cases List.mem_append.mp hd with
          | inl hd => exact hst.ok d hd
          | inr hd =>
            rw [List.mem_singleton.mp hd]
            refine ⟨?_, hclosed, hrec⟩
            intro k hk
            obtain ⟨j, hj, hpath⟩ := (hset k).mp hk
            exact hpath.lt (hT j hj)
        · rw [List.map_append, List.nodup_append]
          refine ⟨hst.nodup, List.nodup_singleton _, ?_⟩
          intro a ha b hb
          obtain ⟨d, hd, rfl⟩ := List.mem_map.mp ha
          rw [List.map_singleton, List.mem_singleton] at hb
          rw [hb]
          intro he
          exact of_decide_eq_false (List.findIdx?_eq_none_iff.mp hnone d hd) he

/-- The row of a state: every character has been visited. -/
lemma foldlM_transOn_spec {S : Finset ℕ} (hS : ∀ i ∈ S, i < m.nstates) {cs : List (Fin maxChars)}
    {st st' : Trans} (hst : DstatesOk m st.dstates) (h : cs.foldlM (transOn m S) st = some st') :
    DstatesOk m st'.dstates ∧ st.dstates <+: st'.dstates ∧
      ∀ c, (c ∈ cs ∨ EntryOk m st.dstates S c (st.row c)) →
        EntryOk m st'.dstates S c (st'.row c) := by
  induction cs generalizing st with
  | nil =>
    cases h
    refine ⟨hst, List.prefix_rfl, ?_⟩
    rintro c (hc | hc)
    · cases hc
    · exact hc
  | cons c cs ih =>
    rw [List.foldlM_cons, Option.bind_eq_bind, Option.bind_eq_some_iff] at h
    obtain ⟨st₁, h₁, h⟩ := h
    obtain ⟨hok, hpre, x, hrow, hx⟩ := transOn_spec hS hst h₁
    obtain ⟨hok', hpre', hall⟩ := ih hok h
    refine ⟨hok', hpre.trans hpre', ?_⟩
    intro c' hc'
    apply hall
    by_cases he : c' = c
    · subst he
      rw [hrow, Function.update_self]
      exact Or.inr hx
    · rw [hrow, Function.update_of_ne he]
      rcases hc' with hc' | hc'
      · exact Or.inl ((List.mem_cons.mp hc').resolve_left he)
      · exact Or.inr (hc'.mono hpre)

/-! ## The table -/

/-- The rows of the states below `current` are finished. -/
def RowsOk (m : Nfa) (ds : List DState) (dtran : ℕ → Row) (current : ℕ) : Prop :=
  ∀ t < current, ∀ d, ds[t]? = some d → ∀ c, EntryOk m ds d.set c (dtran t c)

/-- The loop of `make_trans` ends with all rows finished. -/
lemma transLoop_spec {n current anchor : ℕ} {ds ds' : List DState} {dtran dtran' : ℕ → Row}
    (hds : DstatesOk m ds) (hle : current ≤ ds.length) (hrows : RowsOk m ds dtran current)
    (h : transLoop m n current ds anchor dtran = some (ds', dtran')) :
    DstatesOk m ds' ∧ ds <+: ds' ∧ RowsOk m ds' dtran' ds'.length := by
  induction n generalizing current ds anchor dtran with
  | zero => cases h
  | succ n ih =>
    unfold transLoop at h
    split at h
    · rename_i hnone
      cases h
      have hlen := List.getElem?_eq_none_iff.mp hnone
      rw [Nat.le_antisymm hle hlen] at hrows
      exact ⟨hds, List.prefix_rfl, hrows⟩
    · rename_i d hd
      rw [Option.bind_eq_bind, Option.bind_eq_some_iff] at h
      obtain ⟨st, hst, h⟩ := h
      obtain ⟨hlt, hget⟩ := List.getElem?_eq_some_iff.mp hd
      have hdok := hds.ok d (List.mem_of_getElem? hd)
      obtain ⟨hok, hpre, hrow⟩ := foldlM_transOn_spec hdok.lt hds hst
      have hlen := hpre.length_le
      dsimp only at hlen
      have hget : st.dstates[current]? = some d := by
        obtain ⟨l, hl⟩ := hpre
        rw [← hl, List.getElem?_append_left hlt]
        exact hd
      have hrows₁ : RowsOk m st.dstates (Function.update dtran current st.row) (current + 1) := by
        intro t ht d' hd' c
        by_cases he : t = current
        · subst he
          rw [hget, Option.some.injEq] at hd'
          subst hd'
          rw [Function.update_self]
          apply hrow
          exact Or.inl (by simp)
        · rw [Function.update_of_ne he]
          have htlt : t < current := by omega
          have hd₀ : ds[t]? = some d' := by
            obtain ⟨l, hl⟩ := hpre
            rw [← hl, List.getElem?_append_left (htlt.trans hlt)] at hd'
            exact hd'
          exact (hrows t htlt d' hd₀ c).mono hpre
      obtain ⟨hok', hpre', hrows'⟩ := ih hok (by omega) hrows₁ h
      exact ⟨hok', hpre.trans hpre', hrows'⟩

/-- What `make_trans` computes: the first state stands for the states reached without reading, and
every row is finished. -/
theorem makeTrans_spec {anchor : ℕ} {ds : List DState} {dtran : ℕ → Row}
    (h : makeTrans m anchor = some (ds, dtran)) :
    DstatesOk m ds ∧ RowsOk m ds dtran ds.length ∧
      ∃ d, ds[0]? = some d ∧ ∀ k, k ∈ d.set ↔ Path m m.start [] k := by
  have hS : ∀ i ∈ ({m.start} : Finset ℕ), i < m.nstates := by
    intro i hi
    rw [Finset.mem_singleton.mp hi]
    exact m.start_lt
  obtain ⟨r, hr, hset, hclosed, hrec⟩ := eClosure_spec hS 0
  unfold makeTrans at h
  rw [hr, Option.bind_eq_bind, Option.bind_some] at h
  have hset' : ∀ k, k ∈ r.set ↔ Path m m.start [] k := by
    intro k
    rw [hset]
    simp
  have hok : DstatesOk m [⟨r.set, r.accept, r.anchor⟩] := by
    refine ⟨?_, List.nodup_singleton _⟩
    intro d hd
    rw [List.mem_singleton.mp hd]
    exact ⟨fun k hk => ((hset' k).mp hk).lt m.start_lt, hclosed, hrec⟩
  obtain ⟨hok', ⟨l, hl⟩, hrows⟩ := transLoop_spec hok (Nat.zero_le _)
    (fun t ht => absurd ht (Nat.not_lt_zero t)) h
  refine ⟨hok', hrows, ⟨r.set, r.accept, r.anchor⟩, ?_, hset'⟩
  rw [← hl]
  rfl

/-- The state that a string leads to stands for the states of the machine that it leads to, and the
table fails when it leads to none. -/
lemma runFrom_rows {ds : List DState} {dtran : ℕ → Row} (hds : DstatesOk m ds)
    (hrows : RowsOk m ds dtran ds.length) {s i : ℕ} {d : DState} (hd : ds[s]? = some d)
    (w : List (Fin maxChars)) :
    ((∃ j, runFrom dtran s i w = .error j) ∧ ∀ a ∈ d.set, ∀ k, ¬ Path m a w k) ∨
      ∃ t d', runFrom dtran s i w = .ok t ∧ ds[t]? = some d' ∧
        ∀ k, k ∈ d'.set ↔ ∃ a ∈ d.set, Path m a w k := by
  induction w generalizing s i d with
  | nil =>
    refine Or.inr ⟨s, d, rfl, hd, ?_⟩
    intro k
    constructor
    · intro hk
      exact ⟨k, hk, .refl k⟩
    · rintro ⟨a, ha, hpath⟩
      exact (hds.ok d (List.mem_of_getElem? hd)).closed.mem hpath rfl ha
  | cons c w ih =>
    have hclosed := (hds.ok d (List.mem_of_getElem? hd)).closed
    rcases hrows s (List.getElem?_eq_some_iff.mp hd).1 d hd c with
      ⟨hfail, hno⟩ | ⟨t, d', ht, hd', hset⟩
    · refine Or.inl ⟨⟨i, runFrom_cons_fail hfail⟩, ?_⟩
      intro a ha k hpath
      obtain ⟨a', ha', hr, j, hn, -⟩ := hclosed.read hpath rfl ha
      exact hno a' ha' hr j hn
    · rw [runFrom_cons ht]
      -- a path on the whole string is a path from the state reached on the first character
      have hstep : ∀ k, (∃ a ∈ d'.set, Path m a w k) ↔ ∃ a ∈ d.set, Path m a (c :: w) k := by
        intro k
        constructor
        · rintro ⟨a, ha, hpath⟩
          obtain ⟨b, hb, hr, j, hn, hja⟩ := (hset a).mp ha
          exact ⟨b, hb, .read hr hn (hja.trans hpath)⟩
        · rintro ⟨a, ha, hpath⟩
          obtain ⟨b, hb, hr, j, hn, hjk⟩ := hclosed.read hpath rfl ha
          exact ⟨j, (hset j).mpr ⟨b, hb, hr, j, hn, .refl j⟩, hjk⟩
      rcases ih (s := t) (i := i + 1) hd' with ⟨herr, hno⟩ | ⟨t', d'', hrun, hget, hset'⟩
      · refine Or.inl ⟨herr, ?_⟩
        intro a ha k hpath
        obtain ⟨b, hb, hbk⟩ := (hstep k).mpr ⟨a, ha, hpath⟩
        exact hno b hb k hbk
      · refine Or.inr ⟨t', d'', hrun, hget, ?_⟩
        intro k
        rw [hset', hstep]

/-- Running the table that `make_trans` builds leads to the set of states that the string reaches in
the machine. -/
theorem runFrom_makeTrans {anchor : ℕ} {ds : List DState} {dtran : ℕ → Row}
    (h : makeTrans m anchor = some (ds, dtran)) (w : List (Fin maxChars)) :
    ((∃ i, runFrom dtran 0 0 w = .error i) ∧ ∀ k, ¬ Path m m.start w k) ∨
      ∃ t d, runFrom dtran 0 0 w = .ok t ∧ ds[t]? = some d ∧ d.Ok m ∧
        ∀ k, k ∈ d.set ↔ Path m m.start w k := by
  obtain ⟨hds, hrows, d, hd, hset⟩ := makeTrans_spec h
  -- a path from the start state is a path from the closure of the start state
  have hstart : ∀ k, (∃ a ∈ d.set, Path m a w k) ↔ Path m m.start w k := by
    intro k
    constructor
    · rintro ⟨a, ha, hpath⟩
      exact ((hset a).mp ha).trans hpath
    · intro hpath
      exact ⟨m.start, (hset _).mpr (.refl _), hpath⟩
  rcases runFrom_rows hds hrows (i := 0) hd w with ⟨herr, hno⟩ | ⟨t, d', hrun, hget, hset'⟩
  · refine Or.inl ⟨herr, ?_⟩
    intro k hpath
    obtain ⟨a, ha, hak⟩ := (hstart k).mpr hpath
    exact hno a ha k hak
  · refine Or.inr ⟨t, d', hrun, hget, hds.ok d' (List.mem_of_getElem? hget), ?_⟩
    intro k
    rw [hset', hstart]

/-- A step of `make_trans` adds states for nonempty sets only. -/
lemma transOn_nonempty {S : Finset ℕ} {st st' : Trans} {c : Fin maxChars}
    (hst : ∀ d ∈ st.dstates, d.set.Nonempty)
    (h : transOn m S st c = some st') : ∀ d ∈ st'.dstates, d.set.Nonempty := by
  unfold transOn at h
  split at h
  · cases h
    exact hst
  · rename_i T hmove
    have hT : ∀ i ∈ T, i < m.nstates := by
      intro j hj
      obtain ⟨i, -, hlt, -, hn⟩ := (mem_move hmove j).mp hj
      exact m.next_lt i hlt j hn
    obtain ⟨r, hr, hset, -, -⟩ := eClosure_spec hT st.anchor
    have hne : r.set.Nonempty := by
      obtain ⟨j, hj⟩ := move_nonempty hmove
      exact ⟨j, (hset j).mpr ⟨j, hj, .refl j⟩⟩
    rw [hr, Option.bind_eq_bind, Option.bind_some] at h
    split at h
    · cases h
      exact hst
    · split at h
      · cases h
      · cases h
        intro d hd
        cases List.mem_append.mp hd with
        | inl hd => exact hst d hd
        | inr hd =>
          rw [List.mem_singleton.mp hd]
          exact hne

/-- The loop over the characters adds states for nonempty sets only. -/
lemma foldlM_transOn_nonempty {S : Finset ℕ} {cs : List (Fin maxChars)} {st st' : Trans}
    (hst : ∀ d ∈ st.dstates, d.set.Nonempty)
    (h : cs.foldlM (transOn m S) st = some st') : ∀ d ∈ st'.dstates, d.set.Nonempty :=
  Loop.foldlM_invariant (I := fun st => ∀ d ∈ st.dstates, d.set.Nonempty)
    (fun _ _ _ _ hst hstep => transOn_nonempty hst hstep) hst h

/-- The loop of `make_trans` adds states for nonempty sets only. -/
lemma transLoop_nonempty {n current anchor : ℕ} {ds ds' : List DState} {dtran dtran' : ℕ → Row}
    (hok : DstatesOk m ds) (hds : ∀ d ∈ ds, d.set.Nonempty)
    (h : transLoop m n current ds anchor dtran = some (ds', dtran')) :
    ∀ d ∈ ds', d.set.Nonempty := by
  induction n generalizing current ds anchor dtran with
  | zero => cases h
  | succ n ih =>
    unfold transLoop at h
    split at h
    · cases h
      exact hds
    · rename_i d hd
      rw [Option.bind_eq_bind, Option.bind_eq_some_iff] at h
      obtain ⟨st, hst, h⟩ := h
      have hS := (hok.ok d (List.mem_of_getElem? hd)).lt
      exact ih (foldlM_transOn_spec hS hok hst).1 (foldlM_transOn_nonempty hds hst) h

/-- No state of the table stands for the empty set of states. -/
lemma makeTrans_nonempty {anchor : ℕ} {ds : List DState} {dtran : ℕ → Row}
    (h : makeTrans m anchor = some (ds, dtran)) : ∀ d ∈ ds, d.set.Nonempty := by
  have hS : ∀ i ∈ ({m.start} : Finset ℕ), i < m.nstates := by
    intro i hi
    rw [Finset.mem_singleton.mp hi]
    exact m.start_lt
  obtain ⟨r, hr, hset, hclosed, hrec⟩ := eClosure_spec hS 0
  unfold makeTrans at h
  rw [hr, Option.bind_eq_bind, Option.bind_some] at h
  have hok : DstatesOk m [⟨r.set, r.accept, r.anchor⟩] := by
    refine ⟨?_, List.nodup_singleton _⟩
    intro d hd
    rw [List.mem_singleton.mp hd]
    refine ⟨?_, hclosed, hrec⟩
    intro k hk
    obtain ⟨i, hi, hpath⟩ := (hset k).mp hk
    exact hpath.lt (hS i hi)
  apply transLoop_nonempty hok _ h
  intro d hd
  rw [List.mem_singleton.mp hd]
  exact ⟨m.start, (hset _).mpr ⟨m.start, Finset.mem_singleton_self _, .refl _⟩⟩

/-- The subset construction, when it fits into the table: for every string the table fails exactly
when no state of the machine is reached, and otherwise leads to the state for the set of states
reached, with the accept string of the lowest accepting state in it.  No two states stand for one
set. -/
theorem makeTrans_correct (m : Nfa) {anchor : ℕ} {ds : List DState} {dtran : ℕ → Row}
    (h : makeTrans m anchor = some (ds, dtran)) :
    (∀ w, ((∃ i, runFrom dtran 0 0 w = .error i) ↔ ∀ k, ¬ Path m m.start w k) ∧
      ∀ t, runFrom dtran 0 0 w = .ok t → ∃ d, ds[t]? = some d ∧
        (∀ k, k ∈ d.set ↔ Path m m.start w k) ∧ Records m d.set d.accept d.anchor) ∧
      (ds.map DState.set).Nodup := by
  refine ⟨?_, (makeTrans_spec h).1.nodup⟩
  intro w
  rcases runFrom_makeTrans h w with ⟨⟨i, herr⟩, hno⟩ | ⟨t, d, hrun, hget, hok, hset⟩
  · refine ⟨⟨fun _ => hno, fun _ => ⟨i, herr⟩⟩, ?_⟩
    intro t ht
    rw [herr] at ht
    cases ht
  · have hpath : ∃ k, Path m m.start w k := by
      obtain ⟨k, hk⟩ := makeTrans_nonempty h d (List.mem_of_getElem? hget)
      exact ⟨k, (hset k).mp hk⟩
    constructor
    · constructor
      · rintro ⟨i, herr⟩
        rw [hrun] at herr
        cases herr
      · intro hno
        obtain ⟨k, hk⟩ := hpath
        exact absurd hk (hno k)
    · intro t' ht'
      rw [hrun] at ht'
      cases ht'
      exact ⟨d, hget, hset, hok.records⟩

/-- The machine of the rule `a`: the start state reads `a` and leads to the accepting state. -/
def letterNfa : Nfa where
  node i := if i = 0 then ⟨97, ⟨∅, false⟩, some 1, none, none, 0⟩ else
    ⟨empty, ⟨∅, false⟩, none, none, some 0, 0⟩
  nstates := 2
  start := 0
  le := by decide
  start_lt := by decide
  next_lt := by decide
  next2_lt := by decide

/-- The table for `letterNfa` is made, and running it is following the paths of the machine. -/
theorem makeTrans_correct_letterNfa : ∃ ds dtran, makeTrans letterNfa 0 = some (ds, dtran) ∧
    (∀ w, ((∃ i, runFrom dtran 0 0 w = .error i) ↔ ∀ k, ¬ Path letterNfa letterNfa.start w k) ∧
      ∀ t, runFrom dtran 0 0 w = .ok t → ∃ d, ds[t]? = some d ∧
        (∀ k, k ∈ d.set ↔ Path letterNfa letterNfa.start w k) ∧
        Records letterNfa d.set d.accept d.anchor) ∧
      (ds.map DState.set).Nodup := by
  have hsome : (makeTrans letterNfa 0).isSome = true := by decide +kernel
  obtain ⟨⟨ds, dtran⟩, h⟩ := Option.isSome_iff_exists.mp hsome
  exact ⟨ds, dtran, h, makeTrans_correct letterNfa h⟩

end Lex
