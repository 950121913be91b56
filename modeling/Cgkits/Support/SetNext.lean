import Cgkits.Support.Set

/-!
# Iteration over a set (`set_next_member`)

`set_next_member` keeps the set of the last call and a cursor in static variables.  The first call
for a set moves the cursor over the zero words at the beginning of the map, the others go on from
where the last one has stopped.  A client may take elements that it has been given out of the set,
and change other sets, between two calls.

The cursor is moved over zero words before it is known whether the set is complemented, and a word
is read before the end of the map is tested.  `setNextMember_enumerates_iff` says which sets this
does no harm to.
-/

namespace Support

open BitMap

variable {σ : Sets} {s : SetS} {i : ℕ}

/-! ## The function -/

/-- `SET_TEST`: the number is a member, or it is none and the set is complemented. -/
def setTEST (s : SetS) (x : ℕ) : Option Bool :=
  (setMEMBER s x).map fun member => if member then s.compl == 0 else s.compl != 0

/-- `SET_COMPLEMENT`: negate the flag that marks a complemented set. -/
def setCOMPLEMENT (s : SetS) : SetS := { s with compl := 2 ^ 32 - 1 - s.compl }

/-- The static variables of `set_next_member`, which it keeps from call to call. -/
structure Iteration where
  /-- `lastSet`, the set of the last call. -/
  lastSet : Option ℕ
  /-- `current_member`, where the search goes on. -/
  currentMember : ℕ

/-- The loop over zero words, with the words from `map` on. -/
def skipZeros (nbits : ℕ) : List SetType → ℕ → Option ℕ
  | [], _ => none
  | a :: map, cur =>
    if a = 0#32 ∧ cur < nbits then skipZeros nbits map (cur + bitsInWord) else some cur

/-- The loop that looks for a member: `n` numbers are left.  The last comparison moves the cursor,
too. -/
def searchMember (s : SetS) : ℕ → ℕ → Option (ℤ × ℕ)
  | 0, cur => some (-1, cur + 1)
  | n + 1, cur => do
    if ← setTEST s cur then some (cur, cur + 1) else searchMember s n (cur + 1)

/-- `set_next_member`: the next member of the set of the last call, or the first one of another
set. -/
def setNextMember (set : Option ℕ) (σ : Sets) (it : Iteration) : Option (ℤ × Iteration) :=
  match set with
  | none => some (0, { it with lastSet := none })
  | some i => do
    let s ← σ[i]?
    let cur ← (if some i ≠ it.lastSet then skipZeros s.nbits s.map 0 else some it.currentMember)
    let (v, cur) ← searchMember s (s.nbits - cur) cur
    some (v, ⟨some i, cur⟩)

/-! ## A client -/

/-- Calls of `set_next_member` for the set `i`, with the calls that the client makes before each of
them: the values that are returned. -/
def session (i : ℕ) : List (List SetCall) → Sets → Iteration → Option (List ℤ)
  | [], _, _ => some []
  | calls :: rest, σ, it => do
    let σ ← calls.foldlM SetCall.exec σ
    let (v, it) ← setNextMember (some i) σ it
    let vs ← session i rest σ it
    some (v :: vs)

/-- The numbers below `nbits` for which `SET_TEST` holds. -/
def SetS.members (s : SetS) : List ℕ :=
  (List.range s.nbits).filter fun x => setTEST s x == some true

/-- The values of `n` calls: the members, and `-1` when there are no more. -/
def returns (members : List ℕ) (n : ℕ) : List ℤ :=
  (List.range n).map fun k : ℕ => ((members[k]?).map fun x : ℕ => (x : ℤ)).getD (-1)

/-- The call leaves the set `i` alone, or takes one of the elements `returned` out of it. -/
def LeavesAlone (i : ℕ) (returned : List ℕ) (c : SetCall) : Prop :=
  c.target = some i → ∃ x, c = .remove i x ∧ x.val ∈ returned

/-- `set_next_member` enumerates the set `i`, whatever the static variables have been, and whatever
the client does to other sets and to the elements that have been returned. -/
def Enumerates (i : ℕ) (s : SetS) (σ : Sets) : Prop :=
  ∀ (it : Iteration) (calls : List (List SetCall)) (as : List (Finset ℕ)),
    calls.flatten.foldlM SetCall.denote (σ.map SetS.toFinset) = some as →
    (∀ n cs, calls[n]? = some cs → ∀ c ∈ cs, LeavesAlone i (s.members.take n) c) →
    ∃ it', setNextMember none σ it = some (0, it') ∧
      session i calls σ it' = some (returns s.members calls.length)

/-! ## Members -/

/-- `SET_TEST` tells whether a number is in the set or in its complement, by the flag. -/
lemma setTEST_spec (hs : s.Ok) (x : ℕ) :
    setTEST s x = some (decide (x ∈ s.toFinset ↔ s.compl = 0)) := by
  unfold setTEST
  rw [setMEMBER_spec hs, Option.map_some]
  by_cases hx : x ∈ s.toFinset <;> by_cases hc : s.compl = 0 <;> simp [hx, hc]

/-- `SET_TEST` comes out as true exactly for members, or for the others when the set is
complemented. -/
lemma setTEST_beq (hs : s.Ok) (x : ℕ) :
    (setTEST s x == some true) = decide (x ∈ s.toFinset ↔ s.compl = 0) := by
  rw [setTEST_spec hs]
  cases decide (x ∈ s.toFinset ↔ s.compl = 0) <;> decide

/-- The numbers from `cur` on for which `SET_TEST` holds. -/
def SetS.membersFrom (s : SetS) (cur : ℕ) : List ℕ :=
  (List.range' cur (s.nbits - cur)).filter fun x => setTEST s x == some true

/-- The members of a set are those from zero on. -/
lemma members_eq (s : SetS) : s.members = s.membersFrom 0 := by
  unfold SetS.members SetS.membersFrom
  rw [Nat.sub_zero, List.range_eq_range']

/-- The members from `cur` on are `cur`, if it is one, and those behind it. -/
lemma membersFrom_eq (s : SetS) {cur : ℕ} (h : cur < s.nbits) : s.membersFrom cur =
    if setTEST s cur == some true then cur :: s.membersFrom (cur + 1) else
      s.membersFrom (cur + 1) := by
  unfold SetS.membersFrom
  obtain ⟨n, hn⟩ : ∃ n, s.nbits - cur = n + 1 := ⟨s.nbits - cur - 1, by omega⟩
  have hrest : s.nbits - (cur + 1) = n := by omega
  rw [hn, hrest, List.range'_succ, List.filter_cons]

/-- From the end of the map on there is no member. -/
lemma membersFrom_of_le (s : SetS) {cur : ℕ} (h : s.nbits ≤ cur) : s.membersFrom cur = [] := by
  unfold SetS.membersFrom
  rw [Nat.sub_eq_zero_of_le h]
  rfl

/-- Numbers that are no members may be passed over in the enumeration. -/
lemma membersFrom_add (hs : s.Ok) (cur n : ℕ) (h : ∀ x, cur ≤ x → x < cur + n →
    ¬ (x ∈ s.toFinset ↔ s.compl = 0)) : s.membersFrom cur = s.membersFrom (cur + n) := by
  induction n with
  | zero => rfl
  | succ n ih =>
    rw [ih fun x hx hlt => h x hx (by omega)]
    by_cases hlt : cur + n < s.nbits
    · rw [membersFrom_eq s hlt, setTEST_beq hs, if_neg fun hmem => h (cur + n) (by omega) (by omega)
        (of_decide_eq_true hmem)]
      rfl
    · rw [membersFrom_of_le s (by omega), membersFrom_of_le s (by omega)]

/-- The members from `cur` on are those of a set that differs from this one below `cur` only. -/
lemma membersFrom_congr {s' : SetS} (hs : s.Ok) (hs' : s'.Ok) {cur : ℕ}
    (hnbits : s'.nbits = s.nbits) (hcompl : s'.compl = s.compl)
    (h : ∀ x, cur ≤ x → (x ∈ s'.toFinset ↔ x ∈ s.toFinset)) :
    s'.membersFrom cur = s.membersFrom cur := by
  unfold SetS.membersFrom
  rw [hnbits]
  refine List.filter_congr fun x hx => ?_
  rw [setTEST_beq hs, setTEST_beq hs', hcompl]
  exact decide_eq_decide.mpr (iff_congr (h x (List.mem_range'_1.mp hx).1) Iff.rfl)

/-! ## One call -/

/-- The search returns the first member from the cursor on. -/
lemma searchMember_spec (hs : s.Ok) (n cur : ℕ) (hn : n = s.nbits - cur) :
    (s.membersFrom cur = [] ∧ ∃ cur', cur ≤ cur' ∧ searchMember s n cur = some (-1, cur') ∧
        s.membersFrom cur' = []) ∨
      ∃ x, cur ≤ x ∧ s.membersFrom cur = x :: s.membersFrom (x + 1) ∧
        searchMember s n cur = some ((x : ℤ), x + 1) := by
  induction n generalizing cur with
  | zero =>
    have hend := membersFrom_of_le s (show s.nbits ≤ cur by omega)
    exact .inl ⟨hend, cur + 1, Nat.le_succ cur, rfl, membersFrom_of_le s (by omega)⟩
  | succ n ih =>
    have hstep : searchMember s (n + 1) cur =
        if setTEST s cur == some true then some ((cur : ℤ), cur + 1) else
          searchMember s n (cur + 1) := by
      rw [searchMember, setTEST_beq hs, setTEST_spec hs]
      by_cases hmem : cur ∈ s.toFinset ↔ s.compl = 0 <;> simp [hmem]
    rw [hstep, membersFrom_eq s (by omega)]
    by_cases hmem : (setTEST s cur == some true) = true
    · rw [if_pos hmem, if_pos hmem]
      exact .inr ⟨cur, le_rfl, rfl, rfl⟩
    · rw [if_neg hmem, if_neg hmem]
      rcases ih (cur + 1) (by omega) with ⟨hnone, cur', hcur', hrun, hrest⟩ | ⟨x, hx, hmem, hrun⟩
      · exact .inl ⟨hnone, cur', by omega, hrun, hrest⟩
      · exact .inr ⟨x, by omega, hmem, hrun⟩

/-- The loop over zero words stops at the first word that is not zero; without one it leaves the
map. -/
lemma skipZeros_spec {nbits : ℕ} (ws : List SetType) (cur : ℕ) (h : cur + ws.length * 32 ≤ nbits) :
    (skipZeros nbits ws cur = none ∧ ∀ k, word ws k = 0#32) ∨
      ∃ k, skipZeros nbits ws cur = some (cur + k * 32) ∧ word ws k ≠ 0#32 ∧
        ∀ l < k, word ws l = 0#32 := by
  induction ws generalizing cur with
  | nil => exact .inl ⟨rfl, fun k => word_of_le (Nat.zero_le k)⟩
  | cons a ws ih =>
    rw [List.length_cons] at h
    by_cases ha : a = 0#32
    · have hstep : skipZeros nbits (a :: ws) cur = skipZeros nbits ws (cur + 32) :=
        if_pos ⟨ha, by omega⟩
      rw [hstep]
      rcases ih (cur + 32) (by omega) with ⟨hrun, hzero⟩ | ⟨k, hrun, hk, hzero⟩
      · refine .inl ⟨hrun, fun k => ?_⟩
        cases k with
        | zero => exact ha
        | succ k => exact hzero k
      · refine .inr ⟨k + 1, ?_, hk, fun l hl => ?_⟩
        · rw [hrun]
          congr 1
          omega
        · cases l with
          | zero => exact ha
          | succ l => exact hzero l (by omega)
    · exact .inr ⟨0, if_neg fun hzero => ha hzero.1, ha, fun l hl => absurd hl (Nat.not_lt_zero l)⟩

/-- A call for a set skips the words of zero if the set is new, and then looks for the next
member. -/
lemma setNextMember_some (hi : σ[i]? = some s) (last : Option ℕ) (cur₀ : ℕ) :
    setNextMember (some i) σ ⟨last, cur₀⟩ =
      (if some i ≠ last then skipZeros s.nbits s.map 0 else some cur₀).bind fun cur =>
        (searchMember s (s.nbits - cur) cur).map fun r => (r.1, ⟨some i, r.2⟩) := by
  change (σ[i]?).bind
      (fun s => (if some i ≠ last then skipZeros s.nbits s.map 0 else some cur₀).bind fun cur =>
    (searchMember s (s.nbits - cur) cur).bind fun r => some (r.1, Iteration.mk (some i) r.2)) = _
  rw [hi, Option.bind_some]
  congr 1
  funext cur
  cases searchMember s (s.nbits - cur) cur <;> rfl

/-- The first call for a set skips the words of zero and then is like every other call. -/
lemma setNextMember_first (hi : σ[i]? = some s) (cur₀ : ℕ) :
    setNextMember (some i) σ ⟨none, cur₀⟩ =
      (skipZeros s.nbits s.map 0).bind fun cur => setNextMember (some i) σ ⟨some i, cur⟩ := by
  rw [setNextMember_some hi, if_pos (Option.some_ne_none i)]
  congr 1
  funext cur
  rw [setNextMember_some hi, if_neg (not_not.mpr rfl), Option.bind_some]

/-- A call that goes on from the cursor returns the next member. -/
lemma setNextMember_again (hi : σ[i]? = some s) (hs : s.Ok) (cur : ℕ) :
    (s.membersFrom cur = [] ∧ ∃ cur', cur ≤ cur' ∧
        setNextMember (some i) σ ⟨some i, cur⟩ = some (-1, ⟨some i, cur'⟩) ∧
        s.membersFrom cur' = []) ∨
      ∃ x, cur ≤ x ∧ s.membersFrom cur = x :: s.membersFrom (x + 1) ∧
        setNextMember (some i) σ ⟨some i, cur⟩ = some ((x : ℤ), ⟨some i, x + 1⟩) := by
  rw [setNextMember_some hi, if_neg (not_not.mpr rfl), Option.bind_some]
  rcases searchMember_spec hs _ cur rfl with ⟨hnone, cur', hle, hsearch, hrest⟩ |
    ⟨x, hx, hmem, hsearch⟩
  · rw [hsearch]
    exact .inl ⟨hnone, cur', hle, rfl, hrest⟩
  · rw [hsearch]
    exact .inr ⟨x, hx, hmem, rfl⟩

/-! ## The calls in between -/

/-- A write to the map keeps the flag of the complement. -/
@[simp] lemma SetS.compl_setMap (s : SetS) (ws : List SetType) : (s.setMap ws).compl = s.compl := by
  unfold SetS.setMap
  rcases s with ⟨_, _, _, _ | _, _⟩ <;> rfl

/-- `SET_REMOVE` changes the map only, and neither its size nor the flag. -/
lemma setREMOVE_frame {x : ℕ} {s' : SetS} (h : setREMOVE s x = some s') :
    s'.nbits = s.nbits ∧ s'.compl = s.compl := by
  unfold setREMOVE setGbit at h
  by_cases hle : s.nbits ≤ x
  · rw [if_pos hle] at h
    cases h
    exact ⟨rfl, rfl⟩
  · rw [if_neg hle] at h
    obtain ⟨a, -, h⟩ := Option.bind_eq_some_iff.mp h
    cases h
    exact ⟨SetS.nbits_setMap s _, SetS.compl_setMap s _⟩

/-- The set is that of before, from the number `cur` on. -/
structure SameFrom (cur : ℕ) (s s' : SetS) : Prop where
  /-- The set is well-formed as before. -/
  ok : s'.Ok
  /-- The number of bits is as before. -/
  nbits : s'.nbits = s.nbits
  /-- The complement is as before. -/
  compl : s'.compl = s.compl
  /-- The members from `cur` on are as before. -/
  mem : ∀ x, cur ≤ x → (x ∈ s'.toFinset ↔ x ∈ s.toFinset)

/-- One of the calls of the client leaves the members that have not been returned. -/
lemma exec_leavesAlone (hσ : ∀ s ∈ σ, s.Ok) (hi : σ[i]? = some s) {c : SetCall}
    {as : List (Finset ℕ)} (h : c.denote (σ.map SetS.toFinset) = some as) {returned : List ℕ}
    (halone : LeavesAlone i returned c) {cur : ℕ} (hcur : ∀ x ∈ returned, x < cur) :
    ∃ σ' s', c.exec σ = some σ' ∧ (∀ s ∈ σ', s.Ok) ∧
      σ'.map SetS.toFinset = as ∧ σ'[i]? = some s' ∧ SameFrom cur s s' := by
  have hs := hσ s (List.mem_of_getElem? hi)
  obtain ⟨hlt, -⟩ := List.getElem?_eq_some_iff.mp hi
  obtain ⟨σ', hrun, hσ', has, hframe⟩ := exec_spec hσ h
  by_cases htarget : c.target = some i
  · obtain ⟨x, rfl, hx⟩ := halone htarget
    obtain ⟨s', hremove, hok, hset⟩ := setREMOVE_spec hs x.val
    have hexec : SetCall.exec σ (.remove i x) = some (σ.set i s') := by
      change update (setREMOVE · x.val) i σ = _
      unfold update
      rw [hi]
      change (setREMOVE s x.val).bind _ = _
      rw [hremove]
      rfl
    obtain rfl : σ.set i s' = σ' := Option.some.inj (hexec.symm.trans hrun)
    obtain ⟨hnbits, hcompl⟩ := setREMOVE_frame hremove
    refine ⟨_, s', hrun, hσ', has, List.getElem?_set_self hlt, hok, hnbits, hcompl, fun y hy => ?_⟩
    have hne : y ≠ x.val := by
      have hlt := hcur x.val hx
      omega
    rw [hset, Finset.mem_erase, and_iff_right hne]
  · exact ⟨σ', s, hrun, hσ', has, (hframe i hlt htarget).trans hi, hs, rfl, rfl, fun _ _ => Iff.rfl⟩

/-- The calls of the client between two calls of `set_next_member`. -/
lemma execAll_leavesAlone {calls : List SetCall} (hσ : ∀ s ∈ σ, s.Ok) (hi : σ[i]? = some s)
    {as : List (Finset ℕ)} (h : calls.foldlM SetCall.denote (σ.map SetS.toFinset) = some as)
    {returned : List ℕ} (halone : ∀ c ∈ calls, LeavesAlone i returned c) {cur : ℕ}
    (hcur : ∀ x ∈ returned, x < cur) : ∃ σ' s', calls.foldlM SetCall.exec σ = some σ' ∧
    (∀ s ∈ σ', s.Ok) ∧ σ'.map SetS.toFinset = as ∧
      σ'[i]? = some s' ∧ SameFrom cur s s' := by
  induction calls generalizing σ s with
  | nil =>
    cases h
    exact ⟨σ, s, rfl, hσ, rfl, hi, hσ s (List.mem_of_getElem? hi), rfl, rfl, fun _ _ => Iff.rfl⟩
  | cons c calls ih =>
    rw [List.foldlM_cons] at h
    obtain ⟨as₁, hc, h⟩ := Option.bind_eq_some_iff.mp h
    obtain ⟨σ₁, s₁, hrun₁, hσ₁, rfl, hi₁, hsame₁⟩ :=
      exec_leavesAlone hσ hi hc (halone c List.mem_cons_self) hcur
    obtain ⟨σ', s', hrun, hσ', has, hi', hsame⟩ :=
      ih hσ₁ hi₁ h fun c hc => halone c (List.mem_cons_of_mem _ hc)
    refine ⟨σ', s', ?_, hσ', has, hi', hsame.ok, hsame.nbits.trans hsame₁.nbits,
      hsame.compl.trans hsame₁.compl, fun x hx => (hsame.mem x hx).trans (hsame₁.mem x hx)⟩
    rw [List.foldlM_cons, hrun₁]
    exact hrun

/-! ## All calls -/

/-- The values of the calls from the call `n` on, when the list of members is `members`. -/
def returnsFrom (members : List ℕ) (n m : ℕ) : List ℤ :=
  (List.range' n m).map fun k : ℕ => ((members[k]?).map fun x : ℕ => (x : ℤ)).getD (-1)

/-- The value of the call `n`, and the state behind it. -/
lemma setNextMember_step {members : List ℕ} (hi : σ[i]? = some s) (hs : s.Ok) {n cur : ℕ}
    (hbefore : ∀ x ∈ members.take n, x < cur) (hafter : members.drop n = s.membersFrom cur) :
    ∃ cur', setNextMember (some i) σ ⟨some i, cur⟩ =
        some (((members[n]?).map fun x : ℕ => (x : ℤ)).getD (-1), ⟨some i, cur'⟩) ∧
      (∀ x ∈ members.take (n + 1), x < cur') ∧ members.drop (n + 1) = s.membersFrom cur' := by
  have hget : members[n]? = (members.drop n)[0]? := by rw [List.getElem?_drop, Nat.add_zero]
  have hdrop : members.drop (n + 1) = (members.drop n).tail := (List.tail_drop).symm
  rcases setNextMember_again hi hs cur with ⟨hnone, cur', hle, hrun, hrest⟩ | ⟨x, hx, hmem, hrun⟩
  · rw [hnone] at hafter
    have hlen : members.length ≤ n := List.drop_eq_nil_iff.mp hafter
    refine ⟨cur', ?_, fun x hx => ?_, ?_⟩
    · rw [hget, hafter]
      exact hrun
    · rw [List.take_of_length_le (by omega)] at hx
      rw [List.take_of_length_le hlen] at hbefore
      exact (hbefore x hx).trans_le hle
    · rw [hdrop, hafter, hrest]
      rfl
  · rw [hmem] at hafter
    refine ⟨x + 1, ?_, fun y hy => ?_, ?_⟩
    · rw [hget, hafter]
      exact hrun
    · rw [List.take_add_one, List.mem_append, hget, hafter] at hy
      rcases hy with hy | hy
      · have hlt := hbefore y hy
        omega
      · have hyx : y = x := by simpa using hy
        omega
    · rw [hdrop, hafter]
      rfl

/-- The calls from the call `n` on: the cursor stands behind the members that have been returned,
and in front of the others. -/
lemma session_again (members : List ℕ) (calls : List (List SetCall)) (hσ : ∀ s ∈ σ, s.Ok)
    (hi : σ[i]? = some s) {as : List (Finset ℕ)}
    (h : calls.flatten.foldlM SetCall.denote (σ.map SetS.toFinset) = some as) {n cur : ℕ}
    (halone : ∀ m cs, calls[m]? = some cs → ∀ c ∈ cs, LeavesAlone i (members.take (n + m)) c)
    (hbefore : ∀ x ∈ members.take n, x < cur) (hafter : members.drop n = s.membersFrom cur) :
    session i calls σ ⟨some i, cur⟩ = some (returnsFrom members n calls.length) := by
  induction calls generalizing σ s n cur with
  | nil => rfl
  | cons cs calls ih =>
    rw [List.flatten_cons, List.foldlM_append] at h
    obtain ⟨as₁, hcs, h⟩ := Option.bind_eq_some_iff.mp h
    obtain ⟨σ₁, s₁, hrun₁, hσ₁, rfl, hi₁, hsame⟩ :=
      execAll_leavesAlone hσ hi hcs (halone 0 cs rfl) hbefore
    have hmembers :=
      membersFrom_congr (hσ s (List.mem_of_getElem? hi)) hsame.ok hsame.nbits hsame.compl hsame.mem
    obtain ⟨cur', hnext, hbefore', hafter'⟩ :=
      setNextMember_step hi₁ hsame.ok hbefore (hafter.trans hmembers.symm)
    have hlater : ∀ m cs, calls[m]? = some cs →
        ∀ c ∈ cs, LeavesAlone i (members.take (n + 1 + m)) c := by
      intro m cs' hm c hc
      rw [Nat.add_assoc, Nat.add_comm 1]
      exact halone (m + 1) cs' hm c hc
    rw [session, hrun₁]
    change (setNextMember (some i) σ₁ ⟨some i, cur⟩).bind
      (fun r => (session i calls σ₁ r.2).bind fun vs => some (r.1 :: vs)) = _
    rw [hnext, Option.bind_some, ih hσ₁ hi₁ h hlater hbefore' hafter']
    rfl

/-- A member among the first 32 numbers, or a member of a set that is not complemented. -/
def Reachable (s : SetS) : Prop := (∃ x ∈ s.toFinset, x < 32) ∨ (s.compl = 0 ∧ s.toFinset.Nonempty)

/-- A word is not zero exactly when one of its numbers is a member. -/
lemma word_ne_zero_iff (s : SetS) (k : ℕ) : word s.map k ≠ 0#32 ↔ ∃ x ∈ s.toFinset, x / 32 = k := by
  have hiff := @word_and_ne_zero_iff 32 s.map s.map k (by decide)
  rw [BitVec.and_self, Finset.inter_self] at hiff
  exact hiff

/-- The words that the first call skips have no member that would be enumerated, if the set is
reachable. -/
lemma skipZeros_of_reachable (hs : s.Ok) (h : Reachable s) :
    ∃ cur, skipZeros s.nbits s.map 0 = some cur ∧ s.membersFrom 0 = s.membersFrom cur := by
  have hlen : 0 + s.map.length * 32 ≤ s.nbits := by rw [hs.map, hs.nbits, Nat.zero_add]
  have hzeroword : ∀ k, word s.map k = 0#32 → ∀ x ∈ s.toFinset, x / 32 ≠ k := fun k hk x hx hxk =>
    (word_ne_zero_iff s k).mpr ⟨x, hx, hxk⟩ hk
  rcases skipZeros_spec s.map 0 hlen with ⟨-, hzero⟩ | ⟨k, hrun, -, hzero⟩
  · obtain ⟨x, hx⟩ : s.toFinset.Nonempty := by
      rcases h with ⟨x, hx, -⟩ | ⟨-, hne⟩
      · exact ⟨x, hx⟩
      · exact hne
    exact absurd rfl (hzeroword (x / 32) (hzero _) x hx)
  · refine ⟨0 + k * 32, hrun, membersFrom_add hs 0 (k * 32) fun x _ hx hmem => ?_⟩
    by_cases hcompl : s.compl = 0
    · exact hzeroword (x / 32) (hzero _ (by omega)) x (hmem.mpr hcompl) rfl
    · obtain ⟨y, hy, hlt⟩ := h.resolve_right fun h => hcompl h.1
      exact hzeroword 0 (hzero 0 (by omega)) y hy (by omega)

/-- The calls for a set for which there has been no call. -/
lemma session_first (hσ : ∀ s ∈ σ, s.Ok) (hi : σ[i]? = some s) (h : Reachable s)
    {calls : List (List SetCall)} {as : List (Finset ℕ)}
    (hdenote : calls.flatten.foldlM SetCall.denote (σ.map SetS.toFinset) = some as)
    (halone : ∀ n cs, calls[n]? = some cs → ∀ c ∈ cs, LeavesAlone i (s.members.take n) c)
    (cur₀ : ℕ) : session i calls σ ⟨none, cur₀⟩ = some (returns s.members calls.length) := by
  have hs := hσ s (List.mem_of_getElem? hi)
  have hreturns : ∀ m, returnsFrom s.members 0 m = returns s.members m := by
    intro m
    unfold returnsFrom returns
    rw [List.range_eq_range']
  rcases calls with _ | ⟨cs, calls⟩
  · rfl
  · obtain ⟨as₁, hcs, -⟩ : ∃ as₁, cs.foldlM SetCall.denote (σ.map SetS.toFinset) = some as₁ ∧
        calls.flatten.foldlM SetCall.denote as₁ = some as := by
      rw [List.flatten_cons, List.foldlM_append] at hdenote
      exact Option.bind_eq_some_iff.mp hdenote
    have hnone : ∀ x ∈ s.members.take 0, x < 0 := fun x hx => absurd hx List.not_mem_nil
    obtain ⟨σ₁, s₁, hrun₁, -, -, hi₁, hsame⟩ :=
      execAll_leavesAlone hσ hi hcs (halone 0 cs rfl) hnone
    have hsets : s₁.toFinset = s.toFinset := Finset.ext fun x => hsame.mem x (Nat.zero_le x)
    have hreach : Reachable s₁ := by
      unfold Reachable
      rw [hsets, hsame.compl]
      exact h
    obtain ⟨cur, hskip, hmembers⟩ := skipZeros_of_reachable hsame.ok hreach
    have hfrom : ∀ cur, s₁.membersFrom cur = s.membersFrom cur := fun cur =>
      membersFrom_congr hs hsame.ok hsame.nbits hsame.compl fun x _ => hsame.mem x (Nat.zero_le x)
    -- from the second call on, the cursor is that of a call that goes on
    have hsession :
        session i (cs :: calls) σ ⟨none, cur₀⟩ = session i (cs :: calls) σ ⟨some i, cur⟩ := by
      rw [session, session, hrun₁]
      change (setNextMember (some i) σ₁ ⟨none, cur₀⟩).bind _ =
        (setNextMember (some i) σ₁ ⟨some i, cur⟩).bind _
      rw [setNextMember_first hi₁, hskip, Option.bind_some]
    rw [hsession, ← hreturns]
    refine session_again s.members (cs :: calls) hσ hi hdenote (fun m cs' hm => ?_) (by simp) ?_
    · rw [Nat.zero_add]
      exact halone m cs' hm
    · rw [List.drop_zero, members_eq, ← hfrom, ← hfrom]
      exact hmembers

/-- A single call for a set that is not reachable leaves the map or misses the first member. -/
lemma session_singleton (hi : σ[i]? = some s) (hs : s.Ok) (h : ¬ Reachable s) (cur₀ : ℕ) :
    session i [[]] σ ⟨none, cur₀⟩ ≠ some (returns s.members 1) := by
  have hlen : 0 + s.map.length * 32 ≤ s.nbits := by rw [hs.map, hs.nbits, Nat.zero_add]
  have hfirst : session i [[]] σ ⟨none, cur₀⟩ =
      ((skipZeros s.nbits s.map 0).bind fun cur => setNextMember (some i) σ ⟨some i, cur⟩).map
      fun r => [r.1] := by
    rw [← setNextMember_first hi cur₀]
    change (setNextMember (some i) σ ⟨none, cur₀⟩).bind _ = _
    cases setNextMember (some i) σ ⟨none, cur₀⟩ <;> rfl
  rw [hfirst]
  rcases skipZeros_spec s.map 0 hlen with ⟨hrun, -⟩ | ⟨k, hrun, hk, hzero⟩
  · rw [hrun]
    exact (Option.some_ne_none _).symm
  · obtain ⟨y, hy, hyk⟩ := (word_ne_zero_iff s k).mp hk
    have hcompl : s.compl ≠ 0 := fun hcompl => h (.inr ⟨hcompl, y, hy⟩)
    have hpos : 32 ≤ y := by
      by_contra hlt
      exact h (.inl ⟨y, hy, by omega⟩)
    have hnbits : y < s.nbits := by
      have hlt := lt_of_mem_toFinset hy
      rw [hs.map] at hlt
      rw [hs.nbits]
      exact hlt
    have hmem : s.members = 0 :: s.membersFrom 1 := by
      rw [members_eq, membersFrom_eq s (by omega), setTEST_beq hs, if_pos]
      refine decide_eq_true (iff_of_false (fun hmem => h (.inl ⟨0, hmem, by decide⟩)) hcompl)
    have hreturns : returns s.members 1 = [0] := by
      rw [hmem]
      rfl
    rw [hrun, Option.bind_some, hreturns]
    rcases setNextMember_again hi hs (0 + k * 32) with ⟨-, cur', -, hnext, -⟩ | ⟨x, hx, -, hnext⟩
    · rw [hnext, Option.map_some, ne_eq, Option.some.injEq, List.cons.injEq]
      omega
    · rw [hnext, Option.map_some, ne_eq, Option.some.injEq, List.cons.injEq]
      omega

/-- A set whose members are enumerated is reachable. -/
lemma Enumerates.reachable (hi : σ[i]? = some s) (hs : s.Ok) (h : Enumerates i s σ) :
    Reachable s := by
  by_contra hreach
  obtain ⟨it', hreset, hsession⟩ := h ⟨none, 0⟩ [[]] (σ.map SetS.toFinset) rfl (by
    intro n cs hn c hc
    rw [List.getElem?_singleton] at hn
    split at hn
    · cases hn
      cases hc
    · cases hn)
  cases hreset
  exact session_singleton hi hs hreach 0 hsession

/-- `set_next_member` enumerates a set if and only if it has a member among the first 32 numbers, or
it is not empty and not complemented. -/
theorem setNextMember_enumerates_iff (hσ : ∀ s ∈ σ, s.Ok) (hi : σ[i]? = some s) : Enumerates i s σ ↔
    Reachable s := by
  refine ⟨fun h => h.reachable hi (hσ s (List.mem_of_getElem? hi)), ?_⟩
  intro hreach it calls as hdenote halone
  exact ⟨⟨none, it.currentMember⟩, rfl, session_first hσ hi hreach hdenote halone it.currentMember⟩

/-- The set `{40}` can be made, and its first word is zero. -/
lemma exists_secondWord : ∃ s, execAll [.new, .add 0 40] = some [s] ∧ s.Ok ∧ s.toFinset = {40} ∧
    s.compl = 0 := by
  have hdenote : denoteAll [.new, .add 0 40] = some [{40}] := by decide
  obtain ⟨σ, hrun, hσ, has⟩ :=
    execAll_spec (σ := []) (fun s hs => absurd hs List.not_mem_nil) hdenote
  obtain ⟨s, rfl, hs⟩ := List.map_eq_singleton_iff.mp has
  have hcompl : (execAll [.new, .add 0 40]).map (fun σ => σ.map SetS.compl) = some [0] := by decide
  change (execAll [.new, .add 0 40]) = some [s] at hrun
  rw [hrun] at hcompl
  exact ⟨s, hrun, hσ s (List.mem_singleton_self s), hs, by simpa using hcompl⟩

/-- The member of the set `{40}` is enumerated if and only if the set is reachable. -/
theorem setNextMember_enumerates_secondWord : ∃ s, execAll [.new, .add 0 40] = some [s] ∧
    (Enumerates 0 s [s] ↔ Reachable s) := by
  obtain ⟨s, hrun, hok, -, -⟩ := exists_secondWord
  exact ⟨s, hrun, setNextMember_enumerates_iff (fun t ht => List.mem_singleton.mp ht ▸ hok) rfl⟩

/-- The first 32 members of the complement of `{40}` are not found. -/
theorem not_setNextMember_enumerates :
    ¬ ∀ (calls : List SetCall) (σ : Sets), execAll calls = some σ →
    ∀ (i : ℕ) (s : SetS), σ[i]? = some s →
      Enumerates i s σ ∧ Enumerates i (setCOMPLEMENT s) (σ.set i (setCOMPLEMENT s)) := by
  intro hall
  obtain ⟨s, hrun, hok, hset, hcompl⟩ := exists_secondWord
  have henum := (hall _ _ hrun 0 s rfl).2
  have hok' : (setCOMPLEMENT s).Ok := ⟨hok.map, hok.defmap, hok.nbits, hok.bound⟩
  rcases henum.reachable rfl hok' with ⟨x, hx, hlt⟩ | ⟨hzero, -⟩
  · change x ∈ s.toFinset at hx
    rw [hset, Finset.mem_singleton] at hx
    omega
  · change 2 ^ 32 - 1 - s.compl = 0 at hzero
    omega

end Support
