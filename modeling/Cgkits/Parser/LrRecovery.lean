import Cgkits.Parser.LrMachine
import Mathlib.Data.List.TakeWhile

/-!
# Error recovery of the LALR(1) driver (`occs.m`)

`yy_recover` tries the tokens from the one that caused the error on: it pops states until there is
one with an action for the token, and restores the stack if there is none.  The end of the input
ends the search, and is also what stands for a failure.  `yyRecover_spec` says which token is
returned and what is left of the stacks.
-/

namespace Parser

/-- A state of the stack has an action for the token that is no error. -/
def Qualifies (T : YyTables) (stack : List ℕ) (tok : ℕ) : Prop :=
  ∃ st ∈ stack, chainNext T.action st tok ≠ yyF

variable {T : YyTables} {stack : List ℕ} {tok : ℕ}

/-- The states are popped down to the first one that has an action. -/
lemma yyPopStates_eq_nil_iff : yyPopStates T tok stack = [] ↔ ¬ Qualifies T stack tok := by
  unfold yyPopStates Qualifies
  rw [List.dropWhile_eq_nil_iff]
  constructor
  · rintro h ⟨st, hst, hact⟩
    exact hact (of_decide_eq_true (h st hst))
  · intro h st hst
    refine decide_eq_true ?_
    by_contra hact
    exact h ⟨st, hst, hact⟩

/-- What is popped, and the state that is left on top. -/
lemma exists_popped (h : Qualifies T stack tok) :
    ∃ popped st stack', stack = popped ++ st :: stack' ∧ yyPopStates T tok stack = st :: stack' ∧
    (∀ y ∈ popped, chainNext T.action y tok = yyF) ∧ chainNext T.action st tok ≠ yyF := by
  have hne : yyPopStates T tok stack ≠ [] := fun hnil => yyPopStates_eq_nil_iff.mp hnil h
  obtain ⟨st, stack', hpop⟩ := List.exists_cons_of_ne_nil hne
  have hsplit :=
    List.takeWhile_append_dropWhile (p := fun st => decide (chainNext T.action st tok = yyF))
      (l := stack)
  unfold yyPopStates at hpop hne
  refine ⟨_, st, stack', (hpop ▸ hsplit).symm, hpop, ?_, ?_⟩
  · intro y hy
    have hpopped := List.mem_takeWhile_imp hy
    exact of_decide_eq_true hpopped
  · have hhead := List.head_dropWhile_not (fun st => decide (chainNext T.action st tok = yyF)) hne
    simp only [hpop, List.head_cons] at hhead
    exact of_decide_eq_false hhead

/-- The token that is found is the first one that qualifies. -/
lemma yyRecoverLoop_some {rest stack' rest' : List ℕ} {t : ℕ}
    (h : yyRecoverLoop T stack tok rest = some (stack', t, rest')) : ∃ dropped,
      dropped ++ [t] <+: tok :: rest.takeWhile (fun t => t ≠ 0) ∧
      (∀ d ∈ dropped, ¬ Qualifies T stack d) ∧ rest' = rest.drop dropped.length ∧
      stack' = yyPopStates T t stack ∧ Qualifies T stack t := by
  have hfound : ∀ tok : ℕ, yyPopStates T tok stack ≠ [] → Qualifies T stack tok := fun tok hne =>
    not_not.mp fun hnot => hne (yyPopStates_eq_nil_iff.mpr hnot)
  induction rest generalizing tok with
  | nil =>
    unfold yyRecoverLoop at h
    split at h
    · cases h
    · cases h
      exact ⟨[], List.prefix_rfl, fun d hd => absurd hd List.not_mem_nil, rfl, rfl, hfound _ ‹_›⟩
  | cons u rest ih =>
    unfold yyRecoverLoop at h
    split at h
    · rename_i hnil
      split at h
      · cases h
      · rename_i hu
        obtain ⟨dropped, hprefix, hdropped, hrest, hstack, hqual⟩ := ih h
        refine ⟨tok :: dropped, ?_, ?_, hrest, hstack, hqual⟩
        · rw [List.takeWhile_cons_of_pos (by simpa using hu), List.cons_append]
          exact (List.prefix_cons_inj tok).mpr hprefix
        · exact List.forall_mem_cons.mpr ⟨yyPopStates_eq_nil_iff.mp hnil, hdropped⟩
    · cases h
      refine ⟨[], ?_, fun d hd => absurd hd List.not_mem_nil, rfl, rfl, hfound _ ‹_›⟩
      exact (List.prefix_cons_inj t).mpr (List.nil_prefix)

/-- When the recovery gives up, no token up to the end of the input qualifies. -/
lemma yyRecoverLoop_none {rest : List ℕ} (h : yyRecoverLoop T stack tok rest = none) :
    ∀ t ∈ tok :: rest.takeWhile (fun t => t ≠ 0), ¬ Qualifies T stack t := by
  induction rest generalizing tok with
  | nil =>
    unfold yyRecoverLoop at h
    split at h
    · rename_i hnil
      exact List.forall_mem_singleton.mpr (yyPopStates_eq_nil_iff.mp hnil)
    · cases h
  | cons u rest ih =>
    unfold yyRecoverLoop at h
    split at h
    · rename_i hnil
      refine List.forall_mem_cons.mpr ⟨yyPopStates_eq_nil_iff.mp hnil, ?_⟩
      split at h
      · rename_i hu
        rw [List.takeWhile_cons_of_neg (by simpa using hu)]
        exact fun t ht => absurd ht List.not_mem_nil
      · rename_i hu
        rw [List.takeWhile_cons_of_pos (by simpa using hu)]
        exact ih h
    · cases h

namespace YyMem

variable {V : Type}

/-- A recovery that finds a token.  If the token is the end of the input, the result `0` is a
failure for the caller. -/
structure Found (T : YyTables) (tok : ℕ) (m : YyMem V) (r : ℕ × YyMem V) : Prop where
  /-- The token is the first one that qualifies, and the tokens before it are discarded. -/
  token : ∃ dropped, dropped ++ [r.1] <+: tok :: m.rest.takeWhile (fun t => t ≠ 0) ∧
    (∀ d ∈ dropped, ¬ Qualifies T m.yyStack.toList d) ∧ r.2.rest = m.rest.drop dropped.length
  /-- The stack is cut to the longest part whose top has an action for the token. -/
  states : ∃ popped st stack, m.yyStack.toList = popped ++ st :: stack ∧
    r.2.yyStack.toList = st :: stack ∧ (∀ y ∈ popped, chainNext T.action y r.1 = yyF) ∧
    chainNext T.action st r.1 ≠ yyF
  /-- The stack of values has the same height. -/
  height : (r.2.yyStack.size : ℤ) - r.2.yyVsp = r.2.yyStack.toList.length

/-- A recovery that finds no token up to the end of the input. -/
structure Failed (T : YyTables) (tok : ℕ) (m : YyMem V) (r : ℕ × YyMem V) : Prop where
  /-- The result is 0, no token. -/
  token : r.1 = 0
  /-- No token up to the end of the input qualifies. -/
  none : ∀ t ∈ tok :: m.rest.takeWhile (fun t => t ≠ 0), ¬ Qualifies T m.yyStack.toList t
  /-- The stacks are as before. -/
  states : r.2.yyStack = m.yyStack ∧ r.2.yyVsp = m.yyVsp

/-- `yy_recover` gives up at the limit of errors, or finds the first token that qualifies, or comes
to the end of the input; an attempt that fails for a token leaves the stack as it was. -/
theorem yyRecover_spec (T : YyTables) (env : YyEnv V) (tok : ℕ) (suppress : Bool) (m : YyMem V) :
    ((suppress = false ∧ env.yymaxerr < m.yynerrs + 1 ∧
        yyRecover T env tok suppress m = (0, { m with yynerrs := m.yynerrs + 1 })) ∨
      ¬ (suppress = false ∧ env.yymaxerr < m.yynerrs + 1) ∧
        (Found T tok m (yyRecover T env tok suppress m) ∨
        Failed T tok m (yyRecover T env tok suppress m))) ∧
    ∀ t, ¬ Qualifies T m.yyStack.toList t →
      attempt T m.yyStack.sp t m.yyStack = (m.yyStack, false) := by
  constructor
  · obtain ⟨yynerrs, hyynerrs, hrec⟩ := yyRecover_eq T env tok suppress m
    by_cases hlimit : suppress = false ∧ env.yymaxerr < m.yynerrs + 1
    · left
      obtain ⟨rfl, herr⟩ := hlimit
      obtain rfl : yynerrs = m.yynerrs + 1 := hyynerrs
      rw [hrec, if_pos ⟨rfl, herr⟩]
      exact ⟨rfl, herr, rfl⟩
    · right
      refine ⟨hlimit, ?_⟩
      rw [hrec, if_neg]
      · rcases recoverLoop_spec T tok m.rest { m with yynerrs := yynerrs } with
          ⟨t, k, rest', hempty, hloop, heq⟩ | ⟨hloop, rest', heq⟩
        · left
          have heq' : recoverLoop T m.yyStack.sp tok m.rest { m with yynerrs := yynerrs } = _ := heq
          obtain ⟨dropped, hprefix, hdropped, hrest, hstack, hqual⟩ := yyRecoverLoop_some hloop
          obtain ⟨popped, st, stack, hsplit, hpop, hpopped, hact⟩ := exists_popped hqual
          rw [heq']
          refine ⟨⟨dropped, hprefix, hdropped, hrest⟩,
            ⟨popped, st, stack, hsplit, hstack.trans hpop, hpopped, hact⟩, ?_⟩
          change (m.yyStack.size : ℤ) - (m.yyStack.sp + k) = (m.yyStack.popn_ k).toList.length
          rw [YyStack.length_toList]
          have hempty' : ¬ (m.yyStack.size : ℤ) ≤ m.yyStack.sp + k := hempty
          change _ = (((m.yyStack.size : ℤ) - (m.yyStack.sp + k)).toNat : ℤ)
          omega
        · right
          have heq' : recoverLoop T m.yyStack.sp tok m.rest { m with yynerrs := yynerrs } = _ := heq
          rw [heq']
          exact ⟨rfl, yyRecoverLoop_none hloop, rfl, rfl⟩
      · rintro ⟨rfl, herr⟩
        rw [hyynerrs] at herr
        exact hlimit ⟨rfl, herr⟩
  · intro t ht
    rcases attempt_spec T t m.yyStack with ⟨-, hattempt⟩ | ⟨k, hempty, hlist, -⟩
    · exact hattempt
    · rw [yyPopStates_eq_nil_iff.mpr ht, YyStack.toList_eq_nil_iff] at hlist
      exact absurd hlist hempty

end YyMem

end Parser
