import Cgkits.Parser.Patching

/-!
# What `patch` makes of a symbol table

When all edits have been made the table is a symbol table again, no right-hand side has an action,
and the nonterminals derive the words that they derived before: `patch_spec`.
-/

namespace Parser

open Support ContextFree

namespace Patching

variable {opt : PatchOpt} {name : ℕ → Lexeme} {live : List ℕ} {s₀ s : PatchTab} {vs : List ℕ}
  {es : List Edit} {p i a : ℕ}

/-! ## The table at the end -/

/-- A production of the edited table is an old one or the empty one of a new nonterminal. -/
lemma prod_cases (h : Patching opt name live s₀ vs es s) (hp : p < s.brk) :
    p < s₀.brk ∨ ∃ j e, (s₀.embeds es)[j]? = some e ∧ p = s₀.brk + j := by
  by_cases hold : p < s₀.brk
  · exact Or.inl hold
  · have hbrk := h.brk
    have hlt : p - s₀.brk < (s₀.embeds es).length := by omega
    exact Or.inr ⟨p - s₀.brk, _, List.getElem?_eq_getElem hlt, by omega⟩

/-- A symbol of the edited table is a new nonterminal or unchanged. -/
lemma sym_cases (h : Patching opt name live s₀ vs es s) (a : ℕ) :
    (∃ (j : ℕ) (e : Edit), (s₀.embeds es)[j]? = some e ∧ e.act = a) ∨ s.sym a = s₀.sym a := by
  by_cases hold : ∀ e ∈ s₀.embeds es, e.act ≠ a
  · exact Or.inr (h.sym_old a hold)
  · push Not at hold
    obtain ⟨e, he, hact⟩ := hold
    obtain ⟨j, hj⟩ := List.getElem?_of_mem he
    exact Or.inl ⟨j, e, hj, hact⟩

/-- The fields of an old production that are not touched. -/
lemma prod_old_fields (h : Patching opt name live s₀ vs es s) (hp : p < s₀.brk) :
    (s.prod p).num = (s₀.prod p).num ∧ (s.prod p).lhs = (s₀.prod p).lhs := by
  rw [h.prod_old p hp]
  split <;> exact ⟨rfl, rfl⟩

/-- A new nonterminal is one, with a number of its own. -/
lemma val_new (h : Patching opt name live s₀ vs es s) (hok : s₀.Ok name live) {j : ℕ} {e : Edit}
    (hj : (s₀.embeds es)[j]? = some e) : (s.sym e.act).val = s₀.currnonterm + 1 + j ∧
      s₀.currnonterm + 1 + j ≤ s.currnonterm ∧ IsNonterm (s₀.currnonterm + 1 + j) := by
  have hlt := (List.getElem?_eq_some_iff.mp hj).1
  have hle := h.currnonterm_le
  have hcurr := h.currnonterm
  have hmin := hok.currnonterm.1
  refine ⟨by rw [h.sym_new j e hj], by omega, ?_, ?_⟩ <;> omega

/-- An edit that makes a nonterminal is of an action that stays in the table. -/
lemma act_mem_alive (h : Patching opt name live s₀ vs es s) (hok : s₀.Ok name live)
    (honce : s₀.ActsOnce) {e : Edit} (he : e ∈ s₀.embeds es) : e.act ∈ s₀.alive live s := by
  obtain ⟨he, htrail⟩ := PatchTab.mem_embeds.mp he
  have hcell := h.cells e he
  refine h.mem_alive.mpr ⟨hok.rhs_mem _ hcell.lt_brk _ hcell.lt_rhsLen _ hcell.cell,
    fun e' he' htr hact => htrail ?_⟩
  have hcell' := h.cells e' he'
  rw [hact] at hcell'
  obtain ⟨hp, hi⟩ := honce _ _ _ _ _ hcell' hcell
  rw [← hp, ← hi]
  exact htr

/-- The new nonterminals are known by the positions at which they were made. -/
lemma eq_of_act_eq (h : Patching opt name live s₀ vs es s) (honce : s₀.ActsOnce) {j k : ℕ}
    {e e' : Edit} (hj : (s₀.embeds es)[j]? = some e) (hk : (s₀.embeds es)[k]? = some e')
    (hact : e.act = e'.act) : j = k := by
  have hj' : ((s₀.embeds es).map Edit.act)[j]? = some e.act := by
    rw [List.getElem?_map, hj]
    rfl
  have hk' : ((s₀.embeds es).map Edit.act)[k]? = some e.act := by
    rw [List.getElem?_map, hk, hact]
    rfl
  obtain ⟨hlt, -⟩ := List.getElem?_eq_some_iff.mp hj'
  exact (List.getElem?_inj hlt (h.nodup_acts honce)).mp (hj'.trans hk'.symm)

/-- There is no nonterminal with a number above `currnonterm`. -/
lemma nonterm_le (h : Patching opt name live s₀ vs es s) (hok : s₀.Ok name live) (ha : a ∈ live)
    (hnon : IsNonterm (s.sym a).val) : (s.sym a).val ≤ s.currnonterm := by
  rcases h.sym_cases a with ⟨j, e, hj, rfl⟩ | hsym
  · obtain ⟨hval, hle, -⟩ := h.val_new hok hj
    exact hval.trans_le hle
  · have hcurr := h.currnonterm
    rw [hsym] at hnon ⊢
    exact (hok.nonterm_le a ha hnon).trans (by omega)

/-- The new nonterminals have numbers of their own, other than the old ones. -/
lemma nonterm_inj (h : Patching opt name live s₀ vs es s) (hok : s₀.Ok name live) {b : ℕ}
    (ha : a ∈ live) (hb : b ∈ live) (hnon : IsNonterm (s.sym a).val)
    (heq : (s.sym a).val = (s.sym b).val) : a = b := by
  rcases h.sym_cases a with ⟨j, e, hj, rfl⟩ | hsyma <;> rcases h.sym_cases b with
    ⟨k, e', hk, rfl⟩ | hsymb
  · rw [(h.val_new hok hj).1, (h.val_new hok hk).1] at heq
    obtain rfl : j = k := by omega
    rw [hj] at hk
    cases hk
    rfl
  · rw [heq, hsymb] at hnon
    have hle := hok.nonterm_le b hb hnon
    rw [(h.val_new hok hj).1, hsymb] at heq
    omega
  · rw [hsyma] at hnon heq
    have hle := hok.nonterm_le a ha hnon
    rw [(h.val_new hok hk).1] at heq
    omega
  · rw [hsyma] at hnon heq
    rw [hsymb] at heq
    exact hok.nonterm_inj a ha b hb hnon heq

/-- The chain of a nonterminal holds exactly the productions with it on the left. -/
lemma mem_chain (h : Patching opt name live s₀ vs es s) (hok : s₀.Ok name live)
    (honce : s₀.ActsOnce) (ha : a ∈ live) (hnon : IsNonterm (s.sym a).val) (p : ℕ) :
    p ∈ (s.sym a).productions ↔ p < s.brk ∧ (s.prod p).lhs = a := by
  have hbrk := h.brk
  rcases h.sym_cases a with ⟨j, e, hj, rfl⟩ | hsym
  · have hlt := (List.getElem?_eq_some_iff.mp hj).1
    rw [h.sym_new j e hj]
    dsimp only
    rw [List.mem_singleton]
    constructor
    · rintro rfl
      rw [h.prod_new j e hj]
      exact ⟨by omega, rfl⟩
    · rintro ⟨hp, hlhs⟩
      rcases h.prod_cases hp with hold | ⟨k, e', hk, rfl⟩
      · rw [(h.prod_old_fields hold).2] at hlhs
        have hact := (h.cells e (PatchTab.mem_embeds.mp (List.mem_of_getElem? hj)).1).isAct
        rw [← hlhs] at hact
        exact absurd hact (hok.lhs p hold).2.not_isAct
      · rw [h.prod_new k e' hk] at hlhs
        rw [h.eq_of_act_eq honce hj hk hlhs.symm]
  · rw [hsym] at hnon ⊢
    rw [hok.chain a ha hnon]
    constructor
    · rintro ⟨hp, hlhs⟩
      rw [(h.prod_old_fields hp).2]
      exact ⟨by omega, hlhs⟩
    · rintro ⟨hp, hlhs⟩
      rcases h.prod_cases hp with hold | ⟨k, e', hk, rfl⟩
      · rw [(h.prod_old_fields hold).2] at hlhs
        exact ⟨hold, hlhs⟩
      · rw [h.prod_new k e' hk] at hlhs
        have hact := (h.cells e' (PatchTab.mem_embeds.mp (List.mem_of_getElem? hk)).1).isAct
        rw [show e'.act = a from hlhs] at hact
        exact absurd hact hnon.not_isAct

/-- The symbols of a right-hand side are in the table. -/
lemma rhs_mem_alive (h : Patching opt name live s₀ vs es s) (hok : s₀.Ok name live)
    (honce : s₀.ActsOnce) (hp : p < s₀.brk) (hi : i < (s.prod p).rhsLen)
    (ha : (s.prod p).rhs i = some a) : a ∈ s₀.alive live s := by
  obtain ⟨hi₀, hcell⟩ := h.rhs_eq hp hi
  rw [hcell] at ha
  refine h.mem_alive.mpr ⟨hok.rhs_mem p hp i hi₀ a ha, ?_⟩
  rintro e he htrail rfl
  have hcell' := h.cells e he
  obtain ⟨hpe, hie⟩ := honce _ _ _ _ _ hcell' ⟨hp, hi₀, ha, hcell'.isAct⟩
  rw [h.prod_old p hp, if_pos ⟨e, he, hpe, hpe ▸ htrail⟩] at hi
  change i < (s₀.prod p).rhsLen - 1 at hi
  unfold PatchTab.Trailing at htrail
  rw [hpe, hie] at htrail
  omega

/-- Each number of a production is used once, for the old and the new productions. -/
lemma perm_nums (h : Patching opt name live s₀ vs es s) (hok : s₀.Ok name live) :
    ((List.range s.brk).map fun p => (s.prod p).num).Perm (List.range s.numProductons) := by
  have hnew : ((List.range (s₀.embeds es).length).map (s₀.brk + ·)).map (fun p => (s.prod p).num) =
      (List.range (s₀.embeds es).length).map (s₀.numProductons + ·) := by
    rw [List.map_map]
    refine List.map_congr_left fun j hj => ?_
    change (s.prod (s₀.brk + j)).num = _
    rw [h.prod_new j _ (List.getElem?_eq_getElem (List.mem_range.mp hj))]
  have hold : (List.range s₀.brk).map (fun p => (s.prod p).num) =
      (List.range s₀.brk).map (fun p => (s₀.prod p).num) :=
    List.map_congr_left fun p hp => (h.prod_old_fields (List.mem_range.mp hp)).1
  rw [h.brk, h.numProductons, List.range_add, List.range_add, List.map_append, hnew, hold]
  exact hok.nums.append (List.Perm.refl _)

/-- The edited table is a symbol table again, with the symbols that are left in it. -/
lemma ok (h : Patching opt name live s₀ vs es s) (hok : s₀.Ok name live) (honce : s₀.ActsOnce) :
    s.Ok name (s₀.alive live s) := by
  have hcurr := h.currnonterm
  have hmin := hok.currnonterm.1
  have hmem : ∀ {a}, a ∈ s₀.alive live s → a ∈ live := fun ha => (h.mem_alive.mp ha).1
  refine ⟨h.table, ⟨by omega, h.currnonterm_le⟩, fun a ha hnon => h.nonterm_le hok (hmem ha) hnon,
    fun a ha b hb hnon heq => h.nonterm_inj hok (hmem ha) (hmem hb) hnon heq,
    fun a ha hnon p => h.mem_chain hok honce (hmem ha) hnon p, ?_, ?_, ?_, ?_, ?_, h.perm_nums hok⟩
  · intro a ha hact
    rcases h.sym_cases a with ⟨j, e, hj, rfl⟩ | hsym
    · obtain ⟨hval, -, hnon⟩ := h.val_new hok hj
      rw [hval] at hact
      exact absurd hact hnon.not_isAct
    · rw [hsym] at hact ⊢
      exact hok.string a (hmem ha) hact
  · intro p hp
    rcases h.prod_cases hp with hold | ⟨j, e, hj, rfl⟩
    · obtain ⟨hlhs, hnon⟩ := hok.lhs p hold
      rw [(h.prod_old_fields hold).2, h.sym_of_not_isAct hnon.not_isAct]
      exact ⟨h.mem_alive_of_not_isAct hlhs hnon.not_isAct, hnon⟩
    · obtain ⟨hval, -, hnon⟩ := h.val_new hok hj
      rw [h.prod_new j e hj]
      dsimp only
      rw [hval]
      exact ⟨h.act_mem_alive hok honce (List.mem_of_getElem? hj), hnon⟩
  · intro p hp
    rcases h.prod_cases hp with hold | ⟨j, e, hj, rfl⟩
    · rw [h.prod_old p hold]
      split
      · exact TabProd.isLeast_cut (hok.rhs p hold)
      · exact hok.rhs p hold
    · rw [h.prod_new j e hj]
      exact ⟨rfl, fun i _ => Nat.zero_le i⟩
  · intro p hp
    rcases h.prod_cases hp with hold | ⟨j, e, hj, rfl⟩
    · rw [h.prod_old p hold]
      split
      · exact (Nat.sub_le _ _).trans (hok.rhsLen_le p hold)
      · exact hok.rhsLen_le p hold
    · rw [h.prod_new j e hj]
      exact Nat.zero_le _
  · intro p hp i hi a ha
    rcases h.prod_cases hp with hold | ⟨j, e, hj, rfl⟩
    · exact h.rhs_mem_alive hok honce hold hi ha
    · rw [h.prod_new j e hj] at hi
      exact absurd hi (Nat.not_lt_zero i)

/-! ## The language -/

/-- The symbols of the old grammar; the new nonterminals are invisible. -/
def visible (s₀ : PatchTab) (a : ℕ) : Option ℕ := if a ∈ s₀.embedded then none else some a

/-- A symbol of a right-hand side that has been edited denotes what it denoted before. -/
lemma eraseSymbol_toSymbol (h : Patching opt name live s₀ vs es s) (hok : s₀.Ok name live) (a : ℕ) :
    (s.toSymbol a).bind (eraseSymbol (visible s₀)) = s₀.toSymbol a := by
  rcases h.sym_cases a with ⟨j, e, hj, rfl⟩ | hsym
  · obtain ⟨hval, -, hnon⟩ := h.val_new hok hj
    have hcell := h.cells e (PatchTab.mem_embeds.mp (List.mem_of_getElem? hj)).1
    have hmem : e.act ∈ s₀.embedded :=
      h.acts_subset (List.mem_map.mpr ⟨e, List.mem_of_getElem? hj, rfl⟩)
    unfold PatchTab.toSymbol
    rw [hval, if_neg hnon.not_isAct, if_neg hnon.not_isTerm, if_pos hcell.isAct, Option.bind_some]
    change (visible s₀ e.act).map Symbol.nonterminal = none
    rw [show visible s₀ e.act = none from if_pos hmem]
    rfl
  · unfold PatchTab.toSymbol
    rw [hsym]
    split
    · rfl
    · split
      · rfl
      · have hmem : a ∉ s₀.embedded := by
          intro hmem
          obtain ⟨p, i, hcell, -⟩ := PatchTab.mem_embedded.mp hmem
          exact absurd hcell.isAct ‹_›
        change (visible s₀ a).map Symbol.nonterminal = _
        rw [show visible s₀ a = some a from if_neg hmem]
        rfl

/-- A right-hand side without the new nonterminals is the right-hand side it was before. -/
lemma erase_output (h : Patching opt name live s₀ vs es s) (hok : s₀.Ok name live)
    (hp : p < s₀.brk) : erase (visible s₀) (s.rule p).output = (s₀.rule p).output := by
  unfold erase PatchTab.rule
  dsimp only
  rw [List.filterMap_filterMap]
  have hsymbol : (fun a => (s.toSymbol a).bind (eraseSymbol (visible s₀))) = s₀.toSymbol :=
    funext fun a => h.eraseSymbol_toSymbol hok a
  rw [hsymbol, h.prod_old p hp]
  split
  · rename_i hex
    obtain ⟨e, he, rfl, htrail⟩ := hex
    have hcell := h.cells e he
    rw [TabProd.symbols_cut htrail.symm, TabProd.symbols_eq_append htrail.symm hcell.cell,
      List.filterMap_append]
    have hact : s₀.toSymbol e.act = none := if_pos hcell.isAct
    simp [hact]
  · rfl

/-- The rules are the old ones, with invisible nonterminals. -/
lemma erases (h : Patching opt name live s₀ vs es s) (hok : s₀.Ok name live)
    (hall : ∀ p < s₀.brk, s₀.Complete p es) (a : ℕ) :
    @Erases ℕ (s₀.cfg a) (s.cfg a) (visible s₀) := by
  have hbrk := h.brk
  have hmem : ∀ {r}, r ∈ (s.cfg a).rules ↔ ∃ p < s.brk, s.rule p = r := by simp
  have hmem₀ : ∀ {r}, r ∈ (s₀.cfg a).rules ↔ ∃ p < s₀.brk, s₀.rule p = r := by simp
  have hlhs : ∀ {p}, p < s₀.brk → (s.rule p).input = (s₀.rule p).input :=
    fun hp => (h.prod_old_fields hp).2
  have hvisible : ∀ {p}, p < s₀.brk → visible s₀ (s₀.rule p).input = some (s₀.rule p).input := by
    intro p hp
    refine if_neg fun hmem => ?_
    obtain ⟨q, i, hcell, -⟩ := PatchTab.mem_embedded.mp hmem
    exact absurd hcell.isAct (hok.lhs p hp).2.not_isAct
  have hnew : ∀ {j e}, (s₀.embeds es)[j]? = some e → s.rule (s₀.brk + j) = ⟨e.act, []⟩ ∧
      visible s₀ e.act = none := by
    intro j e hj
    refine ⟨?_, if_pos (h.acts_subset (List.mem_map.mpr ⟨e, List.mem_of_getElem? hj, rfl⟩))⟩
    unfold PatchTab.rule TabProd.symbols
    rw [h.prod_new j e hj]
    rfl
  refine ⟨?_, ?_, ?_, ?_⟩
  · intro r hr hnone
    obtain ⟨p, hp, rfl⟩ := hmem.mp hr
    rcases h.prod_cases hp with hold | ⟨j, e, hj, rfl⟩
    · rw [hlhs hold, hvisible hold] at hnone
      cases hnone
    · rw [(hnew hj).1]
      rfl
  · intro r hr A hA
    obtain ⟨p, hp, rfl⟩ := hmem.mp hr
    rcases h.prod_cases hp with hold | ⟨j, e, hj, rfl⟩
    · rw [hlhs hold, hvisible hold] at hA
      cases hA
      rw [h.erase_output hok hold]
      exact hmem₀.mpr ⟨p, hold, rfl⟩
    · rw [(hnew hj).1, (hnew hj).2] at hA
      cases hA
  · intro r hr A hA
    obtain ⟨p, hp, rfl⟩ := hmem₀.mp hr
    refine ⟨s.rule p, hmem.mpr ⟨p, by omega, rfl⟩, ?_, h.erase_output hok hp⟩
    rw [hlhs hp]
    unfold visible at hA
    split at hA
    · cases hA
    · exact (Option.some.inj hA).symm
  · intro A hA
    have hembedded : A ∈ s₀.embedded := by
      unfold visible at hA
      split at hA
      · assumption
      · cases hA
    obtain ⟨p, i, hcell, htrail⟩ := PatchTab.mem_embedded.mp hembedded
    obtain ⟨j, hj⟩ :=
      List.getElem?_of_mem (PatchTab.mem_embeds.mpr ⟨hall p hcell.lt_brk i A hcell, htrail⟩)
    have hlt := (List.getElem?_eq_some_iff.mp hj).1
    exact hmem.mpr ⟨s₀.brk + j, by omega, (hnew hj).1⟩

/-- A nonterminal derives the same words from the edited table as before. -/
lemma language_eq (h : Patching opt name live s₀ vs es s) (hok : s₀.Ok name live)
    (hall : ∀ p < s₀.brk, s₀.Complete p es) (hnon : IsNonterm (s₀.sym a).val) :
    (s.cfg a).language = (s₀.cfg a).language := by
  refine (h.erases hok hall a).language_eq (if_neg fun hmem => ?_)
  obtain ⟨p, i, hcell, -⟩ := PatchTab.mem_embedded.mp hmem
  exact absurd hcell.isAct hnon.not_isAct

end Patching

/-! ## The cases -/

namespace PatchTab

variable {s₀ : PatchTab} {name : ℕ → Lexeme} {live : List ℕ} {es : List Edit} {p q : ℕ}

/-- An action at the end of a right-hand side is printed under the number of its production, and any
other one under a new number. -/
lemma mem_cases {n : ℕ} {c : CaseArgs} : c ∈ s₀.cases n es ↔
    (∃ e ∈ es, s₀.Trailing e.prod e.pos ∧ c = s₀.caseOf (s₀.prod e.prod).num e) ∨
      ∃ j e, (s₀.embeds es)[j]? = some e ∧ c = s₀.caseOf (n + j) e := by
  induction es using List.reverseRecOn with
  | nil =>
    unfold cases embeds
    simp
  | append_singleton es e ih =>
    rw [cases_append_singleton, List.mem_append, ih, List.mem_singleton, embeds_append]
    by_cases htrail : s₀.Trailing e.prod e.pos
    · rw [if_pos htrail, embeds_trailing htrail, List.append_nil, or_right_comm]
      refine or_congr_left ⟨?_, ?_⟩
      · rintro (⟨e', he', htr, hc⟩ | hc)
        · exact ⟨e', List.mem_append_left _ he', htr, hc⟩
        · exact ⟨e, List.mem_append_right _ (List.mem_singleton_self e), htrail, hc⟩
      · rintro ⟨e', he', htr, hc⟩
        rcases List.mem_append.mp he' with he' | he'
        · exact Or.inl ⟨e', he', htr, hc⟩
        · obtain rfl := List.mem_singleton.mp he'
          exact Or.inr hc
    · rw [if_neg htrail, embeds_not_trailing htrail, or_assoc]
      refine or_congr ⟨?_, ?_⟩ ⟨?_, ?_⟩
      · rintro ⟨e', he', hc⟩
        exact ⟨e', List.mem_append_left _ he', hc⟩
      · rintro ⟨e', he', htr, hc⟩
        rcases List.mem_append.mp he' with he' | he'
        · exact ⟨e', he', htr, hc⟩
        · obtain rfl := List.mem_singleton.mp he'
          exact absurd htr htrail
      · rintro (⟨j, e', hj, hc⟩ | hc)
        · refine ⟨j, e', ?_, hc⟩
          rw [List.getElem?_append_left (List.getElem?_eq_some_iff.mp hj).1]
          exact hj
        · exact ⟨(s₀.embeds es).length, e, List.getElem?_concat_length, hc⟩
      · rintro ⟨j, e', hj, hc⟩
        by_cases hlt : j < (s₀.embeds es).length
        · rw [List.getElem?_append_left hlt] at hj
          exact Or.inl ⟨j, e', hj, hc⟩
        · rw [List.getElem?_append_right (Nat.le_of_not_lt hlt)] at hj
          obtain ⟨hlen, he'⟩ := List.getElem?_eq_some_iff.mp hj
          rw [List.length_singleton] at hlen
          rw [List.getElem_singleton] at he'
          obtain rfl : j = (s₀.embeds es).length := by omega
          rw [← he'] at hc
          exact Or.inr hc

/-- The numbers of the old productions are below the number of productions. -/
lemma Ok.num_lt (hok : s₀.Ok name live) (hp : p < s₀.brk) : (s₀.prod p).num < s₀.numProductons :=
  List.mem_range.mp (hok.nums.subset (List.mem_map.mpr ⟨p, List.mem_range.mpr hp, rfl⟩))

/-- Two old productions with the same number are one production. -/
lemma Ok.num_inj (hok : s₀.Ok name live) (hp : p < s₀.brk) (hq : q < s₀.brk)
    (h : (s₀.prod p).num = (s₀.prod q).num) : p = q :=
  List.inj_on_of_nodup_map (hok.nums.nodup_iff.mpr List.nodup_range) (List.mem_range.mpr hp)
    (List.mem_range.mpr hq) h

/-- No number of a case is printed twice. -/
lemma nodup_cases (hok : s₀.Ok name live) (hcells : ∀ e ∈ es, s₀.ActCell e.prod e.pos e.act)
    (hnodup : es.Nodup) : ((s₀.cases s₀.numProductons es).map CaseArgs.caseVal).Nodup := by
  induction es using List.reverseRecOn with
  | nil => exact List.nodup_nil
  | append_singleton es e ih =>
    obtain ⟨hes, -, hdisj⟩ := List.nodup_append.mp hnodup
    have hcell := hcells e (List.mem_append_right es (List.mem_singleton_self e))
    have hcells' : ∀ e ∈ es, s₀.ActCell e.prod e.pos e.act :=
      fun e he => hcells e (List.mem_append_left _ he)
    rw [cases_append_singleton, List.map_append, List.map_singleton]
    refine List.nodup_append.mpr ⟨ih hcells' hes, List.nodup_singleton _, ?_⟩
    rintro n hn _ hm rfl
    rw [List.mem_singleton] at hm
    obtain ⟨c, hc, hcn⟩ := List.mem_map.mp hn
    rw [hm] at hcn
    rcases mem_cases.mp hc with ⟨e', he', htr', rfl⟩ | ⟨j, e', hj, rfl⟩
    · have hcell' := hcells' e' he'
      have hlt := hok.num_lt hcell'.lt_brk
      change (s₀.prod e'.prod).num = ite _ _ _ at hcn
      split at hcn
      · rename_i htr
        obtain ⟨p, i, a⟩ := e
        obtain ⟨p', i', a'⟩ := e'
        obtain rfl : p' = p := hok.num_inj hcell'.lt_brk hcell.lt_brk hcn
        unfold Trailing at htr htr'
        obtain rfl : i' = i := by
          dsimp only at htr htr'
          omega
        obtain rfl : a' = a := Option.some.inj (hcell'.cell.symm.trans hcell.cell)
        exact hdisj _ he' _ (List.mem_singleton_self _) rfl
      · omega
    · have hlt := (List.getElem?_eq_some_iff.mp hj).1
      have hlt' := hok.num_lt hcell.lt_brk
      change s₀.numProductons + j = ite _ _ _ at hcn
      split at hcn <;> omega

end PatchTab

/-! ## The whole pass -/

/-- The table `s'` is what `patch` makes of the table `s`, with the symbols `live'` that are left of
`live`. -/
structure PatchTab.Patched (opt : PatchOpt) (name : ℕ → Lexeme) (live live' : List ℕ)
    (s s' : PatchTab) : Prop where
  /-- It is a symbol table: `rhsLen` is the index of the first null pointer, and each number is used
  once. -/
  ok : s'.Ok name live'
  /-- The actions at the end of a right-hand side are not in the table any more. -/
  mem_live : ∀ a, a ∈ live' ↔ a ∈ live ∧ ∀ p i, s.ActCell p i a → ¬ s.Trailing p i
  /-- No right-hand side has an action. -/
  not_act : ∀ p < s'.brk, ∀ i < (s'.prod p).rhsLen, ∀ a, (s'.prod p).rhs i = some a →
    ¬ IsAct (s'.sym a).val
  /-- A production without an action at its end. -/
  kept : ∀ p < s.brk, (∀ i a, s.ActCell p i a → ¬ s.Trailing p i) → s'.prod p = s.prod p
  /-- An action at the end of a right-hand side is printed under the number of the production and
  removed. -/
  trailing : ∀ p i a, s.ActCell p i a → s.Trailing p i → s'.prod p = (s.prod p).cut ∧
    (opt.makeActions = true → s.caseOf (s.prod p).num ⟨p, i, a⟩ ∈ s'.output.map Case.toCaseArgs)
  /-- Any other action is a new nonterminal, and is printed under the number of its only production,
  which is empty. -/
  embedded : ∀ p i a, s.ActCell p i a → ¬ s.Trailing p i →
    s.currnonterm < (s'.sym a).val ∧ IsNonterm (s'.sym a).val ∧ s'.terms (s'.sym a).val = some a ∧
    ∃ q, s.brk ≤ q ∧ q < s'.brk ∧ (s'.sym a).productions = [q] ∧ (s'.prod q).lhs = a ∧
      (s'.prod q).rhsLen = 0 ∧
      (opt.makeActions = true → s.caseOf (s'.prod q).num ⟨p, i, a⟩ ∈ s'.output.map Case.toCaseArgs)
  /-- The symbols that become no nonterminals are as before. -/
  sym_kept : ∀ a, (∀ p i, s.ActCell p i a → s.Trailing p i) → s'.sym a = s.sym a
  /-- No number is printed twice. -/
  nodup_cases : (s'.output.map fun c => c.caseVal).Nodup
  /-- Only actions are printed. -/
  of_case : ∀ c ∈ s'.output, ∃ a, s.ActCell c.prod c.rhsSize a ∧ if s.Trailing c.prod c.rhsSize then
    c.caseVal = (s.prod c.prod).num else ∃ q, (s'.sym a).productions = [q] ∧
      (s'.prod q).num = c.caseVal
  /-- No production is lost by `patch`. -/
  brk_le : s.brk ≤ s'.brk
  /-- The new productions have no symbols. -/
  new_empty : ∀ p, s.brk ≤ p → p < s'.brk → (s'.prod p).rhsLen = 0
  /-- The nonterminals derive the same words. -/
  language : ∀ a ∈ live, IsNonterm (s.sym a).val → (s'.cfg a).language = (s.cfg a).language
  /-- Every nonterminal has been visited once. -/
  visited : ∀ a ∈ live, IsNonterm (s.sym a).val → s'.visited.count a = 1

namespace Patching

variable {opt : PatchOpt} {name : ℕ → Lexeme} {live : List ℕ} {s₀ s : PatchTab} {vs : List ℕ}
  {es : List Edit}

/-- The cases that have been printed are those of the edits. -/
lemma mem_output (h : Patching opt name live s₀ vs es s) (hopt : opt.makeActions = true)
    {c : CaseArgs} : c ∈ s.output.map Case.toCaseArgs ↔ c ∈ s₀.cases s₀.numProductons es := by
  rw [h.output, if_pos hopt]

/-- When all productions have been edited, the table is patched. -/
lemma patched (h : Patching opt name live s₀ vs es s) (hok : s₀.Ok name live) (honce : s₀.ActsOnce)
    (hvs : vs.Nodup) (hmem : ∀ a ∈ live, ¬ IsAct (s₀.sym a).val → a ∈ vs)
    (hall : ∀ p < s₀.brk, s₀.Complete p es) : s₀.Patched opt name live (s₀.alive live s) s := by
  have hedit : ∀ {p i a}, s₀.ActCell p i a → (⟨p, i, a⟩ : Edit) ∈ es :=
    fun hcell => hall _ hcell.lt_brk _ _ hcell
  -- the new nonterminal of an action
  have hembed : ∀ {p i a}, s₀.ActCell p i a → ¬ s₀.Trailing p i →
      ∃ j : ℕ, (s₀.embeds es)[j]? = some (⟨p, i, a⟩ : Edit) :=
    fun hcell htrail => List.getElem?_of_mem (PatchTab.mem_embeds.mpr ⟨hedit hcell, htrail⟩)
  have hbrk := h.brk
  refine ⟨h.ok hok honce,
    ?_, ?_, ?_, ?_, ?_, ?_, ?_, ?_, by omega, ?_, fun a _ hnon => h.language_eq hok hall hnon, ?_⟩
  · intro a
    rw [h.mem_alive]
    refine and_congr_right fun _ => ⟨fun hes p i hcell htrail => hes _ (hedit hcell) htrail rfl, ?_⟩
    rintro hcells e he htrail rfl
    exact hcells _ _ (h.cells e he) htrail
  · intro p hp i hi a ha
    rcases h.prod_cases hp with hold | ⟨j, e, hj, rfl⟩
    · exact h.not_isAct hold (hall p hold) hi ha
    · rw [h.prod_new j e hj] at hi
      exact absurd hi (Nat.not_lt_zero i)
  · intro p hp hcells
    refine h.prod_of_not_mem hp fun e he hep htrail => ?_
    subst hep
    exact hcells _ _ (h.cells e he) htrail
  · intro p i a hcell htrail
    refine ⟨?_, fun hopt => (h.mem_output hopt).mpr ?_⟩
    · rw [h.prod_old p hcell.lt_brk, if_pos ⟨_, hedit hcell, rfl, htrail⟩]
    · exact PatchTab.mem_cases.mpr (Or.inl ⟨_, hedit hcell, htrail, rfl⟩)
  · intro p i a hcell htrail
    obtain ⟨j, hj⟩ := hembed hcell htrail
    obtain ⟨hval, -, hnon⟩ := h.val_new hok hj
    have hlt := (List.getElem?_eq_some_iff.mp hj).1
    have hprod := h.prod_new j _ hj
    rw [show (s.sym a).val = _ from hval]
    refine ⟨by
      omega, hnon, h.terms_new j _ hj, s₀.brk + j, by omega, by omega, ?_, ?_, ?_, fun hopt => ?_⟩
    · exact congrArg TabSym.productions (h.sym_new j _ hj)
    · rw [hprod]
    · rw [hprod]
    · rw [hprod, h.mem_output hopt]
      exact PatchTab.mem_cases.mpr (Or.inr ⟨j, _, hj, rfl⟩)
  · intro a hcells
    refine h.sym_old a ?_
    rintro e he rfl
    obtain ⟨he, htrail⟩ := PatchTab.mem_embeds.mp he
    exact htrail (hcells _ _ (h.cells e he))
  · have hmap :
        s.output.map (fun c => c.caseVal) = (s.output.map Case.toCaseArgs).map
        CaseArgs.caseVal := by
      rw [List.map_map]
      rfl
    rw [hmap, h.output]
    split
    · exact PatchTab.nodup_cases hok h.cells h.nodup
    · exact List.nodup_nil
  · intro c hc
    have hargs : c.toCaseArgs ∈ s.output.map Case.toCaseArgs := List.mem_map.mpr ⟨c, hc, rfl⟩
    rw [h.output] at hargs
    split at hargs
    · rcases PatchTab.mem_cases.mp hargs with ⟨e, he, htrail, hce⟩ | ⟨j, e, hj, hce⟩
      · rw [hce]
        refine ⟨e.act, h.cells e he, ?_⟩
        split
        · rfl
        · exact absurd htrail ‹_›
      · obtain ⟨he, htrail⟩ := PatchTab.mem_embeds.mp (List.mem_of_getElem? hj)
        rw [hce]
        refine ⟨e.act, h.cells e he, ?_⟩
        split
        · exact absurd ‹_› htrail
        · refine ⟨s₀.brk + j, congrArg TabSym.productions (h.sym_new j e hj), ?_⟩
          rw [h.prod_new j e hj]
          rfl
    · exact absurd hargs List.not_mem_nil
  · intro p hge hp
    rcases h.prod_cases hp with hold | ⟨j, e, hj, rfl⟩
    · exact absurd hold (Nat.not_lt.mpr hge)
    · rw [h.prod_new j e hj]
  · intro a ha hnon
    rw [h.visited]
    exact List.count_eq_one_of_mem hvs (hmem a ha hnon.not_isAct)

end Patching

namespace PatchTab.Patched

variable {opt : PatchOpt} {name : ℕ → Lexeme} {live live' : List ℕ} {s s' : PatchTab} {p i : ℕ}

/-- An old production keeps its number when the table is patched. -/
lemma num_eq (h : s.Patched opt name live live' s') (hp : p < s.brk) :
    (s'.prod p).num = (s.prod p).num := by
  by_cases hex : ∃ i a, s.ActCell p i a ∧ s.Trailing p i
  · obtain ⟨i, a, hcell, htrail⟩ := hex
    rw [(h.trailing p i a hcell htrail).1]
    rfl
  · rw [h.kept p hp fun i a hcell htrail => hex ⟨i, a, hcell, htrail⟩]

/-- The symbols that are left of an old right-hand side. -/
lemma rhs_eq (h : s.Patched opt name live live' s') (hp : p < s.brk) (hi : i < (s'.prod p).rhsLen) :
    i < (s.prod p).rhsLen ∧ (s'.prod p).rhs i = (s.prod p).rhs i := by
  by_cases hex : ∃ i a, s.ActCell p i a ∧ s.Trailing p i
  · obtain ⟨j, a, hcell, htrail⟩ := hex
    rw [(h.trailing p j a hcell htrail).1] at hi ⊢
    exact ⟨hi.trans_le (Nat.sub_le _ _), TabProd.cut_rhs hi⟩
  · rw [h.kept p hp fun i a hcell htrail => hex ⟨i, a, hcell, htrail⟩] at hi ⊢
    exact ⟨hi, rfl⟩

/-- A new production does not have the number 0, if there was another one. -/
lemma num_ne_zero (h : s.Patched opt name live live' s') (hok : s.Ok name live) (hpos : 0 < s.brk)
    (hge : s.brk ≤ p) (hp : p < s'.brk) : (s'.prod p).num ≠ 0 := by
  intro hzero
  have hlen := hok.nums.length_eq
  rw [List.length_map, List.length_range, List.length_range] at hlen
  obtain ⟨q, hq, hnum⟩ := List.mem_map.mp (hok.nums.mem_iff.mpr (List.mem_range.mpr (hlen ▸ hpos)))
  have hq := List.mem_range.mp hq
  have heq : (s'.prod p).num = (s'.prod q).num := by
    rw [hzero, h.num_eq hq]
    exact hnum.symm
  have hpq := h.ok.num_inj hp (hq.trans_le h.brk_le) heq
  omega

end PatchTab.Patched

/-- If there are numbers left for all actions that become nonterminals, `patch` changes the table as
it should. Otherwise the program ends with a message. -/
theorem patch_spec (opt : PatchOpt) {name : ℕ → Lexeme} {live : List ℕ} {s : PatchTab}
    (hok : s.Ok name live) (honce : s.ActsOnce) {fuel : ℕ} (hfuel : live.length ≤ fuel) :
    (s.currnonterm + s.embedded.length ≤ maxNonterm ∧
      ∃ s' live', patch opt fuel s = .ok s' ∧ s.Patched opt name live live' s') ∨
    maxNonterm < s.currnonterm + s.embedded.length ∧
    patch opt fuel s = .error (.stopped .nonterms) := by
  rcases Patching.patch_outcome hok honce opt hfuel with ⟨s', hrun, vs, es, h, hvs, hmem, hall⟩ |
    ⟨hrun, hfull⟩
  · refine Or.inl ⟨?_, s', s.alive live s', hrun, h.patched hok honce hvs hmem hall⟩
    rw [h.length_embedded honce hall, ← h.currnonterm]
    exact h.currnonterm_le
  · exact Or.inr ⟨hfull, hrun⟩

/-! ## A table with two actions -/

/-- The names of the symbols of `actionTab`, and of the actions in it. -/
def actionName : ℕ → Lexeme
  | 0 => ['s']
  | 1 => ['t']
  | n + 2 => actName n

/-- The table of a grammar with the production `s : {0} t {1}`. -/
def actionTab : PatchTab where
  symtab := [0, 1, 2, 3].foldl (hashAddSym actionName) (hashMakeTab 0 List.length fun _ _ => 0)
  sym
    | 0 => ⟨minNonterm, [], 0, none, [0], ∅⟩
    | 1 => ⟨minTerm, [], 0, none, [], ∅⟩
    | n + 2 => ⟨minAct + n, [], 1, some ['a'], [], ∅⟩
  prod _ := ⟨0, 0, fun i => [2, 1, 3][i]?, 3, 0⟩
  brk := 1
  terms n := if n = minNonterm then some 0 else if n = minTerm then some 1 else none
  currterm := minTerm
  currnonterm := minNonterm
  numProductons := 1
  output := []
  buf := []
  errors := []
  visited := []

/-- `actionTab` is a symbol table with four symbols. -/
lemma ok_actionTab : actionTab.Ok actionName [3, 2, 1, 0] where
  table :=
    ((((live_hashMakeTab _ _ _ _).add (by decide)).add (by decide)).add (by decide)).add (by decide)
  currnonterm := by decide
  nonterm_le := by decide
  nonterm_inj := by decide
  chain := by
    intro a ha hnon p
    have hzero : a = 0 := by
      revert a
      decide
    subst hzero
    change p ∈ [0] ↔ p < 1 ∧ 0 = 0
    rw [List.mem_singleton]
    omega
  string := by decide
  lhs := by decide
  rhs := by
    intro p _
    refine ⟨rfl, fun i hi => ?_⟩
    have hnone : [2, 1, 3][i]? = none := hi
    exact List.getElem?_eq_none_iff.mp hnone
  rhsLen_le := by decide
  rhs_mem := by
    intro p _ i _ a ha
    have hall : ∀ a ∈ [2, 1, 3], a ∈ [3, 2, 1, 0] := by decide
    exact hall a (List.mem_of_getElem? ha)
  nums := by decide

/-- Each action of `actionTab` occurs once. -/
lemma actsOnce_actionTab : actionTab.ActsOnce := by
  intro p i q j a hi hj
  have hp := hi.lt_brk
  have hq := hj.lt_brk
  have hcells : ∀ i < 3, ∀ j < 3, [2, 1, 3][i]? = [2, 1, 3][j]? → i = j := by decide
  have hij := hcells i hi.lt_rhsLen j hj.lt_rhsLen (hi.cell.trans hj.cell.symm)
  change p < 1 at hp
  change q < 1 at hq
  exact ⟨by omega, hij⟩

/-- Theorem `patch_spec` for `actionTab`, where one of two actions becomes a nonterminal. -/
theorem patch_spec_actionTab :
    actionTab.embedded = [2] ∧ ∃ s' live', patch ⟨true, false⟩ 4 actionTab = .ok s' ∧
    actionTab.Patched ⟨true, false⟩ actionName [3, 2, 1, 0] live' s' := by
  have hembedded : actionTab.embedded = [2] := by decide
  rcases patch_spec ⟨true, false⟩ ok_actionTab actsOnce_actionTab
      (show [3, 2, 1, 0].length ≤ 4 by decide) with ⟨-, h⟩ | ⟨hfull, -⟩
  · exact ⟨hembedded, h⟩
  · rw [hembedded] at hfull
    exact absurd hfull (by decide)

end Parser
