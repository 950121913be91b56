import Cgkits.Lib.Spine
import Cgkits.Parser.Closure
import Cgkits.Parser.Patched

/-!
# The FIRST sets behind `patch`

`do_file` calls `first` before `patch`, so the FIRST sets that `lr` works with are those of the
rules as they have been read, in which actions are invisible.  An action that becomes a nonterminal
gets the set `{EPSILON}` from `patch`: `patchedFirst`.

`Patches` says in values what `patch` makes of the rules, and `patches_of_patch` that it does.  The
sets have everything in them that the new rules need (`firstCovers_patchedFirst`).  They are right
for the new rules when those of `first` are right for the old ones (`firstExact_patchedFirst`).
-/

namespace Parser

open ContextFree

/-! ## FIRST sets for the automaton -/

namespace Grammar

variable {G : Grammar} {F : SetTable}

variable (G F) in
/-- The FIRST sets have everything in them that can come next: a nonterminal that derives the empty
word is marked, and terminals are passed on to the left-hand sides. -/
structure FirstCovers : Prop where
  /-- A left-hand side is marked when its right-hand side vanishes. -/
  null : NullClosed (g := G.cfg) fun B => G.Nullable F B
  /-- The terminals of what a scan comes to are in FIRST of the left-hand side. -/
  front : ∀ p ∈ G.prods, ∀ y, G.Front F p.rhs y → ∀ t ≤ G.currterm, FirstOf F y t → t ∈ F p.lhs

variable (G F) in
/-- The FIRST sets say the truth about what can follow inside a production. -/
structure FirstExact : Prop where
  /-- What follows begins the symbols behind the one right of the dot. -/
  first : ∀ c : Core, c.1 ∈ G.prods → ∀ t ∈ G.firstAfter F c,
    t ≤ G.currterm ∧ FirstBy (g := G.cfg) (ContextFree.Nullable G.cfg) (form (afterDot c)) t
  /-- These symbols are passed only if they vanish. -/
  null : ∀ c : Core, G.NullableAfter F c → AllNull (ContextFree.Nullable G.cfg) (form (afterDot c))

variable (G F) in
/-- Every terminal in a FIRST set stands in a form that its nonterminal derives. -/
def FirstStands : Prop :=
  ∀ y, ∀ t ∈ F y, t ≠ G.epsilon → ∃ δ, G.cfg.Derives [.nonterminal y] δ ∧ .terminal t ∈ δ

/-- A closed table marks every nonterminal that derives the empty word. -/
lemma FirstClosed.nullClosed (hF : G.FirstClosed F) :
    NullClosed (g := G.cfg) fun B => G.Nullable F B := by
  intro r hr hnull
  obtain ⟨p, hp, rfl⟩ := mem_rules.mp hr
  refine ⟨G.isNonterm_lhs hp, ?_⟩
  cases hform : form p.rhs with
  | nil => exact hF.empty p hp (form_eq_nil_iff.mp hform)
  | cons sym β =>
    obtain ⟨α, y, β, hrhs, hα, hy, -⟩ := exists_of_form_eq_cons hform
    obtain ⟨B, rfl, hB⟩ := hnull sym (show sym ∈ form p.rhs by rw [hform]; exact List.mem_cons_self)
    obtain ⟨hact, hterm, rfl⟩ := toSymbol_eq_nonterminal hy
    have hfront : G.Front F p.rhs y := ⟨hact, α, β, hrhs, fun a ha => Or.inl (hα a ha)⟩
    refine hF.front p hp y hfront G.epsilon ?_
    unfold FirstOf
    rw [if_neg hterm]
    exact hB.2

section After

variable {c : Core} {t : ℕ}

/-- What can follow the symbol right of the dot is FIRST of a symbol that a scan comes to. -/
lemma mem_firstAfter_iff : t ∈ G.firstAfter F c ↔
    t ≠ G.epsilon ∧ ∃ y, G.Front F (afterDot c) y ∧ FirstOf F y t := by
  unfold firstAfter
  by_cases hnil : afterDot c = []
  · rw [if_pos hnil, hnil]
    simp
  · rw [if_neg hnil, Finset.mem_erase]
    unfold firstRhs
    rw [if_neg (by simpa using hnil), mem_firstScan]
    simp

/-- The symbols behind the one right of the dot are passed when all of them are. -/
lemma nullableAfter_iff_passed : G.NullableAfter F c ↔ ∀ x ∈ afterDot c, G.Passed F x := by
  unfold NullableAfter
  by_cases hnil : afterDot c = []
  · simp [hnil]
  · unfold firstRhs
    rw [if_neg (by simpa using hnil), firstScan_snd]
    exact or_iff_right hnil

/-- What begins the symbols behind the one right of the dot can follow it inside the production. -/
lemma FirstCovers.mem_firstAfter (hF : G.FirstCovers F)
    (h : FirstBy (g := G.cfg) (fun B => G.Nullable F B) (form (afterDot c)) t)
    (ht : t ≤ G.currterm) : t ∈ G.firstAfter F c :=
  mem_firstAfter_iff.mpr ⟨ne_epsilon_of_le ht, front_of_firstBy (P := fun B => G.Nullable F B)
    (fun _ => id) (fun p hp y hy hyt => hF.front p hp y hy t ht hyt) h rfl⟩

/-- A symbol of a sequence that is no action is a symbol of its form. -/
lemma exists_mem_form {γ : List ℕ} {y : ℕ} (hy : y ∈ γ) (hact : ¬ IsAct y) :
    (IsTerm y ∧ .terminal y ∈ form γ) ∨ (¬ IsTerm y ∧ .nonterminal y ∈ form γ) := by
  have hmem : ∀ sym, toSymbol y = some sym → sym ∈ form γ :=
    fun sym h => List.mem_filterMap.mpr ⟨y, hy, h⟩
  unfold toSymbol at hmem
  rw [if_neg hact] at hmem
  by_cases hterm : IsTerm y
  · exact .inl ⟨hterm, hmem _ (if_pos hterm)⟩
  · exact .inr ⟨hterm, hmem _ (if_neg hterm)⟩

/-- What can follow inside a production stands in a form that is derived from the symbols behind the
dot. -/
lemma FirstStands.exists_derives (hF : G.FirstStands F) (h : t ∈ G.firstAfter F c) :
    ∃ δ, G.cfg.Derives (form (afterDot c)) δ ∧ .terminal t ∈ δ := by
  obtain ⟨hne, y, ⟨hact, α, β, hafter, -⟩, hy⟩ := mem_firstAfter_iff.mp h
  have hmem : y ∈ afterDot c := by
    rw [hafter]
    exact List.mem_append_right α List.mem_cons_self
  unfold FirstOf at hy
  rcases exists_mem_form hmem hact with ⟨hterm, hform⟩ | ⟨hterm, hform⟩
  · rw [if_pos hterm] at hy
    exact ⟨_, .refl _, hy ▸ hform⟩
  · rw [if_neg hterm] at hy
    obtain ⟨δ, hδ, ht⟩ := hF y t hy hne
    obtain ⟨δ₁, δ₂, hsplit⟩ := List.append_of_mem hform
    refine ⟨δ₁ ++ δ ++ δ₂, ?_, List.mem_append_left _ (List.mem_append_right _ ht)⟩
    rw [hsplit, List.append_cons]
    exact (hδ.append_left δ₁).append_right δ₂

end After

/-! ## What `patch` makes of the rules -/

/-- The symbols of a right-hand side that `patch` leaves: an action at its end is removed. -/
def cutAct (rhs : List ℕ) : List ℕ :=
  match rhs.getLast? with
  | none => rhs
  | some a => if IsAct a then rhs.dropLast else rhs

/-- `patch` makes the production `p` of the production `q`: the other actions become nonterminals
with numbers behind those of the grammar. -/
structure Edited (G₀ : Grammar) (q p : Production) : Prop where
  /-- The number of the production is the same. -/
  num : p.num = q.num
  /-- The left-hand side of the production is the same. -/
  lhs : p.lhs = q.lhs
  /-- The precedence of the production is the same. -/
  prec : p.prec = q.prec
  /-- The symbols are the same, with nonterminals for actions. -/
  rhs : List.Forall₂ (fun x y => if IsAct x then G₀.currnonterm < y else y = x) (cutAct q.rhs) p.rhs

instance (G₀ : Grammar) (q p : Production) : Decidable (G₀.Edited q p) :=
  decidable_of_iff (p.num = q.num ∧ p.lhs = q.lhs ∧ p.prec = q.prec ∧
      List.Forall₂ (fun x y => if IsAct x then G₀.currnonterm < y else y = x) (cutAct q.rhs) p.rhs)
    ⟨fun h => ⟨h.1, h.2.1, h.2.2.1, h.2.2.2⟩, fun h => ⟨h.num, h.lhs, h.prec, h.rhs⟩⟩

/-- `patch` makes the rules of `G` of the rules of `G₀`. -/
structure Patches (G₀ G : Grammar) : Prop where
  /-- The terminals are the same. -/
  currterm : G.currterm = G₀.currterm
  /-- The goal symbol is the same. -/
  goalSymbol : G.goalSymbol = G₀.goalSymbol
  /-- There may be new nonterminals. -/
  currnonterm_le : G₀.currnonterm ≤ G.currnonterm
  /-- No action is left in the productions. -/
  noActs : ∀ p ∈ G.prods, ∀ x ∈ p.rhs, ¬ IsAct x
  /-- Every production has been made of an old one, or is the empty production of a new
  nonterminal. -/
  cases : ∀ p ∈ G.prods, (∃ q ∈ G₀.prods, G₀.Edited q p) ∨ (G₀.currnonterm < p.lhs ∧ p.rhs = [])
  /-- No production is lost by `patch`. -/
  kept : ∀ q ∈ G₀.prods, ∃ p ∈ G.prods, G₀.Edited q p
  /-- Every new nonterminal has an empty production. -/
  empty : ∀ x, G₀.currnonterm < x → x ≤ G.currnonterm → ∃ p ∈ G.prods, p.lhs = x ∧ p.rhs = []

variable (G) in
/-- The FIRST sets in the table behind `patch`, of which the grammar is `G`. -/
def patchedFirst {G₀ : Grammar} (walk : G₀.Walk) : SetTable := fun x =>
  if x ≤ G₀.currnonterm then firstSets walk x else if x ≤ G.currnonterm then {G₀.epsilon} else ∅

/-- What is removed from a right-hand side is an action. -/
lemma exists_cutAct (rhs : List ℕ) : ∃ tail, rhs = cutAct rhs ++ tail ∧ ∀ x ∈ tail, IsAct x := by
  unfold cutAct
  split
  · exact ⟨[], (List.append_nil rhs).symm, fun x hx => absurd hx List.not_mem_nil⟩
  · rename_i a ha
    split
    · rename_i hact
      refine ⟨[a], (List.dropLast_append_getLast? a ha).symm, fun x hx => ?_⟩
      rwa [List.mem_singleton.mp hx]
    · exact ⟨[], (List.append_nil rhs).symm, fun x hx => absurd hx List.not_mem_nil⟩

section Edited

variable {G₀ : Grammar} {p q : Production} {x y : ℕ}

/-- A symbol of an old right-hand side that is no action has a number of the old grammar. -/
lemma le_currnonterm_of_mem_rhs (hq : q ∈ G₀.prods) (hx : x ∈ q.rhs) (hact : ¬ IsAct x) :
    x ≤ G₀.currnonterm := by
  have hterm := G₀.currterm_le
  have hgoal := G₀.goalSymbol_mem
  rw [isAct_iff] at hact
  unfold maxTerm minNonterm at hterm
  unfold minNonterm at hgoal
  rcases G₀.rhs_mem q hq x hx with h | h | h
  · omega
  · exact h.2
  · unfold minAct at h
    omega

/-- A split of an edited right-hand side at an old symbol is one of the right-hand side before, with
the symbols in front edited. -/
lemma Edited.exists_split (h : G₀.Edited q p) {α β : List ℕ} (hrhs : p.rhs = α ++ y :: β)
    (hy : y ≤ G₀.currnonterm) : ∃ α' β', q.rhs = α' ++ y :: β' ∧ ¬ IsAct y ∧ ∀ x ∈ α', IsAct x ∨
    x ∈ α := by
  obtain ⟨tail, htail, -⟩ := exists_cutAct q.rhs
  have hsplit :
      ∀ {l α : List ℕ}, List.Forall₂ (fun x y => if IsAct x then G₀.currnonterm < y else y = x) l
        (α ++ y :: β) → ∃ α' β', l = α' ++ y :: β' ∧ ¬ IsAct y ∧ ∀ x ∈ α', IsAct x ∨ x ∈ α := by
    intro l α hl
    induction α generalizing l with
    | nil =>
      obtain ⟨z, l, hz, -, rfl⟩ := List.forall₂_cons_right_iff.mp hl
      split at hz
      · omega
      · obtain rfl := hz
        exact ⟨[], l, rfl, ‹_›, fun x hx => absurd hx List.not_mem_nil⟩
    | cons a α ih =>
      obtain ⟨z, l, hz, hrest, rfl⟩ := List.forall₂_cons_right_iff.mp hl
      obtain ⟨α', β', rfl, hact, hα'⟩ := ih hrest
      refine ⟨z :: α', β', rfl, hact, List.forall_mem_cons.mpr ⟨?_, fun x hx => ?_⟩⟩
      · split at hz
        · exact .inl ‹_›
        · exact .inr (hz ▸ List.mem_cons_self)
      · exact (hα' x hx).imp_right (List.mem_cons_of_mem a)
  obtain ⟨α', β', hcut, hact, hα'⟩ := hsplit (hrhs ▸ h.rhs)
  refine ⟨α', β' ++ tail, ?_, hact, hα'⟩
  rw [htail, hcut, List.append_assoc, List.cons_append]

end Edited

/-! ## The two grammars -/

variable {G₀ : Grammar}

/-- The nonterminals of the grammar `G₀` in the grammar `G`; those that are new are invisible. -/
def oldNonterm (G₀ G : Grammar) (x : ℕ) : Option ℕ := if G₀.currnonterm < x ∧ x ≤ G.currnonterm then
    none else some x

/-- A nonterminal of the grammar before `patch` is visible in it. -/
lemma oldNonterm_of_le {x : ℕ} (h : x ≤ G₀.currnonterm) : G₀.oldNonterm G x = some x :=
  if_neg fun hx => by omega

/-- The form of a right-hand side without the new nonterminals is the form of the right-hand side
before. -/
lemma Patches.erase_form (h : G₀.Patches G) {p q : Production} (hp : p ∈ G.prods)
    (hq : q ∈ G₀.prods) (hedited : G₀.Edited q p) :
    erase (G₀.oldNonterm G) (form p.rhs) = form q.rhs := by
  obtain ⟨tail, htail, hacts⟩ := exists_cutAct q.rhs
  have hnil : form tail = [] :=
    List.filterMap_eq_nil_iff.mpr fun x hx => if_pos (hacts x hx)
  have hle := G.currnonterm_le
  have hmin := G₀.goalSymbol_mem
  have hform :
      ∀ {l l' : List ℕ}, List.Forall₂ (fun x y => if IsAct x then G₀.currnonterm < y else y = x) l
        l' → (∀ x ∈ l, x ∈ q.rhs) → (∀ x ∈ l', x ∈ p.rhs) →
        erase (G₀.oldNonterm G) (form l') = form l := by
    intro l l' hl
    induction hl with
    | nil => exact fun _ _ => rfl
    | @cons x y l l' hxy _ ih =>
      intro hmem hmem'
      rw [List.forall_mem_cons] at hmem hmem'
      have hrest := ih hmem.2 hmem'.2
      split at hxy
      · -- an action is a new nonterminal
        rename_i hact
        have hnon : IsNonterm y ∧ y ≤ G.currnonterm := by
          have hnoact := h.noActs p hp y hmem'.1
          rw [isAct_iff] at hnoact
          rw [isNonterm_iff]
          unfold minNonterm at hmin
          unfold maxNonterm minAct at hle
          rcases G.rhs_mem p hp y hmem'.1 with hy | hy | hy
          · have hterm := G.currterm_le
            unfold maxTerm minNonterm at hterm
            omega
          · unfold minNonterm at hy
            omega
          · unfold minAct at hy
            omega
        have hnone : G₀.oldNonterm G y = none := if_pos ⟨hxy, hnon.2⟩
        rw [form_cons_nonterm hnon.1, form_cons_act hact, erase_cons_none hnone, hrest]
      · subst hxy
        rename_i hact
        have hold := le_currnonterm_of_mem_rhs hq hmem.1 hact
        by_cases hterm : IsTerm y
        · rw [form_cons_term hterm, form_cons_term hterm, erase_cons_terminal, hrest]
        · have hnon : IsNonterm y :=
            (rhs_cases hq hmem.1).resolve_left (fun hy => hterm hy.1) |>.resolve_right hact
          rw [form_cons_nonterm hnon, form_cons_nonterm hnon,
            erase_cons_some (oldNonterm_of_le hold), hrest]
  calc erase (G₀.oldNonterm G) (form p.rhs) = form (cutAct q.rhs) :=
        hform hedited.rhs (fun x hx => htail ▸ List.mem_append_left tail hx) fun _ => id
    _ = form (cutAct q.rhs) ++ form tail := by rw [hnil, List.append_nil]
    _ = form q.rhs := by rw [← form_append, ← htail]

/-- A left-hand side of the grammar before is visible. -/
lemma oldNonterm_lhs {q : Production} (hq : q ∈ G₀.prods) : G₀.oldNonterm G q.lhs = some q.lhs :=
  oldNonterm_of_le (G₀.lhs_mem q hq).2

/-- The rules are the old ones, with invisible nonterminals. -/
lemma Patches.erases (h : G₀.Patches G) : @Erases ℕ G₀.cfg G.cfg (G₀.oldNonterm G) := by
  refine ⟨?_, ?_, ?_, ?_⟩
  · intro r hr hnone
    obtain ⟨p, hp, rfl⟩ := mem_rules.mp hr
    rcases h.cases p hp with ⟨q, hq, hedited⟩ | ⟨-, hrhs⟩
    · have hlhs : G₀.oldNonterm G p.lhs = some q.lhs :=
        (congrArg _ hedited.lhs).trans (oldNonterm_lhs hq)
      rw [show G₀.oldNonterm G p.lhs = none from hnone] at hlhs
      cases hlhs
    · change erase _ (form p.rhs) = []
      rw [hrhs]
      rfl
  · intro r hr A hA
    obtain ⟨p, hp, rfl⟩ := mem_rules.mp hr
    rcases h.cases p hp with ⟨q, hq, hedited⟩ | ⟨hlt, -⟩
    · have hlhs : G₀.oldNonterm G p.lhs = some q.lhs :=
        (congrArg _ hedited.lhs).trans (oldNonterm_lhs hq)
      obtain rfl : A = q.lhs :=
        Option.some.inj ((show G₀.oldNonterm G p.lhs = some A from hA).symm.trans hlhs)
      refine mem_rules.mpr ⟨q, hq, ?_⟩
      rw [Production.rule, ← h.erase_form hp hq hedited]
      rfl
    · have hnone : G₀.oldNonterm G p.lhs = none := if_pos ⟨hlt, (G.lhs_mem p hp).2⟩
      rw [show G₀.oldNonterm G p.lhs = some A from hA] at hnone
      cases hnone
  · intro r hr A' hA'
    obtain ⟨q, hq, rfl⟩ := mem_rules.mp hr
    obtain ⟨p, hp, hedited⟩ := h.kept q hq
    refine ⟨p.rule, rule_mem hp, ?_, h.erase_form hp hq hedited⟩
    have hsome : G₀.oldNonterm G A' = some q.lhs := hA'
    unfold oldNonterm at hsome
    split at hsome
    · cases hsome
    · exact hedited.lhs.trans (Option.some.inj hsome).symm
  · intro A' hA'
    have hnone : G₀.oldNonterm G A' = none := hA'
    unfold oldNonterm at hnone
    split at hnone
    · rename_i hnew
      obtain ⟨p, hp, rfl, hrhs⟩ := h.empty A' hnew.1 hnew.2
      refine mem_rules.mpr ⟨p, hp, ?_⟩
      rw [Production.rule, hrhs]
      rfl
    · cases hnone

section Walk

variable (walk : G₀.Walk) {x t : ℕ}

/-- The FIRST set of a nonterminal of the grammar before. -/
lemma patchedFirst_of_le (hx : x ≤ G₀.currnonterm) : G.patchedFirst walk x = firstSets walk x :=
  if_pos hx

/-- What is in a FIRST set is in that of a nonterminal of the grammar before, or is the mark of a
new nonterminal. -/
lemma mem_patchedFirst (ht : t ∈ G.patchedFirst walk x) :
    (x ≤ G₀.currnonterm ∧ t ∈ firstSets walk x) ∨
    (G₀.currnonterm < x ∧ x ≤ G.currnonterm ∧ t = G₀.epsilon) := by
  unfold patchedFirst at ht
  split at ht
  · exact .inl ⟨‹_›, ht⟩
  · split at ht
    · exact .inr ⟨not_le.mp ‹_›, ‹_›, Finset.mem_singleton.mp ht⟩
    · exact absurd ht (Finset.notMem_empty t)

/-- The marker for the empty string is the same in both grammars. -/
lemma Patches.epsilon_eq (h : G₀.Patches G) : G.epsilon = G₀.epsilon := congrArg (· + 1) h.currterm

/-- A nonterminal of the grammar before is marked as before. -/
lemma Patches.nullable_iff (h : G₀.Patches G) (hx : x ≤ G₀.currnonterm) :
    G.Nullable (G.patchedFirst walk) x ↔ G₀.Nullable (firstSets walk) x := by
  unfold Nullable
  rw [h.epsilon_eq, patchedFirst_of_le walk hx]

/-- The FIRST sets behind `patch` have everything in them that can come next. -/
theorem firstCovers_patchedFirst (h : G₀.Patches G) : G.FirstCovers (G.patchedFirst walk) where
  null := by
    intro r hr hnull
    obtain ⟨p, hp, rfl⟩ := mem_rules.mp hr
    refine ⟨G.isNonterm_lhs hp, ?_⟩
    rcases h.cases p hp with ⟨q, hq, hedited⟩ | ⟨hlt, -⟩
    · have hnull₀ :
          AllNull (g := G₀.cfg) (fun B => G₀.Nullable (firstSets walk) B) q.rule.output := by
        intro sym hsym
        rw [show q.rule.output = _ from (h.erase_form hp hq hedited).symm] at hsym
        obtain ⟨sym', hsym', herase⟩ := List.mem_filterMap.mp hsym
        obtain ⟨B, rfl, hB⟩ := hnull sym' hsym'
        obtain ⟨B', hB', rfl⟩ := Option.map_eq_some_iff.mp herase
        rcases mem_patchedFirst walk hB.2 with ⟨hle, -⟩ | ⟨hlt, hle, -⟩
        · obtain rfl : B = B' := Option.some.inj ((oldNonterm_of_le hle).symm.trans hB')
          exact ⟨B, rfl, (h.nullable_iff walk hle).mp hB⟩
        · rw [show G₀.oldNonterm G B = none from if_pos ⟨hlt, hle⟩] at hB'
          cases hB'
      have hmark := (firstSets_spec walk).2.nullClosed q.rule (rule_mem hq) hnull₀
      rw [show p.rule.input = q.lhs from hedited.lhs]
      exact ((h.nullable_iff walk (G₀.lhs_mem q hq).2).mpr hmark).2
    · change G.epsilon ∈ G.patchedFirst walk p.lhs
      unfold patchedFirst
      rw [if_neg (not_le.mpr hlt), if_pos (G.lhs_mem p hp).2, h.epsilon_eq]
      exact Finset.mem_singleton_self _
  front := by
    rintro p hp y ⟨hact, α, β, hrhs, hα⟩ t ht hy
    have hne : t ≠ G₀.epsilon := ne_epsilon_of_le (h.currterm ▸ ht)
    rcases h.cases p hp with ⟨q, hq, hedited⟩ | ⟨-, hnil⟩
    swap
    · rw [hnil] at hrhs
      exact absurd hrhs.symm (List.append_ne_nil_of_right_ne_nil α (List.cons_ne_nil y β))
    have hold : y ≤ G₀.currnonterm := by
      unfold FirstOf at hy
      split at hy
      · rename_i hterm
        have hmin := G₀.goalSymbol_mem
        unfold IsTerm maxTerm at hterm
        omega
      · rcases mem_patchedFirst walk hy with ⟨hle, -⟩ | ⟨-, -, heq⟩
        · exact hle
        · exact absurd heq hne
    obtain ⟨α', β', hrhs', -, hα'⟩ := hedited.exists_split hrhs hold
    rw [hedited.lhs, patchedFirst_of_le walk (G₀.lhs_mem q hq).2]
    refine (firstSets_spec walk).2.front q hq y ⟨hact, α', β', hrhs', fun x hx => ?_⟩ t ?_
    · by_cases hxact : IsAct x
      · exact .inl hxact
      · have hx' : x ≤ G₀.currnonterm :=
          le_currnonterm_of_mem_rhs hq (hrhs' ▸ List.mem_append_left _ hx) hxact
        exact (hα x ((hα' x hx).resolve_left hxact)).imp_right (h.nullable_iff walk hx').mp
    · unfold FirstOf at hy ⊢
      rwa [patchedFirst_of_le walk hold] at hy

/-- The FIRST sets behind `patch` are exact when no right-hand side of the grammar before starts
with a nonterminal that derives the empty word without deriving it. -/
theorem firstExact_patchedFirst (h : G₀.Patches G) (hfront : G₀.FrontNullable) :
    G.FirstExact (G.patchedFirst walk) := by
  have hpred : ChainNull G₀.cfg = ContextFree.Nullable G₀.cfg :=
    funext fun B => propext (chainNull_iff_frontNullable.mpr hfront B)
  have hmarked : ∀ B, G.epsilon ∈ G.patchedFirst walk B → ContextFree.Nullable G.cfg B := by
    intro B hB
    refine h.erases.nullable_of_erase fun B' hB' => ?_
    rcases mem_patchedFirst walk hB with ⟨hle, hmem⟩ | ⟨hlt, hle, -⟩
    · obtain rfl : B = B' := Option.some.inj ((oldNonterm_of_le hle).symm.trans hB')
      rw [h.epsilon_eq] at hmem
      exact hpred ▸ (firstSets_spec walk).1.chainNull hmem
    · rw [show G₀.oldNonterm G B = none from if_pos ⟨hlt, hle⟩] at hB'
      cases hB'
  refine ⟨fun c hc t ht => ?_, fun c hnull => ?_⟩
  · obtain ⟨hne, y, ⟨hact, α, β, hafter, hα⟩, hy⟩ := mem_firstAfter_iff.mp ht
    have hrhs : y ∈ c.1.rhs := by
      apply List.mem_of_mem_drop (i := c.2 + 1)
      change y ∈ afterDot c
      rw [hafter]
      exact List.mem_append_right α List.mem_cons_self
    have hpassed := allNull_of_passed hmarked hα
    rw [hafter, form_append]
    suffices hfirst : t ≤ G.currterm ∧ FirstBy (ContextFree.Nullable G.cfg) (form (y :: β)) t from
      ⟨hfirst.1, firstBy_append.mpr (.inr ⟨hpassed, hfirst.2⟩)⟩
    unfold FirstOf at hy
    by_cases hterm : IsTerm y
    · rw [if_pos hterm] at hy
      subst hy
      refine ⟨?_, ?_⟩
      · rcases rhs_cases hc hrhs with hle | hnon | hact'
        · exact hle.2
        · exact absurd hterm hnon.not_isTerm
        · exact absurd hact' hact
      · rw [form_cons_term hterm]
        exact .terminal _ _
    · rw [if_neg hterm] at hy
      have hnon : IsNonterm y :=
        ((rhs_cases hc hrhs).resolve_left fun hle => hterm hle.1).resolve_right hact
      rw [h.epsilon_eq] at hne
      rcases mem_patchedFirst walk hy with ⟨hle, ht'⟩ | ⟨-, -, heq⟩
      · rcases (firstSets_spec walk).1 y t ht' with ⟨heq, -⟩ | ⟨hlt, hby⟩
        · exact absurd heq hne
        · refine ⟨h.currterm ▸ hlt, ?_⟩
          rw [form_cons_nonterm hnon]
          refine firstBy_cons_nonterminal.mpr (.inl (h.erases.firstBy_of_erase ?_))
          rw [erase_cons_some (oldNonterm_of_le hle), ← hpred]
          exact hby
      · exact absurd heq hne
  · exact allNull_of_passed hmarked (nullableAfter_iff_passed.mp hnull)

end Walk

end Grammar

/-! ## The run of `patch` -/

/-- A production of the table, with the values of its symbols. -/
def PatchTab.production (s : PatchTab) (p : ℕ) : Production :=
  ⟨(s.prod p).num, (s.sym (s.prod p).lhs).val, (s.prod p).symbols.map fun a => (s.sym a).val,
    (s.prod p).prec⟩

/-- The productions of the grammar are those of the table. -/
def Grammar.Of (G : Grammar) (s : PatchTab) : Prop :=
  ∀ p, p ∈ G.prods ↔ ∃ q < s.brk, s.production q = p

/-- The grammar is that of the table: its productions, terminals and nonterminals. -/
structure Grammar.OfTable (G : Grammar) (s : PatchTab) : Prop where
  /-- The productions are those of the table. -/
  of : G.Of s
  /-- The last terminal is that of the table. -/
  currterm : G.currterm = s.currterm
  /-- The last nonterminal is that of the table. -/
  currnonterm : G.currnonterm = s.currnonterm

section Patch

variable {opt : PatchOpt} {name : ℕ → Lexeme} {live live' : List ℕ} {s s' : PatchTab} {p a : ℕ}

/-- The symbols of a right-hand side are in its cells. -/
lemma TabProd.exists_cell {x : TabProd} (ha : a ∈ x.symbols) :
    ∃ i < x.rhsLen, x.rhs i = some a := by
  obtain ⟨i, hi, hcell⟩ := List.mem_filterMap.mp ha
  exact ⟨i, List.mem_range.mp hi, hcell⟩

/-- What `patch` leaves of a right-hand side, with the values before. -/
lemma PatchTab.Patched.cutAct_eq (h : s.Patched opt name live live' s') (hok : s.Ok name live)
    (hp : p < s.brk) : Grammar.cutAct (s.production p).rhs = (s'.prod p).symbols.map fun a =>
      (s.sym a).val := by
  have hrhs : (s.production p).rhs = (s.prod p).symbols.map fun a => (s.sym a).val := rfl
  have hle := hok.rhs p hp
  by_cases hex : ∃ i a, s.ActCell p i a ∧ s.Trailing p i
  · obtain ⟨i, a, hcell, htrail⟩ := hex
    have hlen : (s.prod p).rhsLen = i + 1 := htrail.symm
    rw [(h.trailing p i a hcell htrail).1, TabProd.symbols_cut hlen, hrhs,
      TabProd.symbols_eq_append hlen hcell.cell, List.map_append]
    unfold Grammar.cutAct
    simp [hcell.isAct]
  · have hkept := h.kept p hp fun i a hcell htrail => hex ⟨i, a, hcell, htrail⟩
    rw [hkept, hrhs]
    unfold Grammar.cutAct
    split
    · rfl
    · rename_i x hx
      rw [if_neg]
      intro hact
      -- the last symbol is in the last cell
      obtain ⟨n, hlen⟩ : ∃ n, (s.prod p).rhsLen = n + 1 := by
        refine Nat.exists_eq_succ_of_ne_zero fun hzero => ?_
        unfold TabProd.symbols at hx
        rw [hzero] at hx
        cases hx
      obtain ⟨b, hb⟩ := TabProd.exists_rhs hle (show n < (s.prod p).rhsLen by omega)
      rw [TabProd.symbols_eq_append hlen hb, List.map_append, List.map_singleton,
        List.getLast?_concat, Option.some.injEq] at hx
      exact hex ⟨n, b, ⟨hp, by omega, hb, hx ▸ hact⟩, hlen.symm⟩

/-- A symbol that is no action is not changed by `patch`. -/
lemma PatchTab.Patched.sym_of_not_isAct (h : s.Patched opt name live live' s')
    (ha : ¬ IsAct (s.sym a).val) : s'.sym a = s.sym a :=
  h.sym_kept a fun _ _ hcell => absurd hcell.isAct ha

/-- `patch` edits every production of the table as `Edited` says. -/
lemma PatchTab.Patched.edited {G₀ : Grammar} (h : s.Patched opt name live live' s')
    (hok : s.Ok name live) (hG₀ : G₀.OfTable s) (hp : p < s.brk) :
    G₀.Edited (s.production p) (s'.production p) := by
  have hfields : (s'.prod p).lhs = (s.prod p).lhs ∧ (s'.prod p).prec = (s.prod p).prec := by
    by_cases hex : ∃ i a, s.ActCell p i a ∧ s.Trailing p i
    · obtain ⟨i, a, hcell, htrail⟩ := hex
      rw [(h.trailing p i a hcell htrail).1]
      exact ⟨rfl, rfl⟩
    · rw [h.kept p hp fun i a hcell htrail => hex ⟨i, a, hcell, htrail⟩]
      exact ⟨rfl, rfl⟩
  refine ⟨h.num_eq hp, ?_, hfields.2, ?_⟩
  · change (s'.sym (s'.prod p).lhs).val = (s.sym (s.prod p).lhs).val
    rw [hfields.1, h.sym_of_not_isAct (hok.lhs p hp).2.not_isAct]
  · rw [h.cutAct_eq hok hp]
    change List.Forall₂ _ _ ((s'.prod p).symbols.map fun a => (s'.sym a).val)
    rw [List.forall₂_map_left_iff, List.forall₂_map_right_iff, List.forall₂_same]
    intro a ha
    obtain ⟨i, hi, hcell⟩ := TabProd.exists_cell ha
    obtain ⟨hlt, hrhs⟩ := h.rhs_eq hp hi
    rw [hrhs] at hcell
    split
    · -- the action is not at the end, or it would not be there any more
      rename_i hact
      have htrail : ¬ s.Trailing p i := by
        intro htrail
        have hlen : i + 1 = (s.prod p).rhsLen := htrail
        rw [(h.trailing p i a ⟨hp, hlt, hcell, hact⟩ htrail).1] at hi
        change i < (s.prod p).rhsLen - 1 at hi
        omega
      rw [hG₀.currnonterm]
      exact (h.embedded p i a ⟨hp, hlt, hcell, hact⟩ htrail).1
    · rename_i hact
      rw [h.sym_of_not_isAct hact]

/-- `patch` makes of the rules what `Patches` says, and leaves the FIRST sets of `patchedFirst`. -/
theorem patches_of_patch {G₀ G : Grammar} (opt : PatchOpt) (hok : s.Ok name live)
    (honce : s.ActsOnce) {fuel : ℕ} (hfuel : live.length ≤ fuel)
    (hpatch : patch opt fuel s = .ok s') (hG₀ : G₀.OfTable s) (hG : G.OfTable s')
    (hgoal : G.goalSymbol = G₀.goalSymbol) (walk : G₀.Walk)
    (hfirst : ∀ a ∈ live, IsNonterm (s.sym a).val →
      (s.sym a).first = Grammar.firstSets walk (s.sym a).val) :
    G₀.Patches G ∧ ∃ live', s'.symtab.Live name live' ∧
      ∀ a ∈ live', IsNonterm (s'.sym a).val →
        (s'.sym a).first = G.patchedFirst walk (s'.sym a).val := by
  rcases Patching.patch_outcome hok honce opt hfuel with ⟨s₁, hrun, vs, es, h, hvs, hmem, hall⟩ |
    ⟨hrun, -⟩
  swap
  · rw [hrun] at hpatch
    cases hpatch
  obtain rfl : s₁ = s' := Except.ok.inj (hrun.symm.trans hpatch)
  have hp := h.patched hok honce hvs hmem hall
  have hcurr := h.currnonterm
  have hbrk := h.brk
  refine ⟨⟨?_, hgoal, ?_, ?_, ?_, ?_, ?_⟩, s.alive live s₁, hp.ok.table, ?_⟩
  · rw [hG.currterm, hG₀.currterm, h.currterm]
  · rw [hG.currnonterm, hG₀.currnonterm]
    omega
  · intro p hpG x hx
    obtain ⟨q, hq, rfl⟩ := (hG.of p).mp hpG
    obtain ⟨a, ha, rfl⟩ := List.mem_map.mp hx
    obtain ⟨i, hi, hcell⟩ := TabProd.exists_cell ha
    exact hp.not_act q hq i hi a hcell
  · intro p hpG
    obtain ⟨q, hq, rfl⟩ := (hG.of p).mp hpG
    rcases h.prod_cases hq with hold | ⟨j, e, hj, rfl⟩
    · exact .inl ⟨_, (hG₀.of _).mpr ⟨q, hold, rfl⟩, hp.edited hok hG₀ hold⟩
    · right
      obtain ⟨hval, -, -⟩ := h.val_new hok hj
      have hprod := h.prod_new j e hj
      constructor
      · change G₀.currnonterm < (s₁.sym (s₁.prod _).lhs).val
        rw [hprod, hG₀.currnonterm]
        change _ < (s₁.sym e.act).val
        omega
      · change (s₁.prod _).symbols.map _ = []
        rw [hprod]
        rfl
  · intro q hqG
    obtain ⟨p, hlt, rfl⟩ := (hG₀.of q).mp hqG
    exact ⟨_, (hG.of _).mpr ⟨p, hlt.trans_le hp.brk_le, rfl⟩, hp.edited hok hG₀ hlt⟩
  · intro x hlt hle
    rw [hG₀.currnonterm] at hlt
    rw [hG.currnonterm] at hle
    obtain ⟨j, rfl⟩ := Nat.exists_eq_add_of_le hlt
    have hj : j < (s.embeds es).length := by omega
    obtain ⟨e, he⟩ : ∃ e, (s.embeds es)[j]? = some e := ⟨_, List.getElem?_eq_getElem hj⟩
    have hprod := h.prod_new j e he
    refine ⟨s₁.production (s.brk + j), (hG.of _).mpr ⟨_, by omega, rfl⟩, ?_, ?_⟩
    · change (s₁.sym (s₁.prod _).lhs).val = _
      rw [hprod]
      exact (h.val_new hok he).1
    · change (s₁.prod _).symbols.map _ = []
      rw [hprod]
      rfl
  · intro a ha hnon
    have hlive := ((hp.mem_live a).mp ha).1
    unfold Grammar.patchedFirst
    rw [hG₀.currnonterm, hG.currnonterm]
    rcases h.sym_cases a with ⟨j, e, hj, rfl⟩ | hsym
    · obtain ⟨hval, hle, -⟩ := h.val_new hok hj
      rw [if_neg (by omega), if_pos (by omega), h.sym_new j e hj]
      unfold Grammar.epsilon PatchTab.epsilon
      rw [hG₀.currterm]
    · rw [hsym] at hnon ⊢
      rw [if_pos (hok.nonterm_le a hlive hnon)]
      exact hfirst a hlive hnon

end Patch

end Parser
