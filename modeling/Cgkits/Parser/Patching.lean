import Cgkits.Parser.Patch

/-!
# The edits of `patch`

Every step of the loops of `dopatch` that changes something is an edit: an action is printed, and
removed or made a nonterminal.  `Patching` describes the table after a list of edits, in terms of
the table in front of all of them, and `Patching.trail` and `Patching.embed` say that a step adds
one edit.  The loops treat the productions one after the other, each of them completely or not at
all, and `Patching.patch_outcome` says that at the end all actions have been edited, or that there
were too many of them.
-/

namespace Parser

open Support

/-! ## Edits -/

/-- The action in a cell is printed, and removed or made a nonterminal. -/
structure Edit where
  /-- The production that is edited. -/
  prod : ℕ
  /-- The position in its right-hand side. -/
  pos : ℕ
  /-- The action that stands there. -/
  act : ℕ
deriving DecidableEq

namespace PatchTab

variable (s₀ : PatchTab)

/-- The edits that make a nonterminal of an action. -/
def embeds (es : List Edit) : List Edit := es.filter fun e => ¬ s₀.Trailing e.prod e.pos

/-- The case that is printed for an edit, with the number it gets. -/
def caseOf (n : ℕ) (e : Edit) : CaseArgs :=
  ⟨n, (s₀.sym e.act).string.getD [], e.pos, (s₀.sym e.act).lineno, e.prod⟩

/-- The cases that are printed for edits, if the next new production has the number `n`. -/
def cases : ℕ → List Edit → List CaseArgs
  | _, [] => []
  | n, e :: es =>
    if s₀.Trailing e.prod e.pos then s₀.caseOf (s₀.prod e.prod).num e :: cases n es
    else s₀.caseOf n e :: cases (n + 1) es

/-- The symbols that are still in the table: not the actions of the right-hand sides that have been
made shorter. -/
def alive (live : List ℕ) (s : PatchTab) : List ℕ :=
  live.filter fun a => ∀ p < s₀.brk, (s.prod p).rhsLen < (s₀.prod p).rhsLen →
    (s₀.prod p).rhs ((s₀.prod p).rhsLen - 1) ≠ some a

end PatchTab

/-- The table `s` is what some edits make of the table `s₀`. -/
structure Patching (opt : PatchOpt) (name : ℕ → Lexeme) (live : List ℕ) (s₀ : PatchTab)
    (vs : List ℕ) (es : List Edit) (s : PatchTab) : Prop where
  /-- What is edited is an action. -/
  cells : ∀ e ∈ es, s₀.ActCell e.prod e.pos e.act
  /-- Nothing is edited twice. -/
  nodup : es.Nodup
  /-- An old production has lost its last symbol or nothing. -/
  prod_old : ∀ p < s₀.brk,
    s.prod p = if ∃ e ∈ es, e.prod = p ∧ s₀.Trailing p e.pos then (s₀.prod p).cut else s₀.prod p
  /-- The symbols that became no nonterminals are as before. -/
  sym_old : ∀ a, (∀ e ∈ s₀.embeds es, e.act ≠ a) → s.sym a = s₀.sym a
  /-- The new nonterminals have the next numbers. -/
  sym_new : ∀ j e, (s₀.embeds es)[j]? = some e → s.sym e.act = { s₀.sym e.act with
    val := s₀.currnonterm + 1 + j, productions := [s₀.brk + j], string := none,
    first := {s₀.epsilon} }
  /-- The new productions are empty. -/
  prod_new : ∀ j e, (s₀.embeds es)[j]? = some e →
    s.prod (s₀.brk + j) = ⟨s₀.numProductons + j, e.act, fun _ => none, 0, 0⟩
  /-- The pointers to the new nonterminals. -/
  terms_new : ∀ j e, (s₀.embeds es)[j]? = some e → s.terms (s₀.currnonterm + 1 + j) = some e.act
  /-- The number of new productions. -/
  brk : s.brk = s₀.brk + (s₀.embeds es).length
  /-- The number of new nonterminals. -/
  currnonterm : s.currnonterm = s₀.currnonterm + (s₀.embeds es).length
  /-- There is room for the new nonterminals. -/
  currnonterm_le : s.currnonterm ≤ maxNonterm
  /-- The number of new productions. -/
  numProductons : s.numProductons = s₀.numProductons + (s₀.embeds es).length
  /-- The terminals are as before. -/
  currterm : s.currterm = s₀.currterm
  /-- The symbols in the table. -/
  table : s.symtab.Live name (s₀.alive live s)
  /-- The hash functions are as before. -/
  same : s₀.symtab.SameFns s.symtab
  /-- The cases printed are those of the edits. -/
  output : s.output.map Case.toCaseArgs = if opt.makeActions then s₀.cases s₀.numProductons es else
    []
  /-- The calls of `dopatch` so far. -/
  visited : s.visited = vs

namespace PatchTab

variable {s₀ : PatchTab} {e : Edit} {es es' : List Edit}

/-- The new nonterminals of two lists of edits. -/
lemma embeds_append (es es' : List Edit) : s₀.embeds (es ++ es') = s₀.embeds es ++ s₀.embeds es' :=
  List.filter_append _ _

/-- An edit at the end of a right-hand side makes no nonterminal. -/
lemma embeds_trailing (h : s₀.Trailing e.prod e.pos) : s₀.embeds [e] = [] :=
  List.filter_eq_nil_iff.mpr fun e' he' => by
    obtain rfl := List.mem_singleton.mp he'
    simpa using h

/-- An edit of an action that is not at the end makes one nonterminal. -/
lemma embeds_not_trailing (h : ¬ s₀.Trailing e.prod e.pos) : s₀.embeds [e] = [e] :=
  List.filter_eq_self.mpr fun e' he' => by
    obtain rfl := List.mem_singleton.mp he'
    simpa using h

/-- The edits that make a nonterminal are those of actions not at the end. -/
lemma mem_embeds : e ∈ s₀.embeds es ↔ e ∈ es ∧ ¬ s₀.Trailing e.prod e.pos := by
  unfold embeds
  rw [List.mem_filter, decide_eq_true_iff]

/-- The cases of one more edit are those before and its own. -/
lemma cases_append_singleton (n : ℕ) (es : List Edit) (e : Edit) :
    s₀.cases n (es ++ [e]) = s₀.cases n es ++
    [s₀.caseOf (if s₀.Trailing e.prod e.pos then (s₀.prod e.prod).num
    else n + (s₀.embeds es).length) e] := by
  induction es generalizing n with
  | nil =>
    rw [List.nil_append]
    unfold cases
    split <;> rfl
  | cons e' es ih =>
    have hembeds : s₀.embeds (e' :: es) = s₀.embeds [e'] ++ s₀.embeds es := embeds_append [e'] es
    rw [List.cons_append]
    unfold cases
    by_cases he' : s₀.Trailing e'.prod e'.pos
    · rw [if_pos he', if_pos he', ih, hembeds, embeds_trailing he', List.nil_append,
        List.cons_append]
    · rw [if_neg he', if_neg he', ih, hembeds, embeds_not_trailing he', List.singleton_append,
        List.length_cons, List.cons_append, Nat.add_assoc, Nat.add_comm 1]

end PatchTab

namespace Patching

variable {opt : PatchOpt} {name : ℕ → Lexeme} {live : List ℕ} {s₀ s s' : PatchTab} {vs : List ℕ}
  {es : List Edit} {p i a : ℕ}

/-- At the start nothing has been edited, and the tables are the same. -/
lemma start (hok : s₀.Ok name live) (opt : PatchOpt) :
    Patching opt name live s₀ [] [] { s₀ with output := [], visited := [] } := by
  refine ⟨fun e he => absurd he List.not_mem_nil, List.nodup_nil, fun p _ => ?_, fun _ _ => rfl,
    ?_, ?_, ?_, rfl, rfl, hok.currnonterm.2, rfl, rfl, ?_, .refl _, ?_, rfl⟩
  · rw [if_neg fun ⟨e, he, _⟩ => absurd he List.not_mem_nil]
  · exact fun j e he => absurd he (by simp [PatchTab.embeds])
  · exact fun j e he => absurd he (by simp [PatchTab.embeds])
  · exact fun j e he => absurd he (by simp [PatchTab.embeds])
  · have halive : s₀.alive live { s₀ with output := [], visited := [] } = live := by
      refine List.filter_eq_self.mpr fun a _ => decide_eq_true fun p _ hlt =>
        absurd hlt (Nat.lt_irrefl _)
    rw [halive]
    exact hok.table
  · unfold PatchTab.cases
    exact (ite_self _).symm

/-- Only actions are edited, so that every other symbol is unchanged. -/
lemma sym_of_not_isAct (h : Patching opt name live s₀ vs es s) (ha : ¬ IsAct (s₀.sym a).val) :
    s.sym a = s₀.sym a := by
  refine h.sym_old a fun e he hact => ha ?_
  obtain ⟨he, -⟩ := PatchTab.mem_embeds.mp he
  rw [← hact]
  exact (h.cells e he).isAct

/-- An action that has not been edited is unchanged in the table. -/
lemma sym_of_not_mem (h : Patching opt name live s₀ vs es s) (honce : s₀.ActsOnce)
    (hcell : s₀.ActCell p i a) (hnew : ⟨p, i, a⟩ ∉ es) : s.sym a = s₀.sym a := by
  refine h.sym_old a fun e he hact => hnew ?_
  obtain ⟨he, -⟩ := PatchTab.mem_embeds.mp he
  obtain ⟨q, j, b⟩ := e
  obtain rfl : b = a := hact
  obtain ⟨rfl, rfl⟩ := honce _ _ _ _ _ (h.cells _ he) hcell
  exact he

/-- A production whose action at the end has not been edited is unchanged. -/
lemma prod_of_not_mem (h : Patching opt name live s₀ vs es s) (hp : p < s₀.brk)
    (hnew : ∀ e ∈ es, e.prod = p → ¬ s₀.Trailing p e.pos) : s.prod p = s₀.prod p := by
  rw [h.prod_old p hp, if_neg]
  rintro ⟨e, he, hep, htrail⟩
  exact hnew e he hep htrail

/-- The cells that are left of an old production are as before. -/
lemma rhs_eq (h : Patching opt name live s₀ vs es s) (hp : p < s₀.brk)
    (hi : i < (s.prod p).rhsLen) :
    i < (s₀.prod p).rhsLen ∧ (s.prod p).rhs i = (s₀.prod p).rhs i := by
  rw [h.prod_old p hp] at hi ⊢
  split at hi
  · rw [if_pos ‹_›]
    exact ⟨hi.trans_le (Nat.sub_le _ _), TabProd.cut_rhs hi⟩
  · rw [if_neg ‹_›]
    exact ⟨hi, rfl⟩

/-- A symbol is still in the table when no edit has cut it off. -/
lemma forall_ne_iff (h : Patching opt name live s₀ vs es s) (a : ℕ) :
    (∀ p < s₀.brk, (s.prod p).rhsLen < (s₀.prod p).rhsLen →
    (s₀.prod p).rhs ((s₀.prod p).rhsLen - 1) ≠ some a) ↔
      ∀ e ∈ es, s₀.Trailing e.prod e.pos → e.act ≠ a := by
  refine ⟨fun hall e he htrail hact => ?_, fun hall p hp hlt ha => ?_⟩
  · have hcell := h.cells e he
    have hlen := hcell.lt_rhsLen
    refine hall e.prod hcell.lt_brk ?_ ?_
    · rw [h.prod_old _ hcell.lt_brk, if_pos ⟨e, he, rfl, htrail⟩]
      change (s₀.prod e.prod).rhsLen - 1 < _
      omega
    · rw [← htrail, Nat.add_sub_cancel, hcell.cell, hact]
  · rw [h.prod_old p hp] at hlt
    split at hlt
    · rename_i hex
      obtain ⟨e, he, rfl, htrail⟩ := hex
      refine hall e he htrail ?_
      rw [← htrail, Nat.add_sub_cancel, (h.cells e he).cell] at ha
      exact Option.some.inj ha
    · exact absurd hlt (Nat.lt_irrefl _)

/-- The symbols that are still in the table are those that no edit has cut off. -/
lemma mem_alive (h : Patching opt name live s₀ vs es s) : a ∈ s₀.alive live s ↔
    a ∈ live ∧ ∀ e ∈ es, s₀.Trailing e.prod e.pos → e.act ≠ a := by
  unfold PatchTab.alive
  rw [List.mem_filter, decide_eq_true_iff, h.forall_ne_iff]

/-- Symbols that are no actions stay in the table. -/
lemma mem_alive_of_not_isAct (h : Patching opt name live s₀ vs es s) (ha : a ∈ live)
    (hact : ¬ IsAct (s₀.sym a).val) : a ∈ s₀.alive live s := by
  refine h.mem_alive.mpr ⟨ha, fun e he _ heq => hact ?_⟩
  rw [← heq]
  exact (h.cells e he).isAct

/-- More edits leave fewer symbols in the table. -/
lemma alive_sublist (h : Patching opt name live s₀ vs es s) {vs' : List ℕ} {es' : List Edit}
    (h' : Patching opt name live s₀ vs' es' s') (hsub : ∀ e ∈ es, e ∈ es') :
    (s₀.alive live s').Sublist (s₀.alive live s) := by
  refine List.monotone_filter_right live fun a ha => ?_
  rw [decide_eq_true_iff, h'.forall_ne_iff] at ha
  rw [decide_eq_true_iff, h.forall_ne_iff]
  exact fun e he => ha e (hsub e he)

/-- An edit that has not been made is one of another action. -/
lemma act_ne (h : Patching opt name live s₀ vs es s) (honce : s₀.ActsOnce)
    (hcell : s₀.ActCell p i a) (hnew : ⟨p, i, a⟩ ∉ es) {e : Edit} (he : e ∈ es) : e.act ≠ a := by
  intro hact
  obtain ⟨q, j, b⟩ := e
  obtain rfl : b = a := hact
  obtain ⟨rfl, rfl⟩ := honce _ _ _ _ _ (h.cells _ he) hcell
  exact hnew he

/-- The edits with one more edit of an action are edits of actions. -/
lemma cells_append (h : Patching opt name live s₀ vs es s) (hcell : s₀.ActCell p i a) :
    ∀ e ∈ es ++ [⟨p, i, a⟩], s₀.ActCell e.prod e.pos e.act := by
  intro e he
  rcases List.mem_append.mp he with he | he
  · exact h.cells e he
  · obtain rfl := List.mem_singleton.mp he
    exact hcell

/-- One more edit, of an action that has not been edited, is another one. -/
lemma nodup_append (h : Patching opt name live s₀ vs es s) (hnew : ⟨p, i, a⟩ ∉ es) :
    (es ++ [(⟨p, i, a⟩ : Edit)]).Nodup :=
  List.nodup_append.mpr ⟨h.nodup, List.nodup_singleton _, fun e he e' he' heq => hnew <| by
    rw [← List.mem_singleton.mp he', ← heq]
    exact he⟩

/-- The output with the case of one more edit is that of all edits. -/
lemma output_append (h : Patching opt name live s₀ vs es s) {out : List Case} {n : ℕ} {e : Edit}
    (hout : out.map Case.toCaseArgs = s.output.map Case.toCaseArgs ++ opt.printed (s₀.caseOf n e))
    (hn : n = if s₀.Trailing e.prod e.pos then (s₀.prod e.prod).num else s₀.numProductons +
    (s₀.embeds es).length) : out.map Case.toCaseArgs = if opt.makeActions then
      s₀.cases s₀.numProductons (es ++ [e]) else [] := by
  rw [hout, h.output, PatchTab.cases_append_singleton, ← hn]
  unfold PatchOpt.printed
  split <;> rfl

/-- An action at the end of a right-hand side is removed. -/
lemma trail (h : Patching opt name live s₀ vs es s) (hok : s₀.Ok name live) (honce : s₀.ActsOnce)
    (hcell : s₀.ActCell p i a) (htrail : s₀.Trailing p i) (hnew : ∀ e ∈ es, e.prod ≠ p) :
    ∃ s', Parser.trail opt p a s = .ok s' ∧
      Patching opt name live s₀ vs (es ++ [⟨p, i, a⟩]) s' := by
  have hnot : (⟨p, i, a⟩ : Edit) ∉ es := fun hmem => hnew _ hmem rfl
  have hsym := h.sym_of_not_mem honce hcell hnot
  have hprod : s.prod p = s₀.prod p :=
    h.prod_of_not_mem hcell.lt_brk fun e he hep => absurd hep (hnew e he)
  have hlive : a ∈ live := hok.rhs_mem p hcell.lt_brk i hcell.lt_rhsLen a hcell.cell
  have hstring : (s.sym a).string ≠ none := by
    rw [hsym]
    exact hok.string a hlive hcell.isAct
  have halive : a ∈ s₀.alive live s :=
    h.mem_alive.mpr ⟨hlive, fun e he _ => h.act_ne honce hcell hnot he⟩
  obtain ⟨t, hdel, ht, hsame⟩ := h.table.del halive
  obtain ⟨out, buf, errors, hrun, hout⟩ := trail_spec opt (p := p) hstring hdel
  refine ⟨_, hrun, ?_⟩
  have hembeds : s₀.embeds (es ++ [⟨p, i, a⟩]) = s₀.embeds es := by
    rw [PatchTab.embeds_append, PatchTab.embeds_trailing htrail, List.append_nil]
  have hpos : (s₀.prod p).rhsLen - 1 = i := by
    rw [← htrail, Nat.add_sub_cancel]
  have herase : (s₀.alive live s).erase a = s₀.alive live { s with
      prod := Function.update s.prod p (s.prod p).cut, symtab := t, output := out,
      buf := buf, errors := errors } := by
    rw [h.table.nodup.erase_eq_filter]
    unfold PatchTab.alive
    rw [List.filter_filter]
    refine List.filter_congr fun b _ => ?_
    rw [Bool.eq_iff_iff, Bool.and_eq_true, decide_eq_true_iff, decide_eq_true_iff, bne_iff_ne]
    dsimp only
    constructor
    · rintro ⟨hb, hall⟩ q hq hlt
      by_cases hqp : q = p
      · subst hqp
        rw [hpos, hcell.cell]
        exact fun heq => hb (Option.some.inj heq).symm
      · rw [Function.update_of_ne hqp] at hlt
        exact hall q hq hlt
    · intro hall
      refine ⟨fun hb => ?_, fun q hq hlt => ?_⟩
      · refine hall p hcell.lt_brk ?_ ?_
        · rw [Function.update_self, hprod]
          change (s₀.prod p).rhsLen - 1 < (s₀.prod p).rhsLen
          have hlen := hcell.lt_rhsLen
          omega
        · rw [hpos, hcell.cell, hb]
      · by_cases hqp : q = p
        · subst hqp
          rw [hprod] at hlt
          exact absurd hlt (Nat.lt_irrefl _)
        · refine hall q hq ?_
          rw [Function.update_of_ne hqp]
          exact hlt
  refine ⟨h.cells_append hcell, h.nodup_append hnot, ?_, ?_, ?_, ?_, ?_, ?_, ?_, h.currnonterm_le,
    ?_, h.currterm, ?_, h.same.trans hsame, ?_, h.visited⟩
  · intro q hq
    dsimp only
    by_cases hqp : q = p
    · subst hqp
      rw [Function.update_self, hprod,
        if_pos ⟨⟨q, i, a⟩, List.mem_append_right es (List.mem_singleton_self _), rfl, htrail⟩]
    · rw [Function.update_of_ne hqp, h.prod_old q hq]
      refine if_congr ⟨?_, ?_⟩ rfl rfl
      · rintro ⟨e, he, heq⟩
        exact ⟨e, List.mem_append_left _ he, heq⟩
      · rintro ⟨e, he, heq, htr⟩
        rcases List.mem_append.mp he with he | he
        · exact ⟨e, he, heq, htr⟩
        · obtain rfl := List.mem_singleton.mp he
          exact absurd heq.symm hqp
  · rw [hembeds]
    exact h.sym_old
  · rw [hembeds]
    exact h.sym_new
  · rw [hembeds]
    intro j e he
    have hne : s₀.brk + j ≠ p := fun heq => absurd hcell.lt_brk (by omega)
    dsimp only
    rw [Function.update_of_ne hne]
    exact h.prod_new j e he
  · rw [hembeds]
    exact h.terms_new
  · rw [hembeds]
    exact h.brk
  · rw [hembeds]
    exact h.currnonterm
  · rw [hembeds]
    exact h.numProductons
  · rw [← herase]
    exact ht
  · refine h.output_append (n := (s₀.prod p).num) (e := ⟨p, i, a⟩) ?_ (if_pos htrail).symm
    rw [hout, hprod, hsym, hpos]
    rfl

/-- An action in front of another symbol becomes a nonterminal. -/
lemma embed (h : Patching opt name live s₀ vs es s) (hok : s₀.Ok name live) (honce : s₀.ActsOnce)
    (hcell : s₀.ActCell p i a) (htrail : ¬ s₀.Trailing p i) (hnew : ⟨p, i, a⟩ ∉ es)
    (hroom : s.currnonterm < maxNonterm) : ∃ s', Parser.embed opt p i a s = .ok s' ∧
    Patching opt name live s₀ vs (es ++ [⟨p, i, a⟩]) s' := by
  have hsym := h.sym_of_not_mem honce hcell hnew
  have hlive : a ∈ live := hok.rhs_mem p hcell.lt_brk i hcell.lt_rhsLen a hcell.cell
  have hstring : (s.sym a).string ≠ none := by
    rw [hsym]
    exact hok.string a hlive hcell.isAct
  obtain ⟨out, buf, errors, hrun, hout⟩ := embed_spec opt (p := p) (i := i) hstring
  refine ⟨_, hrun, ?_⟩
  obtain ⟨n, hn⟩ : ∃ n, n = (s₀.embeds es).length := ⟨_, rfl⟩
  have hembeds : s₀.embeds (es ++ [⟨p, i, a⟩]) = s₀.embeds es ++ [⟨p, i, a⟩] := by
    rw [PatchTab.embeds_append, PatchTab.embeds_not_trailing htrail]
  have hlen : (s₀.embeds (es ++ [⟨p, i, a⟩])).length = n + 1 := by
    rw [hembeds, List.length_append, List.length_singleton, hn]
  have hbrk := h.brk
  have hcurr := h.currnonterm
  have hnum := h.numProductons
  rw [← hn] at hbrk hcurr hnum
  -- the nonterminals in front of the last one, and the last one
  have hcases : ∀ {P : ℕ → Edit → Prop}, (∀ j e, (s₀.embeds es)[j]? = some e → j < n → e.act ≠ a →
      P j e) → P n ⟨p, i, a⟩ → ∀ j e, (s₀.embeds (es ++ [⟨p, i, a⟩]))[j]? = some e → P j e := by
    intro P hold hlast j e hje
    rw [hembeds] at hje
    by_cases hj : j < n
    · rw [List.getElem?_append_left (hn ▸ hj)] at hje
      exact hold j e hje hj
        (h.act_ne honce hcell hnew (PatchTab.mem_embeds.mp (List.mem_of_getElem? hje)).1)
    · rw [List.getElem?_append_right (hn ▸ Nat.le_of_not_lt hj), ← hn] at hje
      obtain ⟨hlt, hje⟩ := List.getElem?_eq_some_iff.mp hje
      rw [List.length_singleton] at hlt
      obtain rfl : j = n := by omega
      rw [List.getElem_singleton] at hje
      rw [← hje]
      exact hlast
  refine ⟨h.cells_append hcell, h.nodup_append hnew, ?_, ?_, ?_, ?_, ?_, ?_, ?_, hroom,
    ?_, h.currterm, ?_, h.same, ?_, h.visited⟩
  · intro q hq
    dsimp only
    rw [Function.update_of_ne (by omega), h.prod_old q hq]
    refine if_congr ⟨?_, ?_⟩ rfl rfl
    · rintro ⟨e, he, heq⟩
      exact ⟨e, List.mem_append_left _ he, heq⟩
    · rintro ⟨e, he, heq, htr⟩
      rcases List.mem_append.mp he with he | he
      · exact ⟨e, he, heq, htr⟩
      · obtain rfl := List.mem_singleton.mp he
        obtain rfl : p = q := heq
        exact absurd htr htrail
  · intro b hb
    rw [hembeds] at hb
    have hba : b ≠ a :=
      fun heq => hb ⟨p, i, a⟩ (List.mem_append_right _ (List.mem_singleton_self _)) heq.symm
    dsimp only
    rw [Function.update_of_ne hba]
    exact h.sym_old b fun e he => hb e (List.mem_append_left _ he)
  · refine hcases (fun j e hje hj hne => ?_) ?_
    · dsimp only
      rw [Function.update_of_ne hne]
      exact h.sym_new j e hje
    · dsimp only
      rw [Function.update_self, hsym, hbrk, hcurr, Nat.add_right_comm]
      unfold PatchTab.epsilon
      rw [h.currterm]
  · refine hcases (fun j e hje hj hne => ?_) ?_
    · dsimp only
      rw [Function.update_of_ne (by omega)]
      exact h.prod_new j e hje
    · dsimp only
      rw [hbrk, Function.update_self, hnum]
  · refine hcases (fun j e hje hj hne => ?_) ?_
    · dsimp only
      rw [Function.update_of_ne (by omega)]
      exact h.terms_new j e hje
    · dsimp only
      rw [hcurr, Nat.add_right_comm, Function.update_self]
  · rw [hlen, ← Nat.add_assoc, ← hbrk]
  · rw [hlen, ← Nat.add_assoc, ← hcurr]
  · rw [hlen, ← Nat.add_assoc, ← hnum]
  · have halive : s₀.alive live { s with
        currnonterm := s.currnonterm + 1
        terms := Function.update s.terms (s.currnonterm + 1) (some a)
        brk := s.brk + 1
        numProductons := s.numProductons + 1
        sym := Function.update s.sym a { s.sym a with
          val := s.currnonterm + 1, productions := [s.brk], string := none, first := {s.epsilon} }
        prod := Function.update s.prod s.brk ⟨s.numProductons, a, fun _ => none, 0, 0⟩
        output := out, buf := buf, errors := errors } = s₀.alive live s := by
      unfold PatchTab.alive
      refine List.filter_congr fun b _ => ?_
      refine decide_eq_decide.mpr (forall₂_congr fun q hq => ?_)
      dsimp only
      rw [Function.update_of_ne (by omega)]
    rw [halive]
    exact h.table
  · refine h.output_append (n := s₀.numProductons + n) (e := ⟨p, i, a⟩) ?_ ?_
    · rw [hout, hsym, hnum]
      rfl
    · rw [if_neg htrail, hn]

end Patching

/-! ## The loops -/

/-- The function returns a table with the property `P`, or there are too many actions for the
nonterminals that are left. -/
def PatchTab.Outcome (s₀ : PatchTab) (P : PatchTab → Prop) (r : Except (Halt PatchFault) PatchTab) :
    Prop :=
  (∃ s, r = .ok s ∧ P s) ∨
    r = .error (.stopped .nonterms) ∧ maxNonterm < s₀.currnonterm + s₀.embedded.length

/-- Every action of the production has been edited. -/
def PatchTab.Complete (s₀ : PatchTab) (p : ℕ) (es : List Edit) : Prop :=
  ∀ i a, s₀.ActCell p i a → ⟨p, i, a⟩ ∈ es

/-- Every production has been edited completely or not at all. -/
def PatchTab.Closed (s₀ : PatchTab) (es : List Edit) : Prop :=
  ∀ p < s₀.brk, (∀ e ∈ es, e.prod ≠ p) ∨ s₀.Complete p es

namespace PatchTab

variable {s₀ : PatchTab} {P Q : PatchTab → Prop} {es es' : List Edit} {p : ℕ}

/-- A function that returns a table with the property has the outcome. -/
lemma Outcome.ok {s : PatchTab} (h : P s) : s₀.Outcome P (.ok s) := Or.inl ⟨s, rfl, h⟩

/-- Two functions have the outcome, one behind the other. -/
lemma Outcome.bind {r : Except (Halt PatchFault) PatchTab}
    {f : PatchTab → Except (Halt PatchFault) PatchTab} (h : s₀.Outcome P r)
    (hf : ∀ s, P s → s₀.Outcome Q (f s)) : s₀.Outcome Q (r >>= f) := by
  rcases h with ⟨s, rfl, hs⟩ | ⟨rfl, hfull⟩
  · exact hf s hs
  · exact Or.inr ⟨rfl, hfull⟩

/-- An outcome with a property has every weaker one too. -/
lemma Outcome.mono {r : Except (Halt PatchFault) PatchTab} (h : s₀.Outcome P r)
    (hPQ : ∀ s, P s → Q s) : s₀.Outcome Q r := by
  rcases h with ⟨s, hr, hs⟩ | hfull
  · exact Or.inl ⟨s, hr, hPQ s hs⟩
  · exact Or.inr hfull

/-- When every action of a production has been edited, more edits change nothing about it. -/
lemma Complete.mono (h : s₀.Complete p es) (hsub : ∀ e ∈ es, e ∈ es') : s₀.Complete p es' :=
  fun i a hcell => hsub _ (h i a hcell)

/-- The edits of one production are added, and no other is left half edited. -/
lemma Closed.append (h : s₀.Closed es) (hes' : ∀ e ∈ es', e.prod = p)
    (hp : s₀.Complete p (es ++ es')) : s₀.Closed (es ++ es') := by
  intro q hq
  by_cases hqp : q = p
  · subst hqp
    exact Or.inr hp
  · refine (h q hq).imp (fun hne e he => ?_) fun hq => hq.mono fun e he => List.mem_append_left _ he
    rcases List.mem_append.mp he with he | he
    · exact hne e he
    · rw [hes' e he]
      exact Ne.symm hqp

/-- The actions that become nonterminals are those not at the end of a right-hand side. -/
lemma mem_embedded {a : ℕ} : a ∈ s₀.embedded ↔ ∃ p i, s₀.ActCell p i a ∧ ¬ s₀.Trailing p i := by
  unfold embedded
  simp only [List.mem_flatMap, List.mem_range, List.mem_filterMap, Option.filter_eq_some_iff,
    decide_eq_true_iff]
  constructor
  · rintro ⟨p, hp, i, hi, ha, hact⟩
    exact ⟨p, i, ⟨hp, by omega, ha, hact⟩, fun htrail => by unfold Trailing at htrail; omega⟩
  · rintro ⟨p, i, ⟨hp, hi, ha, hact⟩, htrail⟩
    unfold Trailing at htrail
    exact ⟨p, hp, i, by omega, ha, hact⟩

/-- The actions that become nonterminals are different when each occurs once. -/
lemma nodup_embedded (honce : s₀.ActsOnce) : s₀.embedded.Nodup := by
  have hcell : ∀ {p i a}, p < s₀.brk → i < (s₀.prod p).rhsLen - 1 →
      ((s₀.prod p).rhs i).filter (fun a => IsAct (s₀.sym a).val) = some a → s₀.ActCell p i a := by
    intro p i a hp hi ha
    obtain ⟨ha, hact⟩ := Option.filter_eq_some_iff.mp ha
    exact ⟨hp, by omega, ha, of_decide_eq_true hact⟩
  refine List.nodup_flatMap.mpr ⟨fun p hp => ?_, ?_⟩
  · refine List.pairwise_filterMap.mpr (List.nodup_range.pairwise_of_forall_ne fun i hi j hj hij =>
      ?_)
    intro a ha b hb hab
    subst hab
    have hp := List.mem_range.mp hp
    exact hij (honce _ _ _ _ _ (hcell hp (List.mem_range.mp hi) ha)
      (hcell hp (List.mem_range.mp hj) hb)).2
  · refine List.nodup_range.pairwise_of_forall_ne fun p hp q hq hpq a ha ha' => hpq ?_
    obtain ⟨i, hi, ha⟩ := List.mem_filterMap.mp ha
    obtain ⟨j, hj, ha'⟩ := List.mem_filterMap.mp ha'
    exact (honce _ _ _ _ _ (hcell (List.mem_range.mp hp) (List.mem_range.mp hi) ha)
      (hcell (List.mem_range.mp hq) (List.mem_range.mp hj) ha')).1

end PatchTab

namespace Patching

variable {opt : PatchOpt} {name : ℕ → Lexeme} {live : List ℕ} {s₀ s s' : PatchTab} {vs : List ℕ}
  {es : List Edit} {p i a : ℕ}

/-- The actions that have been made nonterminals are different. -/
lemma nodup_acts (h : Patching opt name live s₀ vs es s) (honce : s₀.ActsOnce) :
    ((s₀.embeds es).map Edit.act).Nodup := by
  refine (h.nodup.filter _).map_on fun e he e' he' hact => ?_
  obtain ⟨he, -⟩ := PatchTab.mem_embeds.mp he
  obtain ⟨he', -⟩ := PatchTab.mem_embeds.mp he'
  obtain ⟨q, j, b⟩ := e
  obtain ⟨q', j', b'⟩ := e'
  obtain rfl : b = b' := hact
  obtain ⟨hq, hj⟩ : q = q' ∧ j = j' :=
    honce _ _ _ _ _ (h.cells ⟨q, j, b⟩ he) (h.cells ⟨q', j', b⟩ he')
  rw [hq, hj]

/-- The actions that have become nonterminals are among those that will. -/
lemma acts_subset (h : Patching opt name live s₀ vs es s) :
    (s₀.embeds es).map Edit.act ⊆ s₀.embedded := by
  intro a ha
  obtain ⟨e, he, rfl⟩ := List.mem_map.mp ha
  obtain ⟨he, htrail⟩ := PatchTab.mem_embeds.mp he
  exact PatchTab.mem_embedded.mpr ⟨e.prod, e.pos, h.cells e he, htrail⟩

/-- If no number is left for an action, then there are too many of them. -/
lemma too_many (h : Patching opt name live s₀ vs es s) (honce : s₀.ActsOnce)
    (hcell : s₀.ActCell p i a) (htrail : ¬ s₀.Trailing p i) (hnew : ⟨p, i, a⟩ ∉ es)
    (hfull : maxNonterm ≤ s.currnonterm) : maxNonterm < s₀.currnonterm + s₀.embedded.length := by
  have hnodup : (a :: (s₀.embeds es).map Edit.act).Nodup := by
    refine List.nodup_cons.mpr ⟨fun hmem => ?_, h.nodup_acts honce⟩
    obtain ⟨e, he, hact⟩ := List.mem_map.mp hmem
    exact h.act_ne honce hcell hnew (PatchTab.mem_embeds.mp he).1 hact
  have hsubset : a :: (s₀.embeds es).map Edit.act ⊆ s₀.embedded :=
    List.cons_subset.mpr ⟨PatchTab.mem_embedded.mpr ⟨p, i, hcell, htrail⟩, h.acts_subset⟩
  have hlen := (hnodup.subperm hsubset).length_le
  rw [List.length_cons, List.length_map] at hlen
  have hcurr := h.currnonterm
  omega

/-- If all productions have been edited, then there is a number for every action. -/
lemma length_embedded (h : Patching opt name live s₀ vs es s) (honce : s₀.ActsOnce)
    (hall : ∀ p < s₀.brk, s₀.Complete p es) : s₀.embedded.length = (s₀.embeds es).length := by
  have hsubset : s₀.embedded ⊆ (s₀.embeds es).map Edit.act := by
    intro a ha
    obtain ⟨p, i, hcell, htrail⟩ := PatchTab.mem_embedded.mp ha
    exact List.mem_map.mpr
      ⟨⟨p, i, a⟩, PatchTab.mem_embeds.mpr ⟨hall p hcell.lt_brk i a hcell, htrail⟩, rfl⟩
  have hle := ((PatchTab.nodup_embedded honce).subperm hsubset).length_le
  have hge := ((h.nodup_acts honce).subperm h.acts_subset).length_le
  rw [List.length_map] at hle hge
  exact le_antisymm hle hge

/-- There is no action in a production that has been edited completely. -/
lemma not_isAct (h : Patching opt name live s₀ vs es s) (hp : p < s₀.brk) (hall : s₀.Complete p es)
    (hi : i < (s.prod p).rhsLen) (ha : (s.prod p).rhs i = some a) :
    ¬ IsAct (s.sym a).val := by
  obtain ⟨hi₀, ha₀⟩ := h.rhs_eq hp hi
  rw [ha₀] at ha
  by_cases hact : IsAct (s₀.sym a).val
  · have hcell : s₀.ActCell p i a := ⟨hp, hi₀, ha, hact⟩
    have he := hall i a hcell
    have htrail : ¬ s₀.Trailing p i := by
      intro htrail
      rw [h.prod_old p hp, if_pos ⟨_, he, rfl, htrail⟩] at hi
      change i < (s₀.prod p).rhsLen - 1 at hi
      unfold PatchTab.Trailing at htrail
      omega
    obtain ⟨j, hj⟩ := List.getElem?_of_mem (PatchTab.mem_embeds.mpr ⟨he, htrail⟩)
    have hlt := (List.getElem?_eq_some_iff.mp hj).1
    have hle := h.currnonterm_le
    have hcurr := h.currnonterm
    rw [h.sym_new j _ hj, isAct_iff]
    unfold maxNonterm minAct at hle
    dsimp only
    omega
  · rw [h.sym_of_not_isAct hact]
    exact hact

/-- The loop over the first cells of a right-hand side. -/
lemma patchLoop_spec (h : Patching opt name live s₀ vs es s) (hok : s₀.Ok name live)
    (honce : s₀.ActsOnce) (hp : p < s₀.brk) (hi : i ≤ (s₀.prod p).rhsLen)
    (hbelow : ∀ e ∈ es, e.prod = p → i ≤ e.pos) (htrail : ∀ j a, s₀.ActCell p j a →
    s₀.Trailing p j → i ≤ j) :
    s₀.Outcome (fun s' => ∃ es', Patching opt name live s₀ vs (es ++ es') s' ∧
    (∀ e ∈ es', e.prod = p) ∧
      ∀ j a, s₀.ActCell p j a → j < i → ⟨p, j, a⟩ ∈ es') (patchLoop opt p i s) := by
  induction i generalizing es s with
  | zero =>
    refine .ok ⟨[], ?_, fun e he => absurd he List.not_mem_nil, fun j a _ hj =>
      absurd hj (Nat.not_lt_zero j)⟩
    rw [List.append_nil]
    exact h
  | succ i ih =>
    obtain ⟨a, ha⟩ := TabProd.exists_rhs (hok.rhs p hp) (Nat.lt_of_succ_le hi)
    have hcell : (s.prod p).rhs i = some a := by
      rw [h.prod_old p hp]
      split
      · rename_i hex
        obtain ⟨e, he, hep, htr⟩ := hex
        have hle := hbelow e he hep
        unfold PatchTab.Trailing at htr
        rw [TabProd.cut_rhs, ha]
        change i < (s₀.prod p).rhsLen - 1
        omega
      · exact ha
    have hnew : (⟨p, i, a⟩ : Edit) ∉ es :=
      fun hmem => absurd (hbelow _ hmem rfl) (Nat.not_succ_le_self i)
    have hsym : s.sym a = s₀.sym a := by
      by_cases hact : IsAct (s₀.sym a).val
      · exact h.sym_of_not_mem honce ⟨hp, hi, ha, hact⟩ hnew
      · exact h.sym_of_not_isAct hact
    -- the cells below are treated in the same way
    have hrest : ∀ {s₁ es₁}, Patching opt name live s₀ vs (es ++ es₁) s₁ →
        (∀ e ∈ es₁, e.prod = p ∧ e.pos = i) → (∀ a, s₀.ActCell p i a → ⟨p, i, a⟩ ∈ es₁) →
        s₀.Outcome (fun s' => ∃ es',
          Patching opt name live s₀ vs (es ++ es') s' ∧ (∀ e ∈ es', e.prod = p) ∧
          ∀ j a, s₀.ActCell p j a → j < i + 1 → ⟨p, j, a⟩ ∈ es') (patchLoop opt p i s₁) := by
      intro s₁ es₁ h₁ hes₁ hmem₁
      refine (ih h₁ (Nat.le_of_succ_le hi) ?_ fun j a hc htr => Nat.le_of_succ_le
        (htrail j a hc htr)).mono ?_
      · intro e he hep
        rcases List.mem_append.mp he with he | he
        · exact Nat.le_of_succ_le (hbelow e he hep)
        · exact (hes₁ e he).2.ge
      · rintro s' ⟨es', h', hes', hmem'⟩
        rw [List.append_assoc] at h'
        refine ⟨es₁ ++ es', h', ?_, ?_⟩
        · intro e he
          rcases List.mem_append.mp he with he | he
          · exact (hes₁ e he).1
          · exact hes' e he
        · intro j b hc hj
          rcases Nat.lt_succ_iff_lt_or_eq.mp hj with hj | rfl
          · exact List.mem_append_right _ (hmem' j b hc hj)
          · exact List.mem_append_left _ (hmem₁ b hc)
    unfold patchLoop patchCell
    rw [hcell]
    dsimp only
    rw [hsym]
    by_cases hact : IsAct (s₀.sym a).val
    · have hactCell : s₀.ActCell p i a := ⟨hp, hi, ha, hact⟩
      have hnt : ¬ s₀.Trailing p i :=
        fun htr => absurd (htrail i a hactCell htr) (Nat.not_succ_le_self i)
      rw [if_neg (not_not.mpr hact)]
      by_cases hfull : maxNonterm ≤ s.currnonterm
      · rw [if_pos hfull]
        exact Or.inr ⟨rfl, h.too_many honce hactCell hnt hnew hfull⟩
      · rw [if_neg hfull]
        obtain ⟨s₁, hrun, h₁⟩ := h.embed hok honce hactCell hnt hnew (Nat.lt_of_not_le hfull)
        rw [hrun]
        refine hrest h₁ (fun e he => ?_) fun b hb => ?_
        · obtain rfl := List.mem_singleton.mp he
          exact ⟨rfl, rfl⟩
        · obtain rfl : a = b := Option.some.inj (ha.symm.trans hb.cell)
          exact List.mem_singleton_self _
    · rw [if_pos hact]
      have hnil : Patching opt name live s₀ vs (es ++ []) s := by
        rw [List.append_nil]
        exact h
      refine hrest hnil (fun e he => absurd he List.not_mem_nil) fun b hb => ?_
      obtain rfl : a = b := Option.some.inj (ha.symm.trans hb.cell)
      exact absurd hb.isAct hact

/-- There is nothing to do for a right-hand side without actions. -/
lemma patchLoop_of_not_isAct {opt : PatchOpt} {p i : ℕ} {s : PatchTab}
    (h : ∀ j < i, ∀ a, (s.prod p).rhs j = some a → ¬ IsAct (s.sym a).val) :
    patchLoop opt p i s = .ok s := by
  induction i with
  | zero => rfl
  | succ i ih =>
    have hcell : patchCell opt p i s = .ok s := by
      unfold patchCell
      split
      · rfl
      · rw [if_pos (h i (Nat.lt_succ_self i) _ ‹_›)]
    unfold patchLoop
    rw [hcell]
    exact ih fun j hj => h j (Nat.lt_succ_of_lt hj)

/-- The body of the loop over the productions edits every action of one production. -/
lemma patchProd_spec (h : Patching opt name live s₀ vs es s) (hok : s₀.Ok name live)
    (honce : s₀.ActsOnce) (hclosed : s₀.Closed es) (hp : p < s₀.brk) :
    s₀.Outcome (fun s' => ∃ es', Patching opt name live s₀ vs (es ++ es') s' ∧
    s₀.Closed (es ++ es') ∧
      s₀.Complete p (es ++ es')) (patchProd opt p s) := by
  rcases hclosed p hp with hnew | hall
  · have hprod : s.prod p = s₀.prod p := h.prod_of_not_mem hp fun e he hep => absurd hep (hnew e he)
    unfold patchProd
    dsimp only
    rw [hprod]
    by_cases hzero : (s₀.prod p).rhsLen = 0
    · rw [if_pos hzero]
      have hall : s₀.Complete p es := fun i a hcell => absurd hcell.lt_rhsLen (by omega)
      refine .ok ⟨[], ?_, ?_, ?_⟩ <;> rw [List.append_nil]
      · exact h
      · exact hclosed
      · exact hall
    · rw [if_neg hzero]
      obtain ⟨n, hn⟩ := Nat.exists_eq_succ_of_ne_zero hzero
      have hlast : (s₀.prod p).rhsLen - 1 = n := by
        rw [hn, Nat.succ_sub_one]
      obtain ⟨a, ha⟩ := TabProd.exists_rhs (hok.rhs p hp) (i := n) (by omega)
      have hnot : (⟨p, n, a⟩ : Edit) ∉ es := fun hmem => hnew _ hmem rfl
      have hsym : s.sym a = s₀.sym a := by
        by_cases hact : IsAct (s₀.sym a).val
        · exact h.sym_of_not_mem honce ⟨hp, by omega, ha, hact⟩ hnot
        · exact h.sym_of_not_isAct hact
      rw [hlast, ha]
      dsimp only
      rw [hsym]
      by_cases hact : IsAct (s₀.sym a).val
      · have hcell : s₀.ActCell p n a := ⟨hp, by omega, ha, hact⟩
        have htr : s₀.Trailing p n := hn.symm
        rw [if_pos hact]
        obtain ⟨s₁, hrun, h₁⟩ := h.trail hok honce hcell htr hnew
        rw [hrun]
        have hloop :=
          h₁.patchLoop_spec hok honce hp (i := n) (by omega) (fun e he hep => ?_)
            fun j b hb htrail => ?_
        · refine hloop.mono ?_
          rintro s' ⟨es', h', hes', hmem'⟩
          rw [List.append_assoc] at h'
          have hall : s₀.Complete p (es ++ ([⟨p, n, a⟩] ++ es')) := by
            intro j b hb
            refine List.mem_append_right _ ?_
            rcases Nat.lt_succ_iff_lt_or_eq.mp (hb.lt_rhsLen.trans_eq hn) with hj | rfl
            · exact List.mem_append_right _ (hmem' j b hb hj)
            · obtain rfl : a = b := Option.some.inj (ha.symm.trans hb.cell)
              exact List.mem_append_left _ (List.mem_singleton_self _)
          refine ⟨_, h', hclosed.append (fun e he => ?_) hall, hall⟩
          rcases List.mem_append.mp he with he | he
          · rw [List.mem_singleton.mp he]
          · exact hes' e he
        · rcases List.mem_append.mp he with he | he
          · exact absurd hep (hnew e he)
          · rw [List.mem_singleton.mp he]
        · unfold PatchTab.Trailing at htrail
          omega
      · rw [if_neg hact]
        have hloop := h.patchLoop_spec hok honce hp le_rfl (fun e he hep => absurd hep (hnew e he))
          fun j b hb htrail => ?_
        · refine hloop.mono ?_
          rintro s' ⟨es', h', hes', hmem'⟩
          have hall : s₀.Complete p (es ++ es') :=
            fun j b hb => List.mem_append_right _ (hmem' j b hb hb.lt_rhsLen)
          exact ⟨es', h', hclosed.append hes' hall, hall⟩
        · unfold PatchTab.Trailing at htrail
          obtain rfl : j = n := by omega
          obtain rfl : a = b := Option.some.inj (ha.symm.trans hb.cell)
          exact absurd hb.isAct hact
  · -- nothing is left to do
    have hcells :=
      fun i (hi : i < (s.prod p).rhsLen) a (ha : (s.prod p).rhs i = some a) =>
        h.not_isAct hp hall hi ha
    have hdone : patchProd opt p s = .ok s := by
      unfold patchProd
      dsimp only
      split
      · rfl
      · split
        · exact patchLoop_of_not_isAct hcells
        · rw [if_neg (hcells ((s.prod p).rhsLen - 1) (by omega) _ ‹_›)]
          exact patchLoop_of_not_isAct hcells
    rw [hdone]
    refine .ok ⟨[], ?_, ?_, ?_⟩ <;> rw [List.append_nil]
    · exact h
    · exact hclosed
    · exact hall

/-- A call of `dopatch` is recorded and edits nothing by itself. -/
lemma record (h : Patching opt name live s₀ vs es s) (sym : ℕ) :
    Patching opt name live s₀ (vs ++ [sym]) es { s with visited := s.visited ++ [sym] } :=
  ⟨h.cells, h.nodup, h.prod_old, h.sym_old, h.sym_new, h.prod_new, h.terms_new, h.brk,
    h.currnonterm, h.currnonterm_le, h.numProductons, h.currterm, h.table, h.same, h.output,
    congrArg (· ++ [sym]) h.visited⟩

/-- The loop over the productions edits every action of these productions. -/
lemma foldlM_patchProd (h : Patching opt name live s₀ vs es s) (hok : s₀.Ok name live)
    (honce : s₀.ActsOnce) (hclosed : s₀.Closed es) {ps : List ℕ} (hps : ∀ p ∈ ps, p < s₀.brk) :
    s₀.Outcome (fun s' => ∃ es', Patching opt name live s₀ vs (es ++ es') s' ∧
    s₀.Closed (es ++ es') ∧
      ∀ p ∈ ps, s₀.Complete p (es ++ es')) (ps.foldlM (fun s p => patchProd opt p s) s) := by
  induction ps generalizing es s with
  | nil =>
    refine .ok ⟨[], ?_, ?_, fun p hp => absurd hp List.not_mem_nil⟩ <;> rw [List.append_nil]
    · exact h
    · exact hclosed
  | cons p ps ih =>
    rw [List.foldlM_cons]
    refine (h.patchProd_spec hok honce hclosed (hps p List.mem_cons_self)).bind ?_
    rintro s₁ ⟨es₁, h₁, hclosed₁, hall₁⟩
    refine (ih h₁ hclosed₁ fun q hq => hps q (List.mem_cons_of_mem p hq)).mono ?_
    rintro s' ⟨es', h', hclosed', hall'⟩
    rw [List.append_assoc] at h' hclosed'
    refine ⟨_, h', hclosed', fun q hq => ?_⟩
    rw [← List.append_assoc]
    rcases List.mem_cons.mp hq with rfl | hq
    · exact hall₁.mono fun e he => List.mem_append_left _ he
    · exact hall' q hq

/-- `dopatch` edits the productions of the nonterminals that were there from the start. -/
lemma visit_spec (h : Patching opt name live s₀ vs es s) (hok : s₀.Ok name live)
    (honce : s₀.ActsOnce) (hclosed : s₀.Closed es) {sym : ℕ} (hlive : sym ∈ live) :
    s₀.Outcome (fun s' => ∃ es', Patching opt name live s₀ (vs ++ [sym]) (es ++ es') s' ∧
    s₀.Closed (es ++ es') ∧
      (IsAct (s₀.sym sym).val → es' = []) ∧ ∀ p < s₀.brk, (s₀.prod p).lhs = sym →
      s₀.Complete p (es ++ es')) (visit opt s₀.currnonterm sym s) := by
  have hrecord := h.record sym
  unfold visit dopatch
  dsimp only
  by_cases hnon : IsNonterm (s₀.sym sym).val
  · have hsym := h.sym_of_not_isAct hnon.not_isAct
    have hle := hok.nonterm_le sym hlive hnon
    rw [hsym, if_neg (by rw [not_or, not_not]; exact ⟨hnon, Nat.not_lt.mpr hle⟩)]
    have hchain := hok.chain sym hlive hnon
    refine (hrecord.foldlM_patchProd hok honce hclosed fun p hp => ((hchain p).mp hp).1).mono ?_
    rintro s' ⟨es', h', hclosed', hall'⟩
    exact ⟨es', h', hclosed', fun hact => absurd hact hnon.not_isAct, fun p hp hlhs =>
      hall' p ((hchain p).mpr ⟨hp, hlhs⟩)⟩
  · have hskip : ¬ IsNonterm (s.sym sym).val ∨ s₀.currnonterm < (s.sym sym).val := by
      by_cases hold : ∀ e ∈ s₀.embeds es, e.act ≠ sym
      · rw [h.sym_old sym hold]
        exact Or.inl hnon
      · push Not at hold
        obtain ⟨e, he, rfl⟩ := hold
        obtain ⟨j, hj⟩ := List.getElem?_of_mem he
        rw [h.sym_new j e hj]
        refine Or.inr ?_
        dsimp only
        omega
    rw [if_pos hskip]
    refine .ok ⟨[], ?_, ?_, fun _ => rfl, fun p hp hlhs => ?_⟩
    · rw [List.append_nil]
      exact hrecord
    · rw [List.append_nil]
      exact hclosed
    · rw [← hlhs] at hnon
      exact absurd (hok.lhs p hp).2 hnon

/-- A sequence of calls of `dopatch` edits the productions of all its nonterminals. -/
lemma callAll_visit (h : Patching opt name live s₀ vs es s) (hok : s₀.Ok name live)
    (honce : s₀.ActsOnce) (hclosed : s₀.Closed es) {syms : List ℕ} (hsyms : ∀ n ∈ syms, n ∈ live) :
    s₀.Outcome (fun s' => ∃ es', Patching opt name live s₀ (vs ++ syms) (es ++ es') s' ∧
      ∀ p < s₀.brk, (s₀.prod p).lhs ∈ syms → s₀.Complete p (es ++ es'))
      (callAll (visit opt s₀.currnonterm) syms s) := by
  induction syms generalizing vs es s with
  | nil =>
    refine .ok ⟨[], ?_, fun p _ hp => absurd hp List.not_mem_nil⟩
    rw [List.append_nil, List.append_nil]
    exact h
  | cons n syms ih =>
    unfold callAll
    rw [List.foldlM_cons]
    refine (h.visit_spec hok honce hclosed (hsyms n List.mem_cons_self)).bind ?_
    rintro s₁ ⟨es₁, h₁, hclosed₁, -, hall₁⟩
    refine (ih h₁ hclosed₁ fun q hq => hsyms q (List.mem_cons_of_mem n hq)).mono ?_
    rintro s' ⟨es', h', hall'⟩
    rw [List.append_assoc, List.append_assoc, List.singleton_append] at h'
    refine ⟨_, h', fun p hp hlhs => ?_⟩
    rw [← List.append_assoc]
    rcases List.mem_cons.mp hlhs with hlhs | hlhs
    · exact (hall₁ p hp hlhs).mono fun e he => List.mem_append_left _ he
    · exact hall' p hp hlhs

/-- `hash_print_tab` may call `dopatch`, which edits a table in the way it allows. -/
lemma walkable (hok : s₀.Ok name live) (honce : s₀.ActsOnce) (opt : PatchOpt) :
    Walkable name PatchTab.symtab (visit opt s₀.currnonterm) (s₀.alive live)
      fun s => ∃ vs es, Patching opt name live s₀ vs es s ∧ s₀.Closed es := by
  refine ⟨fun s ⟨vs, es, h, _⟩ => h.table, ?_⟩
  rintro s n s' ⟨vs, es, h, hclosed⟩ hn hrun
  rcases h.visit_spec hok honce hclosed (h.mem_alive.mp hn).1 with
    ⟨s₁, hs₁, es', h', hclosed', hnil, -⟩ | ⟨herror, -⟩
  · obtain rfl : s₁ = s' := Except.ok.inj (hs₁.symm.trans hrun)
    have hsub : ∀ e ∈ es, e ∈ es ++ es' := fun e he => List.mem_append_left es' he
    have hsame : s.symtab.SameFns s₁.symtab :=
      ⟨h'.same.1.trans h.same.1.symm, h'.same.2.1.trans h.same.2.1.symm,
        h'.same.2.2.trans h.same.2.2.symm⟩
    refine ⟨⟨_, _, h', hclosed'⟩, ⟨hsame, h.alive_sublist h' hsub⟩, ?_⟩
    by_cases hact : IsAct (s₀.sym n).val
    · rw [hnil hact, List.append_nil] at h'
      exact h'.mem_alive.mpr (h.mem_alive.mp hn)
    · exact h'.mem_alive_of_not_isAct (h.mem_alive.mp hn).1 hact
  · rw [herror] at hrun
    cases hrun

/-- `patch`, if there are not too many actions: every call of `dopatch` is for another symbol, and
all productions are edited. -/
lemma patch_outcome (hok : s₀.Ok name live) (honce : s₀.ActsOnce) (opt : PatchOpt) {fuel : ℕ}
    (hfuel : live.length ≤ fuel) :
    s₀.Outcome (fun s => ∃ vs es, Patching opt name live s₀ vs es s ∧ vs.Nodup ∧
      (∀ a ∈ live, ¬ IsAct (s₀.sym a).val → a ∈ vs) ∧ ∀ p < s₀.brk, s₀.Complete p es)
      (patch opt fuel s₀) := by
  have hstart := start hok opt
  have hclosed : s₀.Closed [] := fun p _ => Or.inl fun e he => absurd he List.not_mem_nil
  have hlen : (s₀.alive live { s₀ with output := [], visited := [] }).length ≤ fuel :=
    (List.length_filter_le _ _).trans hfuel
  obtain ⟨vs, hnodup, hvs, hwalk, hok'⟩ :=
    walkTab_spec (walkable hok honce opt) ⟨[], [], hstart, hclosed⟩ hlen
  unfold patch
  rw [hwalk]
  have hcall :=
    hstart.callAll_visit hok honce hclosed fun n hn => (hstart.mem_alive.mp (hvs n hn)).1
  rcases hcall with ⟨s, hrun, es, h, hall⟩ | hfull
  · rw [List.nil_append, List.nil_append] at h
    have hmem : ∀ a ∈ live, ¬ IsAct (s₀.sym a).val → a ∈ vs :=
      fun a ha hact => (hok' s hrun).2.2 a (h.mem_alive_of_not_isAct ha hact)
    refine Or.inl ⟨s, hrun, vs, es, h, hnodup, hmem, fun p hp => ?_⟩
    obtain ⟨hlhs, hnon⟩ := hok.lhs p hp
    exact hall p hp (hmem _ hlhs hnon.not_isAct)
  · exact Or.inr hfull

end Patching

end Parser
