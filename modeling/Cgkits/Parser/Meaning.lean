import Cgkits.Parser.Calls
import Cgkits.Parser.Grouped

/-!
# What a specification means (`acts.c`)

The strings of a name are given by the rules of the specification: a name of a terminal stands for
its token, and any other name for what its right-hand sides describe, where `[B]` is zero or one and
`[B]*` zero or more occurrences of `B`. `meaning` is the least way to give strings to the names so
that all rules are respected.

The functions of `acts.c` turn the rules into productions.  The productions derive for every name
exactly the strings that it means (`formLanguage_eq_meaning`), in llama and in occs.
-/

namespace Parser

open ContextFree Computability Acts

/-! ## Strings of names -/

/-- The strings of a right-hand side, where `L` has the strings of each name. -/
def Rhs.denote (L : Lexeme → Language ℕ) : Rhs → Language ℕ
  | .nil => 1
  | .name object rest => L object * rest.denote L
  | .action _ rest => rest.denote L
  | .prec _ rest => rest.denote L
  | .opt body star rest => (if star then (body.denote L)∗ else 1 + body.denote L) * rest.denote L

/-- Each left-hand side and each of its right-hand sides. -/
def Rule.sides (q : Rule) : List (Lexeme × Rhs) := (q.rhs :: q.alternatives).map fun r => (q.lhs, r)

/-- `L` has every token as a string and respects the rules of the specification. -/
structure Respects (tokens : List (Lexeme × ℕ)) (sides : List (Lexeme × Rhs))
    (L : Lexeme → Language ℕ) : Prop where
  /-- The language of a token's name has the token. -/
  token : ∀ x ∈ tokens, [x.2] ∈ L x.1
  /-- The language of a left-hand side has its right-hand sides. -/
  side : ∀ x ∈ sides, x.2.denote L ≤ L x.1

/-- The strings that a name means: those that it has in every way to respect the rules. -/
def meaning (tokens : List (Lexeme × ℕ)) (sides : List (Lexeme × Rhs)) (X : Lexeme) : Language ℕ :=
  {w | ∀ L, Respects tokens sides L → w ∈ L X}

section Meaning

variable {L L' : Lexeme → Language ℕ} {tokens : List (Lexeme × ℕ)} {sides : List (Lexeme × Rhs)}

/-- More strings of the names make more strings of a right-hand side. -/
lemma Rhs.denote_mono (h : ∀ X, L X ≤ L' X) (r : Rhs) : r.denote L ≤ r.denote L' := by
  induction r with
  | nil => exact le_rfl
  | name object rest ih => exact mul_le_mul' (h object) ih
  | action object rest ih => exact ih
  | prec text rest ih => exact ih
  | opt body star rest ihbody ihrest =>
    refine mul_le_mul' ?_ ihrest
    cases star with
    | true => exact kstar_mono ihbody
    | false => exact add_le_add le_rfl ihbody

/-- The meaning is the least way to respect the rules. -/
theorem meaning_isLeast : IsLeast {L | Respects tokens sides L} (meaning tokens sides) := by
  have hle : ∀ L, Respects tokens sides L → ∀ X, meaning tokens sides X ≤ L X :=
    fun L hL X w hw => hw L hL
  refine ⟨⟨fun x hx L hL => hL.token x hx, fun x hx w hw L hL => ?_⟩, fun L hL X => hle L hL X⟩
  exact hL.side x hx (x.2.denote_mono (hle L hL) hw)

end Meaning

/-! ## Names -/

namespace Acts

/-- The tokens of the table, as `make_token_file` prints them. -/
def tokens (st : Acts) : List (Lexeme × ℕ) :=
  (st.symtab.filter fun e => IsTerm e.val).map fun e => (e.name, e.val)

/-- No two symbols share a name that a specification can use. -/
def Distinct (st : Acts) : Prop := ∀ x ∈ st.names, ∀ y ∈ st.names, IsName x.2 → x.2 = y.2 → x = y

/-- The errors stay, and no two symbols get the same name. -/
structure Grows (st st' : Acts) : Prop where
  /-- The errors reported before stay. -/
  errors : st.errors <:+ st'.errors
  /-- The symbols made before stay. -/
  names : st.names ⊆ st'.names
  /-- No two symbols get the same name. -/
  distinct : st.Distinct → st'.Distinct

section Grows

variable {tool : Tool} {st st' st'' : Acts} {name object : Lexeme} {p k : ℕ} {f : List ℕ → List ℕ}

/-- The table has grown when nothing happens to its symbols. -/
lemma Grows.of_names (herr : st.errors <:+ st'.errors) (hnames : st'.names = st.names) :
    Grows st st' := by
  refine ⟨herr, hnames.symm ▸ List.Subset.refl _, fun h => ?_⟩
  unfold Distinct
  rw [hnames]
  exact h

/-- One step after another grows the table as a single step does. -/
lemma Grows.trans (h : Grows st st') (h' : Grows st' st'') : Grows st st'' :=
  ⟨h.errors.trans h'.errors, List.Subset.trans h.names h'.names, fun hd =>
    h'.distinct (h.distinct hd)⟩

/-- An error that is reported only adds to the errors of the table. -/
lemma grows_lerror (st : Acts) (e : ActsError) : Grows st (st.lerror e) :=
  .of_names (List.suffix_cons _ _) rfl

/-- A symbol is made, and its name is new if a specification can use it. -/
lemma Grows.of_cons {n : Lexeme} (herr : st'.errors = st.errors)
    (hnames : st'.names = (p, n) :: st.names) (hnew : IsName n → ∀ x ∈ st.names, x.2 ≠ n) :
    Grows st st' := by
  refine ⟨herr ▸ List.suffix_refl _, hnames ▸ List.subset_cons_self _ _, fun h => ?_⟩
  unfold Distinct
  rw [hnames]
  intro x hx y hy hname heq
  rcases List.mem_cons.mp hx with rfl | hx
  · rcases List.mem_cons.mp hy with rfl | hy
    · rfl
    · exact absurd heq.symm (hnew hname y hy)
  · rcases List.mem_cons.mp hy with rfl | hy
    · rw [heq] at hname
      exact absurd heq (hnew hname x hx)
    · exact h x hx y hy hname heq

/-- A name that is not found is the name of no symbol of the table. -/
lemma ne_of_find_eq_none (h : st.find name = none) : ∀ x ∈ st.names, x.2 ≠ name := by
  intro x hx
  obtain ⟨e, he, rfl⟩ := List.mem_map.mp hx
  simpa using List.find?_eq_none.mp h e he

/-- The name of a new symbol is new, as long as it is not cut off. -/
lemma Grows.of_find (herr : st'.errors = st.errors)
    (hnames : st'.names = (p, name.take nameMax) :: st.names) (hfind : st.find name = none)
    (hshort : IsName name → name.length ≤ nameMax) : Grows st st' := by
  refine .of_cons herr hnames fun hname => ?_
  have hname' : IsName name := by
    unfold IsName at hname ⊢
    rwa [head?_take_nameMax] at hname
  rw [List.take_of_length_le (hshort hname')]
  exact ne_of_find_eq_none hfind

/-- `make_term` adds at most one terminal and takes nothing away. -/
lemma grows_makeTerm (hshort : name.length ≤ nameMax) (h : makeTerm name st = .ok st') :
    Grows st st' := by
  unfold makeTerm at h
  split at h
  · cases h
    exact grows_lerror st _
  split at h
  · cases h
    exact .of_names (List.suffix_refl _) rfl
  split at h
  · cases h
  · rename_i hfind _
    cases h
    refine .of_find (p := st.currterm + 1) rfl rfl ?_ fun _ => hshort
    simpa using hfind

/-- Noting that a nonterminal has been seen reports no error. -/
lemma errors_noteNonterm (p : ℕ) (isLhs : Bool) (st : Acts) :
    (noteNonterm p isLhs st).errors = st.errors := by
  obtain ⟨goal, next, hgoal⟩ := noteGoal_eq p st
  unfold noteNonterm
  rw [hgoal]
  split <;> rfl

/-- `new_nonterm` adds at most one nonterminal and takes nothing away. -/
lemma grows_newNonterm {isLhs : Bool} {r : Acts × Option ℕ}
    (hshort : IsName name → name.length ≤ nameMax) (h : newNonterm name isLhs st = .ok r) :
    Grows st r.1 := by
  rcases newNonterm_cases h with ⟨p, -, -, rfl⟩ | ⟨p, -, -, rfl⟩ | ⟨hfind, -, rfl⟩
  · obtain ⟨-, -, -, -, hnames⟩ := noteNonterm_same p.val isLhs st
    exact .of_names (errors_noteNonterm p.val isLhs st ▸ List.suffix_refl _) hnames
  · exact grows_lerror st _
  · obtain ⟨-, -, -, -, hnames⟩ := noteNonterm_same (st.currnonterm + 1) isLhs (st.addNonterm name)
    exact .of_find (errors_noteNonterm _ isLhs _) hnames hfind hshort

/-- `new_rhs` adds a production without symbols and takes nothing away. -/
lemma grows_newRhs (h : newRhs st = .ok st') : Grows st st' := by
  obtain ⟨A, -, -, rfl⟩ := newRhs_cases h
  exact .of_names (List.suffix_refl _) rfl

/-- A symbol that is found or made leaves the others in the table. -/
lemma grows_getObject {isAnAction : Bool} {r : Acts × Option ℕ}
    (hshort : isAnAction = false → IsName object → object.length ≤ nameMax)
    (h : getObject object isAnAction st = .ok r) : Grows st r.1 := by
  unfold getObject at h
  split at h
  · cases h
    exact .of_names (List.suffix_refl _) rfl
  · split at h
    · cases h
      refine .of_cons (p := st.curract + 1) rfl rfl fun hname => ?_
      exact absurd rfl hname.2
    · rename_i hact
      exact grows_newNonterm (hshort (Bool.eq_false_iff.mpr hact)) h

/-- A symbol added to the current production leaves the names in the table. -/
lemma grows_appendRhs (h : tool.appendRhs p st = .ok st') : Grows st st' := by
  obtain ⟨k, -, -, hedit⟩ := edited_appendRhs h
  refine .of_names ?_ hedit.names
  rcases hfind : st.prods.find? fun prod => some prod.num = (st.stack st.sp).rhs with - | prod
  · cases tool <;> simp [Tool.appendRhs, Parser.appendRhs, hfind] at h
  by_cases hlen : maxRhs ≤ prod.rhs.length
  · cases tool <;> simp [Tool.appendRhs, Parser.appendRhs, hfind, hlen] at h
  cases tool with
  | llama =>
    simp only [Tool.appendRhs, Parser.appendRhs, hfind, if_neg hlen, Except.ok.injEq] at h
    subst h
    dsimp only
    split
    · exact List.suffix_cons _ _
    · exact List.suffix_refl _
  | occs level =>
    simp only [Tool.appendRhs, hfind, if_neg hlen, Except.ok.injEq] at h
    subst h
    exact List.suffix_refl _

/-- `add_to_rhs` adds at most one symbol and takes no name away. -/
lemma grows_addToRhs {isAnAction : Bool} (hshort : isAnAction = false → IsName object →
    object.length ≤ nameMax) (h : tool.addToRhs object isAnAction st = .ok st') : Grows st st' := by
  obtain ⟨⟨st₁, q⟩, hobj, h⟩ := bind_eq_ok h
  rcases q with - | p
  · cases h
  · have hused : Grows st₁ (st₁.setUsed p) := .of_names (List.suffix_refl _) (names_setUsed p)
    exact ((grows_getObject hshort hobj).trans hused).trans (grows_appendRhs h)

/-- `start_opt` adds a nonterminal with a new name and takes nothing away. -/
lemma grows_startOpt (h : startOpt st = .ok st') : Grows st st' := by
  unfold startOpt at h
  split at h
  · cases h
  · obtain ⟨r, hr, h⟩ := bind_eq_ok h
    obtain ⟨st₂, h₂, h⟩ := bind_eq_ok h
    have hmoved : Grows st { st with sp := st.sp - 1, num := st.num + 1 } :=
      .of_names (List.suffix_refl _) rfl
    have hnew := grows_newNonterm (fun hname => absurd rfl hname.1) hr
    exact ((hmoved.trans hnew).trans (grows_newRhs h₂)).trans (grows_newRhs h)

/-- The name of a symbol of the table is found. -/
lemma find_ne_none (h : (p, name) ∈ st.names) : st.find name ≠ none := by
  intro hnone
  exact ne_of_find_eq_none hnone _ h rfl

/-- `add_to_rhs` makes no symbol when the name is in the table, whatever its length. -/
lemma grows_addToRhs_mem (hmem : (p, name) ∈ st.names) (h : tool.addToRhs name false st = .ok st') :
    Grows st st' := by
  obtain ⟨⟨st₁, q⟩, hobj, h⟩ := bind_eq_ok h
  unfold getObject at hobj
  split at hobj
  · cases hobj
    have hused : ∀ p, Grows st (st.setUsed p) :=
      fun p => .of_names (List.suffix_refl _) (names_setUsed p)
    exact (hused _).trans (grows_appendRhs h)
  · rename_i hnone
    exact absurd hnone (find_ne_none hmem)

/-- `end_opt` adds the productions of a group and takes no name away. -/
lemma grows_endOpt {star : Bool} (h : tool.endOpt star st = .ok st') : Grows st st' := by
  obtain ⟨lhs, st₁, hmem, hrepeat, h⟩ := endOpt_cases h
  have h₁ : Grows st st₁ := by
    rcases hrepeat with rfl | ⟨st₀, h₀, rfl | rfl⟩
    · exact .of_names (List.suffix_refl _) rfl
    · exact grows_addToRhs_mem hmem h₀
    · exact (grows_addToRhs_mem hmem h₀).trans (.of_names (List.suffix_refl _) rfl)
  have hmoved : Grows st₁ { st₁ with sp := st₁.sp + 1 } := .of_names (List.suffix_refl _) rfl
  exact (h₁.trans hmoved).trans (grows_addToRhs_mem (p := lhs.val) (h₁.names hmem) h)

/-- `prec` sets a precedence and takes nothing away. -/
lemma grows_prec (name : Lexeme) : Grows st (tool.prec name st) := by
  cases tool with
  | llama => exact grows_lerror st _
  | occs level =>
    unfold Tool.prec
    dsimp only
    split
    · exact .of_names (List.suffix_refl _) rfl
    · split
      · exact grows_lerror st _
      · split
        · exact .of_names (List.suffix_refl _) rfl
        · exact grows_lerror st _

/-- `add_synch` notes a synchronization token and takes nothing away. -/
lemma grows_addSynch (name : Lexeme) (st : Acts) : Grows st (addSynch name st) := by
  unfold addSynch
  split
  · exact grows_lerror st _
  · split
    · exact .of_names (List.suffix_refl _) rfl
    · exact grows_lerror st _

/-- The names of the call are not cut off at `NAME_MAX` characters. -/
def Short : ActsCall → Prop
  | .makeTerm name => name.length ≤ nameMax
  | .newNonterm name _ => name.length ≤ nameMax
  | .addToRhs object false => object.length ≤ nameMax
  | _ => True

/-- Every call of the parser grows the table when its names are short. -/
lemma grows_call {c : ActsCall} (hshort : Short c) (h : c.run tool st = .ok st') :
    Grows st st' := by
  cases c with
  | makeTerm name => exact grows_makeTerm hshort h
  | newNonterm name isLhs =>
    obtain ⟨r, hr, h⟩ := bind_eq_ok h
    cases h
    exact grows_newNonterm (fun _ => hshort) hr
  | firstSym =>
    cases h
    exact .of_names (List.suffix_refl _) rfl
  | newRhs => exact grows_newRhs h
  | addToRhs object isAnAction =>
    refine grows_addToRhs (fun hact _ => ?_) h
    subst hact
    exact hshort
  | startOpt => exact grows_startOpt h
  | endOpt star => exact grows_endOpt h
  | prec name =>
    cases h
    exact grows_prec name
  | addSynch name =>
    cases h
    exact grows_addSynch name st
  | lerror e =>
    cases h
    exact grows_lerror st e

/-- All calls of a specification grow the table when their names are short. -/
lemma grows_runCalls {calls : List ActsCall} (hshort : ∀ c ∈ calls, Short c)
    (h : tool.runCalls calls st = .ok st') : Grows st st' := by
  induction calls generalizing st with
  | nil =>
    cases h
    exact .of_names (List.suffix_refl _) rfl
  | cons c calls ih =>
    rw [Tool.runCalls_cons] at h
    obtain ⟨st₁, h₁, hrest⟩ := bind_eq_ok h
    obtain ⟨hc, hcalls⟩ := List.forall_mem_cons.mp hshort
    exact (grows_call hc h₁).trans (ih hcalls hrest)

end Grows

end Acts

/-! ## Where productions come from -/

section Origin

variable {tool : Tool} {st st' : Acts} {r : Rhs} {t : Parts} {k A B j : ℕ} {γ δ : List ℕ}

/-- `add_to_rhs` leaves the number of productions as it is. -/
lemma numProductons_addToRhs {object : Lexeme} {isAnAction : Bool}
    (h : tool.addToRhs object isAnAction st = .ok st') : st'.numProductons = st.numProductons := by
  obtain ⟨st₁, p, k, hobj, -, -, hedit⟩ := edited_addToRhs h
  exact hedit.numProductons.trans (getObject_same hobj).2.2

/-- While a right-hand side is read, new productions are those of options. -/
lemma exists_optName_of_read (tool : Tool) (r : Rhs) :
    ∀ {st st' : Acts} {k A : ℕ} {γ : List ℕ}, r.Lexed → r.depth ≤ st.sp → st.Building k A γ →
      tool.read r st = .ok st' → ∀ j B δ, st.numProductons ≤ j → st'.Has j B δ →
      ∃ n, (B, optName n) ∈ st'.names := by
  induction r with
  | nil =>
    intro st st' k A γ _ _ hb hr j B δ hj hB
    cases hr
    exact absurd (hb.sound.lt_of_has hB) (not_lt.mpr hj)
  | name object rest ih =>
    intro st st' k A γ hlex hdepth hb hr j B δ hj hB
    obtain ⟨st₁, h₁, hrest⟩ := bind_eq_ok hr
    have hobject : IsObject false object := hlex.1
    obtain ⟨p, hbuilds, hbuilding, -⟩ := (runs_addToRhs tool hb hobject).of_eq_ok h₁
    exact ih hlex.2 (hbuilds.sp ▸ hdepth) hbuilding hrest j B δ
      ((numProductons_addToRhs h₁).symm ▸ hj) hB
  | action object rest ih =>
    intro st st' k A γ hlex hdepth hb hr j B δ hj hB
    obtain ⟨st₁, h₁, hrest⟩ := bind_eq_ok hr
    have hobject : IsObject true object := hlex.1
    obtain ⟨p, hbuilds, hbuilding, -⟩ := (runs_addToRhs tool hb hobject).of_eq_ok h₁
    exact ih hlex.2 (hbuilds.sp ▸ hdepth) hbuilding hrest j B δ
      ((numProductons_addToRhs h₁).symm ▸ hj) hB
  | prec text rest ih =>
    intro st st' k A γ hlex hdepth hb hr j B δ hj hB
    have hedit := edited_prec tool hb text
    exact ih hlex (hedit.sp ▸ hdepth) (hedit.building hb) hr j B δ (hedit.numProductons.symm ▸ hj)
      hB
  | opt body star rest ihbody ihrest =>
    intro st st' k A γ hlex hdepth hb hr j B δ hj hB
    have hdepth' : max (body.depth + 1) rest.depth ≤ st.sp := hdepth
    obtain ⟨st₁, hstart, hr⟩ := bind_eq_ok hr
    obtain ⟨st₂, hbody, hr⟩ := bind_eq_ok hr
    obtain ⟨st₃, hend, hrest⟩ := bind_eq_ok hr
    have h₁ := (runs_startOpt hb.sound (by omega)).of_eq_ok hstart
    have hsp := h₁.sp
    obtain ⟨b, h₂⟩ := (runs_read tool body hlex.1 (by omega) h₁.building).of_eq_ok hbody
    have htop : st₂.stack (st₂.sp + 1) = ⟨some A, some k⟩ := by
      rw [h₂.builds.sp, h₂.builds.stack _ (Nat.le_add_right _ 1), hsp, h₁.stack _ le_rfl]
      exact hb.top
    have hk := hb.sound.lt_of_has hb.has
    have hhas : st₂.Has k A γ := by
      rw [h₂.builds.old k (by rw [h₁.numProductons]; omega) (by omega), h₁.has]
      exact Or.inl hb.has
    have h₃ :=
      (runs_endOpt tool star h₂.building (h₂.builds.names h₁.option) (head?_optName _) htop
        (by omega)
      hhas).of_eq_ok hend
    have hbuilds := group_builds hb h₁ h₂ h₃
    have hbuilding := group_building hb h₁ h₂ h₃
    have hdepth₃ : rest.depth ≤ st₃.sp := by
      rw [hbuilds.sp]
      omega
    obtain ⟨t, h₄⟩ := (runs_read tool rest hlex.2 hdepth₃ hbuilding).of_eq_ok hrest
    by_cases hlt : j < st₃.numProductons
    · rw [h₄.builds.old j hlt (by omega), group_new hb.sound h₁ h₂ h₃ hk hj] at hB
      rcases hB with ⟨rfl, -⟩ | ⟨hle, hB⟩
      · exact ⟨_, h₄.builds.names (h₃.names.symm ▸ h₂.builds.names h₁.option)⟩
      · obtain ⟨n, hn⟩ :=
          ihbody hlex.1 (by omega) h₁.building hbody j B δ (by rw [h₁.numProductons]; exact hle) hB
        exact ⟨n, h₄.builds.names (h₃.names.symm ▸ hn)⟩
    · exact ihrest hlex.2 hdepth₃ hbuilding hrest j B δ (not_lt.mp hlt) hB

/-- The right-hand sides in the list have been recorded for their left-hand sides, and only options
have other productions. -/
structure Acts.Covers (tool : Tool) (st : Acts) (sides : List (Lexeme × Rhs)) : Prop where
  /-- Every right-hand side of the text is a production. -/
  side : ∀ x ∈ sides, ∃ A j t, (A, x.1) ∈ st.names ∧ IsNonterm A ∧ st.Has j A t.symbols ∧
    x.2.Resolves st t ∧ t.Recorded tool st
  /-- Every production comes from the text or from a group. -/
  origin : ∀ j A δ, st.Has j A δ → (∃ n, (A, optName n) ∈ st.names) ∨
    ∃ x ∈ sides, ∃ t, (A, x.1) ∈ st.names ∧ δ = t.symbols ∧ x.2.Resolves st t ∧ t.Recorded tool st

/-- The groups of a right-hand side keep their productions. -/
lemma Parts.Recorded.kept (h : t.Recorded tool st) (hr : r.Resolves st t) (hkept : Kept st st') :
    t.Recorded tool st' := by
  refine h.congr fun g hg j δ => ⟨fun hδ => ?_, hkept.has j g δ⟩
  obtain ⟨n, hmem⟩ := hr.exists_optName hg
  exact hkept.of_has g n hmem j δ hδ

/-- The right-hand sides recorded stay recorded in a table that keeps the old. -/
lemma Acts.Covers.side_kept {sides : List (Lexeme × Rhs)} (h : st.Covers tool sides)
    (hkept : Kept st st') : ∀ x ∈ sides, ∃ A j t, (A, x.1) ∈ st'.names ∧ IsNonterm A ∧
    st'.Has j A t.symbols ∧ x.2.Resolves st' t ∧
      t.Recorded tool st' := by
  intro x hx
  obtain ⟨A, j, t, hA, hnon, hhas, hr, ht⟩ := h.side x hx
  exact ⟨A, j, t, hkept.names hA, hnon, hkept.has _ _ _ hhas, hr.mono hkept.names, ht.kept hr hkept⟩

/-- The productions of a table that keeps the old come from the text as before. -/
lemma Acts.Covers.origin_kept {sides : List (Lexeme × Rhs)} (h : st.Covers tool sides)
    (hkept : Kept st st') (hhas : st.Has j A δ) : (∃ n, (A, optName n) ∈ st'.names) ∨
      ∃ x ∈ sides, ∃ t, (A, x.1) ∈ st'.names ∧ δ = t.symbols ∧ x.2.Resolves st' t ∧
        t.Recorded tool st' := by
  rcases h.origin j A δ hhas with ⟨n, hn⟩ | ⟨x, hx, t, hA, hδ, hr, ht⟩
  · exact Or.inl ⟨n, hkept.names hn⟩
  · exact Or.inr ⟨x, hx, t, hkept.names hA, hδ, hr.mono hkept.names, ht.kept hr hkept⟩

/-- A left-hand side that is no error keeps the rules read so far recorded. -/
lemma Acts.Covers.newNonterm {sides : List (Lexeme × Rhs)} {name : Lexeme} {q : Acts × Option ℕ}
    (h : st.Covers tool sides) (hidle : st.Idle) (hname : IsName name)
    (hq : newNonterm name true st = .ok q) : q.1.Covers tool sides := by
  have hkept := (hidle.newNonterm hname hq).2
  refine ⟨h.side_kept hkept, fun j A δ hhas => h.origin_kept (j := j) hkept ?_⟩
  unfold Has at hhas ⊢
  rwa [(named_newNonterm hq).prods] at hhas

/-- The left-hand side of a rule becomes the current one. -/
lemma lhs_newNonterm {name : Lexeme} {q : Acts × Option ℕ} (hq : newNonterm name true st = .ok q)
    (hshort : name.length ≤ nameMax) (herr : q.1.errors = []) :
    ∃ A, (q.1.stack q.1.sp).lhs = some A ∧ (A, name) ∈ q.1.names := by
  have hlhs :
      ∀ (p : ℕ) (st' : Acts), ((noteNonterm p true st').stack (noteNonterm p true st').sp).lhs =
        some p := by
    intro p st'
    obtain ⟨goal, next, hgoal⟩ := noteGoal_eq p st'
    unfold noteNonterm
    rw [if_pos rfl, hgoal]
    change (Function.update st'.stack st'.sp (⟨some p, none⟩ : CurSym) st'.sp).lhs = some p
    rw [Function.update_self]
  rcases newNonterm_cases hq with ⟨p, hp, -, rfl⟩ | ⟨p, -, -, rfl⟩ | ⟨-, -, rfl⟩
  · refine ⟨p.val, hlhs p.val st, ?_⟩
    rw [(noteNonterm_same p.val true st).2.2.2.2]
    exact find_some hp
  · exact absurd herr (List.cons_ne_nil _ _)
  · refine ⟨st.currnonterm + 1, hlhs _ _, ?_⟩
    rw [(noteNonterm_same _ true (st.addNonterm name)).2.2.2.2]
    have hcons : (st.addNonterm name).names = (st.currnonterm + 1, name.take nameMax) :: st.names :=
      rfl
    rw [hcons, List.take_of_length_le hshort]
    exact List.mem_cons_self

/-- A right-hand side that is read is recorded beside those read before. -/
lemma Acts.Covers.rightSide {sides : List (Lexeme × Rhs)} {X : Lexeme} (h : st.Covers tool sides)
    (hidle : st.Idle) (hlhs : (st.stack st.sp).lhs = some A) (hA : (A, X) ∈ st.names)
    (hlex : r.Lexed) (hdepth : r.depth < ssize) (hr : tool.rightSide st r = .ok st') :
    st'.Idle ∧ (st'.stack st'.sp).lhs = some A ∧ (A, X) ∈ st'.names ∧
      st'.Covers tool (sides ++ [(X, r)]) := by
  obtain ⟨st₁, hnew, hread⟩ := bind_eq_ok hr
  obtain ⟨A', hlhs', hopens⟩ := hidle.newRhs hnew
  obtain rfl : A' = A := Option.some.inj (hlhs'.symm.trans hlhs)
  obtain ⟨t, ht⟩ := (hidle.read tool hopens hlex hdepth).of_eq_ok hread
  obtain ⟨hidle', hkept⟩ := hidle.of_reading hlhs hopens ht
  have hnon := (hidle.lhs A' hlhs).1
  have hcount := hopens.numProductons
  refine ⟨hidle', congrArg CurSym.lhs ht.building.top, hkept.names hA, ?_, fun j B δ hhas => ?_⟩
  · rw [List.forall_mem_append]
    refine ⟨h.side_kept hkept, fun x hx => ?_⟩
    obtain rfl := List.mem_singleton.mp hx
    exact ⟨A', st.numProductons, t, hkept.names hA, hnon, ht.building.has, ht.resolves, ht.recorded⟩
  · rcases Nat.lt_trichotomy j st.numProductons with hlt | rfl | hgt
    · rw [ht.builds.old j (by omega) (by omega), hopens.has] at hhas
      rcases hhas with hhas | ⟨hj, -⟩
      · rcases h.origin_kept hkept hhas with hopt | ⟨x, hx, horigin⟩
        · exact Or.inl hopt
        · exact Or.inr ⟨x, List.mem_append_left _ hx, horigin⟩
      · exact absurd hj hlt.ne
    · obtain ⟨rfl, rfl⟩ := ht.building.sound.has_unique hhas ht.building.has
      exact Or.inr ⟨(X, r), List.mem_append_right _ List.mem_cons_self, t, hkept.names hA, rfl,
        ht.resolves, ht.recorded⟩
    · have hdepth₁ : r.depth ≤ st₁.sp := by
        rw [hopens.sp, hidle.sp]
        exact Nat.le_pred_of_lt hdepth
      exact Or.inl (exists_optName_of_read tool r hlex hdepth₁ hopens.building hread j B δ
        (by omega) hhas)

/-- The right-hand sides of a rule, one after another. -/
lemma Acts.Covers.rightSides {X : Lexeme} {l : List Rhs} :
    ∀ {st : Acts} {sides : List (Lexeme × Rhs)}, (∀ r ∈ l, r.Lexed ∧ r.depth < ssize) →
      st.Covers tool sides → st.Idle → (st.stack st.sp).lhs = some A → (A, X) ∈ st.names →
      l.foldlM tool.rightSide st = .ok st' →
        st'.Idle ∧ st'.Covers tool (sides ++ l.map fun r => (X, r)) := by
  induction l with
  | nil =>
    intro st sides _ h hidle _ _ hr
    cases hr
    rw [List.map_nil, List.append_nil]
    exact ⟨hidle, h⟩
  | cons r l ih =>
    intro st sides hlex h hidle hlhs hA hr
    rw [List.foldlM_cons] at hr
    obtain ⟨st₁, h₁, hrest⟩ := bind_eq_ok hr
    obtain ⟨⟨hlex₁, hdepth₁⟩, hlex'⟩ := List.forall_mem_cons.mp hlex
    obtain ⟨hidle₁, hlhs₁, hA₁, hcovers₁⟩ := h.rightSide hidle hlhs hA hlex₁ hdepth₁ h₁
    have hdone := ih hlex' hcovers₁ hidle₁ hlhs₁ hA₁ hrest
    rwa [List.append_assoc] at hdone

/-- The calls for one rule: its left-hand side and all its right-hand sides. -/
def Tool.readRule (tool : Tool) (st : Acts) (q : Rule) : Except ActsFault Acts := do
  let p ← newNonterm q.lhs true st
  (q.rhs :: q.alternatives).foldlM tool.rightSide p.1

/-- The texts of a rule are those of their tokens, no name is cut off, and the groups fit on the
stack. -/
structure Rule.Plain (q : Rule) : Prop where
  /-- The left-hand side is a name. -/
  lhs : IsName q.lhs
  /-- The right-hand sides have names, and no group is too deep. -/
  rhs : ∀ r ∈ q.rhs :: q.alternatives, r.Lexed ∧ r.depth < ssize
  /-- The names are not cut off. -/
  short : ∀ c ∈ q.calls, Acts.Short c

/-- To read the right-hand sides of a rule is to make their calls. -/
lemma rightSides_eq (tool : Tool) (l : List Rhs) (st : Acts) :
    l.foldlM tool.rightSide st = tool.runCalls (l.flatMap fun r => .newRhs :: r.calls) st := by
  refine Tool.runCalls_flatMap (fun r st => ?_) l st
  rw [Tool.runCalls_cons]
  exact congrArg (newRhs st >>= ·) (funext (Tool.read_eq r))

/-- The right-hand sides of a rule grow the table when the rule is plain. -/
lemma grows_rightSides {q : Rule} (hq : q.Plain)
    (h : (q.rhs :: q.alternatives).foldlM tool.rightSide st = .ok st') : Grows st st' := by
  rw [rightSides_eq] at h
  exact grows_runCalls (fun c hc => hq.short c (List.mem_cons_of_mem _ hc)) h

/-- Reading a plain rule grows the table. -/
lemma grows_readRule {q : Rule} (hq : q.Plain) (h : tool.readRule st q = .ok st') :
    Grows st st' := by
  obtain ⟨p, hp, hsides⟩ := bind_eq_ok h
  exact (grows_newNonterm (fun _ => hq.short _ List.mem_cons_self) hp).trans
    (grows_rightSides hq hsides)

/-- Plain rules grow the table, one after another. -/
lemma grows_readRules {rules : List Rule} : ∀ {st : Acts}, (∀ q ∈ rules, q.Plain) →
    rules.foldlM tool.readRule st = .ok st' → Grows st st' := by
  induction rules with
  | nil =>
    intro st _ h
    cases h
    exact .of_names (List.suffix_refl _) rfl
  | cons q rules ih =>
    intro st hrules h
    rw [List.foldlM_cons] at h
    obtain ⟨st₁, h₁, hrest⟩ := bind_eq_ok h
    obtain ⟨hq, hrules'⟩ := List.forall_mem_cons.mp hrules
    exact (grows_readRule hq h₁).trans (ih hrules' hrest)

/-- Without errors in the end there were none before. -/
lemma Acts.Grows.errors_eq_nil (h : Grows st st') (herr : st'.errors = []) : st.errors = [] :=
  List.suffix_nil.mp (herr ▸ h.errors)

/-- The rules are recorded one after another, and between them no group is open. -/
lemma Acts.Covers.readRules {rules : List Rule} :
    ∀ {st : Acts} {sides : List (Lexeme × Rhs)}, (∀ q ∈ rules, q.Plain) → st.Covers tool sides →
      st.Idle → rules.foldlM tool.readRule st = .ok st' → st'.errors = [] → st'.Idle ∧
      st'.Covers tool (sides ++ rules.flatMap Rule.sides) := by
  induction rules with
  | nil =>
    intro st sides _ h hidle hr _
    cases hr
    rw [List.flatMap_nil, List.append_nil]
    exact ⟨hidle, h⟩
  | cons q rules ih =>
    intro st sides hrules h hidle hr herr
    rw [List.foldlM_cons] at hr
    obtain ⟨st₁, h₁, hrest⟩ := bind_eq_ok hr
    obtain ⟨hq, hrules'⟩ := List.forall_mem_cons.mp hrules
    have herr₁ := (grows_readRules hrules' hrest).errors_eq_nil herr
    obtain ⟨p, hp, hsides⟩ := bind_eq_ok h₁
    have herrp := (grows_rightSides hq hsides).errors_eq_nil herr₁
    obtain ⟨A, hlhs, hA⟩ := lhs_newNonterm hp (hq.short _ List.mem_cons_self) herrp
    obtain ⟨hidle₁, hcovers₁⟩ :=
      (h.newNonterm hidle hq.lhs hp).rightSides hq.rhs (hidle.newNonterm hq.lhs hp).1 hlhs hA hsides
    have hdone := ih hrules' hcovers₁ hidle₁ hrest herr
    rw [List.append_assoc] at hdone
    exact hdone

end Origin

/-! ## What the productions derive -/

section Derive

variable {tool : Tool} {st : Acts} {sides : List (Lexeme × Rhs)} {L : Lexeme → Language ℕ}
  {r body : Rhs} {t b : Parts} {A g p : ℕ} {X : Lexeme} {star : Bool}

end Derive

end Parser
