import Cgkits.Parser.Calls

/-!
# Action symbols (`add_to_rhs`)

An action gets a symbol with the name `{DDD}`, where `DDD` is its number, and the symbol keeps the
text of the action. The table is searched for the text before anything else, and the text of an
action may look like the name of an earlier one: the text `{0}` is then taken for the first action,
and that one is executed in its place.

`Numbered` is what the table knows about actions: their names are those of the numbers that have
been given out, in order, and no other name starts with a brace. So a call makes a new symbol
exactly when its text is none of these names (`fresh_iff`), and all calls do if no text is the name
of an earlier action (`actions_fresh_iff`).
-/

namespace Parser

/-! ## The texts of the actions -/

/-- The variables of `acts.c`, with the field `string` of the actions. -/
structure Written where
  /-- The variables of `acts.c`. -/
  acts : Acts
  /-- The actions with their texts, the newest in front. -/
  strings : List (ℕ × Lexeme)

/-- The variables before the first call, with no text of an action. -/
def initWritten : Written := ⟨initActs, []⟩

/-- `p->string = sys_strdup(object)`, for a new action. -/
def ActsCall.save (st : Acts) (strings : List (ℕ × Lexeme)) : ActsCall → List (ℕ × Lexeme)
  | addToRhs object true =>
    if (st.find object).isNone then (st.curract + 1, object) :: strings else strings
  | _ => strings

/-- A call that returns, with the texts of the actions. -/
structure Tool.Writes (tool : Tool) (c : ActsCall) (w w' : Written) : Prop where
  /-- The call does what it does to the variables. -/
  calls : tool.Calls c w.acts w'.acts
  /-- The texts are those before and the one it saves. -/
  strings : w'.strings = c.save w.acts w.strings

/-- The texts of the tokens are those of the lexer. -/
def ActsCall.Lexed : ActsCall → Prop
  | makeTerm name => IsName name
  | newNonterm name _ => IsName name
  | addToRhs object isAnAction => IsObject isAnAction object
  | _ => True

/-- The text of the action that a call adds, if it adds one. -/
def ActsCall.actionText : ActsCall → Option Lexeme
  | addToRhs object true => some object
  | _ => none

/-- The texts of the actions that some calls add, in order. -/
def actionTexts (calls : List ActsCall) : List Lexeme := calls.filterMap ActsCall.actionText

/-- The call for an action makes a symbol of its own, which keeps the text and stands at the end of
the current production. -/
structure Fresh (object : Lexeme) (w w' : Written) : Prop where
  /-- The action gets a new number. -/
  curract : w'.acts.curract = w.acts.curract + 1
  /-- No symbol had the number of the action. -/
  new : ∀ x ∈ w.acts.names, x.1 ≠ w'.acts.curract
  /-- The text is saved under the number of the action. -/
  string : w'.strings.lookup w'.acts.curract = some object
  /-- The name, which no other symbol has. -/
  name : ∃ name, (w'.acts.curract, name) ∈ w'.acts.names ∧ ∀ x ∈ w'.acts.names, x.2 = name →
    x.1 = w'.acts.curract
  /-- The action is the last symbol of the current production. -/
  rhs : ∃ q ∈ w'.acts.prods, some q.num = (w'.acts.stack w'.acts.sp).rhs ∧
    q.rhs.getLast? = some w'.acts.curract

/-! ## The names of the actions -/

/-- Different actions have different names. -/
lemma actName_injective : Function.Injective actName := by
  intro m n h
  have hdigits : Nat.toDigits 10 m = Nat.toDigits 10 n :=
    List.append_cancel_right (List.cons.inj h).2
  rw [← Nat.ofDigitChars_ten_toDigits (n := m), hdigits, Nat.ofDigitChars_ten_toDigits]

/-- The name of an action is short enough for the table. -/
lemma take_actName {n : ℕ} (h : n < 10 ^ 6) : (actName n).take nameMax = actName n := by
  have hlen : (Nat.toDigits 10 n).length ≤ 6 :=
    (Nat.length_toDigits_le_iff (by omega) (by omega)).mpr h
  refine List.take_of_length_le ?_
  rw [actName, List.length_cons, List.length_append, List.length_singleton]
  have hmax : nameMax = 255 := rfl
  omega

namespace Acts

variable {tool : Tool} {st st₁ st' : Acts} {c : ActsCall} {object : Lexeme} {k p : ℕ}

/-- The table knows the actions by their numbers: each has one entry, under its own name. -/
structure Numbered (st : Acts) : Prop where
  /-- The numbers are those of actions. -/
  le_curract : minAct ≤ st.curract + 1
  /-- Each number that has been given out has its name. -/
  mem : ∀ k, minAct + k ≤ st.curract → (minAct + k, actName k) ∈ st.names
  /-- There are no other actions, and no other names that start with a brace. -/
  names : ∀ x ∈ st.names, (x.1 < minAct ∧ x.2.head? ≠ some '{') ∨
    ∃ k, minAct + k ≤ st.curract ∧ x = (minAct + k, actName k)

/-- The productions are numbered, their lengths are bounded, and they have at least as many elements
as there are actions. -/
structure Bounded (st : Acts) : Prop where
  /-- The numbers of the productions. -/
  nums : st.prods.map Production.num = (List.range st.numProductons).reverse
  /-- There are not too many productions. -/
  count : st.numProductons ≤ maxProd
  /-- The right-hand sides are not too long. -/
  length_le : ∀ q ∈ st.prods, q.rhs.length ≤ maxRhs
  /-- There are no more actions than symbols in the productions. -/
  curract_le : st.curract + 1 ≤ minAct + (st.prods.map fun q => q.rhs.length).sum

/-- An action is found by its text if the text is the name of an earlier action. -/
lemma Numbered.find_eq_none_iff (h : st.Numbered) (hobject : IsAction object) :
    st.find object = none ↔ ∀ k, minAct + k ≤ st.curract → object ≠ actName k := by
  constructor
  · rintro hnone k hk rfl
    exact find_none hnone (h.mem k hk) rfl
  · intro hne
    rcases hfind : st.find object with - | e
    · rfl
    · rcases h.names _ (find_some hfind) with ⟨-, hhead⟩ | ⟨k, hk, heq⟩
      · exact absurd hobject hhead
      · exact absurd (congrArg Prod.snd heq) (hne k hk)

/-- There are fewer than a million actions, so that their names have at most six digits. -/
lemma Bounded.curract_lt (h : st.Bounded) : st.curract + 1 < minAct + 10 ^ 6 := by
  have hlen : st.prods.length = st.numProductons := by
    have heq := congrArg List.length h.nums
    rwa [List.length_map, List.length_reverse, List.length_range] at heq
  have hsum := List.sum_le_card_nsmul (st.prods.map fun q => q.rhs.length) maxRhs (by
    rintro n hn
    obtain ⟨q, hq, rfl⟩ := List.mem_map.mp hn
    exact h.length_le q hq)
  rw [List.length_map, hlen] at hsum
  have hmul : st.numProductons * maxRhs ≤ 512 * 31 := Nat.mul_le_mul h.count le_rfl
  have hsum' := hsum.trans hmul
  have hle := h.curract_le
  omega

/-- When the productions and the counters are not changed, the state stays bounded. -/
lemma Bounded.congr (h : st.Bounded) (hprods : st'.prods = st.prods)
    (hcount : st'.numProductons = st.numProductons) (hact : st'.curract = st.curract) :
    st'.Bounded :=
  ⟨by
    rw [hprods, hcount, h.nums], hcount ▸ h.count, hprods ▸
      h.length_le, by rw [hprods, hact]; exact h.curract_le⟩

/-- When the right-hand sides keep their numbers and lengths, the state stays bounded. -/
lemma Bounded.map (h : st.Bounded) {F : Production → Production}
    (hF : ∀ q, (F q).num = q.num ∧ (F q).rhs.length = q.rhs.length)
    (hprods : st'.prods = st.prods.map F) (hcount : st'.numProductons = st.numProductons)
    (hact : st'.curract = st.curract) : st'.Bounded := by
  have hnums : st'.prods.map Production.num = st.prods.map Production.num := by
    rw [hprods, List.map_map]
    exact List.map_congr_left fun q _ => (hF q).1
  have hsum : (st'.prods.map fun q => q.rhs.length) = st.prods.map fun q => q.rhs.length := by
    rw [hprods, List.map_map]
    exact List.map_congr_left fun q _ => (hF q).2
  refine ⟨by
    rw [hnums, hcount, h.nums], hcount ▸ h.count, ?_, by rw [hsum, hact]; exact h.curract_le⟩
  intro q' hq'
  rw [hprods] at hq'
  obtain ⟨q, hq, rfl⟩ := List.mem_map.mp hq'
  rw [(hF q).2]
  exact h.length_le q hq

/-- When a production is edited, but not made longer, the state stays bounded. -/
lemma Bounded.editRhs (h : st.Bounded) {f : Production → Production}
    (hf : ∀ q, (f q).num = q.num ∧ (f q).rhs.length = q.rhs.length) : (st.editRhs f).Bounded := by
  refine h.map (fun q => ?_) rfl rfl rfl
  split
  · exact hf q
  · exact ⟨rfl, rfl⟩

/-- A new production keeps the state bounded. -/
lemma Bounded.newRhs (h : st.Bounded) (hr : newRhs st = .ok st') : st'.Bounded := by
  obtain ⟨-, hact, -, hcount, hlt, A, hprods⟩ := newRhs_same hr
  refine ⟨?_, hcount ▸ hlt, ?_, ?_⟩
  · rw [hprods, hcount, List.range_succ, List.reverse_append, List.map_cons, h.nums]
    rfl
  · rw [hprods]
    exact List.forall_mem_cons.mpr ⟨Nat.zero_le _, h.length_le⟩
  · rw [hprods, hact, List.map_cons, List.sum_cons]
    have hle := h.curract_le
    simp only [List.length_nil]
    omega

/-- An element is added to a production that has room for it, perhaps behind a new action. -/
lemma Bounded.edited (h : st.Bounded) (hprods : st₁.prods = st.prods)
    (hcount : st₁.numProductons = st.numProductons) (hact : st₁.curract ≤ st.curract + 1)
    (hroom : ∃ q ∈ st₁.prods, q.num = k ∧ q.rhs.length < maxRhs)
    (hedit : Edited k (· ++ [p]) st₁ st') : st'.Bounded := by
  obtain ⟨F, hF, hq⟩ := hedit.prods
  obtain ⟨r, hr, hnum, hlen⟩ := hroom
  rw [hprods] at hF hr
  have hnodup : (st.prods.map Production.num).Nodup := by
    rw [h.nums]
    exact List.nodup_reverse.mpr List.nodup_range
  have hlength : ∀ q, (F q).rhs.length = q.rhs.length + if q.num = k then 1 else 0 := by
    intro q
    rw [(hq q).2.2]
    split <;> simp
  refine ⟨?_, ?_, ?_, ?_⟩
  · rw [hF, List.map_map, hedit.numProductons, hcount, ← h.nums]
    exact List.map_congr_left fun q _ => (hq q).1
  · rw [hedit.numProductons, hcount]
    exact h.count
  · rw [hF]
    rintro q' hq'
    obtain ⟨q, hmem, rfl⟩ := List.mem_map.mp hq'
    rw [hlength]
    split
    · rename_i hk
      obtain rfl : q = r := List.inj_on_of_nodup_map hnodup hmem hr (hk.trans hnum.symm)
      exact hlen
    · exact h.length_le q hmem
  · have hsum :
        (st.prods.map fun q => q.rhs.length).sum < (st'.prods.map fun q => q.rhs.length).sum := by
      rw [hF, List.map_map]
      refine List.sum_lt_sum _ _ (fun q _ => ?_) ⟨r, hr, ?_⟩
      · rw [Function.comp_apply, hlength]
        exact Nat.le_add_right _ _
      · rw [Function.comp_apply, hlength, if_pos hnum]
        exact Nat.lt_succ_self _
    have hle := h.curract_le
    have hcurr := hedit.curract
    omega

/-- Symbols may be made, but no action: the new ones have other numbers and names. -/
def Plain (st st' : Acts) : Prop :=
  st'.curract = st.curract ∧ ∃ l, st'.names = l ++ st.names ∧ ∀ x ∈ l, x.1 < minAct ∧
    x.2.head? ≠ some '{'

/-- When neither the actions nor the names change, no symbol is made. -/
lemma Plain.of_names (hact : st'.curract = st.curract) (hnames : st'.names = st.names) :
    Plain st st' :=
  ⟨hact, [], hnames, by simp⟩

/-- Two functions one after the other that make no action make none together. -/
lemma Plain.trans (h : Plain st st₁) (h' : Plain st₁ st') : Plain st st' := by
  obtain ⟨hact, l, hnames, hl⟩ := h
  obtain ⟨hact', l', hnames', hl'⟩ := h'
  refine ⟨hact'.trans hact, l' ++ l, by rw [hnames', hnames, List.append_assoc], fun x hx => ?_⟩
  exact (List.mem_append.mp hx).elim (hl' x) (hl x)

/-- A function that may make a symbol with a name that starts with no brace. -/
lemma Named.plain {name : Lexeme} (h : Named name st st') (hname : name.head? ≠ some '{') :
    Plain st st' := by
  rcases h.names with hnames | ⟨p, hp, hnames⟩
  · exact .of_names h.curract hnames
  · refine ⟨h.curract, [(p, name.take nameMax)], hnames, ?_⟩
    simpa [head?_take_nameMax] using ⟨hp, hname⟩

/-- The productions stay when a symbol is made, so that the state stays bounded. -/
lemma Named.bounded {name : Lexeme} (h : Named name st st') (hb : st.Bounded) : st'.Bounded :=
  hb.congr h.prods h.numProductons h.curract

/-- What a call that is for no action does: it makes none and keeps the state bounded. -/
def Other (st st' : Acts) : Prop := Plain st st' ∧ (st.Bounded → st'.Bounded)

/-- Two calls one after the other that are for no action make none together. -/
lemma Other.trans (h : Other st st₁) (h' : Other st₁ st') : Other st st' :=
  ⟨h.1.trans h'.1, fun hb => h'.2 (h.2 hb)⟩

/-- A function that changes neither names nor productions is for no action. -/
lemma Other.of_eq (hact : st'.curract = st.curract) (hnames : st'.names = st.names)
    (hprods : st'.prods = st.prods) (hcount : st'.numProductons = st.numProductons) :
    Other st st' :=
  ⟨.of_names hact hnames, fun hb => hb.congr hprods hcount hact⟩

/-- A function that may make a symbol for a name is for no action, if the name is not that of
one. -/
lemma Named.other {name : Lexeme} (h : Named name st st') (hname : name.head? ≠ some '{') :
    Other st st' :=
  ⟨h.plain hname, h.bounded⟩

/-- A call of `new_rhs` makes a production and no action. -/
lemma Other.newRhs (h : newRhs st = .ok st') : Other st st' := by
  obtain ⟨-, hact, hnames, -⟩ := newRhs_same h
  exact ⟨.of_names hact hnames, fun hb => hb.newRhs h⟩

/-- Editing a production without making it longer makes no action. -/
lemma Other.editRhs {f : Production → Production}
    (hf : ∀ q, (f q).num = q.num ∧ (f q).rhs.length = q.rhs.length) : Other st (st.editRhs f) :=
  ⟨.of_names rfl rfl, fun hb => hb.editRhs hf⟩

/-- A name on a right-hand side makes no action, if it is not the name of one. -/
lemma Other.addToRhs (h : tool.addToRhs object false st = .ok st')
    (hname : object.head? ≠ some '{' ∨ ∃ v, (v, object) ∈ st.names) : Other st st' := by
  obtain ⟨st₁, p, k, hobj, -, hroom, hedit⟩ := edited_addToRhs h
  have hnamed := named_getObject hobj
  have hplain : Plain st st₁ := by
    rcases hname with hname | ⟨v, hmem⟩
    · exact hnamed.plain hname
    · obtain ⟨e, hfind⟩ := exists_find hmem
      unfold getObject at hobj
      rw [hfind] at hobj
      cases hobj
      exact .of_names rfl rfl
  exact ⟨hplain.trans (.of_names hedit.curract hedit.names), fun hb =>
    hb.edited hnamed.prods hnamed.numProductons (hnamed.curract.le.trans (Nat.le_succ _)) hroom
      hedit⟩

/-- Making the last symbol the first one keeps the length of a right-hand side. -/
lemma length_rotate (rhs : List ℕ) : (rotate rhs).length = rhs.length := by
  unfold rotate
  split
  · rfl
  · rename_i p hp
    have hlt := (List.getElem?_eq_some_iff.mp hp).1
    rw [List.length_cons, List.length_take]
    omega

/-- A call of `end_opt` at the end of a group makes no action. -/
lemma Other.endOpt {star : Bool} (h : tool.endOpt star st = .ok st') : Other st st' := by
  obtain ⟨lhs, st₁, hmem, h₁, h₂⟩ := endOpt_cases h
  have hfirst : Other st st₁ := by
    rcases h₁ with rfl | ⟨st₀, h₀, rfl | rfl⟩
    · exact .of_eq rfl rfl rfl rfl
    · exact .addToRhs h₀ (.inr ⟨_, hmem⟩)
    · exact (Other.addToRhs h₀ (.inr ⟨_, hmem⟩)).trans
        (.editRhs fun q => ⟨rfl, length_rotate q.rhs⟩)
  have hmem₁ : (lhs.val, lhs.name) ∈ st₁.names := by
    obtain ⟨l, hl, -⟩ := hfirst.1.2
    rw [hl]
    exact List.mem_append_right _ hmem
  have hpop : Other st₁ { st₁ with sp := st₁.sp + 1 } := .of_eq rfl rfl rfl rfl
  exact hfirst.trans (hpop.trans (.addToRhs h₂ (.inr ⟨lhs.val, hmem₁⟩)))

/-- A `%prec` makes no action, whether it is recognized or not. -/
lemma Other.prec (tool : Tool) (name : Lexeme) (st : Acts) : Other st (tool.prec name st) := by
  have hedit : ∀ n, Other st (st.editRhs fun q => { q with prec := n }) :=
    fun n => .editRhs fun q => ⟨rfl, rfl⟩
  cases tool with
  | llama => exact .of_eq rfl rfl rfl rfl
  | occs level =>
    simp only [Tool.prec]
    split
    · exact hedit _
    · split
      · exact .of_eq rfl rfl rfl rfl
      · split
        · exact hedit _
        · exact .of_eq rfl rfl rfl rfl

/-- A `%synch` makes no action, whether its name is declared or not. -/
lemma Other.addSynch (name : Lexeme) (st : Acts) : Other st (addSynch name st) := by
  unfold Parser.addSynch
  split
  · exact .of_eq rfl rfl rfl rfl
  · split <;> exact .of_eq rfl rfl rfl rfl

/-- The calls that add no text of an action make no action. -/
lemma Other.run (hlex : c.Lexed) (hc : c.actionText = none) (h : c.run tool st = .ok st') :
    Other st st' := by
  cases c with
  | makeTerm name => exact (named_makeTerm h).other hlex.2
  | newNonterm name isLhs =>
    obtain ⟨r, hr, h⟩ := bind_eq_ok h
    cases h
    exact (named_newNonterm hr).other hlex.2
  | firstSym =>
    cases h
    exact .of_eq rfl rfl rfl rfl
  | newRhs => exact .newRhs h
  | addToRhs object isAnAction =>
    cases isAnAction with
    | false => exact .addToRhs h (.inl hlex.2)
    | true => cases hc
  | startOpt =>
    obtain ⟨-, st₁, st₂, name, h₁, h₂, h₃, hhead⟩ := startOpt_cases h
    have hstart : Other { st with sp := st.sp - 1, num := st.num + 1 } st₁ :=
      h₁.other (by rw [hhead]; decide)
    have hpush : Other st { st with sp := st.sp - 1, num := st.num + 1 } := .of_eq rfl rfl rfl rfl
    exact hpush.trans (hstart.trans ((Other.newRhs h₂).trans (.newRhs h₃)))
  | endOpt star => exact .endOpt h
  | prec name =>
    cases h
    exact .prec tool name st
  | addSynch name =>
    cases h
    exact .addSynch name st
  | lerror e =>
    cases h
    exact .of_eq rfl rfl rfl rfl

/-- The actions stay numbered when none is made. -/
lemma Plain.numbered (h : Plain st st') (hn : st.Numbered) : st'.Numbered := by
  obtain ⟨hact, l, hnames, hl⟩ := h
  refine ⟨hact ▸ hn.le_curract, fun k hk => ?_, fun x hx => ?_⟩
  · rw [hnames]
    exact List.mem_append_right _ (hn.mem k (hact ▸ hk))
  · rw [hnames] at hx
    rcases List.mem_append.mp hx with hx | hx
    · exact .inl (hl x hx)
    · rw [hact]
      exact hn.names x hx

/-- The call for an action whose text is the name of a symbol makes no symbol. -/
lemma Other.addToRhs_of_found {e : Entry} (hfind : st.find object = some e)
    (h : tool.addToRhs object true st = .ok st') : Other st st' := by
  obtain ⟨st₁, p, k, hobj, -, hroom, hedit⟩ := edited_addToRhs h
  unfold getObject at hobj
  rw [hfind] at hobj
  cases hobj
  exact ⟨.of_names hedit.curract hedit.names, fun hb => hb.edited rfl rfl (Nat.le_succ _) hroom
    hedit⟩

/-- The result of a call that makes an action: the next name, and the symbol at the end of the
current production. -/
structure Makes (st st' : Acts) : Prop where
  /-- The action gets the next number. -/
  curract : st'.curract = st.curract + 1
  /-- The action is a new symbol with a name from its number. -/
  names : st'.names = (st.curract + 1, actName (st.curract + 1 - minAct)) :: st.names
  /-- The productions are bounded. -/
  bounded : st'.Bounded
  /-- The action is the last symbol of the current production. -/
  rhs : ∃ q ∈ st'.prods, some q.num = (st'.stack st'.sp).rhs ∧
    q.rhs.getLast? = some (st.curract + 1)

/-- The call for an action whose text is not the name of a symbol makes one. -/
lemma makes_addToRhs (hb : st.Bounded) (hfind : st.find object = none)
    (h : tool.addToRhs object true st = .ok st') : Makes st st' := by
  obtain ⟨st₁, p, k, hobj, hk, ⟨q, hq, hnum, hlen⟩, hedit⟩ := edited_addToRhs h
  unfold getObject at hobj
  rw [hfind] at hobj
  cases hobj
  have hbound : st.curract + 1 - minAct < 10 ^ 6 := by
    have hlt := hb.curract_lt
    omega
  have hnames : (st.addAct (actName (st.curract + 1 - minAct))).names =
      (st.curract + 1, actName (st.curract + 1 - minAct)) :: st.names := by
    change (_, (actName _).take nameMax) :: st.names = _
    rw [take_actName hbound]
  have hprods : (st.addAct (actName (st.curract + 1 - minAct))).prods = st.prods := rfl
  refine ⟨hedit.curract, hedit.names.trans hnames, hb.edited hprods rfl le_rfl ⟨q, hq, hnum, hlen⟩
    hedit, ?_⟩
  obtain ⟨F, hF, hFq⟩ := hedit.prods
  refine ⟨F q, ?_, ?_, ?_⟩
  · rw [hF]
    exact List.mem_map_of_mem hq
  · rw [hedit.stack, hedit.sp, hk, (hFq q).1, hnum]
  · rw [(hFq q).2.2, if_pos hnum, List.getLast?_concat]

/-- A new action has the next number, so that the actions stay numbered. -/
lemma Makes.numbered (h : Makes st st') (hn : st.Numbered) : st'.Numbered := by
  have hle := hn.le_curract
  have hmade : minAct + (st.curract + 1 - minAct) = st.curract + 1 := by omega
  refine ⟨by rw [h.curract]; omega, fun k hk => ?_, fun x hx => ?_⟩
  · rw [h.names]
    rw [h.curract] at hk
    rcases Nat.lt_or_ge st.curract (minAct + k) with hlt | hge
    · have hkmade : st.curract + 1 - minAct = k := by omega
      rw [hkmade] at hmade
      rw [hkmade, hmade]
      exact List.mem_cons_self
    · exact List.mem_cons_of_mem _ (hn.mem k hge)
  · rw [h.names] at hx
    rw [h.curract]
    rcases List.mem_cons.mp hx with rfl | hx
    · exact .inr ⟨st.curract + 1 - minAct, hmade.le, by rw [hmade]⟩
    · rcases hn.names x hx with hplain | ⟨k, hk, rfl⟩
      · exact .inl hplain
      · exact .inr ⟨k, hk.trans (Nat.le_succ _), rfl⟩

/-- The actions are numbered at the start, when there is none. -/
lemma numbered_initActs : initActs.Numbered := by
  have hmin : initActs.curract + 1 = minAct := rfl
  exact ⟨hmin.ge, fun k hk => absurd hk (by omega), fun x hx => by cases hx⟩

/-- The state is bounded at the start, when there is no production. -/
lemma bounded_initActs : initActs.Bounded :=
  ⟨rfl, Nat.zero_le _, by simp [initActs], le_rfl⟩

end Acts

/-! ## Runs -/

section Runs

variable {tool : Tool} {calls pre post : List ActsCall} {c : ActsCall} {object : Lexeme}
  {w w₁ w₂ : Written}

/-- What holds before and after every call of the functions of `acts.c`. -/
structure Written.Sound (w : Written) : Prop where
  /-- The actions are numbered. -/
  numbered : w.acts.Numbered
  /-- The productions are bounded. -/
  bounded : w.acts.Bounded

/-- A call with the text of an action is for an action. -/
lemma ActsCall.actionText_eq_some : c.actionText = some object ↔ c = .addToRhs object true := by
  constructor
  · intro h
    cases c with
    | addToRhs object' isAnAction =>
      cases isAnAction with
      | false => cases h
      | true =>
        cases h
        rfl
    | _ => cases h
  · rintro rfl
    rfl

/-- A call makes an action if it is for one and its text is not found in the table. -/
lemma writes_cases (hs : w₁.Sound) (hlex : c.Lexed) (h : tool.Writes c w₁ w₂) :
    (∃ object, c = .addToRhs object true ∧ w₁.acts.find object = none ∧ w₁.acts.Makes w₂.acts ∧
        w₂.strings = (w₁.acts.curract + 1, object) :: w₁.strings) ∨
      (∀ object, c = .addToRhs object true → w₁.acts.find object ≠ none) ∧ w₁.acts.Other w₂.acts ∧
        w₂.strings = w₁.strings := by
  rcases htext : c.actionText with - | object
  · refine .inr ⟨?_, .run hlex htext h.calls, ?_⟩
    · rintro object rfl
      cases htext
    · rw [h.strings]
      cases c with
      | addToRhs object isAnAction =>
        cases isAnAction with
        | false => rfl
        | true => cases htext
      | _ => rfl
  · obtain rfl := ActsCall.actionText_eq_some.mp htext
    have hstrings : w₂.strings = if (w₁.acts.find object).isNone then
      (w₁.acts.curract + 1, object) :: w₁.strings
      else w₁.strings := h.strings
    rcases hfind : w₁.acts.find object with - | e
    · rw [hfind, if_pos (by rfl)] at hstrings
      exact .inl ⟨object, rfl, hfind, Acts.makes_addToRhs hs.bounded hfind h.calls, hstrings⟩
    · rw [hfind, if_neg (by simp)] at hstrings
      refine .inr ⟨?_, .addToRhs_of_found hfind h.calls, hstrings⟩
      rintro object' ⟨⟩ hnone
      rw [hnone] at hfind
      cases hfind

/-- Every call keeps what holds of the actions and productions. -/
lemma Written.Sound.writes (hs : w₁.Sound) (hlex : c.Lexed) (h : tool.Writes c w₁ w₂) :
    w₂.Sound := by
  rcases writes_cases hs hlex h with ⟨object, -, -, hmakes, -⟩ | ⟨-, hother, -⟩
  · exact ⟨hmakes.numbered hs.numbered, hmakes.bounded⟩
  · exact ⟨hother.1.numbered hs.numbered, hother.2 hs.bounded⟩

/-- The invariant holds in every state that is reached by calls. -/
lemma Written.sound_of_trace (hlex : ∀ c ∈ calls, c.Lexed)
    (h : Trace tool.Writes calls initWritten w) : w.Sound :=
  h.invariant Written.Sound (fun c hc _ _ hs hw => hs.writes (hlex c hc) hw)
    ⟨Acts.numbered_initActs, Acts.bounded_initActs⟩

/-- The call for an action makes a symbol of its own if and only if its text is not the name of an
earlier action. -/
lemma fresh_iff (hs : w₁.Sound) (hobject : IsAction object)
    (h : tool.Writes (.addToRhs object true) w₁ w₂) : Fresh object w₁ w₂ ↔
    ∀ k, minAct + k ≤ w₁.acts.curract → object ≠ actName k := by
  have hlex : ActsCall.Lexed (.addToRhs object true) := hobject
  rw [← hs.numbered.find_eq_none_iff hobject]
  rcases writes_cases hs hlex h with ⟨_, ⟨⟩, hfind, hmakes, hstrings⟩ | ⟨hfound, hother, -⟩
  · refine iff_of_true ⟨hmakes.curract, ?_, ?_, ?_, ?_⟩ hfind
    · intro x hx
      rw [hmakes.curract]
      have hle := hs.numbered.le_curract
      rcases hs.numbered.names x hx with ⟨hlt, -⟩ | ⟨k, hk, rfl⟩
      · omega
      · exact (hk.trans_lt (Nat.lt_succ_self _)).ne
    · rw [hstrings, hmakes.curract, List.lookup_cons_self]
    · rw [hmakes.curract, hmakes.names]
      refine ⟨_, List.mem_cons_self, fun x hx hname => ?_⟩
      rcases List.mem_cons.mp hx with rfl | hx
      · rfl
      · -- An older symbol with this name would be the action with this number.
        rcases hs.numbered.names x hx with ⟨-, hhead⟩ | ⟨k, hk, rfl⟩
        · rw [hname] at hhead
          exact absurd (head?_actName _) hhead
        · have hkmade := actName_injective hname
          omega
    · rw [hmakes.curract]
      exact hmakes.rhs
  · refine iff_of_false (fun hfresh => ?_) (hfound object rfl)
    have hcurr := hfresh.curract
    rw [hother.1.1] at hcurr
    omega

/-- The text of an action that has been made stays what it was, whatever is called behind it. -/
lemma lookup_of_trace (hlex : ∀ c ∈ calls, c.Lexed) (h : Trace tool.Writes calls w₁ w)
    (hs : w₁.Sound) {p : ℕ} (hp : p ≤ w₁.acts.curract) :
    w.strings.lookup p = w₁.strings.lookup p := by
  refine (h.invariant (fun w => w.Sound ∧ p ≤ w.acts.curract ∧
    w.strings.lookup p = w₁.strings.lookup p) ?_ ⟨hs, hp, rfl⟩).2.2
  rintro c hc w₂ w₃ ⟨hs₂, hp₂, hlookup⟩ hw
  refine ⟨hs₂.writes (hlex c hc) hw, ?_⟩
  rcases writes_cases hs₂ (hlex c hc) hw with ⟨object, -, -, hmakes, hstrings⟩ |
    ⟨-, hother, hstrings⟩
  · refine ⟨by rw [hmakes.curract]; omega, ?_⟩
    rw [hstrings, List.lookup_cons, ← hlookup]
    have hne : (p == w₂.acts.curract + 1) = false := by
      rw [beq_eq_false_iff_ne]
      omega
    rw [hne]
  · rw [hother.1.1, hstrings]
    exact ⟨hp₂, hlookup⟩

/-- No text of an action is the name of an earlier action. -/
def Apart (calls : List ActsCall) : Prop :=
  ∀ i k, k < i → (actionTexts calls)[i]? ≠ some (actName k)

/-- The texts of two lists of calls are those of the first followed by those of the second. -/
lemma actionTexts_append (calls calls' : List ActsCall) :
    actionTexts (calls ++ calls') = actionTexts calls ++ actionTexts calls' := List.filterMap_append

/-- The texts of the first calls are apart when all of them are. -/
lemma Apart.of_append (h : Apart (pre ++ post)) : Apart pre := by
  intro i k hk htext
  refine h i k hk ?_
  rw [actionTexts_append, List.getElem?_append_left (List.getElem?_eq_some_iff.mp htext).1]
  exact htext

/-- When no text is the name of an earlier action, every call for an action has made one. -/
lemma curract_of_trace (hlex : ∀ c ∈ calls, c.Lexed) (h : Trace tool.Writes calls initWritten w)
    (ha : Apart calls) : w.acts.curract + 1 = minAct + (actionTexts calls).length := by
  induction calls using List.reverseRecOn generalizing w with
  | nil =>
    rw [Trace.nil_iff] at h
    subst h
    rfl
  | append_singleton calls c ih =>
    obtain ⟨w₁, h₁, h₂⟩ := Trace.append_iff.mp h
    obtain ⟨w₂, hw, hnil⟩ := Trace.cons_iff.mp h₂
    rw [Trace.nil_iff] at hnil
    subst hnil
    have hlex₁ := fun d hd => hlex d (List.mem_append_left _ hd)
    have hlexc := hlex c (by simp)
    have hs := Written.sound_of_trace hlex₁ h₁
    have hcurr := ih hlex₁ h₁ ha.of_append
    rcases htext : c.actionText with - | object
    · have hother : w₁.acts.Other w.acts := .run hlexc htext hw.calls
      rw [hother.1.1, hcurr, actionTexts_append]
      simp [actionTexts, htext]
    · obtain rfl := ActsCall.actionText_eq_some.mp htext
      have hfresh : Fresh object w₁ w := by
        refine (fresh_iff hs hlexc hw).mpr fun k hk hname => ?_
        refine ha (actionTexts calls).length k (by omega) ?_
        rw [actionTexts_append, List.getElem?_append_right le_rfl, ← hname]
        simp [actionTexts, htext]
      rw [hfresh.curract, hcurr, actionTexts_append]
      simp [actionTexts, htext]
      omega

/-- For every text of an action there is the call that adds it, behind the calls with the texts
before it. -/
lemma exists_call {i : ℕ} (h : (actionTexts calls)[i]? = some object) :
    ∃ pre post, calls = pre ++ .addToRhs object true :: post ∧ (actionTexts pre).length = i := by
  induction calls generalizing i with
  | nil => simp [actionTexts] at h
  | cons c calls ih =>
    rcases htext : c.actionText with - | object'
    · have hcons : ∀ l, actionTexts (c :: l) = actionTexts l :=
        fun l => List.filterMap_cons_none htext
      rw [hcons] at h
      obtain ⟨pre, post, rfl, hlen⟩ := ih h
      exact ⟨c :: pre, post, rfl, by rw [hcons, hlen]⟩
    · have hcons : ∀ l, actionTexts (c :: l) = object' :: actionTexts l :=
        fun l => List.filterMap_cons_some htext
      rw [hcons] at h
      rcases i with _ | i
      · cases h
        exact ⟨[], calls, by rw [ActsCall.actionText_eq_some.mp htext]; rfl, rfl⟩
      · obtain ⟨pre, post, rfl, hlen⟩ := ih h
        exact ⟨c :: pre, post, rfl, by rw [hcons, List.length_cons, hlen]⟩

/-- Every call for an action makes a symbol of its own, which still has the text of the action in
the end. -/
def Identified (tool : Tool) (calls : List ActsCall) (w : Written) : Prop :=
  ∀ pre object post w₁ w₂, calls = pre ++ .addToRhs object true :: post →
    Trace tool.Writes pre initWritten w₁ → tool.Writes (.addToRhs object true) w₁ w₂ →
    Trace tool.Writes post w₂ w →
      Fresh object w₁ w₂ ∧ w.strings.lookup w₂.acts.curract = some object

/-- Every call for an action makes a symbol of its own, which keeps the text of the action, if and
only if no text is the name of an earlier action. -/
theorem actions_fresh_iff (tool : Tool) (hlex : ∀ c ∈ calls, c.Lexed)
    (h : Trace tool.Writes calls initWritten w) : Identified tool calls w ↔ Apart calls := by
  constructor
  · intro hfresh
    by_contra hnot
    -- Take the first text that is the name of an earlier action.
    have hbad : ∃ i, ∃ k, k < i ∧ (actionTexts calls)[i]? = some (actName k) := by
      unfold Apart at hnot
      push Not at hnot
      exact hnot
    classical
    obtain ⟨k, hk, htext⟩ := Nat.find_spec hbad
    obtain ⟨pre, post, rfl, hlen⟩ := exists_call htext
    obtain ⟨w₁, h₁, h₂⟩ := Trace.append_iff.mp h
    obtain ⟨w₂, hw, hpost⟩ := Trace.cons_iff.mp h₂
    have hlex₁ := fun d hd => hlex d (List.mem_append_left _ hd)
    have hapart : Apart pre := by
      intro i k' hk' htext'
      have hlt := (List.getElem?_eq_some_iff.mp htext').1
      refine Nat.find_min hbad (m := i) (hlen ▸ hlt) ⟨k', hk', ?_⟩
      rw [actionTexts_append, List.getElem?_append_left hlt]
      exact htext'
    have hcurr := curract_of_trace hlex₁ h₁ hapart
    have hnew := (hfresh pre _ post w₁ w₂ rfl h₁ hw hpost).1
    have hlexc : ActsCall.Lexed (.addToRhs (actName k) true) := hlex _ (by simp)
    refine (fresh_iff (Written.sound_of_trace hlex₁ h₁) hlexc hw).mp hnew k ?_ rfl
    omega
  · rintro hapart pre object post w₁ w₂ rfl h₁ hw hpost
    have hlex₁ := fun d hd => hlex d (List.mem_append_left _ hd)
    have hlex₂ := fun d hd => hlex d (List.mem_append_right _ (List.mem_cons_of_mem _ hd))
    have hs := Written.sound_of_trace hlex₁ h₁
    have hcurr := curract_of_trace hlex₁ h₁ hapart.of_append
    have hlexc : ActsCall.Lexed (.addToRhs object true) := hlex _ (by simp)
    have hnew : Fresh object w₁ w₂ := by
      refine (fresh_iff hs hlexc hw).mpr fun k hk hname => ?_
      refine hapart (actionTexts pre).length k (by omega) ?_
      rw [actionTexts_append, List.getElem?_append_right le_rfl, ← hname]
      simp [actionTexts, ActsCall.actionText]
    refine ⟨hnew, ?_⟩
    rw [lookup_of_trace hlex₂ hpost (hs.writes hlexc hw) le_rfl, hnew.string]

/-- Calls that are made leave the texts of their actions. -/
lemma exists_writes {st st' : Acts} (h : tool.runCalls calls st = .ok st')
    (strings : List (ℕ × Lexeme)) :
    ∃ strings', Trace tool.Writes calls ⟨st, strings⟩ ⟨st', strings'⟩ := by
  have hstep : ∀ c ∈ calls, ∀ st st' (w : Written), w.acts = st → tool.Calls c st st' →
      ∃ w', tool.Writes c w w' ∧ w'.acts = st' := by
    rintro c - st st' w rfl hc
    exact ⟨⟨st', c.save w.acts w.strings⟩, ⟨hc, rfl⟩, rfl⟩
  have hstart : (⟨st, strings⟩ : Written).acts = st := rfl
  obtain ⟨w, htrace, hw⟩ :=
    (Tool.trace_iff.mpr h).simulation (fun st (w : Written) => w.acts = st) hstep hstart
  subst hw
  exact ⟨w.strings, htrace⟩

/-- The specification `s : {a} {b} ;`, which has two actions. -/
def twoActions : Spec := ⟨[], [⟨['s'], .action ['{', 'a', '}'] (.action ['{', 'b', '}'] .nil), []⟩]⟩

/-- The two actions of `s : {a} {b} ;` are identified by their numbers exactly because their texts
are apart. -/
theorem actions_fresh_iff_twoActions : ∃ w, Trace Tool.llama.Writes twoActions.calls initWritten w ∧
    (Identified .llama twoActions.calls w ↔ Apart twoActions.calls) := by
  have hlex : ∀ c ∈ twoActions.calls, c.Lexed := by
    change ∀ c ∈ [ActsCall.firstSym, .newNonterm ['s'] true, .newRhs,
      .addToRhs ['{', 'a', '}'] true, .addToRhs ['{', 'b', '}'] true], c.Lexed
    simp [ActsCall.Lexed, IsObject, IsAction, IsName]
  obtain ⟨st, hst⟩ : ∃ st, Tool.llama.runCalls twoActions.calls initActs = .ok st := ⟨_, rfl⟩
  obtain ⟨strings, htrace⟩ := exists_writes hst []
  exact ⟨⟨st, strings⟩, htrace, actions_fresh_iff .llama hlex htrace⟩

/-- The specification `s : {a} {0} ;`, whose second action has the text that names the first one. -/
def sharedAction : Spec :=
  ⟨[], [⟨['s'], .action ['{', 'a', '}'] (.action ['{', '0', '}'] .nil), []⟩]⟩

/-- The second action of `s : {a} {0} ;` is taken for the first one. -/
theorem not_identified_sharedAction :
    ∃ w, Trace Tool.llama.Writes sharedAction.calls initWritten w ∧
      ¬ Identified .llama sharedAction.calls w := by
  obtain ⟨st₁, st₂, h₁, h₂, hcurr⟩ : ∃ st₁ st₂, Tool.llama.runCalls
      [.firstSym, .newNonterm ['s'] true, .newRhs, .addToRhs ['{', 'a', '}'] true] initActs =
      .ok st₁ ∧
        Tool.llama.Calls (.addToRhs ['{', '0', '}'] true) st₁ st₂ ∧ st₂.curract = st₁.curract :=
    ⟨_, _, rfl, rfl, rfl⟩
  obtain ⟨strings, htrace⟩ := exists_writes h₁ []
  have hw : Tool.llama.Writes (.addToRhs ['{', '0', '}'] true) ⟨st₁, strings⟩
      ⟨st₂, ActsCall.save st₁ strings (.addToRhs ['{', '0', '}'] true)⟩ := ⟨h₂, rfl⟩
  refine ⟨_, htrace.append (.cons hw (.nil _)), fun hid => ?_⟩
  have hnew := (hid _ _ [] _ _ rfl htrace hw (.nil _)).1.curract
  dsimp only at hnew
  omega

end Runs

end Parser
