import Cgkits.Parser.Groups

/-!
# What groups derive (`acts.c`, `parser.lma`)

`Parts` is a right-hand side whose names, actions and groups have been replaced by their symbols.
`Resolves` ties it to the text, `Recorded` to the productions in the table: every group has exactly
two productions, one of them empty.

`runs_read` is the step of the argument: the calls for one right-hand side, whatever groups are in
it, put the symbols of its outermost level behind the current production, record the productions of
its groups and touch no other production. `groups_derive` carries it through a whole specification:
nothing that is read later gives a group another production, so that each `[B]` derives zero or one
and each `[B]*` zero or more of what `B` derives.  `Spec.reads` says that what llama reads is such a
run.
-/

namespace Parser

open ContextFree Computability Acts

/-- A right-hand side with its symbols, in which the groups have become nonterminals. -/
inductive Parts
  /-- The right-hand side has come to its end. -/
  | nil
  /-- The symbol of a name or of an action. -/
  | symbol (p : ℕ) (rest : Parts)
  /-- A `[ ]` or `[ ]*` that has become the nonterminal `g`. -/
  | group (g : ℕ) (body : Parts) (star : Bool) (rest : Parts)
deriving DecidableEq

namespace Parts

/-- The symbols of the outermost level, with a nonterminal for each group. -/
def symbols : Parts → List ℕ
  | nil => []
  | symbol p rest => p :: rest.symbols
  | group g _ _ rest => g :: rest.symbols

/-- The nonterminals of the groups of a right-hand side, on all levels. -/
def groups : Parts → List ℕ
  | nil => []
  | symbol _ rest => rest.groups
  | group g body _ rest => g :: (body.groups ++ rest.groups)

/-- The strings in which each `[ ]` contributes zero or one and each `[ ]*` zero or more occurrences
of its body, where `L` has the strings of each symbol. -/
def language (L : ℕ → Language ℕ) : Parts → Language ℕ
  | nil => 1
  | symbol p rest => L p * rest.language L
  | group _ body star rest =>
    (if star then (body.language L)∗ else 1 + body.language L) * rest.language L

/-- Each group has two productions: an empty one, and the one that `end_opt` has closed. -/
def Recorded (tool : Tool) (st : Acts) : Parts → Prop
  | nil => True
  | symbol _ rest => rest.Recorded tool st
  | group g body star rest =>
    (∃ m, ∀ j δ, st.Has j g δ ↔ (j = m ∧ δ = []) ∨
      (j = m + 1 ∧ δ = tool.close star g body.symbols)) ∧ body.Recorded tool st ∧
      rest.Recorded tool st

end Parts

/-- The parts are those of the right-hand side: names and actions stand for their symbols, and each
group has a nonterminal with the name of an option. -/
inductive Rhs.Resolves (st : Acts) : Rhs → Parts → Prop
  /-- Nothing stands for nothing. -/
  | nil : Resolves st .nil .nil
  /-- A name stands for the symbol that it finds. -/
  | name {object : Lexeme} {rest : Rhs} {p : ℕ} {t : Parts} (h : st.Stands object false p)
      (hrest : Resolves st rest t) : Resolves st (.name object rest) (.symbol p t)
  /-- An action stands for the symbol made for it. -/
  | action {object : Lexeme} {rest : Rhs} {p : ℕ} {t : Parts} (h : st.Stands object true p)
      (hrest : Resolves st rest t) : Resolves st (.action object rest) (.symbol p t)
  /-- A `%prec` stands for no symbol. -/
  | prec {text : Lexeme} {rest : Rhs} {t : Parts} (hrest : Resolves st rest t) :
    Resolves st (.prec text rest) t
  /-- A group stands for its nonterminal. -/
  | opt {body rest : Rhs} {star : Bool} {g n : ℕ} {b t : Parts} (h : (g, optName n) ∈ st.names)
      (hbody : Resolves st body b) (hrest : Resolves st rest t) :
      Resolves st (.opt body star rest) (.group g b star t)

variable {tool : Tool} {st st' st'' : Acts} {r : Rhs} {t : Parts} {k A g : ℕ} {γ : List ℕ}

/-- What a right-hand side stands for stays the same when the symbols stay. -/
lemma Rhs.Resolves.mono (h : r.Resolves st t) (hnames : st.names ⊆ st'.names) :
    r.Resolves st' t := by
  induction h with
  | nil => exact .nil
  | name h _ ih => exact .name (h.mono hnames) ih
  | action h _ ih => exact .action (h.mono hnames) ih
  | prec _ ih => exact .prec ih
  | opt h _ _ ihbody ihrest => exact .opt (hnames h) ihbody ihrest

/-- A group has been given the name of an option. -/
lemma Rhs.Resolves.exists_optName (h : r.Resolves st t) (hg : g ∈ t.groups) :
    ∃ n, (g, optName n) ∈ st.names := by
  induction h with
  | nil => simp [Parts.groups] at hg
  | name _ _ ih => exact ih hg
  | action _ _ ih => exact ih hg
  | prec _ ih => exact ih hg
  | opt h _ _ ihbody ihrest =>
    rcases List.mem_cons.mp hg with rfl | hg'
    · exact ⟨_, h⟩
    · rcases List.mem_append.mp hg' with hg' | hg'
      · exact ihbody hg'
      · exact ihrest hg'

/-- When the productions of the groups stay as they are, these are still recorded. -/
lemma Parts.Recorded.congr (h : t.Recorded tool st) (hhas : ∀ g ∈ t.groups, ∀ j δ, st'.Has j g δ ↔
    st.Has j g δ) : t.Recorded tool st' := by
  induction t with
  | nil => trivial
  | symbol p rest ih => exact ih h hhas
  | group g body star rest ihbody ihrest =>
    obtain ⟨⟨m, hm⟩, hbody, hrest⟩ := h
    refine ⟨⟨m, fun j δ => (hhas g List.mem_cons_self j δ).trans (hm j δ)⟩,
      ihbody hbody ?_, ihrest hrest ?_⟩
    · exact fun g hg => hhas g (List.mem_cons_of_mem _ (List.mem_append_left _ hg))
    · exact fun g hg => hhas g (List.mem_cons_of_mem _ (List.mem_append_right _ hg))

/-! ## One right-hand side -/

/-- The result of the calls for a right-hand side, when the production `k` of `A` was the current
one. -/
structure Reading (tool : Tool) (k A : ℕ) (γ : List ℕ) (r : Rhs) (t : Parts) (st st' : Acts) :
    Prop where
  /-- Only the current production and those of new nonterminals change. -/
  builds : Builds k st st'
  /-- The current production has the symbols of the outermost level behind its old ones. -/
  building : st'.Building k A (γ ++ t.symbols)
  /-- The symbols are those of the text. -/
  resolves : r.Resolves st' t
  /-- The groups have their productions. -/
  recorded : t.Recorded tool st'
  /-- The nonterminals of the groups are new. -/
  fresh : ∀ g ∈ t.groups, st.currnonterm < g ∧ g ≤ st'.currnonterm

/-- The productions of another nonterminal of the table stay. -/
lemma Acts.Builds.has_iff (h : Builds k st st') (hb : st.Building k A γ) (hne : g ≠ A)
    (hle : g ≤ st.currnonterm) (j : ℕ) (δ : List ℕ) : st'.Has j g δ ↔ st.Has j g δ := by
  by_cases hj : j = k
  · subst hj
    refine iff_of_false (fun hhas => ?_) fun hhas => hne (hb.sound.has_unique hhas hb.has).1
    obtain ⟨δ₀, hδ₀⟩ := h.current g δ hhas
    exact hne (hb.sound.has_unique hδ₀ hb.has).1
  · by_cases hlt : j < st.numProductons
    · exact h.old j hlt hj g δ
    · refine iff_of_false (fun hhas => ?_) fun hhas => hlt (hb.sound.lt_of_has hhas)
      exact absurd (h.new j g δ (not_lt.mp hlt) hhas) (not_lt.mpr hle)

/-- Reading one element in front of the rest adds its symbol to the production. -/
lemma Reading.cons {p : ℕ} {rest : Rhs} (h : Builds k st st') (hb : st.Building k A γ)
    (hrest : Reading tool k A (γ ++ [p]) rest t st' st'') (hr : r.Resolves st'' (.symbol p t)) :
    Reading tool k A γ r (.symbol p t) st st'' where
  builds := h.trans hrest.builds (hb.sound.lt_of_has hb.has)
  building := by
    have hbuilding := hrest.building
    rwa [List.append_assoc] at hbuilding
  resolves := hr
  recorded := hrest.recorded
  fresh g hg := ⟨h.currnonterm_le.trans_lt (hrest.fresh g hg).1, (hrest.fresh g hg).2⟩

/-! ## One group -/

section Group

variable {body : Rhs} {star : Bool} {b : Parts} {st₁ st₂ st₃ : Acts}

/-- The productions of the nonterminals that were there before a group. -/
lemma group_has_iff (h₁ : Opened st st₁)
    (h₂ : Reading tool (st.numProductons + 1) (st.currnonterm + 1) [] body b st₁ st₂)
    (h₃ : Ended tool star (st.currnonterm + 1) (st.numProductons + 1) k st₂ st₃) {j B : ℕ}
    {δ : List ℕ} (hj : j < st.numProductons) :
    st₃.Has j B δ ↔ ∃ δ₀, st.Has j B δ₀ ∧ δ = if j = k then δ₀ ++ [st.currnonterm + 1] else δ₀ := by
  have hne : j ≠ st.numProductons + 1 := by omega
  have hlt : j < st₁.numProductons := by
    rw [h₁.numProductons]
    omega
  have hhas : ∀ δ₀, st₂.Has j B δ₀ ↔ st.Has j B δ₀ := by
    intro δ₀
    rw [h₂.builds.old j hlt hne, h₁.has]
    refine or_iff_left ?_
    rintro ⟨rfl | rfl, -⟩
    · exact lt_irrefl _ hj
    · omega
  rw [h₃.has]
  simp only [hhas, if_neg hne]

/-- The productions of a group and those of the groups in it. -/
lemma group_new (hs : st.Sound) (h₁ : Opened st st₁)
    (h₂ : Reading tool (st.numProductons + 1) (st.currnonterm + 1) [] body b st₁ st₂)
    (h₃ : Ended tool star (st.currnonterm + 1) (st.numProductons + 1) k st₂ st₃)
    (hk : k < st.numProductons) {j B : ℕ} {δ : List ℕ} (hj : st.numProductons ≤ j) :
    st₃.Has j B δ ↔ (B = st.currnonterm + 1 ∧ ((j = st.numProductons ∧ δ = []) ∨
      (j = st.numProductons + 1 ∧ δ = tool.close star (st.currnonterm + 1) b.symbols))) ∨
        (st.numProductons + 2 ≤ j ∧ st₂.Has j B δ) := by
  have hjk : j ≠ k := by omega
  rw [h₃.has]
  simp only [if_neg hjk]
  by_cases hfirst : j = st.numProductons
  · -- the production that stays empty
    subst hfirst
    have hne : st.numProductons ≠ st.numProductons + 1 := by omega
    have hlt : st.numProductons < st₁.numProductons := by
      rw [h₁.numProductons]
      omega
    have hold : ∀ δ₀, ¬ st.Has st.numProductons B δ₀ := fun δ₀ hδ₀ => lt_irrefl _ (hs.lt_of_has hδ₀)
    simp only [h₂.builds.old _ hlt hne, h₁.has, hold, if_neg hne]
    simp
  by_cases hsecond : j = st.numProductons + 1
  · -- the production that has been built
    subst hsecond
    constructor
    · rintro ⟨δ₀, hδ₀, rfl⟩
      obtain ⟨rfl, rfl⟩ := h₂.building.sound.has_unique hδ₀ h₂.building.has
      exact Or.inl ⟨rfl, Or.inr ⟨rfl, if_pos rfl⟩⟩
    · rintro (⟨rfl, ⟨heq, -⟩ | ⟨-, rfl⟩⟩ | ⟨hle, -⟩)
      · omega
      · exact ⟨_, h₂.building.has, (if_pos rfl).symm⟩
      · omega
  · simp only [if_neg hsecond]
    constructor
    · rintro ⟨δ₀, hδ₀, rfl⟩
      exact Or.inr ⟨by omega, hδ₀⟩
    · rintro (⟨-, ⟨heq, -⟩ | ⟨heq, -⟩⟩ | ⟨-, hδ⟩)
      · exact absurd heq hfirst
      · exact absurd heq hsecond
      · exact ⟨δ, hδ, rfl⟩

/-- The symbols and the nonterminals stay in the body of a group. -/
lemma group_builds (hb : st.Building k A γ) (h₁ : Opened st st₁)
    (h₂ : Reading tool (st.numProductons + 1) (st.currnonterm + 1) [] body b st₁ st₂)
    (h₃ : Ended tool star (st.currnonterm + 1) (st.numProductons + 1) k st₂ st₃) :
    Builds k st st₃ where
  names := by
    rw [h₃.names]
    exact List.Subset.trans h₁.names h₂.builds.names
  currnonterm_le := by
    have hle := h₂.builds.currnonterm_le
    rw [h₁.currnonterm] at hle
    rw [h₃.currnonterm]
    omega
  numProductons_le := by
    have hle := h₂.builds.numProductons_le
    rw [h₁.numProductons] at hle
    rw [h₃.numProductons]
    omega
  sp := by rw [h₃.sp, h₂.builds.sp, h₁.sp]
  stack i hi := by
    have hsp := h₁.sp
    rw [h₃.stack, h₂.builds.stack i (by omega), h₁.stack i hi]
  current B δ hB := by
    obtain ⟨δ₀, hδ₀, -⟩ := (group_has_iff h₁ h₂ h₃ (hb.sound.lt_of_has hb.has)).mp hB
    exact ⟨δ₀, hδ₀⟩
  old j hj hne B δ := by
    rw [group_has_iff h₁ h₂ h₃ hj]
    simp only [if_neg hne, exists_eq_right']
  new j B δ hj hB := by
    rcases (group_new hb.sound h₁ h₂ h₃ (hb.sound.lt_of_has hb.has) hj).mp hB with
      ⟨rfl, -⟩ | ⟨hle, hδ⟩
    · exact Nat.lt_succ_self _
    · have hlt := h₂.builds.new j B δ (by rw [h₁.numProductons]; exact hle) hδ
      rw [h₁.currnonterm] at hlt
      omega

/-- The production around a group goes on behind the group, with its nonterminal added. -/
lemma group_building (hb : st.Building k A γ) (h₁ : Opened st st₁)
    (h₂ : Reading tool (st.numProductons + 1) (st.currnonterm + 1) [] body b st₁ st₂)
    (h₃ : Ended tool star (st.currnonterm + 1) (st.numProductons + 1) k st₂ st₃) :
    st₃.Building k A (γ ++ [st.currnonterm + 1]) where
  sound := h₃.sound
  top := by
    have hbuilds := group_builds hb h₁ h₂ h₃
    rw [hbuilds.sp, hbuilds.stack _ le_rfl]
    exact hb.top
  has := (group_has_iff h₁ h₂ h₃ (hb.sound.lt_of_has hb.has)).mpr ⟨γ, hb.has, (if_pos rfl).symm⟩

/-- The group has its two productions, and the groups in it have theirs. -/
lemma group_recorded (hb : st.Building k A γ) (h₁ : Opened st st₁)
    (h₂ : Reading tool (st.numProductons + 1) (st.currnonterm + 1) [] body b st₁ st₂)
    (h₃ : Ended tool star (st.currnonterm + 1) (st.numProductons + 1) k st₂ st₃) :
    (∃ m, ∀ j δ, st₃.Has j (st.currnonterm + 1) δ ↔ (j = m ∧ δ = []) ∨
      (j = m + 1 ∧ δ = tool.close star (st.currnonterm + 1) b.symbols)) ∧ b.Recorded tool st₃ := by
  have hk := hb.sound.lt_of_has hb.has
  have hA := hb.sound.le_of_has hb.has
  refine ⟨⟨st.numProductons, fun j δ => ?_⟩, h₂.recorded.congr fun g hg j δ => ?_⟩
  · by_cases hj : j < st.numProductons
    · refine iff_of_false (fun hhas => ?_) (by omega)
      obtain ⟨δ₀, hδ₀, -⟩ := (group_has_iff h₁ h₂ h₃ hj).mp hhas
      exact absurd (hb.sound.le_of_has hδ₀) (by omega)
    · rw [group_new hb.sound h₁ h₂ h₃ hk (not_lt.mp hj)]
      refine (or_iff_left ?_).trans (and_iff_right rfl)
      rintro ⟨hle, hδ⟩
      have hlt := h₂.builds.new j _ δ (by rw [h₁.numProductons]; exact hle) hδ
      rw [h₁.currnonterm] at hlt
      exact lt_irrefl _ hlt
  · -- a group in the body is neither the group itself nor the nonterminal around it
    have hlt := (h₂.fresh g hg).1
    rw [h₁.currnonterm] at hlt
    have hcurrent : st₂.Has k A γ := by
      rw [h₂.builds.old k (by rw [h₁.numProductons]; omega) (by omega), h₁.has]
      exact Or.inl hb.has
    have hjk : ∀ {δ₀}, st₂.Has j g δ₀ → j ≠ k := by
      rintro δ₀ hδ₀ rfl
      have heq := (h₂.building.sound.has_unique hδ₀ hcurrent).1
      omega
    have hjl : ∀ {δ₀}, st₂.Has j g δ₀ → j ≠ st.numProductons + 1 := by
      rintro δ₀ hδ₀ rfl
      have heq := (h₂.building.sound.has_unique hδ₀ h₂.building.has).1
      omega
    rw [h₃.has]
    constructor
    · rintro ⟨δ₀, hδ₀, rfl⟩
      rwa [if_neg (hjk hδ₀), if_neg (hjl hδ₀)]
    · intro hδ
      exact ⟨δ, hδ, by rw [if_neg (hjk hδ), if_neg (hjl hδ)]⟩

/-- Reading a group in front of the rest adds its nonterminal, and records the productions of the
group. -/
lemma Reading.group {rest : Rhs} (hb : st.Building k A γ) (h₁ : Opened st st₁)
    (h₂ : Reading tool (st.numProductons + 1) (st.currnonterm + 1) [] body b st₁ st₂)
    (h₃ : Ended tool star (st.currnonterm + 1) (st.numProductons + 1) k st₂ st₃)
    (h₄ : Reading tool k A (γ ++ [st.currnonterm + 1]) rest t st₃ st') :
    Reading tool k A γ (.opt body star rest) (.group (st.currnonterm + 1) b star t) st st' := by
  have hbuilds := group_builds hb h₁ h₂ h₃
  have hbuilding := group_building hb h₁ h₂ h₃
  obtain ⟨⟨m, hm⟩, hbody⟩ := group_recorded hb h₁ h₂ h₃
  have hA := hb.sound.le_of_has hb.has
  have hcurr : st₃.currnonterm = st₂.currnonterm := h₃.currnonterm
  have hle := h₂.builds.currnonterm_le
  rw [h₁.currnonterm] at hle
  have hle' := h₄.builds.currnonterm_le
  have hnames : st₂.names ⊆ st'.names := by
    rw [← h₃.names]
    exact h₄.builds.names
  have hfresh : ∀ g ∈ b.groups, st.currnonterm + 1 < g ∧ g ≤ st₃.currnonterm := by
    intro g hg
    have hbounds := h₂.fresh g hg
    rw [h₁.currnonterm] at hbounds
    exact ⟨hbounds.1, hcurr ▸ hbounds.2⟩
  refine ⟨hbuilds.trans h₄.builds (hb.sound.lt_of_has hb.has),
    ?_, ?_, ⟨⟨m, fun j δ => ?_⟩, ?_, h₄.recorded⟩, ?_⟩
  · have hlast := h₄.building
    rwa [List.append_assoc] at hlast
  · exact .opt (hnames (h₂.builds.names h₁.option)) (h₂.resolves.mono hnames) h₄.resolves
  · rw [h₄.builds.has_iff hbuilding (by omega) (by omega), hm]
  · refine hbody.congr fun g hg j δ => h₄.builds.has_iff hbuilding ?_ (hfresh g hg).2 j δ
    have hlt := (hfresh g hg).1
    omega
  · intro g hg
    rcases List.mem_cons.mp hg with rfl | hg'
    · omega
    · rcases List.mem_append.mp hg' with hbody' | hrest
      · have hbounds := hfresh g hbody'
        omega
      · have hbounds := h₄.fresh g hrest
        omega

end Group

/-- The calls for a right-hand side whose groups fit on the stack. -/
lemma runs_read (tool : Tool) (r : Rhs) : ∀ {st : Acts} {k A : ℕ} {γ : List ℕ}, r.Lexed →
    r.depth ≤ st.sp → st.Building k A γ →
    Runs (tool.read r st) fun st' => ∃ t, Reading tool k A γ r t st st' := by
  induction r with
  | nil =>
    intro st k A γ _ _ hb
    exact ⟨.nil,
      .refl hb.sound k, by simpa [Parts.symbols] using hb, .nil, trivial, by simp [Parts.groups]⟩
  | name object rest ih =>
    intro st k A γ hlex hdepth hb
    have hobject : IsObject false object := hlex.1
    refine (runs_addToRhs tool hb hobject).bind ?_
    rintro st₁ ⟨p, hbuilds, hbuilding, hstands⟩
    refine (ih hlex.2 (hbuilds.sp ▸ hdepth) hbuilding).mono ?_
    rintro st₂ ⟨t, ht⟩
    exact ⟨.symbol p t, ht.cons hbuilds hb (.name (hstands.mono ht.builds.names) ht.resolves)⟩
  | action object rest ih =>
    intro st k A γ hlex hdepth hb
    have hobject : IsObject true object := hlex.1
    refine (runs_addToRhs tool hb hobject).bind ?_
    rintro st₁ ⟨p, hbuilds, hbuilding, hstands⟩
    refine (ih hlex.2 (hbuilds.sp ▸ hdepth) hbuilding).mono ?_
    rintro st₂ ⟨t, ht⟩
    exact ⟨.symbol p t, ht.cons hbuilds hb (.action (hstands.mono ht.builds.names) ht.resolves)⟩
  | prec text rest ih =>
    intro st k A γ hlex hdepth hb
    have hedit := edited_prec tool hb text
    refine (ih hlex (hedit.sp ▸ hdepth) (hedit.building hb)).mono ?_
    rintro st₁ ⟨t, ht⟩
    exact ⟨t, (Builds.of_edited hedit hb.sound).trans ht.builds (hb.sound.lt_of_has hb.has),
      ht.building, .prec ht.resolves, ht.recorded, fun g hg => hedit.currnonterm ▸ ht.fresh g hg⟩
  | opt body star rest ihbody ihrest =>
    intro st k A γ hlex hdepth hb
    have hdepth' : max (body.depth + 1) rest.depth ≤ st.sp := hdepth
    refine (runs_startOpt hb.sound (by omega)).bind fun st₁ h₁ => ?_
    have hsp := h₁.sp
    refine (ihbody hlex.1 (by omega) h₁.building).bind ?_
    rintro st₂ ⟨b, h₂⟩
    have htop : st₂.stack (st₂.sp + 1) = ⟨some A, some k⟩ := by
      rw [h₂.builds.sp, h₂.builds.stack _ (Nat.le_add_right _ 1), hsp, h₁.stack _ le_rfl]
      exact hb.top
    have hk := hb.sound.lt_of_has hb.has
    have hhas : st₂.Has k A γ := by
      rw [h₂.builds.old k (by rw [h₁.numProductons]; omega) (by omega), h₁.has]
      exact Or.inl hb.has
    refine (runs_endOpt tool star h₂.building (h₂.builds.names h₁.option) (head?_optName _) htop
      (by omega) hhas).bind fun st₃ h₃ => ?_
    have hbuilds := group_builds hb h₁ h₂ h₃
    refine (ihrest hlex.2 ?_ (group_building hb h₁ h₂ h₃)).mono ?_
    · rw [hbuilds.sp]
      omega
    · rintro st₄ ⟨t, h₄⟩
      exact ⟨_, Reading.group hb h₁ h₂ h₃ h₄⟩

/-! ## The strings -/

/-- The context-free grammar of the recorded productions. -/
@[reducible] def Acts.cfg (st : Acts) : ContextFreeGrammar ℕ where
  NT := ℕ
  initial := st.goalSymbol.getD minNonterm
  rules := (st.prods.map Production.rule).toFinset

/-- A production that is recorded in the table is a rule of the grammar. -/
lemma Acts.Has.rule_mem {j : ℕ} {δ : List ℕ} (h : st.Has j A δ) :
    (⟨A, form δ⟩ : ContextFreeRule ℕ ℕ) ∈ st.cfg.rules := by
  obtain ⟨q, hq, -, rfl, rfl⟩ := h
  exact List.mem_toFinset.mpr (List.mem_map_of_mem hq)

/-- A nonterminal with an empty production and another one is a group. -/
lemma isGroup_of_has {m : ℕ} {δ : List ℕ}
    (h : ∀ j α, st.Has j g α ↔ (j = m ∧ α = []) ∨ (j = m + 1 ∧ α = δ)) :
    IsGroup st.cfg g (form δ) where
  nil_mem := ((h m []).mpr (Or.inl ⟨rfl, rfl⟩)).rule_mem
  mem := ((h (m + 1) δ).mpr (Or.inr ⟨rfl, rfl⟩)).rule_mem
  output_eq r hr hin := by
    obtain ⟨q, hq, rfl⟩ := List.mem_map.mp (List.mem_toFinset.mp hr)
    rcases (h q.num q.rhs).mp ⟨q, hq, rfl, hin, rfl⟩ with ⟨-, hrhs⟩ | ⟨-, hrhs⟩
    · exact Or.inl (congrArg form hrhs)
    · exact Or.inr (congrArg form hrhs)

/-- What a group derives: zero or one, or zero or more of what its body derives. -/
lemma formLanguage_group {m : ℕ} {star : Bool} {β : List ℕ} (hg : IsNonterm g)
    (h : ∀ j α, st.Has j g α ↔ (j = m ∧ α = []) ∨ (j = m + 1 ∧ α = tool.close star g β)) :
    formLanguage st.cfg [.nonterminal g] =
      if star then (formLanguage st.cfg (form β))∗ else 1 + formLanguage st.cfg (form β) := by
  have hgroup := isGroup_of_has h
  cases star with
  | false =>
    have hclose : tool.close false g β = β := by cases tool <;> rfl
    rw [hclose] at hgroup
    exact hgroup.optional
  | true =>
    cases tool with
    | llama =>
      have hform : form (Tool.llama.close true g β) = form β ++ [.nonterminal g] := by
        rw [Tool.close, form_append, form_cons_nonterm hg, form_nil]
      rw [hform] at hgroup
      exact hgroup.rightRecursive
    | occs level =>
      have hform : form ((Tool.occs level).close true g β) = .nonterminal g :: form β :=
        form_cons_nonterm hg
      rw [hform] at hgroup
      exact hgroup.leftRecursive

/-- What a right-hand side derives when its groups have their productions. -/
lemma formLanguage_symbols (h : t.Recorded tool st) (hg : ∀ g ∈ t.groups, IsNonterm g) :
    formLanguage st.cfg (form t.symbols) = t.language fun p => formLanguage st.cfg (form [p]) := by
  induction t with
  | nil => exact formLanguage_nil
  | symbol p rest ih =>
    have hform : form (p :: rest.symbols) = form [p] ++ form rest.symbols := form_append (γ := [p])
    rw [Parts.symbols, hform, Parts.language, formLanguage_append, ih h hg]
  | group g body star rest ihbody ihrest =>
    obtain ⟨⟨m, hm⟩, hbody, hrest⟩ := h
    have hbody' :=
      ihbody hbody fun g hmem => hg g (List.mem_cons_of_mem _ (List.mem_append_left _ hmem))
    have hrest' :=
      ihrest hrest fun g hmem => hg g (List.mem_cons_of_mem _ (List.mem_append_right _ hmem))
    rw [Parts.symbols, form_cons_nonterm (hg g List.mem_cons_self), formLanguage_cons,
      formLanguage_group (hg g List.mem_cons_self) hm, hbody', hrest', Parts.language]

/-! ## Whole specifications -/

/-- What the directives leave: terminals and nonterminals with names of the lexer, and an empty
stack. -/
structure Acts.Declared (st : Acts) : Prop where
  /-- The table is sound before the rules. -/
  sound : st.Sound
  /-- The names are those of the lexer. -/
  isName : ∀ x ∈ st.names, IsName x.2
  /-- No option has been started. -/
  num : st.num = 0
  /-- No production has been made. -/
  prods : st.prods = []
  /-- The stack pointer is at its first position. -/
  sp : st.sp = ssize - 1
  /-- There is no left-hand side. -/
  lhs : (st.stack st.sp).lhs = none

/-- A step of the parser through the rules: a left-hand side, or a right-hand side whose groups fit
on the stack. -/
inductive Tool.Reads (tool : Tool) : Acts → Acts → Prop
  /-- The left-hand side of a rule is read. -/
  | lhs {name : Lexeme} {st : Acts} {q : Acts × Option ℕ} (hname : IsName name)
      (h : newNonterm name true st = .ok q) : Reads tool st q.1
  /-- A right-hand side of a rule is read. -/
  | rhs {r : Rhs} {st st' : Acts} (hlex : r.Lexed) (hdepth : r.depth < ssize)
      (h : tool.rightSide st r = .ok st') : Reads tool st st'

/-- Between right-hand sides the stack pointer is at its first position, and the left-hand side is
no option. -/
structure Acts.Idle (st : Acts) : Prop where
  /-- The table is sound between two rules. -/
  sound : st.Sound
  /-- The stack pointer is at its first position. -/
  sp : st.sp = ssize - 1
  /-- The left-hand side has a name of the lexer. -/
  lhs : ∀ A ∈ (st.stack st.sp).lhs, IsNonterm A ∧ ∃ name, (A, name) ∈ st.names ∧
    name.head? ≠ some ' '

/-- The symbols and productions stay, and no option gets another production. -/
structure Acts.Kept (st st' : Acts) : Prop where
  /-- The symbols stay in the table. -/
  names : st.names ⊆ st'.names
  /-- The productions stay in the table. -/
  has : ∀ j B δ, st.Has j B δ → st'.Has j B δ
  /-- The options have no other productions. -/
  of_has : ∀ g n, (g, optName n) ∈ st.names → ∀ j δ, st'.Has j g δ → st.Has j g δ

/-- A table keeps everything when nothing happens to it. -/
lemma Acts.Kept.refl (st : Acts) : Kept st st :=
  ⟨List.Subset.refl _, fun _ _ _ h => h, fun _ _ _ _ _ h => h⟩

/-- What two steps keep one after the other, they keep together. -/
lemma Acts.Kept.trans (h : Kept st st') (h' : Kept st' st'') : Kept st st'' :=
  ⟨List.Subset.trans h.names h'.names, fun j B δ hB => h'.has j B δ (h.has j B δ hB),
    fun g n hg j δ hδ => h.of_has g n hg j δ (h'.of_has g n (h.names hg) j δ hδ)⟩

/-- A nonterminal in the table is one that has been made. -/
lemma Acts.Sound.isSymbolNonterm (h : st.Sound) {x : ℕ × Lexeme} (hx : x ∈ st.names)
    (hnon : IsNonterm x.1) : st.IsSymbolNonterm x.1 := by
  have hterm := h.currterm_le
  have hsym := h.isSymbol x hx
  have hmax : maxTerm = 254 := rfl
  have hact : minAct = 512 := rfl
  rw [isNonterm_iff] at hnon
  unfold IsSymbol at hsym
  unfold IsSymbolNonterm
  omega

/-- The nonterminal of an option is not that of a name. -/
lemma Acts.Sound.ne_of_optName (h : st.Sound) {n : ℕ} {name : Lexeme}
    (hg : (g, optName n) ∈ st.names) (hA : (A, name) ∈ st.names) (hname : name.head? ≠ some ' ') :
    g ≠ A := by
  rintro rfl
  have hpair := h.name_unique hg hA rfl
  obtain ⟨-, rfl⟩ := Prod.mk.inj hpair
  exact hname (head?_optName n)

/-- Noting a left-hand side leaves the parser between two rules. -/
lemma Acts.Idle.noteNonterm (hs : st.Sound) (hsp : st.sp = ssize - 1) {p : ℕ} {name : Lexeme}
    (hp : IsNonterm p) (hmem : (p, name) ∈ st.names) (hname : name.head? ≠ some ' ') :
    (noteNonterm p true st).Idle ∧ (noteNonterm p true st).names = st.names ∧
      (noteNonterm p true st).prods = st.prods := by
  obtain ⟨goal, next, hgoal⟩ := noteGoal_eq p st
  have hnote : Parser.noteNonterm p true st =
      (Acts.setTop { st with goalSymbol := goal, goalSymbolIsNext := next } ⟨some p, none⟩).setSet
      p := by
    unfold Parser.noteNonterm
    rw [if_pos rfl, hgoal]
  rw [hnote]
  have htop : (Function.update st.stack st.sp ⟨some p, none⟩) st.sp = ⟨some p, none⟩ :=
    Function.update_self _ _ _
  refine ⟨⟨hs.congr (names_setSet p) rfl rfl rfl rfl rfl rfl, hsp, fun A hA => ?_⟩, names_setSet p,
    rfl⟩
  have hlhs : (some p : Option ℕ) = some A := (congrArg CurSym.lhs htop).symm.trans hA
  obtain rfl := Option.some.inj hlhs
  refine ⟨hp, name, ?_, hname⟩
  rw [names_setSet]
  exact hmem

/-- A step that keeps the productions keeps what has been read. -/
lemma Acts.Kept.of_prods (hnames : st.names ⊆ st'.names) (hprods : st'.prods = st.prods) :
    Kept st st' := by
  refine ⟨hnames, fun j B δ hB => ?_, fun g n _ j δ hδ => ?_⟩
  · unfold Has at hB ⊢
    rwa [hprods]
  · unfold Has at hδ ⊢
    rwa [hprods] at hδ

/-- Finding or making the left-hand side of a rule leaves the parser between two rules. -/
lemma Acts.Idle.newNonterm (h : st.Idle) {name : Lexeme} (hname : IsName name) {q : Acts × Option ℕ}
    (hq : newNonterm name true st = .ok q) : q.1.Idle ∧ Kept st q.1 := by
  rcases newNonterm_cases hq with ⟨p, hp, hnon, rfl⟩ | ⟨p, -, -, rfl⟩ | ⟨-, hlt, rfl⟩
  · obtain ⟨hidle, hnames, hprods⟩ := Acts.Idle.noteNonterm h.sound h.sp hnon (find_some hp) hname.1
    exact ⟨hidle, .of_prods (hnames ▸ List.Subset.refl _) hprods⟩
  · exact ⟨⟨h.sound.congr rfl rfl rfl rfl rfl rfl rfl, h.sp, h.lhs⟩,
      .of_prods (List.Subset.refl _) rfl⟩
  · have hhead : (name.take nameMax).head? ≠ some ' ' := by
      rw [head?_take_nameMax]
      exact hname.1
    obtain ⟨hidle, hnames, hprods⟩ := Acts.Idle.noteNonterm (h.sound.addNonterm hlt hname) h.sp
      (h.sound.isNonterm_succ hlt) List.mem_cons_self hhead
    refine ⟨hidle, .of_prods ?_ (hprods.trans rfl)⟩
    rw [hnames]
    exact List.subset_cons_self _ _

/-- The start of a right-hand side opens a production for the left-hand side that has been noted. -/
lemma Acts.Idle.newRhs (h : st.Idle) (hnew : newRhs st = .ok st') :
    ∃ A, (st.stack st.sp).lhs = some A ∧ Opens A st st' := by
  obtain ⟨A, hlhs, -, -⟩ := newRhs_cases hnew
  obtain ⟨hnon, name, hmem, -⟩ := h.lhs A hlhs
  exact ⟨A, hlhs, (runs_newRhs h.sound hlhs (h.sound.isSymbolNonterm hmem hnon)).of_eq_ok hnew⟩

/-- The calls for a right-hand side, when they do not end with an error. -/
lemma Acts.Idle.read (tool : Tool) (h : st.Idle) (hopens : Opens A st st') (hlex : r.Lexed)
    (hdepth : r.depth < ssize) :
    Runs (tool.read r st') fun st'' => ∃ t, Reading tool st.numProductons A [] r t st' st'' := by
  refine runs_read tool r hlex ?_ hopens.building
  rw [hopens.sp, h.sp]
  exact Nat.le_pred_of_lt hdepth

/-- Behind a right-hand side the parser is between two rules again, and its production is in the
table. -/
lemma Acts.Idle.of_reading (h : st.Idle) (hlhs : (st.stack st.sp).lhs = some A)
    (hopens : Opens A st st') (hread : Reading tool st.numProductons A [] r t st' st'') :
    st''.Idle ∧ Kept st st'' := by
  have hnames : st.names ⊆ st''.names := hopens.names ▸ hread.builds.names
  obtain ⟨hnon, name, hmem, hname⟩ := h.lhs A hlhs
  refine ⟨⟨hread.building.sound, ?_, fun B hB => ?_⟩, hnames, fun j B δ hB =>
    ?_, fun g n hg j δ hδ => ?_⟩
  · rw [hread.builds.sp, hopens.sp, h.sp]
  · rw [hread.building.top] at hB
    obtain rfl := Option.some.inj hB
    exact ⟨hnon, name, hnames hmem, hname⟩
  · have hlt := h.sound.lt_of_has hB
    rw [hread.builds.old j (by rw [hopens.numProductons]; omega) (by omega), hopens.has]
    exact Or.inl hB
  · have hle : g ≤ st'.currnonterm := by
      rw [hopens.currnonterm]
      exact (h.sound.isSymbolNonterm hg (h.sound.opt _ hg (head?_optName n)).1).2
    have hne := h.sound.ne_of_optName hg hmem hname
    have hold := (hread.builds.has_iff hopens.building hne hle j δ).mp hδ
    rw [hopens.has] at hold
    exact hold.resolve_right fun hnew => hne hnew.2.1

/-- A step of the parser leaves it between two rules, and keeps what has been read. -/
lemma Acts.Idle.reads (h : st.Idle) (hstep : tool.Reads st st') : st'.Idle ∧ Kept st st' := by
  cases hstep with
  | lhs hname hq => exact h.newNonterm hname hq
  | @rhs r st st' hlex hdepth hr =>
    obtain ⟨st₁, hnew, hread⟩ := bind_eq_ok hr
    obtain ⟨A, hlhs, hopens⟩ := h.newRhs hnew
    obtain ⟨t, ht⟩ := (h.read tool hopens hlex hdepth).of_eq_ok hread
    exact h.of_reading hlhs hopens ht

/-- A run of the parser leaves it between two rules, and keeps what has been read. -/
lemma Acts.Idle.run (h : st.Idle) (hrun : Relation.ReflTransGen tool.Reads st st') :
    st'.Idle ∧ Kept st st' := by
  induction hrun with
  | refl => exact ⟨h, .refl st⟩
  | tail _ hstep ih =>
    obtain ⟨hidle, hkept⟩ := ih.1.reads hstep
    exact ⟨hidle, ih.2.trans hkept⟩

/-- The directives leave the parser in front of the first rule. -/
lemma Acts.Declared.idle (h : st.Declared) : (firstSym st).Idle := by
  refine ⟨h.sound.congr rfl rfl rfl rfl rfl rfl rfl, h.sp, fun A hA => ?_⟩
  have hnone : (none : Option ℕ) = some A := h.lhs.symm.trans hA
  cases hnone

/-- A C identifier has no blank and no brace in front. -/
lemma isName_of_cIdentifier {name : Lexeme} (h : cIdentifier name = true) : IsName name := by
  rcases name with - | ⟨c, name⟩
  · exact ⟨by simp, by simp⟩
  have hc : (c.isAlphanum || c == '_') = true := by
    have hall := (Bool.and_eq_true_iff.mp h).2
    exact (List.all_eq_true.mp hall) c List.mem_cons_self
  refine ⟨?_, ?_⟩ <;>
  · rw [List.head?_cons, ne_eq, Option.some.injEq]
    rintro rfl
    exact absurd hc (by decide)

/-- A new terminal with the next number keeps the table sound. -/
lemma Acts.Sound.addTerm (h : st.Sound) {name : Lexeme} (hlt : st.currterm < maxTerm)
    (hname : IsName name) : (st.addTerm name).Sound := by
  have hmax : maxTerm = 254 := rfl
  have hnum := h.num_le
  have hmin : minNonterm = 256 := rfl
  have hact : minAct = 512 := rfl
  refine h.cons (x := (st.currterm + 1, name.take nameMax)) rfl (Nat.le_succ _) hlt le_rfl
    h.currnonterm_le le_rfl le_rfl hnum rfl rfl (Or.inl ⟨Nat.le_add_left _ _, le_rfl⟩) ?_
    (List.length_take_le _ _) ?_ ?_
  · intro y hy
    have hsym := h.isSymbol y hy
    unfold IsSymbol at hsym
    omega
  · rw [head?_take_nameMax]
    refine iff_of_false hname.2 ?_
    rw [isAct_iff]
    omega
  · rw [head?_take_nameMax]
    exact fun hblank => absurd hblank hname.1

namespace Acts.Declared

/-- The initial state is one in which nothing but directives has been read. -/
lemma initActs : initActs.Declared where
  sound :=
    { currterm_le := by decide
      currnonterm_le := by decide
      le_curract := by decide
      isSymbol := by simp [names, Parser.initActs]
      vals_nodup := by simp [names, Parser.initActs]
      length_le := by simp [names, Parser.initActs]
      act_iff := by simp [names, Parser.initActs]
      opt := by simp [names, Parser.initActs]
      opt_inj := by simp [names, Parser.initActs]
      num_le := by decide
      nums_nodup := by simp [Parser.initActs]
      num_lt := by simp [Parser.initActs]
      lhs_mem := by simp [Parser.initActs] }
  isName := by simp [names, Parser.initActs]
  num := rfl
  prods := rfl
  sp := rfl
  lhs := rfl

/-- Reporting an error does not end the part with the directives. -/
lemma lerror (h : st.Declared) (e : ActsError) : (st.lerror e).Declared :=
  ⟨h.sound.congr rfl rfl rfl rfl rfl rfl rfl, h.isName, h.num, h.prods, h.sp, h.lhs⟩

/-- `make_term` is one of the functions that directives call. -/
lemma makeTerm (h : st.Declared) {name : Lexeme} (hr : makeTerm name st = .ok st') :
    st'.Declared := by
  unfold Parser.makeTerm at hr
  split at hr
  · cases hr
    exact h.lerror _
  · rename_i hident
    split at hr
    · cases hr
      exact h
    · split at hr
      · cases hr
      · cases hr
        have hname : IsName name := isName_of_cIdentifier (by simpa using hident)
        refine ⟨h.sound.addTerm (by omega) hname, ?_, h.num, h.prods, h.sp, h.lhs⟩
        refine List.forall_mem_cons.mpr ⟨?_, h.isName⟩
        exact ⟨by rw [head?_take_nameMax]; exact hname.1, by rw [head?_take_nameMax]; exact hname.2⟩

/-- `new_nonterm` for a name behind `%type` is one of the functions that directives call. -/
lemma newNonterm (h : st.Declared) {name : Lexeme} (hname : IsName name) {q : Acts × Option ℕ}
    (hr : newNonterm name false st = .ok q) : q.1.Declared := by
  have hnote : ∀ {p : ℕ} {st : Acts}, st.Declared → (noteNonterm p false st).Declared := by
    intro p st h
    obtain ⟨goal, next, hgoal⟩ := noteGoal_eq p st
    have heq :
        noteNonterm p false st = { st with goalSymbol := goal, goalSymbolIsNext := next } := by
      unfold noteNonterm
      rw [if_neg (by decide), hgoal]
    rw [heq]
    exact ⟨h.sound.congr rfl rfl rfl rfl rfl rfl rfl, h.isName, h.num, h.prods, h.sp, h.lhs⟩
  rcases newNonterm_cases hr with ⟨p, -, -, rfl⟩ | ⟨p, -, -, rfl⟩ | ⟨-, hlt, rfl⟩
  · exact hnote h
  · exact h.lerror _
  · refine hnote ⟨h.sound.addNonterm hlt hname, ?_, h.num, h.prods, h.sp, h.lhs⟩
    refine List.forall_mem_cons.mpr ⟨?_, h.isName⟩
    exact ⟨by rw [head?_take_nameMax]; exact hname.1, by rw [head?_take_nameMax]; exact hname.2⟩

/-- `add_synch` is one of the functions that directives call. -/
lemma addSynch (h : st.Declared) (name : Lexeme) : (addSynch name st).Declared := by
  unfold Parser.addSynch
  split
  · exact h.lerror _
  · split
    · exact ⟨h.sound.congr rfl rfl rfl rfl rfl rfl rfl, h.isName, h.num, h.prods, h.sp, h.lhs⟩
    · exact h.lerror _

/-- A directive that is read leaves the parser among the directives. -/
lemma directive (h : st.Declared) {d : Directive} (hlex : ∀ text ∈ d.typeNames, IsName text)
    (hr : directive st d = .ok st') : st'.Declared := by
  cases d with
  | synch snames =>
    cases hr
    exact foldl_rel (R := fun st st' => st.Declared → st'.Declared) (fun _ h => h)
      (fun h h' h₀ => h' (h h₀)) (fun st name h => h.addSynch name) snames st h
  | percentUnion =>
    cases hr
    exact h.lerror _
  | type fnames =>
    have hfold : fnames.foldlM fname st = .ok st' := hr
    clear hr
    induction fnames generalizing st with
    | nil =>
      cases hfold
      exact h
    | cons f fnames ih =>
      rw [List.foldlM_cons] at hfold
      obtain ⟨st₁, h₁, hrest⟩ := bind_eq_ok hfold
      cases f with
      | name text =>
        obtain ⟨q, hq, heq⟩ := bind_eq_ok h₁
        cases heq
        refine ih (h.newNonterm (hlex text List.mem_cons_self) hq) (fun text hmem => hlex text ?_)
          hrest
        exact List.mem_cons_of_mem _ hmem
      | field text =>
        cases h₁
        exact ih (h.lerror _) hlex hrest
  | termSpec tnames =>
    refine foldlM_rel (R := fun st st' => st.Declared → st'.Declared) (fun _ h => h)
      (fun h h' h₀ => h' (h h₀)) ?_ tnames hr h
    rintro st (text | text) st' h' h
    · exact h.makeTerm h'
    · cases h'
      exact h.lerror _
  | level pnames =>
    cases hr
    refine foldl_rel (R := fun st st' => st.Declared → st'.Declared) (fun _ h => h)
      (fun h h' h₀ => h' (h h₀)) ?_ pnames _ (h.lerror _)
    rintro st (text | text) h
    · exact h
    · exact h.lerror _
  | codeBlock =>
    cases hr
    exact h
  | start =>
    cases hr
    exact h.lerror _

/-- The directives of llama leave the parser in front of the rules. -/
lemma directives : ∀ {defs : List Directive} {st : Acts}, st.Declared →
    (∀ d ∈ defs, ∀ text ∈ d.typeNames, IsName text) → defs.foldlM Parser.directive st = .ok st' →
    st'.Declared
  | [], st, h, _, hr => by
    cases hr
    exact h
  | d :: defs, st, h, hlex, hr => by
    rw [List.foldlM_cons] at hr
    obtain ⟨st₁, h₁, hrest⟩ := bind_eq_ok hr
    obtain ⟨hd, hdefs⟩ := List.forall_mem_cons.mp hlex
    exact directives (h.directive hd h₁) hdefs hrest

end Acts.Declared

/-- The texts of the specification are those of the lexer, and its groups fit on the stack. -/
structure Spec.Lexed (spec : Spec) : Prop where
  /-- The names behind `%type`. -/
  defs : ∀ d ∈ spec.defs, ∀ text ∈ d.typeNames, IsName text
  /-- The left-hand sides are names. -/
  lhs : ∀ q ∈ spec.rules, IsName q.lhs
  /-- The right-hand sides have names, and no group is too deep. -/
  rhs : ∀ q ∈ spec.rules, ∀ r ∈ q.rhs :: q.alternatives, r.Lexed ∧ r.depth < ssize

/-- The right-hand sides of a rule are read one after another. -/
lemma reads_rightSides : ∀ {l : List Rhs} {st : Acts}, (∀ r ∈ l, r.Lexed ∧ r.depth < ssize) →
    l.foldlM rightSide st = .ok st' → Relation.ReflTransGen Tool.llama.Reads st st'
  | [], st, _, hr => by
    cases hr
    exact .refl
  | r :: l, st, hlex, hr => by
    rw [List.foldlM_cons] at hr
    obtain ⟨st₁, h₁, hrest⟩ := bind_eq_ok hr
    obtain ⟨⟨hr₁, hdepth⟩, hl⟩ := List.forall_mem_cons.mp hlex
    have hside : Tool.llama.rightSide st r = .ok st₁ := by
      unfold Tool.rightSide
      rw [Tool.llama_read]
      exact h₁
    exact .head (.rhs hr₁ hdepth hside) (reads_rightSides hl hrest)

/-- Reading the rules one after another is a run of the parser. -/
lemma reads_rules : ∀ {l : List Rule} {st : Acts}, (∀ q ∈ l, IsName q.lhs) →
    (∀ q ∈ l, ∀ r ∈ q.rhs :: q.alternatives, r.Lexed ∧ r.depth < ssize) →
    l.foldlM readRule st = .ok st' →
      Relation.ReflTransGen Tool.llama.Reads st st'
  | [], st, _, _, hr => by
    cases hr
    exact .refl
  | q :: l, st, hlhs, hrhs, hr => by
    rw [List.foldlM_cons] at hr
    obtain ⟨st₁, h₁, hrest⟩ := bind_eq_ok hr
    obtain ⟨p, hp, hsides⟩ := bind_eq_ok h₁
    obtain ⟨hq, hlhs'⟩ := List.forall_mem_cons.mp hlhs
    obtain ⟨hq', hrhs'⟩ := List.forall_mem_cons.mp hrhs
    exact .head (.lhs hq hp) ((reads_rightSides hq' hsides).trans (reads_rules hlhs' hrhs' hrest))

/-- What llama reads is a run of the steps from what its directives leave. -/
theorem Spec.reads {spec : Spec} (hlex : spec.Lexed) (h : spec.read = .ok st) :
    ∃ st₀, st₀.Declared ∧ Relation.ReflTransGen Tool.llama.Reads (firstSym st₀) st := by
  obtain ⟨st₀, hdefs, hrules⟩ := bind_eq_ok h
  exact ⟨st₀, Acts.Declared.initActs.directives hlex.defs hdefs,
    reads_rules hlex.lhs hlex.rhs hrules⟩

/-- The nonterminals of the groups are nonterminals of the table. -/
lemma Rhs.Resolves.isNonterm (h : r.Resolves st t) (hs : st.Sound) (hg : g ∈ t.groups) :
    IsNonterm g := by
  obtain ⟨n, hmem⟩ := h.exists_optName hg
  exact (hs.opt _ hmem (head?_optName n)).1

/-- The productions that the calls for a right-hand side record derive exactly the strings in which
each `[ ]` contributes zero or one and each `[ ]*` zero or more occurrences of its body: in llama
and in occs, whatever has been read before, and whatever is read after it. -/
theorem groups_derive {st₀ : Acts} (h₀ : st₀.Declared)
    (hrun : Relation.ReflTransGen tool.Reads (firstSym st₀) st) (hlex : r.Lexed)
    (hdepth : r.depth < ssize) {st₁ : Acts} (hnew : newRhs st = .ok st₁) :
    tool.read r st₁ ≠ .error .crash ∧ ∀ st₂, tool.read r st₁ = .ok st₂ → ∃ t, r.Resolves st₂ t ∧
      ∀ st₃, Relation.ReflTransGen tool.Reads st₂ st₃ → t.Recorded tool st₃ ∧
        (∃ A, (st.stack st.sp).lhs = some A ∧ st₃.Has st.numProductons A t.symbols) ∧
        formLanguage st₃.cfg (form t.symbols) = t.language fun p => formLanguage st₃.cfg
        (form [p]) := by
  have hidle := (h₀.idle.run hrun).1
  obtain ⟨A, hlhs, hopens⟩ := hidle.newRhs hnew
  have hruns := hidle.read tool hopens hlex hdepth
  refine ⟨fun hcrash => ?_, fun st₂ hread => ?_⟩
  · rw [hcrash] at hruns
    exact hruns rfl
  obtain ⟨t, ht⟩ := hruns.of_eq_ok hread
  have hidle₂ := (hidle.of_reading hlhs hopens ht).1
  refine ⟨t, ht.resolves, fun st₃ hrun₃ => ?_⟩
  obtain ⟨hidle₃, hkept⟩ := hidle₂.run hrun₃
  have hrecorded : t.Recorded tool st₃ := by
    refine ht.recorded.congr fun g hg j δ => ⟨fun hδ => ?_, hkept.has j g δ⟩
    obtain ⟨n, hmem⟩ := ht.resolves.exists_optName hg
    exact hkept.of_has g n hmem j δ hδ
  refine ⟨hrecorded, ⟨A, hlhs, hkept.has _ _ _ ht.building.has⟩, formLanguage_symbols hrecorded
    fun g hg => ?_⟩
  exact ht.resolves.isNonterm hidle₂.sound hg

/-- The right-hand side `[ x ]* { }`, with a group that is repeated. -/
def repeatedRhs : Rhs := .opt (.name ['x'] .nil) true (.action ['{', '}'] .nil)

/-- `s : [ x ]* { }` in occs: the group is a left-recursive nonterminal. -/
theorem groups_derive_repeatedRhs : ∃ st st₁ st₂ t, newRhs st = .ok st₁ ∧
    (Tool.occs fun _ => 0).read repeatedRhs st₁ = .ok st₂ ∧ repeatedRhs.Resolves st₂ t ∧
      t.Recorded (.occs fun _ => 0) st₂ ∧
        formLanguage st₂.cfg (form t.symbols) = t.language fun p => formLanguage st₂.cfg
        (form [p]) := by
  obtain ⟨st, st₁, st₂, hlhs, hnew, hread⟩ :
      ∃ st st₁ st₂, (Tool.occs fun _ => 0).Reads (firstSym initActs) st ∧ newRhs st = .ok st₁ ∧
        (Tool.occs fun _ => 0).read repeatedRhs st₁ = .ok st₂ :=
    ⟨_, _, _, .lhs (by decide : IsName ['s']) rfl, rfl, rfl⟩
  have hlex : repeatedRhs.Lexed := ⟨⟨by decide, trivial⟩, by decide, trivial⟩
  obtain ⟨t, hresolves, hrun⟩ :=
    (groups_derive Acts.Declared.initActs (.single hlhs) hlex (by decide) hnew).2 st₂ hread
  obtain ⟨hrecorded, -, hlang⟩ := hrun st₂ .refl
  exact ⟨st, st₁, st₂, t, hnew, hread, hresolves, hrecorded, hlang⟩

end Parser
