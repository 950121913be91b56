import Mathlib.Computability.ContextFreeGrammar

/-!
# FIRST and FOLLOW relations of a context-free grammar

The relations that table-driven parsers are built from, over Mathlib's `ContextFreeGrammar`.

`Yields` is the big-step form of derivability: a sentential form yields a word when every
nonterminal of it is rewritten to the end.  It agrees with `ContextFreeGrammar.Derives`
(`yields_iff_derives`) and carries the induction principle that a parser simulation follows.

`FirstBy P`, `FollowBy P` and `AllNull P` are the textbook rules read with an arbitrary predicate
`P` in the place of "derives the empty word".  For the true predicate `Nullable` they are the
derivational notions (`firstBy_nullable_iff`, `allNull_nullable_iff`); a construction that works
with another approximation of nullability is described by the same relations at its own predicate,
and `FirstBy.mono`, `FollowBy.mono` compare the two.
-/

namespace ContextFree

open ContextFreeGrammar

variable {T : Type*} {g : ContextFreeGrammar T}

/-! ## Big-step derivability -/

/-- `Yields γ w`: the sentential form `γ` is rewritten completely, to the word `w`. -/
inductive Yields (g : ContextFreeGrammar T) : List (Symbol T g.NT) → List T → Prop
  /-- The empty form yields the empty word. -/
  | nil : Yields g [] []
  /-- A terminal yields itself. -/
  | terminal {t : T} {γ : List (Symbol T g.NT)} {w : List T} (h : Yields g γ w) :
      Yields g (.terminal t :: γ) (t :: w)
  /-- A nonterminal yields what the right-hand side of one of its rules yields. -/
  | rule {r : ContextFreeRule T g.NT} {γ : List (Symbol T g.NT)} {u v : List T}
      (hr : r ∈ g.rules) (hu : Yields g r.output u) (hv : Yields g γ v) :
      Yields g (.nonterminal r.input :: γ) (u ++ v)

/-- When two forms yield two words, the forms together yield the words together. -/
lemma Yields.append {α β : List (Symbol T g.NT)} {u v : List T} (hα : Yields g α u)
    (hβ : Yields g β v) : Yields g (α ++ β) (u ++ v) := by
  induction hα with
  | nil => exact hβ
  | terminal _ ih => exact .terminal ih
  | rule hr hu _ _ ihv => exact List.append_assoc _ _ v ▸ .rule hr hu ihv

/-- A word that a concatenation yields splits into words that the two parts yield. -/
lemma Yields.of_append {α β : List (Symbol T g.NT)} {w : List T} (h : Yields g (α ++ β) w) :
    ∃ u v, w = u ++ v ∧ Yields g α u ∧ Yields g β v := by
  generalize hγ : α ++ β = γ at h
  induction h generalizing α with
  | nil =>
    obtain ⟨rfl, rfl⟩ := List.append_eq_nil_iff.mp hγ
    exact ⟨[], [], rfl, .nil, .nil⟩
  | @terminal t γ w h ih =>
    rcases α with _ | ⟨x, α⟩
    · exact ⟨[], t :: w, rfl, .nil, by rw [List.nil_append] at hγ; exact hγ ▸ .terminal h⟩
    · rw [List.cons_append, List.cons.injEq] at hγ
      obtain ⟨rfl, hγ⟩ := hγ
      obtain ⟨u, v, rfl, hu, hv⟩ := ih hγ
      exact ⟨t :: u, v, rfl, .terminal hu, hv⟩
  | @rule r γ u' v' hr hu' hv' _ ih =>
    rcases α with _ | ⟨x, α⟩
    · exact ⟨[], u' ++ v', rfl, .nil, by rw [List.nil_append] at hγ; exact hγ ▸ .rule hr hu' hv'⟩
    · rw [List.cons_append, List.cons.injEq] at hγ
      obtain ⟨rfl, hγ⟩ := hγ
      obtain ⟨u, v, rfl, hu, hv⟩ := ih hγ
      exact ⟨u' ++ u, v, (List.append_assoc _ _ _).symm, .rule hr hu' hu, hv⟩

/-- A form that consists of terminals only yields the word of these terminals. -/
lemma yields_map_terminal (w : List T) : Yields g (w.map .terminal) w := by
  induction w with
  | nil => exact .nil
  | cons t w ih => exact .terminal ih

/-- What a form yields after a rewriting step, it yields before the step as well. -/
lemma Yields.of_produces {γ δ : List (Symbol T g.NT)} {w : List T} (hγδ : g.Produces γ δ)
    (h : Yields g δ w) : Yields g γ w := by
  obtain ⟨r, hr, hrw⟩ := hγδ
  obtain ⟨p, q, rfl, rfl⟩ := hrw.exists_parts
  obtain ⟨u, v, rfl, hpu, hqv⟩ := h.of_append
  obtain ⟨u₁, u₂, rfl, hp, ho⟩ := hpu.of_append
  rw [List.append_assoc, List.append_assoc]
  exact hp.append (.rule hr ho hqv)

/-- Big-step derivability is derivability of the word by rewriting steps. -/
theorem yields_iff_derives {γ : List (Symbol T g.NT)} {w : List T} :
    Yields g γ w ↔ g.Derives γ (w.map .terminal) := by
  constructor
  · intro h
    induction h with
    | nil => exact .refl _
    | terminal _ ih => exact ih.append_left [_]
    | @rule r γ u v hr hu hv ihu ihv =>
      rw [List.map_append]
      have hstep : g.Derives ([.nonterminal r.input] ++ γ) (u.map .terminal ++ γ) :=
        ((show g.Produces _ _ from ⟨r, hr, .input_output⟩).single.trans ihu).append_right γ
      exact hstep.trans (ihv.append_left _)
  · intro h
    induction h using Relation.ReflTransGen.head_induction_on with
    | refl => exact yields_map_terminal w
    | head hstep _ ih => exact ih.of_produces hstep

/-! ## Nullability -/

/-- The nonterminal `A` is nullable: it derives the empty word. -/
def Nullable (g : ContextFreeGrammar T) (A : g.NT) : Prop := g.Derives [.nonterminal A] []

/-- Every symbol of the form is a nonterminal with the property `P`. -/
def AllNull (P : g.NT → Prop) (γ : List (Symbol T g.NT)) : Prop :=
  ∀ x ∈ γ, ∃ A, x = .nonterminal A ∧ P A

section AllNull

variable {P Q : g.NT → Prop}

/-- All symbols of the empty form satisfy the predicate. -/
@[simp] lemma allNull_nil : AllNull P [] := fun _ h => by simp at h

/-- A form that starts with a nonterminal has only symbols with `P` if the nonterminal and the rest
have. -/
@[simp] lemma allNull_cons_nonterminal {A : g.NT} {γ : List (Symbol T g.NT)} :
    AllNull P (.nonterminal A :: γ) ↔ P A ∧ AllNull P γ := by
  simp [AllNull]

/-- A form that starts with a terminal has a symbol that is no nonterminal. -/
@[simp] lemma not_allNull_cons_terminal {t : T} {γ : List (Symbol T g.NT)} :
    ¬ AllNull P (.terminal t :: γ) := by
  simp [AllNull]

/-- A concatenation has only symbols with `P` exactly when both parts have. -/
@[simp] lemma allNull_append {α β : List (Symbol T g.NT)} :
    AllNull P (α ++ β) ↔ AllNull P α ∧ AllNull P β := by
  simp only [AllNull, List.mem_append, or_imp, forall_and]

/-- A form whose symbols satisfy `P` is also one for every weaker predicate. -/
lemma AllNull.mono (hPQ : ∀ A, P A → Q A) {γ : List (Symbol T g.NT)} (h : AllNull P γ) :
    AllNull Q γ := fun x hx => by
  obtain ⟨A, rfl, hA⟩ := h x hx
  exact ⟨A, rfl, hPQ A hA⟩

/-- `P` holds of the left-hand side of every rule whose right-hand side consists of `P`-symbols. -/
def NullClosed (P : g.NT → Prop) : Prop := ∀ r ∈ g.rules, AllNull P r.output → P r.input

/-- Going one rewriting step backwards keeps `AllNull P` for a closed `P`. -/
lemma AllNull.of_produces (hP : NullClosed P) {γ δ : List (Symbol T g.NT)}
    (hγδ : g.Produces γ δ) (h : AllNull P δ) : AllNull P γ := by
  obtain ⟨r, hr, hrw⟩ := hγδ
  obtain ⟨p, q, rfl, rfl⟩ := hrw.exists_parts
  simp only [allNull_append] at h
  simp only [allNull_append, allNull_cons_nonterminal, allNull_nil, and_true]
  exact ⟨⟨h.1.1, hP r hr h.1.2⟩, h.2⟩

/-- A form that derives the empty word consists of symbols of any closed predicate. -/
lemma allNull_of_derives (hP : NullClosed P) {γ : List (Symbol T g.NT)} (h : g.Derives γ []) :
    AllNull P γ := by
  induction h using Relation.ReflTransGen.head_induction_on with
  | refl => exact allNull_nil
  | head hstep _ ih => exact ih.of_produces hP hstep

/-- The empty word is derived by exactly the forms of nullable nonterminals. -/
theorem allNull_nullable_iff {γ : List (Symbol T g.NT)} :
    AllNull (Nullable g) γ ↔ g.Derives γ [] := by
  have hto : ∀ γ : List (Symbol T g.NT), AllNull (Nullable g) γ → g.Derives γ [] := by
    intro γ h
    induction γ with
    | nil => exact .refl _
    | cons x γ ih =>
      rcases x with t | A
      · exact absurd h not_allNull_cons_terminal
      · rw [allNull_cons_nonterminal] at h
        exact (h.1.append_right γ).trans (ih h.2)
  refine ⟨hto γ, fun h => allNull_of_derives (fun r hr hn => ?_) h⟩
  exact (show g.Produces _ _ from ⟨r, hr, .input_output⟩).single.trans (hto _ hn)

/-- Nullability is closed: a nonterminal with a right-hand side of nullable symbols is nullable. -/
lemma nullClosed_nullable : NullClosed (Nullable g) := fun r hr hn =>
  (show g.Produces _ _ from ⟨r, hr, .input_output⟩).single.trans (allNull_nullable_iff.mp hn)

/-- Nullability is the least closed predicate: it implies every other one. -/
lemma Nullable.of_nullClosed (hP : NullClosed P) {A : g.NT} (h : Nullable g A) : P A := by
  have := allNull_of_derives hP h
  simpa using this

end AllNull

/-- `A` starts a chain of first symbols that ends in an empty right-hand side.  Only the first
symbol of each right-hand side is looked at, so the chain says nothing about the symbols after
it. -/
inductive ChainNull (g : ContextFreeGrammar T) : g.NT → Prop
  /-- A rule with an empty right-hand side. -/
  | empty {r : ContextFreeRule T g.NT} (hr : r ∈ g.rules) (ho : r.output = []) :
      ChainNull g r.input
  /-- A rule whose first symbol starts such a chain. -/
  | chain {r : ContextFreeRule T g.NT} {B : g.NT} {γ : List (Symbol T g.NT)} (hr : r ∈ g.rules)
      (ho : r.output = .nonterminal B :: γ) (hB : ChainNull g B) : ChainNull g r.input

/-- A nonterminal with a chain of nullable symbols has a rule. -/
lemma ChainNull.exists_rule {A : g.NT} (h : ChainNull g A) : ∃ r ∈ g.rules, r.input = A := by
  cases h with
  | empty hr _ => exact ⟨_, hr, rfl⟩
  | chain hr _ _ => exact ⟨_, hr, rfl⟩

/-- The chain predicate, which looks at first symbols only, is closed. -/
lemma nullClosed_chainNull : NullClosed (ChainNull g) := by
  intro r hr hn
  rcases ho : r.output with _ | ⟨x, γ⟩
  · exact .empty hr ho
  · rw [ho] at hn
    rcases x with t | B
    · exact absurd hn not_allNull_cons_terminal
    · exact .chain hr ho (allNull_cons_nonterminal.mp hn).1

/-- The chain predicate is an over-approximation: a nullable nonterminal satisfies it. -/
lemma Nullable.chainNull {A : g.NT} (h : Nullable g A) : ChainNull g A :=
  h.of_nullClosed nullClosed_chainNull

/-- The two predicates coincide exactly when the left-hand side of every rule that starts with a
nullable nonterminal is nullable itself. -/
theorem chainNull_iff_nullable_iff :
    (∀ A, ChainNull g A ↔ Nullable g A) ↔
      ∀ r ∈ g.rules, ∀ B γ, r.output = .nonterminal B :: γ → Nullable g B →
        Nullable g r.input := by
  constructor
  · intro h r hr B γ ho hB
    exact (h r.input).mp (.chain hr ho ((h B).mpr hB))
  · intro h A
    refine ⟨fun hA => ?_, Nullable.chainNull⟩
    induction hA with
    | empty hr ho => exact nullClosed_nullable _ hr (by rw [ho]; exact allNull_nil)
    | chain hr ho _ ih => exact h _ hr _ _ ho ih

/-! ## FIRST -/

/-- `t` begins a string of the form, where `P` decides which nonterminals may be passed over. -/
inductive FirstBy (P : g.NT → Prop) : List (Symbol T g.NT) → T → Prop
  /-- The form starts with `t`. -/
  | terminal (t : T) (γ : List (Symbol T g.NT)) : FirstBy P (.terminal t :: γ) t
  /-- The first nonterminal is passed over. -/
  | skip {A : g.NT} {γ : List (Symbol T g.NT)} {t : T} (hA : P A) (h : FirstBy P γ t) :
      FirstBy P (.nonterminal A :: γ) t
  /-- The first nonterminal is rewritten. -/
  | rule {r : ContextFreeRule T g.NT} {γ : List (Symbol T g.NT)} {t : T} (hr : r ∈ g.rules)
      (h : FirstBy P r.output t) : FirstBy P (.nonterminal r.input :: γ) t

section FirstBy

variable {P Q : g.NT → Prop} {α β γ : List (Symbol T g.NT)} {t : T}

/-- No terminal begins the empty form. -/
@[simp] lemma not_firstBy_nil : ¬ FirstBy P ([] : List (Symbol T g.NT)) t := nofun

/-- A form that starts with a terminal is begun by this terminal only. -/
@[simp] lemma firstBy_cons_terminal {s : T} : FirstBy P (.terminal s :: γ) t ↔ t = s := by
  constructor
  · rintro ⟨⟩
    rfl
  · rintro rfl
    exact .terminal _ _

/-- A form that starts with a nonterminal: what begins the nonterminal, and what begins the rest
when the nonterminal may be passed over. -/
lemma firstBy_cons_nonterminal {A : g.NT} :
    FirstBy P (.nonterminal A :: γ) t ↔ FirstBy P [.nonterminal A] t ∨ (P A ∧ FirstBy P γ t) := by
  constructor
  · intro h
    cases h with
    | skip hA h => exact Or.inr ⟨hA, h⟩
    | rule hr h => exact Or.inl (.rule hr h)
  · rintro (h | ⟨hA, h⟩)
    · cases h with
      | skip _ h => exact absurd h not_firstBy_nil
      | rule hr h => exact .rule hr h
    · exact .skip hA h

/-- A single nonterminal is begun by what begins one of its right-hand sides. -/
lemma firstBy_singleton_nonterminal {A : g.NT} :
    FirstBy P [.nonterminal A] t ↔ ∃ r ∈ g.rules, r.input = A ∧ FirstBy P r.output t := by
  constructor
  · intro h
    cases h with
    | skip _ h => exact absurd h not_firstBy_nil
    | rule hr h => exact ⟨_, hr, rfl, h⟩
  · rintro ⟨r, hr, rfl, h⟩
    exact .rule hr h

/-- A concatenation: what begins the left part, and what begins the right part when all symbols of
the left part may be passed over. -/
lemma firstBy_append :
    FirstBy P (α ++ β) t ↔ FirstBy P α t ∨ (AllNull P α ∧ FirstBy P β t) := by
  induction α with
  | nil => simp
  | cons x α ih =>
    rcases x with s | A
    · simp
    · rw [List.cons_append, firstBy_cons_nonterminal, ih,
        firstBy_cons_nonterminal (γ := α), allNull_cons_nonterminal]
      tauto

/-- A weaker predicate passes over more symbols, so that it sees the same first terminals and
perhaps more. -/
lemma FirstBy.mono (hPQ : ∀ A, P A → Q A) (h : FirstBy P γ t) : FirstBy Q γ t := by
  induction h with
  | terminal t γ => exact .terminal t γ
  | skip hA _ ih => exact .skip (hPQ _ hA) ih
  | rule hr _ ih => exact .rule hr ih

/-- Going one rewriting step backwards keeps what begins the form, for a closed predicate. -/
lemma FirstBy.of_produces (hP : NullClosed P) (hst : g.Produces α β) (h : FirstBy P β t) :
    FirstBy P α t := by
  obtain ⟨r, hr, hrw⟩ := hst
  obtain ⟨p, q, rfl, rfl⟩ := hrw.exists_parts
  simp only [firstBy_append, allNull_append] at h
  simp only [firstBy_append, firstBy_singleton_nonterminal, allNull_append,
    allNull_cons_nonterminal, allNull_nil, and_true]
  rcases h with (hp | ⟨hp, ho⟩) | ⟨⟨hp, ho⟩, hq⟩
  · exact Or.inl (Or.inl hp)
  · exact Or.inl (Or.inr ⟨hp, r, hr, rfl, ho⟩)
  · exact Or.inr ⟨⟨hp, hP r hr ho⟩, hq⟩

/-- With true nullability, `t` begins `γ` exactly when `γ` derives a form that starts with `t`. -/
theorem firstBy_nullable_iff :
    FirstBy (Nullable g) γ t ↔ ∃ δ, g.Derives γ (.terminal t :: δ) := by
  constructor
  · intro h
    induction h with
    | terminal t γ => exact ⟨γ, .refl _⟩
    | skip hA _ ih =>
      obtain ⟨δ, hδ⟩ := ih
      exact ⟨δ, (hA.append_right _).trans hδ⟩
    | @rule r γ t hr _ ih =>
      obtain ⟨δ, hδ⟩ := ih
      exact ⟨δ ++ γ,
        ((show g.Produces _ _ from ⟨r, hr, .input_output⟩).single.trans hδ).append_right γ⟩
  · rintro ⟨δ, h⟩
    induction h using Relation.ReflTransGen.head_induction_on with
    | refl => exact .terminal t δ
    | head hstep _ ih => exact ih.of_produces nullClosed_nullable hstep

/-- A form that yields a nonempty word is begun by its first letter. -/
lemma Yields.firstBy (hP : NullClosed P) {w : List T} (h : Yields g γ (t :: w)) :
    FirstBy P γ t :=
  (firstBy_nullable_iff.mpr ⟨w.map .terminal, yields_iff_derives.mp h⟩).mono
    fun _ hA => hA.of_nullClosed hP

/-- A form that yields the empty word consists of symbols that may be passed over. -/
lemma Yields.allNull (hP : NullClosed P) (h : Yields g γ []) : AllNull P γ :=
  allNull_of_derives hP (yields_iff_derives.mp h)

end FirstBy

/-! ## FOLLOW -/

/-- `FollowBy P A t`: the letter `t`, or the end of the input (`none`), may follow `A`. -/
inductive FollowBy (P : g.NT → Prop) : g.NT → Option T → Prop
  /-- The end of the input follows the initial nonterminal. -/
  | start : FollowBy P g.initial none
  /-- What begins the rest of a right-hand side after `A` follows `A`. -/
  | next {r : ContextFreeRule T g.NT} {α β : List (Symbol T g.NT)} {A : g.NT} {t : T}
      (hr : r ∈ g.rules) (ho : r.output = α ++ .nonterminal A :: β) (ht : FirstBy P β t) :
      FollowBy P A (some t)
  /-- What follows the left-hand side follows `A` when the rest after `A` may be passed over. -/
  | last {r : ContextFreeRule T g.NT} {α β : List (Symbol T g.NT)} {A : g.NT} {t : Option T}
      (hr : r ∈ g.rules) (ho : r.output = α ++ .nonterminal A :: β) (hβ : AllNull P β)
      (ht : FollowBy P r.input t) : FollowBy P A t

/-- A weaker predicate gives more followers. -/
lemma FollowBy.mono {P Q : g.NT → Prop} (hPQ : ∀ A, P A → Q A) {A : g.NT} {t : Option T}
    (h : FollowBy P A t) : FollowBy Q A t := by
  induction h with
  | start => exact .start
  | next hr ho ht => exact .next hr ho (ht.mono hPQ)
  | last hr ho hβ _ ih => exact .last hr ho (hβ.mono hPQ) ih

/-- `SelectBy P r t`: the rule `r` is to be applied in front of the lookahead `t`. -/
def SelectBy (P : g.NT → Prop) (r : ContextFreeRule T g.NT) (t : Option T) : Prop :=
  (∃ s, t = some s ∧ FirstBy P r.output s) ∨ (AllNull P r.output ∧ FollowBy P r.input t)

/-- A weaker predicate selects a rule for the same terminals and perhaps more. -/
lemma SelectBy.mono {P Q : g.NT → Prop} (hPQ : ∀ A, P A → Q A) {r : ContextFreeRule T g.NT}
    {t : Option T} (h : SelectBy P r t) : SelectBy Q r t := by
  rcases h with ⟨s, rfl, hs⟩ | ⟨hn, hf⟩
  · exact Or.inl ⟨s, rfl, hs.mono hPQ⟩
  · exact Or.inr ⟨hn.mono hPQ, hf.mono hPQ⟩

/-- Every nonterminal of the form is followed there by members of its FOLLOW set only. -/
def FollowClosed (P : g.NT → Prop) (γ : List (Symbol T g.NT)) : Prop :=
  ∀ α A β, γ = α ++ .nonterminal A :: β →
    (∀ t, FirstBy P β t → FollowBy P A (some t)) ∧ (AllNull P β → FollowBy P A none)

/-- Being closed under FOLLOW holds of the form that consists of the initial symbol. -/
lemma followClosed_initial (P : g.NT → Prop) : FollowClosed P [.nonterminal g.initial] := by
  intro α A β h
  rcases α with _ | ⟨x, α⟩
  · obtain ⟨hA, rfl⟩ := List.cons.inj h
    obtain rfl := Symbol.nonterminal.inj hA
    exact ⟨fun t ht => absurd ht not_firstBy_nil, fun _ => .start⟩
  · have := (List.cons.inj h).2
    simp at this

/-- A form that is closed under FOLLOW stays so when symbols at its front are dropped. -/
lemma FollowClosed.of_append {P : g.NT → Prop} {α γ : List (Symbol T g.NT)}
    (h : FollowClosed P (α ++ γ)) : FollowClosed P γ := by
  rintro β A δ rfl
  exact h (α ++ β) A δ (List.append_assoc _ _ _).symm

/-- Rewriting the first nonterminal of a form keeps the form closed. -/
lemma FollowClosed.expand {P : g.NT → Prop} {r : ContextFreeRule T g.NT}
    (hr : r ∈ g.rules) {γ : List (Symbol T g.NT)}
    (h : FollowClosed P (.nonterminal r.input :: γ)) : FollowClosed P (r.output ++ γ) := by
  have hhead := h [] r.input γ rfl
  intro α A β hsplit
  rcases List.append_eq_append_iff.mp hsplit with ⟨δ, rfl, hγ⟩ | ⟨δ, hout, hβ⟩
  · exact h (.nonterminal r.input :: δ) A β (by rw [hγ]; rfl)
  · rcases δ with _ | ⟨x, δ⟩
    · rw [List.nil_append] at hβ
      exact h [.nonterminal r.input] A β (by rw [← hβ]; rfl)
    · rw [List.cons_append, List.cons.injEq] at hβ
      obtain ⟨rfl, rfl⟩ := hβ
      refine ⟨fun t ht => ?_, fun hn => ?_⟩
      · rcases firstBy_append.mp ht with hδ | ⟨hδ, hγ⟩
        · exact .next hr hout hδ
        · exact .last hr hout hδ (hhead.1 t hγ)
      · rw [allNull_append] at hn
        exact .last hr hout hn.1 (hhead.2 hn.2)

/-- The rule that a sentence applies to the first nonterminal of a form is selected by the first
letter of the sentence, or by the end of the input. -/
lemma Yields.selectBy {P : g.NT → Prop} (hP : NullClosed P) {r : ContextFreeRule T g.NT}
    {γ : List (Symbol T g.NT)} (h : FollowClosed P (.nonterminal r.input :: γ)) {u v : List T}
    (hu : Yields g r.output u) (hv : Yields g γ v) : SelectBy P r (u ++ v).head? := by
  have hhead := h [] r.input γ rfl
  rcases u with _ | ⟨a, u⟩
  · refine Or.inr ⟨hu.allNull hP, ?_⟩
    rcases v with _ | ⟨b, v⟩
    · exact hhead.2 (hv.allNull hP)
    · exact hhead.1 b (hv.firstBy hP)
  · exact Or.inl ⟨a, rfl, hu.firstBy hP⟩

end ContextFree
