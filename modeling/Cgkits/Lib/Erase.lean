import Cgkits.Lib.ContextFree

/-!
# Nonterminals that are invisible

A grammar may have nonterminals whose only use is to mark a place: they derive the empty word and
nothing else.  `Erases` says that the rules of one grammar are those of another when such
nonterminals are left out, and `yields_erase_iff` and `language_eq_of_erases` that nothing else
changes.
-/

namespace ContextFree

open ContextFreeGrammar

variable {T N N' : Type*}

/-- The symbol of the other grammar that a symbol stands for, if it has one. -/
def eraseSymbol (f : N' → Option N) : Symbol T N' → Option (Symbol T N)
  | .terminal t => some (.terminal t)
  | .nonterminal A => (f A).map .nonterminal

/-- The sentential form of the other grammar, in which the invisible nonterminals are left out. -/
def erase (f : N' → Option N) (γ : List (Symbol T N')) : List (Symbol T N) :=
  γ.filterMap (eraseSymbol f)

section Erase

variable {f : N' → Option N} {γ δ : List (Symbol T N')} {A : N'} {B : N} {t : T}

/-- The empty form stands for the empty form. -/
@[simp] lemma erase_nil : erase (T := T) f [] = [] := rfl

/-- Erasing the invisible symbols of a concatenation erases those of its parts. -/
@[simp] lemma erase_append : erase f (γ ++ δ) = erase f γ ++ erase f δ := List.filterMap_append

/-- Terminals are always visible, so that a terminal in front stays in front. -/
@[simp] lemma erase_cons_terminal : erase f (.terminal t :: γ) = .terminal t :: erase f γ := rfl

/-- An invisible nonterminal in front leaves nothing behind. -/
lemma erase_cons_none (h : f A = none) : erase f (.nonterminal A :: γ) = erase f γ := by
  simp [erase, eraseSymbol, h]

/-- A visible nonterminal in front becomes the nonterminal that it stands for. -/
lemma erase_cons_some (h : f A = some B) :
    erase f (.nonterminal A :: γ) = .nonterminal B :: erase f γ := by
  simp [erase, eraseSymbol, h]

end Erase

variable {g g' : ContextFreeGrammar T}

/-- The rules of `g'` are those of `g` with invisible nonterminals, which derive the empty word. -/
structure Erases (f : g'.NT → Option g.NT) : Prop where
  /-- A rule of an invisible nonterminal is invisible. -/
  of_none : ∀ r ∈ g'.rules, f r.input = none → erase f r.output = []
  /-- A rule of a visible nonterminal is one of the other grammar. -/
  of_some : ∀ r ∈ g'.rules, ∀ A, f r.input = some A →
    (⟨A, erase f r.output⟩ : ContextFreeRule T g.NT) ∈ g.rules
  /-- Every rule of the other grammar has one. -/
  exists_rule : ∀ r ∈ g.rules, ∀ A', f A' = some r.input → ∃ r' ∈ g'.rules, r'.input = A' ∧
    erase f r'.output = r.output
  /-- An invisible nonterminal derives the empty word. -/
  epsilon : ∀ A', f A' = none → (⟨A', []⟩ : ContextFreeRule T g'.NT) ∈ g'.rules

namespace Erases

variable {f : g'.NT → Option g.NT}

/-- What is derived is derived without the invisible nonterminals. -/
lemma yields_erase (h : Erases f) {γ : List (Symbol T g'.NT)} {w : List T} (hγ : Yields g' γ w) :
    Yields g (erase f γ) w := by
  induction hγ with
  | nil => exact .nil
  | terminal _ ih => exact .terminal ih
  | @rule r γ u v hr _ _ ihu ihv =>
    rcases hf : f r.input with _ | A
    · rw [h.of_none r hr hf] at ihu
      rw [erase_cons_none hf]
      exact ihu.append ihv
    · rw [erase_cons_some hf]
      exact .rule (h.of_some r hr A hf) ihu ihv

/-- A form of invisible nonterminals derives the empty word. -/
lemma yields_nil (h : Erases f) {γ : List (Symbol T g'.NT)} (hγ : ∀ x ∈ γ, eraseSymbol f x = none) :
    Yields g' γ [] := by
  induction γ with
  | nil => exact .nil
  | cons x γ ih =>
    obtain ⟨hx, hrest⟩ := List.forall_mem_cons.mp hγ
    rcases x with t | A
    · exact absurd hx (Option.some_ne_none _)
    · exact .rule (h.epsilon A (Option.map_eq_none_iff.mp hx)) .nil (ih hrest)

/-- A word that a form yields is yielded by each form that stands for it, whatever invisible
nonterminals that has. -/
lemma yields_of_erase (h : Erases f) {δ : List (Symbol T g.NT)} {w : List T} (hδ : Yields g δ w) :
    ∀ γ, erase f γ = δ → Yields g' γ w := by
  induction hδ with
  | nil => exact fun γ hγ => h.yields_nil (List.filterMap_eq_nil_iff.mp hγ)
  | terminal _ ih =>
    intro γ hγ
    obtain ⟨π, x, γ, rfl, hπ, hx, hrest⟩ := List.filterMap_eq_cons_iff.mp hγ
    rcases x with t | A
    · cases hx
      exact (h.yields_nil hπ).append (.terminal (ih γ hrest))
    · obtain ⟨B, -, hB⟩ := Option.map_eq_some_iff.mp hx
      cases hB
  | @rule r δ u v hr _ _ ihu ihv =>
    intro γ hγ
    obtain ⟨π, x, γ, rfl, hπ, hx, hrest⟩ := List.filterMap_eq_cons_iff.mp hγ
    rcases x with t | A
    · cases hx
    · obtain ⟨B, hA, hB⟩ := Option.map_eq_some_iff.mp hx
      cases hB
      obtain ⟨r', hr', rfl, houtput⟩ := h.exists_rule r hr A hA
      exact (h.yields_nil hπ).append (.rule hr' (ihu _ houtput) (ihv γ hrest))

/-- A form yields the same words in the two grammars. -/
theorem yields_erase_iff (h : Erases f) {γ : List (Symbol T g'.NT)} {w : List T} :
    Yields g (erase f γ) w ↔ Yields g' γ w :=
  ⟨fun hw => h.yields_of_erase hw γ rfl, h.yields_erase⟩

/-- A nonterminal derives the empty word when it is invisible or does so without invisible
nonterminals. -/
lemma nullable_of_erase (h : Erases f) {A' : g'.NT} (hA : ∀ A, f A' = some A → Nullable g A) :
    Nullable g' A' := by
  have hnil : Yields g' [.nonterminal A'] [] := by
    refine h.yields_erase_iff.mp ?_
    rcases hf : f A' with _ | A
    · rw [erase_cons_none hf, erase_nil]
      exact .nil
    · rw [erase_cons_some hf, erase_nil]
      exact yields_iff_derives.mpr (hA A hf)
  exact yields_iff_derives.mp hnil

/-- Every derivation of the other grammar can be followed in this one, with invisible nonterminals
put into the forms. -/
lemma exists_derives (h : Erases f) {γ : List (Symbol T g'.NT)} {δ : List (Symbol T g.NT)}
    (hγ : g.Derives (erase f γ) δ) : ∃ δ', erase f δ' = δ ∧ g'.Derives γ δ' := by
  induction hγ with
  | refl => exact ⟨γ, rfl, .refl _⟩
  | tail _ hstep ih =>
    obtain ⟨δ', rfl, hδ'⟩ := ih
    obtain ⟨r, hr, hrw⟩ := hstep
    obtain ⟨p, q, herase, rfl⟩ := hrw.exists_parts
    rw [List.append_assoc, List.singleton_append] at herase
    obtain ⟨p', rest, rfl, rfl, hrest⟩ := List.filterMap_eq_append_iff.mp herase
    obtain ⟨π, x, q', rfl, hπ, hx, rfl⟩ := List.filterMap_eq_cons_iff.mp hrest
    rcases x with t | B
    · cases hx
    · obtain ⟨A, hA, hinput⟩ := Option.map_eq_some_iff.mp hx
      cases hinput
      obtain ⟨r', hr', rfl, houtput⟩ := h.exists_rule r hr B hA
      refine ⟨p' ++ π ++ r'.output ++ q', ?_, hδ'.trans ?_⟩
      · have hnil : erase f π = [] := List.filterMap_eq_nil_iff.mpr hπ
        simp only [erase_append, hnil, houtput, List.append_nil]
        rfl
      · have hrule := (show g'.Produces _ _ from ⟨r', hr', .input_output⟩).single
        simpa [List.append_assoc] using (hrule.append_right q').append_left (p' ++ π)

/-- What can come first without the invisible nonterminals can come first. -/
lemma firstBy_of_erase (h : Erases f) {γ : List (Symbol T g'.NT)} {t : T}
    (ht : FirstBy (Nullable g) (erase f γ) t) : FirstBy (Nullable g') γ t := by
  obtain ⟨δ, hδ⟩ := firstBy_nullable_iff.mp ht
  obtain ⟨δ', herase, hδ'⟩ := h.exists_derives hδ
  obtain ⟨π, x, rest, rfl, hπ, hx, -⟩ := List.filterMap_eq_cons_iff.mp herase
  refine firstBy_nullable_iff.mpr ⟨rest, hδ'.trans ?_⟩
  rcases x with s | A
  · cases hx
    exact (yields_iff_derives.mp (h.yields_nil hπ)).append_right (.terminal t :: rest)
  · obtain ⟨B, -, hB⟩ := Option.map_eq_some_iff.mp hx
    cases hB

/-- The two grammars have the same language when their initial symbols stand for each other. -/
theorem language_eq (h : Erases f) (hinitial : f g'.initial = some g.initial) :
    g'.language = g.language := by
  ext w
  rw [mem_language_iff, mem_language_iff]
  rw [← yields_iff_derives, ← yields_iff_derives, ← h.yields_erase_iff, erase_cons_some hinitial,
    erase_nil]

end Erases

end ContextFree
