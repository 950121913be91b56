import Cgkits.Lib.ContextFree
import Mathlib

/-!
# The languages of sentential forms

`formLanguage g γ` is the set of the words that the form `γ` yields.  It turns concatenation into
the product of languages, and on the nonterminals it is the least interpretation that every rule
respects (`formLanguage_le`), which is the induction principle for derivations.

The operators of regular right parts, an optional group and a repeated group, are nonterminals with
two rules each. `IsGroup.optional`, `IsGroup.rightRecursive` and `IsGroup.leftRecursive` say what
these derive.
-/

namespace ContextFree

open ContextFreeGrammar Computability

variable {T : Type*} {g : ContextFreeGrammar T}

/-- The language of a sentential form: the words that it yields. -/
def formLanguage (g : ContextFreeGrammar T) (γ : List (Symbol T g.NT)) : Language T :=
  {w | Yields g γ w}

/-- A word is in the language of a form exactly when the form yields it. -/
lemma mem_formLanguage {γ : List (Symbol T g.NT)} {w : List T} : w ∈ formLanguage g γ ↔
    Yields g γ w := Iff.rfl

/-- The empty form yields the empty word and nothing else. -/
@[simp] lemma formLanguage_nil : formLanguage g [] = 1 := by
  ext w
  rw [mem_formLanguage, Language.mem_one]
  constructor
  · rintro ⟨⟩
    rfl
  · rintro rfl
    exact .nil

/-- The language of a concatenation is the product of the languages of its parts. -/
@[simp] lemma formLanguage_append (α β : List (Symbol T g.NT)) :
    formLanguage g (α ++ β) = formLanguage g α * formLanguage g β := by
  ext w
  rw [mem_formLanguage, Language.mem_mul]
  constructor
  · intro h
    obtain ⟨u, v, rfl, hu, hv⟩ := h.of_append
    exact ⟨u, hu, v, hv, rfl⟩
  · rintro ⟨u, hu, v, hv, rfl⟩
    exact Yields.append hu hv

/-- The language of a form is the product of those of its first symbol and of the rest. -/
lemma formLanguage_cons (x : Symbol T g.NT) (γ : List (Symbol T g.NT)) :
    formLanguage g (x :: γ) = formLanguage g [x] * formLanguage g γ :=
  formLanguage_append [x] γ

/-- A rule adds what its right-hand side yields to its left-hand side. -/
lemma formLanguage_output_le {r : ContextFreeRule T g.NT} (hr : r ∈ g.rules) :
    formLanguage g r.output ≤ formLanguage g [.nonterminal r.input] := by
  intro w hw
  have h : Yields g [.nonterminal r.input] (w ++ []) := .rule hr hw .nil
  rwa [List.append_nil] at h

/-! ## The least interpretation -/

/-- The language of a symbol, where the nonterminals are interpreted by `I`. -/
def symbolLanguage {N : Type*} (I : N → Language T) : Symbol T N → Language T
  | .terminal t => {[t]}
  | .nonterminal A => I A

/-- The language of a form, where the nonterminals are interpreted by `I`. -/
def interpret {N : Type*} (I : N → Language T) (γ : List (Symbol T N)) : Language T :=
  (γ.map (symbolLanguage I)).prod

section Interpret

variable {I : g.NT → Language T}

/-- The empty form is interpreted by the language of the empty word. -/
@[simp] lemma interpret_nil : interpret I [] = 1 := rfl

/-- A form is interpreted by the product of what its first symbol and the rest stand for. -/
@[simp] lemma interpret_cons (x : Symbol T g.NT) (γ : List (Symbol T g.NT)) :
    interpret I (x :: γ) = symbolLanguage I x * interpret I γ := List.prod_cons

/-- A concatenation is interpreted by the product of what its parts stand for. -/
@[simp] lemma interpret_append (α β : List (Symbol T g.NT)) :
    interpret I (α ++ β) = interpret I α * interpret I β := by
  rw [interpret, List.map_append, List.prod_append]
  rfl

/-- An interpretation below the derived languages gives a form no more than what it yields. -/
lemma interpret_le (hI : ∀ A, I A ≤ formLanguage g [.nonterminal A]) (γ : List (Symbol T g.NT)) :
    interpret I γ ≤ formLanguage g γ := by
  induction γ with
  | nil => exact formLanguage_nil.ge
  | cons x γ ih =>
    have hx : symbolLanguage I x ≤ formLanguage g [x] := by
      rcases x with t | A
      · rintro w rfl
        exact Yields.terminal .nil
      · exact hI A
    rw [interpret_cons, formLanguage_cons]
    exact mul_le_mul' hx ih

/-- The derived languages are below every interpretation that the rules respect. -/
theorem formLanguage_le (hI : ∀ r ∈ g.rules, interpret I r.output ≤ I r.input)
    (γ : List (Symbol T g.NT)) : formLanguage g γ ≤ interpret I γ := by
  intro w hw
  induction (mem_formLanguage.mp hw) with
  | nil => exact Language.nil_mem_one
  | terminal h ih =>
    rw [interpret_cons]
    exact Language.append_mem_mul (a := [_]) rfl (ih h)
  | rule hr hu hv ihu ihv =>
    rw [interpret_cons]
    exact Language.append_mem_mul (hI _ hr (ihu hu)) (ihv hv)

/-- The language of one nonterminal is bounded when its own rules respect the bound. -/
lemma formLanguage_nonterminal_le {A : g.NT} {l : Language T}
    (hl : l ≤ formLanguage g [.nonterminal A]) (hA : ∀ r ∈ g.rules, r.input = A → ∀ J : g.NT →
    Language T, J A = l →
      (∀ B, J B ≤ formLanguage g [.nonterminal B]) → interpret J r.output ≤ l) :
    formLanguage g [.nonterminal A] ≤ l := by
  classical
  have hJ : ∀ B, Function.update (fun B => formLanguage g [.nonterminal B]) A l B ≤ formLanguage g
      [.nonterminal B] := by
    intro B
    by_cases hB : B = A
    · subst hB
      rw [Function.update_self]
      exact hl
    · rw [Function.update_of_ne hB]
  have hrules :
      ∀ r ∈ g.rules, interpret (Function.update (fun B => formLanguage g [.nonterminal B]) A l)
        r.output ≤ Function.update (fun B => formLanguage g [.nonterminal B]) A l r.input := by
    intro r hr
    by_cases hin : r.input = A
    · rw [hin, Function.update_self]
      exact hA r hr hin _ (Function.update_self _ _ _) hJ
    · rw [Function.update_of_ne hin]
      exact (interpret_le hJ _).trans (formLanguage_output_le hr)
  have hle := formLanguage_le hrules [.nonterminal A]
  rwa [interpret_cons, interpret_nil, mul_one, symbolLanguage, Function.update_self] at hle

end Interpret

/-! ## Groups -/

/-- The rules of the nonterminal are the empty one and one with the given right-hand side. -/
structure IsGroup (g : ContextFreeGrammar T) (A : g.NT) (β : List (Symbol T g.NT)) : Prop where
  /-- The empty right-hand side. -/
  nil_mem : (⟨A, []⟩ : ContextFreeRule T g.NT) ∈ g.rules
  /-- The other right-hand side. -/
  mem : (⟨A, β⟩ : ContextFreeRule T g.NT) ∈ g.rules
  /-- The nonterminal has no third production. -/
  output_eq : ∀ r ∈ g.rules, r.input = A → r.output = [] ∨ r.output = β

namespace IsGroup

variable {A : g.NT} {β : List (Symbol T g.NT)}

/-- The empty word is in the language of a group. -/
lemma one_le {γ : List (Symbol T g.NT)} (h : IsGroup g A γ) : 1 ≤ formLanguage g [.nonterminal A] :=
  formLanguage_nil.ge.trans (formLanguage_output_le h.nil_mem)

/-- A group derives what its other right-hand side derives. -/
lemma le {γ : List (Symbol T g.NT)} (h : IsGroup g A γ) :
    formLanguage g γ ≤ formLanguage g [.nonterminal A] :=
  formLanguage_output_le h.mem

/-- A nonterminal with the rules `A → β | ε` derives zero or one `β`. -/
theorem optional (h : IsGroup g A β) : formLanguage g [.nonterminal A] = 1 + formLanguage g β := by
  refine le_antisymm ?_ (sup_le h.one_le h.le)
  intro w hw
  cases hw with
  | @rule r _ u v hr hu hv =>
    cases hv
    rw [List.append_nil]
    rcases h.output_eq r hr rfl with hout | hout
    · rw [hout] at hu
      exact Or.inl (formLanguage_nil.le hu)
    · exact Or.inr (hout ▸ hu)

/-- A nonterminal with the rules `A → β A | ε` derives zero or more `β`. -/
theorem rightRecursive (h : IsGroup g A (β ++ [.nonterminal A])) :
    formLanguage g [.nonterminal A] = (formLanguage g β)∗ := by
  have hle : (formLanguage g β)∗ ≤ formLanguage g [.nonterminal A] := by
    refine kstar_le_of_mul_le_right h.one_le ?_
    rw [← formLanguage_append]
    exact h.le
  refine le_antisymm (formLanguage_nonterminal_le hle ?_) hle
  intro r hr hin J hJA hJ
  rcases h.output_eq r hr hin with hout | hout
  · rw [hout, interpret_nil]
    exact one_le_kstar
  · rw [hout, interpret_append, interpret_cons, interpret_nil, mul_one, symbolLanguage, hJA]
    exact (mul_le_mul_left (interpret_le hJ β) _).trans mul_kstar_le_kstar

/-- A nonterminal with the rules `A → A β | ε` derives zero or more `β`. -/
theorem leftRecursive (h : IsGroup g A (.nonterminal A :: β)) :
    formLanguage g [.nonterminal A] = (formLanguage g β)∗ := by
  have hle : (formLanguage g β)∗ ≤ formLanguage g [.nonterminal A] := by
    refine kstar_le_of_mul_le_left h.one_le ?_
    rw [← formLanguage_cons]
    exact h.le
  refine le_antisymm (formLanguage_nonterminal_le hle ?_) hle
  intro r hr hin J hJA hJ
  rcases h.output_eq r hr hin with hout | hout
  · rw [hout, interpret_nil]
    exact one_le_kstar
  · rw [hout, interpret_cons, symbolLanguage, hJA]
    exact (mul_le_mul_right (interpret_le hJ β) _).trans kstar_mul_le_kstar

end IsGroup

end ContextFree
