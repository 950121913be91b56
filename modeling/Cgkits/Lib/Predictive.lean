import Mathlib.Logic.Relation
import Mathlib.Data.List.Basic

/-!
# Predictive parsing with a table

A predictive parser has a stack of symbols.  An action on top of it is executed, a terminal is
matched with the next token, and a nonterminal is replaced by the symbols that the table gives for
it and the token ahead, as long as the stack has room for them.

`Step` is one of these moves, and `Parses` is the run that starts with some symbols and ends when
all of them are gone, together with what it has executed and matched.  A run for two lists of
symbols is a run for the first one and then one for the second, which has less room because of what
stands below (`parses_append_iff`).  `reaches_iff` says that this is what the moves of the parser
do.
-/

namespace Predictive

/-- What a symbol on top of the stack asks for: an action, a token, or a replacement. -/
inductive Kind (κ : Type*)
  /-- The symbol is executed. -/
  | action
  /-- It is matched with a token that has this code. -/
  | terminal (t : κ)
  /-- The symbol is replaced by a right-hand side. -/
  | nonterminal

/-- The symbols, the tokens and their codes, and the table. -/
structure Table (σ τ κ : Type*) where
  /-- What is done with a symbol on top of the stack. -/
  kind : σ → Kind κ
  /-- The code of a token, by which it is looked up. -/
  code : τ → κ
  /-- The replacement for a nonterminal, by the code of the token ahead. -/
  next : σ → Option κ → Option (List σ)

/-- A state of the parser: the stack, the tokens left and what has been done. -/
structure Config (σ τ : Type*) where
  /-- The stack, the top first. -/
  stack : List σ
  /-- The tokens that have not been matched. -/
  input : List τ
  /-- What has been executed and matched. -/
  done : List (σ ⊕ τ)

/-- The stack has room for the symbols, if there are any. -/
def Room {σ : Type*} (d : ℕ) (δ γ : List σ) : Prop := δ = [] ∨ (δ ++ γ).length ≤ d

variable {σ τ κ : Type*} (T : Table σ τ κ) (d : ℕ)

/-- A move of the parser with a stack of size `d`, which records the actions and tokens. -/
inductive Step : Config σ τ → Config σ τ → Prop
  /-- An action on top is executed and recorded. -/
  | action {a : σ} {γ : List σ} {u : List τ} {es : List (σ ⊕ τ)} (ha : T.kind a = .action) :
      Step ⟨a :: γ, u, es⟩ ⟨γ, u, es ++ [.inl a]⟩
  /-- A terminal on top is matched with the first token. -/
  | terminal {x : σ} {γ : List σ} {t : τ} {u : List τ} {es : List (σ ⊕ τ)}
      (hx : T.kind x = .terminal (T.code t)) : Step ⟨x :: γ, t :: u, es⟩ ⟨γ, u, es ++ [.inr t]⟩
  /-- A nonterminal on top is replaced by what the table gives. -/
  | replace {A : σ} {γ δ : List σ} {u : List τ} {es : List (σ ⊕ τ)} (hA : T.kind A = .nonterminal)
      (hnext : T.next A (u.head?.map T.code) = some δ) (hroom : Room d δ γ) :
      Step ⟨A :: γ, u, es⟩ ⟨δ ++ γ, u, es⟩

/-- `Parses γ u v es`: with the symbols `γ` on the stack and nothing below, the parser executes and
matches `es` and comes from the input `u` to the input `v`. -/
inductive Parses : List σ → List τ → List τ → List (σ ⊕ τ) → Prop
  /-- Nothing is on the stack, and no token is taken. -/
  | nil (u : List τ) : Parses [] u u []
  /-- An action on top is executed before the others. -/
  | action {a : σ} {γ : List σ} {u v : List τ} {es : List (σ ⊕ τ)} (ha : T.kind a = .action)
      (h : Parses γ u v es) : Parses (a :: γ) u v (.inl a :: es)
  /-- A terminal on top is matched before the others. -/
  | terminal {x : σ} {γ : List σ} {t : τ} {u v : List τ} {es : List (σ ⊕ τ)}
      (hx : T.kind x = .terminal (T.code t)) (h : Parses γ u v es) :
      Parses (x :: γ) (t :: u) v (.inr t :: es)
  /-- A nonterminal on top is replaced, and then parsed. -/
  | replace {A : σ} {γ δ : List σ} {u v : List τ} {es : List (σ ⊕ τ)} (hA : T.kind A = .nonterminal)
      (hnext : T.next A (u.head?.map T.code) = some δ) (hroom : Room d δ γ)
      (h : Parses (δ ++ γ) u v es) : Parses (A :: γ) u v es

variable {T d} {γ δ : List σ} {u v : List τ} {es : List (σ ⊕ τ)} {x : σ}

/-- With more symbols below there is less room. -/
lemma room_append_iff {α β : List σ} : Room d α (β ++ δ) ↔ Room (d - δ.length) α β := by
  unfold Room
  rcases α with _ | ⟨a, α⟩
  · simp
  · simp only [reduceCtorEq, false_or, List.length_append, List.length_cons]
    omega

/-! ## The symbol on top -/

/-- With an empty stack the run ends where it is, and nothing has been recorded. -/
@[simp] lemma parses_nil_iff : Parses T d [] u v es ↔ u = v ∧ es = [] := by
  constructor
  · rintro ⟨⟩
    exact ⟨rfl, rfl⟩
  · rintro ⟨rfl, rfl⟩
    exact .nil u

/-- An action on top of the stack is recorded, and the run goes on below it. -/
lemma parses_action_iff (hx : T.kind x = .action) :
    Parses T d (x :: γ) u v es ↔ ∃ fs, es = .inl x :: fs ∧ Parses T d γ u v fs := by
  constructor
  · intro h
    cases h with
    | action _ h => exact ⟨_, rfl, h⟩
    | terminal hx' => exact absurd (hx.symm.trans hx') (by simp)
    | replace hx' => exact absurd (hx.symm.trans hx') (by simp)
  · rintro ⟨fs, rfl, h⟩
    exact .action hx h

/-- A terminal on top of the stack matches the next token, and the run goes on behind it. -/
lemma parses_terminal_iff {c : κ} (hx : T.kind x = .terminal c) : Parses T d (x :: γ) u v es ↔
    ∃ t w fs, u = t :: w ∧ T.code t = c ∧ es = .inr t :: fs ∧ Parses T d γ w v fs := by
  constructor
  · intro h
    cases h with
    | action hx' => exact absurd (hx.symm.trans hx') (by simp)
    | @terminal _ _ t _ _ _ hx' h =>
      have hc : Kind.terminal c = .terminal (T.code t) := hx.symm.trans hx'
      exact ⟨_, _, _, rfl, (Kind.terminal.inj hc).symm, rfl, h⟩
    | replace hx' => exact absurd (hx.symm.trans hx') (by simp)
  · rintro ⟨t, w, fs, rfl, rfl, rfl, h⟩
    exact .terminal hx h

/-- A nonterminal on top of the stack is replaced by the right-hand side that the table has for the
next token, if there is room for it. -/
lemma parses_replace_iff (hx : T.kind x = .nonterminal) : Parses T d (x :: γ) u v es ↔
    ∃ δ, T.next x (u.head?.map T.code) = some δ ∧ Room d δ γ ∧ Parses T d (δ ++ γ) u v es := by
  constructor
  · intro h
    cases h with
    | action hx' => exact absurd (hx.symm.trans hx') (by simp)
    | terminal hx' => exact absurd (hx.symm.trans hx') (by simp)
    | replace _ hnext hroom h => exact ⟨_, hnext, hroom, h⟩
  · rintro ⟨δ, hnext, hroom, h⟩
    exact .replace hx hnext hroom h

/-! ## One list of symbols after another -/

/-- A run for the upper symbols, which has less room, and one for those below. -/
lemma Parses.append {m : List τ} {fs : List (σ ⊕ τ)} (h : Parses T (d - δ.length) γ u m es)
    (h' : Parses T d δ m v fs) : Parses T d (γ ++ δ) u v (es ++ fs) := by
  induction h with
  | nil => exact h'
  | action ha _ ih => exact .action ha (ih h')
  | terminal hx _ ih => exact .terminal hx (ih h')
  | replace hA hnext hroom _ ih =>
    have h := ih h'
    rw [List.append_assoc] at h
    exact .replace hA hnext (room_append_iff.mpr hroom) h

/-- A run for two lists of symbols is a run for the upper one and then one for the lower one. -/
lemma Parses.split (h : Parses T d (γ ++ δ) u v es) :
    ∃ m es₁ es₂, Parses T (d - δ.length) γ u m es₁ ∧ Parses T d δ m v es₂ ∧ es = es₁ ++ es₂ := by
  generalize hstack : γ ++ δ = stack at h
  induction h generalizing γ with
  | nil u =>
    obtain ⟨rfl, rfl⟩ := List.append_eq_nil_iff.mp hstack
    exact ⟨u, [], [], .nil u, .nil u, rfl⟩
  | @action a γ' u v es ha h ih =>
    rcases List.append_eq_cons_iff.mp hstack with ⟨rfl, hδ⟩ | ⟨β, rfl, hβ⟩
    · exact ⟨u, [], _, .nil u, hδ ▸ .action ha h, rfl⟩
    · obtain ⟨m, es₁, es₂, h₁, h₂, rfl⟩ := ih hβ.symm
      exact ⟨m, _, es₂, .action ha h₁, h₂, rfl⟩
  | @terminal y γ' t u v es hy h ih =>
    rcases List.append_eq_cons_iff.mp hstack with ⟨rfl, hδ⟩ | ⟨β, rfl, hβ⟩
    · exact ⟨t :: u, [], _, .nil _, hδ ▸ .terminal hy h, rfl⟩
    · obtain ⟨m, es₁, es₂, h₁, h₂, rfl⟩ := ih hβ.symm
      exact ⟨m, _, es₂, .terminal hy h₁, h₂, rfl⟩
  | @replace A γ' α u v es hA hnext hroom h ih =>
    rcases List.append_eq_cons_iff.mp hstack with ⟨rfl, hδ⟩ | ⟨β, rfl, rfl⟩
    · exact ⟨u, [], _, .nil u, hδ ▸ .replace hA hnext hroom h, rfl⟩
    · obtain ⟨m, es₁, es₂, h₁, h₂, rfl⟩ := ih (List.append_assoc α β δ)
      exact ⟨m, es₁, es₂, .replace hA hnext (room_append_iff.mp hroom) h₁, h₂, rfl⟩

/-- The run for two lists of symbols is the run for the upper one, which has less room, and then the
run for the lower one. -/
theorem parses_append_iff : Parses T d (γ ++ δ) u v es ↔
    ∃ m es₁ es₂, Parses T (d - δ.length) γ u m es₁ ∧ Parses T d δ m v es₂ ∧ es = es₁ ++ es₂ := by
  constructor
  · exact Parses.split
  · rintro ⟨m, es₁, es₂, h₁, h₂, rfl⟩
    exact h₁.append h₂

/-- The run for a symbol and those below it is a run for the symbol and then a run for the
others. -/
lemma parses_cons_iff : Parses T d (x :: γ) u v es ↔ ∃ m es₁ es₂, Parses T (d - γ.length)
    [x] u m es₁ ∧ Parses T d γ m v es₂ ∧ es = es₁ ++ es₂ := parses_append_iff (γ := [x])

/-- The run for a nonterminal alone is the run for the right-hand side that the table chooses. -/
lemma parses_single_iff (hx : T.kind x = .nonterminal) : Parses T d [x] u v es ↔
    ∃ δ, T.next x (u.head?.map T.code) = some δ ∧ δ.length ≤ d ∧ Parses T d δ u v es := by
  rw [parses_replace_iff hx]
  refine exists_congr fun δ => and_congr_right fun _ => ?_
  rw [List.append_nil]
  refine and_congr_left fun _ => ?_
  unfold Room
  rw [List.append_nil]
  rcases δ with _ | ⟨a, δ⟩ <;> simp

/-! ## The parser -/

/-- A run can be followed by the moves of the parser until the stack is empty. -/
lemma Parses.reaches (h : Parses T d γ u v es) (fs : List (σ ⊕ τ)) :
    Relation.ReflTransGen (Step T d) ⟨γ, u, fs⟩ ⟨[], v, fs ++ es⟩ := by
  induction h generalizing fs with
  | nil => rw [List.append_nil]
  | @action a _ _ _ _ ha _ ih =>
    have h := ih (fs ++ [.inl a])
    rw [List.append_assoc] at h
    exact .head (.action ha) h
  | @terminal _ _ t _ _ _ hx _ ih =>
    have h := ih (fs ++ [.inr t])
    rw [List.append_assoc] at h
    exact .head (.terminal hx) h
  | replace hA hnext hroom _ ih => exact .head (.replace hA hnext hroom) (ih fs)

/-- The moves that empty the stack are exactly those of a run, and record the same. -/
theorem reaches_iff {fs : List (σ ⊕ τ)} : Relation.ReflTransGen (Step T d) ⟨γ, u, fs⟩ ⟨[], v, es⟩ ↔
    ∃ gs, Parses T d γ u v gs ∧ es = fs ++ gs := by
  constructor
  · intro h
    generalize hs : (⟨γ, u, fs⟩ : Config σ τ) = s at h
    induction h using Relation.ReflTransGen.head_induction_on generalizing γ u fs with
    | refl =>
      cases hs
      exact ⟨[], .nil _, (List.append_nil _).symm⟩
    | head hstep _ ih =>
      cases hstep with
      | action ha =>
        cases hs
        obtain ⟨gs, h, rfl⟩ := ih rfl
        exact ⟨_, .action ha h, by simp⟩
      | terminal hx =>
        cases hs
        obtain ⟨gs, h, rfl⟩ := ih rfl
        exact ⟨_, .terminal hx h, by simp⟩
      | replace hA hnext hroom =>
        cases hs
        obtain ⟨gs, h, rfl⟩ := ih rfl
        exact ⟨gs, .replace hA hnext hroom h, rfl⟩
  · rintro ⟨gs, h, rfl⟩
    exact h.reaches fs

end Predictive
