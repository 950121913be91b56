import Mathlib

/-!
# Lines and groups of lines

`lines` splits a text at a separator; the last line need not be ended by one.  `groups` puts each
line that is not empty together with the lines behind it that continue it, and skips the empty lines
in front of a group.  Whether a line continues the one before it is a parameter, so that two
readings of a text can be compared.

`weight_joined` measures groups by the text that they stand for: two readings with the same texts
have lines of the same weight.
-/

namespace Lines

variable {α : Type*}

/-- The lines of a text, without their separators; a last line need not have one. -/
def lines [DecidableEq α] (sep : α) : List α → List (List α)
  | [] => []
  | x :: w =>
    if x = sep then [] :: lines sep w
    else
      match lines sep w with
      | [] => [[x]]
      | l :: ls => (x :: l) :: ls

/-- What is left of a text behind the separator of its first line. -/
def dropLine [DecidableEq α] (sep : α) (t : List α) : List α := (t.dropWhile (· ≠ sep)).tail

/-- Each line that is not empty with those behind it that continue it. -/
def groups (cont : List α → Bool) : List (List α) → List (List (List α))
  | [] => []
  | l :: ls =>
    if l.isEmpty then groups cont ls else
      (l :: ls.takeWhile cont) :: groups cont (ls.dropWhile cont)
termination_by ls => ls.length
decreasing_by
  · exact Nat.lt_succ_self _
  · exact Nat.lt_succ_of_le (List.length_dropWhile_le _ _)

/-- The text of a group of lines, with separators between the lines but not at the end. -/
def joined (sep : α) (g : List (List α)) : List α := [sep].intercalate g

/-- The length of some lines together, when each has its separator. -/
def weight (ls : List (List α)) : ℕ := (ls.map fun l => l.length + 1).sum

/-! ## Lines -/

section Lines

variable [DecidableEq α] {sep : α} {t l : List α} {ls : List (List α)}

/-- A text has no lines exactly if it is empty. -/
lemma lines_eq_nil : lines sep t = [] ↔ t = [] := by
  constructor
  · intro h
    rcases t with - | ⟨x, w⟩
    · rfl
    · unfold lines at h
      split at h
      · cases h
      · split at h <;> cases h
  · rintro rfl
    rfl

/-- A separator in front of a text adds an empty line in front of its lines. -/
lemma lines_sep (w : List α) : lines sep (sep :: w) = [] :: lines sep w := by
  rw [lines, if_pos rfl]

/-- The lines of a nonempty text are what stands in front of the first separator and the lines
behind it. -/
lemma lines_of_ne_nil (h : t ≠ []) :
    lines sep t = t.takeWhile (· ≠ sep) :: lines sep (dropLine sep t) := by
  induction t with
  | nil => exact absurd rfl h
  | cons x w ih =>
    by_cases hx : x = sep
    · subst hx
      have hdrop : dropLine x (x :: w) = w := by simp [dropLine]
      rw [lines_sep, hdrop, List.takeWhile_cons_of_neg (by simp)]
    · have hdrop : dropLine sep (x :: w) = dropLine sep w := by simp [dropLine, hx]
      rw [hdrop, List.takeWhile_cons_of_pos (by simpa using hx), lines, if_neg hx]
      by_cases hw : w = []
      · subst hw
        rfl
      · rw [ih hw]

/-- The first line of a text is what stands in front of the separator, and the others are the lines
behind it. -/
lemma lines_eq_cons (h : lines sep t = l :: ls) :
    t ≠ [] ∧ l = t.takeWhile (· ≠ sep) ∧ lines sep (dropLine sep t) = ls := by
  have hne : t ≠ [] := fun hnil => by
    rw [hnil] at h
    cases h
  rw [lines_of_ne_nil hne] at h
  obtain ⟨rfl, rfl⟩ := List.cons.inj h
  exact ⟨hne, rfl, rfl⟩

/-- A text has at most as many lines as characters. -/
lemma length_lines_le (sep : α) (t : List α) : (lines sep t).length ≤ t.length := by
  induction t with
  | nil => exact Nat.le_refl _
  | cons x w ih =>
    rw [lines, List.length_cons]
    split
    · exact Nat.succ_le_succ ih
    · split
      · exact Nat.succ_le_succ (Nat.zero_le _)
      · next l ls heq =>
        rw [heq] at ih
        exact Nat.le_succ_of_le ih

end Lines

/-! ## Groups -/

section Groups

variable {cont cont' : List α → Bool} {sep : α} {l : List α} {ls ls' : List (List α)}
  {g : List (List α)}

/-- An empty line in front is skipped and does not begin a group. -/
lemma groups_nil_cons : groups cont ([] :: ls) = groups cont ls := by
  rw [groups]
  simp

/-- A line that is not empty begins a group with the lines that continue it. -/
lemma groups_cons (h : l ≠ []) :
    groups cont (l :: ls) = (l :: ls.takeWhile cont) :: groups cont (ls.dropWhile cont) := by
  rw [groups]
  simp [h]

/-- Empty lines in front of a text do not change its groups. -/
lemma groups_append (h : ∀ l ∈ ls, l = []) : groups cont (ls ++ ls') = groups cont ls' := by
  induction ls with
  | nil => rfl
  | cons l ls ih =>
    obtain rfl := h l List.mem_cons_self
    rw [List.cons_append, groups_nil_cons, ih fun l hl => h l (List.mem_cons_of_mem _ hl)]

/-- A group begins with a line that is not empty, and the others continue it. -/
lemma exists_of_mem_groups (h : g ∈ groups cont ls) :
    ∃ l cs, g = l :: cs ∧ l ≠ [] ∧ l ∈ ls ∧ ∀ c ∈ cs, c ∈ ls ∧ cont c = true := by
  induction ls using groups.induct cont with
  | case1 => simp [groups] at h
  | case2 l ls hnil ih =>
    obtain rfl := List.isEmpty_iff.mp hnil
    rw [groups_nil_cons] at h
    obtain ⟨l', cs, hg, hne, hmem, hcs⟩ := ih h
    exact ⟨l', cs, hg, hne, List.mem_cons_of_mem _ hmem, fun c hc =>
      ⟨List.mem_cons_of_mem _ (hcs c hc).1, (hcs c hc).2⟩⟩
  | case3 l ls hnil ih =>
    have hne : l ≠ [] := fun he => hnil (List.isEmpty_iff.mpr he)
    rw [groups_cons hne] at h
    rcases List.mem_cons.mp h with rfl | h
    · refine ⟨l, _, rfl, hne, List.mem_cons_self, fun c hc => ⟨?_, List.mem_takeWhile_imp hc⟩⟩
      exact List.mem_cons_of_mem _ ((List.takeWhile_prefix _).subset hc)
    · obtain ⟨l', cs, hg, hne', hmem, hcs⟩ := ih h
      have hsub : ls.dropWhile cont ⊆ ls := (List.dropWhile_suffix _).subset
      exact ⟨l', cs, hg, hne', List.mem_cons_of_mem _ (hsub hmem),
        fun c hc => ⟨List.mem_cons_of_mem _ (hsub (hcs c hc).1), (hcs c hc).2⟩⟩

/-- Readings that agree on the lines end a group at the same line. -/
private lemma takeWhile_dropWhile_congr (h : ∀ l ∈ ls, cont l = cont' l) :
    ls.takeWhile cont = ls.takeWhile cont' ∧ ls.dropWhile cont = ls.dropWhile cont' := by
  induction ls with
  | nil => exact ⟨rfl, rfl⟩
  | cons l ls ih =>
    obtain ⟨htake, hdrop⟩ := ih fun l hl => h l (List.mem_cons_of_mem _ hl)
    have hl := h l List.mem_cons_self
    rw [List.takeWhile_cons, List.takeWhile_cons, List.dropWhile_cons, List.dropWhile_cons, ← hl,
      htake, hdrop]
    exact ⟨rfl, rfl⟩

/-- Two tests that agree on which lines continue a group lead to the same groups. -/
lemma groups_congr (h : ∀ l ∈ ls, cont l = cont' l) : groups cont ls = groups cont' ls := by
  induction ls using groups.induct cont with
  | case1 => simp [groups]
  | case2 l ls hnil ih =>
    obtain rfl := List.isEmpty_iff.mp hnil
    rw [groups_nil_cons, groups_nil_cons, ih fun l hl => h l (List.mem_cons_of_mem _ hl)]
  | case3 l ls hnil ih =>
    have hne : l ≠ [] := fun he => hnil (List.isEmpty_iff.mpr he)
    have htail : ∀ c ∈ ls, cont c = cont' c := fun c hc => h c (List.mem_cons_of_mem _ hc)
    obtain ⟨htake, hdrop⟩ := takeWhile_dropWhile_congr htail
    rw [groups_cons hne, groups_cons hne, ← htake, ← hdrop,
      ih fun c hc => htail c ((List.dropWhile_suffix _).subset hc)]

/-- When an empty line continues none, the groups consist of the lines that are not empty. -/
lemma groups_flatten_filter (h : cont [] = false) :
    (groups cont ls).flatten = ls.filter (· ≠ []) := by
  induction ls using groups.induct cont with
  | case1 => simp [groups]
  | case2 l ls hnil ih =>
    obtain rfl := List.isEmpty_iff.mp hnil
    rw [groups_nil_cons, ih]
    simp
  | case3 l ls hnil ih =>
    have hne : l ≠ [] := fun he => hnil (List.isEmpty_iff.mpr he)
    have hcont : (ls.takeWhile cont).filter (· ≠ []) = ls.takeWhile cont := by
      refine List.filter_eq_self.mpr fun c hc => decide_eq_true ?_
      rintro rfl
      exact absurd (List.mem_takeWhile_imp hc) (by simp [h])
    have hsplit :
        ls.filter (· ≠ []) = ls.takeWhile cont ++ (ls.dropWhile cont).filter (· ≠ []) := by
      conv_lhs => rw [← List.takeWhile_append_dropWhile (p := cont) (l := ls)]
      rw [List.filter_append, hcont]
    rw [groups_cons hne, List.flatten_cons, ih, List.filter_cons_of_pos (by simpa using hne),
      hsplit, List.cons_append]

/-- When an empty line continues every other one, the groups consist of all lines from the first one
that is not empty. -/
lemma groups_flatten (h : cont [] = true) (hhead : ls.head? ≠ some []) :
    (groups cont ls).flatten = ls := by
  induction ls using groups.induct cont with
  | case1 => simp [groups]
  | case2 l ls hnil ih => exact absurd (congrArg some (List.isEmpty_iff.mp hnil)) hhead
  | case3 l ls hnil ih =>
    have hne : l ≠ [] := fun he => hnil (List.isEmpty_iff.mpr he)
    have hnext : (ls.dropWhile cont).head? ≠ some [] := fun he => by
      have hnot := List.head?_dropWhile_not cont ls
      rw [he] at hnot
      exact absurd h (by simpa using hnot)
    rw [groups_cons hne, List.flatten_cons, ih hnext, List.cons_append,
      List.takeWhile_append_dropWhile]

/-! ## The text of a group -/

/-- The text of a group is its first line followed by the others, each with a separator in front. -/
lemma joined_cons (sep : α) (l : List α) (cs : List (List α)) :
    joined sep (l :: cs) = l ++ cs.flatMap (sep :: ·) := by
  unfold joined
  induction cs generalizing l with
  | nil => rw [List.intercalate_singleton, List.flatMap_nil, List.append_nil]
  | cons c cs ih =>
    rw [List.intercalate_cons_cons, ih, List.flatMap_cons, List.append_assoc]
    rfl

/-- The weight of two parts of a text is the sum of their weights. -/
lemma weight_append (ls ls' : List (List α)) : weight (ls ++ ls') = weight ls + weight ls' := by
  unfold weight
  rw [List.map_append, List.sum_append]

/-- The weight of some lines is that of the first one, with its separator, and of the others. -/
lemma weight_cons (l : List α) (ls : List (List α)) :
    weight (l :: ls) = l.length + 1 + weight ls := by
  unfold weight
  rw [List.map_cons, List.sum_cons]

/-- A group of lines weighs as much as its text with one separator more. -/
lemma length_joined (h : g ≠ []) : (joined sep g).length + 1 = weight g := by
  rcases g with - | ⟨l, cs⟩
  · exact absurd rfl h
  · rw [joined_cons, List.length_append, weight_cons]
    have hrest : (cs.flatMap (sep :: ·)).length = weight cs := by
      induction cs with
      | nil => rfl
      | cons c cs ih =>
        rw [List.flatMap_cons, List.length_append, weight_cons, ih (List.cons_ne_nil _ _),
          List.length_cons]
    omega

/-- Groups of lines weigh as much as the texts that they are joined to. -/
lemma weight_joined {gs : List (List (List α))} (h : ∀ g ∈ gs, g ≠ []) :
    weight (gs.map (joined sep)) = weight gs.flatten := by
  induction gs with
  | nil => rfl
  | cons g gs ih =>
    rw [List.map_cons, weight_cons, List.flatten_cons, weight_append, ih fun g hg =>
      h g (List.mem_cons_of_mem _ hg),
      length_joined (h g List.mem_cons_self)]

/-- Leaving out the empty lines loses one character for each of them. -/
lemma weight_filter (ls : List (List α)) :
    weight ls = weight (ls.filter (· ≠ [])) + ls.countP (·.isEmpty) := by
  induction ls with
  | nil => rfl
  | cons l ls ih =>
    by_cases hl : l = []
    · subst hl
      rw [weight_cons, List.filter_cons_of_neg (by simp), List.countP_cons_of_pos rfl, ih,
        List.length_nil]
      omega
    · rw [weight_cons, List.filter_cons_of_pos (by simpa using hl), weight_cons,
        List.countP_cons_of_neg (by simpa using hl), ih]
      omega

/-- When two readings of lines without an empty line in front give the same texts, one in which an
empty line continues every other one and one in which it continues none, there are no empty
lines. -/
lemma nil_notMem_of_joined (h : cont [] = true) (h' : cont' [] = false) (hhead : ls.head? ≠ some [])
    (hsame : (groups cont ls).map (joined sep) = (groups cont' ls).map (joined sep)) : [] ∉ ls := by
  have hne : ∀ {c : List α → Bool}, ∀ g ∈ groups c ls, g ≠ [] := fun g hg => by
    obtain ⟨l, cs, rfl, -⟩ := exists_of_mem_groups hg
    exact List.cons_ne_nil l cs
  have hweight := congrArg weight hsame
  rw [weight_joined hne, weight_joined hne, groups_flatten h hhead, groups_flatten_filter h',
    weight_filter] at hweight
  have hcount : ls.countP (·.isEmpty) = 0 := by omega
  exact fun hmem => List.countP_eq_zero.mp hcount [] hmem rfl

end Groups

end Lines
