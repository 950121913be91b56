import Cgkits.Lex.Regex

/-!
# The parser follows the grammar

On a text that can be derived the parser builds a piece with the language of the derived expression
(`Derives.builds`), unless there is no room for it.  The loops of the parser do one step for each
part of the derivation, so that the proof is by induction on the derivation.  The characters of a
class are those that `dodash` adds to its set.
-/

namespace Lex

open Labelled Computability

variable {ι : Type} {L : Lexer ι} {unix : Bool}

/-! ## Character classes -/

/-- The members of a class after a range has been added. -/
lemma mem_addRange {set : CharClass} {first last x : ℤ} :
    x ∈ (set.addRange first last).map ↔ x ∈ set.map ∨ first ≤ x ∧ x ≤ last := by
  have hfold : ∀ (l : List ℕ) (set : CharClass),
      x ∈ (l.foldl (fun set k => set.add (first + (k : ℕ))) set).map ↔ x ∈ set.map ∨
      ∃ k ∈ l, x = first + (k : ℕ) := by
    intro l
    induction l with
    | nil => simp
    | cons k l ih =>
      intro set
      rw [List.foldl_cons, ih]
      simp only [CharClass.add, Finset.mem_insert, List.mem_cons, exists_eq_or_imp]
      exact iff_of_eq (by ac_rfl)
  rw [CharClass.addRange, hfold]
  refine or_congr_right ?_
  constructor
  · rintro ⟨k, hk, rfl⟩
    rw [List.mem_range] at hk
    omega
  · rintro ⟨hle, hle'⟩
    exact ⟨(x - first).toNat, by rw [List.mem_range]; omega, by omega⟩

/-- Adding a range to a class does not change its complement flag. -/
lemma compl_addRange (set : CharClass) (first last : ℤ) :
    (set.addRange first last).compl = set.compl := by
  unfold CharClass.addRange
  generalize List.range (last + 1 - first).toNat = l
  induction l generalizing set with
  | nil => rfl
  | cons k l ih => exact ih (set.add (first + (k : ℕ)))

/-- The class has the same complement flag, and the members given by `P` besides those it had. -/
def CharClass.Gets (set set' : CharClass) (P : ℤ → Prop) : Prop :=
  set'.compl = set.compl ∧ ∀ x, x ∈ set'.map ↔ x ∈ set.map ∨ P x

/-- The loop of `dodash` reads the ranges behind a character `c`.  The variable `first` has passed
those characters from `c` on that have been added. -/
lemma dodashLoop_ends {s s' : ι} {ends : List ℤ} (h : DerivesEnds L s ends s') (c first : ℤ)
    (set : CharClass) (hle : c ≤ first) (hset : ∀ x, c ≤ x → x < first → x ∈ set.map) :
    ∃ first' set', set.Gets set' (fun x => ∃ e ∈ ends, c ≤ x ∧ x ≤ e) ∧
      ∀ n, dodashLoop L (n + ends.length) first set s = dodashLoop L n first' set' s' := by
  induction h generalizing first set with
  | nil => exact ⟨first, set, ⟨rfl, by simp⟩, fun n => rfl⟩
  | @cons s s₁ s₂ s₃ ends hdash hccl heos hadv _ ih =>
    have hcover : ∀ x, x ∈ (set.addRange first (L.lexeme s₁)).map ↔ x ∈ set.map ∨ c ≤ x ∧
        x ≤ L.lexeme s₁ := by
      intro x
      rw [mem_addRange]
      constructor
      · rintro (hx | hx)
        · exact Or.inl hx
        · exact Or.inr ⟨by omega, hx.2⟩
      · rintro (hx | hx)
        · exact Or.inl hx
        · by_cases hlt : x < first
          · exact Or.inl (hset x hx.1 hlt)
          · exact Or.inr ⟨by omega, hx.2⟩
    obtain ⟨first', set', ⟨hcompl, hmem⟩, hrun⟩ :=
      @ih (max first (L.lexeme s₁ + 1)) (set.addRange first (L.lexeme s₁)) (by omega) (by
        intro x hcx hx
        rw [hcover]
        by_cases hlt : x < first
        · exact Or.inl (hset x hcx hlt)
        · exact Or.inr ⟨hcx, by omega⟩)
    refine ⟨first', set', ⟨hcompl.trans (compl_addRange _ _ _), ?_⟩, ?_⟩
    · intro x
      rw [hmem, hcover]
      simp only [List.mem_cons, exists_eq_or_imp, or_assoc]
    · intro n
      rw [← hrun n, List.length_cons, ← Nat.add_assoc, dodashLoop, hdash.1, if_neg (by simp),
        if_neg (by simp), hdash.2, ok_bind, if_neg hccl, hadv, ok_bind]

/-- The loop of `dodash` reads the parts of a class and adds their characters. -/
lemma dodashLoop_items {s s' : ι} {items : List ClassItem} (h : DerivesItems L s items s')
    (first : ℤ) (set : CharClass) :
    ∃ N set', set.Gets set' (fun x => ∃ item ∈ items, item.Has x) ∧
      ∀ n ≥ N, dodashLoop L n first set s = .ok (set', s') := by
  induction h generalizing first set with
  | nil hccl =>
    refine ⟨1, set, ⟨rfl, by simp⟩, ?_⟩
    intro n hn
    obtain ⟨n, rfl⟩ := Nat.exists_eq_add_of_le' hn
    rw [dodashLoop, if_pos (Or.inr hccl)]
  | @cons s s₁ s₂ s₃ ends items heos hccl hdash hadv hends _ ih =>
    obtain ⟨first₁, set₁, ⟨hcompl₁, hmem₁⟩, hrun₁⟩ :=
      dodashLoop_ends hends (L.lexeme s) (L.lexeme s)
      (set.add (L.lexeme s)) le_rfl (by
        intro x hle hlt
        omega)
    obtain ⟨N, set₂, ⟨hcompl₂, hmem₂⟩, hrun₂⟩ := ih first₁ set₁
    refine ⟨N + ends.length + 1, set₂, ⟨hcompl₂.trans hcompl₁, ?_⟩, ?_⟩
    · intro x
      rw [hmem₂, hmem₁]
      simp only [CharClass.add, Finset.mem_insert, List.mem_cons, exists_eq_or_imp, ClassItem.Has]
      exact iff_of_eq (by ac_rfl)
    · intro n hn
      obtain ⟨k, rfl⟩ : ∃ k, n = k + ends.length + 1 := ⟨n - ends.length - 1, by omega⟩
      have hstop : ¬ (L.tok s = .eos ∨ L.tok s = .cclEnd) := not_or.mpr ⟨heos, hccl⟩
      rw [dodashLoop, if_neg hstop, if_pos hdash, hadv, ok_bind, hrun₁, hrun₂ k (by omega)]

/-- What a class begins with is not the token of a dash. -/
lemma DerivesItems.tok_ne_dash {s s' : ι} {items : List ClassItem} (h : DerivesItems L s items s') :
    L.tok s ≠ .dash := by
  rcases h with hccl | ⟨-, -, hdash, -⟩
  · rw [hccl]
    decide
  · exact hdash

/-- The set of the end-of-line characters is complemented. -/
lemma compl_notNewline : (notNewline unix).compl = true := rfl

/-- A class with the members `P`, and with the end-of-line characters if it is complemented, tests
for `classChars`. -/
lemma test_iff {set : CharClass} {neg : Bool} {P : ℤ → Prop} (hcompl : set.compl = neg)
    (hmem : ∀ x, x ∈ set.map ↔ (neg = true ∧ x ∈ newline unix) ∨ P x) (x : Fin maxChars) :
    set.test (x : ℕ) = true ↔ x ∈ classChars unix neg P := by
  have hmem' := hmem (x : ℕ)
  change _ ↔ if neg then ((x : ℕ) : ℤ) ∉ newline unix ∧ ¬ P (x : ℕ) else P (x : ℕ)
  unfold CharClass.test
  rw [hcompl]
  cases neg with
  | true =>
    simp only [true_and, Bool.not_true] at hmem' ⊢
    split
    · rename_i hx
      simp only [Bool.false_eq_true, if_true, false_iff]
      rintro ⟨hnl, hP⟩
      exact (hmem'.mp hx).elim hnl hP
    · rename_i hx
      rw [hmem', not_or] at hx
      simpa using hx
  | false =>
    simp only [Bool.false_eq_true, false_and, false_or, Bool.not_false, if_false] at hmem' ⊢
    split <;> simp_all

/-- The class read by `charClass` is the one of the term. -/
def ClassOk (L : Lexer ι) (unix : Bool) (s s' : ι) (C : Set (Fin maxChars)) : Prop :=
  ∃ N, ∀ n ≥ N, ∃ set, charClass L unix n s = .ok (set, s') ∧ ∀ x :
    Fin maxChars, set.test (x : ℕ) = true ↔ x ∈ C

/-- A dot is read as the class of all characters but the end of a line. -/
lemma classOk_any {s : ι} (h : L.tok s = .any) :
    ClassOk L unix s s (classChars unix true fun _ => False) := by
  refine ⟨0, fun n _ => ⟨notNewline unix, ?_, fun x => ?_⟩⟩
  · rw [charClass, if_pos h]
  · exact test_iff compl_notNewline (by simp [newline]) x

/-- `[...]` is read as the class of the characters of its parts. -/
lemma classOk_cls {s s₁ s₂ : ι} {items : List ClassItem} (hstart : Reads L .cclStart s s₁)
    (hbol : L.tok s₁ ≠ .atBol) (hend : L.tok s₁ ≠ .cclEnd) (hitems : DerivesItems L s₁ items s₂) :
    ClassOk L unix s s₂ (classChars unix false fun x => ∃ item ∈ items, item.Has x) := by
  obtain ⟨N, set, ⟨hcompl, hmem⟩, hrun⟩ := dodashLoop_items hitems 0 ⟨∅, false⟩
  refine ⟨N, fun n hn => ⟨set, ?_, fun x => ?_⟩⟩
  · rw [charClass, hstart.1, if_neg (by decide), hstart.2, ok_bind, if_neg hbol, if_pos hend,
      dodash, if_neg hitems.tok_ne_dash, hrun n hn]
  · refine test_iff hcompl (fun x => ?_) x
    rw [hmem]
    simp

/-- `[^...]` is read as the complement of the characters of its parts. -/
lemma classOk_clsNeg {s s₁ s₂ s₃ : ι} {items : List ClassItem} (hstart : Reads L .cclStart s s₁)
    (hbol : Reads L .atBol s₁ s₂) (hend : L.tok s₂ ≠ .cclEnd)
    (hitems : DerivesItems L s₂ items s₃) :
    ClassOk L unix s s₃ (classChars unix true fun x => ∃ item ∈ items, item.Has x) := by
  obtain ⟨N, set, ⟨hcompl, hmem⟩, hrun⟩ := dodashLoop_items hitems 0 (notNewline unix)
  refine ⟨N, fun n hn => ⟨set, ?_, fun x => ?_⟩⟩
  · rw [charClass, hstart.1, if_neg (by decide), hstart.2, ok_bind, if_pos hbol.1, hbol.2, ok_bind,
      if_pos hend, dodash, if_neg hitems.tok_ne_dash, hrun n hn]
  · refine test_iff (hcompl.trans compl_notNewline) (fun x => ?_) x
    rw [hmem]
    simp [newline]

/-- `[]` is read as the class of all the codes up to that of a blank. -/
lemma classOk_blank {s s₁ : ι} (hstart : Reads L .cclStart s s₁) (hend : L.tok s₁ = .cclEnd) :
    ClassOk L unix s s₁ (classChars unix false codeBlank) := by
  refine ⟨0, fun n _ => ⟨CharClass.addRange ⟨∅, false⟩ 0 32, ?_, fun x => ?_⟩⟩
  · rw [charClass, hstart.1, if_neg (by decide), hstart.2, ok_bind, hend, if_neg (by decide),
      if_neg (by simp)]
  · refine test_iff (compl_addRange _ _ _) (fun x => ?_) x
    rw [mem_addRange]
    simp [codeBlank]

/-- `[^]` is read as the complement of all the codes up to that of a blank. -/
lemma classOk_blankNeg {s s₁ s₂ : ι} (hstart : Reads L .cclStart s s₁) (hbol : Reads L .atBol s₁ s₂)
    (hend : L.tok s₂ = .cclEnd) : ClassOk L unix s s₂ (classChars unix true codeBlank) := by
  refine ⟨0, fun n _ => ⟨(notNewline unix).addRange 0 32, ?_, fun x => ?_⟩⟩
  · rw [charClass, hstart.1, if_neg (by decide), hstart.2, ok_bind, if_pos hbol.1, hbol.2, ok_bind,
      hend, if_neg (by simp)]
  · refine test_iff ((compl_addRange _ _ _).trans compl_notNewline) (fun x => ?_) x
    rw [mem_addRange]
    simp [codeBlank, newline]

/-! ## The parser follows the grammar -/

/-- There is no room for the machine: too many states, or too many discarded states. -/
def Fault.NoStates (e : Fault) : Prop := e = .parseErr .length ∨ e = .parseErr .stack

/-- A parser has built a piece with the language `K` and stands at `s'`, unless there was no
room. -/
def BuildsTo (m₀ : States) (s' : ι) (K : Language (Fin maxChars))
    (r : Except Fault (Frag × Parse ι)) : Prop :=
  (∃ e, e.NoStates ∧ r = .error e) ∨ ∃ f m, r = .ok (f, ⟨s', m⟩) ∧ Spells m₀ m f K

section Build

variable {m₀ m m' : States} {s s' s'' : ι} {f g : Frag} {K M : Language (Fin maxChars)}

/-- A parser of a piece, and what is done with the piece. -/
lemma BuildsTo.bind {r : Except Fault (Frag × Parse ι)}
    {fn : Frag × Parse ι → Except Fault (Frag × Parse ι)} (h : BuildsTo m₀ s' K r)
    (hfn : ∀ f m, Spells m₀ m f K → BuildsTo m' s'' M (fn (f, ⟨s', m⟩))) :
    BuildsTo m' s'' M (r >>= fn) := by
  rcases h with ⟨e, he, rfl⟩ | ⟨f, m, rfl, hf⟩
  · exact Or.inl ⟨e, he, rfl⟩
  · exact hfn f m hf

/-- `advance` in the middle of the construction reads a token and leaves the states as they are. -/
lemma advance_eq (h : L.advance s = .ok s') (m : States) :
    Parse.advance L ⟨s, m⟩ = .ok ⟨s', m⟩ := by
  unfold Parse.advance
  rw [h]
  rfl

/-- `new` returns a state, or fails because there is no room. -/
lemma new_cases (m : States) : new m = .error (.parseErr .length) ∨
    ∃ p m', new m = .ok (p, m') := by
  unfold new
  split
  · exact Or.inl rfl
  · split <;> exact Or.inr ⟨_, _, rfl⟩

/-- `factor` fails to put states around a piece only when there is no room. -/
lemma closeFrag_cases (t : Token) (f : Frag) (m : States) :
    closeFrag t f m = .error (.parseErr .length) ∨ ∃ g m', closeFrag t f m = .ok (g, m') := by
  unfold closeFrag
  rcases new_cases m with h | ⟨p, m₁, h⟩
  · rw [h]
    exact Or.inl rfl
  · rw [h, ok_bind]
    dsimp only
    rcases new_cases m₁ with h | ⟨q, m₂, h⟩
    · rw [h]
      exact Or.inl rfl
    · rw [h, ok_bind]
      exact Or.inr ⟨_, _, rfl⟩

/-- A concatenation fails only when there is no room for the discarded state. -/
lemma joinFrag_cases (f g : Frag) (m : States) :
    joinFrag f g m = .error (.parseErr .stack) ∨ ∃ k m', joinFrag f g m = .ok (k, m') := by
  unfold joinFrag discard
  dsimp only
  by_cases h : ssize ≤ (m.modify f.stop fun _ => m.node g.start).stack.length
  · rw [if_pos h]
    exact Or.inl rfl
  · rw [if_neg h]
    exact Or.inr ⟨_, _, rfl⟩

/-- An alternative returns a piece, or fails because there is no room. -/
lemma orFrag_cases (f g : Frag) (m : States) :
    orFrag f g m = .error (.parseErr .length) ∨ ∃ k m', orFrag f g m = .ok (k, m') := by
  unfold orFrag
  rcases new_cases m with h | ⟨p, m₁, h⟩
  · rw [h]
    exact Or.inl rfl
  · rw [h, ok_bind]
    dsimp only
    rcases new_cases (m₁.modify p fun p => { p with next2 := some g.start, next := some f.start })
      with h | ⟨q, m₂, h⟩
    · rw [h]
      exact Or.inl rfl
    · rw [h, ok_bind]
      exact Or.inr ⟨_, _, rfl⟩

/-- The characters that a state with a character as its label reads. -/
lemma reads_char {c : ℤ} (hc : 0 ≤ c) (p : Node) (x : Fin maxChars) :
    ({ p with edge := c } : Node).reads x = true ↔ x ∈ {x : Fin maxChars | ((x : ℕ) : ℤ) = c} := by
  have hne : c ≠ ccl := by
    unfold ccl
    omega
  change decide _ = true ↔ ((x : ℕ) : ℤ) = c
  rw [decide_eq_true_iff]
  constructor
  · rintro (h | ⟨h, -⟩)
    · exact h.symm
    · exact absurd h hne
  · intro h
    exact Or.inl h.symm

/-- The characters that a state with a class as its label reads. -/
lemma reads_ccl {set : CharClass} {C : Set (Fin maxChars)}
    (hset : ∀ x : Fin maxChars, set.test (x : ℕ) = true ↔ x ∈ C) (p : Node) (x : Fin maxChars) :
    ({ p with edge := ccl, bitset := set } : Node).reads x = true ↔ x ∈ C := by
  rw [← hset]
  change decide _ = true ↔ _
  rw [decide_eq_true_iff]
  constructor
  · rintro (h | ⟨-, h⟩)
    · change ccl = _ at h
      unfold ccl at h
      omega
    · exact h
  · intro h
    exact Or.inr ⟨rfl, h⟩

/-- `term` for a character builds a piece that reads this character, or there is no room. -/
lemma buildsTo_char (hok : m.Ok) (hblank : m.Blank) (hc : (L.tok s).IsChar) (hle : 0 ≤ L.lexeme s)
    (hadv : L.advance s = .ok s') (n : ℕ) :
    BuildsTo m s' (Fragment.letters {x : Fin maxChars | ((x : ℕ) : ℤ) = L.lexeme s})
      (termChar L unix n ⟨s, m⟩) := by
  have hbuilds : ∀ P' f, termChar L unix n ⟨s, m⟩ = .ok (f, P') → Built m P'.nfa f :=
    fun P' f h => builds_termChar n ⟨s, m⟩ P' f hok h
  have htok : L.tok s ≠ .any ∧ L.tok s ≠ .cclStart := by
    rcases hc with h | h | h | h <;> rw [h] <;> decide
  rcases new_cases m with h₁ | ⟨start, m₁, h₁⟩
  · refine Or.inl ⟨_, Or.inl rfl, ?_⟩
    rw [termChar, h₁, error_bind]
  rcases new_cases m₁ with h₂ | ⟨stop, m₂, h₂⟩
  · refine Or.inl ⟨_, Or.inl rfl, ?_⟩
    rw [termChar, h₁, ok_bind]
    dsimp only
    rw [h₂, error_bind]
  have hrun : termChar L unix n ⟨s, m⟩ = .ok (⟨start, stop⟩, ⟨s', (m₂.modify start fun p =>
      { p with next := some stop }).modify start fun p => { p with edge := L.lexeme s }⟩) := by
    rw [termChar, h₁, ok_bind]
    dsimp only
    rw [h₂, ok_bind]
    dsimp only
    rw [if_pos htok, hadv, ok_bind]
  refine Or.inr ⟨_, _, hrun, spells_letters hok hblank h₁ h₂ ?_ (fun _ => rfl) (reads_char hle) ?_⟩
  · intro p
    change L.lexeme s ≠ -1
    omega
  · exact hbuilds _ _ hrun

/-- `term` for a class builds a piece that reads the characters of the class, or there is no
room. -/
lemma buildsTo_class {s₁ : ι} {C : Set (Fin maxChars)} (hok : m.Ok) (hblank : m.Blank)
    (htok : L.tok s = .any ∨ L.tok s = .cclStart) (hadv : L.advance s₁ = .ok s') {n : ℕ}
    {set : CharClass} (hclass : charClass L unix n s = .ok (set, s₁))
    (hset : ∀ x : Fin maxChars, set.test (x : ℕ) = true ↔ x ∈ C) :
    BuildsTo m s' (Fragment.letters C) (termChar L unix n ⟨s, m⟩) := by
  have hbuilds : ∀ P' f, termChar L unix n ⟨s, m⟩ = .ok (f, P') → Built m P'.nfa f :=
    fun P' f h => builds_termChar n ⟨s, m⟩ P' f hok h
  have htok' : ¬ (L.tok s ≠ .any ∧ L.tok s ≠ .cclStart) := by
    rintro ⟨h₁, h₂⟩
    exact htok.elim h₁ h₂
  rcases new_cases m with h₁ | ⟨start, m₁, h₁⟩
  · refine Or.inl ⟨_, Or.inl rfl, ?_⟩
    rw [termChar, h₁, error_bind]
  rcases new_cases m₁ with h₂ | ⟨stop, m₂, h₂⟩
  · refine Or.inl ⟨_, Or.inl rfl, ?_⟩
    rw [termChar, h₁, ok_bind]
    dsimp only
    rw [h₂, error_bind]
  have hrun : termChar L unix n ⟨s, m⟩ = .ok (⟨start, stop⟩, ⟨s', (m₂.modify start fun p =>
      { p with next := some stop }).modify start fun p =>
        { p with edge := ccl, bitset := set }⟩) := by
    rw [termChar, h₁, ok_bind]
    dsimp only
    rw [h₂, ok_bind]
    dsimp only
    rw [if_neg htok', hclass, ok_bind]
    dsimp only
    rw [hadv, ok_bind]
  refine Or.inr ⟨_, _, hrun, spells_letters hok hblank h₁ h₂ ?_ (fun _ => rfl) (reads_ccl hset) ?_⟩
  · intro p
    change ccl ≠ epsilon
    decide
  · exact hbuilds _ _ hrun

end Build

/-- The tokens that a term can start with: characters, `.`, `[` and `(`. -/
def Token.StartsTerm (t : Token) : Prop := t.IsChar ∨ t = .any ∨ t = .cclStart ∨ t = .openParen

/-- The tokens behind a term that make a closure of it. -/
def Token.IsClosure (t : Token) : Prop := t = .closrue ∨ t = .plusClose ∨ t = .optional

instance (t : Token) : Decidable t.IsClosure := inferInstanceAs (Decidable (_ ∨ _))

/-- What is known about a token that a term starts with. -/
lemma Token.StartsTerm.spec {t : Token} (h : t.StartsTerm) :
    firstInCat t = .ok true ∧ ¬ t.IsClosure ∧ t ≠ .atBol ∧ t ≠ .endOfInput := by
  rcases h with (rfl | rfl | rfl | rfl) | rfl | rfl |
    rfl <;> exact ⟨rfl, by decide, by decide, by decide⟩

/-- A token that ends a `cat_expr` does not make a closure. -/
lemma not_isClosure_of_firstInCat {t : Token} (h : firstInCat t = .ok false) : ¬ t.IsClosure := by
  rintro (rfl | rfl | rfl) <;> cases h

/-- What a derivation starts with: a term, or for the rest of a `cat_expr` or an `expr` perhaps the
token behind. -/
lemma Derives.starts {lit : ℤ → Prop} {nt : Nonterminal} {s s' : ι} {e : Regex}
    (h : Derives L lit nt s e s') : match nt with
    | .catExpr' _ => (L.tok s).StartsTerm ∨ s = s'
    | .expr' _ => L.tok s = .or ∨ s = s'
    | _ => (L.tok s).StartsTerm := by
  induction h with
  | char hc => exact Or.inl hc
  | any h => exact Or.inr (Or.inl h.1)
  | cls h => exact Or.inr (Or.inr (Or.inl h.1))
  | clsNeg h => exact Or.inr (Or.inr (Or.inl h.1))
  | blank h => exact Or.inr (Or.inr (Or.inl h.1))
  | blankNeg h => exact Or.inr (Or.inr (Or.inl h.1))
  | group h => exact Or.inr (Or.inr (Or.inr h.1))
  | factor _ ih => exact ih
  | star _ _ ih => exact ih
  | plus _ _ ih => exact ih
  | opt _ _ ih => exact ih
  | catExpr _ _ ih _ => exact ih
  | catNil => exact Or.inr rfl
  | catCons _ _ ih _ => exact Or.inl ih
  | expr _ _ ih _ => exact ih
  | exprNil => exact Or.inr rfl
  | exprCons h => exact Or.inl h.1

/-- Behind a factor stands the next one or the end of the `cat_expr`. -/
lemma Derives.not_isClosure {lit : ℤ → Prop} {s s' : ι} {e acc : Regex}
    (h : Derives L lit (.catExpr' acc) s e s') (hend : firstInCat (L.tok s') = .ok false) :
    ¬ (L.tok s).IsClosure := by
  rcases h.starts with h | rfl
  · exact h.spec.2.1
  · exact not_isClosure_of_firstInCat hend

/-- Behind a `cat_expr` stands the next one or the end of the expression. -/
lemma Derives.firstInCat_eq {lit : ℤ → Prop} {s s' : ι} {e acc : Regex}
    (h : Derives L lit (.expr' acc) s e s') (hend : firstInCat (L.tok s') = .ok false) :
    firstInCat (L.tok s) = .ok false := by
  rcases h.starts with h | rfl
  · rw [h]
    rfl
  · exact hend

/-- What the parser of a nonterminal does on a text that is derived from it, given that the token
behind can follow. The number of steps has to be large enough. -/
def Nonterminal.Builds (L : Lexer ι) (unix : Bool) (nt : Nonterminal) (s : ι) (e : Regex) (s' : ι) :
    Prop :=
  match nt with
  | .term => ∃ N, ∀ k ≥ N, ∀ n ≥ N, ∀ m : States, m.Ok → m.Blank →
      BuildsTo m s' (e.lang unix codeBlank) (Lex.term L unix (Lex.expr L unix k) n ⟨s, m⟩)
  | .factor => ¬ (L.tok s').IsClosure → ∃ N, ∀ k ≥ N, ∀ n ≥ N, ∀ m : States, m.Ok → m.Blank →
      BuildsTo m s' (e.lang unix codeBlank) (Lex.factor L unix (Lex.expr L unix k) n ⟨s, m⟩)
  | .catExpr =>
    firstInCat (L.tok s') = .ok false → ∃ N, ∀ k ≥ N, ∀ n ≥ N, ∀ m : States, m.Ok → m.Blank →
      BuildsTo m s' (e.lang unix codeBlank) (Lex.catExpr L unix (Lex.expr L unix k) n ⟨s, m⟩)
  | .catExpr' acc =>
    firstInCat (L.tok s') = .ok false → ∃ N, ∀ k ≥ N, ∀ n ≥ N, ∀ (m₀ m : States) (f : Frag),
      Spells m₀ m f (acc.lang unix codeBlank) →
      BuildsTo m₀ s' (e.lang unix codeBlank) (catLoop L unix (Lex.expr L unix k) n f ⟨s, m⟩)
  | .expr =>
    firstInCat (L.tok s') = .ok false → L.tok s' ≠ .or → ∃ N, ∀ n ≥ N, ∀ m :
      States, m.Ok → m.Blank → BuildsTo m s' (e.lang unix codeBlank) (Lex.expr L unix n ⟨s, m⟩)
  | .expr' acc => firstInCat (L.tok s') = .ok false → L.tok s' ≠ .or → ∃ N, ∀ k ≥ N, ∀ n ≥ N,
      ∀ (m₀ m : States) (f : Frag), Spells m₀ m f (acc.lang unix codeBlank) →
      BuildsTo m₀ s' (e.lang unix codeBlank) (exprLoop L unix (Lex.expr L unix k) n f ⟨s, m⟩)

/-- `term` for a class builds a piece of its language with any fuel that is large enough. -/
lemma builds_class {s s₁ s' : ι} {C : Set (Fin maxChars)}
    (htok : L.tok s = .any ∨ L.tok s = .cclStart) (hclass : ClassOk L unix s s₁ C)
    (hadv : L.advance s₁ = .ok s') : ∃ N, ∀ k ≥ N, ∀ n ≥ N, ∀ m : States, m.Ok → m.Blank →
      BuildsTo m s' (Fragment.letters C) (term L unix (expr L unix k) n ⟨s, m⟩) := by
  obtain ⟨N, hN⟩ := hclass
  refine ⟨N, fun k _ n hn m hok hblank => ?_⟩
  obtain ⟨set, hrun, hset⟩ := hN n hn
  have hparen : L.tok s ≠ .openParen := by
    rcases htok with h | h <;> rw [h] <;> decide
  rw [term, if_neg hparen]
  exact buildsTo_class hok hblank htok hadv hrun hset

/-- `factor` for a term with a closure builds a piece of the closure of its language. -/
lemma builds_closure {s s₁ s₂ : ι} {e e' : Regex} {t : Token} (ht : t.IsClosure)
    (ih : Nonterminal.Builds L unix .term s e s₁) (hread : Reads L t s₁ s₂)
    (hlang : e.lang unix codeBlank * (if t = .closrue ∨ t = .plusClose then (e.lang unix codeBlank)∗
    else 1) +
      (if t = .closrue ∨ t = .optional then 1 else 0) = e'.lang unix codeBlank) :
    Nonterminal.Builds L unix .factor s e' s₂ := by
  intro _
  have htok : t = .closrue ∨ t = .plusClose ∨ t = .optional := ht
  obtain ⟨N, hN⟩ := ih
  refine ⟨N, fun k hk n hn m hok hblank => ?_⟩
  refine (hN k hk n hn m hok hblank).bind fun f m₁ hf => ?_
  dsimp only
  rw [hread.1, if_pos htok]
  rcases closeFrag_cases t f m₁ with h | ⟨g, m₂, h⟩
  · rw [h]
    exact Or.inl ⟨_, Or.inl rfl, rfl⟩
  · rw [h, ok_bind]
    dsimp only
    rw [advance_eq hread.2, ok_bind]
    exact Or.inr ⟨g, m₂, rfl, hlang ▸ hf.closeFrag h⟩

/-- The parser follows the grammar: what is derived is built with its language, or there is no
room. -/
lemma Derives.builds (unix : Bool) {nt : Nonterminal} {s s' : ι} {e : Regex}
    (h : Derives L inChars nt s e s') : nt.Builds L unix s e s' := by
  induction h with
  | @char s s' hc hlit hadv =>
    refine ⟨0, fun k _ n _ m hok hblank => ?_⟩
    have hparen : L.tok s ≠ .openParen := by
      rcases hc with h | h | h | h <;> rw [h] <;> decide
    rw [term, if_neg hparen]
    exact buildsTo_char hok hblank hc hlit.1 hadv n
  | any h => exact builds_class (Or.inl h.1) (classOk_any h.1) h.2
  | cls hstart hbol hend hitems hadv =>
    exact builds_class (Or.inr hstart.1) (classOk_cls hstart hbol hend hitems) hadv
  | clsNeg hstart hbol hend hitems hadv =>
    exact builds_class (Or.inr hstart.1) (classOk_clsNeg hstart hbol hend hitems) hadv
  | blank hstart hend => exact builds_class (Or.inr hstart.1) (classOk_blank hstart hend.1) hend.2
  | blankNeg hstart hbol hend =>
    exact builds_class (Or.inr hstart.1) (classOk_blankNeg hstart hbol hend.1) hend.2
  | @group s s₁ s₂ s₃ e hopen _ hclose ih =>
    obtain ⟨N, hN⟩ := ih (by rw [hclose.1]; rfl) (by rw [hclose.1]; decide)
    refine ⟨N, fun k hk n _ m hok hblank => ?_⟩
    rw [term, if_pos hopen.1, advance_eq hopen.2, ok_bind]
    refine (hN k hk m hok hblank).bind fun f m₁ hf => ?_
    dsimp only
    rw [if_pos hclose.1, advance_eq hclose.2, ok_bind]
    exact Or.inr ⟨f, m₁, rfl, hf⟩
  | @factor s s' e _ ih =>
    intro hclosure
    have htok : ¬ (L.tok s' = .closrue ∨ L.tok s' = .plusClose ∨ L.tok s' = .optional) := hclosure
    obtain ⟨N, hN⟩ := ih
    refine ⟨N, fun k hk n hn m hok hblank => ?_⟩
    refine (hN k hk n hn m hok hblank).bind fun f m₁ hf => ?_
    dsimp only
    rw [if_neg htok]
    exact Or.inr ⟨f, m₁, rfl, hf⟩
  | star _ hread ih =>
    refine builds_closure (Or.inl rfl) ih hread ?_
    rw [if_pos (Or.inl rfl), if_pos (Or.inl rfl), add_comm]
    exact Language.one_add_self_mul_kstar_eq_kstar _
  | plus _ hread ih =>
    refine builds_closure (Or.inr (Or.inl rfl)) ih hread ?_
    rw [if_pos (Or.inr rfl), if_neg (by decide), add_zero]
    rfl
  | opt _ hread ih =>
    refine builds_closure (Or.inr (Or.inr rfl)) ih hread ?_
    rw [if_neg (by decide), if_pos (Or.inr rfl), mul_one]
    rfl
  | @catExpr s s₁ s₂ e e' hfactor hrest ih ih' =>
    intro hend
    obtain ⟨N, hN⟩ := ih (hrest.not_isClosure hend)
    obtain ⟨N', hN'⟩ := ih' hend
    refine ⟨max N N', fun k hk n hn m hok hblank => ?_⟩
    have hstart : firstInCat (L.tok s) = .ok true := (Token.StartsTerm.spec hfactor.starts).1
    rw [Lex.catExpr, hstart, ok_bind, if_pos rfl]
    exact (hN k (by omega) n (by omega) m hok hblank).bind fun f m₁ hf =>
      hN' k (by omega) n (by omega) m m₁ f hf
  | @catNil s e =>
    intro hend
    refine ⟨1, fun k _ n hn m₀ m f hf => ?_⟩
    obtain ⟨n, rfl⟩ := Nat.exists_eq_add_of_le' hn
    rw [catLoop, hend, ok_bind, if_neg (by decide)]
    exact Or.inr ⟨f, m, rfl, hf⟩
  | @catCons s s₁ s₂ e e' e'' hfactor hrest ih ih' =>
    intro hend
    obtain ⟨N, hN⟩ := ih (hrest.not_isClosure hend)
    obtain ⟨N', hN'⟩ := ih' hend
    refine ⟨max N N' + 1, fun k hk n hn m₀ m f hf => ?_⟩
    obtain ⟨n, rfl⟩ : ∃ n', n = n' + 1 := ⟨n - 1, by omega⟩
    have hstart : firstInCat (L.tok s) = .ok true := (Token.StartsTerm.spec hfactor.starts).1
    rw [catLoop, hstart, ok_bind, if_pos rfl]
    refine (hN k (by omega) n (by omega) m hf.built.ext.ok hf.blank).bind fun g m₁ hg => ?_
    dsimp only
    rcases joinFrag_cases f g m₁ with h | ⟨f', m₂, h⟩
    · rw [h]
      exact Or.inl ⟨_, Or.inr rfl, rfl⟩
    · rw [h, ok_bind]
      exact hN' k (by omega) n (by omega) m₀ m₂ f' (hf.joinFrag hg h)
  | @expr s s₁ s₂ e e' hcat hrest ih ih' =>
    intro hend hor
    obtain ⟨N, hN⟩ := ih (hrest.firstInCat_eq hend)
    obtain ⟨N', hN'⟩ := ih' hend hor
    refine ⟨max N N' + 1, fun n hn m hok hblank => ?_⟩
    obtain ⟨n, rfl⟩ : ∃ n', n = n' + 1 := ⟨n - 1, by omega⟩
    rw [Lex.expr]
    exact (hN n (by omega) n (by omega) m hok hblank).bind fun f m₁ hf =>
      hN' n (by omega) n (by omega) m m₁ f hf
  | @exprNil s e =>
    intro _ hor
    refine ⟨1, fun k _ n hn m₀ m f hf => ?_⟩
    obtain ⟨n, rfl⟩ := Nat.exists_eq_add_of_le' hn
    rw [exprLoop, if_neg hor]
    exact Or.inr ⟨f, m, rfl, hf⟩
  | @exprCons s s₁ s₂ s₃ e e' e'' hread hcat hrest ih ih' =>
    intro hend hor
    obtain ⟨N, hN⟩ := ih (hrest.firstInCat_eq hend)
    obtain ⟨N', hN'⟩ := ih' hend hor
    refine ⟨max N N' + 1, fun k hk n hn m₀ m f hf => ?_⟩
    obtain ⟨n, rfl⟩ : ∃ n', n = n' + 1 := ⟨n - 1, by omega⟩
    rw [exprLoop, if_pos hread.1, advance_eq hread.2, ok_bind]
    refine (hN k (by omega) n (by omega) m hf.built.ext.ok hf.blank).bind fun g m₁ hg => ?_
    dsimp only
    rcases orFrag_cases f g m₁ with h | ⟨f', m₂, h⟩
    · rw [h]
      exact Or.inl ⟨_, Or.inl rfl, rfl⟩
    · rw [h, ok_bind]
      exact hN' k (by omega) n (by omega) m₀ m₂ f' (hf.orFrag hg h)

end Lex
